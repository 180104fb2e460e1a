import Mathlib.Data.List.Basic

/-!
# Trees placed in memory

A layout gives every part of a tree-shaped object an offset from the start of the object that it is
a part of, and every object a size. `Placing` is such a layout over any type of trees. A list of
numbers leads from a tree to one of its parts, and `offsetAt` adds up the offsets along it.

If the parts of each single object lie inside it, one behind the other (`Placing.Sound`), then so do
the parts of parts: what a list of numbers leads to lies inside the tree
(`Placing.Sound.offsetAt_add_size_le`), and two leaves do not overlap (`Placing.Sound.apart_of_ne`).
-/

namespace Mesa3D.Layout

/-- The parts of each tree, where they lie in it, and how much room a tree takes. -/
structure Placing (T : Type) where
  /-- The part with the given number. It may be asked for beyond the end of an array. -/
  part : T → ℕ → Option T
  /-- How many parts there are. -/
  length : T → ℕ
  /-- Where the part with the given number starts. -/
  offset : T → ℕ → ℕ
  /-- The room that the tree takes. -/
  size : T → ℕ

namespace Placing

variable {T : Type} (P : Placing T)

/-- The part that a list of numbers leads to. -/
def partAt : T → List ℕ → Option T
  | t, [] => some t
  | t, i :: p => (P.part t i).bind fun u => partAt u p

/-- Where the part that a list of numbers leads to starts. -/
def offsetAt : T → List ℕ → ℕ
  | _, [] => 0
  | t, i :: p => P.offset t i + ((P.part t i).map fun u => offsetAt u p).getD 0

/-- Each number on the way is that of a part. -/
def inBounds : T → List ℕ → Bool
  | _, [] => true
  | t, i :: p => decide (i < P.length t) && ((P.part t i).map fun u => inBounds u p).getD false

variable {P}

variable {t u : T} {i : ℕ} {p : List ℕ}

/-- The part at a path goes through the first part. -/
@[simp] theorem partAt_cons_of_part (h : P.part t i = some u) (p : List ℕ) :
    P.partAt t (i :: p) = P.partAt u p := by
  simp [Placing.partAt, h]

/-- The offsets along a path add up. -/
@[simp] theorem offsetAt_cons_of_part (h : P.part t i = some u) (p : List ℕ) :
    P.offsetAt t (i :: p) = P.offset t i + P.offsetAt u p := by
  simp [Placing.offsetAt, h]

/-- A list of numbers in bounds starts with that of a part, and goes on in bounds. -/
theorem inBounds_cons (h : P.inBounds t (i :: p) = true) :
    i < P.length t ∧ ∃ u, P.part t i = some u ∧ P.inBounds u p = true := by
  simp only [Placing.inBounds, Bool.and_eq_true, decide_eq_true_eq] at h
  refine ⟨h.1, ?_⟩
  cases hu : P.part t i with
  | none => simp [hu] at h
  | some u => exact ⟨u, rfl, by simpa [hu] using h.2⟩

/-- On the trees with `ok`, the parts of a tree lie inside it, in the order of their numbers, and do
not overlap. -/
structure Sound (P : Placing T) (ok : T → Prop) : Prop where
  /-- The parts of such a tree are such trees. -/
  ok_part : ∀ {t u : T} {i : ℕ}, ok t → P.part t i = some u → ok u
  /-- A part ends inside the tree. -/
  inside : ∀ {t u : T} {i : ℕ}, ok t → i < P.length t → P.part t i = some u →
    P.offset t i + P.size u ≤ P.size t
  /-- A part ends before the next one starts. -/
  apart : ∀ {t u : T} {i j : ℕ}, ok t → i < j → j < P.length t → P.part t i = some u →
    P.offset t i + P.size u ≤ P.offset t j

variable {ok : T → Prop}

/-- What a list of numbers in bounds leads to lies inside the tree. -/
theorem Sound.offsetAt_add_size_le (h : P.Sound ok) (ht : ok t) (hp : P.inBounds t p = true)
    (hu : P.partAt t p = some u) : P.offsetAt t p + P.size u ≤ P.size t := by
  induction p generalizing t with
  | nil =>
    obtain rfl : t = u := Option.some.inj hu
    simp [offsetAt]
  | cons i p ih =>
    obtain ⟨hi, v, hv, hp'⟩ := inBounds_cons hp
    rw [partAt_cons_of_part hv] at hu
    rw [offsetAt_cons_of_part hv]
    have h1 := ih (h.ok_part ht hv) hp' hu
    have h2 := h.inside ht hi hv
    omega

/-- A list of numbers in bounds leads to some part. -/
theorem exists_partAt (hp : P.inBounds t p = true) : ∃ u, P.partAt t p = some u := by
  induction p generalizing t with
  | nil => exact ⟨t, rfl⟩
  | cons i p ih =>
    obtain ⟨-, v, hv, hp'⟩ := inBounds_cons hp
    rw [partAt_cons_of_part hv]
    exact ih hp'

/-- The parts of a tree start inside it. -/
theorem Sound.offsetAt_le (h : P.Sound ok) (ht : ok t) (hp : P.inBounds t p = true) :
    P.offsetAt t p ≤ P.size t := by
  obtain ⟨u, hu⟩ := exists_partAt hp
  exact Nat.le_trans (Nat.le_add_right _ _) (h.offsetAt_add_size_le ht hp hu)

/-- Leaves with different lists of numbers do not overlap. -/
theorem Sound.apart_of_ne (h : P.Sound ok) {w : T} {q : List ℕ} (ht : ok t)
    (hp : P.inBounds t p = true) (hq : P.inBounds t q = true) (hu : P.partAt t p = some u)
    (hw : P.partAt t q = some w) (hlu : P.length u = 0) (hlw : P.length w = 0) (hne : p ≠ q) :
    P.offsetAt t p + P.size u ≤ P.offsetAt t q ∨ P.offsetAt t q + P.size w ≤ P.offsetAt t p := by
  induction p generalizing t q with
  | nil =>
    obtain rfl : t = u := Option.some.inj hu
    cases q with
    | nil => exact absurd rfl hne
    | cons j q => exact absurd (inBounds_cons hq).1 (by omega)
  | cons i p ih =>
    obtain ⟨hi, u', hu', hp'⟩ := inBounds_cons hp
    cases q with
    | nil =>
      obtain rfl : t = w := Option.some.inj hw
      omega
    | cons j q =>
      obtain ⟨hj, w', hw', hq'⟩ := inBounds_cons hq
      rw [partAt_cons_of_part hu'] at hu
      rw [partAt_cons_of_part hw'] at hw
      rw [offsetAt_cons_of_part hu', offsetAt_cons_of_part hw']
      have hpin := h.offsetAt_add_size_le (h.ok_part ht hu') hp' hu
      have hqin := h.offsetAt_add_size_le (h.ok_part ht hw') hq' hw
      rcases Nat.lt_trichotomy i j with hij | rfl | hij
      · have := h.apart ht hij hj hu'
        omega
      · obtain rfl : u' = w' := Option.some.inj (hu'.symm.trans hw')
        have := ih (h.ok_part ht hu') hp' hq' hu hw (fun heq => hne (by rw [heq]))
        omega
      · have := h.apart ht hij hi hw'
        omega

end Placing

end Mesa3D.Layout
