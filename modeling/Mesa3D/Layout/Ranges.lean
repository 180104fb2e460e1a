import Mathlib.Data.List.Count
import Mathlib.Data.List.Pairwise

/-!
# Ranges that tile an interval

A range is a first number and a length. A list of ranges tiles an interval if each number of the
interval is in exactly one of them and no other number is in any (`Tiles`). Stated by counting, this
is kept by any change that keeps the count of each number: one range is cut in pieces
(`Tiles.of_count_eq`), or two that follow each other become one (`hits_append`).
-/

namespace Mesa3D.Layout

/-- The numbers from `first` on, `length` of them. -/
structure Range where
  /-- The first address. -/
  first : ℕ
  /-- The number of addresses. -/
  length : ℕ
deriving DecidableEq

namespace Range

/-- The first number behind the range. -/
def stop (r : Range) : ℕ := r.first + r.length

/-- Whether the range has the number. -/
def has (r : Range) (x : ℕ) : Bool := decide (r.first ≤ x ∧ x < r.stop)

/-- What a range has, by its first address and its length. -/
theorem has_iff {r : Range} {x : ℕ} : r.has x = true ↔ r.first ≤ x ∧ x < r.first + r.length := by
  exact decide_eq_true_iff

/-- No number is in both. -/
def Apart (r s : Range) : Prop := ∀ x, ¬(r.has x = true ∧ s.has x = true)

/-- How often a number is in a list of ranges. -/
def hits (l : List Range) (x : ℕ) : ℕ := l.countP (·.has x)

/-- Nothing is hit without ranges. -/
@[simp] theorem hits_nil (x : ℕ) : hits [] x = 0 := rfl

/-- The hits with one range more. -/
@[simp] theorem hits_cons (r : Range) (l : List Range) (x : ℕ) :
    hits (r :: l) x = hits l x + if r.first ≤ x ∧ x < r.first + r.length then 1 else 0 := by
  simp [hits, List.countP_cons, has_iff]

/-- The hits of two lists. -/
@[simp] theorem hits_append (l m : List Range) (x : ℕ) : hits (l ++ m) x = hits l x + hits m x := by
  simp [hits]

/-- The order of the ranges does not matter. -/
theorem hits_perm {l m : List Range} (h : l.Perm m) (x : ℕ) : hits l x = hits m x := h.countP_eq _

/-- An address of a range is hit. -/
theorem hits_pos {l : List Range} {r : Range} (hr : r ∈ l) {x : ℕ} (hx : r.has x = true) :
    0 < hits l x := List.countP_pos_iff.2 ⟨r, hr, hx⟩

/-- Each number from `first` up to `stop` is in one range of the list, and no other number is. -/
def Tiles (first stop : ℕ) (l : List Range) : Prop :=
  ∀ x, hits l x = if first ≤ x ∧ x < stop then 1 else 0

variable {first stop : ℕ} {l m : List Range}

/-- Ranges with the same hits tile the same addresses. -/
theorem Tiles.of_count_eq (h : Tiles first stop l) (hm : ∀ x, hits m x = hits l x) :
    Tiles first stop m := fun x => (hm x).trans (h x)

/-- The ranges have the numbers of the interval. -/
theorem Tiles.exists_has_iff (h : Tiles first stop l) (x : ℕ) :
    (∃ r ∈ l, r.has x = true) ↔ first ≤ x ∧ x < stop := by
  rw [← List.countP_pos_iff, show l.countP (·.has x) = hits l x from rfl, h x]
  split <;> simp_all

/-- A range of the list is inside the interval. -/
theorem Tiles.inside (h : Tiles first stop l) {r : Range} (hr : r ∈ l) (hpos : 0 < r.length) :
    first ≤ r.first ∧ r.stop ≤ stop := by
  have hfirst := (h.exists_has_iff r.first).1 ⟨r, hr, has_iff.2 (by omega)⟩
  have hlast := (h.exists_has_iff (r.first + r.length - 1)).1 ⟨r, hr, has_iff.2 (by omega)⟩
  unfold Range.stop
  omega

/-- No number is in two ranges of the list. -/
theorem Tiles.pairwise_apart (h : Tiles first stop l) : l.Pairwise Apart := by
  have hle : ∀ x, hits l x ≤ 1 := by
    intro x
    rw [h x]
    split <;> omega
  clear h
  induction l with
  | nil => exact List.Pairwise.nil
  | cons r l ih =>
    refine List.Pairwise.cons ?_ (ih fun x => ?_)
    · intro s hs x hx
      have h2 := hits_pos hs hx.2
      have h1 := hle x
      rw [hits_cons, if_pos (has_iff.1 hx.1)] at h1
      omega
    · have := hle x
      rw [hits_cons] at this
      omega

end Range

end Mesa3D.Layout
