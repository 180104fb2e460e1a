import Mathlib.Data.List.Range
import Mathlib.Data.Nat.ModEq

/-!
# Walking around a ring

A ring buffer of `size` slots is walked from one index to another by adding one modulo the size.
`walk` is the loop that stops in front of the second index, and `walkFull` the loop that tests
behind the first step, so that it goes around once if the two indices are the same. With `n` slots
between them, both visit `n` slots in order (`walk_eq`, `walkFull_eq`), except that `walk` visits
none if `n` is the whole size.
-/

namespace Mesa3D.Ring

open Nat

/-- The indices that `for (i = from; i != to; i = (i + 1) % size)` visits, in at most `fuel`
steps. -/
def walk (size stop : ℕ) : ℕ → ℕ → List ℕ
  | 0, _ => []
  | fuel + 1, i => if i = stop then [] else i :: walk size stop fuel ((i + 1) % size)

/-- The indices that `do .. while ((i = (i + 1) % size) != to)` visits from `from` on. -/
def walkFull (size stop i : ℕ) : List ℕ := i :: walk size stop size ((i + 1) % size)

/-- The slots from an index on. -/
def slots (size i n : ℕ) : List ℕ := (List.range n).map fun k => (i + k) % size

/-- The slots behind the first `m` ones. -/
theorem slots_add (size i m n : ℕ) :
    slots size i (m + n) = slots size i m ++ slots size (i + m) n := by
  simp [slots, List.range_add, Nat.add_assoc]

/-- The first slot and the rest. -/
theorem slots_succ (size i n : ℕ) :
    slots size i (n + 1) = i % size :: slots size (i + 1) n := by
  rw [Nat.add_comm n 1, slots_add]
  simp [slots]

/-- The slots depend on the start modulo the size. -/
theorem slots_mod (size i n : ℕ) : slots size (i % size) n = slots size i n := by
  simp [slots, mod_add_mod]

/-- The slots by their distance from the start. -/
theorem mem_slots {size i n x : ℕ} : x ∈ slots size i n ↔ ∃ k < n, (i + k) % size = x := by
  simp [slots]

/-- Different steps of less than a round lead to different slots. -/
theorem add_mod_inj {size i k l : ℕ} (hk : k < size) (hl : l < size)
    (h : (i + k) % size = (i + l) % size) : k = l := by
  have h' : k ≡ l [MOD size] := ModEq.add_left_cancel' i h
  exact h'.eq_of_lt_of_lt hk hl

/-- A step and `n` more steps. -/
theorem step_add_mod (size i n : ℕ) : ((i + 1) % size + n) % size = (i + (n + 1)) % size := by
  rw [mod_add_mod, Nat.add_assoc, Nat.add_comm 1 n]

/-- The loop visits the slots between the indices. -/
theorem walk_eq {size i n fuel : ℕ} (hi : i < size) (hn : n < size) (hfuel : n ≤ fuel) :
    walk size ((i + n) % size) fuel i = slots size i n := by
  induction n generalizing i fuel with
  | zero =>
    cases fuel with
    | zero => rfl
    | succ fuel => simp [walk, slots, mod_eq_of_lt hi]
  | succ n ih =>
    cases fuel with
    | zero => omega
    | succ fuel =>
      have hne : i ≠ (i + (n + 1)) % size := by
        intro h
        have h0 : (i + 0) % size = (i + (n + 1)) % size := by
          rwa [add_zero, mod_eq_of_lt hi]
        have := add_mod_inj (by omega) hn h0
        omega
      rw [walk, if_neg hne, slots_succ, mod_eq_of_lt hi, ← step_add_mod,
        ih (mod_lt _ (by omega)) (by omega) (by omega), slots_mod]

/-- The loop that tests behind the step visits all slots between the indices, also if these are all
slots of the ring. -/
theorem walkFull_eq {size i n : ℕ} (hi : i < size) (hn : n + 1 ≤ size) :
    walkFull size ((i + (n + 1)) % size) i = slots size i (n + 1) := by
  rw [walkFull, ← step_add_mod, walk_eq (mod_lt _ (by omega)) (by omega) (by omega), slots_succ,
    slots_mod, mod_eq_of_lt hi]

end Mesa3D.Ring
