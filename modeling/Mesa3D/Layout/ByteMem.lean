import Mathlib.Data.List.Basic
import Mathlib.Data.List.GetD
import Mathlib.Tactic.Ring

/-!
# Memory as bytes

A memory is a byte for every address. `write` puts a list of bytes at an address and `read` takes as
many bytes as it is told from one. What was read at an address before a write to other addresses is
read there after it (`read_write_of_disjoint`), and any part of what was written is read back
(`read_write`).
-/

namespace Mesa3D.Layout

open List

/-- The byte at each address. -/
abbrev ByteMem := ℤ → BitVec 8

namespace ByteMem

variable (m : ByteMem)

/-- Put bytes at an address. -/
def write (a : ℤ) (bytes : List (BitVec 8)) : ByteMem := fun x =>
  if a ≤ x then bytes.getD (x - a).toNat (m x) else m x

/-- The `n` bytes at an address. -/
def read (a : ℤ) (n : ℕ) : List (BitVec 8) :=
  (List.range n).map fun k : ℕ => m (a + k)

variable {a : ℤ} {bytes : List (BitVec 8)}

/-- A byte that was written. -/
theorem write_of_lt {k : ℕ} (h : k < bytes.length) : m.write a bytes (a + k) = bytes[k] := by
  unfold write
  rw [if_pos (by omega), show (a + k - a).toNat = k by omega, getD_eq_getElem _ _ h]

/-- A byte that was not written. -/
theorem write_of_outside {x : ℤ} (h : x < a ∨ a + bytes.length ≤ x) : m.write a bytes x = m x := by
  unfold write
  split
  · exact getD_eq_default _ _ (by omega)
  · rfl

/-- What was written is read back, also in parts. -/
theorem read_write (a : ℤ) (front bytes back : List (BitVec 8)) :
    (m.write a (front ++ bytes ++ back)).read (a + front.length) bytes.length = bytes := by
  apply ext_getElem
  · simp [read]
  · intro k h1 h2
    have hlt : front.length + k < (front ++ bytes ++ back).length := by
      simp only [length_append]
      omega
    have haddr : a + front.length + (k : ℤ) = a + ((front.length + k : ℕ) : ℤ) := by
      push_cast
      omega
    simp only [read, getElem_map, getElem_range]
    rw [haddr, write_of_lt m hlt]
    simp [h2]

/-- Reading on where a read has stopped. -/
theorem read_add (a : ℤ) (n k : ℕ) : m.read a (n + k) = m.read a n ++ m.read (a + n) k := by
  unfold read
  rw [range_add, map_append, map_map]
  congr 1
  apply map_congr_left
  intro i _
  simp only [Function.comp_apply]
  congr 1
  push_cast
  ring

/-- What was written is read back. -/
theorem read_write_self (a : ℤ) (bytes : List (BitVec 8)) :
    (m.write a bytes).read a bytes.length = bytes := by
  simpa using m.read_write a [] bytes []

/-- A write does not change what is read elsewhere. -/
theorem read_write_of_disjoint {b : ℤ} {n : ℕ} (h : b + n ≤ a ∨ a + bytes.length ≤ b) :
    (m.write a bytes).read b n = m.read b n := by
  apply map_congr_left
  intro k hk
  have := mem_range.mp hk
  exact m.write_of_outside (by omega)

end ByteMem

end Mesa3D.Layout
