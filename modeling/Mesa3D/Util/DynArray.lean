import Mathlib.Data.List.Basic

/-!
# Walking an array backwards while removing elements

`util_dynarray_foreach_reverse` of `u_dynarray.h` visits the elements of a growable array from the
last to the first. Its users remove the element that they visit by overwriting it with the last one
and shrinking the array. The element that moves down has been visited before, so each element is
visited exactly once; the order of the elements that stay is not kept.
-/

namespace Mesa3D.DynArray

variable {α : Type}

/-- Remove the first element by moving the last one into its place. -/
def popInto : List α → List α
  | [] => []
  | [_] => []
  | _ :: y :: ys => (y :: ys).getLast (by simp) :: (y :: ys).dropLast

/-- Walk backwards and replace each element by its image under `f`, or remove it where there is
none. -/
def foreachReverse (f : α → Option α) : List α → List α
  | [] => []
  | x :: xs =>
    let ys := foreachReverse f xs
    match f x with
    | some y => y :: ys
    | none => popInto (x :: ys)

/-- Moving the last element into the place of the first keeps all other elements. -/
theorem mem_popInto (a x : α) (xs : List α) : a ∈ popInto (x :: xs) ↔ a ∈ xs := by
  cases xs with
  | nil => simp [popInto]
  | cons y ys =>
    have h := List.dropLast_append_getLast (l := y :: ys) (by simp)
    rw [popInto, List.mem_cons]
    conv_rhs => rw [← h]
    simp [or_comm]

/-- The elements after the walk are the images of the elements before it. -/
theorem mem_foreachReverse (f : α → Option α) (a : α) (xs : List α) :
    a ∈ foreachReverse f xs ↔ ∃ x ∈ xs, f x = some a := by
  induction xs with
  | nil => simp [foreachReverse]
  | cons x xs ih =>
    simp only [foreachReverse, List.mem_cons, exists_eq_or_imp]
    split
    · rename_i y hy
      simp [List.mem_cons, ih, hy, eq_comm]
    · rename_i hx
      simp [mem_popInto, ih, hx]

/-- Walk backwards and remove the elements on which `p` holds. -/
def removeReverse (p : α → Bool) (xs : List α) : List α :=
  foreachReverse (fun x => if p x then none else some x) xs

/-- The elements that stay are those on which `p` does not hold. -/
theorem mem_removeReverse (p : α → Bool) (a : α) (xs : List α) :
    a ∈ removeReverse p xs ↔ a ∈ xs ∧ p a = false := by
  rw [removeReverse, mem_foreachReverse]
  constructor
  · rintro ⟨x, hx, h⟩
    split at h <;> simp_all
  · rintro ⟨ha, h⟩
    exact ⟨a, ha, by simp [h]⟩

end Mesa3D.DynArray
