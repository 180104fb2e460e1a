import Mathlib.Logic.Relation
import Mathlib.Algebra.Group.Nat.Defs

/-!
# The virtual address heap

`vma.c`: a heap of addresses below `2^64` is the list of its holes, from high to low. The functions
compute in the arithmetic of a `uint64_t`. The elements of the linked list are the elements of a
`List` here, and a hole that the source changes in place is replaced.
-/

namespace Mesa3D.Vma

/-- `struct util_vma_hole`. -/
structure Hole where
  /-- `offset`. -/
  offset : BitVec 64
  /-- `size`. -/
  size : BitVec 64
deriving DecidableEq

/-- `struct util_vma_heap`. -/
abbrev Heap := List Hole

/-- The loop of `util_vma_heap_validate` behind the topmost hole. -/
def validateBelow : BitVec 64 → Heap → Bool
  | _, [] => true
  | prevOffset, hole :: rest =>
    decide (hole.offset > 0) && decide (hole.size > 0) &&
      (decide (hole.size + hole.offset > hole.offset) &&
        decide (hole.size + hole.offset < prevOffset)) &&
      validateBelow hole.offset rest

/-- `util_vma_heap_validate`. The topmost hole may end at `2^64`. -/
def utilVmaHeapValidate : Heap → Bool
  | [] => true
  | hole :: rest =>
    decide (hole.offset > 0) && decide (hole.size > 0) &&
      (hole.size + hole.offset == 0 || decide (hole.size + hole.offset > hole.offset)) &&
      validateBelow hole.offset rest

/-- `util_vma_heap_alloc`: the heap and the offset, which is zero if the allocation failed. -/
def utilVmaHeapAlloc (size alignment : BitVec 64) : Heap → Heap × BitVec 64
  | [] => ([], 0)
  | hole :: rest =>
    let next := utilVmaHeapAlloc size alignment rest
    if size > hole.size then (hole :: next.1, next.2)
    else
      -- the highest address where the chunk fits, aligned down
      let offset := ((hole.size - size) + hole.offset) / alignment * alignment
      if offset < hole.offset then (hole :: next.1, next.2)
      else if offset = hole.offset ∧ size = hole.size then (rest, offset)
      else
        let waste := (hole.size - size) - (offset - hole.offset)
        if waste = 0 then (⟨hole.offset, hole.size - size⟩ :: rest, offset)
        else if offset = hole.offset then
          (⟨hole.offset + size, hole.size - size⟩ :: rest, offset)
        else (⟨offset + size, waste⟩ :: ⟨hole.offset, offset - hole.offset⟩ :: rest, offset)

/-- `util_vma_heap_free`. -/
def utilVmaHeapFree (heap : Heap) (offset size : BitVec 64) : Heap :=
  -- `high_hole` is the last hole above the range, and `low_hole` the first one below
  let above := heap.takeWhile fun hole => decide (offset < hole.offset)
  let below := heap.dropWhile fun hole => decide (offset < hole.offset)
  match above.getLast?, below with
  | some highHole, lowHole :: lower =>
    if lowHole.offset + lowHole.size = offset ∧ offset + size = highHole.offset then
      above.dropLast ++ ⟨lowHole.offset, lowHole.size + (size + highHole.size)⟩ :: lower
    else if lowHole.offset + lowHole.size = offset then
      above ++ ⟨lowHole.offset, lowHole.size + size⟩ :: lower
    else if offset + size = highHole.offset then
      above.dropLast ++ ⟨offset, highHole.size + size⟩ :: lowHole :: lower
    else above ++ ⟨offset, size⟩ :: lowHole :: lower
  | some highHole, [] =>
    if offset + size = highHole.offset then above.dropLast ++ [⟨offset, highHole.size + size⟩]
    else above ++ [⟨offset, size⟩]
  | none, lowHole :: lower =>
    if lowHole.offset + lowHole.size = offset then
      ⟨lowHole.offset, lowHole.size + size⟩ :: lower
    else ⟨offset, size⟩ :: lowHole :: lower
  | none, [] => [⟨offset, size⟩]

/-- `util_vma_heap_init`. -/
def utilVmaHeapInit (start size : BitVec 64) : Heap := utilVmaHeapFree [] start size

/-- The assertions of `util_vma_heap_free` on its arguments and on the holes around the range. -/
def freeAsserts (heap : Heap) (offset size : BitVec 64) : Bool :=
  let above := heap.takeWhile fun hole => decide (offset < hole.offset)
  let below := heap.dropWhile fun hole => decide (offset < hole.offset)
  decide (offset > 0) && decide (size > 0) &&
    (offset + size == 0 || decide (offset + size > offset)) &&
    (above.getLast?.all fun highHole => decide (offset + size ≤ highHole.offset)) &&
    (below.head?.all fun lowHole =>
      decide (lowHole.offset + lowHole.size > lowHole.offset) &&
        decide (lowHole.offset + lowHole.size ≤ offset))

/-! ### Runs -/

/-- A heap with the ranges that are allocated: their offsets and sizes. -/
structure State where
  /-- The holes. -/
  heap : Heap
  /-- The allocations. -/
  live : List Hole
deriving DecidableEq

/-- What a caller does: it allocates, or frees an allocated range. -/
inductive Step : State → State → Prop
  /-- An allocation that succeeds. -/
  | alloc {s : State} (size alignment : BitVec 64) (hsize : 0 < size) (halign : 0 < alignment)
      (hok : (utilVmaHeapAlloc size alignment s.heap).2 ≠ 0) :
      Step s ⟨(utilVmaHeapAlloc size alignment s.heap).1,
        ⟨(utilVmaHeapAlloc size alignment s.heap).2, size⟩ :: s.live⟩
  /-- An allocation that fails. -/
  | fail {s : State} (size alignment : BitVec 64) (hsize : 0 < size) (halign : 0 < alignment)
      (hfail : (utilVmaHeapAlloc size alignment s.heap).2 = 0) :
      Step s ⟨(utilVmaHeapAlloc size alignment s.heap).1, s.live⟩
  /-- An allocated range is freed. -/
  | free {s : State} (r : Hole) (hr : r ∈ s.live) :
      Step s ⟨utilVmaHeapFree s.heap r.offset r.size, s.live.erase r⟩

/-- The states after any calls on the heap that `util_vma_heap_init` makes. -/
def Reachable (start size : BitVec 64) (s : State) : Prop :=
  Relation.ReflTransGen Step ⟨utilVmaHeapInit start size, []⟩ s

end Mesa3D.Vma
