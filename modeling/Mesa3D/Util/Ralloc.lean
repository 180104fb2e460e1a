import Mesa3D.Structured.Fuel

/-!
# The hierarchical allocator

`ralloc.c`: each block has a header with pointers to its parent, its first child and its neighbours
in the list of its parent's children. `ralloc_free` frees a block with all its descendants.

A block and its header are one here, and a pointer is the address of the block, or `none` for
`NULL`. The memory has a header for each block that is allocated. Reading or writing a header that
is not there, through a pointer that is stale, has no result, and nor has an assertion that fails.
`malloc` and `realloc` choose the address, of which only is known that it is free. The destructor is
called with the block; what it does is not part of the model, only that it is called. Loops take
fuel.
-/

namespace Mesa3D.Ralloc

open Function

/-- `ralloc_header`. Of the destructor only is kept whether there is one. -/
@[ext] structure Header where
  /-- `parent`. -/
  parent : Option ℕ
  /-- `child`. -/
  child : Option ℕ
  /-- `prev`. -/
  prev : Option ℕ
  /-- `next`. -/
  next : Option ℕ
  /-- There is a destructor. -/
  destructor : Bool

/-- The pointers of a header. -/
inductive Field
  | parent
  | child
  | prev
  | next
deriving DecidableEq

/-- A link of a header. -/
def Header.get (h : Header) : Field → Option ℕ
  | .parent => h.parent
  | .child => h.child
  | .prev => h.prev
  | .next => h.next

/-- A header with one link set. -/
def Header.set (h : Header) (f : Field) (v : Option ℕ) : Header :=
  match f with
  | .parent => { h with parent := v }
  | .child => { h with child := v }
  | .prev => { h with prev := v }
  | .next => { h with next := v }

/-- The header at each address. -/
abbrev Heap := ℕ → Option Header

variable (heap : Heap)

namespace Heap

/-- `a->f`. -/
def load (a : ℕ) (f : Field) : Option (Option ℕ) := (heap a).map fun h => h.get f

/-- `a->f = v`. -/
def store (a : ℕ) (f : Field) (v : Option ℕ) : Option Heap :=
  (heap a).map fun h => update heap a (some (h.set f v))

/-- `if (a != NULL) a->f = v`. -/
def storeIf (a : Option ℕ) (f : Field) (v : Option ℕ) : Option Heap :=
  match a with
  | none => some heap
  | some a => heap.store a f v

end Heap

/-- `add_child`. -/
def addChild (parent : Option ℕ) (info : ℕ) : Option Heap :=
  match parent with
  | none => some heap
  | some parent => do
    let heap ← heap.store info .parent (some parent)
    let heap ← heap.store info .next (← heap.load parent .child)
    let heap ← heap.store parent .child (some info)
    heap.storeIf (← heap.load info .next) .prev (some info)

/-- `ralloc_size`, for which `malloc` has returned the address `block`. -/
def rallocSize (ctx : Option ℕ) (block : ℕ) : Option Heap :=
  addChild (update heap block (some ⟨none, none, none, none, false⟩)) ctx block

/-- The loop of `resize`: the children get the new parent. -/
def reparent (heap : Heap) (info : ℕ) : ℕ → Option ℕ → Option Heap
  | 0, _ => none
  | _ + 1, none => some heap
  | fuel + 1, some child => do
    let heap ← heap.store child .parent (some info)
    reparent heap info fuel (← heap.load child .next)

/-- The part of `resize` that updates the links of the parent and of the siblings. -/
def relink (old info : ℕ) : Option Heap := do
  match ← heap.load info .parent with
  | none => some heap
  | some parent => do
    let heap ← if (← heap.load parent .child) = some old then
        heap.store parent .child (some info)
      else some heap
    let heap ← heap.storeIf (← heap.load info .prev) .next (some info)
    heap.storeIf (← heap.load info .next) .prev (some info)

/-- `resize`, for which `realloc` has returned the address `info`. -/
def resize (old info : ℕ) (fuel : ℕ) : Option Heap := do
  let h ← heap old
  let heap := update (update heap old none) info (some h)
  let heap ← if info ≠ old then relink heap old info else some heap
  reparent heap info fuel (← heap.load info .child)

/-- `reralloc_size`, with the address that `malloc` or `realloc` returns. -/
def rerallocSize (ctx ptr : Option ℕ) (block : ℕ) (fuel : ℕ) : Option Heap :=
  match ptr with
  | none => rallocSize heap ctx block
  | some ptr => do
    if (← heap.load ptr .parent) = ctx then resize heap ptr block fuel else none

/-- `unlink_block`. -/
def unlinkBlock (info : ℕ) : Option Heap := do
  let heap ← match ← heap.load info .parent with
    | none => some heap
    | some parent => do
      let next ← heap.load info .next
      let heap ← if (← heap.load parent .child) = some info then
          heap.store parent .child next
        else some heap
      let heap ← heap.storeIf (← heap.load info .prev) .next (← heap.load info .next)
      heap.storeIf (← heap.load info .next) .prev (← heap.load info .prev)
  let heap ← heap.store info .parent none
  let heap ← heap.store info .prev none
  heap.store info .next none

/-- What happens to a block when it is freed. -/
inductive Event
  | destructor (block : ℕ)
  | free (block : ℕ)
deriving DecidableEq

/-- `unsafe_free`, with the events in their order. The loop frees the first child and goes on. -/
def unsafeFree : ℕ → Heap → ℕ → Option (Heap × List Event)
  | 0, _, _ => none
  | fuel + 1, heap, info => do
    let h ← heap info
    match h.child with
    | some temp => do
      let heap ← heap.store info .child (← heap.load temp .next)
      let (heap, events) ← unsafeFree fuel heap temp
      let (heap, rest) ← unsafeFree fuel heap info
      some (heap, events ++ rest)
    | none =>
      let events := if h.destructor then [.destructor info, .free info] else [.free info]
      some (update heap info none, events)

/-- `ralloc_free`. -/
def rallocFree (ptr : Option ℕ) (fuel : ℕ) : Option (Heap × List Event) :=
  match ptr with
  | none => some (heap, [])
  | some info => do
    let heap ← unlinkBlock heap info
    unsafeFree fuel heap info

/-- `ralloc_steal`. -/
def rallocSteal (newCtx ptr : Option ℕ) : Option Heap :=
  match ptr with
  | none => some heap
  | some info => do
    let heap ← unlinkBlock heap info
    addChild heap newCtx info

/-- The loop of `ralloc_adopt`: the children get the new parent, and the last one is returned. -/
def adoptLoop (heap : Heap) (newInfo : ℕ) : ℕ → ℕ → Option (ℕ × Heap)
  | 0, _ => none
  | fuel + 1, child => do
    let heap ← heap.store child .parent (some newInfo)
    match ← heap.load child .next with
    | none => some (child, heap)
    | some next => adoptLoop heap newInfo fuel next

/-- `ralloc_adopt`. -/
def rallocAdopt (newInfo : ℕ) (oldCtx : Option ℕ) (fuel : ℕ) : Option Heap :=
  match oldCtx with
  | none => some heap
  | some oldInfo => do
    match ← heap.load oldInfo .child with
    | none => some heap
    | some first => do
      let (last, heap) ← adoptLoop heap newInfo fuel first
      let heap ← heap.store last .next (← heap.load newInfo .child)
      let heap ← heap.storeIf (← heap.load last .next) .prev (some last)
      let heap ← heap.store newInfo .child (← heap.load oldInfo .child)
      heap.store oldInfo .child none

/-- `ralloc_set_destructor`. -/
def rallocSetDestructor (ptr : ℕ) (destructor : Bool) : Option Heap :=
  (heap ptr).map fun h => update heap ptr (some { h with destructor := destructor })

/-! ### Calls -/

/-- A call of a client, with the address that the allocator chooses. -/
inductive Call
  | size (ctx : Option ℕ) (block : ℕ)
  | reralloc (ctx ptr : Option ℕ) (block : ℕ)
  | steal (newCtx ptr : Option ℕ)
  | adopt (newCtx : ℕ) (oldCtx : Option ℕ)
  | free (ptr : Option ℕ)
  | setDestructor (ptr : ℕ) (destructor : Bool)

/-- What a call does. -/
def Call.run (fuel : ℕ) : Call → Option (Heap × List Event)
  | .size ctx block => (rallocSize heap ctx block).map (·, [])
  | .reralloc ctx ptr block => (rerallocSize heap ctx ptr block fuel).map (·, [])
  | .steal newCtx ptr => (rallocSteal heap newCtx ptr).map (·, [])
  | .adopt newCtx oldCtx => (rallocAdopt heap newCtx oldCtx fuel).map (·, [])
  | .free ptr => rallocFree heap ptr fuel
  | .setDestructor ptr destructor => (rallocSetDestructor heap ptr destructor).map (·, [])

/-- The block is allocated. -/
def Alive (a : ℕ) : Prop := heap a ≠ none

/-- A pointer to a block, or `NULL`. -/
def Pointer (a : Option ℕ) : Prop := ∀ x, a = some x → Alive heap x

/-- The block `y` has the parent `x`. -/
def ParentOf (x y : ℕ) : Prop := ∃ h, heap y = some h ∧ h.parent = some x

/-- The block `y` is `x` or a descendant of it. -/
def Descends : ℕ → ℕ → Prop := Relation.ReflTransGen (ParentOf heap)

/-- The calls that a client may make: on blocks that are allocated, and without making a block a
descendant of itself. -/
def Call.Valid : Call → Prop
  | .size ctx block => Pointer heap ctx ∧ heap block = none
  | .reralloc ctx ptr block =>
    Pointer heap ctx ∧ Pointer heap ptr ∧ (heap block = none ∨ ptr = some block) ∧
      ∀ x, ptr = some x → ∀ h, heap x = some h → h.parent = ctx
  | .steal newCtx ptr => Pointer heap newCtx ∧ Pointer heap ptr ∧
      ∀ q x, newCtx = some q → ptr = some x → ¬ Descends heap x q
  | .adopt newCtx oldCtx => Alive heap newCtx ∧ Pointer heap oldCtx ∧
      ∀ x, oldCtx = some x → newCtx ≠ x ∧ ∀ c, ParentOf heap x c → ¬ Descends heap c newCtx
  | .free ptr => Pointer heap ptr
  | .setDestructor ptr _ => Alive heap ptr

/-- The memory after any sequence of calls that a client may make. -/
inductive Reachable : Heap → Prop
  | init : Reachable fun _ => none
  | call {heap heap' : Heap} {events : List Event} (c : Call) : Reachable heap → c.Valid heap →
      Fuel.Returns (fun fuel => c.run heap fuel) (heap', events) → Reachable heap'

end Mesa3D.Ralloc
