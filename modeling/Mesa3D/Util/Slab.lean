import Mathlib.Logic.Relation
import Mathlib.Logic.Function.Basic
import Mathlib.Data.Nat.Notation

/-!
# The slab allocator

`slab.c`: child pools of one parent hand out elements of pages. An element that is freed through its
own pool goes to the free list of the pool, without a lock. One that is freed through another pool
goes to the migrated list of its owner, under the mutex of the parent. When a pool is destroyed, its
pages are orphaned: the owner of each element is then the page, which counts the elements that are
not freed, and the one who frees the last of them frees the page.

Each pool is used by one thread, whose place in the code is `Pc`. A critical section under the mutex
is one step, and so is each access outside that other threads can see: the first look at
`elt->owner` and each atomic decrement. Pools and pages are pointers, here numbers, and `malloc`
returns a page that was not there before. `released` and `freed` are kept for the statements only:
the elements that `slab_free_orphaned` was called for, and how often a page was freed.
-/

namespace Mesa3D.Slab

/-- An element: its page and its index there. -/
structure Elt where
  /-- The page. -/
  page : ℕ
  /-- The index in the page. -/
  index : ℕ
deriving DecidableEq

/-- `elt->owner`. -/
inductive Owner
  | pool (p : ℕ)
  | orphaned (page : ℕ)
deriving DecidableEq

/-- Where the thread of a pool is. -/
inductive Pc
  /-- Not created, or destroyed. -/
  | absent
  | idle
  /-- In `slab_alloc`, behind the critical section. -/
  | allocating
  /-- In `slab_free`, in front of the lock. -/
  | freeing (e : Elt)
  /-- In `slab_free`, about to call `slab_free_orphaned`. -/
  | releasing (e : Elt)
  /-- In `slab_destroy_child`, behind the critical section. -/
  | destroying
deriving DecidableEq

/-- `struct slab_child_pool`, with the place of its thread. -/
structure Pool where
  /-- `pages`. -/
  pages : List ℕ
  /-- `free`. -/
  free : List Elt
  /-- `migrated`. -/
  migrated : List Elt
  /-- Where the thread of the pool is. -/
  pc : Pc

/-- All pools of a parent, and their pages. -/
structure State where
  /-- The pools. -/
  pools : ℕ → Pool
  /-- The owners of the elements. -/
  owner : Elt → Owner
  /-- `page->u.num_remaining`. -/
  numRemaining : ℕ → ℕ
  /-- The number of pages that `malloc` has returned. -/
  pageCount : ℕ
  /-- The elements that callers have. -/
  allocated : List Elt
  /-- The elements that were released. -/
  released : List Elt
  /-- How often a page was freed. -/
  freed : ℕ → ℕ

/-- No pool is created. -/
def initial : State where
  pools := fun _ => ⟨[], [], [], .absent⟩
  owner := fun _ => .pool 0
  numRemaining := fun _ => 0
  pageCount := 0
  allocated := []
  released := []
  freed := fun _ => 0

namespace State

/-- Changes a pool. -/
def setPool (s : State) (p : ℕ) (pool : Pool) : State :=
  { s with pools := Function.update s.pools p pool }

/-- `slab_free_orphaned`. -/
def slabFreeOrphaned (s : State) (e : Elt) : State :=
  { s with
    numRemaining := Function.update s.numRemaining e.page (s.numRemaining e.page - 1)
    freed := if s.numRemaining e.page - 1 = 0 then
        Function.update s.freed e.page (s.freed e.page + 1)
      else s.freed
    released := e :: s.released }

/-- The body of the loop of `slab_destroy_child` over the pages. -/
def orphanPage (n : ℕ) (s : State) (page : ℕ) : State :=
  { s with
    numRemaining := Function.update s.numRemaining page n
    owner := fun e => if e.page = page ∧ e.index < n then .orphaned page else s.owner e }

/-- The critical section of `slab_destroy_child`. -/
def destroyLocked (n : ℕ) (s : State) (p : ℕ) : State :=
  let pool := s.pools p
  let t := pool.migrated.foldl slabFreeOrphaned (pool.pages.foldl (orphanPage n) s)
  t.setPool p { pool with pages := [], migrated := [], pc := .destroying }

/-- The elements of a page, in the order in which `slab_add_new_page` puts them on the free list. -/
def pageElements (n page : ℕ) : List Elt := (List.range n).reverse.map fun i => ⟨page, i⟩

/-- `slab_add_new_page`, if `malloc` succeeds. -/
def slabAddNewPage (n : ℕ) (s : State) (p : ℕ) : State :=
  { s.setPool p { s.pools p with
      pages := s.pageCount :: (s.pools p).pages
      free := pageElements n s.pageCount ++ (s.pools p).free } with
    owner := fun e => if e.page = s.pageCount ∧ e.index < n then .pool p else s.owner e
    pageCount := s.pageCount + 1 }

/-- The critical section of `slab_free`. -/
def freeLocked (s : State) (p : ℕ) (e : Elt) : State :=
  match s.owner e with
  | .pool q =>
    let t := s.setPool p { s.pools p with pc := .idle }
    t.setPool q { t.pools q with migrated := e :: (t.pools q).migrated }
  | .orphaned _ => s.setPool p { s.pools p with pc := .releasing e }

end State

/-- The steps of the threads, for pages of `n` elements. -/
inductive Step (n : ℕ) : State → State → Prop
  /-- `slab_create_child`. -/
  | create (s : State) (p : ℕ) (hpc : (s.pools p).pc = .absent) :
      Step n s (s.setPool p ⟨[], [], [], .idle⟩)
  /-- `slab_alloc`, if there is a free element. -/
  | alloc (s : State) (p : ℕ) (e : Elt) (rest : List Elt)
      (hpc : (s.pools p).pc = .idle ∨ (s.pools p).pc = .allocating)
      (hfree : (s.pools p).free = e :: rest) :
      Step n s { s.setPool p { s.pools p with free := rest, pc := .idle } with
        allocated := e :: s.allocated }
  /-- The critical section of `slab_alloc`. -/
  | collect (s : State) (p : ℕ) (hpc : (s.pools p).pc = .idle) (hfree : (s.pools p).free = []) :
      Step n s (s.setPool p { s.pools p with
        free := (s.pools p).migrated, migrated := [], pc := .allocating })
  /-- There is still no free element, and `slab_alloc` adds a page. If the page had no elements, it
  would go on to read the first element of an empty list. -/
  | addPage (s : State) (p : ℕ) (hpc : (s.pools p).pc = .allocating)
      (hfree : (s.pools p).free = []) (hn : 0 < n) : Step n s (s.slabAddNewPage n p)
  /-- `malloc` fails, and `slab_alloc` returns `NULL`. -/
  | fail (s : State) (p : ℕ) (hpc : (s.pools p).pc = .allocating)
      (hfree : (s.pools p).free = []) : Step n s (s.setPool p { s.pools p with pc := .idle })
  /-- `slab_free` on an element of the pool. -/
  | freeOwn (s : State) (p : ℕ) (e : Elt) (hpc : (s.pools p).pc = .idle) (he : e ∈ s.allocated)
      (hown : s.owner e = .pool p) :
      Step n s { s.setPool p { s.pools p with free := e :: (s.pools p).free } with
        allocated := s.allocated.erase e }
  /-- `slab_free` on another element, up to the lock. -/
  | freeOther (s : State) (p : ℕ) (e : Elt) (hpc : (s.pools p).pc = .idle) (he : e ∈ s.allocated)
      (hown : s.owner e ≠ .pool p) :
      Step n s { s.setPool p { s.pools p with pc := .freeing e } with
        allocated := s.allocated.erase e }
  /-- The critical section of `slab_free`. -/
  | freeLocked (s : State) (p : ℕ) (e : Elt) (hpc : (s.pools p).pc = .freeing e) :
      Step n s (s.freeLocked p e)
  /-- The call of `slab_free_orphaned` in `slab_free`. -/
  | release (s : State) (p : ℕ) (e : Elt) (hpc : (s.pools p).pc = .releasing e) :
      Step n s ((s.slabFreeOrphaned e).setPool p { s.pools p with pc := .idle })
  /-- The critical section of `slab_destroy_child`. -/
  | destroyLocked (s : State) (p : ℕ) (hpc : (s.pools p).pc = .idle) :
      Step n s (s.destroyLocked n p)
  /-- A call of `slab_free_orphaned` in `slab_destroy_child`, for an element of the free list. -/
  | destroyFree (s : State) (p : ℕ) (e : Elt) (rest : List Elt)
      (hpc : (s.pools p).pc = .destroying) (hfree : (s.pools p).free = e :: rest) :
      Step n s ((s.slabFreeOrphaned e).setPool p { s.pools p with free := rest })
  /-- `slab_destroy_child` returns. -/
  | destroyed (s : State) (p : ℕ) (hpc : (s.pools p).pc = .destroying)
      (hfree : (s.pools p).free = []) : Step n s (s.setPool p { s.pools p with pc := .absent })

/-- The states after any interleaving of calls. -/
def Reachable (n : ℕ) (s : State) : Prop := Relation.ReflTransGen (Step n) initial s

end Mesa3D.Slab
