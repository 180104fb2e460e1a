import Mathlib.Data.List.Basic

/-!
# Resolving parallel copies

`resolve_parallel_copy` of `nir_from_ssa.c` turns a parallel copy into a sequence of movs. Each
source and destination gets an index into four arrays of `2 * num_copies` elements. `loc` has the
index of the place where a source value is now, and `pred` that of the source of each destination
that is not filled yet; `-1` is `none`. Destinations that can be filled, since nobody needs what is
in them, are on the stack `ready`. When that is empty and a destination on the stack `to_do` is not
filled, it is part of a cycle, and what is in it is moved to a new register.

Sources are SSA values or registers. A register holds a value as a whole: the source and the
destination of a copy have the same size. A step that indexes an array out of its bounds, or whose
assertion fails, has no result.
-/

namespace Mesa3D.Nir.ParallelCopy

open Function

/-- `nir_src`. -/
inductive Src
  | ssa (def_ : ℕ)
  | reg (reg : ℕ)
deriving DecidableEq

/-- `nir_parallel_copy_entry`. The destination is a register. -/
structure Entry where
  /-- The source. -/
  src : Src
  /-- The register of the destination. -/
  dest : ℕ

/-- The register already is what it has to be. -/
def Entry.Skipped (entry : Entry) : Prop := entry.src = .reg entry.dest

instance (entry : Entry) : Decidable entry.Skipped := inferInstanceAs (Decidable (_ = _))

/-- An `imov` to a register. -/
structure Mov where
  /-- The source. -/
  src : Src
  /-- The register of the destination. -/
  dest : ℕ

/-- The local variables of `resolve_parallel_copy`, the movs that it has emitted, and the index that
the next register gets. -/
structure State where
  /-- `values`. -/
  values : ℕ → Src
  /-- `num_vals`. -/
  numVals : ℕ
  /-- `loc`. -/
  loc : ℕ → Option ℕ
  /-- `pred`. -/
  pred : ℕ → Option ℕ
  /-- `to_do`, with its last element in front. -/
  toDo : List ℕ
  /-- `ready`, with its last element in front. -/
  ready : List ℕ
  /-- `reg_alloc`. -/
  regAlloc : ℕ
  /-- The moves so far. -/
  movs : List Mov

/-- The variables before the first entry. -/
def State.init (regAlloc : ℕ) : State where
  values := fun _ => .ssa 0
  numVals := 0
  loc := fun _ => none
  pred := fun _ => none
  toDo := []
  ready := []
  regAlloc := regAlloc
  movs := []

variable (size : ℕ)

/-- `stack[++idx] = i`. -/
def push (stack : List ℕ) (i : ℕ) : Option (List ℕ) :=
  if stack.length < size then some (i :: stack) else none

/-- `values[num_vals++] = src`. -/
def addValue (s : State) (src : Src) : Option (ℕ × State) :=
  if s.numVals < size then
    some (s.numVals, { s with values := update s.values s.numVals src, numVals := s.numVals + 1 })
  else none

/-- The last index below `n` that has the source. -/
def findValue (values : ℕ → Src) (src : Src) : ℕ → Option ℕ
  | 0 => none
  | n + 1 => if values n = src then some n else findValue values src n

/-- The index of a source. -/
def srcIndex (s : State) (src : Src) : Option (ℕ × State) :=
  match findValue s.values src s.numVals with
  | some i => some (i, s)
  | none => addValue size s src

/-- The index of a destination, which must not have a predecessor yet. -/
def destIndex (s : State) (dest : ℕ) : Option (ℕ × State) :=
  match findValue s.values (.reg dest) s.numVals with
  | some i => if s.pred i = none then some (i, s) else none
  | none => addValue size s (.reg dest)

/-- The loop body that sets everything up. -/
def setUpEntry (s : State) (entry : Entry) : Option State :=
  if entry.Skipped then some s
  else do
    let (srcIdx, s) ← srcIndex size s entry.src
    let (destIdx, s) ← destIndex size s entry.dest
    let toDo ← push size s.toDo destIdx
    some { s with
      loc := update s.loc srcIdx (some srcIdx)
      pred := update s.pred destIdx (some srcIdx)
      toDo := toDo }

/-- The loop that marks the destinations that are ready for copying. -/
def markReady (s : State) : Option (List ℕ) :=
  (List.range s.numVals).foldlM
    (fun ready i => if s.pred i ≠ none ∧ s.loc i = none then push size ready i else some ready) []

/-- `emit_copy`, which asserts that the destination is a register. -/
def emitCopy (s : State) (src dest : Src) : Option State :=
  match dest with
  | .ssa _ => none
  | .reg r => some { s with movs := s.movs ++ [⟨src, r⟩] }

/-- Reading an array of a given size. -/
def readAt {α : Type} (size : ℕ) (array : ℕ → α) (i : ℕ) : Option α :=
  if i < size then some (array i) else none

/-- The body of the inner loop: the destination `b`, which was taken from the stack `ready`, is
filled. An index `-1` is out of bounds. -/
def fill (s : State) (b : ℕ) (ready : List ℕ) : Option State := do
  let a ← (← readAt size s.pred b)
  let l ← (← readAt size s.loc a)
  let src ← readAt size s.values l
  let dest ← readAt size s.values b
  let s ← emitCopy s src dest
  let s := { s with
    loc := update s.loc a (some b)
    pred := update s.pred b none }
  -- if a needs to be filled, it is ready for copying now
  let ready ← if s.pred a ≠ none then push size ready a else some ready
  some { s with ready := ready }

/-- The inner loop. -/
def fillLoop (size : ℕ) : ℕ → State → Option State
  | 0, _ => none
  | fuel + 1, s =>
    match s.ready with
    | [] => some s
    | b :: ready => (fill size s b ready).bind (fillLoop size fuel)

/-- What is in the destination `b` is moved to a new register. -/
def breakCycle (s : State) (b : ℕ) : Option State := do
  let src ← readAt size s.values b
  let (temp, s) ← addValue size s (.reg s.regAlloc)
  let s ← emitCopy s src (s.values temp)
  let ready ← push size s.ready b
  some { s with loc := update s.loc b (some temp), ready := ready, regAlloc := s.regAlloc + 1 }

/-- The outer loop. -/
def copyLoop (size : ℕ) : ℕ → State → Option State
  | 0, _ => none
  | fuel + 1, s =>
    match s.toDo with
    | [] => some s
    | b :: toDo => do
      let s ← fillLoop size fuel s
      let s := { s with toDo := toDo }
      if (← readAt size s.pred b) = none then copyLoop size fuel s
      else copyLoop size fuel (← breakCycle size s b)

/-- The number of entries that are not skipped. -/
def numCopies (entries : List Entry) : ℕ := entries.countP fun entry => ¬ entry.Skipped

/-- `resolve_parallel_copy`: the movs, and the index of the next register. -/
def resolveParallelCopy (entries : List Entry) (regAlloc fuel : ℕ) : Option (List Mov × ℕ) :=
  let size := 2 * numCopies entries
  if numCopies entries = 0 then some ([], regAlloc)
  else do
    let s ← entries.foldlM (setUpEntry size) (State.init regAlloc)
    let ready ← markReady size s
    let s ← copyLoop size fuel { s with ready := ready }
    some (s.movs, s.regAlloc)

/-! ### What movs do -/

variable {V : Type}

/-- One mov. -/
def Mov.exec (σ : Src → V) (mov : Mov) : Src → V := update σ (.reg mov.dest) (σ mov.src)

/-- The values of sources after a sequence of movs. -/
def exec (movs : List Mov) (σ : Src → V) : Src → V := movs.foldl Mov.exec σ

/-- The moves with one more at the end. -/
theorem exec_append (movs : List Mov) (mov : Mov) (σ : Src → V) :
    exec (movs ++ [mov]) σ = mov.exec (exec movs σ) := by
  simp [exec]

/-- A place that no mov writes keeps its value. -/
theorem exec_of_not_dest {movs : List Mov} {x : Src} (h : ∀ mov ∈ movs,
    x ≠ .reg mov.dest) (σ : Src → V) :
    exec movs σ x = σ x := by
  induction movs generalizing σ with
  | nil => rfl
  | cons mov movs ih =>
    have hrest := ih (fun m hm => h m (List.mem_cons_of_mem _ hm)) (mov.exec σ)
    exact hrest.trans (update_of_ne (h mov List.mem_cons_self) _ _)

end Mesa3D.Nir.ParallelCopy
