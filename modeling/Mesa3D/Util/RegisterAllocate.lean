import Mathlib.Data.BitVec

/-!
# The register allocator

`register_allocate.c`: graph colouring after Runeson and Nyström. A register set has registers that
conflict with each other, and classes of registers. `ra_simplify` takes the nodes of an interference
graph off one by one and puts them on a stack, those first that are sure to get a register, and
`ra_select` gives them registers in the opposite order.

Bitsets and arrays are functions of the index. `NO_REG` and `NULL` are `none`. A function returns
`none` if it uses `NO_REG` as an index of a register or reads a list that is `NULL`, or if an
assertion fails; other arguments are in range (`RegSet`, `Built`). A graph has at most `2^31` nodes,
as its adjacency bitsets would not fit into memory otherwise.
-/

namespace Mesa3D.Ra

open Function

/-! ### Register sets -/

/-- `struct ra_reg`. The length of the list is `num_conflicts`. -/
structure Reg where
  /-- `conflicts`, as a bitset. -/
  conflicts : ℕ → Bool
  /-- `conflict_list`, if there is one. -/
  conflictList : Option (List ℕ)

/-- `struct ra_class`. -/
structure Class where
  /-- The registers of the class. -/
  regs : ℕ → Bool
  /-- The number of registers. -/
  p : BitVec 32
  /-- For a class, how many registers of this one conflict with one of it at most. -/
  q : ℕ → BitVec 32

/-- `struct ra_regs`. -/
structure Regs where
  /-- The number of registers. -/
  count : ℕ
  /-- The registers. -/
  regs : ℕ → Reg
  /-- The classes. -/
  classes : ℕ → Class
  /-- The number of classes. -/
  classCount : ℕ
  /-- `round_robin`. -/
  roundRobin : Bool

/-- `ra_alloc_reg_set`. -/
def raAllocRegSet (count : ℕ) (needConflictLists : Bool) : Regs where
  count := count
  regs := fun i =>
    { conflicts := fun j => j = i
      conflictList := if needConflictLists then some [i] else none }
  classes := fun _ => ⟨fun _ => false, 0, fun _ => 0⟩
  classCount := 0
  roundRobin := false

variable (regs : Regs)

namespace Regs

/-- `ra_set_allocate_round_robin`. -/
def raSetAllocateRoundRobin : Regs := { regs with roundRobin := true }

/-- Changes a register. -/
def setReg (r : ℕ) (reg : Reg) : Regs :=
  { regs with regs := update regs.regs r reg }

/-- `ra_add_conflict_list`. -/
def raAddConflictList (r1 r2 : ℕ) : Regs :=
  let reg1 := regs.regs r1
  regs.setReg r1
    { conflictList := reg1.conflictList.map (· ++ [r2])
      conflicts := update reg1.conflicts r2 true }

/-- `ra_add_reg_conflict`. -/
def raAddRegConflict (r1 r2 : ℕ) : Regs :=
  if (regs.regs r1).conflicts r2 then regs
  else (regs.raAddConflictList r1 r2).raAddConflictList r2 r1

/-- `ra_add_transitive_reg_conflict`. The loop does not add to the list that it walks
(`conflictList_walk`). -/
def raAddTransitiveRegConflict (baseReg reg : ℕ) : Option Regs :=
  let regs := regs.raAddRegConflict reg baseReg
  (regs.regs baseReg).conflictList.map fun list =>
    list.foldl (fun regs c => regs.raAddRegConflict reg c) regs

/-- The body of the loop of `ra_make_reg_conflicts_transitive`. -/
def mergeConflicts (r : ℕ) (regs : Regs) (c : ℕ) : Regs :=
  if (regs.regs r).conflicts c then
    regs.setReg c { regs.regs c with
      conflicts := fun j => (regs.regs c).conflicts j || (regs.regs r).conflicts j }
  else regs

/-- `ra_make_reg_conflicts_transitive`. -/
def raMakeRegConflictsTransitive (r : ℕ) : Regs :=
  (List.range regs.count).foldl (mergeConflicts r) regs

/-- `ra_alloc_reg_class`, which returns the number of classes before. -/
def raAllocRegClass : Regs :=
  { regs with
    classes := update regs.classes regs.classCount ⟨fun _ => false, 0, fun _ => 0⟩
    classCount := regs.classCount + 1 }

/-- `ra_class_add_reg`. -/
def raClassAddReg (c r : ℕ) : Regs :=
  let cls := regs.classes c
  { regs with
    classes := update regs.classes c
      { cls with regs := update cls.regs r true, p := cls.p + 1 } }

/-- The loops of `ra_set_finalize` over the registers of the class `c`, and over their conflicts. -/
def maxConflicts (b c : ℕ) : Option ℕ :=
  (List.range regs.count).foldlM (fun max rc =>
    if (regs.classes c).regs rc then
      (regs.regs rc).conflictList.map fun list => Max.max max (list.countP (regs.classes b).regs)
    else some max) 0

/-- `ra_set_finalize`. -/
def raSetFinalize (qValues : Option (ℕ → ℕ → BitVec 32)) : Option Regs :=
  let freed := fun r => { regs.regs r with conflictList := none }
  match qValues with
  | some q =>
    some { regs with regs := freed, classes := fun b => { regs.classes b with q := q b } }
  | none =>
    if ∀ b < regs.classCount, ∀ c < regs.classCount, (regs.maxConflicts b c).isSome then
      some { regs with
        regs := freed
        classes := fun b => { regs.classes b with
          q := fun c => BitVec.ofNat 32 ((regs.maxConflicts b c).getD 0) } }
    else none

end Regs

/-- The register sets that a driver can build. -/
inductive RegSet : Regs → Prop
  | alloc (count : ℕ) (lists : Bool) : RegSet (raAllocRegSet count lists)
  | roundRobin {regs : Regs} : RegSet regs → RegSet regs.raSetAllocateRoundRobin
  | addConflict {regs : Regs} {r1 r2 : ℕ} : RegSet regs → r1 < regs.count → r2 < regs.count →
      RegSet (regs.raAddRegConflict r1 r2)
  | addTransitive {regs regs' : Regs} {b r : ℕ} : RegSet regs → b < regs.count → r < regs.count →
      regs.raAddTransitiveRegConflict b r = some regs' → RegSet regs'
  | makeTransitive {regs : Regs} {r : ℕ} : RegSet regs → r < regs.count →
      RegSet (regs.raMakeRegConflictsTransitive r)
  | allocClass {regs : Regs} : RegSet regs → RegSet regs.raAllocRegClass
  | addReg {regs : Regs} {c r : ℕ} : RegSet regs → c < regs.classCount → r < regs.count →
      RegSet (regs.raClassAddReg c r)
  | finalize {regs regs' : Regs} {q : Option (ℕ → ℕ → BitVec 32)} : RegSet regs →
      regs.raSetFinalize q = some regs' → RegSet regs'

/-! ### Interference graphs -/

/-- `struct ra_node`. The bitset `adjacency` has the elements of the list. -/
structure Node where
  /-- `adjacency_list`. -/
  adjacencyList : List ℕ
  /-- The class. -/
  cls : ℕ
  /-- The register, or `NO_REG`. -/
  reg : Option ℕ
  /-- `in_stack`. -/
  inStack : Bool
  /-- The sum of `q` over the neighbours that are left. -/
  qTotal : BitVec 32

/-- `struct ra_graph`. The head of the list is the top of the stack. -/
structure Graph where
  /-- The register set. -/
  regs : Regs
  /-- The nodes. -/
  nodes : ℕ → Node
  /-- The number of nodes. -/
  count : ℕ
  /-- The stack, with its top in front. -/
  stack : List ℕ
  /-- `stack_optimistic_start`. -/
  stackOptimisticStart : BitVec 32

/-- `ra_alloc_interference_graph`. -/
def raAllocInterferenceGraph (count : ℕ) : Graph where
  regs := regs
  nodes := fun _ => ⟨[], 0, none, false, 0⟩
  count := count
  stack := []
  stackOptimisticStart := 0

variable (g : Graph)

namespace Graph

/-- Changes a node. -/
def setNode (n : ℕ) (node : Node) : Graph :=
  { g with nodes := update g.nodes n node }

/-- `g->regs->classes[n1_class]->q[n2_class]`. -/
def q (g : Graph) (n1 n2 : ℕ) : BitVec 32 :=
  (g.regs.classes (g.nodes n1).cls).q (g.nodes n2).cls

/-- `ra_set_node_class`. -/
def raSetNodeClass (n cls : ℕ) : Graph := g.setNode n { g.nodes n with cls := cls }

/-- `ra_add_node_adjacency`. -/
def raAddNodeAdjacency (n1 n2 : ℕ) : Graph :=
  let node := g.nodes n1
  g.setNode n1 { node with
    adjacencyList := node.adjacencyList ++ [n2], qTotal := node.qTotal + g.q n1 n2 }

/-- `ra_add_node_interference`. -/
def raAddNodeInterference (n1 n2 : ℕ) : Graph :=
  if n1 ≠ n2 ∧ n2 ∉ (g.nodes n1).adjacencyList then
    (g.raAddNodeAdjacency n1 n2).raAddNodeAdjacency n2 n1
  else g

/-- `ra_set_node_reg`. -/
def raSetNodeReg (n reg : ℕ) : Graph :=
  g.setNode n { g.nodes n with reg := some reg, inStack := false }

/-- `pq_test`. -/
def pqTest (n : ℕ) : Bool := (g.nodes n).qTotal < (g.regs.classes (g.nodes n).cls).p

/-- The body of the loop of `decrement_q`, with its assertion. -/
def decrementNeighbor (n : ℕ) (g : Graph) (n2 : ℕ) : Option Graph :=
  if (g.nodes n2).inStack then some g
  else if g.q n2 n ≤ (g.nodes n2).qTotal then
    some (g.setNode n2 { g.nodes n2 with qTotal := (g.nodes n2).qTotal - g.q n2 n })
  else none

/-- `decrement_q`. -/
def decrementQ (n : ℕ) : Option Graph :=
  (g.nodes n).adjacencyList.foldlM (decrementNeighbor n) g

/-- What `ra_simplify` does with a node that it takes off. -/
def push (n : ℕ) : Option Graph :=
  (g.decrementQ n).map fun g =>
    { g.setNode n { g.nodes n with inStack := true } with stack := n :: g.stack }

end Graph

/-- The interference graphs that a driver can build. -/
inductive Built : Graph → Prop
  | alloc (regs : Regs) (count : ℕ) : Built (raAllocInterferenceGraph regs count)
  | setClass {g : Graph} {n cls : ℕ} : Built g → n < g.count → cls < g.regs.classCount →
      Built (g.raSetNodeClass n cls)
  | addInterference {g : Graph} {n1 n2 : ℕ} : Built g → n1 < g.count → n2 < g.count →
      Built (g.raAddNodeInterference n1 n2)
  | setReg {g : Graph} {n reg : ℕ} : Built g → n < g.count → reg < g.regs.count →
      Built (g.raSetNodeReg n reg)

/-! ### Allocation -/

/-- The locals of `ra_simplify` in a round: `best_optimistic_node` and `lowest_q_total`. -/
structure Scan where
  /-- The graph. -/
  graph : Graph
  /-- A node was pushed. -/
  progress : Bool
  /-- The best node for an optimistic push. -/
  best : Option ℕ
  /-- Its total. -/
  lowest : BitVec 32

/-- The body of the inner loop of `ra_simplify`. -/
def scanNode (s : Scan) (i : ℕ) : Option Scan :=
  let node := s.graph.nodes i
  if node.inStack || node.reg.isSome then some s
  else if s.graph.pqTest i then
    (s.graph.push i).map fun graph => { s with graph := graph, progress := true }
  else if node.qTotal < s.lowest then some { s with best := some i, lowest := node.qTotal }
  else some s

namespace Graph

/-- The inner loop of `ra_simplify`, from the last node down to the first. -/
def scan : Option Scan :=
  (List.range g.count).reverse.foldlM scanNode ⟨g, false, none, BitVec.allOnes 32⟩

/-- The outer loop of `ra_simplify`. -/
def raSimplifyLoop : ℕ → Graph → BitVec 32 → Option Graph
  | 0, _, _ => none
  | fuel + 1, g, start =>
    g.scan.bind fun s =>
      if s.progress then raSimplifyLoop fuel s.graph start
      else
        match s.best with
        | some best =>
          (s.graph.push best).bind fun graph => raSimplifyLoop fuel graph
            (if start = BitVec.allOnes 32 then BitVec.ofNat 32 s.graph.stack.length else start)
        | none => some { s.graph with stackOptimisticStart := start }

/-- `ra_simplify`. Each round but the last takes off a node. -/
def raSimplify : Option Graph := raSimplifyLoop (g.count + 1) g (BitVec.allOnes 32)

/-- The loop of `ra_any_neighbors_conflict`. -/
def raAnyNeighborsConflict (g : Graph) (r : ℕ) : List ℕ → Option Bool
  | [] => some false
  | n2 :: rest =>
    if (g.nodes n2).inStack then raAnyNeighborsConflict g r rest
    else
      match (g.nodes n2).reg with
      | none => none
      | some r2 =>
        if (g.regs.regs r).conflicts r2 then some true else raAnyNeighborsConflict g r rest

/-- The loop of `ra_compute_available_regs` over the neighbours. -/
def removeConflicts (g : Graph) (regs : ℕ → Bool) : List ℕ → Option (ℕ → Bool)
  | [] => some regs
  | n2 :: rest =>
    if (g.nodes n2).inStack then removeConflicts g regs rest
    else
      match (g.nodes n2).reg with
      | none => none
      | some r => removeConflicts g (fun j => regs j && !(g.regs.regs r).conflicts j) rest

/-- `ra_compute_available_regs`, without the test whether a register is left. -/
def raComputeAvailableRegs (n : ℕ) : Option (ℕ → Bool) :=
  g.removeConflicts (g.regs.classes (g.nodes n).cls).regs (g.nodes n).adjacencyList

/-- The search of `ra_select` for a register, over the values of `ri`. -/
def searchReg (g : Graph) (n start : ℕ) : List ℕ → Option (Option ℕ)
  | [] => some none
  | ri :: rest =>
    let r := (start + ri) % 2^32 % g.regs.count
    if (g.regs.classes (g.nodes n).cls).regs r then
      match g.raAnyNeighborsConflict r (g.nodes n).adjacencyList with
      | none => none
      | some true => searchReg g n start rest
      | some false => some (some r)
    else searchReg g n start rest

end Graph

/-- A `select_reg_callback` with its data. -/
abbrev SelectReg (σ : Type) := Graph → (ℕ → Bool) → σ → ℕ × σ

variable {σ : Type}

namespace Graph

/-- The register for a node in `ra_select`, or `none` if there is none. -/
def chooseReg (callback : Option (SelectReg σ)) (g : Graph) (n start : ℕ) (data : σ) :
    Option (Option (ℕ × σ)) :=
  match callback with
  | some selectReg =>
    (g.raComputeAvailableRegs n).map fun regs =>
      if (List.range g.regs.count).any regs then some (selectReg g regs data) else none
  | none =>
    (g.searchReg n start (List.range g.regs.count)).map fun r => r.map fun r => (r, data)

/-- The loop of `ra_select`. -/
def raSelectLoop (callback : Option (SelectReg σ)) : List ℕ → Graph → ℕ → σ → Option (Bool × Graph)
  | [], g, _, _ => some (true, g)
  | n :: stack, g, start, data =>
    let g := g.setNode n { g.nodes n with inStack := false }
    match g.chooseReg callback n start data with
    | none => none
    | some none => some (false, g)
    | some (some (r, data)) =>
      raSelectLoop callback stack
        { g.setNode n { g.nodes n with reg := some r } with stack := stack }
        (if g.regs.roundRobin && BitVec.ofNat 32 stack.length - 1 ≤ g.stackOptimisticStart then
          r + 1 else start) data

/-- `ra_select`. -/
def raSelect (callback : Option (SelectReg σ)) (g : Graph) (data : σ) : Option (Bool × Graph) :=
  raSelectLoop callback g.stack g 0 data

/-- `ra_allocate`. -/
def raAllocate (callback : Option (SelectReg σ)) (g : Graph) (data : σ) : Option (Bool × Graph) :=
  match g.raSimplify with
  | none => none
  | some g => raSelect callback g data

end Graph

end Mesa3D.Ra
