import Mesa3D.Nir.Deref
import Mesa3D.Nir.Block

/-!
# Running functions that access variables

The instructions that the passes over derefs look at: loads, stores and copies, deref atomics and
interpolation, calls, barriers, vertex emission, and discards. Everything else that an invocation
does is an `alu` or an `other` instruction, which reads and writes SSA values only.

A run keeps a trace of what its instructions observe: the values of their SSA operands and the
contents of the variables that they read. A barrier lets other invocations read the variables of its
modes, a call reads every variable that a callee may reach, and `emit_vertex` reads the outputs;
then each of them may change the variables that it has read. What other invocations and callees do
is up to a `World`, which answers as a function of the trace. Copies observe their source on a trace
of their own, which the world does not see.
-/

namespace Mesa3D.Nir

open Structured

/-- The contents of the variables: for each variable and each cell its bits. -/
abbrev Mem := ℕ → List ℕ → ℕ

/-- `nir_component_mask_t`. -/
abbrev ComponentMask := BitVec 8

/-- The mask of the first `n` components, `(1 << n) - 1`. -/
def fullMask (n : ℕ) : ComponentMask := BitVec.ofNat 8 (2 ^ n - 1)

/-- The barrier intrinsics of `nir_intrinsics.py` that take no operands. -/
inductive Barrier
  | barrier
  | memoryBarrier
  | groupMemoryBarrier
  | memoryBarrierAtomicCounter
  | memoryBarrierBuffer
  | memoryBarrierImage
  | memoryBarrierShared
  | beginInvocationInterlock
  | endInvocationInterlock
  deriving DecidableEq, Repr

/-- The modes of the variables that other invocations may access at a barrier. -/
def Barrier.modes : Barrier → List VarMode
  | .barrier => [.shaderOut, .shaderStorage, .shared]
  | .memoryBarrier => [.shaderOut, .shaderStorage, .shared]
  | .groupMemoryBarrier => [.shaderStorage, .shared]
  | .memoryBarrierAtomicCounter => []
  | .memoryBarrierBuffer => [.shaderStorage]
  | .memoryBarrierImage => []
  | .memoryBarrierShared => [.shared]
  | .beginInvocationInterlock => [.shaderStorage]
  | .endInvocationInterlock => [.shaderStorage]

/-- The modes of the variables that a callee may access. -/
def callModes : List VarMode := [.shaderOut, .global, .local, .shaderStorage, .shared]

/-- The operations of the instructions. Operands and destinations are SSA defs. -/
inductive Op
  | loadDeref (dest : ℕ) (src : Deref)
  | storeDeref (dst : Deref) (value : ℕ) (writeMask : ComponentMask)
  | copyDeref (dst src : Deref)
  /-- The `deref_atomic_*` intrinsics. -/
  | derefAtomic (op dest : ℕ) (dst : Deref) (args : List ℕ)
  /-- The `interp_deref_at_*` intrinsics. -/
  | interpDeref (op dest : ℕ) (src : Deref) (args : List ℕ)
  | call (callee : ℕ) (params : List ℕ)
  | barrier (kind : Barrier)
  /-- `emit_vertex` and `emit_vertex_with_counter`. -/
  | emitVertex (args : List ℕ)
  | discard
  | discardIf (cond : ℕ)
  /-- `vecN` of one channel of each operand. -/
  | vec (dest : ℕ) (srcs : List (ℕ × ℕ))
  | alu (op dest : ℕ) (srcs : List ℕ)
  /-- Any other instruction that neither reads nor writes a variable. -/
  | other (op : ℕ) (dest : Option ℕ) (srcs : List ℕ)
  deriving DecidableEq, Repr

/-- A `nir_instr`, with its address as a number. -/
structure Instr where
  /-- The address. -/
  id : ℕ
  /-- What the instruction does. -/
  op : Op
  deriving DecidableEq, Repr

/-- What one executed instruction observed. -/
structure Event where
  /-- The instruction. -/
  id : ℕ
  /-- The values of its SSA operands. -/
  args : List Value
  /-- The contents of the cells that it reads, and zero elsewhere. -/
  seen : Mem

/-- The state of an invocation. -/
structure VarState where
  /-- The SSA values. -/
  env : Env
  /-- The variables. -/
  mem : Mem
  /-- What the instructions other than copies have observed, last first. -/
  trace : List Event
  /-- What the copies have observed, last first. -/
  copies : List Event

/-- The operations of the machine, and what other invocations and callees do. -/
structure World where
  /-- The result of an `alu` operation. -/
  alu : ℕ → List Value → Value
  /-- The value that an atomic operation stores, from the value that it finds. -/
  atomic : ℕ → ℕ → List Value → ℕ
  /-- The result of an instruction that is not computed from its operands alone. -/
  result : List Event → Value
  /-- The contents that a barrier, a call or `emit_vertex` leaves in the variables of its modes. -/
  mem : List Event → Mem

section

variable (W : World) (vars : ℕ → VarInfo)

/-- The values of the SSA defs when they are used as array indices. -/
def VarState.index (s : VarState) : ℕ → ℕ := fun d => s.env d 0

/-- The cells that a deref names. -/
def Deref.Names (d : Deref) (ρ : ℕ → ℕ) (v : ℕ) (p : List ℕ) : Bool :=
  v == d.var && (Covers ρ d.path p && (vars v).type.HasCell p)

/-- The component that a cell is, of the vector or scalar that a chain leads to. -/
def component (path : List Link) (p : List ℕ) : ℕ := (p.drop path.length).headD 0

/-- The numbers that a chain takes, with those at its wildcards taken from the list. -/
def fillPath (ρ : ℕ → ℕ) : List Link → List ℕ → List ℕ
  | [], _ => []
  | .array i :: ls, ws => i.eval ρ :: fillPath ρ ls ws
  | .struct k :: ls, ws => k :: fillPath ρ ls ws
  | .arrayWildcard :: ls, ws => ws.headD 0 :: fillPath ρ ls ws.tail

/-- The numbers that a cell has at the wildcards of a chain. -/
def wildcards : List Link → List ℕ → List ℕ
  | .arrayWildcard :: ls, i :: p => i :: wildcards ls p
  | _ :: ls, _ :: p => wildcards ls p
  | _, _ => []

/-- The cell that a copy reads for a cell of its destination: the wildcards of the two chains are
matched in order. -/
def copyCell (ρ : ℕ → ℕ) (dst src : List Link) (p : List ℕ) : List ℕ :=
  fillPath ρ src (wildcards dst p) ++ p.drop dst.length

/-- The memory with the cells on which `f` gives a value changed. -/
def Mem.update (m : Mem) (f : ℕ → List ℕ → Option ℕ) : Mem := fun v p => (f v p).getD (m v p)

/-- The memory after a store of `value` to the components in the mask. -/
def Mem.store (m : Mem) (ρ : ℕ → ℕ) (dst : Deref) (value : Value) (mask : ComponentMask) : Mem :=
  m.update fun v p =>
    if dst.Names vars ρ v p && mask.getLsbD (component dst.path p) then
      some (value (component dst.path p))
    else none

/-- The memory after a copy. -/
def Mem.copy (m : Mem) (ρ : ℕ → ℕ) (dst src : Deref) : Mem :=
  m.update fun v p =>
    if dst.Names vars ρ v p then some (m src.var (copyCell ρ dst.path src.path p)) else none

/-- The cells on which `r` holds, and zero elsewhere. -/
def Mem.view (m : Mem) (r : ℕ → List ℕ → Bool) : Mem := fun v p => if r v p then m v p else 0

/-- The variables of the given modes. -/
def inModes (modes : List VarMode) (v : ℕ) (_ : List ℕ) : Bool := modes.contains (vars v).mode

/-- The vector or scalar that a deref without wildcards names. -/
def Mem.load (m : Mem) (ρ : ℕ → ℕ) (src : Deref) : Value := fun c =>
  match (vars src.var).type.followPath src.path with
  | some .scalar => if c = 0 then m src.var (fillPath ρ src.path []) else 0
  | _ => m src.var (fillPath ρ src.path [] ++ [c])

/-- Record an observation. -/
def VarState.observe (s : VarState) (id : ℕ) (args : List ℕ) (r : ℕ → List ℕ → Bool) : VarState :=
  { s with trace := ⟨id, args.map s.env, s.mem.view r⟩ :: s.trace }

/-- Let the world change the variables of the given modes. -/
def VarState.interfere (s : VarState) (modes : List VarMode) : VarState :=
  { s with mem := s.mem.update fun v p =>
      if inModes vars modes v p then some (W.mem s.trace v p) else none }

/-- Write an SSA value. -/
def VarState.setDef (s : VarState) (d : ℕ) (v : Value) : VarState :=
  { s with env := s.env.set d v }

/-- One instruction: the state after it, and whether it ends the invocation. -/
def Instr.run (i : Instr) (s : VarState) : VarState × Bool :=
  match i.op with
  | .loadDeref dest src =>
    ((s.observe i.id [] (src.Names vars s.index)).setDef dest (s.mem.load vars s.index src), false)
  | .storeDeref dst value mask =>
    ({ s with mem := s.mem.store vars s.index dst (s.env value) mask }, false)
  | .copyDeref dst src =>
    ({ s with
        mem := s.mem.copy vars s.index dst src
        copies := ⟨i.id, [], s.mem.view (src.Names vars s.index)⟩ :: s.copies }, false)
  | .derefAtomic op dest dst args =>
    let old := s.mem.load vars s.index dst
    let new := W.atomic op (old 0) (args.map s.env)
    let s' := s.observe i.id args (dst.Names vars s.index)
    ({ s' with
        env := s.env.set dest old
        mem := s.mem.store vars s.index dst (fun _ => new) 1 }, false)
  | .interpDeref _ dest src args =>
    let s' := s.observe i.id args (src.Names vars s.index)
    (s'.setDef dest (W.result s'.trace), false)
  | .call _ params =>
    ((s.observe i.id params (inModes vars callModes)).interfere W vars callModes, false)
  | .barrier kind =>
    ((s.observe i.id [] (inModes vars kind.modes)).interfere W vars kind.modes, false)
  | .emitVertex args =>
    ((s.observe i.id args (inModes vars [.shaderOut])).interfere W vars [.shaderOut], false)
  | .discard => (s, true)
  | .discardIf cond => (s, s.env cond 0 != 0)
  | .vec dest srcs =>
    (s.setDef dest fun c => (srcs[c]?.map fun x => s.env x.1 x.2).getD 0, false)
  | .alu op dest srcs => (s.setDef dest (W.alu op (srcs.map s.env)), false)
  | .other _ dest srcs =>
    let s' := s.observe i.id srcs fun _ _ => false
    (match dest with
      | some d => s'.setDef d (W.result s'.trace)
      | none => s', false)

/-- A block: its phis, then its instructions. -/
def runBlock (b : Block Instr) (prev : ℕ) (s : VarState) : VarState × Bool :=
  runInstrs (Instr.run W vars) b.instrs { s with env := evalPhis b.phis prev s.env }

/-- Functions over variables as structured code. The condition of an if is an SSA def. -/
def varMachine : Machine (Block Instr) ℕ VarState where
  label := Block.label
  jump := Block.jump
  run := runBlock W vars
  cond c s := s.env c 0 != 0

end

end Mesa3D.Nir
