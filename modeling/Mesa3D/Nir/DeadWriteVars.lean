import Mesa3D.Nir.VarSem
import Mesa3D.Structured.Lockstep
import Mesa3D.Util.DynArray

/-!
# Dead writes to variables

`nir_opt_dead_write_vars.c` walks over each block with a list of the writes that nothing has read
yet. A later write whose destination contains that of a listed one clears the components that it
writes from the listed mask, and a listed write with no component left is removed.
-/

namespace Mesa3D.Nir.DeadWriteVars

open Structured DynArray

/-- `struct write_entry`. -/
structure WriteEntry where
  /-- The instruction that writes. -/
  intrin : ℕ
  /-- The components that nothing has overwritten yet. -/
  mask : ComponentMask
  /-- The destination. -/
  dst : Deref
  deriving DecidableEq, Repr

/-- The state of `remove_dead_write_vars_local`: the array `unused_writes`, the instructions that it
has removed from the block, and its result. -/
structure LocalState where
  /-- `unused_writes`. -/
  unusedWrites : List WriteEntry
  /-- The removed instructions. -/
  removed : List ℕ
  /-- `progress`. -/
  progress : Bool
  deriving DecidableEq, Repr

section

variable (vars : ℕ → VarInfo)

/-- `clear_unused_for_modes`. -/
def clearUnusedForModes (unused : List WriteEntry) (modes : List VarMode) : List WriteEntry :=
  removeReverse (fun e => modes.contains (vars e.dst.var).mode) unused

/-- `clear_unused_for_read`. -/
def clearUnusedForRead (unused : List WriteEntry) (src : Deref) : List WriteEntry :=
  removeReverse (fun e => (compareDerefs src e.dst).mayAlias) unused

/-- What `update_unused_writes` does to one entry: `none` where it removes the entry together with
its instruction. -/
def updateEntry (dst : Deref) (mask : ComponentMask) (e : WriteEntry) : Option WriteEntry :=
  if (compareDerefs dst e.dst).aContainsB then
    if e.mask &&& ~~~mask = 0 then none else some { e with mask := e.mask &&& ~~~mask }
  else some e

/-- `update_unused_writes`. -/
def updateUnusedWrites (st : LocalState) (intrin : ℕ) (dst : Deref) (mask : ComponentMask) :
    LocalState :=
  let dead := st.unusedWrites.filter fun e => (updateEntry dst mask e).isNone
  { unusedWrites := foreachReverse (updateEntry dst mask) st.unusedWrites ++ [⟨intrin, mask, dst⟩]
    removed := st.removed ++ dead.map WriteEntry.intrin
    progress := st.progress || !dead.isEmpty }

/-- `glsl_get_vector_elements` of the type of a deref. -/
def derefElements (d : Deref) : ℕ :=
  match (vars d.var).type.followPath d.path with
  | some t => t.vectorElements
  | none => 0

/-- The body of the loop of `remove_dead_write_vars_local`. -/
def removeDeadWriteVarsInstr (st : LocalState) (i : Instr) : LocalState :=
  match i.op with
  | .call _ _ =>
    let modes := [.shaderOut, .global, .local, .shaderStorage, .shared]
    { st with unusedWrites := clearUnusedForModes vars st.unusedWrites modes }
  | .barrier .barrier | .barrier .memoryBarrier =>
    let modes := [.shaderOut, .shaderStorage, .shared]
    { st with unusedWrites := clearUnusedForModes vars st.unusedWrites modes }
  | .emitVertex _ =>
    { st with unusedWrites := clearUnusedForModes vars st.unusedWrites [.shaderOut] }
  | .loadDeref _ src => { st with unusedWrites := clearUnusedForRead st.unusedWrites src }
  | .storeDeref dst _ mask => updateUnusedWrites st i.id dst mask
  | .copyDeref dst src =>
    -- Self-copy is removed.
    if (compareDerefs src dst).equal then
      { st with removed := st.removed ++ [i.id], progress := true }
    else
      updateUnusedWrites { st with unusedWrites := clearUnusedForRead st.unusedWrites src } i.id dst
        (fullMask (derefElements vars dst))
  | _ => st

/-- The instructions that `remove_dead_write_vars_local` removes from a block, and its result. -/
def removeDeadWriteVarsScan (instrs : List Instr) : LocalState :=
  instrs.foldl (removeDeadWriteVarsInstr vars) ⟨[], [], false⟩

/-- `remove_dead_write_vars_local`. -/
def removeDeadWriteVarsLocal (b : Block Instr) : Block Instr :=
  let removed := (removeDeadWriteVarsScan vars b.instrs).removed
  { b with instrs := b.instrs.filter fun i => !removed.contains i.id }

/-- `remove_dead_write_vars_impl`: every block of a function. -/
def removeDeadWriteVarsImpl (f : CfList (Block Instr) ℕ) : CfList (Block Instr) ℕ :=
  f.map (removeDeadWriteVarsLocal vars) id

end

end Mesa3D.Nir.DeadWriteVars
