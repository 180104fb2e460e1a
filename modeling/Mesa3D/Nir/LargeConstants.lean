import Mesa3D.Structured.Lockstep
import Mesa3D.Nir.VarSem
import Mesa3D.Glsl.NaturalLayout
import Mesa3D.Layout.ByteMem

/-!
# Moving constant variables to constant data

`nir_opt_large_constants` looks for local variables that only constants are stored to, in the first
block and before any read, and moves those above a size to a table of bytes that goes with the
shader. Loads of such a variable become `load_constant` at an offset that `nir_build_deref_offset`
computes at run time, and the stores are carried out on the table by `handle_constant_store`, at an
offset that `nir_deref_instr_get_const_offset` computes.

A shader has one function here, as `nir_shader_get_entrypoint` requires, and no constant data yet.
An index or a stored value is that of a `load_const`, or another SSA value. The contents of the
variables are numbers: for each variable, each list of numbers that leads to a vector or scalar of
it, and each component, its bits. Stores beyond the end of an array write nothing, and loads from
there return whatever the variable holds for that list of numbers.

An assertion of `build_constant_load` that fails is `none`.
-/

namespace Mesa3D.Nir.LargeConstants

open Structured Layout

/-! ### Shaders -/

/-- The contents of the variables. -/
abbrev Mem := ℕ → List ℕ → ℕ → ℕ

/-- A `nir_variable`. -/
structure Variable where
  /-- `data.mode`. -/
  mode : VarMode
  /-- `type`. -/
  type : Glsl.GlslType
  /-- `constant_initializer`. -/
  constantInitializer : Option (List ℕ → ℕ → ℕ)

/-- A stored value. -/
inductive Src
  | const (value : Value)
  | ssa (def_ : ℕ)

/-- `nir_src_is_const`. -/
def Src.isConst : Src → Bool
  | .const _ => true
  | .ssa _ => false

/-- The instructions. -/
inductive Inst
  | loadDeref (dest : ℕ) (src : Deref)
  | storeDeref (dst : Deref) (value : Src) (writeMask : ComponentMask)
  | copyDeref (dst src : Deref)
  /-- Any other instruction. None of them accesses local variables. -/
  | other (op : ℕ) (dest : Option ℕ) (srcs : List ℕ)

/-- A `nir_shader` with its one function. -/
structure Shader where
  /-- The variables. -/
  vars : ℕ → Variable
  /-- `locals` of the function, in order. -/
  locals : List ℕ
  /-- The body of the function. -/
  body : CfList (Block Inst) ℕ

/-- The instructions of all blocks, in source order. -/
def Shader.instrs (sh : Shader) : List Inst := sh.body.blocks.flatMap Block.instrs

/-- The value that `nir_build_deref_offset` returns, as an expression. -/
inductive Offset
  | immInt (n : BitVec 32)
  | index (i : Index)
  | iadd (a b : Offset)
  | imul (a b : Offset)
  deriving DecidableEq

/-- A `load_constant`, with the conversion of its value to a boolean if there is one. -/
structure ConstantLoad where
  /-- `num_components`. -/
  numComponents : ℕ
  /-- The size of a component in bits. -/
  bitSize : ℕ
  /-- `base`. -/
  base : BitVec 32
  /-- `range`. -/
  range : BitVec 32
  /-- The source. -/
  offset : Offset
  /-- Whether the value goes through `nir_i2b`. -/
  i2b : Bool
  deriving DecidableEq

/-- The instructions after the pass. -/
inductive LoweredInst
  /-- An instruction that was there before. -/
  | keep (i : Inst)
  | loadConstant (dest : ℕ) (load : ConstantLoad)
  /-- `nir_store_deref` of a `load_constant`. -/
  | storeConstant (dst : Deref) (load : ConstantLoad) (writeMask : ComponentMask)

/-- The shader after the pass. -/
structure Lowered where
  /-- `locals` of the function. -/
  locals : List ℕ
  /-- The body of the function. -/
  body : CfList (Block LoweredInst) ℕ
  /-- `constant_data`. -/
  constantData : ByteMem
  /-- `constant_data_size`. -/
  constantDataSize : BitVec 32
  /-- What the pass returns. -/
  progress : Bool

/-! ### Running shaders -/

/-- The state of an invocation. -/
structure State (X : Type) where
  /-- The SSA values. -/
  env : Env
  /-- The variables. -/
  mem : Mem
  /-- Everything else. -/
  ext : X
  /-- What loads returned, with the SSA defs of the loads, last first. -/
  loads : List (ℕ × Value)

/-- What the other instructions do: from the operation, its operands, the variables that are not
local and everything else, they compute a value, change these variables and everything else, and may
end the invocation. -/
structure World (X : Type) where
  /-- The value, the variables and everything else after the instruction, and whether the invocation
  ends. -/
  other : ℕ → List Value → Mem → X → Value × Mem × X × Bool

variable (t : Glsl.GlslType)

/-- How many components the vector or scalar has that a list of numbers leads to. -/
def components (p : List ℕ) : ℕ :=
  match Glsl.naturalPlacing.partAt t p with
  | some (.numeric _ rows 1) => rows
  | _ => 0

/-- `glsl_get_bit_size` of a type. -/
def typeBitSize : Glsl.GlslType → ℕ
  | .numeric base _ _ => Glsl.glslGetBitSize base
  | _ => 0

/-- The size in bits of the components of the vector or scalar that a list of numbers leads to. -/
def bitSizeAt (p : List ℕ) : ℕ :=
  ((Glsl.naturalPlacing.partAt t p).map typeBitSize).getD 0

/-- The components of a stored value. Those of a constant are as wide as `bits` says. -/
def Src.eval (ρ : Env) (bits : ℕ) : Src → Value
  | .const value => fun c => value c % 2 ^ bits
  | .ssa d => ρ d

/-- The value of an offset. -/
def Offset.eval (ρ : ℕ → ℕ) : Offset → BitVec 32
  | immInt n => n
  | index i => BitVec.ofNat 32 (i.eval ρ)
  | iadd a b => a.eval ρ + b.eval ρ
  | imul a b => a.eval ρ * b.eval ρ

/-- The value of a `load_constant` whose source has the value `offset`. -/
def ConstantLoad.value (l : ConstantLoad) (data : ByteMem) (offset : BitVec 32) : Value := fun c =>
  let address := l.base.toInt + (offset.toNat + c * (l.bitSize / 8) : ℕ)
  let x := Blob.ofBytes (data.read address (l.bitSize / 8))
  if c < l.numComponents then if l.i2b then if x = 0 then 0 else 1 else x else 0

section

variable (vars : ℕ → Variable)

/-- The vector or scalar that a deref names. -/
def Mem.load (m : Mem) (ρ : ℕ → ℕ) (src : Deref) : Value := fun c =>
  let p := fillPath ρ src.path []
  if c < components (vars src.var).type p then m src.var p c else 0

/-- The variables after a store to the components in the mask. -/
def Mem.store (m : Mem) (ρ : ℕ → ℕ) (dst : Deref) (value : Value) (mask : ComponentMask) : Mem :=
  fun v p c =>
    if v = dst.var ∧ p = fillPath ρ dst.path [] ∧ Glsl.naturalPlacing.inBounds (vars v).type p ∧
        c < components (vars v).type p ∧ mask.getLsbD c then value c
    else m v p c

/-- The variables after a copy. -/
def Mem.copy (m : Mem) (ρ : ℕ → ℕ) (dst src : Deref) : Mem := fun v p c =>
  if v = dst.var ∧ Covers ρ dst.path p ∧ Glsl.naturalPlacing.inBounds (vars v).type p ∧
      c < components (vars v).type p then
    m src.var (copyCell ρ dst.path src.path p) c
  else m v p c

/-- The variables that are not local, and zero elsewhere. -/
def Mem.nonLocal (m : Mem) : Mem := fun v p c => if (vars v).mode = .local then 0 else m v p c

variable {X : Type} (W : World X)

/-- The SSA values when they are used as indices. -/
def State.index (s : State X) : ℕ → ℕ := fun d => s.env d 0

/-- Note what a load returns, and make it the value of its SSA def. -/
def State.loaded (s : State X) (dest : ℕ) (value : Value) : State X :=
  { s with env := s.env.set dest value, loads := (dest, value) :: s.loads }

/-- One instruction: the state after it, and whether it ends the invocation. -/
def Inst.run (s : State X) : Inst → State X × Bool
  | .loadDeref dest src => (s.loaded dest (s.mem.load vars s.index src), false)
  | .storeDeref dst value mask =>
    let bits := bitSizeAt (vars dst.var).type (fillPath s.index dst.path [])
    ({ s with mem := s.mem.store vars s.index dst (value.eval s.env bits) mask }, false)
  | .copyDeref dst src => ({ s with mem := s.mem.copy vars s.index dst src }, false)
  | .other op dest srcs =>
    let r := W.other op (srcs.map s.env) (s.mem.nonLocal vars) s.ext
    ({ env := (dest.map fun d => s.env.set d r.1).getD s.env
       mem := fun v p c => if (vars v).mode = .local then s.mem v p c else r.2.1 v p c
       ext := r.2.2.1
       loads := s.loads }, r.2.2.2)

/-- One instruction after the pass. -/
def LoweredInst.run (data : ByteMem) (s : State X) : LoweredInst → State X × Bool
  | .keep i => i.run vars W s
  | .loadConstant dest load => (s.loaded dest (load.value data (load.offset.eval s.index)), false)
  | .storeConstant dst load mask =>
    let value := load.value data (load.offset.eval s.index)
    ({ s with mem := s.mem.store vars s.index dst value mask }, false)

/-- A block: its phis, then its instructions. -/
def runBlock {I : Type} (run : I → State X → State X × Bool)
    (b : Block I) (prev : ℕ) (s : State X) :
    State X × Bool :=
  runInstrs run b.instrs { s with env := evalPhis b.phis prev s.env }

/-- Blocks of instructions as structured code. The condition of an if is an SSA def. -/
def machine {I : Type} (run : I → State X → State X × Bool) : Machine (Block I) ℕ (State X) where
  label := Block.label
  jump := Block.jump
  run := runBlock run
  cond c s := s.env c 0 != 0

end

/-- A run of the function, with the bound `n` on the iterations of each loop. -/
def Shader.exec {X : Type} (sh : Shader) (W : World X) (n prev : ℕ) (s : State X) : Res (State X) :=
  Structured.exec (machine fun i s => i.run sh.vars W s) n sh.body prev s

/-- A run of the function after the pass. -/
def Lowered.exec {X : Type} (lowered : Lowered) (vars : ℕ → Variable) (W : World X) (n prev : ℕ)
    (s : State X) : Res (State X) :=
  Structured.exec (machine fun i s => i.run vars W lowered.constantData s) n lowered.body prev s

/-- The components that the initializer of a variable gives a value. -/
def Shader.initial (sh : Shader) (v : ℕ) (p : List ℕ) (c : ℕ) : Option ℕ :=
  if Glsl.naturalPlacing.inBounds (sh.vars v).type p ∧ c < components (sh.vars v).type p then
    (sh.vars v).constantInitializer.map fun init => init p c
  else none

/-- The local variables hold their initializers where the function starts. -/
def Shader.Starts {X : Type} (sh : Shader) (s : State X) : Prop :=
  ∀ v ∈ sh.locals, ∀ p c x, sh.initial v p c = some x → s.mem v p c = x

/-! ### Offsets -/

/-- The type that a link leads to: `glsl_get_array_element` or `glsl_get_struct_field`. -/
def followLink : Link → Option Glsl.GlslType
  | .struct k =>
    match t with
    | .struct _ _ fields | .interface _ fields _ _ => fields.type? k
    | _ => none
  | .array _ | .arrayWildcard =>
    match t with
    | .array element _ => some element
    | .numeric base rows columns =>
      if 1 < columns then some (.numeric base rows 1)
      -- an element of a vector
      else if 1 < rows then some (.numeric base 1 1) else none
    | _ => none

/-- `type` of a deref, from that of its variable. -/
def derefType : Glsl.GlslType → List Link → Option Glsl.GlslType
  | t, [] => some t
  | t, l :: ls => (followLink t l).bind fun u => derefType u ls

/-- `nir_src_as_uint` of an index. It is not used on indices that are not constant. -/
def constIndex : Index → ℕ
  | .const value => value
  | .ssa _ => 0

/-- `nir_deref_instr_has_indirect`. -/
def hasIndirect : List Link → Bool
  | [] => false
  | .array (.ssa _) :: _ => true
  | _ :: ls => hasIndirect ls

/-- `struct_type_get_field_offset` on the type of a deref. -/
def fieldOffset (k : ℕ) : BitVec 32 :=
  match t with
  | .struct _ _ fields | .interface _ fields _ _ => Glsl.structTypeGetFieldOffset fields k
  | _ => 0

/-- The loop of `nir_deref_instr_get_const_offset` over the links below the type `t`. -/
def constOffsetFrom : Glsl.GlslType → List Link → BitVec 32 → BitVec 32
  | _, [], offset => offset
  | t, l :: ls, offset =>
    match followLink t l with
    | none => offset
    | some u =>
      constOffsetFrom u ls <|
        match l with
        | .array i => offset + BitVec.ofNat 32 (constIndex i) * Glsl.typeGetArrayStride u
        | .struct k => offset + fieldOffset t k
        | .arrayWildcard => offset

/-- `nir_deref_instr_get_const_offset`. -/
def nirDerefInstrGetConstOffset (path : List Link) : BitVec 32 :=
  constOffsetFrom t path 0

/-- The loop of `nir_build_deref_offset` over the links below the type `t`. -/
def buildDerefOffsetFrom : Glsl.GlslType → List Link → Offset → Offset
  | _, [], offset => offset
  | t, l :: ls, offset =>
    match followLink t l with
    | none => offset
    | some u =>
      buildDerefOffsetFrom u ls <|
        match l with
        | .array i => .iadd offset (.imul (.index i) (.immInt (Glsl.typeGetArrayStride u)))
        -- the sum with the offset of the member is built, but it is not assigned to `offset`
        | .struct _ => offset
        | .arrayWildcard => offset

/-- `nir_build_deref_offset`. -/
def nirBuildDerefOffset (path : List Link) : Offset :=
  buildDerefOffsetFrom t path (.immInt 0)

/-! ### The scan -/

/-- `struct var_info`. -/
structure VarInfo where
  /-- `is_constant`. -/
  isConstant : Bool
  /-- `found_read`. -/
  foundRead : Bool
  deriving DecidableEq

/-- The infos with one of them changed. -/
def setInfo (infos : ℕ → VarInfo) (v : ℕ) (f : VarInfo → VarInfo) : ℕ → VarInfo :=
  fun w => if w = v then f (infos w) else infos w

section

variable (vars : ℕ → Variable)

/-- What the scan does for the destination of a store or copy. -/
def noteWrite (firstBlock : Bool) (infos : ℕ → VarInfo) (dst : Deref) (srcIsConst : Bool) :
    ℕ → VarInfo :=
  if (vars dst.var).mode = .local then
    setInfo infos dst.var fun info =>
      if !srcIsConst || info.foundRead || !firstBlock || hasIndirect dst.path then
        { info with isConstant := false }
      else info
  else infos

/-- What the scan does for the source of a load or copy. -/
def noteRead (infos : ℕ → VarInfo) (src : Deref) : ℕ → VarInfo :=
  if (vars src.var).mode = .local then
    setInfo infos src.var fun info => { info with foundRead := true }
  else infos

/-- The scan of one instruction. -/
def scanInstr (firstBlock : Bool) (infos : ℕ → VarInfo) : Inst → ℕ → VarInfo
  | .storeDeref dst value _ => noteWrite vars firstBlock infos dst value.isConst
  | .loadDeref _ src => noteRead vars infos src
  | .copyDeref dst src => noteRead vars (noteWrite vars firstBlock infos dst false) src
  | .other .. => infos

/-- The scan of a block. -/
def scanBlock (firstBlock : Bool) (infos : ℕ → VarInfo) (b : Block Inst) : ℕ → VarInfo :=
  b.instrs.foldl (scanInstr vars firstBlock) infos

end

/-- The infos after the scan of all blocks. -/
def Shader.infos (sh : Shader) : ℕ → VarInfo :=
  sh.body.blocks.tail.foldl (scanBlock sh.vars false)
    (scanBlock sh.vars true (fun _ => ⟨true, false⟩) sh.body.first)

/-! ### The pass -/

/-- `glsl_type_size_align_func`: the size and the alignment of a type. A null pointer stands for
`glslGetNaturalSizeAlignBytes`. -/
abbrev SizeAlign := Glsl.GlslType → BitVec 32 × BitVec 32

section

variable (sh : Shader) (sizeAlign : SizeAlign) (threshold : BitVec 32)

/-- The loop over the locals that gives the constant ones their `data.location`, with the size of
the constant data so far: the locations, and the size after the loop. -/
def reserveFrom : List ℕ → BitVec 32 → List (ℕ × BitVec 32) × BitVec 32
  | [], size => ([], size)
  | v :: vs, size =>
    if (sh.infos v).isConstant then
      let (varSize, varAlign) := sizeAlign (sh.vars v).type
      if varSize ≤ threshold ∨ (sh.infos v).foundRead = false then reserveFrom vs size
      else
        let location := Glsl.alignPot size varAlign
        let r := reserveFrom vs (location + varSize)
        ((v, location) :: r.1, r.2)
    else reserveFrom vs size

/-- The locations, and `constant_data_size`. -/
def Shader.reserve : List (ℕ × BitVec 32) × BitVec 32 :=
  reserveFrom sh sizeAlign threshold sh.locals 0

/-- `data.location` of a variable that is constant after the loop over the locals. -/
def Shader.location (v : ℕ) : Option (BitVec 32) :=
  if (sh.vars v).mode = .local then (sh.reserve sizeAlign threshold).1.lookup v else none

/-- `build_constant_load` of a deref of the type `type` in the variable `v` at `location`. -/
def buildConstantLoad (v : ℕ) (location : BitVec 32) (type : Glsl.GlslType) (offset : Offset) :
    ConstantLoad :=
  { numComponents := type.vectorElements
    -- booleans are loaded as 32 bits and converted
    bitSize := if typeBitSize type < 8 then 32 else typeBitSize type
    base := location
    range := (sizeAlign (sh.vars v).type).1
    offset := offset
    i2b := decide (typeBitSize type < 8) }

/-- The load that replaces one of the deref `src`. -/
def constantLoadOf (location : BitVec 32) (src : Deref) : ConstantLoad :=
  buildConstantLoad sh sizeAlign src.var location
    ((derefType (sh.vars src.var).type src.path).getD .error)
    (nirBuildDerefOffset (sh.vars src.var).type src.path)

/-- The assertion of `build_constant_load`, where the pass calls it for an instruction. -/
def assertion (i : Inst) : Bool :=
  match i with
  | .loadDeref _ src | .copyDeref _ src =>
    let varAlign := (sizeAlign (sh.vars src.var).type).2
    (sh.location sizeAlign threshold src.var).all fun location =>
      varAlign ≠ 0 ∧ location % varAlign = 0
  | _ => true

/-- The instructions in the place of one. -/
def lowerInst (i : Inst) : List LoweredInst :=
  match i with
  | .loadDeref dest src =>
    match sh.location sizeAlign threshold src.var with
    | some location => [.loadConstant dest (constantLoadOf sh sizeAlign location src)]
    | none => [.keep i]
  | .storeDeref dst _ _ =>
    match sh.location sizeAlign threshold dst.var with
    | some _ => []
    | none => [.keep i]
  | .copyDeref dst src =>
    match sh.location sizeAlign threshold src.var with
    | some location =>
      let load := constantLoadOf sh sizeAlign location src
      let type := (derefType (sh.vars dst.var).type dst.path).getD .error
      [.storeConstant dst load (fullMask type.vectorElements)]
    | none => [.keep i]
  | .other .. => [.keep i]

/-- The bytes that the loop of `handle_constant_store` writes for a component. -/
def componentData (bits x : ℕ) : List (BitVec 8) :=
  if bits = 1 then Blob.toBytes 4 (if x % 2 = 1 then 2 ^ 32 - 1 else 0)
  else Blob.toBytes (bits / 8) (x % 2 ^ bits)

/-- The bytes that one call of `handle_constant_store` writes, and where. -/
structure ConstantWrite where
  /-- The variable. -/
  var : ℕ
  /-- The address of the first byte, from the start of the constant data. -/
  address : ℤ
  /-- The bytes. -/
  bytes : List (BitVec 8)
  deriving DecidableEq

/-- `handle_constant_store` for a variable at `location`. -/
def handleConstantStore (location : BitVec 32) (dst : Deref) (value : Value) : ConstantWrite :=
  let type := (derefType (sh.vars dst.var).type dst.path).getD .error
  { var := dst.var
    address := location.toInt + (nirDerefInstrGetConstOffset (sh.vars dst.var).type dst.path).toNat
    bytes := (List.range type.vectorElements).flatMap fun c =>
      componentData (typeBitSize type) (value c) }

/-- What an instruction writes to the constant data. The stores to a variable that is moved are of
constants. -/
def constantWrite? : Inst → Option ConstantWrite
  | .storeDeref dst (.const value) _ =>
    (sh.location sizeAlign threshold dst.var).map fun location =>
      handleConstantStore sh location dst value
  | _ => none

/-- The writes to the constant data, in order. -/
def Shader.constantWrites : List ConstantWrite :=
  sh.instrs.filterMap (constantWrite? sh sizeAlign threshold)

/-- The constant data after these writes. -/
def Shader.constantData : ByteMem :=
  (sh.constantWrites sizeAlign threshold).foldl (fun data w =>
    data.write w.address w.bytes) fun _ => 0

/-- The block after the pass. -/
def lowerBlock (b : Block Inst) : Block LoweredInst :=
  { label := b.label, phis := b.phis, jump := b.jump
    instrs := b.instrs.flatMap (lowerInst sh sizeAlign threshold) }

/-- A block in which nothing is changed. -/
def keepBlock (b : Block Inst) : Block LoweredInst :=
  { label := b.label, phis := b.phis, jump := b.jump, instrs := b.instrs.map .keep }

/-- `nir_opt_large_constants`. -/
def nirOptLargeConstants : Option Lowered :=
  let size := (sh.reserve sizeAlign threshold).2
  if size = 0 then
    some {
      locals := sh.locals
      body := sh.body.map keepBlock id
      constantData := fun _ => 0
      constantDataSize := 0
      progress := false }
  else if sh.instrs.all (assertion sh sizeAlign threshold) then
    some {
      locals := sh.locals.filter fun v => (sh.location sizeAlign threshold v).isNone
      body := sh.body.map (lowerBlock sh sizeAlign threshold) id
      constantData := sh.constantData sizeAlign threshold
      constantDataSize := size
      progress := true }
  else none

end

end Mesa3D.Nir.LargeConstants
