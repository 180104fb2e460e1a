import Mathlib.Algebra.Group.Nat.Defs
import Mathlib.Algebra.Ring.Int.Defs
import Mathlib.Data.List.Sort
import Mathlib.Data.List.Perm.Subperm

/-!
# The instruction set

`nir_instr_set.c` finds instructions that compute the same value, for the elimination of common
subexpressions: `hash_instr` and `nir_instrs_equal` make instructions the keys of a set, and
`nir_instr_set_add_or_rewrite` replaces an instruction by the one that the set has for it.

Pointers are their addresses, and the tables of opcodes and intrinsics are arbitrary. What
instructions compute is a `World`: it gives a meaning to the opcodes, with commutative ones
symmetric in their sources, and to all other instructions as a function of their fields and the
values of their sources. `nirInstrsEqual_sound` says which fields the comparison leaves out: the
destination of derefs and texture instructions, and the flag `saturate`.
-/

namespace Mesa3D.Nir.InstrSet

open List
open Bool (and_eq_true)

/-! ## Instructions -/

/-- `nir_src`. -/
inductive Src
  | ssa (ssa : ℕ)
  | reg (reg baseOffset : ℕ)
  | regIndirect (reg baseOffset : ℕ) (indirect : Src)

/-- `is_ssa`. -/
def Src.isSsa : Src → Bool
  | .ssa _ => true
  | _ => false

/-- `nir_dest`; the sizes are those of an SSA def. -/
structure Dest where
  /-- `is_ssa`. -/
  isSsa : Bool
  /-- The components of the SSA def. -/
  numComponents : ℕ
  /-- The bits of a component. -/
  bitSize : ℕ
  deriving DecidableEq

/-- `nir_op_info`. The sources of a commutative opcode have one size and one type. -/
structure OpInfo where
  /-- `num_inputs`. -/
  numInputs : ℕ
  /-- The components that an input has to have, or zero. -/
  inputSizes : ℕ → ℕ
  /-- The type of an input. -/
  inputTypes : ℕ → ℕ
  /-- `NIR_OP_IS_COMMUTATIVE`. -/
  isCommutative : Bool
  /-- Only operations with two equal inputs are marked commutative. -/
  commutative : isCommutative = true →
    numInputs = 2 ∧ inputSizes 0 = inputSizes 1 ∧ inputTypes 0 = inputTypes 1

/-- `nir_intrinsic_info`. -/
structure IntrinsicInfo where
  /-- `has_dest`. -/
  hasDest : Bool
  /-- `num_srcs`. -/
  numSrcs : ℕ
  /-- `num_indices`. -/
  numIndices : ℕ
  /-- `NIR_INTRINSIC_CAN_ELIMINATE`. -/
  canEliminate : Bool
  /-- `NIR_INTRINSIC_CAN_REORDER`. -/
  canReorder : Bool

/-- `nir_op_infos` and `nir_intrinsic_infos`, the size of a `nir_block`, and the difference of two
pointers to blocks that are so many bytes apart. -/
structure Infos where
  /-- `nir_op_infos`. -/
  op : ℕ → OpInfo
  /-- `nir_intrinsic_infos`. -/
  intrinsic : ℕ → IntrinsicInfo
  /-- The size of a `nir_block`. -/
  blockSize : ℕ
  /-- The difference of two addresses of blocks, as an `int`. -/
  blockDiff : ℤ → ℤ
  /-- C does not say what the difference is where the bytes are not a multiple of the size. -/
  blockDiff_mul : ∀ k, blockDiff (k * blockSize) = k

/-- `nir_alu_src`. -/
structure AluSrc where
  /-- The source. -/
  src : Src
  /-- `negate`. -/
  negate : Bool
  /-- `abs`. -/
  abs : Bool
  /-- The component that is read for each component. -/
  swizzle : ℕ → ℕ

/-- `nir_alu_instr`. -/
structure Alu where
  /-- The operation. -/
  op : ℕ
  /-- `exact`. -/
  exact_ : Bool
  /-- `saturate` of the destination. -/
  saturate : Bool
  /-- The destination. -/
  dest : Dest
  /-- The sources. -/
  src : ℕ → AluSrc

/-- `deref_type`, with the parameters that a deref of the type has; sources are of type `σ`. -/
inductive DerefKind (σ : Type)
  | var (var : ℕ)
  | array (parent index : σ)
  | arrayWildcard (parent : σ)
  | struct (parent : σ) (index : ℕ)
  | cast (parent : σ)

/-- `nir_deref_instr`. -/
structure Deref (σ : Type) where
  /-- The mode of the variable. -/
  mode : ℕ
  /-- The type. -/
  type : ℕ
  /-- What the deref does, by its type. -/
  kind : DerefKind σ
  /-- The destination. -/
  dest : Dest

/-- `nir_tex_instr`. -/
structure Tex (σ : Type) where
  /-- The operation. -/
  op : ℕ
  /-- The sources with their types. -/
  src : List (ℕ × σ)
  /-- `coord_components`. -/
  coordComponents : ℕ
  /-- `sampler_dim`. -/
  samplerDim : ℕ
  /-- `is_array`. -/
  isArray : Bool
  /-- `is_shadow`. -/
  isShadow : Bool
  /-- `is_new_style_shadow`. -/
  isNewStyleShadow : Bool
  /-- `component`. -/
  component : ℕ
  /-- `texture_index`. -/
  textureIndex : ℕ
  /-- `texture_array_size`. -/
  textureArraySize : ℕ
  /-- `sampler_index`. -/
  samplerIndex : ℕ
  /-- `dest_type`. -/
  destType : ℕ
  /-- The destination. -/
  dest : Dest

/-- `nir_load_const_instr`, with the bytes of its value. -/
structure LoadConst where
  /-- The number of components. -/
  numComponents : ℕ
  /-- The bits of a component. -/
  bitSize : ℕ
  /-- The bytes of the value. -/
  value : ℕ → UInt8

/-- `nir_phi_instr`; a source is the predecessor and what comes from it. -/
structure Phi where
  /-- The block of the phi. -/
  block : ℕ
  /-- The sources with their predecessors. -/
  srcs : List (ℕ × Src)
  /-- The destination. -/
  dest : Dest

/-- `nir_intrinsic_instr`. -/
structure Intrinsic where
  /-- The intrinsic. -/
  intrinsic : ℕ
  /-- The destination. -/
  dest : Dest
  /-- `num_components`. -/
  numComponents : ℕ
  /-- `const_index`. -/
  constIndex : ℕ → ℕ
  /-- The sources. -/
  src : ℕ → Src

/-- `nir_instr`; calls, jumps and undefs are `other`. -/
inductive Instr
  | alu (alu : Alu)
  | deref (deref : Deref Src)
  | tex (tex : Tex Src)
  | loadConst (load : LoadConst)
  | phi (phi : Phi)
  | intrinsic (intrinsic : Intrinsic)
  | other

/-- The sources of a deref. -/
def DerefKind.srcs {σ : Type} : DerefKind σ → List σ
  | .var _ => []
  | .array parent index => [parent, index]
  | .arrayWildcard parent => [parent]
  | .struct parent _ => [parent]
  | .cast parent => [parent]

variable (T : Infos)

/-- `instr_can_rewrite`. -/
def instrCanRewrite : Instr → Bool
  | .alu a => a.dest.isSsa && (range (T.op a.op).numInputs).all fun i => (a.src i).src.isSsa
  | .deref d => d.dest.isSsa && d.kind.srcs.all Src.isSsa
  | .tex t => t.dest.isSsa && t.src.all fun s => s.2.isSsa
  | .loadConst _ => true
  | .phi p => p.dest.isSsa && p.srcs.all fun s => s.2.isSsa
  | .intrinsic i =>
    let info := T.intrinsic i.intrinsic
    (!info.hasDest || i.dest.isSsa) && ((range info.numSrcs).all fun k => (i.src k).isSsa) &&
      (info.canEliminate && info.canReorder)
  | .other => false

/-- `nir_ssa_alu_instr_src_components`. -/
def srcComponents (a : Alu) (src : ℕ) : ℕ :=
  if 0 < (T.op a.op).inputSizes src then (T.op a.op).inputSizes src else a.dest.numComponents

/-! ## Hashing -/

variable (hash : UInt32)

/-- `_mesa_fnv32_1a_accumulate_block`. -/
def accumulateBlock (bytes : List UInt8) : UInt32 :=
  bytes.foldl (fun hash byte => (hash ^^^ byte.toUInt32) * 0x01000193) hash

/-- `HASH`, of data of the given number of bytes. -/
def hashData (size data : ℕ) : UInt32 :=
  accumulateBlock hash ((range size).map fun i => UInt8.ofNat (data / 256 ^ i))

/-- `hash_src`. -/
def hashSrc : Src → UInt32
  | .ssa d => hashData hash 8 d
  | _ => hash

/-- `hash_alu_src`. -/
def hashAluSrc (src : AluSrc) (numComponents : ℕ) : UInt32 :=
  let hash := hashData hash 1 src.abs.toNat
  let hash := hashData hash 1 src.negate.toNat
  let hash := (range numComponents).foldl (fun hash i => hashData hash 1 (src.swizzle i)) hash
  hashSrc hash src.src

/-- `hash_alu`. -/
def hashAlu (a : Alu) : UInt32 :=
  let hash := hashData hash 4 a.op
  let hash := hashData hash 1 a.dest.numComponents
  let hash := hashData hash 1 a.dest.bitSize
  if (T.op a.op).isCommutative then
    hashAluSrc hash (a.src 0) (srcComponents T a 0) * hashAluSrc hash
      (a.src 1) (srcComponents T a 1)
  else
    (range (T.op a.op).numInputs).foldl
      (fun hash i => hashAluSrc hash (a.src i) (srcComponents T a i)) hash

/-- `deref_type`. -/
def DerefKind.derefType {σ : Type} : DerefKind σ → ℕ
  | .var _ => 0
  | .array .. => 1
  | .arrayWildcard _ => 2
  | .struct .. => 3
  | .cast _ => 4

/-- `hash_deref`. -/
def hashDeref (d : Deref Src) : UInt32 :=
  let hash := hashData hash 4 d.kind.derefType
  let hash := hashData hash 4 d.mode
  let hash := hashData hash 8 d.type
  match d.kind with
  | .var var => hashData hash 8 var
  | .struct parent index => hashData (hashSrc hash parent) 4 index
  | .array parent index => hashSrc (hashSrc hash parent) index
  | .arrayWildcard parent => hashSrc hash parent
  | .cast parent => hashSrc hash parent

/-- The bytes of a constant that are its components. -/
def LoadConst.bytes (l : LoadConst) : List UInt8 :=
  (range (if l.bitSize = 1 then l.numComponents else l.numComponents * (l.bitSize / 8))).map
    l.value

/-- `hash_load_const`. -/
def hashLoadConst (l : LoadConst) : UInt32 :=
  accumulateBlock (hashData hash 1 l.numComponents) l.bytes

/-- `cmp_phi_src`: the distance of the predecessors, cut to an `int`. -/
def cmpPhiSrc (s₁ s₂ : ℕ × Src) : ℤ :=
  Int.bmod (T.blockDiff (s₁.1 - s₂.1)) (2 ^ 32)

/-- `hash_phi`. -/
def hashPhi (p : Phi) : UInt32 :=
  (p.srcs.insertionSort fun s₁ s₂ => cmpPhiSrc T s₁ s₂ ≤ 0).foldl
    (fun hash s => hashData (hashSrc hash s.2) 8 s.1) (hashData hash 8 p.block)

/-- `hash_intrinsic`. -/
def hashIntrinsic (i : Intrinsic) : UInt32 :=
  let info := T.intrinsic i.intrinsic
  let hash := hashData hash 4 i.intrinsic
  let hash :=
    if info.hasDest then hashData (hashData hash 1 i.dest.numComponents) 1 i.dest.bitSize else hash
  (range info.numIndices).foldl (fun hash k => hashData hash 4 (i.constIndex k)) hash

/-- `hash_tex`. -/
def hashTex (t : Tex Src) : UInt32 :=
  let hash := hashData hash 4 t.op
  let hash := hashData hash 4 t.src.length
  let hash := t.src.foldl (fun hash s => hashSrc (hashData hash 4 s.1) s.2) hash
  let hash := hashData hash 4 t.coordComponents
  let hash := hashData hash 4 t.samplerDim
  let hash := hashData hash 1 t.isArray.toNat
  let hash := hashData hash 1 t.isShadow.toNat
  let hash := hashData hash 1 t.isNewStyleShadow.toNat
  let hash := hashData hash 4 t.component
  let hash := hashData hash 4 t.textureIndex
  let hash := hashData hash 4 t.textureArraySize
  hashData hash 4 t.samplerIndex

/-- `hash_instr`, of the instructions that may be rewritten. -/
def hashInstr : Instr → UInt32
  | .alu a => hashAlu T 2166136261 a
  | .deref d => hashDeref 2166136261 d
  | .loadConst l => hashLoadConst 2166136261 l
  | .phi p => hashPhi T 2166136261 p
  | .intrinsic i => hashIntrinsic T 2166136261 i
  | .tex t => hashTex 2166136261 t
  | .other => 2166136261

/-! ## Comparing -/

/-- `nir_srcs_equal`. -/
def nirSrcsEqual : Src → Src → Bool
  | .ssa d₁, .ssa d₂ => d₁ == d₂
  | .reg r₁ o₁, .reg r₂ o₂ => r₁ == r₂ && o₁ == o₂
  | .regIndirect r₁ o₁ i₁, .regIndirect r₂ o₂ i₂ => nirSrcsEqual i₁ i₂ && (r₁ == r₂ && o₁ == o₂)
  | _, _ => false

/-- `nir_alu_srcs_equal`. -/
def nirAluSrcsEqual (a₁ a₂ : Alu) (src₁ src₂ : ℕ) : Bool :=
  ((a₁.src src₁).abs == (a₂.src src₂).abs && (a₁.src src₁).negate == (a₂.src src₂).negate) &&
    (((range (srcComponents T a₁ src₁)).all fun i =>
      (a₁.src src₁).swizzle i == (a₂.src src₂).swizzle i) &&
    nirSrcsEqual (a₁.src src₁).src (a₂.src src₂).src)

/-- The case of ALU instructions. -/
def alusEqual (a₁ a₂ : Alu) : Bool :=
  a₁.op == a₂.op && a₁.dest.numComponents == a₂.dest.numComponents &&
    a₁.dest.bitSize == a₂.dest.bitSize &&
  if (T.op a₁.op).isCommutative then
    (nirAluSrcsEqual T a₁ a₂ 0 0 && nirAluSrcsEqual T a₁ a₂ 1 1) ||
      (nirAluSrcsEqual T a₁ a₂ 0 1 && nirAluSrcsEqual T a₁ a₂ 1 0)
  else (range (T.op a₁.op).numInputs).all fun i => nirAluSrcsEqual T a₁ a₂ i i

/-- The parameters of two derefs. -/
def derefKindsEqual : DerefKind Src → DerefKind Src → Bool
  | .var v₁, .var v₂ => v₁ == v₂
  | .array p₁ i₁, .array p₂ i₂ => nirSrcsEqual p₁ p₂ && nirSrcsEqual i₁ i₂
  | .arrayWildcard p₁, .arrayWildcard p₂ => nirSrcsEqual p₁ p₂
  | .struct p₁ i₁, .struct p₂ i₂ => nirSrcsEqual p₁ p₂ && i₁ == i₂
  | .cast p₁, .cast p₂ => nirSrcsEqual p₁ p₂
  | _, _ => false

/-- The sources of two texture instructions. -/
def texSrcsEqual : List (ℕ × Src) → List (ℕ × Src) → Bool
  | [], [] => true
  | s₁ :: l₁, s₂ :: l₂ => (s₁.1 == s₂.1 && nirSrcsEqual s₁.2 s₂.2) && texSrcsEqual l₁ l₂
  | _, _ => false

/-- The case of texture instructions. -/
def texsEqual (t₁ t₂ : Tex Src) : Bool :=
  t₁.op == t₂.op && texSrcsEqual t₁.src t₂.src && t₁.coordComponents == t₂.coordComponents &&
    t₁.samplerDim == t₂.samplerDim && t₁.isArray == t₂.isArray && t₁.isShadow == t₂.isShadow &&
    t₁.isNewStyleShadow == t₂.isNewStyleShadow && t₁.component == t₂.component &&
    t₁.textureIndex == t₂.textureIndex && t₁.textureArraySize == t₂.textureArraySize &&
    t₁.samplerIndex == t₂.samplerIndex

/-- The case of phis: the first source of the second phi for a predecessor is that of the first. -/
def phisEqual (p₁ p₂ : Phi) : Bool :=
  p₁.block == p₂.block && p₁.srcs.all fun s₁ =>
    match p₂.srcs.find? fun s₂ => s₁.1 == s₂.1 with
    | some s₂ => nirSrcsEqual s₁.2 s₂.2
    | none => true

/-- The case of intrinsics. -/
def intrinsicsEqual (i₁ i₂ : Intrinsic) : Bool :=
  let info := T.intrinsic i₁.intrinsic
  i₁.intrinsic == i₂.intrinsic && i₁.numComponents == i₂.numComponents &&
    (!info.hasDest ||
      (i₁.dest.numComponents == i₂.dest.numComponents && i₁.dest.bitSize == i₂.dest.bitSize)) &&
    ((range info.numSrcs).all fun k => nirSrcsEqual (i₁.src k) (i₂.src k)) &&
    (range info.numIndices).all fun k => i₁.constIndex k == i₂.constIndex k

/-- `nir_instrs_equal`, of instructions that may be rewritten. -/
def nirInstrsEqual : Instr → Instr → Bool
  | .alu a₁, .alu a₂ => alusEqual T a₁ a₂
  | .deref d₁, .deref d₂ =>
    d₁.mode == d₂.mode && d₁.type == d₂.type && derefKindsEqual d₁.kind d₂.kind
  | .tex t₁, .tex t₂ => texsEqual t₁ t₂
  | .loadConst l₁, .loadConst l₂ =>
    l₁.numComponents == l₂.numComponents && l₁.bitSize == l₂.bitSize && l₁.bytes == l₂.bytes
  | .phi p₁, .phi p₂ => phisEqual p₁ p₂
  | .intrinsic i₁, .intrinsic i₂ => intrinsicsEqual T i₁ i₂
  | _, _ => false

/-- `nir_instr_set_add_or_rewrite`: the set after it, and the instruction whose def replaces that of
the given one. -/
def nirInstrSetAddOrRewrite (set : List Instr) (instr : Instr) : List Instr × Option Instr :=
  if instrCanRewrite T instr then
    match set.find? fun e => hashInstr T e == hashInstr T instr && nirInstrsEqual T instr e with
    | some e =>
      match instr, e with
      | .alu a, .alu m => (set, some (.alu { m with exact_ := m.exact_ || a.exact_ }))
      | _, _ => (set, some e)
    | none => (set ++ [instr], none)
  else (set, none)

/-! ## What instructions compute -/

/-- The meaning of instructions, with components of type `α`. -/
structure World (α : Type) where
  /-- An opcode, for a number of components and a bit size. -/
  alu : ℕ → ℕ → ℕ → List (List α) → List α
  /-- The modifiers `abs` and `negate` of a source of a type. -/
  modify : ℕ → Bool → Bool → α → α
  /-- The modifier `saturate`. -/
  saturate : α → α
  /-- Derefs. -/
  deref : Deref (List α) → List α
  /-- Texture instructions. -/
  tex : Tex (List α) → List α
  /-- Constants, of a bit size. -/
  const : ℕ → List UInt8 → List α
  /-- Intrinsics, of a number of components, with their destination, sources and indices. -/
  intrinsic : ℕ → ℕ → Option (ℕ × ℕ) → List (List α) → List ℕ → List α
  /-- Commutative opcodes are symmetric. -/
  commutative : ∀ op n b x y, (T.op op).isCommutative = true → alu op n b [x, y] = alu op n b [y, x]

variable {T} {α : Type} [Inhabited α] (W : World T α) (env : Src → List α)

/-- The value of a source of an ALU instruction. -/
def World.aluSrc (a : Alu) (src : ℕ) : List α :=
  (range (srcComponents T a src)).map fun c =>
    W.modify ((T.op a.op).inputTypes src) (a.src src).abs (a.src src).negate
      ((env (a.src src).src).getD ((a.src src).swizzle c) default)

/-- A deref with the values of its sources. -/
def DerefKind.map {σ τ : Type} (f : σ → τ) : DerefKind σ → DerefKind τ
  | .var v => .var v
  | .array parent index => .array (f parent) (f index)
  | .arrayWildcard parent => .arrayWildcard (f parent)
  | .struct parent index => .struct (f parent) index
  | .cast parent => .cast (f parent)

/-- The result of an instruction, of a phi when its block is entered from `pred`. -/
def World.value (pred : ℕ) : Instr → List α
  | .alu a =>
    let result := W.alu a.op a.dest.numComponents a.dest.bitSize
      ((range (T.op a.op).numInputs).map (W.aluSrc env a))
    if a.saturate then result.map W.saturate else result
  | .deref d => W.deref { d with kind := d.kind.map env }
  | .tex t => W.tex { t with src := t.src.map fun s => (s.1, env s.2) }
  | .loadConst l => W.const l.bitSize l.bytes
  | .phi p =>
    match p.srcs.find? fun s => pred == s.1 with
    | some s => env s.2
    | none => []
  | .intrinsic i =>
    let info := T.intrinsic i.intrinsic
    W.intrinsic i.intrinsic i.numComponents
      (if info.hasDest then some (i.dest.numComponents, i.dest.bitSize) else none)
      ((range info.numSrcs).map fun k => env (i.src k))
      ((range info.numIndices).map i.constIndex)
  | .other => []

/-! ## Soundness -/

/-- Equal sources of which one is an SSA def are the same. -/
theorem eq_of_nirSrcsEqual {s₁ s₂ : Src} (hssa : s₁.isSsa = true) (h : nirSrcsEqual s₁ s₂ = true) :
    s₁ = s₂ := by
  cases s₁ <;> cases s₂ <;> simp_all [nirSrcsEqual, Src.isSsa]

/-- Equal sources of ALU instructions hash alike and have the same value. -/
theorem aluSrc_eq (a₁ a₂ : Alu) (i j : ℕ) (hssa : (a₁.src i).src.isSsa = true)
    (h : nirAluSrcsEqual T a₁ a₂ i j = true) (hn : srcComponents T a₁ i = srcComponents T a₂ j)
    (htype : (T.op a₁.op).inputTypes i = (T.op a₂.op).inputTypes j) :
    (∀ hash, hashAluSrc hash (a₁.src i) (srcComponents T a₁ i) =
        hashAluSrc hash (a₂.src j) (srcComponents T a₂ j)) ∧
      W.aluSrc env a₁ i = W.aluSrc env a₂ j := by
  simp only [nirAluSrcsEqual, and_eq_true, beq_iff_eq, all_eq_true] at h
  obtain ⟨⟨habs, hneg⟩, hswizzle, hsrc⟩ := h
  have hsrc := eq_of_nirSrcsEqual hssa hsrc
  refine ⟨fun hash => ?_, ?_⟩
  · simp only [hashAluSrc, habs, hneg, hsrc, ← hn]
    exact congrArg (hashSrc · _) (foldl_ext _ _ _ fun hash c hc => by rw [hswizzle c hc])
  · rw [World.aluSrc, World.aluSrc, ← hn, ← htype, habs, hneg, hsrc]
    exact map_congr_left fun c hc => by rw [hswizzle c hc]

/-- Equal ALU instructions hash alike, and compute the same before the destination modifier. -/
theorem alu_eq {a₁ a₂ : Alu} (hr : instrCanRewrite T (.alu a₁) = true)
    (h : alusEqual T a₁ a₂ = true) :
    (∀ hash, hashAlu T hash a₁ = hashAlu T hash a₂) ∧
      W.alu a₁.op a₁.dest.numComponents a₁.dest.bitSize
          ((range (T.op a₁.op).numInputs).map (W.aluSrc env a₁)) =
        W.alu a₂.op a₂.dest.numComponents a₂.dest.bitSize
          ((range (T.op a₂.op).numInputs).map (W.aluSrc env a₂)) := by
  simp only [instrCanRewrite, and_eq_true, all_eq_true, mem_range] at hr
  simp only [alusEqual, and_eq_true, beq_iff_eq] at h
  obtain ⟨⟨⟨hop, hn⟩, hb⟩, hsrcs⟩ := h
  have hcomps : ∀ i, srcComponents T a₁ i = srcComponents T a₂ i := fun i => by
    simp only [srcComponents, hop, hn]
  have hsrc := fun i j hi => aluSrc_eq W env a₁ a₂ i j (hr.2 i hi)
  by_cases hc : (T.op a₁.op).isCommutative = true
  · obtain ⟨hinputs, hsizes, htypes⟩ := (T.op a₁.op).commutative hc
    have hcomps₂ : srcComponents T a₂ 0 = srcComponents T a₂ 1 := by
      simp only [srcComponents, ← hop, hsizes]
    have hrange : range 2 = [0, 1] := rfl
    simp only [hashAlu, ← hop, ← hn, ← hb, hc, if_true, hinputs, hrange, map_cons, map_nil,
      Bool.or_eq_true, and_eq_true] at hsrcs ⊢
    rcases hsrcs with ⟨h₀, h₁⟩ | ⟨h₀, h₁⟩
    · have h₀ := hsrc 0 0 (by omega) h₀ (hcomps 0) (by rw [hop])
      have h₁ := hsrc 1 1 (by omega) h₁ (hcomps 1) (by rw [hop])
      exact ⟨fun hash => by rw [h₀.1, h₁.1], by rw [h₀.2, h₁.2]⟩
    · -- The sources stand the other way round.
      have h₀ := hsrc 0 1 (by omega) h₀ ((hcomps 0).trans hcomps₂) (by rw [← hop, htypes])
      have h₁ := hsrc 1 0 (by omega) h₁ ((hcomps 1).trans hcomps₂.symm) (by rw [← hop, htypes])
      exact ⟨fun hash => by rw [h₀.1, h₁.1, UInt32.mul_comm], by
        rw [h₀.2, h₁.2, W.commutative _ _ _ _ _ hc]⟩
  · simp only [hc, Bool.false_eq_true, if_false, all_eq_true, mem_range] at hsrcs
    have hsrcs := fun i hi => hsrc i i hi (hsrcs i hi) (hcomps i) (by rw [hop])
    simp only [hashAlu, ← hop, ← hn, ← hb, hc, Bool.false_eq_true, if_false]
    refine ⟨fun hash => ?_, ?_⟩
    · exact foldl_ext _ _ _ fun hash i hi => (hsrcs i (mem_range.mp hi)).1 hash
    · exact congrArg _ (map_congr_left fun i hi => (hsrcs i (mem_range.mp hi)).2)

/-- Equal derefs have the same parameters. -/
theorem eq_of_derefKindsEqual {k₁ k₂ : DerefKind Src} (hssa : k₁.srcs.all Src.isSsa = true)
    (h : derefKindsEqual k₁ k₂ = true) : k₁ = k₂ := by
  have hsrc := @eq_of_nirSrcsEqual
  cases k₁ <;> cases k₂ <;> simp_all [derefKindsEqual, DerefKind.srcs] <;> grind

/-- Equal lists of texture sources are the same. -/
theorem eq_of_texSrcsEqual : ∀ {l₁ l₂ : List (ℕ × Src)}, (∀ s ∈ l₁, s.2.isSsa = true) →
    texSrcsEqual l₁ l₂ = true → l₁ = l₂
  | [], [], _, _ => rfl
  | s₁ :: l₁, s₂ :: l₂, hssa, h => by
    simp only [texSrcsEqual, and_eq_true, beq_iff_eq] at h
    have hs : s₁ = s₂ := Prod.ext h.1.1 (eq_of_nirSrcsEqual (hssa s₁ (by simp)) h.1.2)
    rw [hs, eq_of_texSrcsEqual (fun s hs => hssa s (by simp [hs])) h.2]
  | [], _ :: _, _, h | _ :: _, [], _, h => by simp [texSrcsEqual] at h

/-- Equal texture instructions are the same but for their destination. -/
theorem eq_of_texsEqual {t₁ t₂ : Tex Src} (hssa : ∀ s ∈ t₁.src, s.2.isSsa = true)
    (h : texsEqual t₁ t₂ = true) : t₁ = { t₂ with destType := t₁.destType, dest := t₁.dest } := by
  simp only [texsEqual, and_eq_true, beq_iff_eq] at h
  have hsrc := eq_of_texSrcsEqual hssa h.1.1.1.1.1.1.1.1.1.2
  cases t₁
  cases t₂
  simp_all

/-- `cmp_phi_src` compares the sources for the given predecessors by some order of these. -/
def Ordered (T : Infos) (blocks : List ℕ) : Prop :=
  ∃ rank : ℕ → ℕ, (∀ p ∈ blocks, ∀ q ∈ blocks, rank p = rank q → p = q) ∧
    ∀ s₁ s₂ : ℕ × Src, s₁.1 ∈ blocks → s₂.1 ∈ blocks →
      (cmpPhiSrc T s₁ s₂ ≤ 0 ↔ rank s₁.1 ≤ rank s₂.1)

/-- The sources of a phi are one for each predecessor of its block. -/
def Phi.Valid (preds : ℕ → List ℕ) (p : Phi) : Prop :=
  (p.srcs.map Prod.fst).Perm (preds p.block) ∧ (preds p.block).Nodup

/-- The blocks of an array are ordered by their addresses, if it is not too long. -/
theorem ordered_of_multiples {blocks : List ℕ} (hsize : 0 < T.blockSize)
    (h : ∀ p ∈ blocks, ∃ k < 2 ^ 31, p = k * T.blockSize) : Ordered T blocks := by
  refine ⟨id, fun _ _ _ _ => id, fun s₁ s₂ h₁ h₂ => ?_⟩
  obtain ⟨k₁, hk₁, heq₁⟩ := h _ h₁
  obtain ⟨k₂, hk₂, heq₂⟩ := h _ h₂
  have hdiff : ((s₁.1 : ℤ) - s₂.1) = (k₁ - k₂ : ℤ) * T.blockSize := by
    rw [heq₁, heq₂, Int.sub_mul, Int.natCast_mul, Int.natCast_mul]
  rw [cmpPhiSrc, hdiff, T.blockDiff_mul, Int.bmod_eq_of_le (by omega)
    (by omega), id, id, heq₁, heq₂,
    Nat.mul_le_mul_right_iff hsize]
  omega

variable {preds : ℕ → List ℕ}

/-- Equal phis have the same sources. -/
theorem perm_of_phisEqual {p₁ p₂ : Phi} (hssa : ∀ s ∈ p₁.srcs, s.2.isSsa = true)
    (hv₁ : p₁.Valid preds) (hv₂ : p₂.Valid preds) (h : phisEqual p₁ p₂ = true) :
    p₁.srcs.Perm p₂.srcs := by
  simp only [phisEqual, and_eq_true, beq_iff_eq, all_eq_true] at h
  have hperm := hv₁.1.trans (h.1 ▸ hv₂.1.symm)
  have hnd : p₁.srcs.Nodup := (hv₁.1.nodup_iff.mpr hv₁.2).of_map
  refine (subperm_of_subset hnd fun s hs => ?_).perm_of_length_le
    (by simpa using hperm.length_eq.ge)
  have htest := h.2 s hs
  split at htest
  case h_1 s₂ hfind =>
    obtain ⟨hpred, hmem⟩ := And.intro (find?_some hfind) (mem_of_find?_eq_some hfind)
    rwa [Prod.ext (by simpa using hpred) (eq_of_nirSrcsEqual (hssa s hs) htest)]
  case h_2 hfind =>
    obtain ⟨s₂, hs₂, heq⟩ := mem_map.mp (hperm.mem_iff.mp (mem_map_of_mem hs))
    simpa [heq] using find?_eq_none.mp hfind s₂ hs₂

/-- The source for a predecessor. -/
theorem find?_pred_iff {l : List (ℕ × Src)} (hnd : (l.map Prod.fst).Nodup)
    {pred : ℕ} {s : ℕ × Src} :
    l.find? (fun s => pred == s.1) = some s ↔ s ∈ l ∧ s.1 = pred := by
  constructor
  · intro h
    exact ⟨mem_of_find?_eq_some h, Eq.symm (by simpa using find?_some h)⟩
  · rintro ⟨hmem, rfl⟩
    cases hfind : l.find? fun x => s.1 == x.1 with
    | none => simpa using find?_eq_none.mp hfind s hmem
    | some s' =>
      refine congrArg some (inj_on_of_nodup_map hnd (mem_of_find?_eq_some hfind) hmem ?_)
      exact Eq.symm (by simpa using find?_some hfind)

/-- Equal phis hash alike and have the same value. -/
theorem phi_eq {p₁ p₂ : Phi} (hssa : ∀ s ∈ p₁.srcs, s.2.isSsa = true) (hv₁ : p₁.Valid preds)
    (hv₂ : p₂.Valid preds) (h : phisEqual p₁ p₂ = true) (hord : Ordered T (p₁.srcs.map Prod.fst)) :
    (∀ hash, hashPhi T hash p₁ = hashPhi T hash p₂) ∧
      ∀ pred, W.value env pred (.phi p₁) = W.value env pred (.phi p₂) := by
  have hperm := perm_of_phisEqual hssa hv₁ hv₂ h
  have hnd := hv₁.1.nodup_iff.mpr hv₁.2
  obtain ⟨rank, hinj, hrank⟩ := hord
  have hsort : ∀ l : List (ℕ × Src), l.Perm p₁.srcs →
      l.insertionSort (fun s₁ s₂ => cmpPhiSrc T s₁ s₂ ≤ 0) =
        l.insertionSort fun s₁ s₂ => rank s₁.1 ≤ rank s₂.1 := fun l hl => by
    simpa using map_insertionSort _ (fun s₁ s₂ : ℕ × Src => rank s₁.1 ≤ rank s₂.1) id l
      fun a ha b hb => hrank a b (mem_map_of_mem (hl.mem_iff.mp ha))
        (mem_map_of_mem (hl.mem_iff.mp hb))
  refine ⟨fun hash => ?_, fun pred => ?_⟩
  · simp only [phisEqual, and_eq_true, beq_iff_eq] at h
    rw [hashPhi, hashPhi, hsort _ .rfl, hsort _ hperm.symm, h.1]
    congr 1
    have : IsTrans (ℕ × Src) fun s₁ s₂ => rank s₁.1 ≤ rank s₂.1 := ⟨fun _ _ _ => Nat.le_trans⟩
    have : Std.Total fun s₁ s₂ : ℕ × Src => rank s₁.1 ≤ rank s₂.1 := ⟨fun _ _ => Nat.le_total _ _⟩
    refine Perm.eq_of_pairwise (fun a b ha hb hab hba => ?_) (pairwise_insertionSort _ _)
      (pairwise_insertionSort _ _) (((perm_insertionSort _ _).trans hperm).trans
        (perm_insertionSort _ _).symm)
    have ha := (mem_insertionSort _).mp ha
    have hb := hperm.mem_iff.mpr ((mem_insertionSort _).mp hb)
    exact inj_on_of_nodup_map hnd ha hb
      (hinj _ (mem_map_of_mem ha) _ (mem_map_of_mem hb) (Nat.le_antisymm hab hba))
  · have hfind : p₁.srcs.find? (fun s => pred == s.1) = p₂.srcs.find? fun s => pred == s.1 := by
      ext s
      rw [find?_pred_iff hnd, find?_pred_iff ((hperm.map _).nodup_iff.mp hnd), hperm.mem_iff]
    simp only [World.value, hfind]

/-- What `nir_instrs_equal` does not compare, and what `hash_instr` needs to sort the sources of a
phi. -/
def Agree (T : Infos) : Instr → Instr → Prop
  | .alu a₁, .alu a₂ => a₁.saturate = a₂.saturate
  | .deref d₁, .deref d₂ => d₁.dest = d₂.dest
  | .tex t₁, .tex t₂ => t₁.destType = t₂.destType ∧ t₁.dest = t₂.dest
  | .phi p₁, .phi _ => Ordered T (p₁.srcs.map Prod.fst)
  | _, _ => True

/-- An instruction of a function whose blocks have the given predecessors. -/
def Instr.Valid (preds : ℕ → List ℕ) : Instr → Prop
  | .phi p => p.Valid preds
  | _ => True

/-- Equal instructions that may be rewritten hash alike and compute the same. -/
theorem instr_eq {i₁ i₂ : Instr} (hr : instrCanRewrite T i₁ = true) (hv₁ : i₁.Valid preds)
    (hv₂ : i₂.Valid preds) (h : nirInstrsEqual T i₁ i₂ = true) (ha : Agree T i₁ i₂) :
    hashInstr T i₁ = hashInstr T i₂ ∧ ∀ pred, W.value env pred i₁ = W.value env pred i₂ := by
  cases i₁ <;> cases i₂ <;> try cases h
  case alu.alu a₁ a₂ =>
    obtain ⟨hhash, hval⟩ := alu_eq W env hr h
    refine ⟨hhash _, fun pred => ?_⟩
    have ha : a₁.saturate = a₂.saturate := ha
    simp only [World.value, hval, ha]
  case deref.deref d₁ d₂ =>
    simp only [instrCanRewrite, nirInstrsEqual, and_eq_true, beq_iff_eq] at hr h
    have hkind := eq_of_derefKindsEqual hr.2 h.2
    have heq : d₁ = d₂ := by
      cases d₁
      cases d₂
      simp_all [Agree]
    simp [heq]
  case tex.tex t₁ t₂ =>
    simp only [instrCanRewrite, and_eq_true, all_eq_true] at hr
    have heq : t₁ = t₂ := by
      rw [eq_of_texsEqual hr.2 h, ha.1, ha.2]
    simp [heq]
  case loadConst.loadConst l₁ l₂ =>
    simp only [nirInstrsEqual, and_eq_true, beq_iff_eq] at h
    simp only [hashInstr, hashLoadConst, World.value, h, implies_true, and_self]
  case phi.phi p₁ p₂ =>
    simp only [instrCanRewrite, and_eq_true, all_eq_true] at hr
    obtain ⟨hhash, hval⟩ := phi_eq W env hr.2 hv₁ hv₂ h ha
    exact ⟨hhash _, hval⟩
  case intrinsic.intrinsic i₁ i₂ =>
    simp only [instrCanRewrite, nirInstrsEqual, intrinsicsEqual, and_eq_true, all_eq_true,
      beq_iff_eq, Bool.or_eq_true, Bool.not_eq_eq_eq_not, Bool.not_true] at hr h
    obtain ⟨⟨⟨⟨hop, hn⟩, hdest⟩, hsrcs⟩, hindices⟩ := h
    have hsrcs := fun k hk => eq_of_nirSrcsEqual (hr.1.2 k hk) (hsrcs k hk)
    have hfold : ∀ hash, (range (T.intrinsic i₁.intrinsic).numIndices).foldl
        (fun hash k => hashData hash 4 (i₁.constIndex k)) hash =
        (range (T.intrinsic i₁.intrinsic).numIndices).foldl
          (fun hash k => hashData hash 4 (i₂.constIndex k)) hash :=
      fun hash => foldl_ext _ _ _ fun hash k hk => by rw [hindices k hk]
    have hmap := map_congr_left fun k hk => congrArg env (hsrcs k hk)
    have hidx := map_congr_left hindices
    rcases hdest with hdest | ⟨hdn, hdb⟩
    · simp only [hashInstr, hashIntrinsic, World.value, ← hop, ← hn, hdest, hfold, hmap, hidx,
        Bool.false_eq_true, if_false, implies_true, and_self]
    · simp only [hashInstr, hashIntrinsic, World.value, ← hop,
        ← hn, ← hdn, ← hdb, hfold, hmap, hidx,
        implies_true, and_self]

/-- Instructions that may be rewritten and are equal, with equal destinations and modifiers of
theirs, hash alike and compute the same in every world; so an instruction is only replaced by one
that computes the same. -/
theorem nirInstrsEqual_sound (T : Infos) (preds : ℕ → List ℕ) :
    (∀ i₁ i₂ : Instr, instrCanRewrite T i₁ = true → instrCanRewrite T i₂ = true → i₁.Valid preds →
      i₂.Valid preds → nirInstrsEqual T i₁ i₂ = true → Agree T i₁ i₂ →
        hashInstr T i₁ = hashInstr T i₂ ∧ ∀ (α : Type) [Inhabited α] (W : World T α)
          (env : Src → List α) (pred : ℕ), W.value env pred i₁ = W.value env pred i₂) ∧
    ∀ (set set' : List Instr) (instr m : Instr), instr.Valid preds →
      (∀ e ∈ set, e.Valid preds ∧ (nirInstrsEqual T instr e = true → Agree T instr e)) →
      nirInstrSetAddOrRewrite T set instr = (set', some m) →
        ∀ (α : Type) [Inhabited α] (W : World T α) (env : Src → List α) (pred : ℕ),
          W.value env pred m = W.value env pred instr := by
  refine ⟨fun i₁ i₂ hr _ hv₁ hv₂ h ha => ⟨?_, fun α _ W env => (instr_eq W env hr hv₁ hv₂ h ha).2⟩,
    fun set set' instr m hv hset hm α _ W env pred => ?_⟩
  · -- The hash does not depend on the world.
    exact (instr_eq (α := Unit) ⟨fun _ _ _ _ => [], fun _ _ _ x => x, id, fun _ => [], fun _ => [],
      fun _ _ => [], fun _ _ _ _ _ => [], fun _ _ _ _ _ _ => rfl⟩ (fun _ => []) hr hv₁ hv₂ h ha).1
  · unfold nirInstrSetAddOrRewrite at hm
    split_ifs at hm with hr
    · split at hm
      case h_1 e hfind =>
        have hmem := hset e (mem_of_find?_eq_some hfind)
        have htest := find?_some hfind
        simp only [and_eq_true] at htest
        have hval := (instr_eq W env hr hv hmem.1 htest.2 (hmem.2 htest.2)).2 pred
        rw [hval]
        split at hm <;> cases hm <;> rfl
      case h_2 => simp at hm
    · simp at hm

/-- One opcode and one intrinsic. -/
def someInfos : Infos :=
  ⟨fun _ => ⟨2, fun _ => 0, fun _ => 0, true, fun _ => ⟨rfl, rfl, rfl⟩⟩,
    fun _ => ⟨true, 0, 0, true, true⟩, 1, id, fun k => by simp⟩

/-- Addition of integers, with a texture that gives the type that is asked for. -/
def someWorld : World someInfos ℤ where
  alu _ _ _ srcs := [(srcs.map sum).sum]
  modify _ _ _ x := x
  saturate x := max 0 (min x 1)
  deref d := [d.dest.bitSize]
  tex t := [t.destType]
  const _ _ := []
  intrinsic _ _ _ _ _ := []
  commutative _ _ _ x y _ := by simp [Int.add_comm]

/-- The sum of two SSA defs. -/
def fadd (saturate : Bool) (d₁ d₂ : ℕ) : Instr :=
  .alu ⟨0, false, saturate, ⟨true, 1, 32⟩,
    fun i => ⟨.ssa (if i = 0 then d₁ else d₂), false, false, fun _ => 0⟩⟩

/-- A texture lookup without sources. -/
def tex (destType : ℕ) : Instr :=
  .tex ⟨0, [], 2, 0, false, false, false, 0, 0, 0, 0, destType, ⟨true, 4, 32⟩⟩

/-- A cast to a pointer of the given bit size. -/
def castTo (bitSize : ℕ) : Instr := .deref ⟨1, 1, .cast (.ssa 1), ⟨true, 1, bitSize⟩⟩

/-- The sum with its sources swapped. -/
theorem nirInstrsEqual_sound_swapped :
    hashInstr someInfos (fadd true 1 2) = hashInstr someInfos (fadd true 2 1) :=
  ((nirInstrsEqual_sound someInfos fun _ => []).1 (fadd true 1 2) (fadd true 2 1) (by decide)
    (by decide) trivial trivial (by decide) rfl).1

/-- A sum that is clamped and one that is not are equal, and the one replaces the other; and so are
lookups of different types and casts to pointers of different sizes. -/
theorem nirInstrsEqual_saturate :
    nirInstrsEqual someInfos (fadd false 1 2) (fadd true 1 2) = true ∧
      nirInstrSetAddOrRewrite someInfos [fadd true 1 2] (fadd false 1 2) =
        ([fadd true 1 2], some (fadd true 1 2)) ∧
      someWorld.value (fun _ => [1]) 0 (fadd false 1 2) ≠
        someWorld.value (fun _ => [1]) 0 (fadd true 1 2) ∧
      nirInstrsEqual someInfos (tex 0) (tex 1) = true ∧
      someWorld.value (fun _ => [1]) 0 (tex 0) ≠ someWorld.value (fun _ => [1]) 0 (tex 1) ∧
      nirInstrsEqual someInfos (castTo 32) (castTo 64) = true ∧
      someWorld.value (fun _ => [1]) 0 (castTo 32) ≠ someWorld.value (fun _ => [1]) 0 (castTo 64) :=
  ⟨by decide, rfl, by decide, by decide, by decide, by decide, by decide⟩

end Mesa3D.Nir.InstrSet
