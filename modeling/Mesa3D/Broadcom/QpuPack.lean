import Mesa3D.Bits.Field
import Mesa3D.Broadcom.QpuTables

/-!
# Packing and unpacking of QPU instructions

`qpu_pack.c`. A function that returns `false` or whose assertion fails is `none`. Unpacking writes
to an instruction of the caller, and the fields that it does not write stay as they were. A field of
the word is read as a number and written by `QPU_SET_FIELD`, which asserts that the value fits. An
enumeration is converted as in C: `ctorIdx` is its value, and `ofNat` the member with a value.
-/

namespace Mesa3D.Qpu

open Bits

/-! ### Signals -/

/-- The table of signals of a version. -/
def sigMap (ver : ℕ) : List Sig :=
  if 41 ≤ ver then v41SigMap else if ver = 40 then v40SigMap else v33SigMap

/-- `v3d_qpu_sig_unpack`. -/
def v3dQpuSigUnpack (ver packedSig : ℕ) : Option Sig := do
  let sig ← (sigMap ver)[packedSig]?
  -- signals with zeroed contents after the first are reserved
  if packedSig = 0 ∨ sig ≠ {} then some sig else none

/-- `v3d_qpu_sig_pack`. -/
def v3dQpuSigPack (ver : ℕ) (sig : Sig) : Option ℕ := (sigMap ver).findIdx? fun s => s = sig

/-! ### Flags -/

/-- No condition and no update. -/
def Flags.empty : Flags := ⟨.none, .none, .none, .none, .none, .none⟩

/-- `v3d_qpu_flags_unpack`. -/
def v3dQpuFlagsUnpack (packedCond : ℕ) : Option Flags :=
  if packedCond = 0 then some .empty
  else if packedCond >>> 2 = 0 then some { Flags.empty with apf := .ofNat (packedCond &&& 0x3) }
  else if packedCond >>> 4 = 0 then
    some { Flags.empty with auf := .ofNat ((packedCond &&& 0xf) - 4 + Uf.andz.ctorIdx) }
  else if packedCond = 0x10 then none
  else if packedCond >>> 2 = 0x4 then some { Flags.empty with mpf := .ofNat (packedCond &&& 0x3) }
  else if packedCond >>> 4 = 0x1 then
    some { Flags.empty with muf := .ofNat ((packedCond &&& 0xf) - 4 + Uf.andz.ctorIdx) }
  else if packedCond >>> 4 = 0x2 then
    some { Flags.empty with
      ac := .ofNat (((packedCond >>> 2) &&& 0x3) + Cond.ifa.ctorIdx)
      mpf := .ofNat (packedCond &&& 0x3) }
  else if packedCond >>> 4 = 0x3 then
    some { Flags.empty with
      mc := .ofNat (((packedCond >>> 2) &&& 0x3) + Cond.ifa.ctorIdx)
      apf := .ofNat (packedCond &&& 0x3) }
  else if packedCond >>> 6 ≠ 0 then
    let mc : Cond := .ofNat (((packedCond >>> 4) &&& 0x3) + Cond.ifa.ctorIdx)
    if (packedCond >>> 2) &&& 0x3 = 0 then
      some { Flags.empty with mc := mc, ac := .ofNat ((packedCond &&& 0x3) + Cond.ifa.ctorIdx) }
    else
      some { Flags.empty with
        mc := mc, auf := .ofNat ((packedCond &&& 0xf) - 4 + Uf.andz.ctorIdx) }
  else some .empty

/-- `flags_table`: the flags that are present, as bits for `AC`, `MC`, `APF`, `MPF`, `AUF` and
`MUF`, and the bits that tell them apart. -/
def flagsTable : List (ℕ × ℕ) :=
  [(0, 0), (0x04, 0), (0x10, 0), (0x08, 1 <<< 4), (0x20, 1 <<< 4), (0x01, 1 <<< 5), (0x09, 1 <<< 5),
   (0x02, 1 <<< 5 ||| 1 <<< 4), (0x06, 1 <<< 5 ||| 1 <<< 4), (0x03, 1 <<< 6), (0x12, 1 <<< 6)]

/-- `flags_present`. -/
def Flags.present (cond : Flags) : ℕ :=
  (if cond.ac ≠ .none then 0x01 else 0) ||| (if cond.mc ≠ .none then 0x02 else 0) |||
  (if cond.apf ≠ .none then 0x04 else 0) ||| (if cond.mpf ≠ .none then 0x08 else 0) |||
  (if cond.auf ≠ .none then 0x10 else 0) ||| (if cond.muf ≠ .none then 0x20 else 0)

/-- `v3d_qpu_flags_pack`. -/
def v3dQpuFlagsPack (cond : Flags) : Option ℕ := do
  let entry ← flagsTable.find? fun e => e.1 = cond.present
  let packed := entry.2 ||| cond.apf.ctorIdx ||| cond.mpf.ctorIdx
  let packed := if cond.auf ≠ .none then packed |||
    (cond.auf.ctorIdx - Uf.andz.ctorIdx + 4) else packed
  let packed := if cond.muf ≠ .none then packed |||
    (cond.muf.ctorIdx - Uf.andz.ctorIdx + 4) else packed
  let packed :=
    if cond.ac ≠ .none then packed ||| (cond.ac.ctorIdx - Cond.ifa.ctorIdx) <<< 2 else packed
  if cond.mc ≠ .none then
    if packed &&& 1 <<< 6 ≠ 0 then some (packed ||| (cond.mc.ctorIdx - Cond.ifa.ctorIdx) <<< 4)
    else some (packed ||| (cond.mc.ctorIdx - Cond.ifa.ctorIdx) <<< 2)
  else some packed

/-! ### Operations -/

/-- `lookup_opcode`. -/
def lookupOpcode {Op : Type} (opcodes : List (OpcodeDesc Op)) (opcode muxA muxB : ℕ) :
    Option (OpcodeDesc Op) :=
  opcodes.find? fun d => d.opcodeFirst ≤ opcode && opcode ≤
    d.opcodeLast && d.muxBMask.testBit muxB &&
    d.muxAMask.testBit muxA

/-- `ffs`. -/
def ffs (mask : ℕ) : ℕ :=
  match (List.range 32).find? mask.testBit with
  | none => 0
  | some i => i + 1

/-- `v3d_qpu_float32_unpack_unpack`. -/
def v3dQpuFloat32UnpackUnpack : ℕ → Option InputUnpack
  | 0 => some .abs
  | 1 => some .none
  | 2 => some .l
  | 3 => some .h
  | _ => none

/-- `v3d_qpu_float32_unpack_pack`. -/
def v3dQpuFloat32UnpackPack : InputUnpack → Option ℕ
  | .abs => some 0
  | .none => some 1
  | .l => some 2
  | .h => some 3
  | _ => none

/-- `v3d_qpu_float16_unpack_unpack`. -/
def v3dQpuFloat16UnpackUnpack : ℕ → Option InputUnpack
  | 0 => some .none
  | 1 => some .replicate32f16
  | 2 => some .replicateL16
  | 3 => some .replicateH16
  | 4 => some .swap16
  | _ => none

/-- `v3d_qpu_float16_unpack_pack`. -/
def v3dQpuFloat16UnpackPack : InputUnpack → Option ℕ
  | .none => some 0
  | .replicate32f16 => some 1
  | .replicateL16 => some 2
  | .replicateH16 => some 3
  | .swap16 => some 4
  | _ => none

/-- `v3d_qpu_float32_pack_pack`. -/
def v3dQpuFloat32PackPack : OutputPack → ℕ
  | .none => 0
  | .l => 1
  | .h => 2

/-- The groups of operations that the code packs in the same way. -/
inductive PackClass
  /-- Both inputs are unpacked, and the output is packed. -/
  | float32
  /-- The input is unpacked, and the output is packed by `mux_b`. -/
  | round
  /-- The input is unpacked. -/
  | toInt
  /-- The first input is unpacked to two halves. -/
  | float16
  /-- The input is unpacked and the output is packed, both by `mux_b`. -/
  | move
  | plain
deriving DecidableEq

/-- The cases of the switch in `v3d_qpu_add_unpack` and `v3d_qpu_add_pack`. -/
def AddOp.packClass : AddOp → PackClass
  | .fadd | .faddnf | .fsub | .fmin | .fmax | .fcmp => .float32
  | .ffloor | .fround | .ftrunc | .fceil | .fdx | .fdy => .round
  | .ftoin | .ftoiz | .ftouz | .ftoc => .toInt
  | .vfmin | .vfmax => .float16
  | _ => .plain

/-- The cases of the switch in `v3d_qpu_mul_unpack` and `v3d_qpu_mul_pack`. -/
def MulOp.packClass : MulOp → PackClass
  | .fmul => .float32
  | .fmov => .move
  | .vfmul => .float16
  | _ => .plain

/-! ### The add ALU -/

/-- The fields of a word for an operation of an ALU. -/
@[ext]
structure AluFields where
  /-- The opcode. -/
  op : ℕ
  /-- The first operand. -/
  muxA : ℕ
  /-- The second operand. -/
  muxB : ℕ
  /-- The register that is written. -/
  waddr : ℕ
  /-- It is one of the special ones. -/
  magic : Bool

/-- Clusters of opcodes are replicated with unpack flags. -/
def mapOp (op : ℕ) : ℕ :=
  if 249 ≤ op ∧ op ≤ 251 then op - 249 + 245 else if 253 ≤ op ∧ op ≤ 255 then op - 253 + 245 else op

/-- The operands are in the order of `FMAX` and `FADDNF`. -/
def orderedDown (aUnpack muxA bUnpack muxB : ℕ) : Bool := aUnpack * 8 + muxA > bUnpack * 8 + muxB

/-- The order of the operands tells `FMIN` from `FMAX` and `FADD` from `FADDNF`. -/
def orderOp (down : Bool) : AddOp → AddOp
  | .fmin => if down then .fmax else .fmin
  | .fadd => if down then .faddnf else .fadd
  | op => op

/-- `waddr` tells the stores to the VPM apart. -/
def stvpmOp (waddr : ℕ) : AddOp → Option AddOp
  | .stvpmv | .stvpmd | .stvpmp =>
    match waddr with
    | 0 => some .stvpmv
    | 1 => some .stvpmd
    | 2 => some .stvpmp
    | _ => none
  | op => some op

variable (f : AluFields)

/-- The operation of a word, from its entry in the table. -/
def addOpOf (op : AddOp) : Option AddOp :=
  stvpmOp f.waddr (orderOp (orderedDown ((f.op >>> 2) &&& 3) f.muxA (f.op &&& 3) f.muxB) op)

/-- The second switch of `v3d_qpu_add_unpack`. -/
def addUnpackPacks (i : AluOp AddOp) : Option (AluOp AddOp) :=
  match i.op.packClass with
  | .float32 => do
    let a ← v3dQpuFloat32UnpackUnpack ((f.op >>> 2) &&& 0x3)
    let b ← v3dQpuFloat32UnpackUnpack (f.op &&& 0x3)
    some { i with outputPack := .ofNat ((f.op >>> 4) &&& 0x3), aUnpack := a, bUnpack := b }
  | .round => do
    let a ← v3dQpuFloat32UnpackUnpack ((f.op >>> 2) &&& 0x3)
    some { i with outputPack := .ofNat (f.muxB &&& 0x3), aUnpack := a }
  | .toInt => do
    let a ← v3dQpuFloat32UnpackUnpack ((f.op >>> 2) &&& 0x3)
    some { i with outputPack := .none, aUnpack := a }
  | .float16 => do
    let a ← v3dQpuFloat16UnpackUnpack (f.op &&& 0x7)
    some { i with outputPack := .none, aUnpack := a, bUnpack := .none }
  | _ => some { i with outputPack := .none, aUnpack := .none, bUnpack := .none }

/-- The operands and the magic write at the end of `v3d_qpu_add_unpack`. -/
def addUnpackOperands (i : AluOp AddOp) : AluOp AddOp :=
  let i := { i with a := f.muxA, b := f.muxB, waddr := f.waddr, magicWrite := false }
  if f.magic then
    match i.op with
    | .ldvpmvIn => { i with op := .ldvpmvOut }
    | .ldvpmdIn => { i with op := .ldvpmdOut }
    | .ldvpmgIn => { i with op := .ldvpmgOut }
    | _ => { i with magicWrite := true }
  else i

/-- `v3d_qpu_add_unpack`. -/
def v3dQpuAddUnpack (i : AluOp AddOp) : Option (AluOp AddOp) := do
  let desc ← lookupOpcode addOps (mapOp f.op) f.muxA f.muxB
  let op ← addOpOf f desc.op
  let i ← addUnpackPacks f { i with op := op }
  some (addUnpackOperands f i)

/-- `waddr` of a store to the VPM. -/
def stvpmWaddr : AddOp → Option ℕ
  | .stvpmv => some 0
  | .stvpmd => some 1
  | .stvpmp => some 2
  | _ => none

/-- A load from the outputs of the VPM. -/
def isLdvpmOut : AddOp → Bool
  | .ldvpmvOut | .ldvpmdOut | .ldvpmgOut => true
  | _ => false

/-- A load from the VPM, which must not be a magic write. -/
def isLdvpm : AddOp → Bool
  | .ldvpmvIn | .ldvpmdIn | .ldvpmp | .ldvpmgIn | .ldvpmvOut | .ldvpmdOut | .ldvpmgOut => true
  | _ => false

/-- `v3d_qpu_add_pack` swaps the operands of these operations to get the order that tells them
apart. -/
def swaps (op : AddOp) (ordering : Bool) : Bool :=
  ((op = .fmin ∨ op = .fadd) ∧ ordering) ∨ ((op = .fmax ∨ op = .faddnf) ∧ !ordering)

/-- The second switch of `v3d_qpu_add_pack`. -/
def addPackPacks (i : AluOp AddOp) (f : AluFields) : Option AluFields :=
  match i.op.packClass with
  | .float32 => do
    let a ← v3dQpuFloat32UnpackPack i.aUnpack
    let b ← v3dQpuFloat32UnpackPack i.bUnpack
    let op := f.op ||| v3dQpuFloat32PackPack i.outputPack <<< 4
    if swaps i.op (orderedDown a f.muxA b f.muxB) then
      some { f with op := op ||| b <<< 2 ||| a, muxA := f.muxB, muxB := f.muxA }
    else some { f with op := op ||| a <<< 2 ||| b }
  | .round => do
    let a ← v3dQpuFloat32UnpackPack i.aUnpack
    if a = 0 then none
    else some { f with
      muxB := f.muxB ||| v3dQpuFloat32PackPack i.outputPack, op := f.op ||| a <<< 2 }
  | .toInt =>
    if i.outputPack ≠ .none then none
    else do
      let a ← v3dQpuFloat32UnpackPack i.aUnpack
      if a = 0 then none else some { f with op := f.op ||| a <<< 2 }
  | .float16 =>
    if i.outputPack ≠ .none ∨ i.bUnpack ≠ .none then none
    else do
      let a ← v3dQpuFloat16UnpackPack i.aUnpack
      some { f with op := f.op ||| a }
  | _ =>
    if i.op ≠ .nop ∧ (i.outputPack ≠ .none ∨ i.aUnpack ≠ .none ∨ i.bUnpack ≠ .none) then none
    else some f

/-- The fields of `v3d_qpu_add_pack` in front of the second switch. If an operation does not use an
operand, its mux value is the one that identifies the operation. -/
def addBase (i : AluOp AddOp) (desc : OpcodeDesc AddOp) : AluFields where
  op := desc.opcodeFirst
  muxA := if i.op.args.numSrc < 1 then ffs desc.muxAMask - 1 else i.a
  muxB := if i.op.args.numSrc < 2 then ffs desc.muxBMask - 1 else i.b
  waddr := (stvpmWaddr i.op).getD i.waddr
  magic := isLdvpmOut i.op || (i.magicWrite && (stvpmWaddr i.op).isNone)

/-- `v3d_qpu_add_pack`. -/
def v3dQpuAddPack (i : AluOp AddOp) : Option AluFields := do
  let desc ← addOps.find? fun d => d.op = i.op
  if isLdvpm i.op ∧ i.magicWrite then none else addPackPacks i (addBase i desc)

/-! ### The mul ALU -/

/-- The switch of `v3d_qpu_mul_unpack`. -/
def mulUnpackPacks (i : AluOp MulOp) : Option (AluOp MulOp) :=
  match i.op.packClass with
  | .float32 => do
    let a ← v3dQpuFloat32UnpackUnpack ((f.op >>> 2) &&& 0x3)
    let b ← v3dQpuFloat32UnpackUnpack (f.op &&& 0x3)
    some { i with outputPack := .ofNat (((f.op >>> 4) &&& 0x3) - 1), aUnpack := a, bUnpack := b }
  | .move => do
    let a ← v3dQpuFloat32UnpackUnpack (f.muxB &&& 0x3)
    some { i with
      outputPack := .ofNat (((f.op &&& 1) <<< 1) + ((f.muxB >>> 2) &&& 1)), aUnpack := a }
  | .float16 => do
    -- the subtraction wraps around
    let a ← v3dQpuFloat16UnpackUnpack (((f.op &&& 0x7) + 2 ^ 32 - 4) &&& 7)
    some { i with outputPack := .none, aUnpack := a, bUnpack := .none }
  | _ => some { i with outputPack := .none, aUnpack := .none, bUnpack := .none }

/-- `v3d_qpu_mul_unpack`. -/
def v3dQpuMulUnpack (i : AluOp MulOp) : Option (AluOp MulOp) := do
  let desc ← lookupOpcode mulOps f.op f.muxA f.muxB
  let i ← mulUnpackPacks f { i with op := desc.op }
  some { i with a := f.muxA, b := f.muxB, waddr := f.waddr, magicWrite := f.magic }

/-- The switch of `v3d_qpu_mul_pack`. -/
def mulPackPacks (i : AluOp MulOp) (f : AluFields) : Option AluFields :=
  match i.op.packClass with
  | .float32 => do
    let a ← v3dQpuFloat32UnpackPack i.aUnpack
    let b ← v3dQpuFloat32UnpackPack i.bUnpack
    some { f with op := (f.op + v3dQpuFloat32PackPack i.outputPack <<< 4) ||| a <<< 2 ||| b }
  | .move => do
    let a ← v3dQpuFloat32UnpackPack i.aUnpack
    let packed := v3dQpuFloat32PackPack i.outputPack
    some { f with op := f.op ||| ((packed >>> 1) &&& 1), muxB := ((packed &&& 1) <<< 2) ||| a }
  | .float16 =>
    if i.outputPack ≠ .none then none
    else do
      let a ← v3dQpuFloat16UnpackPack i.aUnpack
      let op := if i.aUnpack = .swap16 then 8 else f.op ||| ((a + 4) &&& 7)
      if i.bUnpack ≠ .none then none else some { f with op := op }
  | _ => some f

/-- The fields of `v3d_qpu_mul_pack` in front of the switch. -/
def mulBase (i : AluOp MulOp) (desc : OpcodeDesc MulOp) : AluFields where
  op := desc.opcodeFirst
  muxA := if i.op.args.numSrc < 1 then ffs desc.muxAMask - 1 else i.a
  muxB := if i.op.args.numSrc < 2 then ffs desc.muxBMask - 1 else i.b
  waddr := i.waddr
  magic := i.magicWrite

/-- `v3d_qpu_mul_pack`. -/
def v3dQpuMulPack (i : AluOp MulOp) : Option AluFields := do
  let desc ← mulOps.find? fun d => d.op = i.op
  mulPackPacks i (mulBase i desc)

/-! ### Instructions -/

/-- The fields of a word for the add ALU. -/
def addFields (w : BitVec 64) : AluFields :=
  ⟨getField w 31 24, getField w 14 12, getField w 17 15, getField w 37 32, getField w 44 44 = 1⟩

/-- The fields of a word for the mul ALU. -/
def mulFields (w : BitVec 64) : AluFields :=
  ⟨getField w 63 58, getField w 20 18, getField w 23 21, getField w 43 38, getField w 45 45 = 1⟩

/-- `v3d_qpu_instr_unpack_alu`. -/
def v3dQpuInstrUnpackAlu (ver : ℕ) (w : BitVec 64) (i : Instr) : Option Instr := do
  let sig ← v3dQpuSigUnpack ver (getField w 57 53)
  let packedCond := getField w 52 46
  let i := { i with type := .alu, sig := sig }
  let i ←
    if v3dQpuSigWritesAddress ver sig then
      some { i with
        sigAddr := packedCond % 2 ^ 6, sigMagic := packedCond.testBit 6, flags := .empty }
    else do
      let flags ← v3dQpuFlagsUnpack packedCond
      some { i with flags := flags }
  let add ← v3dQpuAddUnpack (addFields w) i.add
  let mul ← v3dQpuMulUnpack (mulFields w) i.mul
  some { i with raddrA := getField w 11 6, raddrB := getField w 5 0, add := add, mul := mul }

/-- The condition of a branch. -/
def branchCondUnpack (cond : ℕ) : Option BranchCond :=
  -- the subtraction wraps around for 1, which is then taken for a branch without condition
  let a0 := (BranchCond.a0.ctorIdx + (cond + 2 ^ 32 - 2)) % 2 ^ 32
  if cond = 0 then some .always else if a0 ≤
      BranchCond.allna.ctorIdx then some (.ofNat a0) else none

/-- `v3d_qpu_instr_unpack_branch`. -/
def v3dQpuInstrUnpackBranch (w : BitVec 64) (i : Instr) : Option Instr := do
  let cond ← branchCondUnpack (getField w 34 32)
  let msfign := getField w 22 21
  if msfign = 3 then none
  else
    let ub : Bool := getField w 14 14 = 1
    some { i with
      type := .branch
      branch := {
        cond := cond
        msfign := .ofNat msfign
        bdi := .ofNat (getField w 13 12)
        ub := ub
        bdu := if ub then getField w 17 15 else i.branch.bdu
        raddrA := getField w 11 6
        offset := getField w 55 35 <<< 3 + getField w 31 24 <<< 24 } }

/-- `v3d_qpu_instr_unpack`. -/
def v3dQpuInstrUnpack (ver : ℕ) (w : BitVec 64) (i : Instr) : Option Instr :=
  if getField w 63 58 ≠ 0 then v3dQpuInstrUnpackAlu ver w i
  else if getField w 57 53 &&& 24 = 16 then v3dQpuInstrUnpackBranch w i
  else none

/-- The values that are packed, if they fit their fields. -/
def packFields (ws : List Write) : Option (BitVec 64) :=
  if ∀ a ∈ ws, a.value < 2 ^ (a.high - a.low + 1) then some (orWrites 64 ws) else none

/-- The fields of the add ALU in a word. -/
def addWrites : List Write :=
  [⟨14, 12, f.muxA⟩, ⟨17, 15, f.muxB⟩, ⟨31, 24, f.op⟩, ⟨37, 32, f.waddr⟩, ⟨44, 44, f.magic.toNat⟩]

/-- The fields of the mul ALU in a word. -/
def mulWrites : List Write :=
  [⟨20, 18, f.muxA⟩, ⟨23, 21, f.muxB⟩, ⟨63, 58, f.op⟩, ⟨43, 38, f.waddr⟩, ⟨45, 45, f.magic.toNat⟩]

/-- The field for the flags or for the address that the signal writes. -/
def condPack (ver : ℕ) (i : Instr) : Option ℕ :=
  if v3dQpuSigWritesAddress ver i.sig then
    if i.flags ≠ .empty then none
    else some (if i.sigMagic then i.sigAddr ||| 1 <<< 6 else i.sigAddr)
  else v3dQpuFlagsPack i.flags

/-- `v3d_qpu_instr_pack_alu`. -/
def v3dQpuInstrPackAlu (ver : ℕ) (i : Instr) : Option (BitVec 64) := do
  let sig ← v3dQpuSigPack ver i.sig
  let add ← v3dQpuAddPack i.add
  let mul ← v3dQpuMulPack i.mul
  let flags ← condPack ver i
  packFields ([⟨57, 53, sig⟩, ⟨11, 6, i.raddrA⟩, ⟨5, 0, i.raddrB⟩] ++
    addWrites add ++ mulWrites mul ++
    [⟨52, 46, flags⟩])

/-- The fields of a branch that depend on its destination. -/
def destWrites (b : BranchInstr) : List Write :=
  match b.bdi with
  | .abs | .rel =>
    [⟨22, 21, b.msfign.ctorIdx⟩, ⟨55, 35, (b.offset % 2 ^ 24) >>> 3⟩, ⟨31, 24, b.offset >>> 24⟩,
     ⟨11, 6, b.raddrA⟩]
  | .regfile => [⟨11, 6, b.raddrA⟩]
  | .linkReg => []

/-- The field of the condition of a branch. -/
def branchCondPack (cond : BranchCond) : ℕ :=
  if cond ≠ .always then 2 + (cond.ctorIdx - BranchCond.a0.ctorIdx) else 0

/-- `v3d_qpu_instr_pack_branch`. -/
def v3dQpuInstrPackBranch (b : BranchInstr) : Option (BitVec 64) :=
  packFields ([⟨57, 53, 16⟩,
      ⟨34, 32, branchCondPack b.cond⟩, ⟨22, 21, b.msfign.ctorIdx⟩,
        ⟨13, 12, b.bdi.ctorIdx⟩, ⟨14, 14, b.ub.toNat⟩,
      ⟨17, 15, if b.ub then b.bdu else 0⟩] ++ destWrites b)

/-- `v3d_qpu_instr_pack`. -/
def v3dQpuInstrPack (ver : ℕ) (i : Instr) : Option (BitVec 64) :=
  match i.type with
  | .alu => v3dQpuInstrPackAlu ver i
  | .branch => v3dQpuInstrPackBranch i.branch

end Mesa3D.Qpu
