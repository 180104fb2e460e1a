import Mesa3D.Brw.Inst
import Mesa3D.Brw.CompactTables

/-!
# Compaction of instructions

`precompact`, `brw_try_compact_instruction` and `brw_uncompact_instruction` of `brw_eu_compact.c`. A
native instruction of 128 bits is compacted to 64 bits if each group of its bits that the compacted
form names by an index is in the table of the generation, and if the bits that the compacted form
has no place for are zero. Assertions are not part of the code here.
-/

namespace Mesa3D.Brw

variable (d : DeviceInfo)

/-- `control_index_table`, as `brw_init_compaction_tables` chooses it. -/
def controlIndexTable : List ℕ :=
  if 8 ≤ d.gen then gen8ControlIndexTable
  else if d.gen = 7 then gen7ControlIndexTable
  else if d.gen = 6 then gen6ControlIndexTable
  else g45ControlIndexTable

/-- `datatype_table`. -/
def datatypeTable : List ℕ :=
  if 11 ≤ d.gen then gen11DatatypeTable
  else if 8 ≤ d.gen then gen8DatatypeTable
  else if d.gen = 7 then gen7DatatypeTable
  else if d.gen = 6 then gen6DatatypeTable
  else g45DatatypeTable

/-- `subreg_table`. -/
def subregTable : List ℕ :=
  if 8 ≤ d.gen then gen8SubregTable
  else if d.gen = 7 then gen7SubregTable
  else if d.gen = 6 then gen6SubregTable
  else g45SubregTable

/-- `src_index_table`. -/
def srcIndexTable : List ℕ :=
  if 8 ≤ d.gen then gen8SrcIndexTable
  else if d.gen = 7 then gen7SrcIndexTable
  else if d.gen = 6 then gen6SrcIndexTable
  else g45SrcIndexTable

/-- `is_3src`: the opcodes that `opcode_descs` lists with three sources on the generation. -/
def is3src (opcode : ℕ) : Bool :=
  match opcode with
  | 18 => decide (8 ≤ d.gen) -- csel
  | 24 | 26 => decide (7 ≤ d.gen) -- bfe, bfi2
  | 91 => decide (6 ≤ d.gen) -- mad
  | 92 => decide (6 ≤ d.gen ∧ d.gen ≤ 10) -- lrp
  | 93 => decide (8 ≤ d.gen) -- madm
  | _ => false

/-- `BRW_OPCODE_DIM`. -/
def brwOpcodeDim : ℕ := 10
/-- `BRW_OPCODE_SEND`. -/
def brwOpcodeSend : ℕ := 49
/-- `BRW_OPCODE_SENDC`. -/
def brwOpcodeSendc : ℕ := 50

/-! ### Compacting -/

/-- The bits that `set_control_index` looks up. -/
def controlBits (src : BrwInst) : ℕ :=
  let uncompacted :=
    if 8 ≤ d.gen then
      (brwInstBits src ⟨33, 31⟩ <<< 16) ||| (brwInstBits src ⟨23, 12⟩ <<< 4) |||
        (brwInstBits src ⟨10, 9⟩ <<< 2) ||| (brwInstBits src ⟨34, 34⟩ <<< 1) |||
        brwInstBits src ⟨8, 8⟩
    else (brwInstBits src ⟨31, 31⟩ <<< 16) ||| brwInstBits src ⟨23, 8⟩
  if d.gen = 7 then uncompacted ||| (brwInstBits src ⟨90, 89⟩ <<< 17) else uncompacted

/-- The bits that `set_datatype_index` looks up. -/
def datatypeBits (src : BrwInst) : ℕ :=
  if 8 ≤ d.gen then
    (brwInstBits src ⟨63, 61⟩ <<< 18) ||| (brwInstBits src ⟨94, 89⟩ <<< 12) |||
      brwInstBits src ⟨46, 35⟩
  else (brwInstBits src ⟨63, 61⟩ <<< 15) ||| brwInstBits src ⟨46, 32⟩

/-- The bits that `set_subreg_index` looks up. -/
def subregBits (src : BrwInst) (isImmediate : Bool) : ℕ :=
  let uncompacted := (brwInstBits src ⟨52, 48⟩ <<< 0) ||| (brwInstBits src ⟨68, 64⟩ <<< 5)
  if !isImmediate then uncompacted ||| (brwInstBits src ⟨100, 96⟩ <<< 10) else uncompacted

/-- Look up bits in a table and store the index. -/
def setIndex (table : List ℕ) (r : BitRange) (dst : BrwCompactInst) (uncompacted : ℕ) :
    Option BrwCompactInst :=
  (table.findIdx? (· == uncompacted)).map (brwCompactInstSetBits dst r)

/-- `set_control_index`. -/
def setControlIndex (dst : BrwCompactInst) (src : BrwInst) : Option BrwCompactInst :=
  setIndex (controlIndexTable d) CompactField.controlIndex dst (controlBits d src)

/-- `set_datatype_index`. -/
def setDatatypeIndex (dst : BrwCompactInst) (src : BrwInst) : Option BrwCompactInst :=
  setIndex (datatypeTable d) CompactField.datatypeIndex dst (datatypeBits d src)

/-- `set_subreg_index`. -/
def setSubregIndex (dst : BrwCompactInst) (src : BrwInst) (isImmediate : Bool) :
    Option BrwCompactInst :=
  setIndex (subregTable d) CompactField.subregIndex dst (subregBits src isImmediate)

/-- `set_src0_index`. -/
def setSrc0Index (dst : BrwCompactInst) (src : BrwInst) : Option BrwCompactInst :=
  setIndex (srcIndexTable d) CompactField.src0Index dst (brwInstBits src ⟨88, 77⟩)

/-- `set_src1_index`. -/
def setSrc1Index (dst : BrwCompactInst) (src : BrwInst) (isImmediate : Bool) :
    Option BrwCompactInst :=
  if isImmediate then
    some (brwCompactInstSetBits dst CompactField.src1Index
      ((brwInstBits src Field.immUd >>> 8) &&& 0x1f))
  else setIndex (srcIndexTable d) CompactField.src1Index dst (brwInstBits src ⟨120, 109⟩)

/-- The condition of Gen9 and Cherryview in the functions for three sources. -/
def wide3src : Bool :=
  decide (9 ≤ d.gen) || d.isCherryview

/-- The bits that `set_3src_control_index` looks up. -/
def controlBits3src (src : BrwInst) : ℕ :=
  let uncompacted := (brwInstBits src ⟨34, 32⟩ <<< 21) ||| brwInstBits src ⟨28, 8⟩
  if wide3src d then uncompacted ||| (brwInstBits src ⟨36, 35⟩ <<< 24) else uncompacted

/-- The bits that `set_3src_source_index` looks up. -/
def sourceBits3src (src : BrwInst) : ℕ :=
  let uncompacted :=
    (brwInstBits src ⟨83, 83⟩ <<< 43) ||| (brwInstBits src ⟨114, 107⟩ <<< 35) |||
      (brwInstBits src ⟨93, 86⟩ <<< 27) ||| (brwInstBits src ⟨72, 65⟩ <<< 19) |||
      brwInstBits src ⟨55, 37⟩
  if wide3src d then
    uncompacted ||| ((brwInstBits src ⟨126, 125⟩ <<< 47) ||| (brwInstBits src ⟨105, 104⟩ <<< 45) |||
      (brwInstBits src ⟨84, 84⟩ <<< 44))
  else
    uncompacted ||| ((brwInstBits src ⟨125, 125⟩ <<< 45) ||| (brwInstBits src ⟨104, 104⟩ <<< 44))

/-- `has_unmapped_bits`. -/
def hasUnmappedBits (src : BrwInst) : Bool :=
  -- EOT can only be mapped on a send if src1 is an immediate
  if (brwInstBits src Field.opcode == brwOpcodeSendc ||
      brwInstBits src Field.opcode == brwOpcodeSend) && brwInstBits src Field.eot != 0 then true
  else if 8 ≤ d.gen then
    brwInstBits src ⟨95, 95⟩ != 0 || brwInstBits src ⟨47, 47⟩ != 0 || brwInstBits src ⟨11, 11⟩ != 0
  else brwInstBits src ⟨95, 91⟩ != 0 || brwInstBits src ⟨47, 47⟩ != 0

/-- `brw_try_compact_3src_instruction`; `has_3src_unmapped_bits` only asserts. -/
def brwTryCompact3srcInstruction (src : BrwInst) : Option BrwCompactInst := do
  let dst := brwCompactInstSetBits 0 CompactField.opcode3src (brwInstBits src Field.opcode3src)
  let dst ← setIndex gen83srcControlIndexTable CompactField.controlIndex3src dst
    (controlBits3src d src)
  let dst ← setIndex gen83srcSourceIndexTable CompactField.sourceIndex3src dst
    (sourceBits3src d src)
  let dst := brwCompactInstSetBits dst CompactField.dstRegNr3src
    (brwInstBits src Field.dstRegNr3src)
  let dst := brwCompactInstSetBits dst CompactField.src0RepCtrl3src
    (brwInstBits src Field.src0RepCtrlA16)
  let dst := brwCompactInstSetBits dst CompactField.cmptControl3src 1
  let dst := brwCompactInstSetBits dst CompactField.debugControl3src
    (brwInstBits src Field.debugControl3src)
  let dst := brwCompactInstSetBits dst CompactField.saturate3src
    (brwInstBits src Field.saturate3src)
  let dst := brwCompactInstSetBits dst CompactField.src1RepCtrl3src
    (brwInstBits src Field.src1RepCtrlA16)
  let dst := brwCompactInstSetBits dst CompactField.src2RepCtrl3src
    (brwInstBits src Field.src2RepCtrlA16)
  let dst := brwCompactInstSetBits dst CompactField.src0RegNr3src
    (brwInstBits src Field.src0RegNr3src)
  let dst := brwCompactInstSetBits dst CompactField.src1RegNr3src
    (brwInstBits src Field.src1RegNr3src)
  let dst := brwCompactInstSetBits dst CompactField.src2RegNr3src
    (brwInstBits src Field.src2RegNr3src)
  let dst := brwCompactInstSetBits dst CompactField.src0SubregNr3src
    (brwInstBits src Field.src0SubregNrA16)
  let dst := brwCompactInstSetBits dst CompactField.src1SubregNr3src
    (brwInstBits src Field.src1SubregNrA16)
  return brwCompactInstSetBits dst CompactField.src2SubregNr3src
    (brwInstBits src Field.src2SubregNrA16)

/-- `is_compactable_immediate`: the low 12 bits as they are, and one bit for the other 20. -/
def isCompactableImmediate (imm : ℕ) : Bool :=
  let imm := imm &&& 0xfffff000
  imm == 0 || imm == 0xfffff000

/-- One of the two sources is an immediate. -/
def isImmediate (inst : BrwInst) : Bool :=
  brwInstBits inst (Field.src0RegFile d) == brwImmediateValue ||
    brwInstBits inst (Field.src1RegFile d) == brwImmediateValue

/-- `brw_try_compact_instruction` once an instruction with at most two sources has passed the checks
for its immediate and its unmapped bits. -/
def compactFields (src : BrwInst) (isImmediate : Bool) : Option BrwCompactInst := do
  let temp := brwCompactInstSetBits 0 CompactField.opcode (brwInstBits src Field.opcode)
  let temp := brwCompactInstSetBits temp CompactField.debugControl
    (brwInstBits src Field.debugControl)
  let temp ← setControlIndex d temp src
  let temp ← setDatatypeIndex d temp src
  let temp ← setSubregIndex d temp src isImmediate
  let temp :=
    if 6 ≤ d.gen then
      brwCompactInstSetBits temp CompactField.accWrControl (brwInstBits src Field.accWrControl)
    else
      brwCompactInstSetBits temp CompactField.maskControlEx (brwInstBits src Field.maskControlEx)
  let temp := brwCompactInstSetBits temp CompactField.condModifier
    (brwInstBits src Field.condModifier)
  let temp :=
    if d.gen ≤ 6 then
      brwCompactInstSetBits temp CompactField.flagSubregNr (brwInstBits src (Field.flagSubregNr d))
    else temp
  let temp := brwCompactInstSetBits temp CompactField.cmptControl 1
  let temp ← setSrc0Index d temp src
  let temp ← setSrc1Index d temp src isImmediate
  let temp := brwCompactInstSetBits temp CompactField.dstRegNr (brwInstBits src Field.dstDaRegNr)
  let temp := brwCompactInstSetBits temp CompactField.src0RegNr (brwInstBits src Field.src0DaRegNr)
  return brwCompactInstSetBits temp CompactField.src1RegNr
    (if isImmediate then brwInstBits src Field.immUd &&& 0xff
      else brwInstBits src Field.src1DaRegNr)

/-- `brw_try_compact_instruction`. -/
def brwTryCompactInstruction (src : BrwInst) : Option BrwCompactInst :=
  if is3src d (brwInstBits src Field.opcode) then
    if 8 ≤ d.gen then brwTryCompact3srcInstruction d src else none
  else if isImmediate d src &&
      (decide (d.gen < 6) || !isCompactableImmediate (brwInstBits src Field.immUd)) then none
  else if hasUnmappedBits d src then none
  else compactFields d src (isImmediate d src)

/-! ### Uncompacting -/

/-- `set_uncompacted_control`. -/
def setUncompactedControl (dst : BrwInst) (src : BrwCompactInst) : BrwInst :=
  let uncompacted := (controlIndexTable d).getD (brwCompactInstBits src CompactField.controlIndex) 0
  if 8 ≤ d.gen then
    let dst := brwInstSetBits dst ⟨33, 31⟩ (uncompacted >>> 16)
    let dst := brwInstSetBits dst ⟨23, 12⟩ ((uncompacted >>> 4) &&& 0xfff)
    let dst := brwInstSetBits dst ⟨10, 9⟩ ((uncompacted >>> 2) &&& 0x3)
    let dst := brwInstSetBits dst ⟨34, 34⟩ ((uncompacted >>> 1) &&& 0x1)
    brwInstSetBits dst ⟨8, 8⟩ ((uncompacted >>> 0) &&& 0x1)
  else
    let dst := brwInstSetBits dst ⟨31, 31⟩ ((uncompacted >>> 16) &&& 0x1)
    let dst := brwInstSetBits dst ⟨23, 8⟩ (uncompacted &&& 0xffff)
    if d.gen = 7 then brwInstSetBits dst ⟨90, 89⟩ (uncompacted >>> 17) else dst

/-- `set_uncompacted_datatype`. -/
def setUncompactedDatatype (dst : BrwInst) (src : BrwCompactInst) : BrwInst :=
  let uncompacted := (datatypeTable d).getD (brwCompactInstBits src CompactField.datatypeIndex) 0
  if 8 ≤ d.gen then
    let dst := brwInstSetBits dst ⟨63, 61⟩ (uncompacted >>> 18)
    let dst := brwInstSetBits dst ⟨94, 89⟩ ((uncompacted >>> 12) &&& 0x3f)
    brwInstSetBits dst ⟨46, 35⟩ ((uncompacted >>> 0) &&& 0xfff)
  else
    let dst := brwInstSetBits dst ⟨63, 61⟩ (uncompacted >>> 15)
    brwInstSetBits dst ⟨46, 32⟩ (uncompacted &&& 0x7fff)

/-- `set_uncompacted_subreg`. -/
def setUncompactedSubreg (dst : BrwInst) (src : BrwCompactInst) : BrwInst :=
  let uncompacted := (subregTable d).getD (brwCompactInstBits src CompactField.subregIndex) 0
  let dst := brwInstSetBits dst ⟨100, 96⟩ (uncompacted >>> 10)
  let dst := brwInstSetBits dst ⟨68, 64⟩ ((uncompacted >>> 5) &&& 0x1f)
  brwInstSetBits dst ⟨52, 48⟩ ((uncompacted >>> 0) &&& 0x1f)

/-- `set_uncompacted_src0`. -/
def setUncompactedSrc0 (dst : BrwInst) (src : BrwCompactInst) : BrwInst :=
  brwInstSetBits dst ⟨88, 77⟩
    ((srcIndexTable d).getD (brwCompactInstBits src CompactField.src0Index) 0)

/-- The immediate of five bits at their place, with the top one replicated into the high 20 bits:
`(high5 << 27) >> 19` on a signed integer. -/
def replicateHigh5 (high5 : ℕ) : ℕ :=
  ((BitVec.ofNat 32 high5 <<< 27).sshiftRight 19).toNat

/-- `set_uncompacted_src1`. -/
def setUncompactedSrc1 (dst : BrwInst) (src : BrwCompactInst) (isImmediate : Bool) : BrwInst :=
  if isImmediate then
    brwInstSetBits dst Field.immUd (replicateHigh5 (brwCompactInstBits src CompactField.src1Index))
  else
    brwInstSetBits dst ⟨120, 109⟩
      ((srcIndexTable d).getD (brwCompactInstBits src CompactField.src1Index) 0)

/-- `set_uncompacted_3src_control_index`. -/
def setUncompacted3srcControlIndex (dst : BrwInst) (src : BrwCompactInst) : BrwInst :=
  let uncompacted :=
    gen83srcControlIndexTable.getD (brwCompactInstBits src CompactField.controlIndex3src) 0
  let dst := brwInstSetBits dst ⟨34, 32⟩ ((uncompacted >>> 21) &&& 0x7)
  let dst := brwInstSetBits dst ⟨28, 8⟩ ((uncompacted >>> 0) &&& 0x1fffff)
  if wide3src d then brwInstSetBits dst ⟨36, 35⟩ ((uncompacted >>> 24) &&& 0x3) else dst

/-- `set_uncompacted_3src_source_index`. -/
def setUncompacted3srcSourceIndex (dst : BrwInst) (src : BrwCompactInst) : BrwInst :=
  let uncompacted :=
    gen83srcSourceIndexTable.getD (brwCompactInstBits src CompactField.sourceIndex3src) 0
  let dst := brwInstSetBits dst ⟨83, 83⟩ ((uncompacted >>> 43) &&& 0x1)
  let dst := brwInstSetBits dst ⟨114, 107⟩ ((uncompacted >>> 35) &&& 0xff)
  let dst := brwInstSetBits dst ⟨93, 86⟩ ((uncompacted >>> 27) &&& 0xff)
  let dst := brwInstSetBits dst ⟨72, 65⟩ ((uncompacted >>> 19) &&& 0xff)
  let dst := brwInstSetBits dst ⟨55, 37⟩ ((uncompacted >>> 0) &&& 0x7ffff)
  if wide3src d then
    let dst := brwInstSetBits dst ⟨126, 125⟩ ((uncompacted >>> 47) &&& 0x3)
    let dst := brwInstSetBits dst ⟨105, 104⟩ ((uncompacted >>> 45) &&& 0x3)
    brwInstSetBits dst ⟨84, 84⟩ ((uncompacted >>> 44) &&& 0x1)
  else
    let dst := brwInstSetBits dst ⟨125, 125⟩ ((uncompacted >>> 45) &&& 0x1)
    brwInstSetBits dst ⟨104, 104⟩ ((uncompacted >>> 44) &&& 0x1)

/-- `brw_uncompact_3src_instruction`, on a word of zeros. -/
def brwUncompact3srcInstruction (src : BrwCompactInst) : BrwInst :=
  let dst := brwInstSetBits 0 Field.opcode3src (brwCompactInstBits src CompactField.opcode3src)
  let dst := setUncompacted3srcControlIndex d dst src
  let dst := setUncompacted3srcSourceIndex d dst src
  let dst := brwInstSetBits dst Field.dstRegNr3src
    (brwCompactInstBits src CompactField.dstRegNr3src)
  let dst := brwInstSetBits dst Field.src0RepCtrlA16
    (brwCompactInstBits src CompactField.src0RepCtrl3src)
  let dst := brwInstSetBits dst Field.cmptControl3src 0
  let dst := brwInstSetBits dst Field.debugControl3src
    (brwCompactInstBits src CompactField.debugControl3src)
  let dst := brwInstSetBits dst Field.saturate3src
    (brwCompactInstBits src CompactField.saturate3src)
  let dst := brwInstSetBits dst Field.src1RepCtrlA16
    (brwCompactInstBits src CompactField.src1RepCtrl3src)
  let dst := brwInstSetBits dst Field.src2RepCtrlA16
    (brwCompactInstBits src CompactField.src2RepCtrl3src)
  let dst := brwInstSetBits dst Field.src0RegNr3src
    (brwCompactInstBits src CompactField.src0RegNr3src)
  let dst := brwInstSetBits dst Field.src1RegNr3src
    (brwCompactInstBits src CompactField.src1RegNr3src)
  let dst := brwInstSetBits dst Field.src2RegNr3src
    (brwCompactInstBits src CompactField.src2RegNr3src)
  let dst := brwInstSetBits dst Field.src0SubregNrA16
    (brwCompactInstBits src CompactField.src0SubregNr3src)
  let dst := brwInstSetBits dst Field.src1SubregNrA16
    (brwCompactInstBits src CompactField.src1SubregNr3src)
  brwInstSetBits dst Field.src2SubregNrA16
    (brwCompactInstBits src CompactField.src2SubregNr3src)

/-- The part of `brw_uncompact_instruction` up to the data type, which holds the register files. -/
def uncompactHead (src : BrwCompactInst) : BrwInst :=
  let dst := brwInstSetBits 0 Field.opcode (brwCompactInstBits src CompactField.opcode)
  let dst := brwInstSetBits dst Field.debugControl
    (brwCompactInstBits src CompactField.debugControl)
  let dst := setUncompactedControl d dst src
  setUncompactedDatatype d dst src

/-- The rest of `brw_uncompact_instruction` for one and two sources. -/
def uncompactTail (dst : BrwInst) (src : BrwCompactInst) (isImmediate : Bool) : BrwInst :=
  let dst := setUncompactedSubreg d dst src
  let dst :=
    if 6 ≤ d.gen then
      brwInstSetBits dst Field.accWrControl (brwCompactInstBits src CompactField.accWrControl)
    else brwInstSetBits dst Field.maskControlEx (brwCompactInstBits src CompactField.maskControlEx)
  let dst := brwInstSetBits dst Field.condModifier
    (brwCompactInstBits src CompactField.condModifier)
  let dst :=
    if d.gen ≤ 6 then
      brwInstSetBits dst (Field.flagSubregNr d) (brwCompactInstBits src CompactField.flagSubregNr)
    else dst
  let dst := setUncompactedSrc0 d dst src
  let dst := setUncompactedSrc1 d dst src isImmediate
  let dst := brwInstSetBits dst Field.dstDaRegNr (brwCompactInstBits src CompactField.dstRegNr)
  let dst := brwInstSetBits dst Field.src0DaRegNr (brwCompactInstBits src CompactField.src0RegNr)
  if isImmediate then
    brwInstSetBits dst Field.immUd
      (brwInstBits dst Field.immUd ||| brwCompactInstBits src CompactField.src1RegNr)
  else brwInstSetBits dst Field.src1DaRegNr (brwCompactInstBits src CompactField.src1RegNr)

/-- `brw_uncompact_instruction`. -/
def brwUncompactInstruction (src : BrwCompactInst) : BrwInst :=
  if 8 ≤ d.gen ∧ is3src d (brwCompactInstBits src CompactField.opcode3src) then
    brwUncompact3srcInstruction d src
  else
    let dst := uncompactHead d src
    uncompactTail d dst src (isImmediate d dst)

/-! ### Precompacting -/

/-- The first change of `precompact`: the type of src1 becomes `UD` beside a 32-bit immediate. -/
def precompactSrc1 (inst : BrwInst) : Option BrwInst :=
  let setUd := brwInstSetSrc1FileType d inst (brwInstBits inst (Field.src1RegFile d)) .ud
  if d.gen < 6 ∨ (d.isHaswell = true ∧ brwInstBits inst Field.opcode = brwOpcodeDim) then some inst
  else if d.gen < 8 then setUd
  else
    -- 64-bit immediates overlap with the fields of src1
    (brwInstSrc0Type d inst).bind fun type =>
      if type = .df ∨ type = .uq ∨ type = .q then some inst else setUd

/-- The second change of `precompact`: the immediate `0.0:F` becomes a `VF`. -/
def precompactVf (inst : BrwInst) : Option BrwInst :=
  if brwInstBits inst Field.immUd ≠ 0 then some inst
  else
    (brwInstSrc0Type d inst).bind fun type =>
      if type ≠ .f then some inst
      else
        (brwInstDstType d inst).bind fun dstType =>
          if dstType = .f ∧ brwInstBits inst Field.dstHstride = 1 then
            brwInstSetSrc0FileType d inst (brwInstBits inst (Field.src0RegFile d)) .vf
          else some inst

/-- The third change of `precompact`: a compactable immediate `D` moved to a `D` becomes `UD`. -/
def precompactUd (inst : BrwInst) : Option BrwInst :=
  if isCompactableImmediate (brwInstBits inst Field.immUd) = false ∨
      brwInstBits inst Field.condModifier ≠ 0 then some inst
  else
    (brwInstSrc0Type d inst).bind fun type =>
      if type ≠ .d then some inst
      else
        (brwInstDstType d inst).bind fun dstType =>
          if dstType ≠ .d then some inst
          else
            (brwInstSetSrc0FileType d inst (brwInstBits inst (Field.src0RegFile d)) .ud).bind
              fun inst' =>
                brwInstSetDstFileType d inst' (brwInstBits inst (Field.dstRegFile d)) .ud

/-- `precompact`; `none` where the instruction has a type that the code does not expect. -/
def precompact (inst : BrwInst) : Option BrwInst :=
  if brwInstBits inst (Field.src0RegFile d) ≠ brwImmediateValue then some inst
  else ((precompactSrc1 d inst).bind (precompactVf d)).bind (precompactUd d)

end Mesa3D.Brw
