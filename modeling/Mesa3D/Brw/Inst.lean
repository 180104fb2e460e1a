import Mesa3D.Bits.Field

/-!
# Instruction words

The fields of native and compacted instructions of `brw_inst.h`, on the generations that have
compaction. A native instruction is two words of 64 bits, and each field lies in one of them. The
setters do not mask the value; in a debug build they assert that it fits.
-/

namespace Mesa3D.Brw

open Mesa3D.Bits

/-- The parts of `gen_device_info` that the layout depends on. -/
structure DeviceInfo where
  /-- `gen`. -/
  gen : ℕ
  /-- `is_g4x`. -/
  isG4x : Bool
  /-- `is_haswell`. -/
  isHaswell : Bool
  /-- `is_cherryview`. -/
  isCherryview : Bool
deriving DecidableEq

variable (d : DeviceInfo)

/-- The generations with compacted instructions: G45 and Gen5 to Gen11. -/
def DeviceInfo.Supported : Prop :=
  4 ≤ d.gen ∧ d.gen ≤ 11 ∧ (d.gen = 4 → d.isG4x = true)

instance (d : DeviceInfo) : Decidable d.Supported :=
  inferInstanceAs (Decidable (_ ∧ _ ∧ (_ → _)))

/-- The bits `low` to `high` of an instruction. -/
structure BitRange where
  /-- The highest bit. -/
  high : ℕ
  /-- The lowest bit. -/
  low : ℕ
deriving DecidableEq

/-- A native instruction: `data[0]` is the lower half and `data[1]` the upper one. -/
abbrev BrwInst := BitVec 128

/-- `brw_inst_bits`. -/
def brwInstBits (inst : BrwInst) (r : BitRange) : ℕ :=
  getField inst r.high r.low

/-- `brw_inst_set_bits`. A value that does not fit is cut off at the end of its half. -/
def brwInstSetBits (inst : BrwInst) (r : BitRange) (value : ℕ) : BrwInst :=
  setField inst r.high r.low (value % 2 ^ (64 - r.low % 64))

/-- A compacted instruction. -/
abbrev BrwCompactInst := BitVec 64

/-- `brw_compact_inst_bits`. -/
def brwCompactInstBits (inst : BrwCompactInst) (r : BitRange) : ℕ :=
  getField inst r.high r.low

/-- `brw_compact_inst_set_bits`. -/
def brwCompactInstSetBits (inst : BrwCompactInst) (r : BitRange) (value : ℕ) : BrwCompactInst :=
  setField inst r.high r.low value

/-! ### The fields of a native instruction -/

namespace Field

def src1DaRegNr : BitRange := ⟨108, 101⟩
def src1RegHwType : BitRange := if 8 ≤ d.gen then ⟨94, 91⟩ else ⟨46, 44⟩
def src1RegFile : BitRange := if 8 ≤ d.gen then ⟨90, 89⟩ else ⟨43, 42⟩
def src0DaRegNr : BitRange := ⟨76, 69⟩
def dstHstride : BitRange := ⟨62, 61⟩
def dstDaRegNr : BitRange := ⟨60, 53⟩
def src0RegHwType : BitRange := if 8 ≤ d.gen then ⟨46, 43⟩ else ⟨41, 39⟩
def src0RegFile : BitRange := if 8 ≤ d.gen then ⟨42, 41⟩ else ⟨38, 37⟩
def dstRegHwType : BitRange := if 8 ≤ d.gen then ⟨40, 37⟩ else ⟨36, 34⟩
def dstRegFile : BitRange := if 8 ≤ d.gen then ⟨36, 35⟩ else ⟨33, 32⟩
def flagSubregNr : BitRange := if 8 ≤ d.gen then ⟨32, 32⟩ else ⟨89, 89⟩
def debugControl : BitRange := ⟨30, 30⟩
def cmptControl : BitRange := ⟨29, 29⟩
def accWrControl : BitRange := ⟨28, 28⟩
def maskControlEx : BitRange := ⟨28, 28⟩
def condModifier : BitRange := ⟨27, 24⟩
def opcode : BitRange := ⟨6, 0⟩
def eot : BitRange := ⟨127, 127⟩
def immUd : BitRange := ⟨127, 96⟩

/-! Three-source instructions. -/

def src2RegNr3src : BitRange := ⟨125, 118⟩
def src2SubregNrA16 : BitRange := ⟨117, 115⟩
def src2RepCtrlA16 : BitRange := ⟨106, 106⟩
def src1RegNr3src : BitRange := ⟨104, 97⟩
def src1SubregNrA16 : BitRange := ⟨96, 94⟩
def src1RepCtrlA16 : BitRange := ⟨85, 85⟩
def src0RegNr3src : BitRange := ⟨83, 76⟩
def src0SubregNrA16 : BitRange := ⟨75, 73⟩
def src0RepCtrlA16 : BitRange := ⟨64, 64⟩
def dstRegNr3src : BitRange := ⟨63, 56⟩
def saturate3src : BitRange := ⟨31, 31⟩
def debugControl3src : BitRange := ⟨30, 30⟩
def cmptControl3src : BitRange := ⟨29, 29⟩
def opcode3src : BitRange := ⟨6, 0⟩

end Field

/-! ### The fields of a compacted instruction -/

namespace CompactField

def src1RegNr : BitRange := ⟨63, 56⟩
def src0RegNr : BitRange := ⟨55, 48⟩
def dstRegNr : BitRange := ⟨47, 40⟩
def src1Index : BitRange := ⟨39, 35⟩
def src0Index : BitRange := ⟨34, 30⟩
def cmptControl : BitRange := ⟨29, 29⟩
def flagSubregNr : BitRange := ⟨28, 28⟩
def condModifier : BitRange := ⟨27, 24⟩
def accWrControl : BitRange := ⟨23, 23⟩
def maskControlEx : BitRange := ⟨23, 23⟩
def subregIndex : BitRange := ⟨22, 18⟩
def datatypeIndex : BitRange := ⟨17, 13⟩
def controlIndex : BitRange := ⟨12, 8⟩
def debugControl : BitRange := ⟨7, 7⟩
def opcode : BitRange := ⟨6, 0⟩

/-! Three-source instructions. -/

def src2RegNr3src : BitRange := ⟨63, 57⟩
def src1RegNr3src : BitRange := ⟨56, 50⟩
def src0RegNr3src : BitRange := ⟨49, 43⟩
def src2SubregNr3src : BitRange := ⟨42, 40⟩
def src1SubregNr3src : BitRange := ⟨39, 37⟩
def src0SubregNr3src : BitRange := ⟨36, 34⟩
def src2RepCtrl3src : BitRange := ⟨33, 33⟩
def src1RepCtrl3src : BitRange := ⟨32, 32⟩
def saturate3src : BitRange := ⟨31, 31⟩
def debugControl3src : BitRange := ⟨30, 30⟩
def cmptControl3src : BitRange := ⟨29, 29⟩
def src0RepCtrl3src : BitRange := ⟨28, 28⟩
def dstRegNr3src : BitRange := ⟨18, 12⟩
def sourceIndex3src : BitRange := ⟨11, 10⟩
def controlIndex3src : BitRange := ⟨9, 8⟩
def opcode3src : BitRange := ⟨6, 0⟩

end CompactField

/-! ### Register types -/

/-- `enum brw_reg_type`. -/
inductive BrwRegType
  | nf | df | f | hf | vf | q | uq | d | ud | w | uw | b | ub | v | uv
deriving DecidableEq

/-- A row of the tables of `brw_reg_type.c`: a type with its number in a register and in an
immediate operand, where it has one. -/
structure HwType where
  /-- The type. -/
  type : BrwRegType
  /-- Its number for registers. -/
  regType : Option ℕ
  /-- Its number for immediates. -/
  immType : Option ℕ

/-- `gen4_hw_type`, in the order of the enumeration. -/
def gen4HwType : List HwType :=
  [⟨.nf, none, none⟩, ⟨.df, some 6, some 10⟩, ⟨.f, some 7, some 7⟩, ⟨.hf, some 10, some 11⟩,
    ⟨.vf, none, some 5⟩, ⟨.q, some 9, some 9⟩, ⟨.uq, some 8, some 8⟩, ⟨.d, some 1, some 1⟩,
    ⟨.ud, some 0, some 0⟩, ⟨.w, some 3, some 3⟩, ⟨.uw, some 2, some 2⟩, ⟨.b, some 5, none⟩,
    ⟨.ub, some 4, none⟩, ⟨.v, none, some 6⟩, ⟨.uv, none, some 4⟩]

/-- `gen11_hw_type`, in the order of the enumeration. -/
def gen11HwType : List HwType :=
  [⟨.nf, some 11, none⟩, ⟨.df, some 10, some 10⟩, ⟨.f, some 9, some 9⟩, ⟨.hf, some 8, some 8⟩,
    ⟨.vf, none, some 11⟩, ⟨.q, some 7, some 7⟩, ⟨.uq, some 6, some 6⟩, ⟨.d, some 1, some 1⟩,
    ⟨.ud, some 0, some 0⟩, ⟨.w, some 3, some 3⟩, ⟨.uw, some 2, some 2⟩, ⟨.b, some 5, none⟩,
    ⟨.ub, some 4, none⟩, ⟨.v, none, some 5⟩, ⟨.uv, none, some 4⟩]

/-- `hw_types` of the generations: the row of each type, with its numbers for registers and
immediates. -/
def hwTypeTable : List HwType :=
  if 11 ≤ d.gen then gen11HwType else gen4HwType

/-- `BRW_GENERAL_REGISTER_FILE`. -/
def brwGeneralRegisterFile : ℕ := 1

/-- `BRW_IMMEDIATE_VALUE`. -/
def brwImmediateValue : ℕ := 3

/-- The number of a row for operands of a file. -/
def HwType.number (file : ℕ) (row : HwType) : Option ℕ :=
  if file = brwImmediateValue then row.immType else row.regType

/-- `brw_reg_type_to_hw_type`; `none` where the type has no number, which is asserted not to
happen. -/
def brwRegTypeToHwType (file : ℕ) (type : BrwRegType) : Option ℕ :=
  (hwTypeTable d).find? (·.type == type) |>.bind (·.number file)

/-- `brw_hw_type_to_reg_type`; `none` where it is not reached. -/
def brwHwTypeToRegType (file hwType : ℕ) : Option BrwRegType :=
  (hwTypeTable d).find? (·.number file == some hwType) |>.map (·.type)

/-- `brw_inst_src0_type`. -/
def brwInstSrc0Type (inst : BrwInst) : Option BrwRegType :=
  brwHwTypeToRegType d (brwInstBits inst (Field.src0RegFile d))
    (brwInstBits inst (Field.src0RegHwType d))

/-- `brw_inst_dst_type`: a destination is never an immediate. -/
def brwInstDstType (inst : BrwInst) : Option BrwRegType :=
  brwHwTypeToRegType d brwGeneralRegisterFile (brwInstBits inst (Field.dstRegHwType d))

/-- Set the fields for the register file and the type of an operand. -/
def setFileType (inst : BrwInst) (fileRange typeRange : BitRange) (file : ℕ) (type : BrwRegType) :
    Option BrwInst :=
  (brwRegTypeToHwType d file type).map fun hwType =>
    brwInstSetBits (brwInstSetBits inst fileRange file) typeRange hwType

/-- `brw_inst_set_src0_file_type`. -/
def brwInstSetSrc0FileType (inst : BrwInst) (file : ℕ) (type : BrwRegType) : Option BrwInst :=
  setFileType d inst (Field.src0RegFile d) (Field.src0RegHwType d) file type

/-- `brw_inst_set_src1_file_type`. -/
def brwInstSetSrc1FileType (inst : BrwInst) (file : ℕ) (type : BrwRegType) : Option BrwInst :=
  setFileType d inst (Field.src1RegFile d) (Field.src1RegHwType d) file type

/-- `brw_inst_set_dst_file_type`. -/
def brwInstSetDstFileType (inst : BrwInst) (file : ℕ) (type : BrwRegType) : Option BrwInst :=
  setFileType d inst (Field.dstRegFile d) (Field.dstRegHwType d) file type

end Mesa3D.Brw
