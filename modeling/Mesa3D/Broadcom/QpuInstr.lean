import Mathlib.Data.Nat.Notation

/-!
# QPU instructions

The types of `qpu_instr.h` and the tables of operands of `qpu_instr.c`. The fields of 8 and of 32
bits are numbers here. The members of the union are both there, and an instruction uses the one of
its type.
-/

namespace Mesa3D.Qpu

/-- `struct v3d_qpu_sig`, a flag for each signal. -/
structure Sig where
  thrsw : Bool := false
  ldunif : Bool := false
  ldunifa : Bool := false
  ldunifrf : Bool := false
  ldunifarf : Bool := false
  ldtmu : Bool := false
  ldvary : Bool := false
  ldvpm : Bool := false
  ldtlb : Bool := false
  ldtlbu : Bool := false
  smallImm : Bool := false
  ucb : Bool := false
  rotate : Bool := false
  wrtmuc : Bool := false
deriving DecidableEq

/-- `enum v3d_qpu_cond`. -/
inductive Cond
  | none | ifa | ifb | ifna | ifnb
deriving DecidableEq

/-- `enum v3d_qpu_pf`. -/
inductive Pf
  | none | pushz | pushn | pushc
deriving DecidableEq

/-- `enum v3d_qpu_uf`. -/
inductive Uf
  | none | andz | andnz | nornz | norz | andn | andnn | nornn | norn | andc | andnc | nornc | norc
deriving DecidableEq

/-- `struct v3d_qpu_flags`. -/
structure Flags where
  /-- The condition of the addition. -/
  ac : Cond
  /-- The condition of the multiplication. -/
  mc : Cond
  /-- The flags that the addition pushes. -/
  apf : Pf
  /-- The flags that the multiplication pushes. -/
  mpf : Pf
  /-- The update of flags by the addition. -/
  auf : Uf
  /-- The update of flags by the multiplication. -/
  muf : Uf
deriving DecidableEq

/-- `enum v3d_qpu_add_op`. -/
inductive AddOp
  | fadd | faddnf | vfpack | add | sub | fsub | min | max
  | umin | umax | shl | shr | asr | ror | fmin | fmax
  | vfmin | and | or | xor | vadd | vsub | not | neg
  | flapush | flbpush | flpop | recip | setmsf | setrevf | nop | tidx
  | eidx | lr | vfla | vflna | vflb | vflnb | fxcd | xcd
  | fycd | ycd | msf | revf | vdwwt | iid | sampid | barrierid
  | tmuwt | vpmsetup | vpmwt | ldvpmvIn | ldvpmvOut | ldvpmdIn | ldvpmdOut | ldvpmp
  | rsqrt | exp | log | sin | rsqrt2 | ldvpmgIn | ldvpmgOut | fcmp
  | vfmax | fround | ftoin | ftrunc | ftoiz | ffloor | ftouz | fceil
  | ftoc | fdx | fdy | stvpmv | stvpmd | stvpmp | itof | clz
  | utof
deriving DecidableEq

/-- `enum v3d_qpu_mul_op`. -/
inductive MulOp
  | add | sub | umul24 | vfmul | smul24 | multop | fmov | mov | nop | fmul
deriving DecidableEq

/-- `enum v3d_qpu_output_pack`. -/
inductive OutputPack
  | none | l | h
deriving DecidableEq

/-- `enum v3d_qpu_input_unpack`. -/
inductive InputUnpack
  | none | abs | l | h | replicate32f16 | replicateL16 | replicateH16 | swap16
deriving DecidableEq

/-- The operation of one of the ALUs, with its operands. -/
structure AluOp (Op : Type) where
  /-- The operation. -/
  op : Op
  /-- The first operand. -/
  a : ℕ
  /-- The second operand. -/
  b : ℕ
  /-- The register that is written. -/
  waddr : ℕ
  /-- The register is one of the special ones. -/
  magicWrite : Bool
  /-- How the result is packed. -/
  outputPack : OutputPack
  /-- How the first operand is unpacked. -/
  aUnpack : InputUnpack
  /-- How the second operand is unpacked. -/
  bUnpack : InputUnpack
deriving DecidableEq

/-- `enum v3d_qpu_branch_cond`. -/
inductive BranchCond
  | always | a0 | na0 | alla | anyna | anya | allna
deriving DecidableEq

/-- `enum v3d_qpu_msfign`. -/
inductive Msfign
  | none | p | q
deriving DecidableEq

/-- `enum v3d_qpu_branch_dest`. -/
inductive BranchDest
  | abs | rel | linkReg | regfile
deriving DecidableEq

/-- `struct v3d_qpu_branch_instr`. The field of `bdu` has a bit more than the enumeration needs. -/
structure BranchInstr where
  /-- The condition. -/
  cond : BranchCond
  /-- How the flags of the pixels are combined. -/
  msfign : Msfign
  /-- The kind of the destination. -/
  bdi : BranchDest
  /-- The kind of the destination for uniforms. -/
  bdu : ℕ
  /-- Whether the uniforms are set. -/
  ub : Bool
  /-- The register of the destination. -/
  raddrA : ℕ
  /-- The offset of the destination. -/
  offset : ℕ

/-- `enum v3d_qpu_instr_type`. -/
inductive InstrType
  | alu | branch
deriving DecidableEq

/-- `struct v3d_qpu_instr`. -/
structure Instr where
  /-- The kind of instruction. -/
  type : InstrType
  /-- The signals. -/
  sig : Sig
  /-- The register that a signal writes. -/
  sigAddr : ℕ
  /-- That register is one of the special ones. -/
  sigMagic : Bool
  /-- The first register that is read. -/
  raddrA : ℕ
  /-- The second register, or a small immediate. -/
  raddrB : ℕ
  /-- Conditions and flags. -/
  flags : Flags
  /-- The addition. -/
  add : AluOp AddOp
  /-- The multiplication. -/
  mul : AluOp MulOp
  /-- The branch. -/
  branch : BranchInstr

/-- The operands of an operation: `D`, `A` and `B` of its arguments. -/
structure Args where
  /-- The operation has a result. -/
  d : Bool
  /-- It reads the first operand. -/
  a : Bool
  /-- It reads the second operand. -/
  b : Bool

/-- `add_op_args`. -/
def AddOp.args : AddOp → Args
  | .not | .neg | .flapush | .flbpush | .flpop | .recip | .setmsf | .setrevf
  | .vpmsetup | .ldvpmvIn | .ldvpmvOut | .ldvpmdIn | .ldvpmdOut | .ldvpmp | .rsqrt | .exp
  | .log | .sin | .rsqrt2 | .fround | .ftoin | .ftrunc | .ftoiz | .ffloor
  | .ftouz | .fceil | .ftoc | .fdx | .fdy | .itof | .clz | .utof => ⟨true, true, false⟩
  | .nop => ⟨false, false, false⟩
  | .tidx | .eidx | .lr | .vfla | .vflna | .vflb | .vflnb | .fxcd
  | .xcd | .fycd | .ycd | .msf | .revf | .vdwwt | .iid | .sampid
  | .barrierid | .tmuwt | .vpmwt => ⟨true, false, false⟩
  | .stvpmv | .stvpmd | .stvpmp => ⟨false, true, true⟩
  | _ => ⟨true, true, true⟩

/-- `mul_op_args`. -/
def MulOp.args : MulOp → Args
  | .fmov | .mov => ⟨true, true, false⟩
  | .nop => ⟨false, false, false⟩
  | _ => ⟨true, true, true⟩

/-- `v3d_qpu_add_op_num_src` and `v3d_qpu_mul_op_num_src`. -/
def Args.numSrc (args : Args) : ℕ := if args.b then 2 else if args.a then 1 else 0

/-- `v3d_qpu_sig_writes_address`. -/
def v3dQpuSigWritesAddress (ver : ℕ) (sig : Sig) : Bool :=
  if ver < 41 then false
  else sig.ldunifrf || sig.ldunifarf || sig.ldvary || sig.ldtmu || sig.ldtlb || sig.ldtlbu

end Mesa3D.Qpu
