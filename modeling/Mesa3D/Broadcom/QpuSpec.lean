import Mesa3D.Broadcom.QpuFields

/-!
# What packing and unpacking are for

Two instructions are the same if they have the same type and agree in the fields that are used: the
fields of an operand if the operation has it, the address of a signal if the signal writes one, and
what a branch needs for its destinations. An operation is available on a version as the tables say
it: an entry with a version is for this version and later ones, except that those for 3.3 are gone
with 4.0.

`Word.RoundTrips` and `Instr.RoundTrips` are what one expects, and `Word.Holds` and `Instr.Holds`
when it is so.
-/

namespace Mesa3D.Qpu

open Bits

section

variable {Op : Type}

/-- An operation of an ALU with the same operands. -/
structure AluOp.Same (args : Args) (i j : AluOp Op) : Prop where
  /-- The operation. -/
  op : i.op = j.op
  /-- The result, if there is one. -/
  d : args.d = true →
    i.waddr = j.waddr ∧ i.magicWrite = j.magicWrite ∧ i.outputPack = j.outputPack
  /-- The first operand, if it is read. -/
  a : args.a = true → i.a = j.a ∧ i.aUnpack = j.aUnpack
  /-- The second operand, if it is read. -/
  b : args.b = true → i.b = j.b ∧ i.bUnpack = j.bUnpack

/-- The operands in the other order. -/
def AluOp.swap (i : AluOp Op) : AluOp Op :=
  { i with a := i.b, b := i.a, aUnpack := i.bUnpack, bUnpack := i.aUnpack }

/-- The entry is for the version. -/
def OpcodeDesc.AvailableOn (ver : ℕ) (d : OpcodeDesc Op) : Prop :=
  d.ver = 0 ∨ d.ver ≤ ver ∧ (d.ver = 33 → ver < 40)

end

/-- The operation is available on the version. -/
def AddOp.AvailableOn (ver : ℕ) (op : AddOp) : Prop := ∀ d ∈ addOps, d.op = op → d.AvailableOn ver

/-- The operations whose operands `v3d_qpu_add_pack` may swap. -/
def AddOp.commutative (op : AddOp) : Prop := op = .fadd ∨ op = .faddnf ∨ op = .fmin ∨ op = .fmax

/-- A branch with the same destinations. -/
structure BranchInstr.Same (i j : BranchInstr) : Prop where
  /-- The condition. -/
  cond : i.cond = j.cond
  /-- How flags are combined. -/
  msfign : i.msfign = j.msfign
  /-- The kind of the destination. -/
  bdi : i.bdi = j.bdi
  /-- Whether uniforms are set. -/
  ub : i.ub = j.ub
  /-- The kind of the destination for uniforms, if they are set. -/
  bdu : i.ub = true → i.bdu = j.bdu
  /-- The offset, where it is used. -/
  offset : i.bdi = .abs ∨ i.bdi = .rel → i.offset = j.offset
  /-- The register, where it is used. -/
  raddrA : i.bdi = .regfile ∨
    (i.ub = true ∧ i.bdu = BranchDest.regfile.ctorIdx) → i.raddrA = j.raddrA

/-- The same operations of the ALUs, with the same signals, flags and read addresses. -/
structure Instr.SameAlu (ver : ℕ) (i j : Instr) : Prop where
  /-- The signals. -/
  sig : i.sig = j.sig
  /-- The address of a signal, if one is written. -/
  address : v3dQpuSigWritesAddress ver i.sig = true →
    i.sigAddr = j.sigAddr ∧ i.sigMagic = j.sigMagic
  /-- The first register. -/
  raddrA : i.raddrA = j.raddrA
  /-- The second register. -/
  raddrB : i.raddrB = j.raddrB
  /-- Conditions and flags. -/
  flags : i.flags = j.flags
  /-- The addition. -/
  add : i.add.Same i.add.op.args j.add
  /-- The multiplication. -/
  mul : i.mul.Same i.mul.op.args j.mul

/-- The same instruction. -/
def Instr.Same (ver : ℕ) (i j : Instr) : Prop :=
  i.type = j.type ∧
    match i.type with
    | .alu => i.SameAlu ver j
    | .branch => i.branch.Same j.branch

/-- The operation is available, and the instruction of a word packs to a word that unpacks to it. -/
def Word.RoundTrips (ver : ℕ) (i : Instr) : Prop :=
  (i.type = .alu → i.add.op.AvailableOn ver) ∧
    ∃ w, v3dQpuInstrPack ver i = some w ∧
      ∀ prev, ∃ j, v3dQpuInstrUnpack ver w prev = some j ∧ i.Same ver j

/-- The operation is available, and the word of an instruction unpacks to it, up to the order of
operands. -/
def Instr.RoundTrips (ver : ℕ) (i : Instr) (w : BitVec 64) : Prop :=
  (i.type = .alu → i.add.op.AvailableOn ver) ∧
    ∀ prev, ∃ j, v3dQpuInstrUnpack ver w prev = some j ∧
      (i.Same ver j ∨
        i.type = .alu ∧ i.add.op.commutative ∧ Instr.Same ver { i with add := i.add.swap } j)

/-! ### When it is so -/

/-- An operation of the add ALU that is packed right: no lower half is unpacked where `|=` makes it
the upper one, no equal operands have the order that the operation needs, and `VDWWT` is not found
in its place. -/
structure AddHolds (i : AluOp AddOp) : Prop where
  /-- Rounding and conversions do not read the lower half. -/
  unpack : i.op.packClass = .round ∨ i.op.packClass = .toInt → i.aUnpack ≠ .l
  /-- Where the order of the operands picks the operation, they are different. -/
  order : i.op = .faddnf ∨ i.op = .fmax → ¬ (i.a = i.b ∧ i.aUnpack = i.bUnpack)
  /-- `iid` is not packed. -/
  iid : i.op ≠ .iid

/-- An operation of the mul ALU that is packed right: there is nothing to pack or unpack where there
is no place for it. -/
structure MulHolds (i : AluOp MulOp) : Prop where
  /-- Operations without packs do not pack their result. -/
  d : i.op.packClass = .plain → i.op.args.d = true → i.outputPack = .none
  /-- Nor do they unpack the first operand. -/
  a : i.op.packClass = .plain → i.op.args.a = true → i.aUnpack = .none
  /-- Nor the second. -/
  b : i.op.packClass = .plain → i.op.args.b = true → i.bUnpack = .none

/-- A branch that is packed right: the offset is a multiple of an instruction, and a branch to the
link register does not need a register for its uniforms. -/
structure BranchHolds (b : BranchInstr) : Prop where
  /-- The offset is aligned. -/
  offset : b.bdi = .abs ∨ b.bdi = .rel → b.offset % 8 = 0
  /-- Beside the link register, the register of the uniforms is not packed. -/
  raddrA : b.bdi = .linkReg → b.ub = true → b.bdu = BranchDest.regfile.ctorIdx → b.raddrA = 0

/-- The instruction is packed right. -/
def Instr.Holds (ver : ℕ) (i : Instr) : Prop :=
  match i.type with
  | .alu => i.add.op.AvailableOn ver ∧ AddHolds i.add ∧ MulHolds i.mul ∧
      if v3dQpuSigWritesAddress ver i.sig then i.sigAddr < 64 else i.flags.holds
  | .branch => BranchHolds i.branch

/-- The word of a branch, or one whose operations are packed right. -/
def Word.Holds (ver : ℕ) (w : BitVec 64) : Prop :=
  if getField w 63 58 ≠ 0 then
    (v3dQpuSigWritesAddress ver ((sigMap ver)[getField w 57 53]?.getD {}) = true ∨
      ¬ twoConditions (getField w 52 46)) ∧
    ¬ (249 ≤ getField w 31 24 ∧ getField w 31 24 ≤ 251) ∧
    ∀ d, lookupOpcode addOps (mapOp (getField w 31 24)) (getField w 14 12)
      (getField w 17 15) = some d →
      d.AvailableOn ver ∧ ¬ (isLdvpm d.op = true ∧ getField w 44 44 = 1)
  else
    ¬ (getField w 13 12 = BranchDest.linkReg.ctorIdx ∧ getField w 14 14 = 1 ∧
      getField w 17 15 = BranchDest.regfile.ctorIdx ∧ getField w 11 6 ≠ 0)

end Mesa3D.Qpu
