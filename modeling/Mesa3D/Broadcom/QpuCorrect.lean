import Mesa3D.Broadcom.QpuMul

/-!
# Packing and unpacking are inverse, where they are

The fields of a word that was packed are read back one by one. Then the round trips of its parts say
when the instruction that is unpacked is the one that was packed.
-/

namespace Mesa3D.Qpu

open Bits Nat Option List

variable {ver : ℕ} {i j prev : Instr} {w : BitVec 64}

/-! ### Words of the ALUs -/

/-- The fields of a word fit. -/
theorem addFields_fits (w : BitVec 64) : (addFields w).Fits 8 :=
  ⟨getField_lt w 31 24, getField_lt w 14 12, getField_lt w 17 15, getField_lt w 37 32⟩

/-- The fields of the multiplication fit. -/
theorem mulFields_fits (w : BitVec 64) : (mulFields w).Fits 6 :=
  ⟨getField_lt w 63 58, getField_lt w 20 18, getField_lt w 23 21, getField_lt w 43 38⟩

/-- Fields that pack fit their ranges, and the word is their union. -/
theorem packFields_some {ws : List Write} (hranges : ∀ a ∈ ws, a.low ≤ a.high ∧ a.high < 64)
    (h : packFields ws = some w) : (∀ a ∈ ws, a.Fits 64) ∧ w = orWrites 64 ws := by
  unfold packFields at h
  split_ifs at h with hfits
  exact ⟨fun a ha => ⟨(hranges a ha).1, (hranges a ha).2, hfits a ha⟩, (some.inj h).symm⟩

/-- A word of the ALUs holds what its parts were packed to. -/
structure AluWord (ver : ℕ) (i : Instr) (w : BitVec 64) (add mul : AluFields) : Prop where
  /-- The signals. -/
  sig : v3dQpuSigPack ver i.sig = some (getField w 57 53)
  /-- The first register. -/
  raddrA : getField w 11 6 = i.raddrA
  /-- The second register. -/
  raddrB : getField w 5 0 = i.raddrB
  /-- The addition packs. -/
  packAdd : v3dQpuAddPack i.add = some add
  /-- The multiplication packs. -/
  packMul : v3dQpuMulPack i.mul = some mul
  /-- The word has the fields of the addition. -/
  add : addFields w = add
  /-- The word has the fields of the multiplication. -/
  mul : mulFields w = mul
  /-- The conditions and flags, or the address of the signal. -/
  cond : condPack ver i = some (getField w 52 46)

/-- The magic bit reads back. -/
theorem magic_of_toNat {n : ℕ} {b : Bool} (h : n = b.toNat) : decide (n = 1) = b := by
  cases b <;> simp [h]

/-- Packing an ALU instruction gives a word with its fields. -/
theorem aluWord_of_pack (h : v3dQpuInstrPackAlu ver i = some w) :
    ∃ add mul, AluWord ver i w add mul := by
  obtain ⟨sig, hsig, h⟩ := bind_eq_some_iff.1 h
  obtain ⟨add, hadd, h⟩ := bind_eq_some_iff.1 h
  obtain ⟨mul, hmul, h⟩ := bind_eq_some_iff.1 h
  obtain ⟨flags, hflags, h⟩ := bind_eq_some_iff.1 h
  obtain ⟨hfits, rfl⟩ := packFields_some (by simp [addWrites, mulWrites]) h
  set ws := [⟨57, 53, sig⟩, ⟨11, 6, i.raddrA⟩, ⟨5, 0, i.raddrB⟩] ++
    addWrites add ++ mulWrites mul ++
    [⟨52, 46, flags⟩] with hws
  have hread : ∀ a ∈ ws, getField (orWrites 64 ws) a.high a.low = a.value := fun a ha =>
    getField_orWrites_of_disjoint
      (by
        change Disjoint [(57, 53), (11, 6), (5, 0), (14, 12), (17, 15), (31, 24), (37, 32),
          (44, 44), (20, 18), (23, 21), (63, 58), (43, 38), (45, 45), (52, 46)]
        decide) hfits ha
  simp only [hws, addWrites, mulWrites, cons_append, nil_append, forall_mem_cons] at hread
  obtain ⟨h1, h2, h3, a1, a2, a3, a4, a5, m1, m2, m3, m4, m5, h4, -⟩ := hread
  refine ⟨add, mul, ?_, h2, h3, hadd, hmul, ?_, ?_, ?_⟩
  · rw [hsig]
    exact congrArg some h1.symm
  · exact AluFields.ext a3 a1 a2 a4 (magic_of_toNat a5)
  · exact AluFields.ext m3 m1 m2 m4 (magic_of_toNat m5)
  · rw [hflags]
    exact congrArg some h4.symm

/-- The same flags, or the same address of a signal. -/
def Instr.SameCond (ver : ℕ) (i j : Instr) : Prop :=
  (v3dQpuSigWritesAddress ver i.sig = true → i.sigAddr = j.sigAddr ∧ i.sigMagic = j.sigMagic) ∧
    i.flags = j.flags

/-- The flags, or the address of the signal, are packed right. -/
def Instr.CondHolds (ver : ℕ) (i : Instr) : Prop :=
  if v3dQpuSigWritesAddress ver i.sig then i.sigAddr < 64 else i.flags.holds

/-- The address of a signal reads back, unless it has the magic bit itself. -/
theorem sigAddr_trip {addr p : ℕ} {magic : Bool}
    (h : (if magic then addr ||| 1 <<< 6 else addr) = p)
    (hp : p < 2 ^ 7) : (addr = p % 2 ^ 6 ∧ magic = p.testBit 6) ↔ addr < 64 := by
  have hall : ∀ addr < 2 ^ 7, ∀ magic : Bool,
      let p := if magic then addr ||| 1 <<< 6 else addr
      (addr = p % 2 ^ 6 ∧ magic = p.testBit 6) ↔ addr < 64 := by decide
  subst h
  refine hall addr ?_ magic
  split_ifs at hp
  · exact lt_of_le_of_lt left_le_or hp
  · exact hp

/-- What is unpacked from the word of an instruction, part by part. -/
structure AluTrip (ver : ℕ) (i j : Instr) : Prop where
  /-- An ALU instruction comes back. -/
  type : j.type = .alu
  /-- The signals are the same. -/
  sig : j.sig = i.sig
  /-- The first register is the same. -/
  raddrA : j.raddrA = i.raddrA
  /-- The second register is the same. -/
  raddrB : j.raddrB = i.raddrB
  /-- The conditions are the same exactly if they are allowed. -/
  cond : i.SameCond ver j ↔ i.CondHolds ver
  /-- The addition. -/
  add : AddTrip i.add j.add
  /-- The multiplication is the same exactly if its packs are allowed. -/
  mul : i.mul.Same i.mul.op.args j.mul ↔ MulHolds i.mul

variable {add mul : AluFields}

/-- Operation zero is no multiplication. -/
theorem mul_op_ne_zero {f : AluFields} {i prev : AluOp MulOp}
    (h : v3dQpuMulUnpack f prev = some i) :
    f.op ≠ 0 := by
  have hfirst : ∀ d ∈ mulOps, 1 ≤ d.opcodeFirst := by decide
  obtain ⟨d, hlookup, -⟩ := bind_eq_some_iff.1 h
  obtain ⟨hmem, hle, -⟩ := lookupOpcode_some hlookup
  have := hfirst d hmem
  omega

/-- A word with the fields of an ALU instruction unpacks, up to what the packing loses. -/
theorem aluTrip_of_word (h : AluWord ver i w add mul) (prev : Instr) :
    ∃ j, v3dQpuInstrUnpack ver w prev = some j ∧ AluTrip ver i j := by
  have hadd := addFields_fits w
  have hmul := mulFields_fits w
  rw [h.add] at hadd
  rw [h.mul] at hmul
  obtain ⟨ja, hja, hadd⟩ := addUnpack_of_addPack h.packAdd hadd.muxA hadd.muxB prev.add
  obtain ⟨jm, hjm, hmul⟩ := mulUnpack_of_mulPack h.packMul hmul.muxA hmul.muxB prev.mul
  have hop : getField w 63 58 ≠ 0 := by
    have := mul_op_ne_zero hjm
    rwa [← h.mul] at this
  have hcond := h.cond
  have hlt := getField_lt w 52 46
  rw [v3dQpuInstrUnpack, if_pos hop, v3dQpuInstrUnpackAlu]
  simp only [sigUnpack_of_sigPack h.sig, h.add, h.mul, bind_eq_bind, bind_some]
  unfold condPack at hcond
  by_cases hsig : v3dQpuSigWritesAddress ver i.sig = true
  · rw [if_pos hsig, ite_none_left_eq_some, some.injEq, not_not] at hcond
    obtain ⟨hflags, hp⟩ := hcond
    simp only [if_pos hsig, hja, hjm, bind_some]
    refine ⟨_, rfl, rfl, rfl, h.raddrA, h.raddrB, ?_, hadd, hmul⟩
    rw [Instr.SameCond, Instr.CondHolds, if_pos hsig, ← sigAddr_trip hp hlt]
    exact ⟨fun hs => hs.1 hsig, fun hs => ⟨fun _ => hs, hflags⟩⟩
  · rw [if_neg hsig] at hcond
    obtain ⟨-, flags, hunpack, hholds⟩ := flagsUnpack_of_flagsPack hcond
    simp only [if_neg hsig, hunpack, hja, hjm, bind_some]
    refine ⟨_, rfl, rfl, rfl, h.raddrA, h.raddrB, ?_, hadd, hmul⟩
    rw [Instr.SameCond, Instr.CondHolds, if_neg hsig, ← hholds]
    exact ⟨fun hs => hs.2.symm, fun hs => ⟨fun hc => absurd hc hsig, hs.symm⟩⟩

/-- The same instruction, with operands in one order or the other. -/
theorem AluTrip.sameAlu (h : AluTrip ver i j) (add : AluOp AddOp) :
    Instr.SameAlu ver { i with add := add } j ↔
      add.Same add.op.args j.add ∧ MulHolds i.mul ∧ i.CondHolds ver := by
  rw [← h.mul, ← h.cond]
  constructor
  · intro hs
    exact ⟨hs.add, hs.mul, hs.address, hs.flags⟩
  · rintro ⟨hadd, hmul, haddress, hflags⟩
    exact ⟨h.sig.symm, haddress, h.raddrA.symm, h.raddrB.symm, hflags, hadd, hmul⟩

/-- What the round trip says of the same instruction with another addition. -/
theorem AluTrip.same (h : AluTrip ver i j) (htype : i.type = .alu) (add : AluOp AddOp) :
    Instr.Same ver { i with add := add } j ↔
      add.Same add.op.args j.add ∧ MulHolds i.mul ∧ i.CondHolds ver := by
  rw [← h.sameAlu]
  simp [Instr.Same, htype, h.type]

/-- What an ALU instruction has to hold. -/
theorem Instr.holds_alu (htype : i.type = .alu) : i.Holds ver ↔
    i.add.op.AvailableOn ver ∧ AddHolds i.add ∧ MulHolds i.mul ∧ i.CondHolds ver := by
  simp only [Instr.Holds, htype, Instr.CondHolds]

/-- An instruction of the ALUs unpacks to itself, up to the order of operands, exactly if it
holds. -/
theorem roundTrips_of_packAlu (htype : i.type = .alu) (h : v3dQpuInstrPackAlu ver i = some w) :
    i.RoundTrips ver w ↔ i.Holds ver := by
  obtain ⟨add, mul, hword⟩ := aluWord_of_pack h
  have htrip : ∀ prev, (∃ j, v3dQpuInstrUnpack ver w prev = some j ∧
      (i.Same ver j ∨ i.type = .alu ∧ i.add.op.commutative ∧
        Instr.Same ver { i with add := i.add.swap } j)) ↔
        AddHolds i.add ∧ MulHolds i.mul ∧ i.CondHolds ver := by
    intro prev
    obtain ⟨j, hj, ht⟩ := aluTrip_of_word hword prev
    have hsame : i.Same ver j ↔ _ := ht.same htype i.add
    have hswap : _ ↔ i.add.swap.Same i.add.op.args j.add ∧ _ := ht.same htype i.add.swap
    simp only [hj, some.injEq, exists_eq_left']
    rw [hsame, hswap, ← ht.add.any]
    tauto
  rw [Instr.RoundTrips, Instr.holds_alu htype]
  constructor
  · rintro ⟨havail, htrips⟩
    exact ⟨havail htype, (htrip i).1 (htrips i)⟩
  · rintro ⟨havail, hholds⟩
    exact ⟨fun _ => havail, fun prev => (htrip prev).2 hholds⟩

/-- What an instruction of the ALUs has from its word. -/
structure UnpackedAlu (ver : ℕ) (w : BitVec 64) (prev i : Instr) : Prop where
  /-- It is an ALU instruction. -/
  type : i.type = .alu
  /-- The signals. -/
  sig : v3dQpuSigUnpack ver (getField w 57 53) = some i.sig
  /-- The first register. -/
  raddrA : i.raddrA = getField w 11 6
  /-- The second register. -/
  raddrB : i.raddrB = getField w 5 0
  /-- The addition. -/
  add : v3dQpuAddUnpack (addFields w) prev.add = some i.add
  /-- The multiplication. -/
  mul : v3dQpuMulUnpack (mulFields w) prev.mul = some i.mul
  /-- The address of a signal, or the conditions and flags. -/
  cond : if v3dQpuSigWritesAddress ver i.sig then
      i.sigAddr = getField w 52 46 % 2 ^ 6 ∧ i.flags = .empty
    else v3dQpuFlagsUnpack (getField w 52 46) = some i.flags

/-- What an unpacked ALU instruction is made of. -/
theorem unpackAlu_some (h : v3dQpuInstrUnpackAlu ver w prev = some i) :
    UnpackedAlu ver w prev i := by
  obtain ⟨sig, hsig, h⟩ := bind_eq_some_iff.1 h
  by_cases hwrites : v3dQpuSigWritesAddress ver sig = true <;>
    simp only [hwrites, if_true, bind_eq_bind, bind_some] at h
  on_goal 2 => obtain ⟨flags, hflags, h⟩ := bind_eq_some_iff.1 h
  all_goals
    obtain ⟨add, hadd, h⟩ := bind_eq_some_iff.1 h
    obtain ⟨mul, hmul, h⟩ := bind_eq_some_iff.1 h
    cases h
    refine ⟨rfl, hsig, rfl, rfl, hadd, hmul, ?_⟩
  · rw [if_pos hwrites]
    exact ⟨rfl, rfl⟩
  · rw [if_neg hwrites]
    exact hflags

/-- The flags, or the address of the signal, can be packed again. -/
theorem UnpackedAlu.condPack (h : UnpackedAlu ver w prev i) :
    (∃ c < 2 ^ 7, condPack ver i = some c) ∧ (i.CondHolds ver ↔
      (v3dQpuSigWritesAddress ver i.sig = true ∨ ¬ twoConditions (getField w 52 46))) := by
  have hcond := h.cond
  unfold Qpu.condPack Instr.CondHolds
  by_cases hwrites : v3dQpuSigWritesAddress ver i.sig = true
  · rw [if_pos hwrites] at hcond
    obtain ⟨haddr, hflags⟩ := hcond
    have hlt : i.sigAddr < 2 ^ 6 := haddr ▸ mod_lt _ (by decide)
    rw [if_pos hwrites, if_pos hwrites, if_neg (not_not.2 hflags)]
    refine ⟨⟨_, ?_, rfl⟩, iff_of_true hlt (.inl hwrites)⟩
    split_ifs
    · exact or_lt_two_pow (hlt.trans (by decide)) (by decide)
    · exact hlt.trans (by decide)
  · rw [if_neg hwrites] at hcond
    obtain ⟨⟨c, hc⟩, hholds⟩ := flagsPack_of_flagsUnpack (getField_lt w 52 46) hcond
    rw [if_neg hwrites, if_neg hwrites, or_iff_right hwrites]
    exact ⟨⟨c, (flagsUnpack_of_flagsPack hc).1, hc⟩, hholds⟩

/-- An instruction of the ALUs can be packed if its parts can be. -/
theorem packAlu_isSome (h : UnpackedAlu ver w prev i) (hadd : v3dQpuAddPack i.add = some add)
    (haddFits : add.Fits 8) : ∃ w', v3dQpuInstrPackAlu ver i = some w' := by
  obtain ⟨s, hs, hs32⟩ := sigPack_of_sigUnpack h.sig
  obtain ⟨⟨mul, hmul, hmulFits⟩, -⟩ := mulPack_of_mulUnpack h.mul (mulFields_fits w)
  obtain ⟨⟨c, hc128, hc⟩, -⟩ := h.condPack
  have hmagic : ∀ b : Bool, b.toNat < 2 ^ (44 - 44 + 1) := by decide
  simp only [v3dQpuInstrPackAlu, hs, hadd, hmul, hc, bind_eq_bind, bind_some, packFields]
  rw [if_pos]
  · exact ⟨_, rfl⟩
  · simp only [addWrites, mulWrites, cons_append, nil_append, forall_mem_cons, not_mem_nil,
      false_imp_iff, implies_true, and_true]
    exact ⟨hs32, h.raddrA ▸ getField_lt w 11 6, h.raddrB ▸ getField_lt w 5 0,
      haddFits.muxA, haddFits.muxB,
      haddFits.op, haddFits.waddr, hmagic _, hmulFits.muxA, hmulFits.muxB,
        hmulFits.op, hmulFits.waddr,
      hmagic _, hc128⟩

/-- The instruction of a word of the ALUs round trips exactly if the word holds. -/
theorem roundTrips_of_unpackAlu (hop : getField w 63 58 ≠ 0)
    (h : v3dQpuInstrUnpackAlu ver w prev = some i) :
    Word.RoundTrips ver i ↔ Word.Holds ver w := by
  have hu := unpackAlu_some h
  obtain ⟨d, hlookup, hadd⟩ := addPack_of_addUnpack hu.add (addFields_fits w)
  have hsig : (sigMap ver)[getField w 57 53]?.getD {} = i.sig := by
    obtain ⟨s, hs, hif⟩ := bind_eq_some_iff.1 hu.sig
    split_ifs at hif
    cases hif
    rw [hs, getD_some]
  have hholds : Word.Holds ver w ↔ i.CondHolds ver ∧
    ¬ (249 ≤ getField w 31 24 ∧ getField w 31 24 ≤ 251) ∧
      d.AvailableOn ver ∧ ¬ (isLdvpm d.op = true ∧ (addFields w).magic = true) := by
    rw [Word.Holds, if_pos hop, hsig, hu.condPack.2,
      show lookupOpcode addOps (mapOp (getField w 31 24))
      (getField w 14 12) (getField w 17 15) = some d from hlookup]
    simp only [some.injEq, forall_eq', addFields, decide_eq_true_eq]
  rw [hholds]
  by_cases hload : isLdvpm d.op = true ∧ (addFields w).magic = true
  · rw [if_pos hload] at hadd
    refine iff_of_false ?_ fun h => h.2.2.2 hload
    rintro ⟨-, w', hpack, -⟩
    simp only [v3dQpuInstrPack, hu.type] at hpack
    obtain ⟨add, mul, hword⟩ := aluWord_of_pack hpack
    cases hadd.symm.trans hword.packAdd
  · rw [if_neg hload] at hadd
    obtain ⟨⟨g, hg, hgfits⟩, hswap, haddHolds, havail⟩ := hadd
    obtain ⟨w', hw'⟩ := packAlu_isSome hu hg hgfits
    obtain ⟨add, mul, hword⟩ := aluWord_of_pack hw'
    have hpack : v3dQpuInstrPack ver i = some w' := by simp only [v3dQpuInstrPack, hu.type, hw']
    have hmul := (mulPack_of_mulUnpack hu.mul (mulFields_fits w)).2
    have htrip : ∀ prev, (∃ j, v3dQpuInstrUnpack ver w' prev = some j ∧ i.Same ver j) ↔
        AddHolds i.add ∧ i.CondHolds ver := by
      intro prev
      obtain ⟨j, hj, ht⟩ := aluTrip_of_word hword prev
      have hsame : i.Same ver j ↔ _ := ht.same hu.type i.add
      simp only [hj, some.injEq, exists_eq_left', hsame, ht.add.ordered hswap, hmul, true_and]
    have haddHolds' : AddHolds i.add ↔ ¬ (249 ≤ getField w 31 24 ∧
      getField w 31 24 ≤ 251) := haddHolds
    simp only [Word.RoundTrips, hpack, some.injEq, exists_eq_left', htrip, hu.type, havail ver,
      forall_const]
    rw [← haddHolds']
    constructor
    · rintro ⟨hav, htrips⟩
      exact ⟨(htrips i).2, (htrips i).1, hav, hload⟩
    · rintro ⟨hcond, hadd, hav, -⟩
      exact ⟨hav, fun _ => ⟨hadd, hcond⟩⟩

/-! ### Words of branches -/

variable {b : BranchInstr}

/-- The signal of a branch is its upper bit: the lower ones are those of the address. -/
theorem packFields_branch (ws : List Write) :
    packFields (⟨57, 53, 16⟩ :: ws) = packFields (⟨57, 57, 1⟩ :: ws) := by
  have hor : orWrites 64 (⟨57, 53, 16⟩ :: ws) = orWrites 64 (⟨57, 57, 1⟩ :: ws) := rfl
  have h16 : 16 < 2 ^ (57 - 53 + 1) := by decide
  have h1 : 1 < 2 ^ (57 - 57 + 1) := by decide
  simp only [packFields, forall_mem_cons, hor, h16, h1, true_and]

/-- The fields of a word of a branch. -/
structure BranchWord (b : BranchInstr) (w : BitVec 64) : Prop where
  /-- The operation of the multiplication is zero. -/
  mulOp : getField w 63 58 = 0
  /-- The bits that tell a branch from an ALU instruction. -/
  sig : getField w 57 53 &&& 24 = 16
  /-- The condition. -/
  cond : getField w 34 32 = branchCondPack b.cond
  /-- How flags are combined. -/
  msfign : getField w 22 21 = b.msfign.ctorIdx
  /-- The kind of the destination. -/
  bdi : getField w 13 12 = b.bdi.ctorIdx
  /-- Whether uniforms are set. -/
  ub : getField w 14 14 = b.ub.toNat
  /-- The kind of the destination for uniforms. -/
  bdu : getField w 17 15 = if b.ub then b.bdu else 0
  /-- The low part of the offset. -/
  low : getField w 55 35 = if b.bdi = .abs ∨ b.bdi = .rel then (b.offset % 2 ^ 24) >>> 3 else 0
  /-- The high part of the offset. -/
  high : getField w 31 24 = if b.bdi = .abs ∨ b.bdi = .rel then b.offset >>> 24 else 0
  /-- The register of the destination. -/
  raddrA : getField w 11 6 = if b.bdi = .linkReg then 0 else b.raddrA

/-- The upper bits of the signal of a word. -/
theorem sig_branch_iff (w : BitVec 64) :
    getField w 57 53 &&& 24 = 16 ↔ getField w 57 57 = 1 ∧ getField w 56 56 = 0 := by
  have hall : ∀ n < 2 ^ 5, n &&& 24 = 16 ↔ n.testBit 4 = true ∧ n.testBit 3 = false := by decide
  have hone : ∀ n < 2 ^ 1, (n = 1 ↔ n.testBit 0 = true) ∧ (n = 0 ↔ n.testBit 0 = false) := by decide
  rw [hall _ (getField_lt w 57 53), (hone _ (getField_lt w 57 57)).1,
    (hone _ (getField_lt w 56 56)).2]
  simp only [testBit_getField, reduceAdd, reduceSub, reduceLT, decide_true, Bool.true_and]

/-- Packing a branch gives a word with its fields. -/
theorem branchWord_of_pack (h : v3dQpuInstrPackBranch b = some w) : BranchWord b w := by
  unfold v3dQpuInstrPackBranch at h
  rw [cons_append, packFields_branch] at h
  have hranges : ∀ a ∈ destWrites b, a.low ≤ a.high ∧ a.high < 64 := by
    unfold destWrites
    cases b.bdi <;> simp
  obtain ⟨hfits, hw⟩ := packFields_some (by simpa using hranges) h
  have hread : ∀ high low v, low ≤ high → _ → _ → getField w high low = v :=
    fun high low v hle h1 h2 =>
    hw ▸ getField_orWrites hfits hle h1 h2
  unfold destWrites at hread
  -- a field that the destination does not have reads as zero
  cases hbdi : b.bdi <;> simp only [hbdi, cons_append, nil_append] at hread <;>
    exact {
      mulOp := hread 63 58 0 (by decide) (by simp) (by simp)
      sig := (sig_branch_iff w).2 ⟨hread 57 57 1 (by decide) (by simp) (by simp),
        hread 56 56 0 (by decide) (by simp) (by simp)⟩
      cond := hread 34 32 _ (by decide) (by simp) (by simp)
      msfign := hread 22 21 _ (by decide) (by simp) (by simp)
      bdi := hread 13 12 _ (by decide) (by simp [hbdi]) (by simp [hbdi])
      ub := hread 14 14 _ (by decide) (by simp) (by simp)
      bdu := hread 17 15 _ (by decide) (by simp) (by simp)
      low := hread 55 35 _ (by decide) (by simp [hbdi]) (by simp [hbdi])
      high := hread 31 24 _ (by decide) (by simp [hbdi]) (by simp [hbdi])
      raddrA := hread 11 6 _ (by decide) (by simp [hbdi]) (by simp [hbdi]) }

/-- The conditions of branches come back. -/
theorem branchCondUnpack_pack (c : BranchCond) : branchCondUnpack (branchCondPack c) = some c := by
  cases c <;> decide

/-- The offset of a branch without its low bits. -/
theorem offset_trip (o : ℕ) : ((o % 2 ^ 24) >>> 3) <<< 3 + (o >>> 24) <<< 24 = o - o % 8 := by
  omega

/-- What is unpacked from the word of a branch. -/
def branchOf (b prev : BranchInstr) : BranchInstr where
  cond := b.cond
  msfign := b.msfign
  bdi := b.bdi
  ub := b.ub
  bdu := if b.ub then b.bdu else prev.bdu
  raddrA := if b.bdi = .linkReg then 0 else b.raddrA
  offset := if b.bdi = .abs ∨ b.bdi = .rel then b.offset - b.offset % 8 else 0

/-- A word with the fields of a branch unpacks to it. -/
theorem unpack_branchWord (h : BranchWord b w) (prev : Instr) : v3dQpuInstrUnpack ver w prev =
    some { prev with type := .branch, branch := branchOf b prev.branch } := by
  have hmsfign : b.msfign.ctorIdx ≠ 3 := by cases b.msfign <;> decide
  have hub : decide (getField w 14 14 = 1) = b.ub := magic_of_toNat h.ub
  have hoffset : getField w 55 35 <<< 3 + getField w 31 24 <<< 24 =
      if b.bdi = .abs ∨ b.bdi = .rel then b.offset - b.offset % 8 else 0 := by
    rw [h.low, h.high]
    split_ifs
    · exact offset_trip b.offset
    · rfl
  have hbdu : (if b.ub = true then getField w 17 15 else prev.branch.bdu) =
      if b.ub = true then b.bdu else prev.branch.bdu := by
    rw [h.bdu]
    split_ifs <;> rfl
  rw [v3dQpuInstrUnpack, if_neg (not_not.2 h.mulOp), if_pos h.sig, v3dQpuInstrUnpackBranch]
  simp only [h.cond, branchCondUnpack_pack, bind_eq_bind, bind_some, h.msfign, if_neg hmsfign,
    h.bdi, hub, hbdu, hoffset, h.raddrA, Msfign.ofNat_ctorIdx, BranchDest.ofNat_ctorIdx, branchOf]

/-- The word of a branch unpacks to it exactly if it is packed right. -/
theorem same_branchOf (b prev : BranchInstr) : b.Same (branchOf b prev) ↔ BranchHolds b := by
  constructor
  · intro h
    refine ⟨fun hd => ?_, fun hlink hub hbdu => ?_⟩
    · have ho := h.offset hd
      simp only [branchOf, if_pos hd] at ho
      omega
    · have hr := h.raddrA (.inr ⟨hub, hbdu⟩)
      rwa [branchOf, if_pos hlink] at hr
  · intro h
    refine ⟨rfl, rfl, rfl, rfl, fun hub => ?_, fun hd => ?_, fun hd => ?_⟩
    · simp only [branchOf, if_pos hub]
    · simp only [branchOf, if_pos hd, h.offset hd, Nat.sub_zero]
    · by_cases hlink : b.bdi = .linkReg
      · obtain ⟨hub, hbdu⟩ := hd.resolve_left (by simp [hlink])
        simp only [branchOf, if_pos hlink, h.raddrA hlink hub hbdu]
      · simp only [branchOf, if_neg hlink]

/-- A branch unpacks to itself exactly if it holds. -/
theorem roundTrips_of_packBranch (htype : i.type = .branch)
    (h : v3dQpuInstrPackBranch i.branch = some w) :
    i.RoundTrips ver w ↔ i.Holds ver := by
  have hword := branchWord_of_pack h
  have hholds : i.Holds ver ↔ BranchHolds i.branch := by simp only [Instr.Holds, htype]
  rw [hholds]
  simp only [Instr.RoundTrips, unpack_branchWord hword, htype,
    some.injEq, exists_eq_left', Instr.Same,
    same_branchOf, reduceCtorEq, false_imp_iff, true_and, false_and, or_false]
  exact ⟨fun h => h i, fun h _ => h⟩

/-- What a branch has from its word. -/
structure UnpackedBranch (w : BitVec 64) (i : Instr) : Prop where
  /-- It is a branch. -/
  type : i.type = .branch
  /-- The kind of the destination. -/
  bdi : i.branch.bdi = .ofNat (getField w 13 12)
  /-- Whether uniforms are set. -/
  ub : i.branch.ub = decide (getField w 14 14 = 1)
  /-- The kind of the destination for uniforms. -/
  bdu : i.branch.ub = true → i.branch.bdu = getField w 17 15
  /-- The register of the destination. -/
  raddrA : i.branch.raddrA = getField w 11 6
  /-- The offset. -/
  offset : i.branch.offset = getField w 55 35 <<< 3 + getField w 31 24 <<< 24

/-- What an unpacked branch is made of. -/
theorem unpackBranch_some (h : v3dQpuInstrUnpackBranch w prev = some i) : UnpackedBranch w i := by
  obtain ⟨cond, -, h⟩ := bind_eq_some_iff.1 h
  simp only at h
  split_ifs at h with hm hub <;> cases h
  · exact ⟨rfl, rfl, by simp [hub], fun _ => rfl, rfl, rfl⟩
  · exact ⟨rfl, rfl, by simp [hub], fun h => absurd h (by simp [hub]), rfl, rfl⟩

/-- A branch can be packed again. -/
theorem UnpackedBranch.pack (h : UnpackedBranch w i) : ∃ w',
    v3dQpuInstrPackBranch i.branch = some w' := by
  have hcond : branchCondPack i.branch.cond < 8 := by cases i.branch.cond <;> decide
  have hmsfign : i.branch.msfign.ctorIdx < 4 := by cases i.branch.msfign <;> decide
  have hbdi : i.branch.bdi.ctorIdx < 4 := by cases i.branch.bdi <;> decide
  have hub : i.branch.ub.toNat < 2 := by cases i.branch.ub <;> decide
  have hbdu : (if i.branch.ub = true then i.branch.bdu else 0) < 8 := by
    split_ifs with hu
    · exact h.bdu hu ▸ getField_lt w 17 15
    · decide
  have hraddrA : i.branch.raddrA < 64 := h.raddrA ▸ getField_lt w 11 6
  have hlow : (i.branch.offset % 2 ^ 24) >>> 3 < 2 ^ 21 := by omega
  have hhigh : i.branch.offset >>> 24 < 2 ^ 8 := by
    have h1 := getField_lt w 55 35
    have h2 := getField_lt w 31 24
    rw [h.offset]
    omega
  have hdest : ∀ a ∈ destWrites i.branch, a.value < 2 ^ (a.high - a.low + 1) := by
    unfold destWrites
    cases i.branch.bdi <;> simp [hmsfign, hraddrA] <;> exact ⟨hlow, hhigh⟩
  rw [v3dQpuInstrPackBranch, packFields, if_pos]
  · exact ⟨_, rfl⟩
  · simp only [cons_append, nil_append, forall_mem_cons]
    exact ⟨by decide, hcond, hmsfign, hbdi, hub, hbdu, hdest⟩

/-- The branch of a word round trips exactly if the word holds. -/
theorem roundTrips_of_unpackBranch (hop : ¬ getField w 63 58 ≠ 0)
    (h : v3dQpuInstrUnpackBranch w prev = some i) : Word.RoundTrips ver i ↔ Word.Holds ver w := by
  have hu := unpackBranch_some h
  obtain ⟨w', hw'⟩ := hu.pack
  have hword := branchWord_of_pack hw'
  have hpack : v3dQpuInstrPack ver i = some w' := by simp only [v3dQpuInstrPack, hu.type, hw']
  have htrip : Word.RoundTrips ver i ↔ BranchHolds i.branch := by
    simp only [Word.RoundTrips, hpack, some.injEq, exists_eq_left',
      unpack_branchWord hword, Instr.Same,
      hu.type, same_branchOf, reduceCtorEq, false_imp_iff, true_and]
    exact ⟨fun h => h i, fun h _ => h⟩
  have hoffset : i.branch.offset % 8 = 0 := by
    rw [hu.offset]
    omega
  have hbdi : i.branch.bdi = .linkReg ↔ getField w 13 12 = BranchDest.linkReg.ctorIdx := by
    have hall : ∀ n < 2 ^ 2, BranchDest.ofNat n = .linkReg ↔
      n = BranchDest.linkReg.ctorIdx := by decide
    rw [hu.bdi]
    exact hall _ (getField_lt w 13 12)
  have hub : i.branch.ub = true ↔ getField w 14 14 = 1 := by rw [hu.ub, decide_eq_true_eq]
  rw [htrip, Word.Holds, if_neg hop, ← hbdi, ← hub, ← hu.raddrA]
  constructor
  · rintro hholds ⟨hlink, hubt, hbdu, hne⟩
    exact hne (hholds.raddrA hlink hubt (hu.bdu hubt ▸ hbdu))
  · intro hno
    refine ⟨fun _ => hoffset, fun hlink hubt hbdu => ?_⟩
    by_contra hne
    exact hno ⟨hlink, hubt, hu.bdu hubt ▸ hbdu, hne⟩

/-! ### The round trips -/

/-- An instruction that is unpacked from a word can be packed, and this word unpacks to it, exactly
if the word holds. The word of an instruction unpacks to it, up to the order of operands, exactly if
the instruction holds. -/
theorem qpuInstr_roundTrips (ver : ℕ) :
    (∀ w prev i, v3dQpuInstrUnpack ver w prev = some i →
      (Word.RoundTrips ver i ↔ Word.Holds ver w)) ∧
      ∀ i w, v3dQpuInstrPack ver i = some w → (i.RoundTrips ver w ↔ i.Holds ver) := by
  constructor
  · intro w prev i h
    unfold v3dQpuInstrUnpack at h
    split_ifs at h with hop
    · exact roundTrips_of_unpackAlu hop h
    · exact roundTrips_of_unpackBranch hop h
  · intro i w h
    unfold v3dQpuInstrPack at h
    cases htype : i.type with
    | alu =>
      rw [htype] at h
      exact roundTrips_of_packAlu htype h
    | branch =>
      rw [htype] at h
      exact roundTrips_of_packBranch htype h

/-- An instruction with an operation of the add ALU, and nothing else. -/
def addInstr (add : AluOp AddOp) : Instr where
  type := .alu
  sig := {}
  sigAddr := 0
  sigMagic := false
  raddrA := 0
  raddrB := 0
  flags := .empty
  add := add
  mul := ⟨.nop, 0, 0, 0, false, .none, .none, .none⟩
  branch := ⟨.always, .none, .abs, 0, false, 0, 0⟩

/-- `FFLOOR` of the upper half of an accumulator can be packed and unpacks to itself. -/
theorem ffloor_upper_roundTrips : ∃ w,
    v3dQpuInstrPack 41 (addInstr ⟨.ffloor, 1, 0, 3, false, .none, .h, .none⟩) = some w ∧
      (addInstr ⟨.ffloor, 1, 0, 3, false, .none, .h, .none⟩).RoundTrips 41 w := by
  refine ⟨_, rfl, ((qpuInstr_roundTrips 41).2 _ _ rfl).2 ?_⟩
  refine ⟨by unfold AddOp.AvailableOn OpcodeDesc.AvailableOn; decide, ⟨nofun, nofun, nofun⟩,
    ⟨nofun, nofun, nofun⟩, ?_⟩
  exact .inl rfl

/-- `FFLOOR` of the lower half of an accumulator is packed to the word for the upper half. -/
theorem ffloor_lower_unpacks_upper : ∃ w,
    v3dQpuInstrPack 41 (addInstr ⟨.ffloor, 1, 0, 3, false, .none, .l, .none⟩) = some w ∧
      ¬ (addInstr ⟨.ffloor, 1, 0, 3, false, .none, .l, .none⟩).RoundTrips 41 w := by
  refine ⟨_, rfl, ?_⟩
  rintro ⟨-, h⟩
  obtain ⟨j, hj, hsame⟩ := h (addInstr ⟨.nop, 0, 0, 0, false, .none, .none, .none⟩)
  cases hj
  rcases hsame with hsame | ⟨-, hcomm, -⟩
  · cases (hsame.2.add.a rfl).2
  · rcases hcomm with h | h | h | h <;> cases h

end Mesa3D.Qpu
