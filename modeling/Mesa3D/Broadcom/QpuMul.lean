import Mesa3D.Broadcom.QpuAddWord

/-!
# Round trips of the mul ALU

`FMUL`, `FMOV` and `VFMUL` have places for their packs, and their words unpack to what was packed.
The others have none, and `v3d_qpu_mul_pack` does not look at what they ask for.
-/

namespace Mesa3D.Qpu

open Bits Option

variable {i j prev : AluOp MulOp} {f g : AluFields} {d : OpcodeDesc MulOp}

/-! ### The word of an operation -/

/-- The fields of an opcode of `FMUL`. -/
theorem fmul_word : ∀ p < 3, ∀ x < 4, ∀ y < 4,
    let op := (16 + p <<< 4) ||| x <<< 2 ||| y
    16 ≤ op ∧ op ≤ 63 ∧ (op >>> 2) &&& 3 = x ∧ op &&& 3 = y ∧
      ((op >>> 4) &&& 3) - 1 = p := by decide

/-- The fields of a word of `FMOV`. -/
theorem fmov_word : ∀ p < 3, ∀ x < 4,
    let op := 14 ||| ((p >>> 1) &&& 1)
    let muxB := ((p &&& 1) <<< 2) ||| x
    (op = 14 ∨ op = 15 ∧ muxB < 4) ∧ muxB < 8 ∧ muxB &&& 3 = x ∧
      ((op &&& 1) <<< 1) + ((muxB >>> 2) &&& 1) = p := by decide

/-- The fields of an opcode of `VFMUL`. -/
theorem vfmul_word : ∀ u, ∀ x ∈ v3dQpuFloat16UnpackPack u,
    let op := if u = .swap16 then 8 else 4 ||| ((x + 4) &&& 7)
    4 ≤ op ∧ op ≤ 8 ∧ v3dQpuFloat16UnpackUnpack (((op &&& 7) + 2 ^ 32 - 4) &&& 7) = some u := by
  intro u
  cases u <;> decide

/-- The entries of the operations with places for their packs. -/
theorem lookup_fmul {o a b : ℕ} (hlo : 16 ≤ o) (hhi : o ≤ 63) (ha : a < 8) (hb : b < 8) :
    lookupOpcode mulOps o a b = some ⟨16, 63, anyMux, anyMux, .fmul, 0⟩ :=
  lookupOpcode_of_boxFind (by decide : boxFind mulOps 16 63 anyMux anyMux = _) hlo hhi
    (testBit_anyMux a ha) (testBit_anyMux b hb)

/-- The opcodes of `vfmul`. -/
theorem lookup_vfmul {o a b : ℕ} (hlo : 4 ≤ o) (hhi : o ≤ 8) (ha : a < 8) (hb : b < 8) :
    lookupOpcode mulOps o a b = some ⟨4, 8, anyMux, anyMux, .vfmul, 0⟩ :=
  lookupOpcode_of_boxFind (by decide : boxFind mulOps 4 8 anyMux anyMux = _) hlo hhi
    (testBit_anyMux a ha) (testBit_anyMux b hb)

/-- The opcodes of `fmov`. -/
theorem lookup_fmov {o a b : ℕ} (ho : o = 14 ∨ o = 15 ∧ b < 4) (ha : a < 8) (hb : b < 8) :
    ∃ d, lookupOpcode mulOps o a b = some d ∧ d.op = .fmov := by
  have hmask : ∀ b < 4, (muxMask 0 3).testBit b = true := by decide
  rcases ho with rfl | ⟨rfl, hb4⟩
  · exact ⟨_, lookupOpcode_of_boxFind
      (by decide : boxFind mulOps 14 14 anyMux anyMux = some ⟨14, 14, anyMux, anyMux, .fmov, 0⟩)
      le_rfl le_rfl (testBit_anyMux a ha) (testBit_anyMux b hb), rfl⟩
  · exact ⟨_, lookupOpcode_of_boxFind
      (by decide :
        boxFind mulOps 15 15 anyMux (muxMask 0 3) = some ⟨15, 15, muxMask 0 3, anyMux, .fmov, 0⟩)
      le_rfl le_rfl (testBit_anyMux a ha) (hmask b hb4), rfl⟩

/-- The entry of an operation, and the entry that is found for its words. -/
def mulCheck (op : MulOp) : Bool :=
  match mulOps.find? (fun d => d.op = op) with
  | none => false
  | some d => boxFind mulOps d.opcodeFirst d.opcodeFirst
      (if op.args.numSrc < 1 then 1 <<< (ffs d.muxAMask - 1) else anyMux)
      (if op.args.numSrc < 2 then 1 <<< (ffs d.muxBMask - 1) else anyMux) = some d

/-- Every operation has its entry, found again by its words. -/
theorem mulCheck_all (op : MulOp) : mulCheck op = true := by
  cases op <;> decide

/-- Unpacking, once the entry and the packs are known. -/
theorem mulUnpack_eq (hlookup : lookupOpcode mulOps f.op f.muxA f.muxB = some d)
    (hpacks : mulUnpackPacks f { prev with op := d.op } = some j) : v3dQpuMulUnpack f prev =
      some { j with a := f.muxA, b := f.muxB, waddr := f.waddr, magicWrite := f.magic } := by
  simp only [v3dQpuMulUnpack, hlookup, hpacks, bind_eq_bind, bind_some]

/-- An operation with places for its packs is packed right. -/
theorem mulHolds_of_ne_plain (h : i.op.packClass ≠ .plain) : MulHolds i :=
  ⟨fun hp => absurd hp h, fun hp => absurd hp h, fun hp => absurd hp h⟩

/-- The operations with packs. -/
theorem MulOp.cases_packClass (op : MulOp) :
    op.packClass = .plain ∨ op = .fmul ∨ op = .fmov ∨ op = .vfmul := by
  cases op <;> simp [MulOp.packClass]

/-- The packs of `vfmul` are part of its opcode. -/
theorem mulPackPacks_vfmul (hop : i.op = .vfmul) (h : mulPackPacks i f = some g) :
    i.outputPack = .none ∧ i.bUnpack = .none ∧ ∃ x, v3dQpuFloat16UnpackPack i.aUnpack = some x ∧
      g = { f with op := if i.aUnpack = .swap16 then 8 else f.op ||| ((x + 4) &&& 7) } := by
  simp only [mulPackPacks, hop, MulOp.packClass, bind_eq_bind, ite_none_left_eq_some, not_not,
    bind_eq_some_iff, some.injEq] at h
  obtain ⟨hout, x, hx, hb, rfl⟩ := h
  exact ⟨hout, hb, x, hx, rfl⟩

section

variable (h : v3dQpuMulPack i = some f) (ha : f.muxA < 8) (hb : f.muxB < 8) (prev : AluOp MulOp)
include h ha hb

/-- The round trip without packs. -/
theorem mul_plain (hclass : i.op.packClass = .plain) :
    ∃ j, v3dQpuMulUnpack f prev = some j ∧ (i.Same i.op.args j ↔ MulHolds i) := by
  obtain ⟨d, hd, hpacks⟩ := bind_eq_some_iff.1 h
  simp only [mulPackPacks, hclass] at hpacks
  cases hpacks
  have hop : d.op = i.op := by simpa using List.find?_some hd
  have hcheck := mulCheck_all i.op
  simp only [mulCheck, hd, decide_eq_true_eq] at hcheck
  have hlookup : lookupOpcode mulOps (mulBase i d).op (mulBase i d).muxA
    (mulBase i d).muxB = some d :=
    lookupOpcode_of_boxFind hcheck le_rfl le_rfl (testBit_mux ha) (testBit_mux hb)
  have hpacks : mulUnpackPacks (mulBase i d) { prev with op := d.op } =
      some { prev with op := d.op, outputPack := .none, aUnpack := .none, bUnpack := .none } := by
    simp only [mulUnpackPacks, hop, hclass]
  refine ⟨_, mulUnpack_eq hlookup hpacks, ?_⟩
  constructor
  · intro hsame
    exact ⟨fun _ hd => (hsame.d hd).2.2, fun _ ha => (hsame.a ha).2, fun _ hb => (hsame.b hb).2⟩
  · intro hholds
    refine ⟨hop.symm, fun hd => ⟨rfl, rfl, hholds.d hclass hd⟩, fun ha => ⟨?_, hholds.a hclass ha⟩,
      fun hb => ⟨?_, hholds.b hclass hb⟩⟩
    · simp [mulBase, Args.numSrc_of_a ha]
    · simp [mulBase, Args.numSrc_of_b hb]

/-- The round trip for `fmul`. -/
theorem mul_fmul (hop : i.op = .fmul) : ∃ j, v3dQpuMulUnpack f prev = some j ∧
    i.Same i.op.args j := by
  have hclass : i.op.packClass = .float32 := by rw [hop]; rfl
  obtain ⟨d, hd, hpacks⟩ := bind_eq_some_iff.1 h
  rw [hop] at hd
  cases hd
  simp only [mulPackPacks, hclass, bind_eq_bind, bind_eq_some_iff] at hpacks
  obtain ⟨x, hx, y, hy, hpacks⟩ := hpacks
  obtain ⟨hx4, hu⟩ := float32Unpack hx
  obtain ⟨hy4, hv⟩ := float32Unpack hy
  obtain ⟨hlo, hhi, hgx, hgy, hgp⟩ := fmul_word _ (float32PackPack_lt i.outputPack) x hx4 y hy4
  cases hpacks
  refine ⟨_, mulUnpack_eq (j := { prev with
    op := .fmul, outputPack := i.outputPack, aUnpack := i.aUnpack, bUnpack := i.bUnpack })
    (lookup_fmul hlo hhi ha hb) ?_, ?_⟩
  · simp only [mulUnpackPacks, MulOp.packClass, mulBase, hgx, hgy,
      hgp, hu, hv, ofNat_float32PackPack,
      bind_eq_bind, bind_some]
  · refine ⟨hop, fun _ => ⟨rfl, rfl, rfl⟩, fun _ => ⟨?_, rfl⟩, fun _ => ⟨?_, rfl⟩⟩ <;>
      simp [mulBase, hop, MulOp.args, Args.numSrc]

/-- The round trip for `fmov`. -/
theorem mul_fmov (hop : i.op = .fmov) : ∃ j, v3dQpuMulUnpack f prev = some j ∧
    i.Same i.op.args j := by
  have hclass : i.op.packClass = .move := by rw [hop]; rfl
  obtain ⟨d, hd, hpacks⟩ := bind_eq_some_iff.1 h
  rw [hop] at hd
  cases hd
  simp only [mulPackPacks, hclass, bind_eq_bind, bind_eq_some_iff] at hpacks
  obtain ⟨x, hx, hpacks⟩ := hpacks
  obtain ⟨hx4, hu⟩ := float32Unpack hx
  obtain ⟨hcase, -, hgx, hgp⟩ := fmov_word _ (float32PackPack_lt i.outputPack) x hx4
  cases hpacks
  obtain ⟨d, hlookup, hd⟩ := lookup_fmov hcase ha hb
  refine ⟨_, mulUnpack_eq (j := { prev with
    op := .fmov, outputPack := i.outputPack, aUnpack := i.aUnpack }) hlookup ?_, ?_⟩
  · simp only [mulUnpackPacks, hd, MulOp.packClass, mulBase, hgx, hgp, hu, ofNat_float32PackPack,
      bind_eq_bind, bind_some]
  · refine ⟨hop, fun _ => ⟨rfl, rfl, rfl⟩, fun _ => ⟨?_, rfl⟩, fun hb => ?_⟩
    · simp [mulBase, hop, MulOp.args, Args.numSrc]
    · rw [hop] at hb
      cases hb

/-- The round trip for `vfmul`. -/
theorem mul_vfmul (hop : i.op = .vfmul) : ∃ j, v3dQpuMulUnpack f prev = some j ∧
    i.Same i.op.args j := by
  obtain ⟨d, hd, hpacks⟩ := bind_eq_some_iff.1 h
  rw [hop] at hd
  cases hd
  obtain ⟨hout, hbu, x, hx, rfl⟩ := mulPackPacks_vfmul hop hpacks
  obtain ⟨hlo, hhi, hu⟩ := vfmul_word i.aUnpack x hx
  refine ⟨_, mulUnpack_eq (j := { prev with
    op := .vfmul, outputPack := .none, aUnpack := i.aUnpack, bUnpack := .none })
    (lookup_vfmul hlo hhi ha hb) ?_, ?_⟩
  · simp only [mulUnpackPacks, MulOp.packClass, mulBase, hu, bind_eq_bind, bind_some]
  · refine ⟨hop, fun _ => ⟨rfl, rfl, hout⟩, fun _ => ⟨?_, rfl⟩, fun _ => ⟨?_, hbu⟩⟩ <;>
      simp [mulBase, hop, MulOp.args, Args.numSrc]

/-- The word of an operation unpacks to this operation, exactly if it is packed right. -/
theorem mulUnpack_of_mulPack : ∃ j, v3dQpuMulUnpack f prev = some j ∧
    (i.Same i.op.args j ↔ MulHolds i) := by
  by_cases hplain : i.op.packClass = .plain
  · exact mul_plain h ha hb prev hplain
  · simp only [mulHolds_of_ne_plain hplain, iff_true]
    rcases i.op.cases_packClass with hop | hop | hop | hop
    · exact absurd hop hplain
    · exact mul_fmul h ha hb prev hop
    · exact mul_fmov h ha hb prev hop
    · exact mul_vfmul h ha hb prev hop

end

/-! ### Words -/

/-- The fields of a multiplication fit. -/
theorem mulBase_fits (hd : d ∈ mulOps) (ha : i.a < 8) (hb : i.b < 8) (hw : i.waddr < 64) :
    (mulBase i d).Fits 6 := by
  have hentry : ∀ d ∈ mulOps, d.opcodeFirst < 2 ^ 6 ∧ ffs d.muxAMask - 1 < 8 ∧
    ffs d.muxBMask - 1 < 8 := by
    decide
  obtain ⟨hfirst, hma, hmb⟩ := hentry d hd
  refine ⟨hfirst, ?_, ?_, hw⟩ <;> simp only [mulBase] <;> split_ifs <;> assumption

/-- What is packed fits. -/
theorem mulPack_fits (h : v3dQpuMulPack i = some g) (ha : i.a < 8)
    (hb : i.b < 8) (hw : i.waddr < 64) :
    g.Fits 6 := by
  obtain ⟨d, hd, hpacks⟩ := bind_eq_some_iff.1 h
  have hfits := mulBase_fits (List.mem_of_find?_eq_some hd) ha hb hw
  rcases i.op.cases_packClass with hclass | hop | hop | hop
  · simp only [mulPackPacks, hclass] at hpacks
    cases hpacks
    exact hfits
  · rw [hop] at hd
    cases hd
    simp only [mulPackPacks, hop, MulOp.packClass, bind_eq_bind, bind_eq_some_iff] at hpacks
    obtain ⟨x, hx, y, hy, hpacks⟩ := hpacks
    have hword := fmul_word _ (float32PackPack_lt i.outputPack) x
      (float32Unpack hx).1 y (float32Unpack hy).1
    cases hpacks
    exact ⟨Nat.lt_succ_of_le hword.2.1, hfits.muxA, hfits.muxB, hw⟩
  · rw [hop] at hd
    cases hd
    simp only [mulPackPacks, hop, MulOp.packClass, bind_eq_bind, bind_eq_some_iff] at hpacks
    obtain ⟨x, hx, hpacks⟩ := hpacks
    obtain ⟨hcase, hmux, -⟩ := fmov_word _ (float32PackPack_lt i.outputPack) x (float32Unpack hx).1
    cases hpacks
    refine ⟨?_, hfits.muxA, hmux, hw⟩
    simp only [mulBase]
    omega
  · rw [hop] at hd
    cases hd
    obtain ⟨-, -, x, hx, rfl⟩ := mulPackPacks_vfmul hop hpacks
    obtain ⟨hlo, hhi, -⟩ := vfmul_word i.aUnpack x hx
    refine ⟨?_, hfits.muxA, hfits.muxB, hw⟩
    simp only [mulBase]
    omega

/-- The packs of an operation that was unpacked are ones that it has places for. -/
theorem mulPackPacks_of_unpack (h : mulUnpackPacks f i = some j) :
    (∀ base, ∃ g, mulPackPacks j base = some g) ∧ MulHolds j := by
  unfold mulUnpackPacks at h
  rcases i.op.cases_packClass with hclass | hop | hop | hop
  · simp only [hclass] at h
    cases h
    exact ⟨fun base => ⟨base, by simp only [mulPackPacks, hclass]⟩, fun _ _ => rfl, fun _ _ => rfl,
      fun _ _ => rfl⟩
  all_goals
    simp only [hop, MulOp.packClass] at h
    obtain ⟨u, hu, h⟩ := bind_eq_some_iff.1 h
  on_goal 1 => obtain ⟨v, hv, h⟩ := bind_eq_some_iff.1 h
  all_goals
    cases h
    refine ⟨fun base => ?_, mulHolds_of_ne_plain nofun⟩
  · simp only [mulPackPacks, MulOp.packClass, float32UnpackPack_of_unpack hu,
      float32UnpackPack_of_unpack hv,
      bind_eq_bind, bind_some]
    exact ⟨_, rfl⟩
  · simp only [mulPackPacks, MulOp.packClass, float32UnpackPack_of_unpack hu, bind_eq_bind,
      bind_some]
    exact ⟨_, rfl⟩
  · simp only [mulPackPacks, MulOp.packClass, float16UnpackPack_of_unpack hu, bind_eq_bind,
      bind_some, ne_eq, not_true, if_false]
    exact ⟨_, rfl⟩

/-- What a word unpacks to can be packed, and is packed right. -/
theorem mulPack_of_mulUnpack (h : v3dQpuMulUnpack f prev = some i) (hf : f.Fits 6) :
    (∃ g, v3dQpuMulPack i = some g ∧ g.Fits 6) ∧ MulHolds i := by
  obtain ⟨d, hlookup, h⟩ := bind_eq_some_iff.1 h
  obtain ⟨j, hpacks, h⟩ := bind_eq_some_iff.1 h
  obtain ⟨hsome, hholds⟩ := mulPackPacks_of_unpack hpacks
  cases h
  refine ⟨?_, ⟨hholds.d, hholds.a, hholds.b⟩⟩
  have hcheck := mulCheck_all j.op
  unfold mulCheck at hcheck
  cases hfind : mulOps.find? (fun d => d.op = j.op) with
  | none => simp [hfind] at hcheck
  | some e =>
    obtain ⟨g, hg⟩ := hsome
      (mulBase { j with a := f.muxA, b := f.muxB, waddr := f.waddr, magicWrite := f.magic } e)
    have hpack : v3dQpuMulPack
        { j with a := f.muxA, b := f.muxB, waddr := f.waddr, magicWrite := f.magic } = some g := by
      simp only [v3dQpuMulPack, hfind, bind_eq_bind, bind_some]
      exact hg
    exact ⟨g, hpack, mulPack_fits hpack hf.muxA hf.muxB hf.waddr⟩

end Mesa3D.Qpu
