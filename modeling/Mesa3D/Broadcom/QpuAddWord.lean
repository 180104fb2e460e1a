import Mesa3D.Broadcom.QpuAdd

/-!
# Words of the add ALU

An operation that was unpacked from a word can be packed, unless it is a load from the VPM with the
magic bit: `v3d_qpu_add_pack` does not know the loads from the outputs, and asserts that the others
are no magic writes. Its operands are in the order that the operation needs, and it is packed right
unless the word unpacks a lower half.
-/

namespace Mesa3D.Qpu

open Bits
open Option (bind_eq_bind bind_eq_some_iff bind_some some.inj)

variable {i j prev : AluOp AddOp} {f g : AluFields} {op op' : AddOp} {d e : OpcodeDesc AddOp}

/-- The fields fit their places in a word. -/
structure AluFields.Fits (f : AluFields) (width : ℕ) : Prop where
  /-- The opcode fits. -/
  op : f.op < 2 ^ width
  /-- The first operand fits. -/
  muxA : f.muxA < 8
  /-- The second operand fits. -/
  muxB : f.muxB < 8
  /-- The register fits. -/
  waddr : f.waddr < 64

/-! ### The entry of a word -/

/-- All words of an entry have the entry of `AddOp.base`. -/
theorem boxFind_self : ∀ d ∈ addOps,
    (boxFind addOps d.opcodeFirst d.opcodeLast d.muxAMask d.muxBMask).map
      OpcodeDesc.op = some d.op.base := by
  decide +kernel

/-- An entry that is found is not hidden by an earlier one. -/
theorem base_of_lookup {o a b : ℕ} (h : lookupOpcode addOps o a b = some d) : d.op.base = d.op := by
  obtain ⟨hmem, hlo, hhi, hb, ha⟩ := lookupOpcode_some h
  obtain ⟨e, he, hop⟩ := Option.map_eq_some_iff.1 (boxFind_self d hmem)
  rw [lookupOpcode_of_boxFind he hlo hhi ha hb] at h
  cases h
  exact hop.symm

/-- `waddr` of a store is one of three. -/
theorem stvpmOp_some {waddr : ℕ} (h : stvpmOp waddr .stvpmv = some op) :
    op = .stvpmv ∨ op = .stvpmd ∨ op = .stvpmp := by
  simp only [stvpmOp] at h
  split at h <;> simp_all

/-- What the operation of a word has from its entry. -/
theorem addOpOf_some (hbase : op.base = op) (h : addOpOf f op = some op') :
    op'.base = op ∧ op' ≠ .iid ∧
    (op' = .fadd ∨ op' = .fmin →
      orderedDown ((f.op >>> 2) &&& 3) f.muxA (f.op &&& 3) f.muxB = false) ∧
    (op' = .faddnf ∨ op' = .fmax →
      orderedDown ((f.op >>> 2) &&& 3) f.muxA (f.op &&& 3) f.muxB = true) := by
  unfold addOpOf at h
  generalize orderedDown _ _ _ _ = down at h ⊢
  by_cases hst : op = .stvpmv
  · rw [hst] at h ⊢
    rcases stvpmOp_some h with rfl | rfl | rfl <;> simp [AddOp.base]
  · have hop : orderOp down op = op' := by
      cases op <;>
        first | exact some.inj h | (cases down <;> exact some.inj h) | (cases hbase; done) |
          exact absurd rfl hst
    rw [← hop]
    cases op <;> cases down <;> first | (cases hbase; done) | decide

/-- What an operation has in common with its base. -/
theorem base_facts (op : AddOp) : op.base.packClass = op.packClass ∧ isLdvpm op.base = isLdvpm op ∧
    isLdvpmOut op.base = isLdvpmOut op := by
  cases op <;> decide

/-- An operation is there in the versions of the entry that its words find, `iid` apart. -/
theorem ver_of_base : ∀ d ∈ addOps, ∀ e ∈ addOps, e.op.base = d.op →
    e.op ≠ .iid → e.ver = d.ver := by
  decide +kernel

/-- An operation is available if its entry is. -/
theorem availableOn_iff {ver : ℕ} (hd : d ∈ addOps) (hbase : op.base = d.op) (hiid : op ≠ .iid)
    (hout : isLdvpmOut op = false) : op.AvailableOn ver ↔ d.AvailableOn ver := by
  constructor
  · intro h
    have hcheck := addCheck_all op
    cases hfind : addOps.find? (fun d => d.op = op) with
    | none => simp [addCheck, hfind, hout] at hcheck
    | some e =>
      have hop : e.op = op := by simpa using List.find?_some hfind
      have hmem := List.mem_of_find?_eq_some hfind
      have hver := ver_of_base d hd e hmem (hop ▸ hbase) (hop ▸ hiid)
      simpa [OpcodeDesc.AvailableOn, hver] using h e hmem hop
  · intro h e hmem hop
    have hver := ver_of_base d hd e hmem (hop ▸ hbase) (hop ▸ hiid)
    simpa [OpcodeDesc.AvailableOn, hver] using h

/-! ### Packing what was unpacked -/

/-- The opcode and the operands of each entry fit their fields. -/
theorem entry_fits : ∀ d ∈ addOps,
    d.opcodeFirst < 2 ^ 8 ∧ ffs d.muxAMask - 1 < 8 ∧ ffs d.muxBMask - 1 < 8 := by decide

/-- The fields of an addition fit. -/
theorem addBase_fits (hd : d ∈ addOps) (ha : i.a < 8) (hb : i.b < 8) (hw : i.waddr < 64) :
    (addBase i d).Fits 8 := by
  obtain ⟨hfirst, hma, hmb⟩ := entry_fits d hd
  refine ⟨hfirst, ?_, ?_, ?_⟩ <;> simp only [addBase]
  iterate 2 split_ifs <;> assumption
  cases i.op <;> first | exact hw | simp [stvpmWaddr]

variable {u : InputUnpack} {x : ℕ}

/-- The code of an unpack mode fits the opcode, also where it is shifted. -/
theorem float32UnpackPack_fits (h : v3dQpuFloat32UnpackPack u = some x) :
    x < 2 ^ 8 ∧ x <<< 2 < 2 ^ 8 := by
  have hx := (float32Unpack h).1
  omega

/-- What is packed fits. -/
theorem addPack_fits (h : v3dQpuAddPack i = some g) (ha : i.a < 8)
    (hb : i.b < 8) (hw : i.waddr < 64) :
    g.Fits 8 := by
  obtain ⟨d, e, hentry⟩ := addPack_some h
  have hpacks := hentry.packs
  have hfits := addBase_fits hentry.mem ha hb hw
  unfold addPackPacks at hpacks
  split at hpacks
  · obtain ⟨x, hx, hpacks⟩ := bind_eq_some_iff.1 hpacks
    obtain ⟨y, hy, hpacks⟩ := bind_eq_some_iff.1 hpacks
    obtain ⟨hx0, hx2⟩ := float32UnpackPack_fits hx
    obtain ⟨hy0, hy2⟩ := float32UnpackPack_fits hy
    have hp : v3dQpuFloat32PackPack i.outputPack <<< 4 < 2 ^ 8 := by cases i.outputPack <;> decide
    have hop := Nat.or_lt_two_pow hfits.op hp
    split_ifs at hpacks <;> cases hpacks
    · exact ⟨Nat.or_lt_two_pow (Nat.or_lt_two_pow hop hy2) hx0, hfits.muxB, hfits.muxA, hfits.waddr⟩
    · exact ⟨Nat.or_lt_two_pow (Nat.or_lt_two_pow hop hx2) hy0, hfits.muxA, hfits.muxB, hfits.waddr⟩
  · obtain ⟨x, hx, hpacks⟩ := bind_eq_some_iff.1 hpacks
    split_ifs at hpacks
    cases hpacks
    have hp : v3dQpuFloat32PackPack i.outputPack < 2 ^ 3 := by cases i.outputPack <;> decide
    exact ⟨Nat.or_lt_two_pow hfits.op (float32UnpackPack_fits hx).2, hfits.muxA,
      Nat.or_lt_two_pow hfits.muxB hp, hfits.waddr⟩
  · split_ifs at hpacks
    obtain ⟨x, hx, hpacks⟩ := bind_eq_some_iff.1 hpacks
    split_ifs at hpacks
    cases hpacks
    exact ⟨Nat.or_lt_two_pow hfits.op (float32UnpackPack_fits hx).2,
      hfits.muxA, hfits.muxB, hfits.waddr⟩
  · split_ifs at hpacks
    obtain ⟨x, hx, hpacks⟩ := bind_eq_some_iff.1 hpacks
    cases hpacks
    have hx5 := (float16Unpack hx).1
    exact ⟨Nat.or_lt_two_pow hfits.op (by omega), hfits.muxA, hfits.muxB, hfits.waddr⟩
  · split_ifs at hpacks
    cases hpacks
    exact hfits

/-- A load from the VPM with the magic bit is a load from the outputs, or stays a magic write:
neither can be packed. -/
theorem addPack_magic_load (hload : isLdvpm i.op = true) (hm : f.magic = true) :
    v3dQpuAddPack (addUnpackOperands f i) = none := by
  have hcases : isLdvpmOut (addUnpackOperands f i).op = true ∨
      isLdvpm (addUnpackOperands f i).op = true ∧ (addUnpackOperands f i).magicWrite = true := by
    simp only [addUnpackOperands, hm, if_true]
    split <;> simp [isLdvpmOut, hload]
  cases hpack : v3dQpuAddPack (addUnpackOperands f i) with
  | none => rfl
  | some g =>
    obtain ⟨d, e, hentry⟩ := addPack_some hpack
    rcases hcases with hout | hmagic
    · rw [hentry.out] at hout
      cases hout
    · exact absurd hmagic hentry.load

/-- An unpack mode for 32 bit floats comes from its code. -/
theorem float32UnpackPack_of_unpack (h : v3dQpuFloat32UnpackUnpack x = some u) :
    v3dQpuFloat32UnpackPack u = some x := by
  unfold v3dQpuFloat32UnpackUnpack at h
  split at h <;> cases h <;> rfl

/-- An unpack mode for 16 bit floats comes from its code. -/
theorem float16UnpackPack_of_unpack (h : v3dQpuFloat16UnpackUnpack x = some u) :
    v3dQpuFloat16UnpackPack u = some x := by
  unfold v3dQpuFloat16UnpackUnpack at h
  split at h <;> cases h <;> rfl

/-- The opcodes with an unpack of their operand, and those of them that unpack a lower half. -/
theorem half_opcode : ∀ o < 2 ^ 8, 245 ≤ mapOp o → mapOp o ≤ 247 →
    (o >>> 2) &&& 3 ≠ 0 ∧ ((o >>> 2) &&& 3 = 2 ↔ 249 ≤ o ∧ o ≤ 251) := by decide +kernel

/-- Only rounding and conversions are at the opcodes that hold an unpack mode in their middle. -/
theorem half_entry : ∀ d ∈ addOps,
    if d.op.packClass = .round ∨
        d.op.packClass = .toInt then 245 ≤ d.opcodeFirst ∧ d.opcodeLast ≤ 247
    else d.opcodeLast < 245 ∨ 247 < d.opcodeFirst := by decide

/-- What a word says about the unpack of an operation. -/
structure HalfWord (f : AluFields) (op : AddOp) : Prop where
  /-- Rounding and conversions have their mode in the middle of the opcode. -/
  half : op.packClass = .round ∨ op.packClass = .toInt →
    (f.op >>> 2) &&& 3 ≠ 0 ∧ ((f.op >>> 2) &&& 3 = 2 ↔ 249 ≤ f.op ∧ f.op ≤ 251)
  /-- No other opcode looks like theirs. -/
  other : ¬ (op.packClass = .round ∨ op.packClass = .toInt) → ¬ (249 ≤ f.op ∧ f.op ≤ 251)

/-- The opcode of a word that was looked up says whether it has an unpack mode. -/
theorem halfWord_of_lookup (hf : f.op < 2 ^ 8) (hbase : op.base = d.op)
    (h : lookupOpcode addOps (mapOp f.op) f.muxA f.muxB = some d) : HalfWord f op := by
  obtain ⟨hmem, hlo, hhi, -, -⟩ := lookupOpcode_some h
  have hentry := half_entry d hmem
  rw [← hbase, (base_facts op).1] at hentry
  constructor
  · intro hclass
    rw [if_pos hclass] at hentry
    exact half_opcode f.op hf (by omega) (by omega)
  · rintro hclass ⟨h1, h2⟩
    rw [if_neg hclass] at hentry
    rw [mapOp, if_pos ⟨h1, h2⟩] at hlo hhi
    omega

/-- The packs of an operation that was unpacked. -/
def UnpackedPacks (f : AluFields) (j : AluOp AddOp) : PackClass → Prop
  | .float32 => v3dQpuFloat32UnpackPack j.aUnpack = some ((f.op >>> 2) &&& 3) ∧
      v3dQpuFloat32UnpackPack j.bUnpack = some (f.op &&& 3)
  | .round => v3dQpuFloat32UnpackPack j.aUnpack = some ((f.op >>> 2) &&& 3)
  | .toInt => v3dQpuFloat32UnpackPack j.aUnpack = some ((f.op >>> 2) &&& 3) ∧ j.outputPack = .none
  | .float16 => v3dQpuFloat16UnpackPack j.aUnpack = some (f.op &&& 7) ∧ j.outputPack = .none ∧
      j.bUnpack = .none
  | _ => j.outputPack = .none ∧ j.aUnpack = .none ∧ j.bUnpack = .none

/-- What the unpacked packs are, by the class of the operation. -/
theorem addUnpackPacks_some (h : addUnpackPacks f i = some j) :
    j.op = i.op ∧ UnpackedPacks f j i.op.packClass := by
  unfold addUnpackPacks at h
  cases hclass : i.op.packClass <;> simp only [hclass] at h
  case float32 =>
    obtain ⟨u, hu, h⟩ := bind_eq_some_iff.1 h
    obtain ⟨v, hv, h⟩ := bind_eq_some_iff.1 h
    cases h
    exact ⟨rfl, float32UnpackPack_of_unpack hu, float32UnpackPack_of_unpack hv⟩
  case move | plain =>
    cases h
    exact ⟨rfl, rfl, rfl, rfl⟩
  all_goals
    obtain ⟨u, hu, h⟩ := bind_eq_some_iff.1 h
    cases h
  · exact ⟨rfl, float32UnpackPack_of_unpack hu⟩
  · exact ⟨rfl, float32UnpackPack_of_unpack hu, rfl⟩
  · exact ⟨rfl, float16UnpackPack_of_unpack hu, rfl, rfl⟩

/-- What was unpacked can be packed. -/
theorem addPackPacks_isSome (hword : HalfWord f j.op) (h : UnpackedPacks f j j.op.packClass)
    (base : AluFields) : ∃ g, addPackPacks j base = some g := by
  unfold addPackPacks
  cases hclass : j.op.packClass <;> rw [hclass] at h
  case float32 =>
    simp only [h.1, h.2, bind_eq_bind, bind_some]
    split_ifs <;> exact ⟨_, rfl⟩
  case round =>
    simp only [show _ = _ from h, bind_eq_bind, bind_some, if_neg (hword.half (.inl hclass)).1]
    exact ⟨_, rfl⟩
  case toInt =>
    simp only [h.1, h.2, bind_eq_bind, bind_some, if_neg (hword.half (.inr hclass)).1,
      ne_eq, not_true, if_false]
    exact ⟨_, rfl⟩
  case float16 =>
    simp only [h.1, h.2.1, h.2.2, bind_eq_bind, bind_some, ne_eq, not_true, or_self, if_false]
    exact ⟨_, rfl⟩
  case move | plain =>
    simp only [h.1, h.2.1, h.2.2, ne_eq, not_true, or_self, and_false, if_false]
    exact ⟨_, rfl⟩

/-- An operation that was unpacked can be packed again. -/
theorem addPack_isSome (hout : isLdvpmOut j.op = false)
    (hload : ¬ (isLdvpm j.op = true ∧ f.magic = true))
    (hword : HalfWord f j.op) (h : UnpackedPacks f j j.op.packClass) : ∃ g, v3dQpuAddPack
      { j with a := f.muxA, b := f.muxB, waddr := f.waddr, magicWrite := f.magic } = some g := by
  have hcheck := addCheck_all j.op
  cases hfind : addOps.find? (fun d => d.op = j.op) with
  | none => simp [addCheck, hfind, hout] at hcheck
  | some d =>
    simp only [v3dQpuAddPack, hfind, bind_eq_bind, bind_some, if_neg hload]
    exact addPackPacks_isSome hword h _

/-- The operands are in the order that the operation needs, and it is packed right unless the word
unpacks a lower half. -/
theorem addHolds_of_unpacked (hword : HalfWord f i.op) (h : UnpackedPacks f i i.op.packClass)
    (ha : i.a = f.muxA) (hb : i.b = f.muxB) (hiid : i.op ≠ .iid)
    (hup : i.op = .fadd ∨ i.op = .fmin →
      orderedDown ((f.op >>> 2) &&& 3) f.muxA (f.op &&& 3) f.muxB = false)
    (hdown : i.op = .faddnf ∨ i.op = .fmax →
      orderedDown ((f.op >>> 2) &&& 3) f.muxA (f.op &&& 3) f.muxB = true) :
    NoSwap i ∧ (AddHolds i ↔ ¬ (249 ≤ f.op ∧ f.op ≤ 251)) := by
  have hswap : NoSwap i := by
    intro hclass x hx y hy
    rw [hclass] at h
    obtain rfl : _ = x := some.inj (h.1.symm.trans hx)
    obtain rfl : _ = y := some.inj (h.2.symm.trans hy)
    rw [ha, hb, ← Bool.not_eq_true, swaps_iff, not_or, not_and, not_and,
      Bool.not_eq_true, Bool.not_eq_false]
    exact ⟨hup, hdown⟩
  refine ⟨hswap, ?_⟩
  by_cases hhalf : i.op.packClass = .round ∨ i.op.packClass = .toInt
  · obtain ⟨-, -, -, -, h1, h2, -, -⟩ := half_facts hhalf
    have hunpack : v3dQpuFloat32UnpackPack i.aUnpack = some ((f.op >>> 2) &&& 3) := by
      rcases hhalf with hclass | hclass <;> rw [hclass] at h
      · exact h
      · exact h.1
    rw [← (hword.half hhalf).2]
    constructor
    · intro hholds heq
      rw [heq] at hunpack
      exact hholds.unpack hhalf (float32UnpackPack_inj hunpack rfl)
    · intro hne
      refine ⟨fun _ hl => hne ?_, by simp [h1, h2], hiid⟩
      rw [hl] at hunpack
      exact (some.inj hunpack).symm
  · refine iff_of_true ⟨fun hc => absurd hc hhalf, fun hop => ?_, hiid⟩ (hword.other hhalf)
    have hclass : i.op.packClass = .float32 := by rcases hop with hop | hop <;> rw [hop] <;> rfl
    have hno := hswap hclass
    rw [hclass] at h
    exact (addHolds_float32 hclass).1
      (ordered_of_not_swaps h.1 h.2 hclass (by simp [hno _ h.1 _ h.2])).2 hop

/-- A word of the add ALU: a load from the VPM with the magic bit cannot be packed again, and what
other words unpack to can be packed. -/
theorem addPack_of_addUnpack (h : v3dQpuAddUnpack f prev = some i) (hf : f.Fits 8) :
    ∃ d, lookupOpcode addOps (mapOp f.op) f.muxA f.muxB = some d ∧
      if isLdvpm d.op = true ∧ f.magic = true then v3dQpuAddPack i = none
      else (∃ g, v3dQpuAddPack i = some g ∧ g.Fits 8) ∧ NoSwap i ∧
        (AddHolds i ↔ ¬ (249 ≤ f.op ∧ f.op ≤ 251)) ∧
          ∀ ver, i.op.AvailableOn ver ↔ d.AvailableOn ver := by
  obtain ⟨d, hlookup, h⟩ := bind_eq_some_iff.1 h
  obtain ⟨op, hop, h⟩ := bind_eq_some_iff.1 h
  obtain ⟨j, hpacks, h⟩ := bind_eq_some_iff.1 h
  obtain ⟨hbase, hiid, hup, hdown⟩ := addOpOf_some (base_of_lookup hlookup) hop
  obtain ⟨hj, hunpacked⟩ := addUnpackPacks_some hpacks
  have hload : isLdvpm j.op = isLdvpm d.op := by rw [hj, ← hbase, (base_facts op).2.1]
  refine ⟨d, hlookup, ?_⟩
  cases h
  split_ifs with hmagic
  · exact addPack_magic_load (hload.trans hmagic.1) hmagic.2
  · rw [← hload] at hmagic
    rw [addUnpackOperands_eq hmagic]
    have hmem := (lookupOpcode_some hlookup).1
    have hout : isLdvpmOut j.op = false := by
      rw [hj, ← (base_facts op).2.2, hbase]
      exact not_isLdvpmOut_of_mem d hmem
    have hword : HalfWord f j.op := hj ▸ halfWord_of_lookup hf.op hbase hlookup
    subst hj
    obtain ⟨g, hg⟩ := addPack_isSome hout hmagic hword hunpacked
    obtain ⟨hswap, hholds⟩ := addHolds_of_unpacked hword
      (i := { j with a := f.muxA, b := f.muxB, waddr := f.waddr, magicWrite := f.magic })
      hunpacked rfl rfl
      hiid hup hdown
    exact ⟨⟨g, hg, addPack_fits hg hf.muxA hf.muxB hf.waddr⟩, hswap, hholds,
      fun ver => availableOn_iff hmem hbase hiid hout⟩

end Mesa3D.Qpu
