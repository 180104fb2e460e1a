import Mesa3D.Broadcom.QpuSpec

/-!
# Round trips of the add ALU

An operation that is packed gets a word of its own entry of the table, except where two entries have
the same words. What is unpacked from this word is then read off, for each way of packing.
-/

namespace Mesa3D.Qpu

open Bits Option

variable {i j prev : AluOp AddOp} {f g : AluFields} {op : AddOp} {d : OpcodeDesc AddOp}

/-! ### The table -/

/-- The operation of the entry that is found for the words of an operation. -/
def AddOp.base : AddOp → AddOp
  | .faddnf => .fadd
  | .fmax => .fmin
  | .iid => .vdwwt
  | .stvpmd | .stvpmp => .stvpmv
  | op => op

/-- The words that an operation of an entry is packed to. -/
def addBox (op : AddOp) (d : OpcodeDesc AddOp) : Option (OpcodeDesc AddOp) :=
  let muxB := ffs d.muxBMask - 1
  match op.packClass with
  | .float32 => boxFind addOps d.opcodeFirst (d.opcodeFirst + 47) anyMux anyMux
  | .round => boxFind addOps d.opcodeFirst d.opcodeFirst anyMux (7 <<< muxB)
  | .toInt => boxFind addOps d.opcodeFirst d.opcodeFirst anyMux (1 <<< muxB)
  | .float16 => boxFind addOps d.opcodeFirst (d.opcodeFirst + 4) anyMux anyMux
  | _ => boxFind addOps d.opcodeFirst d.opcodeFirst
      (if op.args.numSrc < 1 then 1 <<< (ffs d.muxAMask - 1) else anyMux)
      (if op.args.numSrc < 2 then 1 <<< muxB else anyMux)

/-- The opcodes that an operation can have. -/
def addFirst (op : AddOp) (d : OpcodeDesc AddOp) : Bool :=
  match op.packClass with
  | .float32 => op.args.numSrc = 2 ∧ d.opcodeFirst ∈ [0, 64, 128, 192]
  | .round => op.args.numSrc = 1 ∧ d.opcodeFirst ∈ [245, 246, 247] ∧ ffs d.muxBMask - 1 ∈ [0, 4]
  | .toInt => op.args.numSrc = 1 ∧ d.opcodeFirst ∈ [245, 246] ∧ ffs d.muxBMask - 1 ∈ [3, 7]
  | .float16 => op.args.numSrc = 2 ∧ d.opcodeFirst ∈ [176, 240]
  | _ => mapOp d.opcodeFirst = d.opcodeFirst ∧ d.opcodeFirst < 256 ∧ ffs d.muxAMask - 1 < 8 ∧
      ffs d.muxBMask - 1 < 8

/-- The entry of an operation, and the entry that is found for its words. -/
def addCheck (op : AddOp) : Bool :=
  match addOps.find? (fun d => d.op = op) with
  | none => isLdvpmOut op
  | some d => addFirst op d && (addBox op d).map OpcodeDesc.op = some op.base

/-- Every operation has its entry, at an opcode of its class and found again by its words. -/
theorem addCheck_all : ∀ op, addCheck op = true := by
  intro op
  cases op <;> decide +kernel

/-- The loads from the outputs have no entry. -/
theorem not_isLdvpmOut_of_mem : ∀ d ∈ addOps, isLdvpmOut d.op = false := by decide

/-- The entry of an operation that is packed. -/
structure AddEntry (i : AluOp AddOp) (f : AluFields) (d e : OpcodeDesc AddOp) : Prop where
  /-- The entry is in the table. -/
  mem : d ∈ addOps
  /-- Its opcode is one of its class. -/
  first : addFirst i.op d = true
  /-- The entry that is found for the words. -/
  box : addBox i.op d = some e
  /-- It is that of the base operation. -/
  base : e.op = i.op.base
  /-- The operation does not load from the outputs. -/
  out : isLdvpmOut i.op = false
  /-- A load does not write a special register. -/
  load : ¬ (isLdvpm i.op = true ∧ i.magicWrite = true)
  /-- The packs. -/
  packs : addPackPacks i (addBase i d) = some f

/-- Packing succeeds only for an operation with an entry. -/
theorem addPack_some (h : v3dQpuAddPack i = some f) : ∃ d e, AddEntry i f d e := by
  simp only [v3dQpuAddPack, bind_eq_bind, bind_eq_some_iff] at h
  obtain ⟨d, hd, h⟩ := h
  have hcheck := addCheck_all i.op
  simp only [addCheck, hd, Bool.and_eq_true, decide_eq_true_eq, map_eq_some_iff] at hcheck
  obtain ⟨hfirst, e, he, hbase⟩ := hcheck
  split_ifs at h with hload
  have hmem := List.mem_of_find?_eq_some hd
  have hop : d.op = i.op := by simpa using List.find?_some hd
  exact ⟨d, e, hmem, hfirst, he, hbase, hop ▸ not_isLdvpmOut_of_mem d hmem, hload, h⟩

/-! ### Small facts about operations -/

/-- The operations that pack as 32 bit floats. -/
theorem float32_cases (h : op.packClass = .float32) :
    op = .fadd ∨ op = .faddnf ∨ op = .fsub ∨ op = .fmin ∨ op = .fmax ∨ op = .fcmp := by
  cases op <;> first | (simp; done) | cases h

variable {u : InputUnpack} {x : ℕ} {e d : OpcodeDesc AddOp}

/-- The unpack modes for 32 bit floats come back from their code. -/
theorem float32Unpack (h : v3dQpuFloat32UnpackPack u = some x) :
    x < 4 ∧ v3dQpuFloat32UnpackUnpack x = some u := by
  cases u <;> cases h <;> decide

/-- The unpack modes for 16 bit floats come back from their code. -/
theorem float16Unpack (h : v3dQpuFloat16UnpackPack u = some x) :
    x < 5 ∧ v3dQpuFloat16UnpackUnpack x = some u := by
  cases u <;> cases h <;> decide

/-- The output packs of 32 bit floats fit two bits. -/
theorem float32PackPack_lt (p : OutputPack) : v3dQpuFloat32PackPack p < 3 := by cases p <;> decide

/-- The output packs of 32 bit floats come back from their code. -/
theorem ofNat_float32PackPack (p : OutputPack) :
    OutputPack.ofNat (v3dQpuFloat32PackPack p) = p := by
  cases p <;> rfl

/-- The operands are used as they are. -/
theorem Args.numSrc_of_a {args : Args} (h : args.a = true) : ¬ args.numSrc < 1 := by
  unfold Args.numSrc
  split_ifs <;> simp_all

/-- An operation that reads its second operand has two sources. -/
theorem Args.numSrc_of_b {args : Args} (h : args.b = true) : ¬ args.numSrc < 2 := by
  simp [Args.numSrc, h]

/-- An operation with operands, other than a store to the VPM. -/
theorem args_facts (op : AddOp) : (op.args.d = true → stvpmWaddr op = none) ∧
    (op.args.d = true ∨ op.args.a = true ∨ op.args.b = true → op ≠ .nop) := by
  cases op <;> decide

/-- The end of unpacking, for an operation that is not a magic load from the VPM. -/
theorem addUnpackOperands_eq (h : ¬ (isLdvpm i.op = true ∧
    f.magic = true)) : addUnpackOperands f i =
    { i with a := f.muxA, b := f.muxB, waddr := f.waddr, magicWrite := f.magic } := by
  unfold addUnpackOperands
  cases hm : f.magic with
  | false => simp
  | true =>
    simp only [if_true]
    split <;> simp_all [isLdvpm]

/-- Unpacking, once the entry, the operation and the packs are known. -/
theorem addUnpack_eq (hlookup : lookupOpcode addOps (mapOp f.op) f.muxA f.muxB = some e)
    (hop : addOpOf f e.op = some op) (hpacks : addUnpackPacks f { prev with op := op } = some j)
    (hload : ¬ (isLdvpm j.op = true ∧ f.magic = true)) : v3dQpuAddUnpack f prev =
      some { j with a := f.muxA, b := f.muxB, waddr := f.waddr, magicWrite := f.magic } := by
  simp only [v3dQpuAddUnpack, hlookup, hop, hpacks, bind_eq_bind, bind_some,
    addUnpackOperands_eq hload]

/-! ### The ways of packing -/

/-- The operation of a word of a plain operation. -/
theorem addOpOf_plain (h : op.packClass = .plain) (waddr : ℕ)
    (hw : f.waddr = (stvpmWaddr op).getD waddr) :
    addOpOf f op.base = some (if op = .iid then .vdwwt else op) := by
  unfold addOpOf
  rw [hw]
  cases op <;> first | rfl | cases h

/-- Operations without packs are given none. -/
theorem addUnpackPacks_plain (h : i.op.packClass = .plain) : addUnpackPacks f i =
    some { i with outputPack := .none, aUnpack := .none, bUnpack := .none } := by
  simp only [addUnpackPacks, h]

/-- The mux value that identifies an operation, or the one of an operand. -/
theorem testBit_mux {c : Prop} [Decidable c] {m : ℕ} (h : (if c then m else x) < 8) :
    (if c then 1 <<< m else anyMux).testBit (if c then m else x) = true := by
  split_ifs at h ⊢
  · simp [Nat.testBit_shiftLeft]
  · exact testBit_anyMux x h

/-- A load from the VPM is not a magic write. -/
theorem AddEntry.not_magic (h : AddEntry i f d e) :
    ¬ (isLdvpm i.op = true ∧ (addBase i d).magic = true) := by
  rintro ⟨hload, hmagic⟩
  simp only [addBase, h.out, Bool.false_or, Bool.and_eq_true] at hmagic
  exact h.load ⟨hload, hmagic.1⟩

/-- The destination is packed as it is. -/
theorem AddEntry.dest (h : AddEntry i f d e) (hd : i.op.args.d = true) :
    (addBase i d).waddr = i.waddr ∧ (addBase i d).magic = i.magicWrite := by
  have hw := (args_facts i.op).1 hd
  simp [addBase, hw, h.out]

/-- Without packs the operation comes back, `iid` apart. -/
theorem add_plain (hclass : i.op.packClass = .plain) (h : AddEntry i f d e) (ha : f.muxA < 8)
    (hb : f.muxB < 8) (prev : AluOp AddOp) :
    ∃ j, v3dQpuAddUnpack f prev = some j ∧ (i.Same i.op.args j ↔ i.op ≠ .iid) := by
  have ⟨_, hfirst, hbox, _, _, _, hpacks⟩ := h
  simp only [addFirst, addBox, addPackPacks, hclass, decide_eq_true_eq] at hfirst hbox hpacks
  split_ifs at hpacks with hnone
  obtain rfl : addBase i d = f := some.inj hpacks
  have hlookup : lookupOpcode addOps (mapOp (addBase i d).op)
    (addBase i d).muxA (addBase i d).muxB =
      some e :=
    lookupOpcode_of_boxFind hbox (by rw [addBase, hfirst.1]) (by rw [addBase, hfirst.1])
      (testBit_mux ha) (testBit_mux hb)
  have hop := addOpOf_plain (f := addBase i d) hclass i.waddr rfl
  have hclass' : (if i.op = .iid then AddOp.vdwwt else i.op).packClass = .plain := by
    split_ifs
    · rfl
    · exact hclass
  rw [← h.base] at hop
  refine ⟨_, addUnpack_eq hlookup hop (addUnpackPacks_plain hclass') ?_, ?_⟩
  · rintro ⟨hload, hmagic⟩
    split_ifs at hload
    · cases hload
    · exact h.not_magic ⟨hload, hmagic⟩
  · constructor
    · intro hsame hiid
      have hop := hsame.op
      simp only [hiid, if_true] at hop
      cases hop
    · intro hiid
      have hused : i.op.args.d = true ∨ i.op.args.a = true ∨ i.op.args.b = true →
          i.outputPack = .none ∧ i.aUnpack = .none ∧ i.bUnpack = .none := by
        intro hargs
        have hnop := (args_facts i.op).2 hargs
        simpa [hnop] using hnone
      refine ⟨by simp [hiid], fun hd => ?_, fun ha => ?_, fun hb => ?_⟩
      · obtain ⟨hw, hm⟩ := h.dest hd
        exact ⟨hw.symm, hm.symm, (hused (.inl hd)).1⟩
      · exact ⟨by simp [addBase, Args.numSrc_of_a ha], (hused (.inr (.inl ha))).2.1⟩
      · exact ⟨by simp [addBase, Args.numSrc_of_b hb], (hused (.inr (.inr hb))).2.2⟩

/-- The fields of an opcode with two unpacks and an output pack. -/
theorem float32_word : ∀ first ∈ [0, 64, 128, 192], ∀ p < 3, ∀ x < 4, ∀ y < 4,
    let op := first ||| p <<< 4 ||| x <<< 2 ||| y
    first ≤ op ∧ op ≤ first + 47 ∧ mapOp op = op ∧ (op >>> 2) &&& 3 = x ∧ op &&& 3 = y ∧
      (op >>> 4) &&& 3 = p := by decide

/-- The operation of a word of a floating-point operation. -/
theorem addOpOf_float32 (h : op.packClass = .float32) :
    addOpOf f op.base = some (orderOp (orderedDown ((f.op >>> 2) &&& 3) f.muxA
      (f.op &&& 3) f.muxB) op.base) := by
  unfold addOpOf
  generalize orderedDown _ _ _ _ = down
  rcases float32_cases h with rfl | rfl | rfl | rfl | rfl | rfl <;> cases down <;> rfl

/-- The order of the operands picks among the 32 bit float operations. -/
theorem orderOp_float32 (h : op.packClass = .float32) (down : Bool) :
    (orderOp down op.base).packClass = .float32 ∧ isLdvpm (orderOp down op.base) = false := by
  rcases float32_cases h with rfl | rfl | rfl | rfl | rfl | rfl <;> cases down <;> exact ⟨rfl, rfl⟩

/-- The unpacks of the operands of a floating-point operation, as they are in the word. -/
structure Unpacks (f : AluFields) (first p x y : ℕ) (u v : InputUnpack) : Prop where
  /-- The opcode with its packs. -/
  op : f.op = first ||| p <<< 4 ||| x <<< 2 ||| y
  /-- The unpack of the first operand. -/
  a : v3dQpuFloat32UnpackPack u = some x
  /-- The unpack of the second operand. -/
  b : v3dQpuFloat32UnpackPack v = some y
  /-- The first operand fits. -/
  muxA : f.muxA < 8
  /-- The second operand fits. -/
  muxB : f.muxB < 8

/-- Unpacking the words of a 32 bit float operation. -/
theorem addUnpack_float32 (hclass : op.packClass = .float32) (hfirst : addFirst op d = true)
    (hbox : addBox op d = some e) (hbase : e.op = op.base) {y : ℕ} {pack : OutputPack}
    {v : InputUnpack} (h : Unpacks f d.opcodeFirst (v3dQpuFloat32PackPack pack) x y u v)
    (prev : AluOp AddOp) :
    v3dQpuAddUnpack f prev = some ⟨orderOp (orderedDown x f.muxA y f.muxB) op.base,
      f.muxA, f.muxB, f.waddr,
      f.magic, pack, u, v⟩ := by
  simp only [addFirst, hclass, decide_eq_true_eq] at hfirst
  simp only [addBox, hclass] at hbox
  obtain ⟨hx, hu⟩ := float32Unpack h.a
  obtain ⟨hy, hv⟩ := float32Unpack h.b
  have hword := float32_word d.opcodeFirst hfirst.2 _ (float32PackPack_lt pack) x hx y hy
  simp only [← h.op] at hword
  obtain ⟨hlo, hhi, hmap, hgx, hgy, hgp⟩ := hword
  have hlookup : lookupOpcode addOps (mapOp f.op) f.muxA f.muxB = some e :=
    lookupOpcode_of_boxFind hbox (by rwa [hmap]) (by rwa [hmap]) (testBit_anyMux _ h.muxA)
      (testBit_anyMux _ h.muxB)
  have hop : addOpOf f e.op = some (orderOp (orderedDown x f.muxA y f.muxB) op.base) := by
    rw [hbase, addOpOf_float32 hclass, hgx, hgy]
  obtain ⟨hclass', hload⟩ := orderOp_float32 hclass (orderedDown x f.muxA y f.muxB)
  have hpacks :
    addUnpackPacks f { prev with op := orderOp (orderedDown x f.muxA y f.muxB) op.base } =
      some { prev with
        op := orderOp (orderedDown x f.muxA y f.muxB) op.base
        outputPack := pack
        aUnpack := u
        bUnpack := v } := by
    simp only [addUnpackPacks, hclass', hgx, hgy, hgp, hu, hv, ofNat_float32PackPack, bind_eq_bind,
      bind_some]
  rw [addUnpack_eq hlookup hop hpacks (by simp [hload])]

/-- The operands are in the order that the operation needs. -/
def NoSwap (i : AluOp AddOp) : Prop := i.op.packClass = .float32 →
  ∀ x ∈ v3dQpuFloat32UnpackPack i.aUnpack, ∀ y ∈ v3dQpuFloat32UnpackPack i.bUnpack,
    swaps i.op (orderedDown x i.a y i.b) = false

/-- What is unpacked from the word of an operation is the operation, exactly if it is packed
right. -/
structure AddTrip (i j : AluOp AddOp) : Prop where
  /-- The operation comes back, or with its operands swapped where that does not matter. -/
  any : i.Same i.op.args j ∨ i.op.commutative ∧ i.swap.Same i.op.args j ↔ AddHolds i
  /-- Without a swap it comes back as it was. -/
  ordered : NoSwap i → (i.Same i.op.args j ↔ AddHolds i)

/-- An operation that is packed right, and not swapped. -/
theorem AddTrip.of_same (hholds : AddHolds i) (hsame : i.Same i.op.args j) : AddTrip i j :=
  ⟨iff_of_true (.inl hsame) hholds, fun _ => iff_of_true hsame hholds⟩

/-- The order of the operands. -/
theorem orderedDown_iff {a y b : ℕ} : orderedDown x a y b = true ↔ y * 8 + b < x * 8 + a := by
  simp [orderedDown]

/-- The codes of the unpack modes are different. -/
theorem float32UnpackPack_inj {v : InputUnpack} (hu : v3dQpuFloat32UnpackPack u = some x)
    (hv : v3dQpuFloat32UnpackPack v = some x) : u = v := by
  have h := (float32Unpack hu).2.symm.trans (float32Unpack hv).2
  exact some.inj h

/-- The order that an operation needs. -/
theorem orderOp_eq_iff (h : op.packClass = .float32) (down : Bool) : orderOp down op.base = op ↔
    (op = .fadd ∨ op = .fmin → down = false) ∧ (op = .faddnf ∨ op = .fmax → down = true) := by
  rcases float32_cases h with rfl | rfl | rfl | rfl | rfl | rfl <;> cases down <;> decide

/-- When packing swaps the operands. -/
theorem swaps_iff (op : AddOp) (down : Bool) : swaps op down = true ↔
    (op = .fadd ∨ op = .fmin) ∧ down = true ∨ (op = .faddnf ∨ op = .fmax) ∧ down = false := by
  cases down <;> simp [swaps, or_comm]

/-- For 32 bit floats only the order of equal operands is in question. -/
theorem addHolds_float32 (hclass : i.op.packClass = .float32) : AddHolds i ↔
    (i.op = .faddnf ∨ i.op = .fmax → ¬ (i.a = i.b ∧ i.aUnpack = i.bUnpack)) := by
  refine ⟨AddHolds.order, fun h => ⟨by simp [hclass], h, ?_⟩⟩
  intro hiid
  rw [hiid] at hclass
  cases hclass

section

variable {x y : ℕ} (hx : v3dQpuFloat32UnpackPack i.aUnpack = some x)
  (hy : v3dQpuFloat32UnpackPack i.bUnpack = some y) (hclass : i.op.packClass = .float32)
include hx hy hclass

/-- Operands in the order that the operation needs. -/
theorem ordered_of_not_swaps (h : ¬ swaps i.op (orderedDown x i.a y i.b) = true) :
    orderOp (orderedDown x i.a y i.b) i.op.base = i.op ∧ AddHolds i := by
  rw [swaps_iff, not_or, not_and, not_and, Bool.not_eq_true, Bool.not_eq_false] at h
  refine ⟨(orderOp_eq_iff hclass _).2 h, (addHolds_float32 hclass).2 fun hop => ?_⟩
  rintro ⟨hab, hunpack⟩
  have hlt := orderedDown_iff.1 (h.2 hop)
  rw [hunpack, hy] at hx
  cases hx
  omega

/-- Operands that were swapped have the other order, unless they are equal. -/
theorem ordered_of_swaps (ha : i.a < 8) (hb : i.b < 8)
    (h : swaps i.op (orderedDown x i.a y i.b) = true) :
    orderOp (orderedDown y i.b x i.a) i.op.base = i.op ↔ AddHolds i := by
  have hdown : orderedDown y i.b x i.a = true ↔
      ¬ (i.a = i.b ∧ i.aUnpack = i.bUnpack) ∧ orderedDown x i.a y i.b = false := by
    rw [← Bool.not_eq_true, orderedDown_iff, orderedDown_iff]
    constructor
    · intro hlt
      refine ⟨?_, by omega⟩
      rintro ⟨hab, hunpack⟩
      rw [hunpack, hy] at hx
      cases hx
      omega
    · rintro ⟨hne, hle⟩
      by_contra hlt
      obtain ⟨hxy, hab⟩ : x = y ∧ i.a = i.b := by omega
      exact hne ⟨hab, float32UnpackPack_inj hx (hxy ▸ hy)⟩
  rw [orderOp_eq_iff hclass, addHolds_float32 hclass, ← Bool.not_eq_true, hdown]
  rw [swaps_iff] at h
  rcases h with ⟨hop | hop, h⟩ | ⟨hop | hop, h⟩ <;> simp [hop, h]

end

/-- The round trip for 32 bit floats. -/
theorem add_float32 (hclass : i.op.packClass = .float32) (h : AddEntry i f d e) (ha : f.muxA < 8)
    (hb : f.muxB < 8) (prev : AluOp AddOp) : ∃ j, v3dQpuAddUnpack f prev = some j ∧
      AddTrip i j := by
  have ⟨_, hfirst, _, _, _, _, hpacks⟩ := h
  simp only [addFirst, addPackPacks, hclass, decide_eq_true_eq, bind_eq_bind,
    bind_eq_some_iff] at hfirst hpacks
  obtain ⟨x, hx, y, hy, hpacks⟩ := hpacks
  have hA : (addBase i d).muxA = i.a := by simp [addBase, hfirst.1]
  have hB : (addBase i d).muxB = i.b := by simp [addBase, hfirst.1]
  have hd : i.op.args.d = true := by
    rcases float32_cases hclass with h | h | h | h | h | h <;> rw [h] <;> rfl
  obtain ⟨hw, hm⟩ := h.dest hd
  rw [hA, hB] at hpacks
  by_cases hswap : swaps i.op (orderedDown x i.a y i.b) = true
  · rw [if_pos hswap] at hpacks
    cases hpacks
    refine ⟨_, addUnpack_float32 hclass h.first h.box h.base ⟨rfl, hy, hx, ha, hb⟩ prev, ?_, ?_⟩
    · rw [← ordered_of_swaps hx hy hclass hb ha hswap]
      constructor
      · rintro (hsame | ⟨-, hsame⟩) <;> exact hsame.op.symm
      · intro hop
        refine .inr ⟨?_, hop.symm, fun _ => ⟨hw.symm, hm.symm, rfl⟩, fun _ => ⟨rfl, rfl⟩,
          fun _ => ⟨rfl, rfl⟩⟩
        rw [swaps_iff] at hswap
        unfold AddOp.commutative
        tauto
    · intro hno
      rw [hno hclass x hx y hy] at hswap
      cases hswap
  · rw [if_neg hswap] at hpacks
    cases hpacks
    obtain ⟨hop, hholds⟩ := ordered_of_not_swaps hx hy hclass hswap
    refine ⟨_, addUnpack_float32 hclass h.first h.box h.base ⟨rfl, hx, hy, ha, hb⟩ prev, ?_⟩
    exact .of_same hholds
      ⟨hop.symm, fun _ => ⟨hw.symm, hm.symm, rfl⟩, fun _ => ⟨rfl, rfl⟩, fun _ => ⟨rfl, rfl⟩⟩

/-- The unpack that is read if `|=` writes to a field that is not 0. -/
def raised (u : InputUnpack) : InputUnpack := if u = .l then .h else u

/-- An opcode with an unpack of its operand. -/
theorem half_word : ∀ first ∈ [245, 246, 247], ∀ u, ∀ x ∈ v3dQpuFloat32UnpackPack u, x ≠ 0 →
    mapOp (first ||| x <<< 2) = first ∧
      v3dQpuFloat32UnpackUnpack (((first ||| x <<< 2) >>> 2) &&& 3) = some (raised u) := by
  intro first hfirst u
  simp only [List.mem_cons, List.not_mem_nil, or_false] at hfirst
  rcases hfirst with rfl | rfl | rfl <;> cases u <;> decide

/-- An operation with one operand that is unpacked. -/
theorem half_facts (h : op.packClass = .round ∨ op.packClass = .toInt) :
    op.args = ⟨true, true, false⟩ ∧
    op.base = op ∧ (∀ f, addOpOf f op = some op) ∧ isLdvpm op = false ∧ op ≠ .faddnf ∧ op ≠ .fmax ∧
      op ≠ .iid ∧ ¬ op.commutative := by
  unfold AddOp.commutative
  cases op <;> first | exact ⟨rfl, rfl, fun _ => rfl, by decide⟩ | (rcases h with h | h <;> cases h)

/-- What is unpacked differs at most in its unpack. -/
theorem AddTrip.of_raised (hclass : i.op.packClass = .round ∨
    i.op.packClass = .toInt) (hop : j.op = i.op)
    (hw : j.waddr = i.waddr) (hm : j.magicWrite = i.magicWrite) (hp : j.outputPack = i.outputPack)
    (ha : j.a = i.a) (hu : j.aUnpack = raised i.aUnpack) : AddTrip i j := by
  obtain ⟨hargs, -, -, -, h1, h2, h3, hcomm⟩ := half_facts hclass
  have hraised : i.aUnpack = raised i.aUnpack ↔ i.aUnpack ≠ .l := by
    unfold raised
    split_ifs with hl <;> simp [hl]
  have hsame : i.Same i.op.args j ↔ AddHolds i := by
    rw [hargs]
    constructor
    · intro hsame
      refine ⟨fun _ => hraised.1 (hu ▸ (hsame.a rfl).2), fun h => absurd h ?_, h3⟩
      simp [h1, h2]
    · intro hholds
      exact ⟨hop.symm, fun _ => ⟨hw.symm, hm.symm, hp.symm⟩,
        fun _ => ⟨ha.symm, hu ▸ hraised.2 (hholds.unpack hclass)⟩, fun h => nomatch h⟩
  refine ⟨?_, fun _ => hsame⟩
  rw [← hsame, or_iff_left (fun h => hcomm h.1)]

/-- The mux value with an output pack. -/
theorem round_mux : ∀ m ∈ [0, 4], ∀ p, (m ||| v3dQpuFloat32PackPack p) &&& 3 =
    v3dQpuFloat32PackPack p ∧
    (7 <<< m).testBit (m ||| v3dQpuFloat32PackPack p) = true := by
  intro m hm p
  simp only [List.mem_cons, List.not_mem_nil, or_false] at hm
  rcases hm with rfl | rfl <;> cases p <;> decide

/-- The opcodes of the 16 bit float operations hold the unpack mode in their low bits. -/
theorem float16_word : ∀ first ∈ [176, 240], ∀ x < 5, first ≤ first ||| x ∧
    first ||| x ≤ first + 4 ∧
    mapOp (first ||| x) = first ||| x ∧ (first ||| x) &&& 7 = x := by decide

/-- The 16 bit float operations read two operands, in any order. -/
theorem float16_facts (h : op.packClass = .float16) : op.args = ⟨true, true, true⟩ ∧ op.base = op ∧
    (∀ f, addOpOf f op = some op) ∧ isLdvpm op = false ∧ op ≠ .faddnf ∧ op ≠ .fmax ∧ op ≠ .iid := by
  cases op <;> first | exact ⟨rfl, rfl, fun _ => rfl, by decide⟩ | cases h

section

variable (h : AddEntry i f d e) (ha : f.muxA < 8) (prev : AluOp AddOp)
include h ha

/-- The round trip for rounding. -/
theorem add_round (hclass : i.op.packClass = .round) : ∃ j, v3dQpuAddUnpack f prev = some j ∧
    AddTrip i j := by
  have ⟨_, hfirst, hbox, _, _, _, hpacks⟩ := h
  simp only [addFirst, addBox, addPackPacks, hclass, decide_eq_true_eq,
    bind_eq_bind, bind_eq_some_iff]
    at hfirst hbox hpacks
  obtain ⟨x, hx, hpacks⟩ := hpacks
  obtain ⟨hargs, hbase, hopOf, hload, -⟩ := half_facts (.inl hclass)
  obtain ⟨hw, hm⟩ := h.dest (by rw [hargs])
  have hA : (addBase i d).muxA = i.a := by simp [addBase, hfirst.1]
  have hB : (addBase i d).muxB = ffs d.muxBMask - 1 := by simp [addBase, hfirst.1]
  split_ifs at hpacks with hx0
  obtain ⟨hmap, hunpack⟩ := half_word d.opcodeFirst hfirst.2.1 _ x hx hx0
  obtain ⟨hpack, hmux⟩ := round_mux _ hfirst.2.2 i.outputPack
  cases hpacks
  have hlookup := lookupOpcode_of_boxFind hbox hmap.ge hmap.le (testBit_anyMux _ ha) hmux
  rw [← hB] at hlookup hpack
  refine ⟨_, addUnpack_eq (j := ⟨i.op, prev.a, prev.b, prev.waddr, prev.magicWrite, i.outputPack,
    raised i.aUnpack, prev.bUnpack⟩) hlookup (by rw [h.base, hbase, hopOf]) ?_
    (by simp [hload]), ?_⟩
  · simp only [addUnpackPacks, hclass, bind_eq_bind]
    rw [show (addBase i d).op = d.opcodeFirst from rfl, hunpack,
      hpack, bind_some, ofNat_float32PackPack]
  · exact .of_raised (.inl hclass) rfl hw hm rfl hA rfl

/-- The round trip for conversions to integers. -/
theorem add_toInt (hclass : i.op.packClass = .toInt) : ∃ j, v3dQpuAddUnpack f prev = some j ∧
    AddTrip i j := by
  have ⟨_, hfirst, hbox, _, _, _, hpacks⟩ := h
  simp only [addFirst, addBox, addPackPacks, hclass, decide_eq_true_eq,
    bind_eq_bind] at hfirst hbox hpacks
  split_ifs at hpacks with hnone
  obtain ⟨x, hx, hpacks⟩ := bind_eq_some_iff.1 hpacks
  obtain ⟨hargs, hbase, hopOf, hload, -⟩ := half_facts (.inr hclass)
  obtain ⟨hw, hm⟩ := h.dest (by rw [hargs])
  have hA : (addBase i d).muxA = i.a := by simp [addBase, hfirst.1]
  have hB : (addBase i d).muxB = ffs d.muxBMask - 1 := by simp [addBase, hfirst.1]
  split_ifs at hpacks with hx0
  have hmem : d.opcodeFirst ∈ [245, 246, 247] := by
    have := hfirst.2.1
    simp only [List.mem_cons, List.not_mem_nil] at this ⊢
    tauto
  obtain ⟨hmap, hunpack⟩ := half_word d.opcodeFirst hmem _ x hx hx0
  cases hpacks
  have hmux : (1 <<< (ffs d.muxBMask - 1)).testBit (addBase i d).muxB = true := by
    rw [hB]
    simp [Nat.testBit_shiftLeft]
  have hlookup := lookupOpcode_of_boxFind hbox hmap.ge hmap.le (testBit_anyMux _ ha) hmux
  refine ⟨_, addUnpack_eq (j := ⟨i.op, prev.a, prev.b, prev.waddr, prev.magicWrite, .none,
    raised i.aUnpack, prev.bUnpack⟩) hlookup (by rw [h.base, hbase, hopOf]) ?_
    (by simp [hload]), ?_⟩
  · simp only [addUnpackPacks, hclass, bind_eq_bind]
    rw [show (addBase i d).op = d.opcodeFirst from rfl, hunpack, bind_some]
  · exact .of_raised (.inr hclass) rfl hw hm (not_not.1 hnone).symm hA rfl

/-- The round trip for 16 bit floats. -/
theorem add_float16 (hclass : i.op.packClass = .float16) (hb : f.muxB < 8) :
    ∃ j, v3dQpuAddUnpack f prev = some j ∧ AddTrip i j := by
  have ⟨_, hfirst, hbox, _, _, _, hpacks⟩ := h
  simp only [addFirst, addBox, addPackPacks, hclass, decide_eq_true_eq,
    bind_eq_bind] at hfirst hbox hpacks
  split_ifs at hpacks with hnone
  rw [not_or, not_not, not_not] at hnone
  obtain ⟨x, hx, hpacks⟩ := bind_eq_some_iff.1 hpacks
  obtain ⟨hx5, hunpack⟩ := float16Unpack hx
  obtain ⟨hargs, hbase, hopOf, hload, h1, h2, h3⟩ := float16_facts hclass
  obtain ⟨hw, hm⟩ := h.dest (by rw [hargs])
  have hA : (addBase i d).muxA = i.a := by simp [addBase, hfirst.1]
  have hB : (addBase i d).muxB = i.b := by simp [addBase, hfirst.1]
  obtain ⟨hlo, hhi, hmap, hget⟩ := float16_word d.opcodeFirst hfirst.2 x hx5
  cases hpacks
  have hlookup := lookupOpcode_of_boxFind hbox hlo hhi (testBit_anyMux _ ha) (testBit_anyMux _ hb)
  rw [← hmap] at hlookup
  refine ⟨_, addUnpack_eq (j := ⟨i.op, prev.a, prev.b, prev.waddr, prev.magicWrite,
    .none, i.aUnpack, .none⟩)
    hlookup (by rw [h.base, hbase, hopOf]) ?_ (by simp [hload]), ?_⟩
  · simp only [addUnpackPacks, hclass, bind_eq_bind]
    rw [show (addBase i d).op = d.opcodeFirst from rfl, hget, hunpack, bind_some]
  · refine .of_same ⟨by simp [hclass], by simp [h1, h2], h3⟩ ?_
    exact ⟨rfl, fun _ => ⟨hw.symm, hm.symm, hnone.1⟩, fun _ => ⟨hA.symm, rfl⟩,
      fun _ => ⟨hB.symm, hnone.2⟩⟩

end

/-- Operations without packs do not commute. -/
theorem plain_facts (h : op.packClass = .plain) : op ≠ .faddnf ∧ op ≠ .fmax ∧ ¬ op.commutative := by
  unfold AddOp.commutative
  cases op <;> first | decide | cases h

/-- The word of an operation unpacks to this operation, exactly if it is packed right. -/
theorem addUnpack_of_addPack (h : v3dQpuAddPack i = some f) (ha : f.muxA < 8) (hb : f.muxB < 8)
    (prev : AluOp AddOp) : ∃ j, v3dQpuAddUnpack f prev = some j ∧ AddTrip i j := by
  obtain ⟨d, e, hentry⟩ := addPack_some h
  cases hclass : i.op.packClass with
  | float32 => exact add_float32 hclass hentry ha hb prev
  | round => exact add_round hentry ha prev hclass
  | toInt => exact add_toInt hentry ha prev hclass
  | float16 => exact add_float16 hentry ha prev hclass hb
  | move => cases hop : i.op <;> rw [hop] at hclass <;> cases hclass
  | plain =>
    obtain ⟨j, hj, hsame⟩ := add_plain hclass hentry ha hb prev
    obtain ⟨h1, h2, hcomm⟩ := plain_facts hclass
    have hholds : AddHolds i ↔ i.op ≠ .iid :=
      ⟨AddHolds.iid, fun h => ⟨by simp [hclass], by simp [h1, h2], h⟩⟩
    rw [← hholds] at hsame
    refine ⟨j, hj, ?_, fun _ => hsame⟩
    rw [← hsame, or_iff_left (fun h => hcomm h.1)]

end Mesa3D.Qpu
