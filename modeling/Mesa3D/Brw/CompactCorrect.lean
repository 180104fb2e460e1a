import Mesa3D.Brw.Compact

/-!
# Uncompacting a compacted instruction

The fields that `brw_uncompact_instruction` writes hold what the instruction before compaction had
there: a table entry was chosen because it equals the bits that it stands for, and the other fields
are copied. So the result differs from the instruction at most in the bits that no field covers.
`has_unmapped_bits` rejects the instruction if some of them are set and others are reserved, but two
groups are left. Without an immediate the seven top bits have no place in the compacted form, and
only the end-of-thread bit of `send` and `sendc` is checked. The destination register of a
three-source instruction has eight bits and its compacted field seven.
-/

namespace Mesa3D.Brw

open Mesa3D.Bits Nat
open CompactField (controlIndex datatypeIndex subregIndex src0Index
  src1Index src0RegNr src1RegNr dstRegNr
  controlIndex3src sourceIndex3src)
open Option (bind_eq_some_iff some.inj some.injEq)
open Field List

/-! ### Gathering and scattering bits -/

/-- ORing a small number under a shifted one adds it. -/
theorem shiftLeft_or {a b k : ℕ} (h : b < 2 ^ k) : a <<< k ||| b = a * 2 ^ k + b := by
  rw [← shiftLeft_add_eq_or_of_lt h, shiftLeft_eq]

/-- A field of a native instruction fits its width. -/
theorem bits_lt (inst : BrwInst) (r : BitRange) : brwInstBits inst r < 2 ^ (r.high - r.low + 1) :=
  getField_lt inst r.high r.low

/-- A field of a compacted instruction fits its width. -/
theorem compactBits_lt (inst : BrwCompactInst) (r : BitRange) :
    brwCompactInstBits inst r < 2 ^ (r.high - r.low + 1) := getField_lt inst r.high r.low

variable {r : BitRange} {c : BrwCompactInst} {d : DeviceInfo} {imm : Bool} {p inst inst' : BrwInst}

/-- What an index that was found stands for. -/
theorem setIndex_spec {table : List ℕ} {dst : BrwCompactInst} {u : ℕ}
    (h : setIndex table r dst u = some c) :
    ∃ i, c = brwCompactInstSetBits dst r i ∧ i < table.length ∧ table.getD i 0 = u := by
  obtain ⟨i, hi, rfl⟩ := Option.map_eq_some_iff.mp h
  obtain ⟨hlt, hval, -⟩ := findIdx?_eq_some_iff_getElem.mp hi
  refine ⟨i, rfl, hlt, ?_⟩
  rw [getD_eq_getElem _ _ hlt]
  simpa using hval

/-- Every table has the 32 entries that a five-bit index reaches. -/
theorem length_table (d : DeviceInfo) :
    ∀ table ∈ [controlIndexTable d, datatypeTable d, subregTable d, srcIndexTable d],
      table.length = 32 := by
  simp only [forall_mem_cons, controlIndexTable, datatypeTable, subregTable, srcIndexTable]
  split_ifs <;> decide

/-! ### The fields of the compacted instruction -/

/-- What the fields of a compacted instruction with at most two sources say about the instruction
that was compacted. -/
structure Compacted (d : DeviceInfo) (p : BrwInst) (imm : Bool) (c : BrwCompactInst) : Prop where
  /-- The opcode. -/
  opcode : brwCompactInstBits c CompactField.opcode = brwInstBits p opcode
  /-- The debug bit. -/
  debugControl : brwCompactInstBits c CompactField.debugControl = brwInstBits p debugControl
  /-- The index of the control bits. -/
  control : (controlIndexTable d).getD (brwCompactInstBits c controlIndex) 0 =
    controlBits d p
  /-- The index of the data types. -/
  datatype : (datatypeTable d).getD (brwCompactInstBits c datatypeIndex) 0 =
    datatypeBits d p
  /-- The index of the subregisters. -/
  subreg : (subregTable d).getD (brwCompactInstBits c subregIndex) 0 =
    subregBits p imm
  /-- The bit for accumulator writes. -/
  accWrControl : brwCompactInstBits c CompactField.accWrControl = brwInstBits p accWrControl
  /-- The condition. -/
  condModifier : brwCompactInstBits c CompactField.condModifier = brwInstBits p condModifier
  /-- The flag subregister, which later generations have among the control bits. -/
  flagSubregNr : d.gen ≤ 6 →
    brwCompactInstBits c CompactField.flagSubregNr = brwInstBits p (flagSubregNr d)
  /-- The index of the first source. -/
  src0 : (srcIndexTable d).getD (brwCompactInstBits c src0Index) 0 =
    brwInstBits p ⟨88, 77⟩
  /-- The index of the second source, or bits of the immediate. -/
  src1 : if imm then brwCompactInstBits c src1Index =
      (brwInstBits p immUd >>> 8) &&& 0x1f
    else (srcIndexTable d).getD (brwCompactInstBits c src1Index) 0 =
      brwInstBits p ⟨120, 109⟩
  /-- The destination register. -/
  dstRegNr : brwCompactInstBits c CompactField.dstRegNr = brwInstBits p dstDaRegNr
  /-- The first source register. -/
  src0RegNr : brwCompactInstBits c CompactField.src0RegNr = brwInstBits p src0DaRegNr
  /-- The second source register, or the low byte of the immediate. -/
  src1RegNr : brwCompactInstBits c CompactField.src1RegNr =
    if imm then brwInstBits p immUd &&& 0xff else brwInstBits p src1DaRegNr

/-- The source index that `set_src1_index` stores. -/
theorem setSrc1Index_spec {dst : BrwCompactInst} {src : BrwInst}
    (h : setSrc1Index d dst src imm = some c) :
    ∃ i, c = brwCompactInstSetBits dst src1Index i ∧ i < 32 ∧
      if imm then i = (brwInstBits src immUd >>> 8) &&& 0x1f
      else (srcIndexTable d).getD i 0 = brwInstBits src ⟨120, 109⟩ := by
  unfold setSrc1Index at h
  cases imm with
  | true =>
    simp only [if_true, some.injEq] at h ⊢
    exact ⟨_, h.symm, lt_of_le_of_lt and_le_right (by decide), rfl⟩
  | false =>
    obtain ⟨i, hc, hlt, hval⟩ := setIndex_spec h
    exact ⟨i, hc, length_table d (srcIndexTable d) (by simp) ▸ hlt, hval⟩

/-- The writes of `brw_try_compact_instruction`, with the indices that it found. -/
def compactWrites (d : DeviceInfo) (p : BrwInst) (imm : Bool) (i1 i2 i3 i4 i5 : ℕ) : List Write :=
  [⟨6, 0, brwInstBits p opcode⟩, ⟨7, 7, brwInstBits p debugControl⟩, ⟨12, 8, i1⟩,
    ⟨17, 13, i2⟩, ⟨22, 18, i3⟩, ⟨23, 23, brwInstBits p accWrControl⟩,
    ⟨27, 24, brwInstBits p condModifier⟩] ++
  (if d.gen ≤ 6 then [⟨28, 28, brwInstBits p (flagSubregNr d)⟩] else []) ++
  [⟨29, 29, 1⟩, ⟨34, 30, i4⟩, ⟨39, 35, i5⟩, ⟨47, 40, brwInstBits p dstDaRegNr⟩,
    ⟨55, 48, brwInstBits p src0DaRegNr⟩,
    ⟨63, 56, if imm then brwInstBits p immUd &&& 0xff else brwInstBits p src1DaRegNr⟩]

/-- No two of the writes of the compactor meet. -/
theorem compactWrites_disjoint (d : DeviceInfo) (p : BrwInst) (imm : Bool) (i1 i2 i3 i4 i5 : ℕ) :
    Disjoint (ranges (compactWrites d p imm i1 i2 i3 i4 i5)) := by
  unfold compactWrites
  split <;> exact of_decide_eq_true rfl

/-- The flag subregister is one bit in every generation. -/
theorem flagSubregNr_lt (d : DeviceInfo) (p : BrwInst) : brwInstBits p (flagSubregNr d) < 2 := by
  have h := bits_lt p (flagSubregNr d)
  unfold flagSubregNr at h ⊢
  split_ifs at h ⊢ <;> exact h

/-- With indices below 32, each write of the compactor fits its field. -/
theorem compactWrites_fit {i1 i2 i3 i4 i5 : ℕ} (h1 : i1 < 32) (h2 : i2 < 32) (h3 : i3 < 32)
    (h4 : i4 < 32) (h5 : i5 < 32) : ∀ a ∈ compactWrites d p imm i1 i2 i3 i4 i5, a.Fits 64 := by
  have hsrc1 : (if imm then brwInstBits p immUd &&& 0xff
      else brwInstBits p src1DaRegNr) < 256 := by
    split
    · exact lt_of_le_of_lt and_le_right (by decide)
    · exact bits_lt p src1DaRegNr
  have hflag : ∀ a ∈ (if d.gen ≤ 6 then [⟨28, 28, brwInstBits p (flagSubregNr d)⟩] else []),
      Write.Fits 64 a := by
    split
    · simpa using Write.Fits.mk (flagSubregNr_lt d p)
    · simp
  unfold compactWrites
  rw [forall_mem_append, forall_mem_append]
  refine ⟨⟨?_, hflag⟩, ?_⟩ <;> simp only [forall_mem_cons, not_mem_nil, false_imp_iff,
    implies_true, and_true]
  · exact ⟨.mk (bits_lt p opcode), .mk (bits_lt p debugControl), .mk h1, .mk h2, .mk h3,
      .mk (bits_lt p accWrControl), .mk (bits_lt p condModifier)⟩
  · exact ⟨.mk (by decide), .mk h4, .mk h5, .mk (bits_lt p dstDaRegNr), .mk (bits_lt p src0DaRegNr),
      .mk hsrc1⟩

/-- A compacted instruction holds the indices it found and the fields copied beside them. -/
theorem compactFields_spec (h : compactFields d p imm = some c) : Compacted d p imm c := by
  simp only [compactFields, setControlIndex, setDatatypeIndex, setSubregIndex, setSrc0Index,
    Option.bind_eq_bind, bind_eq_some_iff, Option.pure_def, some.injEq] at h
  obtain ⟨_, h1, _, h2, _, h3, _, h4, _, h5, h6⟩ := h
  obtain ⟨i1, rfl, l1, e1⟩ := setIndex_spec h1
  obtain ⟨i2, rfl, l2, e2⟩ := setIndex_spec h2
  obtain ⟨i3, rfl, l3, e3⟩ := setIndex_spec h3
  obtain ⟨i4, rfl, l4, e4⟩ := setIndex_spec h4
  obtain ⟨i5, rfl, l5, e5⟩ := setSrc1Index_spec h5
  rw [length_table d _ (by simp)] at l1 l2 l3 l4
  clear h1 h2 h3 h4 h5
  have hc : c = applyWrites 0 (compactWrites d p imm i1 i2 i3 i4 i5) := by
    rw [← h6]
    unfold compactWrites
    split_ifs <;> rfl
  have hread : ∀ {high low v : ℕ}, ⟨high, low, v⟩ ∈ compactWrites d p imm i1 i2 i3 i4 i5 →
      brwCompactInstBits c ⟨high, low⟩ = v := fun ha =>
    hc ▸ getField_applyWrites (compactWrites_disjoint d p imm i1 i2 i3 i4 i5)
      (compactWrites_fit l1 l2 l3 l4 l5) 0 ha
  unfold compactWrites at hread
  refine ⟨hread (by simp), hread (by simp), ?_, ?_, ?_, hread (by simp), hread (by simp),
    fun hg => hread (by simp [hg]), ?_, ?_, hread (by simp), hread (by simp), hread (by simp)⟩
  · rw [show brwCompactInstBits c controlIndex = i1 from hread (by simp), e1]
  · rw [show brwCompactInstBits c datatypeIndex = i2 from hread (by simp), e2]
  · rw [show brwCompactInstBits c subregIndex = i3 from hread (by simp), e3]
  · rw [show brwCompactInstBits c src0Index = i4 from hread (by simp), e4]
  · rw [show brwCompactInstBits c src1Index = i5 from hread (by simp)]
    exact e5

/-! ### The fields that uncompacting writes -/

/-- Masking with the low `n` bits is the remainder by `2 ^ n`. -/
theorem and_mask (n : ℕ) {m : ℕ} (h : m = 2 ^ n - 1) (x : ℕ) : x &&& m = x % 2 ^ n :=
  h ▸ and_two_pow_sub_one_eq_mod x n

/-- The write that `brw_inst_set_bits` makes. -/
def nativeWrite (r : BitRange) (v : ℕ) : Write :=
  ⟨r.high, r.low, v % 2 ^ (64 - r.low % 64)⟩

/-- The range is not empty and lies in one half of the instruction. -/
def BitRange.Valid (r : BitRange) : Prop :=
  r.low ≤ r.high ∧ r.high / 64 = r.low / 64

instance (r : BitRange) : Decidable r.Valid :=
  inferInstanceAs (Decidable (_ ∧ _))

/-- `brw_inst_set_bits` does not cut a value that fits the field. -/
theorem mod_eq_of_fits {v : ℕ} (hr : r.Valid) (hv : v < 2 ^ (r.high - r.low + 1)) :
    v % 2 ^ (64 - r.low % 64) = v := by
  obtain ⟨hle, hhalf⟩ := hr
  exact Nat.mod_eq_of_lt (Nat.lt_of_lt_of_le hv (Nat.pow_le_pow_right (by decide) (by omega)))

/-- Writing to a field the value it has in `p` stays faithful to `p`. -/
theorem faithful_native {v : ℕ} {ws : List Write} (hv : v = brwInstBits p r) (h : Faithful p ws)
    (hr : r.Valid := by decide) : Faithful p (nativeWrite r v :: ws) := by
  refine .write hr.1 ?_ h
  rw [mod_eq_of_fits hr (hv ▸ bits_lt p r)]
  exact hv

/-! ### The bits that an index stands for -/

/-- Fields of an instruction, shifted to their places and ORed together. -/
def gather (p : BrwInst) (fs : List (BitRange × ℕ)) : ℕ :=
  fs.foldr (fun f u => (brwInstBits p f.1 <<< f.2) ||| u) 0

/-- Each field has its place above the fields that follow. -/
def Packed (fs : List (BitRange × ℕ)) : Prop :=
  fs.Pairwise fun f g => g.2 + (g.1.high - g.1.low) < f.2

instance (fs : List (BitRange × ℕ)) : Decidable (Packed fs) :=
  inferInstanceAs (Decidable (Pairwise _ _))

variable {f : BitRange × ℕ} {fs : List (BitRange × ℕ)}

/-- The fields below a packed field stay under its place. -/
theorem gather_lt (h : Packed (f :: fs)) : gather p fs < 2 ^ f.2 := by
  induction fs generalizing f with
  | nil => exact Nat.two_pow_pos _
  | cons g fs ih =>
    obtain ⟨hg, hfs⟩ := pairwise_cons.mp h
    refine or_lt_two_pow ?_ ((ih hfs).trans_le (Nat.pow_le_pow_right (by decide) ?_))
    · rw [shiftLeft_eq]
      calc brwInstBits p g.1 * 2 ^ g.2 < 2 ^ (g.1.high - g.1.low + 1) * 2 ^ g.2 :=
            Nat.mul_lt_mul_of_pos_right (bits_lt p g.1) (Nat.two_pow_pos _)
        _ ≤ 2 ^ f.2 := by
            rw [← Nat.pow_add]
            exact Nat.pow_le_pow_right (by decide) (by have := hg g mem_cons_self; omega)
    · have := hg g mem_cons_self
      omega

/-- Packed fields add up instead of overlapping. -/
theorem gather_cons (h : Packed (f :: fs)) :
    gather p (f :: fs) = brwInstBits p f.1 * 2 ^ f.2 + gather p fs := shiftLeft_or (gather_lt h)

/-- The first field is all that is above its place. -/
theorem gather_shiftRight (h : Packed (f :: fs)) :
    gather p (f :: fs) >>> f.2 = brwInstBits p f.1 := by
  rw [gather_cons h, shiftRight_eq_div_pow, Nat.add_comm,
    Nat.add_mul_div_right _ _ (Nat.two_pow_pos _),
    Nat.div_eq_of_lt (gather_lt h), Nat.zero_add]

/-- Each field is found at its place. -/
theorem gather_and (h : Packed fs) (hf : f ∈ fs) {m : ℕ}
    (hm : m = 2 ^ (f.1.high - f.1.low + 1) - 1) :
    (gather p fs >>> f.2) &&& m = brwInstBits p f.1 := by
  rw [and_mask _ hm]
  induction fs with
  | nil => cases hf
  | cons g fs ih =>
    rcases mem_cons.mp hf with rfl | hf
    · rw [gather_shiftRight h, mod_eq_of_lt (bits_lt p f.1)]
    · obtain ⟨hg, hfs⟩ := pairwise_cons.mp h
      have hsplit : 2 ^ g.2 = 2 ^ f.2 * (2 ^ (f.1.high - f.1.low + 1) *
          2 ^ (g.2 - (f.2 + (f.1.high - f.1.low + 1)))) := by
        rw [← Nat.pow_add, ← Nat.pow_add]
        congr 1
        have := hg f hf
        omega
      rw [← ih hfs hf, gather_cons h, hsplit, shiftRight_eq_div_pow,
        shiftRight_eq_div_pow, Nat.add_comm,
        Nat.mul_left_comm, Nat.add_mul_div_left _ _ (Nat.two_pow_pos _), Nat.mul_left_comm,
          Nat.add_mul_mod_self_left]

/-- A field is written back from its place. -/
theorem faithful_gather {ws : List Write} {k m : ℕ} (h : Faithful p ws)
    (hp : Packed fs := by decide)
    (hf : (r, k) ∈ fs := by simp) (hm : m = 2 ^ (r.high - r.low + 1) - 1 := by rfl)
    (hr : r.Valid := by decide) :
    Faithful p (nativeWrite r ((gather p fs >>> k) &&& m) :: ws) :=
  faithful_native (gather_and hp hf hm) h hr

/-! ### Immediates -/

/-- The mask of the high 20 bits clears the low 12. -/
theorem and_high20 {imm : ℕ} (h : imm < 2 ^ 32) : imm &&& 0xfffff000 = (imm >>> 12) <<< 12 := by
  apply eq_of_testBit_eq
  intro k
  have hmask : (0xfffff000 : ℕ) = (2 ^ 20 - 1) <<< 12 := by decide
  rw [hmask]
  simp only [testBit_and, testBit_shiftLeft, testBit_two_pow_sub_one, testBit_shiftRight]
  by_cases h1 : 12 ≤ k
  · by_cases h2 : k - 12 < 20
    · simp [h1, h2]
    · have : imm.testBit k = false :=
        Nat.testBit_lt_two_pow (Nat.lt_of_lt_of_le h (Nat.pow_le_pow_right (by decide) (by omega)))
      simp [h1, h2, this]
  · simp [h1]

/-- A compactable immediate is put together again from its low byte and five more bits. -/
theorem replicateHigh5_or {imm : ℕ} (h : imm < 2 ^ 32) (hc : isCompactableImmediate imm = true) :
    replicateHigh5 ((imm >>> 8) &&& 0x1f) ||| (imm &&& 0xff) = imm := by
  have hlow : ∀ k < 16, replicateHigh5 k = k <<< 8 := by decide
  have hhigh : ∀ k < 16, replicateHigh5 (k + 16) = (0xfffff0 + k) <<< 8 := by decide
  simp only [isCompactableImmediate, and_high20 h, Bool.or_eq_true, beq_iff_eq, shiftLeft_eq,
    shiftRight_eq_div_pow] at hc
  rw [and_mask 5 (m := 0x1f) rfl, and_mask 8 (m := 0xff) rfl, shiftRight_eq_div_pow]
  have hbyte : imm % 2 ^ 8 < 2 ^ 8 := mod_lt _ (by decide)
  rcases hc with hc | hc
  · have hidx : imm / 2 ^ 8 % 2 ^ 5 = imm / 2 ^ 8 := by omega
    rw [hidx, hlow _ (by omega), shiftLeft_or hbyte]
    exact div_add_mod' imm (2 ^ 8)
  · have hidx : imm / 2 ^ 8 % 2 ^ 5 = imm / 2 ^ 8 % 16 + 16 := by omega
    have hdiv : 0xfffff0 + imm / 2 ^ 8 % 16 = imm / 2 ^ 8 := by omega
    rw [hidx, hhigh _ (by omega), hdiv, shiftLeft_or hbyte]
    exact div_add_mod' imm (2 ^ 8)

/-! ### Uncompacting as a list of writes -/

section

variable (d : DeviceInfo) (c : BrwCompactInst)

/-- The writes of `set_uncompacted_control`. -/
def controlWrites : List Write :=
  let u := (controlIndexTable d).getD (brwCompactInstBits c controlIndex) 0
  if 8 ≤ d.gen then
    [nativeWrite ⟨33, 31⟩ (u >>> 16), nativeWrite ⟨23, 12⟩ ((u >>> 4) &&& 0xfff),
      nativeWrite ⟨10, 9⟩ ((u >>> 2) &&& 0x3), nativeWrite ⟨34, 34⟩ ((u >>> 1) &&& 0x1),
      nativeWrite ⟨8, 8⟩ ((u >>> 0) &&& 0x1)]
  else if d.gen = 7 then
    [nativeWrite ⟨31, 31⟩ ((u >>> 16) &&& 0x1), nativeWrite ⟨23, 8⟩ (u &&& 0xffff),
      nativeWrite ⟨90, 89⟩ (u >>> 17)]
  else [nativeWrite ⟨31, 31⟩ ((u >>> 16) &&& 0x1), nativeWrite ⟨23, 8⟩ (u &&& 0xffff)]

/-- The writes of `set_uncompacted_datatype`. -/
def datatypeWrites : List Write :=
  let u := (datatypeTable d).getD (brwCompactInstBits c datatypeIndex) 0
  if 8 ≤ d.gen then
    [nativeWrite ⟨63, 61⟩ (u >>> 18), nativeWrite ⟨94, 89⟩ ((u >>> 12) &&& 0x3f),
      nativeWrite ⟨46, 35⟩ ((u >>> 0) &&& 0xfff)]
  else [nativeWrite ⟨63, 61⟩ (u >>> 15), nativeWrite ⟨46, 32⟩ (u &&& 0x7fff)]

/-- The writes of `uncompactHead`. -/
def headWrites : List Write :=
  [nativeWrite opcode (brwCompactInstBits c CompactField.opcode),
    nativeWrite debugControl (brwCompactInstBits c CompactField.debugControl)] ++
  controlWrites d c ++ datatypeWrites d c

/-- The writes of `uncompactTail` with the values for src1. -/
def tailWrites (src1 src1' : Write) : List Write :=
  let u := (subregTable d).getD (brwCompactInstBits c subregIndex) 0
  [nativeWrite ⟨100, 96⟩ (u >>> 10), nativeWrite ⟨68, 64⟩ ((u >>> 5) &&& 0x1f),
    nativeWrite ⟨52, 48⟩ ((u >>> 0) &&& 0x1f),
    nativeWrite accWrControl (brwCompactInstBits c CompactField.accWrControl),
    nativeWrite condModifier (brwCompactInstBits c CompactField.condModifier)] ++
  (if d.gen ≤ 6 then
    [nativeWrite (flagSubregNr d) (brwCompactInstBits c CompactField.flagSubregNr)]
  else []) ++
  [nativeWrite ⟨88, 77⟩ ((srcIndexTable d).getD (brwCompactInstBits c src0Index) 0),
    src1, nativeWrite dstDaRegNr (brwCompactInstBits c dstRegNr),
    nativeWrite src0DaRegNr (brwCompactInstBits c src0RegNr), src1']

/-- Writes in two lists apply one list after the other. -/
theorem applyWrites_append (x : BrwInst) (ws ws' : List Write) :
    applyWrites x (ws ++ ws') = applyWrites (applyWrites x ws) ws' := foldl_append

/-- The first half of the uncompactor, up to the sources, as a list of writes. -/
theorem uncompactHead_eq : uncompactHead d c = applyWrites 0 (headWrites d c) := by
  simp only [uncompactHead, headWrites, setUncompactedControl, setUncompactedDatatype,
    controlWrites, datatypeWrites]
  split_ifs <;> rfl

/-- The writes of `uncompactTail` without an immediate. -/
def tailWritesReg : List Write :=
  tailWrites d c
    (nativeWrite ⟨120, 109⟩ ((srcIndexTable d).getD (brwCompactInstBits c src1Index) 0))
    (nativeWrite src1DaRegNr (brwCompactInstBits c src1RegNr))

/-- The writes of `uncompactTail` with an immediate. -/
def tailWritesImm : List Write :=
  tailWrites d c
    (nativeWrite immUd (replicateHigh5 (brwCompactInstBits c src1Index)))
    (nativeWrite immUd (replicateHigh5 (brwCompactInstBits c src1Index) |||
      brwCompactInstBits c src1RegNr))

/-- The second half of the uncompactor for a register as second source. -/
theorem uncompactTail_eq_reg (dst : BrwInst) :
    uncompactTail d dst c false = applyWrites dst (tailWritesReg d c) := by
  simp only [uncompactTail, tailWritesReg, tailWrites, setUncompactedSubreg, setUncompactedSrc0,
    setUncompactedSrc1, Bool.false_eq_true, if_false]
  split_ifs <;> rfl

/-- An immediate replicated from its high bit fits 32 bits. -/
theorem replicateHigh5_lt (n : ℕ) : replicateHigh5 n < 2 ^ 32 := BitVec.isLt _

/-- The second half of the uncompactor for an immediate as second source. -/
theorem uncompactTail_eq_imm (dst : BrwInst) :
    uncompactTail d dst c true = applyWrites dst (tailWritesImm d c) := by
  have hkeep : ∀ (x : BrwInst) (v v' : ℕ), v < 2 ^ 8 → v' < 2 ^ 8 →
      brwInstBits (brwInstSetBits (brwInstSetBits (brwInstSetBits x immUd
        (replicateHigh5 (brwCompactInstBits c src1Index)))
        dstDaRegNr v) src0DaRegNr v') immUd =
      replicateHigh5 (brwCompactInstBits c src1Index) := by
    intro x v v' hv hv'
    unfold brwInstSetBits brwInstBits
    rw [mod_eq_of_fits (r := src0DaRegNr) (by decide) hv',
      mod_eq_of_fits (r := dstDaRegNr) (by decide) hv,
      mod_eq_of_fits (r := immUd) (by decide) (replicateHigh5_lt _),
      getField_setField_of_disjoint (by decide) (by decide) (by decide) hv',
      getField_setField_of_disjoint (by decide) (by decide) (by decide) hv,
      getField_setField_self (by decide) (by decide) (replicateHigh5_lt _)]
  have h8 : brwCompactInstBits c dstRegNr < 2 ^ 8 := compactBits_lt c _
  have h8' : brwCompactInstBits c src0RegNr < 2 ^ 8 := compactBits_lt c _
  simp only [uncompactTail, tailWritesImm, tailWrites, setUncompactedSubreg, setUncompactedSrc0,
    setUncompactedSrc1, if_true, hkeep _ _ _ h8 h8']
  split_ifs <;> rfl

end

/-! ### The writes are those of the instruction before compaction -/

/-- The control index gives back the bits that it was looked up with. -/
theorem controlWrites_faithful (h : Compacted d p imm c) : Faithful p (controlWrites d c) := by
  unfold controlWrites
  dsimp only
  rw [h.control]
  split_ifs with hg hg7
  · have hbits : controlBits d p =
        gather p [(⟨33, 31⟩, 16), (⟨23, 12⟩, 4), (⟨10, 9⟩, 2), (⟨34, 34⟩, 1), (⟨8, 8⟩, 0)] := by
      have hg7 : d.gen ≠ 7 := by omega
      simp [controlBits, gather, hg, hg7, Nat.or_assoc]
    rw [hbits]
    exact faithful_native (gather_shiftRight (by decide)) <| faithful_gather <| faithful_gather <|
      faithful_gather <| faithful_gather .nil
  · have hbits : controlBits d p = gather p [(⟨90, 89⟩, 17), (⟨31, 31⟩, 16), (⟨23, 8⟩, 0)] := by
      simp [controlBits, gather, hg7, Nat.or_comm]
    have hp : Packed [(⟨90, 89⟩, 17), (⟨31, 31⟩, 16), (⟨23, 8⟩, 0)] := by decide
    rw [hbits]
    exact faithful_gather <| faithful_gather (k := 0)
      (faithful_native (gather_shiftRight hp) .nil) hp
  · have hbits : controlBits d p = gather p [(⟨31, 31⟩, 16), (⟨23, 8⟩, 0)] := by
      simp [controlBits, gather, hg, hg7]
    have hp : Packed [(⟨31, 31⟩, 16), (⟨23, 8⟩, 0)] := by decide
    rw [hbits]
    exact faithful_gather <| faithful_gather (k := 0) .nil hp

/-- The data type index gives back the bits that it was looked up with. -/
theorem datatypeWrites_faithful (h : Compacted d p imm c) : Faithful p (datatypeWrites d c) := by
  unfold datatypeWrites
  dsimp only
  rw [h.datatype]
  split_ifs with hg
  · have hbits : datatypeBits d p = gather p [(⟨63, 61⟩, 18), (⟨94, 89⟩, 12), (⟨46, 35⟩, 0)] := by
      simp [datatypeBits, gather, hg, Nat.or_assoc]
    rw [hbits]
    exact faithful_native (gather_shiftRight (by decide)) <| faithful_gather <| faithful_gather .nil
  · have hbits : datatypeBits d p = gather p [(⟨63, 61⟩, 15), (⟨46, 32⟩, 0)] := by
      simp [datatypeBits, gather, hg]
    have hp : Packed [(⟨63, 61⟩, 15), (⟨46, 32⟩, 0)] := by decide
    rw [hbits]
    exact faithful_native (gather_shiftRight hp) <| faithful_gather (k := 0) .nil hp

/-- The first half of the uncompactor is faithful. -/
theorem headWrites_faithful (h : Compacted d p imm c) : Faithful p (headWrites d c) :=
  .append (.append (faithful_native h.opcode <|
    faithful_native h.debugControl .nil) (controlWrites_faithful h))
    (datatypeWrites_faithful h)

/-- The flag subregister, copied by itself up to generation 6, is faithful. -/
theorem flagWrites_faithful (h : Compacted d p imm c) :
    Faithful p (if d.gen ≤ 6 then
      [nativeWrite (flagSubregNr d) (brwCompactInstBits c CompactField.flagSubregNr)]
      else []) := by
  split_ifs with hg
  · refine faithful_native (h.flagSubregNr hg) .nil ?_
    unfold flagSubregNr
    split <;> decide
  · exact .nil

/-- The second half of the uncompactor is faithful for registers. -/
theorem tailWrites_faithful_reg (h : Compacted d p false c) : Faithful p (tailWritesReg d c) := by
  have hbits : subregBits p false = gather p [(⟨100, 96⟩, 10), (⟨68, 64⟩, 5), (⟨52, 48⟩, 0)] := by
    simp [subregBits, gather, Nat.or_comm]
  unfold tailWritesReg tailWrites
  dsimp only
  rw [h.subreg, hbits]
  refine .append (.append ?_ (flagWrites_faithful h)) ?_
  · exact faithful_native (gather_shiftRight (by decide)) <| faithful_gather <| faithful_gather <|
      faithful_native h.accWrControl <| faithful_native h.condModifier .nil
  · exact faithful_native h.src0 <| faithful_native h.src1 <|
      faithful_native h.dstRegNr <| faithful_native h.src0RegNr <| faithful_native h.src1RegNr .nil

/-- The second half of the uncompactor is faithful for the immediates that compact. -/
theorem tailWrites_faithful_imm (h : Compacted d p true c)
    (hcompact : isCompactableImmediate (brwInstBits p immUd) = true) :
    Faithful p (tailWritesImm d c) := by
  have hbits : subregBits p true = gather p [(⟨68, 64⟩, 5), (⟨52, 48⟩, 0)] := by
    simp [subregBits, gather, Nat.or_comm]
  have hlt : gather p [(⟨68, 64⟩, 5), (⟨52, 48⟩, 0)] < 2 ^ 10 :=
    gather_lt (f := (⟨100, 96⟩, 10)) (by decide)
  have hsrc1 : brwCompactInstBits c src1Index = _ := h.src1
  have hreg : brwCompactInstBits c src1RegNr = _ := h.src1RegNr
  have himm : replicateHigh5 (brwCompactInstBits c src1Index) |||
      brwCompactInstBits c src1RegNr = brwInstBits p immUd := by
    rw [hsrc1, hreg]
    exact replicateHigh5_or (bits_lt p immUd) hcompact
  have hhigh : replicateHigh5 (brwCompactInstBits c src1Index) %
      2 ^ (64 - immUd.low % 64) < 2 ^ (immUd.high - immUd.low + 1) := mod_lt _ (by decide)
  unfold tailWritesImm tailWrites
  dsimp only
  rw [h.subreg, hbits, Nat.shiftRight_eq_zero _ _ hlt]
  -- the sub-register of src1 and the upper part of the immediate are overwritten at the end
  refine .overwritten (by decide) (by decide)
    ⟨_, mem_append_right _ (mem_of_getLast? rfl), ?_⟩ ?_
  · exact (by decide : 96 ≤ 96 ∧ 100 ≤ 127)
  refine .append (.append ?_ (flagWrites_faithful h)) ?_
  · exact faithful_gather <| faithful_gather <| faithful_native h.accWrControl <|
      faithful_native h.condModifier .nil
  · exact faithful_native h.src0 <| .overwritten (by decide) hhigh
      ⟨_, mem_of_getLast? rfl, (by decide : 96 ≤ 96 ∧ 127 ≤ 127)⟩ <|
      faithful_native h.dstRegNr <| faithful_native h.src0RegNr <| faithful_native himm .nil

/-! ### One and two sources -/

/-- The data type holds the register files, so uncompacting sees the same immediate. -/
theorem isImmediate_uncompactHead (h : Compacted d p imm c) :
    isImmediate d (uncompactHead d c) = isImmediate d p := by
  have hfile : ∀ r : BitRange, r.low ≤ r.high →
      (∀ i, r.low ≤ i → i ≤ r.high → covers (ranges (headWrites d c)) i = true) →
      brwInstBits (uncompactHead d c) r = brwInstBits p r := fun r hle hcov => by
    rw [uncompactHead_eq]
    exact getField_applyWrites_of_covers (headWrites_faithful h) 0
      (fun i h1 h2 _ => hcov i h1 h2) hle
  unfold isImmediate
  rw [hfile (src0RegFile d), hfile (src1RegFile d)]
  all_goals
    simp only [src0RegFile, src1RegFile, headWrites, controlWrites, datatypeWrites,
      nativeWrite, Bits.ranges, covers]
    split_ifs <;> simp <;> omega

/-- Faithful writes make the instruction exactly if its `lost` bits are zero: those that no write
covers, the `known` ones apart, which are zero. -/
theorem applyWrites_eq_iff_lost {ws : List Write} (h : Faithful p ws) (rs known lost : List (ℕ × ℕ))
    (hrs : ranges ws = rs) (hknown : ∀ r ∈ known, brwInstBits p ⟨r.1, r.2⟩ = 0)
    (hle : ∀ r ∈ known ++ lost, r.2 ≤ r.1 ∧ r.1 < 128)
    (h1 : ∀ i < 128, covers rs i = false → covers (known ++ lost) i = true)
    (h2 : ∀ i < 128, covers lost i = true → covers rs i = false) :
    applyWrites 0 ws = p ↔ ∀ r ∈ lost, brwInstBits p ⟨r.1, r.2⟩ = 0 := by
  rw [applyWrites_zero_eq_iff h, hrs]
  constructor
  · intro hzero r hr
    refine (getField_eq_zero_iff (hle r (by simp [hr])).1).mpr fun i hlow hhigh => ?_
    have hi : i < 128 := lt_of_le_of_lt hhigh (hle r (by simp [hr])).2
    refine hzero i hi (h2 i hi (any_eq_true.mpr ⟨r, hr, ?_⟩))
    simp [hlow, hhigh]
  · intro hlost i hi hcov
    obtain ⟨r, hr, hin⟩ := any_eq_true.mp (h1 i hi hcov)
    simp only [Bool.and_eq_true, decide_eq_true_eq] at hin
    have hfield : brwInstBits p ⟨r.1, r.2⟩ = 0 := (mem_append.mp hr).elim (hknown r) (hlost r)
    exact (getField_eq_zero_iff (hle r hr).1).mp hfield i hin.1 hin.2

/-- The reserved bits of an instruction, which the code asserts to be zero, and the bit that says
whether it is compacted already. -/
def ReservedZero (d : DeviceInfo) (inst : BrwInst) : Prop :=
  brwInstBits inst cmptControl = 0 ∧ brwInstBits inst ⟨7, 7⟩ = 0 ∧
    if is3src d (brwInstBits inst opcode) then
      if wide3src d then brwInstBits inst ⟨127, 127⟩ = 0
      else
        brwInstBits inst ⟨127, 126⟩ = 0 ∧ brwInstBits inst ⟨105, 105⟩ = 0 ∧
          brwInstBits inst ⟨84, 84⟩ = 0 ∧ brwInstBits inst ⟨36, 35⟩ = 0
    else d.gen < 7 → brwInstBits inst ⟨90, 90⟩ = 0

instance (d : DeviceInfo) (inst : BrwInst) : Decidable (ReservedZero d inst) := by
  unfold ReservedZero
  infer_instance

/-- The bits that `has_unmapped_bits` found to be zero. -/
theorem unmapped_zero (h : hasUnmappedBits d p = false) :
    brwInstBits p ⟨47, 47⟩ = 0 ∧
      if 8 ≤ d.gen then brwInstBits p ⟨95, 95⟩ = 0 ∧ brwInstBits p ⟨11, 11⟩ = 0
      else brwInstBits p ⟨95, 91⟩ = 0 := by
  unfold hasUnmappedBits at h
  split_ifs at h ⊢
  · simp only [Bool.or_eq_false_iff, bne_eq_false_iff_eq] at h
    exact ⟨h.1.2, h.1.1, h.2⟩
  · simp only [Bool.or_eq_false_iff, bne_eq_false_iff_eq] at h
    exact ⟨h.2, h.1⟩

/-- The fields that uncompacting writes, for an instruction with or without an immediate. -/
def uncompactedRanges (d : DeviceInfo) (src1 src1' : ℕ × ℕ) : List (ℕ × ℕ) :=
  [(6, 0), (30, 30)] ++
  (if 8 ≤ d.gen then [(33, 31), (23, 12), (10, 9), (34, 34), (8, 8), (63, 61), (94, 89), (46, 35)]
    else if d.gen = 7 then [(31, 31), (23, 8), (90, 89), (63, 61), (46, 32)]
    else [(31, 31), (23, 8), (63, 61), (46, 32)]) ++
  [(100, 96), (68, 64), (52, 48), (28, 28), (27, 24)] ++ (if d.gen ≤ 6 then [(89, 89)] else []) ++
  [(88, 77), src1, (60, 53), (76, 69), src1']

/-- The ranges that the uncompactor writes depend on the generation and the last two writes only. -/
theorem ranges_uncompact (d : DeviceInfo) (c : BrwCompactInst) (src1 src1' : Write) :
    ranges (headWrites d c ++ tailWrites d c src1 src1') =
      uncompactedRanges d (src1.high, src1.low) (src1'.high, src1'.low) := by
  simp only [headWrites, controlWrites, datatypeWrites, tailWrites, uncompactedRanges, flagSubregNr]
  split_ifs <;> first | rfl | omega

/-- The bits that are known to be zero once an instruction with at most two sources was
compacted. -/
def knownZero (d : DeviceInfo) : List (ℕ × ℕ) :=
  if 8 ≤ d.gen then [(29, 29), (7, 7), (47, 47), (95, 95), (11, 11)]
  else if d.gen = 7 then [(29, 29), (7, 7), (47, 47), (95, 91)]
  else [(29, 29), (7, 7), (47, 47), (95, 91), (90, 90)]

section

variable (hreserved : ReservedZero d p) (h3src : is3src d (brwInstBits p opcode) = false)
  (hmapped : hasUnmappedBits d p = false)
include hreserved h3src hmapped

/-- The bits outside what compaction covers are zero by the reserved bits and the checks. -/
theorem knownZero_spec : ∀ r ∈ knownZero d, brwInstBits p ⟨r.1, r.2⟩ = 0 := by
  obtain ⟨hcmpt, h7, h90⟩ := hreserved
  rw [h3src, if_neg (by decide)] at h90
  obtain ⟨h47, hrest⟩ := unmapped_zero hmapped
  unfold knownZero
  split_ifs with h8 hg7
  · rw [if_pos h8] at hrest
    simpa using ⟨hcmpt, h7, h47, hrest⟩
  · rw [if_neg h8] at hrest
    simpa using ⟨hcmpt, h7, h47, hrest⟩
  · rw [if_neg h8] at hrest
    simpa using ⟨hcmpt, h7, h47, hrest, h90 (by omega)⟩

/-- Without an immediate, the seven top bits are lost. -/
theorem uncompactWrites_eq_iff_reg (h : Compacted d p false c) :
    uncompactTail d (uncompactHead d c) c false = p ↔ brwInstBits p ⟨127, 121⟩ = 0 := by
  rw [uncompactTail_eq_reg, uncompactHead_eq, ← applyWrites_append]
  rw [applyWrites_eq_iff_lost ((headWrites_faithful h).append (tailWrites_faithful_reg h))
    (uncompactedRanges d (120, 109) (108, 101)) (knownZero d) [(127, 121)]
    (ranges_uncompact d c _ _) (knownZero_spec hreserved h3src hmapped)]
  · simp
  all_goals
    simp only [knownZero, uncompactedRanges]
    split_ifs <;> first | decide | omega

/-- With an immediate, nothing is lost. -/
theorem uncompactWrites_eq_imm (h : Compacted d p true c)
    (hcompact : isCompactableImmediate (brwInstBits p immUd) = true) :
    uncompactTail d (uncompactHead d c) c true = p := by
  rw [uncompactTail_eq_imm, uncompactHead_eq, ← applyWrites_append]
  rw [applyWrites_eq_iff_lost ((headWrites_faithful h).append (tailWrites_faithful_imm h hcompact))
    (uncompactedRanges d (127, 96) (127, 96)) (knownZero d) []
    (ranges_uncompact d c _ _) (knownZero_spec hreserved h3src hmapped)]
  · simp
  all_goals
    simp only [knownZero, uncompactedRanges]
    split_ifs <;> first | decide | omega

end

/-! ### Three sources -/

/-- The fields of the control index of three sources. -/
def controlFields3src (d : DeviceInfo) : List (BitRange × ℕ) :=
  (if wide3src d then [(⟨36, 35⟩, 24)] else []) ++ [(⟨34, 32⟩, 21), (⟨28, 8⟩, 0)]

/-- The fields of the source index of three sources. -/
def sourceFields3src (d : DeviceInfo) : List (BitRange × ℕ) :=
  (if wide3src d then [(⟨126, 125⟩, 47), (⟨105, 104⟩, 45), (⟨84, 84⟩, 44)]
    else [(⟨125, 125⟩, 45), (⟨104, 104⟩, 44)]) ++
  [(⟨83, 83⟩, 43), (⟨114, 107⟩, 35), (⟨93, 86⟩, 27), (⟨72, 65⟩, 19), (⟨55, 37⟩, 0)]

/-- The bits looked up for three sources are the packed fields. -/
theorem bits3src_eq (d : DeviceInfo) (p : BrwInst) :
    controlBits3src d p = gather p (controlFields3src d) ∧
    sourceBits3src d p = gather p (sourceFields3src d) := by
  unfold controlBits3src sourceBits3src controlFields3src sourceFields3src
  split_ifs <;> simp [gather, Nat.or_comm, Nat.or_assoc, Nat.or_left_comm]

/-- The fields of the compacted form behind the compaction bit, and those that they are copied
from. -/
def copied3src : List (BitRange × BitRange) :=
  [(CompactField.debugControl3src, debugControl3src),
    (CompactField.saturate3src, saturate3src),
    (CompactField.src1RepCtrl3src, src1RepCtrlA16),
    (CompactField.src2RepCtrl3src, src2RepCtrlA16),
    (CompactField.src0RegNr3src, src0RegNr3src),
    (CompactField.src1RegNr3src, src1RegNr3src),
    (CompactField.src2RegNr3src, src2RegNr3src),
    (CompactField.src0SubregNr3src, src0SubregNrA16),
    (CompactField.src1SubregNr3src, src1SubregNrA16),
    (CompactField.src2SubregNr3src, src2SubregNrA16)]

/-- The writes of `brw_try_compact_3src_instruction` behind the opcode. -/
def compactWrites3src (p : BrwInst) (i1 i2 : ℕ) : List Write :=
  [⟨9, 8, i1⟩, ⟨11, 10, i2⟩, ⟨18, 12, brwInstBits p dstRegNr3src⟩,
    ⟨28, 28, brwInstBits p src0RepCtrlA16⟩, ⟨29, 29, 1⟩] ++
  copied3src.map fun f => ⟨f.1.high, f.1.low, brwInstBits p f.2⟩

/-- The compactor for three sources is a list of writes with two indices it found. -/
theorem brwTryCompact3srcInstruction_eq (h : brwTryCompact3srcInstruction d p = some c) :
    ∃ i1 i2, i1 < 4 ∧ i2 < 4 ∧ gen83srcControlIndexTable.getD i1 0 = controlBits3src d p ∧
      gen83srcSourceIndexTable.getD i2 0 = sourceBits3src d p ∧
      c = applyWrites 0 (⟨6, 0, brwInstBits p opcode⟩ :: compactWrites3src p i1 i2) := by
  simp only [brwTryCompact3srcInstruction, Option.bind_eq_bind, bind_eq_some_iff,
    Option.pure_def, some.injEq] at h
  obtain ⟨_, h1, _, h2, h3⟩ := h
  obtain ⟨i1, rfl, l1, e1⟩ := setIndex_spec h1
  obtain ⟨i2, rfl, l2, e2⟩ := setIndex_spec h2
  exact ⟨i1, i2, l1, l2, e1, e2, h3.symm⟩

/-- The table has zeros for the top bits of the three source registers. -/
theorem regNr_lt_of_source {i : ℕ} (h : gen83srcSourceIndexTable.getD i 0 = sourceBits3src d p)
    (hi : i < 4) :
    brwInstBits p src0RegNr3src < 2 ^ 7 ∧ brwInstBits p src1RegNr3src < 2 ^ 7 ∧
      brwInstBits p src2RegNr3src < 2 ^ 7 := by
  have htable : ∀ i < 4, gen83srcSourceIndexTable.getD i 0 >>> 43 = 0 := by decide
  have hpacked : Packed (sourceFields3src d) := by
    unfold sourceFields3src
    split <;> decide
  have hzero : ∀ f ∈ sourceFields3src d, 43 ≤ f.2 → brwInstBits p f.1 = 0 := by
    intro f hf hk
    rw [← gather_and hpacked hf rfl, ← (bits3src_eq d p).2, ← h,
      ← Nat.add_sub_cancel' hk, Nat.shiftRight_add,
      htable i hi, Nat.zero_shiftRight, Nat.zero_and]
  have htop : brwInstBits p ⟨104, 104⟩ = 0 ∧ brwInstBits p ⟨125, 125⟩ = 0 := by
    have hpart : ∀ {high low i : ℕ}, low ≤ i → i ≤ high → brwInstBits p ⟨high, low⟩ = 0 →
        brwInstBits p ⟨i, i⟩ = 0 := fun hlow hhigh h0 => by
      refine (getField_eq_zero_iff (le_refl _)).mpr fun j h1 h2 => ?_
      exact (getField_eq_zero_iff (le_trans hlow hhigh)).mp h0 j (le_trans hlow h1)
        (le_trans h2 hhigh)
    unfold sourceFields3src at hzero
    split at hzero
    · exact ⟨hpart (by decide) (by decide) (hzero (⟨105, 104⟩, 45) (by simp) (by decide)),
        hpart (by decide) (by decide) (hzero (⟨126, 125⟩, 47) (by simp) (by decide))⟩
    · exact ⟨hzero (⟨104, 104⟩, 44) (by simp) (by decide),
        hzero (⟨125, 125⟩, 45) (by simp) (by decide)⟩
  have h83 := hzero (⟨83, 83⟩, 43) (by simp [sourceFields3src]) (by decide)
  exact ⟨getField_lt_of_top (by decide) h83, getField_lt_of_top (by decide) htop.1,
    getField_lt_of_top (by decide) htop.2⟩

/-- Without the top bit of the destination, each write for three sources fits its field. -/
theorem compactWrites3src_fit {i1 i2 : ℕ} (h1 : i1 < 4) (h2 : i2 < 4)
    (hsource : gen83srcSourceIndexTable.getD i2 0 = sourceBits3src d p)
    (hdst : brwInstBits p ⟨63, 63⟩ = 0) :
    ∀ a ∈ ⟨6, 0, brwInstBits p opcode⟩ :: compactWrites3src p i1 i2, Write.Fits 64 a := by
  obtain ⟨hr0, hr1, hr2⟩ := regNr_lt_of_source hsource h2
  have hd : brwInstBits p dstRegNr3src < 2 ^ 7 := getField_lt_of_top (by decide) hdst
  have hb := bits_lt p
  simp only [compactWrites3src, copied3src, map_cons, map_nil, cons_append,
    nil_append, forall_mem_cons, not_mem_nil, false_imp_iff, implies_true, and_true]
  exact ⟨.mk (hb opcode), .mk h1, .mk h2, .mk hd, .mk (hb src0RepCtrlA16),
    .mk (by decide), .mk (hb _), .mk (hb _), .mk (hb _), .mk (hb _), .mk hr0, .mk hr1, .mk hr2,
    .mk (hb _), .mk (hb _), .mk (hb _)⟩

/-- The writes of `brw_uncompact_3src_instruction` before the destination register. -/
def uncompactWrites3src (d : DeviceInfo) (c : BrwCompactInst) : List Write :=
  let u := gen83srcControlIndexTable.getD (brwCompactInstBits c controlIndex3src) 0
  let s := gen83srcSourceIndexTable.getD (brwCompactInstBits c sourceIndex3src) 0
  [nativeWrite opcode3src (brwCompactInstBits c CompactField.opcode3src),
    nativeWrite ⟨34, 32⟩ ((u >>> 21) &&& 0x7), nativeWrite ⟨28, 8⟩ ((u >>> 0) &&& 0x1fffff)] ++
  (if wide3src d then [nativeWrite ⟨36, 35⟩ ((u >>> 24) &&& 0x3)] else []) ++
  [nativeWrite ⟨83, 83⟩ ((s >>> 43) &&& 0x1), nativeWrite ⟨114, 107⟩ ((s >>> 35) &&& 0xff),
    nativeWrite ⟨93, 86⟩ ((s >>> 27) &&& 0xff), nativeWrite ⟨72, 65⟩ ((s >>> 19) &&& 0xff),
    nativeWrite ⟨55, 37⟩ ((s >>> 0) &&& 0x7ffff)] ++
  (if wide3src d then
    [nativeWrite ⟨126, 125⟩ ((s >>> 47) &&& 0x3), nativeWrite ⟨105, 104⟩ ((s >>> 45) &&& 0x3),
      nativeWrite ⟨84, 84⟩ ((s >>> 44) &&& 0x1)]
  else [nativeWrite ⟨125, 125⟩ ((s >>> 45) &&& 0x1), nativeWrite ⟨104, 104⟩ ((s >>> 44) &&& 0x1)])

/-- The writes of `brw_uncompact_3src_instruction` behind the destination register. -/
def registerWrites3src (c : BrwCompactInst) : List Write :=
  nativeWrite src0RepCtrlA16 (brwCompactInstBits c CompactField.src0RepCtrl3src) ::
    nativeWrite cmptControl3src 0 ::
      copied3src.map fun f => nativeWrite f.2 (brwCompactInstBits c f.1)

/-- The uncompactor for three sources is a list of writes. -/
theorem brwUncompact3srcInstruction_eq (d : DeviceInfo) (c : BrwCompactInst) :
    brwUncompact3srcInstruction d c = applyWrites 0 (uncompactWrites3src d c ++
      nativeWrite dstRegNr3src (brwCompactInstBits c CompactField.dstRegNr3src) ::
        registerWrites3src c) := by
  simp only [brwUncompact3srcInstruction, uncompactWrites3src, setUncompacted3srcControlIndex,
    setUncompacted3srcSourceIndex]
  split_ifs <;> rfl

/-- The value of a field of the compacted form fits a field that is not smaller. -/
theorem nativeWrite_fits {r' : BitRange} (h1 : r.low ≤ r.high) (h2 : r.high < 128)
    (hle : r'.high - r'.low ≤ r.high - r.low) :
    (nativeWrite r (brwCompactInstBits c r')).Fits 128 := by
  refine ⟨h1, h2, (mod_le _ _).trans_lt ((compactBits_lt c r').trans_le ?_)⟩
  exact Nat.pow_le_pow_right (by decide) (Nat.succ_le_succ hle)

/-- The register fields of three sources fit where they are written. -/
theorem registerWrites3src_fit (c : BrwCompactInst) :
    ∀ a ∈ registerWrites3src c, Write.Fits 128 a := by
  have hcopied : ∀ f ∈ copied3src, f.2.low ≤ f.2.high ∧ f.2.high < 128 ∧
      f.1.high - f.1.low ≤ f.2.high - f.2.low := by decide
  rw [registerWrites3src, forall_mem_cons, forall_mem_cons, forall_mem_map]
  refine ⟨nativeWrite_fits (by decide) (by decide) (by decide), .mk (by decide), fun f hf => ?_⟩
  obtain ⟨h1, h2, hle⟩ := hcopied f hf
  exact nativeWrite_fits h1 h2 hle

/-- The top bit of the destination register is zero after uncompacting. -/
theorem uncompact3src_dst_top (d : DeviceInfo) (c : BrwCompactInst) :
    (brwUncompact3srcInstruction d c).getLsbD 63 = false := by
  have hdst : brwCompactInstBits c CompactField.dstRegNr3src < 2 ^ 7 := compactBits_lt c _
  have hfit : brwCompactInstBits c CompactField.dstRegNr3src < 2 ^ 8 := lt_trans hdst (by decide)
  have hmod := mod_eq_of_fits (r := dstRegNr3src) (by decide) hfit
  rw [brwUncompact3srcInstruction_eq, applyWrites_append]
  show (applyWrites (setField (applyWrites 0 (uncompactWrites3src d c)) 63 56
    (brwCompactInstBits c CompactField.dstRegNr3src % 2 ^ (64 - dstRegNr3src.low % 64)))
    (registerWrites3src c)).getLsbD 63 = false
  rw [getLsbD_applyWrites_of_not_covers (registerWrites3src_fit c) _ (by decide) rfl, hmod,
    getLsbD_setField (by decide) hfit (by decide), if_pos (by decide)]
  exact testBit_lt_two_pow hdst

/-- What a compacted instruction with three sources holds. -/
structure Compacted3src (d : DeviceInfo) (p : BrwInst) (c : BrwCompactInst) : Prop where
  /-- The opcode. -/
  opcode : brwCompactInstBits c CompactField.opcode3src = brwInstBits p opcode3src
  /-- The index of the control bits. -/
  control : gen83srcControlIndexTable.getD (brwCompactInstBits c controlIndex3src) 0 =
    controlBits3src d p
  /-- The index of the source bits. -/
  source : gen83srcSourceIndexTable.getD (brwCompactInstBits c sourceIndex3src) 0 =
    sourceBits3src d p
  /-- The destination register. -/
  dstRegNr : brwCompactInstBits c CompactField.dstRegNr3src = brwInstBits p dstRegNr3src
  /-- The replication of the first source. -/
  src0RepCtrl :
    brwCompactInstBits c CompactField.src0RepCtrl3src = brwInstBits p src0RepCtrlA16
  /-- The fields that are copied. -/
  copied : ∀ f ∈ copied3src, brwCompactInstBits c f.1 = brwInstBits p f.2

/-- A destination register below 128 fits the compacted form. -/
theorem brwTryCompact3srcInstruction_spec (h : brwTryCompact3srcInstruction d p = some c)
    (hdst : brwInstBits p ⟨63, 63⟩ = 0) : Compacted3src d p c := by
  obtain ⟨i1, i2, h1, h2, hcontrol, hsource, rfl⟩ := brwTryCompact3srcInstruction_eq h
  have hdisj : Disjoint (ranges (⟨6, 0, brwInstBits p opcode⟩ :: compactWrites3src p i1 i2)) :=
    of_decide_eq_true rfl
  have hread : ∀ {high low v : ℕ}, _ → brwCompactInstBits _ ⟨high, low⟩ = v := fun ha =>
    getField_applyWrites hdisj (compactWrites3src_fit h1 h2 hsource hdst) 0 (a := ⟨_, _, _⟩) ha
  refine ⟨hread mem_cons_self, ?_, ?_, hread (by simp [compactWrites3src]),
    hread (by simp [compactWrites3src]), fun f hf => hread ?_⟩
  · exact hcontrol ▸ congrArg (gen83srcControlIndexTable.getD · 0)
      (hread (by simp [compactWrites3src]))
  · exact hsource ▸ congrArg (gen83srcSourceIndexTable.getD · 0)
      (hread (by simp [compactWrites3src]))
  · exact mem_cons_of_mem _ (mem_append_right _ (mem_map_of_mem hf))

/-- The two indices for three sources give back the bits that they were looked up with. -/
theorem uncompactWrites3src_faithful (h : Compacted3src d p c) :
    Faithful p (uncompactWrites3src d c) := by
  unfold uncompactWrites3src
  dsimp only
  rw [h.control, h.source, (bits3src_eq d p).1, (bits3src_eq d p).2]
  unfold controlFields3src sourceFields3src
  split_ifs
  all_goals
    refine faithful_native h.opcode ?_
    repeat refine faithful_gather ?_
    exact .nil

/-- Fields copied unchanged are faithful. -/
theorem copies_faithful {fs : List (BitRange × BitRange)} (hvalid : ∀ f ∈ fs, f.2.Valid)
    (h : ∀ f ∈ fs, brwCompactInstBits c f.1 = brwInstBits p f.2) :
    Faithful p (fs.map fun f => nativeWrite f.2 (brwCompactInstBits c f.1)) := by
  induction fs with
  | nil => exact .nil
  | cons f fs ih =>
    rw [forall_mem_cons] at hvalid h
    exact faithful_native h.1 (ih hvalid.2 h.2) hvalid.1

/-- The register fields of three sources are faithful. -/
theorem registerWrites3src_faithful (h : Compacted3src d p c)
    (hcmpt : brwInstBits p cmptControl3src = 0) : Faithful p (registerWrites3src c) :=
  faithful_native h.src0RepCtrl <| faithful_native hcmpt.symm <|
    copies_faithful (by decide) h.copied

/-- The fields that uncompacting writes, for an instruction with three sources. -/
def uncompactedRanges3src (d : DeviceInfo) : List (ℕ × ℕ) :=
  [(6, 0), (34, 32), (28, 8)] ++ (if wide3src d then [(36, 35)] else []) ++
  [(83, 83), (114, 107), (93, 86), (72, 65), (55, 37)] ++
  (if wide3src d then [(126, 125), (105, 104), (84, 84)] else [(125, 125), (104, 104)]) ++
  [(63, 56), (64, 64), (29, 29), (30, 30), (31, 31), (85, 85), (106, 106), (83, 76), (104, 97),
    (125, 118), (75, 73), (96, 94), (117, 115)]

/-- The bits of an instruction with three sources that are reserved and not written. -/
def reserved3src (d : DeviceInfo) : List (ℕ × ℕ) :=
  if wide3src d then [(7, 7), (127, 127)]
  else [(7, 7), (127, 126), (105, 105), (84, 84), (36, 35)]

/-- The bits reserved with three sources are zero. -/
theorem reserved3src_spec (hreserved : ReservedZero d p)
    (h3src : is3src d (brwInstBits p opcode) = true) :
    ∀ r ∈ reserved3src d, brwInstBits p ⟨r.1, r.2⟩ = 0 := by
  obtain ⟨-, h7, hrest⟩ := hreserved
  rw [h3src, if_pos rfl] at hrest
  unfold reserved3src
  split_ifs at hrest ⊢
  · simpa using ⟨h7, hrest⟩
  · simpa using ⟨h7, hrest⟩

/-- With three sources, the top bit of the destination register is lost. -/
theorem uncompact3src_eq_iff (h : brwTryCompact3srcInstruction d p = some c)
    (hreserved : ReservedZero d p) (h3src : is3src d (brwInstBits p opcode) = true) :
    brwUncompact3srcInstruction d c = p ↔ brwInstBits p ⟨63, 63⟩ = 0 := by
  constructor
  · intro heq
    refine (getField_eq_zero_iff (le_refl _)).mpr fun i h1 h2 => ?_
    obtain rfl : i = 63 := le_antisymm h2 h1
    rw [← heq]
    exact uncompact3src_dst_top d c
  · intro hdst
    have hc := brwTryCompact3srcInstruction_spec h hdst
    have hfaithful := (uncompactWrites3src_faithful hc).append
      (faithful_native (r := dstRegNr3src) hc.dstRegNr
        (registerWrites3src_faithful hc hreserved.1))
    rw [brwUncompact3srcInstruction_eq, applyWrites_eq_iff_lost hfaithful (uncompactedRanges3src d)
      (reserved3src d) [] ?_ (reserved3src_spec hreserved h3src)]
    · simp
    · simp only [reserved3src]
      split_ifs <;> decide
    · simp only [reserved3src, uncompactedRanges3src]
      split_ifs <;> decide
    · simp [covers]
    · simp only [uncompactWrites3src, uncompactedRanges3src]
      split_ifs <;> rfl

/-! ### Precompacting changes types only -/

/-- The fields for the types of the operands. -/
def typeRanges (d : DeviceInfo) : List BitRange :=
  [src1RegHwType d, src0RegHwType d, dstRegHwType d]

/-- The instructions agree in all fields beside the types of the operands. -/
def Retyped (d : DeviceInfo) (inst inst' : BrwInst) : Prop :=
  ∀ r : BitRange, r.low ≤ r.high → (∀ t ∈ typeRanges d, r.high < t.low ∨ t.high < r.low) →
    brwInstBits inst' r = brwInstBits inst r

/-- An instruction agrees with itself. -/
theorem Retyped.refl (d : DeviceInfo) (inst : BrwInst) : Retyped d inst inst := fun _ _ _ => rfl

/-- Agreement in all fields but the types composes. -/
theorem Retyped.trans {inst'' : BrwInst} (h : Retyped d inst inst') (h' : Retyped d inst' inst'') :
    Retyped d inst inst'' := fun r hle hr => (h' r hle hr).trans (h r hle hr)

/-- The number of a type that `precompact` sets fits the field of any operand. -/
theorem brwRegTypeToHwType_fits {file n : ℕ} {type : BrwRegType} (htype : type = .ud ∨ type = .vf)
    (h : brwRegTypeToHwType d file type = some n) {t : BitRange} (ht : t ∈ typeRanges d) :
    n < 2 ^ (t.high - t.low + 1) := by
  have hn : n < if 8 ≤ d.gen then 16 else 8 := by
    unfold brwRegTypeToHwType hwTypeTable at h
    rcases htype with rfl | rfl
    · have h0 : n = 0 := by
        split_ifs at h
        all_goals
          change HwType.number file ⟨.ud, some 0, some 0⟩ = some n at h
          simpa [HwType.number, eq_comm] using h
      split <;> omega
    · have h5 : n = if 11 ≤ d.gen then 11 else 5 := by
        split_ifs at h with h11
        · change HwType.number file ⟨.vf, none, some 11⟩ = some n at h
          rw [if_pos h11]
          exact (show _ ∧ n = 11 by simpa [HwType.number, eq_comm] using h).2
        · change HwType.number file ⟨.vf, none, some 5⟩ = some n at h
          rw [if_neg h11]
          exact (show _ ∧ n = 5 by simpa [HwType.number, eq_comm] using h).2
      split_ifs at h5 ⊢ <;> omega
  simp only [typeRanges, src1RegHwType, src0RegHwType, dstRegHwType,
    mem_cons, not_mem_nil, or_false] at ht
  split_ifs at ht hn <;> rcases ht with rfl | rfl | rfl <;> exact hn

/-- The type fields lie in one half of the instruction. -/
theorem typeRanges_valid {t : BitRange} (ht : t ∈ typeRanges d) : t.Valid := by
  simp only [typeRanges, src1RegHwType, src0RegHwType, dstRegHwType,
    mem_cons, not_mem_nil, or_false] at ht
  split_ifs at ht <;> rcases ht with rfl | rfl | rfl <;> decide

/-- Setting a type beside the register file that the operand has already. -/
theorem setFileType_retyped {fr tr : BitRange} {file : ℕ} {type : BrwRegType} (hfr : fr.Valid)
    (htr : tr ∈ typeRanges d) (htype : type = .ud ∨ type = .vf) (hfile : file = brwInstBits inst fr)
    (h : setFileType d inst fr tr file type = some inst') : Retyped d inst inst' := by
  obtain ⟨n, hn, rfl⟩ := Option.map_eq_some_iff.mp h
  have hfits := brwRegTypeToHwType_fits htype hn htr
  have hsame : brwInstSetBits inst fr file = inst := by
    unfold brwInstSetBits
    rw [hfile, mod_eq_of_fits hfr (bits_lt inst fr)]
    exact setField_getField hfr.1
  intro r hle hr
  rw [hsame]
  unfold brwInstSetBits
  rw [mod_eq_of_fits (typeRanges_valid htr) hfits]
  exact getField_setField_of_disjoint (typeRanges_valid htr).1 (hr tr htr) hle hfits

/-- The register file fields lie in one half of the instruction. -/
theorem regFile_valid (d : DeviceInfo) :
    (src0RegFile d).Valid ∧ (src1RegFile d).Valid ∧ (dstRegFile d).Valid := by
  unfold src0RegFile src1RegFile dstRegFile
  split <;> decide

/-- A branch that returns the instruction unchanged keeps all but the types. -/
theorem retyped_ite {P : Prop} [Decidable P] {o : Option BrwInst}
    (ho : o = some inst' → Retyped d inst inst')
    (h : (if P then some inst else o) = some inst') : Retyped d inst inst' := by
  split_ifs at h
  · exact some.inj h ▸ .refl d inst
  · exact ho h

/-- Reading a type first, which may fail, does not change the instruction. -/
theorem retyped_bind {α : Type} {o : Option α} {g : α → Option BrwInst}
    (hg : ∀ a, o = some a → g a = some inst' → Retyped d inst inst') (h : o.bind g = some inst') :
    Retyped d inst inst' := by
  obtain ⟨a, ha, h⟩ := bind_eq_some_iff.mp h
  exact hg a ha h

/-- The step for the second source changes types only. -/
theorem precompactSrc1_retyped (h : precompactSrc1 d inst = some inst') : Retyped d inst inst' := by
  have hset : brwInstSetSrc1FileType d inst (brwInstBits inst (src1RegFile d)) .ud =
      some inst' → Retyped d inst inst' :=
    setFileType_retyped (regFile_valid d).2.1 (by simp [typeRanges]) (.inl rfl) rfl
  refine retyped_ite (fun h => ?_) h
  split_ifs at h
  · exact hset h
  · exact retyped_bind (fun _ _ => retyped_ite hset) h

/-- The step for packed vectors of floats changes types only. -/
theorem precompactVf_retyped (h : precompactVf d inst = some inst') : Retyped d inst inst' := by
  refine retyped_ite (retyped_bind fun _ _ => retyped_ite (retyped_bind fun _ _ h => ?_)) h
  split_ifs at h
  · exact setFileType_retyped (regFile_valid d).1 (by simp [typeRanges]) (.inr rfl) rfl h
  · exact some.inj h ▸ .refl d inst

/-- The step for unsigned doublewords changes types only. -/
theorem precompactUd_retyped (h : precompactUd d inst = some inst') : Retyped d inst inst' := by
  refine retyped_ite (retyped_bind fun _ _ => retyped_ite (retyped_bind fun _ _ =>
    retyped_ite (retyped_bind fun mid hmid h => ?_))) h
  have hsrc0 : Retyped d inst mid :=
    setFileType_retyped (regFile_valid d).1 (by simp [typeRanges]) (.inl rfl) rfl hmid
  -- the register file of the destination is read before src0 is set
  have hfile : brwInstBits inst (dstRegFile d) = brwInstBits mid (dstRegFile d) := by
    refine (hsrc0 _ (regFile_valid d).2.2.1 ?_).symm
    simp only [typeRanges, dstRegFile, src1RegHwType, src0RegHwType, dstRegHwType]
    split <;> decide
  exact hsrc0.trans (setFileType_retyped (regFile_valid d).2.2
    (by simp [typeRanges]) (.inl rfl) hfile h)

/-- `precompact` changes the types of operands and nothing else. -/
theorem precompact_retyped (h : precompact d inst = some p) : Retyped d inst p := by
  refine retyped_ite (retyped_bind fun b hb h3 => ?_) h
  obtain ⟨a, h1, h2⟩ := bind_eq_some_iff.mp hb
  exact ((precompactSrc1_retyped h1).trans (precompactVf_retyped h2)).trans
    (precompactUd_retyped h3)

/-- Fields outside the type fields keep their bits through `precompact`. -/
theorem Retyped.bits (h : Retyped d inst p) {high low : ℕ} (hle : low ≤ high := by decide)
    (hg8 : 8 ≤ d.gen → high < 37 ∨ 46 < low ∧ (high < 91 ∨ 94 < low) := by omega)
    (hg7 : d.gen < 8 → high < 34 ∨ 46 < low := by omega) :
    brwInstBits p ⟨high, low⟩ = brwInstBits inst ⟨high, low⟩ := by
  refine h ⟨high, low⟩ hle ?_
  simp only [typeRanges, src1RegHwType, src0RegHwType, dstRegHwType,
    forall_mem_cons, not_mem_nil, false_imp_iff, implies_true, and_true]
  split <;> dsimp only <;> omega

/-- The opcode is kept through `precompact`. -/
theorem Retyped.opcode (h : Retyped d inst p) :
    brwInstBits p opcode = brwInstBits inst opcode :=
  h.bits

/-- On the generations that compact three sources, no type overlaps with a reserved bit. -/
theorem Retyped.reservedZero (h : Retyped d inst p)
    (h8 : is3src d (brwInstBits inst Field.opcode) = true → 8 ≤ d.gen) (hz : ReservedZero d inst) :
    ReservedZero d p := by
  obtain ⟨h29, h7, hrest⟩ := hz
  refine ⟨h.bits.trans h29, h.bits.trans h7, ?_⟩
  rw [h.opcode]
  split_ifs at hrest ⊢ with h3src hwide
  · rw [h.bits]
    exact hrest
  · have hg := h8 h3src
    rw [h.bits, h.bits, h.bits, h.bits]
    exact hrest
  · rw [h.bits]
    exact hrest

/-- Whether the second source is an immediate is kept through `precompact`. -/
theorem Retyped.isImmediate_eq (h : Retyped d inst p) : isImmediate d p = isImmediate d inst := by
  unfold isImmediate
  rw [h _ (regFile_valid d).1.1, h _ (regFile_valid d).2.1.1]
  all_goals
    simp only [typeRanges, src0RegFile, src1RegFile, src1RegHwType, src0RegHwType, dstRegHwType]
    split <;> decide

/-! ### Losslessness -/

/-- The bits that the compacted form has no place for are zero: with three sources the top bit of
the destination register, and otherwise the seven top bits, unless they belong to an immediate. -/
def Mapped (d : DeviceInfo) (inst : BrwInst) : Prop :=
  if is3src d (brwInstBits inst opcode) then brwInstBits inst ⟨63, 63⟩ = 0
  else isImmediate d inst = true ∨ brwInstBits inst ⟨127, 121⟩ = 0

instance (d : DeviceInfo) (inst : BrwInst) : Decidable (Mapped d inst) := by
  unfold Mapped
  infer_instance

/-- The compactor for three sources keeps the opcode. -/
theorem opcode_brwTryCompact3srcInstruction (h : brwTryCompact3srcInstruction d p = some c) :
    brwCompactInstBits c CompactField.opcode3src = brwInstBits p opcode := by
  obtain ⟨i1, i2, -, -, -, -, rfl⟩ := brwTryCompact3srcInstruction_eq h
  show getField (applyWrites (setField 0 6 0 (brwInstBits p opcode))
    (compactWrites3src p i1 i2)) 6 0 = _
  rw [getField_applyWrites_of_lt (by decide)]
  · exact getField_setField_self (by decide) (by decide) (bits_lt p opcode)
  · have hcopied : ∀ f ∈ copied3src, 6 < f.1.low := by decide
    rw [compactWrites3src, forall_mem_append, forall_mem_map]
    exact ⟨by simp, hcopied⟩

/-- With three sources, uncompacting gives the instruction back iff the top destination bit is
zero. -/
theorem brwUncompactInstruction_of_3src (h3src : is3src d (brwInstBits p opcode) = true)
    (hreserved : ReservedZero d p) (h : brwTryCompactInstruction d p = some c) :
    brwUncompactInstruction d c = p ↔ brwInstBits p ⟨63, 63⟩ = 0 := by
  unfold brwTryCompactInstruction at h
  rw [if_pos h3src] at h
  split_ifs at h with hg
  unfold brwUncompactInstruction
  rw [if_pos ⟨hg, by rw [opcode_brwTryCompact3srcInstruction h]; exact h3src⟩]
  exact uncompact3src_eq_iff h hreserved h3src

/-- With at most two sources, uncompacting gives the instruction back unless the bits above a second
source register are set. -/
theorem brwUncompactInstruction_of_not_3src
    (h3src : is3src d (brwInstBits p opcode) = false) (hreserved : ReservedZero d p)
    (h : brwTryCompactInstruction d p = some c) :
    brwUncompactInstruction d c = p ↔ isImmediate d p = true ∨ brwInstBits p ⟨127, 121⟩ = 0 := by
  unfold brwTryCompactInstruction at h
  rw [if_neg (by simp [h3src])] at h
  split_ifs at h with himm hmapped
  rw [Bool.not_eq_true] at hmapped
  have hc := compactFields_spec h
  have hopcode : is3src d (brwCompactInstBits c CompactField.opcode3src) = false := by
    rw [← h3src]
    exact congrArg _ hc.opcode
  unfold brwUncompactInstruction
  rw [if_neg (by simp [hopcode])]
  dsimp only
  rw [isImmediate_uncompactHead hc]
  cases himm' : isImmediate d p with
  | true =>
    rw [himm'] at hc
    have hcompact : isCompactableImmediate (brwInstBits p immUd) = true := by
      simp only [himm', Bool.true_and, Bool.or_eq_true, not_or] at himm
      simpa using himm.2
    simpa using uncompactWrites_eq_imm hreserved h3src hmapped hc hcompact
  | false =>
    rw [himm'] at hc
    simpa using uncompactWrites_eq_iff_reg hreserved h3src hmapped hc

/-- Uncompacting restores the instruction that was compacted, with one, two or three sources and
with or without an immediate, exactly if none of the bits that have no place was set. -/
theorem brwUncompactInstruction_eq_iff (d : DeviceInfo) (inst p : BrwInst) (c : BrwCompactInst)
    (hreserved : ReservedZero d inst) (hp : precompact d inst = some p)
    (hc : brwTryCompactInstruction d p = some c) :
    brwUncompactInstruction d c = p ↔ Mapped d inst := by
  have hre := precompact_retyped hp
  unfold Mapped
  rw [← hre.opcode, ← hre.isImmediate_eq, ← hre.bits (by decide : 121 ≤ 127),
    ← hre.bits (by decide : 63 ≤ 63)]
  cases h3src : is3src d (brwInstBits p opcode) with
  | true =>
    have hg : 8 ≤ d.gen := by
      unfold brwTryCompactInstruction at hc
      rw [if_pos h3src] at hc
      split_ifs at hc with hg
      exact hg
    have hz := hre.reservedZero (fun _ => hg) hreserved
    simpa using brwUncompactInstruction_of_3src h3src hz hc
  | false =>
    have hz := hre.reservedZero (fun h => by rw [← hre.opcode, h3src] at h; simp at h) hreserved
    simpa using brwUncompactInstruction_of_not_3src h3src hz hc

/-- A device of generation 9, for the examples. -/
def skylake : DeviceInfo := ⟨9, false, false, false⟩

/-- `mad(16)` from registers to `r12`. -/
theorem brwUncompactInstruction_mad :
    ∃ c, brwTryCompactInstruction skylake 0x00072000390001c80c1e00000080015b = some c ∧
      brwUncompactInstruction skylake c = 0x00072000390001c80c1e00000080015b :=
  ⟨0x2000c25b, by decide +kernel,
    (brwUncompactInstruction_eq_iff skylake 0x00072000390001c80c1e00000080015b _ _
      (by decide +kernel) (by decide +kernel) (by decide +kernel)).mpr (by decide +kernel)⟩

/-- `sends(16)` that ends the thread. -/
def sendsEot : BrwInst := 0x80000000020000802140020800800033

/-- The end-of-thread bit of a split send is lost: `has_unmapped_bits` looks for `send` and `sendc`
only. -/
theorem brwUncompactInstruction_sends :
    skylake.Supported ∧ ReservedZero skylake sendsEot ∧
      precompact skylake sendsEot = some sendsEot ∧
      ∃ c, brwTryCompactInstruction skylake sendsEot = some c ∧ brwInstBits sendsEot eot = 1 ∧
        brwInstBits (brwUncompactInstruction skylake c) eot = 0 ∧
        brwUncompactInstruction skylake c ≠ sendsEot :=
  ⟨by decide, by decide +kernel, by decide +kernel, 0x40a0020013633, by decide +kernel,
    by decide +kernel, by decide +kernel, by decide +kernel⟩

end Mesa3D.Brw
