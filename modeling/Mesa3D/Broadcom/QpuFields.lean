import Mesa3D.Broadcom.QpuPack

/-!
# The parts of a QPU word

Round trips of the signals and of the flags, and what the tables of operations say. `boxFind` looks
for the entry of a table that all words of a set have, where the opcode is in an interval and the
mux values are in masks. So the kernel checks a table once, and not for each word.
-/

namespace Mesa3D.Qpu

open Bits List

/-! ### Signals -/

/-- The signal maps of the versions. -/
theorem sigMap_cases (ver : ℕ) : sigMap ver = v33SigMap ∨ sigMap ver = v40SigMap ∨
    sigMap ver = v41SigMap := by
  unfold sigMap
  split_ifs <;> simp

/-- Each signal map has an entry for the five bits of the field. -/
theorem length_sigMap (ver : ℕ) : (sigMap ver).length = 32 := by
  rcases sigMap_cases ver with h | h | h <;> rw [h] <;> rfl

/-- A signal that is packed unpacks to itself. -/
theorem sigUnpack_of_sigPack {ver n : ℕ} {sig : Sig} (h : v3dQpuSigPack ver sig = some n) :
    v3dQpuSigUnpack ver n = some sig := by
  obtain ⟨hn, heq, hfirst⟩ := findIdx?_eq_some_iff_getElem.1 h
  have hget : (sigMap ver)[n]? = some sig := by
    rw [getElem?_eq_getElem hn]
    simpa using heq
  have hzero : n = 0 ∨ sig ≠ {} := by
    by_contra hne
    rw [not_or, not_not] at hne
    obtain ⟨hn0, rfl⟩ := hne
    -- the first signal is the empty one
    have h0 := hfirst 0 (Nat.pos_of_ne_zero hn0)
    rcases sigMap_cases ver with hmap | hmap | hmap <;>
      simp [hmap, v33SigMap, v40SigMap, v41SigMap] at h0
  simp only [v3dQpuSigUnpack, hget, Option.bind_eq_bind, Option.bind_some, if_pos hzero]

/-- A signal that is unpacked can be packed. -/
theorem sigPack_of_sigUnpack {ver n : ℕ} {sig : Sig} (h : v3dQpuSigUnpack ver n = some sig) :
    ∃ m, v3dQpuSigPack ver sig = some m ∧ m < 32 := by
  simp only [v3dQpuSigUnpack, Option.bind_eq_bind, Option.bind_eq_some_iff] at h
  obtain ⟨sig', hget, hsig⟩ := h
  obtain rfl : sig' = sig := by
    split_ifs at hsig
    exact Option.some.inj hsig
  have hmem : sig' ∈ sigMap ver := mem_of_getElem? hget
  cases hpack : v3dQpuSigPack ver sig' with
  | none =>
    have hnone := findIdx?_eq_none_iff.1 hpack sig' hmem
    simp at hnone
  | some m =>
    refine ⟨m, rfl, ?_⟩
    obtain ⟨hm, -⟩ := findIdx?_eq_some_iff_getElem.1 hpack
    rwa [length_sigMap] at hm

/-! ### Flags -/

/-- The flags that are packed so that they can be told apart. -/
def Flags.holds (f : Flags) : Prop := f.ac = .none ∨ f.mc = .none ∨ f.ac = .ifa

instance (f : Flags) : Decidable f.holds := inferInstanceAs (Decidable (_ ∨ _ ∨ _))

/-- The flags fit their field if they can be packed, and unpack to themselves exactly if they
hold. -/
def Flags.check (f : Flags) : Bool :=
  match v3dQpuFlagsPack f with
  | none => true
  | some p => p < 128 &&
    match v3dQpuFlagsUnpack p with
    | none => false
    | some f' => f' = f ↔ f.holds

/-- The flags that are not present are none. -/
theorem Flags.eq_of_present (f : Flags) : f =
    ⟨if f.present.testBit 0 then f.ac else .none, if f.present.testBit 1 then f.mc else .none,
     if f.present.testBit 2 then f.apf else .none, if f.present.testBit 3 then f.mpf else .none,
     if f.present.testBit 4 then f.auf else .none,
         if f.present.testBit 5 then f.muf else .none⟩ := by
  obtain ⟨ac, mc, apf, mpf, auf, muf⟩ := f
  unfold Flags.present
  by_cases h1 : ac = .none <;> by_cases h2 : mc = .none <;> by_cases h3 : apf = .none <;>
    by_cases h4 : mpf = .none <;> by_cases h5 : auf = .none <;> by_cases h6 : muf = .none <;>
    simp [h1, h2, h3, h4, h5, h6] <;> decide

/-- Every combination of flags passes the check. -/
theorem Flags.check_all (f : Flags) : f.check = true := by
  by_cases hkey : f.present ∈ flagsTable.map Prod.fst
  · have hf := f.eq_of_present
    simp only [flagsTable, map_cons, map_nil, mem_cons, not_mem_nil, or_false] at hkey
    rcases hkey with h | h | h | h | h | h | h | h | h | h | h <;> rw [h] at hf <;> rw [hf]
    · exact (by decide : Flags.check .empty = true)
    · change Flags.check ⟨.none, .none, f.apf, .none, .none, .none⟩ = true
      cases f.apf <;> decide
    · change Flags.check ⟨.none, .none, .none, .none, f.auf, .none⟩ = true
      cases f.auf <;> decide
    · change Flags.check ⟨.none, .none, .none, f.mpf, .none, .none⟩ = true
      cases f.mpf <;> decide
    · change Flags.check ⟨.none, .none, .none, .none, .none, f.muf⟩ = true
      cases f.muf <;> decide
    · change Flags.check ⟨f.ac, .none, .none, .none, .none, .none⟩ = true
      cases f.ac <;> decide
    · change Flags.check ⟨f.ac, .none, .none, f.mpf, .none, .none⟩ = true
      cases f.ac <;> cases f.mpf <;> decide
    · change Flags.check ⟨.none, f.mc, .none, .none, .none, .none⟩ = true
      cases f.mc <;> decide
    · change Flags.check ⟨.none, f.mc, f.apf, .none, .none, .none⟩ = true
      cases f.mc <;> cases f.apf <;> decide
    · change Flags.check ⟨f.ac, f.mc, .none, .none, .none, .none⟩ = true
      cases f.ac <;> cases f.mc <;> decide
    · change Flags.check ⟨.none, f.mc, .none, .none, f.auf, .none⟩ = true
      cases f.mc <;> cases f.auf <;> decide
  · have hnone : flagsTable.find? (fun e => e.1 = f.present) = none := by
      rw [find?_eq_none]
      intro e he heq
      exact hkey (mem_map.2 ⟨e, he, by simpa using heq⟩)
    simp [Flags.check, v3dQpuFlagsPack, hnone]

/-- Flags that are packed unpack to themselves exactly if they hold. -/
theorem flagsUnpack_of_flagsPack {f : Flags} {p : ℕ} (h : v3dQpuFlagsPack f = some p) :
    p < 128 ∧ ∃ f', v3dQpuFlagsUnpack p = some f' ∧ (f' = f ↔ f.holds) := by
  have hcheck := f.check_all
  rw [Flags.check, h, Bool.and_eq_true, decide_eq_true_eq] at hcheck
  obtain ⟨hp, hcheck⟩ := hcheck
  cases hunpack : v3dQpuFlagsUnpack p with
  | none => simp [hunpack] at hcheck
  | some f' =>
    rw [hunpack] at hcheck
    exact ⟨hp, f', rfl, of_decide_eq_true hcheck⟩

/-- A field with a condition for both ALUs, where that of the add ALU is not the first one. -/
def twoConditions (packedCond : ℕ) : Prop :=
  packedCond.testBit 6 = true ∧ (packedCond >>> 2) &&& 3 = 0 ∧ packedCond &&& 3 ≠ 0

instance (packedCond : ℕ) : Decidable (twoConditions packedCond) :=
  inferInstanceAs (Decidable (_ ∧ _ ∧ _))

/-- Flags that are unpacked can be packed. -/
theorem flagsPack_of_flagsUnpack {p : ℕ} (hp : p < 128) {f : Flags}
    (h : v3dQpuFlagsUnpack p = some f) :
    (∃ p', v3dQpuFlagsPack f = some p') ∧ (f.holds ↔ ¬ twoConditions p) := by
  have hall : ∀ p < 128, ∀ f ∈ v3dQpuFlagsUnpack p,
      (v3dQpuFlagsPack f).isSome ∧ (f.holds ↔ ¬ twoConditions p) := by decide
  obtain ⟨hsome, hiff⟩ := hall p hp f h
  exact ⟨Option.isSome_iff_exists.1 hsome, hiff⟩

/-! ### Tables of operations -/

section

variable {Op : Type} {lo hi muxA muxB : ℕ} {d : OpcodeDesc Op} {ops : List (OpcodeDesc Op)}

/-- The entry has no word of the set. -/
def OpcodeDesc.misses (d : OpcodeDesc Op) (lo hi muxA muxB : ℕ) : Bool :=
  hi < d.opcodeFirst || d.opcodeLast < lo || d.muxBMask &&& muxB = 0 || d.muxAMask &&& muxA = 0

/-- The entry has all words of the set. -/
def OpcodeDesc.covers (d : OpcodeDesc Op) (lo hi muxA muxB : ℕ) : Bool :=
  d.opcodeFirst ≤ lo && hi ≤ d.opcodeLast && d.muxBMask &&& muxB =
    muxB && d.muxAMask &&& muxA = muxA

/-- The entry that `lookup_opcode` finds for all words of a set. -/
def boxFind : List (OpcodeDesc Op) → ℕ → ℕ → ℕ → ℕ → Option (OpcodeDesc Op)
  | [], _, _, _, _ => none
  | d :: ops, lo, hi, muxA, muxB =>
    if d.covers lo hi muxA muxB then some d
    else if d.misses lo hi muxA muxB then boxFind ops lo hi muxA muxB
    else none

/-- What is found for a box is found for each of its words. -/
theorem lookupOpcode_of_boxFind (h : boxFind ops lo hi muxA muxB = some d) {opcode a b : ℕ}
    (hlo : lo ≤ opcode) (hhi : opcode ≤ hi) (ha : muxA.testBit a = true)
    (hb : muxB.testBit b = true) :
    lookupOpcode ops opcode a b = some d := by
  -- in the set, a mask has the same bits as its intersection with that of the set
  have hmask : ∀ {m x k : ℕ}, x.testBit k = true → (m &&& x).testBit k = m.testBit k := fun hk => by
    rw [Nat.testBit_and, hk, Bool.and_true]
  induction ops with
  | nil => cases h
  | cons e ops ih =>
    rw [lookupOpcode, find?_cons]
    by_cases hcov : e.covers lo hi muxA muxB = true
    · rw [boxFind, if_pos hcov] at h
      simp only [OpcodeDesc.covers, Bool.and_eq_true, decide_eq_true_eq] at hcov
      obtain ⟨⟨⟨hfirst, hlast⟩, hmb⟩, hma⟩ := hcov
      have hb' : e.muxBMask.testBit b = true := by rw [← hmask hb, hmb, hb]
      have ha' : e.muxAMask.testBit a = true := by rw [← hmask ha, hma, ha]
      simp only [hb', ha', decide_eq_true (hfirst.trans hlo),
        decide_eq_true (hhi.trans hlast), Bool.and_self]
      exact h
    · rw [boxFind, if_neg hcov] at h
      by_cases hmiss : e.misses lo hi muxA muxB = true
      · rw [if_pos hmiss] at h
        have hno : (e.opcodeFirst ≤ opcode && opcode ≤ e.opcodeLast && e.muxBMask.testBit b &&
            e.muxAMask.testBit a) = false := by
          simp only [OpcodeDesc.misses, Bool.or_eq_true, decide_eq_true_eq] at hmiss
          rcases hmiss with ((hm | hm) | hm) | hm
          · simp [show ¬ e.opcodeFirst ≤ opcode by omega]
          · simp [show ¬ opcode ≤ e.opcodeLast by omega]
          · simp [← hmask (m := e.muxBMask) hb, hm]
          · simp [← hmask (m := e.muxAMask) ha, hm]
        rw [hno]
        exact ih h
      · rw [if_neg hmiss] at h
        cases h

/-- What an entry that was found says. -/
theorem lookupOpcode_some {opcode a b : ℕ} (h : lookupOpcode ops opcode a b = some d) :
    d ∈ ops ∧ d.opcodeFirst ≤ opcode ∧ opcode ≤ d.opcodeLast ∧ d.muxBMask.testBit b = true ∧
      d.muxAMask.testBit a = true := by
  have hp := find?_some h
  simp only [Bool.and_eq_true, decide_eq_true_eq] at hp
  exact ⟨mem_of_find?_eq_some h, hp.1.1.1, hp.1.1.2, hp.1.2, hp.2⟩

end

/-- Any operand is allowed by the full mask. -/
theorem testBit_anyMux : ∀ a < 8, anyMux.testBit a = true := by decide

end Mesa3D.Qpu
