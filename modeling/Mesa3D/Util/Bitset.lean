import Mathlib.Data.List.Range
import Mathlib.Data.BitVec

/-!
# Bitsets

`BITSET_MASK(b)` is meant to have the bits below `b`, and treats the end of a word on its own, but
compares `b` with 32 and not with the end of its word. So the mask of a range is empty if the range
begins at bit 32, or ends with the last bit of any word but the first. All other ranges, and the
loop over the bits of a set, are right.
-/

namespace Mesa3D.Bitset

open List

/-- The words of a set. -/
abbrev Words := List (BitVec 32)

/-- `BITSET_WORDS`. -/
def bitsetWords (bits : ℕ) : ℕ := (bits + 32 - 1) / 32

/-- `BITSET_BITWORD`. -/
def bitsetBitword (b : ℕ) : ℕ := b / 32

/-- `BITSET_BIT`. -/
def bitsetBit (b : ℕ) : BitVec 32 := 1#32 <<< (b % 32)

/-- `BITSET_MASK`. -/
def bitsetMask (b : ℕ) : BitVec 32 := if b = 32 then ~~~0#32 else bitsetBit b - 1

/-- `BITSET_RANGE`. -/
def bitsetRange (b e : ℕ) : BitVec 32 := bitsetMask (e + 1) &&& ~~~bitsetMask b

/-- The macros for a range apply an operation to its word. They assert that there is only one. -/
def onRange {α : Type} (b e : ℕ) (op : ℕ → α) : Option α :=
  if bitsetBitword b = bitsetBitword e then some (op (bitsetBitword b)) else none

/-- `BITSET_TEST_RANGE`. -/
def bitsetTestRange (x : Words) (b e : ℕ) : Option (BitVec 32) :=
  onRange b e fun w => x[w]?.getD 0 &&& bitsetRange b e

/-- `BITSET_SET_RANGE`. -/
def bitsetSetRange (x : Words) (b e : ℕ) : Option Words :=
  onRange b e fun w => x.set w (x[w]?.getD 0 ||| bitsetRange b e)

/-- `BITSET_CLEAR_RANGE`. -/
def bitsetClearRange (x : Words) (b e : ℕ) : Option Words :=
  onRange b e fun w => x.set w (x[w]?.getD 0 &&& ~~~bitsetRange b e)

/-- `ffs`. -/
def ffs (x : BitVec 32) : ℕ := ((range 32).find? x.getLsbD).elim 0 (· + 1)

/-- `__bitset_next_set`, from the word of `i` on. -/
def bitsetNextSet (set : Words) (size word : ℕ) (tmp : BitVec 32) : ℕ × BitVec 32 :=
  if tmp = 0 then
    if bitsetWords size ≤ word + 1 then (size, 0)
    else bitsetNextSet set size (word + 1) (set[word + 1]?.getD 0)
  else
    let bit := ffs tmp - 1
    (word * 32 + bit, tmp &&& ~~~(1#32 <<< bit))
termination_by bitsetWords size - word

/-- The values of `i` in the loop of `BITSET_FOREACH_SET`. -/
def bitsetForeachSet (set : Words) (size : ℕ) : ℕ → ℕ → BitVec 32 → Option (List ℕ)
  | 0, _, _ => none
  | fuel + 1, i, tmp =>
    let r := bitsetNextSet set size (bitsetBitword i) tmp
    if r.1 < size then (bitsetForeachSet set size fuel r.1 r.2).map (r.1 :: ·) else some []

/-- A bit of a set. -/
def bit (x : Words) (i : ℕ) : Bool := (x[i / 32]?.getD 0).getLsbD (i % 32)

/-- The macros are about the bits from `b` to `e`. -/
structure Exact (x : Words) (b e : ℕ) : Prop where
  /-- `BITSET_SET_RANGE` sets the bits. -/
  set : ∃ y ∈ bitsetSetRange x b e, ∀ i, bit y i = (bit x i || decide (b ≤ i ∧ i ≤ e))
  /-- `BITSET_CLEAR_RANGE` clears them. -/
  clear : ∃ y ∈ bitsetClearRange x b e, ∀ i, bit y i = (bit x i && !decide (b ≤ i ∧ i ≤ e))
  /-- `BITSET_TEST_RANGE` finds one of them. -/
  test : ∃ y ∈ bitsetTestRange x b e, y ≠ 0 ↔ ∃ i, (b ≤ i ∧ i ≤ e) ∧ bit x i

/-- The ranges whose masks are right. -/
def Masked (b e : ℕ) : Prop := b ≠ 32 ∧ (e % 32 = 31 → e = 31)

instance Masked.decidable (b e : ℕ) : Decidable (Masked b e) := inferInstanceAs (Decidable (_ ∧ _))

/-! ### Ranges -/

/-- The bits of `BITSET_MASK`. -/
theorem getLsbD_mask (b : ℕ) {j : ℕ} (hj : j < 32) :
    (bitsetMask b).getLsbD j = decide (b = 32 ∨ j < b % 32) := by
  have hones : ∀ j < 32, (~~~0#32).getLsbD j = true := by decide
  have hbit : ∀ k < 32, ∀ j < 32, (1#32 <<< k - 1).getLsbD j = decide (j < k) := by decide
  unfold bitsetMask
  split_ifs with hb
  · rw [hones j hj]
    simp [hb]
  · rw [bitsetBit, hbit _ (Nat.mod_lt _ (by decide)) j hj]
    simp [hb]

variable {x set : Words} {b e : ℕ}

/-- The mask is empty if it is not right. -/
theorem getLsbD_range (hle : b ≤ e) (hword : b / 32 = e / 32) (i : ℕ) :
    (i / 32 = b / 32 ∧ (bitsetRange b e).getLsbD (i % 32) = true) ↔ Masked b e ∧ b ≤ i ∧ i ≤ e := by
  have hj : i % 32 < 32 := Nat.mod_lt _ (by decide)
  simp only [bitsetRange, BitVec.getLsbD_and, BitVec.getLsbD_not, getLsbD_mask _ hj,
    hj, Masked, decide_true,
    Bool.true_and, Bool.and_eq_true, decide_eq_true_eq, Bool.not_eq_true', decide_eq_false_iff_not]
  omega

/-- The bits of a set of which one word was stored. -/
theorem bit_set {w : ℕ} (hw : w < x.length) (v : BitVec 32) (i : ℕ) :
    bit (x.set w v) i = if i / 32 = w then v.getLsbD (i % 32) else bit x i := by
  unfold bit
  split_ifs with hi
  · simp [hi, hw]
  · simp [getElem?_set_ne (Ne.symm hi)]

/-- A word is not zero when it has a bit. -/
theorem ne_zero_iff {v : BitVec 32} : v ≠ 0 ↔ ∃ j < 32, v.getLsbD j = true := by
  rw [← not_iff_not, not_not]
  refine ⟨fun h => by simp [h], fun h => BitVec.eq_of_getLsbD_eq fun j hj => ?_⟩
  simpa using fun hv => h ⟨j, hj, hv⟩

/-- The macros are about the bits of the range exactly if the mask is right. -/
theorem exact_iff (hle : b ≤ e) (hword : b / 32 = e / 32) (hlen : e / 32 < x.length) :
    Exact x b e ↔ Masked b e := by
  have hrange := getLsbD_range hle hword
  have hsome {α : Type} (op : ℕ → α) : onRange b e op = some (op (b / 32)) := if_pos hword
  have hbit_set := fun v => bit_set (hword ▸ hlen) v (x := x)
  constructor
  · intro h
    obtain ⟨y, hy, hset⟩ := h.set
    obtain ⟨z, hz, hclear⟩ := h.clear
    cases (hsome _).symm.trans hy
    cases (hsome _).symm.trans hz
    by_contra hmask
    -- the mask has no bit `b`, so that neither macro changes it
    have hb : (bitsetRange b e).getLsbD (b % 32) = false :=
      Bool.eq_false_iff.2 fun hb => hmask ((hrange b).1 ⟨rfl, hb⟩).1
    have h1 := hset b
    have h2 := hclear b
    rw [hbit_set, if_pos rfl] at h1 h2
    rw [BitVec.getLsbD_or, hb] at h1
    rw [BitVec.getLsbD_and, BitVec.getLsbD_not, hb] at h2
    simp_all [bit, Nat.mod_lt]
  · intro hmask
    have hbit (i) (hi : i / 32 = b / 32) : (bitsetRange b e).getLsbD (i % 32) =
      decide (b ≤ i ∧ i ≤ e) := by
      rw [Bool.eq_iff_iff, decide_eq_true_eq]
      exact ⟨fun h => ((hrange i).1 ⟨hi, h⟩).2, fun h => ((hrange i).2 ⟨hmask, h⟩).2⟩
    have hout (i) (hi : i / 32 ≠ b / 32) : ¬(b ≤ i ∧ i ≤ e) := by omega
    refine ⟨⟨_, hsome _, fun i => ?_⟩, ⟨_, hsome _, fun i => ?_⟩, _, hsome _, ?_⟩
    · rw [hbit_set]
      split_ifs with hi
      · rw [BitVec.getLsbD_or, hbit i hi, ← hi, bit]
      · simp [hout i hi]
    · rw [hbit_set]
      split_ifs with hi
      · rw [BitVec.getLsbD_and, BitVec.getLsbD_not, hbit i hi, ← hi, bit]
        simp [Nat.mod_lt i (by decide : 0 < 32)]
      · simp [hout i hi]
    · rw [ne_zero_iff]
      constructor
      · rintro ⟨j, hj, hv⟩
        have hi : (b / 32 * 32 + j) / 32 = b / 32 ∧ (b / 32 * 32 + j) % 32 = j := by omega
        have hin := hbit (b / 32 * 32 + j) hi.1
        rw [hi.2] at hin
        rw [BitVec.getLsbD_and, hin, Bool.and_eq_true, decide_eq_true_eq] at hv
        exact ⟨_, hv.2, by rw [bit, hi.1, hi.2, hv.1]⟩
      · rintro ⟨i, hi, hx⟩
        have hi' : i / 32 = b / 32 := by omega
        refine ⟨i % 32, Nat.mod_lt _ (by decide), ?_⟩
        rw [BitVec.getLsbD_and, hbit i hi', ← hi']
        simpa [hi, bit] using hx

/-! ### The loop -/

/-- `ffs` returns the lowest bit. -/
theorem ffs_spec {v : BitVec 32} (h : v ≠ 0) :
    v.getLsbD (ffs v - 1) = true ∧ ffs v - 1 < 32 ∧ ∀ j < ffs v - 1, v.getLsbD j = false := by
  obtain ⟨j, hj, hv⟩ := ne_zero_iff.1 h
  obtain ⟨k, hk⟩ := Option.isSome_iff_exists.1 (find?_isSome.2 ⟨j, mem_range.2 hj, hv⟩)
  have hffs : ffs v - 1 = k := by simp [ffs, hk]
  rw [hffs]
  simpa using find?_range_eq_some.1 hk

/-- The bits of the word from `pos` on are still in `tmp`. -/
structure Pending (set : Words) (pos word : ℕ) (tmp : BitVec 32) : Prop where
  /-- The position is in the word. -/
  low : word * 32 ≤ pos
  /-- Or at its end. -/
  high : pos ≤ word * 32 + 32
  /-- The word has the bits of the set from the position on. -/
  bits : ∀ j < 32, tmp.getLsbD j = (bit set (word * 32 + j) && decide (pos ≤ word * 32 + j))

/-- At the beginning of a word all its bits are pending. -/
theorem Pending.ofWord (set : Words) (word : ℕ) :
    Pending set (word * 32) word (set[word]?.getD 0) := by
  refine ⟨le_rfl, by omega, fun j hj => ?_⟩
  rw [bit, show (word * 32 + j) / 32 = word by omega, show (word * 32 + j) % 32 = j by omega]
  simp

variable {size pos word : ℕ} {tmp : BitVec 32}

/-- A pending word has the bits of the set from the position on. -/
theorem Pending.bit_eq (h : Pending set pos word tmp) {k : ℕ} (hk : pos ≤ k)
    (hlt : k < word * 32 + 32) :
    bit set k = tmp.getLsbD (k - word * 32) := by
  have := h.low
  rw [h.bits _ (by omega), show word * 32 + (k - word * 32) = k by omega]
  simp [hk]

/-- The next bit of the set is found, and the bits behind it are left. -/
theorem Pending.nextSet (h : Pending set pos word tmp) (size : ℕ) :
    let r := bitsetNextSet set size word tmp
    (∀ k, pos ≤ k → k < r.1 → k < size → bit set k = false) ∧
      (r.1 < size → pos ≤ r.1 ∧ bit set r.1 = true ∧ Pending set (r.1 + 1) (r.1 / 32) r.2) := by
  fun_induction bitsetNextSet set size word tmp generalizing pos with
  | case1 word hend =>
    refine ⟨fun k hk hlt _ => ?_, fun hlt => (lt_irrefl _ hlt).elim⟩
    unfold bitsetWords at hend
    dsimp only at hlt
    exact (h.bit_eq hk (by omega)).trans BitVec.getLsbD_zero
  | case2 word hend ih =>
    obtain ⟨hnone, hnext⟩ := ih (.ofWord set _)
    have := h.high
    refine ⟨fun k hk hlt hsize => ?_, fun hlt => ?_⟩
    · by_cases hword : k < word * 32 + 32
      · exact (h.bit_eq hk hword).trans BitVec.getLsbD_zero
      · exact hnone k (by omega) hlt hsize
    · exact ⟨by have := (hnext hlt).1; omega, (hnext hlt).2⟩
  | case3 word tmp hne =>
    rename_i n
    obtain ⟨hset, hlt, hfirst⟩ : tmp.getLsbD n = true ∧ n < 32 ∧
      ∀ j < n, tmp.getLsbD j = false := ffs_spec hne
    clear_value n
    have hpos : bit set (word * 32 + n) = true ∧ pos ≤ word * 32 + n := by
      simpa using (h.bits n hlt).symm.trans hset
    refine ⟨fun k hk hltk _ => ?_, fun _ => ⟨hpos.2, hpos.1, ?_⟩⟩
    · have := h.low
      dsimp only at hltk
      rw [h.bit_eq hk (by omega)]
      exact hfirst _ (by omega)
    · dsimp only
      rw [show (word * 32 + n) / 32 = word by omega]
      refine ⟨by omega, by omega, fun j hj => ?_⟩
      have hone : ∀ n < 32, ∀ j < 32, (1#32 <<< n).getLsbD j = decide (j = n) := by decide
      rw [BitVec.getLsbD_and, BitVec.getLsbD_not, hone n hlt j hj]
      rcases lt_trichotomy j n with hjn | rfl | hjn
      · rw [hfirst j hjn, decide_eq_false (by omega : ¬word * 32 + n + 1 ≤ word * 32 + j)]
        simp
      · simp
      · rw [h.bit_eq (by omega) (by omega), Nat.add_sub_cancel_left]
        simp [hj, hjn.ne', Nat.succ_le_of_lt hjn, Nat.add_assoc]

/-- The loop from a position on visits the bits from there. -/
theorem bitsetForeachSet_eq {fuel i : ℕ} (h : Pending set pos (i / 32) tmp)
    (hfuel : size - pos < fuel) :
    bitsetForeachSet set size fuel i tmp = some ((range' pos (size - pos)).filter (bit set)) := by
  induction fuel generalizing i pos tmp with
  | zero => omega
  | succ fuel ih =>
    obtain ⟨hnone, hnext⟩ := h.nextSet size
    unfold bitsetForeachSet
    dsimp only [bitsetBitword]
    set r := bitsetNextSet set size (i / 32) tmp
    have hnil (n) (hn : n ≤ r.1 - pos ∧ n ≤ size - pos) : (range' pos n).filter (bit set) = [] := by
      refine filter_eq_nil_iff.2 fun k hk => ?_
      rw [mem_range'_1] at hk
      simp [hnone k hk.1 (by omega) (by omega)]
    split_ifs with hr
    · obtain ⟨hle, hbit, hpend⟩ := hnext hr
      rw [ih hpend (by omega), show size - pos = (r.1 - pos) +
        (size - (r.1 + 1) + 1) by omega, ← range'_append_1,
        show pos + (r.1 - pos) = r.1 by omega, filter_append, range'_succ, filter_cons_of_pos hbit,
        hnil _ (by omega)]
      rfl
    · rw [hnil _ (by omega)]

/-- `BITSET_FOREACH_SET` visits the bits of the set below `size` in increasing order. -/
theorem bitsetForeachSet_start (x : Words) (size : ℕ) :
    bitsetForeachSet x size (size + 1) 0 (x[0]?.getD 0) = some ((range size).filter (bit x)) := by
  rw [range_eq_range']
  exact bitsetForeachSet_eq (Pending.ofWord x 0) (Nat.lt_succ_self _)

/-- The macros for a range are about its bits exactly if the mask is right, and the loop visits the
bits of the set below `size` in increasing order. -/
theorem bitset_exact_iff (x : Words) {b e : ℕ} (hle : b ≤ e) (hword : b / 32 = e / 32)
    (hlen : e / 32 < x.length) (size : ℕ) :
    (Exact x b e ↔ Masked b e) ∧
      bitsetForeachSet x size (size + 1) 0 (x[0]?.getD 0) = some ((range size).filter (bit x)) :=
  ⟨exact_iff hle hword hlen, bitsetForeachSet_start x size⟩

/-- The upper half of the second word but for its last bit. -/
theorem bitset_exact_second : Exact [0, 1] 48 62 :=
  (bitset_exact_iff [0, 1] (by decide) (by decide) (by decide) 64).1.2 (by decide)

/-- Nothing is set at the beginning of the second word, or at its end. -/
theorem bitsetSetRange_second : bitsetSetRange [0, 0] 32 40 = some [0, 0] ∧
    bitsetSetRange [0, 0] 60 63 = some [0, 0] := by
  decide

end Mesa3D.Bitset
