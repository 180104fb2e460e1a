import Mathlib.Data.Nat.Bitwise
import Mathlib.Data.List.Induction
import Mathlib.Data.List.Pairwise

/-!
# Bit fields of a word

Reading and writing the bits `low` to `high` of a word. A written value is not masked: it must fit
its field (`v < 2 ^ (high - low + 1)`), or its upper bits spill over the field. A field that was
written reads back, and a write leaves the fields beside it alone; `getField_setField_of_le` reads
a part of the field that was written.

`applyWrites` makes a list of writes in order. If each of them writes what a given word has in that
field, or is overwritten by a later one, then the result agrees with that word in all bits that some
write covers (`Faithful`).
-/

namespace Mesa3D.Bits

open List Nat BitVec

variable {w : ℕ}

/-- The bits `low` to `high` of a word. -/
def getField (x : BitVec w) (high low : ℕ) : ℕ :=
  (x.toNat >>> low) &&& (2 ^ (high - low + 1) - 1)

/-- Replace the bits `low` to `high` of a word. -/
def setField (x : BitVec w) (high low value : ℕ) : BitVec w :=
  (x &&& ~~~(BitVec.ofNat w ((2 ^ (high - low + 1) - 1) <<< low))) |||
    BitVec.ofNat w (value <<< low)

/-- The bits of a field. -/
theorem testBit_getField (x : BitVec w) (high low k : ℕ) :
    (getField x high low).testBit k = (decide (k < high - low + 1) && x.getLsbD (low + k)) := by
  simp only [getField, testBit_and, testBit_shiftRight, testBit_two_pow_sub_one,
    testBit_toNat, Bool.and_comm]

/-- A field fits its width. -/
theorem getField_lt (x : BitVec w) (high low : ℕ) : getField x high low < 2 ^ (high - low + 1) := by
  unfold getField
  have := Nat.and_le_right (n := x.toNat >>> low) (m := 2 ^ (high - low + 1) - 1)
  have := Nat.two_pow_pos (high - low + 1)
  omega

variable {x p : BitVec w} {high low v i : ℕ} {ws : List Write} {a : Write}

/-- A value that fits its field has its bits there only. -/
theorem getLsbD_shiftLeft (hle : low ≤ high) (hv : v < 2 ^ (high - low + 1))
    (hi : i ≤ high → i < w) :
    (BitVec.ofNat w (v <<< low)).getLsbD i = (decide (low ≤ i ∧
      i ≤ high) && v.testBit (i - low)) := by
  rw [getLsbD_ofNat, testBit_shiftLeft]
  by_cases hhigh : i ≤ high
  · simp [hhigh, hi hhigh]
  · by_cases hlow : low ≤ i
    · have hbit : v.testBit (i - low) = false :=
        Nat.testBit_lt_two_pow (Nat.lt_of_lt_of_le hv (Nat.pow_le_pow_right (by decide) (by omega)))
      simp [hbit]
    · simp [hlow]

/-- The bits after a field was set. -/
theorem getLsbD_setField (hle : low ≤ high) (hv : v < 2 ^ (high - low + 1)) (hi : i < w) :
    (setField x high low v).getLsbD i =
      if low ≤ i ∧ i ≤ high then v.testBit (i - low) else x.getLsbD i := by
  have hmask : 2 ^ (high - low + 1) - 1 < 2 ^ (high - low + 1) :=
    Nat.sub_lt (Nat.two_pow_pos _) (by decide)
  rw [setField, getLsbD_or, getLsbD_and, getLsbD_not, getLsbD_shiftLeft hle hmask fun _ => hi,
    getLsbD_shiftLeft hle hv fun _ => hi, testBit_two_pow_sub_one]
  by_cases hin : low ≤ i ∧ i ≤ high
  · have h1 : i - low < high - low + 1 := by omega
    simp [hin, h1]
  · simp [hin, hi]

/-- Words with the same bits in a field have the same field. -/
theorem getField_congr {y : BitVec w} (hle : low ≤ high)
    (h : ∀ i < w, low ≤ i → i ≤ high → y.getLsbD i = x.getLsbD i) :
    getField y high low = getField x high low := by
  apply eq_of_testBit_eq
  intro k
  rw [testBit_getField, testBit_getField]
  by_cases hk : k < high - low + 1
  · by_cases hw : low + k < w
    · rw [h _ hw (by omega) (by omega)]
    · rw [getLsbD_of_ge _ _ (by omega), getLsbD_of_ge _ _ (by omega)]
  · simp [hk]

/-- Reading a part of the field that was written. -/
theorem getField_setField_of_le {high' low' : ℕ} (h1 : low ≤ low') (h2 : low' ≤ high')
    (h3 : high' ≤ high) (h4 : high < w) (hv : v < 2 ^ (high - low + 1)) :
    getField (setField x high low v) high' low' =
      (v >>> (low' - low)) &&& (2 ^ (high' - low' + 1) - 1) := by
  apply eq_of_testBit_eq
  intro k
  rw [testBit_getField, testBit_and, testBit_shiftRight, testBit_two_pow_sub_one, Bool.and_comm]
  by_cases hk : k < high' - low' + 1
  · rw [getLsbD_setField (by omega) hv (by omega), if_pos (by omega)]
    congr 2
    omega
  · simp [hk]

/-- A field that was written reads back. -/
theorem getField_setField_self (h1 : low ≤ high) (h2 : high < w) (hv : v < 2 ^ (high - low + 1)) :
    getField (setField x high low v) high low = v := by
  rw [getField_setField_of_le (le_refl low) h1 (le_refl high) h2 hv, Nat.sub_self,
    shiftRight_zero, and_two_pow_sub_one_of_lt_two_pow hv]

/-- A write leaves the fields beside it alone. -/
theorem getField_setField_of_disjoint {high' low' : ℕ} (hle : low ≤ high)
    (h : high' < low ∨ high < low') (h' : low' ≤ high') (hv : v < 2 ^ (high - low + 1)) :
    getField (setField x high low v) high' low' = getField x high' low' := by
  refine getField_congr h' fun i hi h1 h2 => ?_
  rw [getLsbD_setField hle hv hi, if_neg (by omega)]

/-- Writing back what a field holds changes nothing. -/
theorem setField_getField (hle : low ≤ high) : setField x high low (getField x high low) = x := by
  apply eq_of_getLsbD_eq
  intro i hi
  rw [getLsbD_setField hle (getField_lt x high low) hi]
  split_ifs with h
  · have hlt : i - low < high - low + 1 := by omega
    simp [testBit_getField, hlt, Nat.add_sub_cancel' h.1]
  · rfl

/-- A write does not change the bits below its field, whether its value fits or not. -/
theorem getLsbD_setField_of_lt (hi : i < w) (h : i < low) :
    (setField x high low v).getLsbD i = x.getLsbD i := by
  have hlow : ¬ low ≤ i := by omega
  simp only [setField, getLsbD_or, getLsbD_and, getLsbD_not, hi, decide_true,
    Bool.true_and, getLsbD_ofNat, testBit_shiftLeft, hlow]
  simp

/-! ### Lists of writes -/

/-- A write of a value to the bits `low` to `high`. -/
structure Write where
  /-- The highest bit. -/
  high : ℕ
  /-- The lowest bit. -/
  low : ℕ
  /-- The value. -/
  value : ℕ

/-- The field lies in the word, and the value fits it. -/
def Write.Fits (w : ℕ) (a : Write) : Prop :=
  a.low ≤ a.high ∧ a.high < w ∧ a.value < 2 ^ (a.high - a.low + 1)

/-- A write of a value that fits, with its bounds decided. -/
theorem Write.Fits.mk (hv : v < 2 ^ (high - low + 1)) (h1 : low ≤ high := by decide)
    (h2 : high < w := by decide) : Write.Fits w ⟨high, low, v⟩ := ⟨h1, h2, hv⟩

/-- Make the writes in order. -/
def applyWrites (x : BitVec w) (ws : List Write) : BitVec w :=
  ws.foldl (fun x a => setField x a.high a.low a.value) x

/-- The fields that the writes go to, as pairs of a high and a low bit. -/
def ranges (ws : List Write) : List (ℕ × ℕ) :=
  ws.map fun a => (a.high, a.low)

/-- Some of the fields has the bit `i`. -/
def covers (rs : List (ℕ × ℕ)) (i : ℕ) : Bool :=
  rs.any fun r => decide (r.2 ≤ i) && decide (i ≤ r.1)

/-- Each write has the value of the field in `p`, or fits its field and is overwritten by a later
one. -/
inductive Faithful (p : BitVec w) : List Write → Prop
  | nil : Faithful p []
  | write {high low v : ℕ} {ws : List Write} (hle : low ≤ high) (hv : v = getField p high low)
      (h : Faithful p ws) : Faithful p (⟨high, low, v⟩ :: ws)
  | overwritten {high low v : ℕ} {ws : List Write} (hle : low ≤ high)
      (hv : v < 2 ^ (high - low + 1)) (hlater : ∃ b ∈ ws, b.low ≤ low ∧ high ≤ b.high)
      (h : Faithful p ws) : Faithful p (⟨high, low, v⟩ :: ws)

/-- What a range and more ranges cover. -/
theorem covers_cons (r : ℕ × ℕ) (rs : List (ℕ × ℕ)) (i : ℕ) :
    covers (r :: rs) i = true ↔ (r.2 ≤ i ∧ i ≤ r.1) ∨ covers rs i = true := by
  simp [covers]

/-- Faithful writes copy what they cover. -/
theorem getLsbD_applyWrites (h : Faithful p ws) (x : BitVec w) (hi : i < w) :
    (applyWrites x ws).getLsbD i =
      if covers (ranges ws) i = true then p.getLsbD i else x.getLsbD i := by
  induction h generalizing x with
  | nil => simp [applyWrites, ranges, covers]
  | @write high low v ws hle hv h ih =>
    have hfits : v < 2 ^ (high - low + 1) := hv ▸ getField_lt p high low
    show (applyWrites (setField x high low v) ws).getLsbD i = _
    rw [ih, getLsbD_setField hle hfits hi]
    simp only [ranges, map_cons, covers_cons]
    by_cases hin : low ≤ i ∧ i ≤ high
    · have hlt : i - low < high - low + 1 := by omega
      simp [hin, hv, testBit_getField, hlt, Nat.add_sub_cancel' hin.1]
    · simp [hin]
  | @overwritten high low v ws hle hv hlater h ih =>
    show (applyWrites (setField x high low v) ws).getLsbD i = _
    rw [ih, getLsbD_setField hle hv hi]
    simp only [ranges, map_cons, covers_cons]
    by_cases hin : low ≤ i ∧ i ≤ high
    · -- the later write covers the bit as well
      have hcov : covers (ws.map fun a => (a.high, a.low)) i = true := by
        obtain ⟨b, hb, hlow, hhigh⟩ := hlater
        exact any_eq_true.mpr ⟨_, mem_map_of_mem hb, by simp; omega⟩
      simp [hcov]
    · simp [hin]

/-- Faithful writes to a zero word make `p` exactly if `p` is zero where nothing was written. -/
theorem applyWrites_zero_eq_iff (h : Faithful p ws) :
    applyWrites 0 ws = p ↔ ∀ i < w, covers (ranges ws) i = false → p.getLsbD i = false := by
  constructor
  · intro heq i hi hcov
    rw [← heq, getLsbD_applyWrites h 0 hi, hcov]
    simp
  · intro hzero
    apply eq_of_getLsbD_eq
    intro i hi
    rw [getLsbD_applyWrites h 0 hi]
    split_ifs with hcov
    · rfl
    · simp [hzero i hi (by simpa using hcov)]

/-- After faithful writes, a field that they cover reads as in `p`. -/
theorem getField_applyWrites_of_covers (h : Faithful p ws) (x : BitVec w)
    (hcov : ∀ i, low ≤ i → i ≤ high → i < w → covers (ranges ws) i = true) (hle : low ≤ high) :
    getField (applyWrites x ws) high low = getField p high low := by
  refine getField_congr hle fun i hi h1 h2 => ?_
  rw [getLsbD_applyWrites h x hi, if_pos (hcov i h1 h2 hi)]

/-- A field is zero exactly if all its bits are. -/
theorem getField_eq_zero_iff (hle : low ≤ high) :
    getField x high low = 0 ↔ ∀ i, low ≤ i → i ≤ high → x.getLsbD i = false := by
  constructor
  · intro h i hlow hhigh
    have hbit := testBit_getField x high low (i - low)
    have hlt : i - low < high - low + 1 := by omega
    rw [h, Nat.zero_testBit, Nat.add_sub_cancel' hlow] at hbit
    simpa [hlt] using hbit.symm
  · intro h
    apply eq_of_testBit_eq
    intro k
    rw [testBit_getField, zero_testBit]
    by_cases hk : k < high - low + 1
    · simp [h (low + k) (by omega) (by omega)]
    · simp [hk]

/-- The fields do not overlap. -/
def Disjoint (rs : List (ℕ × ℕ)) : Prop :=
  rs.Pairwise fun a b => a.1 < b.2 ∨ b.1 < a.2

instance (rs : List (ℕ × ℕ)) : Decidable (Disjoint rs) :=
  inferInstanceAs (Decidable (Pairwise _ _))

/-- After writes to fields that do not overlap, each field holds its value. -/
theorem getField_applyWrites (hdisj : Disjoint (ranges ws)) (hfits : ∀ a ∈ ws, a.Fits w)
    (x : BitVec w) (ha : a ∈ ws) : getField (applyWrites x ws) a.high a.low = a.value := by
  unfold Disjoint ranges at hdisj
  rw [pairwise_map] at hdisj
  induction ws using reverseRecOn with
  | nil => cases ha
  | append_singleton ws b ih =>
    obtain ⟨hle, hlt, hv⟩ := hfits b (by simp)
    have hstep : applyWrites x (ws ++ [b]) = setField (applyWrites x ws) b.high b.low b.value := by
      simp [applyWrites]
    obtain ⟨hws, -, hcross⟩ := pairwise_append.mp hdisj
    rw [hstep]
    rcases mem_append.mp ha with ha | ha
    · rw [getField_setField_of_disjoint hle (hcross a ha b (by simp)) (hfits a (by simp [ha])).1 hv]
      exact ih hws (fun c hc => hfits c (by simp [hc])) ha
    · obtain rfl : a = b := by simpa using ha
      exact getField_setField_self hle hlt hv

/-- Writes whose values fit leave the bits alone that they do not cover. -/
theorem getLsbD_applyWrites_of_not_covers (hfits : ∀ a ∈ ws, a.Fits w) (x : BitVec w) (hi : i < w)
    (hcov : covers (ranges ws) i = false) : (applyWrites x ws).getLsbD i = x.getLsbD i := by
  induction ws generalizing x with
  | nil => rfl
  | cons a ws ih =>
    obtain ⟨hle, -, hv⟩ := hfits a (by simp)
    have hnot : ¬ ((a.low ≤ i ∧ i ≤ a.high) ∨ covers (ranges ws) i = true) := by
      rw [← covers_cons (a.high, a.low), Bool.not_eq_true]
      exact hcov
    show (applyWrites (setField x a.high a.low a.value) ws).getLsbD i = _
    rw [ih (fun b hb => hfits b (by simp [hb])) _ (by simpa using fun h => hnot (.inr h)),
      getLsbD_setField hle hv hi, if_neg fun h => hnot (.inl h)]

/-- Writes above a field leave it alone, whether their values fit or not. -/
theorem getField_applyWrites_of_lt (hle : low ≤ high) (h : ∀ a ∈ ws, high < a.low) (x : BitVec w) :
    getField (applyWrites x ws) high low = getField x high low := by
  induction ws generalizing x with
  | nil => rfl
  | cons a ws ih =>
    show getField (applyWrites (setField x a.high a.low a.value) ws) high low = _
    rw [ih fun b hb => h b (by simp [hb])]
    exact getField_congr hle fun i hi _ hhigh =>
      getLsbD_setField_of_lt hi (hhigh.trans_lt (h a (by simp)))

/-- A field whose top bit is zero is that of the bits below. -/
theorem getField_lt_of_top (hle : low < high) (h : getField x high high = 0) :
    getField x high low < 2 ^ (high - low) := by
  have hbit := (getField_eq_zero_iff (le_refl high)).mp h high (le_refl high) (le_refl high)
  apply lt_pow_two_of_testBit
  intro k hk
  rw [testBit_getField]
  by_cases hk' : k < high - low + 1
  · have hidx : low + k = high := by omega
    rw [hidx, hbit, Bool.and_false]
  · simp [hk']

/-- Faithful writes after faithful writes are faithful. -/
theorem Faithful.append {ws' : List Write} (h : Faithful p ws) (h' : Faithful p ws') :
    Faithful p (ws ++ ws') := by
  induction h with
  | nil => exact h'
  | write hle hv _ ih => exact .write hle hv ih
  | overwritten hle hv hlater _ ih =>
    obtain ⟨b, hb, hsub⟩ := hlater
    exact .overwritten hle hv ⟨b, mem_append_left _ hb, hsub⟩ ih

/-! ### Values that are ORed together -/

/-- OR the values into a zero word, each at its field. -/
def orWrites (w : ℕ) (ws : List Write) : BitVec w :=
  ws.foldr (fun a x => BitVec.ofNat w (a.value <<< a.low) ||| x) 0

/-- The bits of writes that are ORed together. -/
theorem getLsbD_orWrites (hfits : ∀ a ∈ ws, a.Fits w) (i : ℕ) :
    (orWrites w ws).getLsbD i = true ↔
      ∃ a ∈ ws, (a.low ≤ i ∧ i ≤ a.high) ∧ a.value.testBit (i - a.low) = true := by
  induction ws with
  | nil => simp [orWrites]
  | cons a ws ih =>
    obtain ⟨hle, hw, hv⟩ := hfits a (by simp)
    rw [orWrites, foldr_cons, ← orWrites, getLsbD_or,
      getLsbD_shiftLeft hle hv fun hi => hi.trans_lt hw,
      Bool.or_eq_true, ih fun b hb => hfits b (by simp [hb])]
    simp

/-- A field reads as the value that was ORed into it, if the other values have other fields. A value
may be ORed in more than once, and a field without a value reads as zero. -/
theorem getField_orWrites (hfits : ∀ a ∈ ws, a.Fits w) (hle : low ≤ high)
    (hother : ∀ a ∈ ws, a = ⟨high, low, v⟩ ∨ a.high < low ∨ high < a.low)
    (hv : v = 0 ∨ ⟨high, low, v⟩ ∈ ws) : getField (orWrites w ws) high low = v := by
  have hlt : v < 2 ^ (high - low + 1) := by
    rcases hv with rfl | hmem
    · exact Nat.two_pow_pos _
    · exact (hfits _ hmem).2.2
  apply eq_of_testBit_eq
  intro k
  rw [testBit_getField]
  by_cases hk : k < high - low + 1
  · rw [decide_eq_true hk, Bool.true_and, Bool.eq_iff_iff, getLsbD_orWrites hfits]
    constructor
    · rintro ⟨a, ha, hin, hbit⟩
      rcases hother a ha with rfl | hdisj
      · simpa using hbit
      · omega
    · intro hbit
      have hmem := hv.resolve_left (by rintro rfl; simp at hbit)
      exact ⟨_, hmem, by simp only; omega, by simpa using hbit⟩
  · rw [decide_eq_false hk, Bool.false_and]
    exact (testBit_lt_two_pow
      (Nat.lt_of_lt_of_le hlt (Nat.pow_le_pow_right (by decide) (by omega)))).symm

/-- After values were ORed into fields that do not overlap, each field holds its value. -/
theorem getField_orWrites_of_disjoint (hdisj : Disjoint (ranges ws)) (hfits : ∀ a ∈ ws, a.Fits w)
    (ha : a ∈ ws) : getField (orWrites w ws) a.high a.low = a.value := by
  unfold Disjoint ranges at hdisj
  rw [pairwise_map] at hdisj
  have : Std.Symm fun a b : Write => a.high < b.low ∨ b.high < a.low := ⟨fun _ _ h => h.symm⟩
  refine getField_orWrites hfits (hfits a ha).1 (fun b hb => ?_) (.inr ha)
  by_cases hab : b = a
  · exact .inl hab
  · exact .inr (hdisj.forall hb ha hab)

end Mesa3D.Bits
