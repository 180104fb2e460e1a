import Mathlib.Data.BitVec
import Mathlib.Tactic.LinearCombination
import Mathlib.Tactic.Ring

/-!
# Multi-word arithmetic

The sum and the product of two numbers in arrays of 32-bit words, the lowest word first, as
`bigmath.h` computes them. The three lengths are independent: the result is cut off behind the
destination, and what is lost is reported. A word of a sum is stored after the words of its summands
were read, so that the destination may be one of them.

A row of the product is left at the first word behind the destination. The words further up are not
read then, so that the overflow is reported exactly if the products that are read (`reached`) do
not fit either.
-/

namespace Mesa3D.BigMath

open List

/-- An array of words. -/
abbrev Words := List (BitVec 32)

/-- The number in an array. -/
def number : Words → ℕ
  | [] => 0
  | w :: ws => w.toNat + 2 ^ 32 * number ws

/-- The low and the high half of a result. -/
def halves (s : BitVec 64) : BitVec 32 × BitVec 32 := (s.setWidth 32, (s >>> 32).setWidth 32)

/-- The loops of `_ubm_add_u32arr`, for the words of the destination that are left. Nothing is added
behind the end of an array. -/
def addWords : ℕ → Words → Words → BitVec 32 → Words × Bool
  | 0, a, b, carry => ([], a.any (· != 0) || b.any (· != 0) || carry != 0)
  | n + 1, a, b, carry =>
    let (word, carry) :=
      halves (carry.setWidth 64 + (a.headD 0).setWidth 64 + (b.headD 0).setWidth 64)
    let (dst, overflow) := addWords n a.tail b.tail carry
    (word :: dst, overflow)

/-- `_ubm_add_u32arr`: the destination, and whether the sum does not fit. -/
def ubmAddU32arr (dstLen : ℕ) (a b : Words) : Words × Bool := addWords dstLen a b 0

/-- A row of `_ubm_mul_u32arr`, for the words of `b` that are left and those of the destination. -/
def mulRow (x : BitVec 32) : Words → Words → BitVec 32 → Words × Bool
  | [], [], carry => ([], 0 < carry)
  | [], _ :: dst, carry => (carry :: dst, false)
  -- the word does not fit, and the loop is left
  | w :: _, [], carry => ([], 0 < x.setWidth 64 * w.setWidth 64 + carry.setWidth 64)
  | w :: b, d :: dst, carry =>
    let (word, carry) := halves (x.setWidth 64 * w.setWidth 64 + carry.setWidth 64 + d.setWidth 64)
    let (dst, overflow) := mulRow x b dst carry
    (word :: dst, overflow)

/-- The rows of `_ubm_mul_u32arr`, each one word further up. -/
def mulRows (b : Words) : Words → Words → Words × Bool
  | [], dst => (dst, false)
  | x :: a, dst =>
    match mulRow x b dst 0 with
    | ([], lost) => ([], lost || (mulRows b a []).2)
    | (d :: dst, lost) =>
      let (dst, overflow) := mulRows b a dst
      (d :: dst, lost || overflow)

/-- `_ubm_mul_u32arr`: the destination, and whether the product does not fit. The sum of two indices
is computed in 32 bits. -/
def ubmMulU32arr (dstLen : ℕ) (a b : Words) (_ : a.length + b.length ≤ 2 ^ 32) : Words × Bool :=
  mulRows b a (replicate dstLen 0)

/-- The sum of the products of words that are read. -/
def reached (b : Words) : Words → ℕ → ℕ
  | [], _ => 0
  | x :: a, dstLen => x.toNat * number (b.take (dstLen + 1)) + 2 ^ 32 * reached b a (dstLen - 1)

variable {a b dst : Words}

/-- The halves of a number of 64 bits. -/
theorem toNat_halves (s : BitVec 64) : (halves s).1.toNat + 2 ^ 32 *
    (halves s).2.toNat = s.toNat := by
  simp only [halves, BitVec.toNat_setWidth, BitVec.toNat_ushiftRight, Nat.shiftRight_eq_div_pow]
  omega

/-- A number is below the power of its length. -/
theorem number_lt : number a < (2 ^ 32) ^ a.length := by
  induction a with
  | nil => decide
  | cons w a ih =>
    rw [number, length_cons, pow_succ (2 ^ 32)]
    omega

/-- A word is zero as a number. -/
theorem ne_zero_iff {w : BitVec 32} : (w != 0) = true ↔ w.toNat ≠ 0 := by simp [BitVec.toNat_eq]

/-- The test for words that are not zero. -/
theorem any_iff : a.any (· != 0) = true ↔ number a ≠ 0 := by
  induction a with
  | nil => simp [number]
  | cons w a ih =>
    rw [any_cons, Bool.or_eq_true, ih, ne_zero_iff, number]
    omega

/-- The low words and the high words. -/
theorem number_take_add_drop (a : Words) (n : ℕ) :
    number a = number (a.take n) + number (a.drop n) * (2 ^ 32) ^ n := by
  induction n generalizing a with
  | zero => simp [number]
  | succ n ih =>
    cases a with
    | nil => simp [number]
    | cons w a =>
      rw [take_succ_cons, drop_succ_cons, number, number, ih a]
      ring

/-- A result with `n` words, and what does not fit. -/
def Splits (r : Words × Bool) (n total : ℕ) : Prop :=
  r.1.length = n ∧ ∃ q, number r.1 + q * (2 ^ 32) ^ n = total ∧ (r.2 = true ↔ q ≠ 0)

/-- Words that split a total hold its remainder, and the flag says whether it was cut. -/
theorem Splits.mod_eq {r : Words × Bool} {n total : ℕ} (h : Splits r n total) :
    number r.1 = total % 2 ^ (32 * n) ∧ (r.2 = true ↔ 2 ^ (32 * n) ≤ total) := by
  obtain ⟨rfl, q, rfl, hq⟩ := h
  have hlt := number_lt (a := r.1)
  rw [Nat.pow_mul, Nat.add_mul_mod_self_right, Nat.mod_eq_of_lt hlt, hq]
  refine ⟨rfl, fun h => ?_, fun h h0 => ?_⟩
  · exact (Nat.le_mul_of_pos_left _ (Nat.pos_of_ne_zero h)).trans (Nat.le_add_left ..)
  · rw [h0] at h
    omega

/-- Neither the product with the carry nor the sum with one more word exceeds 64 bits. -/
theorem toNat_tmp (x w carry d : BitVec 32) :
    let tmp := x.setWidth 64 * w.setWidth 64 + carry.setWidth 64
    tmp.toNat = x.toNat * w.toNat + carry.toNat ∧
      (tmp + d.setWidth 64).toNat = x.toNat * w.toNat + carry.toNat + d.toNat := by
  have : x.toNat * w.toNat ≤ (2 ^ 32 - 1) * (2 ^ 32 - 1) :=
    Nat.mul_le_mul (Nat.le_sub_one_of_lt x.isLt) (Nat.le_sub_one_of_lt w.isLt)
  have hwide (v : BitVec 32) : v.toNat % 2 ^ 64 = v.toNat := Nat.mod_eq_of_lt (by omega)
  simp only [BitVec.toNat_add, BitVec.toNat_mul, BitVec.toNat_setWidth, hwide]
  omega

/-- The loop of the addition splits the sum. -/
theorem addWords_splits (n : ℕ) (a b : Words) (carry : BitVec 32) :
    Splits (addWords n a b carry) n (number a + number b + carry.toNat) := by
  induction n generalizing a b carry with
  | zero =>
    refine ⟨rfl, _, by rw [addWords, number, Nat.pow_zero, Nat.mul_one, Nat.zero_add], ?_⟩
    rw [addWords, Bool.or_eq_true, Bool.or_eq_true, any_iff, any_iff, ne_zero_iff]
    omega
  | succ n ih =>
    have hread (a : Words) : number a = (a.headD 0).toNat + 2 ^ 32 *
      number a.tail := by cases a <;> rfl
    rw [addWords, hread a, hread b]
    generalize hs : carry.setWidth 64 + (a.headD 0).setWidth 64 + (b.headD 0).setWidth 64 = s
    have hsum : s.toNat = carry.toNat + (a.headD 0).toNat + (b.headD 0).toNat := by
      rw [← hs]
      simp only [BitVec.toNat_add, BitVec.toNat_setWidth]
      omega
    obtain ⟨hlen, q, hq, hflag⟩ := ih a.tail b.tail (halves s).2
    refine ⟨congrArg (· + 1) hlen, q, ?_, hflag⟩
    rw [number, pow_succ (2 ^ 32)]
    linear_combination 2 ^ 32 * hq + toNat_halves s + hsum

/-- The carry is stored behind the words of the row, where the destination is still zero. -/
theorem mulRow_splits (x : BitVec 32) (b dst : Words) (carry : BitVec 32)
    (hzero : ∀ d ∈ dst.drop b.length, d = 0) :
    Splits (mulRow x b dst carry) dst.length
        (number dst + x.toNat * number (b.take (dst.length + 1)) + carry.toNat) ∧
      ∀ d ∈ (mulRow x b dst carry).1.drop (b.length + 1), d = 0 := by
  induction b generalizing dst carry with
  | nil =>
    cases dst with
    | nil =>
      refine ⟨⟨rfl, carry.toNat, by simp [mulRow, number], ?_⟩, by simp [mulRow]⟩
      simp [mulRow, BitVec.lt_def, Nat.pos_iff_ne_zero]
    | cons d dst =>
      obtain ⟨rfl, hrest⟩ := forall_mem_cons.1 hzero
      exact ⟨⟨rfl, 0, by simp [mulRow, number, Nat.add_comm], by simp [mulRow]⟩, hrest⟩
  | cons w b ih =>
    cases dst with
    | nil =>
      refine ⟨⟨rfl, x.toNat * w.toNat +
        carry.toNat, by simp [mulRow, number], ?_⟩, by simp [mulRow]⟩
      rw [mulRow, decide_eq_true_eq, BitVec.lt_def, (toNat_tmp x w carry 0).1]
      exact Nat.pos_iff_ne_zero
    | cons d dst =>
      have hsum := (toNat_tmp x w carry d).2
      rw [mulRow]
      generalize x.setWidth 64 * w.setWidth 64 + carry.setWidth 64 + d.setWidth 64 = s at hsum ⊢
      obtain ⟨⟨hlen, q, hq, hflag⟩, hrest⟩ := ih dst (halves s).2 hzero
      refine ⟨⟨congrArg (· + 1) hlen, q, ?_, hflag⟩, hrest⟩
      rw [number, length_cons, take_succ_cons, number, number, pow_succ (2 ^ 32)]
      linear_combination 2 ^ 32 * hq + toNat_halves s + hsum

/-- The loop of the multiplication splits what its rows reach. -/
theorem mulRows_splits (b a dst : Words) (hzero : ∀ d ∈ dst.drop b.length, d = 0) :
    Splits (mulRows b a dst) dst.length (number dst + reached b a dst.length) := by
  induction a generalizing dst with
  | nil => exact ⟨rfl, 0, by simp [mulRows, reached], by simp [mulRows]⟩
  | cons x a ih =>
    obtain ⟨⟨hlen, q, hq, hlost⟩, hrest⟩ := mulRow_splits x b dst 0 hzero
    have hcarry : (0 : BitVec 32).toNat = 0 := rfl
    rw [mulRows, reached]
    generalize mulRow x b dst 0 = r at hlen hq hlost hrest ⊢
    rw [← hlen] at hq ⊢
    rcases r with ⟨_ | ⟨d, out⟩, lost⟩
    · obtain ⟨hlen', q', hq', hflag⟩ := ih [] (by simp)
      have hnil := hlen' ▸ number_lt (a := (mulRows b a []).1)
      refine ⟨rfl, q + 2 ^ 32 * q', ?_, ?_⟩
      · rw [Nat.lt_one_iff.1 hnil] at hq'
        rw [number, length_nil, Nat.zero_sub]
        rw [number, length_nil] at hq hq'
        linear_combination hq + 2 ^ 32 * hq' + hcarry
      · rw [Bool.or_eq_true, hlost, hflag]
        omega
    · obtain ⟨hlen', q', hq', hflag⟩ := ih out hrest
      refine ⟨congrArg (· + 1) hlen', q + q', ?_, ?_⟩
      · rw [number, length_cons, Nat.add_sub_cancel]
        rw [number, length_cons] at hq
        linear_combination hq + 2 ^ 32 * hq' + hcarry
      · rw [Bool.or_eq_true, hlost, hflag]
        omega

/-- The products that are not read do not count in the destination. -/
theorem number_mul (b a : Words) (n : ℕ) : ∃ k, number a * number b =
    reached b a n + k * (2 ^ 32) ^ n := by
  induction a generalizing n with
  | nil => exact ⟨0, by simp [number, reached]⟩
  | cons x a ih =>
    have hb := number_take_add_drop b (n + 1)
    rw [number, reached]
    cases n with
    | zero =>
      obtain ⟨k, hk⟩ := ih 0
      exact ⟨x.toNat * number (b.drop 1) * 2 ^ 32 + 2 ^ 32 *
        k, by linear_combination x.toNat * hb + 2 ^ 32 * hk⟩
    | succ n =>
      obtain ⟨k, hk⟩ := ih n
      rw [Nat.add_sub_cancel]
      exact ⟨x.toNat * number (b.drop (n + 2)) * 2 ^ 32 +
        k, by linear_combination x.toNat * hb + 2 ^ 32 * hk⟩

/-- The sum is right modulo the destination, and the flag says whether it fits. -/
theorem ubmAddU32arr_eq (n : ℕ) (a b : Words) :
    number (ubmAddU32arr n a b).1 = (number a + number b) % 2 ^ (32 * n) ∧
      ((ubmAddU32arr n a b).2 = true ↔ 2 ^ (32 * n) ≤ number a + number b) :=
  (addWords_splits n a b 0).mod_eq

/-- The destination starts at zero. -/
theorem number_replicate_zero (n : ℕ) : number (replicate n 0) = 0 := by
  by_contra h
  obtain ⟨w, hw, hne⟩ := any_eq_true.1 (any_iff.2 h)
  simp [eq_of_mem_replicate hw] at hne

/-- The product is right modulo the destination, and the flag says whether what the rows reach
fits. -/
theorem ubmMulU32arr_eq (n : ℕ) (a b : Words) (hlen : a.length + b.length ≤ 2 ^ 32) :
    number (ubmMulU32arr n a b hlen).1 = number a * number b % 2 ^ (32 * n) ∧
      ((ubmMulU32arr n a b hlen).2 = true ↔ 2 ^ (32 * n) ≤ reached b a n) := by
  obtain ⟨k, hk⟩ := number_mul b a n
  obtain ⟨hprod, hflag⟩ :=
    (mulRows_splits b a (replicate n 0) fun d hd => eq_of_mem_replicate (mem_of_mem_drop hd)).mod_eq
  rw [number_replicate_zero, length_replicate, Nat.zero_add] at hprod hflag
  refine ⟨?_, hflag⟩
  rw [hk, Nat.pow_mul, Nat.add_mul_mod_self_right, ← Nat.pow_mul]
  exact hprod

/-- The sum and the product are right modulo the destination. The flag of the sum is always right,
that of the product unless it does not fit and the rows do not reach the words that say so. -/
theorem ubm_u32arr_iff (n : ℕ) (a b : Words) :
    let sum := ubmAddU32arr n a b
    number sum.1 = (number a + number b) % 2 ^ (32 * n) ∧
      (sum.2 = true ↔ 2 ^ (32 * n) ≤ number a + number b) ∧
      ∀ hlen : a.length + b.length ≤ 2 ^ 32,
        let product := ubmMulU32arr n a b hlen
        number product.1 = number a * number b % 2 ^ (32 * n) ∧
          ((product.2 = true ↔ 2 ^ (32 * n) ≤ number a * number b) ↔
            (2 ^ (32 * n) ≤ number a * number b → 2 ^ (32 * n) ≤ reached b a n)) := by
  intro sum
  obtain ⟨hsum, hover⟩ := ubmAddU32arr_eq n a b
  refine ⟨hsum, hover, fun hlen => ?_⟩
  obtain ⟨hprod, hflag⟩ := ubmMulU32arr_eq n a b hlen
  refine ⟨hprod, ?_⟩
  obtain ⟨k, hk⟩ := number_mul b a n
  have hle : reached b a n ≤ number a * number b := hk ▸ Nat.le_add_right ..
  rw [hflag]
  exact ⟨fun h => h.2, fun h => ⟨hle.trans', h⟩⟩

/-- Two words each: the sum carries into its second and third word, the product into all above. -/
theorem ubm_u32arr_iff_carry :
    let a : Words := [0xffffffff, 1]
    let b : Words := [2, 0xffffffff]
    ubmAddU32arr 3 a b = ([1, 1, 1], false) ∧
      number (ubmAddU32arr 3 a b).1 = (number a + number b) % 2 ^ (32 * 3) ∧
      ubmMulU32arr 4 a b (by decide) = ([0xfffffffe, 4, 0xfffffffd, 1], false) ∧
      number (ubmMulU32arr 4 a b (by decide)).1 = number a * number b % 2 ^ (32 * 4) := by
  intro a b
  have hsum := (ubm_u32arr_iff 3 a b).1
  have hproduct := ((ubm_u32arr_iff 4 a b).2.2 (by decide)).1
  exact ⟨by decide +kernel, hsum, by decide +kernel, hproduct⟩

/-- The row of 1 stops in front of the highest word of `b`. -/
theorem ubmMulU32arr_lost : ∃ hlen, ubmMulU32arr 1 [1] [0, 0, 1] hlen = ([0], false) ∧
    2 ^ 32 ≤ number [1] * number [0, 0, 1] := by
  decide

end Mesa3D.BigMath
