import Mathlib.Data.BitVec
import Mathlib.Tactic.Ring

/-!
# Trip counts

`calculate_iterations` of `nir_loop_analyze.c`, for integer conditions on an induction variable of
32 bits. It divides the distance from the initial value to the limit by the step, and takes the
first of this quotient and its two neighbours at which the loop is left. Whether the loop is left
earlier is not looked at, so that a count is the right one only if the constants meet
`Terminator.OnTime`, and there is nothing that keeps the division from being undefined.

An `int` that overflows, and a division that C does not define, have no result (`none`).
-/

namespace Mesa3D.Nir.LoopAnalyze

/-- The comparisons of integers. -/
inductive CondOp
  | ige | ilt | ieq | ine | uge | ult
  deriving DecidableEq

namespace CondOp

/-- The comparison on 32 bits. -/
def eval : CondOp → BitVec 32 → BitVec 32 → Bool
  | ige, a, b => b.sle a
  | ilt, a, b => a.slt b
  | ieq, a, b => a == b
  | ine, a, b => a != b
  | uge, a, b => b.ule a
  | ult, a, b => a.ult b

/-- `get_iteration` divides signed numbers. -/
def isSigned : CondOp → Bool
  | ige | ilt | ieq | ine => true
  | uge | ult => false

end CondOp

/-- A terminator with its condition, and the induction variable `initial + step + ... + step`. -/
structure Terminator where
  /-- The comparison. -/
  op : CondOp
  /-- The first value. -/
  initial : BitVec 32
  /-- The step. -/
  step : BitVec 32
  /-- The limit. -/
  limit : BitVec 32
  /-- The limit is the second operand. -/
  limitRhs : Bool
  /-- `continue_from_then`: the loop is left where the condition is false. -/
  invertCond : Bool
  /-- The condition reads the variable behind the step of the iteration. -/
  readsAluDef : Bool
  deriving DecidableEq

variable (x : Terminator)

/-- `get_iteration`. -/
def getIteration : Option ℤ :=
  if x.op.isSigned then
    let span := x.limit.toInt - x.initial.toInt
    if span < -2 ^ 31 ∨ 2 ^ 31 ≤ span then none
    else if x.step = 0 ∨ span = -2 ^ 31 ∧ x.step.toInt = -1 then none
    else some (span.tdiv x.step.toInt)
  else if x.step = 0 then none
  else some ((x.limit - x.initial) / x.step).toInt

namespace Terminator

/-- The loop is left where the variable has the given value. -/
def leaves (value : BitVec 32) : Bool :=
  let result := if x.limitRhs then x.op.eval value x.limit else x.op.eval x.limit value
  if x.invertCond then !result else result

/-- The value of the variable after `i` steps. -/
def valueAt (i : ℤ) : BitVec 32 := BitVec.ofInt 32 i * x.step + x.initial

/-- The steps in front of the first condition, when it reads the incremented value. -/
def tripOffset : ℤ := if x.readsAluDef then 1 else 0

end Terminator

/-- `test_iterations`. -/
def testIterations (iterInt : ℤ) : Bool := x.leaves (x.valueAt iterInt)

/-- The loop of `calculate_iterations` over the given biases. -/
def tryBias (x : Terminator) (iterInt : ℤ) : List ℤ → Option ℤ
  | [] => some (-1)
  | bias :: rest =>
    let iterBias := iterInt + bias
    if 2 ^ 31 ≤ iterBias then none
    else if testIterations x iterBias then some
      (if 0 < iterBias then iterBias - x.tripOffset else iterBias)
    else tryBias x iterInt rest

/-- `calculate_iterations`. -/
def calculateIterations : Option ℤ :=
  (getIteration x).bind fun iterInt => if iterInt < 0 then some (-1)
    else tryBias x iterInt [-1, 0, 1]

/-! ### The loop -/

namespace Terminator

variable {x : Terminator} {k : ℕ} {m q : ℤ}

/-- The phi of the variable at the start of an iteration. -/
def phi (x : Terminator) : ℕ → BitVec 32
  | 0 => x.initial
  | n + 1 => x.phi n + x.step

/-- What the condition reads in an iteration. -/
def operand (n : ℕ) : BitVec 32 := if x.readsAluDef then x.phi n + x.step else x.phi n

/-- The terminator is passed `k` times, and then the loop is left. -/
def Passes (k : ℕ) : Prop :=
  (∀ j < k, x.leaves (x.operand j) = false) ∧ x.leaves (x.operand k) = true

/-- The phi counts the steps. -/
theorem phi_eq (n : ℕ) : x.phi n = x.valueAt n := by
  induction n with
  | zero => simp [phi, valueAt]
  | succ n ih =>
    rw [phi, ih, valueAt, valueAt, Nat.cast_succ, BitVec.ofInt_add]
    show _ = (_ + 1) * _ + _
    ring

/-- The condition reads the value after the offset. -/
theorem operand_eq (n : ℕ) : x.operand n = x.valueAt (n + x.tripOffset) := by
  rw [operand, tripOffset]
  split_ifs
  · rw [← phi, phi_eq, Nat.cast_succ]
  · rw [phi_eq, add_zero]

/-! ### The guess -/

/-- The division of `get_iteration` and the subtraction before it are defined. -/
def Defined : Prop :=
  x.step ≠ 0 ∧ (x.op.isSigned = true → -2 ^ 31 ≤ x.limit.toInt - x.initial.toInt ∧
    x.limit.toInt - x.initial.toInt < 2 ^ 31 ∧
      ¬ (x.limit.toInt - x.initial.toInt = -2 ^ 31 ∧ x.step.toInt = -1))

/-- The distance to the limit, divided by the step. -/
def quotient : ℤ :=
  if x.op.isSigned then (x.limit.toInt - x.initial.toInt).tdiv x.step.toInt
  else ((x.limit - x.initial) / x.step).toInt

/-- Of the quotient and its neighbours, `m` is the first number of steps after which the loop is
left. -/
structure IsGuess (x : Terminator) (m : ℤ) : Prop where
  /-- The quotient is not negative. -/
  nonneg : 0 ≤ x.quotient
  /-- The guess is next to the quotient. -/
  near : x.quotient - 1 ≤ m ∧ m ≤ x.quotient + 1
  /-- It fits an `int`. -/
  fits : m < 2 ^ 31
  /-- The loop is left there. -/
  leaves : x.leaves (x.valueAt m) = true
  /-- It is not left at an earlier guess. -/
  first : ∀ l, x.quotient - 1 ≤ l → l < m → x.leaves (x.valueAt l) = false

/-- When a count is right, by the values `initial + i * step` at up to three places: the first one
that the condition reads, the initial one, and the one two steps in front of the quotient. -/
structure OnTime (x : Terminator) : Prop where
  /-- If the first condition leaves the loop, the limit is at most one step further. -/
  atOnce : x.leaves (x.valueAt x.tripOffset) = true → x.quotient ≤ x.tripOffset + 1
  /-- If only the initial value, which is not read, would leave the loop, the limit is two steps
  away or more. -/
  unread : x.leaves (x.valueAt x.tripOffset) = false →
    x.leaves (x.valueAt 0) = true → 2 ≤ x.quotient
  /-- The loop is not left two steps in front of the quotient, as it is where the values have
  wrapped around before. -/
  before : x.leaves (x.valueAt x.tripOffset) = false → x.tripOffset ≤ x.quotient - 2 →
    x.leaves (x.valueAt (x.quotient - 2)) = false

/-- The offset is zero or one. -/
theorem tripOffset_cases : x.tripOffset = 0 ∨ x.tripOffset = 1 := by
  rw [tripOffset]
  split_ifs <;> simp

/-- When `get_iteration` divides without undefined behaviour. -/
theorem getIteration_isSome : (getIteration x).isSome ↔ x.Defined := by
  unfold getIteration Defined
  split_ifs <;> grind

/-- `get_iteration` is the quotient. -/
theorem getIteration_eq (h : x.Defined) : getIteration x = some x.quotient := by
  obtain ⟨hstep, hsigned⟩ := h
  unfold getIteration quotient
  split_ifs with hop
  · obtain ⟨hlow, hhigh, hmin⟩ := hsigned hop
    rw [if_neg (by omega), if_neg (by tauto)]
  · rfl

/-- One bias of the loop: it overflows, is the answer, or leaves the rest to try. -/
theorem tryBias_cons {bias : ℤ} {rest : List ℤ} : tryBias x q (bias :: rest) =
    some (k : ℤ) ↔ q + bias < 2 ^ 31 ∧
    (x.leaves (x.valueAt (q + bias)) = true ∧ 0 ≤ q + bias ∧
      max (q + bias) x.tripOffset = k + x.tripOffset ∨
      x.leaves (x.valueAt (q + bias)) = false ∧ tryBias x q rest = some (k : ℤ)) := by
  have hoffset := x.tripOffset_cases
  have hresult : (if 0 < q + bias then q + bias - x.tripOffset else q + bias) = (k : ℤ) ↔
      0 ≤ q + bias ∧ max (q + bias) x.tripOffset = k + x.tripOffset := by
    split_ifs <;> omega
  have htest : testIterations x (q + bias) = x.leaves (x.valueAt (q + bias)) := rfl
  rw [tryBias, ← hresult, ← htest]
  by_cases hfits : 2 ^ 31 ≤ q + bias
  · rw [if_pos hfits]
    exact iff_of_false nofun fun h => absurd h.1 (not_lt.2 hfits)
  · rw [if_neg hfits, and_iff_right (not_le.1 hfits)]
    cases testIterations x (q + bias) <;> simp

/-- The loop over the biases returns the steps of the guess, without the one in front of the first
condition. -/
theorem tryBias_eq (hq : 0 ≤ x.quotient) : tryBias x x.quotient [-1, 0, 1] = some (k : ℤ) ↔
    ∃ m, x.IsGuess m ∧ 0 ≤ m ∧ max m x.tripOffset = k + x.tripOffset := by
  have hnone : tryBias x x.quotient [] ≠ some (k : ℤ) := by
    rw [tryBias, Ne, Option.some.injEq]
    omega
  simp only [tryBias_cons, hnone, and_false, or_false, add_zero, ← sub_eq_add_neg]
  constructor
  · rintro ⟨hfits, ⟨hleaves, hm⟩ | ⟨hA, hfits', ⟨hleaves, hm⟩ | ⟨hB, hfits'', hleaves, hm⟩⟩⟩
    · exact ⟨_, ⟨hq, by omega, hfits, hleaves, fun l _ _ => by omega⟩, hm⟩
    · refine ⟨_, ⟨hq, by omega, hfits', hleaves, fun l hl hlt => ?_⟩, hm⟩
      rwa [show l = x.quotient - 1 by omega]
    · refine ⟨_, ⟨hq, by omega, hfits'', hleaves, fun l hl hlt => ?_⟩, hm⟩
      obtain rfl | rfl : l = x.quotient - 1 ∨ l = x.quotient := by omega
      · exact hA
      · exact hB
  · rintro ⟨m, ⟨-, hnear, hfits, hleaves, hfirst⟩, hm⟩
    refine ⟨by omega, ?_⟩
    obtain rfl | hlt : m = x.quotient - 1 ∨ x.quotient - 1 < m := by omega
    · exact .inl ⟨hleaves, hm⟩
    refine .inr ⟨hfirst _ le_rfl hlt, by omega, ?_⟩
    obtain rfl | rfl : m = x.quotient ∨ m = x.quotient + 1 := by omega
    · exact .inl ⟨hleaves, hm⟩
    · exact .inr ⟨hfirst _ (by omega) (by omega), hfits, hleaves, hm⟩

/-- `calculate_iterations` returns the steps of the guess. -/
theorem calculateIterations_eq (h : x.Defined) : calculateIterations x = some (k : ℤ) ↔
    ∃ m, x.IsGuess m ∧ 0 ≤ m ∧ max m x.tripOffset = k + x.tripOffset := by
  rw [calculateIterations, getIteration_eq h, Option.bind_some]
  split_ifs with hq
  · refine ⟨fun hk => ?_, fun ⟨m, hm, _⟩ => ?_⟩
    · rw [Option.some.injEq] at hk
      omega
    · have := hm.nonneg
      omega
  · exact tryBias_eq (not_lt.1 hq)

/-- The loop is left where the guess says. -/
theorem passes_iff {m : ℤ} (hm : max m x.tripOffset = k + x.tripOffset) : x.Passes k ↔
    (∀ i, x.tripOffset ≤ i → i < m → x.leaves (x.valueAt i) = false) ∧
      x.leaves (x.valueAt (max m x.tripOffset)) = true := by
  rw [Passes, operand_eq, hm]
  refine and_congr_left fun _ => ⟨fun h i hi him => ?_, fun h j hj => ?_⟩
  · have hj := h (i - x.tripOffset).toNat (by omega)
    rwa [operand_eq, Int.toNat_of_nonneg (by omega), sub_add_cancel] at hj
  · rw [operand_eq]
    exact h _ (by omega) (by omega)

/-! ### The values in front of the quotient -/

variable {a b i : ℤ}

/-- The comparison does not tell two values apart that lie on the same side of the limit. -/
theorem leaves_congr {v w : BitVec 32} (hv : v ≠ x.limit) (hw : w ≠ x.limit)
    (h : if x.op.isSigned then v.toInt < x.limit.toInt ↔ w.toInt < x.limit.toInt
      else v.toNat < x.limit.toNat ↔ w.toNat < x.limit.toNat) : x.leaves v = x.leaves w := by
  have heq : ∀ {u : BitVec 32}, u ≠ x.limit → u.toInt ≠ x.limit.toInt ∧ u.toNat ≠ x.limit.toNat :=
    fun hu => ⟨fun h => hu (BitVec.eq_of_toInt_eq h), fun h => hu (BitVec.eq_of_toNat_eq h)⟩
  obtain ⟨hv', hv''⟩ := heq hv
  obtain ⟨hw', hw''⟩ := heq hw
  have heval : x.op.eval v x.limit = x.op.eval w x.limit ∧
    x.op.eval x.limit v = x.op.eval x.limit w := by
    rw [Bool.eq_iff_iff, Bool.eq_iff_iff]
    cases hop : x.op <;>
      simp only [hop, CondOp.isSigned, CondOp.eval, BitVec.sle,
        BitVec.slt, BitVec.ule, BitVec.ult, if_true,
        if_false, Bool.false_eq_true, decide_eq_true_eq, beq_iff_eq, bne_iff_ne, hv, hw] at h ⊢ <;>
      grind
  rw [leaves, leaves, heval.1, heval.2]

/-- The value after some steps, by signed numbers. -/
theorem valueAt_eq_toInt (i : ℤ) : x.valueAt i = BitVec.ofInt 32
    (i * x.step.toInt + x.initial.toInt) := by
  rw [BitVec.ofInt_add, BitVec.ofInt_mul, BitVec.ofInt_toInt, BitVec.ofInt_toInt, valueAt]

/-- The value after some steps, by unsigned numbers. -/
theorem valueAt_eq_toNat (i : ℤ) : x.valueAt i = BitVec.ofInt 32
    (i * x.step.toNat + x.initial.toNat) := by
  rw [BitVec.ofInt_add, BitVec.ofInt_mul]
  simp [valueAt]

/-- The steps in front of the quotient stay on the way to the limit. -/
theorem tdiv_lt {d s : ℤ} (hi : 0 ≤ i) (h : i < d.tdiv s) :
    0 < s ∧ i * s + s ≤ d ∨ s < 0 ∧ d ≤ i * s + s := by
  rcases Int.le_total 0 d with hd | hd
  · rw [Int.tdiv_eq_ediv_of_nonneg hd] at h
    have hs : 0 < s := by
      by_contra hs
      have := Int.ediv_nonpos_of_nonneg_of_nonpos hd (not_lt.1 hs)
      omega
    have := (Int.le_ediv_iff_mul_le hs).1 h
    exact .inl ⟨hs, by rwa [Int.add_mul, Int.one_mul] at this⟩
  · rw [← neg_neg d, Int.neg_tdiv, Int.tdiv_eq_ediv_of_nonneg (by omega), ← Int.ediv_neg] at h
    have hs : 0 < -s := by
      by_contra hs
      have := Int.ediv_nonpos_of_nonneg_of_nonpos (neg_nonneg.2 hd) (not_lt.1 hs)
      omega
    have := (Int.le_ediv_iff_mul_le hs).1 h
    rw [Int.mul_neg, Int.add_mul, Int.one_mul] at this
    exact .inr ⟨by omega, by omega⟩

/-- With a comparison of signed numbers, all values in front of the quotient are on the side of the
limit that the step comes from. -/
theorem valueAt_signed (hop : x.op.isSigned = true) (hi : 0 ≤ i) (h : i < x.quotient) :
    (x.valueAt i).toInt ≠ x.limit.toInt ∧
    ((x.valueAt i).toInt < x.limit.toInt ↔ 0 < x.step.toInt) := by
  rw [quotient, if_pos hop] at h
  have hside := tdiv_lt hi h
  have hsteps : 0 < x.step.toInt → 0 ≤ i * x.step.toInt := fun hs => Int.mul_nonneg hi hs.le
  have hsteps' : x.step.toInt < 0 → i * x.step.toInt ≤ 0 :=
    fun hs => Int.mul_nonpos_of_nonneg_of_nonpos hi hs.le
  have hlow := x.initial.le_toInt
  have hhigh := x.initial.toInt_lt
  have hlow' := x.limit.le_toInt
  have hhigh' := x.limit.toInt_lt
  rw [valueAt_eq_toInt, BitVec.toInt_ofInt, Int.bmod_eq_of_le (by omega) (by omega)]
  omega

/-- With a comparison of unsigned numbers, a value in front of the quotient is below the limit if
the way to the limit does not wrap around, or has wrapped around. -/
theorem valueAt_unsigned (hop : x.op.isSigned = false) (hi : 0 ≤ i) (h : i < x.quotient) :
    (x.valueAt i).toNat ≠ x.limit.toNat ∧ ((x.valueAt i).toNat < x.limit.toNat ↔
      x.initial.toNat ≤ x.limit.toNat ∨ 2 ^ 32 ≤ i * x.step.toNat + x.initial.toNat) := by
  rw [quotient, if_neg (by simp [hop]), BitVec.toInt_eq_toNat_cond,
    BitVec.toNat_udiv, BitVec.toNat_sub] at h
  have hlimit := x.limit.isLt
  have hinitial := x.initial.isLt
  generalize hd : (2 ^ 32 - x.initial.toNat + x.limit.toNat) % 2 ^ 32 = d at h
  -- The steps up to the quotient stay within the distance to the limit.
  have hsteps : i * x.step.toNat + x.step.toNat ≤ d := by
    have hlt : i + 1 ≤ ((d / x.step.toNat : ℕ) : ℤ) := by
      split_ifs at h <;> omega
    have hmul := Int.mul_le_mul_of_nonneg_right hlt (Int.natCast_nonneg x.step.toNat)
    have := Nat.div_mul_le_self d x.step.toNat
    rw [Int.add_mul, Int.one_mul] at hmul
    omega
  have hstep : 0 < x.step.toNat := by
    by_contra hzero
    rw [Nat.eq_zero_of_not_pos hzero] at h
    simp at h
    omega
  have hnonneg : 0 ≤ i * x.step.toNat := Int.mul_nonneg hi (by omega)
  rw [valueAt_eq_toNat, BitVec.toNat_ofInt]
  omega

/-- If the loop is not left after `a` and after `b` steps, it is not left in between. -/
theorem leaves_between (ha : 0 ≤ a) (hai : a ≤ i) (hib : i ≤ b) (hb : b < x.quotient)
    (hleft : x.leaves (x.valueAt a) = false) (hright : x.leaves (x.valueAt b) = false) :
    x.leaves (x.valueAt i) = false := by
  cases hop : x.op.isSigned with
  | true =>
    have hside := valueAt_signed hop (ha.trans hai) (hib.trans_lt hb)
    have hside' := valueAt_signed hop ha (by omega)
    rw [← hleft]
    refine leaves_congr (fun h => hside.1 (h ▸ rfl)) (fun h => hside'.1 (h ▸ rfl)) ?_
    rw [if_pos hop, hside.2, hside'.2]
  | false =>
    have hstep : ∀ {j l : ℤ}, j ≤ l → j * x.step.toNat ≤ l * x.step.toNat := fun hjl =>
      Int.mul_le_mul_of_nonneg_right hjl (by omega)
    have hi := valueAt_unsigned hop (ha.trans hai) (hib.trans_lt hb)
    by_cases hwrap : 2 ^ 32 ≤ i * x.step.toNat + x.initial.toNat
    · have hb' := valueAt_unsigned hop (by omega) hb
      rw [← hright]
      refine leaves_congr (fun h => hi.1 (h ▸ rfl)) (fun h => hb'.1 (h ▸ rfl)) ?_
      rw [if_neg (by simp [hop]), hi.2, hb'.2]
      have := hstep hib
      omega
    · have ha' := valueAt_unsigned hop ha (by omega)
      rw [← hleft]
      refine leaves_congr (fun h => hi.1 (h ▸ rfl)) (fun h => ha'.1 (h ▸ rfl)) ?_
      rw [if_neg (by simp [hop]), hi.2, ha'.2]
      have := hstep hai
      omega

/-- The guess is right exactly if the constants meet the condition. -/
theorem IsGuess.passes_iff (hguess : x.IsGuess m) (hm : 0 ≤ m)
    (heq : max m x.tripOffset = k + x.tripOffset) :
    x.Passes k ↔ x.OnTime := by
  obtain ⟨hq, hnear, -, hleaves, hfirst⟩ := hguess
  have hoffset := x.tripOffset_cases
  rw [Terminator.passes_iff heq]
  constructor
  · rintro ⟨hnone, hlast⟩
    refine ⟨fun hleft => ?_, fun hstay hzero => ?_, fun _ hle => hnone _ hle (by omega)⟩
    · by_contra hlt
      rw [hnone _ le_rfl (by omega)] at hleft
      cases hleft
    · by_contra hlt
      -- The guess is the initial value, since this is the first of the three or the second one.
      obtain rfl | hpos : m = 0 ∨ 0 < m := by omega
      · rw [max_eq_right (by omega), hstay] at hlast
        cases hlast
      · rw [hfirst 0 (by omega) hpos] at hzero
        cases hzero
  · rintro ⟨hatOnce, hunread, hbefore⟩
    cases hstart : x.leaves (x.valueAt x.tripOffset) with
    | true =>
      have hle : m ≤ x.tripOffset := by
        by_contra hlt
        have := hatOnce hstart
        rw [hfirst _ (by omega) (by omega)] at hstart
        cases hstart
      rw [max_eq_right hle]
      exact ⟨fun i hi him => by omega, hstart⟩
    | false =>
      have hlt : x.tripOffset < m := by
        by_contra hle
        obtain rfl | heq' : m = 0 ∨ m = x.tripOffset := by omega
        · have := hunread hstart hleaves
          omega
        · rw [heq', hstart] at hleaves
          cases hleaves
      rw [max_eq_left hlt.le]
      refine ⟨fun i hi him => ?_, hleaves⟩
      by_cases hnext : x.quotient - 1 ≤ i
      · exact hfirst i hnext him
      · exact leaves_between (by omega) hi (by omega) (by omega) hstart (hbefore hstart (by omega))

end Terminator

/-- The division is defined if and only if the constants meet `Defined`, and a count that is
returned is the number of times that the terminator is passed if and only if they meet `OnTime`. -/
theorem calculateIterations_exact_iff (x : Terminator) :
    ((getIteration x).isSome ↔ x.Defined) ∧
      ∀ k : ℕ, calculateIterations x = some (k : ℤ) → (x.Passes k ↔ x.OnTime) := by
  refine ⟨x.getIteration_isSome, fun k hk => ?_⟩
  have hdefined : x.Defined := by
    rw [← x.getIteration_isSome, Option.isSome_iff_exists]
    obtain ⟨q, hq, -⟩ := Option.bind_eq_some_iff.1 hk
    exact ⟨q, hq⟩
  obtain ⟨m, hguess, hm, heq⟩ := (Terminator.calculateIterations_eq hdefined).1 hk
  exact hguess.passes_iff hm heq

/-- `for (i = 0; i < 10; i += 3)` has four iterations. -/
theorem calculateIterations_exact_four :
    (⟨.ilt, 0, 3, 10, true, true, false⟩ : Terminator).Passes 4 :=
  ((calculateIterations_exact_iff _).2 4 (by decide)).2 ⟨by decide, by decide, by decide⟩

/-- `while (i < 0) i--` from 10 on is left at once, and the count is 9; with a step of zero, and
with a distance of 2 ^ 31, the division is not defined; and `do i++ while (i != 0)` from 0 on is not
left before the variable wraps around, while the count is 0. -/
theorem calculateIterations_wrong :
    calculateIterations ⟨.ilt, 10, -1, 0, true, true, false⟩ = some 9 ∧
      Terminator.leaves ⟨.ilt, 10, -1, 0, true, true, false⟩ 10 = true ∧
      getIteration ⟨.ilt, 0, 0, 10, true, true, false⟩ = none ∧
      getIteration ⟨.ilt, -2 ^ 31, 1, 0, true, true, false⟩ = none ∧
      calculateIterations ⟨.ine, 0, 1, 0, true, true, true⟩ = some 0 ∧
      Terminator.leaves ⟨.ine, 0, 1, 0, true, true, true⟩ 1 = false := by
  decide

end Mesa3D.Nir.LoopAnalyze
