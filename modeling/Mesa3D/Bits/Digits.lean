import Mathlib.Tactic.Ring

/-!
# Arithmetic on digits

The two algorithms that wide arithmetic is built from. A number is multiplied by a digit from the
lowest digit on, with a carry (`MulRow`), and the rows add up to the product (`MulRow.value_eq`). A
quotient is found bit by bit, from the highest bit on (`divSteps`).
-/

namespace Mesa3D.Bits

/-! ## Products -/

/-- The number with the digits `f 0 … f (n - 1)` to the base `B`. -/
def value (B : ℕ) (f : ℕ → ℕ) : ℕ → ℕ
  | 0 => 0
  | n + 1 => value B f n + f n * B ^ n

/-- The value depends on the digits below its length. -/
theorem value_congr {B : ℕ} {f g : ℕ → ℕ} : ∀ {n : ℕ}, (∀ i < n, f i = g i) →
    value B f n = value B g n
  | 0, _ => rfl
  | n + 1, h => by
    rw [value, value, value_congr fun i hi => h i (by omega), h n (by omega)]

/-- The digits from `i` on. -/
theorem value_add (B : ℕ) (f : ℕ → ℕ) (i : ℕ) : ∀ n, value B f (i + n) =
    value B f i + B ^ i * value B (fun t => f (i + t)) n
  | 0 => by simp [value]
  | n + 1 => by
    rw [← Nat.add_assoc, value, value, value_add B f i n]
    ring

/-- The row for the digit `x` at position `i` has been added for `n` digits of `y`: `f` are the
digits before it and `g` those behind it, and `c` is the carry. -/
structure MulRow (B x : ℕ) (y f : ℕ → ℕ) (i n : ℕ) (g : ℕ → ℕ) (c : ℕ) : Prop where
  /-- The other digits stay. -/
  frame : ∀ t, t < i ∨ i + n ≤ t → g t = f t
  /-- The row is added. -/
  sum : value B (fun t => g (i + t)) n + c * B ^ n =
    value B (fun t => f (i + t)) n + x * value B y n
  /-- The carry is a digit. -/
  carry : c < B

variable {B x i : ℕ} {y f : ℕ → ℕ}

/-- Nothing is added. -/
theorem MulRow.start (hB : 0 < B) : MulRow B x y f i 0 f 0 := ⟨fun _ _ => rfl, by simp [value], hB⟩

/-- One more digit. -/
theorem MulRow.step {n : ℕ} {g g' : ℕ → ℕ} {c c' : ℕ} (h : MulRow B x y f i n g c)
    (hframe : ∀ t, t ≠ i + n → g' t = g t) (hsum : g' (i + n) + c' * B = x * y n + g (i + n) + c)
    (hc : c' < B) :
    MulRow B x y f i (n + 1) g' c' where
  frame t ht := (hframe t (by omega)).trans (h.frame t (by omega))
  sum := by
    have hlow : value B (fun t => g' (i + t)) n = value B (fun t => g (i + t)) n :=
      value_congr fun t ht => hframe _ (by omega)
    have hdigit := h.frame (i + n) (.inr (Nat.le_refl _))
    rw [hdigit] at hsum
    calc value B (fun t => g' (i + t)) (n + 1) + c' * B ^ (n + 1)
        = value B (fun t => g (i + t)) n + (g' (i + n) + c' * B) *
          B ^ n := by rw [value, hlow]; ring
      _ = value B (fun t => g (i + t)) n + c * B ^ n + (x * y n + f (i + n)) * B ^ n := by
        rw [hsum]; ring
      _ = value B (fun t => f (i + t)) (n + 1) + x * value B y (n + 1) := by
        rw [h.sum, value, value]; ring
  carry := hc

/-- A row of `n` digits, whose carry becomes the next digit. -/
theorem MulRow.value_eq {n : ℕ} {g g' : ℕ → ℕ} {c : ℕ} (h : MulRow B x y f i n g c)
    (hframe : ∀ t, t ≠ i + n → g' t = g t) (hc : g' (i + n) = c) :
    value B g' (i + n + 1) = value B f (i + n) + B ^ i * (x * value B y n) := by
  have hlow : value B g' i = value B f i :=
    value_congr fun t ht => (hframe t (by omega)).trans (h.frame t (by omega))
  have hrow : value B (fun t => g' (i + t)) n = value B (fun t => g (i + t)) n :=
    value_congr fun t ht => hframe _ (by omega)
  calc value B g' (i + n + 1)
      = value B f i + B ^ i * (value B (fun t => g (i + t)) n + c * B ^ n) := by
        rw [value, value_add, hlow, hrow, hc]; ring
    _ = value B f (i + n) + B ^ i * (x * value B y n) := by rw [h.sum, value_add]; ring

/-! ## Quotients -/

/-- The last `k` steps of a division by `d`, from a remainder and a quotient on. -/
def divSteps (d : ℕ) : ℕ → ℕ × ℕ → ℕ × ℕ
  | 0, s => s
  | k + 1, (n, q) =>
    divSteps d k (if d * 2 ^ k ≤ n then (n - d * 2 ^ k, q + 2 ^ k) else (n, q))

/-- A quotient of at most `k` bits is found in `k` steps. -/
theorem divSteps_eq {d : ℕ} (hd : 0 < d) : ∀ (k n q : ℕ), n < d * 2 ^ k →
    divSteps d k (n, q) = (n % d, q + n / d) := by
  intro k
  induction k with
  | zero =>
    intro n q hn
    rw [Nat.pow_zero, Nat.mul_one] at hn
    rw [divSteps, Nat.mod_eq_of_lt hn, Nat.div_eq_of_lt hn, Nat.add_zero]
  | succ k ih =>
    intro n q hn
    rw [Nat.pow_succ] at hn
    rw [divSteps]
    split
    case isTrue hle =>
      obtain ⟨m, rfl⟩ := Nat.exists_eq_add_of_le' hle
      rw [Nat.add_sub_cancel, ih _ _ (by rw [← Nat.mul_assoc] at hn; omega),
        Nat.add_mul_mod_self_left, Nat.add_mul_div_left _ _ hd, Nat.add_comm (m / d), Nat.add_assoc]
    case isFalse hlt => exact ih n q (by omega)

end Mesa3D.Bits
