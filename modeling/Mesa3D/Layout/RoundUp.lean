import Mathlib.Tactic.Ring

/-!
# Rounding up to a multiple

`roundUp x a` is the first multiple of `a` at or above `x`.
-/

namespace Mesa3D.Layout

/-- The first multiple of `a` at or above `x`. -/
def roundUp (x a : ℕ) : ℕ := (x + a - 1) / a * a

/-- Rounding up adds less than the alignment. -/
theorem roundUp_lt (x : ℕ) {a : ℕ} (ha : 0 < a) : roundUp x a < x + a := by
  have := Nat.div_mul_le_self (x + a - 1) a
  unfold roundUp
  omega

/-- Rounding up does not lower. -/
theorem le_roundUp (x : ℕ) {a : ℕ} (ha : 0 < a) : x ≤ roundUp x a := by
  have h := Nat.lt_div_mul_add (a := x + a - 1) ha
  unfold roundUp
  omega

/-- Rounding up keeps what is in front of a multiple. -/
theorem roundUp_add {k a : ℕ} (hk : a ∣ k) (x : ℕ) : roundUp (k + x) a = k + roundUp x a := by
  obtain ⟨c, rfl⟩ := hk
  unfold roundUp
  rcases Nat.eq_zero_or_pos a with rfl | ha
  · simp
  · have hsum : a * c + x + a - 1 = x + a - 1 + a * c := by omega
    rw [hsum, Nat.add_mul_div_left _ _ ha]
    ring

end Mesa3D.Layout
