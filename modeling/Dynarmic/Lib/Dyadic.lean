import Mathlib.Algebra.Order.Field.Power
import Mathlib.Data.Rat.Floor

/-!
# Dyadic numbers: leading bits and exact shifts

A number `m * 2 ^ a` with `m` a natural number is how binary floating point holds its values, whatever the place of the
binary point. Two such numbers that are equal have their leading bits at the same place (`log2_add_eq_of_eq`), and the one
with the smaller exponent is the other one shifted left (`eq_mul_two_pow_of_eq`): this is what makes a renormalisation
exact. The signed form, `±m * 2 ^ a`, is equal only with the same sign and the same magnitude (`signed_eq_iff`).
-/

namespace Dyadic

/-- Shifting left by `k` moves the leading bit up by `k`. -/
theorem log2_mul_two_pow {n : ℕ} (hn : n ≠ 0) (k : ℕ) : (n * 2 ^ k).log2 = n.log2 + k := by
  have hnk : n * 2 ^ k ≠ 0 := Nat.mul_ne_zero hn (by positivity)
  rw [Nat.log2_eq_iff hnk]
  have hlo := Nat.log2_self_le hn
  have hhi := Nat.lt_log2_self (n := n)
  constructor
  · rw [Nat.pow_add]
    exact Nat.mul_le_mul_right _ hlo
  · rw [Nat.add_right_comm, Nat.pow_add]
    exact Nat.mul_lt_mul_of_pos_right hhi (by positivity)

/-- A shift of the integer part moves into the exponent. -/
theorem cast_mul_two_pow_mul_zpow (n k : ℕ) (z : ℤ) :
    ((n * 2 ^ k : ℕ) : ℚ) * 2 ^ z = n * 2 ^ ((k : ℤ) + z) := by
  rw [zpow_add₀ two_ne_zero, zpow_natCast]
  push_cast
  ring

/-- Of two equal numbers `m * 2 ^ a = n * 2 ^ b` with `a ≤ b`, the first integer part is the second shifted left. -/
theorem eq_mul_two_pow_of_eq {m n : ℕ} {a b : ℤ} (hab : a ≤ b) (h : (m : ℚ) * 2 ^ a = n * 2 ^ b) :
    m = n * 2 ^ (b - a).toNat := by
  have hpow : (2 : ℚ) ^ (b - a) = 2 ^ (b - a).toNat := by
    rw [← zpow_natCast, Int.toNat_of_nonneg (by omega)]
  have hm : (m : ℚ) = n * 2 ^ (b - a) := by
    rw [zpow_sub₀ two_ne_zero, ← mul_div_assoc, ← h]
    field_simp
  rw [hpow] at hm
  exact_mod_cast hm

/-- Equal numbers with nonzero integer parts have their leading bits at the same place. -/
theorem log2_add_eq_of_eq {m n : ℕ} {a b : ℤ} (hm : m ≠ 0) (hn : n ≠ 0) (h : (m : ℚ) * 2 ^ a = n * 2 ^ b) :
    (m.log2 : ℤ) + a = n.log2 + b := by
  rcases le_total a b with hab | hba
  · rw [eq_mul_two_pow_of_eq hab h, log2_mul_two_pow hn]
    omega
  · rw [eq_mul_two_pow_of_eq hba h.symm, log2_mul_two_pow hm]
    omega

/-- Two signed numbers with positive magnitudes are equal only with the same sign and the same magnitude. -/
theorem signed_eq_iff {s t : Bool} {x y : ℚ} (hx : 0 < x) (hy : 0 < y) :
    (if s then -1 else 1) * x = (if t then -1 else 1) * y ↔ s = t ∧ x = y := by
  constructor
  · intro h
    cases s <;> cases t <;> simp at h ⊢ <;> first | exact h | linarith
  · rintro ⟨rfl, rfl⟩
    rfl

end Dyadic
