import Mathlib.Tactic.Ring
import Dynarmic.Mcl.Bit

/-!
# 128-bit unsigned integers

`u128` (common/u128.h, u128.cpp): a pair of 64-bit words with the arithmetic the fused multiply-add needs. Each operation
is the C++ one, word by word with its carries and its shift cases; each is proved to compute the operation on the
number `upper * 2 ^ 64 + lower` modulo `2 ^ 128`, so that the callers can reason about numbers.
-/

namespace Dynarmic

open Mcl.Bit

/-- `u128`: the low and the high 64-bit words. -/
structure U128 where
  lower : BitVec 64
  upper : BitVec 64
  deriving DecidableEq, Repr

namespace U128

/-- `u128(T value)`: a 64-bit value widened. -/
def ofU64 (value : BitVec 64) : U128 := ⟨value, 0⟩

/-- `Bit<bit_position>()`. -/
def bit (bitPosition : Nat) (x : U128) : Bool :=
  if bitPosition < 64 then getBit bitPosition x.lower else getBit (bitPosition - 64) x.upper

/-- `Multiply64To128`: the product from four 32-by-32-bit partial products, with the carries out of the middle sum and
out of the low word added into the high word. -/
def multiply64To128 (a b : BitVec 64) : U128 :=
  let a0 : BitVec 64 := (a.setWidth 32).setWidth 64
  let b0 : BitVec 64 := (b.setWidth 32).setWidth 64
  let a1 : BitVec 64 := ((a >>> 32).setWidth 32).setWidth 64
  let b1 : BitVec 64 := ((b >>> 32).setWidth 32).setWidth 64
  let c0 := a0 * b0
  let c1_0 := a1 * b0
  let c1_1 := a0 * b1
  let c2 := a1 * b1
  let c1 := c1_0 + c1_1
  let c1Overflow : BitVec 64 := if c1 < c1_0 then 1 else 0
  let lower := c0 + (c1 <<< 32)
  let lowerOverflow : BitVec 64 := if lower < c0 then 1 else 0
  let upper := lowerOverflow + (c1 >>> 32) + (c1Overflow <<< 32) + c2
  ⟨lower, upper⟩

/-- `operator+`: the carry out of the low words is `a.lower > result.lower`. -/
def add (a b : U128) : U128 :=
  let lower := a.lower + b.lower
  ⟨lower, a.upper + b.upper + if a.lower > lower then 1 else 0⟩

/-- `operator-`: the borrow out of the low words is `a.lower < result.lower`. -/
def sub (a b : U128) : U128 :=
  let lower := a.lower - b.lower
  ⟨lower, a.upper - b.upper - if a.lower < lower then 1 else 0⟩

instance : Add U128 := ⟨add⟩

instance : Sub U128 := ⟨sub⟩

/-- `operator<`: the words compared in order, through `std::tie`. -/
def lt (a b : U128) : Bool :=
  decide (a.upper < b.upper) || (decide (a.upper = b.upper) && decide (a.lower < b.lower))

instance : LT U128 := ⟨fun a b => lt a b = true⟩

instance (a b : U128) : Decidable (a < b) := inferInstanceAs (Decidable (lt a b = true))

/-- The body of `operator<<` for an amount that is not negative. -/
def shiftLeftNat (operand : U128) (amount : Nat) : U128 :=
  if amount = 0 then operand
  else if amount < 64 then
    ⟨operand.lower <<< amount, (operand.upper <<< amount) ||| (operand.lower >>> (64 - amount))⟩
  else if amount < 128 then ⟨0, operand.lower <<< (amount - 64)⟩
  else ⟨0, 0⟩

/-- The body of `operator>>` for an amount that is not negative. -/
def shiftRightNat (operand : U128) (amount : Nat) : U128 :=
  if amount = 0 then operand
  else if amount < 64 then
    ⟨(operand.lower >>> amount) ||| (operand.upper <<< (64 - amount)), operand.upper >>> amount⟩
  else if amount < 128 then ⟨operand.upper >>> (amount - 64), 0⟩
  else ⟨0, 0⟩

/-- `operator<<(u128, int)`: a negative amount shifts the other way. -/
def shiftLeft (operand : U128) (amount : Int) : U128 :=
  if amount < 0 then shiftRightNat operand (-amount).toNat else shiftLeftNat operand amount.toNat

/-- `operator>>(u128, int)`: a negative amount shifts the other way. -/
def shiftRight (operand : U128) (amount : Int) : U128 :=
  if amount < 0 then shiftLeftNat operand (-amount).toNat else shiftRightNat operand amount.toNat

/-- `StickyLogicalShiftRight`: a right shift whose lowest bit is set when a set bit is shifted out. -/
def stickyLogicalShiftRight (operand : U128) (amount : Int) : U128 :=
  if amount < 0 then shiftLeft operand (-amount)
  else if amount = 0 then operand
  else if amount < 64 then
    let k := amount.toNat
    let lower := (operand.lower >>> k) ||| (operand.upper <<< (64 - k))
    ⟨if operand.lower <<< (64 - k) ≠ 0 then lower ||| 1 else lower, operand.upper >>> k⟩
  else if amount = 64 then ⟨if operand.lower ≠ 0 then operand.upper ||| 1 else operand.upper, 0⟩
  else if amount < 128 then
    let k := amount.toNat
    let lower := operand.upper >>> (k - 64)
    let lower := if operand.lower ≠ 0 then lower ||| 1 else lower
    ⟨if operand.upper <<< (128 - k) ≠ 0 then lower ||| 1 else lower, 0⟩
  else if operand.lower ≠ 0 ∨ operand.upper ≠ 0 then ⟨1, 0⟩
  else ⟨0, 0⟩

/-! ### The number a `u128` holds -/

/-- The number `upper * 2 ^ 64 + lower`. -/
def toNat (x : U128) : Nat := x.upper.toNat * 2 ^ 64 + x.lower.toNat

/-- A 128-bit value is below 2^128. -/
theorem toNat_lt (x : U128) : x.toNat < 2 ^ 128 := by
  have hl := x.lower.isLt
  have hu := x.upper.isLt
  unfold toNat
  omega

/-- Two 128-bit values with the same number are equal. -/
theorem toNat_inj {a b : U128} : a.toNat = b.toNat ↔ a = b := by
  constructor
  · intro h
    have hal := a.lower.isLt
    have hbl := b.lower.isLt
    unfold toNat at h
    obtain ⟨al, au⟩ := a
    obtain ⟨bl, bu⟩ := b
    have hu : au.toNat = bu.toNat := by dsimp only at *; omega
    have hl : al.toNat = bl.toNat := by dsimp only at *; omega
    rw [BitVec.eq_of_toNat_eq hu, BitVec.eq_of_toNat_eq hl]
  · rintro rfl
    rfl

/-- Widening a 64-bit value keeps its number. -/
theorem toNat_ofU64 (value : BitVec 64) : (ofU64 value).toNat = value.toNat := by
  simp [ofU64, toNat]

/-- The carry and borrow words of the C++, as numbers. -/
theorem toNat_ite_one {p : Prop} [Decidable p] : (if p then (1 : BitVec 64) else 0).toNat = if p then 1 else 0 := by
  split <;> rfl

/-- Addition with carry from the lower half is addition modulo 2^128. -/
theorem toNat_add (a b : U128) : (a + b).toNat = (a.toNat + b.toNat) % 2 ^ 128 := by
  have hal := a.lower.isLt
  have hbl := b.lower.isLt
  have hau := a.upper.isLt
  have hbu := b.upper.isLt
  show (add a b).toNat = _
  simp only [add, toNat, BitVec.toNat_add, toNat_ite_one, gt_iff_lt, BitVec.lt_def]
  split_ifs <;> omega

/-- Subtraction with borrow from the lower half is subtraction modulo 2^128. -/
theorem toNat_sub (a b : U128) : (a - b).toNat = (a.toNat + (2 ^ 128 - b.toNat)) % 2 ^ 128 := by
  have hal := a.lower.isLt
  have hbl := b.lower.isLt
  have hau := a.upper.isLt
  have hbu := b.upper.isLt
  show (sub a b).toNat = _
  simp only [sub, toNat, BitVec.toNat_sub, toNat_ite_one, BitVec.lt_def]
  split_ifs <;> omega

/-- The difference of a larger and a smaller number does not wrap. -/
theorem toNat_sub_of_le {a b : U128} (h : b.toNat ≤ a.toNat) : (a - b).toNat = a.toNat - b.toNat := by
  have ha := a.toNat_lt
  have hb := b.toNat_lt
  have hwrap : a.toNat + (2 ^ 128 - b.toNat) = a.toNat - b.toNat + 2 ^ 128 := by omega
  rw [toNat_sub, hwrap, Nat.add_mod_right, Nat.mod_eq_of_lt (by omega)]

/-- The order of 128-bit values is the order of their numbers. -/
theorem lt_iff (a b : U128) : a < b ↔ a.toNat < b.toNat := by
  have hal := a.lower.isLt
  have hbl := b.lower.isLt
  show lt a b = true ↔ _
  simp only [lt, toNat, Bool.or_eq_true, Bool.and_eq_true, decide_eq_true_eq, BitVec.lt_def, ← BitVec.toNat_inj]
  omega

/-! ### The product -/

/-- The low half of a word, widened back. -/
theorem toNat_low_half (a : BitVec 64) : ((a.setWidth 32).setWidth 64).toNat = a.toNat % 2 ^ 32 := by
  rw [BitVec.toNat_setWidth, BitVec.toNat_setWidth, Nat.mod_eq_of_lt (by omega)]

/-- The high half of a word, widened back. -/
theorem toNat_high_half (a : BitVec 64) : (((a >>> 32).setWidth 32).setWidth 64).toNat = a.toNat / 2 ^ 32 := by
  have := a.isLt
  rw [BitVec.toNat_setWidth, BitVec.toNat_setWidth, BitVec.toNat_ushiftRight, Nat.shiftRight_eq_div_pow,
    Nat.mod_eq_of_lt (by omega), Nat.mod_eq_of_lt (by omega)]

/-- A product of two halves does not wrap. -/
theorem toNat_mul_of_half {x y : BitVec 64} (hx : x.toNat < 2 ^ 32) (hy : y.toNat < 2 ^ 32) :
    (x * y).toNat = x.toNat * y.toNat := by
  have hxy : x.toNat * y.toNat < 2 ^ 64 :=
    calc x.toNat * y.toNat < 2 ^ 32 * 2 ^ 32 := Nat.mul_lt_mul'' hx hy
      _ = 2 ^ 64 := by norm_num
  rw [BitVec.toNat_mul, Nat.mod_eq_of_lt hxy]

/-- A carry word is `1` exactly when the sum it comes from wrapped. -/
theorem toNat_carry (x y : BitVec 64) :
    (if x + y < x then (1 : BitVec 64) else 0).toNat = if 2 ^ 64 ≤ x.toNat + y.toNat then 1 else 0 := by
  have hx := x.isLt
  have hy := y.isLt
  rw [toNat_ite_one]
  simp only [BitVec.lt_def, BitVec.toNat_add]
  split_ifs <;> omega

/-- A left shift by 32 of a 64-bit half multiplies by 2^32 modulo 2^64. -/
theorem toNat_shiftLeft_32 (x : BitVec 64) : (x <<< 32).toNat = x.toNat * 2 ^ 32 % 2 ^ 64 := by
  rw [BitVec.toNat_shiftLeft, Nat.shiftLeft_eq]

/-- A right shift by 32 of a 64-bit half divides by 2^32. -/
theorem toNat_shiftRight_32 (x : BitVec 64) : (x >>> 32).toNat = x.toNat / 2 ^ 32 := by
  rw [BitVec.toNat_ushiftRight, Nat.shiftRight_eq_div_pow]

/-- `Multiply64To128` computes the full product. -/
theorem toNat_multiply64To128 (a b : BitVec 64) : (multiply64To128 a b).toNat = a.toNat * b.toNat := by
  have ha := a.isLt
  have hb := b.isLt
  have hlt : a.toNat * b.toNat < 2 ^ 128 :=
    calc a.toNat * b.toNat < 2 ^ 64 * 2 ^ 64 := Nat.mul_lt_mul'' ha hb
      _ = 2 ^ 128 := by norm_num
  simp only [multiply64To128]
  generalize ha0 : (a.setWidth 32).setWidth 64 = a0
  generalize hb0 : (b.setWidth 32).setWidth 64 = b0
  generalize ha1 : ((a >>> 32).setWidth 32).setWidth 64 = a1
  generalize hb1 : ((b >>> 32).setWidth 32).setWidth 64 = b1
  have hx0 : a0.toNat = a.toNat % 2 ^ 32 := by rw [← ha0, toNat_low_half]
  have hy0 : b0.toNat = b.toNat % 2 ^ 32 := by rw [← hb0, toNat_low_half]
  have hx1 : a1.toNat = a.toNat / 2 ^ 32 := by rw [← ha1, toNat_high_half]
  have hy1 : b1.toNat = b.toNat / 2 ^ 32 := by rw [← hb1, toNat_high_half]
  -- the product of the halves, with the middle partial products at weight `2 ^ 32`
  have hprod : a.toNat * b.toNat = a1.toNat * b1.toNat * 2 ^ 64 +
      (a1.toNat * b0.toNat + a0.toNat * b1.toNat) * 2 ^ 32 + a0.toNat * b0.toNat := by
    rw [hx0, hx1, hy0, hy1]
    conv_lhs => rw [← Nat.div_add_mod a.toNat (2 ^ 32), ← Nat.div_add_mod b.toNat (2 ^ 32)]
    ring
  have h00 := toNat_mul_of_half (x := a0) (y := b0) (by omega) (by omega)
  have h10 := toNat_mul_of_half (x := a1) (y := b0) (by omega) (by omega)
  have h01 := toNat_mul_of_half (x := a0) (y := b1) (by omega) (by omega)
  have h11 := toNat_mul_of_half (x := a1) (y := b1) (by omega) (by omega)
  have b00 := (a0 * b0).isLt
  have b10 := (a1 * b0).isLt
  have b01 := (a0 * b1).isLt
  have b11 := (a1 * b1).isLt
  rw [h00] at b00
  rw [h10] at b10
  rw [h01] at b01
  rw [h11] at b11
  simp only [toNat, BitVec.toNat_add, toNat_carry, toNat_shiftLeft_32, toNat_shiftRight_32, h00, h10, h01, h11]
  generalize a0.toNat * b0.toNat = p00 at *
  generalize a1.toNat * b0.toNat = p10 at *
  generalize a0.toNat * b1.toNat = p01 at *
  generalize a1.toNat * b1.toNat = p11 at *
  generalize a.toNat * b.toNat = p at *
  split_ifs <;> omega

/-- `Multiply64To128` is the exact product, and the sum and the difference of two `u128` are those of the numbers
modulo `2 ^ 128`. -/
theorem u128_multiply_add_sub_exact (a b : BitVec 64) (x y : U128) :
    (multiply64To128 a b).upper.toNat * 2 ^ 64 + (multiply64To128 a b).lower.toNat = a.toNat * b.toNat ∧
      (x + y).toNat = (x.toNat + y.toNat) % 2 ^ 128 ∧
      ((x - y).toNat : ℤ) = ((x.toNat : ℤ) - y.toNat) % 2 ^ 128 := by
  refine ⟨toNat_multiply64To128 a b, toNat_add x y, ?_⟩
  have hx := x.toNat_lt
  have hy := y.toNat_lt
  rw [toNat_sub]
  omega

/-! ### Shifts -/

/-- The 128-bit word a `u128` holds, `upper` above `lower`. -/
def toBits (x : U128) : BitVec 128 := x.upper ++ x.lower

/-- The halves as one bit vector have the value's number. -/
theorem toNat_toBits (x : U128) : x.toBits.toNat = x.toNat := by
  rw [toBits, BitVec.toNat_append, ← Nat.shiftLeft_add_eq_or_of_lt x.lower.isLt, Nat.shiftLeft_eq, toNat]

/-- Bit `j` of the halves as one bit vector is bit `j` of the lower half below 64, of the upper half above. -/
theorem getLsbD_toBits (x : U128) (j : Nat) :
    x.toBits.getLsbD j = if j < 64 then x.lower.getLsbD j else x.upper.getLsbD (j - 64) :=
  BitVec.getLsbD_append

/-- The right shift is the shift of the 128-bit word, in each of its cases. -/
theorem toBits_shiftRightNat (x : U128) (n : Nat) : (shiftRightNat x n).toBits = x.toBits >>> n := by
  apply BitVec.eq_of_getLsbD_eq
  intro j hj
  rw [getLsbD_toBits, BitVec.getLsbD_ushiftRight, getLsbD_toBits]
  simp only [shiftRightNat]
  split_ifs <;>
    (try simp only [BitVec.getLsbD_or, BitVec.getLsbD_ushiftRight, BitVec.getLsbD_shiftLeft, BitVec.ofNat_eq_ofNat,
      BitVec.getLsbD_zero]) <;>
    grind

/-- The left shift is the shift of the 128-bit word, in each of its cases. -/
theorem toBits_shiftLeftNat (x : U128) (n : Nat) : (shiftLeftNat x n).toBits = x.toBits <<< n := by
  apply BitVec.eq_of_getLsbD_eq
  intro j hj
  rw [getLsbD_toBits, BitVec.getLsbD_shiftLeft, getLsbD_toBits]
  have hidx : 64 ≤ n → j - 64 - (n - 64) = j - n := by omega
  simp only [shiftLeftNat]
  split_ifs <;>
    (try simp only [BitVec.getLsbD_or, BitVec.getLsbD_ushiftRight, BitVec.getLsbD_shiftLeft, BitVec.ofNat_eq_ofNat,
      BitVec.getLsbD_zero]) <;>
    grind

/-- A right shift of a 128-bit value divides by a power of two. -/
theorem toNat_shiftRightNat (x : U128) (n : Nat) : (shiftRightNat x n).toNat = x.toNat / 2 ^ n := by
  rw [← toNat_toBits, toBits_shiftRightNat, BitVec.toNat_ushiftRight, toNat_toBits, Nat.shiftRight_eq_div_pow]

/-- A left shift of a 128-bit value multiplies by a power of two, modulo 2^128. -/
theorem toNat_shiftLeftNat (x : U128) (n : Nat) : (shiftLeftNat x n).toNat = x.toNat * 2 ^ n % 2 ^ 128 := by
  rw [← toNat_toBits, toBits_shiftLeftNat, BitVec.toNat_shiftLeft, toNat_toBits, Nat.shiftLeft_eq]

/-- Setting the low bit of the low word sets the low bit of the number. -/
theorem toNat_mk_or_one (lower upper : BitVec 64) (b : Bool) :
    (U128.mk (if b then lower ||| 1 else lower) upper).toNat = (U128.mk lower upper).toNat ||| (if b then 1 else 0) := by
  cases b
  · simp
  · have hl := lower.isLt
    have hor : (lower ||| 1).toNat = lower.toNat ||| 1 := by rw [BitVec.toNat_or]; rfl
    have hlt : lower.toNat ||| 1 < 2 ^ 64 := Nat.or_lt_two_pow hl (by decide)
    simp only [toNat, if_true, hor]
    rw [Nat.mul_comm, Nat.two_pow_add_eq_or_of_lt hlt, Nat.two_pow_add_eq_or_of_lt hl, Nat.or_assoc]

/-- A left shift by `64 - k` keeps the low `k` bits, so it is zero exactly when they are. -/
theorem shiftLeft_ne_zero_iff (w : BitVec 64) {k : Nat} (hk : k ≤ 64) :
    w <<< (64 - k) ≠ 0 ↔ w.toNat % 2 ^ k ≠ 0 := by
  have h : (w <<< (64 - k)).toNat = w.toNat % 2 ^ k * 2 ^ (64 - k) := by
    rw [BitVec.toNat_shiftLeft, Nat.shiftLeft_eq, show (2 : Nat) ^ 64 = 2 ^ k * 2 ^ (64 - k) by
      rw [← Nat.pow_add, Nat.add_sub_cancel' hk], Nat.mul_mod_mul_right]
  have hpos : 0 < 2 ^ (64 - k) := Nat.two_pow_pos _
  have h0 : (0 : BitVec 64).toNat = 0 := rfl
  rw [ne_eq, ← BitVec.toNat_inj, h, h0, Nat.mul_eq_zero]
  omega

/-- Below 64 bits, only the lower half counts modulo a power of two. -/
theorem toNat_mod_of_le (x : U128) {n : Nat} (hn : n ≤ 64) : x.toNat % 2 ^ n = x.lower.toNat % 2 ^ n := by
  have h : x.toNat = x.lower.toNat + 2 ^ n * (x.upper.toNat * 2 ^ (64 - n)) := by
    rw [toNat, show (2 : Nat) ^ 64 = 2 ^ n * 2 ^ (64 - n) by rw [← Nat.pow_add, Nat.add_sub_cancel' hn]]
    ring
  rw [h, Nat.add_mul_mod_self_left]

/-- From 64 bits on, the lower half counts whole and the upper half modulo the rest. -/
theorem toNat_mod_of_ge (x : U128) {n : Nat} (hn : 64 ≤ n) :
    x.toNat % 2 ^ n = x.lower.toNat + 2 ^ 64 * (x.upper.toNat % 2 ^ (n - 64)) := by
  have hl := x.lower.isLt
  have hdiv : x.toNat / 2 ^ 64 = x.upper.toNat := by
    rw [toNat, Nat.mul_comm, Nat.add_comm, Nat.add_mul_div_left _ _ (by decide), Nat.div_eq_of_lt hl, Nat.zero_add]
  have hmod : x.toNat % 2 ^ 64 = x.lower.toNat := by
    rw [toNat, Nat.mul_comm, Nat.add_comm, Nat.add_mul_mod_self_left, Nat.mod_eq_of_lt hl]
  rw [show (2 : Nat) ^ n = 2 ^ 64 * 2 ^ (n - 64) by rw [← Nat.pow_add, Nat.add_sub_cancel' hn], Nat.mod_mul, hmod, hdiv]

/-- The sticky shift is the shift with the low bit set by a condition; it is exact when the condition says that a set
bit was shifted out. -/
theorem toNat_sticky_of_eq {x r : U128} {n : Nat} {L U : BitVec 64} {b : Bool} (hr : r = U128.mk (if b then L ||| 1 else L) U)
    (hs : U128.mk L U = shiftRightNat x n) (hb : b = true ↔ x.toNat % 2 ^ n ≠ 0) :
    r.toNat = x.toNat / 2 ^ n ||| (if x.toNat % 2 ^ n ≠ 0 then 1 else 0) := by
  rw [hr, toNat_mk_or_one, hs, toNat_shiftRightNat]
  congr 2
  exact propext hb

/-- `StickyLogicalShiftRight` is the right shift with its lowest bit set when a set bit is shifted out, in each of the
cases of the C++: below 64, 64, between 64 and 128, and past 128. -/
theorem toNat_stickyLogicalShiftRight (x : U128) (n : Nat) :
    (stickyLogicalShiftRight x n).toNat = x.toNat / 2 ^ n ||| (if x.toNat % 2 ^ n ≠ 0 then 1 else 0) := by
  have hx := x.toNat_lt
  obtain ⟨lower, upper⟩ := x
  have hl := lower.isLt
  have hu := upper.isLt
  rw [stickyLogicalShiftRight, if_neg (by omega)]
  by_cases h0 : n = 0
  · subst h0
    simp [Nat.mod_one]
  rw [if_neg (by omega)]
  by_cases h64 : n < 64
  · -- the bits shifted out of the low word set the sticky bit
    rw [if_pos (by exact_mod_cast h64)]
    refine toNat_sticky_of_eq (L := (lower >>> n) ||| (upper <<< (64 - n))) (U := upper >>> n)
      (b := decide (lower <<< (64 - n) ≠ 0)) ?_ ?_ ?_
    · simp [Int.toNat_natCast]
    · rw [shiftRightNat, if_neg h0, if_pos h64]
    · rw [decide_eq_true_iff, shiftLeft_ne_zero_iff lower h64.le, toNat_mod_of_le _ h64.le]
  rw [if_neg (by exact_mod_cast h64)]
  by_cases h64' : n = 64
  · -- the high word moves down whole, and the low word is the sticky bit
    rw [if_pos (by exact_mod_cast h64')]
    subst h64'
    refine toNat_sticky_of_eq (L := upper) (U := 0) (b := decide (lower ≠ 0)) ?_ ?_ ?_
    · simp
    · simp [shiftRightNat]
    · rw [decide_eq_true_iff, toNat_mod_of_le _ le_rfl, Nat.mod_eq_of_lt hl, ne_eq, ne_eq, ← BitVec.toNat_inj]
      rfl
  rw [if_neg (by exact_mod_cast h64')]
  by_cases h128 : n < 128
  · -- the sticky bit is set by the low word and by the bits shifted out of the high word
    rw [if_pos (by exact_mod_cast h128)]
    refine toNat_sticky_of_eq (L := upper >>> (n - 64)) (U := 0)
      (b := decide (lower ≠ 0 ∨ upper <<< (128 - n) ≠ 0)) ?_ ?_ ?_
    · by_cases hlz : lower = 0#64 <;> by_cases huz : upper <<< (128 - n) = 0#64 <;> simp [hlz, huz, BitVec.or_assoc]
    · rw [shiftRightNat, if_neg h0, if_neg h64, if_pos h128]
    · rw [decide_eq_true_iff, toNat_mod_of_ge _ (by omega), show 128 - n = 64 - (n - 64) by omega,
        shiftLeft_ne_zero_iff upper (by omega), ne_eq, ← BitVec.toNat_inj]
      have h0' : (0 : BitVec 64).toNat = 0 := rfl
      rw [h0']
      dsimp only
      generalize upper.toNat % 2 ^ (n - 64) = r
      omega
  · -- every bit is shifted out
    rw [if_neg (by exact_mod_cast h128)]
    have hpow : 2 ^ 128 ≤ 2 ^ n := Nat.pow_le_pow_right (by decide) (by omega)
    refine toNat_sticky_of_eq (L := 0) (U := 0) (b := decide (lower ≠ 0 ∨ upper ≠ 0)) ?_ ?_ ?_
    · split_ifs <;> simp_all
    · rw [shiftRightNat, if_neg h0, if_neg h64, if_neg h128]
    · rw [decide_eq_true_iff, Nat.mod_eq_of_lt (by omega), ne_eq, ne_eq, ← BitVec.toNat_inj, ← BitVec.toNat_inj]
      simp only [toNat]
      have h0' : (0 : BitVec 64).toNat = 0 := rfl
      rw [h0']
      omega

/-- A shift right by a natural number is the shift of the model. -/
theorem shiftRight_natCast (x : U128) (n : Nat) : x.shiftRight n = x.shiftRightNat n := by
  rw [shiftRight, if_neg (by omega), Int.toNat_natCast]

/-- A shift left by a natural number is the shift of the model. -/
theorem shiftLeft_natCast (x : U128) (n : Nat) : x.shiftLeft n = x.shiftLeftNat n := by
  rw [shiftLeft, if_neg (by omega), Int.toNat_natCast]

/-- The shifts of a `u128` by every amount that is not negative: the right shift divides by `2 ^ n`, the left shift
multiplies by it modulo `2 ^ 128`, and the sticky right shift also sets the lowest bit when the remainder is not zero. -/
theorem u128_shifts_exact (x : U128) (n : Nat) :
    (x.shiftRight n).toNat = x.toNat / 2 ^ n ∧ (x.shiftLeft n).toNat = x.toNat * 2 ^ n % 2 ^ 128 ∧
      (stickyLogicalShiftRight x n).toNat = x.toNat / 2 ^ n ||| (if x.toNat % 2 ^ n ≠ 0 then 1 else 0) := by
  refine ⟨?_, ?_, toNat_stickyLogicalShiftRight x n⟩
  · rw [shiftRight_natCast, toNat_shiftRightNat]
  · rw [shiftLeft_natCast, toNat_shiftLeftNat]

end U128

end Dynarmic
