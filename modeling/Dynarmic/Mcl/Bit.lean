import Mathlib.Tactic.IntervalCases

/-!
# `mcl::bit`: masks and bit fields

The bit helpers of the vendored `mcl` library (`externals/mcl/include/mcl/bit/`: `bit_field.hpp`, `bit_count.hpp`,
`swap.hpp`, `rotate.hpp`), over `BitVec w` for an unsigned integer type of `w` bits. Each helper is written as the header
computes it (a mask of ones, shifted into place), and the field helpers have lemmas that say what they do bit by bit; the
rest of the development rewrites with those lemmas and never unfolds a field helper.
-/

namespace Mcl.Bit

/-- `ones<count, T>()`: the low `count` bits set, as the complement of zero shifted right. -/
def ones (w count : Nat) : BitVec w :=
  if count = 0 then 0 else (~~~(0 : BitVec w)) >>> (w - count)

/-- `mask<begin_bit, end_bit, T>()`: the bits `begin_bit` to `end_bit` inclusive. -/
def mask (w beginBit endBit : Nat) : BitVec w :=
  ones w (endBit - beginBit + 1) <<< beginBit

/-- `get_bits<begin_bit, end_bit>(value)`: the field, moved down to bit 0. -/
def getBits (beginBit endBit : Nat) (value : BitVec w) : BitVec w :=
  (value &&& mask w beginBit endBit) >>> beginBit

/-- `set_bits<begin_bit, end_bit>(value, new_bits)`: the field replaced by the low bits of `new_bits`. -/
def setBits (beginBit endBit : Nat) (value newBits : BitVec w) : BitVec w :=
  (value &&& ~~~(mask w beginBit endBit)) ||| ((newBits <<< beginBit) &&& mask w beginBit endBit)

/-- `get_bit<bit_position>(value)`. -/
def getBit (bitPosition : Nat) (value : BitVec w) : Bool :=
  (value &&& mask w bitPosition bitPosition) != 0

/-- `set_bit<bit_position>(value, new_bit)`. -/
def setBit (bitPosition : Nat) (value : BitVec w) (newBit : Bool) : BitVec w :=
  (value &&& ~~~(mask w bitPosition bitPosition)) ||| (bif newBit then mask w bitPosition bitPosition else 0)

/-- A bit of a value chosen by a boolean (`b ? x : y`). -/
@[simp] theorem getLsbD_cond (b : Bool) (x y : BitVec w) (i : Nat) :
    (bif b then x else y).getLsbD i = bif b then x.getLsbD i else y.getLsbD i := by
  cases b <;> rfl

/-- `ones w count` has exactly its low `count` bits set. -/
theorem getLsbD_ones {w count : Nat} (h : count ≤ w) (i : Nat) :
    (ones w count).getLsbD i = decide (i < count) := by
  unfold ones
  split
  · subst_vars
    simp
  · simp only [BitVec.getLsbD_ushiftRight, BitVec.getLsbD_not]
    by_cases hi : i < count <;> simp [hi] <;> omega

/-- A mask of a range that fits in the type has exactly the bits of the range. -/
theorem getLsbD_mask {w b e : Nat} (hbe : b ≤ e) (he : e < w) (i : Nat) :
    (mask w b e).getLsbD i = (decide (b ≤ i) && decide (i ≤ e)) := by
  unfold mask
  rw [BitVec.getLsbD_shiftLeft, getLsbD_ones (by omega)]
  by_cases h1 : b ≤ i <;> by_cases h2 : i ≤ e <;> by_cases h3 : i < w <;> simp [h1, h2, h3] <;> omega

/-- A one-bit mask has exactly its bit set. -/
theorem getLsbD_mask_single {w p : Nat} (hp : p < w) (i : Nat) : (mask w p p).getLsbD i = decide (i = p) := by
  rw [getLsbD_mask (Nat.le_refl _) hp]
  by_cases h : i = p
  · simp [h]
  · simp [h]
    omega

/-- `get_bit` reads the bit at its position. -/
@[simp] theorem getBit_eq {p : Nat} (value : BitVec w) (hp : p < w) : getBit p value = value.getLsbD p := by
  unfold getBit
  cases h : value.getLsbD p
  · simp only [bne_eq_false_iff_eq]
    apply BitVec.eq_of_getLsbD_eq
    intro i _
    rw [BitVec.getLsbD_and, getLsbD_mask_single hp]
    by_cases hip : i = p
    · subst hip
      simp [h]
    · simp [hip]
  · simp only [bne_iff_ne, ne_eq]
    intro h0
    have := congrArg (fun x => x.getLsbD p) h0
    simp [getLsbD_mask_single hp, h] at this

/-- `set_bit` replaces the bit at its position and keeps every other bit. -/
theorem getLsbD_setBit {p : Nat} (value : BitVec w) (b : Bool) (hp : p < w) (i : Nat) :
    (setBit p value b).getLsbD i = if i = p then b else value.getLsbD i := by
  unfold setBit
  by_cases hip : i = p
  · subst hip
    cases b <;> simp [getLsbD_mask_single hp, hp]
  · cases b <;> simp [getLsbD_mask_single hp, hip]
    all_goals exact fun h => BitVec.lt_of_getLsbD h

/-- `set_bit` leaves the other bits as `get_bit` reads them. -/
theorem getBit_setBit_of_ne {p q : Nat} (value : BitVec w) (b : Bool) (hp : p < w) (hq : q < w) (h : q ≠ p) :
    getBit q (setBit p value b) = getBit q value := by
  rw [getBit_eq _ hq, getBit_eq _ hq, getLsbD_setBit _ _ hp, if_neg h]

/-- `get_bits` moves the field down: bit `i` of the result is bit `b + i` of the value inside the field, and zero past it. -/
theorem getLsbD_getBits {b e : Nat} (value : BitVec w) (hbe : b ≤ e) (he : e < w) (i : Nat) :
    (getBits b e value).getLsbD i = (decide (i ≤ e - b) && value.getLsbD (b + i)) := by
  unfold getBits
  rw [BitVec.getLsbD_ushiftRight, BitVec.getLsbD_and, getLsbD_mask hbe he]
  by_cases h : i ≤ e - b <;> simp [h] <;> omega

/-- `get_bits` as a number: the value divided down to the field and cut to its width. -/
theorem toNat_getBits {b e : Nat} (value : BitVec w) (hbe : b ≤ e) (he : e < w) :
    (getBits b e value).toNat = value.toNat / 2 ^ b % 2 ^ (e - b + 1) := by
  apply Nat.eq_of_testBit_eq
  intro i
  rw [BitVec.testBit_toNat, getLsbD_getBits value hbe he, Nat.testBit_mod_two_pow, Nat.testBit_div_two_pow,
    BitVec.testBit_toNat]
  by_cases h : i ≤ e - b
  · simp [h, show i < e - b + 1 by omega, Nat.add_comm]
  · simp [h, show ¬ i < e - b + 1 by omega]

/-- `ones` as a number. -/
theorem toNat_ones {w count : Nat} (h : count ≤ w) : (ones w count).toNat = 2 ^ count - 1 := by
  apply Nat.eq_of_testBit_eq
  intro i
  rw [BitVec.testBit_toNat, getLsbD_ones h, Nat.testBit_two_pow_sub_one]

/-- `set_bits` puts the low bits of the new value into the field and keeps the bits outside it. -/
theorem getLsbD_setBits {b e : Nat} (value newBits : BitVec w) (hbe : b ≤ e) (he : e < w) (i : Nat) :
    (setBits b e value newBits).getLsbD i =
      if b ≤ i ∧ i ≤ e then newBits.getLsbD (i - b) else value.getLsbD i := by
  unfold setBits
  simp only [BitVec.getLsbD_or, BitVec.getLsbD_and, BitVec.getLsbD_not, getLsbD_mask hbe he,
    BitVec.getLsbD_shiftLeft]
  by_cases h : b ≤ i ∧ i ≤ e
  · have hi : i < w := by omega
    simp [h, hi]
  · rw [if_neg h]
    by_cases hi : i < w
    · have : ¬(b ≤ i) ∨ ¬(i ≤ e) := by omega
      rcases this with h' | h' <;> simp [h', hi]
    · simp [hi, BitVec.getLsbD_of_ge value i (by omega)]

/-- `count_ones(x)` (`bit_count.hpp`): the number of set bits, as `std::bitset::count` counts them. -/
def countOnes (x : BitVec w) : Nat :=
  (List.range w).countP (x.getLsbD ·)

/-- `swap_bytes_16(value)` (`swap.hpp`). -/
def swapBytes16 (value : BitVec 16) : BitVec 16 :=
  ((value.setWidth 32 >>> 8) ||| (value.setWidth 32 <<< 8)).setWidth 16

/-- `swap_bytes_32(value)` (`swap.hpp`). -/
def swapBytes32 (value : BitVec 32) : BitVec 32 :=
  ((value &&& 0xff000000) >>> 24) ||| ((value &&& 0x00ff0000) >>> 8) ||| ((value &&& 0x0000ff00) <<< 8) |||
    ((value &&& 0x000000ff) <<< 24)

/-- `swap_bytes_64(value)` (`swap.hpp`). -/
def swapBytes64 (value : BitVec 64) : BitVec 64 :=
  ((value &&& 0xff00000000000000) >>> 56) ||| ((value &&& 0x00ff000000000000) >>> 40) |||
    ((value &&& 0x0000ff0000000000) >>> 24) ||| ((value &&& 0x000000ff00000000) >>> 8) |||
    ((value &&& 0x00000000ff000000) <<< 8) ||| ((value &&& 0x0000000000ff0000) <<< 24) |||
    ((value &&& 0x000000000000ff00) <<< 40) ||| ((value &&& 0x00000000000000ff) <<< 56)

/-- `rotate_right(x, amount)` (`rotate.hpp`): the amount is taken modulo the width. -/
def rotateRight (x : BitVec w) (amount : Nat) : BitVec w :=
  let amount := amount % w
  if amount = 0 then x else (x >>> amount) ||| (x <<< (w - amount))

/-- `highest_set_bit(x)` (`bit_count.hpp`): the loop shifts `x` right until it is zero and counts the shifts, so the
result is the index of the highest set bit, and `-1` for zero. -/
def highestSetBit (x : BitVec w) : Int :=
  if x = 0 then -1 else (x.toNat.log2 : Int)

/-- `most_significant_bit(value)` (`bit_field.hpp`): the top bit of the type. -/
def mostSignificantBit (value : BitVec w) : Bool :=
  getBit (w - 1) value

/-- The highest set bit of a nonzero value is the logarithm of its number. -/
theorem highestSetBit_of_ne_zero {x : BitVec w} (h : x ≠ 0) : highestSetBit x = (x.toNat.log2 : Int) := by
  rw [highestSetBit, if_neg h]

/-- The top bit says whether the number reaches half the range. -/
theorem mostSignificantBit_eq {value : BitVec w} (hw : 0 < w) :
    mostSignificantBit value = decide (2 ^ (w - 1) ≤ value.toNat) := by
  rw [mostSignificantBit, getBit_eq value (by omega), ← BitVec.testBit_toNat]
  have hlt : value.toNat < 2 ^ (w - 1) * 2 := by
    have hpow : 2 ^ (w - 1) * 2 = 2 ^ w := by
      rw [← Nat.pow_succ]
      congr 1
      omega
    rw [hpow]
    exact value.isLt
  rw [Nat.testBit_eq_decide_div_mod_eq, decide_eq_decide]
  constructor
  · intro h
    by_contra hc
    rw [Nat.div_eq_of_lt (by omega)] at h
    simp at h
  · intro h
    have h1 : value.toNat / 2 ^ (w - 1) = 1 := by
      apply le_antisymm
      · exact Nat.lt_succ_iff.mp ((Nat.div_lt_iff_lt_mul (by positivity)).mpr (by omega))
      · exact (Nat.le_div_iff_mul_le (by positivity)).mpr (by omega)
    omega

end Mcl.Bit
