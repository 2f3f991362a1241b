import Dynarmic.Common.FP.Info
import Dynarmic.Lib.Dyadic

/-!
# Unpacking and rounding

`FPUnpackBase` and `FPRoundBase` (common/fp/unpacked.cpp) with the helpers they call: `ToNormalized` (unpacked.h),
`Normalize`, `ResidualErrorOnRightShift` (mantissa_util.h) and the shifts of `Safe` (common/safe_ops.h).

`FPUnpackBase` splits a bit pattern into its fields and returns the number as an `FPUnpacked` with the binary point below
bit 62, the leading one of a normal number made explicit and a subnormal one normalised by `ToNormalized`.
`FPRoundBase` goes back: `Normalize` cuts the mantissa to the format's width and classifies what the cut drops, the
rounding mode decides on an increment, and the fields are packed. A subnormal result is normalised a second time with
the extra right shift that puts its exponent at `exponent_min`.
-/

namespace Dynarmic.FP

open Mcl.Bit

namespace Safe

variable {w : Nat}

/-- `Safe::LogicalShiftRight`: an amount past the width gives zero, and a negative amount is a left shift (through
`Safe::LogicalShiftLeft`, whose own negative branch it then never takes). -/
def logicalShiftRight (value : BitVec w) (shiftAmount : Int) : BitVec w :=
  if (w : Int) ≤ shiftAmount then 0
  else if shiftAmount < 0 then
    if (w : Int) ≤ -shiftAmount then 0 else value <<< (-shiftAmount).toNat
  else value >>> shiftAmount.toNat

/-- `Safe::LogicalShiftLeft`. -/
def logicalShiftLeft (value : BitVec w) (shiftAmount : Int) : BitVec w :=
  if (w : Int) ≤ shiftAmount then 0
  else if shiftAmount < 0 then logicalShiftRight value (-shiftAmount)
  else value <<< shiftAmount.toNat

/-- `Safe::ArithmeticShiftRight`: an amount past the width fills with the sign bit. -/
def arithmeticShiftRight (value : BitVec w) (shiftAmount : Int) : BitVec w :=
  if (w : Int) ≤ shiftAmount then bif mostSignificantBit value then ~~~0 else 0
  else if shiftAmount < 0 then
    if (w : Int) ≤ -shiftAmount then 0 else value <<< (-shiftAmount).toNat
  else value.sshiftRight shiftAmount.toNat

/-- `Safe::ArithmeticShiftLeft`. -/
def arithmeticShiftLeft (value : BitVec w) (shiftAmount : Int) : BitVec w :=
  if (w : Int) ≤ shiftAmount then 0
  else if shiftAmount < 0 then arithmeticShiftRight value (-shiftAmount)
  else value <<< shiftAmount.toNat

/-- `Safe::Negate`: the two's complement. -/
def negate (value : BitVec w) : BitVec w :=
  ~~~value + 1

end Safe

/-- `ResidualError`: what a right shift drops, against half of the last place kept. -/
inductive ResidualError
  | zero
  | lessThanHalf
  | half
  | greaterThanHalf
  deriving DecidableEq, Repr

/-- The order of the enumeration, which the comparisons `error > ResidualError::Half` use. -/
def ResidualError.rank : ResidualError → Nat
  | .zero => 0
  | .lessThanHalf => 1
  | .half => 2
  | .greaterThanHalf => 3

instance : LT ResidualError := ⟨fun a b => a.rank < b.rank⟩

instance (a b : ResidualError) : Decidable (a < b) := inferInstanceAs (Decidable (a.rank < b.rank))

/-- `ResidualErrorOnRightShift`: the bits a right shift by `shift_amount` drops, against the half bit. An amount past 64
drops every bit, and the top bit decides. -/
def residualErrorOnRightShift (mantissa : BitVec 64) (shiftAmount : Int) : ResidualError :=
  if shiftAmount ≤ 0 ∨ mantissa = 0 then .zero
  else if 64 < shiftAmount then bif mostSignificantBit mantissa then .greaterThanHalf else .lessThanHalf
  else
    let halfBitPosition := (shiftAmount - 1).toNat
    let half : BitVec 64 := (1 : BitVec 64) <<< halfBitPosition
    let errorMask := ones 64 shiftAmount.toNat
    let error := mantissa &&& errorMask
    if error = 0 then .zero
    else if error < half then .lessThanHalf
    else if error = half then .half
    else .greaterThanHalf

/-- `ToNormalized(sign, exponent, value)`: the number `±value * 2 ^ exponent` with its highest bit moved to bit 62. -/
def toNormalized (sign : Bool) (exponent : Int) (value : BitVec 64) : FPUnpacked :=
  if value = 0 then ⟨sign, 0, 0⟩
  else
    let highestBit := highestSetBit value
    let offset := (normalizedPointPosition : Int) - highestBit
    ⟨sign, exponent - (offset - normalizedPointPosition), value <<< offset.toNat⟩

/-- `FPUnpackBase<FPT>(op, fpcr, fpsr)`: the type, the sign and the unpacked number of a bit pattern. -/
def fpUnpackBase (info : FPInfo) (op : BitVec info.totalWidth) (fpcr : FPCR) (fpsr : FPSR) :
    Option ((FPType × Bool × FPUnpacked) × FPSR) :=
  let signBit := info.exponentWidth + info.explicitMantissaWidth
  let exponentHighBit := info.exponentWidth + info.explicitMantissaWidth - 1
  let exponentLowBit := info.explicitMantissaWidth
  let mantissaHighBit := info.explicitMantissaWidth - 1
  let mantissaLowBit := 0
  let denormalExponent := info.exponentMin - info.explicitMantissaWidth
  let isHalfPrecision := decide (info.totalWidth = 16)
  let sign := getBit signBit op
  let expRaw := getBits exponentLowBit exponentHighBit op
  let fracRaw := getBits mantissaLowBit mantissaHighBit op
  if expRaw = 0 then
    if isHalfPrecision then
      if fracRaw = 0 ∨ fpcr.fz16 then some ((.zero, sign, ⟨sign, 0, 0⟩), fpsr)
      else some ((.nonzero, sign, toNormalized sign denormalExponent (fracRaw.setWidth 64)), fpsr)
    else if fracRaw = 0 ∨ fpcr.fz then do
      let fpsr ← if fracRaw ≠ 0 then fpProcessException .inputDenorm fpcr fpsr else pure fpsr
      pure ((.zero, sign, ⟨sign, 0, 0⟩), fpsr)
    else some ((.nonzero, sign, toNormalized sign denormalExponent (fracRaw.setWidth 64)), fpsr)
  else
    let expAllOnes := decide (expRaw = ones info.totalWidth info.exponentWidth)
    let ahpDisabled := isHalfPrecision && !fpcr.ahp
    if (expAllOnes && !isHalfPrecision) || (expAllOnes && ahpDisabled) then
      if fracRaw = 0 then some ((.infinity, sign, toNormalized sign 1000000 1), fpsr)
      else
        let isQuiet := getBit mantissaHighBit fracRaw
        some ((if isQuiet then .qNaN else .sNaN, sign, ⟨sign, 0, 0⟩), fpsr)
    else
      let exp := (expRaw.toNat : Int) - info.exponentBias
      let frac := (fracRaw.setWidth 64 ||| info.implicitLeadingBit) <<< (normalizedPointPosition -
        info.explicitMantissaWidth)
      some ((.nonzero, sign, ⟨sign, exp, frac⟩), fpsr)

/-- `FPUnpack<FPT>`: `FPUnpackBase` with the alternative half-precision format off. -/
def fpUnpack (info : FPInfo) (op : BitVec info.totalWidth) (fpcr : FPCR) (fpsr : FPSR) :
    Option ((FPType × Bool × FPUnpacked) × FPSR) :=
  fpUnpackBase info op (fpcr.setAHP false) fpsr

/-- The tuple `Normalize` returns. -/
structure Normalized where
  sign : Bool
  exponent : Int
  mantissa : BitVec 64
  error : ResidualError

/-- `Normalize<F>(op, extra_right_shift)`: the mantissa shifted so that its highest bit lands on bit `F` (and
`extra_right_shift` further), with the classification of what the shift drops; the exponent is that of the highest
bit. -/
def normalize (F : Nat) (op : FPUnpacked) (extraRightShift : Int) : Normalized :=
  let highestSetBit := highestSetBit op.mantissa
  let shiftAmount := highestSetBit - F + extraRightShift
  let mantissa := Safe.logicalShiftRight op.mantissa shiftAmount
  let error := residualErrorOnRightShift op.mantissa shiftAmount
  let exponent := op.exponent + highestSetBit - normalizedPointPosition
  ⟨op.sign, exponent, mantissa, error⟩

/-- The packing both branches of `FPRoundBase` share: sign, biased exponent and the mantissa's low `F` bits, computed in
the format's word. -/
def packResult (info : FPInfo) (sign : Bool) (biasedExp : Int) (mantissa : BitVec 64) : BitVec info.totalWidth :=
  let result : BitVec info.totalWidth := bif sign then 1 else 0
  let result := result <<< info.exponentWidth
  let result := result + BitVec.ofInt info.totalWidth biasedExp
  let result := result <<< info.explicitMantissaWidth
  result ||| (mantissa.setWidth info.totalWidth &&& info.mantissaMask.setWidth info.totalWidth)

/-- The increment the `switch (rounding)` of `FPRoundBase` decides on. -/
def roundUpOf (rounding : RoundingMode) (n : Normalized) : Bool :=
  match rounding with
  | .toNearestTieEven => decide (n.error > .half) || (n.error == .half && getBit 0 n.mantissa)
  | .towardsPlusInfinity => n.error != .zero && !n.sign
  | .towardsMinusInfinity => n.error != .zero && n.sign
  | _ => false

/-- Whether an overflow goes to infinity rather than to the largest normal number, as the same `switch` sets it. -/
def overflowToInfOf (rounding : RoundingMode) (sign : Bool) : Bool :=
  match rounding with
  | .toNearestTieEven => true
  | .towardsPlusInfinity => !sign
  | .towardsMinusInfinity => sign
  | _ => false

/-- The mantissa and biased exponent after the increment: carrying out of the mantissa either takes a subnormal to the
smallest normal number or moves to the next binade. -/
def applyRoundUp (info : FPInfo) (roundUp : Bool) (mantissa : BitVec 64) (biasedExp : Int) : BitVec 64 × Int :=
  if roundUp then
    if mantissa &&& info.mantissaMask = info.mantissaMask then
      if mantissa = info.mantissaMask then (mantissa + 1, biasedExp + 1)
      else ((mantissa + 1) / 2, biasedExp + 1)
    else (mantissa + 1, biasedExp)
  else (mantissa, biasedExp)

/-- Whether the format flushes to zero: `FZ16` for half precision and `FZ` for the others, as `FPRoundBase` reads them
(`(!isFP16 && fpcr.FZ()) || (isFP16 && fpcr.FZ16())`). -/
def FPInfo.flushToZero (info : FPInfo) (fpcr : FPCR) : Bool :=
  (!decide (info.totalWidth = 16) && fpcr.fz) || (decide (info.totalWidth = 16) && fpcr.fz16)

/-- `FPRoundBase<FPT>(op, fpcr, rounding, fpsr)`. -/
def fpRoundBase (info : FPInfo) (op : FPUnpacked) (fpcr : FPCR) (rounding : RoundingMode) (fpsr : FPSR) :
    Option (BitVec info.totalWidth × FPSR) :=
  if op.mantissa = 0 ∨ rounding = .toNearestTieAwayFromZero then none
  else do
    let minimumExp := info.exponentMin
    let isFP16 := decide (info.totalWidth = 16)
    let n := normalize info.explicitMantissaWidth op 0
    if info.flushToZero fpcr && decide (n.exponent < minimumExp) then
      return (info.zero n.sign, fpsr.setUFC true)
    let biasedExp := max (n.exponent - minimumExp + 1) 0
    let n := if biasedExp = 0 then normalize info.explicitMantissaWidth op (minimumExp - n.exponent) else n
    let fpsr ← if biasedExp = 0 ∧ (n.error ≠ .zero ∨ fpcr.ufe) then fpProcessException .underflow fpcr fpsr
      else pure fpsr
    let overflowToInf := overflowToInfOf rounding n.sign
    let (mantissa, biasedExp) := applyRoundUp info (roundUpOf rounding n) n.mantissa biasedExp
    let mantissa := if n.error ≠ .zero ∧ rounding = .toOdd then setBit 0 mantissa true else mantissa
    if !isFP16 || !fpcr.ahp then
      if 2 ^ info.exponentWidth - 1 ≤ biasedExp then
        let result := if overflowToInf then info.infinity n.sign else info.maxNormal n.sign
        let fpsr ← fpProcessException .overflow fpcr fpsr
        let fpsr ← fpProcessException .inexact fpcr fpsr
        return (result, fpsr)
      else
        let fpsr ← if n.error ≠ .zero then fpProcessException .inexact fpcr fpsr else pure fpsr
        return (packResult info n.sign biasedExp mantissa, fpsr)
    else
      if 2 ^ info.exponentWidth ≤ biasedExp then
        let fpsr ← fpProcessException .invalidOp fpcr fpsr
        return (BitVec.ofNat info.totalWidth (if n.sign then 0xFFFF else 0x7FFF), fpsr)
      else
        let fpsr ← if n.error ≠ .zero then fpProcessException .inexact fpcr fpsr else pure fpsr
        return (packResult info n.sign biasedExp mantissa, fpsr)

/-- `FPRound<FPT>(op, fpcr, rounding, fpsr)`: `FPRoundBase` with the alternative half-precision format off. -/
def fpRound (info : FPInfo) (op : FPUnpacked) (fpcr : FPCR) (rounding : RoundingMode) (fpsr : FPSR) :
    Option (BitVec info.totalWidth × FPSR) :=
  fpRoundBase info op (fpcr.setAHP false) rounding fpsr

/-- The `FPRound` tests of the repository (tests/fp/unpacked_tests.cpp): the smallest subnormal, one below one, a value
that rounds up to one (inexact, `0x10`), and an overflow to infinity (overflow and inexact, `0x14`). -/
example : fpRound .u32 (toNormalized false (-149) 1) ⟨0⟩ .toNearestTieEven ⟨0⟩ = some (0x00000001, ⟨0⟩) ∧
    fpRound .u32 (toNormalized false (-24) 0xFFFFFF) ⟨0⟩ .toNearestTieEven ⟨0⟩ = some (0x3F7FFFFF, ⟨0⟩) ∧
    fpRound .u32 (toNormalized false (-28) 0xFFFFFFF) ⟨0⟩ .toNearestTieEven ⟨0⟩ = some (0x3F800000, ⟨0x10⟩) ∧
    fpRound .u32 (toNormalized false 1000000 1) ⟨0⟩ .toNearestTieEven ⟨0⟩ = some (0x7F800000, ⟨0x14⟩) := by
  decide

/-! ### The shifts and the residual -/

namespace Safe

variable {w : Nat}

/-- A non-negative shift within the width is a right shift. -/
theorem logicalShiftRight_of_nonneg {value : BitVec w} {s : Int} (h0 : 0 ≤ s) (hw : s < w) :
    logicalShiftRight value s = value >>> s.toNat := by
  rw [logicalShiftRight, if_neg (by omega), if_neg (by omega)]

/-- A negative shift within the width is a left shift. -/
theorem logicalShiftRight_of_neg {value : BitVec w} {s : Int} (h0 : s < 0) (hw : -s < w) :
    logicalShiftRight value s = value <<< (-s).toNat := by
  rw [logicalShiftRight, if_neg (by omega), if_pos h0, if_neg (by omega)]

end Safe

/-- The classification of a dropped remainder `r` against `half`, half of the last place kept. -/
def ResidualError.ofRemainder (r half : Nat) : ResidualError :=
  if r = 0 then .zero else if r < half then .lessThanHalf else if r = half then .half else .greaterThanHalf

/-- A shift of zero or to the left loses nothing. -/
theorem residualErrorOnRightShift_of_nonpos {m : BitVec 64} {s : Int} (h : s ≤ 0) :
    residualErrorOnRightShift m s = .zero := by
  rw [residualErrorOnRightShift, if_pos (Or.inl h)]

/-- What `ResidualErrorOnRightShift` computes: the remainder of the division by `2 ^ shift_amount`, against half the
divisor. Past 64 the C++ reads the top bit instead, which agrees when the top bit is clear. -/
theorem residualErrorOnRightShift_eq {m : BitVec 64} {s : Int} (h0 : 0 < s) (hs : s ≤ 64 ∨ m.toNat < 2 ^ 63) :
    residualErrorOnRightShift m s = .ofRemainder (m.toNat % 2 ^ s.toNat) (2 ^ (s.toNat - 1)) := by
  by_cases hm : m = 0
  · subst hm
    simp [residualErrorOnRightShift, ResidualError.ofRemainder]
  have hm0 : m.toNat ≠ 0 := fun h => hm (BitVec.eq_of_toNat_eq (by simpa using h))
  rw [residualErrorOnRightShift, if_neg (not_or.mpr ⟨by omega, hm⟩)]
  by_cases h64 : 64 < s
  · -- every bit is dropped: the remainder is the whole mantissa, below half of the last place
    have hlt : m.toNat < 2 ^ 63 := by omega
    have hmsb : mostSignificantBit m = false := by
      rw [mostSignificantBit_eq (by decide)]
      simpa using hlt
    have hle : 2 ^ 63 ≤ 2 ^ (s.toNat - 1) := Nat.pow_le_pow_right (by decide) (by omega)
    have hrem : m.toNat % 2 ^ s.toNat = m.toNat := Nat.mod_eq_of_lt (by
      have : 2 ^ (s.toNat - 1) < 2 ^ s.toNat := Nat.pow_lt_pow_right (by decide) (by omega)
      omega)
    rw [if_pos h64, hmsb, hrem, ResidualError.ofRemainder, if_neg hm0, if_pos (by omega)]
    rfl
  · rw [if_neg h64]
    have hs64 : s.toNat ≤ 64 := by omega
    have hhalf : ((1 : BitVec 64) <<< (s - 1).toNat).toNat = 2 ^ (s.toNat - 1) := by
      rw [BitVec.toNat_shiftLeft, show (1 : BitVec 64).toNat = 1 from rfl, Nat.one_shiftLeft,
        Nat.mod_eq_of_lt (Nat.pow_lt_pow_right (by decide) (by omega)), show (s - 1).toNat = s.toNat - 1 by omega]
    have herr : (m &&& ones 64 s.toNat).toNat = m.toNat % 2 ^ s.toNat := by
      rw [BitVec.toNat_and, toNat_ones hs64, Nat.and_two_pow_sub_one_eq_mod]
    simp only [ResidualError.ofRemainder, ← herr, ← hhalf, BitVec.lt_def]
    by_cases hz : m &&& ones 64 s.toNat = 0
    · simp [hz]
    · have hz' : (m &&& ones 64 s.toNat).toNat ≠ 0 := fun h => hz (BitVec.eq_of_toNat_eq (by simpa using h))
      simp only [hz, hz', if_false, BitVec.toNat_inj]

/-- Up to 64 places, or for a mantissa with its top bit clear, the signed and the unsigned readings leave the same
remainder. -/
theorem toNat_toInt_emod (m : BitVec 64) {k : Nat} (hk : k ≤ 64 ∨ m.toNat < 2 ^ 63) :
    (m.toInt % 2 ^ k).toNat = m.toNat % 2 ^ k := by
  have hcast : ((m.toNat : ℤ) % 2 ^ k) = ((m.toNat % 2 ^ k : ℕ) : ℤ) := by push_cast; rfl
  rw [BitVec.toInt_eq_toNat_cond]
  split
  · rw [hcast, Int.toNat_natCast]
  · have hk64 : k ≤ 64 := by omega
    have hpowZ : ((2 ^ 64 : ℕ) : ℤ) = 2 ^ k * 2 ^ (64 - k) := by
      rw [← pow_add, Nat.add_sub_cancel' hk64]
      norm_num
    rw [hpowZ, Int.sub_mul_emod_self_left, hcast, Int.toNat_natCast]

/-- With the mantissa read as a signed number: the floored remainder against half of the divisor, for every positive
shift. Past 64 places the C++ reads the top bit, which is the sign. -/
theorem residualErrorOnRightShift_of_signed {m : BitVec 64} {s : Int} (h0 : 0 < s) :
    residualErrorOnRightShift m s = .ofRemainder (m.toInt % 2 ^ s.toNat).toNat (2 ^ (s.toNat - 1)) := by
  by_cases hs : s ≤ 64 ∨ m.toNat < 2 ^ 63
  · rw [residualErrorOnRightShift_eq h0 hs, toNat_toInt_emod m (by omega)]
  · -- a negative mantissa shifted out whole: its remainder is above half of the divisor
    obtain ⟨h64, hneg⟩ := not_or.mp hs
    have hlt := m.isLt
    have hm : m ≠ 0 := fun h => hneg (by rw [h]; decide)
    have hmsb : mostSignificantBit m = true := by
      rw [mostSignificantBit_eq (by decide)]
      simp only [decide_eq_true_eq]
      omega
    have hhalf : 2 ^ 64 ≤ 2 ^ (s.toNat - 1) := Nat.pow_le_pow_right (by decide) (by omega)
    have hpow : (2 : ℕ) ^ s.toNat = 2 * 2 ^ (s.toNat - 1) := by
      conv_lhs => rw [show s.toNat = s.toNat - 1 + 1 by omega]
      rw [Nat.pow_succ, Nat.mul_comm]
    -- the signed reading is `m - 2 ^ 64`, and the floored remainder adds the divisor back once
    have hr : (m.toInt % 2 ^ s.toNat).toNat = m.toNat + 2 ^ s.toNat - 2 ^ 64 := by
      have hP : ((2 ^ s.toNat : ℕ) : ℤ) = 2 ^ s.toNat := by push_cast; rfl
      rw [BitVec.toInt_eq_toNat_cond, if_neg (by omega), ← hP, ← Int.add_mul_emod_self_left _ _ 1]
      generalize 2 ^ s.toNat = P at hpow ⊢
      rw [Int.emod_eq_of_lt (by push_cast; omega) (by push_cast; omega)]
      push_cast
      omega
    rw [residualErrorOnRightShift, if_neg (not_or.mpr ⟨by omega, hm⟩), if_pos (by omega), hmsb, hr,
      ResidualError.ofRemainder, if_neg (by omega), if_neg (by omega), if_neg (by omega)]
    rfl

/-- `ResidualErrorOnRightShift` classifies what a right shift by `s` drops, for every 64-bit mantissa and every shift.
With the mantissa read as a signed number it is the remainder of the floored division by `2 ^ s` against half of
`2 ^ s`, and zero for a shift that is not positive; read as unsigned, the same up to 64 places and, past them, for a
mantissa with its top bit clear. -/
theorem residualErrorOnRightShift_classifies_remainder (m : BitVec 64) (s : Int) :
    residualErrorOnRightShift m s =
        (if s ≤ 0 then .zero else .ofRemainder (m.toInt % 2 ^ s.toNat).toNat (2 ^ (s.toNat - 1))) ∧
      (0 < s → (s ≤ 64 ∨ m.toNat < 2 ^ 63) →
        residualErrorOnRightShift m s = .ofRemainder (m.toNat % 2 ^ s.toNat) (2 ^ (s.toNat - 1))) := by
  refine ⟨?_, fun h0 hs => residualErrorOnRightShift_eq h0 hs⟩
  split
  · rename_i hs
    exact residualErrorOnRightShift_of_nonpos hs
  · exact residualErrorOnRightShift_of_signed (by omega)

/-- A shift that drops no set bit: when `m * 2 ^ a = M * 2 ^ b` for a mantissa `m` below `2 ^ 63`, the shift of `m` by
`b - a` gives `M` and classifies nothing as dropped. -/
theorem shift_exact {m M : BitVec 64} {a b : ℤ} (hm : m.toNat < 2 ^ 63) (hM : M.toNat ≠ 0)
    (h : (m.toNat : ℚ) * 2 ^ a = M.toNat * 2 ^ b) :
    Safe.logicalShiftRight m (b - a) = M ∧ residualErrorOnRightShift m (b - a) = .zero := by
  rcases le_or_gt a b with hab | hba
  · -- `m` is `M` shifted left by `b - a`, which stays below 63 places
    have heq := Dyadic.eq_mul_two_pow_of_eq hab h
    have hk : (b - a).toNat < 63 := by
      by_contra hk
      have : 2 ^ 63 ≤ 2 ^ (b - a).toNat := Nat.pow_le_pow_right (by decide) (by omega)
      have : 2 ^ (b - a).toNat ≤ m.toNat := by
        rw [heq]
        exact Nat.le_mul_of_pos_left _ (Nat.pos_of_ne_zero hM)
      omega
    refine ⟨?_, ?_⟩
    · rw [Safe.logicalShiftRight_of_nonneg (by omega) (by omega)]
      apply BitVec.eq_of_toNat_eq
      rw [BitVec.toNat_ushiftRight, Nat.shiftRight_eq_div_pow, heq, Nat.mul_div_cancel _ (by positivity)]
    · rcases eq_or_lt_of_le hab with hab' | hab'
      · exact residualErrorOnRightShift_of_nonpos (by omega)
      · rw [residualErrorOnRightShift_eq (by omega) (Or.inl (by omega)), heq, Nat.mul_mod_left]
        rfl
  · -- `M` is `m` shifted left by `a - b`, which stays below 64 places
    have heq := Dyadic.eq_mul_two_pow_of_eq hba.le h.symm
    have hm0 : m.toNat ≠ 0 := by
      rintro h0
      rw [h0, Nat.zero_mul] at heq
      exact hM heq
    have hk : (a - b).toNat < 64 := by
      by_contra hk
      have : 2 ^ 64 ≤ 2 ^ (a - b).toNat := Nat.pow_le_pow_right (by decide) (by omega)
      have : 2 ^ (a - b).toNat ≤ M.toNat := by
        rw [heq]
        exact Nat.le_mul_of_pos_left _ (Nat.pos_of_ne_zero hm0)
      have := M.isLt
      omega
    refine ⟨?_, residualErrorOnRightShift_of_nonpos (by omega)⟩
    rw [Safe.logicalShiftRight_of_neg (by omega) (by omega)]
    apply BitVec.eq_of_toNat_eq
    rw [BitVec.toNat_shiftLeft, Nat.shiftLeft_eq, show (-(b - a)).toNat = (a - b).toNat by omega, ← heq,
      Nat.mod_eq_of_lt M.isLt]

/-! ### Normalisation and packing -/

/-- A value below `2 ^ 63` shifted so that its highest bit lands on bit 62. -/
theorem toNat_shiftLeft_to_point {v : BitVec 64} (hv : v.toNat ≠ 0) (hlt : v.toNat < 2 ^ 63) :
    (v <<< (62 - v.toNat.log2)).toNat = v.toNat * 2 ^ (62 - v.toNat.log2) ∧
      (v.toNat * 2 ^ (62 - v.toNat.log2)).log2 = 62 := by
  have hlog : v.toNat.log2 < 63 := (Nat.log2_lt hv).mpr hlt
  have hlog2 : (v.toNat * 2 ^ (62 - v.toNat.log2)).log2 = 62 := by
    rw [Dyadic.log2_mul_two_pow hv]
    omega
  refine ⟨?_, hlog2⟩
  have hbound : v.toNat * 2 ^ (62 - v.toNat.log2) < 2 ^ 64 := by
    have := Nat.lt_log2_self (n := v.toNat * 2 ^ (62 - v.toNat.log2))
    rw [hlog2] at this
    omega
  rw [BitVec.toNat_shiftLeft, Nat.shiftLeft_eq, Nat.mod_eq_of_lt hbound]

/-- `ToNormalized` of a nonzero value below `2 ^ 63`: the value shifted up to bit 62, the exponent moved down by as
much. -/
theorem toNormalized_eq (sign : Bool) (exponent : Int) {v : BitVec 64} (hv : v ≠ 0) (hlt : v.toNat < 2 ^ 63) :
    toNormalized sign exponent v = ⟨sign, exponent + v.toNat.log2, v <<< (62 - v.toNat.log2)⟩ := by
  have hv' : v.toNat ≠ 0 := fun h => hv (BitVec.eq_of_toNat_eq (by simpa using h))
  have hlog : v.toNat.log2 < 63 := (Nat.log2_lt hv').mpr hlt
  simp only [toNormalized, if_neg hv, highestSetBit_of_ne_zero hv, normalizedPointPosition, FPUnpacked.mk.injEq,
    true_and]
  constructor
  · omega
  · congr 1
    omega

/-- `ToNormalized` of a nonzero value below `2 ^ 63` puts the highest bit on bit 62 and keeps the number. -/
theorem toNormalized_spec (sign : Bool) (exponent : Int) {v : BitVec 64} (hv : v ≠ 0) (hlt : v.toNat < 2 ^ 63) :
    (toNormalized sign exponent v).mantissa.toNat.log2 = 62 ∧
      (toNormalized sign exponent v).value = (if sign then -1 else 1) * (v.toNat : ℚ) * 2 ^ exponent := by
  have hv' : v.toNat ≠ 0 := fun h => hv (BitVec.eq_of_toNat_eq (by simpa using h))
  have hlog : v.toNat.log2 < 63 := (Nat.log2_lt hv').mpr hlt
  obtain ⟨hshift, hlog2⟩ := toNat_shiftLeft_to_point hv' hlt
  rw [toNormalized_eq sign exponent hv hlt, FPUnpacked.value]
  dsimp only
  rw [hshift, hlog2]
  refine ⟨rfl, ?_⟩
  rw [mul_assoc, Dyadic.cast_mul_two_pow_mul_zpow, mul_assoc]
  congr 3
  rw [normalizedPointPosition]
  omega

/-- `Normalize` of a nonzero mantissa, with `highest_set_bit` read as the logarithm. -/
theorem normalize_eq {F : Nat} {op : FPUnpacked} (hm : op.mantissa ≠ 0) (extraRightShift : Int) :
    normalize F op extraRightShift =
      ⟨op.sign, op.exponent + op.mantissa.toNat.log2 - normalizedPointPosition,
        Safe.logicalShiftRight op.mantissa (op.mantissa.toNat.log2 - F + extraRightShift),
        residualErrorOnRightShift op.mantissa (op.mantissa.toNat.log2 - F + extraRightShift)⟩ := by
  rw [normalize, highestSetBit_of_ne_zero hm]

/-- The packed word as a number: sign, biased exponent and the mantissa's low `F` bits, when the exponent fits its
field. -/
theorem toNat_packResult (info : FPInfo) (sign : Bool) {biasedExp : Int} (mantissa : BitVec 64)
    (h0 : 0 ≤ biasedExp) (hE : biasedExp < 2 ^ info.exponentWidth) :
    (packResult info sign biasedExp mantissa).toNat =
      ((if sign then 2 ^ info.exponentWidth else 0) + biasedExp.toNat) * 2 ^ info.explicitMantissaWidth +
        mantissa.toNat % 2 ^ info.explicitMantissaWidth := by
  have hW := info.totalWidth_eq
  have hF52 := info.explicitMantissaWidth_le
  have hF : info.explicitMantissaWidth ≤ info.totalWidth := by omega
  have hEW : 2 ^ info.exponentWidth * 2 ≤ 2 ^ info.totalWidth := by
    rw [← Nat.pow_succ]
    exact Nat.pow_le_pow_right (by decide) (by omega)
  have hbE : biasedExp.toNat < 2 ^ info.exponentWidth := (Int.toNat_lt h0).mpr (by exact_mod_cast hE)
  have hhigh : ((bif sign then 1 else 0 : BitVec info.totalWidth) <<< info.exponentWidth +
      BitVec.ofInt info.totalWidth biasedExp).toNat = (if sign then 2 ^ info.exponentWidth else 0) + biasedExp.toNat := by
    have hb : (BitVec.ofInt info.totalWidth biasedExp).toNat = biasedExp.toNat := by
      rw [BitVec.toNat_ofInt, Int.toNat_emod h0 (by positivity), Nat.mod_eq_of_lt (by omega)]
    have hs : ((bif sign then 1 else 0 : BitVec info.totalWidth) <<< info.exponentWidth).toNat =
        if sign then 2 ^ info.exponentWidth else 0 := by
      cases sign
      · simp
      · have h1 : (1 : BitVec info.totalWidth).toNat = 1 := BitVec.toNat_one (by omega)
        rw [cond_true, BitVec.toNat_shiftLeft, h1, Nat.one_shiftLeft, Nat.mod_eq_of_lt (by omega)]
        rfl
    rw [BitVec.toNat_add, hs, hb, Nat.mod_eq_of_lt (by split <;> omega)]
  have hlow : (mantissa.setWidth info.totalWidth &&& info.mantissaMask.setWidth info.totalWidth).toNat =
      mantissa.toNat % 2 ^ info.explicitMantissaWidth := by
    rw [BitVec.toNat_and, BitVec.toNat_setWidth, BitVec.toNat_setWidth, FPInfo.mantissaMask,
      toNat_ones (by omega), Nat.mod_eq_of_lt (a := 2 ^ info.explicitMantissaWidth - 1) (by
        have : 2 ^ info.explicitMantissaWidth ≤ 2 ^ info.totalWidth := Nat.pow_le_pow_right (by decide) hF
        omega), Nat.and_two_pow_sub_one_eq_mod, Nat.mod_mod_of_dvd _ (Nat.pow_dvd_pow 2 hF)]
  have hbound : ((if sign then 2 ^ info.exponentWidth else 0) + biasedExp.toNat) * 2 ^ info.explicitMantissaWidth <
      2 ^ info.totalWidth := by
    rw [hW, Nat.pow_succ, Nat.pow_add, Nat.mul_right_comm]
    apply Nat.mul_lt_mul_of_pos_right _ (by positivity)
    split <;> omega
  rw [packResult, BitVec.toNat_or, BitVec.toNat_shiftLeft, hhigh, hlow, Nat.shiftLeft_eq, Nat.mod_eq_of_lt hbound,
    Nat.mul_comm _ (2 ^ info.explicitMantissaWidth), ← Nat.two_pow_add_eq_or_of_lt (Nat.mod_lt _ (by positivity))]

section PackResult

variable (info : FPInfo) (sign : Bool) {biasedExp : Int} (mantissa : BitVec 64)
variable (h0 : 0 ≤ biasedExp) (hE : biasedExp < 2 ^ info.exponentWidth)
include h0 hE

/-- The packed word as the multiple of `2 ^ F` that holds sign and exponent, plus the low bits of the mantissa. -/
theorem toNat_packResult_eq_mul_add :
    (packResult info sign biasedExp mantissa).toNat =
      2 ^ info.explicitMantissaWidth * ((if sign then 2 ^ info.exponentWidth else 0) + biasedExp.toNat) +
        mantissa.toNat % 2 ^ info.explicitMantissaWidth := by
  rw [toNat_packResult info sign mantissa h0 hE, Nat.mul_comm]

/-- `PackResult` stores the mantissa's low bits as the fraction. -/
theorem fractionOf_packResult :
    info.fractionOf (packResult info sign biasedExp mantissa) = mantissa.toNat % 2 ^ info.explicitMantissaWidth := by
  rw [FPInfo.fractionOf, toNat_packResult_eq_mul_add info sign mantissa h0 hE, Nat.mul_add_mod, Nat.mod_mod]

/-- `PackResult` stores the biased exponent it is given. -/
theorem biasedExponentOf_packResult :
    (info.biasedExponentOf (packResult info sign biasedExp mantissa) : Int) = biasedExp := by
  have hbE : biasedExp.toNat < 2 ^ info.exponentWidth := (Int.toNat_lt h0).mpr (by exact_mod_cast hE)
  have hr : mantissa.toNat % 2 ^ info.explicitMantissaWidth / 2 ^ info.explicitMantissaWidth = 0 :=
    Nat.div_eq_of_lt (Nat.mod_lt _ (by positivity))
  rw [FPInfo.biasedExponentOf, toNat_packResult_eq_mul_add info sign mantissa h0 hE,
    Nat.mul_add_div (by positivity), hr, Nat.add_zero]
  cases sign
  · simp only [Bool.false_eq_true, if_false, Nat.zero_add, Nat.mod_eq_of_lt hbE]
    omega
  · simp only [if_true, Nat.add_mod_left, Nat.mod_eq_of_lt hbE]
    omega

/-- `PackResult` stores the sign it is given. -/
theorem signOf_packResult : info.signOf (packResult info sign biasedExp mantissa) = sign := by
  have hbE : biasedExp.toNat < 2 ^ info.exponentWidth := (Int.toNat_lt h0).mpr (by exact_mod_cast hE)
  have hr : mantissa.toNat % 2 ^ info.explicitMantissaWidth < 2 ^ info.explicitMantissaWidth :=
    Nat.mod_lt _ (by positivity)
  have hlow : 2 ^ info.explicitMantissaWidth * biasedExp.toNat + 2 ^ info.explicitMantissaWidth ≤
      2 ^ (info.exponentWidth + info.explicitMantissaWidth) := by
    rw [← Nat.mul_succ, Nat.pow_add, Nat.mul_comm (2 ^ info.exponentWidth)]
    exact Nat.mul_le_mul_left _ hbE
  rw [FPInfo.signOf_eq_decide, toNat_packResult_eq_mul_add info sign mantissa h0 hE]
  cases sign
  · simp only [Bool.false_eq_true, if_false, Nat.zero_add, decide_eq_false_iff_not, not_le]
    omega
  · simp only [if_true, decide_eq_true_eq]
    rw [Nat.mul_add, ← Nat.pow_add, Nat.add_comm info.explicitMantissaWidth]
    omega

end PackResult

/-- A pattern is the packing of its own fields. -/
theorem packResult_eq_of_fields (info : FPInfo) {x : BitVec info.totalWidth} {sign : Bool} {biasedExp : Int}
    {mantissa : BitVec 64} (h0 : 0 ≤ biasedExp) (hs : info.signOf x = sign)
    (he : (info.biasedExponentOf x : Int) = biasedExp)
    (hf : info.fractionOf x = mantissa.toNat % 2 ^ info.explicitMantissaWidth) :
    packResult info sign biasedExp mantissa = x := by
  have hE : biasedExp < 2 ^ info.exponentWidth := by
    have hlt : info.biasedExponentOf x < 2 ^ info.exponentWidth := Nat.mod_lt _ (by positivity)
    rw [← he]
    exact_mod_cast hlt
  apply info.eq_of_fields
  · rw [signOf_packResult info sign mantissa h0 hE, hs]
  · have := biasedExponentOf_packResult info sign mantissa h0 hE
    omega
  · rw [fractionOf_packResult info sign mantissa h0 hE, hf]

/-! ### Rounding a number the format holds -/

/-- A normalisation that drops nothing asks for no increment in any rounding mode. -/
theorem roundUpOf_of_error_zero (rounding : RoundingMode) {n : Normalized} (h : n.error = .zero) :
    roundUpOf rounding n = false := by
  cases rounding <;> simp [roundUpOf, h]
  decide

/-- `FPRoundBase` when its normalisation drops nothing and the number stays below the overflow threshold: the packing of
the normalised fields, with the status unchanged, in every rounding mode it accepts. `n0` is the first normalisation,
`b` the biased exponent computed from it and `n` the normalisation that is rounded. -/
theorem fpRoundBase_of_exact {info : FPInfo} {op : FPUnpacked} {fpcr : FPCR} {rounding : RoundingMode} {fpsr : FPSR}
    {n0 n : Normalized} {b : Int} (hm : op.mantissa ≠ 0) (hr : rounding ≠ .toNearestTieAwayFromZero)
    (hn0 : normalize info.explicitMantissaWidth op 0 = n0) (hb : max (n0.exponent - info.exponentMin + 1) 0 = b)
    (hn : (if b = 0 then normalize info.explicitMantissaWidth op (info.exponentMin - n0.exponent) else n0) = n)
    (hfz : (info.flushToZero fpcr && decide (n0.exponent < info.exponentMin)) = false) (herr : n.error = .zero)
    (hover : b < 2 ^ info.exponentWidth - 1) (hufe : b = 0 → fpcr.ufe = false) :
    fpRoundBase info op fpcr rounding fpsr = some (packResult info n.sign b n.mantissa, fpsr) := by
  unfold fpRoundBase
  rw [if_neg (not_or.mpr ⟨hm, hr⟩)]
  simp only [bind, pure, hn0, hb, hn, hfz, Bool.false_eq_true, if_false, roundUpOf_of_error_zero rounding herr,
    applyRoundUp, herr, ne_eq, not_true_eq_false, false_and, false_or]
  -- no underflow: a subnormal result is exact and its trap is off
  rw [if_neg (fun h => by rw [hufe h.1] at h; exact Bool.false_ne_true h.2), Option.bind_some]
  -- both formats of half precision pack the same when the exponent stays below the threshold
  split
  · rw [if_neg (by omega)]
    rfl
  · rw [if_neg (by omega)]
    rfl

end Dynarmic.FP
