import Dynarmic.Common.FP.RoundTrip

/-!
# Conversion to fixed point

`FPToFixed<FPT>(ibits, op, fbits, unsigned_, fpcr, rounding, fpsr)` (common/fp/op/FPToFixed.cpp): the number `op * 2 ^
fbits` rounded to an integer of `ibits` bits, signed or unsigned, saturating with `InvalidOp` when it does not fit.
The rounding works on the two's complement of a negative mantissa, so an arithmetic right shift rounds towards minus
infinity and each mode decides on an increment from the residual and the sign of the shifted word.

A negative number converted to unsigned is answered before any rounding: the C++ returns 0 with `InvalidOp` even when
the number rounds to 0 and so fits, where the increment and the saturation test would have given 0 with `Inexact`.
-/

namespace Dynarmic.FP

open Mcl.Bit

/-- The increment the `switch (rounding)` of `FPToFixed` decides on, from the residual and the shifted two's complement
word. -/
def fixedRoundUpOf (rounding : RoundingMode) (error : ResidualError) (intResult : BitVec 64) : Bool :=
  match rounding with
  | .toNearestTieEven => decide (error > .half) || (error == .half && getBit 0 intResult)
  | .towardsPlusInfinity => error != .zero
  | .towardsMinusInfinity => false
  | .towardsZero => error != .zero && mostSignificantBit intResult
  | .toNearestTieAwayFromZero => decide (error > .half) || (error == .half && !mostSignificantBit intResult)
  | .toOdd => false

/-- `FPToFixed<FPT>`: the result word and the status, or `none` where an `ASSERT` stops (`ToOdd`, which also reaches the
`UNREACHABLE` of the switch, more than 64 bits, `fbits` past `ibits`) or a raised exception is trapped. -/
def fpToFixed (info : FPInfo) (ibits : Nat) (op : BitVec info.totalWidth) (fbits : Nat) (unsigned : Bool) (fpcr : FPCR)
    (rounding : RoundingMode) (fpsr : FPSR) : Option (BitVec 64 × FPSR) :=
  if rounding = .toOdd ∨ 64 < ibits ∨ ibits < fbits then none
  else do
    let ((type, sign, value), fpsr) ← fpUnpack info op fpcr fpsr
    let fpsr ← if type = .sNaN ∨ type = .qNaN then fpProcessException .invalidOp fpcr fpsr else pure fpsr
    if value.mantissa = 0 then return (0, fpsr)
    if sign && unsigned then
      let fpsr ← fpProcessException .invalidOp fpcr fpsr
      return (0, fpsr)
    let exponent : Int := value.exponent + fbits - normalizedPointPosition
    let intResult := if sign then Safe.negate value.mantissa else value.mantissa
    let error := residualErrorOnRightShift intResult (-exponent)
    let intResult := Safe.arithmeticShiftLeft intResult exponent
    let roundUp := fixedRoundUpOf rounding error intResult
    let intResult := if roundUp then intResult + 1 else intResult
    let minExponentForOverflow : Int := (ibits : Int) -
      highestSetBit (value.mantissa + if roundUp then Safe.logicalShiftRight 1 exponent else 0) -
      (if unsigned then 0 else 1)
    if minExponentForOverflow ≤ exponent then
      if unsigned || !sign then
        let fpsr ← fpProcessException .invalidOp fpcr fpsr
        return (ones 64 (ibits - if unsigned then 0 else 1), fpsr)
      let minValue := Safe.negate ((1 : BitVec 64) <<< (ibits - 1))
      if !(exponent = minExponentForOverflow ∧ intResult = minValue) then
        let fpsr ← fpProcessException .invalidOp fpcr fpsr
        return ((1 : BitVec 64) <<< (ibits - 1), fpsr)
    let fpsr ← if error ≠ .zero then fpProcessException .inexact fpcr fpsr else pure fpsr
    return (intResult &&& ones 64 ibits, fpsr)

/-- The `FPToFixed` tests of the repository (tests/fp/FPToFixed.cpp), to signed integers in ties-to-even: `1000.0`,
`-1000.0`, `999.5` (inexact, `0x10`), `2^34` and `-2^34` (saturated, invalid `0x01`), `-2^31` (exact at the bound), and two
tiny negative numbers (inexact). -/
example :
    fpToFixed .u32 64 0x447A0000 0 false ⟨0⟩ .toNearestTieEven ⟨0⟩ = some (0x000003E8, ⟨0x00⟩) ∧
    fpToFixed .u32 32 0xC47A0000 0 false ⟨0⟩ .toNearestTieEven ⟨0⟩ = some (0xFFFFFC18, ⟨0x00⟩) ∧
    fpToFixed .u32 64 0x4479E000 0 false ⟨0⟩ .toNearestTieEven ⟨0⟩ = some (0x000003E8, ⟨0x10⟩) ∧
    fpToFixed .u32 32 0x50800000 0 false ⟨0⟩ .toNearestTieEven ⟨0⟩ = some (0x7FFFFFFF, ⟨0x01⟩) ∧
    fpToFixed .u32 32 0xD0800000 0 false ⟨0⟩ .toNearestTieEven ⟨0⟩ = some (0x80000000, ⟨0x01⟩) ∧
    fpToFixed .u32 32 0xCF000000 0 false ⟨0⟩ .toNearestTieEven ⟨0⟩ = some (0x80000000, ⟨0x00⟩) ∧
    fpToFixed .u32 64 0x80002B94 0 false ⟨0⟩ .toNearestTieEven ⟨0⟩ = some (0x00000000, ⟨0x10⟩) ∧
    fpToFixed .u32 64 0x80636D24 0 false ⟨0⟩ .toNearestTieEven ⟨0⟩ = some (0x00000000, ⟨0x10⟩) := by
  decide

/-! ### Negative numbers to unsigned -/

/-- Setting AHP does not change whether a format flushes to zero. -/
theorem FPInfo.flushToZero_setAHP (info : FPInfo) (fpcr : FPCR) (ahp : Bool) :
    info.flushToZero (fpcr.setAHP ahp) = info.flushToZero fpcr := by
  rw [FPInfo.flushToZero, FPCR.fz_setAHP, FPCR.fz16_setAHP, FPInfo.flushToZero]

/-- `FPUnpack` of a finite pattern of nonzero value, with flush-to-zero off for a subnormal one. -/
theorem fpUnpack_of_finite (info : FPInfo) {x : BitVec info.totalWidth} (hfin : info.IsFinite x)
    (hnz : info.valueOf x ≠ 0) (fpcr : FPCR) (hfz : info.biasedExponentOf x = 0 → info.flushToZero fpcr = false)
    (fpsr : FPSR) :
    fpUnpack info x fpcr fpsr = some ((.nonzero, info.signOf x, info.unpackedOf x), fpsr) := by
  rw [fpUnpack, fpUnpackBase_of_finite info hfin hnz _ (by rwa [FPInfo.flushToZero_setAHP]) fpsr, FPInfo.unpackedOf]

/-- A nonzero value unpacks to a nonzero mantissa. -/
theorem FPInfo.mantissa_unpackedOf_ne_zero (info : FPInfo) {x : BitVec info.totalWidth} (hnz : info.valueOf x ≠ 0) :
    (info.unpackedOf x).mantissa ≠ 0 := by
  intro h
  have hlog := (info.unpackedOf_spec hnz).2.1
  rw [h] at hlog
  exact absurd hlog (by decide)

/-- A negative finite number of nonzero value converted to unsigned gives 0 and raises `InvalidOp`, in every rounding
mode and whatever the number rounds to. -/
theorem fpToFixed_unsigned_of_neg (info : FPInfo) {x : BitVec info.totalWidth} {ibits fbits : Nat} {fpcr : FPCR}
    {rounding : RoundingMode} (hfin : info.IsFinite x) (hnz : info.valueOf x ≠ 0) (hneg : info.signOf x = true)
    (hfz : info.biasedExponentOf x = 0 → info.flushToZero fpcr = false) (hib : ibits ≤ 64) (hfb : fbits ≤ ibits)
    (hr : rounding ≠ .toOdd) (fpsr : FPSR) :
    fpToFixed info ibits x fbits true fpcr rounding fpsr =
      (fpProcessException .invalidOp fpcr fpsr).map fun fpsr => (0, fpsr) := by
  rw [fpToFixed, if_neg (not_or.mpr ⟨hr, not_or.mpr ⟨by omega, by omega⟩⟩), fpUnpack_of_finite info hfin hnz fpcr hfz fpsr]
  simp only [bind, pure, Option.bind_some, hneg, info.mantissa_unpackedOf_ne_zero hnz, reduceCtorEq, or_self,
    if_false, Bool.and_self, if_true]
  cases fpProcessException .invalidOp fpcr fpsr <;> rfl

/-- `-0.3f` (`0xBE99999A`) converted to a 32-bit unsigned integer towards zero. The number rounds to 0, which fits and
is not exact; the C++ returns that 0 but sets `IOC` (`0x01`) instead of `IXC` (`0x10`). -/
theorem fpToFixed_flags_negative_rounding_to_zero :
    FPInfo.u32.valueOf 0xBE99999A = -5033165 / 16777216 ∧
      RoundingMode.towardsZero.roundToIntegral (-5033165 / 16777216) = 0 ∧
      fpToFixed .u32 32 0xBE99999A 0 true ⟨0⟩ .towardsZero ⟨0⟩ = some (0, ⟨0x01⟩) := by
  refine ⟨?_, ?_, ?_⟩
  · rw [FPInfo.u32.valueOf_of_fields (x := 0xBE99999A) (s := true) (m := 10066330) (q := -25) (by decide) (by decide)
      (by decide)]
    norm_num
  · rw [RoundingMode.roundToIntegral, if_pos (by norm_num), Int.ceil_eq_iff]
    norm_num
  · rw [fpToFixed_unsigned_of_neg .u32 (by decide) (by rw [ne_eq, FPInfo.valueOf_eq_zero_iff]; decide) (by decide)
      (by decide) (by decide) (by decide) (by decide)]
    decide

end Dynarmic.FP
