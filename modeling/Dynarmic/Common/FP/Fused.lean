import Dynarmic.Common.U128
import Dynarmic.Common.FP.RoundTrip

/-!
# Fused multiply-add

`FusedMulAdd` and `ReduceMantissa` (common/fp/fused.cpp), `FPProcessNaN` and `FPProcessNaNs3` (process_nan.cpp), and
`FPMulAdd` (op/FPMulAdd.cpp).

`FusedMulAdd` forms the exact product of two unpacked mantissas in 128 bits, with its binary point below bit 124, aligns
the addend to it with a sticky shift, adds or subtracts, and reduces the 128-bit result to an unpacked number with the
point below bit 62, keeping a sticky bit so that the final rounding is the rounding of the exact sum. Of its exits, the
one for a difference whose high word is zero returns the low word as it stands: the point is still below bit 124 there,
so the number it denotes is `2 ^ 62` times the difference.
-/

namespace Dynarmic.FP

open Mcl.Bit

/-- `product_point_position`: the binary point of a product of two unpacked mantissas. -/
def productPointPosition : Nat := normalizedPointPosition * 2

/-- `ReduceMantissa`: the high word of a 128-bit mantissa with its point below bit 124, the low word folded into a sticky
bit (a rounding to odd), and the exponent moved to put the point below bit 62. -/
def reduceMantissa (sign : Bool) (exponent : Int) (mantissa : U128) : FPUnpacked :=
  let pointPositionCorrection : Int := (normalizedPointPosition : Int) - ((productPointPosition : Int) - 64)
  ⟨sign, exponent + pointPositionCorrection, mantissa.upper ||| if mantissa.lower ≠ 0 then 1 else 0⟩

/-- The product `FusedMulAdd` computes first: its exponent, and the 128-bit product shifted down one place when it
reaches bit 125. -/
def fusedProduct (op1 op2 : FPUnpacked) : Int × U128 :=
  let exponent := op1.exponent + op2.exponent
  let value := U128.multiply64To128 op1.mantissa op2.mantissa
  if value.bit (productPointPosition + 1) then (exponent + 1, value.shiftRight 1) else (exponent, value)

/-- `FusedMulAdd(addend, op1, op2)`. -/
def fusedMulAdd (addend op1 op2 : FPUnpacked) : FPUnpacked :=
  let productSign := op1.sign != op2.sign
  let (productExponent, productValue) := fusedProduct op1 op2
  if productValue = ⟨0, 0⟩ then addend
  else if addend.mantissa = 0 then reduceMantissa productSign productExponent productValue
  else
    let expDiff := productExponent - addend.exponent
    if productSign = addend.sign then
      -- addition
      if expDiff ≤ 0 then
        let result := addend.mantissa +
          (U128.stickyLogicalShiftRight productValue (normalizedPointPosition - expDiff)).lower
        ⟨addend.sign, addend.exponent, result⟩
      else
        let result := productValue +
          U128.stickyLogicalShiftRight (.ofU64 addend.mantissa) (expDiff - normalizedPointPosition)
        reduceMantissa productSign productExponent result
    else
      -- subtraction
      let addendLong := U128.shiftLeft (.ofU64 addend.mantissa) normalizedPointPosition
      let (resultSign, resultExponent, result) :=
        if expDiff = 0 ∧ addendLong < productValue then (productSign, productExponent, productValue - addendLong)
        else if expDiff ≤ 0 then
          (!productSign, addend.exponent, addendLong - U128.stickyLogicalShiftRight productValue (-expDiff))
        else (productSign, productExponent, productValue - U128.stickyLogicalShiftRight addendLong expDiff)
      if result.upper = 0 then ⟨resultSign, resultExponent, result.lower⟩
      else
        let requiredShift : Int := normalizedPointPosition - highestSetBit result.upper
        reduceMantissa resultSign (resultExponent - requiredShift) (result.shiftLeft requiredShift)

/-- `FPProcessNaN`: a signalling NaN is quietened and raises `InvalidOp`; with `DN` the default NaN is returned. The
`ASSERT` that the type is a NaN stops otherwise. -/
def fpProcessNaN (info : FPInfo) (type : FPType) (op : BitVec info.totalWidth) (fpcr : FPCR) (fpsr : FPSR) :
    Option (BitVec info.totalWidth × FPSR) :=
  if ¬(type = .qNaN ∨ type = .sNaN) then none
  else do
    let topfrac := info.explicitMantissaWidth - 1
    let (result, fpsr) ← if type = .sNaN then
        (fpProcessException .invalidOp fpcr fpsr).map fun fpsr => (setBit topfrac op true, fpsr)
      else some (op, fpsr)
    return (if fpcr.dn then info.defaultNaN else result, fpsr)

/-- `FPProcessNaNs3`: the first signalling NaN of the three, else the first quiet one, processed; `none` inside when
there is no NaN. -/
def fpProcessNaNs3 (info : FPInfo) (type1 type2 type3 : FPType) (op1 op2 op3 : BitVec info.totalWidth) (fpcr : FPCR)
    (fpsr : FPSR) : Option (Option (BitVec info.totalWidth) × FPSR) :=
  let processed (type : FPType) (op : BitVec info.totalWidth) :=
    (fpProcessNaN info type op fpcr fpsr).map fun (result, fpsr) => (some result, fpsr)
  if type1 = .sNaN then processed type1 op1
  else if type2 = .sNaN then processed type2 op2
  else if type3 = .sNaN then processed type3 op3
  else if type1 = .qNaN then processed type1 op1
  else if type2 = .qNaN then processed type2 op2
  else if type3 = .qNaN then processed type3 op3
  else some (none, fpsr)

/-- `FPMulAdd<FPT>(addend, op1, op2, fpcr, fpsr)`: `addend + op1 * op2` with a single rounding, in the mode of `FPCR`. -/
def fpMulAdd (info : FPInfo) (addend op1 op2 : BitVec info.totalWidth) (fpcr : FPCR) (fpsr : FPSR) :
    Option (BitVec info.totalWidth × FPSR) := do
  let rounding := fpcr.rMode
  let ((typeA, signA, valueA), fpsr) ← fpUnpack info addend fpcr fpsr
  let ((type1, sign1, value1), fpsr) ← fpUnpack info op1 fpcr fpsr
  let ((type2, sign2, value2), fpsr) ← fpUnpack info op2 fpcr fpsr
  let infA := typeA == .infinity
  let inf1 := type1 == .infinity
  let inf2 := type2 == .infinity
  let zeroA := typeA == .zero
  let zero1 := type1 == .zero
  let zero2 := type2 == .zero
  let (maybeNaN, fpsr) ← fpProcessNaNs3 info typeA type1 type2 addend op1 op2 fpcr fpsr
  if typeA == .qNaN && ((inf1 && zero2) || (zero1 && inf2)) then
    let fpsr ← fpProcessException .invalidOp fpcr fpsr
    return (info.defaultNaN, fpsr)
  if let some nan := maybeNaN then return (nan, fpsr)
  let signP := sign1 != sign2
  let infP := inf1 || inf2
  let zeroP := zero1 || zero2
  if (inf1 && zero2) || (zero1 && inf2) || (infA && infP && signA != signP) then
    let fpsr ← fpProcessException .invalidOp fpcr fpsr
    return (info.defaultNaN, fpsr)
  if (infA && !signA) || (infP && !signP) then return (info.infinity false, fpsr)
  if (infA && signA) || (infP && signP) then return (info.infinity true, fpsr)
  if zeroA && zeroP && signA == signP then return (info.zero signA, fpsr)
  let resultValue := fusedMulAdd valueA value1 value2
  if resultValue.mantissa = 0 then return (info.zero (rounding == .towardsMinusInfinity), fpsr)
  fpRound info resultValue fpcr rounding fpsr

/-- `fma(1 + 2^-52, 1 + 2^-52, -(1 + 2^-51))` in double precision. The exact value `2^-104` is a double,
`0x3970000000000000`, but the difference in `FusedMulAdd` has a zero high word and is returned with its point still
below bit 124: `FPMulAdd` gives `2^-42`, `0x3D50000000000000`. -/
theorem fpMulAdd_cancellation_misplaces_point :
    FPInfo.u64.valueOf 0xBFF0000000000002 + FPInfo.u64.valueOf 0x3FF0000000000001 * FPInfo.u64.valueOf 0x3FF0000000000001 =
        FPInfo.u64.valueOf 0x3970000000000000 ∧
      FPInfo.u64.valueOf 0x3970000000000000 = 2 ^ (-104 : ℤ) ∧ FPInfo.u64.valueOf 0x3D50000000000000 = 2 ^ (-42 : ℤ) ∧
      fpMulAdd .u64 0xBFF0000000000002 0x3FF0000000000001 0x3FF0000000000001 ⟨0⟩ ⟨0⟩ =
        some (0x3D50000000000000, ⟨0⟩) := by
  rw [FPInfo.u64.valueOf_of_fields (x := 0xBFF0000000000002) (s := true) (m := 2 ^ 52 + 2) (q := -52) (by decide)
      (by decide) (by decide),
    FPInfo.u64.valueOf_of_fields (x := 0x3FF0000000000001) (s := false) (m := 2 ^ 52 + 1) (q := -52) (by decide)
      (by decide) (by decide),
    FPInfo.u64.valueOf_of_fields (x := 0x3970000000000000) (s := false) (m := 2 ^ 52) (q := -156) (by decide)
      (by decide) (by decide),
    FPInfo.u64.valueOf_of_fields (x := 0x3D50000000000000) (s := false) (m := 2 ^ 52) (q := -94) (by decide)
      (by decide) (by decide)]
  refine ⟨by norm_num, by norm_num, by norm_num, ?_⟩
  decide

end Dynarmic.FP
