import Mathlib.Data.Rat.Floor
import Mathlib.Tactic.Ring
import Dynarmic.Mcl.Bit

/-!
# Floating-point formats, control and status

`FPInfo<FPT>` (common/fp/info.h) for the three formats the code instantiates, `RoundingMode` (rounding_mode.h), the
control and status registers `FPCR` and `FPSR` (fpcr.h, fpsr.h) as far as the FP routines read and write them,
`FPProcessException` (process_exception.cpp), and the unpacked representation `FPUnpacked` with its `FPType`
(unpacked.h).

A format's bit patterns are words of `FPInfo.totalWidth` bits. The masks of `FPInfo` are kept as 64-bit words: the C++
declares them `u32` for the two narrow formats, and every use converts them to the width at hand. An `ASSERT` or
`ASSERT_FALSE` of the C++ stops the program; the functions that can reach one return `Option`, with `none` for the stop.

Above the code stand the values the bit patterns and the unpacked numbers denote (`FPInfo.valueOf`, `FPUnpacked.value`)
and what a rounding mode does to a rational number when it rounds it to an integer (`RoundingMode.roundToIntegral`):
the statements about the FP routines compare their results with these.
-/

namespace Dynarmic.FP

open Mcl.Bit

/-- `FPInfo<FPT>`: the layout of a binary floating-point format held in a word of `totalWidth` bits. The fields after
the constants are the relations the C++ constants satisfy. -/
structure FPInfo where
  totalWidth : Nat
  exponentWidth : Nat
  explicitMantissaWidth : Nat
  exponentMin : Int
  exponentMax : Int
  exponentBias : Int
  totalWidth_eq : totalWidth = exponentWidth + explicitMantissaWidth + 1
  exponentBias_eq : exponentBias = 2 ^ (exponentWidth - 1) - 1
  exponentMin_eq : exponentMin = 1 - exponentBias
  exponentMax_eq : exponentMax = exponentBias
  two_le_exponentWidth : 2 ≤ exponentWidth
  explicitMantissaWidth_pos : 0 < explicitMantissaWidth
  explicitMantissaWidth_le : explicitMantissaWidth ≤ 52

namespace FPInfo

/-- `FPInfo<u16>`: half precision. -/
def u16 : FPInfo where
  totalWidth := 16
  exponentWidth := 5
  explicitMantissaWidth := 10
  exponentMin := -14
  exponentMax := 15
  exponentBias := 15
  totalWidth_eq := rfl
  exponentBias_eq := by decide
  exponentMin_eq := by decide
  exponentMax_eq := rfl
  two_le_exponentWidth := by decide
  explicitMantissaWidth_pos := by decide
  explicitMantissaWidth_le := by decide

/-- `FPInfo<u32>`: single precision. -/
def u32 : FPInfo where
  totalWidth := 32
  exponentWidth := 8
  explicitMantissaWidth := 23
  exponentMin := -126
  exponentMax := 127
  exponentBias := 127
  totalWidth_eq := rfl
  exponentBias_eq := by decide
  exponentMin_eq := by decide
  exponentMax_eq := rfl
  two_le_exponentWidth := by decide
  explicitMantissaWidth_pos := by decide
  explicitMantissaWidth_le := by decide

/-- `FPInfo<u64>`: double precision. -/
def u64 : FPInfo where
  totalWidth := 64
  exponentWidth := 11
  explicitMantissaWidth := 52
  exponentMin := -1022
  exponentMax := 1023
  exponentBias := 1023
  totalWidth_eq := rfl
  exponentBias_eq := by decide
  exponentMin_eq := by decide
  exponentMax_eq := rfl
  two_le_exponentWidth := by decide
  explicitMantissaWidth_pos := by decide
  explicitMantissaWidth_le := by decide

variable (info : FPInfo)

/-- `mantissa_width`: the explicit bits and the implicit leading one. -/
def mantissaWidth : Nat :=
  info.explicitMantissaWidth + 1

/-- `implicit_leading_bit`. -/
def implicitLeadingBit : BitVec 64 :=
  1 <<< info.explicitMantissaWidth

/-- `sign_mask`. -/
def signMask : BitVec 64 :=
  1 <<< (info.exponentWidth + info.explicitMantissaWidth)

/-- `exponent_mask`. -/
def exponentMask : BitVec 64 :=
  ones 64 info.exponentWidth <<< info.explicitMantissaWidth

/-- `mantissa_mask`. -/
def mantissaMask : BitVec 64 :=
  ones 64 info.explicitMantissaWidth

/-- `mantissa_msb`. -/
def mantissaMsb : BitVec 64 :=
  1 <<< (info.explicitMantissaWidth - 1)

example : u32.signMask = 0x80000000 ∧ u32.exponentMask = 0x7F800000 ∧ u32.mantissaMask = 0x007FFFFF ∧
    u32.mantissaMsb = 0x00400000 := by
  decide

example : u64.exponentMask = 0x7FF0000000000000 ∧ u16.exponentMask = 0x7C00 ∧ u16.mantissaMask = 0x3FF := by
  decide

/-- `Zero(sign)`. -/
def zero (sign : Bool) : BitVec info.totalWidth :=
  (bif sign then info.signMask else 0).setWidth info.totalWidth

/-- `Infinity(sign)`. -/
def infinity (sign : Bool) : BitVec info.totalWidth :=
  (info.exponentMask ||| bif sign then info.signMask else 0).setWidth info.totalWidth

/-- `MaxNormal(sign)`. -/
def maxNormal (sign : Bool) : BitVec info.totalWidth :=
  ((info.exponentMask - 1) ||| bif sign then info.signMask else 0).setWidth info.totalWidth

/-- `DefaultNaN()`. -/
def defaultNaN : BitVec info.totalWidth :=
  (info.exponentMask ||| 1 <<< (info.explicitMantissaWidth - 1)).setWidth info.totalWidth

/-! ### What a bit pattern denotes -/

/-- The sign bit of a pattern. -/
def signOf (x : BitVec info.totalWidth) : Bool :=
  x.getLsbD (info.exponentWidth + info.explicitMantissaWidth)

/-- The biased exponent field of a pattern. -/
def biasedExponentOf (x : BitVec info.totalWidth) : Nat :=
  x.toNat / 2 ^ info.explicitMantissaWidth % 2 ^ info.exponentWidth

/-- The fraction field of a pattern. -/
def fractionOf (x : BitVec info.totalWidth) : Nat :=
  x.toNat % 2 ^ info.explicitMantissaWidth

/-- A pattern is finite when its exponent field is not all ones (with the alternative half-precision format off). -/
def IsFinite (x : BitVec info.totalWidth) : Prop :=
  info.biasedExponentOf x ≠ 2 ^ info.exponentWidth - 1

instance (x : BitVec info.totalWidth) : Decidable (info.IsFinite x) :=
  inferInstanceAs (Decidable (_ ≠ _))

/-- The value of a finite pattern: `±(2 ^ F + fraction) * 2 ^ (exponent - bias - F)` for a normal one, and
`±fraction * 2 ^ (exponent_min - F)` for a subnormal one or a zero. -/
def valueOf (x : BitVec info.totalWidth) : ℚ :=
  (if info.signOf x then -1 else 1) *
    if info.biasedExponentOf x = 0 then
      (info.fractionOf x : ℚ) * 2 ^ (info.exponentMin - info.explicitMantissaWidth)
    else
      ((2 ^ info.explicitMantissaWidth + info.fractionOf x : ℕ) : ℚ) *
        2 ^ ((info.biasedExponentOf x : ℤ) - info.exponentBias - info.explicitMantissaWidth)

/-- The integer significand of a pattern: the fraction, with the implicit leading one of a normal number. -/
def significandOf (x : BitVec info.totalWidth) : ℕ :=
  if info.biasedExponentOf x = 0 then info.fractionOf x else 2 ^ info.explicitMantissaWidth + info.fractionOf x

/-- The weight of the last place of a pattern's significand. -/
def scaleOf (x : BitVec info.totalWidth) : ℤ :=
  if info.biasedExponentOf x = 0 then info.exponentMin - info.explicitMantissaWidth
  else (info.biasedExponentOf x : ℤ) - info.exponentBias - info.explicitMantissaWidth

/-- A finite pattern denotes its signed significand at the weight of its last place. -/
theorem valueOf_eq (x : BitVec info.totalWidth) :
    info.valueOf x = (if info.signOf x then -1 else 1) * (info.significandOf x : ℚ) * 2 ^ info.scaleOf x := by
  rw [valueOf, significandOf, scaleOf, mul_assoc]
  by_cases h : info.biasedExponentOf x = 0
  · simp only [h, if_true]
  · simp only [h, if_false]

/-- The value of a pattern from its sign, significand and weight. -/
theorem valueOf_of_fields {x : BitVec info.totalWidth} {s : Bool} {m : ℕ} {q : ℤ} (hs : info.signOf x = s)
    (hm : info.significandOf x = m) (hq : info.scaleOf x = q) :
    info.valueOf x = (if s then -1 else 1) * (m : ℚ) * 2 ^ q := by
  rw [valueOf_eq, hs, hm, hq]

/-! ### The fields of a pattern -/

/-- The sign bit is the bit above the exponent field, the top bit of the word. -/
theorem signBit_lt_totalWidth : info.exponentWidth + info.explicitMantissaWidth < info.totalWidth := by
  have := info.totalWidth_eq
  omega

/-- A pattern lies below twice the weight of its sign bit. -/
theorem toNat_lt_two_mul_signBit (x : BitVec info.totalWidth) :
    x.toNat < 2 ^ (info.exponentWidth + info.explicitMantissaWidth) * 2 := by
  have hpow : 2 ^ (info.exponentWidth + info.explicitMantissaWidth) * 2 = 2 ^ info.totalWidth := by
    rw [← Nat.pow_succ, info.totalWidth_eq]
  rw [hpow]
  exact x.isLt

/-- The sign of a pattern: whether its number reaches `2 ^ (E + F)`. -/
theorem signOf_eq_decide (x : BitVec info.totalWidth) :
    info.signOf x = decide (2 ^ (info.exponentWidth + info.explicitMantissaWidth) ≤ x.toNat) := by
  have hlt := info.toNat_lt_two_mul_signBit x
  rw [signOf, ← BitVec.testBit_toNat, Nat.testBit_eq_decide_div_mod_eq, decide_eq_decide]
  by_cases h : 2 ^ (info.exponentWidth + info.explicitMantissaWidth) ≤ x.toNat
  · have h1 : x.toNat / 2 ^ (info.exponentWidth + info.explicitMantissaWidth) = 1 := by
      apply le_antisymm
      · exact Nat.lt_succ_iff.mp ((Nat.div_lt_iff_lt_mul (by positivity)).mpr (by omega))
      · exact (Nat.le_div_iff_mul_le (by positivity)).mpr (by omega)
    simp [h1, h]
  · rw [Nat.div_eq_of_lt (by omega)]
    simp [h]

/-- A pattern is its sign, biased exponent and fraction fields put together. -/
theorem toNat_eq_fields (x : BitVec info.totalWidth) :
    x.toNat = (if info.signOf x then 2 ^ (info.exponentWidth + info.explicitMantissaWidth) else 0) +
      info.biasedExponentOf x * 2 ^ info.explicitMantissaWidth + info.fractionOf x := by
  have hlt := info.toNat_lt_two_mul_signBit x
  have hq : x.toNat / 2 ^ info.explicitMantissaWidth =
      x.toNat / 2 ^ (info.exponentWidth + info.explicitMantissaWidth) * 2 ^ info.exponentWidth +
        info.biasedExponentOf x := by
    rw [biasedExponentOf, Nat.pow_add, Nat.mul_comm (2 ^ info.exponentWidth), ← Nat.div_div_eq_div_mul,
      Nat.div_add_mod']
  have hs : x.toNat / 2 ^ (info.exponentWidth + info.explicitMantissaWidth) =
      if info.signOf x then 1 else 0 := by
    rw [signOf_eq_decide]
    by_cases h : 2 ^ (info.exponentWidth + info.explicitMantissaWidth) ≤ x.toNat
    · simp only [h, decide_true, if_true]
      apply le_antisymm
      · exact Nat.lt_succ_iff.mp ((Nat.div_lt_iff_lt_mul (by positivity)).mpr (by omega))
      · exact (Nat.le_div_iff_mul_le (by positivity)).mpr (by omega)
    · simp only [h, decide_false]
      exact Nat.div_eq_of_lt (by omega)
  calc x.toNat = x.toNat / 2 ^ info.explicitMantissaWidth * 2 ^ info.explicitMantissaWidth + info.fractionOf x :=
        (Nat.div_add_mod' _ _).symm
    _ = _ := by
      rw [hq, hs, Nat.pow_add]
      split <;> ring

/-- Two patterns with the same fields are equal. -/
theorem eq_of_fields {x y : BitVec info.totalWidth} (hs : info.signOf x = info.signOf y)
    (he : info.biasedExponentOf x = info.biasedExponentOf y) (hf : info.fractionOf x = info.fractionOf y) : x = y := by
  apply BitVec.eq_of_toNat_eq
  rw [toNat_eq_fields, toNat_eq_fields, hs, he, hf]

end FPInfo

/-- `RoundingMode`. The first four are the encodings of `FPCR.RMode`. -/
inductive RoundingMode
  | toNearestTieEven
  | towardsPlusInfinity
  | towardsMinusInfinity
  | towardsZero
  | toNearestTieAwayFromZero
  | toOdd
  deriving DecidableEq, Repr

/-! ### Control and status -/

/-- `FPCR`, as the value it holds. -/
structure FPCR where
  value : BitVec 32
  deriving DecidableEq, Repr

namespace FPCR

/-- The bits `FPCR` keeps. -/
def mask : BitVec 32 := 0x07FF9F00

/-- `FPCR(u32 data)`. -/
def ofValue (data : BitVec 32) : FPCR :=
  ⟨data &&& mask⟩

/-- `AHP()`: the alternative half-precision format. -/
def ahp (fpcr : FPCR) : Bool := getBit 26 fpcr.value

/-- `AHP(bool)`. -/
def setAHP (fpcr : FPCR) (ahp : Bool) : FPCR := ⟨setBit 26 fpcr.value ahp⟩

/-- `DN()`: default NaN. -/
def dn (fpcr : FPCR) : Bool := getBit 25 fpcr.value

/-- `FZ()`: flush to zero. -/
def fz (fpcr : FPCR) : Bool := getBit 24 fpcr.value

/-- `RMode()`: bits 22 and 23, as the first four rounding modes. -/
def rMode (fpcr : FPCR) : RoundingMode :=
  match (getBits 22 23 fpcr.value).toNat with
  | 0 => .toNearestTieEven
  | 1 => .towardsPlusInfinity
  | 2 => .towardsMinusInfinity
  | _ => .towardsZero

/-- `FZ16()`: flush to zero for half precision. -/
def fz16 (fpcr : FPCR) : Bool := getBit 19 fpcr.value

/-- `FZ16(bool)`. -/
def setFZ16 (fpcr : FPCR) (fz16 : Bool) : FPCR := ⟨setBit 19 fpcr.value fz16⟩

/-- `UFE()`: the underflow trap enable. -/
def ufe (fpcr : FPCR) : Bool := getBit 11 fpcr.value

/-- Setting `AHP` leaves the other control bits the FP routines read. -/
theorem fz_setAHP (fpcr : FPCR) (ahp : Bool) : (fpcr.setAHP ahp).fz = fpcr.fz :=
  getBit_setBit_of_ne _ _ (by decide) (by decide) (by decide)

/-- Setting AHP leaves FZ16. -/
theorem fz16_setAHP (fpcr : FPCR) (ahp : Bool) : (fpcr.setAHP ahp).fz16 = fpcr.fz16 :=
  getBit_setBit_of_ne _ _ (by decide) (by decide) (by decide)

/-- Setting AHP leaves UFE. -/
theorem ufe_setAHP (fpcr : FPCR) (ahp : Bool) : (fpcr.setAHP ahp).ufe = fpcr.ufe :=
  getBit_setBit_of_ne _ _ (by decide) (by decide) (by decide)

end FPCR

/-- `FPSR`, as the value it holds. -/
structure FPSR where
  value : BitVec 32
  deriving DecidableEq, Repr

namespace FPSR

/-- `IOC()`: invalid operation. -/
def ioc (fpsr : FPSR) : Bool := getBit 0 fpsr.value

/-- `OFC()`: overflow. -/
def ofc (fpsr : FPSR) : Bool := getBit 2 fpsr.value

/-- `UFC()`: underflow. -/
def ufc (fpsr : FPSR) : Bool := getBit 3 fpsr.value

/-- `UFC(bool)`. -/
def setUFC (fpsr : FPSR) (ufc : Bool) : FPSR := ⟨setBit 3 fpsr.value ufc⟩

/-- `IXC()`: inexact. -/
def ixc (fpsr : FPSR) : Bool := getBit 4 fpsr.value

end FPSR

/-- `FPExc`. -/
inductive FPExc
  | invalidOp
  | divideByZero
  | overflow
  | underflow
  | inexact
  | inputDenorm
  deriving DecidableEq, Repr

namespace FPExc

/-- The trap-enable bit of `FPCR` each exception checks: `IOE`, `DZE`, `OFE`, `UFE`, `IXE`, `IDE`. -/
def enableBit : FPExc → Nat
  | .invalidOp => 8
  | .divideByZero => 9
  | .overflow => 10
  | .underflow => 11
  | .inexact => 12
  | .inputDenorm => 15

/-- The cumulative bit of `FPSR` each exception sets: `IOC`, `DZC`, `OFC`, `UFC`, `IXC`, `IDC`. -/
def cumulativeBit : FPExc → Nat
  | .invalidOp => 0
  | .divideByZero => 1
  | .overflow => 2
  | .underflow => 3
  | .inexact => 4
  | .inputDenorm => 7

end FPExc

/-- `FPProcessException`: every case of the switch stops with `ASSERT_FALSE` when the exception's trap is enabled, and
otherwise sets the exception's cumulative bit. -/
def fpProcessException (exception : FPExc) (fpcr : FPCR) (fpsr : FPSR) : Option FPSR :=
  if getBit exception.enableBit fpcr.value then none else some ⟨setBit exception.cumulativeBit fpsr.value true⟩

/-! ### Unpacked numbers -/

/-- `FPType`. -/
inductive FPType
  | nonzero
  | zero
  | infinity
  | qNaN
  | sNaN
  deriving DecidableEq, Repr

/-- `normalized_point_position`: the binary point of an unpacked mantissa sits below bit 62. -/
def normalizedPointPosition : Nat := 62

/-- `FPUnpacked`: the number `(sign ? -1 : +1) * mantissa / 2 ^ 62 * 2 ^ exponent`. The C++ `int` exponent stays far
inside its range in every routine, and is an integer here. -/
structure FPUnpacked where
  sign : Bool
  exponent : Int
  mantissa : BitVec 64
  deriving DecidableEq, Repr

/-- The number an `FPUnpacked` denotes. -/
def FPUnpacked.value (op : FPUnpacked) : ℚ :=
  (if op.sign then -1 else 1) * (op.mantissa.toNat : ℚ) * 2 ^ (op.exponent - normalizedPointPosition)

/-! ### Rounding a rational number to an integer -/

/-- The integer a rounding mode takes a rational number to. The ties of the two nearest modes are the halves; to-odd
keeps an exact integer and otherwise takes the odd one of the two neighbours. -/
def RoundingMode.roundToIntegral (rounding : RoundingMode) (x : ℚ) : ℤ :=
  match rounding with
  | .toNearestTieEven =>
    if Int.fract x < 1 / 2 then ⌊x⌋ else if 1 / 2 < Int.fract x then ⌊x⌋ + 1
    else if Even ⌊x⌋ then ⌊x⌋ else ⌊x⌋ + 1
  | .towardsPlusInfinity => ⌈x⌉
  | .towardsMinusInfinity => ⌊x⌋
  | .towardsZero => if x < 0 then ⌈x⌉ else ⌊x⌋
  | .toNearestTieAwayFromZero =>
    if Int.fract x < 1 / 2 then ⌊x⌋ else if 1 / 2 < Int.fract x then ⌊x⌋ + 1
    else if x < 0 then ⌊x⌋ else ⌊x⌋ + 1
  | .toOdd => if Int.fract x = 0 ∨ Odd ⌊x⌋ then ⌊x⌋ else ⌊x⌋ + 1

end Dynarmic.FP
