import Dynarmic.Common.FP.Unpacked

/-!
# `FPUnpack` is exact and `FPRound` inverts it

`FPUnpackBase` of a finite nonzero pattern returns a number whose highest bit is bit 62 and whose value is the pattern's
(`fpUnpackBase_of_finite`). `FPRoundBase` of any number that equals the value of a finite nonzero pattern returns that
pattern and leaves the status alone (`fpRoundBase_of_value_eq`): the normalisation it does drops no set bit, so no
rounding mode moves the result. The two give the round trip of `FPUnpack` and `FPRound`, for every format.

The round trip needs two conditions the C++ does not check for itself. `FPRoundBase` stops at
`ASSERT(rounding != RoundingMode::ToNearest_TieAwayFromZero)`, and for a subnormal result it raises `Underflow` when the
trap `UFE` is enabled even if nothing was lost, which stops in `FPProcessException`.
-/

namespace Dynarmic.FP

open Mcl.Bit

namespace FPInfo

variable (info : FPInfo)

/-- The sign bit `FPUnpackBase` reads. -/
theorem getBit_signBit (x : BitVec info.totalWidth) :
    getBit (info.exponentWidth + info.explicitMantissaWidth) x = info.signOf x :=
  getBit_eq x info.signBit_lt_totalWidth

/-- The exponent field `FPUnpackBase` reads. -/
theorem toNat_getBits_exponent (x : BitVec info.totalWidth) :
    (getBits info.explicitMantissaWidth (info.exponentWidth + info.explicitMantissaWidth - 1) x).toNat =
      info.biasedExponentOf x := by
  have hE := info.two_le_exponentWidth
  have hW := info.totalWidth_eq
  rw [toNat_getBits x (by omega) (by omega), biasedExponentOf]
  congr 2
  omega

/-- The fraction field `FPUnpackBase` reads. -/
theorem toNat_getBits_fraction (x : BitVec info.totalWidth) :
    (getBits 0 (info.explicitMantissaWidth - 1) x).toNat = info.fractionOf x := by
  have hF := info.explicitMantissaWidth_pos
  have hW := info.totalWidth_eq
  rw [toNat_getBits x (by omega) (by omega), Nat.pow_zero, Nat.div_one, fractionOf]
  congr 2
  omega

/-- The fraction field fits its width. -/
theorem fractionOf_lt (x : BitVec info.totalWidth) : info.fractionOf x < 2 ^ info.explicitMantissaWidth :=
  Nat.mod_lt _ (by positivity)

/-- The biased exponent field fits its width. -/
theorem biasedExponentOf_lt (x : BitVec info.totalWidth) : info.biasedExponentOf x < 2 ^ info.exponentWidth :=
  Nat.mod_lt _ (by positivity)

/-- A pattern has value zero exactly when its significand is zero. -/
theorem valueOf_eq_zero_iff (x : BitVec info.totalWidth) : info.valueOf x = 0 ↔ info.significandOf x = 0 := by
  have hs : (if info.signOf x then (-1 : ℚ) else 1) ≠ 0 := by
    split <;> norm_num
  have hq : (2 : ℚ) ^ info.scaleOf x ≠ 0 := zpow_ne_zero _ two_ne_zero
  rw [valueOf_eq, mul_assoc, mul_eq_zero, mul_eq_zero]
  simp only [hs, hq, false_or, or_false, Nat.cast_eq_zero]

/-- A nonzero value has a nonzero significand. -/
theorem significandOf_ne_zero {x : BitVec info.totalWidth} (h : info.valueOf x ≠ 0) : info.significandOf x ≠ 0 :=
  fun h0 => h ((info.valueOf_eq_zero_iff x).mpr h0)

/-- The significand of a normal pattern has its leading one at bit `F`. -/
theorem log2_significandOf_normal {x : BitVec info.totalWidth} (he : info.biasedExponentOf x ≠ 0) :
    (info.significandOf x).log2 = info.explicitMantissaWidth := by
  have hf := info.fractionOf_lt x
  rw [significandOf, if_neg he, Nat.log2_eq_iff (by positivity)]
  constructor
  · omega
  · rw [Nat.pow_succ]
    omega

/-- The significand of a subnormal pattern lies below bit `F`. -/
theorem log2_significandOf_subnormal {x : BitVec info.totalWidth} (he : info.biasedExponentOf x = 0)
    (hnz : info.significandOf x ≠ 0) : (info.significandOf x).log2 < info.explicitMantissaWidth := by
  rw [Nat.log2_lt hnz, significandOf, if_pos he]
  exact info.fractionOf_lt x

/-- The fraction is the significand without its implicit bit. -/
theorem fractionOf_eq_significandOf_mod (x : BitVec info.totalWidth) :
    info.fractionOf x = info.significandOf x % 2 ^ info.explicitMantissaWidth := by
  have hf := info.fractionOf_lt x
  rw [significandOf]
  split
  · rw [Nat.mod_eq_of_lt hf]
  · rw [Nat.add_mod_left, Nat.mod_eq_of_lt hf]

/-- A significand has at most 53 bits. -/
theorem significandOf_lt (x : BitVec info.totalWidth) : info.significandOf x < 2 ^ 63 := by
  have hf := info.fractionOf_lt x
  have hF : 2 ^ info.explicitMantissaWidth * 2 ≤ 2 ^ 63 := by
    rw [← Nat.pow_succ]
    exact Nat.pow_le_pow_right (by decide) (by have := info.explicitMantissaWidth_le; omega)
  rw [significandOf]
  split <;> omega

/-- The significand fits in 64 bits. -/
theorem toNat_ofNat_significandOf (x : BitVec info.totalWidth) :
    (BitVec.ofNat 64 (info.significandOf x)).toNat = info.significandOf x := by
  have := info.significandOf_lt x
  rw [BitVec.toNat_ofNat, Nat.mod_eq_of_lt (by omega)]

/-- The implicit leading bit sits just above the fraction. -/
theorem toNat_implicitLeadingBit : info.implicitLeadingBit.toNat = 2 ^ info.explicitMantissaWidth := by
  have hF := info.explicitMantissaWidth_le
  show (BitVec.ofNat 64 (1 <<< info.explicitMantissaWidth)).toNat = _
  rw [BitVec.toNat_ofNat, Nat.one_shiftLeft,
    Nat.mod_eq_of_lt (Nat.pow_lt_pow_right (by decide) (by omega))]

/-- Setting the implicit bit above a fraction adds its weight. -/
theorem ofNat_or_implicitLeadingBit {f : Nat} (hf : f < 2 ^ info.explicitMantissaWidth) :
    BitVec.ofNat 64 f ||| info.implicitLeadingBit = BitVec.ofNat 64 (2 ^ info.explicitMantissaWidth + f) := by
  have hF : 2 ^ info.explicitMantissaWidth * 2 ≤ 2 ^ 64 := by
    rw [← Nat.pow_succ]
    exact Nat.pow_le_pow_right (by decide) (by have := info.explicitMantissaWidth_le; omega)
  have hor := Nat.two_pow_add_eq_or_of_lt hf 1
  rw [Nat.mul_one] at hor
  apply BitVec.eq_of_toNat_eq
  rw [BitVec.toNat_or, toNat_implicitLeadingBit, BitVec.toNat_ofNat, BitVec.toNat_ofNat, Nat.mod_eq_of_lt (by omega),
    Nat.mod_eq_of_lt (by omega), Nat.or_comm, ← hor]

end FPInfo

/-! ### Unpacking -/

/-- `FPUnpackBase` of a finite pattern of nonzero value: a nonzero number, `ToNormalized` of the pattern's significand at
the weight of its last place, with the status unchanged. Only a subnormal pattern reads the flush-to-zero bit. -/
theorem fpUnpackBase_of_finite (info : FPInfo) {x : BitVec info.totalWidth} (hfin : info.IsFinite x)
    (hnz : info.valueOf x ≠ 0) (fpcr : FPCR) (hfz : info.biasedExponentOf x = 0 → info.flushToZero fpcr = false)
    (fpsr : FPSR) :
    fpUnpackBase info x fpcr fpsr = some ((.nonzero, info.signOf x,
      toNormalized (info.signOf x) (info.scaleOf x) (BitVec.ofNat 64 (info.significandOf x))), fpsr) := by
  have hF := info.explicitMantissaWidth_le
  have hW := info.totalWidth_eq
  have hf := info.fractionOf_lt x
  have hfrac : (getBits 0 (info.explicitMantissaWidth - 1) x).setWidth 64 =
      BitVec.ofNat 64 (info.fractionOf x) := by
    apply BitVec.eq_of_toNat_eq
    rw [BitVec.toNat_setWidth, info.toNat_getBits_fraction, BitVec.toNat_ofNat]
  have hexp0 : getBits info.explicitMantissaWidth (info.exponentWidth + info.explicitMantissaWidth - 1) x = 0 ↔
      info.biasedExponentOf x = 0 := by
    rw [← BitVec.toNat_inj, info.toNat_getBits_exponent]
    simp
  by_cases he : info.biasedExponentOf x = 0
  · -- a subnormal pattern: `ToNormalized` of the fraction at `exponent_min - F`
    have hf0 : getBits 0 (info.explicitMantissaWidth - 1) x ≠ 0 := by
      have hsig := info.significandOf_ne_zero hnz
      rw [FPInfo.significandOf, if_pos he] at hsig
      rwa [ne_eq, ← BitVec.toNat_inj, info.toNat_getBits_fraction]
    have hflush := hfz he
    unfold FPInfo.flushToZero at hflush
    simp only [fpUnpackBase, info.getBit_signBit, hexp0.mpr he, if_true, hf0, false_or, hfrac, FPInfo.scaleOf,
      FPInfo.significandOf, if_pos he]
    by_cases h16 : info.totalWidth = 16
    · simp only [h16, decide_true, Bool.not_true, Bool.false_and, Bool.true_and, Bool.false_or] at hflush
      simp [h16, hflush]
    · simp only [h16, decide_false, Bool.not_false, Bool.true_and, Bool.false_and, Bool.or_false] at hflush
      simp [h16, hflush]
  · -- a normal pattern: the fraction with its leading one, at the unbiased exponent
    have hall : getBits info.explicitMantissaWidth (info.exponentWidth + info.explicitMantissaWidth - 1) x ≠
        ones info.totalWidth info.exponentWidth := by
      intro h
      have := congrArg BitVec.toNat h
      rw [info.toNat_getBits_exponent, toNat_ones (by omega)] at this
      exact hfin this
    have h64 := info.toNat_ofNat_significandOf x
    have hpos : 0 < info.significandOf x := by
      rw [FPInfo.significandOf, if_neg he]
      positivity
    have hsig : BitVec.ofNat 64 (info.significandOf x) ≠ 0 := by
      intro h
      rw [h] at h64
      simp at h64
      omega
    have hlt : (BitVec.ofNat 64 (info.significandOf x)).toNat < 2 ^ 63 := by
      rw [h64]
      exact info.significandOf_lt x
    rw [toNormalized_eq _ _ hsig hlt, h64, info.log2_significandOf_normal he]
    simp only [fpUnpackBase, info.getBit_signBit, (not_congr hexp0).mpr he, if_false, hall, decide_false,
      Bool.false_and, Bool.or_false, Bool.false_eq_true, hfrac, info.ofNat_or_implicitLeadingBit hf, info.toNat_getBits_exponent,
      normalizedPointPosition, FPInfo.scaleOf, if_neg he, FPInfo.significandOf]
    rw [sub_add_cancel]

/-- The number `FPUnpackBase` makes of a finite pattern of nonzero value. -/
def FPInfo.unpackedOf (info : FPInfo) (x : BitVec info.totalWidth) : FPUnpacked :=
  toNormalized (info.signOf x) (info.scaleOf x) (BitVec.ofNat 64 (info.significandOf x))

/-- The unpacked number has the pattern's sign and value, and its highest bit on bit 62. -/
theorem FPInfo.unpackedOf_spec (info : FPInfo) {x : BitVec info.totalWidth} (hnz : info.valueOf x ≠ 0) :
    (info.unpackedOf x).sign = info.signOf x ∧ (info.unpackedOf x).mantissa.toNat.log2 = 62 ∧
      (info.unpackedOf x).value = info.valueOf x := by
  have h64 := info.toNat_ofNat_significandOf x
  have hlt : (BitVec.ofNat 64 (info.significandOf x)).toNat < 2 ^ 63 := by
    rw [h64]
    exact info.significandOf_lt x
  have hv0 : BitVec.ofNat 64 (info.significandOf x) ≠ 0 := by
    intro h
    rw [h] at h64
    simp only [BitVec.ofNat_eq_ofNat, BitVec.toNat_ofNat, Nat.zero_mod] at h64
    exact info.significandOf_ne_zero hnz h64.symm
  obtain ⟨hlog, hval⟩ := toNormalized_spec (info.signOf x) (info.scaleOf x) hv0 hlt
  refine ⟨by rw [unpackedOf, toNormalized_eq _ _ hv0 hlt], hlog, ?_⟩
  rw [unpackedOf, hval, h64, info.valueOf_eq]

/-! ### Rounding back -/

/-- `FPRoundBase` of a number equal to the value of a finite pattern of nonzero value returns the pattern and leaves the
status alone, in every rounding mode it accepts. Flush-to-zero and the underflow trap matter only for a subnormal
pattern. -/
theorem fpRoundBase_of_value_eq (info : FPInfo) {op : FPUnpacked} {x : BitVec info.totalWidth} (fpcr : FPCR)
    {rounding : RoundingMode} (fpsr : FPSR) (hlt : op.mantissa.toNat < 2 ^ 63) (hfin : info.IsFinite x)
    (hnz : info.valueOf x ≠ 0) (hv : op.value = info.valueOf x) (hr : rounding ≠ .toNearestTieAwayFromZero)
    (hsub : info.biasedExponentOf x = 0 → info.flushToZero fpcr = false ∧ fpcr.ufe = false) :
    fpRoundBase info op fpcr rounding fpsr = some (x, fpsr) := by
  have hM0 := info.significandOf_ne_zero hnz
  have hM64 := info.toNat_ofNat_significandOf x
  have hbE := info.biasedExponentOf_lt x
  have hmin := info.exponentMin_eq
  have h2 : ((2 ^ info.exponentWidth : ℕ) : ℤ) = 2 ^ info.exponentWidth := by push_cast; rfl
  have hE4 : 4 ≤ 2 ^ info.exponentWidth := by
    calc 4 = 2 ^ 2 := rfl
      _ ≤ 2 ^ info.exponentWidth := Nat.pow_le_pow_right (by decide) info.two_le_exponentWidth
  have hm0 : op.mantissa.toNat ≠ 0 := by
    intro h0
    apply hnz
    rw [← hv, FPUnpacked.value, h0]
    simp
  have hm : op.mantissa ≠ 0 := fun h => hm0 (by rw [h]; rfl)
  -- the number has the pattern's sign, and its magnitude is the significand at another weight
  obtain ⟨hsign, hmag⟩ : op.sign = info.signOf x ∧ (op.mantissa.toNat : ℚ) * 2 ^ (op.exponent - normalizedPointPosition) =
      (BitVec.ofNat 64 (info.significandOf x)).toNat * 2 ^ info.scaleOf x := by
    rw [FPUnpacked.value, info.valueOf_eq, mul_assoc, mul_assoc] at hv
    rw [hM64]
    exact (Dyadic.signed_eq_iff (by positivity) (by positivity)).mp hv
  have hlog := Dyadic.log2_add_eq_of_eq hm0 (by rwa [hM64]) hmag
  rw [hM64] at hlog
  obtain ⟨hshift, herr⟩ := shift_exact hlt (by rwa [hM64]) hmag
  have hpack : packResult info op.sign (info.biasedExponentOf x) (BitVec.ofNat 64 (info.significandOf x)) = x :=
    packResult_eq_of_fields info (by positivity) hsign.symm rfl (by rw [hM64, info.fractionOf_eq_significandOf_mod])
  by_cases he : info.biasedExponentOf x = 0
  · -- subnormal: the second normalisation shifts down to `exponent_min`
    obtain ⟨hfz, hufe⟩ := hsub he
    have hlogM := info.log2_significandOf_subnormal he hM0
    have hq : info.scaleOf x = info.exponentMin - info.explicitMantissaWidth := by
      rw [FPInfo.scaleOf, if_pos he]
    have hb : max (op.exponent + op.mantissa.toNat.log2 - normalizedPointPosition - info.exponentMin + 1) 0 = 0 := by
      omega
    have hs : (op.mantissa.toNat.log2 : Int) - info.explicitMantissaWidth +
        (info.exponentMin - (op.exponent + op.mantissa.toNat.log2 - normalizedPointPosition)) =
        info.scaleOf x - (op.exponent - normalizedPointPosition) := by
      omega
    rw [fpRoundBase_of_exact hm hr (normalize_eq hm 0) hb (if_pos rfl) (by rw [hfz, Bool.false_and])
      (by simp only [normalize_eq hm, hs]; exact herr) (by omega) (fun _ => hufe)]
    rw [he, Nat.cast_zero] at hpack
    simp only [normalize_eq hm, hs, hshift, hpack]
  · -- normal: the first normalisation is the one rounded
    have hlogM := info.log2_significandOf_normal he
    have hq : info.scaleOf x = (info.biasedExponentOf x : Int) - info.exponentBias - info.explicitMantissaWidth := by
      rw [FPInfo.scaleOf, if_neg he]
    have hb : max (op.exponent + op.mantissa.toNat.log2 - normalizedPointPosition - info.exponentMin + 1) 0 =
        info.biasedExponentOf x := by
      omega
    have hfin' : info.biasedExponentOf x ≠ 2 ^ info.exponentWidth - 1 := hfin
    have hs : (op.mantissa.toNat.log2 : Int) - info.explicitMantissaWidth + 0 =
        info.scaleOf x - (op.exponent - normalizedPointPosition) := by
      omega
    rw [fpRoundBase_of_exact hm hr (normalize_eq hm 0) hb (if_neg (by omega))
      (by simp only [Bool.and_eq_false_iff, decide_eq_false_iff_not]; right; omega)
      (by simp only [hs]; exact herr) (by omega) (fun h => absurd h (by omega))]
    simp only [hs, hshift, hpack]

/-! ### The round trip -/

/-- `FPUnpack` and `FPRound` in turn, for every format: with flush-to-zero off, a finite pattern of nonzero value
unpacks to a nonzero number whose highest bit is bit 62 and whose value is the pattern's, and `FPRound` of that number
gives the pattern back with the status unchanged, in every rounding mode but ties-away, when the underflow trap is off
for a subnormal pattern. -/
theorem fpUnpack_round_trip (info : FPInfo) {x : BitVec info.totalWidth} (hfin : info.IsFinite x)
    (hnz : info.valueOf x ≠ 0) (fpcr : FPCR) (hfz : fpcr.fz = false) (hfz16 : fpcr.fz16 = false) (fpsr : FPSR) :
    ∃ u : FPUnpacked, fpUnpackBase info x fpcr fpsr = some ((.nonzero, info.signOf x, u), fpsr) ∧
      u.mantissa.toNat.log2 = 62 ∧ u.value = info.valueOf x ∧
      ∀ rounding : RoundingMode, rounding ≠ .toNearestTieAwayFromZero →
        (info.biasedExponentOf x = 0 → fpcr.ufe = false) → fpRound info u fpcr rounding fpsr = some (x, fpsr) := by
  have hflush : info.flushToZero fpcr = false := by
    simp [FPInfo.flushToZero, hfz, hfz16]
  -- `FPRound` turns `AHP` off, which the flush-to-zero bits do not depend on
  have hflush' : info.flushToZero (fpcr.setAHP false) = false := by
    rw [FPInfo.flushToZero, FPCR.fz_setAHP, FPCR.fz16_setAHP, ← FPInfo.flushToZero, hflush]
  obtain ⟨-, hlog, hval⟩ := info.unpackedOf_spec hnz
  refine ⟨info.unpackedOf x, fpUnpackBase_of_finite info hfin hnz fpcr (fun _ => hflush) fpsr, hlog, hval, ?_⟩
  intro rounding hr hufe
  have hlt : (info.unpackedOf x).mantissa.toNat < 2 ^ 63 := by
    have := Nat.lt_log2_self (n := (info.unpackedOf x).mantissa.toNat)
    rwa [hlog] at this
  exact fpRoundBase_of_value_eq info (fpcr.setAHP false) fpsr hlt hfin hnz hval hr
    (fun he => ⟨hflush', by rw [FPCR.ufe_setAHP]; exact hufe he⟩)

/-- 1.0 in single precision unpacks to a normalised mantissa of the same value and rounds back to itself in every
rounding mode but ties-away. -/
theorem fpUnpack_round_trip_one :
    ∃ u : FPUnpacked, fpUnpackBase .u32 0x3F800000 ⟨0⟩ ⟨0⟩ = some ((.nonzero, FPInfo.u32.signOf 0x3F800000, u), ⟨0⟩) ∧
      u.mantissa.toNat.log2 = 62 ∧ u.value = FPInfo.u32.valueOf 0x3F800000 ∧
      ∀ rounding : RoundingMode, rounding ≠ .toNearestTieAwayFromZero →
        (FPInfo.u32.biasedExponentOf 0x3F800000 = 0 → (⟨0⟩ : FPCR).ufe = false) →
          fpRound .u32 u ⟨0⟩ rounding ⟨0⟩ = some (0x3F800000, ⟨0⟩) :=
  fpUnpack_round_trip .u32 (by decide) (by rw [ne_eq, FPInfo.valueOf_eq_zero_iff]; decide) ⟨0⟩ (by decide) (by decide)
    ⟨0⟩

/-- Where the round trip stops: `FPRound` of the unpacked `1.0f` in ties-away mode hits the `ASSERT`, and with the
underflow trap `UFE` enabled the smallest subnormal raises `Underflow` although it is exact. -/
theorem fpUnpack_round_trip_stops :
    ((fpUnpackBase .u32 0x3F800000 ⟨0⟩ ⟨0⟩).bind fun r =>
      fpRound .u32 r.1.2.2 ⟨0⟩ .toNearestTieAwayFromZero r.2) = none ∧
    ((fpUnpackBase .u32 0x00000001 ⟨0x800⟩ ⟨0⟩).bind fun r =>
      fpRound .u32 r.1.2.2 ⟨0x800⟩ .toNearestTieEven r.2) = none := by
  decide

end Dynarmic.FP
