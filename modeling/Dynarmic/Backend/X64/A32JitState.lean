import Dynarmic.Frontend.A32.LocationDescriptor

/-!
# The x64 A32 JIT state

`A32JitState` (`backend/x64/a32_jitstate.{h,cpp}`) does not keep the guest CPSR and FPSCR as they are architecturally laid
out. The NZCV flags are kept in the layout `lahf`/`seto` produce (`nzcv_util.h`), the GE flags one byte per flag, and the
bits that decide how a block is translated (T, E, the IT state, the FPSCR mode bits) are packed into
`upper_location_descriptor`, the upper word of the block hash that `GetUniqueHash` forms with the PC. `Cpsr`/`SetCpsr` and
`Fpscr`/`SetFpscr` translate between the two layouts.

The result here is that the two packings agree: after `SetCpsr(c)`, `SetFpscr(f)` and a write of `pc` to R15 the JIT state's
hash is the `UniqueHash` of `LocationDescriptor(pc, PSR{c}, FPSCR{f})`, `Cpsr()` gives `c` back with the reserved bits 20-23
clear, and `Fpscr()` gives back the mode bits of `f`.
-/

namespace Dynarmic
namespace Backend.X64

open Mcl.Bit A32

/-! ## `NZCV::ToX64` and `NZCV::FromX64` -/

namespace NZCV

/-- `NZCV::ToX64`: the four ARM flags multiplied into the positions of SF, ZF, CF and OF. -/
def toX64 (nzcv : BitVec 32) : BitVec 32 := ((nzcv >>> 28) * 0x1081#32) &&& 0xC101#32

/-- `NZCV::FromX64`: the four x64 flags multiplied back into bits 28-31. -/
def fromX64 (x64Flags : BitVec 32) : BitVec 32 := ((x64Flags &&& 0xC101#32) * 0x10210000#32) &&& 0xF0000000#32

/-- The two multiplications invert each other on the sixteen flag combinations. -/
theorem fromX64_mul_small : ∀ k < 16, fromX64 ((BitVec.ofNat 32 k * 0x1081#32) &&& 0xC101#32) = BitVec.ofNat 32 k <<< 28 := by
  unfold fromX64
  decide

/-- A round trip through the x64 layout keeps exactly the flags, bits 28-31. -/
theorem fromX64_toX64 (c : BitVec 32) : fromX64 (toX64 c) = c &&& 0xF0000000#32 := by
  have hk : (c >>> 28).toNat < 16 := by
    rw [BitVec.toNat_ushiftRight, Nat.shiftRight_eq_div_pow]
    have := c.isLt
    omega
  have h := fromX64_mul_small _ hk
  rw [BitVec.ofNat_toNat, BitVec.setWidth_eq] at h
  rw [toX64, h]
  apply BitVec.eq_of_getLsbD_eq
  intro i hi
  simp only [BitVec.getLsbD_shiftLeft, BitVec.getLsbD_ushiftRight, BitVec.getLsbD_and, BitVec.getLsbD_ofNat]
  interval_cases i <;> simp [Nat.testBit]

end NZCV

/-! ## The state -/

/-- The fields of `A32JitState` that `Cpsr`, `SetCpsr`, `Fpscr`, `SetFpscr` and `GetUniqueHash` read or write. -/
structure A32JitState where
  reg : Fin 16 → BitVec 32
  upperLocationDescriptor : BitVec 32
  cpsrGe : BitVec 32
  cpsrQ : BitVec 32
  cpsrNzcv : BitVec 32
  cpsrJaifm : BitVec 32
  guestMxcsr : BitVec 32
  asimdMxcsr : BitVec 32
  fpsrExc : BitVec 32
  fpsrQc : BitVec 32
  fpsrNzcv : BitVec 32

namespace A32JitState

/-- `Reg[n] = value`. -/
def setReg (s : A32JitState) (n : Fin 16) (value : BitVec 32) : A32JitState :=
  { s with reg := Function.update s.reg n value }

/-- `A32JitState::Cpsr`: the architectural CPSR rebuilt from the split fields. -/
def cpsr (s : A32JitState) : BitVec 32 :=
  NZCV.fromX64 s.cpsrNzcv |||
  (bif s.cpsrQ != 0 then 1#32 <<< 27 else 0) |||
  (bif getBit 31 s.cpsrGe then 1#32 <<< 19 else 0) |||
  (bif getBit 23 s.cpsrGe then 1#32 <<< 18 else 0) |||
  (bif getBit 15 s.cpsrGe then 1#32 <<< 17 else 0) |||
  (bif getBit 7 s.cpsrGe then 1#32 <<< 16 else 0) |||
  (bif getBit 1 s.upperLocationDescriptor then 1#32 <<< 9 else 0) |||
  (bif getBit 0 s.upperLocationDescriptor then 1#32 <<< 5 else 0) |||
  (s.upperLocationDescriptor &&& 0b11111100_00000000#32) |||
  ((s.upperLocationDescriptor &&& 0b00000011_00000000#32) <<< 17) |||
  s.cpsrJaifm

/-- `A32JitState::SetCpsr`: the CPSR split into its fields; the FPSCR half of `upper_location_descriptor` is kept. -/
def setCpsr (s : A32JitState) (cpsr : BitVec 32) : A32JitState :=
  let upper := s.upperLocationDescriptor &&& 0xFFFF0000#32
  let upper := upper ||| (bif getBit 9 cpsr then 2#32 else 0)
  let upper := upper ||| (bif getBit 5 cpsr then 1#32 else 0)
  let upper := upper ||| ((cpsr >>> 0) &&& 0b11111100_00000000#32)
  let upper := upper ||| ((cpsr >>> 17) &&& 0b00000011_00000000#32)
  { s with
    cpsrNzcv := NZCV.toX64 cpsr
    cpsrQ := bif getBit 27 cpsr then 1#32 else 0
    cpsrGe := (bif getBit 19 cpsr then 0xFF000000#32 else 0) ||| (bif getBit 18 cpsr then 0x00FF0000#32 else 0) |||
      (bif getBit 17 cpsr then 0x0000FF00#32 else 0) ||| (bif getBit 16 cpsr then 0x000000FF#32 else 0)
    upperLocationDescriptor := upper
    cpsrJaifm := cpsr &&& 0x010001DF#32 }

/-- `FPSCR_NZCV_MASK`. -/
def fpscrNzcvMask : BitVec 32 := 0xF0000000#32

/-- `A32JitState::Fpscr`: the mode bits from `upper_location_descriptor`, the flags and cumulative bits from their fields and
from the two MXCSRs. -/
def fpscr (s : A32JitState) : BitVec 32 :=
  let fpcrMode := s.upperLocationDescriptor &&& fpscrModeMask
  let mxcsr := s.guestMxcsr ||| s.asimdMxcsr
  fpcrMode ||| s.fpsrNzcv ||| (mxcsr &&& 0b0000000000001#32) ||| ((mxcsr &&& 0b0000000111100#32) >>> 1) |||
    s.fpsrExc ||| (bif s.fpsrQc != 0 then 1#32 <<< 27 else 0)

/-- `MXCSR_RMode`: the MXCSR rounding field for each FPSCR rounding mode. -/
def mxcsrRMode : List (BitVec 32) := [0x0#32, 0x4000#32, 0x2000#32, 0x6000#32]

/-- `A32JitState::SetFpscr`: the mode bits into the upper half of `upper_location_descriptor`, the rest into the flag fields
and the two MXCSRs. -/
def setFpscr (s : A32JitState) (fpscr : BitVec 32) : A32JitState :=
  let guest := 0x00001f80#32 ||| mxcsrRMode.getD ((fpscr >>> 22) &&& 0x3#32).toNat 0
  { s with
    upperLocationDescriptor := (s.upperLocationDescriptor &&& 0x0000FFFF#32) ||| (fpscr &&& fpscrModeMask)
    fpsrNzcv := fpscr &&& fpscrNzcvMask
    fpsrQc := (fpscr >>> 27) &&& 1#32
    guestMxcsr := bif getBit 24 fpscr then guest ||| (1#32 <<< 15) ||| (1#32 <<< 6) else guest
    asimdMxcsr := 0x00009fc0#32
    fpsrExc := fpscr &&& 0x9F#32 }

/-- `A32JitState::GetUniqueHash`: `upper_location_descriptor` above the PC. -/
def getUniqueHash (s : A32JitState) : BitVec 64 :=
  (s.upperLocationDescriptor.setWidth 64 <<< 32) ||| (s.reg 15).setWidth 64

@[simp] theorem setFpscr_cpsrNzcv (s : A32JitState) (f : BitVec 32) : (s.setFpscr f).cpsrNzcv = s.cpsrNzcv := rfl
@[simp] theorem setFpscr_cpsrQ (s : A32JitState) (f : BitVec 32) : (s.setFpscr f).cpsrQ = s.cpsrQ := rfl
@[simp] theorem setFpscr_cpsrGe (s : A32JitState) (f : BitVec 32) : (s.setFpscr f).cpsrGe = s.cpsrGe := rfl
@[simp] theorem setFpscr_cpsrJaifm (s : A32JitState) (f : BitVec 32) : (s.setFpscr f).cpsrJaifm = s.cpsrJaifm := rfl

/-- `SetFpscr` keeps the lower half of the upper location descriptor and puts the FPSCR mode bits above it. -/
theorem setFpscr_upperLocationDescriptor (s : A32JitState) (f : BitVec 32) :
    (s.setFpscr f).upperLocationDescriptor = (s.upperLocationDescriptor &&& 0x0000FFFF#32) ||| (f &&& fpscrModeMask) :=
  rfl

/-! ## Both packings agree -/

/-- After `SetCpsr(c)`, `SetFpscr(f)` and `Reg[15] = pc`, the JIT state's hash is the `UniqueHash` of the descriptor built from
`pc`, `c` and `f`. -/
theorem getUniqueHash_setCpsr_setFpscr (s : A32JitState) (pc c f : BitVec 32) :
    (((s.setCpsr c).setFpscr f).setReg 15 pc).getUniqueHash =
      (LocationDescriptor.make pc (PSR.ofValue c) (FPSCR.ofValue f) false).uniqueHash := by
  apply BitVec.eq_of_getLsbD_eq
  intro i hi
  rw [LocationDescriptor.RoundTripAux.getLsbD_uniqueHash]
  dsimp only [getUniqueHash, setReg, setFpscr, setCpsr, LocationDescriptor.make, PSR.ofValue, FPSCR.ofValue]
  simp only [PSR.t_eq,
    PSR.e_eq, PSR.getLsbD_it, Function.update_self, BitVec.getLsbD_or, BitVec.getLsbD_and, BitVec.getLsbD_shiftLeft,
    BitVec.getLsbD_ushiftRight, BitVec.getLsbD_setWidth, getLsbD_cond, getBit_eq _ (by omega : 9 < 32),
    getBit_eq _ (by omega : 5 < 32)]
  interval_cases i <;> simp [cpsrModeMask, fpscrModeMask, PSR.mask, FPSCR.mask]

/-- `SetFpscr` leaves the CPSR as `Cpsr()` reads it: it writes only the upper half of `upper_location_descriptor`. -/
theorem cpsr_setFpscr (s : A32JitState) (f : BitVec 32) : (s.setFpscr f).cpsr = s.cpsr := by
  apply BitVec.eq_of_getLsbD_eq
  intro i hi
  simp only [cpsr, setFpscr_cpsrNzcv, setFpscr_cpsrQ, setFpscr_cpsrGe, setFpscr_cpsrJaifm,
    setFpscr_upperLocationDescriptor]
  simp only [BitVec.getLsbD_or, BitVec.getLsbD_and, BitVec.getLsbD_shiftLeft, getLsbD_cond,
    getBit_eq _ (by omega : 1 < 32), getBit_eq _ (by omega : 0 < 32)]
  interval_cases i <;> simp [fpscrModeMask]

/-- `Cpsr()` after `SetCpsr(c)` is `c` with the reserved bits 20-23 clear. -/
theorem cpsr_setCpsr (s : A32JitState) (c : BitVec 32) : (s.setCpsr c).cpsr = c &&& PSR.mask := by
  apply BitVec.eq_of_getLsbD_eq
  intro i hi
  have hn := congrArg (fun x => x.getLsbD i) (NZCV.fromX64_toX64 c)
  have hq : ∀ b : Bool, ((bif b then 1#32 else 0#32) != 0#32) = b := by decide
  dsimp only [cpsr, setCpsr]
  simp only [BitVec.getLsbD_or, BitVec.getLsbD_and, BitVec.getLsbD_shiftLeft,
    BitVec.getLsbD_ushiftRight, getLsbD_cond, hn, getBit_eq _ (by omega : 1 < 32), getBit_eq _ (by omega : 0 < 32),
    getBit_eq _ (by omega : 31 < 32), getBit_eq _ (by omega : 23 < 32), getBit_eq _ (by omega : 15 < 32),
    getBit_eq _ (by omega : 7 < 32), getBit_eq _ (by omega : 27 < 32), getBit_eq _ (by omega : 19 < 32),
    getBit_eq _ (by omega : 18 < 32), getBit_eq _ (by omega : 17 < 32), getBit_eq _ (by omega : 16 < 32),
    getBit_eq _ (by omega : 9 < 32), getBit_eq _ (by omega : 5 < 32)]
  interval_cases i <;> simp [hq, PSR.mask]

/-- The mode bits of `Fpscr()` after `SetFpscr(f)` are those of `f`: the other fields only reach bits 0-7 and 27-31. -/
theorem fpscr_setFpscr_mode (s : A32JitState) (f : BitVec 32) :
    (s.setFpscr f).fpscr &&& fpscrModeMask = f &&& fpscrModeMask := by
  apply BitVec.eq_of_getLsbD_eq
  intro i hi
  dsimp only [fpscr, setFpscr, fpscrNzcvMask]
  simp only [BitVec.getLsbD_or, BitVec.getLsbD_and, BitVec.getLsbD_ushiftRight,
    BitVec.getLsbD_shiftLeft, getLsbD_cond]
  interval_cases i <;> simp [fpscrModeMask]

@[simp] theorem setReg_cpsr (s : A32JitState) (n : Fin 16) (v : BitVec 32) : (s.setReg n v).cpsr = s.cpsr := rfl
@[simp] theorem setReg_fpscr (s : A32JitState) (n : Fin 16) (v : BitVec 32) : (s.setReg n v).fpscr = s.fpscr := rfl

/-- The A32 block identity is encoded consistently by the frontend and the x64 JIT state. `UniqueHash` is injective and
unpacking the `IR::LocationDescriptor` gives the descriptor back; and after `SetCpsr(c)`, `SetFpscr(f)` and `Reg[15] = pc`,
`GetUniqueHash()` is the `UniqueHash` of `LocationDescriptor(pc, PSR{c}, FPSCR{f})`, `Cpsr()` is `c` with the reserved bits
20-23 clear and the mode bits of `Fpscr()` are those of `f`. -/
theorem a32_block_identity_consistent :
    Function.Injective LocationDescriptor.uniqueHash ∧
      (∀ d : LocationDescriptor, LocationDescriptor.ofIR d.toIR = d) ∧
      ∀ (s : A32JitState) (pc c f : BitVec 32),
        (((s.setCpsr c).setFpscr f).setReg 15 pc).getUniqueHash =
            (LocationDescriptor.make pc (PSR.ofValue c) (FPSCR.ofValue f) false).uniqueHash ∧
          (((s.setCpsr c).setFpscr f).setReg 15 pc).cpsr = c &&& ~~~0x00F00000#32 ∧
          (((s.setCpsr c).setFpscr f).setReg 15 pc).fpscr &&& fpscrModeMask = f &&& fpscrModeMask := by
  refine ⟨LocationDescriptor.uniqueHash_injective, LocationDescriptor.ofIR_toIR, ?_⟩
  intro s pc c f
  have hmask : PSR.mask = ~~~0x00F00000#32 := by decide
  refine ⟨getUniqueHash_setCpsr_setFpscr s pc c f, ?_, ?_⟩
  · rw [setReg_cpsr, cpsr_setFpscr, cpsr_setCpsr, hmask]
  · rw [setReg_fpscr, fpscr_setFpscr_mode]

end A32JitState
end Backend.X64
end Dynarmic
