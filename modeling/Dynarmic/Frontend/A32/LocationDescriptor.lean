import Dynarmic.Mcl.Bit

/-!
# The A32 location descriptor

A block is identified by more than its PC: the instruction set (CPSR.T), the data endianness (CPSR.E), the If-Then state, the
FPSCR mode bits and single-stepping all change how its instructions are translated. `A32::LocationDescriptor`
(`frontend/A32/a32_location_descriptor.h`) keeps these, masked to the bits that matter (`CPSR_MODE_MASK`,
`FPSCR_MODE_MASK`), and `UniqueHash` packs them into the 64-bit `IR::LocationDescriptor` that the block cache, the block
links and the return stack buffer compare. The masks are invariants of the structure here: its fields are private in the
source and every constructor masks, so a descriptor with other bits set cannot be built.

The main result is the round trip `ofIR_toIR`: unpacking the packed descriptor gives it back, so `UniqueHash` is injective.
-/

namespace Dynarmic

namespace IR

/-- `IR::LocationDescriptor`: a block identity as one 64-bit value. -/
structure LocationDescriptor where
  value : BitVec 64
  deriving DecidableEq, Repr

end IR

namespace A32

open Mcl.Bit

/-- `A32::ITState`: the eight bits of the If-Then execution state. -/
structure ITState where
  value : BitVec 8
  deriving DecidableEq, Repr

namespace ITState

/-- `ITState::Advance`: leave the IT block after its last instruction, else shift the mask left by one. -/
def advance (s : ITState) : ITState :=
  if getBits 0 2 s.value = 0 then ⟨0⟩ else ⟨setBits 0 4 s.value (getBits 0 4 s.value <<< 1)⟩

end ITState

/-- `A32::PSR`, the program status register: only what the location descriptor reads and writes of it is modelled. -/
@[ext] structure PSR where
  value : BitVec 32
  deriving DecidableEq, Repr

namespace PSR

/-- Bits 20-23 are reserved and the constructor from a value clears them. -/
def mask : BitVec 32 := 0xFF0FFFFF#32

/-- `PSR(u32 data)`. -/
def ofValue (data : BitVec 32) : PSR := ⟨data &&& mask⟩

/-- `PSR()`: every bit clear. -/
def empty : PSR := ⟨0⟩

/-- `PSR::T()`, the Thumb bit (bit 5). -/
def t (p : PSR) : Bool := getBit 5 p.value

def setT (p : PSR) (set : Bool) : PSR := ⟨setBit 5 p.value set⟩

/-- `PSR::E()`, the endianness bit (bit 9). -/
def e (p : PSR) : Bool := getBit 9 p.value

def setE (p : PSR) (set : Bool) : PSR := ⟨setBit 9 p.value set⟩

/-- `PSR::IT()`: IT[1:0] from bits 25-26 and IT[7:2] from bits 10-15. -/
def it (p : PSR) : ITState :=
  ⟨((p.value &&& 0x6000000#32) >>> 25 ||| (p.value &&& 0xFC00#32) >>> 8).setWidth 8⟩

/-- `PSR::IT(ITState)`: the inverse placement, in two masked writes as the source does it. -/
def setIT (p : PSR) (itState : ITState) : PSR :=
  let data : BitVec 32 := itState.value.setWidth 32
  let value := (p.value &&& ~~~0x000FC00#32) ||| ((data &&& 0b11111100#32) <<< 8)
  ⟨(value &&& ~~~0x6000000#32) ||| ((data &&& 0b00000011#32) <<< 25)⟩

/-- The T flag is bit 5 of the CPSR. -/
theorem t_eq (p : PSR) : p.t = p.value.getLsbD 5 := getBit_eq _ (by omega)

/-- The E flag is bit 9 of the CPSR. -/
theorem e_eq (p : PSR) : p.e = p.value.getLsbD 9 := getBit_eq _ (by omega)

/-- `SetT` sets bit 5 and leaves the others. -/
theorem getLsbD_setT (p : PSR) (set : Bool) (i : Nat) :
    (p.setT set).value.getLsbD i = if i = 5 then set else p.value.getLsbD i :=
  getLsbD_setBit _ _ (by omega) i

/-- `SetE` sets bit 9 and leaves the others. -/
theorem getLsbD_setE (p : PSR) (set : Bool) (i : Nat) :
    (p.setE set).value.getLsbD i = if i = 9 then set else p.value.getLsbD i :=
  getLsbD_setBit _ _ (by omega) i

/-- Bit `j` of the IT state read from a PSR. -/
theorem getLsbD_it (p : PSR) (j : Nat) :
    p.it.value.getLsbD j =
      if j < 2 then p.value.getLsbD (j + 25) else if j < 8 then p.value.getLsbD (j + 8) else false := by
  unfold it
  simp only [BitVec.getLsbD_setWidth, BitVec.getLsbD_or, BitVec.getLsbD_ushiftRight, BitVec.getLsbD_and,
    BitVec.getLsbD_ofNat]
  by_cases h : j < 8
  · interval_cases j <;> simp [Nat.testBit]
  · simp [h]
    omega

/-- Bit `i` of a PSR after its IT state is written. -/
theorem getLsbD_setIT (p : PSR) (s : ITState) (i : Nat) :
    (p.setIT s).value.getLsbD i =
      if 10 ≤ i ∧ i < 16 then s.value.getLsbD (i - 8)
      else if 25 ≤ i ∧ i < 27 then s.value.getLsbD (i - 25) else p.value.getLsbD i := by
  unfold setIT
  simp only [BitVec.getLsbD_or, BitVec.getLsbD_and, BitVec.getLsbD_not, BitVec.getLsbD_shiftLeft,
    BitVec.getLsbD_setWidth, BitVec.getLsbD_ofNat]
  by_cases h : i < 32
  · interval_cases i <;> simp [Nat.testBit]
  · have h1 : ¬(10 ≤ i ∧ i < 16) := by omega
    have h2 : ¬(25 ≤ i ∧ i < 27) := by omega
    simp [h, h1, h2, BitVec.getLsbD_of_ge p.value i (by omega)]

end PSR

/-- `A32::FPSCR`, the floating-point status and control register: its value, masked as its constructor masks it. -/
@[ext] structure FPSCR where
  value : BitVec 32
  deriving DecidableEq, Repr

namespace FPSCR

def mask : BitVec 32 := 0xFFF79F9F#32

/-- `FPSCR(u32 data)`. -/
def ofValue (data : BitVec 32) : FPSCR := ⟨data &&& mask⟩

end FPSCR

/-- `CPSR_MODE_MASK`: T (bit 5), E (bit 9), IT[7:2] (bits 10-15) and IT[1:0] (bits 25-26). -/
def cpsrModeMask : BitVec 32 := 0x0600FE20#32

/-- `FPSCR_MODE_MASK`: Len (bits 16-18), Stride, RMode, FZ, DN and AHP (bits 20-26). -/
def fpscrModeMask : BitVec 32 := 0x07F70000#32

/-- `A32::LocationDescriptor`. The two masks are fields: no descriptor holds a bit outside them. -/
@[ext] structure LocationDescriptor where
  armPc : BitVec 32
  cpsr : PSR
  fpscr : FPSCR
  singleStepping : Bool
  cpsr_mode : cpsr.value &&& ~~~cpsrModeMask = 0
  fpscr_mode : fpscr.value &&& ~~~fpscrModeMask = 0

namespace LocationDescriptor

/-- A CPSR masked by the mode mask has no bit outside it. -/
theorem ofValue_and_cpsrModeMask (v : BitVec 32) : (PSR.ofValue (v &&& cpsrModeMask)).value &&& ~~~cpsrModeMask = 0 := by
  apply BitVec.eq_of_getLsbD_eq
  intro i _
  simp only [PSR.ofValue, BitVec.getLsbD_and, BitVec.getLsbD_not]
  cases (cpsrModeMask.getLsbD i) <;> simp

/-- An FPSCR masked by the mode mask has no bit outside it. -/
theorem ofValue_and_fpscrModeMask (v : BitVec 32) :
    (FPSCR.ofValue (v &&& fpscrModeMask)).value &&& ~~~fpscrModeMask = 0 := by
  apply BitVec.eq_of_getLsbD_eq
  intro i _
  simp only [FPSCR.ofValue, BitVec.getLsbD_and, BitVec.getLsbD_not]
  cases (fpscrModeMask.getLsbD i) <;> simp

/-- `LocationDescriptor(u32 arm_pc, PSR cpsr, FPSCR fpscr, bool single_stepping)`: both registers masked to their mode bits. -/
def make (armPc : BitVec 32) (cpsr : PSR) (fpscr : FPSCR) (singleStepping : Bool) : LocationDescriptor where
  armPc := armPc
  cpsr := PSR.ofValue (cpsr.value &&& cpsrModeMask)
  fpscr := FPSCR.ofValue (fpscr.value &&& fpscrModeMask)
  singleStepping := singleStepping
  cpsr_mode := ofValue_and_cpsrModeMask _
  fpscr_mode := ofValue_and_fpscrModeMask _

/-- `UniqueHash`: the PC in the low word; above it the FPSCR mode bits, T in bit 0, E in bit 1, single-stepping in bit 2 and
the IT state in bits 8-15. -/
def uniqueHash (d : LocationDescriptor) : BitVec 64 :=
  let pcU64 : BitVec 64 := d.armPc.setWidth 64
  let fpscrU64 : BitVec 64 := d.fpscr.value.setWidth 64
  let tU64 : BitVec 64 := bif d.cpsr.t then 1 else 0
  let eU64 : BitVec 64 := bif d.cpsr.e then 2 else 0
  let singleSteppingU64 : BitVec 64 := bif d.singleStepping then 4 else 0
  let itU64 : BitVec 64 := d.cpsr.it.value.setWidth 64 <<< 8
  let upper := (fpscrU64 ||| tU64 ||| eU64 ||| singleSteppingU64 ||| itU64) <<< 32
  pcU64 ||| upper

/-- `operator IR::LocationDescriptor`. -/
def toIR (d : LocationDescriptor) : IR.LocationDescriptor := ⟨d.uniqueHash⟩

/-- The PSR the unpacking constructor builds from T, E and the IT state holds only mode bits. -/
theorem unpacked_cpsr_mode (t e : Bool) (s : ITState) :
    (((PSR.empty.setT t).setE e).setIT s).value &&& ~~~cpsrModeMask = 0 := by
  apply BitVec.eq_of_getLsbD_eq
  intro i hi
  simp only [BitVec.getLsbD_and, BitVec.getLsbD_not, PSR.getLsbD_setIT, PSR.getLsbD_setE, PSR.getLsbD_setT,
    PSR.empty, cpsrModeMask, BitVec.getLsbD_ofNat]
  interval_cases i <;> simp [Nat.testBit]

/-- The FPSCR unpacked from a descriptor's value has no bit outside the mode mask. -/
theorem unpacked_fpscr_mode (v : BitVec 64) :
    (FPSCR.ofValue ((v &&& fpscrModeMask.setWidth 64).setWidth 32)).value &&& ~~~fpscrModeMask = 0 := by
  apply BitVec.eq_of_getLsbD_eq
  intro i hi
  simp only [FPSCR.ofValue, BitVec.getLsbD_and, BitVec.getLsbD_not, BitVec.getLsbD_setWidth]
  cases fpscrModeMask.getLsbD i <;> simp

/-- `LocationDescriptor(const IR::LocationDescriptor&)`: T, E, the FPSCR mode bits, the IT state and single-stepping read
back from the upper word, the PC from the lower. -/
def ofIR (o : IR.LocationDescriptor) : LocationDescriptor where
  armPc := o.value.setWidth 32
  cpsr := ((PSR.empty.setT ((o.value >>> 32) &&& 1 != 0)).setE ((o.value >>> 32) &&& 2 != 0)).setIT
    ⟨(o.value >>> 40).setWidth 8⟩
  fpscr := FPSCR.ofValue (((o.value >>> 32) &&& fpscrModeMask.setWidth 64).setWidth 32)
  singleStepping := (o.value >>> 32) &&& 4 != 0
  cpsr_mode := unpacked_cpsr_mode _ _ _
  fpscr_mode := unpacked_fpscr_mode _

/-! ## Unpacking inverts `UniqueHash` -/

namespace RoundTripAux

/-- Testing one bit with a constant mask is `get_bit`. -/
theorem and_single_ne_zero (x : BitVec 64) (p : Nat) (c : BitVec 64) (hc : c = mask 64 p p) (hp : p < 64) :
    (x &&& c != 0) = x.getLsbD p := by
  subst hc
  exact getBit_eq x hp

/-- A bit set in a word with no bits outside the mask `m` is set in `m`. -/
theorem getLsbD_mask_of_and_not {x m : BitVec 32} (hx : x &&& ~~~m = 0) {i : Nat} (h : x.getLsbD i = true) :
    m.getLsbD i = true := by
  have hi := congrArg (fun x => x.getLsbD i) hx
  simp only [BitVec.getLsbD_and, BitVec.getLsbD_not, h, Bool.true_and] at hi
  have hlt := BitVec.lt_of_getLsbD h
  simpa [hlt] using hi

/-- The bits of `UniqueHash`: the PC below bit 32, and above it the FPSCR together with T, E, single-stepping and the
IT state at their places. -/
theorem getLsbD_uniqueHash (d : LocationDescriptor) (i : Nat) :
    d.uniqueHash.getLsbD i =
      if i < 32 then d.armPc.getLsbD i
      else (decide (i < 64) && (d.fpscr.value.getLsbD (i - 32) || (decide (i = 32) && d.cpsr.t) ||
        (decide (i = 33) && d.cpsr.e) || (decide (i = 34) && d.singleStepping) ||
        (decide (40 ≤ i) && decide (i < 48) && d.cpsr.it.value.getLsbD (i - 40)))) := by
  unfold uniqueHash
  have hite : ∀ (b : Bool) (c : BitVec 64) (j : Nat), (bif b then c else 0).getLsbD j = (b && c.getLsbD j) := by
    intro b c j
    cases b <;> simp
  simp only [BitVec.getLsbD_or, BitVec.getLsbD_setWidth, BitVec.getLsbD_shiftLeft, hite]
  by_cases h64 : i < 64
  · interval_cases i <;> simp
  · have hlt : ¬i < 32 := by omega
    simp [hlt, h64]

/-- A bit clear in the mask `m` is clear in a word with no bits outside `m`. -/
theorem getLsbD_eq_false_of_and_not {x m : BitVec 32} (hx : x &&& ~~~m = 0) {i : Nat} (h : m.getLsbD i = false) :
    x.getLsbD i = false := by
  cases hb : x.getLsbD i
  · rfl
  · rw [getLsbD_mask_of_and_not hx hb] at h
    cases h

/-- A bit of the CPSR of a descriptor outside `CPSR_MODE_MASK` is clear. -/
theorem cpsr_bit_of_not_mode (d : LocationDescriptor) {i : Nat} (h : cpsrModeMask.getLsbD i = false) :
    d.cpsr.value.getLsbD i = false :=
  getLsbD_eq_false_of_and_not d.cpsr_mode h

/-- A bit of the FPSCR of a descriptor outside `FPSCR_MODE_MASK` is clear. -/
theorem fpscr_bit_of_not_mode (d : LocationDescriptor) {i : Nat} (h : fpscrModeMask.getLsbD i = false) :
    d.fpscr.value.getLsbD i = false :=
  getLsbD_eq_false_of_and_not d.fpscr_mode h

/-- The FPSCR of a descriptor has nothing below bit 16, where `UniqueHash` puts T, E, single-stepping and the IT state. -/
theorem fpscr_low (d : LocationDescriptor) (j : Nat) (hj : j < 16) : d.fpscr.value[j] = false := by
  have h := fpscr_bit_of_not_mode d (i := j) (by simp only [fpscrModeMask, BitVec.getLsbD_ofNat]; interval_cases j <;> simp [Nat.testBit])
  simpa [show j < 32 by omega] using h

/-- Bit 0 of the descriptor's packing is the mask of bit 0. -/
theorem one_eq_mask : (1 : BitVec 64) = mask 64 0 0 := by decide

/-- Bit 1 of the descriptor's packing is the mask of bit 1. -/
theorem two_eq_mask : (2 : BitVec 64) = mask 64 1 1 := by decide

/-- Bit 2 of the descriptor's packing is the mask of bit 2. -/
theorem four_eq_mask : (4 : BitVec 64) = mask 64 2 2 := by decide

end RoundTripAux

open RoundTripAux

/-- Packing and unpacking a descriptor keeps its PC. -/
theorem ofIR_toIR_armPc (d : LocationDescriptor) : (ofIR (toIR d)).armPc = d.armPc := by
  apply BitVec.eq_of_getLsbD_eq
  intro i hi
  simp [ofIR, toIR, getLsbD_uniqueHash, hi]

/-- Packing and unpacking a descriptor keeps its single-stepping flag. -/
theorem ofIR_toIR_singleStepping (d : LocationDescriptor) : (ofIR (toIR d)).singleStepping = d.singleStepping := by
  simp only [ofIR, toIR]
  rw [and_single_ne_zero _ 2 _ four_eq_mask (by omega), BitVec.getLsbD_ushiftRight, getLsbD_uniqueHash]
  simp [fpscr_low d 2 (by omega)]

/-- Packing and unpacking a descriptor keeps its CPSR. -/
theorem ofIR_toIR_cpsr (d : LocationDescriptor) : (ofIR (toIR d)).cpsr = d.cpsr := by
  have hm : ∀ j (hj : j < 32), cpsrModeMask.getLsbD j = false → d.cpsr.value[j] = false := by
    intro j hj h
    simpa [hj] using cpsr_bit_of_not_mode d h
  ext1
  apply BitVec.eq_of_getLsbD_eq
  intro i hi
  simp only [ofIR, toIR]
  rw [and_single_ne_zero _ 0 _ one_eq_mask (by omega), and_single_ne_zero _ 1 _ two_eq_mask (by omega)]
  simp only [PSR.getLsbD_setIT, PSR.getLsbD_setE, PSR.getLsbD_setT, PSR.empty,
    BitVec.getLsbD_ushiftRight, BitVec.getLsbD_setWidth, getLsbD_uniqueHash, PSR.t_eq, PSR.e_eq, PSR.getLsbD_it]
  have hf := fpscr_low d
  interval_cases i <;> simp [hm, hf, cpsrModeMask]

/-- Packing and unpacking a descriptor keeps its FPSCR. -/
theorem ofIR_toIR_fpscr (d : LocationDescriptor) : (ofIR (toIR d)).fpscr = d.fpscr := by
  have hm : ∀ j (hj : j < 32), fpscrModeMask.getLsbD j = false → d.fpscr.value[j] = false := by
    intro j hj h
    simpa [hj] using fpscr_bit_of_not_mode d h
  ext1
  apply BitVec.eq_of_getLsbD_eq
  intro i hi
  simp only [ofIR, toIR, FPSCR.ofValue, BitVec.getLsbD_and, BitVec.getLsbD_setWidth, BitVec.getLsbD_ushiftRight,
    getLsbD_uniqueHash]
  interval_cases i <;> simp [hm, fpscrModeMask, FPSCR.mask]

/-- Unpacking the `IR::LocationDescriptor` of a descriptor gives the descriptor back: T, E, the IT state, the FPSCR mode bits
and single-stepping all survive the round trip. -/
theorem ofIR_toIR (d : LocationDescriptor) : ofIR (toIR d) = d := by
  ext1
  · exact ofIR_toIR_armPc d
  · exact ofIR_toIR_cpsr d
  · exact ofIR_toIR_fpscr d
  · exact ofIR_toIR_singleStepping d

/-- `UniqueHash` is injective: it has a left inverse. -/
theorem uniqueHash_injective : Function.Injective uniqueHash := by
  intro d₁ d₂ h
  have h' : toIR d₁ = toIR d₂ := by simp [toIR, h]
  rw [← ofIR_toIR d₁, ← ofIR_toIR d₂, h']

/-! ## Moving to the next instruction -/

/-- `AdvancePC(amount)`: the PC moved on, the rest kept. -/
def advancePC (d : LocationDescriptor) (amount : Int) : LocationDescriptor :=
  make (d.armPc + BitVec.ofInt 32 amount) d.cpsr d.fpscr d.singleStepping

/-- `SetIT(new_it)`. -/
def setIT (d : LocationDescriptor) (newIt : ITState) : LocationDescriptor :=
  make d.armPc (d.cpsr.setIT newIt) d.fpscr d.singleStepping

/-- `AdvanceIT()`: the IT state of the next instruction. -/
def advanceIT (d : LocationDescriptor) : LocationDescriptor :=
  d.setIT d.cpsr.it.advance

/-- `SetSingleStepping(new_single_stepping)`. -/
def setSingleStepping (d : LocationDescriptor) (newSingleStepping : Bool) : LocationDescriptor :=
  make d.armPc d.cpsr d.fpscr newSingleStepping

end LocationDescriptor
end A32
end Dynarmic
