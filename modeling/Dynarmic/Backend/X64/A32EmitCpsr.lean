import Dynarmic.Backend.X64.A32JitState
import Dynarmic.Lib.Run

/-!
# The CPSR as the emitted x64 code reads and writes it

`A32EmitX64::EmitA32GetCpsr`, `EmitA32SetCpsr` and `EmitA32UpdateUpperLocationDescriptor` (backend/x64/a32_emit_x64.cpp),
each in both of its host paths: with `FastBMI2` the fields are gathered and scattered with `pext` and `pdep`, otherwise
with multiplications that move the bits into place. They work on the same split fields of `A32JitState` as the C++
accessors `Cpsr` and `SetCpsr`, but neither touches the IT state: `GetCpsr` leaves bits 10-15 and 25-26 clear, and
`SetCpsr` clears bits 2-15 of `upper_location_descriptor` and writes back only T and E. An `MSR` that writes the E bit
goes through the two (`thumb32_MSR_reg`), so the IT state the translator advanced is dropped.
-/

namespace Dynarmic
namespace Backend.X64

open Mcl.Bit A32

/-! ## `pdep` and `pext` -/

/-- `PDEP`: the low bits of `src`, in order, deposited at the set bits of `mask`. -/
def pdep {w : Nat} (src mask : BitVec w) : BitVec w :=
  ((List.range w).foldl (fun (acc : BitVec w × Nat) i =>
    if mask.getLsbD i then (bif src.getLsbD acc.2 then acc.1 ||| BitVec.twoPow w i else acc.1, acc.2 + 1) else acc)
    (0, 0)).1

/-- `PEXT`: the bits of `src` at the set bits of `mask`, packed in order into the low bits. -/
def pext {w : Nat} (src mask : BitVec w) : BitVec w :=
  ((List.range w).foldl (fun (acc : BitVec w × Nat) i =>
    if mask.getLsbD i then (bif src.getLsbD i then acc.1 ||| BitVec.twoPow w acc.2 else acc.1, acc.2 + 1) else acc)
    (0, 0)).1

/-- `pdep` writes only where the mask is set: each step sets at most the bit of the mask it is at. -/
theorem mask_of_getLsbD_pdep {w : Nat} (src mask : BitVec w) {j : Nat} (h : (pdep src mask).getLsbD j = true) :
    mask.getLsbD j = true := by
  revert j
  unfold pdep
  apply Run.foldl_invariant (fun acc : BitVec w × Nat => ∀ {j}, acc.1.getLsbD j = true → mask.getLsbD j = true)
  · rintro ⟨acc, n⟩ i hacc j hj
    by_cases hm : mask.getLsbD i
    · simp only [hm, if_true] at hj
      cases hsrc : src.getLsbD n
      · rw [hsrc] at hj
        exact hacc hj
      · rw [hsrc, cond_true, BitVec.getLsbD_or, BitVec.getLsbD_twoPow, Bool.or_eq_true] at hj
        rcases hj with hj | hj
        · exact hacc hj
        · have hij : i = j := (by simpa using hj : i < w ∧ i = j).2
          rw [← hij]
          exact hm
    · simp only [hm, Bool.false_eq_true, if_false] at hj
      exact hacc hj
  · intro j hj
    simp at hj

/-- `pdep` leaves clear every bit the mask does not select. -/
theorem getLsbD_pdep_of_not_mask {w : Nat} (src mask : BitVec w) {i : Nat} (h : mask.getLsbD i = false) :
    (pdep src mask).getLsbD i = false := by
  cases hp : (pdep src mask).getLsbD i
  · rfl
  · rw [mask_of_getLsbD_pdep src mask hp] at h
    exact absurd h (by decide)

/-- `pdep` leaves clear every bit the mask does not select, by index. -/
theorem getElem_pdep_of_not_mask {w : Nat} (src mask : BitVec w) {i : Nat} (hi : i < w)
    (h : mask.getLsbD i = false) : (pdep src mask)[i] = false := by
  rw [← BitVec.getLsbD_eq_getElem]
  exact getLsbD_pdep_of_not_mask src mask h

/-! ## The emitted code -/

/-- The upper word of a location's hash, as `EmitSetUpperLocationDescriptor`'s `get_upper` takes it. -/
def upperOf (d : LocationDescriptor) : BitVec 32 :=
  ((d.setSingleStepping false).uniqueHash >>> 32).setWidth 32

/-- `EmitSetUpperLocationDescriptor(new_location, old_location)`: the store is emitted only when the two upper words
differ; with `always_little_endian` the E bit is left out. -/
def emitSetUpperLocationDescriptor (alwaysLittleEndian : Bool) (newLocation oldLocation : LocationDescriptor)
    (s : A32JitState) : A32JitState :=
  let oldUpper := upperOf oldLocation
  let newUpper := upperOf newLocation &&& ~~~(if alwaysLittleEndian then 2 else 0)
  if oldUpper ≠ newUpper then { s with upperLocationDescriptor := newUpper } else s

/-- `EmitA32UpdateUpperLocationDescriptor`: nothing in a block that writes the PC with `BXWritePC`, else the block's end
location stored over its start location. -/
def emitA32UpdateUpperLocationDescriptor (alwaysLittleEndian blockHasBXWritePC : Bool)
    (location endLocation : LocationDescriptor) (s : A32JitState) : A32JitState :=
  if blockHasBXWritePC then s else emitSetUpperLocationDescriptor alwaysLittleEndian endLocation location s

/-- The 64-bit word at `upper_location_descriptor`, which `cpsr_ge` follows in memory. -/
def upperAndGe (s : A32JitState) : BitVec 64 :=
  (s.cpsrGe.setWidth 64 <<< 32) ||| s.upperLocationDescriptor.setWidth 64

/-- `EmitA32GetCpsr`. -/
def emitA32GetCpsr (fastBMI2 : Bool) (s : A32JitState) : BitVec 32 :=
  let result : BitVec 32 :=
    if fastBMI2 then pdep ((pext (upperAndGe s) 0x8080808000000003).setWidth 32) 0x000f0220
    else
      let result := (s.upperLocationDescriptor * 0x120) &&& 0x00000220
      let tmp := ((((s.cpsrGe &&& 0x80808080) * 0x00204081) >>> 12) &&& 0x000f0000)
      result ||| tmp
  let result := result ||| (s.cpsrQ <<< 27)
  let tmp2 : BitVec 32 :=
    if fastBMI2 then pext s.cpsrNzcv 0xC101 <<< 28 else ((s.cpsrNzcv &&& 0xC101) * 0x10210000) &&& 0xF0000000
  result ||| tmp2 ||| s.cpsrJaifm

/-- `EmitA32SetCpsr`. `setc` writes the low byte of `cpsr_q`; with `FastBMI2` the T and E bits and the GE bytes are
written with one 64-bit `and` and `or` over `upper_location_descriptor` and `cpsr_ge`, whose 32-bit mask `0x7FFF0000` is
sign-extended. -/
def emitA32SetCpsr (fastBMI2 alwaysLittleEndian : Bool) (s : A32JitState) (cpsr : BitVec 32) : A32JitState :=
  let cpsr := if alwaysLittleEndian then cpsr &&& 0xFFFFFDFF else cpsr
  let cpsrQ := (s.cpsrQ &&& 0xFFFFFF00) ||| (bif getBit 27 cpsr then 1 else 0)
  let tmp := cpsr >>> 28
  let cpsrNzcv := if fastBMI2 then pdep tmp 0xC101 else (tmp * 0x1081) &&& 0xC101
  let cpsrJaifm := cpsr &&& 0x010001DF
  let (upper, ge) :=
    if fastBMI2 then
      let q := upperAndGe s &&& 0x000000007FFF0000
      let c : BitVec 64 := pdep ((pext cpsr 0x000f0220).setWidth 64) 0x0101010100000003
      -- the SWAR subtraction that turns each deposited GE bit into a byte of ones
      let t := (0x8080808000000003 - c) ^^^ 0x8080808000000003
      let q := q ||| t
      (q.setWidth 32, (q >>> 32).setWidth 32)
    else
      let upper := s.upperLocationDescriptor &&& 0xFFFF0000
      let upper := upper ||| (((cpsr &&& 0x00000220) * 0x00900000) >>> 28)
      let c := ((((cpsr &&& 0x000f0000) >>> 16) * 0x00204081) &&& 0x01010101)
      (upper, (0x80808080 - c) ^^^ 0x80808080)
  { s with cpsrQ, cpsrNzcv, cpsrJaifm, upperLocationDescriptor := upper, cpsrGe := ge }

/-- `EmitA32BranchWritePC` of the `A32SetRegister` that `BranchWritePC` emits: the PC aligned for the instruction set of
the block's location. -/
def branchWritePC (location : LocationDescriptor) (s : A32JitState) (value : BitVec 32) : A32JitState :=
  s.setReg ⟨15, Nat.lt_succ_self 15⟩ (value &&& if location.cpsr.t then 0xFFFFFFFE else 0xFFFFFFFC)

/-- The CPSR mask `thumb32_MSR_reg` writes with `write_e`: NZCVQ and GE as the mask selects, and E. -/
def msrCpsrMask (writeNzcvq writeG : Bool) : BitVec 32 :=
  (if writeNzcvq then 0xF8000000 else 0) ||| (if writeG then 0x000F0000 else 0) ||| 0x00000200

/-- The x64 code for the IR of `thumb32_MSR_reg` with `write_e`, from the MSR's location: `UpdateUpperLocationDescriptor`
to the block's end location (the next instruction, `AdvancePC(4).AdvanceIT()`), `SetCpsr` of the old CPSR under the mask
with the new bits from `value`, and the write of the PC after the instruction. -/
def msrWriteE (fastBMI2 alwaysLittleEndian writeNzcvq writeG : Bool) (location : LocationDescriptor)
    (value : BitVec 32) (s : A32JitState) : A32JitState :=
  let endLocation := (location.advancePC 4).advanceIT
  let s := emitA32UpdateUpperLocationDescriptor alwaysLittleEndian false location endLocation s
  let cpsrMask := msrCpsrMask writeNzcvq writeG
  let oldCpsr := emitA32GetCpsr fastBMI2 s &&& ~~~cpsrMask
  let newCpsr := value &&& cpsrMask
  let s := emitA32SetCpsr fastBMI2 alwaysLittleEndian s (oldCpsr ||| newCpsr)
  branchWritePC location s (location.armPc + 4)

/-! ## The IT state is not carried through -/

/-- The low half-words of a 64-bit difference depend only on the low half-words. -/
theorem setWidth_sixteen_sub (x y : BitVec 64) : (x - y).setWidth 16 = x.setWidth 16 - y.setWidth 16 := by
  apply BitVec.eq_of_toNat_eq
  have hx := x.isLt
  have hy := y.isLt
  simp only [BitVec.toNat_setWidth, BitVec.toNat_sub]
  omega

/-- The SWAR negation of `EmitA32SetCpsr` leaves bits 2-15 clear when the deposit has no bit there. -/
theorem getLsbD_swar {c : BitVec 64} (hc : ∀ i, 2 ≤ i → i < 16 → c.getLsbD i = false) {i : Nat} (hi2 : 2 ≤ i)
    (hi : i < 16) : ((0x8080808000000003 - c) ^^^ 0x8080808000000003 : BitVec 64).getLsbD i = false := by
  have hlow : c.setWidth 16 = c.setWidth 16 &&& 3 := by
    apply BitVec.eq_of_getLsbD_eq
    intro j hj
    simp only [BitVec.getLsbD_and, BitVec.getLsbD_setWidth, hj, decide_true, Bool.true_and]
    by_cases hj2 : j < 2
    · interval_cases j <;> simp
    · rw [hc j (by omega) hj]
      simp
  have hlt : (c.setWidth 16).toNat < 4 := by
    rw [hlow, BitVec.toNat_and]
    exact Nat.lt_succ_of_le (Nat.and_le_right)
  have key : ∀ k < 4, ((3#16 - BitVec.ofNat 16 k) ^^^ 3#16).getLsbD i = false := by
    intro k hk
    interval_cases k <;> interval_cases i <;> decide
  have h := key _ hlt
  rw [BitVec.ofNat_toNat, BitVec.setWidth_eq] at h
  have hw : ((0x8080808000000003 - c) ^^^ 0x8080808000000003 : BitVec 64).setWidth 16 =
      (3#16 - c.setWidth 16) ^^^ 3#16 := by
    rw [BitVec.setWidth_xor, setWidth_sixteen_sub]
    rfl
  have := congrArg (fun x => x.getLsbD i) hw
  simp only [BitVec.getLsbD_setWidth, hi, decide_true, Bool.true_and] at this
  rw [this, h]

/-- The IT field of `upper_location_descriptor`, bits 8-15, is clear after the emitted `SetCpsr`, in both paths and
whatever CPSR it is given. -/
theorem getLsbD_upper_emitA32SetCpsr (fastBMI2 alwaysLittleEndian : Bool) (s : A32JitState) (c : BitVec 32) {i : Nat}
    (hi8 : 8 ≤ i) (hi : i < 16) : (emitA32SetCpsr fastBMI2 alwaysLittleEndian s c).upperLocationDescriptor.getLsbD i = false := by
  cases fastBMI2
  · -- the generic path: the kept half is above bit 15 and the written bits are below bit 4
    simp only [emitA32SetCpsr, Bool.false_eq_true, if_false]
    rw [BitVec.getLsbD_or, BitVec.getLsbD_and, BitVec.getLsbD_ushiftRight, BitVec.getLsbD_of_ge _ (28 + i) (by omega)]
    interval_cases i <;> simp
  · -- the `FastBMI2` path: the 64-bit mask clears the low half, and the deposit reaches only bits 0 and 1 below it
    simp only [emitA32SetCpsr, if_true]
    have hc : ∀ j, 2 ≤ j → j < 16 →
        (pdep ((pext (if alwaysLittleEndian then c &&& 0xFFFFFDFF else c) 0x000f0220).setWidth 64)
          0x0101010100000003).getLsbD j = false := by
      intro j hj2 hj
      apply getLsbD_pdep_of_not_mask
      interval_cases j <;> decide
    rw [BitVec.getLsbD_setWidth, BitVec.getLsbD_or, BitVec.getLsbD_and, getLsbD_swar hc (by omega) hi]
    interval_cases i <;> simp

/-- A word with no bit under a mask reads clear at every bit of the mask. -/
theorem getElem_eq_false_of_and_eq_zero {x m : BitVec 32} (h : x &&& m = 0) (k : Nat) (hk : k < 32)
    (hm : m.getLsbD k = true) : x[k] = false := by
  have := congrArg (fun y => y.getLsbD k) h
  rw [← BitVec.getLsbD_eq_getElem]
  simpa [BitVec.getLsbD_and, hm] using this

/-- `Cpsr()` takes the IT state from bits 8-15 of `upper_location_descriptor` and from `cpsr_jaifm`: with both clear
there, the IT state it gives is zero. -/
theorem it_cpsr_of_clear {s : A32JitState} (hu : ∀ i, 8 ≤ i → i < 16 → s.upperLocationDescriptor.getLsbD i = false)
    (hj : s.cpsrJaifm &&& 0x0600FC00 = 0) : (⟨s.cpsr⟩ : PSR).it = ⟨0⟩ := by
  have hu' : ∀ i (h : i < 32), 8 ≤ i → i < 16 → s.upperLocationDescriptor[i] = false := by
    intro i h h8 h16
    rw [← BitVec.getLsbD_eq_getElem]
    exact hu i h8 h16
  rw [ITState.mk.injEq]
  apply BitVec.eq_of_getLsbD_eq
  intro j hj8
  rw [PSR.getLsbD_it]
  simp only [A32JitState.cpsr, NZCV.fromX64, BitVec.getLsbD_or, BitVec.getLsbD_and, BitVec.getLsbD_shiftLeft,
    getLsbD_cond]
  interval_cases j <;> simp [hu', getElem_eq_false_of_and_eq_zero hj]

/-- The emitted `GetCpsr` does not read the IT state: with `cpsr_jaifm` within its mask, the IT state of what it returns
is zero, in both paths. -/
theorem it_emitA32GetCpsr (fastBMI2 : Bool) {s : A32JitState} (hj : s.cpsrJaifm &&& 0x0600FC00 = 0) :
    (⟨emitA32GetCpsr fastBMI2 s⟩ : PSR).it = ⟨0⟩ := by
  rw [ITState.mk.injEq]
  apply BitVec.eq_of_getLsbD_eq
  intro j hj8
  rw [PSR.getLsbD_it]
  cases fastBMI2
  · simp only [emitA32GetCpsr, Bool.false_eq_true, if_false, BitVec.getLsbD_or, BitVec.getLsbD_and,
      BitVec.getLsbD_shiftLeft, BitVec.getLsbD_ushiftRight]
    interval_cases j <;> simp [getElem_eq_false_of_and_eq_zero hj]
  · simp only [emitA32GetCpsr, if_true, BitVec.getLsbD_or, BitVec.getLsbD_shiftLeft]
    interval_cases j <;> simp [getElem_eq_false_of_and_eq_zero hj, getElem_pdep_of_not_mask]

/-- The emitted `SetCpsr` keeps of the J, A, I, F and mode bits only those of `0x010001DF`, with E cleared when the
guest is always little-endian. -/
theorem cpsrJaifm_emitA32SetCpsr (fastBMI2 alwaysLittleEndian : Bool) (s : A32JitState) (c : BitVec 32) :
    (emitA32SetCpsr fastBMI2 alwaysLittleEndian s c).cpsrJaifm =
      (if alwaysLittleEndian then c &&& 0xFFFFFDFF else c) &&& 0x010001DF := by
  cases fastBMI2 <;> rfl

/-- Whatever CPSR it is given, the emitted `SetCpsr` leaves a state whose `Cpsr()` has the IT state zero. -/
theorem it_cpsr_emitA32SetCpsr (fastBMI2 alwaysLittleEndian : Bool) (s : A32JitState) (c : BitVec 32) :
    (⟨(emitA32SetCpsr fastBMI2 alwaysLittleEndian s c).cpsr⟩ : PSR).it = ⟨0⟩ := by
  apply it_cpsr_of_clear
  · intro i h8 h16
    exact getLsbD_upper_emitA32SetCpsr fastBMI2 alwaysLittleEndian s c h8 h16
  · -- `cpsr_jaifm` keeps the CPSR under `0x010001DF`, which holds no bit of the IT state
    have hmask : (0x010001DF : BitVec 32) &&& 0x0600FC00 = 0 := by decide
    rw [cpsrJaifm_emitA32SetCpsr, BitVec.and_assoc, hmask]
    exact BitVec.and_zero

/-- After the code for an `MSR` that writes E, `Cpsr()` has the IT state zero, in both host paths and for every
location, value and state. -/
theorem it_cpsr_msrWriteE (fastBMI2 alwaysLittleEndian writeNzcvq writeG : Bool) (location : LocationDescriptor)
    (value : BitVec 32) (s : A32JitState) :
    (⟨(msrWriteE fastBMI2 alwaysLittleEndian writeNzcvq writeG location value s).cpsr⟩ : PSR).it = ⟨0⟩ := by
  rw [msrWriteE, branchWritePC, A32JitState.setReg_cpsr]
  exact it_cpsr_emitA32SetCpsr _ _ _ _

/-- A Thumb `MSR` at `0x1000` that is the first instruction of an `ITT EQ` block (IT state `0x04`). -/
def itBlockLocation : LocationDescriptor := .make 0x1000 ⟨0x420⟩ ⟨0⟩ false

/-- After an `MSR` that writes E as the first instruction of `ITT EQ`, the next instruction is the second of the block,
with IT state `0x08`; the emitted code leaves IT state zero, in both host paths and for every value and state. -/
theorem msrWriteE_drops_it_state (fastBMI2 writeNzcvq writeG : Bool) (value : BitVec 32) (s : A32JitState) :
    ((itBlockLocation.advancePC 4).advanceIT).cpsr.it = ⟨0x08⟩ ∧
      (⟨(msrWriteE fastBMI2 false writeNzcvq writeG itBlockLocation value s).cpsr⟩ : PSR).it = ⟨0⟩ :=
  ⟨by decide, it_cpsr_msrWriteE fastBMI2 false writeNzcvq writeG itBlockLocation value s⟩

end Backend.X64
end Dynarmic
