import Dynarmic.IR.Opt.A32GetSetElimination.Registers

/-!
# `A32GetSetElimination` keeps the meaning of a block

The pass runs `FlagsPass` and then `RegisterPass` over the block `FlagsPass` leaves. That block holds the instructions
of the original with their code, and flag edits that are no inputs and touch no register; so what `RegisterPass` asks of
its block carries over from the original, and the two results compose.
-/

namespace Dynarmic.IR

/-- The opcodes `FlagsPass` leaves at its edits. -/
theorem Opcode.eq_of_isFlagsEdit {op : Opcode} (h : op.isFlagsEdit = true) :
    op = .void ∨ op = .identity ∨ op = .getCFlagFromNZCV ∨ op = .a32SetCpsrNZ ∨ op = .a32SetCpsrNZC := by
  unfold Opcode.isFlagsEdit at h
  split at h <;> simp_all

/-- A flag edit reads and writes no core register. -/
theorem Opcode.isFlagsEdit_eq_false_of_register {op : Opcode}
    (h : (op.readsFromCoreRegister || op.writesToCoreRegister) = true) : op.isFlagsEdit = false := by
  cases hfe : op.isFlagsEdit
  · rfl
  · rcases Opcode.eq_of_isFlagsEdit hfe with rfl | rfl | rfl | rfl | rfl <;> exact absurd h (by decide)

/-- A flag edit is no input of the block and sets no whole CPSR, so the open opcodes never meet one. -/
theorem Opcode.isFlagsEdit_eq_false_of_input {op : Opcode} (h : op.isInput = true ∨ op = .a32SetCpsr) :
    op.isFlagsEdit = false := by
  cases hfe : op.isFlagsEdit
  · rfl
  · rcases Opcode.eq_of_isFlagsEdit hfe with rfl | rfl | rfl | rfl | rfl <;> exact absurd h (by decide)

end Dynarmic.IR

namespace Dynarmic.Optimization.A32GetSetElimination

open Dynarmic.IR

/-- With no open opcode to run, every block respects the opcode table. -/
theorem extRespectsTable_noOpenA32Opcodes (b : Block) : ExtRespectsTable noOpenA32Opcodes b where
  flags_eq _ _ _ _ _ := rfl
  of_registers_eq _ _ _ _ _ _ h := ⟨rfl, h⟩
  registers_eq _ _ _ _ _ := rfl
  of_flags_eq _ _ _ _ _ _ h := ⟨rfl, h⟩

section Pass

variable {ext : InstRef → A32Context → A32Context × Outcome} {B : Block} {c0 : A32Context}
  (hb : B.ArgsEarlier) (hndB : B.instructions.Nodup)
  (hdef : ∀ r ∈ B.instructions, (B.execA32 ext c0).2 r ≠ none)
  (hmarker : ∀ r ∈ B.instructions, (B.pool r).op = .a32SetCpsrNZC → (B.pool r).args 0 ≠ .nzcvMarker)
  (hkept : CarryKept B) (hext : ExtRespectsTable ext B)
include hb hndB hdef hmarker hkept hext

/-- An instruction of the block `FlagsPass` leaves whose opcode is no flag edit is an instruction of the original
block, with its opcode and its arguments. -/
theorem flagsPass_original {r : InstRef} (hr : r ∈ (flagsPass B).instructions)
    (hop : ((flagsPass B).pool r).op.isFlagsEdit = false) :
    r ∈ B.instructions ∧ ((flagsPass B).pool r).op = (B.pool r).op ∧ ((flagsPass B).pool r).args = (B.pool r).args := by
  rcases (flagsPass_shape hb hndB hdef hmarker hkept hext).2.2.2 r hr with ⟨hmem, hcode⟩ | hfe
  · exact ⟨hmem, congrArg Prod.fst hcode, congrArg Prod.snd hcode⟩
  · exact absurd (hop.symm.trans hfe) Bool.false_ne_true

/-- Every instruction of the block `FlagsPass` leaves that reads or writes a core register has an outcome. -/
theorem flagsPass_defined : ∀ r ∈ (flagsPass B).instructions,
    (((flagsPass B).pool r).op.readsFromCoreRegister || ((flagsPass B).pool r).op.writesToCoreRegister) = true →
      ((flagsPass B).execA32 ext c0).2 r ≠ none := by
  intro r hr hreg
  obtain ⟨hmem, -, -⟩ := flagsPass_original hb hndB hdef hmarker hkept hext hr
    (Opcode.isFlagsEdit_eq_false_of_register hreg)
  rw [(flagsPass_execA32 hb hndB hdef hmarker hkept hext).2 r hmem]
  exact hdef r hmem

/-- The getters of the block `FlagsPass` leaves are those of the original, so none reads the PC. -/
theorem flagsPass_noPCGetter (hpc : NoPCGetter B) : NoPCGetter (flagsPass B) := by
  intro r hr hop
  obtain ⟨hmem, hop', hargs⟩ := flagsPass_original hb hndB hdef hmarker hkept hext hr
    (Opcode.isFlagsEdit_eq_false_of_register (by rw [hop]; rfl))
  rw [hargs]
  exact hpc r hmem (hop' ▸ hop)

/-- The vector getters and setters of the block `FlagsPass` leaves are those of the original, so each names a D or Q
register. -/
theorem flagsPass_vectorsWide (hwide : VectorsWide B) : VectorsWide (flagsPass B) := by
  intro r hr e h0 hop
  have hreg : (((flagsPass B).pool r).op.readsFromCoreRegister ||
      ((flagsPass B).pool r).op.writesToCoreRegister) = true := by
    rcases hop with hop | hop <;> rw [hop] <;> rfl
  obtain ⟨hmem, hop', hargs⟩ := flagsPass_original hb hndB hdef hmarker hkept hext hr
    (Opcode.isFlagsEdit_eq_false_of_register hreg)
  rw [hop'] at hop
  exact hwide r hmem e (hargs ▸ h0) hop

/-- The open opcodes of the block `FlagsPass` leaves are those of the original, so they respect the table. -/
theorem flagsPass_extRespectsTable : ExtRespectsTable ext (flagsPass B) :=
  hext.of_ops fun _ hr hin =>
    (flagsPass_original hb hndB hdef hmarker hkept hext hr (Opcode.isFlagsEdit_eq_false_of_input hin)).imp_right
      And.left

/-- `A32GetSetElimination` keeps the meaning of every block in which no instruction between a `GetCFlag` and the
`SetCpsrNZC` that writes its carry back writes C, as the A32 frontend emits them: the pass succeeds, and from the same
context the block it returns ends in the context the original ends in and gives every instruction of the original the
outcome it had. -/
theorem a32GetSetElimination_execA32 (hpc : NoPCGetter B) (hwide : VectorsWide B) :
    ∃ B', a32GetSetElimination B = some B' ∧ (B'.execA32 ext c0).1 = (B.execA32 ext c0).1 ∧
      ∀ r ∈ B.instructions, (B'.execA32 ext c0).2 r = (B.execA32 ext c0).2 r := by
  obtain ⟨hnd₁, hb₁, hcover, -⟩ := flagsPass_shape hb hndB hdef hmarker hkept hext
  obtain ⟨hctx, hout⟩ := flagsPass_execA32 hb hndB hdef hmarker hkept hext
  obtain ⟨B', hpass, hctx', hout'⟩ := registerPass_execA32 hb₁ hnd₁
    (flagsPass_defined hb hndB hdef hmarker hkept hext) (flagsPass_noPCGetter hb hndB hdef hmarker hkept hext hpc)
    (flagsPass_vectorsWide hb hndB hdef hmarker hkept hext hwide) (flagsPass_extRespectsTable hb hndB hdef hmarker hkept hext)
  refine ⟨B', hpass, hctx'.trans hctx, fun r hr => ?_⟩
  rw [hout' r (hcover r hr), hout r hr]

end Pass

/-- `movs r2, r1` followed by a read of R2: `GetRegister R1; GetCFlag; SetRegister R2; GetNZFromOp; SetCpsrNZC(nz, that
carry); GetRegister R2`. -/
def movsBlock : Block where
  pool r :=
    [{ mkInst .a32GetRegister 3 [.a32Reg ⟨1, one_lt_sixteen⟩] with nextPseudoop := some 3 },
      mkInst .a32GetCFlag 1 [],
      mkInst .a32SetRegister 0 [.a32Reg ⟨2, two_lt_sixteen⟩, .inst 0],
      mkInst .getNZFromOp 1 [.inst 0],
      mkInst .a32SetCpsrNZC 0 [.inst 3, .inst 1],
      mkInst .a32GetRegister 0 [.a32Reg ⟨2, two_lt_sixteen⟩]].getD r (Inst.new .void)
  instructions := [0, 1, 2, 3, 4, 5]

/-- On a `movs` block and the read after it, with no open opcode and from the context of zeros, the pass keeps the final
context and every value. -/
theorem a32GetSetElimination_execA32_movs :
    ∃ B', a32GetSetElimination movsBlock = some B' ∧
      (B'.execA32 noOpenA32Opcodes zeroA32Context).1 = (movsBlock.execA32 noOpenA32Opcodes zeroA32Context).1 ∧
      ∀ r ∈ movsBlock.instructions,
        (B'.execA32 noOpenA32Opcodes zeroA32Context).2 r = (movsBlock.execA32 noOpenA32Opcodes zeroA32Context).2 r :=
  a32GetSetElimination_execA32 (by decide) (by decide) (by decide) (by decide) (by decide)
    (extRespectsTable_noOpenA32Opcodes movsBlock) (by decide) (by decide)

end Dynarmic.Optimization.A32GetSetElimination
