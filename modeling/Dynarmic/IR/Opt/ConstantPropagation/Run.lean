import Dynarmic.IR.Opt.ConstantPropagation.Shift

/-!
# `ConstantPropagation` keeps what the block computes

The switch of `ConstantPropagation` folds each instruction by its opcode (`foldInst`), and every fold is sound
(`foldInst_sound`): it changes only the instruction it folds, and keeps its value. The pass folds the list in order
(`constantPropagation`, a left fold of `foldInst`); after a front `pre` of the list, the instructions of `pre` have the
values they have in the block the pass started from and the others still have their code (`Walked`). Over the whole list,
every instruction keeps its value (`constantPropagation_run`).

The run is the one of `Block.run` from inputs `σ`, and the theorem has four preconditions on it: every instruction of the
list has a value (the block is well typed for the run); no instruction reads side results (the carry, overflow and flags
pseudo-operations, which read an outcome this model gives only to some opcodes); no addition has its carry in set, since
`FoldAdd` drops the carry when it folds `Add(Add(x, i, c₁), j, c)` with `j + i + c₁ = 0` to `x`; and no signed 64-bit
division divides `INT64_MIN` by `-1`, the one pair on which the C++ fold traps. Under them the pass as the C++ runs it
(`constantPropagationChecked`) reaches its end.
-/

namespace Dynarmic.Optimization

namespace ConstantPropagation

open Dynarmic.IR

/-! ### One instruction -/

section Fold

variable {b : Block} {pre post : List InstRef} {inst : InstRef} {σ : InstRef → Outcome}
  (hnd : b.instructions.Nodup) (hb : b.ArgsEarlier) (hL : b.instructions = pre ++ inst :: post)
include hnd hb hL

/-- The fold of the switch, for every opcode: sound, given no readers of side results and, for an addition, a clear carry
in. -/
theorem foldInst_sound (hreaders : ∀ r ∈ b.instructions, (b.pool r).op.readsSideResults = false)
    (hcarry : (b.pool inst).op = .add32 ∨ (b.pool inst).op = .add64 → b.argValue σ (arg b inst 2) ≠ some (.u1 true)) :
    Sound σ b (foldInst b inst) pre inst := by
  unfold foldInst
  split
  next heq =>
    exact foldLeastSignificantWord_sound hnd hb hL heq
  next heq =>
    exact foldMostSignificantWord_sound hnd hb hL heq hreaders
  next heq =>
    exact foldLeastSignificantHalf_sound hnd hb hL heq
  next heq =>
    exact foldLeastSignificantByte_sound hnd hb hL heq
  next heq =>
    exact foldMostSignificantBit_sound hnd hb hL heq
  next heq =>
    exact foldIsZero32_sound hnd hb hL heq
  next heq =>
    exact foldIsZero64_sound hnd hb hL heq
  next heq =>
    exact foldShiftWith_sound hnd hb hL heq computesShift_lsl32 rfl rfl (by decide) hreaders fun _ _ _ h0 h1 => by
      rw [getU32_of_resolve h0, getU8_of_resolve h1]
  next heq =>
    exact foldShiftWith_sound hnd hb hL heq computesShift_lsl64 rfl rfl (by decide) hreaders fun _ _ _ h0 h1 => by
      rw [getU64_of_resolve h0, getU8_of_resolve h1]
  next heq =>
    exact foldShiftWith_sound hnd hb hL heq computesShift_lsr32 rfl rfl (by decide) hreaders fun _ _ _ h0 h1 => by
      rw [getU32_of_resolve h0, getU8_of_resolve h1]
  next heq =>
    exact foldShiftWith_sound hnd hb hL heq computesShift_lsr64 rfl rfl (by decide) hreaders fun _ _ _ h0 h1 => by
      rw [getU64_of_resolve h0, getU8_of_resolve h1]
  next heq =>
    exact foldShiftWith_sound hnd hb hL heq computesShift_asr32 rfl rfl (by decide) hreaders fun _ _ _ h0 h1 => by
      rw [getU32_of_resolve h0, getU8_of_resolve h1]
  next heq =>
    exact foldShiftWith_sound hnd hb hL heq computesShift_asr64 rfl rfl (by decide) hreaders fun _ _ _ h0 h1 => by
      rw [getU64_of_resolve h0, getU8_of_resolve h1]
  next heq =>
    exact foldShiftWith_sound hnd hb hL heq computesShift_ror32 rfl rfl (by decide) hreaders fun _ _ _ h0 h1 => by
      rw [getU32_of_resolve h0, getU8_of_resolve h1, rotateRight_eq]
  next heq =>
    exact foldShiftWith_sound hnd hb hL heq computesShift_ror64 rfl rfl (by decide) hreaders fun _ _ _ h0 h1 => by
      rw [getU64_of_resolve h0, getU8_of_resolve h1, rotateRight_eq]
  next heq =>
    dsimp only
    exact foldAllImmediates_sound hnd hb hL heq computesBinary_lslMasked32 rfl rfl (by decide) fun _ _ h0 h1 => by
      rw [getU32_of_resolve h0, getU32_of_resolve h1]
  next heq =>
    dsimp only
    exact foldAllImmediates_sound hnd hb hL heq computesBinary_lslMasked64 rfl rfl (by decide) fun _ _ h0 h1 => by
      rw [getU64_of_resolve h0, getU64_of_resolve h1]
  next heq =>
    dsimp only
    exact foldAllImmediates_sound hnd hb hL heq computesBinary_lsrMasked32 rfl rfl (by decide) fun _ _ h0 h1 => by
      rw [getU32_of_resolve h0, getU32_of_resolve h1]
  next heq =>
    dsimp only
    exact foldAllImmediates_sound hnd hb hL heq computesBinary_lsrMasked64 rfl rfl (by decide) fun _ _ h0 h1 => by
      rw [getU64_of_resolve h0, getU64_of_resolve h1]
  next heq =>
    dsimp only
    exact foldAllImmediates_sound hnd hb hL heq computesBinary_asrMasked32 rfl rfl (by decide) fun _ _ h0 h1 => by
      rw [getU32_of_resolve h0, getU32_of_resolve h1]
  next heq =>
    dsimp only
    exact foldAllImmediates_sound hnd hb hL heq computesBinary_asrMasked64 rfl rfl (by decide) fun _ _ h0 h1 => by
      rw [getU64_of_resolve h0, getU64_of_resolve h1]
  next heq =>
    dsimp only
    exact foldAllImmediates_sound hnd hb hL heq computesBinary_rorMasked32 rfl rfl (by decide) fun _ _ h0 h1 => by
      rw [getU32_of_resolve h0, getU32_of_resolve h1, rotateRight_eq]
  next heq =>
    dsimp only
    exact foldAllImmediates_sound hnd hb hL heq computesBinary_rorMasked64 rfl rfl (by decide) fun _ _ h0 h1 => by
      rw [getU64_of_resolve h0, getU64_of_resolve h1, rotateRight_eq]
  next heq =>
    exact foldAdd_sound hnd hb hL heq (hcarry (.inl heq))
  next heq =>
    exact foldAdd_sound hnd hb hL heq (hcarry (.inr heq))
  next heq =>
    exact foldSub_sound hnd hb hL heq
  next heq =>
    exact foldSub_sound hnd hb hL heq
  next heq =>
    exact foldMultiply_sound hnd hb hL heq
  next heq =>
    exact foldMultiply_sound hnd hb hL heq
  next heq =>
    exact foldDivide_sound hnd hb hL heq
  next heq =>
    exact foldDivide_sound hnd hb hL heq
  next heq =>
    exact foldDivide_sound hnd hb hL heq
  next heq =>
    exact foldDivide_sound hnd hb hL heq
  next heq =>
    exact foldAND_sound hnd hb hL heq
  next heq =>
    exact foldAND_sound hnd hb hL heq
  next heq =>
    exact foldEOR_sound hnd hb hL heq
  next heq =>
    exact foldEOR_sound hnd hb hL heq
  next heq =>
    exact foldOR_sound hnd hb hL heq
  next heq =>
    exact foldOR_sound hnd hb hL heq
  next heq =>
    exact foldNOT_sound hnd hb hL heq
  next heq =>
    exact foldNOT_sound hnd hb hL heq
  next heq =>
    exact foldSignExtendXToWord_sound hnd hb hL (.inl heq)
  next heq =>
    exact foldSignExtendXToWord_sound hnd hb hL (.inr heq)
  next heq =>
    exact foldSignExtendXToLong_sound hnd hb hL (.inl heq)
  next heq =>
    exact foldSignExtendXToLong_sound hnd hb hL (.inr (.inl heq))
  next heq =>
    exact foldSignExtendXToLong_sound hnd hb hL (.inr (.inr heq))
  next heq =>
    exact foldZeroExtendXToWord_sound hnd hb hL (.inl heq)
  next heq =>
    exact foldZeroExtendXToWord_sound hnd hb hL (.inr heq)
  next heq =>
    exact foldZeroExtendXToLong_sound hnd hb hL (.inl heq)
  next heq =>
    exact foldZeroExtendXToLong_sound hnd hb hL (.inr (.inl heq))
  next heq =>
    exact foldZeroExtendXToLong_sound hnd hb hL (.inr (.inr heq))
  next heq =>
    exact foldByteReverse_sound hnd hb hL heq (.inl rfl)
  next heq =>
    exact foldByteReverse_sound hnd hb hL heq (.inr (.inl rfl))
  next heq =>
    exact foldByteReverse_sound hnd hb hL heq (.inr (.inr rfl))
  next => exact Sound.refl hb hL

end Fold

/-! ### The walk over the list -/

/-- The pass over `B` after the front `pre` of its list: the block keeps the list, its arguments refer to earlier
instructions, nothing in it reads side results, the instructions after `pre` have their code of `B`, and those of `pre`
their values in the run of `B` from `σ`. -/
structure Walked (σ : InstRef → Outcome) (B : Block) (pre : List InstRef) (b : Block) : Prop where
  instructions : b.instructions = B.instructions
  argsEarlier : b.ArgsEarlier
  readers : ∀ r ∈ b.instructions, (b.pool r).op.readsSideResults = false
  unvisited : ∀ r ∈ B.instructions, r ∉ pre → (b.pool r).op = (B.pool r).op ∧ (b.pool r).args = (B.pool r).args
  values : ∀ r ∈ pre, b.valueOf σ r = B.valueOf σ r

section Walk

variable {σ : InstRef → Outcome} {B : Block} (hnd : B.instructions.Nodup) (hb : B.ArgsEarlier)
  (hreaders : ∀ r ∈ B.instructions, (B.pool r).op.readsSideResults = false)
  (hdef : ∀ r ∈ B.instructions, (B.valueOf σ r).isSome)
  (hcarry : ∀ r ∈ B.instructions, (B.pool r).op = .add32 ∨ (B.pool r).op = .add64 →
    B.argValue σ ((B.pool r).args 2) ≠ some (.u1 true))
  (hdiv : ∀ r ∈ B.instructions, (B.pool r).op = .signedDiv64 → ∀ x y, B.argValue σ ((B.pool r).args 0) = some (.u64 x) →
    B.argValue σ ((B.pool r).args 1) = some (.u64 y) → ¬(x = BitVec.intMin 64 ∧ y = -1))

include hb hreaders in
/-- Before the walk, the block has its own values. -/
theorem walked_start : Walked σ B [] B where
  instructions := rfl
  argsEarlier := hb
  readers := hreaders
  unvisited _ _ _ := ⟨rfl, rfl⟩
  values _ h := absurd h List.not_mem_nil

include hnd in
/-- The instruction the walk reaches next is not in the part already walked. -/
theorem not_mem_pre {pre post : List InstRef} {inst : InstRef} (hL : B.instructions = pre ++ inst :: post) :
    inst ∉ pre := by
  have hnd' := hnd
  rw [hL, List.nodup_append] at hnd'
  exact fun h => hnd'.2.2 inst h inst List.mem_cons_self rfl

include hb in
/-- Before its fold, an argument of the instruction the walk reaches has its value of `B`: it refers into the part already
walked. -/
theorem Walked.argValue_eq {pre post : List InstRef} {inst : InstRef} (hL : B.instructions = pre ++ inst :: post)
    (hpre : inst ∉ pre) {b : Block} (h : Walked σ B pre b) (k : Fin 4) :
    b.argValue σ (arg b inst k) = B.argValue σ ((B.pool inst).args k) := by
  rw [arg, (h.unvisited inst (by simp [hL]) hpre).2, Block.argValue_congr fun t ht => h.values t (hb.mem_of_arg hL ht)]

include hnd hb hreaders hdef hcarry

/-- One fold keeps the invariant, one instruction further: before its fold the instruction has its code of `B`, so its
value in `B`, which the fold keeps. -/
theorem Walked.step {pre post : List InstRef} {inst : InstRef} (hL : B.instructions = pre ++ inst :: post) {b : Block}
    (h : Walked σ B pre b) : Walked σ B (pre ++ [inst]) (foldInst b inst) := by
  have hinst : inst ∈ B.instructions := by simp [hL]
  have hnotpre := not_mem_pre hnd hL
  have hL' : b.instructions = pre ++ inst :: post := h.instructions.trans hL
  have hnd' : b.instructions.Nodup := h.instructions ▸ hnd
  obtain ⟨hop, hargs⟩ := h.unvisited inst hinst hnotpre
  have hval : b.valueOf σ inst = B.valueOf σ inst :=
    Block.valueOf_eq_of_same hnd hb h.instructions h.argsEarlier σ hL hop hargs (hreaders inst hinst) h.values
  have hcarry' : (b.pool inst).op = .add32 ∨ (b.pool inst).op = .add64 →
      b.argValue σ (arg b inst 2) ≠ some (.u1 true) := by
    rw [hop, h.argValue_eq hb hL hnotpre]
    exact hcarry inst hinst
  have hsound := foldInst_sound hnd' h.argsEarlier hL' h.readers hcarry'
  have hch := hsound.changes
  refine ⟨hch.instructions.trans h.instructions, hch.argsEarlier hnd' h.argsEarlier hL', fun r hr => ?_,
    fun r hr hrpre => ?_, fun r hr => ?_⟩
  · -- the folded instruction has its own opcode or `Identity`
    rw [hch.instructions] at hr
    by_cases hri : r = inst
    · subst hri
      rcases hch.op with hsame | hid
      · rw [hsame]
        exact h.readers _ hr
      · rw [hid]
        rfl
    · rw [(hch.frame r hr hri).1]
      exact h.readers r hr
  · have hri : r ≠ inst := fun e => hrpre (by simp [e])
    rw [(hch.frame r (h.instructions ▸ hr) hri).1, (hch.frame r (h.instructions ▸ hr) hri).2]
    exact h.unvisited r hr fun e => hrpre (List.mem_append_left _ e)
  · rcases List.mem_append.mp hr with hr | hr
    · rw [Block.valueOf, hch.run_of_mem_pre hnd' h.argsEarlier hL' σ hr, ← Block.valueOf, h.values r hr]
    · -- the folded instruction: its value in `B` exists, and the fold keeps it
      rw [List.mem_singleton.mp hr]
      obtain ⟨x, hx⟩ := Option.isSome_iff_exists.mp (hdef inst hinst)
      rw [hsound.value x (hval.trans hx), hx]

omit hcarry in
include hdiv in
/-- The fold of the instruction the walk reaches does not trap: a signed division has its operands' values of `B`, which
are not `INT64_MIN` and `-1`. -/
theorem Walked.foldInstTraps_eq_false {pre post : List InstRef} {inst : InstRef}
    (hL : B.instructions = pre ++ inst :: post) {b : Block} (h : Walked σ B pre b) : foldInstTraps b inst = false := by
  have hinst : inst ∈ B.instructions := by simp [hL]
  have hnotpre := not_mem_pre hnd hL
  have hL' : b.instructions = pre ++ inst :: post := h.instructions.trans hL
  have hnd' : b.instructions.Nodup := h.instructions ▸ hnd
  obtain ⟨hop, hargs⟩ := h.unvisited inst hinst hnotpre
  have hval : b.valueOf σ inst = B.valueOf σ inst :=
    Block.valueOf_eq_of_same hnd hb h.instructions h.argsEarlier σ hL hop hargs (hreaders inst hinst) h.values
  obtain ⟨x, hx⟩ := Option.isSome_iff_exists.mp (hdef inst hinst)
  unfold foldInstTraps
  split
  next heq =>
    exact foldDivideTraps_eq_false hnd' h.argsEarlier hL' true heq (hval.trans hx) nofun
  next heq =>
    refine foldDivideTraps_eq_false hnd' h.argsEarlier hL' false heq (hval.trans hx) fun _ y0 y1 h0 h1 => ?_
    rw [h.argValue_eq hb hL hnotpre] at h0 h1
    exact hdiv inst hinst (hop ▸ heq) y0 y1 h0 h1
  next => rfl

include hdiv in
/-- `ConstantPropagation` runs to its end, with no fold trapping, and keeps the value of every instruction of the list, in
a run from `σ` where every instruction has a value, nothing reads side results, no addition has its carry in set, and no
signed 64-bit division divides `INT64_MIN` by `-1`. -/
theorem constantPropagation_run :
    constantPropagationChecked B = some (constantPropagation B) ∧
      ∀ r ∈ B.instructions, (constantPropagation B).valueOf σ r = B.valueOf σ r := by
  constructor
  · refine Run.foldlM_eq_some_of_invariant_prefix (Walked σ B) B.instructions (fun _ _ _ _ hL h => ⟨?_, ?_⟩)
      (walked_start hb hreaders)
    · rw [h.foldInstTraps_eq_false hnd hb hreaders hdef hdiv hL, if_neg Bool.false_ne_true]
    · exact h.step hnd hb hreaders hdef hcarry hL
  · exact (Run.foldl_invariant_prefix (Walked σ B) B.instructions
      (fun _ _ _ _ hL h => h.step hnd hb hreaders hdef hcarry hL) (walked_start hb hreaders)).values

end Walk

end ConstantPropagation

open Dynarmic.IR

/-- The bound of register X0. -/
theorem zero_lt_thirtyTwo : 0 < 32 := Nat.zero_lt_succ 31

/-- The bound of register X1. -/
theorem one_lt_thirtyTwo : 1 < 32 := Nat.one_lt_succ_succ 30

/-- `mov x1, x0; add x1, x1, #1; add x1, x1, #2; and x1, x1, #-1` as one block: `Add64(Add64(X0, #1, #0), #2, #0)`, and of
it with all ones, written to X1. -/
def reassociateBlock : Block where
  pool r :=
    [mkInst .a64GetX 1 [.a64Reg ⟨0, zero_lt_thirtyTwo⟩],
      mkInst .add64 1 [.inst 0, .u64 1, .u1 false],
      mkInst .add64 1 [.inst 1, .u64 2, .u1 false],
      mkInst .and64 1 [.inst 2, .u64 (BitVec.allOnes 64)],
      mkInst .a64SetX 0 [.a64Reg ⟨1, one_lt_thirtyTwo⟩, .inst 3]].getD r (Inst.new .void)
  instructions := [0, 1, 2, 3, 4]

/-- X0 holds 5. -/
def reassociateInputs : InstRef → Outcome :=
  fun _ => .plain (.u64 5)

/-- On `reassociateBlock` the pass re-associates the additions to `Add64(X0, #3, #0)` and folds the `AND` away. -/
theorem constantPropagation_run_reassociate :
    reassociateBlock.instructions.Nodup ∧ reassociateBlock.ArgsEarlier ∧
      (∀ r ∈ reassociateBlock.instructions, (reassociateBlock.pool r).op.readsSideResults = false) ∧
      (∀ r ∈ reassociateBlock.instructions, (reassociateBlock.valueOf reassociateInputs r).isSome) ∧
      (∀ r ∈ reassociateBlock.instructions, (reassociateBlock.pool r).op = .add32 ∨
        (reassociateBlock.pool r).op = .add64 →
          reassociateBlock.argValue reassociateInputs ((reassociateBlock.pool r).args 2) ≠ some (.u1 true)) ∧
      (∀ r ∈ reassociateBlock.instructions, (reassociateBlock.pool r).op = .signedDiv64 → ∀ x y,
        reassociateBlock.argValue reassociateInputs ((reassociateBlock.pool r).args 0) = some (.u64 x) →
          reassociateBlock.argValue reassociateInputs ((reassociateBlock.pool r).args 1) = some (.u64 y) →
            ¬(x = BitVec.intMin 64 ∧ y = -1)) ∧
      constantPropagationChecked reassociateBlock = some (constantPropagation reassociateBlock) ∧
      ∀ r ∈ reassociateBlock.instructions,
        (constantPropagation reassociateBlock).valueOf reassociateInputs r = reassociateBlock.valueOf reassociateInputs r :=
  have hnd : reassociateBlock.instructions.Nodup := by decide
  have hb : reassociateBlock.ArgsEarlier := by decide
  have hreaders : ∀ r ∈ reassociateBlock.instructions, (reassociateBlock.pool r).op.readsSideResults = false := by
    decide
  have hdef : ∀ r ∈ reassociateBlock.instructions, (reassociateBlock.valueOf reassociateInputs r).isSome := by decide
  have hcarry : ∀ r ∈ reassociateBlock.instructions, (reassociateBlock.pool r).op = .add32 ∨
      (reassociateBlock.pool r).op = .add64 →
        reassociateBlock.argValue reassociateInputs ((reassociateBlock.pool r).args 2) ≠ some (.u1 true) := by
    decide
  have hnodiv : ∀ r ∈ reassociateBlock.instructions, (reassociateBlock.pool r).op ≠ .signedDiv64 := by decide
  have hdiv : ∀ r ∈ reassociateBlock.instructions, (reassociateBlock.pool r).op = .signedDiv64 → ∀ x y,
      reassociateBlock.argValue reassociateInputs ((reassociateBlock.pool r).args 0) = some (.u64 x) →
        reassociateBlock.argValue reassociateInputs ((reassociateBlock.pool r).args 1) = some (.u64 y) →
          ¬(x = BitVec.intMin 64 ∧ y = -1) :=
    fun r hr hop => absurd hop (hnodiv r hr)
  ⟨hnd, hb, hreaders, hdef, hcarry, hdiv, ConstantPropagation.constantPropagation_run hnd hb hreaders hdef hcarry hdiv⟩

end Dynarmic.Optimization
