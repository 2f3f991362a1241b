import Dynarmic.IR.Opt.ConstantPropagation.Binary

/-!
# The folds of shifts

`FoldShifts` and the cases of the switch that fold a shift through it, and the masked shifts, which fold when every
argument is immediate, proved to keep the value of the instruction they fold (`Sound`).

A shift of width 32 reads a carry in that its value ignores: the carry in becomes the carry out of a shift by zero, and
that is read by the carry pseudo-operation, which lies outside a list that has no readers of side results. So clearing the
carry in, and folding the pseudo-operation, keep what the list computes.
-/

namespace Dynarmic.Optimization

namespace ConstantPropagation

open Dynarmic.IR

/-! ### Shifts of a width -/

/-- `rotate_right` is the rotation of `BitVec`. -/
theorem rotateRight_eq (x : BitVec w) (n : Nat) : Mcl.Bit.rotateRight x n = x.rotateRight n := by
  simp only [Mcl.Bit.rotateRight, BitVec.rotateRight, BitVec.rotateRightAux]
  split
  · rename_i h
    rw [h]
    simp
  · rfl

/-- Whether a shift has a carry in to read: one of width 32 reads a boolean, one of width 64 has none. -/
def carryInDefined (is32Bit : Bool) (o2 : Option Val) : Bool :=
  !is32Bit || (o2.bind Val.asU1).isSome

/-- The value a shift of `is32Bit` width computes with `sh` from the values of its operand, its amount and its carry
in. -/
def shiftValue (is32Bit : Bool) (sh : BitVec 64 → Nat → BitVec 64) (o0 o1 o2 : Option Val) : Option Val :=
  (o0.bind (operand is32Bit)).bind fun x => (o1.bind Val.asU8).bind fun n =>
    if carryInDefined is32Bit o2 then some (immVal is32Bit (sh x n.toNat)) else none

/-- A shift fold has a value exactly when the operand is an immediate of the width, the amount a byte and the carry
defined, and the value is the shift. -/
theorem shiftValue_eq_some {is32Bit : Bool} {sh : BitVec 64 → Nat → BitVec 64} {o0 o1 o2 : Option Val} {x : Val} :
    shiftValue is32Bit sh o0 o1 o2 = some x ↔
      ∃ a n, o0.bind (operand is32Bit) = some a ∧ o1 = some (.u8 n) ∧ carryInDefined is32Bit o2 = true ∧
        immVal is32Bit (sh a n.toNat) = x := by
  simp only [shiftValue, Option.bind_eq_some_iff, Val.asU8_eq_some]
  constructor
  · rintro ⟨a, h0, n, ⟨y, h1, rfl⟩, h⟩
    split at h
    · exact ⟨a, n, h0, h1, ‹_›, Option.some.inj h⟩
    · exact absurd h (by simp)
  · rintro ⟨a, n, h0, h1, hc, rfl⟩
    exact ⟨a, h0, n, ⟨_, h1, rfl⟩, by rw [if_pos hc]⟩

/-- A shift of `is32Bit` width computing `sh`, which shifts by zero to the operand. -/
structure ComputesShift (op : Opcode) (is32Bit : Bool) (sh : BitVec 64 → Nat → BitVec 64) : Prop where
  value : ∀ vals : Fin 4 → Option Val, opValue op vals = shiftValue is32Bit sh (vals 0) (vals 1) (vals 2)
  zero : ∀ x, immVal is32Bit (sh x 0) = immVal is32Bit x

/-- A 32-bit shift opcode that computes `g` computes its widening when a shift by zero is the identity. -/
theorem computesShift_of_shift32 {op : Opcode} {g : BitVec 32 → Nat → BitVec 32} {carryOut : BitVec 32 → Nat → Bool}
    (hop : ∀ a, evalOp a op = (argU32 a 0).bind fun x => (argU8 a 1).bind fun n => (argU1 a 2).bind fun c =>
      some (shift32 g carryOut x n c))
    (hg : ∀ x, g x 0 = x) : ComputesShift op true fun x n => (g (x.setWidth 32) n).setWidth 64 where
  value vals := by
    simp only [opValue, hop, argU32, argU8, argU1, bind_map_plain, shiftValue, bind_operand_true, carryInDefined,
      Bool.not_true, Bool.false_or]
    rcases (vals 0).bind Val.asU32 with _ | x <;> rcases (vals 1).bind Val.asU8 with _ | n <;>
      rcases (vals 2).bind Val.asU1 with _ | c <;> simp only [Option.bind_none, Option.bind_some, Option.map_none,
        Option.map_some, Option.isSome_none, Option.isSome_some, Bool.false_eq_true, if_false, if_true]
    simp only [shift32, immVal, if_true, BitVec.setWidth_setWidth_of_le _ (show 32 ≤ 64 by decide), BitVec.setWidth_eq]
    split
    · rename_i h
      simp [h, hg, Outcome.plain]
    · rfl
  zero x := by
    simp [immVal, hg]

/-- A 64-bit shift opcode that computes `g` computes it when a shift by zero is the identity. -/
theorem computesShift_of_shift64 {op : Opcode} {g : BitVec 64 → Nat → BitVec 64}
    (hop : ∀ a, evalOp a op = shift64 a g) (hg : ∀ x, g x 0 = x) : ComputesShift op false g where
  value vals := by
    simp only [opValue, hop, shift64, argU64, argU8, bind_map_plain, shiftValue, bind_operand_false, carryInDefined,
      Bool.not_false, Bool.true_or, if_true]
    rcases (vals 0).bind Val.asU64 with _ | x <;> rcases (vals 1).bind Val.asU8 with _ | n <;> rfl
  zero x := by
    rw [hg]

/-- A rotation by zero keeps the value. -/
theorem rotateRight_zero (x : BitVec w) : x.rotateRight 0 = x := by
  simp [BitVec.rotateRight, BitVec.rotateRightAux]

/-- `LogicalShiftLeft32` shifts the low word left. -/
theorem computesShift_lsl32 :
    ComputesShift .logicalShiftLeft32 true fun x n => ((x.setWidth 32) <<< n).setWidth 64 :=
  computesShift_of_shift32 (fun _ => rfl) BitVec.shiftLeft_zero

/-- `LogicalShiftRight32` shifts the low word right. -/
theorem computesShift_lsr32 :
    ComputesShift .logicalShiftRight32 true fun x n => ((x.setWidth 32) >>> n).setWidth 64 :=
  computesShift_of_shift32 (fun _ => rfl) BitVec.ushiftRight_zero

/-- `ArithmeticShiftRight32` shifts the low word right with its sign. -/
theorem computesShift_asr32 :
    ComputesShift .arithmeticShiftRight32 true fun x n => ((x.setWidth 32).sshiftRight n).setWidth 64 :=
  computesShift_of_shift32 (fun _ => rfl) fun _ => BitVec.sshiftRight_zero

/-- `RotateRight32` rotates the low word. -/
theorem computesShift_ror32 :
    ComputesShift .rotateRight32 true fun x n => ((x.setWidth 32).rotateRight n).setWidth 64 :=
  computesShift_of_shift32 (fun _ => rfl) rotateRight_zero

/-- `LogicalShiftLeft64` shifts left. -/
theorem computesShift_lsl64 : ComputesShift .logicalShiftLeft64 false (· <<< ·) :=
  computesShift_of_shift64 (fun _ => rfl) BitVec.shiftLeft_zero

/-- `LogicalShiftRight64` shifts right. -/
theorem computesShift_lsr64 : ComputesShift .logicalShiftRight64 false (· >>> ·) :=
  computesShift_of_shift64 (fun _ => rfl) BitVec.ushiftRight_zero

/-- `ArithmeticShiftRight64` shifts right with the sign. -/
theorem computesShift_asr64 : ComputesShift .arithmeticShiftRight64 false BitVec.sshiftRight :=
  computesShift_of_shift64 (fun _ => rfl) fun _ => BitVec.sshiftRight_zero

/-- `RotateRight64` rotates. -/
theorem computesShift_ror64 : ComputesShift .rotateRight64 false BitVec.rotateRight :=
  computesShift_of_shift64 (fun _ => rfl) rotateRight_zero

/-- `LogicalShiftLeftMasked32` shifts the low word by the amount modulo 32. -/
theorem computesBinary_lslMasked32 : ComputesBinary .logicalShiftLeftMasked32 true
    fun x y => ((x.setWidth 32) <<< ((y.setWidth 32) &&& 0x1f)).setWidth 64 :=
  computesBinary_of_binary32 (fun _ => rfl) fun x y => by
    simp only [BitVec.setWidth_setWidth_of_le _ (show 32 ≤ 64 by decide), BitVec.setWidth_eq]

/-- `LogicalShiftRightMasked32` shifts the low word by the amount modulo 32. -/
theorem computesBinary_lsrMasked32 : ComputesBinary .logicalShiftRightMasked32 true
    fun x y => ((x.setWidth 32) >>> ((y.setWidth 32) &&& 0x1f)).setWidth 64 :=
  computesBinary_of_binary32 (fun _ => rfl) fun x y => by
    simp only [BitVec.setWidth_setWidth_of_le _ (show 32 ≤ 64 by decide), BitVec.setWidth_eq]

/-- `ArithmeticShiftRightMasked32` shifts the low word with its sign by the amount modulo 32. -/
theorem computesBinary_asrMasked32 : ComputesBinary .arithmeticShiftRightMasked32 true
    fun x y => ((x.setWidth 32).sshiftRight ((y.setWidth 32) &&& 0x1f).toNat).signExtend 64 :=
  computesBinary_of_binary32 (fun _ => rfl) fun x y => by
    simp only [setWidth_signExtend_of_le _ (show 32 ≤ 64 by decide), BitVec.signExtend_eq,
      BitVec.setWidth_setWidth_of_le _ (show 32 ≤ 64 by decide), BitVec.setWidth_eq]

/-- `RotateRightMasked32` rotates the low word. -/
theorem computesBinary_rorMasked32 : ComputesBinary .rotateRightMasked32 true
    fun x y => ((x.setWidth 32).rotateRight (y.setWidth 32).toNat).setWidth 64 :=
  computesBinary_of_binary32 (fun _ => rfl) fun x y => by
    simp only [BitVec.setWidth_setWidth_of_le _ (show 32 ≤ 64 by decide), BitVec.setWidth_eq]

/-- `LogicalShiftLeftMasked64` shifts by the amount modulo 64. -/
theorem computesBinary_lslMasked64 : ComputesBinary .logicalShiftLeftMasked64 false fun x y => x <<< (y &&& 0x3f) :=
  computesBinary_of_binary64 fun _ => rfl

/-- `LogicalShiftRightMasked64` shifts by the amount modulo 64. -/
theorem computesBinary_lsrMasked64 : ComputesBinary .logicalShiftRightMasked64 false fun x y => x >>> (y &&& 0x3f) :=
  computesBinary_of_binary64 fun _ => rfl

/-- `ArithmeticShiftRightMasked64` shifts with the sign by the amount modulo 64. -/
theorem computesBinary_asrMasked64 :
    ComputesBinary .arithmeticShiftRightMasked64 false fun x y => x.sshiftRight (y &&& 0x3f).toNat :=
  computesBinary_of_binary64 fun _ => rfl

/-- `RotateRightMasked64` rotates. -/
theorem computesBinary_rorMasked64 : ComputesBinary .rotateRightMasked64 false fun x y => x.rotateRight y.toNat :=
  computesBinary_of_binary64 fun _ => rfl

/-! ### Reading immediates -/

/-- A value that resolves to a 32-bit immediate reads as its low word. -/
theorem getU32_of_resolve {b : Block} {v : Value} {a : BitVec 64} (h : v.resolve b = (immVal true a).toValue) :
    v.getU32 b = a.setWidth 32 := by
  simp [Value.getU32, h, immVal, Val.toValue]

/-- A value that resolves to a 64-bit immediate reads as it. -/
theorem getU64_of_resolve {b : Block} {v : Value} {a : BitVec 64} (h : v.resolve b = (immVal false a).toValue) :
    v.getU64 b = a := by
  simp [Value.getU64, h, immVal, Val.toValue]

/-- A value that resolves to a byte reads as it. -/
theorem getU8_of_resolve {b : Block} {v : Value} {n : BitVec 8} (h : v.resolve b = .u8 n) : v.getU8 b = n := by
  simp [Value.getU8, h]

/-! ### The folds, on a block -/

/-- The part of `FoldShifts` after the first clearing of the carry in, on the block that leaves and with the carry
pseudo-operation read before. -/
def foldShiftsTail (b : Block) (inst : InstRef) (carryInst : Option InstRef) : Block × Bool :=
  let shiftAmount := arg b inst 1
  if shiftAmount.isZero b then
    let b := match carryInst with
      | some c => b.replaceUsesWith c (arg b inst 2)
      | none => b
    (b.replaceUsesWith inst (arg b inst 0), false)
  else
    let b :=
      if (b.pool inst).op.numArgs = 3 && shiftAmount.isImmediate b && !shiftAmount.isZero b then
        b.setArg inst 2 (.u1 false)
      else b
    (b, b.areAllArgsImmediates inst && carryInst.isNone)

/-- `FoldShifts` clears the carry-in of a shift whose carry nobody reads, and then folds. -/
theorem foldShifts_eq (b : Block) (inst : InstRef) :
    foldShifts b inst =
      foldShiftsTail (if (b.pool inst).op.numArgs = 3 && (b.getAssociatedPseudoOperation inst .getCarryFromOp).isNone
        then b.setArg inst 2 (.u1 false) else b) inst (b.getAssociatedPseudoOperation inst .getCarryFromOp) :=
  rfl

/-- When `FoldShifts` returns true, it has kept the opcode and every argument is immediate. -/
theorem foldShiftsTail_flag {b : Block} {inst : InstRef} {carryInst : Option InstRef}
    (h : (foldShiftsTail b inst carryInst).2 = true) :
    ((foldShiftsTail b inst carryInst).1.pool inst).op = (b.pool inst).op ∧
      (foldShiftsTail b inst carryInst).1.areAllArgsImmediates inst = true := by
  unfold foldShiftsTail at h ⊢
  dsimp only at h ⊢
  split at h
  · exact absurd h Bool.false_ne_true
  · rename_i hz
    rw [if_neg hz]
    dsimp only
    refine ⟨?_, ((Bool.and_eq_true _ _).mp h).1⟩
    split <;> simp only [Block.op_setArg]

/-- When `FoldShifts` folds, the opcode is kept and every argument is immediate. -/
theorem foldShifts_flag {b : Block} {inst : InstRef} (h : (foldShifts b inst).2 = true) :
    ((foldShifts b inst).1.pool inst).op = (b.pool inst).op ∧ (foldShifts b inst).1.areAllArgsImmediates inst = true := by
  rw [foldShifts_eq] at h ⊢
  obtain ⟨hop, hall⟩ := foldShiftsTail_flag h
  refine ⟨hop.trans ?_, hall⟩
  split <;> simp only [Block.op_setArg]

section Shifts

variable {b : Block} {pre post : List InstRef} {inst : InstRef} {σ : InstRef → Outcome}
  (hnd : b.instructions.Nodup) (hb : b.ArgsEarlier) (hL : b.instructions = pre ++ inst :: post)
include hnd hb hL

/-- An immediate argument of `inst` whose value gives the operand `a` ends its chain at `Value(is_32_bit, a)`. -/
theorem resolve_of_bind {k : Fin 4} (himm : (arg b inst k).isImmediate b = true) {is32Bit : Bool} {a : BitVec 64}
    (h : (b.argValue σ (arg b inst k)).bind (operand is32Bit) = some a) :
    (arg b inst k).resolve b = (immVal is32Bit a).toValue := by
  obtain ⟨y, hy, ha⟩ := Option.bind_eq_some_iff.mp h
  rw [resolve_arg hnd hb hL himm hy, immVal_of_operand ha]

/-- Folding the carry pseudo-operation `c` of `inst`, which lies outside the list, into anything, and then `inst` into its
argument `k`, which has the value `inst` had. -/
theorem Sound.replaceUsesWith_after_carry (hside : (b.pool inst).op.readsSideResults = false) {c : InstRef}
    (hc : c ∉ b.instructions) (w : Value) (k : Fin 4)
    (hval : ∀ x, b.valueOf σ inst = some x → b.argValue σ (arg b inst k) = some x) :
    Sound σ b ((b.replaceUsesWith c w).replaceUsesWith inst (arg (b.replaceUsesWith c w) inst k)) pre inst := by
  have hch := (Changes.refl hb hL).replaceUsesWith_of_not_mem hL hc w
  have hic : inst ≠ c := fun h => hc (h ▸ by simp [hL])
  have hop : ((b.replaceUsesWith c w).pool inst).op = (b.pool inst).op := by rw [Block.op_replaceUsesWith, if_neg hic]
  have hargs : ((b.replaceUsesWith c w).pool inst).args = (b.pool inst).args := by
    rw [Block.args_replaceUsesWith, if_neg hic]
  have hval₁ : (b.replaceUsesWith c w).valueOf σ inst = b.valueOf σ inst := hch.valueOf_eq hnd hb hL hop hargs hside
  obtain ⟨hnd₁, hb₁, hL₁⟩ := hch.wf hnd hb hL
  have hsound := Sound.replaceUsesWith hnd₁ hb₁ hL₁ (arg_refersInto hb₁ hL₁ k) fun x hx => by
    rw [hval₁] at hx
    rw [arg, hargs, ← arg, hch.argValue hnd hb hL σ (arg_refersInto hb hL k)]
    exact hval x hx
  exact ⟨hch.trans hsound.changes, fun x hx => hsound.value x (hval₁ ▸ hx)⟩

variable {is32Bit : Bool} {sh : BitVec 64 → Nat → BitVec 64} (hshift : ComputesShift (b.pool inst).op is32Bit sh)
  (hin : (b.pool inst).op.isInput = false) (hside : (b.pool inst).op.readsSideResults = false)
include hshift hin hside

/-- The operand, the amount and the carry in of `inst`, a shift, when it has a value. -/
theorem shiftOperands_of_valueOf {x : Val} (hx : b.valueOf σ inst = some x) :
    ∃ a n, (b.argValue σ (arg b inst 0)).bind (operand is32Bit) = some a ∧ b.argValue σ (arg b inst 1) = some (.u8 n) ∧
      carryInDefined is32Bit (b.argValue σ (arg b inst 2)) = true ∧ immVal is32Bit (sh a n.toNat) = x := by
  rw [valueOf_inst hnd hb hL hin hside, hshift.value] at hx
  exact shiftValue_eq_some.mp hx

/-- Clearing the carry in of a shift keeps its value: only a shift by zero passes the carry in on, as its carry out. -/
theorem Sound.clearCarryIn : Sound σ b (b.setArg inst 2 (.u1 false)) pre inst :=
  Sound.of_args hnd hb hL ((Changes.refl hb hL).setArg 2 rfl) (Block.op_setArg _ _ _ _ _) hin hside fun x hx => by
    obtain ⟨a, n, h0, h1, _, rfl⟩ := shiftOperands_of_valueOf hnd hb hL hshift hin hside hx
    rw [hshift.value, Block.args_setArg, if_pos rfl]
    simp only [Function.update_apply]
    exact shiftValue_eq_some.mpr ⟨a, n, h0, h1, by cases is32Bit <;> rfl, rfl⟩

/-- A shift by an amount that `IsZero` holds for has the value of its operand. -/
theorem argValue_of_isZero_amount (hz : (arg b inst 1).isZero b = true) :
    ∀ x, b.valueOf σ inst = some x → b.argValue σ (arg b inst 0) = some x := by
  intro x hx
  obtain ⟨a, n, h0, h1, _, rfl⟩ := shiftOperands_of_valueOf hnd hb hL hshift hin hside hx
  simp only [Value.isZero, Value.isUnsignedImmediate, Bool.and_eq_true, beq_iff_eq] at hz
  have hn : n = 0 := by
    have hz0 := hz.2
    rw [Value.getImmediateAsU64, resolve_arg hnd hb hL hz.1 h1] at hz0
    have h64 : (n.setWidth 64).toNat = 0 := by simpa [Val.toValue] using congrArg BitVec.toNat hz0
    have hlt := n.isLt
    rw [BitVec.toNat_setWidth, Nat.mod_eq_of_lt (by omega)] at h64
    exact BitVec.eq_of_toNat_eq h64
  obtain ⟨y, hy, hay⟩ := Option.bind_eq_some_iff.mp h0
  rw [hy, hn, show (0 : BitVec 8).toNat = 0 from rfl, hshift.zero, immVal_of_operand hay]

/-- `foldShiftsTail`, on the block after the first clearing of the carry in, with a carry pseudo-operation that lies
outside the list. -/
theorem foldShiftsTail_sound {carryInst : Option InstRef}
    (hc : ∀ c, carryInst = some c → c ∉ b.instructions) :
    Sound σ b (foldShiftsTail b inst carryInst).1 pre inst := by
  unfold foldShiftsTail
  dsimp only
  split
  · -- a zero amount: `inst` becomes its operand, after the carry pseudo-operation becomes the carry in
    rename_i hz
    have hval : ∀ x, b.valueOf σ inst = some x → b.argValue σ (arg b inst 0) = some x :=
      argValue_of_isZero_amount hnd hb hL hshift hin hside hz
    split
    · rename_i c
      exact Sound.replaceUsesWith_after_carry hnd hb hL hside (hc c rfl) _ 0 hval
    · exact Sound.replaceUsesWith hnd hb hL (arg_refersInto hb hL 0) hval
  · -- the carry in of a shift by an immediate other than zero is cleared
    split
    · exact Sound.clearCarryIn hnd hb hL hshift hin hside
    · exact Sound.refl hb hL

/-- `FoldShifts`, with the carry pseudo-operation outside a list that has no readers of side results. -/
theorem foldShifts_sound (hreaders : ∀ r ∈ b.instructions, (b.pool r).op.readsSideResults = false) :
    Sound σ b (foldShifts b inst).1 pre inst := by
  rw [foldShifts_eq]
  generalize hb₁ : (if (b.pool inst).op.numArgs = 3 && (b.getAssociatedPseudoOperation inst .getCarryFromOp).isNone
    then b.setArg inst 2 (.u1 false) else b) = b₁
  have h₁ : Sound σ b b₁ pre inst ∧ (b₁.pool inst).op = (b.pool inst).op := by
    subst hb₁
    split
    · exact ⟨Sound.clearCarryIn hnd hb hL hshift hin hside, Block.op_setArg _ _ _ _ _⟩
    · exact ⟨Sound.refl hb hL, rfl⟩
  obtain ⟨hnd₁, hb₁', hL₁⟩ := h₁.1.changes.wf hnd hb hL
  refine h₁.1.trans (foldShiftsTail_sound hnd₁ hb₁' hL₁ (h₁.2 ▸ hshift) (h₁.2 ▸ hin) (h₁.2 ▸ hside) fun c hc => ?_)
  rw [h₁.1.changes.instructions]
  exact not_mem_of_carryInst hreaders hc

end Shifts

section Switch

variable {b : Block} {pre post : List InstRef} {inst : InstRef} {σ : InstRef → Outcome}
  (hnd : b.instructions.Nodup) (hb : b.ArgsEarlier) (hL : b.instructions = pre ++ inst :: post)
include hnd hb hL

/-- A case of the switch that folds a shift through `FoldShifts`: the result it computes from the immediates is the
shift `sh` of them. -/
theorem foldShiftWith_sound {op : Opcode} (hop : (b.pool inst).op = op) {is32Bit : Bool}
    {sh : BitVec 64 → Nat → BitVec 64} (hshift : ComputesShift op is32Bit sh) (hin : op.isInput = false)
    (hside : op.readsSideResults = false) (harity : 2 ≤ op.numArgs)
    (hreaders : ∀ r ∈ b.instructions, (b.pool r).op.readsSideResults = false) {result : Block → BitVec 64}
    (hresult : ∀ b' a n, (arg b' inst 0).resolve b' = (immVal is32Bit a).toValue → (arg b' inst 1).resolve b' = .u8 n →
      result b' = sh a n.toNat) :
    Sound σ b (foldShiftWith b inst is32Bit result) pre inst := by
  rw [← hop] at hshift hin hside harity
  have h₁ : Sound σ b (foldShifts b inst).1 pre inst := foldShifts_sound hnd hb hL hshift hin hside hreaders
  have hflag : (foldShifts b inst).2 = true → ((foldShifts b inst).1.pool inst).op = (b.pool inst).op ∧
      (foldShifts b inst).1.areAllArgsImmediates inst = true := foldShifts_flag
  rw [foldShiftWith]
  split
  · -- every argument immediate and no carry pseudo-operation: the immediate result
    rename_i b₁ hfs
    rw [hfs] at h₁ hflag
    obtain ⟨hop₁, hall⟩ := hflag rfl
    obtain ⟨hnd₁, hb₁, hL₁⟩ := h₁.changes.wf hnd hb hL
    have himm : ∀ k : Fin 4, k.val < 2 → (arg b₁ inst k).isImmediate b₁ = true :=
      fun k hk => isImmediate_of_areAllArgsImmediates hall (by rw [hop₁]; omega)
    refine h₁.trans (Sound.replaceUsesWithImm hnd₁ hb₁ hL₁ fun x hx => ?_)
    obtain ⟨a, n, h0, h1, _, rfl⟩ :=
      shiftOperands_of_valueOf hnd₁ hb₁ hL₁ (hop₁ ▸ hshift) (hop₁ ▸ hin) (hop₁ ▸ hside) hx
    rw [hresult b₁ a n (resolve_of_bind hnd₁ hb₁ hL₁ (himm 0 (by decide)) h0)
      (resolve_arg hnd₁ hb₁ hL₁ (himm 1 (by decide)) h1)]
  · rename_i b₁ hfs
    rw [hfs] at h₁
    exact h₁


/-- `foldAllImmediates` of an operation of two operands: the result it computes from the immediates is `f` of them. -/
theorem foldAllImmediates_sound {op : Opcode} (hop : (b.pool inst).op = op) {is32Bit : Bool}
    {f : BitVec 64 → BitVec 64 → BitVec 64} (hbin : ComputesBinary op is32Bit f) (hin : op.isInput = false)
    (hside : op.readsSideResults = false) (harity : 2 ≤ op.numArgs) {result : Block → BitVec 64}
    (hresult : ∀ a0 a1, (arg b inst 0).resolve b = (immVal is32Bit a0).toValue →
      (arg b inst 1).resolve b = (immVal is32Bit a1).toValue → immVal is32Bit (result b) = immVal is32Bit (f a0 a1)) :
    Sound σ b (foldAllImmediates b inst is32Bit result) pre inst := by
  rw [← hop] at hbin hin hside harity
  rw [foldAllImmediates]
  split
  · rename_i hall
    have himm : ∀ k : Fin 4, k.val < 2 → (arg b inst k).isImmediate b = true :=
      fun k hk => isImmediate_of_areAllArgsImmediates hall (by omega)
    refine Sound.replaceUsesWithImm hnd hb hL fun x hx => ?_
    obtain ⟨a0, a1, h0, h1, rfl⟩ := operands_of_valueOf hnd hb hL hbin hin hside hx
    exact hresult a0 a1 (resolve_of_bind hnd hb hL (himm 0 (by decide)) h0)
      (resolve_of_bind hnd hb hL (himm 1 (by decide)) h1)
  · exact Sound.refl hb hL

end Switch

end ConstantPropagation

end Dynarmic.Optimization
