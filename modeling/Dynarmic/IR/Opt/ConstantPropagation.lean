import Dynarmic.Mcl.Bit
import Dynarmic.IR.Semantics

/-!
# `ConstantPropagation`

`ir/opt/constant_propagation_pass.cpp`. The pass walks the instruction list once, in order, and folds each instruction by
its opcode: an instruction whose arguments are all immediates becomes an `Identity` of the immediate result, an operation
with a neutral or absorbing immediate becomes an `Identity` of its other argument or of the constant, and a commutative
operation (`FoldCommutative`) or an addition (`FoldAdd`) with an immediate operand whose other operand is the same
operation with an immediate is re-associated so that the two immediates are combined. Every change goes through the
instruction's own mutations (`SetArg`, `ReplaceUsesWith`), so the def-use bookkeeping follows.

Each fold is written as the C++ computes it, reading the arguments and the immediates from the block as it stands when
the fold runs. A fold that the C++ writes as a function returning `bool` returns the block and that boolean.

`FoldAdd` re-associates `Add(Add(x, i1, c1), i2, c)` into `Add(x, i2 + i1 + c1, c)`, keeping the outer carry `c`; when the
combined immediate is zero it replaces the outer addition by `x` and so drops `c`. The theorems at the end of the module
say what that does to a block.
-/

namespace Dynarmic.Optimization

open Dynarmic.IR

/-- `Value(is_32_bit, value)`: the immediate, truncated to 32 bits for a 32-bit operation. -/
def immValue (is32Bit : Bool) (value : BitVec 64) : Value :=
  if is32Bit then .u32 (value.setWidth 32) else .u64 value

/-- The helper `ReplaceUsesWith(inst, is_32_bit, value)`. -/
def replaceUsesWithImm (b : Block) (inst : InstRef) (is32Bit : Bool) (value : BitVec 64) : Block :=
  b.replaceUsesWith inst (immValue is32Bit value)

/-- The argument `index` of an instruction as the block stands. -/
def arg (b : Block) (inst : InstRef) (index : Fin 4) : Value :=
  (b.pool inst).args index

/-- `FoldCommutative`: both operands immediate folds to the result (and stops the caller); one immediate operand whose
other operand is the same opcode with an immediate second argument is re-associated, and a left immediate is moved
right. -/
def foldCommutative (b : Block) (inst : InstRef) (is32Bit : Bool) (immFn : BitVec 64 → BitVec 64 → BitVec 64) :
    Block × Bool :=
  let lhs := arg b inst 0
  let rhs := arg b inst 1
  let isLhsImmediate := lhs.isImmediate b
  let isRhsImmediate := rhs.isImmediate b
  if isLhsImmediate && isRhsImmediate then
    (replaceUsesWithImm b inst is32Bit (immFn (lhs.getImmediateAsU64 b) (rhs.getImmediateAsU64 b)), false)
  else
    let b :=
      if isLhsImmediate && !isRhsImmediate then
        match rhs.getInstRecursive b with
        | some rhsInst =>
          if (b.pool rhsInst).op = (b.pool inst).op && (arg b rhsInst 1).isImmediate b then
            let combined := immFn (lhs.getImmediateAsU64 b) ((arg b rhsInst 1).getImmediateAsU64 b)
            (b.setArg inst 0 (arg b rhsInst 0)).setArg inst 1 (immValue is32Bit combined)
          else
            -- Normalize
            (b.setArg inst 0 rhs).setArg inst 1 lhs
        | none => b
      else b
    let b :=
      if !isLhsImmediate && isRhsImmediate then
        match lhs.getInstRecursive b with
        | some lhsInst =>
          if (b.pool lhsInst).op = (b.pool inst).op && (arg b lhsInst 1).isImmediate b then
            let combined := immFn (rhs.getImmediateAsU64 b) ((arg b lhsInst 1).getImmediateAsU64 b)
            (b.setArg inst 0 (arg b lhsInst 0)).setArg inst 1 (immValue is32Bit combined)
          else b
        | none => b
      else b
    (b, true)

/-- The tail of `FoldAdd`, after the normalisation that moves an immediate left operand to the right. -/
def foldAddNormalized (b : Block) (inst : InstRef) (is32Bit : Bool) : Block :=
  let lhs := arg b inst 0
  let rhs := arg b inst 1
  let carry := arg b inst 2
  -- `if (inst.AreAllArgsImmediates())`, the last step, reached when no earlier branch returned
  let foldImmediates (b : Block) : Block :=
    if b.areAllArgsImmediates inst then
      replaceUsesWithImm b inst is32Bit
        (lhs.getImmediateAsU64 b + rhs.getImmediateAsU64 b + (if carry.getU1 b then 1 else 0))
    else b
  if b.hasAssociatedPseudoOperation inst then b
  else if !lhs.isImmediate b && rhs.isImmediate b then
    match lhs.getInstRecursive b with
    | some lhsInst =>
      if (b.pool lhsInst).op = (b.pool inst).op && (arg b lhsInst 1).isImmediate b &&
          (arg b lhsInst 2).isImmediate b then
        let combined := rhs.getImmediateAsU64 b + (arg b lhsInst 1).getImmediateAsU64 b +
          (if (arg b lhsInst 2).getU1 b then 1 else 0)
        if combined = 0 then b.replaceUsesWith inst (arg b lhsInst 0)
        else (b.setArg inst 0 (arg b lhsInst 0)).setArg inst 1 (immValue is32Bit combined)
      else if rhs.isZero b && carry.isZero b then b.replaceUsesWith inst lhs
      else foldImmediates b
    | none => foldImmediates b
  else foldImmediates b

/-- `FoldAdd`. An immediate left operand with a non-immediate right one is swapped and the fold runs again; the second
run sees a non-immediate left operand, so it goes straight to the tail. -/
def foldAdd (b : Block) (inst : InstRef) (is32Bit : Bool) : Block :=
  let lhs := arg b inst 0
  let rhs := arg b inst 1
  if lhs.isImmediate b && !rhs.isImmediate b then
    foldAddNormalized ((b.setArg inst 0 rhs).setArg inst 1 lhs) inst is32Bit
  else foldAddNormalized b inst is32Bit

/-- `FoldAND`. -/
def foldAND (b : Block) (inst : InstRef) (is32Bit : Bool) : Block :=
  match foldCommutative b inst is32Bit (· &&& ·) with
  | (b, true) =>
    let rhs := arg b inst 1
    if rhs.isZero b then replaceUsesWithImm b inst is32Bit 0
    else if rhs.hasAllBitsSet b then b.replaceUsesWith inst (arg b inst 0)
    else b
  | (b, false) => b

/-- `FoldByteReverse`. -/
def foldByteReverse (b : Block) (inst : InstRef) (op : Opcode) : Block :=
  let operand := arg b inst 0
  if !operand.isImmediate b then b
  else if op = .byteReverseWord then
    b.replaceUsesWith inst (.u32 (Mcl.Bit.swapBytes32 ((operand.getImmediateAsU64 b).setWidth 32)))
  else if op = .byteReverseHalf then
    b.replaceUsesWith inst (.u16 (Mcl.Bit.swapBytes16 ((operand.getImmediateAsU64 b).setWidth 16)))
  else b.replaceUsesWith inst (.u64 (Mcl.Bit.swapBytes64 (operand.getImmediateAsU64 b)))

/-- Signed 64-bit division as C++ computes it on `s64`, truncating towards zero, given by its bits. On `INT64_MIN / -1`,
where C++ leaves the quotient undefined, this is the wrapped quotient `INT64_MIN`. -/
def sdiv64 (x y : BitVec 64) : BitVec 64 :=
  BitVec.ofInt 64 (x.toInt.tdiv y.toInt)

/-- Whether C++ defines the `s64` division `x / y`: a nonzero divisor and a quotient that `s64` holds. On the one other
pair, `INT64_MIN / -1`, the `idiv` that compilers emit for it raises a divide error. -/
def s64QuotientDefined (x y : BitVec 64) : Bool :=
  y != 0 && decide (x.toInt.tdiv y.toInt < 2 ^ 63)

/-- `FoldDivide`. Where the C++ division of two immediates traps (`foldDivideTraps`), the model goes on with the
quotient `sdiv64` wraps to. -/
def foldDivide (b : Block) (inst : InstRef) (is32Bit isSigned : Bool) : Block :=
  let rhs := arg b inst 1
  if rhs.isZero b then replaceUsesWithImm b inst is32Bit 0
  else
    let lhs := arg b inst 0
    if lhs.isImmediate b && rhs.isImmediate b then
      if isSigned then
        replaceUsesWithImm b inst is32Bit (sdiv64 (lhs.getImmediateAsS64 b) (rhs.getImmediateAsS64 b))
      else replaceUsesWithImm b inst is32Bit (lhs.getImmediateAsU64 b / rhs.getImmediateAsU64 b)
    else if rhs.isUnsignedImmediate b 1 then b.replaceUsesWith inst lhs
    else b

/-- `sdiv64` wraps as `SignedDiv64` does: where the C++ quotient is defined, the two agree. -/
theorem sdiv64_eq_sdiv (x y : BitVec 64) : sdiv64 x y = x.sdiv y := by
  apply BitVec.eq_of_toInt_eq
  rw [sdiv64, BitVec.toInt_ofInt, BitVec.toInt_sdiv]

/-- The C++ quotient is defined away from a zero divisor and the pair `INT64_MIN / -1`. -/
theorem s64QuotientDefined_iff (x y : BitVec 64) :
    s64QuotientDefined x y = true ↔ y ≠ 0 ∧ ¬(x = BitVec.intMin 64 ∧ y = -1) := by
  simp only [s64QuotientDefined, Bool.and_eq_true, bne_iff_ne, ne_eq, decide_eq_true_eq]
  constructor
  · rintro ⟨hy, hlt⟩
    refine ⟨hy, ?_⟩
    rintro ⟨rfl, rfl⟩
    -- the one quotient that does not fit: `-2^63 / -1 = 2^63`
    have hq : (BitVec.intMin 64).toInt.tdiv (-1 : BitVec 64).toInt = 2 ^ 63 := by decide
    omega
  · rintro ⟨hy, hne⟩
    refine ⟨hy, ?_⟩
    have hq := BitVec.toInt_sdiv_of_ne_or_ne x y (not_and_or.mp hne)
    have hlt : (x.sdiv y).toInt < 2 ^ 63 := BitVec.toInt_lt
    omega

/-- `FoldDivide` of a signed division of two immediates by a nonzero divisor folds to the `s64` quotient of the
immediates as `GetImmediateAsS64` reads them. -/
theorem foldDivide_signed_immediates {b : Block} {inst : InstRef} {is32Bit : Bool}
    (hz : (arg b inst 1).isZero b = false) (hl : (arg b inst 0).isImmediate b = true)
    (hr : (arg b inst 1).isImmediate b = true) :
    foldDivide b inst is32Bit true =
      replaceUsesWithImm b inst is32Bit
        (sdiv64 ((arg b inst 0).getImmediateAsS64 b) ((arg b inst 1).getImmediateAsS64 b)) := by
  simp [foldDivide, hz, hl, hr]

/-- `FoldEOR`. -/
def foldEOR (b : Block) (inst : InstRef) (is32Bit : Bool) : Block :=
  match foldCommutative b inst is32Bit (· ^^^ ·) with
  | (b, true) => if (arg b inst 1).isZero b then b.replaceUsesWith inst (arg b inst 0) else b
  | (b, false) => b

/-- The folds of one operand that apply only when the operand is immediate (`FoldLeastSignificant*`,
`FoldMostSignificantBit`, `FoldSignExtendX*`, `FoldZeroExtendX*`, and the `IsZero` cases of the switch): the
instruction becomes the immediate `result` computes from the operand. -/
def foldUnary (b : Block) (inst : InstRef) (result : Value → Value) : Block :=
  if !b.areAllArgsImmediates inst then b
  else b.replaceUsesWith inst (result (arg b inst 0))

/-- `FoldLeastSignificantByte`. -/
def foldLeastSignificantByte (b : Block) (inst : InstRef) : Block :=
  foldUnary b inst fun operand => .u8 ((operand.getImmediateAsU64 b).setWidth 8)

/-- `FoldLeastSignificantHalf`. -/
def foldLeastSignificantHalf (b : Block) (inst : InstRef) : Block :=
  foldUnary b inst fun operand => .u16 ((operand.getImmediateAsU64 b).setWidth 16)

/-- `FoldLeastSignificantWord`. -/
def foldLeastSignificantWord (b : Block) (inst : InstRef) : Block :=
  foldUnary b inst fun operand => .u32 ((operand.getImmediateAsU64 b).setWidth 32)

/-- `FoldMostSignificantBit`: `(operand >> 31) != 0` on the zero-extended immediate. -/
def foldMostSignificantBit (b : Block) (inst : InstRef) : Block :=
  foldUnary b inst fun operand => .u1 ((operand.getImmediateAsU64 b) >>> 31 != 0)

/-- `FoldMostSignificantWord`: the carry pseudo-operation, if any, is folded to bit 31 first. -/
def foldMostSignificantWord (b : Block) (inst : InstRef) : Block :=
  let carryInst := b.getAssociatedPseudoOperation inst .getCarryFromOp
  if !b.areAllArgsImmediates inst then b
  else
    let operand := arg b inst 0
    let b := match carryInst with
      | some c => b.replaceUsesWith c (.u1 ((operand.getImmediateAsU64 b).getLsbD 31))
      | none => b
    b.replaceUsesWith inst (.u32 ((operand.getImmediateAsU64 b >>> 32).setWidth 32))

/-- `FoldMultiply`. -/
def foldMultiply (b : Block) (inst : InstRef) (is32Bit : Bool) : Block :=
  match foldCommutative b inst is32Bit (· * ·) with
  | (b, true) =>
    let rhs := arg b inst 1
    if rhs.isZero b then replaceUsesWithImm b inst is32Bit 0
    else if rhs.isUnsignedImmediate b 1 then b.replaceUsesWith inst (arg b inst 0)
    else b
  | (b, false) => b

/-- `FoldNOT`. -/
def foldNOT (b : Block) (inst : InstRef) (is32Bit : Bool) : Block :=
  let operand := arg b inst 0
  if !operand.isImmediate b then b
  else replaceUsesWithImm b inst is32Bit (~~~(operand.getImmediateAsU64 b))

/-- `FoldOR`. -/
def foldOR (b : Block) (inst : InstRef) (is32Bit : Bool) : Block :=
  match foldCommutative b inst is32Bit (· ||| ·) with
  | (b, true) => if (arg b inst 1).isZero b then b.replaceUsesWith inst (arg b inst 0) else b
  | (b, false) => b

/-- `FoldShifts`: the carry in is cleared when nothing reads the carry out, or when the amount is a non-zero immediate; a
zero amount folds the shift (and its carry) away; the caller folds the rest when everything is immediate and no carry
is read. -/
def foldShifts (b : Block) (inst : InstRef) : Block × Bool :=
  let carryInst := b.getAssociatedPseudoOperation inst .getCarryFromOp
  let b := if (b.pool inst).op.numArgs = 3 && carryInst.isNone then b.setArg inst 2 (.u1 false) else b
  let shiftAmount := arg b inst 1
  if shiftAmount.isZero b then
    let b := match carryInst with
      | some c => b.replaceUsesWith c (arg b inst 2)
      | none => b
    (b.replaceUsesWith inst (arg b inst 0), false)
  else
    let b :=
      if (b.pool inst).op.numArgs = 3 && shiftAmount.isImmediate b && !shiftAmount.isZero b then
        b.setArg inst 2 (.u1 false)
      else b
    (b, b.areAllArgsImmediates inst && carryInst.isNone)

/-- `FoldSignExtendXToWord`. -/
def foldSignExtendXToWord (b : Block) (inst : InstRef) : Block :=
  foldUnary b inst fun operand => .u32 ((operand.getImmediateAsS64 b).setWidth 32)

/-- `FoldSignExtendXToLong`. -/
def foldSignExtendXToLong (b : Block) (inst : InstRef) : Block :=
  foldUnary b inst fun operand => .u64 (operand.getImmediateAsS64 b)

/-- `FoldSub`. -/
def foldSub (b : Block) (inst : InstRef) (is32Bit : Bool) : Block :=
  if !b.areAllArgsImmediates inst || b.hasAssociatedPseudoOperation inst then b
  else
    let lhs := arg b inst 0
    let rhs := arg b inst 1
    let carry := arg b inst 2
    replaceUsesWithImm b inst is32Bit
      (lhs.getImmediateAsU64 b + ~~~(rhs.getImmediateAsU64 b) + (if carry.getU1 b then 1 else 0))

/-- `FoldZeroExtendXToWord`. -/
def foldZeroExtendXToWord (b : Block) (inst : InstRef) : Block :=
  foldUnary b inst fun operand => .u32 ((operand.getImmediateAsU64 b).setWidth 32)

/-- `FoldZeroExtendXToLong`. -/
def foldZeroExtendXToLong (b : Block) (inst : InstRef) : Block :=
  foldUnary b inst fun operand => .u64 (operand.getImmediateAsU64 b)

/-- A case of the switch that folds a shift through `FoldShifts`: when it returns true, the result computed from the
(now immediate) arguments replaces the instruction. -/
def foldShiftWith (b : Block) (inst : InstRef) (is32Bit : Bool) (result : Block → BitVec 64) : Block :=
  match foldShifts b inst with
  | (b, true) => replaceUsesWithImm b inst is32Bit (result b)
  | (b, false) => b

/-- A case of the switch that folds when every argument is immediate. -/
def foldAllImmediates (b : Block) (inst : InstRef) (is32Bit : Bool) (result : Block → BitVec 64) : Block :=
  if b.areAllArgsImmediates inst then replaceUsesWithImm b inst is32Bit (result b) else b

/-- The fold the switch of `ConstantPropagation` applies to one instruction, by its opcode. -/
def foldInst (b : Block) (inst : InstRef) : Block :=
  let a (index : Fin 4) := arg b inst index
  match (b.pool inst).op with
  | .leastSignificantWord => foldLeastSignificantWord b inst
  | .mostSignificantWord => foldMostSignificantWord b inst
  | .leastSignificantHalf => foldLeastSignificantHalf b inst
  | .leastSignificantByte => foldLeastSignificantByte b inst
  | .mostSignificantBit => foldMostSignificantBit b inst
  | .isZero32 => foldUnary b inst fun operand => .u1 (operand.getU32 b == 0)
  | .isZero64 => foldUnary b inst fun operand => .u1 (operand.getU64 b == 0)
  | .logicalShiftLeft32 =>
    foldShiftWith b inst true fun b => ((arg b inst 0).getU32 b <<< ((arg b inst 1).getU8 b).toNat).setWidth 64
  | .logicalShiftLeft64 => foldShiftWith b inst false fun b => (arg b inst 0).getU64 b <<< ((arg b inst 1).getU8 b).toNat
  | .logicalShiftRight32 =>
    foldShiftWith b inst true fun b => ((arg b inst 0).getU32 b >>> ((arg b inst 1).getU8 b).toNat).setWidth 64
  | .logicalShiftRight64 => foldShiftWith b inst false fun b => (arg b inst 0).getU64 b >>> ((arg b inst 1).getU8 b).toNat
  | .arithmeticShiftRight32 =>
    foldShiftWith b inst true fun b => (((arg b inst 0).getU32 b).sshiftRight ((arg b inst 1).getU8 b).toNat).setWidth 64
  | .arithmeticShiftRight64 =>
    foldShiftWith b inst false fun b => ((arg b inst 0).getU64 b).sshiftRight ((arg b inst 1).getU8 b).toNat
  | .rotateRight32 =>
    foldShiftWith b inst true fun b => (Mcl.Bit.rotateRight ((arg b inst 0).getU32 b) ((arg b inst 1).getU8 b).toNat).setWidth 64
  | .rotateRight64 =>
    foldShiftWith b inst false fun b => Mcl.Bit.rotateRight ((arg b inst 0).getU64 b) ((arg b inst 1).getU8 b).toNat
  | .logicalShiftLeftMasked32 =>
    foldAllImmediates b inst true fun b => ((a 0).getU32 b <<< ((a 1).getU32 b &&& 0x1f)).setWidth 64
  | .logicalShiftLeftMasked64 => foldAllImmediates b inst false fun b => (a 0).getU64 b <<< ((a 1).getU64 b &&& 0x3f)
  | .logicalShiftRightMasked32 =>
    foldAllImmediates b inst true fun b => ((a 0).getU32 b >>> ((a 1).getU32 b &&& 0x1f)).setWidth 64
  | .logicalShiftRightMasked64 => foldAllImmediates b inst false fun b => (a 0).getU64 b >>> ((a 1).getU64 b &&& 0x3f)
  | .arithmeticShiftRightMasked32 =>
    -- the `s32` result is widened with its sign before `ReplaceUsesWith` truncates it again
    foldAllImmediates b inst true fun b => ((a 0).getU32 b).sshiftRight ((a 1).getU32 b &&& 0x1f).toNat |>.signExtend 64
  | .arithmeticShiftRightMasked64 =>
    foldAllImmediates b inst false fun b => ((a 0).getU64 b).sshiftRight ((a 1).getU64 b &&& 0x3f).toNat
  | .rotateRightMasked32 =>
    foldAllImmediates b inst true fun b => (Mcl.Bit.rotateRight ((a 0).getU32 b) ((a 1).getU32 b).toNat).setWidth 64
  | .rotateRightMasked64 =>
    foldAllImmediates b inst false fun b => Mcl.Bit.rotateRight ((a 0).getU64 b) ((a 1).getU64 b).toNat
  | .add32 => foldAdd b inst true
  | .add64 => foldAdd b inst false
  | .sub32 => foldSub b inst true
  | .sub64 => foldSub b inst false
  | .mul32 => foldMultiply b inst true
  | .mul64 => foldMultiply b inst false
  | .signedDiv32 => foldDivide b inst true true
  | .signedDiv64 => foldDivide b inst false true
  | .unsignedDiv32 => foldDivide b inst true false
  | .unsignedDiv64 => foldDivide b inst false false
  | .and32 => foldAND b inst true
  | .and64 => foldAND b inst false
  | .eor32 => foldEOR b inst true
  | .eor64 => foldEOR b inst false
  | .or32 => foldOR b inst true
  | .or64 => foldOR b inst false
  | .not32 => foldNOT b inst true
  | .not64 => foldNOT b inst false
  | .signExtendByteToWord | .signExtendHalfToWord => foldSignExtendXToWord b inst
  | .signExtendByteToLong | .signExtendHalfToLong | .signExtendWordToLong => foldSignExtendXToLong b inst
  | .zeroExtendByteToWord | .zeroExtendHalfToWord => foldZeroExtendXToWord b inst
  | .zeroExtendByteToLong | .zeroExtendHalfToLong | .zeroExtendWordToLong => foldZeroExtendXToLong b inst
  | .byteReverseWord => foldByteReverse b inst .byteReverseWord
  | .byteReverseHalf => foldByteReverse b inst .byteReverseHalf
  | .byteReverseDual => foldByteReverse b inst .byteReverseDual
  | _ => b

/-- `ConstantPropagation`: every instruction of the list, in order, folded as the block stands when its turn comes. -/
def constantPropagation (b : Block) : Block :=
  b.instructions.foldl foldInst b

/-- Whether `FoldDivide` of a signed division evaluates an `s64` quotient that C++ leaves undefined: the divisor is not
zero, both operands are immediates, and `GetImmediateAsS64` reads them as a pair outside `s64QuotientDefined`. There the
`idiv` that the C++ compiles to traps, where `foldDivide` goes on with the wrapped quotient. -/
def foldDivideTraps (b : Block) (inst : InstRef) : Bool :=
  let rhs := arg b inst 1
  let lhs := arg b inst 0
  !rhs.isZero b && lhs.isImmediate b && rhs.isImmediate b &&
    !s64QuotientDefined (lhs.getImmediateAsS64 b) (rhs.getImmediateAsS64 b)

/-- Whether the fold of the switch traps: only the signed divisions divide in `s64`. -/
def foldInstTraps (b : Block) (inst : InstRef) : Bool :=
  match (b.pool inst).op with
  | .signedDiv32 | .signedDiv64 => foldDivideTraps b inst
  | _ => false

/-- `ConstantPropagation` as the C++ runs it: the walk stops (`none`) at a fold that traps, and otherwise folds as
`constantPropagation` does. -/
def constantPropagationChecked (b : Block) : Option Block :=
  b.instructions.foldlM (fun b inst => if foldInstTraps b inst then none else some (foldInst b inst)) b

end Dynarmic.Optimization

namespace Dynarmic.Optimization

open Dynarmic.IR

/-- An instruction object with its opcode, use count and arguments, and no pseudo-operation. -/
def mkInst (op : Opcode) (useCount : Nat) (args : List Value) : Inst :=
  { op, useCount, args := fun k => args.getD k .void, nextPseudoop := none }

/-- `add x1, x0, #1; mov x2, #-1; adc x3, x1, x2` as `ConstantPropagation` receives it from the A64 translator and
`A64GetSetElimination`: `Add64(Add64(x0, 1, 0), 0xFFFFFFFFFFFFFFFF, C)` written to X3. -/
def adcBlock : Block where
  pool
    | 0 => mkInst .a64GetX 1 [.a64Reg 0]
    | 1 => mkInst .a64GetCFlag 1 []
    | 2 => mkInst .add64 1 [.inst 0, .u64 1, .u1 false]
    | 3 => mkInst .add64 1 [.inst 2, .u64 (BitVec.allOnes 64), .inst 1]
    | 4 => mkInst .a64SetX 0 [.a64Reg 3, .inst 3]
    | _ => Inst.new .void
  instructions := [0, 1, 2, 3, 4]

/-- The inputs of `adcBlock`: X0 holds `x` and the carry flag is set. -/
def adcInputs (x : BitVec 64) : InstRef → Outcome
  | 0 => .plain (.u64 x)
  | _ => .plain (.u1 true)

/-- `ConstantPropagation` changes what `adcBlock` computes. With X0 holding `x` and the carry flag set, the `adc` computes
`x + 1 + (2^64 - 1) + 1 = x + 1`; after the pass it is `Identity(x)`, because `FoldAdd` combines `0xFFFFFFFFFFFFFFFF + 1 + 0`
to zero and replaces the outer addition by `x` without its carry. -/
theorem constantPropagation_drops_adc_carry (x : BitVec 64) :
    (constantPropagation adcBlock).valueOf (adcInputs x) 3 = some (.u64 x) ∧
      adcBlock.valueOf (adcInputs x) 3 = some (.u64 (x + 1)) := by
  refine ⟨rfl, ?_⟩
  -- the original block computes two additions with carry, the second with the carry flag as carry in
  have hrun : adcBlock.valueOf (adcInputs x) 3 =
      some (.u64 (addWithCarry (addWithCarry x 1 false).1 (BitVec.allOnes 64) true).1) := rfl
  have hsum : (addWithCarry (addWithCarry x 1 false).1 (BitVec.allOnes 64) true).1 = x + 1 := by
    simp only [addWithCarry_fst, ← BitVec.neg_one_eq_allOnes, Bool.toNat_false, Bool.toNat_true]
    bv_omega
  rw [hrun, hsum]

/-- `mov x1, #0x8000000000000000; mov x2, #-1; sdiv x0, x1, x2` as `ConstantPropagation` receives it from the A64
translator and `A64GetSetElimination`: the reads of X1 and X2 are identities of the immediates the moves wrote, and
their `SignedDiv64` is written to X0. -/
def sdivIntMinBlock : Block where
  pool
    | 0 => mkInst .identity 1 [.u64 (BitVec.intMin 64)]
    | 1 => mkInst .identity 1 [.u64 (-1)]
    | 2 => mkInst .signedDiv64 1 [.inst 0, .inst 1]
    | 3 => mkInst .a64SetX 0 [.a64Reg 0, .inst 2]
    | _ => Inst.new .void
  instructions := [0, 1, 2, 3]

/-- `ConstantPropagation` folds the `sdiv` of `sdivIntMinBlock` through the C++ division `INT64_MIN / -1`, whose quotient
`s64` does not hold; the block itself computes `INT64_MIN`, as `EmitSignedDiv64` does. -/
theorem constantPropagation_divides_intMin_by_minus_one :
    constantPropagation sdivIntMinBlock =
        replaceUsesWithImm sdivIntMinBlock 2 false (sdiv64 (BitVec.intMin 64) (-1)) ∧
      s64QuotientDefined (BitVec.intMin 64) (-1) = false ∧
      sdivIntMinBlock.valueOf (fun _ => .plain .void) 2 = some (.u64 (BitVec.intMin 64)) := by
  refine ⟨?_, ?_, ?_⟩
  · -- the identities and the setter fold to nothing; the division takes the branch of two immediates
    show foldInst (foldDivide sdivIntMinBlock 2 false true) 3 = _
    rw [foldDivide_signed_immediates (by decide) (by decide) (by decide)]
    rfl
  · decide
  · rfl

end Dynarmic.Optimization
