import Mathlib
/-!
# IR opcodes

`ir/opcodes.inc` and the opcode predicates of `ir/microinstruction.cpp`.

The opcodes named here are those the modelled passes and the modelled semantics tell apart: the integer operations that
`ConstantPropagation` folds, the pseudo-operations that read a side result of another instruction, and the getters and
setters of the A32 and A64 guest context. Every other opcode of the table is `other`, which carries the entries of the
opcode table and of the predicates that the modelled code reads for it (its number of arguments, whether it reads or writes
the CPSR or a core register, whether it may have side effects); the passes modelled here treat such an opcode only through
those entries, in their default branch.
-/

namespace Dynarmic.IR

/-- The table entries of an opcode that the modelled code reads, for an opcode this model does not name. -/
structure OtherInfo where
  numArgs : Nat
  readsFromCPSR : Bool
  writesToCPSR : Bool
  readsFromCoreRegister : Bool
  writesToCoreRegister : Bool
  mayHaveSideEffects : Bool
  deriving DecidableEq, Repr

/-- `IR::Opcode`. -/
inductive Opcode where
  | void
  | identity
  -- pseudo-operations
  | getCarryFromOp
  | getOverflowFromOp
  | getGEFromOp
  | getNZCVFromOp
  | getNZFromOp
  | getUpperFromOp
  | getLowerFromOp
  -- integer operations
  | leastSignificantWord
  | leastSignificantHalf
  | leastSignificantByte
  | mostSignificantWord
  | mostSignificantBit
  | isZero32
  | isZero64
  | logicalShiftLeft32
  | logicalShiftLeft64
  | logicalShiftRight32
  | logicalShiftRight64
  | arithmeticShiftRight32
  | arithmeticShiftRight64
  | rotateRight32
  | rotateRight64
  | logicalShiftLeftMasked32
  | logicalShiftLeftMasked64
  | logicalShiftRightMasked32
  | logicalShiftRightMasked64
  | arithmeticShiftRightMasked32
  | arithmeticShiftRightMasked64
  | rotateRightMasked32
  | rotateRightMasked64
  | add32
  | add64
  | sub32
  | sub64
  | mul32
  | mul64
  | unsignedDiv32
  | unsignedDiv64
  | signedDiv32
  | signedDiv64
  | and32
  | and64
  | andNot32
  | andNot64
  | eor32
  | eor64
  | or32
  | or64
  | not32
  | not64
  | signExtendByteToWord
  | signExtendHalfToWord
  | signExtendByteToLong
  | signExtendHalfToLong
  | signExtendWordToLong
  | zeroExtendByteToWord
  | zeroExtendHalfToWord
  | zeroExtendByteToLong
  | zeroExtendHalfToLong
  | zeroExtendWordToLong
  | byteReverseWord
  | byteReverseHalf
  | byteReverseDual
  -- the flags of an NZCV value, and vector operations
  | getCFlagFromNZCV
  | vectorZeroUpper
  -- A32 context
  | a32GetRegister
  | a32GetExtendedRegister32
  | a32GetExtendedRegister64
  | a32GetVector
  | a32SetRegister
  | a32SetExtendedRegister32
  | a32SetExtendedRegister64
  | a32SetVector
  | a32GetCpsr
  | a32SetCpsr
  | a32SetCpsrNZCV
  | a32SetCpsrNZCVRaw
  | a32SetCpsrNZCVQ
  | a32SetCpsrNZ
  | a32SetCpsrNZC
  | a32GetCFlag
  | a32OrQFlag
  | a32GetGEFlags
  | a32SetGEFlags
  | a32SetGEFlagsCompressed
  -- A64 context
  | a64GetCFlag
  | a64GetNZCVRaw
  | a64SetNZCVRaw
  | a64SetNZCV
  | a64GetW
  | a64GetX
  | a64GetS
  | a64GetD
  | a64GetQ
  | a64GetSP
  | a64SetW
  | a64SetX
  | a64SetS
  | a64SetD
  | a64SetQ
  | a64SetSP
  -- any other opcode of the table
  | other (code : Nat) (info : OtherInfo)
  deriving DecidableEq, Repr

namespace Opcode

/-- `GetNumArgsOf`: the number of argument columns of the opcode's line in `opcodes.inc`. -/
def numArgs : Opcode → Nat
  | void | a32GetCpsr | a32GetCFlag | a32GetGEFlags | a64GetCFlag | a64GetNZCVRaw | a64GetSP => 0
  | logicalShiftLeft32 | logicalShiftRight32 | arithmeticShiftRight32 | rotateRight32 | add32 | add64 | sub32
  | sub64 => 3
  | logicalShiftLeft64 | logicalShiftRight64 | arithmeticShiftRight64 | rotateRight64 | logicalShiftLeftMasked32
  | logicalShiftLeftMasked64 | logicalShiftRightMasked32 | logicalShiftRightMasked64 | arithmeticShiftRightMasked32
  | arithmeticShiftRightMasked64 | rotateRightMasked32 | rotateRightMasked64 | mul32 | mul64 | unsignedDiv32
  | unsignedDiv64 | signedDiv32 | signedDiv64 | and32 | and64 | andNot32 | andNot64 | eor32 | eor64 | or32 | or64
  | a32SetRegister | a32SetExtendedRegister32 | a32SetExtendedRegister64 | a32SetVector | a32SetCpsrNZC | a64SetW
  | a64SetX | a64SetS | a64SetD | a64SetQ => 2
  | other _ info => info.numArgs
  | _ => 1

/-- `Inst::IsAPseudoOperation`: the opcodes that join the chain of pseudo-operations of their argument 0. -/
def isAPseudoOperation : Opcode → Bool
  | getCarryFromOp | getOverflowFromOp | getGEFromOp | getNZCVFromOp | getNZFromOp | getUpperFromOp | getLowerFromOp
  | mostSignificantBit | isZero32 | isZero64 => true
  | _ => false

/-- `Inst::MayGetNZCVFromOp`. -/
def mayGetNZCVFromOp : Opcode → Bool
  | add32 | add64 | sub32 | sub64 | and32 | and64 | andNot32 | andNot64 | eor32 | eor64 | or32 | or64 | not32
  | not64 => true
  | _ => false

/-- `Inst::ReadsFromCPSR`. -/
def readsFromCPSR : Opcode → Bool
  | a32GetCpsr | a32GetCFlag | a32GetGEFlags | a64GetCFlag | a64GetNZCVRaw => true
  | other _ info => info.readsFromCPSR
  | _ => false

/-- `Inst::WritesToCPSR`. -/
def writesToCPSR : Opcode → Bool
  | a32SetCpsr | a32SetCpsrNZCVRaw | a32SetCpsrNZCV | a32SetCpsrNZCVQ | a32SetCpsrNZ | a32SetCpsrNZC | a32OrQFlag
  | a32SetGEFlags | a32SetGEFlagsCompressed | a64SetNZCVRaw | a64SetNZCV => true
  | other _ info => info.writesToCPSR
  | _ => false

/-- `Inst::ReadsFromCoreRegister`. -/
def readsFromCoreRegister : Opcode → Bool
  | a32GetRegister | a32GetExtendedRegister32 | a32GetExtendedRegister64 | a32GetVector | a64GetW | a64GetX | a64GetS
  | a64GetD | a64GetQ | a64GetSP => true
  | other _ info => info.readsFromCoreRegister
  | _ => false

/-- `Inst::WritesToCoreRegister`. -/
def writesToCoreRegister : Opcode → Bool
  | a32SetRegister | a32SetExtendedRegister32 | a32SetExtendedRegister64 | a32SetVector | a64SetW | a64SetX | a64SetS
  | a64SetD | a64SetQ | a64SetSP => true
  | other _ info => info.writesToCoreRegister
  | _ => false

/-- `Inst::MayHaveSideEffects`: of the opcodes named here, exactly those that write the guest context. -/
def mayHaveSideEffects : Opcode → Bool
  | other _ info => info.mayHaveSideEffects
  | op => op.writesToCoreRegister || op.writesToCPSR

end Opcode

end Dynarmic.IR
