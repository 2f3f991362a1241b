import Dynarmic.IR.Context
import Dynarmic.IR.Opt.ConstantPropagation

/-!
# `A32GetSetElimination`

`ir/opt/a32_get_set_elimination_pass.cpp`: `FlagsPass`, then `RegisterPass`.

`FlagsPass` walks the instruction list backwards and keeps, for each group of CPSR flags (NZCVQ, NZCV, NZ, C, GE),
whether a later instruction overwrites the group before anything reads it (`set_not_required`), and for C and GE the
latest getter whose result can still be taken from an earlier setter (`value_request`). A setter whose group is not
required is invalidated; a pending getter is replaced by the value the setter writes. A `SetCpsrNZC` whose carry is the
result of a `GetCFlag` is rewritten into a `SetCpsrNZ`: the C flag is taken to keep the value that `GetCFlag` read.

`RegisterPass` walks the list forwards and forwards the value of the last setter or getter of each core register, and of
each word of the extended registers through the same view, to later getters, and invalidates a setter that a later setter
of the same register overwrites with no read in between.

Where the C++ inserts an instruction, it does so right after the one it is visiting (`inst.base()` of the reverse walk,
`SetInsertionPointAfter` of the forward one). The reverse walk then visits the instruction it inserted before once more,
and the forward walk visits the inserted `VectorZeroUpper`, which changes nothing the walk tracks; the model's walks go
over the list they started with and make the one extra visit of the reverse walk explicit.

The rewrite of `SetCpsrNZC` holds only when no instruction between the `GetCFlag` and the `SetCpsrNZC` writes the carry.
The pass does not check that. The theorem at the end of the module runs the block
`GetCFlag; SetCpsrNZC(n1, c1); SetCpsrNZC(n2, that GetCFlag)`.
-/

namespace Dynarmic.IR

/-- The pool object `IR::Inst` allocates next: past every instruction of the list. -/
def Block.freshRef (b : Block) : InstRef :=
  b.instructions.foldl max 0 + 1

/-- Put `new` into a list right after the first `after`. -/
def insertAfterIn (after new : InstRef) : List InstRef → List InstRef
  | [] => []
  | x :: xs => if x = after then x :: new :: xs else x :: insertAfterIn after new xs

/-- `IREmitter::Inst` at the insertion point right after `after` (`Block::PrependNewInst`): a new instruction whose
arguments are set one by one with `SetArg`, put into the list. -/
def Block.insertAfter (b : Block) (after : InstRef) (op : Opcode) (args : List Value) : Block × InstRef :=
  let new := b.freshRef
  let b : Block := { b with pool := Function.update b.pool new (Inst.new op) }
  let b := (List.finRange 4).foldl (fun b index => b.setArg new index (args.getD index .void)) b
  ({ b with instructions := insertAfterIn after new b.instructions }, new)

end Dynarmic.IR

namespace Dynarmic.Optimization

open Dynarmic.IR

namespace A32GetSetElimination

/-! ### `FlagsPass` -/

/-- `FlagInfo`. -/
structure FlagInfo where
  setNotRequired : Bool
  hasValueRequest : Bool
  valueRequest : InstRef
  deriving DecidableEq, Repr

/-- `FlagInfo{}`. -/
def FlagInfo.empty : FlagInfo :=
  { setNotRequired := false, hasValueRequest := false, valueRequest := 0 }

/-- `FlagInfo{.set_not_required = true}`. -/
def FlagInfo.notRequired : FlagInfo :=
  { FlagInfo.empty with setNotRequired := true }

/-- `ValuelessFlagInfo`. -/
structure ValuelessFlagInfo where
  setNotRequired : Bool
  deriving DecidableEq, Repr

/-- The block as the backward walk has left it, and what is known of each group of flags. -/
structure FlagsState where
  block : Block
  nzcvq : ValuelessFlagInfo
  nzcv : ValuelessFlagInfo
  nz : ValuelessFlagInfo
  cFlag : FlagInfo
  ge : FlagInfo

/-- `do_set`: the pending getter takes the value; the setter is invalidated when the group is not required. -/
def doSet (b : Block) (info : FlagInfo) (value : Value) (inst : InstRef) : Block × FlagInfo :=
  let b := if info.hasValueRequest then b.replaceUsesWith info.valueRequest value else b
  let b := if info.setNotRequired then b.invalidate inst else b
  (b, { info with hasValueRequest := false, setNotRequired := true })

/-- `do_set_valueless`. -/
def doSetValueless (b : Block) (info : ValuelessFlagInfo) (inst : InstRef) : Block × ValuelessFlagInfo :=
  (if info.setNotRequired then b.invalidate inst else b, ⟨true⟩)

/-- `do_get`: a pending getter is replaced by this earlier one, which becomes the pending getter. -/
def doGet (b : Block) (info : FlagInfo) (inst : InstRef) : Block × FlagInfo :=
  (if info.hasValueRequest then b.replaceUsesWith info.valueRequest (.inst inst) else b,
    { info with hasValueRequest := true, valueRequest := inst })

namespace FlagsState

/-- The default case for an instruction that reads or writes the CPSR: nothing is known any more. -/
def forget (st : FlagsState) : FlagsState :=
  { st with nzcvq := ⟨false⟩, nzcv := ⟨false⟩, nz := ⟨false⟩, cFlag := .empty, ge := .empty }

end FlagsState

/-- The `A32SetCpsrNZC` case. The pending `GetCFlag` reads the carry written here. A carry that is itself the result of a
`GetCFlag` is taken to be the carry already in the CPSR: the instruction is invalidated and a `SetCpsrNZ` of its NZ value
is inserted after it, and the walk visits the invalidated instruction once more. Otherwise the instruction is
invalidated when NZ and C are both overwritten later, or loses its NZ value when NZ alone is. -/
def setCpsrNZC (st : FlagsState) (inst : InstRef) : FlagsState × Bool :=
  let st := if st.cFlag.hasValueRequest then
    { st with
      block := st.block.replaceUsesWith st.cFlag.valueRequest ((st.block.pool inst).args 1)
      cFlag := { st.cFlag with hasValueRequest := false } }
    else st
  let carry := (st.block.pool inst).args 1
  let carryFromGet := !carry.isImmediate st.block &&
    (carry.getInstRecursive st.block).any fun g => (st.block.pool g).op = .a32GetCFlag
  if carryFromGet then
    let nzValue := (st.block.pool inst).args 0
    let b := (st.block.invalidate inst).insertAfter inst .a32SetCpsrNZ [nzValue]
    ({ st with block := b.1, nzcvq := ⟨false⟩, nzcv := ⟨false⟩, nz := ⟨true⟩ }, true)
  else
    let b := if st.nz.setNotRequired && st.cFlag.setNotRequired then st.block.invalidate inst
      else if st.nz.setNotRequired then st.block.setArg inst 0 .nzcvMarker
      else st.block
    ({ st with
        block := b
        nz := ⟨true⟩
        cFlag := { st.cFlag with setNotRequired := true }
        nzcv := ⟨false⟩
        nzcvq := ⟨false⟩ }, false)

/-- One visit of the backward walk; the flag says whether the walk visits the same instruction once more, which it
does after an insertion. -/
def flagsStep (st : FlagsState) (inst : InstRef) : FlagsState × Bool :=
  let i := st.block.pool inst
  match i.op with
  | .a32GetCFlag =>
    let r := doGet st.block st.cFlag inst
    ({ st with block := r.1, cFlag := r.2 }, false)
  | .a32SetCpsrNZCV =>
    if st.cFlag.hasValueRequest then
      -- the pending `GetCFlag` reads the carry of this NZCV value; the instruction is visited again
      let r := st.block.insertAfter inst .getCFlagFromNZCV [i.args 0]
      ({ st with
          block := r.1.replaceUsesWith st.cFlag.valueRequest (.inst r.2)
          cFlag := { st.cFlag with hasValueRequest := false } }, true)
    else
      let r := doSetValueless st.block st.nzcv inst
      ({ st with block := r.1, nzcv := r.2, nz := ⟨true⟩, cFlag := .notRequired }, false)
  | .a32SetCpsrNZCVRaw =>
    let nzcv := if st.cFlag.hasValueRequest then ⟨false⟩ else st.nzcv
    let r := doSetValueless st.block nzcv inst
    ({ st with block := r.1, nzcv := r.2, nzcvq := ⟨false⟩, nz := ⟨true⟩, cFlag := .notRequired }, false)
  | .a32SetCpsrNZCVQ =>
    let nzcvq := if st.cFlag.hasValueRequest then ⟨false⟩ else st.nzcvq
    let r := doSetValueless st.block nzcvq inst
    ({ st with block := r.1, nzcvq := r.2, nzcv := ⟨true⟩, nz := ⟨true⟩, cFlag := .notRequired }, false)
  | .a32SetCpsrNZ =>
    let r := doSetValueless st.block st.nz inst
    ({ st with block := r.1, nz := r.2, nzcvq := ⟨false⟩, nzcv := ⟨false⟩ }, false)
  | .a32SetCpsrNZC => setCpsrNZC st inst
  | .a32SetGEFlags =>
    let r := doSet st.block st.ge (i.args 0) inst
    ({ st with block := r.1, ge := r.2 }, false)
  | .a32GetGEFlags =>
    let r := doGet st.block st.ge inst
    ({ st with block := r.1, ge := r.2 }, false)
  | .a32SetGEFlagsCompressed => ({ st with ge := .notRequired }, false)
  | .a32OrQFlag => (st, false)
  | op => (if op.readsFromCPSR || op.writesToCPSR then st.forget else st, false)

/-- A visit of the backward walk, with the extra visit that follows an insertion. -/
def flagsVisit (st : FlagsState) (inst : InstRef) : FlagsState :=
  let r := flagsStep st inst
  if r.2 then (flagsStep r.1 inst).1 else r.1

/-- `FlagsPass`. -/
def flagsPass (b : Block) : Block :=
  (b.instructions.reverse.foldl flagsVisit
    { block := b, nzcvq := ⟨false⟩, nzcv := ⟨false⟩, nz := ⟨false⟩, cFlag := .empty, ge := .empty }).block

/-! ### `RegisterPass` -/

/-- `RegInfo`: the value a core register is known to hold, and its last setter while nothing has read it since. -/
structure RegInfo where
  registerValue : Value
  lastSetInstruction : Option InstRef
  deriving DecidableEq, Repr

/-- `RegInfo{}`. -/
def RegInfo.empty : RegInfo :=
  { registerValue := .void, lastSetInstruction := none }

/-- `ExtValueType`: the view through which a word of the extended registers was last written or read. -/
inductive ExtValueType where
  | empty | single | double | vectorDouble | vectorQuad
  deriving DecidableEq, Repr

/-- `ExtRegInfo`. -/
structure ExtRegInfo where
  valueType : ExtValueType
  registerValue : Value
  lastSetInstruction : Option InstRef
  deriving DecidableEq, Repr

/-- `ExtRegInfo{}`. -/
def ExtRegInfo.empty : ExtRegInfo :=
  { valueType := .empty, registerValue := .void, lastSetInstruction := none }

/-- The block as the forward walk has left it, `reg_info` for R0-R14, and `ext_reg_info` by word number. -/
structure RegisterState where
  block : Block
  regInfo : Fin 15 → RegInfo
  extRegInfo : Nat → ExtRegInfo

/-- `do_get` of `RegisterPass`. -/
def doRegGet (b : Block) (info : RegInfo) (getInst : InstRef) : Block × RegInfo :=
  if info.registerValue = .void then (b, { info with registerValue := .inst getInst })
  else (b.replaceUsesWith getInst info.registerValue, info)

/-- `do_set` of `RegisterPass`. -/
def doRegSet (b : Block) (info : RegInfo) (value : Value) (setInst : InstRef) : Block × RegInfo :=
  (match info.lastSetInstruction with
    | some s => b.invalidate s
    | none => b,
    { registerValue := value, lastSetInstruction := some setInst })

namespace RegisterState

/-- `do_ext_get` over the words `words` of a register: forwarded when every word was last seen through this view. -/
def extGet (st : RegisterState) (type : ExtValueType) (words : List Nat) (getInst : InstRef) : RegisterState :=
  if words.all fun k => (st.extRegInfo k).valueType = type then
    { st with block := st.block.replaceUsesWith getInst (st.extRegInfo (words.headD 0)).registerValue }
  else
    { st with
      extRegInfo := fun k => if k ∈ words then
        { valueType := type, registerValue := .inst getInst, lastSetInstruction := none } else st.extRegInfo k }

/-- `do_ext_set`: the last setter of the first word is invalidated when every word was last seen through this view. -/
def extSet (st : RegisterState) (type : ExtValueType) (words : List Nat) (value : Value) (setInst : InstRef) :
    RegisterState :=
  let b := if words.all fun k => (st.extRegInfo k).valueType = type then
      match (st.extRegInfo (words.headD 0)).lastSetInstruction with
      | some s => st.block.invalidate s
      | none => st.block
    else st.block
  { block := b, regInfo := st.regInfo,
    extRegInfo := fun k => if k ∈ words then
      { valueType := type, registerValue := value, lastSetInstruction := some setInst } else st.extRegInfo k }

/-- A getter of a core register. -/
def regGet (st : RegisterState) (x : Fin 15) (getInst : InstRef) : RegisterState :=
  let r := doRegGet st.block (st.regInfo x) getInst
  { st with block := r.1, regInfo := Function.update st.regInfo x r.2 }

/-- A setter of a core register. -/
def regSet (st : RegisterState) (x : Fin 15) (value : Value) (setInst : InstRef) : RegisterState :=
  let r := doRegSet st.block (st.regInfo x) value setInst
  { st with block := r.1, regInfo := Function.update st.regInfo x r.2 }

end RegisterState

/-- The words of the extended register a D register covers. -/
def doubleWords (n : Nat) : List Nat := [2 * n, 2 * n + 1]

/-- The words of the extended register a Q register covers. -/
def quadWords (n : Nat) : List Nat := [4 * n, 4 * n + 1, 4 * n + 2, 4 * n + 3]

/-- One visit of the forward walk. `none` is a failed assertion: `ASSERT(reg != A32::Reg::PC)` of a getter, or that of
`GetA32RegRef` or `GetA32ExtRegRef` on an operand of another type. -/
def registerStep (st : RegisterState) (inst : InstRef) : Option RegisterState :=
  let i := st.block.pool inst
  match i.op with
  | .a32GetRegister => do
    let reg ← (i.args 0).getA32RegRef
    if h : reg.val < 15 then some (st.regGet ⟨reg.val, h⟩ inst) else none
  | .a32SetRegister => do
    let reg ← (i.args 0).getA32RegRef
    -- a write of the PC is not tracked
    if h : reg.val < 15 then some (st.regSet ⟨reg.val, h⟩ (i.args 1) inst) else some st
  | .a32GetExtendedRegister32 => (i.args 0).getA32ExtRegRef.map fun r => st.extGet .single [extRegNumber r] inst
  | .a32SetExtendedRegister32 =>
    (i.args 0).getA32ExtRegRef.map fun r => st.extSet .single [extRegNumber r] (i.args 1) inst
  | .a32GetExtendedRegister64 =>
    (i.args 0).getA32ExtRegRef.map fun r => st.extGet .double (doubleWords (extRegNumber r)) inst
  | .a32SetExtendedRegister64 =>
    (i.args 0).getA32ExtRegRef.map fun r => st.extSet .double (doubleWords (extRegNumber r)) (i.args 1) inst
  | .a32GetVector =>
    (i.args 0).getA32ExtRegRef.map fun r =>
      if isDoubleExtReg r then st.extGet .vectorDouble (doubleWords (extRegNumber r)) inst
      else st.extGet .vectorQuad (quadWords (extRegNumber r)) inst
  | .a32SetVector =>
    (i.args 0).getA32ExtRegRef.map fun r =>
      if isDoubleExtReg r then
        -- the value a D register holds is the vector with its upper half cleared, computed right after the setter
        let z := st.block.insertAfter inst .vectorZeroUpper [i.args 1]
        { st with block := z.1 }.extSet .vectorDouble (doubleWords (extRegNumber r)) (.inst z.2) inst
      else st.extSet .vectorQuad (quadWords (extRegNumber r)) (i.args 1) inst
  | op =>
    if op.readsFromCoreRegister || op.writesToCoreRegister then
      some { st with regInfo := fun _ => .empty, extRegInfo := fun _ => .empty }
    else some st

/-- `RegisterPass`. -/
def registerPass (b : Block) : Option Block :=
  (b.instructions.foldlM registerStep { block := b, regInfo := fun _ => .empty, extRegInfo := fun _ => .empty }).map
    RegisterState.block

end A32GetSetElimination

open A32GetSetElimination in
/-- `A32GetSetElimination`: `FlagsPass`, then `RegisterPass`. -/
def a32GetSetElimination (b : Block) : Option Block :=
  registerPass (flagsPass b)

/-- `GetCFlag; SetCpsrNZC(n1, c1); SetCpsrNZC(n2, that GetCFlag)`, with the NZ value of the register `n` for `n1` and
`n2` and the immediate `true` for `c1`: the last instruction puts back the carry the block started with. -/
def carryRestoreBlock (n : Fin 16) : Block where
  pool
    | 0 => { mkInst .a32GetRegister 1 [.a32Reg n] with nextPseudoop := some 1 }
    | 1 => mkInst .getNZFromOp 2 [.inst 0]
    | 2 => mkInst .a32GetCFlag 1 []
    | 3 => mkInst .a32SetCpsrNZC 0 [.inst 1, .u1 true]
    | 4 => mkInst .a32SetCpsrNZC 0 [.inst 1, .inst 2]
    | _ => Inst.new .void
  instructions := [0, 1, 2, 3, 4]

/-- The A32 context in which every register and flag is zero. -/
def zeroA32Context : A32Context where
  reg _ := 0
  ext _ := 0
  n := false
  z := false
  c := false
  v := false
  q := false
  ge := 0

/-- The meaning of the open opcodes in a run of a block that has none: the context as it is, and no value. -/
def noOpenA32Opcodes : InstRef → A32Context → A32Context × Outcome :=
  fun _ c => (c, .plain .void)

/-- `A32GetSetElimination` changes the carry `carryRestoreBlock` leaves, here with R0. The block ends with the carry it started with,
false; the pass turns the last instruction into `SetCpsrNZ`, so the transformed block ends with the carry `true` of the
instruction before. -/
theorem a32GetSetElimination_drops_restored_carry :
    ((carryRestoreBlock 0).execA32 noOpenA32Opcodes zeroA32Context).1.c = false ∧
      ((a32GetSetElimination (carryRestoreBlock 0)).map fun b => (b.execA32 noOpenA32Opcodes zeroA32Context).1.c) =
        some true := by
  constructor
  · decide
  · decide

end Dynarmic.Optimization
