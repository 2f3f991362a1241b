import Dynarmic.IR.Context
import Dynarmic.IR.Opt.ConstantPropagation

/-!
# `A64GetSetElimination`

`ir/opt/a64_get_set_elimination_pass.cpp`. The pass walks the instruction list once, in order, and keeps for each
register of the guest context (X0-X30, V0-V31, SP, NZCV) the value it is known to hold and the view it was written or
read through (`TrackingType`: W or X, S, D or Q, NZCV or the raw NZCV word). A getter through the same view as the
tracked one is replaced by the tracked value (`ReplaceUsesWith`); any other getter starts tracking its own result. A
setter erases the previous setter of the register while that one is still tracked, since nothing read the register in
between, and tracks its own value. An instruction that reads or writes the CPSR, or a core register, any other way makes
the pass forget the flags, or all the registers.

A setter and a getter through the same view are taken to be inverse. For the raw NZCV word they are not: the x64 backend
keeps the four flags only, so `GetNZCVRaw` after `SetNZCVRaw(v)` returns bits 31-28 of `v`, while the pass forwards `v`
itself. The theorem at the end of the module says what that does to `MSR NZCV, X0; MRS X1, NZCV`.
-/

namespace Dynarmic.Optimization

open Dynarmic.IR

namespace A64GetSetElimination

/-- `TrackingType`: the view through which a tracked register was last written or read. -/
inductive TrackingType where
  | w | x | s | d | q | sp | nzcv | nzcvRaw
  deriving DecidableEq, Repr

/-- `RegisterInfo`. -/
structure RegisterInfo where
  registerValue : Value
  trackingType : TrackingType
  setInstructionPresent : Bool
  lastSetInstruction : InstRef
  deriving DecidableEq, Repr

/-- `RegisterInfo{}`: nothing tracked (the enumeration is value-initialised to its first member). -/
def RegisterInfo.empty : RegisterInfo :=
  { registerValue := .void, trackingType := .w, setInstructionPresent := false, lastSetInstruction := 0 }

/-- The registers the pass tracks: the entries of `reg_info` and `vec_info`, `sp_info` and `nzcv_info`. -/
inductive Slot where
  | reg (x : Fin 31)
  | vec (v : Fin 32)
  | sp
  | nzcv
  deriving DecidableEq, Repr

/-- The block as the walk has left it, and what is tracked for each register. -/
structure State where
  block : Block
  info : Slot → RegisterInfo

/-- Remove an instruction from the instruction list, `block.Instructions().erase`. -/
def eraseInstruction (b : Block) (r : InstRef) : Block :=
  { b with instructions := b.instructions.erase r }

/-- `do_set`: the previous setter of the register, while tracked, is invalidated and erased; the register then holds the
setter's value through its view. -/
def doSet (b : Block) (info : RegisterInfo) (value : Value) (setInst : InstRef) (trackingType : TrackingType) :
    Block × RegisterInfo :=
  let b := if info.setInstructionPresent then eraseInstruction (b.invalidate info.lastSetInstruction)
    info.lastSetInstruction else b
  (b, { registerValue := value, trackingType, setInstructionPresent := true, lastSetInstruction := setInst })

/-- `do_get`: a getter through the tracked view is replaced by the tracked value; otherwise the getter's own result is
tracked through its view (`do_nothing`). -/
def doGet (b : Block) (info : RegisterInfo) (getInst : InstRef) (trackingType : TrackingType) : Block × RegisterInfo :=
  let doNothing := { RegisterInfo.empty with registerValue := .inst getInst, trackingType }
  if info.registerValue = .void then (b, doNothing)
  else if info.trackingType = trackingType then (b.replaceUsesWith getInst info.registerValue, info)
  else (b, doNothing)

namespace State

/-- A getter of a tracked register. -/
def get (st : State) (inst : InstRef) (slot : Slot) (trackingType : TrackingType) : State :=
  let r := doGet st.block (st.info slot) inst trackingType
  { block := r.1, info := Function.update st.info slot r.2 }

/-- A setter of a tracked register. -/
def set (st : State) (inst : InstRef) (slot : Slot) (value : Value) (trackingType : TrackingType) : State :=
  let r := doSet st.block (st.info slot) value inst trackingType
  { block := r.1, info := Function.update st.info slot r.2 }

/-- The default case: an instruction that reads or writes the CPSR clears `nzcv_info`, one that reads or writes a core
register clears `reg_info`, `vec_info` and `sp_info`. -/
def forget (st : State) (op : Opcode) : State :=
  let flags := op.readsFromCPSR || op.writesToCPSR
  let regs := op.readsFromCoreRegister || op.writesToCoreRegister
  { st with
    info := fun
      | .nzcv => if flags then .empty else st.info .nzcv
      | slot => if regs then .empty else st.info slot }

end State

/-- One iteration of the walk, at an instruction of the list. `none` is the exception `reg_info.at` throws for R31, or
the assertion of `GetA64VecRef`. -/
def step (st : State) (inst : InstRef) : Option State :=
  let i := st.block.pool inst
  match i.op with
  | .a64GetW => (i.args 0).a64RegIndex.map fun x => st.get inst (.reg x) .w
  | .a64GetX => (i.args 0).a64RegIndex.map fun x => st.get inst (.reg x) .x
  | .a64GetS => (i.args 0).getA64VecRef.map fun v => st.get inst (.vec v) .s
  | .a64GetD => (i.args 0).getA64VecRef.map fun v => st.get inst (.vec v) .d
  | .a64GetQ => (i.args 0).getA64VecRef.map fun v => st.get inst (.vec v) .q
  | .a64GetSP => some (st.get inst .sp .sp)
  | .a64GetNZCVRaw => some (st.get inst .nzcv .nzcvRaw)
  | .a64SetW => (i.args 0).a64RegIndex.map fun x => st.set inst (.reg x) (i.args 1) .w
  | .a64SetX => (i.args 0).a64RegIndex.map fun x => st.set inst (.reg x) (i.args 1) .x
  | .a64SetS => (i.args 0).getA64VecRef.map fun v => st.set inst (.vec v) (i.args 1) .s
  | .a64SetD => (i.args 0).getA64VecRef.map fun v => st.set inst (.vec v) (i.args 1) .d
  | .a64SetQ => (i.args 0).getA64VecRef.map fun v => st.set inst (.vec v) (i.args 1) .q
  | .a64SetSP => some (st.set inst .sp (i.args 0) .sp)
  | .a64SetNZCV => some (st.set inst .nzcv (i.args 0) .nzcv)
  | .a64SetNZCVRaw => some (st.set inst .nzcv (i.args 0) .nzcvRaw)
  | op => some (st.forget op)

end A64GetSetElimination

open A64GetSetElimination in
/-- `A64GetSetElimination`: the walk over the instruction list, from nothing tracked. The erasures remove instructions
behind the walk only, so the walk visits the list it started with. -/
def a64GetSetElimination (b : Block) : Option Block :=
  (b.instructions.foldlM step { block := b, info := fun _ => .empty }).map State.block

/-- `MSR NZCV, Xt; MRS Xt2, NZCV` as the A64 translator emits it: `SetNZCVRaw(GetW(Xt))`, then
`SetW(Xt2, GetNZCVRaw())`. Both translators return true, so the two instructions share a block. -/
def msrMrsNzcvBlock (t t2 : Fin 32) : Block where
  pool
    | 0 => mkInst .a64GetW 1 [.a64Reg t]
    | 1 => mkInst .a64SetNZCVRaw 0 [.inst 0]
    | 2 => mkInst .a64GetNZCVRaw 1 []
    | 3 => mkInst .a64SetW 0 [.a64Reg t2, .inst 2]
    | _ => Inst.new .void
  instructions := [0, 1, 2, 3]

/-- The context in which X0 holds `x` and the rest is zero. -/
def x0Context (x : BitVec 64) : A64Context where
  reg r := if r = 0 then x else 0
  sp := 0
  vec _ := 0
  nzcv := 0

/-- The meaning of the open opcodes in a run of a block that has none: the context as it is, and no value. -/
def noOpenOpcodes : InstRef → A64Context → A64Context × Outcome :=
  fun _ c => (c, .plain .void)

/-- `A64GetSetElimination` changes what `MSR NZCV, X0; MRS X1, NZCV` leaves in X1. With X0 = 1 the block writes NZCV
from the word 1, whose flag bits are clear, and reads the flags back as 0 into X1; after the pass the read is
`Identity(GetW(X0))`, and X1 receives 1. -/
theorem a64GetSetElimination_forwards_unmasked_nzcv :
    ((msrMrsNzcvBlock 0 1).execA64 noOpenOpcodes (x0Context 1)).1.reg 1 = 0 ∧
      ((a64GetSetElimination (msrMrsNzcvBlock 0 1)).map fun b => (b.execA64 noOpenOpcodes (x0Context 1)).1.reg 1) =
        some 1 := by
  constructor
  · decide
  · decide

end Dynarmic.Optimization
