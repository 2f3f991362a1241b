import Dynarmic.IR.Semantics

/-!
# The guest context an IR block reads and writes

`Block.run` (in `Dynarmic.IR.Semantics`) takes the getters of the guest context as inputs of the block. A pass that moves
values between the getters and the setters of the context (`A64GetSetElimination`, `A32GetSetElimination`) is compared
with the block on a context instead: here a getter reads the context as the run has left it, and a setter writes it.

What a getter returns and what a setter stores are what the x64 emitters do (`a64_emit_x64.cpp`, `a32_emit_x64.cpp`).
On A64, `SetW` stores its word zero-extended into the X register; `GetS` and `GetD` return the low 32 or 64 bits of the
vector register with the rest zero, and `SetS` and `SetD` store those bits with the rest zero; the NZCV word keeps the
four flags only, so `SetNZCVRaw` keeps bits 31-28 of its word and `GetNZCVRaw` returns them with the other bits zero.
On A32, the extended registers are 64 words, of which S`n` is word `n`, D`n` words `2n` and `2n + 1`, Q`n` words `4n` to
`4n + 3`; `GetVector` of a D register returns it with the upper half zero, `SetVector` of one stores the lower half.
`SetCpsrNZC` writes the byte of `cpsr_nzcv` that holds N, Z and C: with the empty NZCV immediate it clears N and Z.

Every other instruction computes its outcome as `Block.run` has it, except the opcodes whose meaning this model leaves
open (`Opcode.isInput`): such an instruction reads the context and may write it, as a parameter `ext` of the run says.
-/

namespace Dynarmic.IR

/-- The A64 guest context as `A64JitState` keeps it on the x64 backend: X0-X30, SP, V0-V31, and the flags N, Z, C, V
(bits 3 to 0), which `cpsr_nzcv` holds in the x64 flag layout and nothing else of. -/
structure A64Context where
  reg : Fin 31 → BitVec 64
  sp : BitVec 64
  vec : Fin 32 → BitVec 128
  nzcv : BitVec 4

/-- `Value::GetA64RegRef` as an index of `A64JitState::reg`: R31 is not one (the IR emitter turns ZR into an
immediate, and `A64GetSetElimination` indexes its table with `at`). -/
def Value.a64RegIndex : Value → Option (Fin 31)
  | .a64Reg r => if h : r.val < 31 then some ⟨r.val, h⟩ else none
  | _ => none

/-- The value as a `U128`, if it is one. -/
def Val.asU128 : Val → Option (BitVec 128)
  | .u128 x => some x
  | _ => none

/-- `Value::GetA64VecRef`; `none` for a value of another type, where the C++ asserts. -/
def Value.getA64VecRef : Value → Option (Fin 32)
  | .a64Vec v => some v
  | _ => none

namespace A64Context

/-- The low `n` bits of a vector register, the rest zero (`movd`, `movq`, `movss` into a cleared register). -/
def lowBits (n : Nat) (x : BitVec 128) : BitVec 128 :=
  (x.setWidth n).setWidth 128

/-- The NZCV word `GetNZCVRaw` returns: the flags in bits 31-28, the rest zero. -/
def nzcvRaw (c : A64Context) : BitVec 32 :=
  c.nzcv ++ (0 : BitVec 28)

end A64Context

section Exec

variable (ext : InstRef → A64Context → A64Context × Outcome)

/-- One instruction on the A64 context, from the outcomes of its arguments: the outcome, and the context after it. A
setter whose value has another type, or a register operand that is not one, leaves the context and has no outcome. -/
def execA64Inst (c : A64Context) (a : Fin 4 → Option Outcome) (r : InstRef) (i : Inst) :
    A64Context × Option Outcome :=
  let done (c' : A64Context) : A64Context × Option Outcome := (c', some (.plain .void))
  match i.op with
  | .a64GetW => (c, (i.args 0).a64RegIndex.map fun x => .plain (.u32 ((c.reg x).setWidth 32)))
  | .a64GetX => (c, (i.args 0).a64RegIndex.map fun x => .plain (.u64 (c.reg x)))
  | .a64GetS => (c, (i.args 0).getA64VecRef.map fun v => .plain (.u128 (A64Context.lowBits 32 (c.vec v))))
  | .a64GetD => (c, (i.args 0).getA64VecRef.map fun v => .plain (.u128 (A64Context.lowBits 64 (c.vec v))))
  | .a64GetQ => (c, (i.args 0).getA64VecRef.map fun v => .plain (.u128 (c.vec v)))
  | .a64GetSP => (c, some (.plain (.u64 c.sp)))
  | .a64GetNZCVRaw => (c, some (.plain (.u32 c.nzcvRaw)))
  | .a64GetCFlag => (c, some (.plain (.u1 (c.nzcv.getLsbD 1))))
  | .a64SetW =>
    match (i.args 0).a64RegIndex, argU32 a 1 with
    | some x, some v => done { c with reg := Function.update c.reg x (v.setWidth 64) }
    | _, _ => (c, none)
  | .a64SetX =>
    match (i.args 0).a64RegIndex, argU64 a 1 with
    | some x, some v => done { c with reg := Function.update c.reg x v }
    | _, _ => (c, none)
  | .a64SetS =>
    match (i.args 0).getA64VecRef, (a 1).bind (·.value.asU128) with
    | some r, some v => done { c with vec := Function.update c.vec r (A64Context.lowBits 32 v) }
    | _, _ => (c, none)
  | .a64SetD =>
    match (i.args 0).getA64VecRef, (a 1).bind (·.value.asU128) with
    | some r, some v => done { c with vec := Function.update c.vec r (A64Context.lowBits 64 v) }
    | _, _ => (c, none)
  | .a64SetQ =>
    match (i.args 0).getA64VecRef, (a 1).bind (·.value.asU128) with
    | some r, some v => done { c with vec := Function.update c.vec r v }
    | _, _ => (c, none)
  | .a64SetSP =>
    match argU64 a 0 with
    | some v => done { c with sp := v }
    | none => (c, none)
  | .a64SetNZCV =>
    match (a 0).map Outcome.value with
    | some (Val.nzcv flags) => done { c with nzcv := flags }
    | _ => (c, none)
  | .a64SetNZCVRaw =>
    match argU32 a 0 with
    | some v => done { c with nzcv := v.extractLsb' 28 4 }
    | none => (c, none)
  | op => if op.isInput then (ext r c).map id some else (c, evalOp a op)

/-- Run a block on the A64 context: each instruction of the list in order. The result is the context at the end and the
outcome of every instruction that ran. -/
def Block.execA64 (c : A64Context) (b : Block) : A64Context × (InstRef → Option Outcome) :=
  b.instructions.foldl
    (fun (s : A64Context × (InstRef → Option Outcome)) r =>
      let step := execA64Inst ext s.1 (fun k => evalArg s.2 ((b.pool r).args k)) r (b.pool r)
      (step.1, Function.update s.2 r step.2))
    (c, fun _ => none)

end Exec

/-! ### The A32 context -/

/-- The A32 guest context as `A32JitState` keeps it on the x64 backend: R0-R15, the extended registers as 64 words, the
flags N, Z, C, V and Q, and the GE flags as the byte masks `cpsr_ge` holds. The other bits of the CPSR are not kept
here: `GetCpsr` and `SetCpsr` are open opcodes of the run. -/
structure A32Context where
  reg : Fin 16 → BitVec 32
  ext : Fin 64 → BitVec 32
  n : Bool
  z : Bool
  c : Bool
  v : Bool
  q : Bool
  ge : BitVec 32

/-- `Value::GetA32RegRef`; `none` for a value of another type, where the C++ asserts. -/
def Value.getA32RegRef : Value → Option (Fin 16)
  | .a32Reg r => some r
  | _ => none

/-- `Value::GetA32ExtRegRef`; `none` for a value of another type, where the C++ asserts. -/
def Value.getA32ExtRegRef : Value → Option (Fin 80)
  | .a32ExtReg r => some r
  | _ => none

/-- `A32::IsDoubleExtReg`. -/
def isDoubleExtReg (r : Fin 80) : Bool :=
  32 ≤ r.val && r.val < 64

/-- `A32::RegNumber(ExtReg)`: the number of the register in its bank. -/
def extRegNumber (r : Fin 80) : Nat :=
  if r.val < 32 then r.val else if r.val < 64 then r.val - 32 else r.val - 64

namespace A32Context

/-- Word `k` of the extended registers (zero past the last). -/
def word (c : A32Context) (k : Nat) : BitVec 32 :=
  if h : k < 64 then c.ext ⟨k, h⟩ else 0

/-- Write word `k` of the extended registers (nothing past the last). -/
def setWord (c : A32Context) (k : Nat) (x : BitVec 32) : A32Context :=
  if h : k < 64 then { c with ext := Function.update c.ext ⟨k, h⟩ x } else c

/-- D`n`. -/
def double (c : A32Context) (n : Nat) : BitVec 64 :=
  c.word (2 * n + 1) ++ c.word (2 * n)

/-- Q`n`. -/
def quad (c : A32Context) (n : Nat) : BitVec 128 :=
  c.word (4 * n + 3) ++ c.word (4 * n + 2) ++ c.word (4 * n + 1) ++ c.word (4 * n)

/-- Write D`n`. -/
def setDouble (c : A32Context) (n : Nat) (x : BitVec 64) : A32Context :=
  (c.setWord (2 * n) (x.extractLsb' 0 32)).setWord (2 * n + 1) (x.extractLsb' 32 32)

/-- Write Q`n`. -/
def setQuad (c : A32Context) (n : Nat) (x : BitVec 128) : A32Context :=
  (((c.setWord (4 * n) (x.extractLsb' 0 32)).setWord (4 * n + 1) (x.extractLsb' 32 32)).setWord (4 * n + 2)
    (x.extractLsb' 64 32)).setWord (4 * n + 3) (x.extractLsb' 96 32)

/-- The GE byte masks `SetGEFlagsCompressed` makes of bits 19-16 of its word. -/
def geOfCompressed (x : BitVec 32) : BitVec 32 :=
  (bif x.getLsbD 19 then 0xFF000000 else 0) ||| (bif x.getLsbD 18 then 0x00FF0000 else 0) |||
    (bif x.getLsbD 17 then 0x0000FF00 else 0) ||| (bif x.getLsbD 16 then 0x000000FF else 0)

/-- The flags N, Z, C, V from bits 31-28 of a word. -/
def setNZCVWord (c : A32Context) (x : BitVec 32) : A32Context :=
  { c with n := x.getLsbD 31, z := x.getLsbD 30, c := x.getLsbD 29, v := x.getLsbD 28 }

end A32Context

section ExecA32

variable (ext : InstRef → A32Context → A32Context × Outcome)

/-- One instruction on the A32 context, from the outcomes of its arguments, as `execA64Inst` on the A64 one. -/
def execA32Inst (c : A32Context) (a : Fin 4 → Option Outcome) (r : InstRef) (i : Inst) :
    A32Context × Option Outcome :=
  let done (c' : A32Context) : A32Context × Option Outcome := (c', some (.plain .void))
  match i.op with
  | .a32GetRegister => (c, (i.args 0).getA32RegRef.map fun r => .plain (.u32 (c.reg r)))
  | .a32GetExtendedRegister32 =>
    (c, (i.args 0).getA32ExtRegRef.map fun r => .plain (.u32 (c.word (extRegNumber r))))
  | .a32GetExtendedRegister64 =>
    (c, (i.args 0).getA32ExtRegRef.map fun r => .plain (.u64 (c.double (extRegNumber r))))
  | .a32GetVector =>
    (c, (i.args 0).getA32ExtRegRef.map fun r =>
      .plain (.u128 (if isDoubleExtReg r then (c.double (extRegNumber r)).setWidth 128 else c.quad (extRegNumber r))))
  | .a32GetCFlag => (c, some (.plain (.u1 c.c)))
  | .a32GetGEFlags => (c, some (.plain (.u32 c.ge)))
  | .a32SetRegister =>
    match (i.args 0).getA32RegRef, argU32 a 1 with
    | some r, some x => done { c with reg := Function.update c.reg r x }
    | _, _ => (c, none)
  | .a32SetExtendedRegister32 =>
    match (i.args 0).getA32ExtRegRef, argU32 a 1 with
    | some r, some x => done (c.setWord (extRegNumber r) x)
    | _, _ => (c, none)
  | .a32SetExtendedRegister64 =>
    match (i.args 0).getA32ExtRegRef, argU64 a 1 with
    | some r, some x => done (c.setDouble (extRegNumber r) x)
    | _, _ => (c, none)
  | .a32SetVector =>
    match (i.args 0).getA32ExtRegRef, (a 1).bind (·.value.asU128) with
    | some r, some x =>
      done (if isDoubleExtReg r then c.setDouble (extRegNumber r) (x.setWidth 64) else c.setQuad (extRegNumber r) x)
    | _, _ => (c, none)
  | .a32SetCpsrNZCV =>
    match (a 0).map Outcome.value with
    | some (Val.nzcv f) => done { c with n := f.getLsbD 3, z := f.getLsbD 2, c := f.getLsbD 1, v := f.getLsbD 0 }
    | _ => (c, none)
  | .a32SetCpsrNZCVRaw =>
    match argU32 a 0 with
    | some x => done (c.setNZCVWord x)
    | none => (c, none)
  | .a32SetCpsrNZCVQ =>
    match argU32 a 0 with
    | some x => done { c.setNZCVWord x with q := x.getLsbD 27 }
    | none => (c, none)
  | .a32SetCpsrNZ =>
    match (a 0).map Outcome.value with
    | some (Val.nzcv f) => done { c with n := f.getLsbD 3, z := f.getLsbD 2 }
    | _ => (c, none)
  | .a32SetCpsrNZC =>
    -- the byte that holds N, Z and C is written whole; the empty NZCV immediate leaves N and Z clear
    match i.args 0, (a 0).map Outcome.value, argU1 a 1 with
    | .nzcvMarker, _, some carry => done { c with n := false, z := false, c := carry }
    | _, some (Val.nzcv f), some carry => done { c with n := f.getLsbD 3, z := f.getLsbD 2, c := carry }
    | _, _, _ => (c, none)
  | .a32OrQFlag =>
    match argU1 a 0 with
    | some x => done { c with q := c.q || x }
    | none => (c, none)
  | .a32SetGEFlags =>
    match argU32 a 0 with
    | some x => done { c with ge := x }
    | none => (c, none)
  | .a32SetGEFlagsCompressed =>
    match argU32 a 0 with
    | some x => done { c with ge := A32Context.geOfCompressed x }
    | none => (c, none)
  | .a32SetCpsr => (ext r c).map id some
  | op => if op.isInput then (ext r c).map id some else (c, evalOp a op)

/-- Run a block on the A32 context: each instruction of the list in order. -/
def Block.execA32 (c : A32Context) (b : Block) : A32Context × (InstRef → Option Outcome) :=
  b.instructions.foldl
    (fun (s : A32Context × (InstRef → Option Outcome)) r =>
      let step := execA32Inst ext s.1 (fun k => evalArg s.2 ((b.pool r).args k)) r (b.pool r)
      (step.1, Function.update s.2 r step.2))
    (c, fun _ => none)

end ExecA32

end Dynarmic.IR
