import Dynarmic.IR.Microinstruction

/-!
# The meaning of an IR block

What the backends compute for the integer opcodes, stated once here so that an optimisation pass can be compared with it.
An instruction computes an `Outcome`: its value and, for the opcodes that have them, the side results that a pseudo-operation
reads (`GetCarryFromOp`, `GetOverflowFromOp`, `GetNZCVFromOp`). The arithmetic follows the ARM pseudocode the x64 emitters
implement: `Add(a, b, c)` is `AddWithCarry(a, b, c)`, `Sub(a, b, c)` is `AddWithCarry(a, NOT b, c)`, a 32-bit shift by a
register amount shifts in zeros past the width and sets the carry to the last bit shifted out, a 64-bit shift is the
`Safe::` shift, division by zero gives zero.

The block's inputs are the instructions whose value the model does not compute from their arguments: the getters of the
guest context, the memory reads, and every opcode the model does not name. A valuation gives each of them its outcome, by
the instruction's identity; a pass that keeps those instructions in place is then compared with the original block under
the same valuation.

`GetNZCVFromOp` of an instruction that has no flags of its own (a logical operation, or an instruction that a pass turned
into an `Identity`) is computed from the value, with C and V clear: this is the x64 emitter's `EmitGetNZCVFromOp` when the
parent did not define the flags.
-/

namespace Dynarmic.IR

/-- A value an instruction computes. -/
inductive Val where
  | void
  | u1 (b : Bool)
  | u8 (x : BitVec 8)
  | u16 (x : BitVec 16)
  | u32 (x : BitVec 32)
  | u64 (x : BitVec 64)
  | u128 (x : BitVec 128)
  | nzcv (flags : BitVec 4)
  deriving DecidableEq, Repr

namespace Val

/-- The value as a `U1`, if it is one. -/
def asU1 : Val → Option Bool
  | u1 b => some b
  | _ => none

/-- The value as a `U8`, if it is one. -/
def asU8 : Val → Option (BitVec 8)
  | u8 x => some x
  | _ => none

/-- The value as a `U16`, if it is one. -/
def asU16 : Val → Option (BitVec 16)
  | u16 x => some x
  | _ => none

/-- The value as a `U32`, if it is one. -/
def asU32 : Val → Option (BitVec 32)
  | u32 x => some x
  | _ => none

/-- The value as a `U64`, if it is one. -/
def asU64 : Val → Option (BitVec 64)
  | u64 x => some x
  | _ => none

@[simp] theorem asU1_eq_some {v : Val} {x : Bool} : v.asU1 = some x ↔ v = u1 x := by
  cases v <;> simp [asU1]

@[simp] theorem asU8_eq_some {v : Val} {x : BitVec 8} : v.asU8 = some x ↔ v = u8 x := by
  cases v <;> simp [asU8]

@[simp] theorem asU16_eq_some {v : Val} {x : BitVec 16} : v.asU16 = some x ↔ v = u16 x := by
  cases v <;> simp [asU16]

@[simp] theorem asU32_eq_some {v : Val} {x : BitVec 32} : v.asU32 = some x ↔ v = u32 x := by
  cases v <;> simp [asU32]

@[simp] theorem asU64_eq_some {v : Val} {x : BitVec 64} : v.asU64 = some x ↔ v = u64 x := by
  cases v <;> simp [asU64]

/-- The immediate that evaluates to a value; a `U128` and a flags value have none. -/
def toValue : Val → Value
  | void => .void
  | u1 b => .u1 b
  | u8 x => .u8 x
  | u16 x => .u16 x
  | u32 x => .u32 x
  | u64 x => .u64 x
  | u128 _ | nzcv _ => .void

end Val

/-- What an instruction computes: its value and the side results its pseudo-operations may read. -/
structure Outcome where
  value : Val
  carry : Option Bool
  overflow : Option Bool
  nzcv : Option (BitVec 4)
  deriving DecidableEq, Repr

/-- An outcome with a value and no side results. -/
def Outcome.plain (value : Val) : Outcome :=
  { value, carry := none, overflow := none, nzcv := none }

/-- Reading a typed value out of a plain outcome reads it out of the value. -/
theorem bind_map_plain {β : Type} (o : Option Val) (f : Val → Option β) :
    (o.map Outcome.plain).bind (fun r => f r.value) = o.bind f := by
  cases o <;> rfl

/-! ### The arithmetic of the opcodes -/

/-- The flags word `N Z C V`, with N in the top bit. -/
def nzcvFlags (n z c v : Bool) : BitVec 4 :=
  (bif n then 8 else 0) ||| (bif z then 4 else 0) ||| (bif c then 2 else 0) ||| (bif v then 1 else 0)

/-- The N and Z flags of a result, C and V clear. -/
def nzFlags (result : BitVec w) : BitVec 4 :=
  nzcvFlags result.msb (result == 0) false false

/-- ARM `AddWithCarry`: the sum, the carry out (the unsigned sum does not fit) and the signed overflow. -/
def addWithCarry (x y : BitVec w) (carryIn : Bool) : BitVec w × Bool × Bool :=
  let unsignedSum := x.toNat + y.toNat + carryIn.toNat
  let signedSum := x.toInt + y.toInt + carryIn.toNat
  let result := BitVec.ofNat w unsignedSum
  (result, decide (result.toNat ≠ unsignedSum), decide (result.toInt ≠ signedSum))

/-- The sum `AddWithCarry` computes is the sum modulo `2 ^ w`. -/
theorem addWithCarry_fst (x y : BitVec w) (carryIn : Bool) :
    (addWithCarry x y carryIn).1 = x + y + BitVec.ofNat w carryIn.toNat := by
  apply BitVec.eq_of_toNat_eq
  simp [addWithCarry, BitVec.toNat_add, Nat.add_mod]

/-- The outcome of an `AddWithCarry` of width `w`, with its flags. -/
def addOutcome (wrap : BitVec w → Val) (x y : BitVec w) (carryIn : Bool) : Outcome :=
  let (result, c, v) := addWithCarry x y carryIn
  { value := wrap result, carry := some c, overflow := some v, nzcv := some (nzcvFlags result.msb (result == 0) c v) }

/-- A 32-bit shift by a register amount: the result and the carry out. A zero amount keeps the value and the carry in. -/
def shift32 (op : BitVec 32 → Nat → BitVec 32) (carryOut : BitVec 32 → Nat → Bool) (x : BitVec 32) (amount : BitVec 8)
    (carryIn : Bool) : Outcome :=
  if amount = 0 then { (Outcome.plain (.u32 x)) with carry := some carryIn }
  else { (Outcome.plain (.u32 (op x amount.toNat))) with carry := some (carryOut x amount.toNat) }

/-- `LSL` by `n`: the last bit shifted out is bit `32 - n`, none past 32. -/
def lslCarry (x : BitVec 32) (n : Nat) : Bool :=
  decide (n ≤ 32) && x.getLsbD (32 - n)

/-- `LSR` by `n`: the last bit shifted out is bit `n - 1`, none past 32. -/
def lsrCarry (x : BitVec 32) (n : Nat) : Bool :=
  decide (n ≤ 32) && x.getLsbD (n - 1)

/-- `ASR` by `n`: bit `n - 1`, and the sign bit from 32 on. -/
def asrCarry (x : BitVec 32) (n : Nat) : Bool :=
  x.getLsbD (min n 32 - 1)

/-- `ROR` by `n`: the top bit of the result. -/
def rorCarry (x : BitVec 32) (n : Nat) : Bool :=
  (x.rotateRight n).msb

/-- Byte reversal of a halfword: its low byte on top (`++` puts its left operand in the high bits). -/
def byteReverse16 (x : BitVec 16) : BitVec 16 :=
  x.extractLsb' 0 8 ++ x.extractLsb' 8 8

/-- Byte reversal of a word. -/
def byteReverse32 (x : BitVec 32) : BitVec 32 :=
  x.extractLsb' 0 8 ++ x.extractLsb' 8 8 ++ x.extractLsb' 16 8 ++ x.extractLsb' 24 8

/-- Byte reversal of a doubleword. -/
def byteReverse64 (x : BitVec 64) : BitVec 64 :=
  x.extractLsb' 0 8 ++ x.extractLsb' 8 8 ++ x.extractLsb' 16 8 ++ x.extractLsb' 24 8 ++ x.extractLsb' 32 8 ++
    x.extractLsb' 40 8 ++ x.extractLsb' 48 8 ++ x.extractLsb' 56 8

/-! ### Evaluation -/

/-- The opcodes whose outcome is an input of the block: the guest context getters, the pseudo-operations of opcodes this
model does not compute, and every opcode it does not name. -/
def Opcode.isInput : Opcode → Bool
  | .a32GetRegister | .a32GetExtendedRegister32 | .a32GetExtendedRegister64 | .a32GetVector | .a32GetCpsr
  | .a32GetCFlag | .a32GetGEFlags | .a64GetCFlag | .a64GetNZCVRaw | .a64GetW | .a64GetX | .a64GetS | .a64GetD
  | .a64GetQ | .a64GetSP | .getGEFromOp | .getUpperFromOp | .getLowerFromOp | .other _ _ => true
  | _ => false

/-- The outcome of an argument: an immediate is a plain value, a reference is what the instruction computed. -/
def evalArg (env : InstRef → Option Outcome) : Value → Option Outcome
  | .inst r => env r
  | .void => some (.plain .void)
  | .u1 b => some (.plain (.u1 b))
  | .u8 x => some (.plain (.u8 x))
  | .u16 x => some (.plain (.u16 x))
  | .u32 x => some (.plain (.u32 x))
  | .u64 x => some (.plain (.u64 x))
  | _ => none

section Eval

variable (a : Fin 4 → Option Outcome)

/-- Argument `k` as a value of each type. -/
def argU1 (k : Fin 4) : Option Bool := (a k).bind (·.value.asU1)
def argU8 (k : Fin 4) : Option (BitVec 8) := (a k).bind (·.value.asU8)
def argU16 (k : Fin 4) : Option (BitVec 16) := (a k).bind (·.value.asU16)
def argU32 (k : Fin 4) : Option (BitVec 32) := (a k).bind (·.value.asU32)
def argU64 (k : Fin 4) : Option (BitVec 64) := (a k).bind (·.value.asU64)

/-- A 32-bit operation of two arguments, no side results. -/
def binary32 (f : BitVec 32 → BitVec 32 → BitVec 32) : Option Outcome := do
  some (.plain (.u32 (f (← argU32 a 0) (← argU32 a 1))))

/-- A 64-bit operation of two arguments, no side results. -/
def binary64 (f : BitVec 64 → BitVec 64 → BitVec 64) : Option Outcome := do
  some (.plain (.u64 (f (← argU64 a 0) (← argU64 a 1))))

/-- A 64-bit shift by a byte amount. -/
def shift64 (f : BitVec 64 → Nat → BitVec 64) : Option Outcome := do
  some (.plain (.u64 (f (← argU64 a 0) (← argU8 a 1).toNat)))

/-- The outcome of an opcode that the model computes, from the outcomes of its arguments. -/
def evalOp : Opcode → Option Outcome
  | .identity => do some (.plain (← a 0).value)
  | .getCarryFromOp => do some (.plain (.u1 (← (← a 0).carry)))
  | .getOverflowFromOp => do some (.plain (.u1 (← (← a 0).overflow)))
  | .getNZCVFromOp => do
    let parent ← a 0
    match parent.nzcv, parent.value with
    | some flags, _ => some (.plain (.nzcv flags))
    | none, .u32 x => some (.plain (.nzcv (nzFlags x)))
    | none, .u64 x => some (.plain (.nzcv (nzFlags x)))
    | none, _ => none
  | .getNZFromOp => do
    match (← a 0).value with
    | .u32 x => some (.plain (.nzcv (nzFlags x)))
    | .u64 x => some (.plain (.nzcv (nzFlags x)))
    | _ => none
  | .leastSignificantWord => do some (.plain (.u32 ((← argU64 a 0).setWidth 32)))
  | .leastSignificantHalf => do some (.plain (.u16 ((← argU32 a 0).setWidth 16)))
  | .leastSignificantByte => do some (.plain (.u8 ((← argU32 a 0).setWidth 8)))
  | .mostSignificantWord => do
    let x ← argU64 a 0
    some { (Outcome.plain (.u32 ((x >>> 32).setWidth 32))) with carry := some (x.getLsbD 31) }
  | .mostSignificantBit => do some (.plain (.u1 (← argU32 a 0).msb))
  | .isZero32 => do some (.plain (.u1 ((← argU32 a 0) == 0)))
  | .isZero64 => do some (.plain (.u1 ((← argU64 a 0) == 0)))
  | .logicalShiftLeft32 => do some (shift32 (· <<< ·) lslCarry (← argU32 a 0) (← argU8 a 1) (← argU1 a 2))
  | .logicalShiftRight32 => do some (shift32 (· >>> ·) lsrCarry (← argU32 a 0) (← argU8 a 1) (← argU1 a 2))
  | .arithmeticShiftRight32 => do
    some (shift32 BitVec.sshiftRight asrCarry (← argU32 a 0) (← argU8 a 1) (← argU1 a 2))
  | .rotateRight32 => do some (shift32 BitVec.rotateRight rorCarry (← argU32 a 0) (← argU8 a 1) (← argU1 a 2))
  | .logicalShiftLeft64 => shift64 a (· <<< ·)
  | .logicalShiftRight64 => shift64 a (· >>> ·)
  | .arithmeticShiftRight64 => shift64 a BitVec.sshiftRight
  | .rotateRight64 => shift64 a BitVec.rotateRight
  | .logicalShiftLeftMasked32 => binary32 a fun x s => x <<< (s &&& 0x1f)
  | .logicalShiftLeftMasked64 => binary64 a fun x s => x <<< (s &&& 0x3f)
  | .logicalShiftRightMasked32 => binary32 a fun x s => x >>> (s &&& 0x1f)
  | .logicalShiftRightMasked64 => binary64 a fun x s => x >>> (s &&& 0x3f)
  | .arithmeticShiftRightMasked32 => binary32 a fun x s => x.sshiftRight (s &&& 0x1f).toNat
  | .arithmeticShiftRightMasked64 => binary64 a fun x s => x.sshiftRight (s &&& 0x3f).toNat
  | .rotateRightMasked32 => binary32 a fun x s => x.rotateRight s.toNat
  | .rotateRightMasked64 => binary64 a fun x s => x.rotateRight s.toNat
  | .add32 => do some (addOutcome .u32 (← argU32 a 0) (← argU32 a 1) (← argU1 a 2))
  | .add64 => do some (addOutcome .u64 (← argU64 a 0) (← argU64 a 1) (← argU1 a 2))
  | .sub32 => do some (addOutcome .u32 (← argU32 a 0) (~~~(← argU32 a 1)) (← argU1 a 2))
  | .sub64 => do some (addOutcome .u64 (← argU64 a 0) (~~~(← argU64 a 1)) (← argU1 a 2))
  | .mul32 => binary32 a (· * ·)
  | .mul64 => binary64 a (· * ·)
  | .unsignedDiv32 => binary32 a (· / ·)
  | .unsignedDiv64 => binary64 a (· / ·)
  | .signedDiv32 => binary32 a BitVec.sdiv
  | .signedDiv64 => binary64 a BitVec.sdiv
  | .and32 => binary32 a (· &&& ·)
  | .and64 => binary64 a (· &&& ·)
  | .andNot32 => binary32 a fun x y => x &&& ~~~y
  | .andNot64 => binary64 a fun x y => x &&& ~~~y
  | .eor32 => binary32 a (· ^^^ ·)
  | .eor64 => binary64 a (· ^^^ ·)
  | .or32 => binary32 a (· ||| ·)
  | .or64 => binary64 a (· ||| ·)
  | .not32 => do some (.plain (.u32 (~~~(← argU32 a 0))))
  | .not64 => do some (.plain (.u64 (~~~(← argU64 a 0))))
  | .signExtendByteToWord => do some (.plain (.u32 ((← argU8 a 0).signExtend 32)))
  | .signExtendHalfToWord => do some (.plain (.u32 ((← argU16 a 0).signExtend 32)))
  | .signExtendByteToLong => do some (.plain (.u64 ((← argU8 a 0).signExtend 64)))
  | .signExtendHalfToLong => do some (.plain (.u64 ((← argU16 a 0).signExtend 64)))
  | .signExtendWordToLong => do some (.plain (.u64 ((← argU32 a 0).signExtend 64)))
  | .zeroExtendByteToWord => do some (.plain (.u32 ((← argU8 a 0).setWidth 32)))
  | .zeroExtendHalfToWord => do some (.plain (.u32 ((← argU16 a 0).setWidth 32)))
  | .zeroExtendByteToLong => do some (.plain (.u64 ((← argU8 a 0).setWidth 64)))
  | .zeroExtendHalfToLong => do some (.plain (.u64 ((← argU16 a 0).setWidth 64)))
  | .zeroExtendWordToLong => do some (.plain (.u64 ((← argU32 a 0).setWidth 64)))
  | .byteReverseWord => do some (.plain (.u32 (byteReverse32 (← argU32 a 0))))
  | .byteReverseHalf => do some (.plain (.u16 (byteReverse16 (← argU16 a 0))))
  | .byteReverseDual => do some (.plain (.u64 (byteReverse64 (← argU64 a 0))))
  | .getCFlagFromNZCV => do
    match (← a 0).value with
    | .nzcv flags => some (.plain (.u1 (flags.getLsbD 1)))
    | _ => none
  | .vectorZeroUpper => do
    match (← a 0).value with
    | .u128 x => some (.plain (.u128 ((x.setWidth 64).setWidth 128)))
    | _ => none
  -- the setters write the guest context and compute nothing; an invalidated instruction computes nothing
  | _ => some (.plain .void)

end Eval

/-- The outcome of one instruction, given the outcomes of the instructions before it and the block's inputs. -/
def evalInst (σ : InstRef → Outcome) (env : InstRef → Option Outcome) (r : InstRef) (i : Inst) : Option Outcome :=
  if i.op.isInput then some (σ r) else evalOp (fun k => evalArg env (i.args k)) i.op

/-- Run a block: each instruction of the list in order, from no outcomes. -/
def Block.run (σ : InstRef → Outcome) (b : Block) : InstRef → Option Outcome :=
  b.instructions.foldl (fun env r => Function.update env r (evalInst σ env r (b.pool r))) fun _ => none

/-- The value instruction `r` computes when the block runs. -/
def Block.valueOf (σ : InstRef → Outcome) (b : Block) (r : InstRef) : Option Val :=
  (b.run σ r).map (·.value)

/-! ### Runs that agree on a set of instructions -/

/-- An argument's outcome depends only on the outcome of the instruction it refers to. -/
theorem evalArg_congr {env env' : InstRef → Option Outcome} {v : Value} (h : ∀ t, v = .inst t → env' t = env t) :
    evalArg env' v = evalArg env v := by
  cases v <;> simp only [evalArg]
  case inst t => exact h t rfl

/-- Two blocks with the same instruction list compute the same outcome at every instruction of a set `S` that has the
same code in both and whose arguments refer only to instructions of `S`, whatever the others compute. -/
theorem Block.run_eq_of_agree {b b' : Block} (S : InstRef → Prop) (hl : b'.instructions = b.instructions)
    (hop : ∀ r, S r → (b'.pool r).op = (b.pool r).op) (hargs : ∀ r, S r → (b'.pool r).args = (b.pool r).args)
    (hclosed : ∀ r, S r → ∀ k t, (b.pool r).args k = .inst t → S t) (σ : InstRef → Outcome) :
    ∀ r, S r → b'.run σ r = b.run σ r := by
  unfold Block.run
  rw [hl]
  -- induction on the instruction list: the two environments agree on `S` before each instruction
  suffices h : ∀ (l : List InstRef) (env env' : InstRef → Option Outcome), (∀ r, S r → env' r = env r) →
      ∀ r, S r → l.foldl (fun env r => Function.update env r (evalInst σ env r (b'.pool r))) env' r =
        l.foldl (fun env r => Function.update env r (evalInst σ env r (b.pool r))) env r from
    h _ _ _ fun _ _ => rfl
  intro l
  induction l with
  | nil => exact fun env env' hagree => hagree
  | cons x l ih =>
    intro env env' hagree
    apply ih
    intro r hr
    by_cases hrx : r = x
    · subst hrx
      have hargs' : (fun k => evalArg env' ((b'.pool r).args k)) = fun k => evalArg env ((b.pool r).args k) :=
        funext fun k => by
          rw [hargs r hr]
          exact evalArg_congr fun t ht => hagree t (hclosed r hr k t ht)
      simp only [Function.update_self, evalInst, hop r hr, hargs']
    · simp only [Function.update_of_ne hrx]
      exact hagree r hr


/-! ### The outcome of one instruction of a run -/

/-- A fold of updates leaves an entry that no element of the list names. -/
theorem foldl_update_of_not_mem {F : (InstRef → Option Outcome) → InstRef → Option Outcome} {r : InstRef} :
    ∀ {l : List InstRef} (env : InstRef → Option Outcome), r ∉ l →
      l.foldl (fun env x => Function.update env x (F env x)) env r = env r
  | [], _, _ => rfl
  | x :: l, env, hr => by
    rw [List.foldl_cons, foldl_update_of_not_mem _ fun h => hr (List.mem_cons_of_mem x h),
      Function.update_of_ne (by rintro rfl; exact hr List.mem_cons_self)]

/-- An instruction outside the list computes nothing. -/
theorem Block.run_of_not_mem {b : Block} {r : InstRef} (hr : r ∉ b.instructions) (σ : InstRef → Outcome) :
    b.run σ r = none :=
  foldl_update_of_not_mem _ hr

/-- In a block whose list names each instruction once and whose arguments refer to earlier instructions, an instruction
of the list computes its outcome from the outcomes of the whole run. -/
theorem Block.run_of_mem {b : Block} (hnd : b.instructions.Nodup)
    (hearly : ∀ pre r post, b.instructions = pre ++ r :: post → ∀ k t, (b.pool r).args k = .inst t → t ∈ pre)
    (σ : InstRef → Outcome) {r : InstRef} (hr : r ∈ b.instructions) :
    b.run σ r = evalInst σ (b.run σ) r (b.pool r) := by
  obtain ⟨pre, post, hL⟩ := List.append_of_mem hr
  have hn := hnd
  rw [hL, List.nodup_append, List.nodup_cons] at hn
  obtain ⟨-, ⟨hrpost, -⟩, hdisj⟩ := hn
  generalize henv : pre.foldl (fun env x => Function.update env x (evalInst σ env x (b.pool x))) (fun _ => none) = env₀
  have hrun : b.run σ = post.foldl (fun env x => Function.update env x (evalInst σ env x (b.pool x)))
      (Function.update env₀ r (evalInst σ env₀ r (b.pool r))) := by
    rw [Block.run, hL, List.foldl_append, henv, List.foldl_cons]
  -- an instruction of `pre` is not updated again after its turn
  have hpre : ∀ t ∈ pre, b.run σ t = env₀ t := by
    intro t ht
    have htr : t ≠ r := fun h => hdisj t ht r List.mem_cons_self h
    have htpost : t ∉ post := fun h => hdisj t ht t (List.mem_cons_of_mem r h) rfl
    rw [hrun, foldl_update_of_not_mem _ htpost, Function.update_of_ne htr]
  have hself : b.run σ r = evalInst σ env₀ r (b.pool r) := by
    rw [hrun, foldl_update_of_not_mem _ hrpost, Function.update_self]
  rw [hself, evalInst, evalInst]
  split
  · rfl
  · -- the arguments refer into `pre`, where the two environments agree
    congr 1
    funext k
    exact evalArg_congr fun t ht => (hpre t (hearly pre r post hL k t ht)).symm

/-! ### What an opcode reads of its arguments -/

/-- The opcodes whose outcome reads more of argument 0 than its value: the side results of the parent. -/
def Opcode.readsSideResults : Opcode → Bool
  | .getCarryFromOp | .getOverflowFromOp | .getNZCVFromOp => true
  | _ => false

/-- An opcode computes its outcome from the values of its arguments, and from the side results of argument 0 where it
reads them. -/
theorem evalOp_congr {a a' : Fin 4 → Option Outcome} (hv : ∀ k, (a' k).map Outcome.value = (a k).map Outcome.value)
    (op : Opcode) (h0 : op.readsSideResults = true → a' 0 = a 0) : evalOp a' op = evalOp a op := by
  -- everything but the side results is read through the value of an argument
  have hb : ∀ k {β : Type} (f : Outcome → Option β), (∀ o o', o'.value = o.value → f o' = f o) →
      (a' k >>= f) = (a k >>= f) := by
    intro k β f hf
    have hk := hv k
    cases ha' : a' k <;> cases ha : a k <;> simp only [ha, ha', Option.map_none, Option.map_some, reduceCtorEq,
      Option.some.injEq] at hk
    · rfl
    · exact hf _ _ hk
  have hU1 : ∀ k, argU1 a' k = argU1 a k := fun k => hb k _ fun o o' h => by rw [h]
  have hU8 : ∀ k, argU8 a' k = argU8 a k := fun k => hb k _ fun o o' h => by rw [h]
  have hU16 : ∀ k, argU16 a' k = argU16 a k := fun k => hb k _ fun o o' h => by rw [h]
  have hU32 : ∀ k, argU32 a' k = argU32 a k := fun k => hb k _ fun o o' h => by rw [h]
  have hU64 : ∀ k, argU64 a' k = argU64 a k := fun k => hb k _ fun o o' h => by rw [h]
  cases op
  case getCarryFromOp | getOverflowFromOp | getNZCVFromOp =>
    dsimp only [evalOp]
    rw [h0 rfl]
  case identity | getNZFromOp | getCFlagFromNZCV | vectorZeroUpper =>
    dsimp only [evalOp]
    exact hb 0 _ fun o o' h => by rw [h]
  -- the setters and `Void` compute nothing from their arguments; the rest read them as values of a type
  all_goals dsimp only [evalOp, binary32, binary64, shift64]
  all_goals simp only [hU1, hU8, hU16, hU32, hU64]

/-- The value an opcode computes from the values of its arguments: what `evalOp` gives on arguments that are plain
values. -/
def opValue (op : Opcode) (vals : Fin 4 → Option Val) : Option Val :=
  (evalOp (fun k => (vals k).map Outcome.plain) op).map Outcome.value

/-- An opcode that reads no side results computes, from arguments of any outcomes, the value `opValue` gives from their
values. -/
theorem evalOp_value (a : Fin 4 → Option Outcome) {op : Opcode} (hside : op.readsSideResults = false) :
    (evalOp a op).map Outcome.value = opValue op fun k => (a k).map Outcome.value := by
  have hv : ∀ k, (((a k).map Outcome.value).map Outcome.plain).map Outcome.value = (a k).map Outcome.value := by
    intro k
    cases a k <;> rfl
  rw [opValue, evalOp_congr hv op fun h => absurd h (by simp [hside])]

/-- An identity has the value of its argument. -/
@[simp] theorem opValue_identity (vals : Fin 4 → Option Val) : opValue .identity vals = vals 0 := by
  rw [opValue]
  dsimp only [evalOp]
  cases vals 0 <;> rfl

/-! ### Values in a run -/

/-- The value an argument has when the block runs. -/
def Block.argValue (σ : InstRef → Outcome) (b : Block) (v : Value) : Option Val :=
  (evalArg (b.run σ) v).map Outcome.value

@[simp] theorem Block.argValue_inst (σ : InstRef → Outcome) (b : Block) (t : InstRef) :
    b.argValue σ (.inst t) = b.valueOf σ t := rfl

/-- An argument has the same value in two runs when the instruction it refers to does. -/
theorem Block.argValue_congr {b b' : Block} {σ : InstRef → Outcome} {v : Value}
    (h : ∀ t, v = .inst t → b'.valueOf σ t = b.valueOf σ t) : b'.argValue σ v = b.argValue σ v := by
  cases v
  case inst t => exact h t rfl
  all_goals rfl

/-- The arguments of a block whose arguments refer to earlier instructions, in the form `Block.run_of_mem` takes. -/
theorem Block.ArgsEarlier.earlier {b : Block} (hb : b.ArgsEarlier) :
    ∀ pre r post, b.instructions = pre ++ r :: post → ∀ k t, (b.pool r).args k = .inst t → t ∈ pre :=
  fun _ _ _ hL _ _ h => hb.mem_of_arg hL h

section RunValues

variable {b : Block} (hnd : b.instructions.Nodup) (hb : b.ArgsEarlier) (σ : InstRef → Outcome)
include hnd hb

/-- An instruction of the list that is no input and reads no side results has the value its opcode computes from the
values of its arguments. -/
theorem Block.valueOf_of_mem {r : InstRef} (hr : r ∈ b.instructions) (hin : (b.pool r).op.isInput = false)
    (hside : (b.pool r).op.readsSideResults = false) :
    b.valueOf σ r = opValue (b.pool r).op fun k => b.argValue σ ((b.pool r).args k) := by
  rw [Block.valueOf, Block.run_of_mem hnd hb.earlier σ hr, evalInst, hin, if_neg Bool.false_ne_true]
  exact evalOp_value _ hside

/-- An identity of the list has the value of its argument. -/
theorem Block.valueOf_identity {t : InstRef} (ht : t ∈ b.instructions) (hid : (b.pool t).op = .identity) :
    b.valueOf σ t = b.argValue σ ((b.pool t).args 0) := by
  rw [Block.valueOf_of_mem hnd hb σ ht (by rw [hid]; rfl) (by rw [hid]; rfl), hid, opValue_identity]

/-- Following identities keeps the value of an argument. -/
theorem Block.argValue_resolveAux :
    ∀ (n : Nat) (v : Value), v.refersInto b.instructions = true →
      b.argValue σ (Value.resolveAux b.pool n v) = b.argValue σ v
  | 0, _, _ => rfl
  | n + 1, v, hv => by
    cases v
    case inst t =>
      have ht : t ∈ b.instructions := by simpa [Value.refersInto] using hv
      rw [Value.resolveAux]
      split
      · rename_i hid
        have h0 : ((b.pool t).args 0).refersInto b.instructions = true := by
          cases h : (b.pool t).args 0
          case inst u => simpa [Value.refersInto] using hb.mem_of_arg_of_mem ht h
          all_goals rfl
        rw [Block.argValue_resolveAux n _ h0, Block.argValue_inst, Block.valueOf_identity hnd hb σ ht hid]
      · rfl
    all_goals rfl

/-- Resolving identities keeps the value of an argument that refers into the block. -/
theorem Block.argValue_resolve {v : Value} (hv : v.refersInto b.instructions = true) :
    b.argValue σ (v.resolve b) = b.argValue σ v :=
  Block.argValue_resolveAux hnd hb σ b.fuel v hv

/-- A value that reports itself immediate and has a value in the run ends its chain at the immediate of that value. -/
theorem Block.resolve_of_argValue {v : Value} (hv : v.refersInto b.instructions = true) (himm : v.isImmediate b = true)
    {x : Val} (hx : b.argValue σ v = some x) : v.resolve b = x.toValue := by
  rw [← Block.argValue_resolve hnd hb σ hv] at hx
  simp only [Value.isImmediate] at himm
  revert himm hx
  cases v.resolve b <;> simp [Block.argValue, evalArg, Outcome.plain, Val.toValue] <;> rintro rfl <;> rfl

/-- A value whose chain of identities ends at an instruction has the value of that instruction. -/
theorem Block.argValue_of_getInstRecursive {v : Value} (hv : v.refersInto b.instructions = true) {t : InstRef}
    (ht : v.getInstRecursive b = some t) : b.argValue σ v = b.valueOf σ t := by
  have hres : v.resolve b = .inst t := by
    simp only [Value.getInstRecursive] at ht
    split at ht
    · rename_i heq
      rw [heq, Option.some.inj ht]
    · exact absurd ht (by simp)
  rw [← Block.argValue_resolve hnd hb σ hv, hres, Block.argValue_inst]

end RunValues

/-- An instruction with the same code in two blocks of one list, reading no side results, has the same value in both
when the instructions before it do. -/
theorem Block.valueOf_eq_of_same {b b' : Block} (hnd : b.instructions.Nodup) (hb : b.ArgsEarlier)
    (hl : b'.instructions = b.instructions) (hb' : b'.ArgsEarlier) (σ : InstRef → Outcome) {pre post : List InstRef}
    {r : InstRef} (hL : b.instructions = pre ++ r :: post) (hop : (b'.pool r).op = (b.pool r).op)
    (hargs : (b'.pool r).args = (b.pool r).args) (hside : (b.pool r).op.readsSideResults = false)
    (hpre : ∀ t ∈ pre, b'.valueOf σ t = b.valueOf σ t) : b'.valueOf σ r = b.valueOf σ r := by
  have hr : r ∈ b.instructions := by simp [hL]
  by_cases hin : (b.pool r).op.isInput
  · -- an input has the outcome the valuation gives it, in both blocks
    rw [Block.valueOf, Block.valueOf, Block.run_of_mem (hl ▸ hnd) hb'.earlier σ (hl ▸ hr), evalInst, hop, if_pos hin,
      Block.run_of_mem hnd hb.earlier σ hr, evalInst, if_pos hin]
  · rw [Block.valueOf_of_mem (hl ▸ hnd) hb' σ (hl ▸ hr) (by simpa [hop] using hin) (hop ▸ hside),
      Block.valueOf_of_mem hnd hb σ hr (by simpa using hin) hside, hop, hargs]
    congr 1
    funext k
    exact Block.argValue_congr fun t ht => hpre t (hb.mem_of_arg hL ht)

end Dynarmic.IR
