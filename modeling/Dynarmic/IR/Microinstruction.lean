import Dynarmic.IR.Opcode
import Dynarmic.Lib.Run

/-!
# Values, instructions and the instruction pool of a block

`ir/value.{h,cpp}`, `ir/microinstruction.{h,cpp}` and the instruction list of `ir/basic_block.h`.

An instruction is an object of the block's pool, named here by an `InstRef`; the block's instruction list is the order in
which its instructions run. A `Value` is an immediate, an empty value, or a reference to an instruction (`Type::Opaque`).
The queries of `Value` follow chains of `Identity` instructions through the pool, as the C++ methods recurse through
`inner.inst->GetArg(0)`. That recursion ends because a well-formed block has no cycle of instructions; the model bounds it
by the length of the instruction list (`Block.fuel`), which is at least the length of every chain in a well-formed block.

The mutations of an instruction (`SetArg`, `Invalidate`, `ReplaceUsesWith`) keep the def-use bookkeeping as the C++ does:
`Use` and `UndoUse` count the uses of the instruction a value refers to, and a pseudo-operation is linked into, or unlinked
from, the chain of pseudo-operations (`next_pseudoop`) of its argument. Both are skipped for a value that reports itself
immediate. The assertions of the C++ methods are not modelled: a getter applied to a value of another type returns zero.

The last section states the bookkeeping of a well-formed block (`Block.WellFormed`: every use count is the number of
argument slots that refer to the instruction, `Block.uses`) and what each mutation changes: `UndoUse` one count and the
links of a chain, a slot of `ClearArgs` that slot and, unless the value reports itself immediate, one count.
-/

namespace Dynarmic.IR

/-- The four argument slots of an instruction are `Fin 4`; this instance is what their numerals are built from. -/
instance neZeroMaxArgCount : NeZero (4 : Nat) := ⟨by decide⟩

/-- An instruction of the block's pool, by its place in the pool. -/
abbrev InstRef := Nat

/-- `IR::Value`: the empty value, a reference to an instruction, or an immediate of one of the types the modelled code
reads. `a32ExtReg` is `A32::ExtReg` by its place in the enumeration (`S0`..`S31`, `D0`..`D31`, `Q0`..`Q15`). -/
inductive Value where
  | void
  | inst (r : InstRef)
  | a32Reg (r : Fin 16)
  | a32ExtReg (r : Fin 80)
  | a64Reg (r : Fin 32)
  | a64Vec (v : Fin 32)
  | u1 (b : Bool)
  | u8 (x : BitVec 8)
  | u16 (x : BitVec 16)
  | u32 (x : BitVec 32)
  | u64 (x : BitVec 64)
  | nzcvMarker
  deriving DecidableEq, Repr

/-- The bound of register R1, for the blocks written out as examples. -/
theorem one_lt_sixteen : 1 < 16 := Nat.one_lt_succ_succ 14

/-- The bound of register R2. -/
theorem two_lt_sixteen : 2 < 16 := Nat.succ_lt_succ (Nat.succ_lt_succ (Nat.zero_lt_succ 13))

/-- `IR::Inst`: the opcode, the number of uses, the four argument slots and the next pseudo-operation of the chain. -/
structure Inst where
  op : Opcode
  useCount : Nat
  args : Fin 4 → Value
  nextPseudoop : Option InstRef

/-- A fresh instruction, `Inst(op)`: no uses, empty arguments, no pseudo-operation. -/
def Inst.new (op : Opcode) : Inst :=
  { op, useCount := 0, args := fun _ => .void, nextPseudoop := none }

/-- The instructions of a block: the pool of instruction objects and the instruction list. -/
structure Block where
  pool : InstRef → Inst
  instructions : List InstRef

namespace Block

/-- The bound on chains of identities and of pseudo-operations: longer than any chain of a well-formed block. -/
def fuel (b : Block) : Nat :=
  b.instructions.length + 1

/-- Change one instruction object of the pool. -/
def modify (b : Block) (r : InstRef) (f : Inst → Inst) : Block :=
  { b with pool := Function.update b.pool r (f (b.pool r)) }

@[simp] theorem modify_instructions (b : Block) (r : InstRef) (f : Inst → Inst) :
    (b.modify r f).instructions = b.instructions := rfl

@[simp] theorem fuel_modify (b : Block) (r : InstRef) (f : Inst → Inst) : (b.modify r f).fuel = b.fuel := rfl

/-- `modify` changes the instruction it names and no other. -/
theorem pool_modify (b : Block) (r s : InstRef) (f : Inst → Inst) :
    (b.modify r f).pool s = if s = r then f (b.pool r) else b.pool s := by
  by_cases h : s = r
  · subst h
    simp [modify]
  · simp [modify, h]

@[simp] theorem pool_modify_self (b : Block) (r : InstRef) (f : Inst → Inst) : (b.modify r f).pool r = f (b.pool r) := by
  simp [pool_modify]

@[simp] theorem pool_modify_of_ne (b : Block) {r s : InstRef} (f : Inst → Inst) (h : s ≠ r) :
    (b.modify r f).pool s = b.pool s := by
  simp [pool_modify, h]

end Block

/-! ### The queries of `Value` -/

/-- Follow `Identity` instructions from a value, at most `fuel` of them. -/
def Value.resolveAux (pool : InstRef → Inst) : Nat → Value → Value
  | 0, v => v
  | fuel + 1, .inst r => if (pool r).op = .identity then resolveAux pool fuel ((pool r).args 0) else .inst r
  | _ + 1, v => v

namespace Value

variable (b : Block)

/-- The value at the end of the chain of identities that starts at a value. -/
def resolve (v : Value) : Value :=
  resolveAux b.pool b.fuel v

/-- `Value::IsIdentity`. -/
def isIdentity : Value → Bool
  | .inst r => (b.pool r).op = .identity
  | _ => false

/-- `Value::IsImmediate`: through identities, anything but a reference to an instruction (the empty value included). -/
def isImmediate (v : Value) : Bool :=
  match v.resolve b with
  | .inst _ => false
  | _ => true

/-- `Value::GetInstRecursive`. -/
def getInstRecursive (v : Value) : Option InstRef :=
  match v.resolve b with
  | .inst r => some r
  | _ => none

/-- `Value::GetU1`. -/
def getU1 (v : Value) : Bool :=
  match v.resolve b with
  | .u1 x => x
  | _ => false

/-- `Value::GetU8`. -/
def getU8 (v : Value) : BitVec 8 :=
  match v.resolve b with
  | .u8 x => x
  | _ => 0

/-- `Value::GetU32`. -/
def getU32 (v : Value) : BitVec 32 :=
  match v.resolve b with
  | .u32 x => x
  | _ => 0

/-- `Value::GetU64`. -/
def getU64 (v : Value) : BitVec 64 :=
  match v.resolve b with
  | .u64 x => x
  | _ => 0

/-- `Value::GetImmediateAsU64`: the immediate zero-extended to 64 bits. -/
def getImmediateAsU64 (v : Value) : BitVec 64 :=
  match v.resolve b with
  | .u1 x => if x then 1 else 0
  | .u8 x => x.setWidth 64
  | .u16 x => x.setWidth 64
  | .u32 x => x.setWidth 64
  | .u64 x => x
  | _ => 0

/-- `Value::GetImmediateAsS64`: the immediate sign-extended to 64 bits (a boolean is 0 or 1). -/
def getImmediateAsS64 (v : Value) : BitVec 64 :=
  match v.resolve b with
  | .u1 x => if x then 1 else 0
  | .u8 x => x.signExtend 64
  | .u16 x => x.signExtend 64
  | .u32 x => x.signExtend 64
  | .u64 x => x
  | _ => 0

/-- `Value::IsUnsignedImmediate`. -/
def isUnsignedImmediate (v : Value) (value : BitVec 64) : Bool :=
  v.isImmediate b && v.getImmediateAsU64 b == value

/-- `Value::IsSignedImmediate`, with the signed value given by its bits. -/
def isSignedImmediate (v : Value) (value : BitVec 64) : Bool :=
  v.isImmediate b && v.getImmediateAsS64 b == value

/-- `Value::IsZero`. -/
def isZero (v : Value) : Bool :=
  v.isUnsignedImmediate b 0

/-- `Value::HasAllBitsSet`: the immediate is `-1`. -/
def hasAllBitsSet (v : Value) : Bool :=
  v.isSignedImmediate b (BitVec.allOnes 64)

end Value

/-- Resolving a value reads only the opcodes and first arguments of the instructions it passes through: two pools that
agree on those for a set of instructions that holds the first argument of each of its identities resolve alike. -/
theorem Value.resolveAux_congr {p p' : InstRef → Inst} {S : InstRef → Prop} (hop : ∀ r, S r → (p' r).op = (p r).op)
    (harg : ∀ r, S r → (p' r).args 0 = (p r).args 0)
    (hclosed : ∀ r, S r → (p r).op = .identity → ∀ u, (p r).args 0 = .inst u → S u) :
    ∀ (n : Nat) (v : Value), (∀ t, v = .inst t → S t) → resolveAux p' n v = resolveAux p n v
  | 0, _, _ => rfl
  | n + 1, v, hv => by
    cases v with
    | inst t =>
      have ht := hv t rfl
      simp only [resolveAux, hop t ht, harg t ht]
      split
      · exact resolveAux_congr hop harg hclosed n _ fun u hu => hclosed t ht ‹_› u hu
      · rfl
    | _ => rfl

/-- Whether a value reports itself immediate depends only on the opcodes, the first arguments and the length of the
list. -/
theorem Value.isImmediate_congr {b b' : Block} (hl : b'.instructions.length = b.instructions.length)
    (hop : ∀ r, (b'.pool r).op = (b.pool r).op) (harg : ∀ r, (b'.pool r).args 0 = (b.pool r).args 0) (v : Value) :
    v.isImmediate b' = v.isImmediate b := by
  have hres : v.resolve b' = v.resolve b := by
    rw [Value.resolve, Value.resolve, Block.fuel, Block.fuel, hl]
    exact Value.resolveAux_congr (S := fun _ => True) (fun r _ => hop r) (fun r _ => harg r)
      (fun _ _ _ _ _ => trivial) _ v fun _ _ => trivial
  simp only [Value.isImmediate, hres]

/-- A reference to an instruction that is not an identity is not immediate. -/
theorem Value.isImmediate_inst_of_op_ne {b : Block} {t : InstRef} (ht : (b.pool t).op ≠ .identity) :
    (Value.inst t).isImmediate b = false := by
  simp [Value.isImmediate, Value.resolve, Block.fuel, Value.resolveAux, ht]

/-! ### Def-use bookkeeping and the mutations of an instruction -/

namespace Block

/-- The last pseudo-operation of the chain that starts at an instruction (the instruction itself if the chain is empty):
the loop `while (insert_point->next_pseudoop)` of `Inst::Use`. -/
def chainEnd (b : Block) : Nat → InstRef → InstRef
  | 0, r => r
  | fuel + 1, r =>
    match (b.pool r).nextPseudoop with
    | none => r
    | some r' => chainEnd b fuel r'

/-- The element of the chain that starts at an instruction whose next pseudo-operation is `self`: the loop
`while (insert_point->next_pseudoop != this)` of `Inst::UndoUse`. -/
def chainPred (b : Block) (self : InstRef) : Nat → InstRef → Option InstRef
  | 0, _ => none
  | fuel + 1, r =>
    match (b.pool r).nextPseudoop with
    | none => none
    | some r' => if r' = self then some r else chainPred b self fuel r'

/-- `Inst::Use`: count one more use of the instruction the value refers to and, for a pseudo-operation, append it to the
end of that instruction's chain. -/
def use (b : Block) (self : InstRef) : Value → Block
  | .inst t =>
    let b := b.modify t fun i => { i with useCount := i.useCount + 1 }
    if (b.pool self).op.isAPseudoOperation then
      b.modify (b.chainEnd b.fuel t) fun i => { i with nextPseudoop := some self }
    else b
  | _ => b

/-- `Inst::UndoUse`: count one use less and, for a pseudo-operation, unlink it from its argument's chain. -/
def undoUse (b : Block) (self : InstRef) : Value → Block
  | .inst t =>
    let b := b.modify t fun i => { i with useCount := i.useCount - 1 }
    if (b.pool self).op.isAPseudoOperation then
      match b.chainPred self b.fuel t with
      | some p =>
        let next := (b.pool self).nextPseudoop
        (b.modify p fun i => { i with nextPseudoop := next }).modify self fun i => { i with nextPseudoop := none }
      | none => b
    else b
  | _ => b

/-- `Inst::SetArg`. -/
def setArg (b : Block) (self : InstRef) (index : Fin 4) (value : Value) : Block :=
  let old := (b.pool self).args index
  let b := if old.isImmediate b then b else b.undoUse self old
  let b := if value.isImmediate b then b else b.use self value
  b.modify self fun i => { i with args := Function.update i.args index value }

/-- One slot of `Inst::ClearArgs`. -/
def clearArg (b : Block) (self : InstRef) (index : Fin 4) : Block :=
  let value := (b.pool self).args index
  let b := if value.isImmediate b then b else b.undoUse self value
  b.modify self fun i => { i with args := Function.update i.args index .void }

/-- `Inst::ClearArgs`: every one of the four slots, in order. -/
def clearArgs (b : Block) (self : InstRef) : Block :=
  (List.finRange 4).foldl (fun b index => b.clearArg self index) b

/-- `Inst::Invalidate`. -/
def invalidate (b : Block) (self : InstRef) : Block :=
  (b.clearArgs self).modify self fun i => { i with op := .void }

/-- `Inst::ReplaceUsesWith`: the instruction becomes `Identity(replacement)`. -/
def replaceUsesWith (b : Block) (self : InstRef) (replacement : Value) : Block :=
  let b := (b.invalidate self).modify self fun i => { i with op := .identity }
  let b := if replacement.isImmediate b then b else b.use self replacement
  b.modify self fun i => { i with args := Function.update i.args 0 replacement }

/-- The argument slots an opcode has, `args.begin()` to `args.begin() + NumArgs()`. -/
def argSlots (op : Opcode) : List (Fin 4) :=
  (List.finRange 4).filter (·.val < op.numArgs)

/-- `Inst::AreAllArgsImmediates`. -/
def areAllArgsImmediates (b : Block) (self : InstRef) : Bool :=
  (argSlots (b.pool self).op).all fun index => ((b.pool self).args index).isImmediate b

/-- `Inst::HasAssociatedPseudoOperation`. -/
def hasAssociatedPseudoOperation (b : Block) (self : InstRef) : Bool :=
  (b.pool self).nextPseudoop.isSome && !(b.pool self).op.isAPseudoOperation

/-- The first pseudo-operation with a given opcode in the chain that continues after `r`. -/
def findPseudoop (b : Block) (opcode : Opcode) : Nat → Option InstRef → Option InstRef
  | 0, _ => none
  | _ + 1, none => none
  | fuel + 1, some r => if (b.pool r).op = opcode then some r else findPseudoop b opcode fuel (b.pool r).nextPseudoop

/-- `Inst::GetAssociatedPseudoOperation`. -/
def getAssociatedPseudoOperation (b : Block) (self : InstRef) (opcode : Opcode) : Option InstRef :=
  b.findPseudoop opcode b.fuel (b.pool self).nextPseudoop

end Block

/-! ### The def-use bookkeeping of a well-formed block, and what the mutations change -/

/-- `Inst::HasUses`. -/
def Inst.hasUses (i : Inst) : Bool :=
  0 < i.useCount

/-- The number of argument slots that refer to instruction `t`. -/
def argUses (args : Fin 4 → Value) (t : InstRef) : Nat :=
  (List.finRange 4).countP fun k => args k = .inst t

/-- Setting a slot trades the use it held for the use of the new value. -/
theorem argUses_update (args : Fin 4 → Value) (k : Fin 4) (v : Value) (t : InstRef) :
    argUses (Function.update args k v) t + (if args k = .inst t then 1 else 0) =
      argUses args t + (if v = .inst t then 1 else 0) := by
  fin_cases k <;> simp [argUses, List.finRange_succ, List.countP_cons] <;> split_ifs <;> simp_all

/-- Clearing a slot takes away the use it held. -/
theorem argUses_update_void (args : Fin 4 → Value) (k : Fin 4) (t : InstRef) :
    argUses (Function.update args k .void) t + (if args k = .inst t then 1 else 0) = argUses args t := by
  rw [argUses_update, if_neg Value.noConfusion, Nat.add_zero]

/-- The number of argument slots of the block's instructions that refer to instruction `t`: the uses that `use_count`
counts. -/
def Block.uses (b : Block) (t : InstRef) : Nat :=
  (b.instructions.map fun r => argUses (b.pool r).args t).sum

/-- The value refers to no instruction outside `pre`. -/
def Value.refersInto (pre : List InstRef) : Value → Bool
  | .inst t => t ∈ pre
  | _ => true

/-- A block whose def-use bookkeeping is exact: each instruction is once in the list (an intrusive list), the arguments of
the instruction at each place of the list refer only to instructions before it, and the use count of every instruction is
the number of argument slots of the block that refer to it. -/
structure Block.WellFormed (b : Block) : Prop where
  nodup : b.instructions.Nodup
  argsEarlier : ∀ i (hi : i < b.instructions.length) k,
    ((b.pool b.instructions[i]).args k).refersInto (b.instructions.take i) = true
  useCountExact : ∀ t ∈ b.instructions, (b.pool t).useCount = b.uses t

instance (b : Block) : Decidable b.WellFormed :=
  decidable_of_iff (b.instructions.Nodup ∧
      (∀ i (hi : i < b.instructions.length) k,
        ((b.pool b.instructions[i]).args k).refersInto (b.instructions.take i) = true) ∧
      ∀ t ∈ b.instructions, (b.pool t).useCount = b.uses t)
    ⟨fun ⟨h₁, h₂, h₃⟩ => ⟨h₁, h₂, h₃⟩, fun h => ⟨h.nodup, h.argsEarlier, h.useCountExact⟩⟩

/-- In a well-formed block an argument of an instruction refers to an instruction before it. -/
theorem Block.WellFormed.mem_of_arg {b : Block} (hb : b.WellFormed) {pre post : List InstRef} {r : InstRef}
    (hL : b.instructions = pre ++ r :: post) {k : Fin 4} {t : InstRef} (hk : (b.pool r).args k = .inst t) : t ∈ pre := by
  have h := hb.argsEarlier pre.length (by simp [hL]) k
  simp only [hL, List.getElem_append_right (Nat.le_refl _), Nat.sub_self, List.getElem_cons_zero, List.take_left',
    hk, Value.refersInto, decide_eq_true_eq] at h
  exact h

/-- In a well-formed block, an instruction of the list refers only to instructions of the list. -/
theorem Block.WellFormed.mem_of_arg_of_mem {b : Block} (hb : b.WellFormed) {r : InstRef} (hr : r ∈ b.instructions)
    {k : Fin 4} {t : InstRef} (hk : (b.pool r).args k = .inst t) : t ∈ b.instructions := by
  obtain ⟨pre, post, hL⟩ := List.append_of_mem hr
  rw [hL]
  exact List.mem_append_left _ (hb.mem_of_arg hL hk)

/-- In a well-formed block the arguments of the instructions of a front part of the list refer into that part. -/
theorem Block.WellFormed.mem_of_arg_of_prefix {b : Block} (hb : b.WellFormed) {pre rest : List InstRef}
    (hL : b.instructions = pre ++ rest) {r : InstRef} (hr : r ∈ pre) {k : Fin 4} {t : InstRef}
    (hk : (b.pool r).args k = .inst t) : t ∈ pre := by
  obtain ⟨pre₁, post₁, hpre⟩ := List.append_of_mem hr
  have hL₁ : b.instructions = pre₁ ++ r :: (post₁ ++ rest) := by simp [hL, hpre]
  rw [hpre]
  exact List.mem_append_left _ (hb.mem_of_arg hL₁ hk)

/-- The arguments of the instruction at each place of the list refer only to instructions before it: the second field
of `Block.WellFormed`, for the passes that keep it without keeping exact counts. -/
def Block.ArgsEarlier (b : Block) : Prop :=
  ∀ i (hi : i < b.instructions.length) k, ((b.pool b.instructions[i]).args k).refersInto (b.instructions.take i) = true

instance (b : Block) : Decidable b.ArgsEarlier :=
  inferInstanceAs (Decidable (∀ i (hi : i < b.instructions.length) k,
    ((b.pool b.instructions[i]).args k).refersInto (b.instructions.take i) = true))

/-- A value that refers into a list refers into every larger one. -/
theorem Value.refersInto_mono {pre pre' : List InstRef} (h : pre ⊆ pre') {v : Value} (hv : v.refersInto pre = true) :
    v.refersInto pre' = true := by
  cases v
  case inst t =>
    simp only [Value.refersInto, decide_eq_true_eq] at hv ⊢
    exact h hv
  all_goals rfl

/-- The arguments of an instruction refer to instructions before it, stated on the splits of the list. -/
theorem Block.ArgsEarlier.mem_of_arg {b : Block} (hb : b.ArgsEarlier) {pre post : List InstRef} {r : InstRef}
    (hL : b.instructions = pre ++ r :: post) {k : Fin 4} {t : InstRef} (hk : (b.pool r).args k = .inst t) : t ∈ pre := by
  have h := hb pre.length (by simp [hL]) k
  simp only [hL, List.getElem_append_right (Nat.le_refl _), Nat.sub_self, List.getElem_cons_zero, List.take_left',
    hk, Value.refersInto, decide_eq_true_eq] at h
  exact h

/-- With arguments that refer to earlier instructions, an instruction of the list refers only to instructions of the
list. -/
theorem Block.ArgsEarlier.mem_of_arg_of_mem {b : Block} (hb : b.ArgsEarlier) {r : InstRef} (hr : r ∈ b.instructions)
    {k : Fin 4} {t : InstRef} (hk : (b.pool r).args k = .inst t) : t ∈ b.instructions := by
  obtain ⟨pre, post, hL⟩ := List.append_of_mem hr
  rw [hL]
  exact List.mem_append_left _ (hb.mem_of_arg hL hk)

/-- The arguments of the instructions of a front part of the list refer into that part. -/
theorem Block.ArgsEarlier.mem_of_arg_of_prefix {b : Block} (hb : b.ArgsEarlier) {pre rest : List InstRef}
    (hL : b.instructions = pre ++ rest) {r : InstRef} (hr : r ∈ pre) {k : Fin 4} {t : InstRef}
    (hk : (b.pool r).args k = .inst t) : t ∈ pre := by
  obtain ⟨pre₁, post₁, hpre⟩ := List.append_of_mem hr
  have hL₁ : b.instructions = pre₁ ++ r :: (post₁ ++ rest) := by simp [hL, hpre]
  rw [hpre]
  exact List.mem_append_left _ (hb.mem_of_arg hL₁ hk)

/-- In a list without duplicates, what comes before an element is determined by the element. -/
theorem prefix_eq_of_nodup {a b c d : List InstRef} {x : InstRef} (hnd : (a ++ x :: b).Nodup)
    (h : a ++ x :: b = c ++ x :: d) : a = c := by
  have ha : x ∉ a := fun hx => (List.nodup_append.mp hnd).2.2 x hx x List.mem_cons_self rfl
  have hc : x ∉ c := fun hx => (List.nodup_append.mp (h ▸ hnd)).2.2 x hx x List.mem_cons_self rfl
  have hlen : a.length = c.length := by
    have hidx := congrArg (List.idxOf x) h
    rw [List.idxOf_append_of_notMem ha, List.idxOf_append_of_notMem hc] at hidx
    simpa only [List.idxOf_cons_self, Nat.add_zero] using hidx
  exact (List.append_inj h hlen).1

/-- Arguments that refer to instructions before them, on every split of the list, make a block `ArgsEarlier`. -/
theorem Block.argsEarlier_of_split {b : Block}
    (h : ∀ pre r post, b.instructions = pre ++ r :: post → ∀ k t, (b.pool r).args k = .inst t → t ∈ pre) :
    b.ArgsEarlier := by
  intro i hi k
  have hL : b.instructions = b.instructions.take i ++ b.instructions[i] :: b.instructions.drop (i + 1) := by
    rw [← List.drop_eq_getElem_cons, List.take_append_drop]
  cases hv : (b.pool b.instructions[i]).args k
  case inst t =>
    simp only [Value.refersInto, decide_eq_true_eq]
    exact h _ _ _ hL k t hv
  all_goals rfl

/-- The slots past the arity of each instruction of the list are empty: an `Inst` starts with empty arguments, and
`SetArg` asserts `index < NumArgs()`. -/
def Block.SlotsInArity (b : Block) : Prop :=
  ∀ r ∈ b.instructions, ∀ k : Fin 4, (b.pool r).op.numArgs ≤ k.val → (b.pool r).args k = .void

instance (b : Block) : Decidable b.SlotsInArity :=
  inferInstanceAs (Decidable (∀ r ∈ b.instructions, ∀ k : Fin 4,
    (b.pool r).op.numArgs ≤ k.val → (b.pool r).args k = .void))

/-! The chains of identities of a block whose arguments refer to earlier instructions -/

/-- A value that refers to no instruction is its own end. -/
theorem Value.resolveAux_of_not_inst (pool : InstRef → Inst) {v : Value} (hv : ∀ t, v ≠ .inst t) (n : Nat) :
    Value.resolveAux pool n v = v := by
  cases n <;> cases v <;> first | rfl | exact absurd rfl (hv _)

/-- Whether a value is an identity depends only on the opcodes. -/
theorem Value.isIdentity_congr {b b' : Block} (hop : ∀ r, (b'.pool r).op = (b.pool r).op) (v : Value) :
    v.isIdentity b' = v.isIdentity b := by
  cases v <;> simp only [Value.isIdentity, hop]

/-- A value that is not an identity is the end of its own chain. -/
theorem Value.resolve_of_not_identity {b : Block} {v : Value} (h : v.isIdentity b = false) : v.resolve b = v := by
  cases v
  case inst t =>
    have ht : (b.pool t).op ≠ .identity := by simpa [Value.isIdentity] using h
    rw [Value.resolve, Block.fuel, Value.resolveAux, if_neg ht]
  all_goals exact Value.resolveAux_of_not_inst _ (fun _ => Value.noConfusion) _

/-- Resolution stays within any set of values that holds argument 0 of each identity it refers to. -/
theorem Value.resolveAux_mem {pool : InstRef → Inst} {V : Value → Prop}
    (hclosed : ∀ i, V (.inst i) → (pool i).op = .identity → V ((pool i).args 0)) :
    ∀ (n : Nat) (v : Value), V v → V (Value.resolveAux pool n v)
  | 0, _, hv => hv
  | n + 1, v, hv => by
    cases v
    case inst i =>
      rw [Value.resolveAux]
      split
      · exact Value.resolveAux_mem hclosed n _ (hclosed i hv ‹_›)
      · exact hv
    all_goals exact hv

/-- From a value that refers into the first `j` instructions of the list, the chain of identities ends within `j`
steps, at a value that refers into them and is not an identity. -/
theorem Block.ArgsEarlier.resolveAux {b : Block} (hb : b.ArgsEarlier) :
    ∀ (j : Nat) (v : Value), v.refersInto (b.instructions.take j) = true → ∀ n, j ≤ n →
      Value.resolveAux b.pool n v = Value.resolveAux b.pool j v ∧
        (Value.resolveAux b.pool j v).isIdentity b = false ∧
        (Value.resolveAux b.pool j v).refersInto (b.instructions.take j) = true := by
  intro j
  induction j with
  | zero =>
    intro v hv n _
    have hnot : ∀ t, v ≠ .inst t := by
      rintro t rfl
      simp [Value.refersInto] at hv
    rw [Value.resolveAux_of_not_inst _ hnot, Value.resolveAux_of_not_inst _ hnot]
    refine ⟨rfl, ?_, hv⟩
    cases v <;> first | rfl | exact absurd rfl (hnot _)
  | succ j ih =>
    intro v hv n hn
    obtain ⟨n, rfl⟩ : ∃ n', n = n' + 1 := ⟨n - 1, by omega⟩
    cases v
    case inst t =>
      by_cases hid : (b.pool t).op = .identity
      · -- an identity: one step to its argument, which refers into the first `j` instructions
        have ht : t ∈ b.instructions.take (j + 1) := by simpa [Value.refersInto] using hv
        obtain ⟨i, hi, hit⟩ := List.mem_iff_getElem.mp ht
        rw [List.length_take] at hi
        have h0 := hb i (by omega) 0
        rw [List.getElem_take] at hit
        rw [hit] at h0
        have h0j := Value.refersInto_mono (List.take_subset_take_left _ (by omega : i ≤ j)) h0
        obtain ⟨hstab, hnid, hinto⟩ := ih _ h0j n (by omega)
        simp only [Value.resolveAux, hid, if_true]
        exact ⟨hstab, hnid, Value.refersInto_mono (List.take_subset_take_left _ (Nat.le_succ j)) hinto⟩
      · rw [Value.resolveAux, Value.resolveAux, if_neg hid, if_neg hid]
        exact ⟨rfl, by simp [Value.isIdentity, hid], hv⟩
    all_goals exact ⟨rfl, rfl, hv⟩

/-- The end of the chain from a value that refers into the first `j` instructions, `j` within the list: it is reached
within `j` steps, refers into them and is not an identity. -/
theorem Block.ArgsEarlier.resolve {b : Block} (hb : b.ArgsEarlier) {j : Nat} (hj : j ≤ b.instructions.length)
    {v : Value} (hv : v.refersInto (b.instructions.take j) = true) :
    v.resolve b = Value.resolveAux b.pool j v ∧ (v.resolve b).isIdentity b = false ∧
      (v.resolve b).refersInto (b.instructions.take j) = true := by
  obtain ⟨hstab, hnid, hinto⟩ := hb.resolveAux j v hv b.fuel (by rw [Block.fuel]; omega)
  rw [Value.resolve, hstab]
  exact ⟨rfl, hnid, hinto⟩

/-- The end of the chain from an argument of an instruction of the list is not an identity and refers to an instruction
before it. -/
theorem Block.ArgsEarlier.resolve_arg {b : Block} (hb : b.ArgsEarlier) {pre post : List InstRef} {r : InstRef}
    (hL : b.instructions = pre ++ r :: post) (k : Fin 4) :
    (((b.pool r).args k).resolve b).isIdentity b = false ∧
      ∀ t, ((b.pool r).args k).resolve b = .inst t → t ∈ pre := by
  have hv := hb pre.length (by simp [hL]) k
  simp only [hL, List.getElem_append_right (Nat.le_refl _), Nat.sub_self, List.getElem_cons_zero, List.take_left'] at hv
  have hj : pre.length ≤ b.instructions.length := by simp [hL]
  have htake : b.instructions.take pre.length = pre := by simp [hL]
  obtain ⟨-, hnid, hinto⟩ := hb.resolve hj (by rwa [htake])
  refine ⟨hnid, fun t ht => ?_⟩
  rw [ht, htake] at hinto
  simpa [Value.refersInto] using hinto

/-- In a block whose arguments refer to earlier instructions, an identity of the list resolves as its argument does. -/
theorem Block.ArgsEarlier.resolve_of_identity {b : Block} (hb : b.ArgsEarlier) {t : InstRef} (ht : t ∈ b.instructions)
    (hid : (b.pool t).op = .identity) : Value.resolve b (.inst t) = Value.resolve b ((b.pool t).args 0) := by
  obtain ⟨i, hi, hit⟩ := List.mem_iff_getElem.mp ht
  have h0 := hb i hi 0
  rw [hit] at h0
  have hstab := fun n (hn : i ≤ n) => (hb.resolveAux i _ h0 n hn).1
  rw [Value.resolve, Value.resolve, Block.fuel, Value.resolveAux, if_pos hid, hstab _ (by omega),
    hstab (b.instructions.length + 1) (by omega)]

namespace Block

/-- The uses of `t` after a change to the arguments of one instruction `self` of the list, and of no other. -/
theorem uses_of_args_eq {b b' : Block} {self : InstRef} (hl : b'.instructions = b.instructions)
    (hnodup : b.instructions.Nodup) (hself : self ∈ b.instructions)
    (hargs : ∀ r, r ≠ self → (b'.pool r).args = (b.pool r).args) (t : InstRef) :
    b'.uses t + argUses (b.pool self).args t = b.uses t + argUses (b'.pool self).args t := by
  obtain ⟨pre, post, hL⟩ := List.append_of_mem hself
  have hn := hnodup
  rw [hL, List.nodup_append] at hn
  have hpre : ∀ r ∈ pre, r ≠ self := fun r hr h => by grind
  have hpost : ∀ r ∈ post, r ≠ self := fun r hr h => by grind
  simp only [uses, hl, hL, List.map_append, List.map_cons, List.sum_append, List.sum_cons,
    List.map_congr_left fun r hr => congrArg (argUses · t) (hargs r (hpre r hr)),
    List.map_congr_left fun r hr => congrArg (argUses · t) (hargs r (hpost r hr))]
  omega

/-- The uses depend only on the instruction list and the arguments. -/
theorem uses_congr {b b' : Block} (hl : b'.instructions = b.instructions) (hargs : ∀ r, (b'.pool r).args = (b.pool r).args)
    {t : InstRef} : b'.uses t = b.uses t := by
  simp only [uses, hl, hargs]

/-- Dropping from the list instructions whose slots are all empty leaves the uses. -/
theorem uses_filter {b : Block} (p : InstRef → Bool)
    (hvoid : ∀ s ∈ b.instructions, p s = false → ∀ k, (b.pool s).args k = .void) (t : InstRef) :
    ({ b with instructions := b.instructions.filter p } : Block).uses t = b.uses t := by
  simp only [uses]
  generalize b.instructions = l at hvoid
  induction l with
  | nil => rfl
  | cons x l ih =>
    have ih' := ih fun s hs => hvoid s (List.mem_cons_of_mem x hs)
    rw [List.filter_cons, List.map_cons, List.sum_cons]
    split
    · rw [List.map_cons, List.sum_cons, ih']
    · -- a dropped instruction has no slot that refers to anything
      rename_i hx
      have h0 : argUses (b.pool x).args t = 0 := by
        simp [argUses, hvoid x List.mem_cons_self (by simpa using hx)]
      rw [ih', h0, Nat.zero_add]

section Frame

variable {α : Type*} (p : Inst → α)

/-- A field of the instructions that a change to one instruction keeps is kept in the whole pool. -/
theorem proj_modify {f : Inst → Inst} (hf : ∀ i, p (f i) = p i) (b : Block) (r s : InstRef) :
    p ((b.modify r f).pool s) = p (b.pool s) := by
  rw [pool_modify]
  split
  · subst s
    exact hf _
  · rfl

/-- After its count, `UndoUse` changes only the links of the chains of pseudo-operations. -/
theorem proj_undoUse_inst (hn : ∀ i n, p { i with nextPseudoop := n } = p i) (b : Block) (self t s : InstRef) :
    p ((b.undoUse self (.inst t)).pool s) = p ((b.modify t fun i => { i with useCount := i.useCount - 1 }).pool s) := by
  simp only [undoUse]
  split
  · split
    · rw [proj_modify p (hn · _), proj_modify p (hn · _)]
    · rfl
  · rfl

/-- After its count, `Use` changes only the links of the chains of pseudo-operations. -/
theorem proj_use_inst (hn : ∀ i n, p { i with nextPseudoop := n } = p i) (b : Block) (self t s : InstRef) :
    p ((b.use self (.inst t)).pool s) = p ((b.modify t fun i => { i with useCount := i.useCount + 1 }).pool s) := by
  simp only [use]
  split
  · rw [proj_modify p (hn · _)]
  · rfl

end Frame

/-- `UndoUse` keeps the list. -/
theorem instructions_undoUse (b : Block) (self : InstRef) (v : Value) :
    (b.undoUse self v).instructions = b.instructions := by
  cases v <;> simp only [undoUse]
  case inst t =>
    split
    · split <;> rfl
    · rfl

/-- `UndoUse` changes no opcode and no argument. -/
theorem op_undoUse (b : Block) (self : InstRef) (v : Value) (s : InstRef) :
    ((b.undoUse self v).pool s).op = (b.pool s).op := by
  cases v
  case inst t =>
    rw [proj_undoUse_inst Inst.op (fun _ _ => rfl)]
    exact proj_modify Inst.op (fun _ => by rfl) _ _ _
  all_goals rfl

/-- `UndoUse` keeps every argument. -/
theorem args_undoUse (b : Block) (self : InstRef) (v : Value) (s : InstRef) :
    ((b.undoUse self v).pool s).args = (b.pool s).args := by
  cases v
  case inst t =>
    rw [proj_undoUse_inst Inst.args (fun _ _ => rfl)]
    exact proj_modify Inst.args (fun _ => by rfl) _ _ _
  all_goals rfl

/-- `UndoUse` of a reference to `t` counts one use of `t` less. -/
theorem useCount_undoUse (b : Block) (self t s : InstRef) :
    ((b.undoUse self (.inst t)).pool s).useCount =
      if s = t then (b.pool s).useCount - 1 else (b.pool s).useCount := by
  rw [proj_undoUse_inst Inst.useCount (fun _ _ => rfl), pool_modify]
  split
  · subst s
    rfl
  · rfl

/-- `ClearArg` keeps the list. -/
theorem instructions_clearArg (b : Block) (self : InstRef) (k : Fin 4) :
    (b.clearArg self k).instructions = b.instructions := by
  simp only [clearArg, modify_instructions]
  split
  · rfl
  · exact instructions_undoUse ..

/-- `ClearArg` keeps every opcode. -/
theorem op_clearArg (b : Block) (self : InstRef) (k : Fin 4) (s : InstRef) :
    ((b.clearArg self k).pool s).op = (b.pool s).op := by
  simp only [clearArg]
  refine (proj_modify Inst.op (fun _ => by rfl) _ _ _).trans ?_
  split
  · rfl
  · exact op_undoUse ..

/-- One slot of `ClearArgs` empties that slot of `self` and no other argument. -/
theorem args_clearArg (b : Block) (self : InstRef) (k : Fin 4) (s : InstRef) :
    ((b.clearArg self k).pool s).args =
      if s = self then Function.update (b.pool self).args k .void else (b.pool s).args := by
  simp only [clearArg, pool_modify]
  split <;> split <;> simp only [args_undoUse]

/-- One slot of `ClearArgs` counts one use less of the instruction the slot refers to, unless the slot's value reports
itself immediate. -/
theorem useCount_clearArg (b : Block) (self : InstRef) (k : Fin 4) (s : InstRef) :
    ((b.clearArg self k).pool s).useCount =
      if (b.pool self).args k = .inst s ∧ ((b.pool self).args k).isImmediate b = false then (b.pool s).useCount - 1
      else (b.pool s).useCount := by
  simp only [clearArg]
  refine (proj_modify Inst.useCount (fun _ => by rfl) _ _ _).trans ?_
  split
  · rename_i himm
    simp [himm]
  · rename_i himm
    cases hv : (b.pool self).args k
    case inst t =>
      rw [useCount_undoUse]
      by_cases hst : s = t
      · subst hst
        simp_all
      · simp [hst, Ne.symm hst]
    all_goals simp only [undoUse, reduceCtorEq, false_and, if_false]

/-- After a run of slots of `ClearArgs`, those slots of `self` are empty and the others are as they were. -/
theorem args_foldl_clearArg (self : InstRef) (l : List (Fin 4)) (b : Block) (j : Fin 4) :
    ((l.foldl (fun b k => b.clearArg self k) b).pool self).args j = if j ∈ l then .void else (b.pool self).args j := by
  induction l generalizing b with
  | nil => simp
  | cons k l ih =>
    rw [List.foldl_cons, ih, args_clearArg, if_pos rfl]
    by_cases hjl : j ∈ l
    · simp [hjl]
    · by_cases hjk : j = k
      · simp [hjk]
      · simp [hjl, hjk]

/-- `ClearArgs` keeps the list. -/
theorem instructions_clearArgs (b : Block) (self : InstRef) : (b.clearArgs self).instructions = b.instructions :=
  Run.foldl_invariant (fun b' : Block => b'.instructions = b.instructions)
    (fun b' k h => (instructions_clearArg b' self k).trans h) rfl _

/-- `ClearArgs` keeps every opcode. -/
theorem op_clearArgs (b : Block) (self s : InstRef) : ((b.clearArgs self).pool s).op = (b.pool s).op :=
  Run.foldl_invariant (fun b' : Block => (b'.pool s).op = (b.pool s).op)
    (fun b' k h => (op_clearArg b' self k s).trans h) rfl _

/-- `ClearArgs` empties the four slots of `self`. -/
theorem args_clearArgs_self (b : Block) (self : InstRef) (j : Fin 4) : ((b.clearArgs self).pool self).args j = .void := by
  rw [clearArgs, args_foldl_clearArg, if_pos (List.mem_finRange j)]

/-- `ClearArgs` keeps the arguments of every other instruction. -/
theorem args_clearArgs_of_ne (b : Block) {self s : InstRef} (h : s ≠ self) :
    ((b.clearArgs self).pool s).args = (b.pool s).args :=
  Run.foldl_invariant (fun b' : Block => (b'.pool s).args = (b.pool s).args)
    (fun b' k hb => by rw [args_clearArg, if_neg h, hb]) rfl _

/-- `ClearArgs` leaves the use count of an instruction that no slot of `self` refers to. -/
theorem useCount_clearArgs_of_not_ref (b : Block) {self s : InstRef} (h : ∀ k, (b.pool self).args k ≠ .inst s) :
    ((b.clearArgs self).pool s).useCount = (b.pool s).useCount := by
  have hinv := Run.foldl_invariant
    (fun b' : Block => (∀ k, (b'.pool self).args k ≠ .inst s) ∧ (b'.pool s).useCount = (b.pool s).useCount)
    (fun b' k ⟨hargs, hcount⟩ => by
      refine ⟨fun j => ?_, ?_⟩
      · rw [args_clearArg, if_pos rfl, Function.update_apply]
        split
        · exact Value.noConfusion
        · exact hargs j
      · rw [useCount_clearArg, if_neg (fun hk => hargs k hk.1), hcount])
    ⟨h, rfl⟩ (List.finRange 4)
  exact hinv.2

/-- Clearing a slot of an instruction of the list takes no more uses from the counts than from the slots: use counts that
bound the slots from above still do. -/
theorem uses_le_useCount_clearArg {b : Block} {self : InstRef} (hnodup : b.instructions.Nodup)
    (hself : self ∈ b.instructions) (k : Fin 4) {t : InstRef} (h : b.uses t ≤ (b.pool t).useCount) :
    (b.clearArg self k).uses t ≤ ((b.clearArg self k).pool t).useCount := by
  have huses := uses_of_args_eq (instructions_clearArg b self k) hnodup hself
    (fun r hr => by rw [args_clearArg, if_neg hr]) t
  have hslot := argUses_update_void (b.pool self).args k t
  rw [args_clearArg, if_pos rfl] at huses
  rw [useCount_clearArg]
  by_cases hk : (b.pool self).args k = .inst t
  · rw [if_pos hk] at hslot
    split <;> omega
  · rw [if_neg hk] at hslot
    rw [if_neg fun h => hk h.1]
    omega

/-- `ClearArgs` keeps the uses of each instruction within its use count. -/
theorem uses_le_useCount_clearArgs {b : Block} {self : InstRef} (hnodup : b.instructions.Nodup)
    (hself : self ∈ b.instructions) {t : InstRef} (h : b.uses t ≤ (b.pool t).useCount) :
    (b.clearArgs self).uses t ≤ ((b.clearArgs self).pool t).useCount := by
  have hinv := Run.foldl_invariant
    (fun b' : Block => b'.instructions = b.instructions ∧ b'.uses t ≤ (b'.pool t).useCount)
    (fun b' k ⟨hl, hle⟩ => ⟨(instructions_clearArg b' self k).trans hl,
      uses_le_useCount_clearArg (hl ▸ hnodup) (hl ▸ hself) k hle⟩)
    ⟨rfl, h⟩ (List.finRange 4)
  exact hinv.2

/-- Clearing a slot whose value, if it refers to an instruction, does not report itself immediate keeps use counts that
are exact. -/
theorem uses_eq_useCount_clearArg {b : Block} {self : InstRef} (hnodup : b.instructions.Nodup)
    (hself : self ∈ b.instructions) {k : Fin 4} {t : InstRef}
    (hslot : (b.pool self).args k = .inst t → ((b.pool self).args k).isImmediate b = false)
    (h : b.uses t = (b.pool t).useCount) : (b.clearArg self k).uses t = ((b.clearArg self k).pool t).useCount := by
  have huses := uses_of_args_eq (instructions_clearArg b self k) hnodup hself
    (fun r hr => by rw [args_clearArg, if_neg hr]) t
  have hcleared := argUses_update_void (b.pool self).args k t
  rw [args_clearArg, if_pos rfl] at huses
  rw [useCount_clearArg]
  by_cases hk : (b.pool self).args k = .inst t
  · rw [if_pos hk] at hcleared
    rw [if_pos ⟨hk, hslot hk⟩]
    omega
  · rw [if_neg hk] at hcleared
    rw [if_neg fun h => hk h.1]
    omega

/-- `ClearArgs` keeps use counts that are exact when every slot of `self` that refers to an instruction refers to one
that does not report itself immediate in any block that differs from `b` only in `self`. -/
theorem uses_eq_useCount_clearArgs {b : Block} {self : InstRef} (hnodup : b.instructions.Nodup)
    (hself : self ∈ b.instructions)
    (himm : ∀ b' : Block, b'.instructions = b.instructions →
      (∀ s, s ≠ self → (b'.pool s).op = (b.pool s).op ∧ (b'.pool s).args = (b.pool s).args) →
      ∀ k t', (b.pool self).args k = .inst t' → (Value.inst t').isImmediate b' = false)
    {t : InstRef} (h : b.uses t = (b.pool t).useCount) :
    (b.clearArgs self).uses t = ((b.clearArgs self).pool t).useCount := by
  -- the slots of `self` are cleared one by one; the others keep what they held in `b`
  have hinv := Run.foldl_invariant
    (fun b' : Block => b'.instructions = b.instructions ∧
      (∀ s, s ≠ self → (b'.pool s).op = (b.pool s).op ∧ (b'.pool s).args = (b.pool s).args) ∧
      (∀ j, (b'.pool self).args j = .void ∨ (b'.pool self).args j = (b.pool self).args j) ∧
      b'.uses t = (b'.pool t).useCount)
    (fun b' k ⟨hl, hoff, hslots, hexact⟩ => by
      refine ⟨(instructions_clearArg b' self k).trans hl, fun s hs => ?_, fun j => ?_, ?_⟩
      · rw [op_clearArg, args_clearArg, if_neg hs]
        exact hoff s hs
      · rw [args_clearArg, if_pos rfl, Function.update_apply]
        split
        · exact .inl rfl
        · exact hslots j
      · refine uses_eq_useCount_clearArg (hl ▸ hnodup) (hl ▸ hself) (fun ht' => ?_) hexact
        rcases hslots k with hvoid | hsame
        · rw [hvoid] at ht'
          exact Value.noConfusion ht'
        · rw [ht']
          exact himm b' hl hoff k t (hsame ▸ ht'))
    ⟨rfl, fun _ _ => ⟨rfl, rfl⟩, fun _ => .inr rfl, h⟩ (List.finRange 4)
  exact hinv.2.2.2

/-! `Inst::Invalidate` -/

/-- `Invalidate` keeps the list. -/
theorem instructions_invalidate (b : Block) (self : InstRef) : (b.invalidate self).instructions = b.instructions :=
  instructions_clearArgs b self

/-- `Invalidate` turns `self` into `Void` and no other instruction. -/
theorem op_invalidate (b : Block) (self s : InstRef) :
    ((b.invalidate self).pool s).op = if s = self then .void else (b.pool s).op := by
  rw [invalidate, pool_modify]
  split
  · rfl
  · exact op_clearArgs b self s

/-- `Invalidate` empties the arguments of its instruction and keeps every other. -/
theorem args_invalidate (b : Block) (self s : InstRef) :
    ((b.invalidate self).pool s).args = if s = self then fun _ => .void else (b.pool s).args := by
  rw [invalidate]
  refine (proj_modify Inst.args (fun _ => by rfl) _ _ _).trans ?_
  split
  · subst s
    exact funext (args_clearArgs_self b self)
  · exact args_clearArgs_of_ne b ‹_›

/-- After `ClearArgs`, `Invalidate` changes only the opcode: the counts and the uses are those `ClearArgs` leaves. -/
theorem useCount_invalidate (b : Block) (self t : InstRef) :
    ((b.invalidate self).pool t).useCount = ((b.clearArgs self).pool t).useCount :=
  proj_modify Inst.useCount (fun _ => by rfl) _ _ _

/-- `Invalidate` counts the uses that `ClearArgs` leaves. -/
theorem uses_invalidate (b : Block) (self t : InstRef) : (b.invalidate self).uses t = (b.clearArgs self).uses t :=
  uses_congr (by rfl) fun _ => proj_modify Inst.args (fun _ => by rfl) _ _ _

/-- `Invalidate` keeps the use count of an instruction its target does not refer to. -/
theorem useCount_invalidate_of_not_ref (b : Block) {self s : InstRef} (h : ∀ k, (b.pool self).args k ≠ .inst s) :
    ((b.invalidate self).pool s).useCount = (b.pool s).useCount := by
  rw [useCount_invalidate]
  exact useCount_clearArgs_of_not_ref b h

/-- `Invalidate` keeps the uses of each instruction within its use count. -/
theorem uses_le_useCount_invalidate {b : Block} {self : InstRef} (hnodup : b.instructions.Nodup)
    (hself : self ∈ b.instructions) {t : InstRef} (h : b.uses t ≤ (b.pool t).useCount) :
    (b.invalidate self).uses t ≤ ((b.invalidate self).pool t).useCount := by
  rw [uses_invalidate, useCount_invalidate]
  exact uses_le_useCount_clearArgs hnodup hself h

/-- `Invalidate` keeps the uses of each instruction equal to its use count when no argument of its target is immediate.
-/
theorem uses_eq_useCount_invalidate {b : Block} {self : InstRef} (hnodup : b.instructions.Nodup)
    (hself : self ∈ b.instructions)
    (himm : ∀ b' : Block, b'.instructions = b.instructions →
      (∀ s, s ≠ self → (b'.pool s).op = (b.pool s).op ∧ (b'.pool s).args = (b.pool s).args) →
      ∀ k t', (b.pool self).args k = .inst t' → (Value.inst t').isImmediate b' = false)
    {t : InstRef} (h : b.uses t = (b.pool t).useCount) :
    (b.invalidate self).uses t = ((b.invalidate self).pool t).useCount := by
  rw [uses_invalidate, useCount_invalidate]
  exact uses_eq_useCount_clearArgs hnodup hself himm h

/-- A slot that refers to `t` is a use of `t`. -/
theorem uses_pos {b : Block} {r : InstRef} (hr : r ∈ b.instructions) {k : Fin 4} {t : InstRef}
    (hk : (b.pool r).args k = .inst t) : 0 < b.uses t := by
  have hslot : 0 < argUses (b.pool r).args t := List.countP_pos_iff.2 ⟨k, List.mem_finRange k, by simp [hk]⟩
  have hle : argUses (b.pool r).args t ≤ b.uses t :=
    List.le_sum_of_mem (List.mem_map.2 ⟨r, hr, rfl⟩)
  omega

/-- A change that leaves an instruction as it is leaves the block. -/
theorem modify_eq_self {b : Block} {r : InstRef} {f : Inst → Inst} (h : f (b.pool r) = b.pool r) : b.modify r f = b := by
  simp only [modify, h, Function.update_eq_self]

/-- Clearing an empty slot changes nothing. -/
theorem clearArg_of_void {b : Block} {self : InstRef} {k : Fin 4} (h : (b.pool self).args k = .void) :
    b.clearArg self k = b := by
  have himm : Value.isImmediate b .void = true := rfl
  simp only [clearArg, h, himm, if_true]
  exact modify_eq_self (by rw [← h, Function.update_eq_self])

/-- Invalidating an instruction that is already `Void` with empty arguments changes nothing. -/
theorem invalidate_of_cleared {b : Block} {self : InstRef} (hop : (b.pool self).op = .void)
    (hargs : ∀ k, (b.pool self).args k = .void) : b.invalidate self = b := by
  have hclear : b.clearArgs self = b :=
    Run.foldl_invariant (fun b' : Block => b' = b) (fun b' k h => by subst h; exact clearArg_of_void (hargs k)) rfl _
  rw [invalidate, hclear]
  exact modify_eq_self (by rw [← hop])


/-! `Inst::Use` and `Inst::SetArg` -/

/-- `Use` keeps the list. -/
theorem instructions_use (b : Block) (self : InstRef) (v : Value) : (b.use self v).instructions = b.instructions := by
  cases v <;> simp only [use]
  case inst t =>
    split <;> rfl

/-- `Use` changes no opcode and no argument. -/
theorem op_use (b : Block) (self : InstRef) (v : Value) (s : InstRef) : ((b.use self v).pool s).op = (b.pool s).op := by
  cases v
  case inst t =>
    rw [proj_use_inst Inst.op (fun _ _ => rfl)]
    exact proj_modify Inst.op (fun _ => by rfl) _ _ _
  all_goals rfl

/-- `Use` keeps every argument. -/
theorem args_use (b : Block) (self : InstRef) (v : Value) (s : InstRef) :
    ((b.use self v).pool s).args = (b.pool s).args := by
  cases v
  case inst t =>
    rw [proj_use_inst Inst.args (fun _ _ => rfl)]
    exact proj_modify Inst.args (fun _ => by rfl) _ _ _
  all_goals rfl

/-- `Use` of a reference to `t` counts one more use of `t`. -/
theorem useCount_use (b : Block) (self t s : InstRef) :
    ((b.use self (.inst t)).pool s).useCount = if s = t then (b.pool s).useCount + 1 else (b.pool s).useCount := by
  rw [proj_use_inst Inst.useCount (fun _ _ => rfl), pool_modify]
  split
  · subst s
    rfl
  · rfl

/-- `SetArg` keeps the list. -/
theorem instructions_setArg (b : Block) (self : InstRef) (k : Fin 4) (v : Value) :
    (b.setArg self k v).instructions = b.instructions := by
  simp only [setArg, modify_instructions]
  split_ifs <;> simp only [instructions_use, instructions_undoUse]

/-- `SetArg` keeps every opcode. -/
theorem op_setArg (b : Block) (self : InstRef) (k : Fin 4) (v : Value) (s : InstRef) :
    ((b.setArg self k v).pool s).op = (b.pool s).op := by
  simp only [setArg]
  refine (proj_modify Inst.op (fun _ => by rfl) _ _ _).trans ?_
  split_ifs <;> simp only [op_use, op_undoUse]

/-- `SetArg` sets one slot of `self` and no other argument. -/
theorem args_setArg (b : Block) (self : InstRef) (k : Fin 4) (v : Value) (s : InstRef) :
    ((b.setArg self k v).pool s).args =
      if s = self then Function.update (b.pool self).args k v else (b.pool s).args := by
  simp only [setArg, pool_modify]
  split_ifs <;> simp only [args_use, args_undoUse]

/-- The use count of an instruction `t` that does not report itself immediate, after `SetArg`: the use of the old value
is undone and the use of the new one counted. -/
theorem useCount_setArg_add {b : Block} {self : InstRef} {k : Fin 4} {v : Value} {t : InstRef}
    (ht : (Value.inst t).isImmediate b = false) (hpos : (b.pool self).args k = .inst t → 0 < (b.pool t).useCount) :
    ((b.setArg self k v).pool t).useCount + (if (b.pool self).args k = .inst t then 1 else 0) =
      (b.pool t).useCount + (if v = .inst t then 1 else 0) := by
  generalize hold : (b.pool self).args k = old at hpos
  generalize hb₁ : (if old.isImmediate b then b else b.undoUse self old) = b₁
  have hl₁ : b₁.instructions = b.instructions := by
    rw [← hb₁]
    split <;> simp only [instructions_undoUse]
  have hop₁ : ∀ r, (b₁.pool r).op = (b.pool r).op := fun r => by
    rw [← hb₁]
    split <;> simp only [op_undoUse]
  have harg₁ : ∀ r, (b₁.pool r).args = (b.pool r).args := fun r => by
    rw [← hb₁]
    split <;> simp only [args_undoUse]
  have himm : ∀ w : Value, w.isImmediate b₁ = w.isImmediate b :=
    Value.isImmediate_congr (by rw [hl₁]) hop₁ fun r => by rw [harg₁]
  have h₁ : (b₁.pool t).useCount + (if old = .inst t then 1 else 0) = (b.pool t).useCount := by
    rw [← hb₁]
    by_cases hot : old = .inst t
    · subst hot
      rw [if_neg (by rw [ht]; exact Bool.false_ne_true), useCount_undoUse, if_pos rfl, if_pos rfl]
      have := hpos rfl
      omega
    · rw [if_neg hot, Nat.add_zero]
      split
      · rfl
      · cases old with
        | inst t' => rw [useCount_undoUse, if_neg fun (h : t = t') => hot (by rw [h])]
        | _ => rfl
  have h₂ : ((if v.isImmediate b₁ then b₁ else b₁.use self v).pool t).useCount =
      (b₁.pool t).useCount + (if v = .inst t then 1 else 0) := by
    by_cases hvt : v = .inst t
    · subst hvt
      rw [if_neg (by rw [himm, ht]; exact Bool.false_ne_true), useCount_use, if_pos rfl, if_pos rfl]
    · rw [if_neg hvt, Nat.add_zero]
      split
      · rfl
      · cases v with
        | inst t' => rw [useCount_use, if_neg fun (h : t = t') => hvt (by rw [h])]
        | _ => rfl
  have hset : ((b.setArg self k v).pool t).useCount = ((if v.isImmediate b₁ then b₁ else b₁.use self v).pool t).useCount := by
    rw [setArg, hold, hb₁]
    exact proj_modify Inst.useCount (fun _ => by rfl) _ _ _
  omega

/-- `SetArg` on an instruction of the list keeps the use count of `t` exact when `t` does not report itself immediate. -/
theorem uses_eq_useCount_setArg {b : Block} {self : InstRef} (hnodup : b.instructions.Nodup)
    (hself : self ∈ b.instructions) (k : Fin 4) (v : Value) {t : InstRef} (ht : (Value.inst t).isImmediate b = false)
    (h : b.uses t = (b.pool t).useCount) : (b.setArg self k v).uses t = ((b.setArg self k v).pool t).useCount := by
  have huses := uses_of_args_eq (instructions_setArg b self k v) hnodup hself
    (fun r hr => by rw [args_setArg, if_neg hr]) t
  rw [args_setArg, if_pos rfl] at huses
  have hslot := argUses_update (b.pool self).args k v t
  have hcount := useCount_setArg_add (k := k) (v := v) ht fun hk => h ▸ uses_pos hself hk
  omega

/-! The counts of the instructions that are not identities -/

/-- `Invalidate` of an instruction of the list keeps the use count of an instruction that is not an identity exact. -/
theorem uses_eq_useCount_invalidate_of_op_ne {b : Block} {self : InstRef} (hnodup : b.instructions.Nodup)
    (hself : self ∈ b.instructions) {t : InstRef} (ht : (b.pool t).op ≠ .identity)
    (h : b.uses t = (b.pool t).useCount) :
    (b.invalidate self).uses t = ((b.invalidate self).pool t).useCount := by
  rw [uses_invalidate, useCount_invalidate]
  have hinv := Run.foldl_invariant
    (fun b' : Block => b'.instructions = b.instructions ∧ (b'.pool t).op = (b.pool t).op ∧
      b'.uses t = (b'.pool t).useCount)
    (fun b' k ⟨hl, hop, hexact⟩ => ⟨(instructions_clearArg b' self k).trans hl, (op_clearArg b' self k t).trans hop,
      uses_eq_useCount_clearArg (hl ▸ hnodup) (hl ▸ hself)
        (fun hk => by rw [hk]; exact Value.isImmediate_inst_of_op_ne (hop ▸ ht)) hexact⟩)
    ⟨rfl, rfl, h⟩ (List.finRange 4)
  exact hinv.2.2

/-! `Inst::ReplaceUsesWith` -/

/-- `ReplaceUsesWith` keeps the list. -/
theorem instructions_replaceUsesWith (b : Block) (self : InstRef) (v : Value) :
    (b.replaceUsesWith self v).instructions = b.instructions := by
  simp only [replaceUsesWith, modify_instructions]
  split <;> simp only [instructions_use, modify_instructions, instructions_invalidate]

/-- `ReplaceUsesWith` turns `self` into an identity and changes no other opcode. -/
theorem op_replaceUsesWith (b : Block) (self : InstRef) (v : Value) (s : InstRef) :
    ((b.replaceUsesWith self v).pool s).op = if s = self then .identity else (b.pool s).op := by
  simp only [replaceUsesWith]
  rw [proj_modify Inst.op (f := fun i => { i with args := Function.update i.args 0 v }) (fun _ => rfl),
    apply_ite (fun b' : Block => (b'.pool s).op), op_use, ite_self, pool_modify]
  by_cases h : s = self
  · rw [if_pos h, if_pos h]
  · rw [if_neg h, if_neg h, op_invalidate, if_neg h]

/-- `ReplaceUsesWith` leaves `self` with the replacement as its only argument, and changes no other argument. -/
theorem args_replaceUsesWith (b : Block) (self : InstRef) (v : Value) (s : InstRef) :
    ((b.replaceUsesWith self v).pool s).args =
      if s = self then Function.update (fun _ => .void) 0 v else (b.pool s).args := by
  simp only [replaceUsesWith]
  generalize hb₁ : (b.invalidate self).modify self (fun i => { i with op := .identity }) = b₁
  have hargs : ∀ s, ((if v.isImmediate b₁ = true then b₁ else b₁.use self v).pool s).args = (b₁.pool s).args := by
    intro s
    split
    · rfl
    · exact args_use _ _ _ _
  rw [pool_modify]
  by_cases h : s = self
  · subst h
    rw [if_pos rfl, if_pos rfl, hargs, ← hb₁, pool_modify_self, args_invalidate, if_pos rfl]
  · rw [if_neg h, if_neg h, hargs, ← hb₁, pool_modify_of_ne _ _ h, args_invalidate, if_neg h]

/-! `Inst::GetAssociatedPseudoOperation` -/

/-- The pseudo-operation found in a chain has the opcode looked for. -/
theorem op_of_findPseudoop {b : Block} {opcode : Opcode} :
    ∀ {n : Nat} {start : Option InstRef} {c : InstRef}, b.findPseudoop opcode n start = some c → (b.pool c).op = opcode
  | 0, _, _, h => absurd h (by simp [findPseudoop])
  | _ + 1, none, _, h => absurd h (by simp [findPseudoop])
  | n + 1, some r, c, h => by
    rw [findPseudoop] at h
    split at h
    · rename_i hr
      rw [← Option.some.inj h, hr]
    · exact op_of_findPseudoop h

/-- The pseudo-operation `GetAssociatedPseudoOperation` finds has the opcode it looks for. -/
theorem op_of_getAssociatedPseudoOperation {b : Block} {self : InstRef} {opcode : Opcode} {c : InstRef}
    (h : b.getAssociatedPseudoOperation self opcode = some c) : (b.pool c).op = opcode :=
  op_of_findPseudoop h

end Block

end Dynarmic.IR
