import Dynarmic.IR.Opt.ConstantPropagation.Fold

/-!
# The folds of two operands

`FoldCommutative` and the folds built on it (`FoldAND`, `FoldEOR`, `FoldOR`, `FoldMultiply`), `FoldAdd`, `FoldSub` and
`FoldDivide`, proved to keep the value of the instruction they fold (`Sound`).

An operation of two operands of `is32Bit` width is described by the function `f` it computes on the operands zero-extended
to 64 bits, as `GetImmediateAsU64` reads them (`ComputesBinary`); the immediate the fold writes back is
`Value(is_32_bit, f x y)`, which keeps the low word of a 32-bit result. The re-association of `FoldCommutative` is sound
for an `imm_fn` that commutes, associates, and whose low word reads only the low words of its operands (`Commutative`).
-/

namespace Dynarmic.Optimization

namespace ConstantPropagation

open Dynarmic.IR

/-! ### Operations of two operands -/

/-- The value an operation of `is32Bit` width computes with `f` from the values of its two operands. -/
def binValue (is32Bit : Bool) (f : BitVec 64 → BitVec 64 → BitVec 64) (o0 o1 : Option Val) : Option Val :=
  (o0.bind (operand is32Bit)).bind fun x => (o1.bind (operand is32Bit)).map fun y => immVal is32Bit (f x y)

/-- A binary fold has a value exactly when both arguments are immediates of the width, and the value is the function of
them. -/
theorem binValue_eq_some {is32Bit : Bool} {f : BitVec 64 → BitVec 64 → BitVec 64} {o0 o1 : Option Val} {x : Val} :
    binValue is32Bit f o0 o1 = some x ↔
      ∃ a0 a1, o0.bind (operand is32Bit) = some a0 ∧ o1.bind (operand is32Bit) = some a1 ∧ immVal is32Bit (f a0 a1) = x := by
  simp only [binValue, Option.bind_eq_some_iff, Option.map_eq_some_iff]
  constructor
  · rintro ⟨a0, h0, a1, h1, rfl⟩
    exact ⟨a0, a1, h0, h1, rfl⟩
  · rintro ⟨a0, a1, h0, h1, rfl⟩
    exact ⟨a0, h0, a1, h1, rfl⟩

/-- With both arguments immediates of the width, a binary fold has the function of them as its value. -/
theorem binValue_of_operands {is32Bit : Bool} {f : BitVec 64 → BitVec 64 → BitVec 64} {o0 o1 : Option Val}
    {a0 a1 : BitVec 64} (h0 : o0.bind (operand is32Bit) = some a0) (h1 : o1.bind (operand is32Bit) = some a1) :
    binValue is32Bit f o0 o1 = some (immVal is32Bit (f a0 a1)) :=
  binValue_eq_some.mpr ⟨a0, a1, h0, h1, rfl⟩

@[simp] theorem bind_operand_immValue (σ : InstRef → Outcome) (b : Block) (is32Bit : Bool) (x : BitVec 64) :
    (b.argValue σ (immValue is32Bit x)).bind (operand is32Bit) = some (truncate is32Bit x) := by
  rw [argValue_immValue, Option.bind_some, operand_immVal]

/-- The operand that the value of an operation of two operands gives, as the next operation reads it. -/
theorem bind_operand_binValue_eq_some {is32Bit : Bool} {f : BitVec 64 → BitVec 64 → BitVec 64} {o0 o1 : Option Val}
    {a : BitVec 64} (h : (binValue is32Bit f o0 o1).bind (operand is32Bit) = some a) :
    ∃ c0 c1, o0.bind (operand is32Bit) = some c0 ∧ o1.bind (operand is32Bit) = some c1 ∧
      a = truncate is32Bit (f c0 c1) := by
  obtain ⟨y, hy, ha⟩ := Option.bind_eq_some_iff.mp h
  obtain ⟨c0, c1, hc0, hc1, rfl⟩ := binValue_eq_some.mp hy
  rw [operand_immVal, Option.some.injEq] at ha
  exact ⟨c0, c1, hc0, hc1, ha.symm⟩

/-- A 32-bit operand is a word, widened. -/
theorem bind_operand_true (o : Option Val) : o.bind (operand true) = (o.bind Val.asU32).map (·.setWidth 64) := by
  rcases o with _ | v
  · rfl
  · cases v <;> rfl

/-- A 64-bit operand is a doubleword. -/
theorem bind_operand_false (o : Option Val) : o.bind (operand false) = o.bind Val.asU64 := by
  rcases o with _ | v
  · rfl
  · cases v <;> rfl

/-- An opcode that computes, on two operands of `is32Bit` width, the immediate `Value(is_32_bit, f x y)`. -/
def ComputesBinary (op : Opcode) (is32Bit : Bool) (f : BitVec 64 → BitVec 64 → BitVec 64) : Prop :=
  ∀ vals : Fin 4 → Option Val, opValue op vals = binValue is32Bit f (vals 0) (vals 1)

/-- A 32-bit binary opcode that computes `g` computes `f` when `f` agrees with `g` on the low word. -/
theorem computesBinary_of_binary32 {op : Opcode} {f : BitVec 64 → BitVec 64 → BitVec 64}
    {g : BitVec 32 → BitVec 32 → BitVec 32} (hop : ∀ a, evalOp a op = binary32 a g)
    (hf : ∀ x y, (f (x.setWidth 64) (y.setWidth 64)).setWidth 32 = g x y) : ComputesBinary op true f := by
  intro vals
  simp only [opValue, hop, binary32, argU32, bind_map_plain, binValue, bind_operand_true]
  rcases (vals 0).bind Val.asU32 with _ | x <;> rcases (vals 1).bind Val.asU32 with _ | y <;>
    simp [immVal, hf, Outcome.plain]

/-- A 64-bit binary opcode that computes `f` computes it. -/
theorem computesBinary_of_binary64 {op : Opcode} {f : BitVec 64 → BitVec 64 → BitVec 64}
    (hop : ∀ a, evalOp a op = binary64 a f) : ComputesBinary op false f := by
  intro vals
  simp only [opValue, hop, binary64, argU64, bind_map_plain, binValue, bind_operand_false]
  rcases (vals 0).bind Val.asU64 with _ | x <;> rcases (vals 1).bind Val.asU64 with _ | y <;>
    simp [immVal, Outcome.plain]

/-- What `FoldCommutative` needs of `imm_fn` to re-associate: it commutes, associates, and its low word depends only on
the low words of its operands. -/
structure Commutative (f : BitVec 64 → BitVec 64 → BitVec 64) : Prop where
  comm : ∀ x y, f x y = f y x
  assoc : ∀ x y z, f (f x y) z = f x (f y z)
  setWidth : ∀ x y, (f x y).setWidth 32 = (f ((x.setWidth 32).setWidth 64) ((y.setWidth 32).setWidth 64)).setWidth 32

/-- `and` commutes. -/
theorem commutative_and : Commutative (· &&& ·) where
  comm := BitVec.and_comm
  assoc := BitVec.and_assoc
  setWidth x y := by simp

/-- `or` commutes. -/
theorem commutative_or : Commutative (· ||| ·) where
  comm := BitVec.or_comm
  assoc := BitVec.or_assoc
  setWidth x y := by simp

/-- `xor` commutes. -/
theorem commutative_xor : Commutative (· ^^^ ·) where
  comm := BitVec.xor_comm
  assoc := BitVec.xor_assoc
  setWidth x y := by simp

/-- Multiplication commutes. -/
theorem commutative_mul : Commutative (· * ·) where
  comm := BitVec.mul_comm
  assoc := BitVec.mul_assoc
  setWidth x y := by
    simp only [BitVec.setWidth_mul _ _ (show 32 ≤ 64 by decide),
      BitVec.setWidth_setWidth_of_le _ (show 32 ≤ 64 by decide), BitVec.setWidth_eq]

section Commutative

variable {f : BitVec 64 → BitVec 64 → BitVec 64} (hf : Commutative f) (is32Bit : Bool)
include hf

/-- The immediate of an operation does not see what `Value(is_32_bit, value)` drops of its second operand. -/
theorem Commutative.immVal_truncate_right (x y : BitVec 64) :
    immVal is32Bit (f x (truncate is32Bit y)) = immVal is32Bit (f x y) := by
  cases is32Bit
  · rfl
  · simp only [immVal, truncate, if_true]
    rw [hf.setWidth, hf.setWidth x y, BitVec.setWidth_setWidth_of_le _ (show 32 ≤ 64 by decide), BitVec.setWidth_eq]

/-- Re-association as `FoldCommutative` does it: `a ∘ (z ∘ w)` with the inner result truncated is `z ∘ (a ∘ w)`. -/
theorem Commutative.reassociate (a z w : BitVec 64) :
    immVal is32Bit (f a (truncate is32Bit (f z w))) = immVal is32Bit (f z (truncate is32Bit (f a w))) := by
  rw [hf.immVal_truncate_right, hf.immVal_truncate_right, ← hf.assoc, hf.comm a z, hf.assoc]

end Commutative


/-! ### Additions with carry -/

/-- The carry in as a 64-bit summand. -/
def carryBit (c : Bool) : BitVec 64 :=
  if c then 1 else 0

/-- The value an addition with carry of `is32Bit` width computes from the values of its operands and its carry in, the
second operand passed through `g` (the complement, for a subtraction). -/
def addValue (is32Bit : Bool) (g : BitVec 64 → BitVec 64) (o0 o1 o2 : Option Val) : Option Val :=
  (o0.bind (operand is32Bit)).bind fun x => (o1.bind (operand is32Bit)).bind fun y =>
    (o2.bind Val.asU1).map fun c => immVal is32Bit (x + g y + carryBit c)

/-- An add fold has a value exactly when both operands are immediates of the width and the carry is a bit, and the value
is their sum with the carry. -/
theorem addValue_eq_some {is32Bit : Bool} {g : BitVec 64 → BitVec 64} {o0 o1 o2 : Option Val} {x : Val} :
    addValue is32Bit g o0 o1 o2 = some x ↔
      ∃ a0 a1 c, o0.bind (operand is32Bit) = some a0 ∧ o1.bind (operand is32Bit) = some a1 ∧ o2 = some (.u1 c) ∧
        immVal is32Bit (a0 + g a1 + carryBit c) = x := by
  simp only [addValue, Option.bind_eq_some_iff, Option.map_eq_some_iff, Val.asU1_eq_some]
  constructor
  · rintro ⟨a0, h0, a1, h1, c, ⟨y, h2, rfl⟩, rfl⟩
    exact ⟨a0, a1, c, h0, h1, h2, rfl⟩
  · rintro ⟨a0, a1, c, h0, h1, h2, rfl⟩
    exact ⟨a0, h0, a1, h1, c, ⟨_, h2, rfl⟩, rfl⟩

/-- An opcode that computes, on two operands of `is32Bit` width and a carry in, `AddWithCarry` of the first and the
second passed through `g`. -/
def ComputesAdd (op : Opcode) (is32Bit : Bool) (g : BitVec 64 → BitVec 64) : Prop :=
  ∀ vals : Fin 4 → Option Val, opValue op vals = addValue is32Bit g (vals 0) (vals 1) (vals 2)

/-- A carry as a number is the carry bit. -/
theorem ofNat_toNat_eq_carryBit (w : Nat) (c : Bool) : BitVec.ofNat w c.toNat = (carryBit c).setWidth w := by
  apply BitVec.eq_of_toNat_eq
  cases c <;> simp [carryBit]

/-- A 32-bit add opcode that computes `g32` on its second operand computes `g` when the two agree on the low word. -/
theorem computesAdd_of_eval32 {op : Opcode} {g : BitVec 64 → BitVec 64} {g32 : BitVec 32 → BitVec 32}
    (hop : ∀ a, evalOp a op = (argU32 a 0).bind fun x => (argU32 a 1).bind fun y => (argU1 a 2).bind fun c =>
      some (addOutcome .u32 x (g32 y) c))
    (hg : ∀ y, (g (y.setWidth 64)).setWidth 32 = g32 y) : ComputesAdd op true g := by
  intro vals
  simp only [opValue, hop, argU32, argU1, bind_map_plain, addValue, bind_operand_true]
  rcases (vals 0).bind Val.asU32 with _ | x <;> rcases (vals 1).bind Val.asU32 with _ | y <;>
    rcases (vals 2).bind Val.asU1 with _ | c <;> simp only [Option.bind_none, Option.bind_some, Option.map_none,
      Option.map_some]
  simp only [addOutcome, addWithCarry_fst, immVal, if_true, ofNat_toNat_eq_carryBit]
  rw [BitVec.setWidth_add _ _ (show 32 ≤ 64 by decide), BitVec.setWidth_add _ _ (show 32 ≤ 64 by decide), hg,
    BitVec.setWidth_setWidth_of_le _ (show 32 ≤ 64 by decide), BitVec.setWidth_eq]

/-- A 64-bit add opcode that computes `g` on its second operand computes it. -/
theorem computesAdd_of_eval64 {op : Opcode} {g : BitVec 64 → BitVec 64}
    (hop : ∀ a, evalOp a op = (argU64 a 0).bind fun x => (argU64 a 1).bind fun y => (argU1 a 2).bind fun c =>
      some (addOutcome .u64 x (g y) c)) : ComputesAdd op false g := by
  intro vals
  simp only [opValue, hop, argU64, argU1, bind_map_plain, addValue, bind_operand_false]
  rcases (vals 0).bind Val.asU64 with _ | x <;> rcases (vals 1).bind Val.asU64 with _ | y <;>
    rcases (vals 2).bind Val.asU1 with _ | c <;> simp only [Option.bind_none, Option.bind_some, Option.map_none,
      Option.map_some]
  simp only [addOutcome, addWithCarry_fst, immVal, Bool.false_eq_true, if_false, ofNat_toNat_eq_carryBit,
    BitVec.setWidth_eq]

/-- `Add32` and `Add64` add the second operand as it is. -/
theorem computesAdd_add (is32Bit : Bool) : ComputesAdd (if is32Bit then .add32 else .add64) is32Bit fun y => y := by
  cases is32Bit
  · exact computesAdd_of_eval64 fun _ => rfl
  · exact computesAdd_of_eval32 (fun _ => rfl) fun y => by simp

/-- `Sub32` and `Sub64` add the complement of the second operand. -/
theorem computesAdd_sub (is32Bit : Bool) : ComputesAdd (if is32Bit then .sub32 else .sub64) is32Bit (~~~·) := by
  cases is32Bit
  · exact computesAdd_of_eval64 fun _ => rfl
  · exact computesAdd_of_eval32 (fun _ => rfl) fun y => by
      rw [BitVec.setWidth_not (show 32 ≤ 64 by decide)]
      simp

/-! ### The folds, on a block -/

/-- A value that resolves through identities to an instruction resolves to it. -/
theorem resolve_of_getInstRecursive {b : Block} {v : Value} {t : InstRef} (ht : v.getInstRecursive b = some t) :
    v.resolve b = .inst t := by
  simp only [Value.getInstRecursive] at ht
  split at ht
  · rename_i heq
    rw [heq, Option.some.inj ht]
  · exact absurd ht (by simp)

/-- The immediate of an operand is the operand's value. -/
theorem immVal_of_operand {is32Bit : Bool} {y : Val} {a : BitVec 64} (h : operand is32Bit y = some a) :
    immVal is32Bit a = y := by
  cases is32Bit <;> cases y <;> simp [operand] at h <;> subst h <;> simp [immVal]

/-- An immediate operand reads, with `GetImmediateAsS64`, as the operand sign-extended from its width. -/
theorem getImmediateAsS64_of_operand {b : Block} {v : Value} {y : Val} (hres : v.resolve b = y.toValue)
    {is32Bit : Bool} {a : BitVec 64} (h : operand is32Bit y = some a) :
    v.getImmediateAsS64 b = if is32Bit then (a.setWidth 32).signExtend 64 else a := by
  cases is32Bit <;> cases y <;> simp [operand] at h <;> subst h <;>
    simp [Value.getImmediateAsS64, hres, Val.toValue]

/-- `FoldCommutative` keeps the opcode of `inst` when it returns true: it then only sets the operands. -/
theorem op_foldCommutative {b : Block} {inst : InstRef} {is32Bit : Bool} {f : BitVec 64 → BitVec 64 → BitVec 64}
    (h : (foldCommutative b inst is32Bit f).2 = true) :
    ((foldCommutative b inst is32Bit f).1.pool inst).op = (b.pool inst).op := by
  rw [foldCommutative] at h ⊢
  dsimp only at h ⊢
  cases hl : (arg b inst 0).isImmediate b <;> cases hr : (arg b inst 1).isImmediate b <;>
    simp only [hl, hr, Bool.and_true, Bool.and_false, Bool.not_true, Bool.not_false, Bool.false_eq_true, if_true,
      if_false] at h ⊢
  -- the branches that return true set operands, or leave the block
  all_goals
    split
    · split <;> simp only [Block.op_setArg]
    · rfl

section Binary

variable {b : Block} {pre post : List InstRef} {inst : InstRef} {σ : InstRef → Outcome}
  (hnd : b.instructions.Nodup) (hb : b.ArgsEarlier) (hL : b.instructions = pre ++ inst :: post)
include hnd hb hL

/-- An immediate that refers into `pre` reads, with `GetImmediateAsU64`, as the operand its value gives. -/
theorem getImmediateAsU64_of_bind {v : Value} (hv : v.refersInto pre = true) (himm : v.isImmediate b = true)
    {is32Bit : Bool} {a : BitVec 64} (h : (b.argValue σ v).bind (operand is32Bit) = some a) :
    v.getImmediateAsU64 b = a := by
  obtain ⟨y, hy, ha⟩ := Option.bind_eq_some_iff.mp h
  have hres := Block.resolve_of_argValue hnd hb σ (Value.refersInto_mono (fun r hr => by simp [hL, hr]) hv) himm hy
  exact getImmediateAsU64_of_operand hres ha

omit hnd in
/-- The arguments of an instruction before `inst` refer into `pre`. -/
theorem arg_refersInto_of_mem {t : InstRef} (ht : t ∈ pre) (k : Fin 4) : (arg b t k).refersInto pre = true := by
  cases h : arg b t k
  case inst u => simpa [Value.refersInto] using hb.mem_of_arg_of_prefix hL ht h
  all_goals rfl

/-- An argument of `inst` that leads through identities to an instruction of the opcode of `inst`: that instruction lies
before `inst`, and the argument has the value it computes from its own arguments. -/
theorem opValue_of_getInstRecursive (hin : (b.pool inst).op.isInput = false)
    (hside : (b.pool inst).op.readsSideResults = false) {k : Fin 4} {t : InstRef}
    (ht : (arg b inst k).getInstRecursive b = some t) (hop : (b.pool t).op = (b.pool inst).op) :
    t ∈ pre ∧ b.argValue σ (arg b inst k) = opValue (b.pool inst).op fun j => b.argValue σ (arg b t j) := by
  have hpre : t ∈ pre := (hb.resolve_arg hL k).2 t (resolve_of_getInstRecursive ht)
  refine ⟨hpre, ?_⟩
  rw [Block.argValue_of_getInstRecursive hnd hb σ
      (Value.refersInto_mono (fun r hr => by simp [hL, hr]) (arg_refersInto hb hL k)) ht,
    Block.valueOf_of_mem hnd hb σ (mem_of_mem_pre hnd hL hpre).1 (hop ▸ hin) (hop ▸ hside), hop]
  rfl

/-- Setting the two operands of `inst`, an operation of two operands, to values from which it computes the value `inst`
had. -/
theorem Sound.setOperands {is32Bit : Bool} {f : BitVec 64 → BitVec 64 → BitVec 64}
    (hbin : ComputesBinary (b.pool inst).op is32Bit f) (hin : (b.pool inst).op.isInput = false)
    (hside : (b.pool inst).op.readsSideResults = false) {v0 v1 : Value} (hv0 : v0.refersInto pre = true)
    (hv1 : v1.refersInto pre = true)
    (hval : ∀ x, b.valueOf σ inst = some x → binValue is32Bit f (b.argValue σ v0) (b.argValue σ v1) = some x) :
    Sound σ b ((b.setArg inst 0 v0).setArg inst 1 v1) pre inst := by
  refine Sound.of_args hnd hb hL (((Changes.refl hb hL).setArg 0 hv0).setArg 1 hv1)
    (by rw [Block.op_setArg, Block.op_setArg]) hin hside fun x hx => ?_
  rw [hbin, Block.args_setArg, if_pos rfl, Function.update_self, Block.args_setArg, if_pos rfl,
    Function.update_of_ne (by decide), Function.update_self]
  exact hval x hx

/-- `FoldCommutative` keeps the values: it only moves immediates of a commutative operation. -/
theorem foldCommutative_sound {is32Bit : Bool} {f : BitVec 64 → BitVec 64 → BitVec 64} (hf : Commutative f)
    (hbin : ComputesBinary (b.pool inst).op is32Bit f) (hin : (b.pool inst).op.isInput = false)
    (hside : (b.pool inst).op.readsSideResults = false) :
    Sound σ b (foldCommutative b inst is32Bit f).1 pre inst := by
  have hval : ∀ x, b.valueOf σ inst = some x → ∃ a0 a1,
      (b.argValue σ (arg b inst 0)).bind (operand is32Bit) = some a0 ∧
        (b.argValue σ (arg b inst 1)).bind (operand is32Bit) = some a1 ∧ immVal is32Bit (f a0 a1) = x :=
    fun x hx => by
      rw [valueOf_inst hnd hb hL hin hside, hbin] at hx
      exact binValue_eq_some.mp hx
  rw [foldCommutative]
  dsimp only
  cases hl : (arg b inst 0).isImmediate b <;> cases hr : (arg b inst 1).isImmediate b <;>
    simp only [Bool.and_true, Bool.and_false, Bool.not_true, Bool.not_false, Bool.false_eq_true, if_true, if_false]
  case false.false => exact Sound.refl hb hL
  case true.true =>
    refine Sound.replaceUsesWithImm hnd hb hL fun x hx => ?_
    obtain ⟨a0, a1, h0, h1, rfl⟩ := hval x hx
    rw [getImmediateAsU64_of_bind hnd hb hL (arg_refersInto hb hL 0) hl h0,
      getImmediateAsU64_of_bind hnd hb hL (arg_refersInto hb hL 1) hr h1]
  case true.false =>
    split
    · rename_i rhsInst hrhs
      split
      · -- `imm ∘ (x ∘ imm')` becomes `x ∘ (imm ∘ imm')`
        rename_i hcond
        simp only [Bool.and_eq_true, decide_eq_true_eq] at hcond
        obtain ⟨hop, himm⟩ := hcond
        obtain ⟨hpre, hval1⟩ := opValue_of_getInstRecursive hnd hb hL hin hside hrhs hop
        refine Sound.setOperands hnd hb hL hbin hin hside (arg_refersInto_of_mem hb hL hpre 0)
          (immValue_refersInto _ _ _) fun x hx => ?_
        obtain ⟨a0, a1, h0, h1, rfl⟩ := hval x hx
        rw [hval1, hbin] at h1
        obtain ⟨c0, c1, hc0, hc1, rfl⟩ := bind_operand_binValue_eq_some h1
        rw [getImmediateAsU64_of_bind hnd hb hL (arg_refersInto hb hL 0) hl h0,
          getImmediateAsU64_of_bind hnd hb hL (arg_refersInto_of_mem hb hL hpre 1) himm hc1,
          binValue_of_operands hc0 (bind_operand_immValue σ b is32Bit _), hf.reassociate]
      · -- Normalize: the immediate moves right
        refine Sound.setOperands hnd hb hL hbin hin hside (arg_refersInto hb hL 1) (arg_refersInto hb hL 0)
          fun x hx => ?_
        obtain ⟨a0, a1, h0, h1, rfl⟩ := hval x hx
        rw [binValue_of_operands h1 h0, hf.comm]
    · exact Sound.refl hb hL
  case false.true =>
    split
    · rename_i lhsInst hlhs
      split
      · -- `(x ∘ imm') ∘ imm` becomes `x ∘ (imm ∘ imm')`
        rename_i hcond
        simp only [Bool.and_eq_true, decide_eq_true_eq] at hcond
        obtain ⟨hop, himm⟩ := hcond
        obtain ⟨hpre, hval0⟩ := opValue_of_getInstRecursive hnd hb hL hin hside hlhs hop
        refine Sound.setOperands hnd hb hL hbin hin hside (arg_refersInto_of_mem hb hL hpre 0)
          (immValue_refersInto _ _ _) fun x hx => ?_
        obtain ⟨a0, a1, h0, h1, rfl⟩ := hval x hx
        rw [hval0, hbin] at h0
        obtain ⟨c0, c1, hc0, hc1, rfl⟩ := bind_operand_binValue_eq_some h0
        rw [getImmediateAsU64_of_bind hnd hb hL (arg_refersInto hb hL 1) hr h1,
          getImmediateAsU64_of_bind hnd hb hL (arg_refersInto_of_mem hb hL hpre 1) himm hc1,
          binValue_of_operands hc0 (bind_operand_immValue σ b is32Bit _), hf.comm (truncate _ _), hf.reassociate]
      · exact Sound.refl hb hL
    · exact Sound.refl hb hL

end Binary

section Post

variable {b : Block} {pre post : List InstRef} {inst : InstRef} {σ : InstRef → Outcome}
  (hnd : b.instructions.Nodup) (hb : b.ArgsEarlier) (hL : b.instructions = pre ++ inst :: post)
  {is32Bit : Bool} {f : BitVec 64 → BitVec 64 → BitVec 64} (hbin : ComputesBinary (b.pool inst).op is32Bit f)
  (hin : (b.pool inst).op.isInput = false) (hside : (b.pool inst).op.readsSideResults = false)
include hnd hb hL hbin hin hside

/-- The operands of `inst`, an operation of two operands, when it has a value. -/
theorem operands_of_valueOf {x : Val} (hx : b.valueOf σ inst = some x) :
    ∃ a0 a1, (b.argValue σ (arg b inst 0)).bind (operand is32Bit) = some a0 ∧
      (b.argValue σ (arg b inst 1)).bind (operand is32Bit) = some a1 ∧ immVal is32Bit (f a0 a1) = x := by
  rw [valueOf_inst hnd hb hL hin hside, hbin] at hx
  exact binValue_eq_some.mp hx

/-- Turning `inst` into an identity of its left operand, when the right operand is neutral on it. -/
theorem Sound.replaceUsesWithLeft
    (hneutral : ∀ a0 a1, (b.argValue σ (arg b inst 1)).bind (operand is32Bit) = some a1 →
      immVal is32Bit (f a0 a1) = immVal is32Bit a0) :
    Sound σ b (b.replaceUsesWith inst (arg b inst 0)) pre inst :=
  Sound.replaceUsesWith hnd hb hL (arg_refersInto hb hL 0) fun x hx => by
    obtain ⟨a0, a1, h0, h1, rfl⟩ := operands_of_valueOf hnd hb hL hbin hin hside hx
    obtain ⟨y0, hy0, ha0⟩ := Option.bind_eq_some_iff.mp h0
    rw [hneutral a0 a1 h1, hy0, immVal_of_operand ha0]

/-- Turning `inst` into the immediate `Value(is_32_bit, c)`, when the right operand absorbs every left one into `c`. -/
theorem Sound.replaceUsesWithAbsorbing {c : BitVec 64}
    (habsorb : ∀ a0 a1, (b.argValue σ (arg b inst 1)).bind (operand is32Bit) = some a1 →
      immVal is32Bit (f a0 a1) = immVal is32Bit c) :
    Sound σ b (Optimization.replaceUsesWithImm b inst is32Bit c) pre inst :=
  Sound.replaceUsesWithImm hnd hb hL fun x hx => by
    obtain ⟨a0, a1, _, h1, rfl⟩ := operands_of_valueOf hnd hb hL hbin hin hside hx
    rw [habsorb a0 a1 h1]

omit hbin hin hside in
/-- A right operand that `IsUnsignedImmediate(c)` holds for is the operand `c`. -/
theorem right_of_isUnsignedImmediate {c a1 : BitVec 64} (h : (arg b inst 1).isUnsignedImmediate b c = true)
    (h1 : (b.argValue σ (arg b inst 1)).bind (operand is32Bit) = some a1) : a1 = c := by
  simp only [Value.isUnsignedImmediate, Bool.and_eq_true, beq_iff_eq] at h
  rw [← getImmediateAsU64_of_bind hnd hb hL (arg_refersInto hb hL 1) h.1 h1, h.2]

omit hbin hin hside in
/-- A right operand that `HasAllBitsSet` holds for has all bits of its width set. -/
theorem right_of_hasAllBitsSet {a1 : BitVec 64} (h : (arg b inst 1).hasAllBitsSet b = true)
    (h1 : (b.argValue σ (arg b inst 1)).bind (operand is32Bit) = some a1) :
    (if is32Bit then (a1.setWidth 32).signExtend 64 else a1) = BitVec.allOnes 64 := by
  simp only [Value.hasAllBitsSet, Value.isSignedImmediate, Bool.and_eq_true, beq_iff_eq] at h
  obtain ⟨y1, hy1, ha1⟩ := Option.bind_eq_some_iff.mp h1
  rw [← getImmediateAsS64_of_operand (resolve_arg hnd hb hL h.1 hy1) ha1, h.2]

/-- A fold that runs `FoldCommutative` and, when that returns true, a further fold `next` of the block it left: sound
when `next` is sound on every block with the code of `inst` that `FoldCommutative` can leave. -/
theorem foldCommutative_then_sound (hf : Commutative f) {next : Block → Block}
    (hnext : ∀ b₁ : Block, b₁.instructions.Nodup → b₁.ArgsEarlier → b₁.instructions = pre ++ inst :: post →
      (b₁.pool inst).op = (b.pool inst).op → Sound σ b₁ (next b₁) pre inst) :
    Sound σ b (match foldCommutative b inst is32Bit f with
      | (b, true) => next b
      | (b, false) => b) pre inst := by
  have h₁ : Sound σ b (foldCommutative b inst is32Bit f).1 pre inst :=
    foldCommutative_sound hnd hb hL hf hbin hin hside
  have hop₁ : (foldCommutative b inst is32Bit f).2 = true →
      ((foldCommutative b inst is32Bit f).1.pool inst).op = (b.pool inst).op := op_foldCommutative
  split
  · rename_i b₁ hfc
    rw [hfc] at h₁ hop₁
    obtain ⟨hnd₁, hb₁, hL₁⟩ := h₁.changes.wf hnd hb hL
    exact h₁.trans (hnext b₁ hnd₁ hb₁ hL₁ (hop₁ rfl))
  · rename_i b₁ hfc
    rw [hfc] at h₁
    exact h₁

end Post

/-- `And32` and `And64` compute `and`. -/
theorem computesBinary_and (is32Bit : Bool) :
    ComputesBinary (if is32Bit then .and32 else .and64) is32Bit (· &&& ·) := by
  cases is32Bit
  · exact computesBinary_of_binary64 fun _ => rfl
  · exact computesBinary_of_binary32 (fun _ => rfl) fun x y => by simp

/-- `Or32` and `Or64` compute `or`. -/
theorem computesBinary_or (is32Bit : Bool) :
    ComputesBinary (if is32Bit then .or32 else .or64) is32Bit (· ||| ·) := by
  cases is32Bit
  · exact computesBinary_of_binary64 fun _ => rfl
  · exact computesBinary_of_binary32 (fun _ => rfl) fun x y => by simp

/-- `Eor32` and `Eor64` compute `xor`. -/
theorem computesBinary_xor (is32Bit : Bool) :
    ComputesBinary (if is32Bit then .eor32 else .eor64) is32Bit (· ^^^ ·) := by
  cases is32Bit
  · exact computesBinary_of_binary64 fun _ => rfl
  · exact computesBinary_of_binary32 (fun _ => rfl) fun x y => by simp

/-- `Mul32` and `Mul64` compute the product. -/
theorem computesBinary_mul (is32Bit : Bool) :
    ComputesBinary (if is32Bit then .mul32 else .mul64) is32Bit (· * ·) := by
  cases is32Bit
  · exact computesBinary_of_binary64 fun _ => rfl
  · exact computesBinary_of_binary32 (fun _ => rfl) fun x y => by
      rw [BitVec.setWidth_mul _ _ (show 32 ≤ 64 by decide)]
      simp

/-- `AND` with a right operand of all ones of its width is the left operand. -/
theorem immVal_and_of_allOnes {is32Bit : Bool} {a0 a1 : BitVec 64}
    (h : (if is32Bit then (a1.setWidth 32).signExtend 64 else a1) = BitVec.allOnes 64) :
    immVal is32Bit (a0 &&& a1) = immVal is32Bit a0 := by
  cases is32Bit
  · simp only [Bool.false_eq_true, if_false] at h
    rw [h, BitVec.and_allOnes]
  · simp only [if_true] at h
    have hlow : a1.setWidth 32 = BitVec.allOnes 32 := by
      have h32 := congrArg (BitVec.setWidth 32) h
      have hones : (BitVec.allOnes 64).setWidth 32 = BitVec.allOnes 32 := by decide
      rwa [setWidth_signExtend_of_le _ (show 32 ≤ 64 by decide), BitVec.signExtend_eq, hones] at h32
    simp only [immVal, if_true, BitVec.setWidth_and, hlow, BitVec.and_allOnes]

section Folds

variable {b : Block} {pre post : List InstRef} {inst : InstRef} {σ : InstRef → Outcome}
  (hnd : b.instructions.Nodup) (hb : b.ArgsEarlier) (hL : b.instructions = pre ++ inst :: post)
include hnd hb hL

/-- `FoldAND` keeps the values. -/
theorem foldAND_sound {is32Bit : Bool} (hop : (b.pool inst).op = if is32Bit then .and32 else .and64) :
    Sound σ b (foldAND b inst is32Bit) pre inst := by
  have hin : (b.pool inst).op.isInput = false := by rw [hop]; cases is32Bit <;> rfl
  have hside : (b.pool inst).op.readsSideResults = false := by rw [hop]; cases is32Bit <;> rfl
  rw [foldAND]
  refine foldCommutative_then_sound hnd hb hL (hop ▸ computesBinary_and is32Bit) hin hside commutative_and
    fun b₁ hnd₁ hb₁ hL₁ hop₁ => ?_
  have hbin₁ : ComputesBinary (b₁.pool inst).op is32Bit (· &&& ·) := hop₁ ▸ hop ▸ computesBinary_and is32Bit
  dsimp only
  split
  · -- a zero right operand: zero
    rename_i hz
    refine Sound.replaceUsesWithAbsorbing hnd₁ hb₁ hL₁ hbin₁ (hop₁ ▸ hin) (hop₁ ▸ hside) fun a0 a1 h1 => ?_
    rw [right_of_isUnsignedImmediate hnd₁ hb₁ hL₁ hz h1]
    simp
  · split
    · -- a right operand of all ones: the left operand
      rename_i _ hall
      exact Sound.replaceUsesWithLeft hnd₁ hb₁ hL₁ hbin₁ (hop₁ ▸ hin) (hop₁ ▸ hside) fun a0 a1 h1 =>
        immVal_and_of_allOnes (right_of_hasAllBitsSet hnd₁ hb₁ hL₁ hall h1)
    · exact Sound.refl hb₁ hL₁

/-- `FoldEOR` keeps the values. -/
theorem foldEOR_sound {is32Bit : Bool} (hop : (b.pool inst).op = if is32Bit then .eor32 else .eor64) :
    Sound σ b (foldEOR b inst is32Bit) pre inst := by
  have hin : (b.pool inst).op.isInput = false := by rw [hop]; cases is32Bit <;> rfl
  have hside : (b.pool inst).op.readsSideResults = false := by rw [hop]; cases is32Bit <;> rfl
  rw [foldEOR]
  refine foldCommutative_then_sound hnd hb hL (hop ▸ computesBinary_xor is32Bit) hin hside commutative_xor
    fun b₁ hnd₁ hb₁ hL₁ hop₁ => ?_
  have hbin₁ : ComputesBinary (b₁.pool inst).op is32Bit (· ^^^ ·) := hop₁ ▸ hop ▸ computesBinary_xor is32Bit
  split
  · rename_i hz
    exact Sound.replaceUsesWithLeft hnd₁ hb₁ hL₁ hbin₁ (hop₁ ▸ hin) (hop₁ ▸ hside) fun a0 a1 h1 => by
      rw [right_of_isUnsignedImmediate hnd₁ hb₁ hL₁ hz h1]
      simp
  · exact Sound.refl hb₁ hL₁

/-- `FoldOR` keeps the values. -/
theorem foldOR_sound {is32Bit : Bool} (hop : (b.pool inst).op = if is32Bit then .or32 else .or64) :
    Sound σ b (foldOR b inst is32Bit) pre inst := by
  have hin : (b.pool inst).op.isInput = false := by rw [hop]; cases is32Bit <;> rfl
  have hside : (b.pool inst).op.readsSideResults = false := by rw [hop]; cases is32Bit <;> rfl
  rw [foldOR]
  refine foldCommutative_then_sound hnd hb hL (hop ▸ computesBinary_or is32Bit) hin hside commutative_or
    fun b₁ hnd₁ hb₁ hL₁ hop₁ => ?_
  have hbin₁ : ComputesBinary (b₁.pool inst).op is32Bit (· ||| ·) := hop₁ ▸ hop ▸ computesBinary_or is32Bit
  split
  · rename_i hz
    exact Sound.replaceUsesWithLeft hnd₁ hb₁ hL₁ hbin₁ (hop₁ ▸ hin) (hop₁ ▸ hside) fun a0 a1 h1 => by
      rw [right_of_isUnsignedImmediate hnd₁ hb₁ hL₁ hz h1]
      simp
  · exact Sound.refl hb₁ hL₁

/-- `FoldMultiply` keeps the values. -/
theorem foldMultiply_sound {is32Bit : Bool} (hop : (b.pool inst).op = if is32Bit then .mul32 else .mul64) :
    Sound σ b (foldMultiply b inst is32Bit) pre inst := by
  have hin : (b.pool inst).op.isInput = false := by rw [hop]; cases is32Bit <;> rfl
  have hside : (b.pool inst).op.readsSideResults = false := by rw [hop]; cases is32Bit <;> rfl
  rw [foldMultiply]
  refine foldCommutative_then_sound hnd hb hL (hop ▸ computesBinary_mul is32Bit) hin hside commutative_mul
    fun b₁ hnd₁ hb₁ hL₁ hop₁ => ?_
  have hbin₁ : ComputesBinary (b₁.pool inst).op is32Bit (· * ·) := hop₁ ▸ hop ▸ computesBinary_mul is32Bit
  dsimp only
  split
  · rename_i hz
    refine Sound.replaceUsesWithAbsorbing hnd₁ hb₁ hL₁ hbin₁ (hop₁ ▸ hin) (hop₁ ▸ hside) fun a0 a1 h1 => ?_
    rw [right_of_isUnsignedImmediate hnd₁ hb₁ hL₁ hz h1]
    simp
  · split
    · rename_i _ hone
      exact Sound.replaceUsesWithLeft hnd₁ hb₁ hL₁ hbin₁ (hop₁ ▸ hin) (hop₁ ▸ hside) fun a0 a1 h1 => by
        rw [right_of_isUnsignedImmediate hnd₁ hb₁ hL₁ hone h1]
        simp
    · exact Sound.refl hb₁ hL₁

end Folds

/-- The re-association of `FoldAdd`: `(z + i + c₁) + a + c` with the inner sum truncated is `z + (a + i + c₁) + c` with
the combined immediate truncated. -/
theorem immVal_add_reassociate (is32Bit : Bool) (z i c₁ a c : BitVec 64) :
    immVal is32Bit (truncate is32Bit (z + i + c₁) + a + c) =
      immVal is32Bit (z + truncate is32Bit (a + i + c₁) + c) := by
  cases is32Bit
  · simp only [immVal, truncate, Bool.false_eq_true, if_false]
    congr 1
    ac_rfl
  · simp only [immVal, truncate, if_true, BitVec.setWidth_add _ _ (show 32 ≤ 64 by decide),
      BitVec.setWidth_setWidth_of_le _ (show 32 ≤ 64 by decide), BitVec.setWidth_eq]
    congr 1
    ac_rfl

/-- The operand that the value of an addition gives, as the next operation reads it. -/
theorem bind_operand_addValue_eq_some {is32Bit : Bool} {g : BitVec 64 → BitVec 64} {o0 o1 o2 : Option Val}
    {a : BitVec 64} (h : (addValue is32Bit g o0 o1 o2).bind (operand is32Bit) = some a) :
    ∃ c0 c1 c, o0.bind (operand is32Bit) = some c0 ∧ o1.bind (operand is32Bit) = some c1 ∧ o2 = some (.u1 c) ∧
      a = truncate is32Bit (c0 + g c1 + carryBit c) := by
  obtain ⟨y, hy, ha⟩ := Option.bind_eq_some_iff.mp h
  obtain ⟨c0, c1, c, hc0, hc1, hc, rfl⟩ := addValue_eq_some.mp hy
  rw [operand_immVal, Option.some.injEq] at ha
  exact ⟨c0, c1, c, hc0, hc1, hc, ha.symm⟩

section Add

variable {b : Block} {pre post : List InstRef} {inst : InstRef} {σ : InstRef → Outcome}
  (hnd : b.instructions.Nodup) (hb : b.ArgsEarlier) (hL : b.instructions = pre ++ inst :: post)
  {is32Bit : Bool} {g : BitVec 64 → BitVec 64} (hadd : ComputesAdd (b.pool inst).op is32Bit g)
  (hin : (b.pool inst).op.isInput = false) (hside : (b.pool inst).op.readsSideResults = false)
include hnd hb hL

/-- An immediate that refers into `pre` with the value `u1 c` reads, with `GetU1`, as `c`. -/
theorem getU1_of_argValue {v : Value} (hv : v.refersInto pre = true) (himm : v.isImmediate b = true) {c : Bool}
    (h : b.argValue σ v = some (.u1 c)) : v.getU1 b = c := by
  have hres := Block.resolve_of_argValue hnd hb σ (Value.refersInto_mono (fun r hr => by simp [hL, hr]) hv) himm h
  simp [Value.getU1, hres, Val.toValue]

/-- A carry in that `IsZero` holds for is clear. -/
theorem carry_of_isZero (h : (arg b inst 2).isZero b = true) {c : Bool}
    (h2 : b.argValue σ (arg b inst 2) = some (.u1 c)) : c = false := by
  simp only [Value.isZero, Value.isUnsignedImmediate, Bool.and_eq_true, beq_iff_eq] at h
  obtain ⟨himm, hz⟩ := h
  have hres := Block.resolve_of_argValue hnd hb σ
    (Value.refersInto_mono (fun r hr => by simp [hL, hr]) (arg_refersInto hb hL 2)) himm h2
  cases c
  · rfl
  · simp [Value.getImmediateAsU64, hres, Val.toValue] at hz

include hadd hin hside

/-- The operands and the carry in of `inst`, an addition, when it has a value. -/
theorem addOperands_of_valueOf {x : Val} (hx : b.valueOf σ inst = some x) :
    ∃ a0 a1 c, (b.argValue σ (arg b inst 0)).bind (operand is32Bit) = some a0 ∧
      (b.argValue σ (arg b inst 1)).bind (operand is32Bit) = some a1 ∧ b.argValue σ (arg b inst 2) = some (.u1 c) ∧
        immVal is32Bit (a0 + g a1 + carryBit c) = x := by
  rw [valueOf_inst hnd hb hL hin hside, hadd] at hx
  exact addValue_eq_some.mp hx

/-- Setting the two operands of `inst`, an addition, to values from which it computes, with its carry in, the value
`inst` had. -/
theorem Sound.setAddOperands {v0 v1 : Value} (hv0 : v0.refersInto pre = true) (hv1 : v1.refersInto pre = true)
    (hval : ∀ x, b.valueOf σ inst = some x →
      addValue is32Bit g (b.argValue σ v0) (b.argValue σ v1) (b.argValue σ (arg b inst 2)) = some x) :
    Sound σ b ((b.setArg inst 0 v0).setArg inst 1 v1) pre inst := by
  refine Sound.of_args hnd hb hL (((Changes.refl hb hL).setArg 0 hv0).setArg 1 hv1)
    (by rw [Block.op_setArg, Block.op_setArg]) hin hside fun x hx => ?_
  rw [hadd, Block.args_setArg, if_pos rfl, Block.args_setArg, if_pos rfl]
  simp only [Function.update_apply]
  exact hval x hx

/-- An addition of three immediates folds to the immediate sum. -/
theorem Sound.addImmediates (hall : b.areAllArgsImmediates inst = true) (harity : (b.pool inst).op.numArgs = 3) :
    Sound σ b (Optimization.replaceUsesWithImm b inst is32Bit ((arg b inst 0).getImmediateAsU64 b +
      g ((arg b inst 1).getImmediateAsU64 b) + carryBit ((arg b inst 2).getU1 b))) pre inst := by
  refine Sound.replaceUsesWithImm hnd hb hL fun x hx => ?_
  obtain ⟨a0, a1, c, h0, h1, h2, rfl⟩ := addOperands_of_valueOf hnd hb hL hadd hin hside hx
  have himm : ∀ k : Fin 4, k.val < 3 → (arg b inst k).isImmediate b = true :=
    fun k hk => isImmediate_of_areAllArgsImmediates hall (by rw [harity]; exact hk)
  rw [getImmediateAsU64_of_bind hnd hb hL (arg_refersInto hb hL 0) (himm 0 (by decide)) h0,
    getImmediateAsU64_of_bind hnd hb hL (arg_refersInto hb hL 1) (himm 1 (by decide)) h1,
    getU1_of_argValue hnd hb hL (arg_refersInto hb hL 2) (himm 2 (by decide)) h2]

end Add

section AddFolds

variable {b : Block} {pre post : List InstRef} {inst : InstRef} {σ : InstRef → Outcome}
  (hnd : b.instructions.Nodup) (hb : b.ArgsEarlier) (hL : b.instructions = pre ++ inst :: post)
include hnd hb hL

/-- `FoldAdd` after the normalisation. The one precondition is the carry in: folding `Add(Add(x, i, c₁), j, c)` to `x`
when `j + i + c₁` is zero drops `c`, which keeps the value only when `c` is clear. -/
theorem foldAddNormalized_sound {is32Bit : Bool} (hop : (b.pool inst).op = if is32Bit then .add32 else .add64)
    (hcarry : b.argValue σ (arg b inst 2) ≠ some (.u1 true)) :
    Sound σ b (foldAddNormalized b inst is32Bit) pre inst := by
  have hadd : ComputesAdd (b.pool inst).op is32Bit fun y => y := hop ▸ computesAdd_add is32Bit
  have hin : (b.pool inst).op.isInput = false := by rw [hop]; cases is32Bit <;> rfl
  have hside : (b.pool inst).op.readsSideResults = false := by rw [hop]; cases is32Bit <;> rfl
  -- the fold of three immediates, which ends every branch that does not return earlier
  have himms : Sound σ b (if b.areAllArgsImmediates inst then
      Optimization.replaceUsesWithImm b inst is32Bit ((arg b inst 0).getImmediateAsU64 b +
        (arg b inst 1).getImmediateAsU64 b + (if (arg b inst 2).getU1 b then 1 else 0)) else b) pre inst := by
    have h3 : (b.pool inst).op.numArgs = 3 := by rw [hop]; cases is32Bit <;> rfl
    split
    · -- elaborated first, so that `g` is known before the expected type is unified
      exact (Sound.addImmediates hnd hb hL hadd hin hside ‹_› h3 :)
    · exact Sound.refl hb hL
  rw [foldAddNormalized]
  dsimp only
  split
  · exact Sound.refl hb hL
  split
  · rename_i _ hcond
    simp only [Bool.and_eq_true, Bool.not_eq_true'] at hcond
    obtain ⟨hl, hr⟩ := hcond
    split
    · rename_i lhsInst hlhs
      split
      · -- `Add(Add(x, i, c₁), j, c)`: the immediates combine
        rename_i hcond'
        simp only [Bool.and_eq_true, decide_eq_true_eq] at hcond'
        obtain ⟨⟨hop', himm1⟩, himm2⟩ := hcond'
        obtain ⟨hpre, hval0⟩ := opValue_of_getInstRecursive hnd hb hL hin hside hlhs hop'
        rw [hadd] at hval0
        have hval : ∀ x, b.valueOf σ inst = some x → ∃ z i c₁ j c,
            (b.argValue σ (arg b lhsInst 0)).bind (operand is32Bit) = some z ∧
            (arg b lhsInst 1).getImmediateAsU64 b = i ∧ (arg b lhsInst 2).getU1 b = c₁ ∧
            (arg b inst 1).getImmediateAsU64 b = j ∧ b.argValue σ (arg b inst 2) = some (.u1 c) ∧
            immVal is32Bit (truncate is32Bit (z + i + carryBit c₁) + j + carryBit c) = x := by
          intro x hx
          obtain ⟨a0, j, c, h0, h1, h2, rfl⟩ := addOperands_of_valueOf hnd hb hL hadd hin hside hx
          rw [hval0] at h0
          obtain ⟨z, i, c₁, hz, hi, hc₁, rfl⟩ := bind_operand_addValue_eq_some h0
          exact ⟨z, i, c₁, j, c, hz, getImmediateAsU64_of_bind hnd hb hL (arg_refersInto_of_mem hb hL hpre 1) himm1 hi,
            getU1_of_argValue hnd hb hL (arg_refersInto_of_mem hb hL hpre 2) himm2 hc₁,
            getImmediateAsU64_of_bind hnd hb hL (arg_refersInto hb hL 1) hr h1, h2, rfl⟩
        generalize hcomb : (arg b inst 1).getImmediateAsU64 b + (arg b lhsInst 1).getImmediateAsU64 b +
          (if (arg b lhsInst 2).getU1 b then 1 else 0) = combined
        split
        · -- the combined immediate is zero: `inst` becomes `x`, dropping the carry in
          rename_i hzero
          refine Sound.replaceUsesWith hnd hb hL (arg_refersInto_of_mem hb hL hpre 0) fun x hx => ?_
          obtain ⟨z, i, c₁, j, c, hz, rfl, rfl, rfl, h2, rfl⟩ := hval x hx
          have hc : c = false := by
            cases c
            · rfl
            · exact absurd h2 hcarry
          obtain ⟨y, hy, hzy⟩ := Option.bind_eq_some_iff.mp hz
          rw [hy, immVal_add_reassociate, show (arg b inst 1).getImmediateAsU64 b + (arg b lhsInst 1).getImmediateAsU64 b +
            carryBit ((arg b lhsInst 2).getU1 b) = 0 from hcomb.trans hzero, hc]
          simp only [carryBit, Bool.false_eq_true, if_false, add_zero]
          rw [show truncate is32Bit 0 = 0 by cases is32Bit <;> rfl, add_zero, immVal_of_operand hzy]
        · refine Sound.setAddOperands hnd hb hL hadd hin hside (arg_refersInto_of_mem hb hL hpre 0)
            (immValue_refersInto _ _ _) fun x hx => ?_
          obtain ⟨z, i, c₁, j, c, hz, rfl, rfl, rfl, h2, rfl⟩ := hval x hx
          rw [h2, immVal_add_reassociate, ← hcomb]
          simp only [addValue, hz, bind_operand_immValue, Option.bind_some, Val.asU1, Option.map_some, carryBit]
      · split
        · -- a zero right operand and a clear carry: `inst` becomes its left operand
          rename_i _ hzero
          simp only [Bool.and_eq_true] at hzero
          refine Sound.replaceUsesWith hnd hb hL (arg_refersInto hb hL 0) fun x hx => ?_
          obtain ⟨a0, a1, c, h0, h1, h2, rfl⟩ := addOperands_of_valueOf hnd hb hL hadd hin hside hx
          obtain ⟨y, hy, hay⟩ := Option.bind_eq_some_iff.mp h0
          rw [right_of_isUnsignedImmediate hnd hb hL hzero.1 h1, carry_of_isZero hnd hb hL hzero.2 h2, hy]
          simp only [carryBit, Bool.false_eq_true, if_false, add_zero]
          rw [immVal_of_operand hay]
        · exact himms
    · exact himms
  · exact himms

/-- `FoldAdd` keeps the values when the carry is not the immediate one. -/
theorem foldAdd_sound {is32Bit : Bool} (hop : (b.pool inst).op = if is32Bit then .add32 else .add64)
    (hcarry : b.argValue σ (arg b inst 2) ≠ some (.u1 true)) :
    Sound σ b (foldAdd b inst is32Bit) pre inst := by
  rw [foldAdd]
  split
  · -- an immediate left operand moves right first
    have hadd : ComputesAdd (b.pool inst).op is32Bit fun y => y := hop ▸ computesAdd_add is32Bit
    have hin : (b.pool inst).op.isInput = false := by rw [hop]; cases is32Bit <;> rfl
    have hside : (b.pool inst).op.readsSideResults = false := by rw [hop]; cases is32Bit <;> rfl
    have hswap : Sound σ b ((b.setArg inst 0 (arg b inst 1)).setArg inst 1 (arg b inst 0)) pre inst :=
      Sound.setAddOperands hnd hb hL hadd hin hside (arg_refersInto hb hL 1) (arg_refersInto hb hL 0) fun x hx => by
        obtain ⟨a0, a1, c, h0, h1, h2, rfl⟩ := addOperands_of_valueOf hnd hb hL hadd hin hside hx
        simp only [addValue, h0, h1, h2, Option.bind_some, Val.asU1, Option.map_some]
        rw [BitVec.add_comm a1 a0]
    obtain ⟨hnd₁, hb₁, hL₁⟩ := hswap.changes.wf hnd hb hL
    refine hswap.trans (foldAddNormalized_sound hnd₁ hb₁ hL₁ ?_ ?_)
    · rw [Block.op_setArg, Block.op_setArg, hop]
    · -- the carry in is the same argument, with the same value
      have harg : arg ((b.setArg inst 0 (arg b inst 1)).setArg inst 1 (arg b inst 0)) inst 2 = arg b inst 2 := by
        simp only [arg, Block.args_setArg]
        rfl
      rw [harg, hswap.changes.argValue hnd hb hL σ (arg_refersInto hb hL 2)]
      exact hcarry
  · exact foldAddNormalized_sound hnd hb hL hop hcarry

/-- `FoldSub` keeps the values. -/
theorem foldSub_sound {is32Bit : Bool} (hop : (b.pool inst).op = if is32Bit then .sub32 else .sub64) :
    Sound σ b (foldSub b inst is32Bit) pre inst := by
  have hadd : ComputesAdd (b.pool inst).op is32Bit (~~~·) := hop ▸ computesAdd_sub is32Bit
  have hin : (b.pool inst).op.isInput = false := by rw [hop]; cases is32Bit <;> rfl
  have hside : (b.pool inst).op.readsSideResults = false := by rw [hop]; cases is32Bit <;> rfl
  have h3 : (b.pool inst).op.numArgs = 3 := by rw [hop]; cases is32Bit <;> rfl
  rw [foldSub]
  split
  · exact Sound.refl hb hL
  · rename_i hcond
    simp only [Bool.or_eq_true, Bool.not_eq_true', not_or, Bool.not_eq_false] at hcond
    exact (Sound.addImmediates hnd hb hL hadd hin hside hcond.1 h3 :)

end AddFolds

/-! ### Divisions -/

/-- `SignedDiv64` of two words sign-extended, truncated to a word, is `SignedDiv32`. -/
theorem setWidth_sdiv_signExtend (x y : BitVec 32) :
    ((x.signExtend 64).sdiv (y.signExtend 64)).setWidth 32 = x.sdiv y := by
  apply BitVec.eq_of_toInt_eq
  rw [← BitVec.signExtend_eq_setWidth_of_le _ (show 32 ≤ 64 by decide),
    BitVec.toInt_signExtend_eq_toInt_bmod_of_le _ (by decide), BitVec.toInt_sdiv, BitVec.toInt_sdiv,
    BitVec.toInt_signExtend_of_le (by decide), BitVec.toInt_signExtend_of_le (by decide),
    Int.bmod_bmod_of_dvd (by decide)]

/-- What `FoldDivide` computes from two operands zero-extended from its width: the signed division divides them as
`GetImmediateAsS64` reads them, sign-extended from the width. -/
def divFn (is32Bit isSigned : Bool) (x y : BitVec 64) : BitVec 64 :=
  if isSigned then
    if is32Bit then sdiv64 ((x.setWidth 32).signExtend 64) ((y.setWidth 32).signExtend 64) else sdiv64 x y
  else x / y

/-- The division opcodes compute `divFn`. -/
theorem computesBinary_div (is32Bit isSigned : Bool) :
    ComputesBinary (if isSigned then (if is32Bit then .signedDiv32 else .signedDiv64)
      else (if is32Bit then .unsignedDiv32 else .unsignedDiv64)) is32Bit (divFn is32Bit isSigned) := by
  cases isSigned <;> cases is32Bit
  · exact computesBinary_of_binary64 fun _ => rfl
  · refine computesBinary_of_binary32 (fun _ => rfl) fun x y => ?_
    apply BitVec.eq_of_toNat_eq
    have hx := x.isLt
    have hy := y.isLt
    simp only [divFn, Bool.false_eq_true, if_false, BitVec.toNat_setWidth, BitVec.toNat_udiv]
    rw [Nat.mod_eq_of_lt (show x.toNat < 2 ^ 64 by omega), Nat.mod_eq_of_lt (show y.toNat < 2 ^ 64 by omega),
      Nat.mod_eq_of_lt (lt_of_le_of_lt (Nat.div_le_self _ _) hx)]
  · refine computesBinary_of_binary64 fun a => ?_
    have hf : divFn false true = BitVec.sdiv := by
      funext x y
      exact sdiv64_eq_sdiv x y
    rw [hf]
    rfl
  · refine computesBinary_of_binary32 (fun _ => rfl) fun x y => ?_
    simp only [divFn, if_true, BitVec.setWidth_setWidth_of_le _ (show 32 ≤ 64 by decide), BitVec.setWidth_eq,
      sdiv64_eq_sdiv, setWidth_sdiv_signExtend]

/-- A division by zero gives zero. -/
theorem divFn_zero (is32Bit isSigned : Bool) (x : BitVec 64) : divFn is32Bit isSigned x 0 = 0 := by
  cases isSigned <;> cases is32Bit <;> simp [divFn, sdiv64_eq_sdiv]

/-- A division by one gives the dividend, at its width. -/
theorem immVal_divFn_one (is32Bit isSigned : Bool) (x : BitVec 64) :
    immVal is32Bit (divFn is32Bit isSigned x 1) = immVal is32Bit x := by
  cases isSigned <;> cases is32Bit
  · simp [divFn]
  · simp [divFn]
  · simp [divFn, sdiv64_eq_sdiv]
  · simp only [divFn, immVal, if_true, sdiv64_eq_sdiv, setWidth_sdiv_signExtend]
    simp

/-- A word sign-extended to 64 bits is never `INT64_MIN`, whose value needs all 64 bits. -/
theorem signExtend_ne_intMin (x : BitVec 32) : x.signExtend 64 ≠ BitVec.intMin 64 := by
  intro h
  have hint := congrArg BitVec.toInt h
  rw [BitVec.toInt_signExtend_of_le (by decide)] at hint
  have hx : -(2 ^ 31 : Int) ≤ x.toInt := by
    have := BitVec.le_toInt x
    simpa using this
  have hmin : (BitVec.intMin 64).toInt = -(2 ^ 63 : Int) := by decide
  omega

/-- C++ divides two words sign-extended to `s64` by a nonzero divisor: the 32-bit signed fold never traps. -/
theorem s64QuotientDefined_signExtend (x y : BitVec 32) (hy : y ≠ 0) :
    s64QuotientDefined (x.signExtend 64) (y.signExtend 64) = true := by
  rw [s64QuotientDefined_iff]
  refine ⟨fun h => hy ?_, fun h => signExtend_ne_intMin x h.1⟩
  have hlow := congrArg (BitVec.setWidth 32) h
  rw [setWidth_signExtend_of_le y (show 32 ≤ 64 by decide), BitVec.signExtend_eq] at hlow
  rw [hlow]
  rfl

section Divide

variable {b : Block} {pre post : List InstRef} {inst : InstRef} {σ : InstRef → Outcome}
  (hnd : b.instructions.Nodup) (hb : b.ArgsEarlier) (hL : b.instructions = pre ++ inst :: post)
include hnd hb hL

/-- An immediate that refers into `pre` reads, with `GetImmediateAsS64`, as its operand sign-extended from the width. -/
theorem getImmediateAsS64_of_bind {v : Value} (hv : v.refersInto pre = true) (himm : v.isImmediate b = true)
    {is32Bit : Bool} {a : BitVec 64} (h : (b.argValue σ v).bind (operand is32Bit) = some a) :
    v.getImmediateAsS64 b = if is32Bit then (a.setWidth 32).signExtend 64 else a := by
  obtain ⟨y, hy, ha⟩ := Option.bind_eq_some_iff.mp h
  have hres := Block.resolve_of_argValue hnd hb σ (Value.refersInto_mono (fun r hr => by simp [hL, hr]) hv) himm hy
  exact getImmediateAsS64_of_operand hres ha

/-- `FoldDivide`. The signed quotient of two immediates is the `s64` quotient of the immediates as
`GetImmediateAsS64` reads them; as a value it is the quotient the division computes, also on `INT_MIN / -1`, where the C++
division itself is not defined. -/
theorem foldDivide_sound {is32Bit isSigned : Bool}
    (hop : (b.pool inst).op = if isSigned then (if is32Bit then .signedDiv32 else .signedDiv64)
      else (if is32Bit then .unsignedDiv32 else .unsignedDiv64)) :
    Sound σ b (foldDivide b inst is32Bit isSigned) pre inst := by
  have hbin : ComputesBinary (b.pool inst).op is32Bit (divFn is32Bit isSigned) := hop ▸ computesBinary_div _ _
  have hin : (b.pool inst).op.isInput = false := by rw [hop]; cases isSigned <;> cases is32Bit <;> rfl
  have hside : (b.pool inst).op.readsSideResults = false := by
    rw [hop]; cases isSigned <;> cases is32Bit <;> rfl
  rw [foldDivide]
  dsimp only
  split
  · -- a zero divisor gives zero
    rename_i hz
    refine Sound.replaceUsesWithAbsorbing hnd hb hL hbin hin hside fun a0 a1 h1 => ?_
    rw [right_of_isUnsignedImmediate hnd hb hL hz h1, divFn_zero]
  split
  · -- two immediates: their quotient
    rename_i _ himm
    simp only [Bool.and_eq_true] at himm
    split
    · rename_i hs
      refine Sound.replaceUsesWithImm hnd hb hL fun x hx => ?_
      obtain ⟨a0, a1, h0, h1, rfl⟩ := operands_of_valueOf hnd hb hL hbin hin hside hx
      rw [getImmediateAsS64_of_bind hnd hb hL (arg_refersInto hb hL 0) himm.1 h0,
        getImmediateAsS64_of_bind hnd hb hL (arg_refersInto hb hL 1) himm.2 h1, hs]
      cases is32Bit <;> rfl
    · rename_i hs
      refine Sound.replaceUsesWithImm hnd hb hL fun x hx => ?_
      obtain ⟨a0, a1, h0, h1, rfl⟩ := operands_of_valueOf hnd hb hL hbin hin hside hx
      rw [getImmediateAsU64_of_bind hnd hb hL (arg_refersInto hb hL 0) himm.1 h0,
        getImmediateAsU64_of_bind hnd hb hL (arg_refersInto hb hL 1) himm.2 h1, Bool.eq_false_iff.mpr hs]
      rfl
  split
  · -- a divisor of one gives the dividend
    rename_i _ _ hone
    exact Sound.replaceUsesWithLeft hnd hb hL hbin hin hside fun a0 a1 h1 => by
      rw [right_of_isUnsignedImmediate hnd hb hL hone h1, immVal_divFn_one]
  · exact Sound.refl hb hL

/-- `FoldDivide` of a signed division whose value the run computes traps only on operands that are `INT64_MIN` and `-1` in
the run; the operands of a 32-bit division, sign-extended, never are. -/
theorem foldDivideTraps_eq_false (is32Bit : Bool)
    (hop : (b.pool inst).op = if is32Bit then .signedDiv32 else .signedDiv64) {x : Val} (hx : b.valueOf σ inst = some x)
    (hdiv : is32Bit = false → ∀ x y, b.argValue σ (arg b inst 0) = some (.u64 x) →
      b.argValue σ (arg b inst 1) = some (.u64 y) → ¬(x = BitVec.intMin 64 ∧ y = -1)) :
    foldDivideTraps b inst = false := by
  have hbin : ComputesBinary (b.pool inst).op is32Bit (divFn is32Bit true) := by
    rw [hop]
    exact computesBinary_div is32Bit true
  have hin : (b.pool inst).op.isInput = false := by rw [hop]; cases is32Bit <;> rfl
  have hside : (b.pool inst).op.readsSideResults = false := by rw [hop]; cases is32Bit <;> rfl
  rw [← Bool.not_eq_true, foldDivideTraps]
  simp only [Bool.and_eq_true, Bool.not_eq_true']
  rintro ⟨⟨⟨hz, himm0⟩, himm1⟩, hq⟩
  obtain ⟨a0, a1, h0, h1, -⟩ := operands_of_valueOf hnd hb hL hbin hin hside hx
  rw [getImmediateAsS64_of_bind hnd hb hL (arg_refersInto hb hL 0) himm0 h0,
    getImmediateAsS64_of_bind hnd hb hL (arg_refersInto hb hL 1) himm1 h1] at hq
  -- the divisor is not zero, which `IsZero` checked on the immediate
  have ha1 : a1 ≠ 0 := fun h => by
    simp [Value.isZero, Value.isUnsignedImmediate, himm1,
      getImmediateAsU64_of_bind hnd hb hL (arg_refersInto hb hL 1) himm1 h1, h] at hz
  obtain ⟨y0, hy0, ha0⟩ := Option.bind_eq_some_iff.mp h0
  obtain ⟨y1, hy1, ha1'⟩ := Option.bind_eq_some_iff.mp h1
  cases is32Bit
  · rw [← immVal_of_operand ha0] at hy0
    rw [← immVal_of_operand ha1'] at hy1
    have hpair := (s64QuotientDefined_iff a0 a1).not.mp (by simpa using hq)
    exact hdiv rfl a0 a1 hy0 hy1 (by tauto)
  · have hy : a1.setWidth 32 ≠ 0 := fun h => ha1 (by
      rw [← truncate_of_operand ha1', truncate, if_pos rfl, h]
      rfl)
    simp only [if_true] at hq
    rw [s64QuotientDefined_signExtend _ _ hy] at hq
    exact Bool.noConfusion hq

end Divide

end ConstantPropagation

end Dynarmic.Optimization
