import Dynarmic.IR.Opt.ConstantPropagation

/-!
# The folds of `ConstantPropagation`, one instruction at a time

A fold of `ConstantPropagation` changes the instruction it folds, `inst`, and no other instruction of the list: through
`SetArg` it gives `inst` arguments that refer to instructions before it, through `ReplaceUsesWith` it turns `inst` into an
`Identity`, and where it folds a carry it turns the pseudo-operation that reads it, which a block without flag readers
holds outside its list, into an `Identity` too (`Changes`). Every other instruction of the list keeps its code, so a run
of the block changes only at `inst` and at what reads it.

The second half of the module proves, fold by fold, that the new code of `inst` computes the value the old one computed
(`Sound`): from the values the arguments have in the run, through the immediates the fold reads with `GetImmediateAsU64`.
An operation of `is32Bit` width is read as the source reads it, on operands zero-extended to 64 bits and truncated again
by `Value(is_32_bit, value)`.
-/

namespace Dynarmic.Optimization

open Dynarmic.IR

namespace ConstantPropagation

/-- What a fold does to the block: it changes the instruction `inst`, at its place `pre ++ inst :: post` of the list,
into an instruction whose arguments refer into `pre` and whose opcode is its own or `Identity`, and no other instruction
of the list. -/
structure Changes (b b' : Block) (pre : List InstRef) (inst : InstRef) : Prop where
  instructions : b'.instructions = b.instructions
  frame : ∀ r ∈ b.instructions, r ≠ inst → (b'.pool r).op = (b.pool r).op ∧ (b'.pool r).args = (b.pool r).args
  op : (b'.pool inst).op = (b.pool inst).op ∨ (b'.pool inst).op = .identity
  args : ∀ k, ((b'.pool inst).args k).refersInto pre = true

section Changes

variable {b b₁ b₂ : Block} {pre post : List InstRef} {inst : InstRef}

/-- With no edit, a block changes to itself. -/
theorem Changes.refl (hb : b.ArgsEarlier) (hL : b.instructions = pre ++ inst :: post) : Changes b b pre inst where
  instructions := rfl
  frame _ _ _ := ⟨rfl, rfl⟩
  op := .inl rfl
  args k := by
    cases h : (b.pool inst).args k
    case inst t => simpa [Value.refersInto] using hb.mem_of_arg hL h
    all_goals rfl

/-- Changes at one instruction compose. -/
theorem Changes.trans (h₁ : Changes b b₁ pre inst) (h₂ : Changes b₁ b₂ pre inst) : Changes b b₂ pre inst where
  instructions := h₂.instructions.trans h₁.instructions
  frame r hr hne := by
    obtain ⟨hop₂, hargs₂⟩ := h₂.frame r (h₁.instructions ▸ hr) hne
    obtain ⟨hop₁, hargs₁⟩ := h₁.frame r hr hne
    exact ⟨hop₂.trans hop₁, hargs₂.trans hargs₁⟩
  op := by
    rcases h₂.op with h | h
    · rw [h]
      exact h₁.op
    · exact .inr h
  args := h₂.args

/-- `SetArg` on `inst`, with a value that refers into `pre`. -/
theorem Changes.setArg (h : Changes b b₁ pre inst) (k : Fin 4) {v : Value} (hv : v.refersInto pre = true) :
    Changes b (b₁.setArg inst k v) pre inst where
  instructions := (Block.instructions_setArg _ _ _ _).trans h.instructions
  frame r hr hne := by
    rw [Block.op_setArg, Block.args_setArg, if_neg hne]
    exact h.frame r hr hne
  op := by
    rw [Block.op_setArg]
    exact h.op
  args j := by
    rw [Block.args_setArg, if_pos rfl]
    by_cases hj : j = k
    · rw [hj, Function.update_self]
      exact hv
    · rw [Function.update_of_ne hj]
      exact h.args j

/-- `ReplaceUsesWith` on `inst`, with a value that refers into `pre`. -/
theorem Changes.replaceUsesWith (h : Changes b b₁ pre inst) {v : Value} (hv : v.refersInto pre = true) :
    Changes b (b₁.replaceUsesWith inst v) pre inst where
  instructions := (Block.instructions_replaceUsesWith _ _ _).trans h.instructions
  frame r hr hne := by
    rw [Block.op_replaceUsesWith, Block.args_replaceUsesWith, if_neg hne, if_neg hne]
    exact h.frame r hr hne
  op := by
    rw [Block.op_replaceUsesWith, if_pos rfl]
    exact .inr rfl
  args j := by
    rw [Block.args_replaceUsesWith, if_pos rfl]
    by_cases hj : j = 0
    · rw [hj, Function.update_self]
      exact hv
    · rw [Function.update_of_ne hj]
      rfl

/-- `ReplaceUsesWith` on an instruction outside the list. -/
theorem Changes.replaceUsesWith_of_not_mem (h : Changes b b₁ pre inst) (hL : b.instructions = pre ++ inst :: post)
    {c : InstRef} (hc : c ∉ b.instructions) (v : Value) : Changes b (b₁.replaceUsesWith c v) pre inst where
  instructions := (Block.instructions_replaceUsesWith _ _ _).trans h.instructions
  frame r hr hne := by
    have hrc : r ≠ c := fun h => hc (h ▸ hr)
    rw [Block.op_replaceUsesWith, Block.args_replaceUsesWith, if_neg hrc, if_neg hrc]
    exact h.frame r hr hne
  op := by
    have hic : inst ≠ c := fun h => hc (h ▸ by simp [hL])
    rw [Block.op_replaceUsesWith, if_neg hic]
    exact h.op
  args j := by
    have hic : inst ≠ c := fun h => hc (h ▸ by simp [hL])
    rw [Block.args_replaceUsesWith, if_neg hic]
    exact h.args j

variable {b' : Block} (hnd : b.instructions.Nodup) (hb : b.ArgsEarlier) (hL : b.instructions = pre ++ inst :: post)
include hnd hL

/-- An instruction before `inst` is another instruction of the list. -/
theorem mem_of_mem_pre {r : InstRef} (hr : r ∈ pre) : r ∈ b.instructions ∧ r ≠ inst := by
  refine ⟨by simp [hL, hr], ?_⟩
  rintro rfl
  rw [hL] at hnd
  exact (List.nodup_append.mp hnd).2.2 r hr r List.mem_cons_self rfl

include hb

/-- A fold keeps arguments that refer to earlier instructions. -/
theorem Changes.argsEarlier (h : Changes b b' pre inst) : b'.ArgsEarlier := by
  apply Block.argsEarlier_of_split
  intro pre' r post' hL' k t ht
  rw [h.instructions] at hL'
  by_cases hr : r = inst
  · -- the place of `inst` is the one the fold was given
    subst hr
    have hpre : pre = pre' := prefix_eq_of_nodup (hL ▸ hnd) (hL.symm.trans hL')
    have hk := h.args k
    rw [ht, hpre] at hk
    simpa [Value.refersInto] using hk
  · have hrL : r ∈ b.instructions := by simp [hL']
    rw [(h.frame r hrL hr).2] at ht
    exact hb.mem_of_arg hL' ht

/-- The instructions before `inst` compute what they computed. -/
theorem Changes.run_of_mem_pre (h : Changes b b' pre inst) (σ : InstRef → Outcome) {t : InstRef} (ht : t ∈ pre) :
    b'.run σ t = b.run σ t :=
  Block.run_eq_of_agree (· ∈ pre) h.instructions (fun r hr => (h.frame r (mem_of_mem_pre hnd hL hr).1
      (mem_of_mem_pre hnd hL hr).2).1) (fun r hr => (h.frame r (mem_of_mem_pre hnd hL hr).1
      (mem_of_mem_pre hnd hL hr).2).2)
    (fun _ hr _ _ hk => hb.mem_of_arg_of_prefix hL hr hk) σ t ht

/-- An argument that refers into `pre` has the value it had. -/
theorem Changes.argValue (h : Changes b b' pre inst) (σ : InstRef → Outcome) {v : Value}
    (hv : v.refersInto pre = true) : b'.argValue σ v = b.argValue σ v :=
  Block.argValue_congr fun t ht => by
    rw [Block.valueOf, Block.valueOf, h.run_of_mem_pre hnd hb hL σ (by simpa [ht, Value.refersInto] using hv)]

/-- An argument that refers into `pre` follows the chain of identities it followed. -/
theorem Changes.resolve (h : Changes b b' pre inst) {v : Value} (hv : v.refersInto pre = true) :
    v.resolve b' = v.resolve b := by
  rw [Value.resolve, Value.resolve, Block.fuel, Block.fuel, h.instructions]
  exact Value.resolveAux_congr (S := (· ∈ pre))
    (fun r hr => (h.frame r (mem_of_mem_pre hnd hL hr).1 (mem_of_mem_pre hnd hL hr).2).1)
    (fun r hr => by rw [(h.frame r (mem_of_mem_pre hnd hL hr).1 (mem_of_mem_pre hnd hL hr).2).2])
    (fun _ hr _ _ hu => hb.mem_of_arg_of_prefix hL hr hu) _ v
    (fun t ht => by simpa [ht, Value.refersInto] using hv)

/-- The value `inst` has after a fold: what its new code computes from the values its arguments had. -/
theorem Changes.valueOf (h : Changes b b' pre inst) (σ : InstRef → Outcome)
    (hin : (b'.pool inst).op.isInput = false) (hside : (b'.pool inst).op.readsSideResults = false) :
    b'.valueOf σ inst = opValue (b'.pool inst).op fun k => b.argValue σ ((b'.pool inst).args k) := by
  have hnd' : b'.instructions.Nodup := h.instructions ▸ hnd
  rw [Block.valueOf_of_mem hnd' (h.argsEarlier hnd hb hL) σ (by simp [h.instructions, hL]) hin hside]
  congr 1
  funext k
  exact h.argValue hnd hb hL σ (h.args k)

end Changes

/-! ### Folds that keep the value of `inst` -/

/-- A fold of `inst` that is sound in the run from `σ`: it changes the block as `Changes` allows and keeps the value
`inst` has, where it has one. -/
structure Sound (σ : InstRef → Outcome) (b b' : Block) (pre : List InstRef) (inst : InstRef) : Prop where
  changes : Changes b b' pre inst
  value : ∀ x, b.valueOf σ inst = some x → b'.valueOf σ inst = some x

section Sound

variable {b b₁ b₂ : Block} {pre post : List InstRef} {inst : InstRef} {σ : InstRef → Outcome}

/-- Sound edits at one instruction compose. -/
theorem Sound.trans (h₁ : Sound σ b b₁ pre inst) (h₂ : Sound σ b₁ b₂ pre inst) : Sound σ b b₂ pre inst :=
  ⟨h₁.changes.trans h₂.changes, fun x hx => h₂.value x (h₁.value x hx)⟩

/-- No edit is sound. -/
theorem Sound.refl (hb : b.ArgsEarlier) (hL : b.instructions = pre ++ inst :: post) : Sound σ b b pre inst :=
  ⟨Changes.refl hb hL, fun _ hx => hx⟩

variable (hnd : b.instructions.Nodup) (hb : b.ArgsEarlier) (hL : b.instructions = pre ++ inst :: post)
include hnd hb hL

/-- A block a fold has changed satisfies what the fold lemmas assume of a block. -/
theorem Changes.wf (h : Changes b b₁ pre inst) :
    b₁.instructions.Nodup ∧ b₁.ArgsEarlier ∧ b₁.instructions = pre ++ inst :: post :=
  ⟨h.instructions ▸ hnd, h.argsEarlier hnd hb hL, h.instructions.trans hL⟩

/-- The value of `inst`, an instruction that is no input and reads no side results, before the fold. -/
theorem valueOf_inst (hin : (b.pool inst).op.isInput = false) (hside : (b.pool inst).op.readsSideResults = false) :
    b.valueOf σ inst = opValue (b.pool inst).op fun k => b.argValue σ ((b.pool inst).args k) :=
  Block.valueOf_of_mem hnd hb σ (by simp [hL]) hin hside

/-- Turning `inst` into an identity of a value that has in the run the value `inst` had. -/
theorem Sound.replaceUsesWith {v : Value} (hv : v.refersInto pre = true)
    (hval : ∀ x, b.valueOf σ inst = some x → b.argValue σ v = some x) :
    Sound σ b (b.replaceUsesWith inst v) pre inst := by
  have h := (Changes.refl hb hL).replaceUsesWith hv
  refine ⟨h, fun x hx => ?_⟩
  have hop : ((b.replaceUsesWith inst v).pool inst).op = .identity := by
    rw [Block.op_replaceUsesWith, if_pos rfl]
  rw [h.valueOf hnd hb hL σ (by rw [hop]; rfl) (by rw [hop]; rfl), hop, opValue_identity,
    Block.args_replaceUsesWith, if_pos rfl, Function.update_self]
  exact hval x hx

/-- Changing the arguments of `inst`, keeping its opcode, to values on which the opcode computes the value `inst` had. -/
theorem Sound.of_args (h : Changes b b₁ pre inst) (hop : (b₁.pool inst).op = (b.pool inst).op)
    (hin : (b.pool inst).op.isInput = false) (hside : (b.pool inst).op.readsSideResults = false)
    (hval : ∀ x, b.valueOf σ inst = some x →
      opValue (b.pool inst).op (fun k => b.argValue σ ((b₁.pool inst).args k)) = some x) :
    Sound σ b b₁ pre inst := by
  refine ⟨h, fun x hx => ?_⟩
  rw [h.valueOf hnd hb hL σ (hop ▸ hin) (hop ▸ hside), hop]
  exact hval x hx

/-- A change that leaves the code of `inst` as it was leaves its value. -/
theorem Changes.valueOf_eq (h : Changes b b₁ pre inst) (hop : (b₁.pool inst).op = (b.pool inst).op)
    (hargs : (b₁.pool inst).args = (b.pool inst).args) (hside : (b.pool inst).op.readsSideResults = false) :
    b₁.valueOf σ inst = b.valueOf σ inst :=
  Block.valueOf_eq_of_same hnd hb h.instructions (h.argsEarlier hnd hb hL) σ hL hop hargs hside fun t ht => by
    rw [Block.valueOf, Block.valueOf, h.run_of_mem_pre hnd hb hL σ ht]

end Sound

/-- The pseudo-operation that reads the carry of `inst` lies outside a list that has no readers of side results. -/
theorem not_mem_of_carryInst {b : Block} {inst : InstRef}
    (hreaders : ∀ r ∈ b.instructions, (b.pool r).op.readsSideResults = false) {c : InstRef}
    (hc : b.getAssociatedPseudoOperation inst .getCarryFromOp = some c) : c ∉ b.instructions := by
  intro hmem
  have h := hreaders c hmem
  rw [Block.op_of_getAssociatedPseudoOperation hc] at h
  exact absurd h (by decide)

/-- An argument slot within the arity of an instruction whose arguments are all immediates is immediate. -/
theorem isImmediate_of_areAllArgsImmediates {b : Block} {inst : InstRef} (h : b.areAllArgsImmediates inst = true)
    {k : Fin 4} (hk : k.val < (b.pool inst).op.numArgs) : (arg b inst k).isImmediate b = true :=
  List.all_eq_true.mp h k (by simp [Block.argSlots, hk])

/-! ### Operands of `is32Bit` width -/

/-- An operand of a 32-bit (`is32Bit`) or a 64-bit operation, zero-extended to 64 bits as `GetImmediateAsU64` reads an
immediate of it. -/
def operand : Bool → Val → Option (BitVec 64)
  | true, .u32 x => some (x.setWidth 64)
  | false, .u64 x => some x
  | _, _ => none

/-- The value of the immediate `Value(is_32_bit, value)`. -/
def immVal (is32Bit : Bool) (x : BitVec 64) : Val :=
  if is32Bit then .u32 (x.setWidth 32) else .u64 x

/-- What `Value(is_32_bit, value)` keeps of a 64-bit value, zero-extended again. -/
def truncate (is32Bit : Bool) (x : BitVec 64) : BitVec 64 :=
  if is32Bit then (x.setWidth 32).setWidth 64 else x

@[simp] theorem argValue_immValue (σ : InstRef → Outcome) (b : Block) (is32Bit : Bool) (x : BitVec 64) :
    b.argValue σ (immValue is32Bit x) = some (immVal is32Bit x) := by
  cases is32Bit <;> rfl

/-- An immediate refers to no instruction. -/
theorem immValue_refersInto (pre : List InstRef) (is32Bit : Bool) (x : BitVec 64) :
    (immValue is32Bit x).refersInto pre = true := by
  cases is32Bit <;> rfl

@[simp] theorem operand_immVal (is32Bit : Bool) (x : BitVec 64) :
    operand is32Bit (immVal is32Bit x) = some (truncate is32Bit x) := by
  cases is32Bit <;> rfl

@[simp] theorem immVal_truncate (is32Bit : Bool) (x : BitVec 64) :
    immVal is32Bit (truncate is32Bit x) = immVal is32Bit x := by
  cases is32Bit <;> simp [immVal, truncate]

/-- An operand is its own truncation. -/
theorem truncate_of_operand {is32Bit : Bool} {v : Val} {x : BitVec 64} (h : operand is32Bit v = some x) :
    truncate is32Bit x = x := by
  cases is32Bit <;> cases v <;> simp [operand] at h <;> subst h <;> simp [truncate]

/-- An immediate operand reads, with `GetImmediateAsU64`, as the operand. -/
theorem getImmediateAsU64_of_operand {b : Block} {v : Value} {y : Val} (hres : v.resolve b = y.toValue)
    {is32Bit : Bool} {x : BitVec 64} (h : operand is32Bit y = some x) : v.getImmediateAsU64 b = x := by
  cases is32Bit <;> cases y <;> simp [operand] at h <;> simp [Value.getImmediateAsU64, hres, Val.toValue, h]

/-! ### Truncating a zero-extended operand -/

/-- Sign-extending to a width and truncating to a smaller one is sign-extending to the smaller. -/
theorem setWidth_signExtend_of_le (x : BitVec w) {u v : Nat} (h : u ≤ v) :
    (x.signExtend v).setWidth u = x.signExtend u := by
  ext i hi
  simp [BitVec.getElem_signExtend, show i < v by omega]

/-- `(operand >> 31) != 0` on a zero-extended word is its sign bit. -/
theorem ushiftRight_thirtyOne_ne_zero (a : BitVec 32) : ((a.setWidth 64 >>> 31) != 0) = a.msb := by
  have hshift : (a.setWidth 64 >>> 31).toNat = a.toNat / 2 ^ 31 := by
    rw [BitVec.toNat_ushiftRight, BitVec.toNat_setWidth, Nat.mod_eq_of_lt (by have := a.isLt; omega),
      Nat.shiftRight_eq_div_pow]
  have h0 : (0 : BitVec 64).toNat = 0 := rfl
  have := a.isLt
  rw [BitVec.msb_eq_decide, Bool.eq_iff_iff, bne_iff_ne, ne_eq, BitVec.toNat_eq, hshift, decide_eq_true_iff, h0]
  omega

/-- `swap_bytes_16` reverses the bytes, as `ByteReverseHalf` does. -/
theorem swapBytes16_eq (x : BitVec 16) : Mcl.Bit.swapBytes16 x = byteReverse16 x := by
  apply BitVec.eq_of_getLsbD_eq
  intro i hi
  simp only [Mcl.Bit.swapBytes16, byteReverse16, BitVec.getLsbD_append, BitVec.getLsbD_extractLsb',
    BitVec.getLsbD_setWidth, BitVec.getLsbD_or, BitVec.getLsbD_ushiftRight, BitVec.getLsbD_shiftLeft]
  interval_cases i <;> simp

/-- `swap_bytes_32` is the byte reversal of a word. -/
theorem swapBytes32_eq (x : BitVec 32) : Mcl.Bit.swapBytes32 x = byteReverse32 x := by
  apply BitVec.eq_of_getLsbD_eq
  intro i hi
  simp only [Mcl.Bit.swapBytes32, byteReverse32, BitVec.getLsbD_append, BitVec.getLsbD_extractLsb',
    BitVec.getLsbD_or, BitVec.getLsbD_ushiftRight, BitVec.getLsbD_shiftLeft, BitVec.getLsbD_and]
  interval_cases i <;> simp

/-- `swap_bytes_64` is the byte reversal of a doubleword. -/
theorem swapBytes64_eq (x : BitVec 64) : Mcl.Bit.swapBytes64 x = byteReverse64 x := by
  apply BitVec.eq_of_getLsbD_eq
  intro i hi
  simp only [Mcl.Bit.swapBytes64, byteReverse64, BitVec.getLsbD_append, BitVec.getLsbD_extractLsb',
    BitVec.getLsbD_or, BitVec.getLsbD_ushiftRight, BitVec.getLsbD_shiftLeft, BitVec.getLsbD_and]
  interval_cases i <;> simp

/-! ### The folds of one operand -/

section Unary

variable {b : Block} {pre post : List InstRef} {inst : InstRef} {σ : InstRef → Outcome}

@[simp] theorem resolve_toValue (b : Block) (y : Val) : y.toValue.resolve b = y.toValue := by
  cases y <;> rfl

/-- The arguments of `inst` refer into `pre`. -/
theorem arg_refersInto (hb : b.ArgsEarlier) (hL : b.instructions = pre ++ inst :: post) (k : Fin 4) :
    (arg b inst k).refersInto pre = true :=
  (Changes.refl hb hL).args k

variable (hnd : b.instructions.Nodup) (hb : b.ArgsEarlier) (hL : b.instructions = pre ++ inst :: post)
include hnd hb hL

/-- An immediate argument of `inst` with a value in the run ends its chain at the immediate of that value. -/
theorem resolve_arg {k : Fin 4} (himm : (arg b inst k).isImmediate b = true) {y : Val}
    (hy : b.argValue σ (arg b inst k) = some y) : (arg b inst k).resolve b = y.toValue :=
  Block.resolve_of_argValue hnd hb σ
    (Value.refersInto_mono (fun r hr => by simp [hL, hr]) (arg_refersInto hb hL k)) himm hy

/-- `foldUnary`: the folds that replace `inst` by an immediate computed from its immediate operand are sound when,
for every value of the operand, the immediate has the value the opcode computes from it. -/
theorem foldUnary_sound {op : Opcode} (hop : (b.pool inst).op = op) (harity : 0 < op.numArgs)
    (hin : op.isInput = false) (hside : op.readsSideResults = false) {result : Value → Value}
    (hresult : ∀ v w : Value, v.resolve b = w.resolve b → result v = result w)
    (hres : (result (arg b inst 0)).refersInto pre = true)
    (hval : ∀ vals x, opValue op vals = some x → ∃ y, vals 0 = some y ∧ b.argValue σ (result y.toValue) = some x) :
    Sound σ b (foldUnary b inst result) pre inst := by
  rw [foldUnary]
  split
  · exact Sound.refl hb hL
  · rename_i hall
    simp only [Bool.not_eq_true', Bool.not_eq_false] at hall
    have himm := isImmediate_of_areAllArgsImmediates hall (k := 0) (by rw [hop]; exact harity)
    refine Sound.replaceUsesWith hnd hb hL hres fun x hx => ?_
    rw [valueOf_inst hnd hb hL (hop ▸ hin) (hop ▸ hside), hop] at hx
    obtain ⟨y, hy, hx⟩ := hval _ x hx
    have hres : (arg b inst 0).resolve b = y.toValue := resolve_arg hnd hb hL himm hy
    rw [hresult _ y.toValue (by rw [hres, resolve_toValue])]
    exact hx

/-- `FoldLeastSignificantWord` keeps the values. -/
theorem foldLeastSignificantWord_sound (hop : (b.pool inst).op = .leastSignificantWord) :
    Sound σ b (foldLeastSignificantWord b inst) pre inst := by
  refine foldUnary_sound hnd hb hL hop (by decide) rfl rfl (fun v w h => by simp only [Value.getImmediateAsU64, h]) rfl
    fun vals x hx => ?_
  dsimp only [opValue, evalOp, argU64] at hx
  simp only [bind_map_plain, Option.bind_eq_bind, Option.map_bind, Option.bind_eq_some_iff, Option.map_some,
    Option.some.injEq, Val.asU64_eq_some, Function.comp_apply] at hx
  obtain ⟨a, ⟨_, ha, rfl⟩, rfl⟩ := hx
  exact ⟨_, ha, rfl⟩

/-- `FoldLeastSignificantHalf` keeps the values. -/
theorem foldLeastSignificantHalf_sound (hop : (b.pool inst).op = .leastSignificantHalf) :
    Sound σ b (foldLeastSignificantHalf b inst) pre inst := by
  refine foldUnary_sound hnd hb hL hop (by decide) rfl rfl (fun v w h => by simp only [Value.getImmediateAsU64, h]) rfl
    fun vals x hx => ?_
  dsimp only [opValue, evalOp, argU32] at hx
  simp only [bind_map_plain, Option.bind_eq_bind, Option.map_bind, Option.bind_eq_some_iff, Option.map_some,
    Option.some.injEq, Val.asU32_eq_some, Function.comp_apply] at hx
  obtain ⟨a, ⟨_, ha, rfl⟩, rfl⟩ := hx
  refine ⟨_, ha, ?_⟩
  simp only [Value.getImmediateAsU64, resolve_toValue]
  simp [Val.toValue, Block.argValue, evalArg, Outcome.plain]

/-- `FoldLeastSignificantByte` keeps the values. -/
theorem foldLeastSignificantByte_sound (hop : (b.pool inst).op = .leastSignificantByte) :
    Sound σ b (foldLeastSignificantByte b inst) pre inst := by
  refine foldUnary_sound hnd hb hL hop (by decide) rfl rfl (fun v w h => by simp only [Value.getImmediateAsU64, h]) rfl
    fun vals x hx => ?_
  dsimp only [opValue, evalOp, argU32] at hx
  simp only [bind_map_plain, Option.bind_eq_bind, Option.map_bind, Option.bind_eq_some_iff, Option.map_some,
    Option.some.injEq, Val.asU32_eq_some, Function.comp_apply] at hx
  obtain ⟨a, ⟨_, ha, rfl⟩, rfl⟩ := hx
  refine ⟨_, ha, ?_⟩
  simp only [Value.getImmediateAsU64, resolve_toValue]
  simp [Val.toValue, Block.argValue, evalArg, Outcome.plain]

/-- `FoldMostSignificantBit` keeps the values. -/
theorem foldMostSignificantBit_sound (hop : (b.pool inst).op = .mostSignificantBit) :
    Sound σ b (foldMostSignificantBit b inst) pre inst := by
  refine foldUnary_sound hnd hb hL hop (by decide) rfl rfl (fun v w h => by simp only [Value.getImmediateAsU64, h]) rfl
    fun vals x hx => ?_
  dsimp only [opValue, evalOp, argU32] at hx
  simp only [bind_map_plain, Option.bind_eq_bind, Option.map_bind, Option.bind_eq_some_iff, Option.map_some,
    Option.some.injEq, Val.asU32_eq_some, Function.comp_apply] at hx
  obtain ⟨a, ⟨_, ha, rfl⟩, rfl⟩ := hx
  refine ⟨_, ha, ?_⟩
  simp only [Value.getImmediateAsU64, resolve_toValue]
  simp only [Val.toValue]
  rw [ushiftRight_thirtyOne_ne_zero]
  rfl

/-- The `IsZero32` case of the switch. -/
theorem foldIsZero32_sound (hop : (b.pool inst).op = .isZero32) :
    Sound σ b (foldUnary b inst fun operand => .u1 (operand.getU32 b == 0)) pre inst := by
  refine foldUnary_sound hnd hb hL hop (by decide) rfl rfl (fun v w h => by simp only [Value.getU32, h]) rfl
    fun vals x hx => ?_
  dsimp only [opValue, evalOp, argU32] at hx
  simp only [bind_map_plain, Option.bind_eq_bind, Option.map_bind, Option.bind_eq_some_iff, Option.map_some,
    Option.some.injEq, Val.asU32_eq_some, Function.comp_apply] at hx
  obtain ⟨a, ⟨_, ha, rfl⟩, rfl⟩ := hx
  exact ⟨_, ha, rfl⟩

/-- The `IsZero64` case of the switch. -/
theorem foldIsZero64_sound (hop : (b.pool inst).op = .isZero64) :
    Sound σ b (foldUnary b inst fun operand => .u1 (operand.getU64 b == 0)) pre inst := by
  refine foldUnary_sound hnd hb hL hop (by decide) rfl rfl (fun v w h => by simp only [Value.getU64, h]) rfl
    fun vals x hx => ?_
  dsimp only [opValue, evalOp, argU64] at hx
  simp only [bind_map_plain, Option.bind_eq_bind, Option.map_bind, Option.bind_eq_some_iff, Option.map_some,
    Option.some.injEq, Val.asU64_eq_some, Function.comp_apply] at hx
  obtain ⟨a, ⟨_, ha, rfl⟩, rfl⟩ := hx
  exact ⟨_, ha, rfl⟩

/-- `FoldSignExtendXToWord` keeps the values. -/
theorem foldSignExtendXToWord_sound (hop : (b.pool inst).op = .signExtendByteToWord ∨
    (b.pool inst).op = .signExtendHalfToWord) : Sound σ b (foldSignExtendXToWord b inst) pre inst := by
  rcases hop with hop | hop
  all_goals
    refine foldUnary_sound hnd hb hL hop (by decide) rfl rfl
      (fun v w h => by simp only [Value.getImmediateAsS64, h]) rfl fun vals x hx => ?_
    dsimp only [opValue, evalOp, argU8, argU16] at hx
    simp only [bind_map_plain, Option.bind_eq_bind, Option.map_bind, Option.bind_eq_some_iff, Option.map_some,
      Option.some.injEq, Val.asU8_eq_some, Val.asU16_eq_some, Function.comp_apply] at hx
    obtain ⟨a, ⟨_, ha, rfl⟩, rfl⟩ := hx
    refine ⟨_, ha, ?_⟩
    simp only [Value.getImmediateAsS64, resolve_toValue]
    simp only [Val.toValue]
    rw [setWidth_signExtend_of_le _ (by decide)]
    rfl

/-- `FoldSignExtendXToLong` keeps the values. -/
theorem foldSignExtendXToLong_sound (hop : (b.pool inst).op = .signExtendByteToLong ∨
    (b.pool inst).op = .signExtendHalfToLong ∨ (b.pool inst).op = .signExtendWordToLong) :
    Sound σ b (foldSignExtendXToLong b inst) pre inst := by
  rcases hop with hop | hop | hop
  all_goals
    refine foldUnary_sound hnd hb hL hop (by decide) rfl rfl
      (fun v w h => by simp only [Value.getImmediateAsS64, h]) rfl fun vals x hx => ?_
    dsimp only [opValue, evalOp, argU8, argU16, argU32] at hx
    simp only [bind_map_plain, Option.bind_eq_bind, Option.map_bind, Option.bind_eq_some_iff, Option.map_some,
      Option.some.injEq, Val.asU8_eq_some, Val.asU16_eq_some, Val.asU32_eq_some, Function.comp_apply] at hx
    obtain ⟨a, ⟨_, ha, rfl⟩, rfl⟩ := hx
    exact ⟨_, ha, rfl⟩

/-- `FoldZeroExtendXToWord` keeps the values. -/
theorem foldZeroExtendXToWord_sound (hop : (b.pool inst).op = .zeroExtendByteToWord ∨
    (b.pool inst).op = .zeroExtendHalfToWord) : Sound σ b (foldZeroExtendXToWord b inst) pre inst := by
  rcases hop with hop | hop
  all_goals
    refine foldUnary_sound hnd hb hL hop (by decide) rfl rfl
      (fun v w h => by simp only [Value.getImmediateAsU64, h]) rfl fun vals x hx => ?_
    dsimp only [opValue, evalOp, argU8, argU16] at hx
    simp only [bind_map_plain, Option.bind_eq_bind, Option.map_bind, Option.bind_eq_some_iff, Option.map_some,
      Option.some.injEq, Val.asU8_eq_some, Val.asU16_eq_some, Function.comp_apply] at hx
    obtain ⟨a, ⟨_, ha, rfl⟩, rfl⟩ := hx
    refine ⟨_, ha, ?_⟩
    simp only [Value.getImmediateAsU64, resolve_toValue]
    simp [Val.toValue, Block.argValue, evalArg, Outcome.plain]

/-- `FoldZeroExtendXToLong` keeps the values. -/
theorem foldZeroExtendXToLong_sound (hop : (b.pool inst).op = .zeroExtendByteToLong ∨
    (b.pool inst).op = .zeroExtendHalfToLong ∨ (b.pool inst).op = .zeroExtendWordToLong) :
    Sound σ b (foldZeroExtendXToLong b inst) pre inst := by
  rcases hop with hop | hop | hop
  all_goals
    refine foldUnary_sound hnd hb hL hop (by decide) rfl rfl
      (fun v w h => by simp only [Value.getImmediateAsU64, h]) rfl fun vals x hx => ?_
    dsimp only [opValue, evalOp, argU8, argU16, argU32] at hx
    simp only [bind_map_plain, Option.bind_eq_bind, Option.map_bind, Option.bind_eq_some_iff, Option.map_some,
      Option.some.injEq, Val.asU8_eq_some, Val.asU16_eq_some, Val.asU32_eq_some, Function.comp_apply] at hx
    obtain ⟨a, ⟨_, ha, rfl⟩, rfl⟩ := hx
    exact ⟨_, ha, rfl⟩

end Unary

/-! ### Folds to an immediate -/

section Immediate

variable {b : Block} {pre post : List InstRef} {inst : InstRef} {σ : InstRef → Outcome}
  (hnd : b.instructions.Nodup) (hb : b.ArgsEarlier) (hL : b.instructions = pre ++ inst :: post)
include hnd hb hL

/-- Turning `inst` into an identity of the immediate `Value(is_32_bit, value)`, when its value is the value `inst` had. -/
theorem Sound.replaceUsesWithImm {is32Bit : Bool} {c : BitVec 64}
    (hval : ∀ x, b.valueOf σ inst = some x → immVal is32Bit c = x) :
    Sound σ b (replaceUsesWithImm b inst is32Bit c) pre inst :=
  Sound.replaceUsesWith hnd hb hL (immValue_refersInto pre is32Bit c) fun x hx => by
    rw [argValue_immValue, hval x hx]

/-- `FoldNOT` keeps the values. -/
theorem foldNOT_sound {is32Bit : Bool} (hop : (b.pool inst).op = if is32Bit then .not32 else .not64) :
    Sound σ b (foldNOT b inst is32Bit) pre inst := by
  rw [foldNOT]
  split
  · exact Sound.refl hb hL
  · rename_i himm
    simp only [Bool.not_eq_true', Bool.not_eq_false] at himm
    refine Sound.replaceUsesWithImm hnd hb hL fun x hx => ?_
    cases is32Bit
    all_goals
      simp only [Bool.false_eq_true, if_true, if_false] at hop
      rw [valueOf_inst hnd hb hL (by rw [hop]; rfl) (by rw [hop]; rfl), hop] at hx
      dsimp only [opValue, evalOp, argU32, argU64] at hx
      simp only [bind_map_plain, Option.bind_eq_bind, Option.map_bind, Option.bind_eq_some_iff, Option.map_some,
        Option.some.injEq, Val.asU32_eq_some, Val.asU64_eq_some, Function.comp_apply] at hx
      obtain ⟨a, ⟨_, ha, rfl⟩, rfl⟩ := hx
      have hres := resolve_arg hnd hb hL himm ha
      simp only [Value.getImmediateAsU64, hres, Val.toValue, immVal]
    · rfl
    · simp [Outcome.plain]

/-- `FoldByteReverse` keeps the values. -/
theorem foldByteReverse_sound {op : Opcode} (hop : (b.pool inst).op = op)
    (hrev : op = .byteReverseWord ∨ op = .byteReverseHalf ∨ op = .byteReverseDual) :
    Sound σ b (foldByteReverse b inst op) pre inst := by
  rw [foldByteReverse]
  split
  · exact Sound.refl hb hL
  · rename_i himm
    simp only [Bool.not_eq_true', Bool.not_eq_false] at himm
    have hx0 : ∀ x, b.valueOf σ inst = some x → opValue op (fun k => b.argValue σ ((b.pool inst).args k)) = some x :=
      fun x hx => by
        rwa [valueOf_inst hnd hb hL (by rcases hrev with rfl | rfl | rfl <;> rw [hop] <;> rfl)
          (by rcases hrev with rfl | rfl | rfl <;> rw [hop] <;> rfl), hop] at hx
    rcases hrev with rfl | rfl | rfl
    all_goals
      simp only [reduceCtorEq, if_true, if_false]
      refine Sound.replaceUsesWith hnd hb hL rfl fun x hx => ?_
      have hx := hx0 x hx
      dsimp only [opValue, evalOp, argU16, argU32, argU64] at hx
      simp only [bind_map_plain, Option.bind_eq_bind, Option.map_bind, Option.bind_eq_some_iff, Option.map_some,
        Option.some.injEq, Val.asU16_eq_some, Val.asU32_eq_some, Val.asU64_eq_some, Function.comp_apply] at hx
      obtain ⟨a, ⟨_, ha, rfl⟩, rfl⟩ := hx
      have hres := resolve_arg hnd hb hL himm ha
      simp only [Value.getImmediateAsU64, hres, Val.toValue]
    · rw [BitVec.setWidth_setWidth_of_le _ (by decide), BitVec.setWidth_eq, swapBytes32_eq]
      rfl
    · rw [BitVec.setWidth_setWidth_of_le _ (by decide), BitVec.setWidth_eq, swapBytes16_eq]
      rfl
    · rw [swapBytes64_eq]
      rfl

/-- `FoldMostSignificantWord` keeps the values when no instruction of the block reads a side result. -/
theorem foldMostSignificantWord_sound (hop : (b.pool inst).op = .mostSignificantWord)
    (hreaders : ∀ r ∈ b.instructions, (b.pool r).op.readsSideResults = false) :
    Sound σ b (foldMostSignificantWord b inst) pre inst := by
  rw [foldMostSignificantWord]
  split
  · exact Sound.refl hb hL
  · rename_i hall
    simp only [Bool.not_eq_true', Bool.not_eq_false] at hall
    have himm := isImmediate_of_areAllArgsImmediates hall (k := 0) (by rw [hop]; decide)
    have hval : ∀ x, b.valueOf σ inst = some x →
        ∃ a, (arg b inst 0).resolve b = .u64 a ∧ x = .u32 ((a >>> 32).setWidth 32) := by
      intro x hx
      rw [valueOf_inst hnd hb hL (by rw [hop]; rfl) (by rw [hop]; rfl), hop] at hx
      dsimp only [opValue, evalOp, argU64] at hx
      simp only [bind_map_plain, Option.bind_eq_bind, Option.map_bind, Option.bind_eq_some_iff, Option.map_some,
        Option.some.injEq, Val.asU64_eq_some, Function.comp_apply] at hx
      obtain ⟨a, ⟨_, ha, rfl⟩, rfl⟩ := hx
      exact ⟨a, resolve_arg hnd hb hL himm ha, rfl⟩
    -- after the carry, if any: `inst` becomes the immediate high word, read in the block the carry left
    have hfinal : ∀ b₁, Changes b b₁ pre inst → b₁.valueOf σ inst = b.valueOf σ inst →
        (arg b inst 0).resolve b₁ = (arg b inst 0).resolve b →
        Sound σ b (b₁.replaceUsesWith inst (.u32 (((arg b inst 0).getImmediateAsU64 b₁ >>> 32).setWidth 32))) pre
          inst := by
      intro b₁ h₁ hval₁ hres₁
      obtain ⟨hnd₁, hb₁, hL₁⟩ := h₁.wf hnd hb hL
      have hsound := Sound.replaceUsesWith hnd₁ hb₁ hL₁ (σ := σ)
        (v := .u32 (((arg b inst 0).getImmediateAsU64 b₁ >>> 32).setWidth 32)) rfl fun x hx => by
          rw [hval₁] at hx
          obtain ⟨a, ha, rfl⟩ := hval x hx
          simp only [Value.getImmediateAsU64, hres₁, ha]
          rfl
      exact ⟨h₁.trans hsound.changes, fun x hx => hsound.value x (hval₁ ▸ hx)⟩
    dsimp only
    split
    · -- the carry pseudo-operation lies outside the list: folding it leaves `inst` and what it reads
      rename_i c hc
      have hch := (Changes.refl hb hL).replaceUsesWith_of_not_mem hL (not_mem_of_carryInst hreaders hc)
        (.u1 (((arg b inst 0).getImmediateAsU64 b).getLsbD 31))
      have hic : inst ≠ c := fun h => not_mem_of_carryInst hreaders hc (h ▸ by simp [hL])
      refine hfinal _ hch (hch.valueOf_eq hnd hb hL ?_ ?_ (by rw [hop]; rfl))
        (hch.resolve hnd hb hL (arg_refersInto hb hL 0))
      · rw [Block.op_replaceUsesWith, if_neg hic]
      · rw [Block.args_replaceUsesWith, if_neg hic]
    · exact hfinal b (Changes.refl hb hL) rfl rfl

end Immediate

end ConstantPropagation

end Dynarmic.Optimization
