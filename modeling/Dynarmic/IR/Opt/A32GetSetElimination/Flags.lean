import Dynarmic.IR.Context.Run
import Dynarmic.IR.Opt.A32GetSetElimination

/-!
# `FlagsPass` keeps the meaning of a block

`FlagsPass` walks the list backwards. Its state says, for each group of flags, whether a later instruction overwrites
it before anything reads it, and which getter is waiting for the value of C or GE. The proof follows the walk.
`FlagsWalked P later st` says that, after the walk has visited the part `later` of the list behind the front `P`, the
block runs `later` to the end the original block reaches, from any context that agrees with the original run after `P`
on the flags the walk still needs (`FlagsState.Agree`). Each pending getter may be left as it is or be made an identity
of a value that has the flag's value (`Completes`). One visit keeps this (`FlagsWalked.visit`), and the walk over the
whole list gives the theorem (`flagsPass_execA32`).

The rewrite of a `SetCpsrNZC` whose carry is a `GetCFlag` keeps the meaning only when no instruction between the two
writes C (`CarryKept`).
-/

namespace Dynarmic.IR

/-- The opcodes that may write the C flag of the A32 context: the setters of the CPSR that cover it, and an opcode of
the table that writes the CPSR. -/
def Opcode.writesCFlag : Opcode → Bool
  | .a32SetCpsr | .a32SetCpsrNZCV | .a32SetCpsrNZCVRaw | .a32SetCpsrNZCVQ | .a32SetCpsrNZC => true
  | .other _ info => info.writesToCPSR
  | _ => false

/-- The opcodes `FlagsPass` leaves where it edits or inserts an instruction: none of them reads or writes a register
or is left open. -/
def Opcode.isFlagsEdit : Opcode → Bool
  | .void | .identity | .getCFlagFromNZCV | .a32SetCpsrNZ | .a32SetCpsrNZC => true
  | _ => false

/-! ### Inserting an instruction -/

/-- A fold of `max` is at least its start and every element. -/
theorem le_foldl_max : ∀ (l : List Nat) (m : Nat), m ≤ l.foldl max m ∧ ∀ x ∈ l, x ≤ l.foldl max m
  | [], m => ⟨Nat.le_refl m, fun _ h => absurd h List.not_mem_nil⟩
  | y :: l, m => by
    obtain ⟨hm, hl⟩ := le_foldl_max l (max m y)
    refine ⟨Nat.le_trans (Nat.le_max_left m y) hm, fun x hx => ?_⟩
    rcases List.mem_cons.mp hx with rfl | hx
    · exact Nat.le_trans (Nat.le_max_right m x) hm
    · exact hl x hx

/-- The fresh reference is no instruction of the list. -/
theorem freshRef_not_mem (b : Block) : b.freshRef ∉ b.instructions := by
  intro h
  have hle := (le_foldl_max b.instructions 0).2 _ h
  unfold Block.freshRef at hle
  omega

/-- `insertAfterIn` puts the new reference right after the first occurrence of `after`. -/
theorem insertAfterIn_append {after new : InstRef} {pre : List InstRef} (h : after ∉ pre) (post : List InstRef) :
    insertAfterIn after new (pre ++ after :: post) = pre ++ after :: new :: post := by
  induction pre with
  | nil => simp [insertAfterIn]
  | cons x pre ih =>
    have hx : x ≠ after := fun hx => h (hx ▸ List.mem_cons_self)
    rw [List.cons_append, insertAfterIn, if_neg hx, ih fun h' => h (List.mem_cons_of_mem x h'), List.cons_append]

/-- The instruction `InsertAfter` returns is the fresh one. -/
theorem insertAfter_snd (b : Block) (after : InstRef) (op : Opcode) (args : List Value) :
    (b.insertAfter after op args).2 = b.freshRef := rfl

/-- `InsertAfter` inserts the fresh reference into the list after `after`. -/
theorem instructions_insertAfter (b : Block) (after : InstRef) (op : Opcode) (args : List Value) :
    (b.insertAfter after op args).1.instructions = insertAfterIn after b.freshRef b.instructions := by
  simp only [Block.insertAfter, List.finRange, List.ofFn, Fin.foldr, Fin.foldr.loop, List.foldl, Block.instructions_setArg]

/-- The inserted instruction has the opcode and the arguments given, and no other instruction changes its code. -/
theorem code_insertAfter (b : Block) (after : InstRef) (op : Opcode) (args : List Value) (r : InstRef) :
    (b.insertAfter after op args).1.code r =
      if r = b.freshRef then (op, fun k => args.getD k.val .void) else b.code r := by
  have h4 : List.finRange 4 = [0, 1, 2, 3] := by decide
  simp only [Block.insertAfter, h4, List.foldl, Block.code, Block.op_setArg, Block.args_setArg]
  split
  · subst r
    simp only [if_true, Function.update_self, Inst.new, Prod.mk.injEq, true_and]
    funext k
    fin_cases k <;> simp [Function.update]
  · rename_i hr
    simp only [Function.update_of_ne hr]

/-! ### What an edit does to the code and to the order of the arguments -/

namespace Block

/-- `Invalidate` leaves its instruction void with empty arguments, and the code of every other. -/
theorem code_invalidate (b : Block) (self r : InstRef) :
    (b.invalidate self).code r = if r = self then (.void, fun _ => .void) else b.code r := by
  simp only [code, op_invalidate, args_invalidate]
  split <;> rfl

/-- `ReplaceUsesWith` makes its instruction an identity of the value, and keeps the code of every other. -/
theorem code_replaceUsesWith (b : Block) (self : InstRef) (v : Value) (r : InstRef) :
    (b.replaceUsesWith self v).code r =
      if r = self then (.identity, Function.update (fun _ => .void) 0 v) else b.code r := by
  simp only [code, op_replaceUsesWith, args_replaceUsesWith]
  split <;> rfl

/-- `SetArg` changes one argument of its instruction, and the code of no other. -/
theorem code_setArg (b : Block) (self : InstRef) (k : Fin 4) (v : Value) (r : InstRef) :
    (b.setArg self k v).code r =
      if r = self then ((b.pool self).op, Function.update (b.pool self).args k v) else b.code r := by
  simp only [code, op_setArg, args_setArg]
  split
  · subst r
    rfl
  · rfl

/-- A pending getter, if there is one, takes a value: the edit of `do_get`, `do_set` and the `SetCpsrNZC` case. -/
theorem code_ite_replaceUsesWith (c : Bool) (b : Block) (g : InstRef) (v : Value) (r : InstRef) :
    (if c = true then b.replaceUsesWith g v else b).code r =
      if c = true ∧ r = g then (.identity, Function.update (fun _ => .void) 0 v) else b.code r := by
  cases c
  · simp only [Bool.false_eq_true, if_false, false_and]
  · simp only [if_true, true_and, code_replaceUsesWith]

/-- A replacement that may or may not happen keeps the list. -/
theorem instructions_ite_replaceUsesWith (c : Bool) (b : Block) (g : InstRef) (v : Value) :
    (if c = true then b.replaceUsesWith g v else b).instructions = b.instructions := by
  split
  · exact instructions_replaceUsesWith b g v
  · rfl

/-- Changing the arguments of one instruction to values that refer to instructions before it keeps the arguments of a
list without repeats earlier. -/
theorem ArgsEarlier.of_args {b b' : Block} (hb : b.ArgsEarlier) (hnd : b.instructions.Nodup)
    (hl : b'.instructions = b.instructions) {self : InstRef} (hargs : ∀ r, r ≠ self → (b'.pool r).args = (b.pool r).args)
    {pre post : List InstRef} (hL : b.instructions = pre ++ self :: post)
    (hself : ∀ k t, (b'.pool self).args k = .inst t → t ∈ pre) : b'.ArgsEarlier := by
  refine argsEarlier_of_split fun pre' r post' hL' k t ht => ?_
  rw [hl] at hL'
  by_cases hr : r = self
  · subst hr
    rw [prefix_eq_of_nodup (hL ▸ hnd) (hL.symm.trans hL')] at hself
    exact hself k t ht
  · rw [hargs r hr] at ht
    exact hb.mem_of_arg hL' ht

/-- Invalidating an instruction keeps the arguments referring to earlier instructions: it empties its own. -/
theorem ArgsEarlier.invalidate {b : Block} (hb : b.ArgsEarlier) (hnd : b.instructions.Nodup) {self : InstRef}
    (hself : self ∈ b.instructions) : (b.invalidate self).ArgsEarlier := by
  obtain ⟨pre, post, hL⟩ := List.append_of_mem hself
  refine hb.of_args hnd (instructions_invalidate b self) (fun r hr => ?_) hL fun k t ht => ?_
  · rw [args_invalidate, if_neg hr]
  · simp [args_invalidate] at ht

/-- Making an instruction an identity of a value from before it keeps the arguments referring to earlier instructions.
-/
theorem ArgsEarlier.replaceUsesWith {b : Block} (hb : b.ArgsEarlier) (hnd : b.instructions.Nodup) {self : InstRef}
    {pre post : List InstRef} (hL : b.instructions = pre ++ self :: post) {v : Value}
    (hv : ∀ t, v = .inst t → t ∈ pre) : (b.replaceUsesWith self v).ArgsEarlier := by
  refine hb.of_args hnd (instructions_replaceUsesWith b self v) (fun r hr => ?_) hL fun k t ht => ?_
  · rw [args_replaceUsesWith, if_neg hr]
  · rw [args_replaceUsesWith, if_pos rfl] at ht
    by_cases hk : k = 0
    · subst hk
      exact hv t ht
    · simp [Function.update_of_ne hk] at ht

/-- A replacement that happens only with a value from before it keeps the arguments referring to earlier instructions.
-/
theorem ArgsEarlier.ite_replaceUsesWith {b : Block} (hb : b.ArgsEarlier) (hnd : b.instructions.Nodup) (c : Bool)
    {self : InstRef} {v : Value} (h : c = true → ∃ pre post, b.instructions = pre ++ self :: post ∧
      ∀ t, v = .inst t → t ∈ pre) : (if c = true then b.replaceUsesWith self v else b).ArgsEarlier := by
  split
  · rename_i hc
    obtain ⟨pre, post, hL, hv⟩ := h hc
    exact hb.replaceUsesWith hnd hL hv
  · exact hb

/-- Setting an argument to an immediate keeps the arguments referring to earlier instructions. -/
theorem ArgsEarlier.setArg {b : Block} (hb : b.ArgsEarlier) (hnd : b.instructions.Nodup) {self : InstRef}
    (hself : self ∈ b.instructions) (k : Fin 4) {v : Value} (hv : ∀ t, v ≠ .inst t) : (b.setArg self k v).ArgsEarlier := by
  obtain ⟨pre, post, hL⟩ := List.append_of_mem hself
  refine hb.of_args hnd (instructions_setArg b self k v) (fun r hr => ?_) hL fun j t ht => ?_
  · rw [args_setArg, if_neg hr]
  · rw [args_setArg, if_pos rfl] at ht
    by_cases hj : j = k
    · subst hj
      exact absurd (by simpa using ht) (hv t)
    · rw [Function.update_of_ne hj] at ht
      exact hb.mem_of_arg hL ht

/-- Inserting an instruction whose arguments refer to instructions up to the place of insertion keeps the arguments of
a list without repeats earlier: every other instruction has the same instructions before it, or more. -/
theorem ArgsEarlier.insert {b b' : Block} (hb : b.ArgsEarlier) {pre post : List InstRef} {p n : InstRef}
    (hL : b.instructions = pre ++ p :: post) (hL' : b'.instructions = pre ++ p :: n :: post) (hnd' : b'.instructions.Nodup)
    (hargs : ∀ r, r ≠ n → (b'.pool r).args = (b.pool r).args)
    (hn : ∀ k t, (b'.pool n).args k = .inst t → t ∈ pre ++ [p]) : b'.ArgsEarlier := by
  have hnd'' := hnd'
  rw [hL'] at hnd''
  refine argsEarlier_of_split fun pre' r post' hsplit k t ht => ?_
  rw [hL'] at hsplit
  have hnd₁ : (pre' ++ r :: post').Nodup := hsplit ▸ hnd''
  by_cases hrn : r = n
  · subst hrn
    have : pre ++ p :: r :: post = (pre ++ [p]) ++ r :: post := by simp
    rw [prefix_eq_of_nodup hnd₁ (hsplit.symm.trans this)]
    exact hn k t ht
  rw [hargs r hrn] at ht
  have hr : r ∈ pre ++ p :: n :: post := hsplit ▸ List.mem_append_right _ List.mem_cons_self
  by_cases hfront : r ∈ pre ++ [p]
  · -- `r` is at the same place in both lists
    obtain ⟨A, C, hAC⟩ := List.append_of_mem hfront
    have h₁ : pre ++ p :: n :: post = A ++ r :: (C ++ n :: post) := by
      rw [show pre ++ p :: n :: post = (pre ++ [p]) ++ n :: post by simp, hAC]
      simp
    have h₂ : b.instructions = A ++ r :: (C ++ post) := by
      rw [hL, show pre ++ p :: post = (pre ++ [p]) ++ post by simp, hAC]
      simp
    rw [prefix_eq_of_nodup hnd₁ (hsplit.symm.trans h₁)]
    exact hb.mem_of_arg h₂ ht
  · -- `r` is after the insertion, with one more instruction before it
    have hpost : r ∈ post := by
      simp only [List.mem_append, List.mem_cons] at hr hfront
      tauto
    obtain ⟨A, C, hAC⟩ := List.append_of_mem hpost
    have h₁ : pre ++ p :: n :: post = (pre ++ p :: n :: A) ++ r :: C := by simp [hAC]
    have h₂ : b.instructions = (pre ++ p :: A) ++ r :: C := by simp [hL, hAC]
    rw [prefix_eq_of_nodup hnd₁ (hsplit.symm.trans h₁)]
    have := hb.mem_of_arg h₂ ht
    simp only [List.mem_append, List.mem_cons] at this ⊢
    tauto

end Block

/-! ### What each instruction of the flags does to the context -/

section Exec

variable (ext : InstRef → A32Context → A32Context × Outcome) {i : Inst} {a : Fin 4 → Option Outcome} {r : InstRef}

/-- A void instruction leaves the context and has the empty value. -/
theorem execA32Inst_void (hop : i.op = .void) (c : A32Context) : execA32Inst ext c a r i = (c, some (.plain .void)) := by
  rw [execA32Inst, hop]
  rfl

/-- `GetCFlag` reads C. -/
theorem execA32Inst_getCFlag (hop : i.op = .a32GetCFlag) (c : A32Context) :
    execA32Inst ext c a r i = (c, some (.plain (.u1 c.c))) := by
  rw [execA32Inst, hop]

/-- `GetGEFlags` reads GE. -/
theorem execA32Inst_getGEFlags (hop : i.op = .a32GetGEFlags) (c : A32Context) :
    execA32Inst ext c a r i = (c, some (.plain (.u32 c.ge))) := by
  rw [execA32Inst, hop]

/-- `GetCFlagFromNZCV` reads C from bit 1 of its NZCV argument. -/
theorem execA32Inst_getCFlagFromNZCV (hop : i.op = .getCFlagFromNZCV) {f : BitVec 4}
    (h : (a 0).map Outcome.value = some (.nzcv f)) (c : A32Context) :
    execA32Inst ext c a r i = (c, some (.plain (.u1 (f.getLsbD 1)))) := by
  obtain ⟨o, ho, hv⟩ : ∃ o, a 0 = some o ∧ o.value = .nzcv f := by
    cases ha : a 0 <;> simp_all
  simp [execA32Inst, hop, Opcode.isInput, evalOp, ho, hv]

/-- An argument read as a bit has that bit as its value. -/
theorem map_value_of_argU1 {k : Fin 4} {x : Bool} (h : argU1 a k = some x) : (a k).map Outcome.value = some (.u1 x) := by
  simp only [argU1] at h
  cases ha : a k <;> simp only [ha, Option.bind_none, Option.bind_some, reduceCtorEq] at h
  rename_i o
  cases hv : o.value <;> simp_all [Val.asU1]

/-- A `SetCpsrNZCV` that ran writes the four flags of its NZCV value, from every context. -/
theorem execA32Inst_setCpsrNZCV (hop : i.op = .a32SetCpsrNZCV) {c : A32Context} (h : (execA32Inst ext c a r i).2 ≠ none) :
    ∃ f : BitVec 4, (a 0).map Outcome.value = some (.nzcv f) ∧ ∀ c' : A32Context, execA32Inst ext c' a r i =
      ({ c' with n := f.getLsbD 3, z := f.getLsbD 2, c := f.getLsbD 1, v := f.getLsbD 0 }, some (.plain .void)) := by
  simp only [execA32Inst, hop] at h
  split at h
  · rename_i f hf
    exact ⟨f, hf, fun c' => by simp only [execA32Inst, hop, hf]⟩
  · exact absurd rfl h

/-- An instruction whose opcode neither reads nor writes the CPSR computes the same outcome and the same registers from
contexts with the same registers, and leaves the flags. -/
theorem execA32Inst_of_registers_eq (hread : i.op.readsFromCPSR = false) (hwrite : i.op.writesToCPSR = false)
    {c c' : A32Context} (hext : i.op.isInput = true → (ext r c').2 = (ext r c).2 ∧
      (ext r c').1.registers = (ext r c).1.registers ∧ (ext r c).1.flags = c.flags ∧ (ext r c').1.flags = c'.flags)
    (h : c'.registers = c.registers) :
    (execA32Inst ext c' a r i).2 = (execA32Inst ext c a r i).2 ∧
      (execA32Inst ext c' a r i).1.registers = (execA32Inst ext c a r i).1.registers ∧
      (execA32Inst ext c a r i).1.flags = c.flags ∧ (execA32Inst ext c' a r i).1.flags = c'.flags := by
  have hreg : c'.reg = c.reg := congrArg Prod.fst h
  have hw : ∀ k, c'.word k = c.word k := A32Context.word_congr h
  have hd : ∀ n, c'.double n = c.double n := A32Context.double_congr h
  have hq : ∀ n, c'.quad n = c.quad n := A32Context.quad_congr h
  unfold execA32Inst
  split
  all_goals rename_i heq
  all_goals simp only [heq, Opcode.readsFromCPSR, Opcode.writesToCPSR, Bool.true_eq_false] at hread hwrite
  all_goals dsimp only
  all_goals (repeat' split)
  all_goals simp_all [A32Context.registers_setWord_congr h, A32Context.registers_setDouble_congr h,
    A32Context.registers_setQuad_congr h]
  all_goals simp_all [A32Context.flags, A32Context.registers]

/-- A `SetCpsrNZCVRaw` that runs writes one word of flags, whatever the context. -/
theorem execA32Inst_setCpsrNZCVRaw (hop : i.op = .a32SetCpsrNZCVRaw) {c : A32Context}
    (h : (execA32Inst ext c a r i).2 ≠ none) :
    ∃ x : BitVec 32, ∀ c' : A32Context, execA32Inst ext c' a r i = (c'.setNZCVWord x, some (.plain .void)) := by
  simp only [execA32Inst, hop] at h
  split at h
  · rename_i x hx
    exact ⟨x, fun c' => by simp only [execA32Inst, hop, hx]⟩
  · exact absurd rfl h

/-- A `SetCpsrNZCVQ` that runs writes one word of flags and Q from its bit 27, whatever the context. -/
theorem execA32Inst_setCpsrNZCVQ (hop : i.op = .a32SetCpsrNZCVQ) {c : A32Context}
    (h : (execA32Inst ext c a r i).2 ≠ none) :
    ∃ x : BitVec 32, ∀ c' : A32Context,
      execA32Inst ext c' a r i = ({ c'.setNZCVWord x with q := x.getLsbD 27 }, some (.plain .void)) := by
  simp only [execA32Inst, hop] at h
  split at h
  · rename_i x hx
    exact ⟨x, fun c' => by simp only [execA32Inst, hop, hx]⟩
  · exact absurd rfl h

/-- A `SetCpsrNZ` that runs takes an NZCV value and writes N and Z from it, whatever the context. -/
theorem execA32Inst_setCpsrNZ (hop : i.op = .a32SetCpsrNZ) {c : A32Context} (h : (execA32Inst ext c a r i).2 ≠ none) :
    ∃ f : BitVec 4, (a 0).map Outcome.value = some (.nzcv f) ∧ ∀ c' : A32Context,
      execA32Inst ext c' a r i = ({ c' with n := f.getLsbD 3, z := f.getLsbD 2 }, some (.plain .void)) := by
  simp only [execA32Inst, hop] at h
  split at h
  · rename_i f hf
    exact ⟨f, hf, fun c' => by simp only [execA32Inst, hop, hf]⟩
  · exact absurd rfl h

/-- `SetCpsrNZ` of an NZCV value writes N and Z from it. -/
theorem execA32Inst_setCpsrNZ_of (hop : i.op = .a32SetCpsrNZ) {f : BitVec 4}
    (h : (a 0).map Outcome.value = some (.nzcv f)) (c : A32Context) :
    execA32Inst ext c a r i = ({ c with n := f.getLsbD 3, z := f.getLsbD 2 }, some (.plain .void)) := by
  simp only [execA32Inst, hop, h]

/-- A `SetCpsrNZC` with an NZCV value that ran writes N and Z of the value and C of its carry, from every context. -/
theorem execA32Inst_setCpsrNZC (hop : i.op = .a32SetCpsrNZC) (h0 : i.args 0 ≠ .nzcvMarker) {c : A32Context}
    (h : (execA32Inst ext c a r i).2 ≠ none) :
    ∃ (f : BitVec 4) (carry : Bool), (a 0).map Outcome.value = some (.nzcv f) ∧ argU1 a 1 = some carry ∧
      ∀ c' : A32Context, execA32Inst ext c' a r i =
        ({ c' with n := f.getLsbD 3, z := f.getLsbD 2, c := carry }, some (.plain .void)) := by
  simp only [execA32Inst, hop] at h
  split at h
  · exact absurd ‹_› h0
  · rename_i f carry hf hcarry _
    refine ⟨f, carry, hf, hcarry, fun c' => ?_⟩
    simp only [execA32Inst, hop, hf, hcarry]
  · exact absurd rfl h

/-- A `SetCpsrNZC` with the empty NZCV immediate clears N and Z. -/
theorem execA32Inst_setCpsrNZC_marker (hop : i.op = .a32SetCpsrNZC) (h0 : i.args 0 = .nzcvMarker) {carry : Bool}
    (hcarry : argU1 a 1 = some carry) (c : A32Context) :
    execA32Inst ext c a r i = ({ c with n := false, z := false, c := carry }, some (.plain .void)) := by
  simp only [execA32Inst, hop, h0, hcarry]

/-- An `OrQFlag` that runs sets Q when its argument is set, whatever the context. -/
theorem execA32Inst_orQFlag (hop : i.op = .a32OrQFlag) {c : A32Context} (h : (execA32Inst ext c a r i).2 ≠ none) :
    ∃ x : Bool, ∀ c' : A32Context, execA32Inst ext c' a r i = ({ c' with q := c'.q || x }, some (.plain .void)) := by
  simp only [execA32Inst, hop] at h
  split at h
  · rename_i x hx
    exact ⟨x, fun c' => by simp only [execA32Inst, hop, hx]⟩
  · exact absurd rfl h

/-- A `SetGEFlags` that runs takes a word and writes it to GE, whatever the context. -/
theorem execA32Inst_setGEFlags (hop : i.op = .a32SetGEFlags) {c : A32Context} (h : (execA32Inst ext c a r i).2 ≠ none) :
    ∃ x : BitVec 32, (a 0).map Outcome.value = some (.u32 x) ∧
      ∀ c' : A32Context, execA32Inst ext c' a r i = ({ c' with ge := x }, some (.plain .void)) := by
  simp only [execA32Inst, hop] at h
  split at h
  · rename_i x hx
    refine ⟨x, ?_, fun c' => by simp only [execA32Inst, hop, hx]⟩
    simp only [argU32] at hx
    cases ha : a 0 <;> simp only [ha, Option.bind_none, Option.bind_some, reduceCtorEq] at hx
    rename_i o
    cases hv : o.value <;> simp only [hv, Val.asU32, reduceCtorEq, Option.some.injEq] at hx
    simp [hv, hx]
  · exact absurd rfl h

/-- A `SetGEFlagsCompressed` that runs writes the GE flags expanded from one word, whatever the context. -/
theorem execA32Inst_setGEFlagsCompressed (hop : i.op = .a32SetGEFlagsCompressed) {c : A32Context}
    (h : (execA32Inst ext c a r i).2 ≠ none) :
    ∃ x : BitVec 32, ∀ c' : A32Context,
      execA32Inst ext c' a r i = ({ c' with ge := A32Context.geOfCompressed x }, some (.plain .void)) := by
  simp only [execA32Inst, hop] at h
  split at h
  · rename_i x hx
    exact ⟨x, fun c' => by simp only [execA32Inst, hop, hx]⟩
  · exact absurd rfl h

/-- An open opcode that may not write C writes the CPSR only when the opcode table says so. -/
theorem Opcode.writesToCPSR_of_isInput {op : Opcode} (hin : op.isInput = true) (hc : op.writesCFlag = false) :
    op.writesToCPSR = false := by
  cases op <;> simp_all [Opcode.isInput, Opcode.writesCFlag, Opcode.writesToCPSR]

/-- An instruction whose opcode may not write C leaves C. -/
theorem execA32Inst_c (hc : i.op.writesCFlag = false) {c : A32Context}
    (hext : i.op.isInput = true → i.op.writesToCPSR = false → (ext r c).1.flags = c.flags) :
    (execA32Inst ext c a r i).1.c = c.c := by
  have hin : i.op.isInput = true → (ext r c).1.c = c.c := fun hin =>
    congrArg (fun f => f.2.2.1) (hext hin (Opcode.writesToCPSR_of_isInput hin hc))
  unfold execA32Inst
  split
  all_goals rename_i heq
  all_goals simp only [heq, Opcode.writesCFlag, Bool.true_eq_false] at hc
  all_goals dsimp only
  all_goals (repeat' split)
  all_goals simp_all

/-- A stretch of the list with no instruction that may write C leaves C. -/
theorem Block.foldl_stepA32_c (b : Block) {l : List InstRef} (hl : ∀ r ∈ l, (b.pool r).op.writesCFlag = false)
    (hext : ∀ r ∈ l, (b.pool r).op.isInput = true → (b.pool r).op.writesToCPSR = false → ∀ c,
      (ext r c).1.flags = c.flags)
    (s : A32Context × (InstRef → Option Outcome)) : (l.foldl (b.stepA32 ext) s).1.c = s.1.c := by
  induction l generalizing s with
  | nil => rfl
  | cons r l ih =>
    rw [List.foldl_cons, ih (fun t ht => hl t (List.mem_cons_of_mem r ht)) (fun t ht => hext t (List.mem_cons_of_mem r ht))]
    exact execA32Inst_c ext (hl r List.mem_cons_self) (fun hin h => hext r List.mem_cons_self hin h _)

end Exec

end Dynarmic.IR

namespace Dynarmic.Optimization.A32GetSetElimination

open Dynarmic.IR

/-- No instruction between a `GetCFlag` and a `SetCpsrNZC` whose carry is, through identities, the result of that
`GetCFlag` may write C: the carry the `SetCpsrNZC` writes back is the one already in the CPSR. The A32 frontend reads the
carry afresh in each instruction that needs it, so its blocks have this form. -/
def CarryKept (b : Block) : Prop :=
  ∀ i (hi : i < b.instructions.length), (b.pool b.instructions[i]).op = .a32SetCpsrNZC →
    ∀ j (hj : j < i), ((b.pool b.instructions[i]).args 1).getInstRecursive b = some b.instructions[j] →
      (b.pool b.instructions[j]).op = .a32GetCFlag →
        ∀ k (hk : k < i), j < k → (b.pool b.instructions[k]).op.writesCFlag = false

instance (b : Block) : Decidable (CarryKept b) := by
  unfold CarryKept
  infer_instance

/-- `CarryKept` on a split of the list: the instructions strictly between the `GetCFlag` and the `SetCpsrNZC` may not
write C. -/
theorem CarryKept.mid {b : Block} (h : CarryKept b) {pre mid post : List InstRef} {g p : InstRef}
    (hL : b.instructions = pre ++ g :: mid ++ p :: post) (hp : (b.pool p).op = .a32SetCpsrNZC)
    (hg : ((b.pool p).args 1).getInstRecursive b = some g) (hgop : (b.pool g).op = .a32GetCFlag) :
    ∀ r ∈ mid, (b.pool r).op.writesCFlag = false := by
  intro r hr
  obtain ⟨m, hm, rfl⟩ := List.getElem_of_mem hr
  have hL' : b.instructions = pre ++ g :: (mid ++ p :: post) := by simp [hL]
  have hlen : b.instructions.length = pre.length + (mid.length + 1 + 1) + post.length := by
    simp only [hL', List.length_append, List.length_cons]
    omega
  have hj : b.instructions[pre.length] = g := by simp [hL']
  have hi : b.instructions[pre.length + (mid.length + 1)] = p := by
    simp [hL', List.getElem_append_right]
  have hk : b.instructions[pre.length + (m + 1)] = mid[m] := by
    simp [hL', List.getElem_append_right, List.getElem_append_left hm]
  have := h (pre.length + (mid.length + 1)) (by omega) (by rw [hi]; exact hp) pre.length (by omega)
    (by rw [hi, hj]; exact hg) (by rw [hj]; exact hgop) (pre.length + (m + 1)) (by omega) (by omega)
  rwa [hk] at this

/-- The `SetCpsrNZC` case first resolves the pending `GetCFlag` with the carry, and goes on as from a state with no
getter of C pending. -/
theorem setCpsrNZC_resolve (st : FlagsState) (inst : InstRef) :
    setCpsrNZC st inst = setCpsrNZC
      { st with
        block := if st.cFlag.hasValueRequest = true then
            st.block.replaceUsesWith st.cFlag.valueRequest ((st.block.pool inst).args 1)
          else st.block
        cFlag := { st.cFlag with hasValueRequest := false } } inst := by
  cases hreq : st.cFlag.hasValueRequest
  · have hst : { st with block := st.block, cFlag := { st.cFlag with hasValueRequest := false } } = st := by
      obtain ⟨blk, nzcvq, nzcv, nz, ⟨nr, req, g⟩, ge⟩ := st
      simp_all
    simp only [Bool.false_eq_true, if_false, hst]
  · simp only [setCpsrNZC, hreq, if_true, Bool.false_eq_true, if_false]

/-- The cases of a visit: one of the flag opcodes, or another opcode, which the walk leaves, forgetting what it knows
when the opcode reads or writes the CPSR. -/
theorem flagsStep_cases (st : FlagsState) (inst : InstRef) :
    (st.block.pool inst).op ∈ [.a32GetCFlag, .a32SetCpsrNZCV, .a32SetCpsrNZCVRaw, .a32SetCpsrNZCVQ, .a32SetCpsrNZ,
      .a32SetCpsrNZC, .a32SetGEFlags, .a32GetGEFlags, .a32SetGEFlagsCompressed, .a32OrQFlag] ∨
    flagsStep st inst = (if (st.block.pool inst).op.readsFromCPSR || (st.block.pool inst).op.writesToCPSR then
      st.forget else st, false) := by
  cases hop : (st.block.pool inst).op <;> simp [flagsStep, hop]

/-! ### What the walk knows -/

namespace FlagsState

/-- N and Z are still needed: the walk has not found them overwritten before a read. -/
def nzLive (st : FlagsState) : Bool :=
  !(st.nzcvq.setNotRequired || st.nzcv.setNotRequired || st.nz.setNotRequired)

/-- C is still needed. -/
def cLive (st : FlagsState) : Bool :=
  !(st.nzcvq.setNotRequired || st.nzcv.setNotRequired || st.cFlag.setNotRequired)

/-- V is still needed. -/
def vLive (st : FlagsState) : Bool :=
  !(st.nzcvq.setNotRequired || st.nzcv.setNotRequired)

/-- Q is still needed. -/
def qLive (st : FlagsState) : Bool :=
  !st.nzcvq.setNotRequired

/-- The GE flags are still needed. -/
def geLive (st : FlagsState) : Bool :=
  !st.ge.setNotRequired

/-- A context agrees with another on the registers and on the flags the walk still needs. -/
structure Agree (st : FlagsState) (d d' : A32Context) : Prop where
  registers : d'.registers = d.registers
  n : st.nzLive = true → d'.n = d.n
  z : st.nzLive = true → d'.z = d.z
  c : st.cLive = true → d'.c = d.c
  v : st.vLive = true → d'.v = d.v
  q : st.qLive = true → d'.q = d.q
  ge : st.geLive = true → d'.ge = d.ge

/-- A context agrees with itself. -/
theorem Agree.refl (st : FlagsState) (c : A32Context) : st.Agree c c :=
  ⟨rfl, fun _ => rfl, fun _ => rfl, fun _ => rfl, fun _ => rfl, fun _ => rfl, fun _ => rfl⟩

/-- Agreement where more flags are needed is agreement where fewer are. -/
theorem Agree.mono {st st' : FlagsState} {d d' : A32Context} (h : st'.Agree d d')
    (hnz : st.nzLive = true → st'.nzLive = true) (hc : st.cLive = true → st'.cLive = true)
    (hv : st.vLive = true → st'.vLive = true) (hq : st.qLive = true → st'.qLive = true)
    (hge : st.geLive = true → st'.geLive = true) : st.Agree d d' :=
  ⟨h.registers, fun l => h.n (hnz l), fun l => h.z (hnz l), fun l => h.c (hc l), fun l => h.v (hv l),
    fun l => h.q (hq l), fun l => h.ge (hge l)⟩

/-- A context that agrees with another where every flag is needed is that context. -/
theorem Agree.eq {st : FlagsState} {c c' : A32Context} (h : st.Agree c c') (hnz : st.nzLive = true)
    (hc : st.cLive = true) (hv : st.vLive = true) (hq : st.qLive = true) (hge : st.geLive = true) : c' = c := by
  refine A32Context.eq_of_flags_registers ?_ h.registers
  simp only [A32Context.flags, h.n hnz, h.z hnz, h.c hc, h.v hv, h.q hq, h.ge hge]

/-- Agreement carries over to contexts with the same registers and the flags of contexts that agree. -/
theorem Agree.frame {st : FlagsState} {c c' e e' : A32Context} (h : st.Agree c c') (hreg : e'.registers = e.registers)
    (hf : e.flags = c.flags) (hf' : e'.flags = c'.flags) : st.Agree e e' := by
  simp only [A32Context.flags, Prod.mk.injEq] at hf hf'
  obtain ⟨-, hn, hz, hc, hv, hq, hge⟩ := h
  refine ⟨hreg, ?_, ?_, ?_, ?_, ?_, ?_⟩ <;> intro hl <;> simp_all

/-- The getters waiting for the value of a flag. -/
def Pending (st : FlagsState) (r : InstRef) : Prop :=
  (st.cFlag.hasValueRequest = true ∧ r = st.cFlag.valueRequest) ∨
    (st.ge.hasValueRequest = true ∧ r = st.ge.valueRequest)

end FlagsState

/-- What a pending getter may be once the walk is over: the getter it is now, reading a flag that has the value of the
original run (`same`), or an identity of a value that has that value `x` and refers to no instruction of `later`. -/
def Resolved (later : List InstRef) (o : InstRef → Option Outcome) (now code : Opcode × (Fin 4 → Value)) (same : Prop)
    (x : Val) : Prop :=
  (code = now ∧ same) ∨
    ∃ v, code = (.identity, Function.update (fun _ => .void) 0 v) ∧ (∀ t, v = .inst t → t ∉ later) ∧
      (evalArg o v).map Outcome.value = some x

/-- A block `b'` completes the walk's block on `later`, run from the context `c'` and the outcomes `o'`, against the
original run at `c` and `o`: it has the walk's code except at the pending getters, which it leaves or resolves. -/
structure Completes (B : Block) (st : FlagsState) (later : List InstRef) (b' : Block) (c : A32Context)
    (o : InstRef → Option Outcome) (c' : A32Context) (o' : InstRef → Option Outcome) : Prop where
  code : ∀ r ∈ later, ¬st.Pending r → b'.code r = st.block.code r
  agree : st.Agree c c'
  outcomes : ∀ r ∈ B.instructions, o' r = o r
  cRequest : st.cFlag.hasValueRequest = true → Resolved later o' (st.block.code st.cFlag.valueRequest)
    (b'.code st.cFlag.valueRequest) (c'.c = c.c) (.u1 c.c)
  geRequest : st.ge.hasValueRequest = true → Resolved later o' (st.block.code st.ge.valueRequest)
    (b'.code st.ge.valueRequest) (c'.ge = c.ge) (.u32 c.ge)

/-- A visit of `p` edits the walk's block `b` into `b'`: the list gains `ins` right after `p`, and the code changes only
at `p`, at `ins` and at the getters `pend` waiting for a value, which may become identities. -/
structure VisitEdit (b b' : Block) (pend : InstRef → Prop) (P later ins : List InstRef) (p : InstRef) : Prop where
  instructions : b'.instructions = P ++ p :: (ins ++ later)
  nodup : b'.instructions.Nodup
  argsEarlier : b'.ArgsEarlier
  codeP : ∀ r ∈ P, b'.code r = b.code r
  codeL : ∀ r ∈ later, ¬pend r → b'.code r = b.code r
  pendL : ∀ r ∈ later, pend r → b'.code r = b.code r ∨ (b'.code r).1 = .identity

namespace VisitEdit

variable {b b' : Block} {pend : InstRef → Prop} {P later ins : List InstRef} {p : InstRef}

/-- With no edit yet, a block is its own visit of `p`. -/
theorem refl (hl : b.instructions = P ++ p :: later) (hnd : b.instructions.Nodup) (hargs : b.ArgsEarlier) :
    VisitEdit b b pend P later [] p :=
  ⟨hl, hnd, hargs, fun _ _ => rfl, fun _ _ _ => rfl, fun _ _ _ => .inl rfl⟩

/-- The front, the visited instruction and the insertions are not in the part behind. -/
theorem not_mem_later (h : VisitEdit b b' pend P later ins p) {r : InstRef} (hr : r ∈ P ++ p :: ins) : r ∉ later := by
  have hnd := h.nodup
  rw [h.instructions, show P ++ p :: (ins ++ later) = (P ++ p :: ins) ++ later by simp, List.nodup_append] at hnd
  exact fun hl => hnd.2.2 r hr r hl rfl

/-- The visited instruction is not in the front. -/
theorem not_mem_front (h : VisitEdit b b' pend P later ins p) : p ∉ P := by
  have hnd := h.nodup
  rw [h.instructions, List.nodup_append] at hnd
  exact fun hp => hnd.2.2 p hp p List.mem_cons_self rfl

/-- A pending getter of the list behind, if there is one, takes a value from before it. -/
theorem resolve (h : VisitEdit b b' pend P later ins p) (c : Bool) (g : InstRef) (v : Value)
    (hg : c = true → g ∈ later ∧ pend g) (hv : ∀ t, v = .inst t → t ∈ P ++ p :: ins) :
    VisitEdit b (if c = true then b'.replaceUsesWith g v else b') pend P later ins p where
  instructions := by rw [Block.instructions_ite_replaceUsesWith, h.instructions]
  nodup := by
    rw [Block.instructions_ite_replaceUsesWith]
    exact h.nodup
  argsEarlier := by
    refine h.argsEarlier.ite_replaceUsesWith h.nodup c fun hc => ?_
    obtain ⟨A, C, hAC⟩ := List.append_of_mem (hg hc).1
    refine ⟨P ++ p :: ins ++ A, C, by rw [h.instructions, hAC]; simp, fun t ht => ?_⟩
    exact List.mem_append_left _ (hv t ht)
  codeP r hr := by
    rw [Block.code_ite_replaceUsesWith, if_neg fun (hc : c = true ∧ r = g) =>
      h.not_mem_later (List.mem_append_left _ hr) (hc.2 ▸ (hg hc.1).1)]
    exact h.codeP r hr
  codeL r hr hpr := by
    rw [Block.code_ite_replaceUsesWith, if_neg fun (hc : c = true ∧ r = g) => hpr (hc.2 ▸ (hg hc.1).2)]
    exact h.codeL r hr hpr
  pendL r hr hpr := by
    rw [Block.code_ite_replaceUsesWith]
    split
    · exact .inr rfl
    · exact h.pendL r hr hpr

/-- An edit of `p` alone. -/
theorem self {b'' : Block} (h : VisitEdit b b' pend P later ins p) (hl : b''.instructions = b'.instructions)
    (hcode : ∀ r, r ≠ p → b''.code r = b'.code r) (hargs : b''.ArgsEarlier) : VisitEdit b b'' pend P later ins p where
  instructions := hl.trans h.instructions
  nodup := hl ▸ h.nodup
  argsEarlier := hargs
  codeP r hr := by
    rw [hcode r fun hrp => h.not_mem_front (hrp ▸ hr)]
    exact h.codeP r hr
  codeL r hr hpr := by
    rw [hcode r fun hrp => h.not_mem_later (List.mem_append_right P List.mem_cons_self) (hrp ▸ hr)]
    exact h.codeL r hr hpr
  pendL r hr hpr := by
    rw [hcode r fun hrp => h.not_mem_later (List.mem_append_right P List.mem_cons_self) (hrp ▸ hr)]
    exact h.pendL r hr hpr

/-- Invalidating the visited instruction keeps the visit. -/
theorem invalidate (h : VisitEdit b b' pend P later ins p) : VisitEdit b (b'.invalidate p) pend P later ins p :=
  h.self (Block.instructions_invalidate b' p) (fun r hr => by rw [Block.code_invalidate, if_neg hr])
    (h.argsEarlier.invalidate h.nodup (by rw [h.instructions]; simp))

/-- Invalidating the visited instruction, or not, keeps the visit. -/
theorem invalidateIf (h : VisitEdit b b' pend P later ins p) (inv : Bool) :
    VisitEdit b (if inv = true then b'.invalidate p else b') pend P later ins p := by
  split
  · exact h.invalidate
  · exact h

/-- Setting an argument of the visited instruction to an immediate keeps the visit. -/
theorem setArg (h : VisitEdit b b' pend P later ins p) (k : Fin 4) {v : Value} (hv : ∀ t, v ≠ .inst t) :
    VisitEdit b (b'.setArg p k v) pend P later ins p :=
  h.self (Block.instructions_setArg b' p k v) (fun r hr => by rw [Block.code_setArg, if_neg hr])
    (h.argsEarlier.setArg h.nodup (by rw [h.instructions]; simp) k hv)

/-- An instruction inserted right after `p`, whose arguments refer to instructions before `p`. -/
theorem insertAfter (h : VisitEdit b b' pend P later [] p) (op : Opcode) (args : List Value)
    (hargs : ∀ (k : Fin 4) t, args.getD k.val .void = .inst t → t ∈ P) :
    VisitEdit b (b'.insertAfter p op args).1 pend P later [b'.freshRef] p := by
  have hfresh := freshRef_not_mem b'
  have hpP := h.not_mem_front
  have hl : (b'.insertAfter p op args).1.instructions = P ++ p :: ([b'.freshRef] ++ later) := by
    rw [instructions_insertAfter, h.instructions, insertAfterIn_append hpP]
    rfl
  have hcode : ∀ r ∈ b'.instructions, (b'.insertAfter p op args).1.code r = b'.code r := fun r hr => by
    rw [code_insertAfter, if_neg fun (h' : r = b'.freshRef) => hfresh (h' ▸ hr)]
  have hnd : (b'.insertAfter p op args).1.instructions.Nodup := by
    have hnd := h.nodup
    rw [h.instructions] at hnd hfresh
    rw [hl, show P ++ p :: ([b'.freshRef] ++ later) = (P ++ [p]) ++ b'.freshRef :: later by simp, List.nodup_middle,
      List.nodup_cons]
    exact ⟨by simpa using hfresh, by simpa using hnd⟩
  refine ⟨hl, hnd, ?_, fun r hr => hcode r (by rw [h.instructions]; simp [hr]) |>.trans (h.codeP r hr),
    fun r hr hpr => (hcode r (by rw [h.instructions]; simp [hr])).trans (h.codeL r hr hpr), fun r hr hpr => ?_⟩
  · refine h.argsEarlier.insert (by rw [h.instructions]; rfl) hl hnd (fun r hr => ?_) fun k t ht => ?_
    · have := code_insertAfter b' p op args r
      rw [if_neg hr] at this
      exact congrArg Prod.snd this
    · have := code_insertAfter b' p op args b'.freshRef
      rw [if_pos rfl] at this
      rw [show ((b'.insertAfter p op args).1.pool b'.freshRef).args = _ from congrArg Prod.snd this] at ht
      exact List.mem_append_left _ (hargs k t ht)
  · rw [hcode r (by rw [h.instructions]; simp [hr])]
    exact h.pendL r hr hpr

end VisitEdit

section Walk

variable (ext : InstRef → A32Context → A32Context × Outcome) (B : Block) (c0 : A32Context)

/-- The original run over the front `P` of the list. -/
def frontRun (P : List InstRef) : A32Context × (InstRef → Option Outcome) :=
  P.foldl (B.stepA32 ext) (c0, fun _ => none)

/-- The outcomes of the arguments of `p` after the original run over `P`. -/
def frontArgs (P : List InstRef) (p : InstRef) : Fin 4 → Option Outcome :=
  fun k => evalArg (frontRun ext B c0 P).2 ((B.pool p).args k)

/-- The backward walk has visited the part `later` of the walk's list behind the front `P`, which it has not touched.
Run from a context and outcomes that complete it against the original run over `P`, the walk's block ends where the
original block ends. -/
structure FlagsWalked (P later : List InstRef) (st : FlagsState) : Prop where
  front : P <+: B.instructions
  instructions : st.block.instructions = P ++ later
  nodup : st.block.instructions.Nodup
  argsEarlier : st.block.ArgsEarlier
  covers : ∀ r ∈ B.instructions, r ∈ P ++ later
  code : ∀ r ∈ P, st.block.code r = B.code r
  edits : ∀ r ∈ later, (r ∈ B.instructions ∧ st.block.code r = B.code r) ∨ (st.block.pool r).op.isFlagsEdit = true
  cPending : st.cFlag.hasValueRequest = true →
    st.cFlag.valueRequest ∈ later ∧ (st.block.pool st.cFlag.valueRequest).op = .a32GetCFlag
  gePending : st.ge.hasValueRequest = true →
    st.ge.valueRequest ∈ later ∧ (st.block.pool st.ge.valueRequest).op = .a32GetGEFlags
  run : ∀ b' c' o', Completes B st later b' (frontRun ext B c0 P).1 (frontRun ext B c0 P).2 c' o' →
    (later.foldl (b'.stepA32 ext) (c', o')).1 = (B.execA32 ext c0).1 ∧
      ∀ r ∈ B.instructions, (later.foldl (b'.stepA32 ext) (c', o')).2 r = (B.execA32 ext c0).2 r

/-- A pending getter resolved against the outcomes before `p` stays resolved once `p` has run. -/
theorem Resolved.update {later : List InstRef} {p : InstRef} {o : InstRef → Option Outcome} {now code}
    {same same' : Prop} {x : Val} (h : Resolved (p :: later) o now code same x) (hsame : same → same')
    (y : Option Outcome) : Resolved later (Function.update o p y) now code same' x := by
  rcases h with ⟨hcode, hs⟩ | ⟨v, hcode, hnot, hval⟩
  · exact .inl ⟨hcode, hsame hs⟩
  · refine .inr ⟨v, hcode, fun t ht htl => hnot t ht (List.mem_cons_of_mem p htl), ?_⟩
    rw [← hval]
    congr 1
    refine evalArg_congr fun t ht => Function.update_of_ne ?_ _ _
    rintro rfl
    exact hnot t ht List.mem_cons_self

/-- A getter that stays pending across a visit that leaves its code stays resolved. -/
theorem Resolved.kept {later : List InstRef} {p : InstRef} {o : InstRef → Option Outcome} {now now' code}
    {same same' : Prop} {x x' : Val} (h : Resolved (p :: later) o now' code same x) (hnow : now' = now)
    (hsame : same → same') (hx : x = x') (y : Option Outcome) : Resolved later (Function.update o p y) now code same' x' :=
  hnow ▸ hx ▸ h.update hsame y

/-- The walk before its first visit: the front is the whole list, and the original run ends there. -/
theorem flagsWalked_start (hnd : B.instructions.Nodup) (hb : B.ArgsEarlier) :
    FlagsWalked ext B c0 B.instructions []
      { block := B, nzcvq := ⟨false⟩, nzcv := ⟨false⟩, nz := ⟨false⟩, cFlag := .empty, ge := .empty } where
  front := List.prefix_refl _
  instructions := (List.append_nil _).symm
  nodup := hnd
  argsEarlier := hb
  covers := fun _ hr => by rwa [List.append_nil]
  code := fun _ _ => rfl
  edits := fun _ h => absurd h List.not_mem_nil
  cPending := fun h => absurd h Bool.false_ne_true
  gePending := fun h => absurd h Bool.false_ne_true
  run := fun _ _ _ hc => ⟨hc.agree.eq rfl rfl rfl rfl rfl, hc.outcomes⟩

/-! ### One visit -/

section Visit

variable {ext B c0} {P later : List InstRef} {p : InstRef} {st : FlagsState}

/-- One visit, from what it does. The visited instruction `p` leaves the front and joins the part behind it, with the
instructions `ins` inserted after it; the block keeps its code elsewhere, except that a pending getter may become an
identity; and from a context and outcomes that complete the new state, running `p` and `ins` reaches a context and
outcomes that complete the old one. -/
theorem FlagsWalked.step {P later : List InstRef} {p : InstRef} {st st' : FlagsState}
    (h : FlagsWalked ext B c0 (P ++ [p]) later st) {ins : List InstRef}
    (he : VisitEdit st.block st'.block st.Pending P later ins p)
    (hedits : ∀ r ∈ p :: ins,
      (r ∈ B.instructions ∧ st'.block.code r = B.code r) ∨ (st'.block.pool r).op.isFlagsEdit = true)
    (hpend : ∀ r ∈ later, st'.Pending r → st.Pending r)
    (hcP : st'.cFlag.hasValueRequest = true →
      st'.cFlag.valueRequest ∈ p :: (ins ++ later) ∧ (st'.block.pool st'.cFlag.valueRequest).op = .a32GetCFlag)
    (hgeP : st'.ge.hasValueRequest = true →
      st'.ge.valueRequest ∈ p :: (ins ++ later) ∧ (st'.block.pool st'.ge.valueRequest).op = .a32GetGEFlags)
    (hrun : ∀ b' c' o', Completes B st' (p :: (ins ++ later)) b' (frontRun ext B c0 P).1 (frontRun ext B c0 P).2 c' o' →
      (∀ r ∈ later, ¬st.Pending r → b'.code r = st.block.code r) →
      Completes B st later b' (frontRun ext B c0 (P ++ [p])).1 (frontRun ext B c0 (P ++ [p])).2
        ((p :: ins).foldl (b'.stepA32 ext) (c', o')).1 ((p :: ins).foldl (b'.stepA32 ext) (c', o')).2) :
    FlagsWalked ext B c0 P (p :: (ins ++ later)) st' where
  front := (List.prefix_append P [p]).trans h.front
  instructions := he.instructions
  nodup := he.nodup
  argsEarlier := he.argsEarlier
  covers r hr := by
    have := h.covers r hr
    simp only [List.mem_append, List.mem_cons, List.not_mem_nil, or_false] at this ⊢
    tauto
  code r hr := (he.codeP r hr).trans (h.code r (List.mem_append_left _ hr))
  edits r hr := by
    rcases List.mem_cons.mp hr with rfl | hr
    · exact hedits r List.mem_cons_self
    rcases List.mem_append.mp hr with hr | hr
    · exact hedits r (List.mem_cons_of_mem p hr)
    have hsame : st'.block.code r = st.block.code r ∨ (st'.block.code r).1 = .identity := by
      by_cases hpr : st.Pending r
      · exact he.pendL r hr hpr
      · exact .inl (he.codeL r hr hpr)
    rcases hsame with hsame | hid
    · have hop : (st'.block.pool r).op = (st.block.pool r).op := congrArg Prod.fst hsame
      rw [hsame, hop]
      exact h.edits r hr
    · exact .inr (by rw [show (st'.block.pool r).op = (st'.block.code r).1 from rfl, hid]; rfl)
  cPending := hcP
  gePending := hgeP
  run b' c' o' hc := by
    have hcode : ∀ r ∈ later, ¬st.Pending r → b'.code r = st.block.code r := fun r hr hpr =>
      (hc.code r (List.mem_cons_of_mem p (List.mem_append_right ins hr)) fun h' => hpr (hpend r hr h')).trans
        (he.codeL r hr hpr)
    have hsplit : p :: (ins ++ later) = (p :: ins) ++ later := rfl
    rw [hsplit, List.foldl_append]
    exact h.run b' _ _ (hrun b' c' o' hc hcode)

/-- The walk's block before the edits of a visit. -/
theorem FlagsWalked.visitEdit (h : FlagsWalked ext B c0 (P ++ [p]) later st) :
    VisitEdit st.block st.block st.Pending P later [] p :=
  .refl (by rw [h.instructions]; simp) h.nodup h.argsEarlier

/-- The part visited is not in the part behind. -/
theorem FlagsWalked.not_mem_later (h : FlagsWalked ext B c0 (P ++ [p]) later st) {r : InstRef} (hr : r ∈ P ++ [p]) :
    r ∉ later := by
  have hnd := h.nodup
  rw [h.instructions, List.nodup_append] at hnd
  exact fun hl => hnd.2.2 r hr r hl rfl

/-- The instruction the walk visits next is not in the front. -/
theorem FlagsWalked.not_mem_front (h : FlagsWalked ext B c0 (P ++ [p]) later st) : p ∉ P := by
  have hnd := h.nodup
  rw [h.instructions, List.nodup_append, List.nodup_append] at hnd
  exact fun hp => hnd.1.2.2 p hp p List.mem_cons_self rfl

/-- The instruction the walk visits next still has its code. -/
theorem FlagsWalked.code_self (h : FlagsWalked ext B c0 (P ++ [p]) later st) : st.block.code p = B.code p :=
  h.code p (List.mem_append_right P List.mem_cons_self)

/-- The instruction the walk visits next sits in the original list right after the front. -/
theorem FlagsWalked.exists_suffix (h : FlagsWalked ext B c0 (P ++ [p]) later st) :
    ∃ S, B.instructions = P ++ p :: S := by
  obtain ⟨S, hS⟩ := h.front
  exact ⟨S, by rw [← hS, List.append_assoc, List.singleton_append]⟩

/-- The instruction the walk visits next is in the original list. -/
theorem FlagsWalked.mem (h : FlagsWalked ext B c0 (P ++ [p]) later st) : p ∈ B.instructions := by
  obtain ⟨S, hS⟩ := h.exists_suffix
  rw [hS]
  exact List.mem_append_right P List.mem_cons_self

/-- The arguments of the visited instruction refer into the front. -/
theorem FlagsWalked.args_mem (h : FlagsWalked ext B c0 (P ++ [p]) later st) (hb : B.ArgsEarlier) :
    ∀ k t, (B.pool p).args k = .inst t → t ∈ P := by
  obtain ⟨S, hS⟩ := h.exists_suffix
  exact fun _ _ ht => hb.mem_of_arg hS ht

/-- The run of one more instruction of the front is one more step. -/
theorem frontRun_snoc : frontRun ext B c0 (P ++ [p]) = B.stepA32 ext (frontRun ext B c0 P) p := by
  rw [frontRun, List.foldl_append, List.foldl_cons, List.foldl_nil]
  rfl

/-- The original run gives an instruction the outcome it computes after the front of the list before it. -/
theorem execA32_snd_of_split (hnd : B.instructions.Nodup) {S : List InstRef} (hS : B.instructions = P ++ p :: S) :
    (B.execA32 ext c0).2 p = (execA32Inst ext (frontRun ext B c0 P).1 (frontArgs ext B c0 P p) p (B.pool p)).2 := by
  have hpS : p ∉ S := by
    rw [hS] at hnd
    exact (List.nodup_cons.mp (List.nodup_append.mp hnd).2.1).1
  rw [Block.execA32_eq_foldl, hS, show P ++ p :: S = (P ++ [p]) ++ S by simp, List.foldl_append,
    Block.foldl_stepA32_snd_of_not_mem ext B hpS]
  change (frontRun ext B c0 (P ++ [p])).2 p = _
  rw [frontRun_snoc, Block.stepA32]
  exact Function.update_self _ _ _

/-- The outcome the original run gives the visited instruction is what it computes after the front. -/
theorem FlagsWalked.outcome (h : FlagsWalked ext B c0 (P ++ [p]) later st) (hndB : B.instructions.Nodup) :
    (B.execA32 ext c0).2 p = (execA32Inst ext (frontRun ext B c0 P).1 (frontArgs ext B c0 P p) p (B.pool p)).2 := by
  obtain ⟨S, hS⟩ := h.exists_suffix
  exact execA32_snd_of_split hndB hS

/-- An instruction that has the code of the visited one, run after outcomes that agree with the original ones on the
block's instructions, reads its arguments as the original run does. -/
theorem FlagsWalked.stepA32_of_code (h : FlagsWalked ext B c0 (P ++ [p]) later st) (hb : B.ArgsEarlier) {b' : Block}
    (hcode : b'.code p = B.code p) (c' : A32Context) {o' : InstRef → Option Outcome}
    (ho : ∀ r ∈ B.instructions, o' r = (frontRun ext B c0 P).2 r) :
    b'.stepA32 ext (c', o') p = ((execA32Inst ext c' (frontArgs ext B c0 P p) p (B.pool p)).1,
      Function.update o' p (execA32Inst ext c' (frontArgs ext B c0 P p) p (B.pool p)).2) := by
  obtain ⟨S, hS⟩ := h.exists_suffix
  have hargs : (fun k => evalArg o' ((B.pool p).args k)) = frontArgs ext B c0 P p := by
    funext k
    refine evalArg_congr fun t ht => ho t ?_
    rw [hS]
    exact List.mem_append_left _ (h.args_mem hb k t ht)
  rw [Block.stepA32_congr ext hcode, Block.stepA32]
  simp only [hargs]

/-- The pending C and GE getters are different instructions. -/
theorem FlagsWalked.pending_ne (h : FlagsWalked ext B c0 P later st) (hc : st.cFlag.hasValueRequest = true)
    (hge : st.ge.hasValueRequest = true) : st.ge.valueRequest ≠ st.cFlag.valueRequest := by
  intro heq
  have h₁ := (h.cPending hc).2
  rw [← heq, (h.gePending hge).2] at h₁
  exact Opcode.noConfusion h₁

/-- `GetCFlag`: a pending getter becomes an identity of this one, which becomes the pending getter. -/
theorem FlagsWalked.getCFlag (h : FlagsWalked ext B c0 (P ++ [p]) later st) (hb : B.ArgsEarlier)
    (hop : (B.pool p).op = .a32GetCFlag) : FlagsWalked ext B c0 P (p :: later) (flagsVisit st p) := by
  have hop' : (st.block.pool p).op = .a32GetCFlag := (congrArg Prod.fst h.code_self).trans hop
  have hvisit : flagsVisit st p =
      { st with block := (doGet st.block st.cFlag p).1, cFlag := (doGet st.block st.cFlag p).2 } := by
    simp only [flagsVisit, flagsStep, hop', Bool.false_eq_true, if_false]
  rw [hvisit]
  simp only [doGet]
  have hpl := h.not_mem_later (List.mem_append_right P List.mem_cons_self)
  have hg : st.cFlag.hasValueRequest = true → st.cFlag.valueRequest ∈ later := fun hc => (h.cPending hc).1
  have hgp : st.cFlag.hasValueRequest = true → p ≠ st.cFlag.valueRequest := fun hc hp => hpl (hp ▸ hg hc)
  have hcodep : (if st.cFlag.hasValueRequest = true then st.block.replaceUsesWith st.cFlag.valueRequest (.inst p)
      else st.block).code p = B.code p := by
    rw [Block.code_ite_replaceUsesWith, if_neg fun hc => hgp hc.1 hc.2]
    exact h.code_self
  show FlagsWalked ext B c0 P (p :: ([] ++ later)) _
  apply h.step
  · exact h.visitEdit.resolve _ _ _ (fun hc => ⟨hg hc, .inl ⟨hc, rfl⟩⟩) fun t ht => by cases ht; simp
  · intro r hr
    rw [List.mem_singleton.mp hr]
    exact .inl ⟨h.mem, hcodep⟩
  · rintro r hr (⟨-, rfl⟩ | hge)
    · exact absurd hr hpl
    · exact .inr hge
  · intro _
    exact ⟨List.mem_cons_self, (congrArg Prod.fst hcodep).trans hop⟩
  · intro hge
    refine ⟨List.mem_cons_of_mem p (h.gePending hge).1, ?_⟩
    change ((if st.cFlag.hasValueRequest = true then _ else _ : Block).code _).1 = _
    rw [Block.code_ite_replaceUsesWith, if_neg fun hc => h.pending_ne hc.1 hge hc.2]
    exact (h.gePending hge).2
  · intro b' c' o' hc hcode
    have hres := hc.cRequest rfl
    have hstep : b'.stepA32 ext (c', o') p =
        (c', Function.update o' p (some (.plain (.u1 (frontRun ext B c0 P).1.c)))) := by
      rcases hres with ⟨hcp, hsame⟩ | ⟨v, hcp, -, hv⟩
      · rw [h.stepA32_of_code hb (hcp.trans hcodep) c' hc.outcomes, execA32Inst_getCFlag ext hop]
        dsimp only at hsame ⊢
        rw [hsame]
      · have hargs0 : (b'.pool p).args 0 = v := by
          have h₂ : (b'.pool p).args = Function.update (fun _ => Value.void) 0 v := congrArg Prod.snd hcp
          rw [h₂, Function.update_self]
        rw [Block.stepA32, execA32Inst_identity ext (congrArg Prod.fst hcp)]
        dsimp only
        rw [hargs0, map_plain_of_map_value hv]
    have hfront : frontRun ext B c0 (P ++ [p]) = ((frontRun ext B c0 P).1,
        Function.update (frontRun ext B c0 P).2 p (some (.plain (.u1 (frontRun ext B c0 P).1.c)))) := by
      rw [frontRun_snoc, Block.stepA32, execA32Inst_getCFlag ext hop]
    simp only [List.foldl_cons, List.foldl_nil, hstep, hfront]
    refine ⟨hcode, hc.agree.mono id id id id id, fun r hr => ?_, fun hreq => ?_, fun hreq => ?_⟩
    · by_cases hrp : r = p
      · rw [hrp, Function.update_self, Function.update_self]
      · rw [Function.update_of_ne hrp, Function.update_of_ne hrp, hc.outcomes r hr]
    · -- the getter that was pending is now an identity of `p`
      have hcg := hc.code _ (List.mem_cons_of_mem p (hg hreq)) (by
        rintro (⟨-, hgp'⟩ | ⟨hge, hgg⟩)
        · exact hgp hreq hgp'.symm
        · exact h.pending_ne hreq hge hgg.symm)
      rw [Block.code_ite_replaceUsesWith, if_pos ⟨hreq, rfl⟩] at hcg
      refine .inr ⟨.inst p, hcg, fun t ht => ?_, ?_⟩
      · cases ht
        exact hpl
      · simp only [evalArg, Function.update_self, Option.map_some]
        rfl
    · have hres := hc.geRequest hreq
      dsimp only at hres
      rw [Block.code_ite_replaceUsesWith, if_neg fun hc => h.pending_ne hc.1 hreq hc.2] at hres
      exact hres.update id _

/-- A visit of an instruction that writes flags and has no value, from what it does. The original instruction takes
every context `d` to `W d`, and the instruction the walk leaves takes it to `W' d`; the walk's block is otherwise edited
as `he` says; agreement for the new state gives agreement for the old one after the instruction; and each getter
pending in the old state is resolved once the instruction has run. -/
theorem FlagsWalked.flagWrite (h : FlagsWalked ext B c0 (P ++ [p]) later st) {st' : FlagsState}
    (he : VisitEdit st.block st'.block st.Pending P later [] p)
    (hedit : (p ∈ B.instructions ∧ st'.block.code p = B.code p) ∨ (st'.block.pool p).op.isFlagsEdit = true)
    (hpend : ∀ r ∈ later, st'.Pending r → st.Pending r)
    (hcP : st'.cFlag.hasValueRequest = true →
      st'.cFlag.valueRequest ∈ later ∧ (st'.block.pool st'.cFlag.valueRequest).op = .a32GetCFlag)
    (hgeP : st'.ge.hasValueRequest = true →
      st'.ge.valueRequest ∈ later ∧ (st'.block.pool st'.ge.valueRequest).op = .a32GetGEFlags)
    {W : A32Context → A32Context}
    (hW : ∀ d, execA32Inst ext d (frontArgs ext B c0 P p) p (B.pool p) = (W d, some (.plain .void)))
    (W' : A32Context → A32Context) (hW' : ∀ (b' : Block) d o', b'.code p = st'.block.code p → (∀ r ∈ B.instructions, o' r = (frontRun ext B c0 P).2 r) →
      b'.stepA32 ext (d, o') p = (W' d, Function.update o' p (some (.plain .void))))
    (hagree : ∀ d', st'.Agree (frontRun ext B c0 P).1 d' → st.Agree (W (frontRun ext B c0 P).1) (W' d'))
    (hreq : ∀ b' c' o', Completes B st' (p :: later) b' (frontRun ext B c0 P).1 (frontRun ext B c0 P).2 c' o' →
      (st.cFlag.hasValueRequest = true → Resolved later (Function.update o' p (some (.plain .void)))
        (st.block.code st.cFlag.valueRequest) (b'.code st.cFlag.valueRequest)
        ((W' c').c = (W (frontRun ext B c0 P).1).c) (.u1 (W (frontRun ext B c0 P).1).c)) ∧
      (st.ge.hasValueRequest = true → Resolved later (Function.update o' p (some (.plain .void)))
        (st.block.code st.ge.valueRequest) (b'.code st.ge.valueRequest)
        ((W' c').ge = (W (frontRun ext B c0 P).1).ge) (.u32 (W (frontRun ext B c0 P).1).ge))) :
    FlagsWalked ext B c0 P (p :: later) st' := by
  have hpl := h.not_mem_later (List.mem_append_right P List.mem_cons_self)
  have hfront : frontRun ext B c0 (P ++ [p]) = (W (frontRun ext B c0 P).1,
      Function.update (frontRun ext B c0 P).2 p (some (.plain .void))) := by
    rw [frontRun_snoc, Block.stepA32]
    exact congrArg₂ _ (congrArg Prod.fst (hW _)) (congrArg (Function.update _ p) (congrArg Prod.snd (hW _)))
  show FlagsWalked ext B c0 P (p :: ([] ++ later)) st'
  refine h.step he (fun r hr => by rw [List.mem_singleton.mp hr]; exact hedit) hpend
    (fun hc => ⟨List.mem_cons_of_mem p (hcP hc).1, (hcP hc).2⟩)
    (fun hc => ⟨List.mem_cons_of_mem p (hgeP hc).1, (hgeP hc).2⟩) fun b' c' o' hc hcode => ?_
  have hcodep : b'.code p = st'.block.code p := hc.code p List.mem_cons_self (by
    rintro (⟨hreq, hp⟩ | ⟨hreq, hp⟩)
    · exact hpl (hp ▸ (hcP hreq).1)
    · exact hpl (hp ▸ (hgeP hreq).1))
  simp only [List.foldl_cons, List.foldl_nil, hW' b' c' o' hcodep hc.outcomes, hfront]
  obtain ⟨hreqC, hreqGE⟩ := hreq b' c' o' hc
  refine ⟨hcode, hagree c' hc.agree, fun r hr => ?_, hreqC, hreqGE⟩
  by_cases hrp : r = p
  · rw [hrp, Function.update_self, Function.update_self]
  · rw [Function.update_of_ne hrp, Function.update_of_ne hrp, hc.outcomes r hr]

/-- A setter that the walk invalidates or keeps, run after outcomes that agree with the original ones. -/
theorem FlagsWalked.stepA32_invalidateIf (h : FlagsWalked ext B c0 (P ++ [p]) later st) (hb : B.ArgsEarlier)
    {W : A32Context → A32Context}
    (hW : ∀ d, execA32Inst ext d (frontArgs ext B c0 P p) p (B.pool p) = (W d, some (.plain .void))) (inv : Bool)
    {b₁ b' : Block} (hb₁ : b₁.code p = B.code p) (hcode : b'.code p = (if inv = true then b₁.invalidate p else b₁).code p)
    (d : A32Context) {o' : InstRef → Option Outcome} (ho : ∀ r ∈ B.instructions, o' r = (frontRun ext B c0 P).2 r) :
    b'.stepA32 ext (d, o') p = (if inv = true then d else W d, Function.update o' p (some (.plain .void))) := by
  cases inv
  · rw [if_neg Bool.false_ne_true] at hcode ⊢
    rw [h.stepA32_of_code hb (hcode.trans hb₁) d ho, hW]
  · rw [if_pos rfl, Block.code_invalidate, if_pos rfl] at hcode
    rw [if_pos rfl, Block.stepA32, execA32Inst_void ext (congrArg Prod.fst hcode)]

/-- The instruction a setter case leaves at `p`: the setter, or `Void`. -/
theorem FlagsWalked.edit_invalidateIf (h : FlagsWalked ext B c0 (P ++ [p]) later st) (inv : Bool) {b₁ : Block}
    (hb₁ : b₁.code p = B.code p) :
    (p ∈ B.instructions ∧ (if inv = true then b₁.invalidate p else b₁).code p = B.code p) ∨
      ((if inv = true then b₁.invalidate p else b₁).pool p).op.isFlagsEdit = true := by
  cases inv
  · exact .inl ⟨h.mem, hb₁⟩
  · refine .inr ?_
    rw [if_pos rfl, Block.op_invalidate, if_pos rfl]
    rfl

/-- A visit that keeps the pending `GetCFlag` and its code keeps what the walk knows of it. -/
theorem FlagsWalked.cPending_of_code (h : FlagsWalked ext B c0 (P ++ [p]) later st) {st' : FlagsState}
    (hC : st'.cFlag = st.cFlag)
    (hcode : st.cFlag.hasValueRequest = true → st'.block.code st.cFlag.valueRequest = st.block.code st.cFlag.valueRequest) :
    st'.cFlag.hasValueRequest = true →
      st'.cFlag.valueRequest ∈ later ∧ (st'.block.pool st'.cFlag.valueRequest).op = .a32GetCFlag := by
  rw [hC]
  intro hreq
  exact ⟨(h.cPending hreq).1, (congrArg Prod.fst (hcode hreq)).trans (h.cPending hreq).2⟩

/-- An edit that keeps the GE state and the code of its pending getter keeps a pending GE getter in the part behind. -/
theorem FlagsWalked.gePending_of_code (h : FlagsWalked ext B c0 (P ++ [p]) later st) {st' : FlagsState}
    (hGE : st'.ge = st.ge)
    (hcode : st.ge.hasValueRequest = true → st'.block.code st.ge.valueRequest = st.block.code st.ge.valueRequest) :
    st'.ge.hasValueRequest = true →
      st'.ge.valueRequest ∈ later ∧ (st'.block.pool st'.ge.valueRequest).op = .a32GetGEFlags := by
  rw [hGE]
  intro hreq
  exact ⟨(h.gePending hreq).1, (congrArg Prod.fst (hcode hreq)).trans (h.gePending hreq).2⟩

/-- The arguments of the visited instruction refer to no instruction behind it. -/
theorem FlagsWalked.args_not_mem_later (h : FlagsWalked ext B c0 (P ++ [p]) later st) (hb : B.ArgsEarlier) :
    ∀ k t, (B.pool p).args k = .inst t → t ∉ later := fun k t ht =>
  h.not_mem_later (List.mem_append_left _ (h.args_mem hb k t ht))

/-- An argument of the visited instruction, read after it has run, in outcomes that agree with the original ones. -/
theorem FlagsWalked.evalArg_update (h : FlagsWalked ext B c0 (P ++ [p]) later st) (hb : B.ArgsEarlier)
    {o' : InstRef → Option Outcome} (ho : ∀ r ∈ B.instructions, o' r = (frontRun ext B c0 P).2 r)
    (y : Option Outcome) (k : Fin 4) :
    evalArg (Function.update o' p y) ((B.pool p).args k) = frontArgs ext B c0 P p k := by
  obtain ⟨S, hS⟩ := h.exists_suffix
  refine evalArg_congr fun t ht => ?_
  have htP := h.args_mem hb k t ht
  have htp : t ≠ p := fun htp => h.not_mem_front (htp ▸ htP)
  rw [Function.update_of_ne htp, ho t (by rw [hS]; exact List.mem_append_left _ htP)]

/-- A getter pending before a visit that drops it and leaves its code is left as it is. -/
theorem FlagsWalked.code_dropped_c (h : FlagsWalked ext B c0 (P ++ [p]) later st) {st' : FlagsState} {b' : Block}
    {c c' : A32Context} {o o' : InstRef → Option Outcome} (hc : Completes B st' (p :: later) b' c o c' o')
    (hnoreq : st'.cFlag.hasValueRequest = false) (hGE : st'.ge = st.ge)
    (hcode : ∀ r ∈ later, st'.block.code r = st.block.code r) (hreq : st.cFlag.hasValueRequest = true) :
    b'.code st.cFlag.valueRequest = st.block.code st.cFlag.valueRequest := by
  have hg := (h.cPending hreq).1
  refine (hc.code _ (List.mem_cons_of_mem p hg) ?_).trans (hcode _ hg)
  rintro (⟨hC, -⟩ | ⟨hge, hgg⟩)
  · rw [hnoreq] at hC
    exact Bool.false_ne_true hC
  · rw [hGE] at hge hgg
    exact h.pending_ne hreq hge hgg.symm

/-- Invalidating the visited instruction, or not, keeps the code of the part behind. -/
theorem FlagsWalked.code_invalidateIf (h : FlagsWalked ext B c0 (P ++ [p]) later st) (inv : Bool) (b₁ : Block) :
    ∀ r ∈ later, (if inv = true then b₁.invalidate p else b₁).code r = b₁.code r := by
  intro r hr
  cases inv
  · rfl
  · rw [if_pos rfl, Block.code_invalidate, if_neg fun (hrp : r = p) =>
      h.not_mem_later (List.mem_append_right P List.mem_cons_self) (hrp ▸ hr)]

/-- `SetCpsrNZ`: invalidated when N and Z are overwritten later; the pending getters stay pending. -/
theorem FlagsWalked.setCpsrNZ (h : FlagsWalked ext B c0 (P ++ [p]) later st) (hb : B.ArgsEarlier)
    (hndB : B.instructions.Nodup) (hdef : (B.execA32 ext c0).2 p ≠ none) (hop : (B.pool p).op = .a32SetCpsrNZ) :
    FlagsWalked ext B c0 P (p :: later) (flagsVisit st p) := by
  have hop' : (st.block.pool p).op = .a32SetCpsrNZ := (congrArg Prod.fst h.code_self).trans hop
  rw [h.outcome hndB] at hdef
  obtain ⟨f, -, hW⟩ := execA32Inst_setCpsrNZ ext hop hdef
  have hvisit : flagsVisit st p =
      { st with
        block := if st.nz.setNotRequired = true then st.block.invalidate p else st.block
        nz := ⟨true⟩, nzcvq := ⟨false⟩, nzcv := ⟨false⟩ } := by
    simp only [flagsVisit, flagsStep, hop', doSetValueless, Bool.false_eq_true, if_false]
  rw [hvisit]
  refine h.flagWrite (h.visitEdit.invalidateIf _) (h.edit_invalidateIf _ h.code_self) ?_ ?_ ?_ hW _
    (fun b' d o' hcode ho => h.stepA32_invalidateIf hb hW _ h.code_self hcode d ho) (fun d' hag => ?_)
    fun b' c' o' hc => ?_
  · exact fun _ _ hr => hr
  · exact h.cPending_of_code rfl fun hreq => h.code_invalidateIf _ _ _ (h.cPending hreq).1
  · exact h.gePending_of_code rfl fun hreq => h.code_invalidateIf _ _ _ (h.gePending hreq).1
  · obtain ⟨hr, hn, hz, hc, hv, hq, hge⟩ := hag
    cases hinv : st.nz.setNotRequired <;> constructor <;>
      simp_all [FlagsState.nzLive, FlagsState.cLive, FlagsState.vLive, FlagsState.qLive, FlagsState.geLive,
        A32Context.registers]
  · -- N and Z are all the instruction writes: the pending getters keep waiting
    refine ⟨fun hreq => (hc.cRequest hreq).kept (h.code_invalidateIf _ _ _ (h.cPending hreq).1) (fun hs => ?_) rfl _,
      fun hreq => (hc.geRequest hreq).kept (h.code_invalidateIf _ _ _ (h.gePending hreq).1) (fun hs => ?_) rfl _⟩
    · cases st.nz.setNotRequired <;> simpa using hs
    · cases st.nz.setNotRequired <;> simpa using hs

/-- `OrQFlag`: the walk leaves it, and what it knows. -/
theorem FlagsWalked.orQFlag (h : FlagsWalked ext B c0 (P ++ [p]) later st) (hb : B.ArgsEarlier)
    (hndB : B.instructions.Nodup) (hdef : (B.execA32 ext c0).2 p ≠ none) (hop : (B.pool p).op = .a32OrQFlag) :
    FlagsWalked ext B c0 P (p :: later) (flagsVisit st p) := by
  have hop' : (st.block.pool p).op = .a32OrQFlag := (congrArg Prod.fst h.code_self).trans hop
  rw [h.outcome hndB] at hdef
  obtain ⟨x, hW⟩ := execA32Inst_orQFlag ext hop hdef
  have hvisit : flagsVisit st p = st := by
    simp only [flagsVisit, flagsStep, hop', Bool.false_eq_true, if_false]
  rw [hvisit]
  refine h.flagWrite h.visitEdit (.inl ⟨h.mem, h.code_self⟩) (fun _ _ hr => hr) (fun hreq => h.cPending hreq)
    (fun hreq => h.gePending hreq) hW (fun d => { d with q := d.q || x })
    (fun b' d o' hcode ho => by rw [h.stepA32_of_code hb (hcode.trans h.code_self) d ho, hW]) (fun d' hag => ?_)
    fun b' c' o' hc => ⟨fun hreq => (hc.cRequest hreq).kept rfl id rfl _, fun hreq => (hc.geRequest hreq).kept rfl id rfl _⟩
  obtain ⟨hr, hn, hz, hc, hv, hq, hge⟩ := hag
  constructor <;> simp_all [A32Context.registers]

/-- `SetGEFlagsCompressed`: kept; a pending `GetGEFlags` stays a getter. -/
theorem FlagsWalked.setGEFlagsCompressed (h : FlagsWalked ext B c0 (P ++ [p]) later st) (hb : B.ArgsEarlier)
    (hndB : B.instructions.Nodup) (hdef : (B.execA32 ext c0).2 p ≠ none)
    (hop : (B.pool p).op = .a32SetGEFlagsCompressed) : FlagsWalked ext B c0 P (p :: later) (flagsVisit st p) := by
  have hop' : (st.block.pool p).op = .a32SetGEFlagsCompressed := (congrArg Prod.fst h.code_self).trans hop
  rw [h.outcome hndB] at hdef
  obtain ⟨x, hW⟩ := execA32Inst_setGEFlagsCompressed ext hop hdef
  have hvisit : flagsVisit st p = { st with ge := .notRequired } := by
    simp only [flagsVisit, flagsStep, hop', Bool.false_eq_true, if_false]
  rw [hvisit]
  refine h.flagWrite h.visitEdit (.inl ⟨h.mem, h.code_self⟩) ?_ (fun hreq => h.cPending hreq)
    (fun hreq => absurd hreq Bool.false_ne_true) hW (fun d => { d with ge := A32Context.geOfCompressed x })
    (fun b' d o' hcode ho => by rw [h.stepA32_of_code hb (hcode.trans h.code_self) d ho, hW]) (fun d' hag => ?_)
    fun b' c' o' hc => ⟨fun hreq => (hc.cRequest hreq).kept rfl id rfl _, fun hreq => .inl ⟨?_, rfl⟩⟩
  · rintro r _ (hC | ⟨hge, -⟩)
    · exact .inl hC
    · exact absurd hge Bool.false_ne_true
  · obtain ⟨hr, hn, hz, hc, hv, hq, hge⟩ := hag
    constructor <;> simp_all [FlagsState.nzLive, FlagsState.cLive, FlagsState.vLive, FlagsState.qLive,
      FlagsState.geLive, A32Context.registers]
  · -- the getter that was pending is left as it is
    refine hc.code _ (List.mem_cons_of_mem p (h.gePending hreq).1) ?_
    rintro (⟨hC, hg⟩ | ⟨hge, -⟩)
    · exact h.pending_ne hC hreq hg
    · exact absurd hge Bool.false_ne_true

/-- `SetCpsrNZCV` with no pending `GetCFlag`: invalidated when NZCV is overwritten later. -/
theorem FlagsWalked.setCpsrNZCV (h : FlagsWalked ext B c0 (P ++ [p]) later st) (hb : B.ArgsEarlier)
    (hndB : B.instructions.Nodup) (hdef : (B.execA32 ext c0).2 p ≠ none) (hop : (B.pool p).op = .a32SetCpsrNZCV)
    (hreqC : st.cFlag.hasValueRequest = false) : FlagsWalked ext B c0 P (p :: later) (flagsStep st p).1 := by
  have hop' : (st.block.pool p).op = .a32SetCpsrNZCV := (congrArg Prod.fst h.code_self).trans hop
  rw [h.outcome hndB] at hdef
  obtain ⟨f, -, hW⟩ := execA32Inst_setCpsrNZCV ext hop hdef
  have hstep : (flagsStep st p).1 =
      { st with
        block := if st.nzcv.setNotRequired = true then st.block.invalidate p else st.block
        nzcv := ⟨true⟩, nz := ⟨true⟩, cFlag := .notRequired } := by
    simp only [flagsStep, hop', hreqC, doSetValueless, Bool.false_eq_true, if_false]
  rw [hstep]
  refine h.flagWrite (h.visitEdit.invalidateIf _) (h.edit_invalidateIf _ h.code_self) ?_
    (fun hreq => absurd hreq Bool.false_ne_true) ?_ hW _
    (fun b' d o' hcode ho => h.stepA32_invalidateIf hb hW _ h.code_self hcode d ho) (fun d' hag => ?_)
    fun b' c' o' hc => ⟨fun hreq => absurd hreq (by rw [hreqC]; exact Bool.false_ne_true),
      fun hreq => (hc.geRequest hreq).kept (h.code_invalidateIf _ _ _ (h.gePending hreq).1) (fun hs => ?_) rfl _⟩
  · rintro r _ (⟨hC, -⟩ | hge)
    · exact absurd hC Bool.false_ne_true
    · exact .inr hge
  · exact h.gePending_of_code rfl fun hreq => h.code_invalidateIf _ _ _ (h.gePending hreq).1
  · obtain ⟨hr, hn, hz, hc, hv, hq, hge⟩ := hag
    cases hinv : st.nzcv.setNotRequired <;> constructor <;>
      simp_all [FlagsState.nzLive, FlagsState.cLive, FlagsState.vLive, FlagsState.qLive, FlagsState.geLive,
        A32Context.registers]
  · cases st.nzcv.setNotRequired <;> simpa using hs

/-- `SetCpsrNZCVRaw`: invalidated when NZCV is overwritten later, unless a `GetCFlag` is pending, which then stays a
getter and reads the C this instruction writes. -/
theorem FlagsWalked.setCpsrNZCVRaw (h : FlagsWalked ext B c0 (P ++ [p]) later st) (hb : B.ArgsEarlier)
    (hndB : B.instructions.Nodup) (hdef : (B.execA32 ext c0).2 p ≠ none) (hop : (B.pool p).op = .a32SetCpsrNZCVRaw) :
    FlagsWalked ext B c0 P (p :: later) (flagsVisit st p) := by
  have hop' : (st.block.pool p).op = .a32SetCpsrNZCVRaw := (congrArg Prod.fst h.code_self).trans hop
  rw [h.outcome hndB] at hdef
  obtain ⟨x, hW⟩ := execA32Inst_setCpsrNZCVRaw ext hop hdef
  have hvisit : flagsVisit st p =
      { st with
        block := if (!st.cFlag.hasValueRequest && st.nzcv.setNotRequired) = true then st.block.invalidate p
          else st.block
        nzcv := ⟨true⟩, nzcvq := ⟨false⟩, nz := ⟨true⟩, cFlag := .notRequired } := by
    cases hreq : st.cFlag.hasValueRequest <;>
      simp [flagsVisit, flagsStep, hop', doSetValueless, hreq]
  rw [hvisit]
  refine h.flagWrite (h.visitEdit.invalidateIf _) (h.edit_invalidateIf _ h.code_self) ?_
    (fun hreq => absurd hreq Bool.false_ne_true)
    (h.gePending_of_code rfl fun hreq => h.code_invalidateIf _ _ _ (h.gePending hreq).1) hW _
    (fun b' d o' hcode ho => h.stepA32_invalidateIf hb hW _ h.code_self hcode d ho) (fun d' hag => ?_)
    fun b' c' o' hc => ⟨fun hreq => .inl ⟨h.code_dropped_c hc rfl rfl (h.code_invalidateIf _ _) hreq, ?_⟩,
      fun hreq => (hc.geRequest hreq).kept (h.code_invalidateIf _ _ _ (h.gePending hreq).1) (fun hs => ?_) rfl _⟩
  · rintro r _ (⟨hC, -⟩ | hge)
    · exact absurd hC Bool.false_ne_true
    · exact .inr hge
  · obtain ⟨hr, hn, hz, hc, hv, hq, hge⟩ := hag
    cases hreq : st.cFlag.hasValueRequest <;> cases hinv : st.nzcv.setNotRequired <;> constructor <;>
      simp_all [FlagsState.nzLive, FlagsState.cLive, FlagsState.vLive, FlagsState.qLive, FlagsState.geLive,
        A32Context.registers, A32Context.setNZCVWord]
  · -- the setter is kept when a `GetCFlag` is pending
    simp [hreq, A32Context.setNZCVWord]
  · cases (!st.cFlag.hasValueRequest && st.nzcv.setNotRequired) <;> simpa [A32Context.setNZCVWord] using hs

/-- `SetCpsrNZCVQ`: as `SetCpsrNZCVRaw`, with Q. -/
theorem FlagsWalked.setCpsrNZCVQ (h : FlagsWalked ext B c0 (P ++ [p]) later st) (hb : B.ArgsEarlier)
    (hndB : B.instructions.Nodup) (hdef : (B.execA32 ext c0).2 p ≠ none) (hop : (B.pool p).op = .a32SetCpsrNZCVQ) :
    FlagsWalked ext B c0 P (p :: later) (flagsVisit st p) := by
  have hop' : (st.block.pool p).op = .a32SetCpsrNZCVQ := (congrArg Prod.fst h.code_self).trans hop
  rw [h.outcome hndB] at hdef
  obtain ⟨x, hW⟩ := execA32Inst_setCpsrNZCVQ ext hop hdef
  have hvisit : flagsVisit st p =
      { st with
        block := if (!st.cFlag.hasValueRequest && st.nzcvq.setNotRequired) = true then st.block.invalidate p
          else st.block
        nzcvq := ⟨true⟩, nzcv := ⟨true⟩, nz := ⟨true⟩, cFlag := .notRequired } := by
    cases hreq : st.cFlag.hasValueRequest <;>
      simp [flagsVisit, flagsStep, hop', doSetValueless, hreq]
  rw [hvisit]
  refine h.flagWrite (h.visitEdit.invalidateIf _) (h.edit_invalidateIf _ h.code_self) ?_
    (fun hreq => absurd hreq Bool.false_ne_true)
    (h.gePending_of_code rfl fun hreq => h.code_invalidateIf _ _ _ (h.gePending hreq).1) hW _
    (fun b' d o' hcode ho => h.stepA32_invalidateIf hb hW _ h.code_self hcode d ho) (fun d' hag => ?_)
    fun b' c' o' hc => ⟨fun hreq => .inl ⟨h.code_dropped_c hc rfl rfl (h.code_invalidateIf _ _) hreq, ?_⟩,
      fun hreq => (hc.geRequest hreq).kept (h.code_invalidateIf _ _ _ (h.gePending hreq).1) (fun hs => ?_) rfl _⟩
  · rintro r _ (⟨hC, -⟩ | hge)
    · exact absurd hC Bool.false_ne_true
    · exact .inr hge
  · obtain ⟨hr, hn, hz, hc, hv, hq, hge⟩ := hag
    cases hreq : st.cFlag.hasValueRequest <;> cases hinv : st.nzcvq.setNotRequired <;> constructor <;>
      simp_all [FlagsState.nzLive, FlagsState.cLive, FlagsState.vLive, FlagsState.qLive, FlagsState.geLive,
        A32Context.registers, A32Context.setNZCVWord]
  · simp [hreq, A32Context.setNZCVWord]
  · cases (!st.cFlag.hasValueRequest && st.nzcvq.setNotRequired) <;> simpa [A32Context.setNZCVWord] using hs

/-- `SetGEFlags`: a pending `GetGEFlags` becomes an identity of the value written here, and the instruction is
invalidated when GE is overwritten later. -/
theorem FlagsWalked.setGEFlags (h : FlagsWalked ext B c0 (P ++ [p]) later st) (hb : B.ArgsEarlier)
    (hndB : B.instructions.Nodup) (hdef : (B.execA32 ext c0).2 p ≠ none) (hop : (B.pool p).op = .a32SetGEFlags) :
    FlagsWalked ext B c0 P (p :: later) (flagsVisit st p) := by
  have hop' : (st.block.pool p).op = .a32SetGEFlags := (congrArg Prod.fst h.code_self).trans hop
  have hargs' : (st.block.pool p).args 0 = (B.pool p).args 0 := congrFun (congrArg Prod.snd h.code_self) 0
  rw [h.outcome hndB] at hdef
  obtain ⟨x, hx, hW⟩ := execA32Inst_setGEFlags ext hop hdef
  have hpl := h.not_mem_later (List.mem_append_right P List.mem_cons_self)
  have hgp : st.ge.hasValueRequest = true → p ≠ st.ge.valueRequest := fun hc hp => hpl (hp ▸ (h.gePending hc).1)
  have hvisit : flagsVisit st p =
      { st with
        block := if st.ge.setNotRequired = true then
            (if st.ge.hasValueRequest = true then st.block.replaceUsesWith st.ge.valueRequest ((B.pool p).args 0)
              else st.block).invalidate p
          else if st.ge.hasValueRequest = true then st.block.replaceUsesWith st.ge.valueRequest ((B.pool p).args 0)
            else st.block
        ge := { st.ge with hasValueRequest := false, setNotRequired := true } } := by
    simp only [flagsVisit, flagsStep, hop', doSet, hargs', Bool.false_eq_true, if_false]
  have hb₁ : (if st.ge.hasValueRequest = true then st.block.replaceUsesWith st.ge.valueRequest ((B.pool p).args 0)
      else st.block).code p = B.code p := by
    rw [Block.code_ite_replaceUsesWith, if_neg fun hc => hgp hc.1 hc.2]
    exact h.code_self
  have hcodeC : st.cFlag.hasValueRequest = true →
      (flagsVisit st p).block.code st.cFlag.valueRequest = st.block.code st.cFlag.valueRequest := fun hreq => by
    rw [hvisit]
    dsimp only
    rw [h.code_invalidateIf _ _ _ (h.cPending hreq).1, Block.code_ite_replaceUsesWith,
      if_neg fun hc => h.pending_ne hreq hc.1 hc.2.symm]
  rw [hvisit] at hcodeC ⊢
  refine h.flagWrite ((h.visitEdit.resolve _ _ _ (fun hc => ⟨(h.gePending hc).1, .inr ⟨hc, rfl⟩⟩)
      fun t ht => List.mem_append_left _ (h.args_mem hb 0 t ht)).invalidateIf _) (h.edit_invalidateIf _ hb₁) ?_
    (h.cPending_of_code rfl hcodeC) (fun hreq => absurd hreq Bool.false_ne_true) hW _
    (fun b' d o' hcode ho => h.stepA32_invalidateIf hb hW _ hb₁ hcode d ho) (fun d' hag => ?_)
    fun b' c' o' hc => ⟨fun hreq => (hc.cRequest hreq).kept (hcodeC hreq) (fun hs => ?_) rfl _, fun hreq => ?_⟩
  · rintro r _ (hC | ⟨hge, -⟩)
    · exact .inl hC
    · exact absurd hge Bool.false_ne_true
  · obtain ⟨hr, hn, hz, hc, hv, hq, hge⟩ := hag
    cases hinv : st.ge.setNotRequired <;> constructor <;>
      simp_all [FlagsState.nzLive, FlagsState.cLive, FlagsState.vLive, FlagsState.qLive, FlagsState.geLive,
        A32Context.registers]
  · cases st.ge.setNotRequired <;> simpa using hs
  · -- the `GetGEFlags` that was pending is now an identity of the value written here
    have hcg := hc.code _ (List.mem_cons_of_mem p (h.gePending hreq).1) (by
      rintro (⟨hC, hg⟩ | ⟨hge, -⟩)
      · exact h.pending_ne hC hreq hg
      · exact absurd hge Bool.false_ne_true)
    dsimp only at hcg
    rw [h.code_invalidateIf _ _ _ (h.gePending hreq).1, Block.code_ite_replaceUsesWith, if_pos ⟨hreq, rfl⟩] at hcg
    refine .inr ⟨_, hcg, h.args_not_mem_later hb 0, ?_⟩
    rw [h.evalArg_update hb hc.outcomes, hx]

/-- `GetGEFlags`: a pending getter becomes an identity of this one, which becomes the pending getter. -/
theorem FlagsWalked.getGEFlags (h : FlagsWalked ext B c0 (P ++ [p]) later st) (hb : B.ArgsEarlier)
    (hop : (B.pool p).op = .a32GetGEFlags) : FlagsWalked ext B c0 P (p :: later) (flagsVisit st p) := by
  have hop' : (st.block.pool p).op = .a32GetGEFlags := (congrArg Prod.fst h.code_self).trans hop
  have hvisit : flagsVisit st p =
      { st with block := (doGet st.block st.ge p).1, ge := (doGet st.block st.ge p).2 } := by
    simp only [flagsVisit, flagsStep, hop', Bool.false_eq_true, if_false]
  rw [hvisit]
  simp only [doGet]
  have hpl := h.not_mem_later (List.mem_append_right P List.mem_cons_self)
  have hg : st.ge.hasValueRequest = true → st.ge.valueRequest ∈ later := fun hc => (h.gePending hc).1
  have hgp : st.ge.hasValueRequest = true → p ≠ st.ge.valueRequest := fun hc hp => hpl (hp ▸ hg hc)
  have hcodep : (if st.ge.hasValueRequest = true then st.block.replaceUsesWith st.ge.valueRequest (.inst p)
      else st.block).code p = B.code p := by
    rw [Block.code_ite_replaceUsesWith, if_neg fun hc => hgp hc.1 hc.2]
    exact h.code_self
  show FlagsWalked ext B c0 P (p :: ([] ++ later)) _
  apply h.step
  · exact h.visitEdit.resolve _ _ _ (fun hc => ⟨hg hc, .inr ⟨hc, rfl⟩⟩) fun t ht => by cases ht; simp
  · intro r hr
    rw [List.mem_singleton.mp hr]
    exact .inl ⟨h.mem, hcodep⟩
  · rintro r hr (hC | ⟨-, rfl⟩)
    · exact .inl hC
    · exact absurd hr hpl
  · intro hC
    refine ⟨List.mem_cons_of_mem p (h.cPending hC).1, ?_⟩
    change ((if st.ge.hasValueRequest = true then _ else _ : Block).code _).1 = _
    rw [Block.code_ite_replaceUsesWith, if_neg fun hc => h.pending_ne hC hc.1 hc.2.symm]
    exact (h.cPending hC).2
  · intro _
    exact ⟨List.mem_cons_self, (congrArg Prod.fst hcodep).trans hop⟩
  · intro b' c' o' hc hcode
    have hres := hc.geRequest rfl
    have hstep : b'.stepA32 ext (c', o') p =
        (c', Function.update o' p (some (.plain (.u32 (frontRun ext B c0 P).1.ge)))) := by
      rcases hres with ⟨hcp, hsame⟩ | ⟨v, hcp, -, hv⟩
      · rw [h.stepA32_of_code hb (hcp.trans hcodep) c' hc.outcomes, execA32Inst_getGEFlags ext hop]
        dsimp only at hsame ⊢
        rw [hsame]
      · have hargs0 : (b'.pool p).args 0 = v := by
          have h₂ : (b'.pool p).args = Function.update (fun _ => Value.void) 0 v := congrArg Prod.snd hcp
          rw [h₂, Function.update_self]
        rw [Block.stepA32, execA32Inst_identity ext (congrArg Prod.fst hcp)]
        dsimp only
        rw [hargs0, map_plain_of_map_value hv]
    have hfront : frontRun ext B c0 (P ++ [p]) = ((frontRun ext B c0 P).1,
        Function.update (frontRun ext B c0 P).2 p (some (.plain (.u32 (frontRun ext B c0 P).1.ge)))) := by
      rw [frontRun_snoc, Block.stepA32, execA32Inst_getGEFlags ext hop]
    simp only [List.foldl_cons, List.foldl_nil, hstep, hfront]
    refine ⟨hcode, hc.agree.mono id id id id id, fun r hr => ?_, fun hreq => ?_, fun hreq => ?_⟩
    · by_cases hrp : r = p
      · rw [hrp, Function.update_self, Function.update_self]
      · rw [Function.update_of_ne hrp, Function.update_of_ne hrp, hc.outcomes r hr]
    · have hres := hc.cRequest hreq
      dsimp only at hres
      rw [Block.code_ite_replaceUsesWith, if_neg fun hc => h.pending_ne hreq hc.1 hc.2.symm] at hres
      exact hres.update id _
    · -- the getter that was pending is now an identity of `p`
      have hcg := hc.code _ (List.mem_cons_of_mem p (hg hreq)) (by
        rintro (⟨hC, hgg⟩ | ⟨-, hgp'⟩)
        · exact h.pending_ne hC hreq hgg
        · exact hgp hreq hgp'.symm)
      rw [Block.code_ite_replaceUsesWith, if_pos ⟨hreq, rfl⟩] at hcg
      refine .inr ⟨.inst p, hcg, fun t ht => ?_, ?_⟩
      · cases ht
        exact hpl
      · simp only [evalArg, Function.update_self, Option.map_some]
        rfl

/-- An argument of the visited instruction, read in outcomes that agree with the original ones after it. -/
theorem FlagsWalked.evalArg_front (h : FlagsWalked ext B c0 (P ++ [p]) later st) (hb : B.ArgsEarlier)
    {o' : InstRef → Option Outcome} (ho : ∀ r ∈ B.instructions, o' r = (frontRun ext B c0 (P ++ [p])).2 r) (k : Fin 4) :
    evalArg o' ((B.pool p).args k) = frontArgs ext B c0 P p k := by
  obtain ⟨S, hS⟩ := h.exists_suffix
  refine evalArg_congr fun t ht => ?_
  have htP := h.args_mem hb k t ht
  have htp : t ≠ p := fun htp => h.not_mem_front (htp ▸ htP)
  rw [ho t (by rw [hS]; exact List.mem_append_left _ htP), frontRun_snoc, Block.stepA32]
  exact Function.update_of_ne htp _ _

/-- `SetCpsrNZCV` with a pending `GetCFlag`: the `GetCFlagFromNZCV` of its value inserted after it computes the C it
writes, and the getter becomes an identity of it. The walk stands before the setter again, with no getter of C
pending. -/
theorem FlagsWalked.insertCFlagFromNZCV (h : FlagsWalked ext B c0 (P ++ [p]) later st) (hb : B.ArgsEarlier)
    (hndB : B.instructions.Nodup) (hdef : (B.execA32 ext c0).2 p ≠ none) (hop : (B.pool p).op = .a32SetCpsrNZCV)
    (hreq : st.cFlag.hasValueRequest = true) :
    FlagsWalked ext B c0 (P ++ [p]) (st.block.freshRef :: later) (flagsStep st p).1 := by
  have hop' : (st.block.pool p).op = .a32SetCpsrNZCV := (congrArg Prod.fst h.code_self).trans hop
  have hargs' : (st.block.pool p).args 0 = (B.pool p).args 0 := congrFun (congrArg Prod.snd h.code_self) 0
  rw [h.outcome hndB] at hdef
  obtain ⟨f, hf, hW⟩ := execA32Inst_setCpsrNZCV ext hop hdef
  have hstep : (flagsStep st p).1 =
      { st with
        block := (st.block.insertAfter p .getCFlagFromNZCV [(B.pool p).args 0]).1.replaceUsesWith
          st.cFlag.valueRequest (.inst st.block.freshRef)
        cFlag := { st.cFlag with hasValueRequest := false } } := by
    simp only [flagsStep, hop', hreq, if_true, hargs', insertAfter_snd]
  rw [hstep]
  have hg := h.cPending hreq
  have hfresh : st.block.freshRef ∉ (P ++ [p]) ++ later := h.instructions ▸ freshRef_not_mem st.block
  have hnl : st.block.freshRef ∉ later := fun hn => hfresh (List.mem_append_right _ hn)
  have hgn : st.cFlag.valueRequest ≠ st.block.freshRef := fun he => hnl (he ▸ hg.1)
  have hargsP : ∀ (k : Fin 4) t, [(B.pool p).args 0].getD k.val .void = .inst t → t ∈ P := by
    rintro ⟨_ | k, hk⟩ t ht
    · exact h.args_mem hb 0 t ht
    · simp at ht
  have he := (h.visitEdit.insertAfter .getCFlagFromNZCV [(B.pool p).args 0] hargsP).resolve
    st.cFlag.hasValueRequest st.cFlag.valueRequest (.inst st.block.freshRef) (fun _ => ⟨hg.1, .inl ⟨hreq, rfl⟩⟩)
    (fun t ht => by cases ht; simp)
  rw [if_pos hreq] at he
  have hkeep : ∀ r, r ≠ st.cFlag.valueRequest → r ≠ st.block.freshRef →
      ((st.block.insertAfter p .getCFlagFromNZCV [(B.pool p).args 0]).1.replaceUsesWith st.cFlag.valueRequest
        (.inst st.block.freshRef)).code r = st.block.code r := fun r hrg hrn => by
    rw [Block.code_replaceUsesWith, if_neg hrg, code_insertAfter, if_neg hrn]
  have hcoden : ((st.block.insertAfter p .getCFlagFromNZCV [(B.pool p).args 0]).1.replaceUsesWith
      st.cFlag.valueRequest (.inst st.block.freshRef)).code st.block.freshRef =
        (.getCFlagFromNZCV, fun k => [(B.pool p).args 0].getD k.val .void) := by
    rw [Block.code_replaceUsesWith, if_neg hgn.symm, code_insertAfter, if_pos rfl]
  have hcodeg : ((st.block.insertAfter p .getCFlagFromNZCV [(B.pool p).args 0]).1.replaceUsesWith
      st.cFlag.valueRequest (.inst st.block.freshRef)).code st.cFlag.valueRequest =
        (.identity, Function.update (fun _ => .void) 0 (.inst st.block.freshRef)) := by
    rw [Block.code_replaceUsesWith, if_pos rfl]
  have hfront : (frontRun ext B c0 (P ++ [p])).1.c = f.getLsbD 1 := by
    rw [frontRun_snoc]
    show (execA32Inst ext (frontRun ext B c0 P).1 (frontArgs ext B c0 P p) p (B.pool p)).1.c = _
    rw [hW]
  refine
    { front := h.front
      instructions := by rw [he.instructions]; simp
      nodup := he.nodup
      argsEarlier := he.argsEarlier
      covers := fun r hr => ?_
      code := fun r hr => ?_
      edits := fun r hr => ?_
      cPending := fun hc => absurd hc Bool.false_ne_true
      gePending := fun hge => ?_
      run := fun b' c' o' hc => ?_ }
  · have := h.covers r hr
    simp only [List.mem_append, List.mem_cons] at this ⊢
    tauto
  · rw [hkeep r (fun hrg => h.not_mem_later hr (hrg ▸ hg.1)) fun hrn => hfresh (hrn ▸ List.mem_append_left _ hr)]
    exact h.code r hr
  · rcases List.mem_cons.mp hr with rfl | hr
    · exact .inr (by rw [show (_ : Block).pool _ = _ from rfl, show Inst.op _ = _ from congrArg Prod.fst hcoden]; rfl)
    by_cases hrg : r = st.cFlag.valueRequest
    · subst hrg
      exact .inr (by rw [show Inst.op _ = _ from congrArg Prod.fst hcodeg]; rfl)
    · have hcode := hkeep r hrg fun hrn => hnl (hrn ▸ hr)
      rw [hcode, show Inst.op _ = (st.block.pool r).op from congrArg Prod.fst hcode]
      exact h.edits r hr
  · obtain ⟨hgl, hgop⟩ := h.gePending hge
    have hcode := hkeep _ (h.pending_ne hreq hge) fun hrn => hnl (hrn ▸ hgl)
    exact ⟨List.mem_cons_of_mem _ hgl, (congrArg Prod.fst hcode).trans hgop⟩
  · -- the new instruction is pending in neither state: the completing block has it as inserted
    have hn : b'.code st.block.freshRef = (.getCFlagFromNZCV, fun k => [(B.pool p).args 0].getD k.val .void) := by
      refine (hc.code _ List.mem_cons_self ?_).trans hcoden
      rintro (⟨hC, -⟩ | ⟨hge, hgn'⟩)
      · exact Bool.false_ne_true hC
      · exact hnl (hgn' ▸ (h.gePending hge).1)
    have h0 : (evalArg o' ((b'.pool st.block.freshRef).args 0)).map Outcome.value = some (.nzcv f) := by
      rw [show (b'.pool st.block.freshRef).args 0 = (B.pool p).args 0 from congrFun (congrArg Prod.snd hn) 0,
        h.evalArg_front hb hc.outcomes 0]
      exact hf
    have hstepn : b'.stepA32 ext (c', o') st.block.freshRef =
        (c', Function.update o' st.block.freshRef (some (.plain (.u1 (f.getLsbD 1))))) := by
      rw [Block.stepA32, execA32Inst_getCFlagFromNZCV ext (a := fun k => evalArg o' ((b'.pool st.block.freshRef).args k))
        (congrArg Prod.fst hn) h0]
    have hnB : ∀ r ∈ B.instructions, r ≠ st.block.freshRef := fun r hr hrn => hfresh (hrn ▸ h.covers r hr)
    rw [List.foldl_cons, hstepn]
    refine h.run b' c' _
      { code := fun r hr hpr => ?_
        agree := hc.agree.mono id id id id id
        outcomes := fun r hr => by rw [Function.update_of_ne (hnB r hr), hc.outcomes r hr]
        cRequest := fun _ => .inr ⟨.inst st.block.freshRef, ?_, fun t ht => by cases ht; exact hnl, ?_⟩
        geRequest := fun hge => ?_ }
    · refine (hc.code r (List.mem_cons_of_mem _ hr) ?_).trans (hkeep r (fun hrg => hpr (.inl ⟨hreq, hrg⟩))
        fun hrn => hnl (hrn ▸ hr))
      rintro (⟨hC, -⟩ | hge)
      · exact Bool.false_ne_true hC
      · exact hpr (.inr hge)
    · refine (hc.code _ (List.mem_cons_of_mem _ hg.1) ?_).trans hcodeg
      rintro (⟨hC, -⟩ | ⟨hge, hgg⟩)
      · exact Bool.false_ne_true hC
      · exact h.pending_ne hreq hge hgg.symm
    · simp only [evalArg, Function.update_self, Option.map_some, hfront]
      rfl
    · exact (hc.geRequest hge).kept (hkeep _ (h.pending_ne hreq hge) fun hrn => hnl (hrn ▸ (h.gePending hge).1))
        id rfl _

/-- `SetCpsrNZCV` with a pending `GetCFlag`: the insertion, then the visit of the setter with no getter of C pending. -/
theorem FlagsWalked.setCpsrNZCV_request (h : FlagsWalked ext B c0 (P ++ [p]) later st) (hb : B.ArgsEarlier)
    (hndB : B.instructions.Nodup) (hdef : (B.execA32 ext c0).2 p ≠ none) (hop : (B.pool p).op = .a32SetCpsrNZCV)
    (hreq : st.cFlag.hasValueRequest = true) :
    FlagsWalked ext B c0 P (p :: st.block.freshRef :: later) (flagsVisit st p) := by
  have hop' : (st.block.pool p).op = .a32SetCpsrNZCV := (congrArg Prod.fst h.code_self).trans hop
  have hagain : (flagsStep st p).2 = true := by
    simp only [flagsStep, hop', hreq, if_true]
  have hvisit : flagsVisit st p = (flagsStep (flagsStep st p).1 p).1 := by
    simp only [flagsVisit, hagain, if_true]
  rw [hvisit]
  refine (h.insertCFlagFromNZCV hb hndB hdef hop hreq).setCpsrNZCV hb hndB hdef hop ?_
  simp only [flagsStep, hop', hreq, if_true]

/-- An argument of the visited instruction refers into the front. -/
theorem FlagsWalked.refersInto_arg (h : FlagsWalked ext B c0 (P ++ [p]) later st) (hb : B.ArgsEarlier) (k : Fin 4) :
    ((B.pool p).args k).refersInto P = true := by
  cases hk : (B.pool p).args k
  case inst t => simpa [Value.refersInto] using h.args_mem hb k t hk
  all_goals rfl

/-- Following identities from an argument of the visited instruction reads only the front, where the walk's block has
the original code. -/
theorem FlagsWalked.getInstRecursive_arg (h : FlagsWalked ext B c0 (P ++ [p]) later st) (hb : B.ArgsEarlier)
    (k : Fin 4) : ((B.pool p).args k).getInstRecursive st.block = ((B.pool p).args k).getInstRecursive B := by
  obtain ⟨S, hS⟩ := h.exists_suffix
  have htake : B.instructions.take P.length = P := by simp [hS]
  have hstab := fun n hn => (hb.resolveAux P.length _ (htake ▸ h.refersInto_arg hb k) n hn).1
  have hcongr : ∀ n, Value.resolveAux st.block.pool n ((B.pool p).args k) =
      Value.resolveAux B.pool n ((B.pool p).args k) := fun n =>
    Value.resolveAux_congr (fun r (hr : r ∈ P) => congrArg Prod.fst (h.code r (List.mem_append_left _ hr)))
      (fun r hr => congrFun (congrArg Prod.snd (h.code r (List.mem_append_left _ hr))) 0)
      (fun r hr _ u hu => hb.mem_of_arg_of_prefix hS hr hu) n _ fun t ht => h.args_mem hb k t ht
  have hlen : P.length ≤ st.block.fuel := by
    rw [Block.fuel, h.instructions]
    simp only [List.length_append]
    omega
  have hlenB : P.length ≤ B.fuel := by
    rw [Block.fuel, hS]
    simp only [List.length_append]
    omega
  simp only [Value.getInstRecursive, Value.resolve, hcongr, hstab _ hlen, hstab _ hlenB]

/-- The carry of a `SetCpsrNZC` read, through identities, from a `GetCFlag` with no instruction between them that may
write C is the C of the context the `SetCpsrNZC` runs in. -/
theorem FlagsWalked.carry_of_getCFlag (h : FlagsWalked ext B c0 (P ++ [p]) later st) (hb : B.ArgsEarlier)
    (hndB : B.instructions.Nodup) (hkept : CarryKept B) (hext : ExtRespectsTable ext B)
    (hop : (B.pool p).op = .a32SetCpsrNZC) {g : InstRef} (hg : ((B.pool p).args 1).getInstRecursive B = some g)
    (hgop : (B.pool g).op = .a32GetCFlag) :
    (frontArgs ext B c0 P p 1).map Outcome.value = some (.u1 (frontRun ext B c0 P).1.c) := by
  obtain ⟨S, hS⟩ := h.exists_suffix
  have hres : ((B.pool p).args 1).resolve B = .inst g := by
    unfold Value.getInstRecursive at hg
    split at hg <;> simp_all
  obtain ⟨A, M, hP⟩ := List.append_of_mem ((hb.resolve_arg hS 1).2 g hres)
  have hL : B.instructions = A ++ g :: M ++ p :: S := by rw [hS, hP]
  have hM := hkept.mid hL hop hg hgop
  have hnd : (A ++ g :: M).Nodup := hP ▸ (List.nodup_append.mp (hS ▸ hndB)).1
  have hgM : g ∉ M := (List.nodup_cons.mp (List.nodup_append.mp hnd).2.1).1
  -- the `GetCFlag` reads C, and nothing between it and the `SetCpsrNZC` writes C
  have hrun : frontRun ext B c0 P = M.foldl (B.stepA32 ext) (B.stepA32 ext (frontRun ext B c0 A) g) := by
    rw [frontRun, hP, List.foldl_append, List.foldl_cons]
    rfl
  have hgrun : B.stepA32 ext (frontRun ext B c0 A) g = ((frontRun ext B c0 A).1,
      Function.update (frontRun ext B c0 A).2 g (some (.plain (.u1 (frontRun ext B c0 A).1.c)))) := by
    rw [Block.stepA32, execA32Inst_getCFlag ext hgop]
  have hMB : ∀ r ∈ M, r ∈ B.instructions := fun r hr => by rw [hL]; simp [hr]
  have hc : (frontRun ext B c0 P).1.c = (frontRun ext B c0 A).1.c := by
    rw [hrun, Block.foldl_stepA32_c ext B hM (fun r hr hin => hext.flags_eq r (hMB r hr) (.inl hin)), hgrun]
  have hog : (frontRun ext B c0 P).2 g = some (.plain (.u1 (frontRun ext B c0 A).1.c)) := by
    rw [hrun, Block.foldl_stepA32_snd_of_not_mem ext B hgM, hgrun]
    exact Function.update_self _ _ _
  have hv : (evalArg (frontRun ext B c0 P).2 (((B.pool p).args 1).resolve B)).map Outcome.value =
      (evalArg (frontRun ext B c0 P).2 ((B.pool p).args 1)).map Outcome.value :=
    Block.value_resolve ext hndB hb hS _ (h.refersInto_arg hb 1)
  rw [hres, evalArg, hog, Option.map_some] at hv
  rw [frontArgs, ← hv, hc]
  rfl

/-- `SetCpsrNZC` with a pending `GetCFlag`: the getter becomes an identity of the carry, which is the C the setter
writes. The walk stands before the setter with no getter of C pending. -/
theorem FlagsWalked.resolveCarry (h : FlagsWalked ext B c0 (P ++ [p]) later st) (hb : B.ArgsEarlier)
    (hndB : B.instructions.Nodup) (hdef : (B.execA32 ext c0).2 p ≠ none) (hop : (B.pool p).op = .a32SetCpsrNZC)
    (h0 : (B.pool p).args 0 ≠ .nzcvMarker) :
    FlagsWalked ext B c0 (P ++ [p]) later
      { st with
        block := if st.cFlag.hasValueRequest = true then
            st.block.replaceUsesWith st.cFlag.valueRequest ((B.pool p).args 1)
          else st.block
        cFlag := { st.cFlag with hasValueRequest := false } } := by
  rw [h.outcome hndB] at hdef
  obtain ⟨f, carry, -, hcarry, hW⟩ := execA32Inst_setCpsrNZC ext hop h0 hdef
  have hg : st.cFlag.hasValueRequest = true → st.cFlag.valueRequest ∈ later := fun hc => (h.cPending hc).1
  have he := h.visitEdit.resolve st.cFlag.hasValueRequest st.cFlag.valueRequest ((B.pool p).args 1)
    (fun hc => ⟨hg hc, .inl ⟨hc, rfl⟩⟩) fun t ht => List.mem_append_left _ (h.args_mem hb 1 t ht)
  have hkeep : ∀ r, (st.cFlag.hasValueRequest = true → r ≠ st.cFlag.valueRequest) →
      (if st.cFlag.hasValueRequest = true then st.block.replaceUsesWith st.cFlag.valueRequest ((B.pool p).args 1)
        else st.block).code r = st.block.code r := fun r hr => by
    rw [Block.code_ite_replaceUsesWith, if_neg fun hc => hr hc.1 hc.2]
  have hfront : (frontRun ext B c0 (P ++ [p])).1.c = carry := by
    rw [frontRun_snoc]
    show (execA32Inst ext (frontRun ext B c0 P).1 (frontArgs ext B c0 P p) p (B.pool p)).1.c = _
    rw [hW]
  refine
    { front := h.front
      instructions := by rw [Block.instructions_ite_replaceUsesWith, h.instructions]
      nodup := by rw [Block.instructions_ite_replaceUsesWith]; exact h.nodup
      argsEarlier := he.argsEarlier
      covers := h.covers
      code := fun r hr => (hkeep r fun hc hrg => h.not_mem_later hr (hrg ▸ hg hc)).trans (h.code r hr)
      edits := fun r hr => ?_
      cPending := fun hc => absurd hc Bool.false_ne_true
      gePending := fun hge => ?_
      run := fun b' c' o' hc => h.run b' c' o' ?_ }
  · -- behind `p`: the original code, or the resolved getter
    by_cases hpr : st.Pending r
    · rcases he.pendL r hr hpr with hsame | hid
      · rw [hsame, show Inst.op _ = (st.block.pool r).op from congrArg Prod.fst hsame]
        exact h.edits r hr
      · exact .inr (by rw [show Inst.op _ = _ from hid]; rfl)
    · have hsame := he.codeL r hr hpr
      rw [hsame, show Inst.op _ = (st.block.pool r).op from congrArg Prod.fst hsame]
      exact h.edits r hr
  · obtain ⟨hgl, hgop⟩ := h.gePending hge
    exact ⟨hgl, (congrArg Prod.fst (hkeep _ fun hc => h.pending_ne hc hge)).trans hgop⟩
  · have hres := fun hge => hc.geRequest hge
    refine
      { code := fun r hr hpr => (hc.code r hr ?_).trans (he.codeL r hr hpr)
        agree := hc.agree.mono id id id id id
        outcomes := hc.outcomes
        cRequest := fun hreq => .inr ⟨(B.pool p).args 1, ?_, h.args_not_mem_later hb 1, ?_⟩
        geRequest := fun hge => ?_ }
    · rintro (⟨hC, -⟩ | hge)
      · exact Bool.false_ne_true hC
      · exact hpr (.inr hge)
    · refine (hc.code _ (hg hreq) ?_).trans ?_
      · rintro (⟨hC, -⟩ | ⟨hge, hgg⟩)
        · exact Bool.false_ne_true hC
        · exact h.pending_ne hreq hge hgg.symm
      · exact (Block.code_ite_replaceUsesWith _ _ _ _ _).trans (if_pos ⟨hreq, rfl⟩)
    · rw [h.evalArg_front hb hc.outcomes 1, map_value_of_argU1 hcarry, hfront]
    · have := hres hge
      rwa [show ((if st.cFlag.hasValueRequest = true then _ else _ : Block)).code st.ge.valueRequest = _ from
        hkeep _ fun hc => h.pending_ne hc hge] at this

/-- An argument of the visited instruction, read in outcomes that agree with the original ones before it. -/
theorem FlagsWalked.evalArg_of_front (h : FlagsWalked ext B c0 (P ++ [p]) later st) (hb : B.ArgsEarlier)
    {o' : InstRef → Option Outcome} (ho : ∀ r ∈ B.instructions, o' r = (frontRun ext B c0 P).2 r) (k : Fin 4) :
    evalArg o' ((B.pool p).args k) = frontArgs ext B c0 P p k := by
  obtain ⟨S, hS⟩ := h.exists_suffix
  exact evalArg_congr fun t ht => ho t (by rw [hS]; exact List.mem_append_left _ (h.args_mem hb k t ht))

/-- The end of the chain of identities from an argument of the visited instruction lies in the front. -/
theorem FlagsWalked.getInstRecursive_mem (h : FlagsWalked ext B c0 (P ++ [p]) later st) (hb : B.ArgsEarlier)
    {k : Fin 4} {g : InstRef} (hg : ((B.pool p).args k).getInstRecursive B = some g) :
    ((B.pool p).args k).resolve B = .inst g ∧ g ∈ P := by
  obtain ⟨S, hS⟩ := h.exists_suffix
  have hres : ((B.pool p).args k).resolve B = .inst g := by
    unfold Value.getInstRecursive at hg
    split at hg <;> simp_all
  exact ⟨hres, (hb.resolve_arg hS k).2 g hres⟩

/-- `SetCpsrNZC` with no pending `GetCFlag` and a carry that is not the result of a `GetCFlag`: invalidated when N, Z
and C are all overwritten later, given the empty NZCV immediate when N and Z alone are. -/
theorem FlagsWalked.setCpsrNZC_kept (h : FlagsWalked ext B c0 (P ++ [p]) later st) (hb : B.ArgsEarlier)
    (hndB : B.instructions.Nodup) (hdef : (B.execA32 ext c0).2 p ≠ none) (hop : (B.pool p).op = .a32SetCpsrNZC)
    (h0 : (B.pool p).args 0 ≠ .nzcvMarker) (hreqC : st.cFlag.hasValueRequest = false)
    (hcfg : (!((B.pool p).args 1).isImmediate st.block &&
      (((B.pool p).args 1).getInstRecursive st.block).any fun g => (st.block.pool g).op = .a32GetCFlag) = false) :
    FlagsWalked ext B c0 P (p :: later) (flagsVisit st p) := by
  have hop' : (st.block.pool p).op = .a32SetCpsrNZC := (congrArg Prod.fst h.code_self).trans hop
  have hargs' : (st.block.pool p).args = (B.pool p).args := congrArg Prod.snd h.code_self
  rw [h.outcome hndB] at hdef
  obtain ⟨f, carry, -, hcarry, hW⟩ := execA32Inst_setCpsrNZC ext hop h0 hdef
  have hvisit : flagsVisit st p =
      { st with
        block := if (st.nz.setNotRequired && st.cFlag.setNotRequired) = true then st.block.invalidate p
          else if st.nz.setNotRequired = true then st.block.setArg p 0 .nzcvMarker
          else st.block
        nz := ⟨true⟩, cFlag := { st.cFlag with setNotRequired := true }, nzcv := ⟨false⟩, nzcvq := ⟨false⟩ } := by
    simp only [flagsVisit, flagsStep, hop', setCpsrNZC, hreqC, hargs', hcfg, Bool.false_eq_true, if_false]
  rw [hvisit]
  have hpl := h.not_mem_later (List.mem_append_right P List.mem_cons_self)
  have hcodeL : ∀ r ∈ later, (if (st.nz.setNotRequired && st.cFlag.setNotRequired) = true then
      st.block.invalidate p else if st.nz.setNotRequired = true then st.block.setArg p 0 .nzcvMarker
      else st.block).code r = st.block.code r := by
    intro r hr
    have hrp : r ≠ p := fun hrp => hpl (hrp ▸ hr)
    split
    · rw [Block.code_invalidate, if_neg hrp]
    · split
      · rw [Block.code_setArg, if_neg hrp]
      · rfl
  have he : VisitEdit st.block (if (st.nz.setNotRequired && st.cFlag.setNotRequired) = true then
      st.block.invalidate p else if st.nz.setNotRequired = true then st.block.setArg p 0 .nzcvMarker
      else st.block) st.Pending P later [] p := by
    split
    · exact h.visitEdit.invalidate
    · split
      · exact h.visitEdit.setArg 0 fun _ hv => Value.noConfusion hv
      · exact h.visitEdit
  have hedit : (p ∈ B.instructions ∧ (if (st.nz.setNotRequired && st.cFlag.setNotRequired) = true then
      st.block.invalidate p else if st.nz.setNotRequired = true then st.block.setArg p 0 .nzcvMarker
      else st.block).code p = B.code p) ∨ ((if (st.nz.setNotRequired && st.cFlag.setNotRequired) = true then
      st.block.invalidate p else if st.nz.setNotRequired = true then st.block.setArg p 0 .nzcvMarker
      else st.block).pool p).op.isFlagsEdit = true := by
    split
    · exact .inr (by rw [Block.op_invalidate, if_pos rfl]; rfl)
    · split
      · exact .inr (by rw [Block.op_setArg, hop']; rfl)
      · exact .inl ⟨h.mem, h.code_self⟩
  refine h.flagWrite he hedit (fun _ _ hr => hr) (fun hc => absurd (hreqC.symm.trans hc) Bool.false_ne_true)
    (h.gePending_of_code rfl fun hreq => hcodeL _ (h.gePending hreq).1) hW
    (fun d => if (st.nz.setNotRequired && st.cFlag.setNotRequired) = true then d
      else if st.nz.setNotRequired = true then { d with n := false, z := false, c := carry }
      else { d with n := f.getLsbD 3, z := f.getLsbD 2, c := carry })
    (fun b' d o' hcode ho => ?_) (fun d' hag => ?_)
    fun b' c' o' hc => ⟨fun hreq => absurd (hreqC.symm.trans hreq) Bool.false_ne_true,
      fun hreq => (hc.geRequest hreq).kept (hcodeL _ (h.gePending hreq).1) (fun hs => ?_) rfl _⟩
  · -- the instruction left at `p`: the setter, the setter with the empty NZCV immediate, or `Void`
    cases hnz : st.nz.setNotRequired <;> cases hcf : st.cFlag.setNotRequired <;>
      simp only [hnz, hcf, Bool.and_true, Bool.and_false, Bool.false_eq_true, if_true, if_false] at hcode ⊢
    · rw [h.stepA32_of_code hb (hcode.trans h.code_self) d ho, hW]
    · rw [h.stepA32_of_code hb (hcode.trans h.code_self) d ho, hW]
    · rw [Block.code_setArg, if_pos rfl] at hcode
      have hargs'' : (b'.pool p).args = Function.update (B.pool p).args 0 .nzcvMarker := by
        rw [← hargs']
        exact congrArg Prod.snd hcode
      have hcarry' : argU1 (fun k => evalArg o' ((b'.pool p).args k)) 1 = some carry := by
        show (evalArg o' ((b'.pool p).args 1)).bind _ = _
        rw [hargs'', Function.update_of_ne (by decide), h.evalArg_of_front hb ho 1]
        exact hcarry
      rw [Block.stepA32, execA32Inst_setCpsrNZC_marker ext ((congrArg Prod.fst hcode).trans hop')
        (by rw [hargs'', Function.update_self]) hcarry']
    · rw [Block.code_invalidate, if_pos rfl] at hcode
      rw [Block.stepA32, execA32Inst_void ext (congrArg Prod.fst hcode)]
  · obtain ⟨hr, hn, hz, hc, hv, hq, hge⟩ := hag
    cases hnz : st.nz.setNotRequired <;> cases hcf : st.cFlag.setNotRequired <;> constructor <;>
      simp_all [FlagsState.nzLive, FlagsState.cLive, FlagsState.vLive, FlagsState.qLive, FlagsState.geLive,
        A32Context.registers]
  · cases st.nz.setNotRequired <;> cases st.cFlag.setNotRequired <;> simpa using hs

/-- `SetCpsrNZC` with no pending `GetCFlag` and a carry that is the result of a `GetCFlag`: the carry is the C already
in the CPSR, so the instruction is invalidated and the `SetCpsrNZ` of its NZ value, inserted after it, writes what it
wrote. -/
theorem FlagsWalked.setCpsrNZC_fromGet (h : FlagsWalked ext B c0 (P ++ [p]) later st) (hb : B.ArgsEarlier)
    (hndB : B.instructions.Nodup) (hdef : (B.execA32 ext c0).2 p ≠ none) (hop : (B.pool p).op = .a32SetCpsrNZC)
    (h0 : (B.pool p).args 0 ≠ .nzcvMarker) (hkept : CarryKept B) (hext : ExtRespectsTable ext B)
    (hreqC : st.cFlag.hasValueRequest = false)
    (hcfg : (!((B.pool p).args 1).isImmediate st.block &&
      (((B.pool p).args 1).getInstRecursive st.block).any fun g => (st.block.pool g).op = .a32GetCFlag) = true) :
    FlagsWalked ext B c0 P (p :: ((st.block.invalidate p).freshRef :: later)) (flagsVisit st p) := by
  have hop' : (st.block.pool p).op = .a32SetCpsrNZC := (congrArg Prod.fst h.code_self).trans hop
  have hargs' : (st.block.pool p).args = (B.pool p).args := congrArg Prod.snd h.code_self
  rw [h.outcome hndB] at hdef
  obtain ⟨f, carry, hf, hcarry, hW⟩ := execA32Inst_setCpsrNZC ext hop h0 hdef
  have hcarryC : carry = (frontRun ext B c0 P).1.c := by
    simp only [Bool.and_eq_true, Option.any_eq_true, decide_eq_true_eq] at hcfg
    obtain ⟨-, g, hg, hgop⟩ := hcfg
    rw [h.getInstRecursive_arg hb 1] at hg
    have hgP := (h.getInstRecursive_mem hb hg).2
    have hgop' : (B.pool g).op = .a32GetCFlag :=
      (congrArg Prod.fst (h.code g (List.mem_append_left _ hgP))).symm.trans hgop
    have hc := h.carry_of_getCFlag hb hndB hkept hext hop hg hgop'
    rw [map_value_of_argU1 hcarry, Option.some.injEq, Val.u1.injEq] at hc
    exact hc
  have hstep₁ : flagsStep st p =
      ({ st with
          block := ((st.block.invalidate p).insertAfter p .a32SetCpsrNZ [(B.pool p).args 0]).1
          nzcvq := ⟨false⟩, nzcv := ⟨false⟩, nz := ⟨true⟩ }, true) := by
    simp only [flagsStep, hop', setCpsrNZC, hreqC, hargs', hcfg, Bool.false_eq_true, if_false, if_true]
  have hfresh : (st.block.invalidate p).freshRef ∉ (P ++ [p]) ++ later := by
    have := freshRef_not_mem (st.block.invalidate p)
    rwa [Block.instructions_invalidate, h.instructions] at this
  have hnl : (st.block.invalidate p).freshRef ∉ later := fun hn => hfresh (List.mem_append_right _ hn)
  have hpn : p ≠ (st.block.invalidate p).freshRef := fun hpn => hfresh (hpn ▸ by simp)
  have hcodep : ((st.block.invalidate p).insertAfter p .a32SetCpsrNZ [(B.pool p).args 0]).1.code p =
      (.void, fun _ => .void) := by
    rw [code_insertAfter, if_neg hpn, Block.code_invalidate, if_pos rfl]
  have hcoden : ((st.block.invalidate p).insertAfter p .a32SetCpsrNZ [(B.pool p).args 0]).1.code
      (st.block.invalidate p).freshRef = (.a32SetCpsrNZ, fun k => [(B.pool p).args 0].getD k.val .void) := by
    rw [code_insertAfter, if_pos rfl]
  have hkeep : ∀ r ∈ later,
      ((st.block.invalidate p).insertAfter p .a32SetCpsrNZ [(B.pool p).args 0]).1.code r = st.block.code r := by
    intro r hr
    rw [code_insertAfter, if_neg fun (hrn : r = (st.block.invalidate p).freshRef) => hnl (hrn ▸ hr),
      Block.code_invalidate,
      if_neg fun (hrp : r = p) => h.not_mem_later (List.mem_append_right P List.mem_cons_self) (hrp ▸ hr)]
  -- the second visit finds `Void`, which it leaves
  have hstep₂ : flagsStep
      { st with
        block := ((st.block.invalidate p).insertAfter p .a32SetCpsrNZ [(B.pool p).args 0]).1
        nzcvq := ⟨false⟩, nzcv := ⟨false⟩, nz := ⟨true⟩ } p =
      ({ st with
          block := ((st.block.invalidate p).insertAfter p .a32SetCpsrNZ [(B.pool p).args 0]).1
          nzcvq := ⟨false⟩, nzcv := ⟨false⟩, nz := ⟨true⟩ }, false) := by
    simp only [flagsStep, show Inst.op _ = _ from congrArg Prod.fst hcodep]
    rfl
  have hvisit : flagsVisit st p =
      { st with
        block := ((st.block.invalidate p).insertAfter p .a32SetCpsrNZ [(B.pool p).args 0]).1
        nzcvq := ⟨false⟩, nzcv := ⟨false⟩, nz := ⟨true⟩ } := by
    simp only [flagsVisit, hstep₁, hstep₂, if_true]
  rw [hvisit]
  have hargsP : ∀ (k : Fin 4) t, [(B.pool p).args 0].getD k.val .void = .inst t → t ∈ P := by
    rintro ⟨_ | k, hk⟩ t ht
    · exact h.args_mem hb 0 t ht
    · simp at ht
  have hpl := h.not_mem_later (List.mem_append_right P List.mem_cons_self)
  have hnp : ∀ r, r ∉ later → ¬st.Pending r := by
    rintro r hr (⟨hC, -⟩ | ⟨hge, rfl⟩)
    · exact absurd (hreqC.symm.trans hC) Bool.false_ne_true
    · exact hr (h.gePending hge).1
  show FlagsWalked ext B c0 P (p :: ([(st.block.invalidate p).freshRef] ++ later)) _
  apply h.step (h.visitEdit.invalidate.insertAfter .a32SetCpsrNZ [(B.pool p).args 0] hargsP)
  · intro r hr
    refine .inr ?_
    rcases List.mem_cons.mp hr with rfl | hr
    · rw [show Inst.op _ = _ from congrArg Prod.fst hcodep]
      rfl
    · rw [List.mem_singleton.mp hr, show Inst.op _ = _ from congrArg Prod.fst hcoden]
      rfl
  · exact fun _ _ hr => hr
  · exact fun hc => absurd (hreqC.symm.trans hc) Bool.false_ne_true
  · intro hge
    obtain ⟨hgl, hgop⟩ := h.gePending hge
    exact ⟨List.mem_cons_of_mem _ (List.mem_append_right _ hgl), (congrArg Prod.fst (hkeep _ hgl)).trans hgop⟩
  · intro b' c' o' hc hcode
    have hcp' := (hc.code p List.mem_cons_self (hnp p hpl)).trans hcodep
    have hcn' := (hc.code _ (by simp) (hnp _ hnl)).trans hcoden
    have hstepp : b'.stepA32 ext (c', o') p = (c', Function.update o' p (some (.plain .void))) := by
      rw [Block.stepA32, execA32Inst_void ext (congrArg Prod.fst hcp')]
    have h0' : (evalArg (Function.update o' p (some (.plain .void)))
        ((b'.pool (st.block.invalidate p).freshRef).args 0)).map Outcome.value = some (.nzcv f) := by
      rw [show (b'.pool (st.block.invalidate p).freshRef).args 0 = (B.pool p).args 0 from
        congrFun (congrArg Prod.snd hcn') 0, h.evalArg_update hb hc.outcomes]
      exact hf
    have hstepn : b'.stepA32 ext (c', Function.update o' p (some (.plain .void))) (st.block.invalidate p).freshRef =
        ({ c' with n := f.getLsbD 3, z := f.getLsbD 2 }, Function.update (Function.update o' p (some (.plain .void)))
          (st.block.invalidate p).freshRef (some (.plain .void))) := by
      rw [Block.stepA32, execA32Inst_setCpsrNZ_of ext
        (a := fun k => evalArg (Function.update o' p (some (.plain .void)))
          ((b'.pool (st.block.invalidate p).freshRef).args k)) (congrArg Prod.fst hcn') h0']
    have hfront : frontRun ext B c0 (P ++ [p]) =
        ({ (frontRun ext B c0 P).1 with n := f.getLsbD 3, z := f.getLsbD 2, c := carry },
          Function.update (frontRun ext B c0 P).2 p (some (.plain .void))) := by
      rw [frontRun_snoc, Block.stepA32]
      exact congrArg₂ _ (congrArg Prod.fst (hW _)) (congrArg (Function.update _ p) (congrArg Prod.snd (hW _)))
    simp only [List.foldl_cons, List.foldl_nil, hstepp, hstepn, hfront]
    refine
      { code := hcode
        agree := ?_
        outcomes := fun r hr => ?_
        cRequest := fun hreq => absurd (hreqC.symm.trans hreq) Bool.false_ne_true
        geRequest := fun hge => ((hc.geRequest hge).kept (hkeep _ (h.gePending hge).1) id rfl _).update id _ }
    · obtain ⟨hr, hn, hz, hc', hv, hq, hge⟩ := hc.agree
      constructor <;> simp_all [FlagsState.nzLive, FlagsState.cLive, FlagsState.vLive, FlagsState.qLive,
        FlagsState.geLive, A32Context.registers]
    · rw [Function.update_of_ne fun (hrn : r = (st.block.invalidate p).freshRef) => hfresh (hrn ▸ h.covers r hr)]
      by_cases hrp : r = p
      · rw [hrp, Function.update_self, Function.update_self]
      · rw [Function.update_of_ne hrp, Function.update_of_ne hrp, hc.outcomes r hr]

/-- Any other opcode: the walk leaves the instruction, and forgets what it knows when the opcode reads or writes the
CPSR. An instruction that does neither runs from contexts with the same registers to the same outcome and the same
registers, and leaves the flags. -/
theorem FlagsWalked.other (h : FlagsWalked ext B c0 (P ++ [p]) later st) (hb : B.ArgsEarlier)
    (hext : ExtRespectsTable ext B)
    (hstep : flagsStep st p = (if (B.pool p).op.readsFromCPSR || (B.pool p).op.writesToCPSR then st.forget else st,
      false)) :
    FlagsWalked ext B c0 P (p :: later) (flagsVisit st p) := by
  have hvisit : flagsVisit st p =
      if (B.pool p).op.readsFromCPSR || (B.pool p).op.writesToCPSR then st.forget else st := by
    simp only [flagsVisit, hstep, Bool.false_eq_true, if_false]
  rw [hvisit]
  have hpl := h.not_mem_later (List.mem_append_right P List.mem_cons_self)
  have hedit : ∀ r ∈ [p], (r ∈ B.instructions ∧ st.block.code r = B.code r) ∨ (st.block.pool r).op.isFlagsEdit = true :=
    fun r hr => by rw [List.mem_singleton.mp hr]; exact .inl ⟨h.mem, h.code_self⟩
  have hfront : frontRun ext B c0 (P ++ [p]) =
      ((execA32Inst ext (frontRun ext B c0 P).1 (frontArgs ext B c0 P p) p (B.pool p)).1,
        Function.update (frontRun ext B c0 P).2 p
          (execA32Inst ext (frontRun ext B c0 P).1 (frontArgs ext B c0 P p) p (B.pool p)).2) := by
    rw [frontRun_snoc]
    rfl
  show FlagsWalked ext B c0 P (p :: ([] ++ later)) _
  cases hrw : (B.pool p).op.readsFromCPSR || (B.pool p).op.writesToCPSR
  · -- neither: the walk keeps what it knows, and the instruction leaves the flags
    obtain ⟨hread, hwrite⟩ : (B.pool p).op.readsFromCPSR = false ∧ (B.pool p).op.writesToCPSR = false := by
      simpa using hrw
    rw [if_neg Bool.false_ne_true]
    refine h.step h.visitEdit hedit (fun _ _ hr => hr)
      (fun hc => ⟨List.mem_cons_of_mem p (h.cPending hc).1, (h.cPending hc).2⟩)
      (fun hc => ⟨List.mem_cons_of_mem p (h.gePending hc).1, (h.gePending hc).2⟩) fun b' c' o' hc hcode => ?_
    have hcodep : b'.code p = B.code p := by
      refine (hc.code p List.mem_cons_self ?_).trans h.code_self
      rintro (⟨hreq, hp⟩ | ⟨hreq, hp⟩)
      · exact hpl (hp ▸ (h.cPending hreq).1)
      · exact hpl (hp ▸ (h.gePending hreq).1)
    have hregs := hc.agree.registers
    obtain ⟨hout, hregs', hfl, hfl'⟩ := execA32Inst_of_registers_eq ext (a := frontArgs ext B c0 P p) (r := p) hread
      hwrite (fun hin => ⟨(hext.of_registers_eq p h.mem (.inl hin) hread _ _ hregs).1,
        (hext.of_registers_eq p h.mem (.inl hin) hread _ _ hregs).2, hext.flags_eq p h.mem (.inl hin) hwrite _,
        hext.flags_eq p h.mem (.inl hin) hwrite _⟩) hregs
    have hc₁ := congrArg (fun f => f.2.2.1) hfl
    have hc₂ := congrArg (fun f => f.2.2.1) hfl'
    have hge₁ := congrArg (fun f => f.2.2.2.2.2) hfl
    have hge₂ := congrArg (fun f => f.2.2.2.2.2) hfl'
    dsimp only [A32Context.flags] at hc₁ hc₂ hge₁ hge₂
    simp only [List.foldl_cons, List.foldl_nil, h.stepA32_of_code hb hcodep c' hc.outcomes, hfront]
    refine
      { code := hcode
        agree := hc.agree.frame hregs' hfl hfl'
        outcomes := fun r hr => ?_
        cRequest := fun hreq => (hc.cRequest hreq).kept rfl (fun hs => by rw [hc₁, hc₂]; exact hs) (by rw [hc₁]) _
        geRequest := fun hreq => (hc.geRequest hreq).kept rfl (fun hs => by rw [hge₁, hge₂]; exact hs) (by rw [hge₁]) _ }
    by_cases hrp : r = p
    · rw [hrp, Function.update_self, Function.update_self, hout]
    · rw [Function.update_of_ne hrp, Function.update_of_ne hrp, hc.outcomes r hr]
  · -- the walk forgets: every flag is live, so the completing context is the original one
    rw [if_pos rfl]
    have hnp : ∀ r, ¬st.forget.Pending r := by
      rintro r (⟨hC, -⟩ | ⟨hge, -⟩)
      · exact Bool.false_ne_true hC
      · exact Bool.false_ne_true hge
    refine h.step h.visitEdit hedit (fun r _ hr => absurd hr (hnp r)) (fun hc => absurd hc Bool.false_ne_true)
      (fun hc => absurd hc Bool.false_ne_true) fun b' c' o' hc hcode => ?_
    obtain rfl : c' = (frontRun ext B c0 P).1 := hc.agree.eq rfl rfl rfl rfl rfl
    have hcodep : b'.code p = B.code p := (hc.code p List.mem_cons_self (hnp p)).trans h.code_self
    simp only [List.foldl_cons, List.foldl_nil, h.stepA32_of_code hb hcodep _ hc.outcomes, hfront]
    refine
      { code := hcode
        agree := .refl _ _
        outcomes := fun r hr => ?_
        cRequest := fun hreq => .inl ⟨hc.code _ (List.mem_cons_of_mem p (h.cPending hreq).1) (hnp _), rfl⟩
        geRequest := fun hreq => .inl ⟨hc.code _ (List.mem_cons_of_mem p (h.gePending hreq).1) (hnp _), rfl⟩ }
    by_cases hrp : r = p
    · rw [hrp, Function.update_self, Function.update_self]
    · rw [Function.update_of_ne hrp, Function.update_of_ne hrp, hc.outcomes r hr]

/-- `SetCpsrNZC`: the pending `GetCFlag` is resolved with the carry; then the instruction is invalidated with a
`SetCpsrNZ` inserted after it when its carry is the result of a `GetCFlag`, and otherwise kept, given the empty NZCV
immediate or invalidated. -/
theorem FlagsWalked.setCpsrNZC (h : FlagsWalked ext B c0 (P ++ [p]) later st) (hb : B.ArgsEarlier)
    (hndB : B.instructions.Nodup) (hdef : (B.execA32 ext c0).2 p ≠ none) (hop : (B.pool p).op = .a32SetCpsrNZC)
    (h0 : (B.pool p).args 0 ≠ .nzcvMarker) (hkept : CarryKept B) (hext : ExtRespectsTable ext B) :
    ∃ ins, FlagsWalked ext B c0 P (p :: (ins ++ later)) (flagsVisit st p) := by
  have hop' : (st.block.pool p).op = .a32SetCpsrNZC := (congrArg Prod.fst h.code_self).trans hop
  have hargs' : (st.block.pool p).args 1 = (B.pool p).args 1 := congrFun (congrArg Prod.snd h.code_self) 1
  have hR := h.resolveCarry hb hndB hdef hop h0
  set stR : FlagsState :=
    { st with
      block := if st.cFlag.hasValueRequest = true then
          st.block.replaceUsesWith st.cFlag.valueRequest ((B.pool p).args 1)
        else st.block
      cFlag := { st.cFlag with hasValueRequest := false } } with hstR
  have hopR : (stR.block.pool p).op = .a32SetCpsrNZC := (congrArg Prod.fst hR.code_self).trans hop
  have hstep : flagsStep st p = flagsStep stR p := by
    simp only [flagsStep, hop', hopR]
    rw [setCpsrNZC_resolve st p, hargs']
  rw [show flagsVisit st p = flagsVisit stR p by simp only [flagsVisit, hstep]]
  cases hcfg : (!((B.pool p).args 1).isImmediate stR.block &&
      (((B.pool p).args 1).getInstRecursive stR.block).any fun g => (stR.block.pool g).op = .a32GetCFlag)
  · exact ⟨[], hR.setCpsrNZC_kept hb hndB hdef hop h0 rfl hcfg⟩
  · exact ⟨[_], hR.setCpsrNZC_fromGet hb hndB hdef hop h0 hkept hext rfl hcfg⟩

/-- One visit, whatever the opcode, keeps the walk's invariant, with the instructions it inserts after the visited
one. -/
theorem FlagsWalked.visit (h : FlagsWalked ext B c0 (P ++ [p]) later st) (hb : B.ArgsEarlier)
    (hndB : B.instructions.Nodup) (hdef : ∀ r ∈ B.instructions, (B.execA32 ext c0).2 r ≠ none)
    (hmarker : ∀ r ∈ B.instructions, (B.pool r).op = .a32SetCpsrNZC → (B.pool r).args 0 ≠ .nzcvMarker)
    (hkept : CarryKept B) (hext : ExtRespectsTable ext B) :
    ∃ ins, FlagsWalked ext B c0 P (p :: (ins ++ later)) (flagsVisit st p) := by
  have hdefp := hdef p h.mem
  have hopB : (st.block.pool p).op = (B.pool p).op := congrArg Prod.fst h.code_self
  rcases flagsStep_cases st p with hmem | hstep
  · rw [hopB] at hmem
    simp only [List.mem_cons, List.not_mem_nil, or_false] at hmem
    rcases hmem with hop | hop | hop | hop | hop | hop | hop | hop | hop | hop
    · exact ⟨[], h.getCFlag hb hop⟩
    · cases hreq : st.cFlag.hasValueRequest
      · have hagain : (flagsStep st p).2 = false := by
          simp only [flagsStep, hopB.trans hop, hreq, Bool.false_eq_true, if_false]
        have hvisit : flagsVisit st p = (flagsStep st p).1 := by
          simp only [flagsVisit, hagain, Bool.false_eq_true, if_false]
        exact ⟨[], hvisit ▸ h.setCpsrNZCV hb hndB hdefp hop hreq⟩
      · exact ⟨[_], h.setCpsrNZCV_request hb hndB hdefp hop hreq⟩
    · exact ⟨[], h.setCpsrNZCVRaw hb hndB hdefp hop⟩
    · exact ⟨[], h.setCpsrNZCVQ hb hndB hdefp hop⟩
    · exact ⟨[], h.setCpsrNZ hb hndB hdefp hop⟩
    · exact h.setCpsrNZC hb hndB hdefp hop (hmarker p h.mem hop) hkept hext
    · exact ⟨[], h.setGEFlags hb hndB hdefp hop⟩
    · exact ⟨[], h.getGEFlags hb hop⟩
    · exact ⟨[], h.setGEFlagsCompressed hb hndB hdefp hop⟩
    · exact ⟨[], h.orQFlag hb hndB hdefp hop⟩
  · rw [hopB] at hstep
    exact ⟨[], h.other hb hext hstep⟩

end Visit

/-! ### The whole walk -/

section Pass

variable {ext B c0} (hb : B.ArgsEarlier) (hndB : B.instructions.Nodup)
  (hdef : ∀ r ∈ B.instructions, (B.execA32 ext c0).2 r ≠ none)
  (hmarker : ∀ r ∈ B.instructions, (B.pool r).op = .a32SetCpsrNZC → (B.pool r).args 0 ≠ .nzcvMarker)
  (hkept : CarryKept B) (hext : ExtRespectsTable ext B)
include hb hndB hdef hmarker hkept hext

/-- The walk from the end of the list keeps the invariant over every part `Q` of the list it has visited. -/
theorem flagsWalked_foldl : ∀ (Q P : List InstRef), P ++ Q = B.instructions → ∃ later, FlagsWalked ext B c0 P later
    (Q.reverse.foldl flagsVisit
      { block := B, nzcvq := ⟨false⟩, nzcv := ⟨false⟩, nz := ⟨false⟩, cFlag := .empty, ge := .empty })
  | [], P, hPQ => ⟨[], by
      rw [List.append_nil] at hPQ
      subst hPQ
      exact flagsWalked_start ext B c0 hndB hb⟩
  | p :: Q, P, hPQ => by
    obtain ⟨later, h⟩ := flagsWalked_foldl Q (P ++ [p]) (by rw [← hPQ]; simp)
    obtain ⟨ins, h'⟩ := h.visit hb hndB hdef hmarker hkept hext
    refine ⟨p :: (ins ++ later), ?_⟩
    rw [List.reverse_cons, List.foldl_append, List.foldl_cons, List.foldl_nil]
    exact h'

/-- The walk over the whole list. -/
theorem flagsWalked_flagsPass : ∃ later, FlagsWalked ext B c0 [] later
    (B.instructions.reverse.foldl flagsVisit
      { block := B, nzcvq := ⟨false⟩, nzcv := ⟨false⟩, nz := ⟨false⟩, cFlag := .empty, ge := .empty }) :=
  flagsWalked_foldl hb hndB hdef hmarker hkept hext B.instructions [] rfl

/-- `FlagsPass` keeps the meaning of a block: from the same context, the block it leaves ends in the same context as the
original, and every instruction of the original has the same outcome in both runs. -/
theorem flagsPass_execA32 : ((flagsPass B).execA32 ext c0).1 = (B.execA32 ext c0).1 ∧
    ∀ r ∈ B.instructions, ((flagsPass B).execA32 ext c0).2 r = (B.execA32 ext c0).2 r := by
  obtain ⟨later, h⟩ := flagsWalked_flagsPass hb hndB hdef hmarker hkept hext
  -- the walk ends with no instruction in front, where the original context completes it
  have hrun := h.run _ c0 (fun _ => none)
    { code := fun _ _ _ => rfl
      agree := .refl _ _
      outcomes := fun _ _ => rfl
      cRequest := fun _ => .inl ⟨rfl, rfl⟩
      geRequest := fun _ => .inl ⟨rfl, rfl⟩ }
  have hl : (flagsPass B).instructions = later := h.instructions
  rw [Block.execA32_eq_foldl, hl]
  exact hrun

/-- The block `FlagsPass` leaves has each instruction once, arguments that refer to earlier instructions, every
instruction of the original, and at each place the original code or one of the flag edits. -/
theorem flagsPass_shape : (flagsPass B).instructions.Nodup ∧ (flagsPass B).ArgsEarlier ∧
    (∀ r ∈ B.instructions, r ∈ (flagsPass B).instructions) ∧
    ∀ r ∈ (flagsPass B).instructions,
      (r ∈ B.instructions ∧ (flagsPass B).code r = B.code r) ∨ ((flagsPass B).pool r).op.isFlagsEdit = true := by
  obtain ⟨later, h⟩ := flagsWalked_flagsPass hb hndB hdef hmarker hkept hext
  have hl : (flagsPass B).instructions = later := h.instructions
  exact ⟨h.nodup, h.argsEarlier, fun r hr => hl ▸ h.covers r hr, fun r hr => h.edits r (hl ▸ hr)⟩

end Pass

end Walk

end A32GetSetElimination

end Dynarmic.Optimization
