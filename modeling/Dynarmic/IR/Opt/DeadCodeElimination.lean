import Dynarmic.IR.Opt.ConstantPropagation

/-!
# `DeadCodeElimination`

`ir/opt/dead_code_elimination_pass.cpp`. The pass walks the instruction list once, in reverse, and invalidates every
instruction that has no uses and no side effects. The walk goes backwards because invalidating an instruction clears its
arguments, and `ClearArgs` takes a use away from each instruction they refer to, all of which come earlier in the list:
a chain of dead instructions goes in one walk.

On a well-formed block (`Block.WellFormed`) each instruction the walk has visited is either `Eliminated` (it had no side
effects, and it is now `Void` with no arguments and no uses) or `Kept` (its code unchanged, with uses or side effects),
and the use counts still bound the argument slots that refer to each instruction (`Invariant`). Nothing that survives
then refers to an eliminated instruction, so every instruction the pass keeps computes what it computed before
(`deadCodeElimination_run`), and a second pass changes nothing.

The pass does not remove every dead instruction. `ClearArgs` skips `UndoUse` for a value that reports itself immediate,
and a reference to an `Identity` of an immediate does: the use stays counted, and the identity is kept with no user
left (`deadCodeElimination_keeps_dead_identity`). That is the only way a dead instruction survives: on a block in which
no instruction reports itself immediate the use counts stay exact through the walk, and the pass removes every dead
instruction (`deadCodeElimination_removes_every_dead`).
-/

namespace Dynarmic.Optimization

open Dynarmic.IR

/-- One iteration of the loop of `DeadCodeElimination`. -/
def eliminateIfDead (b : Block) (inst : InstRef) : Block :=
  if !(b.pool inst).hasUses && !(b.pool inst).op.mayHaveSideEffects then b.invalidate inst else b

/-- `DeadCodeElimination`: the loop over `mcl::iterator::reverse(block)`. -/
def deadCodeElimination (b : Block) : Block :=
  b.instructions.reverse.foldl eliminateIfDead b

namespace DeadCodeElimination

/-- An instruction the pass has invalidated: it had no side effects in `B`, and in `b` it is `Void`, with its arguments
cleared and no uses counted. -/
structure Eliminated (B b : Block) (r : InstRef) : Prop where
  pure : (B.pool r).op.mayHaveSideEffects = false
  op : (b.pool r).op = .void
  args : ∀ k, (b.pool r).args k = .void
  useCount : (b.pool r).useCount = 0

/-- An instruction the pass has kept: its code as in `B`, and uses or side effects. -/
structure Kept (B b : Block) (r : InstRef) : Prop where
  op : (b.pool r).op = (B.pool r).op
  args : (b.pool r).args = (B.pool r).args
  reason : (b.pool r).hasUses = true ∨ (B.pool r).op.mayHaveSideEffects = true

/-- What holds when the walk over `B` has visited the instructions of `visited`, the end of the list, and not yet those
of `pre`, the rest. -/
structure Invariant (B b : Block) (pre visited : List InstRef) : Prop where
  instructions : b.instructions = B.instructions
  unvisited : ∀ r ∈ pre, (b.pool r).op = (B.pool r).op ∧ (b.pool r).args = (B.pool r).args
  counted : ∀ t ∈ B.instructions, b.uses t ≤ (b.pool t).useCount
  visited : ∀ r ∈ visited, Eliminated B b r ∨ Kept B b r

variable {B b : Block} {r x : InstRef}

/-- Invalidating `r` keeps an eliminated instruction other than `r` that no argument of `r` refers to. -/
theorem Eliminated.invalidate (h : Eliminated B b x) (hxr : x ≠ r) (hnot : ∀ k, (b.pool r).args k ≠ .inst x) :
    Eliminated B (b.invalidate r) x where
  pure := h.pure
  op := by rw [Block.op_invalidate, if_neg hxr, h.op]
  args k := by rw [Block.args_invalidate, if_neg hxr, h.args k]
  useCount := by rw [Block.useCount_invalidate_of_not_ref b hnot, h.useCount]

/-- Invalidating `r` keeps a kept instruction other than `r` that no argument of `r` refers to. -/
theorem Kept.invalidate (h : Kept B b x) (hxr : x ≠ r) (hnot : ∀ k, (b.pool r).args k ≠ .inst x) :
    Kept B (b.invalidate r) x where
  op := by rw [Block.op_invalidate, if_neg hxr, h.op]
  args := by rw [Block.args_invalidate, if_neg hxr, h.args]
  reason := by simpa only [Inst.hasUses, Block.useCount_invalidate_of_not_ref b hnot] using h.reason

/-- Before the walk nothing is visited, and the use counts are exact. -/
theorem invariant_start (hB : B.WellFormed) (pre : List InstRef) : Invariant B B pre [] where
  instructions := rfl
  unvisited _ _ := ⟨rfl, rfl⟩
  counted t ht := (hB.useCountExact t ht).ge
  visited _ h := absurd h List.not_mem_nil

/-- The loop body keeps the invariant: it eliminates or keeps the instruction it visits, and invalidating that
instruction changes the use counts only of instructions before it, which the walk has not visited. -/
theorem Invariant.eliminateIfDead (hB : B.WellFormed) {pre l : List InstRef} (hL : B.instructions = pre ++ r :: l)
    (h : Invariant B b (pre ++ [r]) l) : Invariant B (eliminateIfDead b r) pre (r :: l) := by
  have hnodup := hB.nodup
  rw [hL] at hnodup
  have hrpre : r ∉ pre := by grind
  have hrl : r ∉ l := by grind
  have hdisj : ∀ x ∈ l, x ∉ pre := by grind
  obtain ⟨hop, hargs⟩ := h.unvisited r (List.mem_append_right pre (List.mem_singleton_self r))
  have hnot : ∀ x, x ∉ pre → ∀ k, (b.pool r).args k ≠ .inst x :=
    fun x hx k hk => hx (hB.mem_of_arg hL (hargs ▸ hk))
  unfold Optimization.eliminateIfDead
  split
  · -- `r` has no uses and no side effects: the walk invalidates it
    rename_i hdead
    simp only [Bool.and_eq_true, Bool.not_eq_true', Inst.hasUses, decide_eq_false_iff_not, Nat.not_lt,
      Nat.le_zero] at hdead
    obtain ⟨hcount, hpure⟩ := hdead
    refine ⟨(Block.instructions_invalidate b r).trans h.instructions, fun x hx => ?_, fun t ht => ?_,
      fun x hx => ?_⟩
    · have hxr : x ≠ r := fun hxr => hrpre (hxr ▸ hx)
      rw [Block.op_invalidate, if_neg hxr, Block.args_invalidate, if_neg hxr]
      exact h.unvisited x (List.mem_append_left _ hx)
    · have hr : r ∈ b.instructions := by rw [h.instructions, hL]; simp
      exact Block.uses_le_useCount_invalidate (h.instructions ▸ hB.nodup) hr (h.counted t ht)
    · rcases List.mem_cons.1 hx with rfl | hx
      · refine .inl ⟨hop ▸ hpure, ?_, fun k => ?_, ?_⟩
        · rw [Block.op_invalidate, if_pos rfl]
        · rw [Block.args_invalidate, if_pos rfl]
        · rw [Block.useCount_invalidate_of_not_ref b (hnot x hrpre), hcount]
      · have hxr : x ≠ r := fun hxr => hrl (hxr ▸ hx)
        have hnotx := hnot x (hdisj x hx)
        exact (h.visited x hx).imp (·.invalidate hxr hnotx) (·.invalidate hxr hnotx)
  · -- `r` has uses or side effects: the walk keeps it
    rename_i hlive
    refine ⟨h.instructions, fun x hx => h.unvisited x (List.mem_append_left _ hx), h.counted, fun x hx => ?_⟩
    rcases List.mem_cons.1 hx with rfl | hx
    · refine .inr ⟨hop, hargs, ?_⟩
      rw [← hop]
      simpa only [Bool.and_eq_true, Bool.not_eq_true', not_and_or, Bool.not_eq_false] using hlive
    · exact h.visited x hx

/-- The walk over the end `l` of the list, from its last instruction back, keeps the invariant. -/
theorem invariant_foldr (hB : B.WellFormed) :
    ∀ (l pre : List InstRef), B.instructions = pre ++ l →
      Invariant B (l.foldr (fun r b => eliminateIfDead b r) B) pre l
  | [], pre, _ => invariant_start hB pre
  | r :: l, pre, hL => (invariant_foldr hB l (pre ++ [r]) (by simp [hL])).eliminateIfDead hB hL

/-- After the whole walk every instruction is eliminated or kept. -/
theorem invariant_deadCodeElimination (hB : B.WellFormed) :
    Invariant B (deadCodeElimination B) [] B.instructions := by
  rw [deadCodeElimination, List.foldl_reverse]
  exact invariant_foldr hB _ [] rfl

/-- After the pass an instruction that an argument of the block refers to is kept: an eliminated instruction has no
uses counted, so no slot refers to it. -/
theorem kept_of_arg (hB : B.WellFormed) (hr : r ∈ B.instructions) {k : Fin 4} {t : InstRef}
    (hk : ((deadCodeElimination B).pool r).args k = .inst t) : Kept B (deadCodeElimination B) t := by
  have hinv := invariant_deadCodeElimination hB
  have hkept : Kept B _ r := (hinv.visited r hr).resolve_left fun he => by
    rw [he.args k] at hk
    exact Value.noConfusion hk
  have ht : t ∈ B.instructions := hB.mem_of_arg_of_mem hr (hkept.args ▸ hk)
  refine (hinv.visited t ht).resolve_left fun he => ?_
  have hpos := Block.uses_pos (hinv.instructions ▸ hr) hk
  have hle := hinv.counted t ht
  rw [he.useCount] at hle
  omega

/-- On a block in which no instruction reports itself immediate, the walk keeps the use counts exact: it counts off
every use it undoes. The instructions an invalidated instruction refers to come before it, and resolving them reads only
instructions before it, which the walk has not changed. -/
theorem exact_foldr (hB : B.WellFormed) (himm : ∀ t ∈ B.instructions, (Value.inst t).isImmediate B = false) :
    ∀ (l pre : List InstRef), B.instructions = pre ++ l → ∀ t ∈ B.instructions,
      (l.foldr (fun r b => eliminateIfDead b r) B).uses t =
        ((l.foldr (fun r b => eliminateIfDead b r) B).pool t).useCount
  | [], _, _, t, ht => (hB.useCountExact t ht).symm
  | r :: l, pre, hL, t, ht => by
    have hL' : B.instructions = (pre ++ [r]) ++ l := by simp [hL]
    have hinv := invariant_foldr hB l (pre ++ [r]) hL'
    have ih := exact_foldr hB himm l (pre ++ [r]) hL' t ht
    have hrpre : r ∉ pre := by
      have hnodup := hB.nodup
      rw [hL] at hnodup
      grind
    show (Optimization.eliminateIfDead _ r).uses t = ((Optimization.eliminateIfDead _ r).pool t).useCount
    unfold Optimization.eliminateIfDead
    split
    · have hr : r ∈ (l.foldr (fun r b => eliminateIfDead b r) B).instructions := by rw [hinv.instructions, hL]; simp
      refine Block.uses_eq_useCount_invalidate (hinv.instructions ▸ hB.nodup) hr ?_ ih
      intro b' hl hoff k t' ht'
      obtain ⟨_, hargs⟩ := hinv.unvisited r (by simp)
      have ht'pre : t' ∈ pre := hB.mem_of_arg hL (hargs ▸ ht')
      have hagree : ∀ s ∈ pre, (b'.pool s).op = (B.pool s).op ∧ (b'.pool s).args = (B.pool s).args := by
        intro s hs
        have hsr : s ≠ r := fun hsr => hrpre (hsr ▸ hs)
        obtain ⟨hop', hargs'⟩ := hinv.unvisited s (List.mem_append_left _ hs)
        exact ⟨(hoff s hsr).1.trans hop', (hoff s hsr).2.trans hargs'⟩
      have hres := Value.resolveAux_congr (S := (· ∈ pre)) (fun s hs => (hagree s hs).1)
        (fun s hs => by rw [(hagree s hs).2]) (fun s hs _ u hu => hB.mem_of_arg_of_prefix hL hs hu) B.fuel (.inst t')
        (fun u hu => by cases hu; exact ht'pre)
      have hfuel : b'.fuel = B.fuel := by simp only [Block.fuel, hl, hinv.instructions]
      have himm' := himm t' (by rw [hL]; exact List.mem_append_left _ ht'pre)
      simp only [Value.isImmediate, Value.resolve, hfuel, hres] at himm' ⊢
      exact himm'
    · exact ih

/-- The walk keeps the use counts of the instructions that are not identities exact: their opcodes stay those of `B` or
become `Void`, so a reference to one never reports itself immediate, and each use `ClearArgs` takes from the slots it
also takes from the count. -/
theorem exact_of_op_ne (hnd : B.instructions.Nodup)
    (hexact : ∀ t ∈ B.instructions, (B.pool t).op ≠ .identity → B.uses t = (B.pool t).useCount) :
    ∀ t ∈ B.instructions, (B.pool t).op ≠ .identity →
      (deadCodeElimination B).uses t = ((deadCodeElimination B).pool t).useCount := by
  have hinv := Run.foldl_invariant_of_mem (l := B.instructions.reverse) (f := Optimization.eliminateIfDead)
    (fun b : Block => b.instructions = B.instructions ∧ (∀ s, (b.pool s).op = (B.pool s).op ∨ (b.pool s).op = .void) ∧
      ∀ t ∈ B.instructions, (B.pool t).op ≠ .identity → b.uses t = (b.pool t).useCount)
    (fun b r hr ⟨hl, hop, hex⟩ => by
      unfold Optimization.eliminateIfDead
      split
      · refine ⟨(Block.instructions_invalidate b r).trans hl, fun s => ?_, fun t ht hid => ?_⟩
        · rw [Block.op_invalidate]
          split
          · exact .inr rfl
          · exact hop s
        · have hop' : (b.pool t).op ≠ .identity := by
            rcases hop t with h | h
            · rwa [h]
            · rw [h]
              exact Opcode.noConfusion
          exact Block.uses_eq_useCount_invalidate_of_op_ne (hl ▸ hnd) (hl ▸ List.mem_reverse.mp hr) hop' (hex t ht hid)
      · exact ⟨hl, hop, hex⟩)
    ⟨rfl, fun _ => .inl rfl, hexact⟩
  exact hinv.2.2

end DeadCodeElimination

open DeadCodeElimination

variable {B : Block}

/-- `DeadCodeElimination` invalidates no instruction with side effects. -/
theorem deadCodeElimination_keeps_side_effects (hB : B.WellFormed) {r : InstRef} (hr : r ∈ B.instructions)
    (heffects : (B.pool r).op.mayHaveSideEffects = true) :
    ((deadCodeElimination B).pool r).op = (B.pool r).op ∧ ((deadCodeElimination B).pool r).args = (B.pool r).args := by
  rcases (invariant_deadCodeElimination hB).visited r hr with he | hk
  · rw [he.pure] at heffects
    exact absurd heffects Bool.false_ne_true
  · exact ⟨hk.op, hk.args⟩

/-- After `DeadCodeElimination` every instruction that is not `Void` has side effects or a use count above zero. -/
theorem deadCodeElimination_hasUses_or_sideEffects (hB : B.WellFormed) {r : InstRef} (hr : r ∈ B.instructions)
    (hlive : ((deadCodeElimination B).pool r).op ≠ .void) :
    ((deadCodeElimination B).pool r).hasUses = true ∨
      ((deadCodeElimination B).pool r).op.mayHaveSideEffects = true := by
  rcases (invariant_deadCodeElimination hB).visited r hr with he | hk
  · exact absurd he.op hlive
  · rw [hk.op]
    exact hk.reason

/-- After `DeadCodeElimination` the use counts still bound the argument slots that refer to each instruction. -/
theorem deadCodeElimination_uses_le_useCount (hB : B.WellFormed) {t : InstRef} (ht : t ∈ B.instructions) :
    (deadCodeElimination B).uses t ≤ ((deadCodeElimination B).pool t).useCount :=
  (invariant_deadCodeElimination hB).counted t ht

/-- Every instruction that `DeadCodeElimination` leaves computes what it computed before. -/
theorem deadCodeElimination_run (hB : B.WellFormed) (σ : InstRef → Outcome) {r : InstRef} (hr : r ∈ B.instructions)
    (hlive : ((deadCodeElimination B).pool r).op ≠ .void) : (deadCodeElimination B).run σ r = B.run σ r := by
  have hinv := invariant_deadCodeElimination hB
  -- the runs agree on the kept instructions, whose arguments refer only to kept instructions
  refine Block.run_eq_of_agree (fun r => r ∈ B.instructions ∧ Kept B (deadCodeElimination B) r) hinv.instructions
    (fun _ h => h.2.op) (fun _ h => h.2.args) (fun x h k t ht => ?_) σ r ⟨hr, ?_⟩
  · have hk : ((deadCodeElimination B).pool x).args k = .inst t := by rw [h.2.args, ht]
    exact ⟨hB.mem_of_arg_of_mem h.1 ht, kept_of_arg hB h.1 hk⟩
  · exact (hinv.visited r hr).resolve_left fun he => hlive he.op

/-- A second `DeadCodeElimination` changes nothing: it invalidates again only what is already `Void` and cleared. -/
theorem deadCodeElimination_idempotent (hB : B.WellFormed) :
    deadCodeElimination (deadCodeElimination B) = deadCodeElimination B := by
  have hinv := invariant_deadCodeElimination hB
  have hstep : ∀ r ∈ B.instructions, eliminateIfDead (deadCodeElimination B) r = deadCodeElimination B := by
    intro r hr
    unfold eliminateIfDead
    split
    · rename_i hdead
      rcases hinv.visited r hr with he | hk
      · exact Block.invalidate_of_cleared he.op he.args
      · -- a kept instruction has uses or side effects, so it is not dead
        have hreason := hk.reason
        rw [← hk.op] at hreason
        rcases hreason with h | h <;> simp [h] at hdead
    · rfl
  rw [deadCodeElimination, hinv.instructions]
  exact Run.foldl_invariant_of_mem (fun b => b = deadCodeElimination B)
    (fun b r hr h => h ▸ hstep r (List.mem_reverse.1 hr)) rfl

/-- On a well-formed block in which no instruction reports itself immediate (none is an `Identity` of an immediate,
through identities), `DeadCodeElimination` removes exactly the dead instructions: every instruction it leaves that is
not `Void` has side effects or an argument of the block that refers to it. -/
theorem deadCodeElimination_removes_every_dead (hB : B.WellFormed)
    (himm : ∀ t ∈ B.instructions, (Value.inst t).isImmediate B = false) {r : InstRef} (hr : r ∈ B.instructions)
    (hlive : ((deadCodeElimination B).pool r).op ≠ .void) :
    ((deadCodeElimination B).pool r).op.mayHaveSideEffects = true ∨ 0 < (deadCodeElimination B).uses r := by
  have hexact : (deadCodeElimination B).uses r = ((deadCodeElimination B).pool r).useCount := by
    rw [deadCodeElimination, List.foldl_reverse]
    exact exact_foldr hB himm _ [] rfl r hr
  rcases deadCodeElimination_hasUses_or_sideEffects hB hr hlive with huses | heffects
  · right
    simp only [Inst.hasUses, decide_eq_true_eq] at huses
    omega
  · exact .inl heffects

/-- `%0 = A32GetRegister(R1); %1 = Add32(#1, #2, #0); %2 = Mul32(%1, %0)`, with `%2` unused. -/
def deadMultiplyBlock : Block where
  pool
    | 0 => mkInst .a32GetRegister 1 [.a32Reg ⟨1, Nat.one_lt_succ_succ 14⟩]
    | 1 => mkInst .add32 1 [.u32 1, .u32 2, .u1 false]
    | 2 => mkInst .mul32 0 [.inst 1, .inst 0]
    | _ => Inst.new .void
  instructions := [0, 1, 2]

/-- `ConstantPropagation` turns `%1` of `deadMultiplyBlock` into `Identity(#3)` and normalises `%2` to `Mul32(%0, %1)`,
leaving a well-formed block. `DeadCodeElimination` then invalidates `%2` and, through the use that undoes, `%0`; but
`%2`'s argument `%1` reports itself immediate, so `ClearArgs` skips its `UndoUse`, and `%1` stays an `Identity` without
side effects, with a use count of 1 and no argument of the block referring to it. -/
theorem deadCodeElimination_keeps_dead_identity :
    (constantPropagation deadMultiplyBlock).WellFormed ∧
      ((deadCodeElimination (constantPropagation deadMultiplyBlock)).pool 1).op = .identity ∧
      Opcode.identity.mayHaveSideEffects = false ∧
      ((deadCodeElimination (constantPropagation deadMultiplyBlock)).pool 1).useCount = 1 ∧
      (deadCodeElimination (constantPropagation deadMultiplyBlock)).uses 1 = 0 :=
  ⟨by decide +kernel, rfl, rfl, rfl, rfl⟩

end Dynarmic.Optimization
