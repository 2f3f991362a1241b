import Dynarmic.IR.Opt.DeadCodeElimination

/-!
# `IdentityRemovalPass` and `VerificationPass`

`ir/opt/identity_removal_pass.cpp` and `ir/opt/verification_pass.cpp`, the last two passes of the pipeline.
`IdentityRemovalPass` walks the list once: it takes every argument of an instruction past the `Identity` instructions it
refers to, then erases the instruction from the list if it is an `Identity` or `Void`, and at the end invalidates every
instruction it erased. `VerificationPass` then counts, for each instruction, the argument slots that refer to it and
asserts that its use count agrees.

The walk goes forwards, so when it reaches an instruction every identity before it already has an argument that is not
an identity: each argument is set at most once. On a block whose arguments refer to earlier instructions
(`Block.ArgsEarlier`), each argument ends as the end of its chain of identities in the original block (`Value.resolve`).

What the pass needs of a block is `Ready`: the list names each instruction once, arguments refer to earlier
instructions, the slots past each arity are empty, no argument refers to a `Void` instruction, and the use counts of the
instructions that are not identities are exact. The counts of identities may be stale, as `DeadCodeElimination` leaves
them. From a `Ready` block the pass keeps exactly the instructions that are neither identities nor `Void`, with their code
and their arguments taken past identities; the block it leaves is well-formed, with no argument that is an identity, and
`VerificationPass` accepts it; each instruction it keeps computes the outcome it computed before, when no instruction
that reads side results (`GetCarryFromOp`, `GetOverflowFromOp`, `GetNZCVFromOp`) reads them from an identity.
-/

namespace Dynarmic.Optimization

open Dynarmic.IR

/-- The `while (true)` loop of `IdentityRemovalPass` on argument `index` of `inst`: as long as the argument is an
identity (`Value::IsIdentity`), set it to the identity's argument 0. `fuel` bounds the number of rounds. -/
def removeIdentityArg (inst : InstRef) (index : Fin 4) : Nat → Block → Block
  | 0, b => b
  | fuel + 1, b =>
    match (b.pool inst).args index with
    | .inst t =>
      if (b.pool t).op = .identity then
        removeIdentityArg inst index fuel (b.setArg inst index ((b.pool t).args 0))
      else b
    | _ => b

/-- The loop `for (size_t i = 0; i < num_args; i++)` of `IdentityRemovalPass` over the arguments of one instruction. -/
def removeIdentityArgs (b : Block) (inst : InstRef) : Block :=
  (Block.argSlots (b.pool inst).op).foldl (fun b index => removeIdentityArg inst index b.fuel b) b

/-- The loop of `IdentityRemovalPass` so far: the block, the instructions left in the list, and `to_invalidate`. -/
structure IdentityRemovalState where
  block : Block
  kept : List InstRef
  toInvalidate : List InstRef

/-- One turn of the loop over the list: the arguments of the instruction past identities, then an `Identity` or a
`Void` is erased from the list and remembered, and anything else is kept. -/
def identityRemovalStep (st : IdentityRemovalState) (inst : InstRef) : IdentityRemovalState :=
  let b := removeIdentityArgs st.block inst
  if (b.pool inst).op = .identity ∨ (b.pool inst).op = .void then
    { block := b, kept := st.kept, toInvalidate := st.toInvalidate ++ [inst] }
  else
    { block := b, kept := st.kept ++ [inst], toInvalidate := st.toInvalidate }

/-- `IdentityRemovalPass`. The loop iterates the list as it was, since erasing the current instruction leaves the rest
of the iteration alone; the erased instructions are then invalidated in the order they were erased, and the list is what
the loop kept. -/
def identityRemovalPass (b : Block) : Block :=
  let st := b.instructions.foldl identityRemovalStep ⟨b, [], []⟩
  { st.toInvalidate.foldl Block.invalidate st.block with instructions := st.kept }

namespace IdentityRemoval

/-- The instructions the pass erases: the identities and the invalidated instructions. -/
def erased (B : Block) (s : InstRef) : Bool :=
  (B.pool s).op = .identity ∨ (B.pool s).op = .void

/-- What the pass needs of a block: each instruction once in the list, arguments that refer to earlier instructions,
empty slots past each arity, no argument that refers to a `Void` instruction, and exact use counts for the instructions
that are not identities. -/
structure Ready (B : Block) : Prop where
  nodup : B.instructions.Nodup
  argsEarlier : B.ArgsEarlier
  slotsInArity : B.SlotsInArity
  noVoidArg : ∀ r ∈ B.instructions, ∀ t ∈ B.instructions, (B.pool t).op = .void → ∀ k, (B.pool r).args k ≠ .inst t
  useCountExact : ∀ t ∈ B.instructions, (B.pool t).op ≠ .identity → B.uses t = (B.pool t).useCount

instance (B : Block) : Decidable (Ready B) :=
  decidable_of_iff (B.instructions.Nodup ∧ B.ArgsEarlier ∧ B.SlotsInArity ∧
      (∀ r ∈ B.instructions, ∀ t ∈ B.instructions, (B.pool t).op = .void → ∀ k, (B.pool r).args k ≠ .inst t) ∧
      ∀ t ∈ B.instructions, (B.pool t).op ≠ .identity → B.uses t = (B.pool t).useCount)
    ⟨fun ⟨h₁, h₂, h₃, h₄, h₅⟩ => ⟨h₁, h₂, h₃, h₄, h₅⟩,
      fun h => ⟨h.nodup, h.argsEarlier, h.slotsInArity, h.noVoidArg, h.useCountExact⟩⟩

variable {B b : Block} {inst : InstRef} {index : Fin 4}

/-- No argument of the list refers to a `Void` instruction. -/
theorem Ready.op_ne_void (hB : Ready B) {r : InstRef} (hr : r ∈ B.instructions) {k : Fin 4} {t : InstRef}
    (hk : (B.pool r).args k = .inst t) : (B.pool t).op ≠ .void :=
  fun hvoid => hB.noVoidArg r hr t (hB.argsEarlier.mem_of_arg_of_mem hr hk) hvoid k hk

/-! ### One argument -/

/-- An argument that is not an identity stops the loop at once. -/
theorem removeIdentityArg_of_not_identity (h : ((b.pool inst).args index).isIdentity b = false) (n : Nat) :
    removeIdentityArg inst index n b = b := by
  cases n with
  | zero => rfl
  | succ n =>
    rw [removeIdentityArg]
    split
    · rename_i t ht
      rw [ht, Value.isIdentity, decide_eq_false_iff_not] at h
      rw [if_neg h]
    · rfl

/-- An argument that is an identity whose own argument is not is set once, to that argument. -/
theorem removeIdentityArg_of_identity {t : InstRef} (ht : (b.pool inst).args index = .inst t)
    (hid : (b.pool t).op = .identity) (hw : ((b.pool t).args 0).isIdentity b = false) {n : Nat} (hn : 2 ≤ n) :
    removeIdentityArg inst index n b = b.setArg inst index ((b.pool t).args 0) := by
  obtain ⟨n, rfl⟩ : ∃ n', n = n' + 1 := ⟨n - 1, by omega⟩
  rw [removeIdentityArg, ht]
  dsimp only
  rw [if_pos hid]
  apply removeIdentityArg_of_not_identity
  rw [Block.args_setArg, if_pos rfl, Function.update_self, Value.isIdentity_congr (Block.op_setArg b inst index _)]
  exact hw


/-- The loop on one argument of `inst`, in the course of the walk over `B`: when every identity before `inst` already has
the end of its chain as argument, the argument is set once if it is an identity, to the end of its chain in `B`. -/
theorem removeIdentityArg_spec (hB : B.ArgsEarlier) {pre post : List InstRef} (hL : B.instructions = pre ++ inst :: post)
    (hl : b.instructions = B.instructions) (hop : ∀ s, (b.pool s).op = (B.pool s).op)
    (hpre : ∀ s ∈ pre, (b.pool s).args 0 = ((B.pool s).args 0).resolve B)
    (hslot : (b.pool inst).args index = (B.pool inst).args index) :
    removeIdentityArg inst index b.fuel b =
      if ((B.pool inst).args index).isIdentity B then b.setArg inst index (((B.pool inst).args index).resolve B)
      else b := by
  split
  · rename_i hid
    obtain ⟨i, hi⟩ : ∃ i, (B.pool inst).args index = .inst i := by
      cases h : (B.pool inst).args index <;> simp_all [Value.isIdentity]
    rw [hi, Value.isIdentity, decide_eq_true_eq] at hid
    -- the identity comes earlier, so its argument is already the end of its chain, which is not an identity
    have hipre : i ∈ pre := hB.mem_of_arg hL hi
    obtain ⟨pre', post', hL'⟩ := List.append_of_mem hipre
    have hL'' : B.instructions = pre' ++ i :: (post' ++ inst :: post) := by simp [hL, hL']
    have hend := (hB.resolve_arg hL'' 0).1
    have hlen : 2 ≤ b.fuel := by
      rw [Block.fuel, hl, hL]
      simp only [List.length_append, List.length_cons]
      omega
    rw [hi, hB.resolve_of_identity (by rw [hL]; exact List.mem_append_left _ hipre) hid, ← hpre i hipre]
    refine removeIdentityArg_of_identity (by rw [hslot, hi]) (by rw [hop, hid]) ?_ hlen
    rw [hpre i hipre, Value.isIdentity_congr hop]
    exact hend
  · rename_i hnid
    refine removeIdentityArg_of_not_identity ?_ _
    rw [hslot, Value.isIdentity_congr hop]
    simpa using hnid

/-! ### One instruction -/

/-- The walk at `inst`: every argument of `inst` becomes the end of its chain in `B`, nothing else but use counts and
chains of pseudo-operations changes, and the use counts of the instructions that are not identities stay exact. -/
theorem removeIdentityArgs_spec (hB : Ready B) {pre post : List InstRef} (hL : B.instructions = pre ++ inst :: post)
    (hl : b.instructions = B.instructions) (hop : ∀ s, (b.pool s).op = (B.pool s).op)
    (hpre : ∀ s ∈ pre, (b.pool s).args 0 = ((B.pool s).args 0).resolve B)
    (hinst : (b.pool inst).args = (B.pool inst).args)
    (hexact : ∀ t ∈ B.instructions, (B.pool t).op ≠ .identity → b.uses t = (b.pool t).useCount) :
    (removeIdentityArgs b inst).instructions = B.instructions ∧
      (∀ s, ((removeIdentityArgs b inst).pool s).op = (B.pool s).op) ∧
      (∀ s, s ≠ inst → ((removeIdentityArgs b inst).pool s).args = (b.pool s).args) ∧
      (∀ k, ((removeIdentityArgs b inst).pool inst).args k = ((B.pool inst).args k).resolve B) ∧
      (∀ t ∈ B.instructions, (B.pool t).op ≠ .identity →
        (removeIdentityArgs b inst).uses t = ((removeIdentityArgs b inst).pool t).useCount) := by
  rw [removeIdentityArgs]
  have hself : inst ∈ B.instructions := by simp [hL]
  have hslots : (Block.argSlots (b.pool inst).op).Nodup := (List.nodup_finRange 4).filter _
  have hnotpre : inst ∉ pre := by
    have hnd := hB.nodup
    rw [hL, List.nodup_append] at hnd
    exact fun h => hnd.2.2 inst h inst List.mem_cons_self rfl
  -- the slots one by one: those done hold the end of their chain, the others what they held in `B`
  have hfold := Run.foldl_invariant_prefix (f := fun b index => removeIdentityArg inst index b.fuel b)
    (fun (done : List (Fin 4)) (b' : Block) => b'.instructions = B.instructions ∧
      (∀ s, (b'.pool s).op = (B.pool s).op) ∧ (∀ s, s ≠ inst → (b'.pool s).args = (b.pool s).args) ∧
      (∀ k, (b'.pool inst).args k = if k ∈ done then ((B.pool inst).args k).resolve B else (B.pool inst).args k) ∧
      (∀ t ∈ B.instructions, (B.pool t).op ≠ .identity → b'.uses t = (b'.pool t).useCount))
    (Block.argSlots (b.pool inst).op)
    (fun done k rest b' hsplit ⟨hl', hop', hoth', hinst', hexact'⟩ => by
      have hk : k ∉ done := by
        rw [hsplit, List.nodup_append] at hslots
        exact fun h => hslots.2.2 k h k List.mem_cons_self rfl
      have hpre' : ∀ s ∈ pre, (b'.pool s).args 0 = ((B.pool s).args 0).resolve B := fun s hs => by
        rw [hoth' s (fun h => hnotpre (h ▸ hs))]
        exact hpre s hs
      have hspec := removeIdentityArg_spec hB.argsEarlier hL hl' hop' hpre' (by rw [hinst', if_neg hk])
      rw [hspec]
      split
      · -- the slot was an identity: `SetArg` to the end of its chain
        refine ⟨(Block.instructions_setArg ..).trans hl', fun s => (Block.op_setArg ..).trans (hop' s),
          fun s hs => by rw [Block.args_setArg, if_neg hs, hoth' s hs], fun j => ?_, fun t ht hid => ?_⟩
        · rw [Block.args_setArg, if_pos rfl, Function.update_apply, hinst']
          by_cases hj : j = k
          · subst hj
            simp
          · simp [hj]
        · exact Block.uses_eq_useCount_setArg (hl' ▸ hB.nodup) (hl' ▸ hself) k _
            (Value.isImmediate_inst_of_op_ne (by rw [hop']; exact hid)) (hexact' t ht hid)
      · -- the slot was not an identity: it is the end of its own chain
        rename_i hnid
        refine ⟨hl', hop', hoth', fun j => ?_, hexact'⟩
        rw [hinst']
        by_cases hj : j = k
        · subst hj
          rw [if_neg hk, if_pos (List.mem_append_right _ (List.mem_singleton_self _)),
            Value.resolve_of_not_identity (by simpa using hnid)]
        · simp [hj])
    ⟨hl, hop, fun _ _ => rfl, fun k => by rw [if_neg List.not_mem_nil, hinst], hexact⟩
  obtain ⟨hl₁, hop₁, hoth₁, hinst₁, hexact₁⟩ := hfold
  refine ⟨hl₁, hop₁, hoth₁, fun k => ?_, hexact₁⟩
  rw [hinst₁]
  split
  · rfl
  · -- a slot past the arity is empty, and so is the end of its chain
    rename_i hk
    have hvoid : (B.pool inst).args k = .void := hB.slotsInArity inst hself k (by
      simp only [Block.argSlots, List.mem_filter, List.mem_finRange, true_and, decide_eq_true_eq, hop] at hk
      omega)
    rw [hvoid]
    rfl


/-! ### The walk over the list -/

/-- The walk over `B` after the instructions of `pre`, the front of its list. -/
structure Visited (B : Block) (pre : List InstRef) (st : IdentityRemovalState) : Prop where
  instructions : st.block.instructions = B.instructions
  op : ∀ s, (st.block.pool s).op = (B.pool s).op
  unvisited : ∀ s, s ∉ pre → (st.block.pool s).args = (B.pool s).args
  visited : ∀ s ∈ pre, ∀ k, (st.block.pool s).args k = ((B.pool s).args k).resolve B
  useCountExact : ∀ t ∈ B.instructions, (B.pool t).op ≠ .identity → st.block.uses t = (st.block.pool t).useCount
  kept : st.kept = pre.filter fun s => !erased B s
  toInvalidate : st.toInvalidate = pre.filter (erased B)

/-- Before the walk, nothing is visited. -/
theorem visited_start (hB : Ready B) : Visited B [] ⟨B, [], []⟩ where
  instructions := rfl
  op _ := rfl
  unvisited _ _ := rfl
  visited _ h := absurd h List.not_mem_nil
  useCountExact := hB.useCountExact
  kept := rfl
  toInvalidate := rfl

/-- One step of the pass replaces the identity arguments of its instruction. -/
theorem block_identityRemovalStep (st : IdentityRemovalState) (inst : InstRef) :
    (identityRemovalStep st inst).block = removeIdentityArgs st.block inst := by
  simp only [identityRemovalStep]
  split <;> rfl

/-- One turn of the loop keeps the invariant, one instruction further. -/
theorem Visited.step (hB : Ready B) {pre post : List InstRef} (hL : B.instructions = pre ++ inst :: post)
    {st : IdentityRemovalState} (h : Visited B pre st) : Visited B (pre ++ [inst]) (identityRemovalStep st inst) := by
  have hnotpre : inst ∉ pre := by
    have hnd := hB.nodup
    rw [hL, List.nodup_append] at hnd
    exact fun h => hnd.2.2 inst h inst List.mem_cons_self rfl
  obtain ⟨hl, hop, hoth, hinst, hexact⟩ := removeIdentityArgs_spec hB hL h.instructions h.op
    (fun s hs => h.visited s hs 0) (h.unvisited inst hnotpre) h.useCountExact
  have hdec : (((removeIdentityArgs st.block inst).pool inst).op = .identity ∨
      ((removeIdentityArgs st.block inst).pool inst).op = .void) ↔ erased B inst = true := by
    rw [hop, erased, decide_eq_true_iff]
  have hlists : (identityRemovalStep st inst).kept = st.kept ++ (if erased B inst then [] else [inst]) ∧
      (identityRemovalStep st inst).toInvalidate = st.toInvalidate ++ (if erased B inst then [inst] else []) := by
    simp only [identityRemovalStep]
    by_cases he : erased B inst = true
    · simp only [if_pos (hdec.mpr he), he, if_true, List.append_nil, and_self]
    · simp only [if_neg (mt hdec.mp he), he, Bool.false_eq_true, if_false, List.append_nil, and_self]
  rw [← block_identityRemovalStep] at hl hop hoth hinst hexact
  refine ⟨hl, hop, fun s hs => ?_, fun s hs k => ?_, hexact, ?_, ?_⟩
  · have hsi : s ≠ inst := fun h => hs (by simp [h])
    rw [hoth s hsi, h.unvisited s fun h => hs (List.mem_append_left _ h)]
  · by_cases hsi : s = inst
    · subst hsi
      exact hinst k
    · have hspre : s ∈ pre := by simpa [hsi] using hs
      rw [hoth s hsi, h.visited s hspre k]
  · rw [hlists.1, h.kept, List.filter_append]
    by_cases he : erased B inst = true <;> simp [he]
  · rw [hlists.2, h.toInvalidate, List.filter_append]
    by_cases he : erased B inst = true <;> simp [he]

/-- After the loop: every argument of the list is the end of its chain in `B`, the opcodes are those of `B`, the counts
of the instructions that are not identities are exact, and the list is split into what is kept and what is erased. -/
theorem visited_foldl (hB : Ready B) :
    Visited B B.instructions (B.instructions.foldl identityRemovalStep ⟨B, [], []⟩) :=
  Run.foldl_invariant_prefix (Visited B) B.instructions (fun _ _ _ _ hL h => h.step hB hL) (visited_start hB)


/-! ### The invalidations, and what the pass leaves -/

/-- The invalidations at the end, from the state of the finished loop: the erased instructions become `Void` with empty
arguments, the others keep what the loop left them, and the counts of the instructions that are not identities stay
exact. -/
theorem invalidate_foldl (hB : Ready B) {st : IdentityRemovalState} (h : Visited B B.instructions st) :
    (st.toInvalidate.foldl Block.invalidate st.block).instructions = B.instructions ∧
      (∀ s, s ∉ st.toInvalidate → ((st.toInvalidate.foldl Block.invalidate st.block).pool s).op = (B.pool s).op ∧
        ((st.toInvalidate.foldl Block.invalidate st.block).pool s).args = (st.block.pool s).args) ∧
      (∀ s ∈ st.toInvalidate, ∀ k, ((st.toInvalidate.foldl Block.invalidate st.block).pool s).args k = .void) ∧
      (∀ t ∈ B.instructions, (B.pool t).op ≠ .identity →
        (st.toInvalidate.foldl Block.invalidate st.block).uses t =
          ((st.toInvalidate.foldl Block.invalidate st.block).pool t).useCount) := by
  have hsub : ∀ u ∈ st.toInvalidate, u ∈ B.instructions := fun u hu => by
    rw [h.toInvalidate] at hu
    exact List.mem_of_mem_filter hu
  have hnd : st.toInvalidate.Nodup := by
    rw [h.toInvalidate]
    exact hB.nodup.filter _
  -- the erased instructions one by one: those done are `Void` and empty, the others as the loop left them
  have hfold := Run.foldl_invariant_prefix (f := Block.invalidate)
    (fun (done : List InstRef) (b' : Block) => b'.instructions = B.instructions ∧
      (∀ s, s ∉ done → (b'.pool s).op = (B.pool s).op ∧ (b'.pool s).args = (st.block.pool s).args) ∧
      (∀ s ∈ done, (b'.pool s).op = .void ∧ ∀ k, (b'.pool s).args k = .void) ∧
      (∀ t ∈ B.instructions, (B.pool t).op ≠ .identity → b'.uses t = (b'.pool t).useCount))
    st.toInvalidate
    (fun done u rest b' hsplit ⟨hl, hoth, hdone, hexact⟩ => by
      have hu : u ∉ done := by
        rw [hsplit, List.nodup_append] at hnd
        exact fun h => hnd.2.2 u h u List.mem_cons_self rfl
      have huL : u ∈ B.instructions := hsub u (by rw [hsplit]; simp)
      refine ⟨(Block.instructions_invalidate b' u).trans hl, fun s hs => ?_, fun s hs => ?_, fun t ht hid => ?_⟩
      · have hsu : s ≠ u := fun h => hs (by simp [h])
        rw [Block.op_invalidate, Block.args_invalidate, if_neg hsu, if_neg hsu]
        exact hoth s fun h => hs (List.mem_append_left _ h)
      · rw [Block.op_invalidate, Block.args_invalidate]
        by_cases hsu : s = u
        · rw [if_pos hsu, if_pos hsu]
          exact ⟨rfl, fun _ => rfl⟩
        · rw [if_neg hsu, if_neg hsu]
          exact hdone s (by simpa [hsu] using hs)
      · -- `t` is either still as in `B`, not an identity, or already `Void`
        have hop : (b'.pool t).op ≠ .identity := by
          by_cases htd : t ∈ done
          · rw [(hdone t htd).1]
            exact Opcode.noConfusion
          · rw [(hoth t htd).1]
            exact hid
        exact Block.uses_eq_useCount_invalidate_of_op_ne (hl ▸ hB.nodup) (hl ▸ huL) hop (hexact t ht hid))
    ⟨h.instructions, fun s _ => ⟨h.op s, rfl⟩, fun s hs => absurd hs List.not_mem_nil, h.useCountExact⟩
  obtain ⟨hl, hoth, hdone, hexact⟩ := hfold
  exact ⟨hl, hoth, fun s hs => (hdone s hs).2, hexact⟩

/-- What `IdentityRemovalPass` leaves of a block `B`: the instructions that are neither identities nor `Void`, in order,
with their opcodes, each argument the end of its chain of identities in `B`, and exact use counts. -/
structure Result (B B' : Block) : Prop where
  instructions : B'.instructions = B.instructions.filter fun s => !erased B s
  op : ∀ s ∈ B'.instructions, (B'.pool s).op = (B.pool s).op
  args : ∀ s ∈ B'.instructions, ∀ k, (B'.pool s).args k = ((B.pool s).args k).resolve B
  uses : ∀ t ∈ B'.instructions, B'.uses t = (B'.pool t).useCount

/-- The pass leaves a `Result` of a ready block. -/
theorem result (hB : Ready B) : Result B (identityRemovalPass B) := by
  have hv := visited_foldl hB
  rw [identityRemovalPass]
  generalize B.instructions.foldl identityRemovalStep ⟨B, [], []⟩ = st at hv ⊢
  obtain ⟨hl₂, hoth₂, hvoid₂, hexact₂⟩ := invalidate_foldl hB hv
  generalize st.toInvalidate.foldl Block.invalidate st.block = b₂ at hl₂ hoth₂ hvoid₂ hexact₂ ⊢
  have hkept : ∀ s ∈ st.kept, s ∈ B.instructions ∧ s ∉ st.toInvalidate := fun s hs => by
    rw [hv.kept, List.mem_filter] at hs
    refine ⟨hs.1, fun h => ?_⟩
    rw [hv.toInvalidate, List.mem_filter] at h
    simp_all
  refine ⟨hv.kept, fun s hs => (hoth₂ s (hkept s hs).2).1, fun s hs k => ?_, fun t ht => ?_⟩
  · rw [show ({ b₂ with instructions := st.kept } : Block).pool = b₂.pool from rfl, (hoth₂ s (hkept s hs).2).2]
    exact hv.visited s (hkept s hs).1 k
  · -- the erased instructions have empty slots, so leaving them out of the list leaves the uses
    have hfilter : ({ b₂ with instructions := st.kept } : Block) =
        { b₂ with instructions := b₂.instructions.filter fun s => !erased B s } := by
      rw [hl₂, ← hv.kept]
    have huses := Block.uses_filter (b := b₂) (fun s => !erased B s) (fun s hs he => hvoid₂ s (by
      rw [hv.toInvalidate, List.mem_filter]
      exact ⟨hl₂ ▸ hs, by simpa using he⟩)) t
    rw [hfilter, huses]
    exact hexact₂ t (hkept t ht).1 (fun hid => by
      rw [hv.kept, List.mem_filter] at ht
      simp [erased, hid] at ht)


/-- The end of the chain from an argument of the list is the value of some argument slot of the list, so it is no
`Void` instruction. -/
theorem resolve_arg_op_ne_void (hB : Ready B) {r : InstRef} (hr : r ∈ B.instructions) {k : Fin 4} {t : InstRef}
    (ht : ((B.pool r).args k).resolve B = .inst t) : (B.pool t).op ≠ .void := by
  have hslot := @Value.resolveAux_mem B.pool (fun v => ∃ r' ∈ B.instructions, ∃ k', (B.pool r').args k' = v)
    (fun i ⟨r', hr', k', hk'⟩ _ => ⟨i, hB.argsEarlier.mem_of_arg_of_mem hr' hk', 0, rfl⟩) B.fuel _ ⟨r, hr, k, rfl⟩
  obtain ⟨r', hr', k', hk'⟩ := hslot
  exact hB.op_ne_void hr' (hk'.trans ht)

variable {B' : Block}

/-- The block the pass leaves has each instruction once. -/
theorem Result.nodup (hB : Ready B) (hR : Result B B') : B'.instructions.Nodup := by
  rw [hR.instructions]
  exact hB.nodup.filter _

/-- The arguments of an instruction the pass keeps refer to instructions it keeps, earlier in its list. -/
theorem Result.arg_kept (hB : Ready B) (hR : Result B B') {pre post : List InstRef} {r : InstRef}
    (hK : B'.instructions = pre ++ r :: post) {k : Fin 4} {t : InstRef} (ht : (B'.pool r).args k = .inst t) :
    t ∈ pre ∧ t ∈ B.instructions ∧ erased B t = false := by
  have hrK : r ∈ B'.instructions := by simp [hK]
  have hrL : r ∈ B.instructions ∧ erased B r = false := by
    have := hrK
    rw [hR.instructions, List.mem_filter] at this
    simpa using this
  obtain ⟨P, Q, hL⟩ := List.append_of_mem hrL.1
  rw [hR.args r hrK k] at ht
  -- in `B` the chain ends at an instruction of `P` that is neither an identity nor `Void`
  obtain ⟨hnid, hbefore⟩ := hB.argsEarlier.resolve_arg hL k
  have htP := hbefore t ht
  have hid : (B.pool t).op ≠ .identity := by
    rw [ht] at hnid
    simpa [Value.isIdentity] using hnid
  have herased : erased B t = false := by
    simp [erased, hid, resolve_arg_op_ne_void hB hrL.1 ht]
  have hsplit : B'.instructions = P.filter (fun s => !erased B s) ++ r :: Q.filter (fun s => !erased B s) := by
    rw [hR.instructions, hL, List.filter_append, List.filter_cons, if_pos (by simp [hrL.2])]
  have hpre : pre = P.filter fun s => !erased B s :=
    prefix_eq_of_nodup (hK ▸ hR.nodup hB) (hK.symm.trans hsplit)
  refine ⟨hpre ▸ List.mem_filter.mpr ⟨htP, by simp [herased]⟩, ?_, herased⟩
  rw [hL]
  exact List.mem_append_left _ htP

/-- The block the pass leaves is well formed. -/
theorem Result.wellFormed (hB : Ready B) (hR : Result B B') : B'.WellFormed where
  nodup := hR.nodup hB
  argsEarlier := Block.argsEarlier_of_split fun _ _ _ hK _ _ ht => (hR.arg_kept hB hK ht).1
  useCountExact t ht := (hR.uses t ht).symm

/-- The block the pass leaves uses only the argument slots of each opcode's arity. -/
theorem Result.slotsInArity (hB : Ready B) (hR : Result B B') : B'.SlotsInArity := by
  intro r hr k hk
  have hrL : r ∈ B.instructions := List.mem_of_mem_filter (hR.instructions ▸ hr)
  rw [hR.args r hr k, hB.slotsInArity r hrL k (hR.op r hr ▸ hk)]
  rfl


/-! ### What the kept instructions compute -/

/-- An argument of `B` has the value of the end of its chain, the first under the run of `B` and the second under the
run of what the pass left, once the instructions kept among the first `n` compute what they computed in `B`. The
induction is on `j`, the part of the list the argument refers into. -/
theorem Result.value_resolve (hB : Ready B) (hR : Result B B') (σ : InstRef → Outcome) {n : Nat}
    (hIH : ∀ t ∈ B'.instructions, t ∈ B.instructions.take n → B'.run σ t = B.run σ t) :
    ∀ j ≤ n, ∀ v, v.refersInto (B.instructions.take j) = true → (∃ r ∈ B.instructions, ∃ k, (B.pool r).args k = v) →
      (evalArg (B'.run σ) (v.resolve B)).map Outcome.value = (evalArg (B.run σ) v).map Outcome.value := by
  have hearly : ∀ pre r post, B.instructions = pre ++ r :: post → ∀ k t, (B.pool r).args k = .inst t → t ∈ pre :=
    fun _ _ _ hL _ _ ht => hB.argsEarlier.mem_of_arg hL ht
  have himm : ∀ v, (∀ t, v ≠ .inst t) →
      (evalArg (B'.run σ) (v.resolve B)).map Outcome.value = (evalArg (B.run σ) v).map Outcome.value := by
    intro v hv
    rw [Value.resolve_of_not_identity (by cases v <;> first | rfl | exact absurd rfl (hv _)),
      evalArg_congr fun t ht => absurd ht (hv t)]
  intro j
  induction j with
  | zero =>
    intro _ v hv _
    exact himm v fun t ht => by simp [ht, Value.refersInto] at hv
  | succ j ih =>
    intro hj v hv hslot
    cases v
    case inst t =>
      have ht : t ∈ B.instructions.take (j + 1) := by simpa [Value.refersInto] using hv
      have htL : t ∈ B.instructions := List.mem_of_mem_take ht
      by_cases hid : (B.pool t).op = .identity
      · -- an identity computes the value of its argument, which refers further back
        obtain ⟨i, hi, hit⟩ := List.mem_iff_getElem.mp ht
        rw [List.length_take] at hi
        have h0 := hB.argsEarlier i (by omega) 0
        rw [List.getElem_take] at hit
        rw [hit] at h0
        have hrec := ih (by omega) _ (Value.refersInto_mono (List.take_subset_take_left _ (by omega)) h0)
          ⟨t, htL, 0, rfl⟩
        rw [hB.argsEarlier.resolve_of_identity htL hid, hrec, evalArg, Block.run_of_mem hB.nodup hearly σ htL,
          evalInst, if_neg (by rw [hid]; decide)]
        rw [hid]
        dsimp only [evalOp]
        cases evalArg (B.run σ) ((B.pool t).args 0) <;> rfl
      · -- an instruction that is neither an identity nor `Void` is kept, and computes what it computed
        obtain ⟨r, hr, k, hk⟩ := hslot
        have herased : erased B t = false := by simp [erased, hid, hB.op_ne_void hr hk]
        have htK : t ∈ B'.instructions := by
          rw [hR.instructions, List.mem_filter]
          exact ⟨htL, by simp [herased]⟩
        rw [Value.resolve_of_not_identity (by simpa [Value.isIdentity] using hid), evalArg, evalArg,
          hIH t htK (List.take_subset_take_left _ hj ht)]
    all_goals exact himm _ (fun _ => Value.noConfusion)

/-- Every instruction the pass keeps among the first `n` of the list computes what it computed in `B`, when no
instruction that reads side results reads them from an identity. -/
theorem Result.run (hB : Ready B) (hR : Result B B')
    (hside : ∀ r ∈ B.instructions, (B.pool r).op.readsSideResults = true → ((B.pool r).args 0).isIdentity B = false)
    (σ : InstRef → Outcome) :
    ∀ n, ∀ t ∈ B'.instructions, t ∈ B.instructions.take n → B'.run σ t = B.run σ t := by
  have hearly : ∀ pre r post, B.instructions = pre ++ r :: post → ∀ k t, (B.pool r).args k = .inst t → t ∈ pre :=
    fun _ _ _ hL _ _ ht => hB.argsEarlier.mem_of_arg hL ht
  have hearly' : ∀ pre r post, B'.instructions = pre ++ r :: post → ∀ k t, (B'.pool r).args k = .inst t → t ∈ pre :=
    fun _ _ _ hK _ _ ht => (hR.arg_kept hB hK ht).1
  intro n
  induction n with
  | zero => exact fun t _ ht => absurd ht (by simp)
  | succ n ih =>
    intro t htK ht
    rw [List.take_add_one, List.mem_append] at ht
    rcases ht with ht | ht
    · exact ih t htK ht
    obtain ⟨hn, rfl⟩ : ∃ hn : n < B.instructions.length, t = B.instructions[n] := by
      cases h : B.instructions[n]? with
      | none => simp [h] at ht
      | some u =>
        rw [h, Option.toList_some, List.mem_singleton] at ht
        obtain ⟨hn, hu⟩ := List.getElem?_eq_some_iff.mp h
        exact ⟨hn, ht.trans hu.symm⟩
    have htL : B.instructions[n] ∈ B.instructions := List.getElem_mem hn
    rw [Block.run_of_mem (hR.nodup hB) hearly' σ htK, Block.run_of_mem hB.nodup hearly σ htL, evalInst, evalInst,
      hR.op _ htK]
    split
    · rfl
    · apply evalOp_congr
      · intro k
        rw [hR.args _ htK k]
        exact hR.value_resolve hB σ ih n le_rfl _ (hB.argsEarlier n hn k) ⟨_, htL, k, rfl⟩
      · intro hreads
        rw [hR.args _ htK 0, Value.resolve_of_not_identity (hside _ htL hreads)]
        cases hv : (B.pool B.instructions[n]).args 0
        case inst u =>
          have huL : u ∈ B.instructions.take n := by
            have := hB.argsEarlier n hn 0
            rw [hv] at this
            simpa [Value.refersInto] using this
          have hnid := hside _ htL hreads
          rw [hv] at hnid
          have herased : erased B u = false := by
            simp only [Value.isIdentity, decide_eq_false_iff_not] at hnid
            simp [erased, hnid, hB.op_ne_void htL hv]
          have huK : u ∈ B'.instructions := by
            rw [hR.instructions, List.mem_filter]
            exact ⟨List.mem_of_mem_take huL, by simp [herased]⟩
          exact ih u huK huL
        all_goals rfl

end IdentityRemoval


/-! ### `VerificationPass` -/

/-- `actual_uses[t]` of `VerificationPass`: the argument slots, within the arity, of the instructions of the list that
refer to `t` and do not report themselves immediate. -/
def actualUses (b : Block) (t : InstRef) : Nat :=
  (b.instructions.map fun r => ((Block.argSlots (b.pool r).op).filter fun k =>
    (b.pool r).args k == .inst t && !((b.pool r).args k).isImmediate b).length).sum

/-- The use-count check of `VerificationPass`: the instruction each counted slot refers to has as many uses as counted
slots refer to it. The check of argument types, for which the model has no types, is left out. -/
def verificationPass (b : Block) : Bool :=
  b.instructions.all fun r => (Block.argSlots (b.pool r).op).all fun k =>
    match (b.pool r).args k with
    | .inst t => (Value.inst t).isImmediate b || (b.pool t).useCount == actualUses b t
    | _ => true

/-- The slots `VerificationPass` counts for an instruction that does not report itself immediate are all the slots that
refer to it, when the slots past each arity are empty. -/
theorem actualUses_eq_uses {b : Block} (harity : b.SlotsInArity) {t : InstRef}
    (ht : (Value.inst t).isImmediate b = false) : actualUses b t = b.uses t := by
  unfold actualUses Block.uses
  congr 1
  apply List.map_congr_left
  intro r hr
  rw [← List.countP_eq_length_filter, Block.argSlots, List.countP_filter, argUses]
  apply List.countP_congr
  intro k _
  by_cases hk : (b.pool r).args k = .inst t
  · -- a slot that refers to `t` lies within the arity
    have hlt : k.val < (b.pool r).op.numArgs := by
      by_contra hge
      rw [harity r hr k (by omega)] at hk
      exact Value.noConfusion hk
    simp [hk, ht, hlt]
  · simp [hk]

/-- `VerificationPass` accepts every well-formed block whose slots past each arity are empty. -/
theorem verificationPass_of_wellFormed {b : Block} (hb : b.WellFormed) (harity : b.SlotsInArity) :
    verificationPass b = true := by
  simp only [verificationPass, List.all_eq_true]
  intro r hr k _
  split
  · rename_i t hk
    cases himm : (Value.inst t).isImmediate b
    · have htL := hb.mem_of_arg_of_mem hr hk
      simp [actualUses_eq_uses harity himm, hb.useCountExact t htL]
    · rfl
  · rfl

/-! ### The pass -/

/-- `IdentityRemovalPass` of a `Ready` block keeps exactly the instructions that are neither identities nor `Void`, in
order, and leaves a well-formed block with the slots past each arity empty and no argument that is an identity, which
`VerificationPass` accepts. -/
theorem identityRemovalPass_wellFormed {B : Block} (hB : IdentityRemoval.Ready B) :
    (identityRemovalPass B).instructions = B.instructions.filter (fun s => !IdentityRemoval.erased B s) ∧
      (identityRemovalPass B).WellFormed ∧ (identityRemovalPass B).SlotsInArity ∧
      (∀ r ∈ (identityRemovalPass B).instructions, ∀ k,
        (((identityRemovalPass B).pool r).args k).isIdentity (identityRemovalPass B) = false) ∧
      verificationPass (identityRemovalPass B) = true := by
  have hR := IdentityRemoval.result hB
  refine ⟨hR.instructions, hR.wellFormed hB, hR.slotsInArity hB, fun r hr k => ?_,
    verificationPass_of_wellFormed (hR.wellFormed hB) (hR.slotsInArity hB)⟩
  cases hk : ((identityRemovalPass B).pool r).args k
  case inst t =>
    obtain ⟨pre, post, hK⟩ := List.append_of_mem hr
    obtain ⟨htpre, -, herased⟩ := hR.arg_kept hB hK hk
    have htK : t ∈ (identityRemovalPass B).instructions := by simp [hK, htpre]
    simp only [IdentityRemoval.erased, Bool.decide_or, Bool.or_eq_false_iff, decide_eq_false_iff_not] at herased
    simp [Value.isIdentity, hR.op t htK, herased.1]
  all_goals rfl

/-- `%0 = A32GetRegister(R1)`, two identities of it in a chain, `%3 = Add32(%2, #1, #0)` and
`%4 = A32SetRegister(R2, %3)`. -/
def identityChainBlock : Block where
  pool r :=
    [mkInst .a32GetRegister 1 [.a32Reg ⟨1, one_lt_sixteen⟩],
      mkInst .identity 1 [.inst 0],
      mkInst .identity 1 [.inst 1],
      mkInst .add32 1 [.inst 2, .u32 1, .u1 false],
      mkInst .a32SetRegister 0 [.a32Reg ⟨2, two_lt_sixteen⟩, .inst 3]].getD r
      (Inst.new .void)
  instructions := [0, 1, 2, 3, 4]

/-- On a chain of identities, the pass erases the identities, and the block it leaves is well formed and refers to no
identity. -/
theorem identityRemovalPass_wellFormed_chain :
    IdentityRemoval.Ready identityChainBlock ∧
      (identityRemovalPass identityChainBlock).instructions =
        identityChainBlock.instructions.filter (fun s => !IdentityRemoval.erased identityChainBlock s) ∧
      (identityRemovalPass identityChainBlock).WellFormed ∧ (identityRemovalPass identityChainBlock).SlotsInArity ∧
      (∀ r ∈ (identityRemovalPass identityChainBlock).instructions, ∀ k,
        (((identityRemovalPass identityChainBlock).pool r).args k).isIdentity (identityRemovalPass identityChainBlock) =
          false) ∧
      verificationPass (identityRemovalPass identityChainBlock) = true :=
  have hB : IdentityRemoval.Ready identityChainBlock := by decide +kernel
  ⟨hB, identityRemovalPass_wellFormed hB⟩

/-- Every instruction `IdentityRemovalPass` keeps computes the outcome it computed before the pass, from any inputs, on
a `Ready` block in which no instruction that reads side results reads them from an identity. -/
theorem identityRemovalPass_run {B : Block} (hB : IdentityRemoval.Ready B)
    (hside : ∀ r ∈ B.instructions, (B.pool r).op.readsSideResults = true → ((B.pool r).args 0).isIdentity B = false)
    (σ : InstRef → Outcome) {r : InstRef} (hr : r ∈ (identityRemovalPass B).instructions) :
    (identityRemovalPass B).run σ r = B.run σ r := by
  have hR := IdentityRemoval.result hB
  have hrL : r ∈ B.instructions := List.mem_of_mem_filter (hR.instructions ▸ hr)
  exact hR.run hB hside σ B.instructions.length r hr (by rwa [List.take_length])

/-- On a chain of identities, the add computes the same value after the pass. -/
theorem identityRemovalPass_run_chain :
    IdentityRemoval.Ready identityChainBlock ∧
      (∀ r ∈ identityChainBlock.instructions, (identityChainBlock.pool r).op.readsSideResults = true →
        ((identityChainBlock.pool r).args 0).isIdentity identityChainBlock = false) ∧
      3 ∈ (identityRemovalPass identityChainBlock).instructions ∧
      (identityRemovalPass identityChainBlock).run (fun _ => .plain (.u32 5)) 3 =
        identityChainBlock.run (fun _ => .plain (.u32 5)) 3 :=
  have hB : IdentityRemoval.Ready identityChainBlock := by decide +kernel
  have hside : ∀ r ∈ identityChainBlock.instructions, (identityChainBlock.pool r).op.readsSideResults = true →
      ((identityChainBlock.pool r).args 0).isIdentity identityChainBlock = false := by decide
  have hr : 3 ∈ (identityRemovalPass identityChainBlock).instructions := by decide +kernel
  ⟨hB, hside, hr, identityRemovalPass_run hB hside _ hr⟩

/-! ### After `DeadCodeElimination` -/

/-- `DeadCodeElimination` of a well-formed block, with its slots past each arity empty and no argument that refers to a
`Void` instruction, leaves a block ready for `IdentityRemovalPass`: the counts it leaves stale are those of identities. -/
theorem IdentityRemoval.ready_deadCodeElimination {B : Block} (hB : B.WellFormed) (harity : B.SlotsInArity)
    (hvoid : ∀ r ∈ B.instructions, ∀ t ∈ B.instructions, (B.pool t).op = .void → ∀ k, (B.pool r).args k ≠ .inst t) :
    IdentityRemoval.Ready (deadCodeElimination B) := by
  have hinv := DeadCodeElimination.invariant_deadCodeElimination hB
  have hL := hinv.instructions
  have hslot : ∀ r ∈ B.instructions, ∀ k, ((deadCodeElimination B).pool r).args k = .void ∨
      ((deadCodeElimination B).pool r).args k = (B.pool r).args k ∧
        ((deadCodeElimination B).pool r).op = (B.pool r).op := fun r hr k => by
    rcases hinv.visited r hr with he | hk
    · exact .inl (he.args k)
    · exact .inr ⟨by rw [hk.args], hk.op⟩
  refine ⟨hL ▸ hB.nodup, fun i hi k => ?_, fun r hr k hk => ?_, fun r hr t ht hop k hk => ?_, fun t ht hid => ?_⟩
  · have hi' : i < B.instructions.length := hL ▸ hi
    have hget : (deadCodeElimination B).instructions[i] = B.instructions[i] := by simp only [hL]
    rw [hget, hL]
    rcases hslot _ (List.getElem_mem hi') k with h | ⟨h, -⟩
    · rw [h]
      rfl
    · rw [h]
      exact hB.argsEarlier i hi' k
  · rw [hL] at hr
    rcases hslot r hr k with h | ⟨h, hop⟩
    · exact h
    · rw [h]
      exact harity r hr k (hop ▸ hk)
  · -- a slot that still refers to `t` keeps `t`, whose opcode is then the one of `B`
    rw [hL] at hr ht
    have hkept := DeadCodeElimination.kept_of_arg hB hr hk
    rcases hslot r hr k with h | ⟨h, -⟩
    · rw [h] at hk
      exact Value.noConfusion hk
    · exact hvoid r hr t ht (hkept.op ▸ hop) k (h ▸ hk)
  · rw [hL] at ht
    rcases hinv.visited t ht with he | hk
    · -- an eliminated instruction has no uses counted, and the counts bound the slots
      have hle := hinv.counted t ht
      rw [he.useCount] at hle ⊢
      omega
    · exact DeadCodeElimination.exact_of_op_ne hB.nodup (fun t ht _ => (hB.useCountExact t ht).symm) t ht
        (hk.op ▸ hid)

/-- The end of the pipeline: on a well-formed block with its slots past each arity empty and no argument that refers to
a `Void` instruction, `DeadCodeElimination` and then `IdentityRemovalPass` leave a block that `VerificationPass` accepts,
although `DeadCodeElimination` may leave the use count of an identity stale. -/
theorem deadCodeElimination_identityRemovalPass_verified {B : Block} (hB : B.WellFormed) (harity : B.SlotsInArity)
    (hvoid : ∀ r ∈ B.instructions, ∀ t ∈ B.instructions, (B.pool t).op = .void → ∀ k, (B.pool r).args k ≠ .inst t) :
    verificationPass (identityRemovalPass (deadCodeElimination B)) = true := by
  have hready := IdentityRemoval.ready_deadCodeElimination hB harity hvoid
  have hR := IdentityRemoval.result hready
  exact verificationPass_of_wellFormed (hR.wellFormed hready) (hR.slotsInArity hready)

/-- The dead multiply of `deadMultiplyBlock`: after `ConstantPropagation` the dead multiply leaves an
`Identity(#3)` that `DeadCodeElimination` keeps with a stale count, and `IdentityRemovalPass` erases it. -/
theorem deadCodeElimination_identityRemovalPass_verified_deadMultiply :
    (constantPropagation deadMultiplyBlock).WellFormed ∧ (constantPropagation deadMultiplyBlock).SlotsInArity ∧
      (∀ r ∈ (constantPropagation deadMultiplyBlock).instructions, ∀ t ∈ (constantPropagation deadMultiplyBlock).instructions,
        ((constantPropagation deadMultiplyBlock).pool t).op = .void → ∀ k,
          ((constantPropagation deadMultiplyBlock).pool r).args k ≠ .inst t) ∧
      verificationPass (identityRemovalPass (deadCodeElimination (constantPropagation deadMultiplyBlock))) = true :=
  have hB : (constantPropagation deadMultiplyBlock).WellFormed := by decide +kernel
  have harity : (constantPropagation deadMultiplyBlock).SlotsInArity := by decide +kernel
  have hvoid : ∀ r ∈ (constantPropagation deadMultiplyBlock).instructions,
      ∀ t ∈ (constantPropagation deadMultiplyBlock).instructions,
        ((constantPropagation deadMultiplyBlock).pool t).op = .void → ∀ k,
          ((constantPropagation deadMultiplyBlock).pool r).args k ≠ .inst t := by decide +kernel
  ⟨hB, harity, hvoid, deadCodeElimination_identityRemovalPass_verified hB harity hvoid⟩

end Dynarmic.Optimization
