import Mathlib.Data.PNat.Basic
import Dynarmic.Lib.Run
import Dynarmic.Frontend.A32.LocationDescriptor

/-!
# The return stack buffer across changes of the code cache

`backend/arm64/address_space.cpp` (`GetOrEmit`, `Emit`, `ClearCache`, `InvalidateBasicBlocks`), the arm64 `PushRSB` and
`PopRSBHint` emitters and the prelude that starts a run; `backend/x64/a32_interface.cpp` (`GetBasicBlock`,
`PerformRequestedCacheInvalidation`) with the x64 `PushRSBHelper` and `terminal_handler_pop_rsb_hint`.

A run executes blocks of the code cache and goes back to the dispatcher between them; the dispatcher looks the next
location up and emits its block on a miss. The return stack buffer is a ring of eight entries, each a location descriptor
and a code pointer: `PushRSB` stores the target with the pointer its link currently holds (the target's entry point if it
is registered, the fallback to the dispatcher otherwise), and `PopRSBHint` jumps to the top entry's pointer when its
descriptor is the current location.

The code region is modelled by what it holds: for every address, the descriptor and entry point of the block whose code
is there. Emitting a block writes its code at the emission offset. Clearing the cache forgets every block and moves the
offset back to the end of the prelude, so that later blocks overwrite the old code; the old code stays in memory until
then. On x64 the cache is cleared only together with `ResetRSB`. On arm64 `Emit` clears it by itself when less than
1 MiB remains, in the middle of a run, and the buffer (which lives in the run's stack frame) keeps its entries. The
module proves that a pop on x64 always jumps to the dispatcher or to the entry of a block of the popped location, and
gives an arm64 run in which it jumps into code that another block has overwritten.
-/

namespace Dynarmic.Backend

/-- An address in the code region, as an offset from its start. -/
abbrev CodePtr := Nat

/-- What the configuration fixes: the size of the code region, where the prelude ends, and the address a link holds for
a target that is not registered (arm64: `return_to_dispatcher`; x64: the return-from-run-code address). -/
structure CacheConfig where
  codeCacheSize : Nat
  endOfPrelude : Nat
  fallback : CodePtr

/-- `MINIMUM_REMAINING_CODESIZE` of x64 and the `1024 * 1024` of arm64's `Emit`. -/
def minimumRemainingCodesize : Nat :=
  1024 * 1024

/-- The code cache: the emission offset, the registered blocks (`block_entries`), and for each address of the region
the descriptor and entry point of the block whose code is there. -/
structure CodeCache (D : Type) where
  offset : Nat
  blockEntries : D → Option CodePtr
  mem : CodePtr → Option (D × CodePtr)

/-- The return stack buffer: eight entries and the index of the top one. A descriptor of `none` is one that no location
equals (x64's `ResetRSB` fills the descriptors with all ones). -/
structure RSB (D : Type) where
  entries : Fin 8 → Option D × CodePtr
  ptr : Fin 8

/-- The state a run works on. -/
structure Machine (D : Type) where
  cache : CodeCache D
  rsb : RSB D

/-- What happens during a run: the dispatcher looks a location up (and on a miss emits its block, of `size` bytes), a
block pushes or pops the buffer, or a callback invalidates locations. -/
inductive Event (D : Type) where
  | lookup (descriptor : D) (size : ℕ+)
  | pushRSB (target : D)
  | popRSB (current : D)
  | invalidate (descriptors : List D)

variable {D : Type} [DecidableEq D] (cfg : CacheConfig)

namespace CodeCache

/-- The cache as the prelude leaves it: nothing registered, emission right after the prelude. -/
def fresh : CodeCache D :=
  { offset := cfg.endOfPrelude, blockEntries := fun _ => none, mem := fun _ => none }

/-- `ClearCache`: forget every block and emit again from the end of the prelude; the code stays until overwritten. -/
def clearCache (c : CodeCache D) : CodeCache D :=
  { c with offset := cfg.endOfPrelude, blockEntries := fun _ => none }

/-- The code of a block written at the emission offset and the block registered there. -/
def write (c : CodeCache D) (descriptor : D) (size : ℕ+) : CodeCache D :=
  let entry := c.offset
  { offset := entry + size
    blockEntries := Function.update c.blockEntries descriptor (some entry)
    mem := fun a => if entry ≤ a ∧ a < entry + size then some (descriptor, entry) else c.mem a }

/-- `InvalidateBasicBlocks`: the locations are no longer registered; their code stays. -/
def invalidateBasicBlocks (c : CodeCache D) (descriptors : List D) : CodeCache D :=
  { c with blockEntries := fun d => if d ∈ descriptors then none else c.blockEntries d }

/-- Less than the minimum remains after the emission offset. -/
def lowOnSpace (c : CodeCache D) : Bool :=
  cfg.codeCacheSize - c.offset < minimumRemainingCodesize

end CodeCache

namespace Machine

/-- The address a link to `target` holds: its entry point, or the fallback. -/
def linkTarget (m : Machine D) (target : D) : CodePtr :=
  (m.cache.blockEntries target).getD cfg.fallback

/-- `PushRSB`: the next entry takes the target and its link. -/
def pushRSB (m : Machine D) (target : D) : Machine D :=
  let ptr := m.rsb.ptr + 1
  { m with rsb := { entries := Function.update m.rsb.entries ptr (some target, m.linkTarget cfg target), ptr } }

/-- Where `PopRSBHint` jumps: the top entry's pointer when its descriptor is the current location, else the fallback. -/
def popTarget (m : Machine D) (current : D) : CodePtr :=
  match m.rsb.entries m.rsb.ptr with
  | (some d, p) => if d = current then p else cfg.fallback
  | (none, _) => cfg.fallback

/-- `PopRSBHint` drops the top entry. -/
def popRSB (m : Machine D) : Machine D :=
  { m with rsb := { m.rsb with ptr := m.rsb.ptr - 1 } }

/-- The prelude of a run on arm64: every code pointer of the buffer is the dispatcher; the descriptors are whatever the
stack held (`stale`). -/
def startRun (m : Machine D) (stale : Fin 8 → Option D) : Machine D :=
  { m with rsb := { m.rsb with entries := fun i => (stale i, cfg.fallback) } }

/-- `ResetRSB` of x64: no entry matches any location. -/
def resetRSB (m : Machine D) : Machine D :=
  { m with rsb := { m.rsb with entries := fun _ => (none, 0) } }

end Machine

/-- The step of a run on arm64: `GetOrEmit`, whose `Emit` clears the cache by itself when space is low. -/
def Arm64.step (m : Machine D) : Event D → Machine D
  | .lookup d size =>
    if (m.cache.blockEntries d).isSome then m
    else
      let cache := if m.cache.lowOnSpace cfg then m.cache.clearCache cfg else m.cache
      { m with cache := cache.write d size }
  | .pushRSB target => m.pushRSB cfg target
  | .popRSB _ => m.popRSB
  | .invalidate ds => { m with cache := m.cache.invalidateBasicBlocks ds }

/-- The step of a run on x64: `GetBasicBlock`, which clears the cache through `PerformRequestedCacheInvalidation` and so
resets the buffer with it. -/
def X64.step (m : Machine D) : Event D → Machine D
  | .lookup d size =>
    if (m.cache.blockEntries d).isSome then m
    else
      let m := if m.cache.lowOnSpace cfg then { m.resetRSB with cache := m.cache.clearCache cfg } else m
      { m with cache := m.cache.write d size }
  | .pushRSB target => m.pushRSB cfg target
  | .popRSB _ => m.popRSB
  | .invalidate ds => { m with cache := m.cache.invalidateBasicBlocks ds }

/-- The safety of a pop: it jumps to the fallback, or to the entry point of a block of the current location whose code
is in the region (the registered block, or an invalidated one that nothing has overwritten). -/
def SafeJump (m : Machine D) (current : D) (p : CodePtr) : Prop :=
  p = cfg.fallback ∨ m.cache.mem p = some (current, p)

instance (m : Machine D) (current : D) (p : CodePtr) : Decidable (SafeJump cfg m current p) :=
  inferInstanceAs (Decidable (_ ∨ _))

/-- The observation a run must keep: every pop is safe. -/
def PopSafe (m : Machine D) : Event D → Prop
  | .popRSB current => SafeJump cfg m current (m.popTarget cfg current)
  | _ => True

/-- The invariant of a run on x64: the entry of every registered block, and every pointer of the buffer that is not the
fallback, lies below the emission offset and holds the entry of a block of its descriptor. -/
structure LiveCode (m : Machine D) : Prop where
  entries_live : ∀ d e, m.cache.blockEntries d = some e → e < m.cache.offset ∧ m.cache.mem e = some (d, e)
  rsb_live : ∀ i d p, m.rsb.entries i = (some d, p) →
    p = cfg.fallback ∨ (p < m.cache.offset ∧ m.cache.mem p = some (d, p))

namespace CodeCache

variable {cfg}

@[simp] theorem offset_write (c : CodeCache D) (d : D) (size : ℕ+) : (c.write d size).offset = c.offset + size := rfl

/-- Writing a block leaves the code below the emission offset as it was. -/
theorem mem_write_of_lt (c : CodeCache D) (d : D) (size : ℕ+) {p : CodePtr} (hp : p < c.offset) :
    (c.write d size).mem p = c.mem p := by
  simp [write, Nat.not_le.mpr hp]

/-- The written block's code starts at the old emission offset. -/
theorem mem_write_entry (c : CodeCache D) (d : D) (size : ℕ+) : (c.write d size).mem c.offset = some (d, c.offset) := by
  simp [write, size.pos]

/-- Writing a block registers its location at the current offset and leaves the other locations. -/
theorem blockEntries_write (c : CodeCache D) (d d' : D) (size : ℕ+) :
    (c.write d size).blockEntries d' = if d' = d then some c.offset else c.blockEntries d' := by
  by_cases h : d' = d
  · subst h
    simp [write]
  · simp [write, h]

end CodeCache

namespace LiveCode

variable {cfg} {m : Machine D}

/-- A pointer below the emission offset that holds a block's entry still does after a write. -/
theorem write_keeps (m : Machine D) (d : D) (size : ℕ+) {d' : D} {p : CodePtr}
    (h : p < m.cache.offset ∧ m.cache.mem p = some (d', p)) :
    p < (m.cache.write d size).offset ∧ (m.cache.write d size).mem p = some (d', p) := by
  obtain ⟨hlt, hmem⟩ := h
  refine ⟨?_, ?_⟩
  · rw [CodeCache.offset_write]
    exact Nat.lt_of_lt_of_le hlt (Nat.le_add_right _ _)
  · rw [CodeCache.mem_write_of_lt _ _ _ hlt, hmem]

/-- Emitting a block at the offset keeps the invariant. -/
theorem write (h : LiveCode cfg m) (d : D) (size : ℕ+) : LiveCode cfg { m with cache := m.cache.write d size } := by
  constructor
  · intro d' e he
    rw [CodeCache.blockEntries_write] at he
    split at he
    · -- the block just written: its entry is the old offset
      rename_i hd
      subst hd
      obtain rfl := Option.some.inj he
      refine ⟨?_, CodeCache.mem_write_entry _ _ _⟩
      rw [CodeCache.offset_write]
      exact Nat.lt_add_of_pos_right size.pos
    · exact write_keeps m d size (h.entries_live d' e he)
  · intro i d' p hi
    rcases h.rsb_live i d' p hi with hp | hp
    · exact .inl hp
    · exact .inr (write_keeps m d size hp)

omit [DecidableEq D] in
/-- Clearing the cache together with `ResetRSB` gives the invariant, whatever came before. -/
theorem resetRSB_clearCache (m : Machine D) : LiveCode cfg { m.resetRSB with cache := m.cache.clearCache cfg } := by
  constructor
  · intro d e he
    simp [CodeCache.clearCache] at he
  · intro i d p hi
    simp [Machine.resetRSB] at hi

omit [DecidableEq D] in
/-- A push stores the target's link, which the invariant covers. -/
theorem pushRSB (h : LiveCode cfg m) (target : D) : LiveCode cfg (m.pushRSB cfg target) := by
  refine ⟨h.entries_live, ?_⟩
  intro i d p hi
  by_cases hptr : i = m.rsb.ptr + 1
  · subst hptr
    simp only [Machine.pushRSB, Function.update_self, Prod.mk.injEq, Option.some.injEq] at hi
    obtain ⟨rfl, rfl⟩ := hi
    cases he : m.cache.blockEntries target with
    | none => exact .inl (by simp [Machine.linkTarget, he])
    | some e =>
      have hlink : m.linkTarget cfg target = e := by simp [Machine.linkTarget, he]
      exact .inr (hlink ▸ h.entries_live target e he)
  · simp only [Machine.pushRSB, Function.update_of_ne hptr] at hi
    exact h.rsb_live i d p hi

omit [DecidableEq D] in
/-- `PopRSB` only moves the stack pointer, so the code stays live. -/
theorem popRSB (h : LiveCode cfg m) : LiveCode cfg m.popRSB :=
  ⟨h.entries_live, h.rsb_live⟩

/-- Invalidating locations removes their entries, so every entry that is left and every return-stack entry stays live.
-/
theorem invalidate (h : LiveCode cfg m) (ds : List D) :
    LiveCode cfg { m with cache := m.cache.invalidateBasicBlocks ds } := by
  refine ⟨?_, h.rsb_live⟩
  intro d e he
  by_cases hd : d ∈ ds
  · simp [CodeCache.invalidateBasicBlocks, hd] at he
  · simp only [CodeCache.invalidateBasicBlocks, hd, if_false] at he
    exact h.entries_live d e he

omit [DecidableEq D] in
/-- A run starts from a fresh cache with the invariant: nothing is registered and the prelude points every entry of the
buffer at the fallback. -/
theorem fresh_startRun (rsb : RSB D) (stale : Fin 8 → Option D) :
    LiveCode cfg (Machine.startRun cfg ⟨CodeCache.fresh cfg, rsb⟩ stale) := by
  constructor
  · intro d e he
    simp [Machine.startRun, CodeCache.fresh] at he
  · intro i d p hi
    simp only [Machine.startRun, Prod.mk.injEq] at hi
    exact .inl hi.2.symm

/-- The invariant makes every pop safe. -/
theorem popSafe (h : LiveCode cfg m) (e : Event D) : PopSafe cfg m e := by
  cases e with
  | popRSB current =>
    show SafeJump cfg m current (m.popTarget cfg current)
    unfold Machine.popTarget
    rcases hp : m.rsb.entries m.rsb.ptr with ⟨_ | d, p⟩
    · exact .inl rfl
    · dsimp only
      split_ifs with hd
      · -- the top entry is for the current location: the invariant covers its pointer
        subst hd
        rcases h.rsb_live _ d p hp with hf | hlive
        · exact .inl hf
        · exact .inr hlive.2
      · exact .inl rfl
  | _ => trivial

end LiveCode

/-- Every step of a run on x64 keeps the invariant. -/
theorem X64.step_liveCode {m : Machine D} (h : LiveCode cfg m) (e : Event D) : LiveCode cfg (X64.step cfg m e) := by
  cases e with
  | lookup d size =>
    by_cases hhit : (m.cache.blockEntries d).isSome = true
    · simp only [X64.step, hhit, if_true]
      exact h
    · -- a miss emits the block, after the clear and the reset when space is low
      by_cases hlow : m.cache.lowOnSpace cfg = true
      · simp only [X64.step, hhit, hlow, if_true, if_false, Bool.false_eq_true]
        exact LiveCode.write (LiveCode.resetRSB_clearCache m) d size
      · simp only [X64.step, hhit, hlow, if_false, Bool.false_eq_true]
        exact h.write d size
  | pushRSB target => exact h.pushRSB target
  | popRSB _ => exact h.popRSB
  | invalidate ds => exact h.invalidate ds

/-- On x64 the return stack buffer never sends execution to stale code: from any state with the invariant (the start
of every run), every pop of every run jumps to the fallback or to the entry of a block of the current location. -/
theorem x64_rsb_pops_live_code {m : Machine D} (h : LiveCode cfg m) (evs : List (Event D)) :
    Run.Always (X64.step cfg) (PopSafe cfg) m evs :=
  Run.always_of_invariant (fun s e (hs : LiveCode cfg s) => X64.step_liveCode cfg hs e)
    (fun s e (hs : LiveCode cfg s) => hs.popSafe e) h evs

/-! ### A run on arm64 that pops into overwritten code -/

/-- An arm64 code region with room after its prelude for 16 bytes of blocks before less than 1 MiB remains. -/
def arm64Config : CacheConfig :=
  { codeCacheSize := 0x1000 + 16 + minimumRemainingCodesize - 1, endOfPrelude := 0x1000, fallback := 0x800 }

/-- The location a call returns to, the caller, and the called function. -/
def returnSite : IR.LocationDescriptor := ⟨0x2000⟩
def caller : IR.LocationDescriptor := ⟨0x1000⟩
def callee : IR.LocationDescriptor := ⟨0x3000⟩

/-- A run of a call whose return site was translated before: the dispatcher emits the return site's block and the
caller's block (16 bytes in all), the caller pushes its return site, the dispatcher emits the callee, which clears the
cache first, and the callee's `PopRSBHint` runs with the guest at the return site. -/
def arm64StaleRun : List (Event IR.LocationDescriptor) :=
  [.lookup returnSite 8, .lookup caller 8, .pushRSB returnSite, .lookup callee 8, .popRSB returnSite]

/-- The state an arm64 run starts in: a fresh cache and the buffer as the prelude leaves it. -/
def arm64Start : Machine IR.LocationDescriptor :=
  Machine.startRun arm64Config ⟨CodeCache.fresh arm64Config, ⟨fun _ => (none, 0), 0⟩⟩ fun _ => none

/-- On arm64 the return stack buffer can send execution to stale code: in `arm64StaleRun` the pop jumps to `0x1000`, the
return site's entry before the cache was cleared, which now holds the entry of the callee's block. -/
theorem arm64_rsb_pops_overwritten_code :
    (Run.run (Arm64.step arm64Config) arm64Start (arm64StaleRun.take 4)).popTarget arm64Config returnSite = 0x1000 ∧
      (Run.run (Arm64.step arm64Config) arm64Start (arm64StaleRun.take 4)).cache.mem 0x1000 = some (callee, 0x1000) ∧
      ¬ Run.Always (Arm64.step arm64Config) (PopSafe arm64Config) arm64Start arm64StaleRun := by
  have htarget :
      (Run.run (Arm64.step arm64Config) arm64Start (arm64StaleRun.take 4)).popTarget arm64Config returnSite = 0x1000 := by
    decide
  have hmem : (Run.run (Arm64.step arm64Config) arm64Start (arm64StaleRun.take 4)).cache.mem 0x1000 =
      some (callee, 0x1000) := by
    decide
  refine ⟨htarget, hmem, Run.not_always_of_append (arm64StaleRun.take 4) (.popRSB returnSite) [] ?_⟩
  -- the pop is the fifth event: it jumps to `0x1000`, which is neither the fallback nor the return site's code
  show ¬ SafeJump arm64Config _ returnSite _
  rw [SafeJump, htarget, hmem]
  decide

end Dynarmic.Backend
