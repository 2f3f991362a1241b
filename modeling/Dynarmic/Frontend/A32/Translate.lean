import Mathlib.Data.List.Basic

/-!
# Conditional instructions hoisted to the block

The A32 translators read the condition of an instruction through `IsConditionPassed`
(`frontend/A32/translate/conditional_state.cpp`). In a block that has no IR yet, the first condition other than AL
becomes the block's condition, and the instructions right after it with the same condition join it: the block's
condition-failed location and cycle count move past each of them. The loop of `TranslateArm` and `TranslateThumb` ends
the block before an instruction whose condition it cannot hoist, and after an instruction that writes the CPSR while a
condition is in force (`CondCanContinue`). The backend tests the block's condition once, at entry (`EmitCondPrelude`):
when it fails, it adds the condition-failed cycle count and links to the condition-failed location.

This module models the loop over the instructions from the start location, with the state `IsConditionPassed` keeps,
and the block as the backend runs it. Against it stands the guest's own meaning: the same instructions run one at a time,
each only when its own condition holds in the flags of that moment (`oneAtATime`). The block and the one-at-a-time run
agree on the guest state and on where control goes next, from every guest state (`translate_agrees`), except when a
single step meets an instruction with the condition NV: `IsConditionPassed` has set a terminal by then, and the loop sets
a second one, which `Block::SetTerminal` refuses (`translate_single_step_nv`).

What one instruction does is abstract (`GuestInstruction`): its condition, whether its translator emits IR and whether
that IR writes the CPSR, whether the block goes on after it, and its effect on the guest state.
-/

namespace Dynarmic.A32

/-- `IR::Cond`. -/
inductive Cond where
  | eq | ne | cs | cc | mi | pl | vs | vc | hi | ls | ge | lt | gt | le | al | nv
  deriving DecidableEq, Repr

/-- The condition flags of the CPSR. -/
structure NZCV where
  n : Bool
  z : Bool
  c : Bool
  v : Bool
  deriving DecidableEq, Repr

/-- Whether the flags pass a condition: the jump `EmitCond` emits for each condition it accepts. AL and NV always pass,
as in the architecture's `ConditionHolds`. -/
def Cond.holds : Cond → NZCV → Bool
  | .eq, f => f.z
  | .ne, f => !f.z
  | .cs, f => f.c
  | .cc, f => !f.c
  | .mi, f => f.n
  | .pl, f => !f.n
  | .vs, f => f.v
  | .vc, f => !f.v
  | .hi, f => f.c && !f.z
  | .ls, f => !f.c || f.z
  | .ge, f => f.n == f.v
  | .lt, f => f.n != f.v
  | .gt, f => !f.z && f.n == f.v
  | .le, f => f.z || f.n != f.v
  | .al, _ => true
  | .nv, _ => true

/-- The exceptions the translation loop raises itself. -/
inductive Exception where
  | unpredictableInstruction
  | noExecuteFault
  deriving DecidableEq, Repr

/-- An instruction at a location, as the translation loop and the guest see it, over guest states `S` whose CPSR flags
are `flags`. `cond` is the condition its translator passes to `IsConditionPassed` (in Thumb, the IT condition that
`ThumbConditionPassed` reads), and `none` for an encoding whose translator never calls it; `ticks` is what
`GetTicksForCode` returns for it. When the condition passes, the translator emits IR (`emitsIR`), of which some may write
the CPSR (`writesCPSR`, `Inst::WritesToCPSR`), and returns whether the block goes on after it (`continues`); one that
does not go on has set the block's terminal. `execute` is the effect of its IR on the guest state. -/
structure GuestInstruction (S : Type) (flags : S → NZCV) where
  cond : Option Cond
  ticks : Nat
  emitsIR : Bool
  writesCPSR : Bool
  continues : Bool
  execute : S → S
  /-- IR that writes no CPSR leaves the flags as they are. -/
  flags_execute : writesCPSR = false → ∀ s, flags (execute s) = flags s
  /-- A translator that emits no IR has no effect on the guest state. -/
  execute_of_emitsIR : emitsIR = false → ∀ s, execute s = s

/-- `ConditionalState`. -/
inductive ConditionalState where
  | none
  | «break»
  | translating
  | trailing
  deriving DecidableEq, Repr

/-- The terminals of a block: `LinkBlock` and `LinkBlockFast` to a location, or the one the translator of the
instruction at a location set (a branch's, or `CheckHalt{ReturnToDispatch}` after `RaiseException`). -/
inductive Terminal where
  | linkBlock (next : Nat)
  | linkBlockFast (next : Nat)
  | setAt (location : Nat)
  deriving DecidableEq, Repr

/-- A piece of a block's IR: what the translator of the instruction at a location emitted, or what `RaiseException`
emitted there. -/
inductive Emitted (S : Type) (flags : S → NZCV) where
  | instruction (location : Nat) (inst : GuestInstruction S flags)
  | exception (e : Exception) (location : Nat)

variable {S : Type} {flags : S → NZCV}

/-- `Inst::WritesToCPSR` over a piece. `RaiseException` emits `UpdateUpperLocationDescriptor`, which counts as a write. -/
def Emitted.writesCPSR : Emitted S flags → Bool
  | .instruction _ inst => inst.writesCPSR
  | .exception _ _ => true

/-- The state of the translation loop: the visitor's `cond_state` and `current_location`, and the block being built
(its condition, condition-failed location and cycle count, cycle count, IR and terminal). -/
structure Translation (S : Type) (flags : S → NZCV) where
  condState : ConditionalState
  currentLocation : Nat
  condition : Cond
  conditionFailedLocation : Option Nat
  conditionFailedCycleCount : Nat
  cycleCount : Nat
  body : List (Emitted S flags)
  terminal : Option Terminal

/-- `IR::Block` once translated, as the backend reads it. -/
structure Block (S : Type) (flags : S → NZCV) where
  condition : Cond
  conditionFailedLocation : Option Nat
  conditionFailedCycleCount : Nat
  cycleCount : Nat
  body : List (Emitted S flags)
  terminal : Terminal
  endLocation : Nat

namespace Translation

/-- The visitor and the empty block at the start of `TranslateArm` and `TranslateThumb`. -/
@[simps]
def init (descriptor : Nat) : Translation S flags where
  condState := .none
  currentLocation := descriptor
  condition := .al
  conditionFailedLocation := none
  conditionFailedCycleCount := 0
  cycleCount := 0
  body := []
  terminal := none

/-- `IREmitter::SetTerm` inside the loop, where the block has no terminal yet. -/
@[simps]
def setTerm (t : Translation S flags) (term : Terminal) : Translation S flags :=
  { t with terminal := some term }

/-- `RaiseException`: the exception's IR at the current location and the terminal `CheckHalt{ReturnToDispatch}`; it
returns false. -/
@[simps]
def raiseException (t : Translation S flags) (e : Exception) : Translation S flags × Bool :=
  ({ t with body := t.body ++ [.exception e t.currentLocation], terminal := some (.setAt t.currentLocation) }, false)

/-- `cond_state = Break` and `SetTerm(LinkBlockFast{current_location})`: the block ends before the current instruction,
which starts the next block. -/
@[simps]
def endBefore (t : Translation S flags) : Translation S flags :=
  { t with condState := .break, terminal := some (.linkBlockFast t.currentLocation) }

/-- `IsConditionPassed` once the `Translating` case is dealt with: AL passes; another condition passes only in a block
with no IR yet, where it becomes the block's condition, and the condition-failed location moves past this instruction. -/
def conditionPassedOutsideRun (t : Translation S flags) (cond : Cond) : Translation S flags × Bool :=
  if cond = .al then (t, true)
  else if t.body ≠ [] then (t.endBefore, false)
  else
    ({ t with
        condState := .translating
        condition := cond
        conditionFailedLocation := some (t.currentLocation + 1)
        conditionFailedCycleCount := t.cycleCount + 1 }, true)

/-- `IsConditionPassed`. -/
def isConditionPassed (t : Translation S flags) (cond : Cond) : Translation S flags × Bool :=
  if cond = .nv then
    -- NV conditional is obsolete
    ({ (t.raiseException .unpredictableInstruction).1 with condState := .break }, false)
  else if t.condState = .translating then
    if t.conditionFailedLocation ≠ some t.currentLocation ∨ cond = .al then
      conditionPassedOutsideRun { t with condState := .trailing } cond
    else if cond = t.condition then
      ({ t with
          conditionFailedLocation := some (t.currentLocation + 1)
          conditionFailedCycleCount := t.conditionFailedCycleCount + 1 }, true)
    else
      -- cond has changed, abort
      (t.endBefore, false)
  else conditionPassedOutsideRun t cond

/-- The IR a translator emits at the current location. -/
def emitIR (t : Translation S flags) (inst : GuestInstruction S flags) : Translation S flags :=
  if inst.emitsIR then { t with body := t.body ++ [.instruction t.currentLocation inst] } else t

/-- What a translator does once its condition has passed: it emits its IR, and sets the terminal when the block ends
with it; it returns whether the block goes on. -/
def emit (t : Translation S flags) (inst : GuestInstruction S flags) : Translation S flags × Bool :=
  if inst.continues then (t.emitIR inst, true)
  else ((t.emitIR inst).setTerm (.setAt t.currentLocation), false)

/-- The decoder's call of a translator. A translator with a condition calls `IsConditionPassed` before it emits any IR,
and returns true at once when that fails (in Thumb, the loop calls `ThumbConditionPassed` and skips the decoder, keeping
`should_continue` at true). -/
def translateInstruction (t : Translation S flags) (inst : GuestInstruction S flags) : Translation S flags × Bool :=
  match inst.cond with
  | none => t.emit inst
  | some cond =>
    let r := t.isConditionPassed cond
    if r.2 then r.1.emit inst else (r.1, true)

/-- The end of an iteration that did not break: the location moves to the next instruction, and the block's cycle count
takes the instruction's ticks. -/
@[simps]
def advance (t : Translation S flags) (ticks : Nat) : Translation S flags :=
  { t with currentLocation := t.currentLocation + 1, cycleCount := t.cycleCount + ticks }

/-- `CondCanContinue` (its assertion that the state is not `Break` holds where the loop calls it). -/
def condCanContinue (t : Translation S flags) : Bool :=
  t.condState = .none || t.body.all fun e => !e.writesCPSR

/-- `SetTerm` after the loop, where the block may have a terminal already: `Block::SetTerminal` asserts it has none. -/
def setTermChecked (t : Translation S flags) (term : Terminal) : Option (Translation S flags) :=
  if t.terminal.isSome then none else some (t.setTerm term)

/-- `ASSERT_MSG(block.HasTerminal(), ...)` and `SetEndLocation`: the block the loop has built. -/
def toBlock (t : Translation S flags) : Option (Block S flags) :=
  t.terminal.map fun terminal =>
    { condition := t.condition, conditionFailedLocation := t.conditionFailedLocation,
      conditionFailedCycleCount := t.conditionFailedCycleCount, cycleCount := t.cycleCount, body := t.body,
      terminal := terminal, endLocation := t.currentLocation }

/-- The code after the loop: a block that stops in the middle of a run of conditional instructions, or a single step,
links to the current location unless the last translator ended the block. `none` is a failed assertion. -/
def finish (t : Translation S flags) (shouldContinue singleStep : Bool) : Option (Block S flags) :=
  if (t.condState = .translating ∨ t.condState = .trailing ∨ singleStep = true) ∧ shouldContinue = true then
    (t.setTermChecked (if singleStep then .linkBlock t.currentLocation else .linkBlockFast t.currentLocation)).bind
      toBlock
  else t.toBlock

/-- The loop of `TranslateArm` and `TranslateThumb` over the instructions from the current location on; where the list
ends, the code cannot be read. -/
def translateFrom (singleStep : Bool) : Translation S flags → List (GuestInstruction S flags) → Option (Block S flags)
  | t, [] =>
    -- `MemoryReadCode` fails: `RaiseException(NoExecuteFault)`
    let r := t.raiseException .noExecuteFault
    (r.1.advance 1).finish r.2 singleStep
  | t, inst :: rest =>
    let r := t.translateInstruction inst
    if r.1.condState = .break then r.1.finish r.2 singleStep
    else
      let t := r.1.advance inst.ticks
      if r.2 && t.condCanContinue && !singleStep then translateFrom singleStep t rest
      else t.finish r.2 singleStep

end Translation

/-- `TranslateArm` and `TranslateThumb` from the start location, over the instructions from there on (one per location,
in the order `AdvancePC` and `AdvanceIT` walk them). -/
def translate (prog : List (GuestInstruction S flags)) (start : Nat) (singleStep : Bool) : Option (Block S flags) :=
  Translation.translateFrom singleStep (Translation.init start) prog

/-! ### Running a block, and running the instructions one at a time -/

/-- Where control goes when a run leaves the straight line: to the block at a location, or wherever the terminal that the
instruction at a location set sends it. -/
inductive Exit where
  | next (location : Nat)
  | terminalOf (location : Nat)
  deriving DecidableEq, Repr

/-- Where a terminal sends control. -/
def Terminal.exit : Terminal → Exit
  | .linkBlock l => .next l
  | .linkBlockFast l => .next l
  | .setAt l => .terminalOf l

/-- The number of instructions from the start location that a run has gone through when it leaves with an exit. -/
def Exit.count (start : Nat) : Exit → Nat
  | .next l => l - start
  | .terminalOf l => l + 1 - start

section Semantics

variable (raise : Exception → Nat → S → S)

/-- A piece of IR run on the guest state; `raise e l` is the effect of the IR `RaiseException(e)` emits at `l`. -/
def Emitted.run (s : S) : Emitted S flags → S
  | .instruction _ inst => inst.execute s
  | .exception e location => raise e location s

/-- The block as the backend runs it: `EmitCondPrelude` tests the block's condition, and when it fails links to the
condition-failed location (`ASSERT(HasConditionFailedLocation())`, which holds: `FailAgrees`); otherwise the IR runs and
then the terminal. -/
def Block.run (blk : Block S flags) (s : S) : S × Exit :=
  if blk.condition ≠ .al ∧ blk.condition.holds (flags s) = false then
    (s, .next (blk.conditionFailedLocation.getD blk.endLocation))
  else (blk.body.foldl (Emitted.run raise) s, blk.terminal.exit)

/-- An instruction whose condition holds: its effect, and where control goes when the block ends with it. -/
def GuestInstruction.run (inst : GuestInstruction S flags) (location : Nat) (s : S) : S × Option Exit :=
  (inst.execute s, if inst.continues then none else some (.terminalOf location))

/-- One instruction run on its own at a location (`none`: the code there cannot be read, and fetching it faults). An
instruction whose condition fails does nothing; one with the condition NV is unpredictable and raises. -/
def stepOne (location : Nat) : Option (GuestInstruction S flags) → S → S × Option Exit
  | none, s => (raise .noExecuteFault location s, some (.terminalOf location))
  | some inst, s =>
    match inst.cond with
    | none => inst.run location s
    | some c =>
      if c = .nv then (raise .unpredictableInstruction location s, some (.terminalOf location))
      else if c.holds (flags s) then inst.run location s
      else (s, none)

/-- The instructions from a location on, run one at a time, at most `k` of them, until one leaves the straight line. -/
def oneAtATime : Nat → List (GuestInstruction S flags) → Nat → S → S × Exit
  | location, _, 0, s => (s, .next location)
  | location, insts, k + 1, s =>
    let r := stepOne raise location insts.head? s
    match r.2 with
    | some exit => (r.1, exit)
    | none => oneAtATime (location + 1) insts.tail k r.1

end Semantics

/-! ### The one-at-a-time run -/

section Reference

variable (raise : Exception → Nat → S → S)

/-- An instruction leaves the straight line only through a terminal. -/
theorem stepOne_ne_next (l l' : Nat) (i : Option (GuestInstruction S flags)) (s : S) :
    (stepOne raise l i s).2 ≠ some (.next l') := by
  cases i with
  | none => simp [stepOne]
  | some inst =>
    simp only [stepOne, GuestInstruction.run]
    split
    · split <;> simp
    · split_ifs <;> simp

/-- An instruction whose condition holds runs. -/
theorem stepOne_of_holds {inst : GuestInstruction S flags} {s : S} (l : Nat)
    (h : ∀ c, inst.cond = some c → c ≠ .nv ∧ c.holds (flags s) = true) :
    stepOne raise l (some inst) s = inst.run l s := by
  simp only [stepOne]
  split
  · rfl
  · rename_i c hc
    obtain ⟨hnv, hholds⟩ := h c hc
    simp [hnv, hholds]

/-- An instruction whose condition fails does nothing. -/
theorem stepOne_of_fails {inst : GuestInstruction S flags} {s : S} {c : Cond} (l : Nat) (hc : inst.cond = some c)
    (hnv : c ≠ .nv) (hfail : c.holds (flags s) = false) : stepOne raise l (some inst) s = (s, none) := by
  simp [stepOne, hc, hnv, hfail]

/-- An instruction with the condition NV raises. -/
theorem stepOne_of_nv {inst : GuestInstruction S flags} {s : S} (l : Nat) (hc : inst.cond = some .nv) :
    stepOne raise l (some inst) s = (raise .unpredictableInstruction l s, some (.terminalOf l)) := by
  simp [stepOne, hc]

/-- An instruction that emits no IR and lets the block go on does nothing, whether its condition holds or fails. -/
theorem stepOne_of_not_emitsIR {inst : GuestInstruction S flags} (l : Nat) (s : S) (hir : inst.emitsIR = false)
    (hc : inst.continues = true) (hnv : inst.cond ≠ some .nv) : stepOne raise l (some inst) s = (s, none) := by
  have hrun : inst.run l s = (s, none) := by simp [GuestInstruction.run, inst.execute_of_emitsIR hir, hc]
  simp only [stepOne]
  split
  · exact hrun
  · rename_i c hcond
    have hcnv : c ≠ .nv := fun h => hnv (h ▸ hcond)
    split_ifs <;> simp_all

/-- A run of `k` instructions that stays on the straight line goes on with the next instruction. -/
theorem oneAtATime_succ_of_next {l k : Nat} {insts : List (GuestInstruction S flags)} {s s' : S}
    (h : oneAtATime raise l insts k s = (s', .next (l + k))) :
    oneAtATime raise l insts (k + 1) s =
      ((stepOne raise (l + k) (insts.drop k).head? s').1,
        (stepOne raise (l + k) (insts.drop k).head? s').2.getD (.next (l + k + 1))) := by
  induction k generalizing l insts s with
  | zero =>
    simp only [oneAtATime, Prod.mk.injEq] at h
    obtain ⟨rfl, -⟩ := h
    rcases hr : stepOne raise l insts.head? s with ⟨s₁, _ | e⟩ <;> simp [oneAtATime, hr]
  | succ k ih =>
    rcases hr : stepOne raise l insts.head? s with ⟨s₁, _ | e⟩
    · -- the first instruction stays on the line: the rest is a run of `k` from the next location
      have h₁ : oneAtATime raise (l + 1) insts.tail k s₁ = (s', .next (l + 1 + k)) := by
        simpa [oneAtATime, hr, Nat.add_assoc, Nat.add_comm 1 k] using h
      have hl : l + 1 + k = l + (k + 1) := by omega
      rw [oneAtATime, hr]
      simp only
      rw [ih h₁, List.drop_tail, hl]
    · -- the first instruction left the line, through a terminal
      have he : e = .next (l + (k + 1)) := by simpa [oneAtATime, hr] using congrArg Prod.snd h
      have := stepOne_ne_next raise l (l + (k + 1)) insts.head? s
      rw [hr, he] at this
      exact absurd rfl this

/-- `oneAtATime_succ_of_next` from the start location up to the current one. -/
theorem oneAtATime_succ_current {start cur : Nat} (hle : start ≤ cur) {prog : List (GuestInstruction S flags)}
    {s s' : S} (h : oneAtATime raise start prog (cur - start) s = (s', .next cur)) :
    oneAtATime raise start prog (cur + 1 - start) s =
      ((stepOne raise cur (prog.drop (cur - start)).head? s').1,
        (stepOne raise cur (prog.drop (cur - start)).head? s').2.getD (.next (cur + 1))) := by
  have hk : start + (cur - start) = cur := by omega
  have h' : oneAtATime raise start prog (cur - start) s = (s', .next (start + (cur - start))) := by rw [hk]; exact h
  rw [show cur + 1 - start = cur - start + 1 by omega, oneAtATime_succ_of_next raise h', hk]

end Reference

/-! ### The block built so far against the one-at-a-time run -/

namespace Translation

/-- Where control goes after the block built so far when its condition passes: its terminal's exit, or the current
location while it has no terminal. -/
def exit (t : Translation S flags) : Exit :=
  match t.terminal with
  | some term => term.exit
  | none => .next t.currentLocation

/-- Whether the block's condition lets its body run from a guest state. -/
def passes (t : Translation S flags) (s : S) : Prop :=
  t.condition = .al ∨ t.condition.holds (flags s) = true

/-- A block with no terminal leaves to the current location. -/
theorem exit_of_terminal_none {t : Translation S flags} (h : t.terminal = none) : t.exit = .next t.currentLocation := by
  simp [exit, h]

/-- A block with a terminal leaves where the terminal says. -/
theorem exit_of_terminal_some {t : Translation S flags} {term : Terminal} (h : t.terminal = some term) :
    t.exit = term.exit := by
  simp [exit, h]

/-- `EmitIR` appends the instruction's IR at the current location when the instruction emits any. -/
theorem emitIR_eq (t : Translation S flags) (inst : GuestInstruction S flags) :
    t.emitIR inst = { t with body := t.body ++ if inst.emitsIR then [.instruction t.currentLocation inst] else [] } := by
  unfold emitIR
  split <;> simp_all

@[simp] theorem emitIR_condState (t : Translation S flags) (inst : GuestInstruction S flags) :
    (t.emitIR inst).condState = t.condState := by
  rw [emitIR_eq]

@[simp] theorem emitIR_currentLocation (t : Translation S flags) (inst : GuestInstruction S flags) :
    (t.emitIR inst).currentLocation = t.currentLocation := by
  rw [emitIR_eq]

@[simp] theorem emitIR_condition (t : Translation S flags) (inst : GuestInstruction S flags) :
    (t.emitIR inst).condition = t.condition := by
  rw [emitIR_eq]

@[simp] theorem emitIR_conditionFailedLocation (t : Translation S flags) (inst : GuestInstruction S flags) :
    (t.emitIR inst).conditionFailedLocation = t.conditionFailedLocation := by
  rw [emitIR_eq]

@[simp] theorem emitIR_terminal (t : Translation S flags) (inst : GuestInstruction S flags) :
    (t.emitIR inst).terminal = t.terminal := by
  rw [emitIR_eq]

/-- An instruction that lets the translator go on is only emitted. -/
theorem emit_of_continues {t : Translation S flags} {inst : GuestInstruction S flags} (h : inst.continues = true) :
    t.emit inst = (t.emitIR inst, true) := by
  simp [emit, h]

/-- An instruction that stops the translator is emitted and sets the terminal to its own location. -/
theorem emit_of_not_continues {t : Translation S flags} {inst : GuestInstruction S flags}
    (h : inst.continues = false) : t.emit inst = ((t.emitIR inst).setTerm (.setAt t.currentLocation), false) := by
  simp [emit, h]

/-- With no conditional state, the translator can always go on. -/
theorem condCanContinue_of_none {t : Translation S flags} (h : t.condState = .none) : t.condCanContinue = true := by
  simp [condCanContinue, h]

/-- The IR a translator emits runs as the instruction; one that emits none has no effect. -/
theorem foldl_run_emitIR (raise : Exception → Nat → S → S) (t : Translation S flags) (inst : GuestInstruction S flags)
    (s : S) : (t.emitIR inst).body.foldl (Emitted.run raise) s = inst.execute (t.body.foldl (Emitted.run raise) s) := by
  rw [emitIR_eq]
  cases h : inst.emitsIR
  · simp [inst.execute_of_emitsIR h]
  · simp [Emitted.run]

end Translation

/-- IR that writes no CPSR leaves the flags as they are. -/
theorem flags_foldl_run (raise : Exception → Nat → S → S) {body : List (Emitted S flags)}
    (h : ∀ e ∈ body, e.writesCPSR = false) (s : S) : flags (body.foldl (Emitted.run raise) s) = flags s := by
  induction body generalizing s with
  | nil => rfl
  | cons e body ih =>
    rw [List.foldl_cons, ih (fun e' he' => h e' (List.mem_cons_of_mem e he'))]
    cases e with
    | instruction l inst => exact inst.flags_execute (h _ List.mem_cons_self) s
    | exception e l => exact absurd (h _ List.mem_cons_self) (by simp [Emitted.writesCPSR])

section Simulation

variable (raise : Exception → Nat → S → S) (start : Nat) (prog : List (GuestInstruction S flags))

open Translation

/-- When the block's condition passes, its body does what the instructions from the start location up to its exit do,
one at a time. -/
def PassAgrees (t : Translation S flags) : Prop :=
  ∀ s, t.passes s →
    oneAtATime raise start prog (t.exit.count start) s = (t.body.foldl (Emitted.run raise) s, t.exit)

/-- When the block's condition `c` fails, the instructions from the start location up to the condition-failed location
do nothing. The location is there exactly when `c` is not AL, as `EmitCondPrelude` asserts, and `c` is not NV, which
`EmitCond` does not test. -/
structure FailAgrees (c : Cond) (failedLocation : Option Nat) : Prop where
  al_iff : c = .al ↔ failedLocation = none
  ne_nv : c ≠ .nv
  fail : ∀ l, failedLocation = some l → ∀ s, c.holds (flags s) = false →
    oneAtATime raise start prog (l - start) s = (s, .next l)

/-- The block built so far agrees with the one-at-a-time run, whether its condition passes or fails. -/
structure Agrees (t : Translation S flags) : Prop where
  pass : PassAgrees raise start prog t
  fail : FailAgrees raise start prog t.condition t.conditionFailedLocation

/-- A state at the head of the loop. -/
structure Running (t : Translation S flags) : Prop extends Agrees raise start prog t where
  start_le : start ≤ t.currentLocation
  terminal_eq : t.terminal = none
  condState_ne : t.condState ≠ .break
  /-- `CondCanContinue` held: while a condition is in force, no IR of the block writes the CPSR. -/
  noWrites : t.condState ≠ .none → ∀ e ∈ t.body, e.writesCPSR = false
  /-- While the block has no IR, the instructions so far have done nothing, whatever the flags. -/
  idle : t.body = [] → ∀ s, oneAtATime raise start prog (t.currentLocation - start) s = (s, .next t.currentLocation)

/-- A state after an iteration that did not break, with what the translator returned. -/
structure Advanced (t : Translation S flags) (shouldContinue : Bool) : Prop extends Agrees raise start prog t where
  start_le : start ≤ t.currentLocation
  condState_ne : t.condState ≠ .break
  terminal_eq : t.terminal = none ↔ shouldContinue = true
  idle : shouldContinue = true → t.body = [] →
    ∀ s, oneAtATime raise start prog (t.currentLocation - start) s = (s, .next t.currentLocation)

/-- What an iteration leaves from the translator's result: a state that broke, with a terminal, after a translator that
returned true; or a state that goes on to the next location. -/
def Iterated (r : Translation S flags × Bool) (ticks : Nat) : Prop :=
  if r.1.condState = .break then Agrees raise start prog r.1 ∧ r.1.terminal.isSome ∧ r.2 = true
  else Advanced raise start prog (r.1.advance ticks) r.2

/-- A translated block agrees with the one-at-a-time run from every guest state, up to where it leaves. -/
def BlockAgrees (blk : Block S flags) : Prop :=
  ∀ s, blk.run raise s = oneAtATime raise start prog ((blk.run raise s).2.count start) s

variable {raise start prog}

/-- `PassAgrees` depends only on the condition, the body and the exit of the translation. -/
theorem PassAgrees.congr {t t' : Translation S flags} (hp : PassAgrees raise start prog t)
    (hc : t'.condition = t.condition) (hb : t'.body = t.body) (he : t'.exit = t.exit) : PassAgrees raise start prog t' := by
  intro s hs
  unfold passes at hs
  rw [hc] at hs
  rw [hb, he]
  exact hp s hs

/-- A block with no IR and no terminal passes through the instructions so far when they do nothing. -/
theorem PassAgrees.of_idle {t : Translation S flags} (hb : t.body = []) (hterm : t.terminal = none)
    (hidle : ∀ s, oneAtATime raise start prog (t.currentLocation - start) s = (s, .next t.currentLocation)) :
    PassAgrees raise start prog t := by
  intro s _
  rw [exit_of_terminal_none hterm, hb]
  exact hidle s

/-- The instruction at the current location, emitted where the one-at-a-time run executes it. -/
theorem PassAgrees.emit_advance {t : Translation S flags} {inst : GuestInstruction S flags}
    (hp : PassAgrees raise start prog t) (hterm : t.terminal = none) (hle : start ≤ t.currentLocation)
    (hinst : (prog.drop (t.currentLocation - start)).head? = some inst)
    (hexec : ∀ s, t.passes s → stepOne raise t.currentLocation (some inst) (t.body.foldl (Emitted.run raise) s) =
      inst.run t.currentLocation (t.body.foldl (Emitted.run raise) s))
    (ticks : Nat) : PassAgrees raise start prog ((t.emit inst).1.advance ticks) := by
  intro s hs
  have hs' : t.passes s := by
    unfold emit at hs
    split at hs <;> simpa [passes] using hs
  have hbefore := hp s hs'
  rw [exit_of_terminal_none hterm] at hbefore
  have hafter := oneAtATime_succ_current raise hle hbefore
  rw [hinst, hexec s hs'] at hafter
  cases hc : inst.continues
  · rw [emit_of_not_continues hc]
    simpa [exit, Terminal.exit, Exit.count, GuestInstruction.run, hc, foldl_run_emitIR] using hafter
  · rw [emit_of_continues hc]
    simpa [exit, hterm, Exit.count, GuestInstruction.run, hc, foldl_run_emitIR] using hafter

/-- `RaiseException` at the current location, where the one-at-a-time run raises the same exception. -/
theorem PassAgrees.raiseException {t : Translation S flags} {e : Exception} (hp : PassAgrees raise start prog t)
    (hterm : t.terminal = none) (hle : start ≤ t.currentLocation)
    (hraise : ∀ s, stepOne raise t.currentLocation (prog.drop (t.currentLocation - start)).head? s =
      (raise e t.currentLocation s, some (.terminalOf t.currentLocation))) :
    PassAgrees raise start prog (t.raiseException e).1 := by
  intro s hs
  have hbefore := hp s hs
  rw [exit_of_terminal_none hterm] at hbefore
  have hafter := oneAtATime_succ_current raise hle hbefore
  rw [hraise] at hafter
  simpa [exit, Terminal.exit, Exit.count, Emitted.run] using hafter

/-- The start of a block, with the condition AL and no condition-failed location, agrees when the condition fails: it
never fails. -/
theorem FailAgrees.init : FailAgrees raise start prog .al none where
  al_iff := by simp
  ne_nv := by decide
  fail := by simp

/-- The condition-failed location moves past an instruction with the block's condition, which does nothing when the
condition fails. -/
theorem FailAgrees.succ {c : Cond} {cur : Nat} {inst : GuestInstruction S flags} (hal : c ≠ .al) (hnv : c ≠ .nv)
    (hle : start ≤ cur) (hinst : (prog.drop (cur - start)).head? = some inst) (hcond : inst.cond = some c)
    (hbefore : ∀ s, c.holds (flags s) = false → oneAtATime raise start prog (cur - start) s = (s, .next cur)) :
    FailAgrees raise start prog c (some (cur + 1)) where
  al_iff := by simp [hal]
  ne_nv := hnv
  fail := by
    intro l hl s hs
    obtain rfl : cur + 1 = l := Option.some.inj hl
    rw [oneAtATime_succ_current raise hle (hbefore s hs), hinst, stepOne_of_fails raise cur hcond hnv hs]
    rfl

/-- A block that agrees with the one-at-a-time run and has its terminal becomes a block that agrees. -/
theorem Agrees.toBlock {t : Translation S flags} {blk : Block S flags} (ha : Agrees raise start prog t)
    (h : t.toBlock = some blk) : BlockAgrees raise start prog blk := by
  unfold Translation.toBlock at h
  cases hterm : t.terminal with
  | none => simp [hterm] at h
  | some term =>
    simp only [hterm, Option.map_some, Option.some.injEq] at h
    subst h
    intro s
    unfold Block.run
    by_cases hfail : t.condition ≠ .al ∧ t.condition.holds (flags s) = false
    · -- the prelude's condition fails: the run stops at the condition-failed location
      obtain ⟨l, hl⟩ : ∃ l, t.conditionFailedLocation = some l :=
        Option.ne_none_iff_exists'.mp (fun h => hfail.1 (ha.fail.al_iff.mpr h))
      simp only [hfail, ne_eq, not_false_eq_true, and_self, if_true, hl, Option.getD_some, Exit.count]
      exact (ha.fail.fail l hl s hfail.2).symm
    · -- the prelude's condition passes: the body runs
      have hs : t.passes s := by
        unfold passes
        by_contra hno
        simp only [not_or] at hno
        exact hfail ⟨hno.1, by simpa using hno.2⟩
      rw [if_neg hfail]
      simpa [exit_of_terminal_some hterm] using (ha.pass s hs).symm


/-- `Running` does not tell the two states of a run of the block's condition apart. -/
theorem Running.trailing {t : Translation S flags} (hr : Running raise start prog t)
    (htr : t.condState = .translating) : Running raise start prog { t with condState := .trailing } where
  pass := hr.pass.congr rfl rfl rfl
  fail := hr.fail
  start_le := hr.start_le
  terminal_eq := hr.terminal_eq
  condState_ne := by simp
  noWrites := fun _ => hr.noWrites (by simp [htr])
  idle := hr.idle

/-- A state that goes on to the next location, after a translator that returned true, is running when
`CondCanContinue` holds. -/
theorem Advanced.running {t : Translation S flags} (ha : Advanced raise start prog t true)
    (hcc : t.condCanContinue = true) : Running raise start prog t where
  toAgrees := ha.toAgrees
  start_le := ha.start_le
  terminal_eq := ha.terminal_eq.mpr rfl
  condState_ne := ha.condState_ne
  noWrites := by
    intro hnone e he
    simp only [condCanContinue, hnone, decide_false, Bool.false_or, List.all_eq_true, Bool.not_eq_eq_eq_not,
      Bool.not_true] at hcc
    exact hcc e he
  idle := ha.idle rfl

/-- An iteration that ends the block before the instruction. -/
theorem iterated_endBefore {t : Translation S flags} (hp : PassAgrees raise start prog t)
    (hf : FailAgrees raise start prog t.condition t.conditionFailedLocation) (hterm : t.terminal = none)
    (ticks : Nat) : Iterated raise start prog (t.endBefore, true) ticks := by
  have hbr : t.endBefore.condState = .break := rfl
  rw [Iterated, if_pos hbr]
  refine ⟨⟨hp.congr rfl rfl ?_, hf⟩, rfl, rfl⟩
  simp [exit, hterm, Terminal.exit]

/-- An iteration that emits the instruction, from a state whose block agrees, where the one-at-a-time run executes
the instruction whenever the block's condition passes. -/
theorem iterated_emit {t : Translation S flags} {inst : GuestInstruction S flags} (hp : PassAgrees raise start prog t)
    (hf : FailAgrees raise start prog t.condition t.conditionFailedLocation) (hle : start ≤ t.currentLocation)
    (hterm : t.terminal = none) (hne : t.condState ≠ .break)
    (hinst : (prog.drop (t.currentLocation - start)).head? = some inst) (hnv : inst.cond ≠ some .nv)
    (hidle : t.body = [] →
      ∀ s, oneAtATime raise start prog (t.currentLocation - start) s = (s, .next t.currentLocation))
    (hexec : ∀ s, t.passes s → stepOne raise t.currentLocation (some inst) (t.body.foldl (Emitted.run raise) s) =
      inst.run t.currentLocation (t.body.foldl (Emitted.run raise) s)) :
    Iterated raise start prog (t.emit inst) inst.ticks := by
  have hst : (t.emit inst).1.condState = t.condState := by
    unfold emit
    split <;> simp
  rw [Iterated, if_neg (hst ▸ hne)]
  cases hc : inst.continues
  · -- the block ends with the instruction, which set the terminal
    have hpass := hp.emit_advance hterm hle hinst hexec inst.ticks
    rw [emit_of_not_continues hc] at hpass ⊢
    exact { pass := hpass, fail := by simpa using hf, start_le := by simp; omega, condState_ne := by simpa using hne,
            terminal_eq := by simp, idle := by simp }
  · -- the block goes on after the instruction
    have hpass := hp.emit_advance hterm hle hinst hexec inst.ticks
    rw [emit_of_continues hc] at hpass ⊢
    refine { pass := hpass, fail := by simpa using hf, start_le := by simp; omega, condState_ne := by simpa using hne,
             terminal_eq := by simpa using hterm, idle := ?_ }
    intro _ hb s
    rw [advance_body, emitIR_eq] at hb
    obtain ⟨hb₁, hb₂⟩ := List.append_eq_nil_iff.mp hb
    have hir : inst.emitsIR = false := by
      cases h : inst.emitsIR
      · rfl
      · simp [h] at hb₂
    simp only [advance_currentLocation, emitIR_currentLocation]
    rw [oneAtATime_succ_current raise hle (hidle hb₁ s), hinst, stepOne_of_not_emitsIR raise _ s hir hc hnv]
    rfl

/-- An iteration at an instruction with the condition NV: it raises, and the block ends. -/
theorem Running.iterated_nv {t : Translation S flags} {inst : GuestInstruction S flags}
    (hr : Running raise start prog t) (hinst : (prog.drop (t.currentLocation - start)).head? = some inst)
    (hc : inst.cond = some .nv) (ticks : Nat) :
    Iterated raise start prog ({ (t.raiseException .unpredictableInstruction).1 with condState := .break }, true) ticks := by
  rw [Iterated, if_pos rfl]
  refine ⟨⟨(hr.pass.raiseException hr.terminal_eq hr.start_le ?_).congr rfl rfl rfl, hr.fail⟩, rfl, rfl⟩
  intro s
  rw [hinst]
  exact stepOne_of_nv raise _ hc

/-- `IsConditionPassed` outside a run of the block's condition, then the translator. -/
theorem Running.iterated_outsideRun {t : Translation S flags} {inst : GuestInstruction S flags} {c : Cond}
    (hr : Running raise start prog t) (hinst : (prog.drop (t.currentLocation - start)).head? = some inst)
    (hc : inst.cond = some c) (hnv : c ≠ .nv) :
    Iterated raise start prog
      (if (t.conditionPassedOutsideRun c).2 then (t.conditionPassedOutsideRun c).1.emit inst
        else ((t.conditionPassedOutsideRun c).1, true)) inst.ticks := by
  have hinst_nv : inst.cond ≠ some .nv := by simp [hc, hnv]
  unfold conditionPassedOutsideRun
  by_cases hal : c = .al
  · -- AL passes
    subst hal
    simp only [if_true]
    exact iterated_emit hr.pass hr.fail hr.start_le hr.terminal_eq hr.condState_ne hinst hinst_nv hr.idle
      (fun s _ => stepOne_of_holds raise _ (by simp [hc, Cond.holds]))
  · by_cases hb : t.body = []
    · -- no IR yet: the condition becomes the block's
      rw [if_neg hal, if_neg (not_not.mpr hb)]
      refine iterated_emit (PassAgrees.of_idle hb hr.terminal_eq (hr.idle hb))
        (FailAgrees.succ hal hnv hr.start_le hinst hc (fun s _ => hr.idle hb s)) hr.start_le hr.terminal_eq
        (by simp) hinst hinst_nv (fun _ => hr.idle hb) ?_
      intro s hs
      have hholds : c.holds (flags s) = true := hs.resolve_left hal
      simp only [hb, List.foldl_nil]
      exact stepOne_of_holds raise _ (fun c' hc' => by simp_all)
    · -- the block has IR: it ends before the instruction
      simp only [hal, if_false, ne_eq, hb, not_false_eq_true, if_true]
      exact iterated_endBefore hr.pass hr.fail hr.terminal_eq _

/-- An instruction with the block's condition, right at the condition-failed location, joins the run. -/
theorem Running.iterated_extend {t : Translation S flags} {inst : GuestInstruction S flags}
    (hr : Running raise start prog t) (hinst : (prog.drop (t.currentLocation - start)).head? = some inst)
    (hc : inst.cond = some t.condition) (hnv : t.condition ≠ .nv) (htr : t.condState = .translating)
    (hL : t.conditionFailedLocation = some t.currentLocation) (hal : t.condition ≠ .al) :
    Iterated raise start prog
      (({ t with
          conditionFailedLocation := some (t.currentLocation + 1)
          conditionFailedCycleCount := t.conditionFailedCycleCount + 1 } : Translation S flags).emit inst)
      inst.ticks := by
  refine iterated_emit (hr.pass.congr rfl rfl rfl)
    (FailAgrees.succ hal hnv hr.start_le hinst hc (hr.fail.fail _ hL)) hr.start_le hr.terminal_eq hr.condState_ne
    hinst (by simp [hc, hnv]) hr.idle ?_
  -- the IR of the run writes no CPSR, so the flags the instruction's condition reads are those at the block's entry
  intro s hs
  have hholds : t.condition.holds (flags s) = true := hs.resolve_left hal
  have hflags := flags_foldl_run raise (hr.noWrites (by simp [htr])) s
  exact stepOne_of_holds raise _ (fun c' hc' => by simp_all)

/-- Every iteration from a running state agrees with the one-at-a-time run. -/
theorem Running.iterated {t : Translation S flags} {inst : GuestInstruction S flags} (hr : Running raise start prog t)
    (hinst : (prog.drop (t.currentLocation - start)).head? = some inst) :
    Iterated raise start prog (t.translateInstruction inst) inst.ticks := by
  unfold translateInstruction
  cases hc : inst.cond with
  | none =>
    exact iterated_emit hr.pass hr.fail hr.start_le hr.terminal_eq hr.condState_ne hinst (by simp [hc]) hr.idle
      (fun s _ => stepOne_of_holds raise _ (by simp [hc]))
  | some c =>
    simp only
    unfold isConditionPassed
    by_cases hnv : c = .nv
    · subst hnv
      simpa using hr.iterated_nv hinst hc inst.ticks
    · by_cases htr : t.condState = .translating
      · by_cases hrun : t.conditionFailedLocation ≠ some t.currentLocation ∨ c = .al
        · -- the run of the block's condition is over
          simp only [hnv, if_false, htr, if_true, hrun]
          exact (hr.trailing htr).iterated_outsideRun hinst hc hnv
        · simp only [not_or, not_not] at hrun
          by_cases hsame : c = t.condition
          · -- the run goes on
            subst hsame
            simp only [hnv, if_false, htr, if_true, hrun, ne_eq, not_true_eq_false, or_false]
            simpa only [htr] using hr.iterated_extend hinst hc hnv htr hrun.1 hrun.2
          · -- the condition changed: the block ends before the instruction
            simp only [hnv, if_false, htr, if_true, hrun, ne_eq, not_true_eq_false, or_false, hsame]
            exact iterated_endBefore hr.pass hr.fail hr.terminal_eq _
      · simp only [hnv, if_false, htr]
        exact hr.iterated_outsideRun hinst hc hnv


/-- After the loop, with the block's terminal set and no `SetTerm` to come, the block is built and agrees. -/
theorem Agrees.finish_of_terminal {t : Translation S flags} {shouldContinue singleStep : Bool}
    (ha : Agrees raise start prog t) (hterm : t.terminal.isSome)
    (hno : ¬((t.condState = .translating ∨ t.condState = .trailing ∨ singleStep = true) ∧ shouldContinue = true)) :
    ∃ blk, t.finish shouldContinue singleStep = some blk ∧ BlockAgrees raise start prog blk := by
  obtain ⟨term, hterm'⟩ := Option.isSome_iff_exists.mp hterm
  have hblk : t.toBlock.isSome := by simp [Translation.toBlock, hterm']
  obtain ⟨blk, hblk'⟩ := Option.isSome_iff_exists.mp hblk
  exact ⟨blk, (if_neg hno).trans hblk', ha.toBlock hblk'⟩

/-- After the loop, with no terminal yet, the link to the current location is the block's terminal. -/
theorem Agrees.finish_link {t : Translation S flags} {singleStep : Bool} (ha : Agrees raise start prog t)
    (hterm : t.terminal = none) (hset : t.condState = .translating ∨ t.condState = .trailing ∨ singleStep = true) :
    ∃ blk, t.finish true singleStep = some blk ∧ BlockAgrees raise start prog blk := by
  set term : Terminal := if singleStep then .linkBlock t.currentLocation else .linkBlockFast t.currentLocation
  have hfin : t.finish true singleStep = (t.setTerm term).toBlock := by
    simp [finish, hset, setTermChecked, hterm, term]
  have hexit : (t.setTerm term).exit = t.exit := by
    cases singleStep <;> simp [exit, term, hterm, Terminal.exit]
  have ha' : Agrees raise start prog (t.setTerm term) := ⟨ha.pass.congr rfl rfl hexit, ha.fail⟩
  exact ⟨_, hfin.trans rfl, ha'.toBlock rfl⟩

/-- A state that is neither `None` nor `Break` is inside a run of the block's condition or after one. -/
theorem condState_of_ne {t : Translation S flags} (hnone : t.condState ≠ .none) (hbr : t.condState ≠ .break) :
    t.condState = .translating ∨ t.condState = .trailing := by
  cases h : t.condState <;> simp_all

/-- From the empty block, only the condition NV breaks the loop at the first instruction. -/
theorem translateInstruction_ne_break {t : Translation S flags} {inst : GuestInstruction S flags}
    (hnone : t.condState = .none) (hb : t.body = []) (hnv : inst.cond ≠ some .nv) :
    (t.translateInstruction inst).1.condState ≠ .break := by
  have hemit : ∀ t' : Translation S flags, t'.condState ≠ .break → (t'.emit inst).1.condState ≠ .break := by
    intro t' h'
    unfold emit
    split <;> simpa using h'
  unfold translateInstruction
  cases hc : inst.cond with
  | none => exact hemit t (by simp [hnone])
  | some c =>
    have hcnv : c ≠ .nv := fun h => hnv (h ▸ hc)
    simp only [isConditionPassed, conditionPassedOutsideRun, hcnv, hnone, hb, if_false, ne_eq, not_true_eq_false,
      reduceCtorEq]
    by_cases hal : c = .al
    · simpa [hal] using hemit t (by simp [hnone])
    · simpa [hal] using hemit _ (by simp)

/-- A translator's condition and IR leave the current location where it is. -/
theorem translateInstruction_currentLocation (t : Translation S flags) (inst : GuestInstruction S flags) :
    (t.translateInstruction inst).1.currentLocation = t.currentLocation := by
  have hemit : ∀ t' : Translation S flags, (t'.emit inst).1.currentLocation = t'.currentLocation := by
    intro t'
    unfold emit
    split <;> simp
  unfold translateInstruction
  cases inst.cond with
  | none => exact hemit t
  | some c =>
    simp only [isConditionPassed, conditionPassedOutsideRun]
    split_ifs <;> simp [hemit, endBefore]

/-- The loop, from a running state over the instructions from its location on, builds a block that agrees with the
one-at-a-time run, unless a single step breaks at its first instruction. -/
theorem Running.translateFrom {singleStep : Bool} (rest : List (GuestInstruction S flags)) {t : Translation S flags}
    (hr : Running raise start prog t) (hrest : prog.drop (t.currentLocation - start) = rest)
    (hss : singleStep = true → t.condState = .none ∧ t.body = [] ∧ ∀ inst ∈ rest.head?, inst.cond ≠ some .nv) :
    ∃ blk, t.translateFrom singleStep rest = some blk ∧ BlockAgrees raise start prog blk := by
  induction rest generalizing t with
  | nil =>
    have hraise : ∀ s, stepOne raise t.currentLocation (prog.drop (t.currentLocation - start)).head? s =
        (raise .noExecuteFault t.currentLocation s, some (.terminalOf t.currentLocation)) := by
      intro s
      rw [hrest]
      rfl
    have ha : Agrees raise start prog ((t.raiseException .noExecuteFault).1.advance 1) :=
      ⟨(hr.pass.raiseException hr.terminal_eq hr.start_le hraise).congr rfl rfl rfl, hr.fail⟩
    exact ha.finish_of_terminal (by simp) (by simp)
  | cons inst rest ih =>
    have hinst : (prog.drop (t.currentLocation - start)).head? = some inst := by
      rw [hrest]
      rfl
    have hit := hr.iterated hinst
    simp only [Translation.translateFrom]
    by_cases hbr : (t.translateInstruction inst).1.condState = .break
    · -- the iteration broke: the block ends with the terminal it set
      rw [if_pos hbr]
      rw [Iterated, if_pos hbr] at hit
      obtain ⟨ha, hterm, -⟩ := hit
      cases singleStep with
      | false => exact ha.finish_of_terminal hterm (by simp [hbr])
      | true =>
        obtain ⟨hnone, hb, hnv⟩ := hss rfl
        exact absurd hbr (translateInstruction_ne_break hnone hb (hnv inst rfl))
    · rw [if_neg hbr]
      rw [Iterated, if_neg hbr] at hit
      by_cases hgo : ((t.translateInstruction inst).2 && ((t.translateInstruction inst).1.advance inst.ticks).condCanContinue
          && !singleStep) = true
      · -- the loop goes on from the next location
        rw [if_pos hgo]
        simp only [Bool.and_eq_true, Bool.not_eq_eq_eq_not, Bool.not_true] at hgo
        obtain ⟨⟨hsc, hcc⟩, hstep⟩ := hgo
        rw [hsc] at hit
        refine ih (hit.running hcc) ?_ (fun h => absurd h (by simp [hstep]))
        rw [advance_currentLocation, translateInstruction_currentLocation, show t.currentLocation + 1 - start = t.currentLocation - start + 1 by
          have := hr.start_le; omega, ← List.tail_drop, hrest]
        rfl
      · rw [if_neg hgo]
        cases hsc : (t.translateInstruction inst).2 with
        | false =>
          rw [hsc] at hit
          have hterm : ((t.translateInstruction inst).1.advance inst.ticks).terminal.isSome := by
            cases h : ((t.translateInstruction inst).1.advance inst.ticks).terminal with
            | none => exact absurd (hit.terminal_eq.mp h) (by simp)
            | some _ => rfl
          exact hit.toAgrees.finish_of_terminal hterm (by simp)
        | true =>
          -- the loop stops after a translator that went on: the block links to the next location
          rw [hsc] at hit
          refine hit.toAgrees.finish_link (hit.terminal_eq.mpr rfl) ?_
          cases singleStep with
          | true => exact Or.inr (Or.inr rfl)
          | false =>
            have hcc : ((t.translateInstruction inst).1.advance inst.ticks).condCanContinue = false := by
              simpa [hsc] using hgo
            have hnone : ((t.translateInstruction inst).1.advance inst.ticks).condState ≠ .none :=
              fun h => absurd (condCanContinue_of_none h) (by simp [hcc])
            exact (condState_of_ne hnone hit.condState_ne).elim Or.inl (fun h => Or.inr (Or.inl h))

/-- The start of a block is a running translation. -/
theorem Running.init : Running raise start prog (Translation.init start) where
  pass := by
    intro s _
    simp [exit, Exit.count, oneAtATime]
  fail := FailAgrees.init
  start_le := Nat.le_refl start
  terminal_eq := rfl
  condState_ne := by simp
  noWrites := by simp
  idle := by simp [oneAtATime]

end Simulation

/-- The code after the loop builds the block from the loop's state, with at most a terminal set on top. -/
theorem Translation.finish_eq_some {t : Translation S flags} {shouldContinue singleStep : Bool} {blk : Block S flags}
    (h : t.finish shouldContinue singleStep = some blk) :
    ∃ t' : Translation S flags, (t' = t ∨ ∃ term, t' = t.setTerm term) ∧ t'.toBlock = some blk := by
  unfold Translation.finish at h
  split at h
  · unfold Translation.setTermChecked at h
    split at h
    · simp at h
    · exact ⟨_, Or.inr ⟨_, rfl⟩, by simpa using h⟩
  · exact ⟨t, Or.inl rfl, h⟩

/-- The invariant rule of the loop: a property of translation states that the translators, the end of an iteration,
the fault at the end of the code and `SetTerm` keep holds of the state the block is built from. -/
theorem Translation.translateFrom_invariant (P : Translation S flags → Prop) {singleStep : Bool}
    (rest : List (GuestInstruction S flags))
    (hinst : ∀ t inst, inst ∈ rest → P t → P (t.translateInstruction inst).1)
    (hadvance : ∀ t inst, inst ∈ rest → P t → P (t.advance inst.ticks))
    (hfault : ∀ t, P t → P ((t.raiseException .noExecuteFault).1.advance 1))
    (hset : ∀ t term, P t → P (t.setTerm term)) {t : Translation S flags} (ht : P t) {blk : Block S flags}
    (h : t.translateFrom singleStep rest = some blk) : ∃ t', P t' ∧ t'.toBlock = some blk := by
  have hfinish : ∀ t', P t' → ∀ sc, t'.finish sc singleStep = some blk → ∃ t'', P t'' ∧ t''.toBlock = some blk := by
    intro t' ht' sc hf
    obtain ⟨t'', ht'', hb⟩ := finish_eq_some hf
    rcases ht'' with rfl | ⟨term, rfl⟩
    · exact ⟨_, ht', hb⟩
    · exact ⟨_, hset t' term ht', hb⟩
  induction rest generalizing t with
  | nil =>
    simp only [Translation.translateFrom] at h
    exact hfinish _ (hfault t ht) _ h
  | cons inst rest ih =>
    simp only [Translation.translateFrom] at h
    have hin : inst ∈ inst :: rest := List.mem_cons_self
    have ht₁ := hinst t inst hin ht
    split_ifs at h
    · exact hfinish _ ht₁ _ h
    · exact ih (fun t' i hi => hinst t' i (List.mem_cons_of_mem inst hi))
        (fun t' i hi => hadvance t' i (List.mem_cons_of_mem inst hi)) (hadvance _ inst hin ht₁) h
    · exact hfinish _ (hadvance _ inst hin ht₁) _ h

/-! ### Cycle counts -/

section Cycles

variable {start : Nat}

open Translation

/-- The block's cycle counts with one tick per instruction: the cycle count is the number of locations from the start
to the current one, and the condition-failed cycle count the number up to the condition-failed location. -/
structure Counted (start : Nat) (t : Translation S flags) : Prop where
  start_le : start ≤ t.currentLocation
  cycleCount_eq : t.cycleCount = t.currentLocation - start
  failedCount_eq : ∀ l, t.conditionFailedLocation = some l → t.conditionFailedCycleCount = l - start

/-- The start of a block has counted no cycle. -/
theorem Counted.init : Counted start (Translation.init start : Translation S flags) where
  start_le := Nat.le_refl start
  cycleCount_eq := by simp
  failedCount_eq := by simp

/-- `Counted` reads the current location, the cycle counts and the condition-failed location only. -/
theorem Counted.congr {t t' : Translation S flags} (hc : Counted start t) (hl : t'.currentLocation = t.currentLocation)
    (hcc : t'.cycleCount = t.cycleCount) (hL : t'.conditionFailedLocation = t.conditionFailedLocation)
    (hn : t'.conditionFailedCycleCount = t.conditionFailedCycleCount) : Counted start t' where
  start_le := hl ▸ hc.start_le
  cycleCount_eq := by rw [hl, hcc, hc.cycleCount_eq]
  failedCount_eq := fun l h => by rw [hn, hc.failedCount_eq l (hL ▸ h)]

/-- The condition-failed location set just past the current instruction. -/
theorem Counted.setFailed {t : Translation S flags} (hc : Counted start t) (n : Nat)
    (hn : n = t.currentLocation + 1 - start) :
    Counted start { t with conditionFailedLocation := some (t.currentLocation + 1), conditionFailedCycleCount := n } where
  start_le := hc.start_le
  cycleCount_eq := hc.cycleCount_eq
  failedCount_eq := fun l h => by
    obtain rfl := Option.some.inj h
    exact hn

/-- Emitting an instruction keeps the cycle counts. -/
theorem Counted.emit {t : Translation S flags} (hc : Counted start t) (inst : GuestInstruction S flags) :
    Counted start (t.emit inst).1 := by
  unfold Translation.emit
  split
  · exact hc.congr (by simp) (by simp [emitIR_eq]) (by simp) (by simp [emitIR_eq])
  · exact hc.congr (by simp) (by simp [emitIR_eq]) (by simp) (by simp [emitIR_eq])

/-- `IsConditionPassed` keeps the counts: the condition-failed location only ever moves past the current instruction,
with its cycle count one past the cycle count there. -/
theorem Counted.isConditionPassed {t : Translation S flags} (hc : Counted start t) (c : Cond) :
    Counted start (t.isConditionPassed c).1 := by
  have hpast : t.cycleCount + 1 = t.currentLocation + 1 - start := by
    have := hc.start_le
    rw [hc.cycleCount_eq]
    omega
  -- outside a run, the location is set only where the block has no condition yet
  have hout : ∀ t' : Translation S flags, Counted start t' → t'.currentLocation = t.currentLocation →
      t'.cycleCount = t.cycleCount → Counted start (t'.conditionPassedOutsideRun c).1 := by
    intro t' hc' hl hcc
    unfold conditionPassedOutsideRun
    split_ifs
    · exact hc'
    · exact hc'.congr rfl rfl rfl rfl
    · exact (hc'.setFailed _ (by rw [hl, hcc]; exact hpast)).congr rfl rfl rfl rfl
  unfold Translation.isConditionPassed
  by_cases hnv : c = .nv
  · rw [if_pos hnv]
    exact hc.congr rfl rfl rfl rfl
  rw [if_neg hnv]
  by_cases htr : t.condState = .translating
  · rw [if_pos htr]
    by_cases hrun : t.conditionFailedLocation ≠ some t.currentLocation ∨ c = .al
    · rw [if_pos hrun]
      exact hout _ (hc.congr rfl rfl rfl rfl) rfl rfl
    rw [if_neg hrun]
    by_cases hsame : c = t.condition
    · -- the run goes on: the old condition-failed location is the current one
      rw [if_pos hsame]
      simp only [not_or, not_not] at hrun
      refine hc.setFailed _ ?_
      rw [hc.failedCount_eq _ hrun.1]
      have := hc.start_le
      omega
    · rw [if_neg hsame]
      exact hc.congr rfl rfl rfl rfl
  · rw [if_neg htr]
    exact hout t hc rfl rfl

/-- Translating an instruction keeps the cycle counts. -/
theorem Counted.translateInstruction {t : Translation S flags} (hc : Counted start t) (inst : GuestInstruction S flags) :
    Counted start (t.translateInstruction inst).1 := by
  unfold Translation.translateInstruction
  cases inst.cond with
  | none => exact hc.emit inst
  | some c =>
    have hc' := hc.isConditionPassed c
    simp only
    split
    · exact hc'.emit inst
    · exact hc'

/-- One tick more, one location further. -/
theorem Counted.advance {t : Translation S flags} (hc : Counted start t) : Counted start (t.advance 1) where
  start_le := by
    have := hc.start_le
    simp only [advance_currentLocation]
    omega
  cycleCount_eq := by
    have := hc.start_le
    simp only [advance_cycleCount, advance_currentLocation, hc.cycleCount_eq]
    omega
  failedCount_eq := hc.failedCount_eq

/-- The loop keeps the counts when every instruction takes one tick, and the block carries them. -/
theorem Counted.translateFrom {singleStep : Bool} (rest : List (GuestInstruction S flags))
    (hticks : ∀ inst ∈ rest, inst.ticks = 1) {t : Translation S flags} (hc : Counted start t)
    {blk : Block S flags} (h : t.translateFrom singleStep rest = some blk) :
    blk.cycleCount = blk.endLocation - start ∧
      ∀ l, blk.conditionFailedLocation = some l → blk.conditionFailedCycleCount = l - start := by
  obtain ⟨t', hc', hb⟩ := Translation.translateFrom_invariant (Counted start) rest
    (fun t inst _ hc => hc.translateInstruction inst)
    (fun t inst hi hc => hticks inst hi ▸ hc.advance)
    (fun t hc => by
      have hraised : Counted start (t.raiseException .noExecuteFault).1 := hc.congr rfl rfl rfl rfl
      exact hraised.advance)
    (fun t term hc => hc.congr rfl rfl rfl rfl) hc h
  unfold Translation.toBlock at hb
  obtain ⟨term, -, rfl⟩ := Option.map_eq_some_iff.mp hb
  exact ⟨hc'.cycleCount_eq, hc'.failedCount_eq⟩

end Cycles

/-- With one tick per instruction (`GetTicksForCode`'s default), the block's cycle count is the number of instructions it
translated, and the condition-failed cycle count the number of instructions up to the condition-failed location: those
the one-at-a-time run goes through when the condition fails. -/
theorem translate_cycleCount (prog : List (GuestInstruction S flags)) (start : Nat) (singleStep : Bool)
    (hticks : ∀ inst ∈ prog, inst.ticks = 1) {blk : Block S flags} (h : translate prog start singleStep = some blk) :
    blk.cycleCount = blk.endLocation - start ∧
      ∀ l, blk.conditionFailedLocation = some l → blk.conditionFailedCycleCount = l - start :=
  Counted.init.translateFrom prog hticks h

/-! ### The conditions of the instructions in a block -/

section Conditions

open Translation

/-- Every instruction whose IR is in the block has no condition, the condition AL, or the block's condition. -/
def BodyConds (t : Translation S flags) : Prop :=
  ∀ l inst, Emitted.instruction l inst ∈ t.body →
    inst.cond = none ∨ inst.cond = some .al ∨ inst.cond = some t.condition

/-- `BodyConds` depends only on the condition and the body of the translation. -/
theorem BodyConds.congr {t t' : Translation S flags} (hb : BodyConds t) (hc : t'.condition = t.condition)
    (hbody : t'.body = t.body) : BodyConds t' := by
  intro l inst hmem
  rw [hc]
  exact hb l inst (hbody ▸ hmem)

/-- IR raised at the current location holds no instruction. -/
theorem BodyConds.raiseException {t : Translation S flags} (hb : BodyConds t) (e : Exception) :
    BodyConds (t.raiseException e).1 := by
  intro l inst hmem
  simp only [raiseException_fst_body, List.mem_append, List.mem_singleton, reduceCtorEq, or_false] at hmem
  exact hb l inst hmem

/-- Emitting an instruction with no condition, AL or the block's condition keeps `BodyConds`. -/
theorem BodyConds.emit {t : Translation S flags} {inst : GuestInstruction S flags} (hb : BodyConds t)
    (hc : inst.cond = none ∨ inst.cond = some .al ∨ inst.cond = some t.condition) : BodyConds (t.emit inst).1 := by
  have hir : BodyConds (t.emitIR inst) := by
    intro l i hmem
    rw [emitIR_condition]
    rw [emitIR_eq] at hmem
    simp only [List.mem_append] at hmem
    rcases hmem with hmem | hmem
    · exact hb l i hmem
    · split at hmem
      · obtain ⟨-, rfl⟩ := Emitted.instruction.inj (List.mem_singleton.mp hmem)
        simpa using hc
      · simp at hmem
  unfold Translation.emit
  split
  · exact hir
  · exact hir.congr rfl rfl

/-- `IsConditionPassed` keeps the conditions, and passes only AL or the block's condition as it leaves it. -/
theorem BodyConds.isConditionPassed {t : Translation S flags} (hb : BodyConds t) (c : Cond) :
    BodyConds (t.isConditionPassed c).1 ∧
      ((t.isConditionPassed c).2 = true → c = .al ∨ c = (t.isConditionPassed c).1.condition) := by
  -- outside a run, a condition other than AL passes only where it becomes the block's, in a block with no IR
  have hout : ∀ t' : Translation S flags, BodyConds t' →
      BodyConds (t'.conditionPassedOutsideRun c).1 ∧
        ((t'.conditionPassedOutsideRun c).2 = true → c = .al ∨ c = (t'.conditionPassedOutsideRun c).1.condition) := by
    intro t' hb'
    unfold conditionPassedOutsideRun
    split_ifs with hal hbody
    · exact ⟨hb', fun _ => Or.inl hal⟩
    · exact ⟨hb'.congr rfl rfl, by simp⟩
    · refine ⟨?_, fun _ => Or.inr rfl⟩
      intro l inst hmem
      simp only [ne_eq, not_not] at hbody
      simp [hbody] at hmem
  unfold Translation.isConditionPassed
  by_cases hnv : c = .nv
  · rw [if_pos hnv]
    exact ⟨(hb.raiseException _).congr rfl rfl, by simp⟩
  rw [if_neg hnv]
  by_cases htr : t.condState = .translating
  · rw [if_pos htr]
    by_cases hrun : t.conditionFailedLocation ≠ some t.currentLocation ∨ c = .al
    · rw [if_pos hrun]
      exact hout _ (hb.congr rfl rfl)
    rw [if_neg hrun]
    by_cases hsame : c = t.condition
    · rw [if_pos hsame]
      exact ⟨hb.congr rfl rfl, fun _ => Or.inr hsame⟩
    · rw [if_neg hsame]
      exact ⟨hb.congr rfl rfl, by simp⟩
  · rw [if_neg htr]
    exact hout t hb

/-- Translating an instruction keeps `BodyConds`. -/
theorem BodyConds.translateInstruction {t : Translation S flags} (hb : BodyConds t) (inst : GuestInstruction S flags) :
    BodyConds (t.translateInstruction inst).1 := by
  unfold Translation.translateInstruction
  cases hc : inst.cond with
  | none => exact hb.emit (Or.inl hc)
  | some c =>
    obtain ⟨hb', hpass⟩ := hb.isConditionPassed c
    simp only
    split
    · rename_i hsc
      rcases hpass hsc with rfl | hcond
      · exact hb'.emit (Or.inr (Or.inl hc))
      · exact hb'.emit (Or.inr (Or.inr (hcond ▸ hc)))
    · exact hb'

end Conditions

/-- Every instruction whose IR is in a translated block has no condition (an encoding whose translator never calls
`IsConditionPassed`), the condition AL, or the block's condition. -/
theorem translate_body_conds (prog : List (GuestInstruction S flags)) (start : Nat) (singleStep : Bool)
    {blk : Block S flags} (h : translate prog start singleStep = some blk) :
    ∀ l inst, Emitted.instruction l inst ∈ blk.body →
      inst.cond = none ∨ inst.cond = some .al ∨ inst.cond = some blk.condition := by
  have hinit : BodyConds (Translation.init start : Translation S flags) := by
    intro l inst hmem
    simp at hmem
  obtain ⟨t', hb, hblk⟩ := Translation.translateFrom_invariant BodyConds prog
    (fun t inst _ hb => hb.translateInstruction inst) (fun t _ _ hb => hb.congr rfl rfl)
    (fun t hb => (hb.raiseException _).congr rfl rfl) (fun t _ hb => hb.congr rfl rfl) hinit h
  unfold Translation.toBlock at hblk
  obtain ⟨term, -, rfl⟩ := Option.map_eq_some_iff.mp hblk
  exact hb

/-- Hoisting conditions to the block is sound: the loop builds a block, and from every guest state the block, run as
the backend runs it, does what the same instructions do run one at a time, each only when its own condition holds,
up to where the block leaves; unless a single step meets the condition NV first. -/
theorem translate_agrees (raise : Exception → Nat → S → S) (prog : List (GuestInstruction S flags)) (start : Nat)
    (singleStep : Bool) (h : singleStep = true → ∀ inst ∈ prog.head?, inst.cond ≠ some .nv) :
    ∃ blk, translate prog start singleStep = some blk ∧
      ∀ s, blk.run raise s = oneAtATime raise start prog ((blk.run raise s).2.count start) s :=
  (Running.init : Running raise start prog (Translation.init start)).translateFrom prog (by simp [Translation.init])
    (fun hs => ⟨rfl, rfl, h hs⟩)

/-- A single step at an instruction with the condition NV fails: `IsConditionPassed` raises, which sets the terminal,
and the translator returns true, so the loop sets `LinkBlock` as well, and `Block::SetTerminal` asserts. -/
theorem translate_single_step_nv (inst : GuestInstruction S flags) (rest : List (GuestInstruction S flags))
    (start : Nat) (hnv : inst.cond = some .nv) : translate (inst :: rest) start true = none := by
  simp [translate, Translation.translateFrom, Translation.translateInstruction, hnv, Translation.isConditionPassed,
    Translation.finish, Translation.setTermChecked]

/-- The word `0xF0800000`, `ADD r0, r0, r0` with the condition field `1111`, as the loop sees it: its translator calls
`IsConditionPassed` with NV. The guest states here are the flags alone, which this ADD does not set. -/
def addNV : GuestInstruction NZCV id where
  cond := some .nv
  ticks := 1
  emitsIR := true
  writesCPSR := false
  continues := true
  execute := id
  flags_execute := fun _ _ => rfl
  execute_of_emitsIR := fun h => absurd h (by decide)

/-- An ADD with the condition NV ends translation when single-stepping and is translated otherwise. -/
theorem translate_single_step_addNV : translate [addNV] 0 true = none ∧ (translate [addNV] 0 false).isSome = true :=
  ⟨translate_single_step_nv addNV [] 0 rfl, rfl⟩

end Dynarmic.A32
