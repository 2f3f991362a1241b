import Mathlib.Data.List.Basic

/-!
# Runs of a deterministic state machine

A machine with a step function `step : σ → ε → σ` runs a list of events from a state. A safety property of runs is an
observation `obs s e` of each event `e` in the state `s` it happens in; it holds of a run when it holds at every event of
it (`Always`). The rule that proves it is the invariant rule: an invariant that every step keeps and that implies the
observation gives the observation along every run from a state where the invariant holds.
-/

namespace Run

variable {σ ε : Type*}

/-- The state after a list of events. -/
def run (step : σ → ε → σ) (s : σ) (evs : List ε) : σ :=
  evs.foldl step s

@[simp] theorem run_nil (step : σ → ε → σ) (s : σ) : run step s [] = s := rfl

@[simp] theorem run_cons (step : σ → ε → σ) (s : σ) (e : ε) (evs : List ε) :
    run step s (e :: evs) = run step (step s e) evs := rfl

/-- An observation holds at every event of a run, each in the state the run has reached when it happens. -/
def Always (step : σ → ε → σ) (obs : σ → ε → Prop) : σ → List ε → Prop
  | _, [] => True
  | s, e :: evs => obs s e ∧ Always step obs (step s e) evs

@[simp] theorem always_nil (step : σ → ε → σ) (obs : σ → ε → Prop) (s : σ) : Always step obs s [] := trivial

@[simp] theorem always_cons (step : σ → ε → σ) (obs : σ → ε → Prop) (s : σ) (e : ε) (evs : List ε) :
    Always step obs s (e :: evs) ↔ obs s e ∧ Always step obs (step s e) evs := Iff.rfl

section Invariant

variable {step : σ → ε → σ} {inv : σ → Prop}

/-- An invariant that every step keeps holds after every run. -/
theorem run_invariant (hstep : ∀ s e, inv s → inv (step s e)) {s : σ} (hs : inv s) (evs : List ε) :
    inv (run step s evs) := by
  induction evs generalizing s with
  | nil => exact hs
  | cons e evs ih => exact ih (hstep s e hs)

/-- The invariant rule: an invariant that every step keeps and that implies the observation gives the observation at
every event of every run that starts where it holds. -/
theorem always_of_invariant {obs : σ → ε → Prop} (hstep : ∀ s e, inv s → inv (step s e))
    (hobs : ∀ s e, inv s → obs s e) {s : σ} (hs : inv s) (evs : List ε) : Always step obs s evs := by
  induction evs generalizing s with
  | nil => trivial
  | cons e evs ih => exact ⟨hobs s e hs, ih (hstep s e hs)⟩

/-- The invariant rule for a loop written as a left fold, with the invariant named. -/
theorem foldl_invariant (inv : σ → Prop) {f : σ → ε → σ} (hstep : ∀ s e, inv s → inv (f s e)) {s : σ} (hs : inv s)
    (l : List ε) : inv (l.foldl f s) :=
  run_invariant hstep hs l

/-- The invariant rule for a left fold whose steps keep the invariant at the elements of the list it folds. -/
theorem foldl_invariant_of_mem (inv : σ → Prop) {f : σ → ε → σ} {l : List ε} (hstep : ∀ s, ∀ e ∈ l, inv s → inv (f s e))
    {s : σ} (hs : inv s) : inv (l.foldl f s) := by
  induction l generalizing s with
  | nil => exact hs
  | cons e l ih =>
    exact ih (fun s' e' he' => hstep s' e' (List.mem_cons_of_mem e he')) (hstep s e List.mem_cons_self hs)

/-- The invariant rule for a left fold whose invariant speaks of the part of the list already folded. -/
theorem foldl_invariant_prefix (inv : List ε → σ → Prop) {f : σ → ε → σ} (l : List ε)
    (hstep : ∀ pre e post s, l = pre ++ e :: post → inv pre s → inv (pre ++ [e]) (f s e)) {s : σ} (hs : inv [] s) :
    inv l (l.foldl f s) := by
  -- the rest of the fold, from the state reached after each front part `pre` of the list
  suffices h : ∀ rest pre s, l = pre ++ rest → inv pre s → inv l (rest.foldl f s) from h l [] s rfl hs
  intro rest
  induction rest with
  | nil =>
    intro pre s hl hs
    rwa [hl, List.append_nil]
  | cons e rest ih =>
    intro pre s hl hs
    exact ih (pre ++ [e]) (f s e) (by rw [hl, List.append_assoc, List.singleton_append]) (hstep pre e rest s hl hs)

/-- The invariant rule for a left fold in `Option` whose steps succeed where the invariant holds: it succeeds with the
left fold of the steps' results. -/
theorem foldlM_eq_some_of_invariant_prefix (inv : List ε → σ → Prop) {f : σ → ε → σ} {g : σ → ε → Option σ}
    (l : List ε) (hstep : ∀ pre e post s, l = pre ++ e :: post → inv pre s → g s e = some (f s e) ∧ inv (pre ++ [e]) (f s e))
    {s : σ} (hs : inv [] s) : l.foldlM g s = some (l.foldl f s) := by
  -- the rest of the fold, from the state reached after each front part `pre` of the list
  suffices h : ∀ rest pre s, l = pre ++ rest → inv pre s → rest.foldlM g s = some (rest.foldl f s) from h l [] s rfl hs
  intro rest
  induction rest with
  | nil => exact fun _ _ _ _ => rfl
  | cons e rest ih =>
    intro pre s hl hs
    obtain ⟨hg, hinv⟩ := hstep pre e rest s hl hs
    rw [List.foldlM_cons, hg, List.foldl_cons]
    exact ih (pre ++ [e]) (f s e) (by rw [hl, List.append_assoc, List.singleton_append]) hinv

end Invariant

/-- A run breaks an observation as soon as one of its events does. -/
theorem not_always_of_append {step : σ → ε → σ} {obs : σ → ε → Prop} {s : σ} (pre : List ε) (e : ε) (post : List ε)
    (h : ¬ obs (run step s pre) e) : ¬ Always step obs s (pre ++ e :: post) := by
  induction pre generalizing s with
  | nil => exact fun hall => h hall.1
  | cons e' pre ih => exact fun hall => ih h hall.2

end Run
