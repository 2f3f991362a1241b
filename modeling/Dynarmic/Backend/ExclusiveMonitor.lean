import Mathlib.Data.List.Induction
import Mathlib.Logic.Function.Basic
import Dynarmic.Lib.Run

/-!
# The global exclusive monitor

`interface/exclusive_monitor.h` and `backend/x64/exclusive_monitor.cpp`. The processors of a system share one monitor:
for each processor the address it reserved with `ReadAndMark`, or `INVALID_EXCLUSIVE_ADDRESS`, and the value it read
then. `DoExclusiveOperation` runs the store `op` only while the processor's reservation still names the address, and
clears every processor's reservation of that address when it does. A spin lock guards the tables; `CheckAndClear`
leaves it held on success, and `DoExclusiveOperation` releases it after `op`.

Each of the four operations is one atomic step of the system (`System.step`). What the monitor is for is stated over the
trace of a run (`Reserved`): a processor holds a reservation of an address when its latest `ReadAndMark` was there and
nothing since (a `Clear`, its own `ClearProcessor`, an exclusive operation on the address that ran) ended it. The code
keeps a reservation as the address itself, with `INVALID_EXCLUSIVE_ADDRESS` for none (`Refines`); every exclusive
operation that runs then rests on a reservation, for every address but that mark. At the mark itself the table cannot
tell a reservation from none, and an exclusive operation runs with no `ReadAndMark` before it.
-/

namespace Dynarmic

/-- `VAddr`. -/
abbrev VAddr := BitVec 64

/-- `RESERVATION_GRANULE_MASK`: every bit, so that a reservation granule is one address. -/
def reservationGranuleMask : VAddr := 0xFFFFFFFFFFFFFFFF

/-- `INVALID_EXCLUSIVE_ADDRESS`: what `exclusive_addresses` holds for a processor without a reservation. -/
def invalidExclusiveAddress : VAddr := 0xDEADDEADDEADDEAD

/-- `memcpy` of a `T` of `w` bits into a saved `Vector`: its low bits, the others as they were. -/
def writeLow (saved : BitVec 128) (value : BitVec w) : BitVec 128 :=
  saved >>> w <<< w ||| value.setWidth 128

/-- `ExclusiveMonitor` for `n` processors: the spin lock, and for each processor the address it reserved and the value
it read when it did. -/
structure ExclusiveMonitor (n : Nat) where
  locked : Bool
  exclusiveAddresses : Fin n → VAddr
  exclusiveValues : Fin n → BitVec 128

namespace ExclusiveMonitor

variable {n : Nat}

/-- The constructor: no reservations, zero values, and the lock free. -/
def new (n : Nat) : ExclusiveMonitor n :=
  { locked := false, exclusiveAddresses := fun _ => invalidExclusiveAddress, exclusiveValues := fun _ => 0 }

/-- `Lock`: the spin lock is taken when it is free; `none` is a processor that spins on a held lock. -/
def lock (m : ExclusiveMonitor n) : Option (ExclusiveMonitor n) :=
  if m.locked then none else some { m with locked := true }

/-- `Unlock`. -/
def unlock (m : ExclusiveMonitor n) : ExclusiveMonitor n :=
  { m with locked := false }

/-- `ReadAndMark<T>`: under the lock, reserve the address and save the value `op` read. -/
def readAndMark (m : ExclusiveMonitor n) (p : Fin n) (address : VAddr) (value : BitVec w) :
    Option (ExclusiveMonitor n × BitVec w) := do
  let maskedAddress := address &&& reservationGranuleMask
  let m ← m.lock
  let m := { m with
    exclusiveAddresses := Function.update m.exclusiveAddresses p maskedAddress
    exclusiveValues := Function.update m.exclusiveValues p (writeLow (m.exclusiveValues p) value) }
  some (m.unlock, value)

/-- `CheckAndClear`: whether the processor's reservation names the address; if it does, every reservation of the
address is cleared and the lock stays held. -/
def checkAndClear (m : ExclusiveMonitor n) (p : Fin n) (address : VAddr) : Option (ExclusiveMonitor n × Bool) := do
  let maskedAddress := address &&& reservationGranuleMask
  let m ← m.lock
  if m.exclusiveAddresses p ≠ maskedAddress then some (m.unlock, false)
  else
    some ({ m with
      exclusiveAddresses := fun q =>
        if m.exclusiveAddresses q = maskedAddress then invalidExclusiveAddress else m.exclusiveAddresses q }, true)

/-- `DoExclusiveOperation<T>`: the monitor after it, whether `op` ran on the saved value, and what it returns. -/
def doExclusiveOperation (m : ExclusiveMonitor n) (p : Fin n) (address : VAddr) (op : BitVec w → Bool) :
    Option (ExclusiveMonitor n × Bool × Bool) := do
  let (m, ok) ← m.checkAndClear p address
  if !ok then some (m, false, false)
  else
    let savedValue : BitVec w := (m.exclusiveValues p).setWidth w
    some (m.unlock, true, op savedValue)

/-- `Clear`. -/
def clear (m : ExclusiveMonitor n) : Option (ExclusiveMonitor n) := do
  let m ← m.lock
  some { m with exclusiveAddresses := fun _ => invalidExclusiveAddress }.unlock

/-- `ClearProcessor`. -/
def clearProcessor (m : ExclusiveMonitor n) (p : Fin n) : Option (ExclusiveMonitor n) := do
  let m ← m.lock
  some { m with exclusiveAddresses := Function.update m.exclusiveAddresses p invalidExclusiveAddress }.unlock

end ExclusiveMonitor

/-- The operations of the processors on the monitor; `w` is the width of the `T` they are instantiated at. -/
inductive MonitorEvent (n : Nat) where
  | readAndMark (p : Fin n) (address : VAddr) (w : Nat) (value : BitVec w)
  | doExclusiveOperation (p : Fin n) (address : VAddr) (w : Nat) (op : BitVec w → Bool)
  | clearProcessor (p : Fin n)
  | clear

namespace ExclusiveMonitor

variable {n : Nat}

/-- One operation as one atomic step: the monitor after it, and whether it ran an exclusive `op`. -/
def step (m : ExclusiveMonitor n) : MonitorEvent n → Option (ExclusiveMonitor n × Bool)
  | .readAndMark p a _ v => (m.readAndMark p a v).map fun r => (r.1, false)
  | .doExclusiveOperation p a _ op => (m.doExclusiveOperation p a op).map fun r => (r.1, r.2.1)
  | .clearProcessor p => (m.clearProcessor p).map fun m => (m, false)
  | .clear => m.clear.map fun m => (m, false)

end ExclusiveMonitor

/-- The processors and their monitor: the monitor, and the events so far, each with whether it ran an exclusive `op`. -/
structure MonitorSystem (n : Nat) where
  monitor : ExclusiveMonitor n
  trace : List (MonitorEvent n × Bool)

namespace MonitorSystem

variable {n : Nat}

/-- A step of the system. A processor whose `Lock` finds the lock held spins, and the system does not move. -/
def step (s : MonitorSystem n) (e : MonitorEvent n) : MonitorSystem n :=
  match s.monitor.step e with
  | some (m, ran) => ⟨m, s.trace ++ [(e, ran)]⟩
  | none => s

/-- The system as it starts: a new monitor, nothing done. -/
def start (n : Nat) : MonitorSystem n :=
  ⟨ExclusiveMonitor.new n, []⟩

end MonitorSystem

/-! ### What the monitor is for -/

namespace MonitorEvent

variable {n : Nat}

/-- An event that ends processor `p`'s reservation of `a`: its next `ReadAndMark`, a `Clear`, its `ClearProcessor`, or
an exclusive operation on `a` that ran. -/
def Ends (p : Fin n) (a : VAddr) : MonitorEvent n × Bool → Prop
  | (.readAndMark q _ _ _, _) => q = p
  | (.doExclusiveOperation _ b _ _, ran) => ran = true ∧ b = a
  | (.clearProcessor q, _) => q = p
  | (.clear, _) => True

end MonitorEvent

/-- `p` holds a reservation of `a` after a trace: its latest `ReadAndMark` was at `a`, and nothing since ended it. -/
def Reserved {n : Nat} (tr : List (MonitorEvent n × Bool)) (p : Fin n) (a : VAddr) : Prop :=
  ∃ pre w v ran post, tr = pre ++ (.readAndMark p a w v, ran) :: post ∧ ∀ x ∈ post, ¬ MonitorEvent.Ends p a x

/-- Every exclusive operation of the trace that ran, on an address of the set, rests on a reservation of it. -/
def RestsOnReservations {n : Nat} (tr : List (MonitorEvent n × Bool)) (addresses : VAddr → Prop) : Prop :=
  ∀ pre p a w op post, tr = pre ++ (.doExclusiveOperation p a w op, true) :: post → addresses a → Reserved pre p a

/-- Where the last element of `tr ++ [x]` stands in a split of it: it is the element split at, or it follows it. -/
theorem split_append_singleton {α : Type*} {tr pre post : List α} {x y : α} (h : tr ++ [x] = pre ++ y :: post) :
    (pre = tr ∧ y = x ∧ post = []) ∨ ∃ post', post = post' ++ [x] ∧ tr = pre ++ y :: post' := by
  rcases List.eq_nil_or_concat post with rfl | ⟨post', z, rfl⟩
  · obtain ⟨h1, h2⟩ := List.append_inj' h rfl
    exact Or.inl ⟨h1.symm, (List.singleton_inj.mp h2).symm, rfl⟩
  · have h' : tr ++ [x] = (pre ++ y :: post') ++ [z] := by simpa using h
    obtain ⟨h1, h2⟩ := List.append_inj' h' rfl
    exact Or.inr ⟨post', by rw [List.concat_eq_append, List.singleton_inj.mp h2], h1⟩

/-- The reservations as a table: the address each processor holds a reservation of, if any. -/
abbrev Reservations (n : Nat) := Fin n → Option VAddr

namespace Reservations

variable {n : Nat}

/-- How an event, and whether it ran an exclusive `op`, changes the reservations. -/
def record (r : Reservations n) : MonitorEvent n × Bool → Reservations n
  | (.readAndMark p a _ _, _) => Function.update r p (some a)
  | (.doExclusiveOperation _ a _ _, ran) => if ran then fun q => if r q = some a then none else r q else r
  | (.clearProcessor p, _) => Function.update r p none
  | (.clear, _) => fun _ => none

/-- The reservations after a trace, from none. -/
def ofTrace (tr : List (MonitorEvent n × Bool)) : Reservations n :=
  tr.foldl record fun _ => none

@[simp] theorem ofTrace_nil : ofTrace ([] : List (MonitorEvent n × Bool)) = fun _ => none := rfl

/-- The reservations after a trace and one more event are those of the trace, updated by the event. -/
theorem ofTrace_append_singleton (tr : List (MonitorEvent n × Bool)) (x : MonitorEvent n × Bool) :
    ofTrace (tr ++ [x]) = (ofTrace tr).record x := by
  simp [ofTrace]

/-- One event keeps `p`'s reservation of `a` unless it ends it, and a `ReadAndMark` of `p` at `a` makes one. -/
theorem record_eq_some_iff (r : Reservations n) (x : MonitorEvent n × Bool) (p : Fin n) (a : VAddr) :
    r.record x p = some a ↔
      (∃ w v ran, x = (.readAndMark p a w v, ran)) ∨ (r p = some a ∧ ¬ MonitorEvent.Ends p a x) := by
  obtain ⟨e, ran⟩ := x
  cases e with
  | readAndMark q b w v =>
    by_cases hq : q = p
    · subst hq
      simp [record, MonitorEvent.Ends, eq_comm]
    · simp [record, MonitorEvent.Ends, hq, Function.update_of_ne (Ne.symm hq)]
  | doExclusiveOperation q b w op =>
    cases ran with
    | false => simp [record, MonitorEvent.Ends]
    | true =>
      by_cases hb : b = a
      · subst hb
        simp [record, MonitorEvent.Ends]
      · by_cases hp : r p = some b
        · simp [record, MonitorEvent.Ends, hp, hb]
        · simp [record, MonitorEvent.Ends, hp, hb]
  | clearProcessor q =>
    by_cases hq : q = p
    · subst hq
      simp [record, MonitorEvent.Ends]
    · simp [record, MonitorEvent.Ends, hq, Function.update_of_ne (Ne.symm hq)]
  | clear => simp [record, MonitorEvent.Ends]

/-- The table holds exactly the reservations the trace makes. -/
theorem ofTrace_eq_some_iff (tr : List (MonitorEvent n × Bool)) (p : Fin n) (a : VAddr) :
    ofTrace tr p = some a ↔ Reserved tr p a := by
  induction tr using List.reverseRecOn with
  | nil => simp [Reserved]
  | append_singleton tr x ih =>
    rw [ofTrace_append_singleton, record_eq_some_iff, ih]
    constructor
    · rintro (⟨w, v, ran, rfl⟩ | ⟨⟨pre, w, v, ran, post, rfl, hpost⟩, hx⟩)
      · exact ⟨tr, w, v, ran, [], by simp, by simp⟩
      · refine ⟨pre, w, v, ran, post ++ [x], by simp, ?_⟩
        intro y hy
        rcases List.mem_append.mp hy with hy | hy
        · exact hpost y hy
        · rw [List.mem_singleton.mp hy]
          exact hx
    · rintro ⟨pre, w, v, ran, post, htr, hpost⟩
      rcases split_append_singleton htr with ⟨rfl, hx, rfl⟩ | ⟨post', rfl, htr'⟩
      · exact Or.inl ⟨w, v, ran, hx.symm⟩
      · refine Or.inr ⟨⟨pre, w, v, ran, post', htr', fun z hz => hpost z (by simp [hz])⟩, ?_⟩
        exact hpost x (by simp)

end Reservations

/-! ### The code keeps the reservations -/

namespace ExclusiveMonitor

variable {n : Nat}

/-- The monitor's table holds each reservation as its address, and no reservation as `INVALID_EXCLUSIVE_ADDRESS`. -/
def Refines (m : ExclusiveMonitor n) (r : Reservations n) : Prop :=
  ∀ p, m.exclusiveAddresses p = (r p).getD invalidExclusiveAddress

@[simp] theorem masked (a : VAddr) : a &&& reservationGranuleMask = a := by
  have h : reservationGranuleMask = BitVec.allOnes 64 := by decide
  rw [h, BitVec.and_allOnes]

/-- Away from the invalid mark, the table names the address exactly when the reservation does. -/
theorem Refines.eq_iff {m : ExclusiveMonitor n} {r : Reservations n} (h : m.Refines r) (p : Fin n) {a : VAddr}
    (ha : a ≠ invalidExclusiveAddress) : m.exclusiveAddresses p = a ↔ r p = some a := by
  rw [h p]
  cases hr : r p with
  | none => simp [Ne.symm ha]
  | some b => simp

section Unlocked

variable {m : ExclusiveMonitor n} (hl : m.locked = false)
include hl

/-- With the lock free, `ReadAndMark` marks the address for the processor, stores the value read, and returns it. -/
theorem readAndMark_eq (p : Fin n) (a : VAddr) (v : BitVec w) :
    m.readAndMark p a v = some ({ m with
      exclusiveAddresses := Function.update m.exclusiveAddresses p a
      exclusiveValues := Function.update m.exclusiveValues p (writeLow (m.exclusiveValues p) v) }, v) := by
  cases m
  simp_all [readAndMark, lock, unlock]

/-- With the lock free and the processor's mark on the address, an exclusive operation runs, clears every mark on that
address, and returns the operation's result. -/
theorem doExclusiveOperation_of_eq {p : Fin n} {a : VAddr} (hp : m.exclusiveAddresses p = a) (op : BitVec w → Bool) :
    m.doExclusiveOperation p a op = some ({ m with
      exclusiveAddresses := fun q =>
        if m.exclusiveAddresses q = a then invalidExclusiveAddress else m.exclusiveAddresses q },
      true, op ((m.exclusiveValues p).setWidth w)) := by
  cases m
  simp_all [doExclusiveOperation, checkAndClear, lock, unlock]

/-- With the lock free and no mark of the processor on the address, an exclusive operation does nothing and fails. -/
theorem doExclusiveOperation_of_ne {p : Fin n} {a : VAddr} (hp : m.exclusiveAddresses p ≠ a) (op : BitVec w → Bool) :
    m.doExclusiveOperation p a op = some (m, false, false) := by
  cases m
  simp_all [doExclusiveOperation, checkAndClear, lock, unlock]

/-- With the lock free, `ClearProcessor` clears the processor's mark. -/
theorem clearProcessor_eq (p : Fin n) :
    m.clearProcessor p =
      some { m with exclusiveAddresses := Function.update m.exclusiveAddresses p invalidExclusiveAddress } := by
  cases m
  simp_all [clearProcessor, lock, unlock]

/-- With the lock free, `Clear` clears every mark. -/
theorem clear_eq : m.clear = some { m with exclusiveAddresses := fun _ => invalidExclusiveAddress } := by
  cases m
  simp_all [clear, lock, unlock]

end Unlocked

/-- The step of each operation from a free lock: it ends with the lock free, it runs `op` exactly when the processor's
table entry names the address, and the table after it holds the reservations the event leaves. -/
theorem step_of_unlocked {m : ExclusiveMonitor n} {r : Reservations n} (hl : m.locked = false) (h : m.Refines r)
    (e : MonitorEvent n) :
    ∃ m' ran, m.step e = some (m', ran) ∧ m'.locked = false ∧ m'.Refines (r.record (e, ran)) ∧
      ∀ p a w op, e = .doExclusiveOperation p a w op → ran = decide (m.exclusiveAddresses p = a) := by
  cases e with
  | readAndMark p a w v =>
    refine ⟨_, false, by rw [step, readAndMark_eq hl]; rfl, ?_, ?_, fun _ _ _ _ he => nomatch he⟩
    · exact hl
    intro q
    by_cases hq : q = p
    · subst hq
      simp [Reservations.record]
    · simp [Reservations.record, hq, h q]
  | doExclusiveOperation p a w op =>
    by_cases hp : m.exclusiveAddresses p = a
    · refine ⟨_, true, by rw [step, doExclusiveOperation_of_eq hl hp]; rfl, ?_, ?_, ?_⟩
      · exact hl
      · intro q
        -- a successful check clears every table entry equal to the address; the table and the reservations agree
        by_cases ha : a = invalidExclusiveAddress
        · subst ha
          cases hr : r q with
          | none => simp [Reservations.record, hr, h q]
          | some b =>
            by_cases hb : b = invalidExclusiveAddress
            · subst hb
              simp [Reservations.record, hr, h q]
            · simp [Reservations.record, hr, h q, hb]
        · have hiff := h.eq_iff q ha
          by_cases hq : r q = some a
          · simp [Reservations.record, hq, hiff.mpr hq]
          · have hne : (r q).getD invalidExclusiveAddress ≠ a := fun hg => hq (hiff.mp ((h q).trans hg))
            simp [Reservations.record, hq, h q, hne]
      · rintro p' a' w' op' he
        cases he
        simp [hp]
    · refine ⟨_, false, by rw [step, doExclusiveOperation_of_ne hl hp]; rfl, ?_, ?_, ?_⟩
      · exact hl
      · intro q
        simp [Reservations.record, h q]
      · rintro p' a' w' op' he
        cases he
        simp [hp]
  | clearProcessor p =>
    refine ⟨_, false, by rw [step, clearProcessor_eq hl]; rfl, ?_, ?_, fun _ _ _ _ he => nomatch he⟩
    · exact hl
    intro q
    by_cases hq : q = p
    · subst hq
      simp [Reservations.record]
    · simp [Reservations.record, hq, h q]
  | clear =>
    refine ⟨_, false, by rw [step, clear_eq hl]; rfl, ?_, ?_, fun _ _ _ _ he => nomatch he⟩
    · exact hl
    intro q
    simp [Reservations.record]

end ExclusiveMonitor

namespace MonitorSystem

variable {n : Nat}

/-- The invariant of the system: the lock is free between steps, the table keeps the reservations of the trace, and
every exclusive operation that ran away from the invalid mark rests on a reservation. -/
structure Inv (s : MonitorSystem n) : Prop where
  unlocked : s.monitor.locked = false
  refines : s.monitor.Refines (Reservations.ofTrace s.trace)
  rests : RestsOnReservations s.trace (· ≠ invalidExclusiveAddress)

/-- The system starts in the invariant: the lock is free and no processor holds a reservation. -/
theorem inv_start : (start n).Inv :=
  ⟨rfl, fun _ => rfl, fun pre _ _ _ _ _ h => by simp [start] at h⟩

/-- A step from a state of the invariant records its event and keeps the invariant. -/
theorem step_inv {s : MonitorSystem n} (hs : s.Inv) (e : MonitorEvent n) :
    (∃ ran, (s.step e).trace = s.trace ++ [(e, ran)]) ∧ (s.step e).Inv := by
  obtain ⟨m', ran, hstep, hl, hr, hran⟩ := ExclusiveMonitor.step_of_unlocked hs.unlocked hs.refines e
  have hse : s.step e = ⟨m', s.trace ++ [(e, ran)]⟩ := by rw [MonitorSystem.step, hstep]
  rw [hse]
  refine ⟨⟨ran, rfl⟩, hl, by rwa [Reservations.ofTrace_append_singleton], ?_⟩
  intro pre p a w op post htr ha
  rcases split_append_singleton htr with ⟨rfl, hy, rfl⟩ | ⟨post', rfl, htr'⟩
  · -- the exclusive operation is the new event: it ran, so the table named the address
    obtain ⟨rfl, hx⟩ := Prod.mk.inj hy
    have hran' := hran p a w op rfl
    rw [← hx] at hran'
    have htab : s.monitor.exclusiveAddresses p = a := by simpa using hran'.symm
    exact (Reservations.ofTrace_eq_some_iff _ _ _).mp ((hs.refines.eq_iff p ha).mp htab)
  · exact hs.rests pre p a w op post' htr' ha

/-- Every run from the start: each event is taken, in order (no processor spins on the lock for ever), the lock is free
after it, and every exclusive operation that ran on an address other than `INVALID_EXCLUSIVE_ADDRESS` rests on a
reservation of it by its processor. -/
theorem run_rests_on_reservations (es : List (MonitorEvent n)) :
    let s := Run.run step (start n) es
    s.trace.map Prod.fst = es ∧ s.monitor.locked = false ∧
      RestsOnReservations s.trace (· ≠ invalidExclusiveAddress) := by
  -- the invariant, with the events so far, along the run
  have key : ∀ (pre : List (MonitorEvent n)) (s : MonitorSystem n), s.Inv → s.trace.map Prod.fst = pre →
      (Run.run step s es).Inv ∧ (Run.run step s es).trace.map Prod.fst = pre ++ es := by
    induction es with
    | nil => intro pre s hs htr; exact ⟨hs, by simpa using htr⟩
    | cons e es ih =>
      intro pre s hs htr
      obtain ⟨⟨ran, htr'⟩, hinv⟩ := step_inv hs e
      have h := ih (pre ++ [e]) (s.step e) hinv (by simp [htr', htr])
      simpa using h
  obtain ⟨hinv, htr⟩ := key [] (start n) inv_start rfl
  exact ⟨htr, hinv.unlocked, hinv.rests⟩

/-- No two exclusive operations on one address rest on one `ReadAndMark`: after one that ran, a later one that runs on
the same address (other than the invalid mark) rests on a `ReadAndMark` made after it. -/
theorem run_no_shared_reservation (es : List (MonitorEvent n)) {pre mid post : List (MonitorEvent n × Bool)}
    {p q : Fin n} {a : VAddr} {w w' : Nat} {op : BitVec w → Bool} {op' : BitVec w' → Bool}
    (ha : a ≠ invalidExclusiveAddress)
    (h : (Run.run step (start n) es).trace =
      pre ++ (.doExclusiveOperation p a w op, true) :: (mid ++ (.doExclusiveOperation q a w' op', true) :: post)) :
    ∃ mid₁ u v ran mid₂, mid = mid₁ ++ (.readAndMark q a u v, ran) :: mid₂ := by
  have hrest := (run_rests_on_reservations es).2.2 (pre ++ (.doExclusiveOperation p a w op, true) :: mid) q a w' op'
    post (by rw [h]; simp) ha
  obtain ⟨pre', u, v, ran, post', hsplit, hpost⟩ := hrest
  rcases List.append_eq_append_iff.mp hsplit with ⟨c, rfl, hc⟩ | ⟨c, rfl, hc⟩
  · -- the mark is after the first operation
    rcases c with _ | ⟨z, c⟩
    · simp at hc
    · simp only [List.cons_append, List.cons.injEq] at hc
      obtain ⟨-, rfl⟩ := hc
      exact ⟨c, u, v, ran, post', rfl⟩
  · -- a mark before the first operation would be ended by it
    rcases c with _ | ⟨z, c⟩
    · simp at hc
    · simp only [List.cons_append, List.cons.injEq] at hc
      obtain ⟨-, rfl⟩ := hc
      exact absurd (by simp [MonitorEvent.Ends]) (hpost (.doExclusiveOperation p a w op, true) (by simp))

end MonitorSystem

/-- At `INVALID_EXCLUSIVE_ADDRESS` an exclusive store runs and succeeds with no reservation: on a new monitor, processor
0 stores there without any `ReadAndMark`, and the run breaks the property the monitor is for. -/
theorem exclusiveMonitor_stores_without_reservation :
    ((ExclusiveMonitor.new 1).doExclusiveOperation 0 invalidExclusiveAddress (fun _ : BitVec 64 => true)).map
        (·.2) = some (true, true) ∧
      ¬ RestsOnReservations
        (Run.run MonitorSystem.step (MonitorSystem.start 1)
          [.doExclusiveOperation 0 invalidExclusiveAddress 64 fun _ => true]).trace fun _ => True := by
  refine ⟨by decide, ?_⟩
  intro hrest
  obtain ⟨pre, w, v, ran, post, hsplit, -⟩ := hrest [] 0 invalidExclusiveAddress 64 (fun _ => true) [] rfl trivial
  simp at hsplit

end Dynarmic
