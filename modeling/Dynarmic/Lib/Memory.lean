import Mathlib.Logic.Function.Basic
import Mathlib.Data.List.Basic

/-!
# A memory written at a list of places

A memory is a function from places to contents. A loop that walks a list and writes, for each element, a value at a
place computed from it is `writeEach`. What such a loop leaves is read off place by place: a place that no element
names keeps its contents, and a place that some elements name holds their value, provided they all write the same one.
Loops nested in loops, or walking a list made by `map`, are one `writeEach` over the flattened list.
-/

namespace Memory

variable {ι κ α β : Type*}

/-- Write `val x` at `addr x` for every `x` of the list, in order. -/
def writeEach [DecidableEq α] (mem : α → β) (xs : List ι) (addr : ι → α) (val : ι → β) : α → β :=
  xs.foldl (fun m x => Function.update m (addr x) (val x)) mem

variable [DecidableEq α] (addr : ι → α) (val : ι → β)

@[simp] theorem writeEach_nil (mem : α → β) : writeEach mem [] addr val = mem := rfl

@[simp] theorem writeEach_cons (mem : α → β) (x : ι) (xs : List ι) :
    writeEach mem (x :: xs) addr val = writeEach (Function.update mem (addr x) (val x)) xs addr val := rfl

/-- Writing two lists is writing one after the other. -/
theorem writeEach_append (mem : α → β) (xs ys : List ι) :
    writeEach mem (xs ++ ys) addr val = writeEach (writeEach mem xs addr val) ys addr val :=
  List.foldl_append

/-- Writing a mapped list is writing the list with the address and value composed. -/
theorem writeEach_map (mem : α → β) (g : κ → ι) (xs : List κ) :
    writeEach mem (xs.map g) addr val = writeEach mem xs (addr ∘ g) (val ∘ g) :=
  List.foldl_map

/-- A loop over a list whose body is itself a `writeEach` loop is one `writeEach` over the flattened list. -/
theorem foldl_writeEach (mem : α → β) (f : κ → List ι) (ks : List κ) :
    ks.foldl (fun m k => writeEach m (f k) addr val) mem = writeEach mem (ks.flatMap f) addr val := by
  induction ks generalizing mem with
  | nil => rfl
  | cons k ks ih => rw [List.foldl_cons, ih, List.flatMap_cons, writeEach_append]

/-- A place that no element names keeps its contents. -/
theorem writeEach_of_forall_ne {mem : α → β} {xs : List ι} {a : α} (h : ∀ x ∈ xs, addr x ≠ a) :
    writeEach mem xs addr val a = mem a := by
  induction xs generalizing mem with
  | nil => rfl
  | cons y ys ih =>
    rw [writeEach_cons, ih (fun x hx => h x (List.mem_cons_of_mem y hx))]
    exact Function.update_of_ne (Ne.symm (h y List.mem_cons_self)) _ _

/-- A place that an element names holds its value, when every element that names the place writes the same value. -/
theorem writeEach_of_mem {mem : α → β} {xs : List ι} {x : ι} {a : α} (hx : x ∈ xs) (ha : addr x = a)
    (hval : ∀ y ∈ xs, addr y = a → val y = val x) : writeEach mem xs addr val a = val x := by
  induction xs generalizing mem x with
  | nil => exact absurd hx List.not_mem_nil
  | cons y ys ih =>
    rw [writeEach_cons]
    by_cases hlater : ∃ z ∈ ys, addr z = a
    · -- a later element writes the place last, and it writes the same value
      obtain ⟨z, hz, hza⟩ := hlater
      have hvz : val z = val x := hval z (List.mem_cons_of_mem y hz) hza
      rw [← hvz]
      exact ih hz hza (fun w hw hwa => (hval w (List.mem_cons_of_mem y hw) hwa).trans hvz.symm)
    · -- no later element names the place, so the first one is `x` and its write stays
      simp only [not_exists, not_and] at hlater
      rw [writeEach_of_forall_ne addr val hlater]
      have hxy : x = y := by
        rcases List.mem_cons.1 hx with rfl | hxs
        · rfl
        · exact absurd ha (hlater x hxs)
      subst hxy
      rw [← ha, Function.update_self]

end Memory
