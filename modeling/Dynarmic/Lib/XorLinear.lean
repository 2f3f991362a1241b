import Mathlib.Data.BitVec

/-!
# Maps additive over XOR

A map out of `BitVec w` that sends `^^^` to an operation of its codomain is fixed by its value at `0` and at the `w`
single-bit vectors `twoPow w i`, because every vector is the XOR of its bits. Over GF(2) this is the statement that a
linear map is fixed by a basis; it turns a check over all `2 ^ w` inputs of such a map into a check over `w` of them.

Two rules build such maps: an XOR selected by one bit of the input is additive in that bit (`ite_xor`), and a fold of
additive steps is additive (`foldl_xor`).
-/

namespace XorLinear

variable {w : Nat} {β : Type*}

/-- `f` sends XOR to `op`. -/
def Additive (op : β → β → β) (f : BitVec w → β) : Prop :=
  ∀ x y, f (x ^^^ y) = op (f x) (f y)

/-- A fold whose every step is additive is additive in its start. -/
theorem foldl_xor {γ : Type*} {step : BitVec w → γ → BitVec w}
    (hstep : ∀ a x y, step (x ^^^ y) a = step x a ^^^ step y a) (l : List γ) (x y : BitVec w) :
    l.foldl step (x ^^^ y) = l.foldl step x ^^^ l.foldl step y := by
  induction l generalizing x y with
  | nil => rfl
  | cons a l ih => simp only [List.foldl_cons, hstep, ih]

/-- A vector selected by one bit: the selections by `a`, by `b` and by `a ^^ b` add up. -/
theorem ite_xor (a b : Bool) (p : BitVec w) :
    (if (a ^^ b) = true then p else 0) = (if a = true then p else 0) ^^^ (if b = true then p else 0) := by
  cases a <;> cases b <;> simp

/-- Two maps that send XOR to the same operation and agree at `0` and on the single bits agree everywhere. -/
theorem eq_of_additive {op : β → β → β} {f g : BitVec w → β} (hf : Additive op f) (hg : Additive op g)
    (h0 : f 0 = g 0) (hb : ∀ i < w, f (BitVec.twoPow w i) = g (BitVec.twoPow w i)) (x : BitVec w) :
    f x = g x := by
  -- induction on a bound `m` on the bits of `x` that may be set; the step clears bit `m`
  suffices h : ∀ m (x : BitVec w), (∀ i, m ≤ i → x.getLsbD i = false) → f x = g x from
    h w x fun i hi => BitVec.getLsbD_of_ge x i hi
  intro m
  induction m with
  | zero =>
    intro x hx
    have hx0 : x = 0 := BitVec.eq_of_getLsbD_eq fun i _ => by simp [hx i (Nat.zero_le i)]
    rw [hx0, h0]
  | succ m ih =>
    intro x hx
    by_cases hxm : x.getLsbD m
    · have hmw : m < w := BitVec.lt_of_getLsbD hxm
      have hlow : ∀ i, m ≤ i → (x ^^^ BitVec.twoPow w m).getLsbD i = false := by
        intro i hi
        by_cases him : i = m
        · subst him; simp [hxm, hmw]
        · simp [hx i (by omega), Ne.symm him]
      have hsplit : x = (x ^^^ BitVec.twoPow w m) ^^^ BitVec.twoPow w m := by
        rw [BitVec.xor_assoc, BitVec.xor_self, BitVec.xor_zero]
      rw [hsplit, hf, hg, ih _ hlow, hb m hmw]
    · refine ih x fun i hi => ?_
      rcases Nat.eq_or_lt_of_le hi with rfl | hlt
      · simpa using hxm
      · exact hx i hlt

end XorLinear
