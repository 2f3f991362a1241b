import Mathlib.Data.List.Find
import Mathlib.Algebra.Group.Nat.Defs

/-!
# First-match search through a bucketed table

A table-driven decoder keeps its patterns in one priority order and, so as not to scan them all for every word, splits
them into buckets by a few bits of the word: bucket `k` holds, in the original order, each pattern that the bucket's key
admits. Searching a word's own bucket for the first pattern that matches agrees with a first-match search of the whole list
as soon as every pattern that matches the word is admitted by the word's key: the bucket removes only patterns that could
not have matched, and it keeps the rest in their order.

For masked patterns (`x &&& mask = expected`) the key is an index computed from a few bit fields of the word, and the bucket
test is the pattern test read through the index. That test admits every match as soon as the index distributes over `&&&`,
which holds for an index assembled from disjoint fields.
-/

namespace FirstMatch

variable {α κ : Type*}

/-- Bucket `k` of a list of patterns: those that `admits` lets into it, in their order in the list. -/
def bucket (admits : α → κ → Bool) (l : List α) (k : κ) : List α :=
  l.filter (admits · k)

@[simp] theorem mem_bucket {admits : α → κ → Bool} {l : List α} {k : κ} {a : α} :
    a ∈ bucket admits l k ↔ a ∈ l ∧ admits a k = true := by
  simp [bucket]

/-- The first match in a bucket is the first match in the whole list, when the bucket admits every pattern that matches. -/
theorem find?_bucket {admits : α → κ → Bool} {l : List α} {k : κ} {p : α → Bool}
    (hadm : ∀ a ∈ l, p a = true → admits a k = true) :
    (bucket admits l k).find? p = l.find? p := by
  rw [bucket, List.find?_filter]
  refine List.find?_congr fun a ha => ?_
  by_cases hp : p a = true
  · simp [hp, hadm a ha hp]
  · simp [hp]

/-- A masked test read through an index that distributes over `&&&`: a word that matches a pattern has an index that
matches the pattern's index. -/
theorem index_masked_match [AndOp α] [AndOp κ] {index : α → κ} (hindex : ∀ x y, index (x &&& y) = index x &&& index y)
    {x mask expected : α} (h : x &&& mask = expected) :
    index x &&& index mask = index expected := by
  rw [← hindex, h]

/-- An index assembled from two shifted fields under disjoint masks distributes over `&&&`. -/
theorem twoField_and {w : Nat} {lo hi : Nat} {c₁ c₂ : BitVec w} (hdisj : c₁ &&& c₂ = 0) (x y : BitVec w) :
    ((x &&& y) >>> lo &&& c₁) ||| ((x &&& y) >>> hi &&& c₂) =
      (((x >>> lo) &&& c₁) ||| ((x >>> hi) &&& c₂)) &&& (((y >>> lo) &&& c₁) ||| ((y >>> hi) &&& c₂)) := by
  apply BitVec.eq_of_getLsbD_eq
  intro i hi
  have hbit : (c₁.getLsbD i && c₂.getLsbD i) = false := by
    simpa using congrArg (·.getLsbD i) hdisj
  simp only [BitVec.getLsbD_or, BitVec.getLsbD_and, BitVec.getLsbD_ushiftRight]
  cases h₁ : c₁.getLsbD i <;> cases h₂ : c₂.getLsbD i <;> simp_all

/-- Such an index stays below `2 ^ k` when both masks do. -/
theorem toNat_twoField_lt {w : Nat} {lo hi : Nat} (k : Nat) {c₁ c₂ : BitVec w} (h₁ : c₁.toNat < 2 ^ k)
    (h₂ : c₂.toNat < 2 ^ k) (x : BitVec w) :
    ((((x >>> lo) &&& c₁) ||| ((x >>> hi) &&& c₂))).toNat < 2 ^ k := by
  rw [BitVec.toNat_or, BitVec.toNat_and, BitVec.toNat_and]
  exact Nat.or_lt_two_pow (Nat.lt_of_le_of_lt Nat.and_le_right h₁) (Nat.lt_of_le_of_lt Nat.and_le_right h₂)

end FirstMatch
