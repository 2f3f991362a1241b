import Mathlib.Data.List.Basic

/-!
# Interval containers by their meaning

Closed intervals of a linear order, sets of intervals, and maps from intervals to sets of values, as boost::icl's
`discrete_interval`, `interval_set` and `interval_map` behave under `add`. boost is not part of the source, and its
interval map is a parameter here: `IntervalMapSpec` is a container with the operations `BlockRangeInformation` calls and
two laws of boost's documented behaviour. `add` of a segment unions its value into the values of the segments it
overlaps, so that at every point of its interval the value joins those the map held (`IntervalMapSpec.at_add`); and
`equal_range` returns exactly the segments that overlap the query, so collecting their values over a query gives the
values the map holds somewhere on it (`IntervalMapSpec.mem_equalRange_values`). The list of the segments added, latest
first, is one container that meets the laws (`IntervalMap.spec`).

An interval set is kept as the list of the intervals added to it: it contains a point when one of them does. boost
joins the overlapping intervals of a set; `equal_range` on the joined intervals returns the segments that overlap one of
the intervals added, so iterating over the latter collects the same values.
-/

namespace Icl

/-- A closed interval `[lower, upper]`. It is empty when `upper < lower`. -/
structure DiscreteInterval (α : Type*) where
  lower : α
  upper : α
  deriving DecidableEq, Repr

/-- An interval set, as the list of the intervals added to it. -/
structure IntervalSet (α : Type*) where
  intervals : List (DiscreteInterval α)

variable {α β : Type*}

namespace DiscreteInterval

variable [LE α]

/-- A point lies in the interval. -/
def Contains (i : DiscreteInterval α) (x : α) : Prop :=
  i.lower ≤ x ∧ x ≤ i.upper

instance [DecidableLE α] (i : DiscreteInterval α) (x : α) : Decidable (i.Contains x) :=
  inferInstanceAs (Decidable (_ ∧ _))

/-- Two intervals meet: both are nonempty and each starts before the other ends. -/
def meets [DecidableLE α] (i j : DiscreteInterval α) : Bool :=
  decide (i.lower ≤ i.upper) && decide (j.lower ≤ j.upper) && decide (i.lower ≤ j.upper) && decide (j.lower ≤ i.upper)

variable [DecidableLE α] [Std.IsLinearOrder α]

/-- Two intervals meet exactly when they have a point in common; the later of the two lower ends is one. -/
theorem meets_iff {i j : DiscreteInterval α} : i.meets j = true ↔ ∃ x, i.Contains x ∧ j.Contains x := by
  simp only [meets, Bool.and_eq_true, decide_eq_true_eq]
  constructor
  · rintro ⟨⟨⟨hi, hj⟩, hij⟩, hji⟩
    rcases Std.le_total (a := i.lower) (b := j.lower) with h | h
    · exact ⟨j.lower, ⟨h, hji⟩, Std.le_refl _, hj⟩
    · exact ⟨i.lower, ⟨Std.le_refl _, hi⟩, h, hij⟩
  · rintro ⟨x, ⟨hix, hxi⟩, hjx, hxj⟩
    exact ⟨⟨⟨Std.le_trans hix hxi, Std.le_trans hjx hxj⟩, Std.le_trans hix hxj⟩, Std.le_trans hjx hxi⟩

end DiscreteInterval

namespace IntervalSet

variable [LE α]

/-- The empty set. -/
def empty : IntervalSet α := ⟨[]⟩

/-- `add`: the union with one more interval. -/
def add (s : IntervalSet α) (i : DiscreteInterval α) : IntervalSet α := ⟨i :: s.intervals⟩

/-- A point lies in the set when it lies in one of its intervals. -/
def Contains (s : IntervalSet α) (x : α) : Prop :=
  ∃ i ∈ s.intervals, i.Contains x

/-- `add` unions the interval into the set. -/
theorem contains_add {s : IntervalSet α} {i : DiscreteInterval α} {x : α} :
    (s.add i).Contains x ↔ i.Contains x ∨ s.Contains x := by
  simp [add, Contains]

end IntervalSet

/-- The part of `boost::icl::interval_map<α, std::set<β>>` that `BlockRangeInformation` calls, on a container `M`, with
the laws of boost it relies on. -/
structure IntervalMapSpec (α β M : Type*) [LE α] [DecidableLE α] where
  /-- The map a default construction or `clear` leaves. -/
  empty : M
  /-- `add(std::make_pair(interval, std::set<β>{value}))`. -/
  add : M → DiscreteInterval α → β → M
  /-- The segments of the map: an interval and the set of values the map holds on it. -/
  segments : M → List (DiscreteInterval α × List β)
  /-- `equal_range`: the segments from its first iterator to its second. -/
  equalRange : M → DiscreteInterval α → List (DiscreteInterval α × List β)
  /-- The empty map has no segments. -/
  segments_empty : segments empty = []
  /-- `add` unions the value into the value sets of the segments it overlaps: at a point of the interval the map holds
  the value and what it held, elsewhere what it held. -/
  add_union : ∀ m i b x c, (∃ s ∈ segments (add m i b), s.1.Contains x ∧ c ∈ s.2) ↔
    (i.Contains x ∧ c = b) ∨ ∃ s ∈ segments m, s.1.Contains x ∧ c ∈ s.2
  /-- `equal_range` returns exactly the segments that overlap the query. -/
  mem_equalRange : ∀ m q s, s ∈ equalRange m q ↔ s ∈ segments m ∧ s.1.meets q = true

namespace IntervalMapSpec

variable {M : Type*} [LE α] [DecidableLE α] (S : IntervalMapSpec α β M)

/-- `b` is among the map's values at the point `x`: a segment over `x` holds it. -/
def At (m : M) (x : α) (b : β) : Prop :=
  ∃ s ∈ S.segments m, s.1.Contains x ∧ b ∈ s.2

/-- The empty map has no value anywhere. -/
theorem not_at_empty {x : α} {b : β} : ¬ S.At S.empty x b := by
  simp [At, S.segments_empty]

/-- After `add`, a point has the new value if the interval contains it, and keeps its values. -/
theorem at_add {m : M} {i : DiscreteInterval α} {b c : β} {x : α} :
    S.At (S.add m i b) x c ↔ (i.Contains x ∧ c = b) ∨ S.At m x c :=
  S.add_union m i b x c

/-- The values of the segments `equal_range` returns are the values the map holds somewhere on the query. -/
theorem mem_equalRange_values [Std.IsLinearOrder α] {m : M} {q : DiscreteInterval α} {b : β} :
    (∃ s ∈ S.equalRange m q, b ∈ s.2) ↔ ∃ x, q.Contains x ∧ S.At m x b := by
  simp only [S.mem_equalRange, DiscreteInterval.meets_iff]
  constructor
  · rintro ⟨s, ⟨hmem, x, hs, hq⟩, hb⟩
    exact ⟨x, hq, s, hmem, hs, hb⟩
  · rintro ⟨x, hq, s, hmem, hs, hb⟩
    exact ⟨s, ⟨hmem, x, hs, hq⟩, hb⟩

end IntervalMapSpec

/-- An interval map as the list of the segments added to it, latest first, each with its one value. -/
structure IntervalMap (α β : Type*) where
  segments : List (DiscreteInterval α × β)

namespace IntervalMap

/-- A segment of the list over a point holds its value there. -/
theorem exists_segment_iff [LE α] {l : List (DiscreteInterval α × β)} {x : α} {c : β} :
    (∃ s ∈ l.map (fun s => (s.1, [s.2])), s.1.Contains x ∧ c ∈ s.2) ↔ ∃ i, (i, c) ∈ l ∧ i.Contains x := by
  simp only [List.mem_map]
  constructor
  · rintro ⟨_, ⟨⟨i, b⟩, hmem, rfl⟩, hx, hc⟩
    rw [List.mem_singleton.mp hc]
    exact ⟨i, hmem, hx⟩
  · rintro ⟨i, hmem, hx⟩
    exact ⟨(i, [c]), ⟨(i, c), hmem, rfl⟩, hx, List.mem_singleton_self c⟩

/-- The list of the segments added meets boost's laws: the map's values at a point are those of the segments over it,
and `equal_range` keeps the segments that meet the query. -/
def spec [LE α] [DecidableLE α] : IntervalMapSpec α β (IntervalMap α β) where
  empty := ⟨[]⟩
  add m i b := ⟨(i, b) :: m.segments⟩
  segments m := m.segments.map fun s => (s.1, [s.2])
  equalRange m q := (m.segments.filter fun s => s.1.meets q).map fun s => (s.1, [s.2])
  segments_empty := rfl
  add_union m i b x c := by
    simp only [exists_segment_iff, List.mem_cons, Prod.mk.injEq]
    constructor
    · rintro ⟨j, ⟨rfl, rfl⟩ | hj, hx⟩
      · exact Or.inl ⟨hx, rfl⟩
      · exact Or.inr ⟨j, hj, hx⟩
    · rintro (⟨hx, rfl⟩ | ⟨j, hj, hx⟩)
      · exact ⟨i, Or.inl ⟨rfl, rfl⟩, hx⟩
      · exact ⟨j, Or.inr hj, hx⟩
  mem_equalRange m q s := by
    simp only [List.mem_map, List.mem_filter]
    constructor
    · rintro ⟨t, ⟨hmem, hq⟩, rfl⟩
      exact ⟨⟨t, hmem, rfl⟩, hq⟩
    · rintro ⟨⟨t, hmem, rfl⟩, hq⟩
      exact ⟨t, ⟨hmem, hq⟩, rfl⟩

end IntervalMap

end Icl
