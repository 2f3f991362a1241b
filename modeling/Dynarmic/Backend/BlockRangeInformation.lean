import Dynarmic.Lib.IntervalMap
import Dynarmic.Lib.Run
import Dynarmic.Frontend.A32.LocationDescriptor

/-!
# Block ranges and cache invalidation

`BlockRangeInformation` (backend/block_range_information.cpp) maps guest address ranges to the location descriptors of
the blocks translated from them. `A32EmitX64::Emit` and `A64EmitX64::Emit` register every block they emit with the range
`closed(descriptor.PC(), end_location.PC() - 1)`, and `ClearCache` empties the map. `Jit::InvalidateCacheRange(start,
length)` queues `closed(start, start + length - 1)`; the queued set goes to `InvalidateRanges`, and the emitter erases the
descriptors it returns.

The interval map is a parameter `S`, any container that meets the laws of boost's `interval_map` that the code relies
on (`Icl.IntervalMapSpec`): `add` unions the value sets of overlapping segments, and `equal_range` returns exactly the
segments that overlap its query. The emitter's registrations and `ClearCache` are the events of a machine whose state is
the map, and `mem_invalidateRanges_run` says what `InvalidateRanges` returns after any
run of them. A block's guest bytes are `pc, pc + 1, ..., end - 1` modulo `2 ^ w`. When they stay below the top of the
address space, the registered range is exactly these bytes, and invalidation finds the block
(`invalidateCacheRange_complete`). A block that crosses the top registers an empty range (`blockRange_empty_of_wrap`).
-/

namespace Dynarmic.Backend

open Icl

variable {w : Nat}

/-- `BlockRangeInformation<ProgramCounterType>`, its interval map a container `M`. -/
structure BlockRangeInformation (M : Type*) where
  blockRanges : M

variable {M : Type*} (S : IntervalMapSpec (BitVec w) IR.LocationDescriptor M)

namespace BlockRangeInformation

/-- A default-constructed `BlockRangeInformation`: no ranges. -/
def new : BlockRangeInformation M := ⟨S.empty⟩

/-- `AddRange`. -/
def addRange (self : BlockRangeInformation M) (range : DiscreteInterval (BitVec w)) (location : IR.LocationDescriptor) :
    BlockRangeInformation M :=
  ⟨S.add self.blockRanges range location⟩

/-- `ClearCache`. -/
def clearCache (_self : BlockRangeInformation M) : BlockRangeInformation M := ⟨S.empty⟩

/-- `InvalidateRanges`: for each interval of the set, every descriptor of every segment `equal_range` returns. The ranges
stay in the map. -/
def invalidateRanges (self : BlockRangeInformation M) (ranges : IntervalSet (BitVec w)) : List IR.LocationDescriptor :=
  ranges.intervals.flatMap fun invalidateInterval => (S.equalRange self.blockRanges invalidateInterval).flatMap Prod.snd

/-- `InvalidateRanges` returns the descriptors the map holds at some point of the set. -/
theorem mem_invalidateRanges {self : BlockRangeInformation M} {ranges : IntervalSet (BitVec w)}
    {location : IR.LocationDescriptor} :
    location ∈ self.invalidateRanges S ranges ↔ ∃ x, ranges.Contains x ∧ S.At self.blockRanges x location := by
  simp only [invalidateRanges, List.mem_flatMap, IntervalSet.Contains]
  constructor
  · rintro ⟨q, hq, hseg⟩
    obtain ⟨x, hx, hat⟩ := S.mem_equalRange_values.mp hseg
    exact ⟨x, ⟨q, hq, hx⟩, hat⟩
  · rintro ⟨x, ⟨q, hq, hx⟩, hat⟩
    exact ⟨q, hq, S.mem_equalRange_values.mpr ⟨x, hx, hat⟩⟩

end BlockRangeInformation

/-! ### The emitter and the Jit -/

/-- The range `A32EmitX64::Emit` and `A64EmitX64::Emit` register for a block: `closed(descriptor.PC(),
end_location.PC() - 1)`. -/
def blockRange (pc endPc : BitVec w) : DiscreteInterval (BitVec w) :=
  ⟨pc, endPc - 1⟩

/-- The interval `Jit::Impl::InvalidateCacheRange` queues: `closed(start_address, start_address + length - 1)`, computed
in the program counter's width. -/
def invalidationRange (startAddress : BitVec w) (length : Nat) : DiscreteInterval (BitVec w) :=
  ⟨startAddress, startAddress + BitVec.ofNat w length - 1⟩

/-- `Jit::Impl::InvalidateCacheRange`: the interval joins the queued set `invalid_cache_ranges`. -/
def invalidateCacheRange (invalidCacheRanges : IntervalSet (BitVec w)) (startAddress : BitVec w) (length : Nat) :
    IntervalSet (BitVec w) :=
  invalidCacheRanges.add (invalidationRange startAddress length)

/-- What changes the emitter's block ranges. -/
inductive RangeEvent (w : Nat)
  /-- A block translated from `pc` up to `endPc` is emitted under the descriptor `location`. -/
  | emit (pc endPc : BitVec w) (location : IR.LocationDescriptor)
  /-- `ClearCache`. -/
  | clearCache

/-- One event of the emitter on its block ranges. -/
def rangeStep (self : BlockRangeInformation M) : RangeEvent w → BlockRangeInformation M
  | .emit pc endPc location => self.addRange S (blockRange pc endPc) location
  | .clearCache => self.clearCache S

/-! ### What a block and a request cover -/

/-- The guest bytes of a block translated from `pc` up to `endPc`: `pc, ..., endPc - 1` modulo `2 ^ w`. -/
def InstructionBytes (pc endPc x : BitVec w) : Prop :=
  (x - pc).toNat < (endPc - pc).toNat

instance (pc endPc x : BitVec w) : Decidable (InstructionBytes pc endPc x) :=
  inferInstanceAs (Decidable (_ < _))

/-- The bytes `InvalidateCacheRange(start, length)` asks for: `start, ..., start + length - 1` modulo `2 ^ w`. -/
def RequestedBytes (start : BitVec w) (length : Nat) (x : BitVec w) : Prop :=
  (x - start).toNat < length

instance (start : BitVec w) (length : Nat) (x : BitVec w) : Decidable (RequestedBytes start length x) :=
  inferInstanceAs (Decidable (_ < _))

/-- A block is registered in a run when it is emitted after the run's last `ClearCache`. -/
def Registered (evs : List (RangeEvent w)) (pc endPc : BitVec w) (location : IR.LocationDescriptor) : Prop :=
  ∃ pre post, evs = pre ++ .emit pc endPc location :: post ∧ .clearCache ∉ post

/-- A block is registered in a run from its first event on when it is that event and no `ClearCache` follows, or it is
registered in the rest. -/
theorem registered_cons {e : RangeEvent w} {evs : List (RangeEvent w)} {pc endPc : BitVec w}
    {location : IR.LocationDescriptor} :
    Registered (e :: evs) pc endPc location ↔
      (e = .emit pc endPc location ∧ .clearCache ∉ evs) ∨ Registered evs pc endPc location := by
  constructor
  · rintro ⟨pre, post, h, hc⟩
    cases pre with
    | nil =>
      obtain ⟨rfl, rfl⟩ := List.cons.inj h
      exact Or.inl ⟨rfl, hc⟩
    | cons e' pre =>
      obtain ⟨-, rfl⟩ := List.cons.inj h
      exact Or.inr ⟨pre, post, rfl, hc⟩
  · rintro (⟨rfl, hc⟩ | ⟨pre, post, rfl, hc⟩)
    · exact ⟨[], evs, rfl, hc⟩
    · exact ⟨e :: pre, post, rfl, hc⟩

/-- The map after a run: the ranges of the blocks registered in it, and those of the start as long as no `ClearCache`
came. The induction is on the run, one event at a time. -/
theorem at_run (s : BlockRangeInformation M) (evs : List (RangeEvent w)) {x : BitVec w}
    {location : IR.LocationDescriptor} :
    S.At (Run.run (rangeStep S) s evs).blockRanges x location ↔
      (∃ pc endPc, Registered evs pc endPc location ∧ (blockRange pc endPc).Contains x) ∨
        (.clearCache ∉ evs ∧ S.At s.blockRanges x location) := by
  induction evs generalizing s with
  | nil =>
    simp [Registered]
  | cons e evs ih =>
    rw [Run.run_cons, ih]
    cases e with
    | clearCache =>
      simp only [rangeStep, BlockRangeInformation.clearCache, S.not_at_empty, and_false, or_false,
        List.mem_cons, true_or, not_true_eq_false, false_and, registered_cons, reduceCtorEq, false_and, false_or]
    | emit pc' endPc' location' =>
      simp only [rangeStep, BlockRangeInformation.addRange, S.at_add, registered_cons, List.mem_cons,
        reduceCtorEq, false_or, RangeEvent.emit.injEq]
      constructor
      · rintro (⟨pc, endPc, hreg, hx⟩ | ⟨hc, ⟨hx, rfl⟩ | hat⟩)
        · exact Or.inl ⟨pc, endPc, Or.inr hreg, hx⟩
        · exact Or.inl ⟨pc', endPc', Or.inl ⟨⟨rfl, rfl, rfl⟩, hc⟩, hx⟩
        · exact Or.inr ⟨hc, hat⟩
      · rintro (⟨pc, endPc, ⟨⟨rfl, rfl, rfl⟩, hc⟩ | hreg, hx⟩ | ⟨hc, hat⟩)
        · exact Or.inr ⟨hc, Or.inl ⟨hx, rfl⟩⟩
        · exact Or.inl ⟨pc, endPc, hreg, hx⟩
        · exact Or.inr ⟨hc, Or.inr hat⟩

/-- What `InvalidateRanges` returns after any run of the emitter: the descriptor of every block registered in the run
whose range meets the set. -/
theorem mem_invalidateRanges_run (evs : List (RangeEvent w)) (ranges : IntervalSet (BitVec w))
    (location : IR.LocationDescriptor) :
    location ∈ (Run.run (rangeStep S) (.new S) evs).invalidateRanges S ranges ↔
      ∃ pc endPc, Registered evs pc endPc location ∧ ∃ x, ranges.Contains x ∧ (blockRange pc endPc).Contains x := by
  simp only [BlockRangeInformation.mem_invalidateRanges, at_run, BlockRangeInformation.new,
    S.not_at_empty, and_false, or_false]
  constructor
  · rintro ⟨x, hx, pc, endPc, hreg, hb⟩
    exact ⟨pc, endPc, hreg, x, hx, hb⟩
  · rintro ⟨pc, endPc, hreg, x, hx, hb⟩
    exact ⟨x, hx, pc, endPc, hreg, hb⟩

/-- With the list of added segments as the map: a block at `0x1000` of two instructions is returned for a request of the
four bytes from `0x1004`. -/
example :
    (Run.run (rangeStep IntervalMap.spec) (.new IntervalMap.spec)
      [.emit (0x1000 : BitVec 32) 0x1008 ⟨5⟩]).invalidateRanges IntervalMap.spec (invalidateCacheRange .empty 0x1004 4) =
      [⟨5⟩] := by
  decide

/-! ### Ranges that stay below the top of the address space -/

/-- The `n` words from `a` on lie at or above `a` and below `a + n`, when they stay below `2 ^ w`. -/
theorem toNat_sub_lt_iff {a x : BitVec w} {n : Nat} (hw : a.toNat + n ≤ 2 ^ w) :
    (x - a).toNat < n ↔ a ≤ x ∧ x.toNat < a.toNat + n := by
  by_cases hax : a ≤ x
  · have hle := BitVec.le_def.mp hax
    rw [BitVec.toNat_sub_of_le hax]
    exact ⟨fun h => ⟨hax, by omega⟩, fun h => by omega⟩
  · have hlt : x < a := BitVec.not_le.mp hax
    have hxa := BitVec.lt_def.mp hlt
    rw [BitVec.toNat_sub_of_lt hlt]
    exact ⟨fun h => by omega, fun h => absurd h.1 hax⟩

/-- The last word of the `n` words from `a` on, computed as `a + n - 1` in `w` bits, when they stay below `2 ^ w`. -/
theorem toNat_add_sub_one {a : BitVec w} {n : Nat} (hn : 0 < n) (hw : a.toNat + n ≤ 2 ^ w) :
    (a + BitVec.ofNat w n - 1).toNat = a.toNat + n - 1 := by
  have hsplit : BitVec.ofNat w n = BitVec.ofNat w (n - 1) + 1 := by
    show _ = _ + BitVec.ofNat w 1
    rw [BitVec.ofNat_add_ofNat, Nat.sub_add_cancel hn]
  have hlast : (BitVec.ofNat w (n - 1)).toNat = n - 1 := by
    rw [BitVec.toNat_ofNat, Nat.mod_eq_of_lt (by omega)]
  rw [hsplit, ← BitVec.add_assoc, BitVec.add_sub_cancel, BitVec.toNat_add_of_lt (by omega), hlast]
  omega

/-- The closed interval from `a` to `a + n - 1` holds exactly the `n` words from `a` on, when they stay below `2 ^ w`. -/
theorem contains_span_iff {a x : BitVec w} {n : Nat} (hn : 0 < n) (hw : a.toNat + n ≤ 2 ^ w) :
    (DiscreteInterval.mk a (a + BitVec.ofNat w n - 1)).Contains x ↔ (x - a).toNat < n := by
  rw [toNat_sub_lt_iff hw, DiscreteInterval.Contains, BitVec.le_def (x := x), toNat_add_sub_one hn hw]
  constructor
  · rintro ⟨hlo, hhi⟩
    exact ⟨hlo, by omega⟩
  · rintro ⟨hlo, hhi⟩
    exact ⟨hlo, by omega⟩

/-- A request that stays below the top of the address space queues exactly the bytes it asks for. -/
theorem contains_invalidationRange_iff {start x : BitVec w} {length : Nat} (hn : 0 < length)
    (hw : start.toNat + length ≤ 2 ^ w) :
    (invalidationRange start length).Contains x ↔ RequestedBytes start length x :=
  contains_span_iff hn hw

/-- A block's end is its start moved by its size. -/
theorem blockRange_eq_span (pc endPc : BitVec w) :
    blockRange pc endPc = ⟨pc, pc + BitVec.ofNat w (endPc - pc).toNat - 1⟩ := by
  rw [BitVec.ofNat_toNat, BitVec.setWidth_eq, BitVec.add_comm pc, BitVec.sub_add_cancel]
  rfl

/-- A block that stays below the top of the address space registers exactly its bytes. -/
theorem contains_blockRange_iff {pc endPc x : BitVec w} (hne : endPc ≠ pc)
    (hw : pc.toNat + (endPc - pc).toNat ≤ 2 ^ w) :
    (blockRange pc endPc).Contains x ↔ InstructionBytes pc endPc x := by
  have hn : 0 < (endPc - pc).toNat := by
    refine Nat.pos_of_ne_zero fun h => hne ?_
    have h0 : endPc - pc = 0 := BitVec.eq_of_toNat_eq (by simpa using h)
    have hcancel := BitVec.sub_add_cancel endPc pc
    rw [h0] at hcancel
    simpa using hcancel.symm
  rw [blockRange_eq_span]
  exact contains_span_iff hn hw

/-- One below a nonzero word. -/
theorem toNat_sub_one {y : BitVec w} (h : 0 < y.toNat) : (y - 1).toNat = y.toNat - 1 := by
  have hone : (1 : BitVec w).toNat = 1 := by
    have := y.isLt
    rw [show (1 : BitVec w) = BitVec.ofNat w 1 from rfl, BitVec.toNat_ofNat, Nat.mod_eq_of_lt (by omega)]
  rw [BitVec.toNat_sub_of_le (BitVec.le_def.mpr (by omega)), hone]

/-- A block whose bytes run past the top of the address space registers an empty range: `end_location.PC() - 1` is
below `descriptor.PC()`. -/
theorem blockRange_empty_of_wrap {pc endPc x : BitVec w} (hwrap : 2 ^ w < pc.toNat + (endPc - pc).toNat) :
    ¬ (blockRange pc endPc).Contains x := by
  intro hx
  obtain ⟨hlo, hhi⟩ : pc ≤ x ∧ x ≤ endPc - 1 := hx
  rw [BitVec.le_def] at hlo hhi
  have hend := endPc.isLt
  by_cases hpc : pc ≤ endPc
  · -- no wrap in the subtraction: the bytes end at `endPc`, below the top
    have hle := BitVec.le_def.mp hpc
    rw [BitVec.toNat_sub_of_le hpc] at hwrap
    omega
  · -- the end lies below the start, and `endPc - 1` with it
    have hlt : endPc < pc := BitVec.not_le.mp hpc
    have hlt' := BitVec.lt_def.mp hlt
    rw [BitVec.toNat_sub_of_lt hlt] at hwrap
    rw [toNat_sub_one (by omega)] at hhi
    omega

/-- Invalidation is complete for blocks and requests that stay below the top of the address space: after any run of the
emitter, whatever else is queued, a registered block with a byte in the requested range is among the descriptors
`InvalidateRanges` returns. -/
theorem invalidateCacheRange_complete {evs : List (RangeEvent w)} {pc endPc : BitVec w}
    {location : IR.LocationDescriptor} (hreg : Registered evs pc endPc location)
    (hblock : pc.toNat + (endPc - pc).toNat ≤ 2 ^ w) (queued : IntervalSet (BitVec w)) {start : BitVec w}
    {length : Nat} (hrequest : start.toNat + length ≤ 2 ^ w) {x : BitVec w} (hx : InstructionBytes pc endPc x)
    (hs : RequestedBytes start length x) :
    location ∈ (Run.run (rangeStep S) (.new S) evs).invalidateRanges S (invalidateCacheRange queued start length) := by
  have hne : endPc ≠ pc := by
    rintro rfl
    simp [InstructionBytes] at hx
  have hq : (invalidateCacheRange queued start length).Contains x :=
    IntervalSet.contains_add.mpr (Or.inl ((contains_invalidationRange_iff (by unfold RequestedBytes at hs; omega)
      hrequest).mpr hs))
  exact (mem_invalidateRanges_run S evs _ location).mpr
    ⟨pc, endPc, hreg, x, hq, (contains_blockRange_iff hne hblock).mpr hx⟩

/-- The set `Jit::Impl` has queued in `invalid_cache_ranges` after a list of `InvalidateCacheRange` calls, from `ranges`. -/
def queueRequests (ranges : IntervalSet (BitVec w)) (requests : List (BitVec w × Nat)) : IntervalSet (BitVec w) :=
  requests.foldl (fun ranges r => invalidateCacheRange ranges r.1 r.2) ranges

/-- The queued set holds a point when the set it started from does or one of the requests' intervals does. The
induction is on the requests, with the set queued so far generalised. -/
theorem contains_queueRequests {ranges : IntervalSet (BitVec w)} {requests : List (BitVec w × Nat)} {x : BitVec w} :
    (queueRequests ranges requests).Contains x ↔
      ranges.Contains x ∨ ∃ r ∈ requests, (invalidationRange r.1 r.2).Contains x := by
  induction requests generalizing ranges with
  | nil => simp [queueRequests]
  | cons r requests ih =>
    rw [queueRequests, List.foldl_cons, ← queueRequests, ih, invalidateCacheRange, IntervalSet.contains_add]
    constructor
    · rintro ((h | h) | ⟨r', hr', h⟩)
      · exact Or.inr ⟨r, List.mem_cons_self, h⟩
      · exact Or.inl h
      · exact Or.inr ⟨r', List.mem_cons_of_mem r hr', h⟩
    · rintro (h | ⟨r', hr', h⟩)
      · exact Or.inl (Or.inr h)
      · rcases List.mem_cons.mp hr' with rfl | hr'
        · exact Or.inl (Or.inl h)
        · exact Or.inr ⟨r', hr', h⟩

/-- On blocks and requests that stay below the top of the address space, `InvalidateRanges` after any run of the
emitter returns exactly the descriptors of the registered blocks that share a byte with a request. -/
theorem invalidateRanges_exact {evs : List (RangeEvent w)} {requests : List (BitVec w × Nat)}
    (hblocks : ∀ pc endPc location, Registered evs pc endPc location →
      endPc ≠ pc ∧ pc.toNat + (endPc - pc).toNat ≤ 2 ^ w)
    (hrequests : ∀ r ∈ requests, 0 < r.2 ∧ r.1.toNat + r.2 ≤ 2 ^ w) (location : IR.LocationDescriptor) :
    location ∈ (Run.run (rangeStep S) (.new S) evs).invalidateRanges S (queueRequests .empty requests) ↔
      ∃ pc endPc, Registered evs pc endPc location ∧
        ∃ r ∈ requests, ∃ x, InstructionBytes pc endPc x ∧ RequestedBytes r.1 r.2 x := by
  have hempty : ∀ x, ¬ (IntervalSet.empty : IntervalSet (BitVec w)).Contains x := by
    simp [IntervalSet.empty, IntervalSet.Contains]
  rw [mem_invalidateRanges_run S]
  constructor
  · rintro ⟨pc, endPc, hreg, x, hq, hb⟩
    obtain ⟨hne, hw⟩ := hblocks pc endPc location hreg
    rcases contains_queueRequests.mp hq with h | ⟨r, hr, hx⟩
    · exact absurd h (hempty x)
    · obtain ⟨hn, hrw⟩ := hrequests r hr
      exact ⟨pc, endPc, hreg, r, hr, x, (contains_blockRange_iff hne hw).mp hb,
        (contains_invalidationRange_iff hn hrw).mp hx⟩
  · rintro ⟨pc, endPc, hreg, r, hr, x, hb, hx⟩
    obtain ⟨hne, hw⟩ := hblocks pc endPc location hreg
    obtain ⟨hn, hrw⟩ := hrequests r hr
    exact ⟨pc, endPc, hreg, x, contains_queueRequests.mpr (Or.inr ⟨r, hr, (contains_invalidationRange_iff hn hrw).mpr hx⟩),
      (contains_blockRange_iff hne hw).mpr hb⟩

/-- The descriptor of an ARM-mode block at `0xFFFFFFF8`. Three instructions take it to `0x00000004`. -/
def wrappingLocation : IR.LocationDescriptor :=
  (A32.LocationDescriptor.make 0xFFFFFFF8 .empty (.ofValue 0) false).toIR

/-- The ARM block at `0xFFFFFFF8` of three instructions covers byte `0`, and `InvalidateCacheRange(0, 4)` asks for byte
`0`, yet `InvalidateRanges` does not return the block, whatever container meets boost's laws: its registered range
`closed(0xFFFFFFF8, 3)` is empty. -/
theorem blockRangeInformation_misses_wrapping_block {M' : Type*}
    (S' : IntervalMapSpec (BitVec 32) IR.LocationDescriptor M') :
    InstructionBytes (0xFFFFFFF8 : BitVec 32) (0xFFFFFFF8 + 12) 0 ∧ RequestedBytes (0 : BitVec 32) 4 0 ∧
      wrappingLocation ∉ (Run.run (rangeStep S') (.new S')
        [.emit 0xFFFFFFF8 (0xFFFFFFF8 + 12) wrappingLocation]).invalidateRanges S' (invalidateCacheRange .empty 0 4) := by
  refine ⟨by decide, by decide, ?_⟩
  intro hmem
  obtain ⟨pc, endPc, hreg, x, -, hx⟩ := (mem_invalidateRanges_run S' _ _ _).mp hmem
  rcases registered_cons.mp hreg with ⟨he, -⟩ | ⟨pre, post, h, -⟩
  · -- the one registered block is the wrapping one
    obtain ⟨rfl, rfl, -⟩ := RangeEvent.emit.inj he
    exact blockRange_empty_of_wrap (by decide) hx
  · simp at h

end Dynarmic.Backend
