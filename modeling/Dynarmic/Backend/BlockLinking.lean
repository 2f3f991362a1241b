import Mathlib.Data.List.Dedup
import Dynarmic.Lib.Memory
import Dynarmic.Backend.ReturnStackBuffer

/-!
# Block links across changes of the code cache

`backend/x64/emit_x64.cpp` (`RegisterBlock`, `Patch`, `Unpatch`, `ClearCache`, `InvalidateBasicBlocks`,
`PushRSBHelper`), the `LinkBlock` and `LinkBlockFast` terminals, `EmitPatch*`, `Unpatch`, `ClearCache` and the
fast-dispatch handler of `backend/x64/a32_emit_x64.cpp`, `GetBasicBlock` of `backend/x64/a32_interface.cpp`; and
`backend/arm64/address_space.cpp` (`GetOrEmit`, `Emit`, `Link`, `LinkBlockLinks`, `RelinkForDescriptor`,
`InvalidateBasicBlocks`, `ClearCache`) with `EmitBlockLinkRelocation` of `backend/arm64/emit_arm64.cpp`.

A block jumps to the block of another location through a link site: code that jumps to the target's entry point when the
target has a block, and otherwise stores the target's PC and returns to the dispatcher. A site is written when its block
is emitted, for whatever the target is then, and rewritten each time the target gets a block or loses it. Each backend
keeps its own record of the sites. On x64, `patch_information` lists for every target the addresses of its sites, in
four lists by the kind of the site. On arm64, every emitted block keeps its relocations (offset and type) by target, and
`block_references` lists for every target the entry points of the blocks that link to it.

The code region is modelled by the contents of the sites: a block is one cell for its body followed by one cell for each
of its link sites, in the order the emitter produces them. A run of the cache is any sequence of lookups (which emit the
block of a location that has none), invalidations of any locations and clears. The module proves, for both backends and
every such run from the empty cache, that each recorded site holds the code for its target's current entry point, and
on x64 that the fast-dispatch table holds no location whose block is gone.
-/

namespace Dynarmic.Backend

variable {D : Type} (cfg : CacheConfig)

namespace X64

/-- The kinds of patch site, one list each in `PatchInformation`. -/
inductive PatchKind where
  | jg
  | jz
  | jmp
  | movRcx
  deriving DecidableEq, Repr

/-- The kinds in the order `Patch` walks their lists. -/
def PatchKind.all : List PatchKind :=
  [.jg, .jz, .jmp, .movRcx]

/-- Every kind of patch is in the list `Patch` walks. -/
theorem PatchKind.mem_all (k : PatchKind) : k ∈ PatchKind.all := by
  cases k <;> simp [PatchKind.all]

/-- `EmitX64::PatchInformation`: the addresses of the sites that link to one target, by kind. -/
structure PatchInformation where
  jg : List CodePtr
  jz : List CodePtr
  jmp : List CodePtr
  movRcx : List CodePtr

namespace PatchInformation

/-- No site recorded: what `patch_information[target]` is before the first site of `target`. -/
def empty : PatchInformation :=
  ⟨[], [], [], []⟩

/-- The list of a kind. -/
def sites (info : PatchInformation) : PatchKind → List CodePtr
  | .jg => info.jg
  | .jz => info.jz
  | .jmp => info.jmp
  | .movRcx => info.movRcx

/-- `push_back` on the list of a kind. -/
def pushBack (info : PatchInformation) (kind : PatchKind) (location : CodePtr) : PatchInformation :=
  match kind with
  | .jg => { info with jg := info.jg ++ [location] }
  | .jz => { info with jz := info.jz ++ [location] }
  | .jmp => { info with jmp := info.jmp ++ [location] }
  | .movRcx => { info with movRcx := info.movRcx ++ [location] }

/-- The sites with their kinds, in the order `Patch` rewrites them. -/
def kindedSites (info : PatchInformation) : List (PatchKind × CodePtr) :=
  PatchKind.all.flatMap fun k => (info.sites k).map (k, ·)

@[simp] theorem sites_empty (k : PatchKind) : empty.sites k = [] := by
  cases k <;> rfl

/-- `PushBack` adds its location to the sites of its kind and to no other. -/
theorem mem_sites_pushBack {info : PatchInformation} {kind k : PatchKind} {location a : CodePtr} :
    a ∈ (info.pushBack kind location).sites k ↔ a ∈ info.sites k ∨ (k = kind ∧ a = location) := by
  cases kind <;> cases k <;> simp [pushBack, sites]

/-- A site and its kind are in the list of kinded sites exactly when the site is among the sites of that kind. -/
theorem mem_kindedSites {info : PatchInformation} {k : PatchKind} {a : CodePtr} :
    (k, a) ∈ info.kindedSites ↔ a ∈ info.sites k := by
  simp only [kindedSites, List.mem_flatMap, List.mem_map, Prod.mk.injEq]
  constructor
  · rintro ⟨k', -, a', ha', rfl, rfl⟩
    exact ha'
  · intro ha
    exact ⟨k, PatchKind.mem_all k, a, ha, rfl, rfl⟩

end PatchInformation

/-- The code at a patch site, as the `EmitPatch*` functions write it. -/
inductive PatchCode (D : Type) where
  /-- `jg`, `jz` or `jmp` (the kind of the site) to an entry point. -/
  | jump (kind : PatchKind) (dest : CodePtr)
  /-- Store the PC of the target into the guest state, then `jg`, `jz` or `jmp` to `dest`. -/
  | storePcAndJump (kind : PatchKind) (target : D) (dest : CodePtr)
  /-- `mov rcx, dest`. -/
  | movRcx (dest : CodePtr)
  deriving DecidableEq, Repr

/-- Where the code at a site sends the run; for `mov rcx` the address it loads, which `PushRSBHelper` then stores as
the code pointer of the buffer's entry. -/
def PatchCode.destination : PatchCode D → CodePtr
  | .jump _ p | .storePcAndJump _ _ p | .movRcx p => p

/-- `EmitPatchJg`, `EmitPatchJz` and `EmitPatchJmp`, which differ in the condition of their jump only: a jump to the
target's entry point, or with no entry point, store the target's PC and jump to the return-from-run-code address. -/
def emitPatchJump (kind : PatchKind) (targetDesc : D) (targetCodePtr : Option CodePtr) : PatchCode D :=
  match targetCodePtr with
  | some p => .jump kind p
  | none => .storePcAndJump kind targetDesc cfg.fallback

/-- `EmitPatchJg`. -/
def emitPatchJg : D → Option CodePtr → PatchCode D :=
  emitPatchJump cfg .jg

/-- `EmitPatchJz`. -/
def emitPatchJz : D → Option CodePtr → PatchCode D :=
  emitPatchJump cfg .jz

/-- `EmitPatchJmp`. -/
def emitPatchJmp : D → Option CodePtr → PatchCode D :=
  emitPatchJump cfg .jmp

/-- `EmitPatchMovRcx`: load the entry point, or with none the return-from-run-code address. -/
def emitPatchMovRcx (targetCodePtr : Option CodePtr) : PatchCode D :=
  .movRcx (targetCodePtr.getD cfg.fallback)

/-- The `EmitPatch*` function for the sites of a kind. -/
def emitPatch (kind : PatchKind) (targetDesc : D) (targetCodePtr : Option CodePtr) : PatchCode D :=
  match kind with
  | .jg => emitPatchJg cfg targetDesc targetCodePtr
  | .jz => emitPatchJz cfg targetDesc targetCodePtr
  | .jmp => emitPatchJmp cfg targetDesc targetCodePtr
  | .movRcx => emitPatchMovRcx cfg targetCodePtr

/-- A site sends the run to the target's entry point when it has one, and to the return-from-run-code address
otherwise. -/
theorem destination_emitPatch (kind : PatchKind) (targetDesc : D) (targetCodePtr : Option CodePtr) :
    (emitPatch cfg kind targetDesc targetCodePtr).destination = targetCodePtr.getD cfg.fallback := by
  cases kind <;> cases targetCodePtr <;> rfl

/-- Before it returns to the dispatcher, a jump site with no entry point stores the PC of its own target. -/
theorem emitPatch_none {kind : PatchKind} (hk : kind ≠ .movRcx) (targetDesc : D) :
    emitPatch cfg kind targetDesc none = .storePcAndJump kind targetDesc cfg.fallback := by
  cases kind
  · rfl
  · rfl
  · rfl
  · exact absurd rfl hk

/-- `A32EmitX64::FastDispatchEntry`. A location of `none` is the all-ones default, which no location equals. -/
structure FastDispatchEntry (D : Type) where
  locationDescriptor : Option D := none
  codePtr : Option CodePtr := none

/-- What the links of A32 code on x64 work on: the emission offset and the patch sites of `BlockOfCode`, the tables
`block_descriptors` (of which the entry points are kept) and `patch_information` of `EmitX64`, and the fast-dispatch
table of `A32EmitX64`. -/
structure A32EmitX64 (D : Type) where
  offset : Nat
  mem : CodePtr → Option (PatchCode D)
  blockDescriptors : D → Option CodePtr
  patchInformation : D → PatchInformation
  fastDispatchTable : Nat → FastDispatchEntry D

/-- What happens to the cache: the dispatcher looks a location up (`GetBasicBlock` of the interface, which emits its
block with the link sites `links` on a miss), the fast-dispatch handler runs for a location, a range invalidation
reaches `InvalidateBasicBlocks` with some locations, or the whole cache is cleared. -/
inductive CacheOp (D : Type) where
  | getBasicBlock (descriptor : D) (links : List (PatchKind × D))
  | fastDispatchHint (location : D) (links : List (PatchKind × D))
  | invalidateBasicBlocks (descriptors : List D)
  | clearCache

namespace A32EmitX64

variable [DecidableEq D]

/-- The cache after the prelude: nothing emitted, nothing recorded. -/
def fresh : A32EmitX64 D where
  offset := cfg.endOfPrelude
  mem _ := none
  blockDescriptors _ := none
  patchInformation _ := .empty
  fastDispatchTable _ := {}

/-- `BlockOfCode::SpaceRemaining`. -/
def spaceRemaining (e : A32EmitX64 D) : Nat :=
  cfg.codeCacheSize - e.offset

/-- One link site, as the `LinkBlock` and `LinkBlockFast` terminals and `PushRSBHelper` emit it: the current address
goes into `patch_information[target]` under the site's kind, and the site gets the patch for the entry point that
`GetBasicBlock` (for `mov rcx`, `block_descriptors.find`) gives for the target now. -/
def emitLinkSite (e : A32EmitX64 D) (site : PatchKind × D) : A32EmitX64 D :=
  { e with
    offset := e.offset + 1
    mem := Function.update e.mem e.offset (some (emitPatch cfg site.1 site.2 (e.blockDescriptors site.2)))
    patchInformation :=
      Function.update e.patchInformation site.2 ((e.patchInformation site.2).pushBack site.1 e.offset) }

/-- `EmitX64::Patch`: rewrite every site of the target, list by list, for the given entry point. -/
def patch (e : A32EmitX64 D) (targetDesc : D) (targetCodePtr : Option CodePtr) : A32EmitX64 D :=
  let patchInfo := e.patchInformation targetDesc
  { e with
    mem := PatchKind.all.foldl (fun mem kind =>
      Memory.writeEach mem (patchInfo.sites kind) id (fun _ => some (emitPatch cfg kind targetDesc targetCodePtr)))
      e.mem }

variable (slot : D → Nat)

/-- `A32EmitX64::Unpatch`: `EmitX64::Unpatch` (a `Patch` to `nullptr`; its check that the target has an entry in
`patch_information` changes nothing, since `Patch` of a target with no sites writes nothing), then the target's entry of
the fast-dispatch table is reset. `slot` is `fast_dispatch_table_lookup`'s hash of a location. -/
def unpatch (e : A32EmitX64 D) (location : D) : A32EmitX64 D :=
  let e := e.patch cfg location none
  { e with fastDispatchTable := Function.update e.fastDispatchTable (slot location) {} }

/-- `EmitX64::RegisterBlock`: patch the sites of the descriptor to the new entry point, then `insert` it into
`block_descriptors` (which keeps an entry already there). -/
def registerBlock (e : A32EmitX64 D) (descriptor : D) (entrypoint : CodePtr) : A32EmitX64 D :=
  let e := e.patch cfg descriptor (some entrypoint)
  { e with
    blockDescriptors :=
      if (e.blockDescriptors descriptor).isSome then e.blockDescriptors
      else Function.update e.blockDescriptors descriptor (some entrypoint) }

/-- `A32EmitX64::Emit` as far as links go: the block's body at the current address, which is its entry point, then its
link sites in the order they are emitted, then `RegisterBlock`. -/
def emit (e : A32EmitX64 D) (descriptor : D) (links : List (PatchKind × D)) : A32EmitX64 D × CodePtr :=
  let entrypoint := e.offset
  let e := links.foldl (emitLinkSite cfg) { e with offset := e.offset + 1 }
  (e.registerBlock cfg descriptor entrypoint, entrypoint)

/-- `BlockOfCode::ClearCache` with `A32EmitX64::ClearCache`: emission starts again after the prelude, and every table
is emptied, the fast-dispatch table included. -/
def clearCache (e : A32EmitX64 D) : A32EmitX64 D :=
  { e with
    offset := cfg.endOfPrelude
    blockDescriptors := fun _ => none
    patchInformation := fun _ => .empty
    fastDispatchTable := fun _ => {} }

/-- `EmitX64::InvalidateBasicBlocks`: every listed location that has a block is unpatched and loses its block. -/
def invalidateBasicBlocks (e : A32EmitX64 D) (locations : List D) : A32EmitX64 D :=
  locations.foldl (fun e descriptor =>
    if (e.blockDescriptors descriptor).isSome then
      let e := e.unpatch cfg slot descriptor
      { e with blockDescriptors := Function.update e.blockDescriptors descriptor none }
    else e) e

/-- `GetBasicBlock` of `a32_interface.cpp`: the entry point of the location's block; on a miss, the whole cache is
invalidated first if less than `MINIMUM_REMAINING_CODESIZE` remains, and the block is emitted. -/
def getBasicBlock (e : A32EmitX64 D) (descriptor : D) (links : List (PatchKind × D)) : A32EmitX64 D × CodePtr :=
  match e.blockDescriptors descriptor with
  | some entrypoint => (e, entrypoint)
  | none =>
    let e := if e.spaceRemaining cfg < minimumRemainingCodesize then e.clearCache cfg else e
    e.emit cfg descriptor links

/-- `terminal_handler_fast_dispatch_hint`: on a hit, the jump through the entry changes nothing. On a miss the handler
stores the location into the entry first, then calls `LookupBlock` (the interface's `GetBasicBlock`), then stores the
code pointer it returns; a clear of the cache inside `LookupBlock` resets the entry in between. -/
def terminalHandlerFastDispatchHint (e : A32EmitX64 D) (location : D) (links : List (PatchKind × D)) :
    A32EmitX64 D :=
  let i := slot location
  if (e.fastDispatchTable i).locationDescriptor = some location then e
  else
    let stored := { e.fastDispatchTable i with locationDescriptor := some location }
    let e := { e with fastDispatchTable := Function.update e.fastDispatchTable i stored }
    let r := e.getBasicBlock cfg location links
    let found := { r.1.fastDispatchTable i with codePtr := some r.2 }
    { r.1 with fastDispatchTable := Function.update r.1.fastDispatchTable i found }

/-- One operation on the cache. -/
def step (e : A32EmitX64 D) : CacheOp D → A32EmitX64 D
  | .getBasicBlock descriptor links => (e.getBasicBlock cfg descriptor links).1
  | .fastDispatchHint location links => e.terminalHandlerFastDispatchHint cfg slot location links
  | .invalidateBasicBlocks descriptors => e.invalidateBasicBlocks cfg slot descriptors
  | .clearCache => e.clearCache cfg

/-! ### Field lemmas -/

section Fields

omit [DecidableEq D]

variable (e : A32EmitX64 D)

@[simp] theorem offset_patch (t : D) (p : Option CodePtr) : (e.patch cfg t p).offset = e.offset := rfl
@[simp] theorem blockDescriptors_patch (t : D) (p : Option CodePtr) :
    (e.patch cfg t p).blockDescriptors = e.blockDescriptors := rfl
@[simp] theorem patchInformation_patch (t : D) (p : Option CodePtr) :
    (e.patch cfg t p).patchInformation = e.patchInformation := rfl
@[simp] theorem fastDispatchTable_patch (t : D) (p : Option CodePtr) :
    (e.patch cfg t p).fastDispatchTable = e.fastDispatchTable := rfl

end Fields

@[simp] theorem blockDescriptors_emitLinkSite (e : A32EmitX64 D) (site : PatchKind × D) :
    (e.emitLinkSite cfg site).blockDescriptors = e.blockDescriptors := rfl
@[simp] theorem fastDispatchTable_emitLinkSite (e : A32EmitX64 D) (site : PatchKind × D) :
    (e.emitLinkSite cfg site).fastDispatchTable = e.fastDispatchTable := rfl

/-- Emitting link sites changes neither the registered blocks nor the fast-dispatch table. -/
theorem foldl_emitLinkSite_tables (e : A32EmitX64 D) (links : List (PatchKind × D)) :
    (links.foldl (emitLinkSite cfg) e).blockDescriptors = e.blockDescriptors ∧
      (links.foldl (emitLinkSite cfg) e).fastDispatchTable = e.fastDispatchTable := by
  induction links generalizing e with
  | nil => exact ⟨rfl, rfl⟩
  | cons site links ih => exact ih (e.emitLinkSite cfg site)

/-- The new block is registered at the offset where its emission started, and nothing else changes in the tables. -/
theorem emit_tables {e : A32EmitX64 D} {descriptor : D} (hd : e.blockDescriptors descriptor = none)
    (links : List (PatchKind × D)) :
    (e.emit cfg descriptor links).2 = e.offset ∧
      (e.emit cfg descriptor links).1.blockDescriptors = Function.update e.blockDescriptors descriptor (some e.offset) ∧
      (e.emit cfg descriptor links).1.fastDispatchTable = e.fastDispatchTable := by
  obtain ⟨hb, hf⟩ := foldl_emitLinkSite_tables cfg { e with offset := e.offset + 1 } links
  refine ⟨rfl, ?_, hf⟩
  simp only [emit, registerBlock, blockDescriptors_patch, hb, hd, Option.isSome_none, Bool.false_eq_true,
    if_false]

omit [DecidableEq D] in
/-- `Patch` writes the code of each site of the target for its kind, and nothing else. -/
theorem patch_mem (e : A32EmitX64 D) (t : D) (p : Option CodePtr) :
    (e.patch cfg t p).mem =
      Memory.writeEach e.mem (e.patchInformation t).kindedSites Prod.snd (fun x => some (emitPatch cfg x.1 t p)) := by
  have hkind : ∀ (m : CodePtr → Option (PatchCode D)) (k : PatchKind),
      Memory.writeEach m ((e.patchInformation t).sites k) id (fun _ => some (emitPatch cfg k t p)) =
        Memory.writeEach m (((e.patchInformation t).sites k).map (k, ·)) Prod.snd
          (fun x => some (emitPatch cfg x.1 t p)) := by
    intro m k
    rw [Memory.writeEach_map]
    rfl
  simp only [patch, hkind]
  exact Memory.foldl_writeEach _ _ _ _ _

/-! ### The sites hold the code for their targets' current entry points -/

/-- The invariant of the recorded sites: each lies below the emission offset, belongs to one target and one kind only,
and holds the patch of its kind for its target's current entry point. -/
structure LinksLive (e : A32EmitX64 D) : Prop where
  sites_lt_offset : ∀ t k a, a ∈ (e.patchInformation t).sites k → a < e.offset
  sites_unique : ∀ t k t' k' a, a ∈ (e.patchInformation t).sites k → a ∈ (e.patchInformation t').sites k' →
    t = t' ∧ k = k'
  sites_live : ∀ t k a, a ∈ (e.patchInformation t).sites k →
    e.mem a = some (emitPatch cfg k t (e.blockDescriptors t))

namespace LinksLive

variable {cfg slot} {e : A32EmitX64 D}

omit [DecidableEq D] in
/-- The empty emitter has no patch sites, so the invariant holds. -/
theorem fresh : LinksLive cfg (A32EmitX64.fresh cfg : A32EmitX64 D) where
  sites_lt_offset _ k _ h := by simp [A32EmitX64.fresh] at h
  sites_unique _ k _ _ _ h := by simp [A32EmitX64.fresh] at h
  sites_live _ k _ h := by simp [A32EmitX64.fresh] at h

omit [DecidableEq D] in
/-- `ClearCache` forgets every patch site, so the invariant holds after it. -/
theorem clearCache (e : A32EmitX64 D) : LinksLive cfg (e.clearCache cfg) where
  sites_lt_offset _ k _ h := by simp [A32EmitX64.clearCache] at h
  sites_unique _ k _ _ _ h := by simp [A32EmitX64.clearCache] at h
  sites_live _ k _ h := by simp [A32EmitX64.clearCache] at h

omit [DecidableEq D] in
/-- The fast-dispatch table is no part of the invariant. -/
theorem setFastDispatchTable (h : LinksLive cfg e) (table : Nat → FastDispatchEntry D) :
    LinksLive cfg { e with fastDispatchTable := table } :=
  ⟨h.sites_lt_offset, h.sites_unique, h.sites_live⟩

/-- Emitting a link site records the current offset under its target and kind, and no other site. -/
theorem mem_sites_emitLinkSite {site : PatchKind × D} {t : D} {k : PatchKind} {a : CodePtr} :
    a ∈ ((e.emitLinkSite cfg site).patchInformation t).sites k ↔
      a ∈ (e.patchInformation t).sites k ∨ (t = site.2 ∧ k = site.1 ∧ a = e.offset) := by
  by_cases ht : t = site.2
  · subst ht
    simp [emitLinkSite, PatchInformation.mem_sites_pushBack]
  · simp [emitLinkSite, ht]

/-- A new site takes the next address, which no recorded site has, and holds the patch for the target's entry point. -/
theorem emitLinkSite (h : LinksLive cfg e) (site : PatchKind × D) : LinksLive cfg (e.emitLinkSite cfg site) where
  sites_lt_offset t k a ha := by
    rcases mem_sites_emitLinkSite.1 ha with ha | ⟨-, -, rfl⟩
    · exact Nat.lt_succ_of_lt (h.sites_lt_offset t k a ha)
    · exact Nat.lt_succ_self _
  sites_unique t k t' k' a ha ha' := by
    rcases mem_sites_emitLinkSite.1 ha with ha | ⟨rfl, rfl, rfl⟩
    · rcases mem_sites_emitLinkSite.1 ha' with ha' | ⟨-, -, rfl⟩
      · exact h.sites_unique t k t' k' a ha ha'
      · exact absurd (h.sites_lt_offset t k _ ha) (Nat.lt_irrefl _)
    · rcases mem_sites_emitLinkSite.1 ha' with ha' | ⟨rfl, rfl, -⟩
      · exact absurd (h.sites_lt_offset t' k' _ ha') (Nat.lt_irrefl _)
      · exact ⟨rfl, rfl⟩
  sites_live t k a ha := by
    rcases mem_sites_emitLinkSite.1 ha with ha | ⟨rfl, rfl, rfl⟩
    · have hne : a ≠ e.offset := Nat.ne_of_lt (h.sites_lt_offset t k a ha)
      simp only [A32EmitX64.emitLinkSite, Function.update_of_ne hne]
      exact h.sites_live t k a ha
    · simp [A32EmitX64.emitLinkSite]

/-- The sites of the patched target hold the patch for the new entry point, and no other site is written. -/
theorem patch_update (h : LinksLive cfg e) (t : D) (p : Option CodePtr) :
    LinksLive cfg { e.patch cfg t p with blockDescriptors := Function.update e.blockDescriptors t p } where
  sites_lt_offset := h.sites_lt_offset
  sites_unique := h.sites_unique
  sites_live t' k a ha := by
    show (e.patch cfg t p).mem a = some (emitPatch cfg k t' (Function.update e.blockDescriptors t p t'))
    rw [patch_mem]
    by_cases ht : t' = t
    · -- a site of the patched target: `Patch` writes it, and every write there is for its own kind
      subst ht
      rw [Function.update_self]
      refine Memory.writeEach_of_mem _ _ (PatchInformation.mem_kindedSites.2 ha) rfl ?_
      rintro ⟨k', a'⟩ hk' rfl
      obtain ⟨-, rfl⟩ := h.sites_unique t' k' t' k a' (PatchInformation.mem_kindedSites.1 hk') ha
      rfl
    · -- a site of another target: `Patch` writes none of it
      rw [Function.update_of_ne ht]
      rw [Memory.writeEach_of_forall_ne _ _ ?_]
      · exact h.sites_live t' k a ha
      rintro ⟨k', a'⟩ hk' rfl
      exact ht (h.sites_unique t' k t k' a' ha (PatchInformation.mem_kindedSites.1 hk')).1

/-- Emitting a block of a location with no block: its sites, then `RegisterBlock`. -/
theorem emit (h : LinksLive cfg e) {descriptor : D} (hd : e.blockDescriptors descriptor = none)
    (links : List (PatchKind × D)) : LinksLive cfg (e.emit cfg descriptor links).1 := by
  have hbump : LinksLive cfg { e with offset := e.offset + 1 } :=
    ⟨fun t k a ha => Nat.lt_succ_of_lt (h.sites_lt_offset t k a ha), h.sites_unique, h.sites_live⟩
  have hsites : LinksLive cfg (links.foldl (A32EmitX64.emitLinkSite cfg) { e with offset := e.offset + 1 }) :=
    Run.foldl_invariant (LinksLive cfg) (fun _ site h' => h'.emitLinkSite site) hbump links
  have hreg := hsites.patch_update descriptor (some e.offset)
  have hb := (foldl_emitLinkSite_tables cfg { e with offset := e.offset + 1 } links).1
  simp only [A32EmitX64.emit, registerBlock, blockDescriptors_patch, hb, hd, Option.isSome_none,
    Bool.false_eq_true, if_false]
  simpa only [hb] using hreg

/-- Skipping the locations with no block, every listed location is unpatched and loses its block. -/
theorem invalidateBasicBlocks (h : LinksLive cfg e) (locations : List D) :
    LinksLive cfg (e.invalidateBasicBlocks cfg slot locations) := by
  refine Run.foldl_invariant (LinksLive cfg) ?_ h locations
  intro e' descriptor h'
  by_cases hd : (e'.blockDescriptors descriptor).isSome
  · simp only [hd, if_true]
    exact (h'.patch_update descriptor none).setFastDispatchTable _
  · simp only [hd, Bool.false_eq_true, if_false]
    exact h'

/-- The interface's lookup emits with the location unregistered, after a clear or not. -/
theorem getBasicBlock (h : LinksLive cfg e) (descriptor : D) (links : List (PatchKind × D)) :
    LinksLive cfg (e.getBasicBlock cfg descriptor links).1 := by
  unfold A32EmitX64.getBasicBlock
  cases hd : e.blockDescriptors descriptor with
  | some entrypoint => exact h
  | none =>
    by_cases hlow : e.spaceRemaining cfg < minimumRemainingCodesize
    · simp only [hlow, if_true]
      exact (clearCache e).emit rfl links
    · simp only [hlow, if_false]
      exact h.emit hd links

/-- The fast-dispatch handler changes the sites only through the lookup it makes on a miss. -/
theorem terminalHandlerFastDispatchHint (h : LinksLive cfg e) (location : D) (links : List (PatchKind × D)) :
    LinksLive cfg (e.terminalHandlerFastDispatchHint cfg slot location links) := by
  unfold A32EmitX64.terminalHandlerFastDispatchHint
  dsimp only
  split
  · exact h
  · exact ((h.setFastDispatchTable _).getBasicBlock location links).setFastDispatchTable _

/-- Each operation of the emitter keeps the invariant of the patch sites. -/
theorem step (h : LinksLive cfg e) (op : CacheOp D) : LinksLive cfg (e.step cfg slot op) := by
  cases op with
  | getBasicBlock descriptor links => exact h.getBasicBlock descriptor links
  | fastDispatchHint location links => exact h.terminalHandlerFastDispatchHint location links
  | invalidateBasicBlocks descriptors => exact h.invalidateBasicBlocks descriptors
  | clearCache => exact clearCache e

end LinksLive

/-! ### The fast-dispatch table names only locations with a block, with their entry points -/

/-- What the interface's `GetBasicBlock` does to the tables, from any state: the location ends with the block whose
entry point it returns; and either the cache was not cleared, so that the other locations keep their blocks and the
fast-dispatch table is untouched, or it was, and the table is empty. -/
theorem getBasicBlock_tables (e : A32EmitX64 D) (descriptor : D) (links : List (PatchKind × D)) :
    (e.getBasicBlock cfg descriptor links).1.blockDescriptors descriptor = some (e.getBasicBlock cfg descriptor links).2 ∧
      ((∀ d, d ≠ descriptor → (e.getBasicBlock cfg descriptor links).1.blockDescriptors d = e.blockDescriptors d) ∧
          (e.getBasicBlock cfg descriptor links).1.fastDispatchTable = e.fastDispatchTable ∨
        (e.getBasicBlock cfg descriptor links).1.fastDispatchTable = fun _ => {}) := by
  unfold A32EmitX64.getBasicBlock
  cases hd : e.blockDescriptors descriptor with
  | some entrypoint => exact ⟨hd, Or.inl ⟨fun _ _ => rfl, rfl⟩⟩
  | none =>
    by_cases hlow : e.spaceRemaining cfg < minimumRemainingCodesize
    · -- cleared first: the table is empty
      simp only [hlow, if_true]
      obtain ⟨hentry, hb, hf⟩ := emit_tables cfg (e := e.clearCache cfg) rfl links
      refine ⟨?_, Or.inr hf⟩
      rw [hb, hentry, Function.update_self]
    · simp only [hlow, if_false]
      obtain ⟨hentry, hb, hf⟩ := emit_tables cfg hd links
      refine ⟨?_, Or.inl ⟨fun d hne => ?_, hf⟩⟩
      · rw [hb, hentry, Function.update_self]
      · rw [hb, Function.update_of_ne hne]

/-- The invariant of the fast-dispatch table: an entry that names a location is in that location's slot and holds the
entry point of the location's block. -/
def DispatchLive (e : A32EmitX64 D) : Prop :=
  ∀ i d, (e.fastDispatchTable i).locationDescriptor = some d →
    slot d = i ∧ ∃ p, e.blockDescriptors d = some p ∧ (e.fastDispatchTable i).codePtr = some p

namespace DispatchLive

variable {cfg slot} {e : A32EmitX64 D}

omit [DecidableEq D] in
/-- The empty fast-dispatch table names no location. -/
theorem fresh : DispatchLive slot (A32EmitX64.fresh cfg : A32EmitX64 D) := by
  intro i d hi
  cases hi

omit [DecidableEq D] in
/-- `ClearCache` empties the fast-dispatch table. -/
theorem clearCache (e : A32EmitX64 D) : DispatchLive slot (e.clearCache cfg) := by
  intro i d hi
  cases hi

omit [DecidableEq D] in
/-- No entry names a location with no block. -/
theorem not_named (h : DispatchLive slot e) {d : D} (hd : e.blockDescriptors d = none) (i : Nat) :
    (e.fastDispatchTable i).locationDescriptor ≠ some d := by
  intro hi
  obtain ⟨-, p, hp, -⟩ := h i d hi
  rw [hd] at hp
  cases hp

/-- Registering a location with no block: no entry names it. -/
theorem emit (h : DispatchLive slot e) {descriptor : D} (hd : e.blockDescriptors descriptor = none)
    (links : List (PatchKind × D)) : DispatchLive slot (e.emit cfg descriptor links).1 := by
  obtain ⟨-, hb, hf⟩ := emit_tables cfg hd links
  intro i d hi
  rw [hf] at hi ⊢
  have hne : d ≠ descriptor := fun hdd => h.not_named hd i (hdd ▸ hi)
  rw [hb, Function.update_of_ne hne]
  exact h i d hi

/-- `GetBasicBlock` keeps the fast-dispatch table pointing at live entry points, whether it finds the block or emits it.
-/
theorem getBasicBlock (h : DispatchLive slot e) (descriptor : D) (links : List (PatchKind × D)) :
    DispatchLive slot (e.getBasicBlock cfg descriptor links).1 := by
  unfold A32EmitX64.getBasicBlock
  cases hd : e.blockDescriptors descriptor with
  | some entrypoint => exact h
  | none =>
    by_cases hlow : e.spaceRemaining cfg < minimumRemainingCodesize
    · simp only [hlow, if_true]
      exact (clearCache e).emit rfl links
    · simp only [hlow, if_false]
      exact h.emit hd links

/-- `Unpatch` resets the slot of each invalidated location, the only slot that can name it. -/
theorem invalidateBasicBlocks (h : DispatchLive slot e) (locations : List D) :
    DispatchLive slot (e.invalidateBasicBlocks cfg slot locations) := by
  refine Run.foldl_invariant (DispatchLive slot) ?_ h locations
  intro e' descriptor h'
  by_cases hd : (e'.blockDescriptors descriptor).isSome
  · simp only [hd, if_true]
    intro i d hi
    have hi' : i ≠ slot descriptor := by
      rintro rfl
      simp [unpatch] at hi
    simp only [unpatch, fastDispatchTable_patch, Function.update_of_ne hi'] at hi ⊢
    obtain ⟨hslot, p, hp, hcode⟩ := h' i d hi
    have hne : d ≠ descriptor := by
      rintro rfl
      exact hi' hslot.symm
    exact ⟨hslot, p, by rw [blockDescriptors_patch, Function.update_of_ne hne]; exact hp, hcode⟩
  · simp only [hd, Bool.false_eq_true, if_false]
    exact h'

/-- The miss path of the fast-dispatch handler after its first store, from a state that differs from a live one only in
that the handler's slot names the location: after `LookupBlock` and the store of the code pointer it returns, the slot
names the location with the entry point of its block, unless a clear inside the lookup has reset the entry, which then
names nothing. -/
theorem lookupBlock_store (h : DispatchLive slot e) {e₁ : A32EmitX64 D} {location : D} (links : List (PatchKind × D))
    (hb : e₁.blockDescriptors = e.blockDescriptors)
    (hrest : ∀ j, j ≠ slot location → e₁.fastDispatchTable j = e.fastDispatchTable j)
    (hown : (e₁.fastDispatchTable (slot location)).locationDescriptor = some location) :
    DispatchLive slot { (e₁.getBasicBlock cfg location links).1 with
      fastDispatchTable := Function.update (e₁.getBasicBlock cfg location links).1.fastDispatchTable (slot location)
        { (e₁.getBasicBlock cfg location links).1.fastDispatchTable (slot location) with
          codePtr := some (e₁.getBasicBlock cfg location links).2 } } := by
  obtain ⟨hentry, hcases⟩ := getBasicBlock_tables cfg e₁ location links
  generalize e₁.getBasicBlock cfg location links = r at hentry hcases ⊢
  obtain ⟨e₂, entry⟩ := r
  intro j d hj
  dsimp only at hj hentry hcases ⊢
  by_cases hji : j = slot location
  · -- the handler's own slot
    subst hji
    rw [Function.update_self] at hj ⊢
    rcases hcases with ⟨-, htab⟩ | htab
    · rw [htab, hown] at hj
      cases hj
      exact ⟨rfl, entry, hentry, rfl⟩
    · rw [htab] at hj
      cases hj
  · -- every other slot is as it was, and names a location other than this one
    rw [Function.update_of_ne hji] at hj ⊢
    rcases hcases with ⟨hother, htab⟩ | htab
    · rw [htab, hrest j hji] at hj ⊢
      obtain ⟨hslot, p, hp, hcode⟩ := h j d hj
      have hne : d ≠ location := by
        rintro rfl
        exact hji hslot.symm
      exact ⟨hslot, p, by rw [hother d hne, hb]; exact hp, hcode⟩
    · rw [htab] at hj
      cases hj

/-- The fast-dispatch handler stores the entry point it has just looked up, so the table stays live. -/
theorem terminalHandlerFastDispatchHint (h : DispatchLive slot e) (location : D) (links : List (PatchKind × D)) :
    DispatchLive slot (e.terminalHandlerFastDispatchHint cfg slot location links) := by
  unfold A32EmitX64.terminalHandlerFastDispatchHint
  dsimp only
  split
  · exact h
  · exact h.lookupBlock_store links rfl (fun j hj => Function.update_of_ne hj _ _) (by simp)

/-- Each operation of the emitter keeps the fast-dispatch table live. -/
theorem step (h : DispatchLive slot e) (op : CacheOp D) : DispatchLive slot (e.step cfg slot op) := by
  cases op with
  | getBasicBlock descriptor links => exact h.getBasicBlock descriptor links
  | fastDispatchHint location links => exact h.terminalHandlerFastDispatchHint location links
  | invalidateBasicBlocks descriptors => exact h.invalidateBasicBlocks descriptors
  | clearCache => exact clearCache e

end DispatchLive

/-- After `InvalidateBasicBlocks`, no listed location has a block, and the others keep theirs. -/
theorem blockDescriptors_invalidateBasicBlocks (e : A32EmitX64 D) (locations : List D) (d : D) :
    (e.invalidateBasicBlocks cfg slot locations).blockDescriptors d =
      if d ∈ locations then none else e.blockDescriptors d := by
  unfold invalidateBasicBlocks
  induction locations generalizing e with
  | nil => simp
  | cons d' locations ih =>
    rw [List.foldl_cons, ih]
    by_cases hdd : d = d'
    · -- the location itself: dropped, or it had no block
      subst hdd
      by_cases hd : (e.blockDescriptors d).isSome
      · simp [hd, unpatch]
      · have hnone : e.blockDescriptors d = none := by simpa using hd
        simp [hnone]
    · by_cases hd : (e.blockDescriptors d').isSome
      · simp [hd, unpatch, hdd]
      · simp [hd, hdd]

/-- Every run from the empty cache keeps both invariants, after every operation. -/
theorem links_live_of_run (ops : List (CacheOp D)) :
    LinksLive cfg (Run.run (step cfg slot) (fresh cfg) ops) ∧ DispatchLive slot (Run.run (step cfg slot) (fresh cfg) ops) :=
  @Run.run_invariant _ _ (step cfg slot) (fun e => LinksLive cfg e ∧ DispatchLive slot e)
    (fun _ op h => ⟨h.1.step op, h.2.step op⟩) _ ⟨LinksLive.fresh, DispatchLive.fresh⟩ ops

end A32EmitX64

end X64

namespace Arm64

/-- `BlockRelocationType`. -/
inductive BlockRelocationType where
  | branch
  | moveToScratch1
  deriving DecidableEq, Repr

/-- `BlockRelocation`: where a link site lies in its block, and its type. -/
structure BlockRelocation where
  codeOffset : Nat
  type : BlockRelocationType
  deriving DecidableEq, Repr

/-- The instruction at a block relocation. -/
inductive Insn where
  | b (dest : CodePtr)
  | nop
  | adrl (dest : CodePtr)
  | brk
  deriving DecidableEq, Repr

/-- What `EmitBlockLinkRelocation` leaves at a site before the block is linked: `NOP` for a branch, `BRK` for a move. -/
def placeholder : BlockRelocationType → Insn
  | .branch => .nop
  | .moveToScratch1 => .brk

/-- The case of `LinkBlockLinks`'s switch for one relocation, for a target whose entry point is `targetPtr`: `B` to the
entry point, or `NOP`, which falls through to the code after the site that stores the target's PC and returns to the
dispatcher; `ADRL Xscratch1` of the entry point, or of `return_to_dispatcher`. -/
def linkBlockLink (type : BlockRelocationType) (targetPtr : Option CodePtr) : Insn :=
  match type, targetPtr with
  | .branch, some p => .b p
  | .branch, none => .nop
  | .moveToScratch1, some p => .adrl p
  | .moveToScratch1, none => .adrl cfg.fallback

/-- The relocations of a block's link sites, each at the next code offset from `codeOffset` on, in emission order. -/
def layoutBlockLinks : Nat → List (BlockRelocationType × D) → List (BlockRelocation × D)
  | _, [] => []
  | codeOffset, (type, target) :: links => (⟨codeOffset, type⟩, target) :: layoutBlockLinks (codeOffset + 1) links

/-- `layoutBlockLinks n` places its relocations at the offsets from `n` up to `n` plus the number of links. -/
theorem codeOffset_layoutBlockLinks {n : Nat} {links : List (BlockRelocationType × D)} {x : BlockRelocation × D}
    (hx : x ∈ layoutBlockLinks n links) : n ≤ x.1.codeOffset ∧ x.1.codeOffset < n + links.length := by
  induction links generalizing n with
  | nil => cases hx
  | cons l links ih =>
    obtain ⟨type, target⟩ := l
    rw [layoutBlockLinks] at hx
    rcases List.mem_cons.1 hx with rfl | hx
    · simp
    · obtain ⟨h₁, h₂⟩ := ih hx
      simp only [List.length_cons]
      omega

/-- `layoutBlockLinks` places each relocation at its own offset. -/
theorem nodup_layoutBlockLinks (n : Nat) (links : List (BlockRelocationType × D)) :
    ((layoutBlockLinks n links).map (·.1.codeOffset)).Nodup := by
  induction links generalizing n with
  | nil => exact List.nodup_nil
  | cons l links ih =>
    obtain ⟨type, target⟩ := l
    rw [layoutBlockLinks, List.map_cons]
    refine List.nodup_cons.2 ⟨?_, ih (n + 1)⟩
    intro hmem
    obtain ⟨x, hx, hxo⟩ := List.mem_map.1 hmem
    have := (codeOffset_layoutBlockLinks hx).1
    simp only at hxo
    omega

/-- `EmittedBlockInfo` as far as links go: the entry point, the size, and the block relocations in the order
`EmitBlockLinkRelocation` recorded them, each with its target; `block_relocations[target]` is the list of those of
`target`, in that order. The relocations lie inside the block at distinct offsets. -/
structure EmittedBlockInfo (D : Type) where
  entryPoint : CodePtr
  size : Nat
  blockLinks : List (BlockRelocation × D)
  size_pos : 0 < size
  codeOffset_lt_size : ∀ x ∈ blockLinks, x.1.codeOffset < size
  nodup_codeOffset : (blockLinks.map (·.1.codeOffset)).Nodup

namespace EmittedBlockInfo

variable [DecidableEq D]

/-- `block_relocations[target]`. -/
def blockRelocations (info : EmittedBlockInfo D) (target : D) : List BlockRelocation :=
  (info.blockLinks.filter (·.2 = target)).map (·.1)

/-- The targets of `block_relocations`, each once. -/
def targets (info : EmittedBlockInfo D) : List D :=
  (info.blockLinks.map (·.2)).dedup

/-- Every relocation of the block with its target, target by target, as `Link` writes them. -/
def linkSites (info : EmittedBlockInfo D) : List (D × BlockRelocation) :=
  info.targets.flatMap fun target => (info.blockRelocations target).map (target, ·)

/-- The information `EmitArm64` returns for a block at `entryPoint` with the link sites `links`: a cell for the body,
then one for each site. -/
def ofLinks (entryPoint : CodePtr) (links : List (BlockRelocationType × D)) : EmittedBlockInfo D where
  entryPoint := entryPoint
  size := links.length + 1
  blockLinks := layoutBlockLinks 1 links
  size_pos := Nat.succ_pos _
  codeOffset_lt_size x hx := by
    have := (codeOffset_layoutBlockLinks hx).2
    omega
  nodup_codeOffset := nodup_layoutBlockLinks 1 links

variable {info : EmittedBlockInfo D}

/-- The relocations of a block for a target are the block's links to that target. -/
theorem mem_blockRelocations {r : BlockRelocation} {target : D} :
    r ∈ info.blockRelocations target ↔ (r, target) ∈ info.blockLinks := by
  simp only [blockRelocations, List.mem_map, List.mem_filter, decide_eq_true_eq]
  constructor
  · rintro ⟨x, ⟨hx, rfl⟩, rfl⟩
    exact hx
  · intro h
    exact ⟨(r, target), ⟨h, rfl⟩, rfl⟩

/-- A target and relocation are among the link sites exactly when the block links to the target at that relocation. -/
theorem mem_linkSites {target : D} {r : BlockRelocation} :
    (target, r) ∈ info.linkSites ↔ (r, target) ∈ info.blockLinks := by
  simp only [linkSites, targets, List.mem_flatMap, List.mem_dedup, List.mem_map, Prod.mk.injEq,
    mem_blockRelocations]
  constructor
  · rintro ⟨t, -, r', hr', rfl, rfl⟩
    exact hr'
  · intro h
    exact ⟨target, ⟨(r, target), h, rfl⟩, r, h, rfl, rfl⟩

omit [DecidableEq D] in
/-- Two relocations of one block at the same offset are the same. -/
theorem eq_of_codeOffset_eq {x y : BlockRelocation × D} (hx : x ∈ info.blockLinks) (hy : y ∈ info.blockLinks)
    (h : x.1.codeOffset = y.1.codeOffset) : x = y :=
  List.inj_on_of_nodup_map info.nodup_codeOffset hx hy h

end EmittedBlockInfo

/-- What the links of arm64 code work on: the emission offset and the relocation sites of the code region, and the
tables `block_entries`, `block_infos` and `block_references` of `AddressSpace`. -/
structure AddressSpace (D : Type) where
  offset : Nat
  mem : CodePtr → Option Insn
  blockEntries : D → Option CodePtr
  blockInfos : CodePtr → Option (EmittedBlockInfo D)
  blockReferences : D → List CodePtr

/-- What happens to the cache: `GetOrEmit` of a location (whose block, on a miss, has the link sites `links`), an
invalidation of some locations, or a clear of the whole cache. -/
inductive CacheOp (D : Type) where
  | getOrEmit (descriptor : D) (links : List (BlockRelocationType × D))
  | invalidateBasicBlocks (descriptors : List D)
  | clearCache

namespace AddressSpace

/-- The cache after the prelude: nothing emitted, nothing recorded. -/
def fresh : AddressSpace D where
  offset := cfg.endOfPrelude
  mem _ := none
  blockEntries _ := none
  blockInfos _ := none
  blockReferences _ := []

/-- `Get`. -/
def get (s : AddressSpace D) (descriptor : D) : Option CodePtr :=
  s.blockEntries descriptor

/-- `GetRemainingSize`. -/
def getRemainingSize (s : AddressSpace D) : Nat :=
  cfg.codeCacheSize - s.offset

/-- `ClearCache`: every table emptied, emission again from the end of the prelude. -/
def clearCache (s : AddressSpace D) : AddressSpace D :=
  { s with
    offset := cfg.endOfPrelude
    blockEntries := fun _ => none
    blockInfos := fun _ => none
    blockReferences := fun _ => [] }

/-- `EmitArm64` as far as links go: the block at the emission offset, its sites holding their placeholders. -/
def emitArm64 (s : AddressSpace D) (links : List (BlockRelocationType × D)) : AddressSpace D × EmittedBlockInfo D :=
  let info := EmittedBlockInfo.ofLinks s.offset links
  ({ s with
      offset := s.offset + info.size
      mem := Memory.writeEach s.mem info.blockLinks (fun x => info.entryPoint + x.1.codeOffset)
        (fun x => some (placeholder x.1.type)) }, info)

/-- `LinkBlockLinks`: the relocations of one target in the block at `entryPoint`, for the entry point `targetPtr`. -/
def linkBlockLinks (s : AddressSpace D) (entryPoint : CodePtr) (targetPtr : Option CodePtr)
    (blockRelocationsList : List BlockRelocation) : AddressSpace D :=
  { s with
    mem := Memory.writeEach s.mem blockRelocationsList (fun r => entryPoint + r.codeOffset)
      (fun r => some (linkBlockLink cfg r.type targetPtr)) }

variable [DecidableEq D]

/-- The body of `Link`'s loop over `block_relocations`, for one target: the block joins the target's references, and
its relocations of the target get the target's entry point as `Get` gives it now. -/
def linkBlockRelocations (info : EmittedBlockInfo D) (s : AddressSpace D) (targetDescriptor : D) : AddressSpace D :=
  let references := (s.blockReferences targetDescriptor).insert info.entryPoint
  let s := { s with blockReferences := Function.update s.blockReferences targetDescriptor references }
  s.linkBlockLinks cfg info.entryPoint (s.get targetDescriptor) (info.blockRelocations targetDescriptor)

/-- `Link`, for the block relocations. -/
def link (s : AddressSpace D) (info : EmittedBlockInfo D) : AddressSpace D :=
  info.targets.foldl (linkBlockRelocations cfg info) s

/-- The body of `RelinkForDescriptor`'s loop, for one referencing block: its relocations of the target, if it is still
in `block_infos`. -/
def relinkBlock (targetDescriptor : D) (targetPtr : Option CodePtr) (s : AddressSpace D) (codePtr : CodePtr) :
    AddressSpace D :=
  match s.blockInfos codePtr with
  | some blockInfo => s.linkBlockLinks cfg blockInfo.entryPoint targetPtr (blockInfo.blockRelocations targetDescriptor)
  | none => s

/-- `RelinkForDescriptor`: every block that references the target gets its relocations of the target rewritten. -/
def relinkForDescriptor (s : AddressSpace D) (targetDescriptor : D) (targetPtr : Option CodePtr) : AddressSpace D :=
  (s.blockReferences targetDescriptor).foldl (relinkBlock cfg targetDescriptor targetPtr) s

/-- The three `insert`s of `Emit`, into `block_entries`, `reverse_block_entries` (not modelled) and `block_infos`. -/
def insertBlock (s : AddressSpace D) (location : D) (info : EmittedBlockInfo D) : AddressSpace D :=
  { s with
    blockEntries := Function.update s.blockEntries location (some info.entryPoint)
    blockInfos := Function.update s.blockInfos info.entryPoint (some info) }

/-- `Emit`: clear the cache if less than 1 MiB remains, emit the block, register it, link its relocations, and relink
every block that references its location. -/
def emit (s : AddressSpace D) (location : D) (links : List (BlockRelocationType × D)) : AddressSpace D × CodePtr :=
  let s := if s.getRemainingSize cfg < minimumRemainingCodesize then s.clearCache cfg else s
  let r := s.emitArm64 links
  let s := (r.1.insertBlock location r.2).link cfg r.2
  (s.relinkForDescriptor cfg location (some r.2.entryPoint), r.2.entryPoint)

/-- `GetOrEmit`. -/
def getOrEmit (s : AddressSpace D) (descriptor : D) (links : List (BlockRelocationType × D)) :
    AddressSpace D × CodePtr :=
  match s.get descriptor with
  | some blockEntry => (s, blockEntry)
  | none => s.emit cfg descriptor links

/-- `InvalidateBasicBlocks`: every listed location that has a block is relinked to no entry point and loses its block;
the block stays in `block_infos`. -/
def invalidateBasicBlocks (s : AddressSpace D) (descriptors : List D) : AddressSpace D :=
  descriptors.foldl (fun s descriptor =>
    if (s.blockEntries descriptor).isSome then
      let s := s.relinkForDescriptor cfg descriptor none
      { s with blockEntries := Function.update s.blockEntries descriptor none }
    else s) s

/-- One operation on the cache. -/
def step (s : AddressSpace D) : CacheOp D → AddressSpace D
  | .getOrEmit descriptor links => (s.getOrEmit cfg descriptor links).1
  | .invalidateBasicBlocks descriptors => s.invalidateBasicBlocks cfg descriptors
  | .clearCache => s.clearCache cfg

/-! ### Field lemmas and the writes of each operation -/

section Fields

omit [DecidableEq D]

variable (s : AddressSpace D)

@[simp] theorem offset_linkBlockLinks (entryPoint : CodePtr) (targetPtr : Option CodePtr) (l : List BlockRelocation) :
    (s.linkBlockLinks cfg entryPoint targetPtr l).offset = s.offset := rfl
@[simp] theorem blockEntries_linkBlockLinks (entryPoint : CodePtr) (targetPtr : Option CodePtr)
    (l : List BlockRelocation) : (s.linkBlockLinks cfg entryPoint targetPtr l).blockEntries = s.blockEntries := rfl
@[simp] theorem blockInfos_linkBlockLinks (entryPoint : CodePtr) (targetPtr : Option CodePtr)
    (l : List BlockRelocation) : (s.linkBlockLinks cfg entryPoint targetPtr l).blockInfos = s.blockInfos := rfl
@[simp] theorem blockReferences_linkBlockLinks (entryPoint : CodePtr) (targetPtr : Option CodePtr)
    (l : List BlockRelocation) :
    (s.linkBlockLinks cfg entryPoint targetPtr l).blockReferences = s.blockReferences := rfl

end Fields

/-- The sites `RelinkForDescriptor` writes in the block at `codePtr`: its relocations of the target, with the block's
entry point. -/
def relinkSites (blockInfos : CodePtr → Option (EmittedBlockInfo D)) (targetDescriptor : D) (codePtr : CodePtr) :
    List (CodePtr × BlockRelocation) :=
  match blockInfos codePtr with
  | some blockInfo => (blockInfo.blockRelocations targetDescriptor).map (blockInfo.entryPoint, ·)
  | none => []

/-- The sites `RelinkForDescriptor` rewrites for `t` are the relocations to `t` of the blocks it is given, each at the
entry point of its block. -/
theorem mem_flatMap_relinkSites {blockInfos : CodePtr → Option (EmittedBlockInfo D)} {t : D} {L : List CodePtr}
    {y : CodePtr × BlockRelocation} :
    y ∈ L.flatMap (relinkSites blockInfos t) ↔
      ∃ c info, c ∈ L ∧ blockInfos c = some info ∧ (y.2, t) ∈ info.blockLinks ∧ y.1 = info.entryPoint := by
  simp only [List.mem_flatMap]
  constructor
  · rintro ⟨c, hc, hy⟩
    unfold relinkSites at hy
    cases hinfo : blockInfos c with
    | none => simp [hinfo] at hy
    | some info =>
      rw [hinfo] at hy
      obtain ⟨r, hr, rfl⟩ := List.mem_map.1 hy
      exact ⟨c, info, hc, hinfo, EmittedBlockInfo.mem_blockRelocations.1 hr, rfl⟩
  · rintro ⟨c, info, hc, hinfo, hy, hy₁⟩
    refine ⟨c, hc, ?_⟩
    unfold relinkSites
    rw [hinfo]
    exact List.mem_map.2 ⟨y.2, EmittedBlockInfo.mem_blockRelocations.2 hy, by rw [← hy₁]⟩

/-- `RelinkBlock` writes, at each relocation to `t` in the block at `c`, the link instruction for the entry point `p`.
-/
theorem relinkBlock_eq (t : D) (p : Option CodePtr) (s : AddressSpace D) (c : CodePtr) :
    relinkBlock cfg t p s c =
      { s with
        mem := Memory.writeEach s.mem (relinkSites s.blockInfos t c) (fun x => x.1 + x.2.codeOffset)
          (fun x => some (linkBlockLink cfg x.2.type p)) } := by
  unfold relinkBlock relinkSites
  cases s.blockInfos c with
  | none => rfl
  | some info =>
    simp only [linkBlockLinks, Memory.writeEach_map]
    rfl

/-- `RelinkForDescriptor` writes the relocations of the target in every referencing block, and nothing else. -/
theorem relinkForDescriptor_eq (s : AddressSpace D) (t : D) (p : Option CodePtr) :
    s.relinkForDescriptor cfg t p =
      { s with
        mem := Memory.writeEach s.mem ((s.blockReferences t).flatMap (relinkSites s.blockInfos t))
          (fun x => x.1 + x.2.codeOffset) (fun x => some (linkBlockLink cfg x.2.type p)) } := by
  unfold relinkForDescriptor
  -- the loop reads `block_infos`, which it never changes
  suffices h : ∀ (L : List CodePtr) (s' : AddressSpace D), s'.blockInfos = s.blockInfos →
      L.foldl (relinkBlock cfg t p) s' =
        { s' with
          mem := Memory.writeEach s'.mem (L.flatMap (relinkSites s.blockInfos t)) (fun x => x.1 + x.2.codeOffset)
            (fun x => some (linkBlockLink cfg x.2.type p)) } from h _ s rfl
  intro L
  induction L with
  | nil => intro s' _; rfl
  | cons c L ih =>
    intro s' hs'
    rw [List.foldl_cons, relinkBlock_eq, ih _ ?_, List.flatMap_cons, Memory.writeEach_append, hs']
    exact hs'

@[simp] theorem offset_relinkForDescriptor (s : AddressSpace D) (t : D) (p : Option CodePtr) :
    (s.relinkForDescriptor cfg t p).offset = s.offset := by
  rw [relinkForDescriptor_eq]

@[simp] theorem blockEntries_relinkForDescriptor (s : AddressSpace D) (t : D) (p : Option CodePtr) :
    (s.relinkForDescriptor cfg t p).blockEntries = s.blockEntries := by
  rw [relinkForDescriptor_eq]

@[simp] theorem blockInfos_relinkForDescriptor (s : AddressSpace D) (t : D) (p : Option CodePtr) :
    (s.relinkForDescriptor cfg t p).blockInfos = s.blockInfos := by
  rw [relinkForDescriptor_eq]

@[simp] theorem blockReferences_relinkForDescriptor (s : AddressSpace D) (t : D) (p : Option CodePtr) :
    (s.relinkForDescriptor cfg t p).blockReferences = s.blockReferences := by
  rw [relinkForDescriptor_eq]

/-- `LinkBlockRelocations` writes, at each relocation of the block to `t`, the link instruction for `t`'s entry point.
-/
theorem linkBlockRelocations_eq (info : EmittedBlockInfo D) (s : AddressSpace D) (t : D) :
    linkBlockRelocations cfg info s t =
      { s with
        mem := Memory.writeEach s.mem ((info.blockRelocations t).map (t, ·)) (fun x => info.entryPoint + x.2.codeOffset)
          (fun x => some (linkBlockLink cfg x.2.type (s.get x.1)))
        blockReferences := Function.update s.blockReferences t ((s.blockReferences t).insert info.entryPoint) } := by
  simp only [linkBlockRelocations, linkBlockLinks, Memory.writeEach_map]
  rfl

/-- `Link` leaves the offset and the tables of blocks as they are. -/
theorem link_tables (s : AddressSpace D) (info : EmittedBlockInfo D) :
    (s.link cfg info).offset = s.offset ∧ (s.link cfg info).blockEntries = s.blockEntries ∧
      (s.link cfg info).blockInfos = s.blockInfos :=
  Run.foldl_invariant (fun s' : AddressSpace D =>
      s'.offset = s.offset ∧ s'.blockEntries = s.blockEntries ∧ s'.blockInfos = s.blockInfos)
    (fun s' t h' => by rw [linkBlockRelocations_eq]; exact h') ⟨rfl, rfl, rfl⟩ info.targets

/-- `Link` writes every relocation of the block for its target's entry point as `Get` gives it. -/
theorem link_mem (s : AddressSpace D) (info : EmittedBlockInfo D) :
    (s.link cfg info).mem = Memory.writeEach s.mem info.linkSites (fun x => info.entryPoint + x.2.codeOffset)
      (fun x => some (linkBlockLink cfg x.2.type (s.get x.1))) := by
  unfold link EmittedBlockInfo.linkSites
  -- the loop reads `block_entries`, which it never changes
  suffices h : ∀ (L : List D) (s' : AddressSpace D), s'.blockEntries = s.blockEntries →
      (L.foldl (linkBlockRelocations cfg info) s').mem = Memory.writeEach s'.mem
        (L.flatMap fun t => (info.blockRelocations t).map (t, ·)) (fun x => info.entryPoint + x.2.codeOffset)
        (fun x => some (linkBlockLink cfg x.2.type (s.get x.1))) from h _ s rfl
  intro L
  induction L with
  | nil => intro s' _; rfl
  | cons t L ih =>
    intro s' hs'
    rw [List.foldl_cons, ih _ (by rw [linkBlockRelocations_eq]; exact hs'), linkBlockRelocations_eq,
      List.flatMap_cons, Memory.writeEach_append]
    simp only [get, hs']

/-- After `Link`, the block references every target of its relocations. -/
theorem mem_blockReferences_link {s : AddressSpace D} {info : EmittedBlockInfo D} {c : CodePtr} {t : D} :
    c ∈ (s.link cfg info).blockReferences t ↔ c ∈ s.blockReferences t ∨ (c = info.entryPoint ∧ t ∈ info.targets) := by
  unfold link
  induction info.targets generalizing s with
  | nil => simp
  | cons t' L ih =>
    rw [List.foldl_cons, ih, linkBlockRelocations_eq]
    by_cases ht : t = t'
    · subst ht
      simp only [Function.update_self, List.mem_insert_iff, List.mem_cons, true_or, and_true]
      tauto
    · simp only [Function.update_of_ne ht, List.mem_cons, ht, false_or]

/-! ### Blocks lie apart, so their sites do -/

/-- The layout of the blocks in `block_infos`: each at its own entry point, below the emission offset, and apart from
each other. -/
structure Layout (s : AddressSpace D) : Prop where
  entryPoint_eq : ∀ c info, s.blockInfos c = some info → info.entryPoint = c
  end_le_offset : ∀ c info, s.blockInfos c = some info → c + info.size ≤ s.offset
  disjoint : ∀ c info c' info', s.blockInfos c = some info → s.blockInfos c' = some info' → c < c' →
    c + info.size ≤ c'

namespace Layout

variable {cfg} {s : AddressSpace D}

omit [DecidableEq D] in
/-- The layout depends on `block_infos` and the offset only. -/
theorem congr (h : Layout s) {s' : AddressSpace D} (hinfos : s'.blockInfos = s.blockInfos)
    (hoffset : s'.offset = s.offset) : Layout s' where
  entryPoint_eq c info hc := h.entryPoint_eq c info (hinfos ▸ hc)
  end_le_offset c info hc := hoffset ▸ h.end_le_offset c info (hinfos ▸ hc)
  disjoint c info c' info' hc hc' := h.disjoint c info c' info' (hinfos ▸ hc) (hinfos ▸ hc')

omit [DecidableEq D] in
/-- A site of a block lies below the emission offset. -/
theorem site_lt_offset (h : Layout s) {c : CodePtr} {info : EmittedBlockInfo D} (hc : s.blockInfos c = some info)
    {x : BlockRelocation × D} (hx : x ∈ info.blockLinks) : c + x.1.codeOffset < s.offset := by
  calc c + x.1.codeOffset < c + info.size := Nat.add_lt_add_left (info.codeOffset_lt_size x hx) c
    _ ≤ s.offset := h.end_le_offset c info hc

omit [DecidableEq D] in
/-- No block starts at the emission offset: `Emit`'s `insert` into `block_infos` always succeeds. -/
theorem blockInfos_offset (h : Layout s) : s.blockInfos s.offset = none := by
  cases hc : s.blockInfos s.offset with
  | none => rfl
  | some info =>
    have h₁ : s.offset + info.size ≤ s.offset := h.end_le_offset _ info hc
    exact absurd h₁ (Nat.not_le_of_lt (Nat.lt_add_of_pos_right info.size_pos))

omit [DecidableEq D] in
/-- Two sites of blocks at the same address are the same relocation of the same block. -/
theorem site_inj (h : Layout s) {c c' : CodePtr} {info info' : EmittedBlockInfo D} {x x' : BlockRelocation × D}
    (hc : s.blockInfos c = some info) (hx : x ∈ info.blockLinks) (hc' : s.blockInfos c' = some info')
    (hx' : x' ∈ info'.blockLinks) (heq : c + x.1.codeOffset = c' + x'.1.codeOffset) : c = c' ∧ x = x' := by
  have hlt := info.codeOffset_lt_size x hx
  have hlt' := info'.codeOffset_lt_size x' hx'
  rcases lt_trichotomy c c' with hcc | rfl | hcc
  · -- the first block ends before the second starts
    have := h.disjoint c info c' info' hc hc' hcc
    grind
  · rw [hc] at hc'
    cases hc'
    exact ⟨rfl, info.eq_of_codeOffset_eq hx hx' (Nat.add_left_cancel heq)⟩
  · have := h.disjoint c' info' c info hc' hc hcc
    grind

/-- `RelinkForDescriptor` writes the target's entry point at each relocation of the target in a referencing block. -/
theorem relink_mem_target (h : Layout s) {c : CodePtr} {info : EmittedBlockInfo D} {x : BlockRelocation × D} {t : D}
    (hc : s.blockInfos c = some info) (hx : x ∈ info.blockLinks) (hxt : x.2 = t) (href : c ∈ s.blockReferences t)
    (p : Option CodePtr) :
    (s.relinkForDescriptor cfg t p).mem (c + x.1.codeOffset) = some (linkBlockLink cfg x.1.type p) := by
  rw [relinkForDescriptor_eq]
  have hx' : (x.1, t) ∈ info.blockLinks := hxt ▸ hx
  have hmem : (c, x.1) ∈ (s.blockReferences t).flatMap (relinkSites s.blockInfos t) :=
    mem_flatMap_relinkSites.2 ⟨c, info, href, hc, hx', (h.entryPoint_eq c info hc).symm⟩
  refine Memory.writeEach_of_mem _ _ hmem rfl ?_
  intro y hy hya
  obtain ⟨c', info', -, hc', hy', hy₁⟩ := mem_flatMap_relinkSites.1 hy
  rw [hy₁, h.entryPoint_eq c' info' hc'] at hya
  obtain ⟨-, hyx⟩ := h.site_inj hc' hy' hc hx' hya
  rw [← (Prod.mk.inj hyx).1]

/-- `RelinkForDescriptor` writes no relocation of another target. -/
theorem relink_mem_other (h : Layout s) {c : CodePtr} {info : EmittedBlockInfo D} {x : BlockRelocation × D} {t : D}
    (hc : s.blockInfos c = some info) (hx : x ∈ info.blockLinks) (hxt : x.2 ≠ t) (p : Option CodePtr) :
    (s.relinkForDescriptor cfg t p).mem (c + x.1.codeOffset) = s.mem (c + x.1.codeOffset) := by
  rw [relinkForDescriptor_eq]
  refine Memory.writeEach_of_forall_ne (fun y : CodePtr × BlockRelocation => y.1 + y.2.codeOffset) _ ?_
  intro y hy hya
  obtain ⟨c', info', -, hc', hy', hy₁⟩ := mem_flatMap_relinkSites.1 hy
  rw [hy₁, h.entryPoint_eq c' info' hc'] at hya
  obtain ⟨-, hyx⟩ := h.site_inj hc' hy' hc hx hya
  exact hxt (hyx ▸ rfl)

/-- Writing a block at the emission offset keeps the blocks apart: every older block ends at or before it. -/
theorem insertBlock_emitArm64 (h : Layout s) (location : D) (links : List (BlockRelocationType × D)) :
    Layout ((s.emitArm64 links).1.insertBlock location (s.emitArm64 links).2) := by
  have hold : ∀ c info, s.blockInfos c = some info → c < s.offset := fun c info hc =>
    Nat.lt_of_lt_of_le (Nat.lt_add_of_pos_right info.size_pos) (h.end_le_offset c info hc)
  constructor
  · intro c info hc
    by_cases hce : c = s.offset
    · subst hce
      simp only [insertBlock, emitArm64, EmittedBlockInfo.ofLinks, Function.update_self, Option.some.injEq] at hc
      rw [← hc]
    · simp only [insertBlock, emitArm64, EmittedBlockInfo.ofLinks, Function.update_of_ne hce] at hc
      exact h.entryPoint_eq c info hc
  · intro c info hc
    by_cases hce : c = s.offset
    · subst hce
      simp only [insertBlock, emitArm64, EmittedBlockInfo.ofLinks, Function.update_self, Option.some.injEq] at hc
      rw [← hc]
      exact Nat.le_refl _
    · simp only [insertBlock, emitArm64, EmittedBlockInfo.ofLinks, Function.update_of_ne hce] at hc
      exact Nat.le_trans (h.end_le_offset c info hc) (Nat.le_add_right _ _)
  · intro c info c' info' hc hc' hcc
    by_cases hce : c = s.offset <;> by_cases hce' : c' = s.offset
    · exact absurd (hce ▸ hce' ▸ hcc) (Nat.lt_irrefl _)
    · -- the new block cannot lie before an older one
      simp only [insertBlock, emitArm64, EmittedBlockInfo.ofLinks, Function.update_of_ne hce'] at hc'
      exact absurd (hce ▸ hcc) (Nat.not_lt_of_gt (hold c' info' hc'))
    · simp only [insertBlock, emitArm64, EmittedBlockInfo.ofLinks, Function.update_of_ne hce] at hc
      exact hce' ▸ h.end_le_offset c info hc
    · simp only [insertBlock, emitArm64, EmittedBlockInfo.ofLinks, Function.update_of_ne hce,
        Function.update_of_ne hce'] at hc hc'
      exact h.disjoint c info c' info' hc hc' hcc

end Layout

/-! ### Every site of an emitted block holds the code for its target's current entry point -/

/-- The invariant of the relocation sites: the blocks lie apart, each references the targets of its relocations, each
registered location has an emitted block, and every site of every emitted block holds the instruction for its target's
current entry point. Blocks of invalidated locations stay in `block_infos` and are kept up to date as well. -/
structure LinksLive (s : AddressSpace D) : Prop extends Layout s where
  referenced : ∀ c info, s.blockInfos c = some info → ∀ x ∈ info.blockLinks, c ∈ s.blockReferences x.2
  entries_emitted : ∀ d c, s.blockEntries d = some c → ∃ info, s.blockInfos c = some info
  links_live : ∀ c info, s.blockInfos c = some info → ∀ x ∈ info.blockLinks,
    s.mem (c + x.1.codeOffset) = some (linkBlockLink cfg x.1.type (s.get x.2))

namespace LinksLive

variable {cfg} {s : AddressSpace D}

omit [DecidableEq D] in
/-- The empty address space has no blocks, so the invariant holds. -/
theorem fresh : LinksLive cfg (AddressSpace.fresh cfg : AddressSpace D) where
  entryPoint_eq _ _ hc := by cases hc
  end_le_offset _ _ hc := by cases hc
  disjoint _ _ _ _ hc := by cases hc
  referenced _ _ hc := by cases hc
  entries_emitted _ _ hc := by cases hc
  links_live _ _ hc := by cases hc

omit [DecidableEq D] in
/-- `ClearCache` forgets every block, so the invariant holds after it. -/
theorem clearCache (s : AddressSpace D) : LinksLive cfg (s.clearCache cfg) where
  entryPoint_eq _ _ hc := by cases hc
  end_le_offset _ _ hc := by cases hc
  disjoint _ _ _ _ hc := by cases hc
  referenced _ _ hc := by cases hc
  entries_emitted _ _ hc := by cases hc
  links_live _ _ hc := by cases hc

/-- The loop body of `InvalidateBasicBlocks` for a registered location: relinked to no entry point, then dropped from
`block_entries`. -/
theorem relink_erase (h : LinksLive cfg s) (d : D) :
    LinksLive cfg { s.relinkForDescriptor cfg d none with
      blockEntries := Function.update (s.relinkForDescriptor cfg d none).blockEntries d none } where
  toLayout := h.toLayout.congr (blockInfos_relinkForDescriptor cfg s d none) (offset_relinkForDescriptor cfg s d none)
  referenced c info hc x hx := by
    simp only [blockInfos_relinkForDescriptor, blockReferences_relinkForDescriptor] at hc ⊢
    exact h.referenced c info hc x hx
  entries_emitted d' c hd' := by
    by_cases hdd : d' = d
    · subst hdd
      simp at hd'
    · simp only [Function.update_of_ne hdd, blockEntries_relinkForDescriptor] at hd'
      simpa only [blockInfos_relinkForDescriptor] using h.entries_emitted d' c hd'
  links_live c info hc x hx := by
    simp only [blockInfos_relinkForDescriptor] at hc
    show (s.relinkForDescriptor cfg d none).mem _ =
      some (linkBlockLink cfg x.1.type (Function.update (s.relinkForDescriptor cfg d none).blockEntries d none x.2))
    rw [blockEntries_relinkForDescriptor]
    by_cases hxd : x.2 = d
    · -- a site of the invalidated location now holds the fallback
      have href : c ∈ s.blockReferences d := hxd ▸ h.referenced c info hc x hx
      rw [h.toLayout.relink_mem_target hc hx hxd href, hxd, Function.update_self]
    · rw [h.toLayout.relink_mem_other hc hx hxd, Function.update_of_ne hxd]
      exact h.links_live c info hc x hx

/-- `InvalidateBasicBlocks` keeps the invariant: each erased location is unlinked and its referencing sites are
relinked. -/
theorem invalidateBasicBlocks (h : LinksLive cfg s) (descriptors : List D) :
    LinksLive cfg (s.invalidateBasicBlocks cfg descriptors) := by
  refine Run.foldl_invariant (LinksLive cfg) ?_ h descriptors
  intro s' d h'
  by_cases hd : (s'.blockEntries d).isSome
  · simp only [hd, if_true]
    exact h'.relink_erase d
  · simp only [hd, Bool.false_eq_true, if_false]
    exact h'

/-- The end of `Emit`, from the state `s` before the block was written and the state `s₂` after the block was written
and registered: linking the new block's relocations and relinking its location give back the invariant. -/
theorem link_relink (h : LinksLive cfg s) {s₂ : AddressSpace D} {info : EmittedBlockInfo D} {location : D}
    (hentry : info.entryPoint = s.offset) (hl₂ : Layout s₂)
    (hinfos : s₂.blockInfos = Function.update s.blockInfos s.offset (some info))
    (hentries : s₂.blockEntries = Function.update s.blockEntries location (some s.offset))
    (hrefs : s₂.blockReferences = s.blockReferences)
    (hmem : ∀ c ci, s.blockInfos c = some ci → ∀ x ∈ ci.blockLinks,
      s₂.mem (c + x.1.codeOffset) = s.mem (c + x.1.codeOffset)) :
    LinksLive cfg ((s₂.link cfg info).relinkForDescriptor cfg location (some s.offset)) := by
  obtain ⟨hoffset₃, hentries₃, hinfos₃⟩ := link_tables cfg s₂ info
  have hl₃ : Layout (s₂.link cfg info) := hl₂.congr hinfos₃ hoffset₃
  have hcases : ∀ c ci, s₂.blockInfos c = some ci →
      (c = s.offset ∧ ci = info) ∨ (c + ci.size ≤ s.offset ∧ s.blockInfos c = some ci) := by
    intro c ci hc
    by_cases hce : c = s.offset
    · subst hce
      rw [hinfos, Function.update_self, Option.some.injEq] at hc
      exact Or.inl ⟨rfl, hc.symm⟩
    · rw [hinfos, Function.update_of_ne hce] at hc
      exact Or.inr ⟨h.end_le_offset c ci hc, hc⟩
  have hget : ∀ t, t ≠ location → s₂.get t = s.get t := fun t ht => by
    simp only [get, hentries, Function.update_of_ne ht]
  have href₃ : ∀ c ci, s₂.blockInfos c = some ci → ∀ x ∈ ci.blockLinks,
      c ∈ (s₂.link cfg info).blockReferences x.2 := by
    intro c ci hc x hx
    rw [mem_blockReferences_link]
    rcases hcases c ci hc with ⟨rfl, rfl⟩ | ⟨-, hc⟩
    · exact Or.inr ⟨hentry.symm, List.mem_dedup.2 (List.mem_map_of_mem hx)⟩
    · exact Or.inl (hrefs ▸ h.referenced c ci hc x hx)
  refine ⟨hl₃.congr (blockInfos_relinkForDescriptor cfg _ _ _) (offset_relinkForDescriptor cfg _ _ _), ?_, ?_, ?_⟩
  · -- referenced
    intro c ci hc x hx
    simp only [blockInfos_relinkForDescriptor, blockReferences_relinkForDescriptor, hinfos₃] at hc ⊢
    exact href₃ c ci hc x hx
  · -- entries_emitted
    intro d c hd
    simp only [blockEntries_relinkForDescriptor, blockInfos_relinkForDescriptor, hentries₃, hinfos₃, hentries] at hd ⊢
    by_cases hdl : d = location
    · subst hdl
      rw [Function.update_self, Option.some.injEq] at hd
      subst hd
      exact ⟨info, by rw [hinfos, Function.update_self]⟩
    · rw [Function.update_of_ne hdl] at hd
      obtain ⟨ci, hci⟩ := h.entries_emitted d c hd
      refine ⟨ci, ?_⟩
      have hne : c ≠ s.offset := fun hce => by
        rw [hce, h.toLayout.blockInfos_offset] at hci
        cases hci
      rw [hinfos, Function.update_of_ne hne]
      exact hci
  · -- links_live
    intro c ci hc x hx
    simp only [blockInfos_relinkForDescriptor, hinfos₃] at hc
    have hc₃ : (s₂.link cfg info).blockInfos c = some ci := by rw [hinfos₃]; exact hc
    have hget₄ : ((s₂.link cfg info).relinkForDescriptor cfg location (some s.offset)).get x.2 = s₂.get x.2 := by
      simp only [get, blockEntries_relinkForDescriptor, hentries₃]
    rw [hget₄]
    by_cases hxl : x.2 = location
    · -- a site that links to the new block's location: relinked to its entry point
      rw [hl₃.relink_mem_target hc₃ hx hxl (hxl ▸ href₃ c ci hc x hx) (some s.offset)]
      simp only [get, hentries, hxl, Function.update_self]
    · rw [hl₃.relink_mem_other hc₃ hx hxl, link_mem, hget x.2 hxl]
      rcases hcases c ci hc with ⟨rfl, rfl⟩ | ⟨hend, hc⟩
      · -- a site of the new block: `Link` wrote it, and wrote nothing else at its address
        have hmem' : (x.2, x.1) ∈ ci.linkSites := EmittedBlockInfo.mem_linkSites.2 hx
        rw [Memory.writeEach_of_mem _ _ hmem' (by rw [hentry]) ?_]
        · simp only [hget x.2 hxl]
        · intro y hy hya
          have hy' := EmittedBlockInfo.mem_linkSites.2 (EmittedBlockInfo.mem_linkSites.1 hy)
          have hyx : (y.2, y.1) = x := ci.eq_of_codeOffset_eq (EmittedBlockInfo.mem_linkSites.1 hy) hx
            (Nat.add_left_cancel (hentry ▸ hya))
          rw [← hyx]
      · -- a site of an older block: `Link` did not write it, nor did the emission
        rw [Memory.writeEach_of_forall_ne _ _ ?_, hmem c ci hc x hx]
        · exact h.links_live c ci hc x hx
        · intro y _ hya
          have hlt : c + x.1.codeOffset < s.offset :=
            Nat.lt_of_lt_of_le (Nat.add_lt_add_left (ci.codeOffset_lt_size x hx) c) hend
          rw [← hya, hentry] at hlt
          exact absurd hlt (Nat.not_lt_of_ge (Nat.le_add_right _ _))

/-- `Emit`: a clear if space is low, then the block written, registered, linked and relinked. -/
theorem emit (h : LinksLive cfg s) (location : D) (links : List (BlockRelocationType × D)) :
    LinksLive cfg (s.emit cfg location links).1 := by
  unfold AddressSpace.emit
  have h₀ : LinksLive cfg (if s.getRemainingSize cfg < minimumRemainingCodesize then s.clearCache cfg else s) := by
    split
    · exact clearCache s
    · exact h
  generalize (if s.getRemainingSize cfg < minimumRemainingCodesize then s.clearCache cfg else s) = s₀ at h₀ ⊢
  refine h₀.link_relink rfl (h₀.toLayout.insertBlock_emitArm64 location links) rfl rfl rfl ?_
  -- the placeholders go at the new block's sites, above every older one
  intro c ci hc x hx
  refine Memory.writeEach_of_forall_ne _ _ ?_
  intro y _ hya
  have hlt : c + x.1.codeOffset < s₀.offset := h₀.toLayout.site_lt_offset hc hx
  rw [← hya] at hlt
  exact absurd hlt (Nat.not_lt_of_ge (Nat.le_add_right _ _))

/-- `GetOrEmit` keeps the invariant, whether it finds the block or emits it. -/
theorem getOrEmit (h : LinksLive cfg s) (descriptor : D) (links : List (BlockRelocationType × D)) :
    LinksLive cfg (s.getOrEmit cfg descriptor links).1 := by
  unfold AddressSpace.getOrEmit
  cases s.get descriptor with
  | some blockEntry => exact h
  | none => exact h.emit descriptor links

/-- Each operation of the address space keeps the invariant. -/
theorem step (h : LinksLive cfg s) (op : CacheOp D) : LinksLive cfg (s.step cfg op) := by
  cases op with
  | getOrEmit descriptor links => exact h.getOrEmit descriptor links
  | invalidateBasicBlocks descriptors => exact h.invalidateBasicBlocks descriptors
  | clearCache => exact clearCache s

end LinksLive

/-- Every run from the empty cache keeps the invariant, after every operation. -/
theorem links_live_of_run (ops : List (CacheOp D)) : LinksLive cfg (Run.run (step cfg) (fresh cfg) ops) :=
  Run.run_invariant (fun _ op h => h.step op) LinksLive.fresh ops

end AddressSpace

end Arm64

section

variable [DecidableEq D]

/-- The links of both backends target live code. On x64 (A32 code with `FastDispatch`), after every operation of every
run from the empty cache, each recorded patch site holds the patch of its kind for its target's current entry point
(`emitPatch` for no entry point stores the target's PC and jumps to the return-from-run-code address), every entry of
the fast-dispatch table that names a location holds the entry point of that location's block, and after an
invalidation no entry names an invalidated location. On arm64, after every operation of every run, every registered
block has been emitted and each of its relocation sites holds the instruction for its target's current entry point
(`linkBlockLink` for no entry point is the `NOP` that falls through to the return to the dispatcher, or the `ADRL` of
`return_to_dispatcher`). -/
theorem block_links_target_live_code (slot : D → Nat) (x64Ops : List (X64.CacheOp D))
    (arm64Ops : List (Arm64.CacheOp D)) :
    (let e := Run.run (X64.A32EmitX64.step cfg slot) (X64.A32EmitX64.fresh cfg) x64Ops;
      (∀ t k a, a ∈ (e.patchInformation t).sites k →
        e.mem a = some (X64.emitPatch cfg k t (e.blockDescriptors t))) ∧
      (∀ i d, (e.fastDispatchTable i).locationDescriptor = some d →
        ∃ p, e.blockDescriptors d = some p ∧ (e.fastDispatchTable i).codePtr = some p) ∧
      (∀ ds, ∀ d ∈ ds, ∀ i,
        ((e.step cfg slot (.invalidateBasicBlocks ds)).fastDispatchTable i).locationDescriptor ≠ some d)) ∧
    (let s := Run.run (Arm64.AddressSpace.step cfg) (Arm64.AddressSpace.fresh cfg) arm64Ops;
      ∀ d c, s.blockEntries d = some c → ∃ info, s.blockInfos c = some info ∧
        ∀ x ∈ info.blockLinks, s.mem (c + x.1.codeOffset) = some (Arm64.linkBlockLink cfg x.1.type (s.get x.2))) := by
  obtain ⟨hlinks, hdispatch⟩ := X64.A32EmitX64.links_live_of_run cfg slot x64Ops
  have harm := Arm64.AddressSpace.links_live_of_run cfg arm64Ops
  refine ⟨⟨hlinks.sites_live, fun i d hi => (hdispatch i d hi).2, ?_⟩, ?_⟩
  · -- an invalidated location has no block, so no entry can name it
    intro ds d hd i
    have hnone := X64.A32EmitX64.blockDescriptors_invalidateBasicBlocks cfg slot
      (Run.run (X64.A32EmitX64.step cfg slot) (X64.A32EmitX64.fresh cfg) x64Ops) ds d
    rw [if_pos hd] at hnone
    exact (hdispatch.step (.invalidateBasicBlocks ds)).not_named hnone i
  · intro s d c hdc
    obtain ⟨info, hinfo⟩ := harm.entries_emitted d c hdc
    exact ⟨info, hinfo, harm.links_live c info hinfo⟩

end

end Dynarmic.Backend
