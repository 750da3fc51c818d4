import PgAcorn.SharedCache.LoadRun

/-! What a load publishes is complete, page by page (`load_complete_iff`).

A lookup through the slot finds an array or misses: the directory's pointers are zero or
lead to page arrays, and nothing beyond it is read. -/
namespace PgAcorn.SharedCache
open Library
open CodeCache (Key ccNSlots ccMaxDim SlotState CachePage Codec loadElement readEntry)
open Scan (CodeCacheHit)

section
variable {B V Q : Type}

/-! ### Lookups -/

namespace Memory
variable (m : Memory B V Q)

/-- The mapping that `acorn_cc_attach` makes of a slot. -/
def attach (i : Fin ccNSlots) : Handle :=
  let slot := m.slots i
  ⟨slot.areaHandle, true, i, slot.key, slot.blocks, slot.nblocks, slot.dim, slot.generation, 0⟩

/-- `acorn_cc_resolve_blocks`, while nobody else acts: the directory to use, if any; `none`
is a pointer that leads nowhere. -/
def resolveBlocks (h : Handle) (blkno : Nat) : Option (Option Nat) :=
  let slot := m.slots h.slot
  let live : Option Nat :=
    if slot.generation ≠ h.generation ∨ slot.nblocks ≤ blkno then none else some slot.blocks
  if blkno < h.nblocks then
    (m.dirEntry h h.blocksDp blkno).map fun p => if p = 0 then live else some h.blocksDp
  else some live

/-- `acorn_codecache_lookup`, while nobody else acts: a hit or a miss. -/
def lookup (h : Handle) (t : Tid) : Option (Option (CodeCacheHit Q)) :=
  if h.dim = 0 ∨ ccMaxDim < h.dim then some none
  else (m.resolveBlocks h t.blkno).bind fun blocks => match blocks with
    | none => some none
    | some dp => (m.dirEntry h dp t.blkno).bind fun p =>
        if p = 0 then some none
        else (m.pageOf h p).map fun array => readEntry array t.offno

end Memory

/-! ### What a load publishes -/

/-- **A block without an array** makes every lookup miss. -/
theorem Memory.lookup_miss {m : Memory B V Q} {i : Fin ccNSlots} {a : Area Q}
    (ha : m.areas[(m.slots i).areaHandle]? = some a)
    (hdir : IsDirectory a.arena (m.slots i).blocks (m.slots i).nblocks) {t : Tid}
    (hnone : m.published i t.blkno = none) : m.lookup (m.attach i) t = some none := by
  obtain ⟨entries, hget, hlength, hpointers⟩ := hdir
  have hentry : m.dirEntry (m.attach i) (m.slots i).blocks t.blkno = entries[t.blkno]? := by
    rw [dirEntry, areaOf, attach, if_pos rfl, ha, Option.bind_some, Area.dir?, hget, Option.bind_some]
  unfold lookup
  split
  · rfl
  · have hresolve : m.resolveBlocks (m.attach i) t.blkno =
        some (if (m.slots i).nblocks ≤ t.blkno then none else some (m.slots i).blocks) := by
      have hlive : (if (m.slots i).generation ≠ (m.attach i).generation ∨ (m.slots i).nblocks ≤ t.blkno
          then none else some (m.slots i).blocks) =
          if (m.slots i).nblocks ≤ t.blkno then none else some (m.slots i).blocks :=
        if_congr (or_iff_right fun h => h rfl) rfl rfl
      unfold resolveBlocks
      dsimp only
      rw [show (m.attach i).slot = i from rfl, show (m.attach i).blocksDp = (m.slots i).blocks from rfl,
        show (m.attach i).nblocks = (m.slots i).nblocks from rfl, hentry, hlive]
      by_cases hlt : t.blkno < (m.slots i).nblocks
      · rw [if_pos hlt, if_neg (Nat.not_le_of_lt hlt), List.getElem?_eq_getElem (hlength ▸ hlt),
          Option.map_some, ite_self]
      · rw [if_neg hlt]
    rw [hresolve, Option.bind_some]
    by_cases hle : (m.slots i).nblocks ≤ t.blkno
    · rw [if_pos hle]
    · rw [if_neg hle]
      dsimp only
      have hlt : t.blkno < entries.length := by omega
      rw [hentry, List.getElem?_eq_getElem hlt, Option.bind_some]
      -- the pointer is zero, or else the block would have its array
      rcases hpointers _ (List.getElem_mem hlt) with hzero | ⟨array, harray⟩
      · rw [if_pos hzero]
      · rw [published, ha, Option.bind_some, pageArray?, hget] at hnone
        dsimp only at hnone
        rw [List.getElem?_eq_getElem hlt, Option.bind_some, harray] at hnone
        cases hnone

namespace LoadCall
variable {c : LoadCall V Q} {m : Memory B V Q} {i : Fin ccNSlots}

variable (c) in
/-- A loaded slot is complete per page: an array has an entry for each element of the
page with the index's dimension, as it was read, and no other; a block without one is
missed; READY covers all blocks, and PARTIAL those before some block. -/
structure Complete (m : Memory B V Q) (i : Fin ccNSlots) : Prop where
  published : ∀ b array, m.published i b = some array → 1 ≤ b ∧ b < c.nblocks.toNat ∧
    ∀ offno hit, 1 ≤ offno → (array[offno - 1]? = some (some hit) ↔
      ∃ e, (c.read b).items[offno - 1]? = some (.tuple (.element e)) ∧ c.codec.dim e.vec = c.dim ∧
        hit = ⟨e.heaptid, e.neighbortid, e.level, e.deleted, e.filterVal, c.codec.encode e.vec⟩)
  unpublished : ∀ t, m.published i t.blkno = none → m.lookup (m.attach i) t = some none
  ready : (m.slots i).state = .ready → ∀ b e, 1 ≤ b → b < c.nblocks.toNat →
    .tuple (.element e) ∈ (c.read b).items → c.codec.dim e.vec = c.dim →
    (m.published i b).isSome = true
  partialLoad : (m.slots i).state = .partialLoad → ∃ n, ∀ b e, 1 ≤ b → b < c.nblocks.toNat →
    .tuple (.element e) ∈ (c.read b).items → c.codec.dim e.vec = c.dim →
    ((m.published i b).isSome = true ↔ b < n)

/-- The entries of a page's array. -/
theorem entry_eq_some {other : BitVec 64} {item : LinePointer V Q} {hit : CodeCacheHit Q} :
    (c.loading other).entry item = some hit ↔ ∃ e, item = .tuple (.element e) ∧
      c.codec.dim e.vec = c.dim ∧ hit = loadElement c.codec e := by
  unfold Loading.entry
  rw [Option.map_eq_some_iff]
  constructor
  · rintro ⟨e, he, rfl⟩
    unfold LinePointer.element? at he
    split at he
    · split at he
      · rename_i hdim
        cases he
        exact ⟨_, rfl, hdim, rfl⟩
      · cases he
    · cases he
  · rintro ⟨e, rfl, hdim, rfl⟩
    refine ⟨e, ?_, rfl⟩
    show (if c.codec.dim e.vec = c.dim then some e else none) = some e
    rw [if_pos hdim]

theorem holds_of_element {other : BitVec 64} {b : Nat} {e : ElementTuple V}
    (he : .tuple (.element e) ∈ (c.read b).items) (hdim : c.codec.dim e.vec = c.dim) :
    (c.loading other).holds b = true :=
  List.any_eq_true.mpr ⟨_, he, by
    rw [entry_eq_some.mpr ⟨e, rfl, hdim, rfl⟩]
    rfl⟩

/-- The slot with what the loop left, by the state that it ends in. -/
theorem Filled.complete {s : Copy Q} {other : BitVec 64} {b : Nat} {stop : Option Stop}
    (h : c.Filled m i s) (hs : (c.loading other).Copied b s)
    (hends : (c.loading other).EndsAt b stop) (hready : (m.slots i).state = .ready → stop = none) :
    c.Complete m i := by
  have hpages : ∀ b', m.published i b' = if 1 ≤ b' ∧ b' < b ∧ (c.loading other).holds b' = true then
      some ((c.loading other).array b') else none := fun b' => (h.published b').trans (hs.pages b')
  obtain ⟨hb, -, hstop⟩ := hends
  have hbn : ∀ b', 1 ≤ b' → b' < b → b' < c.nblocks.toNat := fun b' hb' hlt => by
    rcases hstop with ⟨-, -, hle⟩ | ⟨hlt', -, -⟩
    · have : (c.loading other).nblocks = c.nblocks := rfl
      rw [this] at hle
      omega
    · exact hlt.trans hlt'
  refine ⟨fun b' array hpub => ?_, fun t hnone => ?_, fun hstate b' e hb' hlt he hdim => ?_,
    fun _ => ⟨b, fun b' e hb' hlt he hdim => ?_⟩⟩
  · rw [hpages] at hpub
    split at hpub
    · rename_i hheld
      cases hpub
      refine ⟨hheld.1, hbn b' hheld.1 hheld.2.1, fun offno hit _ => ?_⟩
      rw [Loading.array, List.getElem?_map, Option.map_eq_some_iff]
      constructor
      · rintro ⟨item, hitem, hentry⟩
        obtain ⟨e, rfl, hdim, rfl⟩ := entry_eq_some.mp hentry
        exact ⟨e, hitem, hdim, rfl⟩
      · rintro ⟨e, hitem, hdim, rfl⟩
        exact ⟨_, hitem, entry_eq_some.mpr ⟨e, rfl, hdim, rfl⟩⟩
    · cases hpub
  · obtain ⟨a, ha, -, harena⟩ := h.area
    refine Memory.lookup_miss ha ?_ hnone
    rw [harena, h.blocks, h.nblocks]
    exact hs.directory
  · have hle : c.nblocks.toNat ≤ b := by
      rcases hstop with ⟨-, hle, -⟩ | ⟨-, hsome, -⟩
      · exact hle
      · rw [hready hstate] at hsome
        cases hsome
    rw [hpages, if_pos ⟨hb', by omega, holds_of_element he hdim⟩]
    rfl
  · rw [hpages]
    have hholds := @holds_of_element V Q c other b' e he hdim
    by_cases hbb : b' < b
    · rw [if_pos ⟨hb', hbb, hholds⟩]
      exact iff_of_true rfl hbb
    · rw [if_neg fun h => hbb h.2.1]
      exact iff_of_false Bool.false_ne_true hbb

/-- **A load whose set-up goes through** publishes complete pages, if it stays in the
directory. -/
theorem load_complete_iff {m₀ : Memory B V Q} (h : m₀.claim i = some m)
    (hsetUp : c.SetUpSucceeds m.residency) :
    (∃ m' e, c.load m i = some (m', e) ∧ c.Complete m' i) ↔ (c.loop m.residency).InDirectory := by
  obtain ⟨m₁, hcreated, heq⟩ := load_eq (Memory.claim_state h) hsetUp
  rw [heq]
  constructor
  · rintro ⟨m', e, hload, -⟩
    by_contra hdir
    rw [Loading.copy_stray hdir] at hload
    cases hload
  · intro hdir
    obtain ⟨b, s, stop, hcopy, hs, hends, -⟩ := Loading.copy_spec hdir
    have hfilled := hcreated.filled s
    have hstate : ((m₁.modifyArena (m₁.slots i).areaHandle fun _ => s.arena).slots i).state =
        .loading := hcreated.state
    rw [hcopy]
    refine ⟨_, _, rfl, ?_⟩
    cases stop with
    | none => exact (hfilled.publish .ready).complete hs hends fun _ => rfl
    | some stop =>
      have hpartial : c.Complete (publish (m₁.modifyArena (m₁.slots i).areaHandle fun _ => s.arena) i s
          .partialLoad) i := (hfilled.publish .partialLoad).complete hs hends fun hready => by
        rw [publish_self] at hready
        cases hready
      cases stop with
      | partialLoad => exact hpartial
      | raised severity =>
        cases severity with
        | error => exact hpartial
        | fatal =>
          refine hfilled.complete hs hends fun hready => ?_
          cases hstate.symm.trans hready

end LoadCall

end

theorem load_complete_iff_small :
    (∃ m' e, (smallCall 3 noFailures).load claimedMemory (0 : Fin 64) = some (m', e) ∧
        (smallCall 3 noFailures).Complete m' (0 : Fin 64)) ↔
      ((smallCall 3 noFailures).loop claimedMemory.residency).InDirectory :=
  @LoadCall.load_complete_iff _ _ _ _ _ _ emptyMemory rfl
    ⟨rfl, fun _ _ _ _ _ _ _ => rfl, rfl, rfl, rfl⟩

/-- An index of 2³² - 1 blocks: its directory has 63 pointers, and the array of block 63 is
written beyond them. -/
theorem directory_overrun : emptyMemory.claim (0 : Fin 64) = some claimedMemory ∧
    (smallCall 4294967295#32 noFailures).SetUpSucceeds claimedMemory.residency ∧
    (smallCall 4294967295#32 noFailures).load claimedMemory (0 : Fin 64) = none := by
  have hsetUp : (smallCall 4294967295#32 noFailures).SetUpSucceeds claimedMemory.residency :=
    ⟨rfl, fun _ _ _ _ _ _ _ => rfl, rfl, rfl, rfl⟩
  refine ⟨rfl, hsetUp, ?_⟩
  obtain ⟨m₁, -, heq⟩ := @LoadCall.load_eq _ _ _ _ claimedMemory (0 : Fin 64) rfl hsetUp
  rw [heq, Loading.copy_stray, Option.map_none]
  intro hdir
  have hreach : ∀ b < 64, 1 ≤ b → ((smallCall 4294967295#32 noFailures).loop
      claimedMemory.residency).stopAt b = none := by decide +kernel
  exact absurd (hdir 63 (by decide) (by decide) (fun c hc hlt => hreach c hlt hc) rfl) (by decide)

end PgAcorn.SharedCache
