import PgAcorn.SharedCache.Copy

/-! `acorn_cc_load` from its claim of the slot to its end.

The backend that moved the slot from EMPTY to LOADING makes room, creates an area with a
directory, publishes both in the slot, copies the pages and sets the slot's state. Only the
copying stands in `PG_TRY`: whatever fails before it, and a FATAL anywhere, leaves the slot
LOADING (`load_settles_iff`). -/
namespace PgAcorn.SharedCache
open Library
open CodeCache (Key ccNSlots SlotState CachePage Codec)

/-- What fails before the loop: `RelationGetNumberOfBlocks`, the eviction of a slot,
`dsa_create`, `dsa_allocate0` or `acorn_cc_attach_store`. -/
structure SetUpFailures where
  countBlocks : Option Severity
  evict : Fin ccNSlots → Option Severity
  create : Option Severity
  directory : Option Severity
  attach : Option Severity

/-- A call of `acorn_cc_load`, with what the server answers it. -/
structure LoadCall (V Q : Type) where
  key : Key
  codec : Codec V Q
  dim : Nat
  sizeMb : Nat
  nblocks : BitVec 32
  read : Nat → PageRead V Q
  fails : SetUpFailures

section
variable {B V Q : Type}

/-! ### Eviction -/

namespace Memory

/-- `acorn_cc_evict_slot`; an area that cannot be attached keeps its pin. -/
def evictSlot (m : Memory B V Q) (i : Fin ccNSlots) (attached : Bool) : Memory B V Q :=
  let slot := m.slots i
  { m with
    total := (m.residency.evictSlot i).total
    slots := (m.residency.evictSlot i).slots
    areas := if attached ∧ slot.activeScans = 0 ∧ slot.areaPinned then
        m.areas.modify slot.areaHandle Area.unpin
      else m.areas }

/-- `acorn_cc_evict_to_fit`, until an eviction fails. -/
def evictToFit (fails : Fin ccNSlots → Option Severity) (need budget : BitVec 64) :
    Nat → Memory B V Q → Memory B V Q × Option Severity
  | 0, m => (m, none)
  | fuel + 1, m =>
    if m.total + need ≤ budget then (m, none)
    else match m.residency.victim with
      | none => (m, none)
      | some i => match fails i with
        | some severity => (m.evictSlot i false, some severity)
        | none => evictToFit fails need budget fuel (m.evictSlot i true)

/-- The compare-and-swap of `acorn_codecache_begin_scan`, from EMPTY to LOADING. -/
def claim (m : Memory B V Q) (i : Fin ccNSlots) : Option (Memory B V Q) :=
  if (m.slots i).state = .empty then some (m.setSlot i { m.slots i with state := .loading }) else none

end Memory

/-! ### The load -/

namespace LoadCall
variable (c : LoadCall V Q)

def budget : BitVec 64 := BitVec.ofNat 64 (c.sizeMb * 1024 * 1024)

/-- The loop, beside so many bytes of other slots. -/
def loading (other : BitVec 64) : Loading V Q :=
  ⟨c.codec, c.dim, c.budget, other, c.nblocks, c.read⟩

/-- `projected`. -/
def need : BitVec 64 :=
  let maxElems := c.nblocks.toNat * (blckSz / max (elementTupleSize (8 + c.dim * 4)) 1)
  BitVec.ofNat 64 (maxElems * (ccEntryStride c.dim + ccPerElemOverhead) +
    ccDirSize (c.nblocks + 64#32).toNat)

/-- The admission. -/
def makeRoom (m : Memory B V Q) : Memory B V Q × Option Severity :=
  if c.need < c.budget then m.evictToFit c.fails.evict c.need c.budget (ccNSlots + 1)
  else (m, none)

/-- A new area with its creator pin, and the slot pointing to it. -/
def createArea (m : Memory B V Q) (i : Fin ccNSlots) : Memory B V Q × Option Severity :=
  let generation := (m.slots i).generation + 1
  let area : Area Q := Area.create c.key i generation
  let start := (c.loading m.total).start
  match c.fails.create, c.fails.directory with
  | some severity, _ => (m, some severity)
  | none, some severity => ({ m with areas := m.areas ++ [area] }, some severity)
  | none, none =>
    ({ m with areas := m.areas ++ [{ area with arena := start.arena }] }.setSlot i
      { m.slots i with
        areaHandle := m.areas.length, areaPinned := true, dim := c.dim, generation := generation
        blocks := 1, nblocks := (c.nblocks + 64#32).toNat },
      c.fails.attach)

/-- Everything before `PG_TRY`. -/
def setUp (m : Memory B V Q) (i : Fin ccNSlots) : Memory B V Q × Option Severity :=
  match c.fails.countBlocks with
  | some severity => (m, some severity)
  | none => match c.makeRoom m with
    | (m, some severity) => (m, some severity)
    | (m, none) => c.createArea m i

/-- The slot's bytes and state, and the total. -/
def publish (m : Memory B V Q) (i : Fin ccNSlots) (s : Copy Q) (state : SlotState) :
    Memory B V Q :=
  { m with total := m.total + s.bytes }.setSlot i
    { m.slots i with nelems := s.nelems, bytes := s.bytes, state := state }

/-- The end of `PG_TRY`, and what follows. -/
def finish (m : Memory B V Q) (i : Fin ccNSlots) (s : Copy Q) :
    Option Stop → Memory B V Q × Option Severity
  | none => (publish m i s .ready, none)
  | some .partialLoad => (publish m i s .partialLoad, none)
  | some (.raised .error) => (publish m i s .partialLoad, some .error)
  | some (.raised .fatal) => (m, some .fatal)

/-- `acorn_cc_load`: what it leaves and what it throws; `none` if it writes outside the
directory. -/
def load (m : Memory B V Q) (i : Fin ccNSlots) : Option (Memory B V Q × Option Severity) :=
  match c.setUp m i with
  | (m, some severity) => some (m, some severity)
  | (m, none) => (c.loading m.total).copy.map fun r =>
      finish (m.modifyArena (m.slots i).areaHandle fun _ => r.1.arena) i r.1 r.2

end LoadCall

/-! ### Settled slots -/

namespace Memory
variable (m : Memory B V Q)

/-- A slot's published array of a block. -/
def published (i : Fin ccNSlots) (b : Nat) : Option (CachePage Q) :=
  (m.areas[(m.slots i).areaHandle]?).bind fun a => pageArray? a.arena (m.slots i).blocks b

/-- The bytes of a slot's directory and of its page arrays. -/
def usedBytes (i : Fin ccNSlots) : BitVec 64 :=
  BitVec.ofNat 64 (ccDirSize (m.slots i).nblocks) +
    ∑ b ∈ Finset.range (m.slots i).nblocks, (m.published i b).elim 0 fun array =>
      BitVec.ofNat 64 (ccPageSize array.length (m.slots i).dim)

/-- The slot has its area, with the creator pin, its directory and its arrays, and counts
their bytes. -/
structure HasArea (i : Fin ccNSlots) : Prop where
  pinned : (m.slots i).areaPinned = true
  area : ∃ a, m.areas[(m.slots i).areaHandle]? = some a ∧ a.pinned = true ∧
    IsDirectory a.arena (m.slots i).blocks (m.slots i).nblocks
  bytes : (m.slots i).bytes = m.usedBytes i

/-- Served, or free: EMPTY without a trace, or READY or PARTIAL with an area. -/
def Settled (i : Fin ccNSlots) : Prop :=
  match (m.slots i).state with
  | .empty => (m.slots i).bytes = 0 ∧ (m.slots i).blocks = 0 ∧ (m.slots i).nblocks = 0 ∧
      (m.slots i).areaPinned = false
  | .loading => False
  | .ready | .partialLoad => m.HasArea i

end Memory

/-! ### The set-up -/

namespace Residency
variable {need budget : BitVec 64}

/-- The search for victims ends. -/
theorem evictToFit_isSome {d : Residency B} {fuel : Nat}
    (hfuel : (Finset.univ.filter fun i => d.findable i = true).card < fuel) :
    (evictToFit need budget fuel d).isSome = true := by
  induction fuel generalizing d with
  | zero => omega
  | succ fuel ih =>
    rw [evictToFit]
    split
    · rfl
    · rcases d.victim_spec with ⟨hv, -⟩ | ⟨i, hv, hi, -⟩
      · rw [hv]
        rfl
      · rw [hv]
        dsimp only
        rw [Option.isSome_map]
        exact ih ((card_findable_evictSlot hi).trans_le (Nat.le_of_lt_succ hfuel))

theorem evictToFit_slots (d : Residency B) :
    (evictToFit need budget (ccNSlots + 1) d).isSome = true :=
  evictToFit_isSome (Nat.lt_succ_of_le ((Finset.card_le_univ _).trans_eq (Fintype.card_fin _)))

end Residency

namespace Memory
variable {fails : Fin ccNSlots → Option Severity} {need budget : BitVec 64} {fuel : Nat}

/-- A slot that may not be evicted stays as it is. -/
theorem evictToFit_slot {m : Memory B V Q} {i : Fin ccNSlots} (h : (m.slots i).evictable = false) :
    (m.evictToFit fails need budget fuel).1.slots i = m.slots i := by
  induction fuel generalizing m with
  | zero => rfl
  | succ fuel ih =>
    rw [evictToFit]
    split
    · rfl
    · rcases m.residency.victim_spec with ⟨hv, -⟩ | ⟨j, hv, hj, -⟩
      · rw [hv]
      · rw [hv]
        have hne : i ≠ j := by
          rintro rfl
          have := (Bool.and_eq_true_iff.mp hj).1
          rw [show (m.residency.slots i).evictable = false from h] at this
          cases this
        have hsame : ∀ attached, (m.evictSlot j attached).slots i = m.slots i :=
          fun _ => m.residency.evictSlot_of_ne hne
        dsimp only
        cases fails j with
        | some severity => exact hsame false
        | none => exact (ih (by rw [hsame]; exact h)).trans (hsame true)

/-- Evictions fail where one of a victim does; without a failure the victims are gone. -/
theorem evictToFit_residency {m : Memory B V Q} {ok : Bool} {is : List (Fin ccNSlots)}
    {d' : Residency B} (h : Residency.evictToFit need budget fuel m.residency = some (ok, is, d')) :
    ((m.evictToFit fails need budget fuel).2 = none ↔ ∀ i ∈ is, fails i = none) ∧
      ((m.evictToFit fails need budget fuel).2 = none →
        (m.evictToFit fails need budget fuel).1.residency = d') := by
  induction fuel generalizing m ok is d' with
  | zero => cases h
  | succ fuel ih =>
    rw [Residency.evictToFit] at h
    rw [evictToFit]
    change (if m.total + need ≤ budget then _ else _) = _ at h
    split at h
    · rename_i hfits
      rw [if_pos hfits]
      cases h
      exact ⟨by simp, fun _ => rfl⟩
    · rename_i hfits
      rw [if_neg hfits]
      cases hv : m.residency.victim with
      | none =>
        rw [hv] at h
        cases h
        exact ⟨by simp, fun _ => rfl⟩
      | some i =>
        rw [hv] at h
        obtain ⟨r, hrest, heq⟩ := Option.map_eq_some_iff.mp h
        cases heq
        dsimp only
        cases hi : fails i with
        | some severity => exact ⟨by simp [hi], fun h => absurd h (Option.some_ne_none _)⟩
        | none =>
          obtain ⟨hiff, hres⟩ := @ih (m.evictSlot i true) _ _ _ hrest
          exact ⟨hiff.trans (by simp [hi]), hres⟩

theorem claim_state {m₀ m : Memory B V Q} {i : Fin ccNSlots} (h : m₀.claim i = some m) :
    (m.slots i).state = .loading := by
  unfold claim at h
  split at h
  · cases h
    show (Function.update m₀.slots i { m₀.slots i with state := .loading } i).state = _
    rw [Function.update_self]
  · cases h

end Memory

namespace LoadCall
variable (c : LoadCall V Q)

/-- Nothing fails before the loop: not the block count, nor the eviction of a slot that the
admission evicts, nor the creation of the area, its directory or the mapping. -/
structure SetUpSucceeds (d : Residency B) : Prop where
  countBlocks : c.fails.countBlocks = none
  evict : c.need < c.budget → ∀ ok is d',
    Residency.evictToFit c.need c.budget (ccNSlots + 1) d = some (ok, is, d') →
    ∀ i ∈ is, c.fails.evict i = none
  create : c.fails.create = none
  directory : c.fails.directory = none
  attach : c.fails.attach = none

/-- What the admission leaves when nothing fails. -/
def withRoom (d : Residency B) : Residency B :=
  if c.need < c.budget then
    (Residency.evictToFit c.need c.budget (ccNSlots + 1) d).elim d fun r => r.2.2
  else d

/-- The slot as the loop finds it. -/
structure Created (m : Memory B V Q) (i : Fin ccNSlots) : Prop where
  state : (m.slots i).state = .loading
  pinned : (m.slots i).areaPinned = true
  dim : (m.slots i).dim = c.dim
  blocks : (m.slots i).blocks = 1
  nblocks : (m.slots i).nblocks = (c.nblocks + 64#32).toNat
  area : ∃ a, m.areas[(m.slots i).areaHandle]? = some a ∧ a.pinned = true

variable {c} {m : Memory B V Q} {i : Fin ccNSlots}

theorem makeRoom_spec (h : (m.slots i).state = .loading) :
    ((c.makeRoom m).1.slots i = m.slots i) ∧
      ((c.makeRoom m).2 = none → (c.makeRoom m).1.residency = c.withRoom m.residency) ∧
      ((c.makeRoom m).2 = none ↔ (c.need < c.budget → ∀ ok is d',
        Residency.evictToFit c.need c.budget (ccNSlots + 1) m.residency = some (ok, is, d') →
        ∀ i ∈ is, c.fails.evict i = none)) := by
  unfold makeRoom withRoom
  split
  · rename_i hneed
    obtain ⟨⟨ok, is, d'⟩, heq⟩ := Option.isSome_iff_exists.mp
      (@Residency.evictToFit_slots B c.need c.budget m.residency)
    obtain ⟨hiff, hres⟩ := @Memory.evictToFit_residency B V Q c.fails.evict _ _ _ m ok is d' heq
    have hevictable : (m.slots i).evictable = false := by simp [Slot.evictable, h, SlotState.serves]
    refine ⟨Memory.evictToFit_slot hevictable, ?_, hiff.trans ?_⟩
    · rw [heq]
      exact hres
    · constructor
      · intro hall _ ok' is' d'' heq'
        rw [heq] at heq'
        cases heq'
        exact hall
      · exact fun hall => hall hneed ok is d' heq
  · rename_i hneed
    exact ⟨rfl, fun _ => rfl, fun _ h => absurd h hneed, fun _ => rfl⟩

/-- **The set-up**: a failure leaves the slot LOADING. -/
theorem setUp_spec (h : (m.slots i).state = .loading) :
    ((c.setUp m i).1.slots i).state = .loading ∧
      ((c.setUp m i).2 = none ↔ c.SetUpSucceeds m.residency) ∧
      ((c.setUp m i).2 = none → c.Created (c.setUp m i).1 i ∧
        (c.setUp m i).1.total = (c.withRoom m.residency).total) := by
  obtain ⟨hslot, hres, hiff⟩ := @makeRoom_spec B V Q c m i h
  unfold setUp
  cases hcount : c.fails.countBlocks with
  | some severity =>
    have hsome := Option.some_ne_none severity
    exact ⟨h, iff_of_false hsome fun h => hsome (hcount.symm.trans h.countBlocks),
      fun h => absurd h hsome⟩
  | none =>
    dsimp only
    obtain ⟨⟨m', e⟩, hroom⟩ : ∃ r, c.makeRoom m = r := ⟨_, rfl⟩
    rw [hroom] at hslot hres hiff ⊢
    cases e with
    | some severity =>
      have hsome := Option.some_ne_none severity
      exact ⟨by rw [hslot]; exact h, iff_of_false hsome fun h => hsome (hiff.mpr h.evict),
        fun h => absurd h hsome⟩
    | none =>
      have hroom' := hres rfl
      have hevict := hiff.mp rfl
      dsimp only at hslot hroom' ⊢
      unfold createArea
      cases hcreate : c.fails.create with
      | some severity =>
        have hsome := Option.some_ne_none severity
        exact ⟨by rw [hslot]; exact h, iff_of_false hsome fun h => hsome (hcreate.symm.trans h.create),
          fun h => absurd h hsome⟩
      | none =>
        cases hdir : c.fails.directory with
        | some severity =>
          have hsome := Option.some_ne_none severity
          exact ⟨by rw [show m'.slots i = _ from hslot]; exact h,
            iff_of_false hsome fun h => hsome (hdir.symm.trans h.directory), fun h => absurd h hsome⟩
        | none =>
          have hself : ∀ slot : Slot B, Function.update m'.slots i slot i = slot :=
            fun slot => Function.update_self ..
          refine ⟨?_, ⟨fun hattach => ⟨hcount, hevict, hcreate, hdir, hattach⟩, fun h => h.attach⟩,
            fun _ => ⟨⟨?_, ?_, ?_, ?_, ?_, ?_⟩, by rw [← hroom']; rfl⟩⟩
          all_goals simp only [Memory.setSlot, hself]
          · rw [hslot, h]
          · rw [hslot, h]
          · exact ⟨_, List.getElem?_concat_length, rfl⟩

/-! ### What a load leaves -/

variable (c) in
/-- The loop, beside what the admission leaves of the other slots. -/
def loop (d : Residency B) : Loading V Q := c.loading (c.withRoom d).total

variable (c) in
/-- The slot with its area, whose blocks are as the loop left them. -/
structure Filled (m : Memory B V Q) (i : Fin ccNSlots) (s : Copy Q) : Prop where
  pinned : (m.slots i).areaPinned = true
  dim : (m.slots i).dim = c.dim
  blocks : (m.slots i).blocks = 1
  nblocks : (m.slots i).nblocks = (c.nblocks + 64#32).toNat
  area : ∃ a, m.areas[(m.slots i).areaHandle]? = some a ∧ a.pinned = true ∧ a.arena = s.arena

theorem Created.filled (h : c.Created m i) (s : Copy Q) :
    c.Filled (m.modifyArena (m.slots i).areaHandle fun _ => s.arena) i s where
  pinned := h.pinned
  dim := h.dim
  blocks := h.blocks
  nblocks := h.nblocks
  area := by
    obtain ⟨a, ha, hpin⟩ := h.area
    refine ⟨{ a with arena := s.arena }, ?_, hpin, rfl⟩
    show (m.areas.modify (m.slots i).areaHandle _)[(m.slots i).areaHandle]? = _
    rw [List.getElem?_modify, ha]
    simp

theorem publish_self (s : Copy Q) (state : SlotState) : (publish m i s state).slots i =
    { m.slots i with nelems := s.nelems, bytes := s.bytes, state := state } :=
  Function.update_self ..

theorem Filled.publish {s : Copy Q} (h : c.Filled m i s) (state : SlotState) :
    c.Filled (publish m i s state) i s := by
  constructor
  all_goals rw [publish_self]
  · exact h.pinned
  · exact h.dim
  · exact h.blocks
  · exact h.nblocks
  · exact h.area

theorem Filled.published {s : Copy Q} (h : c.Filled m i s) (b : Nat) :
    m.published i b = pageArray? s.arena 1 b := by
  obtain ⟨a, ha, -, harena⟩ := h.area
  rw [Memory.published, ha, Option.bind_some, harena, h.blocks]

/-- The bytes counted are those in use. -/
theorem Filled.usedBytes {s : Copy Q} {other : BitVec 64} {b : Nat} (h : c.Filled m i s)
    (hs : (c.loading other).Copied b s)
    (hin : ∀ b', 1 ≤ b' → b' < b → (c.loading other).holds b' = true →
      b' < (c.loading other).dirBlocks.toNat) : s.bytes = m.usedBytes i := by
  obtain ⟨a, ha⟩ : ∃ a, c.loading other = a := ⟨_, rfl⟩
  have hdim : a.dim = c.dim := by rw [← ha]; rfl
  have hdir : a.dirBlocks = c.nblocks + 64#32 := by rw [← ha]; rfl
  rw [ha] at hs hin
  have hpage : ∀ b', ((m.published i b').elim 0 fun array =>
      BitVec.ofNat 64 (ccPageSize array.length (m.slots i).dim)) =
      if 1 ≤ b' ∧ b' < b ∧ a.holds b' = true then a.pageBytes (a.read b').items.length else 0 := by
    intro b'
    rw [h.published, hs.pages, h.dim, ← hdim]
    split
    · rw [Option.elim_some, Loading.array, List.length_map]
      rfl
    · rfl
  have hsets : (Finset.Ico 1 b).filter (fun b' => a.holds b' = true) =
      (Finset.range a.dirBlocks.toNat).filter fun b' => 1 ≤ b' ∧ b' < b ∧ a.holds b' = true := by
    ext b'
    simp only [Finset.mem_filter, Finset.mem_Ico, Finset.mem_range]
    constructor
    · rintro ⟨⟨hle, hlt⟩, hholds⟩
      exact ⟨hin b' hle hlt hholds, hle, hlt, hholds⟩
    · rintro ⟨-, hle, hlt, hholds⟩
      exact ⟨⟨hle, hlt⟩, hholds⟩
  rw [hs.bytes, Loading.spent, Memory.usedBytes, h.nblocks, ← hdir,
    Finset.sum_congr rfl fun b' _ => hpage b', ← Finset.sum_filter, ← Finset.sum_filter, hsets]
  rfl

theorem Filled.hasArea {s : Copy Q} {other : BitVec 64} {b : Nat} (h : c.Filled m i s)
    (hs : (c.loading other).Copied b s)
    (hin : ∀ b', 1 ≤ b' → b' < b → (c.loading other).holds b' = true →
      b' < (c.loading other).dirBlocks.toNat) (state : SlotState) :
    (LoadCall.publish m i s state).HasArea i where
  pinned := (h.publish state).pinned
  area := by
    obtain ⟨a, ha, hpin, harena⟩ := (h.publish state).area
    refine ⟨a, ha, hpin, ?_⟩
    rw [harena, (h.publish state).blocks, (h.publish state).nblocks]
    exact hs.directory
  bytes := by
    rw [← (h.publish state).usedBytes hs hin, publish_self]

/-- A load whose set-up goes through runs the loop. -/
theorem load_eq (h : (m.slots i).state = .loading) (hsetUp : c.SetUpSucceeds m.residency) :
    ∃ m₁, c.Created m₁ i ∧ c.load m i = (c.loop m.residency).copy.map fun r =>
      finish (m₁.modifyArena (m₁.slots i).areaHandle fun _ => r.1.arena) i r.1 r.2 := by
  obtain ⟨-, hnone, hsome⟩ := @setUp_spec B V Q c m i h
  obtain ⟨⟨m₁, e₁⟩, heq⟩ : ∃ r, c.setUp m i = r := ⟨_, rfl⟩
  rw [heq] at hnone hsome
  obtain rfl : e₁ = none := hnone.mpr hsetUp
  obtain ⟨hcreated, htotal⟩ := hsome rfl
  refine ⟨m₁, hcreated, ?_⟩
  dsimp only at htotal
  rw [load, heq]
  dsimp only
  rw [htotal]
  rfl

/-- A load that fails before the loop leaves the slot LOADING. -/
theorem load_of_setUp_fails (h : (m.slots i).state = .loading)
    (hsetUp : ¬ c.SetUpSucceeds m.residency) :
    ∃ m' severity, c.load m i = some (m', some severity) ∧ (m'.slots i).state = .loading := by
  obtain ⟨hstate, hnone, -⟩ := @setUp_spec B V Q c m i h
  obtain ⟨⟨m₁, e₁⟩, heq⟩ : ∃ r, c.setUp m i = r := ⟨_, rfl⟩
  rw [heq] at hstate hnone
  cases e₁ with
  | none => exact absurd (hnone.mp rfl) hsetUp
  | some severity => exact ⟨m₁, severity, by rw [load, heq], hstate⟩

/-- **A load that failed before the loop**, or one with a FATAL, leaves the slot LOADING;
any other settles it, if it stays in the directory. -/
theorem load_settles_iff {m₀ : Memory B V Q} (h : m₀.claim i = some m) :
    (∃ m' e, c.load m i = some (m', e) ∧ m'.Settled i) ↔
      c.SetUpSucceeds m.residency ∧ (c.loop m.residency).InDirectory ∧
        ∀ b, 1 ≤ b → b < c.nblocks.toNat → (c.loop m.residency).Reaches b →
          ∀ stop, (c.loop m.residency).stopAt b = some stop → stop ≠ .raised .fatal := by
  have hloading := Memory.claim_state h
  have hunsettled : ∀ {m' : Memory B V Q}, (m'.slots i).state = .loading → ¬ m'.Settled i := by
    intro m' hm' hsettled
    rw [Memory.Settled, hm'] at hsettled
    exact hsettled
  by_cases hsucceeds : c.SetUpSucceeds m.residency
  · obtain ⟨m₁, hcreated, heq⟩ := load_eq hloading hsucceeds
    rw [heq]
    by_cases hdir : (c.loop m.residency).InDirectory
    · obtain ⟨b, s, stop, hcopy, hs, hends, hin⟩ := Loading.copy_spec hdir
      have hfilled := hcreated.filled s
      have hfatal : (∀ b, 1 ≤ b → b < c.nblocks.toNat → (c.loop m.residency).Reaches b →
          ∀ stop, (c.loop m.residency).stopAt b = some stop → stop ≠ .raised .fatal) ↔
          stop ≠ some (.raised .fatal) := by
        rw [Ne, hends.iff]
        constructor
        · rintro hall ⟨b, hb, hn, hreach, hstop⟩
          exact hall b hb hn hreach _ hstop rfl
        · rintro hnot b hb hn hreach _ hstop rfl
          exact hnot ⟨b, hb, hn, hreach, hstop⟩
      rw [hcopy, hfatal]
      have hself := fun state => @publish_self B V Q
        (m₁.modifyArena (m₁.slots i).areaHandle fun _ => s.arena) i s state
      have hsettled : ∀ state, state.serves = true → (publish (m₁.modifyArena (m₁.slots i).areaHandle
          fun _ => s.arena) i s state).Settled i := by
        intro state hserves
        rw [Memory.Settled, hself]
        cases state with
        | empty | loading => cases hserves
        | ready | partialLoad => exact hfilled.hasArea hs hin _
      rw [Option.map_some]
      cases stop with
      | none => exact iff_of_true ⟨_, _, rfl, hsettled .ready rfl⟩ ⟨hsucceeds, hdir, by simp⟩
      | some stop =>
        cases stop with
        | partialLoad =>
          exact iff_of_true ⟨_, _, rfl, hsettled .partialLoad rfl⟩ ⟨hsucceeds, hdir, by simp⟩
        | raised severity =>
          cases severity with
          | error =>
            exact iff_of_true ⟨_, _, rfl, hsettled .partialLoad rfl⟩ ⟨hsucceeds, hdir, by simp⟩
          | fatal =>
            refine iff_of_false ?_ fun h => h.2.2 rfl
            rintro ⟨m', e, heq, hsettled⟩
            cases heq
            refine hunsettled ?_ hsettled
            exact hcreated.state
    · rw [Loading.copy_stray hdir]
      refine iff_of_false ?_ fun h => hdir h.2.1
      rintro ⟨m', e, heq, -⟩
      cases heq
  · obtain ⟨m', severity, heq, hstate⟩ := load_of_setUp_fails hloading hsucceeds
    rw [heq]
    refine iff_of_false ?_ fun h => hsucceeds h.1
    rintro ⟨m'', e, heq', hsettled⟩
    cases heq'
    exact hunsettled hstate hsettled

end LoadCall

end

/-! ### A small cache -/

/-- No failure before the loop. -/
def noFailures : SetUpFailures := ⟨none, fun _ => none, none, none, none⟩

/-- A page with one element tuple. -/
def elementPage : PageRead Unit Unit :=
  ⟨none, [.tuple (.element ⟨0, false, Vector.replicate _ ⟨0, 1⟩, ⟨1, 2⟩, 0, ()⟩)], .done⟩

/-- The load of an index that has such a page in every block. -/
def smallCall (nblocks : BitVec 32) (fails : SetUpFailures) : LoadCall Unit Unit :=
  ⟨⟨5, 100⟩, ⟨fun _ => 1, id⟩, 1, 1, nblocks, fun _ => elementPage, fails⟩

/-- All slots free. -/
def emptyMemory : Memory Unit Unit Unit where
  dirLock := ⟨none, []⟩
  total := 0
  clock := 0
  slots _ := Slot.init
  areas := []
  world _ := ⟨⟨1, 16, 0, 0, 0, false, 0⟩, []⟩
  removed _ := []

/-- The first slot claimed. -/
def claimedMemory : Memory Unit Unit Unit :=
  emptyMemory.setSlot (0 : Fin 64) { Slot.init with state := .loading }

theorem load_settles_iff_small :
    (∃ m' e, (smallCall 3 noFailures).load claimedMemory (0 : Fin 64) = some (m', e) ∧
        m'.Settled (0 : Fin 64)) ↔
      (smallCall 3 noFailures).SetUpSucceeds claimedMemory.residency ∧
        ((smallCall 3 noFailures).loop claimedMemory.residency).InDirectory ∧
        ∀ b, 1 ≤ b → b < (smallCall 3 noFailures).nblocks.toNat →
          ((smallCall 3 noFailures).loop claimedMemory.residency).Reaches b →
          ∀ stop, ((smallCall 3 noFailures).loop claimedMemory.residency).stopAt b = some stop →
            stop ≠ .raised .fatal :=
  @LoadCall.load_settles_iff _ _ _ _ _ _ emptyMemory rfl

/-- `dsa_create` raises an ERROR: the slot stays LOADING. -/
theorem create_error_strands : emptyMemory.claim (0 : Fin 64) = some claimedMemory ∧
    ∃ m', (smallCall 3 { noFailures with create := some .error }).load claimedMemory (0 : Fin 64) =
      some (m', some .error) ∧ (m'.slots (0 : Fin 64)).state = .loading ∧
      ¬ m'.Settled (0 : Fin 64) :=
  ⟨rfl, _, rfl, rfl, id⟩

end PgAcorn.SharedCache
