import PgAcorn.SharedCache.Frees
import PgAcorn.SharedCache.Published
import PgAcorn.Library.Ledger
import Mathlib.Tactic.LinearCombination

/-! The books of the shared cache: `slot->bytes` and `dir->total_bytes`.

A load, a growth and an eviction change what a slot publishes, the slot's bytes and the
total in separate stores. `Pc.owes` and `Backend.unsettled` say what the books are off by
in between, and `Charges` is the invariant: with these amounts every account balances. -/
namespace PgAcorn.SharedCache
open Library
open CodeCache (Key ccNSlots ccDirGrow SlotState Codec CachePage)

section
variable {B V Q : Type}

/-! ### The property -/

/-- **Bytes are exact**: the total is the sum over the slots, and a slot's bytes are those
of the arrays it publishes. A slot that is left LOADING, by a load that has failed on the
way, may publish a directory, and has no bytes all the same. -/
structure BytesExact (m : Memory B V Q) : Prop where
  total : m.total = ∑ i, (m.slots i).bytes
  slot : ∀ {i}, (m.slots i).state ≠ .loading →
    (m.slots i).bytes = BitVec.ofNat 64 (m.publishedBytes i)
  unloaded : ∀ {i}, (m.slots i).state = .empty ∨ (m.slots i).state = .loading →
    (m.slots i).bytes = 0

/-! ### What is in flight -/

/-- The bytes of an array that a growth replaces. -/
def oldBytes (old : Option (Nat × Nat)) : BitVec 64 := old.elim 0 fun p => BitVec.ofNat 64 p.2

/-- What a slot is charged beyond what it publishes. -/
def Memory.excess (m : Memory B V Q) (i : Fin ccNSlots) : BitVec 64 :=
  (m.slots i).bytes - BitVec.ofNat 64 (m.publishedBytes i)

/-- What the total has too much while a backend is between two stores. -/
def Pc.owes : Pc Q → BitVec 64
  | .load _ _ (.addTotal bytes _ _) => -BitVec.ofNat 64 bytes
  | .grow _ _ added _ .addTotal => -BitVec.ofNat 64 added
  | .grow _ _ _ old .subTotal => oldBytes old
  | .evict _ (.storeNblocks v) | .evict _ (.storeBlocks v) | .evict _ (.subTotal v) => v.freed
  | _ => 0

/-- What a slot's bytes have too much while a backend grows it. -/
def Backend.unsettled (i : Fin ccNSlots) (be : Backend Q) : BitVec 64 :=
  match be.pc with
  | .grow w _ added old p =>
    if be.slotFor w = i then
      match p with
      | .storeNblocks | .addBytes => oldBytes old - BitVec.ofNat 64 added
      | .subTotal => 0
      | _ => oldBytes old
    else 0
  | _ => 0

/-! ### The total -/

variable {m m' : Memory B V Q} {be be' : Backend Q} {codec : Codec V Q} {i : Fin ccNSlots}

theorem owes_of_builds {pc : Pc Q} (h : pc.builds = false) : pc.owes = 0 := by
  cases pc with
  | load q i p => cases p <;> first | rfl | cases h
  | evict e p => cases p <;> first | rfl | cases h
  | grow => cases h
  | _ => rfl

/-- One slot changes. -/
theorem sum_bytes_setSlot (m : Memory B V Q) (i : Fin ccNSlots) (slot : Slot B) :
    ∑ j, ((m.setSlot i slot).slots j).bytes + (m.slots i).bytes =
      ∑ j, (m.slots j).bytes + slot.bytes :=
  sum_share_update i slot

/-- The bytes of all slots are as they were. -/
theorem sum_bytes_congr (h : ∀ j, (m'.slots j).bytes = (m.slots j).bytes) :
    ∑ j, (m'.slots j).bytes = ∑ j, (m.slots j).bytes := Finset.sum_congr rfl fun j _ => h j

theorem grown_owes (w : Insert Q) (g : Growth) : (be.grown w g).pc.owes = 0 := by cases g <;> rfl

/-- **A step keeps the total's ledger** where an evictor takes off what the slot has, and a
load stores its bytes in a slot that has none. -/
theorem Builds.owes (h : Builds codec m be m' be')
    (hload : ∀ {q i bytes nelems final error},
      be.pc = .load q i (.storeBytes bytes nelems final error) → (m.slots i).bytes = 0)
    (hclear : ∀ {e v}, be.pc = .evict e (.clear v) → v.freed = (m.slots v.slot).bytes) :
    m'.total - ∑ j, (m'.slots j).bytes + be.pc.owes =
      m.total - ∑ j, (m.slots j).bytes + be'.pc.owes := by
  -- a step that changes no bytes
  have hsame : m'.total = m.total → (∀ j, (m'.slots j).bytes = (m.slots j).bytes) →
      be.pc.owes = be'.pc.owes → m'.total - ∑ j, (m'.slots j).bytes + be.pc.owes =
        m.total - ∑ j, (m.slots j).bytes + be'.pc.owes := by
    intro htotal hbytes howes
    rw [htotal, sum_bytes_congr hbytes, howes]
  -- a step that changes the bytes of one slot
  have hslot : ∀ {j : Fin ccNSlots} {slot : Slot B}, m' = m.setSlot j slot →
      slot.bytes + be'.pc.owes = (m.slots j).bytes + be.pc.owes →
      m'.total - ∑ j, (m'.slots j).bytes + be.pc.owes =
        m.total - ∑ j, (m.slots j).bytes + be'.pc.owes := by
    intro j slot hm howes
    subst hm
    have hsum := sum_bytes_setSlot m j slot
    change m.total - _ + _ = _
    linear_combination -hsum - howes
  -- a step that changes the total alone
  have htotal : (∀ j, (m'.slots j).bytes = (m.slots j).bytes) →
      m'.total + be.pc.owes = m.total + be'.pc.owes →
      m'.total - ∑ j, (m'.slots j).bytes + be.pc.owes =
        m.total - ∑ j, (m.slots j).bytes + be'.pc.owes := by
    intro hbytes howes
    rw [sum_bytes_congr hbytes]
    linear_combination howes
  have hadd : ∀ x y : BitVec 64, x + y + -y = x + 0 := fun x y => by ring
  have hsub : ∀ x y : BitVec 64, x - y + y = x + 0 := fun x y => by ring
  cases h with
  | same h hpc hpc' => exact hsame h.total h.bytes (by rw [owes_of_builds hpc, owes_of_builds hpc'])
  | lose _ _ _ hpc hm hbe | readOther _ _ _ hpc hm hbe | skipPage _ _ _ _ _ _ _ hpc _ _ hm hbe
  | loadPage _ _ _ _ _ _ _ _ hpc _ _ _ hm hbe | publishPage _ _ _ _ _ _ _ _ hpc hm hbe
  | loaded _ _ _ _ _ _ _ _ _ hpc hm hbe | newPage _ _ hpc _ hm hbe
  | growPage _ _ _ _ hpc _ _ _ hm hbe | quiesced _ _ _ _ _ hpc _ hm hbe
  | free _ _ _ _ _ hpc hm hbe =>
    subst hm hbe
    exact hsame rfl (fun _ => rfl) (by rw [hpc]; rfl)
  | create _ _ _ hpc hm hbe | loadBlocks _ _ _ hpc hm hbe | mark _ _ hpc hm hbe
  | loadNblocks _ _ _ _ _ hpc _ hm hbe | strand _ _ _ hpc hm hbe | clearNblocks _ _ hpc hm hbe
  | clearBlocks _ _ hpc hm hbe
  | growDir _ _ _ hpc _ _ hm hbe | write _ _ _ hpc _ hm hbe | growNblocks _ _ _ _ _ hpc hm hbe
  | clearHit _ _ _ _ _ hpc _ hm hbe =>
    subst hm hbe
    exact hsame rfl (fun j => setSlot_congr Slot.bytes (by rfl) j) (by rw [hpc]; rfl)
  | publish _ _ _ error hpc hm hbe =>
    subst hm hbe
    refine hsame rfl (fun j => setSlot_congr Slot.bytes (by rfl) j) ?_
    rw [hpc]
    cases error <;> rfl
  | retire w _ _ _ _ hpc _ hm hbe =>
    subst hbe
    refine hsame ?_ (fun j => ?_) (by rw [hpc]; rfl)
    · rw [hm]
      split <;> rfl
    · rw [hm]
      split
      · exact setSlot_congr Slot.bytes (by rfl) j
      · rfl
  | reclaim k j cc hpc _ hm hbe =>
    subst hm hbe
    refine hsame ?_ (fun i => ?_) ?_
    · cases k <;> rfl
    · cases k with
      | release k =>
        refine (setSlot_congr Slot.bytes ?_ i).trans (setSlot_congr Slot.bytes ?_ i) <;> rfl
      | growDir | growPage => exact setSlot_congr Slot.bytes (by rfl) i
    · rw [hpc]
      cases k with
      | release k => cases k <;> rfl
      | growDir | growPage => rfl
  | loadBytes q j bytes nelems final error hpc hm hbe =>
    subst hbe
    refine hslot hm ?_
    rw [hpc, hload hpc]
    exact add_neg_cancel _
  | clear e v hpc hm hbe =>
    subst hbe
    refine hslot hm ?_
    rw [hpc, ← hclear hpc]
    exact add_comm _ _
  | growBytes w g added old hpc hm hbe =>
    subst hbe
    refine hslot hm ?_
    rw [hpc]
    exact hadd _ _
  | shrinkBytes w g added dp size hpc hm hbe =>
    subst hbe
    refine hslot hm ?_
    rw [hpc]
    exact hsub _ _
  | loadTotal _ _ _ _ _ hpc hm hbe =>
    subst hm hbe
    refine htotal (fun _ => rfl) ?_
    rw [hpc]
    exact hadd _ _
  | clearTotal e v hpc hm hbe =>
    subst hm hbe
    refine htotal (fun j => setSlot_congr Slot.bytes (by rfl) j) ?_
    rw [hpc]
    exact hsub _ _
  | growTotal w g added old hpc hm hbe =>
    subst hm hbe
    refine htotal (fun _ => rfl) ?_
    rw [hpc]
    cases old with
    | none =>
      rw [if_neg (by simp), grown_owes]
      exact hadd _ _
    | some old => exact hadd _ _
  | shrinkTotal w g added dp size hpc hm hbe =>
    subst hm hbe
    refine htotal (fun _ => rfl) ?_
    rw [hpc, grown_owes]
    exact hsub _ _

/-! ### What a slot publishes -/

/-- The directory that a slot publishes. -/
def HasDirectory (m : Memory B V Q) (i : Fin ccNSlots) (entries : List Nat) : Prop :=
  ∃ arena, m.arena? (m.slots i).areaHandle = some arena ∧ Publishes arena (m.slots i).blocks entries

/-- A page array in a slot's area. -/
def PageAt (m : Memory B V Q) (i : Fin ccNSlots) (dp n : Nat) : Prop :=
  ∃ arena, m.arena? (m.slots i).areaHandle = some arena ∧ nslotsAt arena dp = some n

/-- The directory of a load: complete, with no page from a block on, and with so many
bytes. The slot has none yet. -/
structure Fills (m : Memory B V Q) (i : Fin ccNSlots) (l : Load) (blkno n : Nat) : Prop where
  bytes : (m.slots i).bytes = 0
  dir : ∃ arena entries, m.arena? (m.slots i).areaHandle = some arena ∧
    Publishes arena l.blocksDp entries ∧ entries.length = ccDirGrow l.nblocks ∧
    (∀ k, blkno ≤ k → k < entries.length → entries[k]? = some 0) ∧
    directoryBytes arena (m.slots i).dim l.blocksDp = n

/-- The slot publishes a directory of the length that it says. -/
def Listed (m : Memory B V Q) (i : Fin ccNSlots) : Prop :=
  ∃ entries, HasDirectory m i entries ∧ (m.slots i).nblocks = entries.length

/-- What a load knows of the bytes. -/
def LoadPc.Counts (m : Memory B V Q) (i : Fin ccNSlots) : LoadPc → Prop
  | .start | .create _ => True
  | .storeBlocks l => Fills m i l 0 (ccDirSize (ccDirGrow l.nblocks))
  | .storeNblocks l =>
    (m.slots i).blocks = l.blocksDp ∧ Fills m i l 0 (ccDirSize (ccDirGrow l.nblocks))
  | .readOther l => (m.slots i).blocks = l.blocksDp ∧ (m.slots i).nblocks = ccDirGrow l.nblocks ∧
    Fills m i l 0 (ccDirSize (ccDirGrow l.nblocks))
  | .page l _ blkno bytes _ => (m.slots i).blocks = l.blocksDp ∧
    (m.slots i).nblocks = ccDirGrow l.nblocks ∧ Fills m i l blkno bytes
  | .publishPage l _ blkno bytes _ dp => (m.slots i).blocks = l.blocksDp ∧
    (m.slots i).nblocks = ccDirGrow l.nblocks ∧ blkno < l.nblocks ∧
    ∃ n size, Fills m i l blkno n ∧ PageAt m i dp size ∧ n + ccPageSize size (m.slots i).dim = bytes
  | .storeBytes bytes _ _ _ => (m.slots i).bytes = 0 ∧ Listed m i ∧ m.publishedBytes i = bytes
  | .addTotal _ _ _ | .storeState _ _ =>
    Listed m i ∧ (m.slots i).bytes = BitVec.ofNat 64 (m.publishedBytes i)

/-- The number of blocks that an insert takes the directory to have, but for a growth
that has not stored it. -/
def Backend.counted (be : Backend Q) (w : Insert Q) : Option Nat :=
  match be.pc with
  | .grow _ (.dir _ n) _ _ p => match p with
    | .storeNblocks => none
    | _ => some n
  | _ => some (be.handles w.cc).nblocks

/-- The insert that is going to replace its directory. -/
def Pc.extends? : Pc Q → Option (Insert Q)
  | .insert w .growDir | .drain (.growDir w) _ _ _ => some w
  | _ => none

/-- The slot whose directory a backend has replaced, and not its length. -/
def Backend.relength (be : Backend Q) : Option (Fin ccNSlots × Nat) :=
  match be.pc with
  | .grow w (.dir _ n) _ _ .storeNblocks => some (be.slotFor w, n)
  | _ => none

/-- The entry that an insert is going to replace, and that its page is not too long. -/
def Replaces (m : Memory B V Q) (i : Fin ccNSlots) (w : Insert Q) (old : Nat) : Prop :=
  ∃ entries, HasDirectory m i entries ∧ entries[w.t.blkno]? = some old ∧
    (old ≠ 0 → ∃ n, PageAt m i old n ∧ n ≤ ccPageGrow w.t.offno)

/-- What an insert knows of the directory of its slot. -/
structure Grows (m : Memory B V Q) (be : Backend Q) (w : Insert Q) : Prop where
  newest : be.newest w = (m.slots (be.slotFor w)).blocks
  counted : ∀ {n}, be.counted w = some n → (m.slots (be.slotFor w)).nblocks = n
  relength : ∀ {n}, be.relength = some (be.slotFor w, n) →
    ∃ entries, HasDirectory m (be.slotFor w) entries ∧ entries.length = n
  extend : be.pc.extends? = some w → (be.handles w.cc).nblocks ≤ w.t.blkno
  target : ∀ {old}, be.pc.target = some (w, old) → Replaces m (be.slotFor w) w old

/-- What a backend knows of the directory and the bytes of its slot. -/
structure Counts (m : Memory B V Q) (be : Backend Q) : Prop where
  load : ∀ {q i p}, be.pc = .load q i p → p.Counts m i
  working : ∀ {w}, be.pc.works = some w → Grows m be w

/-! ### Slots that a step leaves -/

namespace SameDirectory

theorem hasDirectory {entries : List Nat} (hs : SameDirectory m m' i)
    (h : HasDirectory m i entries) : HasDirectory m' i entries := by
  obtain ⟨arena, harena, hp⟩ := h
  obtain ⟨arena', harena', hk⟩ := hs.arena harena
  refine ⟨arena', ?_, ?_⟩
  · rw [hs.areaHandle]
    exact harena'
  · rw [hs.blocks]
    exact hp.keeps hk

theorem publishedBytes {entries : List Nat} (hs : SameDirectory m m' i)
    (h : HasDirectory m i entries) : m'.publishedBytes i = m.publishedBytes i := by
  obtain ⟨arena, harena, hp⟩ := h
  obtain ⟨arena', harena', hk⟩ := hs.arena harena
  unfold Memory.publishedBytes
  rw [hs.areaHandle, harena, harena', hs.dim, hs.blocks]
  exact hp.bytes_keeps hk _

end SameDirectory

namespace Undisturbed

theorem pageAt {dp n : Nat} (hu : Undisturbed m m' i) (h : PageAt m i dp n) : PageAt m' i dp n := by
  obtain ⟨arena, harena, hn⟩ := h
  obtain ⟨arena', harena', hk⟩ := hu.arena harena
  refine ⟨arena', ?_, hk.nslots hn⟩
  rw [hu.areaHandle]
  exact harena'

theorem fills {l : Load} {blkno n : Nat} (hu : Undisturbed m m' i) (h : Fills m i l blkno n) :
    Fills m' i l blkno n := by
  obtain ⟨hbytes, arena, entries, harena, hp, hlength, hzero, hn⟩ := h
  obtain ⟨arena', harena', hk⟩ := hu.arena harena
  refine ⟨hu.bytes.trans hbytes, arena', entries, ?_, hp.keeps hk, hlength, hzero, ?_⟩
  · rw [hu.areaHandle]
    exact harena'
  · rw [hu.dim, hp.bytes_keeps hk]
    exact hn

theorem listed (hu : Undisturbed m m' i) (h : Listed m i) : Listed m' i := by
  obtain ⟨entries, hdir, hlength⟩ := h
  exact ⟨entries, hu.hasDirectory hdir, hu.nblocks.trans hlength⟩

theorem counts {p : LoadPc} (hu : Undisturbed m m' i) (h : p.Counts m i) : p.Counts m' i := by
  cases p with
  | start | create => trivial
  | storeBlocks l => exact hu.fills h
  | storeNblocks l => exact ⟨hu.blocks.trans h.1, hu.fills h.2⟩
  | readOther l | page l => exact ⟨hu.blocks.trans h.1, hu.nblocks.trans h.2.1, hu.fills h.2.2⟩
  | publishPage l other blkno bytes nelems dp =>
    obtain ⟨hblocks, hnblocks, hlt, n, size, hfills, hpage, hn⟩ := h
    refine ⟨hu.blocks.trans hblocks, hu.nblocks.trans hnblocks, hlt, n, size, hu.fills hfills,
      hu.pageAt hpage, ?_⟩
    rw [hu.dim]
    exact hn
  | storeBytes bytes =>
    obtain ⟨hbytes, hlisted, hn⟩ := h
    obtain ⟨entries, hdir, -⟩ := id hlisted
    exact ⟨hu.bytes.trans hbytes, hu.listed hlisted, (hu.publishedBytes hdir).trans hn⟩
  | addTotal | storeState =>
    obtain ⟨hlisted, hn⟩ := h
    obtain ⟨entries, hdir, -⟩ := id hlisted
    refine ⟨hu.listed hlisted, ?_⟩
    rw [hu.bytes, hu.publishedBytes hdir]
    exact hn

theorem replaces {w : Insert Q} {old : Nat} (hu : Undisturbed m m' i) (h : Replaces m i w old) :
    Replaces m' i w old := by
  obtain ⟨entries, hdir, hentry, hpage⟩ := h
  refine ⟨entries, hu.hasDirectory hdir, hentry, fun hne => ?_⟩
  obtain ⟨n, hn, hle⟩ := hpage hne
  exact ⟨n, hu.pageAt hn, hle⟩

end Undisturbed

theorem Grows.undisturbed {w : Insert Q} (h : Grows m be w)
    (hu : Undisturbed m m' (be.slotFor w)) : Grows m' be w := by
  refine ⟨?_, fun hn => ?_, fun hn => ?_, h.extend, fun htarget => hu.replaces (h.target htarget)⟩
  · rw [hu.blocks]
    exact h.newest
  · rw [hu.nblocks]
    exact h.counted hn
  · obtain ⟨entries, hdir, hlength⟩ := h.relength hn
    exact ⟨entries, hu.hasDirectory hdir, hlength⟩

/-! ### Other backends -/

/-- The slot whose `blocks` an evictor has not cleared yet. -/
def Pc.wipes : Pc Q → Option (Fin ccNSlots)
  | .evict _ (.clear v) | .evict _ (.storeNblocks v) | .evict _ (.storeBlocks v) => some v.slot
  | _ => none

/-- **The books** of all slots. -/
structure Charges [Fintype B] (s : State B V Q) : Prop where
  counts : ∀ b, Counts s.memory (s.backends b)
  served : ∀ {i}, (s.memory.slots i).state.serves → ∃ entries, HasDirectory s.memory i entries ∧
    ((s.memory.slots i).nblocks = entries.length ∨ ∃ b n, (s.backends b).relength = some (i, n))
  balanced : ∀ {i}, (s.memory.slots i).state.serves → Library.Balanced (Backend.unsettled i)
    (s.memory.excess i) s.backends
  bytes : ∀ {i}, (s.memory.slots i).bytes ≠ 0 → (s.memory.slots i).state.serves ∨
    (∃ b, (s.backends b).pc.recorded = some i) ∨
      ∃ b e v, (s.backends b).pc = .evict e (.clear v) ∧ v.slot = i
  blocks : ∀ {i}, (s.memory.slots i).blocks ≠ 0 → (s.memory.slots i).state ≠ .empty ∨
    ∃ b, (s.backends b).pc.wipes = some i
  total : Library.Balanced (fun be : Backend Q => be.pc.owes)
    (s.memory.total - ∑ i, (s.memory.slots i).bytes) s.backends

variable {s s' : State B V Q} {b b' : B}

/-- Who rebuilds a slot loads it, clears it, or inserts into it. -/
theorem Backend.rebuilds_cases (h : be.rebuilds = some i) : (∃ q p, be.pc = .load q i p) ∨
    be.pc.wipes = some i ∨ ∃ w, be.pc.works = some w ∧ be.slotFor w = i := by
  unfold Backend.rebuilds at h
  cases hpc : be.pc with
  | load q j p =>
    rw [hpc] at h
    cases p <;> cases h <;> exact .inl ⟨q, _, rfl⟩
  | evict e p =>
    rw [hpc] at h
    cases p <;> cases h <;> exact .inr (.inl rfl)
  | insert w p =>
    rw [hpc] at h
    cases p <;> cases h <;> exact .inr (.inr ⟨w, rfl, rfl⟩)
  | grow w g added old p =>
    rw [hpc] at h
    cases h
    exact .inr (.inr ⟨w, rfl, rfl⟩)
  | _ =>
    rw [hpc] at h
    cases h

theorem Backend.rebuilds_of_wipes (h : be.pc.wipes = some i) : be.rebuilds = some i := by
  unfold Backend.rebuilds
  cases hpc : be.pc with
  | evict e p =>
    rw [hpc] at h
    cases p <;> exact h
  | _ =>
    rw [hpc] at h
    cases h

theorem Pc.clears_of_wipes {pc : Pc Q} (h : pc.wipes = some i) : pc.clears = some i := by
  cases pc with
  | evict e p => cases p <;> first | exact h | cases h
  | _ => cases h

/-- What is served is rebuilt by inserts alone. -/
theorem rebuilds_served (hord : Ordered s) (hserves : (s.memory.slots i).state.serves)
    (h : (s.backends b).rebuilds = some i) :
    ∃ w, (s.backends b).pc.works = some w ∧ (s.backends b).slotFor w = i := by
  obtain ⟨q, p, hpc⟩ | hwipes | hw := (s.backends b).rebuilds_cases h
  · rw [(hord.at_ b).loads (by rw [hpc]; rfl)] at hserves
    cases hserves
  · rw [(hord.at_ b).clears (Pc.clears_of_wipes hwipes)] at hserves
    cases hserves
  · exact hw

/-- Two inserts into one slot are one. -/
theorem works_unique (hord : Ordered s) {w w' : Insert Q} (hw : (s.backends b).pc.works = some w)
    (hw' : (s.backends b').pc.works = some w')
    (hslot : (s.backends b').slotFor w' = (s.backends b).slotFor w) : b' = b := by
  have hlocks := (hord.at_ b).locks (Backend.locks_of_works (hord.at_ b).drains hw)
  have hlocks' := (hord.at_ b').locks (Backend.locks_of_works (hord.at_ b').drains hw')
  change ((s.backends b').handles w'.cc).slot = ((s.backends b).handles w.cc).slot at hslot
  rw [hslot, hlocks] at hlocks'
  exact (Option.some.inj hlocks').symm

/-- **One backend at a time** rebuilds a slot. -/
theorem rebuilds_alone (hord : Ordered s) (hwriters : Writers s) (hne : b' ≠ b)
    (hi : (s.backends b').pc.recorded = some i ∨
      ∃ w, (s.backends b').pc.works = some w ∧ (s.backends b').slotFor w = i) :
    (s.backends b).rebuilds ≠ some i := by
  intro hrebuilds
  obtain hrecorded | ⟨w', hw', hslot'⟩ := hi
  · have hloading := (hord.at_ b').loads (Pc.loads_of_recorded hrecorded)
    obtain ⟨q, p, hpc⟩ | hwipes | ⟨w, hw, rfl⟩ := (s.backends b).rebuilds_cases hrebuilds
    · exact hne (hord.loader (Pc.loads_of_recorded hrecorded) (by rw [hpc]; rfl))
    · exact hord.cleared (Pc.clears_of_wipes hwipes) hrecorded
    · have hserves := (hwriters.present hw).serves
      change (s.memory.slots ((s.backends b).handles w.cc).slot).state = _ at hloading
      rw [hloading] at hserves
      cases hserves
  · have hserves := (hwriters.present hw').serves
    change (s.memory.slots ((s.backends b').slotFor w')).state.serves at hserves
    rw [hslot'] at hserves
    obtain ⟨w, hw, hslot⟩ := rebuilds_served hord hserves hrebuilds
    exact hne (works_unique hord hw hw' (hslot'.trans hslot.symm))

/-- Who changes a directory rebuilds the slot whose area it is. -/
theorem relinks_current (hstanding : Standing s) (hwriters : Writers s) {k : Nat}
    (hk : (s.backends b).relinks = some k) : ∃ j, (s.backends b).rebuilds = some j ∧
      (s.memory.slots j).areaHandle = k ∧ Current s.memory j := by
  have hplace := hstanding.incarnations.place b
  unfold Backend.relinks at hk
  cases hpc : (s.backends b).pc with
  | load q j p =>
    rw [hpc] at hk hplace
    cases p <;> cases hk
    exact ⟨j, by rw [Backend.rebuilds, hpc],
      ((hstanding.handles.known b).loading hpc rfl).1, hplace⟩
  | insert w p =>
    have hp := hwriters.present (b := b) (w := w) (by rw [hpc]; rfl)
    rw [hpc] at hk
    cases p <;> cases hk
    exact ⟨(s.backends b).slotFor w, by rw [Backend.rebuilds, hpc], hp.areaHandle,
      hstanding.incarnations.live hp.serves⟩
  | _ =>
    rw [hpc] at hk
    cases hk

/-- **A step leaves what the other slots publish.** -/
theorem undisturbed {c : Choice} (hstanding : Standing s) (hwriters : Writers s)
    (hbuilds : Builds codec s.memory (s.backends b) m' be')
    (hreg : Registers s.memory (s.backends b) c m' be'.pc) (hcurrent : Current s.memory i)
    (hrebuilds : (s.backends b).rebuilds ≠ some i) : Undisturbed s.memory m' i := by
  apply hbuilds.undisturbed hreg hrebuilds
  intro hrelinks
  obtain ⟨j, hj, harea, hcurrent'⟩ := relinks_current hstanding hwriters hrelinks
  rw [hcurrent'.unique hcurrent harea] at hj
  exact hrebuilds hj

theorem works_of_relength {n : Nat} (h : be.relength = some (i, n)) :
    ∃ w, be.pc.works = some w ∧ be.slotFor w = i := by
  unfold Backend.relength at h
  cases hpc : be.pc with
  | grow w g added old p =>
    rw [hpc] at h
    cases g <;> cases p <;> cases h
    exact ⟨w, rfl, rfl⟩
  | _ =>
    rw [hpc] at h
    cases h

/-- What the others know. -/
theorem Counts.others {c : Choice} (h : Counts s.memory (s.backends b')) (hstanding : Standing s)
    (hwriters : Writers s) (hne : b' ≠ b) (hbuilds : Builds codec s.memory (s.backends b) m' be')
    (hreg : Registers s.memory (s.backends b) c m' be'.pc) : Counts m' (s.backends b') := by
  have hord := hstanding.ordered
  have hworks : ∀ {w}, (s.backends b').pc.works = some w →
      Undisturbed s.memory m' ((s.backends b').slotFor w) := fun hw =>
    undisturbed hstanding hwriters hbuilds hreg
      (hstanding.incarnations.live (hwriters.present hw).serves)
      (rebuilds_alone hord hwriters hne (.inr ⟨_, hw, rfl⟩))
  refine ⟨fun {q i p} hpc => ?_, fun {w} hw => (h.working hw).undisturbed (hworks hw)⟩
  have hold := h.load hpc
  have hload : (p = .start ∨ ∃ n, p = .create n) ∨ (s.backends b').pc.place = .loading i := by
    rw [hpc]
    cases p <;> first | exact .inr rfl | exact .inl (.inl rfl) | exact .inl (.inr ⟨_, rfl⟩)
  obtain (rfl | ⟨n, rfl⟩) | hplace := hload
  · trivial
  · trivial
  · have hcurrent := hstanding.incarnations.place b'
    rw [hplace] at hcurrent
    exact (undisturbed hstanding hwriters hbuilds hreg hcurrent
      (rebuilds_alone hord hwriters hne (.inl (Pc.recorded_of_place hplace)))).counts hold

end

end PgAcorn.SharedCache
