import PgAcorn.SharedCache.Working
import PgAcorn.SharedCache.Arrays
import Mathlib.Data.Multiset.AddSub

/-! The arrays of a slot.

A directory in an arena names its page arrays; beside them the slot has retired
arrays, and a backend that grows or loads the slot has an array in its hands. All of
these are different blocks, and none has been freed (`Directory`). -/
namespace PgAcorn.SharedCache
open Library
open CodeCache (Key ccNSlots ccDirGrow SlotState Codec CachePage)

section
variable {Q : Type}

/-- The page arrays a directory names. -/
def pages (entries : List Nat) : Multiset Nat := (entries.filter fun p => decide (p ≠ 0) : List Nat)

/-- A directory, its page arrays and some others: different blocks, none of them
freed. -/
structure Directory (arena : Arena (CacheArray Q)) (blocks : Nat) (entries : List Nat)
    (others : Multiset Nat) : Prop where
  dir : arena.get? blocks = some (.dir entries)
  nodup : (blocks ::ₘ (pages entries + others)).Nodup
  live : ∀ p ∈ pages entries + others, (arena.get? p).isSome

/-- What may be read stays, and a directory with its entries. -/
structure Retains (arena arena' : Arena (CacheArray Q)) : Prop where
  live : ∀ {p}, (arena.get? p).isSome → (arena'.get? p).isSome
  dir : ∀ {p entries}, arena.get? p = some (.dir entries) → arena'.get? p = some (.dir entries)

/-- No array at all. -/
def someArray (p : Nat) : Multiset Nat := if p = 0 then 0 else {p}

variable {arena arena' : Arena (CacheArray Q)} {blocks : Nat} {entries : List Nat}
  {others others' : Multiset Nat}

/-! ### Entries -/

theorem pages_cons (p : Nat) (entries : List Nat) : pages (p :: entries) = someArray p + pages entries := by
  unfold pages someArray
  by_cases hp : p = 0 <;> simp [hp]

theorem pages_replicate (n : Nat) : pages (List.replicate n 0) = 0 := by simp [pages]

theorem pages_append (l l' : List Nat) : pages (l ++ l') = pages l + pages l' := by
  simp [pages]

theorem pages_take_le (entries : List Nat) (n : Nat) : pages (entries.take n) ≤ pages entries := by
  have hsplit := pages_append (entries.take n) (entries.drop n)
  rw [List.take_append_drop] at hsplit
  rw [hsplit]
  exact Multiset.le_add_right _ _

theorem pages_set {old : Nat} {k : Nat} (hk : entries[k]? = some old) (p : Nat) :
    pages (entries.set k p) + someArray old = someArray p + pages entries := by
  induction entries generalizing k with
  | nil => cases hk
  | cons first rest ih =>
    cases k with
    | zero =>
      obtain rfl := Option.some.inj hk
      rw [List.set_cons_zero, pages_cons, pages_cons]
      abel
    | succ k =>
      rw [List.set_cons_succ, pages_cons, pages_cons, add_assoc, ih hk]
      abel

theorem pages_set_le (entries : List Nat) (k p : Nat) :
    pages (entries.set k p) ≤ someArray p + pages entries := by
  cases hk : entries[k]? with
  | none =>
    rw [List.set_eq_of_length_le (List.getElem?_eq_none_iff.mp hk)]
    exact Multiset.le_add_left _ _
  | some old =>
    rw [← pages_set hk p]
    exact Multiset.le_add_right _ _

theorem someArray_of_ne {p : Nat} (h : p ≠ 0) : someArray p = {p} := if_neg h

/-! ### Arenas -/

namespace Retains

theorem refl (arena : Arena (CacheArray Q)) : Retains arena arena := ⟨id, id⟩

theorem trans {arena₁ : Arena (CacheArray Q)} (h : Retains arena arena₁) (h' : Retains arena₁ arena') :
    Retains arena arena' := ⟨h'.live ∘ h.live, h'.dir ∘ h.dir⟩

theorem allocate (arena : Arena (CacheArray Q)) (x : CacheArray Q) :
    Retains arena (arena.allocate x) := by
  have hold : ∀ {p}, (arena.get? p).isSome → (arena.allocate x).get? p = arena.get? p := by
    intro p hp
    rw [Arena.get?_allocate, if_neg]
    intro hnext
    rw [hnext, Arena.get?_next] at hp
    cases hp
  refine ⟨fun hp => ?_, fun hp => ?_⟩
  · rw [hold hp]
    exact hp
  · rw [hold (by rw [hp]; rfl)]
    exact hp

theorem setHit (arena : Arena (CacheArray Q)) (p offno : Nat) (e : Option (Scan.CodeCacheHit Q)) :
    Retains arena (arena.modify p (CacheArray.setHit offno e)) := by
  refine ⟨fun hq => ?_, fun hq => ?_⟩ <;> rw [Arena.get?_modify] <;> split
  · rw [Option.isSome_map]
    exact hq
  · exact hq
  · rw [hq]
    rfl
  · exact hq

end Retains

namespace Directory

theorem retains (h : Directory arena blocks entries others) (hr : Retains arena arena') :
    Directory arena' blocks entries others :=
  ⟨hr.dir h.dir, h.nodup, fun p hp => hr.live (h.live p hp)⟩

/-- Some of the others are forgotten. -/
theorem weaken (h : Directory arena blocks entries others) (hle : others' ≤ others) :
    Directory arena blocks entries others' := by
  have hle' : pages entries + others' ≤ pages entries + others := Multiset.add_le_add_left hle
  exact ⟨h.dir, Multiset.nodup_of_le (Multiset.cons_le_cons _ hle') h.nodup,
    fun p hp => h.live p (Multiset.mem_of_le hle' hp)⟩

theorem live_blocks (h : Directory arena blocks entries others) {p : Nat}
    (hp : p ∈ blocks ::ₘ (pages entries + others)) : (arena.get? p).isSome := by
  obtain rfl | hp := Multiset.mem_cons.mp hp
  · rw [h.dir]
    rfl
  · exact h.live p hp

theorem ne_zero (h : Directory arena blocks entries others) {p : Nat} (hp : p ∈ others) : p ≠ 0 := by
  intro hzero
  have hlive := h.live p (Multiset.mem_add.mpr (.inr hp))
  rw [hzero] at hlive
  cases hlive

theorem next_notMem (h : Directory arena blocks entries others) :
    arena.next ∉ blocks ::ₘ (pages entries + others) := by
  intro hp
  have hlive := h.live_blocks hp
  rw [Arena.get?_next] at hlive
  cases hlive

/-- A new page array. -/
theorem allocate (h : Directory arena blocks entries others) (x : CacheArray Q) :
    Directory (arena.allocate x) blocks entries (arena.next ::ₘ others) := by
  have hr := h.retains (.allocate arena x)
  refine ⟨hr.dir, ?_, fun p hp => ?_⟩
  · rw [Multiset.add_cons, Multiset.cons_swap, Multiset.nodup_cons]
    exact ⟨h.next_notMem, h.nodup⟩
  · rw [Multiset.add_cons] at hp
    obtain rfl | hp := Multiset.mem_cons.mp hp
    · rw [Arena.get?_allocate, if_pos rfl]
      rfl
    · exact hr.live p hp

/-- An array in hand is published as a page. -/
theorem setEntry {k p : Nat} (h : Directory arena blocks entries (p ::ₘ others))
    (hothers : pages (entries.set k p) + others' ≤ p ::ₘ (pages entries + others)) :
    Directory (arena.modify blocks (CacheArray.setEntry k p)) blocks (entries.set k p) others' := by
  have hsame : ∀ {q}, (arena.get? q).isSome →
      ((arena.modify blocks (CacheArray.setEntry k p)).get? q).isSome := by
    intro q hq
    rw [Arena.get?_modify]
    split
    · rw [Option.isSome_map]
      exact hq
    · exact hq
  rw [← Multiset.add_cons] at hothers
  refine ⟨?_, Multiset.nodup_of_le (Multiset.cons_le_cons _ hothers) h.nodup,
    fun q hq => hsame (h.live q (Multiset.mem_of_le hothers hq))⟩
  rw [Arena.get?_modify, if_pos rfl, h.dir]
  rfl

/-- A page is replaced, and the array before it is in hand. -/
theorem replace {k p old : Nat} (h : Directory arena blocks entries (p ::ₘ others)) (hp : p ≠ 0)
    (hk : entries[k]? = some old) :
    Directory (arena.modify blocks (CacheArray.setEntry k p)) blocks (entries.set k p)
      (someArray old + others) := by
  apply h.setEntry
  rw [← add_assoc, pages_set hk, someArray_of_ne hp, add_assoc]
  exact le_of_eq (Multiset.singleton_add _ _)

theorem publish {k p : Nat} (h : Directory arena blocks entries (p ::ₘ others)) (hp : p ≠ 0) :
    Directory (arena.modify blocks (CacheArray.setEntry k p)) blocks (entries.set k p) others := by
  apply h.setEntry
  rw [← Multiset.cons_add, ← Multiset.singleton_add, ← someArray_of_ne hp]
  exact Multiset.add_le_add_right (pages_set_le entries k p)

/-- A larger directory takes over, and the one before it is in hand. -/
theorem grow {entries' : List Nat} (h : Directory arena blocks entries others)
    (hle : pages entries' ≤ pages entries) :
    Directory (arena.allocate (.dir entries')) arena.next entries' (blocks ::ₘ others) := by
  have hr := h.retains (.allocate arena (.dir entries'))
  have hle' : pages entries' + blocks ::ₘ others ≤ blocks ::ₘ (pages entries + others) := by
    rw [Multiset.add_cons]
    exact Multiset.cons_le_cons _ (Multiset.add_le_add_right hle)
  refine ⟨?_, ?_, fun p hp => ?_⟩
  · rw [Arena.get?_allocate, if_pos rfl]
  · rw [Multiset.nodup_cons]
    exact ⟨fun hnext => h.next_notMem (Multiset.mem_of_le hle' hnext),
      Multiset.nodup_of_le hle' h.nodup⟩
  · exact hr.live_blocks (Multiset.mem_of_le hle' hp)

/-- Some of the others are freed. -/
theorem freeAll {ps : List Nat} (h : Directory arena blocks entries ((ps : Multiset Nat) + others)) :
    Directory (arena.freeAll ps) blocks entries others := by
  have hnodup := h.nodup
  have heq : blocks ::ₘ (pages entries + ((ps : Multiset Nat) + others)) =
      ps + (blocks ::ₘ (pages entries + others)) := by
    rw [Multiset.add_cons]
    congr 1
    abel
  rw [heq, Multiset.nodup_add] at hnodup
  obtain ⟨-, hrest, hdisjoint⟩ := hnodup
  have hkept : ∀ {p}, p ∈ blocks ::ₘ (pages entries + others) →
      (arena.freeAll ps).get? p = arena.get? p := by
    intro p hp
    rw [Arena.get?_freeAll, if_neg]
    intro hmem
    exact Multiset.disjoint_left.mp hdisjoint (Multiset.mem_coe.mpr hmem) hp
  refine ⟨?_, hrest, fun p hp => ?_⟩
  · rw [hkept (Multiset.mem_cons_self _ _)]
    exact h.dir
  · rw [hkept (Multiset.mem_cons_of_mem hp)]
    apply h.live p
    rw [← add_assoc, add_comm (pages entries), add_assoc]
    exact Multiset.mem_add.mpr (.inr hp)

theorem free {p : Nat} (h : Directory arena blocks entries (p ::ₘ others)) :
    Directory (arena.free p) blocks entries others := by
  have hlist : Directory arena blocks entries ((([p] : List Nat) : Multiset Nat) + others) := h
  exact hlist.freeAll

/-- The directory of a new area. -/
theorem create (n : Nat) : Directory ((Arena.empty : Arena (CacheArray Q)).allocate
    (.dir (List.replicate n 0))) 1 (List.replicate n 0) 0 := by
  refine ⟨by rw [Arena.get?_allocate]; rfl, ?_, fun p hp => ?_⟩
  · simp [pages_replicate]
  · rw [pages_replicate] at hp
    cases hp

end Directory

end

/-! ### What a slot owns -/

section
variable {B V Q : Type} {m m' : Memory B V Q} {be be' : Backend Q} {codec : Codec V Q}
  {i : Fin ccNSlots} {blocks : Nat} {inHand : Multiset Nat}

theorem arena?_modifyArena (m : Memory B V Q) (j k : Nat)
    (f : Arena (CacheArray Q) → Arena (CacheArray Q)) :
    (m.modifyArena j f).arena? k = if j = k then (m.arena? k).map f else m.arena? k := by
  unfold Memory.arena? Memory.modifyArena Memory.modifyArea
  rw [List.getElem?_modify]
  cases m.areas[k]? with
  | none => simp
  | some a =>
    simp only [Option.map_some]
    split <;> rfl

theorem arena?_append {m : Memory B V Q} {k : Nat} {arena : Arena (CacheArray Q)} (a : Area Q)
    (h : m.arena? k = some arena) : { m with areas := m.areas ++ [a] }.arena? k = some arena := by
  unfold Memory.arena? at *
  obtain ⟨area, harea, rfl⟩ := Option.map_eq_some_iff.mp h
  have hlt := (List.getElem?_eq_some_iff.mp harea).1
  dsimp only
  rw [List.getElem?_append_left hlt, harea]
  rfl

/-- The arrays of a slot in its area: those published under `blocks`, those that wait
on the slot's list, and those that a backend has in hand. -/
def Owned (m : Memory B V Q) (i : Fin ccNSlots) (blocks : Nat) (inHand : Multiset Nat) : Prop :=
  ∃ arena entries, m.arena? (m.slots i).areaHandle = some arena ∧
    Directory arena blocks entries (((m.slots i).retired : Multiset Nat) + inHand)

/-- An entry of the slot's directory. -/
def HasEntry (m : Memory B V Q) (i : Fin ccNSlots) (blkno old : Nat) : Prop :=
  ∃ arena entries, m.arena? (m.slots i).areaHandle = some arena ∧
    arena.get? (m.slots i).blocks = some (.dir entries) ∧ entries[blkno]? = some old

/-- A step that takes nothing from a slot. -/
structure Aside (m m' : Memory B V Q) (i : Fin ccNSlots) : Prop where
  areaHandle : (m'.slots i).areaHandle = (m.slots i).areaHandle
  blocks : (m'.slots i).blocks = (m.slots i).blocks
  retired : (m'.slots i).retired = (m.slots i).retired
  arena : ∀ {arena}, m.arena? (m.slots i).areaHandle = some arena →
    ∃ arena', m'.arena? (m.slots i).areaHandle = some arena' ∧ Retains arena arena'

theorem Owned.aside (h : Owned m i blocks inHand) (ha : Aside m m' i) :
    Owned m' i blocks inHand := by
  obtain ⟨arena, entries, harena, hdir⟩ := h
  obtain ⟨arena', harena', hr⟩ := ha.arena harena
  refine ⟨arena', entries, ?_, ?_⟩
  · rw [ha.areaHandle]
    exact harena'
  · rw [ha.retired]
    exact hdir.retains hr

theorem HasEntry.aside {blkno old : Nat} (h : HasEntry m i blkno old) (ha : Aside m m' i) :
    HasEntry m' i blkno old := by
  obtain ⟨arena, entries, harena, hdir, hentry⟩ := h
  obtain ⟨arena', harena', hr⟩ := ha.arena harena
  refine ⟨arena', entries, ?_, ?_, hentry⟩
  · rw [ha.areaHandle]
    exact harena'
  · rw [ha.blocks]
    exact hr.dir hdir

theorem Owned.weaken {inHand' : Multiset Nat} (h : Owned m i blocks inHand) (hle : inHand' ≤ inHand) :
    Owned m i blocks inHand' := by
  obtain ⟨arena, entries, harena, hdir⟩ := h
  exact ⟨arena, entries, harena, hdir.weaken (Multiset.add_le_add_left hle)⟩

/-- The slot whose arrays a backend changes next. -/
def Backend.touches (be : Backend Q) : Option (Fin ccNSlots) :=
  match be.pc with
  | .load _ i p => match p with
    | .start => none
    | _ => some i
  | .evict _ p => match p with
    | .clear v | .storeNblocks v | .storeBlocks v => some v.slot
    | _ => none
  | .drain _ i _ .free => some i
  | .insert w .growDir | .insert w (.growPage _) | .grow w _ _ _ _ => some (be.slotFor w)
  | _ => none

/-- The area in which a backend next frees an array or changes a directory. -/
def Backend.rewrites (be : Backend Q) : Option Nat :=
  match be.pc with
  | .load _ _ (.publishPage l ..) => some l.area
  | .drain _ _ cc .free => some (be.handles cc).area
  | .insert w (.growPage _) | .grow w _ _ _ .free => some (be.handles w.cc).area
  | _ => none

/-- The area of a slot changes with its creation only. -/
theorem Registers.areaHandle {c : Choice} {pc' : Pc Q} (hreg : Registers m be c m' pc')
    (hcreate : ∀ q n, be.pc ≠ .load q i (.create n)) :
    (m'.slots i).areaHandle = (m.slots i).areaHandle := by
  cases hreg with
  | same hs _ | pick _ _ _ _ hs | lose _ _ _ _ _ _ _ hs => exact hs.areaHandle i
  | name _ _ _ _ _ _ _ hs | claim _ _ _ _ _ hs | publish _ _ _ _ _ _ hs | empty _ _ _ _ hs
  | losePin _ _ _ _ _ _ hs | clear _ _ _ _ hs | dropPin _ _ _ _ _ _ hs =>
    exact (hs.areaHandle i).trans (setSlot_congr Slot.areaHandle (by rfl) i)
  | create q j n hpc _ _ _ hs =>
    have hne : i ≠ j := by
      intro hj
      rw [← hj] at hpc
      exact hcreate q n hpc
    rw [hs.areaHandle, setSlot_ne _ _ hne]

/-- What a step leaves published in a slot that it does not touch. -/
theorem Builds.published (h : Builds codec m be m' be') (htouches : be.touches ≠ some i) :
    (m'.slots i).blocks = (m.slots i).blocks ∧ (m'.slots i).retired = (m.slots i).retired := by
  have hne : ∀ {j}, be.touches = some j → i ≠ j := by
    intro j hj hij
    rw [hj, hij] at htouches
    exact htouches rfl
  -- a change of another slot, or of other fields
  have hother : ∀ {m₁ : Memory B V Q} {j : Fin ccNSlots} {slot : Slot B}, be.touches = some j →
      m₁.slots i = m.slots i → m' = m₁.setSlot j slot →
      (m'.slots i).blocks = (m.slots i).blocks ∧ (m'.slots i).retired = (m.slots i).retired := by
    intro m₁ j slot hj hslots hm
    rw [hm, setSlot_ne _ _ (hne hj), hslots]
    exact ⟨rfl, rfl⟩
  have hfields : ∀ {m₁ : Memory B V Q} {j : Fin ccNSlots} {slot : Slot B},
      m₁.slots = m.slots → slot.blocks = (m.slots j).blocks → slot.retired = (m.slots j).retired →
      m' = m₁.setSlot j slot →
      (m'.slots i).blocks = (m.slots i).blocks ∧ (m'.slots i).retired = (m.slots i).retired := by
    intro m₁ j slot hslots hblocks hretired hm
    rw [← hslots] at hblocks hretired ⊢
    rw [hm]
    exact ⟨setSlot_congr Slot.blocks hblocks i, setSlot_congr Slot.retired hretired i⟩
  cases h with
  | same h => exact ⟨h.blocks i, h.retired i⟩
  | readOther _ _ _ _ hm | skipPage _ _ _ _ _ _ _ _ _ _ hm | loaded _ _ _ _ _ _ _ _ _ _ hm
  | quiesced _ _ _ _ _ _ _ hm | lose _ _ _ _ hm | loadPage _ _ _ _ _ _ _ _ _ _ _ _ hm
  | publishPage _ _ _ _ _ _ _ _ _ hm | loadTotal _ _ _ _ _ _ hm | newPage _ _ _ _ hm
  | growPage _ _ _ _ _ _ _ _ hm | growTotal _ _ _ _ _ hm | free _ _ _ _ _ _ hm
  | shrinkTotal _ _ _ _ _ _ hm =>
    rw [hm]
    exact ⟨rfl, rfl⟩
  | create q j n hpc hm | loadBlocks q j l hpc hm | loadNblocks q j l _ _ hpc _ hm
  | strand q j l hpc hm | loadBytes q j _ _ _ _ hpc hm | publish q j _ _ hpc hm =>
    refine hother (j := j) (by rw [Backend.touches, hpc]) ?_ hm
    rfl
  | clear e v hpc hm | clearNblocks e v hpc hm | clearBlocks e v hpc hm =>
    refine hother (j := v.slot) (by rw [Backend.touches, hpc]) ?_ hm
    rfl
  | mark e v hpc hm | clearTotal e v hpc hm => refine hfields ?_ ?_ ?_ hm <;> rfl
  | reclaim k j cc hpc hmapped hm =>
    have hj : be.touches = some j := by rw [Backend.touches, hpc]
    cases k with
    | release k =>
      rw [hm]
      dsimp only [drained, Memory.unlock]
      rw [setSlot_ne _ _ (hne hj), setSlot_ne _ _ (hne hj)]
      exact ⟨rfl, rfl⟩
    | growDir w | growPage w old =>
      refine hother hj ?_ hm
      rfl
  | growDir w _ _ hpc _ _ hm | growNblocks w _ _ _ _ hpc hm | growBytes w _ _ _ hpc hm
  | shrinkBytes w _ _ _ _ hpc hm =>
    refine hother (j := be.slotFor w) (by rw [Backend.touches, hpc]) ?_ hm
    rfl
  | retire w _ _ _ _ hpc _ hm =>
    split at hm
    · refine hother (j := be.slotFor w) (by rw [Backend.touches, hpc]) ?_ hm
      rfl
    · rw [hm]
      exact ⟨rfl, rfl⟩
  | write w dp entries hpc hpage hm => refine hfields ?_ ?_ ?_ hm <;> rfl
  | clearHit x t cc dp entries hpc hpage hm =>
    rw [hm]
    exact ⟨setSlot_congr Slot.blocks (by rfl) i, setSlot_congr Slot.retired (by rfl) i⟩

/-- What a step leaves of an area that it does not rewrite. -/
theorem Builds.arena (h : Builds codec m be m' be') {k : Nat} (hrewrites : be.rewrites ≠ some k)
    {arena : Arena (CacheArray Q)} (harena : m.arena? k = some arena) :
    ∃ arena', m'.arena? k = some arena' ∧ Retains arena arena' := by
  have hne : ∀ {j}, be.rewrites = some j → j ≠ k := by
    intro j hj hjk
    rw [hj, hjk] at hrewrites
    exact hrewrites rfl
  -- the arena of another area, or a change that only adds
  have hother : ∀ {j f}, be.rewrites = some j → m'.arena? k = (m.modifyArena j f).arena? k →
      ∃ arena', m'.arena? k = some arena' ∧ Retains arena arena' := by
    intro j f hj hm
    rw [hm, arena?_modifyArena, if_neg (hne hj)]
    exact ⟨arena, harena, .refl arena⟩
  have hadds : ∀ {j} {f : Arena (CacheArray Q) → Arena (CacheArray Q)},
      (∀ arena, Retains arena (f arena)) → m'.arena? k = (m.modifyArena j f).arena? k →
      ∃ arena', m'.arena? k = some arena' ∧ Retains arena arena' := by
    intro j f hf hm
    rw [hm, arena?_modifyArena, harena]
    split
    · exact ⟨f arena, rfl, hf arena⟩
    · exact ⟨arena, rfl, .refl arena⟩
  cases h with
  | same h =>
    rw [h.arena?]
    exact ⟨arena, harena, .refl arena⟩
  | lose _ _ _ _ hm | create _ _ _ _ hm =>
    rw [hm]
    exact ⟨arena, arena?_append _ harena, .refl arena⟩
  | readOther _ _ _ _ hm | skipPage _ _ _ _ _ _ _ _ _ _ hm | loaded _ _ _ _ _ _ _ _ _ _ hm
  | quiesced _ _ _ _ _ _ _ hm | loadBlocks _ _ _ _ hm | loadNblocks _ _ _ _ _ _ _ hm
  | strand _ _ _ _ hm | loadBytes _ _ _ _ _ _ _ hm | loadTotal _ _ _ _ _ _ hm
  | publish _ _ _ _ _ hm | mark _ _ _ hm | clear _ _ _ hm | clearNblocks _ _ _ hm
  | clearBlocks _ _ _ hm | clearTotal _ _ _ hm
  | growNblocks _ _ _ _ _ _ hm | growBytes _ _ _ _ _ hm | growTotal _ _ _ _ _ hm
  | shrinkBytes _ _ _ _ _ _ hm | shrinkTotal _ _ _ _ _ _ hm =>
    rw [hm]
    exact ⟨arena, harena, .refl arena⟩
  | retire _ _ _ _ _ _ _ hm =>
    rw [hm]
    split <;> exact ⟨arena, harena, .refl arena⟩
  | loadPage _ _ _ _ _ _ _ _ _ _ _ _ hm =>
    apply hadds (fun arena => Retains.allocate arena _)
    rw [hm]
  | publishPage q j l _ _ _ _ _ hpc hm =>
    apply hother (j := l.area) (by rw [Backend.rewrites, hpc])
    rw [hm]
  | reclaim d j cc hpc _ hm =>
    apply hother (j := (be.handles cc).area) (f := fun arena => arena.freeAll (m.slots j).retired)
      (by rw [Backend.rewrites, hpc])
    rw [hm]
    cases d <;> rfl
  | growDir w _ _ _ _ _ hm =>
    apply hadds (fun arena => Retains.allocate arena _)
    rw [hm]
    rfl
  | newPage w _ hpc _ hm | growPage w _ _ _ hpc _ _ _ hm =>
    unfold publishArray at hm
    apply hother (j := (be.handles w.cc).area) (by rw [Backend.rewrites, hpc])
    rw [hm]
  | write w dp _ _ _ hm =>
    apply hadds (fun arena => Retains.setHit arena dp _ _)
    rw [hm]
    rfl
  | free w _ _ _ _ hpc hm =>
    apply hother (j := (be.handles w.cc).area) (by rw [Backend.rewrites, hpc])
    rw [hm]
  | clearHit _ t _ dp _ _ _ hm =>
    apply hadds (fun arena => Retains.setHit arena dp _ _)
    rw [hm]
    rfl

/-- **Other slots**: a step takes nothing from a slot whose arrays it does not change. -/
theorem Builds.aside {c : Choice} (h : Builds codec m be m' be')
    (hreg : Registers m be c m' be'.pc) (htouches : be.touches ≠ some i)
    (hrewrites : be.rewrites ≠ some (m.slots i).areaHandle) : Aside m m' i where
  areaHandle := hreg.areaHandle fun q n hpc => htouches (by rw [Backend.touches, hpc])
  blocks := (h.published htouches).1
  retired := (h.published htouches).2
  arena := h.arena hrewrites

end

end PgAcorn.SharedCache
