import PgAcorn.SharedCache.Directory
import Mathlib.Data.BitVec

/-! The bytes of what a slot publishes.

A slot publishes the directory at its `blocks` and the page arrays that the directory
names, each with the size it was allocated with; whether an array has been freed
meanwhile makes no difference to what is charged for it. -/
namespace PgAcorn.SharedCache
open Library
open CodeCache (Key ccNSlots ccDirGrow SlotState Codec CachePage)

section
variable {B V Q : Type}

/-! ### Sizes -/

def CacheArray.dir? : CacheArray Q → Option (List Nat)
  | .dir entries => some entries
  | .page _ => none

/-- The `nslots` of a page array. -/
def CacheArray.nslots? : CacheArray Q → Option Nat
  | .dir _ => none
  | .page entries => some entries.length

/-- The directory that was put at a pointer. -/
def dirAt (arena : Arena (CacheArray Q)) (dp : Nat) : Option (List Nat) :=
  (arena.block? dp).bind fun x => x.1.dir?

/-- The `nslots` of the page array that was put at a pointer. -/
def nslotsAt (arena : Arena (CacheArray Q)) (dp : Nat) : Option Nat :=
  (arena.block? dp).bind fun x => x.1.nslots?

/-- The bytes of the page array at a pointer; none if the pointer is 0. -/
def pageBytes (arena : Arena (CacheArray Q)) (dim dp : Nat) : Nat :=
  (nslotsAt arena dp).elim 0 fun n => ccPageSize n dim

/-- A directory and its page arrays. -/
def directoryBytes (arena : Arena (CacheArray Q)) (dim blocks : Nat) : Nat :=
  (dirAt arena blocks).elim 0 fun entries =>
    ccDirSize entries.length + (entries.map (pageBytes arena dim)).sum

/-- The bytes of what a slot publishes. -/
def Memory.publishedBytes (m : Memory B V Q) (i : Fin ccNSlots) : Nat :=
  (m.arena? (m.slots i).areaHandle).elim 0 fun arena =>
    directoryBytes arena (m.slots i).dim (m.slots i).blocks

/-! ### Arenas -/

variable {arena arena' arena₁ : Arena (CacheArray Q)} {blocks dim : Nat} {entries : List Nat}

/-- Arrays have the sizes they had. -/
structure KeepsSizes (arena arena' : Arena (CacheArray Q)) : Prop where
  dir : ∀ {dp entries}, dirAt arena dp = some entries → dirAt arena' dp = some entries
  nslots : ∀ {dp n}, nslotsAt arena dp = some n → nslotsAt arena' dp = some n

theorem dirAt_allocate (arena : Arena (CacheArray Q)) (x : CacheArray Q) (dp : Nat) :
    dirAt (arena.allocate x) dp = if dp = arena.next then x.dir? else dirAt arena dp := by
  unfold dirAt
  rw [Arena.block?_allocate]
  split <;> rfl

theorem nslotsAt_allocate (arena : Arena (CacheArray Q)) (x : CacheArray Q) (dp : Nat) :
    nslotsAt (arena.allocate x) dp = if dp = arena.next then x.nslots? else nslotsAt arena dp := by
  unfold nslotsAt
  rw [Arena.block?_allocate]
  split <;> rfl

theorem dirAt_modify (arena : Arena (CacheArray Q)) (p dp : Nat) (f : CacheArray Q → CacheArray Q) :
    dirAt (arena.modify p f) dp =
      if p = dp then (arena.block? dp).bind fun x => (f x.1).dir? else dirAt arena dp := by
  unfold dirAt
  rw [Arena.block?_modify]
  split
  · cases arena.block? dp <;> rfl
  · rfl

theorem nslotsAt_modify (arena : Arena (CacheArray Q)) (p dp : Nat)
    (f : CacheArray Q → CacheArray Q) : nslotsAt (arena.modify p f) dp =
      if p = dp then (arena.block? dp).bind fun x => (f x.1).nslots? else nslotsAt arena dp := by
  unfold nslotsAt
  rw [Arena.block?_modify]
  split
  · cases arena.block? dp <;> rfl
  · rfl

theorem nslots?_setEntry (k p : Nat) (x : CacheArray Q) :
    (CacheArray.setEntry k p x).nslots? = x.nslots? := by cases x <;> rfl

theorem dir?_setEntry (k p : Nat) (x : CacheArray Q) :
    (CacheArray.setEntry k p x).dir? = x.dir?.map fun entries => entries.set k p := by
  cases x <;> rfl

theorem dir?_setHit (offno : Nat) (e : Option (Scan.CodeCacheHit Q)) (x : CacheArray Q) :
    (CacheArray.setHit offno e x).dir? = x.dir? := by cases x <;> rfl

theorem nslots?_setHit (offno : Nat) (e : Option (Scan.CodeCacheHit Q)) (x : CacheArray Q) :
    (CacheArray.setHit offno e x).nslots? = x.nslots? := by
  cases x with
  | dir => rfl
  | page entries => exact congrArg some (List.length_set ..)

/-- Page arrays do not change with an entry of a directory. -/
theorem nslotsAt_setEntry (arena : Arena (CacheArray Q)) (dp k p q : Nat) :
    nslotsAt (arena.modify dp (CacheArray.setEntry k p)) q = nslotsAt arena q := by
  rw [nslotsAt_modify]
  split
  · simp only [nslots?_setEntry, nslotsAt]
  · rfl

theorem dirAt_setEntry {k p : Nat} (h : dirAt arena blocks = some entries) :
    dirAt (arena.modify blocks (CacheArray.setEntry k p)) blocks = some (entries.set k p) := by
  rw [dirAt_modify, if_pos rfl]
  obtain ⟨x, hx, hdir⟩ := Option.bind_eq_some_iff.mp h
  rw [hx, Option.bind_some, dir?_setEntry, hdir]
  rfl

namespace KeepsSizes

theorem refl (arena : Arena (CacheArray Q)) : KeepsSizes arena arena := ⟨id, id⟩

theorem trans (h : KeepsSizes arena arena₁) (h' : KeepsSizes arena₁ arena') :
    KeepsSizes arena arena' := ⟨h'.dir ∘ h.dir, h'.nslots ∘ h.nslots⟩

theorem of_eq (hdir : ∀ dp, dirAt arena' dp = dirAt arena dp)
    (hnslots : ∀ dp, nslotsAt arena' dp = nslotsAt arena dp) : KeepsSizes arena arena' :=
  ⟨fun h => (hdir _).trans h, fun h => (hnslots _).trans h⟩

theorem allocate (arena : Arena (CacheArray Q)) (x : CacheArray Q) :
    KeepsSizes arena (arena.allocate x) := by
  refine ⟨fun {dp _} h => ?_, fun {dp _} h => ?_⟩
  · rw [dirAt_allocate, if_neg, h]
    rintro rfl
    rw [dirAt, Arena.block?_next] at h
    cases h
  · rw [nslotsAt_allocate, if_neg, h]
    rintro rfl
    rw [nslotsAt, Arena.block?_next] at h
    cases h

theorem setHit (arena : Arena (CacheArray Q)) (p offno : Nat) (e : Option (Scan.CodeCacheHit Q)) :
    KeepsSizes arena (arena.modify p (CacheArray.setHit offno e)) := by
  refine .of_eq (fun dp => ?_) fun dp => ?_
  · rw [dirAt_modify]
    split
    · simp only [dir?_setHit, dirAt]
    · rfl
  · rw [nslotsAt_modify]
    split
    · simp only [nslots?_setHit, nslotsAt]
    · rfl

theorem freeAll (arena : Arena (CacheArray Q)) (ps : List Nat) :
    KeepsSizes arena (arena.freeAll ps) := by
  refine .of_eq (fun dp => ?_) fun dp => ?_
  · unfold dirAt
    rw [Arena.block?_freeAll]
    split
    · cases arena.block? dp <;> rfl
    · rfl
  · unfold nslotsAt
    rw [Arena.block?_freeAll]
    split
    · cases arena.block? dp <;> rfl
    · rfl

theorem free (arena : Arena (CacheArray Q)) (p : Nat) : KeepsSizes arena (arena.free p) :=
  freeAll arena [p]

end KeepsSizes

/-! ### Directories -/

/-- A directory of which every entry is 0 or a page array. -/
structure Publishes (arena : Arena (CacheArray Q)) (blocks : Nat) (entries : List Nat) : Prop where
  dir : dirAt arena blocks = some entries
  closed : ∀ p ∈ entries, p ≠ 0 → ∃ n, nslotsAt arena p = some n

theorem pageBytes_of_nslots {p n : Nat} (h : nslotsAt arena p = some n) :
    pageBytes arena dim p = ccPageSize n dim := by
  rw [pageBytes, h]
  rfl

@[simp] theorem pageBytes_zero (arena : Arena (CacheArray Q)) (dim : Nat) :
    pageBytes arena dim 0 = 0 := rfl

theorem sum_map_set {l : List Nat} {k old : Nat} (hk : l[k]? = some old) (f : Nat → Nat) (p : Nat) :
    ((l.set k p).map f).sum + f old = (l.map f).sum + f p := by
  induction l generalizing k with
  | nil => cases hk
  | cons first rest ih =>
    cases k with
    | zero =>
      obtain rfl := Option.some.inj hk
      rw [List.set_cons_zero, List.map_cons, List.map_cons, List.sum_cons, List.sum_cons]
      omega
    | succ k =>
      have hrest := ih (k := k) hk
      rw [List.set_cons_succ, List.map_cons, List.map_cons, List.sum_cons, List.sum_cons]
      omega

namespace Publishes

theorem bytes (h : Publishes arena blocks entries) (dim : Nat) : directoryBytes arena dim blocks =
    ccDirSize entries.length + (entries.map (pageBytes arena dim)).sum := by
  rw [directoryBytes, h.dir]
  rfl

theorem keeps (h : Publishes arena blocks entries) (hk : KeepsSizes arena arena') :
    Publishes arena' blocks entries :=
  ⟨hk.dir h.dir, fun p hp hne => (h.closed p hp hne).imp fun _ hn => hk.nslots hn⟩

theorem pageBytes_keeps (h : Publishes arena blocks entries) (hk : KeepsSizes arena arena')
    {p : Nat} (hp : p ∈ entries) : pageBytes arena' dim p = pageBytes arena dim p := by
  by_cases hne : p = 0
  · subst hne
    rfl
  · obtain ⟨n, hn⟩ := h.closed p hp hne
    rw [pageBytes_of_nslots hn, pageBytes_of_nslots (hk.nslots hn)]

theorem bytes_keeps (h : Publishes arena blocks entries) (hk : KeepsSizes arena arena')
    (dim : Nat) :
    directoryBytes arena' dim blocks = directoryBytes arena dim blocks := by
  rw [h.bytes, (h.keeps hk).bytes, List.map_congr_left fun p hp => h.pageBytes_keeps hk hp]

/-- A page array is published over another one, or over none. -/
theorem setEntry (dim : Nat) {k p old n : Nat} (h : Publishes arena blocks entries)
    (hk : entries[k]? = some old) (hp : nslotsAt arena p = some n) :
    Publishes (arena.modify blocks (CacheArray.setEntry k p)) blocks (entries.set k p) ∧
      directoryBytes (arena.modify blocks (CacheArray.setEntry k p)) dim blocks +
        pageBytes arena dim old = directoryBytes arena dim blocks + ccPageSize n dim := by
  have hset : Publishes (arena.modify blocks (CacheArray.setEntry k p)) blocks
      (entries.set k p) := by
    refine ⟨dirAt_setEntry h.dir, fun q hq hne => ?_⟩
    rw [nslotsAt_setEntry]
    obtain hq | rfl := List.mem_or_eq_of_mem_set hq
    · exact h.closed q hq hne
    · exact ⟨n, hp⟩
  refine ⟨hset, ?_⟩
  have hsum := sum_map_set hk (pageBytes arena dim) p
  rw [pageBytes_of_nslots hp] at hsum
  have hsame : pageBytes (arena.modify blocks (CacheArray.setEntry k p)) dim =
      pageBytes arena dim := by
    funext q
    rw [pageBytes, nslotsAt_setEntry]
    rfl
  rw [h.bytes, hset.bytes, hsame, List.length_set]
  omega

theorem replicate (dim n : Nat) (h : dirAt arena blocks = some (List.replicate n 0)) :
    Publishes arena blocks (List.replicate n 0) ∧
      directoryBytes arena dim blocks = ccDirSize n := by
  have hp : Publishes arena blocks (List.replicate n 0) :=
    ⟨h, fun p hp hne => absurd (List.eq_of_mem_replicate hp) hne⟩
  refine ⟨hp, ?_⟩
  rw [hp.bytes, List.length_replicate, List.map_replicate, pageBytes_zero, List.sum_replicate_nat]
  rfl

/-- A larger directory with the same page arrays. -/
theorem extend (dim : Nat) {blocks' n : Nat} (h : Publishes arena blocks entries)
    (hn : entries.length ≤ n)
    (hdir : dirAt arena blocks' = some (extendDir entries entries.length n)) :
    Publishes arena blocks' (extendDir entries entries.length n) ∧
      (extendDir entries entries.length n).length = n ∧
      directoryBytes arena dim blocks' + ccDirSize entries.length =
        directoryBytes arena dim blocks + ccDirSize n := by
  have hp : Publishes arena blocks' (extendDir entries entries.length n) := by
    refine ⟨hdir, fun p hp hne => ?_⟩
    rw [extendDir, List.take_length, List.mem_append] at hp
    obtain hp | hp := hp
    · exact h.closed p hp hne
    · exact absurd (List.eq_of_mem_replicate hp) hne
  have hlength : (extendDir entries entries.length n).length = n := by
    rw [extendDir, List.take_length, List.length_append, List.length_replicate]
    omega
  refine ⟨hp, hlength, ?_⟩
  rw [hp.bytes, h.bytes, hlength, extendDir, List.take_length, List.map_append, List.sum_append,
    List.map_replicate, pageBytes_zero, List.sum_replicate_nat]
  omega

end Publishes

end

/-! ### What a step leaves -/

section
variable {B V Q : Type} {m m' : Memory B V Q} {be be' : Backend Q} {codec : Codec V Q}
  {i : Fin ccNSlots}

/-- Where the arrays of a slot are, and what is charged for them. -/
structure Charge where
  blocks : Nat
  nblocks : Nat
  bytes : BitVec 64

def Slot.charge (slot : Slot B) : Charge := ⟨slot.blocks, slot.nblocks, slot.bytes⟩

/-- The slot whose published arrays or bytes a backend changes next. -/
def Backend.rebuilds (be : Backend Q) : Option (Fin ccNSlots) :=
  match be.pc with
  | .load _ i p => match p with
    | .start => none
    | _ => some i
  | .evict _ p => match p with
    | .clear v | .storeNblocks v | .storeBlocks v => some v.slot
    | _ => none
  | .insert w .growDir | .insert w (.growPage _) | .grow w _ _ _ _ => some (be.slotFor w)
  | _ => none

/-- The area in which a backend changes an entry of a directory next. -/
def Backend.relinks (be : Backend Q) : Option Nat :=
  match be.pc with
  | .load _ _ (.publishPage l ..) => some l.area
  | .insert w (.growPage _) => some (be.handles w.cc).area
  | _ => none

/-- What a slot publishes is as it was. -/
structure SameDirectory (m m' : Memory B V Q) (i : Fin ccNSlots) : Prop where
  areaHandle : (m'.slots i).areaHandle = (m.slots i).areaHandle
  blocks : (m'.slots i).blocks = (m.slots i).blocks
  dim : (m'.slots i).dim = (m.slots i).dim
  arena : ∀ {arena}, m.arena? (m.slots i).areaHandle = some arena →
    ∃ arena', m'.arena? (m.slots i).areaHandle = some arena' ∧ KeepsSizes arena arena'

/-- A step that leaves what a slot publishes, and its bytes. -/
structure Undisturbed (m m' : Memory B V Q) (i : Fin ccNSlots) : Prop extends
    SameDirectory m m' i where
  nblocks : (m'.slots i).nblocks = (m.slots i).nblocks
  bytes : (m'.slots i).bytes = (m.slots i).bytes

theorem SameDirectory.refl (m : Memory B V Q) (i : Fin ccNSlots) : SameDirectory m m i :=
  ⟨rfl, rfl, rfl, fun h => ⟨_, h, .refl _⟩⟩

theorem Undisturbed.refl (m : Memory B V Q) (i : Fin ccNSlots) : Undisturbed m m i :=
  ⟨.refl m i, rfl, rfl⟩

/-- Other fields of the slot change. -/
theorem SameDirectory.setSlot {slot : Slot B} (harea : slot.areaHandle = (m.slots i).areaHandle)
    (hblocks : slot.blocks = (m.slots i).blocks) (hdim : slot.dim = (m.slots i).dim) :
    SameDirectory m (m.setSlot i slot) i := by
  refine ⟨?_, ?_, ?_, fun h => ⟨_, h, .refl _⟩⟩
  · rw [setSlot_self, harea]
  · rw [setSlot_self, hblocks]
  · rw [setSlot_self, hdim]

theorem SameArrays.charge (h : SameArrays m m') (i : Fin ccNSlots) :
    (m'.slots i).charge = (m.slots i).charge := by
  unfold Slot.charge
  rw [h.blocks, h.nblocks, h.bytes]

/-- The bytes of a slot that a step does not rebuild. -/
theorem Builds.charge (h : Builds codec m be m' be') (hrebuilds : be.rebuilds ≠ some i) :
    (m'.slots i).charge = (m.slots i).charge := by
  -- a change of another slot, or of other fields
  have hother : ∀ {m₁ : Memory B V Q} {j : Fin ccNSlots} {slot : Slot B}, be.rebuilds = some j →
      m₁.slots i = m.slots i → m' = m₁.setSlot j slot →
      (m'.slots i).charge = (m.slots i).charge := by
    intro m₁ j slot hj hslots hm
    have hne : i ≠ j := by
      rintro rfl
      exact hrebuilds hj
    rw [hm, setSlot_ne _ _ hne, hslots]
  have hfields : ∀ {m₁ : Memory B V Q} {j : Fin ccNSlots} {slot : Slot B}, m₁.slots = m.slots →
      slot.charge = (m.slots j).charge → m' = m₁.setSlot j slot →
      (m'.slots i).charge = (m.slots i).charge := by
    intro m₁ j slot hslots hcharge hm
    rw [← hslots] at hcharge ⊢
    rw [hm]
    exact setSlot_congr Slot.charge hcharge i
  cases h with
  | same h => exact h.charge i
  | readOther _ _ _ _ hm | skipPage _ _ _ _ _ _ _ _ _ _ hm | loaded _ _ _ _ _ _ _ _ _ _ hm
  | quiesced _ _ _ _ _ _ _ hm | lose _ _ _ _ hm | loadPage _ _ _ _ _ _ _ _ _ _ _ _ hm
  | publishPage _ _ _ _ _ _ _ _ _ hm | loadTotal _ _ _ _ _ _ hm | newPage _ _ _ _ hm
  | growPage _ _ _ _ _ _ _ _ hm | growTotal _ _ _ _ _ hm | free _ _ _ _ _ _ hm
  | shrinkTotal _ _ _ _ _ _ hm =>
    subst hm
    rfl
  | create q j n hpc hm | loadBlocks q j l hpc hm | loadNblocks q j l _ _ hpc _ hm
  | strand q j l hpc hm | loadBytes q j _ _ _ _ hpc hm | publish q j _ _ hpc hm =>
    refine hother (j := j) (by rw [Backend.rebuilds, hpc]) ?_ hm
    rfl
  | clear e v hpc hm | clearNblocks e v hpc hm | clearBlocks e v hpc hm =>
    refine hother (j := v.slot) (by rw [Backend.rebuilds, hpc]) ?_ hm
    rfl
  | growDir w _ _ hpc _ _ hm | growNblocks w _ _ _ _ hpc hm | growBytes w _ _ _ hpc hm
  | shrinkBytes w _ _ _ _ hpc hm =>
    refine hother (j := be.slotFor w) (by rw [Backend.rebuilds, hpc]) ?_ hm
    rfl
  | mark e v hpc hm | clearTotal e v hpc hm | write w dp entries hpc hpage hm =>
    refine hfields ?_ ?_ hm <;> rfl
  | retire w _ _ _ _ hpc _ hm =>
    split at hm
    · refine hfields ?_ ?_ hm <;> rfl
    · rw [hm]
  | reclaim k j cc hpc hmapped hm =>
    rw [hm]
    cases k with
    | release k =>
      refine (setSlot_congr Slot.charge ?_ i).trans (setSlot_congr Slot.charge ?_ i) <;> rfl
    | growDir w | growPage w old => exact setSlot_congr Slot.charge (by rfl) i
  | clearHit x t cc dp entries hpc hpage hm =>
    rw [hm]
    exact setSlot_congr Slot.charge (by rfl) i

/-- The sizes in an area in which a step changes no directory. -/
theorem Builds.sizes (h : Builds codec m be m' be') {k : Nat} (hrelinks : be.relinks ≠ some k)
    {arena : Arena (CacheArray Q)} (harena : m.arena? k = some arena) :
    ∃ arena', m'.arena? k = some arena' ∧ KeepsSizes arena arena' := by
  -- the arena of another area, or a change that keeps sizes
  have hother : ∀ {j f}, be.relinks = some j → m'.arena? k = (m.modifyArena j f).arena? k →
      ∃ arena', m'.arena? k = some arena' ∧ KeepsSizes arena arena' := by
    intro j f hj hm
    have hne : j ≠ k := by
      rintro rfl
      exact hrelinks hj
    rw [hm, arena?_modifyArena, if_neg hne]
    exact ⟨arena, harena, .refl arena⟩
  have hkeeps : ∀ {j} {f : Arena (CacheArray Q) → Arena (CacheArray Q)},
      (∀ arena, KeepsSizes arena (f arena)) → m'.arena? k = (m.modifyArena j f).arena? k →
      ∃ arena', m'.arena? k = some arena' ∧ KeepsSizes arena arena' := by
    intro j f hf hm
    rw [hm, arena?_modifyArena, harena]
    split
    · exact ⟨f arena, rfl, hf arena⟩
    · exact ⟨arena, rfl, .refl arena⟩
  cases h with
  | same h =>
    rw [h.arena?]
    exact ⟨arena, harena, .refl arena⟩
  | lose _ _ _ _ hm | create _ _ _ _ hm =>
    rw [hm]
    exact ⟨arena, arena?_append _ harena, .refl arena⟩
  | readOther _ _ _ _ hm | skipPage _ _ _ _ _ _ _ _ _ _ hm | loaded _ _ _ _ _ _ _ _ _ _ hm
  | quiesced _ _ _ _ _ _ _ hm | loadBlocks _ _ _ _ hm | loadNblocks _ _ _ _ _ _ _ hm
  | strand _ _ _ _ hm | loadBytes _ _ _ _ _ _ _ hm | loadTotal _ _ _ _ _ _ hm
  | publish _ _ _ _ _ hm | mark _ _ _ hm | clear _ _ _ hm | clearNblocks _ _ _ hm
  | clearBlocks _ _ _ hm | clearTotal _ _ _ hm
  | growNblocks _ _ _ _ _ _ hm | growBytes _ _ _ _ _ hm | growTotal _ _ _ _ _ hm
  | shrinkBytes _ _ _ _ _ _ hm | shrinkTotal _ _ _ _ _ _ hm =>
    rw [hm]
    exact ⟨arena, harena, .refl arena⟩
  | retire _ _ _ _ _ _ _ hm =>
    rw [hm]
    split <;> exact ⟨arena, harena, .refl arena⟩
  | loadPage _ _ _ _ _ _ _ _ _ _ _ _ hm =>
    apply hkeeps (fun arena => KeepsSizes.allocate arena _)
    rw [hm]
  | publishPage q j l _ _ _ _ _ hpc hm =>
    apply hother (j := l.area) (by rw [Backend.relinks, hpc])
    rw [hm]
  | reclaim d j cc hpc _ hm =>
    apply hkeeps (fun arena => KeepsSizes.freeAll arena (m.slots j).retired)
    rw [hm]
    cases d <;> rfl
  | growDir w _ _ _ _ _ hm =>
    apply hkeeps (fun arena => KeepsSizes.allocate arena _)
    rw [hm]
    rfl
  | newPage w _ hpc _ hm | growPage w _ _ _ hpc _ _ _ hm =>
    unfold publishArray at hm
    apply hother (j := (be.handles w.cc).area) (by rw [Backend.relinks, hpc])
    rw [hm]
  | write w dp _ _ _ hm =>
    apply hkeeps (fun arena => KeepsSizes.setHit arena dp _ _)
    rw [hm]
    rfl
  | free w _ _ dp _ hpc hm =>
    apply hkeeps (fun arena => KeepsSizes.free arena dp)
    rw [hm]
  | clearHit _ t _ dp _ _ _ hm =>
    apply hkeeps (fun arena => KeepsSizes.setHit arena dp _ _)
    rw [hm]
    rfl

/-- **Other slots**: a step that does not rebuild a slot leaves what it publishes. -/
theorem Builds.undisturbed {c : Choice} (h : Builds codec m be m' be')
    (hreg : Registers m be c m' be'.pc) (hrebuilds : be.rebuilds ≠ some i)
    (hrelinks : be.relinks ≠ some (m.slots i).areaHandle) : Undisturbed m m' i where
  areaHandle := hreg.areaHandle fun q n hpc => hrebuilds (by rw [Backend.rebuilds, hpc])
  blocks := congrArg Charge.blocks (h.charge hrebuilds)
  dim := by
    refine hreg.dim (fun q n hpc => absurd (by rw [Backend.rebuilds, hpc]) hrebuilds)
      fun e v hpc hv => hrebuilds ?_
    subst hv
    rw [Backend.rebuilds, hpc]
  arena := h.sizes hrelinks
  nblocks := congrArg Charge.nblocks (h.charge hrebuilds)
  bytes := congrArg Charge.bytes (h.charge hrebuilds)

end

end PgAcorn.SharedCache
