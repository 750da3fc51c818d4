import PgAcorn.SharedCache.Growth

/-! Byte accounting over whole runs.

With no operation in flight the total is the sum of the slots' bytes, and these are the
bytes of what each slot publishes (`bytes_exact`), where an evictor takes off the total
what its victim still has. The evictor reads the bytes before it locks the slot, and a
growth in between stays in the total (`total_after_stale_read`). -/
namespace PgAcorn.SharedCache
open Library
open CodeCache (Key ccNSlots ccDirGrow SlotState Codec CachePage indexX indexY firstSlot
  plainCodec)

section
variable {B V Q : Type} {m m' : Memory B V Q} {b : B} {be be' : Backend Q} {codec : Codec V Q}
  {i : Fin ccNSlots} {w : Insert Q}

/-! ### The slot that an insert works on -/

/-- A step on a slot's arrays and bytes that is charged to the backend. -/
structure Settles (m m' : Memory B V Q) (be be' : Backend Q) (i : Fin ccNSlots) : Prop where
  directory : ∃ entries, HasDirectory m' i entries ∧
    ((m'.slots i).nblocks = entries.length ∨ ∃ n, be'.relength = some (i, n))
  excess : m'.excess i + be.unsettled i = m.excess i + be'.unsettled i

theorem unsettled_of_builds (h : be.pc.builds = false) (i : Fin ccNSlots) : be.unsettled i = 0 := by
  unfold Backend.unsettled
  cases hpc : be.pc with
  | grow w g added old p =>
    rw [hpc] at h
    cases h
  | _ => rfl

theorem relength_of_builds (h : be.pc.builds = false) : be.relength = none := by
  unfold Backend.relength
  cases hpc : be.pc with
  | grow w g added old p =>
    rw [hpc] at h
    cases h
  | _ => rfl

theorem relength_of_growing {w : Insert Q} {g : Growth} {added : Nat} {old : Option (Nat × Nat)}
    {p : GrowPc} (hpc : be.pc = .grow w g added old p) (hp : p ≠ .storeNblocks) :
    be.relength = none := by
  unfold Backend.relength
  rw [hpc]
  cases g with
  | page dp => rfl
  | dir dp n => cases p <;> first | rfl | exact absurd rfl hp

theorem HasDirectory.unique {entries entries' : List Nat} (h : HasDirectory m i entries)
    (h' : HasDirectory m i entries') : entries = entries' := by
  obtain ⟨arena, harena, hp⟩ := h
  obtain ⟨arena', harena', hp'⟩ := h'
  obtain rfl := Option.some.inj (harena.symm.trans harena')
  exact Option.some.inj (hp.dir.symm.trans hp'.dir)

theorem PageAt.unique {dp n n' : Nat} (h : PageAt m i dp n) (h' : PageAt m i dp n') : n = n' := by
  obtain ⟨arena, harena, hn⟩ := h
  obtain ⟨arena', harena', hn'⟩ := h'
  obtain rfl := Option.some.inj (harena.symm.trans harena')
  exact Option.some.inj (hn.symm.trans hn')

/-- The directory and its bytes stay. -/
theorem SameDirectory.settles {entries : List Nat} (hs : SameDirectory m m' i)
    (hdir : HasDirectory m i entries) (hlength : (m'.slots i).nblocks = entries.length)
    (hbytes : (m'.slots i).bytes + be.unsettled i = (m.slots i).bytes + be'.unsettled i) :
    Settles m m' be be' i := by
  refine ⟨⟨entries, hs.hasDirectory hdir, .inl hlength⟩, ?_⟩
  unfold Memory.excess
  rw [hs.publishedBytes hdir]
  linear_combination hbytes

/-- Other arrays are published. -/
theorem settles_published {old added : Nat} (hbytes : (m'.slots i).bytes = (m.slots i).bytes)
    (hdirectory : ∃ entries, HasDirectory m' i entries ∧
      ((m'.slots i).nblocks = entries.length ∨ ∃ n, be'.relength = some (i, n)))
    (hsum : m'.publishedBytes i + old = m.publishedBytes i + added)
    (hunsettled : be.unsettled i = 0)
    (hunsettled' : be'.unsettled i = BitVec.ofNat 64 old - BitVec.ofNat 64 added) :
    Settles m m' be be' i := by
  refine ⟨hdirectory, ?_⟩
  have hsum' := congrArg (BitVec.ofNat 64) hsum
  rw [BitVec.ofNat_add, BitVec.ofNat_add] at hsum'
  unfold Memory.excess
  rw [hbytes, hunsettled, hunsettled']
  linear_combination -hsum'

theorem extendPage_length {Q : Type} (entries : CachePage Q) (n : Nat) (h : entries.length ≤ n) :
    (extendPage entries n).length = n := by
  rw [extendPage, List.length_append, List.length_replicate]
  omega

/-- **What an insert's step makes of its slot.** -/
theorem Builds.settles (h : Builds codec m be m' be') (ht : Teller m be)
    (hworks : be.pc.works = some w) (hbuilds : be.pc.builds ∨ be'.pc.builds) :
    Settles m m' be be' (be.slotFor w) := by
  have hp := ht.present hworks
  have hgrows := ht.counts.working hworks
  have hdirectory := ht.directory hworks
  cases h with
  | same _ hpc hpc' =>
    rw [hpc, hpc'] at hbuilds
    obtain hbuilds | hbuilds := hbuilds <;> cases hbuilds
  | growDir w' a entries' hpc harea hdir hm hbe =>
    rw [hpc] at hworks
    cases hworks
    obtain ⟨-, hnblocks⟩ := hgrows.snapshot (fun h => by cases hpc.symm.trans h)
    obtain ⟨entries, hold, hlength⟩ := ht.listed (w := w) (by rw [hpc]; rfl)
      (by rw [Backend.relength, hpc])
    obtain ⟨rfl, harena⟩ := hp.directory hold harea hdir
    have hle := hgrows.extend (by rw [hpc]; rfl)
    obtain ⟨⟨entries₁, hnew, -⟩, hsum⟩ := hold.grow hp.areaHandle harena hlength
      (by rw [hnblocks, ccDirGrow]; omega) rfl hm
    refine settles_published ?_ ⟨entries₁, hnew, .inr ⟨ccDirGrow (w.t.blkno + 1), ?_⟩⟩
      hsum ?_ ?_
    · rw [hm, setSlot_self]
    · rw [hbe]
      rfl
    · rw [Backend.unsettled, hpc]
    · rw [hbe]
      exact if_pos rfl
  | newPage w' a hpc harea hm hbe =>
    rw [hpc] at hworks
    cases hworks
    obtain ⟨hblocks, hnblocks⟩ := hgrows.snapshot (fun h => by cases hpc.symm.trans h)
    obtain ⟨entries, hold, hlength⟩ := ht.listed (w := w) (by rw [hpc]; rfl)
      (by rw [Backend.relength, hpc])
    obtain ⟨entries', hold', hentry, -⟩ := hgrows.target (by rw [hpc]; rfl : _ = some (w, 0))
    obtain rfl := hold.unique hold'
    unfold publishArray at hm
    dsimp only at hm
    rw [hblocks] at hm
    obtain ⟨⟨entries₁, hnew, hlength₁⟩, hsum⟩ := hold.publish hp.areaHandle hentry hm
    rw [pageBytes_none, extendPage_length _ _ (Nat.zero_le _), ht.dim (by rw [hpc]; rfl)] at hsum
    refine settles_published ?_ ⟨entries₁, hnew, .inl ?_⟩ hsum ?_ ?_
    · rw [hm]
      rfl
    · rw [hlength₁, hm]
      exact hlength
    · rw [Backend.unsettled, hpc]
    · rw [hbe]
      exact if_pos rfl
  | growPage w' old a page hpc hne harea hpage hm hbe =>
    rw [hpc] at hworks
    cases hworks
    obtain ⟨hblocks, hnblocks⟩ := hgrows.snapshot (fun h => by cases hpc.symm.trans h)
    obtain ⟨entries, hold, hlength⟩ := ht.listed (w := w) (by rw [hpc]; rfl)
      (by rw [Backend.relength, hpc])
    obtain ⟨entries', hold', hentry, hpageAt⟩ := hgrows.target
      (by rw [hpc]; rfl : _ = some (w, old))
    obtain rfl := hold.unique hold'
    obtain ⟨n, hn, hle⟩ := hpageAt hne
    have hn' : n = page.length := hn.unique ⟨a.arena, hp.arena? harea, a.nslotsAt_of_page? hpage⟩
    subst hn'
    unfold publishArray at hm
    dsimp only at hm
    rw [hblocks] at hm
    obtain ⟨⟨entries₁, hnew, hlength₁⟩, hsum⟩ := hold.publish hp.areaHandle hentry hm
    rw [hn.bytes, extendPage_length _ _ hle, ht.dim (by rw [hpc]; rfl)] at hsum
    refine settles_published ?_ ⟨entries₁, hnew, .inl ?_⟩ hsum ?_ ?_
    · rw [hm]
      rfl
    · rw [hlength₁, hm]
      exact hlength
    · rw [Backend.unsettled, hpc]
    · rw [hbe]
      exact if_pos rfl
  | growNblocks w' dp n added old hpc hm hbe =>
    rw [hpc] at hworks
    cases hworks
    obtain ⟨entries, hold, hlength⟩ := hgrows.relength (n := n) (by rw [Backend.relength, hpc])
    subst hm
    refine SameDirectory.settles (.setSlot rfl rfl rfl) hold ?_ ?_
    · rw [setSlot_self]
      exact hlength.symm
    · rw [setSlot_self, Backend.unsettled, hpc, hbe]
      rfl
  | growBytes w' g added old hpc hm hbe =>
    rw [hpc] at hworks
    cases hworks
    obtain ⟨entries, hold, hlength⟩ := ht.listed (w := w) (by rw [hpc]; rfl)
      (relength_of_growing hpc (fun h => by cases h))
    subst hm
    refine SameDirectory.settles (.setSlot rfl rfl rfl) hold ?_ ?_
    · rw [setSlot_self]
      exact hlength
    · have hbefore : be.unsettled (be.slotFor w) = oldBytes old - BitVec.ofNat 64 added := by
        rw [Backend.unsettled, hpc]
        exact if_pos rfl
      have hafter : be'.unsettled (be.slotFor w) = oldBytes old := by
        rw [hbe]
        exact if_pos rfl
      rw [setSlot_self, hbefore, hafter]
      ring
  | growTotal w' g added old hpc hm hbe =>
    rw [hpc] at hworks
    cases hworks
    obtain ⟨entries, hold, hlength⟩ := ht.listed (w := w) (by rw [hpc]; rfl)
      (relength_of_growing hpc (fun h => by cases h))
    have hbefore : be.unsettled (be.slotFor w) = oldBytes old := by
      rw [Backend.unsettled, hpc]
      exact if_pos rfl
    have hafter : be'.unsettled (be.slotFor w) = oldBytes old := by
      rw [hbe]
      cases old with
      | none => cases g <;> rfl
      | some old => exact if_pos rfl
    subst hm
    refine SameDirectory.settles ⟨rfl, rfl, rfl, fun h => ⟨_, h, .refl _⟩⟩ hold hlength ?_
    rw [hbefore, hafter]
  | quiesced w' g added dp size hpc _ hm hbe =>
    rw [hpc] at hworks
    cases hworks
    obtain ⟨entries, hold, hlength⟩ := ht.listed (w := w) (by rw [hpc]; rfl)
      (relength_of_growing hpc (fun h => by cases h))
    subst hm
    refine SameDirectory.settles (.refl _ _) hold hlength ?_
    rw [Backend.unsettled, hpc, hbe]
    rfl
  | retire w' g added dp size hpc _ hm hbe =>
    rw [hpc] at hworks
    cases hworks
    obtain ⟨entries, hold, hlength⟩ := ht.listed (w := w) (by rw [hpc]; rfl)
      (relength_of_growing hpc (fun h => by cases h))
    have hsettled : be.unsettled (be.slotFor w) = be'.unsettled (be.slotFor w) := by
      rw [Backend.unsettled, hpc, hbe]
      rfl
    split at hm
    · subst hm
      refine SameDirectory.settles (.setSlot rfl rfl rfl) hold ?_ ?_
      · rw [setSlot_self]
        exact hlength
      · rw [setSlot_self, hsettled]
    · subst hm
      refine SameDirectory.settles (.refl _ _) hold hlength ?_
      rw [hsettled]
  | free w' g added dp size hpc hm hbe =>
    rw [hpc] at hworks
    cases hworks
    obtain ⟨entries, hold, hlength⟩ := ht.listed (w := w) (by rw [hpc]; rfl)
      (relength_of_growing hpc (fun h => by cases h))
    subst hm
    refine SameDirectory.settles ⟨rfl, rfl, rfl, fun {arena} h => ?_⟩ hold hlength ?_
    · have harea : (m.slots (be.slotFor w)).areaHandle = (be.handles w.cc).area := hp.areaHandle
      rw [harea] at h ⊢
      exact ⟨_, arena?_modifyArena_self h _, .free arena dp⟩
    · rw [Backend.unsettled, hpc, hbe]
      rfl
  | shrinkBytes w' g added dp size hpc hm hbe =>
    rw [hpc] at hworks
    cases hworks
    obtain ⟨entries, hold, hlength⟩ := ht.listed (w := w) (by rw [hpc]; rfl)
      (relength_of_growing hpc (fun h => by cases h))
    subst hm
    refine SameDirectory.settles (.setSlot rfl rfl rfl) hold ?_ ?_
    · rw [setSlot_self]
      exact hlength
    · have hbefore : be.unsettled (be.slotFor w) = BitVec.ofNat 64 size := by
        rw [Backend.unsettled, hpc]
        exact if_pos rfl
      have hafter : be'.unsettled (be.slotFor w) = 0 := by
        rw [hbe]
        exact if_pos rfl
      rw [setSlot_self, hbefore, hafter]
      ring
  | shrinkTotal w' g added dp size hpc hm hbe =>
    rw [hpc] at hworks
    cases hworks
    obtain ⟨entries, hold, hlength⟩ := ht.listed (w := w) (by rw [hpc]; rfl)
      (relength_of_growing hpc (fun h => by cases h))
    have hbefore : be.unsettled (be.slotFor w) = 0 := by
      rw [Backend.unsettled, hpc]
      exact if_pos rfl
    have hafter : be'.unsettled (be.slotFor w) = 0 := by
      rw [hbe]
      cases g <;> rfl
    subst hm
    refine SameDirectory.settles ⟨rfl, rfl, rfl, fun h => ⟨_, h, .refl _⟩⟩ hold hlength ?_
    rw [hbefore, hafter]
  | reclaim d j cc hpc _ hm hbe =>
    rw [hpc, hbe] at hbuilds
    cases d with
    | release k => cases k <;> obtain hbuilds | hbuilds := hbuilds <;> cases hbuilds
    | growDir | growPage => obtain hbuilds | hbuilds := hbuilds <;> cases hbuilds
  | write w' dp entries hpc _ _ hbe =>
    rw [hpc, hbe] at hbuilds
    obtain hbuilds | hbuilds := hbuilds <;> cases hbuilds
  | lose _ _ _ hpc | create _ _ _ hpc | loadBlocks _ _ _ hpc | loadNblocks _ _ _ _ _ hpc
  | strand _ _ _ hpc | readOther _ _ _ hpc | skipPage _ _ _ _ _ _ _ hpc
  | loadPage _ _ _ _ _ _ _ _ hpc | publishPage _ _ _ _ _ _ _ _ hpc | loaded _ _ _ _ _ _ _ _ _ hpc | loadBytes _ _ _ _ _ _ hpc
  | loadTotal _ _ _ _ _ hpc | publish _ _ _ _ hpc | mark _ _ hpc | clear _ _ hpc
  | clearNblocks _ _ hpc | clearBlocks _ _ hpc | clearTotal _ _ hpc | clearHit _ _ _ _ _ hpc =>
    rw [hpc] at hworks
    cases hworks

end

section
variable {B V Q : Type} {m m' : Memory B V Q} {b b' : B} {be be' : Backend Q} {codec : Codec V Q}
  {i : Fin ccNSlots} {s s' : State B V Q}

/-! ### Steps -/

theorem Charges.teller [Fintype B] (h : Charges s) (hstanding : Standing s) (hwriters : Writers s)
    (b : B) : Teller s.memory (s.backends b) where
  counts := h.counts b
  present := hwriters.present
  dim {w} hw := by
    have hp := hwriters.present hw
    exact ((hstanding.handles.known b).issued
      ((hstanding.placed b).uses (Pc.uses_of_works hw))).dim hp.areaHandle hp.generation
  loads hpc hl := (hstanding.handles.known b).loading hpc hl
  fresh {q i n} hpc hdir := by
    by_contra hbytes
    obtain hserves | ⟨b', hb'⟩ | ⟨b', e, v, hpc', -⟩ := h.bytes hbytes
    · rw [(hstanding.ordered.at_ b).loads (by rw [hpc]; rfl)] at hserves
      cases hserves
    · obtain rfl := hstanding.ordered.loader (Pc.loads_of_recorded hb')
        (by rw [hpc]; rfl : (s.backends b).pc.loads = some i)
      rw [hpc] at hb'
      cases hb'
    · -- the evictor would hold the directory lock
      have hholder := (hstanding.ordered.at_ b').holds (by rw [hpc']; rfl)
      simp only [DirLock.free, hholder, Bool.and_eq_true] at hdir
      exact absurd hdir.1 (by simp)
  directory {w} hw := by
    obtain ⟨entries, hdir, hlength⟩ := h.served (hwriters.present hw).serves
    refine ⟨entries, hdir, hlength.imp_right ?_⟩
    rintro ⟨b', n, hn⟩
    obtain ⟨w', hw', hslot⟩ := works_of_relength hn
    obtain rfl := works_unique hstanding.ordered hw hw' hslot
    exact ⟨n, hn⟩

/-- What a clearing slot still has. -/
theorem Builds.wiped (h : Builds codec m be m' be') (hwipes : be.pc.wipes = some i) :
    ((m'.slots i).bytes ≠ 0 → (m.slots i).bytes ≠ 0 ∧ ∀ {e v}, be.pc ≠ .evict e (.clear v)) ∧
      ((m'.slots i).blocks ≠ 0 → (m.slots i).blocks ≠ 0 ∧
        ∀ {e v}, be.pc ≠ .evict e (.storeBlocks v)) := by
  cases h with
  | clear e v hpc hm =>
    rw [hpc] at hwipes
    cases hwipes
    rw [hm, setSlot_self, hpc]
    exact ⟨fun h => absurd rfl h, fun h => ⟨h, fun h => by cases h⟩⟩
  | clearNblocks e v hpc hm =>
    rw [hpc] at hwipes
    cases hwipes
    rw [hm, setSlot_self, hpc]
    exact ⟨fun h => ⟨h, fun h => by cases h⟩, fun h => ⟨h, fun h => by cases h⟩⟩
  | clearBlocks e v hpc hm =>
    rw [hpc] at hwipes
    cases hwipes
    rw [hm, setSlot_self, hpc]
    exact ⟨fun h => ⟨h, fun h => by cases h⟩, fun h => absurd rfl h⟩
  | same _ hpc =>
    cases hq : be.pc with
    | evict e p =>
      rw [hq] at hpc hwipes
      cases p <;> first | (cases hpc; done) | cases hwipes
    | _ =>
      rw [hq] at hwipes
      cases hwipes
  | mark _ _ hpc | clearTotal _ _ hpc | lose _ _ _ hpc | create _ _ _ hpc | loadBlocks _ _ _ hpc
  | loadNblocks _ _ _ _ _ hpc | strand _ _ _ hpc | readOther _ _ _ hpc
  | skipPage _ _ _ _ _ _ _ hpc | loadPage _ _ _ _ _ _ _ _ hpc | publishPage _ _ _ _ _ _ _ _ hpc
  | loaded _ _ _ _ _ _ _ _ _ hpc | loadBytes _ _ _ _ _ _ hpc | loadTotal _ _ _ _ _ hpc
  | publish _ _ _ _ hpc | reclaim _ _ _ hpc | growDir _ _ _ hpc | newPage _ _ hpc
  | growPage _ _ _ _ hpc | write _ _ _ hpc | growNblocks _ _ _ _ _ hpc | growBytes _ _ _ _ hpc
  | growTotal _ _ _ _ hpc | quiesced _ _ _ _ _ hpc | retire _ _ _ _ _ hpc | free _ _ _ _ _ hpc
  | shrinkBytes _ _ _ _ _ hpc | shrinkTotal _ _ _ _ _ hpc | clearHit _ _ _ _ _ hpc =>
    rw [hpc] at hwipes
    cases hwipes

/-- A load charges its slot until it is published, or given up. -/
theorem Builds.loaded_charge (h : Builds codec m be m' be') {q : BeginScan} {p : LoadPc}
    (hload : be.pc = .load q i p) :
    ((m'.slots i).bytes = (m.slots i).bytes ∧ (m'.slots i).blocks = (m.slots i).blocks) ∨
      be'.pc.recorded = some i := by
  cases h with
  | same hs => exact .inl ⟨hs.bytes i, hs.blocks i⟩
  | lose _ _ _ _ hm =>
    rw [hm]
    exact .inl ⟨rfl, rfl⟩
  | publish _ _ _ _ _ hm | mark _ _ _ hm | clearTotal _ _ _ hm | strand _ _ _ _ hm =>
    rw [hm]
    exact .inl ⟨setSlot_congr Slot.bytes (by rfl) i, setSlot_congr Slot.blocks (by rfl) i⟩
  | create _ _ _ hpc _ hbe | loadBlocks _ _ _ hpc _ hbe | loadNblocks _ _ _ _ _ hpc _ _ hbe
  | readOther _ _ _ hpc _ hbe | skipPage _ _ _ _ _ _ _ hpc _ _ _ hbe
  | loadPage _ _ _ _ _ _ _ _ hpc _ _ _ _ hbe | publishPage _ _ _ _ _ _ _ _ hpc _ hbe
  | loaded _ _ _ _ _ _ _ _ _ hpc _ hbe | loadBytes _ _ _ _ _ _ hpc _ hbe
  | loadTotal _ _ _ _ _ hpc _ hbe =>
    rw [hpc] at hload
    cases hload
    rw [hbe]
    exact .inr rfl
  | clear _ _ hpc | clearNblocks _ _ hpc | clearBlocks _ _ hpc | reclaim _ _ _ hpc
  | growDir _ _ _ hpc | newPage _ _ hpc | growPage _ _ _ _ hpc | write _ _ _ hpc
  | growNblocks _ _ _ _ _ hpc | growBytes _ _ _ _ hpc | growTotal _ _ _ _ hpc
  | quiesced _ _ _ _ _ hpc | retire _ _ _ _ _ hpc | free _ _ _ _ _ hpc
  | shrinkBytes _ _ _ _ _ hpc | shrinkTotal _ _ _ _ _ hpc | clearHit _ _ _ _ _ hpc =>
    rw [hpc] at hload
    cases hload

/-- What a slot has after a step it had before, or a load or an insert charges it. -/
theorem Builds.charged (h : Builds codec m be m' be') :
    (((m'.slots i).bytes ≠ 0 → (m.slots i).bytes ≠ 0 ∧
        ∀ e v, be.pc = .evict e (.clear v) → v.slot ≠ i) ∧
      ((m'.slots i).blocks ≠ 0 → (m.slots i).blocks ≠ 0 ∧
        ∀ e v, be.pc = .evict e (.storeBlocks v) → v.slot ≠ i)) ∨
      be'.pc.recorded = some i ∨ ∃ w, be.pc.works = some w ∧ be.slotFor w = i := by
  -- a step that charges nothing
  have hkept : (m'.slots i).bytes = (m.slots i).bytes →
      (m'.slots i).blocks = (m.slots i).blocks → be.pc.wipes ≠ some i →
      ((m'.slots i).bytes ≠ 0 → (m.slots i).bytes ≠ 0 ∧
        ∀ e v, be.pc = .evict e (.clear v) → v.slot ≠ i) ∧
      ((m'.slots i).blocks ≠ 0 → (m.slots i).blocks ≠ 0 ∧
        ∀ e v, be.pc = .evict e (.storeBlocks v) → v.slot ≠ i) := by
    intro hbytes hblocks hwipes
    rw [hbytes, hblocks]
    refine ⟨fun hne => ⟨hne, fun e v hpc hv => hwipes ?_⟩,
      fun hne => ⟨hne, fun e v hpc hv => hwipes ?_⟩⟩
    · rw [hpc, ← hv]
      rfl
    · rw [hpc, ← hv]
      rfl
  by_cases hrebuilds : be.rebuilds = some i
  · obtain ⟨q, p, hpc⟩ | hwipes | hw := be.rebuilds_cases hrebuilds
    · obtain ⟨hbytes, hblocks⟩ | hrecorded := h.loaded_charge hpc
      · exact .inl (hkept hbytes hblocks (by rw [hpc]; rintro ⟨⟩))
      · exact .inr (.inl hrecorded)
    · obtain ⟨hbytes, hblocks⟩ := h.wiped hwipes
      exact .inl ⟨fun hne => ⟨(hbytes hne).1, fun e v hpc => absurd hpc (hbytes hne).2⟩,
        fun hne => ⟨(hblocks hne).1, fun e v hpc => absurd hpc (hblocks hne).2⟩⟩
    · exact .inr (.inr hw)
  · have hcharge := h.charge hrebuilds
    exact .inl (hkept (congrArg Charge.bytes hcharge) (congrArg Charge.blocks hcharge)
      fun hwipes => hrebuilds (be.rebuilds_of_wipes hwipes))

/-- What a slot is charged in excess, or a length that it lacks, is an insert's. -/
theorem Backend.works_of_unsettled (h : be.unsettled i ≠ 0 ∨ ∃ n, be.relength = some (i, n)) :
    ∃ w g added old p, be.pc = .grow w g added old p ∧ be.slotFor w = i := by
  obtain hne | ⟨n, hn⟩ := h
  · unfold Backend.unsettled at hne
    split at hne
    · rename_i w g added old p hpc
      split at hne
      · exact ⟨w, g, added, old, p, hpc, ‹_›⟩
      · exact absurd rfl hne
    · exact absurd rfl hne
  · unfold Backend.relength at hn
    split at hn
    · cases hn
      exact ⟨_, _, _, _, _, ‹_›, rfl⟩
    · cases hn

theorem Backend.rebuilds_of_unsettled (h : be.unsettled i ≠ 0 ∨ ∃ n, be.relength = some (i, n)) :
    be.rebuilds = some i := by
  obtain ⟨w, g, added, old, p, hpc, hslot⟩ := be.works_of_unsettled h
  rw [Backend.rebuilds, hpc]
  exact congrArg some hslot

section
variable [DecidableEq B] {c : Choice} {r : Memory B V Q × Backend Q}

/-- Whoever grows an array has rebuilt the slot before. -/
theorem proceed_unsettled (hplaced : be.Placed) (hr : proceed codec m b be c = some r)
    (hne : r.2.unsettled i ≠ 0 ∨ ∃ n, r.2.relength = some (i, n)) : be.rebuilds = some i := by
  obtain ⟨w, g, added, old, p, hpc, hslot⟩ := r.2.works_of_unsettled hne
  have hsame := proceed_works hplaced hr (w := w) (by rw [hpc]; rfl)
  have hslot' : be.slotFor w = i := by
    rw [← hslot]
    exact hsame.slot.symm
  have hleads := proceed_leads hr
  rw [hpc] at hleads
  unfold Backend.rebuilds
  generalize be.pc = pc at hleads
  generalize hq : Pc.grow w g added old p = pc' at hleads
  cases hleads with
  | growDir | growPage | grow =>
    cases hq
    exact congrArg some hslot'
  | @attached k p cc => cases k <;> cases hq
  | @released k i cc p => cases k <;> cases hq
  | _ => cases hq

/-- An insert that gives up leaves what its slot publishes. -/
theorem proceed_gives_up {w : Insert Q} (hr : proceed codec m b be c = some r)
    (hrebuilds : be.rebuilds = some i) (hworks : be.pc.works = some w)
    (hpc : be.pc.builds = false) (hpc' : r.2.pc.builds = false) : Undisturbed m r.1 i := by
  have hunlock : ∀ j, Undisturbed m (m.unlock j) i := fun j =>
    ⟨⟨setSlot_congr Slot.areaHandle (by rfl) i, setSlot_congr Slot.blocks (by rfl) i,
      setSlot_congr Slot.dim (by rfl) i, fun h => ⟨_, h, .refl _⟩⟩,
      setSlot_congr Slot.nblocks (by rfl) i, setSlot_congr Slot.bytes (by rfl) i⟩
  cases hq : be.pc with
  | insert w' p =>
    rw [Backend.rebuilds, hq] at hrebuilds
    rw [proceed, hq] at hr
    cases p with
    | growDir | growPage =>
      simp only [ensurePage] at hr
      repeat' split at hr
      all_goals cases hr
      all_goals first
        | exact hunlock _
        | exact .refl _ _
        | cases hpc'
    | _ => cases hrebuilds
  | drain k j cc p =>
    rw [Backend.rebuilds, hq] at hrebuilds
    cases hrebuilds
  | grow w' g added old p =>
    rw [hq] at hpc
    cases hpc
  | _ =>
    rw [hq] at hworks
    cases hworks

/-- What a slot publishes, and what it is charged: of its length and its bytes a backend that
grows it may still owe a part. -/
def Accounted [Fintype B] (m : Memory B V Q) (backends : B → Backend Q) (i : Fin ccNSlots) :
    Prop :=
  (∃ entries, HasDirectory m i entries ∧ ((m.slots i).nblocks = entries.length ∨
    ∃ b n, (backends b).relength = some (i, n))) ∧
    Library.Balanced (Backend.unsettled i) (m.excess i) backends

omit [DecidableEq B] in
theorem Charges.accounted [Fintype B] (h : Charges s) (hserves : (s.memory.slots i).state.serves) :
    Accounted s.memory s.backends i := ⟨h.served hserves, h.balanced hserves⟩

/-- A slot that a step leaves. -/
theorem Accounted.leaves [Fintype B] (h : Accounted s.memory s.backends i)
    (hu : Undisturbed s.memory m' i) (hunsettled : (s.backends b).unsettled i = be'.unsettled i)
    (hrelength : ∀ n, (s.backends b).relength ≠ some (i, n)) :
    Accounted m' (Function.update s.backends b be') i := by
  obtain ⟨⟨entries, hdir, hlength⟩, hbalanced⟩ := h
  have hexcess : m'.excess i = s.memory.excess i := by
    unfold Memory.excess
    rw [hu.bytes, hu.publishedBytes hdir]
  refine ⟨⟨entries, hu.hasDirectory hdir, ?_⟩, hbalanced.update ?_⟩
  · obtain hlength | ⟨b', n, hn⟩ := hlength
    · exact .inl (hu.nblocks.trans hlength)
    · refine .inr ⟨b', n, ?_⟩
      rwa [Function.update_of_ne]
      rintro rfl
      exact hrelength n hn
  · rw [hexcess, hunsettled]

/-- A slot that a loader publishes: nobody has an operation on it. -/
theorem Charges.published_step [Fintype B] (h : Charges s) (hstanding : Standing s)
    (hwriters : Writers s) {q : BeginScan} {final : SlotState} {error : Bool}
    (hproceed : proceed codec s.memory b (s.backends b) c = some r)
    (hpc : (s.backends b).pc = .load q i (.storeState final error)) :
    Accounted r.1 (Function.update s.backends b r.2) i := by
  have hloading := (hstanding.ordered.at_ b).loads (i := i) (by rw [hpc]; rfl)
  obtain ⟨⟨entries, hdir, hlength⟩, hbytes⟩ := (h.counts b).load hpc
  rw [proceed, hpc] at hproceed
  cases hproceed
  have hs : SameDirectory s.memory
      (s.memory.setSlot i { s.memory.slots i with state := final }) i := .setSlot rfl rfl rfl
  refine ⟨⟨entries, hs.hasDirectory hdir, .inl ?_⟩, ?_⟩
  · rw [setSlot_self]
    exact hlength
  · have hexcess : (s.memory.setSlot i { s.memory.slots i with state := final }).excess i = 0 := by
      unfold Memory.excess
      rw [hs.publishedBytes hdir, setSlot_self, hbytes]
      exact sub_self _
    refine hexcess.trans (Finset.sum_eq_zero fun b' _ => ?_).symm
    by_contra hne
    obtain ⟨w, g, added, old, p, hpc', hslot⟩ := Backend.works_of_unsettled (.inl hne)
    by_cases hb : b' = b
    · subst hb
      rw [Function.update_self] at hpc'
      cases error <;> cases hpc'
    · rw [Function.update_of_ne hb] at hpc' hslot
      have hp := (hwriters.present (b := b') (w := w) (by rw [hpc']; rfl)).serves
      change (s.memory.slots ((s.backends b').slotFor w)).state.serves at hp
      rw [hslot, hloading] at hp
      cases hp

/-- **What a served slot publishes, and what it is charged, after a step too.** -/
theorem Charges.served_step [Fintype B] (h : Charges s) (hstanding : Standing s)
    (hwriters : Writers s) (hproceed : proceed codec s.memory b (s.backends b) c = some r)
    (hserves : (r.1.slots i).state.serves) :
    Accounted r.1 (Function.update s.backends b r.2) i := by
  have hord := hstanding.ordered
  have hbuilds := proceed_builds (hstanding.placed b) hproceed
  have hreg := proceed_registers hproceed
  by_cases hrebuilds : (s.backends b).rebuilds = some i
  · obtain ⟨q, p, hpc⟩ | hwipes | ⟨w, hw, rfl⟩ := (s.backends b).rebuilds_cases hrebuilds
    · by_cases hp : ∃ final error, p = .storeState final error
      · obtain ⟨final, error, rfl⟩ := hp
        exact h.published_step hstanding hwriters hproceed hpc
      · have hbefore := hreg.served_before hserves fun q' final error hpc' => hp (by
          rw [hpc] at hpc'
          cases hpc'
          exact ⟨final, error, rfl⟩)
        rw [(hord.at_ b).loads (by rw [hpc]; rfl)] at hbefore
        cases hbefore
    · -- a slot that is cleared is not served
      have hbefore := hreg.served_before hserves fun q final error hpc => by
        rw [hpc] at hwipes
        cases hwipes
      rw [(hord.at_ b).clears (Pc.clears_of_wipes hwipes)] at hbefore
      cases hbefore
    · have hbefore := (hwriters.present hw).serves
      cases hbuild : (s.backends b).pc.builds || r.2.pc.builds with
      | false =>
        obtain ⟨hpc, hpc'⟩ := Bool.or_eq_false_iff.mp hbuild
        refine (h.accounted hbefore).leaves (proceed_gives_up hproceed hrebuilds hw hpc hpc') ?_
          fun n hn => ?_
        · rw [unsettled_of_builds hpc, unsettled_of_builds hpc']
        · rw [relength_of_builds hpc] at hn
          cases hn
      | true =>
        obtain ⟨⟨entries, hdir, hlength⟩, hexcess⟩ :=
          hbuilds.settles (h.teller hstanding hwriters b) hw (Bool.or_eq_true_iff.mp hbuild)
        refine ⟨⟨entries, hdir, hlength.imp_right fun hn => ⟨b, ?_⟩⟩,
          (h.balanced hbefore).update hexcess⟩
        rwa [Function.update_self]
  · -- another slot
    have hbefore := hreg.served_before hserves fun q final error hpc =>
      hrebuilds (by rw [Backend.rebuilds, hpc])
    refine (h.accounted hbefore).leaves (undisturbed hstanding hwriters hbuilds hreg
      (hstanding.incarnations.live hbefore) hrebuilds) ?_ fun n hn =>
        hrebuilds (Backend.rebuilds_of_unsettled (.inr ⟨n, hn⟩))
    have hzero : (s.backends b).unsettled i = 0 := by
      by_contra hne
      exact hrebuilds (Backend.rebuilds_of_unsettled (.inl hne))
    have hzero' : r.2.unsettled i = 0 := by
      by_contra hne
      exact hrebuilds (proceed_unsettled (hstanding.placed b) hproceed (.inl hne))
    rw [hzero, hzero']

/-- An evictor goes on clearing its slot until it has cleared `blocks`. -/
theorem proceed_wipes (hr : proceed codec m b be c = some r) (hwipes : be.pc.wipes = some i)
    (hpc : ∀ e v, be.pc = .evict e (.storeBlocks v) → v.slot ≠ i) : r.2.pc.wipes = some i := by
  cases hq : be.pc with
  | evict e p =>
    rw [hq] at hwipes
    rw [proceed, hq] at hr
    cases p with
    | clear v | storeNblocks v =>
      cases hr
      exact hwipes
    | storeBlocks v => exact absurd (Option.some.inj hwipes) (hpc e v hq)
    | _ => cases hwipes
  | _ =>
    rw [hq] at hwipes
    cases hwipes

omit [DecidableEq B] in
theorem Undisturbed.world (m : Memory B V Q) (world : Key → Relation V Q) (i : Fin ccNSlots) :
    Undisturbed m { m with world := world } i :=
  ⟨⟨rfl, rfl, rfl, fun h => ⟨_, h, .refl _⟩⟩, rfl, rfl⟩

omit [DecidableEq B] in
theorem Counts.world (h : Counts m be) (world : Key → Relation V Q) :
    Counts { m with world := world } be :=
  ⟨fun hpc => (Undisturbed.world m world _).counts (h.load hpc),
    fun hw => (h.working hw).undisturbed (Undisturbed.world m world _)⟩

omit [DecidableEq B] in
/-- A call begins with nothing to charge. -/
theorem Enters.counts {a : Action B V Q} {pc' : Pc Q} (h : Enters m be a pc') (hpc : be'.pc = pc') :
    Counts m' be' ∧ be'.pc.builds = false := by
  have hfree : pc'.works = none ∧ (∀ {q i p}, pc' ≠ .load q i p) ∧ pc'.builds = false := by
    cases h <;> exact ⟨rfl, (fun h => by cases h), rfl⟩
  obtain ⟨hworks, hload, hbuilds⟩ := hfree
  rw [← hpc] at hworks hload hbuilds
  refine ⟨⟨fun hq => absurd hq hload, fun hw => ?_⟩, hbuilds⟩
  rw [hworks] at hw
  cases hw

/-- A load goes on until it publishes its slot, or fails to enter the mapping. -/
theorem proceed_recorded (hr : proceed codec m b be c = some r)
    (hrecorded : be.pc.recorded = some i) :
    r.2.pc.recorded = some i ∨ (∃ final, be.pc.final? = some final ∧ (r.1.slots i).state = final) ∨
      ∃ q l, be.pc = .load q i (.storeNblocks l) := by
  by_cases hentered : be.pc.entered = some i
  · obtain hentered | hfinal := proceed_entered hr hentered
    · exact .inl (Pc.recorded_of_place (Pc.place_of_entered hentered))
    · exact .inr (.inl hfinal)
  · cases hpc : be.pc with
    | load q j p =>
      rw [hpc] at hrecorded hentered
      cases p with
      | storeBlocks l =>
        rw [proceed, hpc] at hr
        cases hr
        exact .inl hrecorded
      | storeNblocks l =>
        cases hrecorded
        exact .inr (.inr ⟨q, l, rfl⟩)
      | start | create => cases hrecorded
      | _ => exact absurd hrecorded hentered
    | _ =>
      rw [hpc] at hrecorded
      cases hrecorded

/-- What is served has been marked by the step, or is served still. -/
theorem Standing.served_step [Fintype B] (hstanding : Standing s)
    (hproceed : proceed codec s.memory b (s.backends b) c = some r)
    (hserves : (s.memory.slots i).state.serves) : (r.1.slots i).state.serves ∨
      ∃ e v, r.2.pc = .evict e (.clear v) ∧ v.slot = i := by
  obtain hserves | ⟨e, v, hpc, hv⟩ :=
    (proceed_registers hproceed).still_serves (hstanding.ordered.at_ b) hserves
  · exact .inl hserves
  · rw [proceed, hpc] at hproceed
    cases hproceed
    exact .inr ⟨e, v, rfl, hv⟩

/-- Who has a slot's bytes after a step too. -/
theorem Charges.bytes_step [Fintype B] (h : Charges s) (hstanding : Standing s)
    (hwriters : Writers s) (hproceed : proceed codec s.memory b (s.backends b) c = some r)
    (hne : (r.1.slots i).bytes ≠ 0) : (r.1.slots i).state.serves ∨
      (∃ b', (Function.update s.backends b r.2 b').pc.recorded = some i) ∨
        ∃ b' e v, (Function.update s.backends b r.2 b').pc = .evict e (.clear v) ∧ v.slot = i := by
  -- a slot that this step marks
  have hmarked : (∃ e v, r.2.pc = .evict e (.clear v) ∧ v.slot = i) →
      ∃ b' e v, (Function.update s.backends b r.2 b').pc = .evict e (.clear v) ∧ v.slot = i :=
    fun ⟨e, v, hpc, hv⟩ => ⟨b, e, v, by rwa [Function.update_self], hv⟩
  obtain ⟨hbytes, -⟩ | hrecorded | ⟨w, hw, rfl⟩ :=
    (proceed_builds (hstanding.placed b) hproceed).charged (i := i)
  · obtain ⟨hold, hclear⟩ := hbytes hne
    obtain hserves | ⟨b', hb'⟩ | ⟨b', e, v, hpc, hv⟩ := h.bytes hold
    · exact (hstanding.served_step hproceed hserves).imp_right fun hmark => .inr (hmarked hmark)
    · by_cases hb : b' = b
      · subst hb
        obtain hrecorded | ⟨final, hfinal, hstate⟩ | ⟨q, l, hpc⟩ := proceed_recorded hproceed hb'
        · exact .inr (.inl ⟨b', by rwa [Function.update_self]⟩)
        · left
          rw [hstate]
          exact hwriters.final hfinal
        · -- a load that fails here has charged nothing yet
          exact absurd ((h.counts b').load hpc).2.bytes hold
      · exact .inr (.inl ⟨b', by rwa [Function.update_of_ne hb]⟩)
    · have hb : b' ≠ b := by
        rintro rfl
        exact hclear e v hpc hv
      exact .inr (.inr ⟨b', e, v, by rwa [Function.update_of_ne hb], hv⟩)
  · exact .inr (.inl ⟨b, by rwa [Function.update_self]⟩)
  · exact (hstanding.served_step hproceed (hwriters.present hw).serves).imp_right fun hmark =>
      .inr (hmarked hmark)

/-- Who has a slot's directory after a step too. -/
theorem Charges.blocks_step [Fintype B] (h : Charges s) (hstanding : Standing s)
    (hwriters : Writers s) (hproceed : proceed codec s.memory b (s.backends b) c = some r)
    (hne : (r.1.slots i).blocks ≠ 0) : (r.1.slots i).state ≠ .empty ∨
      ∃ b', (Function.update s.backends b r.2 b').pc.wipes = some i := by
  -- what is not EMPTY has been marked by this step, or is not EMPTY still
  have hheld : (s.memory.slots i).state ≠ .empty → (r.1.slots i).state ≠ .empty ∨
      ∃ b', (Function.update s.backends b r.2 b').pc.wipes = some i := by
    intro hheld
    obtain hheld | ⟨e, v, hpc, hv⟩ :=
      (proceed_registers hproceed).still_held (fun hfinal => hwriters.final hfinal) hheld
    · exact .inl hheld
    · rw [proceed, hpc] at hproceed
      cases hproceed
      exact .inr ⟨b, by rw [Function.update_self]; exact congrArg some hv⟩
  obtain ⟨-, hblocks⟩ | hrecorded | ⟨w, hw, rfl⟩ :=
    (proceed_builds (hstanding.placed b) hproceed).charged (i := i)
  · obtain ⟨hold, hclear⟩ := hblocks hne
    obtain hstate | ⟨b', hwipes⟩ := h.blocks hold
    · exact hheld hstate
    · refine .inr ⟨b', ?_⟩
      by_cases hb : b' = b
      · subst hb
        rw [Function.update_self]
        exact proceed_wipes hproceed hwipes hclear
      · rwa [Function.update_of_ne hb]
  · -- the slot is loaded
    apply hheld
    have hloads : (s.backends b).pc.loads = some i := by
      cases hpc' : r.2.pc with
      | load q j p' =>
        have hleads := proceed_leads hproceed
        rw [hpc'] at hleads hrecorded
        obtain ⟨p, hpc⟩ | rfl | ⟨n, rfl⟩ := hleads.to_load
        · rw [hpc]
          cases p' <;> cases hrecorded <;> rfl
        · cases hrecorded
        · cases hrecorded
      | _ =>
        rw [hpc'] at hrecorded
        cases hrecorded
    rw [(hstanding.ordered.at_ b).loads hloads]
    intro hempty
    cases hempty
  · apply hheld
    intro hempty
    have hserves := (hwriters.present hw).serves
    change (s.memory.slots ((s.backends b).handles w.cc).slot).state = _ at hempty
    rw [hempty] at hserves
    cases hserves

/-- An evictor takes off the total what it has read of the slot, which is what the slot
still has. -/
def evictsFresh (s : State B V Q) (a : Action B V Q) : Bool :=
  genuine s a && match a with
    | .proceed b _ => match (s.backends b).pc with
      | .evict _ (.clear v) => v.freed == (s.memory.slots v.slot).bytes
      | _ => true
    | _ => true

/-- `ACORN_CC_DIR_GROW` stays within 32 bits where the step computes it. -/
def growsInRange (s : State B V Q) : Action B V Q → Bool
  | .proceed b _ => match (s.backends b).pc with
    | .load _ _ (.create nblocks) => decide (ccDirGrow nblocks < 2 ^ 32)
    | .insert w .growDir => decide (ccDirGrow (w.t.blkno + 1) < 2 ^ 32)
    | _ => true
  | _ => true

/-- **The step lemma of the books.** -/
theorem Charges.step [Fintype B] {a : Action B V Q} (h : Charges s) (hstanding : Standing s)
    (hwriters : Writers s) (hok : evictsFresh s a) (hstep : step codec s a = some s') :
    Charges s' := by
  cases moved hstep with
  | modify x r ha hkeeps hs =>
    subst hs
    exact ⟨fun b => (h.counts b).world _, h.served, h.balanced, h.bytes, h.blocks, h.total⟩
  | call b r hidle hmay hb hcall hs =>
    subst hs
    obtain ⟨world, hworld⟩ := call_world hcall
    obtain ⟨hcounts, hquiet⟩ : Counts r.1 r.2 ∧ r.2.pc.builds = false :=
      (call_enters hidle hcall).counts rfl
    have hidle' : (s.backends b).pc.builds = false := by
      rw [hidle]
      rfl
    -- whoever had something to do with a slot is another backend
    have hother : ∀ {b'}, (s.backends b').pc ≠ .idle → b' ≠ b := by
      intro b' hpc hb'
      subst hb'
      exact hpc hidle
    rw [hworld] at hcounts ⊢
    refine ⟨fun b' => ?_, fun hserves => ?_, fun hserves => (h.balanced hserves).update ?_,
      fun hbytes => ?_, fun hblocks => ?_, h.total.update ?_⟩
    · by_cases hne : b' = b
      · subst hne
        simpa only [Function.update_self] using hcounts
      · simpa only [Function.update_of_ne hne] using (h.counts b').world world
    · obtain ⟨entries, hdir, hlength⟩ := h.served hserves
      refine ⟨entries, hdir, hlength.imp_right fun ⟨b', n, hn⟩ => ⟨b', n, ?_⟩⟩
      have hne : b' ≠ b := hother fun hpc => by
        rw [Backend.relength, hpc] at hn
        cases hn
      simpa only [Function.update_of_ne hne] using hn
    · rw [unsettled_of_builds hidle', unsettled_of_builds hquiet]
      rfl
    · obtain hserves | ⟨b', hb'⟩ | ⟨b', e, v, hpc, hv⟩ := h.bytes hbytes
      · exact .inl hserves
      · have hne : b' ≠ b := hother fun hpc => by
          rw [hpc] at hb'
          cases hb'
        exact .inr (.inl ⟨b', by simpa only [Function.update_of_ne hne] using hb'⟩)
      · have hne : b' ≠ b := hother (by rw [hpc]; rintro ⟨⟩)
        exact .inr (.inr ⟨b', e, v, by simpa only [Function.update_of_ne hne] using hpc, hv⟩)
    · obtain hheld | ⟨b', hb'⟩ := h.blocks hblocks
      · exact .inl hheld
      · have hne : b' ≠ b := hother fun hpc => by
          rw [hpc] at hb'
          cases hb'
        exact .inr ⟨b', by simpa only [Function.update_of_ne hne] using hb'⟩
    · rw [owes_of_builds hidle', owes_of_builds hquiet]
  | proceed b c r ha hproceed hs =>
    subst ha hs
    have hbuilds := proceed_builds (hstanding.placed b) hproceed
    have hreg := proceed_registers hproceed
    have ht := h.teller hstanding hwriters b
    refine ⟨fun b' => ?_, fun hserves => (h.served_step hstanding hwriters hproceed hserves).1,
      fun hserves => (h.served_step hstanding hwriters hproceed hserves).2,
      h.bytes_step hstanding hwriters hproceed, h.blocks_step hstanding hwriters hproceed,
      h.total.update ?_⟩
    · by_cases hne : b' = b
      · subst hne
        simpa only [Function.update_self] using proceed_counts ht hbuilds hreg hproceed
      · simpa only [Function.update_of_ne hne] using
          (h.counts b').others hstanding hwriters hne hbuilds hreg
    · refine hbuilds.owes (fun hpc => ((h.counts b).load hpc).1) fun {e v} hpc => ?_
      simp only [evictsFresh, hpc, Bool.and_eq_true, beq_iff_eq] at hok
      exact hok.2

end

end

section
variable {B V Q : Type} [Fintype B] {s : State B V Q}

theorem Charges.init (world : Key → Relation V Q) : Charges (State.init world : State B V Q) where
  counts _ := ⟨(fun h => by cases h), (fun h => by cases h)⟩
  served h := by cases h
  balanced h := by cases h
  bytes h := absurd rfl h
  blocks h := absurd rfl h
  total := by
    have howes : ∀ b : B, ((State.init world : State B V Q).backends b).pc.owes = 0 :=
      fun _ => rfl
    have hbytes : ∀ i, ((State.init world : State B V Q).memory.slots i).bytes = 0 := fun _ => rfl
    simp only [Library.Balanced, howes, hbytes, Finset.sum_const_zero]
    exact sub_zero _

/-- **With no operation in flight the books are exact.** -/
theorem Charges.exact (h : Charges s) (hquiet : Quiet s) : BytesExact s.memory := by
  have hidle : ∀ b, (s.backends b).pc.builds = false := by
    intro b
    rw [hquiet b]
    rfl
  -- a slot that is not served has no bytes, and a directory only where its load has failed
  have hbytes : ∀ {i}, (s.memory.slots i).state.serves = false → (s.memory.slots i).bytes = 0 := by
    intro i hserves
    by_contra hne
    obtain h' | ⟨b, hb⟩ | ⟨b, e, v, hpc, -⟩ := h.bytes hne
    · rw [hserves] at h'
      cases h'
    · rw [hquiet b] at hb
      cases hb
    · rw [hquiet b] at hpc
      cases hpc
  have hblocks : ∀ {i}, (s.memory.slots i).state = .empty → (s.memory.slots i).blocks = 0 := by
    intro i hempty
    by_contra hne
    obtain hheld | ⟨b, hb⟩ := h.blocks hne
    · exact hheld hempty
    · rw [hquiet b] at hb
      cases hb
  refine ⟨?_, fun {i} hloaded => ?_, fun {i} hunloaded => hbytes ?_⟩
  · have htotal : s.memory.total - ∑ i, (s.memory.slots i).bytes = 0 :=
      h.total.trans (Finset.sum_eq_zero fun b _ => owes_of_builds (hidle b))
    exact sub_eq_zero.mp htotal
  · cases hserves : (s.memory.slots i).state.serves with
    | true =>
      have hexcess : s.memory.excess i = 0 :=
        (h.balanced hserves).trans (Finset.sum_eq_zero fun b _ => unsettled_of_builds (hidle b) i)
      exact sub_eq_zero.mp hexcess
    | false =>
      have hempty : (s.memory.slots i).state = .empty := by
        cases hstate : (s.memory.slots i).state with
        | empty => rfl
        | loading => exact absurd hstate hloaded
        | ready | partialLoad =>
          rw [hstate] at hserves
          cases hserves
      rw [hbytes hserves, Memory.publishedBytes, hblocks hempty]
      cases s.memory.arena? (s.memory.slots i).areaHandle <;> rfl
  · obtain hempty | hloading := hunloaded
    · rw [hempty]
      rfl
    · rw [hloading]
      rfl

/-- **Byte accounting**: in every run in which neither generations nor the lengths of
directories come round and an evictor takes off the total what its victim still has,
whenever no operation is in flight the total is the sum of the slots' bytes, and these are
the bytes of what each slot publishes that is not left LOADING. -/
theorem bytes_exact [DecidableEq B] {codec : Codec V Q} {world : Key → Relation V Q}
    (h : Runs (step codec) (fun s a => evictsFresh s a && growsInRange s a) (State.init world) s)
    (hquiet : Quiet s) : BytesExact s.memory := by
  have hinv : Standing s ∧ Writers s ∧ Charges s := by
    refine h.invariant (I := fun s => Standing s ∧ Writers s ∧ Charges s)
      ⟨.init world, .init world, .init world⟩ fun hinv hok hstep => ?_
    obtain ⟨hstanding, hwriters, hcharges⟩ := hinv
    obtain ⟨hfresh, -⟩ := Bool.and_eq_true_iff.mp hok
    refine ⟨hstanding.step hstep, hwriters.step hstanding ?_ hstep,
      hcharges.step hstanding hwriters hfresh hstep⟩
    exact (Bool.and_eq_true_iff.mp hfresh).1
  exact hinv.2.2.exact hquiet

end

/-! ### An eviction around a growth -/

/-- What the total says, and what the slots say. -/
def Memory.books {B V Q : Type} (m : Memory B V Q) : Nat × Nat :=
  (m.total.toNat, ((List.finRange ccNSlots).map fun i => (m.slots i).bytes.toNat).sum)

attribute [local instance] neZero_two

/-- Both backends are at rest, with these books. -/
def atRestWith (s : State (Fin 2) Int Int) : Option (Nat × Nat) :=
  if (s.backends 0).pc.atRest && (s.backends 1).pc.atRest then some s.memory.books else none

theorem quiet_of_atRest {s : State (Fin 2) Int Int} {p : Nat × Nat} (h : atRestWith s = some p) :
    Quiet s ∧ s.memory.books = p := by
  unfold atRestWith at h
  split at h
  · rename_i hrest
    obtain ⟨h0, h1⟩ := Bool.and_eq_true_iff.mp hrest
    exact ⟨Fin.forall_fin_two.mpr ⟨Pc.idle_of_atRest h0, Pc.idle_of_atRest h1⟩, Option.some.inj h⟩
  · cases h

/-- A load fails where it enters its mapping: it leaves its slot LOADING. -/
def failToAttach (b : Fin 2) (x : Key) : List (Action (Fin 2) Int Int) :=
  .beginScan b x 1 0 :: List.replicate 9 (next b) ++ [.proceed b ⟨none, 0, true, false⟩]

/-- One load fails; another index is loaded, and its page array replaced. -/
def loadAndGrow : List (Action (Fin 2) Int Int) :=
  failToAttach 1 indexY ++ loadAndScan 0 indexX ++ endAndRelease 0 0 ++ insertSecond 0 ++ [next 0]

theorem bytes_exact_after_growth : ∃ s : State (Fin 2) Int Int,
    s.memory.books = (1112, 1112) ∧ (s.memory.slots firstSlot).state = .loading ∧
      BytesExact s.memory := by
  have h : ((exec (fun s a =>
        if (evictsFresh s a && growsInRange s a) = true then step plainCodec s a else none)
      (State.init smallIndexes) loadAndGrow).map fun s =>
        (atRestWith s, (s.memory.slots firstSlot).state)) =
      some (some (1112, 1112), .loading) := by
    decide +kernel
  obtain ⟨s, hs, hobs⟩ := Option.map_eq_some_iff.mp h
  obtain ⟨hbooks, hstate⟩ := Prod.mk.inj hobs
  obtain ⟨hquiet, hbooks⟩ := quiet_of_atRest hbooks
  exact ⟨s, hbooks, hstate, bytes_exact (runs_of_exec hs) hquiet⟩

/-- An evictor reads its victim's bytes, and the page array is replaced before it locks
the slot. -/
def growBeforeEviction : List (Action (Fin 2) Int Int) :=
  loadAndScan 0 indexX ++ endAndRelease 0 0 ++ .getDir 1 :: chooseVictim 1 indexX firstSlot ++
    insertSecond 0 ++ next 0 :: List.replicate 9 (next 1)

/-- What the growth has added stays in the total. -/
theorem total_after_stale_read : ∃ s : State (Fin 2) Int Int,
    Runs (step plainCodec) (fun _ _ => True) (State.init smallIndexes) s ∧ Quiet s ∧
      ¬ BytesExact s.memory := by
  have h : ((exec (fun s a => if True then step plainCodec s a else none)
      (State.init smallIndexes) growBeforeEviction).map atRestWith) = some (some (480, 0)) := by
    decide +kernel
  obtain ⟨s, hs, hobs⟩ := Option.map_eq_some_iff.mp h
  obtain ⟨hquiet, hbooks⟩ := quiet_of_atRest hobs
  refine ⟨s, runs_of_exec hs, hquiet, fun hexact => ?_⟩
  have hbytes : ∀ i, (s.memory.slots i).bytes = 0 := fun i =>
    BitVec.eq_of_toNat_eq (List.sum_eq_zero_iff.mp (congrArg Prod.snd hbooks) _
      (List.mem_map_of_mem (List.mem_finRange i)))
  have htotal := congrArg Prod.fst hbooks
  rw [Memory.books, hexact.total, Finset.sum_eq_zero fun i _ => hbytes i] at htotal
  cases htotal

end PgAcorn.SharedCache
