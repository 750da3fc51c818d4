import PgAcorn.Build.Effect

/-! Every operation keeps the invariant, and what that means for a backend.

`Effect.inv` goes through the list of operations; `discipline` packages invariant
and list as the discipline that all inserts keep. The rest are the assertions an
insert makes between its own operations, with the proof that the others cannot
make them false. -/
namespace PgAcorn.Build
open Library

section
variable {I V Q D : Type} [CDouble D] {oc : Opclass V Q D} {G : MetaPage} {connected : Prop} {i : I}
  {s s' : Disk I V Q}

/-! ### The invariant -/

/-- Operations that leave elements, slots, meta page and events alone. -/
theorem Inv.of_same (h : Inv oc G connected s) (hs : SameShape s.relation s'.relation)
    (ht : SameTids s.relation s'.relation) (hsound : Sound G s'.relation)
    (hmeta : s'.relation.metaPage = s.relation.metaPage)
    (hevents : s'.history.events = s.history.events)
    (haccesses : ∀ a ∈ s'.history.accesses, a.Good G s.relation)
    (hwrites : s'.history.writes = s.history.writes)
    (hupdated : s'.history.updated = s.history.updated)
    (hwritten : ∀ {t : Tid} {e : ElementTuple V}, s.relation.element t = some e →
      s'.history.written e.neighbortid = s.history.written e.neighbortid) :
    Inv oc G connected s' where
  sound := hsound
  accesses a ha := (haccesses a ha).mono fun he => (hs.element _).trans he
  writes w hw := by
    rw [hwrites] at hw
    exact (h.writes w hw).mono fun he => (hs.element _).trans he
  neighborEvent he := by
    rw [hevents] at he
    obtain ⟨n, hn, hcount⟩ := h.neighborEvent he
    obtain ⟨n', hn', htids⟩ := ht _ n hn
    exact ⟨n', hn', (congrArg List.length htids).trans hcount⟩
  neighborOwner he he' := by
    rw [hevents] at he he'
    exact h.neighborOwner he he'
  elementEvent he u hu := by
    rw [hevents] at he
    obtain ⟨e, he⟩ := h.elementEvent he u hu
    exact ⟨e, (hs.element u).trans he⟩
  elementOwner he he' := by
    rw [hevents] at he he'
    exact h.elementOwner he he'
  written {t e n' layer} he hn' hl := by
    rw [hs.element] at he
    obtain ⟨n, hn, -⟩ := h.sound.neighbors he
    obtain ⟨n₁, hn₁, htids⟩ := ht _ n hn
    rw [hn'] at hn₁
    rw [hwritten he, h.written he hn hl, Option.some.inj hn₁, htids]
  updated t hu := by
    rw [hupdated] at hu
    obtain ⟨hhas, e, he, hlevel⟩ := h.updated t hu
    rw [hmeta]
    exact ⟨hhas, e, (hs.element t).trans he, hlevel⟩
  entryUpdated hhas := by
    rw [hmeta] at hhas ⊢
    rw [hupdated]
    exact h.entryUpdated hhas
  reader hlone hread := by
    rw [hevents] at hlone hread ⊢
    obtain hnone | hsome := h.reader hlone hread
    · exact .inl fun t => (hs.element t).trans (hnone t)
    · exact .inr hsome
  born {t e} hc hlone he hnil := by
    rw [hevents] at hlone ⊢
    rw [hs.element] at he
    rw [ht.layerNeighbors h.sound hs he] at hnil
    obtain hsole | hoffered := h.born hc hlone he hnil
    · exact .inl fun u e' he' => hsole u e' ((hs.element u).symm.trans he')
    · exact .inr hoffered

/-- A read of the meta page is recorded. -/
theorem Inv.event_read (h : Inv oc G connected s) :
    Inv oc G connected (s.event (.read i s.relation.metaPage.hasEntry s.relation.vacant)) where
  sound := h.sound
  accesses := h.accesses
  writes := h.writes
  neighborEvent he := h.neighborEvent (List.mem_of_ne_of_mem (by simp) he)
  neighborOwner he he' :=
    h.neighborOwner (List.mem_of_ne_of_mem (by simp) he) (List.mem_of_ne_of_mem (by simp) he')
  elementEvent he := h.elementEvent (List.mem_of_ne_of_mem (by simp) he)
  elementOwner he he' :=
    h.elementOwner (List.mem_of_ne_of_mem (by simp) he) (List.mem_of_ne_of_mem (by simp) he')
  written := h.written
  updated := h.updated
  entryUpdated := h.entryUpdated
  reader {j v} hlone hread := by
    obtain heq | hread' := List.mem_cons.mp hread
    · -- the reader that found none found no element either
      injection heq with _ _ hv
      have hvacant := hlone.1 j v hread
      rw [hv] at hvacant
      exact .inl (Relation.vacant_iff.mp hvacant)
    · obtain hnone | ⟨t, o, ho⟩ := h.reader hlone.of_cons hread'
      · exact .inl hnone
      · exact .inr ⟨t, o, List.mem_cons_of_mem _ ho⟩
  born hc hlone he hnil := by
    obtain hsole | ⟨j, u, o, ho, hu⟩ := h.born hc hlone.of_cons he hnil
    · exact .inl hsole
    · exact .inr ⟨j, u, o, List.mem_cons_of_mem _ ho, hu⟩

/-- A new neighbor tuple is recorded. -/
theorem Inv.event_neighbor (h : Inv oc G connected s) {t : Tid} {n : NeighborTuple Q} {level : Nat}
    (hn : s.relation.neighbor t = some n)
    (hcount : n.count = t2TotalSlots level G.m G.payloadWidth)
    (hnew : ∀ (j : I) (l : Nat), .neighbor j t l ∉ s.history.events) :
    Inv oc G connected (s.event (.neighbor i t level)) where
  sound := h.sound
  accesses := h.accesses
  writes := h.writes
  neighborEvent {j u l} he := by
    obtain heq | he := List.mem_cons.mp he
    · injection heq with _ hu hl
      subst hu hl
      exact ⟨n, hn, hcount⟩
    · exact h.neighborEvent he
  neighborOwner {j k u l l'} he he' := by
    obtain heq | hold := List.mem_cons.mp he
    · obtain heq' | hold' := List.mem_cons.mp he'
      · injection heq with hj
        injection heq' with hk
        rw [hj, hk]
      · injection heq with _ hu
        exact absurd (hu ▸ hold') (hnew k l')
    · obtain heq' | hold' := List.mem_cons.mp he'
      · injection heq' with _ hu
        exact absurd (hu ▸ hold) (hnew j l)
      · exact h.neighborOwner hold hold'
  elementEvent he := h.elementEvent (List.mem_of_ne_of_mem (by simp) he)
  elementOwner he he' :=
    h.elementOwner (List.mem_of_ne_of_mem (by simp) he) (List.mem_of_ne_of_mem (by simp) he')
  written := h.written
  updated := h.updated
  entryUpdated := h.entryUpdated
  reader hlone hread := by
    obtain hnone | ⟨u, o, ho⟩ :=
      h.reader hlone.of_cons (List.mem_of_ne_of_mem (by simp) hread)
    · exact .inl hnone
    · exact .inr ⟨u, o, List.mem_cons_of_mem _ ho⟩
  born hc hlone he hnil := by
    obtain hsole | ⟨j, u, o, ho, hu⟩ := h.born hc hlone.of_cons he hnil
    · exact .inl hsole
    · exact .inr ⟨j, u, o, List.mem_cons_of_mem _ ho, hu⟩

/-- A new element. -/
theorem Inv.append_element (h : Inv oc G connected s) {t : Tid} {e : ElementTuple V}
    {tids : List Tid} {r : Relation V Q} {offers : List Tid}
    (ha : Relation.Appended s.relation r (.element e) t)
    (hblocks : r.pages.length < invalidBlockNumber)
    (hpending : Pending G i e.neighbortid e.level tids s)
    (hslots : SlotsOk G s.relation t e.level tids)
    (hnew : ∀ u o, .element i u o ∉ s.history.events)
    (hoffers : ∀ u ∈ offers, ∃ e', s.relation.element u = some e')
    (hread : (∃ v, .read i false v ∈ s.history.events) ∨
      s.relation.metaPage.hasEntry = true ∧ offers ≠ [] ∧
        validTids (layerSlots G.m G.payloadWidth e.level 0 tids) ≠ []) :
    Inv oc G connected ((s.withRelation r).event (.element i t offers)) := by
  have hframe : Frame G i s _ :=
    (Effect.element ha hblocks hpending hslots hnew hoffers hread).frame h
  obtain ⟨⟨n, hn, rfl, hinline⟩, hevent, hfree, hw⟩ := hpending
  have hsound : Sound G r := h.sound.append_element ha hblocks hn hslots hfree hinline
  have hself : r.element t = some e := Relation.element_some.mpr ha.item_self
  have hother : ∀ {u : Tid} {e' : ElementTuple V}, r.element u = some e' →
      (u = t ∧ e' = e) ∨ s.relation.element u = some e' := by
    intro u e' he'
    by_cases hu : u = t
    · subst hu
      exact .inl ⟨rfl, (Option.some.inj (hself.symm.trans he')).symm⟩
    · exact .inr ((Relation.element_congr (ha.item_other u hu)).symm.trans he')
  refine ⟨hsound, fun a haa => (h.accesses a haa).mono ha.element_of_element,
    fun w hw => (h.writes w hw).mono ha.element_of_element, ?_, ?_, ?_, ?_, ?_, ?_, ?_, ?_, ?_⟩
  · intro j u l he'
    obtain ⟨n', hn', hcount⟩ := h.neighborEvent (List.mem_of_ne_of_mem (by simp) he')
    exact ⟨n', ha.neighbor_of_neighbor hn', hcount⟩
  · intro j k u l l' he' he''
    exact h.neighborOwner (List.mem_of_ne_of_mem (by simp) he')
      (List.mem_of_ne_of_mem (by simp) he'')
  · intro j u o he' v hv
    obtain heq | he' := List.mem_cons.mp he'
    · injection heq with _ hu ho
      subst hu ho
      obtain rfl | hv := List.mem_cons.mp hv
      · exact ⟨e, hself⟩
      · obtain ⟨e', hv'⟩ := hoffers v hv
        exact ⟨e', ha.element_of_element hv'⟩
    · obtain ⟨e', hv'⟩ := h.elementEvent he' v hv
      exact ⟨e', ha.element_of_element hv'⟩
  · -- the name is new, so nobody had it before
    have hnone : ∀ {j : I} {o : List Tid}, .element j t o ∉ s.history.events := by
      intro j o ho
      obtain ⟨e', he'⟩ := h.elementEvent ho t (by simp)
      rw [Relation.element_some, ha.fresh] at he'
      cases he'
    intro j k u o o' he' he''
    obtain heq | hold := List.mem_cons.mp he'
    · obtain heq' | hold' := List.mem_cons.mp he''
      · injection heq with hj
        injection heq' with hk
        rw [hj, hk]
      · injection heq with _ hu
        exact absurd (hu ▸ hold') hnone
    · obtain heq' | hold' := List.mem_cons.mp he''
      · injection heq' with _ hu
        exact absurd (hu ▸ hold) hnone
      · exact h.elementOwner hold hold'
  · intro u e' n' layer he' hn' hl
    obtain ⟨rfl, rfl⟩ | he' := hother he'
    · obtain rfl := Option.some.inj ((ha.neighbor_of_neighbor hn).symm.trans hn')
      exact hw layer
    · obtain ⟨n₁, hn₁, -⟩ := h.sound.neighbors he'
      obtain rfl := Option.some.inj ((ha.neighbor_of_neighbor hn₁).symm.trans hn')
      exact h.written he' hn₁ hl
  · intro u hu
    obtain ⟨hhas, e', he', hlevel⟩ := h.updated u hu
    rw [show ((s.withRelation r).event _).relation.metaPage = s.relation.metaPage from ha.metaPage]
    exact ⟨hhas, e', ha.element_of_element he', hlevel⟩
  · rw [show ((s.withRelation r).event _).relation.metaPage = s.relation.metaPage from ha.metaPage]
    exact h.entryUpdated
  · intro j v hlone hj
    have hj := List.mem_of_ne_of_mem (by simp) hj
    obtain hnone | ⟨u, o, ho⟩ := h.reader hlone.of_cons hj
    · -- the first element of all is that reader's own
      obtain ⟨v', hi⟩ | ⟨hhas, -⟩ := hread
      · obtain rfl := hlone.of_cons.2 i j v' v hi hj
        exact .inr ⟨t, offers, by simp [Disk.event]⟩
      · obtain ⟨e', he', -⟩ := h.sound.entry hhas
        rw [hnone] at he'
        cases he'
    · exact .inr ⟨u, o, List.mem_cons_of_mem _ ho⟩
  · intro u e' hc hlone he' hnil
    obtain ⟨rfl, rfl⟩ | he' := hother he'
    · -- the new element: it has slots of its own, or it is the first one
      obtain ⟨v, hi⟩ | ⟨-, -, hne⟩ := hread
      · obtain hnone | ⟨w, o, ho⟩ := h.reader hlone.of_cons hi
        · left
          intro w e'' hw'
          obtain ⟨rfl, -⟩ | hw' := hother hw'
          · rfl
          · rw [hnone] at hw'
            cases hw'
        · exact absurd ho (hnew w o)
      · refine absurd ?_ hne
        rw [← hsound.layerNeighbors hself (ha.neighbor_of_neighbor hn)]
        exact hnil
    · have hold : s.relation.layerNeighbors 0 u = [] := by
        by_contra hne
        exact hframe.kept he' (Nat.zero_le _) hne hnil
      obtain hsole | ⟨j, w, o, ho, hu⟩ := h.born hc hlone.of_cons he' hold
      · -- the only element so far is among those the new one makes an offer to
        right
        obtain ⟨v, hi⟩ | ⟨-, hne, -⟩ := hread
        · obtain hnone | ⟨w, o, ho⟩ := h.reader hlone.of_cons hi
          · rw [hnone] at he'
            cases he'
          · exact absurd ho (hnew w o)
        · obtain ⟨w, hw'⟩ := List.exists_mem_of_ne_nil offers hne
          obtain ⟨e'', he''⟩ := hoffers w hw'
          obtain rfl := hsole w e'' he''
          exact ⟨i, t, offers, by simp [Disk.event], hw'⟩
      · exact .inr ⟨j, w, o, List.mem_cons_of_mem _ ho, hu⟩

/-- The entry point is the highest element whose update step has run. -/
theorem Inv.updateEntry (h : Inv oc G connected s) {t : Tid} {e : ElementTuple V}
    (he : s.relation.element t = some e) : Inv oc G connected (s.updateEntry t e.level) := by
  have hs := sameShape_updateEntry s t e.level
  have ht : SameTids s.relation (s.updateEntry t e.level).relation := .refl _
  have hentry : Sound G (s.updateEntry t e.level).relation ∧
      (s.updateEntry t e.level).relation.metaPage.hasEntry = true ∧
      (e.level : Int) ≤ (s.updateEntry t e.level).relation.metaPage.entryLevel ∧
      (s.relation.metaPage.hasEntry = true → s.relation.metaPage.entryLevel ≤
        (s.updateEntry t e.level).relation.metaPage.entryLevel) ∧
      (s.updateEntry t e.level).relation.metaPage.entry ∈ t :: s.history.updated := by
    have hblk := Relation.blkno_le_of_item (Relation.element_some.mp he)
    have hblocks := h.sound.blocks
    unfold Disk.updateEntry
    dsimp only
    split
    · rename_i hc
      refine ⟨h.sound.setEntryPoint he, ?_, Int.le_refl _, fun hhas => ?_, by simp [MetaPage.entry]⟩
      · simp only [MetaPage.hasEntry, bne_iff_ne, ne_eq]
        omega
      · simp only [hhas, Bool.not_true, Bool.false_or, decide_eq_true_eq] at hc
        exact Int.le_of_lt hc
    · rename_i hc
      simp only [Bool.or_eq_true, Bool.not_eq_true', decide_eq_true_eq, not_or,
        Bool.not_eq_false] at hc
      exact ⟨h.sound, hc.1, by omega, fun _ => Int.le_refl _,
        List.mem_cons_of_mem t (h.entryUpdated hc.1)⟩
  obtain ⟨hsound, hhas, hle, hmono, hmem⟩ := hentry
  refine ⟨hsound, h.accesses, fun w hw => (h.writes w hw).mono fun he => (hs.element _).trans he,
    h.neighborEvent, h.neighborOwner, h.elementEvent, h.elementOwner,
    h.written, fun u hu => ⟨hhas, ?_⟩, fun _ => hmem, h.reader, fun {u e'} hc hlone he' hnil => ?_⟩
  · obtain rfl | hu := List.mem_cons.mp hu
    · exact ⟨e, he, hle⟩
    · obtain ⟨hhas', e', he', hle'⟩ := h.updated u hu
      exact ⟨e', he', hle'.trans (hmono hhas')⟩
  · rw [ht.layerNeighbors h.sound hs he'] at hnil
    exact h.born hc hlone he' hnil

/-- A slot goes to the element of its backend. -/
theorem Inv.slot (h : Inv oc G connected s) {t u : Tid} {en eu : ElementTuple V} {layer j : Nat}
    {o : List Tid} {a : Access} (hen : s.relation.element t = some en)
    (heu : s.relation.element u = some eu) (howner : .element i u o ∈ s.history.events)
    (hne : u ≠ t) (hl : layer ≤ en.level) (hlevel : layer ≤ eu.level)
    (hj : j < t2LayerM layer G.m G.payloadWidth)
    (hnew : u ∉ s.relation.layerNeighbors layer t) (ha : a.Good G s.relation) {w : SlotWrite}
    (hw : w.Fits en.neighbortid ((en.level - layer) * G.m + j) u s)
    (hchosen : w.Chosen oc s.relation) :
    Inv oc G connected (((s.putSlot en.neighbortid layer ((en.level - layer) * G.m + j) j
      u).access a).noteWrite w) := by
  have hframe : Frame G i s _ :=
    (Effect.slot hen heu howner hne hl hlevel hj hnew ha hw hchosen).frame h
  have hs := (keepsKind_setSlot ((en.level - layer) * G.m + j) u).sameShape s.relation en.neighbortid
  refine ⟨h.sound.setSlot hen heu hne hl hlevel hj hnew, fun b hb => ?_, fun v hv => ?_,
    fun he => ?_,
    h.neighborOwner, fun he v hv => ?_, h.elementOwner, fun {v e n' layer'} he hn' hl' => ?_,
    fun v hv => ?_, ?_, fun hlone hread => ?_, fun {v e} hc hlone he hnil => ?_⟩
  · obtain rfl | hb := List.mem_cons.mp hb
    · exact ha.mono fun he => (hs.element _).trans he
    · exact (h.accesses b hb).mono fun he => (hs.element _).trans he
  · obtain rfl | hv := List.mem_cons.mp hv
    · exact hchosen.mono fun he => (hs.element _).trans he
    · exact (h.writes v hv).mono fun he => (hs.element _).trans he
  · obtain ⟨n, hn, hcount⟩ := h.neighborEvent he
    obtain ⟨n', hn', hlen, -⟩ := hs.neighbor hn
    exact ⟨n', hn', hlen.trans hcount⟩
  · obtain ⟨e, he⟩ := h.elementEvent he v hv
    exact ⟨e, (hs.element v).trans he⟩
  · -- the record of the written layer follows the tuple
    have he₀ : s.relation.element v = some e := (hs.element v).symm.trans he
    obtain ⟨n, hn, -⟩ := h.sound.neighbors he₀
    have hold := h.written he₀ hn hl'
    show Function.update s.history.written en.neighbortid _ e.neighbortid layer' = _
    by_cases hv : v = t
    · subst hv
      obtain rfl := Option.some.inj (hen.symm.trans he₀)
      have hn₁ : (s.relation.update en.neighbortid (setSlot ((en.level - layer) * G.m + j) u)).neighbor
          en.neighbortid = some ⟨n.tids.set ((en.level - layer) * G.m + j) u, n.inline?⟩ := by
        rw [Relation.neighbor_some, Relation.item_update, if_pos rfl, Relation.neighbor_some.mp hn]
        rfl
      obtain rfl := Option.some.inj (hn₁.symm.trans hn')
      rw [Function.update_self]
      by_cases hlayer : layer' = layer
      · subst hlayer
        rw [Function.update_self, hold, Relation.layerSlots_set]
      · rw [Function.update_of_ne hlayer, hold, Relation.layerSlots_set_of_ne hl hl' hlayer hj]
    · have hdiff : e.neighbortid ≠ en.neighbortid := fun heq => hv (h.sound.own he₀ hen heq)
      have hn₁ := neighbor_update_of_ne s.relation hdiff (setSlot ((en.level - layer) * G.m + j) u)
      obtain rfl := Option.some.inj (hn.symm.trans (hn₁.symm.trans hn'))
      rw [Function.update_of_ne hdiff, hold]
  · obtain ⟨hhas, e, he, hle⟩ := h.updated v hv
    refine ⟨hframe.hasEntry hhas, e, hframe.element he, ?_⟩
    show (e.level : Int) ≤ (s.relation.update _ _).metaPage.entryLevel
    rwa [Relation.metaPage_update]
  · show (s.relation.update _ _).metaPage.hasEntry = true →
      (s.relation.update _ _).metaPage.entry ∈ s.history.updated
    rw [Relation.metaPage_update]
    exact h.entryUpdated
  · obtain hnone | hsome := h.reader hlone hread
    · exact .inl fun v => (hs.element v).trans (hnone v)
    · exact .inr hsome
  · have he₀ : s.relation.element v = some e := (hs.element v).symm.trans he
    have hold : s.relation.layerNeighbors 0 v = [] := by
      by_contra hne'
      exact hframe.kept he₀ (Nat.zero_le _) hne' hnil
    obtain hsole | hoffered := h.born hc hlone he₀ hold
    · exact .inl fun w e' he' => hsole w e' ((hs.element w).symm.trans he')
    · exact .inr hoffered

/-- **Every operation keeps the invariant.** -/
theorem Effect.inv (h : Inv oc G connected s) (heff : Effect oc G i s s') : Inv oc G connected s' := by
  cases heff with
  | skip => exact h
  | access ha =>
    refine h.of_same (.refl _) (.refl _) h.sound rfl rfl (fun b hb => ?_) rfl rfl fun _ => rfl
    obtain rfl | hb := List.mem_cons.mp hb
    · exact ha
    · exact h.accesses b hb
  | read _ => exact h.event_read
  | cont ha hblocks hnext =>
    refine h.of_same (sameShape_append ha fun _ h => by cases h) (sameTids_append ha) ?_ ha.metaPage
      rfl h.accesses rfl rfl fun _ => rfl
    refine h.sound.append_other ha hblocks (fun _ h => by cases h) fun c hc hvalid => ?_
    obtain rfl := Option.some.inj hc
    exact hnext hvalid
  | @neighbor t n r level ha hblocks hcount hnext =>
    have hr : Inv oc G connected ((s.withRelation r).write t fun layer =>
        layerSlots G.m G.payloadWidth level layer n.tids) := by
      refine h.of_same (sameShape_append ha fun _ h => by cases h) (sameTids_append ha)
        (h.sound.append_other ha hblocks (fun _ h => by cases h) hnext) ha.metaPage rfl h.accesses
        rfl rfl fun {u e} he => ?_
      obtain ⟨n', hn', -⟩ := h.sound.neighbors he
      exact Function.update_of_ne (ha.ne_of_item (Relation.neighbor_some.mp hn')) _ _
    refine hr.event_neighbor (Relation.neighbor_some.mpr ha.item_self) hcount fun j l hj => ?_
    obtain ⟨n', hn', -⟩ := h.neighborEvent hj
    rw [Relation.neighbor_some, ha.fresh] at hn'
    cases hn'
  | element ha hblocks hpending hslots hnew hoffers hread =>
    exact h.append_element ha hblocks hpending hslots hnew hoffers hread
  | update he => exact h.updateEntry he
  | slot hen heu howner hne hl hlevel hj hnew ha hw hchosen =>
    exact h.slot hen heu howner hne hl hlevel hj hnew ha hw hchosen
  | @entry t idx entry =>
    exact h.of_same ((keepsKind_setEntry idx entry).sameShape _ t) (sameTids_setEntry _ t idx entry)
      (h.sound.setEntry t idx entry) (Relation.metaPage_update ..) rfl h.accesses rfl rfl fun _ => rfl

/-! ### The discipline -/

/-- Every edge a backend offered to a layer-0 neighbor has been taken, or the
neighbor has others. -/
def Paid (i : I) (s : Disk I V Q) : Prop :=
  ∀ t o, .element i t o ∈ s.history.events → ∀ u ∈ o, s.relation.layerNeighbors 0 u ≠ []

/-- The backend has done nothing yet. -/
def Idle (i : I) (s : Disk I V Q) : Prop := ∀ e ∈ s.history.events, e.backend ≠ i

/-- What all inserts keep. -/
def discipline (I : Type) (oc : Opclass V Q D) (G : MetaPage) (connected : Prop) :
    Discipline I (Disk I V Q) where
  inv := Inv oc G connected
  guar := Effect oc G
  idle := Idle
  failed := Paid

/-! ### What the others cannot make false -/

/-- The element exists and has the layer. -/
def OnLayer (lc : Nat) (t : Tid) (s : Disk I V Q) : Prop :=
  ∃ e, s.relation.element t = some e ∧ lc ≤ e.level

/-- The backend has not appended its element. -/
def Unborn (i : I) (s : Disk I V Q) : Prop := ∀ u o, .element i u o ∉ s.history.events

theorem stable_of_frame {P : Disk I V Q → Prop}
    (h : ∀ {s s' j}, j ≠ i → Inv oc G connected s → Frame G j s s' → P s → P s') :
    Stable (discipline I oc G connected) i P :=
  .of_step fun hj hinv _ heff hP => h hj hinv (heff.frame hinv) hP

theorem stable_element (t : Tid) (e : ElementTuple V) :
    Stable (discipline I oc G connected) i fun s => s.relation.element t = some e :=
  stable_of_frame fun _ _ hf he => hf.element he

theorem stable_onLayer (lc : Nat) (t : Tid) :
    Stable (discipline I oc G connected) i (OnLayer lc t) :=
  stable_of_frame fun _ _ hf ⟨e, he, hl⟩ => ⟨e, hf.element he, hl⟩

theorem stable_cont (t : Tid) :
    Stable (discipline I oc G connected) i fun s => ∃ c, s.relation.item t = some (.cont c) :=
  stable_of_frame fun _ _ hf ⟨_, hc⟩ => hf.cont hc

/-- No other backend makes events of this one. -/
theorem Frame.not_mem {j : I} (hf : Frame G j s s') {e : Event I} (hj : j ≠ e.backend)
    (he : e ∉ s.history.events) : e ∉ s'.history.events := fun he' =>
  (hf.own e he').elim he fun heq => hj heq.symm

theorem stable_idle : Stable (discipline I oc G connected) i (Idle i) :=
  stable_of_frame fun hj _ hf hidle e he => (hf.own e he).elim (hidle e) fun heq => heq ▸ hj

theorem stable_pending (t : Tid) (level : Nat) (tids : List Tid) :
    Stable (discipline I oc G connected) i (Pending G i t level tids) :=
  stable_of_frame fun hj _ hf hp => hf.pending (Ne.symm hj) hp

theorem stable_paid : Stable (discipline I oc G connected) i (Paid i) := by
  apply stable_of_frame
  intro s s' j hj hinv hf hpaid t o ho u hu
  obtain hold | heq := hf.own _ ho
  · obtain ⟨e, he⟩ := hinv.elementEvent hold u (List.mem_cons_of_mem t hu)
    exact hf.kept he (Nat.zero_le _) (hpaid t o hold u hu)
  · exact absurd heq.symm hj

/-- The element has neighbors on the layer. -/
def Linked (lc : Nat) (t : Tid) (s : Disk I V Q) : Prop :=
  OnLayer lc t s ∧ s.relation.layerNeighbors lc t ≠ []

theorem stable_linked (lc : Nat) (t : Tid) :
    Stable (discipline I oc G connected) i (Linked lc t) :=
  stable_of_frame fun _ _ hf ⟨⟨e, he, hl⟩, hne⟩ => ⟨⟨e, hf.element he, hl⟩, hf.kept he hl hne⟩

/-- An insert that has done nothing has not appended its element, and owes nothing. -/
theorem Idle.unborn (h : Idle i s) : Unborn i s := fun _ _ ho => h _ ho rfl

theorem Unborn.paid (h : Unborn i s) : Paid i s := fun t o ho => absurd ho (h t o)

end

end PgAcorn.Build
