import PgAcorn.Build.Insert
import PgAcorn.Build.Sound

/-! What one operation of an insert can do to the index.

`Effect i` lists it, operation by operation, for backend `i`; everything that
holds at every instant, and everything a backend may assume of the others, is
derived from this list. `Inv` is the former: the relation is sound, and the record
says truly who wrote what. `Frame` is the latter: elements stay, only the backend
that appended an element puts it into slots of elements that exist, and a neighbor
tuple whose element is still to come is touched by no one else.

Two parts of `Inv` concern inserts that found no entry point. While there is at
most one, and it found no element either, an element without layer-0 slots is
either alone or has been offered an edge. -/
namespace PgAcorn.Build
open Library

section
variable {I V Q : Type}

/-! ### Assertions -/

/-- The access stays within the layer it is for, as a reader of the fixed geometry
delimits it. -/
def Access.Good (G : MetaPage) (r : Relation V Q) (a : Access) : Prop :=
  ∃ t e, r.element t = some e ∧ e.neighbortid = a.nbrtid ∧ a.layer ≤ e.level ∧
    ((e.level - a.layer) * G.m : Nat) ≤ a.start ∧
    a.start + a.len ≤ ((e.level - a.layer) * G.m + t2LayerM a.layer G.m G.payloadWidth : Nat) ∧
    (a.whole = true → a.start = ((e.level - a.layer) * G.m : Nat) ∧
      a.len = t2LayerM a.layer G.m G.payloadWidth)

theorem Access.Good.mono {G : MetaPage} {r r' : Relation V Q} {a : Access} (h : a.Good G r)
    (helem : ∀ {t : Tid} {e : ElementTuple V}, r.element t = some e → r'.element t = some e) :
    a.Good G r' := by
  obtain ⟨t, e, he, hrest⟩ := h
  exact ⟨t, e, helem he, hrest⟩

/-- At most one insert found no entry point, and no element was there when it
looked. -/
def Lone (events : List (Event I)) : Prop :=
  (∀ i v, .read i false v ∈ events → v = true) ∧
    ∀ i j v v', .read i false v ∈ events → .read j false v' ∈ events → i = j

theorem Lone.of_cons {e : Event I} {events : List (Event I)} (h : Lone (e :: events)) :
    Lone events :=
  ⟨fun i v hv => h.1 i v (List.mem_cons_of_mem e hv), fun i j v v' hv hv' =>
    h.2 i j v v' (List.mem_cons_of_mem e hv) (List.mem_cons_of_mem e hv')⟩

/-- A neighbor tuple with these slots that `i` appended and no element owns yet. -/
structure Pending (G : MetaPage) (i : I) (t : Tid) (level : Nat) (tids : List Tid)
    (s : Disk I V Q) : Prop where
  neighbor : ∃ n, s.relation.neighbor t = some n ∧ n.tids = tids ∧
    (G.inlineVectors = true → n.inline?.isSome = true)
  event : .neighbor i t level ∈ s.history.events
  free : ∀ {u : Tid} {e : ElementTuple V}, s.relation.element u = some e → e.neighbortid ≠ t
  written : ∀ layer, s.history.written t layer = layerSlots G.m G.payloadWidth level layer tids

/-- The record of a write of slot `k` of a neighbor tuple, with the slot as it was. -/
structure SlotWrite.Fits (w : SlotWrite) (t : Tid) (k : Nat) (u : Tid) (s : Disk I V Q) : Prop where
  nbrtid : w.nbrtid = t
  slot : w.start + w.target = k
  e : w.e = u
  found : ∀ n, s.relation.neighbor t = some n → w.found[w.target]? = n.tids[k]?

section
variable {D : Type} [CDouble D] (oc : Opclass V Q D)

/-- Slots of a full range of which the edge's target is the one that gives way. -/
def ReverseEdge.ByPolicy (r : Relation V Q) (w : ReverseEdge) (range : List Tid) : Prop :=
  ∃ t n new es, r.element t = some n ∧ n.neighbortid = w.nbrtid ∧ r.element w.e = some new ∧
    List.Forall₂ (fun u e => r.element u = some e) range es ∧
    fullRangeSlot oc.dist w.diversify w.part n es new.vec = some w.target

/-- The target was empty when the range was copied, or it is what the copy's policy
gives. -/
def ReverseEdge.Chosen (r : Relation V Q) (w : ReverseEdge) : Prop :=
  (∃ t, w.copied[w.target]? = some t ∧ t.isValid = false) ∨ w.ByPolicy oc r w.copied

variable {oc}

theorem ReverseEdge.ByPolicy.mono {r r' : Relation V Q} {w : ReverseEdge} {range : List Tid}
    (h : w.ByPolicy oc r range)
    (helem : ∀ {t : Tid} {e : ElementTuple V}, r.element t = some e → r'.element t = some e) :
    w.ByPolicy oc r' range := by
  obtain ⟨t, n, new, es, hn, hown, hnew, hes, hslot⟩ := h
  exact ⟨t, n, new, es, helem hn, hown, helem hnew, hes.imp fun _ _ he => helem he, hslot⟩

theorem ReverseEdge.Chosen.mono {r r' : Relation V Q} {w : ReverseEdge} (h : w.Chosen oc r)
    (helem : ∀ {t : Tid} {e : ElementTuple V}, r.element t = some e → r'.element t = some e) :
    w.Chosen oc r' := h.imp_right fun h => h.mono helem

end

/-! ### The list -/

variable {D : Type} [CDouble D]

inductive Effect (oc : Opclass V Q D) (G : MetaPage) (i : I) (s : Disk I V Q) : Disk I V Q → Prop
  | skip : Effect oc G i s s
  | access {a : Access} (ha : a.Good G s.relation) : Effect oc G i s (s.access a)
  | read (hnew : ∀ found vacant, .read i found vacant ∉ s.history.events) :
    Effect oc G i s (s.event (.read i s.relation.metaPage.hasEntry s.relation.vacant))
  | cont {t : Tid} {c : InlineChunk Q} {r : Relation V Q}
    (ha : Relation.Appended s.relation r (.cont c) t)
    (hblocks : r.pages.length < invalidBlockNumber)
    (hnext : c.next.isValid = true → ∃ c', s.relation.item c.next = some (.cont c')) :
    Effect oc G i s (s.withRelation r)
  | neighbor {t : Tid} {n : NeighborTuple Q} {r : Relation V Q} {level : Nat}
    (ha : Relation.Appended s.relation r (.neighbor n) t)
    (hblocks : r.pages.length < invalidBlockNumber)
    (hcount : n.count = t2TotalSlots level G.m G.payloadWidth)
    (hnext : ∀ c, n.inline? = some c → c.next.isValid = true →
      ∃ c', s.relation.item c.next = some (.cont c')) :
    Effect oc G i s (((s.withRelation r).write t fun layer =>
      layerSlots G.m G.payloadWidth level layer n.tids).event (.neighbor i t level))
  | element {t : Tid} {e : ElementTuple V} {tids : List Tid} {r : Relation V Q}
    {offers : List Tid} (ha : Relation.Appended s.relation r (.element e) t)
    (hblocks : r.pages.length < invalidBlockNumber)
    (hpending : Pending G i e.neighbortid e.level tids s)
    (hslots : SlotsOk G s.relation t e.level tids)
    (hnew : ∀ u o, .element i u o ∉ s.history.events)
    (hoffers : ∀ u ∈ offers, ∃ e', s.relation.element u = some e')
    (hread : (∃ v, .read i false v ∈ s.history.events) ∨
      s.relation.metaPage.hasEntry = true ∧ offers ≠ [] ∧
        validTids (layerSlots G.m G.payloadWidth e.level 0 tids) ≠ []) :
    Effect oc G i s ((s.withRelation r).event (.element i t offers))
  | update {t : Tid} {e : ElementTuple V} (he : s.relation.element t = some e) :
    Effect oc G i s (s.updateEntry t e.level)
  | slot {t u : Tid} {en eu : ElementTuple V} {layer j : Nat} {o : List Tid} {a : Access}
    {w : SlotWrite}
    (hen : s.relation.element t = some en) (heu : s.relation.element u = some eu)
    (howner : .element i u o ∈ s.history.events) (hne : u ≠ t) (hl : layer ≤ en.level)
    (hlevel : layer ≤ eu.level) (hj : j < t2LayerM layer G.m G.payloadWidth)
    (hnew : u ∉ s.relation.layerNeighbors layer t) (ha : a.Good G s.relation)
    (hw : w.Fits en.neighbortid ((en.level - layer) * G.m + j) u s)
    (hchosen : w.Chosen oc s.relation) :
    Effect oc G i s (((s.putSlot en.neighbortid layer ((en.level - layer) * G.m + j) j u).access
      a).noteWrite w)
  | entry {t : Tid} {idx : Nat} {entry : InlineEntry Q} :
    Effect oc G i s (s.withRelation (s.relation.update t (setEntry idx entry)))

/-! ### What holds at every instant -/

structure Inv (oc : Opclass V Q D) (G : MetaPage) (connected : Prop) (s : Disk I V Q) : Prop where
  sound : Sound G s.relation
  accesses : ∀ a ∈ s.history.accesses, a.Good G s.relation
  writes : ∀ w ∈ s.history.writes, w.Chosen oc s.relation
  neighborEvent : ∀ {i : I} {t : Tid} {level : Nat}, .neighbor i t level ∈ s.history.events →
    ∃ n, s.relation.neighbor t = some n ∧ n.count = t2TotalSlots level G.m G.payloadWidth
  neighborOwner : ∀ {i j : I} {t : Tid} {level level' : Nat},
    .neighbor i t level ∈ s.history.events → .neighbor j t level' ∈ s.history.events → i = j
  elementEvent : ∀ {i : I} {t : Tid} {o : List Tid}, .element i t o ∈ s.history.events →
    ∀ u ∈ t :: o, ∃ e, s.relation.element u = some e
  elementOwner : ∀ {i j : I} {t : Tid} {o o' : List Tid}, .element i t o ∈ s.history.events →
    .element j t o' ∈ s.history.events → i = j
  /-- The slots of a layer are where its readers look for them. -/
  written : ∀ {t : Tid} {e : ElementTuple V} {n : NeighborTuple Q} {layer : Nat},
    s.relation.element t = some e → s.relation.neighbor e.neighbortid = some n → layer ≤ e.level →
    s.history.written e.neighbortid layer = layerSlots G.m G.payloadWidth e.level layer n.tids
  updated : ∀ t ∈ s.history.updated, s.relation.metaPage.hasEntry = true ∧
    ∃ e, s.relation.element t = some e ∧ (e.level : Int) ≤ s.relation.metaPage.entryLevel
  entryUpdated : s.relation.metaPage.hasEntry = true →
    s.relation.metaPage.entry ∈ s.history.updated
  reader : ∀ {i : I} {v : Bool}, Lone s.history.events → .read i false v ∈ s.history.events →
    (∀ t, s.relation.element t = none) ∨ ∃ t o, .element i t o ∈ s.history.events
  born : ∀ {t : Tid} {e : ElementTuple V}, connected → Lone s.history.events →
    s.relation.element t = some e → s.relation.layerNeighbors 0 t = [] →
    (∀ u e', s.relation.element u = some e' → u = t) ∨
      ∃ j u o, .element j u o ∈ s.history.events ∧ t ∈ o

/-! ### What others see of an operation -/

structure Frame (G : MetaPage) (i : I) (s s' : Disk I V Q) : Prop where
  element : ∀ {t : Tid} {e : ElementTuple V}, s.relation.element t = some e →
    s'.relation.element t = some e
  cont : ∀ {t : Tid} {c : InlineChunk Q}, s.relation.item t = some (.cont c) →
    ∃ c', s'.relation.item t = some (.cont c')
  chunk : ∀ {t : Tid} {c : InlineChunk Q}, (s.relation.item t).bind IndexTuple.chunk? = some c →
    ∃ c', (s'.relation.item t).bind IndexTuple.chunk? = some c' ∧
      c'.entries.length = c.entries.length
  hasEntry : s.relation.metaPage.hasEntry = true → s'.relation.metaPage.hasEntry = true
  blocks : s.relation.pages.length ≤ s'.relation.pages.length
  events : ∀ e ∈ s.history.events, e ∈ s'.history.events
  own : ∀ e ∈ s'.history.events, e ∈ s.history.events ∨ e.backend = i
  slots : ∀ {t u : Tid} {e : ElementTuple V} {layer : Nat}, s.relation.element t = some e →
    layer ≤ e.level → u ∈ s'.relation.layerNeighbors layer t →
    u ∈ s.relation.layerNeighbors layer t ∨ ∃ o, .element i u o ∈ s.history.events
  kept : ∀ {t : Tid} {e : ElementTuple V} {layer : Nat}, s.relation.element t = some e →
    layer ≤ e.level → s.relation.layerNeighbors layer t ≠ [] →
    s'.relation.layerNeighbors layer t ≠ []
  pending : ∀ {j : I} {t : Tid} {level : Nat} {tids : List Tid}, j ≠ i →
    Pending G j t level tids s → Pending G j t level tids s'

variable {oc : Opclass V Q D} {G : MetaPage} {connected : Prop} {i : I} {s s' : Disk I V Q}

/-- The slots of every neighbor tuple are as they were. -/
def SameTids (r r' : Relation V Q) : Prop :=
  ∀ (t : Tid) (n : NeighborTuple Q), r.neighbor t = some n → ∃ n', r'.neighbor t = some n' ∧
    n'.tids = n.tids

/-- With the slots as they were, so are all layers. -/
theorem SameTids.layerNeighbors {r r' : Relation V Q} (ht : SameTids r r') (h : Sound G r)
    (hs : SameShape r r') {t : Tid} {e : ElementTuple V} (he : r.element t = some e) (layer : Nat) :
    r'.layerNeighbors layer t = r.layerNeighbors layer t := by
  obtain ⟨n, hn, -⟩ := h.neighbors he
  obtain ⟨n', hn', htids⟩ := ht _ n hn
  exact hs.layerNeighbors he (by rw [hn, hn', Option.map_some, Option.map_some, htids]) layer

theorem Pending.of_same {j : I} {t : Tid} {level : Nat} {tids : List Tid}
    (h : Pending G j t level tids s) (hs : SameShape s.relation s'.relation)
    (htids : SameTids s.relation s'.relation)
    (hevents : ∀ e ∈ s.history.events, e ∈ s'.history.events)
    (hwritten : ∀ layer, s'.history.written t layer = s.history.written t layer) :
    Pending G j t level tids s' := by
  obtain ⟨⟨n, hn, rfl, hinline⟩, hevent, hfree, hw⟩ := h
  refine ⟨?_, hevents _ hevent, fun he => ?_, fun layer => (hwritten layer).trans (hw layer)⟩
  · obtain ⟨n', hn', heq⟩ := htids _ n hn
    obtain ⟨n₁, hn₁, -, hsome⟩ := hs.neighbor hn
    rw [hn'] at hn₁
    obtain rfl := Option.some.inj hn₁
    exact ⟨n', hn', heq, fun hG => hsome.trans (hinline hG)⟩
  · rw [hs.element] at he
    exact hfree he

/-- Operations that leave elements and slots alone. -/
theorem Frame.of_same (h : Sound G s.relation) (hs : SameShape s.relation s'.relation)
    (htids : SameTids s.relation s'.relation)
    (hentry : s.relation.metaPage.hasEntry = true → s'.relation.metaPage.hasEntry = true)
    (hevents : ∀ e ∈ s.history.events, e ∈ s'.history.events)
    (hown : ∀ e ∈ s'.history.events, e ∈ s.history.events ∨ e.backend = i)
    (hwritten : ∀ {j t level tids}, j ≠ i → Pending G j t level tids s →
      ∀ layer, s'.history.written t layer = s.history.written t layer) :
    Frame G i s s' where
  element he := (hs.element _).trans he
  cont := hs.cont
  chunk := hs.chunk
  hasEntry := hentry
  blocks := hs.blocks
  events := hevents
  own := hown
  slots he _ hu := by
    rw [htids.layerNeighbors h hs he] at hu
    exact .inl hu
  kept he _ hne := by
    rwa [htids.layerNeighbors h hs he]
  pending hj hp := hp.of_same hs htids hevents (hwritten hj hp)

theorem SameShape.refl (r : Relation V Q) : SameShape r r :=
  ⟨.refl _, fun _ => rfl, fun hn => ⟨_, hn, rfl, rfl⟩, fun hc => ⟨_, hc⟩,
    fun hc => ⟨_, hc, rfl⟩, Nat.le_refl _⟩

theorem SameTids.refl (r : Relation V Q) : SameTids r r := fun _ _ hn => ⟨_, hn, rfl⟩

theorem sameTids_append {r r' : Relation V Q} {x : IndexTuple V Q} {t : Tid}
    (h : Relation.Appended r r' x t) : SameTids r r' := fun _ _ hn =>
  ⟨_, h.neighbor_of_neighbor hn, rfl⟩

theorem sameTids_setEntry (r : Relation V Q) (t : Tid) (idx : Nat) (entry : InlineEntry Q) :
    SameTids r (r.update t (setEntry idx entry)) := by
  intro u n hn
  by_cases hu : u = t
  · subst hu
    refine ⟨⟨n.tids, n.inline?.map fun c => { c with entries := c.entries.set idx entry }⟩,
      Relation.neighbor_some.mpr ?_, rfl⟩
    rw [Relation.item_update, if_pos rfl, Relation.neighbor_some.mp hn, Option.map_some]
    rfl
  · exact ⟨n, by rw [neighbor_update_of_ne r hu, hn], rfl⟩

/-- The meta page after an entry-update step. -/
theorem metaPage_updateEntry (s : Disk I V Q) (t : Tid) (level : Nat) :
    (s.updateEntry t level).relation.metaPage = s.relation.metaPage ∨
      (s.updateEntry t level).relation.metaPage = { s.relation.metaPage with
        entryBlkno := t.blkno, entryOffno := t.offno, entryLevel := level } := by
  unfold Disk.updateEntry
  dsimp only
  split
  · exact .inr rfl
  · exact .inl rfl

theorem sameShape_updateEntry (s : Disk I V Q) (t : Tid) (level : Nat) :
    SameShape s.relation (s.updateEntry t level).relation := by
  refine ⟨?_, fun _ => rfl, fun hn => ⟨_, hn, rfl, rfl⟩, fun hc => ⟨_, hc⟩,
    fun hc => ⟨_, hc, rfl⟩, Nat.le_refl _⟩
  obtain h | h := metaPage_updateEntry s t level
  · rw [h]
    exact .refl _
  · rw [h]
    exact ⟨rfl, rfl, rfl, rfl⟩

/-- The layer a slot was written in. -/
theorem layerNeighbors_setSlot_self {r : Relation V Q} (h : Sound G r) {t u : Tid}
    {e : ElementTuple V} {layer j : Nat} (he : r.element t = some e) (hl : layer ≤ e.level) :
    ∃ slots : List Tid, slots.length = t2LayerM layer G.m G.payloadWidth ∧
      r.layerNeighbors layer t = validTids slots ∧
      (r.update e.neighbortid (setSlot ((e.level - layer) * G.m + j) u)).layerNeighbors layer t =
        validTids (slots.set j u) := by
  obtain ⟨n, hn, hslots⟩ := h.neighbors he
  have hlen := Relation.length_layerSlots hslots.count hl
  refine ⟨layerSlots G.m G.payloadWidth e.level layer n.tids, hlen, h.layerNeighbors he hn layer, ?_⟩
  have hs := (keepsKind_setSlot ((e.level - layer) * G.m + j) u).sameShape r e.neighbortid
  have hn' : (r.update e.neighbortid (setSlot ((e.level - layer) * G.m + j) u)).neighbor
      e.neighbortid = some ⟨n.tids.set ((e.level - layer) * G.m + j) u, n.inline?⟩ := by
    rw [Relation.neighbor_some, Relation.item_update, if_pos rfl, Relation.neighbor_some.mp hn]
    rfl
  rw [Relation.layerNeighbors_eq ((hs.element t).trans he) hn', hs.geometry.m,
    hs.geometry.payloadWidth, h.geometry.m, h.geometry.payloadWidth, Relation.layerSlots_set]

/-- The layers a slot was not written in. -/
theorem layerNeighbors_setSlot_of_ne {r : Relation V Q} (h : Sound G r) {t u v : Tid}
    {e e' : ElementTuple V} {layer layer' j : Nat} (he : r.element t = some e)
    (he' : r.element v = some e') (hl : layer ≤ e.level) (hl' : layer' ≤ e'.level)
    (hj : j < t2LayerM layer G.m G.payloadWidth) (hne : v ≠ t ∨ layer' ≠ layer) :
    (r.update e.neighbortid (setSlot ((e.level - layer) * G.m + j) u)).layerNeighbors layer' v =
      r.layerNeighbors layer' v := by
  have hs := (keepsKind_setSlot ((e.level - layer) * G.m + j) u).sameShape r e.neighbortid
  by_cases hv : v = t
  · subst hv
    rw [he] at he'
    obtain rfl := Option.some.inj he'
    obtain ⟨n, hn, -⟩ := h.neighbors he
    have hn' : (r.update e.neighbortid (setSlot ((e.level - layer) * G.m + j) u)).neighbor
        e.neighbortid = some ⟨n.tids.set ((e.level - layer) * G.m + j) u, n.inline?⟩ := by
      rw [Relation.neighbor_some, Relation.item_update, if_pos rfl, Relation.neighbor_some.mp hn]
      rfl
    rw [Relation.layerNeighbors_eq ((hs.element v).trans he) hn', hs.geometry.m,
      hs.geometry.payloadWidth, h.layerNeighbors he hn, h.geometry.m, h.geometry.payloadWidth,
      Relation.layerSlots_set_of_ne hl hl' (hne.resolve_left fun hne => hne rfl) hj]
  · refine hs.layerNeighbors he' ?_ layer'
    rw [neighbor_update_of_ne]
    exact fun heq => hv (h.own he' he heq)

/-- **What others see.** -/
theorem Effect.frame (h : Inv oc G connected s) (heff : Effect oc G i s s') : Frame G i s s' := by
  have hsound := h.sound
  cases heff with
  | skip =>
    exact .of_same hsound (.refl _) (.refl _) id (fun _ => id) (fun _ => .inl) fun _ _ _ => rfl
  | access ha =>
    exact .of_same hsound (.refl _) (.refl _) id (fun _ => id) (fun _ => .inl) fun _ _ _ => rfl
  | read hnew =>
    refine .of_same hsound (.refl _) (.refl _) id (fun e => List.mem_cons_of_mem _) (fun e he => ?_)
      fun _ _ _ => rfl
    obtain rfl | he := List.mem_cons.mp he
    · exact .inr rfl
    · exact .inl he
  | cont ha hblocks hnext =>
    refine .of_same hsound (sameShape_append ha fun _ h => by cases h) (sameTids_append ha) ?_
      (fun _ => id) (fun _ => .inl) fun _ _ _ => rfl
    rw [show (s.withRelation _).relation.metaPage = s.relation.metaPage from ha.metaPage]
    exact id
  | @neighbor t n r level ha hblocks hcount hnext =>
    refine .of_same hsound (sameShape_append ha fun _ h => by cases h) (sameTids_append ha) ?_
      (fun e => List.mem_cons_of_mem _) (fun e he => ?_) fun {j u level' tids} hj hp layer => ?_
    · exact ha.hasEntry
    · obtain rfl | he := List.mem_cons.mp he
      · exact .inr rfl
      · exact .inl he
    · obtain ⟨n', hn', -⟩ := hp.neighbor
      have hne : u ≠ t := ha.ne_of_item (Relation.neighbor_some.mp hn')
      show Function.update s.history.written t _ u layer = _
      rw [Function.update_of_ne hne]
  | @element t e tids r offers ha hblocks hpending hslots hnew hoffers hread =>
    have hlayer : ∀ {u : Tid} {e' : ElementTuple V} (layer : Nat), s.relation.element u = some e' →
        r.layerNeighbors layer u = s.relation.layerNeighbors layer u := by
      intro u e' layer he'
      obtain ⟨n', hn', -⟩ := hsound.neighbors he'
      refine Relation.layerNeighbors_congr he' (ha.element_of_element he') ?_ ?_ ?_ layer
      · rw [hn', ha.neighbor_of_neighbor hn']
      · rw [ha.metaPage]
      · rw [ha.metaPage]
    refine ⟨fun he => ha.element_of_element he, fun hc => ⟨_, ha.item_of_item hc⟩, ?_, ?_, ha.blocks,
      fun e => List.mem_cons_of_mem _, fun e he => ?_, fun {u v e' layer} he' _ hu => ?_,
      fun {u e' layer} he' _ hne => ?_, fun {j u level tids'} hj hp => ?_⟩
    · intro u c hc
      obtain ⟨y, hy, hc⟩ := Option.bind_eq_some_iff.mp hc
      refine ⟨c, ?_, rfl⟩
      show (r.item u).bind _ = _
      rw [ha.item_of_item hy, Option.bind_some, hc]
    · exact ha.hasEntry
    · obtain rfl | he := List.mem_cons.mp he
      · exact .inr rfl
      · exact .inl he
    · exact .inl ((hlayer layer he') ▸ hu)
    · show r.layerNeighbors layer u ≠ []
      rwa [hlayer layer he']
    · obtain ⟨⟨n', hn', htids, hinline⟩, hevent, hfree, hw⟩ := hp
      refine ⟨⟨n', ha.neighbor_of_neighbor hn', htids, hinline⟩, List.mem_cons_of_mem _ hevent,
        fun {v e'} he' heq => ?_, hw⟩
      by_cases hv : v = t
      · -- the new element's neighbor tuple is its own backend's
        subst hv
        obtain rfl := Option.some.inj ((Relation.element_some.mpr ha.item_self).symm.trans he')
        rw [← heq] at hevent
        exact hj (h.neighborOwner hevent hpending.event)
      · have he'' : r.element v = some e' := he'
        rw [Relation.element_congr (ha.item_other v hv)] at he''
        exact hfree he'' heq
  | @update t e he =>
    refine .of_same hsound (sameShape_updateEntry s t e.level) (.refl _) (fun hhas => ?_)
      (fun _ => id) (fun _ => .inl) fun _ _ _ => rfl
    obtain heq | heq := metaPage_updateEntry s t e.level
    · rwa [heq]
    · rw [heq]
      have hblk := Relation.blkno_le_of_item (Relation.element_some.mp he)
      have := hsound.blocks
      simp only [MetaPage.hasEntry, bne_iff_ne, ne_eq]
      omega
  | @slot t u en eu layer j o a w hen heu howner hne hl hlevel hj hnew ha hw hchosen =>
    have hs := (keepsKind_setSlot ((en.level - layer) * G.m + j) u).sameShape s.relation en.neighbortid
    refine ⟨fun he => (hs.element _).trans he, hs.cont, hs.chunk, ?_, hs.blocks, fun _ => id, fun _ => .inl,
      fun {v w e' layer'} he' hl' hw => ?_, fun {v e' layer'} he' hl' hne' => ?_,
      fun {k v level tids} hk hp => ?_⟩
    · show s.relation.metaPage.hasEntry = true → (s.relation.update _ _).metaPage.hasEntry = true
      rw [Relation.metaPage_update]
      exact id
    · by_cases hsame : v ≠ t ∨ layer' ≠ layer
      · have hw' : w ∈ (s.relation.update en.neighbortid
          (setSlot ((en.level - layer) * G.m + j) u)).layerNeighbors layer' v := hw
        rw [layerNeighbors_setSlot_of_ne hsound hen he' hl hl' hj hsame] at hw'
        exact .inl hw'
      · push Not at hsame
        obtain ⟨rfl, rfl⟩ := hsame
        obtain ⟨slots, -, hold, hnow⟩ :=
          layerNeighbors_setSlot_self (u := u) (j := j) hsound hen hl
        have hw' : w ∈ (s.relation.update en.neighbortid
          (setSlot ((en.level - layer') * G.m + j) u)).layerNeighbors layer' v := hw
        rw [hnow] at hw'
        obtain hw' | rfl := Relation.mem_validTids_set hw'
        · exact .inl (hold ▸ hw')
        · exact .inr ⟨o, howner⟩
    · by_cases hsame : v ≠ t ∨ layer' ≠ layer
      · show (s.relation.update en.neighbortid
          (setSlot ((en.level - layer) * G.m + j) u)).layerNeighbors layer' v ≠ []
        rwa [layerNeighbors_setSlot_of_ne hsound hen he' hl hl' hj hsame]
      · push Not at hsame
        obtain ⟨rfl, rfl⟩ := hsame
        obtain ⟨slots, hlen, -, hnow⟩ :=
          layerNeighbors_setSlot_self (u := u) (j := j) hsound hen hl
        show (s.relation.update en.neighbortid
          (setSlot ((en.level - layer') * G.m + j) u)).layerNeighbors layer' v ≠ []
        rw [hnow]
        exact Relation.validTids_set_ne_nil (by omega)
          (Relation.isValid_of_item (Relation.element_some.mp heu)).1
    · obtain ⟨⟨n, hn, htids, hinline⟩, hevent, hfree, hw⟩ := hp
      have hne' : v ≠ en.neighbortid := fun heq => hfree hen heq.symm
      refine ⟨⟨n, ?_, htids, hinline⟩, hevent, fun he' => ?_, fun layer' => ?_⟩
      · show (s.relation.update en.neighbortid _).neighbor v = some n
        rw [neighbor_update_of_ne _ hne', hn]
      · exact hfree ((hs.element _).symm.trans he')
      · show Function.update s.history.written en.neighbortid _ v layer' = _
        rw [Function.update_of_ne hne', hw]
  | @entry t idx entry =>
    refine .of_same hsound ((keepsKind_setEntry idx entry).sameShape _ t)
      (sameTids_setEntry _ t idx entry) ?_ (fun _ => id) (fun _ => .inl) fun _ _ _ => rfl
    show s.relation.metaPage.hasEntry = true → (s.relation.update _ _).metaPage.hasEntry = true
    rw [Relation.metaPage_update]
    exact id

end

end PgAcorn.Build
