import PgAcorn.Build.Disk

/-! What is true of the relation at every instant, and why each kind of page write
keeps it.

`Sound` speaks of the relation alone. The geometry is fixed (`G`, the meta page of
the build); elements own complete neighbor tuples, one each; slots name other
elements of their layer, none twice; the entry point is an element of the recorded
level; inline chains lead to continuation tuples. Four kinds of writes leave every
element as it is (`Sound.of_shape`), the fifth adds one (`Sound.append_element`). -/
namespace PgAcorn.Build

section
variable {V Q : Type}

/-- Two meta pages of one geometry. -/
structure SameGeometry (p G : MetaPage) : Prop where
  m : p.m = G.m
  payloadM : p.payloadM = G.payloadM
  dimensions : p.dimensions = G.dimensions
  inlineVectors : p.inlineVectors = G.inlineVectors

theorem SameGeometry.payloadWidth {p G : MetaPage} (h : SameGeometry p G) :
    p.payloadWidth = G.payloadWidth := by
  rw [MetaPage.payloadWidth, MetaPage.payloadWidth, h.m, h.payloadM]

theorem SameGeometry.refl (p : MetaPage) : SameGeometry p p := ⟨rfl, rfl, rfl, rfl⟩

theorem SameGeometry.trans {p p' G : MetaPage} (h : SameGeometry p p') (h' : SameGeometry p' G) :
    SameGeometry p G :=
  ⟨h.m.trans h'.m, h.payloadM.trans h'.payloadM, h.dimensions.trans h'.dimensions,
    h.inlineVectors.trans h'.inlineVectors⟩

/-- The slots of a neighbor tuple are in order for an element of a level, among
the elements of `r` other than their `owner`. -/
structure SlotsOk (G : MetaPage) (r : Relation V Q) (owner : Tid) (level : Nat) (tids : List Tid) :
    Prop where
  count : tids.length = t2TotalSlots level G.m G.payloadWidth
  targets : ∀ {layer : Nat} {u : Tid}, layer ≤ level →
    u ∈ validTids (layerSlots G.m G.payloadWidth level layer tids) →
    u ≠ owner ∧ ∃ e, r.element u = some e ∧ layer ≤ e.level
  nodup : ∀ {layer : Nat}, layer ≤ level →
    (validTids (layerSlots G.m G.payloadWidth level layer tids)).Nodup

structure Sound (G : MetaPage) (r : Relation V Q) : Prop where
  geometry : SameGeometry r.metaPage G
  m_pos : 0 < G.m
  width : t2L0Width G.m G.payloadWidth ≤ hnswMaxNeighbors
  blocks : r.pages.length < invalidBlockNumber
  /-- Every element owns a neighbor tuple whose slots are in order. -/
  neighbors : ∀ {t : Tid} {e : ElementTuple V}, r.element t = some e →
    ∃ n, r.neighbor e.neighbortid = some n ∧ SlotsOk G r t e.level n.tids
  own : ∀ {t u : Tid} {e e' : ElementTuple V}, r.element t = some e → r.element u = some e' →
    e.neighbortid = e'.neighbortid → t = u
  entry : r.metaPage.hasEntry = true →
    ∃ e, r.element r.metaPage.entry = some e ∧ r.metaPage.entryLevel = e.level
  inline : G.inlineVectors = true → ∀ {t : Tid} {e : ElementTuple V} {n : NeighborTuple Q},
    r.element t = some e → r.neighbor e.neighbortid = some n → n.inline?.isSome = true
  chunks : ∀ {t : Tid} {x : IndexTuple V Q} {c : InlineChunk Q}, r.item t = some x →
    x.chunk? = some c → c.next.isValid = true → ∃ c', r.item c.next = some (.cont c')

variable {G : MetaPage} {r r' : Relation V Q}

/-- A layer's neighbors, read in the fixed geometry. -/
theorem Sound.layerNeighbors (h : Sound G r) {t : Tid} {e : ElementTuple V} {n : NeighborTuple Q}
    (he : r.element t = some e) (hn : r.neighbor e.neighbortid = some n) (layer : Nat) :
    r.layerNeighbors layer t =
      validTids (layerSlots G.m G.payloadWidth e.level layer n.tids) := by
  rw [Relation.layerNeighbors_eq he hn, h.geometry.m, h.geometry.payloadWidth]

theorem Sound.targets (h : Sound G r) {t u : Tid} {e : ElementTuple V} {layer : Nat}
    (he : r.element t = some e) (hl : layer ≤ e.level) (hu : u ∈ r.layerNeighbors layer t) :
    u ≠ t ∧ ∃ e', r.element u = some e' ∧ layer ≤ e'.level := by
  obtain ⟨n, hn, hslots⟩ := h.neighbors he
  rw [h.layerNeighbors he hn] at hu
  exact hslots.targets hl hu

/-- A sound relation is a well-formed index. -/
theorem Sound.wellFormed (h : Sound G r) : r.WellFormed where
  m_pos := by
    rw [h.geometry.m]
    exact h.m_pos
  width := by
    rw [h.geometry.m, h.geometry.payloadWidth]
    exact h.width
  neighbors he := by
    obtain ⟨n, hn, hslots⟩ := h.neighbors he
    refine ⟨n, hn, ?_⟩
    rw [h.geometry.m, h.geometry.payloadWidth]
    exact hslots.count
  targets he hl hu := (h.targets he hl hu).2
  entry := h.entry

/-! ### Writes that leave the elements as they are -/

/-- The second relation has the first one's elements, and its neighbor tuples and
chunks with as many slots. -/
structure SameShape (r r' : Relation V Q) : Prop where
  geometry : SameGeometry r'.metaPage r.metaPage
  element : ∀ t, r'.element t = r.element t
  neighbor : ∀ {t : Tid} {n : NeighborTuple Q}, r.neighbor t = some n →
    ∃ n', r'.neighbor t = some n' ∧ n'.tids.length = n.tids.length ∧
      n'.inline?.isSome = n.inline?.isSome
  cont : ∀ {t : Tid} {c : InlineChunk Q}, r.item t = some (.cont c) →
    ∃ c', r'.item t = some (.cont c')
  chunk : ∀ {t : Tid} {c : InlineChunk Q}, (r.item t).bind IndexTuple.chunk? = some c →
    ∃ c', (r'.item t).bind IndexTuple.chunk? = some c' ∧ c'.entries.length = c.entries.length
  blocks : r.pages.length ≤ r'.pages.length

theorem Sound.of_shape (h : Sound G r) (hs : SameShape r r')
    (hblocks : r'.pages.length < invalidBlockNumber)
    (htids : ∀ {t : Tid} {e : ElementTuple V} {n n' : NeighborTuple Q}, r.element t = some e →
      r.neighbor e.neighbortid = some n → r'.neighbor e.neighbortid = some n' →
      SlotsOk G r t e.level n.tids → SlotsOk G r t e.level n'.tids)
    (hentry : r'.metaPage.hasEntry = true →
      ∃ e, r.element r'.metaPage.entry = some e ∧ r'.metaPage.entryLevel = e.level)
    (hchunks : ∀ {t : Tid} {x : IndexTuple V Q} {c : InlineChunk Q}, r'.item t = some x →
      x.chunk? = some c → c.next.isValid = true → ∃ c', r.item c.next = some (.cont c')) :
    Sound G r' where
  geometry := hs.geometry.trans h.geometry
  m_pos := h.m_pos
  width := h.width
  blocks := hblocks
  neighbors {t e} he := by
    rw [hs.element] at he
    obtain ⟨n, hn, hslots⟩ := h.neighbors he
    obtain ⟨n', hn', -, -⟩ := hs.neighbor hn
    obtain ⟨hcount, htargets, hnodup⟩ := htids he hn hn' hslots
    refine ⟨n', hn', hcount, fun hl hu => ?_, hnodup⟩
    rw [hs.element]
    exact htargets hl hu
  own he he' heq := by
    rw [hs.element] at he he'
    exact h.own he he' heq
  entry hhas := by
    obtain ⟨e, he, hlevel⟩ := hentry hhas
    exact ⟨e, (hs.element _).trans he, hlevel⟩
  inline hinline {t e n'} he hn' := by
    rw [hs.element] at he
    obtain ⟨n, hn, -⟩ := h.neighbors he
    obtain ⟨n₁, hn₁, -, hsome⟩ := hs.neighbor hn
    rw [hn'] at hn₁
    rw [Option.some.inj hn₁, hsome]
    exact h.inline hinline he hn
  chunks hx hc hnext := by
    obtain ⟨c', hc'⟩ := hchunks hx hc hnext
    exact hs.cont hc'

/-- Layers of unchanged slots have the same neighbors. -/
theorem SameShape.layerNeighbors (hs : SameShape r r') {t : Tid} {e : ElementTuple V}
    (he : r.element t = some e)
    (htids : (r'.neighbor e.neighbortid).map NeighborTuple.tids =
      (r.neighbor e.neighbortid).map NeighborTuple.tids) (layer : Nat) :
    r'.layerNeighbors layer t = r.layerNeighbors layer t :=
  Relation.layerNeighbors_congr he ((hs.element t).trans he) htids hs.geometry.m
    hs.geometry.payloadWidth layer

/-! #### A tuple that is no element -/

theorem sameShape_append {x : IndexTuple V Q} {t : Tid}
    (h : Relation.Appended r r' x t) (hx : ∀ e, x ≠ .element e) : SameShape r r' where
  geometry := by
    rw [h.metaPage]
    exact .refl _
  element u := by
    by_cases hu : u = t
    · subst hu
      rw [Relation.element, Relation.element, h.item_self, h.fresh]
      cases x with
      | element e => exact absurd rfl (hx e)
      | neighbor n => rfl
      | cont c => rfl
    · exact Relation.element_congr (h.item_other u hu)
  neighbor {u n} hn := by
    have hitem := Relation.neighbor_some.mp hn
    exact ⟨n, Relation.neighbor_some.mpr (h.item_of_item hitem), rfl, rfl⟩
  cont {u c} hc := ⟨c, h.item_of_item hc⟩
  chunk {u c} hc := by
    obtain ⟨y, hy, hc⟩ := Option.bind_eq_some_iff.mp hc
    exact ⟨c, by rw [h.item_of_item hy, Option.bind_some, hc], rfl⟩
  blocks := h.blocks

/-- A neighbor or continuation tuple is added. -/
theorem Sound.append_other (h : Sound G r) {x : IndexTuple V Q} {t : Tid}
    (ha : Relation.Appended r r' x t) (hblocks : r'.pages.length < invalidBlockNumber)
    (hx : ∀ e, x ≠ .element e)
    (hchunk : ∀ c, x.chunk? = some c → c.next.isValid = true →
      ∃ c', r.item c.next = some (.cont c')) : Sound G r' := by
  apply h.of_shape (sameShape_append ha hx) hblocks
  · intro u e n n' he hn hn' hslots
    rw [ha.neighbor_of_neighbor hn] at hn'
    rwa [← Option.some.inj hn']
  · rw [ha.metaPage]
    exact h.entry
  · intro u y c hy hc hnext
    by_cases hu : u = t
    · subst hu
      rw [ha.item_self] at hy
      obtain rfl := Option.some.inj hy
      exact hchunk c hc hnext
    · rw [ha.item_other u hu] at hy
      exact h.chunks hy hc hnext

/-! #### An update in place -/

/-- A rewritten tuple that keeps its kind. -/
structure KeepsKind (f : IndexTuple V Q → IndexTuple V Q) : Prop where
  element : ∀ e, f (.element e) = .element e
  neighbor : ∀ n, ∃ n', f (.neighbor n) = .neighbor n' ∧ n'.tids.length = n.tids.length ∧
    n'.inline?.isSome = n.inline?.isSome
  cont : ∀ c, ∃ c', f (.cont c) = .cont c'
  next : ∀ x c, (f x).chunk? = some c → ∃ c', x.chunk? = some c' ∧ c'.next = c.next
  entries : ∀ x c, x.chunk? = some c → ∃ c', (f x).chunk? = some c' ∧
    c'.entries.length = c.entries.length

theorem keepsKind_setSlot (k : Nat) (e : Tid) : KeepsKind (setSlot (V := V) (Q := Q) k e) where
  element _ := rfl
  neighbor n := ⟨_, rfl, List.length_set .., rfl⟩
  cont c := ⟨c, rfl⟩
  next x c h := by
    cases x with
    | element e => cases h
    | neighbor n => exact ⟨c, h, rfl⟩
    | cont c' => exact ⟨c, h, rfl⟩
  entries x c h := by
    cases x with
    | element e => cases h
    | neighbor n => exact ⟨c, h, rfl⟩
    | cont c' => exact ⟨c, h, rfl⟩

theorem keepsKind_setEntry (idx : Nat) (entry : InlineEntry Q) :
    KeepsKind (setEntry (V := V) idx entry) where
  element _ := rfl
  neighbor n := ⟨_, rfl, rfl, Option.isSome_map⟩
  cont c := ⟨_, rfl⟩
  next x c h := by
    cases x with
    | element e => cases h
    | neighbor n =>
      obtain ⟨c', hc', rfl⟩ := Option.map_eq_some_iff.mp h
      exact ⟨c', hc', rfl⟩
    | cont c' =>
      obtain rfl := Option.some.inj h
      exact ⟨c', rfl, rfl⟩
  entries x c h := by
    cases x with
    | element e => cases h
    | neighbor n => exact ⟨_, congrArg (Option.map _) h, List.length_set ..⟩
    | cont c' =>
      obtain rfl := Option.some.inj h
      exact ⟨_, rfl, List.length_set ..⟩

theorem length_pages_update (r : Relation V Q) (t : Tid) (f : IndexTuple V Q → IndexTuple V Q) :
    (r.update t f).pages.length = r.pages.length := by
  unfold Relation.update
  split
  · rfl
  · exact List.length_modify ..

theorem KeepsKind.sameShape {f : IndexTuple V Q → IndexTuple V Q} (hf : KeepsKind f)
    (r : Relation V Q) (t : Tid) : SameShape r (r.update t f) where
  geometry := by
    rw [Relation.metaPage_update]
    exact .refl _
  element u := by
    unfold Relation.element
    rw [Relation.item_update]
    by_cases hu : u = t
    · subst hu
      rw [if_pos rfl]
      cases hx : r.item u with
      | none => rfl
      | some x =>
        cases x with
        | element e => rw [Option.map_some, hf.element]
        | neighbor n =>
          obtain ⟨n', hn', -⟩ := hf.neighbor n
          rw [Option.map_some, hn']
        | cont c =>
          obtain ⟨c', hc'⟩ := hf.cont c
          rw [Option.map_some, hc']
    · rw [if_neg hu]
  neighbor {u n} hn := by
    have hitem := Relation.neighbor_some.mp hn
    by_cases hu : u = t
    · subst hu
      obtain ⟨n', hn', hlen, hsome⟩ := hf.neighbor n
      refine ⟨n', Relation.neighbor_some.mpr ?_, hlen, hsome⟩
      rw [Relation.item_update, if_pos rfl, hitem, Option.map_some, hn']
    · refine ⟨n, Relation.neighbor_some.mpr ?_, rfl, rfl⟩
      rw [Relation.item_update, if_neg hu, hitem]
  cont {u c} hc := by
    by_cases hu : u = t
    · subst hu
      obtain ⟨c', hc'⟩ := hf.cont c
      refine ⟨c', ?_⟩
      rw [Relation.item_update, if_pos rfl, hc, Option.map_some, hc']
    · refine ⟨c, ?_⟩
      rw [Relation.item_update, if_neg hu, hc]
  chunk {u c} hc := by
    by_cases hu : u = t
    · subst hu
      obtain ⟨x, hx, hc⟩ := Option.bind_eq_some_iff.mp hc
      obtain ⟨c', hc', hlen⟩ := hf.entries x c hc
      refine ⟨c', ?_, hlen⟩
      rw [Relation.item_update, if_pos rfl, hx, Option.map_some, Option.bind_some, hc']
    · refine ⟨c, ?_, rfl⟩
      rw [Relation.item_update, if_neg hu, hc]
  blocks := (length_pages_update r t f).ge

/-- Other tuples are not touched. -/
theorem neighbor_update_of_ne (r : Relation V Q) {t u : Tid} (h : u ≠ t)
    (f : IndexTuple V Q → IndexTuple V Q) : (r.update t f).neighbor u = r.neighbor u :=
  Relation.neighbor_congr (by rw [Relation.item_update, if_neg h])

/-- A tuple is rewritten in place. -/
theorem Sound.update (h : Sound G r) {f : IndexTuple V Q → IndexTuple V Q} (hf : KeepsKind f)
    (t : Tid)
    (htids : ∀ {u : Tid} {e : ElementTuple V} {n n' : NeighborTuple Q}, r.element u = some e →
      e.neighbortid = t → r.neighbor t = some n → f (.neighbor n) = .neighbor n' →
      SlotsOk G r u e.level n.tids → SlotsOk G r u e.level n'.tids) :
    Sound G (r.update t f) := by
  apply h.of_shape (hf.sameShape r t)
  · rw [length_pages_update]
    exact h.blocks
  · intro u e n n' he hn hn' hslots
    by_cases ht : e.neighbortid = t
    · subst ht
      have hitem := Relation.neighbor_some.mp hn
      have hitem' := Relation.neighbor_some.mp hn'
      rw [Relation.item_update, if_pos rfl, hitem, Option.map_some] at hitem'
      exact htids he rfl hn (Option.some.inj hitem') hslots
    · rw [neighbor_update_of_ne r ht, hn] at hn'
      rwa [← Option.some.inj hn']
  · rw [Relation.metaPage_update]
    exact h.entry
  · intro u x c hx hc hnext
    rw [Relation.item_update] at hx
    split at hx
    · obtain ⟨y, hy, rfl⟩ := Option.map_eq_some_iff.mp hx
      obtain ⟨c', hc', heq⟩ := hf.next y c hc
      rw [← heq] at hnext ⊢
      exact h.chunks hy hc' hnext
    · exact h.chunks hx hc hnext

/-- An inline entry is rewritten. -/
theorem Sound.setEntry (h : Sound G r) (t : Tid) (idx : Nat) (entry : InlineEntry Q) :
    Sound G (r.update t (setEntry idx entry)) :=
  h.update (keepsKind_setEntry idx entry) t fun _ _ _ hf hslots =>
    (IndexTuple.neighbor.inj hf) ▸ hslots

/-- The slots of an element after one slot of a layer went to a new target. -/
theorem SlotsOk.set {owner : Tid} {level layer j : Nat} {tids : List Tid} {u : Tid}
    {e : ElementTuple V} (h : SlotsOk G r owner level tids) (hl : layer ≤ level)
    (hj : j < t2LayerM layer G.m G.payloadWidth) (hne : u ≠ owner) (he : r.element u = some e)
    (hlevel : layer ≤ e.level)
    (hnew : u ∉ validTids (layerSlots G.m G.payloadWidth level layer tids)) :
    SlotsOk G r owner level (tids.set ((level - layer) * G.m + j) u) where
  count := by
    rw [List.length_set]
    exact h.count
  targets {layer' v} hl' hv := by
    by_cases heq : layer' = layer
    · subst heq
      rw [Relation.layerSlots_set] at hv
      obtain hv | rfl := Relation.mem_validTids_set hv
      · exact h.targets hl' hv
      · exact ⟨hne, e, he, hlevel⟩
    · rw [Relation.layerSlots_set_of_ne hl hl' heq hj] at hv
      exact h.targets hl' hv
  nodup {layer'} hl' := by
    by_cases heq : layer' = layer
    · subst heq
      rw [Relation.layerSlots_set]
      exact Relation.nodup_validTids_set (h.nodup hl') hnew j
    · rw [Relation.layerSlots_set_of_ne hl hl' heq hj]
      exact h.nodup hl'

/-- A slot goes to an element that its layer does not name yet. -/
theorem Sound.setSlot (h : Sound G r) {t u : Tid} {en eu : ElementTuple V} {layer j : Nat}
    (hen : r.element t = some en) (heu : r.element u = some eu) (hne : u ≠ t)
    (hl : layer ≤ en.level) (hlevel : layer ≤ eu.level)
    (hj : j < t2LayerM layer G.m G.payloadWidth) (hnew : u ∉ r.layerNeighbors layer t) :
    Sound G (r.update en.neighbortid (setSlot ((en.level - layer) * G.m + j) u)) := by
  apply h.update (keepsKind_setSlot _ u)
  intro v e n n' he heq hn hf hslots
  obtain rfl := h.own hen he heq.symm
  rw [hen] at he
  obtain rfl := Option.some.inj he
  rw [h.layerNeighbors hen hn] at hnew
  obtain rfl := IndexTuple.neighbor.inj hf
  exact hslots.set hl hj hne heu hlevel hnew

/-! #### The entry point -/

/-- The entry point becomes another element. -/
theorem Sound.setEntryPoint (h : Sound G r) {t : Tid} {e : ElementTuple V}
    (he : r.element t = some e) :
    Sound G { r with metaPage := { r.metaPage with
      entryBlkno := t.blkno, entryOffno := t.offno, entryLevel := e.level } } := by
  apply h.of_shape
  · exact ⟨⟨rfl, rfl, rfl, rfl⟩, fun _ => rfl, fun hn => ⟨_, hn, rfl, rfl⟩, fun hc => ⟨_, hc⟩,
      fun hc => ⟨_, hc, rfl⟩, Nat.le_refl _⟩
  · exact h.blocks
  · intro u e n n' _ hn hn' hslots
    rw [show r.neighbor e.neighbortid = some n' from hn'] at hn
    rwa [Option.some.inj hn]
  · exact fun _ => ⟨e, he, rfl⟩
  · exact h.chunks

/-! ### A new element -/

/-- An element is added whose neighbor tuple is complete and nobody's. -/
theorem Sound.append_element (h : Sound G r) {e : ElementTuple V} {t : Tid} {n : NeighborTuple Q}
    (ha : Relation.Appended r r' (.element e) t) (hblocks : r'.pages.length < invalidBlockNumber)
    (hn : r.neighbor e.neighbortid = some n) (hslots : SlotsOk G r t e.level n.tids)
    (hfree : ∀ {u : Tid} {e' : ElementTuple V}, r.element u = some e' →
      e'.neighbortid ≠ e.neighbortid)
    (hinline : G.inlineVectors = true → n.inline?.isSome = true) : Sound G r' := by
  have hself : r'.element t = some e := Relation.element_some.mpr ha.item_self
  have hother : ∀ {u : Tid} {e' : ElementTuple V}, r'.element u = some e' →
      (u = t ∧ e' = e) ∨ (u ≠ t ∧ r.element u = some e') := by
    intro u e' he'
    by_cases hu : u = t
    · subst hu
      rw [hself] at he'
      exact .inl ⟨rfl, (Option.some.inj he').symm⟩
    · rw [Relation.element_congr (ha.item_other u hu)] at he'
      exact .inr ⟨hu, he'⟩
  have hlift : ∀ {owner : Tid} {level : Nat} {tids : List Tid}, SlotsOk G r owner level tids →
      SlotsOk G r' owner level tids := by
    intro owner level tids hok
    refine ⟨hok.count, fun hl hu => ?_, hok.nodup⟩
    obtain ⟨hne, e', he', hlevel⟩ := hok.targets hl hu
    exact ⟨hne, e', ha.element_of_element he', hlevel⟩
  refine ⟨by rw [ha.metaPage]; exact h.geometry, h.m_pos, h.width, hblocks, ?_, ?_, ?_, ?_, ?_⟩
  · intro u e' he'
    obtain ⟨rfl, rfl⟩ | ⟨-, he'⟩ := hother he'
    · exact ⟨n, ha.neighbor_of_neighbor hn, hlift hslots⟩
    · obtain ⟨n', hn', hok⟩ := h.neighbors he'
      exact ⟨n', ha.neighbor_of_neighbor hn', hlift hok⟩
  · intro u v e₁ e₂ h₁ h₂ heq
    obtain ⟨rfl, rfl⟩ | ⟨-, h₁⟩ := hother h₁
    · obtain ⟨rfl, -⟩ | ⟨-, h₂⟩ := hother h₂
      · rfl
      · exact absurd heq.symm (hfree h₂)
    · obtain ⟨rfl, rfl⟩ | ⟨-, h₂⟩ := hother h₂
      · exact absurd heq (hfree h₁)
      · exact h.own h₁ h₂ heq
  · rw [ha.metaPage]
    intro hhas
    obtain ⟨e', he', hlevel⟩ := h.entry hhas
    exact ⟨e', ha.element_of_element he', hlevel⟩
  · intro hflag u e' n' he' hn'
    obtain ⟨rfl, rfl⟩ | ⟨-, he'⟩ := hother he'
    · rw [ha.neighbor_of_neighbor hn] at hn'
      rw [← Option.some.inj hn']
      exact hinline hflag
    · obtain ⟨n₁, hn₁, -⟩ := h.neighbors he'
      rw [ha.neighbor_of_neighbor hn₁] at hn'
      rw [← Option.some.inj hn']
      exact h.inline hflag he' hn₁
  · intro u x c hx hc hnext
    by_cases hu : u = t
    · subst hu
      rw [ha.item_self] at hx
      obtain rfl := Option.some.inj hx
      cases hc
    · rw [ha.item_other u hu] at hx
      obtain ⟨c', hc'⟩ := h.chunks hx hc hnext
      exact ⟨c', ha.item_of_item hc'⟩

end

end PgAcorn.Build
