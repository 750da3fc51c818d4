import PgAcorn.Build.Offer

/-! Whole inserts, and any number of them at once.

`insert_ok` follows an insert from its read of the meta page to its last reverse
edge. Everything that the discipline promises then holds in every interleaving of
any number of inserts, wherever it is cut off. -/
namespace PgAcorn.Build
open Library
open PgAcorn.Filter (Datum)

section
variable {I V Q D : Type} [CDouble D] {oc : Opclass V Q D} {G : MetaPage} {connected : Prop} {i : I}

/-! ### The new element -/

variable {ins : Inserting V} {p : MetaPage} {w : Wiring} {elem : ElementTuple V}

/-- Where the reverse edges start. -/
def topDebts (ins : Inserting V) (p : MetaPage) (w : Wiring) : List (Tid × Nat) :=
  if p.hasEntry then debts ins w (min p.entryLevel.toNat ins.level) else []

/-- Every debt is a forward slot. -/
theorem mem_topDebts (hm : ins.mEff = G.m) (hp : ins.payloadM = G.payloadWidth) {x : Tid × Nat}
    (h : x ∈ topDebts ins p w) : x.2 ≤ min p.entryLevel.toNat ins.level ∧
      x.1 ∈ validTids (layerSlots G.m G.payloadWidth ins.level x.2 w.ntids) := by
  unfold topDebts at h
  split at h
  · obtain ⟨layer, hle, hx⟩ := mem_debts.mp h
    obtain rfl := snd_of_mem_layerDebts hx
    exact ⟨hle, (layerDebts_sublist hm hp (hle.trans (Nat.min_le_right _ _))).subset
      (List.mem_map.mpr ⟨x, hx, rfl⟩)⟩
  · cases h

/-- **The element is appended**, and what it owes are its forward slots. -/
theorem appendElement_ok (elem : ElementTuple V) (hm : ins.mEff = G.m) (hp : ins.payloadM = G.payloadWidth)
    (hoffers : p.hasEntry = true ↔ globalOffers ins w.ntids 0 ≠ []) (hlevel : elem.level = ins.level)
    (size : Nat) :
    Triple (discipline I oc G connected) i
      (fun s => Pending G i elem.neighbortid ins.level w.ntids s ∧
        Ready i G p ins.level w.ntids s)
      (appendTuple (.element elem) size fun t s =>
        s.event (.element i t ((globalOffers ins w.ntids 0).map Offer.target)))
      fun e s => ((∀ x ∈ topDebts ins p w, x.1 ≠ e) ∧ (topDebts ins p w).Nodup) ∧
        Owing i e elem ((globalOffers ins w.ntids 0).map Offer.target) (topDebts ins p w) s := by
  apply appendTuple_ok
  · exact (stable_pending _ _ _).and (local_ready _ _).stable
  · exact fun e => (Stable.const _).and stable_owing
  · exact fun s h => h.2.2.unborn.paid
  rintro s t r hs ⟨hpending, hwired, hbegun⟩ ha hblocks
  have hfresh : ∀ {layer : Nat} {u : Tid}, OnLayer layer u s → u ≠ t := by
    rintro layer u ⟨eu, heu, -⟩
    exact ha.ne_of_item (Relation.element_some.mp heu)
  have hslots : SlotsOk G s.relation t elem.level w.ntids := by
    rw [hlevel]
    exact ⟨hwired.1.1, fun hl hu => ⟨hfresh (hwired.2 _ _ hl hu), hwired.2 _ _ hl hu⟩,
      fun hl => hwired.1.2 _ hl⟩
  have hzero : ∀ u ∈ (globalOffers ins w.ntids 0).map Offer.target,
      u ∈ validTids (layerSlots G.m G.payloadWidth ins.level 0 w.ntids) := by
    intro u hu
    refine (layerDebts_sublist hm hp (Nat.zero_le _)).subset ?_
    rw [layerDebts, List.map_map, List.map_append]
    exact List.mem_append_left _ hu
  have heff : Effect oc G i s ((s.withRelation r).event
      (.element i t ((globalOffers ins w.ntids 0).map Offer.target))) := by
    refine .element ha hblocks (by rw [hlevel]; exact hpending) hslots hbegun.unborn
      (fun u hu => ?_) ?_
    · obtain ⟨eu, heu, -⟩ := hwired.2 0 u (Nat.zero_le _) (hzero u hu)
      exact ⟨eu, heu⟩
    · obtain ⟨v, hread⟩ := hbegun.read
      cases hhas : p.hasEntry with
      | false =>
        rw [hhas] at hread
        exact .inl ⟨v, hread⟩
      | true =>
        have hne := hoffers.mp hhas
        refine .inr ⟨hbegun.entry hhas, fun hnil => hne (List.map_eq_nil_iff.mp hnil), ?_⟩
        obtain ⟨o, ho⟩ := List.exists_mem_of_ne_nil _ hne
        rw [hlevel]
        exact List.ne_nil_of_mem (hzero o.target (List.mem_map.mpr ⟨o, ho, rfl⟩))
  refine ⟨heff, ⟨fun x hx => ?_, ?_⟩, ?_⟩
  · obtain ⟨hle, hmem⟩ := mem_topDebts hm hp hx
    exact hfresh (hwired.2 _ _ (hle.trans (Nat.min_le_right _ _)) hmem)
  · unfold topDebts
    split
    · exact nodup_debts hm hp (Nat.min_le_right _ _) hwired.1.2
    · exact List.nodup_nil
  refine ⟨Relation.element_some.mpr ha.item_self, List.mem_cons_self, fun u o ho => ?_,
    fun x hx => ?_, fun u hu => ?_⟩
  · obtain heq | ho := List.mem_cons.mp ho
    · injection heq with _ hu ho
      exact ⟨hu, ho⟩
    · exact absurd ho (hbegun.unborn u o)
  · obtain ⟨hle, hmem⟩ := mem_topDebts hm hp hx
    obtain ⟨ex, hex, hlx⟩ := hwired.2 _ _ (hle.trans (Nat.min_le_right _ _)) hmem
    refine ⟨⟨ex, ha.element_of_element hex, hlx⟩, fun hin => ?_⟩
    -- no older element can name the new one
    obtain hin | ⟨o, ho⟩ := (heff.frame hs).slots hex hlx hin
    · obtain ⟨-, e', he', -⟩ := hs.sound.targets hex hlx hin
      rw [Relation.element_some, ha.fresh] at he'
      cases he'
    · exact hbegun.unborn _ _ ho
  · obtain ⟨o, ho, rfl⟩ := List.mem_map.mp hu
    have hhas := hoffers.mpr (List.ne_nil_of_mem ho)
    refine .inl ?_
    rw [topDebts, if_pos hhas]
    refine mem_debts.mpr ⟨0, Nat.zero_le _, List.mem_map.mpr ⟨o, ?_, rfl⟩⟩
    exact List.mem_append_left _ ho

/-! ### One insert -/

theorem maybeUpdateEntry_ok {e : Tid} {offers : List Tid} {rest : List (Tid × Nat)} :
    Triple (discipline I oc G connected) i (Owing i e elem offers rest)
      (maybeUpdateEntry e elem.level) fun _ => Owing i e elem offers rest := by
  refine .lift stable_owing (fun _ => stable_owing) fun s hs h => ⟨(), _, rfl, ?_⟩
  have heff : Effect oc G i s (s.updateEntry e elem.level) := .update h.element
  exact ⟨heff.inv hs, heff, h.of_same hs.sound (sameShape_updateEntry s e elem.level) (.refl _) rfl⟩

/-- **Steps 5 to 8.** -/
theorem publish_ok [Inhabited Q] (fuel : Nat) (row : Row V) (hm : ins.mEff = G.m)
    (hp : ins.payloadM = G.payloadWidth) (hinline : p.inlineVectors = G.inlineVectors)
    (hoffers : p.hasEntry = true ↔ globalOffers ins w.ntids 0 ≠ []) :
    Triple (discipline I oc G connected) i (Ready i G p ins.level w.ntids)
      (publish oc fuel i ins row p w) fun _ => Paid i := by
  unfold publish
  refine .bind (writeNeighborTuple_ok hm hp hinline) fun n => ?_
  refine .bind (appendElement_ok (newElement ins.level row.filterVal row.heaptid n ins.value)
    hm hp hoffers rfl _) fun e => .assume fun ⟨hne, hnodup⟩ => ?_
  refine .bind maybeUpdateEntry_ok fun _ => ?_
  cases hhas : p.hasEntry with
  | false =>
    rw [topDebts, hhas, if_neg Bool.false_ne_true]
    exact .pure stable_paid fun s _ h => h.paid_all
  | true =>
    unfold topDebts at hne hnodup
    rw [if_pos hhas] at hne hnodup
    rw [topDebts, if_pos hhas]
    refine offerLayers_ok fuel hm hp (Nat.min_le_right _ _) rfl (fun hsome => ?_) hne hnodup
    rw [← hinline]
    revert hsome
    cases p.inlineVectors <;> simp

/-- The meta page as an insert first sees it. -/
theorem readMeta_ok :
    Triple (discipline I oc G connected) i (Idle i) (readMeta i) fun p s =>
      SameGeometry p G ∧ (p.hasEntry = true → OnLayer p.entryLevel.toNat p.entry s) ∧
        Begun i p s := by
  apply Triple.lift stable_idle
  · exact fun p => (Stable.const _).and (.and (.imp (stable_onLayer _ _)) (stable_begun p))
  intro s hs hidle
  have heff : Effect oc G i s (s.event (.read i s.relation.metaPage.hasEntry s.relation.vacant)) :=
    .read fun _ _ he => hidle _ he rfl
  refine ⟨s.relation.metaPage, _, rfl, heff.inv hs, heff, hs.sound.geometry, fun hhas => ?_,
    ⟨_, List.mem_cons_self⟩, id, fun u o ho => ?_⟩
  · obtain ⟨e, he, hlevel⟩ := hs.sound.entry hhas
    refine ⟨e, he, ?_⟩
    rw [hlevel, Int.toNat_natCast]
  · exact hidle _ (List.mem_of_ne_of_mem (by simp) ho) rfl

/-- **One element**, if the stride it is inserted with is that of the index. -/
theorem insertElement_ok [Inhabited Q] (H : PairingHeap) (natts fuel : Nat) (opts : RdOptions)
    (row : Row V) (value : V) (hm : mEff opts row.defaultGamma = G.m) :
    Triple (discipline I oc G connected) i (Idle i) (insertElement H oc natts fuel i opts row value)
      fun _ => Paid i := by
  unfold insertElement
  split
  · exact .raise stable_paid fun s _ h => Unborn.paid (Idle.unborn h)
  refine .bind readMeta_ok fun p => .assume fun hG => ?_
  split
  · exact .raise stable_paid fun s _ h => h.2.unborn.paid
  refine .of_inv (fun s hs => hs.sound.m_pos) fun hpos => ?_
  have hbegun : Local oc G connected i (Begun i p) :=
    ⟨stable_begun p, fun _ _ h => ⟨h.read, h.entry, h.unborn⟩⟩
  refine .bind (wire_ok hbegun H fuel hm hG.payloadWidth hpos p) fun w => .assume fun hoffers => ?_
  exact publish_ok fuel row hm hG.payloadWidth hG.inlineVectors hoffers

/-- **One insert** whose stride is that of the index keeps the discipline and pays
what it owes. -/
theorem insert_ok [Inhabited Q] (H : PairingHeap) (natts fuel : Nat) (opts : RdOptions) (row : Row V)
    (hm : row.value ≠ none → mEff opts row.defaultGamma = G.m) :
    Triple (discipline I oc G connected) i (Idle i) (insert H oc natts fuel i opts row)
      fun _ => Paid i := by
  unfold insert
  cases hvalue : row.value with
  | none => exact .pure stable_paid fun s _ h => Unborn.paid (Idle.unborn h)
  | some value => exact insertElement_ok H natts fuel opts row value (hm (by simp [hvalue]))

end

/-! ### Where inserts start -/

section
variable {I V Q D : Type} [CDouble D] {oc : Opclass V Q D} {connected : Prop}

/-- An index that inserts can go on with; the entry-update step of the `updated`
elements has run. -/
structure Startable (r : Relation V Q) (updated : List Tid) : Prop where
  sound : Sound r.metaPage r
  below : ∀ t ∈ updated, r.metaPage.hasEntry = true ∧
    ∃ e, r.element t = some e ∧ (e.level : Int) ≤ r.metaPage.entryLevel
  entry : r.metaPage.hasEntry = true → r.metaPage.entry ∈ updated

/-- Nothing was done yet, and the slots of each layer are where its readers find
them. -/
def History.start (r : Relation V Q) (updated : List Tid) : History I where
  accesses := []
  events := []
  writes := []
  updated := updated
  written t layer := (r.neighbor t).elim [] fun n =>
    layerSlots r.metaPage.m r.metaPage.payloadWidth
      (t2LevelFromCount n.count r.metaPage.m r.metaPage.payloadWidth).toNat layer n.tids

variable {r : Relation V Q} {updated : List Tid}

/-- The invariant holds where inserts start, if no element lacks neighbors while
there are others. -/
theorem Startable.inv (h : Startable r updated)
    (hborn : connected → ∀ t e, r.element t = some e → r.layerNeighbors 0 t = [] →
      ∀ u e', r.element u = some e' → u = t) :
    Inv oc r.metaPage connected (⟨r, .start r updated⟩ : Disk I V Q) where
  sound := h.sound
  accesses _ ha := by cases ha
  writes _ hw := by cases hw
  neighborEvent he := by cases he
  neighborOwner he := by cases he
  elementEvent he := by cases he
  elementOwner he := by cases he
  written {t e n layer} he hn _ := by
    obtain ⟨n', hn', hslots⟩ := h.sound.neighbors he
    obtain rfl := Option.some.inj (hn'.symm.trans hn)
    show (r.neighbor e.neighbortid).elim [] _ = _
    rw [hn, Option.elim_some, NeighborTuple.count, hslots.count,
      t2LevelFromCount_totalSlots h.sound.m_pos, Int.toNat_natCast]
  updated := h.below
  entryUpdated := h.entry
  reader _ hread := by cases hread
  born hc _ he hnil := .inl (hborn hc _ _ he hnil)

/-- A freshly built empty index. -/
def emptyIndex (V Q : Type) (mEff payloadM dimensions : Nat) (inlineVectors : Bool) :
    Relation V Q where
  metaPage := createMetaPage mEff payloadM dimensions inlineVectors
  pages := []

theorem emptyIndex_item (mEff payloadM dimensions : Nat) (inlineVectors : Bool) (t : Tid) :
    (emptyIndex V Q mEff payloadM dimensions inlineVectors).item t = none := by
  unfold Relation.item emptyIndex
  split <;> simp

/-- What a build of an empty table leaves is an index inserts can start with. -/
theorem startable_emptyIndex {mEff payloadM : Nat} (hm : 0 < mEff) (hp : 0 < payloadM)
    (hwidth : t2L0Width mEff payloadM ≤ hnswMaxNeighbors) (dimensions : Nat) (inlineVectors : Bool) :
    Startable (emptyIndex V Q mEff payloadM dimensions inlineVectors) [] := by
  have helement : ∀ t, (emptyIndex V Q mEff payloadM dimensions inlineVectors).element t = none := by
    intro t
    rw [Relation.element, emptyIndex_item]
  have hentry : (emptyIndex V Q mEff payloadM dimensions inlineVectors).metaPage.hasEntry = false := by
    simp [emptyIndex, createMetaPage, MetaPage.hasEntry]
  refine ⟨⟨.refl _, hm, ?_, by simp [emptyIndex, invalidBlockNumber], ?_, ?_, ?_, ?_, ?_⟩, ?_, ?_⟩
  · show t2L0Width mEff (createMetaPage mEff payloadM dimensions inlineVectors).payloadWidth ≤ _
    rwa [payloadWidth_createMetaPage hp]
  · intro t e he
    rw [helement] at he
    cases he
  · intro t u e e' he
    rw [helement] at he
    cases he
  · intro hhas
    rw [hentry] at hhas
    cases hhas
  · intro _ t e n he
    rw [helement] at he
    cases he
  · intro t x c hx
    rw [emptyIndex_item] at hx
    cases hx
  · exact fun t ht => by cases ht
  · intro hhas
    rw [hentry] at hhas
    cases hhas

end

/-! ### Any number of inserts -/

section
variable {I V Q D : Type} [DecidableEq I] [CDouble D] [Inhabited Q]

/-- Inserts into one index, with the options it has. -/
abbrev Inserts (I V Q : Type) := Pool I RdOptions (Disk I V Q) Unit

/-- Before the first insert. -/
def Inserts.start (opts : RdOptions) (r : Relation V Q) (updated : List Tid) : Inserts I V Q :=
  .init opts ⟨r, .start r updated⟩

/-- The options are altered, an insert starts, or one page access of an insert is
done. -/
def step (H : PairingHeap) (oc : Opclass V Q D) (natts fuel : Nat) (p : Inserts I V Q) :
    Action I RdOptions (Row V) → Option (Inserts I V Q) :=
  p.step (insert H oc natts fuel)

/-- An insert that starts derives the stride that the meta page records. -/
def SameStride (p : Inserts I V Q) : Action I RdOptions (Row V) → Prop
  | .start _ row => row.value.isSome = true →
      mEff p.settings row.defaultGamma = p.shared.relation.metaPage.m
  | _ => True

variable {H : PairingHeap} {oc : Opclass V Q D} {natts fuel : Nat} {r : Relation V Q}
  {updated : List Tid} {opts : RdOptions} {connected : Prop}
  {ok : Inserts I V Q → Action I RdOptions (Row V) → Prop} {p : Inserts I V Q}

/-- **Every interleaving** of inserts with the index's stride keeps the discipline. -/
theorem orderly_of_runs (oc : Opclass V Q D) (h : Startable r updated)
    (hborn : connected → ∀ t e, r.element t = some e → r.layerNeighbors 0 t = [] →
      ∀ u e', r.element u = some e' → u = t)
    (hok : ∀ p a, ok p a → SameStride p a)
    (hrun : Runs (step H oc natts fuel) ok (.start opts r updated) p) :
    Orderly (discipline I oc r.metaPage connected) (fun i _ => Paid i) p := by
  have hstart : Orderly (discipline I oc r.metaPage connected) (fun i (_ : Unit) => Paid i)
      (Inserts.start opts r updated : Inserts I V Q) :=
    .init (h.inv hborn) fun i e he => by cases he
  refine hstart.run (fun i => stable_idle) (fun {p i row} hinv hidle hstart => ?_) hrun
  refine insert_ok H natts fuel p.settings row (fun hvalue => ?_) p.shared hinv hidle
  rw [hok p _ hstart (Option.isSome_iff_ne_none.mpr hvalue)]
  exact hinv.sound.geometry.m

/-! ### The graph at every instant -/

/-- The graph on disk is well formed. -/
structure Intact (s : Disk I V Q) : Prop where
  /-- Slots of a layer name other elements of it. -/
  targets : ∀ t e layer u, s.relation.element t = some e → layer ≤ e.level →
    u ∈ s.relation.layerNeighbors layer t →
      u ≠ t ∧ ∃ e', s.relation.element u = some e' ∧ layer ≤ e'.level
  /-- Not twice, both halves of layer 0 together. -/
  nodup : ∀ t e layer, s.relation.element t = some e → layer ≤ e.level →
    (s.relation.layerNeighbors layer t).Nodup
  /-- Every element has a neighbor tuple with all its slots. -/
  neighbors : ∀ t e, s.relation.element t = some e → ∃ n,
    s.relation.neighbor e.neighbortid = some n ∧
      n.count = t2TotalSlots e.level s.relation.metaPage.m s.relation.metaPage.payloadWidth
  /-- And no one else has the same. -/
  own : ∀ t e u e', s.relation.element t = some e → s.relation.element u = some e' →
    e.neighbortid = e'.neighbortid → t = u
  /-- The entry point is the highest element whose entry-update step has run. -/
  entry : s.relation.metaPage.hasEntry = true →
    s.relation.metaPage.entry ∈ s.history.updated ∧
      ∃ e, s.relation.element s.relation.metaPage.entry = some e ∧
        s.relation.metaPage.entryLevel = e.level
  updated : ∀ t ∈ s.history.updated, s.relation.metaPage.hasEntry = true ∧
    ∃ e, s.relation.element t = some e ∧ (e.level : Int) ≤ s.relation.metaPage.entryLevel

omit [DecidableEq I] [Inhabited Q] in
theorem Inv.intact {G : MetaPage} {s : Disk I V Q} (h : Inv oc G connected s) : Intact s where
  targets t e layer u he hl hu := h.sound.targets he hl hu
  nodup t e layer he hl := by
    obtain ⟨n, hn, hslots⟩ := h.sound.neighbors he
    rw [h.sound.layerNeighbors he hn]
    exact hslots.nodup hl
  neighbors t e he := h.sound.wellFormed.neighbors he
  own t e u e' := h.sound.own
  entry hhas := ⟨h.entryUpdated hhas, h.sound.entry hhas⟩
  updated := h.updated

/-- **The graph on disk is well formed at every instant**, in any interleaving of
any number of inserts that have the index's geometry. -/
theorem graph_intact (h : Startable r updated)
    (hrun : Runs (step H oc natts fuel) SameStride (.start opts r updated) p) : Intact p.shared := by
  have horderly := orderly_of_runs oc h (fun hfalse : False => hfalse.elim)
    (fun _ _ hok => hok) hrun
  exact horderly.1.intact

instance (p : Inserts I V Q) : (a : Action I RdOptions (Row V)) → Decidable (SameStride p a)
  | .start _ row => inferInstanceAs (Decidable (row.value.isSome = true →
      mEff p.settings row.defaultGamma = p.shared.relation.metaPage.m))
  | .alter _ | .act _ => inferInstanceAs (Decidable True)

end

/-! ### Points on a line -/

/-- Integers with their squared distance. -/
def points : Opclass Int Int ExtInt where
  dist a b := .fin ((a - b) ^ 2)
  vsize _ := 8
  dim _ := 1
  sq8Encode _ _ := 0

/-- `WITH (m = 2, acorn_gamma = 1)`. -/
def pointOptions : RdOptions := some ⟨2, 4, 1, 0, false, false⟩

def pointIndex : Relation Int Int := emptyIndex Int Int 2 2 1 false

def pointRow (x : Int) : Row Int := ⟨some x, 0, ⟨7, 1⟩, 0, 1⟩

theorem startable_pointIndex : Startable pointIndex [] :=
  startable_emptyIndex (by decide) (by decide) (by decide) 1 false

abbrev pointStep : Inserts (Fin 3) Int Int → Action (Fin 3) RdOptions (Row Int) →
    Option (Inserts (Fin 3) Int Int) := step PairingHeap.list points 1 20

/-- `k` page accesses of a backend. -/
def acts (i : Fin 3) (k : Nat) : List (Action (Fin 3) RdOptions (Row Int)) := .replicate k (.act i)

/-- A second point that is inserted while the first one is. -/
theorem graph_intact_pair : ∃ p : Inserts (Fin 3) Int Int,
    p.shared.relation.layerNeighbors 0 ⟨1, 2⟩ = [⟨1, 4⟩] ∧ Intact p.shared := by
  have hexec : ((exec (fun p a => if SameStride p a then pointStep p a else none)
      (.start pointOptions pointIndex [])
      (.start 0 (pointRow 0) :: .start 1 (pointRow 3) :: acts 0 6 ++ acts 1 12)).map
        fun p => p.shared.relation.layerNeighbors 0 ⟨1, 2⟩) = some [⟨1, 4⟩] := by
    decide +kernel
  obtain ⟨p, hp, hslots⟩ := Option.map_eq_some_iff.mp hexec
  exact ⟨p, hslots, graph_intact startable_pointIndex (runs_of_exec hp)⟩

end PgAcorn.Build
