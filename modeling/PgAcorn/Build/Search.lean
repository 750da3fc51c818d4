import PgAcorn.Build.Discipline
import PgAcorn.Build.Slots

/-! An insert's reads, while other inserts go on.

Reads change nothing but the record of accesses, so whatever an insert knows and
the others cannot make false survives its own searches too (`Local`). Searches
stay on elements of their layer and stay inside their slot ranges; what they
answer is therefore fit for the new element's slots (`wire_ok`). The geometry of
the insert is that of the index throughout. -/
namespace PgAcorn.Build
open Library
open PgAcorn.Filter (Datum)

section
variable {I V Q D : Type} [CDouble D] {oc : Opclass V Q D} {G : MetaPage} {connected : Prop} {i : I}

/-- An assertion that neither the others nor a recorded access make false. -/
structure Local (oc : Opclass V Q D) (G : MetaPage) (connected : Prop) (i : I)
    (F : Disk I V Q → Prop) : Prop where
  stable : Stable (discipline I oc G connected) i F
  access : ∀ s a, F s → F (s.access a)

theorem local_onLayer (lc : Nat) (t : Tid) : Local oc G connected i (OnLayer lc t) :=
  ⟨stable_onLayer lc t, fun _ _ h => h⟩

theorem Local.and {F F' : Disk I V Q → Prop} (h : Local oc G connected i F)
    (h' : Local oc G connected i F') : Local oc G connected i fun s => F s ∧ F' s :=
  ⟨h.stable.and h'.stable, fun s a hs => ⟨h.access s a hs.1, h'.access s a hs.2⟩⟩

theorem Local.all {ι : Sort*} {F : ι → Disk I V Q → Prop} (h : ∀ x, Local oc G connected i (F x)) :
    Local oc G connected i fun s => ∀ x, F x s :=
  ⟨.all fun x => (h x).stable, fun s a hs x => (h x).access s a (hs x)⟩

theorem Local.imp {p : Prop} {F : Disk I V Q → Prop} (h : Local oc G connected i F) :
    Local oc G connected i fun s => p → F s :=
  ⟨.imp h.stable, fun s a hs hp => h.access s a (hs hp)⟩

theorem Local.const (p : Prop) : Local oc G connected i fun _ => p :=
  ⟨.const p, fun _ _ h => h⟩

/-! ### Reads -/

/-- Reading the element page of an element. -/
theorem readElement_ok {F : Disk I V Q → Prop} (hF : Local oc G connected i F) (lc : Nat) (t : Tid) :
    Triple (discipline I oc G connected) i (fun s => OnLayer lc t s ∧ F s) (readElement t)
      fun e s => lc ≤ e.level ∧ s.relation.element t = some e ∧ F s := by
  apply Triple.lift
  · exact (stable_onLayer lc t).and hF.stable
  · exact fun e => (Stable.const _).and ((stable_element t e).and hF.stable)
  · rintro s hs ⟨⟨e, he, hl⟩, hFs⟩
    refine ⟨e, s, ?_, hs, .skip, hl, he, hFs⟩
    dsimp only
    rw [he]

/-- Computing a distance to an element. -/
theorem nodeDistance_ok {F : Disk I V Q → Prop} (hF : Local oc G connected i F) (query : V) {t : Tid} (ht : ∀ s, F s → OnLayer 0 t s) :
    Triple (discipline I oc G connected) i F (nodeDistance oc query t) fun _ => F := by
  apply Triple.lift hF.stable fun _ => hF.stable
  intro s hs hFs
  obtain ⟨e, he, -⟩ := ht s hFs
  refine ⟨(oc.dist e.vec query, e.filterVal), s, ?_, hs, .skip, hFs⟩
  simp only [he, Option.map_some]

/-- Copying a slot range inside a layer: as many slots, naming elements of the
layer, which has them as neighbors then. -/
theorem copySlots_ok {F : Disk I V Q → Prop} (off : Nat) (hF : Local oc G connected i F) {t : Tid}
    {e : ElementTuple V} {lc len : Nat} {start : Int} {whole : Bool} (hl : lc ≤ e.level)
    (hstart : start = ((e.level - lc) * G.m + off : Nat))
    (hlen : off + len ≤ t2LayerM lc G.m G.payloadWidth)
    (hwhole : whole = true → off = 0 ∧ len = t2LayerM lc G.m G.payloadWidth) :
    Triple (discipline I oc G connected) i (fun s => s.relation.element t = some e ∧ F s)
      (copySlots e.neighbortid lc start len whole)
      fun tids s => tids.length = len ∧ (∀ u, u ∈ validTids tids → OnLayer lc u s) ∧
        (validTids tids ≠ [] → Linked lc t s) ∧ s.relation.element t = some e ∧ F s := by
  apply Triple.lift
  · exact (stable_element t e).and hF.stable
  · exact fun tids => (Stable.const _).and (.and (.all fun u => .imp (stable_onLayer lc u))
      (.and (.imp (stable_linked lc t)) ((stable_element t e).and hF.stable)))
  rintro s hs ⟨he, hFs⟩
  obtain ⟨n, hn, hslots⟩ := hs.sound.neighbors he
  have hend := layer_end_le hl G.m G.payloadWidth
  have hrange : slotRange n.tids start len =
      some ((n.tids.drop ((e.level - lc) * G.m + off)).take len) := by
    rw [hstart]
    apply slotRange_eq
    rw [hslots.count]
    omega
  have hgood : Access.Good G s.relation ⟨e.neighbortid, lc, start, len, whole⟩ := by
    refine ⟨t, e, he, rfl, hl, ?_, ?_, fun hw => ?_⟩
    · rw [hstart]
      push_cast
      omega
    · rw [hstart]
      push_cast
      omega
    · obtain ⟨rfl, rfl⟩ := hwhole hw
      exact ⟨hstart, rfl⟩
  -- the range is part of the layer
  have hmem : ∀ u ∈ validTids ((n.tids.drop ((e.level - lc) * G.m + off)).take len),
      u ∈ validTids (layerSlots G.m G.payloadWidth e.level lc n.tids) := by
    intro u hu
    obtain ⟨hmem, hvalid⟩ := mem_validTids.mp hu
    exact mem_validTids.mpr ⟨mem_layerSlots_of_range hlen hmem, hvalid⟩
  refine ⟨(n.tids.drop ((e.level - lc) * G.m + off)).take len,
    s.access ⟨e.neighbortid, lc, start, len, whole⟩, ?_, (Effect.access (i := i) hgood).inv hs,
    .access hgood, length_of_slotRange hrange, fun u hu => ?_, fun hne => ⟨⟨e, he, hl⟩, ?_⟩, he,
    hF.access s _ hFs⟩
  · rw [hn, Option.bind_some, hrange]
  · exact (hslots.targets hl (hmem u hu)).2
  · show s.relation.layerNeighbors lc t ≠ []
    rw [hs.sound.layerNeighbors he hn]
    obtain ⟨u, hu⟩ := List.exists_mem_of_ne_nil _ hne
    exact List.ne_nil_of_mem (hmem u hu)

/-! ### Searching -/

/-- A node of a layer, beside what the insert knows. -/
def Node (lc : Nat) (F : Disk I V Q → Prop) (t : Tid) (s : Disk I V Q) : Prop :=
  OnLayer lc t s ∧ F s

theorem local_known {F : Disk I V Q → Prop} (hF : Local oc G connected i F) (lc : Nat)
    (X : Tid → Prop) : Local oc G connected i (Known (Node lc F) X) :=
  .all fun t => .imp ((local_onLayer lc t).and hF)

theorem stable_node {F : Disk I V Q → Prop} (hF : Local oc G connected i F) (lc : Nat) (t : Tid) :
    Stable (discipline I oc G connected) i (Node lc F t) := ((local_onLayer lc t).and hF).stable

theorem OnLayer.zero {lc : Nat} {t : Tid} {s : Disk I V Q} (h : OnLayer lc t s) : OnLayer 0 t s :=
  h.imp fun _ he => ⟨he.1, Nat.zero_le _⟩

variable {F : Disk I V Q → Prop} (hF : Local oc G connected i F) (query : V)
include hF

theorem nodeDistance_known (lc : Nat) (X : Tid → Prop) {t : Tid} (ht : X t) :
    Triple (discipline I oc G connected) i (Known (Node lc F) X) (nodeDistance oc query t)
      fun _ => Known (Node lc F) X :=
  nodeDistance_ok (local_known hF lc X) query fun _ h => (h t ht).1.zero

theorem distanceTo_ok (lc : Nat) : DistanceOk (discipline I oc G connected) i (Node lc F)
    (distanceTo oc query) := fun X _ ht =>
  .bind (nodeDistance_known hF query lc X ht) fun _ =>
    .pure (local_known hF lc X).stable fun _ _ h => h

omit query in
/-- The neighbors of an element of a layer are elements of the layer. -/
theorem neighborsAt_ok (lc : Nat) : NeighborsOk (discipline I oc G connected) i (Node lc F)
    (neighborsAt G.m G.payloadWidth lc) := by
  intro X t ht
  have hread : Triple (discipline I oc G connected) i (Known (Node lc F) X) (readElement t)
      fun e s => lc ≤ e.level ∧ s.relation.element t = some e ∧ Known (Node lc F) X s :=
    (readElement_ok (local_known hF lc X) lc t).weaken fun s _ h => ⟨(h t ht).1, h⟩
  refine .bind hread fun e => .assume fun hl => .of_inv (fun s hs => hs.sound.width) fun hwidth => ?_
  have hmax : t2LayerM lc G.m G.payloadWidth ≤ hnswMaxNeighbors := by
    unfold t2L0Width at hwidth
    unfold t2LayerM t2L0Width
    split <;> omega
  rw [readNbrTidsAtLayer, Nat.min_eq_left hmax]
  refine .bind (copySlots_ok 0 (local_known hF lc X) hl ?_ (by omega) fun _ => ⟨rfl, rfl⟩)
    fun tids => .pure (local_known hF lc _).stable fun s _ ⟨_, hmem, _, _, hknown⟩ u hu => ?_
  · rw [hnswNeighborStart_eq hl, Nat.add_zero]
  · obtain hu | hu := hu
    · exact hknown u hu
    · exact ⟨hmem u hu, (hknown t ht).2⟩

/-- **The descent** ends on an element of the target layer. -/
theorem greedyDescendBuild_ok (fuel fromLevel toLevel : Nat) (cur : Tid)
    (hle : toLevel ≤ fromLevel) :
    Triple (discipline I oc G connected) i (Node fromLevel F cur)
      (greedyDescendBuild oc fuel query G.m G.payloadWidth cur fromLevel toLevel)
      fun t => Node toLevel F t :=
  greedyDescend_ok (P := fun lc => Node lc F) (fun lc t => stable_node hF lc t)
    (fun lc => distanceTo_ok hF query lc) (fun lc => neighborsAt_ok hF lc)
    (fun lc t s h => ⟨h.1.imp fun _ he => ⟨he.1, by omega⟩, h.2⟩) fuel toLevel fromLevel cur hle

theorem constructionWalk_ok (lc : Nat) (part : Option Nat) (ef maxExpansions : Nat) :
    (constructionWalk oc query G.m G.payloadWidth lc part).Ok (discipline I oc G connected) i
      (Node lc F) ⟨ef, part.isSome, maxExpansions⟩ where
  stable t := stable_node hF lc t
  seed t := by
    have hread : Triple (discipline I oc G connected) i (Node lc F t) (nodeDistance oc query t)
        fun _ => Node lc F t :=
      nodeDistance_ok ((local_onLayer lc t).and hF) query fun _ h => h.1.zero
    refine .bind hread fun r => .pure ((Stable.const _).and (stable_node hF lc t)) fun s _ h =>
      ⟨fun hnone => ?_, h⟩
    obtain rfl : part = none := by simpa using hnone
    rfl
  admits X t _ := .pure (local_known hF lc X).stable fun _ _ h => h
  probe X t ht := .bind (nodeDistance_known hF query lc X ht) fun _ =>
    .pure (local_known hF lc X).stable fun _ _ h => h
  expand X t ht := by
    refine .bind (neighborsAt_ok hF lc X t ht) fun us =>
      .pure (local_known hF lc _).stable fun s _ h u hu => h u ?_
    obtain hu | ⟨_, ⟨⟩, hu⟩ := hu
    · exact .inl hu
    · exact .inr hu

/-- **The beam search** of a layer answers distinct elements of the layer, and at
least one if it is not restricted to a partition. -/
theorem searchLayerConstruction_ok (H : PairingHeap) (fuel lc ef maxExpansions : Nat)
    (part : Option Nat) (ep : Tid) :
    Triple (discipline I oc G connected) i (Node lc F ep)
      (searchLayerConstruction H oc fuel ep query G.m G.payloadWidth lc ef part maxExpansions)
      fun cands s => ((cands.map Prod.fst).Nodup ∧ (part = none → cands ≠ [])) ∧
        (∀ c ∈ cands, OnLayer lc c.1 s) ∧ Node lc F ep s :=
  (beamSearch_ok (constructionWalk_ok hF query lc part ef maxExpansions) fuel ep).consequence
    fun _ _ h => ⟨⟨h.1.1, fun hnone => h.1.2 (by rw [hnone]; rfl)⟩,
      fun c hc => (h.2.2 c hc).1, h.2.1⟩

/-! ### Choosing -/

/-- The diversity heuristic, with the candidates' vectors read first. -/
theorem selectDiverseTids_ok (cands : List (Tid × D)) (mMax : Nat)
    (hcands : ∀ s, F s → ∀ c ∈ cands, OnLayer 0 c.1 s) :
    Triple (discipline I oc G connected) i F (selectDiverseTids oc cands mMax)
      fun sel s => (sel.Subperm cands ∧ sel.length = min mMax cands.length) ∧ F s := by
  have hdone : ∀ sel : List (Tid × D), Stable (discipline I oc G connected) i fun s =>
      (sel.Subperm cands ∧ sel.length = min mMax cands.length) ∧ F s :=
    fun _ => (Stable.const _).and hF.stable
  unfold selectDiverseTids
  split
  · refine .pure (hdone _) fun s _ h => ⟨⟨List.Subperm.refl _, ?_⟩, h⟩
    omega
  · have hread : ∀ c ∈ cands, Triple (discipline I oc G connected) i F (readElement c.1)
        fun _ s => True ∧ F s := fun c hc =>
      ((readElement_ok hF 0 c.1).weaken fun s _ h => ⟨hcands s h c hc, h⟩).consequence
        fun _ _ h => ⟨trivial, h.2.2⟩
    refine .bind (Triple.mapM (R := fun _ _ => True) hF.stable hread) fun es =>
      .assume fun hes => .pure (hdone _) fun s _ h => ⟨⟨?_, ?_⟩, h⟩
    · have hzip : (cands.zip (es.map ElementTuple.vec)).map Prod.fst = cands := by
        rw [List.map_fst_zip]
        rw [List.length_map, hes.length_eq]
      have hsub : (diverse (fun a b => oc.dist a.2 b.2) (fun a => a.1.2) mMax
          (cands.zip (es.map ElementTuple.vec))).Subperm _ := diverse_subperm _
      rw [← hzip]
      convert subperm_map hsub Prod.fst
    · rw [List.length_map, length_diverse, List.length_zip, List.length_map, ← hes.length_eq,
        Nat.min_self]

/-- The chosen ones are among the candidates, and as many as can be. -/
theorem chooseCands_ok (diversify : Bool) (cands : List (Tid × D)) (mMax : Nat)
    (hcands : ∀ s, F s → ∀ c ∈ cands, OnLayer 0 c.1 s) :
    Triple (discipline I oc G connected) i F (chooseCands oc diversify cands mMax)
      fun sel s => (sel.Subperm (cands.map Prod.fst) ∧ sel.length = min mMax cands.length) ∧ F s := by
  have hdone : ∀ sel : List (Tid × D), sel.Subperm cands → sel.length = min mMax cands.length →
      Triple (discipline I oc G connected) i F (.pure (sel.map Prod.fst)) fun sel s =>
        (sel.Subperm (cands.map Prod.fst) ∧ sel.length = min mMax cands.length) ∧ F s :=
    fun sel hsub hlen => .pure ((Stable.const _).and hF.stable) fun s _ h =>
      ⟨⟨subperm_map hsub _, by rw [List.length_map, hlen]⟩, h⟩
  unfold chooseCands
  cases diversify with
  | false =>
    exact hdone _ (List.take_sublist _ _).subperm (by rw [List.length_take])
  | true =>
    exact .bind (selectDiverseTids_ok hF cands mMax hcands) fun sel => .assume fun hsel =>
      hdone sel hsel.1 hsel.2

end

end PgAcorn.Build
