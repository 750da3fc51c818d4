import PgAcorn.Build.EdgesBack

/-! A node that is wired.

Its own slots are filled layer by layer, from searches of a graph that does not name it yet
(`Partway`). Every search ends and answers nodes of the layer, so that each layer the node
shares with another one gets a neighbor, and an edge back is noted for it (`NotedAt`). -/
namespace PgAcorn.Build
open Library

section
variable {V D : Type} [CDouble D] {mb : MemBuild V} {dist : V → V → D} {o : MemSettings}
  {g g' g₀ : MemGraph mb} {new : Fin mb.nNodes} {lc : Nat}

/-! ### Searches -/

/-- While a new node is wired: only its own slots have changed, they hold nodes before it, its
layers below `lo` are empty, and from `hi` on those that it shares are not. -/
structure Partway (g₀ : MemGraph mb) (new : Fin mb.nNodes) (lo hi : Nat) (g : MemGraph mb) :
    Prop where
  own : OnlyOwn new g₀ g
  linked : LinkedNode g new.val new
  empty : ∀ {lc}, lc < lo → lc ≤ (mb.nodes new).level → g.build.neighbors lc new = []
  attached : ∀ {u : Fin mb.nNodes} {lc}, u.val < new.val → hi ≤ lc → lc ≤ (mb.nodes new).level →
    lc ≤ (mb.nodes u).level → g.build.neighbors lc new ≠ []

/-- What a search finds: nodes before the new one, each once. -/
structure Candidates (new : Fin mb.nNodes) (lc : Nat) (cands : List (Fin mb.nNodes × D)) :
    Prop where
  nodes : ∀ c ∈ cands, c.1.val < new.val ∧ lc ≤ (mb.nodes c.1).level
  nodup : (cands.map Prod.fst).Nodup

variable {H : PairingHeap} {lo hi : Nat} {ep : Fin mb.nNodes}

omit [CDouble D] in
/-- The nodes before the new one have the neighbors they had. -/
theorem Partway.neighbors (h : Partway g₀ new lo hi g) {u : Fin mb.nNodes} (hu : u.val < new.val)
    (lc : Nat) : g.build.neighbors lc u = g₀.build.neighbors lc u :=
  neighbors_congr (h.own.nbr u fun hsame => by rw [hsame] at hu; exact lt_irrefl _ hu) lc

/-- **A search ends** inside any set of nodes that holds its start and is closed under the
neighbors it looks at; it answers nodes of the set, each once and at least one. -/
theorem memSearch_ends (H : PairingHeap) (hD : TotalOrder D) (hefc : 1 ≤ o.efc)
    {S : MemGraph mb → Prop} (terrain : MemGraph mb → Terrain (Fin mb.nNodes) D)
    (P : Fin mb.nNodes → Prop) (hstart : P ep) (htakes : ∀ g, (terrain g).takes ep = true)
    (hmember : ∀ g, (terrain g).member ep = true)
    (hclosed : ∀ g, S g → ∀ v, P v → ∀ u ∈ (terrain g).neighbors v,
      (terrain g).admits u = true → P u) :
    Prog.Ends S (fun fuel => memSearch fun g => (terrain g).search H ⟨o.efc, false, 0⟩ fuel ep true)
      fun cands g => S g ∧ (∀ c ∈ cands, P c.1) ∧ (cands.map Prod.fst).Nodup ∧ cands ≠ [] := by
  intro g hg
  have hfinite : {u | P u}.Finite := Set.toFinite _
  obtain ⟨r, hends, hr⟩ : ∃ r, (∀ fuel > hfinite.toFinset.card,
      (terrain g).search H ⟨o.efc, false, 0⟩ fuel ep true = some r) ∧
      Closed (terrain g) ⟨o.efc, false, 0⟩ (· ∈ hfinite.toFinset) ep true r :=
    Terrain.search_closed H hD hefc (fun v hv u hu ha => hfinite.mem_toFinset.mpr
      (hclosed g hg v (hfinite.mem_toFinset.mp hv) u hu ha))
      (hfinite.mem_toFinset.mpr hstart) (htakes g) fun _ => hmember g
  refine ⟨r.results, g, ⟨hfinite.toFinset.card + 1, fun fuel hfuel => ?_⟩, hg, fun c hc => ?_,
    hr.nodup, fun hnil => ?_⟩
  · have hread :
        (Prog.read fun g => some ((terrain g).search H ⟨o.efc, false, 0⟩ fuel ep true)).exec g =
          some (some r, g) := Prog.exec_read (congrArg some (hends fuel hfuel))
    dsimp only
    rw [memSearch, Prog.bind_eq, Prog.exec_bind, hread]
    rfl
  · exact hfinite.mem_toFinset.mp (hr.visited c.1 (hr.results c hc).1).1
  · -- the start itself is answered unless the answer is full
    obtain hmem | ⟨hfull, -⟩ := hr.kept ep hr.start (htakes g) (hmember g) fun _ => rfl
    · rw [hnil] at hmem
      cases hmem
    · rw [hnil] at hfull
      exact absurd hfull (Nat.ne_of_lt hefc)

/-- **A layer that is searched** answers nodes of it that are before the new one, and at least
one. -/
theorem memSearchLayer_ends (H : PairingHeap) (hD : TotalOrder D) (dist : V → V → D)
    (hefc : 1 ≤ o.efc) (hg₀ : Joined g₀ new.val) (hep : ep.val < new.val)
    (hl : lc ≤ (mb.nodes ep).level) :
    Prog.Ends (Partway g₀ new lo hi)
      (fun fuel => memSearch fun g =>
        g.build.memSearchLayer H dist fuel ep (mb.nodes new).vec lc o.efc)
      fun cands g => Partway g₀ new lo hi g ∧ Candidates new lc cands ∧ cands ≠ [] := by
  have h := memSearch_ends (S := Partway g₀ new lo hi) H hD hefc
    (fun g => g.build.layer dist (mb.nodes new).vec lc)
    (fun u => u.val < new.val ∧ lc ≤ (mb.nodes u).level) ⟨hep, hl⟩ (fun _ => rfl) (fun _ => rfl)
    fun g hg v hv u hu hadmits => by
      have hu : u ∈ if (mb.nodes v).level < lc then [] else g.build.neighbors lc v := hu
      rw [if_neg (by omega), hg.neighbors hv.1] at hu
      exact ⟨((hg₀.linked hv.1).targets hv.2 hu).1, of_decide_eq_true hadmits⟩
  exact h.imp fun cands g h => ⟨h.1, ⟨h.2.1, h.2.2.1⟩, h.2.2.2⟩

/-- **A partition that is searched** answers nodes before the new one. -/
theorem memPayloadCands_ends (H : PairingHeap) (hD : TotalOrder D) (dist : V → V → D)
    (hefc : 1 ≤ o.efc) (hg₀ : Joined g₀ new.val) (hentries : Entries o g₀ new.val) (part : Nat)
    {S : MemGraph mb → Prop} (hS : ∀ {g}, S g → Partway g₀ new lo hi g) :
    Prog.Ends S (fun fuel => memPayloadCands H dist fuel o new part)
      fun cands g => S g ∧ Candidates new 0 cands := by
  refine .bind (Q := fun partEp g => S g ∧ partEp = g₀.partEntry part)
    (.read fun g hg => ⟨_, rfl, hg, by rw [(hS hg).own.partEntry]⟩) fun partEp => ?_
  cases hgated : if o.gated part then none else partEp with
  | none => exact .pure fun g hg => ⟨hg.1, fun c hc => absurd hc List.not_mem_nil, List.nodup_nil⟩
  | some ep =>
    have hsome : partEp = some ep := by
      split at hgated
      · cases hgated
      · exact hgated
    subst hsome
    intro g hg
    obtain ⟨hep, hpart⟩ := hentries.part hg.2.symm
    have h := memSearch_ends (S := S) H hD hefc
      (fun g => g.build.partition dist (mb.nodes new).vec part) (fun u => u.val < new.val) hep
      (fun _ => decide_eq_true hpart) (fun _ => rfl) fun g hg v hv u hu _ => by
        have hu : u ∈ g.build.neighbors 0 v := hu
        rw [(hS hg).neighbors hv] at hu
        exact ((hg₀.linked hv).targets (Nat.zero_le _) hu).1
    exact (h.imp fun cands g h =>
      ⟨h.1, ⟨fun c hc => ⟨h.2.1 c hc, Nat.zero_le _⟩, h.2.2.1⟩⟩) g hg.1

/-! ### The node's own slots -/

/-- What is chosen is chosen once each, and as many as there can be. -/
theorem memChoose_spec (dist : V → V → D) (o : MemSettings) {cands : List (Fin mb.nNodes × D)}
    (h : (cands.map Prod.fst).Nodup) (m : Nat) :
    (memChoose dist o cands m).Nodup ∧ (memChoose dist o cands m).length = min m cands.length := by
  unfold memChoose
  split
  · refine ⟨nodup_of_subperm (subperm_map (diverse_subperm cands) Prod.fst) h, ?_⟩
    rw [memSelectDiverse, List.length_map, length_diverse]
  · refine ⟨h.sublist ((List.take_sublist m cands).map Prod.fst), ?_⟩
    rw [List.length_map, List.length_take]

/-- What a payload half is filled up with is in neither half yet. -/
theorem memBackfill_spec (globals cands : List (Fin mb.nNodes)) {pHalf : Nat}
    {payload : List (Fin mb.nNodes)} (hnodup : payload.Nodup) (hlen : payload.length ≤ pHalf)
    (hglobals : ∀ u ∈ payload, u ∉ globals) :
    (memBackfill globals pHalf cands payload).Nodup ∧
      (memBackfill globals pHalf cands payload).length ≤ pHalf ∧
      ∀ u ∈ memBackfill globals pHalf cands payload, u ∉ globals ∧ (u ∈ payload ∨ u ∈ cands) := by
  unfold memBackfill
  induction cands generalizing payload with
  | nil => exact ⟨hnodup, hlen, fun u hu => ⟨hglobals u hu, .inl hu⟩⟩
  | cons c cands ih =>
    rw [List.foldl_cons]
    split
    · rename_i hc
      obtain ⟨hroom, hglobal, hfilled⟩ := hc
      have happend : ∀ u ∈ payload ++ [c], u ∉ globals := by
        intro u hu
        obtain hu | hu := List.mem_append.mp hu
        · exact hglobals u hu
        · rwa [List.mem_singleton.mp hu]
      obtain ⟨h1, h2, h3⟩ := ih
        (List.nodup_append.mpr ⟨hnodup, List.nodup_singleton c, fun a ha b hb hab => hfilled (by
          rwa [← List.mem_singleton.mp hb, ← hab])⟩)
        (by rw [List.length_append, List.length_singleton]; omega) happend
      refine ⟨h1, h2, fun u hu => ⟨(h3 u hu).1, ?_⟩⟩
      obtain hu | hu := (h3 u hu).2
      · obtain hu | hu := List.mem_append.mp hu
        · exact .inl hu
        · exact .inr (by rw [List.mem_singleton.mp hu]; exact List.mem_cons_self)
      · exact .inr (List.mem_cons_of_mem _ hu)
    · obtain ⟨h1, h2, h3⟩ := ih hnodup hlen hglobals
      exact ⟨h1, h2, fun u hu => ⟨(h3 u hu).1, (h3 u hu).2.imp_right (List.mem_cons_of_mem _)⟩⟩

/-- Slots of a layer of the node are written. -/
theorem memWriteSlots_writes (g : MemGraph mb) {base : Nat} {start : Int}
    (sel : List (Fin mb.nNodes))
    (hl : lc ≤ (mb.nodes new).level) (hstart : start = base) (hlow : mb.layerStart new lc ≤ base)
    (hhigh : base + sel.length ≤ mb.layerStart new lc + t2LayerM lc mb.mEff mb.payloadM) :
    ∃ g', (memWriteSlots new start sel).exec g = some ((), g') ∧ Writes g g' new lc sel ∧
      OnlyOwn new g g' := by
  subst hstart
  have hfits := layer_fits g hl
  have hroom : 0 ≤ (base : Int) ∧ (base : Int).toNat + sel.length ≤ (g.nbr new).length := by omega
  refine ⟨g.put new (putRange (g.nbr new) base (sel.map some)) ?_, Prog.exec_lift ?_,
    writes_of_putRange base hl hlow hhigh rfl rfl rfl rfl, (OnlyOwn.refl new g).put _⟩
  · exact length_putRange (by rw [List.length_map]; omega)
  · rw [dif_pos hroom]
    rfl

omit [CDouble D] in
/-- **Slots that are written** while the node is wired. -/
theorem Partway.writes {xs : List (Fin mb.nNodes)} (h : Partway g₀ new lo hi g)
    (hw : Writes g g' new lc xs) (hown : OnlyOwn new g g') (hlo : lc ≤ lo)
    (hxs : ∀ x ∈ xs, x.val < new.val ∧ lc ≤ (mb.nodes x).level) (hnodup : xs.Nodup)
    (hnew : ∀ x ∈ xs, x ∉ g.build.neighbors lc new) : Partway g₀ new lc hi g' where
  own := ⟨fun id hid => (hown.nbr id hid).trans (h.own.nbr id hid), hown.entry.trans h.own.entry,
    hown.partEntry.trans h.own.partEntry, hown.pushed.trans h.own.pushed⟩
  linked := h.linked.writes hw (fun x hx => ⟨(hxs x hx).1, fun hsame => by
    have := (hxs x hx).1
    rw [hsame] at this
    exact lt_irrefl _ this, (hxs x hx).2⟩) hnodup hnew
  empty {lc'} hlt hl := by
    rw [hw.layers hl (Nat.ne_of_lt hlt)]
    exact h.empty (hlt.trans_le hlo) hl
  attached hu hlc hl hl' := hw.nonempty hl (h.attached hu hlc hl hl')

omit [CDouble D] in
/-- A layer with a neighbor is done. -/
theorem Partway.close (h : Partway g₀ new lc (lc + 1) g) (hne : g.build.neighbors lc new ≠ []) :
    Partway g₀ new lc lc g where
  own := h.own
  linked := h.linked
  empty := h.empty
  attached {u lc'} hu hlc hl hl' := by
    obtain rfl | hlt := Nat.eq_or_lt_of_le hlc
    · exact hne
    · exact h.attached hu hlt hl hl'

/-- Edges back that are noted for a layer, one at least. -/
structure NotedAt (new : Fin mb.nNodes) (lc : Nat) (rev : List (RevEdge mb.nNodes)) : Prop where
  nonempty : rev ≠ []
  into : ∀ r ∈ rev, EdgeInto mb lc r
  before : ∀ r ∈ rev, r.target.val < new.val
  distinct : (rev.map RevEdge.target).Nodup

omit [CDouble D] in
theorem edgeInto_layer {t : Fin mb.nNodes} {count : Nat} (hl : lc ≤ (mb.nodes t).level)
    (hpos : 0 < count) (hcount : count ≤ t2LayerM lc mb.mEff mb.payloadM) :
    EdgeInto mb lc (layerEdge lc count t) := by
  have hbase : (layerEdge lc count t).slotBase = mb.layerStart t lc :=
    hnswNeighborStart_eq hl mb.mEff
  refine ⟨hl, hpos, hbase.ge, ?_⟩
  rw [hbase]
  exact Int.ofNat_le.mpr (Nat.add_le_add_left hcount _)

omit [CDouble D] in
theorem edgeInto_payload (part : Nat) (t : Fin mb.nNodes) (hpos : 0 < mb.payloadM) :
    EdgeInto mb 0 (payloadEdge part t) := by
  have hbase : (payloadEdge part t).slotBase = ((mb.layerStart t 0 + mb.mEff : Nat) : Int) := by
    rw [Nat.cast_add]
    exact congrArg (· + (mb.mEff : Int)) (hnswNeighborStart_eq (Nat.zero_le _) mb.mEff)
  refine ⟨Nat.zero_le _, hpos, ?_, ?_⟩
  · rw [hbase]
    exact Int.ofNat_le.mpr (Nat.le_add_right _ _)
  · rw [hbase, t2LayerM_zero, ← Nat.add_assoc]
    exact le_rfl

omit [CDouble D] in
/-- Edges back from both halves: to members and to others, which are not the same. -/
theorem notedAt_halves (part : Nat) {globals payload : List (Fin mb.nNodes)}
    (hglobals : globals.Nodup) (hpayload : payload.Nodup) (hdisjoint : ∀ u ∈ payload, u ∉ globals)
    (hbefore : ∀ u ∈ payload ++ globals, u.val < new.val) (hsome : globals ≠ []) (hm : 0 < mb.mEff)
    (hlen : payload.length ≤ mb.payloadM) :
    NotedAt new 0 (payload.map (payloadEdge part) ++ globals.map (layerEdge 0 mb.mEff)) := by
  refine ⟨fun hnil => ?_, fun r hr => ?_, fun r hr => ?_, ?_⟩
  · exact hsome (List.map_eq_nil_iff.mp (List.append_eq_nil_iff.mp hnil).2)
  · obtain hr | hr := List.mem_append.mp hr
    · obtain ⟨t, ht, rfl⟩ := List.mem_map.mp hr
      exact edgeInto_payload _ t ((List.length_pos_of_mem ht).trans_le hlen)
    · obtain ⟨t, -, rfl⟩ := List.mem_map.mp hr
      exact edgeInto_layer (Nat.zero_le _) hm (Nat.le_add_right _ _)
  · obtain hr | hr := List.mem_append.mp hr
    · obtain ⟨t, ht, rfl⟩ := List.mem_map.mp hr
      exact hbefore t (List.mem_append_left _ ht)
    · obtain ⟨t, ht, rfl⟩ := List.mem_map.mp hr
      exact hbefore t (List.mem_append_right _ ht)
  · have htargets : (payload.map (payloadEdge part) ++ globals.map (layerEdge 0 mb.mEff)).map
        RevEdge.target = payload ++ globals := by
      rw [List.map_append, List.map_map, List.map_map]
      exact congrArg₂ (· ++ ·) (List.map_id payload) (List.map_id globals)
    rw [htargets]
    exact hpayload.append hglobals hdisjoint

/-- The first write to a layer. -/
theorem firstSlots_ends {start : Int} {sel : List (Fin mb.nNodes)} (hl : lc ≤ (mb.nodes new).level)
    (hstart : start = mb.layerStart new lc) (hlen : sel.length ≤ t2LayerM lc mb.mEff mb.payloadM)
    (hsel : ∀ u ∈ sel, u.val < new.val ∧ lc ≤ (mb.nodes u).level) (hnodup : sel.Nodup) :
    Prog.Ends (Partway g₀ new (lc + 1) (lc + 1)) (fun _ => memWriteSlots new start sel)
      fun _ g => Partway g₀ new lc (lc + 1) g ∧ (g.build.neighbors lc new).Perm sel := by
  apply Prog.Ends.of_exec
  intro g hg
  obtain ⟨g', hexec, hw, hown⟩ := memWriteSlots_writes g sel hl hstart le_rfl
    (Nat.add_le_add_left hlen _)
  have hempty := hg.empty (Nat.lt_succ_self lc) hl
  refine ⟨(), g', hexec, hg.writes hw hown (Nat.le_succ lc) hsel hnodup fun x _ => ?_, ?_⟩
  · rw [hempty]
    exact List.not_mem_nil
  · obtain ⟨rest, hsub, hperm⟩ := hw.layer
    rw [hempty] at hsub
    rwa [List.sublist_nil.mp hsub, List.append_nil] at hperm

/-- What is chosen for a layer. -/
theorem memChoose_layer (dist : V → V → D) (o : MemSettings) {cands : List (Fin mb.nNodes × D)}
    (hcands : Candidates new lc cands) (hne : cands ≠ []) {m : Nat} (hm : 0 < m) :
    (memChoose dist o cands m).Nodup ∧ (memChoose dist o cands m).length ≤ m ∧
      memChoose dist o cands m ≠ [] ∧
      ∀ t ∈ memChoose dist o cands m, t.val < new.val ∧ lc ≤ (mb.nodes t).level := by
  obtain ⟨hnodup, hlen⟩ := memChoose_spec dist o hcands.nodup m
  refine ⟨hnodup, hlen.le.trans (Nat.min_le_left _ _), fun hnil => ?_, fun t ht => ?_⟩
  · rw [hnil, List.length_nil] at hlen
    have := List.length_pos_iff.mpr hne
    omega
  · obtain ⟨c, hc, rfl⟩ := mem_of_memChoose ht
    exact hcands.nodes c hc

/-- **Both halves of layer 0.** -/
theorem memWireHalves_ends (hD : TotalOrder D) (hefc : 1 ≤ o.efc) (hm : 0 < mb.mEff)
    (hg₀ : Joined g₀ new.val) (hentries : Entries o g₀ new.val)
    {cands : List (Fin mb.nNodes × D)} (hcands : Candidates new 0 cands) (hne : cands ≠ []) :
    Prog.Ends (Partway g₀ new 1 1) (fun fuel => memWireHalves H dist fuel o new cands)
      fun rev g => Partway g₀ new 0 0 g ∧ NotedAt new 0 rev := by
  obtain ⟨hnodup, hlen, hsome, hglobals⟩ := memChoose_layer dist o hcands hne hm
  have hstart : hnswNeighborStart mb.mEff (mb.nodes new).level ((0 : Nat) : Int) =
    mb.layerStart new 0 := hnswNeighborStart_eq (Nat.zero_le _) mb.mEff
  unfold memWireHalves
  generalize memChoose dist o cands mb.mEff = globals at hnodup hlen hglobals hsome ⊢
  refine .bind (firstSlots_ends (Nat.zero_le _) hstart
    (hlen.trans (Nat.le_add_right _ _)) hglobals hnodup) fun _ => ?_
  refine .bind (memPayloadCands_ends H hD dist hefc hg₀ hentries _ fun hg => hg.1) fun pcands => ?_
  intro g hg
  obtain ⟨⟨hlinking, hperm⟩, hpcands⟩ := hg
  -- members that are not in the global half
  have hrest : Candidates new 0 (pcands.filter fun c => c.1 ∉ globals) :=
    ⟨fun c hc => hpcands.nodes c (List.mem_of_mem_filter hc),
      hpcands.nodup.sublist (List.filter_sublist.map Prod.fst)⟩
  obtain ⟨hpnodup, hplen⟩ := memChoose_spec dist o hrest.nodup mb.payloadM
  have hpayload : ∀ t ∈ memChoose dist o (pcands.filter fun c => c.1 ∉ globals) mb.payloadM,
      t.val < new.val ∧ t ∉ globals := by
    intro t ht
    obtain ⟨c, hc, rfl⟩ := mem_of_memChoose ht
    exact ⟨(hrest.nodes c hc).1, of_decide_eq_true (List.mem_filter.mp hc).2⟩
  generalize memChoose dist o (pcands.filter fun c => c.1 ∉ globals) mb.payloadM = payload
    at hpnodup hplen hpayload ⊢
  obtain ⟨hfnodup, hflen, hfilled⟩ := memBackfill_spec globals (cands.map Prod.fst) hpnodup
    (hplen.le.trans (Nat.min_le_left _ _)) fun u hu => (hpayload u hu).2
  have hpstart : hnswNeighborStart mb.mEff (mb.nodes new).level ((0 : Nat) : Int) +
      (mb.mEff : Int) = ((mb.layerStart new 0 + mb.mEff : Nat) : Int) := by
    rw [hstart]
    exact (Nat.cast_add _ _).symm
  obtain ⟨g', hexec, hw, hown⟩ := memWriteSlots_writes g
    (memBackfill globals mb.payloadM (cands.map Prod.fst) payload) (Nat.zero_le _) hpstart
    (Nat.le_add_right _ _) (by rw [t2LayerM_zero]; omega)
  have hdone : Partway g₀ new 0 1 g' := by
    refine hlinking.writes hw hown le_rfl (fun x hx => ⟨?_, Nat.zero_le _⟩) hfnodup fun x hx => ?_
    · obtain hx | hx := (hfilled x hx).2
      · exact (hpayload x hx).1
      · obtain ⟨c, hc, rfl⟩ := List.mem_map.mp hx
        exact (hcands.nodes c hc).1
    · rw [hperm.mem_iff]
      exact (hfilled x hx).1
  refine ⟨payload.map (payloadEdge (payloadPartition (mb.nodes new).filterVal)) ++
    globals.map (layerEdge 0 mb.mEff), g', ⟨0, fun fuel _ => ?_⟩,
    hdone.close (hw.nonempty (Nat.zero_le _) ?_), ?_⟩
  · dsimp only
    rw [Prog.bind_eq, Prog.exec_bind]
    exact congrArg (Option.bind · _) hexec
  · intro hnil
    rw [hnil] at hperm
    exact hsome (List.nil_perm.mp hperm)
  · refine notedAt_halves _ hnodup hpnodup (fun u hu => (hpayload u hu).2) (fun u hu => ?_) hsome hm
      (hplen.le.trans (Nat.min_le_left _ _))
    exact (List.mem_append.mp hu).elim (fun hu => (hpayload u hu).1) fun hu => (hglobals u hu).1

/-- **One layer**: its slots are filled, and the next search starts from a node before the new
one. -/
theorem memWireLayer_ends (hD : TotalOrder D) (hefc : 1 ≤ o.efc) (hm : 0 < mb.mEff)
    (hg₀ : Joined g₀ new.val) (hentries : Entries o g₀ new.val) (hep : ep.val < new.val)
    (hlep : lc ≤ (mb.nodes ep).level) (hl : lc ≤ (mb.nodes new).level) :
    Prog.Ends (Partway g₀ new (lc + 1) (lc + 1)) (fun fuel => memWireLayer H dist fuel o new ep lc)
      fun r g => Partway g₀ new lc lc g ∧ NotedAt new lc r.2 ∧ r.1.val < new.val ∧
        lc ≤ (mb.nodes r.1).level := by
  unfold memWireLayer
  refine .bind (memSearchLayer_ends H hD dist hefc hg₀ hep hlep) fun cands =>
    .assume fun hfound => ?_
  obtain ⟨hcands, hne⟩ := hfound
  have hnext : ((cands.head?.map Prod.fst).getD ep).val < new.val ∧
      lc ≤ (mb.nodes ((cands.head?.map Prod.fst).getD ep)).level := by
    cases cands with
    | nil => exact absurd rfl hne
    | cons c cs => exact hcands.nodes c List.mem_cons_self
  have hlast : ∀ rev : List (RevEdge mb.nNodes), Prog.Ends
      (fun g => Partway g₀ new lc lc g ∧ NotedAt new lc rev)
      (fun _ => .pure ((cands.head?.map Prod.fst).getD ep, rev)) fun r g =>
        Partway g₀ new lc lc g ∧ NotedAt new lc r.2 ∧ r.1.val < new.val ∧
          lc ≤ (mb.nodes r.1).level := fun rev => .pure fun g hg => ⟨hg.1, hg.2, hnext⟩
  by_cases hhalves : lc = 0 ∧ o.payloadEdges = true
  · simp only [if_pos hhalves]
    obtain ⟨rfl, -⟩ := hhalves
    exact (memWireHalves_ends hD hefc hm hg₀ hentries hcands hne).bind hlast
  · simp only [if_neg hhalves]
    have hwidth : 0 < t2LayerM lc mb.mEff mb.payloadM := by
      unfold t2LayerM t2L0Width
      split <;> omega
    obtain ⟨hnodup, hlen, hsome, hsel⟩ := memChoose_layer dist o hcands hne hwidth
    refine .bind (firstSlots_ends hl (hnswNeighborStart_eq hl mb.mEff) hlen hsel hnodup)
      fun _ => (hlast _).weaken fun g hg => ⟨hg.1.close fun hnil => ?_, fun hnil => ?_, ?_, ?_, ?_⟩
    · have hperm := hg.2
      rw [hnil] at hperm
      exact hsome (List.nil_perm.mp hperm)
    · exact hsome (List.map_eq_nil_iff.mp hnil)
    · intro r hr
      obtain ⟨t, ht, rfl⟩ := List.mem_map.mp hr
      exact edgeInto_layer (hsel t ht).2 hwidth le_rfl
    · intro r hr
      obtain ⟨t, ht, rfl⟩ := List.mem_map.mp hr
      exact (hsel t ht).1
    · rw [List.map_map]
      exact (List.map_id _).symm ▸ hnodup

/-- Edges back that are noted for the layers up to `lc`, one at least for each. -/
structure NotedTo (new : Fin mb.nNodes) (lc : Nat) (noted : List (Nat × RevEdge mb.nNodes)) :
    Prop where
  upTo : ∀ p ∈ noted, p.1 ≤ lc
  covers : ∀ lc' ≤ lc, ∃ p ∈ noted, p.1 = lc'
  into : ∀ p ∈ noted, EdgeInto mb p.1 p.2
  before : ∀ p ∈ noted, p.2.target.val < new.val
  distinct : (noted.map fun p => (p.1, p.2.target)).Nodup

omit [CDouble D] in
/-- The edges of one layer, and those of the layers below it. -/
theorem NotedAt.append {rev : List (RevEdge mb.nNodes)} (h : NotedAt new lc rev)
    {noted : List (Nat × RevEdge mb.nNodes)} (hrest : ∀ p ∈ noted, p.1 < lc)
    (hcovers : ∀ lc' < lc, ∃ p ∈ noted, p.1 = lc') (hinto : ∀ p ∈ noted, EdgeInto mb p.1 p.2)
    (hbefore : ∀ p ∈ noted, p.2.target.val < new.val)
    (hdistinct : (noted.map fun p => (p.1, p.2.target)).Nodup) :
    NotedTo new lc ((rev.map fun r => (lc, r)) ++ noted) := by
  have hor : ∀ {P : Nat × RevEdge mb.nNodes → Prop}, (∀ r ∈ rev, P (lc, r)) → (∀ p ∈ noted, P p) →
      ∀ p ∈ (rev.map fun r => (lc, r)) ++ noted, P p := by
    intro P hl hr p hp
    obtain hp | hp := List.mem_append.mp hp
    · obtain ⟨r, hr', rfl⟩ := List.mem_map.mp hp
      exact hl r hr'
    · exact hr p hp
  refine ⟨hor (fun _ _ => le_rfl) fun p hp => (hrest p hp).le, fun lc' hlc => ?_,
    hor h.into hinto, hor h.before hbefore, ?_⟩
  · obtain rfl | hlt := Nat.eq_or_lt_of_le hlc
    · obtain ⟨r, hr⟩ := List.exists_mem_of_ne_nil rev h.nonempty
      exact ⟨(lc', r), List.mem_append_left _ (List.mem_map.mpr ⟨r, hr, rfl⟩), rfl⟩
    · obtain ⟨p, hp, heq⟩ := hcovers lc' hlt
      exact ⟨p, List.mem_append_right _ hp, heq⟩
  · have hpairs : ((rev.map fun r => (lc, r)).map fun p => (p.1, p.2.target)) =
        (rev.map RevEdge.target).map fun t => (lc, t) := by
      rw [List.map_map, List.map_map]
      rfl
    rw [List.map_append, hpairs]
    refine (h.distinct.map fun t t' heq => (Prod.mk.inj heq).2).append hdistinct fun x hx hx' => ?_
    obtain ⟨t, -, rfl⟩ := List.mem_map.mp hx
    obtain ⟨p, hp, heq⟩ := List.mem_map.mp hx'
    exact absurd (Prod.mk.inj heq).1 (Nat.ne_of_lt (hrest p hp))

/-- **All layers** from `lc` downwards. -/
theorem memWireLayers_ends (hD : TotalOrder D) (hefc : 1 ≤ o.efc) (hm : 0 < mb.mEff)
    (hg₀ : Joined g₀ new.val) (hentries : Entries o g₀ new.val) (hep : ep.val < new.val)
    (hlep : lc ≤ (mb.nodes ep).level) (hl : lc ≤ (mb.nodes new).level) :
    Prog.Ends (Partway g₀ new (lc + 1) (lc + 1)) (fun fuel => memWireLayers H dist fuel o new lc ep)
      fun rev g => Partway g₀ new 0 0 g ∧
        ∃ noted, noted.map Prod.snd = rev ∧ NotedTo new lc noted := by
  induction lc generalizing ep with
  | zero =>
    refine .bind (memWireLayer_ends hD hefc hm hg₀ hentries hep hlep hl) fun r =>
      .pure fun g hg => ⟨hg.1, (r.2.map fun e => (0, e)) ++ [], ?_, ?_⟩
    · rw [List.append_nil, List.map_map]
      exact List.map_id _
    · exact hg.2.1.append (fun p hp => absurd hp List.not_mem_nil)
        (fun lc' h => absurd h (Nat.not_lt_zero lc')) (fun p hp => absurd hp List.not_mem_nil)
        (fun p hp => absurd hp List.not_mem_nil) List.nodup_nil
  | succ lc ih =>
    refine .bind (memWireLayer_ends hD hefc hm hg₀ hentries hep hlep hl) fun r =>
      .assume fun hr => ?_
    obtain ⟨hnoted, hnext, hlnext⟩ := hr
    refine .bind (ih hnext (Nat.le_of_succ_le hlnext) (Nat.le_of_succ_le hl)) fun rest => ?_
    refine .pure fun g hg => ⟨hg.1, ?_⟩
    obtain ⟨noted, rfl, hrest⟩ := hg.2
    refine ⟨(r.2.map fun e => (lc + 1, e)) ++ noted, ?_, hnoted.append
      (fun p hp => Nat.lt_succ_of_le (hrest.upTo p hp))
      (fun lc' hlt => hrest.covers lc' (Nat.le_of_lt_succ hlt)) hrest.into hrest.before
      hrest.distinct⟩
    rw [List.map_append, List.map_map]
    exact congrArg (· ++ _) (List.map_id _)

end

end PgAcorn.Build
