import PgAcorn.Scan.Inline
import Mathlib.Data.Multiset.Filter

/-! The invariant of a running stream.

Every visited element is in exactly one place on each of two tracks. As a node of
the graph it is queued for expansion or has been expanded; as a result it is
queued in `R`, rescored in `Rx`, or emitted, unless the keys or its deletion
exclude it. `Inv` says so, and `iterate_spec` that one iteration keeps it, never
fails, and makes progress in `measure`: it spends budget, or moves an element
towards its emission. -/
namespace PgAcorn.Scan
open Library

section Specification
variable {V Q D : Type}

/-- The element is live on its page and its filter value passes the keys. -/
def returned (S : Stream V Q D) (t : Tid) : Bool :=
  match S.index.element t with
  | some e => !e.deleted && Filter.evalFilter S.fmgr S.settings.scanDirectFilter S.keys e.filterVal
  | none => false

/-- The heap row of an element. -/
def heapTid (S : Stream V Q D) (t : Tid) : Tid :=
  match S.index.element t with
  | some e => e.heaptid
  | none => Tid.invalid

/-- Discovered: the seed, or a layer-0 neighbor of an expanded node. -/
def Discovered (r : Relation V Q) (base : Tid) (expanded : List Tid) (t : Tid) : Prop :=
  t = base ∨ ∃ u ∈ expanded, t ∈ r.layerNeighbors 0 u

theorem returned_of_element {S : Stream V Q D} {t : Tid} {e : ElementTuple V}
    (he : S.index.element t = some e) :
    returned S t = (!e.deleted &&
      Filter.evalFilter S.fmgr S.settings.scanDirectFilter S.keys e.filterVal) := by
  simp only [returned, he]

theorem heapTid_of_element {S : Stream V Q D} {t : Tid} {e : ElementTuple V}
    (he : S.index.element t = some e) : heapTid S t = e.heaptid := by
  simp only [heapTid, he]

/-- A discovery that is dropped is not to be returned. -/
theorem passes_of_returned {S : Stream V Q D} {base : Tid} {d : Discovery D} {e : ElementTuple V}
    (h : Genuine S base d e) (hr : returned S d.indextid = true) : passes S d = true := by
  rw [returned_of_element h.element, Bool.and_eq_true, Bool.not_eq_true'] at hr
  rw [passes, h.filterVal, Bool.and_eq_true, Bool.not_eq_true']
  refine ⟨?_, hr.2⟩
  by_contra hd
  rw [h.deleted (by simpa using hd)] at hr
  exact absurd hr.1 (by simp)

/-- What is queued in `R` about an element. -/
structure Result (S : Stream V Q D) (base : Tid) (c : Elem D) (e : ElementTuple V) : Prop where
  element : S.index.element c.indextid = some e
  distance : MayDiscover S base c.indextid c.distance c.lb
  keys : Filter.evalFilter S.fmgr S.settings.scanDirectFilter S.keys e.filterVal = true
  exact : S.approx = false → e.deleted = false ∧ c.heaptid = e.heaptid

/-- What is queued in `Rx` about an element. -/
structure Rescored (S : Stream V Q D) (c : Elem D) (e : ElementTuple V) : Prop where
  element : S.index.element c.indextid = some e
  distance : c.distance = S.kernels.etupDistance e.vec
  returned : returned S c.indextid = true
  heaptid : c.heaptid = e.heaptid

theorem Genuine.candidate {S : Stream V Q D} {base : Tid} {d : Discovery D} {e : ElementTuple V}
    (h : Genuine S base d e) : Candidate S base d.candidate e := ⟨h.element, h.distance, h.nbr⟩

theorem Genuine.result {S : Stream V Q D} {base : Tid} {d : Discovery D} {e : ElementTuple V}
    (h : Genuine S base d e) (hp : passes S d = true) : Result S base d.result e := by
  rw [passes, Bool.and_eq_true, Bool.not_eq_true', h.filterVal] at hp
  exact ⟨h.element, h.distance, hp.2, fun ha => ⟨(h.exact ha).1 ▸ hp.1, (h.exact ha).2⟩⟩

/-- Without approximations a queued result is returned as it stands. -/
theorem Result.returned {S : Stream V Q D} {base : Tid} {c : Elem D} {e : ElementTuple V}
    (h : Result S base c e) (hdel : e.deleted = false) : returned S c.indextid = true := by
  rw [returned_of_element h.element, hdel, h.keys]
  rfl

/-- The identifiers of some queued elements. -/
def tids (m : Multiset (Elem D)) : Multiset Tid := m.map Elem.indextid

/-- The results of some discoveries, as far as they are returned. -/
theorem tids_results {S : Stream V Q D} {base : Tid} {ds : List (Discovery D)}
    (h : ∀ d ∈ ds, ∃ e, Genuine S base d e) :
    (tids (((ds.filter (passes S)).map Discovery.result : List (Elem D)) :
        Multiset (Elem D))).filter (returned S ·) =
      ((ds.map Discovery.indextid : List Tid) : Multiset Tid).filter (returned S ·) := by
  induction ds with
  | nil => rfl
  | cons d ds ih =>
    have ih := ih fun d' hd' => h d' (List.mem_cons_of_mem _ hd')
    obtain ⟨e, hgen⟩ := h d (by simp)
    have hd := passes_of_returned hgen
    simp only [tids, Multiset.map_coe, List.map_map, Multiset.filter_coe, Multiset.coe_eq_coe]
      at ih ⊢
    have hid : d.result.indextid = d.indextid := rfl
    cases hp : passes S d with
    | true => cases hr : returned S d.indextid <;> simpa [hp, hr, hid] using ih
    | false =>
      have hr : returned S d.indextid = false := by
        by_contra hr
        rw [hd (by simpa using hr)] at hp
        cases hp
      simpa [hp, hr] using ih

end Specification

section Invariant
variable {V Q D : Type} [CDouble D] {H : PairingHeap}

/-- A stream from `base` that has emitted the elements `es`, in this order. -/
structure Inv (S : Stream V Q D) (base : Tid) (es : List Tid) (s : State H D) : Prop where
  nodup : s.visited.Nodup
  visited : ∀ t, t ∈ s.visited ↔ Discovered S.index base s.expanded t
  reachable : ∀ t ∈ s.visited, S.index.Reachable base t
  frontier : tids (frontier s) + s.expanded = s.visited
  candidates : ∀ c ∈ Scan.frontier s, ∃ e, Candidate S base c e
  results : ∀ c ∈ H.contents s.R, S.index.Reachable base c.indextid ∧ ∃ e, Result S base c e
  rescored : ∀ c ∈ H.contents s.Rx, ∃ e, Rescored S c e
  emitted : (tids (H.contents s.R)).filter (returned S ·) + tids (H.contents s.Rx) + es =
    (s.visited : Multiset Tid).filter (returned S ·)
  exact : S.approx = false → H.contents s.Rx = 0
  budget : s.nExpansions ≤ S.efSearch
  count : s.expanded.length = s.nExpansions
  running : s.exhausted = false

/-- An expansion of the candidate `c` of `s`, which leaves `s₁`, to `s'`. -/
theorem Inv.expand {S : Stream V Q D} {base : Tid} {es : List Tid} {s s₁ s₂ s' : State H D}
    {c : Elem D} {ds : List (Discovery D)} (h : Inv S base es s)
    (hfrontier : Scan.frontier s = c ::ₘ Scan.frontier s₁)
    (hs₁ : s₁ = { s with C := s₁.C, Cm := s₁.Cm })
    (hd : Discovers S base (S.index.layerNeighbors 0 c.indextid) ds s₁ s₂)
    (hs' : s' = { s₂ with nExpansions := s₂.nExpansions + 1, expanded := c.indextid :: s₂.expanded })
    (hbudget : s.nExpansions < S.efSearch) : Inv S base es s' := by
  have hvisited₁ : s₁.visited = s.visited := by rw [hs₁]
  have hR₁ : s₁.R = s.R := by rw [hs₁]
  have hRx₁ : s₁.Rx = s.Rx := by rw [hs₁]
  have hexp₂ : s₂.expanded = s.expanded := by rw [hd.pushed.expanded, hs₁]
  have hn₂ : s₂.nExpansions = s.nExpansions := by rw [hd.pushed.nExpansions, hs₁]
  have hex₂ : s₂.exhausted = s.exhausted := by rw [hd.pushed.exhausted, hs₁]
  have hfrontier₂ := hd.pushed.frontier
  have hR₂ := hd.pushed.R
  rw [hR₁] at hR₂
  have hRx₂ := hd.pushed.Rx
  rw [hRx₁] at hRx₂
  have hperm := hd.visited
  rw [hvisited₁] at hperm
  have hc : c ∈ Scan.frontier s := by
    rw [hfrontier]
    exact Multiset.mem_cons_self _ _
  have hcvis : c.indextid ∈ s.visited := by
    have : c.indextid ∈ tids (Scan.frontier s) + (s.expanded : Multiset Tid) :=
      Multiset.mem_add.mpr (.inl (Multiset.mem_map_of_mem _ hc))
    rw [h.frontier] at this
    exact this
  have hmem : ∀ t, t ∈ s'.visited ↔ t ∈ s.visited ∨ t ∈ S.index.layerNeighbors 0 c.indextid := by
    intro t
    rw [hs', ← hvisited₁]
    exact hd.mem t
  have hreach : ∀ t ∈ s'.visited, S.index.Reachable base t := fun t ht => by
    rcases (hmem t).mp ht with ht | ht
    · exact h.reachable t ht
    · exact (h.reachable _ hcvis).tail ht
  have hvisited' : s'.visited = s₂.visited := by rw [hs']
  subst hs'
  refine ⟨hd.nodup (hvisited₁ ▸ h.nodup), fun t => ?_, hreach, ?_, fun c' hc' => ?_,
    fun c' hc' => ?_, fun c' hc' => ?_, ?_, fun ha => ?_, ?_, ?_, ?_⟩
  · rw [hmem, h.visited, hexp₂]
    constructor
    · rintro ((rfl | ⟨u, hu, ht⟩) | ht)
      · exact .inl rfl
      · exact .inr ⟨u, List.mem_cons_of_mem _ hu, ht⟩
      · exact .inr ⟨_, List.mem_cons_self, ht⟩
    · rintro (rfl | ⟨u, hu, ht⟩)
      · exact .inl (.inl rfl)
      · obtain rfl | hu := List.mem_cons.mp hu
        · exact .inr ht
        · exact .inl (.inr ⟨u, hu, ht⟩)
  · show tids (Scan.frontier s₂) + ((c.indextid :: s₂.expanded : List Tid) : Multiset Tid) =
      (s₂.visited : Multiset Tid)
    rw [Multiset.coe_eq_coe.mpr hperm, ← Multiset.coe_add, ← h.frontier, hfrontier₂, hfrontier,
      hexp₂, ← Multiset.cons_coe]
    simp only [tids, Multiset.map_add, Multiset.map_cons, Multiset.map_coe, List.map_map,
      Multiset.add_cons, Multiset.cons_add]
    rw [add_assoc]
    rfl
  · have hc' : c' ∈ Scan.frontier s₂ := hc'
    rw [hfrontier₂, Multiset.mem_add] at hc'
    rcases hc' with hc' | hc'
    · obtain ⟨d, hdmem, rfl⟩ := List.mem_map.mp (Multiset.mem_coe.mp hc')
      obtain ⟨e, hgen⟩ := hd.genuine d hdmem
      exact ⟨e, hgen.candidate⟩
    · exact h.candidates c' (by rw [hfrontier]; exact Multiset.mem_cons_of_mem hc')
  · have hc' : c' ∈ H.contents s₂.R := hc'
    rw [hR₂, Multiset.mem_add] at hc'
    rcases hc' with hc' | hc'
    · obtain ⟨d, hdmem, rfl⟩ := List.mem_map.mp (Multiset.mem_coe.mp hc')
      obtain ⟨hdmem, hp⟩ := List.mem_filter.mp hdmem
      obtain ⟨e, hgen⟩ := hd.genuine d hdmem
      refine ⟨hreach _ ?_, e, hgen.result hp⟩
      rw [hvisited', hperm.mem_iff]
      exact List.mem_append_left _ (List.mem_map_of_mem hdmem)
    · exact h.results c' hc'
  · exact h.rescored c' (by rw [← hRx₂]; exact hc')
  · show (tids (H.contents s₂.R)).filter _ + tids (H.contents s₂.Rx) + (es : Multiset Tid) =
      (s₂.visited : Multiset Tid).filter _
    rw [Multiset.coe_eq_coe.mpr hperm, ← Multiset.coe_add, Multiset.filter_add, ← h.emitted, hR₂,
      hRx₂, ← tids_results hd.genuine]
    simp only [tids, Multiset.map_add, Multiset.filter_add, add_assoc]
  · show H.contents s₂.Rx = 0
    rw [hRx₂]
    exact h.exact ha
  · show s₂.nExpansions + 1 ≤ S.efSearch
    omega
  · show (c.indextid :: s₂.expanded).length = s₂.nExpansions + 1
    rw [List.length_cons, hexp₂, h.count, hn₂]
  · show s₂.exhausted = false
    rw [hex₂, h.running]

/-! ### The steps of an iteration -/

theorem headDistance_empty {after : Elem D → Elem D → Bool} {h : H.Heap after}
    (he : H.contents h = 0) : headDistance h = CDouble.dblMax := by
  rw [headDistance, PairingHeap.first_none h |>.mpr he]
  rfl

/-- The gate never opens on an empty frontier. -/
theorem popCandidate_spec {S : Stream V Q D} {s : State H D} (hgate : expansionGate S s = true) :
    ∃ c s₁, popCandidate S s = some (c, s₁) ∧ frontier s = c ::ₘ frontier s₁ ∧
      s₁ = { s with C := s₁.C, Cm := s₁.Cm } := by
  have hcd : CDouble.eq (CDouble.min (headDistance s.C) (headDistance s.Cm)) CDouble.dblMax =
      false := by
    simp only [expansionGate, Bool.and_eq_true, Bool.not_eq_true'] at hgate
    exact hgate.1.1
  have hCm : choosesCm S s = true → H.contents s.Cm ≠ 0 := by
    intro hchoose hempty
    have hisEmpty := (PairingHeap.isEmpty_iff s.Cm).mpr hempty
    rw [headDistance_empty hempty] at hcd
    have hlt := CDouble.lt_of_min_ne hcd
    have hC : H.isEmpty s.C = false := by
      by_contra hC
      rw [headDistance_empty ((PairingHeap.isEmpty_iff s.C).mp (by simpa using hC)),
        CDouble.min_dblMax] at hcd
      exact absurd (hcd.symm.trans CDouble.eq_dblMax) (by simp)
    simp [choosesCm, hisEmpty, hC, headDistance_empty hempty, CDouble.le_of_lt hlt] at hchoose
  have hC : choosesCm S s = false → H.contents s.C ≠ 0 := by
    intro hchoose hempty
    have hisEmpty := (PairingHeap.isEmpty_iff s.C).mpr hempty
    simp [choosesCm, hisEmpty] at hchoose
  unfold popCandidate
  cases hchoose : choosesCm S s with
  | true =>
    obtain ⟨c, Cm, hr⟩ := PairingHeap.exists_removeFirst (hCm hchoose)
    refine ⟨c, { s with Cm := Cm }, by rw [if_pos rfl, hr, Option.map_some], ?_, rfl⟩
    rw [frontier, frontier, H.removeFirst_some hr, Multiset.add_cons]
  | false =>
    obtain ⟨c, C, hr⟩ := PairingHeap.exists_removeFirst (hC hchoose)
    refine ⟨c, { s with C := C }, by rw [if_neg (by simp), hr, Option.map_some], ?_, rfl⟩
    rw [frontier, frontier, H.removeFirst_some hr, Multiset.cons_add]

/-- Fuel beyond `bound` is enough for the chunk chains of the index: every
expansion succeeds, with one result. -/
def ChainFuel (H : PairingHeap) (S : Stream V Q D) (bound : Nat) : Prop :=
  ∀ {base : Tid} (s : State H D) {ce : Elem D} {e : ElementTuple V}, Candidate S base ce e →
    ∃ ds s', (∀ fuel > bound, expand S fuel s ce = some s') ∧
      Discovers S base (S.index.layerNeighbors 0 ce.indextid) ds s s'

theorem exists_chainFuel {S : Stream V Q D} (hS : Serves S) : ∃ bound, ChainFuel H S bound := by
  unfold ChainFuel expand
  by_cases hon : S.inlineOn = true
  · simp only [hon, if_true]
    exact t2StreamExpandInline_spec hS hon
  · refine ⟨0, fun s _ _ hc => ?_⟩
    obtain ⟨ds, s', hs', hd⟩ := t2StreamExpand_spec hS s hc
    exact ⟨ds, s', fun fuel _ => by rw [if_neg hon]; exact hs', hd⟩

theorem expandOne_spec {S : Stream V Q D} {bound : Nat} (hfuel : ChainFuel H S bound) {base : Tid}
    {es : List Tid} {s : State H D} (h : Inv S base es s) (hgate : expansionGate S s = true) :
    ∃ s', (∀ fuel > bound, expandOne S fuel s = some s') ∧ Inv S base es s' ∧
      s'.nExpansions = s.nExpansions + 1 := by
  obtain ⟨c, s₁, hpop, hfrontier, hs₁⟩ := popCandidate_spec hgate
  have hbudget : s.nExpansions < S.efSearch := by
    simp only [expansionGate, Bool.and_eq_true, decide_eq_true_eq] at hgate
    exact hgate.1.2
  obtain ⟨e, hc⟩ := h.candidates c (by rw [hfrontier]; exact Multiset.mem_cons_self _ _)
  obtain ⟨ds, s₂, hs₂, hd⟩ := hfuel s₁ hc
  refine ⟨_, fun fuel hf => ?_, h.expand hfrontier hs₁ hd rfl hbudget, ?_⟩
  · rw [expandOne, hpop]
    simp only [Option.bind_eq_bind, Option.bind_some, hs₂ fuel hf]
  · show s₂.nExpansions + 1 = _
    rw [hd.pushed.nExpansions, hs₁]

/-- A rescored element keeps its place, a deleted one is not to be returned. -/
theorem t2RerankOne_spec {S : Stream V Q D} {base : Tid} {es : List Tid} {s : State H D}
    (h : Inv S base es s) (hap : S.approx = true) (hne : H.contents s.R ≠ 0) :
    ∃ s', t2RerankOne S s = some s' ∧ Inv S base es s' ∧ s'.nExpansions = s.nExpansions ∧
      2 * (H.contents s'.R).card + (H.contents s'.Rx).card <
        2 * (H.contents s.R).card + (H.contents s.Rx).card := by
  obtain ⟨c, R, hr⟩ := PairingHeap.exists_removeFirst hne
  have hcontents := H.removeFirst_some hr
  obtain ⟨-, e, hres⟩ := h.results c (by rw [hcontents]; exact Multiset.mem_cons_self _ _)
  have hresults : ∀ c ∈ H.contents R, S.index.Reachable base c.indextid ∧
      ∃ e, Result S base c e := fun c hc =>
    h.results c (by rw [hcontents]; exact Multiset.mem_cons_of_mem hc)
  have hemitted := h.emitted
  rw [hcontents, tids, Multiset.map_cons] at hemitted
  obtain ⟨node, hload, hnode, hdist, hheap⟩ : ∃ node, t2LoadNode S true c.indextid = some node ∧
      node.deleted = e.deleted ∧ node.distance = S.kernels.etupDistance e.vec ∧
      node.heaptid = e.heaptid :=
    ⟨_, by rw [t2LoadNode, hres.element, Option.map_some], rfl, rfl, rfl⟩
  unfold t2RerankOne
  simp only [hr, Option.bind_eq_bind, Option.bind_some, hload, hnode]
  cases hdel : e.deleted with
  | true =>
    have hnot : ¬ returned S c.indextid = true := by
      rw [returned_of_element hres.element, hdel]
      simp
    rw [Multiset.filter_cons_of_neg (p := (returned S · = true)) _ hnot] at hemitted
    refine ⟨_, if_pos rfl, ⟨h.nodup, h.visited, h.reachable, h.frontier, h.candidates, hresults,
      h.rescored, hemitted, h.exact, h.budget, h.count, h.running⟩, rfl, ?_⟩
    rw [hcontents, Multiset.card_cons]
    dsimp only
    omega
  | false =>
    have hret : returned S c.indextid = true := hres.returned hdel
    rw [Multiset.filter_cons_of_pos (p := (returned S · = true)) _ hret] at hemitted
    refine ⟨_, if_neg (by simp), ⟨h.nodup, h.visited, h.reachable, h.frontier, h.candidates,
      hresults, fun c' hc' => ?_, ?_, fun ha => ?_, h.budget, h.count, h.running⟩, rfl, ?_⟩
    · rw [H.contents_add, Multiset.mem_cons] at hc'
      rcases hc' with rfl | hc'
      · exact ⟨e, hres.element, hdist, hret, hheap⟩
      · exact h.rescored c' hc'
    · rw [H.contents_add, ← hemitted]
      simp only [tids, Multiset.map_cons, Multiset.cons_add, Multiset.add_cons]
    · rw [hap] at ha
      cases ha
    · rw [H.contents_add, hcontents, Multiset.card_cons, Multiset.card_cons]
      dsimp only
      omega

end Invariant

end PgAcorn.Scan
