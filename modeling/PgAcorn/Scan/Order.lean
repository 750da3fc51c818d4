import PgAcorn.Scan.Complete
import PgAcorn.Scan.Quantize

/-! The order of emission in buffered mode.

With emission buffered the first row leaves only after the last expansion: the
expansion gate looks at the candidates and the budget alone, and neither rescoring
nor emitting touches them. From then on the head of `Rx` is emitted only when no
queued result's lower bound is at most its distance, so a row's exact distance is
at most that of everything still to come. `Ordered` is the invariant, over exact
arithmetic. -/
namespace PgAcorn.Scan
open Library
open PgAcorn.Filter (Fmgr ScanKey)

section Order
variable {V Q : Type} {H : PairingHeap}

/-- The distance of an element's stored vector. -/
noncomputable def exactDistance (S : Stream V Q ℝ) (t : Tid) : ℝ :=
  (S.index.element t).elim 0 fun e => S.kernels.etupDistance e.vec

theorem exactDistance_of_element {S : Stream V Q ℝ} {t : Tid} {e : ElementTuple V}
    (he : S.index.element t = some e) : exactDistance S t = S.kernels.etupDistance e.vec := by
  rw [exactDistance, he]
  rfl

/-- Every lower bound an element may be discovered with is below its distance. -/
def BoundsBelow (S : Stream V Q ℝ) : Prop :=
  ∀ {base t : Tid} {d lb : ℝ}, MayDiscover S base t d lb →
    ∀ {e : ElementTuple V}, S.index.element t = some e → lb ≤ S.kernels.etupDistance e.vec

/-- A stream that has emitted `es`, nearest first, with nothing nearer left. -/
structure Ordered (S : Stream V Q ℝ) (es : List Tid) (s : State H ℝ) : Prop where
  /-- Nothing is discovered after the first emission. -/
  phase : es ≠ [] → expansionGate S s = false
  sorted : es.Pairwise fun t u => exactDistance S t ≤ exactDistance S u
  results : ∀ u ∈ es, ∀ c ∈ H.contents s.R, returned S c.indextid = true →
    exactDistance S u ≤ exactDistance S c.indextid
  rescored : ∀ u ∈ es, ∀ c ∈ H.contents s.Rx, exactDistance S u ≤ exactDistance S c.indextid

variable {S : Stream V Q ℝ} {base : Tid} {es : List Tid} {s s' : State H ℝ}

/-- With emission buffered the gate looks at the candidates and the budget. -/
theorem expansionGate_congr (hbuf : S.settings.bufferedEmission = true) (hC : s'.C = s.C)
    (hCm : s'.Cm = s.Cm) (hn : s'.nExpansions = s.nExpansions) :
    expansionGate S s' = expansionGate S s := by
  simp only [expansionGate, hbuf, Bool.true_or, Bool.and_true, hC, hCm, hn]

/-- What rescoring does: the head of `R` leaves, and if it is live it enters `Rx`. -/
theorem t2RerankOne_some (h : t2RerankOne S s = some s') :
    ∃ c R, H.removeFirst s.R = some (c, R) ∧ (s' = { s with R := R } ∨
      ∃ c' n, c'.indextid = c.indextid ∧
        s' = { s with R := R, Rx := H.add s.Rx c', rxCount := n }) := by
  simp only [t2RerankOne, Option.bind_eq_bind, Option.bind_eq_some_iff] at h
  obtain ⟨⟨c, R⟩, hr, node, -, hs'⟩ := h
  refine ⟨c, R, hr, ?_⟩
  dsimp only at hs'
  split at hs'
  · exact .inl (Option.some.inj hs').symm
  · exact .inr ⟨{ c with distance := node.distance, heaptid := node.heaptid }, _, rfl,
      (Option.some.inj hs').symm⟩

/-- The head of `R` has the least lower bound. -/
theorem headLb_le {c : Elem ℝ} (hc : c ∈ H.contents s.R) : headLb s.R ≤ c.lb := by
  obtain ⟨x, hx, -⟩ := PairingHeap.exists_first fun h0 => Multiset.notMem_zero c (h0 ▸ hc)
  have := PairingHeap.first_le (strictWeak_real Elem.lb) hx c hc
  rw [headLb, hx]
  simpa [pqCmpLbMin] using this

/-- What is emitted is no farther than anything still queued. -/
theorem Pops.nearest {c : Elem ℝ} (h : Inv S base es s) (hb : BoundsBelow S) (hp : Pops S s c s') :
    (∀ c' ∈ H.contents s'.R, exactDistance S c.indextid ≤ exactDistance S c'.indextid) ∧
      ∀ c' ∈ H.contents s'.Rx, exactDistance S c.indextid ≤ exactDistance S c'.indextid := by
  have hbound : ∀ c' ∈ H.contents s.R, c'.lb ≤ exactDistance S c'.indextid := fun c' hc' => by
    obtain ⟨-, e, hres⟩ := h.results c' hc'
    rw [exactDistance_of_element hres.element]
    exact hb hres.distance hres.element
  cases hp with
  | rescored hap hg hr n =>
    rename_i Rx
    have hcontents := H.removeFirst_some hr
    obtain ⟨e, hres⟩ := h.rescored c (by rw [hcontents]; exact Multiset.mem_cons_self _ _)
    have hexact : exactDistance S c.indextid = c.distance := by
      rw [exactDistance_of_element hres.element, hres.distance]
    refine ⟨fun c' hc' => ?_, fun c' hc' => ?_⟩
    · have hc' : c' ∈ H.contents s.R := hc'
      have hne : H.isEmpty s.R = false := by
        rw [← Bool.not_eq_true, PairingHeap.isEmpty_iff]
        exact fun h0 => Multiset.notMem_zero c' (h0 ▸ hc')
      have hrx : rxDist S s = c.distance := by
        rw [rxDist, if_pos hap, headDistance, PairingHeap.first, hr]
        rfl
      -- the gate is shut although a result is queued: its bound exceeds the head of `Rx`
      have hlt : c.distance < headLb s.R := by
        simp only [rerankGate, hne, Bool.not_false, Bool.true_and, Bool.or_eq_false_iff, hrx,
          CDouble.le_real, decide_eq_false_iff_not, not_le] at hg
        exact hg.1
      rw [hexact]
      exact hlt.le.trans ((headLb_le hc').trans (hbound c' hc'))
    · have hc' : c' ∈ H.contents Rx := hc'
      obtain ⟨e', hres'⟩ := h.rescored c' (by rw [hcontents]; exact Multiset.mem_cons_of_mem hc')
      have := H.removeFirst_first (strictWeak_real Elem.distance) hr c' hc'
      rw [hexact, exactDistance_of_element hres'.element, ← hres'.distance]
      simpa [pqCmpMin] using this
  | direct hap hr =>
    rename_i R
    have hcontents := H.removeFirst_some hr
    obtain ⟨-, e, hres⟩ := h.results c (by rw [hcontents]; exact Multiset.mem_cons_self _ _)
    have hexact : exactDistance S c.indextid = c.lb := by
      rw [exactDistance_of_element hres.element]
      exact (hres.distance.exact hap hres.element).2.symm
    refine ⟨fun c' hc' => ?_, fun c' hc' => ?_⟩
    · have hc' : c' ∈ H.contents R := hc'
      have := H.removeFirst_first (strictWeak_real Elem.lb) hr c' hc'
      have hle : c.lb ≤ c'.lb := by simpa [pqCmpLbMin] using this
      rw [hexact]
      exact hle.trans (hbound c' (by rw [hcontents]; exact Multiset.mem_cons_of_mem hc'))
    · have hc' : c' ∈ H.contents s.Rx := hc'
      rw [h.exact hap] at hc'
      exact absurd hc' (Multiset.notMem_zero c')

/-- What is emitted was queued, and is to be returned. -/
theorem Pops.queued {c : Elem ℝ} (h : Inv S base es s) (hp : Pops S s c s') :
    c ∈ H.contents s.Rx ∨ c ∈ H.contents s.R ∧ returned S c.indextid = true := by
  cases hp with
  | rescored hap hg hr n =>
    left
    rw [H.removeFirst_some hr]
    exact Multiset.mem_cons_self _ _
  | direct hap hr =>
    right
    have hc : c ∈ H.contents s.R := by
      rw [H.removeFirst_some hr]
      exact Multiset.mem_cons_self _ _
    obtain ⟨-, e, hres⟩ := h.results c hc
    exact ⟨hc, hres.returned (hres.exact hap).1⟩

/-- What is left after an emission was queued before it. -/
theorem Pops.remaining {c : Elem ℝ} (hp : Pops S s c s') :
    (∀ c' ∈ H.contents s'.R, c' ∈ H.contents s.R) ∧
      (∀ c' ∈ H.contents s'.Rx, c' ∈ H.contents s.Rx) ∧
      s'.C = s.C ∧ s'.Cm = s.Cm ∧ s'.nExpansions = s.nExpansions := by
  cases hp with
  | rescored hap hg hr n =>
    refine ⟨fun _ hc' => hc', fun c' hc' => ?_, rfl, rfl, rfl⟩
    rw [H.removeFirst_some hr]
    exact Multiset.mem_cons_of_mem hc'
  | direct hap hr =>
    refine ⟨fun c' hc' => ?_, fun _ hc' => hc', rfl, rfl, rfl⟩
    rw [H.removeFirst_some hr]
    exact Multiset.mem_cons_of_mem hc'

/-- An iteration keeps the order. -/
theorem Ordered.step (hbuf : S.settings.bufferedEmission = true) (hb : BoundsBelow S)
    {o : Outcome} {es' : List Tid} (h : Inv S base es s) (hord : Ordered S es s)
    (hstep : Step S base es s o es' s') (ho : o ≠ .finish) : Ordered S es' s' := by
  cases hstep with
  | expand hg hinv hl =>
    -- no row has left yet
    obtain rfl : es = [] := by
      by_contra hne
      rw [hord.phase hne] at hg
      cases hg
    exact ⟨fun hne => absurd rfl hne, .nil, by simp, by simp⟩
  | rescore hg hr hinv hl =>
    obtain ⟨c, R, hremove, hs'⟩ := t2RerankOne_some hr
    have hcontents := H.removeFirst_some hremove
    have hR : s'.R = R ∧ s'.C = s.C ∧ s'.Cm = s.Cm ∧ s'.nExpansions = s.nExpansions := by
      rcases hs' with rfl | ⟨c', n, -, rfl⟩ <;> exact ⟨rfl, rfl, rfl, rfl⟩
    refine ⟨fun hne => ?_, hord.sorted, fun u hu c' hc' => ?_, fun u hu c' hc' => ?_⟩
    · rw [expansionGate_congr hbuf hR.2.1 hR.2.2.1 hR.2.2.2]
      exact hg
    · rw [hR.1] at hc'
      exact hord.results u hu c' (by rw [hcontents]; exact Multiset.mem_cons_of_mem hc')
    · obtain ⟨e, hres⟩ := hinv.rescored c' hc'
      rcases hs' with rfl | ⟨c'', n, hid, rfl⟩
      · exact hord.rescored u hu c' hc'
      · have hc' : c' ∈ H.contents (H.add s.Rx c'') := hc'
        rw [H.contents_add, Multiset.mem_cons] at hc'
        rcases hc' with rfl | hc'
        · rw [hid]
          exact hord.results u hu c (by rw [hcontents]; exact Multiset.mem_cons_self _ _)
            (hid ▸ hres.returned)
        · exact hord.rescored u hu c' hc'
  | emit hg hp hinv hl =>
    rename_i c
    obtain ⟨hR, hRx⟩ := hp.nearest h hb
    obtain ⟨hR', hRx', hC, hCm, hn⟩ := hp.remaining
    have hlast : ∀ u ∈ es, exactDistance S u ≤ exactDistance S c.indextid := fun u hu => by
      rcases hp.queued h with hc | ⟨hc, hret⟩
      · exact hord.rescored u hu c hc
      · exact hord.results u hu c hc hret
    refine ⟨fun _ => ?_, ?_, fun u hu c' hc' hret => ?_, fun u hu c' hc' => ?_⟩
    · rw [expansionGate_congr hbuf hC hCm hn]
      exact hg
    · rw [List.pairwise_append]
      refine ⟨hord.sorted, List.pairwise_singleton _ _, fun u hu v hv => ?_⟩
      rw [List.mem_singleton.mp hv]
      exact hlast u hu
    · rcases List.mem_append.mp hu with hu | hu
      · exact hord.results u hu c' (hR' c' hc') hret
      · rw [List.mem_singleton.mp hu]
        exact hR c' hc'
    · rcases List.mem_append.mp hu with hu | hu
      · exact hord.rescored u hu c' (hRx' c' hc')
      · rw [List.mem_singleton.mp hu]
        exact hRx c' hc'
  | finish he => exact absurd rfl ho

/-- A run keeps the order. -/
theorem Ordered.run (hbuf : S.settings.bufferedEmission = true) (hb : BoundsBelow S)
    {es' : List Tid} (h : Inv S base es s) (hord : Ordered S es s)
    (hrun : Run S base (es, s) (es', s')) : Inv S base es' s' ∧ Ordered S es' s' := by
  generalize hq : (es', s') = q at hrun
  induction hrun generalizing es' s' with
  | refl =>
    obtain ⟨rfl, rfl⟩ := Prod.mk.inj hq
    exact ⟨h, hord⟩
  | @tail p _ _ hstep ih =>
    subst hq
    obtain ⟨o, ho, hstep⟩ := hstep
    obtain ⟨hinv, hord⟩ := ih rfl
    exact ⟨hstep.inv ho, hord.step hbuf hb hinv hstep ho⟩

/-- The rows of `k` calls on a stream come nearest first, and nothing nearer is
left behind. -/
structure EmitsNearest (S : Stream V Q ℝ) (base : Tid) (es : List Tid) (s : State H ℝ) : Prop where
  nodup : es.Nodup
  discovered : ∀ u ∈ es, Discovered S.index base s.expanded u ∧ returned S u = true
  sorted : es.Pairwise fun t u => exactDistance S t ≤ exactDistance S u
  nearest : ∀ u ∈ es, ∀ t, Discovered S.index base s.expanded t → returned S t = true → t ∉ es →
    exactDistance S u ≤ exactDistance S t

/-- The rows are different discovered elements that are to be returned. -/
theorem Inv.rows (h : Inv S base es s) : es.Nodup ∧
    ∀ u ∈ es, Discovered S.index base s.expanded u ∧ returned S u = true := by
  have hnodup : ((s.visited : Multiset Tid).filter (returned S ·)).Nodup :=
    (Multiset.coe_nodup.mpr h.nodup).filter _
  rw [← h.emitted] at hnodup
  refine ⟨Multiset.coe_nodup.mp (Multiset.nodup_of_le (Multiset.le_add_left _ _) hnodup),
    fun u hu => ?_⟩
  have hmem : u ∈ (s.visited : Multiset Tid).filter (returned S ·) := by
    rw [← h.emitted]
    exact Multiset.mem_add.mpr (.inr hu)
  obtain ⟨hvis, hret⟩ := Multiset.mem_filter.mp hmem
  exact ⟨(h.visited u).mp hvis, hret⟩

theorem Inv.emitsNearest (h : Inv S base es s) (hord : Ordered S es s) (b : Bool) :
    EmitsNearest S base es { s with exhausted := b } := by
  refine ⟨h.rows.1, h.rows.2, hord.sorted, fun u hu t ht hret hnot => ?_⟩
  -- a discovered element not yet returned is queued or rescored
  have hmem : t ∈ (s.visited : Multiset Tid).filter (returned S ·) :=
    Multiset.mem_filter.mpr ⟨(h.visited t).mpr ht, hret⟩
  rw [← h.emitted] at hmem
  rcases Multiset.mem_add.mp hmem with hmem | hmem
  · rcases Multiset.mem_add.mp hmem with hmem | hmem
    · obtain ⟨c, hc, rfl⟩ := Multiset.mem_map.mp (Multiset.mem_filter.mp hmem).1
      exact hord.results u hu c hc hret
    · obtain ⟨c, hc, rfl⟩ := Multiset.mem_map.mp hmem
      exact hord.rescored u hu c hc
  · exact absurd hmem hnot

/-- The first `k` calls of a scan return its nearest discovered elements in
order; an index without entry point returns none. -/
def EmitsInOrder (H : PairingHeap) (S : Stream V Q ℝ) (k : Nat) : Prop :=
  ∃ (fuel₀ : Nat) (s₀ s : State H ℝ) (es : List Tid),
    (∀ fuel ≥ fuel₀, t2StreamBegin S fuel = some s₀ ∧
      calls S fuel k s₀ = some (es.map (heapTid S), s)) ∧
    (S.index.metaPage.hasEntry = true →
      ∃ base, (∀ fuel ≥ fuel₀, baseEntry S fuel = some base) ∧ EmitsNearest S base es s) ∧
    (S.index.metaPage.hasEntry = false → es = [])

theorem emitsInOrder_of_serves (hS : Serves S) (hbuf : S.settings.bufferedEmission = true)
    (hb : BoundsBelow S) (k : Nat) : EmitsInOrder H S k := by
  cases hentry : S.index.metaPage.hasEntry with
  | false =>
    refine ⟨0, { State.empty with exhausted := true }, { State.empty with exhausted := true }, [],
      fun fuel hf => ⟨?_, calls_exhausted S fuel rfl k⟩,
      fun h => absurd (hentry.symm.trans h) (by simp), fun _ => rfl⟩
    rw [t2StreamBegin, hentry]
    rfl
  | true =>
    obtain ⟨n₀, base, hbase, e, he⟩ := baseEntry_spec hS hentry
    obtain ⟨s₀, hseed, hinv⟩ := seed_inv (H := H) he
    obtain ⟨bound, hfuel⟩ := exists_chainFuel (H := H) hS
    obtain ⟨n₁, es, s, b, hcalls, hinv', hrun⟩ := calls_spec hfuel k hinv
    rw [List.nil_append] at hinv' hrun
    have hord : Ordered S [] s₀ := ⟨fun hne => absurd rfl hne, .nil, by simp, by simp⟩
    refine ⟨n₀ + n₁, s₀, _, es, fun fuel hf => ⟨?_, hcalls fuel (by omega)⟩, fun _ => ?_,
      fun h => absurd (hentry.symm.trans h) (by simp)⟩
    · rw [t2StreamBegin, hentry, hbase fuel (by omega)]
      exact hseed
    · exact ⟨base, fun fuel hf => hbase fuel (by omega),
        hinv'.emitsNearest (hord.run hbuf hb hinv hrun).2 b⟩

end Order

/-! ### Scans of coded vectors -/

section Coded
variable {S : Stream (List ℝ) Sq8Code ℝ}

/-- Nothing is discovered by a code. -/
structure NoApproximations (S : Stream (List ℝ) Sq8Code ℝ) : Prop where
  hit : ∀ t, (S.cc.bind fun cc => cc t) = none
  entry : S.inlineOn = true → ∀ {entry : InlineEntry Sq8Code}, Relation.HasEntry S.index entry →
    entry.valid = false

/-- Elements have vectors of dimension `dims`, and codes are theirs. -/
structure Coded (S : Stream (List ℝ) Sq8Code ℝ) (dims : Nat) : Prop where
  element : ∀ {t : Tid} {e : ElementTuple (List ℝ)}, S.index.element t = some e →
    e.vec.length = dims
  hit : ∀ {t : Tid} {hit : CodeCacheHit Sq8Code} {e : ElementTuple (List ℝ)},
    (S.cc.bind fun cc => cc t) = some hit → S.index.element t = some e → hit.code = sq8Encode e.vec
  entry : S.inlineOn = true → ∀ {entry : InlineEntry Sq8Code} {e : ElementTuple (List ℝ)},
    Relation.HasEntry S.index entry → entry.valid = true →
    S.index.element entry.indextid = some e → entry.code = sq8Encode e.vec

theorem NoApproximations.boundsBelow (h : NoApproximations S) : BoundsBelow S := by
  intro base t d lb hd e he
  cases hd with
  | page he' _ => rw [Option.some.inj (he'.symm.trans he)]
  | hit hh =>
    rw [h.hit] at hh
    cases hh
  | entry hon hentry hv =>
    rw [h.entry hon hentry] at hv
    cases hv

theorem Coded.boundsBelow {o : Opclass} {fn : DistFn} (ho : o.Documented fn) {direct : Bool}
    {query : List ℝ} {dims : Nat} (hq : query.length = dims)
    (hkernels : S.kernels = Kernels.ofOpclass o direct query dims) (h : Coded S dims) :
    BoundsBelow S := by
  intro base t d lb hd e he
  rw [hkernels]
  cases hd with
  | page he' _ => rw [Option.some.inj (he'.symm.trans he), hkernels]
  | hit hh =>
    rw [h.hit hh he, hkernels]
    exact inlineLb_le ho direct hq (h.element he)
  | entry hon hentry hv =>
    rw [h.entry hon hentry hv he, hkernels]
    exact inlineLb_le ho direct hq (h.element he)

/-- A scan of `r` with its operator class's distances. -/
noncomputable def Stream.ofOpclass (settings : Settings) (fmgr : Fmgr) (o : Opclass)
    (scanDirectDist : Bool) (query : List ℝ) (cache : Option (Tid → Option (CodeCacheHit Sq8Code)))
    (r : Relation (List ℝ) Sq8Code) (keys : List ScanKey) (efSearch : Nat) :
    Stream (List ℝ) Sq8Code ℝ :=
  Stream.ofIndex settings fmgr (Kernels.ofOpclass o scanDirectDist query r.metaPage.dimensions)
    cache r keys efSearch

/-- **Buffered emission is in order of exact distance**, for scans by squared
Euclidean distance or negative inner product with any mixture of codes and pages,
and for any distance when nothing is discovered by a code. -/
theorem emission_order (H : PairingHeap) (settings : Settings) (fmgr : Fmgr) (o : Opclass)
    (scanDirectDist : Bool) (query : List ℝ) (cache : Option (Tid → Option (CodeCacheHit Sq8Code)))
    (r : Relation (List ℝ) Sq8Code) (keys : List ScanKey) (efSearch : Nat)
    (hr : r.WellFormed) (hinline : r.metaPage.inlineVectors = true → r.InlineWellFormed)
    (hcache : CacheAgrees cache r) (hbuf : settings.bufferedEmission = true)
    (hcodes : (∃ fn, o.Documented fn ∧ query.length = r.metaPage.dimensions ∧
        Coded (Stream.ofOpclass settings fmgr o scanDirectDist query cache r keys efSearch)
          r.metaPage.dimensions) ∨
      NoApproximations (Stream.ofOpclass settings fmgr o scanDirectDist query cache r keys efSearch))
    (k : Nat) :
    EmitsInOrder H (Stream.ofOpclass settings fmgr o scanDirectDist query cache r keys efSearch) k := by
  refine emitsInOrder_of_serves
    (serves_ofIndex settings fmgr _ keys efSearch hr hinline hcache) hbuf ?_ k
  rcases hcodes with ⟨fn, ho, hq, hcoded⟩ | hnone
  · exact hcoded.boundsBelow ho hq rfl
  · exact hnone.boundsBelow

/-- `vector_l2_ops`. -/
noncomputable def vectorL2Ops : Opclass :=
  ⟨true, some "vector_l2_squared_distance", fun v w => distL2sq v.length v w⟩

theorem vectorL2Ops_documented : vectorL2Ops.Documented .l2sq := ⟨rfl, fun _ _ _ => rfl⟩

/-- Three rows, one of them discovered by its code, and a call that finds no more. -/
theorem emission_order_mesh : EmitsInOrder PairingHeap.list
    (Stream.ofOpclass ⟨false, true, true, true, true, true, true, none⟩ Fmgr.builtin vectorL2Ops true
      [0] (some (answers (meshHits (sq8Encode [1]) (sq8Encode [-2]) (sq8Encode [5]))))
      (meshIndex Sq8Code [3] [1] [-2] [5] [4]) [⟨false, ⟨.equal, .int4⟩, 1⟩] 40) 4 := by
  refine emission_order PairingHeap.list _ _ _ _ _ _ (meshIndex Sq8Code [3] [1] [-2] [5] [4]) _ 40
    (by decide +kernel) (fun h => by cases h) (meshHits_agree _ _ _ _ _ _ _ _) rfl
    (.inl ⟨.l2sq, vectorL2Ops_documented, rfl, fun he => ?_, fun {t hit e} hhit he => ?_,
      fun hon => by cases hon⟩) 4
  · have hdims : ∀ x ∈ (meshIndex Sq8Code [(3 : ℝ)] [1] [-2] [5] [4]).elements, x.2.vec.length = 1 := by
      decide +kernel
    exact Relation.forall_elements.mp hdims he
  · have hmem := mem_of_answers hhit
    simp only [meshHits, List.mem_cons, List.not_mem_nil, or_false, Prod.mk.injEq] at hmem
    obtain ⟨rfl, rfl⟩ | ⟨rfl, rfl⟩ | ⟨rfl, rfl⟩ := hmem
    all_goals
      cases he
      rfl

end Coded

end PgAcorn.Scan
