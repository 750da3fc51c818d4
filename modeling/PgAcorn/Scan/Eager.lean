import Mathlib.Algebra.Order.Floor.Semifield
import PgAcorn.Scan.Order

/-! Emission without buffering.

A row then leaves as soon as no queued candidate may still beat it, as far as the gate can
tell: it compares the nearest result with the lower bounds of the two heads. The heads are
the nearest candidates by their distance, approximate or not; that no other candidate has
a lower bound yet is what `HeadsLeast` says, and from it no queued candidate beats the row
(`eager_emission`). Where nothing is approximated the two orders agree
(`headsLeast_of_monotone`). -/
namespace PgAcorn.Scan
open Library
open PgAcorn.Filter (Fmgr ScanKey)

section Eager
variable {V Q : Type} {H : PairingHeap}

/-- No queued candidate has a lower bound below those of the heads of `C` and `Cm`. -/
def HeadsLeast (s : State H ℝ) : Prop :=
  ∀ c ∈ frontier s, CDouble.min (headLb s.C) (headLb s.Cm) ≤ c.lb

/-- A lower bound is at most the distance it was derived from. -/
def LbBelow (S : Stream V Q ℝ) : Prop :=
  ∀ {base t : Tid} {d lb : ℝ}, MayDiscover S base t d lb →
    ∀ {e : ElementTuple V}, S.index.element t = some e → lb ≤ d

variable {S : Stream V Q ℝ} {base : Tid} {es : List Tid} {s s' : State H ℝ}

theorem cdouble_min_le (a b : ℝ) : CDouble.min a b ≤ a ∧ CDouble.min a b ≤ b := by
  unfold CDouble.min
  rw [CDouble.lt_real]
  by_cases h : a < b
  · rw [if_pos (decide_eq_true h)]
    exact ⟨le_rfl, h.le⟩
  · rw [if_neg (by simpa using h)]
    exact ⟨le_of_not_gt h, le_rfl⟩

/-- The heads have the least bounds where the bound grows with the distance. -/
theorem headsLeast_of_monotone {f : ℝ → ℝ} (hf : Monotone f)
    (h : ∀ c ∈ frontier s, c.lb = f c.distance) : HeadsLeast s := by
  have hhead : ∀ q : H.Heap (pqCmpMin (D := ℝ)), (∀ c ∈ H.contents q, c ∈ frontier s) →
      ∀ c ∈ H.contents q, headLb q ≤ c.lb := by
    intro q hq c hc
    obtain ⟨x, hx, hmem⟩ := PairingHeap.exists_first fun h0 => Multiset.notMem_zero c (h0 ▸ hc)
    have hle : x.distance ≤ c.distance := by
      simpa [pqCmpMin] using PairingHeap.first_le (strictWeak_real Elem.distance) hx c hc
    rw [headLb, hx, h c (hq c hc)]
    exact (h x (hq x hmem)).trans_le (hf hle)
  intro c hc
  obtain ⟨hleft, hright⟩ := cdouble_min_le (headLb s.C) (headLb s.Cm)
  rcases Multiset.mem_add.mp hc with hc | hc
  · exact hleft.trans (hhead s.C (fun _ hc => Multiset.mem_add.mpr (.inl hc)) c hc)
  · exact hright.trans (hhead s.Cm (fun _ hc => Multiset.mem_add.mpr (.inr hc)) c hc)

/-- A shut gate with budget left: the nearest result is nearer than the heads' bounds. -/
theorem bound_lt_of_gate (hbuf : S.settings.bufferedEmission = false) (h : Inv S base es s)
    (hbase : ∃ fuel, baseEntry S fuel = some base) (hb : DistancesBelow S)
    (hgate : expansionGate S s = false) (hbudget : s.nExpansions < S.efSearch)
    (hne : frontier s ≠ 0) :
    CDouble.min (headDistance s.R) (rxDist S s) < CDouble.min (headLb s.C) (headLb s.Cm) ∧
      CDouble.min (headLb s.C) (headLb s.Cm) < CDouble.dblMax := by
  have hbelow := h.candidate_below hbase hb
  obtain ⟨hdist, hlb⟩ := heads_below hbelow hne
  refine ⟨?_, by simpa [Below] using hlb⟩
  have hfar : CDouble.eq (CDouble.min (headDistance s.C) (headDistance s.Cm)) CDouble.dblMax = false :=
    CDouble.ne_of_lt hdist
  simpa [expansionGate, hfar, hbudget, hbuf] using hgate

/-- What is emitted is at most the nearest result's distance that the gate looks at. -/
theorem Pops.le_bound {c : Elem ℝ} (h : Inv S base es s)
    (hbase : ∃ fuel, baseEntry S fuel = some base) (hb : DistancesBelow S) (hlb : LbBelow S)
    (hp : Pops S s c s') (hsmall : CDouble.min (headDistance s.R) (rxDist S s) < CDouble.dblMax) :
    exactDistance S c.indextid ≤ CDouble.min (headDistance s.R) (rxDist S s) := by
  cases hp with
  | rescored hap hg hr n =>
    obtain ⟨e, hres⟩ := h.rescored c (by rw [H.removeFirst_some hr]; exact Multiset.mem_cons_self _ _)
    have hrx : rxDist S s = c.distance := by
      rw [rxDist, if_pos hap, headDistance, PairingHeap.first, hr]
      rfl
    rw [exactDistance_of_element hres.element, ← hres.distance, hrx]
    rw [hrx] at hsmall
    unfold CDouble.min at hsmall ⊢
    by_cases hlt : headDistance s.R < c.distance
    · -- the nearest result would be rescored first
      exfalso
      rw [CDouble.lt_real, if_pos (decide_eq_true hlt)] at hsmall
      have hne : H.contents s.R ≠ 0 := fun h0 => by
        rw [headDistance_empty h0] at hsmall
        exact lt_irrefl _ hsmall
      obtain ⟨x, hx, hmem⟩ := PairingHeap.exists_first hne
      obtain ⟨-, ex, hxres⟩ := h.results x hmem
      have hisEmpty : H.isEmpty s.R = false := by
        rw [← Bool.not_eq_true, PairingHeap.isEmpty_iff]
        exact hne
      have hlate : c.distance < headLb s.R := by
        simp only [rerankGate, hisEmpty, Bool.not_false, Bool.true_and, Bool.or_eq_false_iff, hrx,
          CDouble.le_real, decide_eq_false_iff_not, not_le] at hg
        exact hg.1
      rw [headLb, hx] at hlate
      rw [headDistance, hx] at hlt
      have : x.lb ≤ x.distance := hlb hxres.distance hxres.element
      exact lt_irrefl _ (hlate.trans_le (this.trans hlt.le))
    · rw [CDouble.lt_real, if_neg (by simpa using hlt)]
  | direct hap hr =>
    have hmem : c ∈ H.contents s.R := by
      rw [H.removeFirst_some hr]
      exact Multiset.mem_cons_self _ _
    obtain ⟨hreach, e, hres⟩ := h.results c hmem
    have hexact : exactDistance S c.indextid = c.distance := by
      rw [exactDistance_of_element hres.element]
      exact (hres.distance.exact hap hres.element).1.symm
    have hbelow : c.distance < CDouble.dblMax := by
      simpa [Below] using (hb hbase hreach hres.distance).1
    have hhead : headDistance s.R = c.distance := by
      rw [headDistance, PairingHeap.first, hr]
      rfl
    rw [hexact, hhead, rxDist, if_neg (by simp [hap]), CDouble.min_dblMax_right (by simpa using hbelow)]

/-- **A row that leaves with budget left** is not beaten by a queued candidate, if none is
below the heads. -/
theorem Pops.unbeaten {c : Elem ℝ} (hbuf : S.settings.bufferedEmission = false)
    (h : Inv S base es s) (hbase : ∃ fuel, baseEntry S fuel = some base) (hb : DistancesBelow S)
    (hlb : LbBelow S) (hgate : expansionGate S s = false) (hp : Pops S s c s')
    (hbudget : s.nExpansions < S.efSearch) (hheads : HeadsLeast s) :
    ∀ c' ∈ frontier s, exactDistance S c.indextid ≤ c'.lb := by
  intro c' hc'
  obtain ⟨hlt, hsmall⟩ := bound_lt_of_gate hbuf h hbase hb hgate hbudget
    fun h0 => Multiset.notMem_zero c' (h0 ▸ hc')
  calc exactDistance S c.indextid
      ≤ CDouble.min (headDistance s.R) (rxDist S s) :=
        hp.le_bound h hbase hb hlb (hlt.trans hsmall)
    _ ≤ CDouble.min (headLb s.C) (headLb s.Cm) := hlt.le
    _ ≤ c'.lb := hheads c' hc'

/-! ### Calls -/

/-- A call that returns a row ends with its emission. -/
theorem nextLoop_emits {bound fuel n : Nat} {t : Tid} (hfuel : ChainFuel H S bound)
    (hf : fuel > bound) (h : Inv S base es s) (hloop : nextLoop S fuel n s = some (some t, s')) :
    ∃ s₁ c, Inv S base es s₁ ∧ expansionGate S s₁ = false ∧ Pops S s₁ c s' ∧
      Inv S base (es ++ [c.indextid]) s' ∧ t = heapTid S c.indextid := by
  induction n generalizing s with
  | zero => cases hloop
  | succ n ih =>
    obtain ⟨o, es', s₁, hit, hstep⟩ := iterate_spec hfuel h
    rw [nextLoop, hit fuel hf] at hloop
    cases hstep with
    | expand _ hinv _ => exact ih hinv hloop
    | rescore _ _ hinv _ => exact ih hinv hloop
    | emit hg hp hinv hl =>
      rename_i c
      cases hloop
      exact ⟨s, c, h, hg, hp, hinv, rfl⟩
    | finish _ => cases hloop

/-- After `k` calls the next one returns no row, or one that no candidate queued in `s'`,
where it leaves the stream, beats; provided that budget is left and no candidate there is
below the heads. -/
def EmitsUnbeaten (H : PairingHeap) (S : Stream V Q ℝ) (k : Nat) : Prop :=
  ∃ (fuel₀ : Nat) (s₀ s s' : State H ℝ) (es : List Tid) (o : Option Tid),
    (∀ fuel ≥ fuel₀, t2StreamBegin S fuel = some s₀ ∧
      calls S fuel k s₀ = some (es.map (heapTid S), s) ∧ t2StreamNext S fuel s = some (o, s')) ∧
    ∀ t, o = some t → ∃ u, t = heapTid S u ∧ returned S u = true ∧ (es ++ [u]).Nodup ∧
      (s'.nExpansions < S.efSearch → HeadsLeast s' →
        ∀ c ∈ frontier s', exactDistance S u ≤ c.lb)

theorem emitsUnbeaten_of_serves (hS : Serves S) (hbuf : S.settings.bufferedEmission = false)
    (hb : DistancesBelow S) (hlb : LbBelow S) (k : Nat) : EmitsUnbeaten H S k := by
  cases hentry : S.index.metaPage.hasEntry with
  | false =>
    let s : State H ℝ := { State.empty with exhausted := true }
    refine ⟨0, s, s, s, [], none, fun fuel _ => ⟨?_, calls_exhausted S fuel rfl k, ?_⟩,
      fun t ht => by cases ht⟩
    · rw [t2StreamBegin, hentry]
      rfl
    · rw [t2StreamNext, if_pos rfl]
  | true =>
    obtain ⟨n₀, base, hbase, e, he⟩ := baseEntry_spec hS hentry
    obtain ⟨s₀, hseed, hinv⟩ := seed_inv (H := H) he
    obtain ⟨bound, hfuel⟩ := exists_chainFuel (H := H) hS
    obtain ⟨n₁, es, s, b, hcalls, hinv', -⟩ := calls_spec hfuel k hinv
    rw [List.nil_append] at hinv'
    have hbegin : ∀ fuel ≥ n₀, t2StreamBegin S fuel = some s₀ := fun fuel hf => by
      rw [t2StreamBegin, hentry, hbase fuel hf]
      exact hseed
    cases b with
    | true =>
      exact ⟨n₀ + n₁, s₀, _, _, es, none, fun fuel hf => ⟨hbegin fuel (by omega),
        hcalls fuel (by omega), by rw [t2StreamNext, if_pos rfl]⟩, fun t ht => by cases ht⟩
    | false =>
      have hs : ({ s with exhausted := false } : State H ℝ) = s := by
        rw [← hinv'.running]
      rw [hs] at hcalls
      obtain ⟨n₂, o, s', hnext, -⟩ := t2StreamNext_spec hfuel hinv'
      refine ⟨n₀ + n₁ + n₂ + bound + 1, s₀, s, s', es, o, fun fuel hf => ⟨hbegin fuel (by omega),
        hcalls fuel (by omega), hnext fuel (by omega)⟩, ?_⟩
      rintro t rfl
      have hloop := hnext (n₂ + bound + 1) (by omega)
      rw [t2StreamNext, hinv'.running, if_neg Bool.false_ne_true] at hloop
      obtain ⟨s₁, c, hinv₁, hgate, hp, hinv₂, ht⟩ :=
        nextLoop_emits hfuel (by omega) hinv' hloop
      obtain ⟨-, -, hC, hCm, hn⟩ := hp.remaining
      refine ⟨c.indextid, ht, (hinv₂.rows.2 c.indextid (by simp)).2, hinv₂.rows.1, fun hbudget hheads c' hc' => ?_⟩
      refine hp.unbeaten hbuf hinv₁ ⟨n₀, hbase n₀ le_rfl⟩ hb hlb hgate (hn ▸ hbudget) ?_ c' ?_
      · unfold HeadsLeast frontier at hheads ⊢
        rw [hC, hCm] at hheads
        exact hheads
      · unfold frontier at hc' ⊢
        rwa [hC, hCm] at hc'

/-- Without approximations the heads have the least bounds. -/
theorem Inv.headsLeast (h : Inv S base es s) (hap : S.approx = false) : HeadsLeast s :=
  headsLeast_of_monotone monotone_id fun c hc => by
    obtain ⟨e, hcand⟩ := h.candidates c hc
    obtain ⟨hd, hlb⟩ := hcand.distance.exact hap hcand.element
    rw [hlb, ← hd]
    rfl

end Eager

/-! ### Scans of coded vectors -/

section Coded
variable {S : Stream (List ℝ) Sq8Code ℝ}

theorem sq8Encode_scale (x : List ℝ) : 0 ≤ (sq8Encode x).scale := by
  cases x with
  | nil => simp [sq8Encode, sq8Hi, sq8Lo]
  | cons a x => exact sq8Encode_scale_nonneg (by simp)

/-- The bound of a code is below its distance. -/
theorem inlineLb_le_sq8 (o : Opclass) (query v : List ℝ) (metaDims : Nat) :
    t2InlineLb o query metaDims (t2Sq8Distance o query metaDims (sq8Encode v)) (sq8Encode v) ≤
      t2Sq8Distance o query metaDims (sq8Encode v) := by
  have hscale : 0 ≤ 0.5 * (sq8Encode v).scale := mul_nonneg (by norm_num) (sq8Encode_scale v)
  unfold t2InlineLb t2Sq8Distance
  cases sq8Direct o query metaDims with
  | none => exact le_rfl
  | some fn =>
    cases fn with
    | negIp => exact sub_le_self _ (mul_nonneg hscale (Finset.sum_nonneg fun i _ => abs_nonneg _))
    | l2sq =>
      have hnonneg : 0 ≤ distL2sqSq8 metaDims (sq8Encode v) query :=
        Finset.sum_nonneg fun i _ => sq_nonneg _
      dsimp only [DistFn.sq8]
      by_cases hlo : √(max (distL2sqSq8 metaDims (sq8Encode v) query) 0) -
          0.5 * (sq8Encode v).scale * √metaDims > 0
      · rw [if_pos hlo]
        have hle := sub_le_self (√(max (distL2sqSq8 metaDims (sq8Encode v) query) 0))
          (mul_nonneg hscale (Real.sqrt_nonneg (metaDims : ℝ)))
        calc _ ≤ √(max (distL2sqSq8 metaDims (sq8Encode v) query) 0) *
              √(max (distL2sqSq8 metaDims (sq8Encode v) query) 0) := mul_self_le_mul_self hlo.le hle
          _ = max (distL2sqSq8 metaDims (sq8Encode v) query) 0 :=
            Real.mul_self_sqrt (le_max_right _ _)
          _ = _ := max_eq_left hnonneg
      · rw [if_neg hlo]
        exact hnonneg

theorem Coded.lbBelow {o : Opclass} {direct : Bool} {query : List ℝ} {dims : Nat}
    (hkernels : S.kernels = Kernels.ofOpclass o direct query dims) (h : Coded S dims) :
    LbBelow S := by
  intro base t d lb hd e he
  cases hd with
  | page _ _ => exact le_rfl
  | hit hh =>
    rw [h.hit hh he, hkernels]
    exact inlineLb_le_sq8 o query e.vec dims
  | entry hon hentry hv =>
    rw [h.entry hon hentry hv he, hkernels]
    exact inlineLb_le_sq8 o query e.vec dims

/-- **Eager emission**, with any mixture of codes and pages: while budget is left, no queued
candidate beats the row that a call returns, if the heads of the queues have the least lower
bounds. -/
theorem eager_emission (H : PairingHeap) (settings : Settings) (fmgr : Fmgr) (o : Opclass)
    (scanDirectDist : Bool) (query : List ℝ)
    (cache : Option (Tid → Option (CodeCacheHit Sq8Code))) (r : Relation (List ℝ) Sq8Code)
    (keys : List ScanKey) (efSearch : Nat) (hr : r.WellFormed)
    (hinline : r.metaPage.inlineVectors = true → r.InlineWellFormed)
    (hcache : CacheAgrees cache r) (hbuf : settings.bufferedEmission = false)
    (hcoded : Coded (Stream.ofOpclass settings fmgr o scanDirectDist query cache r keys efSearch)
      r.metaPage.dimensions)
    (hbelow : DistancesBelow
      (Stream.ofOpclass settings fmgr o scanDirectDist query cache r keys efSearch)) (k : Nat) :
    EmitsUnbeaten H (Stream.ofOpclass settings fmgr o scanDirectDist query cache r keys efSearch) k :=
  emitsUnbeaten_of_serves (serves_ofIndex settings fmgr _ keys efSearch hr hinline hcache) hbuf
    hbelow (hcoded.lbBelow rfl) k

end Coded

/-! ### A candidate behind the head -/

attribute [local instance] atLeastTwo_two atLeastTwo_four

/-- `vector_ip_ops`. -/
noncomputable def vectorIpOps : Opclass :=
  ⟨true, some "vector_negative_inner_product", fun v w => distNegIp v.length v w⟩

/-- A row at (-2, -2) with two neighbors that do not pass: (-3, -3), whose code is exact,
and (-4, y), whose coordinates are coded up to a rounding that grows with `y`. -/
def skewedIndex (y : ℝ) : Relation (List ℝ) Sq8Code where
  metaPage := ⟨2, 2, 1, 2, 0, false, 0⟩
  pages := [⟨[.neighbor ⟨[⟨1, 4⟩, ⟨1, 6⟩, Tid.invalid, Tid.invalid], none⟩,
    .element ⟨0, false, Vector.replicate _ ⟨7, 1⟩, ⟨1, 1⟩, 1, [-2, -2]⟩,
    .neighbor lonelyNeighbors,
    .element ⟨0, false, Vector.replicate _ ⟨7, 2⟩, ⟨1, 3⟩, 2, [-3, -3]⟩,
    .neighbor lonelyNeighbors,
    .element ⟨0, false, Vector.replicate _ ⟨7, 3⟩, ⟨1, 5⟩, 2, [-4, y]⟩], 48, 7400⟩]

theorem skewedIndex_elements (y : ℝ) : (skewedIndex y).elements =
    [(⟨1, 2⟩, ⟨0, false, Vector.replicate _ ⟨7, 1⟩, ⟨1, 1⟩, 1, [-2, -2]⟩),
      (⟨1, 4⟩, ⟨0, false, Vector.replicate _ ⟨7, 2⟩, ⟨1, 3⟩, 2, [-3, -3]⟩),
      (⟨1, 6⟩, ⟨0, false, Vector.replicate _ ⟨7, 3⟩, ⟨1, 5⟩, 2, [-4, y]⟩)] := rfl

theorem skewedIndex_wellFormed (y : ℝ) : (skewedIndex y).WellFormed := of_decide_eq_true rfl

/-- The cache has both neighbors. -/
noncomputable def skewedHits (y : ℝ) : List (Tid × CodeCacheHit Sq8Code) :=
  [(⟨1, 4⟩, ⟨⟨7, 2⟩, ⟨1, 3⟩, 0, false, 2, sq8Encode [-3, -3]⟩),
    (⟨1, 6⟩, ⟨⟨7, 3⟩, ⟨1, 5⟩, 0, false, 2, sq8Encode [-4, y]⟩)]

theorem skewedHits_agree (y : ℝ) : CacheAgrees (some (answers (skewedHits y))) (skewedIndex y) := by
  refine cacheAgrees_answers fun x hx e he => ?_
  simp only [skewedHits, List.mem_cons, List.not_mem_nil, or_false] at hx
  obtain rfl | rfl := hx
  all_goals
    cases he
    exact ⟨rfl, rfl, rfl, fun h => by cases h⟩

/-- The scan for (1, 0) where the filter column is 1. -/
noncomputable def skewedScan (y : ℝ) : Stream (List ℝ) Sq8Code ℝ :=
  Stream.ofOpclass ⟨false, false, true, true, true, true, true, none⟩ Fmgr.builtin vectorIpOps true
    [1, 0] (some (answers (skewedHits y))) (skewedIndex y) [⟨false, ⟨.equal, .int4⟩, 1⟩] 40

theorem skewedScan_page (y a b : ℝ) : (skewedScan y).kernels.etupDistance [a, b] = -a := by
  show t2EtupDistance vectorIpOps true [1, 0] [a, b] = -a
  simp [t2EtupDistance, resolveDirectDist, vectorIpOps, DistFn.dist, distNegIp, Finset.sum_range_succ]

theorem skewedScan_kernels (y : ℝ) : (skewedScan y).kernels.etupDistance [-2, -2] = 2 ∧
    (skewedScan y).kernels.sq8Distance (sq8Encode [-3, -3]) = 3 ∧
    (skewedScan y).kernels.inlineLb 3 (sq8Encode [-3, -3]) = 3 := by
  have hdirect : sq8Direct vectorIpOps [1, 0] 2 = some .negIp := rfl
  refine ⟨?_, ?_, ?_⟩
  · rw [skewedScan_page, neg_neg]
  · show t2Sq8Distance vectorIpOps [1, 0] 2 _ = 3
    simp [t2Sq8Distance, hdirect, DistFn.sq8, distNegIpSq8, Finset.sum_range_succ, Sq8Code.get,
      sq8Encode, sq8Lo, sq8Hi]
  · show t2InlineLb vectorIpOps [1, 0] 2 3 _ = 3
    simp [t2InlineLb, hdirect, sq8Encode, sq8Lo, sq8Hi]

/-- The distance of the code of (-4, y), and its bound. -/
def Bounded (y lb : ℝ) : Prop :=
  (skewedScan y).kernels.sq8Distance (sq8Encode [-4, y]) = 4 ∧
    (skewedScan y).kernels.inlineLb 4 (sq8Encode [-4, y]) = lb

theorem bounded_far : Bounded 2546 (-1) := by
  have hdirect : sq8Direct vectorIpOps [1, 0] 2 = some .negIp := rfl
  constructor
  · show t2Sq8Distance vectorIpOps [1, 0] 2 _ = 4
    simp [t2Sq8Distance, hdirect, DistFn.sq8, distNegIpSq8, Finset.sum_range_succ, Sq8Code.get,
      sq8Encode, sq8Lo, sq8Hi]
    norm_num
  · show t2InlineLb vectorIpOps [1, 0] 2 4 _ = -1
    simp [t2InlineLb, hdirect, sq8Encode, sq8Lo, sq8Hi, Finset.sum_range_succ]
    norm_num

theorem bounded_near : Bounded 251 3.5 := by
  have hdirect : sq8Direct vectorIpOps [1, 0] 2 = some .negIp := rfl
  constructor
  · show t2Sq8Distance vectorIpOps [1, 0] 2 _ = 4
    simp [t2Sq8Distance, hdirect, DistFn.sq8, distNegIpSq8, Finset.sum_range_succ, Sq8Code.get,
      sq8Encode, sq8Lo, sq8Hi]
    norm_num
  · show t2InlineLb vectorIpOps [1, 0] 2 4 _ = 3.5
    simp [t2InlineLb, hdirect, sq8Encode, sq8Lo, sq8Hi, Finset.sum_range_succ]
    norm_num

/-- The row, as a candidate with distance `d` and as a result. -/
def skewedSeed (d : ℝ) : Elem ℝ := ⟨⟨1, 2⟩, Tid.invalid, d, d, ⟨1, 1⟩, 0, true⟩

def skewedRow (d lb : ℝ) : Elem ℝ := ⟨⟨1, 2⟩, ⟨7, 1⟩, d, lb, Tid.invalid, 0, false⟩

/-- The neighbors. -/
def skewedNear (d lb : ℝ) : Elem ℝ := ⟨⟨1, 4⟩, Tid.invalid, d, lb, ⟨1, 3⟩, 0, true⟩

def skewedFar (d lb : ℝ) : Elem ℝ := ⟨⟨1, 6⟩, Tid.invalid, d, lb, ⟨1, 5⟩, 0, true⟩

/-- The stream before the first expansion, and after it, with the row not yet rescored
or rescored. -/
def skewedStart (C : List (Elem ℝ)) (d : ℝ) : State PairingHeap.list ℝ :=
  ⟨C, [], [skewedRow d d], [], [⟨1, 2⟩], 0, 0, false, []⟩

def skewedState (lb : ℝ) (R Rx : List (Elem ℝ)) (k : Nat) : State PairingHeap.list ℝ :=
  ⟨[skewedNear 3 3, skewedFar 4 lb], [], R, Rx, [⟨1, 6⟩, ⟨1, 4⟩, ⟨1, 2⟩], 1, k, false, [⟨1, 2⟩]⟩

theorem below_small {x : ℝ} (h : x ≤ 4) : Below x := by
  have hmax : (4 : ℝ) < CDouble.dblMax := by
    show (4 : ℝ) < (2 ^ 53 - 1) * 2 ^ 971
    calc (4 : ℝ) < (2 ^ 53 - 1) * 1 := by norm_num
      _ ≤ _ := mul_le_mul_of_nonneg_left (one_le_pow₀ (by norm_num)) (by norm_num)
  simpa [Below] using h.trans_lt hmax

theorem two_lt_max : CDouble.lt (2 : ℝ) CDouble.dblMax = true := below_small (by norm_num)

variable {y lb : ℝ}

theorem skewed_begin (y : ℝ) :
    t2StreamBegin (skewedScan y) 3 = some (skewedStart [skewedSeed 2] 2) := by
  have hload : t2StreamBegin (skewedScan y) 3 = some (skewedStart
    [skewedSeed ((skewedScan y).kernels.etupDistance [-2, -2])]
    ((skewedScan y).kernels.etupDistance [-2, -2])) := rfl
  rw [hload, (skewedScan_kernels y).1]

/-- The row is expanded: both neighbors are queued, the nearer one first. -/
theorem skewed_expand (hfar : Bounded y lb) :
    iterate (skewedScan y) 3 (skewedStart [skewedSeed 2] 2) =
      some (.continue, skewedState lb [skewedRow 2 2] [] 0) := by
  obtain ⟨-, h1, hl1⟩ := skewedScan_kernels y
  obtain ⟨h2, hl2⟩ := hfar
  have hgate : expansionGate (skewedScan y) (skewedStart [skewedSeed 2] 2) = true := by
    show (!CDouble.eq (CDouble.min (2 : ℝ) CDouble.dblMax) CDouble.dblMax && decide (0 < 40) &&
      (false || CDouble.le (CDouble.min (2 : ℝ) CDouble.dblMax) (CDouble.min 2 CDouble.dblMax))) = true
    rw [CDouble.min_dblMax_right two_lt_max, CDouble.ne_of_lt two_lt_max]
    simp
  have hpop : popCandidate (skewedScan y) (skewedStart [skewedSeed 2] 2) =
      some (skewedSeed 2, skewedStart [] 2) := by
    have hchoose : choosesCm (skewedScan y) (skewedStart [skewedSeed 2] 2) = false := by
      show (!(true && CDouble.le (2 : ℝ) CDouble.dblMax)) = false
      rw [CDouble.le_of_lt two_lt_max]
      rfl
    rw [popCandidate, hchoose]
    rfl
  have hexpand : expand (skewedScan y) 3 (skewedStart [] 2) (skewedSeed 2) =
      some { skewedState lb [skewedRow 2 2] [] 0 with
        C := [skewedNear ((skewedScan y).kernels.sq8Distance (sq8Encode [-3, -3]))
            ((skewedScan y).kernels.inlineLb ((skewedScan y).kernels.sq8Distance (sq8Encode [-3, -3]))
              (sq8Encode [-3, -3])),
          skewedFar ((skewedScan y).kernels.sq8Distance (sq8Encode [-4, y]))
            ((skewedScan y).kernels.inlineLb ((skewedScan y).kernels.sq8Distance (sq8Encode [-4, y]))
              (sq8Encode [-4, y]))]
        nExpansions := 0, expanded := [] } := rfl
  rw [h1, hl1, h2, hl2] at hexpand
  rw [iterate, if_pos hgate, expandOne, hpop]
  simp only [Option.bind_eq_bind, Option.bind_some, hexpand]
  rfl

/-- The head of `C` is the nearer neighbor. -/
theorem skewed_head (lb : ℝ) (R Rx : List (Elem ℝ)) (k : Nat) :
    PairingHeap.first PairingHeap.list (skewedState lb R Rx k).C = some (skewedNear 3 3) := by
  have hafter : pqCmpMin (skewedNear 3 3) (skewedFar 4 lb) = false := by
    show decide ((4 : ℝ) < 3) = false
    norm_num
  show (some (PairingHeap.selectFirst pqCmpMin (skewedNear 3 3) [skewedFar 4 lb])).map Prod.fst = _
  rw [PairingHeap.selectFirst, hafter]
  rfl

/-- So the gate is shut by its bound, whatever the other one's is. -/
theorem skewed_gate (y : ℝ) {R Rx : List (Elem ℝ)} {k : Nat}
    (h : CDouble.min (headDistance (skewedState lb R Rx k).R)
      (headDistance (skewedState lb R Rx k).Rx) = 2) :
    expansionGate (skewedScan y) (skewedState lb R Rx k) = false := by
  have hC : headDistance (skewedState lb R Rx k).C = 3 := by rw [headDistance, skewed_head]; rfl
  have hlb : headLb (skewedState lb R Rx k).C = 3 := by rw [headLb, skewed_head]; rfl
  have hbound : CDouble.min (headDistance (skewedState lb R Rx k).R)
      (rxDist (skewedScan y) (skewedState lb R Rx k)) = 2 := h
  have hCm : headLb (skewedState lb R Rx k).Cm = CDouble.dblMax := rfl
  have hthree : CDouble.lt (3 : ℝ) CDouble.dblMax = true := below_small (by norm_num)
  simp only [expansionGate, hlb, hbound, hCm, CDouble.min_dblMax_right hthree]
  have hle : CDouble.le (3 : ℝ) 2 = false := by
    show decide ((3 : ℝ) ≤ 2) = false
    norm_num
  rw [hle]
  simp [skewedScan, Stream.ofOpclass, Stream.ofIndex]

theorem skewed_rescore (y lb : ℝ) : iterate (skewedScan y) 3 (skewedState lb [skewedRow 2 2] [] 0) =
    some (.continue, skewedState lb [] [skewedRow 2 2] 1) := by
  have hgate := @skewed_gate lb y [skewedRow 2 2] [] 0 (CDouble.min_dblMax_right two_lt_max)
  have hrerank : rerankGate (skewedScan y) (skewedState lb [skewedRow 2 2] [] 0) = true := by
    show (true && (CDouble.le (2 : ℝ) CDouble.dblMax || _)) = true
    rw [CDouble.le_of_lt two_lt_max]
    rfl
  have hload : t2RerankOne (skewedScan y) (skewedState lb [skewedRow 2 2] [] 0) =
      some (skewedState lb [] [skewedRow ((skewedScan y).kernels.etupDistance [-2, -2]) 2] 1) := rfl
  rw [(skewedScan_kernels y).1] at hload
  have happrox : (skewedScan y).approx = true := rfl
  rw [iterate, hgate, if_neg Bool.false_ne_true, if_pos happrox, if_pos hrerank, hload]
  rfl

theorem skewed_emit (y lb : ℝ) : iterate (skewedScan y) 3 (skewedState lb [] [skewedRow 2 2] 1) =
    some (.emit ⟨7, 1⟩, skewedState lb [] [] 0) := by
  have hgate := @skewed_gate lb y [] [skewedRow 2 2] 1 (CDouble.min_dblMax_left two_lt_max)
  rw [iterate, hgate, if_neg Bool.false_ne_true]
  rfl

/-- The row is expanded, rescored and returned; both neighbors stay queued. -/
theorem skewed_next (hfar : Bounded y lb) :
    t2StreamNext (skewedScan y) 3 (skewedStart [skewedSeed 2] 2) =
      some (some ⟨7, 1⟩, skewedState lb [] [] 0) := by
  show nextLoop (skewedScan y) 3 3 _ = _
  rw [nextLoop, skewed_expand hfar]
  dsimp only
  rw [nextLoop, skewed_rescore]
  dsimp only
  rw [nextLoop, skewed_emit]

theorem frontier_skewedState (lb : ℝ) :
    frontier (skewedState lb [] [] 0) = {skewedNear 3 3, skewedFar 4 lb} :=
  add_zero (([skewedNear 3 3, skewedFar 4 lb] : List (Elem ℝ)) : Multiset (Elem ℝ))

/-- A bound of 3.5 behind a bound of 3: the call returns the row at distance 2, and it leaves two
candidates queued. -/
theorem eager_emission_skewed : EmitsUnbeaten PairingHeap.list (skewedScan 251) 0 ∧
    ∃ s₀ s' : State PairingHeap.list ℝ, t2StreamBegin (skewedScan 251) 3 = some s₀ ∧
      t2StreamNext (skewedScan 251) 3 s₀ = some (some ⟨7, 1⟩, s') ∧
      s'.nExpansions < (skewedScan 251).efSearch ∧ HeadsLeast s' ∧
      frontier s' = {skewedNear 3 3, skewedFar 4 3.5} := by
  constructor
  · obtain ⟨-, h1, hl1⟩ := skewedScan_kernels 251
    obtain ⟨h2, hl2⟩ := bounded_near
    have hpages : ∀ x ∈ (skewedScan 251).index.elements,
        Below ((skewedScan 251).kernels.etupDistance x.2.vec) := by
      show ∀ x ∈ (skewedIndex 251).elements, _
      rw [skewedIndex_elements]
      simp only [List.forall_mem_cons, skewedScan_page, neg_neg]
      refine ⟨below_small ?_, below_small ?_, below_small ?_, by simp⟩ <;> norm_num
    have hhits : ∀ x ∈ skewedHits 251, Below ((skewedScan 251).kernels.sq8Distance x.2.code) ∧
        Below ((skewedScan 251).kernels.inlineLb ((skewedScan 251).kernels.sq8Distance x.2.code)
          x.2.code) := by
      simp only [skewedHits, List.forall_mem_cons, h1, hl1, h2, hl2]
      refine ⟨⟨below_small ?_, below_small ?_⟩, ⟨below_small ?_, below_small ?_⟩, by simp⟩ <;>
        norm_num
    refine eager_emission PairingHeap.list _ _ _ _ _ _ (skewedIndex 251) _ 40
      (skewedIndex_wellFormed 251) (fun h => by cases h) (skewedHits_agree 251) rfl
      ⟨fun he => ?_, fun {t hit e} hhit he => ?_, fun hon => by cases hon⟩
      (distancesBelow_answers rfl rfl hpages hhits) 0
    · have hdims : ∀ x ∈ (skewedIndex 251).elements, x.2.vec.length = 2 := by
        simp [skewedIndex_elements]
      exact Relation.forall_elements.mp hdims he
    · have hmem := mem_of_answers hhit
      simp only [skewedHits, List.mem_cons, List.not_mem_nil, or_false, Prod.mk.injEq] at hmem
      obtain ⟨rfl, rfl⟩ | ⟨rfl, rfl⟩ := hmem
      all_goals
        cases he
        rfl
  · refine ⟨_, _, skewed_begin 251, skewed_next bounded_near, show 1 < 40 by decide, fun c hc => ?_,
      frontier_skewedState _⟩
    have hC : headLb (skewedState 3.5 [] [] 0).C = 3 := by rw [headLb, skewed_head]; rfl
    have hCm : headLb (skewedState 3.5 [] [] 0).Cm = CDouble.dblMax := rfl
    rw [hC, hCm, CDouble.min_dblMax_right (below_small (by norm_num))]
    rw [frontier_skewedState, Multiset.insert_eq_cons, Multiset.mem_cons,
      Multiset.mem_singleton] at hc
    rcases hc with rfl | rfl
    · exact le_refl (3 : ℝ)
    · show (3 : ℝ) ≤ 3.5
      norm_num

/-- The row leaves at distance 2, and (-4, 2546) stays behind with a bound of -1. -/
theorem behind_the_head : (skewedIndex 2546).WellFormed ∧ ∃ s₀ s' : State PairingHeap.list ℝ,
    t2StreamBegin (skewedScan 2546) 3 = some s₀ ∧
    t2StreamNext (skewedScan 2546) 3 s₀ = some (some ⟨7, 1⟩, s') ∧
    heapTid (skewedScan 2546) ⟨1, 2⟩ = ⟨7, 1⟩ ∧ s'.nExpansions < (skewedScan 2546).efSearch ∧
    ∃ c ∈ frontier s', c.lb < exactDistance (skewedScan 2546) ⟨1, 2⟩ := by
  have hexact : exactDistance (skewedScan 2546) ⟨1, 2⟩ = 2 := by
    rw [← (skewedScan_kernels 2546).1]
    rfl
  refine ⟨skewedIndex_wellFormed 2546, _, skewedState (-1) [] [] 0, skewed_begin 2546,
    skewed_next bounded_far, rfl, show 1 < 40 by decide, skewedFar 4 (-1), ?_, ?_⟩
  · rw [frontier_skewedState]
    simp
  · rw [hexact]
    show (-1 : ℝ) < 2
    norm_num

end PgAcorn.Scan
