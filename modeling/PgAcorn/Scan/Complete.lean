import PgAcorn.Scan.Descent

/-! The rows a scan returns.

A stream that is called until it returns `false` has emitted one row for each
discovered, live, passing element (`EmitsDiscovered`), provided the distances and
lower bounds it works with stay below `DBL_MAX`. -/
namespace PgAcorn.Scan
open Library
open PgAcorn.Filter (Fmgr ScanKey Datum)

section Complete
variable {V Q D : Type} [CDouble D] {H : PairingHeap}

/-- A distance the loop does not take for an empty heap. -/
def Below (d : D) : Prop := CDouble.lt d CDouble.dblMax = true

/-- All distances and lower bounds with which the scan may discover an element it
can reach are below `DBL_MAX`. -/
def DistancesBelow (S : Stream V Q D) : Prop :=
  ∀ {base : Tid}, (∃ fuel, baseEntry S fuel = some base) → ∀ {t : Tid} {d lb : D},
    S.index.Reachable base t → MayDiscover S base t d lb → Below d ∧ Below lb

/-- The emitted rows `out` of a stream from `base` that has ended in `s`. -/
structure EmitsDiscovered (S : Stream V Q D) (base : Tid) (out : List Tid) (s : State H D) :
    Prop where
  budget : s.expanded.length ≤ S.efSearch
  /-- One row for each discovered, live, passing element. -/
  rows : ∃ disc : List Tid, disc.Nodup ∧
    (∀ t, t ∈ disc ↔ Discovered S.index base s.expanded t) ∧
    out.Perm ((disc.filter (returned S)).map (heapTid S))
  /-- With enough budget, one row for each reachable, live, passing element. -/
  reachable : {t | S.index.Reachable base t}.ncard ≤ S.efSearch →
    ∃ disc : List Tid, disc.Nodup ∧ (∀ t, t ∈ disc ↔ S.index.Reachable base t) ∧
    out.Perm ((disc.filter (returned S)).map (heapTid S))

/-- The scan begins, its calls return `false` after finitely many rows, and the
rows are those discovered; an index without entry point has none. -/
def ScanCorrect (H : PairingHeap) (S : Stream V Q D) : Prop :=
  ∃ (fuel₀ : Nat) (s₀ s : State H D) (out : List Tid),
    (∀ fuel ≥ fuel₀, t2StreamBegin S fuel = some s₀ ∧ drain S fuel fuel s₀ = some (out, s)) ∧
    (S.index.metaPage.hasEntry = true →
      ∃ base, (∀ fuel ≥ fuel₀, baseEntry S fuel = some base) ∧ EmitsDiscovered S base out s) ∧
    (S.index.metaPage.hasEntry = false → out = [])

/-! ### Heads below the sentinel -/

theorem headDistance_below {after : Elem D → Elem D → Bool} {h : H.Heap after}
    (hb : ∀ c ∈ H.contents h, Below c.distance) :
    headDistance h = CDouble.dblMax ∨ Below (headDistance h) := by
  unfold headDistance
  cases hf : H.first h with
  | none => exact .inl rfl
  | some c => exact .inr (hb c (PairingHeap.first_mem hf))

theorem headLb_below {after : Elem D → Elem D → Bool} {h : H.Heap after}
    (hb : ∀ c ∈ H.contents h, Below c.lb) :
    headLb h = CDouble.dblMax ∨ Below (headLb h) := by
  unfold headLb
  cases hf : H.first h with
  | none => exact .inl rfl
  | some c => exact .inr (hb c (PairingHeap.first_mem hf))

variable {S : Stream V Q D} {base : Tid} {es : List Tid} {s : State H D}

theorem Inv.candidate_below (h : Inv S base es s) (hbase : ∃ fuel, baseEntry S fuel = some base)
    (hb : DistancesBelow S) : ∀ c ∈ Scan.frontier s, Below c.distance ∧ Below c.lb := by
  intro c hc
  obtain ⟨e, hcand⟩ := h.candidates c hc
  have hmem : c.indextid ∈ tids (Scan.frontier s) + (s.expanded : Multiset Tid) :=
    Multiset.mem_add.mpr (.inl (Multiset.mem_map_of_mem _ hc))
  rw [h.frontier] at hmem
  exact hb hbase (h.reachable _ hmem) hcand.distance

/-- No queued result is left behind at the end. -/
theorem Inv.results_ended (h : Inv S base es s) (hbase : ∃ fuel, baseEntry S fuel = some base)
    (hb : DistancesBelow S) (he : Ended S s) : H.contents s.R = 0 ∧ H.contents s.Rx = 0 := by
  cases hap : S.approx with
  | false => exact ⟨he.results hap, h.exact hap⟩
  | true =>
    obtain ⟨hRx, hgate⟩ := he.rerank hap
    refine ⟨?_, hRx⟩
    by_contra hne
    obtain ⟨c, hc, hmem⟩ := PairingHeap.exists_first hne
    obtain ⟨hreach, e, hres⟩ := h.results c hmem
    have hlb : Below c.lb := (hb hbase hreach hres.distance).2
    -- the head's lower bound is below the sentinel that stands for an empty `Rx`
    have hle : CDouble.le (headLb s.R) (rxDist S s) = true := by
      rw [headLb, hc, rxDist, hap, if_pos rfl, headDistance_empty hRx]
      exact CDouble.le_of_lt hlb
    have hisEmpty : H.isEmpty s.R = false := by
      rw [← Bool.not_eq_true, PairingHeap.isEmpty_iff]
      exact hne
    simp [rerankGate, hle, hisEmpty] at hgate

/-- The heads of a frontier below the sentinel are below it. -/
theorem heads_below (hbelow : ∀ c ∈ Scan.frontier s, Below c.distance ∧ Below c.lb)
    (hne : Scan.frontier s ≠ 0) :
    Below (CDouble.min (headDistance s.C) (headDistance s.Cm)) ∧
      Below (CDouble.min (headLb s.C) (headLb s.Cm)) := by
  have hC : ∀ c ∈ H.contents s.C, c ∈ Scan.frontier s := fun c hc => Multiset.mem_add.mpr (.inl hc)
  have hCm : ∀ c ∈ H.contents s.Cm, c ∈ Scan.frontier s := fun c hc => Multiset.mem_add.mpr (.inr hc)
  have hsome : (∃ c, H.first s.C = some c ∧ c ∈ H.contents s.C) ∨
      (∃ c, H.first s.Cm = some c ∧ c ∈ H.contents s.Cm) := by
    by_cases h0 : H.contents s.C = 0
    · exact .inr (PairingHeap.exists_first fun h1 => hne (by rw [Scan.frontier, h0, h1, add_zero]))
    · exact .inl (PairingHeap.exists_first h0)
  constructor
  · refine CDouble.min_lt
      (headDistance_below fun c hc => (hbelow c (hC c hc)).1).symm
      (headDistance_below fun c hc => (hbelow c (hCm c hc)).1).symm ?_
    rcases hsome with ⟨c, hc, hmem⟩ | ⟨c, hc, hmem⟩
    · left
      rw [headDistance, hc]
      exact (hbelow c (hC c hmem)).1
    · right
      rw [headDistance, hc]
      exact (hbelow c (hCm c hmem)).1
  · refine CDouble.min_lt
      (headLb_below fun c hc => (hbelow c (hC c hc)).2).symm
      (headLb_below fun c hc => (hbelow c (hCm c hc)).2).symm ?_
    rcases hsome with ⟨c, hc, hmem⟩ | ⟨c, hc, hmem⟩
    · left
      rw [headLb, hc]
      exact (hbelow c (hC c hmem)).2
    · right
      rw [headLb, hc]
      exact (hbelow c (hCm c hmem)).2

/-- A stream that ends with budget left has expanded everything it discovered. -/
theorem Inv.frontier_ended (h : Inv S base es s) (hbase : ∃ fuel, baseEntry S fuel = some base)
    (hb : DistancesBelow S) (he : Ended S s) (hbudget : s.nExpansions < S.efSearch) :
    Scan.frontier s = 0 := by
  by_contra hne
  obtain ⟨hR, hRx⟩ := h.results_ended hbase hb he
  obtain ⟨hdist, hlb⟩ := heads_below (h.candidate_below hbase hb) hne
  have hbound : CDouble.min (headDistance s.R) (rxDist S s) = CDouble.dblMax := by
    rw [rxDist, headDistance_empty hR, headDistance_empty hRx, ite_self, CDouble.min_dblMax]
  have hgate := he.gate
  simp only [expansionGate, hbound, CDouble.ne_of_lt hdist, CDouble.le_of_lt hlb, hbudget,
    Bool.not_false, decide_true, Bool.and_true, Bool.or_true] at hgate
  cases hgate

theorem Inv.expanded_subset (h : Inv S base es s) :
    s.expanded.Nodup ∧ ∀ t ∈ s.expanded, t ∈ s.visited := by
  have hle : (s.expanded : Multiset Tid) ≤ s.visited := by
    rw [← h.frontier]
    exact Multiset.le_add_left _ _
  exact ⟨Multiset.coe_nodup.mp (Multiset.nodup_of_le hle (Multiset.coe_nodup.mpr h.nodup)),
    fun t ht => Multiset.mem_of_le hle ht⟩

/-- With budget for every reachable element, every reachable element is
discovered. -/
theorem Inv.discovered_ended (h : Inv S base es s) (hbase : ∃ fuel, baseEntry S fuel = some base)
    (hb : DistancesBelow S) (he : Ended S s) (hfin : {t | S.index.Reachable base t}.Finite)
    (hef : {t | S.index.Reachable base t}.ncard ≤ S.efSearch) :
    ∀ t, S.index.Reachable base t → t ∈ s.visited := by
  obtain ⟨hnodup, hsub⟩ := h.expanded_subset
  -- everything visited has been expanded
  have hall : ∀ t ∈ s.visited, t ∈ s.expanded := by
    by_cases hbudget : s.nExpansions < S.efSearch
    · have hf := h.frontier
      rw [h.frontier_ended hbase hb he hbudget, tids, Multiset.map_zero, zero_add] at hf
      exact fun t ht => (Multiset.coe_eq_coe.mp hf).mem_iff.mpr ht
    · have hset : (s.expanded.toFinset : Set Tid) = {t | S.index.Reachable base t} := by
        refine Set.eq_of_subset_of_ncard_le (fun t ht => ?_) ?_ hfin
        · exact h.reachable t (hsub t (by simpa using ht))
        · rw [Set.ncard_coe_finset, List.toFinset_card_of_nodup hnodup, h.count]
          omega
      intro t ht
      have : t ∈ (s.expanded.toFinset : Set Tid) := by
        rw [hset]
        exact h.reachable t ht
      simpa using this
  intro t ht
  induction ht with
  | refl => exact (h.visited base).mpr (.inl rfl)
  | tail _ hstep ih => exact (h.visited _).mpr (.inr ⟨_, hall _ ih, hstep⟩)

/-- **The rows of a finished stream** are those of the elements it discovered. -/
theorem Inv.emitsDiscovered (h : Inv S base es s) (hbase : ∃ fuel, baseEntry S fuel = some base)
    (hb : DistancesBelow S) (he : Ended S s) (hfin : {t | S.index.Reachable base t}.Finite) :
    EmitsDiscovered S base (es.map (heapTid S)) { s with exhausted := true } := by
  obtain ⟨hR, hRx⟩ := h.results_ended hbase hb he
  have hes : es.Perm (s.visited.filter (returned S)) := by
    have := h.emitted
    rw [hR, hRx, tids, Multiset.map_zero, Multiset.filter_zero, zero_add, zero_add,
      Multiset.filter_coe, Multiset.coe_eq_coe] at this
    simpa using this
  have hrows := hes.map (heapTid S)
  refine ⟨?_, ⟨s.visited, h.nodup, h.visited, hrows⟩, fun hef =>
    ⟨s.visited, h.nodup, fun t => ⟨h.reachable t, h.discovered_ended hbase hb he hfin hef t⟩, hrows⟩⟩
  show s.expanded.length ≤ S.efSearch
  rw [h.count]
  exact h.budget

/-- A stream that serves its index is correct while distances stay below
`DBL_MAX`. -/
theorem scanCorrect_of_serves (hS : Serves S) (hb : DistancesBelow S) : ScanCorrect H S := by
  cases hentry : S.index.metaPage.hasEntry with
  | false =>
    refine ⟨1, { State.empty with exhausted := true },
      { State.empty with exhausted := true }, [], fun fuel hf => ⟨?_, ?_⟩,
      fun h => absurd (hentry.symm.trans h) (by simp), fun _ => rfl⟩
    · rw [t2StreamBegin, hentry]
      rfl
    · obtain ⟨k, rfl⟩ := Nat.exists_eq_add_of_le hf
      rw [Nat.add_comm 1 k]
      rfl
  | true =>
    obtain ⟨n₀, base, hbase, e, he⟩ := baseEntry_spec hS hentry
    obtain ⟨s₀, hseed, hinv⟩ := seed_inv (H := H) he
    obtain ⟨bound, hfuel⟩ := exists_chainFuel (H := H) hS
    obtain ⟨n₁, es, s, hdrain, hinv', hended⟩ := drain_spec hfuel s₀ hinv
    rw [List.nil_append] at hinv'
    refine ⟨n₀ + n₁, s₀, _, _, fun fuel hf => ⟨?_, hdrain fuel (by omega) fuel (by omega)⟩,
      fun _ => ?_, fun h => absurd (hentry.symm.trans h) (by simp)⟩
    · rw [t2StreamBegin, hentry, hbase fuel (by omega)]
      exact hseed
    · exact ⟨base, fun fuel hf => hbase fuel (by omega),
        hinv'.emitsDiscovered ⟨n₀, hbase n₀ (Nat.le_refl _)⟩ hb hended (hS.index.reachable_finite he)⟩

/-- What the code cache answers about an element has its immutable fields. -/
def CacheAgrees (cache : Option (Tid → Option (CodeCacheHit Q))) (r : Relation V Q) : Prop :=
  ∀ {cc : Tid → Option (CodeCacheHit Q)} {t : Tid} {hit : CodeCacheHit Q} {e : ElementTuple V},
    cache = some cc → cc t = some hit → r.element t = some e →
    hit.nbrtid = e.neighbortid ∧ hit.level = e.level ∧ hit.filterVal = e.filterVal ∧
      (hit.deleted = true → e.deleted = true)

omit [CDouble D] in
theorem serves_ofIndex (settings : Settings) (fmgr : Fmgr) (kernels : Kernels V Q D)
    {cache : Option (Tid → Option (CodeCacheHit Q))} {r : Relation V Q} (keys : List ScanKey)
    (efSearch : Nat) (hr : r.WellFormed)
    (hinline : r.metaPage.inlineVectors = true → r.InlineWellFormed) (hcache : CacheAgrees cache r) :
    Serves (Stream.ofIndex settings fmgr kernels cache r keys efSearch) := by
  refine ⟨hr, rfl, rfl, fun hon => ?_, fun hcc => ?_⟩
  · simp only [Stream.ofIndex, Bool.and_eq_true] at hon
    exact ⟨hinline hon.1.1, by simp [Stream.ofIndex, hon.1.1]⟩
  · simp only [Stream.ofIndex] at hcc
    split at hcc
    · exact hcache hcc
    · cases hcc

/-- **A scan returns exactly the discovered, live, passing elements**, in any
mode and from any mixture of pages, inline entries and cache hits, as long as the
distances it works with are below `DBL_MAX`. -/
theorem scan_correct (H : PairingHeap) (settings : Settings) (fmgr : Fmgr)
    (kernels : Kernels V Q D) (cache : Option (Tid → Option (CodeCacheHit Q)))
    (r : Relation V Q) (keys : List ScanKey) (efSearch : Nat) (hr : r.WellFormed)
    (hinline : r.metaPage.inlineVectors = true → r.InlineWellFormed) (hcache : CacheAgrees cache r)
    (hb : DistancesBelow (Stream.ofIndex settings fmgr kernels cache r keys efSearch)) :
    ScanCorrect H (Stream.ofIndex settings fmgr kernels cache r keys efSearch) :=
  scanCorrect_of_serves (serves_ofIndex settings fmgr kernels keys efSearch hr hinline hcache) hb

/-! ### A code cache as a table -/

/-- The answers of a cache that holds these. -/
def answers (hits : List (Tid × CodeCacheHit Q)) (t : Tid) : Option (CodeCacheHit Q) := hits.lookup t

theorem mem_of_answers {hits : List (Tid × CodeCacheHit Q)} {t : Tid} {hit : CodeCacheHit Q}
    (h : answers hits t = some hit) : (t, hit) ∈ hits := by
  obtain ⟨before, after, rfl, -⟩ := List.lookup_eq_some_iff.mp h
  exact List.mem_append_right _ List.mem_cons_self

omit [CDouble D] in
theorem cacheAgrees_answers {hits : List (Tid × CodeCacheHit Q)} {r : Relation V Q}
    (h : ∀ x ∈ hits, ∀ e ∈ r.element x.1, x.2.nbrtid = e.neighbortid ∧ x.2.level = e.level ∧
      x.2.filterVal = e.filterVal ∧ (x.2.deleted = true → e.deleted = true)) :
    CacheAgrees (some (answers hits)) r := by
  intro cc t hit e hcc hhit he
  obtain rfl := Option.some.inj hcc
  exact h _ (mem_of_answers hhit) e he

/-- A scan without inline vectors discovers elements by their vectors and the codes of the table. -/
theorem distancesBelow_answers {S : Stream V Q D} {hits : List (Tid × CodeCacheHit Q)}
    (hinline : S.inlineOn = false) (hcc : S.cc = some (answers hits))
    (hpages : ∀ x ∈ S.index.elements, Below (S.kernels.etupDistance x.2.vec))
    (hhits : ∀ x ∈ hits, Below (S.kernels.sq8Distance x.2.code) ∧
      Below (S.kernels.inlineLb (S.kernels.sq8Distance x.2.code) x.2.code)) : DistancesBelow S := by
  intro base _ t d lb _ hd
  cases hd with
  | page he _ =>
    have hbelow := Relation.forall_elements.mp hpages he
    exact ⟨hbelow, hbelow⟩
  | hit h =>
    rw [hcc, Option.bind_some] at h
    exact hhits _ (mem_of_answers h)
  | entry hon _ _ => rw [hinline] at hon; cases hon

instance (d : D) : Decidable (Below d) := inferInstanceAs (Decidable (_ = true))

end Complete

/-! ### An index of one element -/

section Lonely

/-- An element on a page of its own tuples, with no neighbors. -/
def lonelyElement {V : Type} (x : V) : ElementTuple V :=
  ⟨0, false, Vector.replicate _ ⟨7, 1⟩, ⟨1, 1⟩, 0, x⟩

def lonelyNeighbors {Q : Type} : NeighborTuple Q := ⟨List.replicate 4 Tid.invalid, none⟩

/-- The index whose only element has the one-dimensional vector `x`. -/
def lonelyIndex {V : Type} (Q : Type) (x : V) : Relation V Q where
  metaPage := ⟨1, 2, 1, 2, 0, false, 0⟩
  pages := [⟨[.neighbor lonelyNeighbors, .element (lonelyElement x)], 32, 8056⟩]

/-- Squared distance to the origin, in a single-precision accumulator. -/
def squaredDistance (x : Int) : ExtInt := if x ^ 2 ≥ 2 ^ 128 then .posInf else .fin (x ^ 2)

/-- A scan of a lonely index, with a code cache that holds nothing. -/
def lonelyScan (x : Int) : Stream Int Int ExtInt :=
  Stream.ofIndex ⟨false, true, true, true, true, true, true, none⟩ Fmgr.builtin
    ⟨squaredDistance, squaredDistance, fun d _ => d, true⟩ (some fun _ => none) (lonelyIndex Int x) [] 40

theorem lonelyIndex_item {V Q : Type} {x : V} {t : Tid} {y : IndexTuple V Q}
    (h : (lonelyIndex Q x).item t = some y) :
    (t = ⟨1, 1⟩ ∧ y = .neighbor lonelyNeighbors) ∨ (t = ⟨1, 2⟩ ∧ y = .element (lonelyElement x)) := by
  obtain ⟨b, o⟩ := t
  match b, o with
  | 0, _ => simp [Relation.item] at h
  | 1, 0 => simp [Relation.item] at h
  | 1, 1 => simpa [Relation.item, lonelyIndex, eq_comm] using h
  | 1, 2 => simpa [Relation.item, lonelyIndex, eq_comm] using h
  | 1, o + 3 => simp [Relation.item, lonelyIndex] at h
  | b + 2, o => simp [Relation.item, lonelyIndex] at h

theorem lonelyIndex_element {V Q : Type} {x : V} {t : Tid} {e : ElementTuple V}
    (h : (lonelyIndex Q x).element t = some e) : t = ⟨1, 2⟩ ∧ e = lonelyElement x := by
  rcases lonelyIndex_item (Relation.element_some.mp h) with ⟨_, hy⟩ | ⟨ht, hy⟩
  · cases hy
  · exact ⟨ht, IndexTuple.element.inj hy⟩

theorem lonelyIndex_wellFormed {V : Type} (Q : Type) (x : V) : (lonelyIndex Q x).WellFormed where
  m_pos := show 0 < 2 by decide
  width := show 2 + 2 ≤ 200 by decide
  neighbors h := by
    obtain ⟨rfl, rfl⟩ := lonelyIndex_element h
    exact ⟨lonelyNeighbors, rfl, rfl⟩
  targets {t u e layer} h hl hu := by
    obtain ⟨rfl, rfl⟩ := lonelyIndex_element h
    obtain rfl : layer = 0 := Nat.le_zero.mp hl
    exact absurd hu (by simp [show (lonelyIndex Q x).layerNeighbors 0 ⟨1, 2⟩ = [] from rfl])
  entry _ := ⟨lonelyElement x, rfl, rfl⟩

/-- An element whose distance overflows to infinity is never returned. -/
theorem infinite_distance_lost :
    (lonelyIndex Int (10 ^ 20)).WellFormed ∧ ¬ ScanCorrect PairingHeap.list (lonelyScan (10 ^ 20)) := by
  refine ⟨lonelyIndex_wellFormed _ _, ?_⟩
  rintro ⟨fuel₀, s₀, s, out, hrun, hrows, -⟩
  obtain ⟨base, hbase, hemits⟩ := hrows rfl
  obtain rfl : ⟨1, 2⟩ = base := Option.some.inj (hbase fuel₀ (Nat.le_refl _))
  obtain ⟨hbegin, hdrain⟩ := hrun (fuel₀ + 1) (by omega)
  obtain rfl := Option.some.inj hbegin
  -- the only candidate and the only result are at infinity: the first call ends the stream
  have hout : out = [] := congrArg Prod.fst (Option.some.inj hdrain).symm
  obtain ⟨disc, -, hdisc, hperm⟩ := hemits.rows
  rw [hout, List.nil_perm, List.map_eq_nil_iff, List.filter_eq_nil_iff] at hperm
  exact hperm ⟨1, 2⟩ ((hdisc _).mpr (.inl rfl)) rfl

end Lonely

/-! ### An index of five elements -/

section Mesh

/-- An element with the heap row of its number, which also names its tuples. -/
def meshElement {V : Type} (i level : Nat) (deleted : Bool) (filterVal : Datum) (x : V) :
    ElementTuple V :=
  ⟨level, deleted, singleHeaptid ⟨7, i + 1⟩, ⟨1, 2 * i + 1⟩, filterVal, x⟩

/-- The slots of a neighbor tuple, by the numbers of the elements. -/
def meshNeighbors {Q : Type} (slots : List (Option Nat)) : NeighborTuple Q :=
  ⟨slots.map fun slot => slot.elim Tid.invalid fun i => ⟨1, 2 * i + 2⟩, none⟩

/-- Two elements have a layer above the base, the second one is deleted, and the filter column of the
fourth is another. -/
def meshIndex {V : Type} (Q : Type) (a b c d e : V) : Relation V Q where
  metaPage := ⟨1, 2, 1, 2, 1, false, 0⟩
  pages := [⟨[.neighbor (meshNeighbors [some 2, none, some 1, some 2, none, none]),
    .element (meshElement 0 1 false 1 a),
    .neighbor (meshNeighbors [some 3, none, none, none]), .element (meshElement 1 0 true 1 b),
    .neighbor (meshNeighbors [some 0, none, some 0, some 4, none, none]),
    .element (meshElement 2 1 false 1 c),
    .neighbor (meshNeighbors [some 2, some 0, none, none]), .element (meshElement 3 0 false 2 d),
    .neighbor (meshNeighbors [some 3, some 1, none, none]), .element (meshElement 4 0 false 1 e)],
    64, 7200⟩]

/-- What a code cache may know of it: it has not heard of the deletion, and misses the first element
and the last. -/
def meshHits {Q : Type} (b c d : Q) : List (Tid × CodeCacheHit Q) :=
  [(⟨1, 4⟩, ⟨⟨7, 2⟩, ⟨1, 3⟩, 0, false, 1, b⟩), (⟨1, 6⟩, ⟨⟨7, 3⟩, ⟨1, 5⟩, 1, false, 1, c⟩),
    (⟨1, 8⟩, ⟨⟨7, 4⟩, ⟨1, 7⟩, 0, false, 2, d⟩)]

theorem meshHits_agree {V Q : Type} (a b c d e : V) (b' c' d' : Q) :
    CacheAgrees (some (answers (meshHits b' c' d'))) (meshIndex Q a b c d e) := by
  refine cacheAgrees_answers fun x hx e he => ?_
  simp only [meshHits, List.mem_cons, List.not_mem_nil, or_false] at hx
  obtain rfl | rfl | rfl := hx
  all_goals
    cases he
    exact ⟨rfl, rfl, rfl, fun h => by cases h⟩

/-- A scan for the rows whose filter column is 1. -/
def meshScan : Stream Int Int ExtInt :=
  Stream.ofIndex ⟨false, true, true, true, true, true, true, none⟩ Fmgr.builtin
    ⟨squaredDistance, squaredDistance, fun d _ => d, true⟩ (some (answers (meshHits 1 (-2) 5)))
    (meshIndex Int 3 1 (-2) 5 4) [⟨false, ⟨.equal, .int4⟩, 1⟩] 40

/-- Hits and misses, a deleted element and one that does not pass. -/
theorem scan_correct_mesh : ScanCorrect PairingHeap.list meshScan :=
  scan_correct PairingHeap.list _ _ _ _ (meshIndex Int 3 1 (-2) 5 4) _ 40 (by decide +kernel)
    (fun h => by cases h) (meshHits_agree 3 1 (-2) 5 4 1 (-2) 5)
    (distancesBelow_answers rfl rfl (by decide +kernel) (by decide +kernel))

example : ((t2StreamBegin (H := PairingHeap.list) meshScan 20).bind fun s =>
    drain meshScan 20 20 s).map Prod.fst = some [⟨7, 3⟩, ⟨7, 1⟩, ⟨7, 5⟩] := by decide +kernel

end Mesh

end PgAcorn.Scan
