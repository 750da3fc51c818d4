import PgAcorn.Scan.Complete

/-! Vacuum: what `acorn_bulkdelete` changes, and what scans make of it.

Nothing is removed. An element all of whose heap rows are dead gets a mark; it stays
in the graph, and inline entries and cache entries may go on calling it live
(`Swept`). Discovery does not look at the mark, so a scan with enough budget loses
the rows of the marked elements and no others (`LosesMarked`), provided its distances
are not taken for the ends of heaps. -/
namespace PgAcorn.Vacuum
open Library
open Scan
open PgAcorn.Filter (Fmgr ScanKey)

variable {V Q D : Type}

/-! ### `acorn_bulkdelete` -/

/-- Whether an element has a live heap row; the first invalid identifier ends the
search. -/
def anyLive (callback : Tid → Bool) : List Tid → Bool
  | [] => false
  | t :: ts => if !t.isValid then false else if !callback t then true else anyLive callback ts

/-- Whether an element is to be marked. -/
def removes (callback : Tid → Bool) (e : ElementTuple V) : Bool :=
  !e.deleted && !anyLive callback e.heaptids.toList

/-- An element tuple, `deleted` set if it is to be. -/
def sweepElement (callback : Tid → Bool) (e : ElementTuple V) : ElementTuple V :=
  if removes callback e then { e with deleted := true } else e

/-- One tuple of a page. -/
def sweepTuple (callback : Tid → Bool) : IndexTuple V Q → IndexTuple V Q
  | .element e => .element (sweepElement callback e)
  | x => x

/-- Whether a tuple is counted in `tuples_removed`. -/
def counts (callback : Tid → Bool) : IndexTuple V Q → Bool
  | .element e => removes callback e
  | _ => false

/-- The pages after `acorn_bulkdelete`. -/
def sweep (callback : Tid → Bool) (r : Relation V Q) : Relation V Q :=
  { r with pages := r.pages.map fun p => { p with items := p.items.map (sweepTuple callback) } }

/-- `acorn_bulkdelete`, page by page, with `tuples_removed`. What it makes of the code
cache is left to the answers the cache gives afterwards. -/
def bulkdelete (callback : Tid → Bool) (r : Relation V Q) : Relation V Q × Nat :=
  (sweep callback r, (r.pages.map fun p => p.items.countP (counts callback)).sum)

/-- All valid heap rows of a live element are dead. -/
def Dead (callback : Tid → Bool) (e : ElementTuple V) : Prop :=
  e.deleted = false ∧ ∀ t ∈ e.heaptids.toList, t.isValid = true → callback t = true

/-- Valid heap rows come first. -/
def Packed (e : ElementTuple V) : Prop :=
  e.heaptids.toList.Pairwise fun t u => u.isValid = true → t.isValid = true

/-- The dead elements are marked, and nothing else has changed. -/
structure Swept (callback : Tid → Bool) (r r' : Relation V Q) : Prop where
  metaPage : r'.metaPage = r.metaPage
  blocks : r'.pages.length = r.pages.length
  marked : ∀ {t : Tid} {e : ElementTuple V}, r.item t = some (.element e) → Dead callback e →
    r'.item t = some (.element { e with deleted := true })
  kept : ∀ {t : Tid}, (∀ e, r.item t = some (.element e) → ¬ Dead callback e) → r'.item t = r.item t

variable {callback : Tid → Bool} {r : Relation V Q}

theorem anyLive_eq_false {ts : List Tid}
    (h : ts.Pairwise fun t u => u.isValid = true → t.isValid = true) :
    anyLive callback ts = false ↔ ∀ t ∈ ts, t.isValid = true → callback t = true := by
  induction ts with
  | nil => simp [anyLive]
  | cons t ts ih =>
    obtain ⟨hfirst, hrest⟩ := List.pairwise_cons.mp h
    rw [anyLive]
    cases hv : t.isValid with
    | false =>
      have hnone : ∀ u ∈ ts, ¬ u.isValid = true := by
        intro u hu huv
        have := hfirst u hu huv
        rw [hv] at this
        cases this
      simp [hv]
      exact fun u hu huv => absurd huv (hnone u hu)
    | true =>
      cases hc : callback t with
      | false => simp [hv, hc]
      | true => simp [hc, ih hrest]

theorem removes_iff {e : ElementTuple V} (h : Packed e) :
    removes callback e = true ↔ Dead callback e := by
  rw [removes, Bool.and_eq_true, Bool.not_eq_true', Bool.not_eq_true', anyLive_eq_false h]
  rfl

theorem item_sweep (t : Tid) :
    (sweep callback r).item t = (r.item t).map (sweepTuple callback) := by
  unfold Relation.item sweep
  split
  · rfl
  · rw [List.getElem?_map]
    cases r.pages[t.blkno - 1]? with
    | none => rfl
    | some p => exact List.getElem?_map

/-- **Exactly the dead elements are marked.** -/
theorem sweep_swept (h : ∀ {t : Tid} {e : ElementTuple V}, r.element t = some e → Packed e) :
    Swept callback r (sweep callback r) where
  metaPage := rfl
  blocks := List.length_map _
  marked {t e} he hdead := by
    have hremoves := (removes_iff (h (Relation.element_some.mpr he))).mpr hdead
    rw [item_sweep, he, Option.map_some, sweepTuple, sweepElement, if_pos hremoves]
  kept {t} hlive := by
    rw [item_sweep]
    cases hx : r.item t with
    | none => rfl
    | some x =>
      cases x with
      | element e =>
        have hremoves : ¬ removes callback e = true := fun hr =>
          hlive e hx ((removes_iff (h (Relation.element_some.mpr hx))).mp hr)
        rw [Option.map_some, sweepTuple, sweepElement, if_neg hremoves]
      | neighbor n => rfl
      | cont c => rfl

/-! ### The graph stays -/

section
variable (callback : Tid → Bool) (e : ElementTuple V)

@[simp] theorem level_sweepElement : (sweepElement callback e).level = e.level := by
  unfold sweepElement
  split <;> rfl

@[simp] theorem neighbortid_sweepElement :
    (sweepElement callback e).neighbortid = e.neighbortid := by
  unfold sweepElement
  split <;> rfl

@[simp] theorem filterVal_sweepElement : (sweepElement callback e).filterVal = e.filterVal := by
  unfold sweepElement
  split <;> rfl

@[simp] theorem vec_sweepElement : (sweepElement callback e).vec = e.vec := by
  unfold sweepElement
  split <;> rfl

@[simp] theorem heaptids_sweepElement : (sweepElement callback e).heaptids = e.heaptids := by
  unfold sweepElement
  split <;> rfl

@[simp] theorem deleted_sweepElement :
    (sweepElement callback e).deleted = (e.deleted || removes callback e) := by
  unfold sweepElement
  split <;> simp [*]

end

theorem element_sweep (t : Tid) :
    (sweep callback r).element t = (r.element t).map (sweepElement callback) := by
  unfold Relation.element
  rw [item_sweep]
  cases r.item t with
  | none => rfl
  | some x => cases x <;> rfl

theorem neighbor_sweep (t : Tid) : (sweep callback r).neighbor t = r.neighbor t := by
  unfold Relation.neighbor
  rw [item_sweep]
  cases r.item t with
  | none => rfl
  | some x => cases x <;> rfl

theorem element_of_sweep {t : Tid} {e' : ElementTuple V}
    (h : (sweep callback r).element t = some e') :
    ∃ e, r.element t = some e ∧ e' = sweepElement callback e := by
  rw [element_sweep] at h
  obtain ⟨e, he, rfl⟩ := Option.map_eq_some_iff.mp h
  exact ⟨e, he, rfl⟩

theorem layerNeighbors_sweep (layer : Nat) (t : Tid) :
    (sweep callback r).layerNeighbors layer t = r.layerNeighbors layer t := by
  unfold Relation.layerNeighbors
  rw [element_sweep]
  cases r.element t with
  | none => rfl
  | some e =>
    simp only [Option.map_some, neighbortid_sweepElement, level_sweepElement, neighbor_sweep]
    rfl

theorem reachable_sweep (base t : Tid) :
    (sweep callback r).Reachable base t ↔ r.Reachable base t := by
  unfold Relation.Reachable
  simp only [layerNeighbors_sweep]

theorem wellFormed_sweep (h : r.WellFormed) : (sweep callback r).WellFormed where
  m_pos := h.m_pos
  width := h.width
  neighbors he' := by
    obtain ⟨e, he, rfl⟩ := element_of_sweep he'
    rw [neighbortid_sweepElement, level_sweepElement, neighbor_sweep]
    exact h.neighbors he
  targets {t u e' layer} he' hl hu := by
    obtain ⟨e, he, rfl⟩ := element_of_sweep he'
    rw [layerNeighbors_sweep] at hu
    rw [level_sweepElement] at hl
    obtain ⟨e₁, he₁, hl₁⟩ := h.targets he hl hu
    refine ⟨sweepElement callback e₁, ?_, ?_⟩
    · rw [element_sweep, he₁, Option.map_some]
    · rw [level_sweepElement]
      exact hl₁
  entry hentry := by
    obtain ⟨e, he, hlevel⟩ := h.entry hentry
    refine ⟨sweepElement callback e, ?_, ?_⟩
    · rw [element_sweep]
      exact congrArg _ he
    · rw [level_sweepElement]
      exact hlevel

theorem chainEnds_sweep {t : Tid} {k : Nat} (h : Relation.ChainEnds r t k) :
    Relation.ChainEnds (sweep callback r) t k := by
  induction h with
  | last h => exact .last h
  | broken h hx =>
    rename_i x
    refine .broken (x := sweepTuple callback x) (by rw [item_sweep, h]; rfl) ?_
    intro c hc
    cases x with
    | element e => cases hc
    | neighbor n => cases hc
    | cont c' => exact hx c' rfl
  | cons h _ ih => exact .cons (by rw [item_sweep, h]; rfl) ih

theorem hasEntry_of_sweep {entry : InlineEntry Q}
    (h : Relation.HasEntry (sweep callback r) entry) : Relation.HasEntry r entry := by
  cases h with
  | primary hn hc he =>
    rw [neighbor_sweep] at hn
    exact .primary hn hc he
  | cont hc he =>
    rw [item_sweep] at hc
    obtain ⟨x, hx, hsame⟩ := Option.map_eq_some_iff.mp hc
    cases x with
    | element e => cases hsame
    | neighbor n => cases hsame
    | cont c =>
      cases hsame
      exact .cont hx he

theorem inlineWellFormed_sweep (h : r.InlineWellFormed) : (sweep callback r).InlineWellFormed where
  chunk he' hn := by
    obtain ⟨e, he, rfl⟩ := element_of_sweep he'
    rw [neighbortid_sweepElement, neighbor_sweep] at hn
    exact h.chunk he hn
  chains := by
    obtain ⟨bound, hchains⟩ := h.chains
    refine ⟨bound, fun he' hn hc => ?_⟩
    obtain ⟨e, he, rfl⟩ := element_of_sweep he'
    rw [neighbortid_sweepElement, neighbor_sweep] at hn
    obtain ⟨k, hk, hends⟩ := hchains he hn hc
    exact ⟨k, hk, chainEnds_sweep hends⟩
  entries hentry hv he' := by
    obtain ⟨e, he, rfl⟩ := element_of_sweep he'
    obtain ⟨hnbr, hlevel, hval, hdel⟩ := h.entries (hasEntry_of_sweep hentry) hv he
    simp only [neighbortid_sweepElement, level_sweepElement, filterVal_sweepElement,
      deleted_sweepElement, Bool.or_eq_true]
    exact ⟨hnbr, hlevel, hval, fun hd => .inl (hdel hd)⟩

/-! ### Scans of the swept index -/

section
variable {S S' : Stream V Q D}

/-- Two streams that differ in marks and in the answers of the code cache. -/
structure Alike (callback : Tid → Bool) (S S' : Stream V Q D) : Prop where
  index : S'.index = sweep callback S.index
  kernels : S'.kernels = S.kernels
  fmgr : S'.fmgr = S.fmgr
  settings : S'.settings = S.settings
  m : S'.m = S.m
  efSearch : S'.efSearch = S.efSearch
  keys : S'.keys = S.keys

namespace Alike
variable (h : Alike callback S S')
include h

theorem t2Distance_eq (t : Tid) : t2Distance S' t = t2Distance S t := by
  unfold t2Distance
  rw [h.index, element_sweep, h.kernels, Option.map_map]
  congr 1
  funext e
  exact congrArg _ (vec_sweepElement callback e)

theorem heapTid_eq (t : Tid) : heapTid S' t = heapTid S t := by
  unfold heapTid
  rw [h.index, element_sweep]
  cases S.index.element t with
  | none => rfl
  | some e => exact congrArg (·[0]) (heaptids_sweepElement callback e)

end Alike

/-- The element is marked in `r'` and was not in `r`. -/
def newlyMarked (r r' : Relation V Q) (t : Tid) : Bool :=
  (r'.element t).any ElementTuple.deleted && !(r.element t).any ElementTuple.deleted

theorem Alike.returned_eq (h : Alike callback S S') (t : Tid) :
    returned S' t = (returned S t && !newlyMarked S.index S'.index t) := by
  unfold returned newlyMarked
  rw [h.index, element_sweep, h.fmgr, h.settings, h.keys]
  cases S.index.element t with
  | none => rfl
  | some e =>
    simp only [Option.map_some, deleted_sweepElement, filterVal_sweepElement, Option.any_some]
    cases e.deleted <;> cases removes callback e <;> simp

variable [CDouble D] {H : PairingHeap}

namespace Alike
variable (h : Alike callback S S')
include h

theorem descendNeighbor_eq : descendNeighbor S' = descendNeighbor S := by
  funext c t
  unfold descendNeighbor
  rw [h.t2Distance_eq]

theorem greedyRound_eq (lc : Nat) (c : Tid × D) : Scan.greedyRound S' lc c = Scan.greedyRound S lc c := by
  unfold Scan.greedyRound
  rw [h.index, element_sweep, h.descendNeighbor_eq, h.m]
  cases S.index.element c.1 with
  | none => rfl
  | some e =>
    simp only [Option.map_some, Option.bind_eq_bind, Option.bind_some, neighbortid_sweepElement,
      level_sweepElement, getNeighbors, neighbor_sweep]

theorem greedyLayer_eq (lc n : Nat) (c : Tid × D) :
    Scan.greedyLayer S' lc n c = Scan.greedyLayer S lc n c := by
  induction n generalizing c with
  | zero => rfl
  | succ n ih =>
    rw [Scan.greedyLayer, Scan.greedyLayer, h.greedyRound_eq]
    split
    · exact ih _
    · rfl
    · rfl

theorem greedyLayers_eq (fuel target lc : Nat) (c : Tid × D) :
    greedyLayers S' fuel target lc c = greedyLayers S fuel target lc c := by
  induction lc generalizing c with
  | zero => rfl
  | succ lc ih =>
    rw [greedyLayers, greedyLayers, h.greedyLayer_eq]
    split
    · congr 1
      funext c
      exact ih c
    · rfl

/-- **The descent does not look at marks.** -/
theorem baseEntry_eq (fuel : Nat) : baseEntry S' fuel = baseEntry S fuel := by
  have hmeta : S'.index.metaPage = S.index.metaPage := by rw [h.index]; rfl
  unfold baseEntry
  rw [hmeta]
  unfold t2GreedyDescent
  rw [h.t2Distance_eq]
  simp only [h.greedyLayers_eq]

end Alike

/-- The rows of all calls of a stream. -/
def Rows (H : PairingHeap) (S : Stream V Q D) (out : List Tid) : Prop :=
  ∃ (fuel₀ : Nat) (s₀ s : State H D), ∀ fuel ≥ fuel₀,
    t2StreamBegin S fuel = some s₀ ∧ drain S fuel fuel s₀ = some (out, s)

/-- The budget is at least the number of reachable elements. -/
def Ample (S : Stream V Q D) : Prop :=
  ∀ {base : Tid}, (∃ fuel, baseEntry S fuel = some base) →
    {t | S.index.Reachable base t}.ncard ≤ S.efSearch

/-- Both scans end, and with ample budget the second one has returned the rows of the
first but for those of the elements marked in between. -/
def LosesMarked (H : PairingHeap) (S S' : Stream V Q D) : Prop :=
  ∃ out out', Rows H S out ∧ Rows H S' out' ∧ (Ample S →
    ∃ disc : List Tid, disc.Nodup ∧ out.Perm (disc.map (heapTid S)) ∧
      out'.Perm ((disc.filter fun t => !newlyMarked S.index S'.index t).map (heapTid S)))

theorem Alike.losesMarked (h : Alike callback S S') (hS : ScanCorrect H S)
    (hS' : ScanCorrect H S') : LosesMarked H S S' := by
  obtain ⟨fuel, s₀, s, out, hrun, hrows, hnone⟩ := hS
  obtain ⟨fuel', s₀', s', out', hrun', hrows', hnone'⟩ := hS'
  refine ⟨out, out', ⟨fuel, s₀, s, hrun⟩, ⟨fuel', s₀', s', hrun'⟩, fun hample => ?_⟩
  have hmeta : S'.index.metaPage = S.index.metaPage := by rw [h.index]; rfl
  cases hentry : S.index.metaPage.hasEntry with
  | false =>
    rw [hnone hentry, hnone' (by rw [hmeta, hentry])]
    exact ⟨[], List.nodup_nil, List.Perm.nil, List.Perm.nil⟩
  | true =>
    obtain ⟨base, hbase, hemits⟩ := hrows hentry
    obtain ⟨base', hbase', hemits'⟩ := hrows' (by rw [hmeta, hentry])
    -- both descents end at the same element, from which the same elements are reachable
    have hsame : base' = base := by
      have hb := hbase (max fuel fuel') (Nat.le_max_left _ _)
      have hb' := hbase' (max fuel fuel') (Nat.le_max_right _ _)
      rw [h.baseEntry_eq, hb] at hb'
      exact (Option.some.inj hb').symm
    subst hsame
    have hreach : ∀ t, S'.index.Reachable base' t ↔ S.index.Reachable base' t := by
      intro t
      rw [h.index]
      exact reachable_sweep base' t
    have hcount := hample ⟨fuel, hbase fuel (Nat.le_refl _)⟩
    obtain ⟨disc, hnodup, hdisc, hperm⟩ := hemits.reachable hcount
    obtain ⟨disc', hnodup', hdisc', hperm'⟩ := hemits'.reachable (by
      rw [h.efSearch]
      simp only [hreach]
      exact hcount)
    have hsets : disc'.Perm disc := by
      apply (List.perm_ext_iff_of_nodup hnodup' hnodup).mpr
      intro t
      rw [hdisc', hdisc, hreach]
    refine ⟨disc.filter (returned S), hnodup.filter _, hperm, hperm'.trans ?_⟩
    rw [List.filter_filter]
    have hheap : heapTid S' = heapTid S := by
      funext t
      exact h.heapTid_eq t
    have hreturned : returned S' = fun t =>
        (!newlyMarked S.index S'.index t) && returned S t := by
      funext t
      rw [h.returned_eq, Bool.and_comm]
    rw [hheap, hreturned]
    exact (hsets.filter _).map _

omit [CDouble D] in
theorem alike_ofIndex (settings : Settings) (fmgr : Fmgr) (kernels : Kernels V Q D)
    (cache cache' : Option (Tid → Option (CodeCacheHit Q))) (keys : List ScanKey)
    (efSearch : Nat) : Alike callback (Stream.ofIndex settings fmgr kernels cache r keys efSearch)
      (Stream.ofIndex settings fmgr kernels cache' (sweep callback r) keys efSearch) :=
  ⟨rfl, rfl, rfl, rfl, rfl, rfl, rfl⟩

/-- **Vacuum removes exactly the dead rows**: it marks the dead elements and changes
nothing else, and scans in any mode, from caches that may still call them live, lose
their rows and no others, as long as the distances both scans work with are below
`DBL_MAX`. -/
theorem vacuum_exact (H : PairingHeap) (settings : Settings) (fmgr : Fmgr)
    (kernels : Kernels V Q D) (cache cache' : Option (Tid → Option (CodeCacheHit Q)))
    (r : Relation V Q) (keys : List ScanKey) (efSearch : Nat) (callback : Tid → Bool)
    (hpacked : ∀ {t : Tid} {e : ElementTuple V}, r.element t = some e → Packed e) :
    Swept callback r (bulkdelete callback r).1 ∧
      (r.WellFormed → (r.metaPage.inlineVectors = true → r.InlineWellFormed) →
        CacheAgrees cache r → CacheAgrees cache' (bulkdelete callback r).1 →
        DistancesBelow (Stream.ofIndex settings fmgr kernels cache r keys efSearch) →
        DistancesBelow
          (Stream.ofIndex settings fmgr kernels cache' (bulkdelete callback r).1 keys efSearch) →
        LosesMarked H (Stream.ofIndex settings fmgr kernels cache r keys efSearch)
          (Stream.ofIndex settings fmgr kernels cache' (bulkdelete callback r).1 keys efSearch)) := by
  refine ⟨sweep_swept hpacked, fun hr hinline hcache hcache' hb hb' => ?_⟩
  apply (alike_ofIndex settings fmgr kernels cache cache' keys efSearch).losesMarked
  · exact scan_correct H settings fmgr kernels cache r keys efSearch hr hinline hcache hb
  · exact scan_correct H settings fmgr kernels cache' _ keys efSearch (wellFormed_sweep hr)
      (fun h => inlineWellFormed_sweep (hinline h)) hcache' hb'

end

/-! ### Small indexes -/

/-- The heap rows of the last two elements. -/
def meshRows (t : Tid) : Bool := decide (t = ⟨7, 4⟩ ∨ t = ⟨7, 5⟩)

/-- What a code cache may have loaded before: it calls both of them live. -/
def staleHits : List (Tid × CodeCacheHit Int) :=
  (⟨1, 10⟩, ⟨⟨7, 5⟩, ⟨1, 9⟩, 0, false, 1, 4⟩) :: meshHits 1 (-2) 5

/-- The scan of five elements when two of them have been marked, of which one passes. -/
def sweptScan : Stream Int Int ExtInt :=
  Stream.ofIndex ⟨false, true, true, true, true, true, true, none⟩ Fmgr.builtin
    ⟨squaredDistance, squaredDistance, fun d _ => d, true⟩ (some (answers staleHits))
    (bulkdelete meshRows (meshIndex Int 3 1 (-2) 5 4)).1 [⟨false, ⟨.equal, .int4⟩, 1⟩] 40

instance (e : ElementTuple V) : Decidable (Packed e) :=
  inferInstanceAs (Decidable (List.Pairwise _ _))

/-- Two of five elements die; two others live on, and one had been deleted before. -/
theorem vacuum_exact_mesh :
    Swept meshRows (meshIndex Int (3 : Int) 1 (-2) 5 4)
      (bulkdelete meshRows (meshIndex Int (3 : Int) 1 (-2) 5 4)).1 ∧
    LosesMarked PairingHeap.list meshScan sweptScan := by
  have hpacked : ∀ x ∈ (meshIndex Int (3 : Int) 1 (-2) 5 4).elements, Packed x.2 := by decide +kernel
  obtain ⟨hswept, hscans⟩ := vacuum_exact PairingHeap.list
    ⟨false, true, true, true, true, true, true, none⟩ Fmgr.builtin
    ⟨squaredDistance, squaredDistance, fun d _ => d, true⟩ (some (answers (meshHits 1 (-2) 5)))
    (some (answers staleHits)) (meshIndex Int (3 : Int) 1 (-2) 5 4) [⟨false, ⟨.equal, .int4⟩, 1⟩] 40
    meshRows (Relation.forall_elements.mp hpacked)
  refine ⟨hswept, hscans (by decide +kernel) (fun h => by cases h) (meshHits_agree _ _ _ _ _ _ _ _)
    (cacheAgrees_answers (by decide +kernel)) ?_ ?_⟩
  · exact distancesBelow_answers rfl rfl (by decide +kernel) (by decide +kernel)
  · exact distancesBelow_answers rfl rfl (by decide +kernel) (by decide +kernel)

example : [meshScan, sweptScan].map (fun S =>
    ((t2StreamBegin (H := PairingHeap.list) S 20).bind fun s => drain S 20 20 s).map Prod.fst) =
      [some [⟨7, 3⟩, ⟨7, 1⟩, ⟨7, 5⟩], some [⟨7, 3⟩, ⟨7, 1⟩]] := by decide +kernel

/-- An element with one heap row. -/
def farElement (row : Nat) (deleted : Bool) (neighbortid : Tid) (x : Int) : ElementTuple Int :=
  ⟨0, deleted, singleHeaptid ⟨7, row⟩, neighbortid, 0, x⟩

def farNeighbors (tids : List Tid) : IndexTuple Int Int :=
  .neighbor ⟨tids ++ List.replicate (4 - tids.length) Tid.invalid, none⟩

/-- The entry point and, behind a node that is too far for a distance, a near one;
another far node is deleted. -/
def farIndex : Relation Int Int where
  metaPage := ⟨1, 2, 1, 2, 0, false, 0⟩
  pages := [⟨[farNeighbors [⟨1, 4⟩, ⟨1, 6⟩], .element (farElement 1 false ⟨1, 1⟩ 0),
    farNeighbors [⟨1, 8⟩], .element (farElement 2 false ⟨1, 3⟩ (10 ^ 20)),
    farNeighbors [], .element (farElement 3 true ⟨1, 5⟩ (10 ^ 20)),
    farNeighbors [], .element (farElement 4 false ⟨1, 7⟩ 3)], 56, 7720⟩]

/-- The heap row of the far node. -/
def farRow (t : Tid) : Bool := decide (t = ⟨7, 2⟩)

/-- Scans that expand passing nodes first. -/
def farScan (r : Relation Int Int) : Stream Int Int ExtInt :=
  Stream.ofIndex ⟨true, true, true, true, true, true, true, none⟩ Fmgr.builtin
    ⟨squaredDistance, squaredDistance, fun d _ => d, true⟩ none r [] 40

theorem farIndex_element {t : Tid} {e : ElementTuple Int} (h : farIndex.element t = some e) :
    (t, e) ∈ [(⟨1, 2⟩, farElement 1 false ⟨1, 1⟩ 0), (⟨1, 4⟩, farElement 2 false ⟨1, 3⟩ (10 ^ 20)),
      (⟨1, 6⟩, farElement 3 true ⟨1, 5⟩ (10 ^ 20)), (⟨1, 8⟩, farElement 4 false ⟨1, 7⟩ 3)] := by
  obtain ⟨b, o⟩ := t
  match b, o with
  | 0, _ => cases h
  | 1, 0 | 1, 1 | 1, 3 | 1, 5 | 1, 7 => cases h
  | 1, 2 | 1, 4 | 1, 6 | 1, 8 =>
    obtain rfl := Option.some.inj h
    simp
  | 1, o + 9 => cases h
  | b + 2, o =>
    have hnone : farIndex.item ⟨b + 2, o⟩ = none := by simp [Relation.item, farIndex]
    rw [Relation.element, hnone] at h
    cases h

theorem farIndex_wellFormed : farIndex.WellFormed where
  m_pos := by decide
  width := by decide
  neighbors h := by
    have hmem := farIndex_element h
    simp only [List.mem_cons, Prod.mk.injEq, List.not_mem_nil, or_false] at hmem
    obtain ⟨-, rfl⟩ | ⟨-, rfl⟩ | ⟨-, rfl⟩ | ⟨-, rfl⟩ := hmem <;> exact ⟨_, rfl, rfl⟩
  targets {t u e layer} h hl hu := by
    have hmem := farIndex_element h
    simp only [List.mem_cons, Prod.mk.injEq, List.not_mem_nil, or_false] at hmem
    obtain rfl : layer = 0 := by
      obtain ⟨-, rfl⟩ | ⟨-, rfl⟩ | ⟨-, rfl⟩ | ⟨-, rfl⟩ := hmem <;> exact Nat.le_zero.mp hl
    obtain ⟨rfl, -⟩ | ⟨rfl, -⟩ | ⟨rfl, -⟩ | ⟨rfl, -⟩ := hmem
    · have : u ∈ [⟨1, 4⟩, ⟨1, 6⟩] := hu
      simp only [List.mem_cons, List.not_mem_nil, or_false] at this
      obtain rfl | rfl := this <;> exact ⟨_, rfl, Nat.zero_le _⟩
    · have : u ∈ [⟨1, 8⟩] := hu
      obtain rfl := List.mem_singleton.mp this
      exact ⟨_, rfl, Nat.zero_le _⟩
    · have : u ∈ ([] : List Tid) := hu
      cases this
    · have : u ∈ ([] : List Tid) := hu
      cases this
  entry _ := ⟨_, rfl, rfl⟩

theorem farIndex_ample : Ample (farScan farIndex) := by
  intro base hbase
  obtain ⟨fuel, hfuel⟩ := hbase
  obtain rfl : ⟨1, 2⟩ = base := Option.some.inj hfuel
  have hsub : {t | farIndex.Reachable ⟨1, 2⟩ t} ⊆
      (({⟨1, 2⟩, ⟨1, 4⟩, ⟨1, 6⟩, ⟨1, 8⟩} : Finset Tid) : Set Tid) := by
    intro t ht
    have helement : ∃ e, farIndex.element t = some e := by
      induction ht with
      | refl => exact ⟨_, rfl⟩
      | tail _ hlast ih =>
        obtain ⟨e, he⟩ := ih
        obtain ⟨e', he', -⟩ := farIndex_wellFormed.targets he (Nat.zero_le _) hlast
        exact ⟨e', he'⟩
    obtain ⟨e, he⟩ := helement
    have hmem := farIndex_element he
    simp only [List.mem_cons, Prod.mk.injEq, List.not_mem_nil, or_false] at hmem
    simp only [Finset.coe_insert, Finset.coe_singleton, Set.mem_insert_iff, Set.mem_singleton_iff]
    tauto
  have hcard := Set.ncard_le_ncard hsub (Finset.finite_toSet _)
  rw [Set.ncard_coe_finset] at hcard
  exact hcard.trans (by decide)

/-- With the far node's row dead, the near node behind it is lost as well: only the
deleted far node is left, and its distance alone reads as an empty frontier. -/
theorem live_row_lost : farIndex.WellFormed ∧ Ample (farScan farIndex) ∧
    ¬ LosesMarked PairingHeap.list (farScan farIndex) (farScan (sweep farRow farIndex)) := by
  refine ⟨farIndex_wellFormed, farIndex_ample, ?_⟩
  rintro ⟨out, out', ⟨fuel, s₀, s, hrun⟩, ⟨fuel', s₀', s', hrun'⟩, hlost⟩
  obtain ⟨disc, -, hperm, hperm'⟩ := hlost farIndex_ample
  have hout : out = [⟨7, 1⟩, ⟨7, 4⟩, ⟨7, 2⟩] := by
    obtain ⟨hbegin, hdrain⟩ := hrun (fuel + 20) (Nat.le_add_right _ _)
    obtain rfl := Option.some.inj hbegin
    exact congrArg Prod.fst (Option.some.inj hdrain).symm
  have hout' : out' = [⟨7, 1⟩] := by
    obtain ⟨hbegin, hdrain⟩ := hrun' (fuel' + 20) (Nat.le_add_right _ _)
    obtain rfl := Option.some.inj hbegin
    exact congrArg Prod.fst (Option.some.inj hdrain).symm
  have hnear : (⟨7, 4⟩ : Tid) ∈ disc.map (heapTid (farScan farIndex)) := by
    apply hperm.mem_iff.mp
    simp [hout]
  obtain ⟨t, ht, hrow⟩ := List.mem_map.mp hnear
  have hunmarked : newlyMarked farIndex (sweep farRow farIndex) t = false := by
    cases he : farIndex.element t with
    | none => simp [newlyMarked, element_sweep, he]
    | some e =>
      have hmem := farIndex_element he
      simp only [List.mem_cons, Prod.mk.injEq, List.not_mem_nil, or_false] at hmem
      obtain ⟨rfl, -⟩ | ⟨rfl, -⟩ | ⟨rfl, -⟩ | ⟨rfl, -⟩ := hmem
      · rfl
      · cases hrow
      · rfl
      · rfl
  have hkept : (⟨7, 4⟩ : Tid) ∈ out' := by
    apply hperm'.mem_iff.mpr
    exact List.mem_map.mpr ⟨t, List.mem_filter.mpr ⟨ht, by rw [Bool.not_eq_true']; exact hunmarked⟩, hrow⟩
  rw [hout'] at hkept
  cases List.mem_singleton.mp hkept

end PgAcorn.Vacuum
