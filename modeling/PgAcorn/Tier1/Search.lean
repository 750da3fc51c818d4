import PgAcorn.Library.BestFirst
import PgAcorn.Scan.Descent
import Mathlib.Algebra.Order.BigOperators.Group.Finset
import Mathlib.Algebra.BigOperators.Group.Finset.Piecewise

/-! The Tier-1 search of a pgvector index.

`acorn_layer0_search` walks layer 0 from an entry element. Every visited element
is expanded, whether it matches or not, and the matching ones are kept in a bounded
result heap. The search ends and answers nearest first; with `k` at least the
number of rows it answers all it keeps. But it looks at the first heap TID of an
element only, and the entry element is expanded without ever being offered to the
results, so it finds what it should exactly when the entry does not match and no
other matching element has more to give than its first row (`layer0Search_iff`). -/
namespace PgAcorn.Tier1
open Library Scan

section
variable {V Q D : Type}

/-- The heap TIDs of an element: the valid ones. -/
def heapRows (e : ElementTuple V) : List Tid := e.heaptids.toList.takeWhile (·.isValid)

/-- What a search sees of an element; a tuple that is no element has no rows. -/
def rowsOf (r : Relation V Q) (t : Tid) : List Tid :=
  match r.element t with
  | some e => heapRows e
  | none => []

/-- Whether an element is there and not marked deleted. -/
def isLive (r : Relation V Q) (t : Tid) : Bool :=
  match r.element t with
  | some e => !e.deleted
  | none => false

/-- The heap TID `acorn_load_element` reports. -/
def primaryRow (r : Relation V Q) (t : Tid) : Tid :=
  match r.element t with
  | some e => e.heaptid
  | none => Tid.invalid

/-! ### The search -/

variable [CDouble D]

/-- What `acorn_layer0_search` sees; `evalPredicate` is `acorn_eval_predicate`, a
fetch of the heap tuple and the query's qual on it. -/
def layer0 (r : Relation V Q) (dist : V → D) (evalPredicate : Tid → Bool) : Terrain Tid D where
  distance t := (r.element t).elim CDouble.dblMax fun e => dist e.vec
  admits _ := true
  takes _ := true
  member t := isLive r t && evalPredicate (primaryRow r t)
  neighbors t := ((r.element t).bind fun e =>
    getNeighbors r e.neighbortid e.level 0 r.metaPage.m hnswMaxNeighbors).getD []

/-- `acorn_layer0_search`. The entry is a candidate and no result, candidates are
never dropped, and `ef_search` is not looked at. -/
def layer0Search (H : PairingHeap) (r : Relation V Q) (dist : V → D) (evalPredicate : Tid → Bool)
    (k _efSearch fuel : Nat) (entry : Tid) : Option (Found Tid D) :=
  (layer0 r dist evalPredicate).search H ⟨k, true, 0⟩ fuel entry false

/-- The heap TIDs the search puts out. -/
def resultTids (r : Relation V Q) (f : Found Tid D) : List Tid :=
  f.results.map fun c => primaryRow r c.1

/-- What a descent looks at: an index without codes or inline vectors, and the distance. -/
def descentStream (r : Relation V Q) (dist : V → D) : Stream V Q D where
  index := r
  kernels := ⟨dist, fun _ => CDouble.dblMax, fun d _ => d, false⟩
  fmgr := Filter.Fmgr.builtin
  settings := ⟨false, false, false, false, false, false, false, none⟩
  m := r.metaPage.m
  payloadM := r.metaPage.payloadWidth
  efSearch := 0
  keys := []
  inlineOn := false
  cc := none

/-- `acorn_greedy_descent`, which is `acorn_t2_greedy_descent` over another scan state. -/
def greedyDescent (r : Relation V Q) (dist : V → D) (fuel : Nat) (t : Tid)
    (startLevel targetLevel : Nat) : Option Tid :=
  t2GreedyDescent (descentStream r dist) fuel t startLevel targetLevel

/-- `acorn_scan_execute`. -/
def scanExecute (H : PairingHeap) (r : Relation V Q) (dist : V → D) (evalPredicate : Tid → Bool)
    (k efSearch fuel : Nat) : Option (List Tid) :=
  if !r.metaPage.hasEntry then some []
  else
    (if r.metaPage.entryLevel > 0 then
      greedyDescent r dist fuel r.metaPage.entry r.metaPage.entryLevel.toNat 0
    else some r.metaPage.entry).bind fun entry =>
      (layer0Search H r dist evalPredicate k efSearch fuel entry).map (resultTids r)

/-! ### What it is for -/

/-- The rows of an element that the query wants. -/
def passingRows (r : Relation V Q) (evalPredicate : Tid → Bool) (t : Tid) : List Tid :=
  (rowsOf r t).filter evalPredicate

/-- An element whose rows belong to the answer. -/
def Matches (r : Relation V Q) (evalPredicate : Tid → Bool) (t : Tid) : Prop :=
  isLive r t = true ∧ passingRows r evalPredicate t ≠ []

/-- `out` is the rows of the nearest `k` matching elements among `visited`. -/
def NearestRows (r : Relation V Q) (dist : V → D) (evalPredicate : Tid → Bool) (k : Nat)
    (visited out : List Tid) : Prop :=
  ∃ chosen : List Tid, out = chosen.flatMap (passingRows r evalPredicate) ∧ chosen.Nodup ∧
    (∀ t ∈ chosen, t ∈ visited ∧ Matches r evalPredicate t) ∧ chosen.length ≤ k ∧
    chosen.Pairwise (fun t u => CDouble.lt ((layer0 r dist evalPredicate).distance u)
      ((layer0 r dist evalPredicate).distance t) = false) ∧
    ∀ t ∈ visited, Matches r evalPredicate t → t ∉ chosen → chosen.length = k ∧
      ∀ u ∈ chosen, CDouble.lt ((layer0 r dist evalPredicate).distance t)
        ((layer0 r dist evalPredicate).distance u) = false

/-- The search from `entry` ends, answers the nearest `k` of what it visited, the
entry included, and all that is reachable if `k` and `ef_search` are at least the
number of rows there. -/
def Complete (H : PairingHeap) (r : Relation V Q) (dist : V → D) (evalPredicate : Tid → Bool)
    (entry : Tid) (k efSearch : Nat) : Prop :=
  ∃ f, (∃ n, ∀ fuel > n, layer0Search H r dist evalPredicate k efSearch fuel entry = some f) ∧
    entry ∈ f.visited ∧
    NearestRows r dist evalPredicate k f.visited (resultTids r f) ∧
    ∀ S : Finset Tid, (∀ t, t ∈ S ↔ r.Reachable entry t) →
      ∑ t ∈ S, (rowsOf r t).length ≤ min k efSearch →
      ∀ h, h ∈ resultTids r f ↔ ∃ t ∈ S, isLive r t = true ∧ h ∈ passingRows r evalPredicate t

/-- When the search finds what it should: the entry does not match, and the other
elements give no row but their first. -/
def FirstRowsSuffice (r : Relation V Q) (evalPredicate : Tid → Bool) (entry : Tid) : Prop :=
  ¬ Matches r evalPredicate entry ∧
    ∀ t, r.Reachable entry t → Matches r evalPredicate t →
      passingRows r evalPredicate t = [primaryRow r t]

/-- A pgvector index, an entry element, and a first row for every live element. -/
structure Indexed (r : Relation V Q) (entry : Tid) : Prop where
  wellFormed : r.WellFormed
  entry : ∃ e, r.element entry = some e
  rows : ∀ {t : Tid} {e : ElementTuple V}, r.element t = some e → e.deleted = false →
    e.heaptid.isValid = true

/-! ### The search is closed -/

variable {r : Relation V Q} {dist : V → D} {evalPredicate : Tid → Bool} {entry : Tid} {k : Nat}
  {H : PairingHeap}

theorem neighbors_layer0 (hr : r.WellFormed) (t : Tid) :
    (layer0 r dist evalPredicate).neighbors t = r.layerNeighbors 0 t := by
  show ((r.element t).bind _).getD [] = _
  cases he : r.element t with
  | none => rw [Relation.layerNeighbors, he]; rfl
  | some e => rw [Option.bind_some, getNeighbors_layer hr he (Nat.zero_le _)]; rfl

theorem reached_layer0 (hr : r.WellFormed) {t : Tid} (h : r.Reachable entry t) :
    Reached (layer0 r dist evalPredicate) entry t := by
  induction h with
  | refl => exact .refl
  | tail _ hstep ih =>
    refine ih.tail ⟨?_, rfl⟩
    rw [neighbors_layer0 hr]
    exact hstep

/-- The first row of a live element is one of its rows. -/
theorem Indexed.primary_mem (h : Indexed r entry) {t : Tid} (hlive : isLive r t = true) :
    primaryRow r t ∈ rowsOf r t := by
  cases he : r.element t with
  | none => simp [isLive, he] at hlive
  | some e =>
    have hdel : e.deleted = false := by simpa [isLive, he] using hlive
    have hvalid := h.rows he hdel
    simp only [primaryRow, rowsOf, he, heapRows]
    have hfirst : e.heaptids.toList[0]? = some e.heaptid := by simp
    cases hrows : e.heaptids.toList with
    | nil =>
      rw [hrows] at hfirst
      cases hfirst
    | cons a rest =>
      rw [hrows] at hfirst
      obtain rfl : a = e.heaptid := Option.some.inj hfirst
      rw [List.takeWhile_cons, if_pos hvalid]
      exact List.mem_cons_self

/-- **The search ends**, closed over what is reachable. -/
theorem layer0Search_closed (H : PairingHeap) (dist : V → D) (evalPredicate : Tid → Bool)
    (hD : TotalOrder D) (hr : Indexed r entry) (hk : 1 ≤ k) (efSearch : Nat) : ∃ f, (∃ n, ∀ fuel > n,
        layer0Search H r dist evalPredicate k efSearch fuel entry = some f) ∧
      Closed (layer0 r dist evalPredicate) ⟨k, true, 0⟩ (r.Reachable entry) entry false f := by
  obtain ⟨e, he⟩ := hr.entry
  have hfinite := hr.wellFormed.reachable_finite he
  obtain ⟨f, hends, hclosed⟩ : ∃ f,
      (∀ fuel > hfinite.toFinset.card,
        layer0Search H r dist evalPredicate k efSearch fuel entry = some f) ∧
      Closed (layer0 r dist evalPredicate) ⟨k, true, 0⟩ (· ∈ hfinite.toFinset) entry false f := by
    refine Terrain.search_closed H hD hk (fun t ht u hu _ => ?_) ?_ rfl fun hs => by cases hs
    · rw [neighbors_layer0 hr.wellFormed] at hu
      rw [Set.Finite.mem_toFinset] at ht ⊢
      exact Relation.ReflTransGen.tail ht hu
    · rw [Set.Finite.mem_toFinset]
      exact Relation.ReflTransGen.refl
  refine ⟨f, ⟨_, hends⟩, { hclosed with visited := fun v hv => ?_ }⟩
  obtain ⟨hmem, hallowed⟩ := hclosed.visited v hv
  rw [Set.Finite.mem_toFinset] at hmem
  exact ⟨hmem, hallowed⟩

/-- Every live element has a first row. -/
def FirstRows (r : Relation V Q) : Prop :=
  ∀ {t : Tid} {e : ElementTuple V}, r.element t = some e → e.deleted = false →
    e.heaptid.isValid = true

/-- There are no more live elements than rows. -/
theorem Indexed.card_live_le (h : Indexed r entry) (S : Finset Tid) :
    (S.filter fun t => isLive r t = true).card ≤ ∑ t ∈ S, (rowsOf r t).length := by
  rw [Finset.card_filter]
  apply Finset.sum_le_sum
  intro t _
  split
  · exact List.length_pos_of_mem (h.primary_mem ‹_›)
  · exact Nat.zero_le _

/-! ### When it finds what it should -/

/-- What the search may answer does match. -/
theorem Indexed.matches_of_member (hr : Indexed r entry) {t : Tid}
    (h : (layer0 r dist evalPredicate).member t = true) :
    Matches r evalPredicate t ∧ primaryRow r t ∈ passingRows r evalPredicate t := by
  obtain ⟨hlive, hpass⟩ := Bool.and_eq_true_iff.mp h
  have hmem : primaryRow r t ∈ passingRows r evalPredicate t :=
    List.mem_filter.mpr ⟨hr.primary_mem hlive, hpass⟩
  exact ⟨⟨hlive, List.ne_nil_of_mem hmem⟩, hmem⟩

/-- Where first rows suffice, what matches may be answered. -/
theorem FirstRowsSuffice.member (h : FirstRowsSuffice r evalPredicate entry) {t : Tid}
    (ht : r.Reachable entry t) (hm : Matches r evalPredicate t) :
    t ≠ entry ∧ (layer0 r dist evalPredicate).member t = true := by
  refine ⟨fun heq => h.1 (heq ▸ hm), Bool.and_eq_true_iff.mpr ⟨hm.1, ?_⟩⟩
  have hrow : primaryRow r t ∈ passingRows r evalPredicate t := by
    rw [h.2 t ht hm]
    exact List.mem_singleton_self _
  exact (List.mem_filter.mp hrow).2

omit [CDouble D] in
theorem resultTids_eq {f : Found Tid D} {passing : Tid → List Tid}
    (h : ∀ c ∈ f.results, passing c.1 = [primaryRow r c.1]) :
    resultTids r f = (f.results.map Prod.fst).flatMap passing := by
  rw [resultTids, List.flatMap_map]
  revert h
  generalize f.results = cs
  intro h
  induction cs with
  | nil => rfl
  | cons c cs ih =>
    rw [List.map_cons, List.flatMap_cons, h c List.mem_cons_self,
      ih fun c' hc' => h c' (List.mem_cons_of_mem c hc')]
    rfl

/-- Where first rows suffice the search finds what it should. -/
theorem FirstRowsSuffice.complete (hD : TotalOrder D) (hr : Indexed r entry)
    (h : FirstRowsSuffice r evalPredicate entry) (hk : 1 ≤ k) (efSearch : Nat) :
    Complete H r dist evalPredicate entry k efSearch := by
  obtain ⟨f, hends, hclosed⟩ := layer0Search_closed H dist evalPredicate hD hr hk efSearch
  have hresult : ∀ c ∈ f.results, c.1 ∈ f.visited ∧ Matches r evalPredicate c.1 ∧
      passingRows r evalPredicate c.1 = [primaryRow r c.1] := fun c hc => by
    obtain ⟨hv, -, -, -, hm⟩ := hclosed.results c hc
    have hmatch := (hr.matches_of_member hm).1
    exact ⟨hv, hmatch, h.2 c.1 (hclosed.visited c.1 hv).1 hmatch⟩
  have hkept : ∀ t ∈ f.visited, Matches r evalPredicate t → t ∈ f.results.map Prod.fst ∨
      (f.results.length = k ∧ ∀ c ∈ f.results,
        CDouble.lt ((layer0 r dist evalPredicate).distance t) c.2 = false) := fun t ht hm => by
    obtain ⟨hne, hmember⟩ : t ≠ entry ∧ (layer0 r dist evalPredicate).member t = true :=
      h.member (hclosed.visited t ht).1 hm
    exact hclosed.kept t ht rfl hmember fun heq => absurd heq hne
  have hout : resultTids r f = (f.results.map Prod.fst).flatMap (passingRows r evalPredicate) :=
    resultTids_eq fun c hc => (hresult c hc).2.2
  refine ⟨f, hends, hclosed.start, ⟨f.results.map Prod.fst, hout, hclosed.nodup, ?_, ?_, ?_, ?_⟩, ?_⟩
  · intro t ht
    obtain ⟨c, hc, rfl⟩ := List.mem_map.mp ht
    exact ⟨(hresult c hc).1, (hresult c hc).2.1⟩
  · rw [List.length_map]
    exact hclosed.length
  · rw [List.pairwise_map]
    refine hclosed.sorted.imp_of_mem fun {a b} ha hb hle => ?_
    rwa [← (hclosed.results a ha).2.2.1, ← (hclosed.results b hb).2.2.1]
  · intro t ht hm hnot
    obtain ⟨hlength, hfar⟩ := (hkept t ht hm).resolve_left hnot
    refine ⟨by rw [List.length_map, hlength], fun u hu => ?_⟩
    obtain ⟨c, hc, rfl⟩ := List.mem_map.mp hu
    rw [← (hclosed.results c hc).2.2.1]
    exact hfar c hc
  · intro S hS hrows row
    rw [hout, List.mem_flatMap]
    constructor
    · rintro ⟨t, ht, hrow⟩
      obtain ⟨c, hc, rfl⟩ := List.mem_map.mp ht
      exact ⟨c.1, (hS c.1).mpr (hclosed.visited c.1 (hresult c hc).1).1, (hresult c hc).2.1.1, hrow⟩
    · rintro ⟨t, ht, hlive, hrow⟩
      refine ⟨t, ?_, hrow⟩
      have hm : Matches r evalPredicate t := ⟨hlive, List.ne_nil_of_mem hrow⟩
      by_cases hroom : f.results.length = k
      · -- full: then the results are all the live elements there are
        have hsub : (f.results.map Prod.fst).toFinset ⊆ S.filter fun t => isLive r t = true := by
          intro u hu
          obtain ⟨c, hc, rfl⟩ := List.mem_map.mp (List.mem_toFinset.mp hu)
          exact Finset.mem_filter.mpr ⟨(hS c.1).mpr (hclosed.visited c.1 (hresult c hc).1).1,
            (hresult c hc).2.1.1⟩
        have hcard : (S.filter fun t => isLive r t = true).card ≤
            (f.results.map Prod.fst).toFinset.card := by
          rw [List.toFinset_card_of_nodup hclosed.nodup, List.length_map, hroom]
          exact (hr.card_live_le S).trans (hrows.trans (Nat.min_le_left _ _))
        rw [← List.mem_toFinset, Finset.eq_of_subset_of_card_le hsub hcard]
        exact Finset.mem_filter.mpr ⟨ht, hlive⟩
      · have hv : t ∈ f.visited :=
          hclosed.reached rfl (fun _ => rfl) hroom (reached_layer0 hr.wellFormed ((hS t).mp ht))
        exact (hkept t hv hm).resolve_right fun hfull => hroom hfull.1

/-- Nonempty parts are together at least their number long. -/
theorem length_le_flatMap {α β : Type} {f : α → List β} {l : List α} (hne : ∀ t ∈ l, f t ≠ []) :
    l.length ≤ (l.flatMap f).length := by
  induction l with
  | nil => exact le_rfl
  | cons a l ih =>
    have hpos : 0 < (f a).length := List.length_pos_iff.mpr (hne a List.mem_cons_self)
    have := ih fun t ht => hne t (List.mem_cons_of_mem a ht)
    rw [List.flatMap_cons, List.length_append, List.length_cons]
    omega

/-- Nonempty parts no longer together than their number are single. -/
theorem length_eq_one_of_flatMap {α β : Type} {f : α → List β} {l : List α}
    (hne : ∀ t ∈ l, f t ≠ []) (h : (l.flatMap f).length ≤ l.length) : ∀ t ∈ l, (f t).length = 1 := by
  induction l with
  | nil => exact fun t ht => absurd ht List.not_mem_nil
  | cons a l ih =>
    have hpos : 0 < (f a).length := List.length_pos_iff.mpr (hne a List.mem_cons_self)
    have hrest : l.length ≤ (l.flatMap f).length := length_le_flatMap fun t ht =>
      hne t (List.mem_cons_of_mem a ht)
    rw [List.flatMap_cons, List.length_append, List.length_cons] at h
    intro t ht
    obtain rfl | ht := List.mem_cons.mp ht
    · omega
    · exact ih (fun t ht => hne t (List.mem_cons_of_mem a ht)) (by omega) t ht

/-- A search with room for everything finds what it should only where first rows
suffice: what it answers has one row for each element, and the entry is not among
them. -/
theorem FirstRowsSuffice.of_complete (hD : TotalOrder D) (hr : Indexed r entry) {efSearch : Nat}
    {S : Finset Tid} (hS : ∀ t, t ∈ S ↔ r.Reachable entry t)
    (h : Complete H r dist evalPredicate entry (S.card + 1) efSearch) :
    FirstRowsSuffice r evalPredicate entry := by
  obtain ⟨f, ⟨n, hends⟩, -, ⟨chosen, hout, hnodup, hchosen, hlength, -, hnear⟩, -⟩ := h
  obtain ⟨f', ⟨n', hends'⟩, hclosed⟩ := layer0Search_closed H dist evalPredicate hD hr
    (Nat.le_add_left 1 S.card) efSearch
  obtain rfl : f = f' := Option.some.inj
    ((hends (n + n' + 1) (by omega)).symm.trans (hends' (n + n' + 1) (by omega)))
  -- nothing is turned away, and all that is reachable is visited
  have hcard : ∀ ts : List Tid, ts.Nodup → (∀ t ∈ ts, t ∈ f.visited) → ts.length ≤ S.card := by
    intro ts hts hsub
    rw [← List.toFinset_card_of_nodup hts]
    apply Finset.card_le_card
    intro t ht
    exact (hS t).mpr (hclosed.visited t (hsub t (List.mem_toFinset.mp ht))).1
  have hroom : f.results.length ≠ S.card + 1 := by
    have := hcard _ hclosed.nodup fun t ht => by
      obtain ⟨c, hc, rfl⟩ := List.mem_map.mp ht
      exact (hclosed.results c hc).1
    rw [List.length_map] at this
    omega
  have hvisited : ∀ t, r.Reachable entry t → t ∈ f.visited := fun t ht =>
    hclosed.reached rfl (fun _ => rfl) hroom (reached_layer0 hr.wellFormed ht)
  have hmatching : ∀ t, r.Reachable entry t → Matches r evalPredicate t → t ∈ chosen := by
    intro t ht hm
    by_contra hnot
    have := hcard chosen hnodup fun u hu => (hchosen u hu).1
    have := (hnear t (hvisited t ht) hm hnot).1
    omega
  -- the results are chosen, and there are as many rows as results
  have hresults : (f.results.map Prod.fst).toFinset ⊆ chosen.toFinset := by
    intro t ht
    obtain ⟨c, hc, rfl⟩ := List.mem_map.mp (List.mem_toFinset.mp ht)
    obtain ⟨hv, -, -, -, hm⟩ := hclosed.results c hc
    exact List.mem_toFinset.mpr (hmatching c.1 (hclosed.visited c.1 hv).1
      (hr.matches_of_member hm).1)
  have hlength : (resultTids r f).length = (f.results.map Prod.fst).toFinset.card := by
    rw [List.toFinset_card_of_nodup hclosed.nodup, resultTids, List.length_map, List.length_map]
  have hfew : (chosen.flatMap (passingRows r evalPredicate)).length ≤ chosen.length := by
    rw [← hout, hlength, ← List.toFinset_card_of_nodup hnodup]
    exact Finset.card_le_card hresults
  have hall : (f.results.map Prod.fst).toFinset = chosen.toFinset := by
    apply Finset.eq_of_subset_of_card_le hresults
    rw [List.toFinset_card_of_nodup hnodup, ← hlength, hout]
    exact length_le_flatMap fun t ht => (hchosen t ht).2.2
  have hmember : ∀ t ∈ chosen, t ∈ f.results.map Prod.fst := fun t ht => by
    rwa [← List.mem_toFinset, hall, List.mem_toFinset]
  constructor
  · intro hm
    exact hclosed.unseeded rfl (hmember entry (hmatching entry .refl hm))
  · intro t ht hm
    have hone := length_eq_one_of_flatMap (fun t ht => (hchosen t ht).2.2) hfew t (hmatching t ht hm)
    obtain ⟨c, hc, rfl⟩ := List.mem_map.mp (hmember t (hmatching t ht hm))
    obtain ⟨-, -, -, -, hmc⟩ := hclosed.results c hc
    obtain ⟨row, hrow⟩ := List.length_eq_one_iff.mp hone
    have := (hr.matches_of_member hmc).2
    rw [hrow, List.mem_singleton] at this
    rw [hrow, this]

/-- **The Tier-1 search is complete and nearest first**, for every `k` and
`ef_search`, exactly where first rows suffice: the entry does not match, and no
other matching element has more rows to give than its first. -/
theorem layer0Search_iff (H : PairingHeap) (r : Relation V Q) (dist : V → D)
    (evalPredicate : Tid → Bool) (entry : Tid) (hD : TotalOrder D) (hr : Indexed r entry) :
    (∀ k ≥ 1, ∀ efSearch, Complete H r dist evalPredicate entry k efSearch) ↔
      FirstRowsSuffice r evalPredicate entry := by
  constructor
  · intro h
    obtain ⟨e, he⟩ := hr.entry
    have hfinite := hr.wellFormed.reachable_finite he
    have hS : ∀ t, t ∈ hfinite.toFinset ↔ r.Reachable entry t := fun t => by
      rw [Set.Finite.mem_toFinset]
      rfl
    exact .of_complete hD hr hS (h (hfinite.toFinset.card + 1) (by omega) 0)
  · exact fun h k hk efSearch => h.complete hD hr hk efSearch

/-! ### A table of one row, and one of five -/

instance (r : Relation V Q) (evalPredicate : Tid → Bool) (t : Tid) :
    Decidable (Matches r evalPredicate t) := inferInstanceAs (Decidable (_ ∧ _))

omit [CDouble D] in
theorem Matches.element {r : Relation V Q} {evalPredicate : Tid → Bool} {t : Tid}
    (h : Matches r evalPredicate t) : ∃ e, r.element t = some e := by
  have hlive := h.1
  unfold isLive at hlive
  split at hlive
  · exact ⟨_, ‹_›⟩
  · cases hlive

/-- The index of a table whose only row is at `(7,1)`. -/
def soleElement : Relation Int Unit where
  metaPage := ⟨1, 2, 1, 2, 0, false, 0⟩
  pages := [⟨[.neighbor ⟨List.replicate 4 Tid.invalid, none⟩,
    .element ⟨0, false, singleHeaptid ⟨7, 1⟩, ⟨1, 1⟩, 0, 5⟩], 32, 8056⟩]

/-- Four elements of five rows: the second one has two of them, and the third one is deleted. -/
def fourElements : Relation Int Unit where
  metaPage := ⟨1, 2, 1, 2, 0, false, 0⟩
  pages := [⟨[.neighbor ⟨[⟨1, 4⟩, ⟨1, 6⟩, .invalid, .invalid], none⟩,
    .element ⟨0, false, singleHeaptid ⟨7, 1⟩, ⟨1, 1⟩, 0, 5⟩,
    .neighbor ⟨[⟨1, 2⟩, ⟨1, 8⟩, .invalid, .invalid], none⟩,
    .element ⟨0, false, (singleHeaptid ⟨7, 2⟩).set 1 ⟨7, 3⟩, ⟨1, 3⟩, 0, 9⟩,
    .neighbor ⟨[⟨1, 2⟩, .invalid, .invalid, .invalid], none⟩,
    .element ⟨0, true, singleHeaptid ⟨7, 4⟩, ⟨1, 5⟩, 0, 6⟩,
    .neighbor ⟨[⟨1, 4⟩, .invalid, .invalid, .invalid], none⟩,
    .element ⟨0, false, singleHeaptid ⟨7, 5⟩, ⟨1, 7⟩, 0, 8⟩], 56, 7700⟩]

theorem indexed_of_elements {r : Relation V Q} {entry : Tid} (hr : r.WellFormed)
    (hentry : (r.element entry).isSome = true)
    (hrows : ∀ x ∈ r.elements, x.2.deleted = false → x.2.heaptid.isValid = true) :
    Indexed r entry :=
  ⟨hr, Option.isSome_iff_exists.mp hentry, Relation.forall_elements.mp hrows⟩

theorem soleElement_indexed : Indexed soleElement ⟨1, 2⟩ :=
  indexed_of_elements (by decide +kernel) (by decide) (by decide +kernel)

theorem fourElements_indexed : Indexed fourElements ⟨1, 2⟩ :=
  indexed_of_elements (by decide +kernel) (by decide) (by decide +kernel)

/-- The rows of the last three elements, but for the second one of two. -/
def wanted (t : Tid) : Bool := decide (t ∈ [⟨7, 2⟩, ⟨7, 4⟩, (⟨7, 5⟩ : Tid)])

/-- The entry does not match; two of the others do, with their first row only. -/
theorem layer0Search_iff_fourElements : FirstRowsSuffice fourElements wanted ⟨1, 2⟩ ∧
    ∀ k ≥ 1, ∀ efSearch,
      Complete PairingHeap.list fourElements (fun x : Int => x) wanted ⟨1, 2⟩ k efSearch := by
  have hfirst : ∀ x ∈ fourElements.elements, Matches fourElements wanted x.1 →
      passingRows fourElements wanted x.1 = [primaryRow fourElements x.1] := by
    decide +kernel
  have hsuffice : FirstRowsSuffice fourElements wanted ⟨1, 2⟩ := by
    refine ⟨by decide, fun t _ hm => ?_⟩
    obtain ⟨e, he⟩ := hm.element
    exact Relation.forall_elements.mp hfirst he hm
  exact ⟨hsuffice, (layer0Search_iff PairingHeap.list fourElements (fun x : Int => x) wanted ⟨1, 2⟩
    totalOrder_int fourElements_indexed).mpr hsuffice⟩

example : (layer0Search PairingHeap.list fourElements (fun x : Int => x) wanted 4 4 9 ⟨1, 2⟩).map
    (resultTids fourElements) = some [⟨7, 5⟩, ⟨7, 2⟩] := by decide +kernel

theorem soleElement_neighbors : soleElement.layerNeighbors 0 ⟨1, 2⟩ = [] := by decide

theorem soleElement_reachable (t : Tid) : soleElement.Reachable ⟨1, 2⟩ t ↔ t = ⟨1, 2⟩ := by
  constructor
  · intro h
    induction h with
    | refl => rfl
    | tail _ hstep ih =>
      rw [ih, soleElement_neighbors] at hstep
      exact absurd hstep List.not_mem_nil
  · rintro rfl
    exact .refl

/-- The only row of a table is lost, though it passes and there is room for it. -/
theorem soleElement_lost : ¬ Complete PairingHeap.list soleElement (fun x : Int => x)
    (fun _ => true) ⟨1, 2⟩ 2 2 := by
  intro h
  have hS : ∀ t, t ∈ ({⟨1, 2⟩} : Finset Tid) ↔ soleElement.Reachable ⟨1, 2⟩ t := fun t => by
    rw [Finset.mem_singleton, soleElement_reachable]
  have hfirst := FirstRowsSuffice.of_complete totalOrder_int soleElement_indexed hS h
  exact hfirst.1 ⟨by decide, by decide⟩

end

end PgAcorn.Tier1
