import PgAcorn.Graph
import PgAcorn.Scan.Begin
import Mathlib.Algebra.Order.Group.Multiset

/-! What one expansion discovers.

Both expansion routines, whatever mixture of element pages, inline entries and
cache hits they read, come to the same: they queue one discovery for every
layer-0 neighbor of the expanded node that was not visited before (`Expands`).
A discovery is `Genuine` when it tells the truth about its element's immutable
fields; it may miss a deletion, and its distance is one the scan may have read
for the element (`MayDiscover`). -/
namespace PgAcorn.Scan
open Library
open PgAcorn.Filter (Fmgr ScanKey Datum)

section
variable {V Q D : Type}

/-! ### Assumptions on the scanned index -/

/-- The stream scans a well-formed index with the geometry of its meta page, and
what the code cache answers about an element has its immutable fields. -/
structure Serves (S : Stream V Q D) : Prop where
  index : S.index.WellFormed
  m : S.m = S.index.metaPage.m
  payloadM : S.payloadM = S.index.metaPage.payloadWidth
  inline : S.inlineOn = true → S.index.InlineWellFormed ∧ S.cc = none
  cache : ∀ {cc : Tid → Option (CodeCacheHit Q)} {t : Tid} {hit : CodeCacheHit Q}
    {e : ElementTuple V}, S.cc = some cc → cc t = some hit → S.index.element t = some e →
    hit.nbrtid = e.neighbortid ∧ hit.level = e.level ∧ hit.filterVal = e.filterVal ∧
      (hit.deleted = true → e.deleted = true)

/-- The distances and lower bounds with which a scan from `base` may discover an
element: those of its page, of a cache hit, or of an inline entry. -/
inductive MayDiscover (S : Stream V Q D) (base : Tid) : Tid → D → D → Prop
  | page {t : Tid} {e : ElementTuple V} (he : S.index.element t = some e)
      (h : t = base ∨ (S.cc.bind fun cc => cc t) = none) :
      MayDiscover S base t (S.kernels.etupDistance e.vec) (S.kernels.etupDistance e.vec)
  | hit {t : Tid} {hit : CodeCacheHit Q} (h : (S.cc.bind fun cc => cc t) = some hit) :
      MayDiscover S base t (S.kernels.sq8Distance hit.code)
        (S.kernels.inlineLb (S.kernels.sq8Distance hit.code) hit.code)
  | entry {entry : InlineEntry Q} (hon : S.inlineOn = true)
      (h : Relation.HasEntry S.index entry) (hv : entry.valid = true) :
      MayDiscover S base entry.indextid (S.kernels.sq8Distance entry.code)
        (S.kernels.inlineLb (S.kernels.sq8Distance entry.code) entry.code)

/-- Without approximations an element is discovered with the distance of its page. -/
theorem MayDiscover.exact {S : Stream V Q D} {base t : Tid} {d lb : D}
    (h : MayDiscover S base t d lb) (hap : S.approx = false) {e : ElementTuple V}
    (he : S.index.element t = some e) :
    d = S.kernels.etupDistance e.vec ∧ lb = S.kernels.etupDistance e.vec := by
  simp only [Stream.approx, Bool.or_eq_false_iff] at hap
  cases h with
  | page he' _ =>
    rw [Option.some.inj (he'.symm.trans he)]
    exact ⟨rfl, rfl⟩
  | hit h =>
    cases hcc : S.cc with
    | none =>
      rw [hcc] at h
      cases h
    | some cc =>
      rw [hcc] at hap
      cases hap.2
  | entry hon _ _ => exact absurd (hap.1.symm.trans hon) (by simp)

/-- A discovery agrees with its element. -/
structure Genuine (S : Stream V Q D) (base : Tid) (d : Discovery D) (e : ElementTuple V) :
    Prop where
  element : S.index.element d.indextid = some e
  distance : MayDiscover S base d.indextid d.distance d.lb
  filterVal : d.filterVal = e.filterVal
  nbr : d.hasNbr = true → d.nbrtid = e.neighbortid ∧ d.level = e.level
  deleted : d.deleted = true → e.deleted = true
  exact : S.approx = false → d.deleted = e.deleted ∧ d.heaptid = e.heaptid

/-- What a candidate must tell about its node. -/
structure Candidate (S : Stream V Q D) (base : Tid) (c : Elem D) (e : ElementTuple V) : Prop where
  element : S.index.element c.indextid = some e
  distance : MayDiscover S base c.indextid c.distance c.lb
  nbr : c.hasNbr = true → c.nbrtid = e.neighbortid ∧ c.level = e.level

/-! ### Reading the expanded node -/

theorem getNeighbors_layer {r : Relation V Q} (hr : r.WellFormed) {t : Tid} {e : ElementTuple V}
    (he : r.element t = some e) {layer : Nat} (hl : layer ≤ e.level) :
    getNeighbors r e.neighbortid e.level layer r.metaPage.m hnswMaxNeighbors =
      some (r.layerNeighbors layer t) := by
  obtain ⟨n, hn, hcount⟩ := hr.neighbors he
  have hwidth := hr.hnswMaxNeighbors_ge layer
  have hm := hr.m_pos
  have hlen : (if layer = 0 then (n.count : Int) - e.level * r.metaPage.m else r.metaPage.m) =
      (t2LayerM layer r.metaPage.m r.metaPage.payloadWidth : Nat) := by
    split
    · rename_i h0
      subst h0
      rw [hcount, t2LayerM_zero, t2TotalSlots, Nat.succ_mul]
      push_cast
      omega
    · rename_i h0
      rw [t2LayerM_pos (by omega)]
  have hpos : 0 < t2LayerM layer r.metaPage.m r.metaPage.payloadWidth := by
    unfold t2LayerM t2L0Width
    split <;> omega
  simp only [getNeighbors, hn, Option.bind_eq_bind, Option.bind_some, hlen]
  rw [min_eq_left (by exact_mod_cast hwidth), if_neg (by omega), Int.toNat_natCast,
    Relation.slotRange_layer hcount hl, Option.map_some, Relation.layerNeighbors_eq he hn]

/-- A queued candidate's neighbor tuple is its element's. -/
theorem candidateNbr_eq {S : Stream V Q D} {ce : Elem D} {e : ElementTuple V}
    (he : S.index.element ce.indextid = some e)
    (hnbr : ce.hasNbr = true → ce.nbrtid = e.neighbortid ∧ ce.level = e.level) :
    candidateNbr S ce = some (e.level, e.neighbortid) := by
  unfold candidateNbr
  split
  · rename_i h
    rw [(hnbr h).1, (hnbr h).2]
  · rw [he]
    rfl

theorem genuine_loadNode {S : Stream V Q D} (base : Tid) {t : Tid} {e : ElementTuple V}
    (he : S.index.element t = some e)
    (h : t = base ∨ (S.cc.bind fun cc => cc t) = none) (hasNbr : Bool) :
    ∃ d, t2LoadNode S hasNbr t = some d ∧ d.indextid = t ∧ Genuine S base d e := by
  refine ⟨_, by rw [t2LoadNode, he, Option.map_some], rfl, ?_⟩
  exact ⟨he, .page he h, rfl, fun _ => ⟨rfl, rfl⟩, id, fun _ => ⟨rfl, rfl⟩⟩

/-- A layer neighbor is a valid identifier of an element. -/
theorem layerNeighbors_valid {r : Relation V Q} {layer : Nat} {t u : Tid}
    (h : u ∈ r.layerNeighbors layer t) : u.isValid = true := by
  unfold Relation.layerNeighbors at h
  split at h
  · split at h
    · exact (mem_validTids.mp h).2
    · cases h
  · cases h

/-- A cache hit is a genuine discovery. -/
theorem genuine_ofHit {S : Stream V Q D} (hS : Serves S) (base : Tid)
    {cc : Tid → Option (CodeCacheHit Q)} {t : Tid} {hit : CodeCacheHit Q} {e : ElementTuple V}
    (hcc : S.cc = some cc) (hhit : cc t = some hit) (he : S.index.element t = some e) :
    Genuine S base (Discovery.ofHit S t hit) e := by
  obtain ⟨hnbr, hlevel, hfval, hdel⟩ := hS.cache hcc hhit he
  refine ⟨he, .hit (by rw [hcc]; exact hhit), hfval, fun _ => ⟨hnbr, hlevel⟩, hdel, fun hap => ?_⟩
  simp [Stream.approx, hcc] at hap

theorem visit_eq (S : Stream V Q D) (visited : List Tid) (t : Tid) :
    visit S visited t = (!decide (t ∈ visited), markVisited visited t) := by
  unfold visit visitOnce markVisited
  split <;> split <;> simp_all

end

section
variable {V Q D : Type} [CDouble D] {H : PairingHeap}

/-! ### Queueing discoveries -/

/-- The candidates not yet expanded. -/
def frontier (s : State H D) : Multiset (Elem D) := H.contents s.C + H.contents s.Cm

/-- What queueing some discoveries changes, up to the visited set. -/
structure Pushed (S : Stream V Q D) (ds : List (Discovery D)) (s s' : State H D) : Prop where
  frontier : frontier s' = (ds.map Discovery.candidate : List (Elem D)) + frontier s
  R : H.contents s'.R = ((ds.filter (passes S)).map Discovery.result : List (Elem D)) +
    H.contents s.R
  Rx : s'.Rx = s.Rx
  nExpansions : s'.nExpansions = s.nExpansions
  rxCount : s'.rxCount = s.rxCount
  exhausted : s'.exhausted = s.exhausted
  expanded : s'.expanded = s.expanded

/-- Queueing nothing, whatever was visited. -/
theorem Pushed.nil (S : Stream V Q D) (s : State H D) (visited : List Tid) :
    Pushed S [] s { s with visited := visited } :=
  ⟨by simp [Scan.frontier], by simp, rfl, rfl, rfl, rfl, rfl⟩

theorem Pushed.single (S : Stream V Q D) (s : State H D) (d : Discovery D) :
    Pushed S [d] s (push S s d) := by
  unfold push
  dsimp only
  constructor <;> split <;> split <;>
    simp_all [Scan.frontier, H.contents_add]

theorem Pushed.trans {S : Stream V Q D} {ds ds' : List (Discovery D)} {s s' s'' : State H D}
    (h : Pushed S ds s s') (h' : Pushed S ds' s' s'') : Pushed S (ds ++ ds') s s'' := by
  refine ⟨?_, ?_, h'.Rx.trans h.Rx, h'.nExpansions.trans h.nExpansions,
    h'.rxCount.trans h.rxCount, h'.exhausted.trans h.exhausted, h'.expanded.trans h.expanded⟩
  · rw [h'.frontier, h.frontier, List.map_append, ← Multiset.coe_add, ← add_assoc,
      add_comm (ds'.map Discovery.candidate : Multiset (Elem D))]
  · rw [h'.R, h.R, List.filter_append, List.map_append, ← Multiset.coe_add, ← add_assoc,
      add_comm ((ds'.filter (passes S)).map Discovery.result : Multiset (Elem D))]

@[simp] theorem visited_push (S : Stream V Q D) (s : State H D) (d : Discovery D) :
    (push S s d).visited = s.visited := by
  unfold push
  dsimp only
  split <;> split <;> rfl

/-! ### One expansion -/

/-- Some neighbors have been discovered: each of `ts` that was not visited before
is visited and queued once, and nothing else is. -/
structure Discovers (S : Stream V Q D) (base : Tid) (ts : List Tid) (ds : List (Discovery D))
    (s s' : State H D) : Prop where
  pushed : Pushed S ds s s'
  visited : List.Perm s'.visited (ds.map Discovery.indextid ++ s.visited)
  nodup : s.visited.Nodup → s'.visited.Nodup
  mem : ∀ t, t ∈ s'.visited ↔ t ∈ s.visited ∨ t ∈ ts
  genuine : ∀ d ∈ ds, ∃ e, Genuine S base d e

/-- Nothing new: every neighbor was visited. -/
theorem Discovers.of_visited (S : Stream V Q D) (base : Tid) {ts : List Tid} {s : State H D}
    (h : ∀ t ∈ ts, t ∈ s.visited) : Discovers S base ts [] s s :=
  ⟨Pushed.nil S s s.visited, by simp, id, fun t => ⟨.inl, fun h' => h'.elim id (h t)⟩, by simp⟩

theorem Discovers.single {S : Stream V Q D} {base : Tid} {s : State H D} {d : Discovery D}
    {e : ElementTuple V} (hd : Genuine S base d e) (hnew : d.indextid ∉ s.visited) :
    Discovers S base [d.indextid] [d] s
      (push S { s with visited := d.indextid :: s.visited } d) := by
  refine ⟨(Pushed.nil S s _).trans (Pushed.single S _ d), by simp, fun hn => ?_, fun t => ?_,
    fun d' hd' => ?_⟩
  · rw [visited_push]
    exact List.nodup_cons.mpr ⟨hnew, hn⟩
  · rw [visited_push, List.mem_cons, List.mem_singleton, or_comm]
  · obtain rfl := List.mem_singleton.mp hd'
    exact ⟨e, hd⟩

theorem Discovers.trans {S : Stream V Q D} {base : Tid} {ts ts' : List Tid}
    {ds ds' : List (Discovery D)} {s s' s'' : State H D} (h : Discovers S base ts ds s s')
    (h' : Discovers S base ts' ds' s' s'') : Discovers S base (ts ++ ts') (ds ++ ds') s s'' := by
  refine ⟨h.pushed.trans h'.pushed, ?_, h'.nodup ∘ h.nodup, fun t => ?_, fun d hd => ?_⟩
  · rw [List.map_append, List.append_assoc]
    exact (h'.visited.trans (List.Perm.append_left _ h.visited)).trans
      (List.perm_append_comm_assoc _ _ _)
  · rw [h'.mem, h.mem, List.mem_append, or_assoc]
  · rcases List.mem_append.mp hd with hd | hd
    · exact h.genuine d hd
    · exact h'.genuine d hd

/-! ### Expansion over page reads and cache hits -/

/-- One neighbor: discovered unless visited before. -/
theorem expandNeighbor_spec {S : Stream V Q D} (hS : Serves S) (base : Tid) (s : State H D)
    {t : Tid} {e : ElementTuple V} (ht : t.isValid = true) (he : S.index.element t = some e) :
    ∃ ds s', expandNeighbor S s t = some s' ∧ Discovers S base [t] ds s s' := by
  unfold expandNeighbor
  rw [ht, visit_eq]
  by_cases hmem : t ∈ s.visited
  · refine ⟨[], s, by simp [hmem, markVisited], Discovers.of_visited S base ?_⟩
    simpa using hmem
  · simp only [Bool.not_true, Bool.false_eq_true, if_false, hmem, decide_false, Bool.not_false,
      markVisited]
    cases hcc : S.cc.bind fun cc => cc t with
    | some hit =>
      obtain ⟨cc, hcc', hhit⟩ := Option.bind_eq_some_iff.mp hcc
      exact ⟨_, _, rfl, Discovers.single (genuine_ofHit hS base hcc' hhit he) hmem⟩
    | none =>
      obtain ⟨d, hd, rfl, hgen⟩ :=
        genuine_loadNode base he (.inr hcc) S.settings.scanSingleRead
      exact ⟨[d], _, by simp only [hd, Option.map_some], Discovers.single hgen hmem⟩

/-- A list of neighbors, by induction on it. -/
theorem expandNeighbors_spec {S : Stream V Q D} (hS : Serves S) (base : Tid) (s : State H D)
    (ts : List Tid) (hts : ∀ t ∈ ts, t.isValid = true ∧ ∃ e, S.index.element t = some e) :
    ∃ ds s', ts.foldlM (expandNeighbor S) s = some s' ∧ Discovers S base ts ds s s' := by
  induction ts generalizing s with
  | nil => exact ⟨[], s, rfl, Discovers.of_visited S base (by simp)⟩
  | cons t ts ih =>
    obtain ⟨hvalid, e, he⟩ := hts t (by simp)
    obtain ⟨ds, s', hs', hd⟩ := expandNeighbor_spec hS base s hvalid he
    obtain ⟨ds', s'', hs'', hd'⟩ := ih s' fun u hu => hts u (by simp [hu])
    refine ⟨ds ++ ds', s'', ?_, hd.trans hd'⟩
    rw [List.foldlM_cons, hs']
    exact hs''

/-- `acorn_t2_stream_expand` discovers the layer-0 neighbors. -/
theorem t2StreamExpand_spec {S : Stream V Q D} (hS : Serves S) {base : Tid} (s : State H D)
    {ce : Elem D} {e : ElementTuple V} (hc : Candidate S base ce e) :
    ∃ ds s', t2StreamExpand S s ce = some s' ∧
      Discovers S base (S.index.layerNeighbors 0 ce.indextid) ds s s' := by
  have hts : ∀ t ∈ S.index.layerNeighbors 0 ce.indextid,
      t.isValid = true ∧ ∃ e, S.index.element t = some e := fun t ht => by
    obtain ⟨e', he', -⟩ := hS.index.targets hc.element (Nat.zero_le _) ht
    exact ⟨layerNeighbors_valid ht, e', he'⟩
  obtain ⟨ds, s', hs', hd⟩ := expandNeighbors_spec hS base s _ hts
  refine ⟨ds, s', ?_, hd⟩
  rw [t2StreamExpand, candidateNbr_eq hc.element hc.nbr]
  simp only [Option.bind_eq_bind, Option.bind_some]
  rw [hS.m, getNeighbors_layer hS.index hc.element (Nat.zero_le _)]
  exact hs'

end

end PgAcorn.Scan
