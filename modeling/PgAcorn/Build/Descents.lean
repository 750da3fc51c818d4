import PgAcorn.Build.Insert
import PgAcorn.Build.MemInsert
import PgAcorn.Scan.Descent

/-! The three greedy descents: of the in-memory graph, of an index under a build, and of an
index under a scan.

Each is the same walk over its own reads. On a graph whose layers are closed under its
neighbor lists, it ends, reads inside the slots of the nodes it is on, never moves away from
the query, and stays where no neighbor is strictly nearer; and the three agree on graphs that
correspond, because they break ties alike (`descents_agree`). -/
namespace PgAcorn.Build
open Library

variable {I V Q D : Type}

/-! ### In memory -/

/-- The in-memory graph as a descent reads it. -/
def MemGraph.layered {mb : MemBuild V} (g : MemGraph mb) (dist : V → V → D) (query : V) :
    LayeredGraph (Fin mb.nNodes) D where
  distance id := dist (mb.nodes id).vec query
  On lc id := lc ≤ (mb.nodes id).level
  neighbors := g.build.neighbors
  slots id := (g.nbr id).length
  start lc id := hnswNeighborStart mb.mEff (mb.nodes id).level lc
  width lc := t2LayerM lc mb.mEff mb.payloadM

/-- A neighbor in a layer has the layer. -/
def MemGraph.Layered {mb : MemBuild V} (g : MemGraph mb) : Prop :=
  ∀ {lc : Nat} {id u : Fin mb.nNodes}, lc ≤ (mb.nodes id).level → u ∈ g.build.neighbors lc id →
    lc ≤ (mb.nodes u).level

theorem MemGraph.Layered.layered {mb : MemBuild V} {g : MemGraph mb} (hg : g.Layered)
    (dist : V → V → D) (query : V) : (g.layered dist query).WellFormed where
  neighbors := hg
  below := fun h => Nat.le_of_succ_le h
  finite := Set.toFinite _
  inside := by
    intro lc id hl
    have hend := layer_end_le hl mb.mEff mb.payloadM
    rw [← g.slots id] at hend
    show 0 ≤ hnswNeighborStart mb.mEff (mb.nodes id).level lc ∧
      hnswNeighborStart mb.mEff (mb.nodes id).level lc + (t2LayerM lc mb.mEff mb.payloadM : Nat) ≤
        ((g.nbr id).length : Int)
    rw [hnswNeighborStart_eq hl]
    omega

theorem MemGraph.reads {mb : MemBuild V} (g : MemGraph mb) (dist : V → V → D) (query : V) :
    (g.layered dist query).Reads (· = g) (fun id => pure (dist (mb.nodes id).vec query))
      memNeighbors where
  distance := fun _ => .pure _
  neighbors := fun hl => .read fun s hs => by rw [hs]; exact if_pos hl

/-! ### On disk -/

theorem nodeDistance_answers {oc : Opclass V Q D} {query : V} {r : Relation V Q} {t : Tid}
    {e : ElementTuple V} (he : r.element t = some e) :
    (distanceTo oc query t).Answers (fun s : Disk I V Q => s.relation = r) (oc.dist e.vec query) := by
  refine .bind (a := (oc.dist e.vec query, e.filterVal)) (.read fun s hs => ?_) (.pure _)
  rw [hs, he]
  rfl

/-- What is read of a layer is recorded, and no page changes. -/
theorem neighborsAt_answers {r : Relation V Q} (hr : r.WellFormed) {t : Tid} {e : ElementTuple V}
    {lc : Nat} (he : r.element t = some e) (hl : lc ≤ e.level) :
    (neighborsAt r.metaPage.m r.metaPage.payloadWidth lc t).Answers
      (fun s : Disk I V Q => s.relation = r) (r.layerNeighbors lc t) := by
  obtain ⟨n, hn, hcount⟩ := hr.neighbors he
  refine .bind (a := e) (.read fun s hs => ?_) ?_
  · rw [hs]
    exact he
  refine .bind (a := layerSlots r.metaPage.m r.metaPage.payloadWidth e.level lc n.tids) ?_ ?_
  · rintro s rfl
    refine ⟨s.access ⟨e.neighbortid, lc, hnswNeighborStart s.relation.metaPage.m e.level lc,
      t2LayerM lc s.relation.metaPage.m s.relation.metaPage.payloadWidth, true⟩,
      Prog.exec_lift ?_, rfl⟩
    rw [hn, Option.bind_some, min_eq_left (hr.hnswMaxNeighbors_ge lc),
      Relation.slotRange_layer hcount hl]
  · rw [Relation.layerNeighbors_eq he hn]
    exact .pure _

variable [CDouble D]

theorem diskReads {r : Relation V Q} (hr : r.WellFormed) (oc : Opclass V Q D) (query : V) :
    (r.layered fun v => oc.dist v query).Reads (fun s : Disk I V Q => s.relation = r)
      (distanceTo oc query) (neighborsAt r.metaPage.m r.metaPage.payloadWidth) where
  distance := by
    rintro t ⟨e, he, -⟩
    rw [Relation.layered_distance he]
    exact nodeDistance_answers he
  neighbors := by
    rintro lc t ⟨e, he, hl⟩
    exact neighborsAt_answers hr he hl

/-! ### All three -/

/-- **The greedy descents** of an in-memory graph, of an index a build reads and of an index a
scan reads, each from a node of the layer they start on. Each ends with enough fuel, on a local
minimum of the last layer, after passes that read inside the slots of the node they are made
at and never move away from the query. Where two of the graphs correspond, the descents from
corresponding nodes end on corresponding nodes. -/
theorem descents_agree {mb : MemBuild V} {g : MemGraph mb} (hg : g.Layered) (dist : V → V → D)
    (query : V) {ep : Fin mb.nNodes} {fromLevel : Nat} (hep : fromLevel ≤ (mb.nodes ep).level)
    {s : Disk I V Q} (hs : s.relation.WellFormed) (oc : Opclass V Q D) (queryb : V) {tb : Tid}
    (htb : ∃ e, s.relation.element tb = some e ∧ fromLevel ≤ e.level)
    {S : Scan.Stream V Q D} (hS : S.index.WellFormed) (hm : S.m = S.index.metaPage.m) {ts : Tid}
    (hts : ∃ e, S.index.element ts = some e ∧ fromLevel ≤ e.level) (toLevel : Nat) :
    ∃ idm tidb tids,
      (g.layered dist query).Descends toLevel fromLevel ep idm (fun fuel =>
        ((memGreedyDescend dist fuel ep query fromLevel toLevel).exec g).map Prod.fst) ∧
      (s.relation.layered fun v => oc.dist v queryb).Descends toLevel fromLevel tb tidb (fun fuel =>
        ((greedyDescendBuild oc fuel queryb s.relation.metaPage.m s.relation.metaPage.payloadWidth
          tb fromLevel toLevel).exec s).map Prod.fst) ∧
      (S.index.layered S.kernels.etupDistance).Descends toLevel fromLevel ts tids (fun fuel =>
        Scan.t2GreedyDescent S fuel ts fromLevel toLevel) ∧
      (∀ φ, (g.layered dist query).Corresponds (s.relation.layered fun v => oc.dist v queryb) φ →
        φ ep = tb → tidb = φ idm) ∧
      (∀ φ, (g.layered dist query).Corresponds (S.index.layered S.kernels.etupDistance) φ →
        φ ep = ts → tids = φ idm) ∧
      ∀ φ, (s.relation.layered fun v => oc.dist v queryb).Corresponds
        (S.index.layered S.kernels.etupDistance) φ → φ tb = ts → tids = φ tidb := by
  obtain ⟨idm, hmem⟩ := (g.reads dist query).descends (hg.layered dist query) toLevel hep rfl
  obtain ⟨tidb, hdisk⟩ := (diskReads hs oc queryb).descends (hs.layered _) toLevel htb
    (rfl : s.relation = s.relation)
  obtain ⟨tids, hscan⟩ := Scan.t2GreedyDescent_descends hS hm hts toLevel
  refine ⟨idm, tidb, tids, hmem, hdisk, hscan, ?_, ?_, ?_⟩
  · rintro φ hφ rfl
    exact hφ.descends (hg.layered dist query) hep hmem hdisk
  · rintro φ hφ rfl
    exact hφ.descends (hg.layered dist query) hep hmem hscan
  · rintro φ hφ rfl
    exact hφ.descends (hs.layered _) htb hdisk hscan

/-! ### Two nodes -/

attribute [local instance] neZero_two

/-- Two nodes on a line that name each other, in two layers. -/
def ladderBuild : MemBuild Int where
  mEff := 2
  payloadM := 2
  nNodes := 2
  nodes id := ⟨1, 7, id.val, [some (1 - id), none, some (1 - id), none, none, none]⟩
  slots _ := rfl

def ladderGraph : MemGraph ladderBuild where
  pushed := 2
  nbr id := (ladderBuild.nodes id).nbr
  slots := ladderBuild.slots
  entry := none
  partEntry _ := none

/-- The same two in an index. -/
def ladderIndex : Relation Int Unit where
  metaPage := ⟨1, 2, 1, 2, 1, false, 0⟩
  pages := [⟨[.neighbor ⟨[⟨1, 4⟩, Tid.invalid] ++ ⟨1, 4⟩ :: .replicate 3 Tid.invalid, none⟩,
    .element ⟨1, false, Vector.replicate _ ⟨7, 1⟩, ⟨1, 1⟩, 7, 0⟩,
    .neighbor ⟨[⟨1, 2⟩, Tid.invalid] ++ ⟨1, 2⟩ :: .replicate 3 Tid.invalid, none⟩,
    .element ⟨1, false, Vector.replicate _ ⟨7, 2⟩, ⟨1, 3⟩, 7, 1⟩], 40, 7800⟩]

theorem ladderIndex_element {t : Tid} {e : ElementTuple Int} (h : ladderIndex.element t = some e) :
    (t = ⟨1, 2⟩ ∨ t = ⟨1, 4⟩) ∧ e.level = 1 := by
  obtain ⟨b, o⟩ := t
  have hitem := Relation.element_some.mp h
  match b, o with
  | 0, _ => simp [Relation.item] at hitem
  | 1, 0 | 1, 1 | 1, 3 => simp [Relation.item, ladderIndex] at hitem
  | 1, 2 | 1, 4 =>
    obtain rfl : _ = e := by simpa [Relation.item, ladderIndex] using hitem
    exact ⟨by simp, rfl⟩
  | 1, o + 5 => simp [Relation.item, ladderIndex] at hitem
  | b + 2, o => simp [Relation.item, ladderIndex] at hitem

theorem ladderIndex_wellFormed : ladderIndex.WellFormed where
  m_pos := show 0 < 2 by decide
  width := show 2 + 2 ≤ 200 by decide
  neighbors {t e} h := by
    obtain ⟨rfl | rfl, -⟩ := ladderIndex_element h
    all_goals
      cases h
      exact ⟨_, rfl, rfl⟩
  targets {t u e layer} h hl hu := by
    obtain ⟨ht, hlevel⟩ := ladderIndex_element h
    rw [hlevel] at hl
    have hother : u = ⟨1, 4⟩ ∨ u = ⟨1, 2⟩ := by
      obtain rfl | rfl : layer = 0 ∨ layer = 1 := by omega
      all_goals
        rcases ht with rfl | rfl
        · exact .inl (List.mem_singleton.mp hu)
        · exact .inr (List.mem_singleton.mp hu)
    rcases hother with rfl | rfl <;> exact ⟨_, rfl, hl⟩
  entry _ := ⟨_, rfl, rfl⟩

def ladderDisk : Disk Nat Int Unit := ⟨ladderIndex, [], [], [], [], fun _ _ => []⟩

def ladderOps : Opclass Int Unit Int := ⟨fun a b => |a - b|, fun _ => 4, fun _ => 1, fun _ _ => ()⟩

def ladderScan : Scan.Stream Int Unit Int :=
  .ofIndex ⟨false, true, true, true, true, true, true, none⟩ Filter.Fmgr.builtin
    ⟨fun v => |v - 5|, fun _ => 0, fun d _ => d, true⟩ none ladderIndex [] 40

/-- Towards 5, from the first node. -/
theorem descents_agree_ladder :
    ∃ idm tidb tids,
      (ladderGraph.layered ladderOps.dist 5).Descends 0 1 ⟨0, by decide⟩ idm (fun fuel =>
        ((memGreedyDescend ladderOps.dist fuel ⟨0, by decide⟩ 5 1 0).exec ladderGraph).map Prod.fst) ∧
      (ladderIndex.layered fun v => ladderOps.dist v 5).Descends 0 1 ⟨1, 2⟩ tidb (fun fuel =>
        ((greedyDescendBuild ladderOps fuel 5 2 2 ⟨1, 2⟩ 1 0).exec ladderDisk).map Prod.fst) ∧
      tids = tidb := by
  have hg : ladderGraph.Layered := fun hl _ => hl
  have hep : 1 ≤ (ladderBuild.nodes ⟨0, by decide⟩).level := le_rfl
  have hs : ladderDisk.relation.WellFormed := ladderIndex_wellFormed
  have ht : ∃ e, ladderIndex.element ⟨1, 2⟩ = some e ∧ 1 ≤ e.level := ⟨_, rfl, le_rfl⟩
  obtain ⟨idm, tidb, tids, hmem, hdisk, -, -, -, hsame⟩ := descents_agree hg ladderOps.dist 5 hep hs
    ladderOps 5 ht (S := ladderScan) ladderIndex_wellFormed rfl ht 0
  exact ⟨idm, tidb, tids, hmem, hdisk, hsame id ⟨fun _ => rfl, fun _ => (List.map_id _).symm⟩ rfl⟩

example : ((memGreedyDescend ladderOps.dist 2 ⟨0, by decide⟩ 5 1 0).exec ladderGraph).map Prod.fst =
    some ⟨1, by decide⟩ := by decide +kernel

end PgAcorn.Build
