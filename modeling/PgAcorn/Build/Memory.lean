import PgAcorn.Library.BestFirst
import PgAcorn.Build.Options

/-! The in-memory graph of a build, and the searches of it.

A node's slots are node numbers, `-1` for an empty one. `acorn_mem_search_layer`
and `acorn_mem_search_partition` are the bounded best-first search, over the nodes
of a layer and over the nodes of one payload partition. Both are closed
(`memSearch_closed`): what they answer is nearest first, was expanded, and what
they met and left out is no nearer. -/
namespace PgAcorn.Build
open Library
open PgAcorn.Filter (Datum)

/-! ### The graph -/

/-- `AcornMemNode`; a slot that is `none` is `-1`. -/
structure MemNode (V : Type) (size : Nat) where
  level : Nat
  filterVal : Datum
  vec : V
  nbr : List (Option (Fin size))

/-- `AcornMemBuild`: its nodes, each with the slots its level asks for. -/
structure MemBuild (V : Type) where
  mEff : Nat
  payloadM : Nat
  nNodes : Nat
  nodes : Fin nNodes → MemNode V nNodes
  slots : ∀ id, (nodes id).nbr.length = t2TotalSlots (nodes id).level mEff payloadM

namespace MemBuild
variable {V D : Type} (mb : MemBuild V)

/-- `acorn_mem_copy_slots`, of a layer the node has. -/
def copySlots (id : Fin mb.nNodes) (layer : Nat) : List (Option (Fin mb.nNodes)) :=
  ((mb.nodes id).nbr.drop (hnswNeighborStart mb.mEff (mb.nodes id).level layer).toNat).take
    (t2LayerM layer mb.mEff mb.payloadM)

/-- The neighbors of a node in a layer it has: its slots there that are not empty. -/
def neighbors (layer : Nat) (id : Fin mb.nNodes) : List (Fin mb.nNodes) :=
  (mb.copySlots id layer).filterMap fun slot => slot

/-- What `acorn_mem_search_layer` sees. -/
def layer (dist : V → V → D) (query : V) (layer : Nat) : Terrain (Fin mb.nNodes) D where
  distance id := dist (mb.nodes id).vec query
  admits id := decide (layer ≤ (mb.nodes id).level)
  takes _ := true
  member _ := true
  neighbors id := if (mb.nodes id).level < layer then [] else mb.neighbors layer id

/-- What `acorn_mem_search_partition` sees. -/
def partition (dist : V → V → D) (query : V) (part : Nat) : Terrain (Fin mb.nNodes) D where
  distance id := dist (mb.nodes id).vec query
  admits _ := true
  takes id := decide (payloadPartition (mb.nodes id).filterVal = part)
  member _ := true
  neighbors := mb.neighbors 0

variable [CDouble D] (H : PairingHeap)

/-- `acorn_mem_search_layer`. -/
def memSearchLayer (dist : V → V → D) (fuel : Nat) (entryId : Fin mb.nNodes) (query : V)
    (layer ef : Nat) : Option (Found (Fin mb.nNodes) D) :=
  (mb.layer dist query layer).search H ⟨ef, false, 0⟩ fuel entryId true

/-- `acorn_mem_search_partition`. -/
def memSearchPartition (dist : V → V → D) (fuel : Nat) (entryId : Fin mb.nNodes) (query : V)
    (part ef : Nat) : Option (Found (Fin mb.nNodes) D) :=
  (mb.partition dist query part).search H ⟨ef, false, 0⟩ fuel entryId true

end MemBuild

/-! ### Closed searches -/

/-- The answer of a closed best-first search, of what is `admissible`. -/
structure ClosedBestFirst {ν D : Type} [CDouble D] (admissible : ν → Bool) (distance : ν → D)
    (neighbors : ν → List ν) (ef : Nat) (ep : ν) (r : Found ν D) : Prop where
  sorted : r.results.Pairwise fun a b => CDouble.lt b.2 a.2 = false
  nodup : (r.results.map Prod.fst).Nodup
  length : r.results.length ≤ ef
  results : ∀ c ∈ r.results, c.1 ∈ r.visited ∧ admissible c.1 = true ∧ c.2 = distance c.1
  start : ep ∈ r.visited
  /-- What it visited and did not return is no nearer than what it returned. -/
  nearest : ∀ v ∈ r.visited, admissible v = true → v ∉ r.results.map Prod.fst →
    ∀ c ∈ r.results, CDouble.lt (distance v) c.2 = false
  /-- It returns all it visited if they are fewer than `ef`. -/
  all : r.visited.countP admissible < ef → ∀ v ∈ r.visited, admissible v = true →
    v ∈ r.results.map Prod.fst
  expanded : ∀ c ∈ r.results, c.1 ∈ r.expanded
  /-- The neighbors of what it returned are returned too, or no nearer than a full
  answer. -/
  neighbors : ∀ c ∈ r.results, ∀ u ∈ neighbors c.1, admissible u = true →
    u ∈ r.results.map Prod.fst ∨
      (r.results.length = ef ∧ ∀ c' ∈ r.results, CDouble.lt (distance u) c'.2 = false)

section
variable {V D : Type} [CDouble D]

/-- A closed answer, read over the nodes that are looked at and take part. -/
theorem closedBestFirst_of_closed {ν : Type} {g : Terrain ν D} {l : Limits} {P : ν → Prop} {ep : ν}
    {r : Found ν D} {admissible : ν → Bool} (h : Closed g l P ep true r)
    (hmember : ∀ v, g.member v = true)
    (htakes : ∀ v ∈ r.visited, admissible v = g.takes v)
    (hadmits : ∀ v, admissible v = true → g.admits v = true) :
    ClosedBestFirst admissible g.distance g.neighbors l.ef ep r := by
  have hkept : ∀ v ∈ r.visited, admissible v = true → v ∈ r.results.map Prod.fst ∨
      (r.results.length = l.ef ∧ ∀ c ∈ r.results, CDouble.lt (g.distance v) c.2 = false) :=
    fun v hv ha => h.kept v hv (htakes v hv ▸ ha) (hmember v) fun _ => rfl
  refine ⟨h.sorted, h.nodup, h.length, fun c hc => ?_, h.start, fun v hv ha hnot => ?_, ?_,
    fun c hc => (h.results c hc).2.1, fun c hc u hu ha => ?_⟩
  · obtain ⟨hv, -, hdist, ht, -⟩ := h.results c hc
    exact ⟨hv, (htakes c.1 hv).trans ht, hdist⟩
  · exact ((hkept v hv ha).resolve_left hnot).2
  · intro hfew v hv ha
    refine (hkept v hv ha).resolve_right fun hfull => ?_
    -- the results are admissible visited nodes, so there are no fewer of those
    have hsub : (r.results.map Prod.fst).length ≤ (r.visited.filter admissible).length := by
      apply (List.Nodup.subperm h.nodup ?_).length_le
      intro u hu
      obtain ⟨c, hc, rfl⟩ := List.mem_map.mp hu
      obtain ⟨hv, -, -, ht, -⟩ := h.results c hc
      exact List.mem_filter.mpr ⟨hv, (htakes c.1 hv).trans ht⟩
    rw [List.length_map, hfull.1, ← List.countP_eq_length_filter] at hsub
    omega
  · exact hkept u (h.neighbors c.1 (h.results c hc).2.1 u hu (hadmits u ha)) ha

/-- **The searches of the in-memory graph are closed**, of a layer from any node of
the layer, and of a partition from any node of the partition; and they end. -/
theorem memSearch_closed (H : PairingHeap) (hD : TotalOrder D) (mb : MemBuild V)
    (dist : V → V → D) (query : V) (entryId : Fin mb.nNodes) (ef : Nat) (hef : 1 ≤ ef) :
    (∀ layer, layer ≤ (mb.nodes entryId).level → ∃ r,
      (∀ fuel > mb.nNodes, mb.memSearchLayer H dist fuel entryId query layer ef = some r) ∧
      ClosedBestFirst (fun id => decide (layer ≤ (mb.nodes id).level))
        (fun id => dist (mb.nodes id).vec query) (mb.neighbors layer) ef entryId r) ∧
    (∀ part, payloadPartition (mb.nodes entryId).filterVal = part → ∃ r,
      (∀ fuel > mb.nNodes, mb.memSearchPartition H dist fuel entryId query part ef = some r) ∧
      ClosedBestFirst (fun id => decide (payloadPartition (mb.nodes id).filterVal = part))
        (fun id => dist (mb.nodes id).vec query) (mb.neighbors 0) ef entryId r) := by
  have hcard : (Finset.univ : Finset (Fin mb.nNodes)).card = mb.nNodes := by
    rw [Finset.card_univ, Fintype.card_fin]
  constructor
  · intro layer hentry
    obtain ⟨r, hends, hclosed⟩ : ∃ r,
        (∀ fuel > _, mb.memSearchLayer H dist fuel entryId query layer ef = some r) ∧
        Closed (mb.layer dist query layer) ⟨ef, false, 0⟩ (· ∈ Finset.univ) entryId true r :=
      Terrain.search_closed H hD hef (fun _ _ _ _ _ => Finset.mem_univ _)
        (Finset.mem_univ entryId) rfl fun _ => rfl
    rw [hcard] at hends
    have hvisited : ∀ v ∈ r.visited, decide (layer ≤ (mb.nodes v).level) = true := fun v hv => by
      rcases (hclosed.visited v hv).2 with rfl | hv
      · exact decide_eq_true hentry
      · exact hv
    have h := closedBestFirst_of_closed hclosed (fun _ => rfl) hvisited fun _ ha => ha
    refine ⟨r, hends, { h with neighbors := fun c hc u hu ha => h.neighbors c hc u ?_ ha }⟩
    have hlevel := of_decide_eq_true (h.results c hc).2.1
    show u ∈ if (mb.nodes c.1).level < layer then [] else mb.neighbors layer c.1
    rwa [if_neg (by omega)]
  · intro part hentry
    obtain ⟨r, hends, hclosed⟩ : ∃ r,
        (∀ fuel > _, mb.memSearchPartition H dist fuel entryId query part ef = some r) ∧
        Closed (mb.partition dist query part) ⟨ef, false, 0⟩ (· ∈ Finset.univ) entryId true r :=
      Terrain.search_closed H hD hef (fun _ _ _ _ _ => Finset.mem_univ _)
        (Finset.mem_univ entryId) (decide_eq_true hentry) fun _ => rfl
    rw [hcard] at hends
    exact ⟨r, hends, closedBestFirst_of_closed hclosed (fun _ => rfl) (fun _ _ => rfl)
      fun _ _ => rfl⟩

/-- Two nodes on a line that name each other, in one layer. -/
def twoNodes : MemBuild Int where
  mEff := 2
  payloadM := 2
  nNodes := 2
  nodes id := ⟨0, 7, id.val, [some (1 - id), none, none, none]⟩
  slots _ := rfl

theorem memSearch_closed_twoNodes :
    ∃ r, (∀ fuel > 2, twoNodes.memSearchLayer PairingHeap.list (fun a b : Int => |a - b|) fuel
        ⟨0, by decide⟩ 5 0 1 = some r) ∧
      ClosedBestFirst (fun id => decide (0 ≤ (twoNodes.nodes id).level))
        (fun id => |(twoNodes.nodes id).vec - 5|) (twoNodes.neighbors 0) 1 ⟨0, by decide⟩ r :=
  (memSearch_closed PairingHeap.list totalOrder_int twoNodes (fun a b : Int => |a - b|) 5
    ⟨0, by decide⟩ 1 le_rfl).1 0 (Nat.zero_le _)

/-- The nearer of the two is answered from the other. -/
example : (twoNodes.memSearchLayer PairingHeap.list (fun a b : Int => |a - b|) 3
    ⟨0, by decide⟩ 5 0 1).map Found.results = some [(⟨1, by decide⟩, 4)] := by decide +kernel

end

end PgAcorn.Build
