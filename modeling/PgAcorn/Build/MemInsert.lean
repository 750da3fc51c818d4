import PgAcorn.Build.ReverseEdge
import PgAcorn.Library.Batch

/-! `acorn_mem_insert_node`: adding one node to the in-memory graph.

From the entry point the insert descends to the node's level and wires every layer it
shares with the graph: it searches the layer, fills the node's own slots from what it
finds, and notes the edges back. Layer 0 has a global half and a payload half; the latter
is filled from a search among the members of the node's partition, which starts from the
first of them, and with what is left over of the former. When all layers are wired, the
noted edges are made one after the other, and the entry points are updated. -/
namespace PgAcorn.Build
open Library

/-! ### The graph under construction -/

/-- What inserts change of an `AcornMemBuild`: `n_nodes`, the slots, the entry point with its
level, and `part_entry`. -/
structure MemGraph {V : Type} (mb : MemBuild V) where
  pushed : Nat
  nbr : Fin mb.nNodes → List (Option (Fin mb.nNodes))
  slots : ∀ id, (nbr id).length = t2TotalSlots (mb.nodes id).level mb.mEff mb.payloadM
  entry : Option (Fin mb.nNodes × Nat)
  partEntry : Nat → Option (Fin mb.nNodes)

namespace MemGraph
variable {V : Type} {mb : MemBuild V} (g : MemGraph mb)

/-- The build with these slots. -/
abbrev build : MemBuild V where
  mEff := mb.mEff
  payloadM := mb.payloadM
  nNodes := mb.nNodes
  nodes id := { mb.nodes id with nbr := g.nbr id }
  slots := g.slots

/-- `acorn_mem_build_init`. -/
def init (mb : MemBuild V) : MemGraph mb where
  pushed := 0
  nbr id := List.replicate (t2TotalSlots (mb.nodes id).level mb.mEff mb.payloadM) none
  slots _ := List.length_replicate
  entry := none
  partEntry _ := none

/-- The slots of a node overwritten by as many others. -/
def put (id : Fin mb.nNodes) (slots : List (Option (Fin mb.nNodes)))
    (h : slots.length = (g.nbr id).length) : MemGraph mb :=
  { g with
    nbr := Function.update g.nbr id slots
    slots := fun u => by
      by_cases hu : u = id
      · subst hu
        rw [Function.update_self, h, g.slots]
      · rw [Function.update_of_ne hu, g.slots] }

end MemGraph

/-- What a build is configured with: `efc`, `diversify`, `payload_edges`, and the threshold
below which a partition, by its final number of members, has no payload edges. -/
structure MemSettings where
  efc : Nat
  diversify : Bool
  payloadEdges : Bool
  partCount : Option (Nat → BitVec 32)
  payloadMinCard : Nat

/-- `AcornRevEdge`: an edge back that is still to be made. -/
structure RevEdge (size : Nat) where
  target : Fin size
  slotBase : Int
  slotCount : Nat
  part : Option Nat

section
variable {V D : Type} [CDouble D] {mb : MemBuild V}

/-! ### Reads -/

/-- The neighbors of a node in a layer; one that lacks the layer has no slots to copy. -/
def memNeighbors (layer : Nat) (id : Fin mb.nNodes) : Prog (MemGraph mb) (List (Fin mb.nNodes)) :=
  .read fun g => if layer ≤ (mb.nodes id).level then some (g.build.neighbors layer id) else none

/-- `acorn_mem_greedy_descend`. -/
def memGreedyDescend (dist : V → V → D) (fuel : Nat) (epId : Fin mb.nNodes) (query : V)
    (fromLevel toLevel : Nat) : Prog (MemGraph mb) (Fin mb.nNodes) :=
  greedyDescend (fun id => pure (dist (mb.nodes id).vec query)) memNeighbors fuel toLevel fromLevel
    epId

/-- The answer of a search of the graph as it is. -/
def memSearch (search : MemGraph mb → Option (Found (Fin mb.nNodes) D)) :
    Prog (MemGraph mb) (List (Fin mb.nNodes × D)) := do
  let found ← Prog.read fun g => some (search g)
  match found with
  | some found => pure found.results
  | none => .diverge

/-! ### The node's own slots -/

/-- `acorn_mem_push_node`: the next node number, with empty slots. -/
def memPushNode : Prog (MemGraph mb) (Fin mb.nNodes) :=
  .lift fun g =>
    if h : g.pushed < mb.nNodes then
      .done ⟨g.pushed, h⟩ { g.put ⟨g.pushed, h⟩
        (List.replicate (t2TotalSlots (mb.nodes ⟨g.pushed, h⟩).level mb.mEff mb.payloadM) none)
        (List.length_replicate.trans (g.slots _).symm) with pushed := g.pushed + 1 }
    else .blocked

/-- Consecutive slots of a node overwritten. -/
def memWriteSlots (id : Fin mb.nNodes) (start : Int) (sel : List (Fin mb.nNodes)) :
    Prog (MemGraph mb) Unit :=
  .lift fun g =>
    if h : 0 ≤ start ∧ start.toNat + sel.length ≤ (g.nbr id).length then
      .done () (g.put id (putRange (g.nbr id) start.toNat (sel.map some))
        (length_putRange (by rw [List.length_map]; exact h.2)))
    else .fault

theorem lawfulBEq_nodes (mb : MemBuild V) : LawfulBEq (Fin mb.nNodes) := inferInstance

attribute [local instance] lawfulBEq_nodes

/-- Payload slots filled up to `pHalf` with candidates that are in neither half. -/
def memBackfill (globals : List (Fin mb.nNodes)) (pHalf : Nat) (cands payload : List (Fin mb.nNodes)) :
    List (Fin mb.nNodes) :=
  cands.foldl (fun filled c =>
    if filled.length < pHalf ∧ c ∉ globals ∧ c ∉ filled then filled ++ [c] else filled) payload

/-- An edge back from a neighbor, in a layer of its. -/
def layerEdge (lc count : Nat) (t : Fin mb.nNodes) : RevEdge mb.nNodes :=
  ⟨t, hnswNeighborStart mb.mEff (mb.nodes t).level lc, count, none⟩

/-- An edge back from a member of the partition, in its payload half. -/
def payloadEdge (part : Nat) (t : Fin mb.nNodes) : RevEdge mb.nNodes :=
  ⟨t, hnswNeighborStart mb.mEff (mb.nodes t).level 0 + mb.mEff, mb.payloadM, some part⟩

variable (H : PairingHeap) (dist : V → V → D) (fuel : Nat) (o : MemSettings) (new : Fin mb.nNodes)

/-- Candidates for `mMax` slots, nearest first. -/
def memChoose (cands : List (Fin mb.nNodes × D)) (mMax : Nat) : List (Fin mb.nNodes) :=
  if o.diversify then memSelectDiverse mb dist cands mMax else (cands.take mMax).map Prod.fst

/-- Whether a partition is too small for payload edges. -/
def MemSettings.gated (part : Nat) : Bool :=
  o.partCount.any fun count => decide ((count part).toInt < (o.payloadMinCard : Int))

/-- The candidates from the node's partition, if it has an entry point. -/
def memPayloadCands (part : Nat) : Prog (MemGraph mb) (List (Fin mb.nNodes × D)) := do
  let partEp ← Prog.read fun g => some (g.partEntry part)
  match if o.gated part then none else partEp with
  | none => pure []
  | some ep =>
    memSearch fun g => g.build.memSearchPartition H dist fuel ep (mb.nodes new).vec part o.efc

/-- Both halves of layer 0, with the edges back. -/
def memWireHalves (cands : List (Fin mb.nNodes × D)) : Prog (MemGraph mb) (List (RevEdge mb.nNodes)) := do
  let start := hnswNeighborStart mb.mEff (mb.nodes new).level 0
  let part := payloadPartition (mb.nodes new).filterVal
  let globals := memChoose dist o cands mb.mEff
  memWriteSlots new start globals
  let pcands ← memPayloadCands H dist fuel o new part
  let payload := memChoose dist o (pcands.filter fun c => c.1 ∉ globals) mb.payloadM
  memWriteSlots new (start + mb.mEff) (memBackfill globals mb.payloadM (cands.map Prod.fst) payload)
  pure (payload.map (payloadEdge part) ++ globals.map (layerEdge 0 mb.mEff))

/-- One layer: where the search of the next one starts, and the edges back. -/
def memWireLayer (epId : Fin mb.nNodes) (lc : Nat) :
    Prog (MemGraph mb) (Fin mb.nNodes × List (RevEdge mb.nNodes)) := do
  let cands ← memSearch fun g => g.build.memSearchLayer H dist fuel epId (mb.nodes new).vec lc o.efc
  let rev ← if lc = 0 ∧ o.payloadEdges then memWireHalves H dist fuel o new cands
    else do
      let layerM := t2LayerM lc mb.mEff mb.payloadM
      let sel := memChoose dist o cands layerM
      memWriteSlots new (hnswNeighborStart mb.mEff (mb.nodes new).level lc) sel
      pure (sel.map (layerEdge lc layerM))
  pure ((cands.head?.map Prod.fst).getD epId, rev)

/-- The layers from `lc` down to 0. -/
def memWireLayers : Nat → Fin mb.nNodes → Prog (MemGraph mb) (List (RevEdge mb.nNodes))
  | 0, epId => do
    let (_, rev) ← memWireLayer H dist fuel o new epId 0
    pure rev
  | lc + 1, epId => do
    let (epId, rev) ← memWireLayer H dist fuel o new epId (lc + 1)
    let rest ← memWireLayers lc epId
    pure (rev ++ rest)

/-- The layers the node shares with the graph; there are none without an entry point. -/
def memWire : Prog (MemGraph mb) (List (RevEdge mb.nNodes)) := do
  let entry ← Prog.read fun g => some g.entry
  match entry with
  | none => pure []
  | some (entryId, entryLevel) =>
    let level := (mb.nodes new).level
    let epId ← if entryLevel > level then
        memGreedyDescend dist fuel entryId (mb.nodes new).vec entryLevel level
      else pure entryId
    memWireLayers H dist fuel o new (min entryLevel level) epId

/-! ### Reverse edges and entry points -/

theorem length_memAddReverseEdge {diversify : Bool} {nbr new : Fin mb.nNodes} {base count : Nat}
    {part : Option Nat} {slots slots' : List (Option (Fin mb.nNodes))}
    (h : mb.memAddReverseEdge dist diversify nbr base count part slots new = some slots') :
    slots'.length = slots.length := by
  unfold MemBuild.memAddReverseEdge at h
  split at h
  · rw [Option.some.inj h]
  · dsimp only at h
    split at h
    · rw [← Option.some.inj h, List.length_set]
    · cases h

/-- A noted edge is made, in a range of the target's slots. -/
def memAddEdge (r : RevEdge mb.nNodes) : Prog (MemGraph mb) Unit :=
  .lift fun g =>
    if 0 ≤ r.slotBase ∧ r.slotBase.toNat + r.slotCount ≤ (g.nbr r.target).length then
      match h : mb.memAddReverseEdge dist o.diversify r.target r.slotBase.toNat r.slotCount r.part
        (g.nbr r.target) new with
      | some slots => .done () (g.put r.target slots (length_memAddReverseEdge dist h))
      | none => .fault
    else .fault

/-- The new entry point, and `acorn_mem_register_part_entry`. -/
def memUpdateEntries : Prog (MemGraph mb) Unit :=
  .lift fun g =>
    let level := (mb.nodes new).level
    let part := payloadPartition (mb.nodes new).filterVal
    .done () { g with
      entry := if g.entry.all fun e => decide (e.2 < level) then some (new, level) else g.entry
      partEntry := if o.payloadEdges && (g.partEntry part).isNone then
          Function.update g.partEntry part (some new)
        else g.partEntry }

/-- `acorn_mem_insert_node`. -/
def memInsertNode : Prog (MemGraph mb) Unit := do
  let rev ← memWire H dist fuel o new
  rev.forM (memAddEdge dist o new)
  memUpdateEntries o new

/-- A serial build: the next node is pushed and inserted, and so on. -/
def memBuilding : Batch (MemGraph mb) Unit (Fin mb.nNodes) (RevEdge mb.nNodes) where
  start _ := do
    let new ← memPushNode
    let rev ← memWire H dist fuel o new
    pure (new, rev)
  item := memAddEdge dist o
  finish := memUpdateEntries o

theorem memBuilding_whole : (memBuilding H dist fuel o : Batch (MemGraph mb) _ _ _).whole () =
    memPushNode.bind (memInsertNode H dist fuel o) := by
  show (memPushNode.bind fun new => _).bind _ = _
  rw [Prog.bind_assoc]
  congr 1
  funext new
  exact Prog.bind_assoc _ _ _

end

end PgAcorn.Build
