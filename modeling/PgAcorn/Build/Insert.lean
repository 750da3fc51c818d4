import PgAcorn.Build.Disk
import PgAcorn.Library.BeamSearch
import PgAcorn.Library.Diversity

/-! `acorn_insert`: adding one element to an index on disk.

The insert reads the meta page once. From the entry point it finds there it
descends to its level, searches every layer it shares with the index for its own
neighbors, writes its neighbor tuple and its element, updates the entry point, and
then offers each of those neighbors an edge back. The stride of the slot arrays is
derived from the options, the width of the payload half comes from the meta page.

A reverse edge is taken by the first empty slot of a range. In a full range it
replaces the furthest occupant outside the partition of a payload half, or what
the diversity heuristic drops, or the furthest occupant if it is nearer. -/
namespace PgAcorn.Build
open Library
open PgAcorn.Filter (Datum)

section
variable {I V Q D : Type} [CDouble D]

/-! ### Searching -/

/-- Whether a filter value belongs to the partition a search is restricted to. -/
def isMember (part : Option Nat) (filterVal : Datum) : Bool :=
  part.all fun p => payloadPartition filterVal = p

/-- The distance part of `acorn_node_distance`. -/
def distanceTo (oc : Opclass V Q D) (query : V) (t : Tid) : Prog (Disk I V Q) D := do
  let (d, _) ← nodeDistance oc query t
  pure d

/-- The neighbors of an element on a layer, read by way of its element page. -/
def neighborsAt (mEff payloadM layer : Nat) (t : Tid) : Prog (Disk I V Q) (List Tid) := do
  let e ← readElement t
  readNbrTidsAtLayer e.neighbortid e.level layer mEff payloadM hnswMaxNeighbors

/-- `acorn_greedy_descend_build`. -/
def greedyDescendBuild (oc : Opclass V Q D) (fuel : Nat) (query : V) (mEff payloadM : Nat)
    (cur : Tid) (fromLevel toLevel : Nat) : Prog (Disk I V Q) Tid :=
  greedyDescend (distanceTo oc query) (neighborsAt mEff payloadM) fuel toLevel fromLevel cur

/-- What `acorn_search_layer_construction` does at a node. -/
def constructionWalk (oc : Opclass V Q D) (query : V) (mEff payloadM layer : Nat)
    (part : Option Nat) : Walk (Disk I V Q) Tid D where
  seed t := do
    let (d, f) ← nodeDistance oc query t
    pure (d, isMember part f)
  admits _ := pure true
  probe t := do
    let (d, f) ← nodeDistance oc query t
    pure (some (d, isMember part f))
  expand t := do
    let us ← neighborsAt mEff payloadM layer t
    pure (some us)

/-- `acorn_search_layer_construction`. -/
def searchLayerConstruction (H : PairingHeap) (oc : Opclass V Q D) (fuel : Nat) (entry : Tid)
    (query : V) (mEff payloadM layer ef : Nat) (part : Option Nat) (maxExpansions : Nat) :
    Prog (Disk I V Q) (List (Tid × D)) :=
  beamSearch H (constructionWalk oc query mEff payloadM layer part)
    ⟨ef, part.isSome, maxExpansions⟩ fuel entry

/-- `acorn_select_diverse_tids`. -/
def selectDiverseTids (oc : Opclass V Q D) (cands : List (Tid × D)) (mMax : Nat) :
    Prog (Disk I V Q) (List (Tid × D)) :=
  if cands.length ≤ mMax then pure cands
  else do
    let es ← cands.mapM fun c => readElement c.1
    pure ((diverse (fun a b => oc.dist a.2 b.2) (fun a => a.1.2) mMax
      (cands.zip (es.map ElementTuple.vec))).map Prod.fst)

/-- Candidates for `mMax` slots, nearest first. -/
def chooseCands (oc : Opclass V Q D) (diversify : Bool) (cands : List (Tid × D)) (mMax : Nat) :
    Prog (Disk I V Q) (List Tid) := do
  let sel ← if diversify then selectDiverseTids oc cands mMax else pure (cands.take mMax)
  pure (sel.map Prod.fst)

/-! ### Forward slots -/

/-- Consecutive slots from `start` on overwritten. -/
def putSlots (ntids : List Tid) (start : Nat) (sel : List Tid) : List Tid :=
  ntids.take start ++ sel ++ ntids.drop (start + sel.length)

/-- Payload slots filled up to `pHalf` with candidates that are in neither half. -/
def backfill (globals : List Tid) (pHalf : Nat) : List Tid → List Tid → List Tid
  | [], payload => payload
  | c :: cs, payload =>
    if payload.length < pHalf then
      if c ∈ globals ∨ c ∈ payload then backfill globals pHalf cs payload
      else backfill globals pHalf cs (payload ++ [c])
    else payload

/-- What an insert works with throughout. -/
structure Inserting (V : Type) where
  mEff : Nat
  payloadM : Nat
  efc : Nat
  diversify : Bool
  payloadOn : Bool
  part : Nat
  level : Nat
  value : V

variable (H : PairingHeap) (oc : Opclass V Q D) (fuel : Nat) (ins : Inserting V)

/-- The start of a layer in the new element's slots. -/
def Inserting.start {V : Type} (ins : Inserting V) (lc : Nat) : Nat :=
  (hnswNeighborStart ins.mEff ins.level lc).toNat

/-- The new element's slots, how many payload slots come from its partition, and
where the next search starts. -/
structure Wiring where
  ntids : List Tid
  payloadReal : Nat
  ep : Tid

/-- The two halves of layer 0: the nearest ones, and the nearest of the partition
with what is left of the former. -/
def wireHalves (w : Wiring) (cands : List (Tid × D)) : Prog (Disk I V Q) Wiring := do
  let globals ← chooseCands oc ins.diversify cands ins.mEff
  let pcands ← searchLayerConstruction H oc fuel w.ep ins.value ins.mEff ins.payloadM 0 ins.efc
    (some ins.part) (ins.efc * 8)
  let payload ← chooseCands oc ins.diversify (pcands.filter fun c => c.1 ∉ globals) ins.payloadM
  let filled := backfill globals ins.payloadM (cands.map Prod.fst) payload
  let ntids := putSlots w.ntids (ins.start 0) globals
  pure { w with
    ntids := putSlots ntids (ins.start 0 + ins.mEff) filled, payloadReal := payload.length }

/-- Step 4 of `acorn_insert_element` on one layer. -/
def wireLayer (w : Wiring) (lc : Nat) : Prog (Disk I V Q) Wiring := do
  let cands ← searchLayerConstruction H oc fuel w.ep ins.value ins.mEff ins.payloadM lc ins.efc
    none 0
  let w ← if lc = 0 ∧ ins.payloadOn then wireHalves H oc fuel ins w cands
    else do
      let sel ← chooseCands oc ins.diversify cands (t2LayerM lc ins.mEff ins.payloadM)
      pure { w with ntids := putSlots w.ntids (ins.start lc) sel }
  pure { w with ep := (cands.head?.map Prod.fst).getD w.ep }

/-- The layers from `lc` down to 0. -/
def wireLayers : Nat → Wiring → Prog (Disk I V Q) Wiring
  | 0, w => wireLayer H oc fuel ins w 0
  | lc + 1, w => do
    let w ← wireLayer H oc fuel ins w (lc + 1)
    wireLayers lc w

/-- Step 4: the new element's slots, all invalid without an entry point. -/
def wire (p : MetaPage) : Prog (Disk I V Q) Wiring :=
  let w := ⟨List.replicate (t2TotalSlots ins.level ins.mEff ins.payloadM) Tid.invalid, 0, p.entry⟩
  if p.hasEntry then do
    let ep ← if p.entryLevel > ins.level then
        greedyDescendBuild oc fuel ins.value ins.mEff ins.payloadM w.ep p.entryLevel.toNat ins.level
      else pure w.ep
    wireLayers H oc fuel ins (min p.entryLevel.toNat ins.level) { w with ep := ep }
  else pure w

/-! ### Writing the new element -/

/-- The inline entry of a slot. -/
def gatherEntry [Inhabited Q] (dims : Nat) (t : Tid) : Prog (Disk I V Q) (InlineEntry Q) :=
  if !t.isValid then pure .zero
  else do
    let e ← readElement t
    pure { indextid := t, heaptid := e.heaptid, nbrtid := e.neighbortid, level := e.level
           valid := true, deleted := e.deleted, filterVal := e.filterVal
           code := oc.sq8Encode dims e.vec }

/-- The continuation chunks, last to first. -/
def appendConts (lentries : List (InlineEntry Q)) (n1 contCap esz : Nat) :
    Nat → Tid → Prog (Disk I V Q) Tid
  | 0, next => pure next
  | c + 1, next => do
    let start := n1 + c * contCap
    let entries := (lentries.drop start).take contCap
    let t ← appendTuple (.cont ⟨start, next, entries⟩) (inlineContSize entries.length esz)
      fun _ s => s
    appendConts lentries n1 contCap esz c t

/-- What the record keeps of an appended neighbor tuple. -/
def noteNeighbor (i : I) (ntids : List Tid) (t : Tid) (s : Disk I V Q) : Disk I V Q :=
  (s.write t fun lc => layerSlots ins.mEff ins.payloadM ins.level lc ntids).event
    (.neighbor i t ins.level)

/-- Step 5 of `acorn_insert_element`. -/
def writeNeighborTuple [Inhabited Q] (i : I) (p : MetaPage) (ntids : List Tid) :
    Prog (Disk I V Q) Tid :=
  if p.inlineVectors then do
    let esz := inlineEntrySize p.dimensions
    let layer0N := t2L0Width ins.mEff ins.payloadM
    let n1 := min layer0N (t2InlinePrimaryCap ins.level ins.mEff ins.payloadM esz)
    let contCap := t2InlineContCap esz
    let nConts := if contCap > 0 then (layer0N - n1 + contCap - 1) / contCap else 0
    let lentries ← ((ntids.drop (ins.start 0)).take layer0N).mapM (gatherEntry oc p.dimensions)
    let next ← appendConts lentries n1 contCap esz nConts Tid.invalid
    appendTuple (.neighbor ⟨ntids, some ⟨0, next, lentries.take n1⟩⟩)
      (inlineNtupSize ins.level ins.mEff ins.payloadM n1 esz) (noteNeighbor ins i ntids)
  else
    appendTuple (.neighbor ⟨ntids, none⟩) (neighborTupleSize ins.level ins.mEff ins.payloadM)
      (noteNeighbor ins i ntids)

/-- The element tuple. -/
def newElement (level : Nat) (filterVal : Datum) (heaptid neighbortid : Tid) (value : V) :
    ElementTuple V where
  level := level
  deleted := false
  heaptids := singleHeaptid heaptid
  neighbortid := neighbortid
  filterVal := filterVal
  vec := value

/-- The new element's own inline entry. -/
def selfEntry (dims : Nat) (t : Tid) (e : ElementTuple V) : InlineEntry Q where
  indextid := t
  heaptid := e.heaptid
  nbrtid := e.neighbortid
  level := e.level
  valid := true
  deleted := false
  filterVal := e.filterVal
  code := oc.sq8Encode dims e.vec

/-! ### Reverse edges -/

/-- An edge back to the new element, for a range of a neighbor's layer. -/
structure Offer where
  target : Tid
  rangeOff : Nat
  rangeLen : Nat
  part : Option Nat
  deriving DecidableEq

/-- The slots of a layer outside the payload half, with the range they offer. -/
def globalOffers (ntids : List Tid) (lc : Nat) : List Offer :=
  let len := if lc = 0 ∧ ins.payloadOn then ins.mEff else t2LayerM lc ins.mEff ins.payloadM
  (validTids ((ntids.drop (ins.start lc)).take len)).map fun t => ⟨t, 0, len, none⟩

/-- The payload slots that come from the partition; the others stay forward-only. -/
def payloadOffers (w : Wiring) (lc : Nat) : List Offer :=
  if lc = 0 ∧ ins.payloadOn then
    (validTids ((w.ntids.drop (ins.start 0 + ins.mEff)).take (min w.payloadReal ins.payloadM))).map
      fun t => ⟨t, ins.mEff, ins.payloadM, some ins.part⟩
  else []

/-- The occupant the diversity heuristic drops for the new element, if it keeps
that one: occupants and new element by position, the latter last. -/
def droppedOccupant (dist : V → V → D) (base : V) (occupants : List V) (eValue : V) : Option Nat :=
  let rangeLen := occupants.length
  let order := sortAscending (fun c => dist base c.1) (occupants ++ [eValue]).zipIdx
  let kept := diverse (fun a b => dist a.1 b.1) (fun c => dist base c.1) rangeLen order
  if kept.any fun c => c.2 = rangeLen then
    (List.range rangeLen).find? fun j => !kept.any fun c => c.2 = j
  else none

/-- The furthest occupant outside a partition. -/
def nonmemberSlot (dist : V → V → D) (n : ElementTuple V) (es : List (ElementTuple V)) (p : Nat) :
    Option Nat :=
  (furthest (es.map fun e => (!decide (payloadPartition e.filterVal = p), dist n.vec e.vec))).1

/-- The occupant that gives way to the new element, if one does. -/
def inferiorSlot (dist : V → V → D) (diversify : Bool) (n : ElementTuple V)
    (es : List (ElementTuple V)) (eValue : V) : Option Nat :=
  if diversify then droppedOccupant dist n.vec (es.map ElementTuple.vec) eValue
  else
    let (j, d) := furthest (es.map fun e => (true, dist n.vec e.vec))
    if CDouble.lt (dist n.vec eValue) d then j else none

/-- What a full range goes by: its occupants `es`, those outside the partition of
a payload half first. -/
def fullRangeSlot (dist : V → V → D) (diversify : Bool) (part : Option Nat) (n : ElementTuple V)
    (es : List (ElementTuple V)) (eValue : V) : Option Nat :=
  (part.bind (nonmemberSlot dist n es)).or (inferiorSlot dist diversify n es eValue)

/-- The slot of a full range that goes to the new element. -/
def replaceSlot (n : ElementTuple V) (tids : List Tid) (part : Option Nat) :
    Prog (Disk I V Q) (Option Nat) := do
  let nonmember ← match part with
    | none => pure none
    | some p => do
      let es ← tids.mapM readElement
      pure (nonmemberSlot oc.dist n es p)
  match nonmember with
  | some j => pure (some j)
  | none => do
    let es ← tids.mapM readElement
    pure (inferiorSlot oc.dist ins.diversify n es ins.value)

/-- `acorn_add_reverse_edge_at_layer`. -/
def addReverseEdgeAtLayer (e : Tid) (lc : Nat) (entry : Option (InlineEntry Q)) (o : Offer) :
    Prog (Disk I V Q) Unit := do
  let n ← readElement o.target
  let start := hnswNeighborStart ins.mEff n.level lc + o.rangeOff
  let tids ← copySlots n.neighbortid lc start o.rangeLen false
  if e ∈ tids then pure ()
  else
    let target ← match tids.findIdx? fun t => !t.isValid with
      | some j => pure (some j)
      | none => replaceSlot oc ins n tids o.part
    match target with
    | none => pure ()
    | some j => do
      writeSlot lc o.rangeOff ⟨n.neighbortid, start, tids, j, e, o.part, ins.diversify⟩
      match entry with
      | some entry =>
        if lc = 0 then t2InlineWriteEntry fuel n.neighbortid (o.rangeOff + j) entry else pure ()
      | none => pure ()

/-- Step 8 of `acorn_insert_element` on one layer. -/
def offerLayer (w : Wiring) (e : Tid) (entry : Option (InlineEntry Q)) (lc : Nat) :
    Prog (Disk I V Q) Unit := do
  (globalOffers ins w.ntids lc).forM (addReverseEdgeAtLayer oc fuel ins e lc entry)
  (payloadOffers ins w lc).forM (addReverseEdgeAtLayer oc fuel ins e lc entry)

/-- The layers from `lc` down to 0. -/
def offerLayers (w : Wiring) (e : Tid) (entry : Option (InlineEntry Q)) :
    Nat → Prog (Disk I V Q) Unit
  | 0 => offerLayer oc fuel ins w e entry 0
  | lc + 1 => do
    offerLayer oc fuel ins w e entry (lc + 1)
    offerLayers w e entry lc

end

/-! ### The insert -/

/-- A row for the index, in a session: its indexed values, the level drawn for it
and `pg_acorn.default_gamma`. A NULL vector is not indexed. -/
structure Row (V : Type) where
  value : Option V
  filterVal : Datum
  heaptid : Tid
  drawn : Nat
  defaultGamma : Nat

section
variable {I V Q D : Type} [CDouble D] [Inhabited Q] (H : PairingHeap) (oc : Opclass V Q D)
  (natts fuel : Nat)

/-- Steps 5 to 8 of `acorn_insert_element`. -/
def publish (i : I) (ins : Inserting V) (row : Row V) (p : MetaPage) (w : Wiring) :
    Prog (Disk I V Q) Unit := do
  let n ← writeNeighborTuple oc ins i p w.ntids
  let elem := newElement ins.level row.filterVal row.heaptid n ins.value
  let e ← appendTuple (.element elem) (elementTupleSize (oc.vsize ins.value)) fun t s =>
    s.event (.element i t ((globalOffers ins w.ntids 0).map Offer.target))
  maybeUpdateEntry e ins.level
  if p.hasEntry then
    offerLayers oc fuel ins w e (if p.inlineVectors then some (selfEntry oc p.dimensions e elem)
      else none) (min p.entryLevel.toNat ins.level)
  else pure ()

/-- `acorn_insert_element`. -/
def insertElement (i : I) (opts : RdOptions) (row : Row V) (value : V) :
    Prog (Disk I V Q) Unit :=
  if elementTupleSize (oc.vsize value) > hnswMaxSize then
    .raise "acorn_hnsw: vector too large to index"
  else do
    let p ← readMeta i
    if p.inlineVectors && oc.dim value != p.dimensions then
      .raise s!"acorn_hnsw: vector dimension {oc.dim value} does not match index dimension {p.dimensions}"
    else
      let ins : Inserting V :=
        { mEff := mEff opts row.defaultGamma
          payloadM := p.payloadWidth
          efc := optEfConstruction opts
          diversify := optDiversify opts
          payloadOn := optPayloadEdges opts && decide (natts > 1)
          part := payloadPartition row.filterVal
          level := assignLevel (mEff opts row.defaultGamma) row.drawn
          value := value }
      let w ← wire H oc fuel ins p
      publish oc fuel i ins row p w

/-- `acorn_insert`. -/
def insert (i : I) (opts : RdOptions) (row : Row V) : Prog (Disk I V Q) Unit :=
  match row.value with
  | none => pure ()
  | some value => insertElement H oc natts fuel i opts row value

end

end PgAcorn.Build
