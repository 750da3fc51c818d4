import PgAcorn.Relation
import PgAcorn.Library.Double
import PgAcorn.Library.PairingHeap

/-! The streaming scan of an index, as the source runs it.

The scan keeps four heaps: failing and passing candidates to expand (`C`, `Cm`),
discovered passing elements (`R`, by a lower bound of their exact distance) and,
when discovery distances may be approximate, exactly rescored ones (`Rx`). Each
iteration of `acorn_t2_stream_next` either expands a candidate, rescores an
element, emits one, or ends the stream.

`Stream` holds what `acorn_t2_stream_begin` fixes and `State` what later calls
change. Distances come from `Kernels`, for a query fixed once; discovery reads a
neighbor from its element page, from the expanded node's inline entries, or from
the code cache, whose answers are a parameter. `none` is a failed page access or
exhausted fuel. Prefetching and counters have no effect on what is modelled. -/
namespace PgAcorn.Scan
open Library
open PgAcorn.Filter (Fmgr ScanKey Datum)

/-! ### Data -/

/-- `AcornElem`. -/
structure Elem (D : Type) where
  indextid : Tid
  heaptid : Tid
  distance : D
  lb : D
  nbrtid : Tid
  level : Nat
  hasNbr : Bool
  deriving DecidableEq

section Comparators
variable {D : Type} [CDouble D]

/-- `pq_cmp_min`: the larger distance comes later. -/
def pqCmpMin (a b : Elem D) : Bool := CDouble.lt b.distance a.distance

/-- `pq_cmp_lb_min`: the larger lower bound comes later. -/
def pqCmpLbMin (a b : Elem D) : Bool := CDouble.lt b.lb a.lb

end Comparators

/-- Distances to the scan's query: the exact one of a stored vector
(`acorn_t2_etup_distance`), the one of a quantized vector
(`acorn_t2_sq8_distance`) and the bound the latter gives on the former
(`acorn_t2_inline_lb`), with whether that bound may be used (`have_bound`). -/
structure Kernels (V Q D : Type) where
  etupDistance : V → D
  sq8Distance : Q → D
  inlineLb : D → Q → D
  haveBound : Bool

/-- `AcornCodeCacheHit`. -/
structure CodeCacheHit (Q : Type) where
  heaptid : Tid
  nbrtid : Tid
  level : Nat
  deleted : Bool
  filterVal : Datum
  code : Q
  deriving DecidableEq

/-- The settings a scan reads. -/
structure Settings where
  memberFirst : Bool
  bufferedEmission : Bool
  scanSingleRead : Bool
  scanVisitedOneprobe : Bool
  scanDirectFilter : Bool
  scanInlineVectors : Bool
  scanCodeCache : Bool
  /-- The budget derived from the filter histogram, where one is. -/
  autoEf : Option Nat
  deriving DecidableEq

/-- The part of `AcornT2StreamScan` that is fixed when the scan begins. -/
structure Stream (V Q D : Type) where
  index : Relation V Q
  kernels : Kernels V Q D
  fmgr : Fmgr
  settings : Settings
  m : Nat
  payloadM : Nat
  efSearch : Nat
  keys : List ScanKey
  inlineOn : Bool
  /-- What the attached code cache answers for each neighbor. -/
  cc : Option (Tid → Option (CodeCacheHit Q))

/-- Whether discovery distances can be approximations. -/
def Stream.approx {V Q D : Type} (S : Stream V Q D) : Bool := S.inlineOn || S.cc.isSome

/-- The part of `AcornT2StreamScan` that changes. `expanded` records the
candidates popped so far; the source keeps only their number. -/
structure State (H : PairingHeap) (D : Type) [CDouble D] where
  C : H.Heap (pqCmpMin (D := D))
  Cm : H.Heap (pqCmpMin (D := D))
  R : H.Heap (pqCmpLbMin (D := D))
  Rx : H.Heap (pqCmpMin (D := D))
  visited : List Tid
  nExpansions : Nat
  rxCount : Nat
  exhausted : Bool
  expanded : List Tid

/-- What one discovery knows of a neighbor. -/
structure Discovery (D : Type) where
  indextid : Tid
  heaptid : Tid
  nbrtid : Tid
  level : Nat
  deleted : Bool
  filterVal : Datum
  distance : D
  lb : D
  hasNbr : Bool

section Model
variable {V Q D : Type} [CDouble D] {H : PairingHeap}

/-! ### Page reads -/

/-- `acorn_t2_load_node`: all an element page tells about a node. -/
def t2LoadNode (S : Stream V Q D) (hasNbr : Bool) (t : Tid) : Option (Discovery D) :=
  (S.index.element t).map fun e =>
    { indextid := t
      heaptid := e.heaptid
      nbrtid := e.neighbortid
      level := e.level
      deleted := e.deleted
      filterVal := e.filterVal
      distance := S.kernels.etupDistance e.vec
      lb := S.kernels.etupDistance e.vec
      hasNbr := hasNbr }

/-- `acorn_get_neighbors`: the valid slots of a layer. Layer 0 extends to the end
of the tuple. -/
def getNeighbors (r : Relation V Q) (nbrtid : Tid) (level layer m maxNeighbors : Nat) :
    Option (List Tid) := do
  let ntup ← r.neighbor nbrtid
  let start := hnswNeighborStart m level layer
  let count : Int := if layer = 0 then (ntup.count : Int) - level * m else m
  let count := min count maxNeighbors
  if count ≤ 0 then some []
  else (slotRange ntup.tids start count.toNat).map validTids

/-- The level and neighbor tuple of a candidate: carried since its discovery, or
read from its element page. -/
def candidateNbr (S : Stream V Q D) (ce : Elem D) : Option (Nat × Tid) :=
  if ce.hasNbr then some (ce.level, ce.nbrtid)
  else (S.index.element ce.indextid).map fun e => (e.level, e.neighbortid)

/-! ### Discovery -/

/-- `mark_visited`. -/
def markVisited (visited : List Tid) (t : Tid) : List Tid :=
  if t ∈ visited then visited else t :: visited

/-- `visit_once`: enters the node and says whether it was new. -/
def visitOnce (visited : List Tid) (t : Tid) : Bool × List Tid :=
  (!decide (t ∈ visited), markVisited visited t)

/-- `visit_once`, or `is_visited` followed by `mark_visited`. -/
def visit (S : Stream V Q D) (visited : List Tid) (t : Tid) : Bool × List Tid :=
  if S.settings.scanVisitedOneprobe then visitOnce visited t
  else if t ∈ visited then (false, visited)
  else (true, markVisited visited t)

/-- Whether a discovered neighbor is a result, as far as its source tells. -/
def passes (S : Stream V Q D) (d : Discovery D) : Bool :=
  !d.deleted && Filter.evalFilter S.fmgr S.settings.scanDirectFilter S.keys d.filterVal

/-- The node queued for expansion. -/
def Discovery.candidate (d : Discovery D) : Elem D :=
  ⟨d.indextid, Tid.invalid, d.distance, d.lb, d.nbrtid, d.level, d.hasNbr⟩

/-- The node queued for emission. -/
def Discovery.result (d : Discovery D) : Elem D :=
  ⟨d.indextid, d.heaptid, d.distance, d.lb, Tid.invalid, 0, false⟩

/-- Queues a discovered neighbor: every one stays expandable, a passing one is
also a result. -/
def push (S : Stream V Q D) (s : State H D) (d : Discovery D) : State H D :=
  let s := if S.settings.memberFirst && passes S d then { s with Cm := H.add s.Cm d.candidate }
    else { s with C := H.add s.C d.candidate }
  if passes S d then { s with R := H.add s.R d.result } else s

/-- A code cache hit gives all that the element page would, its distance
approximately. -/
def Discovery.ofHit (S : Stream V Q D) (t : Tid) (hit : CodeCacheHit Q) : Discovery D :=
  let ad := S.kernels.sq8Distance hit.code
  { indextid := t
    heaptid := hit.heaptid
    nbrtid := hit.nbrtid
    level := hit.level
    deleted := hit.deleted
    filterVal := hit.filterVal
    distance := ad
    lb := S.kernels.inlineLb ad hit.code
    hasNbr := true }

/-- One neighbor in `acorn_t2_stream_expand`. -/
def expandNeighbor (S : Stream V Q D) (s : State H D) (t : Tid) : Option (State H D) :=
  if !t.isValid then some s
  else
    let (unvisited, visited) := visit S s.visited t
    let s := { s with visited := visited }
    if !unvisited then some s
    else match S.cc.bind fun cc => cc t with
      | some hit => some (push S s (Discovery.ofHit S t hit))
      | none => (t2LoadNode S S.settings.scanSingleRead t).map (push S s)

/-- `acorn_t2_stream_expand`. -/
def t2StreamExpand (S : Stream V Q D) (s : State H D) (ce : Elem D) : Option (State H D) := do
  let (level, nbrtid) ← candidateNbr S ce
  let neighbors ← getNeighbors S.index nbrtid level 0 S.m hnswMaxNeighbors
  neighbors.foldlM (expandNeighbor S) s

/-! ### Discovery from inline entries -/

/-- An inline entry describes its slot's target when it is valid and names it. -/
def Discovery.ofEntry (S : Stream V Q D) (e : InlineEntry Q) : Discovery D :=
  let ad := S.kernels.sq8Distance e.code
  { indextid := e.indextid
    heaptid := e.heaptid
    nbrtid := e.nbrtid
    level := e.level
    deleted := e.deleted
    filterVal := e.filterVal
    distance := ad
    lb := S.kernels.inlineLb ad e.code
    hasNbr := true }

/-- Progress of the walk over the chunk chain: slots seen, and the newly visited
targets with their entry (`from_inline`) or without. -/
structure Walk (Q : Type) where
  visited : List Tid
  covered : List Nat
  cands : List (Tid × Option (InlineEntry Q))

/-- Adds a slot's target to the candidates unless it was visited before. -/
def Walk.visitSlot (w : Walk Q) (t : Tid) (e : Option (InlineEntry Q)) : Walk Q :=
  if !t.isValid then w
  else
    let (unvisited, visited) := visitOnce w.visited t
    if !unvisited then { w with visited := visited }
    else { w with visited := visited, cands := w.cands ++ [(t, e)] }

/-- Slot `j`'s entry in a chunk, if it is valid and names the slot's target. -/
def InlineChunk.entryFor (chunk : InlineChunk Q) (j : Nat) (t : Tid) : Option (InlineEntry Q) :=
  match chunk.entries[j - chunk.start]? with
  | some e => if e.valid && decide (e.indextid = t) then some e else none
  | none => none

/-- One slot of a chunk. -/
def walkSlot (tids : List Tid) (chunk : InlineChunk Q) (w : Walk Q) (j : Nat) :
    Walk Q :=
  if j ∈ w.covered then w
  else
    let w := { w with covered := j :: w.covered }
    match tids[j]? with
    | some t => w.visitSlot t (InlineChunk.entryFor chunk j t)
    | none => w

/-- The slots of one chunk, within layer 0. -/
def walkChunk (tids : List Tid) (w : Walk Q) (chunk : InlineChunk Q) : Walk Q :=
  (List.range' chunk.start (min (chunk.start + chunk.entries.length) tids.length - chunk.start)).foldl
    (walkSlot tids chunk) w

/-- The continuation tuples, from `next` on. A tuple of another type ends the
walk. -/
def walkChain (S : Stream V Q D) (tids : List Tid) : Nat → Tid → Walk Q → Option (Walk Q)
  | 0, _, _ => none
  | fuel + 1, next, w =>
    if !next.isValid then some w
    else match S.index.item next with
      | some (.cont chunk) => walkChain S tids fuel chunk.next (walkChunk tids w chunk)
      | some _ => some w
      | none => none

/-- The slots no chunk covered. -/
def walkRest (tids : List Tid) (w : Walk Q) : Walk Q :=
  (List.range tids.length).foldl
    (fun w j => if j ∈ w.covered then w else w.visitSlot (tids[j]?.getD Tid.invalid) none) w

/-- Resolves a stale slot by its element page and queues the neighbor. -/
def pushCand (S : Stream V Q D) (s : State H D) (c : Tid × Option (InlineEntry Q)) :
    Option (State H D) :=
  match c.2 with
  | some e => some (push S s (Discovery.ofEntry S e))
  | none => (t2LoadNode S true c.1).map (push S s)

/-- `acorn_t2_stream_expand_inline`. -/
def t2StreamExpandInline (S : Stream V Q D) (fuel : Nat) (s : State H D) (ce : Elem D) :
    Option (State H D) := do
  let (_, nbrtid) ← candidateNbr S ce
  let ntup ← S.index.neighbor nbrtid
  let level := t2LevelFromCount ntup.count S.m S.payloadM
  let tids ← slotRange ntup.tids (hnswNeighborStart S.m level 0) (t2L0Width S.m S.payloadM)
  let chunk ← ntup.inline?
  let w := walkChunk tids ⟨s.visited, [], []⟩ chunk
  let w ← walkChain S tids fuel chunk.next w
  let w := walkRest tids w
  w.cands.foldlM (pushCand S) { s with visited := w.visited }

/-! ### The loop of `acorn_t2_stream_next` -/

/-- `acorn_t2_rerank_one`: rescores the head of `R` from its element page. An
element deleted since its copy was taken is dropped. -/
def t2RerankOne (S : Stream V Q D) (s : State H D) : Option (State H D) := do
  let (rn, R) ← H.removeFirst s.R
  let node ← t2LoadNode S true rn.indextid
  if node.deleted then some { s with R := R }
  else some { s with
    R := R
    Rx := H.add s.Rx { rn with distance := node.distance, heaptid := node.heaptid }
    rxCount := s.rxCount + 1 }

/-- The distance at the head of a heap, `DBL_MAX` if there is none. -/
def headDistance {after : Elem D → Elem D → Bool} (h : H.Heap after) : D :=
  (H.first h).elim CDouble.dblMax Elem.distance

/-- The lower bound at the head of a heap, `DBL_MAX` if there is none. -/
def headLb {after : Elem D → Elem D → Bool} (h : H.Heap after) : D :=
  (H.first h).elim CDouble.dblMax Elem.lb

/-- `rx_dist`, consulted in approximate mode only. -/
def rxDist (S : Stream V Q D) (s : State H D) : D :=
  if S.approx then headDistance s.Rx else CDouble.dblMax

/-- The expansion gate: a candidate is queued, budget is left, and emission is
buffered or the candidate may still beat the nearest result. -/
def expansionGate (S : Stream V Q D) (s : State H D) : Bool :=
  let rBound := CDouble.min (headDistance s.R) (rxDist S s)
  let cDist := CDouble.min (headDistance s.C) (headDistance s.Cm)
  let cLb := CDouble.min (headLb s.C) (headLb s.Cm)
  !CDouble.eq cDist CDouble.dblMax && decide (s.nExpansions < S.efSearch) &&
    (S.settings.bufferedEmission || CDouble.le cLb rBound)

/-- Which heap the next expansion takes its candidate from. -/
def choosesCm (S : Stream V Q D) (s : State H D) : Bool :=
  if S.settings.memberFirst && !H.isEmpty s.Cm then true
  else !(!H.isEmpty s.C && CDouble.le (headDistance s.C) (headDistance s.Cm))

/-- The candidate to expand and the state without it. -/
def popCandidate (S : Stream V Q D) (s : State H D) : Option (Elem D × State H D) :=
  if choosesCm S s then (H.removeFirst s.Cm).map fun p => (p.1, { s with Cm := p.2 })
  else (H.removeFirst s.C).map fun p => (p.1, { s with C := p.2 })

/-- The expansion routine the scan uses. -/
def expand (S : Stream V Q D) (fuel : Nat) (s : State H D) (ce : Elem D) : Option (State H D) :=
  if S.inlineOn then t2StreamExpandInline S fuel s ce else t2StreamExpand S s ce

/-- One expansion. -/
def expandOne (S : Stream V Q D) (fuel : Nat) (s : State H D) : Option (State H D) := do
  let (ce, s) ← popCandidate S s
  let s ← expand S fuel s ce
  some { s with nExpansions := s.nExpansions + 1, expanded := ce.indextid :: s.expanded }

/-- `ACORN_T2_RERANK_WINDOW`. -/
def t2RerankWindow : Nat := 40

/-- Whether the head of `R` is to be rescored before anything is emitted. -/
def rerankGate (S : Stream V Q D) (s : State H D) : Bool :=
  !H.isEmpty s.R && (CDouble.le (headLb s.R) (rxDist S s) ||
    (!S.kernels.haveBound && decide (s.rxCount < t2RerankWindow)))

/-- How an iteration ends: the loop continues, or the call returns an element or
`false`. -/
inductive Outcome
  | continue
  | emit (heaptid : Tid)
  | finish
  deriving DecidableEq

/-- One iteration of the loop of `acorn_t2_stream_next`. -/
def iterate (S : Stream V Q D) (fuel : Nat) (s : State H D) : Option (Outcome × State H D) :=
  if expansionGate S s then (expandOne S fuel s).map fun s => (.continue, s)
  else if S.approx then
    if rerankGate S s then (t2RerankOne S s).map fun s => (.continue, s)
    else match H.removeFirst s.Rx with
      | none => some (.finish, { s with exhausted := true })
      | some (rn, Rx) => some (.emit rn.heaptid, { s with Rx := Rx, rxCount := s.rxCount - 1 })
  else match H.removeFirst s.R with
    | none => some (.finish, { s with exhausted := true })
    | some (rn, R) => some (.emit rn.heaptid, { s with R := R })

/-- The loop. -/
def nextLoop (S : Stream V Q D) (fuel : Nat) : Nat → State H D → Option (Option Tid × State H D)
  | 0, _ => none
  | n + 1, s =>
    match iterate S fuel s with
    | some (.continue, s) => nextLoop S fuel n s
    | some (.emit t, s) => some (some t, s)
    | some (.finish, s) => some (none, s)
    | none => none

/-- `acorn_t2_stream_next`: an element's heap identifier, or `none` for `false`. -/
def t2StreamNext (S : Stream V Q D) (fuel : Nat) (s : State H D) :
    Option (Option Tid × State H D) :=
  if s.exhausted then some (none, s) else nextLoop S fuel fuel s

/-- Calls `acorn_t2_stream_next` until it returns `false`. -/
def drain (S : Stream V Q D) (fuel : Nat) : Nat → State H D → Option (List Tid × State H D)
  | 0, _ => none
  | n + 1, s =>
    match t2StreamNext S fuel s with
    | some (some t, s) => (drain S fuel n s).map fun p => (t :: p.1, p.2)
    | some (none, s) => some ([], s)
    | none => none

/-- `k` successive calls of `acorn_t2_stream_next` and the rows they return. -/
def calls (S : Stream V Q D) (fuel : Nat) : Nat → State H D → Option (List Tid × State H D)
  | 0, s => some ([], s)
  | k + 1, s =>
    match t2StreamNext S fuel s with
    | some (some t, s) => (calls S fuel k s).map fun p => (t :: p.1, p.2)
    | some (none, s) => calls S fuel k s
    | none => none

end Model

end PgAcorn.Scan
