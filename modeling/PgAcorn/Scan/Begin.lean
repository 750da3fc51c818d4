import PgAcorn.Scan.Stream

/-! Beginning a scan: the meta page, the greedy descent and the seed.

The descent walks the upper layers towards the query, moving to a strictly
nearer neighbor for as long as there is one; where it ends is the base-layer
entry point, and the frontier starts from there. -/
namespace PgAcorn.Scan
open Library
open PgAcorn.Filter (Fmgr ScanKey Datum)

variable {V Q D : Type} [CDouble D] {H : PairingHeap}

/-! ### Greedy descent -/

/-- `acorn_t2_distance`. -/
def t2Distance (S : Stream V Q D) (t : Tid) : Option D :=
  (S.index.element t).map fun e => S.kernels.etupDistance e.vec

/-- One neighbor: the cursor moves to it if it is strictly nearer. -/
def descendNeighbor (S : Stream V Q D) (c : Tid × D × Bool) (t : Tid) :
    Option (Tid × D × Bool) :=
  if !t.isValid then some c
  else (t2Distance S t).map fun nd => if CDouble.lt nd c.2.1 then (t, nd, true) else c

/-- One pass over the neighbors of the node the cursor is on, with whether it
moved. -/
def greedyRound (S : Stream V Q D) (lc : Nat) (c : Tid × D) : Option (Tid × D × Bool) := do
  let e ← S.index.element c.1
  let neighbors ← getNeighbors S.index e.neighbortid e.level lc S.m hnswMaxNeighbors
  neighbors.foldlM (descendNeighbor S) (c.1, c.2, false)

/-- Passes on one layer, until the cursor stays. -/
def greedyLayer (S : Stream V Q D) (lc : Nat) : Nat → Tid × D → Option (Tid × D)
  | 0, _ => none
  | n + 1, c =>
    match greedyRound S lc c with
    | some (t, d, true) => greedyLayer S lc n (t, d)
    | some (t, d, false) => some (t, d)
    | none => none

/-- The layers from `lc` down to above `target`. -/
def greedyLayers (S : Stream V Q D) (fuel target : Nat) : Nat → Tid × D → Option (Tid × D)
  | 0, c => some c
  | lc + 1, c =>
    if lc + 1 > target then (greedyLayer S (lc + 1) fuel c).bind (greedyLayers S fuel target lc)
    else some c

/-- `acorn_t2_greedy_descent`. -/
def t2GreedyDescent (S : Stream V Q D) (fuel : Nat) (t : Tid) (startLevel targetLevel : Nat) :
    Option Tid := do
  let d ← t2Distance S t
  let (t, _) ← greedyLayers S fuel targetLevel startLevel (t, d)
  some t

/-! ### Begin -/

/-- Empty heaps. -/
def State.empty : State H D :=
  { C := H.allocate _, Cm := H.allocate _, R := H.allocate _, Rx := H.allocate _
    visited := [], nExpansions := 0, rxCount := 0, exhausted := false, expanded := [] }

/-- What a scan of `r` fixes at its beginning. `cache` is what the code cache
answers when it serves the index. -/
def Stream.ofIndex (settings : Settings) (fmgr : Fmgr) (kernels : Kernels V Q D)
    (cache : Option (Tid → Option (CodeCacheHit Q))) (r : Relation V Q) (keys : List ScanKey)
    (efSearch : Nat) : Stream V Q D where
  index := r
  kernels := kernels
  fmgr := fmgr
  settings := settings
  m := r.metaPage.m
  payloadM := r.metaPage.payloadWidth
  efSearch := settings.autoEf.getD efSearch
  keys := keys
  inlineOn := r.metaPage.inlineVectors && settings.scanInlineVectors &&
    decide (r.metaPage.dimensions > 0)
  cc := if !r.metaPage.inlineVectors && settings.scanCodeCache &&
    decide (r.metaPage.dimensions > 0) then cache else none

/-- The base-layer entry point. -/
def baseEntry (S : Stream V Q D) (fuel : Nat) : Option Tid :=
  if S.index.metaPage.entryLevel > 0 then
    t2GreedyDescent S fuel S.index.metaPage.entry S.index.metaPage.entryLevel.toNat 0
  else some S.index.metaPage.entry

/-- The frontier at the base-layer entry point. -/
def seed (S : Stream V Q D) (entry : Tid) : Option (State H D) :=
  (t2LoadNode S (S.settings.scanSingleRead || S.approx) entry).map
    (push S { State.empty with visited := markVisited [] entry })

/-- `acorn_t2_stream_begin`, for the stream of an index. -/
def t2StreamBegin (S : Stream V Q D) (fuel : Nat) : Option (State H D) :=
  if !S.index.metaPage.hasEntry then some { State.empty with exhausted := true }
  else (baseEntry S fuel).bind (seed S)

end PgAcorn.Scan
