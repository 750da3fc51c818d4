import PgAcorn.Build.Options
import PgAcorn.Graph
import PgAcorn.Library.Program

/-! The index as concurrent inserts share it, and their page accesses.

Every access of a page under its buffer lock is one atomic operation: reading the
meta page, an element, a slot range or an inline chunk; adding a tuple to a page;
updating the entry point; writing a slot or an inline entry. Beside the relation,
`History` records what the operations did: which slot ranges they touched, what
each backend wrote, and the slots of every layer as their writers meant them. No
operation looks at the record. -/
namespace PgAcorn.Build
open Library
open PgAcorn.Filter (Datum)

/-! ### The record -/

/-- A slot range of a neighbor tuple that an operation read or wrote, as a range
of the whole slot array; `whole` says it was read as all of the layer. -/
structure Access where
  nbrtid : Tid
  layer : Nat
  start : Int
  len : Nat
  whole : Bool
  deriving DecidableEq

/-- What a backend did that others can tell. -/
inductive Event (I : Type)
  /-- It read the meta page; `found` an entry point or not, the index without any
  element (`vacant`) or not. -/
  | read (i : I) (found vacant : Bool)
  /-- It appended a neighbor tuple for an element of a level. -/
  | neighbor (i : I) (t : Tid) (level : Nat)
  /-- It appended an element, whose reverse edges on layer 0 outside the payload
  halves go to `offers`. -/
  | element (i : I) (t : Tid) (offers : List Tid)
  deriving DecidableEq

/-- Who did it. -/
def Event.backend {I : Type} : Event I → I
  | read i _ _ | neighbor i _ _ | element i _ _ => i

/-- A reverse edge to `e` that is ready to be written: the slot `start + target`,
the range as it was copied, and what a full range goes by. -/
structure ReverseEdge where
  nbrtid : Tid
  start : Int
  copied : List Tid
  target : Nat
  e : Tid
  part : Option Nat
  diversify : Bool
  deriving DecidableEq

/-- A reverse edge that was written, with the range as it was then. -/
structure SlotWrite extends ReverseEdge where
  found : List Tid
  deriving DecidableEq

structure History (I : Type) where
  accesses : List Access
  events : List (Event I)
  writes : List SlotWrite
  /-- The elements whose entry-update step has run. -/
  updated : List Tid
  /-- The slots of each layer of a neighbor tuple. -/
  written : Tid → Nat → List Tid

/-- The index and the record. -/
structure Disk (I V Q : Type) where
  relation : Relation V Q
  history : History I

section
variable {I V Q D : Type}

/-- The neighbor tuple with one slot rewritten. -/
def setSlot (k : Nat) (e : Tid) : IndexTuple V Q → IndexTuple V Q
  | .neighbor n => .neighbor { n with tids := n.tids.set k e }
  | x => x

namespace Disk

def access (s : Disk I V Q) (a : Access) : Disk I V Q :=
  { s with history := { s.history with accesses := a :: s.history.accesses } }

def event (s : Disk I V Q) (e : Event I) : Disk I V Q :=
  { s with history := { s.history with events := e :: s.history.events } }

def withRelation (s : Disk I V Q) (r : Relation V Q) : Disk I V Q := { s with relation := r }

def write (s : Disk I V Q) (t : Tid) (layers : Nat → List Tid) : Disk I V Q :=
  { s with history := { s.history with written := Function.update s.history.written t layers } }

/-- Slot `idx` of a layer, slot `k` of the array, goes to `e`. -/
def putSlot (s : Disk I V Q) (nbrtid : Tid) (layer k idx : Nat) (e : Tid) : Disk I V Q :=
  (s.withRelation (s.relation.update nbrtid (setSlot k e))).write nbrtid
    (Function.update (s.history.written nbrtid) layer
      ((s.history.written nbrtid layer).set idx e))

def noteWrite (s : Disk I V Q) (w : SlotWrite) : Disk I V Q :=
  { s with history := { s.history with writes := w :: s.history.writes } }

/-- The entry-update step of an element. -/
def updateEntry (s : Disk I V Q) (t : Tid) (level : Nat) : Disk I V Q :=
  let p := s.relation.metaPage
  let p' := if !p.hasEntry || decide (level > p.entryLevel) then
    { p with entryBlkno := t.blkno, entryOffno := t.offno, entryLevel := level }
    else p
  { relation := { s.relation with metaPage := p' }
    history := { s.history with updated := t :: s.history.updated } }

end Disk

/-- What an insert calls of the vector type: `acorn_dist` of a stored and a query
vector, the datum's size and dimension, and `acorn_sq8_encode`. -/
structure Opclass (V Q D : Type) where
  dist : V → V → D
  vsize : V → Nat
  dim : V → Nat
  sq8Encode : Nat → V → Q

/-! ### Reads -/

/-- `acorn_read_meta`. -/
def readMeta (i : I) : Prog (Disk I V Q) MetaPage :=
  .lift fun s => .done s.relation.metaPage
    (s.event (.read i s.relation.metaPage.hasEntry s.relation.vacant))

/-- `acorn_read_element`. -/
def readElement (t : Tid) : Prog (Disk I V Q) (ElementTuple V) :=
  .read fun s => s.relation.element t

/-- `acorn_node_distance`, with the filter value. -/
def nodeDistance (oc : Opclass V Q D) (query : V) (t : Tid) : Prog (Disk I V Q) (D × Datum) :=
  .read fun s => (s.relation.element t).map fun e => (oc.dist e.vec query, e.filterVal)

/-- A slot range of a neighbor tuple, copied under the page's lock. The code would go on past the
end of the tuple, where the model faults. -/
def copySlots (nbrtid : Tid) (layer : Nat) (start : Int) (len : Nat) (whole : Bool) :
    Prog (Disk I V Q) (List Tid) :=
  .lift fun s =>
    match (s.relation.neighbor nbrtid).bind fun n => slotRange n.tids start len with
    | some range => .done range (s.access ⟨nbrtid, layer, start, len, whole⟩)
    | none => .fault

/-- `acorn_read_nbr_tids_at_layer`. -/
def readNbrTidsAtLayer (nbrtid : Tid) (elemLevel layer mEff payloadM maxTids : Nat) :
    Prog (Disk I V Q) (List Tid) := do
  let tids ← copySlots nbrtid layer (hnswNeighborStart mEff elemLevel layer)
    (min (t2LayerM layer mEff payloadM) maxTids) true
  pure (validTids tids)

/-! ### Appends -/

/-- `RelationGetNumberOfBlocksInFork`. -/
def numberOfBlocks : Prog (Disk I V Q) Nat := .read fun s => some (s.relation.pages.length + 1)

/-- Adds the tuple to an existing page, if it fits; `none` if it does not.
`note` records the tuple. -/
def addToPage (blkno : Nat) (x : IndexTuple V Q) (size : Nat)
    (note : Tid → Disk I V Q → Disk I V Q) : Prog (Disk I V Q) (Option (Option Tid)) :=
  .lift fun s =>
    match s.relation.appendAt blkno x size with
    | none => .fault
    | some .full => .done none s
    | some .failed => .done (some none) s
    | some (.added t r) => .done (some (some t)) (note t (s.withRelation r))

/-- Adds a page with the tuple. The page's lock is held from before it can hold
anything; until it is initialized it has no free space. -/
def addPage (x : IndexTuple V Q) (size : Nat) (note : Tid → Disk I V Q → Disk I V Q) :
    Prog (Disk I V Q) (Option Tid) :=
  .lift fun s =>
    match s.relation.extendTuple x size with
    | none => .done none s
    | some (t, r) => .done (some t) (note t (s.withRelation r))

/-- The second half of `acorn_append_tuple`. -/
def appendPage (x : IndexTuple V Q) (size : Nat) (note : Tid → Disk I V Q → Disk I V Q) :
    Prog (Disk I V Q) Tid := do
  let added ← addPage x size note
  match added with
  | some t => pure t
  | none => .raise "acorn_hnsw: tuple too large for page"

/-- `acorn_append_tuple`. -/
def appendTuple (x : IndexTuple V Q) (size : Nat) (note : Tid → Disk I V Q → Disk I V Q) :
    Prog (Disk I V Q) Tid := do
  let nblocks ← numberOfBlocks
  if nblocks > 1 then
    let added ← addToPage (nblocks - 1) x size note
    match added with
    | some (some t) => pure t
    | some none => .raise "acorn_hnsw: failed to add index tuple"
    | none => appendPage x size note
  else appendPage x size note

/-! ### Updates in place -/

/-- `acorn_maybe_update_entry`. -/
def maybeUpdateEntry (t : Tid) (level : Nat) : Prog (Disk I V Q) Unit :=
  .lift fun s => .done () (s.updateEntry t level)

/-- Phase 2 of a reverse edge: writes slot `start + target` of a neighbor tuple,
slot `off + target` of the layer, under the page's exclusive lock. The code would write past the
end of the tuple, where the model faults. -/
def writeSlot (layer off : Nat) (w : ReverseEdge) : Prog (Disk I V Q) Unit :=
  .lift fun s =>
    match s.relation.neighbor w.nbrtid with
    | some n =>
      match slotRange n.tids (w.start + w.target) 1 with
      | some _ => .done () (((s.putSlot w.nbrtid layer (w.start + w.target).toNat (off + w.target)
          w.e).access ⟨w.nbrtid, layer, w.start + w.target, 1, false⟩).noteWrite
          ⟨w, (n.tids.drop w.start.toNat).take w.copied.length⟩)
      | none => .fault
    | none => .fault

/-! ### Inline chunks -/

/-- The tuple with its chunk's entry rewritten. -/
def setEntry (idx : Nat) (entry : InlineEntry Q) : IndexTuple V Q → IndexTuple V Q
  | .neighbor n => .neighbor { n with
      inline? := n.inline?.map fun c => { c with entries := c.entries.set idx entry } }
  | .cont c => .cont { c with entries := c.entries.set idx entry }
  | x => x

def readChunk (t : Tid) : Prog (Disk I V Q) (InlineChunk Q) :=
  .read fun s => (s.relation.item t).bind IndexTuple.chunk?

def writeEntry (t : Tid) (idx : Nat) (entry : InlineEntry Q) : Prog (Disk I V Q) Unit :=
  .lift fun s =>
    match (s.relation.item t).bind IndexTuple.chunk? with
    | some c =>
      if idx < c.entries.length then
        .done () (s.withRelation (s.relation.update t (setEntry idx entry)))
      else .fault
    | none => .fault

/-- `acorn_t2_inline_write_entry`: the entry of a layer-0 slot, if some chunk of
the chain covers it. -/
def t2InlineWriteEntry (fuel : Nat) (t : Tid) (slot : Nat) (entry : InlineEntry Q) :
    Prog (Disk I V Q) Unit :=
  match fuel with
  | 0 => .diverge
  | fuel + 1 => do
    let c ← readChunk t
    if c.start ≤ slot ∧ slot < c.start + c.entries.length then writeEntry t (slot - c.start) entry
    else if !c.next.isValid then pure ()
    else t2InlineWriteEntry fuel c.next slot entry

end

end PgAcorn.Build
