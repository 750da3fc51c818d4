import PgAcorn.Geometry
import PgAcorn.Filter

/-! The tuples of an index and the pages that hold them.

Three kinds of tuples live on the data pages: an element carries a node's
metadata and vector, a neighbor tuple its slot array, and, where vectors are
co-located, a chain of inline chunks repeats the data of the layer-0 targets.
`V` is the type of vector datums and `Q` that of quantized vectors with their
scale and offset; nothing here looks into either. Block 0 is the meta page.

A tuple is named by block and offset. Offsets count from one and tuples are
never moved, so a name stays good for as long as the relation only grows. -/
namespace PgAcorn
open PgAcorn.Filter (Datum)

/-! ### Tuple identifiers -/

/-- `ItemPointerData`. -/
structure Tid where
  blkno : Nat
  offno : Nat
  deriving DecidableEq, Repr

/-- `InvalidBlockNumber`. -/
def invalidBlockNumber : Nat := 0xFFFFFFFF

/-- `ItemPointerSetInvalid`. -/
def Tid.invalid : Tid := ⟨invalidBlockNumber, 0⟩

/-- `ItemPointerIsValid`. -/
def Tid.isValid (t : Tid) : Bool := t.offno != 0

@[simp] theorem Tid.isValid_invalid : Tid.invalid.isValid = false := rfl

/-- The valid identifiers among some slots, as the readers collect them. -/
def validTids (slots : List Tid) : List Tid := slots.filter (·.isValid)

theorem mem_validTids {slots : List Tid} {t : Tid} :
    t ∈ validTids slots ↔ t ∈ slots ∧ t.isValid = true := List.mem_filter

/-! ### Tuples -/

/-- `AcornT2ElementTupleData` with its vector. -/
structure ElementTuple (V : Type) where
  level : Nat
  deleted : Bool
  heaptids : Vector Tid hnswHeaptids
  neighbortid : Tid
  filterVal : Datum
  vec : V
  deriving DecidableEq

/-- `heaptids[0]` of an element. -/
abbrev ElementTuple.heaptid {V : Type} (e : ElementTuple V) : Tid := e.heaptids[0]

/-- The `heaptids` of an element that is written for one heap row. -/
abbrev singleHeaptid (heaptid : Tid) : Vector Tid hnswHeaptids :=
  (Vector.replicate hnswHeaptids Tid.invalid).set 0 heaptid

/-- `AcornT2InlineEntry`; the two flags are `ACORN_T2_INLINE_VALID` and
`ACORN_T2_INLINE_DELETED`, and `code` is the entry's codes with scale and offset. -/
structure InlineEntry (Q : Type) where
  indextid : Tid
  heaptid : Tid
  nbrtid : Tid
  level : Nat
  valid : Bool
  deleted : Bool
  filterVal : Datum
  code : Q
  deriving DecidableEq

/-- A zeroed entry: not valid. -/
def InlineEntry.zero {Q : Type} [Inhabited Q] : InlineEntry Q :=
  ⟨⟨0, 0⟩, ⟨0, 0⟩, ⟨0, 0⟩, 0, false, false, 0, default⟩

/-- `AcornT2InlineHdrData` with the entries that follow it. -/
structure InlineChunk (Q : Type) where
  start : Nat
  next : Tid
  entries : List (InlineEntry Q)
  deriving DecidableEq

/-- `HnswNeighborTupleData` with its slots and, on an index with co-located
vectors, the primary chunk. -/
structure NeighborTuple (Q : Type) where
  tids : List Tid
  inline? : Option (InlineChunk Q)
  deriving DecidableEq

/-- The header's `count`. -/
def NeighborTuple.count {Q : Type} (n : NeighborTuple Q) : Nat := n.tids.length

/-- The tuple's `type` and contents; `cont` is `AcornT2InlineContData`. -/
inductive IndexTuple (V Q : Type)
  | element (e : ElementTuple V)
  | neighbor (n : NeighborTuple Q)
  | cont (c : InlineChunk Q)
  deriving DecidableEq

/-- The chunk in a neighbor tuple, or the one a continuation tuple is. -/
def IndexTuple.chunk? {V Q : Type} : IndexTuple V Q → Option (InlineChunk Q)
  | .neighbor n => n.inline?
  | .cont c => some c
  | .element _ => none

/-! ### The meta page -/

/-- `AcornT2MetaPageData`, without the filter histogram. -/
structure MetaPage where
  dimensions : Nat
  m : Nat
  entryBlkno : Nat
  entryOffno : Nat
  entryLevel : Int
  /-- `ACORN_T2_META_INLINE_VECTORS` of `acorn_flags`. -/
  inlineVectors : Bool
  /-- Zero stands for a payload half as wide as the global one. -/
  payloadM : Nat
  deriving DecidableEq, Repr

def MetaPage.entry (p : MetaPage) : Tid := ⟨p.entryBlkno, p.entryOffno⟩

/-- Whether the index has an entry point. -/
def MetaPage.hasEntry (p : MetaPage) : Bool := p.entryBlkno != invalidBlockNumber

/-- The payload half's width, its sentinel decoded. -/
def MetaPage.payloadWidth (p : MetaPage) : Nat := if p.payloadM = 0 then p.m else p.payloadM

/-! ### Tuple sizes -/

def maxAlign (n : Nat) : Nat := (n + 7) / 8 * 8

/-- `ACORN_T2_ELEMENT_TUPLE_SIZE`. -/
def elementTupleSize (vsize : Nat) : Nat := maxAlign (80 + vsize)

/-- `ACORN_T2_NEIGHBOR_TUPLE_SIZE`. -/
def neighborTupleSize (level globalM payloadM : Nat) : Nat :=
  maxAlign (4 + t2TotalSlots level globalM payloadM * 6)

/-- `ACORN_T2_INLINE_ENTRY_SIZE`. -/
def inlineEntrySize (dim : Nat) : Nat := maxAlign (40 + dim)

/-- `ACORN_T2_INLINE_HDR_OFFSET`. -/
def inlineHdrOffset (count : Nat) : Nat := maxAlign (4 + count * 6)

/-- `ACORN_T2_INLINE_NTUP_SIZE`. -/
def inlineNtupSize (level globalM payloadM nHere esz : Nat) : Nat :=
  inlineHdrOffset (t2TotalSlots level globalM payloadM) + 16 + nHere * esz

/-- `ACORN_T2_INLINE_CONT_SIZE`. -/
def inlineContSize (nHere esz : Nat) : Nat := 24 + nHere * esz

/-- `BLCKSZ`. -/
def blckSz : Nat := 8192

/-- `SizeOfPageHeaderData`, aligned. -/
def sizeOfPageHeaderData : Nat := 24

/-- The aligned size of `HnswPageOpaqueData`. -/
def sizeOfPageOpaque : Nat := 8

/-- `sizeof(ItemIdData)`. -/
def sizeOfItemId : Nat := 4

/-- `HNSW_MAX_SIZE`. -/
def hnswMaxSize : Nat := blckSz - sizeOfPageHeaderData - sizeOfPageOpaque - sizeOfItemId

/-- `acorn_t2_inline_primary_cap`. -/
def t2InlinePrimaryCap (level globalM payloadM entrySize : Nat) : Nat :=
  let base := inlineHdrOffset (t2TotalSlots level globalM payloadM) + 16
  if base ≥ hnswMaxSize then 0 else (hnswMaxSize - base) / entrySize

/-- `acorn_t2_inline_cont_cap`. -/
def t2InlineContCap (entrySize : Nat) : Nat := (hnswMaxSize - 24) / entrySize

end PgAcorn
