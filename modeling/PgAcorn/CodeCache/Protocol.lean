import PgAcorn.Library.Machine
import PgAcorn.Scan.Stream
import Mathlib.Logic.Function.Basic

/-! The shared code cache: a directory of slots, one index each.

A backend that begins a scan claims a slot for its index under the directory
lock, moves it from EMPTY to LOADING by compare-and-swap, fills an area from the
index's element pages, publishes it, attaches to it and takes a reference. Each of
these is one action of the machine (`step`); a backend is at one of the points
`Pc` between two of them. Slots are evicted, with the guard of the callers of
`acorn_cc_evict_slot`, by backends at rest and by a backend that makes room for its
load. Indexes change at any time; `world` lists the versions of each.

Which slot is evicted, and where a load runs out of budget, is left open. Sizes,
LRU stamps and the pins that keep an area mapped decide nothing else. -/
namespace PgAcorn.CodeCache
open Library
open Scan (CodeCacheHit)

/-! ### The directory -/

/-- `ACORN_CC_NSLOTS`. -/
def ccNSlots : Nat := 64

theorem ccNSlots_pos : 0 < ccNSlots := by decide

/-- `ACORN_CC_MAX_DIM`. -/
def ccMaxDim : Nat := 2000

/-- What names an index: `dboid` and `relnumber`. -/
structure Key where
  dboid : Nat
  relnumber : Nat
  deriving DecidableEq

/-- `InvalidOid`, `InvalidRelFileNumber`. -/
def Key.invalid : Key := ⟨0, 0⟩

/-- Not the key of an unclaimed slot. -/
def Key.isValid (x : Key) : Bool := decide (x.dboid ≠ 0)

inductive SlotState
  | empty
  | loading
  | ready
  | partialLoad
  deriving DecidableEq

/-- READY or PARTIAL. -/
def SlotState.serves : SlotState → Bool
  | .ready => true
  | .partialLoad => true
  | _ => false

/-- `AcornCodeCacheSlot`. A `dsa_pointer` is relative to its area, and 0 is
invalid. -/
structure Slot where
  key : Key
  state : SlotState
  generation : BitVec 32
  dim : Nat
  nblocks : Nat
  activeScans : Nat
  areaHandle : Nat
  blocks : Nat
  deriving DecidableEq

/-- A slot as `acorn_cc_dir_init` leaves it. -/
def Slot.init : Slot := ⟨Key.invalid, .empty, 0, 0, 0, 0, 0, 0⟩

/-- The entries of a page, by offset; an absent entry is not PRESENT. -/
abbrev CachePage (Q : Type) := List (Option (CodeCacheHit Q))

/-- A block directory, by block number. -/
abbrev Blocks (Q : Type) := Nat → Option (CachePage Q)

/-- A DSA area with its block directory, and the index it was created for, which
the source does not record. -/
structure Area (Q : Type) where
  index : Key
  blocksDp : Nat
  blocks : Blocks Q

/-- `AcornCodeCacheScan`, a backend's mapping of a slot. Its `scan_refs` is the
number of the backend's open scans that use it. -/
structure Handle where
  area : Nat
  slot : Fin ccNSlots
  key : Key
  blocksDp : Nat
  nblocks : Nat
  dim : Nat
  generation : BitVec 32
  deriving DecidableEq

/-- Where a backend stands in `acorn_codecache_begin_scan`. -/
inductive Pc
  | idle
  /-- about to take a reference through the cached mapping -/
  | acquireCached (x : Key) (dim : Nat)
  | lookup (x : Key) (dim : Nat)
  | readState (x : Key) (dim : Nat) (i : Fin ccNSlots)
  /-- about to try EMPTY to LOADING -/
  | claim (x : Key) (dim : Nat) (i : Fin ccNSlots)
  | load (x : Key) (dim : Nat) (i : Fin ccNSlots)
  /-- filling an area from block `blkno` on -/
  | loading (x : Key) (dim : Nat) (i : Fin ccNSlots) (area blkno nblocks : Nat)
  | reread (x : Key) (dim : Nat) (i : Fin ccNSlots)
  | checkDim (x : Key) (dim : Nat) (i : Fin ccNSlots)
  | attach (x : Key) (i : Fin ccNSlots)
  | acquire (x : Key)
  deriving DecidableEq

/-- A backend: its place, its mappings, and its open scans with the slots they
hold a reference on. -/
structure Backend where
  pc : Pc
  attached : Key → Option Handle
  scans : List (Key × Fin ccNSlots)

/-- How vectors are coded. -/
structure Codec (V Q : Type) where
  dim : V → Nat
  encode : V → Q

/-- The shared directory and areas, the backends, and the indexes, newest version
first. -/
structure State (B V Q : Type) where
  slots : Fin ccNSlots → Slot
  areas : List (Area Q)
  backends : B → Backend
  world : Key → List (Relation V Q)

section Model
variable {B V Q : Type} [DecidableEq B]

namespace State

def setSlot (s : State B V Q) (i : Fin ccNSlots) (slot : Slot) : State B V Q :=
  { s with slots := Function.update s.slots i slot }

def setBackend (s : State B V Q) (b : B) (be : Backend) : State B V Q :=
  { s with backends := Function.update s.backends b be }

/-- The backend moves on. -/
def goto (s : State B V Q) (b : B) (pc : Pc) : State B V Q :=
  s.setBackend b { s.backends b with pc := pc }

/-- `acorn_cc_forget_attach`. -/
def forgetAttach (s : State B V Q) (b : B) (x : Key) : State B V Q :=
  s.setBackend b { s.backends b with attached := Function.update (s.backends b).attached x none }

/-- `acorn_cc_attach_store`. -/
def attachStore (s : State B V Q) (b : B) (h : Handle) : State B V Q :=
  s.setBackend b
    { s.backends b with attached := Function.update (s.backends b).attached h.key (some h) }

end State

/-! ### The steps of a scan's beginning -/

/-- `acorn_cc_slot_lookup`: the index's slot, else a free one, claimed. -/
def slotLookup (slots : Fin ccNSlots → Slot) (x : Key) :
    Option (Fin ccNSlots × (Fin ccNSlots → Slot)) :=
  match (List.finRange ccNSlots).find? fun i => decide ((slots i).key = x) with
  | some i => some (i, slots)
  | none =>
    match (List.finRange ccNSlots).find? fun i => decide ((slots i).key.dboid = 0) with
    | some i => some (i, Function.update slots i { slots i with key := x })
    | none => none

/-- The revalidation of a mapping, the same wherever it is made. -/
def stillLive (slots : Fin ccNSlots → Slot) (h : Handle) : Bool :=
  decide (h.generation = (slots h.slot).generation) && decide ((slots h.slot).key = h.key) &&
    (slots h.slot).state.serves

/-- `acorn_cc_scan_acquire`, with the reference and the refreshed snapshot. -/
def scanAcquire (s : State B V Q) (b : B) (x : Key) (h : Handle) : Option (State B V Q) :=
  if stillLive s.slots h then
    let slot := s.slots h.slot
    let be := s.backends b
    some ((s.setSlot h.slot { slot with activeScans := slot.activeScans + 1 }).setBackend b
      { be with
        attached := Function.update be.attached x
          (some { h with blocksDp := slot.blocks, nblocks := slot.nblocks })
        scans := (x, h.slot) :: be.scans })
  else none

/-- The mapping `acorn_cc_attach` makes. -/
def Handle.ofSlot (x : Key) (i : Fin ccNSlots) (slot : Slot) : Handle :=
  ⟨slot.areaHandle, i, x, slot.blocks, slot.nblocks, slot.dim, slot.generation⟩

/-- `acorn_codecache_begin_scan` up to its first locked or atomic step. -/
def beginScan (s : State B V Q) (b : B) (x : Key) (dim : Nat) : Option (State B V Q) :=
  if (s.backends b).pc = .idle ∧ x.isValid = true ∧ 0 < dim then
    match (s.backends b).attached x with
    | none => some (s.goto b (.lookup x dim))
    | some h =>
      if stillLive s.slots h then some (s.goto b (.acquireCached x dim))
      else some ((s.forgetAttach b x).goto b (.lookup x dim))
  else none

/-- The next step of a backend that is not loading. -/
def proceed (s : State B V Q) (b : B) : Option (State B V Q) :=
  match (s.backends b).pc with
  | .idle => none
  | .acquireCached x dim =>
    match (s.backends b).attached x with
    | none => none
    | some h =>
      match scanAcquire s b x h with
      | some s => some (s.goto b .idle)
      | none => some ((s.forgetAttach b x).goto b (.lookup x dim))
  | .lookup x dim =>
    match slotLookup s.slots x with
    | some (i, slots) => some ({ s with slots := slots }.goto b (.readState x dim i))
    | none => some (s.goto b .idle)
  | .readState x dim i =>
    match (s.slots i).state with
    | .empty => some (s.goto b (.claim x dim i))
    | .loading => some (s.goto b .idle)
    | _ => some (s.goto b (.checkDim x dim i))
  | .claim x dim i =>
    match (s.slots i).state with
    | .empty => some ((s.setSlot i { s.slots i with state := .loading }).goto b (.load x dim i))
    | .loading => some (s.goto b .idle)
    | _ => some (s.goto b (.checkDim x dim i))
  | .load _ _ _ => none
  | .loading _ _ _ _ _ _ => none
  | .reread x dim i =>
    if (s.slots i).state.serves then some (s.goto b (.checkDim x dim i)) else some (s.goto b .idle)
  | .checkDim x dim i =>
    if (s.slots i).dim = dim then some (s.goto b (.attach x i)) else some (s.goto b .idle)
  | .attach x i =>
    match (s.backends b).attached x with
    | some _ => some (s.goto b (.acquire x))
    | none =>
      if (s.slots i).state.serves ∧ (s.slots i).key = x then
        some ((s.attachStore b (Handle.ofSlot x i (s.slots i))).goto b (.acquire x))
      else some (s.goto b .idle)
  | .acquire x =>
    match (s.backends b).attached x with
    | none => none
    | some h =>
      match scanAcquire s b x h with
      | some s => some (s.goto b .idle)
      | none => some (s.goto b .idle)

/-! ### Loading -/

/-- An element tuple's cache entry. -/
def loadElement (codec : Codec V Q) (e : ElementTuple V) : CodeCacheHit Q :=
  ⟨e.heaptid, e.neighbortid, e.level, e.deleted, e.filterVal, codec.encode e.vec⟩

/-- What the loader makes of one item of a page. -/
def loadItem (codec : Codec V Q) (dim : Nat) : IndexTuple V Q → Option (CodeCacheHit Q)
  | .element e => if codec.dim e.vec = dim then some (loadElement codec e) else none
  | _ => none

/-- A page's array, allocated when the page has an element. -/
def loadPage (codec : Codec V Q) (dim : Nat) (r : Relation V Q) (blkno : Nat) :
    Option (CachePage Q) :=
  (r.pages[blkno - 1]?).bind fun p =>
    let page := p.items.map (loadItem codec dim)
    if page.any Option.isSome then some page else none

/-- The newest version of an index. -/
def State.current (s : State B V Q) (x : Key) : Option (Relation V Q) := (s.world x).head?

/-- `ACORN_CC_DIR_GROW`, as long as its 32 bits suffice. -/
def ccDirGrow (need : Nat) : Nat := need + 64

/-- The area of a load, its publication in the slot, and the loader's mapping.
`dp` is what the allocator returns. -/
def create (s : State B V Q) (b : B) (dp : Nat) : Option (State B V Q) :=
  match (s.backends b).pc with
  | .load x dim i =>
    if dp = 0 then none
    else (s.current x).map fun r =>
      let nblocks := r.pages.length + 1
      let slot := { s.slots i with
        areaHandle := s.areas.length, dim := dim, generation := (s.slots i).generation + 1
        blocks := dp, nblocks := ccDirGrow nblocks }
      let s : State B V Q := { s with areas := s.areas ++ [⟨x, dp, fun _ => none⟩] }
      ((s.setSlot i slot).attachStore b (Handle.ofSlot x i slot)).goto b
        (.loading x dim i slot.areaHandle 1 nblocks)
  | _ => none

/-- A load that fails before it has an area; the slot stays LOADING. -/
def createFails (s : State B V Q) (b : B) : Option (State B V Q) :=
  match (s.backends b).pc with
  | .load _ _ _ => some (s.goto b .idle)
  | _ => none

/-- Publishes a page's array in the area's block directory. -/
def Area.publish (a : Area Q) (blkno : Nat) (page : Option (CachePage Q)) : Area Q :=
  match page with
  | some page => { a with blocks := Function.update a.blocks blkno (some page) }
  | none => a

/-- One block of a load. -/
def loadBlock (codec : Codec V Q) (s : State B V Q) (b : B) : Option (State B V Q) :=
  match (s.backends b).pc with
  | .loading x dim i area blkno nblocks =>
    if blkno < nblocks then
      (s.current x).map fun r =>
        { s with areas := s.areas.modify area fun a => a.publish blkno (loadPage codec dim r blkno) }.goto b
          (.loading x dim i area (blkno + 1) nblocks)
    else none
  | _ => none

/-- The end of a load: READY after the last block, PARTIAL when the budget ran out
or an error is thrown, which leaves `acorn_codecache_begin_scan` as well. -/
def publish (s : State B V Q) (b : B) (state : SlotState) (error : Bool) :
    Option (State B V Q) :=
  match (s.backends b).pc with
  | .loading x dim i _ blkno nblocks =>
    if (state = .ready ∧ nblocks ≤ blkno ∧ error = false) ∨ state = .partialLoad then
      some ((s.setSlot i { s.slots i with state := state }).goto b
        (if error then .idle else .reread x dim i))
    else none
  | _ => none

/-! ### Eviction and the end of a scan -/

/-- Whether the backend may evict: an administrator's function, or a load that
makes room before it creates its area. -/
def Pc.mayEvict : Pc → Bool
  | .idle => true
  | .load _ _ _ => true
  | _ => false

/-- `acorn_cc_evict_slot`, under the guard of its callers. -/
def evictSlot (s : State B V Q) (b : B) (i : Fin ccNSlots) : Option (State B V Q) :=
  if (s.backends b).pc.mayEvict ∧ (s.slots i).state.serves ∧ (s.slots i).activeScans = 0 then
    let slot := s.slots i
    some ((s.setSlot i { slot with
      key := Key.invalid, state := .empty, generation := slot.generation + 1, dim := 0
      nblocks := 0, blocks := 0 }).forgetAttach b slot.key)
  else none

/-- `acorn_cc_release_one_ref`, at the end of a scan or of its transaction. -/
def endScan (s : State B V Q) (b : B) (x : Key) (i : Fin ccNSlots) : Option (State B V Q) :=
  if (x, i) ∈ (s.backends b).scans then
    let slot := s.slots i
    some ((s.setSlot i { slot with activeScans := slot.activeScans - 1 }).setBackend b
      { s.backends b with scans := (s.backends b).scans.erase (x, i) })
  else none

/-! ### Lookups -/

/-- `dsa_get_address` of a block directory; `none` is an address that is not one. -/
def dsaGetAddress (areas : List (Area Q)) (area dp : Nat) : Option (Blocks Q) :=
  (areas[area]?).bind fun a => if dp ≠ 0 ∧ dp = a.blocksDp then some a.blocks else none

/-- `acorn_cc_resolve_blocks`: a block directory that covers the block, and the
mapping with its snapshot refreshed. -/
def resolveBlocks (slots : Fin ccNSlots → Slot) (areas : List (Area Q)) (h : Handle) (blkno : Nat) :
    Option (Option (Blocks Q) × Handle) := do
  let blocks ← dsaGetAddress areas h.area h.blocksDp
  if blkno < h.nblocks ∧ (blocks blkno).isSome then some (some blocks, h)
  else if (slots h.slot).generation ≠ h.generation then some (none, h)
  else
    let h := { h with blocksDp := (slots h.slot).blocks, nblocks := (slots h.slot).nblocks }
    let blocks ← dsaGetAddress areas h.area h.blocksDp
    some (if h.nblocks ≤ blkno then none else some blocks, h)

/-- The entry at an offset, if it is PRESENT and not DELETED. -/
def readEntry (page : CachePage Q) (offno : Nat) : Option (CodeCacheHit Q) :=
  if offno = 0 then none
  else match page[offno - 1]? with
    | some (some e) => if e.deleted then none else some e
    | _ => none

/-- `acorn_codecache_lookup`: a hit or a miss, and the refreshed mapping. -/
def codecacheLookup (slots : Fin ccNSlots → Slot) (areas : List (Area Q)) (h : Handle) (t : Tid) :
    Option (Option (CodeCacheHit Q) × Handle) :=
  if h.dim = 0 ∨ ccMaxDim < h.dim then some (none, h)
  else (resolveBlocks slots areas h t.blkno).map fun p =>
    ((p.1.bind fun blocks => blocks t.blkno).bind fun page => readEntry page t.offno, p.2)

/-! ### The machine -/

inductive Action (B V Q : Type)
  | beginScan (b : B) (x : Key) (dim : Nat)
  | proceed (b : B)
  | create (b : B) (dp : Nat)
  | createFails (b : B)
  | loadBlock (b : B)
  | publish (b : B) (state : SlotState) (error : Bool)
  | evict (b : B) (i : Fin ccNSlots)
  | endScan (b : B) (x : Key) (i : Fin ccNSlots)
  /-- an open scan looks an element up -/
  | lookup (b : B) (x : Key) (i : Fin ccNSlots) (t : Tid)
  /-- an index changes, in any way -/
  | modify (x : Key) (r : Relation V Q)

/-- One action. -/
def step (codec : Codec V Q) (s : State B V Q) : Action B V Q → Option (State B V Q)
  | .beginScan b x dim => beginScan s b x dim
  | .proceed b => proceed s b
  | .create b dp => create s b dp
  | .createFails b => createFails s b
  | .loadBlock b => loadBlock codec s b
  | .publish b state error => publish s b state error
  | .evict b i => evictSlot s b i
  | .endScan b x i => endScan s b x i
  | .lookup b x i t =>
    if (x, i) ∈ (s.backends b).scans then
      ((s.backends b).attached x).bind fun h =>
        (codecacheLookup s.slots s.areas h t).map fun p => s.attachStore b p.2
    else none
  | .modify x r => some { s with world := Function.update s.world x (r :: s.world x) }

/-- A directory that has just been created, and backends that have not used it. -/
def State.init (world : Key → List (Relation V Q)) : State B V Q where
  slots := fun _ => Slot.init
  areas := []
  backends := fun _ => ⟨.idle, fun _ => none, []⟩
  world := world

end Model

end PgAcorn.CodeCache
