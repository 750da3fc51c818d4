import PgAcorn.CodeCache.Protocol
import PgAcorn.Library.Arena

/-! The shared code cache at the grain of single atomic accesses.

Here every access of a backend to a word that others write without a lock is a step
of its own, and so is every lock-protected section that nobody can look into. A
backend stands at a program counter (`Pc`) between two of them, with the locals
that the rest of the function still needs. What only the backend itself touches (its
attach table, its handles) changes along with the neighbouring access.

A directory or page array is a block of its area's arena. A backend that follows a
pointer to something else, or to a freed block, has left the program: it goes to
`wild` and takes no further step. The hash table of attachments gives out entries by
address; a removed entry's address may be given out again. -/
namespace PgAcorn.SharedCache
open Library
open CodeCache (Key ccNSlots ccNSlots_pos SlotState CachePage)
open Scan (CodeCacheHit)

/-! ### Sizes -/

/-- `ACORN_CC_ENTRY_STRIDE`. -/
def ccEntryStride (dim : Nat) : Nat := maxAlign (40 + dim)

/-- `ACORN_CC_PAGE_SIZE`. -/
def ccPageSize (nslots dim : Nat) : Nat := 8 + nslots * ccEntryStride dim

/-- The bytes of a block directory. -/
def ccDirSize (nblocks : Nat) : Nat := nblocks * 8

/-- `ACORN_CC_PAGE_GROW`. -/
def ccPageGrow (need : Nat) : Nat := need + 8

/-- `ACORN_CC_PER_ELEM_OVERHEAD`. -/
def ccPerElemOverhead : Nat := 8

/-- `ACORN_CC_RETIRE_MAX`. -/
def ccRetireMax : Nat := 256

/-! ### Shared memory -/

/-- `AcornCodeCacheSlot`. `retired` has `n_retired` pointers. -/
structure Slot (B : Type) where
  key : Key
  state : SlotState
  generation : BitVec 32
  nelems : Nat
  bytes : BitVec 64
  dim : Nat
  nblocks : Nat
  activeScans : Nat
  lastused : Nat
  wlock : Option B
  areaHandle : Nat
  areaPinned : Bool
  blocks : Nat
  retired : List Nat

/-- A slot as `acorn_cc_dir_init` leaves it. -/
def Slot.init {B : Type} : Slot B :=
  ⟨Key.invalid, .empty, 0, 0, 0, 0, 0, 0, 0, none, 0, false, 0, []⟩

/-- A block directory or a page array (its `nslots` is its length). -/
inductive CacheArray (Q : Type)
  | dir (entries : List Nat)
  | page (entries : CachePage Q)

/-- A DSA area. The source does not record the index it was made for, nor the slot
and the generation it was published under, nor how often its pin was dropped. -/
structure Area (Q : Type) where
  index : Key
  slot : Fin ccNSlots
  generation : BitVec 32
  pinned : Bool
  unpins : Nat
  arena : Arena (CacheArray Q)

/-- `AcornCodeCacheDirectory`'s lock. -/
structure DirLock (B : Type) where
  holder : Option B
  readers : List B

def DirLock.free {B : Type} (l : DirLock B) : Bool := l.holder.isNone && l.readers.isEmpty

/-! ### Backends -/

/-- `AcornCodeCacheScan`. `mapped` says that `area` has not been detached. -/
structure Handle where
  area : Nat
  mapped : Bool
  slot : Fin ccNSlots
  key : Key
  blocksDp : Nat
  nblocks : Nat
  dim : Nat
  generation : BitVec 32
  scanRefs : Nat
  deriving DecidableEq

/-- An address nothing has been stored at. -/
def Handle.init : Handle := ⟨0, false, ⟨0, ccNSlots_pos⟩, Key.invalid, 0, 0, 0, 0, 0⟩

/-- The arguments of `acorn_codecache_begin_scan`. `level` is the subtransaction the
scan belongs to; `dead` lists, for the record, the elements whose invalidation had
returned before. -/
structure BeginScan where
  key : Key
  dim : Nat
  level : Nat
  dead : List Tid
  deriving DecidableEq

/-- A scan between the return of its `acorn_codecache_begin_scan` and its end: the
handle it was given, the incarnation it was given it for, and the page arrays with
entries it has resolved. -/
structure OpenScan where
  id : Nat
  cc : Nat
  begun : BeginScan
  slot : Fin ccNSlots
  area : Nat
  generation : BitVec 32
  held : List (Tid × Nat)
  deriving DecidableEq

/-- `acorn_codecache_insert` with its entry, or `acorn_codecache_invalidate`. -/
inductive Write (Q : Type)
  | insert (t : Tid) (dim : Nat) (hit : CodeCacheHit Q)
  | invalidate (t : Tid)

/-- An insert that holds the slot's writer lock, with its handle. -/
structure Insert (Q : Type) where
  key : Key
  t : Tid
  dim : Nat
  hit : CodeCacheHit Q
  cc : Nat

/-- Who called `acorn_cc_attach`. -/
inductive AttachFor (Q : Type)
  | scan (q : BeginScan)
  | write (x : Key) (w : Write Q)

def AttachFor.key {Q : Type} : AttachFor Q → Key
  | .scan q => q.key
  | .write x _ => x

/-- Who evicts: an administrator one index or all, or a load that makes room. -/
inductive Evictor
  | admin (x : Option Key)
  | load (q : BeginScan) (i : Fin ccNSlots) (nblocks need : Nat)

/-- The locals of `acorn_cc_evict_slot`. -/
structure Victim where
  slot : Fin ccNSlots
  freed : BitVec 64
  handle : Nat
  key : Key

/-- Who drops references: the end of a scan, or an abort of the subtransactions
from a level on. -/
inductive Release
  | endScan
  | abort (level : Nat)
  deriving DecidableEq

/-- Who resolves a block: an open scan or an invalidation. -/
inductive Resolve
  | scan (id : Nat) (t : Tid)
  | invalidate (x : Key) (t : Tid)

def Resolve.t : Resolve → Tid
  | .scan _ t => t
  | .invalidate _ t => t

/-- The locals of `acorn_cc_load`. -/
structure Load where
  area : Nat
  blocksDp : Nat
  nblocks : Nat

/-- What a growth replaces: the directory, or the array of a page, if it has one. -/
inductive Growth
  | dir (newDp newN : Nat)
  | page (newDp : Nat)

/-- What happens after `acorn_cc_drain_retired`. -/
inductive AfterDrain (Q : Type)
  | release (k : Release)
  | growDir (w : Insert Q)
  | growPage (w : Insert Q) (old : Nat)

inductive BeginPc
  | find
  | lookup
  | readState (i : Fin ccNSlots) (loaded : Bool)
  /-- about to try EMPTY to LOADING -/
  | claim (i : Fin ccNSlots)
  | checkDim (i : Fin ccNSlots)

inductive AcquirePc
  | inc
  | check
  /-- backs out of the reference -/
  | leave
  | readBlocks
  | readNblocks (dp : Nat)

inductive LoadPc
  | start
  | create (nblocks : Nat)
  | storeBlocks (l : Load)
  | storeNblocks (l : Load)
  | readOther (l : Load)
  | page (l : Load) (other blkno bytes nelems : Nat)
  /-- the array at `dp` is complete -/
  | publishPage (l : Load) (other blkno bytes nelems dp : Nat)
  | storeBytes (bytes nelems : Nat) (final : SlotState) (error : Bool)
  | addTotal (bytes : Nat) (final : SlotState) (error : Bool)
  | storeState (final : SlotState) (error : Bool)

inductive AttachPc
  | lock (i : Fin ccNSlots)
  | readBlocks (i : Fin ccNSlots) (area dim : Nat) (generation : BitVec 32)
  | readNblocks (i : Fin ccNSlots) (area dim : Nat) (generation : BitVec 32) (dp : Nat)

inductive EvictPc
  | lock
  | choose
  | read (i : Fin ccNSlots)
  | wlock (v : Victim)
  | storeState (v : Victim)
  | clear (v : Victim)
  | storeNblocks (v : Victim)
  | storeBlocks (v : Victim)
  | subTotal (v : Victim)
  | readScans (v : Victim)
  | dropPin (v : Victim)

inductive ReleasePc
  /-- the next handle with a reference -/
  | next
  | dec (i : Fin ccNSlots) (cc : Nat)
  | readRetired (i : Fin ccNSlots) (cc : Nat)
  | lock (i : Fin ccNSlots) (cc : Nat)

inductive DrainPc
  | check
  | free

inductive ResolvePc
  | fast
  | readGeneration
  | readBlocks
  | readNblocks (dp : Nat)
  | recheck (dp n : Nat)
  | entry (dp : Nat)

inductive WritePc
  | find
  | lookup
  | readState (i : Fin ccNSlots)
  | lock (cc : Nat)

inductive InsertPc
  | ensureDir
  | growDir
  | ensurePage
  | growPage (old : Nat)
  | write (dp : Nat)

inductive GrowPc
  | storeNblocks
  | addBytes
  | addTotal
  | readScans
  | free
  | subBytes
  | subTotal

/-- Where a backend stands. -/
inductive Pc (Q : Type)
  | idle
  /-- has followed a pointer that names nothing -/
  | wild
  | begin (q : BeginScan) (p : BeginPc)
  /-- `acorn_cc_scan_acquire`, through a cached mapping or a new one -/
  | acquire (q : BeginScan) (cached : Bool) (cc : Nat) (p : AcquirePc)
  | load (q : BeginScan) (i : Fin ccNSlots) (p : LoadPc)
  | attach (k : AttachFor Q) (p : AttachPc)
  | evict (e : Evictor) (p : EvictPc)
  | release (k : Release) (p : ReleasePc)
  | drain (k : AfterDrain Q) (i : Fin ccNSlots) (cc : Nat) (p : DrainPc)
  | resolve (k : Resolve) (cc : Nat) (p : ResolvePc)
  | write (x : Key) (w : Write Q) (p : WritePc)
  | insert (w : Insert Q) (p : InsertPc)
  /-- an array of `added` bytes replaces an old one -/
  | grow (w : Insert Q) (g : Growth) (added : Nat) (old : Option (Nat × Nat)) (p : GrowPc)
  /-- about to clear the entry -/
  | invalidate (x : Key) (t : Tid) (cc dp : Nat)

/-- A backend: its place, its `acorn_cc_dir` and `pg_acorn.code_cache_size`, its
attach table with the entries by address, its depth of subtransactions and its open
scans. -/
structure Backend (Q : Type) where
  pc : Pc Q
  dirKnown : Bool
  sizeMb : Nat
  attached : List (Key × Nat)
  handles : Nat → Handle
  nest : Nat
  scans : List OpenScan
  nextScan : Nat

/-- What backends share, and the indexes. `removed` records the elements whose
`acorn_codecache_invalidate` has returned. -/
structure Memory (B V Q : Type) where
  dirLock : DirLock B
  total : BitVec 64
  clock : Nat
  slots : Fin ccNSlots → Slot B
  areas : List (Area Q)
  world : Key → Relation V Q
  removed : Key → List Tid

structure State (B V Q : Type) where
  memory : Memory B V Q
  backends : B → Backend Q

/-! ### Reading -/

/-- `dsa_get_address` of a block directory. -/
def Area.dir? {Q : Type} (a : Area Q) (dp : Nat) : Option (List Nat) :=
  match a.arena.get? dp with
  | some (.dir entries) => some entries
  | _ => none

/-- `dsa_get_address` of a page array. -/
def Area.page? {Q : Type} (a : Area Q) (dp : Nat) : Option (CachePage Q) :=
  match a.arena.get? dp with
  | some (.page entries) => some entries
  | _ => none

section
variable {B V Q : Type} (m : Memory B V Q)

/-- The area a handle maps. -/
def Memory.areaOf (h : Handle) : Option (Area Q) := if h.mapped then m.areas[h.area]? else none

/-- Entry `blkno` of a directory that a handle's area has at `dp`. -/
def Memory.dirEntry (h : Handle) (dp blkno : Nat) : Option Nat :=
  ((m.areaOf h).bind fun a => a.dir? dp).bind fun entries => entries[blkno]?

def Memory.pageOf (h : Handle) (dp : Nat) : Option (CachePage Q) :=
  (m.areaOf h).bind fun a => a.page? dp

/-- The revalidation of a mapping, the same wherever it is made. -/
def stillLive (slots : Fin ccNSlots → Slot B) (h : Handle) : Bool :=
  decide (h.generation = (slots h.slot).generation) && decide ((slots h.slot).key = h.key) &&
    (slots h.slot).state.serves

end

/-! ### Writing -/

namespace Memory
variable {B V Q : Type} (m : Memory B V Q)

def setSlot (i : Fin ccNSlots) (slot : Slot B) : Memory B V Q :=
  { m with slots := Function.update m.slots i slot }

def modifyArea (k : Nat) (f : Area Q → Area Q) : Memory B V Q :=
  { m with areas := m.areas.modify k f }

/-- Changes the arena of an area. -/
def modifyArena (k : Nat) (f : Arena (CacheArray Q) → Arena (CacheArray Q)) : Memory B V Q :=
  m.modifyArea k fun a => { a with arena := f a.arena }

/-- `LWLockRelease` of a slot's `wlock`. -/
def unlock (i : Fin ccNSlots) : Memory B V Q := m.setSlot i { m.slots i with wlock := none }

/-- The return of a write. -/
def finish (x : Key) : Write Q → Memory B V Q
  | .insert .. => m
  | .invalidate t => { m with removed := Function.update m.removed x (t :: m.removed x) }

end Memory

namespace Backend
variable {Q : Type} (be : Backend Q)

/-- `pg_acorn.code_cache_size` in bytes. -/
def budget : Nat := be.sizeMb * 1024 * 1024

/-- `acorn_cc_attach_find`. -/
def attachFind (x : Key) : Option Nat := be.attached.lookup x

/-- The open scan of a number. -/
def scan? (id : Nat) : Option OpenScan := be.scans.find? fun sc => decide (sc.id = id)

/-- The backend moves on. -/
def goto (pc : Pc Q) : Backend Q := { be with pc := pc }

def setHandle (cc : Nat) (h : Handle) : Backend Q :=
  { be with handles := Function.update be.handles cc h }

/-- `acorn_cc_forget_attach`: the mapping is detached and the entry removed. -/
def forgetAttach (x : Key) : Backend Q :=
  match be.attachFind x with
  | none => be
  | some cc => { be.setHandle cc { be.handles cc with mapped := false } with
      attached := be.attached.filter fun p => decide (p.1 ≠ x) }

/-- `acorn_cc_attach_store`: the index's entry, else a new one at an address that no
entry has. -/
def attachStore (h : Handle) (address : Nat) : Option (Backend Q) :=
  match be.attachFind h.key with
  | some cc => some (be.setHandle cc h)
  | none =>
    if ∃ p ∈ be.attached, p.2 = address then none
    else some { be.setHandle address h with attached := (h.key, address) :: be.attached }

end Backend

end PgAcorn.SharedCache
