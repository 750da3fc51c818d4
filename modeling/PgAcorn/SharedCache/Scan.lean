import PgAcorn.SharedCache.State

/-! The reader's side: the beginning of a scan, its lookups, its end.

Each definition is one function of the source, by program counter: what the backend's
next step makes of shared memory and of the backend. A step that waits for a lock it
cannot have is not enabled. -/
namespace PgAcorn.SharedCache
open Library
open CodeCache (Key ccNSlots ccMaxDim SlotState)

/-- What a step leaves open: which slot an evictor turns to, the address a new entry
of the attach table gets, whether an error is raised, whether memory runs out. -/
structure Choice where
  victim : Option (Fin ccNSlots)
  address : Nat
  error : Bool
  noMemory : Bool

/-- No victim, no failure, and an address. -/
def Choice.plain (address : Nat) : Choice := ⟨none, address, false, false⟩

section
variable {B V Q : Type} (m : Memory B V Q) (be : Backend Q)

/-! ### `acorn_codecache_begin_scan` -/

/-- `acorn_cc_slot_lookup`: the index's slot, else a free one, claimed. -/
def slotLookup (slots : Fin ccNSlots → Slot B) (x : Key) :
    Option (Fin ccNSlots × (Fin ccNSlots → Slot B)) :=
  match (List.finRange ccNSlots).find? fun i => decide ((slots i).key = x) with
  | some i => some (i, slots)
  | none =>
    match (List.finRange ccNSlots).find? fun i => decide ((slots i).key.dboid = 0) with
    | some i => some (i, Function.update slots i { slots i with key := x })
    | none => none

def beginScan (q : BeginScan) : BeginPc → Option (Memory B V Q × Backend Q)
  | .find =>
    match be.attachFind q.key with
    | none => some (m, be.goto (.begin q .lookup))
    | some cc =>
      if stillLive m.slots (be.handles cc) then some (m, be.goto (.acquire q true cc .inc))
      else some (m, (be.forgetAttach q.key).goto (.begin q .lookup))
  | .lookup =>
    if m.dirLock.free then
      match slotLookup m.slots q.key with
      | some (i, slots) =>
        some ({ m with slots := slots }, be.goto (.begin q (.readState i false)))
      | none => some (m, be.goto .idle)
    else none
  | .readState i loaded =>
    match (m.slots i).state with
    | .empty => some (m, be.goto (if loaded then .idle else .begin q (.claim i)))
    | .loading => some (m, be.goto .idle)
    | _ => some (m, be.goto (.begin q (.checkDim i)))
  | .claim i =>
    match (m.slots i).state with
    | .empty =>
      some (m.setSlot i { m.slots i with state := .loading }, be.goto (.load q i .start))
    | .loading => some (m, be.goto .idle)
    | _ => some (m, be.goto (.begin q (.checkDim i)))
  | .checkDim i =>
    some (m, be.goto (if (m.slots i).dim = q.dim then .attach (.scan q) (.lock i) else .idle))

/-! ### `acorn_cc_scan_acquire` -/

/-- The scan that the backend has begun. -/
def Backend.openScan (q : BeginScan) (cc : Nat) : OpenScan :=
  ⟨be.nextScan, cc, q, (be.handles cc).slot, (be.handles cc).area, (be.handles cc).generation, []⟩

def scanAcquire (q : BeginScan) (cached : Bool) (cc : Nat) :
    AcquirePc → Option (Memory B V Q × Backend Q)
  | .inc =>
    let i := (be.handles cc).slot
    some (m.setSlot i { m.slots i with activeScans := (m.slots i).activeScans + 1 },
      be.goto (.acquire q cached cc .check))
  | .check =>
    let h := be.handles cc
    if stillLive m.slots h then
      some ({ m with clock := m.clock + 1 }.setSlot h.slot
          { m.slots h.slot with lastused := m.clock },
        (be.setHandle cc { h with scanRefs := h.scanRefs + 1 }).goto
          (.acquire q cached cc .readBlocks))
    else some (m, be.goto (.acquire q cached cc .leave))
  | .leave =>
    let i := (be.handles cc).slot
    some (m.setSlot i { m.slots i with activeScans := (m.slots i).activeScans - 1 },
      if cached then (be.forgetAttach q.key).goto (.begin q .lookup) else be.goto .idle)
  | .readBlocks =>
    some (m, be.goto (.acquire q cached cc (.readNblocks (m.slots (be.handles cc).slot).blocks)))
  | .readNblocks dp =>
    let h := be.handles cc
    some (m, { be.setHandle cc { h with
        blocksDp := dp, nblocks := (m.slots h.slot).nblocks } with
      pc := .idle, scans := be.openScan q cc :: be.scans, nextScan := be.nextScan + 1 })

/-! ### `acorn_cc_attach` -/

/-- Where the caller goes on with the handle. -/
def AttachFor.attached (cc : Nat) : AttachFor Q → Pc Q
  | .scan q => .acquire q false cc .inc
  | .write x w => .write x w (.lock cc)

/-- The caller gets NULL. -/
def notAttached : AttachFor Q → Memory B V Q × Backend Q
  | .scan _ => (m, be.goto .idle)
  | .write x w => (m.finish x w, be.goto .idle)

variable [DecidableEq B] (b : B)

/-- Lets go of the shared directory lock. -/
def Memory.unshare : Memory B V Q :=
  { m with dirLock := { m.dirLock with readers := m.dirLock.readers.erase b } }

def attach (k : AttachFor Q) (c : Choice) : AttachPc → Option (Memory B V Q × Backend Q)
  | .lock i =>
    match be.attachFind k.key with
    | some cc => some (m, be.goto (k.attached cc))
    | none =>
      if m.dirLock.holder.isSome then none
      else if (m.slots i).state.serves ∧ (m.slots i).key = k.key then
        some ({ m with dirLock := { m.dirLock with readers := b :: m.dirLock.readers } },
          be.goto (.attach k (.readBlocks i (m.slots i).areaHandle (m.slots i).dim
            (m.slots i).generation)))
      else some (notAttached m be k)
  | .readBlocks i area dim generation =>
    some (m, be.goto (.attach k (.readNblocks i area dim generation (m.slots i).blocks)))
  | .readNblocks i area dim generation dp =>
    if c.error then some (m.unshare b, be.goto .idle)
    else (be.attachStore ⟨area, true, i, k.key, dp, (m.slots i).nblocks, dim, generation, 0⟩
      c.address).map fun be =>
        (m.unshare b, be.goto (match be.attachFind k.key with
          | some cc => k.attached cc
          | none => .wild))

/-! ### `acorn_cc_release_one_ref` and the abort callbacks -/

/-- The first handle, in the order of the table, on which the backend has a
reference. -/
def Backend.held? : Option Nat :=
  (be.attached.find? fun p => decide (0 < (be.handles p.2).scanRefs)).map Prod.snd

/-- Where the backend goes when a reference has been dropped. -/
def Release.after : Release → Pc Q
  | .endScan => .idle
  | .abort level => .release (.abort level) .next

/-- Drops a reference of the handle; the scans given are left. -/
def Backend.dropRef (k : Release) (cc : Nat) (scans : List OpenScan) : Backend Q :=
  let h := be.handles cc
  { be.setHandle cc { h with scanRefs := h.scanRefs - 1 } with
    scans := scans, pc := .release k (.dec h.slot cc) }

/-- `acorn_codecache_end_scan`. -/
def endScan (id : Nat) : Option (Backend Q) :=
  (be.scan? id).map fun sc =>
    let scans := be.scans.erase sc
    if (be.handles sc.cc).scanRefs = 0 then { be with scans := scans }
    else be.dropRef .endScan sc.cc scans

/-- Scans that an abort of the subtransactions from `level` on tears down. -/
def OpenScan.torn (level : Nat) (sc : OpenScan) : Bool := decide (level ≤ sc.begun.level)

def releaseOneRef (k : Release) : ReleasePc → Option (Memory B V Q × Backend Q)
  | .next =>
    match k with
    | .endScan => none
    | .abort level =>
      match be.held? with
      | some cc =>
        some (m, be.dropRef k cc (be.scans.eraseP fun sc => decide (sc.cc = cc) && sc.torn level))
      | none => some (m, { be with pc := .idle, scans := be.scans.filter fun sc => !sc.torn level })
  | .dec i cc =>
    let n := (m.slots i).activeScans - 1
    some (m.setSlot i { m.slots i with activeScans := n },
      be.goto (if n = 0 then .release k (.readRetired i cc) else k.after))
  | .readRetired i cc =>
    some (m, be.goto (if (m.slots i).retired = [] then k.after else .release k (.lock i cc)))
  | .lock i cc =>
    if (m.slots i).wlock.isSome then none
    else some (m.setSlot i { m.slots i with wlock := some b },
      be.goto (.drain (.release k) i cc .check))

/-! ### `acorn_codecache_resolve` -/

/-- No page array: a miss for a scan, nothing to do for an invalidation. -/
def notResolved (cc : Nat) : Resolve → Memory B V Q × Backend Q
  | .scan _ _ => (m, be.goto .idle)
  | .invalidate x t =>
    ((m.unlock (be.handles cc).slot).finish x (.invalidate t), be.goto .idle)

/-- The page array that has the entry. -/
def Backend.resolved (cc dp : Nat) : Resolve → Backend Q
  | .scan id t => { be with
      pc := .idle
      scans := be.scans.map fun sc =>
        if sc.id = id then { sc with held := (t, dp) :: sc.held } else sc }
  | .invalidate x t => be.goto (.invalidate x t cc dp)

/-- `acorn_cc_resolve_blocks` and what its callers do with the directory. -/
def resolveBlocks (k : Resolve) (cc : Nat) : ResolvePc → Option (Memory B V Q × Backend Q)
  | .fast =>
    let h := be.handles cc
    if k.t.blkno < h.nblocks then
      match m.dirEntry h h.blocksDp k.t.blkno with
      | none => some (m, be.goto .wild)
      | some 0 => some (m, be.goto (.resolve k cc .readGeneration))
      | some _ => some (m, be.goto (.resolve k cc (.entry h.blocksDp)))
    else some (m, be.goto (.resolve k cc .readGeneration))
  | .readGeneration =>
    let h := be.handles cc
    if (m.slots h.slot).generation ≠ h.generation then some (notResolved m be cc k)
    else some (m, be.goto (.resolve k cc .readBlocks))
  | .readBlocks =>
    some (m, be.goto (.resolve k cc (.readNblocks (m.slots (be.handles cc).slot).blocks)))
  | .readNblocks dp =>
    some (m, be.goto (.resolve k cc (.recheck dp (m.slots (be.handles cc).slot).nblocks)))
  | .recheck dp n =>
    let h := be.handles cc
    if (m.slots h.slot).generation ≠ h.generation then some (notResolved m be cc k)
    else
      let be := be.setHandle cc { h with blocksDp := dp, nblocks := n }
      some (if n ≤ k.t.blkno then notResolved m be cc k
        else (m, be.goto (.resolve k cc (.entry dp))))
  | .entry dp =>
    let h := be.handles cc
    match m.dirEntry h dp k.t.blkno with
    | none => some (m, be.goto .wild)
    | some 0 => some (notResolved m be cc k)
    | some page =>
      match m.pageOf h page with
      | none => some (m, be.goto .wild)
      | some entries =>
        some (if k.t.offno = 0 ∨ entries.length < k.t.offno then notResolved m be cc k
          else (m, be.resolved cc page k))

/-- A scan resolves an element. -/
def codecacheResolve (id : Nat) (t : Tid) : Option (Backend Q) :=
  (be.scan? id).map fun sc =>
    if (be.handles sc.cc).dim = 0 ∨ ccMaxDim < (be.handles sc.cc).dim then be
    else be.goto (.resolve (.scan id t) sc.cc .fast)

/-- `acorn_codecache_read` through a resolved entry; it changes nothing, and a page
array that is no longer there takes the backend astray. -/
def codecacheRead (id : Nat) (t : Tid) : Option (Backend Q) :=
  (be.scan? id).bind fun sc =>
    (sc.held.find? fun p => decide (p.1 = t)).map fun p =>
      if (m.pageOf (be.handles sc.cc) p.2).isSome then be else be.goto .wild

end

end PgAcorn.SharedCache
