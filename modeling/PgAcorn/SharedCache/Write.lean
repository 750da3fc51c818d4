import PgAcorn.SharedCache.Load

/-! The writer's side: inserts with the growth of arrays, invalidations, and the
reclamation of what a growth has replaced.

A writer works under the slot's `wlock`. A growth publishes a complete copy, charges
it, and frees the old array if it then sees no scan; otherwise the old array waits on
the slot's list until a drain sees none. -/
namespace PgAcorn.SharedCache
open Library
open CodeCache (Key ccNSlots ccDirGrow CachePage)

section
variable {B V Q : Type} (m : Memory B V Q) (be : Backend Q)

/-! ### `acorn_cc_writer_attach` -/

/-- The lookup of an index's slot that claims none. -/
def slotOf (slots : Fin ccNSlots → Slot B) (x : Key) : Option (Fin ccNSlots) :=
  (List.finRange ccNSlots).find? fun i => decide ((slots i).key = x)

/-- `LWLockAcquire` of the handle's slot and what an insert checks and refreshes
under it. An invalidation checks nothing. -/
def lockForWrite (b : B) (x : Key) (w : Write Q) (cc : Nat) : Option (Memory B V Q × Backend Q) :=
  let h := be.handles cc
  let slot := m.slots h.slot
  if slot.wlock.isSome then none
  else match w with
    | .invalidate t =>
      some (m.setSlot h.slot { slot with wlock := some b },
        be.goto (.resolve (.invalidate x t) cc .fast))
    | .insert t dim hit =>
      if h.generation ≠ slot.generation ∨ slot.key ≠ x then some (m, be.goto .idle)
      else some (m.setSlot h.slot { slot with wlock := some b },
        (be.setHandle cc { h with blocksDp := slot.blocks, nblocks := slot.nblocks }).goto
          (.insert ⟨x, t, dim, hit, cc⟩ .ensureDir))

def writerAttach (b : B) (x : Key) (w : Write Q) : WritePc → Option (Memory B V Q × Backend Q)
  | .find =>
    if be.sizeMb = 0 then some (m.finish x w, be.goto .idle)
    else
      match be.attachFind x with
      | none => some (m, be.goto (.write x w .lookup))
      | some cc =>
        if stillLive m.slots (be.handles cc) then some (m, be.goto (.write x w (.lock cc)))
        else some (m, (be.forgetAttach x).goto (.write x w .lookup))
  | .lookup =>
    if ¬ be.dirKnown then some (m.finish x w, be.goto .idle)
    else if m.dirLock.holder.isSome then none
    else
      match slotOf m.slots x with
      | none => some (m.finish x w, be.goto .idle)
      | some i => some (m, be.goto (.write x w (.readState i)))
  | .readState i =>
    if (m.slots i).state.serves then some (m, be.goto (.attach (.write x w) (.lock i)))
    else some (m.finish x w, be.goto .idle)
  | .lock cc =>
    match w with
    | .insert _ dim _ =>
      if (be.handles cc).dim ≠ dim then some (m, be.goto .idle) else lockForWrite m be b x w cc
    | .invalidate _ => lockForWrite m be b x w cc

/-! ### `acorn_cc_drain_retired` -/

/-- The caller goes on. -/
def drained (i : Fin ccNSlots) : AfterDrain Q → Memory B V Q × Backend Q
  | .release k => (m.unlock i, be.goto k.after)
  | .growDir w => (m, be.goto (.insert w .growDir))
  | .growPage w old => (m, be.goto (.insert w (.growPage old)))

def drainRetired (k : AfterDrain Q) (i : Fin ccNSlots) (cc : Nat) :
    DrainPc → Option (Memory B V Q × Backend Q)
  | .check =>
    some (if (m.slots i).retired = [] ∨ (m.slots i).activeScans ≠ 0 then drained m be i k
      else (m, be.goto (.drain k i cc .free)))
  | .free =>
    let h := be.handles cc
    if h.mapped then
      some (drained ((m.modifyArena h.area fun arena => arena.freeAll (m.slots i).retired).setSlot i
        { m.slots i with retired := [] }) be i k)
    else some (m, be.goto .wild)

/-! ### `acorn_cc_ensure_page`, `acorn_codecache_insert` -/

/-- The slot an insert works on. -/
def Backend.slotFor (w : Insert Q) : Fin ccNSlots := (be.handles w.cc).slot

/-- An insert that gives up, or is done. -/
def insertDone (w : Insert Q) : Memory B V Q × Backend Q :=
  (m.unlock (be.slotFor w), be.goto .idle)

/-- A directory of `n` entries that starts with the first `old` of another. -/
def extendDir (entries : List Nat) (old n : Nat) : List Nat :=
  entries.take old ++ List.replicate (n - old) 0

/-- A page array of `n` entries that starts with another. -/
def extendPage (entries : CachePage Q) (n : Nat) : CachePage Q :=
  entries ++ List.replicate (n - entries.length) none

def CacheArray.setHit (offno : Nat) (e : Option (Scan.CodeCacheHit Q)) :
    CacheArray Q → CacheArray Q
  | .dir entries => .dir entries
  | .page entries => .page (entries.set (offno - 1) e)

/-- A new page array, published in the directory of the backend's snapshot. -/
def publishArray (w : Insert Q) (entries : CachePage Q) : Memory B V Q :=
  let h := be.handles w.cc
  m.modifyArena h.area fun arena =>
    (arena.allocate (.page (extendPage entries (ccPageGrow w.t.offno)))).modify h.blocksDp
      (CacheArray.setEntry w.t.blkno arena.next)

def ensurePage (w : Insert Q) (c : Choice) : InsertPc → Option (Memory B V Q × Backend Q)
  | .ensureDir =>
    let h := be.handles w.cc
    some (m, be.goto (if h.nblocks ≤ w.t.blkno then .drain (.growDir w) h.slot w.cc .check
      else .insert w .ensurePage))
  | .growDir =>
    -- `acorn_cc_grow_dir`, up to the store of the new directory
    let h := be.handles w.cc
    let slot := m.slots h.slot
    let newN := ccDirGrow (w.t.blkno + 1)
    if c.error then some (insertDone m be w)
    else
      match (m.areaOf h).bind fun a => a.dir? slot.blocks with
      | none => some (m, be.goto .wild)
      | some entries =>
        let dp := m.nextDp h.area
        some ((m.modifyArena h.area fun arena =>
            arena.allocate (.dir (extendDir entries slot.nblocks newN))).setSlot h.slot
              { slot with blocks := dp },
          be.goto (.grow w (.dir dp newN) (ccDirSize newN)
            (some (slot.blocks, ccDirSize slot.nblocks)) .storeNblocks))
  | .ensurePage =>
    let h := be.handles w.cc
    let newSz := ccPageSize (ccPageGrow w.t.offno) h.dim
    match m.dirEntry h h.blocksDp w.t.blkno with
    | none => some (m, be.goto .wild)
    | some 0 =>
      some (if be.budget < m.total.toNat + newSz then insertDone m be w
        else (m, be.goto (.insert w (.growPage 0))))
    | some page =>
      match m.pageOf h page with
      | none => some (m, be.goto .wild)
      | some entries =>
        some (if w.t.offno ≤ entries.length then (m, be.goto (.insert w (.write page)))
          else if be.budget < m.total.toNat + newSz then insertDone m be w
          else (m, be.goto (.drain (.growPage w page) h.slot w.cc .check)))
  | .growPage old =>
    let h := be.handles w.cc
    let newSz := ccPageSize (ccPageGrow w.t.offno) h.dim
    if c.noMemory then some (insertDone m be w)
    else
      match m.areaOf h with
      | none => some (m, be.goto .wild)
      | some a =>
        let dp := m.nextDp h.area
        if old = 0 then
          some (publishArray m be w [], be.goto (.grow w (.page dp) newSz none .addBytes))
        else
          match a.page? old with
          | none => some (m, be.goto .wild)
          | some entries =>
            some (publishArray m be w entries, be.goto (.grow w (.page dp) newSz
              (some (old, ccPageSize entries.length h.dim)) .addBytes))
  | .write dp =>
    let h := be.handles w.cc
    match m.pageOf h dp with
    | none => some (m, be.goto .wild)
    | some _ =>
      some ((m.modifyArena h.area fun arena =>
          arena.modify dp (CacheArray.setHit w.t.offno (some w.hit))).setSlot h.slot
            { m.slots h.slot with nelems := (m.slots h.slot).nelems + 1, wlock := none },
        be.goto .idle)

/-- The insert goes on with the new array. -/
def Backend.grown (w : Insert Q) : Growth → Backend Q
  | .dir newDp newN =>
    (be.setHandle w.cc { be.handles w.cc with blocksDp := newDp, nblocks := newN }).goto
      (.insert w .ensurePage)
  | .page newDp => be.goto (.insert w (.write newDp))

/-- The rest of a growth, with `acorn_cc_retire` of the old array. -/
def growArray (w : Insert Q) (g : Growth) (added : Nat) (old : Option (Nat × Nat)) :
    GrowPc → Option (Memory B V Q × Backend Q)
  | .storeNblocks =>
    match g with
    | .dir _ newN =>
      some (m.setSlot (be.slotFor w) { m.slots (be.slotFor w) with nblocks := newN },
        be.goto (.grow w g added old .addBytes))
    | .page _ => none
  | .addBytes =>
    let slot := m.slots (be.slotFor w)
    some (m.setSlot (be.slotFor w) { slot with bytes := slot.bytes + BitVec.ofNat 64 added },
      be.goto (.grow w g added old .addTotal))
  | .addTotal =>
    some ({ m with total := m.total + BitVec.ofNat 64 added },
      if old.isSome then be.goto (.grow w g added old .readScans) else be.grown w g)
  | .readScans =>
    let slot := m.slots (be.slotFor w)
    old.map fun p =>
      if slot.activeScans = 0 then (m, be.goto (.grow w g added old .free))
      else (if slot.retired.length < ccRetireMax then
          m.setSlot (be.slotFor w) { slot with retired := slot.retired ++ [p.1] } else m,
        be.goto (.grow w g added old .subBytes))
  | .free =>
    old.map fun p =>
      if (be.handles w.cc).mapped then
        (m.modifyArena (be.handles w.cc).area fun arena => arena.free p.1,
          be.goto (.grow w g added old .subBytes))
      else (m, be.goto .wild)
  | .subBytes =>
    let slot := m.slots (be.slotFor w)
    old.map fun p =>
      (m.setSlot (be.slotFor w) { slot with bytes := slot.bytes - BitVec.ofNat 64 p.2 },
        be.goto (.grow w g added old .subTotal))
  | .subTotal =>
    old.map fun p => ({ m with total := m.total - BitVec.ofNat 64 p.2 }, be.grown w g)

/-! ### `acorn_codecache_invalidate` -/

/-- Clears PRESENT of the entry; what DELETED says is then never looked at. -/
def invalidate (x : Key) (t : Tid) (cc dp : Nat) : Option (Memory B V Q × Backend Q) :=
  let h := be.handles cc
  match m.pageOf h dp with
  | none => some (m, be.goto .wild)
  | some _ =>
    some (((m.modifyArena h.area fun arena =>
      arena.modify dp (CacheArray.setHit t.offno none)).unlock h.slot).finish x (.invalidate t),
        be.goto .idle)

end

end PgAcorn.SharedCache
