import PgAcorn.SharedCache.Scan

/-! Loading an index into a slot, and evicting one.

A load makes room, creates its area and publishes it, copies the element pages one
by one while each fits the budget, and publishes the slot READY or PARTIAL. An
eviction clears its slot under both locks and drops the area's creator pin when it
then sees no scan. -/
namespace PgAcorn.SharedCache
open Library
open CodeCache (Key ccNSlots ccDirGrow SlotState Codec CachePage loadPage)

section
variable {B V Q : Type}

/-! ### `acorn_cc_load` -/

/-- The footprint a load reserves for. -/
def projected (nblocks dim : Nat) : Nat :=
  nblocks * (blckSz / max (elementTupleSize (8 + dim * 4)) 1) *
    (ccEntryStride dim + ccPerElemOverhead) + ccDirSize (ccDirGrow nblocks)

/-- The loader's own mapping. -/
def Load.handle (l : Load) (x : Key) (i : Fin ccNSlots) (dim : Nat) (generation : BitVec 32) :
    Handle :=
  ⟨l.area, true, i, x, l.blocksDp, ccDirGrow l.nblocks, dim, generation, 0⟩

/-- An area with its creator pin. -/
def Area.create (x : Key) (i : Fin ccNSlots) (generation : BitVec 32) : Area Q :=
  ⟨x, i, generation, true, 0, Arena.empty⟩

/-- `dsa_allocate0` of a block directory in a new area. -/
def Area.withDir (a : Area Q) (n : Nat) : Area Q :=
  { a with arena := a.arena.allocate (.dir (List.replicate n 0)) }

def CacheArray.setEntry (blkno dp : Nat) : CacheArray Q → CacheArray Q
  | .dir entries => .dir (entries.set blkno dp)
  | .page entries => .page entries

variable (m : Memory B V Q) (be : Backend Q)

/-- The pointer that the next allocation in an area returns. -/
def Memory.nextDp (area : Nat) : Nat := (m.areas[area]?).elim 0 fun a => a.arena.next

def load (codec : Codec V Q) (q : BeginScan) (i : Fin ccNSlots) (c : Choice) :
    LoadPc → Option (Memory B V Q × Backend Q)
  | .start =>
    let nblocks := (m.world q.key).pages.length + 1
    let need := projected nblocks q.dim
    some (m, be.goto (if need < be.budget then .evict (.load q i nblocks need) .lock
      else .load q i (.create nblocks)))
  | .create nblocks =>
    let generation := (m.slots i).generation + 1
    if c.error then
      -- before the area has its creator pin, or after
      if c.noMemory then some (m, be.goto .idle)
      else some ({ m with areas := m.areas ++ [Area.create q.key i generation] }, be.goto .idle)
    else if m.dirLock.free then
      let a := (Area.create q.key i generation).withDir (ccDirGrow nblocks)
      some ({ m with areas := m.areas ++ [a] }.setSlot i { m.slots i with
          areaHandle := m.areas.length, areaPinned := true, dim := q.dim
          generation := generation },
        be.goto (.load q i (.storeBlocks ⟨m.areas.length, 1, nblocks⟩)))
    else none
  | .storeBlocks l =>
    some (m.setSlot i { m.slots i with blocks := l.blocksDp },
      be.goto (.load q i (.storeNblocks l)))
  | .storeNblocks l =>
    let published := m.setSlot i { m.slots i with nblocks := ccDirGrow l.nblocks }
    -- no memory for the entry of the attach table
    if c.error ∧ (be.attachFind q.key).isNone then some (published, be.goto .idle)
    else (be.attachStore (l.handle q.key i q.dim (m.slots i).generation) c.address).map fun be =>
      (published, be.goto (.load q i (.readOther l)))
  | .readOther l =>
    some (m, be.goto (.load q i (.page l m.total.toNat 1 (ccDirSize (ccDirGrow l.nblocks)) 0)))
  | .page l other blkno bytes nelems =>
    if blkno < l.nblocks then
      if c.error then some (m, be.goto (.load q i (.storeBytes bytes nelems .partialLoad true)))
      else
        match loadPage codec q.dim (m.world q.key) blkno with
        | none => some (m, be.goto (.load q i (.page l other (blkno + 1) bytes nelems)))
        | some page =>
          if c.noMemory ∨ be.budget < other + bytes + ccPageSize page.length q.dim then
            some (m, be.goto (.load q i (.storeBytes bytes nelems .partialLoad false)))
          else
            some (m.modifyArena l.area fun arena => arena.allocate (.page page),
              be.goto (.load q i (.publishPage l other blkno
                (bytes + ccPageSize page.length q.dim) (nelems + page.countP Option.isSome)
                (m.nextDp l.area))))
    else some (m, be.goto (.load q i (.storeBytes bytes nelems .ready false)))
  | .publishPage l other blkno bytes nelems dp =>
    some (m.modifyArena l.area fun arena => arena.modify l.blocksDp (CacheArray.setEntry blkno dp),
      be.goto (.load q i (.page l other (blkno + 1) bytes nelems)))
  | .storeBytes bytes nelems final error =>
    some (m.setSlot i { m.slots i with nelems := nelems, bytes := BitVec.ofNat 64 bytes },
      be.goto (.load q i (.addTotal bytes final error)))
  | .addTotal bytes final error =>
    some ({ m with total := m.total + BitVec.ofNat 64 bytes },
      be.goto (.load q i (.storeState final error)))
  | .storeState final error =>
    some (m.setSlot i { m.slots i with state := final },
      be.goto (if error then .idle else .begin q (.readState i true)))

/-- With the directory published the loader enters its mapping, or fails to. -/
theorem load_storeNblocks {m : Memory B V Q} {be : Backend Q} {codec : Codec V Q} {q : BeginScan}
    {i : Fin ccNSlots} {c : Choice} {l : Load} {r : Memory B V Q × Backend Q}
    (hr : load m be codec q i c (.storeNblocks l) = some r) :
    r = (m.setSlot i { m.slots i with nblocks := ccDirGrow l.nblocks }, be.goto .idle) ∨
      ∃ be₁, be.attachStore (l.handle q.key i q.dim (m.slots i).generation) c.address = some be₁ ∧
        r = (m.setSlot i { m.slots i with nblocks := ccDirGrow l.nblocks },
          be₁.goto (.load q i (.readOther l))) := by
  simp only [load] at hr
  split at hr
  · exact .inl (Option.some.inj hr).symm
  · obtain ⟨be₁, hstore, heq⟩ := Option.map_eq_some_iff.mp hr
    exact .inr ⟨be₁, hstore, heq.symm⟩

/-! ### `acorn_cc_evict_slot` and its callers -/

/-- The slots an evictor is after. -/
def Evictor.admits (e : Evictor) (slot : Slot B) : Bool :=
  match e with
  | .admin (some x) => decide (slot.key = x)
  | _ => true

/-- READY or PARTIAL, and nobody scans it. -/
def Slot.evictable (slot : Slot B) : Bool := slot.state.serves && decide (slot.activeScans = 0)

/-- Whether a load has the room it asked for. -/
def Evictor.fits (e : Evictor) (total budget : Nat) : Bool :=
  match e with
  | .admin _ => false
  | .load _ _ _ need => decide (total + need ≤ budget)

/-- Where the evictor goes when it is done. -/
def Evictor.after : Evictor → Pc Q
  | .admin _ => .idle
  | .load q i nblocks _ => .load q i (.create nblocks)

/-- Lets go of the exclusive directory lock. -/
def Memory.unlockDir : Memory B V Q := { m with dirLock := { m.dirLock with holder := none } }

/-- `dsa_unpin`. -/
def Area.unpin (a : Area Q) : Area Q := { a with pinned := false, unpins := a.unpins + 1 }

def evictSlot (b : B) (e : Evictor) (c : Choice) : EvictPc → Option (Memory B V Q × Backend Q)
  | .lock =>
    if m.dirLock.free then
      some ({ m with dirLock := { m.dirLock with holder := some b } }, be.goto (.evict e .choose))
    else none
  | .choose =>
    match c.victim with
    | none => some (m.unlockDir, be.goto e.after)
    | some i =>
      if ¬ e.fits m.total.toNat be.budget ∧ e.admits (m.slots i) ∧ (m.slots i).evictable then
        some (m, be.goto (.evict e (.read i)))
      else none
  | .read i =>
    some (m, be.goto (.evict e
      (.wlock ⟨i, (m.slots i).bytes, (m.slots i).areaHandle, (m.slots i).key⟩)))
  | .wlock v =>
    if (m.slots v.slot).wlock.isSome then none
    else some (m.setSlot v.slot { m.slots v.slot with wlock := some b },
      be.goto (.evict e (.storeState v)))
  | .storeState v =>
    some (m.setSlot v.slot { m.slots v.slot with state := .empty }, be.goto (.evict e (.clear v)))
  | .clear v =>
    some (m.setSlot v.slot { m.slots v.slot with
        generation := (m.slots v.slot).generation + 1, key := Key.invalid, nelems := 0, bytes := 0
        dim := 0, retired := [] },
      be.goto (.evict e (.storeNblocks v)))
  | .storeNblocks v =>
    some (m.setSlot v.slot { m.slots v.slot with nblocks := 0 },
      be.goto (.evict e (.storeBlocks v)))
  | .storeBlocks v =>
    some (m.setSlot v.slot { m.slots v.slot with blocks := 0 }, be.goto (.evict e (.subTotal v)))
  | .subTotal v =>
    some ({ m with total := m.total - v.freed }.setSlot v.slot
      { m.slots v.slot with wlock := none }, be.goto (.evict e (.readScans v)))
  | .readScans v =>
    if (m.slots v.slot).activeScans ≠ 0 then
      some (m, (be.forgetAttach v.key).goto (.evict e .choose))
    else some (m, be.goto (.evict e (.dropPin v)))
  | .dropPin v =>
    if (m.slots v.slot).areaPinned then
      let m' := m.setSlot v.slot { m.slots v.slot with areaPinned := false }
      let be := be.forgetAttach v.key
      -- the area cannot be attached; or it has no pin, which is an error as well
      if c.error then some (m'.unlockDir, be.goto .idle)
      else if (m.areas[v.handle]?).any fun a => a.pinned then
        some (m'.modifyArea v.handle Area.unpin, be.goto (.evict e .choose))
      else some ((m'.modifyArea v.handle Area.unpin).unlockDir, be.goto .idle)
    else some (m, (be.forgetAttach v.key).goto (.evict e .choose))

end

end PgAcorn.SharedCache
