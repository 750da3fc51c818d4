import PgAcorn.SharedCache.Table

/-! Directories, page arrays and their bytes: the ways in which a step changes them.

A backend builds arrays while it loads a slot, grows one of its arrays, or clears it
(`Pc.builds`), and reclaims or writes entries elsewhere. `Builds` lists what each such
step makes of memory; all other steps leave arrays, their publication and their bytes
as they are (`SameArrays`). -/
namespace PgAcorn.SharedCache
open Library
open CodeCache (Key ccNSlots ccDirGrow SlotState Codec CachePage loadPage)

section
variable {B V Q : Type}

/-- What a slot publishes, and its bytes. -/
structure Published where
  blocks : Nat
  nblocks : Nat
  bytes : BitVec 64
  retired : List Nat

def Slot.published (slot : Slot B) : Published :=
  ⟨slot.blocks, slot.nblocks, slot.bytes, slot.retired⟩

/-- The arena of an area. -/
def Memory.arena? (m : Memory B V Q) (k : Nat) : Option (Arena (CacheArray Q)) :=
  (m.areas[k]?).map Area.arena

/-- Arrays, their publication and their bytes are as they were. -/
structure SameArrays (m m' : Memory B V Q) : Prop where
  published : ∀ i, (m'.slots i).published = (m.slots i).published
  total : m'.total = m.total
  arenas : m'.areas.map Area.arena = m.areas.map Area.arena

/-- Whether a backend is in the middle of a load, a growth or a clearing. -/
def Pc.builds : Pc Q → Bool
  | .load _ _ p => match p with
    | .start | .create _ => false
    | _ => true
  | .evict _ p => match p with
    | .clear _ | .storeNblocks _ | .storeBlocks _ | .subTotal _ => true
    | _ => false
  | .grow .. => true
  | _ => false

/-- The ways in which a step changes arrays, their publication or their bytes. -/
inductive Builds (codec : Codec V Q) (m : Memory B V Q) (be : Backend Q) (m' : Memory B V Q)
    (be' : Backend Q) : Prop
  | same (h : SameArrays m m') (hpc : be.pc.builds = false) (hpc' : be'.pc.builds = false)
  /-- an error after the area has its pin -/
  | lose (q : BeginScan) (i : Fin ccNSlots) (n : Nat) (hpc : be.pc = .load q i (.create n))
      (hm : m' = { m with areas := m.areas ++ [Area.create q.key i ((m.slots i).generation + 1)] })
      (hbe : be' = be.goto .idle)
  | create (q : BeginScan) (i : Fin ccNSlots) (n : Nat) (hpc : be.pc = .load q i (.create n))
      (hm : m' = { m with areas := m.areas ++
          [(Area.create q.key i ((m.slots i).generation + 1)).withDir (ccDirGrow n)] }.setSlot i
        { m.slots i with areaHandle := m.areas.length, areaPinned := true, dim := q.dim
                         generation := (m.slots i).generation + 1 })
      (hbe : be' = be.goto (.load q i (.storeBlocks ⟨m.areas.length, 1, n⟩)))
  | loadBlocks (q : BeginScan) (i : Fin ccNSlots) (l : Load)
      (hpc : be.pc = .load q i (.storeBlocks l))
      (hm : m' = m.setSlot i { m.slots i with blocks := l.blocksDp })
      (hbe : be' = be.goto (.load q i (.storeNblocks l)))
  | loadNblocks (q : BeginScan) (i : Fin ccNSlots) (l : Load) (address : Nat) (be₁ : Backend Q)
      (hpc : be.pc = .load q i (.storeNblocks l))
      (hstore : be.attachStore (l.handle q.key i q.dim (m.slots i).generation) address = some be₁)
      (hm : m' = m.setSlot i { m.slots i with nblocks := ccDirGrow l.nblocks })
      (hbe : be' = be₁.goto (.load q i (.readOther l)))
  /-- an error when the directory is published -/
  | strand (q : BeginScan) (i : Fin ccNSlots) (l : Load)
      (hpc : be.pc = .load q i (.storeNblocks l))
      (hm : m' = m.setSlot i { m.slots i with nblocks := ccDirGrow l.nblocks })
      (hbe : be' = be.goto .idle)
  | readOther (q : BeginScan) (i : Fin ccNSlots) (l : Load)
      (hpc : be.pc = .load q i (.readOther l)) (hm : m' = m)
      (hbe : be' = be.goto
        (.load q i (.page l m.total.toNat 1 (ccDirSize (ccDirGrow l.nblocks)) 0)))
  | skipPage (q : BeginScan) (i : Fin ccNSlots) (l : Load) (other blkno bytes nelems : Nat)
      (hpc : be.pc = .load q i (.page l other blkno bytes nelems)) (hlt : blkno < l.nblocks)
      (hpage : loadPage codec q.dim (m.world q.key) blkno = none) (hm : m' = m)
      (hbe : be' = be.goto (.load q i (.page l other (blkno + 1) bytes nelems)))
  | loadPage (q : BeginScan) (i : Fin ccNSlots) (l : Load) (other blkno bytes nelems : Nat)
      (page : CachePage Q) (hpc : be.pc = .load q i (.page l other blkno bytes nelems))
      (hlt : blkno < l.nblocks) (hpage : loadPage codec q.dim (m.world q.key) blkno = some page)
      (hfits : other + bytes + ccPageSize page.length q.dim ≤ be.budget)
      (hm : m' = m.modifyArena l.area fun arena => arena.allocate (.page page))
      (hbe : be' = be.goto (.load q i (.publishPage l other blkno
        (bytes + ccPageSize page.length q.dim) (nelems + page.countP Option.isSome)
        (m.nextDp l.area))))
  | publishPage (q : BeginScan) (i : Fin ccNSlots) (l : Load) (other blkno bytes nelems dp : Nat)
      (hpc : be.pc = .load q i (.publishPage l other blkno bytes nelems dp))
      (hm : m' = m.modifyArena l.area fun arena =>
        arena.modify l.blocksDp (CacheArray.setEntry blkno dp))
      (hbe : be' = be.goto (.load q i (.page l other (blkno + 1) bytes nelems)))
  | loaded (q : BeginScan) (i : Fin ccNSlots) (l : Load) (other blkno bytes nelems : Nat)
      (final : SlotState) (error : Bool) (hpc : be.pc = .load q i (.page l other blkno bytes nelems))
      (hm : m' = m) (hbe : be' = be.goto (.load q i (.storeBytes bytes nelems final error)))
  | loadBytes (q : BeginScan) (i : Fin ccNSlots) (bytes nelems : Nat) (final : SlotState)
      (error : Bool) (hpc : be.pc = .load q i (.storeBytes bytes nelems final error))
      (hm : m' = m.setSlot i
        { m.slots i with nelems := nelems, bytes := BitVec.ofNat 64 bytes })
      (hbe : be' = be.goto (.load q i (.addTotal bytes final error)))
  | loadTotal (q : BeginScan) (i : Fin ccNSlots) (bytes : Nat) (final : SlotState) (error : Bool)
      (hpc : be.pc = .load q i (.addTotal bytes final error))
      (hm : m' = { m with total := m.total + BitVec.ofNat 64 bytes })
      (hbe : be' = be.goto (.load q i (.storeState final error)))
  | publish (q : BeginScan) (i : Fin ccNSlots) (final : SlotState) (error : Bool)
      (hpc : be.pc = .load q i (.storeState final error))
      (hm : m' = m.setSlot i { m.slots i with state := final })
      (hbe : be' = be.goto (if error then .idle else .begin q (.readState i true)))
  | mark (e : Evictor) (v : Victim) (hpc : be.pc = .evict e (.storeState v))
      (hm : m' = m.setSlot v.slot { m.slots v.slot with state := .empty })
      (hbe : be' = be.goto (.evict e (.clear v)))
  | clear (e : Evictor) (v : Victim) (hpc : be.pc = .evict e (.clear v))
      (hm : m' = m.setSlot v.slot { m.slots v.slot with
        generation := (m.slots v.slot).generation + 1, key := Key.invalid, nelems := 0, bytes := 0
        dim := 0, retired := [] })
      (hbe : be' = be.goto (.evict e (.storeNblocks v)))
  | clearNblocks (e : Evictor) (v : Victim) (hpc : be.pc = .evict e (.storeNblocks v))
      (hm : m' = m.setSlot v.slot { m.slots v.slot with nblocks := 0 })
      (hbe : be' = be.goto (.evict e (.storeBlocks v)))
  | clearBlocks (e : Evictor) (v : Victim) (hpc : be.pc = .evict e (.storeBlocks v))
      (hm : m' = m.setSlot v.slot { m.slots v.slot with blocks := 0 })
      (hbe : be' = be.goto (.evict e (.subTotal v)))
  | clearTotal (e : Evictor) (v : Victim) (hpc : be.pc = .evict e (.subTotal v))
      (hm : m' = { m with total := m.total - v.freed }.setSlot v.slot
        { m.slots v.slot with wlock := none })
      (hbe : be' = be.goto (.evict e (.readScans v)))
  | reclaim (k : AfterDrain Q) (i : Fin ccNSlots) (cc : Nat) (hpc : be.pc = .drain k i cc .free)
      (hmapped : (be.handles cc).mapped)
      (hm : m' = (drained ((m.modifyArena (be.handles cc).area fun arena =>
        arena.freeAll (m.slots i).retired).setSlot i { m.slots i with retired := [] }) be i k).1)
      (hbe : be' = (drained m be i k).2)
  | growDir (w : Insert Q) (a : Area Q) (entries : List Nat)
      (hpc : be.pc = .insert w .growDir) (harea : m.areaOf (be.handles w.cc) = some a)
      (hdir : a.dir? (m.slots (be.slotFor w)).blocks = some entries)
      (hm : m' = (m.modifyArena (be.handles w.cc).area fun arena =>
          arena.allocate (.dir (extendDir entries (m.slots (be.slotFor w)).nblocks
            (ccDirGrow (w.t.blkno + 1))))).setSlot (be.slotFor w)
        { m.slots (be.slotFor w) with blocks := a.arena.next })
      (hbe : be' = be.goto (.grow w (.dir a.arena.next (ccDirGrow (w.t.blkno + 1)))
        (ccDirSize (ccDirGrow (w.t.blkno + 1)))
        (some ((m.slots (be.slotFor w)).blocks, ccDirSize (m.slots (be.slotFor w)).nblocks))
        .storeNblocks))
  | newPage (w : Insert Q) (a : Area Q) (hpc : be.pc = .insert w (.growPage 0))
      (harea : m.areaOf (be.handles w.cc) = some a) (hm : m' = publishArray m be w [])
      (hbe : be' = be.goto (.grow w (.page a.arena.next)
        (ccPageSize (ccPageGrow w.t.offno) (be.handles w.cc).dim) none .addBytes))
  | growPage (w : Insert Q) (old : Nat) (a : Area Q) (entries : CachePage Q)
      (hpc : be.pc = .insert w (.growPage old)) (hold : old ≠ 0)
      (harea : m.areaOf (be.handles w.cc) = some a) (hpage : a.page? old = some entries)
      (hm : m' = publishArray m be w entries)
      (hbe : be' = be.goto (.grow w (.page a.arena.next)
        (ccPageSize (ccPageGrow w.t.offno) (be.handles w.cc).dim)
        (some (old, ccPageSize entries.length (be.handles w.cc).dim)) .addBytes))
  | write (w : Insert Q) (dp : Nat) (entries : CachePage Q) (hpc : be.pc = .insert w (.write dp))
      (hpage : m.pageOf (be.handles w.cc) dp = some entries)
      (hm : m' = (m.modifyArena (be.handles w.cc).area fun arena =>
          arena.modify dp (CacheArray.setHit w.t.offno (some w.hit))).setSlot (be.slotFor w)
        { m.slots (be.slotFor w) with
          nelems := (m.slots (be.slotFor w)).nelems + 1, wlock := none })
      (hbe : be' = be.goto .idle)
  | growNblocks (w : Insert Q) (dp n added : Nat) (old : Option (Nat × Nat))
      (hpc : be.pc = .grow w (.dir dp n) added old .storeNblocks)
      (hm : m' = m.setSlot (be.slotFor w) { m.slots (be.slotFor w) with nblocks := n })
      (hbe : be' = be.goto (.grow w (.dir dp n) added old .addBytes))
  | growBytes (w : Insert Q) (g : Growth) (added : Nat) (old : Option (Nat × Nat))
      (hpc : be.pc = .grow w g added old .addBytes)
      (hm : m' = m.setSlot (be.slotFor w) { m.slots (be.slotFor w) with
        bytes := (m.slots (be.slotFor w)).bytes + BitVec.ofNat 64 added })
      (hbe : be' = be.goto (.grow w g added old .addTotal))
  | growTotal (w : Insert Q) (g : Growth) (added : Nat) (old : Option (Nat × Nat))
      (hpc : be.pc = .grow w g added old .addTotal)
      (hm : m' = { m with total := m.total + BitVec.ofNat 64 added })
      (hbe : be' = if old.isSome then be.goto (.grow w g added old .readScans) else be.grown w g)
  /-- nobody scans: the old array may go -/
  | quiesced (w : Insert Q) (g : Growth) (added dp size : Nat)
      (hpc : be.pc = .grow w g added (some (dp, size)) .readScans)
      (hactive : (m.slots (be.slotFor w)).activeScans = 0) (hm : m' = m)
      (hbe : be' = be.goto (.grow w g added (some (dp, size)) .free))
  | retire (w : Insert Q) (g : Growth) (added dp size : Nat)
      (hpc : be.pc = .grow w g added (some (dp, size)) .readScans)
      (hactive : (m.slots (be.slotFor w)).activeScans ≠ 0)
      (hm : m' = if (m.slots (be.slotFor w)).retired.length < ccRetireMax then
        m.setSlot (be.slotFor w) { m.slots (be.slotFor w) with
          retired := (m.slots (be.slotFor w)).retired ++ [dp] } else m)
      (hbe : be' = be.goto (.grow w g added (some (dp, size)) .subBytes))
  | free (w : Insert Q) (g : Growth) (added dp size : Nat)
      (hpc : be.pc = .grow w g added (some (dp, size)) .free)
      (hm : m' = m.modifyArena (be.handles w.cc).area fun arena => arena.free dp)
      (hbe : be' = be.goto (.grow w g added (some (dp, size)) .subBytes))
  | shrinkBytes (w : Insert Q) (g : Growth) (added dp size : Nat)
      (hpc : be.pc = .grow w g added (some (dp, size)) .subBytes)
      (hm : m' = m.setSlot (be.slotFor w) { m.slots (be.slotFor w) with
        bytes := (m.slots (be.slotFor w)).bytes - BitVec.ofNat 64 size })
      (hbe : be' = be.goto (.grow w g added (some (dp, size)) .subTotal))
  | shrinkTotal (w : Insert Q) (g : Growth) (added dp size : Nat)
      (hpc : be.pc = .grow w g added (some (dp, size)) .subTotal)
      (hm : m' = { m with total := m.total - BitVec.ofNat 64 size }) (hbe : be' = be.grown w g)
  | clearHit (x : Key) (t : Tid) (cc dp : Nat) (entries : CachePage Q)
      (hpc : be.pc = .invalidate x t cc dp) (hpage : m.pageOf (be.handles cc) dp = some entries)
      (hm : m' = ((m.modifyArena (be.handles cc).area fun arena =>
        arena.modify dp (CacheArray.setHit t.offno none)).unlock (be.handles cc).slot).finish x
          (.invalidate t))
      (hbe : be' = be.goto .idle)

/-! ### Steps that build nothing -/

namespace SameArrays
variable {m m' m₁ : Memory B V Q}

theorem refl (m : Memory B V Q) : SameArrays m m := ⟨fun _ => rfl, rfl, rfl⟩

theorem trans (h : SameArrays m m₁) (h' : SameArrays m₁ m') : SameArrays m m' :=
  ⟨fun i => (h'.published i).trans (h.published i), h'.total.trans h.total,
    h'.arenas.trans h.arenas⟩

theorem blocks (h : SameArrays m m') (i : Fin ccNSlots) :
    (m'.slots i).blocks = (m.slots i).blocks := congrArg Published.blocks (h.published i)

theorem nblocks (h : SameArrays m m') (i : Fin ccNSlots) :
    (m'.slots i).nblocks = (m.slots i).nblocks := congrArg Published.nblocks (h.published i)

theorem bytes (h : SameArrays m m') (i : Fin ccNSlots) :
    (m'.slots i).bytes = (m.slots i).bytes := congrArg Published.bytes (h.published i)

theorem retired (h : SameArrays m m') (i : Fin ccNSlots) :
    (m'.slots i).retired = (m.slots i).retired := congrArg Published.retired (h.published i)

theorem arena? (h : SameArrays m m') (k : Nat) : m'.arena? k = m.arena? k := by
  simpa [Memory.arena?] using congrArg (fun l : List (Arena (CacheArray Q)) => l[k]?) h.arenas

theorem setSlot (h : SameArrays m m₁) {i : Fin ccNSlots} {slot : Slot B}
    (hslot : slot.published = (m₁.slots i).published) : SameArrays m (m₁.setSlot i slot) :=
  ⟨fun j => (setSlot_congr Slot.published hslot j).trans (h.published j), h.total, h.arenas⟩

theorem finish (h : SameArrays m m₁) (x : Key) (w : Write Q) : SameArrays m (m₁.finish x w) := by
  cases w <;> exact ⟨h.published, h.total, h.arenas⟩

end SameArrays

variable {m : Memory B V Q} {b : B} {be : Backend Q} {c : Choice} {r : Memory B V Q × Backend Q}
  {codec : Codec V Q}

/-- A step that builds nothing, of a backend that builds nothing. -/
def Leaves (m : Memory B V Q) (r : Memory B V Q × Backend Q) : Prop :=
  SameArrays m r.1 ∧ r.2.pc.builds = false

theorem Leaves.builds (h : Leaves m r) (hpc : be.pc.builds = false) :
    Builds codec m be r.1 r.2 := .same h.1 hpc h.2

theorem beginScan_leaves {q : BeginScan} {p : BeginPc} (hr : beginScan m be q p = some r) :
    Leaves m r := by
  cases p with
  | lookup =>
    simp only [beginScan] at hr
    repeat' split at hr
    all_goals cases hr
    · rename_i hslots
      obtain ⟨rfl | ⟨-, -, rfl⟩, -⟩ := slotLookup_slots hslots
      · exact ⟨.refl m, rfl⟩
      · exact ⟨SameArrays.setSlot (.refl m) rfl, rfl⟩
    · exact ⟨.refl m, rfl⟩
  | claim i =>
    simp only [beginScan] at hr
    repeat' split at hr
    all_goals cases hr
    · exact ⟨SameArrays.setSlot (.refl m) rfl, rfl⟩
    · exact ⟨.refl m, rfl⟩
    · exact ⟨.refl m, rfl⟩
  | find | readState | checkDim =>
    simp only [beginScan] at hr
    repeat' split at hr
    all_goals cases hr
    all_goals exact ⟨.refl m, rfl⟩

theorem scanAcquire_leaves {q : BeginScan} {cached : Bool} {cc : Nat} {p : AcquirePc}
    (hr : scanAcquire m be q cached cc p = some r) : Leaves m r := by
  cases p with
  | inc =>
    cases hr
    exact ⟨SameArrays.setSlot (.refl m) rfl, rfl⟩
  | check =>
    simp only [scanAcquire] at hr
    split at hr <;> cases hr
    · refine ⟨?_, rfl⟩
      apply SameArrays.setSlot
      · exact ⟨fun _ => rfl, rfl, rfl⟩
      · rfl
    · exact ⟨.refl m, rfl⟩
  | leave =>
    cases hr
    refine ⟨SameArrays.setSlot (.refl m) rfl, ?_⟩
    cases cached <;> rfl
  | readBlocks | readNblocks =>
    cases hr
    exact ⟨.refl m, rfl⟩

theorem attach_leaves [DecidableEq B] {k : AttachFor Q} {p : AttachPc}
    (hr : attach m be b k c p = some r) : Leaves m r := by
  have hattached : ∀ {m' cc} {be' : Backend Q}, SameArrays m m' →
      Leaves m (m', be'.goto (k.attached cc)) := by
    intro m' cc be' h
    refine ⟨h, ?_⟩
    cases k <;> rfl
  cases p with
  | lock i =>
    simp only [attach] at hr
    repeat' split at hr
    all_goals cases hr
    · exact hattached (.refl m)
    · exact ⟨⟨fun _ => rfl, rfl, rfl⟩, rfl⟩
    · cases k with
      | scan q => exact ⟨.refl m, rfl⟩
      | write x w => exact ⟨.finish (.refl m) x w, rfl⟩
  | readBlocks i area dim generation =>
    cases hr
    exact ⟨.refl m, rfl⟩
  | readNblocks i area dim generation dp =>
    simp only [attach] at hr
    split at hr
    · cases hr
      exact ⟨⟨fun _ => rfl, rfl, rfl⟩, rfl⟩
    · obtain ⟨be₁, -, rfl⟩ := Option.map_eq_some_iff.mp hr
      split
      · exact hattached ⟨fun _ => rfl, rfl, rfl⟩
      · exact ⟨⟨fun _ => rfl, rfl, rfl⟩, rfl⟩

theorem builds_after (k : Release) : (k.after : Pc Q).builds = false := by cases k <;> rfl

theorem releaseOneRef_leaves {k : Release} {p : ReleasePc}
    (hr : releaseOneRef m be b k p = some r) : Leaves m r := by
  cases p with
  | next =>
    cases k with
    | endScan => cases hr
    | abort level =>
      simp only [releaseOneRef] at hr
      split at hr <;> cases hr <;> exact ⟨.refl m, rfl⟩
  | dec i cc =>
    cases hr
    refine ⟨SameArrays.setSlot (.refl m) rfl, ?_⟩
    dsimp only [Backend.goto]
    split
    · rfl
    · exact builds_after k
  | readRetired i cc =>
    cases hr
    refine ⟨.refl m, ?_⟩
    dsimp only [Backend.goto]
    split
    · exact builds_after k
    · rfl
  | lock i cc =>
    simp only [releaseOneRef] at hr
    split at hr <;> cases hr
    exact ⟨SameArrays.setSlot (.refl m) rfl, rfl⟩

theorem notResolved_leaves (cc : Nat) (k : Resolve) : Leaves m (notResolved m be cc k) := by
  cases k with
  | scan id t => exact ⟨.refl m, rfl⟩
  | invalidate x t =>
    refine ⟨?_, rfl⟩
    dsimp only [notResolved]
    apply SameArrays.finish
    exact SameArrays.setSlot (.refl m) rfl

theorem resolveBlocks_leaves {k : Resolve} {cc : Nat} {p : ResolvePc}
    (hr : resolveBlocks m be k cc p = some r) : Leaves m r := by
  cases p <;> simp only [resolveBlocks] at hr <;> repeat' split at hr
  all_goals cases hr
  all_goals first
    | exact ⟨.refl m, rfl⟩
    | exact notResolved_leaves cc k
    | (refine ⟨.refl m, ?_⟩; cases k <;> rfl)

theorem writerAttach_leaves {x : Key} {w : Write Q} {p : WritePc}
    (hr : writerAttach m be b x w p = some r) : Leaves m r := by
  cases p with
  | lock cc =>
    cases w with
    | insert t dim hit =>
      simp only [writerAttach, lockForWrite] at hr
      repeat' split at hr
      all_goals cases hr
      · exact ⟨.refl m, rfl⟩
      · exact ⟨.refl m, rfl⟩
      · exact ⟨SameArrays.setSlot (.refl m) rfl, rfl⟩
    | invalidate t =>
      simp only [writerAttach, lockForWrite] at hr
      split at hr <;> cases hr
      exact ⟨SameArrays.setSlot (.refl m) rfl, rfl⟩
  | find | lookup | readState =>
    simp only [writerAttach] at hr
    repeat' split at hr
    all_goals cases hr
    all_goals first
      | exact ⟨.refl m, rfl⟩
      | exact ⟨.finish (.refl m) x w, rfl⟩

/-! ### Steps that build -/

theorem load_builds {q : BeginScan} {i : Fin ccNSlots} {p : LoadPc} (hpc : be.pc = .load q i p)
    (hr : load m be codec q i c p = some r) : Builds codec m be r.1 r.2 := by
  cases p with
  | start =>
    cases hr
    apply Builds.same (.refl m)
    · rw [hpc]
      rfl
    · dsimp only [Backend.goto]
      split <;> rfl
  | create nblocks =>
    simp only [load] at hr
    repeat' split at hr
    all_goals cases hr
    · apply Builds.same (.refl m)
      · rw [hpc]
        rfl
      · rfl
    · exact .lose q i nblocks hpc rfl rfl
    · exact .create q i nblocks hpc rfl rfl
  | storeBlocks l =>
    cases hr
    exact .loadBlocks q i l hpc rfl rfl
  | storeNblocks l =>
    obtain rfl | ⟨be₁, hstore, rfl⟩ := load_storeNblocks hr
    · exact .strand q i l hpc rfl rfl
    · exact .loadNblocks q i l _ be₁ hpc hstore rfl rfl
  | readOther l =>
    cases hr
    exact .readOther q i l hpc rfl rfl
  | page l other blkno bytes nelems =>
    simp only [load] at hr
    repeat' split at hr
    all_goals cases hr
    · exact .loaded q i l other blkno bytes nelems _ _ hpc rfl rfl
    · exact .skipPage q i l other blkno bytes nelems hpc ‹_› ‹_› rfl rfl
    · exact .loaded q i l other blkno bytes nelems _ _ hpc rfl rfl
    · rename_i hfits
      simp only [not_or, not_lt] at hfits
      exact .loadPage q i l other blkno bytes nelems _ hpc ‹_› ‹_› hfits.2 rfl rfl
    · exact .loaded q i l other blkno bytes nelems _ _ hpc rfl rfl
  | publishPage l other blkno bytes nelems dp =>
    cases hr
    exact .publishPage q i l other blkno bytes nelems dp hpc rfl rfl
  | storeBytes bytes nelems final error =>
    cases hr
    exact .loadBytes q i bytes nelems final error hpc rfl rfl
  | addTotal bytes final error =>
    cases hr
    exact .loadTotal q i bytes final error hpc rfl rfl
  | storeState final error =>
    cases hr
    exact .publish q i final error hpc rfl rfl

theorem evictSlot_builds {e : Evictor} {p : EvictPc} (hpc : be.pc = .evict e p)
    (hr : evictSlot m be b e c p = some r) : Builds codec m be r.1 r.2 := by
  cases p with
  | storeState v =>
    cases hr
    exact .mark e v hpc rfl rfl
  | clear v =>
    cases hr
    exact .clear e v hpc rfl rfl
  | storeNblocks v =>
    cases hr
    exact .clearNblocks e v hpc rfl rfl
  | storeBlocks v =>
    cases hr
    exact .clearBlocks e v hpc rfl rfl
  | subTotal v =>
    cases hr
    exact .clearTotal e v hpc rfl rfl
  | choose =>
    simp only [evictSlot] at hr
    repeat' split at hr
    all_goals cases hr
    all_goals apply Leaves.builds _ (by rw [hpc]; rfl)
    · refine ⟨⟨fun _ => rfl, rfl, rfl⟩, ?_⟩
      cases e <;> rfl
    · exact ⟨.refl m, rfl⟩
  | dropPin v =>
    have hpinned : SameArrays m (m.setSlot v.slot { m.slots v.slot with areaPinned := false }) :=
      SameArrays.setSlot (.refl m) rfl
    have hunpinned : SameArrays m ((m.setSlot v.slot
        { m.slots v.slot with areaPinned := false }).modifyArea v.handle Area.unpin) := by
      refine ⟨hpinned.published, rfl, ?_⟩
      rw [← hpinned.arenas]
      apply List.ext_getElem?
      intro j
      simp only [Memory.modifyArea, List.getElem?_map, List.getElem?_modify]
      cases (m.setSlot v.slot _).areas[j]? with
      | none => rfl
      | some a => simp only [Option.map_some]; split <;> rfl
    simp only [evictSlot] at hr
    repeat' split at hr
    all_goals cases hr
    all_goals apply Leaves.builds _ (by rw [hpc]; rfl)
    · exact ⟨⟨hpinned.published, rfl, hpinned.arenas⟩, rfl⟩
    · exact ⟨hunpinned, rfl⟩
    · exact ⟨⟨hunpinned.published, rfl, hunpinned.arenas⟩, rfl⟩
    · exact ⟨.refl m, rfl⟩
  | lock | read | wlock | readScans =>
    simp only [evictSlot] at hr
    repeat' split at hr
    all_goals cases hr
    all_goals apply Leaves.builds _ (by rw [hpc]; rfl)
    all_goals first
      | exact ⟨.refl m, rfl⟩
      | exact ⟨⟨fun _ => rfl, rfl, rfl⟩, rfl⟩
      | exact ⟨SameArrays.setSlot (.refl m) rfl, rfl⟩

theorem drainRetired_builds {k : AfterDrain Q} {i : Fin ccNSlots} {cc : Nat} {p : DrainPc}
    (hpc : be.pc = .drain k i cc p) (hr : drainRetired m be k i cc p = some r) :
    Builds codec m be r.1 r.2 := by
  cases p with
  | check =>
    cases hr
    apply Leaves.builds _ (by rw [hpc]; rfl)
    split
    · cases k with
      | release k => exact ⟨SameArrays.setSlot (.refl m) rfl, builds_after k⟩
      | growDir w | growPage w old => exact ⟨.refl m, rfl⟩
    · exact ⟨.refl m, rfl⟩
  | free =>
    simp only [drainRetired] at hr
    split at hr <;> cases hr
    · apply Builds.reclaim k i cc hpc ‹_› rfl
      cases k <;> rfl
    · apply Leaves.builds _ (by rw [hpc]; rfl)
      exact ⟨.refl m, rfl⟩

/-- What the next allocation in a mapped area returns. -/
theorem nextDp_of_areaOf {h : Handle} {a : Area Q} (ha : m.areaOf h = some a) :
    m.nextDp h.area = a.arena.next := by
  rw [Memory.areaOf] at ha
  split at ha
  · rw [Memory.nextDp, ha]
    rfl
  · cases ha

theorem ensurePage_builds {w : Insert Q} {p : InsertPc} (hpc : be.pc = .insert w p)
    (hr : ensurePage m be w c p = some r) : Builds codec m be r.1 r.2 := by
  have hdone : Leaves m (insertDone m be w) := ⟨SameArrays.setSlot (.refl m) rfl, rfl⟩
  cases p with
  | ensureDir =>
    cases hr
    apply Leaves.builds _ (by rw [hpc]; rfl)
    refine ⟨.refl m, ?_⟩
    dsimp only [Backend.goto]
    split <;> rfl
  | growDir =>
    simp only [ensurePage] at hr
    split at hr
    · cases hr
      exact hdone.builds (by rw [hpc]; rfl)
    split at hr
    · cases hr
      apply Leaves.builds _ (by rw [hpc]; rfl)
      exact ⟨.refl m, rfl⟩
    · rename_i entries hdir
      cases hr
      obtain ⟨a, ha, hentries⟩ := Option.bind_eq_some_iff.mp hdir
      apply Builds.growDir w a entries hpc ha hentries
      · rw [nextDp_of_areaOf ha]
        rfl
      · rw [nextDp_of_areaOf ha]
        rfl
  | ensurePage =>
    simp only [ensurePage] at hr
    repeat' split at hr
    all_goals cases hr
    all_goals apply Leaves.builds _ (by rw [hpc]; rfl)
    all_goals first
      | exact ⟨.refl m, rfl⟩
      | exact hdone
  | growPage old =>
    simp only [ensurePage] at hr
    split at hr
    · cases hr
      exact hdone.builds (by rw [hpc]; rfl)
    split at hr
    · cases hr
      apply Leaves.builds _ (by rw [hpc]; rfl)
      exact ⟨.refl m, rfl⟩
    rename_i a ha
    split at hr
    · rename_i hzero
      subst hzero
      cases hr
      apply Builds.newPage w a hpc ha rfl
      rw [nextDp_of_areaOf ha]
    · rename_i hold
      split at hr
      · cases hr
        apply Leaves.builds _ (by rw [hpc]; rfl)
        exact ⟨.refl m, rfl⟩
      · rename_i entries hpage
        cases hr
        apply Builds.growPage w old a entries hpc hold ha hpage rfl
        rw [nextDp_of_areaOf ha]
  | write dp =>
    simp only [ensurePage] at hr
    split at hr
    · cases hr
      apply Leaves.builds _ (by rw [hpc]; rfl)
      exact ⟨.refl m, rfl⟩
    · rename_i entries hpage
      cases hr
      exact .write w dp entries hpc hpage rfl rfl

theorem growArray_builds (hplaced : be.Placed) {w : Insert Q} {g : Growth} {added : Nat}
    {old : Option (Nat × Nat)} {p : GrowPc} (hpc : be.pc = .grow w g added old p)
    (hr : growArray m be w g added old p = some r) : Builds codec m be r.1 r.2 := by
  cases p with
  | storeNblocks =>
    cases g with
    | dir dp n =>
      cases hr
      exact .growNblocks w dp n added old hpc rfl rfl
    | page dp => cases hr
  | addBytes =>
    cases hr
    exact .growBytes w g added old hpc rfl rfl
  | addTotal =>
    cases hr
    exact .growTotal w g added old hpc rfl rfl
  | readScans =>
    obtain ⟨o, rfl, hr⟩ := Option.map_eq_some_iff.mp hr
    split at hr <;> cases hr
    · exact .quiesced w g added o.1 o.2 hpc ‹_› rfl rfl
    · exact .retire w g added o.1 o.2 hpc ‹_› rfl rfl
  | free =>
    obtain ⟨o, rfl, hr⟩ := Option.map_eq_some_iff.mp hr
    have hfind : be.attachFind w.key = some w.cc := hplaced.uses (by rw [hpc]; rfl)
    have hmapped := (hplaced.table.entry (mem_of_attachFind hfind)).2.1
    rw [if_pos hmapped] at hr
    cases hr
    exact .free w g added o.1 o.2 hpc rfl rfl
  | subBytes =>
    obtain ⟨o, rfl, hr⟩ := Option.map_eq_some_iff.mp hr
    cases hr
    exact .shrinkBytes w g added o.1 o.2 hpc rfl rfl
  | subTotal =>
    obtain ⟨o, rfl, hr⟩ := Option.map_eq_some_iff.mp hr
    cases hr
    exact .shrinkTotal w g added o.1 o.2 hpc rfl rfl

/-- **What a step does to arrays.** -/
theorem proceed_builds [DecidableEq B] (hplaced : be.Placed)
    (hr : proceed codec m b be c = some r) : Builds codec m be r.1 r.2 := by
  cases hpc : be.pc with
  | idle | wild =>
    rw [proceed, hpc] at hr
    cases hr
  | begin q p =>
    rw [proceed, hpc] at hr
    exact (beginScan_leaves hr).builds (by rw [hpc]; rfl)
  | acquire q cached cc p =>
    rw [proceed, hpc] at hr
    exact (scanAcquire_leaves hr).builds (by rw [hpc]; rfl)
  | load q i p =>
    rw [proceed, hpc] at hr
    exact load_builds hpc hr
  | attach k p =>
    rw [proceed, hpc] at hr
    exact (attach_leaves hr).builds (by rw [hpc]; rfl)
  | evict e p =>
    rw [proceed, hpc] at hr
    exact evictSlot_builds hpc hr
  | release k p =>
    rw [proceed, hpc] at hr
    exact (releaseOneRef_leaves hr).builds (by rw [hpc]; rfl)
  | drain k i cc p =>
    rw [proceed, hpc] at hr
    exact drainRetired_builds hpc hr
  | resolve k cc p =>
    rw [proceed, hpc] at hr
    exact (resolveBlocks_leaves hr).builds (by rw [hpc]; rfl)
  | write x w p =>
    rw [proceed, hpc] at hr
    exact (writerAttach_leaves hr).builds (by rw [hpc]; rfl)
  | insert w p =>
    rw [proceed, hpc] at hr
    exact ensurePage_builds hpc hr
  | grow w g added old p =>
    rw [proceed, hpc] at hr
    exact growArray_builds hplaced hpc hr
  | invalidate x t cc dp =>
    rw [proceed, hpc] at hr
    simp only [invalidate] at hr
    split at hr <;> cases hr
    · apply Leaves.builds _ (by rw [hpc]; rfl)
      exact ⟨.refl m, rfl⟩
    · exact .clearHit x t cc dp _ hpc ‹_› rfl rfl

end

end PgAcorn.SharedCache
