import PgAcorn.SharedCache.Locks

/-! The registry: which index, incarnation and area each slot has.

An entry is what a slot says of its incarnation, a tag what is known of an area but
for its arrays. Few steps change entries or tags (`Registers`), each at a place of
its own; all others leave both alone (`SameRegistry`). -/
namespace PgAcorn.SharedCache
open Library
open CodeCache (Key ccNSlots SlotState Codec CachePage)

section
variable {B V Q : Type}

/-- What a slot says of its incarnation. -/
structure Entry where
  key : Key
  state : SlotState
  generation : BitVec 32
  dim : Nat
  areaHandle : Nat
  areaPinned : Bool

def Slot.entry (slot : Slot B) : Entry :=
  ⟨slot.key, slot.state, slot.generation, slot.dim, slot.areaHandle, slot.areaPinned⟩

/-- An area but for its arrays. -/
structure Tag where
  index : Key
  slot : Fin ccNSlots
  generation : BitVec 32
  pinned : Bool
  unpins : Nat
  deriving DecidableEq

def Area.tag (a : Area Q) : Tag := ⟨a.index, a.slot, a.generation, a.pinned, a.unpins⟩

/-- The tag of an area. -/
def Memory.tag? (m : Memory B V Q) (k : Nat) : Option Tag := (m.areas[k]?).map Area.tag

/-- The entries and the tags are as they were. -/
structure SameRegistry (m m' : Memory B V Q) : Prop where
  entry : ∀ i, (m'.slots i).entry = (m.slots i).entry
  areas : m'.areas.map Area.tag = m.areas.map Area.tag

namespace SameRegistry
variable {m m' m₁ : Memory B V Q}

theorem refl (m : Memory B V Q) : SameRegistry m m := ⟨fun _ => rfl, rfl⟩

theorem trans (h : SameRegistry m m₁) (h' : SameRegistry m₁ m') : SameRegistry m m' :=
  ⟨fun i => (h'.entry i).trans (h.entry i), h'.areas.trans h.areas⟩

theorem key (h : SameRegistry m m') (i : Fin ccNSlots) : (m'.slots i).key = (m.slots i).key :=
  congrArg Entry.key (h.entry i)

theorem state (h : SameRegistry m m') (i : Fin ccNSlots) : (m'.slots i).state = (m.slots i).state :=
  congrArg Entry.state (h.entry i)

theorem generation (h : SameRegistry m m') (i : Fin ccNSlots) :
    (m'.slots i).generation = (m.slots i).generation := congrArg Entry.generation (h.entry i)

theorem dim (h : SameRegistry m m') (i : Fin ccNSlots) : (m'.slots i).dim = (m.slots i).dim :=
  congrArg Entry.dim (h.entry i)

theorem areaHandle (h : SameRegistry m m') (i : Fin ccNSlots) :
    (m'.slots i).areaHandle = (m.slots i).areaHandle := congrArg Entry.areaHandle (h.entry i)

theorem areaPinned (h : SameRegistry m m') (i : Fin ccNSlots) :
    (m'.slots i).areaPinned = (m.slots i).areaPinned := congrArg Entry.areaPinned (h.entry i)

theorem tag? (h : SameRegistry m m') (k : Nat) : m'.tag? k = m.tag? k := by
  simpa [Memory.tag?] using congrArg (fun l : List Tag => l[k]?) h.areas

theorem length (h : SameRegistry m m') : m'.areas.length = m.areas.length := by
  simpa using congrArg List.length h.areas

/-- A change of a slot that leaves the entry. -/
theorem setSlot (h : SameRegistry m m₁) {i : Fin ccNSlots} {slot : Slot B}
    (hslot : slot.entry = (m₁.slots i).entry) : SameRegistry m (m₁.setSlot i slot) :=
  ⟨fun j => (setSlot_congr Slot.entry hslot j).trans (h.entry j), h.areas⟩

theorem modifyArena (h : SameRegistry m m₁) (k : Nat)
    (f : Arena (CacheArray Q) → Arena (CacheArray Q)) : SameRegistry m (m₁.modifyArena k f) where
  entry := h.entry
  areas := by
    rw [← h.areas]
    apply List.ext_getElem?
    intro j
    simp only [Memory.modifyArena, Memory.modifyArea, List.getElem?_map, List.getElem?_modify]
    cases m₁.areas[j]? with
    | none => rfl
    | some a => simp only [Option.map_some]; split <;> rfl

theorem finish (h : SameRegistry m m₁) (x : Key) (w : Write Q) :
    SameRegistry m (m₁.finish x w) := by
  cases w <;> exact ⟨h.entry, h.areas⟩

theorem unlock (h : SameRegistry m m₁) (i : Fin ccNSlots) : SameRegistry m (m₁.unlock i) :=
  h.setSlot rfl

end SameRegistry

/-! ### What a step can do -/

/-- Where a backend stands in the life of an incarnation. -/
inductive Place
  | elsewhere
  /-- has published its area in the slot and loads it -/
  | loading (i : Fin ccNSlots)
  | evicting (v : Victim)
  /-- has marked the slot EMPTY -/
  | clearing (v : Victim)
  /-- has bumped the generation -/
  | cleared (v : Victim)

def Pc.place : Pc Q → Place
  | .load _ i p => match p with
    | .start | .create _ => .elsewhere
    | _ => .loading i
  | .evict _ p => match p with
    | .wlock v | .storeState v => .evicting v
    | .clear v => .clearing v
    | .storeNblocks v | .storeBlocks v | .subTotal v | .readScans v | .dropPin v => .cleared v
    | _ => .elsewhere
  | _ => .elsewhere

/-- The ways in which a step of a backend changes entries and tags. -/
inductive Registers (m : Memory B V Q) (be : Backend Q) (c : Choice) (m' : Memory B V Q)
    (pc' : Pc Q) : Prop
  | same (h : SameRegistry m m') (hplace : pc'.place = be.pc.place ∨ pc'.place = .elsewhere)
  /-- an index claims a free slot -/
  | name (q : BeginScan) (i : Fin ccNSlots) (hpc : be.pc = .begin q .lookup)
      (hplace : pc'.place = .elsewhere) (hdir : m.dirLock.free) (hfree : (m.slots i).key.dboid = 0)
      (hnew : ∀ j, (m.slots j).key ≠ q.key)
      (h : SameRegistry (m.setSlot i { m.slots i with key := q.key }) m')
  | claim (q : BeginScan) (i : Fin ccNSlots) (hpc : be.pc = .begin q (.claim i))
      (hpc' : pc' = .load q i .start) (hempty : (m.slots i).state = .empty)
      (h : SameRegistry (m.setSlot i { m.slots i with state := .loading }) m')
  /-- an error between the pin of an area and its publication -/
  | lose (q : BeginScan) (i : Fin ccNSlots) (n : Nat) (hpc : be.pc = .load q i (.create n))
      (hpc' : pc' = .idle) (herror : c.error) (hlate : ¬ c.noMemory)
      (h : SameRegistry { m with
        areas := m.areas ++ [Area.create q.key i ((m.slots i).generation + 1)] } m')
  | create (q : BeginScan) (i : Fin ccNSlots) (n : Nat) (hpc : be.pc = .load q i (.create n))
      (hpc' : pc' = .load q i (.storeBlocks ⟨m.areas.length, 1, n⟩)) (herror : ¬ c.error)
      (hdir : m.dirLock.free)
      (h : SameRegistry ({ m with
          areas := m.areas ++ [Area.create q.key i ((m.slots i).generation + 1)] }.setSlot i
        { m.slots i with areaHandle := m.areas.length, areaPinned := true, dim := q.dim
                         generation := (m.slots i).generation + 1 }) m')
  | publish (q : BeginScan) (i : Fin ccNSlots) (final : SlotState) (error : Bool)
      (hpc : be.pc = .load q i (.storeState final error)) (hplace : pc'.place = .elsewhere)
      (h : SameRegistry (m.setSlot i { m.slots i with state := final }) m')
  | pick (e : Evictor) (i : Fin ccNSlots) (hpc : be.pc = .evict e (.read i))
      (hpc' : pc' = .evict e
        (.wlock ⟨i, (m.slots i).bytes, (m.slots i).areaHandle, (m.slots i).key⟩))
      (h : SameRegistry m m')
  | empty (e : Evictor) (v : Victim) (hpc : be.pc = .evict e (.storeState v))
      (hpc' : pc' = .evict e (.clear v))
      (h : SameRegistry (m.setSlot v.slot { m.slots v.slot with state := .empty }) m')
  | clear (e : Evictor) (v : Victim) (hpc : be.pc = .evict e (.clear v))
      (hpc' : pc' = .evict e (.storeNblocks v))
      (h : SameRegistry (m.setSlot v.slot { m.slots v.slot with
        generation := (m.slots v.slot).generation + 1, key := Key.invalid, dim := 0 }) m')
  | dropPin (e : Evictor) (v : Victim) (hpc : be.pc = .evict e (.dropPin v))
      (hplace : pc'.place = .elsewhere) (hpinned : (m.slots v.slot).areaPinned) (herror : ¬ c.error)
      (h : SameRegistry ((m.setSlot v.slot { m.slots v.slot with areaPinned := false }).modifyArea
        v.handle Area.unpin) m')
  /-- the pin is claimed and then not dropped -/
  | losePin (e : Evictor) (v : Victim) (hpc : be.pc = .evict e (.dropPin v))
      (hplace : pc'.place = .elsewhere) (hpinned : (m.slots v.slot).areaPinned) (herror : c.error)
      (h : SameRegistry (m.setSlot v.slot { m.slots v.slot with areaPinned := false }) m')

/-- Entries and tags are as they were, and the backend is in no incarnation's life. -/
def Apart (m : Memory B V Q) (r : Memory B V Q × Backend Q) : Prop :=
  SameRegistry m r.1 ∧ r.2.pc.place = .elsewhere

variable {m : Memory B V Q} {b : B} {be : Backend Q} {c : Choice} {r : Memory B V Q × Backend Q}

theorem Apart.registers (h : Apart m r) : Registers m be c r.1 r.2.pc := .same h.1 (.inr h.2)

theorem beginScan_registers {q : BeginScan} {p : BeginPc} (hpc : be.pc = .begin q p)
    (h : beginScan m be q p = some r) : Registers m be c r.1 r.2.pc := by
  cases p with
  | lookup =>
    simp only [beginScan] at h
    split at h
    · rename_i hdir
      split at h
      · rename_i i slots hslots
        cases h
        obtain ⟨rfl | ⟨hfree, hnew, rfl⟩, -⟩ := slotLookup_slots hslots
        · exact .same (.refl m) (.inr rfl)
        · exact .name q i hpc rfl hdir hfree hnew ⟨fun _ => rfl, rfl⟩
      · cases h
        exact .same (.refl m) (.inr rfl)
    · cases h
  | claim i =>
    simp only [beginScan] at h
    split at h
    · rename_i hempty
      cases h
      exact .claim q i hpc rfl hempty (.refl _)
    all_goals
      cases h
      exact .same (.refl m) (.inr rfl)
  | find | readState | checkDim =>
    simp only [beginScan] at h
    repeat' split at h
    all_goals
      cases h
      exact .same (.refl m) (.inr rfl)

theorem scanAcquire_apart {q : BeginScan} {cached : Bool} {cc : Nat} {p : AcquirePc}
    (h : scanAcquire m be q cached cc p = some r) : Apart m r := by
  have hsame : SameRegistry m r.1 := by
    cases p <;> simp only [scanAcquire] at h <;> (try split at h) <;> cases h
    all_goals first
      | exact .refl m
      | apply SameRegistry.setSlot <;> first | rfl | exact ⟨fun _ => rfl, rfl⟩
  refine ⟨hsame, ?_⟩
  cases p <;> simp only [scanAcquire] at h <;> repeat' split at h
  all_goals
    cases h
    rfl

theorem place_attached (k : AttachFor Q) (cc : Nat) : (k.attached cc).place = .elsewhere := by
  cases k <;> rfl

theorem attach_apart [DecidableEq B] {k : AttachFor Q} {p : AttachPc}
    (h : attach m be b k c p = some r) : Apart m r := by
  cases p with
  | lock i =>
    simp only [attach] at h
    repeat' split at h
    · cases h
      exact ⟨.refl m, place_attached k _⟩
    · cases h
    · cases h
      exact ⟨⟨fun _ => rfl, rfl⟩, rfl⟩
    · cases h
      cases k with
      | scan q => exact ⟨.refl m, rfl⟩
      | write x w => exact ⟨.finish (.refl m) x w, rfl⟩
  | readBlocks i area dim generation =>
    cases h
    exact ⟨.refl m, rfl⟩
  | readNblocks i area dim generation dp =>
    simp only [attach] at h
    split at h
    · cases h
      exact ⟨⟨fun _ => rfl, rfl⟩, rfl⟩
    · obtain ⟨be₁, -, rfl⟩ := Option.map_eq_some_iff.mp h
      refine ⟨⟨fun _ => rfl, rfl⟩, ?_⟩
      dsimp only [Backend.goto]
      split
      · exact place_attached k _
      · rfl

theorem place_after (k : Release) : (k.after : Pc Q).place = .elsewhere := by
  cases k <;> rfl

theorem releaseOneRef_apart {k : Release} {p : ReleasePc}
    (h : releaseOneRef m be b k p = some r) : Apart m r := by
  cases p with
  | next =>
    simp only [releaseOneRef] at h
    repeat' split at h
    all_goals cases h
    all_goals exact ⟨.refl m, rfl⟩
  | dec i cc =>
    cases h
    constructor
    · apply SameRegistry.setSlot <;> first | rfl | exact .refl m
    · dsimp only [Backend.goto]
      split
      · rfl
      · exact place_after k
  | readRetired i cc =>
    cases h
    constructor
    · exact .refl m
    · dsimp only [Backend.goto]
      split
      · exact place_after k
      · rfl
  | lock i cc =>
    simp only [releaseOneRef] at h
    split at h
    · cases h
    · cases h
      constructor
      · apply SameRegistry.setSlot <;> first | rfl | exact .refl m
      · rfl

theorem notResolved_apart (k : Resolve) (cc : Nat) : Apart m (notResolved m be cc k) := by
  cases k with
  | scan id t => exact ⟨.refl m, rfl⟩
  | invalidate x t => exact ⟨.finish (.unlock (.refl m) _) x (.invalidate t), rfl⟩

theorem place_resolved (k : Resolve) (cc dp : Nat) :
    (be.resolved cc dp k).pc.place = .elsewhere := by
  cases k <;> rfl

theorem resolveBlocks_apart {k : Resolve} {cc : Nat} {p : ResolvePc}
    (h : resolveBlocks m be k cc p = some r) : Apart m r := by
  cases p <;> simp only [resolveBlocks] at h <;> repeat' split at h
  all_goals cases h
  all_goals first
    | exact ⟨.refl m, rfl⟩
    | exact notResolved_apart k cc
    | exact ⟨.refl m, place_resolved k cc _⟩

theorem writerAttach_apart {x : Key} {w : Write Q} {p : WritePc}
    (h : writerAttach m be b x w p = some r) : Apart m r := by
  cases p with
  | find | lookup | readState =>
    simp only [writerAttach] at h
    repeat' split at h
    all_goals cases h
    all_goals first
      | exact ⟨.refl m, rfl⟩
      | exact ⟨.finish (.refl m) x w, rfl⟩
  | lock cc =>
    cases w <;> simp only [writerAttach, lockForWrite] at h <;> repeat' split at h
    all_goals cases h
    all_goals first
      | exact ⟨.refl m, rfl⟩
      | (refine ⟨?_, rfl⟩; apply SameRegistry.setSlot <;> first | rfl | exact .refl m)

theorem drainRetired_apart {k : AfterDrain Q} {i : Fin ccNSlots} {cc : Nat} {p : DrainPc}
    (h : drainRetired m be k i cc p = some r) : Apart m r := by
  -- the caller goes on
  have hdone : ∀ {m₁}, SameRegistry m m₁ → Apart m (drained m₁ be i k) := by
    intro m₁ hsame
    cases k with
    | release k => exact ⟨hsame.unlock i, place_after k⟩
    | growDir w | growPage w old => exact ⟨hsame, rfl⟩
  cases p with
  | check =>
    cases h
    split
    · exact hdone (.refl m)
    · exact ⟨.refl m, rfl⟩
  | free =>
    simp only [drainRetired] at h
    split at h
    · cases h
      apply hdone
      apply SameRegistry.setSlot
      · exact .modifyArena (.refl m) _ _
      · rfl
    · cases h
      exact ⟨.refl m, rfl⟩

theorem publishArray_registry {w : Insert Q} {entries : CachePage Q} :
    SameRegistry m (publishArray m be w entries) := by
  unfold publishArray
  exact .modifyArena (.refl m) _ _

theorem ensurePage_apart {w : Insert Q} {p : InsertPc} (h : ensurePage m be w c p = some r) :
    Apart m r := by
  cases p with
  | ensureDir =>
    cases h
    refine ⟨.refl m, ?_⟩
    dsimp only [Backend.goto]
    split <;> rfl
  | growDir | ensurePage | growPage | write =>
    simp only [ensurePage] at h
    repeat' split at h
    all_goals cases h
    all_goals first
      | exact ⟨.refl m, rfl⟩
      | exact ⟨.unlock (.refl m) _, rfl⟩
      | exact ⟨publishArray_registry, rfl⟩
      | (refine ⟨?_, rfl⟩
         apply SameRegistry.setSlot <;> first | rfl | exact .modifyArena (.refl m) _ _)

theorem place_grown (w : Insert Q) (g : Growth) : (be.grown w g).pc.place = .elsewhere := by
  cases g <;> rfl

theorem growArray_apart {w : Insert Q} {g : Growth} {added : Nat} {old : Option (Nat × Nat)}
    {p : GrowPc} (h : growArray m be w g added old p = some r) : Apart m r := by
  cases p with
  | storeNblocks =>
    cases g <;> cases h
    refine ⟨?_, rfl⟩
    apply SameRegistry.setSlot <;> first | rfl | exact .refl m
  | addBytes =>
    cases h
    refine ⟨?_, rfl⟩
    apply SameRegistry.setSlot <;> first | rfl | exact .refl m
  | addTotal =>
    cases h
    refine ⟨⟨fun _ => rfl, rfl⟩, ?_⟩
    dsimp only
    split
    · rfl
    · exact place_grown w g
  | readScans =>
    obtain ⟨o, -, hr⟩ := Option.map_eq_some_iff.mp h
    split at hr <;> cases hr
    · exact ⟨.refl m, rfl⟩
    · refine ⟨?_, rfl⟩
      dsimp only
      split
      · apply SameRegistry.setSlot <;> first | rfl | exact .refl m
      · exact .refl m
  | free =>
    obtain ⟨o, -, hr⟩ := Option.map_eq_some_iff.mp h
    split at hr <;> cases hr
    · refine ⟨?_, rfl⟩
      dsimp only
      exact .modifyArena (.refl m) _ _
    · exact ⟨.refl m, rfl⟩
  | subBytes =>
    obtain ⟨o, -, hr⟩ := Option.map_eq_some_iff.mp h
    cases hr
    refine ⟨?_, rfl⟩
    apply SameRegistry.setSlot <;> first | rfl | exact .refl m
  | subTotal =>
    obtain ⟨o, -, hr⟩ := Option.map_eq_some_iff.mp h
    cases hr
    exact ⟨⟨fun _ => rfl, rfl⟩, place_grown w g⟩

theorem invalidate_apart {x : Key} {t : Tid} {cc dp : Nat}
    (h : invalidate m be x t cc dp = some r) : Apart m r := by
  simp only [invalidate] at h
  split at h <;> cases h
  · exact ⟨.refl m, rfl⟩
  · exact ⟨.finish (.unlock (.modifyArena (.refl m) _ _) _) x (.invalidate t), rfl⟩

theorem load_registers {codec : Codec V Q} {q : BeginScan} {i : Fin ccNSlots} {p : LoadPc}
    (hpc : be.pc = .load q i p) (h : load m be codec q i c p = some r) :
    Registers m be c r.1 r.2.pc := by
  cases p with
  | start =>
    cases h
    apply Registers.same (.refl m)
    dsimp only [Backend.goto]
    split <;> exact .inr rfl
  | create n =>
    simp only [load] at h
    repeat' split at h
    · cases h
      exact .same (.refl m) (.inr rfl)
    · rename_i herror hlate
      cases h
      exact .lose q i n hpc rfl herror hlate (.refl _)
    · rename_i herror hdir
      cases h
      refine .create q i n hpc rfl herror hdir ⟨fun j => ?_, ?_⟩
      · simp only [slots_setSlot]
      · simp only [Memory.setSlot, List.map_append, List.map_cons, List.map_nil]
        rfl
    · cases h
  | storeState final error =>
    cases h
    apply Registers.publish q i final error hpc _ (.refl _)
    dsimp only [Backend.goto]
    split <;> rfl
  | storeNblocks l =>
    obtain rfl | ⟨be₁, -, rfl⟩ := load_storeNblocks h
    · exact .same (.setSlot (.refl m) rfl) (.inr rfl)
    · exact .same (.setSlot (.refl m) rfl) (.inl (by rw [hpc]; rfl))
  | storeBlocks | readOther | page | publishPage | storeBytes | addTotal =>
    have hplace : ∀ p', (Pc.load q i p' : Pc Q).place = .loading i →
        (Pc.load q i p' : Pc Q).place = be.pc.place ∨
          (Pc.load q i p' : Pc Q).place = .elsewhere := by
      intro p' hp'
      rw [hp', hpc]
      exact .inl rfl
    simp only [load] at h
    repeat' split at h
    all_goals cases h
    all_goals
      refine .same ?_ (hplace _ rfl)
      first
        | exact .refl m
        | exact ⟨fun _ => rfl, rfl⟩
        | exact .setSlot (.refl m) rfl
        | (dsimp only; exact .modifyArena (.refl m) _ _)

theorem evictSlot_registers {e : Evictor} {p : EvictPc} (hpc : be.pc = .evict e p)
    (h : evictSlot m be b e c p = some r) : Registers m be c r.1 r.2.pc := by
  cases p with
  | lock =>
    simp only [evictSlot] at h
    split at h <;> cases h
    exact .same ⟨fun _ => rfl, rfl⟩ (.inr rfl)
  | choose =>
    simp only [evictSlot] at h
    repeat' split at h
    · cases h
      apply Registers.same
      · exact ⟨fun _ => rfl, rfl⟩
      · cases e <;> exact .inr rfl
    · cases h
      exact .same (.refl m) (.inr rfl)
    · cases h
  | read i =>
    cases h
    exact .pick e i hpc rfl (.refl m)
  | wlock v =>
    simp only [evictSlot] at h
    split at h <;> cases h
    exact .same (.setSlot (.refl m) rfl) (.inl (by rw [hpc]; rfl))
  | storeState v =>
    cases h
    exact .empty e v hpc rfl (.refl _)
  | clear v =>
    cases h
    refine .clear e v hpc rfl ⟨fun j => ?_, rfl⟩
    simp only [slots_setSlot]
    split <;> rfl
  | storeNblocks v | storeBlocks v =>
    cases h
    exact .same (.setSlot (.refl m) rfl) (.inl (by rw [hpc]; rfl))
  | subTotal v =>
    cases h
    apply Registers.same
    · apply SameRegistry.setSlot <;> first | rfl | exact ⟨fun _ => rfl, rfl⟩
    · rw [hpc]
      exact .inl rfl
  | readScans v =>
    simp only [evictSlot] at h
    split at h <;> cases h
    · exact .same (.refl m) (.inr rfl)
    · exact .same (.refl m) (.inl (by rw [hpc]; rfl))
  | dropPin v =>
    simp only [evictSlot] at h
    repeat' split at h
    · rename_i hpinned herror
      cases h
      exact .losePin e v hpc rfl hpinned herror ⟨fun _ => rfl, rfl⟩
    · rename_i hpinned herror _
      cases h
      exact .dropPin e v hpc rfl hpinned herror (.refl _)
    · rename_i hpinned herror _
      cases h
      apply Registers.dropPin e v hpc
      · rfl
      · exact hpinned
      · exact herror
      · exact ⟨fun _ => rfl, rfl⟩
    · cases h
      exact .same (.refl m) (.inr rfl)

theorem proceed_registers [DecidableEq B] {codec : Codec V Q}
    (h : proceed codec m b be c = some r) : Registers m be c r.1 r.2.pc := by
  cases hpc : be.pc with
  | idle | wild =>
    rw [proceed, hpc] at h
    cases h
  | begin q p =>
    rw [proceed, hpc] at h
    exact beginScan_registers hpc h
  | acquire q cached cc p =>
    rw [proceed, hpc] at h
    exact (scanAcquire_apart h).registers
  | load q i p =>
    rw [proceed, hpc] at h
    exact load_registers hpc h
  | attach k p =>
    rw [proceed, hpc] at h
    exact (attach_apart h).registers
  | evict e p =>
    rw [proceed, hpc] at h
    exact evictSlot_registers hpc h
  | release k p =>
    rw [proceed, hpc] at h
    exact (releaseOneRef_apart h).registers
  | drain k i cc p =>
    rw [proceed, hpc] at h
    exact (drainRetired_apart h).registers
  | resolve k cc p =>
    rw [proceed, hpc] at h
    exact (resolveBlocks_apart h).registers
  | write x w p =>
    rw [proceed, hpc] at h
    exact (writerAttach_apart h).registers
  | insert w p =>
    rw [proceed, hpc] at h
    exact (ensurePage_apart h).registers
  | grow w g added old p =>
    rw [proceed, hpc] at h
    exact (growArray_apart h).registers
  | invalidate x t cc dp =>
    rw [proceed, hpc] at h
    exact (invalidate_apart h).registers

theorem place_of_free (h : be.Free) : be.pc.place = .elsewhere := by
  have hrecorded := h.recorded
  have hholds := h.holds
  cases hpc : be.pc with
  | load q i p =>
    rw [hpc] at hrecorded
    cases p <;> first | rfl | cases hrecorded
  | evict e p =>
    rw [hpc] at hholds
    cases p <;> first | rfl | cases hholds
  | _ => rfl

theorem call_apart [DecidableEq B] {a : Action B V Q} (hidle : be.pc = .idle)
    (h : call m be a = some r) : Apart m r := by
  obtain ⟨w, hw⟩ := call_world h
  refine ⟨?_, place_of_free (free_call hidle h)⟩
  rw [hw]
  exact ⟨fun _ => rfl, rfl⟩

end

end PgAcorn.SharedCache
