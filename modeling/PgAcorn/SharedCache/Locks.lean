import PgAcorn.SharedCache.System

/-! What holds at every program counter: locks, loaders and evictors.

`At` says what a backend knows at its program counter of the two kinds of locks and
of the state of the slots it works on; `Ordered` adds that a slot has one loader and
that no load publishes into a slot while it is being cleared. A step changes locks
and states in few ways (`Touch`), each of which leaves the other backends what they
know. -/
namespace PgAcorn.SharedCache
open Library
open CodeCache (Key ccNSlots SlotState Codec)

/-! ### Where a backend works -/

section
variable {B V Q : Type}

/-- The slot a backend loads. -/
def Pc.loads : Pc Q → Option (Fin ccNSlots)
  | .load _ i _ => some i
  | .evict (.load _ i _ _) _ => some i
  | _ => none

/-- The slot a backend has published its area in and still loads. -/
def Pc.recorded : Pc Q → Option (Fin ccNSlots)
  | .load _ _ .start | .load _ _ (.create _) => none
  | .load _ i _ => some i
  | _ => none

/-- The slot a backend has marked EMPTY and still evicts. -/
def Pc.clears : Pc Q → Option (Fin ccNSlots)
  | .evict _ p => match p with
    | .clear v | .storeNblocks v | .storeBlocks v | .subTotal v | .readScans v | .dropPin v =>
      some v.slot
    | _ => none
  | _ => none

/-- The slot whose `wlock` a backend holds. -/
def Backend.locks (be : Backend Q) : Option (Fin ccNSlots) :=
  match be.pc with
  | .evict _ p => match p with
    | .storeState v | .clear v | .storeNblocks v | .storeBlocks v | .subTotal v => some v.slot
    | _ => none
  | .drain _ i _ _ => some i
  | .resolve (.invalidate _ _) cc _ => some (be.handles cc).slot
  | .insert w _ | .grow w _ _ _ _ => some (be.handles w.cc).slot
  | .invalidate _ _ cc _ => some (be.handles cc).slot
  | _ => none

/-- Whether a backend holds the directory lock alone. -/
def Pc.holdsDir : Pc Q → Bool
  | .evict _ .lock => false
  | .evict _ _ => true
  | _ => false

/-- Whether a backend shares the directory lock. -/
def Pc.sharesDir : Pc Q → Bool
  | .attach _ (.lock _) => false
  | .attach _ _ => true
  | _ => false

/-- The slot an evictor has found evictable and not cleared yet. -/
def Pc.victim : Pc Q → Option (Fin ccNSlots)
  | .evict _ p => match p with
    | .read i => some i
    | .wlock v | .storeState v => some v.slot
    | _ => none
  | _ => none

/-- A drain works for the insert that called it. -/
def Backend.drainsFor (be : Backend Q) : Prop :=
  match be.pc with
  | .drain (.growDir w) i cc _ | .drain (.growPage w _) i cc _ =>
    cc = w.cc ∧ i = (be.handles w.cc).slot
  | _ => True

/-- What a backend knows. -/
structure At (m : Memory B V Q) (b : B) (be : Backend Q) : Prop where
  holds : be.pc.holdsDir → m.dirLock.holder = some b
  shares : be.pc.sharesDir → b ∈ m.dirLock.readers
  locks : ∀ {i}, be.locks = some i → (m.slots i).wlock = some b
  loads : ∀ {i}, be.pc.loads = some i → (m.slots i).state = .loading
  victim : ∀ {i}, be.pc.victim = some i → (m.slots i).state.serves
  clears : ∀ {i}, be.pc.clears = some i → (m.slots i).state.serves = false
  drains : be.drainsFor

/-- **The order of things**: what every backend knows, and what two of them cannot do
at a time. -/
structure Ordered (s : State B V Q) : Prop where
  at_ : ∀ b, At s.memory b (s.backends b)
  apart : s.memory.dirLock.holder.isSome → s.memory.dirLock.readers = []
  loader : ∀ {b b' i}, (s.backends b).pc.loads = some i → (s.backends b').pc.loads = some i →
    b = b'
  cleared : ∀ {b b' i}, (s.backends b).pc.clears = some i → (s.backends b').pc.recorded ≠ some i

/-! ### What a step can do -/

/-- Locks and states are as they were. -/
structure Frame (m m' : Memory B V Q) : Prop where
  dirLock : m'.dirLock = m.dirLock
  state : ∀ i, (m'.slots i).state = (m.slots i).state
  wlock : ∀ i, (m'.slots i).wlock = (m.slots i).wlock

theorem Frame.refl (m : Memory B V Q) : Frame m m := ⟨rfl, fun _ => rfl, fun _ => rfl⟩

theorem Frame.trans {m m₁ m₂ : Memory B V Q} (h : Frame m m₁) (h' : Frame m₁ m₂) : Frame m m₂ :=
  ⟨h'.dirLock.trans h.dirLock, fun i => (h'.state i).trans (h.state i),
    fun i => (h'.wlock i).trans (h.wlock i)⟩

/-- A change of one slot. -/
theorem slots_setSlot (m : Memory B V Q) (i j : Fin ccNSlots) (slot : Slot B) :
    (m.setSlot i slot).slots j = if j = i then slot else m.slots j := by
  simp [Memory.setSlot, Function.update_apply]

theorem setSlot_self (m : Memory B V Q) (i : Fin ccNSlots) (slot : Slot B) :
    (m.setSlot i slot).slots i = slot := by rw [slots_setSlot, if_pos rfl]

theorem setSlot_ne (m : Memory B V Q) {i j : Fin ccNSlots} (slot : Slot B) (h : j ≠ i) :
    (m.setSlot i slot).slots j = m.slots j := by rw [slots_setSlot, if_neg h]

/-- What a change of one slot leaves alone there is nowhere changed. -/
theorem setSlot_congr {γ : Type} (f : Slot B → γ) {m : Memory B V Q} {i : Fin ccNSlots}
    {slot : Slot B} (h : f slot = f (m.slots i)) (j : Fin ccNSlots) :
    f ((m.setSlot i slot).slots j) = f (m.slots j) := by
  rw [slots_setSlot]
  split
  · subst_vars
    exact h
  · rfl

theorem Frame.setSlot {m m₁ : Memory B V Q} (h : Frame m m₁) {i : Fin ccNSlots} {slot : Slot B}
    (hstate : slot.state = (m₁.slots i).state) (hwlock : slot.wlock = (m₁.slots i).wlock) :
    Frame m (m₁.setSlot i slot) where
  dirLock := h.dirLock
  state j := (setSlot_congr Slot.state hstate j).trans (h.state j)
  wlock j := (setSlot_congr Slot.wlock hwlock j).trans (h.wlock j)

/-- The ways in which a step of a backend changes locks and states. -/
inductive Touch [DecidableEq B] (m : Memory B V Q) (b : B) (be : Backend Q) (m' : Memory B V Q) : Prop
  | frame (h : Frame m m')
  | lockDir (hfree : m.dirLock.free) (h : Frame { m with dirLock := ⟨some b, []⟩ } m')
  | unlockDir (hheld : be.pc.holdsDir)
      (h : Frame { m with dirLock := { m.dirLock with holder := none } } m')
  | share (hfree : m.dirLock.holder = none)
      (h : Frame { m with dirLock := { m.dirLock with readers := b :: m.dirLock.readers } } m')
  | unshare (hheld : be.pc.sharesDir)
      (h : Frame { m with
        dirLock := { m.dirLock with readers := m.dirLock.readers.erase b } } m')
  | lock (i : Fin ccNSlots) (hfree : (m.slots i).wlock = none)
      (h : Frame (m.setSlot i { m.slots i with wlock := some b }) m')
  | unlock (i : Fin ccNSlots) (hheld : be.locks = some i)
      (h : Frame (m.setSlot i { m.slots i with wlock := none }) m')
  | claim (i : Fin ccNSlots) (hempty : (m.slots i).state = .empty)
      (h : Frame (m.setSlot i { m.slots i with state := .loading }) m')
  | publish (i : Fin ccNSlots) (final : SlotState) (hloads : be.pc.recorded = some i)
      (h : Frame (m.setSlot i { m.slots i with state := final }) m')
  | evict (i : Fin ccNSlots) (hvictim : be.pc.victim = some i)
      (h : Frame (m.setSlot i { m.slots i with state := .empty }) m')

theorem Touch.then [DecidableEq B] {m m₁ m₂ : Memory B V Q} {b : B} {be : Backend Q}
    (h : Touch m b be m₁) (h' : Frame m₁ m₂) : Touch m b be m₂ := by
  cases h with
  | frame hf => exact .frame (hf.trans h')
  | lockDir hfree hf => exact .lockDir hfree (hf.trans h')
  | unlockDir hheld hf => exact .unlockDir hheld (hf.trans h')
  | share hfree hf => exact .share hfree (hf.trans h')
  | unshare hheld hf => exact .unshare hheld (hf.trans h')
  | lock i hfree hf => exact .lock i hfree (hf.trans h')
  | unlock i hheld hf => exact .unlock i hheld (hf.trans h')
  | claim i hempty hf => exact .claim i hempty (hf.trans h')
  | publish i final hloads hf => exact .publish i final hloads (hf.trans h')
  | evict i hvictim hf => exact .evict i hvictim (hf.trans h')

/-- What a step of a backend does, and what the backend knows afterwards. -/
structure Facts [DecidableEq B] (m : Memory B V Q) (b : B) (be : Backend Q) (m' : Memory B V Q) (be' : Backend Q) :
    Prop where
  touch : Touch m b be m'
  at_ : At m' b be'
  loads : ∀ {i}, be'.pc.loads = some i →
    be.pc.loads = some i ∨ (m.slots i).state = .empty
  recorded : ∀ {i}, be'.pc.recorded = some i → be.pc.recorded = some i ∨ m.dirLock.holder = none
  clears : ∀ {i}, be'.pc.clears = some i → be.pc.clears = some i ∨ (m.slots i).state.serves

/-! ### The other backends -/

theorem At.frame {m m' : Memory B V Q} {b : B} {be : Backend Q} (h : At m b be)
    (hframe : Frame m m') : At m' b be where
  holds hb := by rw [hframe.dirLock]; exact h.holds hb
  shares hb := by rw [hframe.dirLock]; exact h.shares hb
  locks hi := by rw [hframe.wlock]; exact h.locks hi
  loads hi := by rw [hframe.state]; exact h.loads hi
  victim hi := by rw [hframe.state]; exact h.victim hi
  clears hi := by rw [hframe.state]; exact h.clears hi
  drains := h.drains

/-- The directory lock changes hands. -/
theorem At.setDirLock {m : Memory B V Q} {b : B} {be : Backend Q} (h : At m b be)
    {l : DirLock B} (hholds : be.pc.holdsDir → l.holder = some b)
    (hshares : be.pc.sharesDir → b ∈ l.readers) : At { m with dirLock := l } b be where
  holds := hholds
  shares := hshares
  locks := h.locks
  loads := h.loads
  victim := h.victim
  clears := h.clears
  drains := h.drains

/-- One slot's lock or state changes. -/
theorem At.setSlot {m : Memory B V Q} {b : B} {be : Backend Q} (h : At m b be)
    {i : Fin ccNSlots} {slot : Slot B} (hlocks : be.locks = some i → slot.wlock = some b)
    (hloads : be.pc.loads = some i → slot.state = .loading)
    (hvictim : be.pc.victim = some i → slot.state.serves)
    (hclears : be.pc.clears = some i → slot.state.serves = false) : At (m.setSlot i slot) b be where
  holds := h.holds
  shares := h.shares
  locks {j} hj := by
    rw [slots_setSlot]
    split
    · subst_vars; exact hlocks hj
    · exact h.locks hj
  loads {j} hj := by
    rw [slots_setSlot]
    split
    · subst_vars; exact hloads hj
    · exact h.loads hj
  victim {j} hj := by
    rw [slots_setSlot]
    split
    · subst_vars; exact hvictim hj
    · exact h.victim hj
  clears {j} hj := by
    rw [slots_setSlot]
    split
    · subst_vars; exact hclears hj
    · exact h.clears hj
  drains := h.drains

theorem Pc.holdsDir_of_victim {pc : Pc Q} {i : Fin ccNSlots} (h : pc.victim = some i) :
    pc.holdsDir := by
  unfold Pc.victim at h
  split at h
  · split at h <;> first | rfl | cases h
  · cases h

theorem Pc.holdsDir_of_clears {pc : Pc Q} {i : Fin ccNSlots} (h : pc.clears = some i) :
    pc.holdsDir := by
  unfold Pc.clears at h
  split at h
  · split at h <;> first | rfl | cases h
  · cases h

theorem Pc.loads_of_recorded {pc : Pc Q} {i : Fin ccNSlots} (h : pc.recorded = some i) :
    pc.loads = some i := by
  unfold Pc.recorded at h
  split at h <;> first | exact h | cases h

/-- Two backends do not both hold the directory lock alone. -/
theorem Ordered.holder_unique {s : State B V Q} (h : Ordered s) {b b' : B}
    (hb : (s.backends b).pc.holdsDir) (hb' : (s.backends b').pc.holdsDir) : b = b' :=
  Option.some.inj (((h.at_ b).holds hb).symm.trans ((h.at_ b').holds hb'))

variable [DecidableEq B]

/-- **A step leaves the other backends what they know.** -/
theorem Touch.others {s : State B V Q} (h : Ordered s) {b b' : B} (hne : b' ≠ b)
    {m' : Memory B V Q} (htouch : Touch s.memory b (s.backends b) m') :
    At m' b' (s.backends b') := by
  have hat := h.at_ b'
  cases htouch with
  | frame hf => exact hat.frame hf
  | lockDir hfree hf =>
    obtain ⟨hholder, hreaders⟩ : s.memory.dirLock.holder = none ∧ s.memory.dirLock.readers = [] := by
      simpa [DirLock.free] using hfree
    refine At.frame (hat.setDirLock (fun hb => ?_) fun hb => ?_) hf
    · have := hat.holds hb
      rw [hholder] at this
      cases this
    · have := hat.shares hb
      rw [hreaders] at this
      cases this
  | unlockDir hheld hf =>
    refine At.frame ?_ hf
    apply hat.setDirLock
    · exact fun hb => absurd (h.holder_unique hb hheld) hne
    · exact fun hb => hat.shares hb
  | share hfree hf =>
    refine At.frame ?_ hf
    apply hat.setDirLock
    · exact fun hb => hat.holds hb
    · exact fun hb => List.mem_cons_of_mem b (hat.shares hb)
  | unshare hheld hf =>
    refine At.frame ?_ hf
    apply hat.setDirLock
    · exact fun hb => hat.holds hb
    · exact fun hb => (List.mem_erase_of_ne hne).mpr (hat.shares hb)
  | lock i hfree hf =>
    refine At.frame ?_ hf
    apply hat.setSlot
    · intro hi
      have := hat.locks hi
      rw [hfree] at this
      cases this
    · exact fun hi => hat.loads hi
    · exact fun hi => hat.victim hi
    · exact fun hi => hat.clears hi
  | unlock i hheld hf =>
    refine At.frame ?_ hf
    apply hat.setSlot
    · intro hi
      have := (hat.locks hi).symm.trans ((h.at_ b).locks hheld)
      exact absurd (Option.some.inj this) hne
    · exact fun hi => hat.loads hi
    · exact fun hi => hat.victim hi
    · exact fun hi => hat.clears hi
  | claim i hempty hf =>
    refine At.frame ?_ hf
    apply hat.setSlot
    · exact fun hi => hat.locks hi
    · exact fun _ => rfl
    · intro hi
      have := hat.victim hi
      rw [hempty] at this
      cases this
    · exact fun _ => rfl
  | publish i final hloads hf =>
    have hloads' := Pc.loads_of_recorded hloads
    refine At.frame ?_ hf
    apply hat.setSlot
    · exact fun hi => hat.locks hi
    · exact fun hi => absurd (h.loader hi hloads') hne
    · intro hi
      have := hat.victim hi
      rw [(h.at_ b).loads hloads'] at this
      cases this
    · exact fun hi => absurd hloads (h.cleared hi)
  | evict i hvictim hf =>
    have hserves := (h.at_ b).victim hvictim
    refine At.frame ?_ hf
    apply hat.setSlot
    · exact fun hi => hat.locks hi
    · intro hi
      rw [hat.loads hi] at hserves
      cases hserves
    · intro hi
      exact absurd (h.holder_unique (Pc.holdsDir_of_victim hi) (Pc.holdsDir_of_victim hvictim)) hne
    · exact fun _ => rfl

/-! ### Each function -/

/-- A place at which a backend holds nothing and works on no slot. -/
structure Backend.Free (be : Backend Q) : Prop where
  holds : be.pc.holdsDir = false
  shares : be.pc.sharesDir = false
  locks : be.locks = none
  loads : be.pc.loads = none
  recorded : be.pc.recorded = none
  victim : be.pc.victim = none
  clears : be.pc.clears = none
  drains : be.drainsFor

variable {m m' : Memory B V Q} {b : B} {be be' : Backend Q} {r : Memory B V Q × Backend Q}

omit [DecidableEq B] in
theorem At.free (h : be.Free) : At m b be where
  holds hb := by rw [h.holds] at hb; cases hb
  shares hb := by rw [h.shares] at hb; cases hb
  locks hi := by rw [h.locks] at hi; cases hi
  loads hi := by rw [h.loads] at hi; cases hi
  victim hi := by rw [h.victim] at hi; cases hi
  clears hi := by rw [h.clears] at hi; cases hi
  drains := h.drains

theorem Facts.free (htouch : Touch m b be m') (h : be'.Free) : Facts m b be m' be' where
  touch := htouch
  at_ := .free h
  loads hi := by rw [h.loads] at hi; cases hi
  recorded hi := by rw [h.recorded] at hi; cases hi
  clears hi := by rw [h.clears] at hi; cases hi

/-- Two places at which a backend holds the same and works on the same. -/
structure Backend.Same (be be' : Backend Q) : Prop where
  holds : be'.pc.holdsDir = be.pc.holdsDir
  shares : be'.pc.sharesDir = be.pc.sharesDir
  locks : be'.locks = be.locks
  loads : be'.pc.loads = be.pc.loads
  recorded : be'.pc.recorded = be.pc.recorded
  victim : be'.pc.victim = be.pc.victim
  clears : be'.pc.clears = be.pc.clears
  drains : be.drainsFor → be'.drainsFor

theorem Facts.same (hat : At m b be) (hframe : Frame m m') (h : be.Same be') :
    Facts m b be m' be' where
  touch := .frame hframe
  at_ := {
    holds := by rw [h.holds]; exact (hat.frame hframe).holds
    shares := by rw [h.shares]; exact (hat.frame hframe).shares
    locks := by rw [h.locks]; exact (hat.frame hframe).locks
    loads := by rw [h.loads]; exact (hat.frame hframe).loads
    victim := by rw [h.victim]; exact (hat.frame hframe).victim
    clears := by rw [h.clears]; exact (hat.frame hframe).clears
    drains := h.drains hat.drains }
  loads hi := by rw [h.loads] at hi; exact .inl hi
  recorded hi := by rw [h.recorded] at hi; exact .inl hi
  clears hi := by rw [h.clears] at hi; exact .inl hi

omit [DecidableEq B] in
theorem slotLookup_slots {slots slots' : Fin ccNSlots → Slot B} {x : Key} {i : Fin ccNSlots}
    (h : slotLookup slots x = some (i, slots')) :
    (slots' = slots ∨ ((slots i).key.dboid = 0 ∧ (∀ j, (slots j).key ≠ x) ∧
      slots' = Function.update slots i { slots i with key := x })) ∧ (slots' i).key = x := by
  unfold slotLookup at h
  split at h
  · rename_i hfind
    cases h
    exact ⟨.inl rfl, by simpa using List.find?_some hfind⟩
  · rename_i hnone
    split at h
    · rename_i hfind
      cases h
      refine ⟨.inr ⟨by simpa using List.find?_some hfind, fun j => ?_, rfl⟩, by simp⟩
      simpa using List.find?_eq_none.mp hnone j (List.mem_finRange j)
    · cases h

omit [DecidableEq B] in
theorem frame_slotLookup {slots : Fin ccNSlots → Slot B} {x : Key} {i : Fin ccNSlots}
    (h : slotLookup m.slots x = some (i, slots)) : Frame m { m with slots := slots } := by
  obtain ⟨rfl | ⟨-, -, rfl⟩, -⟩ := slotLookup_slots h
  · exact .refl m
  · exact Frame.setSlot (.refl m) rfl rfl

omit [DecidableEq B] in
theorem Frame.finish {m₁ : Memory B V Q} (h : Frame m m₁) (x : Key) (w : Write Q) :
    Frame m (m₁.finish x w) := by
  cases w
  · exact h
  · exact ⟨h.dirLock, h.state, h.wlock⟩

theorem beginScan_facts {q : BeginScan} {p : BeginPc}
    (h : beginScan m be q p = some r) : Facts m b be r.1 r.2 := by
  cases p with
  | lookup =>
    simp only [beginScan] at h
    repeat' split at h
    · rename_i hslots
      cases h
      exact .free (.frame (frame_slotLookup hslots)) ⟨rfl, rfl, rfl, rfl, rfl, rfl, rfl, trivial⟩
    all_goals cases h
    exact .free (.frame (.refl _)) ⟨rfl, rfl, rfl, rfl, rfl, rfl, rfl, trivial⟩
  | claim i =>
    simp only [beginScan] at h
    split at h
    · rename_i hempty
      cases h
      refine ⟨.claim i hempty (.refl _), ⟨nofun, nofun, nofun, ?_, nofun, nofun, trivial⟩, ?_,
        nofun, nofun⟩
      · intro j hj
        cases hj
        rw [setSlot_self]
      · intro j hj
        cases hj
        exact .inr hempty
    all_goals
      cases h
      exact .free (.frame (.refl _)) ⟨rfl, rfl, rfl, rfl, rfl, rfl, rfl, trivial⟩
  | find | readState | checkDim =>
    simp only [beginScan] at h
    repeat' split at h
    all_goals
      cases h
      exact .free (.frame (.refl _)) ⟨rfl, rfl, rfl, rfl, rfl, rfl, rfl, trivial⟩

theorem scanAcquire_facts {q : BeginScan} {cached : Bool} {cc : Nat} {p : AcquirePc}
    (h : scanAcquire m be q cached cc p = some r) : Facts m b be r.1 r.2 := by
  have hframe : Frame m r.1 := by
    cases p <;> simp only [scanAcquire] at h <;> (try split at h) <;> cases h
    all_goals first
      | exact .refl _
      | apply Frame.setSlot <;> first | rfl | exact ⟨rfl, fun _ => rfl, fun _ => rfl⟩
  cases p <;> simp only [scanAcquire] at h <;> repeat' split at h
  all_goals
    cases h
    exact .free (.frame hframe) ⟨rfl, rfl, rfl, rfl, rfl, rfl, rfl, trivial⟩

omit [DecidableEq B] in
theorem free_attached (k : AttachFor Q) (cc : Nat) : (be.goto (k.attached cc)).Free := by
  cases k <;> exact ⟨rfl, rfl, rfl, rfl, rfl, rfl, rfl, trivial⟩

theorem attach_facts {k : AttachFor Q} {c : Choice} {p : AttachPc}
    (hpc : be.pc = .attach k p) (hat : At m b be)
    (h : attach m be b k c p = some r) : Facts m b be r.1 r.2 := by
  cases p with
  | lock i =>
    simp only [attach] at h
    split at h
    · cases h
      exact .free (.frame (.refl _)) (free_attached k _)
    split at h
    · cases h
    rename_i hholder
    split at h
    · cases h
      refine ⟨.share (by simpa using hholder) (.refl _),
        ⟨nofun, fun _ => List.mem_cons_self, nofun, nofun, nofun, nofun, trivial⟩, nofun, nofun, nofun⟩
    · cases k with
      | scan q =>
        cases h
        exact .free (.frame (.refl _)) ⟨rfl, rfl, rfl, rfl, rfl, rfl, rfl, trivial⟩
      | write x w =>
        cases h
        exact .free (.frame (.finish (.refl _) x w)) ⟨rfl, rfl, rfl, rfl, rfl, rfl, rfl, trivial⟩
  | readBlocks i area dim generation =>
    cases h
    have hshares := hat.shares (by rw [hpc]; rfl)
    exact ⟨.frame (.refl _), ⟨nofun, fun _ => hshares, nofun, nofun, nofun, nofun, trivial⟩,
      nofun, nofun, nofun⟩
  | readNblocks i area dim generation dp =>
    have htouch : Touch m b be (m.unshare b) := .unshare (by rw [hpc]; rfl) (.refl _)
    simp only [attach] at h
    split at h
    · cases h
      exact .free htouch ⟨rfl, rfl, rfl, rfl, rfl, rfl, rfl, trivial⟩
    · obtain ⟨be₁, -, hbe⟩ := Option.map_eq_some_iff.mp h
      cases hbe
      split
      · exact .free htouch (free_attached k _)
      · exact .free htouch ⟨rfl, rfl, rfl, rfl, rfl, rfl, rfl, trivial⟩

omit [DecidableEq B] in
theorem free_after (k : Release) : (be.goto k.after).Free := by
  cases k <;> exact ⟨rfl, rfl, rfl, rfl, rfl, rfl, rfl, trivial⟩

theorem releaseOneRef_facts {k : Release} {p : ReleasePc}
    (h : releaseOneRef m be b k p = some r) : Facts m b be r.1 r.2 := by
  cases p with
  | next =>
    simp only [releaseOneRef] at h
    repeat' split at h
    all_goals cases h
    all_goals exact .free (.frame (.refl _)) ⟨rfl, rfl, rfl, rfl, rfl, rfl, rfl, trivial⟩
  | dec i cc =>
    cases h
    have hframe : Frame m (m.setSlot i { m.slots i with
        activeScans := (m.slots i).activeScans - 1 }) := by
      apply Frame.setSlot <;> first | rfl | exact .refl _
    split
    · exact .free (.frame hframe) ⟨rfl, rfl, rfl, rfl, rfl, rfl, rfl, trivial⟩
    · exact .free (.frame hframe) (free_after k)
  | readRetired i cc =>
    cases h
    split
    · exact .free (.frame (.refl _)) (free_after k)
    · exact .free (.frame (.refl _)) ⟨rfl, rfl, rfl, rfl, rfl, rfl, rfl, trivial⟩
  | lock i cc =>
    simp only [releaseOneRef] at h
    split at h
    · cases h
    · rename_i hfree
      cases h
      refine ⟨.lock i (by simpa using hfree) (.refl _),
        ⟨nofun, nofun, ?_, nofun, nofun, nofun, trivial⟩, nofun, nofun, nofun⟩
      intro j hj
      cases hj
      rw [setSlot_self]

/-- A step that lets go of the writer lock and holds nothing after that. -/
theorem Facts.unlock {m₁ : Memory B V Q} {i : Fin ccNSlots} (hlocks : be.locks = some i)
    (hframe : Frame m m₁) (hfree : be'.Free) : Facts m b be (m₁.unlock i) be' := by
  refine .free (.unlock i hlocks ⟨hframe.dirLock, fun j => ?_, fun j => ?_⟩) hfree
  · simp only [Memory.unlock, slots_setSlot]
    split
    · subst_vars
      exact hframe.state j
    · exact hframe.state j
  · simp only [Memory.unlock, slots_setSlot]
    split
    · rfl
    · exact hframe.wlock j

theorem Facts.then {m₁ : Memory B V Q} (h : Facts m b be m₁ be') (hf : Frame m₁ m') :
    Facts m b be m' be' :=
  ⟨h.touch.then hf, h.at_.frame hf, h.loads, h.recorded, h.clears⟩

omit [DecidableEq B] in
theorem frame_finish (x : Key) (w : Write Q) : Frame m (m.finish x w) := .finish (.refl m) x w

omit [DecidableEq B] in
theorem frame_modifyArena (k : Nat) (f : Arena (CacheArray Q) → Arena (CacheArray Q)) :
    Frame m (m.modifyArena k f) := ⟨rfl, fun _ => rfl, fun _ => rfl⟩

theorem notResolved_facts {k : Resolve} {cc : Nat} {p : ResolvePc}
    (hpc : be.pc = .resolve k cc p) (hbe : (be'.handles cc).slot = (be.handles cc).slot) :
    Facts m b be (notResolved m be' cc k).1 (notResolved m be' cc k).2 := by
  cases k with
  | scan id t => exact .free (.frame (.refl _)) ⟨rfl, rfl, rfl, rfl, rfl, rfl, rfl, trivial⟩
  | invalidate x t =>
    have hlocks : be.locks = some (be'.handles cc).slot := by rw [Backend.locks, hpc, hbe]
    exact .then (.unlock hlocks (.refl m) ⟨rfl, rfl, rfl, rfl, rfl, rfl, rfl, trivial⟩)
      (frame_finish x (.invalidate t))

/-- The resolution goes on, with the same lock if it is an invalidation's. -/
theorem resolve_facts {k : Resolve} {cc : Nat} {p p' : ResolvePc} (hat : At m b be)
    (hpc : be.pc = .resolve k cc p) (hpc' : be'.pc = .resolve k cc p')
    (hbe : (be'.handles cc).slot = (be.handles cc).slot) : Facts m b be m be' := by
  apply Facts.same hat (.refl m)
  cases k <;> constructor <;> simp [hpc, hpc', Pc.holdsDir, Pc.sharesDir, Backend.locks, Pc.loads,
    Pc.recorded, Pc.victim, Pc.clears, Backend.drainsFor, hbe]

theorem resolveBlocks_facts {k : Resolve} {cc : Nat} {p : ResolvePc} (hat : At m b be)
    (hpc : be.pc = .resolve k cc p) (h : resolveBlocks m be k cc p = some r) :
    Facts m b be r.1 r.2 := by
  cases p with
  | fast | readGeneration | readBlocks | readNblocks =>
    simp only [resolveBlocks] at h
    repeat' split at h
    all_goals cases h
    all_goals first
      | exact resolve_facts hat hpc rfl rfl
      | exact notResolved_facts hpc rfl
      | exact .free (.frame (.refl _)) ⟨rfl, rfl, rfl, rfl, rfl, rfl, rfl, trivial⟩
  | recheck dp n =>
    simp only [resolveBlocks] at h
    split at h
    · cases h
      exact notResolved_facts hpc rfl
    · cases h
      split
      · exact notResolved_facts hpc (by simp [Backend.setHandle])
      · exact resolve_facts hat hpc rfl (by simp [Backend.setHandle, Backend.goto])
  | entry dp =>
    simp only [resolveBlocks] at h
    repeat' split at h
    all_goals cases h
    · exact .free (.frame (.refl _)) ⟨rfl, rfl, rfl, rfl, rfl, rfl, rfl, trivial⟩
    · exact notResolved_facts hpc rfl
    · exact .free (.frame (.refl _)) ⟨rfl, rfl, rfl, rfl, rfl, rfl, rfl, trivial⟩
    · exact notResolved_facts hpc rfl
    · cases k with
      | scan id t => exact .free (.frame (.refl _)) ⟨rfl, rfl, rfl, rfl, rfl, rfl, rfl, trivial⟩
      | invalidate x t =>
        apply Facts.same hat (.refl m)
        constructor <;> simp [hpc, Backend.resolved, Backend.goto, Pc.holdsDir, Pc.sharesDir,
          Backend.locks, Pc.loads, Pc.recorded, Pc.victim, Pc.clears, Backend.drainsFor]

/-- A step that takes the writer lock of a slot. -/
theorem Facts.lock {i : Fin ccNSlots} (hfree : ¬ (m.slots i).wlock.isSome)
    (hlocks : be'.locks = some i) (hholds : be'.pc.holdsDir = false)
    (hshares : be'.pc.sharesDir = false) (hloads : be'.pc.loads = none)
    (hrecorded : be'.pc.recorded = none) (hvictim : be'.pc.victim = none)
    (hclears : be'.pc.clears = none) (hdrains : be'.drainsFor) :
    Facts m b be (m.setSlot i { m.slots i with wlock := some b }) be' where
  touch := .lock i (by simpa using hfree) (.refl _)
  at_ := {
    holds hb := by rw [hholds] at hb; cases hb
    shares hb := by rw [hshares] at hb; cases hb
    locks hj := by
      rw [hlocks] at hj
      cases hj
      rw [setSlot_self]
    loads hj := by rw [hloads] at hj; cases hj
    victim hj := by rw [hvictim] at hj; cases hj
    clears hj := by rw [hclears] at hj; cases hj
    drains := hdrains }
  loads hj := by rw [hloads] at hj; cases hj
  recorded hj := by rw [hrecorded] at hj; cases hj
  clears hj := by rw [hclears] at hj; cases hj

theorem writerAttach_facts {x : Key} {w : Write Q} {p : WritePc}
    (h : writerAttach m be b x w p = some r) : Facts m b be r.1 r.2 := by
  cases p with
  | find | lookup | readState =>
    simp only [writerAttach] at h
    repeat' split at h
    all_goals cases h
    all_goals
      refine Facts.free (.frame ?_) ⟨rfl, rfl, rfl, rfl, rfl, rfl, rfl, trivial⟩
      first | exact .refl _ | exact frame_finish _ _
  | lock cc =>
    cases w with
    | insert t dim hit =>
      simp only [writerAttach, lockForWrite] at h
      repeat' split at h
      · cases h
        exact .free (.frame (.refl _)) ⟨rfl, rfl, rfl, rfl, rfl, rfl, rfl, trivial⟩
      · cases h
      · cases h
        exact .free (.frame (.refl _)) ⟨rfl, rfl, rfl, rfl, rfl, rfl, rfl, trivial⟩
      · rename_i hfree _
        cases h
        exact .lock hfree (by simp [Backend.locks, Backend.setHandle, Backend.goto]) rfl rfl rfl rfl
          rfl rfl trivial
    | invalidate t =>
      simp only [writerAttach, lockForWrite] at h
      split at h
      · cases h
      · rename_i hfree
        cases h
        exact .lock hfree rfl rfl rfl rfl rfl rfl rfl trivial

theorem drainRetired_facts {k : AfterDrain Q} {i : Fin ccNSlots} {cc : Nat} {p : DrainPc}
    (hat : At m b be) (hpc : be.pc = .drain k i cc p)
    (h : drainRetired m be k i cc p = some r) : Facts m b be r.1 r.2 := by
  have hlocks : be.locks = some i := by rw [Backend.locks, hpc]
  have hdrains := hat.drains
  rw [Backend.drainsFor, hpc] at hdrains
  -- the caller goes on, after a change of arrays
  have hdone : ∀ {m₁}, Frame m m₁ → Facts m b be (drained m₁ be i k).1 (drained m₁ be i k).2 := by
    intro m₁ hframe
    cases k with
    | release k => exact .unlock hlocks hframe (free_after k)
    | growDir w | growPage w old =>
      obtain ⟨rfl, hi⟩ := hdrains
      apply Facts.same hat hframe
      constructor <;> simp [hpc, drained, Backend.goto, Pc.holdsDir, Pc.sharesDir, Backend.locks,
        Pc.loads, Pc.recorded, Pc.victim, Pc.clears, Backend.drainsFor, hi]
  cases p with
  | check =>
    cases h
    split
    · exact hdone (.refl m)
    · apply Facts.same hat (.refl m)
      cases k <;> constructor <;> simp [hpc, Backend.goto, Pc.holdsDir, Pc.sharesDir,
        Backend.locks, Pc.loads, Pc.recorded, Pc.victim, Pc.clears, Backend.drainsFor]
  | free =>
    simp only [drainRetired] at h
    split at h
    · cases h
      apply hdone
      apply Frame.setSlot (frame_modifyArena _ _) <;> rfl
    · cases h
      exact .free (.frame (.refl _)) ⟨rfl, rfl, rfl, rfl, rfl, rfl, rfl, trivial⟩

/-- The places at which an insert works under its slot's lock. -/
inductive Backend.Works (be : Backend Q) (w : Insert Q) : Prop
  | insert (p : InsertPc) (h : be.pc = .insert w p)
  | grow (g : Growth) (added : Nat) (old : Option (Nat × Nat)) (p : GrowPc)
      (h : be.pc = .grow w g added old p)
  | drainDir (p : DrainPc) (h : be.pc = .drain (.growDir w) (be.slotFor w) w.cc p)
  | drainPage (old : Nat) (p : DrainPc) (h : be.pc = .drain (.growPage w old) (be.slotFor w) w.cc p)

omit [DecidableEq B] in
theorem Backend.Works.same {w : Insert Q} (h : be.Works w) (h' : be'.Works w)
    (hslot : be'.slotFor w = be.slotFor w) : be.Same be' := by
  have key : ∀ {be : Backend Q}, be.Works w → be.pc.holdsDir = false ∧ be.pc.sharesDir = false ∧
      be.locks = some (be.slotFor w) ∧ be.pc.loads = none ∧ be.pc.recorded = none ∧
      be.pc.victim = none ∧ be.pc.clears = none ∧ be.drainsFor := by
    intro be h
    cases h with
    | insert p h | grow g added old p h | drainDir p h | drainPage old p h =>
      simp [h, Pc.holdsDir, Pc.sharesDir, Backend.locks, Pc.loads, Pc.recorded, Pc.victim,
        Pc.clears, Backend.drainsFor, Backend.slotFor]
  obtain ⟨h₁, h₂, h₃, h₄, h₅, h₆, h₇, -⟩ := key h
  obtain ⟨h₁', h₂', h₃', h₄', h₅', h₆', h₇', h₈'⟩ := key h'
  exact ⟨h₁'.trans h₁.symm, h₂'.trans h₂.symm, by rw [h₃, h₃', hslot], h₄'.trans h₄.symm,
    h₅'.trans h₅.symm, h₆'.trans h₆.symm, h₇'.trans h₇.symm, fun _ => h₈'⟩

theorem insertDone_facts {w : Insert Q} (hlocks : be.locks = some (be.slotFor w)) :
    Facts m b be (insertDone m be w).1 (insertDone m be w).2 :=
  .unlock hlocks (.refl m) ⟨rfl, rfl, rfl, rfl, rfl, rfl, rfl, trivial⟩

theorem ensurePage_facts {w : Insert Q} {c : Choice} {p : InsertPc} (hat : At m b be)
    (hpc : be.pc = .insert w p) (h : ensurePage m be w c p = some r) : Facts m b be r.1 r.2 := by
  have hlocks : be.locks = some (be.slotFor w) := by rw [Backend.locks, hpc]; rfl
  have hwild : Facts m b be m (be.goto .wild) :=
    .free (.frame (.refl _)) ⟨rfl, rfl, rfl, rfl, rfl, rfl, rfl, trivial⟩
  -- the insert goes on
  have hgo : ∀ {m' : Memory B V Q} {be' : Backend Q}, Frame m m' → be'.slotFor w = be.slotFor w →
      be'.Works w → Facts m b be m' be' :=
    fun hframe hslot hworks => .same hat hframe (Backend.Works.same (.insert p hpc) hworks hslot)
  cases p with
  | ensureDir =>
    cases h
    apply hgo (.refl m)
    · rfl
    · split
      · exact .drainDir _ rfl
      · exact .insert _ rfl
  | growDir =>
    simp only [ensurePage] at h
    split at h
    · cases h
      exact insertDone_facts hlocks
    split at h
    · cases h
      exact hwild
    · cases h
      apply hgo
      · apply Frame.setSlot (frame_modifyArena _ _) <;> rfl
      · rfl
      · exact .grow _ _ _ _ rfl
  | ensurePage =>
    simp only [ensurePage] at h
    repeat' split at h
    all_goals cases h
    · exact hwild
    · exact insertDone_facts hlocks
    · exact hgo (.refl m) rfl (.insert _ rfl)
    · exact hwild
    · exact hgo (.refl m) rfl (.insert _ rfl)
    · exact insertDone_facts hlocks
    · exact hgo (.refl m) rfl (.drainPage _ _ rfl)
  | growPage old =>
    simp only [ensurePage] at h
    repeat' split at h
    all_goals cases h
    · exact insertDone_facts hlocks
    · exact hwild
    · exact hgo ⟨rfl, fun _ => rfl, fun _ => rfl⟩ rfl (.grow _ _ _ _ rfl)
    · exact hwild
    · exact hgo ⟨rfl, fun _ => rfl, fun _ => rfl⟩ rfl (.grow _ _ _ _ rfl)
  | write dp =>
    simp only [ensurePage] at h
    split at h
    · cases h
      exact hwild
    · cases h
      refine .free (.unlock (be.slotFor w) hlocks ⟨rfl, fun j => ?_, fun j => ?_⟩)
        ⟨rfl, rfl, rfl, rfl, rfl, rfl, rfl, trivial⟩
      · simp only [slots_setSlot, Backend.slotFor]
        split <;> rfl
      · simp only [slots_setSlot, Backend.slotFor]
        split <;> rfl

theorem growArray_facts {w : Insert Q} {g : Growth} {added : Nat} {old : Option (Nat × Nat)}
    {p : GrowPc} (hat : At m b be) (hpc : be.pc = .grow w g added old p)
    (h : growArray m be w g added old p = some r) : Facts m b be r.1 r.2 := by
  have hlocks : be.locks = some (be.slotFor w) := by rw [Backend.locks, hpc]; rfl
  have hgo : ∀ {m' : Memory B V Q} {be' : Backend Q}, Frame m m' → be'.slotFor w = be.slotFor w →
      be'.Works w → Facts m b be m' be' := fun hframe hslot hworks =>
    .same hat hframe (Backend.Works.same (.grow g added old p hpc) hworks hslot)
  have hgrown : ∀ {m'}, Frame m m' → Facts m b be m' (be.grown w g) := by
    intro m' hframe
    cases g with
    | dir newDp newN =>
      exact hgo hframe (by simp [Backend.slotFor, Backend.grown, Backend.goto, Backend.setHandle])
        (.insert _ rfl)
    | page newDp => exact hgo hframe rfl (.insert _ rfl)
  have hnext : ∀ {m' p'}, Frame m m' → Facts m b be m' (be.goto (.grow w g added old p')) :=
    fun hframe => hgo hframe rfl (.grow _ _ _ _ rfl)
  cases p with
  | storeNblocks =>
    cases g with
    | dir newDp newN =>
      cases h
      apply hnext
      apply Frame.setSlot (.refl m) <;> rfl
    | page newDp => cases h
  | addBytes =>
    cases h
    apply hnext
    apply Frame.setSlot (.refl m) <;> rfl
  | addTotal =>
    cases h
    split
    · exact hnext ⟨rfl, fun _ => rfl, fun _ => rfl⟩
    · exact hgrown ⟨rfl, fun _ => rfl, fun _ => rfl⟩
  | readScans =>
    obtain ⟨o, -, hr⟩ := Option.map_eq_some_iff.mp h
    split at hr
    · cases hr
      exact hnext (.refl m)
    · cases hr
      apply hnext
      split
      · apply Frame.setSlot (.refl m) <;> rfl
      · exact .refl m
  | free =>
    obtain ⟨o, -, hr⟩ := Option.map_eq_some_iff.mp h
    split at hr
    · cases hr
      exact hnext ⟨rfl, fun _ => rfl, fun _ => rfl⟩
    · cases hr
      exact .free (.frame (.refl _)) ⟨rfl, rfl, rfl, rfl, rfl, rfl, rfl, trivial⟩
  | subBytes =>
    obtain ⟨o, -, hr⟩ := Option.map_eq_some_iff.mp h
    cases hr
    apply hnext
    apply Frame.setSlot (.refl m) <;> rfl
  | subTotal =>
    obtain ⟨o, -, hr⟩ := Option.map_eq_some_iff.mp h
    cases hr
    exact hgrown ⟨rfl, fun _ => rfl, fun _ => rfl⟩

theorem invalidate_facts {x : Key} {t : Tid} {cc dp : Nat}
    (hpc : be.pc = .invalidate x t cc dp) (h : invalidate m be x t cc dp = some r) :
    Facts m b be r.1 r.2 := by
  simp only [invalidate] at h
  split at h
  · cases h
    exact .free (.frame (.refl _)) ⟨rfl, rfl, rfl, rfl, rfl, rfl, rfl, trivial⟩
  · cases h
    have hlocks : be.locks = some (be.handles cc).slot := by rw [Backend.locks, hpc]
    exact .then (.unlock hlocks (frame_modifyArena _ _)
      ⟨rfl, rfl, rfl, rfl, rfl, rfl, rfl, trivial⟩) (frame_finish x (.invalidate t))

/-- A load goes on, before or after it has published its area. -/
theorem loading_facts {q : BeginScan} {i : Fin ccNSlots} {p : LoadPc} (hat : At m b be)
    (hloads : be.pc.loads = some i) (hframe : Frame m m') (hpc' : be'.pc = .load q i p)
    (hrecorded : be'.pc.recorded = be.pc.recorded ∨ be'.pc.recorded = none ∨
      m.dirLock.holder = none) : Facts m b be m' be' where
  touch := .frame hframe
  at_ := {
    holds := by simp [hpc', Pc.holdsDir]
    shares := by simp [hpc', Pc.sharesDir]
    locks := by simp [hpc', Backend.locks]
    loads hj := by
      rw [hframe.state]
      apply hat.loads
      rw [hloads, ← hj, hpc']
      rfl
    victim := by simp [hpc', Pc.victim]
    clears := by simp [hpc', Pc.clears]
    drains := by simp [hpc', Backend.drainsFor] }
  loads hj := .inl (by rw [hloads, ← hj, hpc']; rfl)
  recorded hj := by
    obtain hsame | hnone | hfree := hrecorded
    · rw [hsame] at hj
      exact .inl hj
    · rw [hnone] at hj
      cases hj
    · exact .inr hfree
  clears hj := by simp [hpc', Pc.clears] at hj

theorem load_facts {codec : Codec V Q} {q : BeginScan} {i : Fin ccNSlots} {c : Choice}
    {p : LoadPc} (hat : At m b be) (hpc : be.pc = .load q i p)
    (h : load m be codec q i c p = some r) : Facts m b be r.1 r.2 := by
  have hloads : be.pc.loads = some i := by rw [hpc]; rfl
  have hidle : ∀ {m' : Memory B V Q}, Frame m m' → Facts m b be m' (be.goto .idle) :=
    fun hframe => .free (.frame hframe) ⟨rfl, rfl, rfl, rfl, rfl, rfl, rfl, trivial⟩
  cases p with
  | start =>
    cases h
    split
    · refine ⟨.frame (.refl m), ⟨nofun, nofun, nofun, fun hj => ?_, nofun, nofun, trivial⟩,
        fun hj => .inl (hloads.trans hj), fun hj => ?_, nofun⟩
      · exact hat.loads (hloads.trans hj)
      · cases hj
    · exact loading_facts hat hloads (.refl m) rfl (.inr (.inl rfl))
  | create nblocks =>
    simp only [load] at h
    repeat' split at h
    · cases h
      exact hidle (.refl m)
    · cases h
      exact hidle ⟨rfl, fun _ => rfl, fun _ => rfl⟩
    · rename_i hfree
      cases h
      apply loading_facts hat hloads
      · apply Frame.setSlot <;> first | rfl | exact ⟨rfl, fun _ => rfl, fun _ => rfl⟩
      · rfl
      · simp only [DirLock.free, Bool.and_eq_true, Option.isNone_iff_eq_none] at hfree
        exact .inr (.inr hfree.1)
    · cases h
  | storeBlocks l =>
    cases h
    apply loading_facts hat hloads
    · apply Frame.setSlot (.refl m) <;> rfl
    · rfl
    · rw [hpc]
      exact .inl rfl
  | storeNblocks l =>
    obtain rfl | ⟨be₁, -, rfl⟩ := load_storeNblocks h
    · apply hidle
      apply Frame.setSlot (.refl m) <;> rfl
    · apply loading_facts hat hloads
      · apply Frame.setSlot (.refl m) <;> rfl
      · rfl
      · rw [hpc]
        exact .inl rfl
  | readOther l =>
    cases h
    apply loading_facts hat hloads (.refl m) rfl
    rw [hpc]
    exact .inl rfl
  | page l other blkno bytes nelems =>
    simp only [load] at h
    repeat' split at h
    all_goals
      cases h
      apply loading_facts hat hloads
      · exact ⟨rfl, fun _ => rfl, fun _ => rfl⟩
      · rfl
      · rw [hpc]
        exact .inl rfl
  | publishPage | addTotal =>
    cases h
    apply loading_facts hat hloads
    · exact ⟨rfl, fun _ => rfl, fun _ => rfl⟩
    · rfl
    · rw [hpc]
      exact .inl rfl
  | storeBytes bytes nelems final error =>
    cases h
    apply loading_facts hat hloads
    · apply Frame.setSlot (.refl m) <;> rfl
    · rfl
    · rw [hpc]
      exact .inl rfl
  | storeState final error =>
    cases h
    apply Facts.free (.publish i final (by rw [hpc]; rfl) (.refl _))
    split <;> exact ⟨rfl, rfl, rfl, rfl, rfl, rfl, rfl, trivial⟩

omit [DecidableEq B] in
/-- An evictor loads the same at every place. -/
theorem loads_evict (e : Evictor) (p p' : EvictPc) :
    (Pc.evict e p : Pc Q).loads = (Pc.evict e p' : Pc Q).loads := by
  cases e <;> rfl

/-- Whoever evicts goes on under the directory lock. -/
theorem evicting_facts {e : Evictor} {p p' : EvictPc} (hat : At m b be)
    (hpc : be.pc = .evict e p) (hholds : be.pc.holdsDir) (hpc' : be'.pc = .evict e p')
    (hframe : Frame m m') (hlocks : ∀ {i}, be'.locks = some i → be.locks = some i)
    (hvictim : ∀ {i}, be'.pc.victim = some i → (m.slots i).state.serves)
    (hclears : ∀ {i}, be'.pc.clears = some i → be.pc.clears = some i) : Facts m b be m' be' where
  touch := .frame hframe
  at_ := {
    holds _ := (hat.frame hframe).holds hholds
    shares := by simp [hpc', Pc.sharesDir]
    locks hj := (hat.frame hframe).locks (hlocks hj)
    loads hj := (hat.frame hframe).loads (by
      rw [hpc', loads_evict e p' p] at hj
      rw [hpc]
      exact hj)
    victim hj := by
      rw [hframe.state]
      exact hvictim hj
    clears hj := (hat.frame hframe).clears (hclears hj)
    drains := by simp [hpc', Backend.drainsFor] }
  loads hj := .inl (by
    rw [hpc', loads_evict e p' p] at hj
    rw [hpc]
    exact hj)
  recorded hj := by
    rw [hpc'] at hj
    cases hj
  clears hj := .inl (hclears hj)

theorem evictSlot_facts {e : Evictor} {c : Choice} {p : EvictPc} (hat : At m b be)
    (hpc : be.pc = .evict e p) (h : evictSlot m be b e c p = some r) : Facts m b be r.1 r.2 := by
  have hloads : ∀ {p' j}, (Pc.evict e p' : Pc Q).loads = some j → be.pc.loads = some j := by
    intro p' j hj
    rw [hpc, loads_evict e p p']
    exact hj
  cases p with
  | lock =>
    simp only [evictSlot] at h
    split at h
    · rename_i hfree
      cases h
      have hreaders : m.dirLock.readers = [] := by
        simp only [DirLock.free, Bool.and_eq_true, List.isEmpty_iff] at hfree
        exact hfree.2
      have hframe : Frame { m with dirLock := ⟨some b, []⟩ }
          { m with dirLock := { m.dirLock with holder := some b } } :=
        ⟨by simp [hreaders], fun _ => rfl, fun _ => rfl⟩
      refine ⟨.lockDir hfree hframe, ⟨fun _ => rfl, nofun, nofun, fun hj => ?_, nofun, nofun,
        trivial⟩, fun hj => .inl (hloads hj), nofun, nofun⟩
      · exact hat.loads (hloads hj)
    · cases h
  | choose =>
    simp only [evictSlot] at h
    split at h
    · cases h
      have htouch : Touch m b be m.unlockDir := .unlockDir (by rw [hpc]; rfl) (.refl _)
      cases e with
      | admin x => exact .free htouch ⟨rfl, rfl, rfl, rfl, rfl, rfl, rfl, trivial⟩
      | load q i nblocks need =>
        exact ⟨htouch, ⟨nofun, nofun, nofun, fun hj => hat.loads (by rw [hpc]; exact hj), nofun,
          nofun, trivial⟩, fun hj => .inl (by rw [hpc]; exact hj), nofun, nofun⟩
    · split at h
      · rename_i hvictim
        cases h
        apply evicting_facts hat hpc (by rw [hpc]; rfl) rfl (.refl m) <;> intro j hj
        · cases hj
        · cases hj
          have := hvictim.2.2
          simp only [Slot.evictable, Bool.and_eq_true] at this
          exact this.1
        · cases hj
      · cases h
  | read i =>
    cases h
    apply evicting_facts hat hpc (by rw [hpc]; rfl) rfl (.refl m) <;> intro j hj
    · cases hj
    · exact hat.victim (by rw [hpc]; exact hj)
    · cases hj
  | wlock v =>
    simp only [evictSlot] at h
    split at h
    · cases h
    · rename_i hfree
      cases h
      have hstate : ∀ j, ((m.setSlot v.slot { m.slots v.slot with wlock := some b }).slots j).state =
          (m.slots j).state := fun j => setSlot_congr Slot.state (by rfl) j
      refine ⟨.lock v.slot (by simpa using hfree) (.refl _), ⟨fun _ => ?_, nofun, ?_, ?_, ?_, nofun,
        trivial⟩, fun hj => .inl (hloads hj), nofun, nofun⟩
      · exact hat.holds (by rw [hpc]; rfl)
      · intro j hj
        cases hj
        rw [setSlot_self]
      · intro j hj
        rw [hstate]
        exact hat.loads (hloads hj)
      · intro j hj
        rw [hstate]
        exact hat.victim (by rw [hpc]; exact hj)
  | storeState v =>
    cases h
    have hvictim : be.pc.victim = some v.slot := by rw [hpc]; rfl
    have hserves := hat.victim hvictim
    refine ⟨.evict v.slot hvictim (.refl _), ⟨fun _ => ?_, nofun, ?_, ?_, nofun, ?_, trivial⟩,
      fun hj => .inl (hloads hj), nofun, ?_⟩
    · exact hat.holds (by rw [hpc]; rfl)
    · intro j hj
      rw [setSlot_congr Slot.wlock (by rfl)]
      exact hat.locks (by rw [Backend.locks, hpc]; exact hj)
    · intro j hj
      have hj' := hat.loads (hloads hj)
      rw [setSlot_ne]
      · exact hj'
      · rintro rfl
        rw [hj'] at hserves
        cases hserves
    · intro j hj
      cases hj
      rw [setSlot_self]
      rfl
    · intro j hj
      cases hj
      exact .inr hserves
  | clear v | storeNblocks v | storeBlocks v =>
    cases h
    apply evicting_facts hat hpc (by rw [hpc]; rfl) rfl
    · apply Frame.setSlot (.refl m) <;> rfl
    · intro j hj
      rw [Backend.locks, hpc]
      exact hj
    · intro j hj
      cases hj
    · intro j hj
      rw [hpc]
      exact hj
  | subTotal v =>
    cases h
    have hframe : Frame (m.setSlot v.slot { m.slots v.slot with wlock := none })
        ({ m with total := m.total - v.freed }.setSlot v.slot
          { m.slots v.slot with wlock := none }) := ⟨rfl, fun _ => rfl, fun _ => rfl⟩
    have hstate : ∀ j, (({ m with total := m.total - v.freed }.setSlot v.slot
        { m.slots v.slot with wlock := none }).slots j).state = (m.slots j).state :=
      fun j => setSlot_congr Slot.state (by rfl) j
    refine ⟨.unlock v.slot (by rw [Backend.locks, hpc]) hframe, ⟨fun _ => ?_, nofun, nofun, ?_,
      nofun, ?_, trivial⟩, fun hj => .inl (hloads hj), nofun, fun hj => .inl ?_⟩
    · exact hat.holds (by rw [hpc]; rfl)
    · intro j hj
      rw [hstate]
      exact hat.loads (hloads hj)
    · intro j hj
      rw [hstate]
      exact hat.clears (by rw [hpc]; exact hj)
    · rw [hpc]
      exact hj
  | readScans v =>
    simp only [evictSlot] at h
    split at h
    · cases h
      apply evicting_facts hat hpc (by rw [hpc]; rfl) rfl (.refl m) <;> intro j hj <;> cases hj
    · cases h
      apply evicting_facts hat hpc (by rw [hpc]; rfl) rfl (.refl m) <;> intro j hj
      · cases hj
      · cases hj
      · rw [hpc]
        exact hj
  | dropPin v =>
    have hholds : be.pc.holdsDir := by rw [hpc]; rfl
    have hpinned : Frame m (m.setSlot v.slot { m.slots v.slot with areaPinned := false }) := by
      apply Frame.setSlot (.refl m) <;> rfl
    simp only [evictSlot] at h
    repeat' split at h
    · cases h
      exact .free (.unlockDir hholds ⟨rfl, hpinned.state, hpinned.wlock⟩)
        ⟨rfl, rfl, rfl, rfl, rfl, rfl, rfl, trivial⟩
    · cases h
      apply evicting_facts hat hpc hholds rfl
      · exact ⟨rfl, hpinned.state, hpinned.wlock⟩
      all_goals
        intro j hj
        cases hj
    · cases h
      exact .free (.unlockDir hholds ⟨rfl, hpinned.state, hpinned.wlock⟩)
        ⟨rfl, rfl, rfl, rfl, rfl, rfl, rfl, trivial⟩
    · cases h
      apply evicting_facts hat hpc hholds rfl (.refl m) <;> intro j hj <;> cases hj

theorem proceed_facts {codec : Codec V Q} {c : Choice} (hat : At m b be)
    (h : proceed codec m b be c = some r) : Facts m b be r.1 r.2 := by
  cases hpc : be.pc with
  | idle | wild =>
    rw [proceed, hpc] at h
    cases h
  | begin q p =>
    rw [proceed, hpc] at h
    exact beginScan_facts h
  | acquire q cached cc p =>
    rw [proceed, hpc] at h
    exact scanAcquire_facts h
  | load q i p =>
    rw [proceed, hpc] at h
    exact load_facts hat hpc h
  | attach k p =>
    rw [proceed, hpc] at h
    exact attach_facts hpc hat h
  | evict e p =>
    rw [proceed, hpc] at h
    exact evictSlot_facts hat hpc h
  | release k p =>
    rw [proceed, hpc] at h
    exact releaseOneRef_facts h
  | drain k i cc p =>
    rw [proceed, hpc] at h
    exact drainRetired_facts hat hpc h
  | resolve k cc p =>
    rw [proceed, hpc] at h
    exact resolveBlocks_facts hat hpc h
  | write x w p =>
    rw [proceed, hpc] at h
    exact writerAttach_facts h
  | insert w p =>
    rw [proceed, hpc] at h
    exact ensurePage_facts hat hpc h
  | grow w g added old p =>
    rw [proceed, hpc] at h
    exact growArray_facts hat hpc h
  | invalidate x t cc dp =>
    rw [proceed, hpc] at h
    exact invalidate_facts hpc h

omit [DecidableEq B] in
/-- A backend that has just begun a call holds nothing. -/
theorem free_call {a : Action B V Q} (hidle : be.pc = .idle) (h : call m be a = some r) :
    r.2.Free := by
  have hfree : ∀ {be' : Backend Q}, be'.pc = .idle → be'.Free := by
    intro be' hpc
    constructor <;> simp [hpc, Pc.holdsDir, Pc.sharesDir, Backend.locks, Pc.loads, Pc.recorded,
      Pc.victim, Pc.clears, Backend.drainsFor]
  cases a with
  | beginScan | insert | evict | subAbort | bulkdelete =>
    simp only [call] at h
    split at h <;> cases h
    exact ⟨rfl, rfl, rfl, rfl, rfl, rfl, rfl, trivial⟩
  | subCommit =>
    simp only [call] at h
    split at h <;> cases h
    exact hfree hidle
  | resolve b id t =>
    obtain ⟨be', hbe, rfl⟩ := Option.map_eq_some_iff.mp h
    obtain ⟨sc, -, rfl⟩ := Option.map_eq_some_iff.mp hbe
    split
    · exact hfree hidle
    · exact ⟨rfl, rfl, rfl, rfl, rfl, rfl, rfl, trivial⟩
  | read b id t =>
    obtain ⟨be', hbe, rfl⟩ := Option.map_eq_some_iff.mp h
    obtain ⟨sc, -, hp⟩ := Option.bind_eq_some_iff.mp hbe
    obtain ⟨p, -, rfl⟩ := Option.map_eq_some_iff.mp hp
    split
    · exact hfree hidle
    · exact ⟨rfl, rfl, rfl, rfl, rfl, rfl, rfl, trivial⟩
  | endScan b id =>
    obtain ⟨be', hbe, rfl⟩ := Option.map_eq_some_iff.mp h
    obtain ⟨sc, -, rfl⟩ := Option.map_eq_some_iff.mp hbe
    dsimp only
    split
    · exact hfree hidle
    · exact ⟨rfl, rfl, rfl, rfl, rfl, rfl, rfl, trivial⟩
  | reset | abort =>
    cases h
    exact ⟨rfl, rfl, rfl, rfl, rfl, rfl, rfl, trivial⟩
  | subBegin | getDir | setSize =>
    cases h
    exact hfree hidle
  | proceed | modify => cases h

theorem call_facts {a : Action B V Q} (hidle : be.pc = .idle) (h : call m be a = some r) :
    Facts m b be r.1 r.2 := by
  obtain ⟨w, hw⟩ := call_world h
  apply Facts.free (.frame _) (free_call hidle h)
  rw [hw]
  exact ⟨rfl, fun _ => rfl, fun _ => rfl⟩

/-! ### Runs -/

omit [DecidableEq B] in
/-- A backend does not load a slot while it clears one. -/
theorem Pc.recorded_of_clears {pc : Pc Q} {i : Fin ccNSlots} (h : pc.clears = some i) :
    pc.recorded = none := by
  unfold Pc.clears at h
  split at h
  · rfl
  · cases h

/-- **A step keeps the order**, if it does what a step of a backend does. -/
theorem Ordered.facts {s : State B V Q} (h : Ordered s)
    (hfacts : Facts s.memory b (s.backends b) m' be') :
    Ordered ⟨m', Function.update s.backends b be'⟩ where
  at_ b' := by
    by_cases hb : b' = b
    · subst hb
      simpa using hfacts.at_
    · simpa [hb] using hfacts.touch.others h hb
  apart := by
    intro hholder
    cases hfacts.touch with
    | lockDir hfree hf => rw [hf.dirLock]
    | unlockDir hheld hf =>
      rw [hf.dirLock] at hholder
      cases hholder
    | share hfree hf =>
      rw [hf.dirLock, hfree] at hholder
      cases hholder
    | unshare hheld hf =>
      rw [hf.dirLock] at hholder ⊢
      rw [h.apart hholder, List.erase_nil]
    | frame hf | lock _ _ hf | unlock _ _ hf | claim _ _ hf | publish _ _ _ hf | evict _ _ hf =>
      rw [hf.dirLock] at hholder ⊢
      exact h.apart hholder
  loader {b₁ b₂ i} h₁ h₂ := by
    -- a new loader found the slot EMPTY
    have hnew : ∀ {b₁ : B}, b₁ ≠ b → (s.backends b₁).pc.loads = some i → be'.pc.loads = some i →
        b₁ = b := by
      intro b₁ _ h₁ h₂
      obtain hold | hempty := hfacts.loads h₂
      · exact h.loader h₁ hold
      · rw [(h.at_ b₁).loads h₁] at hempty
        cases hempty
    by_cases hb₁ : b₁ = b <;> by_cases hb₂ : b₂ = b
    · rw [hb₁, hb₂]
    · subst hb₁
      exact (hnew hb₂ (by simpa [hb₂] using h₂) (by simpa using h₁)).symm
    · subst hb₂
      exact hnew hb₁ (by simpa [hb₁] using h₁) (by simpa using h₂)
    · exact h.loader (by simpa [hb₁] using h₁) (by simpa [hb₂] using h₂)
  cleared {b₁ b₂ i} h₁ h₂ := by
    by_cases hb₁ : b₁ = b <;> by_cases hb₂ : b₂ = b
    · subst hb₁ hb₂
      rw [Pc.recorded_of_clears h₁] at h₂
      cases h₂
    · subst hb₁
      replace h₂ : (s.backends b₂).pc.recorded = some i := by simpa [hb₂] using h₂
      obtain hold | hserves := hfacts.clears (by simpa using h₁)
      · exact h.cleared hold h₂
      · rw [(h.at_ b₂).loads (Pc.loads_of_recorded h₂)] at hserves
        cases hserves
    · subst hb₂
      replace h₁ : (s.backends b₁).pc.clears = some i := by simpa [hb₁] using h₁
      obtain hold | hfree := hfacts.recorded (by simpa using h₂)
      · exact h.cleared h₁ hold
      · rw [(h.at_ b₁).holds (Pc.holdsDir_of_clears h₁)] at hfree
        cases hfree
    · exact h.cleared (by simpa [hb₁] using h₁) (by simpa [hb₂] using h₂)

/-- The step lemma. -/
theorem Ordered.step [Fintype B] {codec : Codec V Q} {s s' : State B V Q} {a : Action B V Q}
    (h : Ordered s) (hstep : step codec s a = some s') : Ordered s' := by
  cases moved hstep with
  | modify x r ha hkeeps hs =>
    subst hs
    exact ⟨fun b => (h.at_ b).frame ⟨rfl, fun _ => rfl, fun _ => rfl⟩, h.apart, h.loader, h.cleared⟩
  | call b r hidle hmay hb hcall hs =>
    subst hs
    exact h.facts (call_facts hidle hcall)
  | proceed b c r ha hproceed hs =>
    subst hs
    exact h.facts (proceed_facts (h.at_ b) hproceed)

omit [DecidableEq B] in
theorem Ordered.init (world : Key → Relation V Q) : Ordered (State.init world : State B V Q) :=
  ⟨fun _ => ⟨nofun, nofun, nofun, nofun, nofun, nofun, trivial⟩, nofun, nofun, nofun⟩

end

end PgAcorn.SharedCache
