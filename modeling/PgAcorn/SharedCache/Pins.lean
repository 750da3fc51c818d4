import PgAcorn.SharedCache.Incarnation

/-! Creator pins: one for each area, dropped once, recorded until then.

The pin of an area is owned by the slot that names the area and has `area_pinned`
set. An eviction that sees a scan leaves the pin with its slot, which is EMPTY then;
the next load of the slot writes its own area over it. -/
namespace PgAcorn.SharedCache
open Library
open CodeCache (Key ccNSlots SlotState Codec plainCodec indexX indexY firstSlot secondSlot)

section
variable {B V Q : Type}

/-! ### The property -/

/-- **Creator pins are conserved.** -/
structure PinsConserved (m : Memory B V Q) : Prop where
  once : ∀ {k : Nat} {a : Area Q}, m.areas[k]? = some a → a.unpins ≤ 1
  /-- the area of a slot that is served has its pin -/
  served : ∀ {i}, (m.slots i).state.serves →
    ∃ a, m.areas[(m.slots i).areaHandle]? = some a ∧ a.pinned ∧ a.unpins = 0
  /-- and so has the area that the slot's incarnation was published with, while it is loaded -/
  loading : ∀ {i} {a : Area Q}, (m.slots i).state = .loading →
    m.areas[(m.slots i).areaHandle]? = some a → a.slot = i →
    a.generation = (m.slots i).generation → a.pinned ∧ a.unpins = 0
  recorded : ∀ {k : Nat} {a : Area Q}, m.areas[k]? = some a → a.pinned →
    ∃ i, (m.slots i).areaHandle = k ∧ (m.slots i).areaPinned

/-- A load finds no pin in its slot, and no error comes between a change of a pin and
the change of its record. -/
def keepsPins (s : State B V Q) : Action B V Q → Bool
  | .proceed b c =>
    match (s.backends b).pc with
    | .load _ i (.create _) => if c.error then c.noMemory else !(s.memory.slots i).areaPinned
    | .evict _ (.dropPin v) => !((s.memory.slots v.slot).areaPinned && c.error)
    | _ => true
  | _ => true

/-! ### The ledger -/

structure PinLedger (m : Memory B V Q) : Prop where
  unpins : ∀ {k t}, m.tag? k = some t → t.unpins ≤ 1 ∧ (t.pinned → t.unpins = 0)
  recorded : ∀ {k t}, m.tag? k = some t → t.pinned →
    ∃ i, (m.slots i).areaHandle = k ∧ (m.slots i).areaPinned
  holds : ∀ {i}, (m.slots i).areaPinned →
    ∃ t, m.tag? (m.slots i).areaHandle = some t ∧ t.slot = i ∧ t.pinned
  current : ∀ {i}, Current m i → (m.slots i).areaPinned

section
variable {m m' m₁ : Memory B V Q} {be : Backend Q} {c : Choice} {pc' : Pc Q}

/-- A change that leaves handles, pins, generations and areas. -/
theorem PinLedger.congr (h : PinLedger m)
    (hslots : ∀ i, (m'.slots i).areaHandle = (m.slots i).areaHandle ∧
      (m'.slots i).areaPinned = (m.slots i).areaPinned ∧
      (m'.slots i).generation = (m.slots i).generation)
    (htags : ∀ k, m'.tag? k = m.tag? k) : PinLedger m' where
  unpins ht := h.unpins ((htags _).symm.trans ht)
  recorded ht hpinned := by
    obtain ⟨i, hi, hip⟩ := h.recorded ((htags _).symm.trans ht) hpinned
    exact ⟨i, (hslots i).1.trans hi, (hslots i).2.1.trans hip⟩
  holds {i} hpinned := by
    obtain ⟨harea, hpin, -⟩ := hslots i
    rw [htags, harea]
    exact h.holds (hpin.symm.trans hpinned)
  current {i} hcurrent := by
    obtain ⟨harea, hpin, hgeneration⟩ := hslots i
    obtain ⟨t, ht, hslot, hgen⟩ := hcurrent
    rw [hpin]
    apply h.current
    refine ⟨t, ?_, hslot, hgen.trans hgeneration⟩
    rw [← harea, ← htags]
    exact ht

theorem PinLedger.same (h : PinLedger m) (hsame : SameRegistry m m') : PinLedger m' :=
  h.congr (fun i => ⟨hsame.areaHandle i, hsame.areaPinned i, hsame.generation i⟩) hsame.tag?

theorem PinLedger.setSlot (h : PinLedger m) {i : Fin ccNSlots} {slot : Slot B}
    (harea : slot.areaHandle = (m.slots i).areaHandle)
    (hpinned : slot.areaPinned = (m.slots i).areaPinned)
    (hgeneration : slot.generation = (m.slots i).generation) : PinLedger (m.setSlot i slot) :=
  h.congr (fun j => ⟨setSlot_congr Slot.areaHandle harea j, setSlot_congr Slot.areaPinned hpinned j,
    setSlot_congr Slot.generation hgeneration j⟩) fun _ => rfl

/-- A load publishes a new area in a slot that owns no pin. -/
theorem PinLedger.create (h : PinLedger m) {i : Fin ccNSlots} {slot : Slot B} {a : Area Q}
    (hfree : (m.slots i).areaPinned = false) (hslot : a.slot = i) (hpinned : a.pinned)
    (hunpins : a.unpins = 0) (harea : slot.areaHandle = m.areas.length)
    (hpin : slot.areaPinned) :
    PinLedger ({ m with areas := m.areas ++ [a] }.setSlot i slot) := by
  have htags : ∀ k, ({ m with areas := m.areas ++ [a] }.setSlot i slot).tag? k =
      if k = m.areas.length then some a.tag else m.tag? k := tag?_append_eq m a
  have hother : ∀ {j}, j ≠ i → ({ m with areas := m.areas ++ [a] }.setSlot i slot).slots j =
      m.slots j := fun hj => setSlot_ne _ slot hj
  constructor
  · intro k t ht
    rw [htags] at ht
    split at ht
    · cases ht
      exact ⟨by simp [Area.tag, hunpins], fun _ => hunpins⟩
    · exact h.unpins ht
  · intro k t ht htp
    rw [htags] at ht
    split at ht
    · subst_vars
      exact ⟨a.slot, by rw [setSlot_self]; exact harea, by rw [setSlot_self]; exact hpin⟩
    · obtain ⟨j, hj, hjp⟩ := h.recorded ht htp
      have hne : j ≠ i := by
        intro hji
        rw [hji, hfree] at hjp
        cases hjp
      exact ⟨j, by rw [hother hne]; exact hj, by rw [hother hne]; exact hjp⟩
  · intro j hjp
    by_cases hj : j = i
    · subst hj
      rw [setSlot_self, htags, harea, if_pos rfl]
      exact ⟨a.tag, rfl, hslot, hpinned⟩
    · rw [hother hj] at hjp ⊢
      obtain ⟨t, ht, hts, htp⟩ := h.holds hjp
      refine ⟨t, ?_, hts, htp⟩
      rw [htags, if_neg]
      · exact ht
      · intro hlength
        simp [Memory.tag?, hlength] at ht
  · intro j hcurrent
    by_cases hj : j = i
    · subst hj
      rw [setSlot_self]
      exact hpin
    · obtain ⟨t, ht, hts, hgeneration⟩ := hcurrent
      rw [hother hj] at ht hgeneration ⊢
      rw [htags] at ht
      split at ht
      · cases ht
        exact absurd (hts.symm.trans hslot) hj
      · exact h.current ⟨t, ht, hts, hgeneration⟩

/-- The generation of a slot moves past that of its area. -/
theorem PinLedger.clear (h : PinLedger m) {i : Fin ccNSlots} {slot : Slot B}
    (harea : slot.areaHandle = (m.slots i).areaHandle)
    (hpinned : slot.areaPinned = (m.slots i).areaPinned)
    (hstale : Stale (m.setSlot i slot) i) : PinLedger (m.setSlot i slot) where
  unpins := h.unpins
  recorded ht htp := by
    obtain ⟨j, hj, hjp⟩ := h.recorded ht htp
    exact ⟨j, (setSlot_congr Slot.areaHandle harea j).trans hj,
      (setSlot_congr Slot.areaPinned hpinned j).trans hjp⟩
  holds {j} hjp := by
    rw [setSlot_congr Slot.areaPinned hpinned] at hjp
    rw [setSlot_congr Slot.areaHandle harea]
    exact h.holds hjp
  current {j} hcurrent := by
    by_cases hj : j = i
    · subst hj
      exact absurd hcurrent hstale.not_current
    · rw [setSlot_ne _ _ hj]
      obtain ⟨t, ht, hts, hgeneration⟩ := hcurrent
      rw [setSlot_ne _ _ hj] at ht hgeneration
      exact h.current ⟨t, ht, hts, hgeneration⟩

/-- The pin of a slot's area is dropped, for a generation that is gone. -/
theorem PinLedger.dropPin (h : PinLedger m) {i : Fin ccNSlots} {slot : Slot B}
    (howned : (m.slots i).areaPinned) (harea : slot.areaHandle = (m.slots i).areaHandle)
    (hgeneration : slot.generation = (m.slots i).generation) (hpinned : slot.areaPinned = false)
    (hstale : Stale m i) :
    PinLedger ((m.setSlot i slot).modifyArea (m.slots i).areaHandle Area.unpin) := by
  obtain ⟨t₀, ht₀, hts₀, htp₀⟩ := h.holds howned
  have hother : ∀ {j}, j ≠ i →
      ((m.setSlot i slot).modifyArea (m.slots i).areaHandle Area.unpin).slots j = m.slots j :=
    fun hj => setSlot_ne m slot hj
  -- another slot that owns a pin owns another's
  have hdistinct : ∀ {j}, j ≠ i → (m.slots j).areaPinned →
      (m.slots i).areaHandle ≠ (m.slots j).areaHandle := by
    intro j hj hjp heq
    obtain ⟨t, ht, hts, -⟩ := h.holds hjp
    rw [← heq, ht₀] at ht
    cases ht
    exact hj (hts.symm.trans hts₀)
  constructor
  · intro k t ht
    rw [tag?_unpin] at ht
    obtain ⟨t₁, ht₁, rfl⟩ := Option.map_eq_some_iff.mp ht
    split
    · subst_vars
      obtain rfl := Option.some.inj (ht₁.symm.trans ht₀)
      exact ⟨by simp [(h.unpins ht₀).2 htp₀], nofun⟩
    · exact h.unpins ht₁
  · intro k t ht htp
    rw [tag?_unpin] at ht
    obtain ⟨t₁, ht₁, rfl⟩ := Option.map_eq_some_iff.mp ht
    split at htp
    · cases htp
    · rename_i hk
      obtain ⟨j, hj, hjp⟩ := h.recorded ht₁ htp
      have hne : j ≠ i := by
        intro hji
        subst hji
        exact hk hj
      exact ⟨j, by rw [hother hne]; exact hj, by rw [hother hne]; exact hjp⟩
  · intro j hjp
    by_cases hj : j = i
    · subst hj
      change ((m.setSlot j slot).slots j).areaPinned at hjp
      rw [setSlot_self, hpinned] at hjp
      cases hjp
    · rw [hother hj] at hjp ⊢
      obtain ⟨t, ht, hts, htp⟩ := h.holds hjp
      refine ⟨t, ?_, hts, htp⟩
      simp only [tag?_unpin, if_neg (hdistinct hj hjp), Option.map_id']
      exact ht
  · intro j hcurrent
    by_cases hj : j = i
    · subst hj
      have hkept : Kept m ((m.setSlot j slot).modifyArea (m.slots j).areaHandle Area.unpin) j :=
        (Kept.setSlot (.refl m j) fun _ => ⟨harea, hgeneration⟩).unpin _
      exact absurd hcurrent (hstale.kept hkept).not_current
    · obtain ⟨t, ht, hts, hgen⟩ := hcurrent
      rw [hother hj] at ht hgen ⊢
      rw [tag?_unpin] at ht
      obtain ⟨t₁, ht₁, rfl⟩ := Option.map_eq_some_iff.mp ht
      apply h.current
      refine ⟨t₁, ht₁, ?_, ?_⟩
      · split at hts <;> exact hts
      · split at hgen <;> exact hgen

/-- What a step of a backend makes of the ledger. -/
theorem PinLedger.registers [DecidableEq B] {s : State B V Q} {b : B} {be' : Backend Q}
    (h : PinLedger s.memory) (hincarnations : Incarnations s)
    (hreg : Registers s.memory (s.backends b) c m' be'.pc) (hok : keepsPins s (.proceed b c)) :
    PinLedger m' := by
  have hplace := hincarnations.place b
  simp only [keepsPins] at hok
  cases hreg with
  | same hsame _ | pick _ _ _ _ hsame => exact h.same hsame
  | name _ _ _ _ _ _ _ hsame | claim _ _ _ _ _ hsame | publish _ _ _ _ _ _ hsame
  | empty _ _ _ _ hsame =>
    apply PinLedger.same _ hsame
    apply h.setSlot <;> rfl
  | lose q i n hpc hpc' herror hlate hsame =>
    rw [hpc] at hok
    simp only [herror, if_true] at hok
    exact absurd hok hlate
  | create q i n hpc hpc' herror hdir hsame =>
    rw [hpc] at hok
    simp only [herror] at hok
    apply PinLedger.same _ hsame
    apply h.create (by simpa using hok) <;> rfl
  | clear e v hpc hpc' hsame =>
    rw [hpc] at hplace
    obtain ⟨-, t, ht, hts, hgeneration⟩ := hplace
    apply PinLedger.same _ hsame
    apply h.clear
    · rfl
    · rfl
    · refine ⟨t, ?_, hts, ?_⟩
      · rw [setSlot_self]
        exact ht
      · rw [setSlot_self, hgeneration]
  | dropPin e v hpc _ hpinned herror hsame =>
    rw [hpc] at hplace
    obtain ⟨hhandle, hstale⟩ := hplace
    apply PinLedger.same _ hsame
    rw [hhandle]
    apply h.dropPin hpinned
    · rfl
    · rfl
    · rfl
    · exact hstale
  | losePin e v hpc _ hpinned herror hsame =>
    rw [hpc] at hok
    simp [hpinned, herror] at hok

theorem PinLedger.conserved {s : State B V Q} (h : PinLedger s.memory) (hincarnations : Incarnations s) :
    PinsConserved s.memory where
  once {k a} ha := (h.unpins (k := k) (t := a.tag) (by simp [Memory.tag?, ha])).1
  served {i} hserves := by
    have hcurrent := hincarnations.live hserves
    obtain ⟨t, ht, -, hpinned⟩ := h.holds (h.current hcurrent)
    obtain ⟨a, ha, rfl⟩ := Option.map_eq_some_iff.mp ht
    exact ⟨a, ha, hpinned, (h.unpins ht).2 hpinned⟩
  loading {i a} _ ha hslot hgeneration := by
    have hta : s.memory.tag? (s.memory.slots i).areaHandle = some a.tag := by simp [Memory.tag?, ha]
    obtain ⟨t, ht, -, hpinned⟩ := h.holds (h.current ⟨a.tag, hta, hslot, hgeneration⟩)
    obtain rfl := Option.some.inj (hta.symm.trans ht)
    exact ⟨hpinned, (h.unpins ht).2 hpinned⟩
  recorded {k a} ha hpinned := h.recorded (t := a.tag) (by simp [Memory.tag?, ha]) hpinned

end

/-! ### Runs -/

theorem PinLedger.init (world : Key → Relation V Q) :
    PinLedger (State.init world : State B V Q).memory := by
  constructor
  · intro k t ht
    cases ht
  · intro k t ht
    cases ht
  · intro i hi
    cases hi
  · intro i hcurrent
    obtain ⟨t, ht, -⟩ := hcurrent
    cases ht

variable [Fintype B] [DecidableEq B] {codec : Codec V Q}

/-- **The step lemma of pins.** -/
theorem PinLedger.step {s s' : State B V Q} {a : Action B V Q}
    (h : Ordered s ∧ Incarnations s ∧ PinLedger s.memory) (hok : keepsPins s a)
    (hstep : step codec s a = some s') : Ordered s' ∧ Incarnations s' ∧ PinLedger s'.memory := by
  obtain ⟨hordered, hincarnations, hpins⟩ := h
  refine ⟨hordered.step hstep, hincarnations.step hordered hstep, ?_⟩
  cases moved hstep with
  | modify x r ha hkeeps hs =>
    subst hs
    exact hpins.congr (fun _ => ⟨rfl, rfl, rfl⟩) fun _ => rfl
  | call b r hidle hmay hb hcall hs =>
    subst hs
    exact hpins.same (call_apart hidle hcall).1
  | proceed b c r ha hproceed hs =>
    subst ha hs
    exact hpins.registers hincarnations (proceed_registers hproceed) hok

/-- **Creator pins are conserved along every run** in which a load finds no pin in its
slot and no error separates a pin from its record. -/
theorem pins_conserved {world : Key → Relation V Q} {s : State B V Q}
    (h : Runs (step codec) (fun s a => keepsPins s a) (State.init world) s) :
    PinsConserved s.memory := by
  obtain ⟨-, hincarnations, hpins⟩ := h.invariant
    (I := fun s => Ordered s ∧ Incarnations s ∧ PinLedger s.memory)
    ⟨Ordered.init world, Incarnations.init world, PinLedger.init world⟩
    fun hinv hok hstep => PinLedger.step hinv hok hstep
  exact hpins.conserved hincarnations

end

/-! ### An area that is forgotten -/

attribute [local instance] neZero_two

/-- Two indexes are loaded, and one of them is evicted while the other is scanned. -/
def evictAfterScan : List (Action (Fin 2) Int Int) :=
  loadAndScan 1 indexY ++ loadAndScan 0 indexX ++ endAndRelease 0 0 ++
    chooseVictim 0 indexX secondSlot ++ List.replicate 9 (next 0)

theorem pins_conserved_evicted : ∃ s : State (Fin 2) Int Int,
    (s.memory.areas.map fun a => (a.pinned, a.unpins), (s.backends 0).pc.atRest) =
      ([(true, 0), (false, 1)], true) ∧ PinsConserved s.memory := by
  have h : ((exec (fun s a => if keepsPins s a = true then step plainCodec s a else none)
      (State.init smallIndexes) evictAfterScan).map fun s =>
        (s.memory.areas.map fun a => (a.pinned, a.unpins), (s.backends 0).pc.atRest)) =
      some ([(true, 0), (false, 1)], true) := by
    decide +kernel
  obtain ⟨s, hs, hobs⟩ := Option.map_eq_some_iff.mp h
  exact ⟨s, hobs, pins_conserved (runs_of_exec hs)⟩

/-- A second backend takes its reference between the evictor's check and its mark, so
the pin stays with the EMPTY slot; the backend backs out and loads the index again. -/
def reloadAfterRace : List (Action (Fin 2) Int Int) :=
  loadAndScan 0 indexX ++ endAndRelease 0 0 ++ attachForScan 1 indexX ++
    chooseVictim 0 indexX firstSlot ++ [next 1] ++ List.replicate 8 (next 0) ++ [next 1, next 1] ++
    .beginScan 1 indexX 1 0 :: List.replicate 8 (next 1)

/-- The new area is recorded over the old one, which keeps its pin. -/
theorem reload_forgets_pin : ∃ s : State (Fin 2) Int Int,
    Runs (step plainCodec) (fun _ _ => True) (State.init smallIndexes) s ∧
      ¬ PinsConserved s.memory := by
  have h : ((exec (fun s a => if True then step plainCodec s a else none)
      (State.init smallIndexes) reloadAfterRace).map fun s => ((s.memory.areas[0]?).map Area.pinned,
        decide (∃ i, (s.memory.slots i).areaHandle = 0 ∧ (s.memory.slots i).areaPinned))) =
      some (some true, false) := by decide +kernel
  obtain ⟨s, hs, hobs⟩ := Option.map_eq_some_iff.mp h
  obtain ⟨harea, hrecord⟩ := Prod.mk.inj hobs
  refine ⟨s, runs_of_exec hs, fun hconserved => ?_⟩
  obtain ⟨a, ha, hpinned⟩ := Option.map_eq_some_iff.mp harea
  exact of_decide_eq_false hrecord (hconserved.recorded ha hpinned)

end PgAcorn.SharedCache
