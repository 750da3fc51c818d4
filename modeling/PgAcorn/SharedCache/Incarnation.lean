import PgAcorn.SharedCache.Registry

/-! Incarnations: the area that a slot names, and whose it is.

A slot that is served, or that a load has published its area in, names the area of
its present generation. An evictor that has bumped the generation finds the area of
the generation before, until it lets go of the directory. -/
namespace PgAcorn.SharedCache
open CodeCache (Key ccNSlots SlotState Codec)

section
variable {B V Q : Type} {m : Memory B V Q} {b : B} {be : Backend Q} {c : Choice}

/-- The slot's area is the one that its present incarnation was published with. -/
def Current (m : Memory B V Q) (i : Fin ccNSlots) : Prop :=
  ∃ t, m.tag? (m.slots i).areaHandle = some t ∧ t.slot = i ∧ t.generation = (m.slots i).generation

/-- The slot's area is the one of the incarnation before. -/
def Stale (m : Memory B V Q) (i : Fin ccNSlots) : Prop :=
  ∃ t, m.tag? (m.slots i).areaHandle = some t ∧ t.slot = i ∧
    t.generation + 1 = (m.slots i).generation

/-- What holds of the incarnation a backend works on. -/
def Place.Holds (m : Memory B V Q) : Place → Prop
  | .elsewhere => True
  | .loading i => Current m i
  | .evicting v => v.handle = (m.slots v.slot).areaHandle
  | .clearing v => v.handle = (m.slots v.slot).areaHandle ∧ Current m v.slot
  | .cleared v => v.handle = (m.slots v.slot).areaHandle ∧ Stale m v.slot

/-- **Incarnations**: what is served, loaded or evicted is the slot's own area. -/
structure Incarnations (s : State B V Q) : Prop where
  live : ∀ {i}, (s.memory.slots i).state.serves → Current s.memory i
  place : ∀ b, (s.backends b).pc.place.Holds s.memory

/-- What stays of an area: its slot and its generation. -/
structure Kept (m m' : Memory B V Q) (i : Fin ccNSlots) : Prop where
  areaHandle : (m'.slots i).areaHandle = (m.slots i).areaHandle
  generation : (m'.slots i).generation = (m.slots i).generation
  tags : ∀ {k t}, m.tag? k = some t →
    ∃ t', m'.tag? k = some t' ∧ t'.slot = t.slot ∧ t'.generation = t.generation

section
variable {m m' : Memory B V Q} {i : Fin ccNSlots}

/-- The tag of a slot's area, in any relation to the slot's generation. -/
theorem Kept.tagged {P : BitVec 32 → BitVec 32 → Prop} (hkept : Kept m m' i)
    (h : ∃ t, m.tag? (m.slots i).areaHandle = some t ∧ t.slot = i ∧
      P t.generation (m.slots i).generation) :
    ∃ t, m'.tag? (m'.slots i).areaHandle = some t ∧ t.slot = i ∧
      P t.generation (m'.slots i).generation := by
  obtain ⟨t, ht, hslot, hgeneration⟩ := h
  obtain ⟨t', ht', hslot', hgeneration'⟩ := hkept.tags ht
  refine ⟨t', ?_, hslot'.trans hslot, ?_⟩
  · rw [hkept.areaHandle]
    exact ht'
  · rw [hgeneration', hkept.generation]
    exact hgeneration

/-- Two slots do not have one area. -/
theorem Current.unique {j : Fin ccNSlots} (hi : Current m i) (hj : Current m j)
    (harea : (m.slots i).areaHandle = (m.slots j).areaHandle) : i = j := by
  obtain ⟨t, ht, hslot, -⟩ := hi
  obtain ⟨t', ht', hslot', -⟩ := hj
  rw [harea, ht'] at ht
  cases ht
  exact hslot.symm.trans hslot'

theorem Current.kept (h : Current m i) (hkept : Kept m m' i) : Current m' i :=
  hkept.tagged (P := fun g g' => g = g') h

/-- The generation before is another. -/
theorem Stale.not_current (h : Stale m i) : ¬ Current m i := by
  obtain ⟨t, ht, -, hbefore⟩ := h
  intro hcurrent
  obtain ⟨t', ht', -, hnow⟩ := hcurrent
  obtain rfl := Option.some.inj (ht.symm.trans ht')
  rw [hnow] at hbefore
  exact absurd hbefore (by simp)

theorem Stale.kept (h : Stale m i) (hkept : Kept m m' i) : Stale m' i :=
  hkept.tagged (P := fun g g' => g + 1 = g') h

/-- The slot a place is about. -/
def Place.slot? : Place → Option (Fin ccNSlots)
  | .elsewhere => none
  | .loading i => some i
  | .evicting v | .clearing v | .cleared v => some v.slot

theorem Place.Holds.kept {p : Place} (h : p.Holds m)
    (hkept : ∀ {i}, p.slot? = some i → Kept m m' i) : p.Holds m' := by
  cases p with
  | elsewhere => trivial
  | loading i => exact Current.kept h (hkept rfl)
  | evicting v => exact h.trans (hkept rfl).areaHandle.symm
  | clearing v => exact ⟨h.1.trans (hkept rfl).areaHandle.symm, h.2.kept (hkept rfl)⟩
  | cleared v => exact ⟨h.1.trans (hkept rfl).areaHandle.symm, h.2.kept (hkept rfl)⟩

theorem Kept.refl (m : Memory B V Q) (i : Fin ccNSlots) : Kept m m i :=
  ⟨rfl, rfl, fun ht => ⟨_, ht, rfl, rfl⟩⟩

theorem SameRegistry.kept (h : SameRegistry m m') (i : Fin ccNSlots) : Kept m m' i :=
  ⟨h.areaHandle i, h.generation i, fun {k t} ht => ⟨t, (h.tag? k).trans ht, rfl, rfl⟩⟩

theorem Kept.trans {m₁ : Memory B V Q} (h : Kept m m₁ i) (h' : Kept m₁ m' i) : Kept m m' i where
  areaHandle := h'.areaHandle.trans h.areaHandle
  generation := h'.generation.trans h.generation
  tags ht := by
    obtain ⟨t₁, ht₁, hslot₁, hgeneration₁⟩ := h.tags ht
    obtain ⟨t', ht', hslot', hgeneration'⟩ := h'.tags ht₁
    exact ⟨t', ht', hslot'.trans hslot₁, hgeneration'.trans hgeneration₁⟩

theorem Kept.same {m₁ : Memory B V Q} (h' : SameRegistry m₁ m') (h : Kept m m₁ i) : Kept m m' i :=
  h.trans (h'.kept i)

/-- A change of another slot, or one that leaves the area and the generation. -/
theorem Kept.setSlot {m₁ : Memory B V Q} (h : Kept m m₁ i) {j : Fin ccNSlots} {slot : Slot B}
    (hslot : j = i → slot.areaHandle = (m₁.slots j).areaHandle ∧
      slot.generation = (m₁.slots j).generation) : Kept m (m₁.setSlot j slot) i where
  areaHandle := by
    rw [slots_setSlot, ← h.areaHandle]
    split
    · subst_vars
      exact (hslot rfl).1
    · rfl
  generation := by
    rw [slots_setSlot, ← h.generation]
    split
    · subst_vars
      exact (hslot rfl).2
    · rfl
  tags := h.tags

theorem tag?_append (m : Memory B V Q) (a : Area Q) {k : Nat} {t : Tag}
    (ht : m.tag? k = some t) : ({ m with areas := m.areas ++ [a] } : Memory B V Q).tag? k = some t := by
  obtain ⟨a', ha', rfl⟩ := Option.map_eq_some_iff.mp ht
  have hk := (List.getElem?_eq_some_iff.mp ha').1
  simp [Memory.tag?, List.getElem?_append_left hk, ha']

theorem tag?_append_eq (m : Memory B V Q) (a : Area Q) (k : Nat) :
    ({ m with areas := m.areas ++ [a] } : Memory B V Q).tag? k =
      if k = m.areas.length then some a.tag else m.tag? k := by
  simp only [Memory.tag?, List.getElem?_append]
  split
  · rw [if_neg (by omega)]
  · split
    · subst_vars
      simp
    · simp [List.getElem?_eq_none (l := [a]) (i := k - m.areas.length) (by simp; omega),
        List.getElem?_eq_none (l := m.areas) (i := k) (by omega)]

theorem Kept.append (m : Memory B V Q) (a : Area Q) (i : Fin ccNSlots) :
    Kept m { m with areas := m.areas ++ [a] } i :=
  ⟨rfl, rfl, fun {_ t} ht => ⟨t, tag?_append m a ht, rfl, rfl⟩⟩

theorem tag?_unpin (m : Memory B V Q) (k j : Nat) :
    (m.modifyArea k Area.unpin).tag? j =
      (m.tag? j).map fun t => if k = j then { t with pinned := false, unpins := t.unpins + 1 } else t := by
  simp only [Memory.tag?, Memory.modifyArea, List.getElem?_modify]
  cases m.areas[j]? with
  | none => rfl
  | some a => simp only [Option.map_some]; split <;> rfl

theorem Kept.unpin {m₁ : Memory B V Q} (h : Kept m m₁ i) (k : Nat) :
    Kept m (m₁.modifyArea k Area.unpin) i where
  areaHandle := h.areaHandle
  generation := h.generation
  tags {j t} ht := by
    obtain ⟨t₁, ht₁, hslot, hgeneration⟩ := h.tags ht
    refine ⟨_, by rw [tag?_unpin, ht₁, Option.map_some], ?_⟩
    split <;> exact ⟨hslot, hgeneration⟩

end

theorem Pc.holdsDir_of_place {pc : Pc Q} {v : Victim}
    (h : pc.place = .evicting v ∨ pc.place = .clearing v ∨ pc.place = .cleared v) :
    pc.holdsDir := by
  unfold Pc.place at h
  split at h
  · split at h <;> simp at h
  · split at h <;> first | rfl | simp at h
  · simp at h

theorem Pc.recorded_of_place {pc : Pc Q} {i : Fin ccNSlots} (h : pc.place = .loading i) :
    pc.recorded = some i := by
  cases pc with
  | load q j p => cases p <;> simp_all [Pc.place, Pc.recorded]
  | evict e p => cases p <;> simp [Pc.place] at h
  | _ => cases h

section
variable {m' : Memory B V Q} {pc' : Pc Q}

/-- What a step keeps, unless it publishes or clears the slot. -/
theorem Registers.kept (hreg : Registers m be c m' pc') {i : Fin ccNSlots}
    (hcreate : ∀ q n, be.pc = .load q i (.create n) → ¬ m.dirLock.free)
    (hclear : ∀ e v, be.pc = .evict e (.clear v) → v.slot ≠ i) : Kept m m' i := by
  cases hreg with
  | same h _ | pick _ _ _ _ h => exact h.kept i
  | name _ _ _ _ _ _ _ h | claim _ _ _ _ _ h | publish _ _ _ _ _ _ h | empty _ _ _ _ h
  | losePin _ _ _ _ _ _ h =>
    apply Kept.same h
    exact .setSlot (.refl _ i) fun _ => ⟨rfl, rfl⟩
  | lose _ _ _ _ _ _ _ h => exact .same h (.append _ _ i)
  | create q j n hpc hpc' herror hdir h =>
    apply Kept.same h
    apply Kept.setSlot (.append _ _ i)
    intro hj
    subst hj
    exact absurd hdir (hcreate q n hpc)
  | clear e v hpc hpc' h =>
    apply Kept.same h
    apply Kept.setSlot (.refl _ i)
    intro hv
    exact absurd hv (hclear e v hpc)
  | dropPin e v hpc hplace hpinned herror h =>
    apply Kept.same h
    apply Kept.unpin
    exact .setSlot (.refl _ i) fun _ => ⟨rfl, rfl⟩

/-- A slot that is served after a step was before, or a load has published it. -/
theorem Registers.serves (hreg : Registers m be c m' pc') {i : Fin ccNSlots}
    (h : (m'.slots i).state.serves) : (m.slots i).state.serves ∨
      ∃ q final error, be.pc = .load q i (.storeState final error) := by
  cases hreg with
  | same hsame _ | pick _ _ _ _ hsame =>
    rw [hsame.state] at h
    exact .inl h
  | name _ _ _ _ _ _ _ hsame | create _ _ _ _ _ _ _ hsame | clear _ _ _ _ hsame
  | losePin _ _ _ _ _ _ hsame =>
    rw [hsame.state, setSlot_congr Slot.state (by rfl)] at h
    exact .inl h
  | dropPin e v _ _ _ _ hsame =>
    rw [hsame.state] at h
    change ((m.setSlot v.slot _).slots i).state.serves at h
    rw [setSlot_congr Slot.state (by rfl)] at h
    exact .inl h
  | lose _ _ _ _ _ _ _ hsame =>
    rw [hsame.state] at h
    exact .inl h
  | claim q j hpc hpc' hempty hsame =>
    rw [hsame.state, slots_setSlot] at h
    split at h
    · cases h
    · exact .inl h
  | empty e v hpc hpc' hsame =>
    rw [hsame.state, slots_setSlot] at h
    split at h
    · cases h
    · exact .inl h
  | publish q j final error hpc hplace hsame =>
    rw [hsame.state, slots_setSlot] at h
    split at h
    · subst_vars
      exact .inr ⟨q, final, error, hpc⟩
    · exact .inl h

end

section
variable {s : State B V Q} {m' : Memory B V Q} {be' : Backend Q}

/-- A slot that another backend works on is neither published nor cleared. -/
theorem Ordered.undisturbed (hord : Ordered s) {b' : B} (hne : b' ≠ b) {i : Fin ccNSlots}
    (hi : (s.backends b').pc.place.slot? = some i) :
    (∀ q n, (s.backends b).pc = .load q i (.create n) → ¬ s.memory.dirLock.free) ∧
      ∀ e v, (s.backends b).pc = .evict e (.clear v) → v.slot ≠ i := by
  -- an evictor keeps all others from the directory
  have hevicts : ∀ v, ((s.backends b').pc.place = .evicting v ∨
      (s.backends b').pc.place = .clearing v ∨ (s.backends b').pc.place = .cleared v) →
      ¬ s.memory.dirLock.free ∧ ¬ (s.backends b).pc.holdsDir := by
    intro v hv
    have hb' := Pc.holdsDir_of_place hv
    refine ⟨fun hfree => ?_, fun hb => hne (hord.holder_unique hb' hb)⟩
    rw [DirLock.free, (hord.at_ b').holds hb'] at hfree
    cases hfree
  constructor
  · intro q n hpc
    cases hplace : (s.backends b').pc.place with
    | elsewhere =>
      rw [hplace] at hi
      cases hi
    | loading j =>
      rw [hplace] at hi
      cases hi
      have hloads := Pc.loads_of_recorded (Pc.recorded_of_place hplace)
      exact absurd (hord.loader hloads (by rw [hpc]; rfl)) hne
    | evicting v => exact (hevicts v (.inl hplace)).1
    | clearing v => exact (hevicts v (.inr (.inl hplace))).1
    | cleared v => exact (hevicts v (.inr (.inr hplace))).1
  · intro e v hpc hv
    have hholds : (s.backends b).pc.holdsDir := by rw [hpc]; rfl
    cases hplace : (s.backends b').pc.place with
    | elsewhere =>
      rw [hplace] at hi
      cases hi
    | loading j =>
      rw [hplace] at hi
      cases hi
      have hclears : (s.backends b).pc.clears = some v.slot := by rw [hpc]; rfl
      exact hord.cleared hclears ((Pc.recorded_of_place hplace).trans (congrArg some hv.symm))
    | evicting v => exact (hevicts v (.inl hplace)).2 hholds
    | clearing v => exact (hevicts v (.inr (.inl hplace))).2 hholds
    | cleared v => exact (hevicts v (.inr (.inr hplace))).2 hholds

/-- What a step keeps of the slots that others work on. -/
theorem Ordered.kept (hord : Ordered s) (hreg : Registers s.memory (s.backends b) c m' be'.pc)
    {b' : B} (hne : b' ≠ b) {i : Fin ccNSlots} (hi : (s.backends b').pc.place.slot? = some i) :
    Kept s.memory m' i :=
  hreg.kept (hord.undisturbed hne hi).1 (hord.undisturbed hne hi).2

theorem current_create (m : Memory B V Q) {a : Area Q} {i : Fin ccNSlots} {slot : Slot B}
    (hslot : a.slot = i) (harea : slot.areaHandle = m.areas.length)
    (hgeneration : slot.generation = a.generation) :
    Current ({ m with areas := m.areas ++ [a] }.setSlot i slot) i := by
  refine ⟨a.tag, ?_, hslot, ?_⟩
  · rw [setSlot_self, harea]
    simp [Memory.tag?, Memory.setSlot]
  · rw [setSlot_self, hgeneration]
    rfl

/-- What the backend that moves works on. -/
theorem Incarnations.own (h : Incarnations s) (hord : Ordered s)
    (hreg : Registers s.memory (s.backends b) c m' be'.pc) : be'.pc.place.Holds m' := by
  have hb := h.place b
  cases hreg with
  | same hsame hplace =>
    obtain hplace | hplace := hplace
    · rw [hplace]
      exact hb.kept fun _ => hsame.kept _
    · rw [hplace]
      trivial
  | name _ _ _ hplace | publish _ _ _ _ _ hplace | dropPin _ _ _ hplace | losePin _ _ _ hplace =>
    rw [hplace]
    trivial
  | claim _ _ _ hpc' | lose _ _ _ _ hpc' =>
    rw [hpc']
    trivial
  | create q i n hpc hpc' herror hdir hsame =>
    rw [hpc']
    exact (current_create s.memory rfl rfl rfl).kept (hsame.kept i)
  | pick e i hpc hpc' hsame =>
    rw [hpc']
    exact (hsame.areaHandle i).symm
  | empty e v hpc hpc' hsame =>
    rw [hpc] at hb
    have hkept : Kept s.memory m' v.slot :=
      .same hsame (.setSlot (.refl _ _) fun _ => ⟨rfl, rfl⟩)
    have hserves := (hord.at_ b).victim (i := v.slot) (by rw [hpc]; rfl)
    rw [hpc']
    exact ⟨Eq.trans hb hkept.areaHandle.symm, (h.live hserves).kept hkept⟩
  | clear e v hpc hpc' hsame =>
    rw [hpc] at hb
    obtain ⟨harea, t, ht, hslot, hgeneration⟩ := hb
    rw [hpc']
    refine ⟨?_, t, ?_, hslot, ?_⟩
    · rw [hsame.areaHandle, setSlot_self]
      exact harea
    · rw [hsame.tag?, hsame.areaHandle, setSlot_self]
      exact ht
    · rw [hsame.generation, setSlot_self, hgeneration]

variable [DecidableEq B]

/-- **The step lemma of incarnations.** -/
theorem Incarnations.facts (h : Incarnations s) (hord : Ordered s)
    (hreg : Registers s.memory (s.backends b) c m' be'.pc) :
    Incarnations ⟨m', Function.update s.backends b be'⟩ where
  live {i} hserves := by
    obtain hold | ⟨q, final, error, hpc⟩ := hreg.serves hserves
    · apply (h.live hold).kept
      apply hreg.kept
      · intro q n hpc
        rw [(hord.at_ b).loads (i := i) (by rw [hpc]; rfl)] at hold
        cases hold
      · intro e v hpc hv
        subst hv
        rw [(hord.at_ b).clears (by rw [hpc]; rfl)] at hold
        cases hold
    · have hb := h.place b
      rw [hpc] at hb
      apply Current.kept hb
      apply hreg.kept
      · intro q n hpc₂
        rw [hpc] at hpc₂
        cases hpc₂
      · intro e v hpc₂
        rw [hpc] at hpc₂
        cases hpc₂
  place b' := by
    by_cases hne : b' = b
    · subst hne
      simpa using h.own hord hreg
    · simp only [Function.update_of_ne hne]
      exact (h.place b').kept fun hi => hord.kept hreg hne hi

theorem Incarnations.step [Fintype B] {codec : Codec V Q} {s s' : State B V Q} {a : Action B V Q}
    (h : Incarnations s) (hord : Ordered s) (hstep : step codec s a = some s') :
    Incarnations s' := by
  cases moved hstep with
  | modify x r ha hkeeps hs =>
    subst hs
    exact ⟨fun hserves => (h.live hserves).kept ⟨rfl, rfl, fun ht => ⟨_, ht, rfl, rfl⟩⟩,
      fun b => (h.place b).kept fun _ => ⟨rfl, rfl, fun ht => ⟨_, ht, rfl, rfl⟩⟩⟩
  | call b r hidle hmay hb hcall hs =>
    subst hs
    exact h.facts hord (call_apart hidle hcall).registers (c := .plain 0)
  | proceed b c r ha hproceed hs =>
    subst hs
    exact h.facts hord (proceed_registers hproceed)

omit [DecidableEq B] in
theorem Incarnations.init (world : Key → Relation V Q) :
    Incarnations (State.init world : State B V Q) :=
  ⟨nofun, fun _ => trivial⟩

end

end

end PgAcorn.SharedCache
