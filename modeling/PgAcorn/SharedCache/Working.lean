import PgAcorn.SharedCache.Handles

/-! What a writer works on.

An insert holds its slot's `wlock` and has found the slot's generation in its handle.
Unless the 32 bits of a generation have come round to that of an older handle, the
slot is then served, and its area is the handle's, until the insert is done. -/
namespace PgAcorn.SharedCache
open Library
open CodeCache (Key ccNSlots SlotState Codec)

section
variable {B V Q : Type}

/-- The handle that the next step of a backend compares with its slot. -/
def Backend.revalidates (be : Backend Q) : Option Handle :=
  match be.pc with
  | .acquire _ _ cc .check | .write _ (.insert ..) (.lock cc) | .resolve _ cc (.recheck ..) =>
    some (be.handles cc)
  | _ => none

/-- A generation that matches is that of the handle's own area: the 32 bits have not
come round. -/
def genuine (s : State B V Q) : Action B V Q → Bool
  | .proceed b _ => ((s.backends b).revalidates).all fun h =>
    decide (h.generation = (s.memory.slots h.slot).generation →
      (s.memory.slots h.slot).areaHandle = h.area)
  | _ => true

/-- The handle's incarnation is served. -/
structure Present (m : Memory B V Q) (h : Handle) : Prop where
  serves : (m.slots h.slot).state.serves
  areaHandle : (m.slots h.slot).areaHandle = h.area
  generation : (m.slots h.slot).generation = h.generation

/-- The state that a load is going to publish. -/
def Pc.final? : Pc Q → Option SlotState
  | .load _ _ (.storeBytes _ _ final _) | .load _ _ (.addTotal _ final _)
  | .load _ _ (.storeState final _) => some final
  | _ => none

/-- The slot whose mapping its loader has entered, and that it still loads. -/
def Pc.entered : Pc Q → Option (Fin ccNSlots)
  | .load _ i p => match p with
    | .start | .create _ | .storeBlocks _ | .storeNblocks _ => none
    | _ => some i
  | _ => none

/-- **Writers**: an incarnation that a backend has a handle on is served, unless the backend
is loading it or it is being cleared, and an insert works on one that is served. -/
structure Writers (s : State B V Q) : Prop where
  settled : ∀ {b x cc i}, (s.backends b).attachFind x = some cc →
    ((s.backends b).handles cc).area = (s.memory.slots i).areaHandle → Current s.memory i →
    (s.memory.slots i).state.serves ∨ (s.backends b).pc.entered = some i ∨
      ∃ b' v, (s.backends b').pc.place = .clearing v ∧ v.slot = i
  final : ∀ {b final}, (s.backends b).pc.final? = some final → final.serves
  present : ∀ {b w}, (s.backends b).pc.works = some w → Present s.memory ((s.backends b).handles w.cc)

variable {m m' : Memory B V Q} {b : B} {be be' : Backend Q} {c : Choice} {pc' : Pc Q}
  {r : Memory B V Q × Backend Q}

/-! ### Incarnations that end -/

/-- A slot that has an incarnation after a step had it before, or has just been
published. -/
theorem Registers.current (hreg : Registers m be c m' pc') (hplace : be.pc.place.Holds m)
    {i : Fin ccNSlots} (hcurrent : Current m' i) : Current m i ∨ pc'.place = .loading i := by
  obtain ⟨t', ht', hslot, hgeneration⟩ := hcurrent
  have hsame : ∀ {m₁ : Memory B V Q}, SameRegistry m₁ m' →
      (m₁.slots i).areaHandle = (m.slots i).areaHandle →
      (m₁.slots i).generation = (m.slots i).generation → (∀ k, m₁.tag? k = m.tag? k) →
      Current m i := by
    intro m₁ hs harea hgen htag
    refine ⟨t', ?_, hslot, ?_⟩
    · rw [← htag, ← harea, ← hs.areaHandle, ← hs.tag?]
      exact ht'
    · rw [hgeneration, hs.generation, hgen]
  cases hreg with
  | same hs _ | pick _ _ _ _ hs => exact .inl (hsame hs rfl rfl fun _ => rfl)
  | name _ _ _ _ _ _ _ hs | claim _ _ _ _ _ hs | publish _ _ _ _ _ _ hs | empty _ _ _ _ hs
  | losePin _ _ _ _ _ _ hs =>
    exact .inl (hsame hs (setSlot_congr Slot.areaHandle (by rfl) i)
      (setSlot_congr Slot.generation (by rfl) i) fun _ => rfl)
  | dropPin e v _ _ _ _ hs =>
    left
    rw [hs.tag?, tag?_unpin, hs.areaHandle] at ht'
    obtain ⟨t, ht, rfl⟩ := Option.map_eq_some_iff.mp ht'
    change m.tag? ((m.setSlot v.slot _).slots i).areaHandle = some t at ht
    rw [setSlot_congr Slot.areaHandle (by rfl)] at ht
    refine ⟨t, ht, ?_, ?_⟩
    · split at hslot <;> exact hslot
    · rw [hs.generation] at hgeneration
      change _ = ((m.setSlot v.slot _).slots i).generation at hgeneration
      rw [setSlot_congr Slot.generation (by rfl)] at hgeneration
      split at hgeneration <;> exact hgeneration
  | lose q j n _ _ _ _ hs =>
    left
    rw [hs.areaHandle, hs.tag?, tag?_append_eq] at ht'
    rw [hs.generation] at hgeneration
    split at ht'
    · cases ht'
      change j = i at hslot
      subst hslot
      change (m.slots j).generation + 1 = (m.slots j).generation at hgeneration
      bv_omega
    · exact ⟨t', ht', hslot, hgeneration⟩
  | create q j n _ hpc' _ _ hs =>
    by_cases hj : i = j
    · subst hj
      right
      rw [hpc']
      rfl
    · left
      rw [hs.areaHandle, hs.tag?, setSlot_ne _ _ hj] at ht'
      replace ht' := (tag?_append_eq m (Area.create q.key j _) _).symm.trans ht'
      rw [hs.generation, setSlot_ne _ _ hj] at hgeneration
      split at ht'
      · cases ht'
        exact absurd hslot.symm hj
      · exact ⟨t', ht', hslot, hgeneration⟩
  | clear e v hpc _ hs =>
    left
    by_cases hv : i = v.slot
    · subst hv
      rw [hpc] at hplace
      exact hplace.2
    · rw [hs.areaHandle, hs.tag?, setSlot_ne _ _ hv] at ht'
      rw [hs.generation, setSlot_ne _ _ hv] at hgeneration
      exact ⟨t', ht', hslot, hgeneration⟩

/-- **What a step does to a slot's state**: nothing, unless it claims the slot, publishes
it or marks it. -/
theorem Registers.state_cases (hreg : Registers m be c m' pc') (i : Fin ccNSlots) :
    (m'.slots i).state = (m.slots i).state ∨
    ((m.slots i).state = .empty ∧ (m'.slots i).state = .loading) ∨
    (∃ q final error, be.pc = .load q i (.storeState final error) ∧
      (m'.slots i).state = final) ∨
    ∃ e v, be.pc = .evict e (.storeState v) ∧ v.slot = i ∧ (m'.slots i).state = .empty := by
  -- another slot is changed
  have hother : ∀ {j : Fin ccNSlots} {slot : Slot B}, i ≠ j →
      SameRegistry (m.setSlot j slot) m' → (m'.slots i).state = (m.slots i).state := by
    intro j slot hj hs
    rw [hs.state, setSlot_ne _ _ hj]
  cases hreg with
  | same hs _ | pick _ _ _ _ hs | lose _ _ _ _ _ _ _ hs => exact .inl (hs.state i)
  | name _ _ _ _ _ _ _ hs | clear _ _ _ _ hs | losePin _ _ _ _ _ _ hs
  | dropPin _ _ _ _ _ _ hs | create _ _ _ _ _ _ _ hs =>
    exact .inl ((hs.state i).trans (setSlot_congr Slot.state (by rfl) i))
  | claim q j _ _ hempty hs =>
    by_cases hj : i = j
    · subst hj
      exact .inr (.inl ⟨hempty, by rw [hs.state, setSlot_self]⟩)
    · exact .inl (hother hj hs)
  | publish q j final error hpc _ hs =>
    by_cases hj : i = j
    · subst hj
      exact .inr (.inr (.inl ⟨q, final, error, hpc, by rw [hs.state, setSlot_self]⟩))
    · exact .inl (hother hj hs)
  | empty e v hpc _ hs =>
    by_cases hv : i = v.slot
    · subst hv
      exact .inr (.inr (.inr ⟨e, v, hpc, rfl, by rw [hs.state, setSlot_self]⟩))
    · exact .inl (hother hv hs)

/-- What is served is so until an evictor marks it. -/
theorem Registers.still_serves (hreg : Registers m be c m' pc') (hat : At m b be)
    {i : Fin ccNSlots} (hserves : (m.slots i).state.serves) :
    (m'.slots i).state.serves ∨ ∃ e v, be.pc = .evict e (.storeState v) ∧ v.slot = i := by
  obtain hsame | ⟨hempty, -⟩ | ⟨q, final, error, hpc, -⟩ | ⟨e, v, hpc, hv, -⟩ :=
    hreg.state_cases i
  · exact .inl (by rwa [hsame])
  · rw [hempty] at hserves
    cases hserves
  · rw [hat.loads (by rw [hpc]; rfl)] at hserves
    cases hserves
  · exact .inr ⟨e, v, hpc, hv⟩

/-- What is not EMPTY is so until an evictor marks it. -/
theorem Registers.still_held (hreg : Registers m be c m' pc')
    (hfinal : ∀ {final}, be.pc.final? = some final → final.serves) {i : Fin ccNSlots}
    (hheld : (m.slots i).state ≠ .empty) :
    (m'.slots i).state ≠ .empty ∨ ∃ e v, be.pc = .evict e (.storeState v) ∧ v.slot = i := by
  obtain hsame | ⟨hempty, -⟩ | ⟨q, final, error, hpc, hstate⟩ | ⟨e, v, hpc, hv, -⟩ :=
    hreg.state_cases i
  · exact .inl (by rwa [hsame])
  · exact absurd hempty hheld
  · have hserves : final.serves := hfinal (by rw [hpc]; rfl)
    left
    rw [hstate]
    rintro rfl
    cases hserves
  · exact .inr ⟨e, v, hpc, hv⟩

variable [DecidableEq B] {codec : Codec V Q}

/-- A load whose mapping is entered goes on until it publishes its slot. -/
theorem proceed_entered (hr : proceed codec m b be c = some r) {i : Fin ccNSlots}
    (hentered : be.pc.entered = some i) : r.2.pc.entered = some i ∨
      ∃ final, be.pc.final? = some final ∧ (r.1.slots i).state = final := by
  cases hpc : be.pc with
  | load q j p =>
    rw [hpc] at hentered
    rw [proceed, hpc] at hr
    cases p with
    | start | create | storeBlocks | storeNblocks => cases hentered
    | storeState final error =>
      cases hr
      cases hentered
      refine .inr ⟨final, rfl, ?_⟩
      rw [setSlot_self]
    | readOther | page | publishPage | storeBytes | addTotal =>
      simp only [load] at hr
      repeat' split at hr
      all_goals cases hr
      all_goals exact .inl hentered
  | _ =>
    rw [hpc] at hentered
    cases hentered

theorem proceed_clearing (hr : proceed codec m b be c = some r) {v : Victim}
    (hplace : be.pc.place = .clearing v) : ∃ e, be.pc = .evict e (.clear v) ∧
      (r.1.slots v.slot).areaHandle = (m.slots v.slot).areaHandle ∧
      (r.1.slots v.slot).generation = (m.slots v.slot).generation + 1 ∧
      ∀ k, r.1.tag? k = m.tag? k := by
  cases hpc : be.pc with
  | evict e p =>
    rw [hpc] at hplace
    rw [proceed, hpc] at hr
    cases p with
    | clear v' =>
      cases hplace
      cases hr
      refine ⟨e, rfl, ?_, ?_, fun _ => rfl⟩
      · rw [setSlot_self]
      · rw [setSlot_self]
    | _ => cases hplace
  | load q j p =>
    rw [hpc] at hplace
    cases p <;> cases hplace
  | _ =>
    rw [hpc] at hplace
    cases hplace

/-- A load publishes its slot READY or PARTIAL. -/
theorem proceed_final (hr : proceed codec m b be c = some r) {final : SlotState}
    (hfinal : r.2.pc.final? = some final) : be.pc.final? = some final ∨ final.serves := by
  cases hpc' : r.2.pc with
  | load q i p' =>
    have hleads := proceed_leads hr
    rw [hpc'] at hleads hfinal
    obtain ⟨p, hpc⟩ | rfl | ⟨n, rfl⟩ := hleads.to_load
    · rw [proceed, hpc] at hr
      rw [hpc]
      cases p with
      | storeNblocks l =>
        obtain rfl | ⟨be₁, -, rfl⟩ := load_storeNblocks hr <;> cases hpc'
        cases hfinal
      | storeBytes | addTotal =>
        cases hr
        cases hpc'
        exact .inl hfinal
      | start | create | storeBlocks | readOther | page | publishPage | storeState =>
        simp only [load] at hr
        repeat' split at hr
        all_goals cases hr
        all_goals cases hpc'
        all_goals cases hfinal
        all_goals exact .inr rfl
    · cases hfinal
    · cases hfinal
  | _ =>
    rw [hpc'] at hfinal
    cases hfinal

/-! ### Inserts -/

omit [DecidableEq B] in
theorem Present.mapping {g h : Handle} (hg : Present m g) (hsame : g.SameMapping h) :
    Present m h := by
  refine ⟨?_, ?_, ?_⟩
  · rw [hsame.slot]
    exact hg.serves
  · rw [hsame.slot, hsame.area]
    exact hg.areaHandle
  · rw [hsame.slot, hsame.generation]
    exact hg.generation

omit [DecidableEq B] in
theorem Present.congr {h : Handle} (hh : Present m h)
    (hentry : (m'.slots h.slot).state = (m.slots h.slot).state ∧
      (m'.slots h.slot).areaHandle = (m.slots h.slot).areaHandle ∧
      (m'.slots h.slot).generation = (m.slots h.slot).generation) : Present m' h := by
  obtain ⟨hstate, harea, hgeneration⟩ := hentry
  refine ⟨?_, harea.trans hh.areaHandle, hgeneration.trans hh.generation⟩
  rw [hstate]
  exact hh.serves

omit [DecidableEq B] in
/-- Only an evictor ends what is served, under the slot's `wlock`. -/
theorem Present.registers {h : Handle} (hh : Present m h) (hreg : Registers m be c m' pc')
    (hat : At m b be) (hevict : ∀ e v, be.pc = .evict e (.storeState v) ∨ be.pc = .evict e (.clear v) →
      v.slot ≠ h.slot) : Present m' h := by
  -- a change of another slot, or of something else
  have hother : ∀ {j slot}, j ≠ h.slot → SameRegistry (m.setSlot j slot) m' → Present m' h := by
    intro j slot hj hs
    apply hh.congr
    rw [hs.state, hs.areaHandle, hs.generation, setSlot_ne _ _ hj.symm]
    exact ⟨rfl, rfl, rfl⟩
  have hserves := hh.serves
  cases hreg with
  | same hs _ | pick _ _ _ _ hs | lose _ _ _ _ _ _ _ hs =>
    exact hh.congr ⟨hs.state _, hs.areaHandle _, hs.generation _⟩
  | name _ _ _ _ _ _ _ hs | losePin _ _ _ _ _ _ hs =>
    apply hh.congr
    rw [hs.state, hs.areaHandle, hs.generation]
    exact ⟨setSlot_congr Slot.state (by rfl) _, setSlot_congr Slot.areaHandle (by rfl) _,
      setSlot_congr Slot.generation (by rfl) _⟩
  | dropPin e v _ _ _ _ hs =>
    apply hh.congr
    rw [hs.state, hs.areaHandle, hs.generation]
    exact ⟨setSlot_congr Slot.state (by rfl) _, setSlot_congr Slot.areaHandle (by rfl) _,
      setSlot_congr Slot.generation (by rfl) _⟩
  | claim q j _ _ hempty hs =>
    apply hother _ hs
    intro hj
    rw [← hj, hempty] at hserves
    cases hserves
  | create q j _ hpc _ _ _ hs =>
    have hne : h.slot ≠ j := by
      intro hj
      rw [hj, hat.loads (by rw [hpc]; rfl)] at hserves
      cases hserves
    apply hh.congr
    rw [hs.state, hs.areaHandle, hs.generation, setSlot_ne _ _ hne]
    exact ⟨rfl, rfl, rfl⟩
  | publish q j _ _ hpc _ hs =>
    apply hother _ hs
    intro hj
    rw [← hj, hat.loads (by rw [hpc]; rfl)] at hserves
    cases hserves
  | empty e v hpc _ hs => exact hother (hevict e v (.inl hpc)) hs
  | clear e v hpc _ hs => exact hother (hevict e v (.inr hpc)) hs

omit [DecidableEq B] in
theorem Pc.uses_of_works {pc : Pc Q} {w : Insert Q} (h : pc.works = some w) :
    pc.uses = some (w.key, w.cc) := by
  cases pc with
  | drain k i cc p => cases k <;> cases h <;> rfl
  | insert | grow =>
    cases h
    rfl
  | _ => cases h

omit [DecidableEq B] in
theorem Backend.locks_of_works (hdrains : be.drainsFor) {w : Insert Q} (h : be.pc.works = some w) :
    be.locks = some (be.handles w.cc).slot := by
  rw [Backend.locks]
  cases hpc : be.pc with
  | drain k i cc p =>
    rw [hpc] at h
    rw [Backend.drainsFor, hpc] at hdrains
    cases k <;> cases h
    · exact congrArg some hdrains.2
    · exact congrArg some hdrains.2
  | insert | grow =>
    rw [hpc] at h
    cases h
    rfl
  | _ =>
    rw [hpc] at h
    cases h

omit [DecidableEq B] in
theorem Backend.locks_of_evict {e : Evictor} {v : Victim}
    (h : be.pc = .evict e (.storeState v) ∨ be.pc = .evict e (.clear v)) :
    be.locks = some v.slot := by
  obtain h | h := h <;> rw [Backend.locks, h]

/-- The entry of a working insert goes on being the same mapping. -/
theorem proceed_works (hplaced : be.Placed) (hr : proceed codec m b be c = some r) {w : Insert Q}
    (hw : r.2.pc.works = some w) : (be.handles w.cc).SameMapping (r.2.handles w.cc) := by
  have huses := (proceed_placed hplaced hr).uses (Pc.uses_of_works hw)
  obtain ⟨-, hsame⟩ | ⟨g, hg, -⟩ := (proceed_refers hplaced hr).entry hplaced huses
  · exact hsame
  · have hleads := (proceed_leads hr).to_works hw
    cases hg with
    | attach hpc | load hpc =>
      rw [hpc] at hleads
      obtain hleads | ⟨hleads, -⟩ := hleads <;> cases hleads

/-- What an insert has found when it has locked its slot. -/
theorem proceed_lockForWrite (hr : proceed codec m b be c = some r) {w : Insert Q}
    (hpc : be.pc = .write w.key (.insert w.t w.dim w.hit) (.lock w.cc))
    (hpc' : r.2.pc = .insert w .ensureDir) :
    (m.slots (be.handles w.cc).slot).wlock = none ∧
      (be.handles w.cc).generation = (m.slots (be.handles w.cc).slot).generation := by
  rw [proceed, hpc] at hr
  simp only [writerAttach, lockForWrite] at hr
  split at hr
  · cases hr
    cases hpc'
  · split at hr
    · cases hr
    · rename_i hlock
      split at hr
      · cases hr
        cases hpc'
      · rename_i hsame
        simp only [not_or, not_not] at hsame
        exact ⟨by simpa using hlock, hsame.1⟩

/-! ### Runs -/

variable {s s' : State B V Q}

omit [DecidableEq B] in
theorem Pc.place_of_entered {pc : Pc Q} {i : Fin ccNSlots} (h : pc.entered = some i) :
    pc.place = .loading i := by
  cases pc with
  | load q j p => cases p <;> cases h <;> rfl
  | _ => cases h

omit [DecidableEq B] in
/-- An incarnation that an insert finds is served. -/
theorem Writers.find (h : Writers s) (hord : Ordered s) (hhandles : Handles s) {x : Key} {cc : Nat}
    (hfind : (s.backends b).attachFind x = some cc)
    (hplace : (s.backends b).pc.place = .elsewhere)
    (hlock : (s.memory.slots ((s.backends b).handles cc).slot).wlock = none)
    (hgeneration : ((s.backends b).handles cc).generation =
      (s.memory.slots ((s.backends b).handles cc).slot).generation)
    (harea : (s.memory.slots ((s.backends b).handles cc).slot).areaHandle =
      ((s.backends b).handles cc).area) : Present s.memory ((s.backends b).handles cc) := by
  obtain ⟨t, ht, hslot, hgen⟩ := ((hhandles.known b).issued hfind).tag
  have hcurrent : Current s.memory ((s.backends b).handles cc).slot := by
    refine ⟨t, ?_, hslot, hgen.trans hgeneration⟩
    rw [harea]
    exact ht
  refine ⟨?_, harea, hgeneration.symm⟩
  obtain hserves | hentered | ⟨b', v, hb', hv⟩ := h.settled hfind harea.symm hcurrent
  · exact hserves
  · -- its loader is no writer
    have hloading := Pc.place_of_entered hentered
    rw [hplace] at hloading
    cases hloading
  · -- its evictor would hold the lock
    have hlocked := (hord.at_ b').locks (i := v.slot) (by
      cases hpc : (s.backends b').pc with
      | evict e p =>
        rw [hpc] at hb'
        cases p <;> cases hb'
        rw [Backend.locks, hpc]
      | load q i p =>
        rw [hpc] at hb'
        cases p <;> cases hb'
      | _ =>
        rw [hpc] at hb'
        cases hb')
    rw [hv, hlock] at hlocked
    cases hlocked

omit [DecidableEq B] in
/-- An area that is there before a step, and the slot whose area it is after the step. -/
theorem Incarnations.current_before (hinc : Incarnations s)
    (hreg : Registers s.memory (s.backends b) c m' pc') {k : Nat} {t : Tag}
    (ht : s.memory.tag? k = some t) {i : Fin ccNSlots} (harea : k = (m'.slots i).areaHandle)
    (hcurrent : Current m' i) : Current s.memory i ∧ k = (s.memory.slots i).areaHandle := by
  have hplace := hinc.place b
  have hold : (m'.slots i).areaHandle ≠ s.memory.areas.length := by
    intro hnew
    simp [Memory.tag?, harea, hnew] at ht
  obtain hsame | hnew := hreg.area i
  · refine ⟨?_, harea.trans hsame⟩
    obtain hbefore | hloading := hreg.current hplace hcurrent
    · exact hbefore
    · obtain ⟨hloading, -⟩ | hnew := hreg.loading hloading
      · rw [hloading] at hplace
        exact hplace
      · exact absurd hnew hold
  · exact absurd hnew hold

/-- An incarnation that a handle is on is served, loaded by the handle's backend or cleared,
after a step too: the handle was there before. -/
theorem Writers.settled_before (h : Writers s) (hstanding : Standing s)
    (hr : proceed codec s.memory b (s.backends b) c = some r) {b' : B} {x : Key} {cc : Nat}
    {i : Fin ccNSlots} (hfind : (s.backends b').attachFind x = some cc)
    (harea : ((s.backends b').handles cc).area = (r.1.slots i).areaHandle)
    (hcurrent : Current r.1 i) : (r.1.slots i).state.serves ∨
      (Function.update s.backends b r.2 b').pc.entered = some i ∨
        ∃ b'' v, (Function.update s.backends b r.2 b'').pc.place = .clearing v ∧ v.slot = i := by
  have hreg := proceed_registers hr
  obtain ⟨t, ht, -⟩ := ((hstanding.handles.known b').issued hfind).tag
  obtain ⟨hold, hbefore⟩ := hstanding.incarnations.current_before hreg ht harea hcurrent
  obtain hserves | hentered | ⟨b'', v, hclearing, hv⟩ := h.settled hfind hbefore hold
  · -- a slot that is no longer served has been marked by this step
    obtain hserves | ⟨e, v, hpc, hv⟩ := hreg.still_serves (hstanding.ordered.at_ b) hserves
    · exact .inl hserves
    · rw [proceed, hpc] at hr
      cases hr
      exact .inr (.inr ⟨b, v, by rw [Function.update_self]; rfl, hv⟩)
  · by_cases hne : b' = b
    · subst hne
      obtain hentered | ⟨final, hfinal, hstate⟩ := proceed_entered hr hentered
      · exact .inr (.inl (by rwa [Function.update_self]))
      · left
        rw [hstate]
        exact h.final hfinal
    · exact .inr (.inl (by rwa [Function.update_of_ne hne]))
  · by_cases hne : b'' = b
    · subst hne
      obtain ⟨e, -, hkept, hgeneration, htags⟩ := proceed_clearing hr hclearing
      subst hv
      obtain ⟨t, ht, -, hgen⟩ := hold
      obtain ⟨t', ht', -, hgen'⟩ := hcurrent
      rw [hkept, htags, ht] at ht'
      cases ht'
      rw [hgeneration, hgen] at hgen'
      bv_omega
    · exact .inr (.inr ⟨b'', v, by rwa [Function.update_of_ne hne], hv⟩)

/-- The same of any handle: what an attachment stores is on a slot that is served, and what a
loader stores on the slot that it goes on loading. -/
theorem Writers.settled_step (h : Writers s) (hstanding : Standing s)
    (hr : proceed codec s.memory b (s.backends b) c = some r) {b' : B} {x : Key} {cc : Nat}
    {i : Fin ccNSlots} (hfind : (Function.update s.backends b r.2 b').attachFind x = some cc)
    (harea : ((Function.update s.backends b r.2 b').handles cc).area = (r.1.slots i).areaHandle)
    (hcurrent : Current r.1 i) : (r.1.slots i).state.serves ∨
      (Function.update s.backends b r.2 b').pc.entered = some i ∨
        ∃ b'' v, (Function.update s.backends b r.2 b'').pc.place = .clearing v ∧ v.slot = i := by
  have hplaced := hstanding.placed b
  by_cases hne : b' = b
  · subst hne
    simp only [Function.update_self] at hfind harea
    obtain ⟨hfind', hsame⟩ | ⟨g, hg, -, hsame⟩ := (proceed_refers hplaced hr).entry hplaced hfind
    · exact h.settled_before hstanding hr hfind' (hsame.area.symm.trans harea) hcurrent
    · have hreg := proceed_registers hr
      have hinc := hstanding.incarnations
      have hknown := hstanding.handles.known b'
      have harea' := hsame.area.symm.trans harea
      -- the slot that the handle is stored for is the one with the area
      have hslot : ∀ {j}, Current s.memory j → (s.memory.slots j).areaHandle = g.area → j = i := by
        intro j hj hareaj
        obtain ⟨t, ht, -⟩ := id hj
        rw [hareaj] at ht
        obtain ⟨hi, hareai⟩ := hinc.current_before hreg ht harea' hcurrent
        exact hj.unique hi (hareaj.trans hareai)
      cases hg with
      | @attach k j area dim generation dp hpc =>
        have ho := hknown.attaching (.inr ⟨dp, hpc⟩)
        obtain rfl := hslot (hinc.live ho.serves) ho.areaHandle
        obtain hserves | ⟨e, v, hpc', -⟩ :=
          hreg.still_serves (hstanding.ordered.at_ b') ho.serves
        · exact .inl hserves
        · cases hpc.symm.trans hpc'
      | @load q j l hpc =>
        have hplace := hinc.place b'
        rw [hpc] at hplace
        obtain rfl := hslot hplace (hknown.loading hpc rfl).1
        have hr' := hr
        rw [proceed, hpc] at hr'
        obtain rfl | ⟨be₁, -, rfl⟩ := load_storeNblocks hr'
        · exact h.settled_before hstanding hr hfind harea hcurrent
        · exact .inr (.inl (by rw [Function.update_self]; rfl))
  · simp only [Function.update_of_ne hne] at hfind harea
    exact h.settled_before hstanding hr hfind harea hcurrent

/-- **The step lemma of writers.** -/
theorem Writers.step [Fintype B] {a : Action B V Q} (h : Writers s) (hstanding : Standing s)
    (hok : genuine s a) (hstep : step codec s a = some s') : Writers s' := by
  cases moved hstep with
  | modify x r ha hkeeps hs =>
    subst hs
    exact ⟨h.settled, h.final, fun hw => (h.present hw).congr ⟨rfl, rfl, rfl⟩⟩
  | call b r hidle hmay hb hcall hs =>
    subst hs
    obtain ⟨w, hw⟩ := call_world hcall
    have henters := call_enters hidle hcall
    -- a call begins where it neither loads, nor clears, nor inserts
    have hpc : r.2.pc.place = .elsewhere ∧ r.2.pc.works = none ∧ r.2.pc.final? = none := by
      generalize r.2.pc = pc' at henters
      cases henters <;> exact ⟨rfl, rfl, rfl⟩
    have hother : ∀ {b'}, (s.backends b').pc.place ≠ .elsewhere → b' ≠ b := by
      intro b' hplace hb'
      subst hb'
      rw [hidle] at hplace
      exact hplace rfl
    rw [hw]
    refine ⟨fun {b' x cc i} hfind harea hcurrent => ?_, fun {b' final} hfinal => ?_,
      fun {b' w} hwork => ?_⟩
    · obtain ⟨cc', hfind', harea'⟩ : ∃ cc', (s.backends b').attachFind x = some cc' ∧
          ((s.backends b').handles cc').area = (s.memory.slots i).areaHandle := by
        by_cases hne : b' = b
        · subst hne
          simp only [Function.update_self] at hfind harea
          obtain ⟨hfind', hsame⟩ | ⟨g, hg, -⟩ :=
            (call_refers hidle hcall).entry (hstanding.placed b') hfind
          · exact ⟨cc, hfind', hsame.area.symm.trans harea⟩
          · cases hg <;> rename_i hload <;> cases hidle.symm.trans hload
        · simp only [Function.update_of_ne hne] at hfind harea
          exact ⟨cc, hfind, harea⟩
      obtain hserves | hentered | ⟨b'', v, hb'', hv⟩ := h.settled hfind' harea' hcurrent
      · exact .inl hserves
      · have hne : b' ≠ b := hother fun hplace => by
          rw [Pc.place_of_entered hentered] at hplace
          cases hplace
        exact .inr (.inl (by simpa only [Function.update_of_ne hne] using hentered))
      · have hne : b'' ≠ b := hother (by rw [hb'']; nofun)
        exact .inr (.inr ⟨b'', v, by simpa only [Function.update_of_ne hne] using hb'', hv⟩)
    · by_cases hne : b' = b
      · subst hne
        simp only [Function.update_self, hpc.2.2] at hfinal
        cases hfinal
      · simp only [Function.update_of_ne hne] at hfinal
        exact h.final hfinal
    · by_cases hne : b' = b
      · subst hne
        simp only [Function.update_self, hpc.2.1] at hwork
        cases hwork
      · simp only [Function.update_of_ne hne] at hwork ⊢
        exact (h.present hwork).congr ⟨rfl, rfl, rfl⟩
  | proceed b c r ha hproceed hs =>
    subst ha hs
    refine ⟨fun hfind harea hcurrent => h.settled_step hstanding hproceed hfind harea hcurrent,
      fun {b' final} hfinal => ?_, fun {b' w} hw => ?_⟩
    · by_cases hne : b' = b
      · subst hne
        simp only [Function.update_self] at hfinal
        obtain hold | hserves := proceed_final hproceed hfinal
        · exact h.final hold
        · exact hserves
      · simp only [Function.update_of_ne hne] at hfinal
        exact h.final hfinal
    · have hreg := proceed_registers hproceed
      have hat := hstanding.ordered.at_ b
      by_cases hne : b' = b
      · subst hne
        simp only [Function.update_self] at hw ⊢
        apply Present.mapping _ (proceed_works (hstanding.placed b') hproceed hw)
        obtain hold | ⟨hpc, hpc'⟩ := (proceed_leads hproceed).to_works hw
        · apply (h.present hold).registers hreg hat
          intro e v hpc
          obtain hpc | hpc := hpc <;> rw [hpc] at hold <;> cases hold
        · obtain ⟨hlock, hgeneration⟩ := proceed_lockForWrite hproceed hpc hpc'
          have hfind : (s.backends b').attachFind w.key = some w.cc :=
            (hstanding.placed b').uses (by rw [hpc]; rfl)
          have hpresent := h.find hstanding.ordered hstanding.handles hfind (by rw [hpc]; rfl) hlock
            hgeneration (by
              simp only [genuine, Backend.revalidates, hpc, Option.all_some, decide_eq_true_eq] at hok
              exact hok hgeneration)
          apply hpresent.registers hreg hat
          intro e v hpc'
          obtain hpc' | hpc' := hpc' <;> rw [hpc] at hpc' <;> cases hpc'
      · simp only [Function.update_of_ne hne] at hw ⊢
        apply (h.present hw).registers hreg hat
        intro e v hpc hv
        -- the evictor has the lock, and so does the insert
        have hlocks := hat.locks (Backend.locks_of_evict hpc)
        have hlocks' := (hstanding.ordered.at_ b').locks
          (Backend.locks_of_works (hstanding.ordered.at_ b').drains hw)
        rw [hv, hlocks'] at hlocks
        exact hne (Option.some.inj hlocks)

omit [DecidableEq B] in
theorem Writers.init (world : Key → Relation V Q) : Writers (State.init world : State B V Q) where
  settled hfind := by cases hfind
  final h := by cases h
  present h := by cases h

end

end PgAcorn.SharedCache
