import PgAcorn.SharedCache.Incarnation
import PgAcorn.SharedCache.References
import PgAcorn.SharedCache.Flow

/-! The attachments of open scans.

An entry of the attach table is removed when its incarnation is found gone, without a
look at the scans that are open on it. A scan that took its reference between an
evictor's check and its mark is open on such an incarnation: the next lookup of its
index detaches the area under it, and so does an eviction of its index by its own
backend. Otherwise the entry of an open scan stays. -/
namespace PgAcorn.SharedCache
open Library
open CodeCache (Key ccNSlots SlotState Codec plainCodec indexX firstSlot)

section
variable {B V Q : Type}

/-- Every open scan has the entry it was given, and the entry maps the incarnation
that the scan was given it for. -/
def ScansAttached (s : State B V Q) : Prop :=
  ∀ b, ∀ sc ∈ (s.backends b).scans,
    (s.backends b).attachFind sc.begun.key = some sc.cc ∧
      ((s.backends b).handles sc.cc).key = sc.begun.key ∧ ((s.backends b).handles sc.cc).mapped ∧
      ((s.backends b).handles sc.cc).slot = sc.slot ∧
      ((s.backends b).handles sc.cc).area = sc.area ∧
      ((s.backends b).handles sc.cc).generation = sc.generation

/-- The index whose entry a backend is about to revalidate. -/
def Pc.looksUp : Pc Q → Option Key
  | .begin q .find | .acquire q true _ .inc | .acquire q true _ .check => some q.key
  | .write x _ .find => some x
  | _ => none

/-- A write does not look where the cache has no budget. -/
def Backend.looksUp (be : Backend Q) : Option Key :=
  match be.pc with
  | .write .. => if be.sizeMb = 0 then none else be.pc.looksUp
  | _ => be.pc.looksUp

/-- The index whose entry a backend removes before it does anything else. -/
def Pc.drops : Pc Q → Option Key
  | .acquire q true _ .leave => some q.key
  | .evict _ p => match p with
    | .clear v | .storeNblocks v | .storeBlocks v | .subTotal v | .readScans v | .dropPin v =>
      some v.key
    | _ => none
  | _ => none

/-- The open scans of an index are on a live incarnation. -/
def liveScans (slots : Fin ccNSlots → Slot B) (be : Backend Q) (x : Key) : Bool :=
  be.scans.all fun sc => decide (sc.begun.key ≠ x) || stillLive slots (be.handles sc.cc)

/-- A backend looks up an index only while its scans of the index are on a live
incarnation; and a slot is evicted only when no lookup with a scan open on the slot is
under way, by a backend that has no scan of the index. -/
def keepsAttached [Fintype B] (s : State B V Q) : Action B V Q → Bool
  | .beginScan b x _ _ => liveScans s.memory.slots (s.backends b) x
  | .insert b x _ _ _ | .bulkdelete b x _ =>
    decide ((s.backends b).sizeMb = 0) || liveScans s.memory.slots (s.backends b) x
  | .proceed b _ =>
    match (s.backends b).pc with
    | .evict _ (.storeState v) =>
      ((s.backends b).scans.all fun sc => decide (sc.begun.key ≠ v.key)) &&
        decide (∀ b', ∀ sc ∈ (s.backends b').scans,
          (s.backends b').looksUp = some sc.begun.key → sc.slot ≠ v.slot)
    | _ => true
  | _ => true

/-! ### Live handles -/

theorem stillLive_iff {slots : Fin ccNSlots → Slot B} {h : Handle} :
    stillLive slots h ↔ h.generation = (slots h.slot).generation ∧ (slots h.slot).key = h.key ∧
      (slots h.slot).state.serves := by
  simp [stillLive, and_assoc]

theorem stillLive_congr {slots slots' : Fin ccNSlots → Slot B} {h : Handle}
    (hgeneration : (slots' h.slot).generation = (slots h.slot).generation)
    (hkey : (slots' h.slot).key = (slots h.slot).key)
    (hstate : (slots' h.slot).state = (slots h.slot).state) (hlive : stillLive slots h) :
    stillLive slots' h := by
  rw [stillLive_iff] at hlive ⊢
  rw [hgeneration, hkey, hstate]
  exact hlive

variable {m m' : Memory B V Q} {c : Choice} {pc' : Pc Q} {b : B} {be be' : Backend Q}

theorem SameRegistry.stillLive {h : Handle} (hsame : SameRegistry m m')
    (hlive : stillLive m.slots h) : stillLive m'.slots h :=
  stillLive_congr (hsame.generation _) (hsame.key _) (hsame.state _) hlive

/-- A live incarnation ends with the mark of an evictor. -/
theorem Registers.stillLive (hreg : Registers m be c m' pc') (hat : At m b be) {h : Handle}
    (hvalid : h.key.isValid) (hlive : stillLive m.slots h)
    (hempty : ∀ e v, be.pc = .evict e (.storeState v) → v.slot ≠ h.slot) :
    stillLive m'.slots h := by
  obtain ⟨-, hkey, hserves⟩ := stillLive_iff.mp hlive
  -- a change of another slot
  have hother : ∀ {i slot}, h.slot ≠ i → SharedCache.stillLive (m.setSlot i slot).slots h := by
    intro i slot hne
    apply stillLive_congr _ _ _ hlive
    all_goals rw [setSlot_ne _ _ hne]
  have hpinned : ∀ {i}, SharedCache.stillLive
      (m.setSlot i { m.slots i with areaPinned := false }).slots h := by
    intro i
    apply stillLive_congr _ _ _ hlive
    · exact setSlot_congr Slot.generation (by rfl) _
    · exact setSlot_congr Slot.key (by rfl) _
    · exact setSlot_congr Slot.state (by rfl) _
  cases hreg with
  | same hsame _ | pick _ _ _ _ hsame => exact hsame.stillLive hlive
  | name q i _ _ _ hfree _ hsame =>
    apply hsame.stillLive
    apply hother
    intro hi
    subst hi
    rw [hkey] at hfree
    simp [Key.isValid, hfree] at hvalid
  | claim q i _ _ hstate hsame =>
    apply hsame.stillLive
    apply hother
    intro hi
    subst hi
    rw [hstate] at hserves
    cases hserves
  | lose _ _ _ _ _ _ _ hsame => exact hsame.stillLive hlive
  | create q i _ hpc _ _ _ hsame =>
    apply hsame.stillLive
    apply hother
    intro hi
    subst hi
    rw [hat.loads (by rw [hpc]; rfl)] at hserves
    cases hserves
  | publish q i _ _ hpc _ hsame =>
    apply hsame.stillLive
    apply hother
    intro hi
    subst hi
    rw [hat.loads (by rw [hpc]; rfl)] at hserves
    cases hserves
  | empty e v hpc _ hsame =>
    apply hsame.stillLive
    exact hother (Ne.symm (hempty e v hpc))
  | clear e v hpc _ hsame =>
    apply hsame.stillLive
    apply hother
    intro hi
    rw [hi, hat.clears (by rw [hpc]; rfl)] at hserves
    cases hserves
  | dropPin e v _ _ _ _ hsame =>
    apply hsame.stillLive
    exact hpinned
  | losePin e v _ _ _ _ hsame =>
    apply hsame.stillLive
    exact hpinned

/-! ### Lookups -/

theorem Pc.looksUp_of_backend {x : Key} (h : be.looksUp = some x) : be.pc.looksUp = some x := by
  rw [Backend.looksUp] at h
  split at h
  · split at h
    · cases h
    · exact h
  · exact h

/-- A lookup goes on from its revalidation to its reference. -/
theorem Leads.looksUp {pc pc' : Pc Q} (h : Leads pc pc') {x : Key} (hx : pc'.looksUp = some x) :
    (∃ q cc, pc = .begin q .find ∧ pc' = .acquire q true cc .inc ∧ x = q.key) ∨
      ∃ q cc p, pc = .acquire q true cc p ∧ pc' = .acquire q true cc .check ∧ x = q.key := by
  cases h with
  | cached =>
    cases hx
    exact .inl ⟨_, _, rfl, rfl, rfl⟩
  | @acquire q cached cc p p' hne =>
    cases cached <;> cases p' <;> cases hx
    · exact absurd rfl hne
    · exact .inr ⟨_, _, _, rfl, rfl, rfl⟩
  | @begin q p p' hne =>
    cases p' <;> cases hx
    exact absurd rfl hne
  | @write x w p p' hne =>
    cases p' <;> cases hx
    exact absurd rfl hne
  | @attached k p cc => cases k <;> cases hx
  | @released k i cc p => cases k <;> cases hx
  | _ => cases hx

theorem drops_attached (k : AttachFor Q) (cc : Nat) : (k.attached cc).drops = none := by
  cases k <;> rfl

theorem drops_after (k : Release) : (k.after : Pc Q).drops = none := by cases k <;> rfl

variable [DecidableEq B] {codec : Codec V Q} {r : Memory B V Q × Backend Q}

/-- A step that leaves a backend looking up an index found it doing so. -/
theorem proceed_looksUp (hr : proceed codec m b be c = some r) {x : Key}
    (hx : r.2.looksUp = some x) :
    be.looksUp = some x ∧ r.2.scans = be.scans ∧ r.2.handles = be.handles := by
  obtain ⟨q, cc, hpc, hpc', rfl⟩ | ⟨q, cc, p, hpc, hpc', rfl⟩ :=
    (proceed_leads hr).looksUp (Pc.looksUp_of_backend hx)
  · rw [proceed, hpc] at hr
    simp only [beginScan] at hr
    repeat' split at hr
    all_goals cases hr
    · cases hpc'
    · exact ⟨by simp [Backend.looksUp, hpc, Pc.looksUp], rfl, rfl⟩
    · cases hpc'
  · rw [proceed, hpc] at hr
    cases p with
    | inc =>
      cases hr
      exact ⟨by simp [Backend.looksUp, hpc, Pc.looksUp], rfl, rfl⟩
    | check | leave | readBlocks | readNblocks =>
      simp only [scanAcquire] at hr
      repeat' split at hr
      all_goals
        cases hr
        cases hpc'

/-- What a backend is about to remove it has found gone, or evicts. -/
theorem proceed_drops (hr : proceed codec m b be c = some r) {x : Key}
    (hx : r.2.pc.drops = some x) : r.2.scans = be.scans ∧
      (be.pc.drops = some x ∨ (∃ e v, be.pc = .evict e (.storeState v) ∧ x = v.key) ∨
        ∃ q cc, be.pc = .acquire q true cc .check ∧ x = q.key ∧
          ¬ stillLive m.slots (be.handles cc)) := by
  have hleads := proceed_leads hr
  cases hpc : be.pc with
  | acquire q cached cc p =>
    rw [proceed, hpc] at hr
    cases p with
    | check =>
      simp only [scanAcquire] at hr
      split at hr
      · cases hr
        cases cached <;> cases hx
      · rename_i hstale
        cases hr
        cases cached <;> cases hx
        exact ⟨rfl, .inr (.inr ⟨q, cc, rfl, rfl, hstale⟩)⟩
    | inc | leave | readBlocks | readNblocks =>
      cases hr
      cases cached <;> cases hx
  | evict e p =>
    rw [proceed, hpc] at hr
    cases p with
    | storeState v =>
      cases hr
      cases hx
      exact ⟨rfl, .inr (.inl ⟨e, v, rfl, rfl⟩)⟩
    | lock | choose | read | wlock | clear | storeNblocks | storeBlocks | subTotal | readScans
    | dropPin =>
      simp only [evictSlot] at hr
      repeat' split at hr
      all_goals cases hr
      all_goals first
        | exact ⟨rfl, .inl hx⟩
        | (cases e <;> cases hx)
  | idle | wild | begin | load | attach | release | drain | resolve | write | insert | grow
  | invalidate =>
    rw [hpc] at hleads
    generalize r.2.pc = pc' at hleads hx
    cases hleads <;> first
      | cases hx
      | (rw [drops_attached] at hx; cases hx)
      | (rw [drops_after] at hx; cases hx)

/-! ### The invariant -/

/-- What a backend knows of its open scans. -/
structure Lookups (slots : Fin ccNSlots → Slot B) (be : Backend Q) : Prop where
  held : be.Held
  looked : ∀ {x}, be.looksUp = some x → liveScans slots be x
  dropped : ∀ {x}, be.pc.drops = some x → ∀ sc ∈ be.scans, sc.begun.key ≠ x

omit [DecidableEq B] in
theorem liveScans_iff {slots : Fin ccNSlots → Slot B} {x : Key} :
    liveScans slots be x ↔
      ∀ sc ∈ be.scans, sc.begun.key = x → stillLive slots (be.handles sc.cc) := by
  simp [liveScans, imp_iff_not_or]

omit [DecidableEq B] in
/-- No step forgets the entry of an open scan. -/
theorem Lookups.forgets {slots : Fin ccNSlots → Slot B} (h : Lookups slots be) {x : Key}
    (hx : be.forgets slots = some x) : ∀ sc ∈ be.scans, sc.begun.key ≠ x := by
  -- an entry that was found gone, while its index was looked up
  have hstale : ∀ {y}, be.looksUp = some y → Backend.forgets.stale be slots y = some x →
      ∀ sc ∈ be.scans, sc.begun.key ≠ x := by
    intro y hy hforget sc hsc hkey
    obtain ⟨cc, hfind, hgone⟩ := Option.bind_eq_some_iff.mp hforget
    split at hgone
    · cases hgone
    · rename_i hlive
      cases hgone
      have hcc := (h.held sc hsc).1
      rw [hkey, hfind] at hcc
      cases hcc
      exact hlive (liveScans_iff.mp (h.looked hy) sc hsc hkey)
  rw [Backend.forgets] at hx
  split at hx
  · rename_i q hpc
    exact hstale (by simp [Backend.looksUp, hpc, Pc.looksUp]) hx
  · rename_i q cc hpc
    cases hx
    exact h.dropped (by rw [hpc]; rfl)
  · rename_i y w hpc
    split at hx
    · cases hx
    · rename_i hsize
      exact hstale (by simp [Backend.looksUp, hpc, hsize, Pc.looksUp]) hx
  · rename_i e v hpc
    split at hx <;> cases hx
    exact h.dropped (by rw [hpc]; rfl)
  · rename_i e v hpc
    cases hx
    exact h.dropped (by rw [hpc]; rfl)
  · cases hx

omit [DecidableEq B] in
/-- What is live for a lookup stays live, unless its slot is evicted. -/
theorem liveScans_registers (hreg : Registers m be c m' pc') (hat : At m b be) {be₁ : Backend Q}
    (hheld : be₁.Held) (hplaced : be₁.Placed) {x : Key} (hlive : liveScans m.slots be₁ x)
    (hempty : ∀ e v, be.pc = .evict e (.storeState v) → ∀ sc ∈ be₁.scans, sc.begun.key = x →
      sc.slot ≠ v.slot) : liveScans m'.slots be₁ x := by
  rw [liveScans_iff] at hlive ⊢
  intro sc hsc hkey
  obtain ⟨hfind, hslot, -⟩ := hheld sc hsc
  obtain ⟨hhandle, -, hvalid⟩ := hplaced.table.entry (mem_of_attachFind hfind)
  apply hreg.stillLive hat
  · rw [hhandle]
    exact hvalid
  · exact hlive sc hsc hkey
  · intro e v hpc heq
    rw [hslot] at heq
    exact hempty e v hpc sc hsc hkey heq.symm

/-- The backend that moves. -/
theorem Lookups.proceeded (h : Lookups m.slots be) (hplaced : be.Placed) (hat : At m b be)
    (hr : proceed codec m b be c = some r)
    (hevict : ∀ e v, be.pc = .evict e (.storeState v) → ∀ sc ∈ be.scans, sc.begun.key ≠ v.key) :
    Lookups r.1.slots r.2 where
  held := h.held.refers hplaced (proceed_refers hplaced hr) fun _ hx => h.forgets hx
  looked {x} hx := by
    obtain ⟨hlooks, hscans, hhandles⟩ := proceed_looksUp hr hx
    have hlive := liveScans_registers (proceed_registers hr) hat h.held hplaced (h.looked hlooks) fun e v hpc sc hsc hkey => by
      rw [Backend.looksUp, hpc] at hlooks
      cases hlooks
    rw [liveScans, hscans, hhandles]
    exact hlive
  dropped {x} hx sc hsc := by
    obtain ⟨hscans, hold | ⟨e, v, hpc, rfl⟩ | ⟨q, cc, hpc, rfl, hstale⟩⟩ := proceed_drops hr hx
    · rw [hscans] at hsc
      exact h.dropped hold sc hsc
    · rw [hscans] at hsc
      exact hevict e v hpc sc hsc
    · rw [hscans] at hsc
      intro hkey
      -- the scan is open on the entry that was found gone
      have hfind : be.attachFind q.key = some cc := hplaced.uses (by rw [hpc]; rfl)
      have hcc := (h.held sc hsc).1
      rw [hkey, hfind] at hcc
      cases hcc
      exact hstale (liveScans_iff.mp (h.looked (by simp [Backend.looksUp, hpc, Pc.looksUp])) sc hsc hkey)

/-! ### Runs -/

variable [Fintype B]

omit [DecidableEq B] in
/-- A call of a backend at rest. -/
theorem Lookups.called {s : State B V Q} {a : Action B V Q}
    (h : Lookups s.memory.slots (s.backends b)) (hplaced : (s.backends b).Placed)
    (hidle : (s.backends b).pc = .idle) (hb : a.backend? = some b)
    (hcall : call s.memory (s.backends b) a = some r) (hok : keepsAttached s a) :
    Lookups r.1.slots r.2 := by
  obtain ⟨w, hw⟩ := call_world hcall
  have hheld : r.2.Held :=
    h.held.refers hplaced (call_refers hidle hcall) fun _ hx => h.forgets hx
  have henters := call_enters hidle hcall
  refine ⟨hheld, fun {x} hx => ?_, fun {x} hx => ?_⟩
  · -- only a call that has been allowed to looks up an index
    have hpc := Pc.looksUp_of_backend hx
    generalize hpc' : r.2.pc = pc' at henters hpc
    rw [hw]
    cases henters with
    | @beginScan b' y dim level =>
      cases hb
      simp only [call] at hcall
      split at hcall <;> cases hcall
      cases hpc
      exact hok
    | insert | bulkdelete =>
      cases hb
      simp only [call] at hcall
      split at hcall <;> cases hcall
      cases hpc
      by_cases hsize : (s.backends b).sizeMb = 0
      · simp [Backend.looksUp, Backend.goto, hsize] at hx
      · have hlive : liveScans s.memory.slots (s.backends b) x := by
          simpa [keepsAttached, hsize] using hok
        exact hlive
    | _ => cases hpc
  · generalize r.2.pc = pc' at henters hx
    cases henters <;> cases hx

/-- **The step lemma of attachments.** -/
theorem Lookups.step {s s' : State B V Q} {a : Action B V Q}
    (h : Ordered s ∧ AllPlaced s ∧ ∀ b, Lookups s.memory.slots (s.backends b))
    (hok : keepsAttached s a) (hstep : step codec s a = some s') :
    Ordered s' ∧ AllPlaced s' ∧ ∀ b, Lookups s'.memory.slots (s'.backends b) := by
  obtain ⟨hordered, hplaced, hlookups⟩ := h
  refine ⟨hordered.step hstep, hplaced.step hstep, fun b' => ?_⟩
  cases moved hstep with
  | modify x r ha hkeeps hs =>
    subst hs
    exact hlookups b'
  | call b r hidle hmay hb hcall hs =>
    subst hs
    by_cases hne : b' = b
    · subst hne
      simpa using (hlookups b').called (hplaced b') hidle hb hcall hok
    · obtain ⟨w, hw⟩ := call_world hcall
      simp only [Function.update_of_ne hne, hw]
      exact hlookups b'
  | proceed b c r ha hproceed hs =>
    subst ha hs
    by_cases hne : b' = b
    · subst hne
      simp only [Function.update_self]
      apply (hlookups b').proceeded (hplaced b') (hordered.at_ b') hproceed
      intro e v hpc sc hsc
      simp only [keepsAttached, hpc, Bool.and_eq_true, List.all_eq_true, decide_eq_true_eq] at hok
      exact hok.1 sc hsc
    · simp only [Function.update_of_ne hne]
      refine ⟨(hlookups b').held, fun {x} hx => ?_, (hlookups b').dropped⟩
      apply liveScans_registers (proceed_registers hproceed) (hordered.at_ b) (hlookups b').held
        (hplaced b') ((hlookups b').looked hx)
      intro e v hpc sc hsc hkey
      simp only [keepsAttached, hpc, Bool.and_eq_true, List.all_eq_true, decide_eq_true_eq] at hok
      exact hok.2 b' sc hsc (hx.trans (congrArg some hkey.symm))

/-- **An open scan's handle stays attached in every run** in which an index is looked up
only while its own scans are live, and no slot is evicted under such a lookup or by a
backend with a scan of the index. -/
theorem scans_attached {world : Key → Relation V Q} {s : State B V Q}
    (h : Runs (SharedCache.step codec) (fun s a => keepsAttached s a) (State.init world) s) :
    ScansAttached s := by
  obtain ⟨-, hplaced, hlookups⟩ := h.invariant
    (I := fun s => Ordered s ∧ AllPlaced s ∧ ∀ b, Lookups s.memory.slots (s.backends b))
    ⟨Ordered.init world, AllPlaced.init world, fun _ => ⟨nofun, nofun, nofun⟩⟩
    fun hinv hok hstep => Lookups.step hinv hok hstep
  intro b sc hsc
  obtain ⟨hfind, hslot, harea, hgeneration⟩ := (hlookups b).held sc hsc
  obtain ⟨hkey, hmapped, -⟩ := (hplaced b).table.entry (mem_of_attachFind hfind)
  exact ⟨hfind, hkey, hmapped, hslot, harea, hgeneration⟩

end

/-! ### A handle under a scan -/

attribute [local instance] neZero_two

/-- A second backend takes its reference, and begins its scan, between the check of an
evictor and its mark. -/
def evictUnderScan : List (Action (Fin 2) Int Int) :=
  loadAndScan 0 indexX ++ endAndRelease 0 0 ++ attachForScan 1 indexX ++
    chooseVictim 0 indexX firstSlot ++ List.replicate 4 (next 1) ++ List.replicate 8 (next 0)

/-- The scan outlives its incarnation. -/
theorem scans_attached_evicted : ∃ s : State (Fin 2) Int Int,
    ((s.backends 1).scans.length, (s.memory.slots firstSlot).state) = (1, .empty) ∧
      ScansAttached s := by
  have h : ((exec (fun s a => if keepsAttached s a = true then step plainCodec s a else none)
      (State.init smallIndexes) evictUnderScan).map fun s =>
        ((s.backends 1).scans.length, (s.memory.slots firstSlot).state)) = some (1, .empty) := by
    decide +kernel
  obtain ⟨s, hs, hobs⟩ := Option.map_eq_some_iff.mp h
  exact ⟨s, hobs, scans_attached (runs_of_exec hs)⟩

/-- Its backend begins another scan of the index, which detaches the area. -/
theorem rescan_detaches : ∃ s : State (Fin 2) Int Int,
    Runs (step plainCodec) (fun _ _ => True) (State.init smallIndexes) s ∧ ¬ ScansAttached s := by
  have h : ((exec (fun s a => if True then step plainCodec s a else none)
      (State.init smallIndexes) (evictUnderScan ++ [.beginScan 1 indexX 1 0, next 1])).map fun s =>
        (s.backends 1).scans.any fun sc => !((s.backends 1).handles sc.cc).mapped) =
      some true := by decide +kernel
  obtain ⟨s, hs, hobs⟩ := Option.map_eq_some_iff.mp h
  refine ⟨s, runs_of_exec hs, fun hattached => ?_⟩
  obtain ⟨sc, hsc, hmapped⟩ := List.any_eq_true.mp hobs
  rw [(hattached 1 sc hsc).2.2.1] at hmapped
  cases hmapped

end PgAcorn.SharedCache
