import PgAcorn.SharedCache.Table

/-! References: what a step does to the attach table, to the open scans and to the
counters `scan_refs` and `active_scans`.

A reference is in flight between the change of one counter and the change of the
other, or the return of the call that takes it (`Ref`). Few steps touch a counter, a
scan or an entry (`Refers`). -/
namespace PgAcorn.SharedCache
open Library
open CodeCache (Key ccNSlots Codec)

section
variable {B V Q : Type}

/-- A reference that no open scan accounts for. -/
inductive Ref
  | none
  /-- counted in `active_scans` -/
  | counted (cc : Nat)
  /-- counted in `active_scans` and in `scan_refs` -/
  | taken (cc : Nat)
  /-- no longer counted in `scan_refs`, still in `active_scans` -/
  | dropping (i : Fin ccNSlots)

def Pc.ref : Pc Q → Ref
  | .acquire _ _ cc p => match p with
    | .inc => .none
    | .check | .leave => .counted cc
    | .readBlocks | .readNblocks _ => .taken cc
  | .release _ (.dec i _) => .dropping i
  | _ => .none

/-- The index whose entry the next step of a backend removes from its table. -/
def Backend.forgets (be : Backend Q) (slots : Fin ccNSlots → Slot B) : Option Key :=
  match be.pc with
  | .begin q .find => stale q.key
  | .acquire q true _ .leave => some q.key
  | .write x _ .find => if be.sizeMb = 0 then none else stale x
  | .evict _ (.readScans v) => if (slots v.slot).activeScans ≠ 0 then some v.key else none
  | .evict _ (.dropPin v) => some v.key
  | _ => none
where
  stale (x : Key) : Option Key :=
    (be.attachFind x).bind fun cc => if stillLive slots (be.handles cc) then none else some x

/-- Two handles of one mapping. -/
structure Handle.SameMapping (g h : Handle) : Prop where
  area : h.area = g.area
  mapped : h.mapped = g.mapped
  slot : h.slot = g.slot
  key : h.key = g.key
  dim : h.dim = g.dim
  generation : h.generation = g.generation

theorem Handle.SameMapping.refl (g : Handle) : g.SameMapping g := ⟨rfl, rfl, rfl, rfl, rfl, rfl⟩

theorem Handle.SameMapping.trans {g h k : Handle} (hgh : g.SameMapping h) (hhk : h.SameMapping k) :
    g.SameMapping k :=
  ⟨hhk.area.trans hgh.area, hhk.mapped.trans hgh.mapped, hhk.slot.trans hgh.slot,
    hhk.key.trans hgh.key, hhk.dim.trans hgh.dim, hhk.generation.trans hgh.generation⟩

/-- Two handles that differ in their snapshots at most. -/
structure Handle.SameEntry (g h : Handle) : Prop extends g.SameMapping h where
  scanRefs : h.scanRefs = g.scanRefs

/-- Two records of one open scan. -/
structure OpenScan.Same (sc sc' : OpenScan) : Prop where
  id : sc'.id = sc.id
  cc : sc'.cc = sc.cc
  key : sc'.begun.key = sc.begun.key
  slot : sc'.slot = sc.slot
  area : sc'.area = sc.area
  generation : sc'.generation = sc.generation

/-- No slot's `active_scans` changes. -/
def SameActive (m m' : Memory B V Q) : Prop :=
  ∀ i, (m'.slots i).activeScans = (m.slots i).activeScans

/-- One slot's does. -/
def SetActive (m m' : Memory B V Q) (i : Fin ccNSlots) (n : Nat) : Prop :=
  ∀ j, (m'.slots j).activeScans = if j = i then n else (m.slots j).activeScans

/-- A step that touches neither entries nor references. -/
structure Unreferring (m : Memory B V Q) (be : Backend Q) (m' : Memory B V Q) (be' : Backend Q) :
    Prop where
  active : SameActive m m'
  attached : be'.attached = be.attached
  handles : ∀ cc, (be.handles cc).SameEntry (be'.handles cc)
  scans : ∃ f : OpenScan → OpenScan, (∀ sc : OpenScan, sc.Same (f sc)) ∧ be'.scans = be.scans.map f
  ref : be'.pc.ref = be.pc.ref

/-- The entries that a backend is about to store. -/
inductive Backend.Stores (m : Memory B V Q) (be : Backend Q) : Handle → Prop
  | attach {k i area dim generation dp}
      (hpc : be.pc = .attach k (.readNblocks i area dim generation dp)) :
    Stores m be ⟨area, true, i, k.key, dp, (m.slots i).nblocks, dim, generation, 0⟩
  | load {q i l} (hpc : be.pc = .load q i (.storeNblocks l)) :
    Stores m be (l.handle q.key i q.dim (m.slots i).generation)

/-- The ways in which a step touches entries and references. -/
inductive Refers (m : Memory B V Q) (be : Backend Q) (m' : Memory B V Q) (be' : Backend Q) : Prop
  | same (h : Unreferring m be m' be')
  | forget (x : Key) (hx : be.forgets m.slots = some x) (href : be.pc.ref = .none)
      (h : Unreferring m (be.forgetAttach x) m' be')
  | store (g : Handle) (address : Nat) (be₁ : Backend Q) (hfrom : be.Stores m g)
      (hnew : be.attachFind g.key = none) (hstore : be.attachStore g address = some be₁)
      (href : be.pc.ref = .none) (h : Unreferring m be₁ m' be')
  | count (q : BeginScan) (cached : Bool) (cc : Nat) (hpc : be.pc = .acquire q cached cc .inc)
      (hbe : be' = be.goto (.acquire q cached cc .check))
      (hactive : SetActive m m' (be.handles cc).slot
        ((m.slots (be.handles cc).slot).activeScans + 1))
  | take (q : BeginScan) (cached : Bool) (cc : Nat) (hpc : be.pc = .acquire q cached cc .check)
      (hlive : stillLive m.slots (be.handles cc))
      (hbe : be' = (be.setHandle cc { be.handles cc with
        scanRefs := (be.handles cc).scanRefs + 1 }).goto (.acquire q cached cc .readBlocks))
      (hactive : SameActive m m')
  | backOut (q : BeginScan) (cached : Bool) (cc : Nat) (hpc : be.pc = .acquire q cached cc .leave)
      (hbe : be' = if cached then (be.forgetAttach q.key).goto (.begin q .lookup)
        else be.goto .idle)
      (hactive : SetActive m m' (be.handles cc).slot
        ((m.slots (be.handles cc).slot).activeScans - 1))
  | opened (q : BeginScan) (cached : Bool) (cc dp n : Nat)
      (hpc : be.pc = .acquire q cached cc (.readNblocks dp))
      (hbe : be' = { be.setHandle cc { be.handles cc with blocksDp := dp, nblocks := n } with
        pc := .idle, scans := be.openScan q cc :: be.scans, nextScan := be.nextScan + 1 })
      (hm : m' = m)
  | ended (sc : OpenScan) (hpc : be.pc = .idle) (hsc : sc ∈ be.scans)
      (hrefs : (be.handles sc.cc).scanRefs ≠ 0)
      (hbe : be' = be.dropRef .endScan sc.cc (be.scans.erase sc)) (hm : m' = m)
  /-- the end of a scan that has lost its reference -/
  | endedBare (sc : OpenScan) (hpc : be.pc = .idle) (hsc : sc ∈ be.scans)
      (hrefs : (be.handles sc.cc).scanRefs = 0)
      (hbe : be' = { be with scans := be.scans.erase sc }) (hm : m' = m)
  | torn (level cc : Nat) (hpc : be.pc = .release (.abort level) .next) (hcc : be.held? = some cc)
      (hbe : be' = be.dropRef (.abort level) cc
        (be.scans.eraseP fun sc => decide (sc.cc = cc) && sc.torn level)) (hm : m' = m)
  | tornAll (level : Nat) (hpc : be.pc = .release (.abort level) .next) (hcc : be.held? = none)
      (hbe : be' = { be with pc := .idle, scans := be.scans.filter fun sc => !sc.torn level })
      (hm : m' = m)
  | uncount (k : Release) (i : Fin ccNSlots) (cc : Nat) (hpc : be.pc = .release k (.dec i cc))
      (hbe : be' = be.goto (if (m.slots i).activeScans - 1 = 0 then .release k (.readRetired i cc)
        else k.after))
      (hactive : SetActive m m' i ((m.slots i).activeScans - 1))

/-! ### Each function -/

theorem Backend.Stores.scanRefs {m : Memory B V Q} {be : Backend Q} {g : Handle}
    (h : be.Stores m g) : g.scanRefs = 0 := by
  cases h <;> rfl

theorem Handle.SameEntry.refl (g : Handle) : g.SameEntry g := ⟨⟨rfl, rfl, rfl, rfl, rfl, rfl⟩, rfl⟩

theorem OpenScan.Same.refl (sc : OpenScan) : sc.Same sc := ⟨rfl, rfl, rfl, rfl, rfl, rfl⟩

variable {m m' m₁ : Memory B V Q} {b : B} {be be' : Backend Q} {c : Choice}
  {r : Memory B V Q × Backend Q}

theorem SameActive.refl (m : Memory B V Q) : SameActive m m := fun _ => rfl

theorem SameActive.setSlot (h : SameActive m m₁) {i : Fin ccNSlots} {slot : Slot B}
    (hslot : slot.activeScans = (m₁.slots i).activeScans) : SameActive m (m₁.setSlot i slot) :=
  fun j => (setSlot_congr Slot.activeScans hslot j).trans (h j)

theorem SetActive.setSlot (m : Memory B V Q) {i : Fin ccNSlots} {slot : Slot B} :
    SetActive m (m.setSlot i slot) i slot.activeScans := by
  intro j
  rw [slots_setSlot]
  split <;> rfl

theorem SameActive.finish (h : SameActive m m₁) (x : Key) (w : Write Q) :
    SameActive m (m₁.finish x w) := by
  cases w <;> exact h

/-- A backend goes on with the table and the scans as they are. -/
theorem Unreferring.goto (hactive : SameActive m m') {pc : Pc Q} (href : pc.ref = be.pc.ref) :
    Unreferring m be m' (be.goto pc) :=
  ⟨hactive, rfl, fun _ => .refl _, ⟨id, fun sc => .refl sc, (List.map_id _).symm⟩, href⟩

theorem Refers.goto {pc : Pc Q} (href : be.pc.ref = .none) (hpc : pc.ref = .none)
    (hactive : SameActive m m') : Refers m be m' (be.goto pc) :=
  .same (.goto hactive (hpc.trans href.symm))

/-- A backend that changes the snapshot of a handle. -/
theorem Unreferring.setHandle (hactive : SameActive m m') {pc : Pc Q} {cc : Nat} {g : Handle}
    (hg : (be.handles cc).SameEntry g) (href : pc.ref = be.pc.ref) :
    Unreferring m be m' ((be.setHandle cc g).goto pc) := by
  refine ⟨hactive, rfl, fun cc' => ?_, ⟨id, fun sc => .refl sc, (List.map_id _).symm⟩, href⟩
  simp only [Backend.goto, Backend.setHandle, Function.update_apply]
  split
  · subst_vars
    exact hg
  · exact .refl _

theorem Unreferring.trans {be₁ : Backend Q} (h : Unreferring m be m₁ be₁)
    (h' : Unreferring m₁ be₁ m' be') : Unreferring m be m' be' where
  active i := (h'.active i).trans (h.active i)
  attached := h'.attached.trans h.attached
  handles cc := by
    have hg := h.handles cc
    have hg' := h'.handles cc
    exact ⟨hg.toSameMapping.trans hg'.toSameMapping, hg'.scanRefs.trans hg.scanRefs⟩
  scans := by
    obtain ⟨f, hf, hscans⟩ := h.scans
    obtain ⟨f', hf', hscans'⟩ := h'.scans
    refine ⟨f' ∘ f, fun sc => ?_, by rw [hscans', hscans, List.map_map]⟩
    have hsc := hf sc
    have hsc' := hf' (f sc)
    exact ⟨hsc'.id.trans hsc.id, hsc'.cc.trans hsc.cc, hsc'.key.trans hsc.key,
      hsc'.slot.trans hsc.slot, hsc'.area.trans hsc.area, hsc'.generation.trans hsc.generation⟩
  ref := h'.ref.trans h.ref

theorem beginScan_refers {q : BeginScan} {p : BeginPc} (hpc : be.pc = .begin q p)
    (hr : beginScan m be q p = some r) : Refers m be r.1 r.2 := by
  have href : be.pc.ref = .none := by rw [hpc]; rfl
  cases p with
  | find =>
    simp only [beginScan] at hr
    split at hr
    · cases hr
      exact .goto href (by rfl) (.refl m)
    · rename_i cc hfind
      split at hr <;> cases hr
      · exact .goto href (by rfl) (.refl m)
      · rename_i hstale
        apply Refers.forget q.key
        · simp [Backend.forgets, hpc, Backend.forgets.stale, hfind, hstale]
        · exact href
        · apply Unreferring.goto (.refl m)
          rw [forgetAttach_pc, href]
          rfl
  | lookup =>
    simp only [beginScan] at hr
    repeat' split at hr
    all_goals cases hr
    · rename_i hslots
      apply Refers.goto href (by rfl)
      obtain ⟨rfl | ⟨-, -, rfl⟩, -⟩ := slotLookup_slots hslots
      · exact .refl m
      · exact SameActive.setSlot (.refl m) rfl
    · exact .goto href (by rfl) (.refl m)
  | claim i =>
    simp only [beginScan] at hr
    repeat' split at hr
    all_goals cases hr
    · exact .goto href (by rfl) (SameActive.setSlot (.refl m) rfl)
    · exact .goto href (by rfl) (.refl m)
    · exact .goto href (by rfl) (.refl m)
  | readState | checkDim =>
    simp only [beginScan] at hr
    repeat' split at hr
    all_goals cases hr
    all_goals exact .goto href (by rfl) (.refl m)

theorem scanAcquire_refers {q : BeginScan} {cached : Bool} {cc : Nat} {p : AcquirePc}
    (hpc : be.pc = .acquire q cached cc p) (hr : scanAcquire m be q cached cc p = some r) :
    Refers m be r.1 r.2 := by
  cases p with
  | inc =>
    cases hr
    exact .count q cached cc hpc rfl (.setSlot m)
  | check =>
    simp only [scanAcquire] at hr
    split at hr <;> cases hr
    · rename_i hlive
      apply Refers.take q cached cc hpc hlive rfl
      apply SameActive.setSlot <;> first | rfl | exact fun _ => rfl
    · apply Refers.same
      apply Unreferring.goto (.refl m)
      rw [hpc]
      rfl
  | leave =>
    cases hr
    exact .backOut q cached cc hpc rfl (.setSlot m)
  | readBlocks =>
    cases hr
    apply Refers.same
    apply Unreferring.goto (.refl m)
    rw [hpc]
    rfl
  | readNblocks dp =>
    cases hr
    exact .opened q cached cc dp _ hpc rfl rfl

theorem load_refers (hplaced : be.Placed) {codec : Codec V Q} {q : BeginScan} {i : Fin ccNSlots}
    {p : LoadPc} (hpc : be.pc = .load q i p) (hr : load m be codec q i c p = some r) :
    Refers m be r.1 r.2 := by
  have href : be.pc.ref = .none := by rw [hpc]; rfl
  cases p with
  | storeNblocks l =>
    obtain rfl | ⟨be₁, hstore, rfl⟩ := load_storeNblocks hr
    · exact Refers.goto href rfl (SameActive.setSlot (.refl m) rfl)
    · apply Refers.store _ _ be₁ (.load hpc) _ hstore href
      · apply Unreferring.goto
        · exact SameActive.setSlot (.refl m) rfl
        · rw [(attachStore_pc hstore).1, href]
          rfl
      · exact hplaced.unattached (by rw [hpc]; rfl)
  | storeState final error =>
    cases hr
    apply Refers.goto href
    · split <;> rfl
    · exact SameActive.setSlot (.refl m) rfl
  | start | create | storeBlocks | readOther | page | publishPage | storeBytes | addTotal =>
    simp only [load] at hr
    repeat' split at hr
    all_goals cases hr
    all_goals
      apply Refers.goto href (by rfl)
      first
        | exact .refl m
        | exact fun _ => rfl
        | exact SameActive.setSlot (.refl m) rfl

theorem evictSlot_refers {e : Evictor} {p : EvictPc} (hpc : be.pc = .evict e p)
    (hr : evictSlot m be b e c p = some r) : Refers m be r.1 r.2 := by
  have href : be.pc.ref = .none := by rw [hpc]; rfl
  have hforget : ∀ {x m'} pc, be.forgets m.slots = some x → SameActive m m' → pc.ref = .none →
      Refers m be m' ((be.forgetAttach x).goto pc) := by
    intro x m' pc hx hactive hpc'
    apply Refers.forget x hx href
    apply Unreferring.goto hactive
    rw [forgetAttach_pc, href, hpc']
  cases p with
  | choose =>
    simp only [evictSlot] at hr
    repeat' split at hr
    · cases hr
      apply Refers.goto href
      · cases e <;> rfl
      · exact fun _ => rfl
    · cases hr
      exact .goto href (by rfl) (.refl m)
    · cases hr
  | readScans v =>
    simp only [evictSlot] at hr
    split at hr
    · rename_i hactive
      cases hr
      exact hforget _ (by simp [Backend.forgets, hpc, hactive]) (.refl m) rfl
    · cases hr
      exact .goto href (by rfl) (.refl m)
  | dropPin v =>
    have hx : be.forgets m.slots = some v.key := by simp [Backend.forgets, hpc]
    have hpinned : SameActive m (m.setSlot v.slot { m.slots v.slot with areaPinned := false }) :=
      SameActive.setSlot (.refl m) rfl
    simp only [evictSlot] at hr
    repeat' split at hr
    all_goals cases hr
    · exact hforget _ hx hpinned rfl
    · exact hforget _ hx hpinned rfl
    · exact hforget _ hx hpinned rfl
    · exact hforget _ hx (.refl m) rfl
  | lock | read | wlock | storeState | clear | storeNblocks | storeBlocks | subTotal =>
    simp only [evictSlot] at hr
    repeat' split at hr
    all_goals cases hr
    all_goals
      apply Refers.goto href (by rfl)
      first
        | exact .refl m
        | exact fun _ => rfl
        | exact SameActive.setSlot (.refl m) rfl

theorem ref_attached (k : AttachFor Q) (cc : Nat) : (k.attached cc).ref = .none := by
  cases k <;> rfl

theorem attach_refers [DecidableEq B] (hplaced : be.Placed) {k : AttachFor Q} {p : AttachPc}
    (hpc : be.pc = .attach k p) (hr : attach m be b k c p = some r) : Refers m be r.1 r.2 := by
  have href : be.pc.ref = .none := by rw [hpc]; rfl
  cases p with
  | lock i =>
    simp only [attach] at hr
    repeat' split at hr
    all_goals cases hr
    · exact .goto href (ref_attached k _) (.refl m)
    · exact .goto href (by rfl) fun _ => rfl
    · cases k with
      | scan q => exact .goto href (by rfl) (.refl m)
      | write x w => exact .goto href (by rfl) (.finish (.refl m) x w)
  | readBlocks i area dim generation =>
    cases hr
    exact .goto href (by rfl) (.refl m)
  | readNblocks i area dim generation dp =>
    simp only [attach] at hr
    split at hr
    · cases hr
      exact .goto href (by rfl) fun _ => rfl
    · obtain ⟨be₁, hstore, rfl⟩ := Option.map_eq_some_iff.mp hr
      apply Refers.store _ _ be₁ (.attach hpc) _ hstore href
      · apply Unreferring.goto
        · exact fun _ => rfl
        · rw [(attachStore_pc hstore).1, href]
          split
          · exact ref_attached k _
          · rfl
      · exact hplaced.unattached (by rw [hpc]; rfl)

theorem ref_after (k : Release) : (k.after : Pc Q).ref = .none := by
  cases k <;> rfl

theorem releaseOneRef_refers {k : Release} {p : ReleasePc} (hpc : be.pc = .release k p)
    (hr : releaseOneRef m be b k p = some r) : Refers m be r.1 r.2 := by
  cases p with
  | next =>
    cases k with
    | endScan => cases hr
    | abort level =>
      simp only [releaseOneRef] at hr
      split at hr <;> cases hr
      · rename_i cc hcc
        exact .torn level cc hpc hcc rfl rfl
      · rename_i hcc
        exact .tornAll level hpc hcc rfl rfl
  | dec i cc =>
    cases hr
    exact .uncount k i cc hpc rfl (.setSlot m)
  | readRetired i cc =>
    have href : be.pc.ref = .none := by rw [hpc]; rfl
    cases hr
    apply Refers.goto href
    · split
      · exact ref_after k
      · rfl
    · exact .refl m
  | lock i cc =>
    have href : be.pc.ref = .none := by rw [hpc]; rfl
    simp only [releaseOneRef] at hr
    split at hr <;> cases hr
    exact .goto href (by rfl) (SameActive.setSlot (.refl m) rfl)

theorem drainRetired_refers {k : AfterDrain Q} {i : Fin ccNSlots} {cc : Nat} {p : DrainPc}
    (hpc : be.pc = .drain k i cc p) (hr : drainRetired m be k i cc p = some r) :
    Refers m be r.1 r.2 := by
  have href : be.pc.ref = .none := by rw [hpc]; rfl
  -- the caller goes on
  have hdone : ∀ {m₁}, SameActive m m₁ →
      Refers m be (drained m₁ be i k).1 (drained m₁ be i k).2 := by
    intro m₁ hactive
    cases k with
    | release k =>
      apply Refers.goto href (ref_after k)
      exact hactive.setSlot rfl
    | growDir w | growPage w old => exact .goto href (by rfl) hactive
  cases p with
  | check =>
    cases hr
    split
    · exact hdone (.refl m)
    · exact .goto href (by rfl) (.refl m)
  | free =>
    simp only [drainRetired] at hr
    split at hr <;> cases hr
    · apply hdone
      apply SameActive.setSlot <;> first | rfl | exact fun _ => rfl
    · exact .goto href (by rfl) (.refl m)

theorem notResolved_refers (k : Resolve) (cc : Nat) (href : be.pc.ref = .none) :
    Unreferring m be (notResolved m be cc k).1 (notResolved m be cc k).2 := by
  cases k with
  | scan id t =>
    apply Unreferring.goto (.refl m)
    rw [href]
    rfl
  | invalidate x t =>
    apply Unreferring.goto
    · dsimp only [notResolved]
      apply SameActive.finish
      exact SameActive.setSlot (.refl m) rfl
    · rw [href]
      rfl

theorem resolveBlocks_refers {k : Resolve} {cc : Nat} {p : ResolvePc}
    (hpc : be.pc = .resolve k cc p) (hr : resolveBlocks m be k cc p = some r) :
    Refers m be r.1 r.2 := by
  have href : be.pc.ref = .none := by rw [hpc]; rfl
  cases p with
  | fast | readGeneration | readBlocks | readNblocks =>
    simp only [resolveBlocks] at hr
    repeat' split at hr
    all_goals cases hr
    all_goals first
      | exact .goto href (by rfl) (.refl m)
      | exact .same (notResolved_refers k cc href)
  | recheck dp n =>
    simp only [resolveBlocks] at hr
    split at hr <;> cases hr
    · exact .same (notResolved_refers k cc href)
    · have hset : ∀ {g}, (be.handles cc).SameEntry g → Unreferring m be m (be.setHandle cc g) :=
        fun hg => .setHandle (.refl m) hg rfl
      apply Refers.same
      split
      · refine (hset ?_).trans (notResolved_refers k cc href)
        exact ⟨⟨rfl, rfl, rfl, rfl, rfl, rfl⟩, rfl⟩
      · apply Unreferring.setHandle (.refl m)
        · exact ⟨⟨rfl, rfl, rfl, rfl, rfl, rfl⟩, rfl⟩
        · rw [href]
          rfl
  | entry dp =>
    simp only [resolveBlocks] at hr
    repeat' split at hr
    all_goals cases hr
    · exact .goto href (by rfl) (.refl m)
    · exact .same (notResolved_refers k cc href)
    · exact .goto href (by rfl) (.refl m)
    · exact .same (notResolved_refers k cc href)
    · cases k with
      | scan id t =>
        refine .same ⟨.refl m, rfl, fun _ => .refl _, ⟨_, fun sc => ?_, rfl⟩, href.symm⟩
        split <;> exact ⟨rfl, rfl, rfl, rfl, rfl, rfl⟩
      | invalidate x t => exact .goto href (by rfl) (.refl m)

theorem writerAttach_refers {x : Key} {w : Write Q} {p : WritePc} (hpc : be.pc = .write x w p)
    (hr : writerAttach m be b x w p = some r) : Refers m be r.1 r.2 := by
  have href : be.pc.ref = .none := by rw [hpc]; rfl
  cases p with
  | find =>
    simp only [writerAttach] at hr
    split at hr
    · cases hr
      exact .goto href (by rfl) (.finish (.refl m) x w)
    rename_i hsize
    split at hr
    · cases hr
      exact .goto href (by rfl) (.refl m)
    · rename_i cc hfind
      split at hr <;> cases hr
      · exact .goto href (by rfl) (.refl m)
      · rename_i hstale
        apply Refers.forget x
        · simp [Backend.forgets, hpc, hsize, Backend.forgets.stale, hfind, hstale]
        · exact href
        · apply Unreferring.goto (.refl m)
          rw [forgetAttach_pc, href]
          rfl
  | lookup | readState =>
    simp only [writerAttach] at hr
    repeat' split at hr
    all_goals cases hr
    all_goals
      apply Refers.goto href (by rfl)
      first
        | exact .refl m
        | exact .finish (.refl m) x w
  | lock cc =>
    cases w with
    | insert t dim hit =>
      simp only [writerAttach, lockForWrite] at hr
      repeat' split at hr
      all_goals cases hr
      · exact .goto href (by rfl) (.refl m)
      · exact .goto href (by rfl) (.refl m)
      · apply Refers.same
        apply Unreferring.setHandle
        · exact SameActive.setSlot (.refl m) rfl
        · exact ⟨⟨rfl, rfl, rfl, rfl, rfl, rfl⟩, rfl⟩
        · rw [href]
          rfl
    | invalidate t =>
      simp only [writerAttach, lockForWrite] at hr
      split at hr <;> cases hr
      exact .goto href (by rfl) (SameActive.setSlot (.refl m) rfl)

theorem ensurePage_refers {w : Insert Q} {p : InsertPc} (hpc : be.pc = .insert w p)
    (hr : ensurePage m be w c p = some r) : Refers m be r.1 r.2 := by
  have href : be.pc.ref = .none := by rw [hpc]; rfl
  cases p with
  | ensureDir =>
    cases hr
    apply Refers.goto href
    · split <;> rfl
    · exact .refl m
  | growDir | ensurePage | growPage | write =>
    simp only [ensurePage] at hr
    repeat' split at hr
    all_goals cases hr
    all_goals
      apply Refers.goto href (by rfl)
      first
        | exact .refl m
        | exact fun _ => rfl
        | exact SameActive.setSlot (.refl m) rfl

theorem grown_refers (hactive : SameActive m m') (href : be.pc.ref = .none) (w : Insert Q)
    (g : Growth) : Refers m be m' (be.grown w g) := by
  cases g with
  | dir newDp newN =>
    apply Refers.same
    apply Unreferring.setHandle hactive
    · exact ⟨⟨rfl, rfl, rfl, rfl, rfl, rfl⟩, rfl⟩
    · rw [href]
      rfl
  | page newDp => exact .goto href (by rfl) hactive

theorem growArray_refers {w : Insert Q} {g : Growth} {added : Nat} {old : Option (Nat × Nat)}
    {p : GrowPc} (hpc : be.pc = .grow w g added old p)
    (hr : growArray m be w g added old p = some r) : Refers m be r.1 r.2 := by
  have href : be.pc.ref = .none := by rw [hpc]; rfl
  cases p with
  | storeNblocks =>
    cases g <;> cases hr
    exact .goto href (by rfl) (SameActive.setSlot (.refl m) rfl)
  | addBytes =>
    cases hr
    exact .goto href (by rfl) (SameActive.setSlot (.refl m) rfl)
  | addTotal =>
    cases hr
    dsimp only
    split
    · exact .goto href (by rfl) fun _ => rfl
    · apply grown_refers _ href
      exact fun _ => rfl
  | readScans =>
    obtain ⟨o, -, hr⟩ := Option.map_eq_some_iff.mp hr
    split at hr <;> cases hr
    · exact .goto href (by rfl) (.refl m)
    · apply Refers.goto href (by rfl)
      split
      · exact SameActive.setSlot (.refl m) rfl
      · exact .refl m
  | free =>
    obtain ⟨o, -, hr⟩ := Option.map_eq_some_iff.mp hr
    split at hr <;> cases hr
    · exact .goto href (by rfl) fun _ => rfl
    · exact .goto href (by rfl) (.refl m)
  | subBytes =>
    obtain ⟨o, -, hr⟩ := Option.map_eq_some_iff.mp hr
    cases hr
    exact .goto href (by rfl) (SameActive.setSlot (.refl m) rfl)
  | subTotal =>
    obtain ⟨o, -, rfl⟩ := Option.map_eq_some_iff.mp hr
    apply grown_refers _ href
    exact fun _ => rfl

theorem invalidate_refers {x : Key} {t : Tid} {cc dp : Nat} (hpc : be.pc = .invalidate x t cc dp)
    (hr : invalidate m be x t cc dp = some r) : Refers m be r.1 r.2 := by
  have href : be.pc.ref = .none := by rw [hpc]; rfl
  simp only [invalidate] at hr
  split at hr <;> cases hr
  · exact .goto href (by rfl) (.refl m)
  · apply Refers.goto href (by rfl)
    dsimp only
    apply SameActive.finish
    apply SameActive.setSlot <;> first | rfl | exact fun _ => rfl

theorem proceed_refers [DecidableEq B] {codec : Codec V Q} (hplaced : be.Placed)
    (hr : proceed codec m b be c = some r) : Refers m be r.1 r.2 := by
  cases hpc : be.pc with
  | idle | wild =>
    rw [proceed, hpc] at hr
    cases hr
  | begin q p =>
    rw [proceed, hpc] at hr
    exact beginScan_refers hpc hr
  | acquire q cached cc p =>
    rw [proceed, hpc] at hr
    exact scanAcquire_refers hpc hr
  | load q i p =>
    rw [proceed, hpc] at hr
    exact load_refers hplaced hpc hr
  | attach k p =>
    rw [proceed, hpc] at hr
    exact attach_refers hplaced hpc hr
  | evict e p =>
    rw [proceed, hpc] at hr
    exact evictSlot_refers hpc hr
  | release k p =>
    rw [proceed, hpc] at hr
    exact releaseOneRef_refers hpc hr
  | drain k i cc p =>
    rw [proceed, hpc] at hr
    exact drainRetired_refers hpc hr
  | resolve k cc p =>
    rw [proceed, hpc] at hr
    exact resolveBlocks_refers hpc hr
  | write x w p =>
    rw [proceed, hpc] at hr
    exact writerAttach_refers hpc hr
  | insert w p =>
    rw [proceed, hpc] at hr
    exact ensurePage_refers hpc hr
  | grow w g added old p =>
    rw [proceed, hpc] at hr
    exact growArray_refers hpc hr
  | invalidate x t cc dp =>
    rw [proceed, hpc] at hr
    exact invalidate_refers hpc hr

theorem mem_of_scan? {id : Nat} {sc : OpenScan} (h : be.scan? id = some sc) : sc ∈ be.scans :=
  List.mem_of_find?_eq_some h

theorem call_refers {a : Action B V Q} (hidle : be.pc = .idle) (hr : call m be a = some r) :
    Refers m be r.1 r.2 := by
  have href : be.pc.ref = .none := by rw [hidle]; rfl
  -- a call that leaves the table and the scans alone
  have hsame : ∀ {m' : Memory B V Q} {be' : Backend Q}, SameActive m m' →
      be'.attached = be.attached → be'.handles = be.handles → be'.scans = be.scans →
      be'.pc.ref = .none → Refers m be m' be' := by
    intro m' be' hactive hattached hhandles hscans hpc
    refine .same ⟨hactive, hattached, fun cc => ?_, ⟨id, fun sc => .refl sc, ?_⟩,
      hpc.trans href.symm⟩
    · rw [hhandles]
      exact .refl _
    · rw [hscans, List.map_id]
  cases a with
  | beginScan | insert | bulkdelete | evict | subAbort =>
    simp only [call] at hr
    split at hr <;> cases hr
    exact hsame (fun _ => rfl) rfl rfl rfl rfl
  | subCommit =>
    simp only [call] at hr
    split at hr <;> cases hr
    refine .same ⟨.refl m, rfl, fun _ => .refl _, ⟨_, fun sc => ?_, rfl⟩, rfl⟩
    exact ⟨rfl, rfl, rfl, rfl, rfl, rfl⟩
  | resolve b id t =>
    obtain ⟨be', hbe, rfl⟩ := Option.map_eq_some_iff.mp hr
    obtain ⟨sc, -, rfl⟩ := Option.map_eq_some_iff.mp hbe
    split
    · exact hsame (.refl m) rfl rfl rfl href
    · exact hsame (.refl m) rfl rfl rfl rfl
  | read b id t =>
    obtain ⟨be', hbe, rfl⟩ := Option.map_eq_some_iff.mp hr
    obtain ⟨sc, -, hp⟩ := Option.bind_eq_some_iff.mp hbe
    obtain ⟨p, -, rfl⟩ := Option.map_eq_some_iff.mp hp
    split
    · exact hsame (.refl m) rfl rfl rfl href
    · exact hsame (.refl m) rfl rfl rfl rfl
  | endScan b id =>
    obtain ⟨be', hbe, rfl⟩ := Option.map_eq_some_iff.mp hr
    obtain ⟨sc, hsc, rfl⟩ := Option.map_eq_some_iff.mp hbe
    dsimp only
    split
    · rename_i hrefs
      exact .endedBare sc hidle (mem_of_scan? hsc) hrefs rfl rfl
    · rename_i hrefs
      exact .ended sc hidle (mem_of_scan? hsc) hrefs rfl rfl
  | reset | abort =>
    cases hr
    exact hsame (.refl m) rfl rfl rfl rfl
  | subBegin | getDir | setSize =>
    cases hr
    exact hsame (.refl m) rfl rfl rfl href
  | proceed | modify => cases hr

/-! ### Open scans and their entries -/

/-- Each open scan has its entry, which maps the incarnation the scan was begun for. -/
def Backend.Held (be : Backend Q) : Prop :=
  ∀ sc ∈ be.scans, be.attachFind sc.begun.key = some sc.cc ∧
    (be.handles sc.cc).slot = sc.slot ∧ (be.handles sc.cc).area = sc.area ∧
    (be.handles sc.cc).generation = sc.generation

theorem Backend.Held.mono (h : be.Held)
    (hscans : ∀ sc' ∈ be'.scans, ∃ sc ∈ be.scans, sc.Same sc')
    (hattached : ∀ sc ∈ be.scans, be'.attachFind sc.begun.key = be.attachFind sc.begun.key)
    (hhandles : ∀ sc ∈ be.scans, (be'.handles sc.cc).slot = (be.handles sc.cc).slot ∧
      (be'.handles sc.cc).area = (be.handles sc.cc).area ∧
      (be'.handles sc.cc).generation = (be.handles sc.cc).generation) : be'.Held := by
  intro sc' hsc'
  obtain ⟨sc, hsc, hsame⟩ := hscans sc' hsc'
  obtain ⟨hfind, hslot, harea, hgeneration⟩ := h sc hsc
  obtain ⟨hslot', harea', hgeneration'⟩ := hhandles sc hsc
  rw [hsame.key, hsame.cc, hsame.slot, hsame.area, hsame.generation, hattached sc hsc]
  exact ⟨hfind, hslot'.trans hslot, harea'.trans harea, hgeneration'.trans hgeneration⟩

theorem Backend.Held.unreferring (h : be.Held) (hu : Unreferring m be m' be') : be'.Held := by
  obtain ⟨f, hf, hscans⟩ := hu.scans
  apply h.mono
  · intro sc' hsc'
    rw [hscans] at hsc'
    obtain ⟨sc, hsc, rfl⟩ := List.mem_map.mp hsc'
    exact ⟨sc, hsc, hf sc⟩
  · exact fun sc _ => attachFind_congr hu.attached _
  · exact fun sc _ => ⟨(hu.handles sc.cc).slot, (hu.handles sc.cc).area,
      (hu.handles sc.cc).generation⟩

/-- Removing an entry leaves the other entries' handles alone. -/
theorem handles_forgetAttach (hplaced : be.Placed) {x y : Key} {cc : Nat}
    (hy : be.attachFind y = some cc) (hne : y ≠ x) :
    (be.forgetAttach x).handles cc = be.handles cc := by
  unfold Backend.forgetAttach
  split
  · rfl
  · rename_i cc' hx
    apply Function.update_of_ne
    intro heq
    subst heq
    exact hne (hplaced.table.unique (mem_of_attachFind hy) (mem_of_attachFind hx))

/-- A new entry is at an address of its own. -/
theorem handles_attachStore {g : Handle} {address : Nat} {y : Key} {cc : Nat}
    (hnew : be.attachFind g.key = none) (hstore : be.attachStore g address = some be')
    (hy : be.attachFind y = some cc) : be'.handles cc = be.handles cc := by
  unfold Backend.attachStore at hstore
  rw [hnew] at hstore
  dsimp only at hstore
  split at hstore
  · cases hstore
  · rename_i hfree
    cases hstore
    apply Function.update_of_ne
    intro heq
    exact hfree ⟨(y, cc), mem_of_attachFind hy, heq⟩

/-- The new entry is what was stored, at an address that no index has. -/
theorem attachStore_address {g : Handle} {address : Nat} (hnew : be.attachFind g.key = none)
    (hstore : be.attachStore g address = some be') :
    be'.handles address = g ∧ ∀ y, be.attachFind y ≠ some address := by
  unfold Backend.attachStore at hstore
  rw [hnew] at hstore
  dsimp only at hstore
  split at hstore
  · cases hstore
  · rename_i hfree
    cases hstore
    refine ⟨Function.update_self _ _ _, fun y hy => ?_⟩
    exact hfree ⟨(y, address), mem_of_attachFind hy, rfl⟩

theorem Backend.Held.forget (h : be.Held) (hplaced : be.Placed) {x : Key}
    (hx : ∀ sc ∈ be.scans, sc.begun.key ≠ x) : (be.forgetAttach x).Held := by
  apply h.mono
  · intro sc hsc
    rw [forgetAttach_scans] at hsc
    exact ⟨sc, hsc, .refl sc⟩
  · intro sc hsc
    rw [attachFind_forgetAttach, if_neg (hx sc hsc)]
  · intro sc hsc
    rw [handles_forgetAttach hplaced (h sc hsc).1 (hx sc hsc)]
    exact ⟨rfl, rfl, rfl⟩

/-- The same scans or fewer, and a handle that keeps its incarnation. -/
theorem Backend.Held.setHandle (h : be.Held) {cc : Nat} {g : Handle}
    (hattached : be'.attached = be.attached)
    (hhandles : be'.handles = Function.update be.handles cc g)
    (hslot : g.slot = (be.handles cc).slot) (harea : g.area = (be.handles cc).area)
    (hgeneration : g.generation = (be.handles cc).generation)
    (hscans : ∀ sc ∈ be'.scans, sc ∈ be.scans) : be'.Held := by
  apply h.mono
  · exact fun sc hsc => ⟨sc, hscans sc hsc, .refl sc⟩
  · exact fun sc _ => attachFind_congr hattached _
  · intro sc _
    rw [hhandles, Function.update_apply]
    split
    · subst_vars
      exact ⟨hslot, harea, hgeneration⟩
    · exact ⟨rfl, rfl, rfl⟩

/-- **A step keeps what open scans hold**, unless it removes the entry of one. -/
theorem Backend.Held.refers (h : be.Held) (hplaced : be.Placed) (hr : Refers m be m' be')
    (hforget : ∀ x, be.forgets m.slots = some x → ∀ sc ∈ be.scans, sc.begun.key ≠ x) :
    be'.Held := by
  cases hr with
  | same hu => exact h.unreferring hu
  | forget x hx _ hu => exact (h.forget hplaced (hforget x hx)).unreferring hu
  | store g address be₁ _ hnew hstore _ hu =>
    apply Backend.Held.unreferring _ hu
    apply h.mono
    · intro sc hsc
      rw [(attachStore_pc hstore).2] at hsc
      exact ⟨sc, hsc, .refl sc⟩
    · intro sc hsc
      rw [attachFind_attachStore hnew hstore, if_neg]
      intro hkey
      have := (h sc hsc).1
      rw [hkey, hnew] at this
      cases this
    · intro sc hsc
      rw [handles_attachStore hnew hstore (h sc hsc).1]
      exact ⟨rfl, rfl, rfl⟩
  | count q cached cc hpc hbe _ =>
    subst hbe
    exact h
  | take q cached cc hpc hlive hbe _ =>
    subst hbe
    exact h.setHandle rfl rfl rfl rfl rfl fun sc hsc => hsc
  | backOut q cached cc hpc hbe _ =>
    subst hbe
    cases cached with
    | true => exact h.forget hplaced (hforget q.key (by rw [Backend.forgets, hpc]))
    | false => exact h
  | opened q cached cc dp n hpc hbe _ =>
    subst hbe
    have hfind : be.attachFind q.key = some cc := hplaced.uses (by rw [hpc]; rfl)
    have hold : (be.setHandle cc { be.handles cc with blocksDp := dp, nblocks := n }).Held :=
      h.setHandle rfl rfl rfl rfl rfl fun sc hsc => hsc
    intro sc hsc
    obtain rfl | hsc := List.mem_cons.mp hsc
    · exact ⟨hfind, by simp [Backend.openScan, Backend.setHandle]⟩
    · exact hold sc hsc
  | ended sc hpc hsc hrefs hbe _ =>
    subst hbe
    exact h.setHandle rfl rfl rfl rfl rfl fun sc' hsc' => List.mem_of_mem_erase hsc'
  | endedBare sc hpc hsc hrefs hbe _ =>
    subst hbe
    exact fun sc' hsc' => h sc' (List.mem_of_mem_erase hsc')
  | torn level cc hpc hcc hbe _ =>
    subst hbe
    exact h.setHandle rfl rfl rfl rfl rfl fun sc' hsc' => List.mem_of_mem_eraseP hsc'
  | tornAll level hpc hcc hbe _ =>
    subst hbe
    exact fun sc' hsc' => h sc' (List.mem_of_mem_filter hsc')
  | uncount k i cc hpc hbe _ =>
    subst hbe
    exact h

end

end PgAcorn.SharedCache
