import PgAcorn.SharedCache.References
import PgAcorn.SharedCache.Flow
import PgAcorn.Library.Ledger

/-! Reference counts.

A backend accounts for the scans it has open and for the reference its call is taking
or dropping. `active_scans` of a slot is what all backends account for there, and
`scan_refs` of a handle what its own backend does. An abort drops every reference of
the backend, so this needs every open scan to be one that the abort tears down; and an
entry that is removed takes its count with it. -/
namespace PgAcorn.SharedCache
open Library
open CodeCache (Key ccNSlots Codec plainCodec indexX indexY firstSlot)

section
variable {B V Q : Type}

/-! ### Accounts -/

/-- The reference of a backend's call on a slot: taken, and its scan not yet begun or
given up; or given up by its scan, and not yet taken back. -/
def Backend.inFlight (be : Backend Q) (i : Fin ccNSlots) : Nat :=
  match be.pc.ref with
  | .none => 0
  | .counted cc | .taken cc => if (be.handles cc).slot = i then 1 else 0
  | .dropping j => if j = i then 1 else 0

/-- The reference of a backend's call on a handle. -/
def Backend.taking (be : Backend Q) (cc : Nat) : Nat :=
  match be.pc.ref with
  | .taken cc' => if cc' = cc then 1 else 0
  | _ => 0

/-- The open scans of a slot. -/
def Backend.scansOn (be : Backend Q) (i : Fin ccNSlots) : Nat :=
  be.scans.countP fun sc => decide (sc.slot = i)

/-- The open scans of a handle. -/
def Backend.scansOf (be : Backend Q) (cc : Nat) : Nat :=
  be.scans.countP fun sc => decide (sc.cc = cc)

/-- What a backend accounts for on a slot. -/
def Backend.references (be : Backend Q) (i : Fin ccNSlots) : Nat := be.scansOn i + be.inFlight i

/-- References are exact; a scan keeps its own. -/
structure ReferencesExact [Fintype B] (s : State B V Q) : Prop where
  active : ∀ i, (s.memory.slots i).activeScans = ∑ b, (s.backends b).references i
  refs : ∀ b {x cc}, (s.backends b).attachFind x = some cc →
    ((s.backends b).handles cc).scanRefs = (s.backends b).scansOf cc + (s.backends b).taking cc
  kept : ∀ b, ∀ sc ∈ (s.backends b).scans,
    (s.backends b).attachFind sc.begun.key = some sc.cc ∧
      ((s.backends b).handles sc.cc).slot = sc.slot ∧ 0 < ((s.backends b).handles sc.cc).scanRefs
  quiet : Quiet s → ∀ i, (s.memory.slots i).activeScans = ∑ b, (s.backends b).scansOn i

/-- A subtransaction is aborted only when no scan of an outer one is open, and no entry
with references is removed. -/
def keepsReferences (s : State B V Q) : Action B V Q → Bool
  | .subAbort b => (s.backends b).scans.all fun sc => sc.torn (s.backends b).nest
  | .proceed b _ =>
    (((s.backends b).forgets s.memory.slots).bind (s.backends b).attachFind).all fun cc =>
      decide (((s.backends b).handles cc).scanRefs = 0)
  | _ => true

/-- The abort that a backend is in. -/
def Pc.aborts : Pc Q → Option Nat
  | .release (.abort level) _ | .drain (.release (.abort level)) _ _ _ => some level
  | _ => none

/-- What a backend knows of its references. -/
structure Counted (be : Backend Q) : Prop where
  held : be.Held
  refs : ∀ {x cc}, be.attachFind x = some cc →
    (be.handles cc).scanRefs = be.scansOf cc + be.taking cc
  aborts : ∀ {level}, be.pc.aborts = some level → ∀ sc ∈ be.scans, sc.torn level

/-! ### Small facts -/

variable {m m' : Memory B V Q} {b : B} {be be' be₁ : Backend Q} {c : Choice}
  {r : Memory B V Q × Backend Q}

theorem inFlight_none (h : be.pc.ref = .none) (i : Fin ccNSlots) : be.inFlight i = 0 := by
  rw [Backend.inFlight, h]

theorem taking_none (h : be.pc.ref = .none) (cc : Nat) : be.taking cc = 0 := by
  rw [Backend.taking, h]

/-- An open scan is one of its handle's. -/
theorem scansOf_pos {sc : OpenScan} (hsc : sc ∈ be.scans) : 0 < be.scansOf sc.cc := by
  rw [Backend.scansOf, List.countP_pos_iff]
  exact ⟨sc, hsc, by simp⟩

theorem Counted.scanRefs_pos (h : Counted be) {sc : OpenScan} (hsc : sc ∈ be.scans) :
    0 < (be.handles sc.cc).scanRefs := by
  rw [h.refs (h.held sc hsc).1]
  exact Nat.add_pos_left (scansOf_pos hsc) _

theorem countP_map_same {f : OpenScan → OpenScan} {p : OpenScan → Bool}
    (hp : ∀ sc, p (f sc) = p sc) (l : List OpenScan) : (l.map f).countP p = l.countP p := by
  rw [List.countP_map]
  apply List.countP_congr
  intro sc _
  rw [Function.comp_apply, hp]

namespace Unreferring

theorem scansOn (h : Unreferring m be m' be') (i : Fin ccNSlots) : be'.scansOn i = be.scansOn i := by
  obtain ⟨f, hf, hscans⟩ := h.scans
  rw [Backend.scansOn, hscans, countP_map_same fun sc => by rw [(hf sc).slot]]
  rfl

theorem scansOf (h : Unreferring m be m' be') (cc : Nat) : be'.scansOf cc = be.scansOf cc := by
  obtain ⟨f, hf, hscans⟩ := h.scans
  rw [Backend.scansOf, hscans, countP_map_same fun sc => by rw [(hf sc).cc]]
  rfl

theorem inFlight (h : Unreferring m be m' be') (i : Fin ccNSlots) : be'.inFlight i = be.inFlight i := by
  rw [Backend.inFlight, Backend.inFlight, h.ref]
  split
  · rfl
  · rw [(h.handles _).slot]
  · rw [(h.handles _).slot]
  · rfl

theorem references (h : Unreferring m be m' be') (i : Fin ccNSlots) :
    be'.references i = be.references i := by
  rw [Backend.references, h.scansOn, h.inFlight, Backend.references]

theorem taking (h : Unreferring m be m' be') (cc : Nat) : be'.taking cc = be.taking cc := by
  rw [Backend.taking, Backend.taking, h.ref]

end Unreferring

/-- Without a reference in flight the scans decide. -/
theorem references_congr (hscans : be'.scans = be.scans) (href : be.pc.ref = .none)
    (href' : be'.pc.ref = .none) (i : Fin ccNSlots) : be'.references i = be.references i := by
  rw [Backend.references, Backend.references, inFlight_none href, inFlight_none href',
    Backend.scansOn, hscans, Backend.scansOn]

/-- An entry that may be removed is no open scan's. -/
theorem Counted.forgets (h : Counted be) {x : Key}
    (hkeeps : ∀ cc, be.attachFind x = some cc → (be.handles cc).scanRefs = 0) :
    ∀ sc ∈ be.scans, sc.begun.key ≠ x := by
  intro sc hsc hkey
  have hpos := h.scanRefs_pos hsc
  rw [hkeeps sc.cc (by rw [← hkey]; exact (h.held sc hsc).1)] at hpos
  exact absurd hpos (lt_irrefl 0)

/-- While a backend aborts, no scan of its is left on a table without references. -/
theorem Counted.no_scans (h : Counted be) (hheld : be.held? = none) : be.scans = [] := by
  apply List.eq_nil_iff_forall_not_mem.mpr
  intro sc hsc
  rw [Backend.held?, Option.map_eq_none_iff, List.find?_eq_none] at hheld
  have hmem := mem_of_attachFind (h.held sc hsc).1
  exact hheld _ hmem (by simpa using h.scanRefs_pos hsc)

/-- The next scan that an abort tears down, with the reference it drops. -/
theorem Counted.torn (h : Counted be) (hplaced : be.Placed) {level cc : Nat}
    (hpc : be.pc = .release (.abort level) .next) (hcc : be.held? = some cc) :
    ∃ sc ∈ be.scans, sc.cc = cc ∧ 0 < (be.handles cc).scanRefs ∧
      be.scans.Perm (sc :: be.scans.eraseP fun sc => decide (sc.cc = cc) && sc.torn level) := by
  obtain ⟨⟨x, cc'⟩, hfind, rfl⟩ := Option.map_eq_some_iff.mp hcc
  have hpos : 0 < (be.handles cc').scanRefs := by simpa using List.find?_some hfind
  have hrefs := h.refs (hplaced.table.attachFind (List.mem_of_find?_eq_some hfind))
  rw [taking_none (by rw [hpc]; rfl)] at hrefs
  have hscans : 0 < be.scansOf cc' := by omega
  obtain ⟨sc, hsc, hsccc⟩ := List.countP_pos_iff.mp hscans
  have htorn : ∀ sc ∈ be.scans, sc.torn level := h.aborts (by rw [hpc]; rfl)
  obtain ⟨sc', l₁, l₂, -, hsc', hl, hl'⟩ := List.exists_of_eraseP
    (p := fun sc => decide (sc.cc = cc') && sc.torn level) hsc (by simp_all)
  simp only [Bool.and_eq_true, decide_eq_true_eq] at hsc'
  refine ⟨sc', by rw [hl]; simp, hsc'.1, hpos, ?_⟩
  rw [hl', hl]
  exact List.perm_middle

/-! ### `scan_refs` -/

/-- A scan gives up its reference. -/
theorem Counted.refs_dropRef (h : Counted be) (href : be.pc.ref = .none) {k : Release} {sc : OpenScan}
    {scans : List OpenScan} (hperm : be.scans.Perm (sc :: scans)) {x : Key} {cc : Nat}
    (hfind : be.attachFind x = some cc) : ((be.dropRef k sc.cc scans).handles cc).scanRefs =
      (be.dropRef k sc.cc scans).scansOf cc + (be.dropRef k sc.cc scans).taking cc := by
  have hrefs := h.refs hfind
  rw [taking_none href, Backend.scansOf, hperm.countP_eq, List.countP_cons] at hrefs
  have htaking : (be.dropRef k sc.cc scans).taking cc = 0 := rfl
  rw [htaking]
  simp only [Backend.dropRef, Backend.setHandle, Backend.scansOf, Function.update_apply]
  by_cases hcc : cc = sc.cc
  · subst hcc
    simp only [decide_true, if_true] at hrefs ⊢
    omega
  · have hne : ¬ sc.cc = cc := fun heq => hcc heq.symm
    simp only [hcc, hne, decide_false, if_false] at hrefs ⊢
    exact hrefs

/-- An entry that stays when another is removed. -/
theorem attachFind_of_forgetAttach (hplaced : be.Placed) {x y : Key} {cc : Nat}
    (hfind : (be.forgetAttach y).attachFind x = some cc) :
    be.attachFind x = some cc ∧ (be.forgetAttach y).handles cc = be.handles cc := by
  rw [attachFind_forgetAttach] at hfind
  split at hfind
  · cases hfind
  · rename_i hne
    exact ⟨hfind, handles_forgetAttach hplaced hfind hne⟩

theorem Counted.refs_refers (h : Counted be) (hplaced : be.Placed) (hr : Refers m be m' be')
    {x : Key} {cc : Nat} (hfind : be'.attachFind x = some cc) :
    (be'.handles cc).scanRefs = be'.scansOf cc + be'.taking cc := by
  -- what a change that touches no reference makes of exact counts
  have hsame : ∀ {be₁ : Backend Q}, Unreferring m be₁ m' be' → (be₁.attachFind x = some cc →
      (be₁.handles cc).scanRefs = be₁.scansOf cc + be₁.taking cc) →
      (be'.handles cc).scanRefs = be'.scansOf cc + be'.taking cc := by
    intro be₁ hu hrefs
    rw [(hu.handles cc).scanRefs, hu.scansOf, hu.taking]
    apply hrefs
    rw [← hfind]
    exact (attachFind_congr hu.attached x).symm
  cases hr with
  | same hu => exact hsame hu h.refs
  | forget y hy href hu =>
    apply hsame hu
    intro hx
    obtain ⟨hold, hhandle⟩ := attachFind_of_forgetAttach hplaced hx
    rw [hhandle, h.refs hold, taking_none href, taking_none (by rw [forgetAttach_pc, href]),
      Backend.scansOf, Backend.scansOf, forgetAttach_scans]
  | store g address be₁ hfrom hnew hstore href hu =>
    apply hsame hu
    intro hx
    obtain ⟨hpc, hscans⟩ := attachStore_pc hstore
    rw [attachFind_attachStore hnew hstore] at hx
    rw [taking_none (by rw [hpc, href]), Backend.scansOf, hscans]
    split at hx
    · -- the new entry, at an address that no scan has
      cases hx
      obtain ⟨hhandle, hfree⟩ := attachStore_address hnew hstore
      rw [hhandle, hfrom.scanRefs, eq_comm, Nat.add_zero, List.countP_eq_zero]
      intro sc hsc hcc
      rw [decide_eq_true_eq] at hcc
      exact hfree _ (hcc ▸ (h.held sc hsc).1)
    · rw [handles_attachStore hnew hstore hx, h.refs hx, taking_none href]
      rfl
  | count q cached cc' hpc hbe _ =>
    subst hbe
    have hrefs := h.refs hfind
    rw [taking_none (by rw [hpc]; rfl)] at hrefs
    exact hrefs
  | take q cached cc' hpc _ hbe _ =>
    subst hbe
    have hrefs := h.refs hfind
    have hold : be.taking cc = 0 := by rw [Backend.taking, hpc]; rfl
    rw [hold] at hrefs
    simp only [Backend.goto, Backend.setHandle, Function.update_apply, Backend.taking, Pc.ref,
      Backend.scansOf] at hrefs ⊢
    by_cases hcc : cc = cc'
    · subst hcc
      simp only [if_true]
      omega
    · have hne : ¬ cc' = cc := fun heq => hcc heq.symm
      simp only [hcc, hne, if_false]
      exact hrefs
  | backOut q cached cc' hpc hbe _ =>
    subst hbe
    have htaking : be.taking cc = 0 := by rw [Backend.taking, hpc]; rfl
    cases cached with
    | true =>
      obtain ⟨hold, hhandle⟩ := attachFind_of_forgetAttach hplaced hfind
      have hrefs := h.refs hold
      rw [htaking] at hrefs
      simp only [if_true, Backend.goto]
      rw [hhandle, hrefs, Backend.scansOf, Backend.scansOf, forgetAttach_scans]
      rfl
    | false =>
      have hrefs := h.refs hfind
      rw [htaking] at hrefs
      exact hrefs
  | opened q cached cc' dp n hpc hbe _ =>
    subst hbe
    have hrefs := h.refs hfind
    simp only [Backend.taking, hpc, Pc.ref] at hrefs
    have htaking : ∀ (be' : Backend Q), be'.pc = .idle → be'.taking cc = 0 := by
      intro be' hpc'
      rw [Backend.taking, hpc']
      rfl
    rw [htaking _ rfl]
    simp only [Backend.setHandle, Backend.scansOf, List.countP_cons, Backend.openScan,
      decide_eq_true_eq, Function.update_apply] at hrefs ⊢
    split
    · subst_vars
      omega
    · rename_i hne
      rw [hrefs]
      rfl
  | ended sc hpc hsc hpos hbe _ =>
    subst hbe
    exact h.refs_dropRef (by rw [hpc]; rfl) (List.perm_cons_erase hsc) hfind
  | endedBare sc hpc hsc hzero hbe _ =>
    exact absurd hzero (h.scanRefs_pos hsc).ne'
  | torn level cc' hpc hcc hbe _ =>
    subst hbe
    obtain ⟨sc, -, rfl, -, hperm⟩ := h.torn hplaced hpc hcc
    exact h.refs_dropRef (by rw [hpc]; rfl) hperm hfind
  | tornAll level hpc hcc hbe _ =>
    subst hbe
    have hrefs := h.refs hfind
    rw [taking_none (by rw [hpc]; rfl), Backend.scansOf, h.no_scans hcc] at hrefs
    simp only [Backend.scansOf, h.no_scans hcc, List.filter_nil]
    exact hrefs
  | uncount k i cc' hpc hbe _ =>
    subst hbe
    have hrefs := h.refs hfind
    have hold : be.taking cc = 0 := by rw [Backend.taking, hpc]; rfl
    rw [hold] at hrefs
    rw [taking_none]
    · exact hrefs
    · dsimp only [Backend.goto]
      split
      · rfl
      · exact ref_after k

/-! ### `active_scans` -/

/-- A scan gives up its reference: it is in flight now. -/
theorem Counted.references_dropRef (h : Counted be) (href : be.pc.ref = .none) {k : Release}
    {sc : OpenScan} {scans : List OpenScan} (hsc : sc ∈ be.scans)
    (hperm : be.scans.Perm (sc :: scans)) (i : Fin ccNSlots) :
    (be.dropRef k sc.cc scans).references i = be.references i := by
  have hslot := (h.held sc hsc).2.1
  rw [Backend.references, Backend.references, inFlight_none href]
  simp only [Backend.scansOn, hperm.countP_eq, List.countP_cons, Backend.dropRef, Backend.inFlight,
    Pc.ref, hslot, decide_eq_true_eq, Nat.add_zero]

/-- **A step changes `active_scans` by what its backend accounts for.** -/
theorem Counted.balanced (h : Counted be) (hplaced : be.Placed) (hr : Refers m be m' be')
    (hle : ∀ i, be.references i ≤ (m.slots i).activeScans) (i : Fin ccNSlots) :
    (m'.slots i).activeScans + be.references i = (m.slots i).activeScans + be'.references i := by
  cases hr with
  | same hu => rw [hu.active, hu.references]
  | forget x hx href hu =>
    rw [hu.active, hu.references, references_congr (forgetAttach_scans x) href]
    rw [forgetAttach_pc, href]
  | store g address be₁ hfrom hnew hstore href hu =>
    obtain ⟨hpc, hscans⟩ := attachStore_pc hstore
    rw [hu.active, hu.references, references_congr hscans href]
    rw [hpc, href]
  | count q cached cc hpc hbe hactive =>
    subst hbe
    rw [hactive]
    have hbefore : be.references i = be.scansOn i := by
      rw [Backend.references, inFlight_none (by rw [hpc]; rfl), Nat.add_zero]
    have hafter : (be.goto (.acquire q cached cc .check)).references i =
        be.scansOn i + if (be.handles cc).slot = i then 1 else 0 := rfl
    rw [hbefore, hafter]
    split_ifs <;> subst_vars <;> omega
  | take q cached cc hpc hlive hbe hactive =>
    subst hbe
    rw [hactive]
    simp [Backend.references, Backend.inFlight, Backend.scansOn, hpc, Pc.ref, Backend.goto,
      Backend.setHandle]
  | backOut q cached cc hpc hbe hactive =>
    have hone := hle (be.handles cc).slot
    have hscans : be'.references i = be.scansOn i := by
      subst hbe
      rw [Backend.references, inFlight_none (by cases cached <;> rfl)]
      cases cached <;> simp [Backend.scansOn, Backend.goto]
    rw [hactive, hscans]
    simp only [Backend.references, Backend.inFlight, hpc, Pc.ref, if_true] at hone ⊢
    split_ifs <;> subst_vars <;> omega
  | opened q cached cc dp n hpc hbe hm =>
    subst hbe hm
    simp only [Backend.references, Backend.inFlight, Backend.scansOn, hpc, Pc.ref,
      List.countP_cons, Backend.openScan, decide_eq_true_eq]
    rfl
  | ended sc hpc hsc hpos hbe hm =>
    subst hbe hm
    rw [h.references_dropRef (by rw [hpc]; rfl) hsc (List.perm_cons_erase hsc)]
  | endedBare sc hpc hsc hzero hbe hm => exact absurd hzero (h.scanRefs_pos hsc).ne'
  | torn level cc hpc hcc hbe hm =>
    subst hbe hm
    obtain ⟨sc, hsc, rfl, -, hperm⟩ := h.torn hplaced hpc hcc
    rw [h.references_dropRef (by rw [hpc]; rfl) hsc hperm]
  | tornAll level hpc hcc hbe hm =>
    have heq : be'.references i = be.references i := by
      subst hbe
      apply references_congr
      · simp [h.no_scans hcc]
      · rw [hpc]
        rfl
      · rfl
    rw [heq, hm]
  | uncount k j cc hpc hbe hactive =>
    have hone := hle j
    have hscans : be'.references i = be.scansOn i := by
      subst hbe
      rw [Backend.references, inFlight_none]
      · rfl
      · dsimp only [Backend.goto]
        split
        · rfl
        · exact ref_after k
    rw [hactive, hscans]
    simp only [Backend.references, Backend.inFlight, hpc, Pc.ref, if_true] at hone ⊢
    split_ifs <;> subst_vars <;> omega

/-! ### Aborts -/

/-- Only an abort leads to where an abort stands. -/
theorem Leads.aborts {pc pc' : Pc Q} (h : Leads pc pc') {level : Nat}
    (hx : pc'.aborts = some level) : (∃ p, pc = .release (.abort level) p) ∨
      ∃ i cc p, pc = .drain (.release (.abort level)) i cc p := by
  cases h with
  | @release k p p' =>
    cases k <;> cases hx
    exact .inl ⟨p, rfl⟩
  | @reclaim k i cc =>
    cases k <;> cases hx
    exact .inl ⟨_, rfl⟩
  | @drain k i cc =>
    cases k with
    | release k =>
      cases k <;> cases hx
      exact .inr ⟨i, cc, _, rfl⟩
    | growDir | growPage => cases hx
  | @released k i cc p =>
    cases k <;> cases hx
    exact .inr ⟨i, cc, p, rfl⟩
  | @attached k p cc => cases k <;> cases hx
  | drainedDir | drainedPage => cases hx
  | _ => cases hx

/-- A backend that aborts opens no scan. -/
theorem proceed_aborts [DecidableEq B] {codec : Codec V Q} (hr : proceed codec m b be c = some r)
    {level : Nat} (hx : r.2.pc.aborts = some level) :
    be.pc.aborts = some level ∧ ∀ sc ∈ r.2.scans, sc ∈ be.scans := by
  obtain ⟨p, hpc⟩ | ⟨i, cc, p, hpc⟩ := (proceed_leads hr).aborts hx
  · refine ⟨by rw [hpc]; rfl, fun sc hsc => ?_⟩
    rw [proceed, hpc] at hr
    cases p with
    | next =>
      simp only [releaseOneRef] at hr
      split at hr <;> cases hr
      · exact List.mem_of_mem_eraseP hsc
      · exact List.mem_of_mem_filter hsc
    | dec | readRetired =>
      cases hr
      exact hsc
    | lock =>
      simp only [releaseOneRef] at hr
      split at hr <;> cases hr
      exact hsc
  · refine ⟨by rw [hpc]; rfl, fun sc hsc => ?_⟩
    rw [proceed, hpc] at hr
    cases p with
    | check =>
      cases hr
      split at hsc <;> exact hsc
    | free =>
      simp only [drainRetired] at hr
      split at hr <;> cases hr <;> exact hsc

theorem Counted.refers (h : Counted be) (hplaced : be.Placed) (hr : Refers m be m' be')
    (hkeeps : ∀ x cc, be.forgets m.slots = some x → be.attachFind x = some cc →
      (be.handles cc).scanRefs = 0)
    (haborts : ∀ {level}, be'.pc.aborts = some level → ∀ sc ∈ be'.scans, sc.torn level) :
    Counted be' where
  held := h.held.refers hplaced hr fun x hx => h.forgets fun cc => hkeeps x cc hx
  refs := h.refs_refers hplaced hr
  aborts := haborts

/-! ### Runs -/

variable [Fintype B]

/-- Every backend knows its references, and every slot counts them. -/
structure Accounts (s : State B V Q) : Prop where
  counted : ∀ b, Counted (s.backends b)
  active : ∀ i, Balanced (fun be => be.references i) (s.memory.slots i).activeScans s.backends

/-- The step of one backend. -/
theorem Accounts.refers [DecidableEq B] {s : State B V Q} (h : Accounts s) (hplaced : AllPlaced s)
    (hr : Refers s.memory (s.backends b) m' be') (hbe : Counted be') :
    Accounts ⟨m', Function.update s.backends b be'⟩ where
  counted b' := by
    by_cases hb : b' = b
    · subst hb
      simpa using hbe
    · simpa only [Function.update_of_ne hb] using h.counted b'
  active i := by
    apply (h.active i).update
    exact (h.counted b).balanced (hplaced b) hr (fun j => (h.active j).share_le b) i

/-- The state after a call of a backend at rest. -/
theorem Accounts.called [DecidableEq B] {s : State B V Q} {a : Action B V Q} (h : Accounts s)
    (hplaced : AllPlaced s) (hidle : (s.backends b).pc = .idle) (hb : a.backend? = some b)
    (hcall : call s.memory (s.backends b) a = some r) (hok : keepsReferences s a) :
    Accounts ⟨r.1, Function.update s.backends b r.2⟩ := by
  have hr := call_refers hidle hcall
  apply h.refers hplaced hr
  apply (h.counted b).refers (hplaced b) hr
  · intro x cc hx
    rw [Backend.forgets, hidle] at hx
    cases hx
  · intro level hx sc hsc
    have henters := call_enters hidle hcall
    generalize hpc : r.2.pc = pc' at henters hx
    cases henters with
    | subAbort =>
      cases hb
      simp only [call] at hcall
      split at hcall <;> cases hcall
      cases hx
      exact List.all_eq_true.mp hok sc hsc
    | abort =>
      cases hx
      simp [OpenScan.torn]
    | _ => cases hx

/-- **The step lemma of reference counts.** -/
theorem Accounts.step [DecidableEq B] {codec : Codec V Q} {s s' : State B V Q}
    {a : Action B V Q} (h : AllPlaced s ∧ Accounts s) (hok : keepsReferences s a)
    (hstep : step codec s a = some s') : AllPlaced s' ∧ Accounts s' := by
  obtain ⟨hplaced, haccounts⟩ := h
  refine ⟨hplaced.step hstep, ?_⟩
  cases moved hstep with
  | modify x r ha hkeeps hs =>
    subst hs
    exact ⟨haccounts.counted, haccounts.active⟩
  | call b r hidle hmay hb hcall hs =>
    subst hs
    exact haccounts.called hplaced hidle hb hcall hok
  | proceed b c r ha hproceed hs =>
    subst ha hs
    have hr := proceed_refers (hplaced b) hproceed
    apply haccounts.refers hplaced hr
    apply (haccounts.counted b).refers (hplaced b) hr
    · intro x cc hx hfind
      simpa [keepsReferences, hx, hfind] using hok
    · intro level hx sc hsc
      obtain ⟨haborts, hscans⟩ := proceed_aborts hproceed hx
      exact (haccounts.counted b).aborts haborts sc (hscans sc hsc)

theorem Accounts.init (world : Key → Relation V Q) :
    Accounts (State.init world : State B V Q) where
  counted b := ⟨nofun, nofun, nofun⟩
  active i := by
    simp [Library.Balanced, State.init, Slot.init, Backend.references, Backend.scansOn, Backend.inFlight,
      Pc.ref]

/-- **References are exact in every run** in which no subtransaction is aborted under an
outer scan and no entry with references is removed. -/
theorem references_exact [DecidableEq B] {codec : Codec V Q} {world : Key → Relation V Q}
    {s : State B V Q}
    (h : Runs (SharedCache.step codec) (fun s a => keepsReferences s a) (State.init world) s) :
    ReferencesExact s := by
  obtain ⟨-, haccounts⟩ := h.invariant (I := fun s => AllPlaced s ∧ Accounts s)
    ⟨AllPlaced.init world, Accounts.init world⟩ fun hinv hok hstep => Accounts.step hinv hok hstep
  refine ⟨haccounts.active, fun b => (haccounts.counted b).refs, fun b sc hsc => ?_,
    fun hquiet i => ?_⟩
  · obtain ⟨hfind, hslot, -⟩ := (haccounts.counted b).held sc hsc
    exact ⟨hfind, hslot, (haccounts.counted b).scanRefs_pos hsc⟩
  · rw [haccounts.active i]
    apply Finset.sum_congr rfl
    intro b _
    dsimp only [Backend.references]
    rw [inFlight_none (by rw [hquiet b]; rfl), Nat.add_zero]

end

/-! ### A cursor that loses its reference -/

attribute [local instance] neZero_two

/-- Two scans of one backend are open when a subtransaction of another one scans as well and is
aborted. -/
def abortInnerScan : List (Action (Fin 2) Int Int) :=
  loadAndScan 0 indexX ++ .beginScan 0 indexX 1 0 :: List.replicate 5 (next 0) ++
    .subBegin 1 :: .beginScan 1 indexX 1 1 :: List.replicate 11 (next 1) ++
    .subAbort 1 :: List.replicate 3 (next 1)

theorem references_exact_aborted : ∃ s : State (Fin 2) Int Int,
    ((s.backends 0).scans.length, (s.backends 1).pc.atRest, (s.backends 1).scans.length,
      (s.memory.slots firstSlot).activeScans) = (2, true, 0, 2) ∧ ReferencesExact s := by
  have h : ((exec (fun s a => if keepsReferences s a = true then step plainCodec s a else none)
      (State.init smallIndexes) abortInnerScan).map fun s =>
        ((s.backends 0).scans.length, (s.backends 1).pc.atRest, (s.backends 1).scans.length,
          (s.memory.slots firstSlot).activeScans)) = some (2, true, 0, 2) := by
    decide +kernel
  obtain ⟨s, hs, hobs⟩ := Option.map_eq_some_iff.mp h
  exact ⟨s, hobs, references_exact (runs_of_exec hs)⟩

/-- A subtransaction that scans nothing is aborted under an open scan. -/
def abortUnderScan : List (Action (Fin 2) Int Int) :=
  loadAndScan 0 indexX ++ .subBegin 0 :: .subAbort 0 :: List.replicate 4 (next 0)

/-- The scan is still open, and its handle has no reference. -/
theorem abort_drops_reference : ∃ s : State (Fin 2) Int Int,
    Runs (step plainCodec) (fun _ _ => True) (State.init smallIndexes) s ∧
      ¬ ReferencesExact s := by
  have h : ((exec (fun s a => if True then step plainCodec s a else none)
      (State.init smallIndexes) abortUnderScan).map fun s =>
        (s.backends 0).scans.any fun sc =>
          decide (((s.backends 0).handles sc.cc).scanRefs = 0)) = some true := by
    decide +kernel
  obtain ⟨s, hs, hobs⟩ := Option.map_eq_some_iff.mp h
  refine ⟨s, runs_of_exec hs, fun hexact => ?_⟩
  obtain ⟨sc, hsc, hzero⟩ := List.any_eq_true.mp hobs
  exact (hexact.kept 0 sc hsc).2.2.ne' (of_decide_eq_true hzero)

end PgAcorn.SharedCache
