import PgAcorn.SharedCache.Locks

/-! The attach table of a backend, and the entry its call works with.

A table has one entry for each index and one index for each address. A call that
works with a handle works with the entry of its index, and one that is about to
store an entry has found none. -/
namespace PgAcorn.SharedCache
open Library
open CodeCache (Key ccNSlots Codec)

section
variable {B V Q : Type}

/-- A table of mappings. -/
structure Backend.Table (be : Backend Q) : Prop where
  keys : (be.attached.map Prod.fst).Nodup
  addresses : (be.attached.map Prod.snd).Nodup
  entry : ∀ {x cc}, (x, cc) ∈ be.attached →
    (be.handles cc).key = x ∧ (be.handles cc).mapped ∧ x.isValid

/-- The entry that a call works with. -/
def Pc.uses : Pc Q → Option (Key × Nat)
  | .acquire q _ cc _ => some (q.key, cc)
  | .write x _ (.lock cc) => some (x, cc)
  | .drain (.growDir w) _ _ _ | .drain (.growPage w _) _ _ _ | .insert w _ | .grow w _ _ _ _ =>
    some (w.key, w.cc)
  | .resolve (.invalidate x _) cc _ | .invalidate x _ cc _ => some (x, cc)
  | _ => none

/-- The index that a call has found no entry of. -/
def Pc.unattached : Pc Q → Option Key
  | .begin q .lookup | .begin q (.readState _ false) | .begin q (.claim _) => some q.key
  | .load q _ p => match p with
    | .start | .create _ | .storeBlocks _ | .storeNblocks _ => some q.key
    | _ => none
  | .evict (.load q _ _ _) _ => some q.key
  | .attach k (.readBlocks ..) | .attach k (.readNblocks ..) => some k.key
  | _ => none

/-- The index that a call may attach. -/
def Pc.index? : Pc Q → Option Key
  | .begin q _ | .load q _ _ | .evict (.load q _ _ _) _ => some q.key
  | .acquire q _ _ _ => some q.key
  | .attach k _ => some k.key
  | .write x _ _ => some x
  | _ => none

/-- What a backend knows of its table. -/
structure Backend.Placed (be : Backend Q) : Prop where
  table : be.Table
  uses : ∀ {x cc}, be.pc.uses = some (x, cc) → be.attachFind x = some cc
  unattached : ∀ {x}, be.pc.unattached = some x → be.attachFind x = none
  index : ∀ {x}, be.pc.index? = some x → x.isValid

/-! ### The table -/

variable {be be' : Backend Q}

theorem attachFind_congr (h : be'.attached = be.attached) (x : Key) :
    be'.attachFind x = be.attachFind x := by rw [Backend.attachFind, h, Backend.attachFind]

theorem mem_of_attachFind {x : Key} {cc : Nat} (h : be.attachFind x = some cc) :
    (x, cc) ∈ be.attached := by
  obtain ⟨l₁, l₂, hl, -⟩ := List.lookup_eq_some_iff.mp h
  rw [hl]
  simp

theorem not_mem_of_attachFind {x : Key} (h : be.attachFind x = none) (cc : Nat) :
    (x, cc) ∉ be.attached := by
  intro hmem
  simpa using List.lookup_eq_none_iff.mp h (x, cc) hmem

namespace Backend.Table

theorem attachFind (h : be.Table) {x : Key} {cc : Nat} (hmem : (x, cc) ∈ be.attached) :
    be.attachFind x = some cc := by
  cases hfind : be.attachFind x with
  | none => exact absurd hmem (not_mem_of_attachFind hfind cc)
  | some cc' =>
    have heq := List.inj_on_of_nodup_map h.keys (mem_of_attachFind hfind) hmem rfl
    rw [(Prod.mk.inj heq).2]

/-- An address is one index's. -/
theorem unique (h : be.Table) {x y : Key} {cc : Nat} (hx : (x, cc) ∈ be.attached)
    (hy : (y, cc) ∈ be.attached) : x = y :=
  (Prod.mk.inj (List.inj_on_of_nodup_map h.addresses hx hy rfl)).1

theorem congr (h : be.Table) (hattached : be'.attached = be.attached)
    (hhandles : be'.handles = be.handles) : be'.Table := by
  constructor
  · rw [hattached]
    exact h.keys
  · rw [hattached]
    exact h.addresses
  · intro x cc hmem
    rw [hattached] at hmem
    rw [hhandles]
    exact h.entry hmem

/-- A handle changes, but not its index and its mapping. -/
theorem setHandle (h : be.Table) (cc : Nat) {g : Handle} (hkey : g.key = (be.handles cc).key)
    (hmapped : g.mapped = (be.handles cc).mapped) : (be.setHandle cc g).Table where
  keys := h.keys
  addresses := h.addresses
  entry {x cc'} hmem := by
    obtain ⟨hk, hm, hv⟩ := h.entry hmem
    simp only [Backend.setHandle, Function.update_apply]
    split
    · subst_vars
      exact ⟨hkey, hmapped.trans hm, hv⟩
    · exact ⟨hk, hm, hv⟩

theorem forgetAttach (h : be.Table) (x : Key) : (be.forgetAttach x).Table := by
  unfold Backend.forgetAttach
  split
  · exact h
  · rename_i cc hfind
    refine ⟨h.keys.sublist (List.filter_sublist.map _), h.addresses.sublist
      (List.filter_sublist.map _), fun {y cc'} hmem => ?_⟩
    obtain ⟨hold, hne⟩ := List.mem_filter.mp hmem
    have hcc : cc' ≠ cc := by
      intro heq
      subst heq
      exact (of_decide_eq_true hne) (h.unique hold (mem_of_attachFind hfind))
    simp only [Backend.setHandle, Function.update_of_ne hcc]
    exact h.entry hold

theorem attachStore (h : be.Table) {g : Handle} {address : Nat} (hkey : g.key.isValid)
    (hmapped : g.mapped) (hnew : be.attachFind g.key = none)
    (hstore : be.attachStore g address = some be') : be'.Table := by
  unfold Backend.attachStore at hstore
  rw [hnew] at hstore
  dsimp only at hstore
  split at hstore
  · cases hstore
  · rename_i hfree
    cases hstore
    simp only [not_exists, not_and] at hfree
    refine ⟨?_, ?_, fun {y cc} hmem => ?_⟩
    · simp only [List.map_cons, List.nodup_cons]
      refine ⟨fun hmem => ?_, h.keys⟩
      obtain ⟨p, hp, hpk⟩ := List.mem_map.mp hmem
      exact not_mem_of_attachFind hnew p.2 (by rw [← hpk]; exact hp)
    · simp only [List.map_cons, List.nodup_cons]
      refine ⟨fun hmem => ?_, h.addresses⟩
      obtain ⟨p, hp, hpa⟩ := List.mem_map.mp hmem
      exact hfree p hp hpa
    · obtain hhead | hmem := List.mem_cons.mp hmem
      · cases hhead
        simp [Backend.setHandle, hkey, hmapped]
      · have hcc : cc ≠ address := fun heq => hfree _ hmem heq
        simp only [Backend.setHandle, Function.update_of_ne hcc]
        exact h.entry hmem

end Backend.Table

theorem lookup_filter_ne {l : List (Key × Nat)} (x y : Key) :
    (l.filter fun p => decide (p.1 ≠ x)).lookup y = if y = x then none else l.lookup y := by
  induction l with
  | nil => simp
  | cons p l ih =>
    by_cases hp : p.1 = x
    · rw [List.filter_cons_of_neg (by simpa using hp), ih, List.lookup_cons]
      split
      · rfl
      · rename_i hne
        have : (y == p.1) = false := by simpa [hp] using hne
        rw [this]
    · rw [List.filter_cons_of_pos (by simpa using hp), List.lookup_cons, List.lookup_cons, ih]
      by_cases hy : y = p.1
      · have : y ≠ x := fun heq => hp (hy.symm.trans heq)
        simp [hy, hp]
      · have : (y == p.1) = false := by simpa using hy
        rw [this]

theorem attachFind_forgetAttach (x y : Key) :
    (be.forgetAttach x).attachFind y = if y = x then none else be.attachFind y := by
  unfold Backend.forgetAttach
  split
  · rename_i hnone
    split
    · subst_vars
      exact hnone
    · rfl
  · exact lookup_filter_ne x y

@[simp] theorem forgetAttach_pc (x : Key) : (be.forgetAttach x).pc = be.pc := by
  unfold Backend.forgetAttach
  split <;> rfl

@[simp] theorem forgetAttach_scans (x : Key) : (be.forgetAttach x).scans = be.scans := by
  unfold Backend.forgetAttach
  split <;> rfl

theorem attachStore_pc {g : Handle} {address : Nat}
    (hstore : be.attachStore g address = some be') : be'.pc = be.pc ∧ be'.scans = be.scans := by
  unfold Backend.attachStore at hstore
  split at hstore
  · cases hstore
    exact ⟨rfl, rfl⟩
  · split at hstore <;> cases hstore
    exact ⟨rfl, rfl⟩

theorem attachFind_attachStore {g : Handle} {address : Nat} (hnew : be.attachFind g.key = none)
    (hstore : be.attachStore g address = some be') (y : Key) :
    be'.attachFind y = if y = g.key then some address else be.attachFind y := by
  unfold Backend.attachStore at hstore
  rw [hnew] at hstore
  dsimp only at hstore
  split at hstore
  · cases hstore
  · cases hstore
    simp only [Backend.attachFind, List.lookup_cons]
    by_cases hy : y = g.key
    · simp [hy]
    · have : (y == g.key) = false := by simpa using hy
      rw [this, if_neg hy]

/-! ### Each function -/

/-- A step that changes neither the table nor the entry the call works with. -/
theorem Backend.Placed.congr (h : be.Placed) (hattached : be'.attached = be.attached)
    (htable : be'.Table) (huses : be'.pc.uses = be.pc.uses ∨ be'.pc.uses = none)
    (hunattached : be'.pc.unattached = be.pc.unattached ∨ be'.pc.unattached = none)
    (hindex : be'.pc.index? = be.pc.index? ∨ be'.pc.index? = none) : be'.Placed where
  table := htable
  uses {x cc} hx := by
    rw [attachFind_congr hattached]
    obtain hsame | hnone := huses
    · exact h.uses (hsame ▸ hx)
    · rw [hnone] at hx
      cases hx
  unattached {x} hx := by
    rw [attachFind_congr hattached]
    obtain hsame | hnone := hunattached
    · exact h.unattached (hsame ▸ hx)
    · rw [hnone] at hx
      cases hx
  index {x} hx := by
    obtain hsame | hnone := hindex
    · exact h.index (hsame ▸ hx)
    · rw [hnone] at hx
      cases hx

theorem Backend.Placed.goto (h : be.Placed) {pc : Pc Q}
    (huses : pc.uses = be.pc.uses ∨ pc.uses = none)
    (hunattached : pc.unattached = be.pc.unattached ∨ pc.unattached = none)
    (hindex : pc.index? = be.pc.index? ∨ pc.index? = none) : (be.goto pc).Placed :=
  h.congr rfl (h.table.congr rfl rfl) huses hunattached hindex

/-- A place at which a call works with no entry. -/
theorem Backend.Placed.rest (h : be.Placed) {pc : Pc Q} (huses : pc.uses = none)
    (hunattached : pc.unattached = none) (hindex : pc.index? = none) : (be.goto pc).Placed :=
  h.goto (.inr huses) (.inr hunattached) (.inr hindex)

/-- The entry of an index is dropped. -/
theorem Backend.Placed.forget (h : be.Placed) {x : Key} {pc : Pc Q} (huses : pc.uses = none)
    (hunattached : ∀ y, pc.unattached = some y → y = x ∨ be.pc.unattached = some y)
    (hindex : pc.index? = be.pc.index? ∨ pc.index? = none) :
    ((be.forgetAttach x).goto pc).Placed where
  table := (h.table.forgetAttach x).congr rfl rfl
  uses hx := by
    rw [show ((be.forgetAttach x).goto pc).pc = pc from rfl, huses] at hx
    cases hx
  unattached {y} hy := by
    show (be.forgetAttach x).attachFind y = none
    rw [attachFind_forgetAttach]
    split
    · rfl
    · obtain hyx | hold := hunattached y hy
      · exact absurd hyx ‹_›
      · exact h.unattached hold
  index {y} hy := by
    obtain hsame | hnone := hindex
    · exact h.index (hsame ▸ hy)
    · rw [show ((be.forgetAttach x).goto pc).pc = pc from rfl, hnone] at hy
      cases hy

variable {m : Memory B V Q} {b : B} {c : Choice} {r : Memory B V Q × Backend Q}

theorem beginScan_placed (h : be.Placed) {q : BeginScan} {p : BeginPc} (hpc : be.pc = .begin q p)
    (hr : beginScan m be q p = some r) : r.2.Placed := by
  cases p with
  | find =>
    simp only [beginScan] at hr
    split at hr
    · rename_i hfind
      cases hr
      refine ⟨h.table.congr rfl rfl, fun hx => ?_, fun hx => ?_, fun hx => ?_⟩
      · cases hx
      · cases hx
        exact hfind
      · exact h.index (by rw [hpc]; exact hx)
    · rename_i cc hfind
      split at hr <;> cases hr
      · refine ⟨h.table.congr rfl rfl, fun hx => ?_, fun hx => ?_, fun hx => ?_⟩
        · cases hx
          exact hfind
        · cases hx
        · exact h.index (by rw [hpc]; exact hx)
      · apply h.forget rfl
        · intro y hy
          cases hy
          exact .inl rfl
        · rw [hpc]
          exact .inl rfl
  | readState i loaded =>
    cases loaded <;> simp only [beginScan] at hr <;> repeat' split at hr
    all_goals first
      | contradiction
      | (cases hr; apply h.goto <;> rw [hpc] <;> first | exact .inl rfl | exact .inr rfl)
  | lookup | claim | checkDim =>
    simp only [beginScan] at hr
    repeat' split at hr
    all_goals cases hr
    all_goals apply h.goto <;> rw [hpc] <;> first | exact .inl rfl | exact .inr rfl

/-- A handle changes, but not its index and its mapping. -/
theorem Backend.Placed.setHandle (h : be.Placed) {cc : Nat} {g : Handle}
    (hkey : g.key = (be.handles cc).key) (hmapped : g.mapped = (be.handles cc).mapped) :
    (be.setHandle cc g).Placed :=
  h.congr rfl (h.table.setHandle cc hkey hmapped) (.inl rfl) (.inl rfl) (.inl rfl)

theorem scanAcquire_placed (h : be.Placed) {q : BeginScan} {cached : Bool} {cc : Nat}
    {p : AcquirePc} (hpc : be.pc = .acquire q cached cc p)
    (hr : scanAcquire m be q cached cc p = some r) : r.2.Placed := by
  have hhandle : ∀ {g : Handle} {p'}, g.key = (be.handles cc).key →
      g.mapped = (be.handles cc).mapped →
      ((be.setHandle cc g).goto (.acquire q cached cc p')).Placed := by
    intro g p' hkey hmapped
    apply (h.setHandle hkey hmapped).goto
    all_goals rw [show (be.setHandle cc g).pc = be.pc from rfl, hpc]
    all_goals exact .inl rfl
  cases p with
  | inc =>
    cases hr
    apply h.goto <;> rw [hpc] <;> exact .inl rfl
  | check =>
    simp only [scanAcquire] at hr
    split at hr <;> cases hr
    · exact hhandle rfl rfl
    · apply h.goto <;> rw [hpc] <;> exact .inl rfl
  | leave =>
    cases hr
    dsimp only
    split
    · apply h.forget rfl
      · intro y hy
        cases hy
        exact .inl rfl
      · rw [hpc]
        exact .inl rfl
    · exact h.rest rfl rfl rfl
  | readBlocks =>
    cases hr
    apply h.goto <;> rw [hpc] <;> exact .inl rfl
  | readNblocks dp =>
    cases hr
    apply h.congr
    · rfl
    · exact (h.table.setHandle cc (g := { be.handles cc with
        blocksDp := dp, nblocks := (m.slots (be.handles cc).slot).nblocks }) rfl rfl).congr rfl rfl
    all_goals exact .inr rfl

theorem Backend.Placed.store (h : be.Placed) {g : Handle} {address : Nat} {be₁ : Backend Q}
    {pc : Pc Q} (hnew : be.pc.unattached = some g.key) (hvalid : g.key.isValid)
    (hmapped : g.mapped) (hstore : be.attachStore g address = some be₁)
    (huses : ∀ x cc, pc.uses = some (x, cc) → be₁.attachFind x = some cc)
    (hunattached : pc.unattached = none) (hindex : ∀ x, pc.index? = some x → x.isValid) :
    (be₁.goto pc).Placed where
  table := (h.table.attachStore hvalid hmapped (h.unattached hnew) hstore).congr rfl rfl
  uses hx := huses _ _ hx
  unattached hx := by
    rw [show (be₁.goto pc).pc = pc from rfl, hunattached] at hx
    cases hx
  index hx := hindex _ hx

theorem load_placed (h : be.Placed) {codec : Codec V Q} {q : BeginScan} {i : Fin ccNSlots}
    {p : LoadPc} (hpc : be.pc = .load q i p) (hr : load m be codec q i c p = some r) :
    r.2.Placed := by
  have hvalid := h.index (x := q.key) (by rw [hpc]; rfl)
  cases p with
  | storeNblocks l =>
    obtain rfl | ⟨be₁, hstore, rfl⟩ := load_storeNblocks hr
    · exact h.rest rfl rfl rfl
    · apply h.store _ _ _ hstore
      · exact nofun
      · rfl
      · intro x hx
        cases hx
        exact hvalid
      · rw [hpc]
        rfl
      · exact hvalid
      · rfl
  | start | create | storeBlocks | readOther | page | publishPage | storeBytes | addTotal
  | storeState =>
    simp only [load] at hr
    repeat' split at hr
    all_goals cases hr
    all_goals apply h.goto <;> rw [hpc] <;> first | exact .inl rfl | exact .inr rfl

theorem evictSlot_placed (h : be.Placed) {e : Evictor} {p : EvictPc} (hpc : be.pc = .evict e p)
    (hr : evictSlot m be b e c p = some r) : r.2.Placed := by
  have hgo : ∀ p', (be.goto (.evict e p')).Placed := by
    intro p'
    apply h.goto <;> rw [hpc] <;> cases e <;> exact .inl rfl
  have hforget : ∀ {x} pc, (pc = .idle ∨ ∃ p', pc = .evict e p') →
      ((be.forgetAttach x).goto pc).Placed := by
    intro x pc hpc'
    obtain rfl | ⟨p', rfl⟩ := hpc'
    · exact h.forget rfl (fun y hy => by cases hy) (.inr rfl)
    · apply h.forget rfl
      · intro y hy
        right
        rw [hpc]
        cases e <;> exact hy
      · rw [hpc]
        cases e <;> exact .inl rfl
  cases p with
  | choose =>
    simp only [evictSlot] at hr
    repeat' split at hr
    · cases hr
      apply h.goto <;> rw [hpc] <;> cases e <;> exact .inl rfl
    · cases hr
      exact hgo _
    · cases hr
  | readScans v =>
    simp only [evictSlot] at hr
    split at hr <;> cases hr
    · exact hforget _ (.inr ⟨_, rfl⟩)
    · exact hgo _
  | dropPin v =>
    simp only [evictSlot] at hr
    repeat' split at hr
    all_goals cases hr
    · exact hforget _ (.inl rfl)
    · exact hforget _ (.inr ⟨_, rfl⟩)
    · exact hforget _ (.inl rfl)
    · exact hforget _ (.inr ⟨_, rfl⟩)
  | lock | read | wlock | storeState | clear | storeNblocks | storeBlocks | subTotal =>
    simp only [evictSlot] at hr
    repeat' split at hr
    all_goals cases hr
    all_goals exact hgo _

theorem attach_placed [DecidableEq B] (h : be.Placed) {k : AttachFor Q} {p : AttachPc}
    (hpc : be.pc = .attach k p) (hr : attach m be b k c p = some r) : r.2.Placed := by
  have hvalid := h.index (x := k.key) (by rw [hpc]; rfl)
  have hindex : ∀ cc x, (k.attached cc).index? = some x → x = k.key := by
    intro cc x hx
    cases k <;> cases hx <;> rfl
  have huses : ∀ cc x cc', (k.attached cc).uses = some (x, cc') → x = k.key ∧ cc' = cc := by
    intro cc x cc' hx
    cases k <;> cases hx <;> exact ⟨rfl, rfl⟩
  have hunattached : ∀ cc, (k.attached cc).unattached = none := by
    intro cc
    cases k <;> rfl
  cases p with
  | lock i =>
    simp only [attach] at hr
    split at hr
    · rename_i cc hfind
      cases hr
      refine ⟨h.table.congr rfl rfl, fun hx => ?_, fun hx => ?_, fun hx => ?_⟩
      · obtain ⟨rfl, rfl⟩ := huses _ _ _ hx
        exact hfind
      · rw [show (be.goto (k.attached cc)).pc = k.attached cc from rfl, hunattached] at hx
        cases hx
      · rw [hindex _ _ hx]
        exact hvalid
    · rename_i hfind
      repeat' split at hr
      all_goals cases hr
      · refine ⟨h.table.congr rfl rfl, fun hx => ?_, fun hx => ?_, fun hx => ?_⟩
        · cases hx
        · cases hx
          exact hfind
        · cases hx
          exact hvalid
      · cases k <;> exact h.rest rfl rfl rfl
  | readBlocks i area dim generation =>
    cases hr
    apply h.goto <;> rw [hpc] <;> exact .inl rfl
  | readNblocks i area dim generation dp =>
    simp only [attach] at hr
    split at hr
    · cases hr
      exact h.rest rfl rfl rfl
    · obtain ⟨be₁, hstore, rfl⟩ := Option.map_eq_some_iff.mp hr
      have hnew : be.pc.unattached = some k.key := by rw [hpc]; rfl
      dsimp only
      split
      · rename_i cc hfind
        apply h.store hnew hvalid rfl hstore
        · intro x cc' hx
          obtain ⟨rfl, rfl⟩ := huses _ _ _ hx
          exact hfind
        · exact hunattached cc
        · intro x hx
          rw [hindex _ _ hx]
          exact hvalid
      · exact h.store hnew hvalid rfl hstore (fun _ _ hx => by cases hx) rfl
          fun _ hx => by cases hx

theorem rest_after (h : be.Placed) (k : Release) : (be.goto k.after).Placed := by
  cases k <;> exact h.rest rfl rfl rfl

theorem dropRef_placed (h : be.Placed) {k : Release} {cc : Nat} {scans : List OpenScan} :
    (be.dropRef k cc scans).Placed := by
  apply h.congr
  · rfl
  · exact (h.table.setHandle cc (g := { be.handles cc with
      scanRefs := (be.handles cc).scanRefs - 1 }) rfl rfl).congr rfl rfl
  all_goals exact .inr rfl

theorem releaseOneRef_placed (h : be.Placed) {k : Release} {p : ReleasePc}
    (hr : releaseOneRef m be b k p = some r) : r.2.Placed := by
  cases p with
  | next =>
    simp only [releaseOneRef] at hr
    repeat' split at hr
    all_goals cases hr
    · exact dropRef_placed h
    · exact h.congr rfl (h.table.congr rfl rfl) (.inr rfl) (.inr rfl) (.inr rfl)
  | dec i cc =>
    cases hr
    dsimp only
    split
    · exact h.rest rfl rfl rfl
    · exact rest_after h k
  | readRetired i cc =>
    cases hr
    dsimp only
    split
    · exact rest_after h k
    · exact h.rest rfl rfl rfl
  | lock i cc =>
    simp only [releaseOneRef] at hr
    split at hr <;> cases hr
    exact h.rest rfl rfl rfl

theorem drainRetired_placed (h : be.Placed) {k : AfterDrain Q} {i : Fin ccNSlots} {cc : Nat}
    {p : DrainPc} (hpc : be.pc = .drain k i cc p) (hr : drainRetired m be k i cc p = some r) :
    r.2.Placed := by
  have hdone : ∀ m₁ : Memory B V Q, (drained m₁ be i k).2.Placed := by
    intro m₁
    cases k with
    | release k => exact rest_after h k
    | growDir w | growPage w old =>
      apply h.goto <;> rw [hpc] <;> exact .inl rfl
  cases p with
  | check =>
    cases hr
    split
    · exact hdone m
    · apply h.goto <;> rw [hpc] <;> cases k <;> exact .inl rfl
  | free =>
    simp only [drainRetired] at hr
    split at hr <;> cases hr
    · exact hdone _
    · exact h.rest rfl rfl rfl

theorem notResolved_placed (h : be.Placed) (k : Resolve) (cc : Nat) :
    (notResolved m be cc k).2.Placed := by
  cases k <;> exact h.rest rfl rfl rfl

theorem resolveBlocks_placed (h : be.Placed) {k : Resolve} {cc : Nat} {p : ResolvePc}
    (hpc : be.pc = .resolve k cc p) (hr : resolveBlocks m be k cc p = some r) : r.2.Placed := by
  have hgo : ∀ p', (be.goto (.resolve k cc p')).Placed := by
    intro p'
    apply h.goto <;> rw [hpc] <;> cases k <;> exact .inl rfl
  cases p with
  | fast | readGeneration | readBlocks | readNblocks =>
    simp only [resolveBlocks] at hr
    repeat' split at hr
    all_goals cases hr
    all_goals first
      | exact hgo _
      | exact notResolved_placed h k cc
      | exact h.rest rfl rfl rfl
  | recheck dp n =>
    simp only [resolveBlocks] at hr
    split at hr <;> cases hr
    · exact notResolved_placed h k cc
    · have hhandle : ∀ {g : Handle}, g.key = (be.handles cc).key →
          g.mapped = (be.handles cc).mapped → (be.setHandle cc g).Placed := h.setHandle
      split
      · apply notResolved_placed
        apply hhandle <;> rfl
      · apply Backend.Placed.goto
        · apply hhandle <;> rfl
        all_goals rw [show ∀ g, (be.setHandle cc g).pc = be.pc from fun _ => rfl, hpc]
        all_goals cases k <;> exact .inl rfl
  | entry dp =>
    simp only [resolveBlocks] at hr
    repeat' split at hr
    all_goals cases hr
    · exact h.rest rfl rfl rfl
    · exact notResolved_placed h k cc
    · exact h.rest rfl rfl rfl
    · exact notResolved_placed h k cc
    · cases k with
      | scan id t =>
        exact h.congr rfl (h.table.congr rfl rfl) (.inr rfl) (.inr rfl) (.inr rfl)
      | invalidate x t => apply h.goto <;> rw [hpc] <;> exact .inl rfl

theorem writerAttach_placed (h : be.Placed) {x : Key} {w : Write Q} {p : WritePc}
    (hpc : be.pc = .write x w p) (hr : writerAttach m be b x w p = some r) : r.2.Placed := by
  have hvalid := h.index (x := x) (by rw [hpc]; rfl)
  cases p with
  | find =>
    simp only [writerAttach] at hr
    split at hr
    · cases hr
      exact h.rest rfl rfl rfl
    split at hr
    · cases hr
      apply h.goto <;> rw [hpc] <;> exact .inl rfl
    · rename_i cc hfind
      split at hr <;> cases hr
      · refine ⟨h.table.congr rfl rfl, fun hx => ?_, fun hx => ?_, fun hx => ?_⟩
        · cases hx
          exact hfind
        · cases hx
        · cases hx
          exact hvalid
      · apply h.forget rfl
        · intro _ hx
          cases hx
        · rw [hpc]
          exact .inl rfl
  | lookup | readState =>
    simp only [writerAttach] at hr
    repeat' split at hr
    all_goals cases hr
    all_goals first
      | exact h.rest rfl rfl rfl
      | (apply h.goto <;> rw [hpc] <;> exact .inl rfl)
  | lock cc =>
    have hfind : be.attachFind x = some cc := h.uses (by rw [hpc]; rfl)
    cases w with
    | insert t dim hit =>
      simp only [writerAttach, lockForWrite] at hr
      repeat' split at hr
      all_goals cases hr
      · exact h.rest rfl rfl rfl
      · exact h.rest rfl rfl rfl
      · refine ⟨?_, fun hx => ?_, fun hx => ?_, fun hx => ?_⟩
        · apply (h.table.setHandle cc _ _).congr <;> rfl
        · cases hx
          exact hfind
        · cases hx
        · cases hx
    | invalidate t =>
      simp only [writerAttach, lockForWrite] at hr
      split at hr <;> cases hr
      refine ⟨h.table.congr rfl rfl, fun hx => ?_, fun hx => ?_, fun hx => ?_⟩ <;> cases hx
      exact hfind

theorem ensurePage_placed (h : be.Placed) {w : Insert Q} {p : InsertPc}
    (hpc : be.pc = .insert w p) (hr : ensurePage m be w c p = some r) : r.2.Placed := by
  have huses : be.attachFind w.key = some w.cc := h.uses (by rw [hpc]; rfl)
  cases p with
  | ensureDir =>
    cases hr
    dsimp only
    split <;> apply h.goto <;> rw [hpc] <;> exact .inl rfl
  | growDir | ensurePage | growPage | write =>
    simp only [ensurePage] at hr
    repeat' split at hr
    all_goals cases hr
    all_goals first
      | exact h.rest rfl rfl rfl
      | (apply h.goto <;> rw [hpc] <;> exact .inl rfl)

theorem grown_placed (h : be.Placed) {w : Insert Q} {g : Growth} {added : Nat}
    {old : Option (Nat × Nat)} {p : GrowPc} (hpc : be.pc = .grow w g added old p) :
    (be.grown w g).Placed := by
  cases g with
  | dir newDp newN =>
    refine ⟨?_, fun hx => ?_, nofun, nofun⟩
    · apply (h.table.setHandle w.cc _ _).congr <;> rfl
    · exact h.uses (by rw [hpc]; exact hx)
  | page newDp => apply h.goto <;> rw [hpc] <;> exact .inl rfl

theorem growArray_placed (h : be.Placed) {w : Insert Q} {g : Growth} {added : Nat}
    {old : Option (Nat × Nat)} {p : GrowPc} (hpc : be.pc = .grow w g added old p)
    (hr : growArray m be w g added old p = some r) : r.2.Placed := by
  have hgo : ∀ p', (be.goto (.grow w g added old p')).Placed := by
    intro p'
    apply h.goto <;> rw [hpc] <;> exact .inl rfl
  cases p with
  | storeNblocks =>
    cases g <;> cases hr
    exact hgo _
  | addBytes =>
    cases hr
    exact hgo _
  | addTotal =>
    cases hr
    dsimp only
    split
    · exact hgo _
    · exact grown_placed h hpc
  | readScans | free | subBytes =>
    obtain ⟨o, -, hr⟩ := Option.map_eq_some_iff.mp hr
    (try split at hr) <;> cases hr
    all_goals first
      | exact hgo _
      | exact h.rest rfl rfl rfl
  | subTotal =>
    obtain ⟨o, -, rfl⟩ := Option.map_eq_some_iff.mp hr
    exact grown_placed h hpc

theorem invalidate_placed (h : be.Placed) {x : Key} {t : Tid} {cc dp : Nat}
    (hr : invalidate m be x t cc dp = some r) : r.2.Placed := by
  simp only [invalidate] at hr
  split at hr <;> cases hr <;> exact h.rest rfl rfl rfl

theorem proceed_placed [DecidableEq B] {codec : Codec V Q} (h : be.Placed)
    (hr : proceed codec m b be c = some r) : r.2.Placed := by
  cases hpc : be.pc with
  | idle | wild =>
    rw [proceed, hpc] at hr
    cases hr
  | begin q p =>
    rw [proceed, hpc] at hr
    exact beginScan_placed h hpc hr
  | acquire q cached cc p =>
    rw [proceed, hpc] at hr
    exact scanAcquire_placed h hpc hr
  | load q i p =>
    rw [proceed, hpc] at hr
    exact load_placed h hpc hr
  | attach k p =>
    rw [proceed, hpc] at hr
    exact attach_placed h hpc hr
  | evict e p =>
    rw [proceed, hpc] at hr
    exact evictSlot_placed h hpc hr
  | release k p =>
    rw [proceed, hpc] at hr
    exact releaseOneRef_placed h hr
  | drain k i cc p =>
    rw [proceed, hpc] at hr
    exact drainRetired_placed h hpc hr
  | resolve k cc p =>
    rw [proceed, hpc] at hr
    exact resolveBlocks_placed h hpc hr
  | write x w p =>
    rw [proceed, hpc] at hr
    exact writerAttach_placed h hpc hr
  | insert w p =>
    rw [proceed, hpc] at hr
    exact ensurePage_placed h hpc hr
  | grow w g added old p =>
    rw [proceed, hpc] at hr
    exact growArray_placed h hpc hr
  | invalidate x t cc dp =>
    rw [proceed, hpc] at hr
    exact invalidate_placed h hr

theorem call_placed {a : Action B V Q} (h : be.Placed)
    (hr : call m be a = some r) : r.2.Placed := by
  -- a call that changes neither the table nor the place
  have hidle' : ∀ {be' : Backend Q}, be'.attached = be.attached → be'.handles = be.handles →
      be'.pc = be.pc → be'.Placed := by
    intro be' hattached hhandles hpc
    apply h.congr hattached (h.table.congr hattached hhandles) <;> rw [hpc] <;> exact .inl rfl
  cases a with
  | beginScan b x dim level =>
    simp only [call] at hr
    split at hr <;> cases hr
    rename_i hvalid
    refine ⟨h.table.congr rfl rfl, fun hx => ?_, fun hx => ?_, fun hx => ?_⟩ <;> cases hx
    exact hvalid.1
  | insert b x t dim hit =>
    simp only [call] at hr
    split at hr <;> cases hr
    rename_i hvalid
    refine ⟨h.table.congr rfl rfl, fun hx => ?_, fun hx => ?_, fun hx => ?_⟩ <;> cases hx
    exact hvalid.1
  | bulkdelete b x t =>
    simp only [call] at hr
    split at hr <;> cases hr
    rename_i hvalid
    refine ⟨h.table.congr rfl rfl, fun hx => ?_, fun hx => ?_, fun hx => ?_⟩ <;> cases hx
    exact hvalid.1
  | evict | subAbort =>
    simp only [call] at hr
    split at hr <;> cases hr
    exact h.congr rfl (h.table.congr rfl rfl) (.inr rfl) (.inr rfl) (.inr rfl)
  | subCommit =>
    simp only [call] at hr
    split at hr <;> cases hr
    exact hidle' rfl rfl rfl
  | resolve b id t =>
    obtain ⟨be', hbe, rfl⟩ := Option.map_eq_some_iff.mp hr
    obtain ⟨sc, -, rfl⟩ := Option.map_eq_some_iff.mp hbe
    split
    · exact h
    · exact h.rest rfl rfl rfl
  | read b id t =>
    obtain ⟨be', hbe, rfl⟩ := Option.map_eq_some_iff.mp hr
    obtain ⟨sc, -, hp⟩ := Option.bind_eq_some_iff.mp hbe
    obtain ⟨p, -, rfl⟩ := Option.map_eq_some_iff.mp hp
    split
    · exact h
    · exact h.rest rfl rfl rfl
  | endScan b id =>
    obtain ⟨be', hbe, rfl⟩ := Option.map_eq_some_iff.mp hr
    obtain ⟨sc, -, rfl⟩ := Option.map_eq_some_iff.mp hbe
    dsimp only
    split
    · exact hidle' rfl rfl rfl
    · exact dropRef_placed h
  | reset | abort =>
    cases hr
    exact h.congr rfl (h.table.congr rfl rfl) (.inr rfl) (.inr rfl) (.inr rfl)
  | subBegin | getDir | setSize =>
    cases hr
    exact hidle' rfl rfl rfl
  | proceed | modify => cases hr

/-! ### Runs -/

/-- Every backend's table is in order. -/
def AllPlaced (s : State B V Q) : Prop := ∀ b, (s.backends b).Placed

theorem AllPlaced.step [Fintype B] [DecidableEq B] {codec : Codec V Q} {s s' : State B V Q}
    {a : Action B V Q} (h : AllPlaced s) (hstep : step codec s a = some s') : AllPlaced s' := by
  intro b'
  have hupdate : ∀ {b be'}, be'.Placed → (Function.update s.backends b be' b').Placed := by
    intro b be' hbe'
    rw [Function.update_apply]
    split
    · exact hbe'
    · exact h b'
  cases moved hstep with
  | modify x r ha hkeeps hs =>
    subst hs
    exact h b'
  | call b r hidle hmay hb hcall hs =>
    subst hs
    exact hupdate (call_placed (h b) hcall)
  | proceed b c r ha hproceed hs =>
    subst hs
    exact hupdate (proceed_placed (h b) hproceed)

theorem AllPlaced.init (world : Key → Relation V Q) :
    AllPlaced (State.init world : State B V Q) :=
  fun _ => ⟨⟨List.nodup_nil, List.nodup_nil, nofun⟩, nofun, nofun, nofun⟩

end

end PgAcorn.SharedCache
