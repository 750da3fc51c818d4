import PgAcorn.SharedCache.System

/-! Control flow: which program counter can follow which.

`Leads` names the function a step stays in, and the places at which one function
hands over to another. -/
namespace PgAcorn.SharedCache
open Library
open CodeCache (Key ccNSlots Codec)

section
variable {B V Q : Type}

inductive Leads : Pc Q → Pc Q → Prop
  | idle {pc} : Leads pc .idle
  | wild {pc} : Leads pc .wild
  | begin {q p p'} (h : p' ≠ .find) : Leads (.begin q p) (.begin q p')
  | cached {q cc} : Leads (.begin q .find) (.acquire q true cc .inc)
  | claimed {q i} : Leads (.begin q (.claim i)) (.load q i .start)
  | resolved {q i} : Leads (.begin q (.checkDim i)) (.attach (.scan q) (.lock i))
  | acquire {q cached cc p p'} (h : p' ≠ .inc) :
    Leads (.acquire q cached cc p) (.acquire q cached cc p')
  | again {q cc} : Leads (.acquire q true cc .leave) (.begin q .lookup)
  | load {q i p p'} (h : p' ≠ .start) : Leads (.load q i p) (.load q i p')
  | makeRoom {q i nblocks need} :
    Leads (.load q i .start) (.evict (.load q i nblocks need) .lock)
  | loaded {q i final error} : Leads (.load q i (.storeState final error)) (.begin q (.readState i true))
  | attach {k p p'} (h : ∀ i, p' ≠ .lock i) : Leads (.attach k p) (.attach k p')
  | attached {k p cc} : Leads (.attach k p) (k.attached cc)
  | evict {e p p'} (h : p' ≠ .lock) : Leads (.evict e p) (.evict e p')
  | roomMade {q i nblocks need} :
    Leads (.evict (.load q i nblocks need) .choose) (.load q i (.create nblocks))
  | release {k p p'} : Leads (.release k p) (.release k p')
  | reclaim {k i cc} : Leads (.release k (.lock i cc)) (.drain (.release k) i cc .check)
  | drain {k i cc} : Leads (.drain k i cc .check) (.drain k i cc .free)
  | released {k i cc p} : Leads (.drain (.release k) i cc p) k.after
  | drainedDir {w i cc p} : Leads (.drain (.growDir w) i cc p) (.insert w .growDir)
  | drainedPage {w old i cc p} : Leads (.drain (.growPage w old) i cc p) (.insert w (.growPage old))
  | resolve {k cc p p'} (h : p' ≠ .fast) : Leads (.resolve k cc p) (.resolve k cc p')
  | found {x t cc dp page} :
    Leads (.resolve (.invalidate x t) cc (.entry dp)) (.invalidate x t cc page)
  | write {x w p p'} (h : p' ≠ .find) : Leads (.write x w p) (.write x w p')
  | attachWriter {x w i} : Leads (.write x w (.readState i)) (.attach (.write x w) (.lock i))
  | invalidate {x t cc} :
    Leads (.write x (.invalidate t) (.lock cc)) (.resolve (.invalidate x t) cc .fast)
  | insert {x t dim hit cc} :
    Leads (.write x (.insert t dim hit) (.lock cc)) (.insert ⟨x, t, dim, hit, cc⟩ .ensureDir)
  | inserting {w p p'} (h : p' ≠ .ensureDir) : Leads (.insert w p) (.insert w p')
  | drainDir {w i} : Leads (.insert w .ensureDir) (.drain (.growDir w) i w.cc .check)
  | drainPage {w i old} : Leads (.insert w .ensurePage) (.drain (.growPage w old) i w.cc .check)
  | growDir {w dp n added old} :
    Leads (.insert w .growDir) (.grow w (.dir dp n) added old .storeNblocks)
  | growPage {w dp added old old'} :
    Leads (.insert w (.growPage old)) (.grow w (.page dp) added old' .addBytes)
  | grow {w g added old p p'} : Leads (.grow w g added old p) (.grow w g added old p')
  | grownDir {w dp n added old p} :
    Leads (.grow w (.dir dp n) added old p) (.insert w .ensurePage)
  | grownPage {w dp added old p} :
    Leads (.grow w (.page dp) added old p) (.insert w (.write dp))

/-- An attachment begins with the directory lock. -/
theorem Leads.to_attach {pc : Pc Q} {k : AttachFor Q} {p' : AttachPc}
    (h : Leads pc (.attach k p')) : (∃ p, pc = .attach k p) ∨ ∃ i, p' = .lock i := by
  generalize hpc : Pc.attach k p' = pc' at h
  cases h with
  | @attach k p p' hne =>
    cases hpc
    exact .inl ⟨p, rfl⟩
  | resolved | attachWriter =>
    cases hpc
    exact .inr ⟨_, rfl⟩
  | @attached k p cc => cases k <;> cases hpc
  | @released k i cc p => cases k <;> cases hpc
  | _ => cases hpc

/-- A load begins with a claimed slot and goes on when room is made. -/
theorem Leads.to_load {pc : Pc Q} {q : BeginScan} {i : Fin ccNSlots} {p' : LoadPc}
    (h : Leads pc (.load q i p')) :
    (∃ p, pc = .load q i p) ∨ p' = .start ∨ ∃ nblocks, p' = .create nblocks := by
  generalize hpc : Pc.load q i p' = pc' at h
  cases h with
  | @load q i p p' hne =>
    cases hpc
    exact .inl ⟨p, rfl⟩
  | claimed =>
    cases hpc
    exact .inr (.inl rfl)
  | roomMade =>
    cases hpc
    exact .inr (.inr ⟨_, rfl⟩)
  | @attached k p cc => cases k <;> cases hpc
  | @released k i cc p => cases k <;> cases hpc
  | _ => cases hpc

/-- The insert that holds a slot's `wlock`. -/
def Pc.works : Pc Q → Option (Insert Q)
  | .drain (.growDir w) _ _ _ | .drain (.growPage w _) _ _ _ | .insert w _ | .grow w _ _ _ _ => some w
  | _ => none

/-- An insert begins to work when it has locked its slot. -/
theorem Leads.to_works {pc pc' : Pc Q} (h : Leads pc pc') {w : Insert Q}
    (hw : pc'.works = some w) : pc.works = some w ∨
      pc = .write w.key (.insert w.t w.dim w.hit) (.lock w.cc) ∧ pc' = .insert w .ensureDir := by
  cases h with
  | insert =>
    cases hw
    exact .inr ⟨rfl, rfl⟩
  | @drain k i cc =>
    cases k <;> cases hw
    · exact .inl rfl
    · exact .inl rfl
  | drainedDir | drainedPage | inserting | drainDir | drainPage | growDir | growPage | grow
  | grownDir | grownPage =>
    cases hw
    exact .inl rfl
  | @attached k p cc => cases k <;> cases hw
  | @released k i cc p => cases k <;> cases hw
  | _ => cases hw

variable {m : Memory B V Q} {b : B} {be : Backend Q} {c : Choice} {r : Memory B V Q × Backend Q}

theorem beginScan_leads {q : BeginScan} {p : BeginPc} (hr : beginScan m be q p = some r) :
    Leads (.begin q p) r.2.pc := by
  cases p <;> simp only [beginScan] at hr <;> repeat' split at hr
  all_goals cases hr
  all_goals first
    | exact .idle
    | exact .begin nofun
    | exact .cached
    | exact .claimed
    | exact .resolved

theorem scanAcquire_leads {q : BeginScan} {cached : Bool} {cc : Nat} {p : AcquirePc}
    (hr : scanAcquire m be q cached cc p = some r) : Leads (.acquire q cached cc p) r.2.pc := by
  cases p <;> simp only [scanAcquire] at hr <;> repeat' split at hr
  all_goals cases hr
  all_goals first
    | exact .idle
    | exact .acquire nofun
    | (subst_vars; exact .again)

theorem load_leads {codec : Codec V Q} {q : BeginScan} {i : Fin ccNSlots} {p : LoadPc}
    (hr : load m be codec q i c p = some r) : Leads (.load q i p) r.2.pc := by
  cases p with
  | storeNblocks l =>
    obtain rfl | ⟨be₁, -, rfl⟩ := load_storeNblocks hr
    · exact .idle
    · exact .load fun h => by cases h
  | start | create | storeBlocks | readOther | page | publishPage | storeBytes | addTotal
  | storeState =>
    simp only [load] at hr
    repeat' split at hr
    all_goals cases hr
    all_goals first
      | exact .idle
      | exact .load fun h => by cases h
      | exact .makeRoom
      | exact .loaded

theorem attach_leads [DecidableEq B] {k : AttachFor Q} {p : AttachPc}
    (hr : attach m be b k c p = some r) : Leads (.attach k p) r.2.pc := by
  cases p with
  | lock i =>
    simp only [attach] at hr
    repeat' split at hr
    all_goals cases hr
    · exact .attached
    · exact .attach nofun
    · cases k <;> exact .idle
  | readBlocks i area dim generation =>
    cases hr
    exact .attach nofun
  | readNblocks i area dim generation dp =>
    simp only [attach] at hr
    split at hr
    · cases hr
      exact .idle
    · obtain ⟨be₁, -, rfl⟩ := Option.map_eq_some_iff.mp hr
      dsimp only [Backend.goto]
      split
      · exact .attached
      · exact .wild

theorem evictSlot_leads {e : Evictor} {p : EvictPc} (hr : evictSlot m be b e c p = some r) :
    Leads (.evict e p) r.2.pc := by
  cases p with
  | choose =>
    simp only [evictSlot] at hr
    repeat' split at hr
    · cases hr
      cases e
      · exact .idle
      · exact .roomMade
    · cases hr
      exact .evict nofun
    · cases hr
  | lock | read | wlock | storeState | clear | storeNblocks | storeBlocks | subTotal | readScans
  | dropPin =>
    simp only [evictSlot] at hr
    repeat' split at hr
    all_goals cases hr
    all_goals first
      | exact .idle
      | exact .evict nofun

theorem releaseOneRef_leads {k : Release} {p : ReleasePc}
    (hr : releaseOneRef m be b k p = some r) : Leads (.release k p) r.2.pc := by
  have hafter : ∀ p : ReleasePc, Leads (.release k p : Pc Q) k.after := by
    intro p
    cases k
    · exact .idle
    · exact .release
  cases p with
  | next =>
    simp only [releaseOneRef] at hr
    repeat' split at hr
    all_goals cases hr
    · exact .release
    · exact .idle
  | dec i cc =>
    cases hr
    dsimp only [Backend.goto]
    split
    · exact .release
    · exact hafter _
  | readRetired i cc =>
    cases hr
    dsimp only [Backend.goto]
    split
    · exact hafter _
    · exact .release
  | lock i cc =>
    simp only [releaseOneRef] at hr
    split at hr <;> cases hr
    exact .reclaim

theorem drainRetired_leads {k : AfterDrain Q} {i : Fin ccNSlots} {cc : Nat} {p : DrainPc}
    (hr : drainRetired m be k i cc p = some r) : Leads (.drain k i cc p) r.2.pc := by
  have hdone : ∀ (m₁ : Memory B V Q) p, Leads (.drain k i cc p) (drained m₁ be i k).2.pc := by
    intro m₁ p
    cases k
    · exact .released
    · exact .drainedDir
    · exact .drainedPage
  cases p with
  | check =>
    cases hr
    split
    · exact hdone _ _
    · exact .drain
  | free =>
    simp only [drainRetired] at hr
    split at hr <;> cases hr
    · exact hdone _ _
    · exact .wild

theorem resolveBlocks_leads {k : Resolve} {cc : Nat} {p : ResolvePc}
    (hr : resolveBlocks m be k cc p = some r) : Leads (.resolve k cc p) r.2.pc := by
  have hnone : ∀ (be : Backend Q) p, Leads (.resolve k cc p) (notResolved m be cc k).2.pc := by
    intro be p
    cases k <;> exact .idle
  cases p with
  | fast | readGeneration | readBlocks | readNblocks =>
    simp only [resolveBlocks] at hr
    repeat' split at hr
    all_goals cases hr
    all_goals first
      | exact .resolve nofun
      | exact .wild
      | exact hnone _ _
  | recheck dp n =>
    simp only [resolveBlocks] at hr
    split at hr <;> cases hr
    · exact hnone _ _
    · split
      · exact hnone _ _
      · exact .resolve nofun
  | entry dp =>
    simp only [resolveBlocks] at hr
    repeat' split at hr
    all_goals cases hr
    · exact .wild
    · exact hnone _ _
    · exact .wild
    · exact hnone _ _
    · cases k
      · exact .idle
      · exact .found

theorem writerAttach_leads {x : Key} {w : Write Q} {p : WritePc}
    (hr : writerAttach m be b x w p = some r) : Leads (.write x w p) r.2.pc := by
  cases p with
  | find | lookup | readState =>
    simp only [writerAttach] at hr
    repeat' split at hr
    all_goals cases hr
    all_goals first
      | exact .idle
      | exact .write nofun
      | exact .attachWriter
  | lock cc =>
    cases w <;> simp only [writerAttach, lockForWrite] at hr <;> repeat' split at hr
    all_goals cases hr
    all_goals first
      | exact .idle
      | exact .insert
      | exact .invalidate

theorem ensurePage_leads {w : Insert Q} {p : InsertPc} (hr : ensurePage m be w c p = some r) :
    Leads (.insert w p) r.2.pc := by
  cases p with
  | ensureDir =>
    cases hr
    dsimp only [Backend.goto]
    split
    · exact .drainDir
    · exact .inserting nofun
  | growDir | ensurePage | growPage | write =>
    simp only [ensurePage] at hr
    repeat' split at hr
    all_goals cases hr
    all_goals first
      | exact .idle
      | exact .wild
      | exact .inserting nofun
      | exact .drainPage
      | exact .growDir
      | exact .growPage

theorem growArray_leads {w : Insert Q} {g : Growth} {added : Nat} {old : Option (Nat × Nat)}
    {p : GrowPc} (hr : growArray m be w g added old p = some r) :
    Leads (.grow w g added old p) r.2.pc := by
  have hgrown : ∀ p, Leads (.grow w g added old p) (be.grown w g).pc := by
    intro p
    cases g
    · exact .grownDir
    · exact .grownPage
  cases p with
  | storeNblocks =>
    cases g <;> cases hr
    exact .grow
  | addBytes =>
    cases hr
    exact .grow
  | addTotal =>
    cases hr
    dsimp only
    split
    · exact .grow
    · exact hgrown _
  | readScans | free | subBytes =>
    obtain ⟨o, -, hr⟩ := Option.map_eq_some_iff.mp hr
    (try split at hr) <;> cases hr
    all_goals first
      | exact .grow
      | exact .wild
  | subTotal =>
    obtain ⟨o, -, rfl⟩ := Option.map_eq_some_iff.mp hr
    exact hgrown _

/-- **Control flow** of a call. -/
theorem proceed_leads [DecidableEq B] {codec : Codec V Q}
    (hr : proceed codec m b be c = some r) : Leads be.pc r.2.pc := by
  cases hpc : be.pc with
  | idle | wild =>
    rw [proceed, hpc] at hr
    cases hr
  | begin q p =>
    rw [proceed, hpc] at hr
    exact beginScan_leads hr
  | acquire q cached cc p =>
    rw [proceed, hpc] at hr
    exact scanAcquire_leads hr
  | load q i p =>
    rw [proceed, hpc] at hr
    exact load_leads hr
  | attach k p =>
    rw [proceed, hpc] at hr
    exact attach_leads hr
  | evict e p =>
    rw [proceed, hpc] at hr
    exact evictSlot_leads hr
  | release k p =>
    rw [proceed, hpc] at hr
    exact releaseOneRef_leads hr
  | drain k i cc p =>
    rw [proceed, hpc] at hr
    exact drainRetired_leads hr
  | resolve k cc p =>
    rw [proceed, hpc] at hr
    exact resolveBlocks_leads hr
  | write x w p =>
    rw [proceed, hpc] at hr
    exact writerAttach_leads hr
  | insert w p =>
    rw [proceed, hpc] at hr
    exact ensurePage_leads hr
  | grow w g added old p =>
    rw [proceed, hpc] at hr
    exact growArray_leads hr
  | invalidate x t cc dp =>
    rw [proceed, hpc] at hr
    simp only [invalidate] at hr
    split at hr <;> cases hr
    · exact .wild
    · exact .idle

/-- The places at which a call begins. -/
inductive Enters (m : Memory B V Q) (be : Backend Q) : Action B V Q → Pc Q → Prop
  | idle {a} : Enters m be a .idle
  | beginScan {b : B} {x dim level} :
    Enters m be (.beginScan b x dim level) (.begin ⟨x, dim, level, m.removed x⟩ .find)
  | resolve {b : B} {id t cc} : Enters m be (.resolve b id t) (.resolve (.scan id t) cc .fast)
  | read {b : B} {id t} : Enters m be (.read b id t) .wild
  | endScan {b : B} {id i cc} : Enters m be (.endScan b id) (.release .endScan (.dec i cc))
  | insert {b : B} {x t dim hit} :
    Enters m be (.insert b x t dim hit) (.write x (.insert t dim hit) .find)
  | bulkdelete {b : B} {x t} : Enters m be (.bulkdelete b x t) (.write x (.invalidate t) .find)
  | evict {b : B} {x} : Enters m be (.evict b x) (.evict (.admin (some x)) .lock)
  | reset {b : B} : Enters m be (.reset b) (.evict (.admin none) .lock)
  | subAbort {b : B} : Enters m be (.subAbort b) (.release (.abort be.nest) .next)
  | abort {b : B} : Enters m be (.abort b) (.release (.abort 0) .next)

theorem call_enters {a : Action B V Q} (hidle : be.pc = .idle) (hr : call m be a = some r) :
    Enters m be a r.2.pc := by
  have hrest : ∀ {be' : Backend Q} {a : Action B V Q}, be'.pc = .idle → Enters m be a be'.pc := by
    intro be' a hpc
    rw [hpc]
    exact .idle
  cases a with
  | beginScan | insert | bulkdelete | evict | subAbort =>
    simp only [call] at hr
    split at hr <;> cases hr
    constructor
  | reset | abort =>
    cases hr
    constructor
  | subCommit =>
    simp only [call] at hr
    split at hr <;> cases hr
    exact hrest hidle
  | resolve b id t =>
    obtain ⟨be', hbe, rfl⟩ := Option.map_eq_some_iff.mp hr
    obtain ⟨sc, -, rfl⟩ := Option.map_eq_some_iff.mp hbe
    split
    · exact hrest hidle
    · exact .resolve
  | read b id t =>
    obtain ⟨be', hbe, rfl⟩ := Option.map_eq_some_iff.mp hr
    obtain ⟨sc, -, hp⟩ := Option.bind_eq_some_iff.mp hbe
    obtain ⟨p, -, rfl⟩ := Option.map_eq_some_iff.mp hp
    split
    · exact hrest hidle
    · exact .read
  | endScan b id =>
    obtain ⟨be', hbe, rfl⟩ := Option.map_eq_some_iff.mp hr
    obtain ⟨sc, -, rfl⟩ := Option.map_eq_some_iff.mp hbe
    dsimp only
    split
    · exact hrest hidle
    · exact .endScan
  | subBegin | getDir | setSize =>
    cases hr
    exact hrest hidle
  | proceed | modify => cases hr

end

end PgAcorn.SharedCache
