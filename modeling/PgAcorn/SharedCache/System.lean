import PgAcorn.SharedCache.Write
import PgAcorn.CodeCache.Runs
import Mathlib.Data.Fintype.Basic

/-! The machine: any number of backends on one directory.

An action is the start of a call by a backend at rest, one step of the call it is in,
or a change of an index. What the access method owes the cache is part of the
actions: a deleted element stays deleted and its identifier is never used for
another; an insert upserts an element that its page holds; and vacuum does not find
an element dead while the call that inserts it is still running. -/
namespace PgAcorn.SharedCache
open Library
open CodeCache (Key ccNSlots Codec SlotState)

/-! ### Indexes -/

/-- `etup->deleted = 1`. -/
def markDeleted {V Q : Type} : IndexTuple V Q → IndexTuple V Q
  | .element e => .element { e with deleted := true }
  | x => x

/-- The identifiers of a relation's items. -/
def itemTids {V Q : Type} (r : Relation V Q) : List Tid :=
  (List.range r.pages.length).flatMap fun k =>
    (List.range ((r.pages[k]?).elim 0 fun p => p.items.length)).map fun o => ⟨k + 1, o + 1⟩

/-- Whether an identifier names a deleted element, or none at all. -/
def dead {V Q : Type} (r : Relation V Q) (t : Tid) : Bool :=
  (r.element t).all fun e => e.deleted

/-- Whether a change keeps the elements that are deleted, as deleted ones. -/
def keepsDead {V Q : Type} (r r' : Relation V Q) : Bool :=
  (itemTids r).all fun t =>
    !((r.element t).any fun e => e.deleted) || (r'.element t).any fun e => e.deleted

/-! ### Actions -/

inductive Action (B V Q : Type)
  | beginScan (b : B) (x : Key) (dim level : Nat)
  | resolve (b : B) (id : Nat) (t : Tid)
  | read (b : B) (id : Nat) (t : Tid)
  | endScan (b : B) (id : Nat)
  | insert (b : B) (x : Key) (t : Tid) (dim : Nat) (hit : Scan.CodeCacheHit Q)
  /-- `acorn_bulkdelete` marks an element and invalidates its entry -/
  | bulkdelete (b : B) (x : Key) (t : Tid)
  /-- `pg_acorn_code_cache_evict` -/
  | evict (b : B) (x : Key)
  /-- `pg_acorn_code_cache_reset` -/
  | reset (b : B)
  | subBegin (b : B)
  | subCommit (b : B)
  | subAbort (b : B)
  | abort (b : B)
  /-- `acorn_cc_get_dir`, through a statistics function -/
  | getDir (b : B)
  /-- `SET pg_acorn.code_cache_size` -/
  | setSize (b : B) (mb : Nat)
  /-- the next step of the call a backend is in -/
  | proceed (b : B) (c : Choice)
  | modify (x : Key) (r : Relation V Q)

/-- The backend whose action it is. -/
def Action.backend? {B V Q : Type} : Action B V Q → Option B
  | .beginScan b .. | .resolve b .. | .read b .. | .endScan b .. | .insert b .. | .bulkdelete b ..
  | .evict b _ | .reset b | .subBegin b | .subCommit b | .subAbort b | .abort b | .getDir b
  | .setSize b _ | .proceed b _ => some b
  | .modify .. => none

/-- The element that a write call upserts. -/
def Write.inserts {Q : Type} : Write Q → Option Tid
  | .insert t _ _ => some t
  | .invalidate _ => none

def Pc.atRest {Q : Type} : Pc Q → Bool
  | .idle => true
  | _ => false

/-- The element that the backend is inserting. -/
def Pc.inserts {Q : Type} : Pc Q → Option (Key × Tid)
  | .attach (.write x w) _ | .write x w _ => w.inserts.map fun t => (x, t)
  | .drain (.growDir w) _ _ _ | .drain (.growPage w _) _ _ _ | .insert w _ | .grow w _ _ _ _ =>
    some (w.key, w.t)
  | _ => none

section
variable {B V Q : Type} [DecidableEq B]

/-- The next step of the call a backend is in. -/
def proceed (codec : Codec V Q) (m : Memory B V Q) (b : B) (be : Backend Q) (c : Choice) :
    Option (Memory B V Q × Backend Q) :=
  match be.pc with
  | .idle => none
  | .wild => none
  | .begin q p => beginScan m be q p
  | .acquire q cached cc p => scanAcquire m be q cached cc p
  | .load q i p => load m be codec q i c p
  | .attach k p => attach m be b k c p
  | .evict e p => evictSlot m be b e c p
  | .release k p => releaseOneRef m be b k p
  | .drain k i cc p => drainRetired m be k i cc p
  | .resolve k cc p => resolveBlocks m be k cc p
  | .write x w p => writerAttach m be b x w p
  | .insert w p => ensurePage m be w c p
  | .grow w g added old p => growArray m be w g added old p
  | .invalidate x t cc dp => invalidate m be x t cc dp

/-- The start of a call by a backend at rest. -/
def call (m : Memory B V Q) (be : Backend Q) : Action B V Q → Option (Memory B V Q × Backend Q)
  | .beginScan _ x dim level =>
    -- the switches of the source: the cache is on and has a budget
    if x.isValid ∧ 0 < dim ∧ 0 < be.sizeMb ∧ level ≤ be.nest then
      some (m, { be with dirKnown := true, pc := .begin ⟨x, dim, level, m.removed x⟩ .find })
    else none
  | .resolve _ id t => (codecacheResolve be id t).map fun be => (m, be)
  | .read _ id t => (codecacheRead m be id t).map fun be => (m, be)
  | .endScan _ id => (endScan be id).map fun be => (m, be)
  | .insert _ x t dim hit =>
    if x.isValid ∧ t.offno ≠ 0 ∧ ¬ dead (m.world x) t then
      some (m, be.goto (.write x (.insert t dim hit) .find))
    else none
  | .bulkdelete _ x t =>
    if x.isValid ∧ ¬ dead (m.world x) t then
      some ({ m with world := Function.update m.world x ((m.world x).update t markDeleted) },
        be.goto (.write x (.invalidate t) .find))
    else none
  | .evict _ x =>
    if x.isValid ∧ be.dirKnown then some (m, be.goto (.evict (.admin (some x)) .lock)) else none
  | .reset _ => some (m, { be with dirKnown := true, pc := .evict (.admin none) .lock })
  | .subBegin _ => some (m, { be with nest := be.nest + 1 })
  | .subCommit _ =>
    -- the scans of the subtransaction become its parent's
    if be.nest = 0 then none
    else some (m, { be with
      nest := be.nest - 1
      scans := be.scans.map fun sc =>
        { sc with begun := { sc.begun with level := min sc.begun.level (be.nest - 1) } } })
  | .subAbort _ =>
    if be.nest = 0 then none
    else some (m, { be with nest := be.nest - 1, pc := .release (.abort be.nest) .next })
  | .abort _ => some (m, { be with nest := 0, pc := .release (.abort 0) .next })
  | .getDir _ => some (m, { be with dirKnown := true })
  | .setSize _ mb => some (m, { be with sizeMb := mb })
  | .proceed .. | .modify .. => none

/-- Whether a backend may make a call: it is at rest, and vacuum waits for inserts. -/
def mayCall [Fintype B] (s : State B V Q) (b : B) : Action B V Q → Bool
  | .bulkdelete _ x t =>
    (s.backends b).pc.atRest && decide (∀ b', (s.backends b').pc.inserts ≠ some (x, t))
  | _ => (s.backends b).pc.atRest

/-- What a backend's action makes of memory and of the backend. -/
def act [Fintype B] (codec : Codec V Q) (s : State B V Q) (b : B) :
    Action B V Q → Option (Memory B V Q × Backend Q)
  | .proceed _ c => proceed codec s.memory b (s.backends b) c
  | a => if mayCall s b a then call s.memory (s.backends b) a else none

/-- One action. -/
def step [Fintype B] (codec : Codec V Q) (s : State B V Q) (a : Action B V Q) :
    Option (State B V Q) :=
  match a with
  | .modify x r =>
    if keepsDead (s.memory.world x) r then
      some { s with memory := { s.memory with world := Function.update s.memory.world x r } }
    else none
  | a => a.backend?.bind fun b =>
    (act codec s b a).map fun p => ⟨p.1, Function.update s.backends b p.2⟩

/-- What an action was: a change of an index, a call, or the next step of one. -/
inductive Moved [Fintype B] (codec : Codec V Q) (s : State B V Q) (a : Action B V Q)
    (s' : State B V Q) : Prop
  | modify (x : Key) (r : Relation V Q) (ha : a = .modify x r)
      (hkeeps : keepsDead (s.memory.world x) r)
      (hs : s' = { s with
        memory := { s.memory with world := Function.update s.memory.world x r } })
  | call (b : B) (r : Memory B V Q × Backend Q) (hidle : (s.backends b).pc = .idle)
      (hmay : mayCall s b a) (hb : a.backend? = some b)
      (h : call s.memory (s.backends b) a = some r)
      (hs : s' = ⟨r.1, Function.update s.backends b r.2⟩)
  | proceed (b : B) (c : Choice) (r : Memory B V Q × Backend Q) (ha : a = .proceed b c)
      (h : proceed codec s.memory b (s.backends b) c = some r)
      (hs : s' = ⟨r.1, Function.update s.backends b r.2⟩)

theorem Pc.idle_of_atRest {pc : Pc Q} (h : pc.atRest) : pc = .idle := by
  cases pc <;> first | rfl | cases h

theorem moved [Fintype B] {codec : Codec V Q} {s s' : State B V Q} {a : Action B V Q}
    (h : step codec s a = some s') : Moved codec s a s' := by
  -- a call, from a backend at rest
  have hcall : ∀ b, a.backend? = some b → ((if mayCall s b a then call s.memory (s.backends b) a
      else none).map fun p => (⟨p.1, Function.update s.backends b p.2⟩ : State B V Q)) = some s' →
      Moved codec s a s' := by
    intro b hb h
    obtain ⟨r, hr, rfl⟩ := Option.map_eq_some_iff.mp h
    split at hr
    · rename_i hmay
      refine .call b r (Pc.idle_of_atRest ?_) hmay hb hr rfl
      cases a <;> simp only [mayCall, Bool.and_eq_true] at hmay <;> first | exact hmay | exact hmay.1
    · cases hr
  cases a with
  | modify x r =>
    simp only [step] at h
    split at h
    · rename_i hkeeps
      cases h
      exact .modify x r rfl hkeeps rfl
    · cases h
  | proceed b c =>
    obtain ⟨r, hr, rfl⟩ := Option.map_eq_some_iff.mp h
    exact .proceed b c r rfl hr rfl
  | beginScan | resolve | read | endScan | insert | bulkdelete | evict | reset | subBegin
  | subCommit | subAbort | abort | getDir | setSize => exact hcall _ rfl h

omit [DecidableEq B] in
/-- A call changes no memory but the indexes. -/
theorem call_world {m : Memory B V Q} {be : Backend Q} {a : Action B V Q}
    {r : Memory B V Q × Backend Q} (h : call m be a = some r) : ∃ w, r.1 = { m with world := w } := by
  cases a with
  | beginScan | insert | evict | subCommit | subAbort =>
    simp only [call] at h
    split at h <;> cases h
    exact ⟨m.world, rfl⟩
  | bulkdelete b x t =>
    simp only [call] at h
    split at h <;> cases h
    exact ⟨_, rfl⟩
  | resolve | read | endScan =>
    obtain ⟨be', -, rfl⟩ := Option.map_eq_some_iff.mp h
    exact ⟨m.world, rfl⟩
  | reset | subBegin | abort | getDir | setSize =>
    cases h
    exact ⟨m.world, rfl⟩
  | proceed | modify => cases h

/-- A directory that has just been created, and backends that have not used it, with
`pg_acorn.code_cache_size` at its default. -/
def State.init (world : Key → Relation V Q) : State B V Q where
  memory := {
    dirLock := ⟨none, []⟩, total := 0, clock := 1, slots := fun _ => Slot.init, areas := []
    world := world, removed := fun _ => [] }
  backends := fun _ => ⟨.idle, false, 512, [], fun _ => Handle.init, 0, [], 0⟩

/-- No operation is in flight. -/
def Quiet (s : State B V Q) : Prop := ∀ b, (s.backends b).pc = .idle

end

/-! ### Small runs -/

section
open CodeCache (indexX)

/-- Indexes of one element each. -/
def smallIndexes (x : Key) : Relation Int Int :=
  if x = indexX then Scan.lonelyIndex Int 3 else Scan.lonelyIndex Int 4

variable {B : Type}

/-- The next step of a backend, with no failure. -/
def next (b : B) : Action B Int Int := .proceed b (.plain 0)

/-- An evictor turns to a slot. -/
def turnTo (b : B) (i : Fin ccNSlots) : Action B Int Int := .proceed b ⟨some i, 0, false, false⟩

/-- A scan that loads its index and begins. -/
def loadAndScan (b : B) (x : Key) : List (Action B Int Int) :=
  .beginScan b x 1 0 :: List.replicate 24 (next b)

/-- The end of a scan that leaves nothing to reclaim. -/
def endAndRelease (b : B) (id : Nat) : List (Action B Int Int) := [.endScan b id, next b, next b]

/-- A scan that has attached a loaded index and is about to take its reference. -/
def attachForScan (b : B) (x : Key) : List (Action B Int Int) :=
  .beginScan b x 1 0 :: List.replicate 7 (next b)

/-- An eviction of one index, up to the first lock of its victim. -/
def chooseVictim (b : B) (x : Key) (i : Fin ccNSlots) : List (Action B Int Int) :=
  [.evict b x, next b, turnTo b i, next b]

end

end PgAcorn.SharedCache
