import PgAcorn.Build.Insert
import PgAcorn.Build.Sound
import PgAcorn.Library.Similar

/-! Marks that inserts do not look at.

An element may be marked as deleted, and an inline entry repeats the mark its target had when
the entry was written. Disks can differ in those marks only (`SameButMarks`); every page access
of an insert does the same on both, and it marks nothing (`Grows`). -/
namespace PgAcorn
open Library

variable {V Q : Type}

/-! ### Tuples without marks -/

def ElementTuple.unmarked (e : ElementTuple V) : ElementTuple V := { e with deleted := false }

def InlineEntry.unmarked (entry : InlineEntry Q) : InlineEntry Q := { entry with deleted := false }

def InlineChunk.unmarked (c : InlineChunk Q) : InlineChunk Q :=
  { c with entries := c.entries.map InlineEntry.unmarked }

def NeighborTuple.unmarked (n : NeighborTuple Q) : NeighborTuple Q :=
  { n with inline? := n.inline?.map InlineChunk.unmarked }

def IndexTuple.unmarked : IndexTuple V Q → IndexTuple V Q
  | .element e => .element e.unmarked
  | .neighbor n => .neighbor n.unmarked
  | .cont c => .cont c.unmarked

/-- Only the mark can differ. -/
theorem ElementTuple.fields_of_unmarked {e e' : ElementTuple V} (h : e.unmarked = e'.unmarked) :
    e.level = e'.level ∧ e.heaptids = e'.heaptids ∧ e.neighbortid = e'.neighbortid ∧
      e.filterVal = e'.filterVal ∧ e.vec = e'.vec := by
  cases e
  cases e'
  simpa [unmarked] using h

theorem NeighborTuple.tids_of_unmarked {n n' : NeighborTuple Q} (h : n.unmarked = n'.unmarked) :
    n.tids = n'.tids := by
  cases n
  cases n'
  exact (NeighborTuple.mk.inj h).1

theorem InlineChunk.fields_of_unmarked {c c' : InlineChunk Q} (h : c.unmarked = c'.unmarked) :
    c.start = c'.start ∧ c.next = c'.next ∧ c.entries.length = c'.entries.length := by
  cases c
  cases c'
  obtain ⟨hstart, hnext, hentries⟩ := InlineChunk.mk.inj h
  exact ⟨hstart, hnext, by simpa using congrArg List.length hentries⟩

/-! ### Relations, tuple by tuple -/

def Page.map {τ τ' : Type} (f : τ → τ') (p : Page τ) : Page τ' :=
  ⟨p.items.map f, p.pdLower, p.pdUpper⟩

/-- Free space does not depend on what the items are. -/
theorem pageAddItem_map {τ τ' : Type} (f : τ → τ') (p : Page τ) (x : τ) (size : Nat) :
    pageAddItem (p.map f) (f x) size = (pageAddItem p x size).map fun q => (q.1.map f, q.2) := by
  unfold pageAddItem
  by_cases h : p.pdLower + sizeOfItemId + maxAlign size > p.pdUpper
  · rw [if_pos h, if_pos (show (p.map f).pdLower + sizeOfItemId + maxAlign size > (p.map f).pdUpper
      from h), Option.map_none]
  · rw [if_neg h, if_neg (show ¬ (p.map f).pdLower + sizeOfItemId + maxAlign size >
      (p.map f).pdUpper from h), Option.map_some]
    simp [Page.map]

namespace Relation

/-- Every tuple rewritten. -/
def mapTuples (f : IndexTuple V Q → IndexTuple V Q) (r : Relation V Q) : Relation V Q :=
  { r with pages := r.pages.map (Page.map f) }

/-- The relation without marks. -/
def unmarked (r : Relation V Q) : Relation V Q := r.mapTuples IndexTuple.unmarked

variable {f : IndexTuple V Q → IndexTuple V Q} {r : Relation V Q}

theorem item_mapTuples (t : Tid) : (r.mapTuples f).item t = (r.item t).map f := by
  unfold item mapTuples
  split
  · rfl
  · rw [List.getElem?_map]
    cases r.pages[t.blkno - 1]? with
    | none => rfl
    | some p => exact List.getElem?_map

/-- What an attempt gives, tuple by tuple. -/
def Attempt.mapTuples (f : IndexTuple V Q → IndexTuple V Q) : Attempt V Q → Attempt V Q
  | .full => .full
  | .failed => .failed
  | .added t r => .added t (r.mapTuples f)

theorem appendAt_mapTuples (blkno : Nat) (x : IndexTuple V Q) (size : Nat) :
    (r.mapTuples f).appendAt blkno (f x) size =
      (r.appendAt blkno x size).map (Attempt.mapTuples f) := by
  unfold appendAt
  split
  · rfl
  rw [mapTuples, List.getElem?_map]
  cases hp : r.pages[blkno - 1]? with
  | none => rfl
  | some p =>
    simp only [Option.map_some, show pageGetFreeSpace (p.map f) = pageGetFreeSpace p from rfl]
    split
    · rw [pageAddItem_map]
      cases pageAddItem p x size with
      | none => rfl
      | some q => simp [Attempt.mapTuples, mapTuples, List.map_set]
    · rfl

theorem extendTuple_mapTuples (x : IndexTuple V Q) (size : Nat) :
    (r.mapTuples f).extendTuple (f x) size =
      (r.extendTuple x size).map fun p => (p.1, p.2.mapTuples f) := by
  unfold extendTuple
  rw [show (r.mapTuples f).pages.length = r.pages.length from List.length_map _]
  split
  · rfl
  have hadd := pageAddItem_map f Page.init x size
  rw [show (Page.init : Page (IndexTuple V Q)).map f = Page.init from rfl] at hadd
  rw [hadd]
  cases pageAddItem Page.init x size with
  | none => rfl
  | some q => simp [mapTuples]

theorem map_modify {α β : Type} {f : α → β} {g : α → α} {g' : β → β} (h : ∀ x, f (g x) = g' (f x))
    (xs : List α) (k : Nat) : (xs.modify k g).map f = (xs.map f).modify k g' := by
  apply List.ext_getElem?
  intro i
  rw [List.getElem?_map, List.getElem?_modify, List.getElem?_modify, List.getElem?_map]
  cases xs[i]? with
  | none => rfl
  | some x =>
    by_cases hi : k = i
    · simp [hi, h]
    · simp [hi]

theorem mapTuples_update {g g' : IndexTuple V Q → IndexTuple V Q} (h : ∀ x, f (g x) = g' (f x))
    (t : Tid) : (r.update t g).mapTuples f = (r.mapTuples f).update t g' := by
  unfold update
  split
  · rfl
  unfold mapTuples
  congr 1
  refine map_modify (fun p => ?_) _ _
  rw [Page.map, Page.map, map_modify h]

theorem element_unmarked (t : Tid) :
    r.unmarked.element t = (r.element t).map ElementTuple.unmarked := by
  unfold element unmarked
  rw [item_mapTuples]
  cases r.item t with
  | none => rfl
  | some x => cases x <;> rfl

theorem neighbor_unmarked (t : Tid) :
    r.unmarked.neighbor t = (r.neighbor t).map NeighborTuple.unmarked := by
  unfold neighbor unmarked
  rw [item_mapTuples]
  cases r.item t with
  | none => rfl
  | some x => cases x <;> rfl

theorem vacant_unmarked : r.unmarked.vacant = r.vacant := by
  rw [Bool.eq_iff_iff, vacant_iff, vacant_iff]
  simp only [element_unmarked, Option.map_eq_none_iff]

theorem chunk_unmarked (t : Tid) : (r.unmarked.item t).bind IndexTuple.chunk? =
    ((r.item t).bind IndexTuple.chunk?).map InlineChunk.unmarked := by
  rw [unmarked, item_mapTuples]
  cases r.item t with
  | none => rfl
  | some x => cases x <;> rfl

end Relation

namespace Build
open Library
open PgAcorn.Filter (Datum)

variable {I D : Type}

/-! ### Disks that differ in marks -/

/-- The disks are the same but for marks. -/
structure SameButMarks (s s' : Disk I V Q) : Prop where
  relation : s.relation.unmarked = s'.relation.unmarked
  history : s.history = s'.history

theorem SameButMarks.refl (s : Disk I V Q) : SameButMarks s s := ⟨rfl, rfl⟩

/-- Elements stay as they are, new ones are unmarked, and pages stay. -/
structure Adds (s s' : Disk I V Q) : Prop where
  kept : ∀ t e, s.relation.element t = some e → s'.relation.element t = some e
  new : ∀ t e, s'.relation.element t = some e → s.relation.element t = some e ∨ e.deleted = false
  blocks : s.relation.pages.length ≤ s'.relation.pages.length

theorem Adds.refl (s : Disk I V Q) : Adds s s := ⟨fun _ _ h => h, fun _ _ h => .inl h, le_rfl⟩

theorem Adds.of_relation {s s' s'' : Disk I V Q} (h : Adds s s')
    (heq : s''.relation = s'.relation) : Adds s s'' := by
  refine ⟨?_, ?_, ?_⟩
  · rw [heq]
    exact h.kept
  · rw [heq]
    exact h.new
  · rw [heq]
    exact h.blocks

/-- An appended tuple. -/
theorem Adds.append {s : Disk I V Q} {r : Relation V Q} {x : IndexTuple V Q} {t : Tid}
    (h : Relation.Appended s.relation r x t) (hx : ∀ e, x = .element e → e.deleted = false) :
    Adds s (s.withRelation r) where
  kept u e he := h.element_of_element he
  new u e he := by
    by_cases hu : u = t
    · subst hu
      have hitem := Relation.element_some.mp he
      rw [Disk.withRelation, h.item_self] at hitem
      exact .inr (hx e (Option.some.inj hitem))
    · refine .inl ?_
      rwa [← Relation.element_congr (h.item_other u hu)]
  blocks := h.blocks

/-- A tuple rewritten in place that is no element. -/
theorem Adds.update {f : IndexTuple V Q → IndexTuple V Q} (hf : KeepsKind f) (s : Disk I V Q)
    (t : Tid) : Adds s (s.withRelation (s.relation.update t f)) := by
  have hshape := hf.sameShape s.relation t
  refine ⟨fun u e he => ?_, fun u e he => .inl ?_, hshape.blocks⟩
  · rw [Disk.withRelation, hshape.element, he]
  · rwa [Disk.withRelation, hshape.element] at he

/-- The two programs do the same on such disks, with related answers, and add no marks. -/
abbrev Blind {α α' : Type} (A : α → α' → Prop) (p : Prog (Disk I V Q) α)
    (q : Prog (Disk I V Q) α') : Prop := Similar SameButMarks Adds A p q

/-! ### Reads -/

section
variable {s s' : Disk I V Q}

/-- Options that agree after `f`. -/
theorem rel_of_map_eq {α β : Type} {f : α → β} {a b : Option α} (h : a.map f = b.map f) :
    Option.Rel (fun x y => f x = f y) a b := by
  cases a with
  | none =>
    cases b with
    | none => exact .none
    | some y => cases h
  | some x =>
    cases b with
    | none => cases h
    | some y => exact .some (Option.some.inj h)

namespace SameButMarks
variable (h : SameButMarks s s')
include h

theorem metaPage : s.relation.metaPage = s'.relation.metaPage := by
  have hmeta := congrArg Relation.metaPage h.relation
  exact hmeta

theorem length : s.relation.pages.length = s'.relation.pages.length := by
  have hlen := congrArg (fun r => r.pages.length) h.relation
  simpa [Relation.unmarked, Relation.mapTuples] using hlen

theorem element (t : Tid) : Option.Rel (fun e e' => e.unmarked = e'.unmarked)
    (s.relation.element t) (s'.relation.element t) := by
  apply rel_of_map_eq
  rw [← Relation.element_unmarked, ← Relation.element_unmarked, h.relation]

theorem neighbor (t : Tid) : Option.Rel (fun n n' => n.unmarked = n'.unmarked)
    (s.relation.neighbor t) (s'.relation.neighbor t) := by
  apply rel_of_map_eq
  rw [← Relation.neighbor_unmarked, ← Relation.neighbor_unmarked, h.relation]

theorem chunk (t : Tid) : Option.Rel (fun c c' => c.unmarked = c'.unmarked)
    ((s.relation.item t).bind IndexTuple.chunk?) ((s'.relation.item t).bind IndexTuple.chunk?) := by
  apply rel_of_map_eq
  rw [← Relation.chunk_unmarked, ← Relation.chunk_unmarked, h.relation]

theorem vacant : s.relation.vacant = s'.relation.vacant := by
  rw [← Relation.vacant_unmarked, h.relation, Relation.vacant_unmarked]

end SameButMarks

/-! ### What an access leaves -/

theorem SameButMarks.withRelation {r r' : Relation V Q} (h : SameButMarks s s')
    (hr : r.unmarked = r'.unmarked) : SameButMarks (s.withRelation r) (s'.withRelation r') :=
  ⟨hr, h.history⟩

theorem SameButMarks.access (h : SameButMarks s s') (a : Access) :
    SameButMarks (s.access a) (s'.access a) := by
  refine ⟨h.relation, ?_⟩
  rw [Disk.access, Disk.access, h.history]

theorem SameButMarks.event (h : SameButMarks s s') (e : Event I) :
    SameButMarks (s.event e) (s'.event e) := by
  refine ⟨h.relation, ?_⟩
  rw [Disk.event, Disk.event, h.history]

theorem SameButMarks.write (h : SameButMarks s s') (t : Tid) (layers : Nat → List Tid) :
    SameButMarks (s.write t layers) (s'.write t layers) := by
  refine ⟨h.relation, ?_⟩
  rw [Disk.write, Disk.write, h.history]

theorem SameButMarks.noteWrite (h : SameButMarks s s') (w : SlotWrite) :
    SameButMarks (s.noteWrite w) (s'.noteWrite w) := by
  refine ⟨h.relation, ?_⟩
  rw [Disk.noteWrite, Disk.noteWrite, h.history]

theorem SameButMarks.updateEntry (h : SameButMarks s s') (t : Tid) (level : Nat) :
    SameButMarks (s.updateEntry t level) (s'.updateEntry t level) := by
  have hpages := congrArg Relation.pages h.relation
  refine ⟨?_, ?_⟩
  · simp only [Disk.updateEntry, h.metaPage, Relation.unmarked, Relation.mapTuples] at hpages ⊢
    rw [hpages]
  · rw [Disk.updateEntry, Disk.updateEntry, h.history]

theorem unmarked_setSlot (k : Nat) (e : Tid) (x : IndexTuple V Q) :
    (setSlot k e x).unmarked = setSlot k e x.unmarked := by
  cases x <;> rfl

theorem SameButMarks.putSlot (h : SameButMarks s s') (t : Tid) (layer k idx : Nat) (e : Tid) :
    SameButMarks (s.putSlot t layer k idx e) (s'.putSlot t layer k idx e) := by
  unfold Disk.putSlot
  rw [h.history]
  refine (h.withRelation ?_).write t _
  rw [Relation.unmarked, Relation.unmarked, Relation.mapTuples_update (unmarked_setSlot k e),
    Relation.mapTuples_update (unmarked_setSlot k e)]
  exact congrArg (fun r => r.update t (setSlot k e)) h.relation

theorem unmarked_setEntry (idx : Nat) (entry : InlineEntry Q) (x : IndexTuple V Q) :
    (setEntry idx entry x).unmarked = setEntry idx entry.unmarked x.unmarked := by
  cases x with
  | element e => rfl
  | neighbor n =>
    simp only [setEntry, IndexTuple.unmarked, NeighborTuple.unmarked, Option.map_map]
    congr 3
    funext c
    simp [InlineChunk.unmarked, List.map_set]
  | cont c => simp [setEntry, IndexTuple.unmarked, InlineChunk.unmarked, List.map_set]

theorem SameButMarks.setEntry (h : SameButMarks s s') (t : Tid) (idx : Nat)
    {entry entry' : InlineEntry Q} (hentry : entry.unmarked = entry'.unmarked) :
    SameButMarks (s.withRelation (s.relation.update t (setEntry idx entry)))
      (s'.withRelation (s'.relation.update t (setEntry idx entry'))) := by
  refine h.withRelation ?_
  rw [Relation.unmarked, Relation.unmarked, Relation.mapTuples_update (unmarked_setEntry idx entry),
    Relation.mapTuples_update (unmarked_setEntry idx entry'), hentry]
  exact congrArg (fun r => r.update t (Build.setEntry idx entry'.unmarked)) h.relation

end

/-! ### Page accesses -/

section
variable {i : I}

theorem blind_readMeta : Blind Eq (readMeta (V := V) (Q := Q) i) (readMeta i) := by
  apply Similar.lift
  intro s s' h
  refine ⟨(Adds.refl s).of_relation rfl, _, _, rfl, ?_, h.metaPage⟩
  rw [← h.metaPage, ← h.vacant]
  exact h.event _

theorem blind_readElement (t : Tid) :
    Blind (fun e e' => e.unmarked = e'.unmarked) (readElement (I := I) (V := V) (Q := Q) t)
      (readElement t) :=
  .read Adds.refl fun _ _ h => h.element t

theorem blind_nodeDistance (oc : Opclass V Q D) (query : V) (t : Tid) :
    Blind Eq (nodeDistance (I := I) oc query t) (nodeDistance oc query t) := by
  apply Similar.read Adds.refl
  intro s s' h
  obtain ⟨he, he'⟩ | ⟨e, e', he, he', heq⟩ := rel_cases (h.element t)
  · rw [he, he']
    exact .none
  · obtain ⟨-, -, -, hfilter, hvec⟩ := ElementTuple.fields_of_unmarked heq
    rw [he, he', Option.map_some, Option.map_some, hvec, hfilter]
    exact .some rfl

theorem blind_copySlots (nbrtid : Tid) (layer : Nat) (start : Int) (len : Nat) (whole : Bool) :
    Blind Eq (copySlots (I := I) (V := V) (Q := Q) nbrtid layer start len whole)
      (copySlots nbrtid layer start len whole) := by
  apply Similar.lift
  intro s s' h
  have hslots : ((s.relation.neighbor nbrtid).bind fun n => slotRange n.tids start len) =
      (s'.relation.neighbor nbrtid).bind fun n => slotRange n.tids start len := by
    obtain ⟨hn, hn'⟩ | ⟨n, n', hn, hn', heq⟩ := rel_cases (h.neighbor nbrtid)
    · rw [hn, hn']
    · rw [hn, hn', Option.bind_some, Option.bind_some, NeighborTuple.tids_of_unmarked heq]
  rw [← hslots]
  cases (s.relation.neighbor nbrtid).bind fun n => slotRange n.tids start len with
  | none => rfl
  | some range => exact ⟨(Adds.refl s).of_relation rfl, _, _, rfl, h.access _, rfl⟩

theorem blind_readNbrTidsAtLayer (nbrtid : Tid) (elemLevel layer mEff payloadM maxTids : Nat) :
    Blind (I := I) (V := V) (Q := Q) Eq
      (readNbrTidsAtLayer nbrtid elemLevel layer mEff payloadM maxTids)
      (readNbrTidsAtLayer nbrtid elemLevel layer mEff payloadM maxTids) := by
  refine .bind (blind_copySlots nbrtid layer _ _ true) fun tids _ htids => ?_
  subst htids
  exact .pure rfl

/-! ### Appends -/

/-- What is recorded of an appended tuple does not depend on marks. -/
structure Recording (note : Tid → Disk I V Q → Disk I V Q) : Prop where
  relation : ∀ t s, (note t s).relation = s.relation
  same : ∀ t s s', SameButMarks s s' → SameButMarks (note t s) (note t s')

theorem recording_none : Recording fun _ (s : Disk I V Q) => s := ⟨fun _ _ => rfl, fun _ _ _ h => h⟩

/-- Tuples to append that differ in marks only, an element without. -/
structure Fresh (x x' : IndexTuple V Q) : Prop where
  same : x.unmarked = x'.unmarked
  element : ∀ e, x = .element e → e.deleted = false

variable {x x' : IndexTuple V Q} (hx : Fresh x x') (size : Nat)
  {note : Tid → Disk I V Q → Disk I V Q} (hnote : Recording note)
include hx hnote

theorem blind_addToPage (blkno : Nat) :
    Blind Eq (addToPage blkno x size note) (addToPage blkno x' size note) := by
  apply Similar.lift
  intro s s' h
  -- the attempt on the relation without marks
  have hattempt : (s.relation.appendAt blkno x size).map (Relation.Attempt.mapTuples .unmarked) =
      (s'.relation.appendAt blkno x' size).map (Relation.Attempt.mapTuples .unmarked) := by
    rw [← Relation.appendAt_mapTuples, ← Relation.appendAt_mapTuples, hx.same]
    exact congrArg (fun r => r.appendAt blkno x'.unmarked size) h.relation
  obtain ⟨ha, ha'⟩ | ⟨a, a', ha, ha', heq⟩ := rel_cases (rel_of_map_eq hattempt)
  · rw [ha, ha']
  rw [ha, ha']
  cases a with
  | full =>
    cases a' with
    | full => exact ⟨.refl s, _, _, rfl, h, rfl⟩
    | failed | added => cases heq
  | failed =>
    cases a' with
    | failed => exact ⟨.refl s, _, _, rfl, h, rfl⟩
    | full | added => cases heq
  | added t r =>
    cases a' with
    | full | failed => cases heq
    | added t' r' =>
      obtain ⟨rfl, hr⟩ := Relation.Attempt.added.inj heq
      have hadds := Adds.append (Relation.appendAt_spec ha).1 hx.element
      exact ⟨hadds.of_relation (hnote.relation _ _), _, _, rfl,
        hnote.same _ _ _ (h.withRelation hr), rfl⟩

theorem blind_addPage : Blind Eq (addPage x size note) (addPage x' size note) := by
  apply Similar.lift
  intro s s' h
  have hextend : (s.relation.extendTuple x size).map (fun p => (p.1, p.2.unmarked)) =
      (s'.relation.extendTuple x' size).map fun p => (p.1, p.2.unmarked) := by
    refine (Relation.extendTuple_mapTuples x size).symm.trans ?_
    refine Eq.trans ?_ (Relation.extendTuple_mapTuples x' size)
    rw [hx.same]
    exact congrArg (fun r => r.extendTuple x'.unmarked size) h.relation
  obtain ⟨ha, ha'⟩ | ⟨⟨t, r⟩, ⟨t', r'⟩, ha, ha', heq⟩ := rel_cases (rel_of_map_eq hextend)
  · rw [ha, ha']
    exact ⟨.refl s, _, _, rfl, h, rfl⟩
  · obtain ⟨rfl, hr⟩ := Prod.mk.inj heq
    rw [ha, ha']
    have hadds := Adds.append (Relation.extendTuple_spec ha) hx.element
    exact ⟨hadds.of_relation (hnote.relation _ _), _, _, rfl,
      hnote.same _ _ _ (h.withRelation hr), rfl⟩

theorem blind_appendPage : Blind Eq (appendPage x size note) (appendPage x' size note) := by
  refine .bind (blind_addPage hx size hnote) fun added _ ha => ?_
  subst ha
  cases added with
  | none => exact .raise _
  | some t => exact .pure rfl

theorem blind_appendTuple : Blind Eq (appendTuple x size note) (appendTuple x' size note) := by
  have hblocks : Blind Eq (numberOfBlocks (I := I) (V := V) (Q := Q)) numberOfBlocks :=
    .read Adds.refl fun s s' h => .some (by rw [h.length])
  refine .bind hblocks fun nblocks _ hn => ?_
  subst hn
  refine .ite (fun _ => ?_) fun _ => blind_appendPage hx size hnote
  refine .bind (blind_addToPage hx size hnote (nblocks - 1)) fun added _ ha => ?_
  subst ha
  cases added with
  | none => exact blind_appendPage hx size hnote
  | some added =>
    cases added with
    | none => exact .raise _
    | some t => exact .pure rfl

end

/-! ### Updates in place -/

section

theorem blind_maybeUpdateEntry (t : Tid) (level : Nat) :
    Blind Eq (maybeUpdateEntry (I := I) (V := V) (Q := Q) t level) (maybeUpdateEntry t level) :=
  .lift fun _ _ h => ⟨⟨fun _ _ h => h, fun _ _ h => .inl h, le_rfl⟩, (), _, rfl,
    h.updateEntry t level, rfl⟩

theorem blind_writeSlot (layer off : Nat) (w : ReverseEdge) :
    Blind Eq (writeSlot (I := I) (V := V) (Q := Q) layer off w) (writeSlot layer off w) := by
  apply Similar.lift
  intro s s' h
  obtain ⟨hn, hn'⟩ | ⟨n, n', hn, hn', heq⟩ := rel_cases (h.neighbor w.nbrtid)
  · simp only [hn, hn']
  · simp only [hn, hn', NeighborTuple.tids_of_unmarked heq]
    cases slotRange n'.tids (w.start + w.target) 1 with
    | none => rfl
    | some range =>
      refine ⟨?_, (), _, rfl, ((h.putSlot _ _ _ _ _).access _).noteWrite _, trivial⟩
      exact (Adds.update (keepsKind_setSlot _ _) s w.nbrtid).of_relation rfl

theorem blind_readChunk (t : Tid) : Blind (fun c c' => c.unmarked = c'.unmarked)
    (readChunk (I := I) (V := V) (Q := Q) t) (readChunk t) :=
  .read Adds.refl fun _ _ h => h.chunk t

/-- The entries to write may differ in the mark. -/
theorem blind_writeEntry (t : Tid) (idx : Nat) {entry entry' : InlineEntry Q}
    (hentry : entry.unmarked = entry'.unmarked) :
    Blind Eq (writeEntry (I := I) (V := V) t idx entry) (writeEntry t idx entry') := by
  apply Similar.lift
  intro s s' h
  obtain ⟨hc, hc'⟩ | ⟨c, c', hc, hc', heq⟩ := rel_cases (h.chunk t)
  · simp only [hc, hc']
  · obtain ⟨-, -, hlen⟩ := InlineChunk.fields_of_unmarked heq
    simp only [hc, hc', hlen]
    by_cases hidx : idx < c'.entries.length
    · rw [if_pos hidx, if_pos hidx]
      exact ⟨Adds.update (keepsKind_setEntry _ _) s t, (), _, rfl, h.setEntry t idx hentry, trivial⟩
    · rw [if_neg hidx, if_neg hidx]

theorem blind_t2InlineWriteEntry (fuel : Nat) (t : Tid) (slot : Nat) {entry entry' : InlineEntry Q}
    (hentry : entry.unmarked = entry'.unmarked) :
    Blind Eq (t2InlineWriteEntry (I := I) (V := V) fuel t slot entry)
      (t2InlineWriteEntry fuel t slot entry') := by
  induction fuel generalizing t with
  | zero => exact .diverge
  | succ fuel ih =>
    refine .bind (blind_readChunk t) fun c c' hc => ?_
    obtain ⟨hstart, hnext, hlen⟩ := InlineChunk.fields_of_unmarked hc
    rw [hstart, hnext, hlen]
    refine .ite (fun _ => blind_writeEntry t _ hentry) fun _ => ?_
    exact .ite (fun _ => .pure rfl) fun _ => ih c'.next

end

end Build

end PgAcorn
