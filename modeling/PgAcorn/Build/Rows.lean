import PgAcorn.Build.Reads
import Mathlib.Algebra.Order.Group.Multiset
import Mathlib.Tactic.Abel

/-! The rows an index holds, and the one that `acorn_insert_element` adds.

A row of the index is what an element tuple says of the heap: its heap identifiers,
filter value and vector. Rewriting slots, entries or the entry point changes no row,
nor does a new neighbor tuple or chunk; a new element adds its own. -/
namespace PgAcorn.Build
open Library
open PgAcorn.Filter (Datum)

section
variable {I V Q D : Type}

/-- What an element tuple says of the heap. -/
structure IndexedRow (V : Type) where
  heaptids : Vector Tid hnswHeaptids
  filterVal : Datum
  vec : V
  deriving DecidableEq

def tupleRow : IndexTuple V Q → Option (IndexedRow V)
  | .element e => some ⟨e.heaptids, e.filterVal, e.vec⟩
  | _ => none

/-- The rows of a page. -/
def pageRows (p : Page (IndexTuple V Q)) : List (IndexedRow V) := p.items.filterMap tupleRow

/-- The rows of an index, with their multiplicities. -/
def rows (r : Relation V Q) : Multiset (IndexedRow V) := (r.pages.flatMap pageRows : List (IndexedRow V))

/-- The row an element tuple is to carry for a heap row. -/
def rowOf (heaptid : Tid) (filterVal : Datum) (value : V) : IndexedRow V :=
  ⟨singleHeaptid heaptid, filterVal, value⟩

/-! ### Relations -/

variable {r r' : Relation V Q}

theorem rows_append_page (p : MetaPage) (pages : List (Page (IndexTuple V Q)))
    (page : Page (IndexTuple V Q)) :
    rows ⟨p, pages ++ [page]⟩ = rows ⟨p, pages⟩ + (pageRows page : Multiset (IndexedRow V)) := by
  simp [rows]

theorem rows_extendTuple {x : IndexTuple V Q} {size : Nat} {t : Tid}
    (h : r.extendTuple x size = some (t, r')) :
    rows r' = rows r + ((tupleRow x).toList : Multiset (IndexedRow V)) := by
  unfold Relation.extendTuple at h
  split at h
  · cases h
  obtain ⟨⟨p', off⟩, hadd, heq⟩ := Option.map_eq_some_iff.mp h
  obtain ⟨hitems, -⟩ := pageAddItem_some hadd
  cases heq
  rw [rows_append_page]
  congr 2
  rw [pageRows, hitems]
  cases hrow : tupleRow x <;> simp [Page.init, hrow]

theorem rows_set {pages : List (Page (IndexTuple V Q))} {k : Nat} {page page' : Page (IndexTuple V Q)}
    {x : IndexTuple V Q} (p : MetaPage) (hpage : pages[k]? = some page)
    (hitems : page'.items = page.items ++ [x]) :
    rows ⟨p, pages.set k page'⟩ = rows ⟨p, pages⟩ + ((tupleRow x).toList : Multiset (IndexedRow V)) := by
  induction pages generalizing k with
  | nil => cases hpage
  | cons first rest ih =>
    cases k with
    | zero =>
      obtain rfl := Option.some.inj hpage
      have hrows : pageRows page' = pageRows first ++ (tupleRow x).toList := by
        rw [pageRows, hitems, List.filterMap_append]
        cases hrow : tupleRow x <;> simp [pageRows, hrow]
      simp only [rows, List.set_cons_zero, List.flatMap_cons, hrows, ← Multiset.coe_add]
      abel
    | succ k =>
      have hrest := ih hpage
      simp only [rows, List.set_cons_succ, List.flatMap_cons, ← Multiset.coe_add] at hrest ⊢
      rw [hrest]
      abel

theorem rows_appendAt {blkno : Nat} {x : IndexTuple V Q} {size : Nat} {t : Tid}
    (h : r.appendAt blkno x size = some (.added t r')) :
    rows r' = rows r + ((tupleRow x).toList : Multiset (IndexedRow V)) := by
  unfold Relation.appendAt at h
  split at h
  · cases h
  obtain ⟨p, hp, hadd⟩ := Option.map_eq_some_iff.mp h
  split at hadd
  swap
  · cases hadd
  split at hadd
  swap
  · cases hadd
  rename_i p' off hitem
  obtain ⟨hitems, -⟩ := pageAddItem_some hitem
  cases hadd
  exact rows_set r.metaPage hp hitems

theorem rows_appendTuple {x : IndexTuple V Q} {size : Nat} {t : Tid}
    (h : r.appendTuple x size = some (t, r')) :
    rows r' = rows r + ((tupleRow x).toList : Multiset (IndexedRow V)) := by
  unfold Relation.appendTuple at h
  split at h
  swap
  · exact rows_extendTuple h
  rename_i p hlast
  split at h
  swap
  · exact rows_extendTuple h
  obtain ⟨⟨p', off⟩, hadd, heq⟩ := Option.map_eq_some_iff.mp h
  obtain ⟨hitems, -⟩ := pageAddItem_some hadd
  cases heq
  obtain ⟨init, hinit⟩ := List.getLast?_eq_some_iff.mp hlast
  have hset : r.pages.dropLast ++ [p'] = r.pages.set init.length p' := by
    simp [hinit]
  rw [hset]
  apply rows_set r.metaPage _ hitems
  simp [hinit]

/-- A rewrite that leaves rows as they are. -/
theorem rows_update {f : IndexTuple V Q → IndexTuple V Q} (hf : ∀ x, tupleRow (f x) = tupleRow x) (t : Tid) :
    rows (r.update t f) = rows r := by
  have hitems : ∀ (items : List (IndexTuple V Q)) (k : Nat),
      (items.modify k f).filterMap tupleRow = items.filterMap tupleRow := by
    intro items
    induction items with
    | nil => intro k; simp
    | cons x items ih =>
      intro k
      cases k with
      | zero => simp [List.filterMap_cons, hf]
      | succ k => simp [List.filterMap_cons, ih]
  have hpages : ∀ (pages : List (Page (IndexTuple V Q))) (k o : Nat),
      (pages.modify k fun p => { p with items := p.items.modify o f }).flatMap pageRows =
        pages.flatMap pageRows := by
    intro pages
    induction pages with
    | nil => intro k o; simp
    | cons p pages ih =>
      intro k o
      cases k with
      | zero => simp [pageRows, hitems]
      | succ k => simp [ih]
  unfold Relation.update
  split
  · rfl
  · exact congrArg (fun l : List (IndexedRow V) => (l : Multiset (IndexedRow V)))
      (hpages r.pages (t.blkno - 1) (t.offno - 1))

theorem tupleRow_setSlot (k : Nat) (e : Tid) (x : IndexTuple V Q) : tupleRow (setSlot k e x) = tupleRow x := by
  cases x <;> rfl

theorem tupleRow_setEntry (idx : Nat) (entry : InlineEntry Q) (x : IndexTuple V Q) :
    tupleRow (setEntry idx entry x) = tupleRow x := by
  cases x <;> rfl

/-! ### Operations that change no row -/

/-- The rows of the index on disk. -/
def diskRows (s : Disk I V Q) : Multiset (IndexedRow V) := rows s.relation

theorem maybeUpdateEntry_keeps (t : Tid) (level : Nat) :
    (maybeUpdateEntry t level : Prog (Disk I V Q) Unit).Keeps diskRows := by
  apply Prog.Keeps.lift
  intro s b s' h
  cases h
  rfl

theorem writeSlot_keeps (layer off : Nat) (w : ReverseEdge) :
    (writeSlot layer off w : Prog (Disk I V Q) Unit).Keeps diskRows := by
  apply Prog.Keeps.lift
  intro s b s' h
  split at h
  · split at h
    · cases h
      exact rows_update (tupleRow_setSlot _ _) _
    · cases h
  · cases h

theorem writeEntry_keeps (t : Tid) (idx : Nat) (entry : InlineEntry Q) :
    (writeEntry t idx entry : Prog (Disk I V Q) Unit).Keeps diskRows := by
  apply Prog.Keeps.lift
  intro s b s' h
  split at h
  · split at h
    · cases h
      exact rows_update (tupleRow_setEntry _ _) _
    · cases h
  · cases h

theorem t2InlineWriteEntry_keeps (fuel : Nat) (t : Tid) (slot : Nat) (entry : InlineEntry Q) :
    (t2InlineWriteEntry fuel t slot entry : Prog (Disk I V Q) Unit).Keeps diskRows := by
  induction fuel generalizing t with
  | zero => trivial
  | succ fuel ih =>
    rw [t2InlineWriteEntry]
    refine .bind (.read _) fun c => ?_
    split
    · exact writeEntry_keeps _ _ _
    · split
      · exact .pure _
      · exact ih c.next

/-! ### Appending a tuple -/

/-- Notes about an append concern the record only. -/
def NotesOnly (note : Tid → Disk I V Q → Disk I V Q) : Prop :=
  ∀ t s, (note t s).relation = s.relation

/-- What an append that ends has done. -/
theorem appendTuple_cases {x : IndexTuple V Q} {size : Nat} {note : Tid → Disk I V Q → Disk I V Q}
    {s s' : Disk I V Q} {t : Tid} (h : (appendTuple x size note).exec s = some (t, s')) :
    ∃ r, s' = note t (s.withRelation r) ∧ (s.relation.extendTuple x size = some (t, r) ∨
      ∃ blkno, s.relation.appendAt blkno x size = some (.added t r)) := by
  have hpage : (appendPage x size note).exec s = some (t, s') →
      ∃ r, s' = note t (s.withRelation r) ∧ s.relation.extendTuple x size = some (t, r) := by
    intro h
    simp only [appendPage, addPage, Prog.lift, Prog.bind_eq, Prog.bind, Prog.exec] at h
    cases hext : s.relation.extendTuple x size with
    | none =>
      rw [hext] at h
      cases h
    | some tr =>
      rw [hext] at h
      obtain ⟨rfl, rfl⟩ := Prod.mk.inj (Option.some.inj h)
      exact ⟨_, rfl, rfl⟩
  simp only [appendTuple, numberOfBlocks, Prog.read, Prog.lift, Prog.bind_eq, Prog.bind,
    Prog.exec] at h
  split at h
  · simp only [addToPage, Prog.lift, Prog.bind, Prog.exec] at h
    cases hat : s.relation.appendAt (s.relation.pages.length + 1 - 1) x size with
    | none =>
      rw [hat] at h
      cases h
    | some attempt =>
      rw [hat] at h
      cases attempt with
      | full =>
        obtain ⟨r, hs', hext⟩ := hpage h
        exact ⟨r, hs', .inl hext⟩
      | failed => cases h
      | added t r =>
        obtain ⟨rfl, rfl⟩ := Prod.mk.inj (Option.some.inj h)
        exact ⟨r, rfl, .inr ⟨_, hat⟩⟩
  · obtain ⟨r, hs', hext⟩ := hpage h
    exact ⟨r, hs', .inl hext⟩

/-- **An append that ends has added the tuple's row, if it has one.** -/
theorem appendTuple_exec {x : IndexTuple V Q} {size : Nat} {note : Tid → Disk I V Q → Disk I V Q}
    (hnote : NotesOnly note) {s s' : Disk I V Q} {t : Tid}
    (h : (appendTuple x size note).exec s = some (t, s')) :
    diskRows s' = diskRows s + ((tupleRow x).toList : Multiset (IndexedRow V)) := by
  obtain ⟨r, rfl, hr⟩ := appendTuple_cases h
  unfold diskRows
  rw [hnote]
  obtain hext | ⟨blkno, hat⟩ := hr
  · exact rows_extendTuple hext
  · exact rows_appendAt hat

/-- **An append that ends has added the tuple**, and changed no other. -/
theorem appendTuple_appended {x : IndexTuple V Q} {size : Nat}
    {note : Tid → Disk I V Q → Disk I V Q} (hnote : NotesOnly note) {s s' : Disk I V Q} {t : Tid}
    (h : (appendTuple x size note).exec s = some (t, s')) :
    Relation.Appended s.relation s'.relation x t := by
  obtain ⟨r, rfl, hr⟩ := appendTuple_cases h
  rw [hnote]
  obtain hext | ⟨blkno, hat⟩ := hr
  · exact Relation.extendTuple_spec hext
  · exact (Relation.appendAt_spec hat).1

/-- What an append of the tuple leaves true, page by page. -/
theorem appendTuple_yields {P : Relation V Q → Prop} {x : IndexTuple V Q}
    (hP : ∀ {r r' : Relation V Q} {t : Tid}, Relation.Appended r r' x t → P r → P r') (size : Nat)
    {note : Tid → Disk I V Q → Disk I V Q} (hnote : NotesOnly note) :
    (appendTuple x size note).Yields (fun s => P s.relation) fun _ => True := by
  have hpage : (appendPage x size note).Yields (fun s => P s.relation) fun _ => True := by
    refine .bind (Q := fun _ => True) (.lift fun s b s' hs hop => ?_) fun added _ => ?_
    · split at hop
      · cases hop
        exact ⟨hs, trivial⟩
      · rename_i hext
        cases hop
        refine ⟨?_, trivial⟩
        rw [hnote]
        exact hP (Relation.extendTuple_spec hext) hs
    · cases added <;> trivial
  refine .bind (Q := fun _ => True) (.read fun _ _ _ _ => trivial) fun nblocks _ => ?_
  split
  · refine .bind (Q := fun _ => True) (.lift fun s b s' hs hop => ?_) fun added _ => ?_
    · split at hop
      · cases hop
      · cases hop
        exact ⟨hs, trivial⟩
      · cases hop
        exact ⟨hs, trivial⟩
      · rename_i hat
        cases hop
        refine ⟨?_, trivial⟩
        rw [hnote]
        exact hP (Relation.appendAt_spec hat).1 hs
    · obtain _ | _ | t := added
      · exact hpage
      · trivial
      · trivial
  · exact hpage

theorem noteNeighbor_notes (i : I) (ins : Inserting V) (ntids : List Tid) :
    NotesOnly (noteNeighbor (Q := Q) ins i ntids) := fun _ _ => rfl

/-- A tuple that is no element. -/
theorem appendTuple_keeps {x : IndexTuple V Q} (hx : tupleRow x = none) (size : Nat)
    {note : Tid → Disk I V Q → Disk I V Q} (hnote : NotesOnly note) :
    (appendTuple x size note).Keeps diskRows := by
  have hpage : (appendPage x size note).Keeps diskRows := by
    refine .bind (.lift fun s b s' h => ?_) fun added => ?_
    · split at h
      · cases h
        rfl
      · rename_i t r hext
        cases h
        dsimp only [diskRows]
        rw [hnote]
        have := rows_extendTuple hext
        rw [hx] at this
        simpa [Disk.withRelation] using this
    · cases added <;> trivial
  refine .bind (.read _) fun nblocks => ?_
  split
  · refine .bind (.lift fun s b s' h => ?_) fun added => ?_
    · split at h
      · cases h
      · cases h
        rfl
      · cases h
        rfl
      · rename_i t r hat
        cases h
        dsimp only [diskRows]
        rw [hnote]
        have := rows_appendAt hat
        rw [hx] at this
        simpa [Disk.withRelation] using this
    · obtain _ | _ | t := added
      · exact hpage
      · trivial
      · trivial
  · exact hpage

/-! ### `acorn_insert_element` -/

variable [CDouble D] {H : PairingHeap} {oc : Opclass V Q D} {fuel : Nat} {ins : Inserting V}

theorem appendConts_keeps (lentries : List (InlineEntry Q)) (n1 contCap esz c : Nat) (next : Tid) :
    (appendConts lentries n1 contCap esz c next : Prog (Disk I V Q) Tid).Keeps diskRows := by
  induction c generalizing next with
  | zero => exact .pure _
  | succ c ih => exact (appendTuple_keeps rfl _ fun _ _ => rfl).bind fun t => ih t

omit [CDouble D] in
theorem writeNeighborTuple_keeps [Inhabited Q] (i : I) (p : MetaPage) (ntids : List Tid) :
    (writeNeighborTuple oc ins i p ntids : Prog (Disk I V Q) Tid).Keeps diskRows := by
  unfold writeNeighborTuple
  split
  · exact .bind (.mapM (fun t => (gatherEntry_keeps _ t).comp rows) _) fun _ => (appendConts_keeps _ _ _ _ _ _).bind fun _ =>
      appendTuple_keeps rfl _ (noteNeighbor_notes i ins ntids)
  · exact appendTuple_keeps rfl _ (noteNeighbor_notes i ins ntids)

theorem addReverseEdgeAtLayer_keeps (e : Tid) (lc : Nat) (entry : Option (InlineEntry Q)) (o : Offer) :
    (addReverseEdgeAtLayer oc fuel ins e lc entry o : Prog (Disk I V Q) Unit).Keeps diskRows := by
  unfold addReverseEdgeAtLayer
  refine .bind ((readElement_keeps _).comp rows) fun n =>
    .bind ((copySlots_keeps _ _ _ _ _).comp rows) fun tids => ?_
  split
  · exact .pure _
  · dsimp only
    split
    · refine (writeSlot_keeps _ _ _).bind fun _ => ?_
      split
      · split
        · exact t2InlineWriteEntry_keeps _ _ _ _
        · exact .pure _
      · exact .pure _
    · refine .bind ((replaceSlot_keeps _ _ _).comp rows) fun target => ?_
      split
      · exact .pure _
      · refine (writeSlot_keeps _ _ _).bind fun _ => ?_
        split
        · split
          · exact t2InlineWriteEntry_keeps _ _ _ _
          · exact .pure _
        · exact .pure _

theorem offerLayers_keeps (w : Wiring) (e : Tid) (entry : Option (InlineEntry Q)) (lc : Nat) :
    (offerLayers oc fuel ins w e entry lc : Prog (Disk I V Q) Unit).Keeps diskRows := by
  have hlayer : ∀ lc, (offerLayer oc fuel ins w e entry lc : Prog (Disk I V Q) Unit).Keeps diskRows :=
    fun lc => .bind (.forM (addReverseEdgeAtLayer_keeps e lc entry) _) fun _ =>
      .forM (addReverseEdgeAtLayer_keeps e lc entry) _
  induction lc with
  | zero => exact hlayer 0
  | succ lc ih => exact (hlayer (lc + 1)).bind fun _ => ih

/-- **An insert that ends has added its row.** -/
theorem insertElement_exec [Inhabited Q] {natts : Nat} {i : I} {opts : RdOptions} {row : Row V}
    {value : V} {s : Disk I V Q} {p : Unit × Disk I V Q}
    (h : (insertElement H oc natts fuel i opts row value).exec s = some p) :
    diskRows p.2 = diskRows s + {rowOf row.heaptid row.filterVal value} := by
  unfold insertElement at h
  split at h
  · cases h
  rw [Prog.bind_eq, Prog.exec_bind] at h
  obtain ⟨⟨page, s₁⟩, hmeta, h⟩ := Option.bind_eq_some_iff.mp h
  have h₁ := ((readMeta_keeps i).comp rows).exec hmeta
  dsimp only at h h₁
  split at h
  · cases h
  rw [Prog.bind_eq, Prog.exec_bind] at h
  obtain ⟨⟨w, s₂⟩, hwire, h⟩ := Option.bind_eq_some_iff.mp h
  have h₂ := ((wire_keeps _).comp rows).exec hwire
  dsimp only at h h₂
  unfold publish at h
  rw [Prog.bind_eq, Prog.exec_bind] at h
  obtain ⟨⟨n, s₃⟩, hnbr, h⟩ := Option.bind_eq_some_iff.mp h
  have h₃ := (writeNeighborTuple_keeps i page _).exec hnbr
  dsimp only at h h₃
  rw [Prog.bind_eq, Prog.exec_bind] at h
  obtain ⟨⟨e, s₄⟩, helement, h⟩ := Option.bind_eq_some_iff.mp h
  have h₄ := appendTuple_exec (by intro _ _; rfl) helement
  dsimp only at h h₄
  have hrest : diskRows p.2 = diskRows s₄ := by
    refine Prog.Keeps.exec (.bind (maybeUpdateEntry_keeps _ _) fun _ => ?_) h
    split
    · exact offerLayers_keeps _ _ _ _
    · exact .pure _
  rw [hrest, h₄, h₃, diskRows, h₂, h₁]
  rfl

end

end PgAcorn.Build
