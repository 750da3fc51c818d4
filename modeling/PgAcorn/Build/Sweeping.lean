import PgAcorn.Build.CreateIndex
import PgAcorn.Build.Unmarked
import PgAcorn.Library.Sequential
import PgAcorn.Vacuum

/-! VACUUM among inserts.

`acorn_bulkdelete` reads the number of blocks once and then sweeps one page after the other,
each under its lock. Between two pages any number of inserts, and of other vacuums, get on with
theirs. An insert does not look at marks and a sweep changes nothing else, so that the index is
what the inserts alone would have made of it, but for the marks. -/
namespace PgAcorn.Build
open Library
open PgAcorn.Vacuum (anyLive removes sweepElement sweepTuple counts)

section
variable {I V Q D : Type}

/-! ### Sweeping a page -/

/-- The relation with one block swept. -/
def sweepBlock (callback : Tid → Bool) (blkno : Nat) (r : Relation V Q) : Relation V Q :=
  { r with pages := r.pages.modify (blkno - 1) (Page.map (sweepTuple callback)) }

/-- The body of the loop, under the page's exclusive lock; the number of elements it marks. -/
def sweepPage (callback : Tid → Bool) (blkno : Nat) : Prog (Disk I V Q) Nat :=
  .lift fun s =>
    match s.relation.pages[blkno - 1]? with
    | some page => .done (page.items.countP (counts callback))
        (s.withRelation (sweepBlock callback blkno s.relation))
    | none => .fault

/-- `acorn_bulkdelete`, with `tuples_removed`. -/
def bulkdelete (callback : Tid → Bool) : Prog (Disk I V Q) Nat := do
  let nblocks ← numberOfBlocks
  (List.range' 1 (nblocks - 1)).foldlM (fun removed blkno => do
    let n ← sweepPage callback blkno
    pure (removed + n)) 0

variable {callback reaped : Tid → Bool}

theorem unmarked_sweepTuple (x : IndexTuple V Q) :
    (sweepTuple callback x).unmarked = x.unmarked := by
  cases x with
  | element e =>
    rw [sweepTuple, sweepElement]
    split <;> rfl
  | neighbor n => rfl
  | cont c => rfl

/-- A sweep only sets marks. -/
theorem unmarked_sweepBlock (blkno : Nat) (r : Relation V Q) :
    (sweepBlock callback blkno r).unmarked = r.unmarked := by
  unfold sweepBlock Relation.unmarked Relation.mapTuples
  have hpages : (r.pages.modify (blkno - 1) (Page.map (sweepTuple callback))).map
      (Page.map IndexTuple.unmarked) = (r.pages.map (Page.map IndexTuple.unmarked)).modify
        (blkno - 1) id := by
    refine Relation.map_modify (fun p => ?_) _ _
    simp [Page.map, Function.comp_def, unmarked_sweepTuple]
  simp only [hpages, List.modify_id]

theorem item_sweepBlock {blkno : Nat} (hblkno : 1 ≤ blkno) (r : Relation V Q) (t : Tid) :
    (sweepBlock callback blkno r).item t =
      if t.blkno = blkno then (r.item t).map (sweepTuple callback) else r.item t := by
  unfold Relation.item sweepBlock
  by_cases hnone : t.blkno = 0 ∨ t.offno = 0
  · rw [if_pos hnone, if_pos hnone]
    split <;> rfl
  rw [if_neg hnone, if_neg hnone, List.getElem?_modify]
  push Not at hnone
  cases r.pages[t.blkno - 1]? with
  | none => simp
  | some p =>
    by_cases hb : t.blkno = blkno
    · subst hb
      simp [Page.map]
    · have hne : blkno - 1 ≠ t.blkno - 1 := by omega
      simp [hb, hne]

theorem element_sweepBlock {blkno : Nat} (hblkno : 1 ≤ blkno) (r : Relation V Q) (t : Tid) :
    (sweepBlock callback blkno r).element t =
      if t.blkno = blkno then (r.element t).map (sweepElement callback) else r.element t := by
  unfold Relation.element
  rw [item_sweepBlock hblkno]
  by_cases hb : t.blkno = blkno
  · rw [if_pos hb, if_pos hb]
    cases r.item t with
    | none => rfl
    | some x => cases x <;> rfl
  · rw [if_neg hb, if_neg hb]

/-! ### Alone -/

/-- The pages still to do, after those that are done. -/
theorem exec_sweepPages (callback : Tid → Bool) (s : Disk I V Q)
    (done todo : List (Page (IndexTuple V Q))) (removed : Nat)
    (hpages : s.relation.pages = done ++ todo) :
    ((List.range' (done.length + 1) todo.length).foldlM (fun removed blkno => do
      let n ← sweepPage callback blkno
      pure (removed + n)) removed).exec s =
    some (removed + (todo.map fun p => p.items.countP (counts callback)).sum,
      s.withRelation
        { s.relation with pages := done ++ todo.map (Page.map (sweepTuple callback)) }) := by
  induction todo generalizing s done removed with
  | nil =>
    rw [List.append_nil] at hpages
    simp only [List.length_nil, List.range'_zero, List.foldlM_nil, List.map_nil, List.sum_nil,
      List.append_nil, ← hpages]
    rfl
  | cons p todo ih =>
    have hpage : s.relation.pages[done.length]? = some p := by simp [hpages]
    have hsweep : (sweepPage callback (done.length + 1)).exec s =
        some (p.items.countP (counts callback),
          s.withRelation (sweepBlock callback (done.length + 1) s.relation)) := by
      apply Prog.exec_lift
      simp only [Nat.add_sub_cancel, hpage]
    have hswept : (sweepBlock callback (done.length + 1) s.relation).pages =
        done ++ [p.map (sweepTuple callback)] ++ todo := by
      rw [sweepBlock, Nat.add_sub_cancel, hpages, List.modify_eq_take_cons_drop (by simp)]
      simp
    rw [List.length_cons, List.range'_succ, List.foldlM_cons]
    simp only [Prog.bind_eq, Prog.exec_bind, hsweep, Option.bind_some]
    have hrest := ih (s.withRelation (sweepBlock callback (done.length + 1) s.relation))
      (done ++ [p.map (sweepTuple callback)]) (removed + p.items.countP (counts callback)) hswept
    rw [List.length_append, List.length_singleton] at hrest
    refine hrest.trans ?_
    simp [Disk.withRelation, sweepBlock, Nat.add_assoc]

/-- **Alone it sweeps the whole index.** -/
theorem exec_bulkdelete (s : Disk I V Q) : (bulkdelete callback).exec s =
    some ((PgAcorn.Vacuum.bulkdelete callback s.relation).2,
      s.withRelation (PgAcorn.Vacuum.bulkdelete callback s.relation).1) := by
  have hblocks : (numberOfBlocks (I := I) (V := V) (Q := Q)).exec s =
      some (s.relation.pages.length + 1, s) := Prog.exec_read rfl
  unfold bulkdelete
  rw [Prog.bind_eq, Prog.exec_bind, hblocks, Option.bind_some, Nat.add_sub_cancel]
  have hpages := exec_sweepPages callback s [] s.relation.pages 0 rfl
  rw [List.length_nil, Nat.zero_add, Nat.zero_add, List.nil_append] at hpages
  exact hpages

/-! ### What marks say -/

/-- A larger set of dead rows leaves fewer live. -/
theorem anyLive_mono (h : ∀ t, callback t = true → reaped t = true) {ts : List Tid}
    (hts : anyLive callback ts = false) : anyLive reaped ts = false := by
  induction ts with
  | nil => rfl
  | cons t ts ih =>
    rw [anyLive] at hts ⊢
    cases hv : t.isValid with
    | false => simp
    | true =>
      cases hc : callback t with
      | false => simp [hv, hc] at hts
      | true =>
        simp only [hv, hc, h t hc, Bool.not_true, Bool.false_eq_true, if_false] at hts ⊢
        exact ih hts

/-- Elements stay but for marks, which none loses, and an element that gets one has no heap row
that is not `reaped`. -/
structure Reaps (reaped : Tid → Bool) (s s' : Disk I V Q) : Prop where
  kept : ∀ t e, s.relation.element t = some e → ∃ e', s'.relation.element t = some e' ∧
    e'.unmarked = e.unmarked ∧ (e.deleted = true → e'.deleted = true)
  marked : ∀ t e', s'.relation.element t = some e' → e'.deleted = true →
    (∃ e, s.relation.element t = some e ∧ e.deleted = true) ∨
      anyLive reaped e'.heaptids.toList = false
  blocks : s.relation.pages.length ≤ s'.relation.pages.length

theorem Reaps.refl (s : Disk I V Q) : Reaps reaped s s :=
  ⟨fun _ e he => ⟨e, he, rfl, id⟩, fun _ e' he' hd => .inl ⟨e', he', hd⟩, le_rfl⟩

theorem Reaps.trans {s s' s'' : Disk I V Q} (h : Reaps reaped s s') (h' : Reaps reaped s' s'') :
    Reaps reaped s s'' where
  kept t e he := by
    obtain ⟨e', he', hsame, hd⟩ := h.kept t e he
    obtain ⟨e'', he'', hsame', hd'⟩ := h'.kept t e' he'
    exact ⟨e'', he'', hsame'.trans hsame, hd' ∘ hd⟩
  marked t e'' he'' hd := by
    obtain ⟨e', he', hd'⟩ | hdead := h'.marked t e'' he'' hd
    · obtain hold | hdead := h.marked t e' he' hd'
      · exact .inl hold
      · -- the element is still the same one
        obtain ⟨e₁, he₁, hsame, -⟩ := h'.kept t e' he'
        obtain rfl := Option.some.inj (he₁.symm.trans he'')
        rw [(ElementTuple.fields_of_unmarked hsame).2.1]
        exact .inr hdead
    · exact .inr hdead
  blocks := h.blocks.trans h'.blocks

theorem Reaps.of_steps {s s' : Disk I V Q} (h : Relation.ReflTransGen (Reaps reaped) s s') :
    Reaps reaped s s' := by
  induction h with
  | refl => exact .refl _
  | tail _ hlast ih => exact ih.trans hlast

theorem Adds.reaps {s s' : Disk I V Q} (h : Adds s s') : Reaps reaped s s' where
  kept t e he := ⟨e, h.kept t e he, rfl, id⟩
  marked t e' he' hd := by
    obtain hold | hnew := h.new t e' he'
    · exact .inl ⟨e', hold, hd⟩
    · cases hd.symm.trans hnew
  blocks := h.blocks

theorem reaps_sweepBlock (hreaped : ∀ t, callback t = true → reaped t = true) {blkno : Nat}
    (hblkno : 1 ≤ blkno) (s : Disk I V Q) :
    Reaps reaped s (s.withRelation (sweepBlock callback blkno s.relation)) where
  kept t e he := by
    rw [Disk.withRelation, element_sweepBlock hblkno, he]
    by_cases hb : t.blkno = blkno
    · rw [if_pos hb]
      refine ⟨_, rfl, ?_, fun hd => by simp [hd]⟩
      unfold sweepElement
      split <;> rfl
    · rw [if_neg hb]
      exact ⟨e, rfl, rfl, id⟩
  marked t e' he' hd := by
    rw [Disk.withRelation, element_sweepBlock hblkno] at he'
    split at he'
    · obtain ⟨e, he, rfl⟩ := Option.map_eq_some_iff.mp he'
      rw [PgAcorn.Vacuum.deleted_sweepElement] at hd
      obtain hold | hremoves := (Bool.or_eq_true _ _).mp hd
      · exact .inl ⟨e, he, hold⟩
      · rw [removes, Bool.and_eq_true, Bool.not_eq_true', Bool.not_eq_true'] at hremoves
        rw [PgAcorn.Vacuum.heaptids_sweepElement]
        exact .inr (anyLive_mono hreaped hremoves.2)
    · exact .inl ⟨e', he', hd⟩
  blocks := by
    rw [Disk.withRelation, sweepBlock, List.length_modify]

/-! ### A vacuum goes unseen -/

section
variable (hreaped : ∀ t, callback t = true → reaped t = true)
include hreaped

theorem silent_sweepPage {blkno : Nat} (hblkno : 1 ≤ blkno) :
    Silent SameButMarks (Reaps reaped) (sweepPage (I := I) (V := V) (Q := Q) callback blkno) := by
  apply Silent.lift
  intro s n s' hop
  cases hpage : s.relation.pages[blkno - 1]? with
  | none =>
    rw [hpage] at hop
    cases hop
  | some page =>
    rw [hpage] at hop
    cases hop
    exact ⟨reaps_sweepBlock hreaped hblkno s, fun t h =>
      ⟨(unmarked_sweepBlock blkno s.relation).trans h.relation, h.history⟩⟩

theorem silent_bulkdelete :
    Silent SameButMarks (Reaps reaped) (bulkdelete (I := I) (V := V) (Q := Q) callback) := by
  refine .bind (.read Reaps.refl) fun nblocks => .foldlM (fun removed blkno hblkno => ?_) 0
  obtain ⟨hpos, -⟩ := List.mem_range'_1.mp hblkno
  exact .bind (silent_sweepPage hreaped hpos) fun _ => trivial

end

/-! ### The graph but for marks -/

section
variable {s s' : Disk I V Q}

theorem SameButMarks.symm (h : SameButMarks s s') : SameButMarks s' s :=
  ⟨h.relation.symm, h.history.symm⟩

theorem SameButMarks.element_some (h : SameButMarks s s') {t : Tid} {e : ElementTuple V}
    (he : s.relation.element t = some e) :
    ∃ e', s'.relation.element t = some e' ∧ e.unmarked = e'.unmarked := by
  obtain ⟨hnone, -⟩ | ⟨e₁, e', he₁, he', hsame⟩ := rel_cases (h.element t)
  · cases he.symm.trans hnone
  · obtain rfl := Option.some.inj (he₁.symm.trans he)
    exact ⟨e', he', hsame⟩

theorem SameButMarks.layerNeighbors (h : SameButMarks s s') (layer : Nat) (t : Tid) :
    s.relation.layerNeighbors layer t = s'.relation.layerNeighbors layer t := by
  unfold Relation.layerNeighbors
  obtain ⟨he, he'⟩ | ⟨e, e', he, he', hsame⟩ := rel_cases (h.element t)
  · rw [he, he']
  obtain ⟨hlevel, -, hnbr, -, -⟩ := ElementTuple.fields_of_unmarked hsame
  simp only [he, he', hnbr]
  obtain ⟨hn, hn'⟩ | ⟨n, n', hn, hn', htids⟩ := rel_cases (h.neighbor e'.neighbortid)
  · rw [hn, hn']
  · simp only [hn, hn', h.metaPage, hlevel, NeighborTuple.tids_of_unmarked htids]

/-- Being well formed does not depend on marks. -/
theorem Intact.of_same (h : SameButMarks s s') (hs : Intact s') : Intact s where
  targets t e layer u he hl hu := by
    obtain ⟨e', he', hsame⟩ := h.element_some he
    rw [(ElementTuple.fields_of_unmarked hsame).1] at hl
    rw [h.layerNeighbors] at hu
    obtain ⟨hne, eu, heu, hlu⟩ := hs.targets t e' layer u he' hl hu
    obtain ⟨eu', heu', hsame'⟩ := h.symm.element_some heu
    exact ⟨hne, eu', heu', by rwa [← (ElementTuple.fields_of_unmarked hsame').1]⟩
  nodup t e layer he hl := by
    obtain ⟨e', he', hsame⟩ := h.element_some he
    rw [(ElementTuple.fields_of_unmarked hsame).1] at hl
    rw [h.layerNeighbors]
    exact hs.nodup t e' layer he' hl
  neighbors t e he := by
    obtain ⟨e', he', hsame⟩ := h.element_some he
    obtain ⟨hlevel, -, hnbr, -, -⟩ := ElementTuple.fields_of_unmarked hsame
    obtain ⟨n', hn', hcount⟩ := hs.neighbors t e' he'
    obtain ⟨-, hnone⟩ | ⟨n, n₁, hn, hn₁, htids⟩ := rel_cases (h.neighbor e'.neighbortid)
    · cases hn'.symm.trans hnone
    obtain rfl := Option.some.inj (hn₁.symm.trans hn')
    refine ⟨n, by rw [hnbr, hn], ?_⟩
    rw [NeighborTuple.count, NeighborTuple.tids_of_unmarked htids, hlevel, h.metaPage]
    exact hcount
  own t e u eu he hu heq := by
    obtain ⟨e', he', hsame⟩ := h.element_some he
    obtain ⟨eu', hu', hsame'⟩ := h.element_some hu
    refine hs.own t e' u eu' he' hu' ?_
    rw [← (ElementTuple.fields_of_unmarked hsame).2.2.1, heq,
      (ElementTuple.fields_of_unmarked hsame').2.2.1]
  entry hhas := by
    rw [h.metaPage] at hhas
    obtain ⟨hupdated, e', he', hlevel⟩ := hs.entry hhas
    obtain ⟨e, he, hsame⟩ := h.symm.element_some he'
    rw [h.metaPage, h.history]
    exact ⟨hupdated, e, he, by rw [hlevel, (ElementTuple.fields_of_unmarked hsame).1]⟩
  updated t ht := by
    rw [h.history] at ht
    obtain ⟨hhas, e', he', hlevel⟩ := hs.updated t ht
    obtain ⟨e, he, hsame⟩ := h.symm.element_some he'
    rw [h.metaPage]
    exact ⟨hhas, e, he, by rwa [← (ElementTuple.fields_of_unmarked hsame).1]⟩

end

end

/-! ### Sessions -/

section
variable {I V Q D : Type} [DecidableEq I] [CDouble D] [Inhabited Q]

/-- What a session does with the index. -/
inductive Command (V : Type)
  | insert (row : Row V)
  | vacuum (callback : Tid → Bool)

/-- Its page accesses, with `tuples_removed` for a vacuum. -/
def Command.body (H : PairingHeap) (oc : Opclass V Q D) (natts fuel : Nat) (i : I)
    (opts : RdOptions) : Command V → Prog (Disk I V Q) (Option Nat)
  | .insert row => do
    Build.insert H oc natts fuel i opts row
    pure none
  | .vacuum callback => do
    let removed ← bulkdelete callback
    pure (some removed)

/-- Inserts and vacuums of one index. -/
abbrev Sessions (I V Q : Type) := Pool I RdOptions (Disk I V Q) (Option Nat)

def Sessions.start (opts : RdOptions) (r : Relation V Q) (updated : List Tid) : Sessions I V Q :=
  .init opts ⟨r, .start r updated⟩

/-- The options are altered, a command starts, or one page access of a command is done. -/
def serve (H : PairingHeap) (oc : Opclass V Q D) (natts fuel : Nat) (p : Sessions I V Q) :
    Action I RdOptions (Command V) → Option (Sessions I V Q) :=
  p.step fun i opts c => c.body H oc natts fuel i opts

/-- An insert that starts derives the stride that the meta page records, and what a vacuum takes
for dead is `reaped`. -/
def Permitted (reaped : Tid → Bool) (p : Sessions I V Q) : Action I RdOptions (Command V) → Prop
  | .start _ (.insert row) => row.value.isSome = true →
      mEff p.settings row.defaultGamma = p.shared.relation.metaPage.m
  | .start _ (.vacuum callback) => ∀ t, callback t = true → reaped t = true
  | _ => True

variable {H : PairingHeap} {oc : Opclass V Q D} {natts fuel : Nat} {r : Relation V Q}
  {updated : List Tid} {opts : RdOptions} {reaped : Tid → Bool} {p p' : Sessions I V Q}
  {q : Inserts I V Q}

omit [DecidableEq I] in
/-- The insert of a session goes on as one on the index that inserts alone have made. -/
theorem similar_insert (i : I) (opts : RdOptions) (row : Row V) :
    Similar SameButMarks (Reaps reaped) (fun _ _ => True)
      ((Command.insert row).body (Q := Q) H oc natts fuel i opts)
      (insert H oc natts fuel i opts row) := by
  rw [← Prog.bind_pure (insert H oc natts fuel i opts row)]
  exact .bind ((blind_insert oc H fuel natts i opts row).mono fun _ _ hadds => hadds.reaps)
    fun _ _ _ => .pure trivial

omit [DecidableEq I] in
/-- What sessions do is what their inserts do. -/
theorem twins (reaped : Tid → Bool) : Twins SameButMarks (Reaps reaped) (fun _ _ => True)
    (fun (i : I) opts (c : Command V) => c.body H oc natts fuel i opts)
    (insert (Q := Q) H oc natts fuel) (Permitted reaped) SameStride where
  start {p q i arg} h hok := by
    cases arg with
    | insert row =>
      refine .inl ⟨row, fun hvalue => ?_, ?_⟩
      · rw [h.settings, ← h.shared.metaPage]
        exact hok hvalue
      · exact similar_insert i p.settings row
    | vacuum callback =>
      exact .inr (.bind (silent_bulkdelete hok) fun _ => trivial)
  act _ _ := trivial
  alter _ _ := trivial

/-- **Any run of inserts and vacuums is one of the inserts alone**, but for marks. -/
theorem follows_of_runs
    (hrun : Runs (serve H oc natts fuel) (Permitted reaped) (.start opts r updated) p) :
    Reaps reaped ⟨r, .start r updated⟩ p.shared ∧ ∃ q : Inserts I V Q,
      Runs (step H oc natts fuel) SameStride (.start opts r updated) q ∧
        Follows SameButMarks (Reaps reaped) (fun _ _ => True) p q := by
  obtain ⟨hreaps, q, hq, hfollows⟩ := Follows.run Reaps.refl
    (Follows.init opts (SameButMarks.refl ⟨r, .start r updated⟩)) (twins reaped) hrun
  exact ⟨.of_steps hreaps, q, hq, hfollows⟩

/-- What inserts and vacuums have made of an index. -/
structure Maintained (H : PairingHeap) (oc : Opclass V Q D) (natts fuel : Nat) (opts : RdOptions)
    (reaped : Tid → Bool) (r : Relation V Q) (updated : List Tid) (p : Sessions I V Q) : Prop where
  /-- Inserts alone can make the same of it, but for marks. -/
  alone : ∃ q : Inserts I V Q, Runs (step H oc natts fuel) SameStride (.start opts r updated) q ∧
    SameButMarks p.shared q.shared
  intact : Intact p.shared
  /-- The elements that there were are still there, with the marks they had. -/
  kept : ∀ t e, r.element t = some e → ∃ e', p.shared.relation.element t = some e' ∧
    e'.unmarked = e.unmarked ∧ (e.deleted = true → e'.deleted = true)
  /-- Only elements without a live heap row get one. -/
  marked : ∀ t e', p.shared.relation.element t = some e' → e'.deleted = true →
    (∃ e, r.element t = some e ∧ e.deleted = true) ∨ anyLive reaped e'.heaptids.toList = false
  /-- Once all commands have ended, no element is without neighbors. -/
  neighbors : r.metaPage.hasEntry = true → p.Quiet → ∀ t e u e',
    p.shared.relation.element t = some e → p.shared.relation.element u = some e' → u ≠ t →
      p.shared.relation.layerNeighbors 0 t ≠ []

/-- **VACUUM among inserts.** At every instant of any interleaving of inserts and vacuums, page
access by page access, the index is what inserts alone could have made of it, but for marks on
elements all of whose heap rows are dead. -/
theorem vacuum_among_inserts (h : Startable r updated)
    (hborn : ∀ t e, r.element t = some e → r.layerNeighbors 0 t = [] →
      ∀ u e', r.element u = some e' → u = t)
    (hrun : Runs (serve H oc natts fuel) (Permitted reaped) (.start opts r updated) p) :
    Maintained H oc natts fuel opts reaped r updated p := by
  obtain ⟨hreaps, q, hq, hfollows⟩ := follows_of_runs hrun
  have hsame := hfollows.shared
  have horderly := orderly_of_runs oc h (fun hfalse : False => hfalse.elim) (fun _ _ hok => hok) hq
  refine ⟨⟨q, hq, hsame⟩, .of_same hsame horderly.1.intact, hreaps.kept, hreaps.marked, ?_⟩
  intro hhas hquiet t e u e' he hu hne
  obtain ⟨e₁, he₁, -⟩ := hsame.element_some he
  obtain ⟨e₂, hu₂, -⟩ := hsame.element_some hu
  rw [hsame.layerNeighbors]
  exact neighbors_of_quiet h hhas hborn hq (hfollows.quiet hquiet) he₁ hu₂ hne

/-! ### A vacuum that has ended -/

/-- Where a vacuum is that started on `s₁`: every block still to do exists, and what had no live
heap row on the others is marked. -/
structure SweptTo (reaped callback : Tid → Bool) (s₁ : Disk I V Q) (todo : List Nat)
    (s : Disk I V Q) : Prop where
  reaps : Reaps reaped s₁ s
  blocks : ∀ b ∈ todo, 1 ≤ b ∧ b ≤ s.relation.pages.length
  done : ∀ t e, s₁.relation.element t = some e → anyLive callback e.heaptids.toList = false →
    t.blkno ∉ todo → ∃ e', s.relation.element t = some e' ∧ e'.deleted = true

variable {callback : Tid → Bool} {i : I} {s₁ : Disk I V Q}

omit [DecidableEq I] [Inhabited Q] in
theorem stable_reaps : Stable (everyone I (Reaps reaped)) i (Reaps reaped s₁) :=
  .of_step fun _ _ _ hguar h => h.trans hguar

omit [DecidableEq I] [Inhabited Q] in
theorem stable_sweptTo (todo : List Nat) :
    Stable (everyone I (Reaps reaped)) i (SweptTo reaped callback s₁ todo) := by
  apply Stable.of_step
  intro s s' j _ _ _ hguar h
  refine ⟨h.reaps.trans hguar, fun b hb => ?_, ?_⟩
  · exact ⟨(h.blocks b hb).1, (h.blocks b hb).2.trans hguar.blocks⟩
  intro t e he hdead ht
  obtain ⟨e', he', hd⟩ := h.done t e he hdead ht
  obtain ⟨e'', he'', -, hd'⟩ := hguar.kept t e' he'
  exact ⟨e'', he'', hd' hd⟩

omit [DecidableEq I] [Inhabited Q] in
/-- **One page.** -/
theorem sweepPage_ok (hreaped : ∀ t, callback t = true → reaped t = true) (b : Nat)
    (todo : List Nat) :
    Triple (everyone I (Reaps reaped)) i (SweptTo reaped callback s₁ (b :: todo))
      (sweepPage callback b) fun _ => SweptTo reaped callback s₁ todo := by
  refine .lift (stable_sweptTo _) (fun _ => stable_sweptTo _) fun s _ h => ?_
  obtain ⟨hpos, hle⟩ := h.blocks b List.mem_cons_self
  have hpage : s.relation.pages[b - 1]? = some s.relation.pages[b - 1] :=
    List.getElem?_eq_getElem (by omega)
  have hsweep := reaps_sweepBlock hreaped hpos s
  rw [hpage]
  refine ⟨_, _, rfl, trivial, hsweep, h.reaps.trans hsweep, fun b' hb' => ?_, ?_⟩
  · obtain ⟨hpos', hle'⟩ := h.blocks b' (List.mem_cons_of_mem b hb')
    exact ⟨hpos', hle'.trans hsweep.blocks⟩
  intro t e he hdead ht
  by_cases hb : t.blkno = b
  · -- the element is on this page
    obtain ⟨e', he', hsame, -⟩ := h.reaps.kept t e he
    refine ⟨sweepElement callback e', ?_, ?_⟩
    · rw [Disk.withRelation, element_sweepBlock hpos, if_pos hb, he', Option.map_some]
    · rw [PgAcorn.Vacuum.deleted_sweepElement, removes, (ElementTuple.fields_of_unmarked hsame).2.1,
        hdead]
      cases e'.deleted <;> rfl
  · obtain ⟨e', he', hd⟩ := h.done t e he hdead (List.not_mem_cons_of_ne_of_not_mem hb ht)
    obtain ⟨e'', he'', -, hd'⟩ := hsweep.kept t e' he'
    exact ⟨e'', he'', hd' hd⟩

omit [DecidableEq I] [Inhabited Q] in
/-- **All pages.** -/
theorem bulkdelete_ok (hreaped : ∀ t, callback t = true → reaped t = true) :
    Triple (everyone I (Reaps reaped)) i (Reaps reaped s₁) (bulkdelete callback) fun _ =>
      SweptTo reaped callback s₁ [] := by
  have hblocks : Triple (everyone I (Reaps reaped)) i (Reaps reaped s₁) numberOfBlocks
      fun nblocks => SweptTo reaped callback s₁ (List.range' 1 (nblocks - 1)) := by
    refine .lift stable_reaps (fun _ => stable_sweptTo _) fun s _ h => ?_
    refine ⟨s.relation.pages.length + 1, s, rfl, trivial, .refl s, h, fun b hb => ?_, ?_⟩
    · obtain ⟨hpos, hlt⟩ := List.mem_range'_1.mp hb
      exact ⟨hpos, by omega⟩
    · intro t e he _ ht
      have hitem := Relation.element_some.mp he
      have hblkno := Relation.blkno_le_of_item hitem
      have hne := (Relation.isValid_of_item hitem).2
      have hle := h.blocks
      exact absurd (List.mem_range'_1.mpr ⟨by omega, by omega⟩) ht
  refine .bind hblocks fun nblocks => ?_
  refine Triple.foldlM (J := fun todo _ => SweptTo reaped callback s₁ todo)
    (fun _ => stable_sweptTo _) (fun removed b todo => ?_) 0 _
  exact .bind (sweepPage_ok hreaped b todo) fun n => .pure (stable_sweptTo _) fun _ _ h => h

/-- **A vacuum that has ended has marked every element that had no live heap row when it
started**, whatever inserts and other vacuums went on meanwhile. -/
theorem vacuum_complete {p₁ p₂ p₃ : Sessions I V Q}
    (hrun : Runs (serve H oc natts fuel) (Permitted reaped) (.start opts r updated) p₁)
    (hreaped : ∀ t, callback t = true → reaped t = true)
    (hstart : serve H oc natts fuel p₁ (.start i (.vacuum callback)) = some p₂)
    (hrun' : Runs (serve H oc natts fuel) (Permitted reaped) p₂ p₃) {removed : Nat}
    (hended : p₃.answer i = some (some removed)) {t : Tid} {e : ElementTuple V}
    (he : p₁.shared.relation.element t = some e)
    (hdead : anyLive callback e.heaptids.toList = false) :
    ∃ e', p₃.shared.relation.element t = some e' ∧ e'.unmarked = e.unmarked ∧
      e'.deleted = true := by
  obtain ⟨-, q, -, hfollows⟩ := follows_of_runs hrun
  obtain ⟨-, q', -, hfollows'⟩ := hfollows.step Reaps.refl (twins reaped)
    (show Permitted reaped p₁ (.start i (.vacuum callback)) from hreaped) hstart
  obtain ⟨hshared, hthread⟩ := Pool.of_start hstart
  have hbody : Triple (everyone I (Reaps reaped)) i (Reaps reaped p₁.shared)
      (Command.body H oc natts fuel i p₁.settings (.vacuum callback))
      fun _ => SweptTo reaped callback p₁.shared [] :=
    .bind (bulkdelete_ok hreaped) fun n => .pure (stable_sweptTo _) fun _ _ h => h
  have hsafe := hbody p₂.shared trivial (hshared ▸ .refl _)
  obtain ⟨prog, hprog, hsafe'⟩ := hfollows'.safe Reaps.refl (twins reaped) hrun' hthread hsafe
  obtain rfl := Option.some.inj (hprog.symm.trans (Pool.threads_of_answer hended))
  have hswept : SweptTo reaped callback p₁.shared [] p₃.shared := hsafe' p₃.shared .refl
  obtain ⟨e', he', hd⟩ := hswept.done t e he hdead List.not_mem_nil
  obtain ⟨e'', he'', hsame, -⟩ := hswept.reaps.kept t e he
  obtain rfl := Option.some.inj (he''.symm.trans he')
  exact ⟨e'', he'', hsame, hd⟩

end

/-! ### Two points -/

/-- Any callback is permitted where every row may be dead. -/
instance {I V Q : Type} (p : Sessions I V Q) :
    (a : Action I RdOptions (Command V)) → Decidable (Permitted (fun _ => true) p a)
  | .start _ (.insert row) => inferInstanceAs (Decidable (row.value.isSome = true →
      mEff p.settings row.defaultGamma = p.shared.relation.metaPage.m))
  | .start _ (.vacuum _) => .isTrue fun _ _ => rfl
  | .alter _ | .act _ => .isTrue trivial

attribute [local instance] neZero_three

abbrev pointServe : Sessions (Fin 3) Int Int → Action (Fin 3) RdOptions (Command Int) →
    Option (Sessions (Fin 3) Int Int) := serve PairingHeap.list points 1 20

/-- `pointServe` where it is permitted. -/
def pointServed (p : Sessions (Fin 3) Int Int) (a : Action (Fin 3) RdOptions (Command Int)) :
    Option (Sessions (Fin 3) Int Int) :=
  if Permitted (fun _ => true) p a then pointServe p a else none

/-- The first point is inserted. -/
def firstPoint : List (Action (Fin 3) RdOptions (Command Int)) :=
  .start 0 (.insert (pointRow 0)) :: .replicate 6 (.act 0)

/-- A vacuum while a second point is inserted: it marks the first one, to which the second one
then adds a reverse edge. -/
theorem vacuum_among_inserts_pair : ∃ p : Sessions (Fin 3) Int Int,
    ((p.shared.relation.element ⟨1, 2⟩).map ElementTuple.deleted,
      p.shared.relation.layerNeighbors 0 ⟨1, 2⟩) = (some true, [⟨1, 4⟩]) ∧
    Maintained PairingHeap.list points 1 20 pointOptions (fun _ => true) pointIndex [] p := by
  have hexec : ((exec pointServed (.start pointOptions pointIndex [])
      (firstPoint ++ .start 1 (.insert (pointRow 3)) :: .replicate 4 (.act 1) ++
        .start 2 (.vacuum fun _ => true) :: .replicate 2 (.act 2) ++ .replicate 8 (.act 1))).map
          fun p => ((p.shared.relation.element ⟨1, 2⟩).map ElementTuple.deleted,
            p.shared.relation.layerNeighbors 0 ⟨1, 2⟩)) = some (some true, [⟨1, 4⟩]) := by
    decide +kernel
  obtain ⟨p, hp, hsummary⟩ := Option.map_eq_some_iff.mp hexec
  refine ⟨p, hsummary,
    vacuum_among_inserts startable_pointIndex (fun t e he => ?_) (runs_of_exec hp)⟩
  rw [pointIndex, Relation.element, emptyIndex_item] at he
  cases he

/-- The vacuum, to its end, while the second point is inserted. -/
theorem vacuum_complete_pair : ∃ (p : Sessions (Fin 3) Int Int) (e' : ElementTuple Int),
    p.shared.relation.element ⟨1, 2⟩ = some e' ∧ e'.deleted = true := by
  have hexec : ((exec pointServed (.start pointOptions pointIndex []) firstPoint).bind fun p₁ =>
      (p₁.shared.relation.element ⟨1, 2⟩).bind fun e =>
      (pointServe p₁ (.start 2 (.vacuum fun _ => true))).bind fun p₂ =>
      (exec pointServed p₂ (.act 2 :: .start 1 (.insert (pointRow 3)) :: .replicate 4 (.act 1) ++
        [.act 2])).map fun p₃ => (anyLive (fun _ => true) e.heaptids.toList, p₃.answer 2)) =
      some (false, some (some 1)) := by
    decide +kernel
  obtain ⟨p₁, hp₁, hexec⟩ := Option.bind_eq_some_iff.mp hexec
  obtain ⟨e, he, hexec⟩ := Option.bind_eq_some_iff.mp hexec
  obtain ⟨p₂, hp₂, hexec⟩ := Option.bind_eq_some_iff.mp hexec
  obtain ⟨p₃, hp₃, hsummary⟩ := Option.map_eq_some_iff.mp hexec
  obtain ⟨hdead, hended⟩ := Prod.mk.inj hsummary
  obtain ⟨e', he', -, hd⟩ := vacuum_complete (runs_of_exec hp₁) (fun _ _ => rfl) hp₂
    (runs_of_exec hp₃) hended he hdead
  exact ⟨p₃, e', he', hd⟩

end PgAcorn.Build
