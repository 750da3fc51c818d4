import PgAcorn.Build.Coherent

/-! Inserts and vacuums keep inline entries coherent.

Every page access either leaves tuples alone, appends one, writes a slot, writes an entry or
sweeps a page. A backend that writes an entry has read the element, or appended it, some page
accesses before: what it read then is still right, because what an element is read for stays.
So every command heeds `upkeep`, in which an invariant of the index goes with what becomes of
its tuples. -/
namespace PgAcorn.Build
open Library

section
variable {I V Q D : Type}

/-- Entries stay right, and tuples stay. -/
def upkeep (oc : Opclass V Q D) (dims : Nat) : Regime (Disk I V Q) where
  inv s := Coherent oc dims s.relation
  later s s' := Outlives s.relation s'.relation
  refl s := .refl s.relation
  trans := .trans

variable {oc : Opclass V Q D} {dims : Nat} {pre : Disk I V Q → Prop}

/-- What a program that records its accesses and only reads the index knew before, it knows
after. -/
theorem upkeep_of_keeps {α : Type} (hpre : (upkeep oc dims).Stays pre) {p : Prog (Disk I V Q) α}
    (hp : p.Keeps Disk.relation) : (upkeep oc dims).Heeds pre p fun _ => pre := by
  refine .of_keeps (fun {s s'} hsame hinv => ?_) hpre hp
  rw [upkeep] at hinv ⊢
  dsimp only at hinv ⊢
  rw [hsame]
  exact ⟨hinv, .refl _⟩

/-! ### Entries that are gathered -/

/-- The entry is right if it is valid. -/
def GoodEntry (oc : Opclass V Q D) (dims : Nat) (entry : InlineEntry Q) (s : Disk I V Q) : Prop :=
  entry.valid = true → Describes oc dims entry s.relation

theorem stays_goodEntry (entry : InlineEntry Q) :
    (upkeep (I := I) oc dims).Stays (GoodEntry oc dims entry) :=
  fun hlater h hv => (h hv).later hlater

theorem gatherEntry_heeds [Inhabited Q] (hpre : (upkeep oc dims).Stays pre) (t : Tid) :
    (upkeep oc dims).Heeds pre (gatherEntry oc dims t) fun entry s =>
      GoodEntry oc dims entry s ∧ pre s := by
  unfold gatherEntry
  split
  · refine .pure fun s hs => ⟨fun hv => ?_, hs⟩
    rw [InlineEntry.zero] at hv
    cases hv
  · have hread : (upkeep oc dims).Heeds pre (readElement t)
        fun e s => s.relation.element t = some e ∧ pre s :=
      .read hpre fun s e _ hs he => ⟨he, hs⟩
    refine .bind hread fun e => .pure fun s hs => ⟨fun _ => ?_, hs.2⟩
    exact ⟨e, hs.1, rfl, rfl, rfl, rfl, rfl, id⟩

theorem gatherEntries_heeds [Inhabited Q] (hpre : (upkeep oc dims).Stays pre) (ts : List Tid) :
    (upkeep oc dims).Heeds pre (ts.mapM (gatherEntry oc dims)) fun entries s =>
      pre s ∧ ∀ entry ∈ entries, GoodEntry oc dims entry s :=
  .mapM (fun entry => stays_goodEntry entry) (fun _ hP t =>
    gatherEntry_heeds (fun hlater hs => ⟨hpre hlater hs.1, hP hlater hs.2⟩) t) ts

/-! ### Appends -/

section
variable {x : IndexTuple V Q} {note : Tid → Disk I V Q → Disk I V Q}

/-- Wherever the tuple ends up. -/
theorem append_heeds (hnote : ∀ t s, (note t s).relation = s.relation)
    (hright : ∀ s : Disk I V Q, pre s → ∀ c, x.chunk? = some c → RightChunk oc dims s.relation c)
    {s : Disk I V Q} {r : Relation V Q} {t : Tid} (hinv : (upkeep oc dims).inv s) (hs : pre s)
    (ha : Relation.Appended s.relation r x t) :
    (upkeep oc dims).inv (note t (s.withRelation r)) ∧
      (upkeep oc dims).later s (note t (s.withRelation r)) ∧
      Stands (note t (s.withRelation r)).relation t x := by
  unfold upkeep
  dsimp only
  rw [hnote]
  exact ⟨hinv.append ha (hright s hs), .of_items fun _ _ => ha.item_of_item,
    Outlives.refl r t x ha.item_self⟩

theorem appendTuple_heeds (hpre : (upkeep oc dims).Stays pre)
    (hnote : ∀ t s, (note t s).relation = s.relation)
    (hright : ∀ s : Disk I V Q, pre s → ∀ c, x.chunk? = some c → RightChunk oc dims s.relation c)
    (size : Nat) : (upkeep oc dims).Heeds pre (appendTuple x size note)
      fun t s => Stands s.relation t x ∧ pre s := by
  have hpage : (upkeep oc dims).Heeds pre (appendPage x size note)
      fun t s => Stands s.relation t x ∧ pre s := by
    have hadd : (upkeep oc dims).Heeds pre (addPage x size note) fun added s =>
        (∀ t, added = some t → Stands s.relation t x) ∧ pre s := by
      refine .lift hpre fun s added s' hinv hs hop => ?_
      cases hext : s.relation.extendTuple x size with
      | none =>
        rw [hext] at hop
        cases hop
        exact ⟨hinv, (upkeep oc dims).refl s, (fun t ht => by cases ht), hs⟩
      | some tr =>
        rw [hext] at hop
        cases hop
        obtain ⟨hinv', hlater, hstands⟩ :=
          append_heeds hnote hright hinv hs (Relation.extendTuple_spec hext)
        refine ⟨hinv', hlater, fun t ht => ?_, hpre hlater hs⟩
        cases ht
        exact hstands
    refine .bind hadd fun added => ?_
    cases added with
    | none => exact .raise
    | some t => exact .pure fun s hs => ⟨hs.1 t rfl, hs.2⟩
  unfold appendTuple
  refine .bind (upkeep_of_keeps hpre (.read _)) fun nblocks => ?_
  split
  swap
  · exact hpage
  have hadd : (upkeep oc dims).Heeds pre (addToPage (nblocks - 1) x size note) fun added s =>
      (∀ t, added = some (some t) → Stands s.relation t x) ∧ pre s := by
    refine .lift hpre fun s added s' hinv hs hop => ?_
    cases hat : s.relation.appendAt (nblocks - 1) x size with
    | none =>
      rw [hat] at hop
      cases hop
    | some attempt =>
      rw [hat] at hop
      cases attempt with
      | full | failed =>
        cases hop
        exact ⟨hinv, (upkeep oc dims).refl s, (fun t ht => by cases ht), hs⟩
      | added t r =>
        cases hop
        obtain ⟨ha, -⟩ := Relation.appendAt_spec hat
        obtain ⟨hinv', hlater, hstands⟩ := append_heeds hnote hright hinv hs ha
        refine ⟨hinv', hlater, fun t' ht => ?_, hpre hlater hs⟩
        cases ht
        exact hstands
  refine .bind hadd fun added => ?_
  obtain _ | _ | t := added
  · exact hpage.weaken fun s hs => hs.2
  · exact .raise
  · exact .pure fun s hs => ⟨hs.1 t rfl, hs.2⟩

end

/-! ### The new element's tuples -/

/-- The continuations, each of which goes on at the one appended before it. -/
theorem appendConts_heeds (lentries : List (InlineEntry Q)) (hpre : (upkeep oc dims).Stays pre)
    (n1 contCap esz k : Nat) (next : Tid) :
    (upkeep oc dims).Heeds (fun s => (pre s ∧ ∀ entry ∈ lentries, GoodEntry oc dims entry s) ∧
        Continues s.relation next) (appendConts lentries n1 contCap esz k next) fun t s =>
      (pre s ∧ ∀ entry ∈ lentries, GoodEntry oc dims entry s) ∧ Continues s.relation t := by
  have hall : ∀ t, (upkeep oc dims).Stays fun s => (pre s ∧ ∀ entry ∈ lentries,
      GoodEntry oc dims entry s) ∧ Continues s.relation t := fun t {s s'} hlater hs =>
    ⟨⟨hpre hlater hs.1.1, fun entry he => stays_goodEntry entry hlater (hs.1.2 entry he)⟩,
      hs.2.later hlater⟩
  induction k generalizing next with
  | zero => exact .pure fun s hs => hs
  | succ k ih =>
    refine .bind (appendTuple_heeds (hall next) (fun _ _ => rfl) (fun s hs c hc => ?_) _)
      fun t => (ih t).weaken fun s hs => ⟨hs.2.1, fun _ => hs.1⟩
    obtain rfl := Option.some.inj hc
    refine ⟨fun entry he => hs.1.2 entry ?_, hs.2⟩
    exact List.mem_of_mem_drop (List.mem_of_mem_take he)

theorem writeNeighborTuple_heeds [CDouble D] [Inhabited Q] (hpre : (upkeep oc dims).Stays pre)
    (i : I) (ins : Inserting V) {p : MetaPage} (hdims : p.dimensions = dims) (ntids : List Tid) :
    (upkeep oc dims).Heeds pre (writeNeighborTuple oc ins i p ntids) fun _ => pre := by
  unfold writeNeighborTuple
  split
  · rw [hdims]
    refine .bind (gatherEntries_heeds hpre _) fun lentries => ?_
    refine .bind ((appendConts_heeds lentries hpre _ _ _ _ Tid.invalid).weaken fun s hs =>
      ⟨hs, fun hv => by cases hv⟩) fun next => ?_
    refine .consequence (appendTuple_heeds (fun hlater hs => ?_) (fun _ _ => ?_)
      (fun s hs c hc => ?_) _) ?_
    · exact ⟨⟨hpre hlater hs.1.1, fun entry he => stays_goodEntry entry hlater (hs.1.2 entry he)⟩,
        hs.2.later hlater⟩
    · rfl
    · obtain rfl := Option.some.inj hc
      exact ⟨fun entry he => hs.1.2 entry (List.mem_of_mem_take he), hs.2⟩
    · exact fun t s hs => hs.2.1.1
  · refine .consequence (appendTuple_heeds hpre (fun _ _ => ?_) (fun s hs c hc => ?_) _) ?_
    · rfl
    · cases hc
    · exact fun t s hs => hs.2

/-! ### Updates in place -/

theorem maybeUpdateEntry_heeds (hpre : (upkeep oc dims).Stays pre) (t : Tid) (level : Nat) :
    (upkeep oc dims).Heeds pre (maybeUpdateEntry t level) fun _ => pre := by
  refine .lift hpre fun s _ s' hinv hs hop => ?_
  cases hop
  have hlater : Outlives s.relation (s.updateEntry t level).relation := .of_items fun _ _ => id
  refine ⟨Coherent.rewrite hinv ?_ hlater fun hc => ⟨_, hc, rfl, fun _ he => .inl he⟩, hlater,
    hpre hlater hs⟩
  unfold Disk.updateEntry
  dsimp only
  split <;> rfl

theorem writeSlot_heeds (hpre : (upkeep oc dims).Stays pre) (layer off : Nat) (w : ReverseEdge) :
    (upkeep oc dims).Heeds pre (writeSlot layer off w) fun _ => pre := by
  refine .lift hpre fun s _ s' hinv hs hop => ?_
  split at hop
  swap
  · cases hop
  split at hop
  swap
  · cases hop
  cases hop
  have hlater := Outlives.update (keepsKind_setSlot (w.start + w.target).toNat w.e) s.relation
    w.nbrtid
  exact ⟨Coherent.setSlot hinv _ _ _, hlater, hpre hlater hs⟩

theorem writeEntry_heeds (hpre : (upkeep oc dims).Stays pre) {entry : InlineEntry Q}
    (hright : ∀ s, pre s → GoodEntry oc dims entry s) (t : Tid) (idx : Nat) :
    (upkeep oc dims).Heeds pre (writeEntry t idx entry) fun _ => pre := by
  refine .lift hpre fun s _ s' hinv hs hop => ?_
  split at hop
  swap
  · cases hop
  split at hop
  swap
  · cases hop
  cases hop
  have hlater := Outlives.update (keepsKind_setEntry idx entry) s.relation t
  exact ⟨Coherent.setEntry hinv t idx (hright s hs), hlater, hpre hlater hs⟩

/-- The entry of a slot, wherever on the chain it is. -/
theorem t2InlineWriteEntry_heeds (hpre : (upkeep oc dims).Stays pre) {entry : InlineEntry Q}
    (hright : ∀ s, pre s → GoodEntry oc dims entry s) (fuel : Nat) (t : Tid) (slot : Nat) :
    (upkeep oc dims).Heeds pre (t2InlineWriteEntry fuel t slot entry) fun _ => pre := by
  induction fuel generalizing t with
  | zero => exact .diverge
  | succ fuel ih =>
    refine .bind (upkeep_of_keeps hpre (.read _)) fun c => ?_
    split
    · exact writeEntry_heeds hpre hright t _
    · split
      · exact .pure fun s hs => hs
      · exact ih c.next

/-! ### Reverse edges -/

section
variable [CDouble D] {fuel : Nat} {ins : Inserting V} {entry : Option (InlineEntry Q)}

omit [CDouble D] in
/-- The slot, and on layer 0 its entry. -/
theorem takeSlot_heeds (hpre : (upkeep oc dims).Stays pre)
    (hright : ∀ s, pre s → ∀ en, entry = some en → GoodEntry oc dims en s) (lc off : Nat)
    (w : ReverseEdge) :
    (upkeep oc dims).Heeds pre ((writeSlot lc off w).bind fun _ =>
      match entry with
      | some entry =>
        if lc = 0 then t2InlineWriteEntry fuel w.nbrtid (off + w.target) entry else Prog.pure ()
      | none => Prog.pure ()) fun _ => pre := by
  refine .bind (writeSlot_heeds hpre _ _ _) fun _ => ?_
  cases entry with
  | none => exact .pure fun s hs => hs
  | some en =>
    dsimp only
    split
    · exact t2InlineWriteEntry_heeds hpre (fun s hs => hright s hs en rfl) fuel _ _
    · exact .pure fun s hs => hs

theorem addReverseEdgeAtLayer_heeds (hpre : (upkeep oc dims).Stays pre)
    (hright : ∀ s, pre s → ∀ en, entry = some en → GoodEntry oc dims en s) (e : Tid) (lc : Nat)
    (o : Offer) :
    (upkeep oc dims).Heeds pre (addReverseEdgeAtLayer oc fuel ins e lc entry o) fun _ => pre := by
  refine .bind (upkeep_of_keeps hpre (readElement_keeps o.target)) fun n => ?_
  refine .bind (upkeep_of_keeps hpre (copySlots_keeps _ _ _ _ _)) fun tids => ?_
  split
  · exact .pure fun s hs => hs
  cases tids.findIdx? fun t => !t.isValid with
  | some j => exact takeSlot_heeds hpre hright lc o.rangeOff _
  | none =>
    refine .bind (upkeep_of_keeps hpre (replaceSlot_keeps n tids o.part)) fun target => ?_
    cases target with
    | none => exact .pure fun s hs => hs
    | some j => exact takeSlot_heeds hpre hright lc o.rangeOff _

theorem offerLayers_heeds (hpre : (upkeep oc dims).Stays pre)
    (hright : ∀ s, pre s → ∀ en, entry = some en → GoodEntry oc dims en s) (w : Wiring) (e : Tid)
    (lc : Nat) :
    (upkeep oc dims).Heeds pre (offerLayers oc fuel ins w e entry lc) fun _ => pre := by
  have hlayer : ∀ lc, (upkeep oc dims).Heeds pre (offerLayer oc fuel ins w e entry lc)
      fun _ => pre := fun lc =>
    .bind (.forM (addReverseEdgeAtLayer_heeds hpre hright e lc) _) fun _ =>
      .forM (addReverseEdgeAtLayer_heeds hpre hright e lc) _
  induction lc with
  | zero => exact hlayer 0
  | succ lc ih => exact .bind (hlayer (lc + 1)) fun _ => ih

end

/-! ### The commands -/

section
variable [CDouble D] [Inhabited Q] {H : PairingHeap} {natts fuel : Nat}

omit [CDouble D] [Inhabited Q] in
/-- The entry that says of the new element what is appended of it. -/
theorem goodEntry_self {s : Disk I V Q} {t : Tid} {e : ElementTuple V}
    (h : Stands s.relation t (.element e : IndexTuple V Q)) :
    GoodEntry oc dims (selfEntry oc dims t e) s := by
  obtain ⟨e', he', hsame, -⟩ := h
  obtain ⟨hlevel, hheap, hnbr, hfilter, hvec⟩ := ElementTuple.fields_of_unmarked hsame
  refine fun _ => ⟨e', he', ?_, hnbr.symm, ?_, hfilter.symm, ?_, fun hdel => by cases hdel⟩
  · rw [selfEntry, ElementTuple.heaptid, ElementTuple.heaptid, hheap]
  · rw [selfEntry, hlevel]
  · rw [selfEntry, hvec]

theorem publish_heeds (i : I) (ins : Inserting V) (row : Row V) {p : MetaPage}
    (hdims : p.dimensions = dims) (w : Wiring) :
    (upkeep oc dims).Heeds (fun _ => True) (publish oc fuel i ins row p w)
      fun _ _ => True := by
  unfold publish
  refine .bind (writeNeighborTuple_heeds (fun _ h => h) i ins hdims w.ntids) fun n => ?_
  refine .bind (appendTuple_heeds (fun _ h => h) (fun _ _ => ?_) (fun s _ c hc => ?_) _)
    fun e => ?_
  · rfl
  · cases hc
  have hstays : (upkeep oc dims).Stays fun s : Disk I V Q => Stands s.relation e
      (.element (newElement ins.level row.filterVal row.heaptid n ins.value)) ∧ True :=
    fun hlater hs => ⟨hs.1.later hlater, trivial⟩
  refine .bind (maybeUpdateEntry_heeds hstays e ins.level) fun _ => ?_
  split
  · refine .consequence (offerLayers_heeds hstays (fun s hs en hen => ?_) w e _)
      fun _ _ _ => trivial
    split at hen
    · rw [← Option.some.inj hen, hdims]
      exact goodEntry_self hs.1
    · cases hen
  · exact .pure fun _ _ => trivial

/-- **An insert** heeds the upkeep. -/
theorem insert_heeds (i : I) (opts : RdOptions) (row : Row V) :
    (upkeep oc dims).Heeds (fun _ => True) (insert H oc natts fuel i opts row)
      fun _ _ => True := by
  unfold insert
  split
  · exact .pure fun _ _ => trivial
  unfold insertElement
  split
  · exact .raise
  have hmeta : (upkeep oc dims).Heeds (fun _ => True) (readMeta i) fun p (_ : Disk I V Q) =>
      p.dimensions = dims ∧ True := by
    refine .lift (fun _ h => h) fun s p s' hinv _ hop => ?_
    cases hop
    exact ⟨hinv, .refl _, hinv.dimensions, trivial⟩
  refine .bind hmeta fun p => .assume fun hdims => ?_
  split
  · exact .raise
  · refine .bind (upkeep_of_keeps (fun _ h => h) (wire_keeps p)) fun w => ?_
    exact publish_heeds i _ row hdims w

omit [CDouble D] [Inhabited Q] in
/-- **A vacuum** does. -/
theorem bulkdelete_heeds (callback : Tid → Bool) :
    (upkeep oc dims).Heeds (fun _ => True) (bulkdelete (I := I) callback) fun _ _ => True := by
  unfold bulkdelete
  refine .bind (upkeep_of_keeps (fun _ h => h) (.read _)) fun nblocks =>
    .foldlM (fun removed blkno hblkno => ?_) 0
  obtain ⟨hpos, -⟩ := List.mem_range'_1.mp hblkno
  have hsweep : (upkeep oc dims).Heeds (fun _ => True) (sweepPage (I := I) callback blkno)
      fun _ _ => True := by
    refine .lift (fun _ h => h) fun s n s' hinv _ hop => ?_
    split at hop
    swap
    · cases hop
    cases hop
    obtain ⟨hlater, hinv'⟩ := Coherent.sweepBlock hinv callback hpos
    exact ⟨hinv', hlater, trivial⟩
  exact .bind hsweep fun _ => .pure fun _ _ => trivial

end

end

end PgAcorn.Build
