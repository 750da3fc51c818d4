import PgAcorn.Build.Marks

/-! Inserts do not look at marks.

`blind_insert` follows an insert from its read of the meta page to its last reverse edge: on
disks that differ in marks only it makes the same page accesses. What it copies of a mark goes
into the inline entries of its own neighbor tuple, and into nothing else. -/
namespace PgAcorn.Build
open Library
open PgAcorn.Filter (Datum)

section
variable {I V Q D : Type} [CDouble D] (oc : Opclass V Q D)

/-! ### Searching -/

omit [CDouble D] in
theorem blind_distanceTo (query : V) (t : Tid) :
    Blind (I := I) (Q := Q) Eq (distanceTo oc query t) (distanceTo oc query t) := by
  refine .bind (blind_nodeDistance oc query t) fun d _ hd => ?_
  subst hd
  exact .pure rfl

theorem blind_neighborsAt (mEff payloadM layer : Nat) (t : Tid) :
    Blind (I := I) (V := V) (Q := Q) Eq (neighborsAt mEff payloadM layer t)
      (neighborsAt mEff payloadM layer t) := by
  refine .bind (blind_readElement t) fun e e' he => ?_
  obtain ⟨hlevel, -, hnbr, -, -⟩ := ElementTuple.fields_of_unmarked he
  rw [hlevel, hnbr]
  exact blind_readNbrTidsAtLayer _ _ _ _ _ _

theorem blind_greedyDescendBuild (fuel : Nat) (query : V) (mEff payloadM : Nat) (cur : Tid)
    (fromLevel toLevel : Nat) : Blind (I := I) (Q := Q) Eq
      (greedyDescendBuild oc fuel query mEff payloadM cur fromLevel toLevel)
      (greedyDescendBuild oc fuel query mEff payloadM cur fromLevel toLevel) :=
  .greedyDescend (blind_distanceTo oc query) (blind_neighborsAt mEff payloadM) _ _ _ _

theorem blind_searchLayerConstruction (H : PairingHeap) (fuel : Nat) (entry : Tid) (query : V)
    (mEff payloadM layer ef : Nat) (part : Option Nat) (maxExpansions : Nat) :
    Blind (I := I) (Q := Q) Eq
      (searchLayerConstruction H oc fuel entry query mEff payloadM layer ef part maxExpansions)
      (searchLayerConstruction H oc fuel entry query mEff payloadM layer ef part
        maxExpansions) := by
  apply Similar.beamSearch
  refine ⟨fun t => ?_, fun t => .pure rfl, fun t => ?_, fun t => ?_⟩
  · refine .bind (blind_nodeDistance oc query t) fun d _ hd => ?_
    subst hd
    exact .pure rfl
  · refine .bind (blind_nodeDistance oc query t) fun d _ hd => ?_
    subst hd
    exact .pure rfl
  · refine .bind (blind_neighborsAt mEff payloadM layer t) fun us _ hus => ?_
    subst hus
    exact .pure rfl

/-- The elements at some places, read one after the other. -/
theorem blind_readElements (ts : List Tid) :
    Blind (I := I) (V := V) (Q := Q) (List.Forall₂ fun e e' => e.unmarked = e'.unmarked)
      (ts.mapM readElement) (ts.mapM readElement) := .mapM fun t _ => blind_readElement t

/-- What is computed from elements without looking at marks. -/
theorem map_eq_of_forall₂ {α β γ : Type} {A : α → β → Prop} {f : α → γ} {g : β → γ}
    (hfg : ∀ a b, A a b → f a = g b) {as : List α} {bs : List β} (h : List.Forall₂ A as bs) :
    as.map f = bs.map g := by
  induction h with
  | nil => rfl
  | cons ha _ ih => rw [List.map_cons, List.map_cons, hfg _ _ ha, ih]

theorem blind_selectDiverseTids (cands : List (Tid × D)) (mMax : Nat) :
    Blind (I := I) Eq (selectDiverseTids oc cands mMax) (selectDiverseTids oc cands mMax) := by
  refine .ite (fun _ => .pure rfl) fun _ => ?_
  have hes : Blind (I := I) (V := V) (Q := Q) (List.Forall₂ fun e e' => e.unmarked = e'.unmarked)
      (cands.mapM fun c => readElement c.1) (cands.mapM fun c => readElement c.1) :=
    .mapM fun c _ => blind_readElement c.1
  refine .bind hes fun es es' h => .pure ?_
  rw [map_eq_of_forall₂ (fun e e' he => (ElementTuple.fields_of_unmarked he).2.2.2.2) h]

theorem blind_chooseCands (diversify : Bool) (cands : List (Tid × D)) (mMax : Nat) :
    Blind (I := I) Eq (chooseCands oc diversify cands mMax)
      (chooseCands oc diversify cands mMax) := by
  refine .ite (fun _ => ?_) fun _ => .pure rfl
  refine .bind (blind_selectDiverseTids oc cands mMax) fun sel _ hsel => ?_
  subst hsel
  exact .pure rfl

/-! ### Forward slots -/

variable (H : PairingHeap) (fuel : Nat) (ins : Inserting V)

theorem blind_wireHalves (w : Wiring) (cands : List (Tid × D)) :
    Blind (I := I) Eq (wireHalves H oc fuel ins w cands) (wireHalves H oc fuel ins w cands) := by
  refine .bind (blind_chooseCands oc _ _ _) fun globals _ hg => ?_
  subst hg
  refine .bind (blind_searchLayerConstruction oc H _ _ _ _ _ _ _ _ _) fun pcands _ hp => ?_
  subst hp
  refine .bind (blind_chooseCands oc _ _ _) fun payload _ hpay => ?_
  subst hpay
  exact .pure rfl

theorem blind_wireLayer (w : Wiring) (lc : Nat) :
    Blind (I := I) Eq (wireLayer H oc fuel ins w lc) (wireLayer H oc fuel ins w lc) := by
  refine .bind (blind_searchLayerConstruction oc H _ _ _ _ _ _ _ _ _) fun cands _ hc => ?_
  subst hc
  refine .ite (fun _ => ?_) fun _ => ?_
  · refine .bind (blind_wireHalves oc H fuel ins w cands) fun w' _ hw => ?_
    subst hw
    exact .pure rfl
  · refine .bind (blind_chooseCands oc _ _ _) fun sel _ hsel => ?_
    subst hsel
    exact .pure rfl

theorem blind_wireLayers (lc : Nat) (w : Wiring) :
    Blind (I := I) Eq (wireLayers H oc fuel ins lc w) (wireLayers H oc fuel ins lc w) := by
  induction lc generalizing w with
  | zero => exact blind_wireLayer oc H fuel ins w 0
  | succ lc ih =>
    refine .bind (blind_wireLayer oc H fuel ins w (lc + 1)) fun w' _ hw => ?_
    subst hw
    exact ih w'

theorem blind_wire (p : MetaPage) :
    Blind (I := I) Eq (wire H oc fuel ins p) (wire H oc fuel ins p) := by
  refine .ite (fun _ => ?_) fun _ => .pure rfl
  refine .ite (fun _ => ?_) fun _ => blind_wireLayers oc H fuel ins _ _
  refine .bind (blind_greedyDescendBuild oc _ _ _ _ _ _ _) fun ep _ hep => ?_
  subst hep
  exact blind_wireLayers oc H fuel ins _ _

/-! ### Writing the new element -/

omit [CDouble D] in
theorem blind_gatherEntry [Inhabited Q] (dims : Nat) (t : Tid) :
    Blind (I := I) (fun x x' => x.unmarked = x'.unmarked) (gatherEntry (Q := Q) oc dims t)
      (gatherEntry oc dims t) := by
  refine .ite (fun _ => .pure rfl) fun _ => ?_
  refine .bind (blind_readElement t) fun e e' he => .pure ?_
  obtain ⟨hlevel, hheap, hnbr, hfilter, hvec⟩ := ElementTuple.fields_of_unmarked he
  simp only [InlineEntry.unmarked, ElementTuple.heaptid, hlevel, hheap, hnbr, hfilter, hvec]

theorem blind_appendConts {lentries lentries' : List (InlineEntry Q)}
    (h : lentries.map InlineEntry.unmarked = lentries'.map InlineEntry.unmarked)
    (n1 contCap esz c : Nat) (next : Tid) :
    Blind (I := I) (V := V) Eq (appendConts lentries n1 contCap esz c next)
      (appendConts lentries' n1 contCap esz c next) := by
  induction c generalizing next with
  | zero => exact .pure rfl
  | succ c ih =>
    have hentries : ((lentries.drop (n1 + c * contCap)).take contCap).map InlineEntry.unmarked =
        ((lentries'.drop (n1 + c * contCap)).take contCap).map InlineEntry.unmarked := by
      rw [List.map_take, List.map_drop, h, List.map_take, List.map_drop]
    have hlen := congrArg List.length hentries
    rw [List.length_map, List.length_map] at hlen
    rw [appendConts, appendConts, hlen]
    refine .bind (blind_appendTuple ⟨?_, fun e he => by cases he⟩ _ recording_none)
      fun t _ ht => ?_
    · exact congrArg (fun es => IndexTuple.cont ⟨n1 + c * contCap, next, es⟩) hentries
    · subst ht
      exact ih t

theorem recording_noteNeighbor (i : I) (ntids : List Tid) :
    Recording (noteNeighbor (V := V) (Q := Q) ins i ntids) :=
  ⟨fun _ _ => rfl, fun _ _ _ h => (h.write _ _).event _⟩

omit [CDouble D] in
theorem blind_writeNeighborTuple [Inhabited Q] (i : I) (p : MetaPage) (ntids : List Tid) :
    Blind (Q := Q) Eq (writeNeighborTuple oc ins i p ntids)
      (writeNeighborTuple oc ins i p ntids) := by
  refine .ite (fun _ => ?_) fun _ =>
    blind_appendTuple ⟨rfl, fun e he => by cases he⟩ _ (recording_noteNeighbor ins i ntids)
  refine .bind (.mapM fun t _ => blind_gatherEntry oc p.dimensions t) fun lentries lentries' h => ?_
  have hentries := map_eq_of_forall₂ (fun _ _ he => he) h
  refine .bind (blind_appendConts hentries _ _ _ _ _) fun next _ hnext => ?_
  subst hnext
  refine blind_appendTuple ⟨?_, fun e he => by cases he⟩ _ (recording_noteNeighbor ins i ntids)
  simp only [IndexTuple.unmarked, NeighborTuple.unmarked, InlineChunk.unmarked, Option.map_some,
    List.map_take, hentries]

/-! ### Reverse edges -/

theorem nonmemberSlot_eq (dist : V → V → D) {n n' : ElementTuple V} (hn : n.unmarked = n'.unmarked)
    {es es' : List (ElementTuple V)}
    (h : List.Forall₂ (fun e e' => e.unmarked = e'.unmarked) es es') (p : Nat) :
    nonmemberSlot dist n es p = nonmemberSlot dist n' es' p := by
  obtain ⟨-, -, -, -, hvec⟩ := ElementTuple.fields_of_unmarked hn
  unfold nonmemberSlot
  rw [hvec]
  congr 2
  refine map_eq_of_forall₂ (fun e e' he => ?_) h
  obtain ⟨-, -, -, hfilter, hv⟩ := ElementTuple.fields_of_unmarked he
  rw [hfilter, hv]

theorem inferiorSlot_eq (dist : V → V → D) (diversify : Bool) {n n' : ElementTuple V}
    (hn : n.unmarked = n'.unmarked) {es es' : List (ElementTuple V)}
    (h : List.Forall₂ (fun e e' => e.unmarked = e'.unmarked) es es') (eValue : V) :
    inferiorSlot dist diversify n es eValue = inferiorSlot dist diversify n' es' eValue := by
  obtain ⟨-, -, -, -, hvec⟩ := ElementTuple.fields_of_unmarked hn
  have hvecs : es.map ElementTuple.vec = es'.map ElementTuple.vec :=
    map_eq_of_forall₂ (fun e e' he => (ElementTuple.fields_of_unmarked he).2.2.2.2) h
  have hdists : (es.map fun e => (true, dist n'.vec e.vec)) =
      es'.map fun e => (true, dist n'.vec e.vec) :=
    map_eq_of_forall₂ (fun e e' he => by
      rw [(ElementTuple.fields_of_unmarked he).2.2.2.2]) h
  unfold inferiorSlot
  rw [hvec, hvecs, hdists]

theorem blind_replaceSlot {n n' : ElementTuple V} (hn : n.unmarked = n'.unmarked)
    (tids : List Tid) (part : Option Nat) :
    Blind (I := I) (Q := Q) Eq (replaceSlot oc ins n tids part)
      (replaceSlot oc ins n' tids part) := by
  have hinferior : Blind (I := I) (Q := Q) Eq
      (do
        let es ← tids.mapM readElement
        pure (inferiorSlot oc.dist ins.diversify n es ins.value))
      (do
        let es ← tids.mapM readElement
        pure (inferiorSlot oc.dist ins.diversify n' es ins.value)) :=
    .bind (blind_readElements tids) fun _ _ h =>
      .pure (inferiorSlot_eq oc.dist ins.diversify hn h ins.value)
  cases part with
  | none => exact hinferior
  | some p =>
    refine .bind (blind_readElements tids) fun es es' h => ?_
    rw [nonmemberSlot_eq oc.dist hn h p]
    cases nonmemberSlot oc.dist n' es' p with
    | some j => exact .pure rfl
    | none => exact hinferior

/-- Writing the slot that a reverse edge takes, and its inline entry. -/
theorem blind_takeSlot (lc off : Nat) (w : ReverseEdge) (entry : Option (InlineEntry Q)) :
    Blind (I := I) (V := V) Eq
      (do
        writeSlot lc off w
        match entry with
        | some entry =>
          if lc = 0 then t2InlineWriteEntry fuel w.nbrtid (off + w.target) entry else pure ()
        | none => pure ())
      (do
        writeSlot lc off w
        match entry with
        | some entry =>
          if lc = 0 then t2InlineWriteEntry fuel w.nbrtid (off + w.target) entry else pure ()
        | none => pure ()) := by
  refine .bind (blind_writeSlot _ _ _) fun _ _ _ => ?_
  cases entry with
  | none => exact .pure rfl
  | some entry => exact .ite (fun _ => blind_t2InlineWriteEntry _ _ _ rfl) fun _ => .pure rfl

theorem blind_addReverseEdgeAtLayer (e : Tid) (lc : Nat) (entry : Option (InlineEntry Q))
    (o : Offer) : Blind (I := I) Eq (addReverseEdgeAtLayer oc fuel ins e lc entry o)
      (addReverseEdgeAtLayer oc fuel ins e lc entry o) := by
  refine .bind (blind_readElement o.target) fun n n' hn => ?_
  obtain ⟨hlevel, -, hnbr, -, -⟩ := ElementTuple.fields_of_unmarked hn
  dsimp only
  rw [hlevel, hnbr]
  refine .bind (blind_copySlots _ _ _ _ _) fun tids _ htids => ?_
  subst htids
  refine .ite (fun _ => .pure rfl) fun _ => ?_
  cases tids.findIdx? fun t => !t.isValid with
  | some j => exact blind_takeSlot fuel lc o.rangeOff _ entry
  | none =>
    refine .bind (blind_replaceSlot oc ins hn tids o.part) fun target _ htarget => ?_
    subst htarget
    cases target with
    | none => exact .pure rfl
    | some j => exact blind_takeSlot fuel lc o.rangeOff _ entry

theorem blind_offerLayer (w : Wiring) (e : Tid) (entry : Option (InlineEntry Q)) (lc : Nat) :
    Blind (I := I) Eq (offerLayer oc fuel ins w e entry lc) (offerLayer oc fuel ins w e entry lc) :=
  .bind (.forM fun o _ => blind_addReverseEdgeAtLayer oc fuel ins e lc entry o) fun _ _ _ =>
    .forM fun o _ => blind_addReverseEdgeAtLayer oc fuel ins e lc entry o

theorem blind_offerLayers (w : Wiring) (e : Tid) (entry : Option (InlineEntry Q)) (lc : Nat) :
    Blind (I := I) Eq (offerLayers oc fuel ins w e entry lc)
      (offerLayers oc fuel ins w e entry lc) := by
  induction lc with
  | zero => exact blind_offerLayer oc fuel ins w e entry 0
  | succ lc ih => exact .bind (blind_offerLayer oc fuel ins w e entry (lc + 1)) fun _ _ _ => ih

/-! ### The insert -/

variable [Inhabited Q] (natts : Nat) (i : I)

theorem blind_publish (row : Row V) (p : MetaPage) (w : Wiring) :
    Blind (Q := Q) Eq (publish oc fuel i ins row p w) (publish oc fuel i ins row p w) := by
  refine .bind (blind_writeNeighborTuple oc ins i p w.ntids) fun n _ hn => ?_
  subst hn
  refine .bind (blind_appendTuple ⟨rfl, fun e he => ?_⟩ _
    ⟨fun _ _ => rfl, fun _ _ _ h => h.event _⟩) fun e _ he => ?_
  · obtain rfl := IndexTuple.element.inj he
    rfl
  subst he
  refine .bind (blind_maybeUpdateEntry e ins.level) fun _ _ _ => ?_
  exact .ite (fun _ => blind_offerLayers oc fuel ins w e _ _) fun _ => .pure rfl

/-- **An insert does the same whatever marks there are**, and it marks nothing. -/
theorem blind_insert (opts : RdOptions) (row : Row V) :
    Blind (Q := Q) Eq (insert H oc natts fuel i opts row) (insert H oc natts fuel i opts row) := by
  cases hvalue : row.value with
  | none =>
    simp only [insert, hvalue]
    exact .pure rfl
  | some value =>
    simp only [insert, hvalue]
    refine .ite (fun _ => .raise _) fun _ => ?_
    refine .bind blind_readMeta fun p _ hp => ?_
    subst hp
    refine .ite (fun _ => .raise _) fun _ => ?_
    refine .bind (blind_wire oc H fuel _ p) fun w _ hw => ?_
    subst hw
    exact blind_publish oc fuel _ i row p w

end

end PgAcorn.Build
