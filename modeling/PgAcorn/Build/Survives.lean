import PgAcorn.Build.Prepare
import PgAcorn.Build.Slots

/-! What an insert leaves true.

All that an insert does to the relation is append tuples, set slots and inline entries,
and update the entry point. What survives each of these holds after every operation of
every insert, whatever else runs in between (`insert_survives`). -/
namespace PgAcorn.Build
open Library

section
variable {I V Q D : Type}

/-- What no operation of an insert makes false. -/
structure Survives (P : Relation V Q → Prop) : Prop where
  append : ∀ {r r' : Relation V Q} {x : IndexTuple V Q} {t : Tid}, Relation.Appended r r' x t →
    P r → P r'
  slot : ∀ {r : Relation V Q} (t : Tid) (k : Nat) (e : Tid), P r → P (r.update t (setSlot k e))
  entry : ∀ {r : Relation V Q} (t : Tid) (idx : Nat) (entry : InlineEntry Q), P r →
    P (r.update t (setEntry idx entry))
  metaPage : ∀ {r : Relation V Q} (p : MetaPage), P r → P { r with metaPage := p }

theorem Survives.and {P P' : Relation V Q → Prop} (h : Survives P) (h' : Survives P') :
    Survives fun r => P r ∧ P' r where
  append ha hr := ⟨h.append ha hr.1, h'.append ha hr.2⟩
  slot t k e hr := ⟨h.slot t k e hr.1, h'.slot t k e hr.2⟩
  entry t idx entry hr := ⟨h.entry t idx entry hr.1, h'.entry t idx entry hr.2⟩
  metaPage p hr := ⟨h.metaPage p hr.1, h'.metaPage p hr.2⟩

/-- Elements do. -/
theorem survives_element (t : Tid) (e : ElementTuple V) :
    Survives fun r : Relation V Q => r.element t = some e := by
  have hupdate : ∀ {r : Relation V Q} {u : Tid} {f : IndexTuple V Q → IndexTuple V Q},
      f (.element e) = .element e → r.element t = some e → (r.update u f).element t = some e := by
    intro r u f hf h
    rw [Relation.element_some] at h ⊢
    rw [Relation.item_update]
    split
    · rename_i heq
      rw [← heq, h]
      exact congrArg some hf
    · exact h
  exact
    { append := fun ha h => ha.element_of_element h
      slot := fun u k e' h => hupdate rfl h
      entry := fun u idx entry h => hupdate rfl h
      metaPage := fun p h => h }

variable [CDouble D] {H : PairingHeap} {oc : Opclass V Q D} {fuel natts : Nat} {ins : Inserting V}
  {P : Relation V Q → Prop}

/-! ### The operations that write -/

section
omit [CDouble D]

theorem appendTuple_survives (hP : Survives P) (x : IndexTuple V Q) (size : Nat)
    {note : Tid → Disk I V Q → Disk I V Q} (hnote : NotesOnly note) :
    (appendTuple x size note).Yields (fun s => P s.relation) fun _ => True :=
  appendTuple_yields hP.append size hnote

theorem maybeUpdateEntry_survives (hP : Survives P) (t : Tid) (level : Nat) :
    (maybeUpdateEntry t level : Prog (Disk I V Q) Unit).Yields (fun s => P s.relation)
      fun _ => True := by
  refine .lift fun s b s' hs hop => ?_
  cases hop
  exact ⟨hP.metaPage _ hs, trivial⟩

theorem writeSlot_survives (hP : Survives P) (layer off : Nat) (w : ReverseEdge) :
    (writeSlot layer off w : Prog (Disk I V Q) Unit).Yields (fun s => P s.relation)
      fun _ => True := by
  refine .lift fun s b s' hs hop => ?_
  split at hop
  · split at hop
    · cases hop
      exact ⟨hP.slot _ _ _ hs, trivial⟩
    · cases hop
  · cases hop

theorem t2InlineWriteEntry_survives (hP : Survives P) (fuel : Nat) (t : Tid) (slot : Nat)
    (entry : InlineEntry Q) :
    (t2InlineWriteEntry fuel t slot entry : Prog (Disk I V Q) Unit).Yields (fun s => P s.relation)
      fun _ => True := by
  induction fuel generalizing t with
  | zero => trivial
  | succ fuel ih =>
    rw [t2InlineWriteEntry]
    refine .bind (Q := fun _ => True) (.read fun _ _ _ _ => trivial) fun c _ => ?_
    split
    · refine .lift fun s b s' hs hop => ?_
      split at hop
      · split at hop
        · cases hop
          exact ⟨hP.entry _ _ _ hs, trivial⟩
        · cases hop
      · cases hop
    · split
      · trivial
      · exact ih c.next

theorem appendConts_survives (hP : Survives P) (lentries : List (InlineEntry Q))
    (n1 contCap esz c : Nat) (next : Tid) :
    (appendConts lentries n1 contCap esz c next : Prog (Disk I V Q) Tid).Yields
      (fun s => P s.relation) fun _ => True := by
  induction c generalizing next with
  | zero => trivial
  | succ c ih => exact (appendTuple_survives hP _ _ fun _ _ => rfl).bind fun t _ => ih t

theorem writeNeighborTuple_survives [Inhabited Q] (hP : Survives P) (i : I) (p : MetaPage)
    (ntids : List Tid) :
    (writeNeighborTuple oc ins i p ntids : Prog (Disk I V Q) Tid).Yields (fun s => P s.relation)
      fun _ => True := by
  unfold writeNeighborTuple
  split
  · refine .bind (Prog.Keeps.yields (.mapM (gatherEntry_keeps _) _) _) fun lentries _ => ?_
    refine (appendConts_survives hP _ _ _ _ _ _).bind fun next _ => ?_
    exact appendTuple_survives hP _ _ (noteNeighbor_notes i ins ntids)
  · exact appendTuple_survives hP _ _ (noteNeighbor_notes i ins ntids)

end

/-! ### Reverse edges -/

theorem addReverseEdgeAtLayer_survives (hP : Survives P) (e : Tid) (lc : Nat)
    (entry : Option (InlineEntry Q)) (o : Offer) :
    (addReverseEdgeAtLayer oc fuel ins e lc entry o : Prog (Disk I V Q) Unit).Yields
      (fun s => P s.relation) fun _ => True := by
  unfold addReverseEdgeAtLayer
  refine ((readElement_keeps _).yields _).bind fun n _ => ?_
  refine ((copySlots_keeps _ _ _ _ _).yields _).bind fun tids _ => ?_
  split
  · trivial
  · dsimp only
    split
    on_goal 2 =>
      refine ((replaceSlot_keeps _ _ _).yields _).bind fun target _ => ?_
      split
      · trivial
    -- the slot, and its entry on layer 0
    all_goals
      refine (writeSlot_survives hP _ _ _).bind fun _ _ => ?_
      split
      · split
        · exact t2InlineWriteEntry_survives hP _ _ _ _
        · trivial
      · trivial

theorem offerLayers_survives (hP : Survives P) (w : Wiring) (e : Tid)
    (entry : Option (InlineEntry Q)) (lc : Nat) :
    (offerLayers oc fuel ins w e entry lc : Prog (Disk I V Q) Unit).Yields (fun s => P s.relation)
      fun _ => True := by
  have hforM : ∀ (lc : Nat) (os : List Offer),
      (os.forM (addReverseEdgeAtLayer oc fuel ins e lc entry) : Prog (Disk I V Q) PUnit).Yields
        (fun s => P s.relation) fun _ => True := by
    intro lc os
    induction os with
    | nil => trivial
    | cons o os ih => exact (addReverseEdgeAtLayer_survives hP e lc entry o).bind fun _ _ => ih
  have hlayer : ∀ lc, (offerLayer oc fuel ins w e entry lc : Prog (Disk I V Q) Unit).Yields
      (fun s => P s.relation) fun _ => True :=
    fun lc => (hforM lc _).bind fun _ _ => hforM lc _
  induction lc with
  | zero => exact hlayer 0
  | succ lc ih => exact (hlayer (lc + 1)).bind fun _ _ => ih

/-! ### A whole insert -/

variable [Inhabited Q]

/-- What follows the append of the neighbor tuple. -/
theorem publish_exec {i : I} {row : Row V} {p : MetaPage} {w : Wiring} {s s' : Disk I V Q}
    (h : (publish oc fuel i ins row p w).exec s = some ((), s')) :
    ∃ n s₁ e, (writeNeighborTuple oc ins i p w.ntids).exec s = some (n, s₁) ∧
      s'.relation.element e =
        some (newElement ins.level row.filterVal row.heaptid n ins.value) ∧
      ∀ P : Relation V Q → Prop, Survives P → P s₁.relation → P s'.relation := by
  unfold publish at h
  rw [Prog.bind_eq, Prog.exec_bind] at h
  obtain ⟨⟨n, s₁⟩, hneighbor, h⟩ := Option.bind_eq_some_iff.mp h
  dsimp only at h
  rw [Prog.bind_eq, Prog.exec_bind] at h
  obtain ⟨⟨e, s₂⟩, helement, h⟩ := Option.bind_eq_some_iff.mp h
  have happended := appendTuple_appended (by exact fun _ _ => rfl) helement
  -- the reverse edges
  have hrest : ∀ P : Relation V Q → Prop, Survives P → P s₂.relation → P s'.relation := by
    intro P hP hs₂
    refine (Prog.Yields.exec (Q := fun _ => True) (S := fun s => P s.relation) ?_ hs₂ h).1
    refine (maybeUpdateEntry_survives hP _ _).bind fun _ _ => ?_
    split
    · exact offerLayers_survives hP _ _ _ _
    · trivial
  refine ⟨n, s₁, e, hneighbor, ?_, fun P hP hs₁ => hrest P hP (hP.append happended hs₁)⟩
  exact hrest _ (survives_element e _) (Relation.element_some.mpr happended.item_self)

theorem publish_survives (hP : Survives P) (i : I) (row : Row V) (p : MetaPage) (w : Wiring) :
    (publish oc fuel i ins row p w : Prog (Disk I V Q) Unit).Yields (fun s => P s.relation)
      fun _ => True := by
  refine (writeNeighborTuple_survives hP _ _ _).bind fun n _ => ?_
  refine .bind (Q := fun _ => True) (appendTuple_survives hP _ _ ?_) fun e _ => ?_
  · exact fun _ _ => rfl
  refine (maybeUpdateEntry_survives hP _ _).bind fun _ _ => ?_
  split
  · exact offerLayers_survives hP _ _ _ _
  · trivial

/-- **What survives every operation** holds throughout an insert. -/
theorem insert_survives (hP : Survives P) (i : I) (opts : RdOptions) (row : Row V) :
    (insert H oc natts fuel i opts row : Prog (Disk I V Q) Unit).Yields (fun s => P s.relation)
      fun _ => True := by
  unfold insert
  split
  · trivial
  unfold insertElement
  split
  · trivial
  refine ((readMeta_keeps i).yields _).bind fun p _ => ?_
  split
  · trivial
  refine ((wire_keeps p).yields _).bind fun w _ => ?_
  exact publish_survives hP _ _ _ _

/-! ### The width of the new element's slots -/

section
omit [Inhabited Q]

theorem chooseCands_length (diversify : Bool) (cands : List (Tid × D)) (mMax : Nat) :
    (chooseCands oc diversify cands mMax : Prog (Disk I V Q) (List Tid)).Yields (fun _ => True)
      fun sel => sel.length ≤ mMax := by
  unfold chooseCands
  dsimp only
  split
  · refine .bind (Q := fun sel : List (Tid × D) => sel.length ≤ mMax) ?_ fun sel hsel => ?_
    · unfold selectDiverseTids
      split
      · assumption
      · refine .bind (Prog.Keeps.yields (.mapM (fun c : Tid × D => readElement_keeps c.1) _)
          fun _ => True) fun es _ => ?_
        show (List.map Prod.fst _).length ≤ mMax
        rw [List.length_map, length_diverse]
        exact Nat.min_le_left _ _
    · show (List.map Prod.fst sel).length ≤ mMax
      rwa [List.length_map]
  · show (List.map Prod.fst (cands.take mMax)).length ≤ mMax
    rw [List.length_map, List.length_take]
    exact Nat.min_le_left _ _

/-- How many slots the new element has. -/
def Inserting.slots {V : Type} (ins : Inserting V) : Nat :=
  t2TotalSlots ins.level ins.mEff ins.payloadM

omit [CDouble D] in
theorem start_le (ins : Inserting V) {lc : Nat} (hlc : lc ≤ ins.level) :
    ins.start lc + t2LayerM lc ins.mEff ins.payloadM ≤ ins.slots := by
  unfold Inserting.start Inserting.slots
  rw [hnswNeighborStart_eq hlc, Int.toNat_natCast]
  exact layer_end_le hlc ins.mEff ins.payloadM

theorem wireHalves_length {w : Wiring} (hw : w.ntids.length = ins.slots) (cands : List (Tid × D)) :
    (wireHalves H oc fuel ins w cands : Prog (Disk I V Q) Wiring).Yields (fun _ => True)
      fun w' => w'.ntids.length = ins.slots := by
  have hstart := start_le ins (Nat.zero_le ins.level)
  rw [t2LayerM_zero] at hstart
  unfold wireHalves
  refine (chooseCands_length _ _ _).bind fun globals hglobals => ?_
  refine ((searchLayerConstruction_keeps _ _ _ _ _ _ _ _).yields fun _ => True).bind
    fun pcands _ => ?_
  refine (chooseCands_length _ _ _).bind fun payload hpayload => ?_
  have hfilled := length_backfill globals (cands.map Prod.fst) hpayload
  show (putSlots (putSlots w.ntids (ins.start 0) globals) (ins.start 0 + ins.mEff) _).length = _
  have hfirst : (putSlots w.ntids (ins.start 0) globals).length = w.ntids.length :=
    length_putSlots (by omega)
  rw [length_putSlots (by omega), hfirst, hw]

theorem wireLayer_length {w : Wiring} (hw : w.ntids.length = ins.slots) {lc : Nat}
    (hlc : lc ≤ ins.level) :
    (wireLayer H oc fuel ins w lc : Prog (Disk I V Q) Wiring).Yields (fun _ => True)
      fun w' => w'.ntids.length = ins.slots := by
  unfold wireLayer
  refine ((searchLayerConstruction_keeps _ _ _ _ _ _ _ _).yields fun _ => True).bind
    fun cands _ => ?_
  dsimp only
  split
  · exact (wireHalves_length hw cands).bind fun w' hw' => hw'
  · refine (chooseCands_length _ _ _).bind fun sel hsel => ?_
    have hstart := start_le ins hlc
    show (putSlots w.ntids (ins.start lc) sel).length = _
    rw [length_putSlots (by omega), hw]

theorem wireLayers_length {w : Wiring} (hw : w.ntids.length = ins.slots) {lc : Nat}
    (hlc : lc ≤ ins.level) :
    (wireLayers H oc fuel ins lc w : Prog (Disk I V Q) Wiring).Yields (fun _ => True)
      fun w' => w'.ntids.length = ins.slots := by
  induction lc generalizing w with
  | zero => exact wireLayer_length hw hlc
  | succ lc ih => exact (wireLayer_length hw hlc).bind fun w' hw' => ih hw' (Nat.le_of_succ_le hlc)

/-- **The new element's slots** are as many as its level has. -/
theorem wire_length (p : MetaPage) :
    (wire H oc fuel ins p : Prog (Disk I V Q) Wiring).Yields (fun _ => True)
      fun w => w.ntids.length = ins.slots := by
  have hnew : (List.replicate (t2TotalSlots ins.level ins.mEff ins.payloadM) Tid.invalid).length =
      ins.slots := List.length_replicate
  unfold wire
  dsimp only
  split
  · split
    · exact ((greedyDescendBuild_keeps _ _ _ _ _ _).yields fun _ => True).bind fun ep _ =>
        wireLayers_length hnew (Nat.min_le_right _ _)
    · exact wireLayers_length hnew (Nat.min_le_right _ _)
  · exact hnew

end

end

end PgAcorn.Build
