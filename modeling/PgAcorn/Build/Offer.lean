import PgAcorn.Build.Publish

/-! Reverse edges of a new element.

`Owing` is what an insert knows once its element is appended: which elements of
which layers it has not been linked from yet, and that those it is to pay on layer
0 are among them or have neighbors. Writing one edge settles one of them and leaves
the others alone; a range that has no room had neighbors already. -/
namespace PgAcorn.Build
open Library
open PgAcorn.Filter (Datum)

section
variable {I V Q D : Type} [CDouble D] {oc : Opclass V Q D} {G : MetaPage} {connected : Prop} {i : I}

/-! ### Debts -/

structure Owing (i : I) (e : Tid) (elem : ElementTuple V) (offers : List Tid)
    (rest : List (Tid × Nat)) (s : Disk I V Q) : Prop where
  element : s.relation.element e = some elem
  event : .element i e offers ∈ s.history.events
  only : ∀ u o, .element i u o ∈ s.history.events → u = e ∧ o = offers
  unlinked : ∀ x ∈ rest, OnLayer x.2 x.1 s ∧ e ∉ s.relation.layerNeighbors x.2 x.1
  paid : ∀ u ∈ offers, (u, 0) ∈ rest ∨ Linked 0 u s

variable {e : Tid} {elem : ElementTuple V} {offers : List Tid} {rest : List (Tid × Nat)}
  {s s' : Disk I V Q}

theorem stable_owing : Stable (discipline I oc G connected) i (Owing i e elem offers rest) := by
  apply stable_of_frame
  intro s s' j hj hinv hf h
  refine ⟨hf.element h.element, hf.events _ h.event, fun u o ho => ?_, fun x hx => ?_,
    fun u hu => (h.paid u hu).imp_right fun hl => ?_⟩
  · exact (hf.own _ ho).elim (h.only u o) fun heq => absurd heq.symm hj
  · obtain ⟨⟨ex, hex, hlevel⟩, hnot⟩ := h.unlinked x hx
    refine ⟨⟨ex, hf.element hex, hlevel⟩, fun hmem => ?_⟩
    -- only its own backend puts an element into slots
    obtain hmem | ⟨o, ho⟩ := hf.slots hex hlevel hmem
    · exact hnot hmem
    · exact hj (hinv.elementOwner ho h.event)
  · obtain ⟨⟨eu, heu, hlevel⟩, hne⟩ := hl
    exact ⟨⟨eu, hf.element heu, hlevel⟩, hf.kept heu hlevel hne⟩

/-- Operations of the insert itself that change neither elements nor slots. -/
theorem Owing.of_same (h : Owing i e elem offers rest s) (hsound : Sound G s.relation)
    (hs : SameShape s.relation s'.relation) (ht : SameTids s.relation s'.relation)
    (hevents : s'.history.events = s.history.events) : Owing i e elem offers rest s' := by
  refine ⟨(hs.element e).trans h.element, hevents ▸ h.event, fun u o ho => ?_, fun x hx => ?_,
    fun u hu => (h.paid u hu).imp_right fun hl => ?_⟩
  · rw [hevents] at ho
    exact h.only u o ho
  · obtain ⟨⟨ex, hex, hlevel⟩, hnot⟩ := h.unlinked x hx
    refine ⟨⟨ex, (hs.element _).trans hex, hlevel⟩, ?_⟩
    rwa [ht.layerNeighbors hsound hs hex]
  · obtain ⟨⟨eu, heu, hlevel⟩, hne⟩ := hl
    refine ⟨⟨eu, (hs.element _).trans heu, hlevel⟩, ?_⟩
    rwa [ht.layerNeighbors hsound hs heu]

theorem local_owing : Local oc G connected i (Owing i e elem offers rest) :=
  ⟨stable_owing, fun _ _ h => ⟨h.element, h.event, h.only, h.unlinked, h.paid⟩⟩

/-- An element that has neighbors is owed nothing. -/
theorem Owing.pay {t : Tid} {lc : Nat} (h : Owing i e elem offers ((t, lc) :: rest) s)
    (hlinked : Linked lc t s) : Owing i e elem offers rest s := by
  refine ⟨h.element, h.event, h.only, fun x hx => h.unlinked x (List.mem_cons_of_mem _ hx),
    fun u hu => ?_⟩
  obtain hmem | hl := h.paid u hu
  · obtain heq | hmem := List.mem_cons.mp hmem
    · injection heq with hu hlc
      subst hu hlc
      exact .inr hlinked
    · exact .inl hmem
  · exact .inr hl

/-- The debts are paid. -/
theorem Owing.paid_all (h : Owing i e elem offers [] s) : Paid i s := by
  intro t o ho u hu
  obtain ⟨rfl, rfl⟩ := h.only t o ho
  exact ((h.paid u hu).resolve_left (by simp)).2

/-! ### The inline entry of a slot -/

theorem stable_chunk (t : Tid) (k : Nat) : Stable (discipline I oc G connected) i fun s =>
    ∃ c, (s.relation.item t).bind IndexTuple.chunk? = some c ∧ c.entries.length = k := by
  apply stable_of_frame
  rintro s s' j - - hf ⟨c, hc, hlen⟩
  obtain ⟨c', hc', hlen'⟩ := hf.chunk hc
  exact ⟨c', hc', hlen'.trans hlen⟩

/-- A chunk at an identifier. -/
def HasChunk (t : Tid) (s : Disk I V Q) : Prop :=
  ∃ k c, (s.relation.item t).bind IndexTuple.chunk? = some c ∧ c.entries.length = k

theorem stable_hasChunk (t : Tid) : Stable (discipline I oc G connected) i (HasChunk t) :=
  .ex fun k => stable_chunk t k

/-- Walking a chain ends at the entry or at the end of the chain. -/
theorem t2InlineWriteEntry_ok (fuel : Nat) (t : Tid) (slot : Nat) (entry : InlineEntry Q) :
    Triple (discipline I oc G connected) i (fun s => HasChunk t s ∧ Owing i e elem offers rest s)
      (t2InlineWriteEntry fuel t slot entry) fun _ => Owing i e elem offers rest := by
  induction fuel generalizing t with
  | zero => exact .diverge
  | succ fuel ih =>
    have hread : Triple (discipline I oc G connected) i
        (fun s => HasChunk t s ∧ Owing i e elem offers rest s) (readChunk t) fun c s =>
          (∃ c', (s.relation.item t).bind IndexTuple.chunk? = some c' ∧
            c'.entries.length = c.entries.length) ∧
          (c.next.isValid = true → ∃ c', s.relation.item c.next = some (.cont c')) ∧
          Owing i e elem offers rest s := by
      apply Triple.lift
      · exact (stable_hasChunk t).and stable_owing
      · exact fun c => (stable_chunk t c.entries.length).and
          (.and (.imp (stable_cont c.next)) stable_owing)
      · rintro s hs ⟨⟨k, c, hc, -⟩, h⟩
        obtain ⟨x, hx, hxc⟩ := Option.bind_eq_some_iff.mp hc
        refine ⟨c, s, ?_, hs, .skip, ⟨c, hc, rfl⟩, fun hnext => hs.sound.chunks hx hxc hnext, h⟩
        dsimp only
        rw [hc]
    refine .bind hread fun c => ?_
    by_cases hcovers : c.start ≤ slot ∧ slot < c.start + c.entries.length
    · rw [if_pos hcovers]
      apply Triple.lift
      · exact (stable_chunk t c.entries.length).and
          (.and (.imp (stable_cont c.next)) stable_owing)
      · exact fun _ => stable_owing
      · rintro s hs ⟨⟨c', hc', hlen⟩, -, h⟩
        have heff : Effect oc G i s (s.withRelation
            (s.relation.update t (setEntry (slot - c.start) entry))) := .entry
        refine ⟨(), _, ?_, heff.inv hs, heff, h.of_same hs.sound
          ((keepsKind_setEntry _ entry).sameShape _ t) (sameTids_setEntry _ t _ entry) rfl⟩
        rw [hc']
        dsimp only
        rw [if_pos (by omega)]
    · rw [if_neg hcovers]
      cases hvalid : c.next.isValid with
      | false => exact .pure stable_owing fun _ _ h => h.2.2
      | true =>
        refine (ih c.next).weaken fun s _ h => ⟨?_, h.2.2⟩
        obtain ⟨c', hc'⟩ := h.2.1 rfl
        exact ⟨_, c', by rw [hc', Option.bind_some]; rfl, rfl⟩

/-! ### What a full range gives up -/

/-- The elements that some slots name. -/
def Names (tids : List Tid) (es : List (ElementTuple V)) (s : Disk I V Q) : Prop :=
  List.Forall₂ (fun t e => s.relation.element t = some e) tids es

theorem stable_names (tids : List Tid) (es : List (ElementTuple V)) :
    Stable (discipline I oc G connected) i (Names tids es) :=
  stable_of_frame fun _ _ hf h => h.imp fun _ _ he => hf.element he

theorem Names.unique {tids : List Tid} {es es' : List (ElementTuple V)} (h : Names tids es s)
    (h' : Names tids es' s) : es = es' :=
  List.right_unique_forall₂' (fun _ _ _ he he' => Option.some.inj (he.symm.trans he')) h h'

/-- Reading the elements of a range. -/
theorem readElements_ok {F : Disk I V Q → Prop} (hF : Local oc G connected i F) (tids : List Tid)
    (htids : ∀ s, F s → ∀ t ∈ tids, OnLayer 0 t s) :
    Triple (discipline I oc G connected) i F (tids.mapM readElement) fun es s =>
      Names tids es s ∧ F s := by
  rw [← List.mapM'_eq_mapM]
  induction tids generalizing F with
  | nil => exact .pure ((stable_names _ _).and hF.stable) fun _ _ h => ⟨.nil, h⟩
  | cons t tids ih =>
    rw [List.mapM'_cons]
    refine .bind ((readElement_ok hF 0 t).weaken fun s _ h => ⟨htids s h t (by simp), h⟩) fun e =>
      .assume fun _ => ?_
    have hknown : Local oc G connected i fun s => s.relation.element t = some e ∧ F s :=
      ⟨(stable_element t e).and hF.stable, fun s a h => ⟨h.1, hF.access s a h.2⟩⟩
    refine .bind (ih hknown fun s h u hu => htids s h.2 u (List.mem_cons_of_mem t hu)) fun es => ?_
    exact .pure ((stable_names _ _).and hF.stable) fun _ _ h => ⟨.cons h.2.1 h.1, h.2.2⟩

theorem droppedOccupant_lt {dist : V → V → D} {base : V} {occupants : List V}
    {eValue : V} {j : Nat} (h : droppedOccupant dist base occupants eValue = some j) :
    j < occupants.length := by
  unfold droppedOccupant at h
  dsimp only at h
  split at h
  · exact List.mem_range.mp (List.mem_of_find?_eq_some h)
  · cases h

/-- What gives way is one of the occupants. -/
theorem fullRangeSlot_lt {dist : V → V → D} {diversify : Bool} {part : Option Nat}
    {n : ElementTuple V} {es : List (ElementTuple V)} {eValue : V} {j : Nat}
    (h : fullRangeSlot dist diversify part n es eValue = some j) : j < es.length := by
  unfold fullRangeSlot at h
  obtain h | ⟨-, h⟩ := Option.or_eq_some_iff.mp h
  · obtain ⟨p, -, h⟩ := Option.bind_eq_some_iff.mp h
    have := furthest_lt h
    rwa [List.length_map] at this
  · unfold inferiorSlot at h
    split at h
    · have := droppedOccupant_lt h
      rwa [List.length_map] at this
    · dsimp only at h
      split at h
      · have := furthest_lt h
        rwa [List.length_map] at this
      · cases h

/-- **The slot a full range gives up** is what its policy says of its occupants. -/
theorem replaceSlot_ok {F : Disk I V Q → Prop} (hF : Local oc G connected i F) (ins : Inserting V)
    (n : ElementTuple V) (tids : List Tid) (part : Option Nat)
    (htids : ∀ s, F s → ∀ t ∈ tids, OnLayer 0 t s) :
    Triple (discipline I oc G connected) i F (replaceSlot oc ins n tids part) fun target s =>
      (∀ j, target = some j → ∃ es, Names tids es s ∧
        fullRangeSlot oc.dist ins.diversify part n es ins.value = some j) ∧ F s := by
  have hstable : ∀ target : Option Nat, Stable (discipline I oc G connected) i fun s =>
      (∀ j, target = some j → ∃ es, Names tids es s ∧
        fullRangeSlot oc.dist ins.diversify part n es ins.value = some j) ∧ F s := fun target =>
    .and (.all fun j => .imp (.ex fun es => (stable_names tids es).and (.const _))) hF.stable
  unfold replaceSlot
  cases part with
  | none =>
    simp only [Prog.pure_eq, Prog.bind_eq, Prog.pure_bind]
    refine .bind (readElements_ok hF tids htids) fun es => .pure (hstable _) fun s _ h => ⟨?_, h.2⟩
    exact fun j hj => ⟨es, h.1, hj⟩
  | some p =>
    refine .bind (readElements_ok hF tids htids) fun es => ?_
    cases hslot : nonmemberSlot oc.dist n es p with
    | some j =>
      simp only [Prog.pure_eq, Prog.bind_eq, Prog.pure_bind]
      refine .pure (hstable _) fun s _ h => ⟨?_, h.2⟩
      rintro _ ⟨⟩
      refine ⟨es, h.1, ?_⟩
      rw [fullRangeSlot, Option.bind_some, hslot, Option.some_or]
    | none =>
      simp only [Prog.pure_eq, Prog.bind_eq, Prog.pure_bind]
      have hknown : Local oc G connected i fun s => Names tids es s ∧ F s :=
        ⟨(stable_names tids es).and hF.stable, fun s a h => ⟨h.1, hF.access s a h.2⟩⟩
      refine .bind (readElements_ok hknown tids fun s h => htids s h.2) fun es' =>
        .pure (hstable _) fun s _ ⟨hes', hes, hFs⟩ => ⟨fun j hj => ⟨es', hes', ?_⟩, hFs⟩
      rw [hes.unique hes'] at hslot
      rw [fullRangeSlot, Option.bind_some, hslot, Option.none_or, hj]

/-! ### One reverse edge -/

/-- The range of a reverse edge and the slot in it. -/
structure InRange (G : MetaPage) (n : ElementTuple V) (lc off : Nat) (w : ReverseEdge) : Prop where
  layer : lc ≤ n.level
  nbrtid : w.nbrtid = n.neighbortid
  start : w.start = ((n.level - lc) * G.m + off : Nat)
  target : w.target < w.copied.length
  width : off + w.copied.length ≤ t2LayerM lc G.m G.payloadWidth

/-- **Phase 2.** The edge is written, which settles the target's layer and leaves
the other debts alone. -/
theorem writeSlot_ok {n : ElementTuple V} {t : Tid} {lc off : Nat} {w : ReverseEdge}
    (hw : InRange G n lc off w) (he : w.e = e) (hlevel : lc ≤ elem.level) (hne : t ≠ e)
    (hrest : (t, lc) ∉ rest) :
    Triple (discipline I oc G connected) i
      (fun s => w.Chosen oc s.relation ∧ s.relation.element t = some n ∧
        Owing i e elem offers ((t, lc) :: rest) s)
      (writeSlot lc off w)
      fun _ s => s.relation.element t = some n ∧ Owing i e elem offers rest s := by
  have hchosen : Stable (discipline I oc G connected) i fun s => w.Chosen oc s.relation :=
    stable_of_frame fun _ _ hf h => h.mono hf.element
  apply Triple.lift (hchosen.and ((stable_element t n).and stable_owing))
  · exact fun _ => (stable_element t n).and stable_owing
  rintro s hs ⟨hc, hn, h⟩
  obtain ⟨tup, htup, hslots⟩ := hs.sound.neighbors hn
  obtain ⟨honLayer, hnot⟩ := h.unlinked (t, lc) (by simp)
  have hend := layer_end_le hw.layer G.m G.payloadWidth
  have hcount := hslots.count
  have hwidth := hw.width
  have htarget := hw.target
  have hstart : w.start + (w.target : Int) =
      ((n.level - lc) * G.m + (off + w.target) : Nat) := by
    rw [hw.start]
    push_cast
    omega
  have hrange : slotRange tup.tids (w.start + w.target) 1 =
      some ((tup.tids.drop ((n.level - lc) * G.m + (off + w.target))).take 1) := by
    rw [hstart]
    exact slotRange_eq (by omega)
  have hgood : Access.Good G s.relation ⟨n.neighbortid, lc, w.start + w.target, 1, false⟩ := by
    refine ⟨t, n, hn, rfl, hw.layer, ?_, ?_, fun hw' => by cases hw'⟩
    · rw [hstart]
      push_cast
      omega
    · rw [hstart]
      push_cast
      omega
  have hfits : SlotWrite.Fits ⟨w, (tup.tids.drop w.start.toNat).take w.copied.length⟩ n.neighbortid
      ((n.level - lc) * G.m + (off + w.target)) e s := by
    refine ⟨hw.nbrtid, hstart, he, fun tup' htup' => ?_⟩
    obtain rfl := Option.some.inj (htup.symm.trans htup')
    show ((tup.tids.drop w.start.toNat).take w.copied.length)[w.target]? = _
    rw [List.getElem?_take_of_lt htarget, List.getElem?_drop, hw.start, Int.toNat_natCast,
      Nat.add_assoc]
  have heff : Effect oc G i s _ := .slot hn h.element h.event hne.symm hw.layer hlevel
    (j := off + w.target) (by omega) hnot hgood hfits hc
  refine ⟨(), _, ?_, heff.inv hs, heff, (heff.frame hs).element hn, ?_⟩
  · rw [hw.nbrtid, htup]
    dsimp only
    rw [hrange, hstart, Int.toNat_natCast, he]
  · -- the written layer is the only one that changed
    have hs' := (keepsKind_setSlot ((n.level - lc) * G.m + (off + w.target)) e).sameShape
      s.relation n.neighbortid
    have hlinked : Linked lc t (((s.putSlot n.neighbortid lc
        ((n.level - lc) * G.m + (off + w.target)) (off + w.target) e).access
          ⟨n.neighbortid, lc, w.start + w.target, 1, false⟩).noteWrite
            ⟨w, (tup.tids.drop w.start.toNat).take w.copied.length⟩) := by
      obtain ⟨slots, hlen, -, hnow⟩ := layerNeighbors_setSlot_self (u := e) (j := off + w.target)
        hs.sound hn hw.layer
      refine ⟨⟨n, (hs'.element t).trans hn, hw.layer⟩, ?_⟩
      show (s.relation.update n.neighbortid (setSlot ((n.level - lc) * G.m + (off + w.target))
        e)).layerNeighbors lc t ≠ []
      rw [hnow]
      exact Relation.validTids_set_ne_nil (by omega)
        (Relation.isValid_of_item (Relation.element_some.mp h.element)).1
    refine ⟨(hs'.element e).trans h.element, h.event, h.only, fun x hx => ?_, fun u hu => ?_⟩
    · obtain ⟨⟨ex, hex, hlx⟩, hnotx⟩ := h.unlinked x (List.mem_cons_of_mem _ hx)
      refine ⟨⟨ex, (hs'.element _).trans hex, hlx⟩, ?_⟩
      show e ∉ (s.relation.update n.neighbortid (setSlot ((n.level - lc) * G.m + (off + w.target))
        e)).layerNeighbors x.2 x.1
      have hother : x.1 ≠ t ∨ x.2 ≠ lc := by
        by_contra hsame
        push Not at hsame
        exact hrest (by rwa [← hsame.1, ← hsame.2])
      rwa [layerNeighbors_setSlot_of_ne hs.sound hn hex hw.layer hlx (by omega) hother]
    · obtain hmem | ⟨⟨eu, heu, hlu⟩, hneu⟩ := h.paid u hu
      · obtain heq | hmem := List.mem_cons.mp hmem
        · injection heq with h₁ h₂
          subst h₁ h₂
          exact .inr hlinked
        · exact .inl hmem
      · exact .inr ⟨⟨eu, (hs'.element _).trans heu, hlu⟩, (heff.frame hs).kept heu hlu hneu⟩

variable {ins : Inserting V}

/-- **One reverse edge**, from its snapshot to its inline entry. -/
theorem addReverseEdgeAtLayer_ok (fuel : Nat) {entry : Option (InlineEntry Q)} {lc : Nat} {o : Offer}
    (hm : ins.mEff = G.m) (hlevel : lc ≤ elem.level) (hvalue : elem.vec = ins.value)
    (hinline : entry.isSome = true → G.inlineVectors = true) (hne : o.target ≠ e)
    (hwidth : o.rangeOff + o.rangeLen ≤ t2LayerM lc G.m G.payloadWidth) (hpos : 0 < o.rangeLen)
    (hrest : (o.target, lc) ∉ rest) :
    Triple (discipline I oc G connected) i (Owing i e elem offers ((o.target, lc) :: rest))
      (addReverseEdgeAtLayer oc fuel ins e lc entry o)
      fun _ => Owing i e elem offers rest := by
  have howing : Local oc G connected i (Owing i e elem offers ((o.target, lc) :: rest)) :=
    local_owing
  unfold addReverseEdgeAtLayer
  refine .bind ((readElement_ok howing lc o.target).weaken fun s _ h =>
    ⟨(h.unlinked (o.target, lc) (by simp)).1, h⟩) fun n => .assume fun hl => ?_
  refine .bind (copySlots_ok o.rangeOff howing hl ?_ hwidth (fun h => by cases h)) fun tids =>
    .assume fun hlen => ?_
  · rw [hnswNeighborStart_eq hl, hm]
    push_cast
    rfl
  have hpay : Triple (discipline I oc G connected) i
      (fun s => Linked lc o.target s ∧ Owing i e elem offers ((o.target, lc) :: rest) s)
      (.pure ()) fun _ => Owing i e elem offers rest :=
    .pure stable_owing fun s _ h => h.2.pay h.1
  by_cases hmem : e ∈ tids
  · -- an edge that is there already
    rw [if_pos hmem]
    refine hpay.weaken fun s _ ⟨_, hlinked, _, h⟩ => ⟨hlinked ?_, h⟩
    exact List.ne_nil_of_mem (mem_validTids.mpr
      ⟨hmem, (Relation.isValid_of_item (Relation.element_some.mp h.element)).1⟩)
  rw [if_neg hmem]
  -- phase 2, once the slot is chosen
  have hwrite : ∀ j, j < tids.length → ∀ k : Prog (Disk I V Q) Unit,
      (entry = none → k = .pure ()) →
      (∀ x, entry = some x → k =
        if lc = 0 then t2InlineWriteEntry fuel n.neighbortid (o.rangeOff + j) x else .pure ()) →
      Triple (discipline I oc G connected) i
      (fun s => (ReverseEdge.mk n.neighbortid (hnswNeighborStart ins.mEff n.level lc + o.rangeOff)
          tids j e o.part ins.diversify).Chosen oc s.relation ∧
        s.relation.element o.target = some n ∧
        Owing i e elem offers ((o.target, lc) :: rest) s)
      ((writeSlot lc o.rangeOff ⟨n.neighbortid, hnswNeighborStart ins.mEff n.level lc + o.rangeOff,
        tids, j, e, o.part, ins.diversify⟩).bind fun _ => k)
      fun _ => Owing i e elem offers rest := by
    intro j hj k hnone hsome
    have hin : InRange G n lc o.rangeOff ⟨n.neighbortid,
        hnswNeighborStart ins.mEff n.level lc + o.rangeOff, tids, j, e, o.part, ins.diversify⟩ := by
      refine ⟨hl, rfl, ?_, hj, by rw [hlen]; exact hwidth⟩
      rw [hnswNeighborStart_eq hl, hm]
      push_cast
      rfl
    refine .bind (writeSlot_ok hin rfl hlevel hne hrest) fun _ => ?_
    have hdone : Triple (discipline I oc G connected) i
        (fun s => s.relation.element o.target = some n ∧ Owing i e elem offers rest s)
        (.pure ()) fun _ => Owing i e elem offers rest := .pure stable_owing fun _ _ h => h.2
    cases hentry : entry with
    | none =>
      rw [hnone hentry]
      exact hdone
    | some entry =>
      rw [hsome entry hentry]
      by_cases h0 : lc = 0
      · rw [if_pos h0]
        refine (t2InlineWriteEntry_ok fuel n.neighbortid (o.rangeOff + j) entry).weaken
          fun s hs h => ⟨?_, h.2⟩
        -- the neighbor tuple of an element has a chunk of its own
        obtain ⟨tup, htup, -⟩ := hs.sound.neighbors h.1
        obtain ⟨c, hc⟩ := Option.isSome_iff_exists.mp
          (hs.sound.inline (hinline (by rw [hentry]; rfl)) h.1 htup)
        exact ⟨_, c, by rw [Relation.neighbor_some.mp htup, Option.bind_some]; exact hc, rfl⟩
      · rw [if_neg h0]
        exact hdone
  cases hfind : tids.findIdx? fun t => !t.isValid with
  | some j =>
    obtain ⟨hj, hempty, -⟩ := List.findIdx?_eq_some_iff_getElem.mp hfind
    refine (hwrite j hj _ (fun h => by rw [h]; rfl) (fun x h => by rw [h]; rfl)).weaken fun s _ h => ⟨.inl ⟨tids[j], ?_, by simpa using hempty⟩, h.2.2⟩
    exact List.getElem?_eq_getElem hj
  | none =>
    have hfull : validTids tids = tids :=
      validTids_eq_self fun t ht => by simpa using List.findIdx?_eq_none_iff.mp hfind t ht
    have hknown : Local oc G connected i fun s => (∀ u, u ∈ validTids tids → OnLayer lc u s) ∧
        (validTids tids ≠ [] → Linked lc o.target s) ∧ s.relation.element o.target = some n ∧
        Owing i e elem offers ((o.target, lc) :: rest) s :=
      ⟨.and (.all fun u => .imp (stable_onLayer lc u)) (.and (.imp (stable_linked lc o.target))
        ((stable_element o.target n).and stable_owing)), fun s a h =>
        ⟨h.1, h.2.1, h.2.2.1, howing.access s a h.2.2.2⟩⟩
    refine .bind (replaceSlot_ok hknown ins n tids o.part fun s h t ht =>
      (h.1 t (hfull.symm ▸ ht)).zero) fun target => ?_
    cases target with
    | none =>
      refine hpay.weaken fun s _ h => ⟨h.2.2.1 ?_, h.2.2.2.2⟩
      rw [hfull]
      exact List.ne_nil_of_length_pos (by omega)
    | some j =>
      rintro s hs ⟨htarget, -, -, hn, h⟩
      obtain ⟨es, hes, hslot⟩ := htarget j rfl
      have hj : j < tids.length := by
        rw [List.Forall₂.length_eq hes]
        exact fullRangeSlot_lt hslot
      rw [← hvalue] at hslot
      exact hwrite j hj _ (fun h => by rw [h]; rfl) (fun x h => by rw [h]; rfl) s hs ⟨.inr ⟨o.target, n, elem, es, hn, rfl, h.element, hes, hslot⟩, hn, h⟩

/-! ### All reverse edges -/

/-- The debts of a layer, in the order in which they are paid. -/
def layerDebts (ins : Inserting V) (w : Wiring) (lc : Nat) : List (Tid × Nat) :=
  (globalOffers ins w.ntids lc ++ payloadOffers ins w lc).map fun o => (o.target, lc)

/-- The debts of the layers from `lc` down to 0. -/
def debts (ins : Inserting V) (w : Wiring) : Nat → List (Tid × Nat)
  | 0 => layerDebts ins w 0
  | lc + 1 => layerDebts ins w (lc + 1) ++ debts ins w lc

variable {w : Wiring}

/-- The offers of a layer are different slots of it. -/
theorem layerDebts_sublist (hm : ins.mEff = G.m) (hp : ins.payloadM = G.payloadWidth) {lc : Nat}
    (hl : lc ≤ ins.level) :
    ((layerDebts ins w lc).map Prod.fst).Sublist
      (validTids (layerSlots G.m G.payloadWidth ins.level lc w.ntids)) := by
  have htargets : (layerDebts ins w lc).map Prod.fst =
      (globalOffers ins w.ntids lc).map Offer.target ++
        (payloadOffers ins w lc).map Offer.target := by
    rw [layerDebts, List.map_map, List.map_append]
    rfl
  rw [htargets]
  unfold globalOffers payloadOffers layerSlots
  rw [Inserting.start_eq hm hl, hm, hp]
  by_cases hon : lc = 0 ∧ ins.payloadOn = true
  · obtain ⟨rfl, hpay⟩ := hon
    simp only [hpay, and_self, if_true, List.map_map]
    rw [Inserting.start_eq hm hl, t2LayerM_zero]
    have hsplit : ∀ k ≤ G.payloadWidth, ((w.ntids.drop ((ins.level - 0) * G.m)).take G.m ++
        (w.ntids.drop ((ins.level - 0) * G.m + G.m)).take k).Sublist
          ((w.ntids.drop ((ins.level - 0) * G.m)).take (G.m + G.payloadWidth)) := by
      intro k hk
      rw [List.take_add, List.drop_drop]
      exact List.Sublist.append_left ((List.take_prefix_take_left hk).sublist) _
    have hfilter := (hsplit (min w.payloadReal G.payloadWidth) (Nat.min_le_right _ _)).filter
      fun t : Tid => t.isValid
    rw [List.filter_append] at hfilter
    simpa [validTids, Function.comp_def] using hfilter
  · simp only [if_neg hon, List.map_map, List.map_nil, List.append_nil]
    simp [Function.comp_def]

theorem mem_debts {lc : Nat} {x : Tid × Nat} :
    x ∈ debts ins w lc ↔ ∃ layer ≤ lc, x ∈ layerDebts ins w layer := by
  induction lc with
  | zero => simp [debts]
  | succ lc ih =>
    rw [debts, List.mem_append, ih]
    constructor
    · rintro (h | ⟨layer, hle, h⟩)
      · exact ⟨lc + 1, Nat.le_refl _, h⟩
      · exact ⟨layer, by omega, h⟩
    · rintro ⟨layer, hle, h⟩
      obtain hlt | rfl := Nat.lt_or_eq_of_le hle
      · exact .inr ⟨layer, by omega, h⟩
      · exact .inl h

theorem snd_of_mem_layerDebts {lc : Nat} {x : Tid × Nat} (h : x ∈ layerDebts ins w lc) :
    x.2 = lc := by
  obtain ⟨o, -, rfl⟩ := List.mem_map.mp h
  rfl

/-- No debt is listed twice. -/
theorem nodup_debts (hm : ins.mEff = G.m) (hp : ins.payloadM = G.payloadWidth) {lc : Nat}
    (hl : lc ≤ ins.level) (hnodup : ∀ layer ≤ ins.level,
      (validTids (layerSlots G.m G.payloadWidth ins.level layer w.ntids)).Nodup) :
    (debts ins w lc).Nodup := by
  have hlayer : ∀ layer ≤ ins.level, (layerDebts ins w layer).Nodup := fun layer hle =>
    ((hnodup layer hle).sublist (layerDebts_sublist hm hp hle)).of_map Prod.fst
  induction lc with
  | zero => exact hlayer 0 hl
  | succ lc ih =>
    refine List.nodup_append.mpr ⟨hlayer _ hl, ih (by omega), ?_⟩
    rintro x hx _ hx' rfl
    obtain ⟨layer, hle, hx'⟩ := mem_debts.mp hx'
    have h₁ := snd_of_mem_layerDebts hx
    have h₂ := snd_of_mem_layerDebts hx'
    omega

/-- Every offer is for a range inside its layer that has room for it. -/
theorem offer_range (hm : ins.mEff = G.m) (hp : ins.payloadM = G.payloadWidth) {lc : Nat} {o : Offer}
    (ho : o ∈ globalOffers ins w.ntids lc ++ payloadOffers ins w lc) :
    o.rangeOff + o.rangeLen ≤ t2LayerM lc G.m G.payloadWidth ∧ 0 < o.rangeLen := by
  -- an offer comes from a slot, so its range has slots
  have hpos : ∀ {t : Tid} {slots : List Tid} {k : Nat}, t ∈ validTids (slots.take k) → 0 < k := by
    intro t slots k ht
    obtain ⟨ht, -⟩ := mem_validTids.mp ht
    exact Nat.pos_of_ne_zero fun h0 => by simp [h0] at ht
  rw [← hm, ← hp]
  obtain ho | ho := List.mem_append.mp ho
  · obtain ⟨t, ht, rfl⟩ := List.mem_map.mp ho
    refine ⟨?_, hpos ht⟩
    dsimp only
    split
    · rename_i hon
      rw [hon.1, t2LayerM_zero]
      omega
    · omega
  · unfold payloadOffers at ho
    split at ho
    · rename_i hon
      obtain ⟨t, ht, rfl⟩ := List.mem_map.mp ho
      have := hpos ht
      rw [hon.1, t2LayerM_zero]
      refine ⟨Nat.le_refl _, ?_⟩
      dsimp only
      omega
    · cases ho

/-- **The reverse edges of a list of offers** pay the debts in its order. -/
theorem offers_ok (fuel : Nat) {entry : Option (InlineEntry Q)} {lc : Nat} (hm : ins.mEff = G.m)
    (hlevel : lc ≤ elem.level) (hvalue : elem.vec = ins.value)
    (hinline : entry.isSome = true → G.inlineVectors = true) (os : List Offer)
    (hos : ∀ o ∈ os, o.target ≠ e ∧
      o.rangeOff + o.rangeLen ≤ t2LayerM lc G.m G.payloadWidth ∧ 0 < o.rangeLen)
    (hnodup : (os.map (fun o => (o.target, lc)) ++ rest).Nodup) :
    Triple (discipline I oc G connected) i
      (Owing i e elem offers (os.map (fun o => (o.target, lc)) ++ rest))
      (os.forM (addReverseEdgeAtLayer oc fuel ins e lc entry))
      fun _ => Owing i e elem offers rest := by
  induction os with
  | nil => exact .pure stable_owing fun _ _ h => h
  | cons o os ih =>
    rw [List.map_cons, List.cons_append, List.nodup_cons] at hnodup
    obtain ⟨hne, hwidth, hpos⟩ := hos o (by simp)
    refine .bind (addReverseEdgeAtLayer_ok fuel hm hlevel hvalue hinline hne hwidth hpos hnodup.1)
      fun _ => ih (fun o' ho' => hos o' (List.mem_cons_of_mem o ho')) hnodup.2

/-- **The reverse edges of all layers.** -/
theorem offerLayers_ok (fuel : Nat) {entry : Option (InlineEntry Q)} {lc : Nat}
    (hm : ins.mEff = G.m) (hp : ins.payloadM = G.payloadWidth) (hlevel : lc ≤ elem.level)
    (hvalue : elem.vec = ins.value) (hinline : entry.isSome = true → G.inlineVectors = true)
    (hne : ∀ x ∈ debts ins w lc, x.1 ≠ e) (hnodup : (debts ins w lc).Nodup) :
    Triple (discipline I oc G connected) i (Owing i e elem offers (debts ins w lc))
      (offerLayers oc fuel ins w e entry lc) fun _ s => Paid i s := by
  -- one layer, whatever comes after it
  have hlayer : ∀ {layer : Nat} (rest : List (Tid × Nat)), layer ≤ elem.level →
      (∀ x ∈ layerDebts ins w layer, x.1 ≠ e) → (layerDebts ins w layer ++ rest).Nodup →
      Triple (discipline I oc G connected) i (Owing i e elem offers (layerDebts ins w layer ++ rest))
        (offerLayer oc fuel ins w e entry layer) fun _ => Owing i e elem offers rest := by
    intro layer rest hle hne hnodup
    have hos : ∀ o ∈ globalOffers ins w.ntids layer ++ payloadOffers ins w layer, o.target ≠ e ∧
        o.rangeOff + o.rangeLen ≤ t2LayerM layer G.m G.payloadWidth ∧ 0 < o.rangeLen := fun o ho =>
      ⟨hne _ (List.mem_map.mpr ⟨o, ho, rfl⟩), offer_range hm hp ho⟩
    rw [layerDebts, List.map_append, List.append_assoc] at hnodup ⊢
    refine .bind (offers_ok fuel hm hle hvalue hinline _ (fun o ho => hos o (by simp [ho])) hnodup)
      fun _ => offers_ok fuel hm hle hvalue hinline _ (fun o ho => hos o (by simp [ho])) ?_
    exact (List.nodup_append.mp hnodup).2.1
  induction lc with
  | zero =>
    have := hlayer [] hlevel hne (by simpa [debts] using hnodup)
    rw [List.append_nil] at this
    exact this.consequence fun _ s h => h.paid_all
  | succ lc ih =>
    refine .bind (hlayer _ hlevel (fun x hx => hne x ?_) hnodup) fun _ =>
      ih (by omega) (fun x hx => hne x ?_) (List.nodup_append.mp hnodup).2.1
    · exact List.mem_append_left _ hx
    · exact List.mem_append_right _ hx

end

end PgAcorn.Build
