import PgAcorn.Build.Wire

/-! Writing a new element: its continuation chunks, its neighbor tuple, the element
itself.

`Begun` is what the insert knows since it read the meta page. The neighbor tuple
stays its own until the element that owns it is appended (`Pending`), and that step
turns the forward slots into offers to distinct elements (`Owing`). -/
namespace PgAcorn.Build
open Library
open PgAcorn.Filter (Datum)

section
variable {I V Q D : Type} [CDouble D] {oc : Opclass V Q D} {G : MetaPage} {connected : Prop} {i : I}

/-! ### Appending a tuple -/

theorem stable_blocks (k : Nat) :
    Stable (discipline I oc G connected) i fun s => k ≤ s.relation.pages.length :=
  stable_of_frame fun _ _ hf hk => hk.trans hf.blocks

variable {pre : Disk I V Q → Prop} {post : Tid → Disk I V Q → Prop} {x : IndexTuple V Q}
  {note : Tid → Disk I V Q → Disk I V Q}

/-- Wherever the tuple ends up, appending it is one step; before it there are only
reads, and errors leave nothing owed. -/
theorem appendTuple_ok (hpre : Stable (discipline I oc G connected) i pre)
    (hpost : ∀ t, Stable (discipline I oc G connected) i (post t)) (hpaid : ∀ s, pre s → Paid i s)
    (happend : ∀ s t r, Inv oc G connected s → pre s → Relation.Appended s.relation r x t →
      r.pages.length < invalidBlockNumber →
        Effect oc G i s (note t (s.withRelation r)) ∧ post t (note t (s.withRelation r)))
    (size : Nat) :
    Triple (discipline I oc G connected) i pre (appendTuple x size note) post := by
  have hraise : ∀ message, Triple (discipline I oc G connected) i pre (.raise message) post :=
    fun message => .raise stable_paid fun s _ h => hpaid s h
  have hdone : ∀ t, Triple (discipline I oc G connected) i (post t) (.pure t) post :=
    fun t => .pure (hpost t) fun _ _ h => h
  have hpage : Triple (discipline I oc G connected) i pre (appendPage x size note) post := by
    have hadd : Triple (discipline I oc G connected) i pre (addPage x size note)
        fun added s => added.elim (pre s) fun t => post t s := by
      apply Triple.lift hpre
      · intro added
        cases added with
        | none => exact hpre
        | some t => exact hpost t
      · intro s hs hp
        cases hext : s.relation.extendTuple x size with
        | none => exact ⟨none, s, rfl, hs, .skip, hp⟩
        | some tr =>
          obtain ⟨heff, hpost'⟩ := happend s tr.1 tr.2 hs hp (Relation.extendTuple_spec hext)
            (Relation.length_extendTuple hext).2
          exact ⟨some tr.1, _, rfl, heff.inv hs, heff, hpost'⟩
    refine .bind hadd fun added => ?_
    cases added with
    | none => exact hraise _
    | some t => exact hdone t
  unfold appendTuple
  have hblocks : Triple (discipline I oc G connected) i pre numberOfBlocks
      fun nblocks s => nblocks ≤ s.relation.pages.length + 1 ∧ pre s := by
    apply Triple.lift hpre
    · intro nblocks s s' hrely h
      have := (stable_blocks (nblocks - 1)).and hpre s s' hrely ⟨by omega, h.2⟩
      exact ⟨by omega, this.2⟩
    · exact fun s hs hp => ⟨_, s, rfl, hs, .skip, Nat.le_refl _, hp⟩
  refine .bind hblocks fun nblocks => ?_
  by_cases hmany : nblocks > 1
  · rw [if_pos hmany]
    have hadd : Triple (discipline I oc G connected) i
        (fun s => nblocks ≤ s.relation.pages.length + 1 ∧ pre s)
        (addToPage (nblocks - 1) x size note)
        fun added s => (added.elim (pre s) fun t => t.elim (pre s) fun t => post t s) := by
      apply Triple.lift
      · intro s s' hrely h
        have := (stable_blocks (nblocks - 1)).and hpre s s' hrely ⟨by omega, h.2⟩
        exact ⟨by omega, this.2⟩
      · rintro (_ | _ | t)
        · exact hpre
        · exact hpre
        · exact hpost t
      · rintro s hs ⟨hle, hp⟩
        cases hat : s.relation.appendAt (nblocks - 1) x size with
        | none =>
          -- the block that was last still exists
          exfalso
          have hlt : nblocks - 1 - 1 < s.relation.pages.length := by omega
          rw [Relation.appendAt, if_neg (by omega), List.getElem?_eq_getElem hlt] at hat
          cases hat
        | some attempt =>
          cases attempt with
          | full => exact ⟨none, s, rfl, hs, .skip, hp⟩
          | failed => exact ⟨some none, s, rfl, hs, .skip, hp⟩
          | added t r =>
            obtain ⟨ha, hlen⟩ := Relation.appendAt_spec hat
            obtain ⟨heff, hpost'⟩ := happend s t r hs hp ha (hlen ▸ hs.sound.blocks)
            exact ⟨some (some t), _, rfl, heff.inv hs, heff, hpost'⟩
    refine .bind hadd fun added => ?_
    obtain _ | _ | t := added
    · exact hpage
    · exact hraise _
    · exact hdone t
  · rw [if_neg hmany]
    exact hpage.weaken fun _ _ h => h.2

/-! ### The neighbor tuple -/

/-- What the insert knows of the meta page it read. -/
structure Begun (i : I) (p : MetaPage) (s : Disk I V Q) : Prop where
  read : ∃ v, .read i p.hasEntry v ∈ s.history.events
  entry : p.hasEntry = true → s.relation.metaPage.hasEntry = true
  unborn : Unborn i s

theorem stable_begun (p : MetaPage) :
    Stable (discipline I oc G connected) i (Begun i p) :=
  stable_of_frame fun hj _ hf h => ⟨h.read.imp fun _ he => hf.events _ he,
    fun hhas => hf.hasEntry (h.entry hhas), fun t o => hf.not_mem hj (h.unborn t o)⟩

variable {ins : Inserting V} {ntids : List Tid} {p : MetaPage}

/-- The insert has forward slots and no tuple yet. -/
def Ready (i : I) (G : MetaPage) (p : MetaPage) (level : Nat) (ntids : List Tid) (s : Disk I V Q) :
    Prop :=
  Wired G level ntids s ∧ Begun i p s

theorem local_ready (level : Nat) (ntids : List Tid) :
    Local oc G connected i (Ready i G p level ntids) where
  stable := (local_wired level ntids).stable.and (stable_begun p)
  access _ _ h := ⟨h.1, h.2.read, h.2.entry, h.2.unborn⟩

/-- The inline entry of a slot, its element read. -/
theorem gatherEntry_ok [Inhabited Q] (dims : Nat) {lc : Nat} {t : Tid} (hl : lc ≤ ins.level)
    (ht : t ∈ layerSlots G.m G.payloadWidth ins.level lc ntids) :
    Triple (discipline I oc G connected) i (Ready i G p ins.level ntids) (gatherEntry oc dims t)
      fun _ s => True ∧ Ready i G p ins.level ntids s := by
  have hready : Local oc G connected i (Ready i G p ins.level ntids) := local_ready _ _
  unfold gatherEntry
  cases hvalid : t.isValid with
  | false => exact .pure ((Stable.const _).and hready.stable) fun _ _ h => ⟨trivial, h⟩
  | true =>
    refine .bind ((readElement_ok hready lc t).weaken fun s _ h => ⟨?_, h⟩) fun e =>
      .pure ((Stable.const _).and hready.stable) fun _ _ h => ⟨trivial, h.2.2⟩
    exact h.1.2 lc t hl (mem_validTids.mpr ⟨ht, hvalid⟩)

/-- A chain of continuation tuples, as far as its first identifier tells. -/
def ContAt (t : Tid) (s : Disk I V Q) : Prop :=
  t.isValid = true → ∃ c, s.relation.item t = some (.cont c)

/-- The continuation chunks are appended behind one another. -/
theorem appendConts_ok (lentries : List (InlineEntry Q)) (n1 contCap esz : Nat) (c : Nat)
    (next : Tid) :
    Triple (discipline I oc G connected) i
      (fun s => ContAt next s ∧ Ready i G p ins.level ntids s)
      (appendConts lentries n1 contCap esz c next)
      fun t s => ContAt t s ∧ Ready i G p ins.level ntids s := by
  have hstable : ∀ t, Stable (discipline I oc G connected) i fun s =>
      ContAt t s ∧ Ready i G p ins.level ntids s := fun t =>
    (Stable.imp (stable_cont t)).and (local_ready _ _).stable
  induction c generalizing next with
  | zero => exact .pure (hstable next) fun _ _ h => h
  | succ c ih =>
    refine .bind (appendTuple_ok (hstable next) hstable (fun s h => h.2.2.unborn.paid) ?_ _) fun t => ih t
    rintro s t r hs ⟨hnext, hwired, hbegun⟩ ha hblocks
    refine ⟨.cont ha hblocks hnext, fun _ => ⟨_, ha.item_self⟩, ⟨hwired.1, fun layer u hl hu => ?_⟩,
      hbegun.read, fun hhas => ?_, hbegun.unborn⟩
    · exact (hwired.2 layer u hl hu).imp fun _ he => ⟨ha.element_of_element he.1, he.2⟩
    · show r.metaPage.hasEntry = true
      rw [ha.metaPage]
      exact hbegun.entry hhas

/-- A neighbor tuple with the forward slots is appended; it is nobody's yet. -/
theorem appendNeighbor_ok (hm : ins.mEff = G.m) (hp : ins.payloadM = G.payloadWidth)
    {inline? : Option (InlineChunk Q)} (hinline : G.inlineVectors = true → inline?.isSome = true)
    (size : Nat) :
    Triple (discipline I oc G connected) i
      (fun s => (∀ c, inline? = some c → ContAt c.next s) ∧ Ready i G p ins.level ntids s)
      (appendTuple (.neighbor ⟨ntids, inline?⟩) size (noteNeighbor ins i ntids))
      fun t s => Pending G i t ins.level ntids s ∧ Ready i G p ins.level ntids s := by
  apply appendTuple_ok
  · exact (Stable.all fun c : InlineChunk Q => .imp (.imp (stable_cont c.next))).and (local_ready _ _).stable
  · exact fun t => (stable_pending t ins.level ntids).and (local_ready _ _).stable
  · exact fun s h => h.2.2.unborn.paid
  · rintro s t r hs ⟨hnext, hwired, hbegun⟩ ha hblocks
    have hnote : noteNeighbor ins i ntids t (s.withRelation r) =
        ((s.withRelation r).write t fun layer =>
          layerSlots G.m G.payloadWidth ins.level layer ntids).event (.neighbor i t ins.level) := by
      rw [noteNeighbor, hm, hp]
    rw [hnote]
    refine ⟨.neighbor ha hblocks hwired.1.1 hnext, ⟨⟨_, Relation.neighbor_some.mpr ha.item_self,
      rfl, hinline⟩, List.mem_cons_self, fun {u e} he heq => ?_, fun layer => ?_⟩,
      ⟨hwired.1, fun layer u hl hu => ?_⟩, hbegun.read.imp fun _ he => List.mem_cons_of_mem _ he,
      fun hhas => ?_, fun u o ho => ?_⟩
    · -- an element's neighbor tuple was there before
      have he₀ : s.relation.element u = some e := by
        by_cases hu : u = t
        · subst hu
          have he : r.element u = some e := he
          rw [Relation.element_some, ha.item_self] at he
          cases he
        · exact (Relation.element_congr (ha.item_other u hu)).symm.trans he
      obtain ⟨n, hn, -⟩ := hs.sound.neighbors he₀
      exact ha.ne_of_item (Relation.neighbor_some.mp hn) heq
    · show Function.update s.history.written t _ t layer = _
      rw [Function.update_self]
    · exact (hwired.2 layer u hl hu).imp fun _ he => ⟨ha.element_of_element he.1, he.2⟩
    · show r.metaPage.hasEntry = true
      rw [ha.metaPage]
      exact hbegun.entry hhas
    · exact hbegun.unborn u o (List.mem_of_ne_of_mem (by simp) ho)

/-- **The neighbor tuple**, with or without co-located vectors. -/
theorem writeNeighborTuple_ok [Inhabited Q] (hm : ins.mEff = G.m)
    (hp : ins.payloadM = G.payloadWidth) (hinline : p.inlineVectors = G.inlineVectors) :
    Triple (discipline I oc G connected) i (Ready i G p ins.level ntids)
      (writeNeighborTuple oc ins i p ntids)
      fun t s => Pending G i t ins.level ntids s ∧ Ready i G p ins.level ntids s := by
  have hready : Local oc G connected i (Ready i G p ins.level ntids) := local_ready _ _
  unfold writeNeighborTuple
  cases hflag : p.inlineVectors with
  | false =>
    refine (appendNeighbor_ok hm hp (fun hG => ?_) _).weaken fun s _ h => ⟨fun _ hc => (nomatch hc), h⟩
    rw [← hinline, hflag] at hG
    cases hG
  | true =>
    have hgather : ∀ t ∈ (ntids.drop (ins.start 0)).take (t2L0Width ins.mEff ins.payloadM),
        Triple (discipline I oc G connected) i (Ready i G p ins.level ntids)
          (gatherEntry oc p.dimensions t) fun _ s => True ∧ Ready i G p ins.level ntids s := by
      intro t ht
      refine gatherEntry_ok p.dimensions (Nat.zero_le ins.level) ?_
      rwa [Inserting.start_eq hm (Nat.zero_le _), hm, hp] at ht
    refine .bind (Triple.mapM hready.stable hgather) fun lentries => ?_
    refine .bind ((appendConts_ok lentries _ _ _ _ _).weaken fun s _ h => ⟨fun hvalid => ?_, h.2⟩)
      fun next => ?_
    · cases hvalid
    · refine (appendNeighbor_ok hm hp (fun _ => rfl) _).weaken fun s _ h => ⟨fun c hc => ?_, h.2⟩
      obtain rfl := Option.some.inj hc
      exact h.1

end

end PgAcorn.Build
