import PgAcorn.Build.Runs
import PgAcorn.Build.Rows
import PgAcorn.Library.Batch

/-! `acorn_insert_element` in its parts: what comes before the reverse edges, and these one
by one.

Up to step 7 an insert reads, appends its tuples and updates the entry point; it is then
known which edges it offers (`prepareElement`). What was in the index is still there
(`prepareElement_extends`), and every edge is for the global half, an upper layer, or, from
a member of the partition, for the payload half of its target (`prepareElement_edges`). -/
namespace PgAcorn.Build
open Library
open PgAcorn.Filter (Datum)

section
variable {I V Q D : Type} [CDouble D] [Inhabited Q] (H : PairingHeap) (oc : Opclass V Q D)
  (natts fuel : Nat)

/-! ### The parts -/

/-- An element to insert, and by whom. -/
structure Job (I V : Type) where
  backend : I
  opts : RdOptions
  row : Row V
  value : V

/-- What an insert goes on with when its element is in the index. -/
structure Linking (V Q : Type) where
  ins : Inserting V
  e : Tid
  entry : Option (InlineEntry Q)

/-- Steps 5 to 7 of `acorn_insert_element`: the new element, with its name. -/
def announce (i : I) (ins : Inserting V) (row : Row V) (p : MetaPage) (w : Wiring) :
    Prog (Disk I V Q) (Tid × ElementTuple V) := do
  let n ← writeNeighborTuple oc ins i p w.ntids
  let elem := newElement ins.level row.filterVal row.heaptid n ins.value
  let e ← appendTuple (.element elem) (elementTupleSize (oc.vsize ins.value)) fun t s =>
    s.event (.element i t ((globalOffers ins w.ntids 0).map Offer.target))
  maybeUpdateEntry e ins.level
  pure (e, elem)

/-- The edges of the layers from `lc` down to 0. -/
def layerOffers {V : Type} (ins : Inserting V) (w : Wiring) : Nat → List (Nat × Offer)
  | 0 => (globalOffers ins w.ntids 0 ++ payloadOffers ins w 0).map (Prod.mk 0)
  | lc + 1 => (globalOffers ins w.ntids (lc + 1) ++ payloadOffers ins w (lc + 1)).map
      (Prod.mk (lc + 1)) ++ layerOffers ins w lc

/-- What an insert works with, of its options, its row and the meta page. -/
def Job.inserting (job : Job I V) (p : MetaPage) : Inserting V where
  mEff := mEff job.opts job.row.defaultGamma
  payloadM := p.payloadWidth
  efc := optEfConstruction job.opts
  diversify := optDiversify job.opts
  payloadOn := optPayloadEdges job.opts && decide (natts > 1)
  part := payloadPartition job.row.filterVal
  level := assignLevel (mEff job.opts job.row.defaultGamma) job.row.drawn
  value := job.value

/-- Steps 1 to 7 of `acorn_insert_element`, with the edges that are then made. -/
def prepareElement (job : Job I V) : Prog (Disk I V Q) (Linking V Q × List (Nat × Offer)) :=
  if elementTupleSize (oc.vsize job.value) > hnswMaxSize then
    .raise "acorn_hnsw: vector too large to index"
  else do
    let p ← readMeta job.backend
    if p.inlineVectors && oc.dim job.value != p.dimensions then
      .raise s!"acorn_hnsw: vector dimension {oc.dim job.value} does not match index dimension {p.dimensions}"
    else
      let ins := job.inserting natts p
      let w ← wire H oc fuel ins p
      let (e, elem) ← announce oc job.backend ins job.row p w
      pure (⟨ins, e, if p.inlineVectors then some (selfEntry oc p.dimensions e elem) else none⟩,
        if p.hasEntry then layerOffers ins w (min p.entryLevel.toNat ins.level) else [])

/-- Inserts one after the other. -/
def diskBuilding : Batch (Disk I V Q) (Job I V) (Linking V Q) (Nat × Offer) where
  start := prepareElement H oc natts fuel
  item k x := addReverseEdgeAtLayer oc fuel k.ins k.e x.1 k.entry x.2
  finish _ := pure ()

variable {H oc natts fuel} {ins : Inserting V} {w : Wiring} {e : Tid} {entry : Option (InlineEntry Q)}

omit [Inhabited Q] in
theorem offerLayers_eq (lc : Nat) : (offerLayers oc fuel ins w e entry lc : Prog (Disk I V Q) Unit) =
    (layerOffers ins w lc).forM fun x => addReverseEdgeAtLayer oc fuel ins e x.1 entry x.2 := by
  have hlayer : ∀ lc, (offerLayer oc fuel ins w e entry lc : Prog (Disk I V Q) Unit) =
      ((globalOffers ins w.ntids lc ++ payloadOffers ins w lc).map (Prod.mk lc)).forM
        fun x => addReverseEdgeAtLayer oc fuel ins e x.1 entry x.2 := by
    intro lc
    rw [List.forM_eq_forM, List.forM_map, List.forM_append]
    rfl
  induction lc with
  | zero => exact hlayer 0
  | succ lc ih =>
    rw [layerOffers, List.forM_eq_forM, List.forM_append, offerLayers, hlayer, ih]
    rfl

theorem diskBuilding_whole (job : Job I V) : (diskBuilding H oc natts fuel).whole job =
    insertElement H oc natts fuel job.backend job.opts job.row job.value := by
  show (prepareElement H oc natts fuel job).bind _ = _
  unfold prepareElement insertElement
  split
  · rfl
  simp only [Prog.bind_eq, Prog.bind_assoc]
  congr 1
  funext p
  split
  · rfl
  simp only [Prog.bind_assoc]
  congr 1
  funext w
  unfold announce publish
  simp only [Prog.bind_eq, Prog.bind_assoc, Prog.pure_eq, Prog.pure_bind]
  congr 1
  funext n
  congr 1
  funext e
  congr 1
  funext _
  refine (Prog.bind_pure _).trans ?_
  split
  · exact (offerLayers_eq _).symm
  · rfl

/-! ### What was there stays -/

/-- The tuples of the first are tuples of the second. -/
def Extends (r r' : Relation V Q) : Prop := ∀ t x, r.item t = some x → r'.item t = some x

omit [CDouble D] [Inhabited Q] in
theorem Extends.element {r r' : Relation V Q} (h : Extends r r') {t : Tid} {x : ElementTuple V}
    (he : r.element t = some x) : r'.element t = some x :=
  Relation.element_some.mpr (h t _ (Relation.element_some.mp he))

omit [CDouble D] [Inhabited Q] in
theorem Extends.neighbor {r r' : Relation V Q} (h : Extends r r') {t : Tid} {n : NeighborTuple Q}
    (hn : r.neighbor t = some n) : r'.neighbor t = some n :=
  Relation.neighbor_some.mpr (h t _ (Relation.neighbor_some.mp hn))

variable {r : Relation V Q}

omit [CDouble D] [Inhabited Q] in
theorem extends_append {r' r'' : Relation V Q} {x : IndexTuple V Q} {t : Tid} (h : Extends r r')
    (ha : Relation.Appended r' r'' x t) : Extends r r'' :=
  fun t' y hy => ha.item_of_item (h t' y hy)

omit [CDouble D] [Inhabited Q] in
theorem appendTuple_extends {x : IndexTuple V Q} {size : Nat} {note : Tid → Disk I V Q → Disk I V Q}
    (hnote : NotesOnly note) :
    (appendTuple x size note).Yields (fun s => Extends r s.relation) fun _ => True :=
  appendTuple_yields (fun ha h => extends_append h ha) size hnote

omit [CDouble D] [Inhabited Q] in
theorem appendConts_extends (lentries : List (InlineEntry Q)) (n1 contCap esz c : Nat) (next : Tid) :
    (appendConts lentries n1 contCap esz c next : Prog (Disk I V Q) Tid).Yields
      (fun s => Extends r s.relation) fun _ => True := by
  induction c generalizing next with
  | zero => trivial
  | succ c ih => exact (appendTuple_extends fun _ _ => rfl).bind fun t _ => ih t

omit [CDouble D] in
theorem announce_extends (i : I) (row : Row V) (p : MetaPage) (w : Wiring) :
    (announce oc i ins row p w : Prog (Disk I V Q) (Tid × ElementTuple V)).Yields
      (fun s => Extends r s.relation) fun _ => True := by
  have hneighbor : (writeNeighborTuple oc ins i p w.ntids : Prog (Disk I V Q) Tid).Yields
      (fun s => Extends r s.relation) fun _ => True := by
    unfold writeNeighborTuple
    split
    · refine .bind (Prog.Keeps.yields (.mapM (gatherEntry_keeps _) _) _) fun lentries _ => ?_
      refine (appendConts_extends _ _ _ _ _ _).bind fun next _ => ?_
      exact appendTuple_extends (noteNeighbor_notes i ins w.ntids)
    · exact appendTuple_extends (noteNeighbor_notes i ins w.ntids)
  refine hneighbor.bind fun n _ => .bind (appendTuple_extends fun _ _ => rfl) fun e _ => ?_
  refine .bind (Q := fun _ => True) (.lift fun s b s' hs hop => ?_) fun _ _ => trivial
  cases hop
  exact ⟨hs, trivial⟩

/-- **Up to step 7** an insert leaves every tuple as it was. -/
theorem prepareElement_extends (job : Job I V) :
    (prepareElement H oc natts fuel job).Yields (fun s => Extends r s.relation) fun _ => True := by
  unfold prepareElement
  split
  · trivial
  refine ((readMeta_keeps _).yields _).bind fun p _ => ?_
  split
  · trivial
  refine ((wire_keeps p).yields _).bind fun w _ => ?_
  exact (announce_extends _ _ _ _).bind fun _ _ => trivial

/-! ### Whom payload edges go to -/

/-- An element of the partition. -/
def MemberAt (r : Relation V Q) (part : Nat) (t : Tid) : Prop :=
  ∃ n, r.element t = some n ∧ payloadPartition n.filterVal = part

omit [CDouble D] [Inhabited Q] in
/-- The search for a payload half finds members. -/
theorem constructionWalk_finds (query : V) (mEff payloadM layer part : Nat) :
    (constructionWalk oc query mEff payloadM layer (some part) : Walk (Disk I V Q) Tid D).Finds
      (fun s => s.relation = r) (MemberAt r part) := by
  have hread : ∀ t, (nodeDistance oc query t : Prog (Disk I V Q) (D × Datum)).Yields
      (fun s => s.relation = r) fun x => isMember (some part) x.2 = true → MemberAt r part t := by
    intro t
    refine .read fun s x hs hx hmember => ?_
    obtain ⟨n, hn, rfl⟩ := Option.map_eq_some_iff.mp hx
    exact ⟨n, hs ▸ hn, of_decide_eq_true hmember⟩
  constructor
  · intro t
    exact (hread t).bind fun x hx => hx
  · intro t
    trivial
  · intro t
    refine (hread t).bind fun x hx d heq => hx ?_
    exact (Prod.mk.inj (Option.some.inj heq)).2
  · intro t
    exact ((neighborsAt_keeps mEff payloadM layer t).yields (· = r)).bind fun us _ => trivial

omit [Inhabited Q] in
/-- What is chosen was a candidate. -/
theorem chooseCands_yields (diversify : Bool) (cands : List (Tid × D)) (mMax : Nat) :
    (chooseCands oc diversify cands mMax : Prog (Disk I V Q) (List Tid)).Yields
      (fun s => s.relation = r) fun sel => ∀ t ∈ sel, ∃ c ∈ cands, c.1 = t := by
  have hall : ∀ sel : List (Tid × D), (∀ c ∈ sel, c ∈ cands) →
      ∀ t ∈ sel.map Prod.fst, ∃ c ∈ cands, c.1 = t := by
    intro sel hsel t ht
    obtain ⟨c, hc, rfl⟩ := List.mem_map.mp ht
    exact ⟨c, hsel c hc, rfl⟩
  unfold chooseCands
  dsimp only
  split
  · refine .bind (Q := fun sel => ∀ c ∈ sel, c ∈ cands) ?_ fun sel hsel => hall sel hsel
    unfold selectDiverseTids
    split
    · exact fun c hc => hc
    · refine .bind (Prog.Keeps.yields (.mapM (fun c : Tid × D => readElement_keeps c.1) _) (· = r))
        fun es _ c hc => ?_
      obtain ⟨x, hx, rfl⟩ := List.mem_map.mp hc
      exact (List.of_mem_zip ((diverse_subperm _).subset hx)).1
  · exact hall _ fun c hc => List.mem_of_mem_take hc

omit [CDouble D] [Inhabited Q] in
theorem le_length_putSlots {ntids : List Tid} {k : Nat} (h : k ≤ ntids.length) (start : Nat)
    (sel : List Tid) : k ≤ (putSlots ntids start sel).length := by
  simp only [putSlots, List.length_append, List.length_take, List.length_drop]
  omega

omit [CDouble D] [Inhabited Q] in
/-- The first slots of a range that was overwritten. -/
theorem take_drop_putSlots {ntids sel : List Tid} {start k : Nat} (h : start ≤ ntids.length)
    (hk : k ≤ sel.length) : ((putSlots ntids start sel).drop start).take k = sel.take k := by
  have hlen : (ntids.take start).length = start := by
    rw [List.length_take]
    omega
  rw [putSlots, List.append_assoc, List.drop_append_of_le_length hlen.ge,
    List.drop_eq_nil_of_le hlen.le, List.nil_append, List.take_append_of_le_length hk]

omit [CDouble D] [Inhabited Q] in
theorem prefix_backfill (globals : List Tid) (pHalf : Nat) (cands payload : List Tid) :
    payload <+: backfill globals pHalf cands payload := by
  induction cands generalizing payload with
  | nil => exact List.prefix_refl _
  | cons c cs ih =>
    rw [backfill]
    split
    · split
      · exact ih payload
      · exact (List.prefix_append payload [c]).trans (ih _)
    · exact List.prefix_refl _

/-- There is room for the slots of an element, and the payload edges are for members. -/
structure PayloadReady (r : Relation V Q) (ins : Inserting V) (w : Wiring) : Prop where
  room : ins.start 0 + ins.mEff ≤ w.ntids.length
  members : ∀ o ∈ payloadOffers ins w 0, MemberAt r ins.part o.target

omit [Inhabited Q] in
/-- **The payload half** starts with members, and only these are offered edges. -/
theorem wireHalves_ready {w : Wiring} (hroom : ins.start 0 + ins.mEff ≤ w.ntids.length)
    (cands : List (Tid × D)) :
    (wireHalves H oc fuel ins w cands : Prog (Disk I V Q) Wiring).Yields (fun s => s.relation = r)
      (PayloadReady r ins) := by
  unfold wireHalves
  refine .bind ((chooseCands_keeps _ _ _).yields (· = r)) fun globals _ => ?_
  refine .bind (beamSearch_yields (constructionWalk_finds _ _ _ _ _) _ _ _) fun pcands hpcands => ?_
  refine .bind (chooseCands_yields _ _ _) fun payload hpayload => ?_
  have hroom' := le_length_putSlots hroom (ins.start 0) globals
  refine ⟨le_length_putSlots hroom' _ _, fun o ho => ?_⟩
  rw [payloadOffers] at ho
  split at ho
  swap
  · cases ho
  obtain ⟨t, ht, rfl⟩ := List.mem_map.mp ho
  -- the offered slots are those of the partition
  have hprefix := prefix_backfill globals ins.payloadM (cands.map Prod.fst) payload
  have hslots := (mem_validTids.mp ht).1
  dsimp only at hslots
  rw [take_drop_putSlots hroom' ((Nat.min_le_left _ _).trans hprefix.length_le)] at hslots
  obtain ⟨more, hmore⟩ := hprefix
  rw [← hmore, List.take_append_of_le_length (Nat.min_le_left _ _)] at hslots
  obtain ⟨c, hc, rfl⟩ := hpayload t (List.mem_of_mem_take hslots)
  exact hpcands c (List.mem_of_mem_filter hc)

omit [Inhabited Q] in
theorem wireLayer_ready {w : Wiring} (hroom : ins.start 0 + ins.mEff ≤ w.ntids.length) (lc : Nat) :
    (wireLayer H oc fuel ins w lc : Prog (Disk I V Q) Wiring).Yields (fun s => s.relation = r)
      fun w' => ins.start 0 + ins.mEff ≤ w'.ntids.length ∧ (lc = 0 → PayloadReady r ins w') := by
  unfold wireLayer
  refine ((searchLayerConstruction_keeps _ _ _ _ _ _ _ _).yields (· = r)).bind fun cands _ => ?_
  dsimp only
  split
  · exact (wireHalves_ready hroom cands).bind fun w' hw' =>
      ⟨hw'.room, fun _ => ⟨hw'.room, hw'.members⟩⟩
  · rename_i hnot
    refine ((chooseCands_keeps _ _ _).yields (· = r)).bind fun sel _ => ?_
    have hroom' := le_length_putSlots hroom (ins.start lc) sel
    refine ⟨hroom', fun h0 => ⟨hroom', fun o ho => ?_⟩⟩
    rw [payloadOffers, if_neg fun hon => hnot ⟨h0, hon.2⟩] at ho
    cases ho

omit [Inhabited Q] in
theorem wireLayers_ready {w : Wiring} (hroom : ins.start 0 + ins.mEff ≤ w.ntids.length) (lc : Nat) :
    (wireLayers H oc fuel ins lc w : Prog (Disk I V Q) Wiring).Yields (fun s => s.relation = r)
      (PayloadReady r ins) := by
  induction lc generalizing w with
  | zero => exact (wireLayer_ready hroom 0).imp fun w' h => h.2 rfl
  | succ lc ih => exact (wireLayer_ready hroom (lc + 1)).bind fun w' h => ih h.1

omit [Inhabited Q] in
/-- **Payload edges are for members**, as the relation was when the searches read it. -/
theorem wire_ready {p : MetaPage} :
    (wire H oc fuel ins p : Prog (Disk I V Q) Wiring).Yields (fun s => s.relation = r) fun w =>
      p.hasEntry = true → ∀ o ∈ payloadOffers ins w 0, MemberAt r ins.part o.target := by
  have hroom : ins.start 0 + ins.mEff ≤
      (List.replicate (t2TotalSlots ins.level ins.mEff ins.payloadM) Tid.invalid).length := by
    have hend := layer_end_le (Nat.zero_le ins.level) ins.mEff ins.payloadM
    rw [t2LayerM_zero] at hend
    rw [List.length_replicate, Inserting.start, hnswNeighborStart_eq (Nat.zero_le _),
      Int.toNat_natCast]
    omega
  unfold wire
  dsimp only
  split
  · split
    · exact ((greedyDescendBuild_keeps _ _ _ _ _ _).yields (· = r)).bind fun ep _ =>
        (wireLayers_ready hroom _).imp fun w hw _ => hw.members
    · exact (wireLayers_ready hroom _).imp fun w hw _ => hw.members
  · rename_i hhas
    exact fun h => absurd h hhas

/-! ### What is offered -/

/-- What is known of an edge that is to be made: it is for the global half or an upper layer, or,
from a member, for the payload half. -/
structure EdgeOk (G : MetaPage) (r : Relation V Q) (k : Linking V Q) (lc : Nat) (o : Offer) : Prop where
  stride : k.ins.mEff = G.m
  new : ∃ elem, r.element k.e = some elem ∧ elem.vec = k.ins.value ∧
    payloadPartition elem.filterVal = k.ins.part
  target : ∃ n, r.element o.target = some n ∧ lc ≤ n.level
  range : (o.part = none ∧ o.rangeOff = 0 ∧ o.rangeLen = G.m) ∨
    (lc = 0 ∧ o.part = some k.ins.part ∧ o.rangeOff = G.m ∧ o.rangeLen = G.payloadWidth ∧
      MemberAt r k.ins.part o.target)

variable {G : MetaPage}

omit [CDouble D] [Inhabited Q] in
theorem EdgeOk.mono {r r' : Relation V Q} {k : Linking V Q} {lc : Nat} {o : Offer}
    (h : EdgeOk G r k lc o)
    (hmono : ∀ {t : Tid} {x : ElementTuple V}, r.element t = some x → r'.element t = some x) :
    EdgeOk G r' k lc o where
  stride := h.stride
  new := h.new.imp fun _ he => ⟨hmono he.1, he.2⟩
  target := h.target.imp fun _ hn => ⟨hmono hn.1, hn.2⟩
  range := h.range.imp_right fun ⟨h0, hpart, hoff, hlen, n, hn, hmember⟩ =>
    ⟨h0, hpart, hoff, hlen, n, hmono hn, hmember⟩

omit [CDouble D] [Inhabited Q] in
theorem mem_layerOffers {lc : Nat} {x : Nat × Offer} (h : x ∈ layerOffers ins w lc) :
    x.1 ≤ lc ∧ x.2 ∈ globalOffers ins w.ntids x.1 ++ payloadOffers ins w x.1 := by
  induction lc with
  | zero =>
    obtain ⟨o, ho, rfl⟩ := List.mem_map.mp h
    exact ⟨le_rfl, ho⟩
  | succ lc ih =>
    rcases List.mem_append.mp h with h | h
    · obtain ⟨o, ho, rfl⟩ := List.mem_map.mp h
      exact ⟨le_rfl, ho⟩
    · exact ⟨(ih h).1.trans (Nat.le_succ _), (ih h).2⟩

/-- **Steps 5 to 7** leave the new element with what it owes. -/
theorem announce_exec {i : I} {row : Row V} {p : MetaPage} {s s' : Disk I V Q} {elem : ElementTuple V}
    (hm : ins.mEff = G.m) (hp : ins.payloadM = G.payloadWidth)
    (hinline : p.inlineVectors = G.inlineVectors)
    (hoffers : p.hasEntry = true ↔ globalOffers ins w.ntids 0 ≠ []) (hs : Inv oc G False s)
    (hready : Ready i G p ins.level w.ntids s)
    (h : (announce oc i ins row p w).exec s = some ((e, elem), s')) :
    (elem.vec = ins.value ∧ elem.filterVal = row.filterVal) ∧
      Owing i e elem ((globalOffers ins w.ntids 0).map Offer.target) (topDebts ins p w) s' := by
  unfold announce at h
  rw [Prog.bind_eq, Prog.exec_bind] at h
  obtain ⟨⟨n, s₁⟩, hneighbor, h⟩ := Option.bind_eq_some_iff.mp h
  obtain ⟨hs₁, hpending⟩ := (writeNeighborTuple_ok (I := I) hm hp hinline s hs hready).exec hs hneighbor
  rw [Prog.bind_eq, Prog.exec_bind] at h
  obtain ⟨⟨e', s₂⟩, helement, h⟩ := Option.bind_eq_some_iff.mp h
  obtain ⟨hs₂, -, howing⟩ := (appendElement_ok (newElement ins.level row.filterVal row.heaptid n
    ins.value) hm hp hoffers rfl _ s₁ hs₁ hpending).exec hs₁ helement
  rw [Prog.bind_eq, Prog.exec_bind] at h
  obtain ⟨⟨⟨⟩, s₃⟩, hupdate, h⟩ := Option.bind_eq_some_iff.mp h
  obtain ⟨-, howing⟩ := (maybeUpdateEntry_ok s₂ hs₂ howing).exec hs₂ hupdate
  obtain ⟨heq, rfl⟩ := Prod.mk.inj (Option.some.inj h)
  obtain ⟨rfl, rfl⟩ := Prod.mk.inj heq
  exact ⟨⟨rfl, rfl⟩, howing⟩

/-- **What is offered** with payload edges on. -/
theorem prepareElement_edges {job : Job I V} {s s' : Disk I V Q} {k : Linking V Q}
    {es : List (Nat × Offer)} (hs : Inv oc G False s) (hidle : Idle job.backend s)
    (hm : mEff job.opts job.row.defaultGamma = G.m) (hpayload : optPayloadEdges job.opts = true)
    (hnatts : 1 < natts) (h : (prepareElement H oc natts fuel job).exec s = some ((k, es), s')) :
    ∀ x ∈ es, EdgeOk G s'.relation k x.1 x.2 := by
  unfold prepareElement at h
  split at h
  · cases h
  rw [Prog.bind_eq, Prog.exec_bind] at h
  obtain ⟨⟨p, s₁⟩, hmeta, h⟩ := Option.bind_eq_some_iff.mp h
  obtain ⟨hs₁, hG, hentry, hbegun⟩ := (readMeta_ok s hs hidle).exec hs hmeta
  dsimp only at h
  split at h
  · cases h
  have hon : (job.inserting natts p).payloadOn = true := by
    simp [Job.inserting, hpayload, hnatts]
  have hstride : (job.inserting natts p).mEff = G.m := hm
  have hwidth : (job.inserting natts p).payloadM = G.payloadWidth := hG.payloadWidth
  have hpart : (job.inserting natts p).part = payloadPartition job.row.filterVal := rfl
  generalize job.inserting natts p = ins at h hon hstride hwidth hpart
  rw [Prog.bind_eq, Prog.exec_bind] at h
  obtain ⟨⟨w, s₂⟩, hwire, h⟩ := Option.bind_eq_some_iff.mp h
  have hlocal : Local oc G False job.backend (Begun job.backend p) :=
    ⟨stable_begun p, fun _ _ h => ⟨h.read, h.entry, h.unborn⟩⟩
  obtain ⟨hs₂, hoffers, hwired, hbegun⟩ := (wire_ok hlocal H fuel hstride hwidth hs.sound.m_pos p s₁
    hs₁ ⟨hentry, hbegun⟩).exec hs₁ hwire
  have hkept : s₂.relation = s₁.relation := (wire_keeps p).exec hwire
  have hmembers := (Prog.Yields.exec (wire_ready (r := s₂.relation)) hkept.symm hwire).2
  rw [Prog.bind_eq, Prog.exec_bind] at h
  obtain ⟨⟨⟨e, elem⟩, s₃⟩, hannounce, h⟩ := Option.bind_eq_some_iff.mp h
  obtain ⟨⟨hvec, hfilter⟩, howing⟩ := announce_exec hstride hwidth hG.inlineVectors hoffers hs₂
    ⟨hwired, hbegun⟩ hannounce
  have hextends := ((announce_extends (r := s₂.relation) _ _ _ _).exec (fun _ _ h => h) hannounce).1
  obtain ⟨heq, rfl⟩ := Prod.mk.inj (Option.some.inj h)
  obtain ⟨rfl, rfl⟩ := Prod.mk.inj heq
  rintro ⟨lc, o⟩ hx
  dsimp only at hx hwired hmembers hextends howing ⊢
  split at hx
  swap
  · cases hx
  rename_i hhas
  obtain ⟨hle, ho⟩ := mem_layerOffers hx
  dsimp only at hle ho
  refine ⟨hstride, ⟨elem, howing.element, hvec, by rw [hfilter, hpart]⟩, ?_, ?_⟩
  · have hdebt : (o.target, lc) ∈ topDebts ins p w := by
      rw [topDebts, if_pos hhas]
      exact mem_debts.mpr ⟨lc, hle, List.mem_map.mpr ⟨o, ho, rfl⟩⟩
    exact (howing.unlinked _ hdebt).1
  · rcases List.mem_append.mp ho with ho | ho
    · obtain ⟨t, -, rfl⟩ := List.mem_map.mp ho
      refine .inl ⟨rfl, rfl, ?_⟩
      dsimp only
      split
      · exact hstride
      · rename_i hnot
        rw [t2LayerM_pos (Nat.pos_of_ne_zero fun h0 => hnot ⟨h0, hon⟩), hstride]
    · have hmem := ho
      rw [payloadOffers] at hmem
      split at hmem
      swap
      · cases hmem
      rename_i h0
      obtain ⟨rfl, -⟩ := h0
      obtain ⟨n, hn, hmember⟩ := hmembers hhas _ ho
      obtain ⟨t, -, rfl⟩ := List.mem_map.mp hmem
      exact .inr ⟨rfl, rfl, hstride, hwidth, n, Extends.element hextends hn, hmember⟩

end

end PgAcorn.Build
