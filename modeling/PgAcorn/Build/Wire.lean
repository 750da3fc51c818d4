import PgAcorn.Build.Search

/-! The forward slots of a new element.

`Wired` is what the finished array owes: in every layer distinct elements of that
layer. It holds of the empty array and survives writing a layer, one half or both;
with an entry point, layer 0 ends with at least one edge to offer (`wire_ok`). -/
namespace PgAcorn.Build
open Library

section
variable {I V Q D : Type} [CDouble D] {oc : Opclass V Q D} {G : MetaPage} {connected : Prop} {i : I}

/-- The slots of every layer name distinct elements of the layer. -/
def Wired (G : MetaPage) (level : Nat) (ntids : List Tid) (s : Disk I V Q) : Prop :=
  (ntids.length = t2TotalSlots level G.m G.payloadWidth ∧ ∀ layer ≤ level,
    (validTids (layerSlots G.m G.payloadWidth level layer ntids)).Nodup) ∧
  ∀ layer u, layer ≤ level → u ∈ validTids (layerSlots G.m G.payloadWidth level layer ntids) →
    OnLayer layer u s

theorem local_wired (level : Nat) (ntids : List Tid) :
    Local oc G connected i (Wired G level ntids) :=
  (Local.const _).and (.all fun layer => .all fun u => .imp (.imp (local_onLayer layer u)))

/-- The layers below `lc` name nothing yet. -/
def EmptyBelow (G : MetaPage) (level lc : Nat) (ntids : List Tid) : Prop :=
  ∀ layer < lc, layer ≤ level →
    validTids (layerSlots G.m G.payloadWidth level layer ntids) = []

theorem isValid_of_onLayer {lc : Nat} {t : Tid} {s : Disk I V Q} (h : OnLayer lc t s) :
    t.isValid = true := by
  obtain ⟨e, he, -⟩ := h
  exact (Relation.isValid_of_item (Relation.element_some.mp he)).1

variable {level lc : Nat} {ntids : List Tid} {s : Disk I V Q}

theorem validTids_replicate (layer : Nat) : validTids (layerSlots G.m G.payloadWidth level layer
    (List.replicate (t2TotalSlots level G.m G.payloadWidth) Tid.invalid)) = [] := by
  have hnil : validTids (List.replicate (t2TotalSlots level G.m G.payloadWidth) Tid.invalid) = [] :=
    List.filter_eq_nil_iff.mpr fun t ht => by simp [List.eq_of_mem_replicate ht]
  exact validTids_sublist_nil hnil ((List.take_sublist _ _).trans (List.drop_sublist _ _))

/-- A new array names nothing. -/
theorem wired_replicate (s : Disk I V Q) :
    Wired G level (List.replicate (t2TotalSlots level G.m G.payloadWidth) Tid.invalid) s := by
  refine ⟨⟨List.length_replicate, fun layer _ => ?_⟩, fun layer u _ hu => ?_⟩
  · rw [validTids_replicate]
    exact List.nodup_nil
  · rw [validTids_replicate] at hu
    cases hu

/-- A layer rewritten; the others are as they were. -/
theorem Wired.rewrite {ntids' : List Tid} {sel : List Tid} (h : Wired G level ntids s)
    (hlen : ntids'.length = ntids.length)
    (hlc : validTids (layerSlots G.m G.payloadWidth level lc ntids') = sel)
    (hother : ∀ layer ≤ level, layer ≠ lc → layerSlots G.m G.payloadWidth level layer ntids' =
      layerSlots G.m G.payloadWidth level layer ntids)
    (hnodup : sel.Nodup) (htargets : ∀ u ∈ sel, OnLayer lc u s) : Wired G level ntids' s := by
  refine ⟨⟨hlen.trans h.1.1, fun layer hl => ?_⟩, fun layer u hl hu => ?_⟩
  · by_cases heq : layer = lc
    · rw [heq, hlc]
      exact hnodup
    · rw [hother layer hl heq]
      exact h.1.2 layer hl
  · by_cases heq : layer = lc
    · rw [heq] at hu ⊢
      rw [hlc] at hu
      exact htargets u hu
    · rw [hother layer hl heq] at hu
      exact h.2 layer u hl hu

theorem EmptyBelow.rewrite {ntids' : List Tid} (h : EmptyBelow G level (lc + 1) ntids)
    (hother : ∀ layer ≤ level, layer ≠ lc → layerSlots G.m G.payloadWidth level layer ntids' =
      layerSlots G.m G.payloadWidth level layer ntids) : EmptyBelow G level lc ntids' := by
  intro layer hlt hl
  rw [hother layer hl (by omega)]
  exact h layer (by omega) hl

/-! ### One layer -/

variable {ins : Inserting V}

theorem Inserting.start_eq (hm : ins.mEff = G.m) (hl : lc ≤ ins.level) :
    ins.start lc = (ins.level - lc) * G.m := by
  unfold Inserting.start
  rw [hnswNeighborStart_eq hl, Int.toNat_natCast, hm]

/-- What a wired layer leaves for the next one. -/
def LayerWired (G : MetaPage) (ins : Inserting V) (lc : Nat) (w : Wiring) (s : Disk I V Q) : Prop :=
  (EmptyBelow G ins.level lc w.ntids ∧ (lc = 0 → globalOffers ins w.ntids 0 ≠ [])) ∧
    Wired G ins.level w.ntids s

theorem local_layerWired (lc : Nat) (w : Wiring) :
    Local oc G connected i (LayerWired G ins lc w) :=
  (Local.const _).and (local_wired _ _)

/-- A whole layer goes to the chosen candidates. -/
theorem layerWired_whole (hm : ins.mEff = G.m) (hp : ins.payloadM = G.payloadWidth) {w : Wiring}
    {sel : List Tid} (h : Wired G ins.level w.ntids s)
    (hbelow : EmptyBelow G ins.level (lc + 1) w.ntids) (hl : lc ≤ ins.level)
    (hoff : ¬(lc = 0 ∧ ins.payloadOn = true)) (hlen : sel.length ≤ t2LayerM lc G.m G.payloadWidth)
    (hne : sel ≠ []) (hnodup : sel.Nodup) (htargets : ∀ u ∈ sel, OnLayer lc u s) (ep : Tid) :
    LayerWired G ins lc ⟨putSlots w.ntids (ins.start lc) sel, w.payloadReal, ep⟩ s := by
  have hcount := h.1.1
  have hvalid : validTids sel = sel :=
    validTids_eq_self fun t ht => isValid_of_onLayer (htargets t ht)
  have hstart := Inserting.start_eq hm hl
  have hlc : validTids (layerSlots G.m G.payloadWidth ins.level lc
      (putSlots w.ntids ((ins.level - lc) * G.m + 0) sel)) = sel := by
    rw [layerSlots_putSlots hcount hl (by omega), validTids_put (hbelow lc (by omega) hl), hvalid]
  have hother : ∀ layer ≤ ins.level, layer ≠ lc → layerSlots G.m G.payloadWidth ins.level layer
      (putSlots w.ntids ((ins.level - lc) * G.m + 0) sel) =
        layerSlots G.m G.payloadWidth ins.level layer w.ntids := fun layer hl' hne =>
    layerSlots_putSlots_of_ne hcount hl hl' hne (by omega)
  have hend := layer_end_le hl G.m G.payloadWidth
  rw [hstart]
  refine ⟨⟨hbelow.rewrite hother, fun h0 hnil => ?_⟩,
    h.rewrite (length_putSlots (by omega)) hlc hother hnodup htargets⟩
  subst h0
  rw [globalOffers, if_neg hoff, List.map_eq_nil_iff, Inserting.start_eq hm hl, hm, hp] at hnil
  exact hne (hlc.symm.trans hnil)

/-- The two halves of layer 0. -/
theorem layerWired_halves (hm : ins.mEff = G.m) (hp : ins.payloadM = G.payloadWidth) {w : Wiring}
    {globals filled : List Tid} (h : Wired G ins.level w.ntids s)
    (hbelow : EmptyBelow G ins.level 1 w.ntids) (hon : ins.payloadOn = true)
    (hlen : globals.length ≤ G.m) (hlen' : filled.length ≤ G.payloadWidth) (hne : globals ≠ [])
    (hnodup : (globals ++ filled).Nodup) (htargets : ∀ u ∈ globals ++ filled, OnLayer 0 u s)
    (real : Nat) (ep : Tid) :
    LayerWired G ins 0 ⟨putSlots (putSlots w.ntids (ins.start 0) globals) (ins.start 0 + ins.mEff)
      filled, real, ep⟩ s := by
  have hcount := h.1.1
  have hl : 0 ≤ ins.level := Nat.zero_le _
  have hwidth : t2LayerM 0 G.m G.payloadWidth = G.m + G.payloadWidth := t2LayerM_zero _ _
  have hend := layer_end_le hl G.m G.payloadWidth
  have hcount' : (putSlots w.ntids ((ins.level - 0) * G.m + 0) globals).length =
      t2TotalSlots ins.level G.m G.payloadWidth := (length_putSlots (by omega)).trans hcount
  have hlayer : layerSlots G.m G.payloadWidth ins.level 0 (putSlots
      (putSlots w.ntids ((ins.level - 0) * G.m + 0) globals) ((ins.level - 0) * G.m + G.m) filled) =
      putSlots (putSlots (layerSlots G.m G.payloadWidth ins.level 0 w.ntids) 0 globals) G.m filled := by
    rw [layerSlots_putSlots hcount' hl (by omega), layerSlots_putSlots hcount hl (by omega)]
  have hslots := Relation.length_layerSlots hcount hl
  have hvalid : validTids (globals ++ filled) = globals ++ filled :=
    validTids_eq_self fun t ht => isValid_of_onLayer (htargets t ht)
  have hlc : validTids (layerSlots G.m G.payloadWidth ins.level 0 (putSlots
      (putSlots w.ntids ((ins.level - 0) * G.m + 0) globals) ((ins.level - 0) * G.m + G.m) filled)) =
      globals ++ filled := by
    rw [hlayer, validTids_put_put (hbelow 0 (by omega) hl) hlen (by omega), ← hvalid]
    simp only [validTids, List.filter_append]
  have hother : ∀ layer ≤ ins.level, layer ≠ 0 → layerSlots G.m G.payloadWidth ins.level layer
      (putSlots (putSlots w.ntids ((ins.level - 0) * G.m + 0) globals) ((ins.level - 0) * G.m + G.m)
        filled) = layerSlots G.m G.payloadWidth ins.level layer w.ntids := fun layer hl' hne => by
    rw [layerSlots_putSlots_of_ne hcount' hl hl' hne (by omega),
      layerSlots_putSlots_of_ne hcount hl hl' hne (by omega)]
  have hlength : (putSlots (putSlots w.ntids ((ins.level - 0) * G.m + 0) globals)
      ((ins.level - 0) * G.m + G.m) filled).length = w.ntids.length := by
    rw [length_putSlots (by omega), hcount', hcount]
  rw [Inserting.start_eq hm hl, hm]
  refine ⟨⟨fun layer hlt => by omega, fun _ hnil => ?_⟩,
    h.rewrite hlength hlc hother hnodup htargets⟩
  -- the first global slot is offered
  rw [globalOffers, if_pos ⟨rfl, hon⟩, List.map_eq_nil_iff, Inserting.start_eq hm hl, hm] at hnil
  obtain ⟨u, us, rfl⟩ := List.exists_cons_of_ne_nil hne
  have hget : (putSlots (putSlots w.ntids ((ins.level - 0) * G.m + 0) (u :: us))
      ((ins.level - 0) * G.m + G.m) filled)[(ins.level - 0) * G.m + 0]? = some u := by
    have hpos : 0 < (u :: us).length := Nat.succ_pos _
    rw [getElem?_putSlots (by omega), if_neg (by omega), getElem?_putSlots (by omega),
      if_pos (by omega), Nat.sub_self]
    rfl
  have hmem : u ∈ ((putSlots (putSlots w.ntids ((ins.level - 0) * G.m + 0) (u :: us))
      ((ins.level - 0) * G.m + G.m) filled).drop ((ins.level - 0) * G.m)).take G.m := by
    have hpos : 0 < (u :: us).length := Nat.succ_pos _
    have hfirst : (((putSlots (putSlots w.ntids ((ins.level - 0) * G.m + 0) (u :: us))
        ((ins.level - 0) * G.m + G.m) filled).drop ((ins.level - 0) * G.m)).take G.m)[0]? =
        some u := by
      rw [List.getElem?_take_of_lt (by omega), List.getElem?_drop, hget]
    exact List.mem_of_getElem? hfirst
  have hvalid' := isValid_of_onLayer (htargets u (by simp))
  exact List.ne_nil_of_mem (mem_validTids.mpr ⟨hmem, hvalid'⟩) hnil

/-! ### The searches of one layer -/

section
variable {F : Disk I V Q → Prop} (hF : Local oc G connected i F) (H : PairingHeap)
  (fuel : Nat) (hm : ins.mEff = G.m) (hp : ins.payloadM = G.payloadWidth)
  (hpos : 0 < G.m)
include hF hm hp hpos

omit hm hp hpos in
/-- What an insert knows between the searches of a layer. -/
theorem local_candidates (w : Wiring) (lc : Nat) (cands : List (Tid × D)) :
    Local oc G connected i fun s => (∀ c ∈ cands, OnLayer lc c.1 s) ∧
      Node lc (fun s => Wired G ins.level w.ntids s ∧ F s) w.ep s :=
  (Local.all fun c : Tid × D => .imp (local_onLayer lc c.1)).and
    ((local_onLayer lc w.ep).and ((local_wired _ _).and hF))

omit [CDouble D] hF hm hp hpos in
/-- Chosen candidates are distinct, there is room for them, and there is one. -/
theorem chosen_spec {cands : List (Tid × D)} {sel : List Tid} {mMax : Nat} (hmax : 0 < mMax)
    (hnodup : (cands.map Prod.fst).Nodup) (hne : cands ≠ [])
    (hsub : sel.Subperm (cands.map Prod.fst)) (hlen : sel.length = min mMax cands.length) :
    sel.Nodup ∧ sel.length ≤ mMax ∧ sel ≠ [] := by
  have hcands := List.length_pos_of_ne_nil hne
  refine ⟨nodup_of_subperm hsub hnodup, by omega, fun hnil => ?_⟩
  rw [hnil, List.length_nil] at hlen
  omega

/-- **Both halves** are chosen from the layer, together without repetition. -/
theorem wireHalves_ok (w : Wiring) (cands : List (Tid × D)) (hon : ins.payloadOn = true)
    (hbelow : EmptyBelow G ins.level 1 w.ntids) (hnodup : (cands.map Prod.fst).Nodup)
    (hne : cands ≠ []) :
    Triple (discipline I oc G connected) i
      (fun s => (∀ c ∈ cands, OnLayer 0 c.1 s) ∧
        Node 0 (fun s => Wired G ins.level w.ntids s ∧ F s) w.ep s)
      (wireHalves H oc fuel ins w cands)
      fun w' s => w'.ep = w.ep ∧ (∀ ep, LayerWired G ins 0 { w' with ep := ep } s) ∧
        (∀ c ∈ cands, OnLayer 0 c.1 s) ∧ OnLayer 0 w.ep s ∧ F s := by
  have hcands : Local oc G connected i fun s => (∀ c ∈ cands, OnLayer 0 c.1 s) ∧
      Wired G ins.level w.ntids s ∧ F s :=
    (Local.all fun c : Tid × D => .imp (local_onLayer 0 c.1)).and ((local_wired _ _).and hF)
  unfold wireHalves
  rw [hm, hp]
  refine .bind (chooseCands_ok (local_candidates hF w 0 cands) ins.diversify cands G.m
    fun s h => h.1) fun globals => .assume fun ⟨hsub, hlen⟩ => ?_
  have hsearch := searchLayerConstruction_ok hcands ins.value H fuel 0 ins.efc (ins.efc * 8)
    (some ins.part) w.ep
  refine .bind (hsearch.weaken fun s _ h => ⟨h.2.1, h.1, h.2.2⟩) fun pcands =>
    .assume fun ⟨hpnodup, _⟩ => ?_
  have hpcands : Local oc G connected i fun s => (∀ c ∈ pcands, OnLayer 0 c.1 s) ∧
      Node 0 (fun s => (∀ c ∈ cands, OnLayer 0 c.1 s) ∧ Wired G ins.level w.ntids s ∧ F s) w.ep s :=
    (Local.all fun c : Tid × D => .imp (local_onLayer 0 c.1)).and ((local_onLayer 0 w.ep).and hcands)
  refine .bind (chooseCands_ok hpcands ins.diversify (pcands.filter fun c => c.1 ∉ globals)
    G.payloadWidth fun s h c hc => h.1 c (List.mem_of_mem_filter hc)) fun payload =>
    .assume fun ⟨hpsub, hplen⟩ => ?_
  obtain ⟨hgnodup, hglen, hgne⟩ := chosen_spec hpos hnodup hne hsub hlen
  have hpayload : ∀ u ∈ payload, u ∉ globals ∧ ∃ c ∈ pcands, c.1 = u := by
    intro u hu
    obtain ⟨c, hc, rfl⟩ := List.mem_map.mp (hpsub.subset hu)
    obtain ⟨hc, hnot⟩ := List.mem_filter.mp hc
    exact ⟨of_decide_eq_true hnot, c, hc, rfl⟩
  have hboth : (globals ++ payload).Nodup := by
    refine List.nodup_append.mpr ⟨hgnodup, nodup_of_subperm hpsub ?_, ?_⟩
    · exact hpnodup.sublist (List.filter_sublist.map Prod.fst)
    · rintro u hu _ hu' rfl
      exact (hpayload u hu').1 hu
  obtain ⟨hfnodup, hflen, hfmem⟩ := backfill_spec (cands.map Prod.fst) payload hboth
    (hplen.trans_le (Nat.min_le_left _ _))
  apply Triple.pure
  · exact (Stable.const _).and (.and (.all fun ep => (local_layerWired 0 _).stable)
      (.and (.all fun c : Tid × D => .imp (stable_onLayer 0 c.1)) ((stable_onLayer 0 w.ep).and hF.stable)))
  · rintro s hs ⟨hponLayer, hep, hcOn, hwired, hFs⟩
    refine ⟨rfl, fun ep => ?_, hcOn, hep, hFs⟩
    have htargets : ∀ u ∈ globals ++ backfill globals G.payloadWidth (cands.map Prod.fst) payload,
        OnLayer 0 u s := by
      intro u hu
      have hfrom : u ∈ payload ∨ u ∈ cands.map Prod.fst :=
        (List.mem_append.mp hu).elim (fun hu => .inr (hsub.subset hu)) (hfmem u)
      obtain hu | hu := hfrom
      · obtain ⟨-, c, hc, rfl⟩ := hpayload u hu
        exact hponLayer c hc
      · obtain ⟨c, hc, rfl⟩ := List.mem_map.mp hu
        exact hcOn c hc
    have hhalves := layerWired_halves hm hp hwired hbelow hon hglen hflen hgne hfnodup htargets
      payload.length ep
    rwa [hm] at hhalves

/-- **One layer**: its slots name distinct elements of it, and the next search
starts from one of its elements. -/
theorem wireLayer_ok (w : Wiring) (lc : Nat) (hl : lc ≤ ins.level)
    (hbelow : EmptyBelow G ins.level (lc + 1) w.ntids) :
    Triple (discipline I oc G connected) i
      (Node lc (fun s => Wired G ins.level w.ntids s ∧ F s) w.ep)
      (wireLayer H oc fuel ins w lc)
      fun w' s => LayerWired G ins lc w' s ∧ Node lc F w'.ep s := by
  have hwired : Local oc G connected i fun s => Wired G ins.level w.ntids s ∧ F s :=
    (local_wired _ _).and hF
  unfold wireLayer
  rw [hm, hp]
  refine .bind (searchLayerConstruction_ok hwired ins.value H fuel lc ins.efc 0 none w.ep)
    fun cands => .assume fun ⟨hnodup, hne⟩ => ?_
  have hne := hne rfl
  have hdone : ∀ w' : Wiring, Stable (discipline I oc G connected) i fun s =>
      LayerWired G ins lc w' s ∧ Node lc F w'.ep s := fun w' =>
    (local_layerWired lc w').stable.and (stable_node hF lc w'.ep)
  -- the nearest candidate is where the next search starts
  have hnext : ∀ {s : Disk I V Q} {ep : Tid}, (∀ c ∈ cands, OnLayer lc c.1 s) →
      OnLayer lc ((cands.head?.map Prod.fst).getD ep) s := by
    intro s ep hcands
    obtain ⟨c, cs, rfl⟩ := List.exists_cons_of_ne_nil hne
    exact hcands c (by simp)
  by_cases hon : lc = 0 ∧ ins.payloadOn = true
  · obtain ⟨rfl, hon⟩ := hon
    rw [if_pos ⟨rfl, hon⟩]
    refine .bind (wireHalves_ok hF H fuel hm hp hpos w cands hon hbelow hnodup hne) fun w' =>
      .pure (hdone _) ?_
    rintro s hs ⟨-, hlayer, hcands, -, hFs⟩
    exact ⟨hlayer _, hnext hcands, hFs⟩
  · rw [if_neg hon]
    refine .bind (chooseCands_ok (local_candidates hF w lc cands) ins.diversify cands
      (t2LayerM lc G.m G.payloadWidth) fun s h c hc => (h.1 c hc).zero) fun sel =>
      .assume fun ⟨hsub, hlen⟩ => .pure (hdone _) ?_
    rintro s hs ⟨hcands, -, hw, hFs⟩
    have hwidth : 0 < t2LayerM lc G.m G.payloadWidth := by
      unfold t2LayerM t2L0Width
      split <;> omega
    obtain ⟨hselNodup, hselLen, hselNe⟩ := chosen_spec hwidth hnodup hne hsub hlen
    refine ⟨layerWired_whole hm hp hw hbelow hl hon hselLen hselNe hselNodup (fun u hu => ?_) _,
      hnext hcands, hFs⟩
    obtain ⟨c, hc, rfl⟩ := List.mem_map.mp (hsub.subset hu)
    exact hcands c hc

/-- **All layers**, from the highest shared one down. -/
theorem wireLayers_ok (lc : Nat) (w : Wiring) (hl : lc ≤ ins.level)
    (hbelow : EmptyBelow G ins.level (lc + 1) w.ntids) :
    Triple (discipline I oc G connected) i
      (Node lc (fun s => Wired G ins.level w.ntids s ∧ F s) w.ep)
      (wireLayers H oc fuel ins lc w)
      fun w' s => globalOffers ins w'.ntids 0 ≠ [] ∧ Wired G ins.level w'.ntids s ∧ F s := by
  induction lc generalizing w with
  | zero =>
    exact (wireLayer_ok hF H fuel hm hp hpos w 0 hl hbelow).consequence
      fun w' s h => ⟨h.1.1.2 rfl, h.1.2, h.2.2⟩
  | succ lc ih =>
    refine .bind (wireLayer_ok hF H fuel hm hp hpos w (lc + 1) hl hbelow) fun w' => ?_
    have hassoc : ∀ s, LayerWired G ins (lc + 1) w' s ∧ Node (lc + 1) F w'.ep s ↔
        EmptyBelow G ins.level (lc + 1) w'.ntids ∧
          Wired G ins.level w'.ntids s ∧ Node (lc + 1) F w'.ep s := fun s =>
      ⟨fun h => ⟨h.1.1.1, h.1.2, h.2⟩, fun h => ⟨⟨⟨h.1, fun h0 => by omega⟩, h.2.1⟩, h.2.2⟩⟩
    simp only [hassoc]
    refine .assume fun hempty => (ih w' (by omega) hempty).weaken fun s _ h => ?_
    exact ⟨h.2.1.imp fun _ he => ⟨he.1, by omega⟩, h.1, h.2.2⟩

/-- **The forward slots.** Without an entry point they are empty, with one layer 0
names an element to offer an edge to. -/
theorem wire_ok (p : MetaPage) :
    Triple (discipline I oc G connected) i
      (fun s => (p.hasEntry = true → OnLayer p.entryLevel.toNat p.entry s) ∧ F s)
      (wire H oc fuel ins p)
      fun w s => (p.hasEntry = true ↔ globalOffers ins w.ntids 0 ≠ []) ∧
        Wired G ins.level w.ntids s ∧ F s := by
  unfold wire
  rw [hm, hp]
  cases hhas : p.hasEntry with
  | false =>
    refine .pure ((Stable.const _).and ((local_wired _ _).stable.and hF.stable)) fun s _ h =>
      ⟨⟨fun h => absurd h Bool.false_ne_true, fun hne => absurd ?_ hne⟩, wired_replicate s, h.2⟩
    -- no slot names anything
    refine List.map_eq_nil_iff.mpr (List.filter_eq_nil_iff.mpr fun t ht => ?_)
    rw [List.eq_of_mem_replicate (List.mem_of_mem_drop (List.mem_of_mem_take ht))]
    simp
  | true =>
    have hnil : EmptyBelow G ins.level (min p.entryLevel.toNat ins.level + 1)
        (List.replicate (t2TotalSlots ins.level G.m G.payloadWidth) Tid.invalid) :=
      fun layer _ _ => validTids_replicate layer
    have hlayers : ∀ ep, Triple (discipline I oc G connected) i
        (Node (min p.entryLevel.toNat ins.level) F ep)
        (wireLayers H oc fuel ins (min p.entryLevel.toNat ins.level)
          ⟨List.replicate (t2TotalSlots ins.level G.m G.payloadWidth) Tid.invalid, 0, ep⟩)
        fun w s => (p.hasEntry = true ↔ globalOffers ins w.ntids 0 ≠ []) ∧
          Wired G ins.level w.ntids s ∧ F s := fun ep =>
      ((wireLayers_ok hF H fuel hm hp hpos _ _ (Nat.min_le_right _ _) hnil).weaken
        fun s _ h => ⟨h.1, wired_replicate s, h.2⟩).consequence
        fun w s h => ⟨⟨fun _ => h.1, fun _ => hhas⟩, h.2⟩
    rw [hhas] at hlayers
    rw [if_pos rfl]
    by_cases habove : p.entryLevel > ins.level
    · rw [if_pos habove]
      have hle : ins.level ≤ p.entryLevel.toNat := by omega
      refine .bind ((greedyDescendBuild_ok hF ins.value fuel p.entryLevel.toNat ins.level
        p.entry hle).weaken fun s _ h => ⟨h.1 rfl, h.2⟩) fun ep => ?_
      have hlayer := hlayers ep
      rw [Nat.min_eq_right hle] at hlayer ⊢
      exact hlayer
    · rw [if_neg habove]
      refine (hlayers p.entry).weaken fun s _ h => ⟨(h.1 rfl).imp fun _ he => ⟨he.1, ?_⟩, h.2⟩
      exact (Nat.min_le_left _ _).trans he.2

end

end

end PgAcorn.Build
