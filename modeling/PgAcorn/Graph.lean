import PgAcorn.Relation
import Mathlib.Logic.Relation
import Mathlib.Data.Set.Finite.Lattice

/-! The graph an index stores, and what its readers rely on.

`layerNeighbors` is the graph layer by layer: the valid slots of an element's
range, as the geometry on the meta page delimits it. `WellFormed` says that
elements own neighbor tuples of the right size whose slots name elements of the
layer, and that the entry point exists; `InlineWellFormed` that the inline chunks
form finite chains and describe the elements they name. -/
namespace PgAcorn

/-- The slots of one layer in an element's slot array. -/
def layerSlots (globalM payloadM level layer : Nat) (tids : List Tid) : List Tid :=
  (tids.drop ((level - layer) * globalM)).take (t2LayerM layer globalM payloadM)

namespace Relation
variable {V Q : Type}

/-- The neighbors of an element on a layer. -/
def layerNeighbors (r : Relation V Q) (layer : Nat) (t : Tid) : List Tid :=
  match r.element t with
  | some e =>
    match r.neighbor e.neighbortid with
    | some n => validTids (layerSlots r.metaPage.m r.metaPage.payloadWidth e.level layer n.tids)
    | none => []
  | none => []

/-- No page holds an element. -/
def vacant (r : Relation V Q) : Bool :=
  r.pages.all fun p => p.items.all fun
    | .element _ => false
    | _ => true

theorem vacant_iff {r : Relation V Q} : r.vacant = true ↔ ∀ t, r.element t = none := by
  constructor
  · intro h t
    cases he : r.element t with
    | none => rfl
    | some e =>
      have hitem := element_some.mp he
      unfold item at hitem
      split at hitem
      · cases hitem
      obtain ⟨p, hp, hx⟩ := Option.bind_eq_some_iff.mp hitem
      rw [vacant, List.all_eq_true] at h
      have := List.all_eq_true.mp (h p (List.mem_of_getElem? hp)) _ (List.mem_of_getElem? hx)
      cases this
  · intro h
    rw [vacant, List.all_eq_true]
    refine fun p hp => List.all_eq_true.mpr fun x hx => ?_
    obtain ⟨b, hb, rfl⟩ := List.getElem_of_mem hp
    obtain ⟨o, ho, rfl⟩ := List.getElem_of_mem hx
    have hitem : r.item ⟨b + 1, o + 1⟩ = some (r.pages[b].items[o]) := by simp [item, hb, ho]
    split
    · rename_i e heq
      rw [heq] at hitem
      have := h ⟨b + 1, o + 1⟩
      rw [element_some.mpr hitem] at this
      cases this
    · rfl

/-- Along layer-0 slots, in any number of steps. -/
def Reachable (r : Relation V Q) : Tid → Tid → Prop :=
  Relation.ReflTransGen fun t u => u ∈ r.layerNeighbors 0 t

structure WellFormed (r : Relation V Q) : Prop where
  m_pos : 0 < r.metaPage.m
  width : t2L0Width r.metaPage.m r.metaPage.payloadWidth ≤ hnswMaxNeighbors
  /-- Every element owns a neighbor tuple with all its layers' slots. -/
  neighbors : ∀ {t : Tid} {e : ElementTuple V}, r.element t = some e →
    ∃ n, r.neighbor e.neighbortid = some n ∧
      n.count = t2TotalSlots e.level r.metaPage.m r.metaPage.payloadWidth
  /-- A slot names an element of the slot's layer. -/
  targets : ∀ {t u : Tid} {e : ElementTuple V} {layer : Nat}, r.element t = some e →
    layer ≤ e.level → u ∈ r.layerNeighbors layer t →
    ∃ e', r.element u = some e' ∧ layer ≤ e'.level
  entry : r.metaPage.hasEntry = true →
    ∃ e, r.element r.metaPage.entry = some e ∧ r.metaPage.entryLevel = e.level

theorem WellFormed.hnswMaxNeighbors_ge {r : Relation V Q} (h : r.WellFormed) (layer : Nat) :
    t2LayerM layer r.metaPage.m r.metaPage.payloadWidth ≤ hnswMaxNeighbors := by
  have := h.width
  unfold t2LayerM
  split
  · exact this
  · unfold t2L0Width at this
    omega

theorem layerNeighbors_eq {r : Relation V Q} {t : Tid} {e : ElementTuple V} {n : NeighborTuple Q}
    (he : r.element t = some e) (hn : r.neighbor e.neighbortid = some n) (layer : Nat) :
    r.layerNeighbors layer t =
      validTids (layerSlots r.metaPage.m r.metaPage.payloadWidth e.level layer n.tids) := by
  simp only [layerNeighbors, he, hn]

/-- Reading a layer's range of a complete slot array stays in bounds. -/
theorem slotRange_layer {tids : List Tid} {globalM payloadM level layer : Nat}
    (hcount : tids.length = t2TotalSlots level globalM payloadM) (h : layer ≤ level) :
    slotRange tids (hnswNeighborStart globalM level layer) (t2LayerM layer globalM payloadM) =
      some (layerSlots globalM payloadM level layer tids) := by
  rw [hnswNeighborStart_eq h]
  refine slotRange_eq ?_
  rw [hcount]
  exact layer_end_le h globalM payloadM

theorem length_layerSlots {tids : List Tid} {globalM payloadM level layer : Nat}
    (hcount : tids.length = t2TotalSlots level globalM payloadM) (h : layer ≤ level) :
    (layerSlots globalM payloadM level layer tids).length = t2LayerM layer globalM payloadM :=
  length_of_slotRange (slotRange_layer hcount h)

/-! ### Rewriting a slot -/

/-- A slot of a layer rewritten. -/
theorem layerSlots_set (tids : List Tid) (globalM payloadM level layer j : Nat) (t : Tid) :
    layerSlots globalM payloadM level layer (tids.set ((level - layer) * globalM + j) t) =
      (layerSlots globalM payloadM level layer tids).set j t := by
  unfold layerSlots
  rw [List.drop_set, if_neg (by omega), List.take_set]
  congr 1
  omega

/-- The other layers keep their slots. -/
theorem layerSlots_set_of_ne {tids : List Tid} {globalM payloadM level layer layer' j : Nat}
    (hl : layer ≤ level) (hl' : layer' ≤ level) (hne : layer' ≠ layer)
    (hj : j < t2LayerM layer globalM payloadM) (t : Tid) :
    layerSlots globalM payloadM level layer' (tids.set ((level - layer) * globalM + j) t) =
      layerSlots globalM payloadM level layer' tids := by
  unfold layerSlots
  rw [List.drop_set]
  split
  · rfl
  · rename_i hge
    rw [List.take_set, List.set_eq_of_length_le]
    rw [List.length_take]
    -- the slot lies behind the whole other layer
    obtain hlt | hlt := Nat.lt_or_gt_of_ne hne
    · have := layer_end_le_start hl hlt globalM payloadM
      omega
    · have := layer_end_le_start hl' hlt globalM payloadM
      omega

theorem mem_validTids_set {slots : List Tid} {j : Nat} {t u : Tid}
    (h : u ∈ validTids (slots.set j t)) : u ∈ validTids slots ∨ u = t := by
  obtain ⟨hu, hv⟩ := mem_validTids.mp h
  obtain hu | hu := List.mem_or_eq_of_mem_set hu
  · exact .inl (mem_validTids.mpr ⟨hu, hv⟩)
  · exact .inr hu

/-- A valid identifier that is not there yet may go to any slot. -/
theorem nodup_validTids_set {slots : List Tid} {t : Tid} (h : (validTids slots).Nodup)
    (ht : t ∉ validTids slots) (j : Nat) : (validTids (slots.set j t)).Nodup := by
  induction slots generalizing j with
  | nil => exact h
  | cons u slots ih =>
    unfold validTids at h ht ih ⊢
    rw [List.filter_cons] at h ht
    cases j with
    | zero =>
      rw [List.set_cons_zero, List.filter_cons]
      split at h
      · rw [if_pos ‹_›] at ht
        rw [List.mem_cons, not_or] at ht
        split
        · exact List.nodup_cons.mpr ⟨ht.2, (List.nodup_cons.mp h).2⟩
        · exact (List.nodup_cons.mp h).2
      · rw [if_neg ‹_›] at ht
        split
        · exact List.nodup_cons.mpr ⟨ht, h⟩
        · exact h
    | succ j =>
      rw [List.set_cons_succ, List.filter_cons]
      split at h
      · rw [if_pos ‹_›] at ht ⊢
        rw [List.mem_cons, not_or] at ht
        obtain ⟨hu, hn⟩ := List.nodup_cons.mp h
        refine List.nodup_cons.mpr ⟨fun hmem => ?_, ih hn ht.2 j⟩
        obtain hmem | rfl := mem_validTids_set hmem
        · exact hu hmem
        · exact ht.1 rfl
      · rw [if_neg ‹_›] at ht ⊢
        exact ih h ht j

/-- A written slot is read back. -/
theorem validTids_set_ne_nil {slots : List Tid} {j : Nat} {t : Tid} (hj : j < slots.length)
    (ht : t.isValid = true) : validTids (slots.set j t) ≠ [] :=
  List.ne_nil_of_mem (mem_validTids.mpr ⟨List.mem_set hj t, ht⟩)

/-- What a layer's neighbors depend on. -/
theorem layerNeighbors_congr {r r' : Relation V Q} {t : Tid} {e : ElementTuple V}
    (he : r.element t = some e) (he' : r'.element t = some e)
    (htids : (r'.neighbor e.neighbortid).map NeighborTuple.tids =
      (r.neighbor e.neighbortid).map NeighborTuple.tids)
    (hm : r'.metaPage.m = r.metaPage.m)
    (hp : r'.metaPage.payloadWidth = r.metaPage.payloadWidth) (layer : Nat) :
    r'.layerNeighbors layer t = r.layerNeighbors layer t := by
  unfold layerNeighbors
  rw [he, he', hm, hp]
  dsimp only
  revert htids
  cases r.neighbor e.neighbortid <;> cases r'.neighbor e.neighbortid <;> intro htids
  · rfl
  · cases htids
  · cases htids
  · dsimp only
    rw [Option.some.inj htids]

/-- An index has finitely many elements: their offsets and blocks are bounded. -/
theorem elements_finite (r : Relation V Q) : {t | ∃ e, r.element t = some e}.Finite := by
  have hpages : (⋃ i ∈ Finset.range r.pages.length,
      (Finset.range (r.pages[i]?.elim 0 fun p => p.items.length)).image (fun j : Nat =>
        (⟨i + 1, j + 1⟩ : Tid)) : Set Tid).Finite :=
    Set.Finite.biUnion (Finset.finite_toSet _) fun i _ => Finset.finite_toSet _
  refine hpages.subset fun t ⟨e, he⟩ => ?_
  obtain ⟨hvalid, hblk⟩ := isValid_of_item (element_some.mp he)
  have hoff : t.offno ≠ 0 := by simpa [Tid.isValid] using hvalid
  have hitem := element_some.mp he
  simp only [item, hblk, hoff, or_self, if_false] at hitem
  obtain ⟨p, hp, hx⟩ := Option.bind_eq_some_iff.mp hitem
  obtain ⟨hi, -⟩ := List.getElem?_eq_some_iff.mp hp
  obtain ⟨hj, -⟩ := List.getElem?_eq_some_iff.mp hx
  refine Set.mem_biUnion (x := t.blkno - 1) (by simpa using hi) ?_
  simp only [Finset.coe_image, Set.mem_image, Finset.mem_coe, Finset.mem_range]
  refine ⟨t.offno - 1, by simpa [hp] using hj, ?_⟩
  cases t
  simp_all
  omega

/-- What is reachable from an element is finite. -/
theorem WellFormed.reachable_finite {r : Relation V Q} (h : r.WellFormed) {base : Tid}
    {e : ElementTuple V} (he : r.element base = some e) : {t | r.Reachable base t}.Finite := by
  refine r.elements_finite.subset fun t ht => ?_
  induction ht with
  | refl => exact ⟨e, he⟩
  | tail _ hstep ih =>
    obtain ⟨e', he'⟩ := ih
    obtain ⟨e'', he'', -⟩ := h.targets he' (Nat.zero_le _) hstep
    exact ⟨e'', he''⟩

/-! ### Inline chunks -/

/-- The continuation chain from `t` ends after `k` tuples: with an invalid
identifier, or at a tuple that is no continuation. -/
inductive ChainEnds (r : Relation V Q) : Tid → Nat → Prop
  | last {t : Tid} (h : t.isValid = false) : ChainEnds r t 0
  | broken {t : Tid} {x : IndexTuple V Q} (h : r.item t = some x) (hx : ∀ c, x ≠ .cont c) :
      ChainEnds r t 0
  | cons {t : Tid} {c : InlineChunk Q} {k : Nat} (h : r.item t = some (.cont c))
      (hc : ChainEnds r c.next k) : ChainEnds r t (k + 1)

/-- The inline entries of an index, in neighbor tuples and continuations. -/
inductive HasEntry (r : Relation V Q) (entry : InlineEntry Q) : Prop
  | primary {t : Tid} {n : NeighborTuple Q} {c : InlineChunk Q} (hn : r.neighbor t = some n)
      (hc : n.inline? = some c) (he : entry ∈ c.entries)
  | cont {t : Tid} {c : InlineChunk Q} (hc : r.item t = some (.cont c)) (he : entry ∈ c.entries)

structure InlineWellFormed (r : Relation V Q) : Prop where
  chunk : ∀ {t : Tid} {e : ElementTuple V} {n : NeighborTuple Q}, r.element t = some e →
    r.neighbor e.neighbortid = some n → ∃ c, n.inline? = some c
  /-- The chains are finite, hence bounded in length. -/
  chains : ∃ bound, ∀ {t : Tid} {e : ElementTuple V} {n : NeighborTuple Q} {c : InlineChunk Q},
    r.element t = some e → r.neighbor e.neighbortid = some n → n.inline? = some c →
    ∃ k ≤ bound, ChainEnds r c.next k
  /-- A valid entry has the immutable fields of the element it names; it may
  miss a deletion. -/
  entries : ∀ {entry : InlineEntry Q} {e : ElementTuple V}, HasEntry r entry →
    entry.valid = true → r.element entry.indextid = some e →
    entry.nbrtid = e.neighbortid ∧ entry.level = e.level ∧ entry.filterVal = e.filterVal ∧
      (entry.deleted = true → e.deleted = true)

/-! ### Element by element -/

/-- The elements of a block, with their identifiers. -/
def pageElements (blkno : Nat) (p : Page (IndexTuple V Q)) : List (Tid × ElementTuple V) :=
  p.items.zipIdx.filterMap fun
    | (.element e, i) => some (⟨blkno, i + 1⟩, e)
    | _ => none

/-- The elements of an index, with their identifiers. -/
def elements (r : Relation V Q) : List (Tid × ElementTuple V) :=
  r.pages.zipIdx.flatMap fun x => pageElements (x.2 + 1) x.1

theorem mem_pageElements {blkno : Nat} {p : Page (IndexTuple V Q)} {t : Tid} {e : ElementTuple V} :
    (t, e) ∈ pageElements blkno p ↔
      ∃ i, p.items[i]? = some (.element e) ∧ t = ⟨blkno, i + 1⟩ := by
  constructor
  · intro h
    obtain ⟨⟨x, i⟩, hx, heq⟩ := List.mem_filterMap.mp h
    cases x with
    | element e' =>
      obtain ⟨rfl, rfl⟩ := Prod.mk.inj (Option.some.inj heq)
      exact ⟨i, List.mem_zipIdx_iff_getElem?.mp hx, rfl⟩
    | neighbor n => cases heq
    | cont c => cases heq
  · rintro ⟨i, hi, rfl⟩
    exact List.mem_filterMap.mpr ⟨(.element e, i), List.mem_zipIdx_iff_getElem?.mpr hi, rfl⟩

theorem mem_elements {r : Relation V Q} {t : Tid} {e : ElementTuple V} :
    (t, e) ∈ r.elements ↔ r.element t = some e := by
  rw [element_some, elements, List.mem_flatMap]
  constructor
  · rintro ⟨⟨p, b⟩, hp, he⟩
    obtain ⟨i, hi, rfl⟩ := mem_pageElements.mp he
    rw [item, if_neg (by simp)]
    exact Option.bind_eq_some_iff.mpr ⟨p, List.mem_zipIdx_iff_getElem?.mp hp, hi⟩
  · intro h
    obtain ⟨b, i⟩ := t
    rw [item] at h
    split at h
    · cases h
    · rename_i hne
      obtain ⟨p, hp, hi⟩ := Option.bind_eq_some_iff.mp h
      refine ⟨(p, b - 1), List.mem_zipIdx_iff_getElem?.mpr hp, mem_pageElements.mpr ⟨i - 1, hi, ?_⟩⟩
      dsimp only at hne
      rw [Tid.mk.injEq]
      omega

theorem forall_elements {r : Relation V Q} {P : Tid × ElementTuple V → Prop} :
    (∀ x ∈ r.elements, P x) ↔ ∀ {t : Tid} {e : ElementTuple V}, r.element t = some e → P (t, e) :=
  ⟨fun h _ _ he => h _ (mem_elements.mpr he), fun h _ hx => h (mem_elements.mp hx)⟩

/-- `WellFormed` of each element in turn. -/
theorem wellFormed_iff {r : Relation V Q} : r.WellFormed ↔
    0 < r.metaPage.m ∧ t2L0Width r.metaPage.m r.metaPage.payloadWidth ≤ hnswMaxNeighbors ∧
    (∀ x ∈ r.elements, (r.neighbor x.2.neighbortid).map NeighborTuple.count =
      some (t2TotalSlots x.2.level r.metaPage.m r.metaPage.payloadWidth)) ∧
    (∀ x ∈ r.elements, ∀ layer < x.2.level + 1, ∀ u ∈ r.layerNeighbors layer x.1,
      (r.element u).any (fun e => decide (layer ≤ e.level)) = true) ∧
    (r.metaPage.hasEntry = true →
      (r.element r.metaPage.entry).any (fun e => decide (r.metaPage.entryLevel = e.level)) = true) := by
  simp only [Option.any_eq_true, decide_eq_true_eq]
  constructor
  · intro h
    refine ⟨h.m_pos, h.width, forall_elements.mpr fun he => ?_, forall_elements.mpr fun he layer hl u hu =>
      h.targets he (Nat.le_of_lt_succ hl) hu, h.entry⟩
    obtain ⟨n, hn, hcount⟩ := h.neighbors he
    rw [hn, Option.map_some, hcount]
  · rintro ⟨hm, hwidth, hneighbors, htargets, hentry⟩
    exact ⟨hm, hwidth, fun he => Option.map_eq_some_iff.mp (forall_elements.mp hneighbors he),
      fun he hl hu => forall_elements.mp htargets he _ (Nat.lt_succ_of_le hl) _ hu, hentry⟩

instance (r : Relation V Q) : Decidable r.WellFormed := decidable_of_iff' _ wellFormed_iff

end Relation

end PgAcorn
