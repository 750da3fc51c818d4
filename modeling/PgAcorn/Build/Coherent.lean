import PgAcorn.Build.InlineChain
import PgAcorn.Build.Reads
import PgAcorn.Build.Rows
import PgAcorn.Build.Sweeping
import PgAcorn.Library.Regime

/-! Inline entries under concurrency.

An inline entry repeats what the element it names held when the entry was written, on another
page and under another lock than the slot it belongs to. It is right all the same: whatever an
element is read for never changes, but for a mark that is only ever set. `Coherent` says so of
every entry of an index, with what scans need of the chains of chunks. No page access of an
insert or a vacuum breaks it, in any interleaving (`coherent_of_runs`), so that scans of the
index as it is at any instant are right in any mode. -/
namespace PgAcorn.Build
open Library
open PgAcorn.Vacuum (sweepElement sweepTuple)

section
variable {I V Q D : Type}

/-! ### What stays of a tuple -/

/-- An element stays but for its mark, which it does not lose, and a chunk's continuation stays
one. -/
def Stands (r : Relation V Q) (t : Tid) : IndexTuple V Q → Prop
  | .element e => ∃ e', r.element t = some e' ∧ e'.unmarked = e.unmarked ∧
      (e.deleted = true → e'.deleted = true)
  | .cont _ => ∃ c, r.item t = some (.cont c)
  | .neighbor _ => True

/-- Every tuple stands. -/
def Outlives (r r' : Relation V Q) : Prop := ∀ t x, r.item t = some x → Stands r' t x

theorem Outlives.refl (r : Relation V Q) : Outlives r r := by
  intro t x hx
  cases x with
  | element e => exact ⟨e, Relation.element_some.mpr hx, rfl, id⟩
  | neighbor n => trivial
  | cont c => exact ⟨c, hx⟩

theorem Stands.later {r r' : Relation V Q} {t : Tid} {x : IndexTuple V Q} (hlater : Outlives r r')
    (h : Stands r t x) : Stands r' t x := by
  cases x with
  | element e =>
    obtain ⟨e', he', hsame, hd⟩ := h
    obtain ⟨e'', he'', hsame', hd'⟩ := hlater t _ (Relation.element_some.mp he')
    exact ⟨e'', he'', hsame'.trans hsame, hd' ∘ hd⟩
  | neighbor n => trivial
  | cont c =>
    obtain ⟨c', hc'⟩ := h
    obtain ⟨c'', hc''⟩ := hlater t _ hc'
    exact ⟨c'', hc''⟩

theorem Outlives.trans {r r' r'' : Relation V Q} (h : Outlives r r') (h' : Outlives r' r'') :
    Outlives r r'' := fun t x hx => (h t x hx).later h'

theorem Outlives.of_items {r r' : Relation V Q}
    (h : ∀ t x, r.item t = some x → r'.item t = some x) : Outlives r r' :=
  fun t x hx => Outlives.refl r' t x (h t x hx)

/-- A tuple rewritten in place. -/
theorem Outlives.update {f : IndexTuple V Q → IndexTuple V Q} (hf : KeepsKind f) (r : Relation V Q)
    (t : Tid) : Outlives r (r.update t f) := by
  have hshape := hf.sameShape r t
  intro u x hx
  cases x with
  | element e =>
    exact ⟨e, (hshape.element u).trans (Relation.element_some.mpr hx), rfl, id⟩
  | neighbor n => trivial
  | cont c => exact hshape.cont hx

/-! ### Entries and chains -/

/-- The entry repeats the element it names. -/
def Describes (oc : Opclass V Q D) (dims : Nat) (entry : InlineEntry Q) (r : Relation V Q) : Prop :=
  ∃ e, r.element entry.indextid = some e ∧ entry.heaptid = e.heaptid ∧
    entry.nbrtid = e.neighbortid ∧ entry.level = e.level ∧ entry.filterVal = e.filterVal ∧
    entry.code = oc.sq8Encode dims e.vec ∧ (entry.deleted = true → e.deleted = true)

variable {oc : Opclass V Q D} {dims : Nat} {r r' : Relation V Q} {entry : InlineEntry Q}

theorem Describes.later (hlater : Outlives r r') (h : Describes oc dims entry r) :
    Describes oc dims entry r' := by
  obtain ⟨e, he, hheap, hnbr, hlevel, hfilter, hcode, hd⟩ := h
  obtain ⟨e', he', hsame, hd'⟩ := hlater _ _ (Relation.element_some.mp he)
  obtain ⟨hlevel', hheap', hnbr', hfilter', hvec'⟩ := ElementTuple.fields_of_unmarked hsame
  refine ⟨e', he', ?_, ?_, ?_, ?_, ?_, hd' ∘ hd⟩
  · rw [hheap, ElementTuple.heaptid, ElementTuple.heaptid, hheap']
  · rw [hnbr, hnbr']
  · rw [hlevel, hlevel']
  · rw [hfilter, hfilter']
  · rw [hcode, hvec']

/-- Where a chunk goes on, there is a continuation. -/
def Continues (r : Relation V Q) (t : Tid) : Prop :=
  t.isValid = true → ∃ c, r.item t = some (.cont c)

theorem Continues.later {t : Tid} (hlater : Outlives r r') (h : Continues r t) :
    Continues r' t := by
  intro hv
  obtain ⟨c, hc⟩ := h hv
  exact hlater t _ hc

/-- What a chunk to be written contains is right. -/
structure RightChunk (oc : Opclass V Q D) (dims : Nat) (r : Relation V Q) (c : InlineChunk Q) :
    Prop where
  entries : ∀ entry ∈ c.entries, entry.valid = true → Describes oc dims entry r
  next : Continues r c.next

/-- Every inline entry repeats the element it names, and chains of chunks do not go on forever. -/
structure Coherent (oc : Opclass V Q D) (dims : Nat) (r : Relation V Q) : Prop where
  dimensions : r.metaPage.dimensions = dims
  right : ∀ {t : Tid} {c : InlineChunk Q}, (r.item t).bind IndexTuple.chunk? = some c →
    RightChunk oc dims r c
  ranked : ∃ (rank : Tid → Nat) (bound : Nat), (∀ t, rank t ≤ bound) ∧
    ∀ {t : Tid} {c : InlineChunk Q}, (r.item t).bind IndexTuple.chunk? = some c →
      c.next.isValid = true → rank c.next < rank t

/-- Chunks whose links stay, and whose entries are old ones or right. -/
theorem Coherent.rewrite (h : Coherent oc dims r)
    (hdims : r'.metaPage.dimensions = r.metaPage.dimensions) (hlater : Outlives r r')
    (hchunks : ∀ {t : Tid} {c' : InlineChunk Q}, (r'.item t).bind IndexTuple.chunk? = some c' →
      ∃ c, (r.item t).bind IndexTuple.chunk? = some c ∧ c'.next = c.next ∧
        ∀ entry ∈ c'.entries, entry ∈ c.entries ∨
          (entry.valid = true → Describes oc dims entry r)) : Coherent oc dims r' where
  dimensions := hdims.trans h.dimensions
  right {t c'} hc' := by
    obtain ⟨c, hc, hnext, hentries⟩ := hchunks hc'
    refine ⟨fun entry hentry hv => ?_, ?_⟩
    · obtain hold | hnew := hentries entry hentry
      · exact ((h.right hc).entries entry hold hv).later hlater
      · exact (hnew hv).later hlater
    · rw [hnext]
      exact (h.right hc).next.later hlater
  ranked := by
    obtain ⟨rank, bound, hbound, hrank⟩ := h.ranked
    refine ⟨rank, bound, hbound, fun hc' hv => ?_⟩
    obtain ⟨c, hc, hnext, -⟩ := hchunks hc'
    rw [hnext] at hv ⊢
    exact hrank hc hv

/-- A tuple is appended. -/
theorem Coherent.append (h : Coherent oc dims r) {x : IndexTuple V Q} {t : Tid}
    (ha : Relation.Appended r r' x t) (hx : ∀ c, x.chunk? = some c → RightChunk oc dims r c) :
    Coherent oc dims r' := by
  have hlater : Outlives r r' := .of_items fun _ _ => ha.item_of_item
  have hchunk : ∀ {u : Tid} {c : InlineChunk Q}, (r'.item u).bind IndexTuple.chunk? = some c →
      RightChunk oc dims r c ∧ (u ≠ t → (r.item u).bind IndexTuple.chunk? = some c) := by
    intro u c hc
    by_cases hu : u = t
    · subst hu
      rw [ha.item_self] at hc
      exact ⟨hx c hc, fun hne => absurd rfl hne⟩
    · rw [ha.item_other u hu] at hc
      exact ⟨h.right hc, fun _ => hc⟩
  refine ⟨by rw [ha.metaPage, h.dimensions], fun hc => ?_, ?_⟩
  · obtain ⟨hright, -⟩ := hchunk hc
    exact ⟨fun entry he hv => (hright.entries entry he hv).later hlater, hright.next.later hlater⟩
  · obtain ⟨rank, bound, hbound, hrank⟩ := h.ranked
    -- the new tuple ranks above all
    refine ⟨Function.update rank t (bound + 1), bound + 1, fun u => ?_, fun {u c} hc hv => ?_⟩
    · by_cases hu : u = t
      · subst hu
        rw [Function.update_self]
      · rw [Function.update_of_ne hu]
        exact (hbound u).trans (Nat.le_succ _)
    · obtain ⟨hright, hold⟩ := hchunk hc
      obtain ⟨c', hc'⟩ := hright.next hv
      rw [Function.update_of_ne (ha.ne_of_item hc')]
      by_cases hu : u = t
      · subst hu
        rw [Function.update_self]
        exact Nat.lt_succ_of_le (hbound _)
      · rw [Function.update_of_ne hu]
        exact hrank (hold hu) hv

theorem Coherent.setSlot (h : Coherent oc dims r) (t : Tid) (k : Nat) (e : Tid) :
    Coherent oc dims (r.update t (setSlot k e)) := by
  refine h.rewrite (by rw [Relation.metaPage_update]) (.update (keepsKind_setSlot k e) r t) ?_
  intro u c' hc'
  refine ⟨c', ?_, rfl, fun entry hentry => .inl hentry⟩
  rw [Relation.item_update] at hc'
  split at hc'
  · rename_i hu
    subst hu
    cases hx : r.item u with
    | none =>
      rw [hx] at hc'
      cases hc'
    | some x =>
      rw [hx] at hc'
      cases x <;> exact hc'
  · exact hc'

theorem Coherent.setEntry (h : Coherent oc dims r) (t : Tid) (idx : Nat)
    (hentry : entry.valid = true → Describes oc dims entry r) :
    Coherent oc dims (r.update t (setEntry idx entry)) := by
  have hlater := Outlives.update (keepsKind_setEntry idx entry) r t
  refine h.rewrite (by rw [Relation.metaPage_update]) hlater ?_
  intro u c' hc'
  rw [Relation.item_update] at hc'
  split at hc'
  · rename_i hu
    subst hu
    obtain ⟨y, hy, hc'⟩ := Option.bind_eq_some_iff.mp hc'
    obtain ⟨x, hx, rfl⟩ := Option.map_eq_some_iff.mp hy
    rw [chunk?_setEntry] at hc'
    obtain ⟨c, hc, rfl⟩ := Option.map_eq_some_iff.mp hc'
    refine ⟨c, by rw [hx]; exact hc, rfl, fun entry' hentry' => ?_⟩
    obtain hold | rfl := List.mem_or_eq_of_mem_set hentry'
    · exact .inl hold
    · exact .inr hentry
  · exact ⟨c', hc', rfl, fun entry' hentry' => .inl hentry'⟩

/-- A page is swept: marks are set. -/
theorem Coherent.sweepBlock (h : Coherent oc dims r) (callback : Tid → Bool) {blkno : Nat}
    (hblkno : 1 ≤ blkno) : Outlives r (sweepBlock callback blkno r) ∧
      Coherent oc dims (sweepBlock callback blkno r) := by
  have hitem : ∀ t, (Build.sweepBlock callback blkno r).item t = r.item t ∨
      (Build.sweepBlock callback blkno r).item t = (r.item t).map (sweepTuple callback) := by
    intro t
    rw [item_sweepBlock hblkno]
    split
    · exact .inr rfl
    · exact .inl rfl
  have hlater : Outlives r (Build.sweepBlock callback blkno r) := by
    intro t x hx
    obtain hsame | hswept := hitem t
    · exact Outlives.refl _ t x (hsame.trans hx)
    · rw [hx] at hswept
      cases x with
      | element e =>
        refine ⟨sweepElement callback e, Relation.element_some.mpr hswept, ?_, fun hd => ?_⟩
        · unfold sweepElement
          split <;> rfl
        · rw [PgAcorn.Vacuum.deleted_sweepElement, hd, Bool.true_or]
      | neighbor n => trivial
      | cont c => exact ⟨c, hswept⟩
  refine ⟨hlater, h.rewrite rfl hlater fun {t c'} hc' =>
    ⟨c', ?_, rfl, fun entry hentry => .inl hentry⟩⟩
  obtain hsame | hswept := hitem t
  · rw [← hsame, hc']
  · rw [hswept] at hc'
    cases hx : r.item t with
    | none =>
      rw [hx] at hc'
      cases hc'
    | some x =>
      rw [hx] at hc'
      cases x <;> exact hc'

end

end PgAcorn.Build
