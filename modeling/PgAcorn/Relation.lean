import PgAcorn.Tuple

/-! The index relation: a meta page and data pages, read and written by tuple.

A page keeps its line pointers and free space as the server does
(`PageGetFreeSpace`, `PageAddItem`), and `appendTuple` packs tuples as the source
does: onto the last page while they fit, onto a fresh one otherwise. Everything
above this file uses two facts. An append names a tuple that did not exist and
disturbs no other (`appendTuple_spec`); an in-place update changes the tuple it
names and no other (`item_update`). -/
namespace PgAcorn

/-! ### Pages -/

/-- A page's items, in line pointer order, and its two free-space bounds. -/
structure Page (τ : Type) where
  items : List τ
  pdLower : Nat
  pdUpper : Nat
  deriving DecidableEq

section Page
variable {τ : Type}

/-- `acorn_init_page`. -/
def Page.init : Page τ := ⟨[], sizeOfPageHeaderData, blckSz - sizeOfPageOpaque⟩

/-- `PageGetFreeSpace`. -/
def pageGetFreeSpace (p : Page τ) : Nat :=
  if (p.pdUpper : Int) - p.pdLower < sizeOfItemId then 0
  else p.pdUpper - p.pdLower - sizeOfItemId

/-- `PageAddItem` at the next free offset; `none` is `InvalidOffsetNumber`. -/
def pageAddItem (p : Page τ) (x : τ) (size : Nat) : Option (Page τ × Nat) :=
  if p.pdLower + sizeOfItemId + maxAlign size > p.pdUpper then none
  else some (⟨p.items ++ [x], p.pdLower + sizeOfItemId, p.pdUpper - maxAlign size⟩,
    p.items.length + 1)

theorem pageAddItem_some {p p' : Page τ} {x : τ} {size off : Nat}
    (h : pageAddItem p x size = some (p', off)) :
    p'.items = p.items ++ [x] ∧ off = p.items.length + 1 := by
  unfold pageAddItem at h
  split at h
  · cases h
  · cases h
    exact ⟨rfl, rfl⟩

end Page

/-! ### The relation -/

/-- An index: block 0 and the data blocks from 1 on. -/
structure Relation (V Q : Type) where
  metaPage : MetaPage
  pages : List (Page (IndexTuple V Q))
  deriving DecidableEq

namespace Relation
variable {V Q : Type}

/-- The tuple at an identifier. -/
def item (r : Relation V Q) (t : Tid) : Option (IndexTuple V Q) :=
  if t.blkno = 0 ∨ t.offno = 0 then none
  else (r.pages[t.blkno - 1]?).bind fun p => p.items[t.offno - 1]?

/-- The element tuple at an identifier. -/
def element (r : Relation V Q) (t : Tid) : Option (ElementTuple V) :=
  match r.item t with
  | some (.element e) => some e
  | _ => none

/-- The neighbor tuple at an identifier. -/
def neighbor (r : Relation V Q) (t : Tid) : Option (NeighborTuple Q) :=
  match r.item t with
  | some (.neighbor n) => some n
  | _ => none

theorem element_some {r : Relation V Q} {t : Tid} {e : ElementTuple V} :
    r.element t = some e ↔ r.item t = some (.element e) := by
  unfold element
  split <;> simp_all

theorem neighbor_some {r : Relation V Q} {t : Tid} {n : NeighborTuple Q} :
    r.neighbor t = some n ↔ r.item t = some (.neighbor n) := by
  unfold neighbor
  split <;> simp_all

/-- Reads depend on the tuple alone. -/
theorem element_congr {r r' : Relation V Q} {t : Tid} (h : r'.item t = r.item t) :
    r'.element t = r.element t := by rw [element, element, h]

theorem neighbor_congr {r r' : Relation V Q} {t : Tid} (h : r'.item t = r.item t) :
    r'.neighbor t = r.neighbor t := by rw [neighbor, neighbor, h]

/-- A named tuple sits on a data page and has a valid identifier. -/
theorem isValid_of_item {r : Relation V Q} {t : Tid} {x : IndexTuple V Q}
    (h : r.item t = some x) : t.isValid = true ∧ t.blkno ≠ 0 := by
  unfold item at h
  split at h
  · cases h
  · rename_i hne
    push Not at hne
    exact ⟨by simpa [Tid.isValid] using hne.2, hne.1⟩

/-! ### Append -/

/-- A tuple on a fresh page at the end of the relation; the server refuses a
block number that would be `InvalidBlockNumber`. -/
def extendTuple (r : Relation V Q) (x : IndexTuple V Q) (size : Nat) :
    Option (Tid × Relation V Q) :=
  if r.pages.length + 1 ≥ invalidBlockNumber then none
  else (pageAddItem Page.init x size).map fun p =>
    (⟨r.pages.length + 1, p.2⟩, { r with pages := r.pages ++ [p.1] })

/-- `acorn_append_tuple`; `none` is an error. -/
def appendTuple (r : Relation V Q) (x : IndexTuple V Q) (size : Nat) :
    Option (Tid × Relation V Q) :=
  match r.pages.getLast? with
  | some p =>
    if pageGetFreeSpace p ≥ size then
      (pageAddItem p x size).map fun p' =>
        (⟨r.pages.length, p'.2⟩, { r with pages := r.pages.dropLast ++ [p'.1] })
    else r.extendTuple x size
  | none => r.extendTuple x size

/-- What an append does: a new name for the tuple, and nothing else. -/
structure Appended (r r' : Relation V Q) (x : IndexTuple V Q) (t : Tid) : Prop where
  fresh : r.item t = none
  item_self : r'.item t = some x
  item_other : ∀ t' ≠ t, r'.item t' = r.item t'
  metaPage : r'.metaPage = r.metaPage
  blocks : r.pages.length ≤ r'.pages.length

theorem extendTuple_spec {r r' : Relation V Q} {x : IndexTuple V Q} {size : Nat} {t : Tid}
    (h : r.extendTuple x size = some (t, r')) : Appended r r' x t := by
  unfold extendTuple at h
  split at h
  · cases h
  obtain ⟨⟨p', off⟩, hadd, heq⟩ := Option.map_eq_some_iff.mp h
  obtain ⟨hitems, rfl⟩ := pageAddItem_some hadd
  cases heq
  refine ⟨by simp [item], by simp [item, hitems, Page.init], fun t' ht' => ?_, rfl, by simp⟩
  unfold item
  split
  · rfl
  · rename_i hne
    push Not at hne
    rcases Nat.lt_trichotomy (t'.blkno - 1) r.pages.length with hlt | heq | hgt
    · rw [List.getElem?_append_left hlt]
    · rw [heq, List.getElem?_concat_length, List.getElem?_eq_none (Nat.le_refl _)]
      show (p'.items)[t'.offno - 1]? = none
      rw [hitems]
      refine List.getElem?_eq_none ?_
      by_contra hoff
      have hoff : t'.offno = 1 := by simp [Page.init] at hoff; omega
      have hblk : t'.blkno = r.pages.length + 1 := by omega
      exact ht' (by cases t'; simp_all [Page.init])
    · rw [List.getElem?_eq_none (by simp; omega), List.getElem?_eq_none (by omega)]

/-- The other places of a page that gets a tuple. -/
theorem getElem?_concat_of_ne {τ : Type} {items : List τ} {x : τ} {k : Nat}
    (hk : k ≠ items.length) : (items ++ [x])[k]? = items[k]? := by
  rcases Nat.lt_or_gt_of_ne hk with hl | hg
  · rw [List.getElem?_append_left hl]
  · rw [List.getElem?_eq_none (by simp; omega), List.getElem?_eq_none (by omega)]

theorem appendTuple_spec {r r' : Relation V Q} {x : IndexTuple V Q} {size : Nat} {t : Tid}
    (h : r.appendTuple x size = some (t, r')) : Appended r r' x t := by
  unfold appendTuple at h
  split at h
  swap
  · exact extendTuple_spec h
  rename_i p hlast
  split at h
  swap
  · exact extendTuple_spec h
  obtain ⟨⟨p', off⟩, hadd, heq⟩ := Option.map_eq_some_iff.mp h
  obtain ⟨hitems, rfl⟩ := pageAddItem_some hadd
  cases heq
  obtain ⟨init, hinit⟩ : ∃ init, r.pages = init ++ [p] := by
    obtain ⟨init, hi⟩ := List.getLast?_eq_some_iff.mp hlast
    exact ⟨init, hi⟩
  refine ⟨by simp [item, hinit], by simp [item, hinit, hitems], fun t' ht' => ?_, rfl,
    by simp [hinit]⟩
  unfold item
  rw [hinit, List.dropLast_concat]
  split
  · rfl
  · rename_i hne
    push Not at hne
    rcases Nat.lt_trichotomy (t'.blkno - 1) init.length with hlt | heq | hgt
    · rw [List.getElem?_append_left hlt, List.getElem?_append_left hlt]
    · rw [heq, List.getElem?_concat_length, List.getElem?_concat_length]
      show (p'.items)[t'.offno - 1]? = p.items[t'.offno - 1]?
      rw [hitems, getElem?_concat_of_ne]
      exact fun he => absurd (by cases t'; simp_all; omega) ht'
    · rw [List.getElem?_eq_none (by simp; omega), List.getElem?_eq_none (by simp; omega)]

theorem Appended.ne_of_item {r r' : Relation V Q} {x y : IndexTuple V Q} {t t' : Tid}
    (h : Appended r r' x t) (hy : r.item t' = some y) : t' ≠ t := by
  rintro rfl
  rw [h.fresh] at hy
  cases hy

/-- An append leaves the entry point. -/
theorem Appended.hasEntry {r r' : Relation V Q} {x : IndexTuple V Q} {t : Tid}
    (h : Appended r r' x t) (he : r.metaPage.hasEntry = true) : r'.metaPage.hasEntry = true := by
  rw [h.metaPage, he]

/-- Existing tuples survive an append. -/
theorem Appended.item_of_item {r r' : Relation V Q} {x y : IndexTuple V Q} {t t' : Tid}
    (h : Appended r r' x t) (hy : r.item t' = some y) : r'.item t' = some y := by
  rw [h.item_other t' (h.ne_of_item hy), hy]

theorem Appended.element_of_element {r r' : Relation V Q} {x : IndexTuple V Q} {t t' : Tid}
    {e : ElementTuple V} (h : Appended r r' x t) (he : r.element t' = some e) :
    r'.element t' = some e := element_some.mpr (h.item_of_item (element_some.mp he))

theorem Appended.neighbor_of_neighbor {r r' : Relation V Q} {x : IndexTuple V Q} {t t' : Tid}
    {n : NeighborTuple Q} (h : Appended r r' x t) (hn : r.neighbor t' = some n) :
    r'.neighbor t' = some n := neighbor_some.mpr (h.item_of_item (neighbor_some.mp hn))

/-! ### Append, one page at a time

Under concurrency the source's append is several page accesses: it reads how many
blocks there are, tries the page that was last then, and otherwise adds a page. -/

/-- What trying to add a tuple to an existing page gives. -/
inductive Attempt (V Q : Type)
  | full
  | failed
  | added (t : Tid) (r : Relation V Q)

/-- The attempt of `acorn_append_tuple` on block `blkno`; `none` is a block that
does not exist. -/
def appendAt (r : Relation V Q) (blkno : Nat) (x : IndexTuple V Q) (size : Nat) :
    Option (Attempt V Q) :=
  if blkno = 0 then none
  else (r.pages[blkno - 1]?).map fun p =>
    if pageGetFreeSpace p ≥ size then
      match pageAddItem p x size with
      | some (p', off) => .added ⟨blkno, off⟩ { r with pages := r.pages.set (blkno - 1) p' }
      | none => .failed
    else .full

theorem appendAt_spec {r r' : Relation V Q} {blkno : Nat} {x : IndexTuple V Q} {size : Nat}
    {t : Tid} (h : r.appendAt blkno x size = some (.added t r')) :
    Appended r r' x t ∧ r'.pages.length = r.pages.length := by
  unfold appendAt at h
  split at h
  · cases h
  rename_i hblk
  obtain ⟨p, hp, hadd⟩ := Option.map_eq_some_iff.mp h
  split at hadd
  swap
  · cases hadd
  split at hadd
  swap
  · cases hadd
  rename_i p' off hitem
  obtain ⟨hitems, rfl⟩ := pageAddItem_some hitem
  cases hadd
  obtain ⟨hlt, -⟩ := List.getElem?_eq_some_iff.mp hp
  refine ⟨⟨?_, ?_, fun t' ht' => ?_, rfl, by simp⟩, by simp⟩
  · simp [item, hp]
  · simp [item, hblk, hlt, hitems]
  · unfold item
    split
    · rfl
    rename_i hne
    push Not at hne
    dsimp only
    by_cases hb : blkno - 1 = t'.blkno - 1
    · rw [List.getElem?_set, if_pos hb, if_pos (by omega), ← hb, hp]
      show (p'.items)[t'.offno - 1]? = p.items[t'.offno - 1]?
      rw [hitems, getElem?_concat_of_ne]
      exact fun he => absurd (by cases t'; simp_all; omega) ht'
    · rw [List.getElem?_set_ne hb]

theorem length_extendTuple {r r' : Relation V Q} {x : IndexTuple V Q} {size : Nat} {t : Tid}
    (h : r.extendTuple x size = some (t, r')) :
    r'.pages.length = r.pages.length + 1 ∧ r'.pages.length < invalidBlockNumber := by
  unfold extendTuple at h
  split at h
  · cases h
  obtain ⟨p', -, heq⟩ := Option.map_eq_some_iff.mp h
  cases heq
  simp
  omega

/-- A named tuple's block number is a block's. -/
theorem blkno_le_of_item {r : Relation V Q} {t : Tid} {x : IndexTuple V Q}
    (h : r.item t = some x) : t.blkno ≤ r.pages.length := by
  unfold item at h
  split at h
  · cases h
  obtain ⟨p, hp, -⟩ := Option.bind_eq_some_iff.mp h
  obtain ⟨hlt, -⟩ := List.getElem?_eq_some_iff.mp hp
  omega

/-! ### Updates in place -/

/-- Rewrites the tuple at an identifier. -/
def update (r : Relation V Q) (t : Tid) (f : IndexTuple V Q → IndexTuple V Q) :
    Relation V Q :=
  if t.blkno = 0 ∨ t.offno = 0 then r
  else { r with pages := r.pages.modify (t.blkno - 1) fun p =>
    { p with items := p.items.modify (t.offno - 1) f } }

@[simp] theorem metaPage_update (r : Relation V Q) (t : Tid)
    (f : IndexTuple V Q → IndexTuple V Q) : (r.update t f).metaPage = r.metaPage := by
  unfold update
  split <;> rfl

/-- An update changes the tuple it names and no other. -/
theorem item_update (r : Relation V Q) (t t' : Tid) (f : IndexTuple V Q → IndexTuple V Q) :
    (r.update t f).item t' = if t' = t then (r.item t).map f else r.item t' := by
  unfold update
  by_cases ht : t.blkno = 0 ∨ t.offno = 0
  · rw [if_pos ht]
    split
    · rename_i heq
      subst heq
      simp [item, ht]
    · rfl
  rw [if_neg ht]
  push Not at ht
  unfold item
  by_cases ht' : t'.blkno = 0 ∨ t'.offno = 0
  · have hne : t' ≠ t := by rintro rfl; omega
    simp [ht', hne]
  push Not at ht'
  simp only [ht, ht', or_self, if_false, List.getElem?_modify]
  by_cases heq : t' = t
  · subst heq
    cases hp : r.pages[t'.blkno - 1]? <;> simp
  · rw [if_neg heq]
    cases hp : r.pages[t'.blkno - 1]? with
    | none => simp
    | some p =>
      by_cases hb : t.blkno - 1 = t'.blkno - 1
      · have ho : t.offno - 1 ≠ t'.offno - 1 := by
          intro ho
          have hblk : t'.blkno = t.blkno := by omega
          have hoff : t'.offno = t.offno := by omega
          exact heq (by cases t; cases t'; simp_all)
        simp [hb, ho]
      · simp [hb]

end Relation

end PgAcorn
