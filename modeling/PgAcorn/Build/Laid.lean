import PgAcorn.Build.ReadBack

/-! What a flush leaves in an index that was empty.

The index has the tuples of the graph where they were placed, and no others (`Laid`). Chunks
name continuation tuples, so that readers and inserts find what they follow. -/
namespace PgAcorn.Build
open Library

section
variable {I V Q D : Type} {oc : Opclass V Q D} {b : BuildParams} {nodes : List (BuildNode V)}

/-- The tuples of a graph, where they were placed. -/
structure Laid [Inhabited Q] (oc : Opclass V Q D) (b : BuildParams) (nodes : List (BuildNode V))
    (r : Relation V Q) : Prop where
  readsBack : ∀ p ∈ nodes.zip (memPreassignTids oc b nodes),
    ReadsBack oc b nodes (memPreassignTids oc b nodes) r p.1 p.2
  /-- There are no other elements. -/
  element : ∀ {t : Tid} {e : ElementTuple V}, r.element t = some e →
    ∃ p ∈ nodes.zip (memPreassignTids oc b nodes), t = p.2.elem
  elems : ((nodes.zip (memPreassignTids oc b nodes)).map fun p => p.2.elem).Nodup
  nbrtids : ((nodes.zip (memPreassignTids oc b nodes)).map fun p => p.2.nbrtid).Nodup
  chunks : ∀ {t : Tid} {x : IndexTuple V Q} {c : InlineChunk Q}, r.item t = some x →
    x.chunk? = some c → c.next.isValid = true → ∃ c', r.item c.next = some (.cont c')
  blocks : r.pages.length < invalidBlockNumber

/-! ### Blocks -/

theorem blocks_appendTuple {r r' : Relation V Q} {x : IndexTuple V Q} {size : Nat} {t : Tid}
    (hr : r.pages.length < invalidBlockNumber) (h : r.appendTuple x size = some (t, r')) :
    r'.pages.length < invalidBlockNumber := by
  unfold Relation.appendTuple at h
  split at h
  · rename_i p hlast
    split at h
    · obtain ⟨p', -, heq⟩ := Option.map_eq_some_iff.mp h
      cases heq
      have hpos : 0 < r.pages.length := by
        apply List.length_pos_of_ne_nil
        intro hnil
        rw [hnil] at hlast
        cases hlast
      rw [List.length_append, List.length_dropLast, List.length_singleton]
      omega
    · exact (Relation.length_extendTuple h).2
  · exact (Relation.length_extendTuple h).2

/-- An index does not outgrow what block numbers can count. -/
theorem blocks_appendAll {tuples : List (IndexTuple V Q × Nat)} {r r' : Relation V Q}
    {ts : List Tid} (hr : r.pages.length < invalidBlockNumber)
    (h : appendAll r tuples = some (ts, r')) : r'.pages.length < invalidBlockNumber := by
  induction tuples generalizing r ts with
  | nil =>
    cases h
    exact hr
  | cons p tuples ih =>
    obtain ⟨⟨t, r₁⟩, hfirst, hrest⟩ := Option.bind_eq_some_iff.mp h
    obtain ⟨⟨ts', r₂⟩, hrest, heq⟩ := Option.bind_eq_some_iff.mp hrest
    cases heq
    exact ih (blocks_appendTuple hr hfirst) hrest

theorem length_pages_patchSlots (places : List Places) (r : Relation V Q)
    (p : BuildNode V × Places) : (patchSlots b nodes places r p).pages.length = r.pages.length := by
  unfold patchSlots
  induction List.range (t2TotalSlots p.1.level b.mEff b.payloadM) generalizing r with
  | nil => rfl
  | cons k ks ih =>
    rw [List.foldl_cons, ih]
    split
    · exact length_pages_update _ _ _
    · rfl

theorem length_pages_foldl_patchSlots (places : List Places) (all : List (BuildNode V × Places))
    (r : Relation V Q) :
    (all.foldl (patchSlots b nodes places) r).pages.length = r.pages.length := by
  induction all generalizing r with
  | nil => rfl
  | cons p all ih => rw [List.foldl_cons, ih, length_pages_patchSlots]

/-! ### Chunks -/

/-- A place has a tuple if there are as many tuples as places. -/
theorem exists_zip {α β : Type} {l : List α} {l' : List β} (hlength : l.length = l'.length) {x : α}
    (hx : x ∈ l) : ∃ y, (x, y) ∈ l.zip l' := by
  rw [← List.map_fst_zip hlength.le] at hx
  obtain ⟨q, hq, rfl⟩ := List.mem_map.mp hx
  exact ⟨q.2, hq⟩

section
variable [Inhabited Q] {r : Relation V Q}
  {f : BuildNode V × Places → List (IndexTuple V Q × Nat)}

/-- A node's places after the first have its continuations, and what its chunks name is among
these places. -/
theorem Written.continuations (h : Written oc b nodes r f) {p : BuildNode V × Places}
    (hp : p ∈ nodes.zip (memPreassignTids oc b nodes)) : ∃ cs : List (InlineChunk Q),
    (∀ u ∈ p.2.nbr.tail, ∃ c ∈ cs, r.item u = some (.cont c)) ∧
    ∀ c, primaryOf (f p) = some c ∨ c ∈ cs → c.next.isValid = true → c.next ∈ p.2.nbr.tail := by
  have hnbr := h.nbr_eq hp
  have hlength := length_nbr hp
  rw [← (h.tuples p hp).sizes, List.length_map, ← List.length_map (f := Prod.fst), hnbr] at hlength
  cases hinline : b.inlineVectors with
  | false =>
    -- there is only the neighbor tuple, and no chunk
    have hplain := (h.tuples p hp).plain hinline
    have hnone : primaryOf (f p) = none := by
      unfold primaryOf
      rw [hplain]
      rfl
    rw [hplain] at hlength
    have htail : p.2.nbr.tail = [] := List.eq_nil_of_length_eq_zero (Nat.succ.inj hlength)
    refine ⟨[], fun u hu => ?_, fun c hc => ?_⟩
    · rw [htail] at hu
      cases hu
    · rw [hnone] at hc
      obtain hc | hc := hc
      all_goals cases hc
  | true =>
    obtain ⟨c₀, cs, hfst, hnext, -⟩ := (h.tuples p hp).inline hinline
    have hprimary : primaryOf (f p) = some c₀ := by
      unfold primaryOf
      rw [hfst]
      rfl
    have hitems := h.neighbors p hp
    rw [hfst] at hlength hitems
    rw [hnbr, List.zip_cons_cons] at hitems
    refine ⟨cs, fun u hu => ?_, fun c hc hvalid => ?_⟩
    · obtain ⟨y, hy⟩ := exists_zip
        (Nat.succ.inj hlength : p.2.nbr.tail.length = (cs.map (IndexTuple.cont (V := V))).length) hu
      obtain ⟨c, hc, rfl⟩ := List.mem_map.mp (List.of_mem_zip hy).2
      exact ⟨c, hc, hitems _ (List.mem_cons_of_mem _ hy)⟩
    · have hchunk : c ∈ c₀ :: cs := by
        obtain hc | hc := hc
        · rw [Option.some.inj (hc.symm.trans hprimary)]
          exact List.mem_cons_self
        · exact List.mem_cons_of_mem _ hc
      have hmap : c.next ∈ (c₀ :: cs).map InlineChunk.next := List.mem_map.mpr ⟨c, hchunk, rfl⟩
      rw [hnext, hnbr] at hmap
      obtain hin | hin := List.mem_append.mp (show c.next ∈ p.2.nbr.tail ++ [Tid.invalid] from hmap)
      · exact hin
      · rw [List.mem_singleton.mp hin] at hvalid
        cases hvalid

end

/-! ### The flush -/

/-- A relation with only the meta page has no tuple. -/
theorem item_of_pages_nil {r : Relation V Q} (h : r.pages = []) (t : Tid) : r.item t = none := by
  unfold Relation.item
  rw [h]
  split <;> simp

/-- Where the tuples of a graph are after its slots were patched: each at its place, and none
elsewhere. -/
structure Patched [Inhabited Q] (oc : Opclass V Q D) (b : BuildParams) (nodes : List (BuildNode V))
    (r r' : Relation V Q) (f : BuildNode V × Places → List (IndexTuple V Q × Nat)) : Prop where
  written : Written oc b nodes r f
  kept : ∀ t, (∀ n, r.item t ≠ some (.neighbor n)) → r'.item t = r.item t
  neighbor : ∀ p ∈ nodes.zip (memPreassignTids oc b nodes), r'.item p.2.nbrtid = some (.neighbor
    ⟨p.1.nbr.map (slotTid nodes (memPreassignTids oc b nodes)), primaryOf (f p)⟩)
  placed : ∀ {t : Tid} {x : IndexTuple V Q}, r'.item t = some x →
    (∃ p ∈ nodes.zip (memPreassignTids oc b nodes), t = p.2.nbrtid ∨ t ∈ p.2.nbr.tail) ∨
      ∃ p ∈ nodes.zip (memPreassignTids oc b nodes), t = p.2.elem

section
variable [Inhabited Q] {r r' : Relation V Q}
  {f : BuildNode V × Places → List (IndexTuple V Q × Nat)}

theorem Patched.cont (h : Patched oc b nodes r r' f) {t : Tid} {c : InlineChunk Q}
    (hc : r.item t = some (.cont c)) : r'.item t = some (.cont c) := by
  refine (h.kept t fun n hn => ?_).trans hc
  rw [hc] at hn
  cases hn

theorem Patched.element (h : Patched oc b nodes r r' f) {p : BuildNode V × Places}
    (hp : p ∈ nodes.zip (memPreassignTids oc b nodes)) :
    r'.item p.2.elem = some (.element (p.1.element p.2)) := by
  have helem := h.written.elements p hp
  refine (h.kept p.2.elem fun n hn => ?_).trans helem
  rw [helem] at hn
  cases hn

end

/-- **A flush into an empty index** has put the graph's tuples where they were placed. -/
theorem memFlush_patched [Inhabited Q] {g : BuildGraph V} (hg : g.Flushable oc b)
    {s s' : Disk I V Q} (hempty : s.relation.pages = []) (h : memFlush oc b g s = some s') :
    ∃ r f, Patched oc b g.nodes r s'.relation f ∧
      s' = endFlush b g (memPreassignTids oc b g.nodes) s r ∧
      r.metaPage = s.relation.metaPage ∧ r.pages.length < invalidBlockNumber := by
  rw [memFlush_eq hg.entry] at h
  obtain ⟨tuples, htuples, h⟩ := Option.bind_eq_some_iff.mp h
  obtain ⟨⟨ts, r⟩, happend, rfl⟩ := Option.map_eq_some_iff.mp h
  have hspec := appendAll_spec happend
  have hblocks := blocks_appendAll (by rw [hempty]; exact Nat.succ_pos _) happend
  obtain ⟨rfl, hr, f, hf⟩ := appendAll_written hg hempty htuples happend
  obtain ⟨hself, hother, -⟩ := hf.patched hg.slots
  have hitem : ∀ t, (endFlush b g (memPreassignTids oc b g.nodes) s r).relation.item t = _ :=
    item_endFlush g s r
  have hkept : ∀ t, (∀ n, r.item t ≠ some (.neighbor n)) →
      (endFlush b g (memPreassignTids oc b g.nodes) s r).relation.item t = r.item t :=
    fun t ht => (hitem t).trans (hother t ht)
  refine ⟨r, f, ⟨hf, hkept, fun p hp => (hitem _).trans (hself p hp), fun {t x} hx => ?_⟩,
    rfl, hr, hblocks⟩
  by_cases hin : t ∈ flushPlaces (g.nodes.zip (memPreassignTids oc b g.nodes))
  · obtain ht | ht := List.mem_append.mp hin
    · obtain ⟨p, hp, ht⟩ := List.mem_flatMap.mp ht
      rw [hf.nbr_eq hp] at ht
      exact .inl ⟨p, hp, List.mem_cons.mp ht⟩
    · obtain ⟨p, hp, rfl⟩ := List.mem_map.mp ht
      exact .inr ⟨p, hp, rfl⟩
  · have hnone : r.item t = none := (hspec.other t hin).trans (item_of_pages_nil hempty t)
    rw [hkept t fun n hn => absurd (hnone.symm.trans hn) (by simp), hnone] at hx
    cases hx

/-- **A flush into an empty index** leaves the graph's tuples there and no others, and the entry
point of the graph. -/
theorem memFlush_laid [Inhabited Q] {g : BuildGraph V} (hg : g.Flushable oc b) {s s' : Disk I V Q}
    (hempty : s.relation.pages = []) (hmeta : s.relation.metaPage.hasEntry = false)
    (h : memFlush oc b g s = some s') :
    Laid oc b g.nodes s'.relation ∧ SameGeometry s'.relation.metaPage s.relation.metaPage ∧
      if 0 ≤ g.entryId then
        ∃ p ∈ target g.nodes (memPreassignTids oc b g.nodes) g.entryId,
          s'.relation.metaPage.entry = p.2.elem ∧ s'.relation.metaPage.entryLevel = p.1.level
      else s'.relation.metaPage.hasEntry = false := by
  obtain ⟨r, f, hput, rfl, hr, hblocks⟩ := memFlush_patched hg hempty h
  have hf := hput.written
  have hpatched := (hf.patched hg.slots).2.2
  refine ⟨⟨fun p hp => ?_, fun {t e} he => ?_, (List.nodup_append.mp hf.distinct).2.1,
    hf.nodup_nbrtid, fun {t x c} hx hc hvalid => ?_, ?_⟩, ?_, ?_⟩
  · exact hf.readsBack hp (hg.slots p.1 (List.of_mem_zip hp).1) (hput.neighbor p hp) hput.kept
  · have hx := Relation.element_some.mp he
    obtain ⟨p, hp, rfl | ht⟩ | helem := hput.placed hx
    · rw [hput.neighbor p hp] at hx
      cases hx
    · obtain ⟨cs, hcs, -⟩ := hf.continuations hp
      obtain ⟨c, -, hc⟩ := hcs t ht
      rw [hput.cont hc] at hx
      cases hx
    · exact helem
  · obtain ⟨p, hp, ht⟩ | ⟨p, hp, rfl⟩ := hput.placed hx
    · obtain ⟨cs, hcs, hnext⟩ := hf.continuations hp
      have hmem : c.next ∈ p.2.nbr.tail := by
        refine hnext c ?_ hvalid
        obtain rfl | ht := ht
        · rw [hput.neighbor p hp] at hx
          obtain rfl := Option.some.inj hx
          exact .inl hc
        · obtain ⟨c', hc', hitem'⟩ := hcs t ht
          rw [hput.cont hitem'] at hx
          obtain rfl := Option.some.inj hx
          exact .inr (Option.some.inj hc ▸ hc')
      obtain ⟨c', -, hc'⟩ := hcs _ hmem
      exact ⟨c', hput.cont hc'⟩
    · rw [hput.element hp] at hx
      obtain rfl := Option.some.inj hx
      cases hc
  · unfold endFlush
    dsimp only
    split
    all_goals
      show (List.foldl _ _ _ : Relation V Q).pages.length < _
      rw [length_pages_foldl_patchSlots]
      exact hblocks
  · have hgeometry : SameGeometry ((g.nodes.zip (memPreassignTids oc b g.nodes)).foldl
        (patchSlots b g.nodes (memPreassignTids oc b g.nodes)) r).metaPage s.relation.metaPage := by
      rw [hpatched, hr]
      exact .refl _
    unfold endFlush
    dsimp only
    split
    · unfold Disk.updateEntry
      dsimp only
      split
      · exact ⟨hgeometry.m, hgeometry.payloadM, hgeometry.dimensions, hgeometry.inlineVectors⟩
      · exact hgeometry
    · exact hgeometry
  · split
    · rename_i hpos
      obtain ⟨p, htarget, -, -⟩ := target_some oc b hpos hg.entry
      refine ⟨p, htarget, ?_⟩
      unfold endFlush
      rw [Option.mem_def.mp htarget]
      dsimp only [Disk.updateEntry, Disk.withRelation]
      rw [hpatched, hr, hmeta]
      exact ⟨rfl, rfl⟩
    · rename_i hneg
      unfold endFlush target
      dsimp only
      rw [if_pos (by omega)]
      show MetaPage.hasEntry (List.foldl _ _ _ : Relation V Q).metaPage = false
      rw [hpatched, hr, hmeta]

end

end PgAcorn.Build
