import PgAcorn.Build.Flush

/-! Where a flush puts its tuples.

`SimPage` packs pages as `acorn_append_tuple` does: as long as the simulation mirrors
the last page, a tuple that fits a page is appended where the simulation places it
(`Mirrors.append`), and so is a whole list of tuples (`Mirrors.appendAll`). A list of
appended tuples is found again at different places, each where it was put
(`AppendedAll`). -/
namespace PgAcorn.Build
open Library

section
variable {V Q : Type}

/-! ### One tuple -/

/-- The simulated page is the last page of the relation; block 1 may not exist yet. -/
structure Mirrors (sp : SimPage) (r : Relation V Q) : Prop where
  last : (r.pages = [] ∧ sp = SimPage.init) ∨ r.pages.length = sp.blkno ∧
    ∃ p, r.pages.getLast? = some p ∧ p.pdLower = sp.pdLower ∧ p.pdUpper = sp.pdUpper ∧
      p.items.length = sp.nitems

/-- The size of a tuple, which the source has aligned, and which fits a page. -/
structure FitsPage (size : Nat) : Prop where
  aligned : maxAlign size = size
  pos : 0 < size
  le : size ≤ hnswMaxSize

theorem maxAlign_maxAlign (n : Nat) : maxAlign (maxAlign n) = maxAlign n := by
  unfold maxAlign
  omega

theorem FitsPage.maxAlign {n : Nat} (hpos : 0 < n) (hle : maxAlign n ≤ hnswMaxSize) :
    FitsPage (PgAcorn.maxAlign n) := by
  refine ⟨maxAlign_maxAlign n, ?_, hle⟩
  unfold PgAcorn.maxAlign
  omega

/-- `sim_page_fits` is the test of the append. -/
theorem fits_iff {sp : SimPage} {p : Page (IndexTuple V Q)} {size : Nat} (hsize : 0 < size)
    (hlower : p.pdLower = sp.pdLower) (hupper : p.pdUpper = sp.pdUpper) :
    pageGetFreeSpace p ≥ size ↔ (size : Int) ≤ (sp.pdUpper : Int) - sp.pdLower - sizeOfItemId := by
  unfold pageGetFreeSpace
  rw [hlower, hupper]
  split
  · constructor
    · intro h
      omega
    · intro h
      omega
  · constructor
    · intro h
      omega
    · intro h
      omega

/-- A tuple on a fresh page. -/
theorem extendTuple_first {r r' : Relation V Q} {x : IndexTuple V Q} {size : Nat} {t : Tid}
    (hsize : FitsPage size) (h : r.extendTuple x size = some (t, r')) :
    t = ⟨r.pages.length + 1, 1⟩ ∧ ∃ p, r'.pages = r.pages ++ [p] ∧
      p.pdLower = sizeOfPageHeaderData + sizeOfItemId ∧
      p.pdUpper = blckSz - sizeOfPageOpaque - size ∧ p.items.length = 1 := by
  unfold Relation.extendTuple at h
  split at h
  · cases h
  obtain ⟨⟨p, off⟩, hadd, heq⟩ := Option.map_eq_some_iff.mp h
  cases heq
  unfold pageAddItem at hadd
  split at hadd
  · cases hadd
  · cases hadd
    refine ⟨rfl, _, rfl, rfl, ?_, rfl⟩
    rw [hsize.aligned]
    rfl

/-- **A tuple is appended where the simulation places it.** -/
theorem Mirrors.append {sp : SimPage} {r r' : Relation V Q} {x : IndexTuple V Q} {size : Nat}
    {t : Tid} (h : Mirrors sp r) (hsize : FitsPage size)
    (happend : r.appendTuple x size = some (t, r')) :
    t = (sp.place size).1 ∧ Mirrors (sp.place size).2 r' := by
  have hle := hsize.le
  -- a tuple for which the relation is extended
  have hextend : ∀ blkno, r.extendTuple x size = some (t, r') → r.pages.length + 1 = blkno →
      t = ⟨blkno, 1⟩ ∧ Mirrors ⟨blkno, sizeOfPageHeaderData + sizeOfItemId,
        blckSz - sizeOfPageOpaque - size, 1⟩ r' := by
    intro blkno hext hblkno
    obtain ⟨ht, p, hpages, hlower, hupper, hitems⟩ := extendTuple_first hsize hext
    rw [hblkno] at ht
    refine ⟨ht, ⟨.inr ⟨?_, p, ?_, hlower, hupper, hitems⟩⟩⟩
    · rw [hpages, List.length_append]
      exact hblkno
    · rw [hpages, List.getLast?_append]
      rfl
  obtain ⟨hnil, rfl⟩ | ⟨hblkno, p, hlast, hlower, hupper, hitems⟩ := h.last
  · -- the first tuple of all
    have hfits : (size : Int) ≤ (SimPage.init.pdUpper : Int) - SimPage.init.pdLower - sizeOfItemId := by
      change (size : Int) ≤ 8184 - 24 - 4
      unfold hnswMaxSize blckSz sizeOfPageHeaderData sizeOfPageOpaque sizeOfItemId at hle
      omega
    unfold Relation.appendTuple at happend
    rw [hnil] at happend
    obtain ⟨ht, hm⟩ := hextend 1 happend (by rw [hnil]; rfl)
    unfold SimPage.place
    simp only [hfits, decide_true, if_true]
    exact ⟨ht, hm⟩
  · unfold Relation.appendTuple at happend
    rw [hlast] at happend
    dsimp only at happend
    unfold SimPage.place
    by_cases hfits : (size : Int) ≤ (sp.pdUpper : Int) - sp.pdLower - sizeOfItemId
    · simp only [hfits, decide_true, if_true]
      rw [if_pos ((fits_iff hsize.pos hlower hupper).mpr hfits)] at happend
      obtain ⟨⟨p', off⟩, hadd, heq⟩ := Option.map_eq_some_iff.mp happend
      unfold pageAddItem at hadd
      split at hadd
      · cases hadd
      cases hadd
      cases heq
      refine ⟨by rw [hblkno, hitems], ⟨.inr ⟨?_, _, List.getLast?_concat, ?_, ?_, ?_⟩⟩⟩
      · have hpos : 0 < r.pages.length := by
          apply List.length_pos_of_ne_nil
          rintro hnil
          rw [hnil] at hlast
          cases hlast
        rw [List.length_append, List.length_dropLast, ← hblkno]
        simp only [List.length_singleton]
        omega
      · rw [hlower]
      · rw [hupper, hsize.aligned]
      · rw [List.length_append, hitems]
        rfl
    · simp only [hfits, decide_false, Bool.false_eq_true, if_false]
      rw [if_neg (fun hfree => hfits ((fits_iff hsize.pos hlower hupper).mp hfree))] at happend
      exact hextend _ happend (by rw [hblkno])

/-- A tuple that fits a page is appended, as long as the relation may grow. -/
theorem Mirrors.append_some {sp : SimPage} {r : Relation V Q} (x : IndexTuple V Q) {size : Nat}
    (h : Mirrors sp r) (hsize : FitsPage size) (hroom : (sp.place size).1.blkno < invalidBlockNumber) :
    (r.appendTuple x size).isSome := by
  have hle := hsize.le
  have hextend : r.pages.length + 1 < invalidBlockNumber → (r.extendTuple x size).isSome := by
    intro hlt
    unfold Relation.extendTuple pageAddItem
    rw [if_neg (by omega), hsize.aligned, if_neg]
    · rfl
    · change ¬ 24 + 4 + size > 8184
      unfold hnswMaxSize blckSz sizeOfPageHeaderData sizeOfPageOpaque sizeOfItemId at hle
      omega
  obtain ⟨hnil, rfl⟩ | ⟨hblkno, p, hlast, hlower, hupper, hitems⟩ := h.last
  · unfold Relation.appendTuple
    rw [hnil]
    apply hextend
    rw [hnil]
    show 0 + 1 < invalidBlockNumber
    decide
  · unfold Relation.appendTuple
    rw [hlast]
    dsimp only
    split
    · rename_i hfree
      have hfits := (fits_iff hsize.pos hlower hupper).mp hfree
      rw [Option.isSome_map]
      unfold pageAddItem
      rw [hsize.aligned, if_neg]
      · rfl
      · rw [hlower, hupper]
        omega
    · rename_i hfree
      have hfits : ¬ (size : Int) ≤ (sp.pdUpper : Int) - sp.pdLower - sizeOfItemId :=
        fun hfits => hfree ((fits_iff hsize.pos hlower hupper).mpr hfits)
      unfold SimPage.place at hroom
      simp only [hfits, decide_false, Bool.false_eq_true, if_false] at hroom
      apply hextend
      rw [hblkno]
      exact hroom

/-! ### Some tuples -/

/-- `acorn_append_tuple` of some tuples, with the places it returns. -/
def appendAll (r : Relation V Q) : List (IndexTuple V Q × Nat) → Option (List Tid × Relation V Q)
  | [] => some ([], r)
  | p :: tuples => do
    let (t, r) ← r.appendTuple p.1 p.2
    let (ts, r) ← appendAll r tuples
    some (t :: ts, r)

theorem appendTuples_eq (r : Relation V Q) (tuples : List (IndexTuple V Q × Nat)) :
    appendTuples r tuples = (appendAll r tuples).map Prod.snd := by
  induction tuples generalizing r with
  | nil => rfl
  | cons p tuples ih =>
    rw [appendTuples, List.foldlM_cons]
    simp only [appendAll]
    cases r.appendTuple p.1 p.2 with
    | none => rfl
    | some first =>
      obtain ⟨t, r₁⟩ := first
      change appendTuples r₁ tuples = _
      rw [ih]
      cases happend : appendAll r₁ tuples <;> simp [happend]

/-- **A list of tuples is appended where the simulation places it.** -/
theorem Mirrors.appendAll {sp : SimPage} {r r' : Relation V Q} {tuples : List (IndexTuple V Q × Nat)}
    {ts : List Tid} (h : Mirrors sp r) (hsizes : ∀ p ∈ tuples, FitsPage p.2)
    (happend : appendAll r tuples = some (ts, r')) :
    ts = (sp.placeAll (tuples.map Prod.snd)).1 ∧
      Mirrors (sp.placeAll (tuples.map Prod.snd)).2 r' := by
  induction tuples generalizing sp r ts with
  | nil =>
    cases happend
    exact ⟨rfl, h⟩
  | cons p tuples ih =>
    obtain ⟨⟨t, r₁⟩, hfirst, hrest⟩ := Option.bind_eq_some_iff.mp happend
    obtain ⟨⟨ts', r₂⟩, hrest, heq⟩ := Option.bind_eq_some_iff.mp hrest
    cases heq
    obtain ⟨ht, h₁⟩ := h.append (hsizes p List.mem_cons_self) hfirst
    obtain ⟨hts, h₂⟩ := ih h₁ (fun q hq => hsizes q (List.mem_cons_of_mem _ hq)) hrest
    exact ⟨by rw [ht, hts]; rfl, h₂⟩

theorem blkno_place (sp : SimPage) (size : Nat) : (sp.place size).1.blkno = (sp.place size).2.blkno :=
  rfl

theorem blkno_le_placeAll (sp : SimPage) (sizes : List Nat) : sp.blkno ≤ (sp.placeAll sizes).2.blkno := by
  induction sizes generalizing sp with
  | nil => exact Nat.le_refl _
  | cons size sizes ih =>
    refine Nat.le_trans ?_ (ih (sp.place size).2)
    unfold SimPage.place
    dsimp only
    split
    · exact Nat.le_refl _
    · exact Nat.le_succ _

/-- Tuples that fit pages are appended, as long as the relation may grow. -/
theorem Mirrors.appendAll_some {sp : SimPage} {r : Relation V Q}
    {tuples : List (IndexTuple V Q × Nat)} (h : Mirrors sp r) (hsizes : ∀ p ∈ tuples, FitsPage p.2)
    (hroom : (sp.placeAll (tuples.map Prod.snd)).2.blkno < invalidBlockNumber) :
    (Build.appendAll r tuples).isSome := by
  induction tuples generalizing sp r with
  | nil => rfl
  | cons p tuples ih =>
    have hfirst := hsizes p List.mem_cons_self
    have hrest := blkno_le_placeAll (sp.place p.2).2 (tuples.map Prod.snd)
    have hone := h.append_some p.1 hfirst (by
      rw [blkno_place]
      exact Nat.lt_of_le_of_lt hrest hroom)
    obtain ⟨⟨t, r₁⟩, hr₁⟩ := Option.isSome_iff_exists.mp hone
    obtain ⟨-, h₁⟩ := h.append hfirst hr₁
    obtain ⟨⟨ts, r₂⟩, hr₂⟩ := Option.isSome_iff_exists.mp
      (ih h₁ (fun q hq => hsizes q (List.mem_cons_of_mem _ hq)) hroom)
    simp [Build.appendAll, hr₁, hr₂]

/-! ### What is found again -/

/-- Some tuples have been appended: new names for them, and nothing else. -/
structure AppendedAll (r r' : Relation V Q) (tuples : List (IndexTuple V Q × Nat)) (ts : List Tid) :
    Prop where
  length : ts.length = tuples.length
  nodup : ts.Nodup
  fresh : ∀ t ∈ ts, r.item t = none
  item : ∀ p ∈ ts.zip tuples, r'.item p.1 = some p.2.1
  other : ∀ t ∉ ts, r'.item t = r.item t
  metaPage : r'.metaPage = r.metaPage

theorem appendAll_spec {r r' : Relation V Q} {tuples : List (IndexTuple V Q × Nat)} {ts : List Tid}
    (h : appendAll r tuples = some (ts, r')) : AppendedAll r r' tuples ts := by
  induction tuples generalizing r ts with
  | nil =>
    cases h
    exact ⟨rfl, List.nodup_nil, nofun, nofun, fun _ _ => rfl, rfl⟩
  | cons p tuples ih =>
    obtain ⟨⟨t, r₁⟩, hfirst, hrest⟩ := Option.bind_eq_some_iff.mp h
    obtain ⟨⟨ts', r₂⟩, hrest, heq⟩ := Option.bind_eq_some_iff.mp hrest
    cases heq
    have h₁ := Relation.appendTuple_spec hfirst
    have h₂ := ih hrest
    -- the first tuple is there when the others are appended
    have hnot : t ∉ ts' := by
      intro ht
      have hfresh := h₂.fresh t ht
      rw [h₁.item_self] at hfresh
      cases hfresh
    refine ⟨by simp [h₂.length], List.nodup_cons.mpr ⟨hnot, h₂.nodup⟩, fun u hu => ?_, fun q hq => ?_,
      fun u hu => ?_, h₂.metaPage.trans h₁.metaPage⟩
    · obtain rfl | hu := List.mem_cons.mp hu
      · exact h₁.fresh
      · have hne : u ≠ t := fun heq => hnot (heq ▸ hu)
        rw [← h₁.item_other u hne]
        exact h₂.fresh u hu
    · obtain rfl | hq := List.mem_cons.mp hq
      · rw [h₂.other t hnot]
        exact h₁.item_self
      · exact h₂.item q hq
    · rw [List.mem_cons, not_or] at hu
      rw [h₂.other u hu.2, h₁.item_other u hu.1]

end

end PgAcorn.Build
