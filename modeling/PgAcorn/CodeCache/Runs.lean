import PgAcorn.CodeCache.Identity
import PgAcorn.Scan.Complete

/-! Runs of the code cache.

`agreed` is the condition under which every action keeps the invariant: a slot
that goes from EMPTY to LOADING is still keyed to the index its loader looked up,
and no generation wraps around. The source checks neither. Between the lookup and
the compare-and-swap the slot may have been evicted, and even claimed for another
index; what is then loaded into it is served as that index's data. -/
namespace PgAcorn.CodeCache
open Library
open Scan (CodeCacheHit)

variable {B V Q : Type} [DecidableEq B] [Fintype B] {codec : Codec V Q} {s s' : State B V Q} {b : B}

omit [DecidableEq B] [Fintype B] in
theorem serves_state {i : Fin ccNSlots} (h : (s.slots i).state.serves = true) :
    (s.slots i).state ≠ .loading ∧ (s.slots i).state ≠ .empty := by
  constructor <;> intro hs <;> rw [hs] at h <;> cases h

/-! ### Mappings -/

omit [DecidableEq B] [Fintype B] in
theorem AreaOf.address {x : Key} {area dp : Nat} (h : AreaOf codec s x area dp) :
    ∃ blocks, dsaGetAddress s.areas area dp = some blocks ∧ Holds codec s.world x blocks := by
  obtain ⟨a, ha, -, hdp, hne, hh⟩ := h
  refine ⟨a.blocks, ?_, hh⟩
  rw [dsaGetAddress, ha, Option.bind_some, if_pos ⟨hne, hdp⟩]

theorem readEntry_some {page : CachePage Q} {offno : Nat} {hit : CodeCacheHit Q}
    (h : readEntry page offno = some hit) : 0 < offno ∧ page[offno - 1]? = some (some hit) := by
  unfold readEntry at h
  split at h
  · cases h
  · rename_i hne
    refine ⟨Nat.pos_of_ne_zero hne, ?_⟩
    split at h
    · rename_i e he
      split at h
      · cases h
      · rw [he, Option.some.inj h]
    · cases h

omit [DecidableEq B] [Fintype B] in
/-- A lookup through a mapping finds data of its index only, and leaves a mapping
of the same index. -/
theorem Mapping.lookup {x : Key} {m : Handle} (h : Mapping codec s x m) (t : Tid) :
    ∃ found m', codecacheLookup s.slots s.areas m t = some (found, m') ∧
      (∀ hit, found = some hit → EncodedFrom codec s.world x t hit) ∧
      Mapping codec s x m' ∧ m'.slot = m.slot ∧ m'.generation = m.generation := by
  obtain ⟨blocks, haddress, hholds⟩ := h.area.address
  have hentry : ∀ hit, ((blocks t.blkno).bind fun page => readEntry page t.offno) = some hit →
      EncodedFrom codec s.world x t hit := by
    intro hit hhit
    obtain ⟨page, hpage, hread⟩ := Option.bind_eq_some_iff.mp hhit
    obtain ⟨hpos, hread⟩ := readEntry_some hread
    have := hholds hpage hread
    rwa [Nat.sub_add_cancel hpos] at this
  unfold codecacheLookup resolveBlocks
  split
  · exact ⟨none, m, rfl, by simp, h, rfl, rfl⟩
  · simp only [haddress, Option.bind_eq_bind, Option.bind_some]
    split
    · exact ⟨_, m, rfl, hentry, h, rfl, rfl⟩
    · by_cases hgen : m.generation = (s.slots m.slot).generation
      · obtain ⟨harea, hblocks⟩ := h.current hgen
        rw [if_neg (by simp [hgen]), hblocks, haddress]
        have hmap : Mapping codec s x { m with nblocks := (s.slots m.slot).nblocks } :=
          ⟨h.key, h.area, h.generation, h.current⟩
        simp only [Option.bind_some, Option.map_some]
        split
        · exact ⟨_, _, rfl, by simp, hmap, rfl, rfl⟩
        · exact ⟨_, _, rfl, hentry, hmap, rfl, rfl⟩
      · rw [if_pos (fun heq => hgen heq.symm)]
        exact ⟨_, m, rfl, by simp, h, rfl, rfl⟩

omit [DecidableEq B] [Fintype B] in
theorem Mapping.ofSlot {x : Key} {i : Fin ccNSlots}
    (h : AreaOf codec s x (s.slots i).areaHandle (s.slots i).blocks) :
    Mapping codec s x (Handle.ofSlot x i (s.slots i)) :=
  ⟨rfl, h, Nat.le_refl _, fun _ => ⟨rfl, rfl⟩⟩

omit [DecidableEq B] in
/-- A mapping that is not live is used by no open scan. -/
theorem Inv.not_held (h : Inv codec s) {x : Key} {m : Handle}
    (hm : (s.backends b).attached x = some m) (hlive : stillLive s.slots m = false) :
    ∀ i, (x, i) ∉ (s.backends b).scans := by
  intro i hi
  obtain ⟨m', hm', -, hlive'⟩ := h.held hi
  rw [Option.some.inj (hm.symm.trans hm')] at hlive
  exact absurd (hlive.symm.trans hlive') (by simp)

/-! ### The steps of a scan's beginning -/

theorem slotLookup_some {slots slots' : Fin ccNSlots → Slot} {x : Key} {i : Fin ccNSlots}
    (h : slotLookup slots x = some (i, slots')) :
    slots' = slots ∨ slots' = Function.update slots i { slots i with key := x } ∧
      (slots i).key.isValid = false ∧ ∀ j, (slots j).key ≠ x := by
  unfold slotLookup at h
  split at h
  · exact .inl (Prod.mk.inj (Option.some.inj h)).2.symm
  · rename_i hnone
    split at h
    · rename_i k hk
      obtain ⟨rfl, hslots⟩ := Prod.mk.inj (Option.some.inj h)
      refine .inr ⟨hslots.symm, ?_, fun j => ?_⟩
      · have := List.find?_some hk
        simpa [Key.isValid] using this
      · have := List.find?_eq_none.mp hnone j (List.mem_finRange j)
        simpa using this
    · cases h

omit [DecidableEq B] in
theorem Inv.slotLookup (h : Inv codec s) {x : Key} {i : Fin ccNSlots}
    {slots : Fin ccNSlots → Slot} (hs : slotLookup s.slots x = some (i, slots)) :
    Inv codec { s with slots := slots } := by
  rcases slotLookup_some hs with rfl | ⟨rfl, hfree, hnone⟩
  · exact h
  · -- a free slot is EMPTY: nothing is loaded into it or read from it
    have hempty : (s.slots i).state = .empty := by
      by_contra hne
      rw [h.claimed hne] at hfree
      cases hfree
    refine h.setSlot { s.slots i with key := x } ⟨fun _ j _ => (hnone j).symm, ?_, ?_, ?_,
      ?_, .inr ⟨rfl, rfl, rfl⟩, ?_⟩ rfl
    · exact fun hne => absurd hempty hne
    · intro b y hl
      rw [(h.loader hl).1] at hempty
      cases hempty
    · exact fun _ => ⟨rfl, rfl⟩
    · intro hserves
      exact absurd hempty (serves_state hserves).2
    · intro b y hy
      obtain ⟨m, -, hslot, hlive⟩ := h.held hy
      have := (stillLive_iff.mp hlive).2.2
      rw [hslot, hempty] at this
      cases this

theorem Inv.scanAcquire (h : Inv codec s) {x : Key} {m : Handle}
    (hm : (s.backends b).attached x = some m) (hs : scanAcquire s b x m = some s') :
    Inv codec s' := by
  unfold CodeCache.scanAcquire at hs
  split at hs
  · rename_i hlive
    obtain rfl := Option.some.inj hs
    have hmap := h.attached hm
    obtain ⟨hgen, hkey, hserves⟩ := stillLive_iff.mp hlive
    obtain ⟨harea, hblocks⟩ := hmap.current hgen
    have hmap' : Mapping codec s x { m with
        blocksDp := (s.slots m.slot).blocks, nblocks := (s.slots m.slot).nblocks } :=
      ⟨hmap.key, hblocks ▸ hmap.area, hmap.generation, fun _ => ⟨harea, rfl⟩⟩
    refine h.rescan (fun j => ?_) rfl rfl (fun b' => ?_) ?_ (fun i => ?_) ?_
    · by_cases hj : j = m.slot
      · subst hj
        simp [State.setSlot, State.setBackend]
      · simp [State.setSlot, State.setBackend, Function.update_of_ne hj]
    · by_cases hb : b' = b
      · subst hb
        simp [State.setSlot, State.setBackend]
      · simp [State.setSlot, State.setBackend, Function.update_of_ne hb]
    · intro b' y m' hm'
      by_cases hb : b' = b
      · subst hb
        simp only [State.setBackend, Function.update_self] at hm'
        by_cases hy : y = x
        · subst hy
          rw [Function.update_self] at hm'
          exact Option.some.inj hm' ▸ hmap'
        · rw [Function.update_of_ne hy] at hm'
          exact h.attached hm'
      · simp only [State.setBackend, Function.update_of_ne hb] at hm'
        exact h.attached hm'
    · have hsum := references_setBackend (s.setSlot m.slot { s.slots m.slot with
        activeScans := (s.slots m.slot).activeScans + 1 }) b
        { s.backends b with
          attached := Function.update (s.backends b).attached x (some { m with
            blocksDp := (s.slots m.slot).blocks, nblocks := (s.slots m.slot).nblocks })
          scans := (x, m.slot) :: (s.backends b).scans } i
      have href : references (s.setSlot m.slot { s.slots m.slot with
        activeScans := (s.slots m.slot).activeScans + 1 }) i = references s i := rfl
      rw [href, List.countP_cons, backends_setSlot] at hsum
      have hcount := h.counted i
      by_cases hi : i = m.slot
      · subst hi
        simp only [slots_setBackend, slots_setSlot_same, decide_true, if_true] at hsum ⊢
        omega
      · have hne : decide (m.slot = i) = false := by simpa using fun heq => hi heq.symm
        rw [slots_setBackend, slots_setSlot_ne _ _ _ hi]
        simp only [hne, Bool.false_eq_true, if_false] at hsum
        omega
    · intro b' y i hy
      by_cases hb : b' = b
      · subst hb
        simp only [State.setBackend, Function.update_self, List.mem_cons] at hy ⊢
        by_cases hyx : y = x
        · subst hyx
          refine ⟨{ m with
            blocksDp := (s.slots m.slot).blocks, nblocks := (s.slots m.slot).nblocks },
            Function.update_self .., ?_, hlive⟩
          rcases hy with hy | hy
          · exact (Prod.mk.inj hy).2.symm
          · obtain ⟨m', hm', hslot, -⟩ := h.held hy
            rw [← hslot, Option.some.inj (hm.symm.trans hm')]
        · rcases hy with hy | hy
          · exact absurd (Prod.mk.inj hy).1 hyx
          · rw [Function.update_of_ne hyx]
            exact h.held hy
      · simp only [State.setBackend, backends_setSlot, Function.update_of_ne hb] at hy ⊢
        exact h.held hy
  · cases hs

/-- The slot is still keyed to the index of the backend that claims the load, and
the generation has room. -/
def agreed (s : State B V Q) : Action B V Q → Bool
  | .proceed b =>
    match (s.backends b).pc with
    | .claim x _ i => decide ((s.slots i).state = .empty → (s.slots i).key = x)
    | _ => true
  | .create b _ =>
    match (s.backends b).pc with
    | .load _ _ i => decide ((s.slots i).generation.toNat + 1 < 2 ^ 32)
    | _ => true
  | .evict _ i => decide ((s.slots i).generation.toNat + 1 < 2 ^ 32)
  | _ => true

theorem Inv.beginScan (h : Inv codec s) {x : Key} {dim : Nat}
    (hs : beginScan s b x dim = some s') : Inv codec s' := by
  unfold CodeCache.beginScan at hs
  split at hs
  · rename_i hc
    have hv : ∀ {y}, some x = some y → y.isValid = true := fun hy => Option.some.inj hy ▸ hc.2.1
    split at hs
    · obtain rfl := Option.some.inj hs
      exact h.goto rfl hv
    · rename_i m hm
      split at hs
      · obtain rfl := Option.some.inj hs
        exact h.goto rfl hv
      · rename_i hlive
        obtain rfl := Option.some.inj hs
        exact (h.forgetAttach (h.not_held hm (by simpa using hlive))).goto rfl hv
  · cases hs

/-- The compare-and-swap, on a slot that is still the index's. -/
theorem Inv.claim (h : Inv codec s) {x : Key} {dim : Nat} {i : Fin ccNSlots}
    (hpc : (s.backends b).pc = .claim x dim i) (hempty : (s.slots i).state = .empty)
    (hkey : (s.slots i).key = x) :
    Inv codec ((s.setSlot i { s.slots i with state := .loading }).goto b (.load x dim i)) := by
  have hvalid : x.isValid = true := h.valid (b := b) (by rw [hpc]; rfl)
  have hnone : ∀ {b' y}, (s.backends b').pc.loader ≠ some (y, i) := fun hl => by
    rw [(h.loader hl).1] at hempty
    cases hempty
  have hset : Inv codec (s.setSlot i { s.slots i with state := .loading }) := by
    refine h.setSlot _ ⟨fun hv j hj hij => hj (h.unique hv hij).symm, fun _ => hkey ▸ hvalid,
      fun hl => absurd hl hnone, fun _ => ⟨rfl, rfl⟩, (fun hs => by cases hs),
      .inr ⟨rfl, rfl, rfl⟩, fun hx => ?_⟩ rfl
    obtain ⟨m, -, hslot, hlive⟩ := h.held hx
    have := (stillLive_iff.mp hlive).2.2
    rw [hslot, hempty] at this
    cases this
  refine hset.gotoLoader rfl rfl ?_ (fun b' _ y => hnone) (fun hl => by cases hl)
  rw [slots_setSlot_same]
  exact ⟨rfl, hkey⟩

theorem Inv.proceed (h : Inv codec s) (hok : agreed s (.proceed b : Action B V Q) = true)
    (hs : proceed s b = some s') : Inv codec s' := by
  have hvalid : ∀ {x}, (s.backends b).pc.index = some x → x.isValid = true := h.valid
  unfold CodeCache.proceed at hs
  split at hs
  · cases hs
  · rename_i x dim hpc
    rw [hpc] at hvalid
    split at hs
    · cases hs
    · rename_i m hm
      split at hs
      · rename_i s₁ hacquire
        obtain rfl := Option.some.inj hs
        exact (h.scanAcquire hm hacquire).goto rfl (fun hx => by cases hx)
      · rename_i hacquire
        obtain rfl := Option.some.inj hs
        have hlive : stillLive s.slots m = false := by
          by_contra hlive
          simp [CodeCache.scanAcquire, hlive] at hacquire
        exact (h.forgetAttach (h.not_held hm hlive)).goto rfl hvalid
  · rename_i x dim hpc
    rw [hpc] at hvalid
    split at hs
    · rename_i i slots hlookup
      obtain rfl := Option.some.inj hs
      exact (h.slotLookup hlookup).goto rfl hvalid
    · obtain rfl := Option.some.inj hs
      exact h.goto rfl (fun hx => by cases hx)
  · rename_i x dim i hpc
    rw [hpc] at hvalid
    split at hs <;> obtain rfl := Option.some.inj hs
    · exact h.goto rfl hvalid
    · exact h.goto rfl (fun hx => by cases hx)
    · exact h.goto rfl (fun hx => by cases hx)
  · rename_i x dim i hpc
    split at hs
    · rename_i hempty
      obtain rfl := Option.some.inj hs
      simp only [agreed, hpc, decide_eq_true_eq] at hok
      exact h.claim hpc hempty (hok hempty)
    · obtain rfl := Option.some.inj hs
      exact h.goto rfl (fun hx => by cases hx)
    · obtain rfl := Option.some.inj hs
      exact h.goto rfl (fun hx => by cases hx)
  · cases hs
  · cases hs
  · split at hs <;> obtain rfl := Option.some.inj hs <;> exact h.goto rfl (fun hx => by cases hx)
  · split at hs <;> obtain rfl := Option.some.inj hs <;> exact h.goto rfl (fun hx => by cases hx)
  · rename_i x i hpc
    split at hs
    · obtain rfl := Option.some.inj hs
      exact h.goto rfl (fun hx => by cases hx)
    · rename_i hnone
      split at hs
      · rename_i hc
        obtain rfl := Option.some.inj hs
        have hmap : Mapping codec s x (Handle.ofSlot x i (s.slots i)) :=
          Mapping.ofSlot (hc.2 ▸ h.serving hc.1)
        refine (h.attachStore hmap fun hx => ?_).goto rfl (fun hx => by cases hx)
        obtain ⟨m, hm, -⟩ := h.held hx
        exact absurd (hnone.symm.trans hm) (by simp)
      · obtain rfl := Option.some.inj hs
        exact h.goto rfl (fun hx => by cases hx)
  · rename_i x hpc
    split at hs
    · cases hs
    · rename_i m hm
      split at hs
      · rename_i s₁ hacquire
        obtain rfl := Option.some.inj hs
        exact (h.scanAcquire hm hacquire).goto rfl (fun hx => by cases hx)
      · obtain rfl := Option.some.inj hs
        exact h.goto rfl (fun hx => by cases hx)

/-! ### Loading -/

theorem toNat_succ {g : BitVec 32} (h : g.toNat + 1 < 2 ^ 32) : (g + 1).toNat = g.toNat + 1 := by
  rw [BitVec.toNat_add]
  exact Nat.mod_eq_of_lt h

theorem Inv.create (h : Inv codec s) {dp : Nat} (hok : agreed s (.create b dp : Action B V Q) = true)
    (hs : create s b dp = some s') : Inv codec s' := by
  unfold CodeCache.create at hs
  split at hs
  · rename_i x dim i hpc
    split at hs
    · cases hs
    · rename_i hdp
      simp only [agreed, hpc, decide_eq_true_eq] at hok
      obtain ⟨r, -, rfl⟩ := Option.map_eq_some_iff.mp hs
      obtain ⟨hloading, hkey⟩ := h.loader (b := b) (x := x) (i := i) (by rw [hpc]; rfl)
      have hothers : ∀ b' ≠ b, ∀ y, (s.backends b').pc.loader ≠ some (y, i) := fun b' hb y hl =>
        hb (h.exclusive hl (by rw [hpc]; rfl))
      have hfree : ∀ {b' y}, (y, i) ∉ (s.backends b').scans := fun hy => by
        obtain ⟨m, -, hslot, hlive⟩ := h.held hy
        have := (stillLive_iff.mp hlive).2.2
        rw [hslot, hloading] at this
        cases this
      -- a new area holds nothing yet
      have hgrown : Inv codec { s with areas := s.areas ++ [⟨x, dp, fun _ => none⟩] } := by
        refine h.data rfl rfl ?_
        rintro y area dp' ⟨a, ha, hy, hrest⟩
        refine ⟨a, ?_, hy, hrest⟩
        show (s.areas ++ _)[area]? = some a
        rw [List.getElem?_append_left (List.getElem?_eq_some_iff.mp ha).1, ha]
      have hnew : AreaOf codec { s with areas := s.areas ++ [⟨x, dp, fun _ => none⟩] } x
          s.areas.length dp := by
        refine ⟨⟨x, dp, fun _ => none⟩, ?_, rfl, rfl, hdp, fun hpage => by cases hpage⟩
        show (s.areas ++ _)[s.areas.length]? = _
        simp
      have hset := hgrown.setSlot (i := i) { s.slots i with
          areaHandle := s.areas.length, dim := dim, generation := (s.slots i).generation + 1
          blocks := dp, nblocks := ccDirGrow (r.pages.length + 1) }
        ⟨fun hv j hj hij => hj (h.unique hv hij).symm, fun _ => h.claimed (by rw [hloading]; simp),
          fun hl => h.loader hl, fun {b' y _ _ _ _} hl => by
            have hl' : (s.backends b').pc.loader = some (y, i) := by
              rw [show (s.backends b').pc = _ from hl]
              rfl
            obtain rfl := h.exclusive hl' (by rw [hpc]; rfl)
            exact absurd (hpc.symm.trans hl) (by simp),
          fun hs => absurd hloading (serves_state hs).1,
          .inl (by
            show (s.slots i).generation.toNat < ((s.slots i).generation + 1).toNat
            rw [toNat_succ hok]
            omega),
          fun hx => absurd hx hfree⟩ rfl
      refine (hset.attachStore (b := b) ?_ ?_).gotoLoader rfl rfl ?_ ?_ ?_
      · refine ⟨rfl, hnew, ?_, fun _ => ?_⟩
        · rw [show (Handle.ofSlot x i _).slot = i from rfl, slots_setSlot_same]
          exact Nat.le_refl _
        · rw [show (Handle.ofSlot x i _).slot = i from rfl, slots_setSlot_same]
          exact ⟨rfl, rfl⟩
      · intro j hj
        -- the loader has no scan open on its index: the slot would be serving
        have hj : (x, j) ∈ (s.backends b).scans := hj
        obtain ⟨m, hm, hslot, hlive⟩ := h.held hj
        obtain ⟨-, hmkey, hserves⟩ := stillLive_iff.mp hlive
        have : (s.slots m.slot).key = (s.slots i).key := by
          rw [hmkey, (h.attached hm).key, hkey]
        rw [h.unique (h.claimed (serves_state hserves).2) this] at hserves
        exact absurd hloading (serves_state hserves).1
      · rw [slots_attachStore, slots_setSlot_same]
        exact ⟨hloading, hkey⟩
      · intro b' hb y
        rw [pc_attachStore]
        exact hothers b' hb y
      · intro y dim' j area blkno nblocks hpc'
        obtain ⟨rfl, -, rfl, rfl, rfl, -⟩ := Pc.loading.inj hpc'
        rw [slots_attachStore, slots_setSlot_same]
        exact ⟨Nat.one_pos, rfl, hnew⟩
  · cases hs

/-- What the loader makes of a page was encoded from its elements. -/
theorem loadPage_some {r : Relation V Q} {dim blkno off : Nat} {page : CachePage Q}
    {hit : CodeCacheHit Q} (hpos : 0 < blkno) (h : loadPage codec dim r blkno = some page)
    (hhit : page[off]? = some (some hit)) :
    ∃ e, r.element ⟨blkno, off + 1⟩ = some e ∧ hit = loadElement codec e := by
  obtain ⟨p, hp, hpage⟩ := Option.bind_eq_some_iff.mp h
  dsimp only at hpage
  split at hpage
  · obtain rfl := Option.some.inj hpage
    rw [List.getElem?_map] at hhit
    obtain ⟨item, hitem, hload⟩ := Option.map_eq_some_iff.mp hhit
    cases item with
    | element e =>
      simp only [loadItem] at hload
      split at hload
      · refine ⟨e, Relation.element_some.mpr ?_, (Option.some.inj hload).symm⟩
        rw [Relation.item, if_neg (by simp; omega), hp]
        exact hitem
      · cases hload
    | neighbor n => cases hload
    | cont c => cases hload
  · cases hpage

theorem Inv.loadBlock (h : Inv codec s) (hs : loadBlock codec s b = some s') : Inv codec s' := by
  unfold CodeCache.loadBlock at hs
  split at hs
  · rename_i x dim i area blkno nblocks hpc
    split at hs
    · obtain ⟨r, hr, rfl⟩ := Option.map_eq_some_iff.mp hs
      obtain ⟨hpos, harea, hof⟩ := h.loading hpc
      have hmem : r ∈ s.world x := List.mem_of_mem_head? hr
      have hpublish : ∀ {a : Area Q}, a.index = x → Holds codec s.world x a.blocks →
          Holds codec s.world x (a.publish blkno (loadPage codec dim r blkno)).blocks := by
        intro a ha hh k off page hit hpage hhit
        cases hload : loadPage codec dim r blkno with
        | none =>
          rw [hload] at hpage
          exact hh hpage hhit
        | some loaded =>
          rw [hload] at hpage
          simp only [Area.publish] at hpage
          by_cases hk : k = blkno
          · subst hk
            rw [Function.update_self] at hpage
            obtain rfl := Option.some.inj hpage
            obtain ⟨e, he, hhit⟩ := loadPage_some hpos hload hhit
            exact ⟨r, hmem, e, he, hhit⟩
          · rw [Function.update_of_ne hk] at hpage
            exact hh hpage hhit
      have hfields : ∀ (a : Area Q) page, (a.publish blkno page).index = a.index ∧
          (a.publish blkno page).blocksDp = a.blocksDp := fun a page => by
        cases page <;> exact ⟨rfl, rfl⟩
      have hdata : ∀ {y k dp}, AreaOf codec s y k dp → AreaOf codec { s with
          areas := s.areas.modify area fun a => a.publish blkno (loadPage codec dim r blkno) } y k
          dp := by
        rintro y k dp ⟨a, ha, hy, hdp, hne, hh⟩
        by_cases hk : k = area
        · subst hk
          refine ⟨a.publish blkno (loadPage codec dim r blkno), ?_, (hfields a _).1.trans hy,
            hdp.trans (hfields a _).2.symm, hne, ?_⟩
          · show (s.areas.modify _ _)[k]? = _
            rw [List.getElem?_modify_eq, ha]
            rfl
          · -- the area is the loader's own, so its index is the loader's
            obtain ⟨a', ha', hx, -⟩ := hof
            rw [harea] at ha'
            obtain rfl := Option.some.inj (ha.symm.trans ha')
            subst hy
            rw [hx] at hh ⊢
            exact hpublish hx hh
        · refine ⟨a, ?_, hy, hdp, hne, hh⟩
          show (s.areas.modify _ _)[k]? = _
          simp [Ne.symm hk, ha]
      have hloaded : Inv codec { s with
          areas := s.areas.modify area fun a => a.publish blkno (loadPage codec dim r blkno) } :=
        h.data rfl rfl hdata
      refine hloaded.gotoLoader rfl rfl ?_ ?_ ?_
      · exact h.loader (b := b) (by rw [hpc]; rfl)
      · exact fun b' hb y hl => hb (h.exclusive hl (by rw [hpc]; rfl))
      · intro y dim' j area' blkno' nblocks' hpc'
        obtain ⟨rfl, -, rfl, rfl, rfl, -⟩ := Pc.loading.inj hpc'
        exact ⟨Nat.succ_pos _, harea, hdata hof⟩
    · cases hs
  · cases hs

theorem Inv.publish (h : Inv codec s) {state : SlotState} {error : Bool}
    (hs : publish s b state error = some s') : Inv codec s' := by
  unfold CodeCache.publish at hs
  split at hs
  · rename_i x dim i area blkno nblocks hpc
    split at hs
    · rename_i hstate
      have hserves : state.serves = true := by
        rcases hstate with ⟨rfl, -⟩ | rfl <;> rfl
      obtain rfl := Option.some.inj hs
      have hl : (s.backends b).pc.loader = some (x, i) := by rw [hpc]; rfl
      obtain ⟨hloading, hkey⟩ := h.loader hl
      obtain ⟨-, -, hof⟩ := h.loading hpc
      have hgone : ∀ pc : Pc, pc.loader = none → pc.index = none →
          Inv codec ((s.goto b pc).setSlot i { s.slots i with state := state }) := by
        intro pc hpc' hindex
        have hmoved := h.goto (b := b) hpc' (by rw [hindex]; simp)
        -- the loader has moved on, so nobody loads the slot any more
        have hnone : ∀ {b' y}, ((s.goto b pc).backends b').pc.loader ≠ some (y, i) := by
          intro b' y hl'
          by_cases hb : b' = b
          · subst hb
            rw [pc_goto_same, hpc'] at hl'
            cases hl'
          · rw [pc_goto_ne _ _ _ _ hb] at hl'
            exact hb (h.exclusive hl' hl)
        refine hmoved.setSlot _ ⟨fun hv j hj hij => hj (h.unique hv hij).symm,
          fun _ => h.claimed (by rw [hloading]; simp), fun hl' => absurd hl' hnone,
          fun _ => ⟨rfl, rfl⟩, fun _ => hkey ▸ hof, .inr ⟨rfl, rfl, rfl⟩, fun hx => ?_⟩ rfl
        exact ⟨rfl, rfl, hserves⟩
      cases error with
      | false => exact hgone (.reread x dim i) rfl rfl
      | true => exact hgone .idle rfl rfl
    · cases hs
  · cases hs

/-! ### Eviction and the end of a scan -/

omit [DecidableEq B] in
/-- A slot without references is used by no open scan. -/
theorem Inv.unreferenced (h : Inv codec s) {i : Fin ccNSlots} (hi : (s.slots i).activeScans = 0) :
    ∀ {b x}, (x, i) ∉ (s.backends b).scans := by
  intro b x hx
  have hzero : (s.backends b).scans.countP (fun p => decide (p.2 = i)) = 0 :=
    Finset.sum_eq_zero_iff.mp ((h.counted i).symm.trans hi) b (Finset.mem_univ b)
  exact List.countP_eq_zero.mp hzero _ hx (by simp)

theorem Inv.evictSlot (h : Inv codec s) {i : Fin ccNSlots}
    (hok : agreed s (.evict b i : Action B V Q) = true) (hs : evictSlot s b i = some s') :
    Inv codec s' := by
  unfold CodeCache.evictSlot at hs
  split at hs
  · rename_i hc
    obtain ⟨-, hserves, hactive⟩ := hc
    simp only [agreed, decide_eq_true_eq] at hok
    obtain rfl := Option.some.inj hs
    have hloading := (serves_state hserves).1
    have hset := h.setSlot (i := i) { s.slots i with
        key := Key.invalid, state := .empty, generation := (s.slots i).generation + 1, dim := 0
        nblocks := 0, blocks := 0 }
      ⟨(fun hv => by cases hv), fun hne => absurd rfl hne, fun hl => absurd (h.loader hl).1 hloading,
        fun {b' y _ _ _ _} hl => absurd (h.loader (b := b') (x := y) (by rw [hl]; rfl)).1 hloading,
        (fun hs => by cases hs), .inl (by
          show (s.slots i).generation.toNat < ((s.slots i).generation + 1).toNat
          rw [toNat_succ hok]
          omega),
        fun hx => absurd hx (h.unreferenced hactive)⟩ rfl
    refine hset.forgetAttach fun j hj => ?_
    -- an open scan of the evicted index would hold a reference on this very slot
    have hj : ((s.slots i).key, j) ∈ (s.backends b).scans := hj
    obtain ⟨m, hm, hslot, hlive⟩ := h.held hj
    obtain ⟨-, hmkey, -⟩ := stillLive_iff.mp hlive
    have hsame : (s.slots i).key = (s.slots j).key := by
      rw [← hslot, hmkey, (h.attached hm).key]
    obtain rfl := h.unique (h.claimed (serves_state hserves).2) hsame
    exact h.unreferenced hactive hj
  · cases hs

theorem Inv.endScan (h : Inv codec s) {x : Key} {i : Fin ccNSlots}
    (hs : endScan s b x i = some s') : Inv codec s' := by
  unfold CodeCache.endScan at hs
  split at hs
  · rename_i hx
    obtain rfl := Option.some.inj hs
    have hscans : ∀ {b' y j}, (y, j) ∈ ((State.setBackend (s.setSlot i { s.slots i with
        activeScans := (s.slots i).activeScans - 1 }) b
        { s.backends b with scans := (s.backends b).scans.erase (x, i) }).backends b').scans →
        (y, j) ∈ (s.backends b').scans := by
      intro b' y j hy
      by_cases hb : b' = b
      · subst hb
        simp only [State.setBackend, Function.update_self] at hy
        exact List.mem_of_mem_erase hy
      · simpa only [State.setBackend, backends_setSlot, Function.update_of_ne hb] using hy
    have hattached : ∀ b', ((State.setBackend (s.setSlot i { s.slots i with
        activeScans := (s.slots i).activeScans - 1 }) b
        { s.backends b with scans := (s.backends b).scans.erase (x, i) }).backends b').attached =
        (s.backends b').attached := by
      intro b'
      by_cases hb : b' = b
      · subst hb
        simp [State.setBackend]
      · simp [State.setBackend, Function.update_of_ne hb]
    refine h.rescan (fun j => ?_) rfl rfl (fun b' => ?_) ?_ (fun j => ?_) ?_
    · by_cases hj : j = i
      · subst hj
        simp [State.setSlot, State.setBackend]
      · simp [State.setSlot, State.setBackend, Function.update_of_ne hj]
    · by_cases hb : b' = b
      · subst hb
        simp [State.setSlot, State.setBackend]
      · simp [State.setSlot, State.setBackend, Function.update_of_ne hb]
    · intro b' y m hm
      rw [hattached] at hm
      exact h.attached hm
    · have hsum := references_setBackend (s.setSlot i { s.slots i with
        activeScans := (s.slots i).activeScans - 1 }) b
        { s.backends b with scans := (s.backends b).scans.erase (x, i) } j
      have href : references (s.setSlot i { s.slots i with
        activeScans := (s.slots i).activeScans - 1 }) j = references s j := rfl
      have hcount := h.counted j
      have herase := (List.perm_cons_erase hx).countP_eq fun p => decide (p.2 = j)
      rw [List.countP_cons] at herase
      rw [href, backends_setSlot] at hsum
      dsimp only at hsum
      by_cases hj : j = i
      · subst hj
        simp only [decide_true, if_true] at herase
        simp only [slots_setBackend, slots_setSlot_same]
        omega
      · have hne : decide (i = j) = false := by simpa using fun heq => hj heq.symm
        simp only [hne, Bool.false_eq_true, if_false] at herase
        rw [slots_setBackend, slots_setSlot_ne _ _ _ hj]
        dsimp only
        omega
    · intro b' y j hy
      rw [hattached]
      exact h.held (hscans hy)
  · cases hs

/-! ### The machine -/

theorem Inv.step (h : Inv codec s) {a : Action B V Q} (hok : agreed s a = true)
    (hs : step codec s a = some s') : Inv codec s' := by
  cases a with
  | beginScan b x dim => exact h.beginScan hs
  | proceed b => exact h.proceed hok hs
  | create b dp => exact h.create hok hs
  | createFails b =>
    simp only [CodeCache.step, createFails] at hs
    split at hs
    · obtain rfl := Option.some.inj hs
      exact h.goto rfl (fun hx => by cases hx)
    · cases hs
  | loadBlock b => exact h.loadBlock hs
  | publish b state error => exact h.publish hs
  | evict b i => exact h.evictSlot hok hs
  | endScan b x i => exact h.endScan hs
  | lookup b x i t =>
    simp only [CodeCache.step] at hs
    split at hs
    · rename_i hx
      obtain ⟨m, hm, hslot, hlive⟩ := h.held hx
      obtain ⟨found, m', hlookup, -, hmap, hslot', hgen⟩ := (h.attached hm).lookup t
      rw [hm, Option.bind_some, hlookup, Option.map_some] at hs
      obtain rfl := Option.some.inj hs
      refine h.attachStore (by rwa [hmap.key]) fun {j} hj => ?_
      rw [hmap.key] at hj
      obtain ⟨m'', hm'', hslot'', -⟩ := h.held hj
      obtain rfl := Option.some.inj (hm.symm.trans hm'')
      refine ⟨hslot'.trans hslot'', ?_⟩
      rw [stillLive_iff, hslot', hgen, hmap.key, ← (h.attached hm).key, ← stillLive_iff]
      exact hlive
    · cases hs
  | modify x r =>
    obtain rfl := Option.some.inj hs
    refine h.data rfl rfl ?_
    rintro y area dp ⟨a, ha, hy, hdp, hne, hh⟩
    refine ⟨a, ha, hy, hdp, hne, fun hpage hhit => hh.mono (fun r' hr' => ?_) hpage hhit⟩
    show r' ∈ Function.update s.world x (r :: s.world x) y
    by_cases hyx : y = x
    · subst hyx
      rw [Function.update_self]
      exact List.mem_cons_of_mem _ hr'
    · rwa [Function.update_of_ne hyx]

omit [DecidableEq B] in
theorem Inv.init (world : Key → List (Relation V Q)) :
    Inv codec (State.init world : State B V Q) where
  valid h := by cases h
  unique h := by cases h
  claimed h := absurd rfl h
  loader h := by cases h
  exclusive h := by cases h
  loading h := by cases h
  serving h := by cases h
  attached h := by cases h
  counted i := by simp [references, State.init, Slot.init]
  held h := by cases h

omit [DecidableEq B] in
theorem Inv.slotIdentity (h : Inv codec s) : SlotIdentity codec s where
  keyed i hi := h.claimed (serves_state hi).2
  unique i j hi hij := h.unique hi hij
  entries i hi := (h.serving hi).address
  lookups b x i hx := by
    obtain ⟨m, hm, -⟩ := h.held hx
    refine ⟨m, hm, fun t => ?_⟩
    obtain ⟨found, m', hlookup, hhit, -⟩ := (h.attached hm).lookup t
    exact ⟨found, m', hlookup, hhit⟩

/-- **Slots keep their identity along every run** in which a claimed load is of the
index the slot is keyed to and no generation wraps. -/
theorem slot_identity {world : Key → List (Relation V Q)}
    (h : Runs (step codec) (fun s a => agreed s a = true) (State.init world : State B V Q) s) : SlotIdentity codec s :=
  (h.invariant (Inv.init world) fun hinv hok hs => hinv.step hok hs).slotIdentity

/-! ### Two indexes -/

section TwoIndexes
open Scan (lonelyIndex)

/-- Numbers, as they are. -/
def plainCodec : Codec Int Int := ⟨fun _ => 1, id⟩

def indexX : Key := ⟨5, 100⟩
def indexY : Key := ⟨5, 200⟩

/-- Two indexes of one element each, at the same place. -/
def twoIndexes (x : Key) : List (Relation Int Int) :=
  if x = indexX then [lonelyIndex Int 3] else if x = indexY then [lonelyIndex Int 4] else []

def firstSlot : Fin ccNSlots := ⟨0, ccNSlots_pos⟩

/-- A scan that loads its index and begins. -/
def loadAndScan (b : Fin 3) (x : Key) : List (Action (Fin 3) Int Int) :=
  [.beginScan b x 1, .proceed b, .proceed b, .proceed b, .create b 1, .loadBlock b,
    .publish b .ready false, .proceed b, .proceed b, .proceed b, .proceed b]

attribute [local instance] neZero_three

def secondSlot : Fin ccNSlots := ⟨1, by decide⟩

/-- Two indexes are loaded; the first one is evicted under a scan of the second one, and loaded
again by another backend. -/
def evictAndReload : List (Action (Fin 3) Int Int) :=
  loadAndScan 0 indexX ++ loadAndScan 1 indexY ++
    .endScan 0 indexX firstSlot :: .evict 0 firstSlot :: loadAndScan 2 indexX

theorem slot_identity_reloaded : ∃ s : State (Fin 3) Int Int,
    (indexY, secondSlot) ∈ (s.backends 1).scans ∧ (indexX, firstSlot) ∈ (s.backends 2).scans ∧
      (s.slots firstSlot).generation = 3 ∧ SlotIdentity plainCodec s := by
  have h : ((exec (fun s a => if agreed s a = true then step plainCodec s a else none)
      (State.init twoIndexes) evictAndReload).map fun s =>
        ((s.backends 1).scans, (s.backends 2).scans, (s.slots firstSlot).generation)) =
      some ([(indexY, secondSlot)], [(indexX, firstSlot)], 3) := by decide +kernel
  obtain ⟨s, hs, hsummary⟩ := Option.map_eq_some_iff.mp h
  obtain ⟨hsecond, hrest⟩ := Prod.mk.inj hsummary
  obtain ⟨hfirst, hgeneration⟩ := Prod.mk.inj hrest
  exact ⟨s, by simp [hsecond], by simp [hfirst], hgeneration, slot_identity (runs_of_exec hs)⟩

/-- A backend has looked the slot of one index up when it is evicted; it loads the
slot all the same, and another index then claims the unkeyed slot with its data. -/
def claimAfterEviction : List (Action (Fin 3) Int Int) :=
  [.beginScan 0 indexX 1, .proceed 0, .proceed 0, .proceed 0, .create 0 1,
    .publish 0 .partialLoad true,
    .beginScan 1 indexX 1, .proceed 1, .evict 0 firstSlot,
    .proceed 1, .proceed 1, .create 1 1, .loadBlock 1, .publish 1 .ready false,
    .beginScan 2 indexY 1, .proceed 2, .proceed 2, .proceed 2, .proceed 2, .proceed 2]

/-- A scan of one index is served the other's data. -/
theorem claim_after_eviction : ∃ s : State (Fin 3) Int Int,
    Runs (step plainCodec) (fun _ _ => True) (State.init twoIndexes) s ∧
      ¬ SlotIdentity plainCodec s := by
  have h : ((exec (fun s a => if True then step plainCodec s a else none)
      (State.init twoIndexes) claimAfterEviction).map fun s =>
        ((s.backends 2).scans, s.world indexY, ((s.backends 2).attached indexY).bind fun m =>
          (codecacheLookup s.slots s.areas m ⟨1, 2⟩).map fun p => p.1.map CodeCacheHit.code)) =
      some ([(indexY, firstSlot)], [lonelyIndex Int 4], some (some 3)) := by decide +kernel
  obtain ⟨s, hs, hobs⟩ := Option.map_eq_some_iff.mp h
  obtain ⟨hscans, hobs⟩ := Prod.mk.inj hobs
  obtain ⟨hworld, hcode⟩ := Prod.mk.inj hobs
  refine ⟨s, runs_of_exec hs, fun hidentity => ?_⟩
  obtain ⟨m, hm, hlookup⟩ := hidentity.lookups 2 indexY firstSlot (by simp [hscans])
  obtain ⟨found, m', hfound, hdata⟩ := hlookup ⟨1, 2⟩
  rw [hm, Option.bind_some, hfound, Option.map_some] at hcode
  obtain ⟨hit, rfl, hhit⟩ := Option.map_eq_some_iff.mp (Option.some.inj hcode)
  -- the only element of the scan's index has another vector
  obtain ⟨r, hr, e, he, rfl⟩ := hdata hit rfl
  rw [hworld, List.mem_singleton] at hr
  subst hr
  obtain ⟨-, rfl⟩ := Scan.lonelyIndex_element he
  exact absurd hhit (by decide)

end TwoIndexes

end PgAcorn.CodeCache
