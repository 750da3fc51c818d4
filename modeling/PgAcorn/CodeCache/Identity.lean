import PgAcorn.CodeCache.Protocol
import Mathlib.Algebra.BigOperators.Group.Finset.Basic
import Mathlib.Data.Fintype.Basic

/-! A slot serves the index it is keyed to.

`Inv` holds along every run in which a slot is still keyed to the index of the
backend that moves it from EMPTY to LOADING. A slot that is not EMPTY then keeps
its key until it is evicted, so the loader fills an area of that index and no
other; and a mapping whose generation is still the slot's belongs to the slot's
present area, because every load and every eviction moves the generation on. -/
namespace PgAcorn.CodeCache
open Library
open Scan (CodeCacheHit)

variable {B V Q : Type}

/-! ### What is claimed -/

/-- The entry was encoded from an element the index had at this place. -/
def EncodedFrom (codec : Codec V Q) (world : Key → List (Relation V Q)) (x : Key) (t : Tid)
    (hit : CodeCacheHit Q) : Prop :=
  ∃ r ∈ world x, ∃ e, r.element t = some e ∧ hit = loadElement codec e

/-- A block directory whose entries are all of one index. -/
def Holds (codec : Codec V Q) (world : Key → List (Relation V Q)) (x : Key) (blocks : Blocks Q) :
    Prop :=
  ∀ {blkno off : Nat} {page : CachePage Q} {hit : CodeCacheHit Q}, blocks blkno = some page →
    page[off]? = some (some hit) → EncodedFrom codec world x ⟨blkno, off + 1⟩ hit

/-- Slots carry the keys of the indexes whose data they hold. -/
structure SlotIdentity (codec : Codec V Q) (s : State B V Q) : Prop where
  keyed : ∀ i, (s.slots i).state.serves = true → (s.slots i).key.isValid = true
  unique : ∀ i j, (s.slots i).key.isValid = true → (s.slots i).key = (s.slots j).key → i = j
  entries : ∀ i, (s.slots i).state.serves = true →
    ∃ blocks, dsaGetAddress s.areas (s.slots i).areaHandle (s.slots i).blocks = some blocks ∧
      Holds codec s.world (s.slots i).key blocks
  /-- Every lookup of an open scan is a miss or finds data of the scan's index. -/
  lookups : ∀ b x i, (x, i) ∈ (s.backends b).scans → ∃ h, (s.backends b).attached x = some h ∧
    ∀ t, ∃ found h', codecacheLookup s.slots s.areas h t = some (found, h') ∧
      ∀ hit, found = some hit → EncodedFrom codec s.world x t hit

/-! ### The invariant -/

/-- The slot a backend is loading, and for which index. -/
def Pc.loader : Pc → Option (Key × Fin ccNSlots)
  | .load x _ i => some (x, i)
  | .loading x _ i _ _ _ => some (x, i)
  | _ => none

/-- An area's block directory is at `dp` and has the data of `x`. -/
def AreaOf (codec : Codec V Q) (s : State B V Q) (x : Key) (area dp : Nat) : Prop :=
  ∃ a, s.areas[area]? = some a ∧ a.index = x ∧ dp = a.blocksDp ∧ dp ≠ 0 ∧
    Holds codec s.world x a.blocks

/-- A mapping is of its index, and of the slot's present area as long as the
generations agree. -/
structure Mapping (codec : Codec V Q) (s : State B V Q) (x : Key) (h : Handle) : Prop where
  key : h.key = x
  area : AreaOf codec s x h.area h.blocksDp
  generation : h.generation.toNat ≤ (s.slots h.slot).generation.toNat
  current : h.generation = (s.slots h.slot).generation →
    (s.slots h.slot).areaHandle = h.area ∧ (s.slots h.slot).blocks = h.blocksDp

/-- How many open scans hold a reference on a slot. -/
def references [Fintype B] (s : State B V Q) (i : Fin ccNSlots) : Nat :=
  ∑ b, (s.backends b).scans.countP fun p => decide (p.2 = i)

/-- The index a backend has yet to find or claim a slot for. -/
def Pc.index : Pc → Option Key
  | .acquireCached x _ => some x
  | .lookup x _ => some x
  | .readState x _ _ => some x
  | .claim x _ _ => some x
  | _ => none

structure Inv [Fintype B] (codec : Codec V Q) (s : State B V Q) : Prop where
  valid : ∀ {b x}, (s.backends b).pc.index = some x → x.isValid = true
  unique : ∀ {i j}, (s.slots i).key.isValid = true → (s.slots i).key = (s.slots j).key → i = j
  claimed : ∀ {i}, (s.slots i).state ≠ .empty → (s.slots i).key.isValid = true
  loader : ∀ {b x i}, (s.backends b).pc.loader = some (x, i) →
    (s.slots i).state = .loading ∧ (s.slots i).key = x
  exclusive : ∀ {b b' x y i}, (s.backends b).pc.loader = some (x, i) →
    (s.backends b').pc.loader = some (y, i) → b = b'
  loading : ∀ {b x dim i area blkno nblocks},
    (s.backends b).pc = .loading x dim i area blkno nblocks →
    0 < blkno ∧ (s.slots i).areaHandle = area ∧
      AreaOf codec s x (s.slots i).areaHandle (s.slots i).blocks
  serving : ∀ {i}, (s.slots i).state.serves = true →
    AreaOf codec s (s.slots i).key (s.slots i).areaHandle (s.slots i).blocks
  attached : ∀ {b x h}, (s.backends b).attached x = some h → Mapping codec s x h
  counted : ∀ i, (s.slots i).activeScans = references s i
  held : ∀ {b x i}, (x, i) ∈ (s.backends b).scans →
    ∃ h, (s.backends b).attached x = some h ∧ h.slot = i ∧ stillLive s.slots h = true

theorem stillLive_iff {slots : Fin ccNSlots → Slot} {h : Handle} : stillLive slots h = true ↔
    h.generation = (slots h.slot).generation ∧ (slots h.slot).key = h.key ∧
      (slots h.slot).state.serves = true := by
  simp [stillLive, and_assoc]

theorem Holds.mono {codec : Codec V Q} {world world' : Key → List (Relation V Q)} {x : Key}
    {blocks : Blocks Q} (h : Holds codec world x blocks) (hw : ∀ r ∈ world x, r ∈ world' x) :
    Holds codec world' x blocks := by
  intro blkno off page hit hpage hhit
  obtain ⟨r, hr, he⟩ := h hpage hhit
  exact ⟨r, hw r hr, he⟩

/-! ### What each update leaves alone -/

section Slots
variable (s : State B V Q) (i : Fin ccNSlots) (slot : Slot)

@[simp] theorem backends_setSlot : (s.setSlot i slot).backends = s.backends := rfl

@[simp] theorem slots_setSlot_same : (s.setSlot i slot).slots i = slot := Function.update_self ..

theorem slots_setSlot_ne {j : Fin ccNSlots} (hj : j ≠ i) : (s.setSlot i slot).slots j = s.slots j :=
  Function.update_of_ne hj ..

end Slots

section Updates
variable [DecidableEq B] (s : State B V Q) (b b' : B) (pc : Pc) (x : Key) (h : Handle)

@[simp] theorem slots_goto : (s.goto b pc).slots = s.slots := rfl
@[simp] theorem areas_goto : (s.goto b pc).areas = s.areas := rfl
@[simp] theorem world_goto : (s.goto b pc).world = s.world := rfl
@[simp] theorem slots_setBackend (be : Backend) : (s.setBackend b be).slots = s.slots := rfl
@[simp] theorem slots_forgetAttach : (s.forgetAttach b x).slots = s.slots := rfl
@[simp] theorem slots_attachStore : (s.attachStore b h).slots = s.slots := rfl
@[simp] theorem pc_goto_same : ((s.goto b pc).backends b).pc = pc := by
  simp [State.goto, State.setBackend]

theorem pc_goto_ne (hb : b' ≠ b) : ((s.goto b pc).backends b').pc = (s.backends b').pc := by
  simp [State.goto, State.setBackend, Function.update_of_ne hb]

@[simp] theorem attached_goto :
    ((s.goto b pc).backends b').attached = (s.backends b').attached := by
  by_cases hb : b' = b
  · subst hb
    simp [State.goto, State.setBackend]
  · simp [State.goto, State.setBackend, Function.update_of_ne hb]

@[simp] theorem scans_goto : ((s.goto b pc).backends b').scans = (s.backends b').scans := by
  by_cases hb : b' = b
  · subst hb
    simp [State.goto, State.setBackend]
  · simp [State.goto, State.setBackend, Function.update_of_ne hb]

@[simp] theorem pc_attachStore : ((s.attachStore b h).backends b').pc = (s.backends b').pc := by
  by_cases hb : b' = b
  · subst hb
    simp [State.attachStore, State.setBackend]
  · simp [State.attachStore, State.setBackend, Function.update_of_ne hb]

@[simp] theorem scans_attachStore :
    ((s.attachStore b h).backends b').scans = (s.backends b').scans := by
  by_cases hb : b' = b
  · subst hb
    simp [State.attachStore, State.setBackend]
  · simp [State.attachStore, State.setBackend, Function.update_of_ne hb]

@[simp] theorem pc_forgetAttach : ((s.forgetAttach b x).backends b').pc = (s.backends b').pc := by
  by_cases hb : b' = b
  · subst hb
    simp [State.forgetAttach, State.setBackend]
  · simp [State.forgetAttach, State.setBackend, Function.update_of_ne hb]

@[simp] theorem scans_forgetAttach :
    ((s.forgetAttach b x).backends b').scans = (s.backends b').scans := by
  by_cases hb : b' = b
  · subst hb
    simp [State.forgetAttach, State.setBackend]
  · simp [State.forgetAttach, State.setBackend, Function.update_of_ne hb]

variable {s b b' x h}

theorem attached_attachStore {y : Key} {h' : Handle}
    (hy : ((s.attachStore b h).backends b').attached y = some h') :
    (b' = b ∧ y = h.key ∧ h' = h) ∨ (s.backends b').attached y = some h' := by
  by_cases hb : b' = b
  · subst hb
    simp only [State.attachStore, State.setBackend, Function.update_self] at hy
    by_cases hk : y = h.key
    · subst hk
      rw [Function.update_self] at hy
      exact .inl ⟨rfl, rfl, (Option.some.inj hy).symm⟩
    · rw [Function.update_of_ne hk] at hy
      exact .inr hy
  · simp only [State.attachStore, State.setBackend, Function.update_of_ne hb] at hy
    exact .inr hy

theorem attached_forgetAttach {y : Key} {h' : Handle}
    (hy : ((s.forgetAttach b x).backends b').attached y = some h') :
    (s.backends b').attached y = some h' := by
  by_cases hb : b' = b
  · subst hb
    simp only [State.forgetAttach, State.setBackend, Function.update_self] at hy
    by_cases hk : y = x
    · subst hk
      rw [Function.update_self] at hy
      cases hy
    · rwa [Function.update_of_ne hk] at hy
  · simpa only [State.forgetAttach, State.setBackend, Function.update_of_ne hb] using hy

end Updates

/-! ### The invariant is kept -/

section Kept
variable [DecidableEq B] [Fintype B] {codec : Codec V Q} {s : State B V Q} {b : B}

/-- A backend that loads nothing may move anywhere. -/
theorem Inv.goto (h : Inv codec s) {pc : Pc} (hpc : pc.loader = none)
    (hv : ∀ {x}, pc.index = some x → x.isValid = true) : Inv codec (s.goto b pc) := by
  have hloader : ∀ {b' x i}, ((s.goto b pc).backends b').pc.loader = some (x, i) →
      (s.backends b').pc.loader = some (x, i) := by
    intro b' x i hl
    by_cases hb : b' = b
    · subst hb
      rw [pc_goto_same, hpc] at hl
      cases hl
    · rwa [pc_goto_ne _ _ _ _ hb] at hl
  refine ⟨?_, h.unique, h.claimed, fun hl => h.loader (hloader hl),
    fun hl hl' => h.exclusive (hloader hl) (hloader hl'), ?_, h.serving, ?_, ?_, ?_⟩
  · intro b' x hx
    by_cases hb : b' = b
    · subst hb
      rw [pc_goto_same] at hx
      exact hv hx
    · rw [pc_goto_ne _ _ _ _ hb] at hx
      exact h.valid hx
  · intro b' x dim i area blkno nblocks hb'
    by_cases hb : b' = b
    · subst hb
      rw [pc_goto_same] at hb'
      rw [hb'] at hpc
      cases hpc
    · rw [pc_goto_ne _ _ _ _ hb] at hb'
      exact h.loading hb'
  · intro b' x m hm
    rw [attached_goto] at hm
    exact ⟨(h.attached hm).key, (h.attached hm).area, (h.attached hm).generation,
      (h.attached hm).current⟩
  · intro i
    simpa [references] using h.counted i
  · intro b' x i hx
    rw [scans_goto] at hx
    rw [attached_goto]
    exact h.held hx

/-- A mapping that no open scan uses may be forgotten. -/
theorem Inv.forgetAttach (h : Inv codec s) {x : Key} (hx : ∀ i, (x, i) ∉ (s.backends b).scans) :
    Inv codec (s.forgetAttach b x) := by
  refine ⟨?_, h.unique, h.claimed, ?_, ?_, ?_, h.serving, ?_, ?_, ?_⟩
  · intro b' y hy
    rw [pc_forgetAttach] at hy
    exact h.valid hy
  · intro b' y i hl
    rw [pc_forgetAttach] at hl
    exact h.loader hl
  · intro b₁ b₂ y z i hl hl'
    rw [pc_forgetAttach] at hl hl'
    exact h.exclusive hl hl'
  · intro b' y dim i area blkno nblocks hl
    rw [pc_forgetAttach] at hl
    exact h.loading hl
  · intro b' y m hm
    have := h.attached (attached_forgetAttach hm)
    exact ⟨this.key, this.area, this.generation, this.current⟩
  · intro i
    simpa [references] using h.counted i
  · intro b' y i hy
    rw [scans_forgetAttach] at hy
    obtain ⟨m, hm, hlive⟩ := h.held hy
    refine ⟨m, ?_, hlive⟩
    by_cases hb : b' = b
    · subst hb
      have hne : y ≠ x := fun hyx => hx i (hyx ▸ hy)
      simpa [State.forgetAttach, State.setBackend, Function.update_of_ne hne] using hm
    · simpa [State.forgetAttach, State.setBackend, Function.update_of_ne hb] using hm

/-- A mapping may be stored if the open scans of its index can use it. -/
theorem Inv.attachStore (h : Inv codec s) {m : Handle} (hm : Mapping codec s m.key m)
    (hx : ∀ {i}, (m.key, i) ∈ (s.backends b).scans → m.slot = i ∧ stillLive s.slots m = true) :
    Inv codec (s.attachStore b m) := by
  refine ⟨?_, h.unique, h.claimed, ?_, ?_, ?_, h.serving, ?_, ?_, ?_⟩
  · intro b' y hy
    rw [pc_attachStore] at hy
    exact h.valid hy
  · intro b' y i hl
    rw [pc_attachStore] at hl
    exact h.loader hl
  · intro b₁ b₂ y z i hl hl'
    rw [pc_attachStore] at hl hl'
    exact h.exclusive hl hl'
  · intro b' y dim i area blkno nblocks hl
    rw [pc_attachStore] at hl
    exact h.loading hl
  · intro b' y m' hm'
    rcases attached_attachStore hm' with ⟨-, rfl, rfl⟩ | hm'
    · exact ⟨hm.key, hm.area, hm.generation, hm.current⟩
    · have := h.attached hm'
      exact ⟨this.key, this.area, this.generation, this.current⟩
  · intro i
    simpa [references] using h.counted i
  · intro b' y i hy
    rw [scans_attachStore] at hy
    by_cases hb : b' = b
    · subst hb
      by_cases hk : y = m.key
      · subst hk
        exact ⟨m, by simp [State.attachStore, State.setBackend], hx hy⟩
      · obtain ⟨m', hm', hlive⟩ := h.held hy
        exact ⟨m', by simpa [State.attachStore, State.setBackend, Function.update_of_ne hk] using hm',
          hlive⟩
    · obtain ⟨m', hm', hlive⟩ := h.held hy
      exact ⟨m', by simpa [State.attachStore, State.setBackend, Function.update_of_ne hb] using hm',
        hlive⟩

/-- What a slot may become, as long as the references on it stay. -/
structure Replaces (codec : Codec V Q) (s : State B V Q) (i : Fin ccNSlots) (slot : Slot) : Prop where
  unique : slot.key.isValid = true → ∀ j ≠ i, slot.key ≠ (s.slots j).key
  claimed : slot.state ≠ .empty → slot.key.isValid = true
  loader : ∀ {b x}, (s.backends b).pc.loader = some (x, i) → slot.state = .loading ∧ slot.key = x
  loading : ∀ {b x dim area blkno nblocks},
    (s.backends b).pc = .loading x dim i area blkno nblocks →
    slot.areaHandle = (s.slots i).areaHandle ∧ slot.blocks = (s.slots i).blocks
  serving : slot.state.serves = true → AreaOf codec s slot.key slot.areaHandle slot.blocks
  generation : (s.slots i).generation.toNat < slot.generation.toNat ∨
    slot.generation = (s.slots i).generation ∧ slot.areaHandle = (s.slots i).areaHandle ∧
      slot.blocks = (s.slots i).blocks
  held : ∀ {b x}, (x, i) ∈ (s.backends b).scans → slot.generation = (s.slots i).generation ∧
    slot.key = (s.slots i).key ∧ slot.state.serves = true

omit [DecidableEq B] in
theorem Inv.setSlot (h : Inv codec s) {i : Fin ccNSlots} (slot : Slot) (hr : Replaces codec s i slot)
    (hcount : slot.activeScans = (s.slots i).activeScans) : Inv codec (s.setSlot i slot) := by
  have harea : ∀ {x area dp}, AreaOf codec (s.setSlot i slot) x area dp ↔ AreaOf codec s x area dp :=
    Iff.rfl
  refine ⟨h.valid, ?_, ?_, ?_, h.exclusive, ?_, ?_, ?_, ?_, ?_⟩
  · intro j k hvalid hjk
    by_cases hj : j = i
    · subst hj
      by_cases hk : k = j
      · exact hk.symm
      · rw [slots_setSlot_same] at hvalid hjk
        rw [slots_setSlot_ne _ _ _ hk] at hjk
        exact absurd hjk (hr.unique hvalid k hk)
    · by_cases hk : k = i
      · subst hk
        rw [slots_setSlot_ne _ _ _ hj] at hvalid hjk
        rw [slots_setSlot_same] at hjk
        exact absurd hjk.symm (hr.unique (hjk ▸ hvalid) j hj)
      · rw [slots_setSlot_ne _ _ _ hj] at hvalid hjk
        rw [slots_setSlot_ne _ _ _ hk] at hjk
        exact h.unique hvalid hjk
  · intro j hj
    by_cases hji : j = i
    · subst hji
      rw [slots_setSlot_same] at hj ⊢
      exact hr.claimed hj
    · rw [slots_setSlot_ne _ _ _ hji] at hj ⊢
      exact h.claimed hj
  · intro b x j hl
    by_cases hji : j = i
    · subst hji
      rw [slots_setSlot_same]
      exact hr.loader hl
    · rw [slots_setSlot_ne _ _ _ hji]
      exact h.loader hl
  · intro b x dim j area blkno nblocks hl
    have hloading := h.loading hl
    by_cases hji : j = i
    · subst hji
      obtain ⟨h₁, h₂⟩ := hr.loading hl
      rw [slots_setSlot_same, h₁, h₂, harea]
      exact hloading
    · rw [slots_setSlot_ne _ _ _ hji, harea]
      exact hloading
  · intro j hs
    by_cases hji : j = i
    · subst hji
      rw [slots_setSlot_same] at hs ⊢
      exact hr.serving hs
    · rw [slots_setSlot_ne _ _ _ hji] at hs ⊢
      exact h.serving hs
  · intro b x m hm
    have hmap := h.attached hm
    refine ⟨hmap.key, hmap.area, ?_, ?_⟩
    · by_cases hji : m.slot = i
      · subst hji
        rw [slots_setSlot_same]
        rcases hr.generation with hlt | ⟨heq, -, -⟩
        · exact hmap.generation.trans hlt.le
        · exact heq ▸ hmap.generation
      · rw [slots_setSlot_ne _ _ _ hji]
        exact hmap.generation
    · intro hgen
      by_cases hji : m.slot = i
      · subst hji
        rw [slots_setSlot_same] at hgen ⊢
        rcases hr.generation with hlt | ⟨heq, h₁, h₂⟩
        · -- the generation has moved on
          exact absurd hmap.generation (by rw [hgen]; omega)
        · rw [h₁, h₂]
          exact hmap.current (hgen.trans heq)
      · rw [slots_setSlot_ne _ _ _ hji] at hgen ⊢
        exact hmap.current hgen
  · intro j
    show _ = references s j
    by_cases hji : j = i
    · subst hji
      rw [slots_setSlot_same, hcount, h.counted]
    · rw [slots_setSlot_ne _ _ _ hji, h.counted]
  · intro b x j hx
    obtain ⟨m, hm, hslot, hlive⟩ := h.held hx
    refine ⟨m, hm, hslot, ?_⟩
    rw [stillLive_iff] at hlive ⊢
    by_cases hji : m.slot = i
    · obtain rfl : j = i := hslot.symm.trans hji
      obtain ⟨hgen, hkey, hserves⟩ := hr.held hx
      rw [hji, slots_setSlot_same]
      rw [hji] at hlive
      exact ⟨hlive.1.trans hgen.symm, hkey.trans hlive.2.1, hserves⟩
    · rw [slots_setSlot_ne _ _ _ hji]
      exact hlive

/-- The number of references after a change of one backend. -/
theorem references_setBackend (s : State B V Q) (b : B) (be : Backend) (i : Fin ccNSlots) :
    references (s.setBackend b be) i + (s.backends b).scans.countP (fun p => decide (p.2 = i)) =
      references s i + be.scans.countP fun p => decide (p.2 = i) := by
  unfold references
  rw [← Finset.add_sum_erase Finset.univ _ (Finset.mem_univ b),
    ← Finset.add_sum_erase Finset.univ (fun b => (s.backends b).scans.countP _) (Finset.mem_univ b)]
  have hrest : ∀ b' ∈ Finset.univ.erase b, ((s.setBackend b be).backends b').scans.countP
      (fun p => decide (p.2 = i)) = (s.backends b').scans.countP fun p => decide (p.2 = i) :=
    fun b' hb' => by
      simp only [State.setBackend, Function.update_of_ne (Finset.ne_of_mem_erase hb')]
  rw [Finset.sum_congr rfl hrest]
  simp only [State.setBackend, Function.update_self]
  omega

/-- A backend that loads a slot moves on to where it loads it still, or begins to
load a slot that is LOADING and nobody's. -/
theorem Inv.gotoLoader (h : Inv codec s) {pc : Pc} {x : Key} {i : Fin ccNSlots}
    (hpc : pc.loader = some (x, i)) (hindex : pc.index = none)
    (hstate : (s.slots i).state = .loading ∧ (s.slots i).key = x)
    (hother : ∀ b' ≠ b, ∀ y, (s.backends b').pc.loader ≠ some (y, i))
    (hloading : ∀ {y dim j area blkno nblocks}, pc = .loading y dim j area blkno nblocks →
      0 < blkno ∧ (s.slots j).areaHandle = area ∧
        AreaOf codec s y (s.slots j).areaHandle (s.slots j).blocks) :
    Inv codec (s.goto b pc) := by
  refine ⟨?_, h.unique, h.claimed, ?_, ?_, ?_, h.serving, ?_, ?_, ?_⟩
  · intro b' y hy
    by_cases hb : b' = b
    · subst hb
      rw [pc_goto_same, hindex] at hy
      cases hy
    · rw [pc_goto_ne _ _ _ _ hb] at hy
      exact h.valid hy
  · intro b' y j hl
    by_cases hb : b' = b
    · subst hb
      rw [pc_goto_same, hpc] at hl
      obtain ⟨rfl, rfl⟩ := Prod.mk.inj (Option.some.inj hl)
      exact hstate
    · rw [pc_goto_ne _ _ _ _ hb] at hl
      exact h.loader hl
  · intro b₁ b₂ y z j hl hl'
    by_cases hb₁ : b₁ = b
    · by_cases hb₂ : b₂ = b
      · rw [hb₁, hb₂]
      · rw [hb₁, pc_goto_same, hpc] at hl
        obtain ⟨rfl, rfl⟩ := Prod.mk.inj (Option.some.inj hl)
        rw [pc_goto_ne _ _ _ _ hb₂] at hl'
        exact absurd hl' (hother b₂ hb₂ z)
    · rw [pc_goto_ne _ _ _ _ hb₁] at hl
      by_cases hb₂ : b₂ = b
      · rw [hb₂, pc_goto_same, hpc] at hl'
        obtain ⟨rfl, rfl⟩ := Prod.mk.inj (Option.some.inj hl')
        exact absurd hl (hother b₁ hb₁ y)
      · rw [pc_goto_ne _ _ _ _ hb₂] at hl'
        exact h.exclusive hl hl'
  · intro b' y dim j area blkno nblocks hl
    by_cases hb : b' = b
    · subst hb
      rw [pc_goto_same] at hl
      exact hloading hl
    · rw [pc_goto_ne _ _ _ _ hb] at hl
      exact h.loading hl
  · intro b' y m hm
    rw [attached_goto] at hm
    exact ⟨(h.attached hm).key, (h.attached hm).area, (h.attached hm).generation,
      (h.attached hm).current⟩
  · intro j
    simpa [references] using h.counted j
  · intro b' y j hy
    rw [scans_goto] at hy
    rw [attached_goto]
    exact h.held hy

omit [DecidableEq B] in
/-- Areas and indexes may change as long as areas keep the data of their index. -/
theorem Inv.data (h : Inv codec s) {s' : State B V Q} (hslots : s'.slots = s.slots)
    (hbackends : s'.backends = s.backends)
    (harea : ∀ {x area dp}, AreaOf codec s x area dp → AreaOf codec s' x area dp) :
    Inv codec s' := by
  refine ⟨?_, ?_, ?_, ?_, ?_, ?_, ?_, ?_, ?_, ?_⟩ <;> simp only [hslots, hbackends, references]
  · exact h.valid
  · exact h.unique
  · exact h.claimed
  · exact h.loader
  · exact h.exclusive
  · intro b x dim i area blkno nblocks hl
    obtain ⟨h₁, h₂, h₃⟩ := h.loading hl
    exact ⟨h₁, h₂, harea h₃⟩
  · exact fun hs => harea (h.serving hs)
  · intro b x m hm
    have := h.attached hm
    exact ⟨this.key, harea this.area, hslots ▸ this.generation, hslots ▸ this.current⟩
  · exact h.counted
  · exact h.held

omit [DecidableEq B] in
/-- Scans may begin and end as long as the references are counted and held. -/
theorem Inv.rescan (h : Inv codec s) {s' : State B V Q}
    (hslots : ∀ j, s'.slots j = { s.slots j with activeScans := (s'.slots j).activeScans })
    (hareas : s'.areas = s.areas) (hworld : s'.world = s.world)
    (hpc : ∀ b, (s'.backends b).pc = (s.backends b).pc)
    (hattached : ∀ {b x m}, (s'.backends b).attached x = some m → Mapping codec s x m)
    (hcounted : ∀ i, (s'.slots i).activeScans = references s' i)
    (hheld : ∀ {b x i}, (x, i) ∈ (s'.backends b).scans →
      ∃ m, (s'.backends b).attached x = some m ∧ m.slot = i ∧ stillLive s.slots m = true) :
    Inv codec s' := by
  have hkey : ∀ j, (s'.slots j).key = (s.slots j).key := fun j => by rw [hslots]
  have hstate : ∀ j, (s'.slots j).state = (s.slots j).state := fun j => by rw [hslots]
  have hgen : ∀ j, (s'.slots j).generation = (s.slots j).generation := fun j => by rw [hslots]
  have hhandle : ∀ j, (s'.slots j).areaHandle = (s.slots j).areaHandle := fun j => by rw [hslots]
  have hblocks : ∀ j, (s'.slots j).blocks = (s.slots j).blocks := fun j => by rw [hslots]
  have harea : ∀ {x area dp}, AreaOf codec s x area dp → AreaOf codec s' x area dp :=
    fun ⟨a, ha, hx, hdp, hne, hh⟩ => ⟨a, hareas ▸ ha, hx, hdp, hne, hworld ▸ hh⟩
  refine ⟨?_, ?_, ?_, ?_, ?_, ?_, ?_, ?_, hcounted, ?_⟩
  · intro b x hx
    rw [hpc] at hx
    exact h.valid hx
  · intro i j hvalid hij
    rw [hkey] at hvalid hij
    rw [hkey] at hij
    exact h.unique hvalid hij
  · intro i hi
    rw [hstate] at hi
    rw [hkey]
    exact h.claimed hi
  · intro b x i hl
    rw [hpc] at hl
    rw [hstate, hkey]
    exact h.loader hl
  · intro b b' x y i hl hl'
    rw [hpc] at hl hl'
    exact h.exclusive hl hl'
  · intro b x dim i area blkno nblocks hl
    rw [hpc] at hl
    rw [hhandle, hblocks]
    obtain ⟨h₁, h₂, h₃⟩ := h.loading hl
    exact ⟨h₁, h₂, harea h₃⟩
  · intro i hi
    rw [hstate] at hi
    rw [hkey, hhandle, hblocks]
    exact harea (h.serving hi)
  · intro b x m hm
    have := hattached hm
    refine ⟨this.key, harea this.area, ?_, ?_⟩
    · rw [hgen]
      exact this.generation
    · rw [hgen, hhandle, hblocks]
      exact this.current
  · intro b x i hx
    obtain ⟨m, hm, hslot, hlive⟩ := hheld hx
    refine ⟨m, hm, hslot, ?_⟩
    rw [stillLive_iff] at hlive ⊢
    rw [hgen, hkey, hstate]
    exact hlive

end Kept

end PgAcorn.CodeCache
