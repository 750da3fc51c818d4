import PgAcorn.SharedCache.Directory
import PgAcorn.SharedCache.Pins

/-! What `acorn_cc_retire` and `acorn_cc_drain_retired` free.

Retired arrays wait on the slot and are freed through the handle of whoever drains
them. Where a drain at the end of a scan finds arrays only in the incarnation that its
handle is attached to, every array is freed once and in its own area (`frees_own`);
`frees_in_stale_area` is a scan that ends in a later incarnation. -/
namespace PgAcorn.SharedCache
open Library
open CodeCache (Key ccNSlots ccDirGrow SlotState Codec CachePage indexX firstSlot plainCodec)

section
variable {B V Q : Type}

/-! ### Frees -/

/-- Some arrays may be freed through a handle for a slot: the handle is attached to the
slot's incarnation, and the arrays are different blocks of its area, none of them freed. -/
structure Frees (m : Memory B V Q) (h : Handle) (i : Fin ccNSlots) (dps : List Nat) : Prop where
  mapped : h.mapped
  area : h.area = (m.slots i).areaHandle
  generation : h.generation = (m.slots i).generation
  nodup : dps.Nodup
  live : ∀ dp ∈ dps, ∃ arena, m.arena? h.area = some arena ∧ (arena.get? dp).isSome

/-- **Arrays are freed once, in their own area**: whatever a backend is about to free. -/
structure FreesOwn (s : State B V Q) : Prop where
  retire : ∀ {b w g added dp size}, (s.backends b).pc = .grow w g added (some (dp, size)) .free →
    Frees s.memory ((s.backends b).handles w.cc) ((s.backends b).slotFor w) [dp]
  drain : ∀ {b k i cc}, (s.backends b).pc = .drain k i cc .free →
    Frees s.memory ((s.backends b).handles cc) i (s.memory.slots i).retired

/-- A scan that ends finds retired arrays only in the incarnation its handle is attached
to, and generations have not come round. -/
def drainsOwn (s : State B V Q) (a : Action B V Q) : Bool :=
  genuine s a && match a with
    | .proceed b _ => match (s.backends b).pc with
      | .drain (.release _) i cc .check =>
        let h := (s.backends b).handles cc
        let slot := s.memory.slots i
        slot.retired.isEmpty || slot.activeScans != 0 ||
          h.mapped && h.area == slot.areaHandle && h.generation == slot.generation
      | _ => true
    | _ => true

/-! ### What a backend has in hand -/

/-- The load with a published directory. -/
def LoadPc.stored? : LoadPc → Option Load
  | .storeNblocks l | .readOther l | .page l .. | .publishPage l .. => some l
  | _ => none

/-- The slot a backend loads or grows, its directory, and the array in hand: a page
that is not published yet, or what a growth has not given away. -/
def Backend.hand (m : Memory B V Q) (be : Backend Q) : Option (Fin ccNSlots × Nat × Multiset Nat) :=
  match be.pc with
  | .load _ i p => match p with
    | .start | .create _ => none
    | .storeBlocks l => some (i, l.blocksDp, 0)
    | .publishPage _ _ _ _ _ dp => some (i, (m.slots i).blocks, {dp})
    | _ => some (i, (m.slots i).blocks, 0)
  | .grow w _ _ (some (dp, _)) p => match p with
    | .subBytes | .subTotal => none
    | _ => some (be.slotFor w, (m.slots (be.slotFor w)).blocks, {dp})
  | _ => none

/-- The directory an insert knows. -/
def Backend.newest (be : Backend Q) (w : Insert Q) : Nat :=
  match be.pc with
  | .grow _ (.dir dp _) _ _ _ => dp
  | _ => (be.handles w.cc).blocksDp

/-- The insert that is about to replace a page array, and the array. -/
def Pc.target : Pc Q → Option (Insert Q × Nat)
  | .insert w (.growPage old) | .drain (.growPage w old) _ _ _ => some (w, old)
  | _ => none

/-- What a backend knows of the arrays of its slot. -/
structure Informed (m : Memory B V Q) (be : Backend Q) : Prop where
  loading : ∀ {q i p l}, be.pc = .load q i p → p.stored? = some l → (m.slots i).blocks = l.blocksDp
  working : ∀ {w}, be.pc.works = some w → be.newest w = (m.slots (be.slotFor w)).blocks
  target : ∀ {w old}, be.pc.target = some (w, old) → HasEntry m (be.slotFor w) w.t.blkno old
  draining : ∀ {k i cc}, be.pc = .drain k i cc .free → (m.slots i).state.serves ∧
    (be.handles cc).mapped ∧ (be.handles cc).area = (m.slots i).areaHandle ∧
      (be.handles cc).generation = (m.slots i).generation

/-- **Ownership**: what is served, loaded or grown owns its arrays, and only what is
served, or about to be cleared, has retired ones. -/
structure Ownership (s : State B V Q) : Prop where
  served : ∀ {i}, (s.memory.slots i).state.serves → Owned s.memory i (s.memory.slots i).blocks 0
  held : ∀ {b i blocks x}, (s.backends b).hand s.memory = some (i, blocks, x) →
    Owned s.memory i blocks x
  informed : ∀ b, Informed s.memory (s.backends b)
  retired : ∀ {i}, (s.memory.slots i).retired ≠ [] → (s.memory.slots i).state.serves ∨
    ∃ b e v, (s.backends b).pc = .evict e (.clear v) ∧ v.slot = i

/-! ### Ownership gives the property -/

variable {s : State B V Q}

theorem Owned.live {m : Memory B V Q} {i : Fin ccNSlots} {blocks : Nat} {x : Multiset Nat} {k : Nat}
    (h : Owned m i blocks x) (hk : k = (m.slots i).areaHandle) {D : List Nat}
    (hle : (D : Multiset Nat) ≤ ((m.slots i).retired : Multiset Nat) + x) :
    D.Nodup ∧ ∀ dp ∈ D, ∃ arena, m.arena? k = some arena ∧ (arena.get? dp).isSome := by
  obtain ⟨arena, entries, harena, hdir⟩ := h
  have hdir' := hdir.weaken hle
  have hnodup := (Multiset.nodup_cons.mp hdir'.nodup).2
  refine ⟨Multiset.coe_nodup.mp (Multiset.nodup_of_le (Multiset.le_add_left _ _) hnodup),
    fun dp hdp => ⟨arena, ?_, ?_⟩⟩
  · rw [hk]
    exact harena
  · exact hdir'.live dp (Multiset.mem_add.mpr (.inr (Multiset.mem_coe.mpr hdp)))

theorem Ownership.freesOwn (h : Ownership s) (hstanding : Standing s)
    (hwriters : Writers s) : FreesOwn s where
  retire {b w g added dp size} hpc := by
    have hpresent := hwriters.present (b := b) (w := w) (by rw [hpc]; rfl)
    have hfind : (s.backends b).attachFind w.key = some w.cc :=
      (hstanding.placed b).uses (by rw [hpc]; rfl)
    have howned := h.held (b := b) (by rw [Backend.hand, hpc])
    obtain ⟨hnodup, hlive⟩ := howned.live hpresent.areaHandle.symm (D := [dp])
      (Multiset.le_add_left _ _)
    exact ⟨((hstanding.placed b).table.entry (mem_of_attachFind hfind)).2.1,
      hpresent.areaHandle.symm, hpresent.generation.symm, hnodup, hlive⟩
  drain {b k i cc} hpc := by
    obtain ⟨hserves, hmapped, harea, hgeneration⟩ := (h.informed b).draining hpc
    obtain ⟨hnodup, hlive⟩ := (h.served hserves).live harea (Multiset.le_add_right _ _)
    exact ⟨hmapped, harea, hgeneration, hnodup, hlive⟩

/-! ### Steps on the slot a backend works on -/

variable {m m' : Memory B V Q} {b : B} {be be' : Backend Q} {codec : Codec V Q} {i : Fin ccNSlots}
  {blocks : Nat} {x : Multiset Nat}

/-- What the backend that moves has before its step. -/
structure Owner (m : Memory B V Q) (be : Backend Q) : Prop where
  served : ∀ {i}, (m.slots i).state.serves → Owned m i (m.slots i).blocks 0
  held : ∀ {i blocks x}, be.hand m = some (i, blocks, x) → Owned m i blocks x
  informed : Informed m be
  present : ∀ {w}, be.pc.works = some w → Present m (be.handles w.cc)
  loads : ∀ {q i p l}, be.pc = .load q i p → p.load? = some l → (m.slots i).areaHandle = l.area
  fresh : ∀ {q i n}, be.pc = .load q i (.create n) → m.dirLock.free → (m.slots i).retired = []

theorem hand_of_builds (h : be.pc.builds = false) : be.hand m = none := by
  unfold Backend.hand
  cases hpc : be.pc with
  | load q i p => cases p <;> first | rfl | (rw [hpc] at h; cases h)
  | grow w g added old p =>
    rw [hpc] at h
    cases h
  | _ => rfl

theorem slotFor_goto (w : Insert Q) (pc : Pc Q) : (be.goto pc).slotFor w = be.slotFor w := rfl

theorem hand_grown (w : Insert Q) (g : Growth) : (be.grown w g).hand m = none := by
  cases g <;> rfl

/-- The arrays of a slot are as they were. -/
theorem Owned.congr (h : Owned m i blocks x)
    (hslot : (m'.slots i).areaHandle = (m.slots i).areaHandle ∧
      (m'.slots i).retired = (m.slots i).retired)
    (harena : ∀ k, m'.arena? k = m.arena? k) : Owned m' i blocks x := by
  obtain ⟨arena, entries, hmem, hdir⟩ := h
  refine ⟨arena, entries, ?_, ?_⟩
  · rw [harena, hslot.1]
    exact hmem
  · rw [hslot.2]
    exact hdir

/-- Another record of the slot, with the same arrays. -/
theorem Owned.setSlot (h : Owned m i blocks x) {j : Fin ccNSlots} {slot : Slot B}
    (harea : slot.areaHandle = (m.slots j).areaHandle) (hretired : slot.retired = (m.slots j).retired) :
    Owned (m.setSlot j slot) i blocks x :=
  h.congr ⟨setSlot_congr Slot.areaHandle harea i, setSlot_congr Slot.retired hretired i⟩ fun _ => rfl

/-- A change of the slot's arena. -/
theorem Owned.modifyArena {k : Nat} {f : Arena (CacheArray Q) → Arena (CacheArray Q)}
    {blocks' : Nat} {x' : Multiset Nat} (h : Owned m i blocks x) (hk : (m.slots i).areaHandle = k)
    (hf : ∀ {arena entries}, m.arena? k = some arena →
      Directory arena blocks entries (((m.slots i).retired : Multiset Nat) + x) →
      ∃ entries', Directory (f arena) blocks' entries' (((m.slots i).retired : Multiset Nat) + x')) :
    Owned (m.modifyArena k f) i blocks' x' := by
  obtain ⟨arena, entries, hmem, hdir⟩ := h
  rw [hk] at hmem
  obtain ⟨entries', hdir'⟩ := hf hmem hdir
  refine ⟨f arena, entries', ?_, hdir'⟩
  change (m.modifyArena k f).arena? (m.slots i).areaHandle = _
  rw [arena?_modifyArena, hk, if_pos rfl, hmem]
  rfl

theorem add_zero_hand (l : Multiset Nat) (p : Nat) : p ::ₘ (l + 0) = l + {p} := by
  rw [add_zero, add_comm, Multiset.singleton_add]

theorem nextDp_of_arena? {k : Nat} {arena : Arena (CacheArray Q)} (h : m.arena? k = some arena) :
    m.nextDp k = arena.next := by
  obtain ⟨a, ha, rfl⟩ := Option.map_eq_some_iff.mp h
  rw [Memory.nextDp, ha]
  rfl

theorem pages_extendDir_le (entries : List Nat) (old n : Nat) :
    pages (extendDir entries old n) ≤ pages entries := by
  rw [extendDir, pages_append, pages_replicate, add_zero]
  exact pages_take_le entries old

/-- What a handle's area has is what the slot's arena has. -/
theorem Present.arena? {h : Handle} (hp : Present m h) {a : Area Q} (harea : m.areaOf h = some a) :
    m.arena? (m.slots h.slot).areaHandle = some a.arena := by
  unfold Memory.areaOf at harea
  split at harea
  · rw [hp.areaHandle, Memory.arena?, harea]
    rfl
  · cases harea

/-- A directory is replaced by a larger one. -/
theorem growDir_owned {w : Insert Q} {a : Area Q} {entries : List Nat} {n : Nat}
    (howned : Owned m (be.slotFor w) (m.slots (be.slotFor w)).blocks 0)
    (hp : Present m (be.handles w.cc)) (harea : m.areaOf (be.handles w.cc) = some a)
    (hdir : a.dir? (m.slots (be.slotFor w)).blocks = some entries) :
    Owned ((m.modifyArena (be.handles w.cc).area fun arena =>
        arena.allocate (.dir (extendDir entries (m.slots (be.slotFor w)).nblocks n))).setSlot
          (be.slotFor w) { m.slots (be.slotFor w) with blocks := a.arena.next })
      (be.slotFor w) a.arena.next {(m.slots (be.slotFor w)).blocks} := by
  have hgrown : Owned (m.modifyArena (be.handles w.cc).area fun arena =>
      arena.allocate (.dir (extendDir entries (m.slots (be.slotFor w)).nblocks n)))
      (be.slotFor w) a.arena.next {(m.slots (be.slotFor w)).blocks} := by
    refine howned.modifyArena hp.areaHandle fun {arena entries'} harena hold => ?_
    have hsame := hp.arena? harea
    rw [hp.areaHandle, harena] at hsame
    obtain rfl := Option.some.inj hsame
    have hentries : entries' = entries := by
      rw [Area.dir?, hold.dir] at hdir
      exact Option.some.inj hdir
    subst hentries
    rw [← add_zero_hand]
    exact ⟨_, hold.grow (pages_extendDir_le _ _ _)⟩
  exact hgrown.setSlot rfl rfl

/-- A page array is published over another one, or over none. -/
theorem Owner.publishArray (ho : Owner m be) {w : Insert Q} {old : Nat} {entries : CachePage Q}
    (hworks : be.pc.works = some w) (htarget : be.pc.target = some (w, old))
    (hgrow : ∀ g a o p, be.pc ≠ .grow w g a o p) :
    Owned (publishArray m be w entries) (be.slotFor w) (m.slots (be.slotFor w)).blocks
      (someArray old) := by
  have hp := ho.present hworks
  have hnewest := ho.informed.working hworks
  have hsnapshot : (be.handles w.cc).blocksDp = (m.slots (be.slotFor w)).blocks := by
    rw [← hnewest]
    unfold Backend.newest
    cases hpc : be.pc with
    | grow w' g a o p =>
      rw [hpc] at hworks
      cases hworks
      exact absurd hpc (hgrow g a o p)
    | _ => rfl
  obtain ⟨arena', entries', harena', hdir', hentry⟩ := ho.informed.target htarget
  refine (ho.served hp.serves).modifyArena hp.areaHandle fun {arena entries''} harena hdir => ?_
  change m.arena? (m.slots (be.handles w.cc).slot).areaHandle = _ at harena'
  rw [hp.areaHandle, harena] at harena'
  obtain rfl := Option.some.inj harena'
  have hentries : entries' = entries'' := by
    have heq := hdir'.symm.trans hdir.dir
    injection heq with heq
    injection heq
  subst hentries
  have hnext := hdir.allocate (.page (extendPage entries (ccPageGrow w.t.offno)))
  rw [hsnapshot]
  have hreplaced := hnext.replace (hnext.ne_zero (Multiset.mem_cons_self _ _)) hentry
  rw [add_zero, add_comm (someArray old)] at hreplaced
  exact ⟨_, hreplaced⟩

/-- A load creates its area while nobody has the directory. -/
theorem Registers.create_dir {c : Choice} {pc' : Pc Q} (hreg : Registers m be c m' pc')
    {q : BeginScan} {n : Nat} {l : Load} (hpc : be.pc = .load q i (.create n))
    (hpc' : pc' = .load q i (.storeBlocks l)) : m.dirLock.free := by
  cases hreg with
  | create _ _ _ _ _ _ hdir => exact hdir
  | same _ hplace =>
    rw [hpc, hpc'] at hplace
    obtain hplace | hplace := hplace <;> cases hplace
  | lose _ _ _ _ h =>
    rw [hpc'] at h
    cases h
  | name _ _ h | claim _ _ h | publish _ _ _ _ h | pick _ _ h | empty _ _ h | clear _ _ h
  | dropPin _ _ h | losePin _ _ h =>
    rw [hpc] at h
    cases h

/-- **What the backend has in hand after its step.** -/
theorem Builds.hands {c : Choice} (h : Builds codec m be m' be') (ho : Owner m be)
    (hreg : Registers m be c m' be'.pc) (hx : be'.hand m' = some (i, blocks, x)) : Owned m' i blocks x := by
  cases h with
  | same _ _ hpc' =>
    rw [hand_of_builds hpc'] at hx
    cases hx
  | lose _ _ _ _ _ hbe | strand _ _ _ _ _ hbe | mark _ _ _ _ hbe | clear _ _ _ _ hbe
  | clearNblocks _ _ _ _ hbe | clearBlocks _ _ _ _ hbe | clearTotal _ _ _ _ hbe
  | newPage _ _ _ _ _ hbe | write _ _ _ _ _ _ hbe | free _ _ _ _ _ _ _ hbe
  | shrinkBytes _ _ _ _ _ _ _ hbe | clearHit _ _ _ _ _ _ _ _ hbe | retire _ _ _ _ _ _ _ _ hbe =>
    subst hbe
    cases hx
  | publish _ _ _ error _ _ hbe =>
    subst hbe
    cases error <;> cases hx
  | create q j n hpc hm hbe =>
    have hdir := hreg.create_dir hpc (l := _) (by rw [hbe]; rfl)
    subst hbe hm
    cases hx
    refine ⟨Arena.empty.allocate (.dir (List.replicate (ccDirGrow n) 0)),
      List.replicate (ccDirGrow n) 0, ?_, ?_⟩
    · rw [setSlot_self]
      simp only [Memory.arena?, Memory.setSlot, List.getElem?_concat_length, Option.map_some]
      rfl
    · rw [setSlot_self, ho.fresh hpc hdir]
      exact Directory.create _
  | loadBlocks q j l hpc hm hbe =>
    subst hbe hm
    cases hx
    have hheld : Owned m i l.blocksDp 0 := ho.held (by rw [Backend.hand, hpc])
    rw [setSlot_self]
    exact hheld.setSlot rfl rfl
  | loadNblocks q j l _ be₁ hpc hstore hm hbe =>
    subst hbe hm
    cases hx
    have hheld : Owned m i (m.slots i).blocks 0 := ho.held (by rw [Backend.hand, hpc])
    rw [setSlot_self]
    exact hheld.setSlot rfl rfl
  | readOther q j l hpc hm hbe =>
    subst hbe hm
    cases hx
    exact ho.held (by rw [Backend.hand, hpc])
  | skipPage q j l _ _ _ _ hpc _ _ hm hbe =>
    subst hbe hm
    cases hx
    exact ho.held (by rw [Backend.hand, hpc])
  | loadPage q j l other blkno bytes nelems page hpc _ _ _ hm hbe =>
    subst hbe hm
    cases hx
    have hheld : Owned m i (m.slots i).blocks 0 := ho.held (by rw [Backend.hand, hpc])
    refine hheld.modifyArena (ho.loads hpc rfl) fun {arena entries} harena hdir =>
      ⟨entries, ?_⟩
    rw [nextDp_of_arena? harena, ← add_zero_hand]
    exact hdir.allocate _
  | publishPage q j l other blkno bytes nelems dp hpc hm hbe =>
    subst hbe hm
    cases hx
    have hheld : Owned m i (m.slots i).blocks {dp} := ho.held (by rw [Backend.hand, hpc])
    refine hheld.modifyArena (ho.loads hpc rfl) fun _ hdir => ?_
    rw [← add_zero_hand] at hdir
    rw [← ho.informed.loading hpc rfl]
    exact ⟨_, hdir.publish (hdir.ne_zero (Multiset.mem_cons_self _ _))⟩
  | loaded q j l _ _ _ _ _ _ hpc hm hbe =>
    subst hbe hm
    cases hx
    exact ho.held (by rw [Backend.hand, hpc])
  | loadBytes q j _ _ _ _ hpc hm hbe =>
    subst hbe hm
    cases hx
    have hheld : Owned m i (m.slots i).blocks 0 := ho.held (by rw [Backend.hand, hpc])
    rw [setSlot_self]
    exact hheld.setSlot rfl rfl
  | loadTotal q j _ _ _ hpc hm hbe =>
    subst hbe hm
    cases hx
    exact (ho.held (by rw [Backend.hand, hpc])).congr ⟨rfl, rfl⟩ fun _ => rfl
  | reclaim d j cc hpc _ hm hbe =>
    subst hbe
    cases d with
    | release k => cases k <;> cases hx
    | growDir | growPage => cases hx
  | growDir w a entries hpc harea hdir hm hbe =>
    subst hbe hm
    cases hx
    have hp := ho.present (w := w) (by rw [hpc]; rfl)
    simp only [slotFor_goto, setSlot_self]
    exact growDir_owned (ho.served hp.serves) hp harea hdir
  | growPage w old a entries hpc hold harea hpage hm hbe =>
    subst hbe hm
    cases hx
    rw [← someArray_of_ne hold]
    exact ho.publishArray (by rw [hpc]; rfl) (by rw [hpc]; rfl) (by intro g a o p h; rw [hpc] at h; cases h)
  | growNblocks w dp n added old hpc hm hbe =>
    subst hbe hm
    cases old with
    | none => cases hx
    | some old =>
      cases hx
      have hheld : Owned m (be.slotFor w) (m.slots (be.slotFor w)).blocks {old.1} :=
        ho.held (by rw [Backend.hand, hpc])
      simp only [slotFor_goto, setSlot_self]
      exact hheld.setSlot rfl rfl
  | growBytes w g added old hpc hm hbe =>
    subst hbe hm
    cases old with
    | none => cases hx
    | some old =>
      cases hx
      have hheld : Owned m (be.slotFor w) (m.slots (be.slotFor w)).blocks {old.1} :=
        ho.held (by rw [Backend.hand, hpc])
      simp only [slotFor_goto, setSlot_self]
      exact hheld.setSlot rfl rfl
  | growTotal w g added old hpc hm hbe =>
    subst hbe hm
    cases old with
    | none =>
      rw [if_neg (by simp), hand_grown] at hx
      cases hx
    | some old =>
      cases hx
      have hheld : Owned m (be.slotFor w) (m.slots (be.slotFor w)).blocks {old.1} :=
        ho.held (by rw [Backend.hand, hpc])
      exact hheld.congr ⟨rfl, rfl⟩ fun _ => rfl
  | quiesced w g added dp size hpc hactive hm hbe =>
    subst hbe hm
    cases hx
    exact ho.held (by rw [Backend.hand, hpc]; rfl)
  | shrinkTotal w g added dp size hpc hm hbe =>
    subst hbe
    rw [hand_grown] at hx
    cases hx

/-- What is served after a step was so before, or has just been loaded. -/
theorem Registers.served_before {c : Choice} {pc' : Pc Q} (hreg : Registers m be c m' pc')
    (hserves : (m'.slots i).state.serves) (hpc : ∀ q final error,
      be.pc ≠ .load q i (.storeState final error)) : (m.slots i).state.serves := by
  obtain hsame | ⟨-, hloading⟩ | ⟨q, final, error, hload, -⟩ | ⟨e, v, -, -, hempty⟩ :=
    hreg.state_cases i
  · rwa [hsame] at hserves
  · rw [hloading] at hserves
    cases hserves
  · exact absurd hload (hpc q final error)
  · rw [hempty] at hserves
    cases hserves

/-- **The slot a backend works on after its step**, if it is served. -/
theorem Builds.serves {c : Choice} (h : Builds codec m be m' be') (ho : Owner m be)
    (hreg : Registers m be c m' be'.pc) (hat : At m b be) (htouches : be.touches = some i)
    (hserves : (m'.slots i).state.serves) : Owned m' i (m'.slots i).blocks 0 := by
  have hbefore := hreg.served_before hserves
  -- a slot that is being loaded or cleared is not served
  have hload : ∀ {q p}, be.pc = .load q i p → (∀ final error, p ≠ .storeState final error) → False := by
    intro q p hpc hp
    have hold := hbefore (by
      intro q' final error hpc'
      rw [hpc] at hpc'
      cases hpc'
      exact hp _ _ rfl)
    rw [hat.loads (by rw [hpc]; rfl)] at hold
    cases hold
  have hclear : ∀ {e p v}, be.pc = .evict e p → be.pc.clears = some v → v = i → False := by
    intro e p v hpc hclears hv
    have hold := hbefore (by intro q final error h; rw [hpc] at h; cases h)
    rw [hv] at hclears
    rw [hat.clears hclears] at hold
    cases hold
  have howned : be.pc.builds = false ∨ (∃ w, be.pc.works = some w) →
      Owned m i (m.slots i).blocks 0 := by
    intro hpc
    apply ho.served
    apply hbefore
    intro q final error hpc'
    rw [hpc'] at hpc
    obtain hpc | ⟨w, hpc⟩ := hpc <;> cases hpc
  cases h with
  | same hs hpc hpc' =>
    have hold := howned (.inl hpc)
    rw [hs.blocks]
    refine hold.congr ⟨hreg.areaHandle fun q n hpc => ?_, hs.retired i⟩ hs.arena?
    exact hload hpc (fun _ _ h => by cases h)
  | lose q j n hpc | create q j n hpc | loadBlocks q j l hpc | loadNblocks q j l _ _ hpc
  | strand q j l hpc
  | readOther q j l hpc | skipPage q j l _ _ _ _ hpc | loadPage q j l _ _ _ _ _ hpc
  | publishPage q j l _ _ _ _ _ hpc | loaded q j l _ _ _ _ _ _ hpc | loadBytes q j _ _ _ _ hpc
  | loadTotal q j _ _ _ hpc =>
    rw [Backend.touches, hpc] at htouches
    cases htouches
    exact (hload hpc (fun _ _ h => by cases h)).elim
  | publish q j final error hpc hm hbe =>
    rw [Backend.touches, hpc] at htouches
    cases htouches
    subst hm
    have hheld : Owned m i (m.slots i).blocks 0 := ho.held (by rw [Backend.hand, hpc])
    rw [setSlot_self]
    exact hheld.setSlot rfl rfl
  | clear e v hpc | clearNblocks e v hpc | clearBlocks e v hpc =>
    rw [Backend.touches, hpc] at htouches
    cases htouches
    exact (hclear hpc (by rw [hpc]; rfl) rfl).elim
  | mark e v hpc | clearTotal e v hpc =>
    rw [Backend.touches, hpc] at htouches
    cases htouches
  | write w dp _ hpc | clearHit x t cc dp _ hpc =>
    rw [Backend.touches, hpc] at htouches
    cases htouches
  | reclaim d j cc hpc hmapped hm hbe =>
    have hold := howned (.inl (by rw [hpc]; rfl))
    rw [Backend.touches, hpc] at htouches
    cases htouches
    obtain ⟨-, -, harea, -⟩ := ho.informed.draining hpc
    obtain ⟨arena, entries, hmem, hdir⟩ := hold
    -- what is left in the slot and its arena
    have hfreed : Owned ((m.modifyArena (be.handles cc).area fun arena =>
        arena.freeAll (m.slots i).retired).setSlot i { m.slots i with retired := [] }) i
        (m.slots i).blocks 0 := by
      refine ⟨arena.freeAll (m.slots i).retired, entries, ?_, ?_⟩
      · rw [setSlot_self]
        change (m.modifyArena (be.handles cc).area fun arena =>
          arena.freeAll (m.slots i).retired).arena? (m.slots i).areaHandle = _
        rw [arena?_modifyArena, if_pos harea, hmem]
        rfl
      · rw [setSlot_self]
        exact hdir.freeAll
    subst hm
    cases d with
    | release k =>
      have hblocks : ((drained ((m.modifyArena (be.handles cc).area fun arena =>
          arena.freeAll (m.slots i).retired).setSlot i { m.slots i with retired := [] }) be i
          (.release k)).1.slots i).blocks = (m.slots i).blocks := by
        dsimp only [drained, Memory.unlock]
        rw [setSlot_self, setSlot_self]
      rw [hblocks]
      exact hfreed.setSlot rfl rfl
    | growDir w | growPage w old =>
      dsimp only [drained]
      rw [setSlot_self]
      exact hfreed
  | growDir w a entries hpc harea hdir hm hbe =>
    rw [Backend.touches, hpc] at htouches
    cases htouches
    subst hm
    have hp := ho.present (w := w) (by rw [hpc]; rfl)
    rw [setSlot_self]
    exact (growDir_owned (ho.served hp.serves) hp harea hdir).weaken (Multiset.zero_le _)
  | newPage w a hpc harea hm hbe =>
    rw [Backend.touches, hpc] at htouches
    cases htouches
    subst hm
    have htarget : be.pc.target = some (w, 0) := by
      rw [hpc]
      rfl
    exact ho.publishArray (by rw [hpc]; rfl) htarget (by intro g a o p h; rw [hpc] at h; cases h)
  | growPage w old a entries hpc hold harea hpage hm hbe =>
    rw [Backend.touches, hpc] at htouches
    cases htouches
    subst hm
    exact (ho.publishArray (by rw [hpc]; rfl) (by rw [hpc]; rfl)
      (by intro g a o p h; rw [hpc] at h; cases h)).weaken (Multiset.zero_le _)
  | growNblocks w _ _ _ _ hpc hm | growBytes w _ _ _ hpc hm | shrinkBytes w _ _ _ _ hpc hm =>
    have hold := howned (.inr ⟨w, by rw [hpc]; rfl⟩)
    rw [Backend.touches, hpc] at htouches
    cases htouches
    subst hm
    rw [setSlot_self]
    exact hold.setSlot rfl rfl
  | growTotal w _ _ _ hpc hm | quiesced w _ _ _ _ hpc _ hm | shrinkTotal w _ _ _ _ hpc hm =>
    have hold := howned (.inr ⟨w, by rw [hpc]; rfl⟩)
    subst hm
    exact hold.congr ⟨rfl, rfl⟩ fun _ => rfl
  | retire w g added dp size hpc hactive hm hbe =>
    have hheld : Owned m (be.slotFor w) (m.slots (be.slotFor w)).blocks {dp} :=
      ho.held (by rw [Backend.hand, hpc])
    rw [Backend.touches, hpc] at htouches
    cases htouches
    split at hm
    · subst hm
      obtain ⟨arena, entries, hmem, hdir⟩ := hheld
      rw [setSlot_self]
      refine ⟨arena, entries, ?_, ?_⟩
      · rw [setSlot_self]
        exact hmem
      · rw [setSlot_self, ← Multiset.coe_add, add_zero]
        exact hdir
    · subst hm
      exact hheld.weaken (Multiset.zero_le _)
  | free w g added dp size hpc hm hbe =>
    have hheld : Owned m (be.slotFor w) (m.slots (be.slotFor w)).blocks {dp} :=
      ho.held (by rw [Backend.hand, hpc])
    rw [Backend.touches, hpc] at htouches
    cases htouches
    subst hm
    have hp := ho.present (w := w) (by rw [hpc]; rfl)
    refine hheld.modifyArena hp.areaHandle fun _ hdir => ?_
    rw [← add_zero_hand] at hdir
    exact ⟨_, hdir.free⟩

/-! ### Other backends -/

variable {s s' : State B V Q} {b' : B}

/-- A backend counts on the arrays of a slot. -/
def Backend.Minds (be : Backend Q) (i : Fin ccNSlots) : Prop :=
  be.pc.recorded = some i ∨ (∃ w, be.pc.works = some w ∧ be.slotFor w = i) ∨
    ∃ k cc, be.pc = .drain k i cc .free

theorem Ownership.minds (h : Ownership s) (hord : Ordered s) (hwriters : Writers s)
    (hi : (s.backends b).Minds i) : (s.backends b).pc.recorded = some i ∨
      (s.backends b).locks = some i ∧ (s.memory.slots i).state.serves := by
  obtain hi | ⟨w, hw, rfl⟩ | ⟨k, cc, hpc⟩ := hi
  · exact .inl hi
  · exact .inr ⟨Backend.locks_of_works (hord.at_ b).drains hw, (hwriters.present hw).serves⟩
  · exact .inr ⟨by rw [Backend.locks, hpc], ((h.informed b).draining hpc).1⟩

theorem Ownership.touches (h : Ownership s) (hord : Ordered s) (hwriters : Writers s)
    (hi : (s.backends b).touches = some i) : (s.backends b).pc.loads = some i ∨
      (s.backends b).locks = some i ∧
        ((s.backends b).pc.clears = some i ∨ (s.memory.slots i).state.serves) := by
  have hworks : ∀ {w}, (s.backends b).pc.works = some w → (s.backends b).slotFor w = i →
      (s.backends b).locks = some i ∧ (s.memory.slots i).state.serves := by
    rintro w hw rfl
    exact ⟨Backend.locks_of_works (hord.at_ b).drains hw, (hwriters.present hw).serves⟩
  unfold Backend.touches at hi
  cases hpc : (s.backends b).pc with
  | load q j p =>
    rw [hpc] at hi
    left
    cases p <;> cases hi <;> rfl
  | evict e p =>
    rw [hpc] at hi
    right
    cases p <;> cases hi <;> exact ⟨by rw [Backend.locks, hpc], .inl rfl⟩
  | drain k j cc p =>
    rw [hpc] at hi
    cases p <;> cases hi
    exact .inr ⟨by rw [Backend.locks, hpc], .inr ((h.informed b).draining hpc).1⟩
  | insert w p =>
    rw [hpc] at hi
    have hw := hworks (w := w) (by rw [hpc]; rfl)
    cases p <;> cases hi
    · exact .inr ⟨(hw rfl).1, .inr (hw rfl).2⟩
    · exact .inr ⟨(hw rfl).1, .inr (hw rfl).2⟩
  | grow w g added old p =>
    rw [hpc] at hi
    have hw := hworks (w := w) (by rw [hpc]; rfl)
    cases hi
    exact .inr ⟨(hw rfl).1, .inr (hw rfl).2⟩
  | _ =>
    rw [hpc] at hi
    cases hi

/-- **One backend at a time** works on the arrays of a slot. -/
theorem Ownership.alone (h : Ownership s) (hord : Ordered s) (hwriters : Writers s) (hne : b' ≠ b)
    (hi : (s.backends b').Minds i) : (s.backends b).touches ≠ some i := by
  intro htouches
  have hloading : ∀ {b}, (s.backends b).pc.loads = some i →
      ¬ (s.memory.slots i).state.serves := by
    intro b hloads hserves
    rw [(hord.at_ b).loads hloads] at hserves
    cases hserves
  obtain hloads | ⟨hlocks, hstate⟩ := h.touches hord hwriters htouches
  · obtain hrecorded | ⟨-, hserves⟩ := h.minds hord hwriters hi
    · exact hne (hord.loader (Pc.loads_of_recorded hrecorded) hloads)
    · exact hloading hloads hserves
  · obtain hrecorded | ⟨hlocks', -⟩ := h.minds hord hwriters hi
    · obtain hclears | hserves := hstate
      · exact hord.cleared hclears hrecorded
      · exact hloading (Pc.loads_of_recorded hrecorded) hserves
    · have hlock := (hord.at_ b).locks hlocks
      have hlock' := (hord.at_ b').locks hlocks'
      rw [hlock] at hlock'
      exact hne (Option.some.inj hlock').symm

/-- A backend rewrites the area of the slot whose arrays it changes. -/
theorem Ownership.rewrites (h : Ownership s) (hstanding : Standing s) (hwriters : Writers s) {k : Nat}
    (hk : (s.backends b).rewrites = some k) : ∃ j, (s.backends b).touches = some j ∧
      (s.memory.slots j).areaHandle = k ∧ Current s.memory j := by
  have hplace := hstanding.incarnations.place b
  have hworks : ∀ {w}, (s.backends b).pc.works = some w → ((s.backends b).handles w.cc).area = k →
      (s.memory.slots ((s.backends b).slotFor w)).areaHandle = k ∧
        Current s.memory ((s.backends b).slotFor w) := by
    rintro w hw rfl
    have hp := hwriters.present hw
    exact ⟨hp.areaHandle, hstanding.incarnations.live hp.serves⟩
  unfold Backend.rewrites at hk
  cases hpc : (s.backends b).pc with
  | load q j p =>
    rw [hpc] at hk hplace
    cases p <;> cases hk
    exact ⟨j, by rw [Backend.touches, hpc],
      ((hstanding.handles.known b).loading hpc rfl).1, hplace⟩
  | drain d j cc p =>
    rw [hpc] at hk
    cases p <;> cases hk
    obtain ⟨hserves, -, harea, -⟩ := (h.informed b).draining hpc
    exact ⟨j, by rw [Backend.touches, hpc], harea.symm, hstanding.incarnations.live hserves⟩
  | insert w p =>
    rw [hpc] at hk
    have hw := hworks (w := w) (by rw [hpc]; rfl)
    cases p <;> cases hk
    exact ⟨_, by rw [Backend.touches, hpc], hw rfl⟩
  | grow w g added old p =>
    rw [hpc] at hk
    have hw := hworks (w := w) (by rw [hpc]; rfl)
    cases p <;> cases hk
    exact ⟨_, by rw [Backend.touches, hpc], hw rfl⟩
  | _ =>
    rw [hpc] at hk
    cases hk

/-- **A step takes nothing from the other slots.** -/
theorem Ownership.aside {c : Choice} (h : Ownership s) (hstanding : Standing s) (hwriters : Writers s)
    (hbuilds : Builds codec s.memory (s.backends b) m' be')
    (hreg : Registers s.memory (s.backends b) c m' be'.pc) (hcurrent : Current s.memory i)
    (htouches : (s.backends b).touches ≠ some i) : Aside s.memory m' i := by
  apply hbuilds.aside hreg htouches
  intro hrewrites
  obtain ⟨j, hj, harea, hcurrent'⟩ := h.rewrites hstanding hwriters hrewrites
  rw [hcurrent'.unique hcurrent harea] at hj
  exact htouches hj

theorem Ownership.owner (h : Ownership s) (hstanding : Standing s) (hwriters : Writers s) (b : B) :
    Owner s.memory (s.backends b) where
  served := h.served
  held := h.held
  informed := h.informed b
  present := hwriters.present
  loads hpc hl := ((hstanding.handles.known b).loading hpc hl).1
  fresh {q i n} hpc hdir := by
    by_contra hretired
    obtain hserves | ⟨b', e, v, hpc', -⟩ := h.retired hretired
    · rw [(hstanding.ordered.at_ b).loads (by rw [hpc]; rfl)] at hserves
      cases hserves
    · -- the evictor would hold the directory lock
      have hholder := (hstanding.ordered.at_ b').holds (by rw [hpc']; rfl)
      simp only [DirLock.free, hholder, Bool.and_eq_true] at hdir
      exact absurd hdir.1 (by simp)

/-- What the others know. -/
theorem Ownership.others {c : Choice} (h : Ownership s) (hstanding : Standing s)
    (hwriters : Writers s) (hne : b' ≠ b) (hbuilds : Builds codec s.memory (s.backends b) m' be')
    (hreg : Registers s.memory (s.backends b) c m' be'.pc) : Informed m' (s.backends b') := by
  have hord := hstanding.ordered
  have hinformed := h.informed b'
  have haside : ∀ {i}, (s.backends b').Minds i → Current s.memory i → Aside s.memory m' i :=
    fun hminds hcurrent => h.aside hstanding hwriters hbuilds hreg hcurrent
      (h.alone hord hwriters hne hminds)
  have hworking : ∀ {w}, (s.backends b').pc.works = some w →
      Aside s.memory m' ((s.backends b').slotFor w) := fun hw =>
    haside (.inr (.inl ⟨_, hw, rfl⟩)) (hstanding.incarnations.live (hwriters.present hw).serves)
  refine ⟨fun {q i p l} hpc hl => ?_, fun {w} hw => ?_, fun {w old} htarget => ?_,
    fun {k i cc} hpc => ?_⟩
  · have hplace : (s.backends b').pc.place = .loading i := by
      rw [hpc]
      cases p <;> cases hl <;> rfl
    have hcurrent := hstanding.incarnations.place b'
    rw [hplace] at hcurrent
    rw [(haside (.inl (Pc.recorded_of_place hplace)) hcurrent).blocks]
    exact hinformed.loading hpc hl
  · rw [(hworking hw).blocks]
    exact hinformed.working hw
  · have hw : (s.backends b').pc.works = some w := by
      cases hpc : (s.backends b').pc with
      | insert w' p =>
        rw [hpc] at htarget
        cases p <;> cases htarget
        rfl
      | drain d j cc p =>
        rw [hpc] at htarget
        cases d <;> cases htarget
        rfl
      | _ =>
        rw [hpc] at htarget
        cases htarget
    exact (hinformed.target htarget).aside (hworking hw)
  · obtain ⟨hserves, hmapped, harea, hgeneration⟩ := hinformed.draining hpc
    have hpresent : Present s.memory { (s.backends b').handles cc with slot := i } :=
      ⟨hserves, harea.symm, hgeneration.symm⟩
    have hpresent' := hpresent.registers hreg (hord.at_ b) (by
      intro e v hpc' hv
      -- the evictor has the lock, and so does the drain
      have hlocks := (hord.at_ b).locks (Backend.locks_of_evict hpc')
      have hlocks' := (hord.at_ b').locks (i := i) (by rw [Backend.locks, hpc])
      have hv' : v.slot = i := hv
      rw [hv', hlocks'] at hlocks
      exact hne (Option.some.inj hlocks))
    exact ⟨hpresent'.serves, hmapped, hpresent'.areaHandle.symm, hpresent'.generation.symm⟩

/-! ### The backend that moves -/

/-- What a load knows after its step. -/
theorem Builds.loading (h : Builds codec m be m' be') (hinformed : Informed m be) {q : BeginScan}
    {p : LoadPc} {l : Load} (hpc' : be'.pc = .load q i p) (hl : p.stored? = some l) :
    (m'.slots i).blocks = l.blocksDp := by
  cases h with
  | same _ _ hbuilds =>
    rw [hpc'] at hbuilds
    cases p <;> first | (cases hl; done) | cases hbuilds
  | loadBlocks q' j l' hpc hm hbe =>
    subst hbe hm
    cases hpc'
    cases hl
    rw [setSlot_self]
  | loadNblocks q' j l' _ be₁ hpc hstore hm hbe =>
    subst hbe hm
    cases hpc'
    cases hl
    rw [setSlot_self]
    exact hinformed.loading hpc rfl
  | readOther q' j l' hpc hm hbe | skipPage q' j l' _ _ _ _ hpc _ _ hm hbe
  | loadPage q' j l' _ _ _ _ _ hpc _ _ _ hm hbe | publishPage q' j l' _ _ _ _ _ hpc hm hbe =>
    subst hbe hm
    cases hpc'
    cases hl
    exact hinformed.loading hpc rfl
  | reclaim d j cc hpc _ hm hbe =>
    subst hbe
    cases d with
    | release k => cases k <;> cases hpc'
    | growDir | growPage => cases hpc'
  | growTotal w g added old _ _ hbe =>
    subst hbe
    cases old with
    | none => cases g <;> cases hpc'
    | some old => cases hpc'
  | shrinkTotal w g _ _ _ _ _ hbe =>
    subst hbe
    cases g <;> cases hpc'
  | publish _ _ _ error _ _ hbe =>
    subst hbe
    cases error <;> cases hpc'
  | create _ _ _ _ _ hbe | loaded _ _ _ _ _ _ _ _ _ _ _ hbe | loadBytes _ _ _ _ _ _ _ _ hbe
  | loadTotal _ _ _ _ _ _ _ hbe =>
    subst hbe
    cases hpc'
    cases hl
  | lose _ _ _ _ _ hbe | strand _ _ _ _ _ hbe | mark _ _ _ _ hbe | clear _ _ _ _ hbe
  | clearNblocks _ _ _ _ hbe | clearBlocks _ _ _ _ hbe | clearTotal _ _ _ _ hbe
  | growDir _ _ _ _ _ _ _ hbe | newPage _ _ _ _ _ hbe | growPage _ _ _ _ _ _ _ _ _ hbe
  | write _ _ _ _ _ _ hbe
  | growNblocks _ _ _ _ _ _ _ hbe | growBytes _ _ _ _ _ _ hbe | quiesced _ _ _ _ _ _ _ _ hbe
  | retire _ _ _ _ _ _ _ _ hbe | free _ _ _ _ _ _ _ hbe | shrinkBytes _ _ _ _ _ _ _ hbe
  | clearHit _ _ _ _ _ _ _ _ hbe =>
    subst hbe
    cases hpc'

section
variable [DecidableEq B] {c : Choice} {r : Memory B V Q × Backend Q} {w : Insert Q}

/-- What an insert knows after its step: the directory of its slot. -/
theorem proceed_newest
    (hworking : ∀ {w}, be.pc.works = some w → be.newest w = (m.slots (be.slotFor w)).blocks)
    (hdrains : be.drainsFor) (hr : proceed codec m b be c = some r) (hw : r.2.pc.works = some w) :
    r.2.newest w = (r.1.slots (r.2.slotFor w)).blocks := by
  obtain hworks | ⟨hpc, hpc'⟩ := (proceed_leads hr).to_works hw
  · have hold := hworking hworks
    cases hpc : be.pc with
    | insert w' p =>
      rw [hpc] at hworks
      cases hworks
      simp only [Backend.newest, hpc] at hold
      rw [proceed, hpc] at hr
      cases p with
      | ensureDir =>
        cases hr
        dsimp only [Backend.goto] at hw ⊢
        split <;> exact hold
      | growDir =>
        simp only [ensurePage] at hr
        repeat' split at hr
        all_goals cases hr
        all_goals cases hw
        simp only [Backend.newest, Backend.goto, Backend.slotFor, setSlot_self]
      | ensurePage =>
        simp only [ensurePage] at hr
        repeat' split at hr
        all_goals cases hr
        all_goals cases hw
        all_goals exact hold
      | growPage old =>
        simp only [ensurePage] at hr
        repeat' split at hr
        all_goals cases hr
        all_goals cases hw
        all_goals exact hold
      | write dp =>
        simp only [ensurePage] at hr
        repeat' split at hr
        all_goals cases hr
        all_goals cases hw
    | drain k i cc p =>
      rw [hpc] at hworks
      rw [proceed, hpc] at hr
      simp only [Backend.newest, hpc] at hold
      rw [Backend.drainsFor, hpc] at hdrains
      cases k with
      | release k => cases hworks
      | growDir w' | growPage w' old =>
        cases hworks
        cases p with
        | check =>
          simp only [drainRetired, drained] at hr
          split at hr <;> cases hr <;> exact hold
        | free =>
          simp only [drainRetired, drained] at hr
          split at hr <;> cases hr
          · refine hold.trans ?_
            exact (setSlot_congr Slot.blocks (by rfl) _).symm
          · cases hw
    | grow w' g added old p =>
      rw [hpc] at hworks
      cases hworks
      rw [proceed, hpc] at hr
      simp only [Backend.newest, hpc] at hold
      cases p with
      | storeNblocks =>
        cases g with
        | dir dp n =>
          cases hr
          exact hold.trans (setSlot_congr Slot.blocks (by rfl) _).symm
        | page dp => cases hr
      | addBytes =>
        cases hr
        cases g <;> exact hold.trans (setSlot_congr Slot.blocks (by rfl) _).symm
      | addTotal =>
        cases hr
        dsimp only at hw ⊢
        split
        · cases g <;> exact hold
        · cases g with
          | dir dp n =>
            simp only [Backend.newest, Backend.grown, Backend.goto, Backend.slotFor,
              Backend.setHandle, Function.update_self]
            exact hold
          | page dp => exact hold
      | readScans =>
        obtain ⟨o, rfl, hr⟩ := Option.map_eq_some_iff.mp hr
        split at hr <;> cases hr
        · cases g <;> exact hold
        · have hblocks : ∀ j, ((if (m.slots (be.slotFor w)).retired.length < ccRetireMax then
              m.setSlot (be.slotFor w) { m.slots (be.slotFor w) with
                retired := (m.slots (be.slotFor w)).retired ++ [o.1] } else m).slots j).blocks =
              (m.slots j).blocks := by
            intro j
            split
            · exact setSlot_congr Slot.blocks (by rfl) j
            · rfl
          cases g <;> exact hold.trans (hblocks _).symm
      | free =>
        obtain ⟨o, rfl, hr⟩ := Option.map_eq_some_iff.mp hr
        split at hr <;> cases hr
        · cases g <;> exact hold
        · cases hw
      | subBytes =>
        obtain ⟨o, rfl, hr⟩ := Option.map_eq_some_iff.mp hr
        cases hr
        cases g <;> exact hold.trans (setSlot_congr Slot.blocks (by rfl) _).symm
      | subTotal =>
        obtain ⟨o, rfl, hr⟩ := Option.map_eq_some_iff.mp hr
        cases hr
        cases g with
        | dir dp n =>
          simp only [Backend.newest, Backend.grown, Backend.goto, Backend.slotFor,
            Backend.setHandle, Function.update_self]
          exact hold
        | page dp => exact hold
    | _ =>
      rw [hpc] at hworks
      cases hworks
  · rw [proceed, hpc] at hr
    simp only [writerAttach, lockForWrite] at hr
    repeat' split at hr
    all_goals cases hr
    all_goals cases hpc'
    simp only [Backend.newest, Backend.goto, Backend.slotFor, Backend.setHandle,
      Function.update_self, setSlot_self]

omit [DecidableEq B] in
/-- A directory keeps its entries when the retired arrays are freed. -/
theorem HasEntry.reclaim {k blkno old : Nat} (h : HasEntry m i blkno old)
    (howned : Owned m i (m.slots i).blocks 0) (hk : k = (m.slots i).areaHandle) :
    HasEntry ((m.modifyArena k fun arena => arena.freeAll (m.slots i).retired).setSlot i
      { m.slots i with retired := [] }) i blkno old := by
  obtain ⟨arena, entries, hmem, hdir⟩ := howned
  obtain ⟨arena', entries', hmem', hdir', hentry⟩ := h
  rw [hmem] at hmem'
  obtain rfl := Option.some.inj hmem'
  have hentries : entries = entries' := by
    have heq := hdir.dir.symm.trans hdir'
    injection heq with heq
    injection heq
  subst hentries
  refine ⟨arena.freeAll (m.slots i).retired, entries, ?_, ?_, hentry⟩
  · rw [setSlot_self]
    change (m.modifyArena k fun arena =>
      arena.freeAll (m.slots i).retired).arena? (m.slots i).areaHandle = _
    rw [arena?_modifyArena, if_pos hk, hmem]
    rfl
  · rw [setSlot_self]
    exact hdir.freeAll.dir

/-- The page array an insert is to replace is the one its directory names. -/
theorem proceed_target (ho : Owner m be) (hdrains : be.drainsFor)
    (hr : proceed codec m b be c = some r) {old : Nat} (htarget : r.2.pc.target = some (w, old)) :
    HasEntry r.1 (r.2.slotFor w) w.t.blkno old := by
  have hw : r.2.pc.works = some w := by
    cases hpc : r.2.pc with
    | insert w' p =>
      rw [hpc] at htarget
      cases p <;> cases htarget
      rfl
    | drain d j cc p =>
      rw [hpc] at htarget
      cases d <;> cases htarget
      rfl
    | _ =>
      rw [hpc] at htarget
      cases htarget
  obtain hworks | ⟨-, hpc'⟩ := (proceed_leads hr).to_works hw
  · have hp := ho.present hworks
    cases hpc : be.pc with
    | insert w' p =>
      rw [hpc] at hworks
      cases hworks
      have hold := ho.informed.working (w := w) (by rw [hpc]; rfl)
      simp only [Backend.newest, hpc] at hold
      rw [proceed, hpc] at hr
      cases p with
      | ensureDir =>
        cases hr
        dsimp only [Backend.goto] at htarget
        split at htarget <;> cases htarget
      | ensurePage =>
        -- what the directory of the snapshot says
        have hentry : ∀ {page}, m.dirEntry (be.handles w.cc) (be.handles w.cc).blocksDp w.t.blkno =
            some page → HasEntry m (be.slotFor w) w.t.blkno page := by
          intro page hpage
          obtain ⟨entries, hentries, hk⟩ := Option.bind_eq_some_iff.mp hpage
          obtain ⟨a, ha, hdir⟩ := Option.bind_eq_some_iff.mp hentries
          refine ⟨a.arena, entries, hp.arena? ha, ?_, hk⟩
          rw [← hold]
          unfold Area.dir? at hdir
          split at hdir <;> cases hdir
          assumption
        simp only [ensurePage] at hr
        repeat' split at hr
        all_goals cases hr
        all_goals cases htarget
        all_goals exact hentry ‹_›
      | growDir | growPage | write =>
        simp only [ensurePage] at hr
        repeat' split at hr
        all_goals cases hr
        all_goals cases htarget
    | drain k i cc p =>
      rw [hpc] at hworks
      rw [Backend.drainsFor, hpc] at hdrains
      rw [proceed, hpc] at hr
      cases k with
      | release k => cases hworks
      | growDir w' =>
        cases p with
        | check =>
          simp only [drainRetired, drained] at hr
          split at hr <;> cases hr <;> cases htarget
        | free =>
          simp only [drainRetired, drained] at hr
          split at hr <;> cases hr <;> cases htarget
      | growPage w' old' =>
        cases hworks
        have htarget' : be.pc.target = some (w, old') := by
          rw [hpc]
          rfl
        have hentry := ho.informed.target htarget'
        cases p with
        | check =>
          simp only [drainRetired, drained] at hr
          split at hr
          · cases hr
            cases htarget
            exact hentry
          · cases hr
            cases htarget
            exact hentry
        | free =>
          simp only [drainRetired, drained] at hr
          split at hr <;> cases hr <;> cases htarget
          obtain ⟨hserves, -, harea, -⟩ := ho.informed.draining hpc
          obtain ⟨hcc, hslot⟩ := hdrains
          subst hcc hslot
          exact hentry.reclaim (ho.served hserves) harea
    | grow w' g added old' p =>
      rw [proceed, hpc] at hr
      cases p with
      | storeNblocks =>
        cases g with
        | dir dp n =>
          cases hr
          cases htarget
        | page dp => cases hr
      | addBytes =>
        cases hr
        cases htarget
      | addTotal =>
        cases hr
        dsimp only at htarget
        split at htarget
        · cases htarget
        · cases g <;> cases htarget
      | readScans | free =>
        obtain ⟨o, rfl, hr⟩ := Option.map_eq_some_iff.mp hr
        split at hr <;> cases hr <;> cases htarget
      | subBytes =>
        obtain ⟨o, rfl, hr⟩ := Option.map_eq_some_iff.mp hr
        cases hr
        cases htarget
      | subTotal =>
        obtain ⟨o, rfl, hr⟩ := Option.map_eq_some_iff.mp hr
        cases hr
        cases g <;> cases htarget
    | _ =>
      rw [hpc] at hworks
      cases hworks
  · rw [hpc'] at htarget
    cases htarget

/-- A drain frees what it has found with nobody scanning. -/
theorem proceed_draining (hr : proceed codec m b be c = some r) {k : AfterDrain Q} {cc : Nat}
    (hpc' : r.2.pc = .drain k i cc .free) : be.pc = .drain k i cc .check ∧ r.1 = m ∧
      r.2 = be.goto (.drain k i cc .free) ∧ (m.slots i).retired ≠ [] ∧
        (m.slots i).activeScans = 0 := by
  have hleads := proceed_leads hr
  rw [hpc'] at hleads
  have hpc : be.pc = .drain k i cc .check := by
    generalize be.pc = pc at hleads ⊢
    generalize hq : (Pc.drain k i cc .free : Pc Q) = pc' at hleads
    cases hleads with
    | drain =>
      cases hq
      rfl
    | @attached k' p cc' => cases k' <;> cases hq
    | @released k' => cases k' <;> cases hq
    | _ => cases hq
  rw [proceed, hpc] at hr
  simp only [drainRetired] at hr
  cases hr
  split at hpc'
  · cases k with
    | release k => cases k <;> cases hpc'
    | growDir | growPage => cases hpc'
  · rename_i hfound
    rw [if_neg hfound]
    simp only [not_or, not_not] at hfound
    exact ⟨hpc, rfl, rfl, hfound⟩

/-! ### Runs -/

/-- What the backend that moves knows after its step. -/
theorem Ownership.proceeded (h : Ownership s) (hstanding : Standing s) (hwriters : Writers s)
    (hok : drainsOwn s (.proceed b c))
    (hr : proceed codec s.memory b (s.backends b) c = some r) : Informed r.1 r.2 := by
  have hord := hstanding.ordered
  have ho := h.owner hstanding hwriters b
  have hdrains := (hord.at_ b).drains
  refine ⟨fun hpc hl => (proceed_builds (hstanding.placed b) hr).loading ho.informed hpc hl,
    fun hw => proceed_newest ho.informed.working hdrains hr hw,
    fun htarget => proceed_target ho hdrains hr htarget, fun {k i cc} hpc' => ?_⟩
  obtain ⟨hpc, hm, hbe, hretired, hactive⟩ := proceed_draining hr hpc'
  rw [hm, hbe]
  change (s.memory.slots i).state.serves ∧ ((s.backends b).handles cc).mapped ∧
    ((s.backends b).handles cc).area = (s.memory.slots i).areaHandle ∧
      ((s.backends b).handles cc).generation = (s.memory.slots i).generation
  refine ⟨?_, ?_⟩
  · obtain hserves | ⟨b', e, v, hevicts, hv⟩ := h.retired hretired
    · exact hserves
    · -- the evictor would hold the lock that the drain holds
      have hlock := (hord.at_ b).locks (i := i) (by rw [Backend.locks, hpc])
      have hlock' := (hord.at_ b').locks (Backend.locks_of_evict (.inr hevicts))
      rw [hv, hlock] at hlock'
      obtain rfl := Option.some.inj hlock'
      rw [hpc] at hevicts
      cases hevicts
  · have hworks : ∀ {w}, (s.backends b).pc.works = some w → cc = w.cc →
        i = ((s.backends b).handles w.cc).slot → ((s.backends b).handles cc).mapped ∧
          ((s.backends b).handles cc).area = (s.memory.slots i).areaHandle ∧
          ((s.backends b).handles cc).generation = (s.memory.slots i).generation := by
      intro w hw hcc hi
      subst hcc hi
      have hp := hwriters.present hw
      have hfind : (s.backends b).attachFind w.key = some w.cc :=
        (hstanding.placed b).uses (Pc.uses_of_works hw)
      exact ⟨((hstanding.placed b).table.entry (mem_of_attachFind hfind)).2.1, hp.areaHandle.symm,
        hp.generation.symm⟩
    rw [Backend.drainsFor, hpc] at hdrains
    cases k with
    | release k =>
      simp only [drainsOwn, hpc, Bool.and_eq_true, Bool.or_eq_true, List.isEmpty_iff, bne_iff_ne,
        beq_iff_eq, hretired, hactive, false_or, ne_eq, not_true_eq_false] at hok
      exact ⟨hok.2.1.1, hok.2.1.2, hok.2.2⟩
    | growDir w => exact hworks (by rw [hpc]; rfl) hdrains.1 hdrains.2
    | growPage w old => exact hworks (by rw [hpc]; rfl) hdrains.1 hdrains.2

omit [DecidableEq B] in
/-- A slot has retired arrays after a step if it had some before, or a growth retires one. -/
theorem Builds.retired (h : Builds codec m be m' be') (hretired : (m'.slots i).retired ≠ []) :
    ((m.slots i).retired ≠ [] ∧ ∀ e v, be.pc = .evict e (.clear v) → v.slot ≠ i) ∨
      ∃ w, be.pc.works = some w ∧ be.slotFor w = i := by
  -- a step that leaves the list alone
  have hkept : (m'.slots i).retired = (m.slots i).retired → (∀ e v, be.pc ≠ .evict e (.clear v)) →
      ((m.slots i).retired ≠ [] ∧ ∀ e v, be.pc = .evict e (.clear v) → v.slot ≠ i) ∨
        ∃ w, be.pc.works = some w ∧ be.slotFor w = i := by
    intro hsame hpc
    rw [hsame] at hretired
    exact .inl ⟨hretired, fun e v hpc' => absurd hpc' (hpc e v)⟩
  cases h with
  | same h hpc =>
    refine hkept (h.retired i) fun e v hpc' => ?_
    rw [hpc'] at hpc
    cases hpc
  | lose _ _ _ hpc hm | readOther _ _ _ hpc hm | skipPage _ _ _ _ _ _ _ hpc _ _ hm
  | loadPage _ _ _ _ _ _ _ _ hpc _ _ _ hm | publishPage _ _ _ _ _ _ _ _ hpc hm
  | loaded _ _ _ _ _ _ _ _ _ hpc hm | loadTotal _ _ _ _ _ hpc hm
  | newPage _ _ hpc _ hm | growPage _ _ _ _ hpc _ _ _ hm | growTotal _ _ _ _ hpc hm
  | quiesced _ _ _ _ _ hpc _ hm | free _ _ _ _ _ hpc hm | shrinkTotal _ _ _ _ _ hpc hm =>
    refine hkept (congrArg (fun m₁ => (m₁.slots i).retired) hm) fun e v hpc' => ?_
    rw [hpc] at hpc'
    cases hpc'
  | create _ _ _ hpc hm | loadBlocks _ _ _ hpc hm | loadNblocks _ _ _ _ _ hpc _ hm
  | strand _ _ _ hpc hm | loadBytes _ _ _ _ _ _ hpc hm | publish _ _ _ _ hpc hm | mark _ _ hpc hm
  | clearNblocks _ _ hpc hm | clearBlocks _ _ hpc hm | clearTotal _ _ hpc hm
  | growDir _ _ _ hpc _ _ hm | write _ _ _ hpc _ hm | growNblocks _ _ _ _ _ hpc hm
  | growBytes _ _ _ _ hpc hm | shrinkBytes _ _ _ _ _ hpc hm | clearHit _ _ _ _ _ hpc _ hm =>
    refine hkept ?_ fun e v hpc' => ?_
    · rw [hm]
      exact setSlot_congr Slot.retired (by rfl) i
    · rw [hpc] at hpc'
      cases hpc'
  | clear e v hpc hm =>
    by_cases hv : i = v.slot
    · rw [hm, hv, setSlot_self] at hretired
      exact absurd rfl hretired
    · rw [hm, setSlot_ne _ _ hv] at hretired
      refine .inl ⟨hretired, fun e' v' hpc' => ?_⟩
      rw [hpc] at hpc'
      cases hpc'
      exact fun hslot => hv hslot.symm
  | reclaim k j cc hpc _ hm =>
    have hreclaimed : (m'.slots i).retired = if i = j then [] else (m.slots i).retired := by
      rw [hm]
      cases k <;> simp only [drained, Memory.unlock, slots_setSlot] <;> split <;> rfl
    by_cases hj : i = j
    · rw [hreclaimed, if_pos hj] at hretired
      exact absurd rfl hretired
    · rw [if_neg hj] at hreclaimed
      refine hkept hreclaimed fun e v hpc' => ?_
      rw [hpc] at hpc'
      cases hpc'
  | retire w _ _ _ _ hpc _ hm =>
    by_cases hw : be.slotFor w = i
    · exact .inr ⟨w, by rw [hpc]; rfl, hw⟩
    · refine hkept ?_ fun e v hpc' => ?_
      · rw [hm]
        split
        · rw [setSlot_ne _ _ (Ne.symm hw)]
        · rfl
      · rw [hpc] at hpc'
        cases hpc'

/-- The retired arrays of what is served, or about to be cleared, after a step too. -/
theorem Ownership.retired_step (h : Ownership s) (hstanding : Standing s) (hwriters : Writers s)
    (hr : proceed codec s.memory b (s.backends b) c = some r)
    (hretired : (r.1.slots i).retired ≠ []) : (r.1.slots i).state.serves ∨
      ∃ b' e v, (Function.update s.backends b r.2 b').pc = .evict e (.clear v) ∧ v.slot = i := by
  have hserved : (s.memory.slots i).state.serves → (r.1.slots i).state.serves ∨
      ∃ b' e v, (Function.update s.backends b r.2 b').pc = .evict e (.clear v) ∧ v.slot = i := by
    intro hserves
    obtain hserves | ⟨e, v, hpc, hv⟩ :=
      (proceed_registers hr).still_serves (hstanding.ordered.at_ b) hserves
    · exact .inl hserves
    · rw [proceed, hpc] at hr
      cases hr
      exact .inr ⟨b, e, v, by rw [Function.update_self]; rfl, hv⟩
  obtain ⟨hold, hclear⟩ | ⟨w, hw, rfl⟩ :=
    (proceed_builds (hstanding.placed b) hr).retired hretired
  · obtain hserves | ⟨b', e, v, hpc, hv⟩ := h.retired hold
    · exact hserved hserves
    · -- the evictor has not cleared the slot, so it is another backend
      have hne : b' ≠ b := by
        rintro rfl
        exact hclear e v hpc hv
      exact .inr ⟨b', e, v, by rwa [Function.update_of_ne hne], hv⟩
  · exact hserved (hwriters.present hw).serves

omit [DecidableEq B] in
/-- A call does nothing to arrays, and begins with none in hand. -/
theorem Enters.informed {a : Action B V Q} {pc' : Pc Q} (h : Enters m be a pc')
    (hpc : be'.pc = pc') : be'.hand m' = none ∧ Informed m' be' := by
  have hfree : pc'.works = none ∧ pc'.target = none ∧ (∀ q i p, pc' ≠ .load q i p) ∧
      (∀ k i cc, pc' ≠ .drain k i cc .free) ∧ pc'.builds = false := by
    cases h <;> exact ⟨rfl, rfl, nofun, nofun, rfl⟩
  obtain ⟨hworks, htarget, hload, hdrain, hbuilds⟩ := hfree
  rw [← hpc] at hworks htarget hload hdrain hbuilds
  refine ⟨hand_of_builds hbuilds, fun hq => absurd hq (hload _ _ _), fun hw => ?_, fun ht => ?_,
    fun hd => absurd hd (hdrain _ _ _)⟩
  · rw [hworks] at hw
    cases hw
  · rw [htarget] at ht
    cases ht

omit [DecidableEq B] in
/-- A change of the indexes alone. -/
theorem Ownership.world (h : Ownership s) (world : Key → Relation V Q) :
    Ownership { s with memory := { s.memory with world := world } } :=
  ⟨h.served, h.held, fun b => ⟨(h.informed b).loading, (h.informed b).working,
    (h.informed b).target, (h.informed b).draining⟩, h.retired⟩

omit [DecidableEq B] in
/-- A backend counts on the slot it has an array of in hand, which has its own area. -/
theorem Ownership.held_minds (hstanding : Standing s) (hwriters : Writers s)
    (hx : (s.backends b).hand m = some (i, blocks, x)) :
    (s.backends b).Minds i ∧ Current s.memory i := by
  unfold Backend.hand at hx
  cases hpc : (s.backends b).pc with
  | load q j p =>
    have hplace := hstanding.incarnations.place b
    rw [hpc] at hx hplace
    have hrecorded : (s.backends b).pc.recorded = some j := by
      rw [hpc]
      cases p <;> cases hx <;> rfl
    cases p <;> cases hx <;> exact ⟨.inl hrecorded, hplace⟩
  | grow w g added old p =>
    have hw : (s.backends b).pc.works = some w := by rw [hpc]; rfl
    have hcurrent := hstanding.incarnations.live (hwriters.present hw).serves
    rw [hpc] at hx
    cases old with
    | none => cases hx
    | some o => cases p <;> cases hx <;> exact ⟨.inr (.inl ⟨w, hw, rfl⟩), hcurrent⟩
  | _ =>
    rw [hpc] at hx
    cases hx

omit [DecidableEq B] in
/-- The directory of the array in hand is the slot's, but for a load's that is not published. -/
theorem hand_aside (ha : Aside m m' i) (hx : be.hand m' = some (i, blocks, x)) :
    be.hand m = some (i, blocks, x) := by
  unfold Backend.hand at hx ⊢
  cases hpc : be.pc with
  | load q j p =>
    rw [hpc] at hx
    cases p <;> cases hx <;> first | rfl | rw [ha.blocks]
  | grow w g added old p =>
    rw [hpc] at hx
    cases old with
    | none => cases hx
    | some o => cases p <;> cases hx <;> rw [ha.blocks]
  | _ =>
    rw [hpc] at hx
    cases hx

/-- **The step lemma of ownership.** -/
theorem Ownership.step [Fintype B] {a : Action B V Q} (h : Ownership s) (hstanding : Standing s)
    (hwriters : Writers s) (hok : drainsOwn s a) (hstep : step codec s a = some s') :
    Ownership s' := by
  cases moved hstep with
  | modify x r ha hkeeps hs =>
    subst hs
    exact h.world _
  | call b r hidle hmay hb hcall hs =>
    subst hs
    obtain ⟨world, hworld⟩ := call_world hcall
    obtain ⟨hhand, hinformed⟩ : r.2.hand r.1 = none ∧ Informed r.1 r.2 :=
      (call_enters hidle hcall).informed rfl
    rw [hworld] at hhand hinformed ⊢
    have hw := h.world world
    refine ⟨hw.served, fun {b'} _ _ _ hx => ?_, fun b' => ?_, fun hretired => ?_⟩
    · by_cases hne : b' = b
      · subst hne
        simp only [Function.update_self, hhand] at hx
        cases hx
      · simp only [Function.update_of_ne hne] at hx
        exact hw.held hx
    · by_cases hne : b' = b
      · subst hne
        simpa only [Function.update_self] using hinformed
      · simpa only [Function.update_of_ne hne] using hw.informed b'
    · obtain hserves | ⟨b', e, v, hpc, hv⟩ := hw.retired hretired
      · exact .inl hserves
      · have hne : b' ≠ b := by
          rintro rfl
          rw [hidle] at hpc
          cases hpc
        exact .inr ⟨b', e, v, by simpa only [Function.update_of_ne hne] using hpc, hv⟩
  | proceed b c r ha hproceed hs =>
    subst ha hs
    have hbuilds := proceed_builds (hstanding.placed b) hproceed
    have hreg := proceed_registers hproceed
    have hat := hstanding.ordered.at_ b
    have ho := h.owner hstanding hwriters b
    refine ⟨fun {i} hserves => ?_, fun {b' i blocks x} hx => ?_, fun b' => ?_,
      h.retired_step hstanding hwriters hproceed⟩
    · by_cases htouches : (s.backends b).touches = some i
      · exact hbuilds.serves ho hreg hat htouches hserves
      · have hbefore := hreg.served_before hserves fun q final error hpc =>
          htouches (by rw [Backend.touches, hpc])
        have haside := h.aside hstanding hwriters hbuilds hreg (hstanding.incarnations.live hbefore)
          htouches
        rw [haside.blocks]
        exact (h.served hbefore).aside haside
    · by_cases hne : b' = b
      · subst hne
        simp only [Function.update_self] at hx
        exact hbuilds.hands ho hreg hx
      · simp only [Function.update_of_ne hne] at hx
        obtain ⟨hminds, hcurrent⟩ := held_minds hstanding hwriters hx
        have haside := h.aside hstanding hwriters hbuilds hreg hcurrent
          (h.alone hstanding.ordered hwriters hne hminds)
        exact (h.held (hand_aside haside hx)).aside haside
    · by_cases hne : b' = b
      · subst hne
        simpa only [Function.update_self] using h.proceeded hstanding hwriters hok hproceed
      · simpa only [Function.update_of_ne hne] using
          h.others hstanding hwriters hne hbuilds hreg

omit [DecidableEq B] in
theorem Ownership.init (world : Key → Relation V Q) : Ownership (State.init world : State B V Q) where
  served h := by cases h
  held h := by cases h
  informed _ :=
    { loading := nofun
      working := nofun
      target := nofun
      draining := nofun }
  retired h := absurd rfl h

/-- **Arrays are freed once, in their own area**, in every run in which generations do
not come round and a scan that ends drains what its handle is attached to. -/
theorem frees_own [Fintype B] {world : Key → Relation V Q} {s : State B V Q}
    (h : Runs (step codec) (fun s a => drainsOwn s a) (State.init world) s) : FreesOwn s := by
  have hinv : Standing s ∧ Writers s ∧ Ownership s := by
    refine h.invariant (I := fun s => Standing s ∧ Writers s ∧ Ownership s)
      ⟨.init world, .init world, .init world⟩ fun hinv hok hstep => ?_
    obtain ⟨hstanding, hwriters, hownership⟩ := hinv
    refine ⟨hstanding.step hstep, hwriters.step hstanding ?_ hstep,
      hownership.step hstanding hwriters hok hstep⟩
    simp only [drainsOwn, Bool.and_eq_true] at hok
    exact hok.1
  obtain ⟨hstanding, hwriters, hownership⟩ := hinv
  exact hownership.freesOwn hstanding hwriters

end

end

/-! ### A scan that ends in a later incarnation -/

/-- The slot and the handle of a drain that is about to free what it has found. -/
def Backend.frees? {Q : Type} (be : Backend Q) : Option (Fin ccNSlots × Nat) :=
  match be.pc with
  | .drain _ i cc .free => some (i, cc)
  | _ => none

theorem Backend.drains_of_frees {Q : Type} {be : Backend Q} {i : Fin ccNSlots} {cc : Nat}
    (h : be.frees? = some (i, cc)) : ∃ k, be.pc = .drain k i cc .free := by
  unfold Backend.frees? at h
  split at h
  · cases h
    exact ⟨_, ‹_›⟩
  · cases h

/-- An index of two elements, on one page. -/
def grownIndex : Relation Int Int :=
  { Scan.lonelyIndex Int 3 with
    pages := [⟨[.neighbor Scan.lonelyNeighbors, .element (Scan.lonelyElement 3),
      .neighbor Scan.lonelyNeighbors,
      .element { Scan.lonelyElement 5 with neighbortid := ⟨1, 3⟩ }], 40, 8000⟩] }

/-- The second element is added to the page, and to a larger page array. -/
def insertSecond (b : Fin 2) : List (Action (Fin 2) Int Int) :=
  .modify indexX grownIndex :: .insert b indexX ⟨1, 4⟩ 1 ⟨⟨7, 1⟩, ⟨1, 3⟩, 0, false, 0, 5⟩ ::
    List.replicate 12 (next b)

/-- The end of a scan that finds retired arrays, up to their frees. -/
def endAndDrain (b : Fin 2) (id : Nat) : List (Action (Fin 2) Int Int) :=
  .endScan b id :: List.replicate 4 (next b)

attribute [local instance] neZero_two

/-- A scan is open while its page array is replaced. -/
def drainAfterGrowth : List (Action (Fin 2) Int Int) :=
  loadAndScan 0 indexX ++ insertSecond 0 ++ endAndDrain 0 0

theorem frees_own_after_growth : ∃ s : State (Fin 2) Int Int,
    ((s.backends 0).frees?.map fun p => (s.memory.slots p.1).retired.length) = some 1 ∧
      FreesOwn s := by
  have h : ((exec (fun s a => if drainsOwn s a = true then step plainCodec s a else none)
      (State.init smallIndexes) drainAfterGrowth).map fun s =>
        (s.backends 0).frees?.map fun p => (s.memory.slots p.1).retired.length) =
      some (some 1) := by decide +kernel
  obtain ⟨s, hs, hobs⟩ := Option.map_eq_some_iff.mp h
  exact ⟨s, hobs, frees_own (runs_of_exec hs)⟩

/-- A second backend begins its scan between the evictor's check and its mark. The index
is loaded again and its page array replaced, and then the scan ends. -/
def drainAfterReload : List (Action (Fin 2) Int Int) :=
  loadAndScan 0 indexX ++ endAndRelease 0 0 ++ attachForScan 1 indexX ++
    chooseVictim 0 indexX firstSlot ++ List.replicate 4 (next 1) ++ List.replicate 8 (next 0) ++
    loadAndScan 0 indexX ++ [.endScan 0 1, next 0] ++ insertSecond 0 ++ endAndDrain 1 0

/-- The arrays of the second area are freed in the first. -/
theorem frees_in_stale_area : ∃ s : State (Fin 2) Int Int,
    Runs (step plainCodec) (fun _ _ => True) (State.init smallIndexes) s ∧ ¬ FreesOwn s := by
  have h : ((exec (fun s a => if True then step plainCodec s a else none)
      (State.init smallIndexes) drainAfterReload).map fun s => (s.backends 1).frees?.map fun p =>
        (((s.backends 1).handles p.2).area, (s.memory.slots p.1).areaHandle)) =
      some (some (0, 1)) := by decide +kernel
  obtain ⟨s, hs, hobs⟩ := Option.map_eq_some_iff.mp h
  obtain ⟨p, hfrees, hareas⟩ := Option.map_eq_some_iff.mp hobs
  obtain ⟨k, hpc⟩ := Backend.drains_of_frees hfrees
  refine ⟨s, runs_of_exec hs, fun hown => ?_⟩
  have harea := (hown.drain hpc).area
  rw [(Prod.mk.inj hareas).1, (Prod.mk.inj hareas).2] at harea
  cases harea

end PgAcorn.SharedCache
