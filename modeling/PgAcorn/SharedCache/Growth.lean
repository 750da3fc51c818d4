import PgAcorn.SharedCache.Charges

/-! What a load and an insert know of the directory and the bytes of their slot, after
each of their steps. -/
namespace PgAcorn.SharedCache
open Library
open CodeCache (Key ccNSlots ccDirGrow SlotState Codec CachePage)

section
variable {B V Q : Type} {m m' : Memory B V Q} {b : B} {be be' : Backend Q} {codec : Codec V Q}
  {i : Fin ccNSlots}

theorem block?_of_get? {arena : Arena (CacheArray Q)} {dp : Nat} {x : CacheArray Q}
    (h : arena.get? dp = some x) : ∃ freed, arena.block? dp = some (x, freed) := by
  obtain ⟨⟨y, freed⟩, hblock, hy⟩ := Option.bind_eq_some_iff.mp h
  split at hy <;> cases hy
  exact ⟨freed, hblock⟩

/-- A directory that may be read. -/
theorem Area.dirAt_of_dir? {a : Area Q} {dp : Nat} {entries : List Nat}
    (h : a.dir? dp = some entries) :
    dirAt a.arena dp = some entries := by
  unfold Area.dir? at h
  split at h
  · cases h
    obtain ⟨freed, hblock⟩ := block?_of_get? ‹_›
    rw [dirAt, hblock]
    rfl
  · cases h

/-- A page array that may be read. -/
theorem Area.nslotsAt_of_page? {a : Area Q} {dp : Nat} {entries : CachePage Q}
    (h : a.page? dp = some entries) : nslotsAt a.arena dp = some entries.length := by
  unfold Area.page? at h
  split at h
  · cases h
    obtain ⟨freed, hblock⟩ := block?_of_get? ‹_›
    rw [nslotsAt, hblock]
    rfl
  · cases h

/-- What the backend that moves has before its step. -/
structure Teller (m : Memory B V Q) (be : Backend Q) : Prop where
  counts : Counts m be
  present : ∀ {w}, be.pc.works = some w → Present m (be.handles w.cc)
  dim : ∀ {w}, be.pc.works = some w → (m.slots (be.slotFor w)).dim = (be.handles w.cc).dim
  loads : ∀ {q i p l}, be.pc = .load q i p → p.load? = some l →
    (m.slots i).areaHandle = l.area ∧ (m.slots i).dim = q.dim
  fresh : ∀ {q i n}, be.pc = .load q i (.create n) → m.dirLock.free → (m.slots i).bytes = 0
  directory : ∀ {w}, be.pc.works = some w → ∃ entries, HasDirectory m (be.slotFor w) entries ∧
    ((m.slots (be.slotFor w)).nblocks = entries.length ∨
      ∃ n, be.relength = some (be.slotFor w, n))

theorem arena?_setSlot (m : Memory B V Q) (j : Fin ccNSlots) (slot : Slot B) (k : Nat) :
    (m.setSlot j slot).arena? k = m.arena? k := rfl

theorem Fills.setSlot {l : Load} {blkno n : Nat} (h : Fills m i l blkno n) {slot : Slot B}
    (hbytes : slot.bytes = (m.slots i).bytes) (harea : slot.areaHandle = (m.slots i).areaHandle)
    (hdim : slot.dim = (m.slots i).dim) : Fills (m.setSlot i slot) i l blkno n := by
  obtain ⟨hzero, hdir⟩ := h
  refine ⟨?_, ?_⟩
  · rw [setSlot_self, hbytes]
    exact hzero
  · rw [setSlot_self, harea, hdim]
    exact hdir

/-- What a slot publishes depends on its area, its dimension and its `blocks` alone. -/
theorem publishedBytes_setSlot {slot : Slot B} (harea : slot.areaHandle = (m.slots i).areaHandle)
    (hdim : slot.dim = (m.slots i).dim) (hblocks : slot.blocks = (m.slots i).blocks) :
    (m.setSlot i slot).publishedBytes i = m.publishedBytes i := by
  unfold Memory.publishedBytes
  rw [setSlot_self, harea, hdim, hblocks]
  rfl

theorem HasDirectory.setSlot {entries : List Nat} (h : HasDirectory m i entries) {slot : Slot B}
    (harea : slot.areaHandle = (m.slots i).areaHandle)
    (hblocks : slot.blocks = (m.slots i).blocks) :
    HasDirectory (m.setSlot i slot) i entries := by
  unfold HasDirectory
  rw [setSlot_self, harea, hblocks]
  exact h

theorem Listed.setSlot (h : Listed m i) {slot : Slot B}
    (harea : slot.areaHandle = (m.slots i).areaHandle) (hblocks : slot.blocks = (m.slots i).blocks)
    (hnblocks : slot.nblocks = (m.slots i).nblocks) : Listed (m.setSlot i slot) i := by
  obtain ⟨entries, hdir, hlength⟩ := h
  refine ⟨entries, hdir.setSlot harea hblocks, ?_⟩
  rw [setSlot_self, hnblocks]
  exact hlength

/-- A directory that is filled is what the slot publishes, once it points there. -/
theorem Fills.published {l : Load} {blkno n : Nat} (h : Fills m i l blkno n)
    (hblocks : (m.slots i).blocks = l.blocksDp)
    (hnblocks : (m.slots i).nblocks = ccDirGrow l.nblocks) :
    Listed m i ∧ m.publishedBytes i = n := by
  obtain ⟨-, arena, entries, harena, hp, hlength, -, hn⟩ := h
  refine ⟨⟨entries, ⟨arena, harena, ?_⟩, hnblocks.trans hlength.symm⟩, ?_⟩
  · rw [hblocks]
    exact hp
  · unfold Memory.publishedBytes
    rw [harena, hblocks]
    exact hn

/-- A block without elements. -/
theorem Fills.skip {l : Load} {blkno n : Nat} (h : Fills m i l blkno n) :
    Fills m i l (blkno + 1) n := by
  obtain ⟨hbytes, arena, entries, harena, hp, hlength, hzero, hn⟩ := h
  exact ⟨hbytes, arena, entries, harena, hp, hlength,
    fun k hk => hzero k (Nat.le_of_succ_le hk), hn⟩

/-- A page array is allocated for a block. -/
theorem Fills.allocate {l : Load} {blkno n k : Nat} (h : Fills m i l blkno n)
    (hk : (m.slots i).areaHandle = k) (page : CachePage Q) :
    Fills (m.modifyArena k fun arena => arena.allocate (.page page)) i l blkno n ∧
      PageAt (m.modifyArena k fun arena => arena.allocate (.page page)) i (m.nextDp k)
        page.length := by
  obtain ⟨hbytes, arena, entries, harena, hp, hlength, hzero, hn⟩ := h
  have harena' : (m.modifyArena k fun arena => arena.allocate (.page page)).arena?
      (m.slots i).areaHandle = some (arena.allocate (.page page)) := by
    rw [arena?_modifyArena, hk, if_pos rfl, ← hk, harena]
    rfl
  have hkeeps := KeepsSizes.allocate arena (.page page)
  refine ⟨⟨hbytes, _, entries, harena', hp.keeps hkeeps, hlength, hzero,
    (hp.bytes_keeps hkeeps _).trans hn⟩, _, harena', ?_⟩
  rw [hk] at harena
  rw [nextDp_of_arena? harena, nslotsAt_allocate, if_pos rfl]
  rfl

/-- The page array of a block is published. -/
theorem Fills.publish {l : Load} {blkno n dp size k : Nat} (h : Fills m i l blkno n)
    (hk : (m.slots i).areaHandle = k) (hlt : blkno < l.nblocks) (hpage : PageAt m i dp size) :
    Fills (m.modifyArena k fun arena => arena.modify l.blocksDp (CacheArray.setEntry blkno dp)) i l
      (blkno + 1) (n + ccPageSize size (m.slots i).dim) := by
  obtain ⟨hbytes, arena, entries, harena, hp, hlength, hzero, hn⟩ := h
  obtain ⟨arena₁, harena₁, hsize⟩ := hpage
  obtain rfl := Option.some.inj (harena.symm.trans harena₁)
  have hin : blkno < entries.length := by
    rw [hlength, ccDirGrow]
    omega
  obtain ⟨hset, hsum⟩ :=
    hp.setEntry (m.slots i).dim (hzero blkno (Nat.le_refl _) hin) hsize
  refine ⟨hbytes, _, entries.set blkno dp, ?_, hset, ?_, fun j hj hlt => ?_, ?_⟩
  · change (m.modifyArena k _).arena? (m.slots i).areaHandle = _
    rw [arena?_modifyArena, hk, if_pos rfl, ← hk, harena]
    rfl
  · rw [List.length_set]
    exact hlength
  · rw [List.length_set] at hlt
    rw [List.getElem?_set_ne (by omega)]
    exact hzero j (Nat.le_of_succ_le hj) hlt
  · change directoryBytes _ (m.slots i).dim l.blocksDp = _
    rw [pageBytes_zero] at hsum
    omega

/-- What a load knows after its step. -/
theorem Builds.loadCounts {c : Choice} (h : Builds codec m be m' be') (ht : Teller m be)
    (hreg : Registers m be c m' be'.pc) {q : BeginScan} {p : LoadPc} (hpc' : be'.pc = .load q i p) :
    p.Counts m' i := by
  cases h with
  | same _ _ hbuilds =>
    rw [hpc'] at hbuilds
    cases p <;> trivial
  | create q' j n hpc hm hbe =>
    have hdir := hreg.create_dir hpc (l := _) (by rw [hbe]; rfl)
    have hzero := ht.fresh hpc hdir
    subst hbe hm
    cases hpc'
    have hdirAt : dirAt (Arena.empty.allocate (.dir (List.replicate (ccDirGrow n) 0) :
        CacheArray Q)) 1 = some (List.replicate (ccDirGrow n) 0) := by
      rw [dirAt_allocate]
      rfl
    have hp := Publishes.replicate q.dim (ccDirGrow n) hdirAt
    refine ⟨?_, Arena.empty.allocate (.dir (List.replicate (ccDirGrow n) 0)),
      List.replicate (ccDirGrow n) 0, ?_, hp.1, List.length_replicate, fun k _ hk => ?_, ?_⟩
    · rw [setSlot_self]
      exact hzero
    · rw [setSlot_self]
      simp only [Memory.arena?, Memory.setSlot, List.getElem?_concat_length, Option.map_some]
      rfl
    · rw [List.length_replicate] at hk
      rw [List.getElem?_replicate, if_pos hk]
    · rw [setSlot_self]
      exact hp.2
  | loadBlocks q' j l hpc hm hbe =>
    have hold := ht.counts.load hpc
    subst hbe hm
    cases hpc'
    refine ⟨?_, hold.setSlot rfl rfl rfl⟩
    rw [setSlot_self]
  | loadNblocks q' j l _ be₁ hpc hstore hm hbe =>
    obtain ⟨hblocks, hfills⟩ := ht.counts.load hpc
    subst hbe hm
    cases hpc'
    refine ⟨?_, ?_, hfills.setSlot rfl rfl rfl⟩
    · rw [setSlot_self]
      exact hblocks
    · rw [setSlot_self]
  | readOther q' j l hpc hm hbe =>
    obtain ⟨hblocks, hnblocks, hfills⟩ := ht.counts.load hpc
    subst hbe hm
    cases hpc'
    refine ⟨hblocks, hnblocks, hfills.1, ?_⟩
    obtain ⟨arena, entries, harena, hp, hlength, hzero, hn⟩ := hfills.2
    exact ⟨arena, entries, harena, hp, hlength, fun k _ => hzero k (Nat.zero_le k), hn⟩
  | skipPage q' j l _ _ _ _ hpc _ _ hm hbe =>
    obtain ⟨hblocks, hnblocks, hfills⟩ := ht.counts.load hpc
    subst hbe hm
    cases hpc'
    exact ⟨hblocks, hnblocks, hfills.skip⟩
  | loadPage q' j l other blkno bytes nelems page hpc hlt _ _ hm hbe =>
    obtain ⟨hblocks, hnblocks, hfills⟩ := ht.counts.load hpc
    obtain ⟨harea, hdim⟩ := ht.loads hpc rfl
    subst hbe hm
    cases hpc'
    obtain ⟨hfills', hpage⟩ := hfills.allocate harea page
    refine ⟨hblocks, hnblocks, hlt, bytes, page.length, hfills', hpage, ?_⟩
    rw [← hdim]
    rfl
  | publishPage q' j l other blkno bytes nelems dp hpc hm hbe =>
    obtain ⟨hblocks, hnblocks, hlt, n, size, hfills, hpage, hn⟩ := ht.counts.load hpc
    obtain ⟨harea, hdim⟩ := ht.loads hpc rfl
    subst hbe hm
    cases hpc'
    refine ⟨hblocks, hnblocks, ?_⟩
    rw [← hn]
    exact hfills.publish harea hlt hpage
  | loaded q' j l other blkno bytes nelems final error hpc hm hbe =>
    obtain ⟨hblocks, hnblocks, hfills⟩ := ht.counts.load hpc
    subst hbe hm
    cases hpc'
    exact ⟨hfills.bytes, hfills.published hblocks hnblocks⟩
  | loadBytes q' j bytes nelems final error hpc hm hbe =>
    obtain ⟨-, hlisted, hn⟩ := ht.counts.load hpc
    subst hbe hm
    cases hpc'
    refine ⟨hlisted.setSlot rfl rfl rfl, ?_⟩
    rw [setSlot_self, ← hn]
    exact congrArg (BitVec.ofNat 64) (publishedBytes_setSlot (by rfl) (by rfl) (by rfl)).symm
  | loadTotal q' j bytes final error hpc hm hbe =>
    have hold := ht.counts.load hpc
    subst hbe hm
    cases hpc'
    exact hold
  | reclaim d j cc hpc _ hm hbe =>
    subst hbe
    cases d with
    | release k => cases k <;> cases hpc'
    | growDir | growPage => cases hpc'
  | growTotal w g added old _ _ hbe =>
    subst hbe
    cases old with
    | none => cases g <;> cases hpc'
    | some old => cases hpc'
  | shrinkTotal w g _ _ _ _ _ hbe =>
    subst hbe
    cases g <;> cases hpc'
  | publish _ _ _ error _ _ hbe =>
    subst hbe
    cases error <;> cases hpc'
  | lose _ _ _ _ _ hbe | mark _ _ _ _ hbe | clear _ _ _ _ hbe | clearNblocks _ _ _ _ hbe
  | clearBlocks _ _ _ _ hbe | clearTotal _ _ _ _ hbe | growDir _ _ _ _ _ _ _ hbe
  | newPage _ _ _ _ _ hbe | growPage _ _ _ _ _ _ _ _ _ hbe | write _ _ _ _ _ _ hbe
  | growNblocks _ _ _ _ _ _ _ hbe | growBytes _ _ _ _ _ _ hbe | quiesced _ _ _ _ _ _ _ _ hbe
  | retire _ _ _ _ _ _ _ _ hbe | free _ _ _ _ _ _ _ hbe | shrinkBytes _ _ _ _ _ _ _ hbe
  | strand _ _ _ _ _ hbe | clearHit _ _ _ _ _ _ _ _ hbe =>
    subst hbe
    cases hpc'

/-! ### Growth -/

theorem arena?_modifyArena_self {k : Nat} {arena : Arena (CacheArray Q)}
    (h : m.arena? k = some arena)
    (f : Arena (CacheArray Q) → Arena (CacheArray Q)) :
    (m.modifyArena k f).arena? k = some (f arena) := by
  rw [arena?_modifyArena, if_pos rfl, h]
  rfl

/-- A directory is replaced by a larger one. -/
theorem HasDirectory.grow {k n old : Nat} {arena : Arena (CacheArray Q)} {entries : List Nat}
    (h : HasDirectory m i entries) (hk : (m.slots i).areaHandle = k)
    (harena : m.arena? k = some arena)
    (hold : old = entries.length) (hn : old ≤ n) {slot : Slot B}
    (hslot : slot = { m.slots i with blocks := arena.next })
    (hm : m' = (m.modifyArena k fun arena =>
      arena.allocate (.dir (extendDir entries old n))).setSlot i slot) :
    (∃ entries', HasDirectory m' i entries' ∧ entries'.length = n) ∧
      m'.publishedBytes i + ccDirSize old = m.publishedBytes i + ccDirSize n := by
  subst hold
  obtain ⟨arena₁, harena₁, hpub⟩ := h
  rw [hk] at harena₁
  obtain rfl := Option.some.inj (harena.symm.trans harena₁)
  have hkeeps := KeepsSizes.allocate arena (.dir (extendDir entries entries.length n))
  have hdirAt : dirAt (arena.allocate (.dir (extendDir entries entries.length n))) arena.next =
      some (extendDir entries entries.length n) := by
    rw [dirAt_allocate, if_pos rfl]
    rfl
  obtain ⟨hpub', hlength, hsum⟩ := (hpub.keeps hkeeps).extend (m.slots i).dim hn hdirAt
  rw [hpub.bytes_keeps hkeeps] at hsum
  have harena' := arena?_modifyArena_self harena fun arena =>
    arena.allocate (.dir (extendDir entries entries.length n))
  have hself : m'.slots i = { m.slots i with blocks := arena.next } := by
    rw [hm, setSlot_self, hslot]
  have harena'' : m'.arena? (m'.slots i).areaHandle =
      some (arena.allocate (.dir (extendDir entries entries.length n))) := by
    rw [hself, hm, arena?_setSlot]
    dsimp only
    rw [hk]
    exact harena'
  refine ⟨⟨_, ⟨_, harena'', ?_⟩, hlength⟩, ?_⟩
  · rw [hself]
    exact hpub'
  · unfold Memory.publishedBytes
    rw [harena'', hself, hk, harena]
    exact hsum

/-- The bytes of a page array in a slot's area. -/
def Memory.pageBytes (m : Memory B V Q) (i : Fin ccNSlots) (dp : Nat) : Nat :=
  (m.arena? (m.slots i).areaHandle).elim 0 fun arena =>
    SharedCache.pageBytes arena (m.slots i).dim dp

theorem PageAt.bytes {dp n : Nat} (h : PageAt m i dp n) :
    m.pageBytes i dp = ccPageSize n (m.slots i).dim := by
  obtain ⟨arena, harena, hn⟩ := h
  rw [Memory.pageBytes, harena]
  exact pageBytes_of_nslots hn

theorem pageBytes_none (m : Memory B V Q) (i : Fin ccNSlots) : m.pageBytes i 0 = 0 := by
  rw [Memory.pageBytes]
  cases m.arena? (m.slots i).areaHandle <;> rfl

/-- A page array is published over another one, or over none. -/
theorem HasDirectory.publish {k blkno old : Nat} {entries : List Nat} {page : CachePage Q}
    (h : HasDirectory m i entries) (hk : (m.slots i).areaHandle = k)
    (hentry : entries[blkno]? = some old)
    (hm : m' = m.modifyArena k fun arena => (arena.allocate (.page page)).modify (m.slots i).blocks
      (CacheArray.setEntry blkno arena.next)) :
    (∃ entries', HasDirectory m' i entries' ∧ entries'.length = entries.length) ∧
      m'.publishedBytes i + m.pageBytes i old =
        m.publishedBytes i + ccPageSize page.length (m.slots i).dim := by
  obtain ⟨arena, harena, hpub⟩ := h
  have hkeeps := KeepsSizes.allocate arena (.page page)
  have hnslots : nslotsAt (arena.allocate (.page page)) arena.next = some page.length := by
    rw [nslotsAt_allocate, if_pos rfl]
    rfl
  obtain ⟨hpub', hsum⟩ := (hpub.keeps hkeeps).setEntry (m.slots i).dim hentry hnslots
  rw [hpub.bytes_keeps hkeeps, hpub.pageBytes_keeps hkeeps (List.mem_of_getElem? hentry)] at hsum
  rw [hk] at harena
  have harena' := arena?_modifyArena_self harena fun arena =>
    (arena.allocate (.page page)).modify (m.slots i).blocks (CacheArray.setEntry blkno arena.next)
  have hslots : m'.slots = m.slots := by
    rw [hm]
    rfl
  rw [← hm] at harena'
  have harea' : m'.arena? (m'.slots i).areaHandle = some ((arena.allocate (.page page)).modify
      (m.slots i).blocks (CacheArray.setEntry blkno arena.next)) := by
    rw [hslots, hk]
    exact harena'
  have hblocks : (m'.slots i).blocks = (m.slots i).blocks := by rw [hslots]
  refine ⟨⟨entries.set blkno arena.next, ⟨_, harea', ?_⟩, List.length_set⟩, ?_⟩
  · rw [hblocks]
    exact hpub'
  · unfold Memory.publishedBytes Memory.pageBytes
    rw [hslots, hk, harena', harena]
    exact hsum

/-! ### Inserts -/

section
variable {w : Insert Q}

/-- An insert that is not growing anything. -/
theorem Grows.steady {pc : Pc Q} (hgrow : ∀ {w g added old p}, pc ≠ .grow w g added old p)
    (hblocks : (be.handles w.cc).blocksDp = (m.slots (be.slotFor w)).blocks)
    (hnblocks : (m.slots (be.slotFor w)).nblocks = (be.handles w.cc).nblocks)
    (hextend : pc.extends? = some w → (be.handles w.cc).nblocks ≤ w.t.blkno)
    (htarget : ∀ {old}, pc.target = some (w, old) → Replaces m (be.slotFor w) w old) :
    Grows m (be.goto pc) w := by
  cases pc with
  | grow w' g added old p => exact absurd rfl hgrow
  | _ =>
    exact ⟨hblocks, fun hn => hnblocks.trans (Option.some.inj hn), (fun h => by cases h), hextend,
      htarget⟩

/-- The snapshot of an insert that is not growing anything. -/
theorem Grows.snapshot (h : Grows m be w)
    (hgrow : ∀ {w g added old p}, be.pc ≠ .grow w g added old p) :
    (be.handles w.cc).blocksDp = (m.slots (be.slotFor w)).blocks ∧
      (m.slots (be.slotFor w)).nblocks = (be.handles w.cc).nblocks := by
  obtain ⟨hnewest, hcounted, -, -, -⟩ := h
  unfold Backend.newest at hnewest
  unfold Backend.counted at hcounted
  cases hpc : be.pc with
  | grow w' g added old p => exact absurd hpc hgrow
  | _ =>
    rw [hpc] at hnewest hcounted
    exact ⟨hnewest, hcounted rfl⟩

/-- The directory of an insert that is not growing it. -/
theorem Teller.listed (ht : Teller m be) (hworks : be.pc.works = some w)
    (hrelength : be.relength = none) :
    ∃ entries, HasDirectory m (be.slotFor w) entries ∧
      (m.slots (be.slotFor w)).nblocks = entries.length := by
  obtain ⟨entries, hdir, hlength | ⟨n, hn⟩⟩ := ht.directory hworks
  · exact ⟨entries, hdir, hlength⟩
  · rw [hrelength] at hn
    cases hn

/-- What a directory looks like through the insert's handle. -/
theorem Present.directory (hp : Present m (be.handles w.cc)) {entries entries' : List Nat}
    {a : Area Q}
    (h : HasDirectory m (be.slotFor w) entries) (harea : m.areaOf (be.handles w.cc) = some a)
    (hdir : a.dir? (m.slots (be.slotFor w)).blocks = some entries') :
    entries' = entries ∧ m.arena? (be.handles w.cc).area = some a.arena := by
  have harena := hp.arena? harea
  obtain ⟨arena, harena', hpub⟩ := h
  obtain rfl := Option.some.inj (harena.symm.trans harena')
  refine ⟨Option.some.inj ((a.dirAt_of_dir? hdir).symm.trans hpub.dir), ?_⟩
  rw [← hp.areaHandle]
  exact harena

/-- A growth goes on. -/
theorem Grows.growing (h : Grows m be w) {g : Growth} {added : Nat} {old : Option (Nat × Nat)}
    {p p' : GrowPc} (hpc : be.pc = .grow w g added old p) (hp : p ≠ .storeNblocks)
    (hp' : p' ≠ .storeNblocks)
    (hblocks : (m'.slots (be.slotFor w)).blocks = (m.slots (be.slotFor w)).blocks)
    (hnblocks : (m'.slots (be.slotFor w)).nblocks = (m.slots (be.slotFor w)).nblocks) :
    Grows m' (be.goto (.grow w g added old p')) w := by
  obtain ⟨hnewest, hcounted, -, -, -⟩ := h
  rw [Backend.newest, hpc] at hnewest
  unfold Backend.counted at hcounted
  rw [hpc] at hcounted
  refine ⟨?_, fun hn => ?_, fun hn => ?_, (fun h => by cases h), (fun h => by cases h)⟩
  · rw [slotFor_goto, hblocks, ← hnewest]
    cases g <;> rfl
  · rw [slotFor_goto, hnblocks]
    apply hcounted
    cases g with
    | dir dp n =>
      cases p <;> cases p' <;> first | exact absurd rfl hp | exact absurd rfl hp' | exact hn
    | page dp => exact hn
  · cases g <;> cases p' <;> first | exact absurd rfl hp' | cases hn

/-- A growth ends. -/
theorem Grows.grown (h : Grows m be w) {g : Growth} {added : Nat} {old : Option (Nat × Nat)}
    {p : GrowPc} (hpc : be.pc = .grow w g added old p) (hp : p ≠ .storeNblocks)
    (hslots : m'.slots = m.slots) : Grows m' (be.grown w g) w := by
  obtain ⟨hnewest, hcounted, -, -, -⟩ := h
  rw [Backend.newest, hpc] at hnewest
  unfold Backend.counted at hcounted
  rw [hpc] at hcounted
  cases g with
  | dir dp n =>
    have hn := @hcounted n (by cases p <;> first | rfl | exact absurd rfl hp)
    have hhandle : (be.grown w (.dir dp n)).handles w.cc =
        { be.handles w.cc with blocksDp := dp, nblocks := n } := by
      simp only [Backend.grown, Backend.goto, Backend.setHandle, Function.update_self]
    have hslot : (be.grown w (.dir dp n)).slotFor w = be.slotFor w := by
      unfold Backend.slotFor
      rw [hhandle]
    refine ⟨?_, fun hn' => ?_, (fun h => by cases h), (fun h => by cases h), (fun h => by cases h)⟩
    · change ((be.grown w (.dir dp n)).handles w.cc).blocksDp = _
      rw [hslot, hslots, hhandle]
      exact hnewest
    · change some ((be.grown w (.dir dp n)).handles w.cc).nblocks = _ at hn'
      rw [hhandle] at hn'
      rw [hslot, hslots, hn]
      exact Option.some.inj hn'
  | page dp =>
    rw [Backend.grown, ← hslots] at *
    exact Grows.steady (fun h => by cases h) hnewest (hcounted rfl) (fun h => by cases h)
      (fun h => by cases h)

/-- What an insert knows after a step that changes arrays or bytes. -/
theorem Builds.grows (h : Builds codec m be m' be') (ht : Teller m be)
    (hbuilds : be.pc.builds ∨ be'.pc.builds) (hw : be'.pc.works = some w) : Grows m' be' w := by
  cases h with
  | same _ hpc hpc' =>
    rw [hpc, hpc'] at hbuilds
    obtain hbuilds | hbuilds := hbuilds <;> cases hbuilds
  | growDir w' a entries' hpc harea hdir hm hbe =>
    have hworks : be.pc.works = some w' := by rw [hpc]; rfl
    subst hbe
    cases hw
    have hold := ht.counts.working hworks
    have hp := ht.present hworks
    obtain ⟨-, hnblocks⟩ := hold.snapshot (fun h => by cases hpc.symm.trans h)
    obtain ⟨entries, hdirectory, hlength⟩ := ht.listed hworks (by rw [Backend.relength, hpc])
    obtain ⟨rfl, harena⟩ := hp.directory hdirectory harea hdir
    have hle := hold.extend (by rw [hpc]; rfl)
    obtain ⟨hdirectory', -⟩ := hdirectory.grow hp.areaHandle harena hlength
      (by rw [hnblocks, ccDirGrow]; omega) rfl hm
    refine ⟨?_, (fun h => by cases h), fun hn => ?_, (fun h => by cases h), (fun h => by cases h)⟩
    · rw [hm, slotFor_goto, setSlot_self]
      rfl
    · cases hn
      exact hdirectory'
  | newPage w' a hpc harea hm hbe | growPage w' old a entries hpc hold harea hpage hm hbe =>
    have hworks : be.pc.works = some w' := by rw [hpc]; rfl
    obtain ⟨hblocks, hnblocks⟩ := (ht.counts.working hworks).snapshot
      fun h => by cases hpc.symm.trans h
    subst hm hbe
    cases hw
    exact ⟨hblocks, fun hn => hnblocks.trans (Option.some.inj hn), (fun h => by cases h),
      (fun h => by cases h), (fun h => by cases h)⟩
  | growNblocks w' dp n added old hpc hm hbe =>
    have hold := ht.counts.working (w := w') (by rw [hpc]; rfl)
    have hnewest := hold.newest
    rw [Backend.newest, hpc] at hnewest
    subst hm hbe
    cases hw
    refine ⟨?_, fun hn => ?_, (fun h => by cases h), (fun h => by cases h), (fun h => by cases h)⟩
    · rw [slotFor_goto, setSlot_self]
      exact hnewest
    · cases hn
      rw [slotFor_goto, setSlot_self]
  | growBytes w' g added old hpc hm hbe | shrinkBytes w' g added dp size hpc hm hbe =>
    have hold := ht.counts.working (w := w') (by rw [hpc]; rfl)
    subst hm hbe
    cases hw
    refine hold.growing hpc (fun h => by cases h) (fun h => by cases h) ?_ ?_
    · rw [setSlot_self]
    · rw [setSlot_self]
  | growTotal w' g added old hpc hm hbe =>
    have hold := ht.counts.working (w := w') (by rw [hpc]; rfl)
    subst hm hbe
    cases old with
    | none =>
      obtain rfl : w' = w := by cases g <;> exact Option.some.inj hw
      exact hold.grown hpc (fun h => by cases h) rfl
    | some old =>
      cases hw
      exact hold.growing hpc (fun h => by cases h) (fun h => by cases h) rfl rfl
  | quiesced w' g added dp size hpc hactive hm hbe | free w' g added dp size hpc hm hbe =>
    have hold := ht.counts.working (w := w') (by rw [hpc]; rfl)
    subst hm hbe
    cases hw
    exact hold.growing hpc (fun h => by cases h) (fun h => by cases h) rfl rfl
  | retire w' g added dp size hpc hactive hm hbe =>
    have hold := ht.counts.working (w := w') (by rw [hpc]; rfl)
    subst hm hbe
    cases hw
    refine hold.growing hpc (fun h => by cases h) (fun h => by cases h) ?_ ?_ <;> split
    · rw [setSlot_self]
    · rfl
    · rw [setSlot_self]
    · rfl
  | shrinkTotal w' g added dp size hpc hm hbe =>
    have hold := ht.counts.working (w := w') (by rw [hpc]; rfl)
    subst hm hbe
    obtain rfl : w' = w := by cases g <;> exact Option.some.inj hw
    exact hold.grown hpc (fun h => by cases h) rfl
  | reclaim d j cc hpc _ hm hbe =>
    rw [hpc, hbe] at hbuilds
    cases d with
    | release k => cases k <;> obtain hbuilds | hbuilds := hbuilds <;> cases hbuilds
    | growDir | growPage => obtain hbuilds | hbuilds := hbuilds <;> cases hbuilds
  | publish _ _ _ error _ _ hbe =>
    subst hbe
    cases error <;> cases hw
  | lose _ _ _ _ _ hbe | create _ _ _ _ _ hbe | loadBlocks _ _ _ _ _ hbe
  | loadNblocks _ _ _ _ _ _ _ _ hbe | strand _ _ _ _ _ hbe | readOther _ _ _ _ _ hbe
  | skipPage _ _ _ _ _ _ _ _ _ _ _ hbe | loadPage _ _ _ _ _ _ _ _ _ _ _ _ _ hbe
  | publishPage _ _ _ _ _ _ _ _ _ _ hbe
  | loaded _ _ _ _ _ _ _ _ _ _ _ hbe | loadBytes _ _ _ _ _ _ _ _ hbe | loadTotal _ _ _ _ _ _ _ hbe
  | mark _ _ _ _ hbe | clear _ _ _ _ hbe | clearNblocks _ _ _ _ hbe | clearBlocks _ _ _ _ hbe
  | clearTotal _ _ _ _ hbe | write _ _ _ _ _ _ hbe | clearHit _ _ _ _ _ _ _ _ hbe =>
    subst hbe
    cases hw

end

end

section
variable {B V Q : Type} {m m' : Memory B V Q} {b : B} {be be' : Backend Q} {codec : Codec V Q}
  {i : Fin ccNSlots} {w : Insert Q}

/-- An entry of the insert's directory is the one it is going to replace. -/
theorem Present.replaces (hp : Present m (be.handles w.cc))
    (hdir : ∃ entries, HasDirectory m (be.slotFor w) entries)
    (hblocks : (be.handles w.cc).blocksDp = (m.slots (be.slotFor w)).blocks) {old : Nat}
    (hentry : m.dirEntry (be.handles w.cc) (be.handles w.cc).blocksDp w.t.blkno = some old)
    (hpage : old ≠ 0 → ∃ entries, m.pageOf (be.handles w.cc) old = some entries ∧
      entries.length ≤ ccPageGrow w.t.offno) : Replaces m (be.slotFor w) w old := by
  obtain ⟨entries, hdirectory⟩ := hdir
  obtain ⟨entries', hentries, hk⟩ := Option.bind_eq_some_iff.mp hentry
  obtain ⟨a, ha, hd⟩ := Option.bind_eq_some_iff.mp hentries
  rw [hblocks] at hd
  obtain ⟨rfl, -⟩ := hp.directory hdirectory ha hd
  refine ⟨entries', hdirectory, hk, fun hne => ?_⟩
  obtain ⟨page, hpage, hle⟩ := hpage hne
  obtain ⟨a', ha', hpage⟩ := Option.bind_eq_some_iff.mp hpage
  exact ⟨page.length, ⟨a'.arena, hp.arena? ha', a'.nslotsAt_of_page? hpage⟩, hle⟩

theorem ccPageGrow_ge (n : Nat) : n ≤ ccPageGrow n := by
  unfold ccPageGrow
  omega

variable [DecidableEq B] {c : Choice} {r : Memory B V Q × Backend Q}

/-- **What an insert knows after a step that builds nothing.** -/
theorem proceed_grows (ht : Teller m be)
    (hbuilds : Builds codec m be r.1 r.2) (hreg : Registers m be c r.1 r.2.pc)
    (hr : proceed codec m b be c = some r) (hpc' : r.2.pc.builds = false)
    (hpc : be.pc.builds = false) (hw : r.2.pc.works = some w) : Grows r.1 r.2 w := by
  obtain hworks | ⟨hlock, hlocked⟩ := (proceed_leads hr).to_works hw
  · have hold := ht.counts.working hworks
    have hp := ht.present hworks
    obtain ⟨hblocks, hnblocks⟩ := hold.snapshot (by
      intro w g added old p h
      rw [h] at hpc
      cases hpc)
    cases hq : be.pc with
    | insert w' p =>
      rw [hq] at hworks
      cases hworks
      rw [proceed, hq] at hr
      cases p with
      | ensureDir =>
        cases hr
        refine .steady ?_ hblocks hnblocks ?_ ?_
        · split <;> exact fun h => by cases h
        · split
          · exact fun _ => ‹_›
          · rintro ⟨⟩
        · split <;> exact fun h => by cases h
      | ensurePage =>
        obtain ⟨entries, hdir, -⟩ := ht.directory (w := w) (by rw [hq]; rfl)
        simp only [ensurePage] at hr
        split at hr
        · cases hr
          cases hw
        · rename_i hentry
          split at hr <;> cases hr
          · cases hw
          · refine .steady (fun h => by cases h) hblocks hnblocks (fun h => by cases h)
              fun htarget => ?_
            cases htarget
            exact hp.replaces ⟨entries, hdir⟩ hblocks hentry fun h => absurd rfl h
        · rename_i page hne hentry
          split at hr
          · cases hr
            cases hw
          · rename_i hpage
            split at hr
            · cases hr
              exact .steady (fun h => by cases h) hblocks hnblocks (fun h => by cases h)
                (fun h => by cases h)
            · split at hr <;> cases hr
              · cases hw
              · refine .steady (fun h => by cases h) hblocks hnblocks (fun h => by cases h)
                  fun htarget => ?_
                cases htarget
                refine hp.replaces ⟨entries, hdir⟩ hblocks hentry fun _ =>
                  ⟨_, hpage, ?_⟩
                exact (Nat.le_of_lt (Nat.lt_of_not_le ‹_›)).trans (ccPageGrow_ge _)
      | growDir | growPage old | write dp =>
        simp only [ensurePage] at hr
        repeat' split at hr
        all_goals cases hr
        all_goals first | (cases hw; done) | cases hpc'
    | drain k j cc p =>
      have hu : Undisturbed m r.1 (be.slotFor w) :=
        hbuilds.undisturbed hreg (by rw [Backend.rebuilds, hq]; rintro ⟨⟩)
          (by rw [Backend.relinks, hq]; rintro ⟨⟩)
      -- the caller of the drain goes on
      have hgoes : ∀ {pc : Pc Q}, r.2 = be.goto pc →
          (∀ {w g added old p}, pc ≠ .grow w g added old p) →
          (pc.extends? = some w → be.pc.extends? = some w) →
          (∀ {old}, pc.target = some (w, old) → be.pc.target = some (w, old)) →
          Grows r.1 r.2 w := by
        intro pc hbe hgrow hextend htarget
        rw [hbe]
        exact (Grows.steady hgrow hblocks hnblocks (fun h => hold.extend (hextend h))
          fun h => hold.target (htarget h)).undisturbed hu
      rw [hq] at hworks hgoes
      rw [proceed, hq] at hr
      cases k with
      | release k => cases hworks
      | growDir w' | growPage w' old =>
        cases hworks
        cases p with
        | check =>
          simp only [drainRetired, drained] at hr
          split at hr <;> cases hr <;> exact hgoes rfl (fun h => by cases h) id id
        | free =>
          simp only [drainRetired, drained] at hr
          split at hr <;> cases hr
          · exact hgoes rfl (fun h => by cases h) id id
          · cases hw
    | grow w' g added old p =>
      rw [hq] at hpc
      cases hpc
    | _ =>
      rw [hq] at hworks
      cases hworks
  · rw [proceed, hlock] at hr
    simp only [writerAttach, lockForWrite] at hr
    repeat' split at hr
    all_goals cases hr
    all_goals cases hlocked
    refine .steady (fun h => by cases h) ?_ ?_ (fun h => by cases h) (fun h => by cases h)
    · simp only [Backend.slotFor, Backend.setHandle, Function.update_self, setSlot_self]
    · simp only [Backend.slotFor, Backend.setHandle, Function.update_self, setSlot_self]

/-- **What the backend that moves knows after its step.** -/
theorem proceed_counts (ht : Teller m be)
    (hbuilds : Builds codec m be r.1 r.2) (hreg : Registers m be c r.1 r.2.pc)
    (hr : proceed codec m b be c = some r) : Counts r.1 r.2 := by
  refine ⟨fun hpc => hbuilds.loadCounts ht hreg hpc, fun {w} hw => ?_⟩
  cases hpc : be.pc.builds with
  | true => exact hbuilds.grows ht (.inl hpc) hw
  | false =>
    cases hpc' : r.2.pc.builds with
    | true => exact hbuilds.grows ht (.inr hpc') hw
    | false => exact proceed_grows ht hbuilds hreg hr hpc' hpc hw

end

end PgAcorn.SharedCache
