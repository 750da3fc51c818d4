import PgAcorn.SharedCache.Incarnation
import PgAcorn.SharedCache.References
import PgAcorn.SharedCache.Flow

/-! Handles and the incarnations they were made for.

A handle names an area, and the area says for which slot and under which generation
it was made; a slot that still has the area has the handle's dimension too. Nobody
but its loader has a handle on an area that is being loaded. So a backend whose
handle names the area of a slot knows which incarnation it works on. -/
namespace PgAcorn.SharedCache
open Library
open CodeCache (Key ccNSlots SlotState Codec)

section
variable {B V Q : Type}

/-- A handle's area was made for its slot under its generation; and while the slot has
the incarnation, it has the handle's dimension. -/
structure Issued (m : Memory B V Q) (h : Handle) : Prop where
  tag : ∃ t, m.tag? h.area = some t ∧ t.slot = h.slot ∧ t.generation = h.generation
  dim : (m.slots h.slot).areaHandle = h.area → (m.slots h.slot).generation = h.generation →
    (m.slots h.slot).dim = h.dim

/-- What an attachment in progress has read is still so. -/
structure Offered (m : Memory B V Q) (x : Key) (i : Fin ccNSlots) (area dim : Nat)
    (generation : BitVec 32) : Prop where
  serves : (m.slots i).state.serves
  key : (m.slots i).key = x
  areaHandle : (m.slots i).areaHandle = area
  dim : (m.slots i).dim = dim
  generation : (m.slots i).generation = generation

/-- The area that a load has published. -/
def LoadPc.load? : LoadPc → Option Load
  | .storeBlocks l | .storeNblocks l | .readOther l | .page l _ _ _ _ | .publishPage l _ _ _ _ _ =>
    some l
  | _ => none

/-- What a backend knows of the incarnations it has to do with. -/
structure Known (m : Memory B V Q) (be : Backend Q) : Prop where
  issued : ∀ {x cc}, be.attachFind x = some cc → Issued m (be.handles cc)
  attaching : ∀ {k i area dim generation},
    (be.pc = .attach k (.readBlocks i area dim generation) ∨
      ∃ dp, be.pc = .attach k (.readNblocks i area dim generation dp)) →
    Offered m k.key i area dim generation
  loading : ∀ {q i p l}, be.pc = .load q i p → p.load? = some l →
    (m.slots i).areaHandle = l.area ∧ (m.slots i).dim = q.dim

/-- **Handles**: every backend knows its incarnations, and nobody but its loader has a
handle on an area that is being loaded. -/
structure Handles (s : State B V Q) : Prop where
  known : ∀ b, Known s.memory (s.backends b)
  unshared : ∀ {b b' i x cc}, (s.backends b).pc.place = .loading i →
    (s.backends b').attachFind x = some cc →
    ((s.backends b').handles cc).area = (s.memory.slots i).areaHandle → b' = b

/-! ### Entries -/

variable {m m' : Memory B V Q} {b : B} {be be' : Backend Q} {c : Choice} {pc' : Pc Q}

theorem Unreferring.entry {be₁ : Backend Q} (h : Unreferring m be₁ m' be') {x : Key} {cc : Nat}
    (hfind : be'.attachFind x = some cc) : be₁.attachFind x = some cc ∧
      (be₁.handles cc).SameMapping (be'.handles cc) :=
  ⟨(attachFind_congr h.attached x).symm.trans hfind, (h.handles cc).toSameMapping⟩

/-- A change of a handle's snapshot and counter. -/
theorem sameMapping_setHandle {cc cc' : Nat} {g : Handle} (hg : (be.handles cc).SameMapping g) :
    (be.handles cc').SameMapping ((be.setHandle cc g).handles cc') := by
  simp only [Backend.setHandle, Function.update_apply]
  split
  · subst_vars
    exact hg
  · exact .refl _

/-- An entry was in the table before, or has just been stored. -/
theorem Refers.entry (hr : Refers m be m' be') (hplaced : be.Placed) {x : Key} {cc : Nat}
    (hfind : be'.attachFind x = some cc) :
    (be.attachFind x = some cc ∧ (be.handles cc).SameMapping (be'.handles cc)) ∨
      ∃ g, be.Stores m g ∧ g.key = x ∧ g.SameMapping (be'.handles cc) := by
  cases hr with
  | same hu => exact .inl (hu.entry hfind)
  | forget y _ _ hu =>
    obtain ⟨hx, hsame⟩ := hu.entry hfind
    rw [attachFind_forgetAttach] at hx
    split at hx
    · cases hx
    · rename_i hne
      rw [handles_forgetAttach hplaced hx hne] at hsame
      exact .inl ⟨hx, hsame⟩
  | store g address be₁ hfrom hnew hstore _ hu =>
    obtain ⟨hx, hsame⟩ := hu.entry hfind
    rw [attachFind_attachStore hnew hstore] at hx
    split at hx
    · cases hx
      rw [(attachStore_address hnew hstore).1] at hsame
      exact .inr ⟨g, hfrom, Eq.symm ‹_›, hsame⟩
    · rw [handles_attachStore hnew hstore hx] at hsame
      exact .inl ⟨hx, hsame⟩
  | count q cached cc' _ hbe _ =>
    subst hbe
    exact .inl ⟨hfind, .refl _⟩
  | take q cached cc' _ _ hbe _ =>
    subst hbe
    exact .inl ⟨hfind, sameMapping_setHandle ⟨rfl, rfl, rfl, rfl, rfl, rfl⟩⟩
  | backOut q cached cc' _ hbe _ =>
    subst hbe
    cases cached with
    | true =>
      have hx : (be.forgetAttach q.key).attachFind x = some cc := hfind
      rw [attachFind_forgetAttach] at hx
      split at hx
      · cases hx
      · rename_i hne
        refine .inl ⟨hx, ?_⟩
        simp only [if_true, Backend.goto]
        rw [handles_forgetAttach hplaced hx hne]
        exact .refl _
    | false => exact .inl ⟨hfind, .refl _⟩
  | opened q cached cc' dp n _ hbe _ =>
    subst hbe
    exact .inl ⟨hfind, sameMapping_setHandle ⟨rfl, rfl, rfl, rfl, rfl, rfl⟩⟩
  | ended sc _ _ _ hbe _ =>
    subst hbe
    exact .inl ⟨hfind, sameMapping_setHandle ⟨rfl, rfl, rfl, rfl, rfl, rfl⟩⟩
  | endedBare sc _ _ _ hbe _ =>
    subst hbe
    exact .inl ⟨hfind, .refl _⟩
  | torn level cc' _ _ hbe _ =>
    subst hbe
    exact .inl ⟨hfind, sameMapping_setHandle ⟨rfl, rfl, rfl, rfl, rfl, rfl⟩⟩
  | tornAll level _ _ hbe _ =>
    subst hbe
    exact .inl ⟨hfind, .refl _⟩
  | uncount k i cc' _ hbe _ =>
    subst hbe
    exact .inl ⟨hfind, .refl _⟩

/-! ### What survives a step -/

/-- Areas keep their slot and their generation. -/
theorem Registers.tags (hreg : Registers m be c m' pc') {k : Nat} {t : Tag}
    (ht : m.tag? k = some t) :
    ∃ t', m'.tag? k = some t' ∧ t'.slot = t.slot ∧ t'.generation = t.generation := by
  cases hreg with
  | same h _ | pick _ _ _ _ h | name _ _ _ _ _ _ _ h | claim _ _ _ _ _ h | publish _ _ _ _ _ _ h
  | empty _ _ _ _ h | clear _ _ _ _ h | losePin _ _ _ _ _ _ h =>
    exact ⟨t, (h.tag? k).trans ht, rfl, rfl⟩
  | lose _ _ _ _ _ _ _ h | create _ _ _ _ _ _ _ h =>
    exact ⟨t, (h.tag? k).trans (tag?_append m _ ht), rfl, rfl⟩
  | dropPin e v _ _ _ _ h =>
    rw [h.tag?, tag?_unpin]
    change ∃ t', Option.map _ (m.tag? k) = some t' ∧ _
    rw [ht]
    refine ⟨_, rfl, ?_⟩
    split <;> exact ⟨rfl, rfl⟩

/-- A slot's dimension comes and goes with its incarnation. -/
theorem Registers.dim (hreg : Registers m be c m' pc') {i : Fin ccNSlots}
    (hcreate : ∀ q n, be.pc = .load q i (.create n) → ¬ m.dirLock.free)
    (hclear : ∀ e v, be.pc = .evict e (.clear v) → v.slot ≠ i) :
    (m'.slots i).dim = (m.slots i).dim := by
  cases hreg with
  | same hs _ | pick _ _ _ _ hs | lose _ _ _ _ _ _ _ hs => exact hs.dim i
  | name _ _ _ _ _ _ _ hs | claim _ _ _ _ _ hs | publish _ _ _ _ _ _ hs | empty _ _ _ _ hs
  | losePin _ _ _ _ _ _ hs | dropPin _ _ _ _ _ _ hs =>
    exact (hs.dim i).trans (setSlot_congr Slot.dim (by rfl) i)
  | create q j n hpc _ _ hfree hs =>
    rw [hs.dim, setSlot_ne]
    intro hj
    subst hj
    exact hcreate q n hpc hfree
  | clear e v hpc _ hs =>
    rw [hs.dim, setSlot_ne _ _ (Ne.symm (hclear e v hpc))]

theorem Issued.mapping {g h : Handle} (hg : Issued m g) (hsame : g.SameMapping h) : Issued m h where
  tag := by
    rw [hsame.area, hsame.slot, hsame.generation]
    exact hg.tag
  dim := by
    rw [hsame.area, hsame.slot, hsame.generation, hsame.dim]
    exact hg.dim

/-- An incarnation is published once and cleared once. -/
theorem Issued.registers {h : Handle} (hi : Issued m h) (hreg : Registers m be c m' pc')
    (hplace : be.pc.place.Holds m) : Issued m' h where
  tag := by
    obtain ⟨t, ht, hslot, hgeneration⟩ := hi.tag
    obtain ⟨t', ht', hslot', hgeneration'⟩ := hreg.tags ht
    exact ⟨t', ht', hslot'.trans hslot, hgeneration'.trans hgeneration⟩
  dim := by
    cases hreg with
    | same hs _ | pick _ _ _ _ hs | lose _ _ _ _ _ _ _ hs =>
      rw [hs.areaHandle, hs.generation, hs.dim]
      exact hi.dim
    | name _ _ _ _ _ _ _ hs | claim _ _ _ _ _ hs | publish _ _ _ _ _ _ hs | empty _ _ _ _ hs
    | losePin _ _ _ _ _ _ hs =>
      rw [hs.areaHandle, hs.generation, hs.dim, setSlot_congr Slot.areaHandle (by rfl),
        setSlot_congr Slot.generation (by rfl), setSlot_congr Slot.dim (by rfl)]
      exact hi.dim
    | dropPin e v _ _ _ _ hs =>
      rw [hs.areaHandle, hs.generation, hs.dim]
      change ((m.setSlot v.slot _).slots h.slot).areaHandle = _ →
        ((m.setSlot v.slot _).slots h.slot).generation = _ →
          ((m.setSlot v.slot _).slots h.slot).dim = _
      rw [setSlot_congr Slot.areaHandle (by rfl), setSlot_congr Slot.generation (by rfl),
        setSlot_congr Slot.dim (by rfl)]
      exact hi.dim
    | create q i n _ _ _ _ hs =>
      rw [hs.areaHandle, hs.generation, hs.dim]
      by_cases hslot : h.slot = i
      · -- the new area is nobody's yet
        rw [hslot, setSlot_self]
        intro harea
        obtain ⟨t, ht, -⟩ := hi.tag
        simp [Memory.tag?, ← harea] at ht
      · rw [setSlot_ne _ _ hslot]
        exact hi.dim
    | clear e v hpc _ hs =>
      rw [hs.areaHandle, hs.generation, hs.dim]
      by_cases hslot : h.slot = v.slot
      · rw [hslot, setSlot_self]
        intro harea hgeneration
        rw [hpc] at hplace
        obtain ⟨-, t, ht, -, ht'⟩ := hplace
        obtain ⟨t₁, ht₁, -, hgen⟩ := hi.tag
        change (m.slots v.slot).areaHandle = h.area at harea
        rw [← harea, ht] at ht₁
        cases ht₁
        rw [ht', ← hgeneration] at hgen
        dsimp only at hgen
        bv_omega
      · rw [setSlot_ne _ _ hslot]
        exact hi.dim

theorem Offered.congr {x : Key} {i : Fin ccNSlots} {area dim : Nat} {generation : BitVec 32}
    (h : Offered m x i area dim generation) (hentry : (m'.slots i).entry = (m.slots i).entry) :
    Offered m' x i area dim generation := by
  refine ⟨?_, (congrArg Entry.key hentry).trans h.key,
    (congrArg Entry.areaHandle hentry).trans h.areaHandle,
    (congrArg Entry.dim hentry).trans h.dim, (congrArg Entry.generation hentry).trans h.generation⟩
  have hstate : (m'.slots i).state = (m.slots i).state := congrArg Entry.state hentry
  rw [hstate]
  exact h.serves

/-- While a backend shares the directory lock, what is served stays as it is. -/
theorem Offered.registers {x : Key} {i : Fin ccNSlots} {area dim : Nat} {generation : BitVec 32}
    (h : Offered m x i area dim generation) (hreg : Registers m be c m' pc') (hat : At m b be)
    (hdir : ¬ m.dirLock.free) (hholds : ¬ be.pc.holdsDir) : Offered m' x i area dim generation := by
  -- a change of another slot
  have hother : ∀ {j slot}, j ≠ i → SameRegistry (m.setSlot j slot) m' →
      Offered m' x i area dim generation := by
    intro j slot hj hs
    apply h.congr
    rw [hs.entry, setSlot_ne _ _ hj.symm]
  cases hreg with
  | same hs _ | pick _ _ _ _ hs | lose _ _ _ _ _ _ _ hs => exact h.congr (hs.entry i)
  | name _ _ _ _ hfree => exact absurd hfree hdir
  | create _ _ _ _ _ _ hfree => exact absurd hfree hdir
  | claim q j _ _ hempty hs =>
    apply hother _ hs
    intro hj
    have hserves := h.serves
    rw [← hj, hempty] at hserves
    cases hserves
  | publish q j _ _ hpc _ hs =>
    apply hother _ hs
    intro hj
    have hserves := h.serves
    rw [← hj, hat.loads (by rw [hpc]; rfl)] at hserves
    cases hserves
  | empty e v hpc | clear e v hpc | dropPin e v hpc | losePin e v hpc =>
    rw [hpc] at hholds
    exact absurd rfl hholds

/-! ### The backend that moves -/

variable [DecidableEq B] {codec : Codec V Q} {r : Memory B V Q × Backend Q}

/-- What an attachment reads. -/
theorem proceed_attaching (hr : proceed codec m b be c = some r) {k : AttachFor Q}
    {i : Fin ccNSlots} {area dim : Nat} {generation : BitVec 32}
    (hpc' : r.2.pc = .attach k (.readBlocks i area dim generation) ∨
      ∃ dp, r.2.pc = .attach k (.readNblocks i area dim generation dp)) :
    (∀ j, (r.1.slots j).entry = (m.slots j).entry) ∧
      (be.pc = .attach k (.readBlocks i area dim generation) ∨
        Offered m k.key i area dim generation) := by
  have hleads := proceed_leads hr
  have hpc : ∃ p, be.pc = .attach k p := by
    obtain hpc' | ⟨dp, hpc'⟩ := hpc'
    all_goals
      rw [hpc'] at hleads
      obtain hpc | ⟨j, hj⟩ := hleads.to_attach
      · exact hpc
      · cases hj
  obtain ⟨p, hpc⟩ := hpc
  rw [proceed, hpc] at hr
  cases p with
  | lock j =>
    simp only [attach] at hr
    repeat' split at hr
    all_goals cases hr
    · obtain hpc' | ⟨dp, hpc'⟩ := hpc' <;> cases k <;> cases hpc'
    · rename_i hserves
      obtain hpc' | ⟨dp, hpc'⟩ := hpc' <;> cases hpc'
      exact ⟨fun _ => rfl, .inr ⟨hserves.1, hserves.2, rfl, rfl, rfl⟩⟩
    · obtain hpc' | ⟨dp, hpc'⟩ := hpc' <;> cases k <;> cases hpc'
  | readBlocks j area' dim' generation' =>
    cases hr
    obtain hpc' | ⟨dp, hpc'⟩ := hpc' <;> cases hpc'
    exact ⟨fun _ => rfl, .inl hpc⟩
  | readNblocks j area' dim' generation' dp' =>
    simp only [attach] at hr
    split at hr
    · cases hr
      obtain hpc' | ⟨dp, hpc'⟩ := hpc' <;> cases hpc'
    · obtain ⟨be₁, -, rfl⟩ := Option.map_eq_some_iff.mp hr
      dsimp only [Backend.goto] at hpc'
      split at hpc'
      · obtain hpc' | ⟨dp, hpc'⟩ := hpc' <;> cases k <;> cases hpc'
      · obtain hpc' | ⟨dp, hpc'⟩ := hpc' <;> cases hpc'

/-- What a load has published. -/
theorem proceed_loading (hr : proceed codec m b be c = some r) {q : BeginScan} {i : Fin ccNSlots}
    {p' : LoadPc} {l : Load} (hpc' : r.2.pc = .load q i p') (hl : p'.load? = some l) :
    (∃ p, be.pc = .load q i p ∧ p.load? = some l ∧
      ∀ j, (r.1.slots j).entry = (m.slots j).entry) ∨
        (r.1.slots i).areaHandle = l.area ∧ (r.1.slots i).dim = q.dim := by
  have hleads := proceed_leads hr
  rw [hpc'] at hleads
  obtain ⟨p, hpc⟩ | rfl | ⟨n, rfl⟩ := hleads.to_load
  · rw [proceed, hpc] at hr
    cases p with
    | create nblocks =>
      simp only [load] at hr
      repeat' split at hr
      all_goals cases hr
      · cases hpc'
      · cases hpc'
      · cases hpc'
        cases hl
        refine .inr ?_
        rw [setSlot_self]
        exact ⟨rfl, rfl⟩
    | storeBlocks l' =>
      cases hr
      cases hpc'
      cases hl
      exact .inl ⟨_, hpc, rfl, fun j => setSlot_congr Slot.entry (by rfl) j⟩
    | storeNblocks l' =>
      obtain rfl | ⟨be₁, -, rfl⟩ := load_storeNblocks hr
      · cases hpc'
      · cases hpc'
        cases hl
        exact .inl ⟨_, hpc, rfl, fun j => setSlot_congr Slot.entry (by rfl) j⟩
    | start | readOther | page | publishPage | storeBytes | addTotal | storeState =>
      simp only [load] at hr
      repeat' split at hr
      all_goals cases hr
      all_goals cases hpc'
      all_goals cases hl
      all_goals exact .inl ⟨_, hpc, rfl, fun _ => rfl⟩
  · cases hl
  · cases hl

omit [DecidableEq B] in
/-- What is stored was made for what the slot says. -/
theorem Known.stores (h : Known m be) (hlive : ∀ {i}, (m.slots i).state.serves → Current m i)
    (hplace : be.pc.place.Holds m) {g : Handle} (hg : be.Stores m g) : Issued m g := by
  cases hg with
  | @attach k i area dim generation dp hpc =>
    have ho := h.attaching (.inr ⟨dp, hpc⟩)
    obtain ⟨t, ht, hslot, hgeneration⟩ := hlive ho.serves
    refine ⟨⟨t, ?_, hslot, hgeneration.trans ho.generation⟩, fun _ _ => ho.dim⟩
    rw [← ho.areaHandle]
    exact ht
  | @load q i l hpc =>
    obtain ⟨harea, hdim⟩ := h.loading hpc rfl
    rw [hpc] at hplace
    obtain ⟨t, ht, hslot, hgeneration⟩ := hplace
    refine ⟨⟨t, ?_, hslot, hgeneration⟩, fun _ _ => hdim⟩
    change m.tag? l.area = some t
    rw [← harea]
    exact ht

omit [DecidableEq B] in
/-- The entries after a step of their backend. -/
theorem Known.entries (h : Known m be) (hlive : ∀ {i}, (m.slots i).state.serves → Current m i)
    (hplace : be.pc.place.Holds m) (hplaced : be.Placed) (hr : Refers m be m' be')
    (hreg : Registers m be c m' pc') {x : Key} {cc : Nat} (hfind : be'.attachFind x = some cc) :
    Issued m' (be'.handles cc) := by
  obtain ⟨hold, hsame⟩ | ⟨g, hg, -, hsame⟩ := hr.entry hplaced hfind
  · exact ((h.issued hold).mapping hsame).registers hreg hplace
  · exact ((h.stores hlive hplace hg).mapping hsame).registers hreg hplace

theorem Known.proceeded (h : Known m be) (hlive : ∀ {i}, (m.slots i).state.serves → Current m i)
    (hplace : be.pc.place.Holds m) (hplaced : be.Placed) (hr : proceed codec m b be c = some r) :
    Known r.1 r.2 where
  issued hfind :=
    h.entries hlive hplace hplaced (proceed_refers hplaced hr) (proceed_registers hr) hfind
  attaching hpc' := by
    obtain ⟨hentry, hpc | ho⟩ := proceed_attaching hr hpc'
    · exact (h.attaching (.inl hpc)).congr (hentry _)
    · exact ho.congr (hentry _)
  loading hpc' hl := by
    obtain ⟨p, hpc, hp, hentry⟩ | hnew := proceed_loading hr hpc' hl
    · obtain ⟨harea, hdim⟩ := h.loading hpc hp
      exact ⟨(congrArg Entry.areaHandle (hentry _)).trans harea,
        (congrArg Entry.dim (hentry _)).trans hdim⟩
    · exact hnew

/-! ### Runs -/

variable {s s' : State B V Q}

omit [DecidableEq B] in
/-- The other backends. -/
theorem Handles.others (h : Handles s) (hord : Ordered s) (hinc : Incarnations s) {b' : B}
    (hne : b' ≠ b) (hreg : Registers s.memory (s.backends b) c m' pc') :
    Known m' (s.backends b') where
  issued hfind := ((h.known b').issued hfind).registers hreg (hinc.place b)
  attaching {k i area dim generation} hpc := by
    have hshares : (s.backends b').pc.sharesDir := by
      obtain hpc | ⟨dp, hpc⟩ := hpc <;> rw [hpc] <;> rfl
    have hreaders := (hord.at_ b').shares hshares
    apply ((h.known b').attaching hpc).registers hreg (hord.at_ b)
    · intro hfree
      simp only [DirLock.free, Bool.and_eq_true, List.isEmpty_iff] at hfree
      rw [hfree.2] at hreaders
      cases hreaders
    · intro hholds
      rw [hord.apart (by rw [(hord.at_ b).holds hholds]; rfl)] at hreaders
      cases hreaders
  loading {q i p l} hpc hl := by
    obtain ⟨harea, hdim⟩ := (h.known b').loading hpc hl
    have hplace : (s.backends b').pc.place.slot? = some i := by
      rw [hpc]
      cases p <;> first | rfl | cases hl
    obtain ⟨hcreate, hclear⟩ := hord.undisturbed hne hplace
    exact ⟨(hreg.kept hcreate hclear).areaHandle.trans harea, (hreg.dim hcreate hclear).trans hdim⟩

omit [DecidableEq B] in
/-- A slot that is served has no area that is being loaded. -/
theorem Incarnations.not_loading (hinc : Incarnations s) (hord : Ordered s) {i j : Fin ccNSlots}
    (hserves : (s.memory.slots i).state.serves) (hplace : (s.backends b).pc.place = .loading j) :
    (s.memory.slots i).areaHandle ≠ (s.memory.slots j).areaHandle := by
  intro harea
  obtain ⟨t, ht, hslot, -⟩ := hinc.live hserves
  have hj := hinc.place b
  rw [hplace] at hj
  obtain ⟨t', ht', hslot', -⟩ := hj
  rw [harea, ht'] at ht
  cases ht
  obtain rfl : j = i := hslot'.symm.trans hslot
  rw [(hord.at_ b).loads (Pc.loads_of_recorded (Pc.recorded_of_place hplace))] at hserves
  cases hserves

omit [DecidableEq B] in
/-- Two loads are of two areas. -/
theorem Incarnations.one_loader (hinc : Incarnations s) (hord : Ordered s) {b' : B}
    {i j : Fin ccNSlots} (hi : (s.backends b).pc.place = .loading i)
    (hj : (s.backends b').pc.place = .loading j)
    (harea : (s.memory.slots i).areaHandle = (s.memory.slots j).areaHandle) : b = b' := by
  have hib := hinc.place b
  have hjb := hinc.place b'
  rw [hi] at hib
  rw [hj] at hjb
  obtain ⟨t, ht, hslot, -⟩ := hib
  obtain ⟨t', ht', hslot', -⟩ := hjb
  rw [harea, ht'] at ht
  cases ht
  obtain rfl : j = i := hslot'.symm.trans hslot
  exact hord.loader (Pc.loads_of_recorded (Pc.recorded_of_place hi))
    (Pc.loads_of_recorded (Pc.recorded_of_place hj))

omit [DecidableEq B] in
/-- A load goes on with its area, or has just made it. -/
theorem Registers.loading (hreg : Registers m be c m' pc') {i : Fin ccNSlots}
    (hplace : pc'.place = .loading i) :
    (be.pc.place = .loading i ∧ (m'.slots i).areaHandle = (m.slots i).areaHandle) ∨
      (m'.slots i).areaHandle = m.areas.length := by
  cases hreg with
  | same hs h =>
    obtain h | h := h
    · exact .inl ⟨h.symm.trans hplace, hs.areaHandle i⟩
    · rw [h] at hplace
      cases hplace
  | create q j n _ hpc' _ _ hs =>
    subst hpc'
    cases hplace
    right
    rw [hs.areaHandle, setSlot_self]
  | claim _ _ _ hpc' | pick _ _ _ hpc' | empty _ _ _ hpc' | clear _ _ _ hpc'
  | lose _ _ _ _ hpc' =>
    subst hpc'
    cases hplace
  | name _ _ _ h | publish _ _ _ _ _ h | dropPin _ _ _ h | losePin _ _ _ h =>
    rw [h] at hplace
    cases hplace

omit [DecidableEq B] in
/-- A slot goes on with its area, or has got the newest one. -/
theorem Registers.area (hreg : Registers m be c m' pc') (i : Fin ccNSlots) :
    (m'.slots i).areaHandle = (m.slots i).areaHandle ∨
      (m'.slots i).areaHandle = m.areas.length := by
  cases hreg with
  | same hs _ | pick _ _ _ _ hs | lose _ _ _ _ _ _ _ hs => exact .inl (hs.areaHandle i)
  | name _ _ _ _ _ _ _ hs | claim _ _ _ _ _ hs | publish _ _ _ _ _ _ hs | empty _ _ _ _ hs
  | losePin _ _ _ _ _ _ hs | clear _ _ _ _ hs | dropPin _ _ _ _ _ _ hs =>
    exact .inl ((hs.areaHandle i).trans (setSlot_congr Slot.areaHandle (by rfl) i))
  | create q j n _ _ _ _ hs =>
    rw [hs.areaHandle]
    by_cases hne : i = j
    · subst hne
      exact .inr (by rw [setSlot_self])
    · exact .inl (by rw [setSlot_ne _ _ hne])

/-- **The step lemma of handles.** -/
theorem Handles.refers (h : Handles s) (hord : Ordered s) (hinc : Incarnations s)
    (hplaced : AllPlaced s) (hr : Refers s.memory (s.backends b) m' be')
    (hreg : Registers s.memory (s.backends b) c m' be'.pc) (hknown : Known m' be') :
    Handles ⟨m', Function.update s.backends b be'⟩ where
  known b' := by
    by_cases hne : b' = b
    · subst hne
      simpa using hknown
    · simp only [Function.update_of_ne hne]
      exact h.others hord hinc hne hreg
  unshared {b₁ b₂ i x cc} hplace hfind harea := by
    -- an entry that was there before
    have hold : ∀ {cc'}, (s.backends b₂).attachFind x = some cc' →
        ((s.backends b₂).handles cc').area = (m'.slots i).areaHandle → b₂ = b₁ := by
      intro cc' hold hsame
      by_cases hne : b₁ = b
      · subst hne
        simp only [Function.update_self] at hplace
        obtain ⟨hplace, hkept⟩ | hnew := hreg.loading hplace
        · exact h.unshared hplace hold (hsame.trans hkept)
        · obtain ⟨t, ht, -⟩ := ((h.known b₂).issued hold).tag
          simp [Memory.tag?, hsame, hnew] at ht
      · simp only [Function.update_of_ne hne] at hplace
        apply h.unshared hplace hold
        rw [hsame, (hord.kept hreg hne (by rw [hplace]; rfl)).areaHandle]
    by_cases hne₂ : b₂ = b
    · subst hne₂
      simp only [Function.update_self] at hfind harea
      obtain ⟨hfind', hsame⟩ | ⟨g, hg, -, hsame⟩ := hr.entry (hplaced b₂) hfind
      · exact hold hfind' (hsame.area.symm.trans harea)
      · by_contra hne
        have hne₁ : b₁ ≠ b₂ := Ne.symm hne
        simp only [Function.update_of_ne hne₁] at hplace
        have hkept := (hord.kept hreg hne₁ (by rw [hplace]; rfl)).areaHandle
        rw [hsame.area, hkept] at harea
        cases hg with
        | @attach k j area dim generation dp hpc =>
          have ho := (h.known b₂).attaching (.inr ⟨dp, hpc⟩)
          exact hinc.not_loading hord ho.serves hplace (ho.areaHandle.trans harea)
        | @load q j l hpc =>
          obtain ⟨hloaded, -⟩ := (h.known b₂).loading hpc rfl
          have hplace₂ : (s.backends b₂).pc.place = .loading j := by rw [hpc]; rfl
          exact hne (hinc.one_loader hord hplace₂ hplace (hloaded.trans harea))
    · simp only [Function.update_of_ne hne₂] at hfind harea
      exact hold hfind harea

theorem Handles.step [Fintype B] {a : Action B V Q} (h : Handles s) (hord : Ordered s)
    (hinc : Incarnations s) (hplaced : AllPlaced s) (hstep : step codec s a = some s') :
    Handles s' := by
  cases moved hstep with
  | modify x r ha hkeeps hs =>
    subst hs
    exact ⟨fun b => ⟨fun hf => ⟨((h.known b).issued hf).tag, ((h.known b).issued hf).dim⟩,
      fun hpc => ((h.known b).attaching hpc).congr rfl, (h.known b).loading⟩, h.unshared⟩
  | call b r hidle hmay hb hcall hs =>
    subst hs
    have hr := call_refers hidle hcall
    have hreg : Registers s.memory (s.backends b) (.plain 0) r.1 r.2.pc :=
      (call_apart hidle hcall).registers
    apply h.refers hord hinc hplaced hr hreg
    have henters := call_enters hidle hcall
    refine ⟨(h.known b).entries hinc.live (hinc.place b) (hplaced b) hr hreg, fun hpc => ?_,
      fun hpc hl => ?_⟩
    · generalize r.2.pc = pc' at henters hpc
      obtain rfl | ⟨dp, rfl⟩ := hpc <;> cases henters
    · generalize r.2.pc = pc' at henters hpc
      subst hpc
      cases henters
  | proceed b c r ha hproceed hs =>
    subst hs
    exact h.refers hord hinc hplaced (proceed_refers (hplaced b) hproceed)
      (proceed_registers hproceed)
      ((h.known b).proceeded hinc.live (hinc.place b) (hplaced b) hproceed)

omit [DecidableEq B] in
theorem Handles.init (world : Key → Relation V Q) :
    Handles (State.init world : State B V Q) where
  known b := by
    refine ⟨nofun, fun hpc => ?_, fun hpc => ?_⟩
    · obtain hpc | ⟨dp, hpc⟩ := hpc <;> cases hpc
    · cases hpc
  unshared hplace := by cases hplace

/-- **What holds in every run**, whatever its steps. -/
structure Standing (s : State B V Q) : Prop where
  ordered : Ordered s
  placed : AllPlaced s
  incarnations : Incarnations s
  handles : Handles s

theorem Standing.step [Fintype B] {a : Action B V Q} (h : Standing s)
    (hstep : step codec s a = some s') : Standing s' :=
  ⟨h.ordered.step hstep, h.placed.step hstep, h.incarnations.step h.ordered hstep,
    h.handles.step h.ordered h.incarnations h.placed hstep⟩

omit [DecidableEq B] in
theorem Standing.init (world : Key → Relation V Q) : Standing (State.init world : State B V Q) :=
  ⟨Ordered.init world, AllPlaced.init world, Incarnations.init world, Handles.init world⟩

end

end PgAcorn.SharedCache
