import PgAcorn.SharedCache.Load
import Mathlib.Algebra.BigOperators.Group.Finset.Basic
import Mathlib.Algebra.Order.BigOperators.Group.Finset

/-! Making room for a load: `acorn_cc_evict_to_fit`, with nobody else about.

The least recently used slot that may be evicted goes first, and the loop ends as soon
as the need fits (`evictToFit_spec`). `UINT64_MAX` is where the search for the least
starts, so a slot with that stamp is never found (`evictToFit_exhausted_iff`).

One eviction is what the steps of the interleaved system do when nobody else takes one
(`evictSlot_alone`). -/
namespace PgAcorn.SharedCache
open Library
open CodeCache (Key ccNSlots SlotState)

/-- What an eviction works on: `dir->total_bytes` and the slots. -/
structure Residency (B : Type) where
  total : BitVec 64
  slots : Fin ccNSlots → Slot B

section
variable {B V Q : Type}

/-! ### One eviction -/

/-- A slot that `acorn_cc_evict_slot` has cleared. -/
def Slot.cleared (slot : Slot B) : Slot B :=
  { slot with
    state := .empty, generation := slot.generation + 1, key := Key.invalid, nelems := 0, bytes := 0
    dim := 0, retired := [], nblocks := 0, blocks := 0
    areaPinned := if slot.activeScans ≠ 0 then slot.areaPinned else false }

namespace Residency

/-- `acorn_cc_evict_slot`. -/
def evictSlot (d : Residency B) (i : Fin ccNSlots) : Residency B where
  total := d.total - (d.slots i).bytes
  slots := Function.update d.slots i (d.slots i).cleared

/-- One slot after the other. -/
def evictAll (d : Residency B) (is : List (Fin ccNSlots)) : Residency B := is.foldl evictSlot d

end Residency

/-- What the interleaved system shares of it. -/
def Memory.residency (m : Memory B V Q) : Residency B := ⟨m.total, m.slots⟩

/-- Steps of an evictor while nobody else takes one. -/
def Alone (b : B) (e : Evictor) : Memory B V Q × Backend Q → Memory B V Q × Backend Q → Prop :=
  Relation.ReflTransGen fun p p' => ∃ c pc, p.2.pc = .evict e pc ∧ evictSlot p.1 p.2 b e c pc = some p'

theorem Alone.step {b : B} {e : Evictor} {m m' : Memory B V Q} {be be' : Backend Q}
    {p : Memory B V Q × Backend Q} {c : Choice} (pc : EvictPc) (hpc : be.pc = .evict e pc)
    (hstep : evictSlot m be b e c pc = some (m', be')) (h : Alone b e (m', be') p) :
    Alone b e (m, be) p := .head ⟨c, pc, hpc, hstep⟩ h

/-- **One eviction** in the interleaved system, while nobody else acts. -/
theorem evictSlot_alone {b : B} {e : Evictor} {m : Memory B V Q} {be : Backend Q} {i : Fin ccNSlots}
    (hpc : be.pc = .evict e (.read i)) (hlock : (m.slots i).wlock = none)
    (hpin : (m.slots i).areaPinned = true →
      (m.areas[(m.slots i).areaHandle]?).any (fun a => a.pinned) = true) :
    ∃ p, Alone b e (m, be) p ∧ p.2.pc = .evict e .choose ∧
      p.1.residency = m.residency.evictSlot i := by
  obtain ⟨slot, hslot⟩ : ∃ slot, m.slots i = slot := ⟨_, rfl⟩
  rw [hslot] at hlock hpin
  -- up to the fence the slot is cleared, its pin apart
  let v : Victim := ⟨i, slot.bytes, slot.areaHandle, slot.key⟩
  let m' : Memory B V Q := { m with total := m.total - slot.bytes }.setSlot i
    { slot.cleared with areaPinned := slot.areaPinned }
  have hclear : ∀ p, Alone b e (m', be.goto (.evict e (.readScans v))) p → Alone b e (m, be) p := by
    intro p hp
    have c := Choice.plain 0
    refine .step (c := c) (.read i) hpc rfl ?_
    refine .step (c := c) (.wlock _) rfl (if_neg ?_) ?_
    · simp [hslot, hlock]
    refine .step (c := c) (.storeState _) rfl rfl ?_
    refine .step (c := c) (.clear _) rfl rfl ?_
    refine .step (c := c) (.storeNblocks _) rfl rfl ?_
    refine .step (c := c) (.storeBlocks _) rfl rfl ?_
    refine .step (c := c) (.subTotal _) rfl rfl ?_
    simp only [Memory.setSlot, Function.update_self, Function.update_idem, hslot]
    simp only [← hlock]
    exact hp
  have hself : m'.slots v.slot = { slot.cleared with areaPinned := slot.areaPinned } :=
    Function.update_self ..
  have hend : ∀ pin, pin = slot.cleared.areaPinned →
      (⟨m.total - slot.bytes, Function.update m.slots i { slot.cleared with areaPinned := pin }⟩ :
        Residency B) = m.residency.evictSlot i := by
    rintro _ rfl
    show _ = (⟨m.total - (m.slots i).bytes, Function.update m.slots i (m.slots i).cleared⟩ :
      Residency B)
    rw [hslot]
  by_cases hscans : slot.activeScans = 0
  · have hdrop := fun p hp => hclear p (.step (c := Choice.plain 0) (.readScans v) rfl
      (if_neg fun h => h (hself ▸ hscans)) hp)
    cases hpinned : slot.areaPinned with
    | true =>
      have hstep : evictSlot m' (be.goto (.evict e (.dropPin v))) b e (Choice.plain 0) (.dropPin v) =
          some ((m'.setSlot i { m'.slots i with areaPinned := false }).modifyArea v.handle Area.unpin,
            ((be.goto (.evict e (.dropPin v))).forgetAttach v.key).goto (.evict e .choose)) := by
        show (if (m'.slots v.slot).areaPinned = true then _ else _) = _
        rw [if_pos (hself ▸ hpinned)]
        exact if_pos (hpin hpinned)
      refine ⟨_, hdrop _ (.step (.dropPin v) rfl hstep .refl), rfl, ?_⟩
      have hslots : Function.update m'.slots i { m'.slots i with areaPinned := false } =
          Function.update m.slots i { slot.cleared with areaPinned := false } := by
        rw [show m'.slots i = _ from hself]
        exact Function.update_idem ..
      show (⟨m.total - slot.bytes, Function.update m'.slots i { m'.slots i with areaPinned := false }⟩ :
        Residency B) = _
      rw [hslots]
      exact hend false (by simp [Slot.cleared, hscans])
    | false =>
      refine ⟨_, hdrop _ (.step (c := Choice.plain 0) (.dropPin v) rfl (if_neg ?_) .refl), rfl, ?_⟩
      · rw [hself, hpinned]
        exact Bool.false_ne_true
      · exact hend _ (by simp [Slot.cleared, hscans, hpinned])
  · refine ⟨_, hclear _ (.step (c := Choice.plain 0) (.readScans v) rfl (if_pos ?_) .refl), rfl, ?_⟩
    · rw [hself]
      exact hscans
    · exact hend _ (by simp [Slot.cleared, hscans])

namespace Residency

/-! ### The loop -/

/-- `UINT64_MAX`. -/
def lruLimit : Nat := 2 ^ 64 - 1

/-- Looks at one slot: it becomes the victim if it was last used before the one so far. -/
def lookAt (d : Residency B) (best : Option (Fin ccNSlots) × Nat) (i : Fin ccNSlots) :
    Option (Fin ccNSlots) × Nat :=
  if (d.slots i).evictable && decide ((d.slots i).lastused < best.2) then
    (some i, (d.slots i).lastused)
  else best

/-- `victim`, of a search that starts at `UINT64_MAX`. -/
def victim (d : Residency B) : Option (Fin ccNSlots) :=
  ((List.finRange ccNSlots).foldl d.lookAt (none, lruLimit)).1

/-- `acorn_cc_evict_to_fit`: its answer, the slots it evicts in order, and what it leaves. -/
def evictToFit (need budget : BitVec 64) :
    Nat → Residency B → Option (Bool × List (Fin ccNSlots) × Residency B)
  | 0, _ => none
  | fuel + 1, d =>
    if d.total + need ≤ budget then some (true, [], d)
    else match d.victim with
      | none => some (false, [], d)
      | some i => (evictToFit need budget fuel (d.evictSlot i)).map fun r => (r.1, i :: r.2.1, r.2.2)

/-! ### The victim -/

/-- A slot that the search can find. -/
def findable (d : Residency B) (i : Fin ccNSlots) : Bool :=
  (d.slots i).evictable && decide ((d.slots i).lastused < lruLimit)

variable (d : Residency B)

theorem foldl_lookAt (is : List (Fin ccNSlots)) (best : Option (Fin ccNSlots) × Nat) :
    (is.foldl d.lookAt best = best ∧ ∀ i ∈ is, (d.slots i).evictable → best.2 ≤ (d.slots i).lastused) ∨
    ∃ i ∈ is, is.foldl d.lookAt best = (some i, (d.slots i).lastused) ∧ (d.slots i).evictable ∧
      (d.slots i).lastused < best.2 ∧
      ∀ j ∈ is, (d.slots j).evictable → (d.slots i).lastused ≤ (d.slots j).lastused := by
  induction is generalizing best with
  | nil => exact .inl ⟨rfl, by simp⟩
  | cons i is ih =>
    rw [List.foldl_cons, lookAt]
    split
    · rename_i hi
      obtain ⟨hevict, hlt⟩ := Bool.and_eq_true_iff.mp hi
      have hlt := of_decide_eq_true hlt
      right
      rcases ih (some i, (d.slots i).lastused) with ⟨heq, hall⟩ | ⟨k, hk, heq, hek, hltk, hall⟩
      · refine ⟨i, by simp, heq, hevict, hlt, fun j hj hej => ?_⟩
        obtain rfl | hj := List.mem_cons.mp hj
        · exact Nat.le_refl _
        · exact hall j hj hej
      · refine ⟨k, List.mem_cons_of_mem i hk, heq, hek, hltk.trans hlt, fun j hj hej => ?_⟩
        obtain rfl | hj := List.mem_cons.mp hj
        · exact hltk.le
        · exact hall j hj hej
    · rename_i hi
      have hself : (d.slots i).evictable → best.2 ≤ (d.slots i).lastused := fun he => by
        rw [he, Bool.true_and, decide_eq_true_iff] at hi
        exact Nat.le_of_not_lt hi
      rcases ih best with ⟨heq, hall⟩ | ⟨k, hk, heq, hek, hltk, hall⟩
      · refine .inl ⟨heq, fun j hj hej => ?_⟩
        obtain rfl | hj := List.mem_cons.mp hj
        · exact hself hej
        · exact hall j hj hej
      · refine .inr ⟨k, List.mem_cons_of_mem i hk, heq, hek, hltk, fun j hj hej => ?_⟩
        obtain rfl | hj := List.mem_cons.mp hj
        · exact hltk.le.trans (hself hej)
        · exact hall j hj hej

/-- **The victim** is the least recently used of the slots that can be found, if there is
one. -/
theorem victim_spec :
    (d.victim = none ∧ ∀ i, d.findable i = false) ∨
    ∃ i, d.victim = some i ∧ d.findable i = true ∧
      ∀ j, (d.slots j).evictable → (d.slots i).lastused ≤ (d.slots j).lastused := by
  rcases d.foldl_lookAt (List.finRange ccNSlots) (none, lruLimit) with
    ⟨heq, hall⟩ | ⟨i, -, heq, he, hlt, hall⟩
  · refine .inl ⟨by rw [victim, heq], fun i => ?_⟩
    unfold findable
    cases he : (d.slots i).evictable with
    | false => rfl
    | true => simpa using hall i (List.mem_finRange i) he
  · refine .inr ⟨i, by rw [victim, heq], ?_, fun j hj => hall j (List.mem_finRange j) hj⟩
    rw [findable, he, Bool.true_and]
    exact decide_eq_true hlt

/-! ### What an eviction leaves -/

@[simp] theorem evictSlot_self (i : Fin ccNSlots) : (d.evictSlot i).slots i = (d.slots i).cleared :=
  Function.update_self ..

theorem evictSlot_of_ne {i j : Fin ccNSlots} (h : j ≠ i) : (d.evictSlot i).slots j = d.slots j :=
  Function.update_of_ne h ..

@[simp] theorem cleared_evictable (slot : Slot B) : slot.cleared.evictable = false := rfl

theorem evictAll_of_notMem {is : List (Fin ccNSlots)} {j : Fin ccNSlots} (h : j ∉ is) :
    (d.evictAll is).slots j = d.slots j := by
  induction is generalizing d with
  | nil => rfl
  | cons i is ih =>
    rw [List.mem_cons, not_or] at h
    exact (ih (d.evictSlot i) h.2).trans (d.evictSlot_of_ne h.1)

variable {d} in
/-- An evicted slot is not evictable. -/
theorem evictable_evictAll {is : List (Fin ccNSlots)} {i : Fin ccNSlots}
    (h : (d.slots i).evictable = false ∨ i ∈ is) : ((d.evictAll is).slots i).evictable = false := by
  induction is generalizing d with
  | nil => exact h.resolve_right (by simp)
  | cons j is ih =>
    refine @ih (d.evictSlot j) ?_
    by_cases hij : i = j
    · subst hij
      rw [evictSlot_self]
      exact .inl rfl
    · rw [d.evictSlot_of_ne hij]
      exact h.imp_right fun hmem => (List.mem_cons.mp hmem).resolve_left hij

/-- The total is the sum of the slots' bytes. -/
def Exact : Prop := d.total.toNat = ∑ i, (d.slots i).bytes.toNat

variable {d}

/-- The books stay exact, and the total goes down by what the slot held. -/
theorem Exact.evictSlot (h : d.Exact) (i : Fin ccNSlots) :
    (d.evictSlot i).Exact ∧ (d.evictSlot i).total.toNat + (d.slots i).bytes.toNat = d.total.toNat := by
  have hsum := Finset.add_sum_erase Finset.univ (fun j => (d.slots j).bytes.toNat) (Finset.mem_univ i)
  have hsum' := Finset.add_sum_erase Finset.univ (fun j => ((d.evictSlot i).slots j).bytes.toNat)
    (Finset.mem_univ i)
  have hrest : ∑ j ∈ Finset.univ.erase i, ((d.evictSlot i).slots j).bytes.toNat =
      ∑ j ∈ Finset.univ.erase i, (d.slots j).bytes.toNat :=
    Finset.sum_congr rfl fun j hj => by rw [d.evictSlot_of_ne (Finset.ne_of_mem_erase hj)]
  have hzero : ((d.evictSlot i).slots i).bytes.toNat = 0 := by
    rw [evictSlot_self]
    rfl
  unfold Exact at h
  have htotal : (d.evictSlot i).total.toNat = d.total.toNat - (d.slots i).bytes.toNat := by
    refine BitVec.toNat_sub_of_le ?_
    rw [BitVec.le_def]
    omega
  refine ⟨?_, by omega⟩
  rw [Exact]
  omega

theorem Exact.evictAll (h : d.Exact) (is : List (Fin ccNSlots)) : (d.evictAll is).Exact := by
  induction is generalizing d with
  | nil => exact h
  | cons i is ih => exact ih (h.evictSlot i).1

/-- A cleared slot cannot be found again, and nothing changes for the others. -/
theorem findable_evictSlot (i j : Fin ccNSlots) :
    (d.evictSlot i).findable j = (decide (j ≠ i) && d.findable j) := by
  unfold findable
  by_cases hj : j = i
  · subst hj
    simp
  · rw [d.evictSlot_of_ne hj]
    simp [hj]

/-- So each eviction leaves fewer to be found. -/
theorem card_findable_evictSlot {i : Fin ccNSlots} (hi : d.findable i = true) :
    (Finset.univ.filter fun j => (d.evictSlot i).findable j = true).card <
      (Finset.univ.filter fun j => d.findable j = true).card := by
  refine Finset.card_lt_card (Finset.ssubset_iff_of_subset (fun j hj => ?_) |>.mpr ⟨i, ?_, ?_⟩)
  · rw [Finset.mem_filter, findable_evictSlot, Bool.and_eq_true] at hj
    exact Finset.mem_filter.mpr ⟨hj.1, hj.2.2⟩
  · exact Finset.mem_filter.mpr ⟨Finset.mem_univ i, hi⟩
  · simp [findable_evictSlot]

/-! ### The loop's outcome -/

/-- A minimal prefix of the evictable slots in the order of their last use, and the answer
whether the need fits. -/
structure EvictedToFit (need budget : BitVec 64) (d : Residency B) (ok : Bool)
    (is : List (Fin ccNSlots)) (d' : Residency B) : Prop where
  state : d' = d.evictAll is
  nodup : is.Nodup
  evictable : ∀ i ∈ is, (d.slots i).evictable = true
  unchanged : ∀ j, (d.slots j).evictable = false → d'.slots j = d.slots j
  sorted : is.Pairwise fun i j => (d.slots i).lastused ≤ (d.slots j).lastused
  oldest : ∀ i ∈ is, ∀ j ∉ is, (d.slots j).evictable = true →
    (d.slots i).lastused ≤ (d.slots j).lastused
  /-- Before each eviction the need did not fit. -/
  minimal : ∀ pre i post, is = pre ++ i :: post →
    budget.toNat < (d.evictAll pre).total.toNat + need.toNat
  fits : ok = true ↔ d'.total.toNat + need.toNat ≤ budget.toNat
  total : d'.total.toNat + (is.map fun i => (d.slots i).bytes.toNat).sum = d.total.toNat

variable {need budget : BitVec 64}

/-- More fuel changes nothing. -/
theorem evictToFit_mono {fuel : Nat} {r : Bool × List (Fin ccNSlots) × Residency B}
    (h : evictToFit need budget fuel d = some r) : evictToFit need budget (fuel + 1) d = some r := by
  induction fuel generalizing d r with
  | zero => cases h
  | succ fuel ih =>
    rw [evictToFit] at h ⊢
    split at h
    · rename_i hfits
      rw [if_pos hfits]
      exact h
    · rename_i hfits
      rw [if_neg hfits]
      cases hv : d.victim with
      | none =>
        rw [hv] at h
        exact h
      | some i =>
        rw [hv] at h
        obtain ⟨r', hr', rfl⟩ := Option.map_eq_some_iff.mp h
        dsimp only
        rw [ih hr']
        rfl

/-- **The loop ends**, with a minimal prefix; if the need does not fit then, no slot can
be found. -/
theorem evictToFit_spec (h : d.Exact) (hsum : d.total.toNat + need.toNat < 2 ^ 64) {fuel : Nat}
    (hfuel : (Finset.univ.filter fun i => d.findable i = true).card < fuel) :
    ∃ ok is d', evictToFit need budget fuel d = some (ok, is, d') ∧
      EvictedToFit need budget d ok is d' ∧ (∀ i ∈ is, d.findable i = true) ∧
      (ok = false → ∀ i, d'.findable i = false) := by
  induction fuel generalizing d with
  | zero => omega
  | succ fuel ih =>
    have htest : d.total + need ≤ budget ↔ d.total.toNat + need.toNat ≤ budget.toNat := by
      rw [BitVec.le_def, BitVec.toNat_add_of_lt hsum]
    rw [evictToFit]
    by_cases hfits : d.total + need ≤ budget
    · rw [if_pos hfits]
      exact ⟨true, [], d, rfl, ⟨rfl, .nil, by simp, fun _ _ => rfl, .nil, by simp, by simp,
        by simpa using htest.mp hfits, by simp⟩, by simp, by simp⟩
    rw [if_neg hfits]
    rcases d.victim_spec with ⟨hv, hnone⟩ | ⟨i, hv, hi, hleast⟩
    · rw [hv]
      exact ⟨false, [], d, rfl, ⟨rfl, .nil, by simp, fun _ _ => rfl, .nil, by simp, by simp,
        by simpa using mt htest.mpr hfits, by simp⟩, by simp, fun _ => hnone⟩
    · -- one eviction, and then as the rest does
      rw [hv]
      dsimp only
      obtain ⟨hexact, hbytes⟩ := h.evictSlot i
      obtain ⟨ok, is, d', heq, hrest, hfound, hstop⟩ := ih hexact (by omega)
        ((card_findable_evictSlot hi).trans_le (Nat.le_of_lt_succ hfuel))
      have hne : ∀ j ∈ is, j ≠ i := fun j hj => by
        rintro rfl
        have := hfound j hj
        simp [findable_evictSlot] at this
      have hsame : ∀ j ∈ is, (d.evictSlot i).slots j = d.slots j :=
        fun j hj => d.evictSlot_of_ne (hne j hj)
      have hie : (d.slots i).evictable = true := (Bool.and_eq_true_iff.mp hi).1
      have hfound' : ∀ j ∈ is, d.findable j = true := fun j hj => by
        have := hfound j hj
        rw [findable_evictSlot, Bool.and_eq_true] at this
        exact this.2
      have hevict : ∀ j ∈ is, (d.slots j).evictable = true := fun j hj => by
        rw [← hsame j hj]
        exact hrest.evictable j hj
      rw [heq]
      refine ⟨ok, i :: is, d', rfl, ⟨hrest.state, ?_, ?_, fun j hj => ?_, ?_, ?_, ?_, hrest.fits, ?_⟩,
        List.forall_mem_cons.mpr ⟨hi, hfound'⟩, hstop⟩
      · exact List.nodup_cons.mpr ⟨fun hmem => hne i hmem rfl, hrest.nodup⟩
      · exact List.forall_mem_cons.mpr ⟨hie, hevict⟩
      · have hji : j ≠ i := by
          rintro rfl
          rw [hie] at hj
          cases hj
        have hsamej := d.evictSlot_of_ne hji
        rw [hrest.unchanged j (by rw [hsamej]; exact hj), hsamej]
      · refine List.pairwise_cons.mpr ⟨fun j hj => hleast j (hevict j hj), ?_⟩
        refine hrest.sorted.imp_of_mem fun {j k} hj hk hle => ?_
        rwa [hsame j hj, hsame k hk] at hle
      · intro j hj k hk hek
        rw [List.mem_cons, not_or] at hk
        obtain rfl | hj := List.mem_cons.mp hj
        · exact hleast k hek
        · have hsamek := d.evictSlot_of_ne hk.1
          have := hrest.oldest j hj k hk.2 (by rw [hsamek]; exact hek)
          rwa [hsame j hj, hsamek] at this
      · intro pre k post hsplit
        cases pre with
        | nil => exact Nat.lt_of_not_le (mt htest.mpr hfits)
        | cons p pre =>
          obtain ⟨rfl, hrestSplit⟩ := List.cons.inj hsplit
          exact hrest.minimal pre k post hrestSplit
      · have htotal := hrest.total
        rw [List.map_congr_left fun j hj => by rw [hsame j hj]] at htotal
        rw [List.map_cons, List.sum_cons]
        omega

/-! ### Whether anything evictable is left -/

/-- No slot that may be evicted has the stamp `UINT64_MAX`, or the others make enough room. -/
def RoomBelowLimit (d : Residency B) (need budget : BitVec 64) : Prop :=
  (∀ i, (d.slots i).evictable = true → (d.slots i).lastused ≠ lruLimit) ∨
    d.total.toNat + need.toNat ≤
      budget.toNat + ∑ i with d.findable i = true, (d.slots i).bytes.toNat

/-- **Eviction to fit** ends and takes a minimal least-recently-used prefix; it leaves no
evictable slot when it fails exactly if those below the limit make room or are all there
are. -/
theorem evictToFit_exhausted_iff (h : d.Exact) (hsum : d.total.toNat + need.toNat < 2 ^ 64)
    (hstamps : ∀ i, (d.slots i).lastused < 2 ^ 64) :
    ∃ ok is d', (∀ fuel > ccNSlots, evictToFit need budget fuel d = some (ok, is, d')) ∧
      EvictedToFit need budget d ok is d' ∧
      ((ok = false → ∀ i, (d'.slots i).evictable = false) ↔ RoomBelowLimit d need budget) := by
  have hcard : (Finset.univ.filter fun i => d.findable i = true).card ≤ ccNSlots :=
    (Finset.card_le_univ _).trans_eq (Fintype.card_fin _)
  obtain ⟨ok, is, d', heq, hfit, hfound, hstop⟩ :=
    @evictToFit_spec B d need budget h hsum (ccNSlots + 1) (Nat.lt_succ_of_le hcard)
  have hmono : ∀ k, evictToFit need budget (ccNSlots + 1 + k) d = some (ok, is, d') := fun k => by
    induction k with
    | zero => exact heq
    | succ k ih => exact evictToFit_mono ih
  have hsub : is.toFinset ⊆ Finset.univ.filter fun i => d.findable i = true := fun i hi =>
    Finset.mem_filter.mpr ⟨Finset.mem_univ i, hfound i (List.mem_toFinset.mp hi)⟩
  have hlist : (is.map fun i => (d.slots i).bytes.toNat).sum =
      ∑ i ∈ is.toFinset, (d.slots i).bytes.toNat :=
    (List.sum_toFinset _ hfit.nodup).symm
  have hkept : ∀ i ∉ is, d'.slots i = d.slots i := fun i hi => by
    rw [hfit.state]
    exact d.evictAll_of_notMem hi
  -- if it fails, all that can be found are gone
  have hgone : ok = false → ∀ i, d.findable i = true → i ∈ is := fun hok i hi => by
    by_contra hnot
    have := hstop hok i
    rw [findable, hkept i hnot, ← findable, hi] at this
    cases this
  refine ⟨ok, is, d', fun fuel hfuel => ?_, hfit, fun hexhausted => ?_, ?_⟩
  · obtain ⟨k, rfl⟩ := Nat.exists_eq_add_of_le hfuel
    exact hmono k
  · unfold RoomBelowLimit
    by_contra hneither
    push Not at hneither
    obtain ⟨⟨i, hie, hlimit⟩, htight⟩ := hneither
    have hle := Finset.sum_le_sum_of_subset (f := fun i => (d.slots i).bytes.toNat) hsub
    have htotal := hfit.total
    have hno : ok = false := by
      by_contra hok
      have := hfit.fits.mp (by simpa using hok)
      omega
    have hnot : i ∉ is := fun hmem => by
      have := hfound i hmem
      rw [findable, hlimit] at this
      simp at this
    have := hexhausted hno i
    rw [hkept i hnot, hie] at this
    cases this
  · rintro (hbelow | hroom) hok i
    · have hnot := hstop hok i
      by_contra hie
      rw [Bool.not_eq_false] at hie
      have hkeep : i ∉ is := fun hmem => by
        rw [hfit.state, evictable_evictAll (.inr hmem)] at hie
        cases hie
      rw [findable, hie, Bool.true_and, decide_eq_false_iff_not, hkept i hkeep] at hnot
      rw [hkept i hkeep] at hie
      have hlt := hstamps i
      have := hbelow i hie
      unfold lruLimit at hnot this
      omega
    · have hsame : is.toFinset = Finset.univ.filter fun i => d.findable i = true :=
        hsub.antisymm fun i hi => List.mem_toFinset.mpr (hgone hok i (Finset.mem_filter.mp hi).2)
      have htotal := hfit.total
      rw [hlist, hsame] at htotal
      have := hfit.fits.not.mp (by simp [hok])
      omega

end Residency

end

/-- A slot that is served to nobody, with so many bytes and a stamp. -/
def idleSlot (bytes : BitVec 64) (lastused : Nat) : Slot Unit :=
  { Slot.init with state := .ready, bytes := bytes, lastused := lastused }

/-- Two slots in use, and all others empty. -/
def twoSlots (first second : Slot Unit) : Residency Unit where
  total := first.bytes + second.bytes
  slots i := if i.val = 0 then first else if i.val = 1 then second else Slot.init

/-- The second was used before the first, and suffices. -/
theorem evictToFit_exhausted_iff_two :
    ∃ ok is d', (∀ fuel > ccNSlots,
        Residency.evictToFit 50 200 fuel (twoSlots (idleSlot 100 9) (idleSlot 120 4)) =
          some (ok, is, d')) ∧
      Residency.EvictedToFit 50 200 (twoSlots (idleSlot 100 9) (idleSlot 120 4)) ok is d' ∧
      ((ok = false → ∀ i, (d'.slots i).evictable = false) ↔
        Residency.RoomBelowLimit (twoSlots (idleSlot 100 9) (idleSlot 120 4)) 50 200) :=
  Residency.evictToFit_exhausted_iff (by unfold Residency.Exact; decide +kernel) (by decide +kernel)
    (by decide +kernel)

example : (Residency.evictToFit 50 200 65 (twoSlots (idleSlot 100 9) (idleSlot 120 4))).map
    (fun r => (r.1, r.2.1.map Fin.val)) = some (true, [1]) := by decide +kernel

/-- A slot that was last used at `UINT64_MAX`: there is no room, and it stays. -/
theorem limit_slot_kept :
    (twoSlots (idleSlot 100 Residency.lruLimit) Slot.init).Exact ∧
    (∀ i, ((twoSlots (idleSlot 100 Residency.lruLimit) Slot.init).slots i).lastused < 2 ^ 64) ∧
    (Residency.evictToFit 1 50 65 (twoSlots (idleSlot 100 Residency.lruLimit) Slot.init)).map
      (fun r => (r.1, (r.2.2.slots (0 : Fin 64)).evictable)) = some (false, true) := by
  refine ⟨?_, ?_, ?_⟩
  · unfold Residency.Exact
    decide +kernel
  · decide +kernel
  · decide +kernel

end PgAcorn.SharedCache
