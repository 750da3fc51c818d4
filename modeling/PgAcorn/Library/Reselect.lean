import PgAcorn.Library.Greedy
import PgAcorn.Library.SlotRange

/-! A full range of slots that the diversity heuristic maintains.

Occupants and the new element compete for the slots, nearest first; one of them is left
over. If that is an occupant the new element takes its slot, and all others stay where
they are (`offer_diverse`). -/
namespace PgAcorn.Library

section
variable {κ D : Type} [CDouble D]

/-- Occupants and a new element, nearest first. -/
def rivals (base : κ → D) (occ : List κ) (x : κ) : List κ := sortAscending base (occ ++ [x])

variable [DecidableEq κ] (apart : κ → κ → D) (base : κ → D)

/-- The first occupant that is not selected, if the new element is. -/
def diverseVictim (occ : List κ) (x : κ) : Option Nat :=
  let kept := diverse apart base occ.length (rivals base occ x)
  if x ∈ kept then occ.findIdx? fun y => decide (y ∉ kept) else none

/-- What becomes of a full range and a new element. -/
structure Reselection (occ : List κ) (x : κ) (keeps : κ → Bool) (dropped : κ) (after : List κ) :
    Prop where
  rule : GreedyRule apart base occ.length (rivals base occ x) keeps
  selected : diverse apart base occ.length (rivals base occ x) =
    refilled occ.length (rivals base occ x) keeps
  left : Dropped occ.length base (rivals base occ x) keeps dropped
  /-- The range holds what was selected. -/
  holds : after.Perm (refilled occ.length (rivals base occ x) keeps)
  stays : ∀ (j : Nat) (y : κ), occ[j]? = some y → y ≠ dropped → after[j]? = some y
  enters : ∀ j : Nat, occ[j]? = some dropped → after[j]? = some x

variable {apart base} {occ : List κ} {x : κ}

omit [DecidableEq κ] in
theorem rivals_perm : (rivals base occ x).Perm (x :: occ) :=
  (sortAscending_perm _).trans (List.perm_append_singleton x occ)

/-- The one that is left over, beside the others. -/
theorem Dropped.perm {mMax : Nat} {cands : List κ} {keeps : κ → Bool} {dropped : κ}
    (h : Dropped mMax base cands keeps dropped) (hnodup : cands.Nodup) :
    (dropped :: refilled mMax cands keeps).Perm cands := by
  refine (List.perm_ext_iff_of_nodup (List.nodup_cons.mpr ⟨?_, h.nodup⟩) hnodup).mpr fun c => ?_
  · exact fun hc => ((h.chosen dropped).mp hc).2 rfl
  · rw [List.mem_cons, h.chosen c]
    constructor
    · rintro (rfl | hc)
      · exact h.mem
      · exact hc.1
    · intro hc
      by_cases heq : c = dropped
      · exact .inl heq
      · exact .inr ⟨hc, heq⟩

/-- **A diversified offer to a full range** drops exactly one, and the others keep their
slots. -/
theorem offer_diverse (hD : Ordered D) (hpos : 1 ≤ occ.length) (hnodup : occ.Nodup) (hx : x ∉ occ)
    {victim : List κ → κ → Option Nat} (hv : victim occ x = diverseVictim apart base occ x) :
    ∃ keeps dropped after, Reselection apart base occ x keeps dropped after ∧
      offer victim (occ.map some) x = after.map some := by
  have hperm : (rivals base occ x).Perm (x :: occ) := rivals_perm
  have hrivals : (rivals base occ x).Nodup := hperm.nodup_iff.mpr (List.nodup_cons.mpr ⟨hx, hnodup⟩)
  have hlen : (rivals base occ x).length = occ.length + 1 := hperm.length_eq
  obtain ⟨keeps, hrule, hsel, hkept⟩ : ∃ keeps,
      GreedyRule apart base occ.length (rivals base occ x) keeps ∧
      diverse apart base occ.length (rivals base occ x) =
        refilled occ.length (rivals base occ x) keeps ∧
      ((rivals base occ x).filter keeps).length ≤ occ.length := by
    classical
    refine ⟨_, greedyRule_keptOf hD hrivals, diverse_eq hrivals (by omega), ?_⟩
    rw [filter_keptOf hrivals (List.append_nil _).symm]
    exact length_keptOf_le _
  obtain ⟨dropped, hdropped⟩ := hrule.exists_dropped hpos hrivals
    (sortAscending_sorted hD.total _) hlen hkept
  have hsplit := (hdropped.perm hrivals).trans hperm
  have hsel_mem : ∀ c, c ∈ diverse apart base occ.length (rivals base occ x) ↔
      (c = x ∨ c ∈ occ) ∧ c ≠ dropped := fun c => by
    rw [hsel, hdropped.chosen c, hperm.mem_iff, List.mem_cons]
  have hfree : (occ.map some).findIdx? (fun slot => slot.isNone) = none :=
    List.findIdx?_eq_none_iff.mpr fun slot hslot => by
      obtain ⟨y, -, rfl⟩ := List.mem_map.mp hslot
      rfl
  have hslot : offeredSlot victim (occ.map some) x = diverseVictim apart base occ x := by
    rw [offeredSlot, if_neg (by simpa using hx), hfree, Option.none_or, occupants_map_some, hv]
  unfold offer
  rw [hslot, diverseVictim]
  by_cases heq : dropped = x
  · -- the new element is left over
    subst heq
    rw [if_neg fun h => ((hsel_mem dropped).mp h).2 rfl]
    refine ⟨keeps, dropped, occ, ⟨hrule, hsel, hdropped, hsplit.cons_inv.symm, fun j y hj _ => hj,
      fun j hj => absurd (List.mem_of_getElem? hj) hx⟩, rfl⟩
  · have hmem : dropped ∈ occ :=
      (List.mem_cons.mp (hperm.mem_iff.mp hdropped.mem)).resolve_left heq
    rw [if_pos ((hsel_mem x).mpr ⟨.inl rfl, Ne.symm heq⟩)]
    -- the first that is not selected is the one that is left over
    cases hidx : occ.findIdx? fun y => decide (y ∉ diverse apart base occ.length (rivals base occ x)) with
    | none =>
      have := List.findIdx?_eq_none_iff.mp hidx dropped hmem
      rw [decide_eq_false_iff_not, not_not] at this
      exact absurd rfl ((hsel_mem dropped).mp this).2
    | some j =>
      obtain ⟨hlt, hout, -⟩ := List.findIdx?_eq_some_iff_getElem.mp hidx
      have hj : occ[j] = dropped := by
        by_contra hne
        exact of_decide_eq_true hout ((hsel_mem _).mpr ⟨.inr (List.getElem_mem hlt), hne⟩)
      have hget : occ[j]? = some dropped := by rw [List.getElem?_eq_getElem hlt, hj]
      refine ⟨keeps, dropped, occ.set j x, ⟨hrule, hsel, hdropped, ?_, fun k y hk hne => ?_,
        fun k hk => ?_⟩, List.map_set.symm⟩
      · exact ((set_perm hget).trans hsplit.symm).cons_inv
      · rw [List.getElem?_set_ne, hk]
        rintro rfl
        exact hne (Option.some.inj (hk.symm.trans hget))
      · obtain rfl : k = j := by
          obtain ⟨hkt, hkd⟩ := List.getElem?_eq_some_iff.mp hk
          exact (List.Nodup.getElem_inj_iff hnodup).mp (hkd.trans hj.symm)
        rw [List.getElem?_set_self hlt]

end

end PgAcorn.Library
