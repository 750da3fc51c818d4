import Mathlib.Data.List.Pairwise
import Mathlib.Order.Lattice

/-! Ranks in a sorted list: a value's position against how many values are below a
constant. -/
namespace PgAcorn.Library

variable {α : Type} [LinearOrder α] {s : List α} {i : Nat} {b c : α}

/-- A value below `c` has at least its own rank and all before it below `c`. -/
theorem lt_countP (hs : s.Pairwise (· ≤ ·)) (hi : s[i]? = some b) (hb : b < c) :
    i < s.countP (· < c) := by
  obtain ⟨hlt, rfl⟩ := List.getElem?_eq_some_iff.mp hi
  have hall : ∀ x ∈ s.take (i + 1), decide (x < c) = true := by
    intro x hx
    obtain ⟨j, hj, rfl⟩ := List.getElem_of_mem hx
    rw [List.length_take] at hj
    rw [List.getElem_take]
    exact decide_eq_true (lt_of_le_of_lt (hs.rel_get_of_le (a := ⟨j, by omega⟩) (b := ⟨i, hlt⟩)
      (by simpa using (by omega : j ≤ i))) hb)
  have hcount := List.countP_eq_length.mpr hall
  rw [List.length_take] at hcount
  have := (List.take_sublist (i + 1) s).countP_le (p := (decide <| · < c))
  omega

/-- A value not below `c` has at most those before it below `c`. -/
theorem countP_le (hs : s.Pairwise (· ≤ ·)) (hi : s[i]? = some b) (hb : c ≤ b) :
    s.countP (· < c) ≤ i := by
  obtain ⟨hlt, rfl⟩ := List.getElem?_eq_some_iff.mp hi
  have hnone : (s.drop i).countP (· < c) = 0 := by
    refine List.countP_eq_zero.mpr fun x hx => ?_
    obtain ⟨j, hj, rfl⟩ := List.getElem_of_mem hx
    rw [List.length_drop] at hj
    rw [List.getElem_drop, decide_eq_true_eq, not_lt]
    exact le_trans hb (hs.rel_get_of_le (a := ⟨i, hlt⟩) (b := ⟨i + j, by omega⟩) (by simp))
  have hsplit := congrArg (List.countP (decide <| · < c)) (List.take_append_drop i s)
  rw [List.countP_append, hnone] at hsplit
  have := List.countP_le_length (p := (decide <| · < c)) (l := s.take i)
  rw [List.length_take] at this
  omega

end PgAcorn.Library
