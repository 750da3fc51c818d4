import Mathlib.Analysis.InnerProductSpace.Basic
import Mathlib.Tactic.Linarith
import Mathlib.Tactic.Positivity

/-! When ordering by inner product is ordering by cosine.

A vector is nearer to `q` in angle when its inner product with `q`, divided by its
own norm, is larger. Two vectors are ordered alike by the inner product and by the
angle, whatever `q` is, exactly when they have one norm or point to opposite
directions (`order_alike_iff`): otherwise some `q` has the same inner product with
both and tells the two norms apart. -/
namespace PgAcorn.Library

section Cosine
open RealInnerProductSpace
variable {E : Type} [NormedAddCommGroup E] [InnerProductSpace ℝ E] {a b q : E}

/-- The cosine of the angle between two vectors. -/
noncomputable def cosine (a q : E) : ℝ := ⟪a, q⟫ / (‖a‖ * ‖q‖)

/-- `q` is no nearer to `a` than to `b`, by inner product just when by angle. -/
def OrderAlike (a b q : E) : Prop := ⟪b, q⟫ ≤ ⟪a, q⟫ ↔ cosine b q ≤ cosine a q

/-- Two vectors point to opposite directions. -/
def Opposite (a b : E) : Prop := ∃ r : ℝ, r < 0 ∧ b = r • a

theorem cosine_le_iff (ha : a ≠ 0) (hb : b ≠ 0) (hq : q ≠ 0) :
    cosine b q ≤ cosine a q ↔ ‖a‖ * ⟪b, q⟫ ≤ ‖b‖ * ⟪a, q⟫ := by
  have ha' := norm_pos_iff.mpr ha
  have hb' := norm_pos_iff.mpr hb
  have hq' := norm_pos_iff.mpr hq
  unfold cosine
  rw [div_le_div_iff₀ (mul_pos hb' hq') (mul_pos ha' hq')]
  constructor
  · intro h
    refine le_of_mul_le_mul_right ?_ hq'
    linarith
  · intro h
    have := mul_le_mul_of_nonneg_right h hq'.le
    linarith

theorem OrderAlike.of_norm_eq (ha : a ≠ 0) (hb : b ≠ 0) (hq : q ≠ 0) (h : ‖a‖ = ‖b‖) :
    OrderAlike a b q := by
  unfold OrderAlike
  rw [cosine_le_iff ha hb hq, h, mul_le_mul_iff_right₀ (norm_pos_iff.mpr hb)]

/-- Opposite vectors are told apart by a sign alone. -/
theorem OrderAlike.of_opposite (ha : a ≠ 0) (hb : b ≠ 0) (hq : q ≠ 0) (h : Opposite a b) :
    OrderAlike a b q := by
  unfold OrderAlike
  rw [cosine_le_iff ha hb hq]
  obtain ⟨r, hr, rfl⟩ := h
  have ha' := norm_pos_iff.mpr ha
  rw [real_inner_smul_left, norm_smul, Real.norm_of_nonpos hr.le]
  have hone : r * ⟪a, q⟫ ≤ ⟪a, q⟫ ↔ 0 ≤ ⟪a, q⟫ := by constructor <;> intro <;> nlinarith
  rw [hone]
  constructor
  · intro h0
    nlinarith [mul_nonneg ha'.le h0]
  · intro hle
    by_contra hneg
    nlinarith [mul_pos ha' (neg_pos.mpr (not_le.mp hneg))]

/-- A vector with one positive inner product with both tells the norms apart. -/
theorem norm_eq_of_orderAlike (ha : a ≠ 0) (hb : b ≠ 0) (hsame : ⟪a, q⟫ = ⟪b, q⟫)
    (hpos : 0 < ⟪a, q⟫) (h : ∀ q : E, q ≠ 0 → OrderAlike a b q) : ‖a‖ = ‖b‖ := by
  have hq : q ≠ 0 := by
    rintro rfl
    simp at hpos
  have hle : ‖a‖ ≤ ‖b‖ := by
    have := (cosine_le_iff ha hb hq).mp ((h q hq).mp hsame.ge)
    rw [hsame] at this hpos
    exact le_of_mul_le_mul_right this hpos
  have hge : ‖b‖ ≤ ‖a‖ := by
    have := (cosine_le_iff ha hb (neg_ne_zero.mpr hq)).mp
      ((h (-q) (neg_ne_zero.mpr hq)).mp (by rw [inner_neg_right, inner_neg_right, hsame]))
    rw [inner_neg_right, inner_neg_right, hsame] at this
    rw [hsame] at hpos
    nlinarith
  exact le_antisymm hle hge

/-- Of two vectors in one direction a longer one is nearer by inner product only. -/
theorem norm_eq_of_sameRay {r : ℝ} (ha : a ≠ 0) (hr : 0 < r)
    (h : ∀ q : E, q ≠ 0 → OrderAlike a (r • a) q) : ‖a‖ = ‖r • a‖ := by
  have hra : r • a ≠ 0 := smul_ne_zero hr.ne' ha
  have hself : 0 < ⟪a, a⟫ := real_inner_self_pos.mpr ha
  have hcos : ∀ q : E, ‖a‖ * ⟪r • a, q⟫ ≤ ‖r • a‖ * ⟪a, q⟫ := fun q => by
    rw [real_inner_smul_left, norm_smul, Real.norm_of_nonneg hr.le]
    exact le_of_eq (by ring)
  have hle : r ≤ 1 := by
    have := (h a ha).mpr ((cosine_le_iff ha hra ha).mpr (hcos a))
    rw [real_inner_smul_left] at this
    nlinarith
  have hge : 1 ≤ r := by
    have hna := neg_ne_zero.mpr ha
    have := (h (-a) hna).mpr ((cosine_le_iff ha hra hna).mpr (hcos (-a)))
    rw [real_inner_smul_left, inner_neg_right] at this
    nlinarith
  rw [le_antisymm hle hge, one_smul]

/-- **Inner product and angle order two vectors alike for every query** exactly when
the two have one norm or are opposite. -/
theorem order_alike_iff (ha : a ≠ 0) (hb : b ≠ 0) :
    (∀ q : E, q ≠ 0 → OrderAlike a b q) ↔ ‖a‖ = ‖b‖ ∨ Opposite a b := by
  constructor
  · intro h
    -- the query with one inner product with both, `⟪a, a⟫⟪b, b⟫ - ⟪a, b⟫²`
    have hA : ⟪a, (⟪b, b⟫ - ⟪a, b⟫) • a + (⟪a, a⟫ - ⟪a, b⟫) • b⟫ =
        ⟪a, a⟫ * ⟪b, b⟫ - ⟪a, b⟫ * ⟪a, b⟫ := by
      rw [inner_add_right, real_inner_smul_right, real_inner_smul_right]
      ring
    have hB : ⟪b, (⟪b, b⟫ - ⟪a, b⟫) • a + (⟪a, a⟫ - ⟪a, b⟫) • b⟫ =
        ⟪a, a⟫ * ⟪b, b⟫ - ⟪a, b⟫ * ⟪a, b⟫ := by
      rw [inner_add_right, real_inner_smul_right, real_inner_smul_right, real_inner_comm a b]
      ring
    rcases (real_inner_mul_inner_self_le a b).lt_or_eq with hlt | heq
    · exact .inl (norm_eq_of_orderAlike ha hb (hA.trans hB.symm) (by rw [hA]; linarith) h)
    · -- dependent vectors: one direction or opposite ones
      have habs : |⟪a, b⟫ / (‖a‖ * ‖b‖)| = 1 := by
        have hsq : ⟪a, b⟫ ^ 2 = (‖a‖ * ‖b‖) ^ 2 := by
          rw [mul_pow, ← real_inner_self_eq_norm_sq, ← real_inner_self_eq_norm_sq, ← heq]
          ring
        have hpos : 0 < ‖a‖ * ‖b‖ := mul_pos (norm_pos_iff.mpr ha) (norm_pos_iff.mpr hb)
        rw [abs_div, abs_of_pos hpos, div_eq_one_iff_eq hpos.ne', ← abs_of_pos hpos]
        exact sq_eq_sq_iff_abs_eq_abs _ _ |>.mp hsq
      rcases eq_or_eq_neg_of_abs_eq habs with hone | hneg
      · obtain ⟨-, r, hr, rfl⟩ := (real_inner_div_norm_mul_norm_eq_one_iff a b).mp hone
        exact .inl (norm_eq_of_sameRay ha hr h)
      · exact .inr ((real_inner_div_norm_mul_norm_eq_neg_one_iff a b).mp hneg).2
  · rintro (h | h) q hq
    · exact .of_norm_eq ha hb hq h
    · exact .of_opposite ha hb hq h

end Cosine

end PgAcorn.Library
