import PgAcorn.Library.Double
import PgAcorn.Library.PairingHeap
import Mathlib.Analysis.SpecialFunctions.Sqrt
import Mathlib.Algebra.Order.Chebyshev
import Mathlib.Analysis.MeanInequalities
import Mathlib.Tactic.Linarith
import Mathlib.Tactic.Positivity

/-! Exact real arithmetic in place of doubles, and what a coordinatewise error
does to distances.

Over the reals the comparisons of `CDouble` are those of the order. The error
bounds are over arbitrary finite index sets: a vector known up to `ε` in every
coordinate has its Euclidean distance to a point known up to `ε √n`, and its inner
product with it up to `ε` times the sum of that point's magnitudes. -/
namespace PgAcorn.Library

/-! ### The reals as doubles -/

theorem atLeastTwo_two : Nat.AtLeastTwo 2 := inferInstance

theorem atLeastTwo_four : Nat.AtLeastTwo 4 := inferInstance

noncomputable instance : CDouble ℝ where
  lt a b := decide (a < b)
  le a b := decide (a ≤ b)
  eq a b := decide (a = b)
  dblMax := (2 ^ 53 - 1) * 2 ^ 971
  negDblMax := -((2 ^ 53 - 1) * 2 ^ 971)
  le_of_lt h := by simpa using (of_decide_eq_true h).le
  ne_of_lt h := by simpa using (of_decide_eq_true h).ne
  asymm h := by simpa using (of_decide_eq_true h).le
  trans h h' := by simpa using (of_decide_eq_true h).trans (of_decide_eq_true h')
  eq_dblMax := by simp

@[simp] theorem CDouble.lt_real (a b : ℝ) : CDouble.lt a b = decide (a < b) := rfl

@[simp] theorem CDouble.le_real (a b : ℝ) : CDouble.le a b = decide (a ≤ b) := rfl

/-- Ordering by a real key is a strict weak order. -/
theorem strictWeak_real {α : Type} (key : α → ℝ) :
    StrictWeak fun a b : α => CDouble.lt (key b) (key a) where
  asymm a b h := by simpa using (of_decide_eq_true h).le
  cotrans a b c h := by
    have hac : key c < key a := of_decide_eq_true h
    rcases lt_or_ge (key b) (key a) with hb | hb
    · exact .inl (decide_eq_true hb)
    · exact .inr (decide_eq_true (hac.trans_le hb))

/-! ### Rounding -/

/-- Truncation after adding one half is rounding to a nearest integer. -/
theorem floor_add_half {y : ℝ} (hy : 0 ≤ y) : |y - (⌊y + 0.5⌋₊ : ℝ)| ≤ 0.5 := by
  have hlow := Nat.floor_le (show 0 ≤ y + 0.5 by linarith)
  have hhigh := Nat.lt_floor_add_one (y + 0.5)
  rw [abs_le]
  constructor <;> linarith

/-! ### Distances under a coordinatewise error -/

section Distances
variable {ι : Type} (s : Finset ι)

/-- The triangle inequality for Euclidean lengths. -/
theorem sqrt_sum_sq_add_le (f g : ι → ℝ) :
    √(∑ i ∈ s, (f i + g i) ^ 2) ≤ √(∑ i ∈ s, f i ^ 2) + √(∑ i ∈ s, g i ^ 2) := by
  have hf : 0 ≤ ∑ i ∈ s, f i ^ 2 := Finset.sum_nonneg fun i _ => sq_nonneg _
  have hg : 0 ≤ ∑ i ∈ s, g i ^ 2 := Finset.sum_nonneg fun i _ => sq_nonneg _
  have hcs := Real.sum_mul_le_sqrt_mul_sqrt s f g
  rw [Real.sqrt_le_left (by positivity), add_sq, Real.sq_sqrt hf, Real.sq_sqrt hg]
  calc ∑ i ∈ s, (f i + g i) ^ 2
      = ∑ i ∈ s, f i ^ 2 + 2 * ∑ i ∈ s, f i * g i + ∑ i ∈ s, g i ^ 2 := by
        rw [Finset.mul_sum, ← Finset.sum_add_distrib, ← Finset.sum_add_distrib]
        exact Finset.sum_congr rfl fun i _ => by ring
    _ ≤ ∑ i ∈ s, f i ^ 2 + 2 * (√(∑ i ∈ s, f i ^ 2) * √(∑ i ∈ s, g i ^ 2)) +
        ∑ i ∈ s, g i ^ 2 := by linarith
    _ = _ := by ring

variable {s} {x x' q : ι → ℝ} {ε : ℝ}

/-- An error of `ε` in every coordinate is one of `ε √n` in length. -/
theorem sqrt_sum_sq_error (hε : 0 ≤ ε) (h : ∀ i ∈ s, |x i - x' i| ≤ ε) :
    √(∑ i ∈ s, (x i - x' i) ^ 2) ≤ ε * √s.card := by
  have hsum : ∑ i ∈ s, (x i - x' i) ^ 2 ≤ ε ^ 2 * s.card := by
    calc ∑ i ∈ s, (x i - x' i) ^ 2
        ≤ ∑ _i ∈ s, ε ^ 2 := Finset.sum_le_sum fun i hi => by
          rw [← sq_abs]
          exact pow_le_pow_left₀ (abs_nonneg _) (h i hi) 2
      _ = ε ^ 2 * s.card := by rw [Finset.sum_const, nsmul_eq_mul, mul_comm]
  calc √(∑ i ∈ s, (x i - x' i) ^ 2) ≤ √(ε ^ 2 * s.card) := Real.sqrt_le_sqrt hsum
    _ = ε * √s.card := by rw [Real.sqrt_mul (sq_nonneg ε), Real.sqrt_sq hε]

/-- The Euclidean distance of an approximated vector bounds the exact one. -/
theorem sqrt_dist_error (hε : 0 ≤ ε) (h : ∀ i ∈ s, |x i - x' i| ≤ ε) :
    √(∑ i ∈ s, (q i - x' i) ^ 2) - ε * √s.card ≤ √(∑ i ∈ s, (x i - q i) ^ 2) := by
  have htri := sqrt_sum_sq_add_le s (fun i => q i - x i) (fun i => x i - x' i)
  have hsplit : ∑ i ∈ s, (q i - x' i) ^ 2 = ∑ i ∈ s, ((q i - x i) + (x i - x' i)) ^ 2 :=
    Finset.sum_congr rfl fun i _ => by ring
  have hswap : ∑ i ∈ s, (q i - x i) ^ 2 = ∑ i ∈ s, (x i - q i) ^ 2 :=
    Finset.sum_congr rfl fun i _ => by ring
  rw [hsplit]
  rw [hswap] at htri
  have := sqrt_sum_sq_error hε h
  linarith

/-- The inner product with an approximated vector bounds the exact one. -/
theorem inner_error (h : ∀ i ∈ s, |x i - x' i| ≤ ε) :
    -(∑ i ∈ s, q i * x' i) - ε * ∑ i ∈ s, |q i| ≤ -∑ i ∈ s, x i * q i := by
  have hsum : ∑ i ∈ s, (x i - x' i) * q i ≤ ε * ∑ i ∈ s, |q i| := by
    rw [Finset.mul_sum]
    refine Finset.sum_le_sum fun i hi => ?_
    calc (x i - x' i) * q i ≤ |(x i - x' i) * q i| := le_abs_self _
      _ = |x i - x' i| * |q i| := abs_mul _ _
      _ ≤ ε * |q i| := mul_le_mul_of_nonneg_right (h i hi) (abs_nonneg _)
  have hsub : ∑ i ∈ s, (x i - x' i) * q i = ∑ i ∈ s, x i * q i - ∑ i ∈ s, q i * x' i := by
    rw [← Finset.sum_sub_distrib]
    exact Finset.sum_congr rfl fun i _ => by ring
  linarith

end Distances

end PgAcorn.Library
