import PgAcorn.Filter
import PgAcorn.Library.Rank
import Mathlib.Algebra.Order.Field.Basic
import Mathlib.Algebra.Order.Field.Rat
import Mathlib.Data.Int.ConditionallyCompleteOrder
import Mathlib.Data.List.Sort
import Mathlib.Tactic.Linarith
import Mathlib.Tactic.LinearCombination
import Mathlib.Tactic.Positivity
import Mathlib.Tactic.Ring

/-! The filter histogram: equi-depth bounds of a sample, and the fraction of it that
lies below a constant.

`acorn_build_filter_histogram` sorts a sample of the filter column and keeps up to
`ACORN_T2_HIST_BOUNDS` of its values, evenly spaced by rank. `acorn_t2_hist_frac_lt`
finds the band of a constant by binary search and interpolates in it. A read outside
the bounds and a division by zero are `none`; neither happens (`histFracLt_band`).
What it answers is as near to the true fraction as a band is wide, give or take one
sampled value (`histFracLt_accurate`). -/
namespace PgAcorn.Selectivity
open Library

/-! ### Building the bounds -/

/-- `ACORN_T2_HIST_BOUNDS`. -/
def histBounds : Nat := 64

/-- `ACORN_T2_HIST_SAMPLE`. -/
def histSample : Nat := 30000

/-- The values an int4 can hold, as the source's `int64` has them. -/
def IsInt4 (v : Int) : Prop := -2 ^ 31 ≤ v ∧ v < 2 ^ 31

/-- `AcornT2Histogram`: its valid bounds, and what they summarize. Without bounds it
is absent. The bounds are int4 values, so `int64` arithmetic on them is exact. -/
structure Histogram where
  bounds : List Int
  ntuples : Nat
  ndistinct : Nat
  size : bounds.length ≤ histBounds
  ascending : bounds.Pairwise (· ≤ ·)
  int4 : ∀ b ∈ bounds, IsInt4 b
  distinct : bounds ≠ [] → 0 < ndistinct

def Histogram.nbounds (h : Histogram) : Nat := h.bounds.length

/-- No histogram. -/
def Histogram.absent : Histogram :=
  ⟨[], 0, 0, by decide, .nil, by simp, fun h => absurd rfl h⟩

/-- One row's value for the reservoir; `draw` is `pg_prng_uint64_range` below the
number of rows seen. -/
def sampleRow (draw : Nat → Nat) (s : List (BitVec 32) × Nat) (v : BitVec 32) :
    List (BitVec 32) × Nat :=
  let seen := s.2 + 1
  if s.1.length < histSample then (s.1 ++ [v], seen)
  else if draw seen < histSample then (s.1.set (draw seen) v, seen)
  else (s.1, seen)

/-- The rank of a bound in the sorted sample. -/
def boundRank (k nb i : Nat) : Nat := if nb = 1 then 0 else i * (k - 1) / (nb - 1)

theorem boundRank_lt {k nb i : Nat} (hi : i < nb) (hk : 0 < k) : boundRank k nb i < k := by
  unfold boundRank
  split
  · exact hk
  · have hle : i * (k - 1) / (nb - 1) ≤ k - 1 := by
      refine Nat.div_le_of_le_mul ?_
      exact Nat.mul_le_mul_right _ (by omega)
    omega

theorem boundRank_mono {k nb i j : Nat} (hij : i ≤ j) : boundRank k nb i ≤ boundRank k nb j := by
  unfold boundRank
  split
  · exact le_rfl
  · exact Nat.div_le_div_right (Nat.mul_le_mul_right _ hij)

/-- The sample in order, as `pg_qsort` leaves it. -/
def sorted (buf : List Int) : List Int := buf.mergeSort

theorem sorted_perm (buf : List Int) : (sorted buf).Perm buf := List.mergeSort_perm _ _

theorem sorted_pairwise (buf : List Int) : (sorted buf).Pairwise (· ≤ ·) :=
  List.pairwise_mergeSort' (· ≤ ·) buf

/-- How many runs of equal values a sorted sample has. -/
def countDistinct (s : List Int) : Nat :=
  1 + (s.zip s.tail).countP fun p => p.2 != p.1

/-- The bounds that are kept of a sorted sample. -/
def equiDepth (s : List Int) : List Int :=
  List.ofFn fun i : Fin (min histBounds s.length) =>
    s.get ⟨boundRank s.length (min histBounds s.length) i, boundRank_lt i.isLt (by
      have := i.isLt
      omega)⟩

@[simp] theorem length_equiDepth (s : List Int) :
    (equiDepth s).length = min histBounds s.length := List.length_ofFn

/-- The bound of an index. -/
theorem getElem?_equiDepth {s : List Int} {i : Nat} (hi : i < min histBounds s.length) :
    (equiDepth s)[i]? = s[boundRank s.length (min histBounds s.length) i]? := by
  have hrank := boundRank_lt (k := s.length) hi (by omega)
  rw [List.getElem?_eq_getElem (by rwa [length_equiDepth]), List.getElem?_eq_getElem hrank]
  simp only [equiDepth, List.getElem_ofFn, List.get_eq_getElem]

theorem equiDepth_sub {s : List Int} : ∀ b ∈ equiDepth s, b ∈ s := by
  intro b hb
  obtain ⟨i, rfl⟩ := (List.mem_ofFn' _ _).mp hb
  exact List.get_mem _ _

theorem equiDepth_pairwise {s : List Int} (hs : s.Pairwise (· ≤ ·)) :
    (equiDepth s).Pairwise (· ≤ ·) := by
  refine List.pairwise_ofFn.mpr fun i j hij => hs.rel_get_of_le ?_
  exact boundRank_mono (Nat.le_of_lt hij)

/-- The histogram of a sample of int4 values among `seen` rows. -/
def Histogram.ofSample (buf : List (BitVec 32)) (seen : Nat) : Histogram where
  bounds := equiDepth (sorted (buf.map BitVec.toInt))
  ntuples := seen
  ndistinct := if buf = [] then 0 else countDistinct (sorted (buf.map BitVec.toInt))
  size := by
    rw [length_equiDepth]
    exact Nat.min_le_left _ _
  ascending := equiDepth_pairwise (sorted_pairwise _)
  int4 b hb := by
    obtain ⟨v, -, rfl⟩ := List.mem_map.mp ((sorted_perm _).mem_iff.mp (equiDepth_sub b hb))
    have hlow := v.le_toInt
    have hhigh := v.toInt_lt
    exact ⟨by simpa using hlow, by simpa using hhigh⟩
  distinct hne := by
    split
    · rename_i h
      subst h
      exact absurd (by simp [sorted, equiDepth]) hne
    · unfold countDistinct
      omega

/-- `acorn_build_filter_histogram`, of the filter column's values in heap order. -/
def buildFilterHistogram (draw : Nat → Nat) (rows : List (Option (BitVec 32))) : Histogram :=
  let s := (rows.filterMap id).foldl (sampleRow draw) ([], 0)
  .ofSample s.1 s.2

/-! ### The fraction below a constant -/

/-- The largest index between `lo` and `hi` of a bound below `c`. -/
def searchBelow (bounds : List Int) (c : Int) (lo hi : Nat) : Option Nat :=
  if lo < hi then
    match bounds[(lo + hi + 1) / 2]? with
    | none => none
    | some b =>
      if b < c then searchBelow bounds c ((lo + hi + 1) / 2) hi
      else searchBelow bounds c lo ((lo + hi + 1) / 2 - 1)
  else some lo
termination_by hi - lo

section
variable {R : Type} [Field R] [LinearOrder R]

/-- A division, and that its divisor is not zero. -/
def divide (a b : R) : Option R := if b = 0 then none else some (a / b)

/-- `acorn_t2_hist_frac_lt`. -/
def histFracLt (h : Histogram) (c : Int) : Option R := do
  let first ← h.bounds[0]?
  if h.nbounds ≤ 1 then some (if c > first then 1 else 0)
  else if c ≤ first then some 0
  else do
    let last ← h.bounds[h.nbounds - 1]?
    if c > last then some 1
    else do
      let i ← searchBelow h.bounds c 0 (h.nbounds - 1)
      let b0 ← h.bounds[i]?
      let b1 ← h.bounds[i + 1]?
      let within ← if b1 > b0 then divide ((c - b0 : Int) : R) ((b1 - b0 : Int) : R) else some 0
      divide ((i : R) + (if within > 1 then 1 else within)) ((h.nbounds - 1 : Nat) : R)

end

/-! ### What it answers -/

/-- The search ends at the last bound below `c`. -/
theorem searchBelow_eq {bounds : List Int} {c : Int} {lo hi : Nat} (hlen : hi < bounds.length)
    (hle : lo ≤ hi) (hlo : ∀ b, bounds[lo]? = some b → b < c)
    (hhi : ∀ b, bounds[hi + 1]? = some b → c ≤ b) :
    ∃ i, searchBelow bounds c lo hi = some i ∧ lo ≤ i ∧ i ≤ hi ∧
      (∀ b, bounds[i]? = some b → b < c) ∧ ∀ b, bounds[i + 1]? = some b → c ≤ b := by
  fun_induction searchBelow bounds c lo hi with
  | case1 lo hi hlt hnone =>
    rw [List.getElem?_eq_none_iff] at hnone
    omega
  | case2 lo hi hlt b hb hbelow ih =>
    obtain ⟨i, hi', h₁, h₂, h₃⟩ := ih hlen (by omega)
      (fun b' hb' => (Option.some.inj (hb'.symm.trans hb)) ▸ hbelow) hhi
    exact ⟨i, hi', by omega, h₂, h₃⟩
  | case3 lo hi hlt b hb habove ih =>
    have hmid : (lo + hi + 1) / 2 - 1 + 1 = (lo + hi + 1) / 2 := by omega
    obtain ⟨i, hi', h₁, h₂, h₃⟩ := ih (by omega) (by omega) hlo fun b' hb' => by
      rw [hmid, hb] at hb'
      obtain rfl := Option.some.inj hb'
      exact not_lt.mp habove
    exact ⟨i, hi', h₁, by omega, h₃⟩
  | case4 lo hi hge =>
    obtain rfl : lo = hi := by omega
    exact ⟨lo, rfl, le_rfl, le_rfl, hlo, hhi⟩

section
variable {R : Type} [Field R] [LinearOrder R]

/-- Where a constant falls among the bounds, with the fraction that gives. -/
inductive Band (h : Histogram) (c : Int) : R → Prop
  | below {b : Int} (hfirst : h.bounds[0]? = some b) (hc : c ≤ b) : Band h c 0
  | above {b : Int} (hlast : h.bounds[h.nbounds - 1]? = some b) (hc : b < c) : Band h c 1
  | within {i : Nat} {b0 b1 : Int} (h0 : h.bounds[i]? = some b0) (h1 : h.bounds[i + 1]? = some b1)
    (hb0 : b0 < c) (hb1 : c ≤ b1) :
    Band h c (((i : R) + ((c - b0 : Int) : R) / ((b1 - b0 : Int) : R)) / ((h.nbounds - 1 : Nat) : R))

theorem divide_of_pos {a b : R} (hb : 0 < b) : divide a b = some (a / b) := if_neg hb.ne'

variable [IsStrictOrderedRing R] {h : Histogram} {c c' : Int} {f f' : R}

/-- **It always answers**: no bound is read that is not there, and nothing is divided
by zero. -/
theorem histFracLt_band (hne : 0 < h.nbounds) (c : Int) :
    ∃ f : R, histFracLt h c = some f ∧ Band h c f := by
  have hlen : h.bounds.length = h.nbounds := rfl
  obtain ⟨first, hfirst⟩ : ∃ b, h.bounds[0]? = some b :=
    ⟨_, List.getElem?_eq_getElem (by omega)⟩
  obtain ⟨last, hlast⟩ : ∃ b, h.bounds[h.nbounds - 1]? = some b :=
    ⟨_, List.getElem?_eq_getElem (by omega)⟩
  unfold histFracLt
  simp only [hfirst, hlast, Option.bind_eq_bind, Option.bind_some]
  by_cases hone : h.nbounds ≤ 1
  · have hsame : h.nbounds - 1 = 0 := by omega
    rw [hsame, hfirst] at hlast
    rw [if_pos hone]
    by_cases hc : c > first
    · rw [if_pos hc]
      exact ⟨1, rfl, .above (hsame ▸ hfirst) hc⟩
    · rw [if_neg hc]
      exact ⟨0, rfl, .below hfirst (not_lt.mp hc)⟩
  rw [if_neg hone]
  by_cases hlow : c ≤ first
  · rw [if_pos hlow]
    exact ⟨0, rfl, .below hfirst hlow⟩
  rw [if_neg hlow]
  by_cases hhigh : c > last
  · rw [if_pos hhigh]
    exact ⟨1, rfl, .above hlast hhigh⟩
  rw [if_neg hhigh]
  obtain ⟨i, hsearch, -, hi, hbelow, habove⟩ := @searchBelow_eq h.bounds c
    0 (h.nbounds - 1) (by omega) (Nat.zero_le _)
    (fun b hb => (Option.some.inj (hb.symm.trans hfirst)) ▸ not_le.mp hlow)
    fun b hb => by
      obtain ⟨hlt, -⟩ := List.getElem?_eq_some_iff.mp hb
      omega
  have hnext : i + 1 < h.bounds.length := by
    -- the last bound is not below `c`
    by_contra hge
    have heq : i = h.nbounds - 1 := by omega
    exact hhigh (hbelow last (heq ▸ hlast))
  obtain ⟨b0, h0⟩ : ∃ b, h.bounds[i]? = some b := ⟨_, List.getElem?_eq_getElem (by omega)⟩
  obtain ⟨b1, h1⟩ : ∃ b, h.bounds[i + 1]? = some b := ⟨_, List.getElem?_eq_getElem hnext⟩
  have hb0 := hbelow b0 h0
  have hb1 := habove b1 h1
  have hwidth : (0 : R) < ((b1 - b0 : Int) : R) := Int.cast_pos.mpr (by omega)
  have hle : ¬ ((c - b0 : Int) : R) / ((b1 - b0 : Int) : R) > 1 := by
    rw [gt_iff_lt, not_lt, div_le_one hwidth]
    exact Int.cast_le.mpr (by omega)
  have hmany : (0 : R) < ((h.nbounds - 1 : Nat) : R) := Nat.cast_pos.mpr (by omega)
  refine ⟨_, ?_, .within h0 h1 hb0 hb1⟩
  rw [hsearch]
  simp only [Option.bind_some, h0, h1, if_pos (hb0.trans_le hb1), divide_of_pos hwidth, if_neg hle,
    divide_of_pos hmany]

/-- What lies within a band is between its two ends. -/
theorem between {b0 b1 : Int} (hb0 : b0 < c) (hb1 : c ≤ b1) :
    0 < ((c - b0 : Int) : R) / ((b1 - b0 : Int) : R) ∧
      ((c - b0 : Int) : R) / ((b1 - b0 : Int) : R) ≤ 1 := by
  have hwidth : (0 : R) < ((b1 - b0 : Int) : R) := Int.cast_pos.mpr (by omega)
  refine ⟨div_pos (Int.cast_pos.mpr (by omega)) hwidth, (div_le_one hwidth).mpr ?_⟩
  exact Int.cast_le.mpr (by omega)

/-- The bounds ascend. -/
theorem Histogram.le_of_le {i j : Nat} {b b' : Int} (hi : h.bounds[i]? = some b)
    (hj : h.bounds[j]? = some b') (hij : i ≤ j) : b ≤ b' := by
  obtain ⟨hlt, rfl⟩ := List.getElem?_eq_some_iff.mp hi
  obtain ⟨hlt', rfl⟩ := List.getElem?_eq_some_iff.mp hj
  exact h.ascending.rel_get_of_le (a := ⟨i, hlt⟩) (b := ⟨j, hlt'⟩) hij

/-- The bands of a histogram are numbered up to `nbounds - 1`. -/
theorem Histogram.index_lt {i : Nat} {b : Int} (hi : h.bounds[i + 1]? = some b) :
    i + 1 ≤ h.nbounds - 1 := by
  obtain ⟨hlt, -⟩ := List.getElem?_eq_some_iff.mp hi
  have : h.bounds.length = h.nbounds := rfl
  omega

theorem Band.range (hf : Band h c f) : 0 ≤ f ∧ f ≤ 1 := by
  cases hf with
  | below => exact ⟨le_rfl, zero_le_one⟩
  | above => exact ⟨zero_le_one, le_rfl⟩
  | @within i b0 b1 h0 h1 hb0 hb1 =>
    obtain ⟨hpos, hle⟩ := between (R := R) hb0 hb1
    have hindex : ((i : R) + 1) ≤ ((h.nbounds - 1 : Nat) : R) := by
      exact_mod_cast Histogram.index_lt h1
    have hi : (0 : R) ≤ i := Nat.cast_nonneg i
    have hmany : (0 : R) < ((h.nbounds - 1 : Nat) : R) := by linarith
    exact ⟨div_nonneg (by linarith) hmany.le, (div_le_one hmany).mpr (by linarith)⟩

/-- **A larger constant has at least as much below it.** -/
theorem Band.mono (hf : Band h c f) (hf' : Band h c' f') (hc : c ≤ c') : f ≤ f' := by
  cases hf with
  | below => exact hf'.range.1
  | above hlast hb =>
    -- the larger constant is above the last bound too
    cases hf' with
    | below hfirst hb' =>
      have := Histogram.le_of_le hfirst hlast (Nat.zero_le _)
      omega
    | above => exact le_rfl
    | within h0 h1 hb0 hb1 =>
      have := Histogram.le_of_le h1 hlast (Histogram.index_lt h1)
      omega
  | @within i b0 b1 h0 h1 hb0 hb1 =>
    cases hf' with
    | below hfirst hb' =>
      have := Histogram.le_of_le hfirst h0 (Nat.zero_le _)
      omega
    | above => exact (Band.within (R := R) h0 h1 hb0 hb1).range.2
    | @within j d0 d1 h0' h1' hd0 hd1 =>
      refine div_le_div_of_nonneg_right ?_ (Nat.cast_nonneg _)
      obtain ⟨hpos, hle⟩ := between (R := R) hb0 hb1
      obtain ⟨hpos', -⟩ := between (R := R) hd0 hd1
      rcases Nat.lt_trichotomy i j with hij | rfl | hij
      · have : (i : R) + 1 ≤ j := by exact_mod_cast hij
        linarith
      · -- one band, interpolated
        obtain rfl := Option.some.inj (h0.symm.trans h0')
        obtain rfl := Option.some.inj (h1.symm.trans h1')
        have hwidth : (0 : R) ≤ ((b1 - b0 : Int) : R) := Int.cast_nonneg (by omega)
        have hcast : ((c - b0 : Int) : R) ≤ ((c' - b0 : Int) : R) := Int.cast_le.mpr (by omega)
        have := div_le_div_of_nonneg_right hcast hwidth
        linarith
      · have := Histogram.le_of_le h1' h0 (by omega)
        omega

omit [IsStrictOrderedRing R] in
/-- Nothing is below a constant that no bound is below. -/
theorem Band.eq_zero (hf : Band h c f) (hc : ∀ b ∈ h.bounds, c ≤ b) : f = 0 := by
  cases hf with
  | below => rfl
  | above hlast hb =>
    have := hc _ (List.mem_of_getElem? hlast)
    omega
  | within h0 h1 hb0 hb1 =>
    have := hc _ (List.mem_of_getElem? h0)
    omega

omit [IsStrictOrderedRing R] in
/-- Everything is below a constant above every bound. -/
theorem Band.eq_one (hf : Band h c f) (hc : ∀ b ∈ h.bounds, b < c) : f = 1 := by
  cases hf with
  | below hfirst hb =>
    have := hc _ (List.mem_of_getElem? hfirst)
    omega
  | above => rfl
  | within h0 h1 hb0 hb1 =>
    have := hc _ (List.mem_of_getElem? h1)
    omega

/-! ### How near it comes -/

/-- A number `n` of `k` sampled values between the ranks of the bounds `i` and `i + 1`,
against a place in that band. -/
theorem abs_band_sub_le {i n k a : Nat} {w : R} (ha : 0 < a) (hk : 0 < k) (hi : i + 1 ≤ a)
    (hlow : i * (k - 1) ≤ n * a) (hhigh : n * a ≤ (i + 1) * (k - 1)) (hw : 0 < w ∧ w ≤ 1) :
    |((i : R) + w) / a - n / k| ≤ 1 / a + 1 / k := by
  have ha' : (0 : R) < a := Nat.cast_pos.mpr ha
  have hk' : (0 : R) < k := Nat.cast_pos.mpr hk
  have hx : (0 : R) < 1 / a := one_div_pos.mpr ha'
  have hy : (0 : R) < 1 / k := one_div_pos.mpr hk'
  have hax : (a : R) * (1 / a) = 1 := mul_one_div_cancel ha'.ne'
  have hky : (k : R) * (1 / k) = 1 := mul_one_div_cancel hk'.ne'
  have hcast : ((k - 1 : Nat) : R) = k - 1 := by
    rw [Nat.cast_sub hk, Nat.cast_one]
  have hlow' : (i : R) * (k - 1) ≤ n * a := by
    rw [← hcast]
    exact_mod_cast hlow
  have hhigh' : (n : R) * a ≤ (i + 1) * (k - 1) := by
    rw [← hcast]
    exact_mod_cast hhigh
  have hi' : (i : R) * (1 / a) ≤ 1 := by
    rw [mul_one_div, div_le_one ha']
    exact_mod_cast Nat.le_of_succ_le hi
  have hxy : (0 : R) ≤ 1 / a * (1 / k) := (mul_pos hx hy).le
  -- both bounds on `n`, as fractions
  have hn : (i : R) * (1 / a) * (1 - 1 / k) ≤ n * (1 / k) := by
    calc (i : R) * (1 / a) * (1 - 1 / k)
        = (i : R) * (k - 1) * (1 / a * (1 / k)) := by
          linear_combination (-(i : R) * (1 / a)) * hky
      _ ≤ n * a * (1 / a * (1 / k)) := mul_le_mul_of_nonneg_right hlow' hxy
      _ = n * (1 / k) := by linear_combination (n : R) * (1 / k) * hax
  have hn' : (n : R) * (1 / k) ≤ ((i : R) + 1) * (1 / a) * (1 - 1 / k) := by
    calc (n : R) * (1 / k)
        = n * a * (1 / a * (1 / k)) := by linear_combination -(n : R) * (1 / k) * hax
      _ ≤ (i + 1) * (k - 1) * (1 / a * (1 / k)) := mul_le_mul_of_nonneg_right hhigh' hxy
      _ = ((i : R) + 1) * (1 / a) * (1 - 1 / k) := by
          linear_combination (((i : R) + 1) * (1 / a)) * hky
  rw [div_eq_mul_one_div, div_eq_mul_one_div (n : R), abs_sub_le_iff]
  have hwx : w * (1 / a) ≤ 1 / a := mul_le_of_le_one_left hx.le hw.2
  have hwx' : 0 < w * (1 / a) := mul_pos hw.1 hx
  have hiy : (i : R) * (1 / a) * (1 / k) ≤ 1 / k := mul_le_of_le_one_left hy.le hi'
  have hiy' : 0 ≤ (i : R) * (1 / a) * (1 / k) := by positivity
  constructor <;> linarith

/-- The last bound is the largest value of the sample. -/
theorem boundRank_last {k nb : Nat} (hnb : 2 ≤ nb) : boundRank k nb (nb - 1) = k - 1 := by
  rw [boundRank, if_neg (by omega), Nat.mul_div_cancel_left _ (by omega)]

/-- **The estimate of a band** is as near to the true fraction as the band is wide, give
or take one value. -/
theorem Band.accurate {buf : List (BitVec 32)} {seen : Nat} (hk : 2 ≤ buf.length)
    (hf : Band (.ofSample buf seen) c f) :
    |f - (buf.countP fun v => decide (v.toInt < c) : Nat) / (buf.length : Nat)| ≤
      1 / (((Histogram.ofSample buf seen).nbounds - 1 : Nat) : R) + 1 / (buf.length : Nat) := by
  have hlen : (sorted (buf.map BitVec.toInt)).length = buf.length := by
    rw [(sorted_perm _).length_eq, List.length_map]
  have hcount : (buf.countP fun v => decide (v.toInt < c)) =
      (sorted (buf.map BitVec.toInt)).countP (· < c) := by
    rw [(sorted_perm _).countP_eq, List.countP_map]
    rfl
  have hsorted := sorted_pairwise (buf.map BitVec.toInt)
  have hnb : (Histogram.ofSample buf seen).nbounds = min histBounds buf.length := by
    rw [← hlen]
    exact length_equiDepth _
  have hmany : 2 ≤ min histBounds buf.length := le_min (by decide) hk
  -- a bound is the value of its rank
  have hbound : ∀ {i : Nat} {b : Int}, (Histogram.ofSample buf seen).bounds[i]? = some b →
      i < min histBounds buf.length ∧ (sorted (buf.map BitVec.toInt))[boundRank buf.length
        (min histBounds buf.length) i]? = some b := by
    intro i b hi
    obtain ⟨hlt, -⟩ := List.getElem?_eq_some_iff.mp hi
    have hlt : i < min histBounds buf.length := hnb ▸ hlt
    refine ⟨hlt, ?_⟩
    rw [← hlen] at hlt ⊢
    rw [← getElem?_equiDepth hlt]
    exact hi
  rw [hcount, hnb]
  generalize hn : (sorted (buf.map BitVec.toInt)).countP (· < c) = n
  have hkpos : (0 : R) < (buf.length : Nat) := Nat.cast_pos.mpr (by omega)
  have hpos : (0 : R) ≤ 1 / ((min histBounds buf.length - 1 : Nat) : R) + 1 / (buf.length : Nat) := by
    positivity
  cases hf with
  | below hfirst hb =>
    obtain ⟨-, hrank⟩ := hbound hfirst
    have hnone := countP_le hsorted hrank hb
    have hzero : boundRank buf.length (min histBounds buf.length) 0 = 0 := by simp [boundRank]
    obtain rfl : n = 0 := by omega
    simpa using hpos
  | above hlast hb =>
    obtain ⟨-, hrank⟩ := hbound hlast
    have hall := lt_countP hsorted hrank hb
    rw [hnb, boundRank_last hmany] at hall
    have hle := List.countP_le_length (p := (decide <| · < c)) (l := sorted (buf.map BitVec.toInt))
    obtain rfl : n = buf.length := by omega
    rw [div_self hkpos.ne', sub_self, abs_zero]
    exact hpos
  | @within i b0 b1 h0 h1 hb0 hb1 =>
    obtain ⟨-, hrank0⟩ := hbound h0
    obtain ⟨hlt, hrank1⟩ := hbound h1
    have hlow := lt_countP hsorted hrank0 hb0
    have hhigh := countP_le hsorted hrank1 hb1
    rw [hn, boundRank, if_neg (by omega)] at hlow hhigh
    have hlow : i * (buf.length - 1) ≤ n * (min histBounds buf.length - 1) := by
      have := (Nat.div_lt_iff_lt_mul (by omega)).mp hlow
      exact this.le
    have hhigh : n * (min histBounds buf.length - 1) ≤ (i + 1) * (buf.length - 1) :=
      (Nat.le_div_iff_mul_le (by omega)).mp hhigh
    rw [hnb]
    exact abs_band_sub_le (by omega) (by omega) (by omega) hlow hhigh (between hb0 hb1)

/-- **The histogram's estimate is sound and accurate**, for every sample of at least two
values and every constant. -/
theorem histFracLt_accurate (buf : List (BitVec 32)) (seen : Nat) (hk : 2 ≤ buf.length) :
    ∃ f : Int → ℚ, (∀ c, histFracLt (.ofSample buf seen) c = some (f c)) ∧
      (∀ c, 0 ≤ f c ∧ f c ≤ 1) ∧ Monotone f ∧
      (∀ c, (∀ v ∈ buf, c ≤ v.toInt) → f c = 0) ∧ (∀ c, (∀ v ∈ buf, v.toInt < c) → f c = 1) ∧
      ∀ c, |f c - (buf.countP fun v => decide (v.toInt < c) : Nat) / (buf.length : Nat)| ≤
        1 / (((Histogram.ofSample buf seen).nbounds - 1 : Nat) : ℚ) + 1 / (buf.length : Nat) := by
  have hne : 0 < (Histogram.ofSample buf seen).nbounds := by
    show 0 < (equiDepth (sorted (buf.map BitVec.toInt))).length
    rw [length_equiDepth, (sorted_perm _).length_eq, List.length_map]
    exact lt_min (by decide) (by omega)
  have hband := histFracLt_band (R := ℚ) hne
  choose f hf hb using hband
  have hsample : ∀ b ∈ (Histogram.ofSample buf seen).bounds, ∃ v ∈ buf, v.toInt = b := fun b hb =>
    List.mem_map.mp ((sorted_perm _).mem_iff.mp (equiDepth_sub b hb))
  refine ⟨f, hf, fun c => (hb c).range, fun c c' hc => (hb c).mono (hb c') hc, fun c hc => ?_,
    fun c hc => ?_, fun c => (hb c).accurate hk⟩
  · refine (hb c).eq_zero fun b hbound => ?_
    obtain ⟨v, hv, rfl⟩ := hsample b hbound
    exact hc v hv
  · refine (hb c).eq_one fun b hbound => ?_
    obtain ⟨v, hv, rfl⟩ := hsample b hbound
    exact hc v hv

/-- Five values in four bands, two of them without width. -/
theorem histFracLt_accurate_five :
    ∃ f : Int → ℚ, (∀ c, histFracLt (.ofSample [3, 1, 7, 3, 3] 5) c = some (f c)) ∧
      |f 5 - 4 / 5| ≤ 1 / 4 + 1 / 5 := by
  obtain ⟨f, hf, -, -, -, -, hacc⟩ := histFracLt_accurate [3, 1, 7, 3, 3] 5 (by decide)
  have hcount : ([3, 1, 7, 3, 3] : List (BitVec 32)).countP (fun v => decide (v.toInt < 5)) = 4 := by
    decide
  have hbounds : (Histogram.ofSample [3, 1, 7, 3, 3] 5).nbounds = 5 :=
    (length_equiDepth _).trans (by rw [(sorted_perm _).length_eq]; rfl)
  refine ⟨f, hf, ?_⟩
  have h5 := hacc 5
  rw [hcount, hbounds] at h5
  exact_mod_cast h5

end

end PgAcorn.Selectivity
