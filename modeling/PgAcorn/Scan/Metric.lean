import PgAcorn.Library.Cosine
import PgAcorn.Scan.Order
import Mathlib.Analysis.InnerProductSpace.PiL2

/-! The distance an index orders by, against the operator its class declares.

An `acorn_hnsw` operator class names an ORDER BY operator and the support function
the index computes instead, on the vectors as they were given: neither build nor
insert nor scan normalizes. For Euclidean distance, inner product and L1 distance
the two order any two vectors alike. For the cosine class the support function is
the negative inner product of vectors of any norm, so rows leave the index in an
order that is not that of `<=>` unless the stored vectors have one norm
(`operator_order_iff`). -/
namespace PgAcorn.Scan
open Library

/-! ### pgvector's functions -/

/-- `vector_norm`. -/
noncomputable def vectorNorm (a : List ℝ) : ℝ :=
  √(∑ i ∈ Finset.range a.length, a.getD i 0 ^ 2)

/-- `l2_distance`, the operator `<->`. -/
noncomputable def l2Distance (a b : List ℝ) : ℝ := √(distL2sq a.length a b)

/-- `vector_negative_inner_product`, the operator `<#>`. -/
noncomputable def vectorNegativeInnerProduct (a b : List ℝ) : ℝ := distNegIp a.length a b

/-- `cosine_distance`, the operator `<=>`. -/
noncomputable def cosineDistance (a b : List ℝ) : ℝ :=
  1 - (∑ i ∈ Finset.range a.length, a.getD i 0 * b.getD i 0) / (vectorNorm a * vectorNorm b)

/-- `l1_distance`, the operator `<+>`. -/
noncomputable def l1Distance (a b : List ℝ) : ℝ :=
  ∑ i ∈ Finset.range a.length, |a.getD i 0 - b.getD i 0|

/-! ### The operator classes -/

/-- The vector operator classes of `acorn_hnsw`. -/
inductive VectorOps
  | vectorL2Ops | vectorIpOps | vectorCosineOps | vectorL1Ops
  deriving DecidableEq

namespace VectorOps

/-- `OPERATOR 1`, for ORDER BY. -/
noncomputable def operator1 : VectorOps → List ℝ → List ℝ → ℝ
  | vectorL2Ops => l2Distance
  | vectorIpOps => vectorNegativeInnerProduct
  | vectorCosineOps => cosineDistance
  | vectorL1Ops => l1Distance

/-- `FUNCTION 1`, with its name. -/
noncomputable def opclass : VectorOps → Opclass
  | vectorL2Ops => Scan.vectorL2Ops
  | vectorIpOps | vectorCosineOps =>
    ⟨true, some "vector_negative_inner_product", vectorNegativeInnerProduct⟩
  | vectorL1Ops => ⟨true, some "l1_distance", l1Distance⟩

/-- `FUNCTION 1`. -/
noncomputable def function1 (c : VectorOps) : List ℝ → List ℝ → ℝ := c.opclass.distProc

end VectorOps

/-- The vector an element keeps of a row's value: `acorn_build_callback` and
`acorn_insert` detoast it and store it as it is. -/
def storedVector (value : List ℝ) : List ℝ := value

/-- The vector a scan compares with: `acorn_gettuple` detoasts the argument. -/
def scanQuery (argument : List ℝ) : List ℝ := argument

/-- A scan of the class orders by its `FUNCTION 1`, through a kernel or not. -/
theorem etupDistance_eq_function1 (c : VectorOps) (scanDirectDist : Bool) {value argument : List ℝ}
    (hdim : value.length = argument.length) :
    t2EtupDistance c.opclass scanDirectDist (scanQuery argument) (storedVector value) =
      c.function1 (storedVector value) (scanQuery argument) := by
  cases c with
  | vectorL1Ops => cases scanDirectDist <;> rfl
  | vectorL2Ops => exact t2EtupDistance_documented vectorL2Ops_documented _ hdim
  | vectorIpOps | vectorCosineOps =>
    have hdocumented : (VectorOps.opclass .vectorIpOps).Documented .negIp :=
      ⟨rfl, fun _ _ _ => rfl⟩
    exact t2EtupDistance_documented hdocumented _ hdim

/-- The vectors of a column `vector(dim)`. -/
@[ext] structure PgVector (dim : Nat) where
  x : List ℝ
  length_x : x.length = dim

namespace PgVector
variable {dim : Nat}

attribute [local instance] atLeastTwo_two

/-- The vector in Euclidean space. -/
noncomputable def point (v : PgVector dim) : EuclideanSpace ℝ (Fin dim) :=
  WithLp.toLp 2 fun i => v.x.getD i 0

/-- A vector is nonzero. -/
def Nonzero (v : PgVector dim) : Prop := ∃ x ∈ v.x, x ≠ 0

/-- Two vectors point to opposite directions. -/
def Opposite (a b : PgVector dim) : Prop := ∃ r < 0, b.x = a.x.map (r * ·)

theorem point_apply (v : PgVector dim) (i : Fin dim) :
    v.point i = v.x.getD i 0 := rfl

theorem point_injective : Function.Injective fun v : PgVector dim => v.point := by
  intro a b h
  apply PgVector.ext
  apply List.ext_getElem (a.length_x.trans b.length_x.symm)
  intro i hi _
  have := congrFun (congrArg WithLp.ofLp h) ⟨i, a.length_x ▸ hi⟩
  simpa [point, List.getD_eq_getElem, hi, a.length_x ▸ hi, b.length_x] using this

/-- Every point is the point of a vector. -/
theorem point_surjective : Function.Surjective fun v : PgVector dim => v.point := by
  intro p
  refine ⟨⟨List.ofFn p, List.length_ofFn⟩, ?_⟩
  ext i
  simp [point_apply]

theorem inner_point (a b : PgVector dim) :
    inner ℝ a.point b.point =
      ∑ i ∈ Finset.range a.x.length, a.x.getD i 0 * b.x.getD i 0 := by
  rw [PiLp.inner_apply, a.length_x, ← Fin.sum_univ_eq_sum_range
    (fun i => a.x.getD i 0 * b.x.getD i 0) dim]
  exact Finset.sum_congr rfl fun i _ => mul_comm _ _

theorem norm_point (a : PgVector dim) : ‖a.point‖ = vectorNorm a.x := by
  rw [EuclideanSpace.norm_eq, vectorNorm, a.length_x, ← Fin.sum_univ_eq_sum_range
    (fun i => a.x.getD i 0 ^ 2) dim]
  simp [point_apply]

theorem point_eq_zero (a : PgVector dim) : a.point = 0 ↔ ¬ a.Nonzero := by
  constructor
  · rintro h ⟨v, hv, hne⟩
    obtain ⟨i, hi, rfl⟩ := List.getElem_of_mem hv
    have := congrFun (congrArg WithLp.ofLp h) ⟨i, a.length_x ▸ hi⟩
    rw [point_apply, List.getD_eq_getElem _ _ hi] at this
    exact hne this
  · intro h
    ext i
    rw [point_apply, List.getD_eq_getElem _ _ (a.length_x.symm ▸ i.isLt)]
    by_contra hne
    exact h ⟨_, List.getElem_mem _, hne⟩

theorem opposite_point (a b : PgVector dim) :
    Library.Opposite a.point b.point ↔ a.Opposite b := by
  refine exists_congr fun r => and_congr_right fun _ => ?_
  let scaled : PgVector dim := ⟨a.x.map (r * ·), by rw [List.length_map, a.length_x]⟩
  have hscaled : scaled.point = r • a.point := by
    ext i
    have hi : (i : Nat) < a.x.length := a.length_x.symm ▸ i.isLt
    show (a.x.map (r * ·)).getD i 0 = r * a.x.getD i 0
    rw [List.getD_eq_getElem _ _ (by simpa using hi), List.getD_eq_getElem _ _ hi, List.getElem_map]
  rw [← hscaled]
  constructor
  · intro h
    exact congrArg PgVector.x (point_injective h)
  · intro h
    exact congrArg point (PgVector.ext h)

end PgVector

/-! ### The two orders -/

/-- `FUNCTION 1` and the operator order the stored vectors `a` and `b` alike. -/
def OrdersAlike (c : VectorOps) {dim : Nat} (a b q : PgVector dim) : Prop :=
  c.function1 (storedVector a.x) (scanQuery q.x) ≤ c.function1 (storedVector b.x) (scanQuery q.x) ↔
    c.operator1 a.x q.x ≤ c.operator1 b.x q.x

section Order
variable {dim : Nat} {c : VectorOps} {a b q : PgVector dim}

/-- Every class but cosine computes a monotone function of its operator. -/
theorem ordersAlike_of_ne_cosine (hc : c ≠ .vectorCosineOps) : OrdersAlike c a b q := by
  cases c with
  | vectorL2Ops =>
    have hnonneg : ∀ v : List ℝ, 0 ≤ distL2sq v.length v q.x := fun v =>
      Finset.sum_nonneg fun i _ => sq_nonneg _
    exact (Real.sqrt_le_sqrt_iff (hnonneg b.x)).symm
  | vectorIpOps => exact Iff.rfl
  | vectorCosineOps => exact absurd rfl hc
  | vectorL1Ops => exact Iff.rfl

theorem cosineDistance_eq (a q : PgVector dim) :
    cosineDistance a.x q.x = 1 - cosine a.point q.point := by
  rw [cosineDistance, cosine, PgVector.inner_point, PgVector.norm_point, PgVector.norm_point]

/-- The cosine class orders by inner product. -/
theorem ordersAlike_cosine :
    OrdersAlike .vectorCosineOps a b q ↔ OrderAlike a.point b.point q.point := by
  have hfunction : ∀ v : PgVector dim, VectorOps.function1 .vectorCosineOps (storedVector v.x)
      (scanQuery q.x) = -inner ℝ v.point q.point := fun v => by
    rw [PgVector.inner_point]
    rfl
  have hoperator : ∀ v : PgVector dim, VectorOps.operator1 .vectorCosineOps v.x q.x =
      1 - cosine v.point q.point := fun v => cosineDistance_eq v q
  unfold OrdersAlike OrderAlike
  rw [hfunction, hfunction, hoperator, hoperator, neg_le_neg_iff, sub_le_sub_iff_left]

/-- A stored vector, query or row value the class's operator is defined for. -/
def VectorOps.Admits (c : VectorOps) (v : PgVector dim) : Prop :=
  c = .vectorCosineOps → v.Nonzero

/-- **An index's order is its operator's** for every query exactly when its class
is not cosine, or any two of its vectors have one norm or opposite directions. -/
theorem operator_order_iff (c : VectorOps) (dim : Nat) (stored : Set (PgVector dim))
    (hstored : ∀ a ∈ stored, c.Admits a) :
    (∀ a ∈ stored, ∀ b ∈ stored, ∀ q : PgVector dim, c.Admits q → OrdersAlike c a b q) ↔
      (c = .vectorCosineOps → ∀ a ∈ stored, ∀ b ∈ stored,
        vectorNorm a.x = vectorNorm b.x ∨ a.Opposite b) := by
  by_cases hc : c = .vectorCosineOps
  · subst hc
    have hnonzero : ∀ v : PgVector dim, v.Nonzero ↔ v.point ≠ 0 := fun v =>
      iff_not_comm.mp v.point_eq_zero
    rw [imp_iff_right rfl]
    refine forall₄_congr fun a ha b hb => ?_
    have halike := order_alike_iff ((hnonzero a).mp (hstored a ha rfl))
      ((hnonzero b).mp (hstored b hb rfl))
    rw [PgVector.norm_point, PgVector.norm_point, PgVector.opposite_point] at halike
    rw [← halike]
    constructor
    · intro h p hp
      obtain ⟨q, rfl⟩ := PgVector.point_surjective p
      exact ordersAlike_cosine.mp (h q fun _ => (hnonzero q).mpr hp)
    · intro h q hq
      exact ordersAlike_cosine.mpr (h q.point ((hnonzero q).mp (hq rfl)))
  · exact ⟨fun _ h => absurd h hc, fun _ a _ b _ q _ => ordersAlike_of_ne_cosine hc⟩

/-- Two unit vectors. -/
def unitPair : Set (PgVector 2) := {⟨[1, 0], rfl⟩, ⟨[0, 1], rfl⟩}

/-- Under the cosine class they have the operator's order. -/
theorem operator_order_unit : unitPair.Nonempty ∧
    ∀ a ∈ unitPair, ∀ b ∈ unitPair, ∀ q : PgVector 2, VectorOps.vectorCosineOps.Admits q →
      OrdersAlike .vectorCosineOps a b q := by
  refine ⟨⟨⟨[1, 0], rfl⟩, .inl rfl⟩, (operator_order_iff .vectorCosineOps 2 unitPair ?_).mpr ?_⟩
  · rintro a (rfl | rfl) _
    · exact ⟨1, by simp, one_ne_zero⟩
    · exact ⟨1, by simp, one_ne_zero⟩
  · rintro - a (rfl | rfl) b (rfl | rfl) <;>
      simp [vectorNorm, Finset.sum_range_succ]

/-- A long vector leaves the cosine index before the one that points along the query. -/
theorem cosine_order_wrong :
    ¬ ∀ (c : VectorOps) (dim : Nat) (a b q : PgVector dim), c.Admits a → c.Admits b → c.Admits q →
      OrdersAlike c a b q := by
  intro h
  have hab := h .vectorCosineOps 2 ⟨[1, 0], rfl⟩ ⟨[3, 4], rfl⟩ ⟨[1, 0], rfl⟩
    (fun _ => ⟨1, by simp, one_ne_zero⟩) (fun _ => ⟨3, by simp, three_ne_zero⟩)
    (fun _ => ⟨1, by simp, one_ne_zero⟩)
  have hnorm : √((3 : ℝ) ^ 2 + 4 ^ 2) = 5 := by
    rw [show (3 : ℝ) ^ 2 + 4 ^ 2 = 5 ^ 2 by norm_num, Real.sqrt_sq (by norm_num)]
  have hoperator : cosineDistance [1, 0] [1, 0] ≤ cosineDistance [3, 4] [1, 0] := by
    simp only [cosineDistance, vectorNorm, List.length_cons, List.length_nil,
      Finset.sum_range_succ, Finset.sum_range_zero]
    simp only [List.getD_cons_zero, List.getD_cons_succ, zero_add, hnorm]
    norm_num
  have hfunction := hab.mpr hoperator
  simp [VectorOps.function1, VectorOps.opclass, vectorNegativeInnerProduct, distNegIp,
    storedVector, scanQuery, Finset.sum_range_succ] at hfunction

end Order

end PgAcorn.Scan
