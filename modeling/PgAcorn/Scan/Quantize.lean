import PgAcorn.Library.Exact
import PgAcorn.Scan.Stream
import Mathlib.Data.List.GetD

/-! The distance kernels, in exact arithmetic.

A vector is coded with one byte for each coordinate, an affine scale between its
smallest and largest coordinate. The direct kernels compare such a code with the
query without decoding it; from the code's scale the scan derives a bound below
the exact distance, which is what orders its results (`inlineLb_le`). An operator
class whose distance function is not recognized has no kernel and no bound. -/
namespace PgAcorn.Scan
open Library

/-! ### Coding -/

/-- A vector's bytes, with their scale and offset. -/
structure Sq8Code where
  code : List UInt8
  scale : ℝ
  offset : ℝ

/-- The smallest coordinate. -/
noncomputable def sq8Lo (x : List ℝ) : ℝ := x.foldl (fun lo v => if v < lo then v else lo) (x.headD 0)

/-- The largest coordinate. -/
noncomputable def sq8Hi (x : List ℝ) : ℝ := x.foldl (fun hi v => if v > hi then v else hi) (x.headD 0)

/-- `acorn_sq8_encode`. -/
noncomputable def sq8Encode (x : List ℝ) : Sq8Code :=
  let lo := sq8Lo x
  let hi := sq8Hi x
  let scale := (hi - lo) / 255
  let inv := if scale > 0 then 1 / scale else 0
  { code := x.map fun v => UInt8.ofNat ⌊(v - lo) * inv + 0.5⌋₊
    scale := scale
    offset := lo }

/-- Coordinate `i` of a decoded vector. -/
noncomputable def Sq8Code.get (c : Sq8Code) (i : Nat) : ℝ :=
  c.offset + c.scale * ((c.code.getD i 0).toNat : ℝ)

/-- `acorn_sq8_decode`. -/
noncomputable def sq8Decode (dim : Nat) (c : Sq8Code) : List ℝ := (List.range dim).map c.get

theorem foldl_min_le (xs : List ℝ) (a : ℝ) :
    xs.foldl (fun lo v => if v < lo then v else lo) a ≤ a ∧
      ∀ v ∈ xs, xs.foldl (fun lo v => if v < lo then v else lo) a ≤ v := by
  induction xs generalizing a with
  | nil => simp
  | cons x xs ih =>
    obtain ⟨ha, hxs⟩ := ih (if x < a then x else a)
    have hmin : (if x < a then x else a) ≤ a ∧ (if x < a then x else a) ≤ x := by
      split
      · exact ⟨le_of_lt ‹_›, le_refl _⟩
      · exact ⟨le_refl _, le_of_not_gt ‹_›⟩
    refine ⟨ha.trans hmin.1, fun v hv => ?_⟩
    obtain rfl | hv := List.mem_cons.mp hv
    · exact ha.trans hmin.2
    · exact hxs v hv

theorem le_foldl_max (xs : List ℝ) (a : ℝ) :
    a ≤ xs.foldl (fun hi v => if v > hi then v else hi) a ∧
      ∀ v ∈ xs, v ≤ xs.foldl (fun hi v => if v > hi then v else hi) a := by
  induction xs generalizing a with
  | nil => simp
  | cons x xs ih =>
    obtain ⟨ha, hxs⟩ := ih (if x > a then x else a)
    have hmax : a ≤ (if x > a then x else a) ∧ x ≤ (if x > a then x else a) := by
      split
      · exact ⟨le_of_lt ‹_›, le_refl _⟩
      · exact ⟨le_refl _, le_of_not_gt ‹_›⟩
    refine ⟨hmax.1.trans ha, fun v hv => ?_⟩
    obtain rfl | hv := List.mem_cons.mp hv
    · exact hmax.2.trans ha
    · exact hxs v hv

theorem sq8_range {x : List ℝ} {v : ℝ} (hv : v ∈ x) : sq8Lo x ≤ v ∧ v ≤ sq8Hi x :=
  ⟨(foldl_min_le x _).2 v hv, (le_foldl_max x _).2 v hv⟩

/-- The byte of a coordinate: what is truncated lies within a byte's range. -/
theorem sq8_byte {lo hi v : ℝ} (hhi : v ≤ hi) (hs : 0 < (hi - lo) / 255) :
    (UInt8.ofNat ⌊(v - lo) * (1 / ((hi - lo) / 255)) + 0.5⌋₊).toNat =
      ⌊(v - lo) * (1 / ((hi - lo) / 255)) + 0.5⌋₊ := by
  have hle : (v - lo) * (1 / ((hi - lo) / 255)) ≤ 255 := by
    rw [mul_one_div, div_le_iff₀ hs]
    linarith
  have hfloor : ⌊(v - lo) * (1 / ((hi - lo) / 255)) + 0.5⌋₊ < 256 := by
    rw [Nat.floor_lt' (by norm_num)]
    push_cast
    linarith
  rw [UInt8.toNat_ofNat']
  exact Nat.mod_eq_of_lt hfloor

/-- What `acorn_sq8_encode` truncates to the byte of a coordinate `v`. -/
noncomputable def Sq8Code.unrounded (c : Sq8Code) (v : ℝ) : ℝ :=
  (v - c.offset) * (if c.scale > 0 then 1 / c.scale else 0) + 0.5

theorem sq8Encode_code (x : List ℝ) {i : Nat} (hi : i < x.length) :
    (sq8Encode x).code.getD i 0 = UInt8.ofNat ⌊(sq8Encode x).unrounded (x.getD i 0)⌋₊ := by
  rw [List.getD_eq_getElem _ _ (by simpa [sq8Encode] using hi), List.getD_eq_getElem _ _ hi]
  simp [sq8Encode, Sq8Code.unrounded]

/-- A constant vector has scale zero. -/
theorem sq8Encode_scale_eq_zero {x : List ℝ} {a : ℝ} (hx : ∀ v ∈ x, v = a) :
    (sq8Encode x).scale = 0 := by
  have hconstant : ∀ (f : ℝ → ℝ → Prop) [DecidableRel f] (ys : List ℝ), (∀ v ∈ ys, v = a) →
      ys.foldl (fun b v => if f v b then v else b) a = a := by
    intro f _ ys hys
    induction ys with
    | nil => rfl
    | cons y ys ih =>
      rw [List.foldl_cons, hys y List.mem_cons_self, ite_self]
      exact ih fun v hv => hys v (List.mem_cons_of_mem y hv)
  show (sq8Hi x - sq8Lo x) / 255 = 0
  cases x with
  | nil => simp [sq8Hi, sq8Lo]
  | cons y ys =>
    have hy : (y :: ys).headD 0 = a := hx y List.mem_cons_self
    have hhi : sq8Hi (y :: ys) = a := by
      unfold sq8Hi
      rw [hy]
      exact hconstant (· > ·) _ hx
    have hlo : sq8Lo (y :: ys) = a := by
      unfold sq8Lo
      rw [hy]
      exact hconstant (· < ·) _ hx
    rw [hhi, hlo, sub_self, zero_div]

/-- What is truncated is at least zero and rounds to at most 255. -/
theorem sq8Encode_unrounded (x : List ℝ) {i : Nat} (hi : i < x.length) :
    0 ≤ (sq8Encode x).unrounded (x.getD i 0) ∧ ⌊(sq8Encode x).unrounded (x.getD i 0)⌋₊ < 256 := by
  rw [List.getD_eq_getElem _ _ hi]
  obtain ⟨hlo, hhi⟩ := sq8_range (List.getElem_mem hi)
  show 0 ≤ (x[i] - sq8Lo x) * (if (sq8Hi x - sq8Lo x) / 255 > 0 then
      1 / ((sq8Hi x - sq8Lo x) / 255) else 0) + 0.5 ∧ ⌊(x[i] - sq8Lo x) *
      (if (sq8Hi x - sq8Lo x) / 255 > 0 then 1 / ((sq8Hi x - sq8Lo x) / 255) else 0) + 0.5⌋₊ < 256
  by_cases hs : (sq8Hi x - sq8Lo x) / 255 > 0
  · rw [if_pos hs, ← sq8_byte hhi hs]
    refine ⟨?_, UInt8.toNat_lt _⟩
    have : 0 ≤ (x[i] - sq8Lo x) * (1 / ((sq8Hi x - sq8Lo x) / 255)) :=
      mul_nonneg (by linarith) (one_div_nonneg.mpr hs.le)
    linarith
  · rw [if_neg hs, mul_zero, zero_add, Nat.floor_lt' (by norm_num)]
    norm_num

/-- A coordinate is coded up to half the scale. -/
theorem sq8Encode_error (x : List ℝ) {i : Nat} (hi : i < x.length) :
    |x.getD i 0 - (sq8Encode x).get i| ≤ 0.5 * (sq8Encode x).scale := by
  have hget : x.getD i 0 = x[i] := List.getD_eq_getElem _ _ hi
  obtain ⟨hlo, hhi⟩ := sq8_range (List.getElem_mem hi)
  have hcode : (sq8Encode x).code.getD i 0 = UInt8.ofNat ⌊(x[i] - sq8Lo x) *
      (if (sq8Hi x - sq8Lo x) / 255 > 0 then 1 / ((sq8Hi x - sq8Lo x) / 255) else 0) + 0.5⌋₊ := by
    rw [List.getD_eq_getElem _ _ (by simpa [sq8Encode] using hi)]
    simp [sq8Encode]
  unfold Sq8Code.get
  rw [hcode, hget]
  show |x[i] - (sq8Lo x + (sq8Hi x - sq8Lo x) / 255 * _)| ≤ 0.5 * ((sq8Hi x - sq8Lo x) / 255)
  by_cases hs : (sq8Hi x - sq8Lo x) / 255 > 0
  · rw [if_pos hs, sq8_byte hhi hs]
    generalize hscale : (sq8Hi x - sq8Lo x) / 255 = scale at hs ⊢
    have hy : 0 ≤ (x[i] - sq8Lo x) * (1 / scale) :=
      mul_nonneg (by linarith) (one_div_nonneg.mpr hs.le)
    have hround := floor_add_half hy
    have hfactor : x[i] - (sq8Lo x + scale * (⌊(x[i] - sq8Lo x) * (1 / scale) + 0.5⌋₊ : ℝ)) =
        scale * ((x[i] - sq8Lo x) * (1 / scale) -
          (⌊(x[i] - sq8Lo x) * (1 / scale) + 0.5⌋₊ : ℝ)) := by
      field_simp
      ring
    rw [hfactor, abs_mul, abs_of_pos hs]
    calc scale * _ ≤ scale * 0.5 := mul_le_mul_of_nonneg_left hround hs.le
      _ = 0.5 * scale := mul_comm _ _
  · -- a constant vector: its codes are zero and the offset is exact
    have heq : sq8Hi x = sq8Lo x := by
      rw [gt_iff_lt, not_lt, div_le_iff₀ (by norm_num)] at hs
      linarith
    have hx : x[i] = sq8Lo x := le_antisymm (heq ▸ hhi) hlo
    rw [heq, hx]
    simp

theorem sq8Encode_scale_nonneg {x : List ℝ} (hx : x ≠ []) : 0 ≤ (sq8Encode x).scale := by
  obtain ⟨hlo, hhi⟩ := sq8_range (List.head_mem hx)
  show 0 ≤ (sq8Hi x - sq8Lo x) / 255
  exact div_nonneg (by linarith) (by norm_num)

/-! ### Kernels -/

/-- `acorn_dist_l2sq`. -/
noncomputable def distL2sq (dim : Nat) (ax bx : List ℝ) : ℝ :=
  ∑ i ∈ Finset.range dim, (ax.getD i 0 - bx.getD i 0) ^ 2

/-- `acorn_dist_neg_ip`. -/
noncomputable def distNegIp (dim : Nat) (ax bx : List ℝ) : ℝ :=
  -∑ i ∈ Finset.range dim, ax.getD i 0 * bx.getD i 0

/-- `acorn_dist_l2sq_sq8`. -/
noncomputable def distL2sqSq8 (dim : Nat) (c : Sq8Code) (qx : List ℝ) : ℝ :=
  ∑ i ∈ Finset.range dim, (qx.getD i 0 - c.get i) ^ 2

/-- `acorn_dist_neg_ip_sq8`. -/
noncomputable def distNegIpSq8 (dim : Nat) (c : Sq8Code) (qx : List ℝ) : ℝ :=
  -∑ i ∈ Finset.range dim, qx.getD i 0 * c.get i

/-- The direct kernels. -/
inductive DistFn
  | l2sq
  | negIp
  deriving DecidableEq

/-- The exact kernel. -/
noncomputable def DistFn.dist : DistFn → Nat → List ℝ → List ℝ → ℝ
  | .l2sq => distL2sq
  | .negIp => distNegIp

/-- The kernel on codes. -/
noncomputable def DistFn.sq8 : DistFn → Nat → Sq8Code → List ℝ → ℝ
  | .l2sq => distL2sqSq8
  | .negIp => distNegIpSq8

/-- What an index's operator class says of its distance function. -/
structure Opclass where
  retFloat8 : Bool
  funcName : Option String
  distProc : List ℝ → List ℝ → ℝ

/-- `acorn_resolve_direct_dist`. -/
def resolveDirectDist (o : Opclass) : Option DistFn :=
  if !o.retFloat8 then none
  else match o.funcName with
    | none => none
    | some name =>
      if name = "vector_l2_squared_distance" then some .l2sq
      else if name = "vector_negative_inner_product" then some .negIp
      else none

/-- The scan's `sq8_direct`. -/
def sq8Direct (o : Opclass) (query : List ℝ) (metaDims : Nat) : Option DistFn :=
  if query.length = metaDims then resolveDirectDist o else none

/-- `acorn_t2_etup_distance`, for a scan that uses `dist_direct` or not. -/
noncomputable def t2EtupDistance (o : Opclass) (scanDirectDist : Bool) (query v : List ℝ) : ℝ :=
  match if scanDirectDist then resolveDirectDist o else none with
  | some fn => if v.length = query.length then fn.dist v.length v query else o.distProc v query
  | none => o.distProc v query

/-- `acorn_t2_sq8_distance`. -/
noncomputable def t2Sq8Distance (o : Opclass) (query : List ℝ) (metaDims : Nat) (c : Sq8Code) : ℝ :=
  match sq8Direct o query metaDims with
  | some fn => fn.sq8 metaDims c query
  | none => o.distProc (sq8Decode metaDims c) query

/-- `acorn_t2_inline_lb`. -/
noncomputable def t2InlineLb (o : Opclass) (query : List ℝ) (metaDims : Nat) (dist : ℝ)
    (c : Sq8Code) : ℝ :=
  match sq8Direct o query metaDims with
  | some .negIp => dist - 0.5 * c.scale * ∑ i ∈ Finset.range query.length, |query.getD i 0|
  | some .l2sq =>
    let en := 0.5 * c.scale * √metaDims
    let lo := √(max dist 0) - en
    if lo > 0 then lo * lo else 0
  | none => dist

/-- The distances of a scan. -/
noncomputable def Kernels.ofOpclass (o : Opclass) (scanDirectDist : Bool) (query : List ℝ)
    (metaDims : Nat) : Kernels (List ℝ) Sq8Code ℝ where
  etupDistance := t2EtupDistance o scanDirectDist query
  sq8Distance := t2Sq8Distance o query metaDims
  inlineLb := t2InlineLb o query metaDims
  haveBound := (sq8Direct o query metaDims).isSome

/-! ### The bound -/

/-- A recognized distance function computes what the kernel for it does. -/
def Opclass.Documented (o : Opclass) (fn : DistFn) : Prop :=
  resolveDirectDist o = some fn ∧ ∀ v w, v.length = w.length → o.distProc v w = fn.dist v.length v w

theorem t2EtupDistance_documented {o : Opclass} {fn : DistFn} (ho : o.Documented fn)
    (scanDirectDist : Bool) {query v : List ℝ} (hdim : v.length = query.length) :
    t2EtupDistance o scanDirectDist query v = fn.dist v.length v query := by
  unfold t2EtupDistance
  cases scanDirectDist with
  | true => simp only [if_true, ho.1, if_pos hdim]
  | false => exact ho.2 v query hdim

/-- The bound of a code lies below what the exact kernel computes. -/
theorem inlineLb_le_dist {o : Opclass} {fn : DistFn} (ho : resolveDirectDist o = some fn)
    {query v : List ℝ} {metaDims : Nat} (hq : query.length = metaDims) (hv : v.length = metaDims) :
    t2InlineLb o query metaDims (t2Sq8Distance o query metaDims (sq8Encode v)) (sq8Encode v) ≤
      fn.dist v.length v query := by
  have hdirect : sq8Direct o query metaDims = some fn := by rw [sq8Direct, if_pos hq, ho]
  have herror : ∀ i ∈ Finset.range metaDims, |v.getD i 0 - (sq8Encode v).get i| ≤
      0.5 * (sq8Encode v).scale := fun i hi =>
    sq8Encode_error v (hv ▸ Finset.mem_range.mp hi)
  simp only [t2InlineLb, t2Sq8Distance, hdirect]
  cases fn with
  | negIp =>
    dsimp only
    have := inner_error (q := fun i => query.getD i 0) herror
    simpa only [DistFn.sq8, DistFn.dist, distNegIpSq8, distNegIp, hq, hv] using this
  | l2sq =>
    show (if _ > 0 then _ else 0) ≤ distL2sq v.length v query
    have hnonneg : 0 ≤ distL2sq v.length v query := Finset.sum_nonneg fun i _ => sq_nonneg _
    split
    · rename_i hlo
      have hscale : 0 ≤ 0.5 * (sq8Encode v).scale := by
        cases v with
        | nil =>
          rw [← hv] at hlo
          simp [sq8Encode, sq8Hi, sq8Lo]
        | cons a v => exact mul_nonneg (by norm_num) (sq8Encode_scale_nonneg (by simp))
      have happrox : 0 ≤ distL2sqSq8 metaDims (sq8Encode v) query :=
        Finset.sum_nonneg fun i _ => sq_nonneg _
      have hbound := sqrt_dist_error (q := fun i => query.getD i 0) hscale herror
      rw [Finset.card_range] at hbound
      have hmax : max (DistFn.sq8 .l2sq metaDims (sq8Encode v) query) 0 =
          distL2sqSq8 metaDims (sq8Encode v) query := max_eq_left happrox
      rw [hmax] at hlo ⊢
      have hle : √(distL2sqSq8 metaDims (sq8Encode v) query) - 0.5 * (sq8Encode v).scale * √metaDims ≤
          √(distL2sq v.length v query) := by rwa [hv]
      calc _ ≤ √(distL2sq v.length v query) * √(distL2sq v.length v query) :=
            mul_self_le_mul_self hlo.le hle
        _ = _ := Real.mul_self_sqrt hnonneg
    · exact hnonneg

/-- **The bound of a code lies below the exact distance** of the vector it codes. -/
theorem inlineLb_le {o : Opclass} {fn : DistFn} (ho : o.Documented fn) (scanDirectDist : Bool)
    {query v : List ℝ} {metaDims : Nat} (hq : query.length = metaDims) (hv : v.length = metaDims) :
    t2InlineLb o query metaDims (t2Sq8Distance o query metaDims (sq8Encode v)) (sq8Encode v) ≤
      t2EtupDistance o scanDirectDist query v := by
  rw [t2EtupDistance_documented ho _ (hv.trans hq.symm)]
  exact inlineLb_le_dist ho.1 hq hv

/-- **The bound from a code is valid.** What is truncated to a byte rounds to
0 to 255 and is that byte; a coordinate is decoded up to half the scale, and a
constant vector without error; and the bound the scan derives from the
approximate distance lies below the exact one, for either kernel. -/
theorem sq8_bound_valid {o : Opclass} {fn : DistFn} (ho : resolveDirectDist o = some fn)
    (x : List ℝ) {q : List ℝ} (hq : q.length = x.length) :
    (∀ i < x.length,
      0 ≤ ⌊(sq8Encode x).unrounded (x.getD i 0)⌋ ∧ ⌊(sq8Encode x).unrounded (x.getD i 0)⌋ ≤ 255 ∧
      (((sq8Encode x).code.getD i 0).toNat : ℤ) = ⌊(sq8Encode x).unrounded (x.getD i 0)⌋ ∧
      |x.getD i 0 - ((sq8Encode x).offset +
        (sq8Encode x).scale * (((sq8Encode x).code.getD i 0).toNat : ℝ))| ≤ (sq8Encode x).scale / 2) ∧
    ((∃ a, ∀ v ∈ x, v = a) → ∀ i < x.length,
      (sq8Encode x).offset + (sq8Encode x).scale * (((sq8Encode x).code.getD i 0).toNat : ℝ) =
        x.getD i 0) ∧
    t2InlineLb o q x.length (t2Sq8Distance o q x.length (sq8Encode x)) (sq8Encode x) ≤
      fn.dist x.length x q := by
  refine ⟨fun i hi => ?_, ?_, inlineLb_le_dist ho hq rfl⟩
  · obtain ⟨hnonneg, hlt⟩ := sq8Encode_unrounded x hi
    have hcode : ((sq8Encode x).code.getD i 0).toNat = ⌊(sq8Encode x).unrounded (x.getD i 0)⌋₊ := by
      rw [sq8Encode_code x hi, UInt8.toNat_ofNat']
      exact Nat.mod_eq_of_lt hlt
    have hfloor : (⌊(sq8Encode x).unrounded (x.getD i 0)⌋₊ : ℤ) =
        ⌊(sq8Encode x).unrounded (x.getD i 0)⌋ := Int.natCast_floor_eq_floor hnonneg
    refine ⟨by omega, by omega, by rw [hcode, hfloor], ?_⟩
    calc _ ≤ 0.5 * (sq8Encode x).scale := sq8Encode_error x hi
      _ = (sq8Encode x).scale / 2 := by ring
  · rintro ⟨a, ha⟩ i hi
    have herror := sq8Encode_error x hi
    rw [sq8Encode_scale_eq_zero ha, mul_zero, abs_nonpos_iff, sub_eq_zero] at herror
    exact herror.symm

/-- Two coordinates of `vector_ip_ops`, against a query with one. -/
theorem sq8_bound_valid_pair :
    t2InlineLb ⟨true, some "vector_negative_inner_product", fun v w => distNegIp v.length v w⟩ [1, 0] 2
      (t2Sq8Distance ⟨true, some "vector_negative_inner_product", fun v w => distNegIp v.length v w⟩
        [1, 0] 2 (sq8Encode [3, 5])) (sq8Encode [3, 5]) ≤ -3 := by
  have ho : resolveDirectDist ⟨true, some "vector_negative_inner_product",
      fun v w => distNegIp v.length v w⟩ = some .negIp := rfl
  have h := (sq8_bound_valid ho [3, 5] (q := [1, 0]) rfl).2.2
  simpa [DistFn.dist, distNegIp, Finset.sum_range_succ] using h

end PgAcorn.Scan
