import PgAcorn.Library.Exact
import PgAcorn.Selectivity
import Mathlib.Analysis.SpecialFunctions.Sqrt

/-! Automatic ef: from the scan keys' estimated selectivity to an expansion budget.

Each key contributes the fraction of the histogram's rows that it passes, the keys are
taken for independent, and the budget is a clamped square root law in the product. All
steps are monotone (`autoEf_mono_sel`, `autoEf_mono_recall`), except the reading of a
key's constant: whatever its type, it is taken for an int4. Constants of type int8 wrap
around there, and the budget follows the wrapped order (`autoEf_right_iff`). -/
namespace PgAcorn.Selectivity
open PgAcorn.Filter (Datum ScanKey Strategy ArgType OperatorProc datumGetInt32)

/-! ### The estimate -/

/-- A value forced between two others, as the source's pairs of `if`s do. -/
def clamp {R : Type} [LinearOrder R] (lo hi x : R) : R :=
  let x := if x < lo then lo else x
  if x > hi then hi else x

section
variable {R : Type} [Field R] [LinearOrder R]

/-- The rows a key passes, before clamping; one of the `switch`'s branches. -/
def keyFraction (h : Histogram) (key : ScanKey) : Option R :=
  let c := (datumGetInt32 key.skArgument).toInt
  match key.skFunc.strategy with
  | .less => histFracLt h c
  | .lessEqual => histFracLt h (c + 1)
  | .greaterEqual => (histFracLt h c).map fun f => 1 - f
  | .greater => (histFracLt h (c + 1)).map fun f => 1 - f
  | .equal => divide 1 (h.ndistinct : R)

/-- One round of the loop over the keys. -/
def multiplyKey (h : Histogram) (sel : R) (key : ScanKey) : Option R :=
  (keyFraction h key).map fun f => sel * clamp 0 1 f

/-- `acorn_estimate_selectivity`. -/
def estimateSelectivity (h : Histogram) (keys : List ScanKey) : Option R :=
  (keys.foldlM (multiplyKey h) 1).map fun sel =>
    if sel < 1 / 1000000 then 1 / 1000000 else sel

end

/-- `ACORN_AUTOEF_EF_MIN`. -/
def autoEfMin : Nat := 100

/-- `ACORN_AUTOEF_EF_MAX`. -/
def autoEfMax : Nat := 4000

/-- `ACORN_AUTOEF_EF_PER_SEL`. -/
def autoEfPerSel : Nat := 4000

attribute [local instance] Library.atLeastTwo_two

/-- The recall factor of `acorn_auto_ef`, with `ACORN_AUTOEF_RECALL_ANCHOR`,
`ACORN_AUTOEF_RF_MIN` and `ACORN_AUTOEF_RF_MAX`. -/
noncomputable def recallFactor (targetRecall : ℝ) : ℝ :=
  clamp (1 / 2) 4 √((1 - 95 / 100) / (1 - targetRecall))

/-- `acorn_auto_ef`, over exact reals. -/
noncomputable def autoEf (sel targetRecall : ℝ) : Nat :=
  ⌊clamp (autoEfMin : ℝ) (autoEfMax : ℝ)
    (max (autoEfMin : ℝ) ((autoEfPerSel : ℝ) * sel) * recallFactor targetRecall) + 1 / 2⌋₊

/-- The budget that `acorn_t2_stream_begin` gives a scan; `none` is a failed read. -/
noncomputable def streamEf (targetRecall : ℝ) (h : Histogram) (keys : List ScanKey)
    (efSearch : Nat) : Option Nat :=
  if 0 < targetRecall ∧ 0 < h.nbounds ∧ keys ≠ [] then
    (estimateSelectivity h keys).map fun sel => autoEf sel targetRecall
  else some efSearch

/-! ### Monotone steps -/

section
variable {R : Type} [LinearOrder R]

theorem clamp_eq {lo hi : R} (x : R) : clamp lo hi x = min (max lo x) hi := by
  unfold clamp
  dsimp only
  rcases lt_or_ge x lo with h | h
  · rw [if_pos h, max_eq_left h.le]
    split
    · rename_i hgt
      exact (min_eq_right hgt.le).symm
    · rename_i hle
      exact (min_eq_left (not_lt.mp hle)).symm
  · rw [if_neg h.not_gt, max_eq_right h]
    split
    · rename_i hgt
      exact (min_eq_right hgt.le).symm
    · rename_i hle
      exact (min_eq_left (not_lt.mp hle)).symm

theorem clamp_mono {lo hi x y : R} (h : x ≤ y) : clamp lo hi x ≤ clamp lo hi y := by
  rw [clamp_eq, clamp_eq]
  exact min_le_min_right hi (max_le_max_left lo h)

theorem clamp_range {lo hi : R} (h : lo ≤ hi) (x : R) : lo ≤ clamp lo hi x ∧ clamp lo hi x ≤ hi := by
  rw [clamp_eq]
  exact ⟨le_min (le_max_left _ _) h, min_le_right _ _⟩

theorem clamp_of_mem {lo hi x : R} (hlo : lo ≤ x) (hhi : x ≤ hi) : clamp lo hi x = x := by
  rw [clamp_eq, max_eq_right hlo, min_eq_left hhi]

end

/-- A nearer target asks for no less. -/
theorem recallFactor_mono {t t' : ℝ} (h : t ≤ t') (h1 : t' < 1) :
    recallFactor t ≤ recallFactor t' := by
  refine clamp_mono (Real.sqrt_le_sqrt ?_)
  exact div_le_div_of_nonneg_left (by norm_num) (by linarith) (by linarith)

theorem recallFactor_pos (t : ℝ) : 0 < recallFactor t :=
  (by norm_num : (0 : ℝ) < 1 / 2).trans_le (clamp_range (by norm_num) _).1

theorem autoEf_mono_sel {s s' : ℝ} (h : s ≤ s') (t : ℝ) : autoEf s t ≤ autoEf s' t := by
  refine Nat.floor_le_floor (add_le_add_left (clamp_mono ?_) _)
  refine mul_le_mul_of_nonneg_right (max_le_max_left _ ?_) (recallFactor_pos t).le
  exact mul_le_mul_of_nonneg_left h (Nat.cast_nonneg _)

theorem autoEf_mono_recall (s : ℝ) {t t' : ℝ} (h : t ≤ t') (h1 : t' < 1) :
    autoEf s t ≤ autoEf s t' := by
  refine Nat.floor_le_floor (add_le_add_left (clamp_mono ?_) _)
  refine mul_le_mul_of_nonneg_left (recallFactor_mono h h1) ?_
  exact (Nat.cast_nonneg _).trans (le_max_left _ _)

theorem autoEf_range (s t : ℝ) : autoEfMin ≤ autoEf s t ∧ autoEf s t ≤ autoEfMax := by
  have hle : (autoEfMin : ℝ) ≤ (autoEfMax : ℝ) := by
    exact_mod_cast (by decide : autoEfMin ≤ autoEfMax)
  have hrange := clamp_range hle
    (max (autoEfMin : ℝ) ((autoEfPerSel : ℝ) * s) * recallFactor t)
  constructor
  · refine Nat.le_floor ?_
    linarith [hrange.1]
  · refine Nat.le_of_lt_succ ((Nat.floor_lt' (Nat.succ_ne_zero _)).mpr ?_)
    push_cast
    linarith [hrange.2]

/-! ### One key among others -/

section
variable {R : Type} [Field R] [LinearOrder R] [IsStrictOrderedRing R] {h : Histogram}

/-- Every key has a fraction. -/
theorem keyFraction_some (hne : 0 < h.nbounds) (key : ScanKey) :
    ∃ f : R, keyFraction h key = some f := by
  obtain ⟨f, hf, -⟩ := histFracLt_band (R := R) hne (datumGetInt32 key.skArgument).toInt
  obtain ⟨f', hf', -⟩ := histFracLt_band (R := R) hne ((datumGetInt32 key.skArgument).toInt + 1)
  unfold keyFraction
  cases key.skFunc.strategy with
  | less => exact ⟨f, hf⟩
  | lessEqual => exact ⟨f', hf'⟩
  | greaterEqual => exact ⟨1 - f, by simp [hf]⟩
  | greater => exact ⟨1 - f', by simp [hf']⟩
  | equal =>
    have hdistinct : (0 : R) < (h.ndistinct : R) :=
      Nat.cast_pos.mpr (h.distinct (List.ne_nil_of_length_pos hne))
    exact ⟨_, divide_of_pos hdistinct⟩

/-- Keys multiply the selectivity by a factor of their own. -/
theorem foldlM_multiplyKey (hne : 0 < h.nbounds) (keys : List ScanKey) :
    ∃ p : R, 0 ≤ p ∧ ∀ sel, keys.foldlM (multiplyKey h) sel = some (sel * p) := by
  induction keys with
  | nil => exact ⟨1, zero_le_one, fun sel => by simp⟩
  | cons key keys ih =>
    obtain ⟨f, hf⟩ := keyFraction_some (R := R) hne key
    obtain ⟨p, hp, hkeys⟩ := ih
    refine ⟨clamp 0 1 f * p, mul_nonneg (clamp_range zero_le_one f).1 hp, fun sel => ?_⟩
    rw [List.foldlM_cons, multiplyKey, hf]
    simp only [Option.map_some, Option.bind_eq_bind, Option.bind_some, hkeys, mul_assoc]

/-- The estimate follows the fraction of any one key. -/
theorem estimateSelectivity_key (hne : 0 < h.nbounds) (pre post : List ScanKey) :
    ∃ g : R → R, Monotone g ∧ ∀ key f, keyFraction h key = some f →
      estimateSelectivity h (pre ++ key :: post) = some (g f) := by
  obtain ⟨p, hp, hpre⟩ := foldlM_multiplyKey (R := R) hne pre
  obtain ⟨q, hq, hpost⟩ := foldlM_multiplyKey (R := R) hne post
  refine ⟨fun f => max (1 / 1000000) (p * clamp 0 1 f * q), fun f f' hf => ?_, fun key f hf => ?_⟩
  · refine max_le_max_left _ (mul_le_mul_of_nonneg_right ?_ hq)
    exact mul_le_mul_of_nonneg_left (clamp_mono hf) hp
  · unfold estimateSelectivity
    simp only [List.foldlM_append, List.foldlM_cons, hpre, one_mul, Option.bind_eq_bind,
      Option.bind_some, multiplyKey, hf, Option.map_some, hpost]
    rcases lt_or_ge (p * clamp 0 1 f * q) (1 / 1000000) with hlt | hge
    · rw [if_pos hlt, max_eq_left hlt.le]
    · rw [if_neg hge.not_gt, max_eq_right hge]

end

/-! ### The law -/

/-- A key `x op c`, with the constant as a datum of a type. -/
def filterKey (s : Strategy) (t : ArgType) (d : Datum) : ScanKey := ⟨false, ⟨s, t⟩, d⟩

/-- The budgets for `x op c` and `x op c'`, where `c` is at most `c'`, in the order of
what the filters admit. -/
def budgetOrder : Strategy → Nat → Nat → Prop
  | .less, ef, ef' | .lessEqual, ef, ef' => ef ≤ ef'
  | .greaterEqual, ef, ef' | .greater, ef, ef' => ef' ≤ ef
  | .equal, _, _ => True

/-- What is expected of automatic ef at one key with either of two constants. -/
structure AutoEfRight (s : Strategy) (key key' : ScanKey) : Prop where
  ordered : ∀ (h : Histogram) (r : ℝ) (pre post : List ScanKey) (efSearch : Nat), 0 < h.nbounds →
    0 < r → r < 1 → ∃ ef ef', streamEf r h (pre ++ key :: post) efSearch = some ef ∧
      streamEf r h (pre ++ key' :: post) efSearch = some ef' ∧ budgetOrder s ef ef'
  recalls : ∀ (h : Histogram) (r r' : ℝ) (pre post : List ScanKey) (efSearch : Nat), 0 < h.nbounds →
    0 < r → r ≤ r' → r' < 1 → ∃ ef ef', streamEf r h (pre ++ key :: post) efSearch = some ef ∧
      streamEf r' h (pre ++ key :: post) efSearch = some ef' ∧ ef ≤ ef'
  range : ∀ (h : Histogram) (r : ℝ) (pre post : List ScanKey) (efSearch : Nat), 0 < h.nbounds →
    0 < r → r < 1 → ∃ ef, streamEf r h (pre ++ key :: post) efSearch = some ef ∧
      autoEfMin ≤ ef ∧ ef ≤ autoEfMax

/-- With a histogram, a target and a key the budget is automatic. -/
theorem streamEf_key {h : Histogram} (hne : 0 < h.nbounds) (pre post : List ScanKey) :
    ∃ g : ℝ → ℝ, Monotone g ∧ ∀ key f, keyFraction h key = some f → ∀ r efSearch, 0 < r →
      streamEf r h (pre ++ key :: post) efSearch = some (autoEf (g f) r) := by
  obtain ⟨g, hmono, hg⟩ := estimateSelectivity_key (R := ℝ) hne pre post
  refine ⟨g, hmono, fun key f hf r efSearch hr => ?_⟩
  rw [streamEf, if_pos ⟨hr, hne, by simp⟩, hg key f hf]
  rfl

/-- Budgets are ordered where fractions are. -/
theorem orders_of_fractions {s : Strategy} {key key' : ScanKey} {h : Histogram} {f f' : ℝ}
    (hne : 0 < h.nbounds) (hf : keyFraction h key = some f) (hf' : keyFraction h key' = some f')
    (horder : match s with
      | .less | .lessEqual => f ≤ f'
      | .greaterEqual | .greater => f' ≤ f
      | .equal => True)
    {r : ℝ} (hr : 0 < r) (pre post : List ScanKey) (efSearch : Nat) :
    ∃ ef ef', streamEf r h (pre ++ key :: post) efSearch = some ef ∧
      streamEf r h (pre ++ key' :: post) efSearch = some ef' ∧ budgetOrder s ef ef' := by
  obtain ⟨g, hmono, hg⟩ := streamEf_key hne pre post
  refine ⟨_, _, hg key f hf r efSearch hr, hg key' f' hf' r efSearch hr, ?_⟩
  cases s with
  | less | lessEqual | greaterEqual | greater => exact autoEf_mono_sel (hmono horder) r
  | equal => trivial

/-- How far a strategy moves its constant. -/
def constantShift : Strategy → Int
  | .lessEqual | .greater => 1
  | .less | .greaterEqual | .equal => 0

/-- A range key's fraction, from that below its constant. -/
theorem keyFraction_filterKey {s : Strategy} (hs : s ≠ .equal) {h : Histogram} {t : ArgType}
    {d : Datum} {f : ℝ} (hf : histFracLt h ((datumGetInt32 d).toInt + constantShift s) = some f) :
    keyFraction h (filterKey s t d) = some (match s with
      | .less | .lessEqual | .equal => f
      | .greaterEqual | .greater => 1 - f) := by
  cases s with
  | equal => exact absurd rfl hs
  | less | greaterEqual =>
    rw [constantShift, add_zero] at hf
    simp [keyFraction, filterKey, hf]
  | lessEqual | greater =>
    rw [constantShift] at hf
    simp [keyFraction, filterKey, hf]

/-- Constants in the order of their int4 readings give budgets in order. -/
theorem ordered_of_le {s : Strategy} (hs : s ≠ .equal) {t t' : ArgType} {d d' : Datum}
    (hd : (datumGetInt32 d).toInt ≤ (datumGetInt32 d').toInt) {h : Histogram}
    (hne : 0 < h.nbounds) {r : ℝ} (hr : 0 < r) (pre post : List ScanKey) (efSearch : Nat) :
    ∃ ef ef', streamEf r h (pre ++ filterKey s t d :: post) efSearch = some ef ∧
      streamEf r h (pre ++ filterKey s t' d' :: post) efSearch = some ef' ∧
        budgetOrder s ef ef' := by
  obtain ⟨f, hf, hband⟩ := histFracLt_band (R := ℝ) hne ((datumGetInt32 d).toInt + constantShift s)
  obtain ⟨f', hf', hband'⟩ :=
    histFracLt_band (R := ℝ) hne ((datumGetInt32 d').toInt + constantShift s)
  have hle : f ≤ f' := hband.mono hband' (by omega)
  refine orders_of_fractions hne (keyFraction_filterKey hs hf) (keyFraction_filterKey hs hf') ?_ hr
    pre post efSearch
  cases s with
  | less | lessEqual => exact hle
  | greaterEqual | greater => exact sub_le_sub_left hle 1
  | equal => trivial

/-! ### Constants that wrap around -/

/-- The histogram of a single value. -/
def oneValue (v : BitVec 32) : Histogram := .ofSample [v] 1

theorem bounds_oneValue (v : BitVec 32) : (oneValue v).bounds = [v.toInt] := by
  show equiDepth (sorted [v.toInt]) = [v.toInt]
  rw [sorted, List.mergeSort_singleton]
  rfl

theorem nbounds_oneValue (v : BitVec 32) : (oneValue v).nbounds = 1 := by
  rw [Histogram.nbounds, bounds_oneValue]
  rfl

theorem histFracLt_oneValue (v : BitVec 32) (c : Int) :
    histFracLt (oneValue v) c = some (if c > v.toInt then (1 : ℝ) else 0) := by
  unfold histFracLt
  simp [nbounds_oneValue, bounds_oneValue]

theorem recallFactor_anchor : recallFactor (95 / 100) = 1 := by
  unfold recallFactor
  rw [show ((1 : ℝ) - 95 / 100) / (1 - 95 / 100) = 1 by norm_num, Real.sqrt_one]
  exact clamp_of_mem (by norm_num) (by norm_num)

theorem autoEf_one : autoEf 1 (95 / 100) = 4000 := by
  unfold autoEf
  rw [recallFactor_anchor, max_eq_right (by norm_num [autoEfMin, autoEfPerSel]),
    clamp_of_mem (by norm_num [autoEfMin, autoEfPerSel]) (by norm_num [autoEfMax, autoEfPerSel])]
  rw [Nat.floor_eq_iff (by norm_num [autoEfPerSel])]
  norm_num [autoEfPerSel]

theorem autoEf_least : autoEf (1 / 1000000) (95 / 100) = 100 := by
  unfold autoEf
  rw [recallFactor_anchor, max_eq_left (by norm_num [autoEfMin, autoEfPerSel]), mul_one,
    clamp_of_mem le_rfl (by norm_num [autoEfMin, autoEfMax])]
  rw [Nat.floor_eq_iff (by norm_num [autoEfMin])]
  norm_num [autoEfMin]

/-- A single key that passes everything, or nothing. -/
theorem streamEf_single {v : BitVec 32} {key : ScanKey} {f : ℝ} (efSearch : Nat)
    (hf : keyFraction (oneValue v) key = some f) :
    (f = 1 → streamEf (95 / 100) (oneValue v) [key] efSearch = some 4000) ∧
      (f = 0 → streamEf (95 / 100) (oneValue v) [key] efSearch = some 100) := by
  have hcond : (0 : ℝ) < 95 / 100 ∧ 0 < (oneValue v).nbounds ∧ [key] ≠ [] :=
    ⟨by norm_num, by rw [nbounds_oneValue]; decide, by simp⟩
  have hef : streamEf (95 / 100) (oneValue v) [key] efSearch = some (autoEf
      (if clamp 0 1 f < 1 / 1000000 then 1 / 1000000 else clamp 0 1 f) (95 / 100)) := by
    rw [streamEf, if_pos hcond, estimateSelectivity]
    simp [multiplyKey, hf]
  refine ⟨fun h1 => ?_, fun h0 => ?_⟩
  · rw [hef, h1, clamp_of_mem zero_le_one le_rfl, if_neg (by norm_num), autoEf_one]
  · rw [hef, h0, clamp_of_mem le_rfl zero_le_one, if_pos (by norm_num), autoEf_least]

/-- An int8 constant that an int4 could hold is read as what it is, and so is any int2
one, which the server widens with its sign. -/
theorem toInt_datumGetInt32 {d : Datum} :
    (IsInt4 (ArgType.int8.toInt d) → (datumGetInt32 d).toInt = ArgType.int8.toInt d) ∧
      ∀ v : BitVec 16, (datumGetInt32 (v.signExtend 64)).toInt = v.toInt := by
  constructor
  · rintro ⟨hlow, hhigh⟩
    show (d.truncate 32).toInt = d.toInt
    have hlow : -2 ^ 31 ≤ d.toInt := hlow
    have hhigh : d.toInt < 2 ^ 31 := hhigh
    rw [BitVec.toInt_eq_toNat_bmod, BitVec.toNat_setWidth]
    rw [BitVec.toInt_eq_toNat_bmod] at hlow hhigh ⊢
    have := d.isLt
    simp only [Int.bmod_def] at *
    omega
  · intro v
    have hwiden : datumGetInt32 (v.signExtend 64) = v.signExtend 32 := by
      apply BitVec.eq_of_getLsbD_eq
      intro i hi
      have h64 : i < 64 := by omega
      simp [datumGetInt32, BitVec.getElem_signExtend, hi, h64]
    rw [hwiden, BitVec.toInt_signExtend_of_le (by decide)]

/-- **Automatic ef is monotone** in the filter's constant, for a strategy other than
equality, if and only if the two constants are in the same order when they are read as
int4; and it is monotone in the target and within its range. -/
theorem autoEf_right_iff (s : Strategy) (hs : s ≠ .equal) (t t' : ArgType) (d d' : Datum) :
    AutoEfRight s (filterKey s t d) (filterKey s t' d') ↔
      (datumGetInt32 d).toInt ≤ (datumGetInt32 d').toInt := by
  constructor
  · intro h
    by_contra hlt
    rw [not_le] at hlt
    -- a histogram of one value that lies between the two readings
    have hlow := (datumGetInt32 d').le_toInt
    have hhigh := (datumGetInt32 d).toInt_lt
    have hv : (BitVec.ofInt 32 ((datumGetInt32 d').toInt + constantShift s)).toInt =
        (datumGetInt32 d').toInt + constantShift s := by
      have hshift : 0 ≤ constantShift s ∧ constantShift s ≤ 1 := by
        cases s <;> simp [constantShift]
      rw [BitVec.toInt_ofInt, Int.bmod_eq_of_le] <;> simp at hlow hhigh ⊢ <;> omega
    generalize hvdef : BitVec.ofInt 32 ((datumGetInt32 d').toInt + constantShift s) = v at hv
    have hbelow : histFracLt (oneValue v) ((datumGetInt32 d').toInt + constantShift s) =
        some (0 : ℝ) := by
      rw [histFracLt_oneValue, if_neg (by omega)]
    have habove : histFracLt (oneValue v) ((datumGetInt32 d).toInt + constantShift s) =
        some (1 : ℝ) := by
      rw [histFracLt_oneValue, if_pos (by omega)]
    obtain ⟨ef, ef', hef, hef', hord⟩ := h.ordered (oneValue v) (95 / 100) [] [] 0
      (by rw [nbounds_oneValue]; decide) (by norm_num) (by norm_num)
    have hkey := streamEf_single 0 (keyFraction_filterKey (t := t) hs habove)
    have hkey' := streamEf_single 0 (keyFraction_filterKey (t := t') hs hbelow)
    rw [List.nil_append] at hef hef'
    cases s with
    | equal => exact hs rfl
    | less | lessEqual =>
      rw [hkey.1 rfl] at hef
      rw [hkey'.2 rfl] at hef'
      obtain rfl := Option.some.inj hef
      obtain rfl := Option.some.inj hef'
      exact absurd (show 4000 ≤ 100 from hord) (by decide)
    | greaterEqual | greater =>
      rw [hkey.2 (sub_self 1)] at hef
      rw [hkey'.1 (sub_zero 1)] at hef'
      obtain rfl := Option.some.inj hef
      obtain rfl := Option.some.inj hef'
      exact absurd (show 4000 ≤ 100 from hord) (by decide)
  · intro hd
    refine ⟨fun h r pre post efSearch hne hr _ => ordered_of_le hs hd hne hr pre post efSearch,
      fun h r r' pre post efSearch hne hr hrr' hr' => ?_, fun h r pre post efSearch hne hr _ => ?_⟩
    · obtain ⟨g, -, hg⟩ := streamEf_key hne pre post
      obtain ⟨f, hf⟩ := keyFraction_some (R := ℝ) hne (filterKey s t d)
      exact ⟨_, _, hg _ f hf r efSearch hr, hg _ f hf r' efSearch (hr.trans_le hrr'),
        autoEf_mono_recall _ hrr' hr'⟩
    · obtain ⟨g, -, hg⟩ := streamEf_key hne pre post
      obtain ⟨f, hf⟩ := keyFraction_some (R := ℝ) hne (filterKey s t d)
      exact ⟨_, hg _ f hf r efSearch hr, autoEf_range _ _⟩

theorem autoEf_right_iff_small :
    AutoEfRight .less (filterKey .less .int4 5) (filterKey .less .int8 9) :=
  (autoEf_right_iff .less (by decide) .int4 .int8 5 9).mpr (by decide)

/-- The filter `x < 6` gets a larger budget than `x < 4294967296`. -/
theorem wrapped_constant : ArgType.int4.toInt 6 ≤ ArgType.int8.toInt 4294967296 ∧
    streamEf (95 / 100) (oneValue 5) [filterKey .less .int4 6] 40 = some 4000 ∧
    streamEf (95 / 100) (oneValue 5) [filterKey .less .int8 4294967296] 40 = some 100 ∧
    ¬ AutoEfRight .less (filterKey .less .int4 6) (filterKey .less .int8 4294967296) := by
  have hsix : histFracLt (oneValue 5) ((datumGetInt32 6).toInt + constantShift .less) =
      some (1 : ℝ) := by
    rw [histFracLt_oneValue, if_pos (by decide)]
  have hwrapped : histFracLt (oneValue 5)
      ((datumGetInt32 4294967296).toInt + constantShift .less) = some (0 : ℝ) := by
    rw [histFracLt_oneValue, if_neg (by decide)]
  have hef := fun n => (streamEf_single n (keyFraction_filterKey (t := .int4) (s := .less)
    (by decide) hsix)).1 rfl
  have hef' := fun n => (streamEf_single n (keyFraction_filterKey (t := .int8) (s := .less)
    (by decide) hwrapped)).2 rfl
  refine ⟨by decide, hef 40, hef' 40, fun h => ?_⟩
  obtain ⟨ef, ef', h₁, h₂, hord⟩ := h.ordered (oneValue 5) (95 / 100) [] [] 40
    (by rw [nbounds_oneValue]; decide) (by norm_num) (by norm_num)
  obtain rfl := Option.some.inj ((hef 40).symm.trans h₁)
  obtain rfl := Option.some.inj ((hef' 40).symm.trans h₂)
  exact absurd (show 4000 ≤ 100 from hord) (by decide)

end PgAcorn.Selectivity
