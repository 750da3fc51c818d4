import Mathlib.Data.BitVec
import Mathlib.Data.List.Basic

/-! Predicate evaluation inside the scan, against what the query means in SQL.

An element tuple carries one by-value filter column as a 64-bit `filter_val`;
the scan evaluates the query's scan keys against it and reports `xs_recheck =
false`, so this answer is final. `evalFilter` is the scan's evaluation, with its
two paths (a direct int4 comparison, and a call of the operator's own procedure),
`buildCallbackFilterVal` and `insertFilterVal` are the two writers of the stored
value, and `sqlConjunction` is the three-valued conjunction of the quals.

The two agree on every row and every key list as long as no NULL is involved.
A NULL column value is stored as `0` and a NULL argument is compared as whatever
its datum holds, so with NULLs they agree only where some qual rejects anyway
(`evalFilter_agrees_iff`). -/
namespace PgAcorn.Filter

/-! ### Datums -/

/-- A `Datum` is one 64-bit word; by-value types are widened into it. -/
abbrev Datum := BitVec 64

def int32GetDatum (v : BitVec 32) : Datum := v.signExtend 64

def datumGetInt16 (d : Datum) : BitVec 16 := d.truncate 16

def datumGetInt32 (d : Datum) : BitVec 32 := d.truncate 32

def datumGetInt64 (d : Datum) : BitVec 64 := d

/-- An int4 datum reads back as the int4 it was made from. -/
@[simp] theorem datumGetInt32_int32GetDatum (v : BitVec 32) :
    datumGetInt32 (int32GetDatum v) = v := by
  apply BitVec.eq_of_getLsbD_eq
  intro i hi
  simp [datumGetInt32, int32GetDatum, BitVec.getLsbD_signExtend, hi]
  omega

/-! ### Operators and scan keys -/

/-- The btree strategies of the filter column's operator class, in their order. -/
inductive Strategy
  | less | lessEqual | equal | greaterEqual | greater
  deriving DecidableEq, Repr

/-- The right-hand types the int4 operator family admits. -/
inductive ArgType
  | int2 | int4 | int8
  deriving DecidableEq, Repr

/-- The procedure behind an operator: `int4lt`, `int42le`, `int48gt`, … -/
structure OperatorProc where
  strategy : Strategy
  argType : ArgType
  deriving DecidableEq, Repr

/-- A strategy as a relation on integers. -/
def Strategy.holds : Strategy → Int → Int → Bool
  | less, a, b => decide (a < b)
  | lessEqual, a, b => decide (a ≤ b)
  | equal, a, b => decide (a = b)
  | greaterEqual, a, b => decide (b ≤ a)
  | greater, a, b => decide (b < a)

/-- A strategy as a C comparison of two signed words of one width. -/
def Strategy.compare {w : Nat} : Strategy → BitVec w → BitVec w → Bool
  | less, a, b => a.slt b
  | lessEqual, a, b => a.sle b
  | equal, a, b => a == b
  | greaterEqual, a, b => b.sle a
  | greater, a, b => b.slt a

/-- Signed comparison of words is comparison of their integers. -/
theorem Strategy.compare_eq_holds {w : Nat} (s : Strategy) (a b : BitVec w) :
    s.compare a b = s.holds a.toInt b.toInt := by
  cases s with
  | less => exact BitVec.slt_eq_decide
  | lessEqual => exact BitVec.sle_eq_decide
  | equal => exact decide_eq_decide.mpr BitVec.toInt_inj.symm
  | greaterEqual => exact BitVec.sle_eq_decide
  | greater => exact BitVec.slt_eq_decide

/-- The integer a datum denotes at a right-hand type. -/
def ArgType.toInt : ArgType → Datum → Int
  | int2, d => (datumGetInt16 d).toInt
  | int4, d => (datumGetInt32 d).toInt
  | int8, d => (datumGetInt64 d).toInt

/-- The server's function manager, as far as the scan uses it: a call of an int4
operator procedure compares its int4 argument with the right-hand one. -/
structure Fmgr where
  functionCall2Coll : OperatorProc → Datum → Datum → Bool
  spec : ∀ (p : OperatorProc) (a b : Datum),
    functionCall2Coll p a b = p.strategy.holds (datumGetInt32 a).toInt (p.argType.toInt b)

/-- The built-in procedures: C comparisons after the usual integer promotions. -/
def Fmgr.builtin : Fmgr where
  functionCall2Coll p a b :=
    match p.argType with
    | .int2 => p.strategy.compare (datumGetInt32 a) ((datumGetInt16 b).signExtend 32)
    | .int4 => p.strategy.compare (datumGetInt32 a) (datumGetInt32 b)
    | .int8 => p.strategy.compare ((datumGetInt32 a).signExtend 64) (datumGetInt64 b)
  spec p a b := by
    obtain ⟨s, t⟩ := p
    cases t <;> simp [Strategy.compare_eq_holds, ArgType.toInt, BitVec.toInt_signExtend_of_le]

/-- What the evaluation reads of a `ScanKeyData`. -/
structure ScanKey where
  /-- `SK_ISNULL` of `sk_flags`. -/
  skIsNull : Bool
  skFunc : OperatorProc
  skArgument : Datum
  deriving DecidableEq, Repr

/-! ### The evaluation -/

/-- The fast path's `switch` on `fn_oid`: a known int4 procedure is compared in
C, any other one is left to the function manager. -/
def directCompare (key : ScanKey) (storedVal : Datum) : Option Bool :=
  match key.skFunc.argType with
  | .int4 =>
    some (key.skFunc.strategy.compare (datumGetInt32 storedVal) (datumGetInt32 key.skArgument))
  | _ => none

/-- `acorn_t2_eval_filter`: all keys against the stored value; `sk_flags` is not
consulted. -/
def evalFilter (fmgr : Fmgr) (scanDirectFilter : Bool) (keys : List ScanKey)
    (storedVal : Datum) : Bool :=
  match keys with
  | [] => true
  | key :: rest =>
    match (if scanDirectFilter then directCompare key storedVal else none) with
    | some ok => if !ok then false else evalFilter fmgr scanDirectFilter rest storedVal
    | none =>
      if !fmgr.functionCall2Coll key.skFunc storedVal key.skArgument then false
      else evalFilter fmgr scanDirectFilter rest storedVal

/-- One qual on the stored value, as both paths evaluate it. -/
def ScanKey.accepts (key : ScanKey) (storedVal : Datum) : Bool :=
  key.skFunc.strategy.holds (datumGetInt32 storedVal).toInt
    (key.skFunc.argType.toInt key.skArgument)

theorem directCompare_eq {key : ScanKey} {storedVal : Datum} {ok : Bool}
    (h : directCompare key storedVal = some ok) : ok = key.accepts storedVal := by
  obtain ⟨n, ⟨s, t⟩, d⟩ := key
  cases t with
  | int2 => cases h
  | int4 =>
    obtain rfl := Option.some.inj h
    exact s.compare_eq_holds _ _
  | int8 => cases h

/-- Both paths evaluate every key, and each key to `ScanKey.accepts`. -/
theorem evalFilter_eq_all (fmgr : Fmgr) (direct : Bool) (keys : List ScanKey)
    (storedVal : Datum) :
    evalFilter fmgr direct keys storedVal = keys.all (·.accepts storedVal) := by
  induction keys with
  | nil => rfl
  | cons key rest ih =>
    rw [evalFilter, List.all_cons, ih]
    split
    · rename_i ok hok
      have hdirect : directCompare key storedVal = some ok := by
        cases direct <;> simp_all
      rw [← directCompare_eq hdirect]
      cases ok <;> simp
    · rw [fmgr.spec, ← ScanKey.accepts]
      cases key.accepts storedVal <;> simp

/-- The direct path changes nothing. -/
theorem evalFilter_direct (fmgr : Fmgr) (direct direct' : Bool) (keys : List ScanKey)
    (storedVal : Datum) :
    evalFilter fmgr direct keys storedVal = evalFilter fmgr direct' keys storedVal := by
  rw [evalFilter_eq_all, evalFilter_eq_all]

/-! ### The stored value -/

/-- A row's filter column as the server hands it over: `values[1]` and
`isnull[1]`. For a NULL column the datum is unspecified. -/
structure Column where
  value : Datum
  isnull : Bool
  deriving DecidableEq, Repr

/-- The int4 (or NULL) a column holds, with `unset` as the datum of a NULL. -/
def Column.ofInt4 (v : Option (BitVec 32)) (unset : Datum) : Column :=
  match v with
  | some v => ⟨int32GetDatum v, false⟩
  | none => ⟨unset, true⟩

/-- `filter_val` as `acorn_build_callback` computes it. -/
def buildCallbackFilterVal (hasFilter : Bool) (c : Column) : Datum :=
  if hasFilter && !c.isnull then c.value else 0

/-- `filter_val` as `acorn_insert` computes it. -/
def insertFilterVal (numIndexAttrs : Nat) (c : Column) : Datum :=
  if decide (numIndexAttrs > 1) && !c.isnull then c.value else 0

/-- The two ways a row enters a two-column index. -/
inductive Writer
  | buildCallback | insert
  deriving DecidableEq, Repr

/-- What a writer stores for a row of a (vector, int4) index. -/
def Writer.filterVal (w : Writer) (v : Option (BitVec 32)) (unset : Datum) : Datum :=
  match w with
  | buildCallback => buildCallbackFilterVal true (Column.ofInt4 v unset)
  | insert => insertFilterVal 2 (Column.ofInt4 v unset)

/-- Either writer stores a NULL as zero. -/
theorem Writer.datumGetInt32_filterVal (w : Writer) (v : Option (BitVec 32)) (unset : Datum) :
    datumGetInt32 (w.filterVal v unset) = v.getD 0 := by
  cases v with
  | none => cases w <;> rfl
  | some v => cases w <;> exact datumGetInt32_int32GetDatum v

/-! ### The quals in SQL -/

/-- The SQL value of a key's argument; `none` is NULL. -/
def ScanKey.argument (key : ScanKey) : Option Int :=
  if key.skIsNull then none else some (key.skFunc.argType.toInt key.skArgument)

/-- One qual in three-valued logic: NULL if either side is. -/
def sqlQual (key : ScanKey) (v : Option (BitVec 32)) : Option Bool :=
  match v, key.argument with
  | some v, some a => some (key.skFunc.strategy.holds v.toInt a)
  | _, _ => none

/-- SQL `AND`: false dominates, then NULL. -/
def sqlAnd : Option Bool → Option Bool → Option Bool
  | some false, _ => some false
  | _, some false => some false
  | some true, some true => some true
  | _, _ => none

/-- The conjunction of the quals for a row. -/
def sqlConjunction (keys : List ScanKey) (v : Option (BitVec 32)) : Option Bool :=
  keys.foldr (fun key acc => sqlAnd (sqlQual key v) acc) (some true)

theorem sqlAnd_eq_true (a b : Option Bool) :
    sqlAnd a b = some true ↔ a = some true ∧ b = some true := by
  rcases a with _ | _ | _ <;> rcases b with _ | _ | _ <;> simp [sqlAnd]

/-- A conjunction is true exactly when every qual is. -/
theorem sqlConjunction_eq_true (keys : List ScanKey) (v : Option (BitVec 32)) :
    sqlConjunction keys v = some true ↔ ∀ key ∈ keys, sqlQual key v = some true := by
  induction keys with
  | nil => simp [sqlConjunction]
  | cons key rest ih =>
    rw [List.forall_mem_cons, ← ih]
    exact sqlAnd_eq_true _ _

/-! ### Agreement -/

/-- The evaluation of a row's stored value answers as SQL does. -/
def AgreesWithSql (fmgr : Fmgr) (direct : Bool) (w : Writer) (keys : List ScanKey)
    (v : Option (BitVec 32)) (unset : Datum) : Prop :=
  evalFilter fmgr direct keys (w.filterVal v unset) = true ↔ sqlConjunction keys v = some true

/-- No NULL on either side, or NULLs that decide nothing: there is no qual, or
some qual already rejects when the column reads as zero and the argument as its
datum. -/
def NullsHarmless (keys : List ScanKey) (v : Option (BitVec 32)) : Prop :=
  (v ≠ none ∧ ∀ key ∈ keys, key.skIsNull = false) ∨ keys = [] ∨
    ∃ key ∈ keys, key.skFunc.strategy.holds (v.getD 0).toInt
      (key.skFunc.argType.toInt key.skArgument) = false

theorem ScanKey.accepts_filterVal (key : ScanKey) (w : Writer) (v : Option (BitVec 32))
    (unset : Datum) :
    key.accepts (w.filterVal v unset) =
      key.skFunc.strategy.holds (v.getD 0).toInt (key.skFunc.argType.toInt key.skArgument) := by
  rw [ScanKey.accepts, Writer.datumGetInt32_filterVal]

/-- Without NULLs a qual is accepted exactly when it is true. -/
theorem sqlQual_eq_accepts {key : ScanKey} {v : Option (BitVec 32)} (hv : v ≠ none)
    (hkey : key.skIsNull = false) (w : Writer) (unset : Datum) :
    sqlQual key v = some true ↔ key.accepts (w.filterVal v unset) = true := by
  obtain ⟨v, rfl⟩ := Option.ne_none_iff_exists'.mp hv
  rw [ScanKey.accepts_filterVal]
  simp [sqlQual, ScanKey.argument, hkey]

/-- A true qual involves no NULL. -/
theorem not_null_of_sqlQual {key : ScanKey} {v : Option (BitVec 32)}
    (h : sqlQual key v = some true) : v ≠ none ∧ key.skIsNull = false := by
  cases v with
  | none => simp [sqlQual] at h
  | some v =>
    refine ⟨by simp, ?_⟩
    by_contra hn
    simp [sqlQual, ScanKey.argument, hn] at h

/-- **The scan's answer is SQL's exactly when the NULLs are harmless**, whichever
writer stored the row and whichever path evaluates the keys. -/
theorem evalFilter_agrees_iff (fmgr : Fmgr) (direct : Bool) (w : Writer) (keys : List ScanKey)
    (v : Option (BitVec 32)) (unset : Datum) :
    AgreesWithSql fmgr direct w keys v unset ↔ NullsHarmless keys v := by
  rw [AgreesWithSql, evalFilter_eq_all, List.all_eq_true, sqlConjunction_eq_true]
  constructor
  · intro hagree
    by_cases hall : ∀ key ∈ keys, key.accepts (w.filterVal v unset) = true
    · have hsql := hagree.mp hall
      cases keys with
      | nil => exact .inr (.inl rfl)
      | cons key rest =>
        have hv := (not_null_of_sqlQual (hsql key (by simp))).1
        exact .inl ⟨hv, fun k hk => (not_null_of_sqlQual (hsql k hk)).2⟩
    · push Not at hall
      obtain ⟨key, hkey, hrejects⟩ := hall
      refine .inr (.inr ⟨key, hkey, ?_⟩)
      rw [← key.accepts_filterVal w v unset]
      simpa using hrejects
  · rintro (⟨hv, hkeys⟩ | rfl | ⟨key, hkey, hrejects⟩)
    · exact forall₂_congr fun key hkey => (sqlQual_eq_accepts hv (hkeys key hkey) w unset).symm
    · simp
    · rw [← key.accepts_filterVal w v unset] at hrejects
      refine iff_of_false (fun hall => ?_) (fun hsql => ?_)
      · rw [hall key hkey] at hrejects
        cases hrejects
      · have hnn := not_null_of_sqlQual (hsql key hkey)
        have := (sqlQual_eq_accepts hnn.1 hnn.2 w unset).mp (hsql key hkey)
        rw [this] at hrejects
        cases hrejects

/-- A row whose filter column is NULL passes `col < 5`. -/
theorem null_row_passes :
    ¬ AgreesWithSql Fmgr.builtin true .buildCallback
      [⟨false, ⟨.less, .int4⟩, 5⟩] none 0 := by
  unfold AgreesWithSql
  decide

end PgAcorn.Filter
