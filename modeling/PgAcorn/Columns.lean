import PgAcorn.Filter
import Mathlib.Data.List.TakeWhile
import Mathlib.Tactic.Common

/-! Index quals of an index with any number of scalar columns.

An index may have several scalar columns, of type int4 or text, and the planner may
pass quals on any of them. An element keeps one word: the datum of the first scalar
column, for a text the address it had when the row was written. The evaluation
compares that word with the argument of every qual, whatever column the qual is on.
`evalQuals_right_iff` says for which quals it is right on every row: those on a
first column of type int4, with others that exclude nothing, or quals no row and no
word passes. -/
namespace PgAcorn.Columns
open PgAcorn.Filter

/-! ### Rows and quals -/

/-- The types with a scalar operator class: `int4_acorn_ops` and `text_acorn_ops`. -/
inductive ScalarType
  | int4 | text
  deriving DecidableEq

/-- A value of a scalar column; a text is handed over by its address. -/
inductive ScalarValue
  | int4 (v : BitVec 32)
  | text (s : String) (address : Datum)

def ScalarValue.type : ScalarValue → ScalarType
  | .int4 _ => .int4
  | .text _ _ => .text

/-- The datum in `values`. -/
def ScalarValue.datum : ScalarValue → Datum
  | .int4 v => int32GetDatum v
  | .text _ address => address

/-- A qual on a scalar column, counted from zero; a text argument that is `none` is
NULL. -/
inductive Qual
  | int4 (attno : Nat) (key : ScanKey)
  | text (attno : Nat) (strategy : Strategy) (argument : Option String)

def Qual.isInt4 : Qual → Bool
  | .int4 _ _ => true
  | .text _ _ _ => false

/-- A qual belongs to its column's operator family. -/
def Qual.Fits (types : List ScalarType) : Qual → Prop
  | .int4 attno _ => types[attno]? = some .int4
  | .text attno _ _ => types[attno]? = some .text

/-- The server: its int4 procedures, and its text procedures on two texts. -/
structure Server where
  fmgr : Fmgr
  textOp : Strategy → String → String → Bool

/-! ### What the index does -/

/-- `values[1]` and `isnull[1]` of a row without NULLs, if there is such a column. -/
def firstColumn : List ScalarValue → Column
  | [] => ⟨0, true⟩
  | v :: _ => ⟨v.datum, false⟩

/-- The word an element keeps of a row: `acorn_build_callback` with `has_filter`, or
`acorn_insert`. -/
def storedVal (w : Writer) (row : List ScalarValue) : Datum :=
  match w with
  | .buildCallback => buildCallbackFilterVal (decide (row.length + 1 > 1)) (firstColumn row)
  | .insert => insertFilterVal (row.length + 1) (firstColumn row)

/-- One key of `acorn_t2_eval_filter`. A text procedure takes the word for an
address; `memory` is what is there when the scan runs, `none` if that is no text. -/
def evalKey (server : Server) (scanDirectFilter : Bool) (memory : Datum → Option String)
    (q : Qual) (stored : Datum) : Option Bool :=
  match q with
  | .int4 _ key =>
    match if scanDirectFilter then directCompare key stored else none with
    | some ok => some ok
    | none => some (server.fmgr.functionCall2Coll key.skFunc stored key.skArgument)
  | .text _ strategy argument => (memory stored).map fun s => server.textOp strategy s (argument.getD "")

/-- `acorn_t2_eval_filter`; it does not look at a key's column. `none` is a read
through an address that holds no text. -/
def evalQuals (server : Server) (scanDirectFilter : Bool) (memory : Datum → Option String) :
    List Qual → Datum → Option Bool
  | [], _ => some true
  | q :: rest, stored =>
    match evalKey server scanDirectFilter memory q stored with
    | none => none
    | some ok => if !ok then some false else evalQuals server scanDirectFilter memory rest stored

/-! ### What the quals mean -/

/-- A qual is true of a row's own column. -/
def Qual.holds (server : Server) (row : List ScalarValue) (q : Qual) : Bool :=
  match q with
  | .int4 attno key =>
    match row[attno]? with
    | some (.int4 v) => sqlQual key (some v) == some true
    | _ => false
  | .text attno strategy argument =>
    match row[attno]?, argument with
    | some (.text s _), some a => server.textOp strategy s a
    | _, _ => false

/-- A row of the index's columns. -/
def RowOf (types : List ScalarType) (row : List ScalarValue) : Prop := row.map ScalarValue.type = types

/-- The index evaluates the quals right: for every row, whoever wrote it and whatever
memory holds since. -/
def QualsRight (server : Server) (scanDirectFilter : Bool) (types : List ScalarType)
    (quals : List Qual) : Prop :=
  ∀ w row memory, RowOf types row →
    evalQuals server scanDirectFilter memory quals (storedVal w row) =
      some (quals.all (·.holds server row))

/-- Every qual has an argument and is on a first column of type int4, or on another
one and true of every int4. -/
def OnFirstColumn (quals : List Qual) : Prop :=
  ∀ q ∈ quals, ∃ attno key, q = .int4 attno key ∧ key.skIsNull = false ∧
    (attno = 0 ∨ ∀ v : BitVec 32, key.accepts (int32GetDatum v) = true)

/-- No row satisfies the quals, and no int4 those before the first one on a text. -/
def ExcludeAll (server : Server) (types : List ScalarType) (quals : List Qual) : Prop :=
  (∀ row, RowOf types row → ∃ q ∈ quals, q.holds server row = false) ∧
    ∀ v : BitVec 32, ∃ attno key, .int4 attno key ∈ quals.takeWhile Qual.isInt4 ∧
      key.accepts (int32GetDatum v) = false

/-! ### Evaluation -/

section
variable {server : Server} {direct : Bool} {memory : Datum → Option String}

theorem evalKey_int4 (attno : Nat) (key : ScanKey) (stored : Datum) :
    evalKey server direct memory (.int4 attno key) stored = some (key.accepts stored) := by
  rw [evalKey]
  split
  · rename_i ok hok
    have hdirect : directCompare key stored = some ok := by
      cases direct with
      | true => exact hok
      | false => cases hok
    rw [directCompare_eq hdirect]
  · rw [server.fmgr.spec, ← ScanKey.accepts]

/-- A key looks at the low half of the word. -/
theorem accepts_int32GetDatum (key : ScanKey) (stored : Datum) :
    key.accepts (int32GetDatum (datumGetInt32 stored)) = key.accepts stored := by
  rw [ScanKey.accepts, ScanKey.accepts, datumGetInt32_int32GetDatum]

/-- The word of a row with a first column is that column's datum. -/
theorem storedVal_cons (w : Writer) (v : ScalarValue) (row : List ScalarValue) :
    storedVal w (v :: row) = v.datum := by
  cases w <;> simp [storedVal, buildCallbackFilterVal, insertFilterVal, firstColumn]

/-- The word depends on the first column only. -/
theorem storedVal_set (w : Writer) (row : List ScalarValue) {attno : Nat} (h : attno ≠ 0)
    (v : ScalarValue) : storedVal w (row.set attno v) = storedVal w row := by
  obtain ⟨n, rfl⟩ := Nat.exists_eq_succ_of_ne_zero h
  cases row with
  | nil => rfl
  | cons a row => rw [List.set_cons_succ, storedVal_cons, storedVal_cons]

/-- An int4 qual that is true of a column is one the word of that value passes. -/
theorem holds_int4 {row : List ScalarValue} {attno : Nat} {key : ScanKey} {v : BitVec 32}
    (hrow : row[attno]? = some (.int4 v)) :
    (Qual.int4 attno key).holds server row = true ↔
      key.skIsNull = false ∧ key.accepts (int32GetDatum v) = true := by
  have haccepts : key.accepts (int32GetDatum v) =
      key.skFunc.strategy.holds v.toInt (key.skFunc.argType.toInt key.skArgument) := by
    rw [ScanKey.accepts, datumGetInt32_int32GetDatum]
  rw [haccepts, Qual.holds, hrow]
  cases hnull : key.skIsNull <;> simp [sqlQual, ScanKey.argument, hnull]

theorem row_int4 {types : List ScalarType} {row : List ScalarValue} (hrow : RowOf types row)
    {attno : Nat} (h : types[attno]? = some .int4) : ∃ v, row[attno]? = some (.int4 v) := by
  rw [← hrow, List.getElem?_map] at h
  obtain ⟨x, hx, ht⟩ := Option.map_eq_some_iff.mp h
  cases x with
  | int4 v => exact ⟨v, hx⟩
  | text s a => cases ht

/-- Where all keys are int4, the evaluation is their conjunction on the word. -/
theorem evalQuals_int4 {quals : List Qual} {stored : Datum}
    (h : ∀ q ∈ quals, ∃ attno key, q = .int4 attno key ∧ key.accepts stored = true) :
    evalQuals server direct memory quals stored = some true := by
  induction quals with
  | nil => rfl
  | cons q rest ih =>
    obtain ⟨attno, key, rfl, haccepts⟩ := h q List.mem_cons_self
    rw [evalQuals, evalKey_int4, haccepts]
    exact ih fun q hq => h q (List.mem_cons_of_mem _ hq)

/-- An int4 key that rejects the word decides, if no text key comes before it. -/
theorem evalQuals_reject {quals : List Qual} {stored : Datum} {attno : Nat} {key : ScanKey}
    (hmem : .int4 attno key ∈ quals.takeWhile Qual.isInt4) (h : key.accepts stored = false) :
    evalQuals server direct memory quals stored = some false := by
  induction quals with
  | nil => cases hmem
  | cons q rest ih =>
    cases q with
    | text _ _ _ => simp [Qual.isInt4] at hmem
    | int4 attno' key' =>
      rw [evalQuals, evalKey_int4]
      cases haccepts : key'.accepts stored with
      | false => rfl
      | true =>
        rw [List.takeWhile_cons_of_pos rfl] at hmem
        obtain heq | hmem := List.mem_cons.mp hmem
        · cases heq
          rw [h] at haccepts
          cases haccepts
        · exact ih hmem

/-- With no text at the address, an answer comes from the int4 keys before any text
key. -/
theorem evalQuals_none {quals : List Qual} {stored : Datum}
    (h : evalQuals server direct (fun _ => none) quals stored = some false) :
    ∃ attno key, .int4 attno key ∈ quals.takeWhile Qual.isInt4 ∧ key.accepts stored = false := by
  induction quals with
  | nil => cases h
  | cons q rest ih =>
    cases q with
    | text _ _ _ => cases h
    | int4 attno key =>
      rw [List.takeWhile_cons_of_pos rfl]
      rw [evalQuals, evalKey_int4] at h
      cases haccepts : key.accepts stored with
      | false => exact ⟨attno, key, List.mem_cons_self, haccepts⟩
      | true =>
        rw [haccepts] at h
        obtain ⟨attno', key', hmem, hrejects⟩ := ih h
        exact ⟨attno', key', List.mem_cons_of_mem _ hmem, hrejects⟩

/-- With no text at the address, passing means that all keys are int4 and pass. -/
theorem evalQuals_true {quals : List Qual} {stored : Datum}
    (h : evalQuals server direct (fun _ => none) quals stored = some true) :
    ∀ q ∈ quals, ∃ attno key, q = .int4 attno key ∧ key.accepts stored = true := by
  induction quals with
  | nil => exact fun q hq => absurd hq List.not_mem_nil
  | cons q rest ih =>
    cases q with
    | text _ _ _ => cases h
    | int4 attno key =>
      rw [evalQuals, evalKey_int4] at h
      cases haccepts : key.accepts stored with
      | false =>
        rw [haccepts] at h
        cases h
      | true =>
        rw [haccepts] at h
        intro q hq
        obtain rfl | hq := List.mem_cons.mp hq
        · exact ⟨attno, key, rfl, haccepts⟩
        · exact ih h q hq

/-! ### When it is right -/

variable {types : List ScalarType} {quals : List Qual}

/-- Quals on a first column of type int4 are right, beside ones that exclude nothing. -/
theorem OnFirstColumn.right (hfit : ∀ q ∈ quals, q.Fits types) (h : OnFirstColumn quals) :
    QualsRight server direct types quals := by
  intro w row memory hrow
  -- each qual is as true of its column as of the word
  have hkey : ∀ q ∈ quals, ∃ attno key, q = .int4 attno key ∧
      (key.accepts (storedVal w row) = true ↔ q.holds server row = true) := by
    intro q hq
    obtain ⟨attno, key, rfl, hnull, hcol⟩ := h q hq
    obtain ⟨v, hv⟩ := row_int4 hrow (hfit _ hq)
    refine ⟨attno, key, rfl, ?_⟩
    rw [holds_int4 hv, and_iff_right hnull]
    rcases hcol with rfl | hall
    · cases row with
      | nil => cases hv
      | cons a row =>
        obtain rfl : a = .int4 v := Option.some.inj hv
        rw [storedVal_cons]
        rfl
    · rw [hall v, ← accepts_int32GetDatum, hall]
  cases hholds : quals.all (·.holds server row) with
  | true =>
    rw [List.all_eq_true] at hholds
    refine evalQuals_int4 fun q hq => ?_
    obtain ⟨attno, key, rfl, hiff⟩ := hkey q hq
    exact ⟨attno, key, rfl, hiff.mpr (hholds _ hq)⟩
  | false =>
    obtain ⟨q, hq, hfalse⟩ := List.all_eq_false.mp hholds
    obtain ⟨attno, key, rfl, hiff⟩ := hkey q hq
    have hmem : Qual.int4 attno key ∈ quals.takeWhile Qual.isInt4 := by
      rw [List.takeWhile_eq_self_iff.mpr]
      · exact hq
      · intro q hq
        obtain ⟨_, _, rfl, -⟩ := hkey q hq
        rfl
    apply evalQuals_reject hmem
    rw [← Bool.not_eq_true, hiff]
    exact hfalse

/-- Quals that nothing passes are right. -/
theorem ExcludeAll.right (h : ExcludeAll server types quals) : QualsRight server direct types quals := by
  intro w row memory hrow
  obtain ⟨q, hq, hfalse⟩ := h.1 row hrow
  obtain ⟨attno, key, hmem, hrejects⟩ := h.2 (datumGetInt32 (storedVal w row))
  rw [accepts_int32GetDatum] at hrejects
  rw [evalQuals_reject hmem hrejects]
  refine congrArg some (List.all_eq_false.mpr ⟨q, hq, ?_⟩).symm
  simp [hfalse]

/-- A row of any columns, whose word reads as a given int4. -/
theorem exists_row (types : List ScalarType) (v : BitVec 32) (hne : types ≠ []) :
    ∃ row, RowOf types row ∧ ∀ w, storedVal w row = int32GetDatum v := by
  let value : ScalarType → ScalarValue
    | .int4 => .int4 v
    | .text => .text "" (int32GetDatum v)
  refine ⟨types.map value, ?_, fun w => ?_⟩
  · rw [RowOf, List.map_map]
    refine (List.map_congr_left fun t _ => ?_).trans (List.map_id types)
    cases t <;> rfl
  · obtain ⟨t, rest, rfl⟩ := List.exists_cons_of_ne_nil hne
    rw [List.map_cons, storedVal_cons]
    cases t <;> rfl

/-- If some row satisfies the quals they are on the first column or exclude nothing. -/
theorem QualsRight.onFirstColumn (hfit : ∀ q ∈ quals, q.Fits types)
    (h : QualsRight server direct types quals) {row : List ScalarValue} (hrow : RowOf types row)
    (hsat : ∀ q ∈ quals, q.holds server row = true) : OnFirstColumn quals := by
  have hpass : ∀ row', RowOf types row' → storedVal .insert row' = storedVal .insert row →
      ∀ q ∈ quals, q.holds server row' = true := by
    intro row' hrow' hword
    have heval := h .insert row (fun _ => none) hrow
    rw [List.all_eq_true.mpr hsat] at heval
    have heval' := h .insert row' (fun _ => none) hrow'
    rw [hword, heval] at heval'
    exact List.all_eq_true.mp (Option.some.inj heval').symm
  have heval := h .insert row (fun _ => none) hrow
  rw [List.all_eq_true.mpr hsat] at heval
  intro q hq
  obtain ⟨attno, key, rfl, -⟩ := evalQuals_true heval q hq
  obtain ⟨v, hv⟩ := row_int4 hrow (hfit _ hq)
  refine ⟨attno, key, rfl, ((holds_int4 hv).mp (hsat _ hq)).1, ?_⟩
  by_cases h0 : attno = 0
  · exact .inl h0
  · right
    intro v'
    -- another value in the qual's column leaves the word as it is
    have hset : RowOf types (row.set attno (.int4 v')) := by
      obtain ⟨hlt, htype⟩ := List.getElem?_eq_some_iff.mp (hfit _ hq)
      rw [RowOf, List.map_set, hrow]
      show types.set attno .int4 = types
      rw [← htype, List.set_getElem_self]
    have hget : (row.set attno (.int4 v'))[attno]? = some (.int4 v') := by
      rw [List.getElem?_set_self]
      exact (List.getElem?_eq_some_iff.mp hv).1
    exact ((holds_int4 hget).mp (hpass _ hset (storedVal_set _ _ h0 _) _ hq)).2

/-- **The quals are evaluated right on every row** exactly when they are on a first
column of type int4, beside others that exclude nothing, or exclude everything. -/
theorem evalQuals_right_iff (server : Server) (direct : Bool) (types : List ScalarType)
    (quals : List Qual) (hfit : ∀ q ∈ quals, q.Fits types) :
    QualsRight server direct types quals ↔ OnFirstColumn quals ∨ ExcludeAll server types quals := by
  constructor
  · intro h
    by_cases hsat : ∃ row, RowOf types row ∧ ∀ q ∈ quals, q.holds server row = true
    · obtain ⟨row, hrow, hall⟩ := hsat
      exact .inl (h.onFirstColumn hfit hrow hall)
    · have hexcludes : ∀ row, RowOf types row → ∃ q ∈ quals, q.holds server row = false := by
        intro row hrow
        by_contra hnone
        push Not at hnone
        exact hsat ⟨row, hrow, fun q hq => by simpa using hnone q hq⟩
      refine .inr ⟨hexcludes, fun v => ?_⟩
      have hne : types ≠ [] := by
        rintro rfl
        obtain ⟨q, hq, -⟩ := hexcludes [] rfl
        have := hfit q hq
        cases q <;> cases this
      obtain ⟨row, hrow, hword⟩ := exists_row types v hne
      obtain ⟨q, hq, hfalse⟩ := hexcludes row hrow
      have heval := h .insert row (fun _ => none) hrow
      rw [List.all_eq_false.mpr ⟨q, hq, by simp [hfalse]⟩, hword] at heval
      exact evalQuals_none heval
  · rintro (h | h)
    · exact h.right hfit
    · exact h.right

/-! ### Two columns -/

/-- The server's built-in procedures; texts are compared as equal or not. -/
def Server.builtin : Server := ⟨Fmgr.builtin, fun _ s t => s == t⟩

/-- `b <= 2147483647` is true of every int4. -/
theorem accepts_maximum (v : BitVec 32) :
    ScanKey.accepts ⟨false, ⟨.lessEqual, .int4⟩, 2147483647⟩ (int32GetDatum v) = true := by
  have hmax : ArgType.int4.toInt 2147483647 = 2147483647 := by decide
  rw [ScanKey.accepts, datumGetInt32_int32GetDatum, hmax]
  have hlt : v.toInt < 2147483648 := BitVec.toInt_lt
  exact decide_eq_true (by omega)

/-- `a < 5 AND b <= 2147483647` on two columns. -/
theorem evalQuals_right_two : QualsRight Server.builtin true [.int4, .int4]
    [.int4 0 ⟨false, ⟨.less, .int4⟩, 5⟩, .int4 1 ⟨false, ⟨.lessEqual, .int4⟩, 2147483647⟩] := by
  refine (evalQuals_right_iff _ _ _ _ fun q hq => ?_).mpr (.inl fun q hq => ?_)
  · obtain rfl | rfl := List.mem_pair.mp hq <;> rfl
  · obtain rfl | rfl := List.mem_pair.mp hq
    · exact ⟨0, _, rfl, rfl, .inl rfl⟩
    · exact ⟨1, _, rfl, rfl, .inr accepts_maximum⟩

/-- `b < 5` on the second of two columns passes for `(3, 9)`. -/
theorem second_column_ignored :
    ¬ QualsRight Server.builtin true [.int4, .int4] [.int4 1 ⟨false, ⟨.less, .int4⟩, 5⟩] := by
  intro h
  have := h .buildCallback [.int4 3, .int4 9] (fun _ => none) rfl
  revert this
  decide

end

end PgAcorn.Columns
