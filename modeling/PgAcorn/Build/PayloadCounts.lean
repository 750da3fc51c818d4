import PgAcorn.Build.MemInsert
import PgAcorn.Build.Spill
import PgAcorn.Library.Tally
import PgAcorn.Selectivity

/-! The counts that payload gating goes by.

Before a build `acorn_build_filter_histogram` scans the table for the values of the filter
column, and with the histogram counts the members of each partition. The index build
scans the table again; `acorn_mem_insert_node` compares the count with the threshold.

The scans do not take the same rows. The first goes by a snapshot and skips NULL filter
values. The second goes by the predicate and takes dead versions that some transaction may
still see; NULL vectors are skipped, a NULL filter value goes to partition 0. So the counts
are the numbers of elements exactly where the rows that are only counted are as many as the
rows that only get an element (`gating_exact_iff`). -/
namespace PgAcorn.Build
open Library
open PgAcorn.Filter (int32GetDatum)
open PgAcorn.Selectivity (Histogram buildFilterHistogram)

/-! ### The table -/

/-- A version of a heap row: whether the transaction's snapshot sees it, and whether an
index build takes it, as it does with a dead one that somebody may still see. -/
structure HeapRow (R : Type) where
  row : R
  tid : Tid
  visible : Bool
  indexable : Bool

/-- `IndexInfo` of an index on a vector and an int4: the values of the two columns, the
attribute number of the second, 0 for an expression, and the predicate. -/
structure IndexInfo (R V : Type) where
  value : R → Option V
  filter : R → Option (BitVec 32)
  filterAttno : Int
  predicate : Option (R → Bool)

section
variable {R V : Type} (info : IndexInfo R V)

/-- Whether the index is to have a row. -/
def IndexInfo.holds (row : R) : Bool := info.predicate.all fun holds => holds row

/-- `FormIndexDatum`. -/
def IndexInfo.formIndexDatum (h : HeapRow R) : HeapTuple V :=
  ⟨info.value h.row, (info.filter h.row).map int32GetDatum, h.tid⟩

/-- The scans of the table access method, each in an order of its own: `table_beginscan`
with the transaction's snapshot, and `table_index_build_scan`. -/
structure TableAm (R V : Type) where
  scan : List (HeapRow R) → List R
  indexBuildScan : IndexInfo R V → List (HeapRow R) → List (HeapTuple V)
  scan_perm : ∀ heap, (scan heap).Perm ((heap.filter HeapRow.visible).map HeapRow.row)
  indexBuildScan_perm : ∀ info heap, (indexBuildScan info heap).Perm
    ((heap.filter fun h => h.indexable && info.holds h.row).map info.formIndexDatum)

/-- Both scans in the order of the heap. -/
def TableAm.heap : TableAm R V where
  scan heap := (heap.filter HeapRow.visible).map HeapRow.row
  indexBuildScan info heap :=
    (heap.filter fun h => h.indexable && info.holds h.row).map info.formIndexDatum
  scan_perm _ := .refl _
  indexBuildScan_perm _ _ := .refl _

/-! ### The pre-scan -/

/-- A value of the filter column is counted. -/
def countMember (counts : Nat → BitVec 32) (v : BitVec 32) : Nat → BitVec 32 :=
  bump counts (payloadPartition (v.signExtend 64))

variable (am : TableAm R V) (draw : Nat → Nat) (heap : List (HeapRow R))

/-- `acorn_build_filter_histogram`: the histogram, and the counts if there is a column to
count. -/
def buildPreScan : Histogram × Option (Nat → BitVec 32) :=
  if info.filterAttno ≤ 0 then (.absent, none)
  else
    let values := (am.scan heap).map info.filter
    (buildFilterHistogram draw values, some ((values.filterMap id).foldl countMember fun _ => 0#32))

/-- `part_count` of `acorn_build_internal`, zero before the pre-scan. -/
def partCount : Nat → BitVec 32 := (buildPreScan info am draw heap).2.getD fun _ => 0#32

/-- The counts go to the build only with a threshold. -/
def wiredCounts (o : MemSettings) (counts : Option (Nat → BitVec 32)) : Option (Nat → BitVec 32) :=
  if 0 < o.payloadMinCard then counts else none

/-- A serial build is given the counts by `acorn_build_internal`. -/
def wireSerial (o : MemSettings) (counts : Option (Nat → BitVec 32)) : MemSettings :=
  { o with partCount := wiredCounts o counts }

/-- A participant of a parallel build reads what `acorn_begin_parallel` was given, in
`acorn_attach_shared`. -/
def attachShared (o : MemSettings) (counts : Option (Nat → BitVec 32)) : MemSettings :=
  { o with partCount := wiredCounts o (wiredCounts o counts) }

/-! ### What is counted and what is stored -/

/-- The pre-scan counts a row for a partition. -/
def IndexInfo.counted (p : Nat) (h : HeapRow R) : Bool :=
  decide (0 < info.filterAttno) && h.visible &&
    (info.filter h.row).any fun v => payloadPartition (int32GetDatum v) = p

/-- The index is to have a row, and there is a vector to have. -/
def IndexInfo.inserted (h : HeapRow R) : Bool :=
  h.indexable && info.holds h.row && (info.value h.row).isSome

/-- The build has an element in a partition for a row; NULL is stored as 0. -/
def IndexInfo.stored (p : Nat) (h : HeapRow R) : Bool :=
  info.inserted h &&
    decide (payloadPartition ((info.filter h.row).elim 0 int32GetDatum) = p)

/-- A counted row without an element: its vector is NULL or the predicate excludes it, or
the index build does not take it. -/
def IndexInfo.countedOnly (p : Nat) (h : HeapRow R) : Bool :=
  info.counted p h && !info.inserted h

/-- A row with an element that is not counted: its filter value is NULL, or the
snapshot does not see it, or the filter is an expression. -/
def IndexInfo.storedOnly (p : Nat) (h : HeapRow R) : Bool :=
  info.stored p h && !(decide (0 < info.filterAttno) && h.visible && (info.filter h.row).isSome)

/-- In each partition as many rows are only counted as only stored, up to full rounds of
the counter, and the elements are fewer than an `int` can count. -/
def IndexInfo.Balances : Prop :=
  ∀ p < 256, heap.countP (info.countedOnly p) ≡ heap.countP (info.storedOnly p) [MOD 2 ^ 32] ∧
    heap.countP (info.stored p) < 2 ^ 31

/-- The elements of a partition on disk. -/
def partitionSize {I Q : Type} (disk : Disk I V Q) (p : Nat) : Nat :=
  (diskRows disk).countP fun r => payloadPartition r.filterVal = p

/-- Partitions are told apart without the vectors. -/
theorem partitionSize_of_keys {I Q : Type} {disk : Disk I V Q} {rows : Multiset (IndexedRow V)}
    (h : (diskRows disk).map IndexedRow.key = rows.map IndexedRow.key) (p : Nat) :
    partitionSize disk p = rows.countP fun r => payloadPartition r.filterVal = p := by
  have hkey : ∀ rows : Multiset (IndexedRow V),
      rows.countP (fun r => payloadPartition r.filterVal = p) =
        (rows.map IndexedRow.key).countP fun key => payloadPartition key.2 = p := by
    intro rows
    rw [Multiset.countP_map, Multiset.countP_eq_card_filter]
    rfl
  unfold partitionSize
  rw [hkey, hkey, h]

/-- Gating goes by final numbers: each count is the number of elements of its partition, and
a partition that has any is gated if and only if they are fewer than the threshold. -/
structure GatingExact (counts : Nat → BitVec 32) (o : MemSettings) (size : Nat → Nat) : Prop where
  exact : ∀ p < 256, (counts p).toInt = size p
  gated : ∀ p < 256, 0 < size p → (o.gated p ↔ size p < o.payloadMinCard)

end

/-! ### The two passes -/

section
variable {R V : Type} {info : IndexInfo R V} {am : TableAm R V} {draw : Nat → Nat}
  {heap : List (HeapRow R)}

theorem countedOnly_eq (p : Nat) (h : HeapRow R) :
    info.countedOnly p h = (info.counted p h && !info.stored p h) := by
  unfold IndexInfo.countedOnly IndexInfo.stored IndexInfo.counted
  cases info.filter h.row with
  | none => simp
  | some v => by_cases hp : payloadPartition (int32GetDatum v) = p <;> simp [hp]

theorem storedOnly_eq (p : Nat) (h : HeapRow R) :
    info.storedOnly p h = (info.stored p h && !info.counted p h) := by
  unfold IndexInfo.storedOnly IndexInfo.stored IndexInfo.counted
  cases info.filter h.row with
  | none => simp
  | some v => by_cases hp : payloadPartition (int32GetDatum v) = p <;> simp [hp]

/-- **What the pre-scan counts**, modulo the width of its counters. -/
theorem partCount_apply (p : Nat) :
    partCount info am draw heap p = BitVec.ofNat 32 (heap.countP (info.counted p)) := by
  unfold partCount buildPreScan
  split
  · rename_i hattno
    have hnone : heap.countP (info.counted p) = 0 := by
      apply List.countP_eq_zero.mpr
      intro h _
      simp [IndexInfo.counted, hattno]
    rw [hnone]
    rfl
  · rename_i hattno
    have hkeys : ∀ values : List (BitVec 32), values.foldl countMember (fun _ => 0#32) p =
        BitVec.ofNat 32 (values.countP fun v => payloadPartition (int32GetDatum v) = p) := by
      intro values
      have hfold := foldl_bump (fun _ => 0#32)
        (values.map fun v => payloadPartition (int32GetDatum v)) p
      rw [List.foldl_map, List.countP_map, BitVec.zero_add] at hfold
      exact hfold
    dsimp only [Option.getD_some]
    rw [hkeys, List.filterMap_map, List.countP_filterMap, (am.scan_perm heap).countP_eq,
      List.countP_map, List.countP_filter]
    congr 1
    apply List.countP_congr
    intro h _
    cases hfilter : info.filter h.row with
    | none => simp [IndexInfo.counted, hfilter]
    | some v =>
      have hcolumn : 0 < info.filterAttno := by omega
      simp [IndexInfo.counted, hfilter, hcolumn, and_comm]

/-- The rows of heap tuples by partition. -/
theorem countP_tupleRows {b : SpillParams} (hfilter : b.hasFilter = true) (p : Nat)
    (ts : List (HeapTuple V)) :
    (tupleRows b ts).countP (fun r => payloadPartition r.filterVal = p) =
      (ts : Multiset (HeapTuple V)).countP fun t =>
        t.value.isSome ∧ payloadPartition (t.filter.getD 0) = p := by
  unfold tupleRows scannedRows
  rw [Multiset.coe_countP, Multiset.coe_countP, List.countP_map, List.countP_filterMap]
  apply List.countP_congr
  intro t _
  cases hvalue : t.value with
  | none => simp [buildCallback, hvalue]
  | some value =>
    simp only [buildCallback, hvalue, hfilter, Scanned.row, rowOf, Function.comp_apply,
      Option.map_some, Option.getD_some, Option.isSome_some, true_and, if_true,
      decide_eq_true_iff]
    exact decide_eq_true_iff

/-- **What the build is to have of a partition.** -/
theorem countP_indexBuildScan (am : TableAm R V) (p : Nat) :
    (am.indexBuildScan info heap : Multiset (HeapTuple V)).countP
        (fun t => t.value.isSome ∧ payloadPartition (t.filter.getD 0) = p) =
      heap.countP (info.stored p) := by
  rw [Multiset.coe_countP, (am.indexBuildScan_perm info heap).countP_eq, List.countP_map,
    List.countP_filter]
  apply List.countP_congr
  intro h _
  cases hfilter : info.filter h.row <;>
    simp [IndexInfo.stored, IndexInfo.inserted, IndexInfo.formIndexDatum, hfilter, and_comm, and_left_comm]

/-! ### Gating -/

/-- A participant of a parallel build gates as a serial build does. -/
theorem attachShared_eq (o : MemSettings) (counts : Option (Nat → BitVec 32)) :
    attachShared o counts = wireSerial o counts := by
  unfold attachShared wireSerial wiredCounts
  by_cases ho : 0 < o.payloadMinCard <;> simp [ho]

/-- With exact counts, gating is exact. -/
theorem gated_of_exact {o : MemSettings} {p n : Nat}
    (hexact : (partCount info am draw heap p).toInt = n) (hn : 0 < n) :
    (wireSerial o (buildPreScan info am draw heap).2).gated p ↔ n < o.payloadMinCard := by
  unfold partCount at hexact
  unfold wireSerial wiredCounts MemSettings.gated
  cases hcounts : (buildPreScan info am draw heap).2 with
  | none =>
    rw [hcounts] at hexact
    have hzero : (0 : Int) = n := hexact
    omega
  | some counts =>
    rw [hcounts, Option.getD_some] at hexact
    by_cases ho : 0 < o.payloadMinCard
    · simp [ho, hexact]
    · simp [ho]
      omega

/-- **The two passes agree on every partition where their differences balance.** -/
theorem gatingExact_of_sizes {o : MemSettings} {size : Nat → Nat}
    (hsize : ∀ p, size p = heap.countP (info.stored p)) :
    GatingExact (partCount info am draw heap) (wireSerial o (buildPreScan info am draw heap).2)
      size ↔ info.Balances heap := by
  have hexact : ∀ p, (partCount info am draw heap p).toInt = size p ↔
      heap.countP (info.countedOnly p) ≡ heap.countP (info.storedOnly p) [MOD 2 ^ 32] ∧
        heap.countP (info.stored p) < 2 ^ 31 := by
    intro p
    have hiff := toInt_countP_eq_iff (info.counted p) (info.stored p) heap (w := 32) (by decide)
    rw [partCount_apply, hsize, funext (countedOnly_eq p), funext (storedOnly_eq p)]
    exact hiff
  constructor
  · intro h p hp
    exact (hexact p).mp (h.exact p hp)
  · intro h
    have hcounts : ∀ p < 256, (partCount info am draw heap p).toInt = size p := fun p hp =>
      (hexact p).mpr (h p hp)
    exact ⟨hcounts, fun p hp hpos => gated_of_exact (hcounts p hp) hpos⟩

/-- Counts are right where every version is seen, has a filter value and goes to the index,
up to what an `int` can count. -/
theorem balances_of_clean (hcolumn : 0 < info.filterAttno)
    (hclean : ∀ h ∈ heap, h.visible ∧ (info.filter h.row).isSome ∧ info.inserted h)
    (hlength : heap.length < 2 ^ 31) : info.Balances heap := by
  intro p _
  have hcounted : heap.countP (info.countedOnly p) = 0 := by
    apply List.countP_eq_zero.mpr
    intro h hh
    simp [IndexInfo.countedOnly, (hclean h hh).2.2]
  have hstored : heap.countP (info.storedOnly p) = 0 := by
    apply List.countP_eq_zero.mpr
    intro h hh
    simp [IndexInfo.storedOnly, hcolumn, hclean h hh]
  rw [hcounted, hstored]
  exact ⟨rfl, lt_of_le_of_lt List.countP_le_length hlength⟩

variable {Q D W : Type} [CDouble D] [Inhabited Q] [DecidableEq W] [Fintype W]

/-- **Gating by the pre-scan is exact only on balance.** A build, serial or parallel, gates
by the final numbers of elements of the partitions if and only if in each partition the rows
that are counted without an element are as many as those that have one without being
counted, and the `int` does not overflow. -/
theorem gating_exact_iff (am : TableAm R V) (info : IndexInfo R V) (draw : Nat → Nat)
    (heap : List (HeapRow R)) (o : MemSettings) (H : PairingHeap) (oc : Opclass V Q D)
    (overlay : V → Nat → V) (fuel : Nat) (b : SpillParams) (budget : Budget) (meta_ : MetaPage)
    (hfilter : b.hasFilter = true) :
    (∀ (tuples : List (HeapTuple V × SerialChoice)) (s : SerialBuild V Q),
      tuples.map Prod.fst = am.indexBuildScan info heap →
      serialBuild H oc fuel b budget meta_ tuples = some s →
        (GatingExact (partCount info am draw heap)
          (wireSerial o (buildPreScan info am draw heap).2) (partitionSize s.disk) ↔
            info.Balances heap)) ∧
    ∀ (tuples : W → List (HeapTuple V)) (s : Spill W V Q),
      ∑ w, (tuples w : Multiset (HeapTuple V)) = am.indexBuildScan info heap →
      Runs (spillStep H oc overlay fuel b) (fun _ _ => True) (.init meta_ tuples) s →
      (s.parties none).pc = .finished →
        (GatingExact (partCount info am draw heap)
          (attachShared o (buildPreScan info am draw heap).2) (partitionSize s.shared.disk) ↔
            info.Balances heap) := by
  refine ⟨fun tuples s htuples h => ?_, fun tuples s htuples h hfinished => ?_⟩
  · apply gatingExact_of_sizes
    intro p
    rw [← countP_indexBuildScan am, ← htuples, ← countP_tupleRows hfilter]
    unfold partitionSize
    rw [(serialBuild_rows h).2]
  · rw [attachShared_eq]
    apply gatingExact_of_sizes
    intro p
    obtain ⟨hs, hkept⟩ := spill_kept IndexedRow.key (fun _ _ _ => .inl ⟨id, rfl⟩) h
    have hrows := partitionSize_of_keys (hs.finished_rows hkept hfinished).2 p
    rw [← countP_indexBuildScan am, ← htuples, hrows]
    have hsum := map_sum (Multiset.countPAddMonoidHom fun r : IndexedRow V =>
      payloadPartition r.filterVal = p) (fun w => tupleRows b (tuples w)) Finset.univ
    have hsum' := map_sum (Multiset.countPAddMonoidHom fun t : HeapTuple V =>
      t.value.isSome ∧ payloadPartition (t.filter.getD 0) = p)
      (fun w => (tuples w : Multiset (HeapTuple V))) Finset.univ
    simp only [Multiset.coe_countPAddMonoidHom] at hsum hsum'
    rw [hsum, hsum']
    exact Finset.sum_congr rfl fun w _ => countP_tupleRows hfilter p (tuples w)

end

/-! ### A small table -/

/-- Rows of a vector and an int4. -/
def smallInfo : IndexInfo (Option Int × Option (BitVec 32)) Int := ⟨Prod.fst, Prod.snd, 2, none⟩

/-- Two points and, visible or not, a row whose vector is NULL, all of one filter value. -/
def smallHeap (visible : Bool) : List (HeapRow (Option Int × Option (BitVec 32))) :=
  [⟨(some 0, some 7), ⟨0, 1⟩, true, true⟩, ⟨(none, some 7), ⟨0, 2⟩, visible, true⟩,
    ⟨(some 5, some 7), ⟨0, 3⟩, true, true⟩]

/-- Partitions of less than three elements are gated. -/
def smallSettings : MemSettings := ⟨20, true, true, none, 3⟩

theorem smallHeap_scan (visible : Bool) :
    smallScan.map Prod.fst = TableAm.heap.indexBuildScan smallInfo (smallHeap visible) := by
  rfl

theorem smallHeap_scans (visible : Bool) : ∑ w, (smallTuples w : Multiset (HeapTuple Int)) =
    TableAm.heap.indexBuildScan smallInfo (smallHeap visible) := by
  rfl

/-- A dead row whose vector is NULL is neither counted nor stored. -/
theorem gating_exact_small :
    (∃ s : SerialBuild Int Int, GatingExact (partCount smallInfo .heap id (smallHeap false))
      (wireSerial smallSettings (buildPreScan smallInfo .heap id (smallHeap false)).2)
      (partitionSize s.disk)) ∧
    ∃ s : Spill (Fin 2) Int Int, GatingExact (partCount smallInfo .heap id (smallHeap false))
      (attachShared smallSettings (buildPreScan smallInfo .heap id (smallHeap false)).2)
      (partitionSize s.shared.disk) := by
  have hbalances : smallInfo.Balances (smallHeap false) := by
    unfold IndexInfo.Balances
    decide +kernel
  obtain ⟨s, hs⟩ := smallScan_finishes
  obtain ⟨s', hs', hfinished⟩ := smallSpill_finishes
  have hexact := gating_exact_iff (W := Fin 2) .heap smallInfo id (smallHeap false) smallSettings
    PairingHeap.list points pointOverlay 20 smallSpill smallBudget smallMeta rfl
  exact ⟨⟨s, (hexact.1 smallScan s (smallHeap_scan false) hs).mpr hbalances⟩,
    s', (hexact.2 smallTuples s' (smallHeap_scans false) hs' hfinished).mpr hbalances⟩

/-- A row whose vector is NULL is counted: of three counted members the build has two, and
their partition is not gated, though it is below the threshold. -/
theorem null_vector_counted :
    ∃ s : SerialBuild Int Int,
      smallScan.map Prod.fst = TableAm.heap.indexBuildScan smallInfo (smallHeap true) ∧
      serialBuild PairingHeap.list points 20 smallSpill smallBudget smallMeta smallScan = some s ∧
      (partCount smallInfo .heap id (smallHeap true) 7).toInt = 3 ∧ partitionSize s.disk 7 = 2 ∧
      (wireSerial smallSettings (buildPreScan smallInfo .heap id (smallHeap true)).2).gated 7 =
        false ∧
      ¬ GatingExact (partCount smallInfo .heap id (smallHeap true))
        (wireSerial smallSettings (buildPreScan smallInfo .heap id (smallHeap true)).2)
        (partitionSize s.disk) := by
  obtain ⟨s, hs⟩ := smallScan_finishes
  have hcount : (partCount smallInfo .heap id (smallHeap true) 7).toInt = 3 := by decide +kernel
  have hsize : partitionSize s.disk 7 = 2 := by
    unfold partitionSize
    rw [(serialBuild_rows hs).2]
    decide +kernel
  refine ⟨s, smallHeap_scan true, hs, hcount, hsize, by decide +kernel, fun h => ?_⟩
  have hexact := h.exact 7 (by decide)
  rw [hcount, hsize] at hexact
  exact absurd hexact (by decide)

end PgAcorn.Build
