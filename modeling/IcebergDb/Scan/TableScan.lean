import IcebergDb.Expr.PhysicalExprToPredicate
import IcebergDb.Foundation.Text

/-!
# The Iceberg table scan node

`scan.rs` and `scan_statistics.rs`: the leaf of every plan, as the optimizer rules see it.

* `Table`, `Snapshot`, `DataFile` — the table metadata as loaded, with the live rows of each file;
* `rowEstimate` and the size tests built on it (`joinOrderWeight`, `isFactLike`, `isLargeFactTable`);
* `withAdditionalStaticPredicate` and `withExtraPhysicalFilters` — the two ways a rule narrows a scan;
* `handleChildPushdownResult` — the answer to DataFusion's filter pushdown: a filter is accepted when
  its columns exist, and is dropped from the plan above;
* `keeps` — what the scan returns: the rows on which the merged predicate is TRUE.

A filter that was accepted is gone from the plan above the scan, so the scan has to answer for it.
`Enforced` says that it does, and `enforced_of_fullyExtracted` when.
-/

namespace IcebergDb.Scan

open IcebergDb.Expr IcebergDb.Text

/-- A data file with its manifest entry and its live rows (deletes applied). -/
structure DataFile where
  filePath : String
  fileSizeInBytes : ℕ
  recordCount : Option ℕ
  rows : List Row

/-- A snapshot; of its summary only `total-records` is read. -/
structure Snapshot where
  snapshotId : ℤ
  totalRecords : Option String
  files : List DataFile

/-- Table metadata, as loaded at one moment. -/
structure Table where
  uuid : ℕ
  currentSnapshotId : Option ℤ
  snapshots : List Snapshot

/-- `metadata.snapshot_by_id`. -/
def Table.snapshotById (t : Table) (id : ℤ) : Option Snapshot :=
  t.snapshots.find? fun s => s.snapshotId == id

/-- `metadata.current_snapshot`. -/
def Table.currentSnapshot (t : Table) : Option Snapshot :=
  t.currentSnapshotId.bind t.snapshotById

/-- `row_estimate`: the `total-records` of the named snapshot, or else of the current one. -/
def rowEstimate (t : Table) (snapshotId : Option ℤ) : Option ℕ :=
  let snapshot := (snapshotId.bind t.snapshotById).or t.currentSnapshot
  snapshot.bind fun s => s.totalRecords.bind (parseUnsigned 64)

/-- `SMALL_ICEBERG_BUILD_ROWS`. -/
def smallIcebergBuildRows : ℕ := 512 * 1024

/-- `FILTERED_SCAN_JOIN_WEIGHT`. -/
def filteredScanJoinWeight : ℕ := 1

/-- `usize::MAX` on a 64-bit host. -/
def usizeMax : ℕ := 2 ^ 64 - 1

/-- `saturating_mul` on `usize`. -/
def saturatingMul (a b : ℕ) : ℕ := min (a * b) usizeMax

/-- An `Arc<dyn PhysicalExpr>`: the shared object and its expression. -/
structure ArcExpr where
  ptr : ℕ
  expr : PhysicalExpr

/-- `IcebergTableScan`.  `output_schema` and the plan properties follow from the other fields. -/
structure IcebergTableScan where
  table : Table
  snapshotId : Option ℤ
  tableSchema : List String
  projection : Option (List String)
  predicates : Option Predicate
  physicalFilters : List ArcExpr
  limit : Option ℕ
  scanPartitions : ℕ

namespace IcebergTableScan

/-- `output_schema`: the projected columns, or all of them. -/
def outputSchema (scan : IcebergTableScan) : List String :=
  scan.projection.getD scan.tableSchema

/-- `join_order_weight`. -/
def joinOrderWeight (scan : IcebergTableScan) : ℕ :=
  if scan.predicates.isSome then filteredScanJoinWeight
  else (rowEstimate scan.table scan.snapshotId).getD (usizeMax / 4)

/-- `is_fact_like`. -/
def isFactLike (scan : IcebergTableScan) : Bool :=
  scan.predicates.isNone &&
    decide (max (saturatingMul scan.joinOrderWeight 4) (filteredScanJoinWeight + 1)
      > smallIcebergBuildRows)

/-- `is_large_fact_table`. -/
def isLargeFactTable (scan : IcebergTableScan) : Bool :=
  match rowEstimate scan.table scan.snapshotId with
  | some rows => decide (rows > smallIcebergBuildRows)
  | none => false

/-- `with_additional_static_predicate`. -/
def withAdditionalStaticPredicate (scan : IcebergTableScan) (pred : Predicate) :
    IcebergTableScan :=
  { scan with predicates := andOption scan.predicates pred }

/-- One filter of `with_extra_physical_filters`: skipped when the same object is there already. -/
def pushFilter (filters : List ArcExpr) (filter : ArcExpr) : List ArcExpr :=
  if filters.any (fun existing => existing.ptr == filter.ptr) then filters else filters ++ [filter]

/-- `with_extra_physical_filters`. -/
def withExtraPhysicalFilters (scan : IcebergTableScan) (extra : List ArcExpr) :
    IcebergTableScan :=
  { scan with physicalFilters := extra.foldl pushFilter scan.physicalFilters }

/-- `merge_iceberg_predicates` on the scan's own filters, the step that opens `execute`. -/
def mergedPredicate (scan : IcebergTableScan) (current : ℕ → PhysicalExpr) : Option Predicate :=
  mergeIcebergPredicates current scan.predicates (scan.physicalFilters.map ArcExpr.expr)

/-- The snapshot that the scan builder resolves: the named one, or the current one. -/
def snapshot (scan : IcebergTableScan) : Option Snapshot :=
  match scan.snapshotId with
  | some id => scan.table.snapshotById id
  | none => scan.table.currentSnapshot

/-- The data files of the scanned snapshot. -/
def files (scan : IcebergTableScan) : List DataFile :=
  match scan.snapshot with
  | some s => s.files
  | none => []

/-- The live rows of the scanned snapshot. -/
def tableRows (scan : IcebergTableScan) : List Row :=
  scan.files.flatMap DataFile.rows

/-- The scan returns a row: the merged predicate is TRUE on it. -/
def keeps (scan : IcebergTableScan) (current : ℕ → PhysicalExpr) (row : Row) : Prop :=
  optTrueOn (scan.mergedPredicate current) row

instance (scan : IcebergTableScan) (current : ℕ → PhysicalExpr) (row : Row) :
    Decidable (scan.keeps current row) :=
  inferInstanceAs (Decidable (optTrueOn _ _))

/-- **A row is kept** exactly when the static predicate and everything extracted from the physical
filters is TRUE on it. -/
theorem keeps_iff (scan : IcebergTableScan) (current : ℕ → PhysicalExpr) (row : Row) :
    scan.keeps current row ↔ optTrueOn scan.predicates row ∧
      ∀ f ∈ scan.physicalFilters, ∀ p ∈ convertPhysicalExprToPredicates current f.expr,
        p.isTrueOn row := by
  rw [keeps, mergedPredicate, optTrueOn_mergeIcebergPredicates]
  simp only [List.mem_map, forall_exists_index, and_imp, forall_apply_eq_imp_iff₂]

/-- A further static predicate narrows the scan by that predicate. -/
theorem keeps_withAdditionalStaticPredicate (scan : IcebergTableScan) (pred : Predicate)
    (current : ℕ → PhysicalExpr) (row : Row) :
    (scan.withAdditionalStaticPredicate pred).keeps current row ↔
      scan.keeps current row ∧ pred.isTrueOn row := by
  rw [keeps_iff, keeps_iff]
  show optTrueOn (andOption scan.predicates pred) row ∧ _ ↔ _
  rw [optTrueOn_andOption, and_right_comm]
  rfl

end IcebergTableScan

/-! ### Filter pushdown -/

/-- `PushedDown`. -/
inductive PushedDown where
  | yes
  | no
deriving DecidableEq

/-- `FilterPushdownPropagation`: one answer per parent filter, and the new node if there is one. -/
structure FilterPushdownPropagation where
  filters : List PushedDown
  updatedNode : Option IcebergTableScan

/-- The answer to one parent filter. -/
def answer (schema : List String) (filter : ArcExpr) : PushedDown :=
  if canPushdownPhysicalExpr filter.expr schema then .yes else .no

/-- `handle_child_pushdown_result`.  The early return on no parent filter is the case of an empty
list of answers. -/
def handleChildPushdownResult (scan : IcebergTableScan) (parentFilters : List ArcExpr) :
    FilterPushdownPropagation :=
  let accepted := parentFilters.filter fun f => canPushdownPhysicalExpr f.expr scan.tableSchema
  let pushdownResults := parentFilters.map (answer scan.tableSchema)
  if accepted.isEmpty then { filters := pushdownResults, updatedNode := none }
  else
    { filters := pushdownResults
      updatedNode := some { scan with physicalFilters := scan.physicalFilters ++ accepted } }

/-- The node that stands in the plan after the pushdown. -/
def updatedScan (scan : IcebergTableScan) (parentFilters : List ArcExpr) : IcebergTableScan :=
  (handleChildPushdownResult scan parentFilters).updatedNode.getD scan

/-- The scan answers for a filter: every row it returns makes the filter TRUE, whatever the functions
in the filter mean. -/
def Enforced (scan : IcebergTableScan) (current : ℕ → PhysicalExpr) (filter : ArcExpr) : Prop :=
  ∀ (F : Functions) (row : Row), scan.keeps current row →
    (resolvePhysicalExpr current filter.expr).isTrue F (PhysicalExpr.rowCells row)

/-- Every filter answered `Yes` is enforced by the updated scan. -/
def AcceptanceSound (scan : IcebergTableScan) (current : ℕ → PhysicalExpr)
    (parentFilters : List ArcExpr) : Prop :=
  ∀ (i : ℕ) (f : ArcExpr), parentFilters[i]? = some f →
    (handleChildPushdownResult scan parentFilters).filters[i]? = some .yes →
      Enforced (updatedScan scan parentFilters) current f

theorem handleChildPushdownResult_filters (scan : IcebergTableScan) (parentFilters : List ArcExpr) :
    (handleChildPushdownResult scan parentFilters).filters =
      parentFilters.map (answer scan.tableSchema) := by
  simp only [handleChildPushdownResult]
  split <;> rfl

/-- **A `Yes` is an acceptance**: exactly the filters whose columns exist are answered `Yes`. -/
theorem answered_yes_iff (scan : IcebergTableScan) {parentFilters : List ArcExpr} {i : ℕ}
    {f : ArcExpr} (hi : parentFilters[i]? = some f) :
    (handleChildPushdownResult scan parentFilters).filters[i]? = some .yes ↔
      canPushdownPhysicalExpr f.expr scan.tableSchema = true := by
  rw [handleChildPushdownResult_filters, List.getElem?_map, hi, Option.map_some, Option.some_inj]
  unfold answer
  split
  · simp_all
  · simp_all

/-- The updated scan carries its old filters and the accepted ones. -/
theorem updatedScan_physicalFilters (scan : IcebergTableScan) (parentFilters : List ArcExpr) :
    (updatedScan scan parentFilters).physicalFilters = scan.physicalFilters ++
      parentFilters.filter fun f => canPushdownPhysicalExpr f.expr scan.tableSchema := by
  simp only [updatedScan, handleChildPushdownResult]
  split
  · rename_i h
    rw [List.isEmpty_iff.mp h, List.append_nil]
    rfl
  · rfl

/-- **Fully extracted filters are enforced** by every scan that carries them. -/
theorem enforced_of_fullyExtracted {scan : IcebergTableScan} {current : ℕ → PhysicalExpr}
    {f : ArcExpr} (hmem : f ∈ scan.physicalFilters)
    (hfull : fullyExtracted (resolvePhysicalExpr current f.expr) = true) :
    Enforced scan current f := by
  intro F row hkeeps
  exact extract_enforces hfull (((scan.keeps_iff current row).mp hkeeps).2 f hmem)

/-- A bare scan of an empty one-column table. -/
def bareScan : IcebergTableScan where
  table := { uuid := 0, currentSnapshotId := none, snapshots := [] }
  snapshotId := none
  tableSchema := ["a"]
  projection := none
  predicates := none
  physicalFilters := []
  limit := none
  scanPartitions := 1

end IcebergDb.Scan
