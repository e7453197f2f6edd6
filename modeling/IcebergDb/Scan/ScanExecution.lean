import IcebergDb.Expr.RowFilter
import IcebergDb.Scan.TableScan

/-!
# Building and executing a scan

`TableScanBuilder::build` of the vendored `iceberg` crate, and what the Parquet reader does with the filter
that was bound: the errors a scan can end with, before and after its first file is opened.

* `TableScanBuilder.build` — every error it returns, in the order of the source;
* `Warehouse` — what the tables and their files look like; the pruning of files and row groups is a
  parameter, of which `PrunesMore` is assumed;
* `Warehouse.Runs` — a scan builds, and no filter of it fails on a file;
* `builds_narrowed_iff` — **a further predicate lets a scan build exactly when it binds**, or when the
  filter was FALSE already;
* `runs_narrowed` — when the narrowed scan also runs.
-/

namespace IcebergDb.Scan

open IcebergDb.Expr

/-! ### The builder -/

/-- `get_metadata_field_id` knows the name. -/
def isMetadataColumnName (name : String) : Bool :=
  ["_file", "_pos", "_deleted", "_spec_id", "_partition", "file_path", "pos", "_change_type",
    "_change_ordinal", "_commit_snapshot_id", "_row_id", "_last_updated_sequence_number"].contains name

/-- The errors of `build`: "Snapshot with id .. not found", the missing schema of a snapshot, "Column ..
not found in table", "Column .. is not a direct child of schema but a nested field", and those of
`bind`. -/
inductive ScanError where
  | snapshotNotFound (id : ℤ)
  | schemaNotFound
  | columnNotFound (name : String)
  | nestedColumn (name : String)
  | bind (e : BindError)

/-- `TableScanBuilder`, as far as it decides about errors.  The filter is without NOT. -/
structure TableScanBuilder where
  table : Table
  snapshotId : Option ℤ
  columnNames : Option (List String)
  filter : Option Predicate

/-- `PlanContext`; the fields stand by their names. -/
structure PlanContext where
  snapshot : Snapshot
  columnNames : List String
  predicate : Option BoundPredicate

/-- The first loop over the column names: the name is known. -/
def checkColumn (schema : Schema) (name : String) : Except ScanError Unit :=
  if isMetadataColumnName name then .ok ()
  else match schema.fieldByName name with
    | none => .error (.columnNotFound name)
    | some _ => .ok ()

/-- The second loop: the name is one of a top-level field. -/
def checkField (schema : Schema) (name : String) : Except ScanError Unit :=
  if isMetadataColumnName name then .ok ()
  else match schema.fieldByName name with
    | none => .error (.columnNotFound name)
    | some r => if r.topLevel then .ok () else .error (.nestedColumn name)

/-- A loop that returns at its first error. -/
def checkAll (check : String → Except ScanError Unit) : List String → Except ScanError Unit
  | [] => .ok ()
  | name :: names =>
      match check name with
      | .error e => .error e
      | .ok _ => checkAll check names

/-- The filter, bound to the schema of the snapshot. -/
def bindFilter (parsers : TextParsers) (schema : Schema) :
    Option Predicate → Except ScanError (Option BoundPredicate)
  | none => .ok none
  | some p =>
      match p.bind parsers schema with
      | .error e => .error (.bind e)
      | .ok b => .ok (some b)

/-- Which columns a Parquet row group has an index on, as `apply_predicate_to_column_index` tells them
apart: none, one it reads, one of a type it does not support, or one of bytes that are not UTF-8. -/
inductive ColumnIndex where
  | absent
  | supported
  | unsupported
  | notUtf8
deriving DecidableEq

/-- A row group of a data file. -/
structure RowGroup where
  columnIndex : String → ColumnIndex

/-- What the tables and files are like.  `current` are the values of the dynamic filters when the scans
execute; `prunesFile` and `prunesRowGroup` are the metrics and partition evaluators. -/
structure Warehouse where
  parsers : TextParsers
  schema : Table → Snapshot → Option Schema
  current : ℕ → PhysicalExpr
  present : DataFile → String → Bool
  rowGroups : DataFile → List RowGroup
  prunesFile : BoundPredicate → DataFile → Bool
  prunesRowGroup : BoundPredicate → RowGroup → Bool

section

variable (W : Warehouse)

/-- The snapshot to scan and its schema; nothing if the table has no snapshot yet. -/
def Warehouse.resolve (table : Table) (snapshotId : Option ℤ) :
    Except ScanError (Option (Snapshot × Schema)) :=
  let withSchema := fun snapshot =>
    match W.schema table snapshot with
    | none => .error .schemaNotFound
    | some schema => .ok (some (snapshot, schema))
  match snapshotId with
  | some id =>
      match table.snapshotById id with
      | none => .error (.snapshotNotFound id)
      | some snapshot => withSchema snapshot
  | none =>
      match table.currentSnapshot with
      | none => .ok none
      | some snapshot => withSchema snapshot

/-- `build`, from the schema of the snapshot on. -/
def TableScanBuilder.planContext (b : TableScanBuilder) (snapshot : Snapshot) (schema : Schema) :
    Except ScanError PlanContext :=
  match checkAll (checkColumn schema) (b.columnNames.getD []) with
  | .error e => .error e
  | .ok _ =>
      let names := b.columnNames.getD (schema.fields.map NestedField.name)
      match checkAll (checkField schema) names with
      | .error e => .error e
      | .ok _ =>
          match bindFilter W.parsers schema b.filter with
          | .error e => .error e
          | .ok predicate => .ok ⟨snapshot, names, predicate⟩

/-- `TableScanBuilder::build`. -/
def TableScanBuilder.build (b : TableScanBuilder) : Except ScanError (Option PlanContext) :=
  match W.resolve b.table b.snapshotId with
  | .error e => .error e
  | .ok none => .ok none
  | .ok (some (snapshot, schema)) => (b.planContext W snapshot schema).map some

/-- The builder of `read_partition`: the projected columns and the merged predicate, through
`with_filter`. -/
def IcebergTableScan.builder (s : IcebergTableScan) (current : ℕ → PhysicalExpr) : TableScanBuilder where
  table := s.table
  snapshotId := s.snapshotId
  columnNames := s.projection
  filter := (s.mergedPredicate current).map Predicate.rewriteNot

/-! ### The reader -/

/-- The page index evaluator on a column: a column that the file does not have is no error. -/
def onColumnIndex (present : String → Bool) (index : String → ColumnIndex) (r : FieldRef) : Bool :=
  !present r.field.name || index r.field.name == .absent || index r.field.name == .supported

/-- `IN_PREDICATE_LIMIT` of the page index evaluator. -/
def inPredicateLimit : ℕ := 4096

/-- `PageIndexEvaluator`: no visited leaf fails.  The errors of kind `Unexpected` are swallowed by the
reader and do not count. -/
def rowSelection (present : String → Bool) (index : String → ColumnIndex) : BoundPredicate → Bool
  | .alwaysTrue | .alwaysFalse => true
  | .andExpr l r | .orExpr l r => rowSelection present index l && rowSelection present index r
  | .notExpr p => rowSelection present index p
  | .unary op r => op == .isNan || op == .notNan || onColumnIndex present index r
  | .binary op r _ => op == .notEq || onColumnIndex present index r
  | .set op r ls =>
      op == .notIn || decide (ls.length > inPredicateLimit) || onColumnIndex present index r

/-- The filter can be used on a file: the row filter can be built (`get_row_filter`), and the pages of every
row group that is left can be selected. -/
structure Warehouse.Filters (b : BoundPredicate) (f : DataFile) : Prop where
  rowFilter : ∀ row, ∃ t, b.rowFilter (W.present f) row = .ok t
  rowSelection : ∀ g ∈ W.rowGroups f, W.prunesRowGroup b g = true ∨
    rowSelection (W.present f) g.columnIndex b = true

/-- The scan builds. -/
def Warehouse.Builds (s : IcebergTableScan) : Prop := ∃ ctx, (s.builder W.current).build W = .ok ctx

/-- No file that is planned fails because of the filter. -/
def Warehouse.Reads (s : IcebergTableScan) : Prop :=
  ∀ ctx b, (s.builder W.current).build W = .ok (some ctx) → ctx.predicate = some b →
    ∀ f ∈ ctx.snapshot.files, W.prunesFile b f = true ∨ W.Filters b f

/-- The scan builds and executes without an error. -/
def Warehouse.Runs (s : IcebergTableScan) : Prop := W.Builds s ∧ W.Reads s

/-- What is assumed of the evaluators: a longer conjunction prunes at least as much. -/
structure Warehouse.PrunesMore : Prop where
  file : ∀ bs bs' f, bs ⊆ bs' → W.prunesFile (.conjoin bs) f = true → W.prunesFile (.conjoin bs') f = true
  rowGroup : ∀ bs bs' g, bs ⊆ bs' → W.prunesRowGroup (.conjoin bs) g = true →
    W.prunesRowGroup (.conjoin bs') g = true

end

/-! ### What `build` checks -/

/-- The column can be selected. -/
def Selectable (schema : Schema) (name : String) : Prop :=
  isMetadataColumnName name = true ∨ ∃ r, schema.fieldByName name = some r ∧ r.topLevel = true

theorem checkAll_eq_ok {check : String → Except ScanError Unit} {names : List String} :
    checkAll check names = .ok () ↔ ∀ name ∈ names, check name = .ok () := by
  induction names with
  | nil => simp [checkAll]
  | cons name names ih =>
      rw [checkAll, List.forall_mem_cons, ← ih]
      cases check name with
      | error e => simp
      | ok u => simp

theorem checkField_eq_ok {schema : Schema} {name : String} :
    checkField schema name = .ok () ↔ Selectable schema name := by
  unfold checkField Selectable
  by_cases hmeta : isMetadataColumnName name = true
  · simp [hmeta]
  · cases hfield : schema.fieldByName name with
    | none => simp [hmeta]
    | some r => by_cases htop : r.topLevel = true <;> simp [hmeta, htop]

theorem checkColumn_of_selectable {schema : Schema} {name : String} (h : Selectable schema name) :
    checkColumn schema name = .ok () := by
  rcases h with h | ⟨r, hr, -⟩
  · rw [checkColumn, if_pos h]
  · rw [checkColumn, hr]
    split <;> rfl

/-- The fields of a schema can be selected. -/
theorem selectable_of_mem {schema : Schema} {name : String}
    (h : name ∈ schema.fields.map NestedField.name) : Selectable schema name := by
  obtain ⟨field, hfield, rfl⟩ := List.mem_map.mp h
  right
  cases hfind : schema.fields.find? (·.name == field.name) with
  | none => simpa using List.find?_eq_none.mp hfind field hfield
  | some f => exact ⟨⟨true, f, f.hasAccessor⟩, by rw [Schema.fieldByName, hfind], rfl⟩

theorem bindFilter_ok {parsers : TextParsers} {schema : Schema} {filter : Option Predicate} :
    (∃ b, bindFilter parsers schema filter = .ok b) ↔
      ∀ p, filter = some p → p.Binds parsers schema := by
  cases filter with
  | none => simp [bindFilter]
  | some p =>
      simp only [Option.some.injEq, forall_eq', Predicate.Binds, bindFilter]
      cases p.bind parsers schema <;> simp

section

variable {W : Warehouse} {b : TableScanBuilder}

/-- From the schema on, `build` checks the columns and the filter. -/
theorem planContext_isOk {snapshot : Snapshot} {schema : Schema} :
    (∃ ctx, b.planContext W snapshot schema = .ok ctx) ↔
      (∀ name ∈ b.columnNames.getD [], Selectable schema name) ∧
        ∀ p, b.filter = some p → p.Binds W.parsers schema := by
  rw [← bindFilter_ok]
  constructor
  · intro ⟨ctx, hctx⟩
    unfold TableScanBuilder.planContext at hctx
    split at hctx
    · cases hctx
    simp only at hctx
    split at hctx
    · cases hctx
    rename_i hfields
    split at hctx
    · cases hctx
    rename_i predicate hpredicate
    refine ⟨?_, predicate, hpredicate⟩
    cases hnames : b.columnNames with
    | none => simp
    | some names =>
        rw [hnames] at hfields
        intro name hname
        exact checkField_eq_ok.mp (checkAll_eq_ok.mp hfields name hname)
  · intro ⟨hnames, predicate, hpredicate⟩
    have hcolumns : checkAll (checkColumn schema) (b.columnNames.getD []) = .ok () :=
      checkAll_eq_ok.mpr fun name hname => checkColumn_of_selectable (hnames name hname)
    have hfields : checkAll (checkField schema)
        (b.columnNames.getD (schema.fields.map NestedField.name)) = .ok () := by
      refine checkAll_eq_ok.mpr fun name hname => checkField_eq_ok.mpr ?_
      cases hcase : b.columnNames with
      | none =>
          rw [hcase] at hname
          exact selectable_of_mem hname
      | some names =>
          rw [hcase] at hname hnames
          exact hnames name hname
    refine ⟨⟨snapshot, b.columnNames.getD (schema.fields.map NestedField.name), predicate⟩, ?_⟩
    unfold TableScanBuilder.planContext
    rw [hcolumns]
    simp only [hfields, hpredicate]

/-- **When a scan builds.** -/
theorem build_isOk : (∃ ctx, b.build W = .ok ctx) ↔
    ∃ t, W.resolve b.table b.snapshotId = .ok t ∧ ∀ snapshot schema, t = some (snapshot, schema) →
      (∀ name ∈ b.columnNames.getD [], Selectable schema name) ∧
        ∀ p, b.filter = some p → p.Binds W.parsers schema := by
  unfold TableScanBuilder.build
  cases W.resolve b.table b.snapshotId with
  | error e => simp
  | ok t =>
      cases t with
      | none => simp
      | some pair =>
          obtain ⟨snapshot, schema⟩ := pair
          have hspec : (∃ ctx, b.planContext W snapshot schema = .ok ctx) ↔ _ := planContext_isOk
          simp only [Except.ok.injEq, exists_eq_left', Option.some.injEq, Prod.mk.injEq, and_imp,
            forall_apply_eq_imp_iff, forall_eq']
          rw [← hspec]
          cases b.planContext W snapshot schema with
          | error e => simp [Except.map]
          | ok ctx => simp [Except.map]

/-- What a scan that is built holds. -/
theorem of_build_eq_some {ctx : PlanContext} (h : b.build W = .ok (some ctx)) :
    ∃ schema, W.resolve b.table b.snapshotId = .ok (some (ctx.snapshot, schema)) ∧
      bindFilter W.parsers schema b.filter = .ok ctx.predicate := by
  unfold TableScanBuilder.build at h
  split at h
  · cases h
  · cases h
  rename_i snapshot schema hresolve
  cases hctx : b.planContext W snapshot schema with
  | error e =>
      rw [hctx] at h
      cases h
  | ok c =>
      rw [hctx] at h
      obtain rfl : c = ctx := Option.some.inj (Except.ok.inj h)
      unfold TableScanBuilder.planContext at hctx
      split at hctx
      · cases hctx
      simp only at hctx
      split at hctx
      · cases hctx
      split at hctx
      · cases hctx
      rename_i predicate hpredicate
      obtain rfl := Except.ok.inj hctx
      exact ⟨schema, hresolve, hpredicate⟩

/-- A scan of a table with a snapshot, once it is built. -/
theorem exists_context (h : ∃ ctx, b.build W = .ok ctx) {snapshot : Snapshot} {schema : Schema}
    (hresolve : W.resolve b.table b.snapshotId = .ok (some (snapshot, schema))) :
    ∃ ctx, b.build W = .ok (some ctx) ∧ ctx.snapshot = snapshot ∧
      bindFilter W.parsers schema b.filter = .ok ctx.predicate := by
  obtain ⟨c, hc⟩ := h
  have hsome : ∃ ctx, c = some ctx := by
    unfold TableScanBuilder.build at hc
    rw [hresolve] at hc
    simp only at hc
    cases hctx : b.planContext W snapshot schema with
    | error e =>
        rw [hctx] at hc
        cases hc
    | ok ctx =>
        rw [hctx] at hc
        exact ⟨ctx, (Except.ok.inj hc).symm⟩
  obtain ⟨ctx, rfl⟩ := hsome
  obtain ⟨schema', hresolve', hbind⟩ := of_build_eq_some hc
  obtain ⟨rfl, rfl⟩ : ctx.snapshot = snapshot ∧ schema' = schema := by
    rw [hresolve] at hresolve'
    simpa [eq_comm] using hresolve'
  exact ⟨ctx, hc, rfl, hbind⟩

end

/-! ### The merged predicate as a list -/

/-- What is extracted from the physical filters. -/
def IcebergTableScan.extracted (s : IcebergTableScan) (current : ℕ → PhysicalExpr) : List Predicate :=
  s.physicalFilters.flatMap fun f => convertPhysicalExprToPredicates current f.expr

/-- The predicates that a scan merges: the static one first. -/
def IcebergTableScan.parts (s : IcebergTableScan) (current : ℕ → PhysicalExpr) : List Predicate :=
  s.predicates.toList ++ s.extracted current

/-- The conjunction of a list, if there is anything in it. -/
def conjoinOption : List Predicate → Option Predicate
  | [] => none
  | ps => some (.conjoin ps)

theorem foldl_andOption (ps : List Predicate) :
    ∀ merged : Option Predicate, ps.foldl andOption merged = conjoinOption (merged.toList ++ ps) := by
  induction ps with
  | nil =>
      intro merged
      cases merged with
      | none => rfl
      | some p => exact congrArg some (Predicate.alwaysTrue_and p).symm
  | cons p ps ih =>
      intro merged
      rw [List.foldl_cons, ih]
      cases merged with
      | none => rfl
      | some q =>
          show some (Predicate.conjoin (q.and p :: ps)) = some (.conjoin (q :: p :: ps))
          simp only [Predicate.conjoin, List.foldl_cons, Predicate.alwaysTrue_and]

theorem mergedPredicate_eq_foldl (s : IcebergTableScan) (current : ℕ → PhysicalExpr) :
    s.mergedPredicate current = (s.extracted current).foldl andOption s.predicates := by
  unfold IcebergTableScan.mergedPredicate mergeIcebergPredicates IcebergTableScan.extracted
  rw [List.foldl_flatMap, List.foldl_map]

theorem mergedPredicate_eq (s : IcebergTableScan) (current : ℕ → PhysicalExpr) :
    s.mergedPredicate current = conjoinOption (s.parts current) := by
  rw [mergedPredicate_eq_foldl, foldl_andOption]
  rfl

/-- A further static predicate stands behind the static one. -/
theorem mergedPredicate_narrowed (s : IcebergTableScan) (q : Predicate) (current : ℕ → PhysicalExpr) :
    (s.withAdditionalStaticPredicate q).mergedPredicate current =
      some (.conjoin (s.predicates.toList ++ q :: s.extracted current)) := by
  rw [mergedPredicate_eq_foldl]
  show (q :: s.extracted current).foldl andOption s.predicates = _
  rw [foldl_andOption]
  cases s.predicates <;> rfl

/-! ### A further predicate -/

section

variable (W : Warehouse)

/-- Some conjunct of the scan's filter is FALSE, so the others are not bound. -/
def Warehouse.DecidedFalse (s : IcebergTableScan) : Prop :=
  Predicate.alwaysFalse ∈ (s.parts W.current).map Predicate.rewriteNot

/-- A predicate binds to the schema that the scan reads with. -/
def Warehouse.Accepts (s : IcebergTableScan) (q : Predicate) : Prop :=
  ∀ snapshot schema, W.resolve s.table s.snapshotId = .ok (some (snapshot, schema)) →
    q.rewriteNot.Binds W.parsers schema

/-- What the filter of a scan has to be for the scan to build. -/
def Warehouse.BindsAll (s : IcebergTableScan) (ps : List Predicate) : Prop :=
  ∃ t, W.resolve s.table s.snapshotId = .ok t ∧ ∀ snapshot schema, t = some (snapshot, schema) →
    (∀ name ∈ s.projection.getD [], Selectable schema name) ∧
      (.alwaysFalse ∈ ps.map Predicate.rewriteNot ∨
        ∀ p ∈ ps.map Predicate.rewriteNot, p.Binds W.parsers schema)

end

section

variable {W : Warehouse} {s : IcebergTableScan} {q : Predicate}

theorem binds_conjoinOption {schema : Schema} (ps : List Predicate) :
    (∀ p, (conjoinOption ps).map Predicate.rewriteNot = some p → p.Binds W.parsers schema) ↔
      .alwaysFalse ∈ ps.map Predicate.rewriteNot ∨
        ∀ p ∈ ps.map Predicate.rewriteNot, p.Binds W.parsers schema := by
  rw [← Predicate.binds_conjoin, ← Predicate.rewriteNot_conjoin]
  cases ps with
  | nil =>
      refine ⟨fun _ => ⟨.alwaysTrue, rfl⟩, ?_⟩
      intro _ p hp
      cases hp
  | cons p ps =>
      constructor
      · intro h
        exact h _ rfl
      · intro h p' hp'
        obtain rfl := Option.some.inj hp'
        exact h

theorem builds_iff : W.Builds s ↔ W.BindsAll s (s.parts W.current) := by
  rw [Warehouse.Builds, build_isOk]
  simp only [IcebergTableScan.builder, mergedPredicate_eq, binds_conjoinOption]
  rfl

theorem builds_narrowed : W.Builds (s.withAdditionalStaticPredicate q) ↔
    W.BindsAll s (s.predicates.toList ++ q :: s.extracted W.current) := by
  have hmerged : (s.withAdditionalStaticPredicate q).mergedPredicate W.current =
      conjoinOption (s.predicates.toList ++ q :: s.extracted W.current) := by
    rw [mergedPredicate_narrowed]
    cases s.predicates <;> rfl
  rw [Warehouse.Builds, build_isOk]
  simp only [IcebergTableScan.builder, hmerged, binds_conjoinOption]
  rfl

theorem mem_narrowed {x : Predicate} :
    x ∈ (s.predicates.toList ++ q :: s.extracted W.current).map Predicate.rewriteNot ↔
      x = q.rewriteNot ∨ x ∈ (s.parts W.current).map Predicate.rewriteNot := by
  rw [(List.perm_middle.map Predicate.rewriteNot).mem_iff, List.map_cons, List.mem_cons]
  rfl

/-- **A further predicate** that is not FALSE lets a scan build exactly when the scan builds without it and
the predicate binds, or is not looked at. -/
theorem builds_narrowed_iff (hq : q.rewriteNot ≠ .alwaysFalse) :
    W.Builds (s.withAdditionalStaticPredicate q) ↔
      W.Builds s ∧ (W.DecidedFalse s ∨ W.Accepts s q) := by
  have hall : ∀ schema, (.alwaysFalse ∈
        (s.predicates.toList ++ q :: s.extracted W.current).map Predicate.rewriteNot ∨
      ∀ p ∈ (s.predicates.toList ++ q :: s.extracted W.current).map Predicate.rewriteNot,
        p.Binds W.parsers schema) ↔
      W.DecidedFalse s ∨ q.rewriteNot.Binds W.parsers schema ∧
        ∀ p ∈ (s.parts W.current).map Predicate.rewriteNot, p.Binds W.parsers schema := by
    intro schema
    simp only [mem_narrowed, hq.symm, false_or, forall_eq_or_imp]
    rfl
  rw [builds_narrowed, builds_iff, Warehouse.BindsAll, Warehouse.BindsAll]
  simp only [hall]
  constructor
  · intro ⟨t, ht, h⟩
    refine ⟨⟨t, ht, fun snapshot schema hpair => ?_⟩, ?_⟩
    · obtain ⟨hnames, hbinds⟩ := h snapshot schema hpair
      exact ⟨hnames, hbinds.imp id fun hbinds => hbinds.2⟩
    · by_cases hfalse : W.DecidedFalse s
      · exact .inl hfalse
      · right
        intro snapshot schema hresolve
        have hpair : t = some (snapshot, schema) := Except.ok.inj (ht.symm.trans hresolve)
        exact ((h snapshot schema hpair).2.resolve_left hfalse).1
  · intro ⟨⟨t, ht, h⟩, hq'⟩
    refine ⟨t, ht, fun snapshot schema hpair => ?_⟩
    obtain ⟨hnames, hbinds⟩ := h snapshot schema hpair
    refine ⟨hnames, ?_⟩
    rcases hq' with hfalse | haccepts
    · exact .inl hfalse
    · rcases hbinds with hfalse | hbinds
      · exact .inl hfalse
      · exact .inr ⟨haccepts snapshot schema (by rw [ht, hpair]), hbinds⟩

theorem decidedFalse_iff : W.DecidedFalse s ↔
    ∃ p, s.mergedPredicate W.current = some p ∧ p.rewriteNot = .alwaysFalse := by
  rw [Warehouse.DecidedFalse, ← Predicate.conjoin_eq_alwaysFalse, ← Predicate.rewriteNot_conjoin,
    mergedPredicate_eq]
  cases s.parts W.current with
  | nil => simp [conjoinOption, Predicate.conjoin, Predicate.rewriteNot]
  | cons p ps => simp [conjoinOption]

/-- A further predicate that is not FALSE leaves the filter as decided as it was. -/
theorem decidedFalse_narrowed (hq : q.rewriteNot ≠ .alwaysFalse) :
    W.DecidedFalse (s.withAdditionalStaticPredicate q) ↔ W.DecidedFalse s := by
  rw [decidedFalse_iff, mergedPredicate_narrowed]
  simp only [Option.some.injEq, exists_eq_left']
  rw [Predicate.rewriteNot_conjoin, Predicate.conjoin_eq_alwaysFalse, mem_narrowed]
  simp only [hq.symm, false_or]
  rfl

/-! ### Reading with a further predicate -/

variable (W) in
/-- A conjunct that fails on no row group of the file. -/
structure Warehouse.Takes (b : BoundPredicate) (f : DataFile) : Prop where
  rowFilter : ∀ row, ∃ t, b.rowFilter (W.present f) row = .ok t
  rowSelection : ∀ g ∈ W.rowGroups f, rowSelection (W.present f) g.columnIndex b = true

theorem rowFilter_conjoin {present : String → Bool} (bs : List BoundPredicate) :
    (∀ row, ∃ t, (BoundPredicate.conjoin bs).rowFilter present row = .ok t) ↔
      .alwaysFalse ∈ bs ∨ ∀ b ∈ bs, ∀ row, ∃ t, b.rowFilter present row = .ok t := by
  refine BoundPredicate.conjoin_splits (P := fun b => ∀ row, ∃ t, b.rowFilter present row = .ok t)
    (fun _ => ⟨_, rfl⟩) (fun _ => ⟨_, rfl⟩) (fun b c => ?_) bs
  rw [← forall_and]
  refine forall_congr' fun row => ?_
  show (∃ t, filterBoth _ (b.rowFilter present row) (c.rowFilter present row) = .ok t) ↔ _
  cases b.rowFilter present row <;> cases c.rowFilter present row <;> simp [filterBoth]

theorem rowSelection_conjoin {present : String → Bool} {index : String → ColumnIndex}
    (bs : List BoundPredicate) : rowSelection present index (.conjoin bs) = true ↔
      .alwaysFalse ∈ bs ∨ ∀ b ∈ bs, rowSelection present index b = true := by
  refine BoundPredicate.conjoin_splits (P := fun b => rowSelection present index b = true)
    rfl rfl (fun b c => ?_) bs
  rw [rowSelection, Bool.and_eq_true]

/-- **A conjunct that a file takes** does not stop the file from being read. -/
theorem filters_insert (hW : W.PrunesMore) {f : DataFile} {bs cs : List BoundPredicate}
    {b : BoundPredicate} (hread : W.prunesFile (.conjoin (bs ++ cs)) f = true ∨
      W.Filters (.conjoin (bs ++ cs)) f) (hb : W.Takes b f) :
    W.prunesFile (.conjoin (bs ++ b :: cs)) f = true ∨ W.Filters (.conjoin (bs ++ b :: cs)) f := by
  have hperm : (bs ++ b :: cs).Perm (b :: (bs ++ cs)) := List.perm_middle
  have hsub : bs ++ cs ⊆ bs ++ b :: cs := fun x hx => hperm.mem_iff.mpr (List.mem_cons_of_mem b hx)
  have hinsert : ∀ {P : BoundPredicate → Prop}, P b → (.alwaysFalse ∈ bs ++ cs ∨ ∀ x ∈ bs ++ cs, P x) →
      .alwaysFalse ∈ bs ++ b :: cs ∨ ∀ x ∈ bs ++ b :: cs, P x := by
    intro P hPb h
    refine h.imp (fun hfalse => hsub hfalse) fun h x hx => ?_
    rcases List.mem_cons.mp (hperm.mem_iff.mp hx) with rfl | hx
    · exact hPb
    · exact h x hx
  rcases hread with hprune | ⟨hfilter, hselection⟩
  · exact .inl (hW.file _ _ f hsub hprune)
  · right
    constructor
    · rw [rowFilter_conjoin] at hfilter ⊢
      exact hinsert hb.rowFilter hfilter
    · intro g hg
      rcases hselection g hg with hprune | hselection
      · exact .inl (hW.rowGroup _ _ g hsub hprune)
      · right
        rw [rowSelection_conjoin] at hselection ⊢
        exact hinsert (hb.rowSelection g hg) hselection

/-- What the filter of a scan that builds is bound to. -/
theorem bound_of_binds {schema : Schema} {ps : List Predicate}
    (h : ∀ p ∈ ps.map Predicate.rewriteNot, p.Binds W.parsers schema) :
    ∃ bs, List.Forall₂ (fun p b => p.bind W.parsers schema = .ok b) (ps.map Predicate.rewriteNot) bs := by
  induction ps with
  | nil => exact ⟨[], .nil⟩
  | cons p ps ih =>
      rw [List.map_cons, List.forall_mem_cons] at h
      obtain ⟨b, hb⟩ := h.1
      obtain ⟨bs, hbs⟩ := ih h.2
      exact ⟨b :: bs, .cons hb hbs⟩

theorem bindFilter_eq {parsers : TextParsers} {schema : Schema} {p : Predicate} {b : BoundPredicate}
    (h : p.bind parsers schema = .ok b) : bindFilter parsers schema (some p) = .ok (some b) := by
  rw [bindFilter, h]

/-- The bound conjunction of a scan's predicates prunes a file or can be used on it; a scan without
predicates counts as filtered by TRUE. -/
theorem Warehouse.Runs.reads_file (hs : W.Runs s) {snapshot : Snapshot} {schema : Schema}
    (hresolve : W.resolve s.table s.snapshotId = .ok (some (snapshot, schema))) {b : BoundPredicate}
    (hb : (Predicate.conjoin (s.parts W.current)).rewriteNot.bind W.parsers schema = .ok b)
    {f : DataFile} (hf : f ∈ snapshot.files) : W.prunesFile b f = true ∨ W.Filters b f := by
  cases hparts : s.parts W.current with
  | nil =>
      rw [hparts] at hb
      obtain rfl := Except.ok.inj hb
      exact .inr ⟨fun _ => ⟨_, rfl⟩, fun _ _ => .inr rfl⟩
  | cons p ps =>
      obtain ⟨ctx, hbuild, rfl, hbind⟩ := exists_context hs.1 hresolve
      have hfilter : (s.builder W.current).filter =
          some (Predicate.conjoin (s.parts W.current)).rewriteNot := by
        show (s.mergedPredicate W.current).map Predicate.rewriteNot = _
        rw [mergedPredicate_eq, hparts]
        rfl
      rw [hfilter, bindFilter_eq hb] at hbind
      exact hs.2 ctx b hbuild (Except.ok.inj hbind).symm f hf

/-- What the filter of a narrowed scan is bound to, as a conjunction. -/
theorem bind_narrowed {schema : Schema} {b : BoundPredicate}
    (h : bindFilter W.parsers schema ((s.withAdditionalStaticPredicate q).builder W.current).filter =
      .ok (some b)) :
    (Predicate.conjoin ((s.predicates.toList ++ q :: s.extracted W.current).map
      Predicate.rewriteNot)).bind W.parsers schema = .ok b := by
  have hfilter : ((s.withAdditionalStaticPredicate q).builder W.current).filter =
      some (Predicate.conjoin (s.predicates.toList ++ q :: s.extracted W.current)).rewriteNot := by
    show ((s.withAdditionalStaticPredicate q).mergedPredicate W.current).map _ = _
    rw [mergedPredicate_narrowed]
    rfl
  rw [hfilter, bindFilter] at h
  rw [← Predicate.rewriteNot_conjoin]
  split at h
  · cases h
  · rename_i b' hb'
    rw [hb', Option.some.inj (Except.ok.inj h)]

/-- A conjunction with a part that is FALSE is bound to FALSE. -/
theorem bind_conjoin_alwaysFalse (parsers : TextParsers) (schema : Schema) {ps : List Predicate}
    (h : .alwaysFalse ∈ ps) : (Predicate.conjoin ps).bind parsers schema = .ok .alwaysFalse := by
  rw [Predicate.conjoin_eq_alwaysFalse.mpr h]
  rfl

/-- **A scan that runs still runs with a further predicate** that binds and that its files take. -/
theorem runs_narrowed (hW : W.PrunesMore) (hs : W.Runs s) (hq : q.rewriteNot ≠ .alwaysFalse)
    (haccepts : W.DecidedFalse s ∨ W.Accepts s q)
    (htakes : ∀ snapshot schema b, W.resolve s.table s.snapshotId = .ok (some (snapshot, schema)) →
      q.rewriteNot.bind W.parsers schema = .ok b → ∀ f ∈ snapshot.files, W.Takes b f) :
    W.Runs (s.withAdditionalStaticPredicate q) := by
  refine ⟨(builds_narrowed_iff hq).mpr ⟨hs.1, haccepts⟩, ?_⟩
  intro ctx b' hbuild hpredicate f hf
  obtain ⟨schema, hresolve, hbind⟩ := of_build_eq_some hbuild
  rw [hpredicate] at hbind
  have hb' := bind_narrowed hbind
  by_cases hfalse : W.DecidedFalse s
  · -- the filter was FALSE and still is
    have hmem := mem_narrowed.mpr (.inr hfalse : _ = q.rewriteNot ∨ _)
    have hnarrowed := bind_conjoin_alwaysFalse W.parsers schema hmem
    obtain rfl : BoundPredicate.alwaysFalse = b' := Except.ok.inj (hnarrowed.symm.trans hb')
    refine hs.reads_file hresolve ?_ hf
    rw [Predicate.rewriteNot_conjoin]
    exact bind_conjoin_alwaysFalse W.parsers schema hfalse
  · obtain ⟨t, ht, hall⟩ := builds_iff.mp hs.1
    have hpair : t = some (ctx.snapshot, schema) := Except.ok.inj (ht.symm.trans hresolve)
    have hparts := (hall _ _ hpair).2.resolve_left hfalse
    rw [IcebergTableScan.parts, List.map_append] at hparts
    obtain ⟨bs, hbs⟩ := bound_of_binds fun p hp => hparts p (List.mem_append_left _ hp)
    obtain ⟨cs, hcs⟩ := bound_of_binds fun p hp => hparts p (List.mem_append_right _ hp)
    obtain ⟨b, hb⟩ := haccepts.resolve_left hfalse ctx.snapshot schema hresolve
    have hold := Predicate.bind_conjoin (List.rel_append hbs hcs)
    have hnew := Predicate.bind_conjoin (List.rel_append hbs (.cons hb hcs))
    rw [List.map_append, List.map_cons, hnew] at hb'
    rw [← Except.ok.inj hb']
    refine filters_insert hW (hs.reads_file hresolve ?_ hf)
      (htakes ctx.snapshot schema b hresolve hb f hf)
    rw [Predicate.rewriteNot_conjoin, IcebergTableScan.parts, List.map_append]
    exact hold

end

end IcebergDb.Scan
