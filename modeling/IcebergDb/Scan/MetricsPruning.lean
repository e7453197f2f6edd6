import IcebergDb.Expr.ColumnMetrics

/-!
# Pruning by metrics

Data files are ruled out by the metrics in their manifest entry, row groups by the statistics in the footer
of the file.

* `DataFileMetrics`, `inclusiveMetricsEval` — `InclusiveMetricsEvaluator`;
* `Statistics`, `parquetStatAsDatum` — the minimum or maximum of a column chunk as a datum of the field's
  type, where the two physical and logical types go together;
* `RowGroupMetaData`, `rowGroupMetricsEval` — `RowGroupMetricsEvaluator`;
* `inclusiveMetricsEval_keeps`, `rowGroupMetricsEval_keeps` — **what is ruled out has no row that the row
  filter would keep**.
-/

namespace IcebergDb.Scan

open IcebergDb.Expr

/-! ### Data files -/

/-- The metrics of a `DataFile`, by field id. -/
structure DataFileMetrics where
  recordCount : ℕ
  valueCounts : ℤ → Option ℕ
  nullValueCounts : ℤ → Option ℕ
  nanValueCounts : ℤ → Option ℕ
  lowerBounds : ℤ → Option Datum
  upperBounds : ℤ → Option Datum

/-- The metrics of one column. -/
def DataFileMetrics.column (f : DataFileMetrics) (fieldId : ℤ) : ColumnMetrics where
  valueCount := f.valueCounts fieldId
  nullCount := f.nullValueCounts fieldId
  nanCount := f.nanValueCounts fieldId
  lowerBound := .ok (f.lowerBounds fieldId)
  upperBound := .ok (f.upperBounds fieldId)

/-- `is_nan` of `InclusiveMetricsEvaluator`. -/
def DataFileMetrics.mayHaveNan (f : DataFileMetrics) (fieldId : ℤ) : Bool :=
  match f.nanValueCounts fieldId with
  | some 0 => false
  | _ => !(f.column fieldId).containsNullsOnly

variable (fieldId : FieldRef → ℤ)

/-- `InclusiveMetricsEvaluator::eval`. -/
def inclusiveMetricsEval (filter : BoundPredicate) (f : DataFileMetrics) (includeEmptyFiles : Bool) :
    Except VisitError Bool :=
  if !includeEmptyFiles && f.recordCount == 0 then .ok false
  else visit (boundsVisitor (fun r => f.column (fieldId r)) fun r => f.mayHaveNan (fieldId r)) filter

/-- What the metrics of a file say is true of its rows, for one field: its counts and bounds are those of the
column, the bounds have the type of the field, and a column that the file does not have has none. -/
structure DataFileMetrics.DescribesField (f : DataFileMetrics) (present : String → Bool) (rows : List Row)
    (r : FieldRef) : Prop where
  cells : present r.field.name = true →
    (f.column (fieldId r)).Describes (rows.map fun row => row r.field.name)
  absent : present r.field.name = false → (f.column (fieldId r)).Unknown
  typed : ∀ b, f.lowerBounds (fieldId r) = some b ∨ f.upperBounds (fieldId r) = some b →
    r.field.fieldType = .primitive b.primitiveType

/-- What is asked of a row: no NaN in a tested column of the file. -/
def NanFree (present : String → Bool) (row : Row) (p : BoundPredicate) : Prop :=
  ∀ r ∈ p.fields, present r.field.name = true → cellIsNan (row r.field.name) = false

/-- The predicate does not ask for NaN. -/
def AsksNoNan (p : BoundPredicate) : Prop := ∀ r, .unary .isNan r ∉ p.leaves

section

variable {fieldId} {present : String → Bool} {rows : List Row} {row : Row} {p : BoundPredicate}

/-- Literals of the field's type compare with bounds of the field's type. -/
theorem comparable_of_typed {m : ColumnMetrics} {t : FieldType} {l : BoundLiteral} (hl : l.OfType t)
    (hm : ∀ b, m.lowerBound = .ok (some b) ∨ m.upperBound = .ok (some b) → t = .primitive b.primitiveType) :
    m.Comparable l := by
  intro d hd b hb
  refine Datum.partialCmp_isSome ?_
  have hbound := hm b hb
  rw [hl d hd] at hbound
  exact (FieldType.primitive.inj hbound).symm

/-- The leaves of a typed predicate fit, if the metrics of its fields do. -/
theorem leafFits_of_fields (present : String → Bool) (row : Row) (column : FieldRef → ColumnMetrics)
    (htyped : p.Typed) (hnan : AsksNoNan p)
    (hcovers : ∀ r ∈ p.fields, Covers present row column r)
    (hbounds : ∀ r ∈ p.fields, ∀ b, (column r).lowerBound = .ok (some b) ∨
      (column r).upperBound = .ok (some b) → r.field.fieldType = .primitive b.primitiveType) :
    ∀ b ∈ p.leaves, LeafFits present row column b := by
  intro b hb
  have hfield := BoundPredicate.mem_fields hb
  have htype := htyped.of_mem hb
  cases b with
  | unary op r =>
      refine ⟨hcovers r (hfield r List.mem_cons_self), ?_⟩
      rintro rfl
      exact hnan r hb
  | binary op r l =>
      have hr := hfield r List.mem_cons_self
      exact ⟨hcovers r hr, comparable_of_typed htype (hbounds r hr)⟩
  | set op r ls =>
      have hr := hfield r List.mem_cons_self
      exact ⟨hcovers r hr, fun l hl => comparable_of_typed (htype l hl) (hbounds r hr)⟩
  | _ => trivial

/-- **A data file that is ruled out has no row that passes the row filter.** -/
theorem inclusiveMetricsEval_keeps (hp : p.NotFree) (htyped : p.Typed) (hask : AsksNoNan p)
    {f : DataFileMetrics} (hrecords : f.recordCount = rows.length)
    (hfields : ∀ r ∈ p.fields, f.DescribesField fieldId present rows r) (includeEmptyFiles : Bool)
    (hruled : inclusiveMetricsEval fieldId p f includeEmptyFiles = .ok false) (hrow : row ∈ rows)
    (hnan : NanFree present row p) : ¬ p.Passes present row := by
  intro hpass
  unfold inclusiveMetricsEval at hruled
  split at hruled
  · rename_i hempty
    rw [Bool.and_eq_true, beq_iff_eq, hrecords] at hempty
    have := List.length_pos_of_mem hrow
    omega
  · have hleaves := leafFits_of_fields present row (fun r => f.column (fieldId r)) htyped hask ?_ ?_
    · exact absurd (boundsVisitor_keeps hp hleaves hruled hpass) Bool.false_ne_true
    · intro r hr
      refine ⟨(hfields r hr).absent, ?_, hnan r hr⟩
      intro hpresent
      exact ⟨_, (hfields r hr).cells hpresent, List.mem_map_of_mem hrow⟩
    · intro r hr b hb
      exact (hfields r hr).typed b (hb.imp Except.ok.inj Except.ok.inj)

/-- The column `id`. -/
def idRef : FieldRef := ⟨true, ⟨"id", .primitive .int, true⟩, true⟩

/-- A row with `id = 3`. -/
def rowThree : Row := fun name => if name = "id" then some ⟨.integer 3, rfl⟩ else none

/-- The filter `id > 10`. -/
def aboveTen : BoundPredicate := .binary .greaterThan idRef (.datum (.int 10))

/-- The metrics of a file with that row: `id` from 1 to 5. -/
def oneRowFile : DataFileMetrics where
  recordCount := 1
  valueCounts _ := some 1
  nullValueCounts _ := some 0
  nanValueCounts _ := none
  lowerBounds _ := some (.int 1)
  upperBounds _ := some (.int 5)

/-- Counts of one row without NULL, and bounds around 3. -/
theorem describes_rowThree {m : ColumnMetrics} (hvalues : m.valueCount = some 1) (hnulls : m.nullCount = some 0)
    (hnans : m.nanCount = none) (hlower : m.lowerBound = .ok (some (.int 1)))
    (hupper : m.upperBound = .ok (some (.int 5))) : m.Describes [rowThree "id"] where
  valueCount := fun n hn => Option.some.inj (hn.symm.trans hvalues)
  nullCount := fun n hn => Option.some.inj (hn.symm.trans hnulls)
  nanCount := fun n hn => by cases hn.symm.trans hnans
  lower := by
    intro b hb v hv _
    cases hb.symm.trans hlower
    cases List.mem_singleton.mp hv
    exact ⟨.lt, by decide, by decide⟩
  upper := by
    intro b hb v hv _
    cases hb.symm.trans hupper
    cases List.mem_singleton.mp hv
    exact ⟨.lt, by decide, by decide⟩

theorem aboveTen_typed : aboveTen.Typed := by
  intro d hd
  cases hd
  rfl

theorem aboveTen_asksNoNan : AsksNoNan aboveTen := by
  intro r hr
  cases List.mem_singleton.mp hr

theorem nanFree_rowThree : NanFree (fun _ => true) rowThree aboveTen := by
  intro r hr _
  obtain rfl : r = idRef := List.mem_singleton.mp hr
  rfl

theorem inclusiveMetricsEval_keeps_aboveTen : ¬ aboveTen.Passes (fun _ => true) rowThree := by
  have hfields : ∀ r ∈ aboveTen.fields, oneRowFile.DescribesField (fun _ => 1) (fun _ => true) [rowThree] r := by
    intro r hr
    obtain rfl : r = idRef := List.mem_singleton.mp hr
    refine ⟨fun _ => describes_rowThree rfl rfl rfl rfl rfl, Bool.noConfusion, ?_⟩
    rintro b (hb | hb)
    · cases hb
      rfl
    · cases hb
      rfl
  exact inclusiveMetricsEval_keeps trivial aboveTen_typed aboveTen_asksNoNan rfl hfields false (by decide)
    (List.mem_singleton_self _) nanFree_rowThree

end

/-! ### Row groups -/

/-- A value of the statistics, by its physical type. -/
inductive StatValue where
  | boolean (v : Bool)
  | int32 (v : ℤ)
  | int64 (v : ℤ)
  | int96
  | float (place : ℤ)
  | double (place : ℤ)
  | byteArray (v : Bytes)
  | fixedLenByteArray (v : Bytes)

/-- `Statistics` of a column chunk. -/
structure Statistics where
  nullCount : Option ℕ
  min : Option StatValue
  max : Option StatValue

/-- An unsigned number, the most significant byte first. -/
def beUnsigned (bs : Bytes) : ℕ := bs.foldl (fun n b => n * 256 + b.val) 0

/-- A number in two's complement, the most significant byte first. -/
def beSigned (bs : Bytes) : ℤ :=
  match bs with
  | [] => 0
  | b :: _ => if 128 ≤ b.val then (beUnsigned bs : ℤ) - 256 ^ bs.length else beUnsigned bs

/-- `i128_from_be_bytes`: shorter numbers are extended by their sign. -/
def i128FromBeBytes (bs : Bytes) : Option ℤ := if 16 < bs.length then none else some (beSigned bs)

/-- `MAX_TIME_VALUE`. -/
def maxTimeValue : ℤ := 24 * 60 * 60 * 1000000 - 1

section

variable (utf8 : Bytes → Option String)

/-- What `get_parquet_stat_min_as_datum` does with the minimum, and `get_parquet_stat_max_as_datum` with the
maximum.  A pair of types that is not listed has no bound. -/
def parquetStatAsDatum (t : PrimitiveType) : Option StatValue → Except VisitError (Option Datum)
  | none => .ok none
  | some v =>
      match t, v with
      | .boolean, .boolean v => .ok (some (.boolean v))
      | .int, .int32 v => .ok (some (.int v))
      | .date, .int32 v => .ok (some (.date v))
      | .long, .int64 v => .ok (some (.long v))
      | .time, .int64 v =>
          if 0 ≤ v ∧ v ≤ maxTimeValue then .ok (some (.time v))
          else .error (.dataInvalid ("Invalid value for Time type: " ++ toString v))
      | .timestamp, .int64 v => .ok (some (.timestamp v))
      | .timestamptz, .int64 v => .ok (some (.timestamptz v))
      | .timestampNs, .int64 v => .ok (some (.timestampNs v))
      | .timestamptzNs, .int64 v => .ok (some (.timestamptzNs v))
      | .float, .float v => .ok (some (.float v))
      | .double, .double v => .ok (some (.double v))
      | .string, .byteArray v =>
          match utf8 v with
          | some s => .ok (some (.string s))
          | none => .error .external
      | .decimal p s, .byteArray v =>
          if v.length = 16 then .ok (some (.decimal (beSigned v) p s)) else .error .external
      | .decimal p s, .fixedLenByteArray v =>
          match i128FromBeBytes v with
          | some m => .ok (some (.decimal m p s))
          | none => .error (.dataInvalid "Can't convert bytes to i128")
      | .decimal p s, .int32 v => .ok (some (.decimal v p s))
      | .decimal p s, .int64 v => .ok (some (.decimal v p s))
      | .uuid, .fixedLenByteArray v =>
          if v.length = 16 then .ok (some (.uuid (beUnsigned v)))
          else .error (.unexpected "Invalid length of uuid bytes.")
      | .fixed len, .fixedLenByteArray v =>
          if v.length = len then .ok (some (.fixed v))
          else .error (.unexpected "Invalid length of fixed bytes.")
      | .binary, .byteArray v => .ok (some (.binary v))
      | _, _ => .ok none

/-- **The bound has the type of the field.** -/
theorem parquetStatAsDatum_type {t : PrimitiveType} {v : Option StatValue} {d : Datum}
    (h : parquetStatAsDatum utf8 t v = .ok (some d)) : t = d.primitiveType := by
  unfold parquetStatAsDatum at h
  split at h
  · cases h
  · split at h
    case h_5 =>
      split at h
      · cases h
        rfl
      · cases h
    case h_12 =>
      split at h
      · cases h
        rfl
      · cases h
    case h_13 =>
      split at h
      · cases h
        rfl
      · cases h
    case h_14 =>
      split at h
      · cases h
        rfl
      · cases h
    case h_17 =>
      split at h
      · cases h
        rfl
      · cases h
    case h_18 =>
      split at h
      · rename_i hlen
        cases h
        rw [← hlen]
        rfl
      · cases h
    all_goals
      cases h
      try rfl

/-- `RowGroupMetaData`, with the statistics of its columns. -/
structure RowGroupMetaData where
  numRows : ℕ
  compressedSize : ℕ
  statistics : ℕ → Option Statistics

/-- `stats_and_type_for_field_id` and the conversion of one of its values. -/
def statBound (fieldId : ℤ) (t : FieldType) (stats : Option Statistics) (value : Statistics → Option StatValue) :
    Except VisitError (Option Datum) :=
  match stats with
  | none => .ok none
  | some s =>
      match t with
      | .primitive t => parquetStatAsDatum utf8 t (value s)
      | .nested => .error (.unexpected
          ("Could not determine the PrimitiveType for field id '" ++ toString fieldId ++ "'"))

variable (fieldIdMap : ℤ → Option ℕ)

/-- `stats_for_field_id`. -/
def RowGroupMetaData.statsForFieldId (g : RowGroupMetaData) (fieldId : ℤ) : Option Statistics :=
  (fieldIdMap fieldId).bind g.statistics

/-- What is known about a column of a row group. -/
def RowGroupMetaData.column (g : RowGroupMetaData) (r : FieldRef) : ColumnMetrics :=
  let stats := g.statsForFieldId fieldIdMap (fieldId r)
  { valueCount := some g.numRows
    nullCount := stats.bind Statistics.nullCount
    nanCount := none
    lowerBound := statBound utf8 (fieldId r) r.field.fieldType stats Statistics.min
    upperBound := statBound utf8 (fieldId r) r.field.fieldType stats Statistics.max }

/-- `RowGroupMetricsEvaluator::eval`.  Footers do not count NaNs. -/
def rowGroupMetricsEval (filter : BoundPredicate) (g : RowGroupMetaData) : Except VisitError Bool :=
  if g.numRows = 0 then .ok false
  else visit (boundsVisitor (g.column fieldId utf8 fieldIdMap) fun _ => true) filter

variable {fieldId utf8 fieldIdMap} {present : String → Bool} {rows : List Row} {row : Row}
  {p : BoundPredicate}

theorem statBound_type {id : ℤ} {t : FieldType} {stats : Option Statistics}
    {value : Statistics → Option StatValue} {d : Datum} (h : statBound utf8 id t stats value = .ok (some d)) : t = .primitive d.primitiveType := by
  unfold statBound at h
  split at h
  · cases h
  · split at h
    · rw [parquetStatAsDatum_type utf8 h]
    · cases h

/-- **A row group that is ruled out has no row that passes the row filter.**  A file has a column exactly when
its field id is mapped; the bounds have the type of their field by construction. -/
theorem rowGroupMetricsEval_keeps (hp : p.NotFree) (htyped : p.Typed) (hask : AsksNoNan p)
    {g : RowGroupMetaData} (hrows : g.numRows = rows.length)
    (hfields : ∀ r ∈ p.fields, present r.field.name = true →
      (g.column fieldId utf8 fieldIdMap r).Describes (rows.map fun row => row r.field.name))
    (hpresent : ∀ r ∈ p.fields, present r.field.name = false → fieldIdMap (fieldId r) = none)
    (hruled : rowGroupMetricsEval fieldId utf8 fieldIdMap p g = .ok false) (hrow : row ∈ rows)
    (hnan : NanFree present row p) : ¬ p.Passes present row := by
  intro hpass
  unfold rowGroupMetricsEval at hruled
  split at hruled
  · have := List.length_pos_of_mem hrow
    omega
  · have hleaves := leafFits_of_fields present row (g.column fieldId utf8 fieldIdMap) htyped hask ?_ ?_
    · exact absurd (boundsVisitor_keeps hp hleaves hruled hpass) Bool.false_ne_true
    · intro r hr
      refine ⟨?_, ?_, hnan r hr⟩
      · intro hmissing
        have hstats : g.statsForFieldId fieldIdMap (fieldId r) = none := by
          rw [RowGroupMetaData.statsForFieldId, hpresent r hr hmissing]
          rfl
        exact ⟨by simp [RowGroupMetaData.column, hstats], rfl, by simp [RowGroupMetaData.column, hstats, statBound],
          by simp [RowGroupMetaData.column, hstats, statBound]⟩
      · intro hfound
        exact ⟨_, hfields r hr hfound, List.mem_map_of_mem hrow⟩
    · intro r hr b hb
      exact hb.elim statBound_type statBound_type

/-- The footer of a row group with the row. -/
def oneRowGroup : RowGroupMetaData := ⟨1, 100, fun _ => some ⟨some 0, some (.int32 1), some (.int32 5)⟩⟩

theorem rowGroupMetricsEval_keeps_aboveTen : ¬ aboveTen.Passes (fun _ => true) rowThree := by
  have hfields : ∀ r ∈ aboveTen.fields, true = true →
      (oneRowGroup.column (fun _ => 1) (fun _ => none) (fun _ => some 0) r).Describes
        ([rowThree].map fun row => row r.field.name) := by
    intro r hr _
    obtain rfl : r = idRef := List.mem_singleton.mp hr
    exact describes_rowThree rfl rfl rfl rfl rfl
  exact rowGroupMetricsEval_keeps trivial aboveTen_typed aboveTen_asksNoNan rfl hfields
    (fun _ _ h => nomatch h) (by decide) (List.mem_singleton_self _) nanFree_rowThree

end

end IcebergDb.Scan
