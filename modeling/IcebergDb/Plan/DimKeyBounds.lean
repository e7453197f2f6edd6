import IcebergDb.Foundation.Extremum
import IcebergDb.Scan.PartitionRead

/-!
# Plan-time join-key constraints

`dim_key_bounds.rs`: while a query is planned, the key column of a filtered dimension is read and
summarised by a `JoinKeyConstraint`, and the summaries are memoised for the life of the process.

* `planTimeJoinKeyConstraint` — the summary of what a scan reads: nothing, a range, or a list;
* `JoinKeyConstraint.Admits` — the values a constraint lets through;
* `planTime_admits` — **a fresh summary admits every non-null key that was read**;
* `displayPredicate` — the text of a predicate, which the memo key contains;
* `Planner` — commits and planning calls over one memo table; `answersComplete_of_faithfulKeys` says
  when a memoised summary is as good as a fresh one.
-/

namespace IcebergDb.Plan

open IcebergDb.Expr IcebergDb.Scan IcebergDb.Extremum

/-- `MAX_PLAN_TIME_DIM_ROWS`. -/
def maxPlanTimeDimRows : ℕ := 512 * 1024

/-- `MAX_INLIST_VALUES`. -/
def maxInlistValues : ℕ := 131072

/-- `JoinKeyConstraint`. -/
inductive JoinKeyConstraint where
  | range (lo hi : Datum)
  | inList (values : List Datum)
deriving DecidableEq

/-- The constraint lets a value through. -/
def JoinKeyConstraint.Admits : JoinKeyConstraint → Value → Prop
  | .range lo hi, v => Predicate.evalBinary .greaterThanOrEq v lo.value = some true ∧
      Predicate.evalBinary .lessThanOrEq v hi.value = some true
  | .inList values, v => ∃ d ∈ values, Predicate.evalBinary .eq v d.value = some true

instance (c : JoinKeyConstraint) (v : Value) : Decidable (c.Admits v) :=
  match c with
  | .range _ _ => inferInstanceAs (Decidable (_ ∧ _))
  | .inList _ => inferInstanceAs (Decidable (∃ _ ∈ _, _))

/-- The Arrow type a column is read as; `other` stands for the types whose scalars have no datum
(decimals, times, fixed-size binaries). -/
inductive ArrowType where
  | boolean
  | int32
  | int64
  | float32
  | float64
  | utf8
  | largeUtf8
  | binary
  | largeBinary
  | date32
  | timestampMicrosecond (tz : Option String)
  | timestampNanosecond (tz : Option String)
  | other (name : String)

/-- `ScalarValue::try_from_array` at a non-null position; `none` if the array cannot hold the value.
Of a scalar of another type only the type is kept. -/
def ArrowType.scalar : ArrowType → Value → Option ScalarValue
  | .boolean, .boolean b => some (.boolean (some b))
  | .int32, .integer i => some (.int32 (some i))
  | .int64, .integer i => some (.int64 (some i))
  | .float32, .float f => some (.float32 (some f))
  | .float64, .float f => some (.float64 (some f))
  | .utf8, .str s => some (.utf8 (some s))
  | .largeUtf8, .str s => some (.largeUtf8 (some s))
  | .binary, .bytes b => some (.binary (some b))
  | .largeBinary, .bytes b => some (.largeBinary (some b))
  | .date32, .date d => some (.date32 (some d))
  | .timestampMicrosecond tz, .micros t => some (.timestampMicrosecond (some t) tz)
  | .timestampNanosecond tz, .nanos t => some (.timestampNanosecond (some t) tz)
  | .other name, _ => some (.other name none)
  | _, _ => none

/-- The datum of a cell, as `collect_distinct_from_array` makes it. -/
def ArrowType.datum (ty : ArrowType) (v : Value) : Option Datum :=
  (ty.scalar v).bind scalarValueToDatum

/-- One cell of `collect_distinct_from_array`: NULLs and values without a datum are skipped. -/
def insertCell (ty : ArrowType) (distinct : List Datum) (cell : Option NativeValue) : List Datum :=
  match cell.bind fun v => ty.datum v.1 with
  | some d => if d ∈ distinct then distinct else distinct ++ [d]
  | none => distinct

/-- `collect_distinct_from_array`. -/
def collectDistinctFromArray (ty : ArrowType) (distinct : List Datum)
    (array : List (Option NativeValue)) : List Datum :=
  array.foldl (insertCell ty) distinct

/-- The loop over the record batches: it gives up when too many rows have been read. -/
def collectBatches (ty : ArrowType) : ℕ → List Datum → List (List (Option NativeValue)) →
    Option (List Datum)
  | _, distinct, [] => some distinct
  | rowsRead, distinct, batch :: batches =>
      if batch.length = 0 then collectBatches ty rowsRead distinct batches
      else if rowsRead + batch.length > maxPlanTimeDimRows then none
      else collectBatches ty (rowsRead + batch.length)
        (collectDistinctFromArray ty distinct batch) batches

/-- The comparison of `min_datum` and `max_datum`: incomparable datums count as equal. -/
def cmpDatum (a b : Datum) : Ordering := (a.partialCmp b).getD .eq

/-- `datum_as_i64`: the datums held as `Int` or `Long`. -/
def datumAsI64 : Datum → Option ℤ
  | .int v | .long v | .date v | .time v | .timestamp v | .timestamptz v | .timestampNs v
  | .timestamptzNs v => some v
  | _ => none

/-- Saturation at the ends of an `i64`. -/
def saturateI64 (v : ℤ) : ℤ := max (-2 ^ 63) (min v (2 ^ 63 - 1))

/-- `range_is_selective`. -/
def rangeIsSelective (lo hi : Datum) (distinct : ℕ) : Bool :=
  match datumAsI64 lo, datumAsI64 hi with
  | some l, some h =>
      if h < l then false
      else decide ((saturateI64 (saturateI64 (h - l) + 1)).toNat ≤ saturatingMul distinct 4)
  | _, _ => false

/-- `plan_time_join_key_constraint`, given what the environment answered: the planned tasks, the key
column of the batches read, its Arrow type, and the order in which the hash set is iterated. -/
def planTimeJoinKeyConstraint (predicates : Option Predicate) (tasks : List FileScanTask)
    (batches : List (List (Option NativeValue))) (ty : ArrowType)
    (iter : List Datum → List Datum) : Option JoinKeyConstraint :=
  if tasks.isEmpty then none
  else
    let totalRows := (tasks.filterMap FileScanTask.recordCount).sum
    if predicates.isNone && (totalRows == 0 || decide (totalRows > maxPlanTimeDimRows)) then none
    else match collectBatches ty 0 [] batches with
      | none => none
      | some distinct =>
        let values := iter distinct
        match minBy cmpDatum values, maxBy cmpDatum values with
        | some lo, some hi =>
            if rangeIsSelective lo hi values.length then some (.range lo hi)
            else if values.length ≤ maxInlistValues then some (.inList values)
            else none
        -- `distinct` is empty
        | _, _ => none

/-! ### A fresh summary admits what was read -/

theorem mem_insertCell {ty : ArrowType} {d : Datum} (distinct : List Datum) (cell : Option NativeValue) :
    d ∈ insertCell ty distinct cell ↔ d ∈ distinct ∨ ∃ v, cell = some v ∧ ty.datum v.1 = some d := by
  have hcell : (∃ v, cell = some v ∧ ty.datum v.1 = some d) ↔
      (cell.bind fun v => ty.datum v.1) = some d := Option.bind_eq_some_iff.symm
  rw [hcell, insertCell]
  cases cell.bind fun v => ty.datum v.1 with
  | none => simp
  | some e =>
      by_cases he : e ∈ distinct
      · simp only [if_pos he, Option.some.injEq]
        refine ⟨.inl, ?_⟩
        rintro (h | rfl)
        · exact h
        · exact he
      · simp only [if_neg he, List.mem_append, List.mem_singleton, Option.some.injEq, @eq_comm _ d e]

theorem mem_collectDistinctFromArray {ty : ArrowType} {d : Datum} (array : List (Option NativeValue)) :
    ∀ distinct : List Datum, d ∈ collectDistinctFromArray ty distinct array ↔
      d ∈ distinct ∨ ∃ v : NativeValue, some v ∈ array ∧ ty.datum v.1 = some d := by
  induction array with
  | nil =>
      intro distinct
      simp [collectDistinctFromArray]
  | cons cell array ih =>
      intro distinct
      show d ∈ collectDistinctFromArray ty (insertCell ty distinct cell) array ↔ _
      rw [ih, mem_insertCell, or_assoc]
      simp only [List.mem_cons, or_and_right, exists_or, @eq_comm _ cell]

/-- What the loop collects: the datums of the non-null cells of all batches. -/
theorem mem_collectBatches {ty : ArrowType} {d : Datum} (batches : List (List (Option NativeValue))) :
    ∀ (rowsRead : ℕ) (distinct out : List Datum), collectBatches ty rowsRead distinct batches = some out →
      (d ∈ out ↔ d ∈ distinct ∨ ∃ v : NativeValue, some v ∈ batches.flatten ∧ ty.datum v.1 = some d) := by
  induction batches with
  | nil =>
      intro rowsRead distinct out h
      obtain rfl := Option.some.inj h
      simp
  | cons batch batches ih =>
      intro rowsRead distinct out h
      rw [collectBatches] at h
      simp only [List.flatten_cons, List.mem_append]
      split at h
      · rename_i hempty
        rw [ih _ _ _ h, List.length_eq_zero_iff.mp hempty]
        simp
      · split at h
        · cases h
        · rw [ih _ _ _ h, mem_collectDistinctFromArray, or_assoc]
          constructor
          · rintro (h | ⟨v, hv, hd⟩ | ⟨v, hv, hd⟩)
            · exact .inl h
            · exact .inr ⟨v, .inl hv, hd⟩
            · exact .inr ⟨v, .inr hv, hd⟩
          · rintro (h | ⟨v, hv | hv, hd⟩)
            · exact .inl h
            · exact .inr (.inl ⟨v, hv, hd⟩)
            · exact .inr (.inr ⟨v, hv, hd⟩)

/-- What the cells of one column become. -/
theorem ArrowType.exists_scalar {ty : ArrowType} {v : Value} {d : Datum} (h : ty.datum v = some d) :
    ∃ s, ty.scalar v = some s ∧ scalarValueToDatum s = some d :=
  Option.bind_eq_some_iff.mp h

theorem ArrowType.datum_value {ty : ArrowType} {v : Value} {d : Datum} (h : ty.datum v = some d) :
    d.value = v := by
  obtain ⟨s, hs, hd⟩ := ty.exists_scalar h
  cases ty <;> cases v <;> cases hs <;> cases hd <;> rfl

/-- The datums of one column compare with each other. -/
theorem ArrowType.partialCmp_isSome {ty : ArrowType} {v w : Value} {d e : Datum}
    (hd : ty.datum v = some d) (he : ty.datum w = some e) : ∃ o, d.partialCmp e = some o := by
  obtain ⟨s, hs, hd⟩ := ty.exists_scalar hd
  obtain ⟨t, ht, he⟩ := ty.exists_scalar he
  cases ty <;> cases v <;> cases hs <;> cases hd <;> cases w <;> cases ht <;> cases he <;>
    exact ⟨_, rfl⟩

/-- A list of datums that all compare with each other. -/
def MutuallyComparable (l : List Datum) : Prop := ∀ a ∈ l, ∀ b ∈ l, ∃ o, a.partialCmp b = some o

/-- Where all datums compare, the comparison of `min_datum` is the comparison of values. -/
theorem MutuallyComparable.cmpDatum_eq {l : List Datum} (h : MutuallyComparable l) {a b : Datum} (ha : a ∈ l)
    (hb : b ∈ l) : a.value.ordering b.value = some (cmpDatum a b) := by
  obtain ⟨o, ho⟩ := h a ha b hb
  rw [cmpDatum, ho, Option.getD_some]
  exact Datum.partialCmp_value ho

/-- The comparison is a total preorder on such datums. -/
theorem MutuallyComparable.preorderOn {l : List Datum} (h : MutuallyComparable l) : PreorderOn cmpDatum l where
  refl a ha := by
    have hself := h.cmpDatum_eq ha ha
    rw [(Value.ordering_eq_iff _ _).mpr rfl] at hself
    rw [← Option.some.inj hself]
    decide
  total a ha b hb hgt := by
    have hswap := Value.ordering_swap a.value b.value
    rw [h.cmpDatum_eq ha hb, h.cmpDatum_eq hb ha, hgt] at hswap
    rw [Option.some.inj hswap]
    decide
  trans a ha b hb c hc hab hbc := by
    obtain ⟨o, ho, hle⟩ :=
      Value.ordering_trans (h.cmpDatum_eq ha hb) hab (h.cmpDatum_eq hb hc) hbc
    rw [h.cmpDatum_eq ha hc] at ho
    rwa [Option.some.inj ho]

/-- A list of datums of one column. -/
def OfColumn (ty : ArrowType) (l : List Datum) : Prop := ∀ d ∈ l, ∃ v, ty.datum v = some d

theorem OfColumn.comparable {ty : ArrowType} {l : List Datum} (h : OfColumn ty l) : MutuallyComparable l := by
  intro a ha b hb
  obtain ⟨v, hv⟩ := h a ha
  obtain ⟨w, hw⟩ := h b hb
  exact ty.partialCmp_isSome hv hw

/-- Where one cell of a column has a datum, all have. -/
theorem ArrowType.exists_datum {ty : ArrowType} {u v : Value} {d : Datum} (hu : ty.datum u = some d)
    (hv : (ty.scalar v).isSome = true) : ∃ e, ty.datum v = some e := by
  obtain ⟨s, hs, hd⟩ := ty.exists_scalar hu
  cases ty <;> cases u <;> cases hs <;> cases hd <;> cases v <;> cases hv <;> exact ⟨_, rfl⟩

/-- The answers of `plan_time_join_key_constraint`: the range or the list of what was collected, and
something was. -/
theorem planTimeJoinKeyConstraint_cases {predicates : Option Predicate} {tasks : List FileScanTask}
    {batches : List (List (Option NativeValue))} {ty : ArrowType} {iter : List Datum → List Datum}
    {c : JoinKeyConstraint} (h : planTimeJoinKeyConstraint predicates tasks batches ty iter = some c) :
    ∃ distinct lo hi, collectBatches ty 0 [] batches = some distinct ∧
      minBy cmpDatum (iter distinct) = some lo ∧ maxBy cmpDatum (iter distinct) = some hi ∧
      (c = .range lo hi ∨ c = .inList (iter distinct)) := by
  rw [planTimeJoinKeyConstraint] at h
  split at h
  · cases h
  simp only at h
  split at h
  · cases h
  split at h
  · cases h
  rename_i distinct hdistinct
  split at h
  · rename_i lo hi hlo hhi
    refine ⟨distinct, lo, hi, hdistinct, hlo, hhi, ?_⟩
    split at h
    · exact .inl (Option.some.inj h).symm
    · split at h
      · exact .inr (Option.some.inj h).symm
      · cases h
  · cases h

/-- The range from the least to the greatest datum admits each of them. -/
theorem MutuallyComparable.range_admits {l : List Datum} (h : MutuallyComparable l) {lo hi d : Datum}
    (hlo : minBy cmpDatum l = some lo) (hhi : maxBy cmpDatum l = some hi) (hd : d ∈ l) :
    (JoinKeyConstraint.range lo hi).Admits d.value := by
  obtain ⟨hlo, hmin⟩ := minBy_spec h.preorderOn hlo
  obtain ⟨hhi, hmax⟩ := maxBy_spec h.preorderOn hhi
  constructor
  · show (d.value.ordering lo.value).bind (PredicateOperator.greaterThanOrEq.test) = some true
    have hle := hmin d hd
    rw [Value.ordering_swap, h.cmpDatum_eq hlo hd, Option.map_some, Option.bind_some]
    revert hle
    cases cmpDatum lo d <;> decide
  · show (d.value.ordering hi.value).bind (PredicateOperator.lessThanOrEq.test) = some true
    have hle := hmax d hd
    rw [h.cmpDatum_eq hd hhi, Option.bind_some]
    revert hle
    cases cmpDatum d hi <;> decide

/-- A list admits the values of its datums. -/
theorem inList_admits {l : List Datum} {d : Datum} (hd : d ∈ l) :
    (JoinKeyConstraint.inList l).Admits d.value := by
  refine ⟨d, hd, ?_⟩
  show (d.value.ordering d.value).bind (PredicateOperator.eq.test) = some true
  rw [(Value.ordering_eq_iff _ _).mpr rfl]
  rfl

/-- **A fresh summary admits every non-null key that was read.** -/
theorem planTime_admits {predicates : Option Predicate} {tasks : List FileScanTask}
    {batches : List (List (Option NativeValue))} {ty : ArrowType} {iter : List Datum → List Datum}
    (hiter : ∀ l, (iter l).Perm l)
    (hty : ∀ v : NativeValue, some v ∈ batches.flatten → (ty.scalar v.1).isSome = true)
    {c : JoinKeyConstraint} (h : planTimeJoinKeyConstraint predicates tasks batches ty iter = some c)
    {v : NativeValue} (hv : some v ∈ batches.flatten) : c.Admits v.1 := by
  obtain ⟨distinct, lo, hi, hcollect, hlo, hhi, hc⟩ := planTimeJoinKeyConstraint_cases h
  have hmem : ∀ d, d ∈ iter distinct ↔
      ∃ u : NativeValue, some u ∈ batches.flatten ∧ ty.datum u.1 = some d := by
    intro d
    rw [(hiter distinct).mem_iff, mem_collectBatches batches 0 [] distinct hcollect]
    simp only [List.not_mem_nil, false_or]
  have hcolumn : OfColumn ty (iter distinct) := by
    intro d hd
    obtain ⟨u, -, hu⟩ := (hmem d).mp hd
    exact ⟨u.1, hu⟩
  -- the column has datums, since `lo` is one; so the value read has one too
  obtain ⟨u, hu⟩ := hcolumn lo (minBy_spec hcolumn.comparable.preorderOn hlo).1
  obtain ⟨d, hd⟩ := ty.exists_datum hu (hty v hv)
  have hdmem : d ∈ iter distinct := (hmem d).mpr ⟨v, hv, hd⟩
  rw [← ty.datum_value hd]
  rcases hc with rfl | rfl
  · exact hcolumn.comparable.range_admits hlo hhi hdmem
  · exact inList_admits hdmem

/-! ### The memo key -/

/-- Two upper-case hexadecimal digits. -/
def hexByte (b : Fin 256) : String :=
  String.ofList [(Nat.digitChar (b.val / 16)).toUpper, (Nat.digitChar (b.val % 16)).toUpper]

/-- `impl Display for Datum`.  Strings stand between quotes, as they are; `render` is the text of the
kinds that other crates print. -/
def displayDatum (render : Datum → String) : Datum → String
  | .boolean v => if v then "true" else "false"
  | .int v | .long v => toString v
  | .string v => "\"" ++ v ++ "\""
  | .fixed v | .binary v => String.join (v.map hexByte)
  | d => render d

/-- `impl Display for PredicateOperator`. -/
def displayOperator : PredicateOperator → String
  | .isNull => "IS NULL"
  | .notNull => "IS NOT NULL"
  | .isNan => "IS NAN"
  | .notNan => "IS NOT NAN"
  | .lessThan => "<"
  | .lessThanOrEq => "<="
  | .greaterThan => ">"
  | .greaterThanOrEq => ">="
  | .eq => "="
  | .notEq => "!="
  | .isIn => "IN"
  | .notIn => "NOT IN"
  | .startsWith => "STARTS WITH"
  | .notStartsWith => "NOT STARTS WITH"

/-- `impl Display for Predicate`. -/
def displayPredicate (render : Datum → String) : Predicate → String
  | .alwaysTrue => "TRUE"
  | .alwaysFalse => "FALSE"
  | .andExpr l r => "(" ++ displayPredicate render l ++ ") AND (" ++ displayPredicate render r ++ ")"
  | .orExpr l r => "(" ++ displayPredicate render l ++ ") OR (" ++ displayPredicate render r ++ ")"
  | .notExpr p => "NOT (" ++ displayPredicate render p ++ ")"
  | .unary op t => t ++ " " ++ displayOperator op
  | .binary op t d => t ++ " " ++ displayOperator op ++ " " ++ displayDatum render d
  | .set op t ds => t ++ " " ++ displayOperator op ++ " (" ++
      String.intercalate ", " (ds.map (displayDatum render)) ++ ")"

/-- `ConstraintCacheKey`. -/
structure ConstraintCacheKey where
  uuid : ℕ
  snapshotId : Option ℤ
  predicateRepr : String
  keyColumn : String
deriving DecidableEq

/-- `cache_key`. -/
def cacheKey (render : Datum → String) (scan : IcebergTableScan) (keyColumn : String) :
    ConstraintCacheKey where
  uuid := scan.table.uuid
  snapshotId := scan.snapshotId
  predicateRepr := (scan.predicates.map (displayPredicate render)).getD ""
  keyColumn := keyColumn

/-- The process-global memo table. -/
abbrev ConstraintCache := ConstraintCacheKey → Option (Option JoinKeyConstraint)

/-- What the environment answers to one plan-time read. -/
structure PlanTimeRead where
  tasks : List FileScanTask
  batches : List (List (Option NativeValue))
  ty : ArrowType
  iter : List Datum → List Datum

/-- `compute_join_key_constraint`: the answer (`none` when the read failed) and the memo table after
the call.  A failed read is not memoised. -/
def computeJoinKeyConstraint (render : Datum → String) (cache : ConstraintCache)
    (scan : IcebergTableScan) (keyColumn : String) (read : Option PlanTimeRead) :
    Option (Option JoinKeyConstraint) × ConstraintCache :=
  let key := cacheKey render scan keyColumn
  match cache key with
  | some cached => (some cached, cache)
  | none =>
    match read with
    | none => (none, cache)
    | some r =>
      let constraint := planTimeJoinKeyConstraint scan.predicates r.tasks r.batches r.ty r.iter
      (some constraint, Function.update cache key (some constraint))

/-! ### Commits and planning calls -/

/-- A planning call that was answered. -/
structure Call where
  scan : IcebergTableScan
  keyColumn : String
  answer : Option JoinKeyConstraint

/-- The answer lets through every non-null key of the rows that the scan will return. -/
def Call.Complete (call : Call) : Prop :=
  ∀ c, call.answer = some c → ∀ row ∈ call.scan.tableRows, optTrueOn call.scan.predicates row →
    ∀ v, row call.keyColumn = some v → c.Admits v.1

/-- The process and the catalog: the current metadata of each table, the versions it replaced, the
memo table and the calls answered so far. -/
structure Planner where
  catalog : ℕ → Table
  history : List Table
  cache : ConstraintCache
  calls : List Call

/-- What can happen next. -/
inductive PlannerEvent where
  | commit (uuid : ℕ) (snapshot : Snapshot)
  | plan (scan : IcebergTableScan) (keyColumn : String) (read : Option PlanTimeRead)

/-- The metadata after a commit: the new snapshot is the current one. -/
def commitSnapshot (t : Table) (snapshot : Snapshot) : Table :=
  { t with
    currentSnapshotId := some snapshot.snapshotId
    snapshots := t.snapshots ++ [snapshot] }

/-- The state after an event. -/
def Planner.after (render : Datum → String) (s : Planner) : PlannerEvent → Planner
  | .commit uuid snapshot =>
      { s with
        catalog := Function.update s.catalog uuid (commitSnapshot (s.catalog uuid) snapshot)
        history := s.catalog uuid :: s.history }
  | .plan scan keyColumn read =>
      match computeJoinKeyConstraint render s.cache scan keyColumn read with
      | (some answer, cache) => { s with cache := cache, calls := ⟨scan, keyColumn, answer⟩ :: s.calls }
      | (none, cache) => { s with cache := cache }

/-- A version of a table's metadata that was current at some time. -/
def Planner.Version (s : Planner) (t : Table) : Prop := t = s.catalog t.uuid ∨ t ∈ s.history

/-- The scans that the providers create: the catalog-backed one loads the current metadata and names
no snapshot, a static one holds any version and names a snapshot of it or none. -/
inductive Planner.Fresh (s : Planner) (scan : IcebergTableScan) : Prop where
  | catalogBacked (table : scan.table = s.catalog scan.table.uuid) (snapshot : scan.snapshotId = none)
  | static (table : s.Version scan.table)
      (snapshot : ∀ id, scan.snapshotId = some id → (scan.table.snapshotById id).isSome = true)

/-- The rows of the files that are not pruned, as the reader returns them. -/
def readRows (pruned : Option Predicate → DataFile → Bool) (scan : IcebergTableScan) : List Row :=
  ((scan.files.filter fun f => !pruned scan.predicates f).flatMap DataFile.rows).filter
    fun row => decide (optTrueOn scan.predicates row)

/-- What a plan-time read of a scan can answer. -/
structure IsRead (pruned : Option Predicate → DataFile → Bool) (scan : IcebergTableScan)
    (keyColumn : String) (r : PlanTimeRead) : Prop where
  tasks : IsPlan scan pruned scan.predicates r.tasks
  batches : r.batches.flatten.Perm ((readRows pruned scan).map fun row => row keyColumn)
  ty : ∀ v : NativeValue, some v ∈ r.batches.flatten → (r.ty.scalar v.1).isSome = true
  iter : ∀ l, (r.iter l).Perm l

/-- The events that a state allows.  A commit brings a snapshot id the table does not have yet. -/
def Planner.Enabled (pruned : Option Predicate → DataFile → Bool) (s : Planner) : PlannerEvent → Prop
  | .commit uuid snapshot => (s.catalog uuid).snapshotById snapshot.snapshotId = none
  | .plan scan keyColumn read => s.Fresh scan ∧ ∀ r, read = some r → IsRead pruned scan keyColumn r

/-- The condition on a planning call: every earlier call under its memo key had its predicate, and
its current snapshot if no snapshot is named. -/
def Planner.MeetsCondition (render : Datum → String) (s : Planner) : PlannerEvent → Prop
  | .commit _ _ => True
  | .plan scan keyColumn _ => ∀ call ∈ s.calls,
      cacheKey render call.scan call.keyColumn = cacheKey render scan keyColumn →
        call.scan.predicates = scan.predicates ∧
          (scan.snapshotId = none → call.scan.table.currentSnapshotId = scan.table.currentSnapshotId)

section

variable (render : Datum → String) (pruned : Option Predicate → DataFile → Bool)

/-- One step of a run. -/
def Planner.Step (s s' : Planner) : Prop := ∃ e, s.Enabled pruned e ∧ s' = s.after render e

/-- One step of a run that meets the condition. -/
def Planner.SafeStep (s s' : Planner) : Prop :=
  ∃ e, s.Enabled pruned e ∧ s.MeetsCondition render e ∧ s' = s.after render e

end

/-- The start of a process over a catalog. -/
def Planner.start (catalog : ℕ → Table) : Planner where
  catalog := catalog
  history := []
  cache := fun _ => none
  calls := []

/-- The current snapshot is one of the snapshots. -/
def CurrentExists (t : Table) : Prop :=
  ∀ id, t.currentSnapshotId = some id → (t.snapshotById id).isSome = true

/-- Every snapshot of `t` is a snapshot of `t'`, unchanged. -/
def Grows (t t' : Table) : Prop :=
  ∀ id snapshot, t.snapshotById id = some snapshot → t'.snapshotById id = some snapshot

/-! ### Snapshots never change -/

theorem snapshotById_commitSnapshot (t : Table) (snapshot : Snapshot) (id : ℤ) :
    (commitSnapshot t snapshot).snapshotById id =
      (t.snapshotById id).or (if snapshot.snapshotId = id then some snapshot else none) := by
  show (t.snapshots ++ [snapshot]).find? _ = _
  rw [List.find?_append, List.find?_singleton]
  simp only [beq_iff_eq]
  rfl

theorem grows_commitSnapshot (t : Table) (snapshot : Snapshot) : Grows t (commitSnapshot t snapshot) := by
  intro id old hold
  rw [snapshotById_commitSnapshot, hold, Option.some_or]

theorem currentExists_commitSnapshot (t : Table) (snapshot : Snapshot) :
    CurrentExists (commitSnapshot t snapshot) := by
  intro id hid
  obtain rfl : snapshot.snapshotId = id := Option.some.inj hid
  rw [snapshotById_commitSnapshot, if_pos rfl, Option.isSome_or, Option.isSome_some, Bool.or_true]

/-- Two versions that both grew into `t` have the same snapshot under an id that both know. -/
theorem snapshotById_eq_of_grows {t t₁ t₂ : Table} (h₁ : Grows t₁ t) (h₂ : Grows t₂ t) {id : ℤ}
    (hid₁ : (t₁.snapshotById id).isSome = true) (hid₂ : (t₂.snapshotById id).isSome = true) :
    t₁.snapshotById id = t₂.snapshotById id := by
  obtain ⟨x, hx⟩ := Option.isSome_iff_exists.mp hid₁
  obtain ⟨y, hy⟩ := Option.isSome_iff_exists.mp hid₂
  have hxy : some x = some y := (h₁ id x hx).symm.trans (h₂ id y hy)
  rw [hx, hy, hxy]

theorem tableRows_congr {scan scan' : IcebergTableScan} (h : scan.snapshot = scan'.snapshot) :
    scan.tableRows = scan'.tableRows := by
  unfold IcebergTableScan.tableRows IcebergTableScan.files
  rw [h]

/-- Every row that a scan keeps is read: pruning is sound. -/
theorem mem_readRows {pruned : Option Predicate → DataFile → Bool}
    (hprune : ∀ (pred : Option Predicate) (f : DataFile), pruned pred f = true →
      ∀ row ∈ f.rows, ¬ optTrueOn pred row)
    {scan : IcebergTableScan} {row : Row} (hrow : row ∈ scan.tableRows)
    (hkeep : optTrueOn scan.predicates row) : row ∈ readRows pruned scan := by
  obtain ⟨f, hf, hfrow⟩ := List.mem_flatMap.mp hrow
  refine List.mem_filter.mpr ⟨List.mem_flatMap.mpr ⟨f, List.mem_filter.mpr ⟨hf, ?_⟩, hfrow⟩, ?_⟩
  · cases hp : pruned scan.predicates f with
    | false => rfl
    | true => exact absurd hkeep (hprune _ f hp row hfrow)
  · exact decide_eq_true hkeep

/-- **A call that reads is complete.** -/
theorem IsRead.complete {pruned : Option Predicate → DataFile → Bool}
    (hprune : ∀ (pred : Option Predicate) (f : DataFile), pruned pred f = true →
      ∀ row ∈ f.rows, ¬ optTrueOn pred row)
    {scan : IcebergTableScan} {keyColumn : String} {r : PlanTimeRead}
    (h : IsRead pruned scan keyColumn r) :
    Call.Complete ⟨scan, keyColumn,
      planTimeJoinKeyConstraint scan.predicates r.tasks r.batches r.ty r.iter⟩ := by
  intro c hc row hrow hkeep v hv
  refine planTime_admits h.iter h.ty hc (h.batches.mem_iff.mpr ?_)
  exact List.mem_map.mpr ⟨row, mem_readRows hprune hrow hkeep, hv⟩

/-! ### Whole runs -/

/-- What a run keeps. -/
structure PlannerInv (render : Datum → String) (s : Planner) : Prop where
  uuid : ∀ u, (s.catalog u).uuid = u
  current : ∀ t, s.Version t → CurrentExists t
  grows : ∀ t, s.Version t → Grows t (s.catalog t.uuid)
  versions : ∀ call ∈ s.calls, s.Version call.scan.table
  named : ∀ call ∈ s.calls, ∀ id, call.scan.snapshotId = some id →
    (call.scan.table.snapshotById id).isSome = true
  cached : ∀ key r, s.cache key = some r →
    ∃ call ∈ s.calls, cacheKey render call.scan call.keyColumn = key ∧ call.answer = r
  complete : ∀ call ∈ s.calls, call.Complete

section

variable {render : Datum → String} {pruned : Option Predicate → DataFile → Bool}

theorem plannerInv_start {catalog : ℕ → Table} (huuid : ∀ u, (catalog u).uuid = u)
    (hcurrent : ∀ u, CurrentExists (catalog u)) : PlannerInv render (.start catalog) where
  uuid := huuid
  current t ht := by
    rcases ht with ht | ht
    · rw [ht]
      exact hcurrent t.uuid
    · exact absurd ht List.not_mem_nil
  grows t ht := by
    rcases ht with ht | ht
    · intro id snapshot hid
      rwa [ht] at hid
    · exact absurd ht List.not_mem_nil
  versions _ hcall := absurd hcall List.not_mem_nil
  named _ hcall := absurd hcall List.not_mem_nil
  cached _ _ h := by cases h
  complete _ hcall := absurd hcall List.not_mem_nil

/-- After a commit the versions are those before it and the new metadata. -/
theorem Planner.version_commit {s : Planner} (huuid : ∀ u, (s.catalog u).uuid = u) (u : ℕ)
    (snapshot : Snapshot) (t : Table) : (s.after render (.commit u snapshot)).Version t ↔
      s.Version t ∨ t = commitSnapshot (s.catalog u) snapshot := by
  show t = Function.update s.catalog u _ t.uuid ∨ t ∈ s.catalog u :: s.history ↔ _
  by_cases ht : t.uuid = u
  · subst ht
    rw [Function.update_self, List.mem_cons, Planner.Version]
    tauto
  · rw [Function.update_of_ne ht, List.mem_cons, Planner.Version]
    have hne : t ≠ s.catalog u := fun h => ht (h ▸ huuid u)
    have hne' : t ≠ commitSnapshot (s.catalog u) snapshot := fun h => ht (h ▸ huuid u)
    tauto

/-- The invariant holds after a commit. -/
theorem PlannerInv.commit {s : Planner} (h : PlannerInv render s) (u : ℕ) (snapshot : Snapshot) :
    PlannerInv render (s.after render (.commit u snapshot)) where
  uuid v := by
    show (Function.update s.catalog u (commitSnapshot (s.catalog u) snapshot) v).uuid = v
    by_cases hv : v = u
    · subst hv
      rw [Function.update_self]
      exact h.uuid v
    · rw [Function.update_of_ne hv]
      exact h.uuid v
  current t ht := by
    rcases (Planner.version_commit h.uuid u snapshot t).mp ht with ht | rfl
    · exact h.current t ht
    · exact currentExists_commitSnapshot _ _
  grows t ht := by
    show Grows t (Function.update s.catalog u (commitSnapshot (s.catalog u) snapshot) t.uuid)
    rcases (Planner.version_commit h.uuid u snapshot t).mp ht with hold | rfl
    · by_cases hu : t.uuid = u
      · subst hu
        rw [Function.update_self]
        exact fun id old hid => grows_commitSnapshot _ _ id old (h.grows t hold id old hid)
      · rw [Function.update_of_ne hu]
        exact h.grows t hold
    · have hu : (commitSnapshot (s.catalog u) snapshot).uuid = u := h.uuid u
      rw [hu, Function.update_self]
      exact fun _ _ hold => hold
  versions call hcall :=
    (Planner.version_commit h.uuid u snapshot _).mpr (.inl (h.versions call hcall))
  named := h.named
  cached := h.cached
  complete := h.complete

/-- A fresh scan holds a version and names a snapshot of it or none. -/
theorem Planner.Fresh.spec {s : Planner} {scan : IcebergTableScan} (h : s.Fresh scan) :
    s.Version scan.table ∧
      ∀ id, scan.snapshotId = some id → (scan.table.snapshotById id).isSome = true := by
  cases h with
  | catalogBacked htable hsnapshot =>
      refine ⟨.inl htable, ?_⟩
      intro id hid
      rw [hsnapshot] at hid
      cases hid
  | static htable hsnapshot => exact ⟨htable, hsnapshot⟩

/-- **Two scans of one table that name the same snapshot, or the same current one, read the same
rows.** -/
theorem PlannerInv.tableRows_eq {s : Planner} (h : PlannerInv render s) {scan scan' : IcebergTableScan}
    (hv : s.Version scan.table) (hv' : s.Version scan'.table)
    (hn : ∀ id, scan.snapshotId = some id → (scan.table.snapshotById id).isSome = true)
    (hn' : ∀ id, scan'.snapshotId = some id → (scan'.table.snapshotById id).isSome = true)
    (huuid : scan.table.uuid = scan'.table.uuid) (hid : scan.snapshotId = scan'.snapshotId)
    (hcurrent : scan'.snapshotId = none →
      scan.table.currentSnapshotId = scan'.table.currentSnapshotId) :
    scan.tableRows = scan'.tableRows := by
  apply tableRows_congr
  have hgrows := h.grows _ hv
  rw [huuid] at hgrows
  have hgrows' := h.grows _ hv'
  unfold IcebergTableScan.snapshot
  cases hs : scan'.snapshotId with
  | some id =>
      rw [hid, hs]
      exact snapshotById_eq_of_grows hgrows hgrows' (hn id (hid.trans hs)) (hn' id hs)
  | none =>
      rw [hid, hs]
      show scan.table.currentSnapshotId.bind _ = scan'.table.currentSnapshotId.bind _
      have hcur := hcurrent hs
      cases hc : scan'.table.currentSnapshotId with
      | none =>
          rw [hcur, hc]
          rfl
      | some id =>
          rw [hcur, hc]
          exact snapshotById_eq_of_grows hgrows hgrows' (h.current _ hv id (hcur.trans hc))
            (h.current _ hv' id hc)

/-- **A hit under the condition is complete.** -/
theorem PlannerInv.complete_of_hit {s : Planner} (h : PlannerInv render s) {scan : IcebergTableScan}
    {keyColumn : String} {read : Option PlanTimeRead} (hfresh : s.Fresh scan)
    (hc : s.MeetsCondition render (.plan scan keyColumn read)) {answer : Option JoinKeyConstraint}
    (hhit : s.cache (cacheKey render scan keyColumn) = some answer) :
    Call.Complete ⟨scan, keyColumn, answer⟩ := by
  obtain ⟨call, hcall, hkey, rfl⟩ := h.cached _ _ hhit
  obtain ⟨hpred, hcurrent⟩ := hc call hcall hkey
  obtain ⟨hv, hn⟩ := hfresh.spec
  have hrows := h.tableRows_eq (h.versions call hcall) hv (h.named call hcall) hn
    (congrArg ConstraintCacheKey.uuid hkey) (congrArg ConstraintCacheKey.snapshotId hkey) hcurrent
  have hcolumn : call.keyColumn = keyColumn := congrArg ConstraintCacheKey.keyColumn hkey
  intro c hanswer row hrow hkeep v hval
  refine h.complete call hcall c hanswer row ?_ ?_ v ?_
  · rwa [hrows]
  · rwa [hpred]
  · rwa [hcolumn]

/-- The invariant holds after a new call that is complete. -/
theorem PlannerInv.answered {s : Planner} (h : PlannerInv render s) {scan : IcebergTableScan}
    {keyColumn : String} (hfresh : s.Fresh scan) {answer : Option JoinKeyConstraint}
    {cache : ConstraintCache} (hcomplete : Call.Complete ⟨scan, keyColumn, answer⟩)
    (hcache : ∀ key r, cache key = some r →
      s.cache key = some r ∨ (key = cacheKey render scan keyColumn ∧ r = answer)) :
    PlannerInv render { s with cache := cache, calls := ⟨scan, keyColumn, answer⟩ :: s.calls } where
  uuid := h.uuid
  current := h.current
  grows := h.grows
  versions call hcall := by
    rcases List.mem_cons.mp hcall with rfl | hcall
    · exact hfresh.spec.1
    · exact h.versions call hcall
  named call hcall := by
    rcases List.mem_cons.mp hcall with rfl | hcall
    · exact hfresh.spec.2
    · exact h.named call hcall
  cached key r hkey := by
    rcases hcache key r hkey with hold | ⟨rfl, rfl⟩
    · obtain ⟨call, hcall, hcallKey⟩ := h.cached key r hold
      exact ⟨call, List.mem_cons_of_mem _ hcall, hcallKey⟩
    · exact ⟨_, List.mem_cons_self, rfl, rfl⟩
  complete call hcall := by
    rcases List.mem_cons.mp hcall with rfl | hcall
    · exact hcomplete
    · exact h.complete call hcall

/-- The invariant holds after a planning call that meets the condition. -/
theorem PlannerInv.plan
    (hprune : ∀ (pred : Option Predicate) (f : DataFile), pruned pred f = true →
      ∀ row ∈ f.rows, ¬ optTrueOn pred row)
    {s : Planner} (h : PlannerInv render s) {scan : IcebergTableScan} {keyColumn : String}
    {read : Option PlanTimeRead} (he : s.Enabled pruned (.plan scan keyColumn read))
    (hc : s.MeetsCondition render (.plan scan keyColumn read)) :
    PlannerInv render (s.after render (.plan scan keyColumn read)) := by
  obtain ⟨hfresh, hread⟩ := he
  simp only [Planner.after, computeJoinKeyConstraint]
  cases hcache : s.cache (cacheKey render scan keyColumn) with
  | some answer => exact h.answered hfresh (h.complete_of_hit hfresh hc hcache) fun _ _ hk => .inl hk
  | none =>
      cases read with
      | none => exact h
      | some r =>
          refine h.answered hfresh ((hread r rfl).complete hprune) ?_
          intro key c hkey
          by_cases hk : key = cacheKey render scan keyColumn
          · subst hk
            rw [Function.update_self] at hkey
            exact .inr ⟨rfl, (Option.some.inj hkey).symm⟩
          · rw [Function.update_of_ne hk] at hkey
            exact .inl hkey

end

/-- A one-column row. -/
def keyRow (v : NativeValue) : Row := fun column => if column = "k" then some v else none

/-- A snapshot of one file whose rows have the given keys. -/
def keySnapshot (id : ℤ) (keys : List NativeValue) : Snapshot where
  snapshotId := id
  totalRecords := none
  files := [{ filePath := toString id, fileSizeInBytes := 10, recordCount := some keys.length,
              rows := keys.map keyRow }]

/-- A table with one snapshot. -/
def keyTable (uuid : ℕ) (keys : List NativeValue) : Table where
  uuid := uuid
  currentSnapshotId := some 1
  snapshots := [keySnapshot 1 keys]

/-- The scan that the catalog-backed provider creates for a filter. -/
def keyScan (table : Table) (predicate : Predicate) : IcebergTableScan where
  table := table
  snapshotId := none
  tableSchema := ["k"]
  projection := none
  predicates := some predicate
  physicalFilters := []
  limit := none
  scanPartitions := 1

/-- The read of a snapshot of which the filter keeps the given keys. -/
def keyRead (ty : ArrowType) (snapshot : Snapshot) (keys : List NativeValue) : PlanTimeRead where
  tasks := snapshot.files.map DataFile.task
  batches := [keys.map some]
  ty := ty
  iter := id

/-- An integer key. -/
def intKey (i : ℤ) : NativeValue := ⟨.integer i, rfl⟩

/-- A string key. -/
def strKey (s : String) : NativeValue := ⟨.str s, rfl⟩

/-- The filter `k > 0`. -/
def positiveKey : Predicate := .binary .greaterThan "k" (.long 0)

/-- What a read of one file answers. -/
theorem isRead_keyRead {uuid : ℕ} {predicate : Predicate} {ty : ArrowType} {keys kept : List NativeValue}
    (hkept : (readRows (fun _ _ => false) (keyScan (keyTable uuid keys) predicate)).map
      (fun row => row "k") = kept.map some)
    (hty : ∀ v ∈ kept, (ty.scalar v.1).isSome = true) :
    IsRead (fun _ _ => false) (keyScan (keyTable uuid keys) predicate) "k"
      (keyRead ty (keySnapshot 1 keys) kept) where
  tasks := .refl _
  batches := by
    rw [hkept]
    exact .of_eq (List.append_nil _)
  ty v hv := by
    have hmem : some v ∈ kept.map some ++ [] := hv
    rw [List.append_nil] at hmem
    obtain ⟨w, hw, heq⟩ := List.mem_map.mp hmem
    rw [← Option.some.inj heq]
    exact hty w hw
  iter _ := .refl _

/-- The filter `k IN (..)` on strings. -/
def stringKeyIn (literals : List String) : Predicate := .set .isIn "k" (literals.map .string)

/-- Two filters with one text: a single literal that contains a quote, a comma and a quote prints like
two literals.  The second call is answered for the first filter, and the key `a` is not admitted. -/
theorem exists_run_collision :
    ∃ s : Planner, Relation.ReflTransGen (Planner.Step (fun _ => "") (fun _ _ => false))
        (.start fun u => keyTable u [strKey "a", strKey "a\", \"b"]) s ∧
      ∃ call ∈ s.calls, ¬ call.Complete := by
  refine ⟨_, .head ⟨.plan (keyScan (keyTable 0 [strKey "a", strKey "a\", \"b"])
      (stringKeyIn ["a\", \"b"])) "k"
      (some (keyRead .utf8 (keySnapshot 1 [strKey "a", strKey "a\", \"b"]) [strKey "a\", \"b"])),
      ⟨.catalogBacked rfl rfl, ?_⟩, rfl⟩ <|
    .head ⟨.plan (keyScan (keyTable 0 [strKey "a", strKey "a\", \"b"]) (stringKeyIn ["a", "b"]))
      "k" none, ⟨.catalogBacked rfl rfl, fun _ h => by cases h⟩, rfl⟩ .refl,
    _, List.mem_cons_self, ?_⟩
  · rintro r ⟨⟩
    exact isRead_keyRead rfl (by decide)
  · intro h
    have hadmits := h (.inList [.string "a\", \"b"]) (by decide) (keyRow (strKey "a"))
      List.mem_cons_self (by decide) (strKey "a") (by decide)
    exact absurd hadmits (by decide)

end IcebergDb.Plan
