import IcebergDb.Expr.RowFilter

/-!
# Equality deletes

`caching_delete_file_loader.rs` turns an equality delete file into a predicate that live rows satisfy,
`delete_filter.rs` joins the predicates of all files, and the reader filters a data file with the result.

* `parseEqualityDeletes` — one negated conjunction per delete row, joined in a balanced tree;
* `buildEqualityDeletePredicate` — the conjunction over the files;
* `rowPasses` — what the reader does with a row: a filter that is not true drops it;
* `Deletes` — what equality deletes are for: a delete row equal to the row on every equality column, where
  null equals null only;
* the filter asks for a column that the row is *known* to differ in, and a null is not known to differ.  So
  the reader is right about a row exactly when the row is deleted, or differs from each delete row in a
  column where it is not null itself (`rowPasses_iff_not_deleted`).
-/

namespace IcebergDb.Delete

open IcebergDb.Expr

/-! ### Reading a delete file -/

/-- A column of a record batch: the cells of the column from top to bottom. -/
structure DeleteColumn where
  id : ℤ
  name : String
  fieldType : FieldType
  cells : List (Option Datum)

/-- A record batch: columns of one length. -/
structure RecordBatch where
  columns : List DeleteColumn
  numRows : ℕ
  cells_length : ∀ c ∈ columns, c.cells.length = numRows

/-- An equality delete file: the ids of its equality columns, and its batches. -/
structure EqualityDeleteFile where
  equalityIds : List ℤ
  batches : List RecordBatch

/-- `EqDelColumnProcessor`: the equality columns of primitive type. -/
def collectColumns (equalityIds : List ℤ) (batch : RecordBatch) : List DeleteColumn :=
  batch.columns.filter fun c => equalityIds.contains c.id && c.fieldType != .nested

/-- The test of one cell. -/
def cellPredicate (name : String) : Option Datum → Predicate
  | some d => .binary .eq name d
  | none => .unary .isNull name

/-- One pass of the inner loop over the columns: the next cell of each. -/
def rowPredicate (columns : List (String × List (Option Datum))) : Predicate :=
  columns.foldl (fun acc c =>
    match c.2 with
    | item :: _ => acc.and (cellPredicate c.1 item)
    | [] => acc) .alwaysTrue

/-- The lockstep loop, as often as the first column has cells: each row is negated and NOT-free. -/
def rowPredicates : ℕ → List (String × List (Option Datum)) → List Predicate
  | 0, _ => []
  | n + 1, columns =>
      (Predicate.notExpr (rowPredicate columns)).rewriteNot ::
        rowPredicates n (columns.map fun c => (c.1, c.2.tail))

/-- The predicates of one batch. -/
def batchPredicates (columns : List DeleteColumn) : List Predicate :=
  match columns with
  | [] => []
  | c :: cs => rowPredicates c.cells.length ((c :: cs).map fun c => (c.name, c.cells))

/-- One level of the balanced tree. -/
def pairUp : List Predicate → List Predicate
  | p :: q :: ps => p.and q :: pairUp ps
  | ps => ps

/-- The loop over the levels; each halves the number of predicates. -/
def balance : ℕ → List Predicate → Option Predicate
  | _, [] => none
  | _, [p] => some p
  | 0, p :: _ => some p
  | fuel + 1, ps => balance fuel (pairUp ps)

/-- The row predicates of a stream of batches; a batch without columns ends the parse. -/
def streamPredicates (equalityIds : List ℤ) : List RecordBatch → Option (List Predicate)
  | [] => some []
  | batch :: batches =>
      if batch.columns.isEmpty then none
      else (streamPredicates equalityIds batches).map
        (batchPredicates (collectColumns equalityIds batch) ++ ·)

/-- `parse_equality_deletes_record_batch_stream`. -/
def parseEqualityDeletes (file : EqualityDeleteFile) : Predicate :=
  match streamPredicates file.equalityIds file.batches with
  | none => .alwaysTrue
  | some ps => (balance ps.length ps).getD .alwaysTrue

/-! ### Filtering a data file -/

/-- The predicates of all files, joined. -/
def combineFiles (files : List EqualityDeleteFile) : Predicate :=
  files.foldl (fun combined file => combined.and (parseEqualityDeletes file)) .alwaysTrue

/-- The errors of filtering: the predicate does not bind, or the filter cannot be built. -/
inductive DeleteError where
  | bind (e : BindError)
  | filter (e : FilterError)

section

variable (parsers : TextParsers) (schema : Schema)

/-- `build_equality_delete_predicate`: no predicate if nothing is deleted. -/
def buildEqualityDeletePredicate (files : List EqualityDeleteFile) :
    Except DeleteError (Option BoundPredicate) :=
  let combined := combineFiles files
  if combined = .alwaysTrue then .ok none
  else match combined.bind parsers schema with
    | .error e => .error (.bind e)
    | .ok b => .ok (some b)

/-- The reader's verdict on a row of a data file that has the columns `present`. -/
def rowPasses (present : String → Bool) (files : List EqualityDeleteFile) (row : Row) :
    Except DeleteError Bool :=
  match buildEqualityDeletePredicate parsers schema files with
  | .error e => .error e
  | .ok none => .ok true
  | .ok (some b) =>
      match b.rowFilter present row with
      | .error e => .error (.filter e)
      | .ok v => .ok (v == some true)

end

/-! ### What is deleted -/

/-- The delete rows of a file: for each row of each batch the name and cell of every equality column. -/
def EqualityDeleteFile.rows (file : EqualityDeleteFile) : List (List (String × Option Datum)) :=
  file.batches.flatMap fun batch => (List.range batch.numRows).map fun i =>
    (batch.columns.filter fun c => file.equalityIds.contains c.id).map fun c =>
      (c.name, (c.cells[i]?).join)

/-- A cell of the data file equals a cell of a delete row; null equals null only. -/
def CellEquals (row : Row) (cell : String × Option Datum) : Prop :=
  (row cell.1).map Subtype.val = cell.2.map Datum.value

/-- Some delete row equals the row on all its equality columns. -/
def Deletes (files : List EqualityDeleteFile) (row : Row) : Prop :=
  ∃ file ∈ files, ∃ deleted ∈ file.rows, ∀ cell ∈ deleted, CellEquals row cell

/-! ### Typed files and rows -/

/-- What `evolve_schema` promises of a delete file: each batch has an equality column, and an equality column
is a primitive column of the table under its name, with cells of its type and no null where the table
requires a value. -/
structure FileTyped (schema : Schema) (file : EqualityDeleteFile) : Prop where
  nonempty : ∀ batch ∈ file.batches, ∃ c ∈ batch.columns, file.equalityIds.contains c.id = true
  typed : ∀ batch ∈ file.batches, ∀ c ∈ batch.columns, file.equalityIds.contains c.id = true →
    ∃ t required, c.fieldType = .primitive t ∧
      schema.fieldByName c.name = some ⟨true, ⟨c.name, .primitive t, required⟩, true⟩ ∧
      (∀ d, some d ∈ c.cells → d.primitiveType = t) ∧ (none ∈ c.cells → required = false)

/-- A row of a data file: a column that is missing from the file is null, and values have the type of
their column. -/
structure RowTyped (schema : Schema) (present : String → Bool) (row : Row) : Prop where
  present : ∀ name v, row name = some v → present name = true
  typed : ∀ name v t required, row name = some v →
    schema.fieldByName name = some ⟨true, ⟨name, .primitive t, required⟩, true⟩ →
    ∃ d : Datum, d.primitiveType = t ∧ v.1 = d.value

/-- A cell of a delete row against the table schema. -/
def CellTyped (schema : Schema) (cell : String × Option Datum) : Prop :=
  ∃ t required, schema.fieldByName cell.1 = some ⟨true, ⟨cell.1, .primitive t, required⟩, true⟩ ∧
    (∀ d, cell.2 = some d → d.primitiveType = t) ∧ (cell.2 = none → required = false)

/-- Values of one type compare. -/
theorem ordering_isSome {d e : Datum} (h : d.primitiveType = e.primitiveType) :
    (d.value.ordering e.value).isSome = true := by
  cases d <;> cases e <;> first | rfl | cases h

/-- A datum of the column's type is bound as it is. -/
theorem toPrimitive_self (parsers : TextParsers) (d : Datum) :
    d.toPrimitive parsers d.primitiveType = some (.datum d) := by
  cases d <;> simp [Datum.toPrimitive, Datum.literal, Datum.primitiveType]

/-- The condition of a cell that keeps a row: the row has a value there, and another one. -/
def KnownApart (row : Row) (cell : String × Option Datum) : Prop :=
  row cell.1 ≠ none ∧ ¬ CellEquals row cell

/-- The condition under which the test of a cell can be built. -/
def CellReadable (present : String → Bool) (cell : String × Option Datum) : Prop :=
  ∀ d, cell.2 = some d → present cell.1 = true → d.primitiveType.hasArrowDatum = true

section

variable {parsers : TextParsers} {schema : Schema} {present : String → Bool} {row : Row}

/-! ### The test of a cell -/

/-- A value of the column's type differs from a datum exactly when `!=` is true of them. -/
theorem evalBinary_notEq {d e : Datum} (h : e.primitiveType = d.primitiveType) :
    Predicate.evalBinary .notEq e.value d.value = some true ↔ e.value ≠ d.value := by
  show (e.value.ordering d.value).bind PredicateOperator.notEq.test = some true ↔ _
  obtain ⟨o, ho⟩ := Option.isSome_iff_exists.mp (ordering_isSome h)
  rw [ho, ne_eq, ← Value.ordering_eq_iff, ho]
  cases o <;> decide

/-- A null cell of a delete row: rows that have a value there are kept. -/
theorem knownApart_none {name : String} : KnownApart row (name, none) ↔ row name ≠ none := by
  unfold KnownApart CellEquals
  cases row name <;> simp

/-- A value of a delete row: rows that have another value there are kept. -/
theorem knownApart_some {name : String} {d : Datum} :
    KnownApart row (name, some d) ↔ ∃ v, row name = some v ∧ v.1 ≠ d.value := by
  unfold KnownApart CellEquals
  cases row name <;> simp

/-- A column that is missing from the data file is null. -/
theorem RowTyped.eq_none (hrow : RowTyped schema present row) {name : String}
    (habsent : present name = false) : row name = none := by
  cases hv : row name with
  | none => rfl
  | some v =>
      rw [hrow.present name v hv] at habsent
      cases habsent

/-- The test that a null cell of an optional column is negated to. -/
theorem filtersAs_notNull (hrow : RowTyped schema present row) {name : String} {t : PrimitiveType}
    (href : bindReference schema name = .ok ⟨true, ⟨name, .primitive t, false⟩, true⟩) :
    FiltersAs parsers schema present row (.unary .notNull name) True (row name ≠ none) := by
  refine ⟨⟨by simp, by simp⟩, .unary .notNull ⟨true, ⟨name, .primitive t, false⟩, true⟩, ?_,
    ⟨by simp, by simp⟩, fun _ => ?_, fun h => absurd trivial h⟩
  · simp [Predicate.bind, href, bindUnary]
  · cases hpresent : present name with
    | false =>
        refine ⟨some false, ?_, ?_⟩
        · simp [BoundPredicate.rowFilter, onColumn, hpresent, missingUnary]
        · simp [hrow.eq_none hpresent]
    | true =>
        refine ⟨some (row name).isSome, ?_, ?_⟩
        · simp [BoundPredicate.rowFilter, onColumn, hpresent, Predicate.evalUnary]
        · simp [Option.isSome_iff_ne_none]

/-- The test that a value of a delete row is negated to.  It needs an Arrow datum where the column is. -/
theorem filtersAs_notEq (hrow : RowTyped schema present row) {name : String} {d : Datum} {required : Bool}
    (hfield : schema.fieldByName name =
      some ⟨true, ⟨name, .primitive d.primitiveType, required⟩, true⟩)
    (href : bindReference schema name =
      .ok ⟨true, ⟨name, .primitive d.primitiveType, required⟩, true⟩) :
    FiltersAs parsers schema present row (.binary .notEq name d)
      (present name = true → d.primitiveType.hasArrowDatum = true)
      (∃ v, row name = some v ∧ v.1 ≠ d.value) := by
  refine ⟨⟨by simp, by simp⟩,
    .binary .notEq ⟨true, ⟨name, .primitive d.primitiveType, required⟩, true⟩ (.datum d), ?_,
    ⟨by simp, by simp⟩, fun hneeds => ?_, fun hneeds => ?_⟩
  · simp [Predicate.bind, href, bindLiteral, Datum.toType, toPrimitive_self, Except.map, foldBinary]
  · cases hpresent : present name with
    | false =>
        refine ⟨some false, ?_, ?_⟩
        · simp [BoundPredicate.rowFilter, onColumn, hpresent, missingBinary]
        · simp [hrow.eq_none hpresent]
    | true =>
        have harrow : d.primitiveType.hasArrowDatum = true := hneeds hpresent
        refine ⟨(row name).bind fun v => Predicate.evalBinary .notEq v.1 d.value, ?_, ?_⟩
        · simp [BoundPredicate.rowFilter, onColumn, hpresent, getArrowDatum, harrow, Except.map]
        · cases hv : row name with
          | none => simp
          | some v =>
              obtain ⟨e, he, hve⟩ := hrow.typed name v _ required hv hfield
              rw [Option.bind_some, hve, evalBinary_notEq he]
              simp [hve]
  · obtain ⟨hpresent, harrow⟩ := Classical.not_imp.mp hneeds
    rw [Bool.not_eq_true] at harrow
    refine ⟨.unsupportedDatum (.datum d), ?_⟩
    simp [BoundPredicate.rowFilter, onColumn, hpresent, getArrowDatum, harrow, Except.map]

/-- **The negated test of a cell** keeps the rows that are known to differ there. -/
theorem filtersAs_cell (hrow : RowTyped schema present row) {cell : String × Option Datum}
    (hcell : CellTyped schema cell) :
    FiltersAs parsers schema present row (cellPredicate cell.1 cell.2).negate
      (CellReadable present cell) (KnownApart row cell) := by
  obtain ⟨name, item⟩ := cell
  obtain ⟨t, required, hfield, htype, hnull⟩ := hcell
  have href : bindReference schema name = .ok ⟨true, ⟨name, .primitive t, required⟩, true⟩ := by
    simp only [bindReference, hfield, if_true]
  cases item with
  | none =>
      obtain rfl := hnull rfl
      refine (filtersAs_notNull hrow href).congr ?_ knownApart_none.symm
      exact iff_of_true trivial fun d hd => by cases hd
  | some d =>
      obtain rfl := htype d rfl
      refine (filtersAs_notEq hrow hfield href).congr ?_ knownApart_some.symm
      exact ⟨fun h d' hd' => Option.some.inj hd' ▸ h, fun h => h d rfl⟩

/-! ### The predicate of a delete row -/

/-- The negated conjunction of the tests of a delete row. -/
def negatedRow (cells : List (String × Option Datum)) : Predicate :=
  (Predicate.notExpr
    (cells.foldl (fun acc c => acc.and (cellPredicate c.1 c.2)) .alwaysTrue)).rewriteNot

variable (parsers schema present row) in
/-- What the negation of a predicate filters as, through NOT elimination. -/
structure NegationFiltersAs (p : Predicate) (needs holds : Prop) : Prop where
  ne_const : p ≠ .alwaysTrue ∧ p ≠ .alwaysFalse
  rewrite_ne_const : p.rewriteNot ≠ .alwaysTrue ∧ p.rewriteNot ≠ .alwaysFalse
  filters : FiltersAs parsers schema present row p.rewriteNot.negate needs holds

theorem negationFiltersAs_cell (hrow : RowTyped schema present row) {cell : String × Option Datum}
    (hcell : CellTyped schema cell) :
    NegationFiltersAs parsers schema present row (cellPredicate cell.1 cell.2)
      (CellReadable present cell) (KnownApart row cell) := by
  have hrewrite : (cellPredicate cell.1 cell.2).rewriteNot = cellPredicate cell.1 cell.2 := by
    cases cell.2 <;> rfl
  have hne : cellPredicate cell.1 cell.2 ≠ .alwaysTrue ∧ cellPredicate cell.1 cell.2 ≠ .alwaysFalse := by
    cases cell.2 <;> exact ⟨by simp [cellPredicate], by simp [cellPredicate]⟩
  refine ⟨hne, ?_, ?_⟩
  · rw [hrewrite]
    exact hne
  · rw [hrewrite]
    exact filtersAs_cell hrow hcell

/-- A conjunction is false as soon as one side is. -/
theorem NegationFiltersAs.and {p q : Predicate} {needs needs' holds holds' : Prop}
    (hp : NegationFiltersAs parsers schema present row p needs holds)
    (hq : NegationFiltersAs parsers schema present row q needs' holds') :
    NegationFiltersAs parsers schema present row (p.and q) (needs ∧ needs') (holds ∨ holds') := by
  rw [Predicate.and_of_ne_const hp.ne_const hq.ne_const]
  have hrewrite : (Predicate.andExpr p q).rewriteNot = .andExpr p.rewriteNot q.rewriteNot :=
    Predicate.and_of_ne_const hp.rewrite_ne_const hq.rewrite_ne_const
  refine ⟨⟨by simp, by simp⟩, ?_, ?_⟩
  · rw [hrewrite]
    exact ⟨by simp, by simp⟩
  · rw [hrewrite]
    exact hp.filters.or hq.filters

theorem negationFiltersAs_foldl (hrow : RowTyped schema present row)
    {cells : List (String × Option Datum)} (hcells : ∀ c ∈ cells, CellTyped schema c) {p : Predicate}
    {needs holds : Prop} (hp : NegationFiltersAs parsers schema present row p needs holds) :
    NegationFiltersAs parsers schema present row
      (cells.foldl (fun acc c => acc.and (cellPredicate c.1 c.2)) p)
      (needs ∧ ∀ c ∈ cells, CellReadable present c) (holds ∨ ∃ c ∈ cells, KnownApart row c) := by
  induction cells generalizing p needs holds with
  | nil => simpa using hp
  | cons c cells ih =>
      have hc : NegationFiltersAs parsers schema present row (cellPredicate c.1 c.2)
          (CellReadable present c) (KnownApart row c) :=
        negationFiltersAs_cell hrow (hcells c List.mem_cons_self)
      have hrest := ih (fun c' hc' => hcells c' (List.mem_cons_of_mem c hc')) (hp.and hc)
      rw [List.foldl_cons]
      refine ⟨hrest.ne_const, hrest.rewrite_ne_const, hrest.filters.congr ?_ ?_⟩
      · rw [List.forall_mem_cons, and_assoc]
      · rw [List.exists_mem_cons_iff, or_assoc]

/-- **The predicate of a delete row** keeps the rows that are known to differ from it in some column. -/
theorem filtersAs_negatedRow (hrow : RowTyped schema present row) {cells : List (String × Option Datum)}
    (hne : cells ≠ []) (hcells : ∀ c ∈ cells, CellTyped schema c) :
    FiltersAs parsers schema present row (negatedRow cells) (∀ c ∈ cells, CellReadable present c)
      (∃ c ∈ cells, KnownApart row c) := by
  cases cells with
  | nil => exact absurd rfl hne
  | cons c cells =>
      have hc : NegationFiltersAs parsers schema present row (cellPredicate c.1 c.2)
          (CellReadable present c) (KnownApart row c) :=
        negationFiltersAs_cell hrow (hcells c List.mem_cons_self)
      have hall := negationFiltersAs_foldl hrow (fun c' hc' => hcells c' (List.mem_cons_of_mem c hc')) hc
      have hfirst : Predicate.and .alwaysTrue (cellPredicate c.1 c.2) = cellPredicate c.1 c.2 := by
        cases c.2 <;> rfl
      unfold negatedRow
      rw [List.foldl_cons, hfirst]
      refine hall.filters.congr ?_ ?_
      · rw [List.forall_mem_cons]
      · rw [List.exists_mem_cons_iff]

/-! ### The predicate of a file -/

theorem length_pairUp (ps : List Predicate) : (pairUp ps).length = (ps.length + 1) / 2 := by
  fun_induction pairUp ps with
  | case1 p q ps ih =>
      simp only [List.length_cons, ih]
      omega
  | case2 ps hshort =>
      rcases ps with _ | ⟨p, _ | ⟨q, ps⟩⟩
      · rfl
      · simp
      · exact absurd rfl (hshort p q ps)

/-- A level of the tree filters as the level below. -/
theorem allFilter_pairUp {ps : List Predicate} {needs holds : Prop}
    (h : AllFilter parsers schema present row ps needs holds) :
    AllFilter parsers schema present row (pairUp ps) needs holds := by
  fun_induction pairUp ps generalizing needs holds with
  | case1 p q ps ih =>
      cases h with
      | cons hp htail =>
          cases htail with
          | cons hq hrest =>
              rw [← and_assoc, ← and_assoc, Predicate.and_of_ne_const hp.ne_const hq.ne_const]
              exact .cons (hp.and hq) (ih hrest)
  | case2 ps _ => exact h

/-- **The balanced tree** filters as the list does. -/
theorem filtersAs_balance {ps : List Predicate} {needs holds : Prop} (fuel : ℕ)
    (h : AllFilter parsers schema present row ps needs holds) (hfuel : ps.length ≤ fuel) (hne : ps ≠ []) :
    ∃ p, balance fuel ps = some p ∧ FiltersAs parsers schema present row p needs holds := by
  induction fuel generalizing ps needs holds with
  | zero => exact absurd (List.length_eq_zero_iff.mp (Nat.le_zero.mp hfuel)) hne
  | succ fuel ih =>
      rcases ps with _ | ⟨p, _ | ⟨q, ps⟩⟩
      · exact absurd rfl hne
      · refine ⟨p, rfl, ?_⟩
        cases h with
        | cons hp htail =>
            cases htail
            exact hp.congr (and_iff_left trivial).symm (and_iff_left trivial).symm
      · have hlength := length_pairUp (p :: q :: ps)
        simp only [List.length_cons] at hlength hfuel
        refine ih (allFilter_pairUp h) (by omega) ?_
        simp [pairUp]

/-- The cells of row `i` of some columns. -/
def cellsAt (columns : List (String × List (Option Datum))) (i : ℕ) : List (String × Option Datum) :=
  columns.map fun c => (c.1, (c.2[i]?).join)

/-- One pass of the loop reads the first cell of every column. -/
theorem rowPredicate_eq {columns : List (String × List (Option Datum))}
    (h : ∀ c ∈ columns, c.2 ≠ []) :
    rowPredicate columns =
      (cellsAt columns 0).foldl (fun acc c => acc.and (cellPredicate c.1 c.2)) .alwaysTrue := by
  unfold rowPredicate cellsAt
  rw [List.foldl_map]
  generalize Predicate.alwaysTrue = acc
  induction columns generalizing acc with
  | nil => rfl
  | cons c columns ih =>
      rw [List.foldl_cons, List.foldl_cons, ih fun c' hc' => h c' (List.mem_cons_of_mem c hc')]
      cases hcells : c.2 with
      | nil => exact absurd hcells (h c List.mem_cons_self)
      | cons item items => rfl

/-- The lockstep loop visits the rows in order. -/
theorem rowPredicates_eq (n : ℕ) {columns : List (String × List (Option Datum))}
    (h : ∀ c ∈ columns, c.2.length = n) :
    rowPredicates n columns = (List.range n).map fun i => negatedRow (cellsAt columns i) := by
  induction n generalizing columns with
  | zero => rfl
  | succ n ih =>
      have hfirst : ∀ c ∈ columns, c.2 ≠ [] := by
        intro c hc hnil
        have := h c hc
        rw [hnil] at this
        cases this
      have hrest : ∀ c ∈ columns.map (fun c => (c.1, c.2.tail)), c.2.length = n := by
        intro c hc
        obtain ⟨c', hc', rfl⟩ := List.mem_map.mp hc
        rw [List.length_tail, h c' hc']
        rfl
      have hshift : ∀ i, cellsAt (columns.map fun c => (c.1, c.2.tail)) i = cellsAt columns (i + 1) := by
        intro i
        simp [cellsAt, List.map_map, Function.comp_def]
      rw [rowPredicates, rowPredicate_eq hfirst, ih hrest, List.range_succ_eq_map, List.map_cons,
        List.map_map]
      simp only [hshift]
      rfl

/-- The equality columns of a typed batch are all collected. -/
theorem collectColumns_eq {file : EqualityDeleteFile} (hfile : FileTyped schema file)
    {batch : RecordBatch} (hbatch : batch ∈ file.batches) :
    collectColumns file.equalityIds batch =
      batch.columns.filter fun c => file.equalityIds.contains c.id := by
  refine List.filter_congr ?_
  intro c hc
  cases hid : file.equalityIds.contains c.id with
  | false => rfl
  | true =>
      obtain ⟨t, _, htype, -⟩ := hfile.typed batch hbatch c hc hid
      rw [htype]
      rfl

/-- The predicates of a batch are those of its delete rows. -/
theorem batchPredicates_eq {file : EqualityDeleteFile} (hfile : FileTyped schema file)
    {batch : RecordBatch} (hbatch : batch ∈ file.batches) :
    batchPredicates (collectColumns file.equalityIds batch) =
      ((List.range batch.numRows).map fun i =>
        (batch.columns.filter fun c => file.equalityIds.contains c.id).map fun c =>
          (c.name, (c.cells[i]?).join)).map negatedRow := by
  rw [collectColumns_eq hfile hbatch, List.map_map]
  obtain ⟨c₀, hc₀, hid₀⟩ := hfile.nonempty batch hbatch
  have hmem : c₀ ∈ batch.columns.filter fun c => file.equalityIds.contains c.id :=
    List.mem_filter.mpr ⟨hc₀, hid₀⟩
  have hlength : ∀ c ∈ batch.columns.filter fun c => file.equalityIds.contains c.id,
      c.cells.length = batch.numRows :=
    fun c hc => batch.cells_length c (List.mem_filter.mp hc).1
  generalize batch.columns.filter (fun c => file.equalityIds.contains c.id) = columns at hmem hlength
  cases columns with
  | nil => exact absurd hmem List.not_mem_nil
  | cons c cs =>
      have hpairs : ∀ p ∈ (c :: cs).map (fun c => (c.name, c.cells)), p.2.length = batch.numRows := by
        intro p hp
        obtain ⟨c', hc', rfl⟩ := List.mem_map.mp hp
        exact hlength c' hc'
      show rowPredicates c.cells.length ((c :: cs).map fun c => (c.name, c.cells)) = _
      rw [hlength c List.mem_cons_self, rowPredicates_eq batch.numRows hpairs]
      refine List.map_congr_left ?_
      intro i _
      simp only [Function.comp_apply, cellsAt, List.map_map]
      rfl

/-- **The predicates of a file are those of its delete rows.** -/
theorem streamPredicates_eq {file : EqualityDeleteFile} (hfile : FileTyped schema file) :
    streamPredicates file.equalityIds file.batches = some (file.rows.map negatedRow) := by
  obtain ⟨ids, batches⟩ := file
  unfold EqualityDeleteFile.rows
  simp only
  induction batches with
  | nil => rfl
  | cons batch batches ih =>
      have hrest : FileTyped schema ⟨ids, batches⟩ :=
        ⟨fun b hb => hfile.nonempty b (List.mem_cons_of_mem batch hb),
          fun b hb => hfile.typed b (List.mem_cons_of_mem batch hb)⟩
      obtain ⟨c, hc, -⟩ := hfile.nonempty batch List.mem_cons_self
      have hcolumns : batch.columns.isEmpty = false := by
        cases hempty : batch.columns with
        | nil => rw [hempty] at hc; exact absurd hc List.not_mem_nil
        | cons _ _ => rfl
      rw [streamPredicates, if_neg (by rw [hcolumns]; decide), ih hrest, Option.map_some,
        batchPredicates_eq hfile List.mem_cons_self, List.flatMap_cons, List.map_append]

/-- The cells of a delete row are typed, and there are some. -/
theorem cellTyped_of_mem_rows {file : EqualityDeleteFile} (hfile : FileTyped schema file)
    {deleted : List (String × Option Datum)} (h : deleted ∈ file.rows) :
    deleted ≠ [] ∧ ∀ cell ∈ deleted, CellTyped schema cell := by
  obtain ⟨batch, hbatch, h⟩ := List.mem_flatMap.mp h
  obtain ⟨i, hi, rfl⟩ := List.mem_map.mp h
  constructor
  · obtain ⟨c, hc, hid⟩ := hfile.nonempty batch hbatch
    intro hnil
    have hmem : c ∈ batch.columns.filter fun c => file.equalityIds.contains c.id :=
      List.mem_filter.mpr ⟨hc, hid⟩
    rw [List.map_eq_nil_iff.mp hnil] at hmem
    exact absurd hmem List.not_mem_nil
  · intro cell hcell
    obtain ⟨c, hc, rfl⟩ := List.mem_map.mp hcell
    obtain ⟨hmem, hid⟩ := List.mem_filter.mp hc
    obtain ⟨t, required, -, hfield, hdatum, hnull⟩ := hfile.typed batch hbatch c hmem hid
    -- the cell is there, since all columns have as many cells as the batch has rows
    have hbound : i < c.cells.length := by
      rw [batch.cells_length c hmem]
      exact List.mem_range.mp hi
    have hget : (c.cells[i]?).join = c.cells[i] := by
      rw [List.getElem?_eq_getElem hbound]
      rfl
    refine ⟨t, required, hfield, ?_, ?_⟩
    · intro d hd
      rw [hget] at hd
      exact hdatum d (hd ▸ List.getElem_mem hbound)
    · intro hnone
      rw [hget] at hnone
      exact hnull (hnone ▸ List.getElem_mem hbound)

/-! ### The predicate of all files -/

variable (parsers schema present row) in
/-- Either nothing is asked, or the predicate filters. -/
def FiltersOrAll (p : Predicate) (needs holds : Prop) : Prop :=
  (p = .alwaysTrue ∧ needs ∧ holds) ∨ FiltersAs parsers schema present row p needs holds

theorem FiltersOrAll.and {p q : Predicate} {needs needs' holds holds' : Prop}
    (hp : FiltersOrAll parsers schema present row p needs holds)
    (hq : FiltersOrAll parsers schema present row q needs' holds') :
    FiltersOrAll parsers schema present row (p.and q) (needs ∧ needs') (holds ∧ holds') := by
  rcases hp with ⟨rfl, hn, hh⟩ | hp
  · rcases hq with ⟨rfl, hn', hh'⟩ | hq
    · exact .inl ⟨rfl, ⟨hn, hn'⟩, ⟨hh, hh'⟩⟩
    · right
      have hsame : Predicate.and .alwaysTrue q = q := by
        cases q <;> rfl
      rw [hsame]
      exact hq.congr (and_iff_right hn).symm (and_iff_right hh).symm
  · rcases hq with ⟨rfl, hn', hh'⟩ | hq
    · right
      have hsame : Predicate.and p .alwaysTrue = p := by
        cases p <;> rfl
      rw [hsame]
      exact hp.congr (and_iff_left hn').symm (and_iff_left hh').symm
    · right
      rw [Predicate.and_of_ne_const hp.ne_const hq.ne_const]
      exact hp.and hq

/-- Every test of the file's delete rows can be built. -/
def FileReadable (present : String → Bool) (file : EqualityDeleteFile) : Prop :=
  ∀ deleted ∈ file.rows, ∀ cell ∈ deleted, CellReadable present cell

/-- The row differs from every delete row of the file in a column where it is not null. -/
def FileApart (row : Row) (file : EqualityDeleteFile) : Prop :=
  ∀ deleted ∈ file.rows, ∃ cell ∈ deleted, KnownApart row cell

theorem filtersOrAll_file (hrow : RowTyped schema present row) {file : EqualityDeleteFile}
    (hfile : FileTyped schema file) :
    FiltersOrAll parsers schema present row (parseEqualityDeletes file) (FileReadable present file)
      (FileApart row file) := by
  have hall : AllFilter parsers schema present row (file.rows.map negatedRow)
      (FileReadable present file) (FileApart row file) := by
    refine AllFilter.of_forall ?_
    intro deleted hdeleted
    obtain ⟨hne, hcells⟩ := cellTyped_of_mem_rows hfile hdeleted
    exact filtersAs_negatedRow hrow hne hcells
  unfold parseEqualityDeletes
  rw [streamPredicates_eq hfile]
  cases hrows : file.rows with
  | nil =>
      refine .inl ⟨rfl, ?_, ?_⟩
      · intro deleted hdeleted
        rw [hrows] at hdeleted
        exact absurd hdeleted List.not_mem_nil
      · intro deleted hdeleted
        rw [hrows] at hdeleted
        exact absurd hdeleted List.not_mem_nil
  | cons deleted rows =>
      rw [hrows] at hall
      obtain ⟨p, hp, hfilters⟩ := filtersAs_balance _ hall le_rfl (by simp)
      simp only [hp, Option.getD_some]
      exact .inr hfilters

theorem filtersOrAll_combineFiles (hrow : RowTyped schema present row) {files : List EqualityDeleteFile}
    (hfiles : ∀ file ∈ files, FileTyped schema file) :
    FiltersOrAll parsers schema present row (combineFiles files)
      (∀ file ∈ files, FileReadable present file) (∀ file ∈ files, FileApart row file) := by
  have hfold : ∀ (fs : List EqualityDeleteFile) (p : Predicate) (needs holds : Prop),
      (∀ file ∈ fs, FileTyped schema file) → FiltersOrAll parsers schema present row p needs holds →
      FiltersOrAll parsers schema present row
        (fs.foldl (fun combined file => combined.and (parseEqualityDeletes file)) p)
        (needs ∧ ∀ file ∈ fs, FileReadable present file) (holds ∧ ∀ file ∈ fs, FileApart row file) := by
    intro fs
    induction fs with
    | nil =>
        intro p needs holds _ hp
        simpa using hp
    | cons file fs ih =>
        intro p needs holds htyped hp
        have hfile : FiltersOrAll parsers schema present row (parseEqualityDeletes file)
            (FileReadable present file) (FileApart row file) :=
          filtersOrAll_file hrow (htyped file List.mem_cons_self)
        have hrest := ih _ _ _ (fun f hf => htyped f (List.mem_cons_of_mem file hf)) (hp.and hfile)
        rw [List.foldl_cons, propext (List.forall_mem_cons (p := FileReadable present)),
          propext (List.forall_mem_cons (p := FileApart row)), ← and_assoc, ← and_assoc]
        exact hrest
  have hstart : FiltersOrAll parsers schema present row .alwaysTrue True True :=
    .inl ⟨rfl, trivial, trivial⟩
  simpa [combineFiles] using hfold files .alwaysTrue True True hfiles hstart

/-! ### The reader's verdict -/

/-- **What the reader does**: it fails exactly when some test cannot be built, and otherwise keeps the rows
that are known to differ from every delete row. -/
theorem rowPasses_eq (hrow : RowTyped schema present row) {files : List EqualityDeleteFile}
    (hfiles : ∀ file ∈ files, FileTyped schema file) :
    ((∀ file ∈ files, FileReadable present file) →
        ∃ b, rowPasses parsers schema present files row = .ok b ∧
          (b = true ↔ ∀ file ∈ files, FileApart row file)) ∧
      (¬ (∀ file ∈ files, FileReadable present file) →
        ∃ e, rowPasses parsers schema present files row = .error e) := by
  have hcombined : FiltersOrAll parsers schema present row (combineFiles files)
      (∀ file ∈ files, FileReadable present file) (∀ file ∈ files, FileApart row file) :=
    filtersOrAll_combineFiles hrow hfiles
  unfold rowPasses buildEqualityDeletePredicate
  rcases hcombined with ⟨hall, hneeds, hholds⟩ | hfilters
  · simp only [hall, if_true]
    exact ⟨fun _ => ⟨true, rfl, iff_of_true rfl hholds⟩, fun h => absurd hneeds h⟩
  · obtain ⟨b, hb, -, hok, herr⟩ := hfilters.binds
    simp only [hfilters.ne_const.1, if_false, hb]
    constructor
    · intro hneeds
      obtain ⟨v, hv, hiff⟩ := hok hneeds
      refine ⟨v == some true, by simp only [hv], ?_⟩
      rw [beq_iff_eq, hiff]
    · intro hneeds
      obtain ⟨e, he⟩ := herr hneeds
      exact ⟨.filter e, by simp only [he]⟩

/-- A row that is known to differ from a delete row does not equal it. -/
theorem not_deletes_of_apart {files : List EqualityDeleteFile} (h : ∀ file ∈ files, FileApart row file) :
    ¬ Deletes files row := by
  rintro ⟨file, hfile, deleted, hdeleted, hequal⟩
  obtain ⟨cell, hcell, -, hne⟩ := h file hfile deleted hdeleted
  exact hne (hequal cell hcell)

end

/-! ### A delete file of one row -/

/-- A table with one optional integer column. -/
def keySchema : Schema := ⟨[⟨"key", .primitive .int, false⟩], []⟩

/-- The delete file of the key 5. -/
def deleteFive : EqualityDeleteFile :=
  ⟨[1], [⟨[⟨1, "key", .primitive .int, [some (.int 5)]⟩], 1, by decide⟩]⟩

theorem native_integer (k : ℤ) : (Value.integer k).native = true := rfl

/-- A row by its key. -/
def keyRow (key : Option ℤ) : Row := fun name =>
  if name = "key" then key.map fun k => ⟨.integer k, native_integer k⟩ else none

/-- Parsers for a table without text. -/
def noParsers : TextParsers := ⟨fun _ => none, fun _ => none, fun _ => none, fun _ => none⟩

theorem deleteFive_typed : FileTyped keySchema deleteFive := by
  constructor
  · intro batch hbatch
    obtain rfl := List.mem_singleton.mp hbatch
    exact ⟨_, List.mem_cons_self, rfl⟩
  · intro batch hbatch c hc _
    obtain rfl := List.mem_singleton.mp hbatch
    obtain rfl := List.mem_singleton.mp hc
    refine ⟨.int, false, rfl, rfl, ?_, fun _ => rfl⟩
    intro d hd
    obtain rfl := Option.some.inj (List.mem_singleton.mp hd)
    rfl

theorem keyRow_typed (key : Option ℤ) : RowTyped keySchema (fun name => name == "key") (keyRow key) := by
  have hkey : ∀ name v, keyRow key name = some v → name = "key" ∧ ∃ k, v.1 = .integer k := by
    intro name v hv
    unfold keyRow at hv
    split at hv
    · rename_i hname
      obtain ⟨k, -, rfl⟩ := Option.map_eq_some_iff.mp hv
      exact ⟨hname, k, rfl⟩
    · cases hv
  constructor
  · intro name v hv
    simp [(hkey name v hv).1]
  · intro name v t required hv hfield
    obtain ⟨rfl, k, hk⟩ := hkey name v hv
    have hint : keySchema.fieldByName "key" = some ⟨true, ⟨"key", .primitive .int, false⟩, true⟩ := by
      decide
    rw [hint] at hfield
    injection hfield with hfield
    injection hfield with _ hfield
    injection hfield with _ hfield
    injection hfield with hfield
    exact ⟨.int k, hfield, hk⟩

end IcebergDb.Delete
