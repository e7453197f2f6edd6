import IcebergDb.Foundation.RunLength
import IcebergDb.Scan.MetricsPruning

/-!
# Pruning by the page index

Within a row group the column index of Parquet tells for each page of a column its bounds and its number of
NULLs.  `PageIndexEvaluator` turns a predicate into a row selection that leaves pages out.

* `calcRowCounts` — the rows of the pages, from the indices of their first rows;
* `pageBound` — a bound of a page as a datum of the field's type, which it fits only for some physical types;
* `pageIndexVisitor`, `pageIndexEval` — the evaluator; how selections are joined is a parameter;
* `pageIndexEval_keeps` — **every row that passes the row filter is selected**, and the selection is as long
  as the row group.
-/

namespace IcebergDb.Scan

open IcebergDb.Expr IcebergDb.RunLength IcebergDb.Kleene

/-! ### Row selections -/

/-- `RowSelector` and `RowSelection`. -/
abbrev RowSelection := List (Run Bool)

/-- The functions of `RowSelection` that are used. -/
structure RowSelectionOps where
  ofSelectors : List (Run Bool) → RowSelection
  intersection : RowSelection → RowSelection → RowSelection
  union : RowSelection → RowSelection → RowSelection

/-- What they do to the decisions, on selections of one length. -/
structure RowSelectionOps.Lawful (ops : RowSelectionOps) : Prop where
  ofSelectors : ∀ v, expand (ops.ofSelectors v) = expand v
  intersection : ∀ a b, (expand a).length = (expand b).length →
    expand (ops.intersection a b) = meet (expand a) (expand b)
  union : ∀ a b, (expand a).length = (expand b).length →
    expand (ops.union a b) = join (expand a) (expand b)

/-- The functions without merging of runs. -/
def plainOps : RowSelectionOps where
  ofSelectors v := v
  intersection a b := ofList (meet (expand a) (expand b))
  union a b := ofList (join (expand a) (expand b))

theorem plainOps_lawful : plainOps.Lawful where
  ofSelectors _ := rfl
  intersection _ _ _ := expand_ofList _
  union _ _ _ := expand_ofList _

/-! ### Pages -/

/-- `n as usize` on an `i64`. -/
def asUsize (n : ℤ) : ℕ := if n < 0 then (n + 2 ^ 64).toNat else n.toNat

/-- `calc_row_counts`, from the rows that remain and the first rows of the pages; more rows than there are is
an overflow. -/
def calcRowCounts : ℕ → List ℤ → Except VisitError (List ℕ)
  | _, [] => .ok []
  | remaining, [_] => .ok [remaining]
  | remaining, first :: next :: firsts =>
      if remaining < asUsize (next - first) then .error .panicked
      else (calcRowCounts (remaining - asUsize (next - first)) (next :: firsts)).map
        (asUsize (next - first) :: ·)

/-- The first rows of pages of the given sizes. -/
def firstRows : ℤ → List ℕ → List ℤ
  | _, [] => []
  | first, n :: sizes => first :: firstRows (first + n) sizes

theorem calcRowCounts_firstRows (first : ℤ) (sizes : List ℕ) :
    calcRowCounts sizes.sum (firstRows first sizes) = .ok sizes := by
  induction sizes generalizing first with
  | nil => rfl
  | cons n sizes ih =>
      cases sizes with
      | nil => simp [firstRows, calcRowCounts]
      | cons m sizes =>
          have hstep : asUsize (first + n - first) = n := by
            have hn : first + (n : ℤ) - first = n := by omega
            rw [hn, asUsize, if_neg (by omega)]
            rfl
          have htail := ih (first + n)
          show (if (n :: m :: sizes).sum < asUsize (first + n - first) then _ else _) = _
          rw [hstep, List.sum_cons, if_neg (by omega), Nat.add_sub_cancel_left]
          show (calcRowCounts (m :: sizes).sum (firstRows (first + n) (m :: sizes))).map _ = _
          rw [htail]
          rfl

/-- `PageNullCount`. -/
inductive PageNullCount where
  | allNull
  | noneNull
  | someNull
  | unknown
deriving DecidableEq

/-- `from_row_and_null_counts`. -/
def PageNullCount.fromCounts (rows : ℕ) : Option ℤ → PageNullCount
  | some n => if rows = asUsize n then .allNull else if n = 0 then .noneNull else .someNull
  | none => .unknown

/-- The entry of a page in the column index. -/
structure PageEntry where
  min : Option StatValue
  max : Option StatValue
  nullCount : Option ℤ

/-- `ColumnIndexMetaData`: the types with an index that is read are one constructor. -/
inductive ColumnIndexMetaData where
  | none
  | index (pages : List PageEntry)
  | fixedLenByteArray
  | int96

/-- `Datum::new(field_type, literal)` of a page: a datum, or a literal that does not fit the type, with its
text if it is one. -/
inductive PageBound where
  | datum (d : Datum)
  | foreign (text : Option (List Char))

section

variable (utf8 : Bytes → Option String)

/-- A bound of a page.  Bytes are taken as a text whatever the type is; the `unwrap` of one that is not UTF-8
panics. -/
def pageBound (t : PrimitiveType) : StatValue → Except VisitError PageBound
  | .byteArray v =>
      match utf8 v with
      | none => .error .panicked
      | some s => .ok (if t = .string then .datum (.string s) else .foreign (some s.toList))
  | v =>
      .ok (match t, v with
        | .boolean, .boolean v => .datum (.boolean v)
        | .int, .int32 v => .datum (.int v)
        | .date, .int32 v => .datum (.date v)
        | .long, .int64 v => .datum (.long v)
        | .time, .int64 v => .datum (.time v)
        | .timestamp, .int64 v => .datum (.timestamp v)
        | .timestamptz, .int64 v => .datum (.timestamptz v)
        | .timestampNs, .int64 v => .datum (.timestampNs v)
        | .timestamptzNs, .int64 v => .datum (.timestamptzNs v)
        | .float, .float v => .datum (.float v)
        | .double, .double v => .datum (.double v)
        | _, _ => .foreign none)

/-- A bound that may be missing. -/
def pageBoundOpt (t : PrimitiveType) : Option StatValue → Except VisitError (Option PageBound)
  | none => .ok none
  | some v => (pageBound utf8 t v).map some

/-- The closures that decide about a page. -/
abbrev PageTest := Option PageBound → Option PageBound → PageNullCount → Except VisitError Bool

/-- The closure, on the entry of a page with its number of rows. -/
def testPage (test : PageTest) (t : PrimitiveType) (rows : ℕ) (e : PageEntry) : Except VisitError Bool :=
  match pageBoundOpt utf8 t e.min with
  | .error err => .error err
  | .ok min =>
      match pageBoundOpt utf8 t e.max with
      | .error err => .error err
      | .ok max => test min max (.fromCounts rows e.nullCount)

/-- `apply_predicate_to_column_index`, on the pages. -/
def testPages (test : PageTest) (t : PrimitiveType) : List PageEntry → List ℕ → Except VisitError (List Bool)
  | e :: es, rows :: counts =>
      match testPage utf8 test t rows e with
      | .error err => .error err
      | .ok b => (testPages test t es counts).map (b :: ·)
  | _, _ => .ok []

/-- The inputs of `PageIndexEvaluator`. -/
structure PageIndex where
  numRows : ℕ
  columnIndex : List ColumnIndexMetaData
  offsetIndex : List (List ℤ)

variable (ops : RowSelectionOps) (fieldId : FieldRef → ℤ) (fieldIdMap : ℤ → Option ℕ) (ix : PageIndex)

/-- `select_all_rows` and `skip_all_rows`. -/
def PageIndex.allRows (selected : Bool) : Except VisitError RowSelection :=
  .ok (ops.ofSelectors [⟨ix.numRows, selected⟩])

/-- `calc_row_selection`. -/
def PageIndex.calcRowSelection (r : FieldRef) (test : PageTest) (missing : Bool) :
    Except VisitError RowSelection :=
  match fieldIdMap (fieldId r) with
  | none => ix.allRows ops missing
  | some c =>
      match r.field.fieldType with
      | .nested => .error (.unexpected
          ("Field with id " ++ toString (fieldId r) ++ " not convertible to primitive type"))
      | .primitive t =>
          match ix.columnIndex[c]? with
          | none => ix.allRows ops true
          | some index =>
              match ix.offsetIndex[c]? with
              | none => .error (.unexpected ("Missing offset index for field id " ++ toString (fieldId r)))
              | some firsts =>
                  match calcRowCounts ix.numRows firsts with
                  | .error e => .error e
                  | .ok counts =>
                      match index with
                      | .none => ix.allRows ops true
                      | .fixedLenByteArray => .error (.featureUnsupported
                          "unsupported 'FIXED_LEN_BYTE_ARRAY' index type in column_index")
                      | .int96 => .error (.featureUnsupported
                          "unsupported 'INT96' index type in column_index")
                      | .index pages =>
                          (testPages utf8 test t pages counts).map fun flags =>
                            ops.ofSelectors (blocks counts flags)

/-! ### The tests of a page -/

/-- `PartialOrd` between a bound and a literal. -/
def PageBound.compares (cmp : Ordering → Bool) (l : BoundLiteral) : PageBound → Bool
  | .datum d => d.compares cmp l
  | .foreign _ => false

/-- `PartialOrd` between a literal and a bound. -/
def PageBound.literalCompares (cmp : Ordering → Bool) (l : BoundLiteral) : PageBound → Bool
  | .datum d => l.compares cmp d
  | .foreign _ => false

/-- The text of a bound. -/
def PageBound.text (message : String) : Option PageBound → Except VisitError (Option (List Char))
  | none => .ok none
  | some (.datum (.string s)) => .ok (some s.toList)
  | some (.foreign (some s)) => .ok (some s)
  | some _ => .error (.unexpected message)

/-- The closure of `visit_inequality`. -/
def inequalityTest (l : BoundLiteral) (cmp : Ordering → Bool) (useLowerBound : Bool) : PageTest :=
  fun min max nulls =>
    if nulls = .allNull then .ok false
    else if l.isNan then .ok true
    else match if useLowerBound then min else max with
      | none => .ok true
      | some b => .ok (b.compares cmp l)

/-- The closure of `eq`. -/
def eqTest (l : BoundLiteral) : PageTest := fun min max nulls =>
  if nulls = .allNull then .ok false
  else .ok (!(min.any (PageBound.compares (· == .gt) l)) && !(max.any (PageBound.compares (· == .lt) l)))

/-- The closure of `starts_with`. -/
def startsWithTest (s : List Char) : PageTest := fun min max nulls =>
  if nulls = .allNull then .ok false
  else match PageBound.text "Cannot use StartsWith operator on non-string lower_bound value" min with
    | .error e => .error e
    | .ok lower =>
        if lower.any fun b => decide (s < ColumnMetrics.cut b s) then .ok false
        else match PageBound.text "Cannot use StartsWith operator on non-string upper_bound value" max with
          | .error e => .error e
          | .ok upper => .ok !(upper.any fun b => decide (ColumnMetrics.cut b s < s))

/-- The closure of `not_starts_with`. -/
def notStartsWithTest (s : List Char) : PageTest := fun min max nulls =>
  if nulls ≠ .noneNull then .ok true
  else match PageBound.text "Cannot use NotStartsWith operator on non-string lower_bound value" min with
    | .error e => .error e
    | .ok none => .ok true
    | .ok (some lower) =>
        if lower < s then .ok true
        else if lower.take s.length = s then
          match PageBound.text "Cannot use NotStartsWith operator on non-string upper_bound value" max with
          | .error e => .error e
          | .ok none => .ok true
          | .ok (some upper) =>
              if upper.length < s.length then .ok true else .ok !(upper.take s.length == s)
        else .ok true

/-- The closure of `r#in`. -/
def isInTest (ls : List BoundLiteral) : PageTest := fun min max nulls =>
  if nulls = .allNull then .ok false
  else match min, max with
    | some lo, some hi =>
        .ok !(ls.all fun l => lo.literalCompares (· == .lt) l || hi.literalCompares (· == .gt) l)
    | some lo, none => .ok (ls.any fun l => lo.literalCompares (· != .lt) l)
    | none, some hi => .ok (ls.any fun l => hi.literalCompares (· != .gt) l)
    | none, none => .ok true

/-- A leaf on texts. -/
def textLeaf (l : BoundLiteral) (test : List Char → Except VisitError RowSelection) :
    Except VisitError RowSelection :=
  match l with
  | .datum (.string s) => test s.toList
  | _ => .error (.unexpected "Cannot use StartsWith operator on non-string values")

/-- `PageIndexEvaluator` as a visitor.  What it answers for a column that the file does not have is the last
argument of `calcRowSelection`. -/
def pageIndexVisitor : BoundPredicateVisitor RowSelection where
  alwaysTrue := ix.allRows ops true
  alwaysFalse := ix.allRows ops false
  and a b := .ok (ops.intersection a b)
  or a b := .ok (ops.union a b)
  not _ := .error (.unexpected "NOT unsupported at this point. NOT-rewrite should be performed first")
  isNull r := ix.calcRowSelection utf8 ops fieldId fieldIdMap r (fun _ _ nulls => .ok (nulls != .noneNull)) true
  notNull r := ix.calcRowSelection utf8 ops fieldId fieldIdMap r (fun _ _ nulls => .ok (nulls != .allNull)) false
  isNan r := ix.allRows ops r.field.fieldType.isFloatingType
  notNan _ := ix.allRows ops true
  lessThan r l := ix.calcRowSelection utf8 ops fieldId fieldIdMap r (inequalityTest l (· == .lt) true) true
  lessThanOrEq r l := ix.calcRowSelection utf8 ops fieldId fieldIdMap r (inequalityTest l (· != .gt) true) true
  greaterThan r l := ix.calcRowSelection utf8 ops fieldId fieldIdMap r (inequalityTest l (· == .gt) false) true
  greaterThanOrEq r l :=
    ix.calcRowSelection utf8 ops fieldId fieldIdMap r (inequalityTest l (· != .lt) false) true
  eq r l := ix.calcRowSelection utf8 ops fieldId fieldIdMap r (eqTest l) false
  notEq _ _ := ix.allRows ops true
  startsWith r l := textLeaf l fun s =>
    ix.calcRowSelection utf8 ops fieldId fieldIdMap r (startsWithTest s) false
  notStartsWith r l := textLeaf l fun s =>
    ix.calcRowSelection utf8 ops fieldId fieldIdMap r (notStartsWithTest s) true
  isIn r ls :=
    if ColumnMetrics.inPredicateLimit < ls.length then ix.allRows ops true
    else ix.calcRowSelection utf8 ops fieldId fieldIdMap r (isInTest ls) false
  notIn _ _ := ix.allRows ops true

/-- `PageIndexEvaluator::eval`. -/
def pageIndexEval (filter : BoundPredicate) : Except VisitError RowSelection :=
  if ix.numRows = 0 then .ok []
  else visit (pageIndexVisitor utf8 ops fieldId fieldIdMap ix) filter

end

/-! ### What the page index says -/

section

variable (utf8 : Bytes → Option String)

/-- The entry is that of the cells, and its bounds fit the type of the field. -/
structure PageEntry.Describes (t : PrimitiveType) (e : PageEntry) (cells : List (Option NativeValue)) :
    Prop where
  nullCount : ∀ n, e.nullCount = some n → n = cells.countP Option.isNone
  fits : ∀ v, e.min = some v ∨ e.max = some v → ∃ d, pageBound utf8 t v = .ok (.datum d)
  lower : ∀ v d, e.min = some v → pageBound utf8 t v = .ok (.datum d) → ∀ x : NativeValue, some x ∈ cells →
    x.1.isNan = false → d.value.AtMost x.1
  upper : ∀ v d, e.max = some v → pageBound utf8 t v = .ok (.datum d) → ∀ x : NativeValue, some x ∈ cells →
    x.1.isNan = false → x.1.AtMost d.value

variable {utf8} {t : PrimitiveType} {e : PageEntry} {cells : List (Option NativeValue)} {v : NativeValue}
  {b : Bool} {min max : Option Datum}

theorem pageBound_type {x : StatValue} {d : Datum} (h : pageBound utf8 t x = .ok (.datum d)) :
    d.primitiveType = t := by
  unfold pageBound at h
  split at h
  · split at h
    · cases h
    · split at h
      · rename_i ht
        cases h
        exact ht.symm
      · cases h
  · replace h := Except.ok.inj h
    split at h <;> cases h <;> rfl

theorem pageBoundOpt_datum {x : Option StatValue} (hfits : ∀ v, x = some v → ∃ d, pageBound utf8 t v = .ok (.datum d)) :
    ∃ o : Option Datum, pageBoundOpt utf8 t x = .ok (o.map .datum) ∧
      ∀ d, o = some d → ∃ v, x = some v ∧ pageBound utf8 t v = .ok (.datum d) := by
  cases x with
  | none => exact ⟨none, rfl, by simp⟩
  | some v =>
      obtain ⟨d, hd⟩ := hfits v rfl
      refine ⟨some d, ?_, ?_⟩
      · show (pageBound utf8 t v).map some = _
        rw [hd]
        rfl
      · rintro _ ⟨⟩
        exact ⟨v, rfl, hd⟩

/-- The entry of a page as the metrics of a column. -/
def pageMetrics (rows : ℕ) (nullCount : Option ℤ) (min max : Option Datum) : ColumnMetrics :=
  ⟨some rows, nullCount.map Int.toNat, none, .ok min, .ok max⟩

/-- A page that is described has metrics that are. -/
theorem PageEntry.Describes.metrics (h : e.Describes utf8 t cells) :
    ∃ min max : Option Datum, pageBoundOpt utf8 t e.min = .ok (min.map .datum) ∧
      pageBoundOpt utf8 t e.max = .ok (max.map .datum) ∧
      (pageMetrics cells.length e.nullCount min max).Describes cells ∧
      ∀ d, min = some d ∨ max = some d → d.primitiveType = t := by
  obtain ⟨min, hmin, hmin'⟩ := pageBoundOpt_datum (x := e.min) fun v hv => h.fits v (.inl hv)
  obtain ⟨max, hmax, hmax'⟩ := pageBoundOpt_datum (x := e.max) fun v hv => h.fits v (.inr hv)
  refine ⟨min, max, hmin, hmax, ⟨?_, ?_, ?_, ?_, ?_⟩, ?_⟩
  · intro n hn
    exact (Option.some.inj hn).symm
  · intro n hn
    obtain ⟨z, hz, rfl⟩ := Option.map_eq_some_iff.mp hn
    rw [h.nullCount z hz, Int.toNat_natCast]
  · intro n hn
    cases hn
  · intro d hd x hx hnan
    obtain ⟨v, hv, hbound⟩ := hmin' d (Except.ok.inj hd)
    exact h.lower v d hv hbound x hx hnan
  · intro d hd x hx hnan
    obtain ⟨v, hv, hbound⟩ := hmax' d (Except.ok.inj hd)
    exact h.upper v d hv hbound x hx hnan
  · rintro d (hd | hd)
    · obtain ⟨v, -, hbound⟩ := hmin' d hd
      exact pageBound_type hbound
    · obtain ⟨v, -, hbound⟩ := hmax' d hd
      exact pageBound_type hbound

/-- A page with a value is not all NULL. -/
theorem PageEntry.Describes.not_allNull (h : e.Describes utf8 t cells) (hv : some v ∈ cells) :
    PageNullCount.fromCounts cells.length e.nullCount ≠ .allNull := by
  intro hall
  unfold PageNullCount.fromCounts at hall
  split at hall
  · rename_i n hn
    split at hall
    · rename_i hlen
      rw [h.nullCount n hn, asUsize, if_neg (by omega), Int.toNat_natCast] at hlen
      have := List.countP_eq_length.mp hlen.symm (some v) hv
      cases this
    · split at hall <;> cases hall
  · cases hall

/-- A page with a NULL is not without. -/
theorem PageEntry.Describes.not_noneNull (h : e.Describes utf8 t cells) (hv : none ∈ cells) :
    PageNullCount.fromCounts cells.length e.nullCount ≠ .noneNull := by
  intro hnone
  unfold PageNullCount.fromCounts at hnone
  split at hnone
  · rename_i n hn
    split at hnone
    · cases hnone
    · split at hnone
      · rename_i hzero
        have hcount := h.nullCount n hn
        have hpos : 0 < cells.countP Option.isNone := List.countP_pos_iff.mpr ⟨none, hv, rfl⟩
        omega
      · cases hnone
  · cases hnone

theorem text_map (message : String) (o : Option Datum) :
    PageBound.text message (o.map .datum) = ColumnMetrics.textBound message (.ok o) := by
  cases o with
  | none => rfl
  | some d => cases d <;> rfl

variable {nulls : PageNullCount} {rows : ℕ} {nullCount : Option ℤ}

/-- The tests of a page are those of its metrics. -/
theorem inequalityTest_eq {l : BoundLiteral} {cmp : Ordering → Bool} {useLowerBound : Bool}
    (hnulls : nulls ≠ .allNull) (hm : (pageMetrics rows nullCount min max).containsNullsOnly = false) :
    inequalityTest l cmp useLowerBound (min.map .datum) (max.map .datum) nulls =
      (pageMetrics rows nullCount min max).visitInequality l cmp useLowerBound := by
  unfold inequalityTest ColumnMetrics.visitInequality
  rw [if_neg hnulls, hm]
  show _ = if false = true then _ else _
  rw [if_neg Bool.false_ne_true]
  split
  · rfl
  · cases useLowerBound with
    | true => cases min <;> rfl
    | false => cases max <;> rfl

theorem startsWithTest_eq {s : List Char} (hnulls : nulls ≠ .allNull) :
    startsWithTest s (min.map .datum) (max.map .datum) nulls =
      (pageMetrics rows nullCount min max).startsWithText s := by
  unfold startsWithTest ColumnMetrics.startsWithText
  rw [if_neg hnulls, text_map, text_map]
  rfl

theorem notStartsWithTest_eq {s : List Char} (hnulls : nulls = .noneNull) :
    notStartsWithTest s (min.map .datum) (max.map .datum) nulls =
      (pageMetrics rows nullCount min max).notStartsWithText s := by
  unfold notStartsWithTest ColumnMetrics.notStartsWithText
  rw [if_neg (fun h => h hnulls), text_map, text_map]
  rfl

variable {d : Datum} (hm : (pageMetrics rows nullCount min max).Describes cells) (hv : some v ∈ cells)
  (hnan : v.1.isNan = false) (hcmp : (pageMetrics rows nullCount min max).Comparable (.datum d))
  (hd : v.1 = d.value) (hnulls : nulls ≠ .allNull)

include hm hv hnan hcmp hd hnulls

theorem eqTest_of_value (h : eqTest (.datum d) (min.map .datum) (max.map .datum) nulls = .ok b) :
    b = true := by
  unfold eqTest at h
  rw [if_neg hnulls] at h
  cases h
  have hbetween := fun bound => ColumnMetrics.between (b := bound) hm hv hnan hcmp hd
  have hlower : (min.map PageBound.datum).any (PageBound.compares (· == .gt) (.datum d)) = false := by
    cases min with
    | none => rfl
    | some bound => exact ((hbetween bound).1 rfl).1
  have hupper : (max.map PageBound.datum).any (PageBound.compares (· == .lt) (.datum d)) = false := by
    cases max with
    | none => rfl
    | some bound => exact ((hbetween bound).2 rfl).1
  rw [hlower, hupper]
  rfl

theorem isInTest_of_value {ls : List BoundLiteral} (hmem : .datum d ∈ ls)
    (h : isInTest ls (min.map .datum) (max.map .datum) nulls = .ok b) : b = true := by
  unfold isInTest at h
  rw [if_neg hnulls] at h
  have hbetween := fun bound => ColumnMetrics.between (b := bound) hm hv hnan hcmp hd
  cases min with
  | none =>
      cases max with
      | none =>
          cases h
          rfl
      | some hi =>
          cases h
          exact List.any_eq_true.mpr ⟨.datum d, hmem, ((hbetween hi).2 rfl).2⟩
  | some lo =>
      cases max with
      | none =>
          cases h
          exact List.any_eq_true.mpr ⟨.datum d, hmem, ((hbetween lo).1 rfl).2⟩
      | some hi =>
          cases h
          rw [Bool.not_eq_true', List.all_eq_false]
          refine ⟨.datum d, hmem, ?_⟩
          have hlo : BoundLiteral.compares (· != .lt) lo (.datum d) = true := ((hbetween lo).1 rfl).2
          have hhi : BoundLiteral.compares (· != .gt) hi (.datum d) = true := ((hbetween hi).2 rfl).2
          have hnlo : BoundLiteral.compares (· == .lt) lo (.datum d) = false := by
            obtain ⟨o, ho, hne⟩ := (Option.any_eq_true _ _).mp hlo
            show (d.partialCmp lo).any _ = false
            rw [ho]
            simpa using hne
          have hnhi : BoundLiteral.compares (· == .gt) hi (.datum d) = false := by
            obtain ⟨o, ho, hne⟩ := (Option.any_eq_true _ _).mp hhi
            show (d.partialCmp hi).any _ = false
            rw [ho]
            simpa using hne
          show ¬ (BoundLiteral.compares (· == .lt) lo (.datum d) ||
            BoundLiteral.compares (· == .gt) hi (.datum d)) = true
          rw [hnlo, hnhi]
          decide

end

/-! ### The selection of a leaf -/

section

variable (utf8 : Bytes → Option String) (fieldId : FieldRef → ℤ) (fieldIdMap : ℤ → Option ℕ)

/-- The page index describes a field of the rows: its field id is mapped exactly if the file has the column,
and then the pages of the column, one after the other, are the rows. -/
structure PageIndex.DescribesField (ix : PageIndex) (present : String → Bool) (rows : List Row)
    (r : FieldRef) : Prop where
  mapped : fieldIdMap (fieldId r) = none ↔ present r.field.name = false
  pages : ∀ c t entries firsts, fieldIdMap (fieldId r) = some c → r.field.fieldType = .primitive t →
    ix.columnIndex[c]? = some (.index entries) → ix.offsetIndex[c]? = some firsts →
    ∃ pages : List (List Row), pages.flatten = rows ∧ firsts = firstRows 0 (pages.map List.length) ∧
      entries.length = pages.length ∧ ∀ (k : ℕ) page e, pages[k]? = some page → entries[k]? = some e →
        e.Describes utf8 t (page.map fun row => row r.field.name)

variable {utf8 fieldId fieldIdMap} {ops : RowSelectionOps} {ix : PageIndex} {present : String → Bool}
  {rows : List Row} {row : Row} {r : FieldRef} {test : PageTest} {sel : RowSelection} {i : ℕ}

/-- A selection that is as long as the row group and has the row selected. -/
def Selects (rows : List Row) (i : ℕ) (passes : Prop) (sel : RowSelection) : Prop :=
  (expand sel).length = rows.length ∧ (passes → (expand sel)[i]? = some true)

theorem allRows_selects (hops : ops.Lawful) (hnum : ix.numRows = rows.length) (hi : i < rows.length)
    {b : Bool} (h : ix.allRows ops b = .ok sel) {passes : Prop} (hb : passes → b = true) :
    Selects rows i passes sel := by
  cases h
  have hexpand : expand (ops.ofSelectors [⟨ix.numRows, b⟩]) = List.replicate ix.numRows b := by
    rw [hops.ofSelectors]
    simp
  refine ⟨by rw [hexpand, List.length_replicate, hnum], ?_⟩
  intro hpasses
  rw [hexpand, hb hpasses, List.getElem?_replicate_of_lt (by omega)]

theorem testPages_spec {t : PrimitiveType} {entries : List PageEntry} {counts : List ℕ} {flags : List Bool}
    (hlen : entries.length = counts.length) (h : testPages utf8 test t entries counts = .ok flags) :
    flags.length = counts.length ∧ ∀ (k : ℕ) e n flag, entries[k]? = some e → counts[k]? = some n →
      flags[k]? = some flag → testPage utf8 test t n e = .ok flag := by
  induction entries generalizing counts flags with
  | nil =>
      obtain rfl := List.length_eq_zero_iff.mp hlen.symm
      cases h
      exact ⟨rfl, fun k e n flag he => by cases he⟩
  | cons e entries ih =>
      cases counts with
      | nil => cases hlen
      | cons n counts =>
          unfold testPages at h
          split at h
          · cases h
          · rename_i b hb
            cases hrest : testPages utf8 test t entries counts with
            | error err =>
                rw [hrest] at h
                cases h
            | ok rest =>
                rw [hrest] at h
                cases h
                obtain ⟨hlength, hflags⟩ := ih (Nat.succ.inj hlen) hrest
                refine ⟨congrArg (· + 1) hlength, ?_⟩
                intro k e' n' flag he hn hflag
                cases k with
                | zero =>
                    cases he
                    cases hn
                    cases hflag
                    exact hb
                | succ k => exact hflags k e' n' flag he hn hflag

/-- **The selection of a leaf**, from what the test says about the pages that are described. -/
theorem calcRowSelection_selects (hops : ops.Lawful) (hnum : ix.numRows = rows.length)
    (hfield : ix.DescribesField utf8 fieldId fieldIdMap present rows r) (hrow : rows[i]? = some row)
    {missing : Bool} {passes : Prop} (hmissing : present r.field.name = false → passes → missing = true)
    (htest : present r.field.name = true → passes → ∀ t cells (e : PageEntry), r.field.fieldType = .primitive t →
      e.Describes utf8 t cells → row r.field.name ∈ cells →
      ∀ b, testPage utf8 test t cells.length e = .ok b → b = true)
    (h : ix.calcRowSelection utf8 ops fieldId fieldIdMap r test missing = .ok sel) :
    Selects rows i passes sel := by
  have hi : i < rows.length := (List.getElem?_eq_some_iff.mp hrow).1
  unfold PageIndex.calcRowSelection at h
  split at h
  · rename_i hmap
    exact allRows_selects hops hnum hi h (hmissing (hfield.mapped.mp hmap))
  · rename_i c hmap
    have hpresent : present r.field.name = true := by
      by_contra hno
      rw [hfield.mapped.mpr (Bool.eq_false_of_not_eq_true hno)] at hmap
      cases hmap
    split at h
    · cases h
    · rename_i t ht
      split at h
      · exact allRows_selects hops hnum hi h fun _ => rfl
      · rename_i index hindex
        split at h
        · cases h
        · rename_i firsts hfirsts
          split at h
          · cases h
          · rename_i counts hcounts
            split at h
            · exact allRows_selects hops hnum hi h fun _ => rfl
            · cases h
            · cases h
            · rename_i entries
              obtain ⟨pages, hflat, hfirst, hlen, hdesc⟩ := hfield.pages c t entries firsts hmap ht hindex hfirsts
              have hsum : ix.numRows = (pages.map List.length).sum := by
                rw [hnum, ← hflat, List.length_flatten]
              rw [hfirst, hsum, calcRowCounts_firstRows] at hcounts
              obtain rfl := Except.ok.inj hcounts
              cases hflags : testPages utf8 test t entries (pages.map List.length) with
              | error err =>
                  rw [hflags] at h
                  cases h
              | ok flags =>
                  rw [hflags] at h
                  cases h
                  obtain ⟨hlength, hspec⟩ := testPages_spec (by rw [List.length_map, hlen]) hflags
                  refine ⟨by rw [hops.ofSelectors, length_expand_blocks hlength, ← hsum, hnum], ?_⟩
                  intro hpasses
                  rw [← hflat] at hrow
                  rw [List.length_map] at hlength
                  obtain ⟨k, page, flag, hpage, hflag, hmem, hget⟩ := getElem?_expand_blocks hlength hrow
                  have hk : k < entries.length := by
                    rw [hlen]
                    exact (List.getElem?_eq_some_iff.mp hpage).1
                  have hentry : entries[k]? = some entries[k] := List.getElem?_eq_getElem hk
                  have hcount : (pages.map List.length)[k]? = some page.length := by
                    rw [List.getElem?_map, hpage]
                    rfl
                  have hok := hspec k _ _ flag hentry hcount hflag
                  have htrue := htest hpresent hpasses t _ _ ht (hdesc k page _ hpage hentry)
                    (List.mem_map_of_mem hmem) flag (by rw [List.length_map]; exact hok)
                  rw [hops.ofSelectors, hget, htrue]

/-! ### Every leaf, every predicate -/

/-- What a column that the file does not have answers. -/
theorem onColumn_missing (hpresent : present r.field.name = false) {missing : Option Bool}
    {found : Except FilterError (Option Bool)} (h : onColumn present r missing found = .ok (some true)) :
    missing = some true := by
  unfold onColumn at h
  rw [hpresent] at h
  exact Except.ok.inj h

/-- The evaluated test of a described page. -/
theorem testPage_eq {t : PrimitiveType} {e : PageEntry} {cells : List (Option NativeValue)} {b : Bool}
    (hdesc : e.Describes utf8 t cells) (h : testPage utf8 test t cells.length e = .ok b) :
    ∃ min max : Option Datum, (pageMetrics cells.length e.nullCount min max).Describes cells ∧
      (∀ d, min = some d ∨ max = some d → d.primitiveType = t) ∧
      test (min.map .datum) (max.map .datum) (.fromCounts cells.length e.nullCount) = .ok b := by
  obtain ⟨min, max, hmin, hmax, hm, htype⟩ := hdesc.metrics
  refine ⟨min, max, hm, htype, ?_⟩
  unfold testPage at h
  rw [hmin, hmax] at h
  exact h

theorem textLeaf_eq_ok {l : BoundLiteral} {f : List Char → Except VisitError RowSelection}
    (h : textLeaf l f = .ok sel) : ∃ s : String, l = .datum (.string s) ∧ f s.toList = .ok sel := by
  unfold textLeaf at h
  split at h
  · exact ⟨_, rfl, h⟩
  · cases h

/-- A comparison that a value passes selects its page. -/
theorem comparison_test {op : PredicateOperator} {d : Datum} (hd : (BoundLiteral.datum d).OfType r.field.fieldType)
    {v : NativeValue} (hv : row r.field.name = some v) (hnan : v.1.isNan = false)
    (heval : Predicate.evalBinary op v.1 d.value = some true)
    (hop : (∃ cmp, (cmp = (· == .lt) ∨ cmp = (· != .gt)) ∧ test = inequalityTest (.datum d) cmp true ∧
        op.test = fun o => some (cmp o)) ∨
      (∃ cmp, (cmp = (· == .gt) ∨ cmp = (· != .lt)) ∧ test = inequalityTest (.datum d) cmp false ∧
        op.test = fun o => some (cmp o)) ∨
      op = .eq ∧ test = eqTest (.datum d))
    (hplain : op ≠ .startsWith ∧ op ≠ .notStartsWith)
    {t : PrimitiveType} (ht : r.field.fieldType = .primitive t) {cells : List (Option NativeValue)}
    {e : PageEntry} (hdesc : e.Describes utf8 t cells) (hmem : row r.field.name ∈ cells) {b : Bool}
    (h : testPage utf8 test t cells.length e = .ok b) : b = true := by
  rw [hv] at hmem
  obtain ⟨min, max, hm, htype, htest⟩ := testPage_eq hdesc h
  have hnulls := hdesc.not_allNull hmem
  have hcmp : (pageMetrics cells.length e.nullCount min max).Comparable (.datum d) := by
    refine comparable_of_typed hd ?_
    intro bound hbound
    rw [ht, htype bound (hbound.imp Except.ok.inj Except.ok.inj)]
  have hordered : ∃ o, v.1.ordering d.value = some o ∧ op.test o = some true := by
    refine Option.bind_eq_some_iff.mp ?_
    cases op with
    | startsWith => exact absurd rfl hplain.1
    | notStartsWith => exact absurd rfl hplain.2
    | _ => exact heval
  obtain ⟨o, ho, hopTest⟩ := hordered
  rcases hop with ⟨cmp, hle, rfl, hcmpOp⟩ | ⟨cmp, hge, rfl, hcmpOp⟩ | ⟨rfl, rfl⟩
  · rw [hcmpOp] at hopTest
    rw [inequalityTest_eq hnulls (hm.nullsOnly hmem)] at htest
    exact ColumnMetrics.visitInequality_of_lower hm hmem hnan hcmp hle ho (Option.some.inj hopTest) htest
  · rw [hcmpOp] at hopTest
    rw [inequalityTest_eq hnulls (hm.nullsOnly hmem)] at htest
    exact ColumnMetrics.visitInequality_of_upper hm hmem hnan hcmp hge ho (Option.some.inj hopTest) htest
  · obtain rfl : o = .eq := eq_of_beq (Option.some.inj hopTest)
    exact eqTest_of_value hm hmem hnan hcmp ((Value.ordering_eq_iff _ _).mp ho) hnulls htest

/-- A prefix test that a text passes selects its page. -/
theorem prefix_test {d : Datum} {s : String} (hd : d = .string s) {v : NativeValue}
    (hv : row r.field.name = some v)
    (hop : test = startsWithTest s.toList ∧ Predicate.prefixTest v.1 d.value = some true ∨
      test = notStartsWithTest s.toList ∧ Predicate.prefixTest v.1 d.value = some false)
    {t : PrimitiveType} {cells : List (Option NativeValue)} {e : PageEntry}
    (hdesc : e.Describes utf8 t cells) (hmem : row r.field.name ∈ cells) {b : Bool}
    (h : testPage utf8 test t cells.length e = .ok b) : b = true := by
  subst hd
  rw [hv] at hmem
  obtain ⟨min, max, hm, -, htest⟩ := testPage_eq hdesc h
  have htext : ∀ {w : Bool}, Predicate.prefixTest v.1 (Datum.string s).value = some w →
      ∃ u : String, v.1 = .str u ∧ s.toList.isPrefixOf u.toList = w := by
    intro w hw
    unfold Predicate.prefixTest at hw
    split at hw
    · rename_i u p hu hp
      cases hp
      exact ⟨u, hu, Option.some.inj hw⟩
    · cases hw
  rcases hop with ⟨rfl, hpre⟩ | ⟨rfl, hpre⟩
  · obtain ⟨u, hu, hpre⟩ := htext hpre
    rw [startsWithTest_eq (hdesc.not_allNull hmem)] at htest
    exact ColumnMetrics.startsWithText_of_prefix hm hu hmem (List.isPrefixOf_iff_prefix.mp hpre) htest
  · obtain ⟨u, hu, hpre⟩ := htext hpre
    by_cases hnulls : PageNullCount.fromCounts cells.length e.nullCount = .noneNull
    · rw [notStartsWithTest_eq hnulls] at htest
      refine ColumnMetrics.notStartsWithText_of_not_prefix hm hu hmem ?_ htest
      intro hprefix
      rw [List.isPrefixOf_iff_prefix.mpr hprefix] at hpre
      cases hpre
    · unfold notStartsWithTest at htest
      rw [if_pos hnulls] at htest
      exact (Except.ok.inj htest).symm

variable (hops : ops.Lawful) (hnum : ix.numRows = rows.length) (hrow : rows[i]? = some row)
  (hfield : ix.DescribesField utf8 fieldId fieldIdMap present rows r)
  (hnan : present r.field.name = true → cellIsNan (row r.field.name) = false)

include hops hnum hrow hfield

theorem unary_selects {op : PredicateOperator} (hop : op ≠ .isNan)
    (h : visitUnary (pageIndexVisitor utf8 ops fieldId fieldIdMap ix) op r = .ok sel) :
    Selects rows i (BoundPredicate.Passes present row (.unary op r)) sel := by
  have hi : i < rows.length := (List.getElem?_eq_some_iff.mp hrow).1
  cases op with
  | isNull =>
      refine calcRowSelection_selects hops hnum hfield hrow (fun _ _ => rfl) ?_ h
      intro hpresent hpass t cells e _ hdesc hmem b htest
      have hnull : row r.field.name = none :=
        Option.isNone_iff_eq_none.mp (Option.some.inj (passes_unary hpresent hpass))
      rw [hnull] at hmem
      obtain ⟨min, max, -, -, htest⟩ := testPage_eq hdesc htest
      obtain rfl := Except.ok.inj htest
      exact bne_iff_ne.mpr (hdesc.not_noneNull hmem)
  | notNull =>
      refine calcRowSelection_selects hops hnum hfield hrow ?_ ?_ h
      · intro hpresent hpass
        cases onColumn_missing hpresent hpass
      · intro hpresent hpass t cells e _ hdesc hmem b htest
        obtain ⟨v, hv⟩ := Option.isSome_iff_exists.mp (Option.some.inj (passes_unary hpresent hpass))
        rw [hv] at hmem
        obtain ⟨min, max, -, -, htest⟩ := testPage_eq hdesc htest
        obtain rfl := Except.ok.inj htest
        exact bne_iff_ne.mpr (hdesc.not_allNull hmem)
  | isNan => exact absurd rfl hop
  | notNan => exact allRows_selects hops hnum hi h fun _ => rfl
  | _ => cases h

include hnan

theorem binary_selects {op : PredicateOperator} {l : BoundLiteral} (hl : l.OfType r.field.fieldType)
    (h : visitBinary (pageIndexVisitor utf8 ops fieldId fieldIdMap ix) op r l = .ok sel) :
    Selects rows i (BoundPredicate.Passes present row (.binary op r l)) sel := by
  have hi : i < rows.length := (List.getElem?_eq_some_iff.mp hrow).1
  have hmissing : present r.field.name = false → BoundPredicate.Passes present row (.binary op r l) →
      missingBinary op = some true := fun hpresent hpass => onColumn_missing hpresent hpass
  -- A comparison, whatever it answers for a missing column.
  have hcompare : ∀ {test : PageTest} {missing : Bool}, (missingBinary op = some true → missing = true) →
      (∀ d v, l = .datum d → row r.field.name = some v → v.1.isNan = false →
        Predicate.evalBinary op v.1 d.value = some true →
        ∀ t cells (e : PageEntry), r.field.fieldType = .primitive t → e.Describes utf8 t cells →
          row r.field.name ∈ cells → ∀ b, testPage utf8 test t cells.length e = .ok b → b = true) →
      ix.calcRowSelection utf8 ops fieldId fieldIdMap r test missing = .ok sel →
      Selects rows i (BoundPredicate.Passes present row (.binary op r l)) sel := by
    intro test missing hmiss htest hsel
    refine calcRowSelection_selects hops hnum hfield hrow (fun hp hpass => hmiss (hmissing hp hpass)) ?_ hsel
    intro hpresent hpass
    obtain ⟨d, v, hd, hv, heval⟩ := passes_binary hpresent hpass
    have hvnan := hnan hpresent
    rw [hv] at hvnan
    exact htest d v hd hv hvnan heval
  cases op with
  | lessThan =>
      refine hcompare (fun _ => rfl) ?_ h
      rintro d v rfl hv hvnan heval t cells e ht hdesc hmem b htest
      exact comparison_test hl hv hvnan heval (.inl ⟨_, .inl rfl, rfl, rfl⟩) ⟨nofun, nofun⟩ ht hdesc hmem htest
  | lessThanOrEq =>
      refine hcompare (fun _ => rfl) ?_ h
      rintro d v rfl hv hvnan heval t cells e ht hdesc hmem b htest
      exact comparison_test hl hv hvnan heval (.inl ⟨_, .inr rfl, rfl, rfl⟩) ⟨nofun, nofun⟩ ht hdesc hmem htest
  | greaterThan =>
      refine hcompare (fun _ => rfl) ?_ h
      rintro d v rfl hv hvnan heval t cells e ht hdesc hmem b htest
      exact comparison_test hl hv hvnan heval (.inr (.inl ⟨_, .inl rfl, rfl, rfl⟩)) ⟨nofun, nofun⟩ ht hdesc hmem
        htest
  | greaterThanOrEq =>
      refine hcompare (fun _ => rfl) ?_ h
      rintro d v rfl hv hvnan heval t cells e ht hdesc hmem b htest
      exact comparison_test hl hv hvnan heval (.inr (.inl ⟨_, .inr rfl, rfl, rfl⟩)) ⟨nofun, nofun⟩ ht hdesc hmem
        htest
  | eq =>
      refine hcompare (fun hmiss => by cases hmiss) ?_ h
      rintro d v rfl hv hvnan heval t cells e ht hdesc hmem b htest
      exact comparison_test hl hv hvnan heval (.inr (.inr ⟨rfl, rfl⟩)) ⟨nofun, nofun⟩ ht hdesc hmem htest
  | notEq => exact allRows_selects hops hnum hi h fun _ => rfl
  | startsWith =>
      have hvisit : textLeaf l (fun s => ix.calcRowSelection utf8 ops fieldId fieldIdMap r (startsWithTest s) false) =
        .ok sel := h
      obtain ⟨s, rfl, hsel⟩ := textLeaf_eq_ok hvisit
      refine hcompare (fun hmiss => by cases hmiss) ?_ hsel
      intro d v hd hv _ heval t cells e _ hdesc hmem b htest
      exact prefix_test (BoundLiteral.datum.inj hd).symm hv (.inl ⟨rfl, heval⟩) hdesc hmem htest
  | notStartsWith =>
      have hvisit : textLeaf l (fun s => ix.calcRowSelection utf8 ops fieldId fieldIdMap r (notStartsWithTest s) true) =
        .ok sel := h
      obtain ⟨s, rfl, hsel⟩ := textLeaf_eq_ok hvisit
      refine hcompare (fun _ => rfl) ?_ hsel
      intro d v hd hv _ heval t cells e _ hdesc hmem b htest
      exact prefix_test (BoundLiteral.datum.inj hd).symm hv (.inr ⟨rfl, (knot_eq_true _).mp heval⟩) hdesc hmem htest
  | _ => cases h

theorem set_selects {op : PredicateOperator} {ls : List BoundLiteral}
    (hls : ∀ l ∈ ls, l.OfType r.field.fieldType)
    (h : visitSet (pageIndexVisitor utf8 ops fieldId fieldIdMap ix) op r ls = .ok sel) :
    Selects rows i (BoundPredicate.Passes present row (.set op r ls)) sel := by
  have hi : i < rows.length := (List.getElem?_eq_some_iff.mp hrow).1
  cases op with
  | isIn =>
      have hvisit : (if ColumnMetrics.inPredicateLimit < ls.length then ix.allRows ops true
        else ix.calcRowSelection utf8 ops fieldId fieldIdMap r (isInTest ls) false) = .ok sel := h
      split at hvisit
      · exact allRows_selects hops hnum hi hvisit fun _ => rfl
      · refine calcRowSelection_selects hops hnum hfield hrow ?_ ?_ hvisit
        · intro hpresent hpass
          cases onColumn_missing hpresent hpass
        · intro hpresent hpass t cells e ht hdesc hmem b htest
          obtain ⟨d, v, hd, hv, hvd⟩ := passes_isIn hpresent hpass
          have hvnan := hnan hpresent
          rw [hv] at hvnan hmem
          obtain ⟨min, max, hm, htype, htest⟩ := testPage_eq hdesc htest
          refine isInTest_of_value hm hmem hvnan ?_ hvd (hdesc.not_allNull hmem) hd htest
          refine comparable_of_typed (hls _ hd) ?_
          intro bound hbound
          rw [ht, htype bound (hbound.imp Except.ok.inj Except.ok.inj)]
  | notIn => exact allRows_selects hops hnum hi h fun _ => rfl
  | _ => cases h

omit hfield hnan

/-- **The selection of a leaf.** -/
theorem pageIndexVisitor_leaf {b : BoundPredicate} (hb : b.IsLeaf) (htyped : b.Typed)
    (hask : ∀ r, b ≠ .unary .isNan r)
    (hfields : ∀ r ∈ b.fields, ix.DescribesField utf8 fieldId fieldIdMap present rows r)
    (hnan : NanFree present row b) (h : visit (pageIndexVisitor utf8 ops fieldId fieldIdMap ix) b = .ok sel) :
    Selects rows i (b.Passes present row) sel := by
  cases b with
  | unary op r =>
      refine unary_selects hops hnum hrow (hfields r List.mem_cons_self) ?_ h
      rintro rfl
      exact hask r rfl
  | binary op r l =>
      exact binary_selects hops hnum hrow (hfields r List.mem_cons_self) (hnan r List.mem_cons_self) htyped h
  | set op r ls =>
      exact set_selects hops hnum hrow (hfields r List.mem_cons_self) (hnan r List.mem_cons_self) htyped h
  | alwaysTrue => cases hb
  | alwaysFalse => cases hb
  | andExpr l r => cases hb
  | orExpr l r => cases hb
  | notExpr p => cases hb

omit hrow

/-- Selections of the length of the row group are joined row by row. -/
theorem pageIndexVisitor_joins (hi : i < rows.length) :
    Joins (pageIndexVisitor utf8 ops fieldId fieldIdMap ix) (fun sel => (expand sel).length = rows.length)
      (fun sel => (expand sel)[i]? = some true) where
  wfTrue := fun _ h => (allRows_selects hops hnum hi h fun _ : True => rfl).1
  wfFalse := fun _ h => (allRows_selects hops hnum hi h False.elim).1
  wfAnd := by
    intro a b t h ha hb
    cases h
    rw [hops.intersection a b (ha.trans hb.symm), length_meet (ha.trans hb.symm), ha]
  wfOr := by
    intro a b t h ha hb
    cases h
    rw [hops.union a b (ha.trans hb.symm), length_join (ha.trans hb.symm), ha]
  alwaysTrue := fun _ h => (allRows_selects hops hnum hi h fun _ => rfl).2 trivial
  and := by
    intro a b t h ha hb hka hkb
    cases h
    rw [hops.intersection a b (ha.trans hb.symm), getElem?_meet hka hkb]
    rfl
  or := by
    intro a b t h ha hb hab
    cases h
    have hla : (expand a)[i]? = some (expand a)[i] := List.getElem?_eq_getElem (by omega)
    have hlb : (expand b)[i]? = some (expand b)[i] := List.getElem?_eq_getElem (by omega)
    rw [hops.union a b (ha.trans hb.symm), getElem?_join hla hlb]
    rcases hab with hka | hkb
    · rw [Option.some.inj (hla.symm.trans hka), Bool.true_or]
    · rw [Option.some.inj (hlb.symm.trans hkb), Bool.or_true]

theorem pageIndexEval_retains {p : BoundPredicate} (hp : p.NotFree) (htyped : p.Typed) (hask : AsksNoNan p)
    (hfields : ∀ r ∈ p.fields, ix.DescribesField utf8 fieldId fieldIdMap present rows r)
    (hnan : ∀ row ∈ rows, NanFree present row p)
    (h : pageIndexEval utf8 ops fieldId fieldIdMap ix p = .ok sel) :
    Retains (p.keeps present) (expand sel) rows := by
  unfold pageIndexEval at h
  split at h
  · rename_i hzero
    cases h
    obtain rfl := List.length_eq_zero_iff.mp (hnum.symm.trans hzero)
    exact Retains.nil _
  · rename_i hne
    have hselects : ∀ i row, rows[i]? = some row → Selects rows i (p.Passes present row) sel := by
      intro i row hrow
      have hi : i < rows.length := (List.getElem?_eq_some_iff.mp hrow).1
      have hleaf : ∀ b ∈ p.leaves, ∀ t, visit (pageIndexVisitor utf8 ops fieldId fieldIdMap ix) b = .ok t →
          Selects rows i (b.Passes present row) t := by
        intro b hb t ht
        refine pageIndexVisitor_leaf hops hnum hrow (BoundPredicate.isLeaf_of_mem hb) (htyped.of_mem hb) ?_ ?_ ?_ ht
        · rintro r rfl
          exact hask r hb
        · exact fun r hr => hfields r (BoundPredicate.mem_fields hb r hr)
        · exact fun r hr => hnan row (List.mem_of_getElem? hrow) r (BoundPredicate.mem_fields hb r hr)
      have hjoins : Joins (pageIndexVisitor utf8 ops fieldId fieldIdMap ix) _ _ :=
        pageIndexVisitor_joins hops hnum hi
      have hlength := visit_wf hjoins hp (fun b hb t ht => (hleaf b hb t ht).1) h
      exact ⟨hlength, visit_keeps hjoins (passes_satisfies present row) hp hleaf h⟩
    have hpos : 0 < rows.length := by omega
    refine ⟨(hselects 0 rows[0] (List.getElem?_eq_getElem hpos)).1, ?_⟩
    intro i row hrow hkeeps
    exact (hselects i row hrow).2 ((BoundPredicate.keeps_iff _ _ _).mp hkeeps)

/-- **Pruning by the page index loses no row**: the selection is as long as the row group, and what the row
filter keeps of the selected rows is what it keeps of all of them. -/
theorem pageIndexEval_keeps {p : BoundPredicate} (hp : p.NotFree) (htyped : p.Typed) (hask : AsksNoNan p)
    (hfields : ∀ r ∈ p.fields, ix.DescribesField utf8 fieldId fieldIdMap present rows r)
    (hnan : ∀ row ∈ rows, NanFree present row p)
    (h : pageIndexEval utf8 ops fieldId fieldIdMap ix p = .ok sel) :
    (expand sel).length = rows.length ∧
      (mask (expand sel) rows).filter (p.keeps present) = rows.filter (p.keeps present) := by
  have hretains := pageIndexEval_retains hops hnum hp htyped hask hfields hnan h
  exact ⟨hretains.length, hretains.filter_mask⟩

end

/-- A row with `id = 12`. -/
def rowTwelve : Row := fun name => if name = "id" then some ⟨.integer 12, rfl⟩ else none

/-- The page index of two pages with one row each. -/
def twoPages : PageIndex where
  numRows := 2
  columnIndex := [.index [⟨some (.int32 1), some (.int32 5), some 0⟩,
    ⟨some (.int32 11), some (.int32 20), some 0⟩]]
  offsetIndex := [[0, 1]]

/-- An entry of a page with one value between its bounds. -/
theorem describes_one {lo x hi : ℤ} (hlo : lo ≤ x) (hhi : x ≤ hi) :
    PageEntry.Describes (fun _ => none) .int ⟨some (.int32 lo), some (.int32 hi), some 0⟩
      [some ⟨.integer x, rfl⟩] where
  nullCount := fun n hn => (Option.some.inj hn).symm
  fits := by
    rintro v (hv | hv)
    · cases hv
      exact ⟨.int lo, rfl⟩
    · cases hv
      exact ⟨.int hi, rfl⟩
  lower := by
    intro v d hv hd y hy _
    cases hv
    cases hd
    cases List.mem_singleton.mp hy
    exact ⟨_, rfl, (lcmp_ne_gt_iff lo x).mpr hlo⟩
  upper := by
    intro v d hv hd y hy _
    cases hv
    cases hd
    cases List.mem_singleton.mp hy
    exact ⟨_, rfl, (lcmp_ne_gt_iff x hi).mpr hhi⟩

theorem describes_twoPages : twoPages.DescribesField (fun _ => none) (fun _ => 1) (fun _ => some 0)
    (fun _ => true) [rowThree, rowTwelve] idRef := by
  refine ⟨iff_of_false (by decide) (by decide), ?_⟩
  intro c t entries firsts hc ht hindex hfirsts
  cases hc
  cases ht
  cases hindex
  cases hfirsts
  refine ⟨[[rowThree], [rowTwelve]], rfl, rfl, rfl, ?_⟩
  intro k page e hpage he
  cases k with
  | zero =>
      cases hpage
      cases he
      exact describes_one (by decide) (by decide)
  | succ k =>
      cases k with
      | zero =>
          cases hpage
          cases he
          exact describes_one (by decide) (by decide)
      | succ k => cases hpage

theorem nanFree_twoRows : ∀ row ∈ [rowThree, rowTwelve], NanFree (fun _ => true) row aboveTen := by
  intro row hrow r hr _
  obtain rfl : r = idRef := List.mem_singleton.mp hr
  rcases List.mem_cons.mp hrow with rfl | hrow
  · rfl
  · obtain rfl := List.mem_singleton.mp hrow
    rfl

/-- The first page is left out, and the filter `id > 10` keeps the row of the second. -/
theorem pageIndexEval_keeps_aboveTen :
    (expand [⟨1, false⟩, ⟨1, true⟩]).length = 2 ∧
      (mask (expand [⟨1, false⟩, ⟨1, true⟩]) [rowThree, rowTwelve]).filter (aboveTen.keeps fun _ => true) =
        [rowThree, rowTwelve].filter (aboveTen.keeps fun _ => true) := by
  have hfields : ∀ r ∈ aboveTen.fields, twoPages.DescribesField (fun _ => none) (fun _ => 1) (fun _ => some 0)
      (fun _ => true) [rowThree, rowTwelve] r := by
    intro r hr
    obtain rfl : r = idRef := List.mem_singleton.mp hr
    exact describes_twoPages
  have heval : pageIndexEval (fun _ => none) plainOps (fun _ => 1) (fun _ => some 0) twoPages aboveTen =
      .ok [⟨1, false⟩, ⟨1, true⟩] := by rfl
  have hfree : aboveTen.NotFree := trivial
  exact pageIndexEval_keeps plainOps_lawful rfl hfree aboveTen_typed aboveTen_asksNoNan hfields nanFree_twoRows heval

end IcebergDb.Scan
