import IcebergDb.Expr.PhysicalExprToPredicate

/-!
# From logical filters to Iceberg predicates

`expr_to_predicate.rs`: the converter for the logical expressions that a scan is planned with.  It is the
elder brother of the physical converter and shares its operators and connectives; `LIKE`, `isnan` and
casts are its own.

* `LogicalExpr` — logical expressions, `other` standing for every variant the converter does not know;
* `convertFiltersToPredicate` — the conjunction of the filters that convert;
* `LogicalExpr.pushedColumns` — which columns a filter passes on, read off its syntax;
* `columns_convertFiltersToPredicate` — the columns of the predicate are exactly those.
-/

namespace IcebergDb.Expr

/-- The types a cast may have, as far as the converter looks. -/
inductive CastType where
  | date32
  | date64
  | other (name : String)
deriving DecidableEq

/-- `Expr`: logical expressions. -/
inductive LogicalExpr where
  | column (name : String)
  | literal (v : ScalarValue)
  | binary (left : LogicalExpr) (op : Operator) (right : LogicalExpr)
  | not (arg : LogicalExpr)
  | isNull (arg : LogicalExpr)
  | isNotNull (arg : LogicalExpr)
  | inList (expr : LogicalExpr) (list : List LogicalExpr) (negated : Bool)
  | cast (expr : LogicalExpr) (dataType : CastType)
  | like (negated : Bool) (expr pattern : LogicalExpr) (escapeChar : Option Char) (caseInsensitive : Bool)
  | scalarFunction (name : String) (args : List LogicalExpr)
  | other (name : String) (args : List LogicalExpr)

/-- Casts to a date truncate, and are not looked through. -/
def CastType.truncates : CastType → Bool
  | .date32 => true
  | .date64 => true
  | .other _ => false

/-- `to_iceberg_operation`. -/
def toIcebergOperation : Operator → PhysicalOp := mapOperator

/-- `to_iceberg_and_predicate`. -/
def toIcebergAndPredicate : PhysicalTransformed → PhysicalTransformed → PhysicalTransformed := toAnd

/-- `to_iceberg_or_predicate`. -/
def toIcebergOrPredicate : PhysicalTransformed → PhysicalTransformed → PhysicalTransformed := toOr

/-- `to_iceberg_binary_predicate`. -/
def toIcebergBinaryPredicate :
    PhysicalTransformed → PhysicalTransformed → PredicateOperator → PhysicalTransformed := toBinary

/-- A predicate made of a column; anything else is not transformed. -/
def ofColumn (make : String → Predicate) : PhysicalTransformed → PhysicalTransformed
  | .column r => .predicate (make r)
  | _ => .notTransformed

/-- The datums of a list of literals. -/
def datumsOf : List PhysicalTransformed → Option (List Datum)
  | [] => some []
  | .literal d :: ts => (datumsOf ts).map (d :: ·)
  | _ :: _ => none

/-- The text before the final `%` of a pattern without other wildcards. -/
def likePrefix (pattern : String) : Option String :=
  let text := pattern.toList
  if text.getLast? == some '%' && !text.dropLast.any (fun c => c == '%' || c == '_') then
    some (String.ofList text.dropLast)
  else none

/-- The prefix of a pattern expression. -/
def patternPrefix : PhysicalTransformed → Option String
  | .literal (.string s) => likePrefix s
  | _ => none

mutual

/-- `to_iceberg_predicate`. -/
def toIcebergPredicate : LogicalExpr → PhysicalTransformed
  | .binary l op r =>
      match toIcebergOperation op with
      | .compare op => toIcebergBinaryPredicate (toIcebergPredicate l) (toIcebergPredicate r) op
      | .and => toIcebergAndPredicate (toIcebergPredicate l) (toIcebergPredicate r)
      | .or => toIcebergOrPredicate (toIcebergPredicate l) (toIcebergPredicate r)
      | .notTransformed => .notTransformed
  | .not e =>
      match toIcebergPredicate e with
      | .predicate p => .predicate (.notExpr p)
      | .column r => .predicate (.binary .eq r (.boolean false))
      | _ => .notTransformed
  | .column name => .column name
  | .literal v =>
      match scalarValueToDatum v with
      | some d => .literal d
      | none => .notTransformed
  | .inList e items negated =>
      match datumsOf (toIcebergPredicates items) with
      | some ds => ofColumn (fun r => if negated then .isNotIn r ds else .isIn r ds) (toIcebergPredicate e)
      | none => .notTransformed
  | .isNull e => ofColumn (.unary .isNull) (toIcebergPredicate e)
  | .isNotNull e => ofColumn (.unary .notNull) (toIcebergPredicate e)
  | .cast e t => if t.truncates then .notTransformed else toIcebergPredicate e
  | .like negated e pattern escapeChar caseInsensitive =>
      if escapeChar.isSome || caseInsensitive then .notTransformed
      else match patternPrefix (toIcebergPredicate pattern) with
        | some text =>
            ofColumn (fun r => .binary (if negated then .notStartsWith else .startsWith) r (.string text))
              (toIcebergPredicate e)
        | none => .notTransformed
  | .scalarFunction name args =>
      -- `scalar_function_to_iceberg_predicate`
      match name, toIcebergPredicates args with
      | "isnan", [operand] => ofColumn (.unary .isNan) operand
      | _, _ => .notTransformed
  | .other _ _ => .notTransformed

/-- The conversions of a list of expressions. -/
def toIcebergPredicates : List LogicalExpr → List PhysicalTransformed
  | [] => []
  | e :: es => toIcebergPredicate e :: toIcebergPredicates es

end

/-- `convert_filter_to_predicate`. -/
def convertFilterToPredicate (e : LogicalExpr) : Option Predicate :=
  match toIcebergPredicate e with
  | .predicate p => some p
  | .column r => some (.binary .eq r (.boolean true))
  | _ => none

/-- `reduce(Predicate::and)`. -/
def reduceAnd : List Predicate → Option Predicate
  | [] => none
  | p :: ps => some (ps.foldl .and p)

/-- `convert_filters_to_predicate`. -/
def convertFiltersToPredicate (filters : List LogicalExpr) : Option Predicate :=
  reduceAnd (filters.filterMap convertFilterToPredicate)

/-! ### Which columns are passed on -/

namespace LogicalExpr

/-- The column an expression is, under casts that keep the value. -/
def asColumn : LogicalExpr → Option String
  | column name => some name
  | cast e t => if t.truncates then none else e.asColumn
  | _ => none

/-- The literal an expression is, under casts that keep the value. -/
def asLiteral : LogicalExpr → Option Datum
  | literal v => scalarValueToDatum v
  | cast e t => if t.truncates then none else e.asLiteral
  | _ => none

/-- A pattern that is a literal text with one `%`, at its end. -/
def isPrefixPattern (pattern : LogicalExpr) : Bool :=
  match pattern.asLiteral with
  | some (.string s) => (likePrefix s).isSome
  | _ => false

/-- One column compared with one literal. -/
def comparedColumn (l r : LogicalExpr) : Option String :=
  match l.asColumn, r.asLiteral, l.asLiteral, r.asColumn with
  | some c, some _, _, _ => some c
  | _, _, some _, some c => some c
  | _, _, _, _ => none

/-- The columns of the part of a condition that converts; `none` if no part of it does. -/
def conditionColumns : LogicalExpr → Option (List String)
  | binary l .and r =>
      match l.conditionColumns, r.conditionColumns with
      | some a, some b => some (a ++ b)
      | some a, none => some a
      | none, b => b
  | binary l .or r =>
      match l.conditionColumns, r.conditionColumns with
      | some a, some b => some (a ++ b)
      | _, _ => none
  | binary _ (.other _) _ => none
  | binary l _ r => (comparedColumn l r).map ([·])
  | not e =>
      match e.conditionColumns with
      | some cs => some cs
      | none => e.asColumn.map ([·])
  | isNull e | isNotNull e => e.asColumn.map ([·])
  | inList e items _ => if items.all (·.asLiteral.isSome) then e.asColumn.map ([·]) else none
  | cast e t => if t.truncates then none else e.conditionColumns
  | like _ e pattern escapeChar caseInsensitive =>
      if escapeChar.isSome || caseInsensitive || !pattern.isPrefixPattern then none
      else e.asColumn.map ([·])
  | scalarFunction name args =>
      match name, args with
      | "isnan", [e] => e.asColumn.map ([·])
      | _, _ => none
  | _ => none

/-- The columns that a filter passes on: those of its condition, or itself if it is a boolean column. -/
def pushedColumns (e : LogicalExpr) : List String :=
  match e.conditionColumns, e.asColumn with
  | some cs, _ => cs
  | none, some c => [c]
  | none, none => []

mutual

/-- Every column of an expression. -/
def columns : LogicalExpr → List String
  | column name => [name]
  | literal _ => []
  | binary l _ r => l.columns ++ r.columns
  | not e | isNull e | isNotNull e | cast e _ => e.columns
  | inList e items _ => e.columns ++ columnsList items
  | like _ e pattern _ _ => e.columns ++ pattern.columns
  | scalarFunction _ args | other _ args => columnsList args

/-- The columns of a list of expressions. -/
def columnsList : List LogicalExpr → List String
  | [] => []
  | e :: es => e.columns ++ columnsList es

end

end LogicalExpr

/-! ### The converter follows the syntax -/

namespace PhysicalTransformed

/-- The column of a conversion result. -/
def asColumn : PhysicalTransformed → Option String
  | column r => some r
  | _ => none

/-- The literal of a conversion result. -/
def asLiteral : PhysicalTransformed → Option Datum
  | literal d => some d
  | _ => none

/-- The columns of the predicate of a conversion result. -/
def conditionColumns : PhysicalTransformed → Option (List String)
  | predicate p => some p.columns
  | _ => none

end PhysicalTransformed

namespace LogicalExpr

/-- What a conversion result says about the expression it comes from.  No predicate of the converter is a
constant, so the connectives never absorb a side. -/
def Described (e : LogicalExpr) : PhysicalTransformed → Prop
  | .predicate p => (p ≠ .alwaysTrue ∧ p ≠ .alwaysFalse) ∧ e.conditionColumns = some p.columns ∧
      e.asColumn = none ∧ e.asLiteral = none
  | .column r => e.conditionColumns = none ∧ e.asColumn = some r ∧ e.asLiteral = none
  | .literal d => e.conditionColumns = none ∧ e.asColumn = none ∧ e.asLiteral = some d
  | .notTransformed => e.conditionColumns = none ∧ e.asColumn = none ∧ e.asLiteral = none

theorem Described.asColumn_eq {e : LogicalExpr} {t : PhysicalTransformed} (h : Described e t) :
    e.asColumn = t.asColumn := by
  cases t with
  | predicate p => exact h.2.2.1
  | column r => exact h.2.1
  | literal d => exact h.2.1
  | notTransformed => exact h.2.1

theorem Described.asLiteral_eq {e : LogicalExpr} {t : PhysicalTransformed} (h : Described e t) :
    e.asLiteral = t.asLiteral := by
  cases t with
  | predicate p => exact h.2.2.2
  | column r => exact h.2.2
  | literal d => exact h.2.2
  | notTransformed => exact h.2.2

theorem Described.conditionColumns_eq {e : LogicalExpr} {t : PhysicalTransformed} (h : Described e t) :
    e.conditionColumns = t.conditionColumns := by
  cases t with
  | predicate p => exact h.2.1
  | column r => exact h.1
  | literal d => exact h.1
  | notTransformed => exact h.1

/-- A test of one column. -/
theorem Described.ofColumn {e e' : LogicalExpr} {t : PhysicalTransformed} (h : Described e t)
    {make : String → Predicate} (hconst : ∀ r, make r ≠ .alwaysTrue ∧ make r ≠ .alwaysFalse)
    (hcols : ∀ r, (make r).columns = [r]) (hcond : e'.conditionColumns = e.asColumn.map ([·]))
    (hcol : e'.asColumn = none) (hlit : e'.asLiteral = none) :
    Described e' (Expr.ofColumn make t) := by
  rw [h.asColumn_eq] at hcond
  cases t with
  | column r => exact ⟨hconst r, by rw [hcond, hcols]; rfl, hcol, hlit⟩
  | predicate p => exact ⟨hcond, hcol, hlit⟩
  | literal d => exact ⟨hcond, hcol, hlit⟩
  | notTransformed => exact ⟨hcond, hcol, hlit⟩

/-- A comparison. -/
theorem Described.compare {l r e : LogicalExpr} {t u : PhysicalTransformed} (hl : Described l t)
    (hr : Described r u) (op : PredicateOperator)
    (hcond : e.conditionColumns = (comparedColumn l r).map ([·]))
    (hcol : e.asColumn = none) (hlit : e.asLiteral = none) :
    Described e (toIcebergBinaryPredicate t u op) := by
  unfold comparedColumn at hcond
  rw [hl.asColumn_eq, hl.asLiteral_eq, hr.asColumn_eq, hr.asLiteral_eq] at hcond
  cases t with
  | predicate p => cases u <;> exact ⟨hcond, hcol, hlit⟩
  | notTransformed => cases u <;> exact ⟨hcond, hcol, hlit⟩
  | column c =>
      cases u with
      | literal d => exact ⟨⟨by simp, by simp⟩, hcond, hcol, hlit⟩
      | _ => exact ⟨hcond, hcol, hlit⟩
  | literal d =>
      cases u with
      | column c => exact ⟨⟨by simp, by simp⟩, hcond, hcol, hlit⟩
      | _ => exact ⟨hcond, hcol, hlit⟩

/-- An AND keeps the sides that convert. -/
theorem Described.and {l r : LogicalExpr} {t u : PhysicalTransformed} (hl : Described l t)
    (hr : Described r u) : Described (.binary l .and r) (toIcebergAndPredicate t u) := by
  have hcond : (binary l .and r).conditionColumns = match l.conditionColumns, r.conditionColumns with
      | some a, some b => some (a ++ b)
      | some a, none => some a
      | none, b => b := by rw [conditionColumns]
  rw [hl.conditionColumns_eq, hr.conditionColumns_eq] at hcond
  cases t with
  | predicate p =>
      cases u with
      | predicate q =>
          show Described _ (.predicate (p.and q))
          rw [Predicate.and_of_ne_const hl.1 hr.1]
          exact ⟨⟨by simp, by simp⟩, hcond, rfl, rfl⟩
      | _ => exact ⟨hl.1, hcond, rfl, rfl⟩
  | _ =>
      cases u with
      | predicate q => exact ⟨hr.1, hcond, rfl, rfl⟩
      | _ => exact ⟨hcond, rfl, rfl⟩

/-- An OR converts if both sides do. -/
theorem Described.or {l r : LogicalExpr} {t u : PhysicalTransformed} (hl : Described l t)
    (hr : Described r u) : Described (.binary l .or r) (toIcebergOrPredicate t u) := by
  have hcond : (binary l .or r).conditionColumns = match l.conditionColumns, r.conditionColumns with
      | some a, some b => some (a ++ b)
      | _, _ => none := by rw [conditionColumns]
  rw [hl.conditionColumns_eq, hr.conditionColumns_eq] at hcond
  cases t with
  | predicate p =>
      cases u with
      | predicate q =>
          show Described _ (.predicate (p.or q))
          rw [Predicate.or_of_ne_const hl.1 hr.1]
          exact ⟨⟨by simp, by simp⟩, hcond, rfl, rfl⟩
      | _ => exact ⟨hcond, rfl, rfl⟩
  | _ => cases u <;> exact ⟨hcond, rfl, rfl⟩

/-- The items of a list convert to datums exactly when each of them is a literal. -/
theorem isSome_datumsOf {items : List LogicalExpr}
    (h : ∀ e ∈ items, Described e (toIcebergPredicate e)) :
    (datumsOf (toIcebergPredicates items)).isSome = items.all (·.asLiteral.isSome) := by
  induction items with
  | nil => rfl
  | cons e es ih =>
      have he := (h e List.mem_cons_self).asLiteral_eq
      have hes := ih fun e' he' => h e' (List.mem_cons_of_mem e he')
      rw [List.all_cons, he, ← hes]
      simp only [toIcebergPredicates]
      cases toIcebergPredicate e with
      | literal d => simp [datumsOf, PhysicalTransformed.asLiteral]
      | _ => simp [datumsOf, PhysicalTransformed.asLiteral]

theorem isSome_patternPrefix {pattern : LogicalExpr} {t : PhysicalTransformed}
    (h : Described pattern t) : (patternPrefix t).isSome = pattern.isPrefixPattern := by
  unfold isPrefixPattern
  rw [h.asLiteral_eq]
  cases t with
  | literal d => cases d <;> rfl
  | _ => rfl

/-- A NOT converts around a predicate, and a column becomes the test that it is not TRUE. -/
theorem Described.not {e : LogicalExpr} (he : Described e (toIcebergPredicate e)) :
    Described (.not e) (toIcebergPredicate (.not e)) := by
  have hcond : (LogicalExpr.not e).conditionColumns = match e.conditionColumns with
      | some cs => some cs
      | none => e.asColumn.map ([·]) := by rw [conditionColumns]
  rw [he.conditionColumns_eq, he.asColumn_eq] at hcond
  unfold toIcebergPredicate
  cases ht : toIcebergPredicate e with
  | predicate p =>
      rw [ht] at hcond
      exact ⟨⟨by simp, by simp⟩, hcond, rfl, rfl⟩
  | column r =>
      rw [ht] at hcond
      exact ⟨⟨by simp, by simp⟩, hcond, rfl, rfl⟩
  | literal d =>
      rw [ht] at hcond
      exact ⟨hcond, rfl, rfl⟩
  | notTransformed =>
      rw [ht] at hcond
      exact ⟨hcond, rfl, rfl⟩

/-- A list converts if its items are literals. -/
theorem Described.inList {e : LogicalExpr} {items : List LogicalExpr} (negated : Bool)
    (he : Described e (toIcebergPredicate e)) (hitems : ∀ i ∈ items, Described i (toIcebergPredicate i)) :
    Described (.inList e items negated) (toIcebergPredicate (.inList e items negated)) := by
  have hcond : (LogicalExpr.inList e items negated).conditionColumns =
      if items.all (·.asLiteral.isSome) then e.asColumn.map ([·]) else none := by rw [conditionColumns]
  rw [← isSome_datumsOf hitems] at hcond
  unfold toIcebergPredicate
  cases hds : datumsOf (toIcebergPredicates items) with
  | none =>
      rw [hds] at hcond
      exact ⟨hcond, rfl, rfl⟩
  | some ds =>
      rw [hds] at hcond
      refine he.ofColumn ?_ ?_ hcond rfl rfl
      · intro r
        cases negated <;> exact ⟨by simp [Predicate.isIn, Predicate.isNotIn],
          by simp [Predicate.isIn, Predicate.isNotIn]⟩
      · intro r
        cases negated <;> rfl

/-- A cast is what its operand is, unless it truncates. -/
theorem Described.cast {e : LogicalExpr} (t : CastType) (he : Described e (toIcebergPredicate e)) :
    Described (.cast e t) (toIcebergPredicate (.cast e t)) := by
  have hcond : (LogicalExpr.cast e t).conditionColumns =
      if t.truncates then none else e.conditionColumns := by rw [conditionColumns]
  have hcol : (LogicalExpr.cast e t).asColumn = if t.truncates then none else e.asColumn := by
    rw [asColumn]
  have hlit : (LogicalExpr.cast e t).asLiteral = if t.truncates then none else e.asLiteral := by
    rw [asLiteral]
  unfold toIcebergPredicate
  cases ht : t.truncates with
  | true =>
      rw [ht] at hcond hcol hlit
      exact ⟨hcond, hcol, hlit⟩
  | false =>
      rw [ht] at hcond hcol hlit
      have hsame : ∀ u, Described e u → Described (.cast e t) u := by
        intro u hu
        unfold Described at hu ⊢
        rw [hcond, hcol, hlit]
        exact hu
      exact hsame _ he

/-- A LIKE converts if its pattern is a prefix. -/
theorem Described.like {e pattern : LogicalExpr} (negated : Bool) (escapeChar : Option Char)
    (caseInsensitive : Bool) (he : Described e (toIcebergPredicate e))
    (hpattern : Described pattern (toIcebergPredicate pattern)) :
    Described (.like negated e pattern escapeChar caseInsensitive)
      (toIcebergPredicate (.like negated e pattern escapeChar caseInsensitive)) := by
  have hcond : (LogicalExpr.like negated e pattern escapeChar caseInsensitive).conditionColumns =
      if escapeChar.isSome || caseInsensitive || !pattern.isPrefixPattern then none
      else e.asColumn.map ([·]) := by rw [conditionColumns]
  rw [← isSome_patternPrefix hpattern] at hcond
  unfold toIcebergPredicate
  cases hplain : escapeChar.isSome || caseInsensitive with
  | true =>
      rw [hplain] at hcond
      exact ⟨hcond, rfl, rfl⟩
  | false =>
      rw [hplain] at hcond
      cases htext : patternPrefix (toIcebergPredicate pattern) with
      | none =>
          rw [htext] at hcond
          exact ⟨hcond, rfl, rfl⟩
      | some text =>
          rw [htext] at hcond
          exact he.ofColumn (fun r => ⟨by simp, by simp⟩) (fun r => rfl) hcond rfl rfl

/-- `isnan` of a column converts, and no other function. -/
theorem Described.scalarFunction (name : String) {args : List LogicalExpr}
    (hargs : ∀ e ∈ args, Described e (toIcebergPredicate e)) :
    Described (.scalarFunction name args) (toIcebergPredicate (.scalarFunction name args)) := by
  unfold toIcebergPredicate
  split
  · rename_i operand hone
    -- one argument, the operand
    cases args with
    | nil => cases hone
    | cons e es =>
        cases es with
        | cons _ _ => cases hone
        | nil =>
            obtain rfl := (List.cons.inj hone).1
            exact (hargs e List.mem_cons_self).ofColumn (fun r => ⟨by simp, by simp⟩)
              (fun r => rfl) rfl rfl rfl
  · rename_i hother
    refine ⟨?_, rfl, rfl⟩
    unfold conditionColumns
    split
    · exact absurd rfl (hother _ rfl)
    · rfl

mutual

/-- **Every conversion result is described by the syntax** of its expression. -/
theorem described : ∀ e : LogicalExpr, Described e (toIcebergPredicate e)
  | column name => ⟨rfl, rfl, rfl⟩
  | literal v => by
      unfold toIcebergPredicate
      cases hv : scalarValueToDatum v with
      | none => exact ⟨rfl, rfl, hv⟩
      | some d => exact ⟨rfl, rfl, hv⟩
  | binary l op r => by
      unfold toIcebergPredicate
      cases op with
      | and => exact (described l).and (described r)
      | or => exact (described l).or (described r)
      | other name => exact ⟨rfl, rfl, rfl⟩
      | _ => exact (described l).compare (described r) _ rfl rfl rfl
  | .not e => (described e).not
  | isNull e => (described e).ofColumn (fun r => ⟨by simp, by simp⟩) (fun r => rfl) rfl rfl rfl
  | isNotNull e => (described e).ofColumn (fun r => ⟨by simp, by simp⟩) (fun r => rfl) rfl rfl rfl
  | inList e items negated => (described e).inList negated (describedList items)
  | cast e t => (described e).cast t
  | like negated e pattern escapeChar caseInsensitive =>
      (described e).like negated escapeChar caseInsensitive (described pattern)
  | scalarFunction name args => Described.scalarFunction name (describedList args)
  | other name args => ⟨rfl, rfl, rfl⟩

theorem describedList : ∀ es : List LogicalExpr, ∀ e ∈ es, Described e (toIcebergPredicate e)
  | [] => fun _ he => absurd he List.not_mem_nil
  | e :: es => List.forall_mem_cons.mpr ⟨described e, describedList es⟩

end

/-! ### The columns that reach the scan -/

theorem asColumn_mem {e : LogicalExpr} {c : String} (h : e.asColumn = some c) : c ∈ e.columns := by
  induction e using asColumn.induct with
  | case1 name =>
      rw [asColumn, Option.some.injEq] at h
      rw [columns, h]
      exact List.mem_singleton_self c
  | case2 e t htrunc =>
      rw [asColumn, if_pos htrunc] at h
      cases h
  | case3 e t htrunc ih =>
      rw [asColumn, if_neg htrunc] at h
      rw [columns]
      exact ih h
  | case4 e hcol hcast =>
      rw [asColumn] at h
      · cases h
      · exact hcol
      · exact hcast

theorem mem_of_map_asColumn {e : LogicalExpr} {cs : List String} (h : e.asColumn.map ([·]) = some cs) :
    ∀ c ∈ cs, c ∈ e.columns := by
  intro c hc
  obtain ⟨c', hcol, rfl⟩ := Option.map_eq_some_iff.mp h
  rw [List.mem_singleton.mp hc]
  exact asColumn_mem hcol

/-- The compared column is one of the two sides. -/
theorem comparedColumn_mem {l r : LogicalExpr} {c : String} (h : comparedColumn l r = some c) :
    c ∈ l.columns ++ r.columns := by
  unfold comparedColumn at h
  split at h
  · rename_i hl _
    cases h
    exact List.mem_append_left _ (asColumn_mem hl)
  · rename_i hr _
    cases h
    exact List.mem_append_right _ (asColumn_mem hr)
  · cases h

/-- An AND passes on what its sides do. -/
theorem conditionColumns_and_subset {l r : LogicalExpr}
    (hl : ∀ {cs : List String}, l.conditionColumns = some cs → ∀ c ∈ cs, c ∈ l.columns)
    (hr : ∀ {cs : List String}, r.conditionColumns = some cs → ∀ c ∈ cs, c ∈ r.columns)
    {cs : List String} (h : (binary l .and r).conditionColumns = some cs) :
    ∀ c ∈ cs, c ∈ l.columns ++ r.columns := by
  intro c hc
  rw [conditionColumns] at h
  rw [List.mem_append]
  cases hlc : l.conditionColumns with
  | none =>
      rw [hlc] at h
      exact .inr (hr h c hc)
  | some a =>
      rw [hlc] at h
      cases hrc : r.conditionColumns with
      | none =>
          rw [hrc] at h
          obtain rfl := Option.some.inj h
          exact .inl (hl hlc c hc)
      | some b =>
          rw [hrc] at h
          obtain rfl := Option.some.inj h
          exact (List.mem_append.mp hc).imp (hl hlc c) (hr hrc c)

/-- An OR passes on what both sides do. -/
theorem conditionColumns_or_subset {l r : LogicalExpr}
    (hl : ∀ {cs : List String}, l.conditionColumns = some cs → ∀ c ∈ cs, c ∈ l.columns)
    (hr : ∀ {cs : List String}, r.conditionColumns = some cs → ∀ c ∈ cs, c ∈ r.columns)
    {cs : List String} (h : (binary l .or r).conditionColumns = some cs) :
    ∀ c ∈ cs, c ∈ l.columns ++ r.columns := by
  intro c hc
  rw [conditionColumns] at h
  rw [List.mem_append]
  cases hlc : l.conditionColumns with
  | none =>
      rw [hlc] at h
      cases h
  | some a =>
      rw [hlc] at h
      cases hrc : r.conditionColumns with
      | none =>
          rw [hrc] at h
          cases h
      | some b =>
          rw [hrc] at h
          obtain rfl := Option.some.inj h
          exact (List.mem_append.mp hc).imp (hl hlc c) (hr hrc c)

/-- A filter passes on columns of its own. -/
theorem conditionColumns_subset : ∀ (e : LogicalExpr) {cs : List String},
    e.conditionColumns = some cs → ∀ c ∈ cs, c ∈ e.columns
  | binary l op r, cs, h, c, hc => by
      have hcompare : (comparedColumn l r).map ([·]) = some cs → c ∈ (binary l op r).columns := by
        intro hcmp
        obtain ⟨c', hc', rfl⟩ := Option.map_eq_some_iff.mp hcmp
        rw [List.mem_singleton.mp hc, columns]
        exact comparedColumn_mem hc'
      cases op with
      | and =>
          rw [columns]
          exact conditionColumns_and_subset (conditionColumns_subset l) (conditionColumns_subset r) h c hc
      | or =>
          rw [columns]
          exact conditionColumns_or_subset (conditionColumns_subset l) (conditionColumns_subset r) h c hc
      | other name =>
          rw [conditionColumns] at h
          cases h
      | _ => exact hcompare h
  | not e, cs, h, c, hc => by
      rw [conditionColumns] at h
      rw [columns]
      cases he : e.conditionColumns with
      | none =>
          rw [he] at h
          exact mem_of_map_asColumn h c hc
      | some a =>
          rw [he] at h
          obtain rfl := Option.some.inj h
          exact conditionColumns_subset e he c hc
  | isNull e, _, h, c, hc => mem_of_map_asColumn h c hc
  | isNotNull e, _, h, c, hc => mem_of_map_asColumn h c hc
  | inList e items _, cs, h, c, hc => by
      rw [conditionColumns] at h
      split at h
      · exact List.mem_append_left _ (mem_of_map_asColumn h c hc)
      · cases h
  | cast e t, cs, h, c, hc => by
      rw [conditionColumns] at h
      split at h
      · cases h
      · exact conditionColumns_subset e h c hc
  | like _ e pattern _ _, cs, h, c, hc => by
      rw [conditionColumns] at h
      split at h
      · cases h
      · exact List.mem_append_left _ (mem_of_map_asColumn h c hc)
  | scalarFunction name args, cs, h, c, hc => by
      unfold conditionColumns at h
      split at h
      · rw [columns, columnsList]
        exact List.mem_append_left _ (mem_of_map_asColumn h c hc)
      · cases h

theorem pushedColumns_subset (e : LogicalExpr) : ∀ c ∈ e.pushedColumns, c ∈ e.columns := by
  intro c hc
  unfold pushedColumns at hc
  split at hc
  · rename_i hcond
    exact conditionColumns_subset e hcond c hc
  · rename_i hcol
    rw [List.mem_singleton.mp hc]
    exact asColumn_mem hcol
  · exact absurd hc List.not_mem_nil

/-- One filter: its predicate, if any, has the columns it passes on. -/
theorem columns_convertFilterToPredicate (e : LogicalExpr) :
    match convertFilterToPredicate e with
    | some p => (p ≠ .alwaysTrue ∧ p ≠ .alwaysFalse) ∧ p.columns = e.pushedColumns
    | none => e.pushedColumns = [] := by
  have he := described e
  unfold convertFilterToPredicate pushedColumns
  rw [he.conditionColumns_eq, he.asColumn_eq]
  cases ht : toIcebergPredicate e with
  | predicate p =>
      rw [ht] at he
      exact ⟨he.1, rfl⟩
  | column r => exact ⟨⟨by simp, by simp⟩, rfl⟩
  | literal d => rfl
  | notTransformed => rfl

end LogicalExpr

/-- The columns of a conjunction of predicates that are no constants. -/
theorem mem_columns_foldl_and {ps : List Predicate} {p : Predicate}
    (hp : p ≠ .alwaysTrue ∧ p ≠ .alwaysFalse) (hps : ∀ q ∈ ps, q ≠ .alwaysTrue ∧ q ≠ .alwaysFalse)
    (c : String) : c ∈ (ps.foldl .and p).columns ↔ c ∈ p.columns ∨ ∃ q ∈ ps, c ∈ q.columns := by
  induction ps generalizing p with
  | nil => simp
  | cons q ps ih =>
      have hq := hps q List.mem_cons_self
      rw [List.foldl_cons, Predicate.and_of_ne_const hp hq,
        ih ⟨by simp, by simp⟩ fun q' hq' => hps q' (List.mem_cons_of_mem q hq')]
      simp [Predicate.columns, or_assoc]

/-- **The scan's predicate has exactly the columns that the filters pass on.** -/
theorem mem_columns_convertFiltersToPredicate (filters : List LogicalExpr) (c : String) :
    (∃ p, convertFiltersToPredicate filters = some p ∧ c ∈ p.columns) ↔
      ∃ e ∈ filters, c ∈ e.pushedColumns := by
  have hfilter : ∀ q ∈ filters.filterMap convertFilterToPredicate,
      q ≠ .alwaysTrue ∧ q ≠ .alwaysFalse := by
    intro q hq
    obtain ⟨e, -, he⟩ := List.mem_filterMap.mp hq
    have hdesc := LogicalExpr.columns_convertFilterToPredicate e
    rw [he] at hdesc
    exact hdesc.1
  have hmem : (∃ q ∈ filters.filterMap convertFilterToPredicate, c ∈ q.columns) ↔
      ∃ e ∈ filters, c ∈ e.pushedColumns := by
    constructor
    · rintro ⟨q, hq, hc⟩
      obtain ⟨e, he, hconv⟩ := List.mem_filterMap.mp hq
      have hdesc := LogicalExpr.columns_convertFilterToPredicate e
      rw [hconv] at hdesc
      exact ⟨e, he, hdesc.2 ▸ hc⟩
    · rintro ⟨e, he, hc⟩
      have hdesc := LogicalExpr.columns_convertFilterToPredicate e
      cases hconv : convertFilterToPredicate e with
      | none =>
          rw [hconv] at hdesc
          rw [hdesc] at hc
          exact absurd hc List.not_mem_nil
      | some q =>
          rw [hconv] at hdesc
          exact ⟨q, List.mem_filterMap.mpr ⟨e, he, hconv⟩, hdesc.2 ▸ hc⟩
  rw [← hmem]
  unfold convertFiltersToPredicate
  cases hps : filters.filterMap convertFilterToPredicate with
  | nil => simp [reduceAnd]
  | cons p ps =>
      rw [hps] at hfilter
      simp only [reduceAnd, Option.some.injEq, exists_eq_left', List.exists_mem_cons_iff]
      exact mem_columns_foldl_and (hfilter p List.mem_cons_self)
        (fun q hq => hfilter q (List.mem_cons_of_mem p hq)) c

end IcebergDb.Expr
