import IcebergDb.Foundation.Kleene
import IcebergDb.Expr.Value
import Mathlib.Data.List.Dedup

/-!
# Iceberg predicates

The unbound `Predicate` of the vendored `iceberg` crate, its smart connectives, NOT elimination, and
its meaning on a row.

* `Predicate.and` / `Predicate.or` absorb the constants, as the source does;
* `Predicate.negate` and `Predicate.rewriteNot` push negation to the leaves (`TableScanBuilder`
  rewrites every filter this way before it is bound);
* `Predicate.eval` follows `PredicateConverter`, the visitor that turns a predicate into the reader's
  row filter: Kleene connectives, NULL from a comparison with a NULL cell, and the integer fast path
  of `IN`, which answers FALSE there;
* `Predicate.isTrueOn` — the reader keeps the row: the NOT-free form evaluates to TRUE.

The API of the file is `isTrueOn` together with its negative `isFalseOn`: `isTrueOn_and`,
`isFalseOn_and`, their duals for `or`, and the exchange under `not`.  Later files never look inside
`rewriteNot`.
-/

namespace IcebergDb.Expr

open IcebergDb.Kleene

/-- `PredicateOperator`. -/
inductive PredicateOperator where
  | isNull
  | notNull
  | isNan
  | notNan
  | lessThan
  | lessThanOrEq
  | greaterThan
  | greaterThanOrEq
  | eq
  | notEq
  | startsWith
  | notStartsWith
  | isIn
  | notIn
deriving DecidableEq

namespace PredicateOperator

/-- The inverse operator. -/
def negate : PredicateOperator → PredicateOperator
  | isNull => notNull
  | notNull => isNull
  | isNan => notNan
  | notNan => isNan
  | lessThan => greaterThanOrEq
  | lessThanOrEq => greaterThan
  | greaterThan => lessThanOrEq
  | greaterThanOrEq => lessThan
  | eq => notEq
  | notEq => eq
  | isIn => notIn
  | notIn => isIn
  | startsWith => notStartsWith
  | notStartsWith => startsWith

theorem negate_negate (op : PredicateOperator) : op.negate.negate = op := by
  cases op <;> rfl

/-- What a comparison operator says about the outcome of comparing column and literal; `none` for
the operators that are not comparisons. -/
def test : PredicateOperator → Ordering → Option Bool
  | lessThan, o => some (o == .lt)
  | lessThanOrEq, o => some (o != .gt)
  | greaterThan, o => some (o == .gt)
  | greaterThanOrEq, o => some (o != .lt)
  | eq, o => some (o == .eq)
  | notEq, o => some (o != .eq)
  | _, _ => none

/-- Negating a comparison negates its answer. -/
theorem test_negate (op : PredicateOperator) (o : Ordering) :
    op.negate.test o = (op.test o).map (! ·) := by
  cases op <;> cases o <;> rfl

end PredicateOperator

/-- A row of a table: a native value or NULL for each column name. -/
abbrev Row := String → Option NativeValue

/-- `Predicate`: the unbound predicate, references by column name.  A set predicate lists its
literals in the iteration order of the hash set. -/
inductive Predicate where
  | alwaysTrue
  | alwaysFalse
  | andExpr (left right : Predicate)
  | orExpr (left right : Predicate)
  | notExpr (input : Predicate)
  | unary (op : PredicateOperator) (term : String)
  | binary (op : PredicateOperator) (term : String) (literal : Datum)
  | set (op : PredicateOperator) (term : String) (literals : List Datum)
deriving DecidableEq

namespace Predicate

/-- `Predicate::and`. -/
def and : Predicate → Predicate → Predicate
  | alwaysFalse, _ => alwaysFalse
  | _, alwaysFalse => alwaysFalse
  | alwaysTrue, rhs => rhs
  | lhs, alwaysTrue => lhs
  | lhs, rhs => andExpr lhs rhs

/-- `Predicate::or`. -/
def or : Predicate → Predicate → Predicate
  | alwaysTrue, _ => alwaysTrue
  | _, alwaysTrue => alwaysTrue
  | alwaysFalse, rhs => rhs
  | lhs, alwaysFalse => lhs
  | lhs, rhs => orExpr lhs rhs

/-- `Predicate::negate`: negation by inverse operators. -/
def negate : Predicate → Predicate
  | alwaysTrue => alwaysFalse
  | alwaysFalse => alwaysTrue
  | andExpr l r => orExpr l.negate r.negate
  | orExpr l r => andExpr l.negate r.negate
  | notExpr p => p
  | unary op t => unary op.negate t
  | binary op t d => binary op.negate t d
  | set op t ds => set op.negate t ds

/-- `Predicate::rewrite_not`, the fold of `RewriteNotVisitor`. -/
def rewriteNot : Predicate → Predicate
  | andExpr l r => l.rewriteNot.and r.rewriteNot
  | orExpr l r => l.rewriteNot.or r.rewriteNot
  | notExpr p => p.rewriteNot.negate
  | p => p

/-- `Reference::is_in`: the literals become a set. -/
def isIn (term : String) (literals : List Datum) : Predicate :=
  set .isIn term literals.dedup

/-- `Reference::is_not_in`. -/
def isNotIn (term : String) (literals : List Datum) : Predicate :=
  set .notIn term literals.dedup

/-- The column names a predicate refers to. -/
def columns : Predicate → List String
  | alwaysTrue | alwaysFalse => []
  | andExpr l r | orExpr l r => l.columns ++ r.columns
  | notExpr p => p.columns
  | unary _ t | binary _ t _ | set _ t _ => [t]

/-! ### Meaning on a row -/

/-- The literals that `integer_literal_set` accepts: those held as `Int` or `Long`. -/
def isIntegerLiteral : Datum → Bool
  | .int _ | .long _ | .date _ | .time _ | .timestamp _ | .timestamptz _ | .timestampNs _
  | .timestamptzNs _ => true
  | _ => false

/-- The null tests.  The reader answers `IS NAN` without looking at the value. -/
def evalUnary (cell : Option NativeValue) : PredicateOperator → Option Bool
  | .isNull => some cell.isNone
  | .notNull => some cell.isSome
  | .isNan => some true
  | .notNan => some false
  | _ => none

/-- Prefix test of strings. -/
def prefixTest : Value → Value → Option Bool
  | .str s, .str p => some (p.toList.isPrefixOf s.toList)
  | _, _ => none

/-- A binary predicate on a non-null value. -/
def evalBinary (op : PredicateOperator) (v d : Value) : Option Bool :=
  match op with
  | .startsWith => prefixTest v d
  | .notStartsWith => knot (prefixTest v d)
  | op => (v.ordering d).bind op.test

/-- Negating the operator negates the answer. -/
theorem evalBinary_negate (op : PredicateOperator) (v d : Value) :
    evalBinary op.negate v d = knot (evalBinary op v d) := by
  have hcmp : ∀ o : Option Ordering, o.bind op.negate.test = knot (o.bind op.test) := by
    intro o
    cases o with
    | none => rfl
    | some o =>
        show op.negate.test o = knot (op.test o)
        rw [PredicateOperator.test_negate]
        cases op.test o <;> rfl
  cases op with
  | startsWith => rfl
  | notStartsWith =>
      show prefixTest v d = knot (knot (prefixTest v d))
      rw [knot_knot]
  | _ => exact hcmp (v.ordering d)

/-- Equality of a cell with a literal, NULL on a NULL cell. -/
def eqTest (cell : Option NativeValue) (d : Datum) : Option Bool :=
  cell.bind fun v => evalBinary .eq v.1 d.value

/-- `r#in`: single-pass membership when every literal is an integer (a NULL cell is not a member),
otherwise the disjunction of the equalities. -/
def evalIn (cell : Option NativeValue) (ds : List Datum) : Option Bool :=
  if ds.all isIntegerLiteral then some (ds.any fun d => eqTest cell d == some true)
  else kany (eqTest cell) ds

/-- `not_in`: the conjunction of the inequalities. -/
def evalNotIn (cell : Option NativeValue) (ds : List Datum) : Option Bool :=
  kall (fun d => knot (eqTest cell d)) ds

/-- The row filter that `PredicateConverter` builds. -/
def eval (row : Row) : Predicate → Option Bool
  | alwaysTrue => some true
  | alwaysFalse => some false
  | andExpr l r => kand (l.eval row) (r.eval row)
  | orExpr l r => kor (l.eval row) (r.eval row)
  | notExpr p => knot (p.eval row)
  | unary op t => evalUnary (row t) op
  | binary op t d => (row t).bind fun v => evalBinary op v.1 d.value
  | set .isIn t ds => evalIn (row t) ds
  | set .notIn t ds => evalNotIn (row t) ds
  | set _ _ _ => none

/-- The reader keeps the row. -/
def isTrueOn (p : Predicate) (row : Row) : Prop :=
  p.rewriteNot.eval row = some true

/-- The reader keeps the row under the negated predicate. -/
def isFalseOn (p : Predicate) (row : Row) : Prop :=
  p.rewriteNot.negate.eval row = some true

instance (p : Predicate) (row : Row) : Decidable (p.isTrueOn row) :=
  inferInstanceAs (Decidable (_ = _))

instance (p : Predicate) (row : Row) : Decidable (p.isFalseOn row) :=
  inferInstanceAs (Decidable (_ = _))

/-! ### The connectives on rows -/

theorem eval_and (p q : Predicate) (row : Row) :
    (p.and q).eval row = kand (p.eval row) (q.eval row) := by
  fun_cases Predicate.and p q <;> simp [eval]

theorem eval_or (p q : Predicate) (row : Row) :
    (p.or q).eval row = kor (p.eval row) (q.eval row) := by
  fun_cases Predicate.or p q <;> simp [eval]

theorem eval_negate_and (p q : Predicate) (row : Row) :
    (p.and q).negate.eval row = kor (p.negate.eval row) (q.negate.eval row) := by
  fun_cases Predicate.and p q <;> simp [eval, negate]

theorem eval_negate_or (p q : Predicate) (row : Row) :
    (p.or q).negate.eval row = kand (p.negate.eval row) (q.negate.eval row) := by
  fun_cases Predicate.or p q <;> simp [eval, negate]

/-- Predicates that are no constants are joined as they are. -/
theorem and_of_ne_const {p q : Predicate} (hp : p ≠ alwaysTrue ∧ p ≠ alwaysFalse)
    (hq : q ≠ alwaysTrue ∧ q ≠ alwaysFalse) : p.and q = andExpr p q := by
  fun_cases Predicate.and p q <;> simp_all

theorem or_of_ne_const {p q : Predicate} (hp : p ≠ alwaysTrue ∧ p ≠ alwaysFalse)
    (hq : q ≠ alwaysTrue ∧ q ≠ alwaysFalse) : p.or q = orExpr p q := by
  fun_cases Predicate.or p q <;> simp_all

theorem and_eq_alwaysFalse {p q : Predicate} :
    p.and q = alwaysFalse ↔ p = alwaysFalse ∨ q = alwaysFalse := by
  fun_cases Predicate.and p q <;> simp_all

theorem alwaysTrue_and (p : Predicate) : alwaysTrue.and p = p := by
  cases p <;> rfl

theorem and_alwaysTrue (p : Predicate) : p.and alwaysTrue = p := by
  cases p <;> rfl

theorem or_alwaysTrue (p : Predicate) : p.or alwaysTrue = alwaysTrue := by
  cases p <;> rfl

theorem alwaysFalse_or (p : Predicate) : alwaysFalse.or p = p := by
  cases p <;> rfl

theorem or_alwaysFalse (p : Predicate) : p.or alwaysFalse = p := by
  cases p <;> rfl

/-- NOT elimination goes into a conjunction. -/
theorem rewriteNot_and (p q : Predicate) : (p.and q).rewriteNot = p.rewriteNot.and q.rewriteNot := by
  fun_cases Predicate.and p q
  · rfl
  · exact (and_eq_alwaysFalse.mpr (.inr rfl)).symm
  · exact (alwaysTrue_and q.rewriteNot).symm
  · exact (and_alwaysTrue p.rewriteNot).symm
  · rfl

/-- NOT elimination goes into a disjunction. -/
theorem rewriteNot_or (p q : Predicate) : (p.or q).rewriteNot = p.rewriteNot.or q.rewriteNot := by
  fun_cases Predicate.or p q
  · rfl
  · exact (or_alwaysTrue p.rewriteNot).symm
  · exact (alwaysFalse_or q.rewriteNot).symm
  · exact (or_alwaysFalse p.rewriteNot).symm
  · rfl

/-- The conjunction of a list, from the left. -/
def conjoin (ps : List Predicate) : Predicate := ps.foldl and alwaysTrue

theorem rewriteNot_conjoin (ps : List Predicate) :
    (conjoin ps).rewriteNot = conjoin (ps.map rewriteNot) := by
  have hfold : ∀ acc : Predicate,
      (ps.foldl and acc).rewriteNot = (ps.map rewriteNot).foldl and acc.rewriteNot := by
    induction ps with
    | nil => exact fun _ => rfl
    | cons p ps ih =>
        intro acc
        rw [List.foldl_cons, ih, rewriteNot_and]
        rfl
  exact hfold alwaysTrue

/-- No NOT node is left. -/
def NotFree : Predicate → Prop
  | andExpr l r | orExpr l r => l.NotFree ∧ r.NotFree
  | notExpr _ => False
  | _ => True

theorem NotFree.and {p q : Predicate} (hp : p.NotFree) (hq : q.NotFree) : (p.and q).NotFree := by
  fun_cases Predicate.and p q <;> simp_all [NotFree]

theorem NotFree.or {p q : Predicate} (hp : p.NotFree) (hq : q.NotFree) : (p.or q).NotFree := by
  fun_cases Predicate.or p q <;> simp_all [NotFree]

theorem NotFree.negate {p : Predicate} (hp : p.NotFree) : p.negate.NotFree := by
  induction p with
  | andExpr l r ihl ihr => exact ⟨ihl hp.1, ihr hp.2⟩
  | orExpr l r ihl ihr => exact ⟨ihl hp.1, ihr hp.2⟩
  | notExpr p _ => exact absurd hp id
  | _ => trivial

/-- **NOT elimination is complete**: no NOT survives `rewrite_not`. -/
theorem rewriteNot_notFree (p : Predicate) : p.rewriteNot.NotFree := by
  induction p with
  | andExpr l r ihl ihr => exact ihl.and ihr
  | orExpr l r ihl ihr => exact ihl.or ihr
  | notExpr p ih => exact ih.negate
  | _ => trivial

theorem NotFree.negate_negate {p : Predicate} (hp : p.NotFree) : p.negate.negate = p := by
  induction p with
  | andExpr l r ihl ihr => simp only [Predicate.negate, ihl hp.1, ihr hp.2]
  | orExpr l r ihl ihr => simp only [Predicate.negate, ihl hp.1, ihr hp.2]
  | notExpr p _ => exact absurd hp id
  | _ => simp only [Predicate.negate, PredicateOperator.negate_negate]

@[simp] theorem isTrueOn_andExpr (p q : Predicate) (row : Row) :
    (andExpr p q).isTrueOn row ↔ p.isTrueOn row ∧ q.isTrueOn row := by
  show (p.rewriteNot.and q.rewriteNot).eval row = some true ↔ _
  rw [eval_and, kand_eq_true]
  rfl

@[simp] theorem isFalseOn_andExpr (p q : Predicate) (row : Row) :
    (andExpr p q).isFalseOn row ↔ p.isFalseOn row ∨ q.isFalseOn row := by
  show (p.rewriteNot.and q.rewriteNot).negate.eval row = some true ↔ _
  rw [eval_negate_and, kor_eq_true]
  rfl

@[simp] theorem isTrueOn_orExpr (p q : Predicate) (row : Row) :
    (orExpr p q).isTrueOn row ↔ p.isTrueOn row ∨ q.isTrueOn row := by
  show (p.rewriteNot.or q.rewriteNot).eval row = some true ↔ _
  rw [eval_or, kor_eq_true]
  rfl

@[simp] theorem isFalseOn_orExpr (p q : Predicate) (row : Row) :
    (orExpr p q).isFalseOn row ↔ p.isFalseOn row ∧ q.isFalseOn row := by
  show (p.rewriteNot.or q.rewriteNot).negate.eval row = some true ↔ _
  rw [eval_negate_or, kand_eq_true]
  rfl

@[simp] theorem isFalseOn_notExpr (p : Predicate) (row : Row) :
    (notExpr p).isFalseOn row ↔ p.isTrueOn row := by
  show p.rewriteNot.negate.negate.eval row = some true ↔ _
  rw [(rewriteNot_notFree p).negate_negate]
  rfl

@[simp] theorem isTrueOn_and (p q : Predicate) (row : Row) :
    (p.and q).isTrueOn row ↔ p.isTrueOn row ∧ q.isTrueOn row := by
  rw [isTrueOn, rewriteNot_and]
  exact isTrueOn_andExpr p q row

@[simp] theorem isFalseOn_and (p q : Predicate) (row : Row) :
    (p.and q).isFalseOn row ↔ p.isFalseOn row ∨ q.isFalseOn row := by
  rw [isFalseOn, rewriteNot_and]
  exact isFalseOn_andExpr p q row

@[simp] theorem isTrueOn_or (p q : Predicate) (row : Row) :
    (p.or q).isTrueOn row ↔ p.isTrueOn row ∨ q.isTrueOn row := by
  rw [isTrueOn, rewriteNot_or]
  exact isTrueOn_orExpr p q row

@[simp] theorem isFalseOn_or (p q : Predicate) (row : Row) :
    (p.or q).isFalseOn row ↔ p.isFalseOn row ∧ q.isFalseOn row := by
  rw [isFalseOn, rewriteNot_or]
  exact isFalseOn_orExpr p q row

/-! ### The leaves on rows -/

theorem isTrueOn_binary (op : PredicateOperator) (t : String) (d : Datum) (row : Row) :
    (binary op t d).isTrueOn row ↔
      ((row t).bind fun v => evalBinary op v.1 d.value) = some true := Iff.rfl

theorem isFalseOn_binary (op : PredicateOperator) (t : String) (d : Datum) (row : Row) :
    (binary op t d).isFalseOn row ↔
      ((row t).bind fun v => evalBinary op v.1 d.value) = some false := by
  show ((row t).bind fun v => evalBinary op.negate v.1 d.value) = some true ↔ _
  simp only [Option.bind_eq_some_iff, evalBinary_negate, knot_eq_true]

theorem isTrueOn_unary (op : PredicateOperator) (t : String) (row : Row) :
    (unary op t).isTrueOn row ↔ evalUnary (row t) op = some true := Iff.rfl

theorem isFalseOn_unary (op : PredicateOperator) (t : String) (row : Row) :
    (unary op t).isFalseOn row ↔ evalUnary (row t) op.negate = some true := Iff.rfl

/-- Both paths of `r#in` keep the same rows. -/
theorem evalIn_eq_true (cell : Option NativeValue) (ds : List Datum) :
    evalIn cell ds = some true ↔ ∃ d ∈ ds, eqTest cell d = some true := by
  unfold evalIn
  split
  · simp
  · exact kany_eq_true _ _

theorem evalNotIn_eq_true (cell : Option NativeValue) (ds : List Datum) :
    evalNotIn cell ds = some true ↔ ∀ d ∈ ds, eqTest cell d = some false := by
  simp only [evalNotIn, kall_eq_true, knot_eq_true]

theorem isTrueOn_isIn (t : String) (ds : List Datum) (row : Row) :
    (isIn t ds).isTrueOn row ↔ ∃ d ∈ ds, eqTest (row t) d = some true := by
  simp only [isTrueOn, isIn, rewriteNot, eval, evalIn_eq_true, List.mem_dedup]

theorem isFalseOn_isIn (t : String) (ds : List Datum) (row : Row) :
    (isIn t ds).isFalseOn row ↔ ∀ d ∈ ds, eqTest (row t) d = some false := by
  simp only [isFalseOn, isIn, rewriteNot, negate, PredicateOperator.negate, eval,
    evalNotIn_eq_true, List.mem_dedup]

theorem isTrueOn_isNotIn (t : String) (ds : List Datum) (row : Row) :
    (isNotIn t ds).isTrueOn row ↔ ∀ d ∈ ds, eqTest (row t) d = some false := by
  simp only [isTrueOn, isNotIn, rewriteNot, eval, evalNotIn_eq_true, List.mem_dedup]

theorem isFalseOn_isNotIn (t : String) (ds : List Datum) (row : Row) :
    (isNotIn t ds).isFalseOn row ↔ ∃ d ∈ ds, eqTest (row t) d = some true := by
  simp only [isFalseOn, isNotIn, rewriteNot, negate, PredicateOperator.negate, eval,
    evalIn_eq_true, List.mem_dedup]

/-- No row satisfies a predicate and its negation. -/
theorem not_isTrueOn_of_isFalseOn {p : Predicate} {row : Row} (h : p.isFalseOn row) :
    ¬ p.isTrueOn row := by
  intro h'
  induction p with
  | alwaysTrue => cases h
  | alwaysFalse => cases h'
  | andExpr p q ihp ihq =>
      obtain ⟨hp, hq⟩ := (isTrueOn_andExpr p q row).mp h'
      rcases (isFalseOn_andExpr p q row).mp h with h | h
      · exact ihp h hp
      · exact ihq h hq
  | orExpr p q ihp ihq =>
      obtain ⟨hp, hq⟩ := (isFalseOn_orExpr p q row).mp h
      rcases (isTrueOn_orExpr p q row).mp h' with h' | h'
      · exact ihp hp h'
      · exact ihq hq h'
  | notExpr p ih => exact ih h' ((isFalseOn_notExpr p row).mp h)
  | unary op t =>
      rw [isFalseOn_unary] at h
      rw [isTrueOn_unary] at h'
      cases hc : row t <;> rw [hc] at h h' <;> cases op <;> cases h <;> cases h'
  | binary op t d =>
      rw [isTrueOn_binary] at h'
      rw [isFalseOn_binary, h'] at h
      cases h
  | set op t ds =>
      have hset : (∃ d ∈ ds, eqTest (row t) d = some true) →
          ¬ ∀ d ∈ ds, eqTest (row t) d = some false := by
        rintro ⟨d, hd, htrue⟩ hall
        cases htrue.symm.trans (hall d hd)
      cases op with
      | isIn => exact hset ((evalIn_eq_true _ _).mp h') ((evalNotIn_eq_true _ _).mp h)
      | notIn => exact hset ((evalIn_eq_true _ _).mp h) ((evalNotIn_eq_true _ _).mp h')
      | _ => cases h

/-! ### Columns -/

theorem columns_negate (p : Predicate) : p.negate.columns = p.columns := by
  induction p with
  | andExpr l r ihl ihr | orExpr l r ihl ihr => simp only [negate, columns, ihl, ihr]
  | _ => rfl

theorem mem_columns_and {p q : Predicate} {c : String} (h : c ∈ (p.and q).columns) :
    c ∈ p.columns ∨ c ∈ q.columns := by
  unfold Predicate.and at h
  split at h <;> simp_all [columns]

theorem mem_columns_or {p q : Predicate} {c : String} (h : c ∈ (p.or q).columns) :
    c ∈ p.columns ∨ c ∈ q.columns := by
  unfold Predicate.or at h
  split at h <;> simp_all [columns]

/-- NOT elimination names no new column. -/
theorem mem_columns_rewriteNot {p : Predicate} {c : String} (h : c ∈ p.rewriteNot.columns) :
    c ∈ p.columns := by
  induction p with
  | andExpr l r ihl ihr =>
      rw [columns, List.mem_append]
      exact (mem_columns_and h).imp ihl ihr
  | orExpr l r ihl ihr =>
      rw [columns, List.mem_append]
      exact (mem_columns_or h).imp ihl ihr
  | notExpr p ih =>
      rw [rewriteNot, columns_negate] at h
      exact ih h
  | _ => exact h

/-- A conjunction names, after NOT elimination, what its sides name. -/
theorem mem_columns_rewriteNot_and {p q : Predicate} {c : String}
    (h : c ∈ (p.and q).rewriteNot.columns) :
    c ∈ p.rewriteNot.columns ∨ c ∈ q.rewriteNot.columns := by
  unfold Predicate.and at h
  split at h
  · exact .inl h
  · exact .inr h
  · exact .inr h
  · exact .inl h
  · exact mem_columns_and h

end Predicate
end IcebergDb.Expr
