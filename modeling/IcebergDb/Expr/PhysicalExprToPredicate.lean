import IcebergDb.Expr.PhysicalExpr

/-!
# From physical filters to Iceberg predicates

`physical_expr_to_predicate.rs`: the converter `toIcebergFromPhysical`, the AND-decomposition
`extractPushdownPredicates`, and the merge of static and physical predicates that a scan executes.

The converter drops what it cannot express, and where it may do so is a matter of polarity.  Losing a
side of an AND weakens the condition; under a NOT it strengthens it.  `lossesOk` walks the part of an
expression that survives conversion and records at which polarity an AND loses a side:

* `lossesOk true e` — sides are lost only under an even number of NOTs.  Then every row on which `e`
  is TRUE satisfies the predicate (`extract_complete`): nothing is pruned that should be returned;
* `lossesOk false e` — sides are lost only under an odd number of NOTs.  Then every row on which the
  predicate is TRUE satisfies `e` (`extract_enforces`): the scan may answer for the filter.

Both facts come from one induction over the expression, carried out for the two truth values at once.
-/

namespace IcebergDb.Expr

open IcebergDb.Kleene

/-- `PhysicalTransformed`. -/
inductive PhysicalTransformed where
  | predicate (p : Predicate)
  | column (r : String)
  | literal (d : Datum)
  | notTransformed

/-- `PhysicalOp`. -/
inductive PhysicalOp where
  | compare (op : PredicateOperator)
  | and
  | or
  | notTransformed

/-- `map_operator`. -/
def mapOperator : Operator → PhysicalOp
  | .eq => .compare .eq
  | .notEq => .compare .notEq
  | .lt => .compare .lessThan
  | .ltEq => .compare .lessThanOrEq
  | .gt => .compare .greaterThan
  | .gtEq => .compare .greaterThanOrEq
  | .and => .and
  | .or => .or
  | .other _ => .notTransformed

/-- `reverse_op`: the operator with its operands exchanged. -/
def reverseOp : PredicateOperator → PredicateOperator
  | .greaterThan => .lessThan
  | .greaterThanOrEq => .lessThanOrEq
  | .lessThan => .greaterThan
  | .lessThanOrEq => .greaterThanOrEq
  | other => other

/-- `to_binary`: a comparison between a column and a literal, in either order. -/
def toBinary (left right : PhysicalTransformed) (op : PredicateOperator) : PhysicalTransformed :=
  match left, right with
  | .column r, .literal d => .predicate (.binary op r d)
  | .literal d, .column r => .predicate (.binary (reverseOp op) r d)
  | _, _ => .notTransformed

/-- `to_and`: one side that converts is enough. -/
def toAnd (left right : PhysicalTransformed) : PhysicalTransformed :=
  match left, right with
  | .predicate l, .predicate r => .predicate (l.and r)
  | .predicate l, _ => .predicate l
  | _, .predicate r => .predicate r
  | _, _ => .notTransformed

/-- `to_or`: both sides must convert. -/
def toOr (left right : PhysicalTransformed) : PhysicalTransformed :=
  match left, right with
  | .predicate l, .predicate r => .predicate (l.or r)
  | _, _ => .notTransformed

/-- `is_literal_true`. -/
def isLiteralTrue : PhysicalExpr → Bool
  | .literal (.boolean (some true)) => true
  | _ => false

/-- The datum of a literal item. -/
def literalDatum : PhysicalExpr → Option Datum
  | .literal v => scalarValueToDatum v
  | _ => none

/-- The item loop of `in_list_to_predicate`: it gives up at the first item without a datum. -/
def literalDatums : List PhysicalExpr → Option (List Datum)
  | [] => some []
  | e :: es =>
      match literalDatum e with
      | some d => (literalDatums es).map (d :: ·)
      | none => none

/-- `in_list_to_predicate`, given the conversion of the tested expression: every item must be a
literal with a datum, and there must be one. -/
def inListToPredicate (expr : PhysicalTransformed) (list : List PhysicalExpr) (negated : Bool) :
    Option Predicate :=
  match literalDatums list, expr with
  | some (d :: ds), .column r =>
      some (if negated then Predicate.isNotIn r (d :: ds) else Predicate.isIn r (d :: ds))
  | _, _ => none

/-- `to_iceberg_from_physical`. -/
def toIcebergFromPhysical : PhysicalExpr → PhysicalTransformed
  | .hashTableLookup _ _ => .notTransformed
  | .literal v =>
      if isLiteralTrue (.literal v) then .notTransformed
      else match scalarValueToDatum v with
        | some d => .literal d
        | none => .notTransformed
  | .binary l op r =>
      match mapOperator op with
      | .compare op => toBinary (toIcebergFromPhysical l) (toIcebergFromPhysical r) op
      | .and => toAnd (toIcebergFromPhysical l) (toIcebergFromPhysical r)
      | .or => toOr (toIcebergFromPhysical l) (toIcebergFromPhysical r)
      | .notTransformed => .notTransformed
  | .not e =>
      match toIcebergFromPhysical e with
      | .predicate p => .predicate (.notExpr p)
      | .column r => .predicate (.binary .eq r (.boolean false))
      | _ => .notTransformed
  | .column c => .column c.name
  | .isNull e =>
      match toIcebergFromPhysical e with
      | .column r => .predicate (.unary .isNull r)
      | _ => .notTransformed
  | .isNotNull e =>
      match toIcebergFromPhysical e with
      | .column r => .predicate (.unary .notNull r)
      | _ => .notTransformed
  | .inList e items negated =>
      match inListToPredicate (toIcebergFromPhysical e) items negated with
      | some p => .predicate p
      | none => .notTransformed
  | .dynamicFilter _ _ => .notTransformed
  | .other _ _ => .notTransformed

/-- `extract_pushdown_predicates`: the conjuncts that convert, in order. -/
def extractPushdownPredicates : PhysicalExpr → List Predicate
  | .hashTableLookup _ _ => []
  | .binary l .and r => extractPushdownPredicates l ++ extractPushdownPredicates r
  | e =>
      if isLiteralTrue e then []
      else match toIcebergFromPhysical e with
        | .predicate p => [p]
        | .column r => [.binary .eq r (.boolean true)]
        | _ => []

/-- `resolve_physical_expr`: a dynamic filter stands for its current expression. -/
def resolvePhysicalExpr (current : ℕ → PhysicalExpr) : PhysicalExpr → PhysicalExpr
  | .dynamicFilter id _ => current id
  | e => e

/-- `convert_physical_expr_to_predicates`. -/
def convertPhysicalExprToPredicates (current : ℕ → PhysicalExpr) (e : PhysicalExpr) :
    List Predicate :=
  extractPushdownPredicates (resolvePhysicalExpr current e)

/-- One step of the merge: `existing.and(pred)`, or the first predicate. -/
def andOption (merged : Option Predicate) (pred : Predicate) : Option Predicate :=
  match merged with
  | some existing => some (existing.and pred)
  | none => some pred

/-- `merge_iceberg_predicates`. -/
def mergeIcebergPredicates (current : ℕ → PhysicalExpr) (staticPred : Option Predicate)
    (physicalFilters : List PhysicalExpr) : Option Predicate :=
  physicalFilters.foldl
    (fun merged filter => (convertPhysicalExprToPredicates current filter).foldl andOption merged)
    staticPred

/-- `can_pushdown_physical_expr`: every column of the filter is a column of the table. -/
def canPushdownPhysicalExpr (e : PhysicalExpr) (schema : List String) : Bool :=
  e.collectColumns.all fun c => schema.any (· == c.name)

/-- No predicate at all keeps every row. -/
def optTrueOn (p : Option Predicate) (row : Row) : Prop :=
  ∀ q, p = some q → q.isTrueOn row

instance (p : Option Predicate) (row : Row) : Decidable (optTrueOn p row) :=
  match p with
  | none => isTrue (by intro q hq; cases hq)
  | some p =>
      decidable_of_iff (p.isTrueOn row) ⟨fun hp q hq => by cases hq; exact hp, fun h => h p rfl⟩

theorem optTrueOn_andOption (merged : Option Predicate) (p : Predicate) (row : Row) :
    optTrueOn (andOption merged p) row ↔ optTrueOn merged row ∧ p.isTrueOn row := by
  cases merged with
  | none => simp [optTrueOn, andOption]
  | some q => simp [optTrueOn, andOption]

theorem optTrueOn_foldl_andOption (ps : List Predicate) (merged : Option Predicate) (row : Row) :
    optTrueOn (ps.foldl andOption merged) row ↔
      optTrueOn merged row ∧ ∀ p ∈ ps, p.isTrueOn row := by
  induction ps generalizing merged with
  | nil => simp
  | cons p ps ih =>
      rw [List.foldl_cons, ih, optTrueOn_andOption]
      simp [and_assoc]

/-- **The merged predicate keeps a row** exactly when the static predicate and every predicate
extracted from a physical filter do. -/
theorem optTrueOn_mergeIcebergPredicates (current : ℕ → PhysicalExpr) (staticPred : Option Predicate)
    (filters : List PhysicalExpr) (row : Row) :
    optTrueOn (mergeIcebergPredicates current staticPred filters) row ↔
      optTrueOn staticPred row ∧
        ∀ f ∈ filters, ∀ p ∈ convertPhysicalExprToPredicates current f, p.isTrueOn row := by
  unfold mergeIcebergPredicates
  induction filters generalizing staticPred with
  | nil => simp
  | cons f fs ih =>
      rw [List.foldl_cons, ih, optTrueOn_foldl_andOption]
      simp [and_assoc]

/-! ### How a predicate comes about -/

theorem toBinary_eq_predicate {l r : PhysicalTransformed} {op : PredicateOperator} {p : Predicate}
    (h : toBinary l r op = .predicate p) :
    (∃ name d, l = .column name ∧ r = .literal d ∧ p = .binary op name d) ∨
      (∃ d name, l = .literal d ∧ r = .column name ∧ p = .binary (reverseOp op) name d) := by
  unfold toBinary at h
  split at h
  · cases h
    exact .inl ⟨_, _, rfl, rfl, rfl⟩
  · cases h
    exact .inr ⟨_, _, rfl, rfl, rfl⟩
  · cases h

theorem toAnd_eq_predicate {l r : PhysicalTransformed} {p : Predicate}
    (h : toAnd l r = .predicate p) :
    (∃ q q', l = .predicate q ∧ r = .predicate q' ∧ p = q.and q') ∨
      (l = .predicate p ∧ ∀ q, r ≠ .predicate q) ∨ (r = .predicate p ∧ ∀ q, l ≠ .predicate q) := by
  unfold toAnd at h
  split at h
  · cases h
    exact .inl ⟨_, _, rfl, rfl, rfl⟩
  · rename_i hr
    cases h
    exact .inr (.inl ⟨rfl, fun q hq => hr q hq⟩)
  · rename_i hl
    cases h
    exact .inr (.inr ⟨rfl, fun q hq => hl q hq⟩)
  · cases h

theorem toOr_eq_predicate {l r : PhysicalTransformed} {p : Predicate} (h : toOr l r = .predicate p) :
    ∃ q q', l = .predicate q ∧ r = .predicate q' ∧ p = q.or q' := by
  unfold toOr at h
  split at h
  · cases h
    exact ⟨_, _, rfl, rfl, rfl⟩
  · cases h

theorem convert_not_eq_predicate {e : PhysicalExpr} {p : Predicate}
    (h : toIcebergFromPhysical (.not e) = .predicate p) :
    (∃ q, toIcebergFromPhysical e = .predicate q ∧ p = .notExpr q) ∨
      (∃ name, toIcebergFromPhysical e = .column name ∧ p = .binary .eq name (.boolean false)) := by
  rw [toIcebergFromPhysical] at h
  split at h
  · rename_i hq
    cases h
    exact .inl ⟨_, hq, rfl⟩
  · rename_i hname
    cases h
    exact .inr ⟨_, hname, rfl⟩
  · cases h

/-- The arms of `IS NULL` and `IS NOT NULL`. -/
theorem nullTest_eq_predicate {x : PhysicalTransformed} {op : PredicateOperator} {p : Predicate}
    (h : (match x with
      | .column r => PhysicalTransformed.predicate (.unary op r)
      | _ => .notTransformed) = .predicate p) : ∃ name, x = .column name ∧ p = .unary op name := by
  split at h
  · cases h
    exact ⟨_, rfl, rfl⟩
  · cases h

theorem convert_inList_eq_predicate {e : PhysicalExpr} {items : List PhysicalExpr} {negated : Bool}
    {p : Predicate} (h : toIcebergFromPhysical (.inList e items negated) = .predicate p) :
    ∃ d ds name, literalDatums items = some (d :: ds) ∧ toIcebergFromPhysical e = .column name ∧
      p = if negated then Predicate.isNotIn name (d :: ds) else Predicate.isIn name (d :: ds) := by
  rw [toIcebergFromPhysical] at h
  unfold inListToPredicate at h
  split at h
  · rename_i hq
    split at hq
    · rename_i hds hname
      cases hq
      cases h
      exact ⟨_, _, _, hds, hname, rfl⟩
    · cases hq
  · cases h

theorem convert_literal_ne_predicate {v : ScalarValue} {p : Predicate} :
    toIcebergFromPhysical (.literal v) ≠ .predicate p := by
  intro h
  rw [toIcebergFromPhysical] at h
  split at h
  · cases h
  · split at h
    · cases h
    · cases h

/-! ### Where the converter loses a side of an AND -/

/-- The expression converts to a predicate of its own. -/
def converts (e : PhysicalExpr) : Bool :=
  match toIcebergFromPhysical e with
  | .predicate _ => true
  | _ => false

/-- Sides of an AND other than the literal TRUE are lost only where `ok` allows it; a NOT exchanges
the two polarities.  Parts that do not survive conversion are not looked at. -/
def lossesOk (ok : Bool) : PhysicalExpr → Bool
  | .binary l .and r =>
      match converts l, converts r with
      | true, true => lossesOk ok l && lossesOk ok r
      | true, false => (ok || isLiteralTrue r) && lossesOk ok l
      | false, true => (ok || isLiteralTrue l) && lossesOk ok r
      | false, false => true
  | .binary l .or r =>
      if converts l && converts r then lossesOk ok l && lossesOk ok r else true
  | .not e => if converts e then lossesOk (!ok) e else true
  | _ => true

/-- A literal other than a `Date64`, or no literal at all. -/
def literalDate64Free : PhysicalExpr → Bool
  | .literal v => !v.isDate64
  | _ => true

/-- No item of an `IN` list and no operand of a comparison is a `Date64` literal: DataFusion coerces
the literal to the column's type, and no Iceberg column is read as `Date64`. -/
def date64Free : PhysicalExpr → Bool
  | .literal v => literalDate64Free (.literal v)
  | .binary l _ r => date64Free l && date64Free r
  | .not e => date64Free e
  | .inList _ items _ => items.all literalDate64Free
  | _ => true

/-! ### The leaves -/

theorem reverseOp_test (op : PredicateOperator) (o : Ordering) :
    (reverseOp op).test o = op.test o.swap := by
  cases op <;> cases o <;> rfl

/-- A comparison operator and its image test outcomes alike. -/
theorem mapOperator_test {op : Operator} {p : PredicateOperator} (h : mapOperator op = .compare p) :
    p.test = op.test := by
  cases op <;> simp only [mapOperator, PhysicalOp.compare.injEq, reduceCtorEq] at h <;> subst h <;> rfl

/-- On a comparison operator, `evalBinary` tests the outcome of the comparison. -/
theorem evalBinary_compare {op : Operator} {p : PredicateOperator} (h : mapOperator op = .compare p)
    (v d : Value) : Predicate.evalBinary p v d = (v.ordering d).bind op.test := by
  rw [← mapOperator_test h]
  cases op <;> simp only [mapOperator, PhysicalOp.compare.injEq, reduceCtorEq] at h <;> subst h <;> rfl

theorem evalBinary_reverse {op : Operator} {p : PredicateOperator} (h : mapOperator op = .compare p)
    (v d : Value) : Predicate.evalBinary (reverseOp p) v d = (d.ordering v).bind op.test := by
  have hrev : Predicate.evalBinary (reverseOp p) v d = (v.ordering d).bind (reverseOp p).test := by
    cases op <;> simp only [mapOperator, PhysicalOp.compare.injEq, reduceCtorEq] at h <;>
      subst h <;> rfl
  rw [hrev, Value.ordering_swap v d, ← mapOperator_test h]
  cases v.ordering d with
  | none => rfl
  | some o => exact reverseOp_test p o

/-- A node of comparison type evaluates to the comparison of its operands. -/
theorem asBool_evalOperator {op : Operator} {p : PredicateOperator} (h : mapOperator op = .compare p)
    (F : Functions) (l r : Option Value) :
    asBool (evalOperator F l op r) = compareCells op l r := by
  cases op <;> simp [mapOperator] at h <;> simp [evalOperator]

/-- A conversion result is a column exactly for column nodes. -/
theorem eq_column_of_convert {e : PhysicalExpr} {r : String}
    (h : toIcebergFromPhysical e = .column r) : ∃ c : Column, e = .column c ∧ c.name = r := by
  cases e with
  | column c => exact ⟨c, rfl, by simpa [toIcebergFromPhysical] using h⟩
  | binary l op r =>
      simp only [toIcebergFromPhysical, toBinary, toAnd, toOr] at h
      split at h <;> (try split at h) <;> cases h
  | _ => simp only [toIcebergFromPhysical] at h; (repeat' split at h) <;> cases h

/-- A conversion result is a literal exactly for literals that have a datum. -/
theorem eq_literal_of_convert {e : PhysicalExpr} {d : Datum}
    (h : toIcebergFromPhysical e = .literal d) :
    ∃ v : ScalarValue, e = .literal v ∧ scalarValueToDatum v = some d := by
  cases e with
  | literal v =>
      simp only [toIcebergFromPhysical] at h
      split at h
      · cases h
      · cases hv : scalarValueToDatum v with
        | none => rw [hv] at h; cases h
        | some d' => rw [hv] at h; cases h; exact ⟨v, rfl, hv⟩
  | binary l op r =>
      simp only [toIcebergFromPhysical, toBinary, toAnd, toOr] at h
      split at h <;> (try split at h) <;> cases h
  | _ => simp only [toIcebergFromPhysical] at h; (repeat' split at h) <;> cases h

/-- The datums of the item loop are those of the items, one for one. -/
theorem literalDatums_forall₂ {items : List PhysicalExpr} {ds : List Datum}
    (h : literalDatums items = some ds) :
    List.Forall₂ (fun e d => ∃ v, e = .literal v ∧ scalarValueToDatum v = some d) items ds := by
  induction items generalizing ds with
  | nil =>
      cases h
      exact .nil
  | cons e es ih =>
      simp only [literalDatums] at h
      cases hd : literalDatum e with
      | none => rw [hd] at h; cases h
      | some d =>
          rw [hd] at h
          obtain ⟨ds', hds, rfl⟩ := Option.map_eq_some_iff.mp h
          refine .cons ?_ (ih hds)
          cases e with
          | literal v => exact ⟨v, rfl, hd⟩
          | _ => simp [literalDatum] at hd

/-! ### The two directions, for both truth values -/

/-- What the conversion of `e` to `p` owes to a row: in the two `complete` fields nothing that `e`
decides is lost, in the two `enforces` fields nothing that `p` decides is invented. -/
structure Tracks (F : Functions) (row : Row) (e : PhysicalExpr) (p : Predicate) : Prop where
  complete : lossesOk true e = true → e.isTrue F (PhysicalExpr.rowCells row) → p.isTrueOn row
  completeNot : lossesOk false e = true → e.isFalse F (PhysicalExpr.rowCells row) → p.isFalseOn row
  enforces : lossesOk false e = true → date64Free e = true →
    p.isTrueOn row → e.isTrue F (PhysicalExpr.rowCells row)
  enforcesNot : lossesOk true e = true → date64Free e = true →
    p.isFalseOn row → e.isFalse F (PhysicalExpr.rowCells row)

section

variable {F : Functions} {row : Row}

/-- A leaf tracks its predicate when the predicate decides `y`, the leaf decides `x`, every decision
of the leaf is one of the predicate, and the two agree on literals of native type. -/
theorem Tracks.of_leaf {e : PhysicalExpr} {p : Predicate} {x y : Option Bool}
    (hx : asBool (e.evaluate F (PhysicalExpr.rowCells row)) = x)
    (hT : p.isTrueOn row ↔ y = some true) (hF : p.isFalseOn row ↔ y = some false)
    (hxy : ∀ b, x = some b → y = some b) (heq : date64Free e = true → x = y) :
    Tracks F row e p where
  complete _ h := hT.mpr (hxy true (hx.symm.trans h))
  completeNot _ h := hF.mpr (hxy false (hx.symm.trans h))
  enforces _ hd h := hx.trans ((heq hd).trans (hT.mp h))
  enforcesNot _ hd h := hx.trans ((heq hd).trans (hF.mp h))

/-- A test of a cell against a literal, and the same test against its datum: what the first decides
the second decides too, and they agree unless the literal is a `Date64`. -/
theorem literal_leaf {g : Value → Value → Option Bool}
    (hg : ∀ a b : Value, a.native = true → b.native = false → g a b = none)
    (cell : Option NativeValue) {v : ScalarValue} {d : Datum} (hd : scalarValueToDatum v = some d) :
    (∀ b, (cell.bind fun a => v.value.bind fun y => g a.1 y) = some b →
      (cell.bind fun a => g a.1 d.value) = some b) ∧
    (v.isDate64 = false →
      (cell.bind fun a => v.value.bind fun y => g a.1 y) = cell.bind fun a => g a.1 d.value) := by
  cases hv : v.isDate64 with
  | false =>
      rw [scalarValueToDatum_value hd hv]
      exact ⟨fun b h => h, fun _ => rfl⟩
  | true =>
      refine ⟨fun b h => ?_, fun h => by cases h⟩
      obtain ⟨a, -, h⟩ := Option.bind_eq_some_iff.mp h
      obtain ⟨y, hy, h⟩ := Option.bind_eq_some_iff.mp h
      rw [hg a.1 y a.2 (ScalarValue.value_of_isDate64 hv y hy)] at h
      cases h

/-- Comparison of a column with a literal. -/
theorem Tracks.column_literal {op : Operator} {p : PredicateOperator} (c : Column)
    {v : ScalarValue} {d : Datum} (hop : mapOperator op = .compare p)
    (hd : scalarValueToDatum v = some d) :
    Tracks F row (.binary (.column c) op (.literal v)) (.binary p c.name d) := by
  have hg : ∀ a b : Value, a.native = true → b.native = false →
      (a.ordering b).bind op.test = none := by
    intro a b ha hb
    rw [Value.ordering_native_foreign ha hb, Option.bind_none]
  obtain ⟨hxy, heq⟩ := literal_leaf hg (row c.name) hd
  have hx : asBool ((PhysicalExpr.binary (.column c) op (.literal v)).evaluate F (PhysicalExpr.rowCells row))
      = (row c.name).bind fun a => v.value.bind fun y => (a.1.ordering y).bind op.test := by
    rw [PhysicalExpr.evaluate, asBool_evalOperator hop, PhysicalExpr.evaluate,
      PhysicalExpr.evaluate, compareCells, PhysicalExpr.rowCells, Option.bind_map]
    rfl
  simp only [← evalBinary_compare hop _ d.value] at hxy heq
  refine .of_leaf hx (Predicate.isTrueOn_binary p c.name d row)
    (Predicate.isFalseOn_binary p c.name d row) hxy (fun hf => heq ?_)
  simpa [date64Free, literalDate64Free] using hf

/-- Comparison of a literal with a column: the operator is reversed. -/
theorem Tracks.literal_column {op : Operator} {p : PredicateOperator} (c : Column)
    {v : ScalarValue} {d : Datum} (hop : mapOperator op = .compare p)
    (hd : scalarValueToDatum v = some d) :
    Tracks F row (.binary (.literal v) op (.column c)) (.binary (reverseOp p) c.name d) := by
  have hg : ∀ a b : Value, a.native = true → b.native = false →
      (b.ordering a).bind op.test = none := by
    intro a b ha hb
    rw [Value.ordering_swap a b, Value.ordering_native_foreign ha hb, Option.map_none,
      Option.bind_none]
  obtain ⟨hxy, heq⟩ := literal_leaf hg (row c.name) hd
  have hx : asBool ((PhysicalExpr.binary (.literal v) op (.column c)).evaluate F (PhysicalExpr.rowCells row))
      = (row c.name).bind fun a => v.value.bind fun y => (y.ordering a.1).bind op.test := by
    rw [PhysicalExpr.evaluate, asBool_evalOperator hop, PhysicalExpr.evaluate,
      PhysicalExpr.evaluate, compareCells, PhysicalExpr.rowCells]
    cases v.value <;> cases row c.name <;> rfl
  simp only [← evalBinary_reverse hop _ d.value] at hxy heq
  refine .of_leaf hx (Predicate.isTrueOn_binary (reverseOp p) c.name d row)
    (Predicate.isFalseOn_binary (reverseOp p) c.name d row) hxy (fun hf => heq ?_)
  simpa [date64Free, literalDate64Free] using hf

/-- A bare boolean column under NOT. -/
theorem Tracks.not_column (c : Column) :
    Tracks F row (.not (.column c)) (.binary .eq c.name (.boolean false)) := by
  have hx : asBool ((PhysicalExpr.not (.column c)).evaluate F (PhysicalExpr.rowCells row)) =
      (row c.name).bind fun a => Predicate.evalBinary .eq a.1 (Datum.boolean false).value := by
    rw [PhysicalExpr.evaluate, asBool_ofBool, PhysicalExpr.evaluate, PhysicalExpr.rowCells]
    cases row c.name with
    | none => rfl
    | some a =>
        obtain ⟨a, ha⟩ := a
        cases a with
        | boolean b => cases b <;> rfl
        | _ => rfl
  exact .of_leaf hx (Predicate.isTrueOn_binary .eq c.name _ row)
    (Predicate.isFalseOn_binary .eq c.name _ row) (fun _ h => h) (fun _ => rfl)

/-- The null tests. -/
theorem Tracks.isNull_column (c : Column) :
    Tracks F row (.isNull (.column c)) (.unary .isNull c.name) := by
  have hx : asBool ((PhysicalExpr.isNull (.column c)).evaluate F (PhysicalExpr.rowCells row)) =
      some (row c.name).isNone := by
    rw [PhysicalExpr.evaluate, PhysicalExpr.evaluate, PhysicalExpr.rowCells, Option.isNone_map]
    rfl
  refine .of_leaf hx (Predicate.isTrueOn_unary .isNull c.name row) ?_ (fun _ h => h) (fun _ => rfl)
  rw [Predicate.isFalseOn_unary]
  cases row c.name <;> simp [PredicateOperator.negate, Predicate.evalUnary]

theorem Tracks.isNotNull_column (c : Column) :
    Tracks F row (.isNotNull (.column c)) (.unary .notNull c.name) := by
  have hx : asBool ((PhysicalExpr.isNotNull (.column c)).evaluate F (PhysicalExpr.rowCells row)) =
      some (row c.name).isSome := by
    rw [PhysicalExpr.evaluate, PhysicalExpr.evaluate, PhysicalExpr.rowCells, Option.isSome_map]
    rfl
  refine .of_leaf hx (Predicate.isTrueOn_unary .notNull c.name row) ?_ (fun _ h => h) (fun _ => rfl)
  rw [Predicate.isFalseOn_unary]
  cases row c.name <;> simp [PredicateOperator.negate, Predicate.evalUnary]

/-- Membership in the items against membership in their datums. -/
theorem member_leaf (c : Column) {items : List PhysicalExpr} {ds : List Datum}
    (h : List.Forall₂ (fun e d => ∃ v, e = .literal v ∧ scalarValueToDatum v = some d) items ds) :
    (∀ b, memberOf (PhysicalExpr.rowCells row c)
        (PhysicalExpr.evaluateList F (PhysicalExpr.rowCells row) items) = some b →
      kany (Predicate.eqTest (row c.name)) ds = some b) ∧
    (items.all literalDate64Free = true →
      memberOf (PhysicalExpr.rowCells row c)
        (PhysicalExpr.evaluateList F (PhysicalExpr.rowCells row) items) =
      kany (Predicate.eqTest (row c.name)) ds) := by
  have hg : ∀ a b : Value, a.native = true → b.native = false →
      Predicate.evalBinary .eq a b = none := by
    intro a b ha hb
    show (a.ordering b).bind PredicateOperator.eq.test = none
    rw [Value.ordering_native_foreign ha hb, Option.bind_none]
  induction h with
  | nil => exact ⟨fun b h => h, fun _ => rfl⟩
  | @cons e d items ds hed _ ih =>
      obtain ⟨v, rfl, hd⟩ := hed
      obtain ⟨hxy, heq⟩ := literal_leaf hg (row c.name) hd
      have hcell : compareCells .eq (PhysicalExpr.rowCells row c) v.value =
          (row c.name).bind fun a => v.value.bind fun y => Predicate.evalBinary .eq a.1 y := by
        rw [compareCells, PhysicalExpr.rowCells, Option.bind_map]
        rfl
      simp only [PhysicalExpr.evaluateList, PhysicalExpr.evaluate]
      constructor
      · intro b hb
        rw [memberOf, kany_cons, hcell] at hb
        rw [kany_cons]
        exact kor_mono hxy ih.1 b hb
      · intro hfree
        rw [List.all_cons, Bool.and_eq_true] at hfree
        rw [memberOf, kany_cons, kany_cons, hcell, heq (by simpa [literalDate64Free] using hfree.1),
          ← memberOf, ih.2 hfree.2]
        rfl

/-- `IN` and `NOT IN` over literals. -/
theorem Tracks.inList_column (c : Column) {items : List PhysicalExpr} {ds : List Datum}
    (hds : literalDatums items = some ds) (negated : Bool) :
    Tracks F row (.inList (.column c) items negated)
      (if negated then Predicate.isNotIn c.name ds else Predicate.isIn c.name ds) := by
  obtain ⟨hxy, heq⟩ := @member_leaf F row c items ds (literalDatums_forall₂ hds)
  have hany := kany_eq_true (Predicate.eqTest (row c.name)) ds
  have hnone := kany_eq_false (Predicate.eqTest (row c.name)) ds
  cases negated with
  | false =>
      refine .of_leaf (asBool_ofBool _) ?_ ?_ hxy heq
      · exact (Predicate.isTrueOn_isIn c.name ds row).trans hany.symm
      · exact (Predicate.isFalseOn_isIn c.name ds row).trans hnone.symm
  | true =>
      refine .of_leaf (y := knot (kany (Predicate.eqTest (row c.name)) ds))
        (asBool_ofBool _) ?_ ?_ ?_ ?_
      · exact (Predicate.isTrueOn_isNotIn c.name ds row).trans
          (hnone.symm.trans (knot_eq_true _).symm)
      · exact (Predicate.isFalseOn_isNotIn c.name ds row).trans
          (hany.symm.trans (knot_eq_false _).symm)
      · exact knot_mono hxy
      · exact fun hfree => congrArg knot (heq hfree)

/-! ### The connectives -/

/-- An AND both of whose sides convert. -/
theorem Tracks.and_both {l r : PhysicalExpr} {p q : Predicate} (hl : Tracks F row l p)
    (hr : Tracks F row r q) (hcl : converts l = true) (hcr : converts r = true) :
    Tracks F row (.binary l .and r) (p.and q) := by
  have hlo : ∀ ok, lossesOk ok (.binary l .and r) = true →
      lossesOk ok l = true ∧ lossesOk ok r = true := by
    intro ok h
    simpa [lossesOk, hcl, hcr] using h
  have hdf : date64Free (.binary l .and r) = true → date64Free l = true ∧ date64Free r = true := by
    intro h
    simpa [date64Free] using h
  constructor
  · intro hok h
    obtain ⟨hokl, hokr⟩ := hlo true hok
    obtain ⟨h₁, h₂⟩ := (PhysicalExpr.isTrue_and ..).mp h
    exact (Predicate.isTrueOn_and ..).mpr ⟨hl.complete hokl h₁, hr.complete hokr h₂⟩
  · intro hok h
    obtain ⟨hokl, hokr⟩ := hlo false hok
    exact (Predicate.isFalseOn_and ..).mpr
      (((PhysicalExpr.isFalse_and ..).mp h).imp (hl.completeNot hokl) (hr.completeNot hokr))
  · intro hok hfree h
    obtain ⟨hokl, hokr⟩ := hlo false hok
    obtain ⟨hfl, hfr⟩ := hdf hfree
    obtain ⟨h₁, h₂⟩ := (Predicate.isTrueOn_and ..).mp h
    exact (PhysicalExpr.isTrue_and ..).mpr ⟨hl.enforces hokl hfl h₁, hr.enforces hokr hfr h₂⟩
  · intro hok hfree h
    obtain ⟨hokl, hokr⟩ := hlo true hok
    obtain ⟨hfl, hfr⟩ := hdf hfree
    exact (PhysicalExpr.isFalse_and ..).mpr
      (((Predicate.isFalseOn_and ..).mp h).imp (hl.enforcesNot hokl hfl) (hr.enforcesNot hokr hfr))

theorem isTrue_of_isLiteralTrue {e : PhysicalExpr} (h : isLiteralTrue e = true)
    (ρ : Column → Option Value) : e.isTrue F ρ := by
  unfold isLiteralTrue at h
  split at h
  · rfl
  · cases h

theorem not_isFalse_of_isTrue {e : PhysicalExpr} {ρ : Column → Option Value}
    (h : e.isTrue F ρ) : ¬ e.isFalse F ρ := by
  intro h'
  cases h.symm.trans h'

/-- An AND of which one side, `l`, converts.  The lost side `r` weakens the condition: harmless for
the truth of the predicate, but not for its falsity, unless `r` is the literal TRUE.  Stated for both
operand orders at once: `e` is the AND, known through its decisions. -/
theorem Tracks.and_one {e l r : PhysicalExpr} {p : Predicate} (hl : Tracks F row l p)
    (hT : e.isTrue F (PhysicalExpr.rowCells row) ↔
      l.isTrue F (PhysicalExpr.rowCells row) ∧ r.isTrue F (PhysicalExpr.rowCells row))
    (hF : e.isFalse F (PhysicalExpr.rowCells row) ↔
      l.isFalse F (PhysicalExpr.rowCells row) ∨ r.isFalse F (PhysicalExpr.rowCells row))
    (hlo : ∀ ok, lossesOk ok e = true → (ok || isLiteralTrue r) = true ∧ lossesOk ok l = true)
    (hdf : date64Free e = true → date64Free l = true) :
    Tracks F row e p := by
  have hlost : lossesOk false e = true → r.isTrue F (PhysicalExpr.rowCells row) := by
    intro hok
    exact isTrue_of_isLiteralTrue (by simpa using (hlo false hok).1) _
  constructor
  · intro hok h
    exact hl.complete (hlo true hok).2 (hT.mp h).1
  · intro hok h
    rcases hF.mp h with h | h
    · exact hl.completeNot (hlo false hok).2 h
    · exact absurd h (not_isFalse_of_isTrue (hlost hok))
  · intro hok hfree h
    exact hT.mpr ⟨hl.enforces (hlo false hok).2 (hdf hfree) h, hlost hok⟩
  · intro hok hfree h
    exact hF.mpr (.inl (hl.enforcesNot (hlo true hok).2 (hdf hfree) h))

/-- An OR: both sides convert or nothing does. -/
theorem Tracks.or_both {l r : PhysicalExpr} {p q : Predicate} (hl : Tracks F row l p)
    (hr : Tracks F row r q) (hcl : converts l = true) (hcr : converts r = true) :
    Tracks F row (.binary l .or r) (p.or q) := by
  have hlo : ∀ ok, lossesOk ok (.binary l .or r) = true →
      lossesOk ok l = true ∧ lossesOk ok r = true := by
    intro ok h
    simpa [lossesOk, hcl, hcr] using h
  have hdf : date64Free (.binary l .or r) = true → date64Free l = true ∧ date64Free r = true := by
    intro h
    simpa [date64Free] using h
  constructor
  · intro hok h
    obtain ⟨hokl, hokr⟩ := hlo true hok
    exact (Predicate.isTrueOn_or ..).mpr
      (((PhysicalExpr.isTrue_or ..).mp h).imp (hl.complete hokl) (hr.complete hokr))
  · intro hok h
    obtain ⟨hokl, hokr⟩ := hlo false hok
    obtain ⟨h₁, h₂⟩ := (PhysicalExpr.isFalse_or ..).mp h
    exact (Predicate.isFalseOn_or ..).mpr ⟨hl.completeNot hokl h₁, hr.completeNot hokr h₂⟩
  · intro hok hfree h
    obtain ⟨hokl, hokr⟩ := hlo false hok
    obtain ⟨hfl, hfr⟩ := hdf hfree
    exact (PhysicalExpr.isTrue_or ..).mpr
      (((Predicate.isTrueOn_or ..).mp h).imp (hl.enforces hokl hfl) (hr.enforces hokr hfr))
  · intro hok hfree h
    obtain ⟨hokl, hokr⟩ := hlo true hok
    obtain ⟨hfl, hfr⟩ := hdf hfree
    obtain ⟨h₁, h₂⟩ := (Predicate.isFalseOn_or ..).mp h
    exact (PhysicalExpr.isFalse_or ..).mpr ⟨hl.enforcesNot hokl hfl h₁, hr.enforcesNot hokr hfr h₂⟩

/-- A NOT exchanges the two truth values, and with them the two polarities. -/
theorem Tracks.not {e : PhysicalExpr} {p : Predicate} (h : Tracks F row e p)
    (hc : converts e = true) : Tracks F row (.not e) (.notExpr p) := by
  have hlo : ∀ ok, lossesOk ok (.not e) = true → lossesOk (!ok) e = true := by
    intro ok hok
    simpa [lossesOk, hc] using hok
  constructor
  · intro hok he
    exact h.completeNot (hlo true hok) ((PhysicalExpr.isTrue_not ..).mp he)
  · intro hok he
    exact (Predicate.isFalseOn_notExpr ..).mpr
      (h.complete (hlo false hok) ((PhysicalExpr.isFalse_not ..).mp he))
  · intro hok hfree hp
    exact (PhysicalExpr.isTrue_not ..).mpr (h.enforcesNot (hlo false hok) hfree hp)
  · intro hok hfree hp
    exact (PhysicalExpr.isFalse_not ..).mpr
      (h.enforces (hlo true hok) hfree ((Predicate.isFalseOn_notExpr ..).mp hp))

/-! ### The conversion as a whole -/

theorem converts_of_eq {e : PhysicalExpr} {p : Predicate}
    (h : toIcebergFromPhysical e = .predicate p) : converts e = true := by
  rw [converts, h]

theorem converts_false_of_ne {e : PhysicalExpr}
    (h : ∀ p, toIcebergFromPhysical e ≠ .predicate p) : converts e = false := by
  unfold converts
  split
  · rename_i p hp
    exact absurd hp (h p)
  · rfl

theorem Tracks.comparison {l r : PhysicalExpr} {op : Operator} {pop : PredicateOperator}
    {p : Predicate} (hop : mapOperator op = .compare pop)
    (h : toBinary (toIcebergFromPhysical l) (toIcebergFromPhysical r) pop = .predicate p) :
    Tracks F row (.binary l op r) p := by
  obtain ⟨name, d, hl, hr, rfl⟩ | ⟨d, name, hl, hr, rfl⟩ := toBinary_eq_predicate h
  · obtain ⟨c, rfl, rfl⟩ := eq_column_of_convert hl
    obtain ⟨v, rfl, hd⟩ := eq_literal_of_convert hr
    exact .column_literal c hop hd
  · obtain ⟨v, rfl, hd⟩ := eq_literal_of_convert hl
    obtain ⟨c, rfl, rfl⟩ := eq_column_of_convert hr
    exact .literal_column c hop hd

theorem Tracks.conjunction {l r : PhysicalExpr} {p : Predicate}
    (ihl : ∀ q, toIcebergFromPhysical l = .predicate q → Tracks F row l q)
    (ihr : ∀ q, toIcebergFromPhysical r = .predicate q → Tracks F row r q)
    (h : toAnd (toIcebergFromPhysical l) (toIcebergFromPhysical r) = .predicate p) :
    Tracks F row (.binary l .and r) p := by
  obtain ⟨q, q', hl, hr, rfl⟩ | ⟨hl, hr⟩ | ⟨hr, hl⟩ := toAnd_eq_predicate h
  · exact (ihl q hl).and_both (ihr q' hr) (converts_of_eq hl) (converts_of_eq hr)
  · have hcl := converts_of_eq hl
    have hcr := converts_false_of_ne hr
    refine (ihl _ hl).and_one (PhysicalExpr.isTrue_and ..) (PhysicalExpr.isFalse_and ..) ?_ ?_
    · intro ok hok
      simpa [lossesOk, hcl, hcr] using hok
    · intro hfree
      exact (Bool.and_eq_true_iff.mp hfree).1
  · have hcr := converts_of_eq hr
    have hcl := converts_false_of_ne hl
    refine (ihr _ hr).and_one (r := l) ((PhysicalExpr.isTrue_and ..).trans and_comm)
      ((PhysicalExpr.isFalse_and ..).trans or_comm) ?_ ?_
    · intro ok hok
      simpa [lossesOk, hcl, hcr] using hok
    · intro hfree
      exact (Bool.and_eq_true_iff.mp hfree).2

theorem Tracks.disjunction {l r : PhysicalExpr} {p : Predicate}
    (ihl : ∀ q, toIcebergFromPhysical l = .predicate q → Tracks F row l q)
    (ihr : ∀ q, toIcebergFromPhysical r = .predicate q → Tracks F row r q)
    (h : toOr (toIcebergFromPhysical l) (toIcebergFromPhysical r) = .predicate p) :
    Tracks F row (.binary l .or r) p := by
  obtain ⟨q, q', hl, hr, rfl⟩ := toOr_eq_predicate h
  exact (ihl q hl).or_both (ihr q' hr) (converts_of_eq hl) (converts_of_eq hr)

theorem Tracks.negation {e : PhysicalExpr} {p : Predicate}
    (ih : ∀ q, toIcebergFromPhysical e = .predicate q → Tracks F row e q)
    (h : toIcebergFromPhysical (.not e) = .predicate p) : Tracks F row (.not e) p := by
  obtain ⟨q, hq, rfl⟩ | ⟨name, hname, rfl⟩ := convert_not_eq_predicate h
  · exact (ih q hq).not (converts_of_eq hq)
  · obtain ⟨c, rfl, rfl⟩ := eq_column_of_convert hname
    exact .not_column c

theorem Tracks.membership {e : PhysicalExpr} {items : List PhysicalExpr} {negated : Bool}
    {p : Predicate} (h : toIcebergFromPhysical (.inList e items negated) = .predicate p) :
    Tracks F row (.inList e items negated) p := by
  obtain ⟨d, ds, name, hds, hname, rfl⟩ := convert_inList_eq_predicate h
  obtain ⟨c, rfl, rfl⟩ := eq_column_of_convert hname
  exact .inList_column c hds negated

/-- The arms that look for a column below the node. -/
theorem Tracks.nullTest {e : PhysicalExpr} {op : PredicateOperator} {p : Predicate}
    {test : PhysicalExpr → PhysicalExpr}
    (hleaf : ∀ c : Column, Tracks F row (test (.column c)) (.unary op c.name))
    (h : (match toIcebergFromPhysical e with
      | .column r => PhysicalTransformed.predicate (.unary op r)
      | _ => .notTransformed) = .predicate p) : Tracks F row (test e) p := by
  obtain ⟨name, hname, rfl⟩ := nullTest_eq_predicate h
  obtain ⟨c, rfl, rfl⟩ := eq_column_of_convert hname
  exact hleaf c

/-- **The converter tracks its input**, at both truth values and in both directions. -/
theorem tracks : ∀ (e : PhysicalExpr) (p : Predicate), toIcebergFromPhysical e = .predicate p →
    Tracks F row e p
  | .binary l .and r, _, h => .conjunction (tracks l) (tracks r) h
  | .binary l .or r, _, h => .disjunction (tracks l) (tracks r) h
  | .binary _ .eq _, _, h => .comparison rfl h
  | .binary _ .notEq _, _, h => .comparison rfl h
  | .binary _ .lt _, _, h => .comparison rfl h
  | .binary _ .ltEq _, _, h => .comparison rfl h
  | .binary _ .gt _, _, h => .comparison rfl h
  | .binary _ .gtEq _, _, h => .comparison rfl h
  | .not e, _, h => .negation (tracks e) h
  | .isNull _, _, h => .nullTest .isNull_column h
  | .isNotNull _, _, h => .nullTest .isNotNull_column h
  | .inList _ _ _, _, h => .membership h
  | .literal _, _, h => absurd h convert_literal_ne_predicate

/-! ### The extracted conjuncts -/

theorem converts_and (l r : PhysicalExpr) :
    converts (.binary l .and r) = (converts l || converts r) := by
  unfold converts
  simp only [toIcebergFromPhysical, mapOperator]
  cases toIcebergFromPhysical l <;> cases toIcebergFromPhysical r <;> rfl

theorem converts_or (l r : PhysicalExpr) :
    converts (.binary l .or r) = (converts l && converts r) := by
  unfold converts
  simp only [toIcebergFromPhysical, mapOperator]
  cases toIcebergFromPhysical l <;> cases toIcebergFromPhysical r <;> rfl

theorem converts_not {e : PhysicalExpr} (h : converts e = true) : converts (.not e) = true := by
  unfold converts at h ⊢
  simp only [toIcebergFromPhysical]
  cases he : toIcebergFromPhysical e <;> rw [he] at h <;> first | rfl | cases h

/-- What does not convert loses nothing: the walk of `lossesOk` stops there. -/
theorem lossesOk_of_not_converts (ok : Bool) {e : PhysicalExpr} (h : converts e = false) :
    lossesOk ok e = true := by
  unfold lossesOk
  split
  · rw [converts_and, Bool.or_eq_false_iff] at h
    rw [h.1, h.2]
  · rw [converts_or] at h
    rw [if_neg (by rw [h]; exact Bool.false_ne_true)]
  · rename_i e
    cases he : converts e with
    | true => rw [converts_not he] at h; cases h
    | false => rfl
  · rfl

/-- The two sides of an AND inherit its harmless losses. -/
theorem lossesOk_and {l r : PhysicalExpr} {ok : Bool} (h : lossesOk ok (.binary l .and r) = true) :
    lossesOk ok l = true ∧ lossesOk ok r = true := by
  rw [lossesOk] at h
  cases hl : converts l <;> cases hr : converts r <;> simp only [hl, hr, Bool.and_eq_true] at h
  · exact ⟨lossesOk_of_not_converts ok hl, lossesOk_of_not_converts ok hr⟩
  · exact ⟨lossesOk_of_not_converts ok hl, h.2⟩
  · exact ⟨h.2, lossesOk_of_not_converts ok hr⟩
  · exact h

/-- A bare boolean column is TRUE exactly where `column = true` is. -/
theorem isTrueOn_column_eq_true (F : Functions) (row : Row) (c : Column) :
    (Predicate.binary .eq c.name (.boolean true)).isTrueOn row ↔
      (PhysicalExpr.column c).isTrue F (PhysicalExpr.rowCells row) := by
  rw [Predicate.isTrueOn_binary, PhysicalExpr.isTrue, PhysicalExpr.evaluate, PhysicalExpr.rowCells]
  cases row c.name with
  | none => exact Iff.rfl
  | some a =>
      obtain ⟨a, ha⟩ := a
      cases a with
      | boolean b => cases b <;> exact Iff.rfl
      | _ => exact ⟨fun h => (by cases h), fun h => (by cases h)⟩

/-- **Pruning is sound where losses are harmless**: a row on which the filter is TRUE satisfies every
extracted predicate. -/
theorem extract_complete {e : PhysicalExpr} (hok : lossesOk true e = true)
    (h : e.isTrue F (PhysicalExpr.rowCells row)) :
    ∀ p ∈ extractPushdownPredicates e, p.isTrueOn row := by
  fun_induction extractPushdownPredicates e with
  | case2 l r ihl ihr =>
      obtain ⟨hl, hr⟩ := lossesOk_and hok
      obtain ⟨h₁, h₂⟩ := (PhysicalExpr.isTrue_and ..).mp h
      intro p hp
      rcases List.mem_append.mp hp with hp | hp
      · exact ihl hl h₁ p hp
      · exact ihr hr h₂ p hp
  | case4 e _ _ _ q hq =>
      intro p hp
      obtain rfl := List.mem_singleton.mp hp
      exact (tracks e p hq).complete hok h
  | case5 e _ _ _ name hname =>
      obtain ⟨c, rfl, rfl⟩ := eq_column_of_convert hname
      intro p hp
      obtain rfl := List.mem_singleton.mp hp
      exact (isTrueOn_column_eq_true F row c).mpr h
  | _ => exact fun p hp => absurd hp List.not_mem_nil

/-- Off the ANDs, what converts is extracted. -/
theorem extract_of_convert {e : PhysicalExpr} {p : Predicate}
    (hand : ∀ l r, e = .binary l .and r → False) (hp : toIcebergFromPhysical e = .predicate p) :
    extractPushdownPredicates e = [p] := by
  fun_cases extractPushdownPredicates e with
  | case2 l r => exact absurd rfl (hand l r)
  | case3 e _ _ htrue =>
      unfold isLiteralTrue at htrue
      split at htrue <;> cases htrue
      cases hp
  | case4 e _ _ _ q hq =>
      rw [hq] at hp
      cases hp
      rfl
  | _ => simp_all [toIcebergFromPhysical]

/-- Nothing of the filter is left out of the extracted predicates: down the ANDs every conjunct is
the literal TRUE, a bare column, or converts with losses only where they strengthen it. -/
def fullyExtracted : PhysicalExpr → Bool
  | .binary l .and r => fullyExtracted l && fullyExtracted r
  | .column _ => true
  | e => isLiteralTrue e || (converts e && lossesOk false e && date64Free e)

/-- **The predicates answer for the filter** where it is fully extracted: a row that satisfies them
all makes the filter TRUE. -/
theorem extract_enforces {e : PhysicalExpr} (hfull : fullyExtracted e = true)
    (h : ∀ p ∈ extractPushdownPredicates e, p.isTrueOn row) :
    e.isTrue F (PhysicalExpr.rowCells row) := by
  fun_induction fullyExtracted e with
  | case1 l r ihl ihr =>
      obtain ⟨hl, hr⟩ := Bool.and_eq_true_iff.mp hfull
      simp only [extractPushdownPredicates, List.mem_append] at h
      exact (PhysicalExpr.isTrue_and ..).mpr
        ⟨ihl hl fun p hp => h p (.inl hp), ihr hr fun p hp => h p (.inr hp)⟩
  | case2 c => exact (isTrueOn_column_eq_true F row c).mp (h _ (List.mem_singleton.mpr rfl))
  | case3 e hand hcol =>
      rcases Bool.or_eq_true_iff.mp hfull with htrue | hconv
      · exact isTrue_of_isLiteralTrue htrue _
      · simp only [Bool.and_eq_true] at hconv
        obtain ⟨⟨hc, hok⟩, hfree⟩ := hconv
        obtain ⟨p, hp⟩ : ∃ p, toIcebergFromPhysical e = .predicate p := by
          unfold converts at hc
          split at hc
          · exact ⟨_, ‹_›⟩
          · cases hc
        refine (tracks e p hp).enforces hok hfree (h p ?_)
        rw [extract_of_convert hand hp]
        exact List.mem_singleton.mpr rfl

end

/-! ### The columns of the extracted predicates -/

/-- The names of the columns of an expression. -/
def columnNames (e : PhysicalExpr) : List String := e.collectColumns.map Column.name

theorem mem_columnNames_binary {l r : PhysicalExpr} {op : Operator} {c : String} :
    c ∈ columnNames (.binary l op r) ↔ c ∈ columnNames l ∨ c ∈ columnNames r := by
  rw [columnNames, PhysicalExpr.collectColumns, List.map_append, List.mem_append]
  rfl

theorem mem_columnNames_of_convert {e : PhysicalExpr} {r : String}
    (h : toIcebergFromPhysical e = .column r) : r ∈ columnNames e := by
  obtain ⟨c, rfl, rfl⟩ := eq_column_of_convert h
  exact List.mem_singleton.mpr rfl

theorem columns_of_comparison {l r : PhysicalExpr} {op : Operator} {pop : PredicateOperator}
    {p : Predicate} (h : toBinary (toIcebergFromPhysical l) (toIcebergFromPhysical r) pop = .predicate p)
    {c : String} (hc : c ∈ p.columns) : c ∈ columnNames (.binary l op r) := by
  rw [mem_columnNames_binary]
  obtain ⟨name, d, hl, hr, rfl⟩ | ⟨d, name, hl, hr, rfl⟩ := toBinary_eq_predicate h
  · rw [List.mem_singleton.mp hc]
    exact .inl (mem_columnNames_of_convert hl)
  · rw [List.mem_singleton.mp hc]
    exact .inr (mem_columnNames_of_convert hr)

/-- The columns a converted predicate names are columns of the expression. -/
theorem columns_of_convert : ∀ (e : PhysicalExpr) (p : Predicate),
    toIcebergFromPhysical e = .predicate p → ∀ c ∈ p.columns, c ∈ columnNames e
  | .binary l op r, p, h, c, hc => by
      rw [toIcebergFromPhysical] at h
      split at h
      · exact columns_of_comparison h hc
      · rw [mem_columnNames_binary]
        obtain ⟨q, q', hl, hr, rfl⟩ | ⟨hl, -⟩ | ⟨hr, -⟩ := toAnd_eq_predicate h
        · exact (Predicate.mem_columns_and hc).imp (columns_of_convert l q hl c)
            (columns_of_convert r q' hr c)
        · exact .inl (columns_of_convert l p hl c hc)
        · exact .inr (columns_of_convert r p hr c hc)
      · rw [mem_columnNames_binary]
        obtain ⟨q, q', hl, hr, rfl⟩ := toOr_eq_predicate h
        exact (Predicate.mem_columns_or hc).imp (columns_of_convert l q hl c)
          (columns_of_convert r q' hr c)
      · cases h
  | .not e, p, h, c, hc => by
      obtain ⟨q, hq, rfl⟩ | ⟨name, hname, rfl⟩ := convert_not_eq_predicate h
      · exact columns_of_convert e q hq c hc
      · have hmem := mem_columnNames_of_convert hname
        rw [List.mem_singleton.mp hc]
        exact hmem
  | .isNull e, p, h, c, hc => by
      obtain ⟨name, hname, rfl⟩ := nullTest_eq_predicate h
      have hmem := mem_columnNames_of_convert hname
      rw [List.mem_singleton.mp hc]
      exact hmem
  | .isNotNull e, p, h, c, hc => by
      obtain ⟨name, hname, rfl⟩ := nullTest_eq_predicate h
      have hmem := mem_columnNames_of_convert hname
      rw [List.mem_singleton.mp hc]
      exact hmem
  | .inList e items negated, p, h, c, hc => by
      obtain ⟨d, ds, name, -, hname, rfl⟩ := convert_inList_eq_predicate h
      have hname' : c = name := by
        cases negated with
        | false => exact List.mem_singleton.mp hc
        | true => exact List.mem_singleton.mp hc
      have hmem := mem_columnNames_of_convert hname
      rw [hname', columnNames, PhysicalExpr.collectColumns, List.map_append, List.mem_append]
      exact .inl hmem
  | .literal _, _, h, _, _ => absurd h convert_literal_ne_predicate

/-- The conjuncts are extracted one by one. -/
theorem mem_extract_iff_conjuncts (e : PhysicalExpr) (p : Predicate) :
    p ∈ extractPushdownPredicates e ↔ ∃ c ∈ e.conjuncts, p ∈ extractPushdownPredicates c := by
  fun_induction PhysicalExpr.conjuncts e with
  | case1 l r ihl ihr =>
      rw [extractPushdownPredicates, List.mem_append, ihl, ihr]
      simp only [List.mem_append, or_and_right, exists_or]
  | case2 e _ => simp only [List.mem_singleton, exists_eq_left]

/-- The columns an extracted predicate names are columns of the filter. -/
theorem columns_of_extract {e : PhysicalExpr} {p : Predicate} (h : p ∈ extractPushdownPredicates e)
    {c : String} (hc : c ∈ p.columns) : c ∈ columnNames e := by
  fun_induction extractPushdownPredicates e with
  | case2 l r ihl ihr =>
      rw [mem_columnNames_binary]
      exact (List.mem_append.mp h).imp ihl ihr
  | case4 e _ _ _ q hq =>
      obtain rfl := List.mem_singleton.mp h
      exact columns_of_convert e p hq c hc
  | case5 e _ _ _ name hname =>
      obtain rfl := List.mem_singleton.mp h
      rw [List.mem_singleton.mp hc]
      exact mem_columnNames_of_convert hname
  | _ => exact absurd h List.not_mem_nil

/-! ### Pruning soundness -/

/-- No row on which the filter is TRUE is discarded by an extracted predicate. -/
def PruningSound (e : PhysicalExpr) : Prop :=
  ∀ (F : Functions) (row : Row), e.isTrue F (PhysicalExpr.rowCells row) →
    ∀ p ∈ extractPushdownPredicates e, p.isTrueOn row

/-- Functions for which every unknown node is FALSE and nothing else has a value. -/
def Functions.othersFalse : Functions where
  binary := fun _ _ _ => none
  lookup := fun _ _ => none
  dynamic := fun _ _ => none
  other := fun _ _ => some (.boolean false)

/-- `a = 1`. -/
def aIsOne : PhysicalExpr := .binary (.column ⟨"a", 0⟩) .eq (.literal (.int64 (some 1)))

/-- A row with `a = 1`. -/
def rowAOne : Row := fun c => if c = "a" then some ⟨.integer 1, rfl⟩ else none

end IcebergDb.Expr
