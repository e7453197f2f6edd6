import IcebergDb.Expr.Predicate

/-!
# Physical filter expressions

DataFusion's physical expression trees as far as the scan layer tells them apart, and their value
under SQL's three-valued logic.

* `PhysicalExpr` — one constructor per node type that the converter downcasts to, and `other` for
  every node it does not know (functions, `LIKE`, `CASE`, casts, ...);
* `Functions` — the meaning of what is outside this repository: operators other than comparisons and
  the connectives, hash-table lookups, nested dynamic filters, unknown nodes.  Every theorem holds for
  all of them;
* `PhysicalExpr.evaluate` — the value of an expression when each column reads the given cell;
* `PhysicalExpr.collectColumns` — `collect_columns`, the columns anywhere in the tree;
* `evaluate_congr` — the value depends on those columns only.
-/

namespace IcebergDb.Expr

open IcebergDb.Kleene

/-- `Column`: a name, and the position at which the expression reads its input. -/
structure Column where
  name : String
  index : ℕ
deriving DecidableEq

/-- `Operator`; `other` stands for arithmetic, `LIKE`, bit operations and the rest. -/
inductive Operator where
  | eq
  | notEq
  | lt
  | ltEq
  | gt
  | gtEq
  | and
  | or
  | other (name : String)
deriving DecidableEq

/-- Physical expressions.  A hash-table lookup and a dynamic filter are shared objects, named by an
identity; their `children` are the key columns DataFusion reports for them. -/
inductive PhysicalExpr where
  | column (c : Column)
  | literal (v : ScalarValue)
  | binary (left : PhysicalExpr) (op : Operator) (right : PhysicalExpr)
  | not (arg : PhysicalExpr)
  | isNull (arg : PhysicalExpr)
  | isNotNull (arg : PhysicalExpr)
  | inList (expr : PhysicalExpr) (list : List PhysicalExpr) (negated : Bool)
  | hashTableLookup (id : ℕ) (children : List PhysicalExpr)
  | dynamicFilter (id : ℕ) (children : List PhysicalExpr)
  | other (name : String) (children : List PhysicalExpr)

/-- The meaning of everything the repository leaves to DataFusion. -/
structure Functions where
  binary : String → Option Value → Option Value → Option Value
  lookup : ℕ → List (Option Value) → Option Value
  dynamic : ℕ → List (Option Value) → Option Value
  other : String → List (Option Value) → Option Value

/-- The truth value of a cell; anything that is not a boolean is not a truth value. -/
def asBool : Option Value → Option Bool
  | some (.boolean b) => some b
  | _ => none

/-- A truth value as a cell. -/
def ofBool (b : Option Bool) : Option Value := b.map .boolean

@[simp] theorem asBool_ofBool (b : Option Bool) : asBool (ofBool b) = b := by
  cases b <;> rfl

/-- What a comparison operator says about an outcome. -/
def Operator.test : Operator → Ordering → Option Bool
  | .eq, o => some (o == .eq)
  | .notEq, o => some (o != .eq)
  | .lt, o => some (o == .lt)
  | .ltEq, o => some (o != .gt)
  | .gt, o => some (o == .gt)
  | .gtEq, o => some (o != .lt)
  | _, _ => none

/-- SQL comparison: NULL when an operand is NULL. -/
def compareCells (op : Operator) (l r : Option Value) : Option Bool :=
  l.bind fun a => r.bind fun b => (a.ordering b).bind op.test

/-- The value of a binary node. -/
def evalOperator (F : Functions) (l : Option Value) (op : Operator) (r : Option Value) :
    Option Value :=
  match op with
  | .and => ofBool (kand (asBool l) (asBool r))
  | .or => ofBool (kor (asBool l) (asBool r))
  | .other name => F.binary name l r
  | op => ofBool (compareCells op l r)

/-- SQL membership: the disjunction of the equalities. -/
def memberOf (x : Option Value) (items : List (Option Value)) : Option Bool :=
  kany (compareCells .eq x) items

namespace PhysicalExpr

mutual

/-- The value of an expression whose columns read `ρ`. -/
def evaluate (F : Functions) (ρ : Column → Option Value) : PhysicalExpr → Option Value
  | column c => ρ c
  | literal v => v.value
  | binary l op r => evalOperator F (l.evaluate F ρ) op (r.evaluate F ρ)
  | not e => ofBool (knot (asBool (e.evaluate F ρ)))
  | isNull e => some (.boolean (e.evaluate F ρ).isNone)
  | isNotNull e => some (.boolean (e.evaluate F ρ).isSome)
  | inList e items negated =>
      let hit := memberOf (e.evaluate F ρ) (evaluateList F ρ items)
      ofBool (if negated then knot hit else hit)
  | hashTableLookup id cs => F.lookup id (evaluateList F ρ cs)
  | dynamicFilter id cs => F.dynamic id (evaluateList F ρ cs)
  | other name cs => F.other name (evaluateList F ρ cs)

/-- The values of a list of expressions. -/
def evaluateList (F : Functions) (ρ : Column → Option Value) : List PhysicalExpr → List (Option Value)
  | [] => []
  | e :: es => e.evaluate F ρ :: evaluateList F ρ es

end

mutual

/-- `collect_columns`: every column below the node, the node included. -/
def collectColumns : PhysicalExpr → List Column
  | column c => [c]
  | literal _ => []
  | binary l _ r => l.collectColumns ++ r.collectColumns
  | not e | isNull e | isNotNull e => e.collectColumns
  | inList e items _ => e.collectColumns ++ collectColumnsList items
  | hashTableLookup _ cs | dynamicFilter _ cs | other _ cs => collectColumnsList cs

/-- The columns of a list of expressions. -/
def collectColumnsList : List PhysicalExpr → List Column
  | [] => []
  | e :: es => e.collectColumns ++ collectColumnsList es

end

/-- The filter keeps the row: its value is TRUE. -/
def isTrue (F : Functions) (ρ : Column → Option Value) (e : PhysicalExpr) : Prop :=
  asBool (e.evaluate F ρ) = some true

/-- The filter is FALSE, not merely unknown. -/
def isFalse (F : Functions) (ρ : Column → Option Value) (e : PhysicalExpr) : Prop :=
  asBool (e.evaluate F ρ) = some false

instance (F : Functions) (ρ : Column → Option Value) (e : PhysicalExpr) :
    Decidable (e.isTrue F ρ) :=
  inferInstanceAs (Decidable (_ = _))

@[simp] theorem isTrue_and (F : Functions) (ρ : Column → Option Value) (l r : PhysicalExpr) :
    (binary l .and r).isTrue F ρ ↔ l.isTrue F ρ ∧ r.isTrue F ρ := by
  simp only [isTrue, evaluate, evalOperator, asBool_ofBool, kand_eq_true]

@[simp] theorem isFalse_and (F : Functions) (ρ : Column → Option Value) (l r : PhysicalExpr) :
    (binary l .and r).isFalse F ρ ↔ l.isFalse F ρ ∨ r.isFalse F ρ := by
  simp only [isFalse, evaluate, evalOperator, asBool_ofBool, kand_eq_false]

@[simp] theorem isTrue_or (F : Functions) (ρ : Column → Option Value) (l r : PhysicalExpr) :
    (binary l .or r).isTrue F ρ ↔ l.isTrue F ρ ∨ r.isTrue F ρ := by
  simp only [isTrue, evaluate, evalOperator, asBool_ofBool, kor_eq_true]

@[simp] theorem isFalse_or (F : Functions) (ρ : Column → Option Value) (l r : PhysicalExpr) :
    (binary l .or r).isFalse F ρ ↔ l.isFalse F ρ ∧ r.isFalse F ρ := by
  simp only [isFalse, evaluate, evalOperator, asBool_ofBool, kor_eq_false]

@[simp] theorem isTrue_not (F : Functions) (ρ : Column → Option Value) (e : PhysicalExpr) :
    (not e).isTrue F ρ ↔ e.isFalse F ρ := by
  simp only [isTrue, isFalse, evaluate, asBool_ofBool, knot_eq_true]

@[simp] theorem isFalse_not (F : Functions) (ρ : Column → Option Value) (e : PhysicalExpr) :
    (not e).isFalse F ρ ↔ e.isTrue F ρ := by
  simp only [isTrue, isFalse, evaluate, asBool_ofBool, knot_eq_false]

/-- The conjuncts of a filter. -/
def conjuncts : PhysicalExpr → List PhysicalExpr
  | binary l .and r => l.conjuncts ++ r.conjuncts
  | e => [e]

/-- A filter is TRUE exactly when its conjuncts are. -/
theorem isTrue_iff_conjuncts (F : Functions) (ρ : Column → Option Value) (e : PhysicalExpr) :
    e.isTrue F ρ ↔ ∀ c ∈ e.conjuncts, c.isTrue F ρ := by
  fun_induction conjuncts e with
  | case1 l r ihl ihr =>
      rw [isTrue_and, ihl, ihr]
      simp only [List.mem_append, or_imp, forall_and]
  | case2 e _ => simp only [List.mem_singleton, forall_eq]

/-! ### Dependence on the columns -/

section

variable {F : Functions} {ρ ρ' : Column → Option Value}

mutual

/-- **Frame.**  The value of an expression depends on the cells of its columns only. -/
theorem evaluate_congr : ∀ e : PhysicalExpr, (∀ c ∈ e.collectColumns, ρ c = ρ' c) →
    e.evaluate F ρ = e.evaluate F ρ'
  | column c, h => h c (by simp [collectColumns])
  | literal _, _ => rfl
  | binary l op r, h => by
      simp only [collectColumns, List.mem_append] at h
      simp only [evaluate, evaluate_congr l (fun c hc => h c (.inl hc)),
        evaluate_congr r (fun c hc => h c (.inr hc))]
  | not e, h => by simp only [evaluate, evaluate_congr e h]
  | isNull e, h => by simp only [evaluate, evaluate_congr e h]
  | isNotNull e, h => by simp only [evaluate, evaluate_congr e h]
  | inList e items _, h => by
      simp only [collectColumns, List.mem_append] at h
      simp only [evaluate, evaluate_congr e (fun c hc => h c (.inl hc)),
        evaluateList_congr items (fun c hc => h c (.inr hc))]
  | hashTableLookup _ cs, h => by simp only [evaluate, evaluateList_congr cs h]
  | dynamicFilter _ cs, h => by simp only [evaluate, evaluateList_congr cs h]
  | other _ cs, h => by simp only [evaluate, evaluateList_congr cs h]

theorem evaluateList_congr : ∀ es : List PhysicalExpr, (∀ c ∈ collectColumnsList es, ρ c = ρ' c) →
    evaluateList F ρ es = evaluateList F ρ' es
  | [], _ => rfl
  | e :: es, h => by
      simp only [collectColumnsList, List.mem_append] at h
      simp only [evaluateList, evaluate_congr e (fun c hc => h c (.inl hc)),
        evaluateList_congr es (fun c hc => h c (.inr hc))]

end

end

/-! ### Reading a table row -/

/-- The cells of a table row, by column name. -/
def rowCells (row : Row) (c : Column) : Option Value := (row c.name).map Subtype.val

end PhysicalExpr
end IcebergDb.Expr
