import IcebergDb.Expr.Binding

/-!
# The reader's row filter

`PredicateConverter`: the visitor that turns a bound predicate into the filter a data file is read with.
A column may be missing from an old data file, and then each kind of test has an answer of its own.

* `BoundPredicate.rowFilter` — the filter, or the error it cannot be built for;
* `FiltersAs` — what such a filter needs, and on which rows it is true;
* `FiltersAs.and`, `FiltersAs.or` — the connectives, through binding and its folding of constants.
-/

namespace IcebergDb.Expr

open IcebergDb.Kleene

/-! ### The filter -/

/-- Why a filter cannot be built: a datum without an Arrow counterpart, or a column below a struct. -/
inductive FilterError where
  | unsupportedDatum (l : BoundLiteral)
  | notRoot (name : String)

/-- The types that `get_arrow_datum` converts. -/
def PrimitiveType.hasArrowDatum : PrimitiveType → Bool
  | .time => false
  | .fixed _ => false
  | _ => true

/-- `get_arrow_datum`. -/
def getArrowDatum : BoundLiteral → Except FilterError Datum
  | .datum d => if d.primitiveType.hasArrowDatum then .ok d else .error (.unsupportedDatum (.datum d))
  | l => .error (.unsupportedDatum l)

/-- The datums of a set, up to the first that does not convert. -/
def getArrowDatums : List BoundLiteral → Except FilterError (List Datum)
  | [] => .ok []
  | l :: ls =>
      match getArrowDatum l with
      | .error e => .error e
      | .ok d => (getArrowDatums ls).map (d :: ·)

/-- `integer_literal_set`: the literals, if all of them are integers. -/
def integerLiteralSet : List BoundLiteral → Option (List Datum)
  | [] => some []
  | .datum d :: ls => if Predicate.isIntegerLiteral d then (integerLiteralSet ls).map (d :: ·) else none
  | _ :: _ => none

/-- The null tests on a missing column. -/
def missingUnary : PredicateOperator → Option Bool
  | .isNull => some true
  | .notNull => some false
  | .isNan => some false
  | .notNan => some true
  | _ => none

/-- The comparisons on a missing column. -/
def missingBinary : PredicateOperator → Option Bool
  | .lessThan => some true
  | .lessThanOrEq => some true
  | .greaterThan => some false
  | .greaterThanOrEq => some false
  | .eq => some false
  | .notEq => some false
  | .startsWith => some false
  | .notStartsWith => some true
  | _ => none

/-- The set tests on a missing column. -/
def missingSet : PredicateOperator → Option Bool
  | .isIn => some false
  | .notIn => some true
  | _ => none

/-- The answer of a leaf: `missing` if the data file has no such column (`bound_reference`), otherwise the
one of the column, which must not lie below a struct. -/
def onColumn (present : String → Bool) (r : FieldRef) (missing : Option Bool)
    (found : Except FilterError (Option Bool)) : Except FilterError (Option Bool) :=
  if !present r.field.name then .ok missing
  else if !r.topLevel then .error (.notRoot r.field.name)
  else found

/-- Both filters are built, the left one first. -/
def filterBoth (f : Option Bool → Option Bool → Option Bool)
    (left right : Except FilterError (Option Bool)) : Except FilterError (Option Bool) :=
  match left, right with
  | .error e, _ => .error e
  | .ok _, .error e => .error e
  | .ok a, .ok b => .ok (f a b)

/-- `PredicateConverter`, on one row. -/
def BoundPredicate.rowFilter (present : String → Bool) (row : Row) :
    BoundPredicate → Except FilterError (Option Bool)
  | alwaysTrue => .ok (some true)
  | alwaysFalse => .ok (some false)
  | andExpr l r => filterBoth kand (l.rowFilter present row) (r.rowFilter present row)
  | orExpr l r => filterBoth kor (l.rowFilter present row) (r.rowFilter present row)
  | notExpr p => (p.rowFilter present row).map knot
  | unary op r => onColumn present r (missingUnary op) (.ok (Predicate.evalUnary (row r.field.name) op))
  | binary op r l => onColumn present r (missingBinary op)
      ((getArrowDatum l).map fun d => (row r.field.name).bind fun v => Predicate.evalBinary op v.1 d.value)
  | set .isIn r ls => onColumn present r (missingSet .isIn)
      (match integerLiteralSet ls with
      | some ds => .ok (some (ds.any fun d => Predicate.eqTest (row r.field.name) d == some true))
      | none => (getArrowDatums ls).map fun ds => kany (Predicate.eqTest (row r.field.name)) ds)
  | set op r ls => onColumn present r (missingSet op)
      ((getArrowDatums ls).map (Predicate.evalNotIn (row r.field.name)))

/-! ### What a filter needs and means -/

section

variable {parsers : TextParsers} {schema : Schema} {present : String → Bool} {row : Row}

variable (parsers schema present row) in
/-- The predicate binds to a filter that can be built exactly when `needs`, and is then true on the row
exactly when `holds`; neither the predicate nor what it binds to is a constant. -/
structure FiltersAs (p : Predicate) (needs holds : Prop) : Prop where
  ne_const : p ≠ .alwaysTrue ∧ p ≠ .alwaysFalse
  binds : ∃ b, p.bind parsers schema = .ok b ∧ (b ≠ .alwaysTrue ∧ b ≠ .alwaysFalse) ∧
    (needs → ∃ v, b.rowFilter present row = .ok v ∧ (v = some true ↔ holds)) ∧
    (¬ needs → ∃ e, b.rowFilter present row = .error e)

theorem filterBoth_ok {f : Option Bool → Option Bool → Option Bool} {l r : Except FilterError (Option Bool)}
    {u v : Option Bool} (hl : l = .ok u) (hr : r = .ok v) : filterBoth f l r = .ok (f u v) := by
  rw [hl, hr]
  rfl

theorem filterBoth_error {f : Option Bool → Option Bool → Option Bool}
    {l r : Except FilterError (Option Bool)} (h : (∃ e, l = .error e) ∨ ∃ e, r = .error e) :
    ∃ e, filterBoth f l r = .error e := by
  rcases h with ⟨e, rfl⟩ | ⟨e, rfl⟩
  · exact ⟨e, rfl⟩
  · cases l with
    | error e' => exact ⟨e', rfl⟩
    | ok u => exact ⟨e, rfl⟩

/-- The two connectives at once: `con` joins predicates, `bcon` their bound forms and `kcon` truth
values. -/
theorem FiltersAs.join {p q : Predicate} {needs needs' holds holds' both : Prop}
    (hp : FiltersAs parsers schema present row p needs holds)
    (hq : FiltersAs parsers schema present row q needs' holds')
    (con : Predicate) (bcon : BoundPredicate → BoundPredicate → BoundPredicate)
    (kcon : Option Bool → Option Bool → Option Bool)
    (hne : con ≠ .alwaysTrue ∧ con ≠ .alwaysFalse)
    (hbind : ∀ b c, p.bind parsers schema = .ok b → q.bind parsers schema = .ok c →
      (b ≠ .alwaysTrue ∧ b ≠ .alwaysFalse) → (c ≠ .alwaysTrue ∧ c ≠ .alwaysFalse) →
      con.bind parsers schema = .ok (bcon b c))
    (hbcon : ∀ b c, bcon b c ≠ .alwaysTrue ∧ bcon b c ≠ .alwaysFalse)
    (hfilter : ∀ b c, (bcon b c).rowFilter present row =
      filterBoth kcon (b.rowFilter present row) (c.rowFilter present row))
    (hkcon : ∀ u v, (u = some true ↔ holds) → (v = some true ↔ holds') →
      (kcon u v = some true ↔ both)) :
    FiltersAs parsers schema present row con (needs ∧ needs') both := by
  obtain ⟨b, hb, hbne, hbok, hberr⟩ := hp.binds
  obtain ⟨c, hc, hcne, hcok, hcerr⟩ := hq.binds
  refine ⟨hne, bcon b c, hbind b c hb hc hbne hcne, hbcon b c, ?_, ?_⟩
  · rintro ⟨h, h'⟩
    obtain ⟨u, hu, hiff⟩ := hbok h
    obtain ⟨v, hv, hiff'⟩ := hcok h'
    exact ⟨kcon u v, by rw [hfilter, filterBoth_ok hu hv], hkcon u v hiff hiff'⟩
  · intro h
    rw [hfilter]
    refine filterBoth_error ?_
    by_cases hneeds : needs
    · exact .inr (hcerr fun h' => h ⟨hneeds, h'⟩)
    · exact .inl (hberr hneeds)

theorem FiltersAs.and {p q : Predicate} {needs needs' holds holds' : Prop}
    (hp : FiltersAs parsers schema present row p needs holds)
    (hq : FiltersAs parsers schema present row q needs' holds') :
    FiltersAs parsers schema present row (.andExpr p q) (needs ∧ needs') (holds ∧ holds') := by
  refine hp.join hq (.andExpr p q) .andExpr kand ⟨by simp, by simp⟩ ?_ (fun b c => ⟨by simp, by simp⟩)
    (fun b c => rfl) ?_
  · intro b c hb hc hbne hcne
    rw [Predicate.bind, hb, hc]
    show Except.ok (b.and c) = _
    fun_cases BoundPredicate.and b c <;> simp_all
  · intro u v hu hv
    rw [kand_eq_true, hu, hv]

theorem FiltersAs.or {p q : Predicate} {needs needs' holds holds' : Prop}
    (hp : FiltersAs parsers schema present row p needs holds)
    (hq : FiltersAs parsers schema present row q needs' holds') :
    FiltersAs parsers schema present row (.orExpr p q) (needs ∧ needs') (holds ∨ holds') := by
  refine hp.join hq (.orExpr p q) .orExpr kor ⟨by simp, by simp⟩ ?_ (fun b c => ⟨by simp, by simp⟩)
    (fun b c => rfl) ?_
  · intro b c hb hc hbne hcne
    rw [Predicate.bind, hb, hc]
    show Except.ok (b.or c) = _
    fun_cases BoundPredicate.or b c <;> simp_all
  · intro u v hu hv
    rw [kor_eq_true, hu, hv]

theorem FiltersAs.congr {p : Predicate} {needs needs' holds holds' : Prop}
    (h : FiltersAs parsers schema present row p needs holds) (hneeds : needs ↔ needs')
    (hholds : holds ↔ holds') : FiltersAs parsers schema present row p needs' holds' := by
  rw [← propext hneeds, ← propext hholds]
  exact h

/-! ### Lists of filters -/

variable (parsers schema present row) in
/-- Every predicate of the list filters; `needs` and `holds` are the conjunctions. -/
inductive AllFilter : List Predicate → Prop → Prop → Prop
  | nil : AllFilter [] True True
  | cons {p : Predicate} {ps : List Predicate} {needs needs' holds holds' : Prop} :
      FiltersAs parsers schema present row p needs holds → AllFilter ps needs' holds' →
      AllFilter (p :: ps) (needs ∧ needs') (holds ∧ holds')

/-- A list given by a function. -/
theorem AllFilter.of_forall {ι : Type} {l : List ι} {f : ι → Predicate} {needs holds : ι → Prop}
    (h : ∀ x ∈ l, FiltersAs parsers schema present row (f x) (needs x) (holds x)) :
    AllFilter parsers schema present row (l.map f) (∀ x ∈ l, needs x) (∀ x ∈ l, holds x) := by
  induction l with
  | nil => simpa using AllFilter.nil
  | cons x l ih =>
      have hx := h x List.mem_cons_self
      have hl := ih fun y hy => h y (List.mem_cons_of_mem x hy)
      rw [propext (List.forall_mem_cons (p := needs)), propext (List.forall_mem_cons (p := holds))]
      exact .cons hx hl

end

end IcebergDb.Expr
