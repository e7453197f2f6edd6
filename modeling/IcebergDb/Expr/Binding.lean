import IcebergDb.Expr.Predicate

/-!
# Binding predicates to a table schema

`Predicate::bind` of the vendored `iceberg` crate: names become fields, literals take the types of their
columns, and what a required column or an out-of-range literal decides is folded away.

* `Schema.fieldByName` — the name index: top-level fields, and the dotted names of nested ones;
* `Datum.toType` — `Datum::to`, the conversions between literal types;
* `Predicate.bind` — every error it can return, in the order the tree is walked;
* `bind_fieldNotFound` — the name of an unknown-field error is one of the predicate's columns.
-/

namespace IcebergDb.Expr

/-! ### Types and schemas -/

/-- `PrimitiveType`. -/
inductive PrimitiveType where
  | boolean
  | int
  | long
  | float
  | double
  | decimal (precision scale : ℕ)
  | date
  | time
  | timestamp
  | timestamptz
  | timestampNs
  | timestamptzNs
  | string
  | uuid
  | fixed (length : ℕ)
  | binary
deriving DecidableEq

/-- `Type`: structs, lists and maps are not told apart. -/
inductive FieldType where
  | primitive (t : PrimitiveType)
  | nested
deriving DecidableEq

/-- `is_floating_type`. -/
def FieldType.isFloatingType : FieldType → Bool
  | .primitive .float => true
  | .primitive .double => true
  | _ => false

/-- `NestedField`. -/
structure NestedField where
  name : String
  fieldType : FieldType
  required : Bool
deriving DecidableEq

/-- `Schema`, as far as names go: its top-level fields, and for the dotted (and short) names of the fields
below them the field and whether `build_accessors` made an accessor for it. -/
structure Schema where
  fields : List NestedField
  nested : List (String × NestedField × Bool)

/-- What a name refers to. -/
structure FieldRef where
  topLevel : Bool
  field : NestedField
  accessor : Bool
deriving DecidableEq

/-- An accessor is built for a top-level field of primitive type. -/
def NestedField.hasAccessor (f : NestedField) : Bool :=
  match f.fieldType with
  | .primitive _ => true
  | .nested => false

/-- `field_by_name`, with the accessor of the field: full names take precedence over short ones. -/
def Schema.fieldByName (schema : Schema) (name : String) : Option FieldRef :=
  match schema.fields.find? (·.name == name) with
  | some f => some ⟨true, f, f.hasAccessor⟩
  | none => (schema.nested.lookup name).map fun (f, accessor) => ⟨false, f, accessor⟩

/-! ### Literals -/

/-- The primitive type of a datum. -/
def Datum.primitiveType : Datum → PrimitiveType
  | .boolean _ => .boolean
  | .int _ => .int
  | .long _ => .long
  | .float _ => .float
  | .double _ => .double
  | .date _ => .date
  | .time _ => .time
  | .timestamp _ => .timestamp
  | .timestamptz _ => .timestamptz
  | .timestampNs _ => .timestampNs
  | .timestamptzNs _ => .timestamptzNs
  | .string _ => .string
  | .uuid _ => .uuid
  | .fixed v => .fixed v.length
  | .binary _ => .binary
  | .decimal _ p s => .decimal p s

/-- `PrimitiveLiteral`, as far as `Datum::to` tells literals apart. -/
inductive PrimitiveLiteral where
  | int (v : ℤ)
  | long (v : ℤ)
  | int128 (v : ℤ)
  | string (v : String)
  | other

/-- `Datum::literal`. -/
def Datum.literal : Datum → PrimitiveLiteral
  | .int v | .date v => .int v
  | .long v | .time v | .timestamp v | .timestamptz v | .timestampNs v | .timestamptzNs v => .long v
  | .decimal m _ _ => .int128 m
  | .string v => .string v
  | _ => .other

/-- A literal of a bound predicate: a datum, or a number beyond the column's type. -/
inductive BoundLiteral where
  | datum (d : Datum)
  | aboveMax
  | belowMin
deriving DecidableEq

/-- `i64_to_i32` and its siblings: a number in a two's complement type of `bits` bits. -/
def clampTo (bits : ℕ) (make : ℤ → Datum) (v : ℤ) : BoundLiteral :=
  if 2 ^ (bits - 1) - 1 < v then .aboveMax
  else if v < -2 ^ (bits - 1) then .belowMin
  else .datum (make v)

/-- The text parsers of `Datum::to`: `bool`, `i128` and the two timestamp formats. -/
structure TextParsers where
  bool : String → Option Bool
  i128 : String → Option ℤ
  timestamp : String → Option ℤ
  timestamptz : String → Option ℤ

/-- `Datum::to` for a primitive target type. -/
def Datum.toPrimitive (parsers : TextParsers) (d : Datum) (target : PrimitiveType) :
    Option BoundLiteral :=
  match d.literal, target with
  | .int v, .int => some (.datum (.int v))
  | .int v, .date => some (.datum (.date v))
  | .int v, .long => some (.datum (.long v))
  | .long v, .int => some (clampTo 32 .int v)
  | .long v, .timestamp => some (.datum (.timestamp v))
  | .long v, .timestamptz => some (.datum (.timestamptz v))
  | .int128 v, .long => some (clampTo 64 .long v)
  | .string v, .boolean => (parsers.bool v).map fun b => .datum (.boolean b)
  | .string v, .int => (parsers.i128 v).map (clampTo 32 .int)
  | .string v, .long => (parsers.i128 v).map (clampTo 64 .long)
  | .string v, .timestamp => (parsers.timestamp v).map fun t => .datum (.timestamp t)
  | .string v, .timestamptz => (parsers.timestamptz v).map fun t => .datum (.timestamptz t)
  | _, target => if d.primitiveType = target then some (.datum d) else none

/-- `Datum::to`. -/
def Datum.toType (parsers : TextParsers) (d : Datum) : FieldType → Option BoundLiteral
  | .primitive target => d.toPrimitive parsers target
  | .nested => none

/-! ### Bound predicates -/

/-- `BoundPredicate`. -/
inductive BoundPredicate where
  | alwaysTrue
  | alwaysFalse
  | andExpr (left right : BoundPredicate)
  | orExpr (left right : BoundPredicate)
  | notExpr (input : BoundPredicate)
  | unary (op : PredicateOperator) (term : FieldRef)
  | binary (op : PredicateOperator) (term : FieldRef) (literal : BoundLiteral)
  | set (op : PredicateOperator) (term : FieldRef) (literals : List BoundLiteral)
deriving DecidableEq

/-- The errors of `bind`: "Field .. not found in schema", "Accessor for Field .. not found", "Expecting
floating point type, but found ..", "Expecting unary operator, but found ..", and those of `Datum::to`. -/
inductive BindError where
  | fieldNotFound (name : String)
  | accessorNotFound (name : String)
  | notFloating (t : FieldType)
  | unexpectedOperator (op : PredicateOperator)
  | cannotConvert (d : Datum) (t : FieldType)
deriving DecidableEq

section

variable (parsers : TextParsers) (schema : Schema)

/-- `impl Bind for Reference`, case-sensitively. -/
def bindReference (name : String) : Except BindError FieldRef :=
  match schema.fieldByName name with
  | none => .error (.fieldNotFound name)
  | some r => if r.accessor then .ok r else .error (.accessorNotFound name)

/-- `Datum::to` with its error. -/
def bindLiteral (d : Datum) (t : FieldType) : Except BindError BoundLiteral :=
  match d.toType parsers t with
  | some l => .ok l
  | none => .error (.cannotConvert d t)

/-- The literals of a set, up to the first that does not convert. -/
def bindLiterals (t : FieldType) : List Datum → Except BindError (List BoundLiteral)
  | [] => .ok []
  | d :: ds =>
      match bindLiteral parsers d t with
      | .error e => .error e
      | .ok l => (bindLiterals t ds).map (l :: ·)

/-- A unary predicate over a bound reference. -/
def bindUnary (op : PredicateOperator) (r : FieldRef) : Except BindError BoundPredicate :=
  match op with
  | .isNull => .ok (if r.field.required then .alwaysFalse else .unary op r)
  | .notNull => .ok (if r.field.required then .alwaysTrue else .unary op r)
  | .isNan | .notNan =>
      if r.field.fieldType.isFloatingType then .ok (.unary op r)
      else .error (.notFloating r.field.fieldType)
  | op => .error (.unexpectedOperator op)

/-- A comparison with a number beyond the column's type is decided. -/
def foldBinary (op : PredicateOperator) (r : FieldRef) (l : BoundLiteral) : BoundPredicate :=
  match l, op with
  | .aboveMax, .lessThan | .aboveMax, .lessThanOrEq | .aboveMax, .notEq => .alwaysTrue
  | .aboveMax, .greaterThan | .aboveMax, .greaterThanOrEq | .aboveMax, .eq => .alwaysFalse
  | .belowMin, .greaterThan | .belowMin, .greaterThanOrEq | .belowMin, .notEq => .alwaysTrue
  | .belowMin, .lessThan | .belowMin, .lessThanOrEq | .belowMin, .eq => .alwaysFalse
  | l, op => .binary op r l

/-- A set predicate over a bound reference; the literals have become a set. -/
def foldSet (op : PredicateOperator) (r : FieldRef) (ls : List BoundLiteral) :
    Except BindError BoundPredicate :=
  match op, ls with
  | .isIn, [] => .ok .alwaysFalse
  | .isIn, [l] => .ok (.binary .eq r l)
  | .isIn, ls => .ok (.set .isIn r ls)
  | .notIn, [] => .ok .alwaysTrue
  | .notIn, [l] => .ok (.binary .notEq r l)
  | .notIn, ls => .ok (.set .notIn r ls)
  | op, _ => .error (.unexpectedOperator op)

/-- The conjunction of bound predicates. -/
def BoundPredicate.and : BoundPredicate → BoundPredicate → BoundPredicate
  | _, .alwaysFalse => .alwaysFalse
  | .alwaysFalse, _ => .alwaysFalse
  | l, .alwaysTrue => l
  | .alwaysTrue, r => r
  | l, r => .andExpr l r

/-- The disjunction of bound predicates. -/
def BoundPredicate.or : BoundPredicate → BoundPredicate → BoundPredicate
  | _, .alwaysTrue => .alwaysTrue
  | .alwaysTrue, _ => .alwaysTrue
  | l, .alwaysFalse => l
  | .alwaysFalse, r => r
  | l, r => .orExpr l r

/-- The negation of a bound predicate. -/
def BoundPredicate.not : BoundPredicate → BoundPredicate
  | .alwaysTrue => .alwaysFalse
  | .alwaysFalse => .alwaysTrue
  | p => .notExpr p

/-- Both sides are bound, the left one first. -/
def bindBoth (f : BoundPredicate → BoundPredicate → BoundPredicate)
    (left right : Except BindError BoundPredicate) : Except BindError BoundPredicate :=
  match left, right with
  | .error e, _ => .error e
  | .ok _, .error e => .error e
  | .ok l, .ok r => .ok (f l r)

/-- `impl Bind for Predicate`, case-sensitively. -/
def Predicate.bind : Predicate → Except BindError BoundPredicate
  | alwaysTrue => .ok .alwaysTrue
  | alwaysFalse => .ok .alwaysFalse
  | andExpr l r => bindBoth .and l.bind r.bind
  | orExpr l r => bindBoth .or l.bind r.bind
  | notExpr p => p.bind.map .not
  | unary op name =>
      match bindReference schema name with
      | .error e => .error e
      | .ok r => bindUnary op r
  | binary op name d =>
      match bindReference schema name with
      | .error e => .error e
      | .ok r => (bindLiteral parsers d r.field.fieldType).map (foldBinary op r)
  | set op name ds =>
      match bindReference schema name with
      | .error e => .error e
      | .ok r =>
          match bindLiterals parsers r.field.fieldType ds with
          | .error e => .error e
          | .ok ls => foldSet op r ls.dedup

end

section

variable {parsers : TextParsers} {schema : Schema}

/-! ### Conjunctions -/

/-- A fold of a conjunction with an absorbing element.  A property that a conjunction has when both sides
have it, or when one of them is absorbing, is a property of the list. -/
theorem foldl_splits {α : Type} {f : α → α → α} {absorbing : α} {P : α → Prop}
    (habsorbs : ∀ a b, f a b = absorbing ↔ a = absorbing ∨ b = absorbing) (habsorbing : P absorbing)
    (hsplit : ∀ a b, P (f a b) ↔ (a = absorbing ∨ b = absorbing) ∨ P a ∧ P b) (l : List α) (a : α) :
    P (l.foldl f a) ↔ absorbing ∈ a :: l ∨ ∀ b ∈ a :: l, P b := by
  induction l generalizing a with
  | nil =>
      simp only [List.foldl_nil, List.mem_singleton, forall_eq]
      refine ⟨.inr, ?_⟩
      rintro (rfl | h)
      · exact habsorbing
      · exact h
  | cons b l ih =>
      rw [List.foldl_cons, ih, List.forall_mem_cons, List.forall_mem_cons, List.forall_mem_cons, hsplit]
      simp only [List.mem_cons, eq_comm (a := absorbing), habsorbs]
      tauto

/-- The conjunction of a list, from the left. -/
def BoundPredicate.conjoin (bs : List BoundPredicate) : BoundPredicate := bs.foldl and .alwaysTrue

theorem BoundPredicate.and_eq_alwaysFalse {b c : BoundPredicate} :
    b.and c = .alwaysFalse ↔ b = .alwaysFalse ∨ c = .alwaysFalse := by
  fun_cases BoundPredicate.and b c <;> simp_all

theorem BoundPredicate.conjoin_eq_alwaysFalse {bs : List BoundPredicate} :
    conjoin bs = .alwaysFalse ↔ .alwaysFalse ∈ bs := by
  rw [conjoin, foldl_splits (P := (· = .alwaysFalse)) (fun _ _ => BoundPredicate.and_eq_alwaysFalse) rfl]
  · simp
  · intro b c
    rw [BoundPredicate.and_eq_alwaysFalse]
    tauto

/-- **A property of conjunctions is a property of lists**: it holds of the conjunction when it holds of
every conjunct, or one of them is FALSE. -/
theorem BoundPredicate.conjoin_splits {P : BoundPredicate → Prop} (htrue : P .alwaysTrue)
    (hfalse : P .alwaysFalse) (hand : ∀ b c, P (.andExpr b c) ↔ P b ∧ P c) (bs : List BoundPredicate) :
    P (conjoin bs) ↔ .alwaysFalse ∈ bs ∨ ∀ b ∈ bs, P b := by
  have hsplit : ∀ b c : BoundPredicate,
      P (b.and c) ↔ (b = .alwaysFalse ∨ c = .alwaysFalse) ∨ P b ∧ P c := by
    intro b c
    fun_cases BoundPredicate.and b c <;> simp_all
  rw [conjoin, foldl_splits (fun _ _ => BoundPredicate.and_eq_alwaysFalse) hfalse hsplit]
  simp [htrue]

variable (parsers schema) in
/-- The predicate binds. -/
def Predicate.Binds (p : Predicate) : Prop := ∃ b, p.bind parsers schema = .ok b

/-- **Conjunctions are bound side by side.** -/
theorem Predicate.bind_and {p q : Predicate} {b c : BoundPredicate} (hp : p.bind parsers schema = .ok b)
    (hq : q.bind parsers schema = .ok c) : (p.and q).bind parsers schema = .ok (b.and c) := by
  fun_cases Predicate.and p q
  · cases hp
    cases c <;> rfl
  · cases hq
    cases b <;> rfl
  · cases hp
    rw [hq]
    cases c <;> rfl
  · cases hq
    rw [hp]
    cases b <;> rfl
  · rw [Predicate.bind, hp, hq]
    rfl

theorem bindBoth_ok {f : BoundPredicate → BoundPredicate → BoundPredicate}
    {l r : Except BindError BoundPredicate} {b : BoundPredicate} (h : bindBoth f l r = .ok b) :
    ∃ c d, l = .ok c ∧ r = .ok d ∧ b = f c d := by
  unfold bindBoth at h
  split at h
  · cases h
  · cases h
  · rename_i c d
    exact ⟨c, d, rfl, rfl, (Except.ok.inj h).symm⟩

/-- What makes a conjunction bind: one side is FALSE, and the other is not looked at, or both bind. -/
theorem Predicate.binds_and (p q : Predicate) : (p.and q).Binds parsers schema ↔
    (p = .alwaysFalse ∨ q = .alwaysFalse) ∨ p.Binds parsers schema ∧ q.Binds parsers schema := by
  constructor
  · intro h
    fun_cases Predicate.and p q
    · exact .inl (.inl rfl)
    · exact .inl (.inr rfl)
    · rw [Predicate.alwaysTrue_and] at h
      exact .inr ⟨⟨_, rfl⟩, h⟩
    · rw [Predicate.and_alwaysTrue] at h
      exact .inr ⟨h, _, rfl⟩
    · rename_i hp hq hp' hq'
      rw [Predicate.and_of_ne_const ⟨hq, hp⟩ ⟨hq', hp'⟩] at h
      obtain ⟨b, hb⟩ := h
      obtain ⟨c, d, hc, hd, -⟩ := bindBoth_ok hb
      exact .inr ⟨⟨c, hc⟩, d, hd⟩
  · rintro (h | ⟨⟨b, hb⟩, c, hc⟩)
    · rw [Predicate.and_eq_alwaysFalse.mpr h]
      exact ⟨.alwaysFalse, rfl⟩
    · exact ⟨b.and c, Predicate.bind_and hb hc⟩

/-- A bound conjunction, in one case after the other. -/
theorem Predicate.binds_conjoin (ps : List Predicate) : (conjoin ps).Binds parsers schema ↔
    .alwaysFalse ∈ ps ∨ ∀ p ∈ ps, p.Binds parsers schema := by
  rw [conjoin, foldl_splits (fun _ _ => Predicate.and_eq_alwaysFalse) ⟨_, rfl⟩ Predicate.binds_and]
  simp [Predicate.Binds, Predicate.bind]

theorem Predicate.conjoin_eq_alwaysFalse {ps : List Predicate} :
    conjoin ps = .alwaysFalse ↔ .alwaysFalse ∈ ps := by
  rw [conjoin, foldl_splits (P := (· = .alwaysFalse)) (fun _ _ => Predicate.and_eq_alwaysFalse) rfl]
  · simp
  · intro p q
    rw [Predicate.and_eq_alwaysFalse]
    tauto

/-- The bound conjunction is the conjunction of what was bound. -/
theorem Predicate.bind_conjoin {ps : List Predicate} {bs : List BoundPredicate}
    (h : List.Forall₂ (fun p b => p.bind parsers schema = .ok b) ps bs) :
    (conjoin ps).bind parsers schema = .ok (BoundPredicate.conjoin bs) := by
  have hfold : ∀ (p : Predicate) (b : BoundPredicate), p.bind parsers schema = .ok b →
      (ps.foldl Predicate.and p).bind parsers schema = .ok (bs.foldl BoundPredicate.and b) := by
    induction h with
    | nil => exact fun _ _ hp => hp
    | cons hp _ ih => exact fun q c hq => ih _ _ (Predicate.bind_and hq hp)
  exact hfold .alwaysTrue .alwaysTrue rfl

/-! ### Unknown fields -/

theorem bindReference_fieldNotFound {name n : String}
    (h : bindReference schema name = .error (.fieldNotFound n)) :
    n = name ∧ schema.fieldByName name = none := by
  unfold bindReference at h
  split at h
  · rename_i hnone
    injection h with h
    injection h with h
    exact ⟨h.symm, hnone⟩
  · split at h <;> cases h

theorem bindLiterals_error {t : FieldType} {ds : List Datum} {e : BindError}
    (h : bindLiterals parsers t ds = .error e) : ∃ d, e = .cannotConvert d t := by
  induction ds with
  | nil => cases h
  | cons d ds ih =>
      unfold bindLiterals bindLiteral at h
      split at h
      · rename_i hd
        split at hd
        · cases hd
        · cases hd
          cases h
          exact ⟨d, rfl⟩
      · cases hds : bindLiterals parsers t ds with
        | error e' =>
            rw [hds] at h
            cases h
            exact ih hds
        | ok ls =>
            rw [hds] at h
            cases h

theorem bindBoth_error {f : BoundPredicate → BoundPredicate → BoundPredicate}
    {l r : Except BindError BoundPredicate} {e : BindError} (h : bindBoth f l r = .error e) :
    l = .error e ∨ r = .error e := by
  unfold bindBoth at h
  split at h
  · exact .inl h
  · exact .inr h
  · cases h

/-- **An unknown field is one of the predicate's columns**, and the schema does not have it. -/
theorem bind_fieldNotFound {p : Predicate} {name : String}
    (h : p.bind parsers schema = .error (.fieldNotFound name)) :
    name ∈ p.columns ∧ schema.fieldByName name = none := by
  have hleaf : ∀ {term : String}, bindReference schema term = .error (.fieldNotFound name) →
      name ∈ [term] ∧ schema.fieldByName name = none := by
    intro term hterm
    obtain ⟨rfl, hnone⟩ := bindReference_fieldNotFound hterm
    exact ⟨List.mem_singleton_self name, hnone⟩
  induction p with
  | alwaysTrue => cases h
  | alwaysFalse => cases h
  | andExpr l r ihl ihr | orExpr l r ihl ihr =>
      rcases bindBoth_error h with hl | hr
      · exact ⟨List.mem_append_left _ (ihl hl).1, (ihl hl).2⟩
      · exact ⟨List.mem_append_right _ (ihr hr).1, (ihr hr).2⟩
  | notExpr p ih =>
      refine ih ?_
      unfold Predicate.bind at h
      cases hp : p.bind parsers schema with
      | error e =>
          rw [hp] at h
          cases h
          rfl
      | ok b =>
          rw [hp] at h
          cases h
  | unary op term =>
      unfold Predicate.bind at h
      split at h
      · rename_i hterm
        cases h
        exact hleaf hterm
      · unfold bindUnary at h
        split at h
        · cases h
        · cases h
        · split at h <;> cases h
        · split at h <;> cases h
        · cases h
  | binary op term d =>
      unfold Predicate.bind at h
      split at h
      · rename_i hterm
        cases h
        exact hleaf hterm
      · unfold bindLiteral at h
        split at h <;> cases h
  | set op term ds =>
      unfold Predicate.bind at h
      split at h
      · rename_i hterm
        cases h
        exact hleaf hterm
      · split at h
        · rename_i hds
          obtain ⟨d, hd⟩ := bindLiterals_error hds
          rw [hd] at h
          cases h
        · unfold foldSet at h
          split at h <;> cases h

end

end IcebergDb.Expr
