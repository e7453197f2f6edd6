import IcebergDb.Expr.RowFilter
import Mathlib.Tactic.Tauto

/-!
# Visitors of bound predicates

Everything that decides about files, row groups, pages and partitions is a visitor of the bound predicate,
which answers for the leaves and joins the answers.

* `BoundPredicateVisitor`, `visit` — the trait and its post-order walk;
* `BoundPredicate.leaves`, `BoundPredicate.NotFree` — what a walk meets;
* `bind_notFree`, `bind_typed`, `bind_boundTo` — a predicate that was rewritten without NOT stays so when it is
  bound, its literals have the types of their fields, and the fields are those of the schema;
* `Satisfies` — a notion of "the row satisfies the predicate" that the connectives respect, with the reader's
  row filter as the instance that counts;
* `visit_keeps` — **a visitor whose leaves do not lose a row loses no row**.
-/

namespace IcebergDb.Expr

open IcebergDb.Kleene

/-! ### The trait -/

/-- How a visit fails: the `panic!` at an operator that does not belong to its node, and the errors of the
visitors. -/
inductive VisitError where
  | unexpectedOp (op : PredicateOperator)
  | unexpected (message : String)
  | featureUnsupported (message : String)
  | dataInvalid (message : String)
  /-- An error of another crate. -/
  | external
  /-- A panic of the visitor itself. -/
  | panicked
deriving DecidableEq

/-- `BoundPredicateVisitor`. -/
structure BoundPredicateVisitor (T : Type) where
  alwaysTrue : Except VisitError T
  alwaysFalse : Except VisitError T
  and : T → T → Except VisitError T
  or : T → T → Except VisitError T
  not : T → Except VisitError T
  isNull : FieldRef → Except VisitError T
  notNull : FieldRef → Except VisitError T
  isNan : FieldRef → Except VisitError T
  notNan : FieldRef → Except VisitError T
  lessThan : FieldRef → BoundLiteral → Except VisitError T
  lessThanOrEq : FieldRef → BoundLiteral → Except VisitError T
  greaterThan : FieldRef → BoundLiteral → Except VisitError T
  greaterThanOrEq : FieldRef → BoundLiteral → Except VisitError T
  eq : FieldRef → BoundLiteral → Except VisitError T
  notEq : FieldRef → BoundLiteral → Except VisitError T
  startsWith : FieldRef → BoundLiteral → Except VisitError T
  notStartsWith : FieldRef → BoundLiteral → Except VisitError T
  isIn : FieldRef → List BoundLiteral → Except VisitError T
  notIn : FieldRef → List BoundLiteral → Except VisitError T

section

variable {T : Type} (V : BoundPredicateVisitor T)

/-- The arm of `visit` for a unary predicate. -/
def visitUnary (op : PredicateOperator) (r : FieldRef) : Except VisitError T :=
  match op with
  | .isNull => V.isNull r
  | .notNull => V.notNull r
  | .isNan => V.isNan r
  | .notNan => V.notNan r
  | op => .error (.unexpectedOp op)

/-- The arm of `visit` for a binary predicate. -/
def visitBinary (op : PredicateOperator) (r : FieldRef) (l : BoundLiteral) : Except VisitError T :=
  match op with
  | .lessThan => V.lessThan r l
  | .lessThanOrEq => V.lessThanOrEq r l
  | .greaterThan => V.greaterThan r l
  | .greaterThanOrEq => V.greaterThanOrEq r l
  | .eq => V.eq r l
  | .notEq => V.notEq r l
  | .startsWith => V.startsWith r l
  | .notStartsWith => V.notStartsWith r l
  | op => .error (.unexpectedOp op)

/-- The arm of `visit` for a set predicate. -/
def visitSet (op : PredicateOperator) (r : FieldRef) (ls : List BoundLiteral) : Except VisitError T :=
  match op with
  | .isIn => V.isIn r ls
  | .notIn => V.notIn r ls
  | op => .error (.unexpectedOp op)

/-- `visit`. -/
def visit : BoundPredicate → Except VisitError T
  | .alwaysTrue => V.alwaysTrue
  | .alwaysFalse => V.alwaysFalse
  | .andExpr l r =>
      match visit l with
      | .error e => .error e
      | .ok a =>
          match visit r with
          | .error e => .error e
          | .ok b => V.and a b
  | .orExpr l r =>
      match visit l with
      | .error e => .error e
      | .ok a =>
          match visit r with
          | .error e => .error e
          | .ok b => V.or a b
  | .notExpr p =>
      match visit p with
      | .error e => .error e
      | .ok a => V.not a
  | .unary op r => visitUnary V op r
  | .binary op r l => visitBinary V op r l
  | .set op r ls => visitSet V op r ls

end

/-! ### Leaves and negations -/

/-- The unary, binary and set predicates in a predicate. -/
def BoundPredicate.leaves : BoundPredicate → List BoundPredicate
  | alwaysTrue | alwaysFalse => []
  | andExpr l r | orExpr l r => l.leaves ++ r.leaves
  | notExpr p => p.leaves
  | p => [p]

/-- A unary, binary or set predicate. -/
def BoundPredicate.IsLeaf : BoundPredicate → Prop
  | unary _ _ | binary _ _ _ | set _ _ _ => True
  | _ => False

theorem BoundPredicate.isLeaf_of_mem {p b : BoundPredicate} (h : b ∈ p.leaves) : b.IsLeaf := by
  induction p with
  | alwaysTrue => cases h
  | alwaysFalse => cases h
  | andExpr l r ihl ihr => exact (List.mem_append.mp h).elim ihl ihr
  | orExpr l r ihl ihr => exact (List.mem_append.mp h).elim ihl ihr
  | notExpr p ih => exact ih h
  | unary op r =>
      obtain rfl := List.mem_singleton.mp h
      trivial
  | binary op r l =>
      obtain rfl := List.mem_singleton.mp h
      trivial
  | set op r ls =>
      obtain rfl := List.mem_singleton.mp h
      trivial

/-- The fields that are tested. -/
def BoundPredicate.fields : BoundPredicate → List FieldRef
  | alwaysTrue | alwaysFalse => []
  | andExpr l r | orExpr l r => l.fields ++ r.fields
  | notExpr p => p.fields
  | unary _ r | binary _ r _ | set _ r _ => [r]

theorem BoundPredicate.mem_fields {p b : BoundPredicate} (hb : b ∈ p.leaves) : ∀ r ∈ b.fields, r ∈ p.fields := by
  induction p with
  | alwaysTrue => cases hb
  | alwaysFalse => cases hb
  | andExpr l r ihl ihr =>
      intro f hf
      exact (List.mem_append.mp hb).elim (fun hl => List.mem_append_left _ (ihl hl f hf))
        fun hr => List.mem_append_right _ (ihr hr f hf)
  | orExpr l r ihl ihr =>
      intro f hf
      exact (List.mem_append.mp hb).elim (fun hl => List.mem_append_left _ (ihl hl f hf))
        fun hr => List.mem_append_right _ (ihr hr f hf)
  | notExpr p ih => exact ih hb
  | unary op r =>
      obtain rfl := List.mem_singleton.mp hb
      exact fun _ hf => hf
  | binary op r l =>
      obtain rfl := List.mem_singleton.mp hb
      exact fun _ hf => hf
  | set op r ls =>
      obtain rfl := List.mem_singleton.mp hb
      exact fun _ hf => hf

/-- No NOT node is left. -/
def BoundPredicate.NotFree : BoundPredicate → Prop
  | andExpr l r | orExpr l r => l.NotFree ∧ r.NotFree
  | notExpr _ => False
  | _ => True

theorem BoundPredicate.NotFree.and {b c : BoundPredicate} (hb : b.NotFree) (hc : c.NotFree) :
    (b.and c).NotFree := by
  fun_cases BoundPredicate.and b c <;> simp_all [BoundPredicate.NotFree]

theorem BoundPredicate.NotFree.or {b c : BoundPredicate} (hb : b.NotFree) (hc : c.NotFree) :
    (b.or c).NotFree := by
  fun_cases BoundPredicate.or b c <;> simp_all [BoundPredicate.NotFree]

section

variable {parsers : TextParsers} {schema : Schema}

/-- Binding a leaf yields a leaf or a constant. -/
theorem bindUnary_notFree {op : PredicateOperator} {r : FieldRef} {b : BoundPredicate}
    (h : bindUnary op r = .ok b) : b.NotFree := by
  unfold bindUnary at h
  split at h
  · cases h
    split <;> trivial
  · cases h
    split <;> trivial
  · split at h
    · cases h
      trivial
    · cases h
  · split at h
    · cases h
      trivial
    · cases h
  · cases h

theorem foldBinary_notFree (op : PredicateOperator) (r : FieldRef) (l : BoundLiteral) :
    (foldBinary op r l).NotFree := by
  unfold foldBinary
  split <;> trivial

theorem foldSet_notFree {op : PredicateOperator} {r : FieldRef} {ls : List BoundLiteral} {b : BoundPredicate}
    (h : foldSet op r ls = .ok b) : b.NotFree := by
  unfold foldSet at h
  split at h <;> cases h <;> trivial

theorem bindBoth_closed {P : BoundPredicate → Prop} {f : BoundPredicate → BoundPredicate → BoundPredicate}
    {l r : Except BindError BoundPredicate} {b : BoundPredicate} (h : bindBoth f l r = .ok b)
    (hf : ∀ c d, P c → P d → P (f c d)) (hl : ∀ c, l = .ok c → P c) (hr : ∀ c, r = .ok c → P c) : P b := by
  unfold bindBoth at h
  split at h
  · cases h
  · cases h
  · rename_i c d
    cases h
    exact hf c d (hl c rfl) (hr d rfl)

/-- A property of bound leaves that the connectives keep is one of everything that is bound. -/
theorem bind_closed {P : BoundPredicate → Prop} (htrue : P .alwaysTrue) (hfalse : P .alwaysFalse)
    (hand : ∀ c d, P c → P d → P (c.and d)) (hor : ∀ c d, P c → P d → P (c.or d))
    (hunary : ∀ op t r c, bindReference schema t = .ok r → bindUnary op r = .ok c → P c)
    (hbinary : ∀ op t r d l, bindReference schema t = .ok r →
      bindLiteral parsers d r.field.fieldType = .ok l → P (foldBinary op r l))
    (hset : ∀ op t r ds ls c, bindReference schema t = .ok r → bindLiterals parsers r.field.fieldType ds = .ok ls →
      foldSet op r ls.dedup = .ok c → P c)
    {p : Predicate} (hnot : p.NotFree ∨ ∀ c, P c → P c.not) {b : BoundPredicate}
    (h : p.bind parsers schema = .ok b) : P b := by
  induction p generalizing b with
  | alwaysTrue =>
      cases h
      exact htrue
  | alwaysFalse =>
      cases h
      exact hfalse
  | andExpr l r ihl ihr =>
      exact bindBoth_closed h hand (fun c => ihl (hnot.imp_left And.left)) fun c =>
        ihr (hnot.imp_left And.right)
  | orExpr l r ihl ihr =>
      exact bindBoth_closed h hor (fun c => ihl (hnot.imp_left And.left)) fun c =>
        ihr (hnot.imp_left And.right)
  | notExpr p ih =>
      have hclosed : ∀ c, P c → P c.not := hnot.resolve_left id
      unfold Predicate.bind at h
      cases hb : p.bind parsers schema with
      | error e =>
          rw [hb] at h
          cases h
      | ok c =>
          rw [hb] at h
          cases h
          exact hclosed c (ih (.inr hclosed) hb)
  | unary op t =>
      unfold Predicate.bind at h
      split at h
      · cases h
      · exact hunary op t _ b ‹_› h
  | binary op t d =>
      unfold Predicate.bind at h
      split at h
      · cases h
      · rename_i r hr
        cases hl : bindLiteral parsers d r.field.fieldType with
        | error e =>
            rw [hl] at h
            cases h
        | ok l =>
            rw [hl] at h
            cases h
            exact hbinary op t r d l hr hl
  | set op t ds =>
      unfold Predicate.bind at h
      split at h
      · cases h
      · rename_i r hr
        split at h
        · cases h
        · rename_i ls hls
          exact hset op t r ds ls b hr hls h

/-- **Binding adds no NOT.** -/
theorem bind_notFree {p : Predicate} (hp : p.NotFree) {b : BoundPredicate}
    (h : p.bind parsers schema = .ok b) : b.NotFree :=
  bind_closed trivial trivial (fun _ _ => BoundPredicate.NotFree.and) (fun _ _ => BoundPredicate.NotFree.or)
    (fun _ _ _ _ _ => bindUnary_notFree) (fun op _ r _ l _ _ => foldBinary_notFree op r l)
    (fun _ _ _ _ _ _ _ _ => foldSet_notFree) (.inl hp) h

end

/-! ### Types of literals -/

/-- The literal has the type of the field. -/
def BoundLiteral.OfType (t : FieldType) (l : BoundLiteral) : Prop :=
  ∀ d, l = .datum d → t = .primitive d.primitiveType

/-- Every literal has the type of its field. -/
def BoundPredicate.Typed : BoundPredicate → Prop
  | andExpr l r | orExpr l r => l.Typed ∧ r.Typed
  | notExpr p => p.Typed
  | binary _ r l => l.OfType r.field.fieldType
  | set _ r ls => ∀ l ∈ ls, l.OfType r.field.fieldType
  | _ => True

theorem BoundPredicate.Typed.of_mem {p b : BoundPredicate} (hp : p.Typed) (hb : b ∈ p.leaves) : b.Typed := by
  induction p with
  | alwaysTrue => cases hb
  | alwaysFalse => cases hb
  | andExpr l r ihl ihr => exact (List.mem_append.mp hb).elim (ihl hp.1) (ihr hp.2)
  | orExpr l r ihl ihr => exact (List.mem_append.mp hb).elim (ihl hp.1) (ihr hp.2)
  | notExpr p ih => exact ih hp hb
  | unary op r =>
      obtain rfl := List.mem_singleton.mp hb
      exact hp
  | binary op r l =>
      obtain rfl := List.mem_singleton.mp hb
      exact hp
  | set op r ls =>
      obtain rfl := List.mem_singleton.mp hb
      exact hp

/-- Datums of one type compare. -/
theorem Datum.partialCmp_isSome {a b : Datum} (h : a.primitiveType = b.primitiveType) :
    (a.partialCmp b).isSome := by
  cases a <;> cases b <;> simp_all [Datum.primitiveType, Datum.partialCmp]

section

variable {parsers : TextParsers} {schema : Schema}

theorem clampTo_ofType {bits : ℕ} {make : ℤ → Datum} {t : PrimitiveType}
    (hmake : ∀ v, (make v).primitiveType = t) (v : ℤ) : (clampTo bits make v).OfType (.primitive t) := by
  unfold clampTo
  split
  · exact fun d hd => by cases hd
  · split
    · exact fun d hd => by cases hd
    · intro d hd
      cases hd
      rw [hmake]

theorem toPrimitive_ofType {d : Datum} {target : PrimitiveType} {l : BoundLiteral}
    (h : d.toPrimitive parsers target = some l) : l.OfType (.primitive target) := by
  have hdatum : ∀ {e : Datum} {t : PrimitiveType}, e.primitiveType = t →
      (BoundLiteral.datum e).OfType (.primitive t) := by
    intro e t he d' hd'
    cases hd'
    rw [he]
  unfold Datum.toPrimitive at h
  split at h
  case h_13 =>
    split at h
    · cases h
      exact hdatum ‹_›
    · cases h
  all_goals
    first
    | (cases h
       first
       | exact hdatum rfl
       | exact clampTo_ofType (fun _ => rfl) _)
    | (obtain ⟨v, -, rfl⟩ := Option.map_eq_some_iff.mp h
       first
       | exact hdatum rfl
       | exact clampTo_ofType (fun _ => rfl) _)

theorem bindLiteral_ofType {d : Datum} {t : FieldType} {l : BoundLiteral}
    (h : bindLiteral parsers d t = .ok l) : l.OfType t := by
  unfold bindLiteral at h
  split at h
  · rename_i l' hl'
    cases h
    cases t with
    | primitive target => exact toPrimitive_ofType hl'
    | nested => cases hl'
  · cases h

theorem bindLiterals_ofType {ds : List Datum} {t : FieldType} {ls : List BoundLiteral}
    (h : bindLiterals parsers t ds = .ok ls) : ∀ l ∈ ls, l.OfType t := by
  induction ds generalizing ls with
  | nil =>
      cases h
      intro l hl
      cases hl
  | cons d ds ih =>
      unfold bindLiterals at h
      split at h
      · cases h
      · rename_i l hl
        cases hrest : bindLiterals parsers t ds with
        | error e =>
            rw [hrest] at h
            cases h
        | ok rest =>
            rw [hrest] at h
            cases h
            intro l' hl'
            rcases List.mem_cons.mp hl' with rfl | hl'
            · exact bindLiteral_ofType hl
            · exact ih hrest l' hl'

theorem BoundPredicate.Typed.and {b c : BoundPredicate} (hb : b.Typed) (hc : c.Typed) : (b.and c).Typed := by
  fun_cases BoundPredicate.and b c <;> simp_all [BoundPredicate.Typed]

theorem BoundPredicate.Typed.or {b c : BoundPredicate} (hb : b.Typed) (hc : c.Typed) : (b.or c).Typed := by
  fun_cases BoundPredicate.or b c <;> simp_all [BoundPredicate.Typed]

theorem BoundPredicate.Typed.not {b : BoundPredicate} (hb : b.Typed) : b.not.Typed := by
  fun_cases BoundPredicate.not b <;> simp_all [BoundPredicate.Typed]

theorem bindUnary_typed {op : PredicateOperator} {r : FieldRef} {b : BoundPredicate}
    (h : bindUnary op r = .ok b) : b.Typed := by
  unfold bindUnary at h
  split at h
  · cases h
    split <;> trivial
  · cases h
    split <;> trivial
  · split at h
    · cases h
      trivial
    · cases h
  · split at h
    · cases h
      trivial
    · cases h
  · cases h

theorem foldBinary_typed {op : PredicateOperator} {r : FieldRef} {l : BoundLiteral}
    (hl : l.OfType r.field.fieldType) : (foldBinary op r l).Typed := by
  unfold foldBinary
  split
  case h_13 => exact hl
  all_goals trivial

theorem foldSet_typed {op : PredicateOperator} {r : FieldRef} {ls : List BoundLiteral} {b : BoundPredicate}
    (hls : ∀ l ∈ ls, l.OfType r.field.fieldType) (h : foldSet op r ls = .ok b) : b.Typed := by
  unfold foldSet at h
  split at h
  · cases h
    trivial
  · cases h
    exact hls _ List.mem_cons_self
  · cases h
    exact hls
  · cases h
    trivial
  · cases h
    exact hls _ List.mem_cons_self
  · cases h
    exact hls
  · cases h

/-- **Binding gives every literal the type of its field.** -/
theorem bind_typed {p : Predicate} {b : BoundPredicate} (h : p.bind parsers schema = .ok b) : b.Typed :=
  bind_closed trivial trivial (fun _ _ => BoundPredicate.Typed.and) (fun _ _ => BoundPredicate.Typed.or)
    (fun _ _ _ _ _ => bindUnary_typed) (fun _ _ _ _ _ _ hl => foldBinary_typed (bindLiteral_ofType hl))
    (fun _ _ _ _ _ _ _ hls hset => foldSet_typed
      (fun l hl => bindLiterals_ofType hls l (List.mem_dedup.mp hl)) hset)
    (.inr fun _ hc => hc.not) h

/-! ### Fields -/

/-- Everything that is tested is a field that the schema has under some name. -/
def BoundPredicate.BoundTo (schema : Schema) (b : BoundPredicate) : Prop :=
  ∀ r ∈ b.fields, ∃ name, bindReference schema name = .ok r

theorem BoundPredicate.BoundTo.and {b c : BoundPredicate} (hb : b.BoundTo schema) (hc : c.BoundTo schema) :
    (b.and c).BoundTo schema := by
  have hboth : (andExpr b c).BoundTo schema := fun r hr => (List.mem_append.mp hr).elim (hb r) (hc r)
  unfold BoundPredicate.and
  split
  · exact hc
  · exact hb
  · exact hb
  · exact hc
  · exact hboth

theorem BoundPredicate.BoundTo.or {b c : BoundPredicate} (hb : b.BoundTo schema) (hc : c.BoundTo schema) :
    (b.or c).BoundTo schema := by
  have hboth : (orExpr b c).BoundTo schema := fun r hr => (List.mem_append.mp hr).elim (hb r) (hc r)
  unfold BoundPredicate.or
  split
  · exact hc
  · exact hb
  · exact hb
  · exact hc
  · exact hboth

theorem BoundPredicate.BoundTo.not {b : BoundPredicate} (hb : b.BoundTo schema) : b.not.BoundTo schema := by
  unfold BoundPredicate.not
  split
  · exact hb
  · exact hb
  · exact hb

/-- A leaf tests the field that its name was bound to, or is decided. -/
theorem boundTo_of_fields {r : FieldRef} {name : String} {b : BoundPredicate}
    (hr : bindReference schema name = .ok r) (hb : ∀ r' ∈ b.fields, r' = r) : b.BoundTo schema :=
  fun r' hr' => ⟨name, hb r' hr' ▸ hr⟩

theorem bindUnary_fields {op : PredicateOperator} {r : FieldRef} {b : BoundPredicate}
    (h : bindUnary op r = .ok b) : ∀ r' ∈ b.fields, r' = r := by
  have hself : ∀ r' ∈ (BoundPredicate.unary op r).fields, r' = r := fun r' hr' => List.mem_singleton.mp hr'
  unfold bindUnary at h
  split at h
  · cases h
    split
    · exact fun r' hr' => nomatch hr'
    · exact hself
  · cases h
    split
    · exact fun r' hr' => nomatch hr'
    · exact hself
  · split at h
    · cases h
      exact hself
    · cases h
  · split at h
    · cases h
      exact hself
    · cases h
  · cases h

theorem foldBinary_fields (op : PredicateOperator) (r : FieldRef) (l : BoundLiteral) :
    ∀ r' ∈ (foldBinary op r l).fields, r' = r := by
  unfold foldBinary
  split
  case h_13 => exact fun r' hr' => List.mem_singleton.mp hr'
  all_goals exact fun r' hr' => nomatch hr'

theorem foldSet_fields {op : PredicateOperator} {r : FieldRef} {ls : List BoundLiteral} {b : BoundPredicate}
    (h : foldSet op r ls = .ok b) : ∀ r' ∈ b.fields, r' = r := by
  unfold foldSet at h
  split at h
  case h_1 | h_4 =>
    cases h
    exact fun r' hr' => nomatch hr'
  case h_7 => cases h
  all_goals
    cases h
    exact fun r' hr' => List.mem_singleton.mp hr'

/-- **Binding finds the fields in the schema.** -/
theorem bind_boundTo {p : Predicate} {b : BoundPredicate} (h : p.bind parsers schema = .ok b) : b.BoundTo schema :=
  bind_closed (fun _ hr => nomatch hr) (fun _ hr => nomatch hr) (fun _ _ => BoundPredicate.BoundTo.and)
    (fun _ _ => BoundPredicate.BoundTo.or) (fun _ _ _ _ hr hc => boundTo_of_fields hr (bindUnary_fields hc))
    (fun op _ r _ l hr _ => boundTo_of_fields hr (foldBinary_fields op r l))
    (fun _ _ _ _ _ _ hr _ hc => boundTo_of_fields hr (foldSet_fields hc))
    (.inr fun _ hc => hc.not) h

end

/-! ### Losing no row -/

/-- "The row satisfies" is a notion that the connectives respect. -/
structure Satisfies (sat : BoundPredicate → Prop) : Prop where
  alwaysFalse : ¬ sat .alwaysFalse
  and : ∀ l r, sat (.andExpr l r) → sat l ∧ sat r
  or : ∀ l r, sat (.orExpr l r) → sat l ∨ sat r

/-- The reader's row filter keeps the row. -/
def BoundPredicate.Passes (present : String → Bool) (row : Row) (b : BoundPredicate) : Prop :=
  b.rowFilter present row = .ok (some true)

/-- The decision of the row filter on a row. -/
def BoundPredicate.keeps (present : String → Bool) (b : BoundPredicate) (row : Row) : Bool :=
  match b.rowFilter present row with
  | .ok (some true) => true
  | _ => false

theorem BoundPredicate.keeps_iff (present : String → Bool) (b : BoundPredicate) (row : Row) :
    b.keeps present row = true ↔ b.Passes present row := by
  unfold BoundPredicate.keeps BoundPredicate.Passes
  split
  · rename_i h
    simp [h]
  · rename_i h
    simp only [Bool.false_eq_true, false_iff]
    exact h

theorem filterBoth_eq_ok {f : Option Bool → Option Bool → Option Bool}
    {l r : Except FilterError (Option Bool)} {w : Option Bool} (h : filterBoth f l r = .ok w) :
    ∃ u v, l = .ok u ∧ r = .ok v ∧ f u v = w := by
  unfold filterBoth at h
  split at h
  · cases h
  · cases h
  · rename_i u v
    cases h
    exact ⟨u, v, rfl, rfl, rfl⟩

theorem passes_satisfies (present : String → Bool) (row : Row) :
    Satisfies (BoundPredicate.Passes present row) where
  alwaysFalse := by
    intro h
    cases h
  and := by
    intro l r h
    obtain ⟨u, v, hl, hr, huv⟩ := filterBoth_eq_ok h
    obtain ⟨rfl, rfl⟩ := (kand_eq_true u v).mp huv
    exact ⟨hl, hr⟩
  or := by
    intro l r h
    obtain ⟨u, v, hl, hr, huv⟩ := filterBoth_eq_ok h
    rcases (kor_eq_true u v).mp huv with rfl | rfl
    · exact .inl hl
    · exact .inr hr

/-- What a visitor needs so that it loses no row: `wf` is what all its answers have in common, `keeps` holds
of the answers that do not lose the row. -/
structure Joins {T : Type} (V : BoundPredicateVisitor T) (wf keeps : T → Prop) : Prop where
  wfTrue : ∀ t, V.alwaysTrue = .ok t → wf t
  wfFalse : ∀ t, V.alwaysFalse = .ok t → wf t
  wfAnd : ∀ a b t, V.and a b = .ok t → wf a → wf b → wf t
  wfOr : ∀ a b t, V.or a b = .ok t → wf a → wf b → wf t
  alwaysTrue : ∀ t, V.alwaysTrue = .ok t → keeps t
  and : ∀ a b t, V.and a b = .ok t → wf a → wf b → keeps a → keeps b → keeps t
  or : ∀ a b t, V.or a b = .ok t → wf a → wf b → keeps a ∨ keeps b → keeps t

section

variable {T : Type} {V : BoundPredicateVisitor T} {wf keeps : T → Prop} {p : BoundPredicate} {t : T}

/-- A visitor that answers yes or no, and joins its answers like the connectives. -/
theorem joins_of_bool {V : BoundPredicateVisitor Bool} (htrue : V.alwaysTrue = .ok true)
    (hand : ∀ a b, V.and a b = .ok (a && b)) (hor : ∀ a b, V.or a b = .ok (a || b)) :
    Joins V (fun _ => True) (· = true) where
  wfTrue := fun _ _ => trivial
  wfFalse := fun _ _ => trivial
  wfAnd := fun _ _ _ _ _ _ => trivial
  wfOr := fun _ _ _ _ _ _ => trivial
  alwaysTrue := by
    intro t h
    exact (Except.ok.inj (htrue.symm.trans h)).symm
  and := by
    intro a b t h _ _ ha hb
    rw [← Except.ok.inj ((hand a b).symm.trans h), ha, hb]
    rfl
  or := by
    intro a b t h _ _ hab
    rw [← Except.ok.inj ((hor a b).symm.trans h)]
    exact (Bool.or_eq_true a b).mpr hab

/-- Both sides of a connective were visited. -/
theorem visit_andExpr {l r : BoundPredicate} (h : visit V (.andExpr l r) = .ok t) :
    ∃ a b, visit V l = .ok a ∧ visit V r = .ok b ∧ V.and a b = .ok t := by
  unfold visit at h
  split at h
  · cases h
  · rename_i a ha
    split at h
    · cases h
    · rename_i b hb
      exact ⟨a, b, ha, hb, h⟩

theorem visit_orExpr {l r : BoundPredicate} (h : visit V (.orExpr l r) = .ok t) :
    ∃ a b, visit V l = .ok a ∧ visit V r = .ok b ∧ V.or a b = .ok t := by
  unfold visit at h
  split at h
  · cases h
  · rename_i a ha
    split at h
    · cases h
    · rename_i b hb
      exact ⟨a, b, ha, hb, h⟩

/-- What the answers for the leaves have in common, all answers have. -/
theorem visit_wf (hV : Joins V wf keeps) (hp : p.NotFree)
    (hleaf : ∀ b ∈ p.leaves, ∀ t, visit V b = .ok t → wf t) (hv : visit V p = .ok t) : wf t := by
  induction p generalizing t with
  | alwaysTrue => exact hV.wfTrue t hv
  | alwaysFalse => exact hV.wfFalse t hv
  | andExpr l r ihl ihr =>
      obtain ⟨a, b, ha, hb, hab⟩ := visit_andExpr hv
      refine hV.wfAnd a b t hab ?_ ?_
      · exact ihl hp.1 (fun c hc => hleaf c (List.mem_append_left r.leaves hc)) ha
      · exact ihr hp.2 (fun c hc => hleaf c (List.mem_append_right l.leaves hc)) hb
  | orExpr l r ihl ihr =>
      obtain ⟨a, b, ha, hb, hab⟩ := visit_orExpr hv
      refine hV.wfOr a b t hab ?_ ?_
      · exact ihl hp.1 (fun c hc => hleaf c (List.mem_append_left r.leaves hc)) ha
      · exact ihr hp.2 (fun c hc => hleaf c (List.mem_append_right l.leaves hc)) hb
  | notExpr p _ => exact absurd hp id
  | unary op r => exact hleaf (.unary op r) List.mem_cons_self t hv
  | binary op r l => exact hleaf (.binary op r l) List.mem_cons_self t hv
  | set op r ls => exact hleaf (.set op r ls) List.mem_cons_self t hv

/-- **A visitor whose leaves keep the row keeps it.** -/
theorem visit_keeps (hV : Joins V wf keeps) {sat : BoundPredicate → Prop} (hsat : Satisfies sat)
    (hp : p.NotFree)
    (hleaf : ∀ b ∈ p.leaves, ∀ t, visit V b = .ok t → wf t ∧ (sat b → keeps t)) (hv : visit V p = .ok t)
    (hrow : sat p) : keeps t := by
  induction p generalizing t with
  | alwaysTrue => exact hV.alwaysTrue t hv
  | alwaysFalse => exact absurd hrow hsat.alwaysFalse
  | andExpr l r ihl ihr =>
      obtain ⟨a, b, ha, hb, hab⟩ := visit_andExpr hv
      have hleft := fun c hc => hleaf c (List.mem_append_left r.leaves hc)
      have hright := fun c hc => hleaf c (List.mem_append_right l.leaves hc)
      obtain ⟨hl, hr⟩ := hsat.and l r hrow
      refine hV.and a b t hab ?_ ?_ (ihl hp.1 hleft ha hl) (ihr hp.2 hright hb hr)
      · exact visit_wf hV hp.1 (fun c hc u hu => (hleft c hc u hu).1) ha
      · exact visit_wf hV hp.2 (fun c hc u hu => (hright c hc u hu).1) hb
  | orExpr l r ihl ihr =>
      obtain ⟨a, b, ha, hb, hab⟩ := visit_orExpr hv
      have hleft := fun c hc => hleaf c (List.mem_append_left r.leaves hc)
      have hright := fun c hc => hleaf c (List.mem_append_right l.leaves hc)
      refine hV.or a b t hab ?_ ?_ ((hsat.or l r hrow).imp (ihl hp.1 hleft ha) (ihr hp.2 hright hb))
      · exact visit_wf hV hp.1 (fun c hc u hu => (hleft c hc u hu).1) ha
      · exact visit_wf hV hp.2 (fun c hc u hu => (hright c hc u hu).1) hb
  | notExpr p _ => exact absurd hp id
  | unary op r => exact (hleaf (.unary op r) List.mem_cons_self t hv).2 hrow
  | binary op r l => exact (hleaf (.binary op r l) List.mem_cons_self t hv).2 hrow
  | set op r ls => exact (hleaf (.set op r ls) List.mem_cons_self t hv).2 hrow

end

/-! ### Leaves that pass -/

section

variable {present : String → Bool} {row : Row} {r : FieldRef} {op : PredicateOperator}

theorem onColumn_present (hpresent : present r.field.name = true) {missing w : Option Bool}
    {found : Except FilterError (Option Bool)} (h : onColumn present r missing found = .ok w) :
    found = .ok w := by
  unfold onColumn at h
  rw [hpresent] at h
  split at h
  · rename_i hnot
    cases hnot
  · split at h
    · cases h
    · exact h

theorem passes_unary (hpresent : present r.field.name = true)
    (h : BoundPredicate.Passes present row (.unary op r)) :
    Predicate.evalUnary (row r.field.name) op = some true :=
  Except.ok.inj (onColumn_present hpresent h)

theorem getArrowDatum_eq_ok {l : BoundLiteral} {d : Datum} (h : getArrowDatum l = .ok d) : l = .datum d := by
  unfold getArrowDatum at h
  split at h
  · split at h
    · cases h
      rfl
    · cases h
  · cases h

theorem mem_getArrowDatums {ls : List BoundLiteral} {ds : List Datum} (h : getArrowDatums ls = .ok ds) :
    ∀ d ∈ ds, .datum d ∈ ls := by
  induction ls generalizing ds with
  | nil =>
      cases h
      intro d hd
      cases hd
  | cons l ls ih =>
      unfold getArrowDatums at h
      split at h
      · cases h
      · rename_i d hd
        cases hrest : getArrowDatums ls with
        | error e =>
            rw [hrest] at h
            cases h
        | ok rest =>
            rw [hrest] at h
            cases h
            intro d' hd'
            rcases List.mem_cons.mp hd' with rfl | hd'
            · rw [getArrowDatum_eq_ok hd]
              exact List.mem_cons_self
            · exact List.mem_cons_of_mem l (ih hrest d' hd')

theorem mem_integerLiteralSet {ls : List BoundLiteral} {ds : List Datum} (h : integerLiteralSet ls = some ds) :
    ∀ d ∈ ds, .datum d ∈ ls := by
  induction ls generalizing ds with
  | nil =>
      cases h
      intro d hd
      cases hd
  | cons l ls ih =>
      unfold integerLiteralSet at h
      split at h
      · cases ‹l :: ls = []›
      · rename_i d ls' heq
        obtain ⟨rfl, rfl⟩ := List.cons.inj heq
        split at h
        · obtain ⟨rest, hrest, rfl⟩ := Option.map_eq_some_iff.mp h
          intro d' hd'
          rcases List.mem_cons.mp hd' with rfl | hd'
          · exact List.mem_cons_self
          · exact List.mem_cons_of_mem _ (ih hrest d' hd')
        · cases h
      · cases h

/-- A comparison or prefix test is passed by a value, against a datum. -/
theorem passes_binary (hpresent : present r.field.name = true) {l : BoundLiteral}
    (h : BoundPredicate.Passes present row (.binary op r l)) :
    ∃ d v, l = .datum d ∧ row r.field.name = some v ∧ Predicate.evalBinary op v.1 d.value = some true := by
  have hfound := onColumn_present hpresent h
  cases hd : getArrowDatum l with
  | error e =>
      rw [hd] at hfound
      cases hfound
  | ok d =>
      rw [hd] at hfound
      obtain ⟨v, hv, heval⟩ := Option.bind_eq_some_iff.mp (Except.ok.inj hfound)
      exact ⟨d, v, getArrowDatum_eq_ok hd, hv, heval⟩

/-- A membership test is passed by a value of the set. -/
theorem passes_isIn (hpresent : present r.field.name = true) {ls : List BoundLiteral}
    (h : BoundPredicate.Passes present row (.set .isIn r ls)) :
    ∃ d v, .datum d ∈ ls ∧ row r.field.name = some v ∧ v.1 = d.value := by
  have heq : ∀ d, Predicate.eqTest (row r.field.name) d = some true →
      ∃ v, row r.field.name = some v ∧ v.1 = d.value := by
    intro d hd
    obtain ⟨v, hv, heval⟩ := Option.bind_eq_some_iff.mp hd
    obtain ⟨o, ho, htest⟩ := Option.bind_eq_some_iff.mp
      (show (v.1.ordering d.value).bind PredicateOperator.eq.test = some true from heval)
    have hoeq : o = .eq := by
      cases o with
      | eq => rfl
      | lt => cases htest
      | gt => cases htest
    rw [hoeq] at ho
    exact ⟨v, hv, (Value.ordering_eq_iff _ _).mp ho⟩
  have hfound := onColumn_present hpresent h
  cases hset : integerLiteralSet ls with
  | some ds =>
      rw [hset] at hfound
      have hany := Option.some.inj (Except.ok.inj hfound)
      obtain ⟨d, hd, htest⟩ := List.any_eq_true.mp hany
      obtain ⟨v, hv, hvd⟩ := heq d (eq_of_beq htest)
      exact ⟨d, v, mem_integerLiteralSet hset d hd, hv, hvd⟩
  | none =>
      rw [hset] at hfound
      cases hds : getArrowDatums ls with
      | error e =>
          rw [hds] at hfound
          cases hfound
      | ok ds =>
          rw [hds] at hfound
          obtain ⟨d, hd, htest⟩ := (kany_eq_true _ _).mp (Except.ok.inj hfound)
          obtain ⟨v, hv, hvd⟩ := heq d htest
          exact ⟨d, v, mem_getArrowDatums hds d hd, hv, hvd⟩

end

end IcebergDb.Expr
