import IcebergDb.Plan.FkBoundPushdown
import IcebergDb.Scan.ScanExecution

/-!
# The errors of the static bounds on foreign keys

`push_fk_bounds` reads the dimensions while the plan is made and hands every error on; and what it pushes
has to bind to the schema of another table.

* `computeConstraint` — `compute_join_key_constraint` over the scan builder: the key is selected by the name
  that the *join* has for it;
* `KeyAnswered` — when that read has an answer;
* `Converts` — the literals of one table bind to the column of another;
* `pushFkBounds_transparent` — **the rule succeeds and the scans still build exactly when** every key has an
  answer and every literal converts; and they still execute when the readers take the comparison.
-/

namespace IcebergDb.Plan

open IcebergDb.Expr IcebergDb.Scan

/-! ### The scans and the joins of a plan -/

mutual

/-- The scans of a plan. -/
def ExecutionPlan.scans : ExecutionPlan → List IcebergTableScan
  | .scan s => [s]
  | .hashJoin l r _ => l.scans ++ r.scans
  | .projection i _ | .filter i _ | .limit i _ _ | .aggregate i _ _ | .wrapper _ i => i.scans
  | .union is | .other _ _ is => scansOfList is

/-- The scans of several plans. -/
def scansOfList : List ExecutionPlan → List IcebergTableScan
  | [] => []
  | p :: ps => p.scans ++ scansOfList ps

end

mutual

/-- Something holds at every hash join of a plan. -/
def AtJoins (P : ExecutionPlan → ExecutionPlan → HashJoin → Prop) : ExecutionPlan → Prop
  | .scan _ => True
  | .hashJoin l r j => AtJoins P l ∧ AtJoins P r ∧ P l r j
  | .projection i _ | .filter i _ | .limit i _ _ | .aggregate i _ _ | .wrapper _ i => AtJoins P i
  | .union is | .other _ _ is => AtJoinsList P is

/-- Something holds at every hash join of several plans. -/
def AtJoinsList (P : ExecutionPlan → ExecutionPlan → HashJoin → Prop) : List ExecutionPlan → Prop
  | [] => True
  | p :: ps => AtJoins P p ∧ AtJoinsList P ps

end

/-! ### The plan-time read -/

/-- The builder of `plan_time_join_key_constraint`: the key column under the static predicate. -/
def planTimeBuilder (dim : IcebergTableScan) (key : String) : TableScanBuilder where
  table := dim.table
  snapshotId := dim.snapshotId
  columnNames := some [key]
  filter := dim.predicates.map Predicate.rewriteNot

/-- A table without a snapshot has no tasks. -/
def emptyRead : PlanTimeRead where
  tasks := []
  batches := []
  ty := .other "empty"
  iter := id

section

variable (W : Warehouse) (render : Datum → String) (memo : IcebergTableScan → String → ConstraintCache)
  (read : IcebergTableScan → String → Option PlanTimeRead)

/-- What the read of a key column answers: nothing if the scan does not build.  `read` is the answer of the
files. -/
def planTimeAnswer (dim : IcebergTableScan) (key : String) : Option PlanTimeRead :=
  match (planTimeBuilder dim key).build W with
  | .error _ => none
  | .ok none => some emptyRead
  | .ok (some _) => read dim key

/-- `compute_join_key_constraint`, with the memo table that each call finds. -/
def computeConstraint : ComputeConstraint := fun dim key =>
  (computeJoinKeyConstraint render (memo dim key) dim key (planTimeAnswer W read dim key)).1

/-! ### When nothing goes wrong -/

/-- The key is memoised; or it is a column of the dimension's own table, its static predicate binds, and
the read succeeds. -/
def KeyAnswered (dim : IcebergTableScan) (key : String) : Prop :=
  (memo dim key (cacheKey render dim key)).isSome = true ∨
    ∀ snapshot schema, W.resolve dim.table dim.snapshotId = .ok (some (snapshot, schema)) →
      Selectable schema key ∧
        (∀ p, dim.predicates = some p → p.rewriteNot.Binds W.parsers schema) ∧
        (read dim key).isSome = true

/-- The literals of a constraint. -/
def JoinKeyConstraint.literals : JoinKeyConstraint → List Datum
  | .range lo hi => [lo, hi]
  | .inList values => values

/-- The literals of a constraint bind to the column of a scan's table. -/
def Converts (s : IcebergTableScan) (column : String) (c : JoinKeyConstraint) : Prop :=
  ∀ snapshot schema, W.resolve s.table s.snapshotId = .ok (some (snapshot, schema)) →
    ∃ r, bindReference schema column = .ok r ∧
      ∀ d ∈ c.literals, (d.toType W.parsers r.field.fieldType).isSome = true

/-- The constraint becomes a set predicate. -/
def JoinKeyConstraint.isSet : JoinKeyConstraint → Bool
  | .range _ _ => false
  | .inList [_] => false
  | .inList _ => true

/-- The reader has a value for a literal.  A number beyond the column's type is folded away in a comparison,
but not in a set. -/
def JoinKeyConstraint.TakesLiteral (c : JoinKeyConstraint) : BoundLiteral → Prop
  | .datum d => d.primitiveType.hasArrowDatum = true
  | .aboveMax | .belowMin => c.isSet = false

/-- The files of a scan can be filtered on the column by the constraint. -/
def Comparable (s : IcebergTableScan) (column : String) (c : JoinKeyConstraint) : Prop :=
  ∀ snapshot schema r, W.resolve s.table s.snapshotId = .ok (some (snapshot, schema)) →
    bindReference schema column = .ok r →
    (∀ d ∈ c.literals, ∀ l, d.toType W.parsers r.field.fieldType = some l → c.TakesLiteral l) ∧
      ∀ f ∈ snapshot.files, W.present f r.field.name = true →
        r.topLevel = true ∧ ∀ g ∈ W.rowGroups f, onColumnIndex (W.present f) g.columnIndex r = true

/-- At a join that the rule resolves, the key has an answer. -/
def Answers (l r : ExecutionPlan) (j : HashJoin) : Prop :=
  ∀ dim dimKey factKey, resolveDimFactKeys l r j.on = some (dim, dimKey, factKey) →
    KeyAnswered W render memo read dim dimKey

/-- Something holds of every scan that a constraint is pushed to at a join. -/
def Pushes (G : IcebergTableScan → String → JoinKeyConstraint → Prop) (l r : ExecutionPlan)
    (j : HashJoin) : Prop :=
  ∀ dim dimKey factKey c, resolveDimFactKeys l r j.on = some (dim, dimKey, factKey) →
    computeConstraint W render memo read dim dimKey = some (some c) →
      ∀ s ∈ l.scans ++ r.scans, s.isLargeFactTable = true → scanHasColumn s factKey = true →
        G s factKey c

/-- The literals convert, or the scan's filter is FALSE already. -/
def Pushable (s : IcebergTableScan) (factKey : String) (c : JoinKeyConstraint) : Prop :=
  W.DecidedFalse s ∨ Converts W s factKey c

/-- At every join that the rule resolves, the key has an answer, and its literals convert for every scan
that is narrowed. -/
def FkResolves : ExecutionPlan → Prop :=
  AtJoins fun l r j => Answers W render memo read l r j ∧ Pushes W render memo read (Pushable W) l r j

/-- The files of every scan that is narrowed can be filtered by what is pushed. -/
def FkReadable : ExecutionPlan → Prop := AtJoins (Pushes W render memo read (Comparable W))

end

/-! ### The pushed predicate -/

/-- What is pushed has no NOT. -/
theorem rewriteNot_constraintToPredicate (column : String) (c : JoinKeyConstraint) :
    (constraintToPredicate column c).rewriteNot = constraintToPredicate column c := by
  unfold constraintToPredicate
  split
  · rfl
  · rfl
  · split <;> rfl

theorem constraintToPredicate_ne_alwaysFalse (column : String) (c : JoinKeyConstraint) :
    (constraintToPredicate column c).rewriteNot ≠ .alwaysFalse := by
  rw [rewriteNot_constraintToPredicate]
  unfold constraintToPredicate
  split
  · simp
  · simp [Predicate.isIn]
  · split <;> simp [Predicate.and]

section

variable {parsers : TextParsers} {schema : Schema} {column : String} {r : FieldRef}

theorem bindLiteral_isOk {d : Datum} {t : FieldType} :
    (∃ l, bindLiteral parsers d t = .ok l) ↔ (d.toType parsers t).isSome = true := by
  unfold bindLiteral
  cases d.toType parsers t <;> simp

/-- The literals of a set bind one by one. -/
theorem bindLiterals_isOk {t : FieldType} {ds : List Datum} :
    (∃ ls, bindLiterals parsers t ds = .ok ls) ↔ ∀ d ∈ ds, (d.toType parsers t).isSome = true := by
  induction ds with
  | nil => simp [bindLiterals]
  | cons d ds ih =>
      rw [List.forall_mem_cons, ← bindLiteral_isOk, ← ih, bindLiterals]
      cases bindLiteral parsers d t with
      | error e => simp
      | ok l => cases bindLiterals parsers t ds <;> simp [Except.map]

theorem mem_bindLiterals {t : FieldType} {ds : List Datum} {ls : List BoundLiteral}
    (h : bindLiterals parsers t ds = .ok ls) {l : BoundLiteral} (hl : l ∈ ls) :
    ∃ d ∈ ds, d.toType parsers t = some l := by
  induction ds generalizing ls with
  | nil =>
      obtain rfl := Except.ok.inj h
      cases hl
  | cons d ds ih =>
      unfold bindLiterals bindLiteral at h
      cases hd : d.toType parsers t with
      | none =>
          rw [hd] at h
          cases h
      | some l' =>
          rw [hd] at h
          cases hds : bindLiterals parsers t ds with
          | error e =>
              rw [hds] at h
              cases h
          | ok ls' =>
              rw [hds] at h
              obtain rfl := Except.ok.inj h
              rcases List.mem_cons.mp hl with rfl | hl
              · exact ⟨d, List.mem_cons_self, hd⟩
              · obtain ⟨e, he, hle⟩ := ih hds hl
                exact ⟨e, List.mem_cons_of_mem d he, hle⟩

theorem binds_binary {op : PredicateOperator} {d : Datum} :
    (Predicate.binary op column d).Binds parsers schema ↔
      ∃ r, bindReference schema column = .ok r ∧ (d.toType parsers r.field.fieldType).isSome = true := by
  rw [Predicate.Binds, Predicate.bind]
  cases bindReference schema column with
  | error e => simp
  | ok r =>
      simp only [Except.ok.injEq, exists_eq_left', ← bindLiteral_isOk]
      cases bindLiteral parsers d r.field.fieldType <;> simp [Except.map]

theorem foldSet_isIn (ls : List BoundLiteral) : ∃ b, foldSet .isIn r ls = .ok b := by
  unfold foldSet
  split <;> simp_all

theorem binds_isIn {ds : List Datum} : (Predicate.isIn column ds).Binds parsers schema ↔
    ∃ r, bindReference schema column = .ok r ∧
      ∀ d ∈ ds, (d.toType parsers r.field.fieldType).isSome = true := by
  rw [Predicate.isIn, Predicate.Binds, Predicate.bind]
  cases bindReference schema column with
  | error e => simp
  | ok r =>
      have hset : (∃ ls, bindLiterals parsers r.field.fieldType ds.dedup = .ok ls) ↔
          ∀ d ∈ ds, (d.toType parsers r.field.fieldType).isSome = true := by
        rw [bindLiterals_isOk]
        simp only [List.mem_dedup]
      simp only [Except.ok.injEq, exists_eq_left']
      rw [← hset]
      cases bindLiterals parsers r.field.fieldType ds.dedup with
      | error e => simp
      | ok ls => simp [foldSet_isIn]

/-- **When a pushed predicate binds**: the column is there and each literal converts to its type. -/
theorem binds_constraintToPredicate (c : JoinKeyConstraint) :
    (constraintToPredicate column c).Binds parsers schema ↔
      ∃ r, bindReference schema column = .ok r ∧
        ∀ d ∈ c.literals, (d.toType parsers r.field.fieldType).isSome = true := by
  unfold constraintToPredicate
  split
  · rw [binds_binary]
    simp [JoinKeyConstraint.literals]
  · exact binds_isIn
  · rename_i lo hi
    split
    · rename_i heq
      rw [binds_binary, heq]
      simp [JoinKeyConstraint.literals]
    · rw [Predicate.binds_and, binds_binary, binds_binary]
      simp only [JoinKeyConstraint.literals, List.forall_mem_cons]
      cases bindReference schema column <;> simp

end

/-! ### What the reader does with it -/

section

variable {W : Warehouse} {f : DataFile} {r : FieldRef}

/-- A file on which the column, if it is there, can be filtered. -/
def ColumnReads (W : Warehouse) (f : DataFile) (r : FieldRef) : Prop :=
  W.present f r.field.name = true →
    r.topLevel = true ∧ ∀ g ∈ W.rowGroups f, onColumnIndex (W.present f) g.columnIndex r = true

theorem onColumn_isOk (h : ColumnReads W f r) {missing : Option Bool}
    {found : Except FilterError (Option Bool)} (hfound : ∃ t, found = .ok t) :
    ∃ t, onColumn (W.present f) r missing found = .ok t := by
  obtain ⟨t, rfl⟩ := hfound
  unfold onColumn
  by_cases hpresent : W.present f r.field.name = true
  · simp [hpresent, (h hpresent).1]
  · simp [hpresent]

/-- A column that the file does not have needs no index. -/
theorem ColumnReads.index (h : ColumnReads W f r) {g : RowGroup} (hg : g ∈ W.rowGroups f) :
    onColumnIndex (W.present f) g.columnIndex r = true := by
  by_cases hpresent : W.present f r.field.name = true
  · exact (h hpresent).2 g hg
  · simp [onColumnIndex, hpresent]

theorem takes_alwaysTrue : W.Takes .alwaysTrue f := ⟨fun _ => ⟨_, rfl⟩, fun _ _ => rfl⟩

theorem takes_alwaysFalse : W.Takes .alwaysFalse f := ⟨fun _ => ⟨_, rfl⟩, fun _ _ => rfl⟩

/-- A comparison with a value that Arrow has. -/
theorem takes_binary (h : ColumnReads W f r) (op : PredicateOperator) {d : Datum}
    (hd : d.primitiveType.hasArrowDatum = true) : W.Takes (.binary op r (.datum d)) f where
  rowFilter row := by
    refine onColumn_isOk h ?_
    rw [getArrowDatum, if_pos hd]
    exact ⟨_, rfl⟩
  rowSelection g hg := by
    rw [rowSelection, h.index hg, Bool.or_true]

/-- A comparison with a number beyond the column's type is no comparison any more. -/
theorem takes_foldBinary (h : ColumnReads W f r) {op : PredicateOperator} {l : BoundLiteral}
    (hop : op = .eq ∨ op = .greaterThanOrEq ∨ op = .lessThanOrEq)
    (hl : ∀ d, l = .datum d → d.primitiveType.hasArrowDatum = true) : W.Takes (foldBinary op r l) f := by
  cases l with
  | datum d =>
      have hbinary : foldBinary op r (.datum d) = .binary op r (.datum d) := by
        unfold foldBinary
        split <;> simp_all
      rw [hbinary]
      exact takes_binary h op (hl d rfl)
  | aboveMax =>
      rcases hop with rfl | rfl | rfl
      · exact takes_alwaysFalse
      · exact takes_alwaysFalse
      · exact takes_alwaysTrue
  | belowMin =>
      rcases hop with rfl | rfl | rfl
      · exact takes_alwaysFalse
      · exact takes_alwaysTrue
      · exact takes_alwaysFalse

theorem getArrowDatums_isOk {ls : List BoundLiteral}
    (h : ∀ l ∈ ls, ∃ d, l = .datum d ∧ d.primitiveType.hasArrowDatum = true) :
    ∃ ds, getArrowDatums ls = .ok ds := by
  induction ls with
  | nil => exact ⟨[], rfl⟩
  | cons l ls ih =>
      rw [List.forall_mem_cons] at h
      obtain ⟨⟨d, rfl, hd⟩, h⟩ := h
      obtain ⟨ds, hds⟩ := ih h
      exact ⟨d :: ds, by rw [getArrowDatums, getArrowDatum, if_pos hd, hds]; rfl⟩

/-- A set of values that Arrow has. -/
theorem takes_foldSet (h : ColumnReads W f r) {ls : List BoundLiteral} {b : BoundPredicate}
    (hls : ∀ l ∈ ls, ∃ d, l = .datum d ∧ d.primitiveType.hasArrowDatum = true)
    (hb : foldSet .isIn r ls = .ok b) : W.Takes b f := by
  unfold foldSet at hb
  split at hb
  · obtain rfl := Except.ok.inj hb
    exact takes_alwaysFalse
  · rename_i l _
    obtain rfl := Except.ok.inj hb
    obtain ⟨d, rfl, hd⟩ := hls l (by simp)
    exact takes_binary h .eq hd
  · obtain rfl := Except.ok.inj hb
    constructor
    · intro row
      refine onColumn_isOk h ?_
      split
      · exact ⟨_, rfl⟩
      · obtain ⟨ds, hds⟩ := getArrowDatums_isOk hls
        rw [hds]
        exact ⟨_, rfl⟩
    · intro g hg
      rw [rowSelection, h.index hg, Bool.or_true]
  · simp_all
  · simp_all
  · simp_all
  · simp_all

theorem Takes.and {b c : BoundPredicate} (hb : W.Takes b f) (hc : W.Takes c f) :
    W.Takes (b.and c) f := by
  fun_cases BoundPredicate.and b c
  · exact hc
  · exact hb
  · exact hb
  · exact hc
  · constructor
    · intro row
      obtain ⟨u, hu⟩ := hb.rowFilter row
      obtain ⟨v, hv⟩ := hc.rowFilter row
      exact ⟨_, filterBoth_ok hu hv⟩
    · intro g hg
      rw [rowSelection, hb.rowSelection g hg, hc.rowSelection g hg, Bool.and_self]

theorem bind_binary_eq_ok {schema : Schema} {column : String} (hr : bindReference schema column = .ok r)
    {op : PredicateOperator} {d : Datum} {b : BoundPredicate}
    (hb : (Predicate.binary op column d).bind W.parsers schema = .ok b) :
    ∃ l, d.toType W.parsers r.field.fieldType = some l ∧ b = foldBinary op r l := by
  rw [Predicate.bind, hr] at hb
  simp only [bindLiteral] at hb
  cases hd : d.toType W.parsers r.field.fieldType with
  | none =>
      rw [hd] at hb
      cases hb
  | some l =>
      rw [hd] at hb
      exact ⟨l, rfl, (Except.ok.inj hb).symm⟩

/-- **A file takes what is pushed** when the column can be filtered and the reader has its literals. -/
theorem takes_constraintToPredicate {schema : Schema} {column : String} {c : JoinKeyConstraint}
    (hr : bindReference schema column = .ok r) (h : ColumnReads W f r)
    (hliterals : ∀ d ∈ c.literals, ∀ l, d.toType W.parsers r.field.fieldType = some l → c.TakesLiteral l)
    {b : BoundPredicate} (hb : (constraintToPredicate column c).bind W.parsers schema = .ok b) :
    W.Takes b f := by
  -- one comparison with a literal of the constraint
  have hcompare : ∀ {op : PredicateOperator} {d : Datum} {b : BoundPredicate},
      op = .eq ∨ op = .greaterThanOrEq ∨ op = .lessThanOrEq → d ∈ c.literals →
      (Predicate.binary op column d).bind W.parsers schema = .ok b → W.Takes b f := by
    intro op d b hop hd hb
    obtain ⟨l, hl, rfl⟩ := bind_binary_eq_ok hr hb
    refine takes_foldBinary h hop fun e he => ?_
    have htakes := hliterals d hd l hl
    rw [he] at htakes
    exact htakes
  unfold constraintToPredicate at hb
  split at hb
  · rename_i d
    exact hcompare (.inl rfl) (List.mem_singleton_self d) hb
  · rename_i ds hne
    have hset : (JoinKeyConstraint.inList ds).isSet = true := by
      unfold JoinKeyConstraint.isSet
      split <;> simp_all
    rw [Predicate.isIn, Predicate.bind, hr] at hb
    simp only at hb
    split at hb
    · cases hb
    · rename_i ls hls
      refine takes_foldSet h ?_ hb
      intro l hl
      obtain ⟨d, hd, hdl⟩ := mem_bindLiterals hls (List.mem_dedup.mp hl)
      have htakes := hliterals d (List.mem_dedup.mp hd) l hdl
      cases l with
      | datum e => exact ⟨e, rfl, htakes⟩
      | aboveMax => cases hset.symm.trans htakes
      | belowMin => cases hset.symm.trans htakes
  · rename_i lo hi
    have hlo : lo ∈ (JoinKeyConstraint.range lo hi).literals := List.mem_cons_self
    have hhi : hi ∈ (JoinKeyConstraint.range lo hi).literals :=
      List.mem_cons_of_mem lo (List.mem_singleton_self hi)
    split at hb
    · exact hcompare (.inl rfl) hlo hb
    · obtain ⟨u, v, hu, hv, rfl⟩ := bindBoth_ok hb
      exact Takes.and (hcompare (.inr (.inl rfl)) hlo hu) (hcompare (.inr (.inr rfl)) hhi hv)

end

/-! ### The read of a key -/

section

variable {W : Warehouse} {render : Datum → String} {memo : IcebergTableScan → String → ConstraintCache}
  {read : IcebergTableScan → String → Option PlanTimeRead}

/-- The read answers when its scan builds and the files can be read. -/
theorem planTimeAnswer_isSome {dim : IcebergTableScan} {key : String} (hdim : W.Builds dim) :
    (planTimeAnswer W read dim key).isSome = true ↔
      ∀ snapshot schema, W.resolve dim.table dim.snapshotId = .ok (some (snapshot, schema)) →
        Selectable schema key ∧
          (∀ p, dim.predicates = some p → p.rewriteNot.Binds W.parsers schema) ∧
          (read dim key).isSome = true := by
  obtain ⟨t, hresolve, -⟩ := build_isOk.mp hdim
  have hresolve' : W.resolve dim.table dim.snapshotId = .ok t := hresolve
  have hbuild := build_isOk (W := W) (b := planTimeBuilder dim key)
  simp only [planTimeBuilder, hresolve', Except.ok.injEq, exists_eq_left', Option.getD_some,
    List.forall_mem_singleton, Option.map_eq_some_iff, forall_exists_index, and_imp,
    forall_apply_eq_imp_iff₂] at hbuild
  rw [hresolve']
  simp only [Except.ok.injEq]
  unfold planTimeAnswer
  cases hcase : (planTimeBuilder dim key).build W with
  | error e =>
      have hno : ¬ ∃ ctx, (planTimeBuilder dim key).build W = .ok ctx := by
        rw [hcase]
        simp
      refine iff_of_false (by simp) fun h => hno (hbuild.mpr fun snapshot schema ht => ?_)
      exact ⟨(h snapshot schema ht).1, (h snapshot schema ht).2.1⟩
  | ok ctx =>
      cases ctx with
      | none =>
          have hnone : t = none := by
            cases t with
            | none => rfl
            | some pair =>
                obtain ⟨snapshot, schema⟩ := pair
                obtain ⟨c, hc, -⟩ := exists_context ⟨none, hcase⟩ hresolve'
                cases hcase.symm.trans hc
          simp [hnone]
      | some ctx =>
          obtain ⟨schema, hsome, -⟩ := of_build_eq_some hcase
          have ht : t = some (ctx.snapshot, schema) := Except.ok.inj (hresolve'.symm.trans hsome)
          have hchecks := hbuild.mp ⟨some ctx, hcase⟩
          constructor
          · intro hread snapshot schema' ht'
            exact ⟨(hchecks _ _ ht').1, (hchecks _ _ ht').2, hread⟩
          · exact fun h => (h _ _ ht).2.2

/-- **When `compute_join_key_constraint` has an answer**, for a dimension scan that builds. -/
theorem computeConstraint_isSome {dim : IcebergTableScan} {key : String} (hdim : W.Builds dim) :
    (computeConstraint W render memo read dim key).isSome = true ↔
      KeyAnswered W render memo read dim key := by
  unfold KeyAnswered computeConstraint computeJoinKeyConstraint
  rw [← planTimeAnswer_isSome hdim]
  cases hmemo : memo dim key (cacheKey render dim key) with
  | some cached => simp [hmemo]
  | none => cases planTimeAnswer W read dim key <;> simp [hmemo]

end

/-! ### The scans of the plan that the rule returns -/

mutual

theorem scans_mapScans (g : IcebergTableScan → IcebergTableScan) : ∀ p : ExecutionPlan,
    (mapScans (fun _ => true) g p).scans = p.scans.map g
  | .scan _ => rfl
  | .hashJoin l r _ => by
      rw [ExecutionPlan.scans, List.map_append, ← scans_mapScans g l, ← scans_mapScans g r]
      rfl
  | .projection i _ | .filter i _ | .limit i _ _ | .aggregate i _ _ | .wrapper _ i =>
      scans_mapScans g i
  | .union is | .other _ _ is => scansOfList_mapScansList g is

theorem scansOfList_mapScansList (g : IcebergTableScan → IcebergTableScan) : ∀ ps : List ExecutionPlan,
    scansOfList (mapScansList (fun _ => true) g ps) = (scansOfList ps).map g
  | [] => rfl
  | p :: ps => by
      rw [scansOfList, List.map_append, ← scans_mapScans g p, ← scansOfList_mapScansList g ps]
      rfl

end

/-- What no push changes about a scan. -/
def Unpushed {α : Type} (φ : IcebergTableScan → α) : Prop :=
  ∀ c factKey s, φ (narrowFactScan (constraintToPredicate factKey c) factKey s) = φ s

section

variable {compute : ComputeConstraint} {α : Type} {φ : IcebergTableScan → α}

mutual

/-- **The scans after the rule** are those before it, up to what was pushed. -/
theorem scans_pushFkBounds (hφ : Unpushed φ) : ∀ {p p' : ExecutionPlan}, pushFkBounds compute p = some p' →
    p'.scans.map φ = p.scans.map φ
  | .scan _, _, h => by
      obtain rfl := Option.some.inj h
      rfl
  | .hashJoin l r j, p', h => by
      obtain ⟨l', hl, h⟩ := Option.bind_eq_some_iff.mp h
      obtain ⟨r', hr, h⟩ := Option.bind_eq_some_iff.mp h
      have hinputs : (ExecutionPlan.hashJoin l' r' j).scans.map φ =
          (ExecutionPlan.hashJoin l r j).scans.map φ := by
        rw [ExecutionPlan.scans, ExecutionPlan.scans, List.map_append, List.map_append,
          scans_pushFkBounds hφ hl, scans_pushFkBounds hφ hr]
      rcases pushAtJoin_cases h with rfl | ⟨dim, dimKey, factKey, c, -, -, rfl⟩
      · exact hinputs
      · rw [applyPredicateToFactScans, scans_mapScans, List.map_map, ← hinputs]
        exact List.map_congr_left fun s _ => hφ c factKey s
  | .projection i _, _, h | .filter i _, _, h | .limit i _ _, _, h | .aggregate i _ _, _, h
  | .wrapper _ i, _, h => by
      obtain ⟨i', hi, rfl⟩ := Option.map_eq_some_iff.mp h
      show i'.scans.map φ = i.scans.map φ
      exact scans_pushFkBounds hφ hi
  | .union is, _, h | .other _ _ is, _, h => by
      obtain ⟨is', his, rfl⟩ := Option.map_eq_some_iff.mp h
      exact scansOfList_pushFkBoundsList hφ his

theorem scansOfList_pushFkBoundsList (hφ : Unpushed φ) : ∀ {ps ps' : List ExecutionPlan},
    pushFkBoundsList compute ps = some ps' → (scansOfList ps').map φ = (scansOfList ps).map φ
  | [], _, h => by
      obtain rfl := Option.some.inj h
      rfl
  | p :: ps, _, h => by
      obtain ⟨p', hp, h⟩ := Option.bind_eq_some_iff.mp h
      obtain ⟨ps', hps, rfl⟩ := Option.map_eq_some_iff.mp h
      rw [scansOfList, scansOfList, List.map_append, List.map_append, scans_pushFkBounds hφ hp,
        scansOfList_pushFkBoundsList hφ hps]

end

end

/-- The scan under the wrappers is a scan of the plan. -/
theorem mem_scans_of_asIcebergScan {s : IcebergTableScan} : ∀ {p : ExecutionPlan},
    asIcebergScan p = some s → s ∈ p.scans
  | .scan _, h => by
      obtain rfl := Option.some.inj h
      exact List.mem_singleton_self _
  | .projection i _, h => mem_scans_of_asIcebergScan (p := i) h
  | .wrapper kind i, h => by
      rw [asIcebergScan_wrapper] at h
      split at h
      · exact mem_scans_of_asIcebergScan (p := i) h
      · cases h

/-- The dimension is a scan below the join. -/
theorem mem_scans_of_resolve {l r : ExecutionPlan} {on : List (PhysicalExpr × PhysicalExpr)}
    {dim : IcebergTableScan} {dimKey factKey : String}
    (h : resolveDimFactKeys l r on = some (dim, dimKey, factKey)) : dim ∈ l.scans ++ r.scans := by
  unfold resolveDimFactKeys at h
  split at h
  · cases h
  split at h
  · rename_i hleft _
    obtain ⟨rfl, -⟩ := Prod.mk.inj (Option.some.inj h)
    exact List.mem_append_left _ (mem_scans_of_asIcebergScan (asIcebergScan_of_direct hleft))
  · split at h
    · rename_i hright _
      obtain ⟨rfl, -⟩ := Prod.mk.inj (Option.some.inj h)
      exact List.mem_append_right _ (mem_scans_of_asIcebergScan (asIcebergScan_of_direct hright))
    · cases h

/-! ### What a push cannot change -/

section

variable (W : Warehouse)

/-- A scan without its filters, and whether its filter is FALSE. -/
def skeleton (s : IcebergTableScan) : IcebergTableScan × Prop := (bare s, W.DecidedFalse s)

theorem unpushed_skeleton : Unpushed (skeleton W) := by
  intro c factKey s
  unfold narrowFactScan
  split
  · rw [skeleton, skeleton, propext (decidedFalse_narrowed (constraintToPredicate_ne_alwaysFalse factKey c))]
    rfl
  · rfl

variable {W} {s s' : IcebergTableScan}

theorem bare_eq_of_skeleton (h : skeleton W s = skeleton W s') : bare s = bare s' := (Prod.mk.inj h).1

theorem isLargeFactTable_of_skeleton (h : skeleton W s = skeleton W s') :
    s.isLargeFactTable = s'.isLargeFactTable := by
  show (bare s).isLargeFactTable = (bare s').isLargeFactTable
  rw [bare_eq_of_skeleton h]

theorem scanHasColumn_of_skeleton (h : skeleton W s = skeleton W s') (column : String) :
    scanHasColumn s column = scanHasColumn s' column := by
  show scanHasColumn (bare s) column = scanHasColumn (bare s') column
  rw [bare_eq_of_skeleton h]

/-- Both scans read the same snapshot with the same schema. -/
theorem resolve_of_skeleton (h : skeleton W s = skeleton W s') :
    W.resolve s.table s.snapshotId = W.resolve s'.table s'.snapshotId := by
  show W.resolve (bare s).table (bare s).snapshotId = W.resolve (bare s').table (bare s').snapshotId
  rw [bare_eq_of_skeleton h]

theorem converts_of_skeleton (h : skeleton W s = skeleton W s') {factKey : String}
    {c : JoinKeyConstraint} : Converts W s factKey c ↔ Converts W s' factKey c := by
  rw [Converts, Converts, resolve_of_skeleton h]

theorem pushable_of_skeleton (h : skeleton W s = skeleton W s') {factKey : String}
    {c : JoinKeyConstraint} : Pushable W s factKey c ↔ Pushable W s' factKey c := by
  have hfalse : W.DecidedFalse s = W.DecidedFalse s' := (Prod.mk.inj h).2
  rw [Pushable, Pushable, converts_of_skeleton h, hfalse]

theorem comparable_of_skeleton (h : skeleton W s = skeleton W s') {factKey : String}
    {c : JoinKeyConstraint} : Comparable W s factKey c ↔ Comparable W s' factKey c := by
  rw [Comparable, Comparable, resolve_of_skeleton h]

/-- What is pushed is accepted exactly when its literals convert. -/
theorem accepts_iff_converts {factKey : String} {c : JoinKeyConstraint} :
    W.Accepts s (constraintToPredicate factKey c) ↔ Converts W s factKey c := by
  rw [Warehouse.Accepts, rewriteNot_constraintToPredicate]
  simp only [binds_constraintToPredicate]
  rfl

/-- **Building after a push.** -/
theorem builds_pushed {factKey : String} {c : JoinKeyConstraint} :
    W.Builds (s.withAdditionalStaticPredicate (constraintToPredicate factKey c)) ↔
      W.Builds s ∧ Pushable W s factKey c := by
  rw [builds_narrowed_iff (constraintToPredicate_ne_alwaysFalse factKey c), accepts_iff_converts]
  rfl

/-- **Executing after a push.** -/
theorem runs_pushed (hW : W.PrunesMore) (hs : W.Runs s) {factKey : String} {c : JoinKeyConstraint}
    (hpush : Pushable W s factKey c) (hcompare : Comparable W s factKey c) :
    W.Runs (s.withAdditionalStaticPredicate (constraintToPredicate factKey c)) := by
  refine runs_narrowed hW hs (constraintToPredicate_ne_alwaysFalse factKey c) ?_ ?_
  · rw [accepts_iff_converts]
    exact hpush
  · intro snapshot schema b hresolve hb f hf
    rw [rewriteNot_constraintToPredicate] at hb
    obtain ⟨r, hr, -⟩ := (binds_constraintToPredicate c).mp ⟨b, hb⟩
    obtain ⟨hliterals, hfiles⟩ := hcompare snapshot schema r hresolve hr
    exact takes_constraintToPredicate hr (hfiles f hf) hliterals hb

end

/-! ### The rule -/

section

variable {W : Warehouse} {render : Datum → String} {memo : IcebergTableScan → String → ConstraintCache}
  {read : IcebergTableScan → String → Option PlanTimeRead}

/-- The rule changes nothing else about the scans. -/
theorem map_skeleton_scans {compute : ComputeConstraint} {l l' r r' : ExecutionPlan}
    (hl : pushFkBounds compute l = some l') (hr : pushFkBounds compute r = some r') :
    (l'.scans ++ r'.scans).map (skeleton W) = (l.scans ++ r.scans).map (skeleton W) := by
  rw [List.map_append, List.map_append, scans_pushFkBounds (unpushed_skeleton W) hl,
    scans_pushFkBounds (unpushed_skeleton W) hr]

/-- The scan before the rule that a scan after it comes from. -/
theorem exists_scan_before {compute : ComputeConstraint} {l l' r r' : ExecutionPlan}
    (hl : pushFkBounds compute l = some l') (hr : pushFkBounds compute r = some r')
    {s' : IcebergTableScan} (hs' : s' ∈ l'.scans ++ r'.scans) :
    ∃ s ∈ l.scans ++ r.scans, skeleton W s = skeleton W s' := by
  have hmem : skeleton W s' ∈ (l'.scans ++ r'.scans).map (skeleton W) := List.mem_map_of_mem hs'
  rw [map_skeleton_scans hl hr] at hmem
  exact List.mem_map.mp hmem

/-- The scan after the rule that a scan before it becomes. -/
theorem exists_scan_after {compute : ComputeConstraint} {l l' r r' : ExecutionPlan}
    (hl : pushFkBounds compute l = some l') (hr : pushFkBounds compute r = some r')
    {s : IcebergTableScan} (hs : s ∈ l.scans ++ r.scans) :
    ∃ s' ∈ l'.scans ++ r'.scans, skeleton W s' = skeleton W s := by
  have hmem : skeleton W s ∈ (l.scans ++ r.scans).map (skeleton W) := List.mem_map_of_mem hs
  rw [← map_skeleton_scans hl hr] at hmem
  exact List.mem_map.mp hmem

/-- Good scans stay good when what is pushed to them is `G`. -/
structure KeptBy (W : Warehouse) (Q : IcebergTableScan → Prop)
    (G : IcebergTableScan → String → JoinKeyConstraint → Prop) : Prop where
  builds : ∀ s, Q s → W.Builds s
  congr : ∀ s s' factKey c, skeleton W s = skeleton W s' → G s factKey c → G s' factKey c
  push : ∀ s factKey c, Q s → G s factKey c →
    Q (s.withAdditionalStaticPredicate (constraintToPredicate factKey c))

/-- One join, its inputs being done. -/
theorem KeptBy.pushAtJoin {Q : IcebergTableScan → Prop}
    {G : IcebergTableScan → String → JoinKeyConstraint → Prop} (h : KeptBy W Q G)
    {l l' r r' : ExecutionPlan} {j : HashJoin}
    (hl : pushFkBounds (computeConstraint W render memo read) l = some l')
    (hr : pushFkBounds (computeConstraint W render memo read) r = some r')
    (hbefore : ∀ s ∈ l.scans ++ r.scans, Q s) (hafter : ∀ s ∈ l'.scans ++ r'.scans, Q s)
    (hanswers : Answers W render memo read l r j) (hpushes : Pushes W render memo read G l r j) :
    ∃ p', pushAtJoin (computeConstraint W render memo read) l' r' j = some p' ∧ ∀ s ∈ p'.scans, Q s := by
  unfold Plan.pushAtJoin
  rw [resolveDimFactKeys_pushFkBounds hl hr]
  cases hresolve : resolveDimFactKeys l r j.on with
  | none => exact ⟨_, rfl, hafter⟩
  | some keys =>
      obtain ⟨dim, dimKey, factKey⟩ := keys
      have hdim := h.builds dim (hbefore dim (mem_scans_of_resolve hresolve))
      have hanswer := (computeConstraint_isSome hdim).mpr (hanswers dim dimKey factKey hresolve)
      obtain ⟨answer, hanswer⟩ := Option.isSome_iff_exists.mp hanswer
      simp only [hanswer]
      cases answer with
      | none => exact ⟨_, rfl, hafter⟩
      | some c =>
          refine ⟨_, rfl, ?_⟩
          rw [applyPredicateToFactScans, scans_mapScans]
          intro s'' hs''
          obtain ⟨s', hs', rfl⟩ := List.mem_map.mp hs''
          unfold narrowFactScan
          split
          · rename_i htarget
            obtain ⟨hlarge, hcolumn⟩ := (Bool.and_eq_true _ _).mp htarget
            obtain ⟨s, hs, hsame⟩ := exists_scan_before (W := W) hl hr hs'
            rw [← isLargeFactTable_of_skeleton hsame] at hlarge
            rw [← scanHasColumn_of_skeleton hsame] at hcolumn
            have hG := hpushes dim dimKey factKey c hresolve hanswer s hs hlarge hcolumn
            exact h.push s' factKey c (hafter s' hs') (h.congr s s' factKey c hsame hG)
          · exact hafter s' hs'

mutual

/-- **The rule succeeds and keeps the scans good** when every key has an answer and every push is. -/
theorem KeptBy.pushFkBounds {Q : IcebergTableScan → Prop}
    {G : IcebergTableScan → String → JoinKeyConstraint → Prop} (h : KeptBy W Q G) :
    ∀ {p : ExecutionPlan}, (∀ s ∈ p.scans, Q s) →
      AtJoins (fun l r j => Answers W render memo read l r j ∧ Pushes W render memo read G l r j) p →
      ∃ p', pushFkBounds (computeConstraint W render memo read) p = some p' ∧ ∀ s ∈ p'.scans, Q s
  | .scan s, hscans, _ => ⟨.scan s, rfl, hscans⟩
  | .hashJoin l r j, hscans, ⟨hjl, hjr, hanswers, hpushes⟩ => by
      obtain ⟨l', hl, hl'⟩ := h.pushFkBounds (fun s hs => hscans s (List.mem_append_left _ hs)) hjl
      obtain ⟨r', hr, hr'⟩ := h.pushFkBounds (fun s hs => hscans s (List.mem_append_right _ hs)) hjr
      have hafter : ∀ s ∈ l'.scans ++ r'.scans, Q s := fun s hs =>
        (List.mem_append.mp hs).elim (hl' s) (hr' s)
      rw [Plan.pushFkBounds, hl, hr]
      exact h.pushAtJoin hl hr hscans hafter hanswers hpushes
  | .projection i _, hscans, hjoins | .filter i _, hscans, hjoins | .limit i _ _, hscans, hjoins
  | .aggregate i _ _, hscans, hjoins | .wrapper _ i, hscans, hjoins => by
      have hscans' : ∀ s ∈ i.scans, Q s := hscans
      obtain ⟨i', hi, hi'⟩ := h.pushFkBounds hscans' hjoins
      rw [Plan.pushFkBounds, hi]
      exact ⟨_, rfl, hi'⟩
  | .union is, hscans, hjoins | .other _ _ is, hscans, hjoins => by
      have hscans' : ∀ s ∈ scansOfList is, Q s := hscans
      obtain ⟨is', his, his'⟩ := h.pushFkBoundsList hscans' hjoins
      rw [Plan.pushFkBounds, his]
      exact ⟨_, rfl, his'⟩

theorem KeptBy.pushFkBoundsList {Q : IcebergTableScan → Prop}
    {G : IcebergTableScan → String → JoinKeyConstraint → Prop} (h : KeptBy W Q G) :
    ∀ {ps : List ExecutionPlan}, (∀ s ∈ scansOfList ps, Q s) →
      AtJoinsList (fun l r j => Answers W render memo read l r j ∧ Pushes W render memo read G l r j) ps →
      ∃ ps', pushFkBoundsList (computeConstraint W render memo read) ps = some ps' ∧
        ∀ s ∈ scansOfList ps', Q s
  | [], hscans, _ => ⟨[], rfl, hscans⟩
  | p :: ps, hscans, ⟨hjp, hjps⟩ => by
      obtain ⟨p', hp, hp'⟩ := h.pushFkBounds (fun s hs => hscans s (List.mem_append_left _ hs)) hjp
      obtain ⟨ps', hps, hps'⟩ := h.pushFkBoundsList (fun s hs => hscans s (List.mem_append_right _ hs)) hjps
      rw [Plan.pushFkBoundsList, hp, hps]
      exact ⟨_, rfl, fun s hs => (List.mem_append.mp hs).elim (hp' s) (hps' s)⟩

end

/-- If the scans below a join build after a push, they built before it, and what was pushed converts. -/
theorem pushable_of_narrowed {compute : ComputeConstraint} {l l' r r' : ExecutionPlan}
    (hl : pushFkBounds compute l = some l') (hr : pushFkBounds compute r = some r') {factKey : String}
    {c : JoinKeyConstraint}
    (h : ∀ s ∈ l'.scans ++ r'.scans,
      W.Builds (narrowFactScan (constraintToPredicate factKey c) factKey s)) :
    (∀ s ∈ l'.scans ++ r'.scans, W.Builds s) ∧
      ∀ s ∈ l.scans ++ r.scans, s.isLargeFactTable = true → scanHasColumn s factKey = true →
        Pushable W s factKey c := by
  constructor
  · intro s hs
    have hbuilds := h s hs
    unfold narrowFactScan at hbuilds
    split at hbuilds
    · exact (builds_pushed.mp hbuilds).1
    · exact hbuilds
  · intro s hs hlarge hcolumn
    obtain ⟨s', hs', hsame⟩ := exists_scan_after (W := W) hl hr hs
    have hbuilds := h s' hs'
    rw [narrowFactScan, isLargeFactTable_of_skeleton hsame, scanHasColumn_of_skeleton hsame,
      hlarge, hcolumn] at hbuilds
    exact (pushable_of_skeleton hsame).mp (builds_pushed.mp hbuilds).2

/-- **What a join that succeeded says**: its inputs build, its key has an answer and its literals convert. -/
theorem pushable_of_pushAtJoin {l l' r r' p' : ExecutionPlan} {j : HashJoin}
    (hl : pushFkBounds (computeConstraint W render memo read) l = some l')
    (hr : pushFkBounds (computeConstraint W render memo read) r = some r')
    (hbefore : ∀ s ∈ l.scans ++ r.scans, W.Builds s)
    (h : pushAtJoin (computeConstraint W render memo read) l' r' j = some p')
    (hp' : ∀ s ∈ p'.scans, W.Builds s) :
    (∀ s ∈ l'.scans ++ r'.scans, W.Builds s) ∧ Answers W render memo read l r j ∧
      Pushes W render memo read (Pushable W) l r j := by
  unfold Plan.pushAtJoin at h
  rw [resolveDimFactKeys_pushFkBounds hl hr] at h
  cases hresolve : resolveDimFactKeys l r j.on with
  | none =>
      rw [hresolve] at h
      obtain rfl := Option.some.inj h
      refine ⟨hp', ?_, ?_⟩
      · intro dim dimKey factKey hkeys
        cases hresolve.symm.trans hkeys
      · intro dim dimKey factKey c hkeys
        cases hresolve.symm.trans hkeys
  | some keys =>
      obtain ⟨dim, dimKey, factKey⟩ := keys
      rw [hresolve] at h
      have hdim := hbefore dim (mem_scans_of_resolve hresolve)
      have hanswers : (computeConstraint W render memo read dim dimKey).isSome = true →
          Answers W render memo read l r j := by
        intro hsome dim' dimKey' factKey' hkeys
        cases hresolve.symm.trans hkeys
        exact (computeConstraint_isSome hdim).mp hsome
      cases hanswer : computeConstraint W render memo read dim dimKey with
      | none =>
          simp only [hanswer] at h
          cases h
      | some answer =>
          rw [hanswer] at hanswers
          cases answer with
          | none =>
              simp only [hanswer] at h
              obtain rfl := Option.some.inj h
              refine ⟨hp', hanswers rfl, ?_⟩
              intro dim' dimKey' factKey' c hkeys hc
              cases hresolve.symm.trans hkeys
              cases hanswer.symm.trans hc
          | some c =>
              simp only [hanswer] at h
              obtain rfl := Option.some.inj h
              rw [applyPredicateToFactScans, scans_mapScans] at hp'
              obtain ⟨hafter, hpushable⟩ := pushable_of_narrowed hl hr
                fun s hs => hp' _ (List.mem_map_of_mem hs)
              refine ⟨hafter, hanswers rfl, ?_⟩
              intro dim' dimKey' factKey' c' hkeys hc s hs hlarge hcolumn
              cases hresolve.symm.trans hkeys
              cases hanswer.symm.trans hc
              exact hpushable s hs hlarge hcolumn

mutual

/-- **If the rule succeeds and its scans build**, every key had an answer and every literal converts. -/
theorem fkResolves_of_pushFkBounds : ∀ {p p' : ExecutionPlan}, (∀ s ∈ p.scans, W.Builds s) →
    pushFkBounds (computeConstraint W render memo read) p = some p' → (∀ s ∈ p'.scans, W.Builds s) →
      FkResolves W render memo read p
  | .scan _, _, _, _, _ => trivial
  | .hashJoin l r j, p', hscans, h, hp' => by
      obtain ⟨l', hl, h⟩ := Option.bind_eq_some_iff.mp h
      obtain ⟨r', hr, h⟩ := Option.bind_eq_some_iff.mp h
      obtain ⟨hafter, hanswers, hpushes⟩ := pushable_of_pushAtJoin hl hr hscans h hp'
      refine ⟨?_, ?_, hanswers, hpushes⟩
      · exact fkResolves_of_pushFkBounds (fun s hs => hscans s (List.mem_append_left _ hs)) hl
          fun s hs => hafter s (List.mem_append_left _ hs)
      · exact fkResolves_of_pushFkBounds (fun s hs => hscans s (List.mem_append_right _ hs)) hr
          fun s hs => hafter s (List.mem_append_right _ hs)
  | .projection i _, _, hscans, h, hp' | .filter i _, _, hscans, h, hp' | .limit i _ _, _, hscans, h, hp'
  | .aggregate i _ _, _, hscans, h, hp' | .wrapper _ i, _, hscans, h, hp' => by
      obtain ⟨i', hi, rfl⟩ := Option.map_eq_some_iff.mp h
      have hscans' : ∀ s ∈ i.scans, W.Builds s := hscans
      have hp'' : ∀ s ∈ i'.scans, W.Builds s := hp'
      show FkResolves W render memo read i
      exact fkResolves_of_pushFkBounds hscans' hi hp''
  | .union is, _, hscans, h, hp' | .other _ _ is, _, hscans, h, hp' => by
      obtain ⟨is', his, rfl⟩ := Option.map_eq_some_iff.mp h
      have hscans' : ∀ s ∈ scansOfList is, W.Builds s := hscans
      have hp'' : ∀ s ∈ scansOfList is', W.Builds s := hp'
      exact fkResolves_of_pushFkBoundsList hscans' his hp''

theorem fkResolves_of_pushFkBoundsList : ∀ {ps ps' : List ExecutionPlan},
    (∀ s ∈ scansOfList ps, W.Builds s) →
    pushFkBoundsList (computeConstraint W render memo read) ps = some ps' →
      (∀ s ∈ scansOfList ps', W.Builds s) →
      AtJoinsList (fun l r j => Answers W render memo read l r j ∧
        Pushes W render memo read (Pushable W) l r j) ps
  | [], _, _, _, _ => trivial
  | p :: ps, _, hscans, h, hps' => by
      obtain ⟨p', hp, h⟩ := Option.bind_eq_some_iff.mp h
      obtain ⟨ps', hps, rfl⟩ := Option.map_eq_some_iff.mp h
      refine ⟨?_, ?_⟩
      · exact fkResolves_of_pushFkBounds (fun s hs => hscans s (List.mem_append_left _ hs)) hp
          fun s hs => hps' s (List.mem_append_left _ hs)
      · exact fkResolves_of_pushFkBoundsList (fun s hs => hscans s (List.mem_append_right _ hs)) hps
          fun s hs => hps' s (List.mem_append_right _ hs)

end

/-- Scans that build, under pushes whose literals convert. -/
theorem keptBy_builds : KeptBy W W.Builds (Pushable W) where
  builds _ hs := hs
  congr _ _ _ _ hsame h := (pushable_of_skeleton hsame).mp h
  push _ _ _ hs h := builds_pushed.mpr ⟨hs, h⟩

/-- Scans that execute, under pushes that the files take. -/
theorem keptBy_runs (hW : W.PrunesMore) :
    KeptBy W W.Runs fun s factKey c => Pushable W s factKey c ∧ Comparable W s factKey c where
  builds _ hs := hs.1
  congr _ _ _ _ hsame h := ⟨(pushable_of_skeleton hsame).mp h.1, (comparable_of_skeleton hsame).mp h.2⟩
  push _ _ _ hs h := runs_pushed hW hs h.1 h.2

end

mutual

/-- What holds at every join by two accounts. -/
theorem AtJoins.imp₂ {P Q R : ExecutionPlan → ExecutionPlan → HashJoin → Prop}
    (h : ∀ l r j, P l r j → Q l r j → R l r j) : ∀ {p : ExecutionPlan}, AtJoins P p → AtJoins Q p →
      AtJoins R p
  | .scan _, _, _ => trivial
  | .hashJoin l r j, hp, hq =>
      ⟨AtJoins.imp₂ h hp.1 hq.1, AtJoins.imp₂ h hp.2.1 hq.2.1, h l r j hp.2.2 hq.2.2⟩
  | .projection i _, hp, hq | .filter i _, hp, hq | .limit i _ _, hp, hq | .aggregate i _ _, hp, hq
  | .wrapper _ i, hp, hq => AtJoins.imp₂ h (p := i) hp hq
  | .union is, hp, hq | .other _ _ is, hp, hq => AtJoinsList.imp₂ h (l := is) hp hq

theorem AtJoinsList.imp₂ {P Q R : ExecutionPlan → ExecutionPlan → HashJoin → Prop}
    (h : ∀ l r j, P l r j → Q l r j → R l r j) : ∀ {l : List ExecutionPlan}, AtJoinsList P l →
      AtJoinsList Q l → AtJoinsList R l
  | [], _, _ => trivial
  | _ :: _, hp, hq => ⟨AtJoins.imp₂ h hp.1 hq.1, AtJoinsList.imp₂ h hp.2 hq.2⟩

end

/-- No text is a number here. -/
def noParsers : TextParsers where
  bool := fun _ => none
  i128 := fun _ => none
  timestamp := fun _ => none
  timestamptz := fun _ => none

/-- A schema of one nullable column. -/
def oneColumn (name : String) (t : PrimitiveType) : Schema where
  fields := [{ name := name, fieldType := .primitive t, required := false }]
  nested := []

/-- Tables 1 and 3 are dimensions with an integer and a text key, the others have an integer `fk`; every
column of a file has an index. -/
def keyWarehouse : Warehouse where
  parsers := noParsers
  schema := fun table _ => some <|
    if table.uuid = 1 then oneColumn "k" .long
    else if table.uuid = 3 then oneColumn "k" .string
    else oneColumn "fk" .long
  current := plainEngine.current
  present := fun _ _ => true
  rowGroups := fun _ => [⟨fun _ => .supported⟩]
  prunesFile := fun b _ => b == .alwaysFalse
  prunesRowGroup := fun b _ => b == .alwaysFalse

theorem keyWarehouse_prunesMore : keyWarehouse.PrunesMore := by
  have hmore : ∀ bs bs' : List BoundPredicate, bs ⊆ bs' →
      (BoundPredicate.conjoin bs == .alwaysFalse) = true →
        (BoundPredicate.conjoin bs' == .alwaysFalse) = true := by
    intro bs bs' hsub h
    rw [beq_iff_eq, BoundPredicate.conjoin_eq_alwaysFalse] at h ⊢
    exact hsub h
  exact ⟨fun bs bs' _ => hmore bs bs', fun bs bs' _ => hmore bs bs'⟩

/-- The key column of a dimension, as it is stored. -/
def readKeys (ty : ArrowType) : IcebergTableScan → String → Option PlanTimeRead := fun dim key =>
  some ⟨dim.files.map DataFile.task, [(readRows (fun _ _ => false) dim).map fun row => row key], ty, id⟩

/-- Nothing is memoised. -/
def noMemo : IcebergTableScan → String → ConstraintCache := fun _ _ _ => none

/-- The rule in a fresh process. -/
def freshPush (ty : ArrowType) : ExecutionPlan → Option ExecutionPlan :=
  pushFkBounds (computeConstraint keyWarehouse (fun _ => "") noMemo (readKeys ty))

/-- A column of a file whose columns are all indexed. -/
theorem keyWarehouse_columnReads {f : DataFile} {r : FieldRef} (h : r.topLevel = true) :
    ColumnReads keyWarehouse f r := by
  refine fun _ => ⟨h, fun g hg => ?_⟩
  obtain rfl := List.mem_singleton.mp hg
  rfl

/-- A nullable top-level column. -/
def keyField (t : PrimitiveType) : FieldRef := ⟨true, ⟨"k", .primitive t, false⟩, true⟩

theorem keyWarehouse_runs_dimScan : keyWarehouse.Runs dimScan := by
  refine ⟨⟨_, rfl⟩, ?_⟩
  intro ctx b hbuild hpredicate f _
  obtain rfl := Option.some.inj (Except.ok.inj hbuild)
  obtain rfl := Option.some.inj hpredicate
  have htakes : keyWarehouse.Takes (.binary .greaterThan (keyField .long) (.datum (.long 0))) f :=
    takes_binary (keyWarehouse_columnReads rfl) .greaterThan rfl
  exact .inr ⟨htakes.rowFilter, fun g hg => .inr (htakes.rowSelection g hg)⟩

/-- A filtered dimension whose only key is a text. -/
def textDimScan : IcebergTableScan := keyScan (keyTable 3 [strKey "x"]) (stringKeyIn ["x"])

theorem keyWarehouse_runs_textDimScan : keyWarehouse.Runs textDimScan := by
  refine ⟨⟨_, rfl⟩, ?_⟩
  intro ctx b hbuild hpredicate f _
  obtain rfl := Option.some.inj (Except.ok.inj hbuild)
  obtain rfl := Option.some.inj hpredicate
  have htakes : keyWarehouse.Takes (.binary .eq (keyField .string) (.datum (.string "x"))) f :=
    takes_binary (keyWarehouse_columnReads rfl) .eq rfl
  exact .inr ⟨htakes.rowFilter, fun g hg => .inr (htakes.rowSelection g hg)⟩

theorem keyWarehouse_runs_factScan : keyWarehouse.Runs factScan := by
  refine ⟨⟨_, rfl⟩, ?_⟩
  intro ctx b hbuild hpredicate
  obtain rfl := Option.some.inj (Except.ok.inj hbuild)
  cases hpredicate

/-- The dimension under a projection that renames its key, as in `SELECT k AS dk`. -/
def renamedJoin : ExecutionPlan :=
  .hashJoin (.projection (.scan dimScan) [(.column ⟨"k", 0⟩, "dk")]) (.scan factScan)
    { keyJoin .inner with on := [(.column ⟨"dk", 0⟩, .column ⟨"fk", 0⟩)] }

/-- A text key joined with an integer one through `CAST(fk AS TEXT) AS fk`. -/
def castJoin (fact : IcebergTableScan) : ExecutionPlan :=
  .hashJoin (.scan textDimScan)
    (.projection (.scan fact) [(.other "CAST" [.column ⟨"fk", 0⟩], "fk")]) (keyJoin .inner)

theorem runs_of_two {s s' : IcebergTableScan} (hs : keyWarehouse.Runs s) (hs' : keyWarehouse.Runs s') :
    ∀ t ∈ [s, s'], keyWarehouse.Runs t := by
  simp [hs, hs']

/-- The one push of the join on `k = fk`. -/
theorem pushes_dimFactJoin {G : IcebergTableScan → String → JoinKeyConstraint → Prop}
    (h : G factScan "fk" (.range (.long 1) (.long 1))) :
    Pushes keyWarehouse (fun _ => "") noMemo (readKeys .int64) G (.scan dimScan) (.scan factScan)
      (keyJoin .inner) := by
  intro dim dimKey factKey c hkeys hc s hs hlarge _
  have hkeys' : some (dimScan, "k", "fk") = some (dim, dimKey, factKey) := hkeys
  cases hkeys'
  have hc' : some (some (JoinKeyConstraint.range (.long 1) (.long 1))) = some (some c) := hc
  cases hc'
  rcases List.mem_cons.mp hs with rfl | hs
  · cases hlarge
  · obtain rfl := List.mem_singleton.mp hs
    exact h

end IcebergDb.Plan
