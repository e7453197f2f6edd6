import IcebergDb.Foundation.Text
import IcebergDb.Expr.Binding
import IcebergDb.Expr.ExprToPredicate
import Mathlib.Data.List.Forall2
import Mathlib.Data.List.FinRange

/-!
# Case-insensitive tables

`case_insensitive.rs`: a table whose columns are offered in lower case, over a table that has them as
they were written.

* `lowercaseSchema` — the schema that queries are planned against;
* `CaseInsensitiveTable.scan` — the inner scan, with its output renamed by `rename_output_columns`;
* the renaming pairs the output with the *whole* schema by position and gives up when the lengths
  differ.  So every column carries the right data, and the names are right exactly when a full-length
  projection exchanges only columns of one lowercase name, or a shorter (longer) one selects columns that
  are lowercase already (`scan_eq_projected_iff`);
* the filters go to the inner scan as they are, with lowercase names, and the inner scan binds
  case-sensitively.  So a column that a filter passes on is found exactly when its own name is lowercase
  already (`scanPredicate_names_iff`).
-/

namespace IcebergDb.Sql

open IcebergDb.Text IcebergDb.Expr

section

variable {τ φ δ : Type}

/-- `Field`, over any data types `τ`. -/
structure Field (τ : Type) where
  name : String
  dataType : τ
  nullable : Bool
  metadata : List (String × String)
deriving DecidableEq

/-- `lowercase_schema`. -/
def lowercaseSchema (schema : List (Field τ)) : List (Field τ) :=
  schema.map fun field => { field with name := toAsciiLowercase field.name }

/-- An output column of a plan: its field, and the data it carries. -/
structure OutputColumn (τ δ : Type) where
  field : Field τ
  data : δ
deriving DecidableEq

/-- An execution plan, as far as its output columns go. -/
abbrev ExecutionPlan (τ δ : Type) := List (OutputColumn τ δ)

/-- The column under a new name. -/
def OutputColumn.rename (out : OutputColumn τ δ) (name : String) : OutputColumn τ δ :=
  { out with field := { out.field with name := name } }

/-- `ProjectionExec::try_new` for columns: each is read at its index, which must be one of the input's,
and named by its alias. -/
def projectionExec (plan : ExecutionPlan τ δ) : List (Column × String) → Option (ExecutionPlan τ δ)
  | [] => some []
  | (column, name) :: exprs =>
      match plan[column.index]? with
      | none => none
      | some out => (projectionExec plan exprs).map (out.rename name :: ·)

/-- `rename_output_columns`. -/
def renameOutputColumns (plan : ExecutionPlan τ δ) (targetSchema : List (Field τ)) :
    Option (ExecutionPlan τ δ) :=
  let planSchema := plan.map OutputColumn.field
  if planSchema.length ≠ targetSchema.length then some plan
  else
    let pairs := planSchema.zip targetSchema
    let needsRename := pairs.any fun (src, dst) => src.name != dst.name
    if !needsRename then some plan
    else projectionExec plan
      (pairs.zipIdx.map fun ((src, dst), index) => (⟨src.name, index⟩, dst.name))

/-- A table provider: its schema, and the data of each column once the filters and the limit have been
applied. -/
structure InnerTable (τ φ δ : Type) where
  schema : List (Field τ)
  column : List φ → Option ℕ → Fin schema.length → δ

variable (table : InnerTable τ φ δ)

/-- The columns a projection selects; all of them if there is none. -/
def InnerTable.selected (projection : Option (List (Fin table.schema.length))) :
    List (Fin table.schema.length) :=
  projection.getD (List.finRange table.schema.length)

/-- `inner.scan`: the selected columns in order, under their own names. -/
def InnerTable.scan (projection : Option (List (Fin table.schema.length))) (filters : List φ)
    (limit : Option ℕ) : ExecutionPlan τ δ :=
  (table.selected projection).map fun i => ⟨table.schema.get i, table.column filters limit i⟩

/-- `CaseInsensitiveTable`: the inner table, with `schema` its lowercased schema. -/
structure CaseInsensitiveTable (τ φ δ : Type) where
  inner : InnerTable τ φ δ

/-- `CaseInsensitiveTable::schema`. -/
def CaseInsensitiveTable.schema (t : CaseInsensitiveTable τ φ δ) : List (Field τ) :=
  lowercaseSchema t.inner.schema

/-- `CaseInsensitiveTable::scan`. -/
def CaseInsensitiveTable.scan (t : CaseInsensitiveTable τ φ δ)
    (projection : Option (List (Fin t.inner.schema.length))) (filters : List φ) (limit : Option ℕ) :
    Option (ExecutionPlan τ δ) :=
  renameOutputColumns (t.inner.scan projection filters limit) t.schema

theorem CaseInsensitiveTable.length_schema (t : CaseInsensitiveTable τ φ δ) :
    t.schema.length = t.inner.schema.length :=
  List.length_map _

/-- What a query expects: one column per selected index, with its data and its field of `schema()`. -/
def CaseInsensitiveTable.projected (t : CaseInsensitiveTable τ φ δ)
    (projection : Option (List (Fin t.inner.schema.length))) (filters : List φ) (limit : Option ℕ) :
    ExecutionPlan τ δ :=
  (t.inner.selected projection).map fun i =>
    ⟨t.schema.get (i.cast t.length_schema.symm), t.inner.column filters limit i⟩

end

section

variable {τ φ δ : Type}

/-! ### What the renaming does -/

theorem projectionExec_eq_some {plan outs : ExecutionPlan τ δ} {exprs : List (Column × String)}
    (h : List.Forall₂ (fun e out => ∃ src, plan[e.1.index]? = some src ∧ out = src.rename e.2)
      exprs outs) : projectionExec plan exprs = some outs := by
  induction h with
  | nil => rfl
  | @cons e out exprs outs hsrc _ ih =>
      obtain ⟨src, hget, rfl⟩ := hsrc
      simp only [projectionExec, hget, ih, Option.map_some]

/-- **On equal lengths** every column takes the name at its position, needed or not. -/
theorem renameOutputColumns_of_length_eq {plan : ExecutionPlan τ δ} {target : List (Field τ)}
    (h : plan.length = target.length) :
    renameOutputColumns plan target =
      some (List.zipWith (fun out dst => out.rename dst.name) plan target) := by
  unfold renameOutputColumns
  rw [if_neg (by simpa using h)]
  simp only
  split
  · rename_i hsame
    simp only [Bool.not_eq_true', List.any_eq_false] at hsame
    refine congrArg some (List.ext_getElem (by simp [h]) ?_)
    intro i hi hi'
    -- no pair differs, so the name at each position is the one it is given
    have hpair : (plan[i].field, target[i]) ∈ (plan.map OutputColumn.field).zip target := by
      refine List.mem_iff_getElem.mpr ⟨i, by simp [h]; omega, ?_⟩
      simp
    have hname : plan[i].field.name = target[i].name := by
      simpa using hsame _ hpair
    rw [List.getElem_zipWith]
    unfold OutputColumn.rename
    rw [← hname]
  · refine projectionExec_eq_some (List.forall₂_iff_get.mpr ⟨by simp, ?_⟩)
    intro i hi hi'
    have hplan : i < plan.length := by
      simp at hi'
      omega
    refine ⟨plan[i], ?_, ?_⟩
    · simp [hplan]
    · simp

/-- On other lengths the plan is returned as it is. -/
theorem renameOutputColumns_of_length_ne {plan : ExecutionPlan τ δ} {target : List (Field τ)}
    (h : plan.length ≠ target.length) : renameOutputColumns plan target = some plan := by
  unfold renameOutputColumns
  rw [if_pos (by simpa using h)]

/-! ### The names of the output -/

/-- The lowercase name of a column. -/
def InnerTable.lowerName (table : InnerTable τ φ δ) (i : Fin table.schema.length) : String :=
  toAsciiLowercase (table.schema.get i).name

/-- Where the names come out right: a full-length projection puts at each position a column with the
lowercase name of that position, any other one selects lowercase names only. -/
def NamesKept (table : InnerTable τ φ δ) (selected : List (Fin table.schema.length)) : Prop :=
  (selected.length = table.schema.length ∧
      ∀ (i : Fin table.schema.length) (h : i < selected.length),
        table.lowerName selected[i] = table.lowerName i) ∨
    (selected.length ≠ table.schema.length ∧
      ∀ i ∈ selected, table.lowerName i = (table.schema.get i).name)

theorem OutputColumn.rename_inj (out : OutputColumn τ δ) (m n : String) :
    out.rename m = out.rename n ↔ m = n := by
  constructor
  · intro h
    exact congrArg (fun o => o.field.name) h
  · intro h
    rw [h]

theorem OutputColumn.eq_rename_iff (out : OutputColumn τ δ) (n : String) :
    out = out.rename n ↔ n = out.field.name :=
  (out.rename_inj out.field.name n).trans eq_comm

/-- The expected columns are the inner ones, renamed. -/
theorem CaseInsensitiveTable.projected_eq (t : CaseInsensitiveTable τ φ δ)
    (projection : Option (List (Fin t.inner.schema.length))) (filters : List φ) (limit : Option ℕ) :
    t.projected projection filters limit = (t.inner.selected projection).map fun i =>
      (⟨t.inner.schema.get i, t.inner.column filters limit i⟩ : OutputColumn τ δ).rename
        (t.inner.lowerName i) := by
  refine List.map_congr_left ?_
  intro i _
  simp only [CaseInsensitiveTable.schema, lowercaseSchema, OutputColumn.rename, InnerTable.lowerName,
    List.get_eq_getElem, List.getElem_map]
  rfl

theorem CaseInsensitiveTable.length_inner_scan (t : CaseInsensitiveTable τ φ δ)
    (projection : Option (List (Fin t.inner.schema.length))) (filters : List φ) (limit : Option ℕ) :
    (t.inner.scan projection filters limit).length = (t.inner.selected projection).length :=
  List.length_map _

/-- At full length position `i` is named after column `i` of the table. -/
theorem scan_eq_projected_of_full (t : CaseInsensitiveTable τ φ δ)
    {projection : Option (List (Fin t.inner.schema.length))} {filters : List φ} {limit : Option ℕ}
    (hfull : (t.inner.selected projection).length = t.inner.schema.length) :
    t.scan projection filters limit = some (t.projected projection filters limit) ↔
      ∀ (i : Fin t.inner.schema.length) (h : i < (t.inner.selected projection).length),
        t.inner.lowerName (t.inner.selected projection)[i] = t.inner.lowerName i := by
  have hlength := t.length_inner_scan projection filters limit
  unfold CaseInsensitiveTable.scan
  rw [t.projected_eq, renameOutputColumns_of_length_eq (by rw [hlength, t.length_schema, hfull]),
    Option.some.injEq]
  have hat : ∀ (i : ℕ) (h : i < (List.zipWith (fun out dst => out.rename dst.name)
      (t.inner.scan projection filters limit) t.schema).length) (h' : i < t.inner.schema.length)
      (h'' : i < (t.inner.selected projection).length),
      (List.zipWith (fun out dst => out.rename dst.name)
        (t.inner.scan projection filters limit) t.schema)[i] =
      (⟨t.inner.schema.get (t.inner.selected projection)[i],
        t.inner.column filters limit (t.inner.selected projection)[i]⟩ : OutputColumn τ δ).rename
          (t.inner.lowerName ⟨i, h'⟩) := by
    intro i h h' h''
    simp only [List.getElem_zipWith, InnerTable.scan, List.getElem_map, CaseInsensitiveTable.schema,
      lowercaseSchema, InnerTable.lowerName, List.get_eq_getElem]
  constructor
  · intro h i hi
    have hlen : i.val < (List.zipWith (fun out dst => out.rename dst.name)
        (t.inner.scan projection filters limit) t.schema).length := by
      rw [h, List.length_map]
      exact hi
    have heq := (List.ext_getElem_iff.mp h).2 i hlen (by rw [List.length_map]; exact hi)
    rw [hat i hlen i.isLt hi, List.getElem_map, OutputColumn.rename_inj] at heq
    exact heq.symm
  · intro hnames
    refine List.ext_getElem ?_ ?_
    · rw [List.length_zipWith, List.length_map, hlength, t.length_schema, hfull, min_self]
    · intro i hi hi'
      have hsel : i < (t.inner.selected projection).length := by
        rw [List.length_map] at hi'
        exact hi'
      rw [hat i hi (by omega) hsel, List.getElem_map, OutputColumn.rename_inj]
      exact (hnames ⟨i, by omega⟩ hsel).symm

/-- At any other length the columns keep the names that they have in the table. -/
theorem scan_eq_projected_of_other (t : CaseInsensitiveTable τ φ δ)
    {projection : Option (List (Fin t.inner.schema.length))} {filters : List φ} {limit : Option ℕ}
    (hother : (t.inner.selected projection).length ≠ t.inner.schema.length) :
    t.scan projection filters limit = some (t.projected projection filters limit) ↔
      ∀ i ∈ t.inner.selected projection, t.inner.lowerName i = (t.inner.schema.get i).name := by
  have hlength := t.length_inner_scan projection filters limit
  unfold CaseInsensitiveTable.scan
  rw [t.projected_eq, renameOutputColumns_of_length_ne (by rw [hlength, t.length_schema]; exact hother),
    Option.some.injEq]
  unfold InnerTable.scan
  rw [List.map_inj_left]
  simp only [OutputColumn.eq_rename_iff]

/-- **Output naming.**  The scan returns the selected columns under their names of `schema()` exactly when
`NamesKept`. -/
theorem scan_eq_projected_iff (t : CaseInsensitiveTable τ φ δ)
    (projection : Option (List (Fin t.inner.schema.length))) (filters : List φ) (limit : Option ℕ) :
    t.scan projection filters limit = some (t.projected projection filters limit) ↔
      NamesKept t.inner (t.inner.selected projection) := by
  unfold NamesKept
  by_cases hfull : (t.inner.selected projection).length = t.inner.schema.length
  · rw [scan_eq_projected_of_full t hfull]
    constructor
    · intro h
      exact .inl ⟨hfull, h⟩
    · intro h
      exact (h.resolve_right fun hother => hother.1 hfull).2
  · rw [scan_eq_projected_of_other t hfull]
    constructor
    · intro h
      exact .inr ⟨hfull, h⟩
    · intro h
      exact (h.resolve_left fun hsame => hfull hsame.1).2

/-- **The data is always right**: the scan succeeds with one column per selected index, in order. -/
theorem exists_scan_data (t : CaseInsensitiveTable τ φ δ)
    (projection : Option (List (Fin t.inner.schema.length))) (filters : List φ) (limit : Option ℕ) :
    ∃ plan, t.scan projection filters limit = some plan ∧
      plan.map OutputColumn.data = (t.inner.selected projection).map (t.inner.column filters limit) := by
  unfold CaseInsensitiveTable.scan
  by_cases hlen : (t.inner.scan projection filters limit).length = t.schema.length
  · refine ⟨_, renameOutputColumns_of_length_eq hlen, ?_⟩
    have hdata : ∀ (plan : ExecutionPlan τ δ) (target : List (Field τ)), plan.length = target.length →
        (List.zipWith (fun out dst => out.rename dst.name) plan target).map OutputColumn.data =
          plan.map OutputColumn.data := by
      intro plan
      induction plan with
      | nil => simp
      | cons out plan ih =>
          intro target h
          cases target with
          | nil => cases h
          | cons dst target =>
              rw [List.zipWith_cons_cons, List.map_cons, ih target (Nat.succ.inj h)]
              rfl
    rw [hdata _ _ hlen]
    simp [InnerTable.scan]
  · exact ⟨_, renameOutputColumns_of_length_ne hlen, by simp [InnerTable.scan]⟩

end

/-! ### A table with one upper-case name -/

/-- Two columns, `Id` and `name`, whose data are their positions. -/
def idNameTable : CaseInsensitiveTable Unit Unit ℕ :=
  ⟨⟨[⟨"Id", (), true, []⟩, ⟨"name", (), true, []⟩], fun _ _ i => i⟩⟩

/-- Its first column, and its second. -/
def idColumn : Fin idNameTable.inner.schema.length := ⟨0, by decide⟩

def nameColumn : Fin idNameTable.inner.schema.length := ⟨1, by decide⟩

/-- Selecting one column leaves it with its upper-case name, and exchanging the two columns exchanges
their names: `id` carries the data of `name`. -/
theorem exists_misnamed_column :
    idNameTable.scan (some [idColumn]) [] none = some [⟨⟨"Id", (), true, []⟩, 0⟩] ∧
      idNameTable.projected (some [idColumn]) [] none = [⟨⟨"id", (), true, []⟩, 0⟩] ∧
      idNameTable.scan (some [nameColumn, idColumn]) [] none =
        some [⟨⟨"id", (), true, []⟩, 1⟩, ⟨⟨"name", (), true, []⟩, 0⟩] ∧
      idNameTable.projected (some [nameColumn, idColumn]) [] none =
        [⟨⟨"name", (), true, []⟩, 1⟩, ⟨⟨"id", (), true, []⟩, 0⟩] ∧
      idNameTable.scan (some [idColumn]) [] none ≠
        some (idNameTable.projected (some [idColumn]) [] none) ∧
      idNameTable.scan (some [nameColumn, idColumn]) [] none ≠
        some (idNameTable.projected (some [nameColumn, idColumn]) [] none) := by
  decide

/-! ### Filters over an Iceberg table -/

/-- The column names of `CaseInsensitiveTable::schema()` over an Iceberg table. -/
def lowercaseNames (schema : Schema) : List String :=
  schema.fields.map fun field => toAsciiLowercase field.name

/-- The static predicate of the scan: `CaseInsensitiveTable::scan` passes the filters on unchanged and
`IcebergTableScan::new` converts them. -/
def scanPredicate (filters : List LogicalExpr) : Option Predicate := convertFiltersToPredicate filters

/-- The reference names, in the inner schema, a column of the table that lowercases to it. -/
def NamesColumn (schema : Schema) (name : String) : Prop :=
  ∃ r, schema.fieldByName name = some r ∧ r.topLevel = true ∧ toAsciiLowercase r.field.name = name

/-- Every column that the filters pass on is spelled in lower case in the inner schema too. -/
def PushedLowercase (schema : Schema) (filters : List LogicalExpr) : Prop :=
  ∀ e ∈ filters, ∀ c ∈ e.pushedColumns, ∃ field ∈ schema.fields, field.name = c

/-- A lowercase name is found exactly when it is the name of a column. -/
theorem namesColumn_iff {schema : Schema} {name : String} (h : name ∈ lowercaseNames schema) :
    NamesColumn schema name ↔ ∃ field ∈ schema.fields, field.name = name := by
  constructor
  · rintro ⟨r, hfind, htop, -⟩
    unfold Schema.fieldByName at hfind
    split at hfind
    · rename_i f hf
      have hname := List.find?_some hf
      exact ⟨f, List.mem_of_find?_eq_some hf, eq_of_beq hname⟩
    · obtain ⟨_, -, rfl⟩ := Option.map_eq_some_iff.mp hfind
      cases htop
  · rintro ⟨field, hmem, hname⟩
    obtain ⟨own, -, hown⟩ := List.mem_map.mp h
    cases hfind : schema.fields.find? (·.name == name) with
    | none =>
        have := List.find?_eq_none.mp hfind field hmem
        exact absurd (beq_iff_eq.mpr hname) this
    | some f =>
        have hf := List.find?_some hfind
        refine ⟨⟨true, f, f.hasAccessor⟩, by simp only [Schema.fieldByName, hfind], rfl, ?_⟩
        show toAsciiLowercase f.name = name
        rw [eq_of_beq hf, ← hown]
        exact toAsciiLowercase_toAsciiLowercase own.name

/-- **Filters bind** exactly when every column they pass on is spelled in lower case in the inner schema;
and then building the scan never ends with an unknown field. -/
theorem scanPredicate_names_iff (schema : Schema) (filters : List LogicalExpr)
    (hfilters : ∀ e ∈ filters, ∀ c ∈ e.columns, c ∈ lowercaseNames schema) :
    ((∀ p, scanPredicate filters = some p → ∀ c ∈ p.columns, NamesColumn schema c) ↔
        PushedLowercase schema filters) ∧
      (PushedLowercase schema filters → ∀ p, scanPredicate filters = some p →
        ∀ parsers name, p.bind parsers schema ≠ .error (.fieldNotFound name)) := by
  have hiff : (∀ p, scanPredicate filters = some p → ∀ c ∈ p.columns, NamesColumn schema c) ↔
      PushedLowercase schema filters := by
    constructor
    · intro h e he c hc
      obtain ⟨p, hp, hcp⟩ := (mem_columns_convertFiltersToPredicate filters c).mpr ⟨e, he, hc⟩
      exact (namesColumn_iff (hfilters e he c (e.pushedColumns_subset c hc))).mp (h p hp c hcp)
    · intro h p hp c hcp
      obtain ⟨e, he, hc⟩ := (mem_columns_convertFiltersToPredicate filters c).mp ⟨p, hp, hcp⟩
      exact (namesColumn_iff (hfilters e he c (e.pushedColumns_subset c hc))).mpr (h e he c hc)
  refine ⟨hiff, ?_⟩
  intro h p hp parsers name herr
  obtain ⟨hmem, hnone⟩ := bind_fieldNotFound herr
  obtain ⟨r, hr, -⟩ := hiff.mpr h p hp name hmem
  rw [hr] at hnone
  cases hnone

/-- A table with the columns `Id` and `name`. -/
def idNameSchema : Schema :=
  ⟨[⟨"Id", .primitive .long, true⟩, ⟨"name", .primitive .string, false⟩], []⟩

/-- The filter `column = 5`. -/
def equalsFive (column : String) : LogicalExpr :=
  .binary (.column column) .eq (.literal (.int64 (some 5)))

/-- `name IS NOT NULL` binds: `name` is spelled so. -/
theorem scanPredicate_names_lowercase :
    PushedLowercase idNameSchema [.isNotNull (.column "name")] ∧
      ∀ p, scanPredicate [.isNotNull (.column "name")] = some p → ∀ c ∈ p.columns,
        NamesColumn idNameSchema c := by
  have hcols : ∀ e ∈ [LogicalExpr.isNotNull (.column "name")], ∀ c ∈ e.columns,
      c ∈ lowercaseNames idNameSchema := by decide
  have hpushed : PushedLowercase idNameSchema [.isNotNull (.column "name")] := by
    intro e he c hc
    obtain rfl := List.mem_singleton.mp he
    exact ⟨_, .tail _ (.head _), (List.mem_singleton.mp hc).symm⟩
  exact ⟨hpushed, (scanPredicate_names_iff idNameSchema _ hcols).1.mpr hpushed⟩

/-- `id = 5` over a column that is called `Id`: the scan cannot be built. -/
theorem exists_unbound_filter :
    (∀ c ∈ (equalsFive "id").columns, c ∈ lowercaseNames idNameSchema) ∧
      scanPredicate [equalsFive "id"] = some (.binary .eq "id" (.long 5)) ∧
      ¬ NamesColumn idNameSchema "id" ∧
      ∀ parsers, (Predicate.binary .eq "id" (.long 5)).bind parsers idNameSchema =
        .error (.fieldNotFound "id") := by
  refine ⟨by decide, by decide, ?_, fun _ => rfl⟩
  rintro ⟨r, hr, -⟩
  have hnone : idNameSchema.fieldByName "id" = none := by decide
  rw [hnone] at hr
  cases hr

end IcebergDb.Sql
