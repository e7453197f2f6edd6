import IcebergDb.Foundation.Picking
import IcebergDb.Sql.CaseInsensitive

/-!
# Resolving the names of schemas and tables

`case_insensitive.rs`: a catalog that finds a name that is not there exactly up to ASCII case.

* `SchemaProvider`, `CatalogProvider` — the inner providers: what they list, in some order, and what they answer;
* `resolveSchemaName` — the first listed name that fits; `CaseInsensitiveSchema.resolveTableName` — the last one,
  which the map from lowercase names has kept;
* `SchemaResolved`, `TableResolved` — exact names win, a name that fits one listed name only is that name, one that
  fits none is not found, and all operations agree;
* `SchemaOrderFree`, `TableOrderFree` — the order of the listing does not matter;
* `nameResolution` — **the former always holds, and the latter exactly for a name that is there, or that fits at most
  one listed name.**
-/

namespace IcebergDb.Sql

open IcebergDb.Text IcebergDb.Picking

section

variable {τ φ δ ε : Type}

/-! ### The source -/

/-- `SchemaProvider`, in one state. -/
structure SchemaProvider (τ φ δ ε : Type) where
  tableNames : List String
  tableExist : String → Bool
  table : String → Except ε (Option (InnerTable τ φ δ))
  deregisterTable : String → Except ε (Option (InnerTable τ φ δ))

/-- `CatalogProvider`, in one state. -/
structure CatalogProvider (τ φ δ ε : Type) where
  schemaNames : List String
  schema : String → Option (SchemaProvider τ φ δ ε)

/-- `resolve_schema_name`. -/
def resolveSchemaName (inner : CatalogProvider τ φ δ ε) (name : String) : Option String :=
  if (inner.schema name).isSome then some name
  else inner.schemaNames.find? fun n => eqIgnoreAsciiCase n name

/-- `CaseInsensitiveSchema`: the map has the listed names under their lowercase forms. -/
structure CaseInsensitiveSchema (τ φ δ ε : Type) where
  inner : SchemaProvider τ φ δ ε
  tableNames : String → Option String

namespace CaseInsensitiveSchema

/-- `CaseInsensitiveSchema::new`. -/
def new (inner : SchemaProvider τ φ δ ε) : CaseInsensitiveSchema τ φ δ ε :=
  ⟨inner, collect toAsciiLowercase inner.tableNames⟩

variable (s : CaseInsensitiveSchema τ φ δ ε)

/-- `resolve_table_name`. -/
def resolveTableName (name : String) : Option String :=
  if s.inner.tableExist name then some name else s.tableNames (toAsciiLowercase name)

/-- `table_exist`. -/
def tableExist (name : String) : Bool := (s.resolveTableName name).isSome

/-- `table`. -/
def table (name : String) : Except ε (Option (CaseInsensitiveTable τ φ δ)) :=
  match s.resolveTableName name with
  | none => .ok none
  | some resolved => (s.inner.table resolved).map (Option.map CaseInsensitiveTable.mk)

/-- `deregister_table`. -/
def deregisterTable (name : String) : Except ε (Option (InnerTable τ φ δ)) :=
  match s.resolveTableName name with
  | none => .ok none
  | some resolved => s.inner.deregisterTable resolved

end CaseInsensitiveSchema

/-- `CaseInsensitiveCatalog::schema`. -/
def caseInsensitiveSchema (inner : CatalogProvider τ φ δ ε) (name : String) :
    Option (CaseInsensitiveSchema τ φ δ ε) := do
  let resolved ← resolveSchemaName inner name
  let schema ← inner.schema resolved
  return .new schema

/-! ### Resolution -/

/-- The listed name is the requested one, up to ASCII case. -/
def Fits (name listed : String) : Prop := toAsciiLowercase listed = toAsciiLowercase name

/-- The listing of a catalog in another order. -/
def CatalogProvider.listedAs (c : CatalogProvider τ φ δ ε) (names : List String) : CatalogProvider τ φ δ ε :=
  { c with schemaNames := names }

/-- The listing of a schema in another order. -/
def SchemaProvider.listedAs (p : SchemaProvider τ φ δ ε) (names : List String) : SchemaProvider τ φ δ ε :=
  { p with tableNames := names }

/-- What a schema name stands for. -/
structure SchemaResolved (c : CatalogProvider τ φ δ ε) (name : String) : Prop where
  exact : ∀ p, c.schema name = some p →
    resolveSchemaName c name = some name ∧ caseInsensitiveSchema c name = some (.new p)
  unique : c.schema name = none → ∀ m ∈ c.schemaNames, Fits name m → (∀ n ∈ c.schemaNames, Fits name n → n = m) →
    resolveSchemaName c name = some m ∧ caseInsensitiveSchema c name = (c.schema m).map .new
  missing : c.schema name = none → (∀ n ∈ c.schemaNames, ¬ Fits name n) →
    resolveSchemaName c name = none ∧ caseInsensitiveSchema c name = none

/-- What a schema name stands for does not depend on the order of the listing. -/
def SchemaOrderFree (c : CatalogProvider τ φ δ ε) (name : String) : Prop :=
  ∀ l₁ l₂ : List String, l₁.Perm c.schemaNames → l₂.Perm c.schemaNames →
    resolveSchemaName (c.listedAs l₁) name = resolveSchemaName (c.listedAs l₂) name ∧
      caseInsensitiveSchema (c.listedAs l₁) name = caseInsensitiveSchema (c.listedAs l₂) name

/-- A schema that does what DataFusion asks of one: the listed tables exist, and all operations agree on which tables
exist. -/
structure SchemaProvider.Lawful (p : SchemaProvider τ φ δ ε) : Prop where
  listed : ∀ n ∈ p.tableNames, p.tableExist n = true
  table : ∀ n, p.table n = .ok none ↔ p.tableExist n = false
  deregisterTable : ∀ n, p.deregisterTable n = .ok none ↔ p.tableExist n = false

/-- The operations agree on a name: all of them find nothing, or all of them pass on one name. -/
structure OperationsAgree (p : SchemaProvider τ φ δ ε) (name : String) : Prop where
  found : ∀ m, (CaseInsensitiveSchema.new p).resolveTableName name = some m →
    (CaseInsensitiveSchema.new p).tableExist name = true ∧
      (CaseInsensitiveSchema.new p).table name = (p.table m).map (Option.map CaseInsensitiveTable.mk) ∧
      (CaseInsensitiveSchema.new p).deregisterTable name = p.deregisterTable m
  missing : (CaseInsensitiveSchema.new p).resolveTableName name = none →
    (CaseInsensitiveSchema.new p).tableExist name = false ∧ (CaseInsensitiveSchema.new p).table name = .ok none ∧
      (CaseInsensitiveSchema.new p).deregisterTable name = .ok none
  lawful : p.Lawful →
    ((CaseInsensitiveSchema.new p).table name = .ok none ↔
        (CaseInsensitiveSchema.new p).tableExist name = false) ∧
      ((CaseInsensitiveSchema.new p).deregisterTable name = .ok none ↔
        (CaseInsensitiveSchema.new p).tableExist name = false)

/-- What a table name stands for. -/
structure TableResolved (p : SchemaProvider τ φ δ ε) (name : String) : Prop where
  exact : p.tableExist name = true → (CaseInsensitiveSchema.new p).resolveTableName name = some name
  unique : p.tableExist name = false → ∀ m ∈ p.tableNames, Fits name m →
    (∀ n ∈ p.tableNames, Fits name n → n = m) → (CaseInsensitiveSchema.new p).resolveTableName name = some m
  missing : p.tableExist name = false → (∀ n ∈ p.tableNames, ¬ Fits name n) →
    (CaseInsensitiveSchema.new p).resolveTableName name = none
  agree : OperationsAgree p name

/-- What a table name stands for does not depend on the order of the listing. -/
def TableOrderFree (p : SchemaProvider τ φ δ ε) (name : String) : Prop :=
  ∀ l₁ l₂ : List String, l₁.Perm p.tableNames → l₂.Perm p.tableNames →
    (CaseInsensitiveSchema.new (p.listedAs l₁)).resolveTableName name =
        (CaseInsensitiveSchema.new (p.listedAs l₂)).resolveTableName name ∧
      (CaseInsensitiveSchema.new (p.listedAs l₁)).table name =
        (CaseInsensitiveSchema.new (p.listedAs l₂)).table name

end

section

variable {τ φ δ ε : Type} {c : CatalogProvider τ φ δ ε} {p : SchemaProvider τ φ δ ε} {name m : String}

theorem eqIgnoreAsciiCase_iff (n name : String) : eqIgnoreAsciiCase n name = true ↔ Fits name n := by
  unfold eqIgnoreAsciiCase Fits toAsciiLowercase
  rw [beq_iff_eq, String.ofList_inj]

/-! ### Schemas -/

theorem picks_schema (name : String) :
    Picks (Fits name) (List.find? fun n => eqIgnoreAsciiCase n name) := by
  have h := picks_find fun n => eqIgnoreAsciiCase n name
  simpa only [eqIgnoreAsciiCase_iff] using h

theorem resolveSchemaName_of_some {q : SchemaProvider τ φ δ ε} (h : c.schema name = some q) :
    resolveSchemaName c name = some name := by
  unfold resolveSchemaName
  rw [h]
  rfl

theorem resolveSchemaName_of_none (h : c.schema name = none) :
    resolveSchemaName c name = c.schemaNames.find? fun n => eqIgnoreAsciiCase n name := by
  unfold resolveSchemaName
  rw [h]
  rfl

theorem caseInsensitiveSchema_eq_map (h : resolveSchemaName c name = some m) :
    caseInsensitiveSchema c name = (c.schema m).map .new := by
  unfold caseInsensitiveSchema
  rw [h]
  show (c.schema m).bind _ = _
  rw [Option.map_eq_bind]
  rfl

theorem caseInsensitiveSchema_eq_none (h : resolveSchemaName c name = none) :
    caseInsensitiveSchema c name = none := by
  unfold caseInsensitiveSchema
  rw [h]
  rfl

/-- The schema that is found depends on the listing only through its name. -/
theorem caseInsensitiveSchema_listedAs {l₁ l₂ : List String}
    (h : resolveSchemaName (c.listedAs l₁) name = resolveSchemaName (c.listedAs l₂) name) :
    caseInsensitiveSchema (c.listedAs l₁) name = caseInsensitiveSchema (c.listedAs l₂) name := by
  unfold caseInsensitiveSchema
  rw [h]
  rfl

theorem schemaResolved (c : CatalogProvider τ φ δ ε) (name : String) : SchemaResolved c name where
  exact := by
    intro q hq
    have hresolve := resolveSchemaName_of_some hq
    refine ⟨hresolve, ?_⟩
    rw [caseInsensitiveSchema_eq_map hresolve, hq]
    rfl
  unique := by
    intro hc m hm hfits hunique
    have hresolve : resolveSchemaName c name = some m := by
      rw [resolveSchemaName_of_none hc]
      exact (picks_schema name).eq_some_of_unique hm hfits hunique
    exact ⟨hresolve, caseInsensitiveSchema_eq_map hresolve⟩
  missing := by
    intro hc hnone
    have hresolve : resolveSchemaName c name = none := by
      rw [resolveSchemaName_of_none hc]
      exact (picks_schema name).eq_none hnone
    exact ⟨hresolve, caseInsensitiveSchema_eq_none hresolve⟩

theorem schemaOrderFree_iff :
    SchemaOrderFree c name ↔ (c.schema name).isSome = true ∨ Unambiguous (Fits name) c.schemaNames := by
  constructor
  · intro h
    cases hc : c.schema name with
    | some q => exact .inl rfl
    | none =>
        refine .inr ((picks_schema name).perm_iff.mp fun l₁ l₂ hl₁ hl₂ => ?_)
        have horder := (h l₁ l₂ hl₁ hl₂).1
        rwa [resolveSchemaName_of_none (c := c.listedAs l₁) hc,
          resolveSchemaName_of_none (c := c.listedAs l₂) hc] at horder
  · intro h l₁ l₂ hl₁ hl₂
    have horder : resolveSchemaName (c.listedAs l₁) name = resolveSchemaName (c.listedAs l₂) name := by
      cases hc : c.schema name with
      | some q =>
          rw [resolveSchemaName_of_some (c := c.listedAs l₁) hc, resolveSchemaName_of_some (c := c.listedAs l₂) hc]
      | none =>
          rw [hc] at h
          have hone := h.resolve_left Bool.false_ne_true
          rw [resolveSchemaName_of_none (c := c.listedAs l₁) hc, resolveSchemaName_of_none (c := c.listedAs l₂) hc]
          exact (picks_schema name).perm_iff.mpr hone l₁ l₂ hl₁ hl₂
    exact ⟨horder, caseInsensitiveSchema_listedAs horder⟩

/-! ### Tables -/

theorem resolveTableName_of_exist (h : p.tableExist name = true) :
    (CaseInsensitiveSchema.new p).resolveTableName name = some name := by
  show (if p.tableExist name = true then some name else _) = some name
  rw [if_pos h]

theorem resolveTableName_of_not_exist (h : p.tableExist name = false) :
    (CaseInsensitiveSchema.new p).resolveTableName name =
      collect toAsciiLowercase p.tableNames (toAsciiLowercase name) := by
  show (if p.tableExist name = true then some name else _) = _
  rw [if_neg (by rw [h]; decide)]
  rfl

theorem picks_table (name : String) :
    Picks (Fits name) fun names => collect toAsciiLowercase names (toAsciiLowercase name) :=
  picks_lastWith toAsciiLowercase (toAsciiLowercase name)

/-- A name that is found is there, or is listed. -/
theorem exist_or_mem (h : (CaseInsensitiveSchema.new p).resolveTableName name = some m) :
    p.tableExist m = true ∨ m ∈ p.tableNames := by
  cases hexist : p.tableExist name with
  | true =>
      rw [resolveTableName_of_exist hexist] at h
      cases h
      exact .inl hexist
  | false =>
      rw [resolveTableName_of_not_exist hexist] at h
      exact .inr ((picks_table name).mem h).1

theorem map_eq_ok_none_iff {α β : Type} (f : α → β) (x : Except ε (Option α)) :
    x.map (Option.map f) = .ok none ↔ x = .ok none := by
  cases x with
  | error e => exact ⟨(fun h => by cases h), (fun h => by cases h)⟩
  | ok o =>
      cases o with
      | none => exact ⟨fun _ => rfl, fun _ => rfl⟩
      | some a => exact ⟨(fun h => by cases h), (fun h => by cases h)⟩

theorem operationsAgree (p : SchemaProvider τ φ δ ε) (name : String) : OperationsAgree p name where
  found := by
    intro m h
    unfold CaseInsensitiveSchema.tableExist CaseInsensitiveSchema.table CaseInsensitiveSchema.deregisterTable
    rw [h]
    exact ⟨rfl, rfl, rfl⟩
  missing := by
    intro h
    unfold CaseInsensitiveSchema.tableExist CaseInsensitiveSchema.table CaseInsensitiveSchema.deregisterTable
    rw [h]
    exact ⟨rfl, rfl, rfl⟩
  lawful := by
    intro hp
    unfold CaseInsensitiveSchema.tableExist CaseInsensitiveSchema.table CaseInsensitiveSchema.deregisterTable
    cases h : (CaseInsensitiveSchema.new p).resolveTableName name with
    | none => exact ⟨⟨fun _ => rfl, fun _ => rfl⟩, fun _ => rfl, fun _ => rfl⟩
    | some m =>
        -- the name that is passed on is one of a table
        have hexist : p.tableExist m = true := (exist_or_mem h).elim id (hp.listed m)
        have htable : p.table m ≠ .ok none := by
          rw [Ne, hp.table, hexist]
          decide
        have hderegister : p.deregisterTable m ≠ .ok none := by
          rw [Ne, hp.deregisterTable, hexist]
          decide
        constructor
        · show (p.table m).map (Option.map CaseInsensitiveTable.mk) = .ok none ↔ _
          rw [map_eq_ok_none_iff]
          exact ⟨fun heq => absurd heq htable, fun hfalse => by cases hfalse⟩
        · exact ⟨fun heq => absurd heq hderegister, fun hfalse => by cases hfalse⟩

/-- The table that is found depends on the listing only through its name. -/
theorem table_listedAs {l₁ l₂ : List String}
    (h : (CaseInsensitiveSchema.new (p.listedAs l₁)).resolveTableName name =
      (CaseInsensitiveSchema.new (p.listedAs l₂)).resolveTableName name) :
    (CaseInsensitiveSchema.new (p.listedAs l₁)).table name =
      (CaseInsensitiveSchema.new (p.listedAs l₂)).table name := by
  unfold CaseInsensitiveSchema.table
  rw [h]
  rfl

theorem tableResolved (p : SchemaProvider τ φ δ ε) (name : String) : TableResolved p name where
  exact := resolveTableName_of_exist
  unique := by
    intro hexist m hm hfits hunique
    rw [resolveTableName_of_not_exist hexist]
    exact (picks_table name).eq_some_of_unique hm hfits hunique
  missing := by
    intro hexist hnone
    rw [resolveTableName_of_not_exist hexist]
    exact (picks_table name).eq_none hnone
  agree := operationsAgree p name

theorem tableOrderFree_iff :
    TableOrderFree p name ↔ p.tableExist name = true ∨ Unambiguous (Fits name) p.tableNames := by
  constructor
  · intro h
    cases hexist : p.tableExist name with
    | true => exact .inl rfl
    | false =>
        refine .inr ((picks_table name).perm_iff.mp fun l₁ l₂ hl₁ hl₂ => ?_)
        have horder := (h l₁ l₂ hl₁ hl₂).1
        rwa [resolveTableName_of_not_exist (p := p.listedAs l₁) hexist,
          resolveTableName_of_not_exist (p := p.listedAs l₂) hexist] at horder
  · intro h l₁ l₂ hl₁ hl₂
    have horder : (CaseInsensitiveSchema.new (p.listedAs l₁)).resolveTableName name =
        (CaseInsensitiveSchema.new (p.listedAs l₂)).resolveTableName name := by
      cases hexist : p.tableExist name with
      | true =>
          rw [resolveTableName_of_exist (p := p.listedAs l₁) hexist,
            resolveTableName_of_exist (p := p.listedAs l₂) hexist]
      | false =>
          rw [hexist] at h
          have hone := h.resolve_left Bool.false_ne_true
          rw [resolveTableName_of_not_exist (p := p.listedAs l₁) hexist,
            resolveTableName_of_not_exist (p := p.listedAs l₂) hexist]
          exact (picks_table name).perm_iff.mpr hone l₁ l₂ hl₁ hl₂
    exact ⟨horder, table_listedAs horder⟩

/-! ### Names -/

/-- **Exact names win, names that fit one listed name are that name, names that fit none are not found, and the
operations agree; and the order of the listing does not matter exactly if the name is there or fits at most one
listed name.** -/
theorem nameResolution (c : CatalogProvider τ φ δ ε) (p : SchemaProvider τ φ δ ε) (name : String) :
    (SchemaResolved c name ∧ TableResolved p name) ∧
      (SchemaOrderFree c name ↔ (c.schema name).isSome = true ∨ Unambiguous (Fits name) c.schemaNames) ∧
      (TableOrderFree p name ↔ p.tableExist name = true ∨ Unambiguous (Fits name) p.tableNames) :=
  ⟨⟨schemaResolved c name, tableResolved p name⟩, schemaOrderFree_iff, tableOrderFree_iff⟩

end

/-- A schema with two tables whose names differ in case; a table is its columns. -/
def twoCases : SchemaProvider String Unit Unit String where
  tableNames := ["Orders", "ORDERS"]
  tableExist n := ["Orders", "ORDERS"].contains n
  table n := .ok (if ["Orders", "ORDERS"].contains n then some ⟨[], fun _ _ _ => ()⟩ else none)
  deregisterTable n := .ok (if ["Orders", "ORDERS"].contains n then some ⟨[], fun _ _ _ => ()⟩ else none)

/-- The table that `orders` names depends on the order of the listing. -/
theorem not_tableOrderFree_orders : ¬ TableOrderFree twoCases "orders" := by
  intro h
  have horder := (h ["Orders", "ORDERS"] ["ORDERS", "Orders"] (.refl _) (.swap _ _ _)).1
  exact absurd horder (by decide)

end IcebergDb.Sql
