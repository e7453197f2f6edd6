import IcebergDb.Plan.DimKeyBounds
import IcebergDb.Plan.PhysicalPlan

/-!
# Static bounds on foreign keys

`fk_bound_pushdown.rs` and `join_utils.rs`: in every hash join with a filtered dimension on one side and
a large table somewhere on the other, the keys that the dimension holds become a static predicate on
every large scan below the join that has a column of that name.

* `pushFkBounds` — the rule, with `compute_join_key_constraint` as a parameter that may fail;
* `constraintToPredicate_isTrueOn` — the predicate keeps exactly the rows whose key the constraint admits;
* `JoinSafe` — what makes one push harmless: the key of the dimension side really is the column that was
  summarised, and every narrowed scan either reaches its key of the join, in a join that does not show its
  unmatched rows, or is not below the join at all;
* `pushFkBounds_eval` — **in a plan whose pushes are all safe, the rule keeps the rows.**
-/

namespace IcebergDb.Plan

open IcebergDb.Expr IcebergDb.Scan IcebergDb.Relational

/-! ### The rule -/

/-- The wrappers that `peel_single_input` looks through. -/
def Wrapper.peeled : Wrapper → Bool
  | .repartition | .coalescePartitions | .cooperative => true
  | .coalesceBatches => false

/-- `peel_single_input`. -/
def peelSingleInput : ExecutionPlan → ExecutionPlan
  | .wrapper kind i => if kind.peeled then peelSingleInput i else .wrapper kind i
  | .projection i _ => peelSingleInput i
  | p => p

/-- `as_iceberg_scan`. -/
def asIcebergScan (p : ExecutionPlan) : Option IcebergTableScan :=
  match peelSingleInput p with
  | .scan s => some s
  | _ => none

/-- `direct_dimension_scan`. -/
def directDimensionScan (p : ExecutionPlan) : Option IcebergTableScan :=
  match asIcebergScan p with
  | some scan => if scan.predicates.isNone || scan.isFactLike then none else some scan
  | none => none

mutual

/-- `contains_fact_iceberg_scan`. -/
def containsFactIcebergScan : ExecutionPlan → Bool
  | .scan s => s.isLargeFactTable
  | .hashJoin l r _ => containsFactIcebergScan l || containsFactIcebergScan r
  | .projection i _ | .filter i _ | .limit i _ _ | .aggregate i _ _ | .wrapper _ i =>
      containsFactIcebergScan i
  | .union is | .other _ _ is => anyContainsFact is

/-- Some of the plans contains one. -/
def anyContainsFact : List ExecutionPlan → Bool
  | [] => false
  | p :: ps => containsFactIcebergScan p || anyContainsFact ps

end

/-- The columns of the first `on` pair, if both are plain columns. -/
def joinColumns : List (PhysicalExpr × PhysicalExpr) → Option (Column × Column)
  | (.column l, .column r) :: _ => some (l, r)
  | _ => none

/-- `join_column_names`. -/
def joinColumnNames (on : List (PhysicalExpr × PhysicalExpr)) : Option (String × String) :=
  (joinColumns on).map fun pair => (pair.1.name, pair.2.name)

/-- `resolve_dim_fact_keys`: the dimension scan, its key and the fact side's key. -/
def resolveDimFactKeys (left right : ExecutionPlan) (on : List (PhysicalExpr × PhysicalExpr)) :
    Option (IcebergTableScan × String × String) :=
  match joinColumnNames on with
  | none => none
  | some (leftKey, rightKey) =>
    match directDimensionScan left, containsFactIcebergScan right with
    | some dim, true => some (dim, leftKey, rightKey)
    | _, _ =>
      match directDimensionScan right, containsFactIcebergScan left with
      | some dim, true => some (dim, rightKey, leftKey)
      | _, _ => none

/-- `constraint_to_predicate`. -/
def constraintToPredicate (column : String) : JoinKeyConstraint → Predicate
  | .inList [value] => .binary .eq column value
  | .inList values => .isIn column values
  | .range lo hi =>
      if lo = hi then .binary .eq column lo
      else (Predicate.binary .greaterThanOrEq column lo).and (.binary .lessThanOrEq column hi)

/-- `scan_has_column`. -/
def scanHasColumn (scan : IcebergTableScan) (column : String) : Bool :=
  scan.tableSchema.any fun field => field == column

/-- `apply_predicate_to_fact_scans` at a scan. -/
def narrowFactScan (pred : Predicate) (factColumn : String) (scan : IcebergTableScan) :
    IcebergTableScan :=
  if scan.isLargeFactTable && scanHasColumn scan factColumn then
    scan.withAdditionalStaticPredicate pred
  else scan

/-- `apply_predicate_to_fact_scans`. -/
def applyPredicateToFactScans (pred : Predicate) (factColumn : String) :
    ExecutionPlan → ExecutionPlan :=
  mapScans (fun _ => true) (narrowFactScan pred factColumn)

/-- The answers of `compute_join_key_constraint`; `none` is an error. -/
abbrev ComputeConstraint := IcebergTableScan → String → Option (Option JoinKeyConstraint)

/-- `push_fk_bounds` at a join whose inputs are done. -/
def pushAtJoin (compute : ComputeConstraint) (left right : ExecutionPlan) (j : HashJoin) :
    Option ExecutionPlan :=
  match resolveDimFactKeys left right j.on with
  | none => some (.hashJoin left right j)
  | some (dim, dimKey, factKey) =>
    match compute dim dimKey with
    | none => none
    | some none => some (.hashJoin left right j)
    | some (some c) =>
        some (applyPredicateToFactScans (constraintToPredicate factKey c) factKey
          (.hashJoin left right j))

mutual

/-- `push_fk_bounds`; `none` is an error of `compute_join_key_constraint`. -/
def pushFkBounds (compute : ComputeConstraint) : ExecutionPlan → Option ExecutionPlan
  | .scan s => some (.scan s)
  | .hashJoin l r j => (pushFkBounds compute l).bind fun l' =>
      (pushFkBounds compute r).bind fun r' => pushAtJoin compute l' r' j
  | .projection i exprs => (pushFkBounds compute i).map fun i' => .projection i' exprs
  | .filter i e => (pushFkBounds compute i).map fun i' => .filter i' e
  | .limit i skip fetch => (pushFkBounds compute i).map fun i' => .limit i' skip fetch
  | .aggregate i groupBy aggregates =>
      (pushFkBounds compute i).map fun i' => .aggregate i' groupBy aggregates
  | .wrapper kind i => (pushFkBounds compute i).map fun i' => .wrapper kind i'
  | .union is => (pushFkBoundsList compute is).map .union
  | .other name w is => (pushFkBoundsList compute is).map fun is' => .other name w is'

/-- The children of a node. -/
def pushFkBoundsList (compute : ComputeConstraint) : List ExecutionPlan → Option (List ExecutionPlan)
  | [] => some []
  | p :: ps => (pushFkBounds compute p).bind fun p' =>
      (pushFkBoundsList compute ps).map fun ps' => p' :: ps'

end

/-! ### What is assumed, and when a push is safe -/

/-- What the rule relies on: a constraint admits every non-null key of the dimension scan. -/
def ComputeSound (compute : ComputeConstraint) : Prop :=
  ∀ dim key answer, compute dim key = some answer → Call.Complete ⟨dim, key, answer⟩

/-- What a push of `factKey` narrows.  A comparison rejects NULLs. -/
def fkTarget (factKey : String) : Target where
  visits := fun _ => true
  receives := fun s => s.isLargeFactTable && scanHasColumn s factKey
  columns := [factKey]
  rejectsNulls := True

/-- Position `i` of a dimension side is the scan's own column `key`. -/
def Traces (key : String) : ExecutionPlan → ℕ → Prop
  | .scan s, i => s.outputSchema[i]? = some key
  | .projection p exprs, i =>
      ∃ n i' name, exprs[i]? = some (.column ⟨n, i'⟩, name) ∧ Traces key p i'
  | .wrapper _ p, i => Traces key p i
  | _, _ => False

/-- One side of a join may lose the rows whose key the constraint does not admit: it has no scan that is
narrowed, or all of them reach the key and the join does not show unmatched rows of this side. -/
def SideSafe (factKey : String) (side : ExecutionPlan) (contribution : Contribution) (key : ℕ) : Prop :=
  (fkTarget factKey).untouched side = true ∨
    (contribution.keepsUnmatched = false ∧ (fkTarget factKey).reaches side fun _ => key)

/-- The dimension scan has no row with a NULL key. -/
def KeysNotNull (E : Engine) (dim : IcebergTableScan) (dimKey : String) : Prop :=
  ∀ row ∈ dim.tableRows, dim.keeps E.current row → row dimKey ≠ none

/-- The push at a join is harmless. -/
structure JoinSafe (E : Engine) (l r : ExecutionPlan) (j : HashJoin) (cl cr : Column)
    (dim : IcebergTableScan) (dimKey factKey : String) : Prop where
  dimension : (directDimensionScan l = some dim ∧ Traces dimKey l cl.index) ∨
    (directDimensionScan r = some dim ∧ Traces dimKey r cr.index)
  nulls : j.nullEquality = .nullEqualsNothing ∨ KeysNotNull E dim dimKey
  left : SideSafe factKey l j.joinType.leftContribution cl.index
  right : SideSafe factKey r j.joinType.rightContribution cr.index

mutual

/-- Every push that the rule makes narrows no scan or is harmless. -/
def FkSafe (E : Engine) (compute : ComputeConstraint) : ExecutionPlan → Prop
  | .scan _ => True
  | .hashJoin l r j => FkSafe E compute l ∧ FkSafe E compute r ∧
      ∀ cl cr dim dimKey factKey c, joinColumns j.on = some (cl, cr) →
        resolveDimFactKeys l r j.on = some (dim, dimKey, factKey) →
        compute dim dimKey = some (some c) →
          (fkTarget factKey).untouched (.hashJoin l r j) = true ∨
            JoinSafe E l r j cl cr dim dimKey factKey
  | .projection i _ | .filter i _ | .limit i _ _ | .aggregate i _ _ | .wrapper _ i =>
      FkSafe E compute i
  | .union is | .other _ _ is => FkSafeAll E compute is

/-- Every push in the plans is harmless. -/
def FkSafeAll (E : Engine) (compute : ComputeConstraint) : List ExecutionPlan → Prop
  | [] => True
  | p :: ps => FkSafe E compute p ∧ FkSafeAll E compute ps

end

/-! ### The predicate on the fact scans -/

/-- The key is there and the constraint admits it. -/
def admitsKey (c : JoinKeyConstraint) (factKey : String) (ρ : String → Option Value) : Bool :=
  match ρ factKey with
  | some v => decide (c.Admits v)
  | none => false

theorem admitsKey_eq_true {c : JoinKeyConstraint} {factKey : String} {ρ : String → Option Value} :
    admitsKey c factKey ρ = true ↔ ∃ v, ρ factKey = some v ∧ c.Admits v := by
  unfold admitsKey
  cases ρ factKey with
  | none => simp
  | some v => simp

/-- Equality is both bounds at once. -/
theorem evalBinary_eq_iff_bounds (v d : Value) :
    Predicate.evalBinary .eq v d = some true ↔
      Predicate.evalBinary .greaterThanOrEq v d = some true ∧
        Predicate.evalBinary .lessThanOrEq v d = some true := by
  simp only [Predicate.evalBinary]
  cases v.ordering d with
  | none => decide
  | some o => cases o <;> decide

/-- **The pushed predicate is TRUE exactly where the key is admitted.** -/
theorem constraintToPredicate_isTrueOn (column : String) (c : JoinKeyConstraint) (row : Row) :
    (constraintToPredicate column c).isTrueOn row ↔
      admitsKey c column (fun c => (row c).map Subtype.val) = true := by
  have hbinary : ∀ op d, (Predicate.binary op column d).isTrueOn row ↔
      ∃ v, row column = some v ∧ Predicate.evalBinary op v.1 d.value = some true := by
    intro op d
    rw [Predicate.isTrueOn_binary, Option.bind_eq_some_iff]
  have hkey : admitsKey c column (fun c => (row c).map Subtype.val) = true ↔
      ∃ v, row column = some v ∧ c.Admits v.1 := by
    rw [admitsKey_eq_true]
    cases row column with
    | none => simp
    | some v => simp
  rw [hkey]
  unfold constraintToPredicate
  split
  · rename_i d
    rw [hbinary]
    simp [JoinKeyConstraint.Admits]
  · rename_i ds _
    rw [Predicate.isTrueOn_isIn]
    simp only [Predicate.eqTest, Option.bind_eq_some_iff, JoinKeyConstraint.Admits]
    tauto
  · rename_i lo hi
    split
    · rename_i heq
      rw [hbinary, heq]
      simp only [evalBinary_eq_iff_bounds, JoinKeyConstraint.Admits]
    · rw [Predicate.isTrueOn_and, hbinary, hbinary]
      simp only [JoinKeyConstraint.Admits]
      constructor
      · rintro ⟨⟨v, hv, hlo⟩, w, hw, hhi⟩
        obtain rfl : v = w := Option.some.inj (hv.symm.trans hw)
        exact ⟨v, hv, hlo, hhi⟩
      · rintro ⟨v, hv, hlo, hhi⟩
        exact ⟨⟨v, hv, hlo⟩, v, hv, hhi⟩

/-- A pushed predicate leaves the rest of a scan as it is. -/
theorem narrowFactScan_fields (pred : Predicate) (factKey : String) (s : IcebergTableScan) :
    (narrowFactScan pred factKey s).outputSchema = s.outputSchema ∧
      (narrowFactScan pred factKey s).limit = s.limit ∧
      (narrowFactScan pred factKey s).tableRows = s.tableRows := by
  unfold narrowFactScan
  split <;> exact ⟨rfl, rfl, rfl⟩

/-- **The push narrows the fact scans by the admitted keys.** -/
theorem narrows_fk (E : Engine) (c : JoinKeyConstraint) (factKey : String) :
    Narrows E (fkTarget factKey) (narrowFactScan (constraintToPredicate factKey c) factKey)
      (admitsKey c factKey) where
  unchanged s hs := by
    have hs' : (s.isLargeFactTable && scanHasColumn s factKey) = false := hs
    rw [narrowFactScan, hs']
    rfl
  outputSchema s := (narrowFactScan_fields _ factKey s).1
  limit s := (narrowFactScan_fields _ factKey s).2.1
  tableRows s := (narrowFactScan_fields _ factKey s).2.2
  fewer s row hk := by
    unfold narrowFactScan at hk
    split at hk
    · exact ((s.keeps_withAdditionalStaticPredicate _ _ row).mp hk).1
    · exact hk
  enough s row hs hk hΦ := by
    have hs' : (s.isLargeFactTable && scanHasColumn s factKey) = true := hs
    rw [narrowFactScan, if_pos hs', s.keeps_withAdditionalStaticPredicate]
    exact ⟨hk, (constraintToPredicate_isTrueOn factKey c row).mpr hΦ⟩
  congr ρ ρ' h := by
    rw [admitsKey, admitsKey, h factKey (List.mem_singleton.mpr rfl)]
  nulls _ ρ column hc hnull := by
    rw [List.mem_singleton.mp hc] at hnull
    rw [admitsKey, hnull]

theorem fkTarget_seesShape (factKey : String) : (fkTarget factKey).SeesShape := fun _ => rfl

/-! ### The keys of the dimension -/

theorem asIcebergScan_wrapper (kind : Wrapper) (i : ExecutionPlan) :
    asIcebergScan (.wrapper kind i) = if kind.peeled then asIcebergScan i else none := by
  cases kind <;> rfl

/-- The key of a dimension side is the key of a row that the dimension scan returns. -/
theorem Traces.key {E : Engine} {key : String} {dim : IcebergTableScan} :
    ∀ {p : ExecutionPlan} {i : ℕ}, Traces key p i → asIcebergScan p = some dim → ∀ t ∈ E.eval p,
      ∃ row ∈ dim.tableRows, dim.keeps E.current row ∧ t i = (row key).map Subtype.val
  | .scan s, i, htrace, hscan, t, ht => by
      obtain rfl : s = dim := Option.some.inj hscan
      have hmem : t ∈ (s.tableRows.filter fun row => decide (s.keeps E.current row)).map
          (Engine.scanTuple s) := by
        rw [Engine.eval, Engine.scanRows] at ht
        cases hlimit : s.limit with
        | none =>
            rw [hlimit] at ht
            exact ht
        | some n =>
            rw [hlimit] at ht
            exact List.mem_of_mem_take ht
      obtain ⟨row, hrow, rfl⟩ := List.mem_map.mp hmem
      obtain ⟨hrow, hkeep⟩ := List.mem_filter.mp hrow
      refine ⟨row, hrow, of_decide_eq_true hkeep, ?_⟩
      have hschema : s.outputSchema[i]? = some key := htrace
      rw [Engine.scanTuple, hschema, Option.bind_some]
  | .projection p exprs, i, htrace, hscan, t, ht => by
      obtain ⟨n, i', name, hexpr, htrace⟩ := htrace
      obtain ⟨u, hu, rfl⟩ := List.mem_map.mp ht
      obtain ⟨row, hrow, hkeep, hkey⟩ := Traces.key htrace hscan u hu
      refine ⟨row, hrow, hkeep, ?_⟩
      rw [Engine.project, hexpr]
      exact hkey
  | .wrapper kind p, i, htrace, hscan, t, ht => by
      have htrace' : Traces key p i := htrace
      rw [asIcebergScan_wrapper] at hscan
      split at hscan
      · exact Traces.key htrace' hscan t ht
      · cases hscan

/-- Narrowing the scans keeps what a dimension side traces. -/
theorem Traces.mapScans {key : String} {g : IcebergTableScan → IcebergTableScan}
    (hg : ∀ s, (g s).outputSchema = s.outputSchema) (visits : ℕ → Bool) :
    ∀ {p : ExecutionPlan} {i : ℕ}, Traces key p i → Traces key (mapScans visits g p) i
  | .scan s, i, h => by
      show (g s).outputSchema[i]? = some key
      rw [hg]
      exact h
  | .projection p exprs, i, h => by
      obtain ⟨n, i', name, hexpr, h⟩ := h
      exact ⟨n, i', name, hexpr, h.mapScans hg visits⟩
  | .wrapper _ p, i, h => by
      have h' : Traces key p i := h
      exact h'.mapScans hg visits

theorem asIcebergScan_mapScans {g : IcebergTableScan → IcebergTableScan} (visits : ℕ → Bool) :
    ∀ p : ExecutionPlan, asIcebergScan (mapScans visits g p) = (asIcebergScan p).map g
  | .projection p _ => asIcebergScan_mapScans visits p
  | .wrapper kind p => by
      rw [mapScans, asIcebergScan_wrapper, asIcebergScan_wrapper, asIcebergScan_mapScans visits p]
      split <;> rfl
  | .scan _ | .hashJoin _ _ _ | .filter _ _ | .limit _ _ _ | .aggregate _ _ _ | .union _
  | .other _ _ _ => rfl

/-- A dimension scan is what is under the wrappers. -/
theorem asIcebergScan_of_direct {p : ExecutionPlan} {dim : IcebergTableScan}
    (h : directDimensionScan p = some dim) : asIcebergScan p = some dim := by
  unfold directDimensionScan at h
  split at h
  · rename_i scan hscan
    split at h
    · cases h
    · rw [hscan, h]
  · cases h

/-- The key at position `i` is NULL or admitted, and not NULL if the dimension's keys are not. -/
def KeyedBy (c : JoinKeyConstraint) (notNull : Prop) (i : ℕ) (rows : List Tuple) : Prop :=
  ∀ t ∈ rows, (t i = none ∧ ¬ notNull) ∨ ∃ v, t i = some v ∧ c.Admits v

section

variable {E : Engine} {compute : ComputeConstraint} {dim : IcebergTableScan} {dimKey : String}
  {c : JoinKeyConstraint}

/-- **The keys of a dimension side are admitted by the constraint of the dimension scan**, also when the
scan has been narrowed since. -/
theorem keyedBy_of_traces (hcompute : ComputeSound compute) (hc : compute dim dimKey = some (some c))
    {dim' : IcebergTableScan} (hrows : dim'.tableRows = dim.tableRows)
    (hfewer : ∀ row, dim'.keeps E.current row → dim.keeps E.current row) {p : ExecutionPlan} {i : ℕ}
    (htrace : Traces dimKey p i) (hdim : asIcebergScan p = some dim') :
    KeyedBy c (KeysNotNull E dim dimKey) i (E.eval p) := by
  intro t ht
  obtain ⟨row, hrow, hkeep, hkey⟩ := htrace.key hdim t ht
  rw [hrows] at hrow
  have hkeep' := hfewer row hkeep
  cases hval : row dimKey with
  | none =>
      left
      rw [hkey, hval]
      exact ⟨rfl, fun hnn => hnn row hrow hkeep' hval⟩
  | some v =>
      right
      rw [hkey, hval]
      refine ⟨v.1, rfl, ?_⟩
      have hpred := ((dim.keeps_iff E.current row).mp hkeep').1
      exact hcompute dim dimKey (some c) hc c rfl row hrow hpred v hval

end

/-! ### One push -/

section

variable {E : Engine} {j : HashJoin} {cl cr : Column} {w w' : ℕ} {c : JoinKeyConstraint}
  {factKey : String} {notNull : Prop} {as bs : List Tuple}

/-- The first `on` pair of matching rows. -/
theorem matchRows_first (hon : joinColumns j.on = some (cl, cr)) {a b : Tuple}
    (hm : E.matchRows j w a b = true) : keysEqual j.nullEquality (a cl.index) (b cr.index) = true := by
  obtain ⟨rest, hrest⟩ : ∃ rest, j.on = (.column cl, .column cr) :: rest := by
    unfold joinColumns at hon
    split at hon
    · rename_i l r rest heq
      cases hon
      exact ⟨rest, heq⟩
    · cases hon
  rw [Engine.matchRows, Bool.and_eq_true, List.all_eq_true] at hm
  have hmem : (PhysicalExpr.column cl, PhysicalExpr.column cr) ∈ j.on := by
    rw [hrest]
    exact List.mem_cons_self
  exact hm.1 _ hmem

/-- NULL keys do not match, or there are none. -/
theorem keysEqual_none {n : NullEquality} (hn : n = .nullEqualsNothing ∨ notNull) {x : Option Value}
    (hnull : ¬ notNull) : keysEqual n none x = false ∧ keysEqual n x none = false := by
  rcases hn with rfl | hn
  · cases x <;> exact ⟨rfl, rfl⟩
  · exact absurd hn hnull

/-- **Rows that match have admitted keys**, if the keys of one side are all admitted. -/
theorem match_admits (hon : joinColumns j.on = some (cl, cr))
    (hn : j.nullEquality = .nullEqualsNothing ∨ notNull)
    (hkeys : KeyedBy c notNull cl.index as ∨ KeyedBy c notNull cr.index bs) {a b : Tuple} (ha : a ∈ as)
    (hb : b ∈ bs) (hm : E.matchRows j w a b = true) :
    filterAt (admitsKey c factKey) (fun _ => cl.index) a = true ∧
      filterAt (admitsKey c factKey) (fun _ => cr.index) b = true := by
  have hfirst := matchRows_first hon hm
  have heq : a cl.index = b cr.index := keysEqual_eq hfirst
  -- the common key is admitted: on the side that is keyed it is, or it would be a NULL that matches
  obtain ⟨v, hv, hadmits⟩ : ∃ v, a cl.index = some v ∧ c.Admits v := by
    rcases hkeys with hkeys | hkeys
    · rcases hkeys a ha with ⟨hnone, hnn⟩ | hsome
      · rw [hnone, (keysEqual_none hn hnn).1] at hfirst
        cases hfirst
      · exact hsome
    · rcases hkeys b hb with ⟨hnone, hnn⟩ | hsome
      · rw [hnone, (keysEqual_none hn hnn).2] at hfirst
        cases hfirst
      · rw [heq]
        exact hsome
  exact ⟨admitsKey_eq_true.mpr ⟨v, hv, hadmits⟩, admitsKey_eq_true.mpr ⟨v, heq ▸ hv, hadmits⟩⟩

end

/-- The rows that matter on a safe side, and agreement on them after the push. -/
theorem SideSafe.agreeOn {E : Engine} {factKey : String} {side : ExecutionPlan} {k : Contribution}
    {key : ℕ} (h : SideSafe factKey side k key) (c : JoinKeyConstraint) :
    ∃ p, ((∀ a, p a = true) ∨ (k.keepsUnmatched = false ∧
        p = filterAt (admitsKey c factKey) fun _ => key)) ∧
      AgreeOn p (E.eval side) (E.eval (applyPredicateToFactScans (constraintToPredicate factKey c)
        factKey side)) := by
  rcases h with h | ⟨hk, hreach⟩
  · exact ⟨fun _ => true, .inl fun _ => rfl, (narrows_fk E c factKey).agreeOn_untouched side _ h⟩
  · exact ⟨_, .inr ⟨hk, rfl⟩, agreeOn_mapScans (narrows_fk E c factKey) side _ hreach⟩

/-- **One safe push keeps the rows of the join.** -/
theorem JoinSafe.eval_eq {E : Engine} {compute : ComputeConstraint} (hcompute : ComputeSound compute)
    {l r : ExecutionPlan} {j : HashJoin} {cl cr : Column} (hon : joinColumns j.on = some (cl, cr))
    {dim : IcebergTableScan} {dimKey factKey : String} {c : JoinKeyConstraint}
    (hc : compute dim dimKey = some (some c)) (h : JoinSafe E l r j cl cr dim dimKey factKey) :
    E.eval (applyPredicateToFactScans (constraintToPredicate factKey c) factKey (.hashJoin l r j)) =
      E.eval (.hashJoin l r j) := by
  have hnarrows := narrows_fk E c factKey
  obtain ⟨p, hp, hagreeL⟩ := h.left.agreeOn (E := E) c
  obtain ⟨q, hq, hagreeR⟩ := h.right.agreeOn (E := E) c
  -- the keys of the dimension side, before and after the push
  have hkeys : ∀ {side : ExecutionPlan} {i : ℕ},
      directDimensionScan side = some dim → Traces dimKey side i →
      KeyedBy c (KeysNotNull E dim dimKey) i (E.eval side) ∧
        KeyedBy c (KeysNotNull E dim dimKey) i
          (E.eval (applyPredicateToFactScans (constraintToPredicate factKey c) factKey side)) := by
    intro side i hdirect htrace
    have hdim := asIcebergScan_of_direct hdirect
    constructor
    · exact keyedBy_of_traces hcompute hc rfl (fun _ hk => hk) htrace hdim
    · refine keyedBy_of_traces hcompute hc (hnarrows.tableRows dim) (hnarrows.fewer dim)
        (htrace.mapScans hnarrows.outputSchema _) ?_
      rw [applyPredicateToFactScans, asIcebergScan_mapScans, hdim, Option.map_some]
  have hkeyed : (KeyedBy c (KeysNotNull E dim dimKey) cl.index (E.eval l) ∨
        KeyedBy c (KeysNotNull E dim dimKey) cr.index (E.eval r)) ∧
      (KeyedBy c (KeysNotNull E dim dimKey) cl.index
          (E.eval (applyPredicateToFactScans (constraintToPredicate factKey c) factKey l)) ∨
        KeyedBy c (KeysNotNull E dim dimKey) cr.index
          (E.eval (applyPredicateToFactScans (constraintToPredicate factKey c) factKey r))) := by
    rcases h.dimension with ⟨hdirect, htrace⟩ | ⟨hdirect, htrace⟩
    · exact ⟨.inl (hkeys hdirect htrace).1, .inl (hkeys hdirect htrace).2⟩
    · exact ⟨.inr (hkeys hdirect htrace).1, .inr (hkeys hdirect htrace).2⟩
  rw [applyPredicateToFactScans, mapScans, Engine.eval, Engine.eval,
    width_mapScans _ hnarrows.outputSchema, width_mapScans _ hnarrows.outputSchema]
  symm
  apply AgreeOn.eq
  exact hagreeL.joined hagreeR
    (matters_of_match (fun a ha b hb hm => match_admits hon h.nulls hkeyed.1 ha hb hm) hp hq)
    (matters_of_match (fun a ha b hb hm => match_admits hon h.nulls hkeyed.2 ha hb hm) hp hq)

/-! ### The whole plan -/

section

variable {compute : ComputeConstraint}

/-- What happens at a join: nothing, or one push. -/
theorem pushAtJoin_cases {l r p' : ExecutionPlan} {j : HashJoin}
    (h : pushAtJoin compute l r j = some p') : p' = .hashJoin l r j ∨
      ∃ dim dimKey factKey c, resolveDimFactKeys l r j.on = some (dim, dimKey, factKey) ∧
        compute dim dimKey = some (some c) ∧
        p' = applyPredicateToFactScans (constraintToPredicate factKey c) factKey (.hashJoin l r j) := by
  unfold pushAtJoin at h
  split at h
  · exact .inl (Option.some.inj h).symm
  · rename_i dim dimKey factKey hresolve
    split at h
    · cases h
    · exact .inl (Option.some.inj h).symm
    · rename_i c hc
      exact .inr ⟨dim, dimKey, factKey, c, hresolve, hc, (Option.some.inj h).symm⟩

theorem bare_narrowFactScan (pred : Predicate) (factKey : String) (s : IcebergTableScan) :
    bare (narrowFactScan pred factKey s) = bare s := by
  unfold narrowFactScan
  split <;> rfl

theorem shape_hashJoin (l r : ExecutionPlan) (j : HashJoin) :
    shape (.hashJoin l r j) = .hashJoin (shape l) (shape r) j := rfl

mutual

/-- The rule keeps the shape of the plan. -/
theorem shape_pushFkBounds : ∀ {p p' : ExecutionPlan}, pushFkBounds compute p = some p' →
    shape p' = shape p
  | .scan _, _, h => by
      obtain rfl := Option.some.inj h
      rfl
  | .hashJoin l r j, p', h => by
      obtain ⟨l', hl, h⟩ := Option.bind_eq_some_iff.mp h
      obtain ⟨r', hr, h⟩ := Option.bind_eq_some_iff.mp h
      have hshape : shape (.hashJoin l' r' j) = shape (.hashJoin l r j) := by
        rw [shape_hashJoin, shape_hashJoin, shape_pushFkBounds hl, shape_pushFkBounds hr]
      rcases pushAtJoin_cases h with rfl | ⟨dim, dimKey, factKey, c, -, -, rfl⟩
      · exact hshape
      · exact (shape_mapScans _ (bare_narrowFactScan _ _) _).trans hshape
  | .projection i exprs, _, h => by
      obtain ⟨i', hi, rfl⟩ := Option.map_eq_some_iff.mp h
      exact congrArg (ExecutionPlan.projection · exprs) (shape_pushFkBounds hi)
  | .filter i e, _, h => by
      obtain ⟨i', hi, rfl⟩ := Option.map_eq_some_iff.mp h
      exact congrArg (ExecutionPlan.filter · e) (shape_pushFkBounds hi)
  | .limit i skip fetch, _, h => by
      obtain ⟨i', hi, rfl⟩ := Option.map_eq_some_iff.mp h
      exact congrArg (ExecutionPlan.limit · skip fetch) (shape_pushFkBounds hi)
  | .aggregate i groupBy aggregates, _, h => by
      obtain ⟨i', hi, rfl⟩ := Option.map_eq_some_iff.mp h
      exact congrArg (ExecutionPlan.aggregate · groupBy aggregates) (shape_pushFkBounds hi)
  | .wrapper kind i, _, h => by
      obtain ⟨i', hi, rfl⟩ := Option.map_eq_some_iff.mp h
      exact congrArg (ExecutionPlan.wrapper kind) (shape_pushFkBounds hi)
  | .union is, _, h => by
      obtain ⟨is', his, rfl⟩ := Option.map_eq_some_iff.mp h
      exact congrArg ExecutionPlan.union (shape_pushFkBoundsList his)
  | .other name w is, _, h => by
      obtain ⟨is', his, rfl⟩ := Option.map_eq_some_iff.mp h
      exact congrArg (ExecutionPlan.other name w) (shape_pushFkBoundsList his)

theorem shape_pushFkBoundsList : ∀ {ps ps' : List ExecutionPlan},
    pushFkBoundsList compute ps = some ps' →
      mapScansList (fun _ => true) bare ps' = mapScansList (fun _ => true) bare ps
  | [], _, h => by
      obtain rfl := Option.some.inj h
      rfl
  | p :: ps, _, h => by
      obtain ⟨p', hp, h⟩ := Option.bind_eq_some_iff.mp h
      obtain ⟨ps', hps, rfl⟩ := Option.map_eq_some_iff.mp h
      exact congrArg₂ List.cons (shape_pushFkBounds hp) (shape_pushFkBoundsList hps)

end

/-- Under the wrappers of a dimension there is no join, so the rule changes nothing there. -/
theorem pushFkBounds_of_scan {s : IcebergTableScan} : ∀ {p : ExecutionPlan},
    asIcebergScan p = some s → pushFkBounds compute p = some p
  | .scan _, _ => rfl
  | .projection i exprs, h => by
      rw [pushFkBounds, pushFkBounds_of_scan (p := i) h]
      rfl
  | .wrapper kind i, h => by
      rw [asIcebergScan_wrapper] at h
      split at h
      · rw [pushFkBounds, pushFkBounds_of_scan h]
        rfl
      · cases h

/-- The rule neither makes nor breaks a dimension side. -/
theorem asIcebergScan_pushFkBounds : ∀ {p p' : ExecutionPlan}, pushFkBounds compute p = some p' →
    asIcebergScan p' = asIcebergScan p
  | .scan _, _, h => by
      obtain rfl := Option.some.inj h
      rfl
  | .hashJoin l r j, p', h => by
      obtain ⟨l', hl, h⟩ := Option.bind_eq_some_iff.mp h
      obtain ⟨r', hr, h⟩ := Option.bind_eq_some_iff.mp h
      rcases pushAtJoin_cases h with rfl | ⟨dim, dimKey, factKey, c, -, -, rfl⟩
      · rfl
      · rfl
  | .projection i exprs, _, h => by
      obtain ⟨i', hi, rfl⟩ := Option.map_eq_some_iff.mp h
      show asIcebergScan i' = asIcebergScan i
      exact asIcebergScan_pushFkBounds hi
  | .wrapper kind i, _, h => by
      obtain ⟨i', hi, rfl⟩ := Option.map_eq_some_iff.mp h
      rw [asIcebergScan_wrapper, asIcebergScan_wrapper, asIcebergScan_pushFkBounds hi]
  | .filter i _, _, h | .limit i _ _, _, h | .aggregate i _ _, _, h | .union _, _, h
  | .other _ _ _, _, h => by
      obtain ⟨x, -, rfl⟩ := Option.map_eq_some_iff.mp h
      rfl

theorem directDimensionScan_pushFkBounds {p p' : ExecutionPlan} (h : pushFkBounds compute p = some p') :
    directDimensionScan p' = directDimensionScan p := by
  rw [directDimensionScan, directDimensionScan, asIcebergScan_pushFkBounds h]

mutual

/-- Whether there is a large scan is a matter of shape. -/
theorem containsFactIcebergScan_shape : ∀ p : ExecutionPlan,
    containsFactIcebergScan (shape p) = containsFactIcebergScan p
  | .scan _ => rfl
  | .hashJoin l r j => by
      rw [shape_hashJoin, containsFactIcebergScan, containsFactIcebergScan_shape l,
        containsFactIcebergScan_shape r, containsFactIcebergScan]
  | .projection i _ => containsFactIcebergScan_shape i
  | .filter i _ => containsFactIcebergScan_shape i
  | .limit i _ _ => containsFactIcebergScan_shape i
  | .aggregate i _ _ => containsFactIcebergScan_shape i
  | .wrapper _ i => containsFactIcebergScan_shape i
  | .union is => anyContainsFact_shape is
  | .other _ _ is => anyContainsFact_shape is

theorem anyContainsFact_shape : ∀ ps : List ExecutionPlan,
    anyContainsFact (mapScansList (fun _ => true) bare ps) = anyContainsFact ps
  | [] => rfl
  | p :: ps => congrArg₂ or (containsFactIcebergScan_shape p) (anyContainsFact_shape ps)

end

theorem containsFactIcebergScan_pushFkBounds {p p' : ExecutionPlan}
    (h : pushFkBounds compute p = some p') :
    containsFactIcebergScan p' = containsFactIcebergScan p := by
  rw [← containsFactIcebergScan_shape, shape_pushFkBounds h, containsFactIcebergScan_shape]

/-- The rule finds the same keys whether the inputs of the join are done or not. -/
theorem resolveDimFactKeys_pushFkBounds {l l' r r' : ExecutionPlan}
    (hl : pushFkBounds compute l = some l') (hr : pushFkBounds compute r = some r')
    (on : List (PhysicalExpr × PhysicalExpr)) :
    resolveDimFactKeys l' r' on = resolveDimFactKeys l r on := by
  rw [resolveDimFactKeys, resolveDimFactKeys, directDimensionScan_pushFkBounds hl,
    directDimensionScan_pushFkBounds hr, containsFactIcebergScan_pushFkBounds hl,
    containsFactIcebergScan_pushFkBounds hr]

/-- A dimension side is the same after the rule. -/
theorem eq_of_direct {p p' : ExecutionPlan} {dim : IcebergTableScan}
    (h : pushFkBounds compute p = some p') (hdim : directDimensionScan p = some dim) : p' = p := by
  rw [pushFkBounds_of_scan (asIcebergScan_of_direct hdim)] at h
  exact (Option.some.inj h).symm

theorem SideSafe.pushed {factKey : String} {p p' : ExecutionPlan} {k : Contribution} {key : ℕ}
    (h : SideSafe factKey p k key) (hp : pushFkBounds compute p = some p') :
    SideSafe factKey p' k key := by
  have hshape := shape_pushFkBounds hp
  rcases h with h | ⟨hk, h⟩
  · left
    rw [untouched_of_shape (fkTarget_seesShape factKey) hshape]
    exact h
  · exact .inr ⟨hk, reaches_of_shape (fkTarget_seesShape factKey) hshape h⟩

/-- A safe join is still safe when its inputs are done. -/
theorem JoinSafe.pushed {E : Engine} {l l' r r' : ExecutionPlan} {j : HashJoin} {cl cr : Column}
    {dim : IcebergTableScan} {dimKey factKey : String} (h : JoinSafe E l r j cl cr dim dimKey factKey)
    (hl : pushFkBounds compute l = some l') (hr : pushFkBounds compute r = some r') :
    JoinSafe E l' r' j cl cr dim dimKey factKey where
  dimension := by
    rcases h.dimension with ⟨hdim, htrace⟩ | ⟨hdim, htrace⟩
    · rw [eq_of_direct hl hdim]
      exact .inl ⟨hdim, htrace⟩
    · rw [eq_of_direct hr hdim]
      exact .inr ⟨hdim, htrace⟩
  nulls := h.nulls
  left := h.left.pushed hl
  right := h.right.pushed hr

/-- What a push at a join whose inputs are done changes: no row, if it is safe on the plan before. -/
theorem eval_pushAtJoin {E : Engine} (hcompute : ComputeSound compute) {l l' r r' p' : ExecutionPlan}
    {j : HashJoin} (hl : pushFkBounds compute l = some l') (hr : pushFkBounds compute r = some r')
    (hsafe : FkSafe E compute (.hashJoin l r j)) (h : pushAtJoin compute l' r' j = some p') :
    E.eval p' = E.eval (.hashJoin l' r' j) := by
  rcases pushAtJoin_cases h with rfl | ⟨dim, dimKey, factKey, c, hresolve, hc, rfl⟩
  · rfl
  · rw [resolveDimFactKeys_pushFkBounds hl hr] at hresolve
    obtain ⟨⟨cl, cr⟩, hon⟩ : ∃ pair, joinColumns j.on = some pair := by
      cases hjoin : joinColumns j.on with
      | some pair => exact ⟨pair, rfl⟩
      | none =>
          rw [resolveDimFactKeys, joinColumnNames, hjoin] at hresolve
          cases hresolve
    rcases hsafe.2.2 cl cr dim dimKey factKey c hon hresolve hc with huntouched | hsafe
    · have hshape : shape (.hashJoin l' r' j) = shape (.hashJoin l r j) := by
        rw [shape_hashJoin, shape_hashJoin, shape_pushFkBounds hl, shape_pushFkBounds hr]
      rw [← untouched_of_shape (fkTarget_seesShape factKey) hshape] at huntouched
      rw [applyPredicateToFactScans]
      exact congrArg E.eval (mapScans_of_untouched (narrows_fk E c factKey).unchanged _ huntouched)
    · exact (hsafe.pushed hl hr).eval_eq hcompute hon hc

end

mutual

/-- **The rule keeps the rows** of every plan whose pushes are safe. -/
theorem pushFkBounds_eval {E : Engine} {compute : ComputeConstraint}
    (hcompute : ComputeSound compute) : ∀ (p p' : ExecutionPlan), pushFkBounds compute p = some p' →
      FkSafe E compute p → E.eval p' = E.eval p
  | .scan _, _, h, _ => by
      obtain rfl := Option.some.inj h
      rfl
  | .hashJoin l r j, p', h, hsafe => by
      obtain ⟨l', hl, h⟩ := Option.bind_eq_some_iff.mp h
      obtain ⟨r', hr, h⟩ := Option.bind_eq_some_iff.mp h
      have hwidth : l'.width = l.width ∧ r'.width = r.width := by
        constructor
        · rw [← width_shape l', shape_pushFkBounds hl, width_shape]
        · rw [← width_shape r', shape_pushFkBounds hr, width_shape]
      rw [eval_pushAtJoin hcompute hl hr hsafe h, Engine.eval, Engine.eval, hwidth.1, hwidth.2,
        pushFkBounds_eval hcompute l l' hl hsafe.1, pushFkBounds_eval hcompute r r' hr hsafe.2.1]
  | .projection i exprs, _, h, hsafe => by
      obtain ⟨i', hi, rfl⟩ := Option.map_eq_some_iff.mp h
      rw [Engine.eval, Engine.eval, pushFkBounds_eval hcompute i i' hi hsafe]
  | .filter i e, _, h, hsafe => by
      obtain ⟨i', hi, rfl⟩ := Option.map_eq_some_iff.mp h
      rw [Engine.eval, Engine.eval, pushFkBounds_eval hcompute i i' hi hsafe]
  | .limit i skip fetch, _, h, hsafe => by
      obtain ⟨i', hi, rfl⟩ := Option.map_eq_some_iff.mp h
      rw [Engine.eval, Engine.eval, pushFkBounds_eval hcompute i i' hi hsafe]
  | .aggregate i groupBy aggregates, _, h, hsafe => by
      obtain ⟨i', hi, rfl⟩ := Option.map_eq_some_iff.mp h
      rw [Engine.eval, Engine.eval, pushFkBounds_eval hcompute i i' hi hsafe]
  | .wrapper kind i, _, h, hsafe => by
      obtain ⟨i', hi, rfl⟩ := Option.map_eq_some_iff.mp h
      rw [Engine.eval, Engine.eval, pushFkBounds_eval hcompute i i' hi hsafe]
  | .union is, _, h, hsafe => by
      obtain ⟨is', his, rfl⟩ := Option.map_eq_some_iff.mp h
      rw [Engine.eval, Engine.eval, pushFkBoundsList_eval hcompute is is' his hsafe]
  | .other name w is, _, h, hsafe => by
      obtain ⟨is', his, rfl⟩ := Option.map_eq_some_iff.mp h
      rw [Engine.eval, Engine.eval, pushFkBoundsList_eval hcompute is is' his hsafe]

theorem pushFkBoundsList_eval {E : Engine} {compute : ComputeConstraint}
    (hcompute : ComputeSound compute) : ∀ (ps ps' : List ExecutionPlan),
      pushFkBoundsList compute ps = some ps' → FkSafeAll E compute ps → E.evalList ps' = E.evalList ps
  | [], _, h, _ => by
      obtain rfl := Option.some.inj h
      rfl
  | p :: ps, _, h, hsafe => by
      obtain ⟨p', hp, h⟩ := Option.bind_eq_some_iff.mp h
      obtain ⟨ps', hps, rfl⟩ := Option.map_eq_some_iff.mp h
      rw [Engine.evalList, Engine.evalList, pushFkBounds_eval hcompute p p' hp hsafe.1,
        pushFkBoundsList_eval hcompute ps ps' hps hsafe.2]

end

/-- **`IcebergFkBoundPushdown` preserves the result** of every plan in which each push it makes is
harmless, for every contents of the tables. -/
theorem fkBoundPushdown_preserves {E : Engine} {compute : ComputeConstraint}
    (hcompute : ComputeSound compute) {p p' : ExecutionPlan} (hp : pushFkBounds compute p = some p')
    (hsafe : FkSafe E compute p) : (E.eval p').Perm (E.eval p) := by
  rw [pushFkBounds_eval hcompute p p' hp hsafe]

/-- `compute_join_key_constraint` on integer keys, without the memo table and without pruning. -/
def readConstraint : ComputeConstraint := fun dim key =>
  let keys := (readRows (fun _ _ => false) dim).map fun row => row key
  if keys.all (fun cell => cell.all fun v => (ArrowType.int64.scalar v.1).isSome) then
    some (planTimeJoinKeyConstraint dim.predicates (dim.files.map DataFile.task) [keys] .int64 id)
  else none

theorem computeSound_readConstraint : ComputeSound readConstraint := by
  intro dim key answer h
  unfold readConstraint at h
  simp only at h
  split at h
  · rename_i hty
    obtain rfl := Option.some.inj h
    have hread : IsRead (fun _ _ => false) dim key
        ⟨dim.files.map DataFile.task, [(readRows (fun _ _ => false) dim).map fun row => row key],
          .int64, id⟩ := by
      constructor
      · show (dim.files.map DataFile.task).Perm _
        simp
      · exact .of_eq (List.append_nil _)
      · intro v hv
        have hmem : some v ∈ (readRows (fun _ _ => false) dim).map (fun row => row key) ++ [] := hv
        rw [List.append_nil] at hmem
        exact List.all_eq_true.mp hty _ hmem
      · exact fun l => .refl l
    exact hread.complete fun _ _ hp => by cases hp
  · cases h

/-- An engine without aggregates and other operators. -/
def plainEngine : Engine where
  functions := .othersFalse
  current := fun _ => .literal (.boolean (some true))
  aggregate := fun _ _ => none
  operator := fun _ _ => []

/-- A filtered dimension whose only key is `1`. -/
def dimScan : IcebergTableScan := keyScan (keyTable 1 [intKey 1]) positiveKey

/-- A row of the fact table. -/
def factRow (i : ℤ) : Row := fun column => if column = "fk" then some (intKey i) else none

/-- A table of 600000 rows by its metadata; here it has the keys `1` and `2`. -/
def factScan : IcebergTableScan where
  table :=
    { uuid := 2
      currentSnapshotId := some 1
      snapshots := [{ snapshotId := 1, totalRecords := some "600000",
                      files := [{ filePath := "f", fileSizeInBytes := 10, recordCount := some 2,
                                  rows := [factRow 1, factRow 2] }] }] }
  snapshotId := none
  tableSchema := ["fk"]
  projection := none
  predicates := none
  physicalFilters := []
  limit := none
  scanPartitions := 1

/-- The join on `k = fk`. -/
def keyJoin (jt : JoinType) : HashJoin where
  on := [(.column ⟨"k", 0⟩, .column ⟨"fk", 0⟩)]
  filter := none
  joinType := jt
  nullEquality := .nullEqualsNothing
  dynamicFilter := none

/-- The dimension joined with a fact scan. -/
def dimFactJoin (jt : JoinType) (fact : IcebergTableScan) : ExecutionPlan :=
  .hashJoin (.scan dimScan) (.scan fact) (keyJoin jt)

/-- The fact scan after the push. -/
def narrowedFactScan : IcebergTableScan :=
  factScan.withAdditionalStaticPredicate (.binary .eq "fk" (.long 1))

theorem pushFkBounds_dimFactJoin (jt : JoinType) :
    pushFkBounds readConstraint (dimFactJoin jt factScan) = some (dimFactJoin jt narrowedFactScan) :=
  rfl

/-- In an inner join the push is harmless. -/
theorem fkBoundPushdown_preserves_inner :
    pushFkBounds readConstraint (dimFactJoin .inner factScan) =
        some (dimFactJoin .inner narrowedFactScan) ∧
      (plainEngine.eval (dimFactJoin .inner narrowedFactScan)).Perm
        (plainEngine.eval (dimFactJoin .inner factScan)) := by
  refine ⟨rfl, fkBoundPushdown_preserves computeSound_readConstraint
    (pushFkBounds_dimFactJoin .inner) ⟨trivial, trivial, ?_⟩⟩
  intro cl cr dim dimKey factKey c hon hresolve _
  obtain ⟨rfl, rfl⟩ : (⟨"k", 0⟩ : Column) = cl ∧ (⟨"fk", 0⟩ : Column) = cr :=
    Prod.mk.inj (Option.some.inj hon)
  have hkeys : some (dimScan, "k", "fk") = some (dim, dimKey, factKey) := hresolve
  obtain ⟨rfl, hrest⟩ := Prod.mk.inj (Option.some.inj hkeys)
  obtain ⟨rfl, rfl⟩ := Prod.mk.inj hrest
  right
  refine ⟨.inl ⟨rfl, rfl⟩, .inl rfl, .inl rfl, .inr ⟨rfl, .inr ⟨rfl, ?_⟩⟩⟩
  intro column hcolumn
  rw [List.mem_singleton.mp hcolumn]
  rfl

/-- A right join shows the fact row with key `2`, which has no partner; after the push it is gone. -/
theorem fkBoundPushdown_loses_unmatched :
    ComputeSound readConstraint ∧
      pushFkBounds readConstraint (dimFactJoin .right factScan) =
        some (dimFactJoin .right narrowedFactScan) ∧
      ¬ (plainEngine.eval (dimFactJoin .right narrowedFactScan)).Perm
        (plainEngine.eval (dimFactJoin .right factScan)) := by
  refine ⟨computeSound_readConstraint, rfl, ?_⟩
  intro hperm
  have hlength : 1 = 2 := hperm.length_eq
  cases hlength

end IcebergDb.Plan
