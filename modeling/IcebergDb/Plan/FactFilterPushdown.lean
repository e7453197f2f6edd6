import IcebergDb.Plan.FkBoundPushdown

/-!
# Dynamic filters on fact scans

`fact_filter_pushdown.rs`: every large scan gets the dynamic filters of the joins above it on whose probe
side it stands, matched by nothing but the names that the filters contain.

* `pushFiltersToFactScans` — the rule, with its `Transformed` flag; `pushed` is the plan it returns;
* `Executes` — no scan names a column that its table does not have;
* `DynamicFiltersSound` — what is assumed of DataFusion: a join may drop the probe rows that fail its
  dynamic filter;
* `FilterSafe` — what makes one filter harmless on a probe side: no scan receives it, nothing is extracted
  from it, or the columns of its extracted conjuncts reach the scans and the conversion loses no row;
* `eval_pushed_append` — filters from further up can be attached afterwards;
* `eval_pushed` and `executes_pushed` — **in a plan whose filters are all harmless, the rule keeps the rows
  and introduces no error.**
-/

namespace IcebergDb.Plan

open IcebergDb.Expr IcebergDb.Scan IcebergDb.Relational

/-! ### The rule -/

/-- `Transformed`. -/
structure Transformed where
  data : ExecutionPlan
  transformed : Bool

/-- A node over one child that has been visited. -/
def rebuilt (child : Transformed) (plan : ExecutionPlan) (rebuild : ExecutionPlan → ExecutionPlan) :
    Transformed :=
  if child.transformed then ⟨rebuild child.data, true⟩ else ⟨plan, false⟩

/-- The filters that the probe side of a join inherits. -/
def probeFilters (inherited : List ArcExpr) (j : HashJoin) : List ArcExpr :=
  inherited ++ j.dynamicFilter.toList

/-- `push_filters_to_fact_scans`. -/
def pushFiltersToFactScans : ExecutionPlan → List ArcExpr → Transformed
  | .scan s, inherited =>
      if s.isLargeFactTable then
        let updated := s.withExtraPhysicalFilters inherited
        if updated.physicalFilters.length = s.physicalFilters.length then ⟨.scan s, false⟩
        else ⟨.scan updated, true⟩
      else ⟨.scan s, false⟩
  | .hashJoin l r j, inherited =>
      let left := pushFiltersToFactScans l inherited
      let right := pushFiltersToFactScans r (probeFilters inherited j)
      if left.transformed || right.transformed then ⟨.hashJoin left.data right.data j, true⟩
      else ⟨.hashJoin l r j, false⟩
  | .projection i exprs, inherited =>
      rebuilt (pushFiltersToFactScans i inherited) (.projection i exprs) (.projection · exprs)
  | .filter i e, inherited =>
      rebuilt (pushFiltersToFactScans i inherited) (.filter i e) (.filter · e)
  | .limit i skip fetch, inherited =>
      rebuilt (pushFiltersToFactScans i inherited) (.limit i skip fetch) (.limit · skip fetch)
  | .aggregate i groupBy aggregates, inherited =>
      rebuilt (pushFiltersToFactScans i inherited) (.aggregate i groupBy aggregates)
        (.aggregate · groupBy aggregates)
  | .wrapper kind i, inherited =>
      rebuilt (pushFiltersToFactScans i inherited) (.wrapper kind i) (.wrapper kind)
  -- a node with one child is entered, whatever it is; other nodes are left alone
  | .union [i], inherited =>
      rebuilt (pushFiltersToFactScans i inherited) (.union [i]) fun i' => .union [i']
  | .other name w [i], inherited =>
      rebuilt (pushFiltersToFactScans i inherited) (.other name w [i]) fun i' => .other name w [i']
  | .union is, _ => ⟨.union is, false⟩
  | .other name w is, _ => ⟨.other name w is, false⟩

/-- The filters that a scan gets. -/
def attachFilters (inherited : List ArcExpr) (s : IcebergTableScan) : IcebergTableScan :=
  if s.isLargeFactTable then s.withExtraPhysicalFilters inherited else s

/-- The nodes that the rule enters. -/
def singleChild (n : ℕ) : Bool := n == 1

/-- The plan that the rule returns. -/
def pushed : List ArcExpr → ExecutionPlan → ExecutionPlan
  | inherited, .scan s => .scan (attachFilters inherited s)
  | inherited, .hashJoin l r j =>
      .hashJoin (pushed inherited l) (pushed (probeFilters inherited j) r) j
  | inherited, .projection i exprs => .projection (pushed inherited i) exprs
  | inherited, .filter i e => .filter (pushed inherited i) e
  | inherited, .limit i skip fetch => .limit (pushed inherited i) skip fetch
  | inherited, .aggregate i groupBy aggregates => .aggregate (pushed inherited i) groupBy aggregates
  | inherited, .wrapper kind i => .wrapper kind (pushed inherited i)
  | inherited, .union [i] => .union [pushed inherited i]
  | inherited, .other name w [i] => .other name w [pushed inherited i]
  | _, .union is => .union is
  | _, .other name w is => .other name w is

/-! ### Errors -/

/-- `TableScanBuilder::build`: the selected columns and those of the bound filter are columns of the
table. -/
structure Builds (E : Engine) (s : IcebergTableScan) : Prop where
  select : ∀ c ∈ s.outputSchema, c ∈ s.tableSchema
  filter : ∀ p, s.mergedPredicate E.current = some p → ∀ c ∈ p.rewriteNot.columns, c ∈ s.tableSchema

mutual

/-- Every scan of the plan builds. -/
def Executes (E : Engine) : ExecutionPlan → Prop
  | .scan s => Builds E s
  | .hashJoin l r _ => Executes E l ∧ Executes E r
  | .projection i _ | .filter i _ | .limit i _ _ | .aggregate i _ _ | .wrapper _ i => Executes E i
  | .union is | .other _ _ is => ExecutesAll E is

/-- Every scan of the plans builds. -/
def ExecutesAll (E : Engine) : List ExecutionPlan → Prop
  | [] => True
  | p :: ps => Executes E p ∧ ExecutesAll E ps

end

/-! ### What is assumed -/

mutual

/-- A shared object has one address and so one value: filters with one pointer are one filter. -/
def OnHeap (heap : ℕ → PhysicalExpr) : ExecutionPlan → Prop
  | .scan s => ∀ f ∈ s.physicalFilters, f.expr = heap f.ptr
  | .hashJoin l r j => OnHeap heap l ∧ OnHeap heap r ∧
      ∀ d, j.dynamicFilter = some d → d.expr = heap d.ptr
  | .projection i _ | .filter i _ | .limit i _ _ | .aggregate i _ _ | .wrapper _ i => OnHeap heap i
  | .union is | .other _ _ is => OnHeapAll heap is

def OnHeapAll (heap : ℕ → PhysicalExpr) : List ExecutionPlan → Prop
  | [] => True
  | p :: ps => OnHeap heap p ∧ OnHeapAll heap ps

end

/-- The value that a filter has when the scans execute. -/
def Engine.resolved (E : Engine) (d : ArcExpr) : PhysicalExpr := resolvePhysicalExpr E.current d.expr

mutual

/-- A join carries a dynamic filter only where dropping the probe rows that fail it is sound. -/
def DynamicFiltersSound (E : Engine) : ExecutionPlan → Prop
  | .scan _ => True
  | .hashJoin l r j => DynamicFiltersSound E l ∧ DynamicFiltersSound E r ∧
      ∀ d, j.dynamicFilter = some d → ∀ rows : List Tuple,
        E.joinOutput j l.width r.width (E.eval l) (rows.filter (E.passes (E.resolved d))) =
          E.joinOutput j l.width r.width (E.eval l) rows
  | .projection i _ | .filter i _ | .limit i _ _ | .aggregate i _ _ | .wrapper _ i =>
      DynamicFiltersSound E i
  | .union is | .other _ _ is => DynamicFiltersSoundAll E is

def DynamicFiltersSoundAll (E : Engine) : List ExecutionPlan → Prop
  | [] => True
  | p :: ps => DynamicFiltersSound E p ∧ DynamicFiltersSoundAll E ps

end

/-! ### When a filter is harmless -/

/-- The conjuncts of a filter from which the scan extracts something. -/
def extractedConjuncts (e : PhysicalExpr) : List PhysicalExpr :=
  e.conjuncts.filter fun c => !(extractPushdownPredicates c).isEmpty

/-- The extracted conjuncts are TRUE, columns read by name. -/
def conjunctsPass (E : Engine) (d : ArcExpr) (ρ : String → Option Value) : Bool :=
  (extractedConjuncts (E.resolved d)).all fun e =>
    decide (e.isTrue E.functions fun c => ρ c.name)

/-- What the filter of a join narrows. -/
def factTarget (E : Engine) (d : ArcExpr) : Target where
  visits := singleChild
  receives := IcebergTableScan.isLargeFactTable
  columns := (extractedConjuncts (E.resolved d)).flatMap columnNames
  rejectsNulls := ∀ ρ : String → Option Value,
    ∀ c ∈ (extractedConjuncts (E.resolved d)).flatMap columnNames, ρ c = none →
      conjunctsPass E d ρ = false

/-- A dynamic filter is harmless below a probe side. -/
def FilterSafe (E : Engine) (probe : ExecutionPlan) (d : ArcExpr) : Prop :=
  (factTarget E d).untouched probe = true ∨ extractPushdownPredicates (E.resolved d) = [] ∨
    ((∀ e ∈ extractedConjuncts (E.resolved d), lossesOk true e = true) ∧
      ∃ pos, (∀ e ∈ extractedConjuncts (E.resolved d), ∀ c ∈ e.collectColumns, pos c.name = c.index) ∧
        (factTarget E d).reaches probe pos)

mutual

/-- Every dynamic filter of the plan is harmless. -/
def FactSafe (E : Engine) : ExecutionPlan → Prop
  | .scan _ => True
  | .hashJoin l r j => FactSafe E l ∧ FactSafe E r ∧
      ∀ d, j.dynamicFilter = some d → FilterSafe E r d
  | .projection i _ | .filter i _ | .limit i _ _ | .aggregate i _ _ | .wrapper _ i => FactSafe E i
  | .union is | .other _ _ is => FactSafeAll E is

def FactSafeAll (E : Engine) : List ExecutionPlan → Prop
  | [] => True
  | p :: ps => FactSafe E p ∧ FactSafeAll E ps

end

/-! ### Attaching filters to one scan -/

/-- Attaching filters only appends. -/
theorem foldl_pushFilter_append (extra : List ArcExpr) : ∀ filters : List ArcExpr,
    ∃ added, extra.foldl IcebergTableScan.pushFilter filters = filters ++ added ∧
      ∀ f ∈ added, f ∈ extra := by
  induction extra with
  | nil =>
      intro filters
      exact ⟨[], (List.append_nil _).symm, fun f hf => absurd hf List.not_mem_nil⟩
  | cons f extra ih =>
      intro filters
      obtain ⟨added, hadded, hmem⟩ := ih (IcebergTableScan.pushFilter filters f)
      rw [List.foldl_cons, hadded, IcebergTableScan.pushFilter]
      split
      · exact ⟨added, rfl, fun g hg => List.mem_cons_of_mem f (hmem g hg)⟩
      · refine ⟨f :: added, by rw [List.append_assoc, List.singleton_append], ?_⟩
        intro g hg
        rcases List.mem_cons.mp hg with rfl | hg
        · exact List.mem_cons_self
        · exact List.mem_cons_of_mem f (hmem g hg)

/-- On the heap, every attached filter is represented by a filter of the same value. -/
theorem forall_foldl_pushFilter {heap : ℕ → PhysicalExpr} {Q : PhysicalExpr → Prop}
    (extra : List ArcExpr) (hextra : ∀ f ∈ extra, f.expr = heap f.ptr) :
    ∀ filters : List ArcExpr, (∀ f ∈ filters, f.expr = heap f.ptr) →
      ((∀ f ∈ extra.foldl IcebergTableScan.pushFilter filters, Q f.expr) ↔
        (∀ f ∈ filters, Q f.expr) ∧ ∀ f ∈ extra, Q f.expr) := by
  induction extra with
  | nil =>
      intro filters _
      simp
  | cons f extra ih =>
      intro filters hfilters
      have hf := hextra f List.mem_cons_self
      have hpush : (∀ g ∈ IcebergTableScan.pushFilter filters f, g.expr = heap g.ptr) ∧
          ((∀ g ∈ IcebergTableScan.pushFilter filters f, Q g.expr) ↔
            (∀ g ∈ filters, Q g.expr) ∧ Q f.expr) := by
        unfold IcebergTableScan.pushFilter
        split
        · -- the object is there already, so its value is checked already
          rename_i hany
          obtain ⟨g, hg, hptr⟩ := List.any_eq_true.mp hany
          have hexpr : g.expr = f.expr := by
            rw [hfilters g hg, hf, beq_iff_eq.mp hptr]
          refine ⟨hfilters, fun h => ⟨h, hexpr ▸ h g hg⟩, fun h => h.1⟩
        · simp only [List.mem_append, List.mem_singleton, or_imp, forall_and, forall_eq, and_true]
          exact ⟨hfilters, hf⟩
      rw [List.foldl_cons, ih (fun g hg => hextra g (List.mem_cons_of_mem f hg)) _ hpush.1, hpush.2]
      simp only [List.mem_cons, or_imp, forall_and, forall_eq]
      tauto

section

variable {E : Engine} {heap : ℕ → PhysicalExpr} {s : IcebergTableScan} {extra : List ArcExpr}

/-- The scan asks for every predicate extracted from the filters. -/
def AsksFor (E : Engine) (filters : List ArcExpr) (row : Row) : Prop :=
  ∀ f ∈ filters, ∀ p ∈ extractPushdownPredicates (E.resolved f), p.isTrueOn row

/-- **A scan with further filters** keeps the rows that satisfy what is extracted from them. -/
theorem keeps_withExtraPhysicalFilters (hs : ∀ f ∈ s.physicalFilters, f.expr = heap f.ptr)
    (hextra : ∀ f ∈ extra, f.expr = heap f.ptr) (row : Row) :
    (s.withExtraPhysicalFilters extra).keeps E.current row ↔
      s.keeps E.current row ∧ AsksFor E extra row := by
  have hfold := forall_foldl_pushFilter
    (Q := fun e => ∀ p ∈ convertPhysicalExprToPredicates E.current e, p.isTrueOn row) extra hextra
    s.physicalFilters hs
  rw [IcebergTableScan.keeps_iff, IcebergTableScan.keeps_iff]
  show optTrueOn s.predicates row ∧ _ ↔ _
  rw [and_assoc]
  exact and_congr_right fun _ => hfold

/-- Without looking at the heap, further filters only narrow the scan. -/
theorem keeps_of_keeps_withExtra {row : Row}
    (h : (s.withExtraPhysicalFilters extra).keeps E.current row) : s.keeps E.current row := by
  obtain ⟨added, hadded, -⟩ := foldl_pushFilter_append extra s.physicalFilters
  rw [IcebergTableScan.keeps_iff] at h ⊢
  refine ⟨h.1, fun f hf => h.2 f ?_⟩
  show f ∈ extra.foldl IcebergTableScan.pushFilter s.physicalFilters
  rw [hadded]
  exact List.mem_append_left _ hf

/-- Nor do they ask for more than their predicates. -/
theorem keeps_withExtra_of_asksFor {row : Row} (h : s.keeps E.current row)
    (hasks : AsksFor E extra row) : (s.withExtraPhysicalFilters extra).keeps E.current row := by
  obtain ⟨added, hadded, hmem⟩ := foldl_pushFilter_append extra s.physicalFilters
  rw [IcebergTableScan.keeps_iff] at h ⊢
  refine ⟨h.1, ?_⟩
  intro f hf
  have hf' : f ∈ s.physicalFilters ++ added := hadded ▸ hf
  rcases List.mem_append.mp hf' with hf' | hf'
  · exact h.2 f hf'
  · exact hasks f (hmem f hf')

/-- A scan that has gained no filter is the scan. -/
theorem withExtra_eq_self
    (h : (s.withExtraPhysicalFilters extra).physicalFilters.length = s.physicalFilters.length) :
    s.withExtraPhysicalFilters extra = s := by
  obtain ⟨added, hadded, -⟩ := foldl_pushFilter_append extra s.physicalFilters
  have hsame : (s.withExtraPhysicalFilters extra).physicalFilters = s.physicalFilters ++ added := hadded
  have hnil : added = [] := by
    rw [hsame, List.length_append] at h
    exact List.length_eq_zero_iff.mp (by omega)
  rw [hnil, List.append_nil] at hsame
  show { s with physicalFilters := (s.withExtraPhysicalFilters extra).physicalFilters } = s
  rw [hsame]

end

/-! ### The flag -/

theorem rebuilt_spec {child : Transformed} {i i' : ExecutionPlan}
    (rebuild : ExecutionPlan → ExecutionPlan) (hdata : child.data = i') (hflag : child.transformed = false → i' = i) :
    (rebuilt child (rebuild i) rebuild).data = rebuild i' ∧
      ((rebuilt child (rebuild i) rebuild).transformed = false → rebuild i' = rebuild i) := by
  unfold rebuilt
  cases hchild : child.transformed with
  | true => exact ⟨congrArg rebuild hdata, fun h => by cases h⟩
  | false =>
      have hsame := hflag hchild
      exact ⟨congrArg rebuild hsame.symm, fun _ => congrArg rebuild hsame⟩

/-- **The flag only saves rebuilding**: the rule returns the plan with the filters attached, and says
that nothing changed only if nothing did. -/
theorem pushFiltersToFactScans_spec : ∀ (p : ExecutionPlan) (inherited : List ArcExpr),
    (pushFiltersToFactScans p inherited).data = pushed inherited p ∧
      ((pushFiltersToFactScans p inherited).transformed = false → pushed inherited p = p)
  | .scan s, inherited => by
      simp only [pushFiltersToFactScans, pushed, attachFilters]
      split
      · split
        · rename_i hlen
          have hsame := withExtra_eq_self hlen
          exact ⟨by rw [hsame], fun _ => by rw [hsame]⟩
        · exact ⟨rfl, fun h => by cases h⟩
      · exact ⟨rfl, fun _ => rfl⟩
  | .hashJoin l r j, inherited => by
      obtain ⟨hl, hl'⟩ := pushFiltersToFactScans_spec l inherited
      obtain ⟨hr, hr'⟩ := pushFiltersToFactScans_spec r (probeFilters inherited j)
      simp only [pushFiltersToFactScans, pushed]
      split
      · exact ⟨by rw [hl, hr], fun h => by cases h⟩
      · rename_i hflags
        rw [Bool.not_eq_true, Bool.or_eq_false_iff] at hflags
        have hsame := congrArg₂ (ExecutionPlan.hashJoin · · j) (hl' hflags.1) (hr' hflags.2)
        exact ⟨hsame.symm, fun _ => hsame⟩
  | .projection i exprs, inherited =>
      have h := pushFiltersToFactScans_spec i inherited
      rebuilt_spec (.projection · exprs) h.1 h.2
  | .filter i e, inherited =>
      have h := pushFiltersToFactScans_spec i inherited
      rebuilt_spec (.filter · e) h.1 h.2
  | .limit i skip fetch, inherited =>
      have h := pushFiltersToFactScans_spec i inherited
      rebuilt_spec (.limit · skip fetch) h.1 h.2
  | .aggregate i groupBy aggregates, inherited =>
      have h := pushFiltersToFactScans_spec i inherited
      rebuilt_spec (.aggregate · groupBy aggregates) h.1 h.2
  | .wrapper kind i, inherited =>
      have h := pushFiltersToFactScans_spec i inherited
      rebuilt_spec (.wrapper kind) h.1 h.2
  | .union [i], inherited =>
      have h := pushFiltersToFactScans_spec i inherited
      rebuilt_spec (fun i' => .union [i']) h.1 h.2
  | .other name w [i], inherited =>
      have h := pushFiltersToFactScans_spec i inherited
      rebuilt_spec (fun i' => .other name w [i']) h.1 h.2
  | .union [], _ => ⟨rfl, fun _ => rfl⟩
  | .union (_ :: _ :: _), _ => ⟨rfl, fun _ => rfl⟩
  | .other _ _ [], _ => ⟨rfl, fun _ => rfl⟩
  | .other _ _ (_ :: _ :: _), _ => ⟨rfl, fun _ => rfl⟩

/-! ### The shape is kept -/

/-- Attached filters leave the rest of a scan as it is. -/
theorem attachFilters_fields (extra : List ArcExpr) (s : IcebergTableScan) :
    (attachFilters extra s).outputSchema = s.outputSchema ∧ (attachFilters extra s).limit = s.limit ∧
      (attachFilters extra s).tableRows = s.tableRows ∧
      (attachFilters extra s).isLargeFactTable = s.isLargeFactTable := by
  unfold attachFilters
  split <;> exact ⟨rfl, rfl, rfl, rfl⟩

/-- A scan that is not large gets no filters. -/
theorem attachFilters_small (extra : List ArcExpr) {s : IcebergTableScan}
    (hs : s.isLargeFactTable = false) : attachFilters extra s = s := by
  rw [attachFilters, hs]
  rfl

theorem bare_attachFilters (inherited : List ArcExpr) (s : IcebergTableScan) :
    bare (attachFilters inherited s) = bare s := by
  unfold attachFilters
  split <;> rfl

theorem shape_pushed : ∀ (inherited : List ArcExpr) (p : ExecutionPlan), shape (pushed inherited p) = shape p
  | inherited, .scan s => congrArg ExecutionPlan.scan (bare_attachFilters inherited s)
  | inherited, .hashJoin l r j =>
      congrArg₂ (ExecutionPlan.hashJoin · · j) (shape_pushed inherited l)
        (shape_pushed (probeFilters inherited j) r)
  | inherited, .projection i exprs =>
      congrArg (ExecutionPlan.projection · exprs) (shape_pushed inherited i)
  | inherited, .filter i e => congrArg (ExecutionPlan.filter · e) (shape_pushed inherited i)
  | inherited, .limit i skip fetch =>
      congrArg (ExecutionPlan.limit · skip fetch) (shape_pushed inherited i)
  | inherited, .aggregate i groupBy aggregates =>
      congrArg (ExecutionPlan.aggregate · groupBy aggregates) (shape_pushed inherited i)
  | inherited, .wrapper kind i => congrArg (ExecutionPlan.wrapper kind) (shape_pushed inherited i)
  | inherited, .union [i] => congrArg (fun i' => ExecutionPlan.union [i']) (shape_pushed inherited i)
  | inherited, .other name w [i] =>
      congrArg (fun i' => ExecutionPlan.other name w [i']) (shape_pushed inherited i)
  | _, .union [] => rfl
  | _, .union (_ :: _ :: _) => rfl
  | _, .other _ _ [] => rfl
  | _, .other _ _ (_ :: _ :: _) => rfl

theorem width_pushed (inherited : List ArcExpr) (p : ExecutionPlan) :
    (pushed inherited p).width = p.width := by
  rw [← width_shape, shape_pushed, width_shape]

theorem factTarget_seesShape (E : Engine) (d : ArcExpr) : (factTarget E d).SeesShape := fun _ => rfl

/-! ### One filter -/

section

variable {E : Engine} {d : ArcExpr}

/-- Every extracted predicate comes from an extracted conjunct. -/
theorem exists_extractedConjunct {e : PhysicalExpr} {p : Predicate}
    (h : p ∈ extractPushdownPredicates e) :
    ∃ c ∈ extractedConjuncts e, p ∈ extractPushdownPredicates c := by
  obtain ⟨c, hc, hp⟩ := (mem_extract_iff_conjuncts e p).mp h
  refine ⟨c, List.mem_filter.mpr ⟨hc, ?_⟩, hp⟩
  cases hextract : extractPushdownPredicates c with
  | nil =>
      rw [hextract] at hp
      cases hp
  | cons => rfl

theorem conjunctsPass_eq_true {ρ : String → Option Value} : conjunctsPass E d ρ = true ↔
    ∀ e ∈ extractedConjuncts (E.resolved d), e.isTrue E.functions fun c => ρ c.name := by
  simp only [conjunctsPass, List.all_eq_true, decide_eq_true_eq]

/-- The conjuncts look at their columns only. -/
theorem conjunctsPass_congr {ρ ρ' : String → Option Value}
    (h : ∀ c ∈ (factTarget E d).columns, ρ c = ρ' c) : conjunctsPass E d ρ = conjunctsPass E d ρ' := by
  have hconjunct : ∀ e ∈ extractedConjuncts (E.resolved d),
      e.isTrue E.functions (fun c => ρ c.name) ↔ e.isTrue E.functions (fun c => ρ' c.name) := by
    intro e he
    have hvalue : e.evaluate E.functions (fun c => ρ c.name) =
        e.evaluate E.functions (fun c => ρ' c.name) := by
      apply PhysicalExpr.evaluate_congr
      intro c hc
      exact h c.name (List.mem_flatMap.mpr ⟨e, he, List.mem_map_of_mem hc⟩)
    rw [PhysicalExpr.isTrue, PhysicalExpr.isTrue, hvalue]
  rw [Bool.eq_iff_iff, conjunctsPass_eq_true, conjunctsPass_eq_true]
  exact forall₂_congr hconjunct

/-- **The filter narrows the fact scans by its extracted conjuncts.** -/
theorem narrows_fact (hok : ∀ e ∈ extractedConjuncts (E.resolved d), lossesOk true e = true) :
    Narrows E (factTarget E d) (attachFilters [d]) (conjunctsPass E d) where
  unchanged _ hs := attachFilters_small [d] hs
  outputSchema s := (attachFilters_fields [d] s).1
  limit s := (attachFilters_fields [d] s).2.1
  tableRows s := (attachFilters_fields [d] s).2.2.1
  fewer s row hk := by
    unfold attachFilters at hk
    split at hk
    · exact keeps_of_keeps_withExtra hk
    · exact hk
  enough s row hs hk hΦ := by
    have hs' : s.isLargeFactTable = true := hs
    rw [attachFilters, if_pos hs']
    apply keeps_withExtra_of_asksFor hk
    intro f hf p hp
    rw [List.mem_singleton.mp hf] at hp
    obtain ⟨e, he, hpe⟩ := exists_extractedConjunct hp
    exact extract_complete (hok e he) (conjunctsPass_eq_true.mp hΦ e he) p hpe
  congr _ _ h := conjunctsPass_congr h
  nulls h := h

/-- A probe row that passes the filter passes its extracted conjuncts, read by name. -/
theorem conjunctsPass_of_passes {pos : String → ℕ}
    (hpos : ∀ e ∈ extractedConjuncts (E.resolved d), ∀ c ∈ e.collectColumns, pos c.name = c.index)
    {t : Tuple} (h : E.passes (E.resolved d) t = true) : filterAt (conjunctsPass E d) pos t = true := by
  have htrue : (E.resolved d).isTrue E.functions (cells t) := of_decide_eq_true h
  rw [PhysicalExpr.isTrue_iff_conjuncts] at htrue
  apply conjunctsPass_eq_true.mpr
  intro e he
  have hconjunct := htrue e (List.mem_filter.mp he).1
  have hvalue : e.evaluate E.functions (fun c => t (pos c.name)) = e.evaluate E.functions (cells t) := by
    apply PhysicalExpr.evaluate_congr
    intro c hc
    rw [hpos e he c hc]
    rfl
  rw [PhysicalExpr.isTrue, hvalue]
  exact hconjunct

end

/-! ### Filters from further up -/

/-- Scans that return the same rows. -/
theorem scanRows_congr {E : Engine} {s s' : IcebergTableScan} (hschema : s'.outputSchema = s.outputSchema)
    (hlimit : s'.limit = s.limit) (hrows : s'.tableRows = s.tableRows)
    (hkeeps : ∀ row, s'.keeps E.current row ↔ s.keeps E.current row) : E.scanRows s' = E.scanRows s := by
  have htuple : Engine.scanTuple s' = Engine.scanTuple s := by
    funext row i
    rw [Engine.scanTuple, Engine.scanTuple, hschema]
  have hfilter : (s.tableRows.filter fun row => decide (s'.keeps E.current row)) =
      s.tableRows.filter fun row => decide (s.keeps E.current row) := by
    apply List.filter_congr
    intro row _
    rw [decide_eq_decide]
    exact hkeeps row
  rw [Engine.scanRows, Engine.scanRows, hlimit, hrows, htuple, hfilter]

theorem keeps_attachFilters {E : Engine} {heap : ℕ → PhysicalExpr} {s : IcebergTableScan}
    {extra : List ArcExpr} (hs : ∀ f ∈ s.physicalFilters, f.expr = heap f.ptr)
    (hextra : ∀ f ∈ extra, f.expr = heap f.ptr) (row : Row) :
    (attachFilters extra s).keeps E.current row ↔
      s.keeps E.current row ∧ (s.isLargeFactTable = true → AsksFor E extra row) := by
  unfold attachFilters
  cases hlarge : s.isLargeFactTable with
  | true =>
      rw [if_pos rfl, keeps_withExtraPhysicalFilters hs hextra]
      simp
  | false => simp

/-- Attached filters are on the heap. -/
theorem onHeap_attachFilters {heap : ℕ → PhysicalExpr} {s : IcebergTableScan} {extra : List ArcExpr}
    (hs : ∀ f ∈ s.physicalFilters, f.expr = heap f.ptr) (hextra : ∀ f ∈ extra, f.expr = heap f.ptr) :
    ∀ f ∈ (attachFilters extra s).physicalFilters, f.expr = heap f.ptr := by
  intro f hf
  unfold attachFilters at hf
  split at hf
  · obtain ⟨added, hadded, hmem⟩ := foldl_pushFilter_append extra s.physicalFilters
    have hf' : f ∈ s.physicalFilters ++ added := hadded ▸ hf
    rcases List.mem_append.mp hf' with hf' | hf'
    · exact hs f hf'
    · exact hextra f (hmem f hf')
  · exact hs f hf

theorem asksFor_append {E : Engine} {I J : List ArcExpr} {row : Row} :
    AsksFor E (I ++ J) row ↔ AsksFor E I row ∧ AsksFor E J row := by
  simp only [AsksFor, List.mem_append, or_imp, forall_and]

/-- At one scan, filters can be attached in two steps. -/
theorem scanRows_attach_append {E : Engine} {heap : ℕ → PhysicalExpr} {s : IcebergTableScan}
    {I J : List ArcExpr} (hs : ∀ f ∈ s.physicalFilters, f.expr = heap f.ptr)
    (hI : ∀ f ∈ I, f.expr = heap f.ptr) (hJ : ∀ f ∈ J, f.expr = heap f.ptr) :
    E.scanRows (attachFilters (I ++ J) s) = E.scanRows (attachFilters I (attachFilters J s)) := by
  have hIJ : ∀ f ∈ I ++ J, f.expr = heap f.ptr := by
    intro f hf
    rcases List.mem_append.mp hf with hf | hf
    · exact hI f hf
    · exact hJ f hf
  obtain ⟨hschema, hlimit, hrows, -⟩ := attachFilters_fields (I ++ J) s
  obtain ⟨hschema₁, hlimit₁, hrows₁, hlarge₁⟩ := attachFilters_fields J s
  obtain ⟨hschema₂, hlimit₂, hrows₂, -⟩ := attachFilters_fields I (attachFilters J s)
  apply scanRows_congr
  · rw [hschema, hschema₂, hschema₁]
  · rw [hlimit, hlimit₂, hlimit₁]
  · rw [hrows, hrows₂, hrows₁]
  · intro row
    rw [keeps_attachFilters hs hIJ, keeps_attachFilters (onHeap_attachFilters hs hJ) hI,
      keeps_attachFilters hs hJ, hlarge₁, asksFor_append]
    tauto

/-- The filters that a probe side inherits are on the heap. -/
theorem onHeap_probeFilters {heap : ℕ → PhysicalExpr} {J : List ArcExpr} {j : HashJoin}
    (hJ : ∀ f ∈ J, f.expr = heap f.ptr) (hj : ∀ d, j.dynamicFilter = some d → d.expr = heap d.ptr) :
    ∀ f ∈ probeFilters J j, f.expr = heap f.ptr := by
  intro f hf
  rcases List.mem_append.mp hf with hf | hf
  · exact hJ f hf
  · exact hj f (Option.mem_toList.mp hf)

/-- **Filters from further up can be attached afterwards**: inheriting `I` and then `J` returns the rows
of inheriting `J` first and attaching `I` to the result. -/
theorem eval_pushed_append {E : Engine} {heap : ℕ → PhysicalExpr} {I : List ArcExpr}
    (hI : ∀ f ∈ I, f.expr = heap f.ptr) : ∀ (p : ExecutionPlan) (J : List ArcExpr), OnHeap heap p →
      (∀ f ∈ J, f.expr = heap f.ptr) →
      E.eval (pushed (I ++ J) p) = E.eval (mapScans singleChild (attachFilters I) (pushed J p))
  | .scan s, J, hp, hJ => scanRows_attach_append hp hI hJ
  | .hashJoin l r j, J, ⟨hl, hr, hj⟩, hJ => by
      have hprobe : probeFilters (I ++ J) j = I ++ probeFilters J j := List.append_assoc _ _ _
      have hwidth : ∀ q, (mapScans singleChild (attachFilters I) q).width = q.width :=
        width_mapScans _ fun s => (attachFilters_fields I s).1
      rw [pushed, pushed, mapScans, Engine.eval, Engine.eval, hprobe,
        eval_pushed_append hI l J hl hJ, eval_pushed_append hI r _ hr (onHeap_probeFilters hJ hj),
        hwidth, hwidth, width_pushed, width_pushed, width_pushed, width_pushed]
  | .projection i _, J, hp, hJ => by
      rw [pushed, pushed, mapScans, Engine.eval, Engine.eval, eval_pushed_append hI i J hp hJ]
  | .filter i _, J, hp, hJ => by
      rw [pushed, pushed, mapScans, Engine.eval, Engine.eval, eval_pushed_append hI i J hp hJ]
  | .limit i _ _, J, hp, hJ => by
      rw [pushed, pushed, mapScans, Engine.eval, Engine.eval, eval_pushed_append hI i J hp hJ]
  | .aggregate i _ _, J, hp, hJ => by
      rw [pushed, pushed, mapScans, Engine.eval, Engine.eval, eval_pushed_append hI i J hp hJ]
  | .wrapper _ i, J, hp, hJ => by
      rw [pushed, pushed, mapScans, Engine.eval, Engine.eval, eval_pushed_append hI i J hp hJ]
  | .union [i], J, hp, hJ =>
      congrArg (fun rows => [rows].flatten) (eval_pushed_append hI i J hp.1 hJ)
  | .other name _ [i], J, hp, hJ =>
      congrArg (fun rows => E.operator name [rows]) (eval_pushed_append hI i J hp.1 hJ)
  | .union [], _, _, _ => rfl
  | .union (_ :: _ :: _), _, _, _ => rfl
  | .other _ _ [], _, _, _ => rfl
  | .other _ _ (_ :: _ :: _), _, _, _ => rfl

mutual

/-- Replacing scans by scans with the same rows changes nothing. -/
theorem eval_mapScans_eq {E : Engine} {g : IcebergTableScan → IcebergTableScan} (visits : ℕ → Bool)
    (hschema : ∀ s, (g s).outputSchema = s.outputSchema) (hrows : ∀ s, E.scanRows (g s) = E.scanRows s) :
    ∀ p : ExecutionPlan, E.eval (mapScans visits g p) = E.eval p
  | .scan s => hrows s
  | .hashJoin l r j => by
      rw [mapScans, Engine.eval, Engine.eval, width_mapScans visits hschema, width_mapScans visits hschema,
        eval_mapScans_eq visits hschema hrows l, eval_mapScans_eq visits hschema hrows r]
  | .projection i _ => by rw [mapScans, Engine.eval, Engine.eval, eval_mapScans_eq visits hschema hrows i]
  | .filter i _ => by rw [mapScans, Engine.eval, Engine.eval, eval_mapScans_eq visits hschema hrows i]
  | .limit i _ _ => by rw [mapScans, Engine.eval, Engine.eval, eval_mapScans_eq visits hschema hrows i]
  | .aggregate i _ _ => by rw [mapScans, Engine.eval, Engine.eval, eval_mapScans_eq visits hschema hrows i]
  | .wrapper _ i => by rw [mapScans, Engine.eval, Engine.eval, eval_mapScans_eq visits hschema hrows i]
  | .union is => by
      rw [mapScans, Engine.eval, Engine.eval]
      split
      · rw [evalList_mapScansList_eq visits hschema hrows is]
      · rfl
  | .other _ _ is => by
      rw [mapScans, Engine.eval, Engine.eval]
      split
      · rw [evalList_mapScansList_eq visits hschema hrows is]
      · rfl

theorem evalList_mapScansList_eq {E : Engine} {g : IcebergTableScan → IcebergTableScan}
    (visits : ℕ → Bool) (hschema : ∀ s, (g s).outputSchema = s.outputSchema)
    (hrows : ∀ s, E.scanRows (g s) = E.scanRows s) :
    ∀ ps : List ExecutionPlan, E.evalList (mapScansList visits g ps) = E.evalList ps
  | [] => rfl
  | p :: ps => by
      rw [mapScansList, Engine.evalList, Engine.evalList, eval_mapScans_eq visits hschema hrows p,
        evalList_mapScansList_eq visits hschema hrows ps]

end

/-! ### The rows -/

/-- A filter from which nothing is extracted changes no scan. -/
theorem scanRows_attach_nothing {E : Engine} {d : ArcExpr}
    (h : extractPushdownPredicates (E.resolved d) = []) (s : IcebergTableScan) :
    E.scanRows (attachFilters [d] s) = E.scanRows s := by
  obtain ⟨hschema, hlimit, hrows, -⟩ := attachFilters_fields [d] s
  apply scanRows_congr hschema hlimit hrows
  intro row
  unfold attachFilters
  split
  · refine ⟨keeps_of_keeps_withExtra, fun hk => keeps_withExtra_of_asksFor hk ?_⟩
    intro f hf p hp
    rw [List.mem_singleton.mp hf, h] at hp
    cases hp
  · rfl

/-- **One harmless filter keeps the rows of its join.** -/
theorem FilterSafe.joinOutput_eq {E : Engine} {probe probe' : ExecutionPlan} {d : ArcExpr}
    (h : FilterSafe E probe d) (hshape : shape probe' = shape probe) {j : HashJoin} {w w' : ℕ}
    {build : List Tuple}
    (hsound : ∀ rows : List Tuple, E.joinOutput j w w' build (rows.filter (E.passes (E.resolved d))) =
      E.joinOutput j w w' build rows) :
    E.joinOutput j w w' build (E.eval (mapScans singleChild (attachFilters [d]) probe')) =
      E.joinOutput j w w' build (E.eval probe') := by
  rcases h with h | h | ⟨hok, pos, hpos, hreach⟩
  · rw [← untouched_of_shape (factTarget_seesShape E d) hshape] at h
    have hsame : mapScans singleChild (attachFilters [d]) probe' = probe' :=
      mapScans_of_untouched (T := factTarget E d) (fun _ hs => attachFilters_small [d] hs) probe' h
    rw [hsame]
  · rw [eval_mapScans_eq singleChild (fun s => (attachFilters_fields [d] s).1)
      (scanRows_attach_nothing h)]
  · have hagree := agreeOn_mapScans (narrows_fact hok) probe' pos
      (reaches_of_shape (factTarget_seesShape E d) hshape hreach)
    have hpass : AgreeOn (E.passes (E.resolved d)) (E.eval probe')
        (E.eval (mapScans singleChild (attachFilters [d]) probe')) :=
      hagree.mono fun t ht => conjunctsPass_of_passes hpos ht
    calc E.joinOutput j w w' build (E.eval (mapScans singleChild (attachFilters [d]) probe'))
        = E.joinOutput j w w' build ((E.eval (mapScans singleChild (attachFilters [d]) probe')).filter
            (E.passes (E.resolved d))) := (hsound _).symm
      _ = E.joinOutput j w w' build ((E.eval probe').filter (E.passes (E.resolved d))) := by rw [hpass]
      _ = E.joinOutput j w w' build (E.eval probe') := hsound _

/-- **The rule keeps the rows** of every plan whose dynamic filters are harmless. -/
theorem eval_pushed {E : Engine} {heap : ℕ → PhysicalExpr} : ∀ p : ExecutionPlan, OnHeap heap p →
    DynamicFiltersSound E p → FactSafe E p → E.eval (pushed [] p) = E.eval p
  | .scan s, _, _, _ => by
      have hsame : attachFilters [] s = s := by
        unfold attachFilters
        split <;> rfl
      rw [pushed, hsame]
  | .hashJoin l r j, ⟨hl, hr, hj⟩, ⟨hsl, hsr, hsound⟩, ⟨hfl, hfr, hsafe⟩ => by
      have hleft := eval_pushed l hl hsl hfl
      have hright := eval_pushed r hr hsr hfr
      rw [pushed, Engine.eval, Engine.eval, width_pushed, width_pushed, hleft]
      cases hd : j.dynamicFilter with
      | none =>
          have hprobe : probeFilters [] j = [] := by
            rw [probeFilters, hd]
            rfl
          rw [hprobe, hright]
      | some d =>
          have hprobe : probeFilters [] j = [d] ++ [] := by
            rw [probeFilters, hd]
            rfl
          have hheap : ∀ f ∈ [d], f.expr = heap f.ptr := by
            intro f hf
            rw [List.mem_singleton.mp hf]
            exact hj d hd
          rw [hprobe, eval_pushed_append hheap r [] hr fun f hf => absurd hf List.not_mem_nil,
            (hsafe d hd).joinOutput_eq (shape_pushed [] r) (hsound d hd), hright]
  | .projection i _, hp, hs, hf => by rw [pushed, Engine.eval, Engine.eval, eval_pushed i hp hs hf]
  | .filter i _, hp, hs, hf => by rw [pushed, Engine.eval, Engine.eval, eval_pushed i hp hs hf]
  | .limit i _ _, hp, hs, hf => by rw [pushed, Engine.eval, Engine.eval, eval_pushed i hp hs hf]
  | .aggregate i _ _, hp, hs, hf => by rw [pushed, Engine.eval, Engine.eval, eval_pushed i hp hs hf]
  | .wrapper _ i, hp, hs, hf => by rw [pushed, Engine.eval, Engine.eval, eval_pushed i hp hs hf]
  | .union [i], hp, hs, hf =>
      congrArg (fun rows => [rows].flatten) (eval_pushed i hp.1 hs.1 hf.1)
  | .other name _ [i], hp, hs, hf =>
      congrArg (fun rows => E.operator name [rows]) (eval_pushed i hp.1 hs.1 hf.1)
  | .union [], _, _, _ => rfl
  | .union (_ :: _ :: _), _, _, _ => rfl
  | .other _ _ [], _, _, _ => rfl
  | .other _ _ (_ :: _ :: _), _, _, _ => rfl

/-! ### The errors -/

/-- The merged predicate names a column. -/
def Names (p : Option Predicate) (c : String) : Prop := ∃ q, p = some q ∧ c ∈ q.rewriteNot.columns

theorem names_andOption {m : Option Predicate} {p : Predicate} {c : String} (h : Names (andOption m p) c) :
    Names m c ∨ c ∈ p.columns := by
  obtain ⟨q, hq, hc⟩ := h
  cases m with
  | none =>
      obtain rfl := Option.some.inj hq
      exact .inr (Predicate.mem_columns_rewriteNot hc)
  | some m =>
      obtain rfl := Option.some.inj hq
      rcases Predicate.mem_columns_rewriteNot_and hc with hc | hc
      · exact .inl ⟨m, rfl, hc⟩
      · exact .inr (Predicate.mem_columns_rewriteNot hc)

theorem names_foldl_andOption {c : String} (ps : List Predicate) : ∀ m : Option Predicate,
    Names (ps.foldl andOption m) c → Names m c ∨ ∃ p ∈ ps, c ∈ p.columns := by
  induction ps with
  | nil =>
      intro m h
      exact .inl h
  | cons p ps ih =>
      intro m h
      rcases ih (andOption m p) h with h | ⟨q, hq, hc⟩
      · rcases names_andOption h with h | hc
        · exact .inl h
        · exact .inr ⟨p, List.mem_cons_self, hc⟩
      · exact .inr ⟨q, List.mem_cons_of_mem p hq, hc⟩

/-- The merge names the columns of the static predicate and of what is extracted. -/
theorem names_mergeIcebergPredicates {current : ℕ → PhysicalExpr} {c : String}
    (filters : List PhysicalExpr) : ∀ m : Option Predicate,
      Names (mergeIcebergPredicates current m filters) c →
      Names m c ∨ ∃ f ∈ filters, ∃ p ∈ convertPhysicalExprToPredicates current f, c ∈ p.columns := by
  induction filters with
  | nil =>
      intro m h
      exact .inl h
  | cons f filters ih =>
      intro m h
      rcases ih _ h with h | ⟨g, hg, hc⟩
      · rcases names_foldl_andOption _ m h with h | hc
        · exact .inl h
        · exact .inr ⟨f, List.mem_cons_self, hc⟩
      · exact .inr ⟨g, List.mem_cons_of_mem f hg, hc⟩

/-- The columns that a filter makes a scan name. -/
def extractedColumns (E : Engine) (d : ArcExpr) : List String :=
  (extractPushdownPredicates (E.resolved d)).flatMap Predicate.columns

/-- A scan still builds when it has the columns of the attached filters. -/
theorem Builds.attach {E : Engine} {s : IcebergTableScan} (h : Builds E s) {extra : List ArcExpr}
    (hcols : s.isLargeFactTable = true → ∀ f ∈ extra, ∀ c ∈ extractedColumns E f, c ∈ s.tableSchema) :
    Builds E (attachFilters extra s) := by
  unfold attachFilters
  split
  · rename_i hlarge
    refine ⟨h.select, ?_⟩
    intro q hq c hc
    obtain ⟨added, hadded, hmem⟩ := foldl_pushFilter_append extra s.physicalFilters
    have hnames : Names (mergeIcebergPredicates E.current (s.mergedPredicate E.current)
        (added.map ArcExpr.expr)) c := by
      refine ⟨q, ?_, hc⟩
      rw [← hq, IcebergTableScan.mergedPredicate, IcebergTableScan.mergedPredicate,
        mergeIcebergPredicates, mergeIcebergPredicates, mergeIcebergPredicates, ← List.foldl_append,
        ← List.map_append, ← hadded]
      rfl
    rcases names_mergeIcebergPredicates _ _ hnames with ⟨p, hp, hc⟩ | ⟨e, he, p, hp, hc⟩
    · exact h.filter p hp c hc
    · obtain ⟨f, hf, rfl⟩ := List.mem_map.mp he
      exact hcols hlarge f (hmem f hf) c (List.mem_flatMap.mpr ⟨p, hp, hc⟩)
  · exact h

/-- Every large scan that the rule enters has the columns. -/
def Present (columns : List String) : ExecutionPlan → Prop
  | .scan s => s.isLargeFactTable = true → ∀ c ∈ columns, c ∈ s.tableSchema
  | .hashJoin l r _ => Present columns l ∧ Present columns r
  | .projection i _ | .filter i _ | .limit i _ _ | .aggregate i _ _ | .wrapper _ i => Present columns i
  | .union [i] | .other _ _ [i] => Present columns i
  | _ => True

section

variable {E : Engine} {d : ArcExpr} {columns : List String}

/-- A node with one child is untouched when the child is. -/
theorem untouchedList_single {i : ExecutionPlan}
    (h : (!(factTarget E d).visits [i].length || (factTarget E d).untouchedList [i]) = true) :
    (factTarget E d).untouched i = true := by
  have hand : ((factTarget E d).untouched i && true) = true := h
  rwa [Bool.and_true] at hand

theorem present_of_untouched : ∀ p : ExecutionPlan, (factTarget E d).untouched p = true →
    Present columns p
  | .scan s, h => by
      intro hlarge
      have hnot : (!s.isLargeFactTable) = true := h
      rw [hlarge] at hnot
      cases hnot
  | .hashJoin l r _, h => by
      rw [Target.untouched, Bool.and_eq_true] at h
      exact ⟨present_of_untouched l h.1, present_of_untouched r h.2⟩
  | .projection i _, h => present_of_untouched i h
  | .filter i _, h => present_of_untouched i h
  | .limit i _ _, h => present_of_untouched i h
  | .aggregate i _ _, h => present_of_untouched i h
  | .wrapper _ i, h => present_of_untouched i h
  | .union [i], h => present_of_untouched i (untouchedList_single h)
  | .other _ _ [i], h => present_of_untouched i (untouchedList_single h)
  | .union [], _ => trivial
  | .union (_ :: _ :: _), _ => trivial
  | .other _ _ [], _ => trivial
  | .other _ _ (_ :: _ :: _), _ => trivial

/-- Where the columns reach, the scans have them. -/
theorem present_of_reaches (hcols : ∀ c ∈ columns, c ∈ (factTarget E d).columns) :
    ∀ (p : ExecutionPlan) (pos : String → ℕ), (factTarget E d).reaches p pos → Executes E p →
      Present columns p
  | .scan s, pos, h, hexec => by
      intro hlarge c hc
      rcases h with h | ⟨-, h⟩
      · have hnot : s.isLargeFactTable = false := h
        rw [hlarge] at hnot
        cases hnot
      · exact hexec.select c (List.mem_of_getElem? (h c (hcols c hc)))
  | .hashJoin l r j, pos, h, hexec => by
      rcases h with h | ⟨-, hl, hr⟩
      · exact present_of_untouched (.hashJoin l r j) h
      · constructor
        · rcases hl with hl | ⟨posL, -, hl⟩
          · exact present_of_untouched l hl
          · exact present_of_reaches hcols l posL hl hexec.1
        · rcases hr with hr | ⟨posR, -, hr⟩
          · exact present_of_untouched r hr
          · exact present_of_reaches hcols r posR hr hexec.2
  | .projection i _, _, h, hexec => by
      rcases h with h | ⟨pos', -, h⟩
      · exact present_of_untouched i h
      · exact present_of_reaches hcols i pos' h hexec
  | .filter i _, pos, h, hexec => present_of_reaches hcols i pos h hexec
  | .limit i _ _, _, h, _ => present_of_untouched i h
  | .aggregate i _ _, _, h, hexec => by
      rcases h with h | ⟨-, pos', -, h⟩
      · exact present_of_untouched i h
      · exact present_of_reaches hcols i pos' h hexec
  | .wrapper _ i, pos, h, hexec => present_of_reaches hcols i pos h hexec
  | .union [i], pos, h, hexec => by
      rcases h with h | h
      · cases h
      · exact present_of_reaches hcols i pos h.1 hexec.1
  | .other _ _ [i], _, h, _ => present_of_untouched i (untouchedList_single h)
  | .union [], _, _, _ => trivial
  | .union (_ :: _ :: _), _, _, _ => trivial
  | .other _ _ [], _, _, _ => trivial
  | .other _ _ (_ :: _ :: _), _, _, _ => trivial

theorem present_nil : ∀ p : ExecutionPlan, Present [] p
  | .scan _ => fun _ _ hc => absurd hc List.not_mem_nil
  | .hashJoin l r _ => ⟨present_nil l, present_nil r⟩
  | .projection i _ => present_nil i
  | .filter i _ => present_nil i
  | .limit i _ _ => present_nil i
  | .aggregate i _ _ => present_nil i
  | .wrapper _ i => present_nil i
  | .union [i] => present_nil i
  | .other _ _ [i] => present_nil i
  | .union [] => trivial
  | .union (_ :: _ :: _) => trivial
  | .other _ _ [] => trivial
  | .other _ _ (_ :: _ :: _) => trivial

/-- A harmless filter names only columns that the scans have. -/
theorem FilterSafe.present {probe : ExecutionPlan} (h : FilterSafe E probe d)
    (hexec : Executes E probe) : Present (extractedColumns E d) probe := by
  rcases h with h | h | ⟨-, pos, -, hreach⟩
  · exact present_of_untouched probe h
  · have hnone : extractedColumns E d = [] := by
      rw [extractedColumns, h]
      rfl
    rw [hnone]
    exact present_nil probe
  · refine present_of_reaches ?_ probe pos hreach hexec
    intro c hc
    obtain ⟨p, hp, hcp⟩ := List.mem_flatMap.mp hc
    obtain ⟨e, he, hpe⟩ := exists_extractedConjunct hp
    exact List.mem_flatMap.mpr ⟨e, he, columns_of_extract hpe hcp⟩

end

/-- **The rule introduces no error** where every inherited filter names columns that the scans have. -/
theorem executes_pushed {E : Engine} : ∀ (p : ExecutionPlan) (inherited : List ArcExpr), Executes E p →
    FactSafe E p → (∀ f ∈ inherited, Present (extractedColumns E f) p) → Executes E (pushed inherited p)
  | .scan s, inherited, hexec, _, hpresent =>
      hexec.attach fun hlarge f hf => hpresent f hf hlarge
  | .hashJoin l r j, inherited, hexec, hsafe, hpresent => by
      refine ⟨executes_pushed l inherited hexec.1 hsafe.1 fun f hf => (hpresent f hf).1,
        executes_pushed r _ hexec.2 hsafe.2.1 ?_⟩
      intro f hf
      rcases List.mem_append.mp hf with hf | hf
      · exact (hpresent f hf).2
      · exact (hsafe.2.2 f (Option.mem_toList.mp hf)).present hexec.2
  | .projection i _, inherited, hexec, hsafe, hpresent => executes_pushed i inherited hexec hsafe hpresent
  | .filter i _, inherited, hexec, hsafe, hpresent => executes_pushed i inherited hexec hsafe hpresent
  | .limit i _ _, inherited, hexec, hsafe, hpresent => executes_pushed i inherited hexec hsafe hpresent
  | .aggregate i _ _, inherited, hexec, hsafe, hpresent => executes_pushed i inherited hexec hsafe hpresent
  | .wrapper _ i, inherited, hexec, hsafe, hpresent => executes_pushed i inherited hexec hsafe hpresent
  | .union [i], inherited, hexec, hsafe, hpresent =>
      ⟨executes_pushed i inherited hexec.1 hsafe.1 hpresent, trivial⟩
  | .other _ _ [i], inherited, hexec, hsafe, hpresent =>
      ⟨executes_pushed i inherited hexec.1 hsafe.1 hpresent, trivial⟩
  | .union [], _, hexec, _, _ => hexec
  | .union (_ :: _ :: _), _, hexec, _, _ => hexec
  | .other _ _ [], _, hexec, _, _ => hexec
  | .other _ _ (_ :: _ :: _), _, hexec, _, _ => hexec

/-- A filter that every matching probe row passes may drop probe rows, where the join does not show the
unmatched ones. -/
theorem joinOutput_filter_of_match {E : Engine} {j : HashJoin} {w w' : ℕ} {build : List Tuple}
    {q : Tuple → Bool} (hkeeps : j.joinType.rightContribution.keepsUnmatched = false)
    (hmatch : ∀ a ∈ build, ∀ b, E.matchRows j w a b = true → q b = true) (rows : List Tuple) :
    E.joinOutput j w w' build (rows.filter q) = E.joinOutput j w w' build rows := by
  have hmatters : Matters j.joinType (E.matchRows j w) (append w) (leftAlone j.joinType w)
      (rightAlone j.joinType w w') (fun _ => true) (fun _ => true) q build rows :=
    matters_of_match (P := fun _ => true) (fun a ha b _ hm => ⟨rfl, hmatch a ha b hm⟩)
      (.inl fun _ => rfl) (.inr ⟨hkeeps, rfl⟩)
  have hfilter := filter_joinRows_restrict hmatters
  simp only [List.filter_true] at hfilter
  exact hfilter.symm

/-- An engine in which the dynamic filter has become `name >= 1`. -/
def boundEngine (name : String) : Engine :=
  { plainEngine with
    current := fun _ => .binary (.column ⟨name, 0⟩) .gtEq (.literal (.int64 (some 1))) }

/-- The dynamic filter of the join. -/
def keyFilter : ArcExpr := ⟨0, .dynamicFilter 0 []⟩

/-- The dimension joined with a probe side on `k = name`, with a dynamic filter. -/
def filteredJoin (name : String) (probe : ExecutionPlan) : ExecutionPlan :=
  .hashJoin (.scan dimScan) probe
    { keyJoin .inner with
      on := [(.column ⟨"k", 0⟩, .column ⟨name, 0⟩)]
      dynamicFilter := some keyFilter }

/-- The only key of the dimension is `1`, so probe rows with a smaller key match nothing. -/
theorem dynamicFiltersSound_filteredJoin {name : String} {probe : ExecutionPlan}
    (hprobe : DynamicFiltersSound (boundEngine name) probe) :
    DynamicFiltersSound (boundEngine name) (filteredJoin name probe) := by
  refine ⟨trivial, hprobe, ?_⟩
  intro d hd rows
  obtain rfl : keyFilter = d := Option.some.inj hd
  apply joinOutput_filter_of_match rfl
  intro a ha b hm
  have hkey : a 0 = some (.integer 1) := by
    obtain rfl : a = Engine.scanTuple dimScan (keyRow (intKey 1)) := List.mem_singleton.mp ha
    rfl
  have heq : keysEqual .nullEqualsNothing (a 0) (b 0) = true := by
    have hand : ((keysEqual .nullEqualsNothing (a 0) (b 0) && true) && true) = true := hm
    rwa [Bool.and_true, Bool.and_true] at hand
  have hb : b 0 = some (.integer 1) := by
    cases hb : b 0 with
    | none =>
        rw [hkey, hb] at heq
        cases heq
    | some v =>
        rw [hkey, hb] at heq
        rw [← of_decide_eq_true heq]
  have htrue : asBool (evalOperator plainEngine.functions (b 0) .gtEq (some (.integer 1))) = some true := by
    rw [hb]
    decide
  exact decide_eq_true htrue

/-- The key of the fact table under the name `x`. -/
def renamedFact : ExecutionPlan := .projection (.scan factScan) [(.column ⟨"fk", 0⟩, "x")]

end IcebergDb.Plan
