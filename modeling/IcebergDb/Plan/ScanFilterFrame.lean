import IcebergDb.Plan.CollectLeft
import IcebergDb.Plan.FactFilterPushdown

/-!
# What the pushdown rules leave alone

`push_fk_bounds` and `push_filters_to_fact_scans` run after the distribution of a plan is settled, so they
must not touch anything but the filters of scans.

* `PlanTree` — a plan with all its parameters: `ν` stands for the kind and the parameters of an operator, and
  `Operators` for what DataFusion does with it;
* `Operators.pushFkBounds` and `Operators.pushFiltersToFactScans` — the two rules;
* `Narrowed` — what may become of a scan, and `Framed` — two plans that differ in such scans only;
* `Attribute` — a property of a plan that is computed from its inputs upwards and does not look at the
  filters of scans, like its output schema and its number of partitions;
* `unchanged_of_rules` — **both rules return plans that are the same but for the filters of scans.**
-/

namespace IcebergDb.Plan

open IcebergDb.Expr IcebergDb.Scan

/-! ### The plans -/

/-- A physical plan. -/
inductive PlanTree (ν : Type) where
  | scan (scan : IcebergTableScan)
  | hashJoin (left right : PlanTree ν) (join : HashJoinExec)
  | node (op : ν) (inputs : List (PlanTree ν))

/-- What DataFusion supplies: which operators `peel_single_input` goes through, and the answers of
`with_new_children`, which keeps the parameters of the operator or fails. -/
structure Operators (ν : Type) where
  peeled : ν → Bool
  joinRebuildError : HashJoinExec → PlanTree ν → PlanTree ν → Option String
  rebuildError : ν → List (PlanTree ν) → Option String

variable {ν : Type}

namespace Operators

variable (O : Operators ν)

/-- `with_new_children` of a hash join. -/
def rebuildJoin (l r : PlanTree ν) (j : HashJoinExec) : Except String (PlanTree ν) :=
  match O.joinRebuildError j l r with
  | some e => .error e
  | none => .ok (.hashJoin l r j)

/-- `with_new_children` of an operator, which a rule calls only where there are children. -/
def rebuild (op : ν) (inputs : List (PlanTree ν)) : Except String (PlanTree ν) :=
  if inputs.isEmpty then .ok (.node op inputs)
  else
    match O.rebuildError op inputs with
    | some e => .error e
    | none => .ok (.node op inputs)

/-! ### The sides of a join -/

/-- `peel_single_input`. -/
def peelSingleInput : PlanTree ν → PlanTree ν
  | .node op [i] => if O.peeled op then peelSingleInput i else .node op [i]
  | p => p

/-- `as_iceberg_scan`. -/
def asIcebergScan (p : PlanTree ν) : Option IcebergTableScan :=
  match O.peelSingleInput p with
  | .scan s => some s
  | _ => none

/-- `direct_dimension_scan`. -/
def directDimensionScan (p : PlanTree ν) : Option IcebergTableScan :=
  match O.asIcebergScan p with
  | some scan => if scan.predicates.isNone || scan.isFactLike then none else some scan
  | none => none

end Operators

mutual

/-- `contains_fact_iceberg_scan`. -/
def PlanTree.containsFactIcebergScan : PlanTree ν → Bool
  | .scan s => s.isLargeFactTable
  | .hashJoin l r _ => l.containsFactIcebergScan || r.containsFactIcebergScan
  | .node _ is => someContainsFactIcebergScan is

/-- Some of the plans contains one. -/
def someContainsFactIcebergScan : List (PlanTree ν) → Bool
  | [] => false
  | p :: ps => p.containsFactIcebergScan || someContainsFactIcebergScan ps

end

namespace Operators

variable (O : Operators ν)

/-- `resolve_dim_fact_keys`. -/
def resolveDimFactKeys (left right : PlanTree ν) (on : List (PhysicalExpr × PhysicalExpr)) :
    Option (IcebergTableScan × String × String) :=
  match joinColumnNames on with
  | none => none
  | some (leftKey, rightKey) =>
    match O.directDimensionScan left, right.containsFactIcebergScan with
    | some dim, true => some (dim, leftKey, rightKey)
    | _, _ =>
      match O.directDimensionScan right, left.containsFactIcebergScan with
      | some dim, true => some (dim, rightKey, leftKey)
      | _, _ => none

/-! ### Bounds on foreign keys -/

mutual

/-- `apply_predicate_to_fact_scans`. -/
def applyPredicateToFactScans (pred : Predicate) (factColumn : String) :
    PlanTree ν → Except String (PlanTree ν)
  | .scan s => .ok (.scan (narrowFactScan pred factColumn s))
  | .hashJoin l r j => do
      let l' ← applyPredicateToFactScans pred factColumn l
      let r' ← applyPredicateToFactScans pred factColumn r
      O.rebuildJoin l' r' j
  | .node op is => do
      let is' ← applyPredicateToEach pred factColumn is
      O.rebuild op is'

/-- `apply_predicate_to_fact_scans` on every child. -/
def applyPredicateToEach (pred : Predicate) (factColumn : String) :
    List (PlanTree ν) → Except String (List (PlanTree ν))
  | [] => .ok []
  | p :: ps => do
      let p' ← applyPredicateToFactScans pred factColumn p
      let ps' ← applyPredicateToEach pred factColumn ps
      .ok (p' :: ps')

end

variable (compute : IcebergTableScan → String → Except String (Option JoinKeyConstraint))

/-- `push_fk_bounds` at a join whose inputs are done. -/
def pushAtJoin (l r : PlanTree ν) (j : HashJoinExec) : Except String (PlanTree ν) :=
  match O.resolveDimFactKeys l r j.on with
  | none => .ok (.hashJoin l r j)
  | some (dim, dimKey, factKey) => do
      match ← compute dim dimKey with
      | none => .ok (.hashJoin l r j)
      | some c =>
          O.applyPredicateToFactScans (constraintToPredicate factKey c) factKey (.hashJoin l r j)

mutual

/-- `push_fk_bounds`, with `compute_join_key_constraint` as a parameter. -/
def pushFkBounds : PlanTree ν → Except String (PlanTree ν)
  | .scan s => .ok (.scan s)
  | .hashJoin l r j => do
      let l' ← pushFkBounds l
      let r' ← pushFkBounds r
      let _ ← O.rebuildJoin l' r' j
      O.pushAtJoin compute l' r' j
  | .node op is => do
      let is' ← pushFkBoundsOfEach is
      O.rebuild op is'

/-- `push_fk_bounds` on every child. -/
def pushFkBoundsOfEach : List (PlanTree ν) → Except String (List (PlanTree ν))
  | [] => .ok []
  | p :: ps => do
      let p' ← pushFkBounds p
      let ps' ← pushFkBoundsOfEach ps
      .ok (p' :: ps')

end

/-! ### Filters on fact scans -/

/-- `push_filters_to_fact_scans`: the plan, and whether it was transformed. -/
def pushFiltersToFactScans : PlanTree ν → List ArcExpr → Except String (PlanTree ν × Bool)
  | .scan s, inherited =>
      if s.isLargeFactTable then
        let updated := s.withExtraPhysicalFilters inherited
        if updated.physicalFilters.length = s.physicalFilters.length then .ok (.scan s, false)
        else .ok (.scan updated, true)
      else .ok (.scan s, false)
  | .hashJoin l r j, inherited => do
      let left ← pushFiltersToFactScans l inherited
      let right ← pushFiltersToFactScans r (inherited ++ j.dynamicFilter.toList)
      if left.2 || right.2 then (O.rebuildJoin left.1 right.1 j).map (·, true)
      else .ok (.hashJoin l r j, false)
  | .node op [i], inherited => do
      let child ← pushFiltersToFactScans i inherited
      if child.2 then (O.rebuild op [child.1]).map (·, true) else .ok (.node op [i], false)
  | .node op is, _ => .ok (.node op is, false)

/-- `IcebergFactFilterPushdown::optimize`. -/
def factFilterPushdown (p : PlanTree ν) : Except String (PlanTree ν) :=
  (O.pushFiltersToFactScans p []).map Prod.fst

end Operators

/-! ### Plans that differ in the filters of scans -/

/-- What the rules may make of a scan. -/
structure Narrowed (s s' : IcebergTableScan) : Prop where
  /-- Table, snapshot, schema, projection, limit and partitions. -/
  bare : bare s' = bare s
  predicates : ∃ added : List Predicate, s'.predicates = added.foldl andOption s.predicates
  physicalFilters : ∃ added : List ArcExpr, s'.physicalFilters = s.physicalFilters ++ added ∧
    (added.map ArcExpr.ptr).Nodup ∧ ∀ f ∈ added, ∀ old ∈ s.physicalFilters, f.ptr ≠ old.ptr
  small : s.isLargeFactTable = false → s' = s

mutual

/-- The same tree of the same operators, over scans that are narrowed. -/
def Framed : PlanTree ν → PlanTree ν → Prop
  | .scan s, .scan s' => Narrowed s s'
  | .hashJoin l r j, .hashJoin l' r' j' => Framed l l' ∧ Framed r r' ∧ j' = j
  | .node op is, .node op' is' => op' = op ∧ FramedList is is'
  | _, _ => False

/-- Plan by plan. -/
def FramedList : List (PlanTree ν) → List (PlanTree ν) → Prop
  | [], [] => True
  | p :: ps, p' :: ps' => Framed p p' ∧ FramedList ps ps'
  | _, _ => False

end

/-- A property of a plan that is computed from the inputs upwards and does not look at filters. -/
structure Attribute (ν α : Type) where
  ofScan : IcebergTableScan → α
  ofJoin : HashJoinExec → α → α → α
  ofNode : ν → List α → α
  ignoresFilters : ∀ s s', bare s' = bare s → ofScan s' = ofScan s

mutual

/-- The property of a plan. -/
def Attribute.of {α : Type} (A : Attribute ν α) : PlanTree ν → α
  | .scan s => A.ofScan s
  | .hashJoin l r j => A.ofJoin j (A.of l) (A.of r)
  | .node op is => A.ofNode op (A.ofEach is)

/-- The property of each of several plans. -/
def Attribute.ofEach {α : Type} (A : Attribute ν α) : List (PlanTree ν) → List α
  | [] => []
  | p :: ps => A.of p :: A.ofEach ps

end

/-- The output schema, by what the operators make of those of their inputs. -/
def outputSchema (ofJoin : HashJoinExec → List String → List String → List String)
    (ofNode : ν → List (List String) → List String) : Attribute ν (List String) where
  ofScan := IcebergTableScan.outputSchema
  ofJoin := ofJoin
  ofNode := ofNode
  ignoresFilters := fun s s' h => by
    show (bare s').outputSchema = (bare s).outputSchema
    rw [h]

/-- The number of output partitions, by what the operators make of those of their inputs. -/
def partitionCount (ofJoin : HashJoinExec → ℕ → ℕ → ℕ) (ofNode : ν → List ℕ → ℕ) : Attribute ν ℕ where
  ofScan := IcebergTableScan.scanPartitions
  ofJoin := ofJoin
  ofNode := ofNode
  ignoresFilters := fun s s' h => by
    show (bare s').scanPartitions = (bare s).scanPartitions
    rw [h]

/-- `p'` is `p` but for the filters of its scans. -/
structure UnchangedButFilters (p p' : PlanTree ν) : Prop where
  framed : Framed p p'
  schema : ∀ ofJoin ofNode, (outputSchema ofJoin ofNode).of p' = (outputSchema ofJoin ofNode).of p
  partitions : ∀ ofJoin ofNode,
    (partitionCount ofJoin ofNode).of p' = (partitionCount ofJoin ofNode).of p

/-! ### One scan -/

namespace Narrowed

variable {s s' s'' : IcebergTableScan}

theorem refl (s : IcebergTableScan) : Narrowed s s where
  bare := rfl
  predicates := ⟨[], rfl⟩
  physicalFilters := ⟨[], (List.append_nil _).symm, List.nodup_nil, fun _ hf => absurd hf List.not_mem_nil⟩
  small := fun _ => rfl

/-- Filters are no part of what makes a table large. -/
theorem isLargeFactTable_eq (h : Narrowed s s') : s'.isLargeFactTable = s.isLargeFactTable := by
  show (Plan.bare s').isLargeFactTable = (Plan.bare s).isLargeFactTable
  rw [h.bare]

/-- What is added later comes after what was added before. -/
theorem trans (h : Narrowed s s') (h' : Narrowed s' s'') : Narrowed s s'' where
  bare := h'.bare.trans h.bare
  predicates := by
    obtain ⟨added, hadded⟩ := h.predicates
    obtain ⟨added', hadded'⟩ := h'.predicates
    refine ⟨added ++ added', ?_⟩
    rw [hadded', hadded, List.foldl_append]
  physicalFilters := by
    obtain ⟨added, hadded, hnodup, hnew⟩ := h.physicalFilters
    obtain ⟨added', hadded', hnodup', hnew'⟩ := h'.physicalFilters
    refine ⟨added ++ added', ?_, ?_, ?_⟩
    · rw [hadded', hadded, List.append_assoc]
    · rw [List.map_append, List.nodup_append]
      refine ⟨hnodup, hnodup', ?_⟩
      intro ptr hptr ptr' hptr'
      obtain ⟨f, hf, rfl⟩ := List.mem_map.mp hptr
      obtain ⟨f', hf', rfl⟩ := List.mem_map.mp hptr'
      have hf : f ∈ s'.physicalFilters := by
        rw [hadded]
        exact List.mem_append_right _ hf
      exact (hnew' f' hf' f hf).symm
    · intro f hf old hold
      rcases List.mem_append.mp hf with hf | hf
      · exact hnew f hf old hold
      · refine hnew' f hf old ?_
        rw [hadded]
        exact List.mem_append_left _ hold
  small := fun hsmall => by
    have hsmall' : s'.isLargeFactTable = false := by rw [h.isLargeFactTable_eq, hsmall]
    rw [h'.small hsmall', h.small hsmall]

end Narrowed

/-- A pushed predicate is one added conjunct. -/
theorem narrowed_narrowFactScan (pred : Predicate) (factColumn : String) (s : IcebergTableScan) :
    Narrowed s (narrowFactScan pred factColumn s) := by
  unfold narrowFactScan
  split
  · rename_i hlarge
    have hlarge : s.isLargeFactTable = true := (Bool.and_eq_true_iff.mp hlarge).1
    exact
      { bare := rfl
        predicates := ⟨[pred], rfl⟩
        physicalFilters := (Narrowed.refl s).physicalFilters
        small := fun hsmall => by
          rw [hlarge] at hsmall
          cases hsmall }
  · exact .refl s

/-- Attaching filters appends those that are not there yet, each once. -/
theorem foldl_pushFilter_nodup (extra : List ArcExpr) : ∀ filters : List ArcExpr,
    ∃ added, extra.foldl IcebergTableScan.pushFilter filters = filters ++ added ∧
      (added.map ArcExpr.ptr).Nodup ∧ ∀ f ∈ added, ∀ old ∈ filters, f.ptr ≠ old.ptr := by
  induction extra with
  | nil =>
      intro filters
      exact ⟨[], (List.append_nil _).symm, List.nodup_nil, fun _ hf => absurd hf List.not_mem_nil⟩
  | cons f extra ih =>
      intro filters
      obtain ⟨added, hadded, hnodup, hnew⟩ := ih (IcebergTableScan.pushFilter filters f)
      rw [List.foldl_cons, hadded]
      cases hany : filters.any fun existing => existing.ptr == f.ptr with
      | true =>
          have hpush : IcebergTableScan.pushFilter filters f = filters := by
            rw [IcebergTableScan.pushFilter, if_pos hany]
          rw [hpush] at hnew ⊢
          exact ⟨added, rfl, hnodup, hnew⟩
      | false =>
          have hpush : IcebergTableScan.pushFilter filters f = filters ++ [f] := by
            rw [IcebergTableScan.pushFilter, hany]
            rfl
          rw [hpush] at hnew ⊢
          refine ⟨f :: added, by rw [List.append_assoc, List.singleton_append], ?_, ?_⟩
          · rw [List.map_cons, List.nodup_cons]
            refine ⟨?_, hnodup⟩
            intro hmem
            obtain ⟨g, hg, hptr⟩ := List.mem_map.mp hmem
            exact hnew g hg f (List.mem_append_right _ (List.mem_singleton.mpr rfl)) hptr
          · intro g hg old hold
            rcases List.mem_cons.mp hg with rfl | hg
            · intro hptr
              have hpresent : (filters.any fun existing => existing.ptr == g.ptr) = true :=
                List.any_eq_true.mpr ⟨old, hold, beq_iff_eq.mpr hptr.symm⟩
              rw [hany] at hpresent
              cases hpresent
            · exact hnew g hg old (List.mem_append_left _ hold)

/-- Attached filters leave the rest of a large scan as it is. -/
theorem narrowed_withExtraPhysicalFilters {s : IcebergTableScan} (hlarge : s.isLargeFactTable = true)
    (extra : List ArcExpr) : Narrowed s (s.withExtraPhysicalFilters extra) where
  bare := rfl
  predicates := ⟨[], rfl⟩
  physicalFilters := foldl_pushFilter_nodup extra s.physicalFilters
  small := fun hsmall => by
    rw [hlarge] at hsmall
    cases hsmall

/-! ### Whole plans -/

mutual

theorem Framed.refl : ∀ p : PlanTree ν, Framed p p
  | .scan s => Narrowed.refl s
  | .hashJoin l r _ => ⟨Framed.refl l, Framed.refl r, rfl⟩
  | .node _ is => ⟨rfl, FramedList.refl is⟩

theorem FramedList.refl : ∀ ps : List (PlanTree ν), FramedList ps ps
  | [] => trivial
  | p :: ps => ⟨Framed.refl p, FramedList.refl ps⟩

end

/-! What is over each kind of plan. -/

theorem Framed.of_scan {s : IcebergTableScan} {p' : PlanTree ν} (h : Framed (.scan s) p') :
    ∃ s', p' = .scan s' ∧ Narrowed s s' := by
  cases p' with
  | scan s' => exact ⟨s', rfl, h⟩
  | hashJoin l' r' j' => exact h.elim
  | node op' is' => exact h.elim

theorem Framed.of_hashJoin {l r p' : PlanTree ν} {j : HashJoinExec} (h : Framed (.hashJoin l r j) p') :
    ∃ l' r', p' = .hashJoin l' r' j ∧ Framed l l' ∧ Framed r r' := by
  cases p' with
  | scan s' => exact h.elim
  | hashJoin l' r' j' =>
      obtain ⟨hl, hr, rfl⟩ := h
      exact ⟨l', r', rfl, hl, hr⟩
  | node op' is' => exact h.elim

theorem Framed.of_node {op : ν} {is : List (PlanTree ν)} {p' : PlanTree ν} (h : Framed (.node op is) p') :
    ∃ is', p' = .node op is' ∧ FramedList is is' := by
  cases p' with
  | scan s' => exact h.elim
  | hashJoin l' r' j' => exact h.elim
  | node op' is' =>
      obtain ⟨rfl, his⟩ := h
      exact ⟨is', rfl, his⟩

theorem FramedList.of_nil {ps' : List (PlanTree ν)} (h : FramedList [] ps') : ps' = [] := by
  cases ps' with
  | nil => rfl
  | cons p' ps' => exact h.elim

theorem FramedList.of_cons {p : PlanTree ν} {ps ps' : List (PlanTree ν)} (h : FramedList (p :: ps) ps') :
    ∃ p' rest, ps' = p' :: rest ∧ Framed p p' ∧ FramedList ps rest := by
  cases ps' with
  | nil => exact h.elim
  | cons p' rest => exact ⟨p', rest, rfl, h.1, h.2⟩

mutual

theorem Framed.trans : ∀ {p p' p'' : PlanTree ν}, Framed p p' → Framed p' p'' → Framed p p''
  | .scan s, _, _, h, h' => by
      obtain ⟨s', rfl, hs⟩ := h.of_scan
      obtain ⟨s'', rfl, hs'⟩ := h'.of_scan
      exact hs.trans hs'
  | .hashJoin l r j, _, _, h, h' => by
      obtain ⟨l', r', rfl, hl, hr⟩ := h.of_hashJoin
      obtain ⟨l'', r'', rfl, hl', hr'⟩ := h'.of_hashJoin
      exact ⟨hl.trans hl', hr.trans hr', rfl⟩
  | .node op is, _, _, h, h' => by
      obtain ⟨is', rfl, his⟩ := h.of_node
      obtain ⟨is'', rfl, his'⟩ := h'.of_node
      exact ⟨rfl, his.trans his'⟩

theorem FramedList.trans : ∀ {ps ps' ps'' : List (PlanTree ν)}, FramedList ps ps' →
    FramedList ps' ps'' → FramedList ps ps''
  | [], _, _, h, h' => by
      obtain rfl := h.of_nil
      exact h'
  | p :: ps, _, _, h, h' => by
      obtain ⟨p', rest', rfl, hp, hps⟩ := h.of_cons
      obtain ⟨p'', rest'', rfl, hp', hps'⟩ := h'.of_cons
      exact ⟨hp.trans hp', hps.trans hps'⟩

end

mutual

/-- **A property that does not look at filters** is the same. -/
theorem Framed.attribute_eq {α : Type} (A : Attribute ν α) : ∀ {p p' : PlanTree ν}, Framed p p' →
    A.of p' = A.of p
  | .scan s, _, h => by
      obtain ⟨s', rfl, hs⟩ := h.of_scan
      exact A.ignoresFilters s s' hs.bare
  | .hashJoin l r j, _, h => by
      obtain ⟨l', r', rfl, hl, hr⟩ := h.of_hashJoin
      rw [Attribute.of, Attribute.of, hl.attribute_eq A, hr.attribute_eq A]
  | .node op is, _, h => by
      obtain ⟨is', rfl, his⟩ := h.of_node
      rw [Attribute.of, Attribute.of, his.attribute_eq A]

theorem FramedList.attribute_eq {α : Type} (A : Attribute ν α) : ∀ {ps ps' : List (PlanTree ν)},
    FramedList ps ps' → A.ofEach ps' = A.ofEach ps
  | [], _, h => by
      obtain rfl := h.of_nil
      rfl
  | p :: ps, _, h => by
      obtain ⟨p', rest, rfl, hp, hps⟩ := h.of_cons
      rw [Attribute.ofEach, Attribute.ofEach, hp.attribute_eq A, hps.attribute_eq A]

end

theorem Framed.unchanged {p p' : PlanTree ν} (h : Framed p p') : UnchangedButFilters p p' :=
  ⟨h, fun _ _ => h.attribute_eq _, fun _ _ => h.attribute_eq _⟩

namespace Operators

open DataFusion (ok_of_bind)

variable {O : Operators ν}

theorem rebuildJoin_ok {l r q : PlanTree ν} {j : HashJoinExec} (h : O.rebuildJoin l r j = .ok q) :
    q = .hashJoin l r j := by
  unfold rebuildJoin at h
  split at h
  · cases h
  · exact (Except.ok.inj h).symm

theorem rebuild_ok {op : ν} {is : List (PlanTree ν)} {q : PlanTree ν} (h : O.rebuild op is = .ok q) :
    q = .node op is := by
  unfold rebuild at h
  split at h
  · exact (Except.ok.inj h).symm
  · split at h
    · cases h
    · exact (Except.ok.inj h).symm

mutual

theorem framed_applyPredicate (pred : Predicate) (factColumn : String) : ∀ {p q : PlanTree ν},
    O.applyPredicateToFactScans pred factColumn p = .ok q → Framed p q
  | .scan s, _, h => by
      obtain rfl := Except.ok.inj h
      exact narrowed_narrowFactScan pred factColumn s
  | .hashJoin l r j, _, h => by
      obtain ⟨l', hl, h⟩ := ok_of_bind h
      obtain ⟨r', hr, h⟩ := ok_of_bind h
      obtain rfl := rebuildJoin_ok h
      exact ⟨framed_applyPredicate pred factColumn hl, framed_applyPredicate pred factColumn hr, rfl⟩
  | .node op is, _, h => by
      obtain ⟨is', his, h⟩ := ok_of_bind h
      obtain rfl := rebuild_ok h
      exact ⟨rfl, framed_applyPredicateToEach pred factColumn his⟩

theorem framed_applyPredicateToEach (pred : Predicate) (factColumn : String) :
    ∀ {ps qs : List (PlanTree ν)}, O.applyPredicateToEach pred factColumn ps = .ok qs → FramedList ps qs
  | [], _, h => by
      obtain rfl := Except.ok.inj h
      trivial
  | p :: ps, _, h => by
      obtain ⟨p', hp, h⟩ := ok_of_bind h
      obtain ⟨ps', hps, h⟩ := ok_of_bind h
      obtain rfl := Except.ok.inj h
      exact ⟨framed_applyPredicate pred factColumn hp, framed_applyPredicateToEach pred factColumn hps⟩

end

section

variable {compute : IcebergTableScan → String → Except String (Option JoinKeyConstraint)}

/-- A push at a join narrows scans below it. -/
theorem framed_pushAtJoin {l r q : PlanTree ν} {j : HashJoinExec}
    (h : O.pushAtJoin compute l r j = .ok q) : Framed (.hashJoin l r j) q := by
  unfold pushAtJoin at h
  split at h
  · obtain rfl := Except.ok.inj h
    exact .refl _
  · obtain ⟨answer, -, h⟩ := ok_of_bind h
    cases answer with
    | none =>
        obtain rfl := Except.ok.inj h
        exact .refl _
    | some c => exact framed_applyPredicate _ _ h

mutual

/-- The inputs are narrowed first, and again with the join. -/
theorem framed_pushFkBounds : ∀ {p q : PlanTree ν}, O.pushFkBounds compute p = .ok q → Framed p q
  | .scan s, _, h => by
      obtain rfl := Except.ok.inj h
      exact Narrowed.refl s
  | .hashJoin l r j, _, h => by
      obtain ⟨l', hl, h⟩ := ok_of_bind h
      obtain ⟨r', hr, h⟩ := ok_of_bind h
      obtain ⟨-, -, h⟩ := ok_of_bind h
      have hinputs : Framed (.hashJoin l r j) (.hashJoin l' r' j) :=
        ⟨framed_pushFkBounds hl, framed_pushFkBounds hr, rfl⟩
      exact hinputs.trans (framed_pushAtJoin h)
  | .node op is, _, h => by
      obtain ⟨is', his, h⟩ := ok_of_bind h
      obtain rfl := rebuild_ok h
      exact ⟨rfl, framed_pushFkBoundsOfEach his⟩

theorem framed_pushFkBoundsOfEach : ∀ {ps qs : List (PlanTree ν)},
    O.pushFkBoundsOfEach compute ps = .ok qs → FramedList ps qs
  | [], _, h => by
      obtain rfl := Except.ok.inj h
      trivial
  | p :: ps, _, h => by
      obtain ⟨p', hp, h⟩ := ok_of_bind h
      obtain ⟨ps', hps, h⟩ := ok_of_bind h
      obtain rfl := Except.ok.inj h
      exact ⟨framed_pushFkBounds hp, framed_pushFkBoundsOfEach hps⟩

end

end

theorem ok_of_map {α β : Type} {x : Except String α} {f : α → β} {b : β} (h : x.map f = .ok b) :
    ∃ a, x = .ok a ∧ f a = b := by
  cases x with
  | error e => cases h
  | ok a => exact ⟨a, rfl, Except.ok.inj h⟩

/-- Every branch of the rule narrows scans. -/
theorem framed_pushFiltersToFactScans : ∀ {p : PlanTree ν} {inherited : List ArcExpr}
    {q : PlanTree ν × Bool}, O.pushFiltersToFactScans p inherited = .ok q → Framed p q.1
  | .scan s, inherited, _, h => by
      unfold pushFiltersToFactScans at h
      split at h
      · rename_i hlarge
        simp only at h
        split at h
        · obtain rfl := Except.ok.inj h
          exact Narrowed.refl s
        · obtain rfl := Except.ok.inj h
          exact narrowed_withExtraPhysicalFilters hlarge inherited
      · obtain rfl := Except.ok.inj h
        exact Narrowed.refl s
  | .hashJoin l r j, inherited, _, h => by
      obtain ⟨left, hl, h⟩ := ok_of_bind h
      obtain ⟨right, hr, h⟩ := ok_of_bind h
      split at h
      · obtain ⟨q, hq, rfl⟩ := ok_of_map h
        obtain rfl := rebuildJoin_ok hq
        exact ⟨framed_pushFiltersToFactScans hl, framed_pushFiltersToFactScans hr, rfl⟩
      · obtain rfl := Except.ok.inj h
        exact .refl _
  | .node op [i], inherited, _, h => by
      obtain ⟨child, hi, h⟩ := ok_of_bind h
      split at h
      · obtain ⟨q, hq, rfl⟩ := ok_of_map h
        obtain rfl := rebuild_ok hq
        exact ⟨rfl, framed_pushFiltersToFactScans hi, trivial⟩
      · obtain rfl := Except.ok.inj h
        exact .refl _
  | .node op [], _, _, h => by
      obtain rfl := Except.ok.inj h
      exact .refl _
  | .node op (_ :: _ :: _), _, _, h => by
      obtain rfl := Except.ok.inj h
      exact .refl _

/-- **Both rules change nothing but the filters of scans**, whatever the answers of
`compute_join_key_constraint` are. -/
theorem unchanged_of_rules (O : Operators ν)
    (compute : IcebergTableScan → String → Except String (Option JoinKeyConstraint)) (p : PlanTree ν) :
    (∀ q, O.pushFkBounds compute p = .ok q → UnchangedButFilters p q) ∧
      ∀ q, O.factFilterPushdown p = .ok q → UnchangedButFilters p q := by
  refine ⟨fun q h => (framed_pushFkBounds h).unchanged, fun q h => ?_⟩
  obtain ⟨pushed, hpushed, rfl⟩ := ok_of_map h
  exact (framed_pushFiltersToFactScans hpushed).unchanged

end Operators

/-! ### The rules on plans that evaluate -/

/-- The operators of an `ExecutionPlan` other than scans and hash joins. -/
inductive PlainOperator where
  | projection (exprs : List (PhysicalExpr × String))
  | filter (predicate : PhysicalExpr)
  | limit (skip : ℕ) (fetch : Option ℕ)
  | aggregate (groupBy : List (PhysicalExpr × String)) (aggregates : List AggregateExpr)
  | wrapper (kind : Wrapper)
  | union
  | other (name : String) (width : ℕ)

/-- Every `with_new_children` succeeds. -/
def plainOperators : Operators PlainOperator where
  peeled
    | .projection _ => true
    | .wrapper kind => kind.peeled
    | _ => false
  joinRebuildError := fun _ _ _ => none
  rebuildError := fun _ _ => none

/-- A join of inputs of the given widths. -/
def HashJoin.exec (j : HashJoin) (left right : ℕ) : HashJoinExec where
  on := j.on
  joinType := j.joinType
  projection := none
  widths := (left, right)
  filter := j.filter
  partitionMode := .partitioned
  nullEquality := j.nullEquality
  dynamicFilter := j.dynamicFilter

mutual

/-- The tree of a plan. -/
def ExecutionPlan.tree : ExecutionPlan → PlanTree PlainOperator
  | .scan s => .scan s
  | .hashJoin l r j => .hashJoin l.tree r.tree (j.exec l.width r.width)
  | .projection i exprs => .node (.projection exprs) [i.tree]
  | .filter i e => .node (.filter e) [i.tree]
  | .limit i skip fetch => .node (.limit skip fetch) [i.tree]
  | .aggregate i groupBy aggregates => .node (.aggregate groupBy aggregates) [i.tree]
  | .wrapper kind i => .node (.wrapper kind) [i.tree]
  | .union is => .node .union (trees is)
  | .other name width is => .node (.other name width) (trees is)

/-- The trees of several plans. -/
def trees : List ExecutionPlan → List (PlanTree PlainOperator)
  | [] => []
  | p :: ps => p.tree :: trees ps

end

/-- Operators that are not peeled stop the search. -/
theorem peelSingleInput_trees {op : PlainOperator} (hop : plainOperators.peeled op = false) :
    ∀ is : List ExecutionPlan,
      plainOperators.peelSingleInput (.node op (trees is)) = .node op (trees is)
  | [] => rfl
  | [i] => by
      rw [trees, trees, Operators.peelSingleInput, hop]
      rfl
  | _ :: _ :: _ => rfl

theorem peelSingleInput_tree (p : ExecutionPlan) :
    plainOperators.peelSingleInput p.tree = (peelSingleInput p).tree := by
  fun_induction peelSingleInput p with
  | case1 kind i hpeeled ih =>
      have hop : plainOperators.peeled (.wrapper kind) = true := hpeeled
      rw [ExecutionPlan.tree, Operators.peelSingleInput, if_pos hop]
      exact ih
  | case2 kind i hpeeled =>
      have hop : ¬ plainOperators.peeled (.wrapper kind) = true := hpeeled
      rw [ExecutionPlan.tree, Operators.peelSingleInput, if_neg hop]
  | case3 i _ ih => exact ih
  | case4 p hwrapper hprojection =>
      cases p with
      | scan s => rfl
      | hashJoin l r j => rfl
      | projection i exprs => exact absurd rfl (hprojection i exprs)
      | filter e i => rfl
      | limit s f i => rfl
      | aggregate g a i => rfl
      | wrapper kind i => exact absurd rfl (hwrapper kind i)
      | union is => exact peelSingleInput_trees rfl is
      | other op e is => exact peelSingleInput_trees rfl is

theorem asIcebergScan_tree (p : ExecutionPlan) : plainOperators.asIcebergScan p.tree = asIcebergScan p := by
  rw [Operators.asIcebergScan, asIcebergScan, peelSingleInput_tree]
  cases peelSingleInput p <;> rfl

mutual

theorem containsFactIcebergScan_tree : ∀ p : ExecutionPlan,
    p.tree.containsFactIcebergScan = containsFactIcebergScan p
  | .scan _ => rfl
  | .hashJoin l r _ => congrArg₂ or (containsFactIcebergScan_tree l) (containsFactIcebergScan_tree r)
  | .projection i _ | .filter i _ | .limit i _ _ | .aggregate i _ _ | .wrapper _ i => by
      show (i.tree.containsFactIcebergScan || false) = containsFactIcebergScan i
      rw [Bool.or_false, containsFactIcebergScan_tree i]
  | .union is => someContainsFact_trees is
  | .other _ _ is => someContainsFact_trees is

theorem someContainsFact_trees : ∀ ps : List ExecutionPlan,
    someContainsFactIcebergScan (trees ps) = anyContainsFact ps
  | [] => rfl
  | p :: ps => congrArg₂ or (containsFactIcebergScan_tree p) (someContainsFact_trees ps)

end

theorem resolveDimFactKeys_tree (l r : ExecutionPlan) (on : List (PhysicalExpr × PhysicalExpr)) :
    plainOperators.resolveDimFactKeys l.tree r.tree on = resolveDimFactKeys l r on := by
  have hdirect : ∀ p : ExecutionPlan,
      plainOperators.directDimensionScan p.tree = directDimensionScan p := by
    intro p
    rw [Operators.directDimensionScan, asIcebergScan_tree]
    rfl
  rw [Operators.resolveDimFactKeys, hdirect, hdirect, containsFactIcebergScan_tree,
    containsFactIcebergScan_tree]
  rfl

theorem rebuild_plain (op : PlainOperator) (is : List (PlanTree PlainOperator)) :
    plainOperators.rebuild op is = .ok (.node op is) := by
  rw [Operators.rebuild]
  split <;> rfl

section

variable {pred : Predicate} {factColumn : String}

theorem apply_single {op : PlainOperator} {i i' : ExecutionPlan}
    (h : plainOperators.applyPredicateToFactScans pred factColumn i.tree = .ok i'.tree) :
    plainOperators.applyPredicateToFactScans pred factColumn (.node op [i.tree]) =
      .ok (.node op [i'.tree]) := by
  rw [Operators.applyPredicateToFactScans, Operators.applyPredicateToEach, h,
    Operators.applyPredicateToEach]
  show plainOperators.rebuild op [i'.tree] = _
  exact rebuild_plain op _

mutual

theorem applyPredicate_tree : ∀ p : ExecutionPlan,
    plainOperators.applyPredicateToFactScans pred factColumn p.tree =
      .ok (applyPredicateToFactScans pred factColumn p).tree
  | .scan _ => rfl
  | .hashJoin l r j => by
      have hschema : ∀ s, (narrowFactScan pred factColumn s).outputSchema = s.outputSchema :=
        fun s => (narrowFactScan_fields pred factColumn s).1
      have hl : (applyPredicateToFactScans pred factColumn l).width = l.width := width_mapScans _ hschema l
      have hr : (applyPredicateToFactScans pred factColumn r).width = r.width := width_mapScans _ hschema r
      rw [ExecutionPlan.tree, Operators.applyPredicateToFactScans, applyPredicate_tree l,
        applyPredicate_tree r]
      show Except.ok (PlanTree.hashJoin _ _ (j.exec l.width r.width)) = _
      rw [← hl, ← hr]
      rfl
  | .projection i _ => apply_single (applyPredicate_tree i)
  | .filter i _ => apply_single (applyPredicate_tree i)
  | .limit i _ _ => apply_single (applyPredicate_tree i)
  | .aggregate i _ _ => apply_single (applyPredicate_tree i)
  | .wrapper _ i => apply_single (applyPredicate_tree i)
  | .union is => by
      rw [ExecutionPlan.tree, Operators.applyPredicateToFactScans, applyPredicate_trees is]
      exact rebuild_plain _ _
  | .other _ _ is => by
      rw [ExecutionPlan.tree, Operators.applyPredicateToFactScans, applyPredicate_trees is]
      exact rebuild_plain _ _

theorem applyPredicate_trees : ∀ ps : List ExecutionPlan,
    plainOperators.applyPredicateToEach pred factColumn (trees ps) =
      .ok (trees (mapScansList (fun _ => true) (narrowFactScan pred factColumn) ps))
  | [] => rfl
  | p :: ps => by
      rw [trees, Operators.applyPredicateToEach, applyPredicate_tree p, applyPredicate_trees ps]
      rfl

end

end

/-- An answer of `compute_join_key_constraint` with a text for its error. -/
def ComputeConstraint.orError (compute : ComputeConstraint) (error : String)
    (dim : IcebergTableScan) (key : String) : Except String (Option JoinKeyConstraint) :=
  match compute dim key with
  | some answer => .ok answer
  | none => .error error

/-- The tree of a plan, if there is one. -/
def treeOrError (error : String) (p : Option ExecutionPlan) : Except String (PlanTree PlainOperator) :=
  match p with
  | some p => .ok p.tree
  | none => .error error

section

variable {compute : ComputeConstraint} {error : String}

theorem pushAtJoin_tree (l r : ExecutionPlan) (j : HashJoin) :
    plainOperators.pushAtJoin (compute.orError error) l.tree r.tree (j.exec l.width r.width) =
      treeOrError error (pushAtJoin compute l r j) := by
  have hon : (j.exec l.width r.width).on = j.on := rfl
  rw [Operators.pushAtJoin, pushAtJoin, hon, resolveDimFactKeys_tree]
  rcases resolveDimFactKeys l r j.on with _ | ⟨dim, dimKey, factKey⟩
  · rfl
  · simp only [ComputeConstraint.orError]
    rcases compute dim dimKey with _ | _ | c
    · rfl
    · rfl
    · exact applyPredicate_tree (.hashJoin l r j)

theorem pushFkBounds_single {op : PlainOperator} {i : ExecutionPlan} {rebuild : ExecutionPlan → ExecutionPlan}
    (htree : ∀ i', (rebuild i').tree = .node op [i'.tree])
    (h : plainOperators.pushFkBounds (compute.orError error) i.tree =
      treeOrError error (pushFkBounds compute i)) :
    plainOperators.pushFkBounds (compute.orError error) (.node op [i.tree]) =
      treeOrError error ((pushFkBounds compute i).map rebuild) := by
  rw [Operators.pushFkBounds, Operators.pushFkBoundsOfEach, h, Operators.pushFkBoundsOfEach]
  cases pushFkBounds compute i with
  | none => rfl
  | some i' =>
      show plainOperators.rebuild op [i'.tree] = .ok (rebuild i').tree
      rw [rebuild_plain, htree]

mutual

/-- **The rule on a plan that evaluates is the rule on its tree.** -/
theorem pushFkBounds_tree : ∀ p : ExecutionPlan,
    plainOperators.pushFkBounds (compute.orError error) p.tree = treeOrError error (pushFkBounds compute p)
  | .scan _ => rfl
  | .hashJoin l r j => by
      rw [ExecutionPlan.tree, Operators.pushFkBounds, pushFkBounds_tree l, pushFkBounds_tree r, pushFkBounds]
      cases hl : pushFkBounds compute l with
      | none => rfl
      | some l' =>
          cases hr : pushFkBounds compute r with
          | none => rfl
          | some r' =>
              -- the columns of the join are those of its inputs as they were
              have hwidthl : l'.width = l.width := by rw [← width_shape, shape_pushFkBounds hl, width_shape]
              have hwidthr : r'.width = r.width := by rw [← width_shape, shape_pushFkBounds hr, width_shape]
              rw [← hwidthl, ← hwidthr]
              exact pushAtJoin_tree l' r' j
  | .projection i _ => pushFkBounds_single (fun _ => rfl) (pushFkBounds_tree i)
  | .filter i _ => pushFkBounds_single (fun _ => rfl) (pushFkBounds_tree i)
  | .limit i _ _ => pushFkBounds_single (fun _ => rfl) (pushFkBounds_tree i)
  | .aggregate i _ _ => pushFkBounds_single (fun _ => rfl) (pushFkBounds_tree i)
  | .wrapper _ i => pushFkBounds_single (fun _ => rfl) (pushFkBounds_tree i)
  | .union is => by
      rw [ExecutionPlan.tree, Operators.pushFkBounds, pushFkBounds_trees is, pushFkBounds]
      cases pushFkBoundsList compute is with
      | none => rfl
      | some is' => exact rebuild_plain _ _
  | .other _ _ is => by
      rw [ExecutionPlan.tree, Operators.pushFkBounds, pushFkBounds_trees is, pushFkBounds]
      cases pushFkBoundsList compute is with
      | none => rfl
      | some is' => exact rebuild_plain _ _

theorem pushFkBounds_trees : ∀ ps : List ExecutionPlan,
    plainOperators.pushFkBoundsOfEach (compute.orError error) (trees ps) =
      match pushFkBoundsList compute ps with
      | some ps' => .ok (trees ps')
      | none => .error error
  | [] => rfl
  | p :: ps => by
      rw [trees, Operators.pushFkBoundsOfEach, pushFkBounds_tree p, pushFkBounds_trees ps, pushFkBoundsList]
      cases pushFkBounds compute p with
      | none => rfl
      | some p' => cases pushFkBoundsList compute ps <;> rfl

end

end

/-- The tree of what the rule returns, with its flag. -/
def Transformed.tree (t : Transformed) : PlanTree PlainOperator × Bool := (t.data.tree, t.transformed)

theorem pushFilters_single {op : PlainOperator} {i plan : ExecutionPlan} {inherited : List ArcExpr}
    {rebuild : ExecutionPlan → ExecutionPlan} (htree : ∀ i', (rebuild i').tree = .node op [i'.tree])
    (hplan : plan.tree = .node op [i.tree])
    (h : plainOperators.pushFiltersToFactScans i.tree inherited =
      .ok (pushFiltersToFactScans i inherited).tree) :
    plainOperators.pushFiltersToFactScans plan.tree inherited =
      .ok (rebuilt (pushFiltersToFactScans i inherited) plan rebuild).tree := by
  rw [hplan, Operators.pushFiltersToFactScans, h, rebuilt]
  cases hflag : (pushFiltersToFactScans i inherited).transformed with
  | true =>
      simp only [Transformed.tree, hflag, if_true, htree]
      show (plainOperators.rebuild op [(pushFiltersToFactScans i inherited).data.tree]).map (·, true) = _
      rw [rebuild_plain]
      rfl
  | false =>
      simp only [Transformed.tree, hflag]
      show Except.ok (PlanTree.node op [i.tree], false) = _
      rw [← hplan]
      rfl

theorem pushFiltersToFactScans_tree : ∀ (p : ExecutionPlan) (inherited : List ArcExpr),
    plainOperators.pushFiltersToFactScans p.tree inherited = .ok (pushFiltersToFactScans p inherited).tree
  | .scan s, inherited => by
      rw [ExecutionPlan.tree, Operators.pushFiltersToFactScans, pushFiltersToFactScans]
      split
      · simp only
        split <;> rfl
      · rfl
  | .hashJoin l r j, inherited => by
      have hwidthl : (pushFiltersToFactScans l inherited).data.width = l.width := by
        rw [(pushFiltersToFactScans_spec l inherited).1, width_pushed]
      have hwidthr : (pushFiltersToFactScans r (probeFilters inherited j)).data.width = r.width := by
        rw [(pushFiltersToFactScans_spec r _).1, width_pushed]
      have hinputs : plainOperators.pushFiltersToFactScans (ExecutionPlan.hashJoin l r j).tree inherited =
          if (pushFiltersToFactScans l inherited).transformed ||
              (pushFiltersToFactScans r (probeFilters inherited j)).transformed then
            .ok (.hashJoin (pushFiltersToFactScans l inherited).data.tree
              (pushFiltersToFactScans r (probeFilters inherited j)).data.tree (j.exec l.width r.width), true)
          else .ok (.hashJoin l.tree r.tree (j.exec l.width r.width), false) := by
        have hr := pushFiltersToFactScans_tree r (inherited ++ (j.exec l.width r.width).dynamicFilter.toList)
        rw [ExecutionPlan.tree, Operators.pushFiltersToFactScans, pushFiltersToFactScans_tree l inherited, hr]
        rfl
      rw [hinputs, pushFiltersToFactScans]
      cases hflag : (pushFiltersToFactScans l inherited).transformed ||
          (pushFiltersToFactScans r (probeFilters inherited j)).transformed with
      | true =>
          simp only [Transformed.tree, if_true]
          rw [← hwidthl, ← hwidthr]
          rfl
      | false =>
          simp only [Transformed.tree]
          rfl
  | .projection i _, inherited =>
      pushFilters_single (fun _ => rfl) rfl (pushFiltersToFactScans_tree i inherited)
  | .filter i _, inherited =>
      pushFilters_single (fun _ => rfl) rfl (pushFiltersToFactScans_tree i inherited)
  | .limit i _ _, inherited =>
      pushFilters_single (fun _ => rfl) rfl (pushFiltersToFactScans_tree i inherited)
  | .aggregate i _ _, inherited =>
      pushFilters_single (fun _ => rfl) rfl (pushFiltersToFactScans_tree i inherited)
  | .wrapper _ i, inherited =>
      pushFilters_single (fun _ => rfl) rfl (pushFiltersToFactScans_tree i inherited)
  | .union [i], inherited =>
      pushFilters_single (fun _ => rfl) rfl (pushFiltersToFactScans_tree i inherited)
  | .other _ _ [i], inherited =>
      pushFilters_single (fun _ => rfl) rfl (pushFiltersToFactScans_tree i inherited)
  | .union [], _ => rfl
  | .union (_ :: _ :: _), _ => rfl
  | .other _ _ [], _ => rfl
  | .other _ _ (_ :: _ :: _), _ => rfl

/-- The rules return the trees of what they return on plans that evaluate. -/
theorem rules_tree (compute : ComputeConstraint) (error : String) (p : ExecutionPlan) :
    plainOperators.pushFkBounds (compute.orError error) p.tree = treeOrError error (pushFkBounds compute p) ∧
      plainOperators.factFilterPushdown p.tree = .ok (pushFiltersToFactScans p []).data.tree := by
  refine ⟨pushFkBounds_tree p, ?_⟩
  rw [Operators.factFilterPushdown, pushFiltersToFactScans_tree]
  rfl

/-- Both rules narrow the fact scan of the join on one key. -/
theorem unchanged_dimFactJoin :
    UnchangedButFilters (filteredJoin "fk" (.scan factScan)).tree
        (.hashJoin (.scan dimScan) (.scan narrowedFactScan)
          (HashJoin.exec { keyJoin .inner with dynamicFilter := some keyFilter } 1 1)) ∧
      UnchangedButFilters (filteredJoin "fk" (.scan factScan)).tree
        (.hashJoin (.scan dimScan) (.scan (factScan.withExtraPhysicalFilters [keyFilter]))
          (HashJoin.exec { keyJoin .inner with dynamicFilter := some keyFilter } 1 1)) := by
  obtain ⟨hbounds, hfilters⟩ := plainOperators.unchanged_of_rules
    (ComputeConstraint.orError readConstraint "") (filteredJoin "fk" (.scan factScan)).tree
  exact ⟨hbounds _ rfl, hfilters _ rfl⟩

end IcebergDb.Plan
