import IcebergDb.Plan.CollectLeft

/-!
# Reordering the inputs of a join

`join_reorder.rs` swaps a hash join of two Iceberg scans when it takes the left one for the larger.

* `shouldSwapForStarSchema` — the decision, and `joinReorder` — the rule on a whole plan;
* `sides` of the returned plan — the inputs of the join, under the projection that a swap may add;
* `Oriented` — the lighter scan is on the left, no join and its mirror image are both swapped, and a second
  application changes nothing;
* `InBand` — a weight that counts as large and as small at once;
* `oriented_iff` — **a join is oriented exactly when its two weights are not both in the band.**
-/

namespace IcebergDb.Plan

open IcebergDb.Expr IcebergDb.Scan

variable {κ : Type}

namespace DistributedPlan

/-- `iceberg_join_weight`. -/
def icebergJoinWeight (p : DistributedPlan κ) : Option ℕ :=
  p.asIcebergScan.map IcebergTableScan.joinOrderWeight

/-- `should_swap_for_star_schema`. -/
def shouldSwapForStarSchema (left right : DistributedPlan κ) : Bool :=
  if left.asIcebergScan.isSome && right.asIcebergScan.isSome then
    if left.isLargeUnfilteredFact && right.isSmallIcebergBuild then true
    else
      match left.icebergJoinWeight, right.icebergJoinWeight with
      | some lw, some rw => decide (lw > rw)
      | _, _ => false
  else false

/-- The inputs of a join, with or without a projection over it. -/
def sides : DistributedPlan κ → Option (DistributedPlan κ × DistributedPlan κ)
  | .hashJoin l r _ => some (l, r)
  | .operator op [i] => if op.kind = .projection then sides i else none
  | _ => none

end DistributedPlan

namespace DataFusion

variable (D : DataFusion κ)

/-- What the rule does with a hash join whose inputs it has visited. -/
def reorderJoin (l r : DistributedPlan κ) (j : HashJoinExec) :
    Except String (DistributedPlan κ × Bool) :=
  if !D.supportsSwap j.joinType then .ok (.hashJoin l r j, false)
  else if l.shouldSwapForStarSchema r then (D.swapInputs l r j j.partitionMode).map (·, true)
  else .ok (.hashJoin l r j, false)

mutual

/-- `transform_up` with the rule: the plan, and whether it was transformed. -/
def transformUp : DistributedPlan κ → Except String (DistributedPlan κ × Bool)
  | .scan s => .ok (.scan s, false)
  | .hashJoin l r j => do
      let l' ← transformUp l
      let r' ← transformUp r
      (D.reorderJoin l'.1 r'.1 j).map fun q => (q.1, q.2 || l'.2 || r'.2)
  | .operator op [] => .ok (.operator op [], false)
  | .operator op (i :: is) => do
      let is' ← transformUpList (i :: is)
      -- untransformed children leave the node as it is
      if is'.2 then (D.withNewChildren op is'.1).map (·, true)
      else .ok (.operator op (i :: is), false)

/-- `transform_up` on every input of an operator. -/
def transformUpList : List (DistributedPlan κ) → Except String (List (DistributedPlan κ) × Bool)
  | [] => .ok ([], false)
  | p :: ps => do
      let p' ← transformUp p
      let ps' ← transformUpList ps
      .ok (p'.1 :: ps'.1, p'.2 || ps'.2)

end

/-- `IcebergJoinReorder::optimize`. -/
def joinReorder (p : DistributedPlan κ) : Except String (DistributedPlan κ) :=
  (D.transformUp p).map Prod.fst

/-- The join of `l` and `r` is oriented: after the rule the scan on the left is no heavier than the one on
the right, the join and its mirror image are not both swapped, and the rule applied twice leaves the
inputs where it put them first. -/
structure Oriented (l r : DistributedPlan κ) (j : HashJoinExec) : Prop where
  lighter : ∀ q, D.joinReorder (.hashJoin l r j) = .ok q →
    ∃ l' r' build probe, q.sides = some (l', r') ∧ l'.asIcebergScan = some build ∧
      r'.asIcebergScan = some probe ∧ build.joinOrderWeight ≤ probe.joinOrderWeight
  asymmetric : ¬ (l.shouldSwapForStarSchema r = true ∧ r.shouldSwapForStarSchema l = true)
  stable : ∀ q q', D.joinReorder (.hashJoin l r j) = .ok q → D.joinReorder q = .ok q' →
    q'.sides = q.sides

end DataFusion

/-- The weight of a scan counts as that of a fact table and as that of a small build side. -/
def InBand (s : IcebergTableScan) : Prop :=
  smallIcebergBuildRows < 4 * s.joinOrderWeight ∧ s.joinOrderWeight < smallIcebergBuildRows

instance (s : IcebergTableScan) : Decidable (InBand s) := inferInstanceAs (Decidable (_ ∧ _))

/-! ### The decision -/

/-- A filtered scan is too light to be fact-like. -/
theorem isFactLike_iff (s : IcebergTableScan) :
    s.isFactLike = true ↔ smallIcebergBuildRows < 4 * s.joinOrderWeight := by
  have hsize : smallIcebergBuildRows = 524288 := rfl
  have hfiltered : s.predicates.isNone = false → s.joinOrderWeight = 1 := by
    intro h
    cases hp : s.predicates with
    | none =>
        rw [hp] at h
        cases h
    | some p =>
        rw [IcebergTableScan.joinOrderWeight, hp]
        rfl
  have hweight : filteredScanJoinWeight + 1 = 2 := rfl
  have hmax : usizeMax = 18446744073709551615 := by decide
  rw [IcebergTableScan.isFactLike, Bool.and_eq_true, decide_eq_true_eq, hweight, saturatingMul, hmax, hsize]
  cases hnone : s.predicates.isNone with
  | true =>
      simp only [true_and]
      omega
  | false =>
      have := hfiltered hnone
      simp only [Bool.false_eq_true, false_and, false_iff]
      omega

section

variable {l r : DistributedPlan κ} {build probe : IcebergTableScan}

/-- **The decision**: the left scan is fact-like and the right one small, or the left one is heavier. -/
theorem shouldSwap_iff (hl : l.asIcebergScan = some build) (hr : r.asIcebergScan = some probe) :
    l.shouldSwapForStarSchema r = true ↔
      (smallIcebergBuildRows < 4 * build.joinOrderWeight ∧
        probe.joinOrderWeight < smallIcebergBuildRows) ∨
      probe.joinOrderWeight < build.joinOrderWeight := by
  have hfact : l.isLargeUnfilteredFact = build.isFactLike := by
    rw [DistributedPlan.isLargeUnfilteredFact, hl]
    rfl
  have hsmall : r.isSmallIcebergBuild = decide (probe.joinOrderWeight < smallIcebergBuildRows) := by
    rw [DistributedPlan.isSmallIcebergBuild, hr]
    rfl
  unfold DistributedPlan.shouldSwapForStarSchema DistributedPlan.icebergJoinWeight
  rw [hl, hr, hfact, hsmall, ← isFactLike_iff]
  cases build.isFactLike with
  | true =>
      by_cases hp : probe.joinOrderWeight < smallIcebergBuildRows
      · simp [hp]
      · simp [hp]
  | false => simp

/-- **A join and its mirror image are both swapped** exactly when both weights are in the band. -/
theorem both_swapped_iff (hl : l.asIcebergScan = some build) (hr : r.asIcebergScan = some probe) :
    (l.shouldSwapForStarSchema r = true ∧ r.shouldSwapForStarSchema l = true) ↔
      InBand build ∧ InBand probe := by
  rw [shouldSwap_iff hl hr, shouldSwap_iff hr hl, InBand, InBand]
  omega

end

/-! ### The rule on one join -/

namespace DataFusion

variable {D : DataFusion κ} {l r : DistributedPlan κ} {j : HashJoinExec} {build probe : IcebergTableScan}

/-- A wrapped scan has no join to reorder. -/
theorem transformUp_of_asIcebergScan {p : DistributedPlan κ} (hsome : p.asIcebergScan.isSome = true) :
    D.transformUp p = .ok (p, false) := by
  induction p using DistributedPlan.peelSingleInput.induct with
  | case1 op i hpeeled ih =>
      rw [DistributedPlan.asIcebergScan, DistributedPlan.peelSingleInput, if_pos hpeeled] at hsome
      rw [transformUp, transformUpList, ih hsome]
      rfl
  | case2 op i hpeeled =>
      rw [DistributedPlan.asIcebergScan, DistributedPlan.peelSingleInput, if_neg hpeeled] at hsome
      cases hsome
  | case3 p hother =>
      cases p with
      | scan s => rw [transformUp]
      | hashJoin l r j => cases hsome
      | operator op is =>
          cases is with
          | nil => rw [transformUp]
          | cons i is =>
              cases is with
              | nil => exact absurd rfl (hother op i)
              | cons i' is => cases hsome

/-- The rule on a join of two wrapped scans decides about this join only. -/
theorem transformUp_join (hl : l.asIcebergScan.isSome = true) (hr : r.asIcebergScan.isSome = true) :
    D.transformUp (.hashJoin l r j) = D.reorderJoin l r j := by
  rw [transformUp, transformUp_of_asIcebergScan hl, transformUp_of_asIcebergScan hr]
  show (D.reorderJoin l r j).map (fun q => (q.1, q.2 || false || false)) = _
  simp only [Bool.or_false]
  cases D.reorderJoin l r j <;> rfl

/-- **What becomes of a join of two wrapped scans**: it stays, or its inputs change places. -/
theorem joinReorder_cases (hl : l.asIcebergScan.isSome = true) (hr : r.asIcebergScan.isSome = true)
    (hswap : D.supportsSwap j.joinType = true) {q : DistributedPlan κ}
    (h : D.joinReorder (.hashJoin l r j) = .ok q) :
    (l.shouldSwapForStarSchema r = false ∧ q = .hashJoin l r j) ∨
    (l.shouldSwapForStarSchema r = true ∧ ∃ j', q = .hashJoin r l j' ∨
      ∃ image, q = .operator (reorderProjection image) [.hashJoin r l j']) := by
  rw [joinReorder, transformUp_join hl hr, reorderJoin, hswap] at h
  cases hdecide : l.shouldSwapForStarSchema r with
  | false =>
      rw [hdecide] at h
      exact .inl ⟨rfl, (Except.ok.inj h).symm⟩
  | true =>
      rw [hdecide] at h
      refine .inr ⟨rfl, ?_⟩
      rw [swapInputs] at h
      cases hswapped : D.swapped j j.partitionMode with
      | error e =>
          rw [hswapped] at h
          cases h
      | ok j' =>
          rw [hswapped] at h
          cases hreorder : D.reorder j with
          | none =>
              rw [hreorder] at h
              exact ⟨j', .inl (Except.ok.inj h).symm⟩
          | some image =>
              rw [hreorder] at h
              exact ⟨j', .inr ⟨image, (Except.ok.inj h).symm⟩⟩

/-- Where the join of `l` and `r` is not swapped, the rule leaves it alone. -/
theorem transformUp_join_of_not_swapped (hl : l.asIcebergScan.isSome = true)
    (hr : r.asIcebergScan.isSome = true) (hdecide : l.shouldSwapForStarSchema r = false) :
    D.transformUp (.hashJoin l r j) = .ok (.hashJoin l r j, false) := by
  rw [transformUp_join hl hr, reorderJoin, hdecide]
  cases D.supportsSwap j.joinType <;> rfl

/-- A join that is not swapped is left alone under a projection too. -/
theorem joinReorder_of_not_swapped (hl : l.asIcebergScan.isSome = true)
    (hr : r.asIcebergScan.isSome = true) (hdecide : l.shouldSwapForStarSchema r = false)
    {q : DistributedPlan κ} (hq : q = .hashJoin l r j ∨
      ∃ image, q = .operator (reorderProjection image) [.hashJoin l r j]) :
    D.joinReorder q = .ok q := by
  have hjoin := transformUp_join_of_not_swapped (D := D) (j := j) hl hr hdecide
  rcases hq with rfl | ⟨image, rfl⟩
  · rw [joinReorder, hjoin]
    rfl
  · rw [joinReorder, transformUp, transformUpList, hjoin]
    rfl

/-- **A join of two scans is oriented exactly when their weights are not both in the band** in which a scan
counts as a fact table and as small. -/
theorem oriented_iff (D : DataFusion κ) (hl : l.asIcebergScan = some build)
    (hr : r.asIcebergScan = some probe) (hswap : D.supportsSwap j.joinType = true) :
    D.Oriented l r j ↔ ¬ (InBand build ∧ InBand probe) := by
  have hlsome : l.asIcebergScan.isSome = true := by rw [hl]; rfl
  have hrsome : r.asIcebergScan.isSome = true := by rw [hr]; rfl
  rw [← both_swapped_iff hl hr]
  refine ⟨Oriented.asymmetric, fun hasym => ⟨?_, hasym, ?_⟩⟩
  · intro q hq
    rcases joinReorder_cases hlsome hrsome hswap hq with ⟨hdecide, rfl⟩ | ⟨hdecide, j', hq⟩
    · -- the left scan is not heavier, or the join would have been swapped
      refine ⟨l, r, build, probe, rfl, hl, hr, ?_⟩
      by_contra hheavier
      have := (shouldSwap_iff hl hr).mpr (.inr (Nat.lt_of_not_le hheavier))
      rw [hdecide] at this
      cases this
    · -- the right scan is not heavier, or its mirror image would be swapped too
      have hle : probe.joinOrderWeight ≤ build.joinOrderWeight := by
        by_contra hheavier
        exact hasym ⟨hdecide, (shouldSwap_iff hr hl).mpr (.inr (Nat.lt_of_not_le hheavier))⟩
      rcases hq with rfl | ⟨image, rfl⟩ <;> exact ⟨r, l, probe, build, rfl, hr, hl, hle⟩
  · intro q q' hq hq'
    have hsame : D.joinReorder q = .ok q := by
      rcases joinReorder_cases hlsome hrsome hswap hq with ⟨hdecide, rfl⟩ | ⟨hdecide, j', hq⟩
      · exact joinReorder_of_not_swapped hlsome hrsome hdecide (.inl rfl)
      · refine joinReorder_of_not_swapped hrsome hlsome ?_ hq
        exact Bool.eq_false_iff.mpr fun hback => hasym ⟨hdecide, hback⟩
    rw [hsame] at hq'
    rw [Except.ok.inj hq']

end DataFusion

/-! ### Joins of two scans -/

/-- An unfiltered scan of a table with `rows` rows by its metadata. -/
def sizedScan (rows : String) : IcebergTableScan where
  table :=
    { uuid := 0
      currentSnapshotId := some 1
      snapshots := [{ snapshotId := 1, totalRecords := some rows, files := [] }] }
  snapshotId := none
  tableSchema := ["k"]
  projection := none
  predicates := none
  physicalFilters := []
  limit := none
  scanPartitions := 4

/-- The join of a filtered dimension and a large fact table is oriented. -/
theorem oriented_dimFact :
    keyDataFusion.Oriented (hashed factScan) (hashed dimScan)
      { on := (keyJoin .inner).on
        joinType := .inner
        projection := none
        widths := (1, 1)
        filter := none
        partitionMode := .partitioned
        nullEquality := .nullEqualsNothing
        dynamicFilter := none } := by
  have hbuild : (hashed factScan).asIcebergScan = some factScan := rfl
  have hprobe : (hashed dimScan).asIcebergScan = some dimScan := rfl
  refine (keyDataFusion.oriented_iff hbuild hprobe rfl).mpr ?_
  decide

/-- Two unfiltered tables of 200000 and 300000 rows are swapped in either order, so that the larger one is
built. -/
theorem not_oriented_band :
    (keyDataFusion.joinReorder (hashedJoin (sizedScan "200000") (sizedScan "300000") .inner)).toOption.bind
        (fun q => q.sides.bind fun s => s.1.icebergJoinWeight) = some 300000 ∧
      (hashed (sizedScan "200000")).shouldSwapForStarSchema (hashed (sizedScan "300000")) = true ∧
      (hashed (sizedScan "300000")).shouldSwapForStarSchema (hashed (sizedScan "200000")) = true := by
  refine ⟨?_, ?_, ?_⟩ <;> decide +kernel

end IcebergDb.Plan
