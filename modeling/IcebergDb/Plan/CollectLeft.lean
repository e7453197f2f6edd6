import IcebergDb.Foundation.Distribution
import IcebergDb.Plan.FkBoundPushdown

/-!
# Collecting the small side of a join

`join_collect_left.rs` turns a join of a small dimension and a large fact table into a `CollectLeft` join,
after DataFusion has arranged the distribution of every operator's inputs.

* `DistributedPlan` — a plan as far as the distribution of rows goes, with DataFusion's part in `DataFusion`;
* `visit` — the rule;
* `Valid` — every operator's requirements are satisfied;
* `NoDefect` — at every join that the rule converts, the build side gets a single partition, and the hash
  partitioning that the join had is seen by nobody above, or still there;
* `visit_valid` — **the rule keeps a valid plan valid exactly when `NoDefect` holds**.
-/

namespace IcebergDb.Plan

open IcebergDb.Expr IcebergDb.Scan IcebergDb.Relational IcebergDb.Partitions

/-! ### Plans -/

/-- `PartitionMode`. -/
inductive PartitionMode where
  | partitioned
  | collectLeft
  | auto
deriving DecidableEq

/-- `JoinType::swap`. -/
def swapJoinType : JoinType → JoinType
  | .inner => .inner
  | .full => .full
  | .left => .right
  | .right => .left
  | .leftSemi => .rightSemi
  | .rightSemi => .leftSemi
  | .leftAnti => .rightAnti
  | .rightAnti => .leftAnti
  | .leftMark => .rightMark
  | .rightMark => .leftMark

/-- What decides the columns of a join's output: the keys, the type, the embedded projection and the numbers
of columns of the inputs. -/
structure JoinColumns where
  on : List (PhysicalExpr × PhysicalExpr)
  joinType : JoinType
  projection : Option (List ℕ)
  widths : ℕ × ℕ

/-- `HashJoinExec` without its inputs. -/
structure HashJoinExec extends JoinColumns where
  filter : Option PhysicalExpr
  partitionMode : PartitionMode
  nullEquality : NullEquality
  dynamicFilter : Option ArcExpr

/-- `HashJoinExec::try_new` with the parts of another join: its dynamic filter is left behind. -/
def HashJoinExec.tryNew (j : HashJoinExec) (mode : PartitionMode) : HashJoinExec :=
  { j with partitionMode := mode, dynamicFilter := none }

/-- The operators that the rule tells apart. -/
inductive OperatorKind where
  | aggregate
  | repartition
  | coalescePartitions
  | projection
  | cooperative
  | other
deriving DecidableEq

/-- An operator other than a scan or a hash join.  `rebuildError` is the answer of `with_new_children`. -/
structure OperatorNode (κ : Type) extends Operator κ where
  kind : OperatorKind
  rebuildError : List (Partitioning κ) → Option String

/-- A physical plan. -/
inductive DistributedPlan (κ : Type) where
  | scan (scan : IcebergTableScan)
  | hashJoin (left right : DistributedPlan κ) (join : HashJoinExec)
  | operator (node : OperatorNode κ) (inputs : List (DistributedPlan κ))

/-- What DataFusion supplies.  Keys are taken up to the equivalences known where they stand. -/
structure DataFusion (κ : Type) where
  /-- Rows hashed by the first keys are distributed as the second require. -/
  meets : κ → κ → Prop
  keyOf : List PhysicalExpr → κ
  /-- The keys of the left and of the right input, in the columns of the join. -/
  fromLeft : JoinColumns → κ → Option κ
  fromRight : JoinColumns → κ → Option κ
  supportsSwap : JoinType → Bool
  /-- The join inside `swap_inputs`. -/
  swapped : HashJoinExec → PartitionMode → Except String HashJoinExec
  /-- The projection that `swap_inputs` puts over it, if any. -/
  reorder : HashJoinExec → Option (κ → Option κ)

variable {κ : Type}

/-- A projection that restores the order of the columns. -/
def reorderProjection (image : κ → Option κ) : OperatorNode κ where
  required := fun _ => .unspecified
  output := .ofInput 0 image
  kind := .projection
  rebuildError := fun _ => none

/-- `CoalescePartitionsExec`. -/
def coalescePartitionsExec : OperatorNode κ where
  required := fun _ => .unspecified
  output := .own (fun _ => 1) none
  kind := .coalescePartitions
  rebuildError := fun _ => none

/-! ### The distribution of a plan -/

/-- The join type returns every row of the right input at most once for each left row, and no left row alone:
the output is distributed as the right input. -/
def passesRight : JoinType → Bool
  | .inner | .right | .rightSemi | .rightAnti | .rightMark => true
  | .left | .leftSemi | .leftAnti | .leftMark | .full => false

namespace DataFusion

variable (D : DataFusion κ)

/-- `symmetric_join_output_partitioning`: of a `Partitioned` join. -/
def symmetricOutput (c : JoinColumns) : Output κ :=
  match c.joinType with
  | .left | .leftSemi | .leftAnti | .leftMark => .ofInput 0 (D.fromLeft c)
  | .inner | .right | .rightSemi | .rightAnti | .rightMark => .ofInput 1 (D.fromRight c)
  | .full => .ofInput 1 fun _ => none

/-- `asymmetric_join_output_partitioning`: of a `CollectLeft` join. -/
def asymmetricImage (c : JoinColumns) : κ → Option κ :=
  if passesRight c.joinType then D.fromRight c else fun _ => none

/-- `HashJoinExec::required_input_distribution`. -/
def joinRequired (j : HashJoinExec) (i : ℕ) : Distribution κ :=
  match j.partitionMode, i with
  | .collectLeft, 0 => .single
  | .partitioned, 0 => .hash (D.keyOf (j.on.map Prod.fst))
  | .partitioned, 1 => .hash (D.keyOf (j.on.map Prod.snd))
  | _, _ => .unspecified

/-- A hash join, as far as distribution goes. -/
def joinOperator (j : HashJoinExec) : Operator κ where
  required := D.joinRequired j
  output :=
    match j.partitionMode with
    | .partitioned => D.symmetricOutput j.toJoinColumns
    | .collectLeft => .ofInput 1 (D.asymmetricImage j.toJoinColumns)
    | .auto => .ofInput 1 fun _ => none

mutual

/-- `output_partitioning`. -/
def partitioning : DistributedPlan κ → Partitioning κ
  | .scan s => ⟨s.scanPartitions, none⟩
  | .hashJoin l r j => (D.joinOperator j).outputPartitioning [partitioning l, partitioning r]
  | .operator op is => op.outputPartitioning (partitionings is)

/-- The partitioning of each of several plans. -/
def partitionings : List (DistributedPlan κ) → List (Partitioning κ)
  | [] => []
  | p :: ps => partitioning p :: partitionings ps

end

mutual

/-- Every operator's required input distribution is satisfied. -/
def Valid : DistributedPlan κ → Prop
  | .scan _ => True
  | .hashJoin l r j =>
      Valid l ∧ Valid r ∧ (D.joinOperator j).Accepts D.meets [D.partitioning l, D.partitioning r]
  | .operator op is => ValidList is ∧ op.Accepts D.meets (D.partitionings is)

/-- Every plan of a list is valid. -/
def ValidList : List (DistributedPlan κ) → Prop
  | [] => True
  | p :: ps => Valid p ∧ ValidList ps

end

end DataFusion

/-! ### Recognising the sides -/

/-- The operators that `peel_single_input` goes through. -/
def OperatorKind.isPeeled : OperatorKind → Bool
  | .repartition | .coalescePartitions | .projection | .cooperative => true
  | .aggregate | .other => false

namespace DistributedPlan

/-- `peel_single_input`. -/
def peelSingleInput : DistributedPlan κ → DistributedPlan κ
  | .operator op [i] => if op.kind.isPeeled then peelSingleInput i else .operator op [i]
  | p => p

/-- `as_iceberg_scan`. -/
def asIcebergScan (p : DistributedPlan κ) : Option IcebergTableScan :=
  match p.peelSingleInput with
  | .scan s => some s
  | _ => none

/-- `is_small_iceberg_build`. -/
def isSmallIcebergBuild (p : DistributedPlan κ) : Bool :=
  (p.asIcebergScan.map fun s => decide (s.joinOrderWeight < smallIcebergBuildRows)).getD false

/-- `is_large_unfiltered_fact`. -/
def isLargeUnfilteredFact (p : DistributedPlan κ) : Bool :=
  (p.asIcebergScan.map IcebergTableScan.isFactLike).getD false

end DistributedPlan

/-! ### The rule -/

namespace DataFusion

variable (D : DataFusion κ)

/-- `coalesce_if_needed`. -/
def coalesceIfNeeded (p : DistributedPlan κ) : DistributedPlan κ :=
  if (D.partitioning p).count ≤ 1 then p else .operator coalescePartitionsExec [p]

/-- `ensure_collect_left_build_side`.  `coalesce_if_needed` returns the same plan when there is at most one
partition. -/
def ensureCollectLeftBuildSide : DistributedPlan κ → DistributedPlan κ
  | .hashJoin l r j =>
      if j.partitionMode ≠ .collectLeft then .hashJoin l r j
      else if (D.partitioning l).count ≤ 1 then .hashJoin l r j
      else .hashJoin (D.coalesceIfNeeded l) r (j.tryNew .collectLeft)
  | p => p

/-- `HashJoinExec::swap_inputs`. -/
def swapInputs (l r : DistributedPlan κ) (j : HashJoinExec) (mode : PartitionMode) :
    Except String (DistributedPlan κ) :=
  match D.swapped j mode with
  | .error e => .error e
  | .ok j' =>
      match D.reorder j with
      | none => .ok (.hashJoin r l j')
      | some image => .ok (.operator (reorderProjection image) [.hashJoin r l j'])

/-- What the rule does with a hash join whose inputs it has visited. -/
def collectJoin (l r : DistributedPlan κ) (j : HashJoinExec) (parentIsAggregate : Bool) :
    Except String (DistributedPlan κ) :=
  if !D.supportsSwap j.joinType then .ok (.hashJoin l r j)
  else if parentIsAggregate then .ok (.hashJoin l r j)
  else if j.partitionMode = .collectLeft then .ok (D.ensureCollectLeftBuildSide (.hashJoin l r j))
  else
    let leftDim := l.isSmallIcebergBuild && l.asIcebergScan.isSome
    let rightDim := r.isSmallIcebergBuild && r.asIcebergScan.isSome
    let leftFact := l.isLargeUnfilteredFact
    let rightFact := r.isLargeUnfilteredFact
    if !((leftDim && rightFact) || (rightDim && leftFact)) then .ok (.hashJoin l r j)
    else if rightDim && leftFact then
      (D.swapInputs l r j .collectLeft).map D.ensureCollectLeftBuildSide
    else .ok (D.ensureCollectLeftBuildSide (.hashJoin l r (j.tryNew .collectLeft)))

/-- `with_new_children`. -/
def withNewChildren (op : OperatorNode κ) (inputs : List (DistributedPlan κ)) :
    Except String (DistributedPlan κ) :=
  match op.rebuildError (D.partitionings inputs) with
  | some e => .error e
  | none => .ok (.operator op inputs)

mutual

/-- `visit`.  A plan without inputs is left as it is. -/
def visit : DistributedPlan κ → Bool → Except String (DistributedPlan κ)
  | .scan s, _ => .ok (.scan s)
  | .hashJoin l r j, parentIsAggregate => do
      let l' ← visit l false
      let r' ← visit r false
      D.collectJoin l' r' j parentIsAggregate
  | .operator op [], _ => .ok (.operator op [])
  | .operator op (i :: is), _ => do
      let is' ← visitList (i :: is) (decide (op.kind = .aggregate))
      D.withNewChildren op is'

/-- `visit` on every input of an operator. -/
def visitList : List (DistributedPlan κ) → Bool → Except String (List (DistributedPlan κ))
  | [], _ => .ok []
  | p :: ps, parentIsAggregate => do
      let p' ← visit p parentIsAggregate
      let ps' ← visitList ps parentIsAggregate
      .ok (p' :: ps')

end

/-! ### When nothing is lost -/

/-- What becomes of a hash join. -/
inductive Conversion where
  | unchanged
  | ensured
  | collected
  | swapped
deriving DecidableEq

/-- The case that the rule takes, by the inputs of the join. -/
def conversion (l r : DistributedPlan κ) (j : HashJoinExec) (parentIsAggregate : Bool) : Conversion :=
  if !D.supportsSwap j.joinType || parentIsAggregate then .unchanged
  else if j.partitionMode = .collectLeft then .ensured
  else if r.isSmallIcebergBuild && l.isLargeUnfilteredFact then .swapped
  else if l.isSmallIcebergBuild && r.isLargeUnfilteredFact then .collected
  else .unchanged

/-- The converted join still has the hash partitioning of the join `j` of `l` and `r`: there is one partition
only, or there was no hash partitioning, or it comes from the streamed side. -/
def HashKept (streamed : DistributedPlan κ) (joinType : JoinType) (join : DistributedPlan κ) : Prop :=
  (D.partitioning streamed).count = 1 ∨ (D.partitioning join).hash = none ∨ passesRight joinType = true

/-- The conversion of one join is harmless where its hash partitioning is `seen` from above or not.  A
join under a projection does not get its build side coalesced. -/
def ConvertsSafely (l r : DistributedPlan κ) (j : HashJoinExec) (parentIsAggregate seen : Bool) : Prop :=
  match D.conversion l r j parentIsAggregate with
  | .unchanged | .ensured => True
  | .collected =>
      (D.partitioning l).count ≠ 0 ∧ (seen = true → D.HashKept r j.joinType (.hashJoin l r j))
  | .swapped =>
      (D.partitioning r).count ≠ 0 ∧ ((D.reorder j).isSome = true → (D.partitioning r).count = 1) ∧
        (seen = true → D.HashKept l (swapJoinType j.joinType) (.hashJoin l r j))

mutual

/-- Every conversion is harmless. -/
def NoDefect : DistributedPlan κ → Bool → Bool → Prop
  | .scan _, _, _ => True
  | .hashJoin l r j, parentIsAggregate, seen =>
      NoDefect l false ((D.joinOperator j).sees seen 0) ∧
        NoDefect r false ((D.joinOperator j).sees seen 1) ∧
        D.ConvertsSafely l r j parentIsAggregate seen
  | .operator op is, _, seen => NoDefectList is (decide (op.kind = .aggregate)) (op.sees seen)

/-- Every conversion in the inputs of an operator is harmless. -/
def NoDefectList : List (DistributedPlan κ) → Bool → (ℕ → Bool) → Prop
  | [], _, _ => True
  | p :: ps, parentIsAggregate, seen =>
      NoDefect p parentIsAggregate (seen 0) ∧
        NoDefectList ps parentIsAggregate (fun i => seen (i + 1))

end

mutual

/-- The inputs of a join that does not collect the left one have equally many partitions, as the execution of
the join demands. -/
def Balanced : DistributedPlan κ → Prop
  | .scan _ => True
  | .hashJoin l r j =>
      Balanced l ∧ Balanced r ∧
        (j.partitionMode ≠ .collectLeft → (D.partitioning l).count = (D.partitioning r).count)
  | .operator _ is => BalancedList is

/-- Every plan of a list is balanced. -/
def BalancedList : List (DistributedPlan κ) → Prop
  | [] => True
  | p :: ps => Balanced p ∧ BalancedList ps

end

/-- **What DataFusion does with a join**: `swap_inputs` swaps the type of the join and takes the given mode; its
output, reordered if need be, has the keys of the left input where the join had them; and an inner join
equates the keys of its two inputs. -/
structure Lawful (D : DataFusion κ) : Prop where
  swapped_joinType : ∀ {j j' : HashJoinExec} {mode : PartitionMode}, D.swapped j mode = .ok j' →
    j'.joinType = swapJoinType j.joinType
  swapped_mode : ∀ {j j' : HashJoinExec} {mode : PartitionMode}, D.swapped j mode = .ok j' →
    j'.partitionMode = mode
  restores : ∀ {j j' : HashJoinExec} {mode : PartitionMode}, D.swapped j mode = .ok j' → ∀ k,
    (D.fromRight j'.toJoinColumns k).bind ((D.reorder j).getD some) = D.fromLeft j.toJoinColumns k
  equates : ∀ {c : JoinColumns} {kl kr k : κ}, c.joinType = .inner →
    D.meets kl (D.keyOf (c.on.map Prod.fst)) → D.meets kr (D.keyOf (c.on.map Prod.snd)) →
    D.fromRight c kr = some k → D.fromLeft c kl = some k

/-! ### A join that collects its left input -/

theorem partitioning_collectLeft {l r : DistributedPlan κ} {j : HashJoinExec}
    (hmode : j.partitionMode = .collectLeft) :
    D.partitioning (.hashJoin l r j) =
      (D.partitioning r).image (D.asymmetricImage j.toJoinColumns) := by
  have hout : (D.joinOperator j).output = .ofInput 1 (D.asymmetricImage j.toJoinColumns) := by
    rw [joinOperator, hmode]
  show (D.joinOperator j).outputPartitioning [D.partitioning l, D.partitioning r] = _
  exact Operator.outputPartitioning_ofInput hout rfl

/-- Only the left input has to be a single partition. -/
theorem accepts_collectLeft {j : HashJoinExec} (hmode : j.partitionMode = .collectLeft)
    (pl pr : Partitioning κ) : (D.joinOperator j).Accepts D.meets [pl, pr] ↔ pl.count = 1 := by
  have hleft : (D.joinOperator j).required 0 = .single := by
    show D.joinRequired j 0 = _
    simp only [joinRequired, hmode]
  have hrest : ∀ i, (D.joinOperator j).required (i + 1) = .unspecified := by
    intro i
    show D.joinRequired j (i + 1) = _
    simp only [joinRequired, hmode]
  constructor
  · intro haccepts
    have hsingle := haccepts 0 pl rfl
    rw [hleft] at hsingle
    exact hsingle
  · intro hone i p hp
    cases i with
    | zero =>
        obtain rfl : pl = p := Option.some.inj hp
        rw [hleft]
        exact hone
    | succ i =>
        rw [hrest]
        trivial

/-- The left input of such a join is not seen. -/
theorem sees_collectLeft {j : HashJoinExec} (hmode : j.partitionMode = .collectLeft) (seen : Bool) :
    (D.joinOperator j).sees seen 0 = false := by
  show ((D.joinRequired j 0).isHash || ((D.joinOperator j).passesOn 0 && seen)) = false
  simp only [joinRequired, Operator.passesOn, joinOperator, hmode]
  rfl

theorem coalesceIfNeeded_of_le {p : DistributedPlan κ} (h : (D.partitioning p).count ≤ 1) :
    D.coalesceIfNeeded p = p := if_pos h

/-- Coalesced, a plan has one partition, or none if it had none. -/
theorem count_coalesceIfNeeded (p : DistributedPlan κ) :
    (D.partitioning (D.coalesceIfNeeded p)).count = 1 ↔ (D.partitioning p).count ≠ 0 := by
  by_cases hle : (D.partitioning p).count ≤ 1
  · rw [D.coalesceIfNeeded_of_le hle]
    omega
  · rw [coalesceIfNeeded, if_neg hle]
    show 1 = 1 ↔ _
    omega

theorem valid_coalesceIfNeeded (p : DistributedPlan κ) : D.Valid (D.coalesceIfNeeded p) ↔ D.Valid p := by
  unfold coalesceIfNeeded
  split
  · exact .rfl
  · show (D.Valid p ∧ True) ∧ _ ↔ _
    exact ⟨fun h => h.1.1, fun h => ⟨⟨h, trivial⟩, fun _ _ _ => trivial⟩⟩

/-- The build side is coalesced, and nothing else changes. -/
theorem ensure_cases {l r : DistributedPlan κ} {j : HashJoinExec}
    (hmode : j.partitionMode = .collectLeft) :
    ∃ j' : HashJoinExec, j'.partitionMode = .collectLeft ∧ j'.toJoinColumns = j.toJoinColumns ∧
      D.ensureCollectLeftBuildSide (.hashJoin l r j) = .hashJoin (D.coalesceIfNeeded l) r j' := by
  show ∃ j' : HashJoinExec, _ ∧ _ ∧ (if j.partitionMode ≠ .collectLeft then _ else _) = _
  rw [if_neg (not_not.mpr hmode)]
  by_cases hle : (D.partitioning l).count ≤ 1
  · refine ⟨j, hmode, rfl, ?_⟩
    rw [if_pos hle, D.coalesceIfNeeded_of_le hle]
  · refine ⟨j.tryNew .collectLeft, rfl, rfl, ?_⟩
    rw [if_neg hle]

/-- **The build side ends up in a single partition** exactly when it has any partition. -/
theorem valid_ensure {l r : DistributedPlan κ} {j : HashJoinExec}
    (hmode : j.partitionMode = .collectLeft) :
    D.Valid (D.ensureCollectLeftBuildSide (.hashJoin l r j)) ↔
      D.Valid l ∧ D.Valid r ∧ (D.partitioning l).count ≠ 0 := by
  obtain ⟨j', hmode', -, heq⟩ := D.ensure_cases (l := l) (r := r) hmode
  rw [heq]
  show D.Valid _ ∧ D.Valid r ∧ (D.joinOperator j').Accepts D.meets [_, _] ↔ _
  rw [D.accepts_collectLeft hmode', D.count_coalesceIfNeeded, D.valid_coalesceIfNeeded]

/-- The output does not depend on the build side. -/
theorem partitioning_ensure {l r : DistributedPlan κ} {j : HashJoinExec}
    (hmode : j.partitionMode = .collectLeft) :
    D.partitioning (D.ensureCollectLeftBuildSide (.hashJoin l r j)) =
      (D.partitioning r).image (D.asymmetricImage j.toJoinColumns) := by
  obtain ⟨j', hmode', hcolumns, heq⟩ := D.ensure_cases (l := l) (r := r) hmode
  rw [heq, D.partitioning_collectLeft hmode', hcolumns]

/-! ### What a converted join offers -/

section

variable {D} {j : HashJoinExec} {pl pr : Partitioning κ} {seen : Bool}

/-- An unresolved join has no known hash partitioning. -/
theorem output_auto (hmode : j.partitionMode = .auto) :
    (D.joinOperator j).outputPartitioning [pl, pr] = pr.image fun _ => none := by
  have hout : (D.joinOperator j).output = .ofInput 1 fun _ => none := by rw [joinOperator, hmode]
  exact Operator.outputPartitioning_ofInput hout rfl

/-- A partitioned join is partitioned as one of its inputs, by its type. -/
theorem output_partitioned (hmode : j.partitionMode = .partitioned) :
    (D.joinOperator j).outputPartitioning [pl, pr] =
      match j.joinType with
      | .left | .leftSemi | .leftAnti | .leftMark => pl.image (D.fromLeft j.toJoinColumns)
      | .inner | .right | .rightSemi | .rightAnti | .rightMark => pr.image (D.fromRight j.toJoinColumns)
      | .full => pr.image fun _ => none := by
  have hout : (D.joinOperator j).output = D.symmetricOutput j.toJoinColumns := by
    rw [joinOperator, hmode]
  cases ht : j.joinType <;> rw [symmetricOutput, ht] at hout <;>
    exact Operator.outputPartitioning_ofInput hout rfl

/-- The output of a join that does not collect has as many partitions as its inputs. -/
theorem count_output (hmode : j.partitionMode ≠ .collectLeft) (hcount : pl.count = pr.count) :
    ((D.joinOperator j).outputPartitioning [pl, pr]).count = pr.count := by
  cases hm : j.partitionMode with
  | collectLeft => exact absurd hm hmode
  | auto =>
      rw [output_auto hm]
      rfl
  | partitioned =>
      rw [output_partitioned hm]
      cases j.joinType with
      | left | leftSemi | leftAnti | leftMark => exact hcount
      | _ => rfl

/-- A hash partitioning that is known is that of a partitioned join. -/
theorem partitioned_of_hash (hmode : j.partitionMode ≠ .collectLeft) {k : κ}
    (hk : ((D.joinOperator j).outputPartitioning [pl, pr]).hash = some k) :
    j.partitionMode = .partitioned := by
  cases hm : j.partitionMode with
  | partitioned => rfl
  | collectLeft => exact absurd hm hmode
  | auto =>
      rw [output_auto hm] at hk
      have hnone : pr.hash.bind (fun _ => none) = some k := hk
      rw [Option.bind_fun_none] at hnone
      cases hnone

/-- What the streamed side offers stays, as it is. -/
theorem hash_collected (hmode : j.partitionMode ≠ .collectLeft) (hpasses : passesRight j.joinType = true)
    {k : κ} (hk : ((D.joinOperator j).outputPartitioning [pl, pr]).hash = some k) :
    (pr.image (D.asymmetricImage j.toJoinColumns)).hash = some k := by
  rw [asymmetricImage, if_pos hpasses]
  rw [output_partitioned (partitioned_of_hash hmode hk)] at hk
  cases ht : j.joinType <;> rw [ht] at hpasses hk
  case left | leftSemi | leftAnti | leftMark | full => cases hpasses
  all_goals exact hk

/-- The swapped join, reordered, is partitioned as the left input was. -/
theorem image_swapped (hlaw : D.Lawful) {j' : HashJoinExec} (hj' : D.swapped j .collectLeft = .ok j')
    (hpasses : passesRight (swapJoinType j.joinType) = true) :
    (pl.image (D.asymmetricImage j'.toJoinColumns)).image ((D.reorder j).getD some) =
      pl.image (D.fromLeft j.toJoinColumns) := by
  have hpasses' : passesRight j'.joinType = true := by
    rw [hlaw.swapped_joinType hj']
    exact hpasses
  have hrestores : (fun k => (D.fromRight j'.toJoinColumns k).bind ((D.reorder j).getD some)) =
      D.fromLeft j.toJoinColumns := funext (hlaw.restores hj')
  rw [asymmetricImage, if_pos hpasses', ← hrestores]
  show Partitioning.mk pl.count ((pl.hash.bind _).bind _) = ⟨pl.count, pl.hash.bind _⟩
  rw [Option.bind_assoc]

/-- In an inner join the keys of the left input are those of the output. -/
theorem hash_inner (hlaw : D.Lawful) (hmode : j.partitionMode = .partitioned) (ht : j.joinType = .inner)
    (haccepts : (D.joinOperator j).Accepts D.meets [pl, pr]) (hcount : pl.count = pr.count) {k : κ}
    (hk : pr.hash.bind (D.fromRight j.toJoinColumns) = some k) :
    pr.count = 1 ∨ pl.hash.bind (D.fromLeft j.toJoinColumns) = some k := by
  have hleft : (D.joinOperator j).required 0 = .hash (D.keyOf (j.on.map Prod.fst)) := by
    show D.joinRequired j 0 = _
    simp only [joinRequired, hmode]
  have hright : (D.joinOperator j).required 1 = .hash (D.keyOf (j.on.map Prod.snd)) := by
    show D.joinRequired j 1 = _
    simp only [joinRequired, hmode]
  have hl := haccepts 0 pl rfl
  have hr := haccepts 1 pr rfl
  rw [hleft] at hl
  rw [hright] at hr
  rcases hr with hone | ⟨kr, hkr, hmeetsr⟩
  · exact .inl hone
  · rcases hl with hone | ⟨kl, hkl, hmeetsl⟩
    · exact .inl (hcount.symm.trans hone)
    · right
      rw [hkr] at hk
      rw [hkl]
      exact hlaw.equates ht hmeetsl hmeetsr hk

/-- What the left input offered stays when it becomes the streamed side. -/
theorem hash_swapped (hlaw : D.Lawful) {j' : HashJoinExec} (hj' : D.swapped j .collectLeft = .ok j')
    (hmode : j.partitionMode ≠ .collectLeft) (hpasses : passesRight (swapJoinType j.joinType) = true)
    (haccepts : (D.joinOperator j).Accepts D.meets [pl, pr]) (hcount : pl.count = pr.count) {k : κ}
    (hk : ((D.joinOperator j).outputPartitioning [pl, pr]).hash = some k) :
    pr.count = 1 ∨
      ((pl.image (D.asymmetricImage j'.toJoinColumns)).image ((D.reorder j).getD some)).hash = some k := by
  rw [image_swapped hlaw hj' hpasses]
  have hpartitioned := partitioned_of_hash hmode hk
  rw [output_partitioned hpartitioned] at hk
  cases ht : j.joinType <;> rw [ht] at hpasses hk
  case right | rightSemi | rightAnti | rightMark | full => cases hpasses
  case inner => exact hash_inner hlaw hpartitioned ht haccepts hcount hk
  all_goals exact .inr hk

end

/-! ### The sides of a converted join are scans -/

theorem isSome_of_isSmallIcebergBuild {p : DistributedPlan κ} (h : p.isSmallIcebergBuild = true) :
    p.asIcebergScan.isSome = true := by
  rw [DistributedPlan.isSmallIcebergBuild] at h
  cases hscan : p.asIcebergScan with
  | none =>
      rw [hscan] at h
      cases h
  | some s => rfl

theorem isSome_of_isLargeUnfilteredFact {p : DistributedPlan κ} (h : p.isLargeUnfilteredFact = true) :
    p.asIcebergScan.isSome = true := by
  rw [DistributedPlan.isLargeUnfilteredFact] at h
  cases hscan : p.asIcebergScan with
  | none =>
      rw [hscan] at h
      cases h
  | some s => rfl

/-- **What the rule does with a join**, case by case. -/
theorem collectJoin_cases {l r q : DistributedPlan κ} {j : HashJoinExec} {parentIsAggregate : Bool}
    (h : D.collectJoin l r j parentIsAggregate = .ok q) :
    (D.conversion l r j parentIsAggregate = .unchanged ∧ q = .hashJoin l r j) ∨
    (D.conversion l r j parentIsAggregate = .ensured ∧ j.partitionMode = .collectLeft ∧
      q = D.ensureCollectLeftBuildSide (.hashJoin l r j)) ∨
    (D.conversion l r j parentIsAggregate = .collected ∧ j.partitionMode ≠ .collectLeft ∧
      l.asIcebergScan.isSome = true ∧ r.asIcebergScan.isSome = true ∧
      q = D.ensureCollectLeftBuildSide (.hashJoin l r (j.tryNew .collectLeft))) ∨
    (D.conversion l r j parentIsAggregate = .swapped ∧ j.partitionMode ≠ .collectLeft ∧
      l.asIcebergScan.isSome = true ∧ r.asIcebergScan.isSome = true ∧
      (D.swapInputs l r j .collectLeft).map D.ensureCollectLeftBuildSide = .ok q) := by
  have hsmall : ∀ p : DistributedPlan κ,
      (p.isSmallIcebergBuild && p.asIcebergScan.isSome) = p.isSmallIcebergBuild := by
    intro p
    cases hp : p.isSmallIcebergBuild with
    | false => rfl
    | true => exact isSome_of_isSmallIcebergBuild hp
  simp only [collectJoin, hsmall] at h
  rw [conversion]
  cases hsupports : D.supportsSwap j.joinType with
  | false =>
      rw [hsupports] at h
      exact .inl ⟨rfl, (Except.ok.inj h).symm⟩
  | true =>
      cases hagg : parentIsAggregate with
      | true =>
          rw [hsupports, hagg] at h
          exact .inl ⟨rfl, (Except.ok.inj h).symm⟩
      | false =>
          rw [hsupports, hagg] at h
          by_cases hmode : j.partitionMode = .collectLeft
          · rw [if_pos hmode] at h
            exact .inr (.inl ⟨if_pos hmode, hmode, (Except.ok.inj h).symm⟩)
          · rw [if_neg hmode] at h
            cases hswap : r.isSmallIcebergBuild && l.isLargeUnfilteredFact with
            | true =>
                rw [hswap, Bool.or_true] at h
                obtain ⟨hr, hl⟩ := (Bool.and_eq_true _ _).mp hswap
                exact .inr (.inr (.inr ⟨if_neg hmode, hmode, isSome_of_isLargeUnfilteredFact hl,
                  isSome_of_isSmallIcebergBuild hr, h⟩))
            | false =>
                rw [hswap, Bool.or_false] at h
                cases hcollect : l.isSmallIcebergBuild && r.isLargeUnfilteredFact with
                | true =>
                    rw [hcollect] at h
                    obtain ⟨hl, hr⟩ := (Bool.and_eq_true _ _).mp hcollect
                    exact .inr (.inr (.inl ⟨if_neg hmode, hmode, isSome_of_isSmallIcebergBuild hl,
                      isSome_of_isLargeUnfilteredFact hr, (Except.ok.inj h).symm⟩))
                | false =>
                    rw [hcollect] at h
                    exact .inl ⟨if_neg hmode, (Except.ok.inj h).symm⟩

/-- A swapped join is the join, or a projection over it. -/
theorem swapInputs_cases {l r q : DistributedPlan κ} {j : HashJoinExec}
    (h : (D.swapInputs l r j .collectLeft).map D.ensureCollectLeftBuildSide = .ok q) :
    ∃ j', D.swapped j .collectLeft = .ok j' ∧
      ((D.reorder j = none ∧ q = D.ensureCollectLeftBuildSide (.hashJoin r l j')) ∨
        ∃ image, D.reorder j = some image ∧
          q = .operator (reorderProjection image) [.hashJoin r l j']) := by
  rw [swapInputs] at h
  cases hswapped : D.swapped j .collectLeft with
  | error e =>
      rw [hswapped] at h
      cases h
  | ok j' =>
      rw [hswapped] at h
      refine ⟨j', rfl, ?_⟩
      cases hreorder : D.reorder j with
      | none =>
          rw [hreorder] at h
          exact .inl ⟨rfl, (Except.ok.inj h).symm⟩
      | some image =>
          rw [hreorder] at h
          exact .inr ⟨image, rfl, (Except.ok.inj h).symm⟩

/-- The validity and the partitioning of a swapped join: with a projection over it the build side is not
coalesced. -/
theorem swapInputs_valid (hlaw : D.Lawful) {l r q : DistributedPlan κ} {j : HashJoinExec}
    (h : (D.swapInputs l r j .collectLeft).map D.ensureCollectLeftBuildSide = .ok q) :
    ∃ j', D.swapped j .collectLeft = .ok j' ∧
      (D.Valid q ↔ D.Valid r ∧ D.Valid l ∧ (D.partitioning r).count ≠ 0 ∧
        ((D.reorder j).isSome = true → (D.partitioning r).count = 1)) ∧
      D.partitioning q =
        ((D.partitioning l).image (D.asymmetricImage j'.toJoinColumns)).image
          ((D.reorder j).getD some) := by
  obtain ⟨j', hj', hcase⟩ := D.swapInputs_cases h
  have hmode : j'.partitionMode = .collectLeft := hlaw.swapped_mode hj'
  refine ⟨j', hj', ?_⟩
  rcases hcase with ⟨hreorder, rfl⟩ | ⟨image, hreorder, rfl⟩
  · rw [D.valid_ensure hmode, D.partitioning_ensure hmode, hreorder]
    refine ⟨⟨fun hv => ⟨hv.1, hv.2.1, hv.2.2, fun hsome => by cases hsome⟩,
      fun hv => ⟨hv.1, hv.2.1, hv.2.2.1⟩⟩, ?_⟩
    exact (Partitioning.image_some _).symm
  · rw [hreorder]
    constructor
    · show ((D.Valid r ∧ D.Valid l ∧ (D.joinOperator j').Accepts D.meets [_, _]) ∧ True) ∧ _ ↔ _
      rw [D.accepts_collectLeft hmode]
      constructor
      · intro hv
        obtain ⟨⟨⟨hr, hl, hone⟩, -⟩, -⟩ := hv
        exact ⟨hr, hl, by omega, fun _ => hone⟩
      · intro hv
        obtain ⟨hr, hl, -, hone⟩ := hv
        exact ⟨⟨⟨hr, hl, hone rfl⟩, trivial⟩, fun _ _ _ => trivial⟩
    · have hout : (reorderProjection image).output = .ofInput 0 image := rfl
      show (reorderProjection image).toOperator.outputPartitioning [D.partitioning (.hashJoin r l j')] = _
      rw [Operator.outputPartitioning_ofInput hout rfl, D.partitioning_collectLeft hmode]
      rfl

/-! ### Visiting -/

theorem ok_of_bind {ε α β : Type} {x : Except ε α} {f : α → Except ε β} {b : β}
    (h : x.bind f = .ok b) : ∃ a, x = .ok a ∧ f a = .ok b := by
  cases x with
  | error e => cases h
  | ok a => exact ⟨a, rfl, h⟩

theorem visit_hashJoin {l r q : DistributedPlan κ} {j : HashJoinExec} {parentIsAggregate : Bool}
    (h : D.visit (.hashJoin l r j) parentIsAggregate = .ok q) :
    ∃ l' r', D.visit l false = .ok l' ∧ D.visit r false = .ok r' ∧
      D.collectJoin l' r' j parentIsAggregate = .ok q := by
  rw [visit] at h
  obtain ⟨l', hl, h⟩ := ok_of_bind h
  obtain ⟨r', hr, h⟩ := ok_of_bind h
  exact ⟨l', r', hl, hr, h⟩

theorem visitList_cons {p : DistributedPlan κ} {ps qs : List (DistributedPlan κ)}
    {parentIsAggregate : Bool} (h : D.visitList (p :: ps) parentIsAggregate = .ok qs) :
    ∃ p' ps', D.visit p parentIsAggregate = .ok p' ∧ D.visitList ps parentIsAggregate = .ok ps' ∧
      qs = p' :: ps' := by
  rw [visitList] at h
  obtain ⟨p', hp, h⟩ := ok_of_bind h
  obtain ⟨ps', hps, h⟩ := ok_of_bind h
  exact ⟨p', ps', hp, hps, (Except.ok.inj h).symm⟩

/-- An operator stays, over its visited inputs. -/
theorem visit_operator {op : OperatorNode κ} {is : List (DistributedPlan κ)} {q : DistributedPlan κ}
    {parentIsAggregate : Bool} (h : D.visit (.operator op is) parentIsAggregate = .ok q) :
    ∃ is', D.visitList is (decide (op.kind = .aggregate)) = .ok is' ∧ q = .operator op is' := by
  cases is with
  | nil =>
      rw [visit] at h
      exact ⟨[], rfl, (Except.ok.inj h).symm⟩
  | cons i is =>
      rw [visit] at h
      obtain ⟨is', his, h⟩ := ok_of_bind h
      refine ⟨is', his, ?_⟩
      rw [withNewChildren] at h
      cases herror : op.rebuildError (D.partitionings is') with
      | some e =>
          rw [herror] at h
          cases h
      | none =>
          rw [herror] at h
          exact (Except.ok.inj h).symm

theorem visitList_length {ps qs : List (DistributedPlan κ)} {parentIsAggregate : Bool}
    (h : D.visitList ps parentIsAggregate = .ok qs) : qs.length = ps.length := by
  induction ps generalizing qs with
  | nil =>
      rw [visitList] at h
      rw [← Except.ok.inj h]
  | cons p ps ih =>
      obtain ⟨p', ps', -, hps, rfl⟩ := D.visitList_cons h
      rw [List.length_cons, List.length_cons, ih hps]

/-- The rule never makes a wrapped scan of a join. -/
theorem asIcebergScan_collectJoin {l r q : DistributedPlan κ} {j : HashJoinExec}
    {parentIsAggregate : Bool} (h : D.collectJoin l r j parentIsAggregate = .ok q) :
    q.asIcebergScan = none := by
  have hensure : ∀ l r j, (D.ensureCollectLeftBuildSide (.hashJoin l r j)).asIcebergScan = none := by
    intro l r j
    rw [ensureCollectLeftBuildSide]
    split
    · rfl
    · split <;> rfl
  obtain ⟨-, rfl⟩ | ⟨-, -, rfl⟩ | ⟨-, -, -, -, rfl⟩ | ⟨-, -, -, -, h⟩ := D.collectJoin_cases h
  · rfl
  · exact hensure _ _ _
  · exact hensure _ _ _
  · obtain ⟨j', -, ⟨-, rfl⟩ | ⟨image, -, rfl⟩⟩ := D.swapInputs_cases h
    · exact hensure _ _ _
    · rfl

/-- Wrapped scans stay as they are, and nothing becomes one. -/
theorem asIcebergScan_visit {p q : DistributedPlan κ} {parentIsAggregate : Bool}
    (h : D.visit p parentIsAggregate = .ok q) :
    (p.asIcebergScan.isSome = true → q = p) ∧ (p.asIcebergScan = none → q.asIcebergScan = none) := by
  induction p using DistributedPlan.peelSingleInput.induct generalizing q parentIsAggregate with
  | case1 op i hpeeled ih =>
      obtain ⟨is', his, rfl⟩ := D.visit_operator h
      obtain ⟨i', is'', hi, his', rfl⟩ := D.visitList_cons his
      obtain rfl : [] = is'' := Except.ok.inj his'
      have hscan : ∀ i : DistributedPlan κ,
          (DistributedPlan.operator op [i]).asIcebergScan = i.asIcebergScan := by
        intro i
        rw [DistributedPlan.asIcebergScan, DistributedPlan.peelSingleInput, if_pos hpeeled]
        rfl
      rw [hscan, hscan]
      refine ⟨fun hsome => ?_, (ih hi).2⟩
      rw [(ih hi).1 hsome]
  | case2 op i hpeeled =>
      obtain ⟨is', his, rfl⟩ := D.visit_operator h
      obtain ⟨i', is'', hi, his', rfl⟩ := D.visitList_cons his
      obtain rfl : [] = is'' := Except.ok.inj his'
      have hscan : ∀ i : DistributedPlan κ, (DistributedPlan.operator op [i]).asIcebergScan = none := by
        intro i
        rw [DistributedPlan.asIcebergScan, DistributedPlan.peelSingleInput, if_neg hpeeled]
      rw [hscan, hscan]
      exact ⟨fun hsome => (by cases hsome), fun _ => rfl⟩
  | case3 p hother =>
      cases p with
      | scan s =>
          rw [visit] at h
          obtain rfl := Except.ok.inj h
          exact ⟨fun _ => rfl, id⟩
      | hashJoin l r j =>
          obtain ⟨l', r', -, -, hjoin⟩ := D.visit_hashJoin h
          exact ⟨fun hsome => (by cases hsome), fun _ => D.asIcebergScan_collectJoin hjoin⟩
      | operator op is =>
          obtain ⟨is', his, rfl⟩ := D.visit_operator h
          have hlength := D.visitList_length his
          match is, is' with
          | [], [] => exact ⟨fun _ => rfl, id⟩
          | [i], _ => exact absurd rfl (hother op i)
          | _ :: _ :: _, _ :: _ :: _ => exact ⟨fun hsome => (by cases hsome), fun _ => rfl⟩

/-- What is a wrapped scan after the visit was the same before. -/
theorem eq_of_asIcebergScan_visit {p q : DistributedPlan κ} {parentIsAggregate : Bool}
    (h : D.visit p parentIsAggregate = .ok q) (hsome : q.asIcebergScan.isSome = true) : q = p := by
  cases hp : p.asIcebergScan with
  | none =>
      rw [(D.asIcebergScan_visit h).2 hp] at hsome
      cases hsome
  | some s => exact (D.asIcebergScan_visit h).1 (by rw [hp]; rfl)

/-- The rule reads the visited sides of a join as it would the original ones. -/
theorem conversion_visit {l r l' r' : DistributedPlan κ} (hl : D.visit l false = .ok l')
    (hr : D.visit r false = .ok r') (j : HashJoinExec) (parentIsAggregate : Bool) :
    D.conversion l' r' j parentIsAggregate = D.conversion l r j parentIsAggregate := by
  have hscan : ∀ {p q : DistributedPlan κ}, D.visit p false = .ok q →
      q.asIcebergScan = p.asIcebergScan := by
    intro p q h
    cases hp : p.asIcebergScan with
    | none => exact (D.asIcebergScan_visit h).2 hp
    | some s =>
        rw [(D.asIcebergScan_visit h).1 (by rw [hp]; rfl), hp]
  have hsmall : ∀ {p q : DistributedPlan κ}, D.visit p false = .ok q →
      q.isSmallIcebergBuild = p.isSmallIcebergBuild := by
    intro p q h
    rw [DistributedPlan.isSmallIcebergBuild, hscan h, ← DistributedPlan.isSmallIcebergBuild]
  have hfact : ∀ {p q : DistributedPlan κ}, D.visit p false = .ok q →
      q.isLargeUnfilteredFact = p.isLargeUnfilteredFact := by
    intro p q h
    rw [DistributedPlan.isLargeUnfilteredFact, hscan h, ← DistributedPlan.isLargeUnfilteredFact]
  rw [conversion, conversion, hsmall hl, hsmall hr, hfact hl, hfact hr]

/-! ### What is kept -/

/-- A collected join keeps what is seen of the join. -/
theorem keeps_collected {l r : DistributedPlan κ} {j : HashJoinExec} {seen : Bool}
    (hmode : j.partitionMode ≠ .collectLeft)
    (hcount : (D.partitioning l).count = (D.partitioning r).count)
    (hkept : seen = true → D.HashKept r j.joinType (.hashJoin l r j)) :
    Keeps seen (D.partitioning (.hashJoin l r j))
      ((D.partitioning r).image (D.asymmetricImage j.toJoinColumns)) := by
  have hout : (D.partitioning (.hashJoin l r j)).count = (D.partitioning r).count :=
    count_output hmode hcount
  refine ⟨hout.symm, fun hseen => ?_⟩
  rcases hkept hseen with hone | hnone | hpasses
  · exact .inl (hout.trans hone)
  · right
    intro k hk
    rw [hnone] at hk
    cases hk
  · exact .inr fun k hk => hash_collected hmode hpasses hk

/-- A swapped join keeps what is seen of the join. -/
theorem keeps_swapped (hlaw : D.Lawful) {l r : DistributedPlan κ} {j j' : HashJoinExec} {seen : Bool}
    (hj' : D.swapped j .collectLeft = .ok j') (hmode : j.partitionMode ≠ .collectLeft)
    (haccepts : (D.joinOperator j).Accepts D.meets [D.partitioning l, D.partitioning r])
    (hcount : (D.partitioning l).count = (D.partitioning r).count)
    (hkept : seen = true → D.HashKept l (swapJoinType j.joinType) (.hashJoin l r j)) :
    Keeps seen (D.partitioning (.hashJoin l r j))
      (((D.partitioning l).image (D.asymmetricImage j'.toJoinColumns)).image
        ((D.reorder j).getD some)) := by
  have hout : (D.partitioning (.hashJoin l r j)).count = (D.partitioning r).count :=
    count_output hmode hcount
  refine ⟨hcount.trans hout.symm, fun hseen => ?_⟩
  by_cases hone : (D.partitioning r).count = 1
  · exact .inl (hout.trans hone)
  · rcases hkept hseen with hstreamed | hnone | hpasses
    · exact absurd (hcount.symm.trans hstreamed) hone
    · right
      intro k hk
      rw [hnone] at hk
      cases hk
    · exact .inr fun k hk =>
        (hash_swapped hlaw hj' hmode hpasses haccepts hcount hk).resolve_left hone

/-- **The step at a join**: over visited inputs that offer what they did, the rule returns a valid plan that
offers what the join did. -/
theorem collectJoin_keeps (hlaw : D.Lawful) {l r l' r' q : DistributedPlan κ} {j : HashJoinExec}
    {parentIsAggregate seen : Bool} (hl : D.visit l false = .ok l') (hr : D.visit r false = .ok r')
    (hvalid : D.Valid (.hashJoin l r j)) (hbalanced : D.Balanced (.hashJoin l r j))
    (hsafe : D.ConvertsSafely l r j parentIsAggregate seen)
    (hvalidl : D.Valid l')
    (hkeepsl : Keeps ((D.joinOperator j).sees seen 0) (D.partitioning l) (D.partitioning l'))
    (hvalidr : D.Valid r')
    (hkeepsr : Keeps ((D.joinOperator j).sees seen 1) (D.partitioning r) (D.partitioning r'))
    (h : D.collectJoin l' r' j parentIsAggregate = .ok q) :
    D.Valid q ∧ Keeps seen (D.partitioning (.hashJoin l r j)) (D.partitioning q) := by
  obtain ⟨hl₀, hr₀, haccepts⟩ := hvalid
  have hkeeps : KeepsAll ((D.joinOperator j).sees seen) [D.partitioning l, D.partitioning r]
      [D.partitioning l', D.partitioning r'] := .cons hkeepsl (.cons hkeepsr (.nil _))
  have houtput : Keeps seen (D.partitioning (.hashJoin l r j)) (D.partitioning (.hashJoin l' r' j)) :=
    Operator.output_keeps hkeeps
  have hcase := D.collectJoin_cases h
  rw [D.conversion_visit hl hr] at hcase
  rw [ConvertsSafely] at hsafe
  rcases hcase with ⟨-, rfl⟩ | ⟨-, hmode, rfl⟩ | ⟨hconv, hmode, hsl, hsr, rfl⟩ | ⟨hconv, hmode, hsl, hsr, h⟩
  · exact ⟨⟨hvalidl, hvalidr, Operator.accepts_of_keeps hkeeps haccepts⟩, houtput⟩
  · rw [D.valid_ensure hmode, D.partitioning_ensure hmode]
    have hone : (D.partitioning l').count = 1 :=
      hkeepsl.count.trans ((D.accepts_collectLeft hmode _ _).mp haccepts)
    have hnew : D.partitioning (.hashJoin l' r' j) = _ := D.partitioning_collectLeft hmode
    rw [hnew] at houtput
    exact ⟨⟨hvalidl, hvalidr, by omega⟩, houtput⟩
  · obtain rfl := D.eq_of_asIcebergScan_visit hl hsl
    obtain rfl := D.eq_of_asIcebergScan_visit hr hsr
    rw [hconv] at hsafe
    rw [D.valid_ensure rfl, D.partitioning_ensure rfl]
    exact ⟨⟨hvalidl, hvalidr, hsafe.1⟩, D.keeps_collected hmode (hbalanced.2.2 hmode) hsafe.2⟩
  · obtain rfl := D.eq_of_asIcebergScan_visit hl hsl
    obtain rfl := D.eq_of_asIcebergScan_visit hr hsr
    rw [hconv] at hsafe
    obtain ⟨hsome, hone, hkept⟩ := hsafe
    obtain ⟨j', hj', hvalidq, hpartitioning⟩ := D.swapInputs_valid hlaw h
    rw [hvalidq, hpartitioning]
    exact ⟨⟨hvalidr, hvalidl, hsome, hone⟩,
      D.keeps_swapped hlaw hj' hmode haccepts (hbalanced.2.2 hmode) hkept⟩

mutual

/-- **The rule keeps a valid plan valid**, and its output offers what it did as far as it is seen. -/
theorem visit_keeps (hlaw : D.Lawful) : ∀ (p : DistributedPlan κ) {q : DistributedPlan κ}
    {parentIsAggregate seen : Bool}, D.Valid p → D.Balanced p → D.NoDefect p parentIsAggregate seen →
    D.visit p parentIsAggregate = .ok q →
    D.Valid q ∧ Keeps seen (D.partitioning p) (D.partitioning q)
  | .scan s, q, _, seen, _, _, _, h => by
      rw [visit] at h
      obtain rfl := Except.ok.inj h
      exact ⟨trivial, .refl seen _⟩
  | .hashJoin l r j, q, parentIsAggregate, seen, hvalid, hbalanced, hsafe, h => by
      obtain ⟨l', r', hl, hr, hjoin⟩ := D.visit_hashJoin h
      obtain ⟨hvalidl, hkeepsl⟩ := visit_keeps hlaw l hvalid.1 hbalanced.1 hsafe.1 hl
      obtain ⟨hvalidr, hkeepsr⟩ := visit_keeps hlaw r hvalid.2.1 hbalanced.2.1 hsafe.2.1 hr
      exact D.collectJoin_keeps hlaw hl hr hvalid hbalanced hsafe.2.2 hvalidl hkeepsl hvalidr hkeepsr hjoin
  | .operator op is, q, parentIsAggregate, seen, hvalid, hbalanced, hsafe, h => by
      obtain ⟨is', his, rfl⟩ := D.visit_operator h
      obtain ⟨hvalids, hkeeps⟩ := visitList_keeps hlaw is hvalid.1 hbalanced hsafe his
      exact ⟨⟨hvalids, Operator.accepts_of_keeps hkeeps hvalid.2⟩, Operator.output_keeps hkeeps⟩

/-- The same for every input of an operator. -/
theorem visitList_keeps (hlaw : D.Lawful) : ∀ (ps : List (DistributedPlan κ))
    {qs : List (DistributedPlan κ)} {parentIsAggregate : Bool} {seen : ℕ → Bool}, D.ValidList ps →
    D.BalancedList ps → D.NoDefectList ps parentIsAggregate seen →
    D.visitList ps parentIsAggregate = .ok qs →
    D.ValidList qs ∧ KeepsAll seen (D.partitionings ps) (D.partitionings qs)
  | [], qs, _, seen, _, _, _, h => by
      rw [visitList] at h
      obtain rfl := Except.ok.inj h
      exact ⟨trivial, .nil seen⟩
  | p :: ps, qs, _, seen, hvalid, hbalanced, hsafe, h => by
      obtain ⟨p', ps', hp, hps, rfl⟩ := D.visitList_cons h
      obtain ⟨hvalidp, hkeepsp⟩ := visit_keeps hlaw p hvalid.1 hbalanced.1 hsafe.1 hp
      obtain ⟨hvalids, hkeeps⟩ := visitList_keeps hlaw ps hvalid.2 hbalanced.2 hsafe.2 hps
      exact ⟨⟨hvalidp, hvalids⟩, .cons hkeepsp hkeeps⟩

end

/-! ### What is lost -/

/-- A plan that is a wrapped scan has no join. -/
theorem noDefect_of_asIcebergScan {p : DistributedPlan κ} (hsome : p.asIcebergScan.isSome = true)
    (parentIsAggregate seen : Bool) : D.NoDefect p parentIsAggregate seen := by
  induction p using DistributedPlan.peelSingleInput.induct generalizing parentIsAggregate seen with
  | case1 op i hpeeled ih =>
      refine ⟨ih ?_ _ _, trivial⟩
      rw [DistributedPlan.asIcebergScan, DistributedPlan.peelSingleInput, if_pos hpeeled] at hsome
      exact hsome
  | case2 op i hpeeled =>
      rw [DistributedPlan.asIcebergScan, DistributedPlan.peelSingleInput, if_neg hpeeled] at hsome
      cases hsome
  | case3 p hother =>
      cases p with
      | scan s => trivial
      | hashJoin l r j => cases hsome
      | operator op is =>
          match is with
          | [] => trivial
          | [i] => exact absurd rfl (hother op i)
          | _ :: _ :: _ => cases hsome

/-- A streamed side whose hash partitioning is not kept leaves an exposed output. -/
theorem exposed_of_not_hashKept {streamed join : DistributedPlan κ} {c : JoinColumns}
    (h : ¬ D.HashKept streamed c.joinType join) :
    Exposed ((D.partitioning streamed).image (D.asymmetricImage c)) := by
  rw [HashKept, not_or, not_or] at h
  obtain ⟨hcount, -, hpasses⟩ := h
  refine ⟨hcount, ?_⟩
  rw [asymmetricImage, if_neg hpasses]
  exact Option.bind_fun_none _

/-- The hash partitioning of the streamed side is seen from above only. -/
theorem sees_streamed {j : HashJoinExec} (hmode : j.partitionMode = .collectLeft) (seen : Bool) :
    (D.joinOperator j).sees seen 1 = seen := by
  show ((D.joinRequired j 1).isHash || ((D.joinOperator j).passesOn 1 && seen)) = seen
  simp only [joinRequired, Operator.passesOn, joinOperator, hmode]
  exact Bool.true_and seen

/-- **The step at a join**: where the rule returns a valid plan, all conversions were harmless, or the output
is exposed to somebody who sees it. -/
theorem collectJoin_lost (hlaw : D.Lawful) {l r l' r' q : DistributedPlan κ} {j : HashJoinExec}
    {parentIsAggregate seen : Bool} (hl : D.visit l false = .ok l') (hr : D.visit r false = .ok r')
    (hlostl : ∀ seen, D.Valid l' → D.NoDefect l false seen ∨ (seen = true ∧ Exposed (D.partitioning l')))
    (hlostr : ∀ seen, D.Valid r' → D.NoDefect r false seen ∨ (seen = true ∧ Exposed (D.partitioning r')))
    (h : D.collectJoin l' r' j parentIsAggregate = .ok q) (hvalid : D.Valid q) :
    D.NoDefect (.hashJoin l r j) parentIsAggregate seen ∨ (seen = true ∧ Exposed (D.partitioning q)) := by
  have hcase := D.collectJoin_cases h
  rw [D.conversion_visit hl hr] at hcase
  show (_ ∧ _ ∧ D.ConvertsSafely l r j parentIsAggregate seen) ∨ _
  rw [ConvertsSafely]
  rcases hcase with ⟨hconv, rfl⟩ | ⟨hconv, hmode, rfl⟩ | ⟨hconv, hmode, hsl, hsr, rfl⟩ | ⟨hconv, hmode, hsl, hsr, h⟩
  · obtain ⟨hvalidl, hvalidr, haccepts⟩ := hvalid
    rw [hconv]
    rcases hlostl ((D.joinOperator j).sees seen 0) hvalidl with hsafel | ⟨hsees, hexposed⟩
    · rcases hlostr ((D.joinOperator j).sees seen 1) hvalidr with hsafer | ⟨hsees, hexposed⟩
      · exact .inl ⟨hsafel, hsafer, trivial⟩
      · exact .inr (Operator.exposed_of_sees (i := 1) rfl hexposed hsees haccepts)
    · exact .inr (Operator.exposed_of_sees (i := 0) rfl hexposed hsees haccepts)
  · rw [D.valid_ensure hmode] at hvalid
    rw [hconv, D.partitioning_ensure hmode, D.sees_collectLeft hmode, D.sees_streamed hmode]
    rcases hlostl false hvalid.1 with hsafel | ⟨hsees, -⟩
    · rcases hlostr seen hvalid.2.1 with hsafer | ⟨hsees, hexposed⟩
      · exact .inl ⟨hsafel, hsafer, trivial⟩
      · exact .inr ⟨hsees, hexposed.image _⟩
    · cases hsees
  · obtain rfl := D.eq_of_asIcebergScan_visit hl hsl
    obtain rfl := D.eq_of_asIcebergScan_visit hr hsr
    rw [D.valid_ensure rfl] at hvalid
    rw [hconv, D.partitioning_ensure rfl]
    by_cases hkept : seen = true → D.HashKept r' j.joinType (.hashJoin l' r' j)
    · exact .inl ⟨D.noDefect_of_asIcebergScan hsl _ _, D.noDefect_of_asIcebergScan hsr _ _,
        hvalid.2.2, hkept⟩
    · obtain ⟨hseen, hlost⟩ := Classical.not_imp.mp hkept
      exact .inr ⟨hseen, D.exposed_of_not_hashKept hlost⟩
  · obtain rfl := D.eq_of_asIcebergScan_visit hl hsl
    obtain rfl := D.eq_of_asIcebergScan_visit hr hsr
    obtain ⟨j', hj', hvalidq, hpartitioning⟩ := D.swapInputs_valid hlaw h
    obtain ⟨-, -, hsome, hone⟩ := hvalidq.mp hvalid
    rw [hconv, hpartitioning]
    by_cases hkept : seen = true → D.HashKept l' (swapJoinType j.joinType) (.hashJoin l' r' j)
    · exact .inl ⟨D.noDefect_of_asIcebergScan hsl _ _, D.noDefect_of_asIcebergScan hsr _ _,
        hsome, hone, hkept⟩
    · obtain ⟨hseen, hlost⟩ := Classical.not_imp.mp hkept
      rw [← hlaw.swapped_joinType hj'] at hlost
      exact .inr ⟨hseen, (D.exposed_of_not_hashKept hlost).image _⟩

mutual

/-- **A valid plan comes from harmless conversions**, unless its output is exposed to somebody who sees it. -/
theorem visit_lost (hlaw : D.Lawful) : ∀ (p : DistributedPlan κ) {q : DistributedPlan κ}
    {parentIsAggregate : Bool} (seen : Bool), D.visit p parentIsAggregate = .ok q → D.Valid q →
    D.NoDefect p parentIsAggregate seen ∨ (seen = true ∧ Exposed (D.partitioning q))
  | .scan s, q, _, seen, h, hvalid => .inl trivial
  | .hashJoin l r j, q, parentIsAggregate, seen, h, hvalid => by
      obtain ⟨l', r', hl, hr, hjoin⟩ := D.visit_hashJoin h
      exact D.collectJoin_lost hlaw hl hr (fun seen => visit_lost hlaw l seen hl)
        (fun seen => visit_lost hlaw r seen hr) hjoin hvalid
  | .operator op is, q, parentIsAggregate, seen, h, hvalid => by
      obtain ⟨is', his, rfl⟩ := D.visit_operator h
      rcases visitList_lost hlaw is (op.sees seen) his hvalid.1 with hsafe | ⟨i, p, hp, hsees, hexposed⟩
      · exact .inl hsafe
      · exact .inr (Operator.exposed_of_sees hp hexposed hsees hvalid.2)

/-- The same for the inputs of an operator: one of them is exposed. -/
theorem visitList_lost (hlaw : D.Lawful) : ∀ (ps : List (DistributedPlan κ))
    {qs : List (DistributedPlan κ)} {parentIsAggregate : Bool} (seen : ℕ → Bool),
    D.visitList ps parentIsAggregate = .ok qs → D.ValidList qs →
    D.NoDefectList ps parentIsAggregate seen ∨
      ∃ i p, (D.partitionings qs)[i]? = some p ∧ seen i = true ∧ Exposed p
  | [], qs, _, seen, h, hvalid => .inl trivial
  | p :: ps, qs, _, seen, h, hvalid => by
      obtain ⟨p', ps', hp, hps, rfl⟩ := D.visitList_cons h
      rcases visit_lost hlaw p (seen 0) hp hvalid.1 with hsafe | ⟨hseen, hexposed⟩
      · rcases visitList_lost hlaw ps (fun i => seen (i + 1)) hps hvalid.2 with
          hsafes | ⟨i, x, hx, hseen, hexposed⟩
        · exact .inl ⟨hsafe, hsafes⟩
        · exact .inr ⟨i + 1, x, hx, hseen, hexposed⟩
      · exact .inr ⟨0, _, rfl, hseen, hexposed⟩

end

/-- **The rule keeps a valid plan valid exactly when no conversion does harm**: every converted join has its
build side in a single partition, and whoever relies on its hash partitioning still finds it.  That this is
enough needs that the inputs of each join have equally many partitions, as its execution demands. -/
theorem visit_valid (hlaw : D.Lawful) {p q : DistributedPlan κ} (hvalid : D.Valid p)
    (h : D.visit p false = .ok q) :
    (D.Valid q → D.NoDefect p false false) ∧
      (D.Balanced p → (D.Valid q ↔ D.NoDefect p false false)) := by
  have hnecessary : D.Valid q → D.NoDefect p false false := by
    intro hq
    rcases D.visit_lost hlaw p false h hq with hsafe | ⟨hseen, -⟩
    · exact hsafe
    · cases hseen
  refine ⟨hnecessary, fun hbalanced => ⟨hnecessary, fun hsafe => ?_⟩⟩
  exact (D.visit_keeps hlaw p hvalid hbalanced hsafe h).1

end DataFusion

/-! ### Three joins -/

/-- DataFusion on plans where all rows are hashed by the one key that the join equates. -/
def keyDataFusion : DataFusion Unit where
  meets := fun _ _ => True
  keyOf := fun _ => ()
  fromLeft := fun _ => some
  fromRight := fun _ => some
  supportsSwap := fun _ => true
  swapped := fun j mode =>
    .ok { j with
      on := j.on.map Prod.swap
      joinType := swapJoinType j.joinType
      widths := j.widths.swap
      partitionMode := mode
      dynamicFilter := none }
  reorder := fun j => if j.projection.isSome || decide (sides j.joinType ≠ .both) then none else some some

theorem lawful_keyDataFusion : keyDataFusion.Lawful where
  swapped_joinType h := by rw [← Except.ok.inj h]
  swapped_mode h := by rw [← Except.ok.inj h]
  restores := by
    intro j j' mode h k
    show (some k).bind ((if _ then none else some some).getD some) = some k
    split <;> rfl
  equates _ _ _ _ := rfl

/-- A scan hashed into four partitions. -/
def hashed (s : IcebergTableScan) : DistributedPlan Unit :=
  .operator
    { required := fun _ => .unspecified
      output := .own (fun _ => 4) (some ())
      kind := .repartition
      rebuildError := fun _ => none }
    [.scan s]

/-- The join of two scans, before the rule. -/
def hashedJoin (left right : IcebergTableScan) (jt : JoinType) : DistributedPlan Unit :=
  .hashJoin (hashed left) (hashed right)
    { on := (keyJoin jt).on
      joinType := jt
      projection := none
      widths := (1, 1)
      filter := none
      partitionMode := .partitioned
      nullEquality := .nullEqualsNothing
      dynamicFilter := none }

/-- A window partitioned by the key of the join below it. -/
def windowed (p : DistributedPlan Unit) : DistributedPlan Unit :=
  .operator
    { required := fun _ => .hash ()
      output := .ofInput 0 some
      kind := .other
      rebuildError := fun _ => none }
    [p]

theorem valid_hashedJoin (left right : IcebergTableScan) (jt : JoinType) :
    keyDataFusion.Valid (hashedJoin left right jt) ∧
      keyDataFusion.Balanced (hashedJoin left right jt) := by
  have hhashed : ∀ s, keyDataFusion.Valid (hashed s) := fun s => ⟨⟨trivial, trivial⟩, fun _ _ _ => trivial⟩
  refine ⟨⟨hhashed left, hhashed right, ?_⟩, ⟨trivial, trivial⟩, ⟨trivial, trivial⟩, fun _ => rfl⟩
  intro i p hp
  match i with
  | 0 =>
      obtain rfl := Option.some.inj hp
      exact .inr ⟨(), rfl, trivial⟩
  | 1 =>
      obtain rfl := Option.some.inj hp
      exact .inr ⟨(), rfl, trivial⟩
  | _ + 2 => trivial

theorem valid_windowed (left right : IcebergTableScan) {jt : JoinType} (h : jt ≠ .full) :
    keyDataFusion.Valid (windowed (hashedJoin left right jt)) := by
  refine ⟨⟨(valid_hashedJoin left right jt).1, trivial⟩, fun i p hp => ?_⟩
  cases i with
  | zero =>
      obtain rfl := Option.some.inj hp
      cases jt with
      | full => exact absurd rfl h
      | _ => exact .inr ⟨(), rfl, trivial⟩
  | succ i => cases hp

/-- The join that the rule makes. -/
def collectedJoin (left right : IcebergTableScan) (jt : JoinType) : DistributedPlan Unit :=
  .hashJoin (.operator coalescePartitionsExec [hashed left]) (hashed right)
    { on := (keyJoin jt).on
      joinType := jt
      projection := none
      widths := (1, 1)
      filter := none
      partitionMode := .collectLeft
      nullEquality := .nullEqualsNothing
      dynamicFilter := none }

theorem visit_windowed (jt : JoinType) :
    keyDataFusion.visit (windowed (hashedJoin dimScan factScan jt)) false =
      .ok (windowed (collectedJoin dimScan factScan jt)) := rfl

/-- An inner join is collected, and the window still finds its key. -/
theorem visit_valid_inner :
    keyDataFusion.visit (windowed (hashedJoin dimScan factScan .inner)) false =
        .ok (windowed (collectedJoin dimScan factScan .inner)) ∧
      keyDataFusion.Valid (windowed (collectedJoin dimScan factScan .inner)) := by
  refine ⟨visit_windowed .inner, ?_⟩
  have hvalid : keyDataFusion.Valid (windowed (hashedJoin dimScan factScan .inner)) :=
    valid_windowed dimScan factScan (by decide)
  have hbalanced : keyDataFusion.Balanced (windowed (hashedJoin dimScan factScan .inner)) :=
    ⟨(valid_hashedJoin dimScan factScan .inner).2, trivial⟩
  have hiff := (keyDataFusion.visit_valid lawful_keyDataFusion hvalid (visit_windowed .inner)).2 hbalanced
  refine hiff.mpr ⟨⟨⟨trivial, trivial⟩, ⟨trivial, trivial⟩, ?_⟩, trivial⟩
  exact ⟨by decide, fun _ => .inr (.inr rfl)⟩

/-- The rule breaks a valid plan in two ways: a swapped join under a projection collects four partitions, and
a left join under a window loses the key that the window needs. -/
theorem visit_invalid :
    keyDataFusion.Lawful ∧
    (∃ q, keyDataFusion.Valid (hashedJoin factScan dimScan .inner) ∧
      keyDataFusion.Balanced (hashedJoin factScan dimScan .inner) ∧
      keyDataFusion.visit (hashedJoin factScan dimScan .inner) false = .ok q ∧ ¬ keyDataFusion.Valid q) ∧
    (∃ q, keyDataFusion.Valid (windowed (hashedJoin dimScan factScan .left)) ∧
      keyDataFusion.Balanced (windowed (hashedJoin dimScan factScan .left)) ∧
      keyDataFusion.visit (windowed (hashedJoin dimScan factScan .left)) false = .ok q ∧
      ¬ keyDataFusion.Valid q) := by
  refine ⟨lawful_keyDataFusion, ?_, ?_⟩
  · refine ⟨_, (valid_hashedJoin _ _ _).1, (valid_hashedJoin _ _ _).2, rfl, fun hvalid => ?_⟩
    have hsingle : 4 = 1 := hvalid.1.1.2.2 0 _ rfl
    omega
  · refine ⟨_, valid_windowed _ _ (by decide), ⟨(valid_hashedJoin _ _ _).2, trivial⟩,
      visit_windowed .left, fun hvalid => ?_⟩
    rcases hvalid.2 0 _ rfl with hone | ⟨k, hk, -⟩
    · cases hone
    · cases hk

end IcebergDb.Plan
