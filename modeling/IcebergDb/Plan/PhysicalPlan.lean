import IcebergDb.Foundation.Relational
import IcebergDb.Scan.TableScan

/-!
# Physical plans

The plans that the optimizer rules rewrite, and what they return.

* `ExecutionPlan` — one constructor per operator that a rule tells apart, and `other` for all the rest;
* `Engine` — the meaning of what DataFusion supplies: functions, aggregate functions, other operators,
  and the values that the dynamic filters have when the scans execute;
* `Engine.eval` — the rows of a plan, as lists: the order of a scan is the order of its table;
* `mapScans` — the recursion that both pushdown rules make: replace scans, keep everything else;
* `Target.reaches` — the columns of a filter, at given positions of a plan's output, are the columns of
  the same name of every scan that the rule narrows, along a path where dropping rows early is harmless;
* `agreeOn_mapScans` — **where the columns reach, narrowing the scans only changes rows that fail the
  filter**.
-/

namespace IcebergDb.Plan

open IcebergDb.Expr IcebergDb.Scan IcebergDb.Relational

/-- A row of an intermediate result: the cell at each position, NULL past the last column. -/
abbrev Tuple := ℕ → Option Value

/-- `NullEquality`. -/
inductive NullEquality where
  | nullEqualsNothing
  | nullEqualsNull
deriving DecidableEq

/-- `HashJoinExec` without its inputs.  The residual filter reads the columns of the left input and
then those of the right one.  A join with an embedded projection is a projection over a join. -/
structure HashJoin where
  on : List (PhysicalExpr × PhysicalExpr)
  filter : Option PhysicalExpr
  joinType : JoinType
  nullEquality : NullEquality
  dynamicFilter : Option ArcExpr

/-- An aggregate function with its arguments. -/
structure AggregateExpr where
  function : String
  args : List PhysicalExpr

/-- The operators that return the rows of their input as they are. -/
inductive Wrapper where
  | repartition
  | coalescePartitions
  | cooperative
  | coalesceBatches
deriving DecidableEq

/-- `ExecutionPlan`.  Projected and grouping expressions carry the name of their output column. -/
inductive ExecutionPlan where
  | scan (scan : IcebergTableScan)
  | hashJoin (left right : ExecutionPlan) (join : HashJoin)
  | projection (input : ExecutionPlan) (exprs : List (PhysicalExpr × String))
  | filter (input : ExecutionPlan) (predicate : PhysicalExpr)
  | limit (input : ExecutionPlan) (skip : ℕ) (fetch : Option ℕ)
  | aggregate (input : ExecutionPlan) (groupBy : List (PhysicalExpr × String))
      (aggregates : List AggregateExpr)
  | wrapper (kind : Wrapper) (input : ExecutionPlan)
  | union (inputs : List ExecutionPlan)
  | other (name : String) (width : ℕ) (inputs : List ExecutionPlan)

/-! ### Evaluation -/

/-- Which inputs' columns a join returns. -/
inductive Sides where
  | both
  | leftOnly
  | rightOnly
deriving DecidableEq

/-- The columns of the output, by join type. -/
def sides : JoinType → Sides
  | .inner | .left | .right | .full => .both
  | .leftSemi | .leftAnti | .leftMark => .leftOnly
  | .rightSemi | .rightAnti | .rightMark => .rightOnly

/-- The join fills the columns of a side with NULLs. -/
def extendsWithNulls : JoinType → Bool
  | .left | .right | .full => true
  | _ => false

/-- The number of columns of a join. -/
def joinWidth (jt : JoinType) (left right : ℕ) : ℕ :=
  match jt with
  | .inner | .left | .right | .full => left + right
  | .leftSemi | .leftAnti => left
  | .leftMark => left + 1
  | .rightSemi | .rightAnti => right
  | .rightMark => right + 1

mutual

/-- The number of columns of a plan. -/
def ExecutionPlan.width : ExecutionPlan → ℕ
  | .scan s => s.outputSchema.length
  | .hashJoin l r j => joinWidth j.joinType l.width r.width
  | .projection _ exprs => exprs.length
  | .filter i _ | .limit i _ _ | .wrapper _ i => i.width
  | .aggregate _ groupBy aggregates => groupBy.length + aggregates.length
  | .union is => widthOfFirst is
  | .other _ w _ => w

/-- The inputs of a union have the same columns. -/
def widthOfFirst : List ExecutionPlan → ℕ
  | [] => 0
  | p :: _ => p.width

end

/-- The cells that an expression over a tuple reads. -/
def cells (t : Tuple) (c : Column) : Option Value := t c.index

/-- Two tuples side by side, the first of the given width. -/
def append (w : ℕ) (a b : Tuple) : Tuple := fun i => if i < w then a i else b (i - w)

/-- The row of NULLs. -/
def nulls : Tuple := fun _ => none

/-- The mark column, if there is one. -/
def markCell (mark : Option Bool) : Tuple := fun i => if i = 0 then ofBool mark else none

/-- A left row without a partner in the output. -/
def leftAlone (jt : JoinType) (w : ℕ) (a : Tuple) (mark : Option Bool) : Tuple :=
  match sides jt with
  | .both => append w a nulls
  | _ => append w a (markCell mark)

/-- A right row without a partner in the output. -/
def rightAlone (jt : JoinType) (w w' : ℕ) (b : Tuple) (mark : Option Bool) : Tuple :=
  match sides jt with
  | .both => append w nulls b
  | _ => append w' b (markCell mark)

/-- Equality of join keys. -/
def keysEqual : NullEquality → Option Value → Option Value → Bool
  | _, some a, some b => decide (a = b)
  | .nullEqualsNull, none, none => true
  | _, _, _ => false

/-- The meaning of everything a plan leaves to DataFusion. -/
structure Engine where
  functions : Functions
  current : ℕ → PhysicalExpr
  aggregate : String → List (List (Option Value)) → Option Value
  operator : String → List (List Tuple) → List Tuple

namespace Engine

variable (E : Engine)

/-- The value of an expression on a tuple. -/
def value (e : PhysicalExpr) (t : Tuple) : Option Value := e.evaluate E.functions (cells t)

/-- A filter keeps a tuple. -/
def passes (e : PhysicalExpr) (t : Tuple) : Bool := decide (e.isTrue E.functions (cells t))

/-- A left and a right row match: all key pairs are equal and the residual filter is TRUE. -/
def matchRows (j : HashJoin) (w : ℕ) (a b : Tuple) : Bool :=
  (j.on.all fun pair => keysEqual j.nullEquality (E.value pair.1 a) (E.value pair.2 b)) &&
    (match j.filter with
    | some e => E.passes e (append w a b)
    | none => true)

/-- The output of a join. -/
def joinOutput (j : HashJoin) (w w' : ℕ) (as bs : List Tuple) : List Tuple :=
  joinRows j.joinType (E.matchRows j w) (append w) (leftAlone j.joinType w)
    (rightAlone j.joinType w w') as bs

/-- The tuple that a scan makes of a table row. -/
def scanTuple (s : IcebergTableScan) (row : Row) : Tuple :=
  fun i => s.outputSchema[i]?.bind fun c => (row c).map Subtype.val

/-- The rows of a scan: its limit is applied after its predicate. -/
def scanRows (s : IcebergTableScan) : List Tuple :=
  let rows := (s.tableRows.filter fun row => decide (s.keeps E.current row)).map (scanTuple s)
  match s.limit with
  | some n => rows.take n
  | none => rows

/-- The projected tuple. -/
def project (exprs : List (PhysicalExpr × String)) (t : Tuple) : Tuple :=
  fun i => exprs[i]?.bind fun e => E.value e.1 t

/-- The grouping key of a tuple. -/
def groupKey (groupBy : List (PhysicalExpr × String)) (t : Tuple) : List (Option Value) :=
  groupBy.map fun e => E.value e.1 t

/-- The output row of a group. -/
def groupTuple (aggregates : List AggregateExpr) (key : List (Option Value)) (rows : List Tuple) :
    Tuple := fun i =>
  if i < key.length then key[i]?.join
  else aggregates[i - key.length]?.bind fun a =>
    E.aggregate a.function (a.args.map fun e => rows.map (E.value e))

/-- The groups; without grouping expressions there is one, also of no rows. -/
def aggregateRows (groupBy : List (PhysicalExpr × String)) (aggregates : List AggregateExpr)
    (rows : List Tuple) : List Tuple :=
  if groupBy.isEmpty then [E.groupTuple aggregates [] rows]
  else groupRows (E.groupKey groupBy) (E.groupTuple aggregates) rows

/-- `LIMIT` and `OFFSET`. -/
def limitRows (skip : ℕ) (fetch : Option ℕ) (rows : List Tuple) : List Tuple :=
  match fetch with
  | some n => (rows.drop skip).take n
  | none => rows.drop skip

mutual

/-- The rows of a plan. -/
def eval : ExecutionPlan → List Tuple
  | .scan s => E.scanRows s
  | .hashJoin l r j => E.joinOutput j l.width r.width (eval l) (eval r)
  | .projection i exprs => (eval i).map (E.project exprs)
  | .filter i e => (eval i).filter (E.passes e)
  | .limit i skip fetch => limitRows skip fetch (eval i)
  | .aggregate i groupBy aggregates => E.aggregateRows groupBy aggregates (eval i)
  | .wrapper _ i => eval i
  | .union is => (evalList is).flatten
  | .other name _ is => E.operator name (evalList is)

/-- The rows of each of several plans. -/
def evalList : List ExecutionPlan → List (List Tuple)
  | [] => []
  | p :: ps => eval p :: evalList ps

end

end Engine

/-! ### Replacing scans -/

mutual

/-- Replace the scans of a plan.  A node with several inputs that is not a join is entered only if
`visits` says so for their number. -/
def mapScans (visits : ℕ → Bool) (g : IcebergTableScan → IcebergTableScan) :
    ExecutionPlan → ExecutionPlan
  | .scan s => .scan (g s)
  | .hashJoin l r j => .hashJoin (mapScans visits g l) (mapScans visits g r) j
  | .projection i exprs => .projection (mapScans visits g i) exprs
  | .filter i e => .filter (mapScans visits g i) e
  | .limit i skip fetch => .limit (mapScans visits g i) skip fetch
  | .aggregate i groupBy aggregates => .aggregate (mapScans visits g i) groupBy aggregates
  | .wrapper kind i => .wrapper kind (mapScans visits g i)
  | .union is => .union (if visits is.length then mapScansList visits g is else is)
  | .other name w is => .other name w (if visits is.length then mapScansList visits g is else is)

/-- Replace the scans of several plans. -/
def mapScansList (visits : ℕ → Bool) (g : IcebergTableScan → IcebergTableScan) :
    List ExecutionPlan → List ExecutionPlan
  | [] => []
  | p :: ps => mapScans visits g p :: mapScansList visits g ps

end

/-! ### Where a filter's columns come from -/

/-- The position of the left input that an output position of a join shows. -/
def leftPosition (jt : JoinType) (w p : ℕ) : Option ℕ :=
  match sides jt with
  | .both | .leftOnly => if p < w then some p else none
  | .rightOnly => none

/-- The position of the right input that an output position of a join shows. -/
def rightPosition (jt : JoinType) (w w' p : ℕ) : Option ℕ :=
  match sides jt with
  | .both => if p < w then none else some (p - w)
  | .leftOnly => none
  | .rightOnly => if p < w' then some p else none

namespace HashJoin

/-- Two columns are equated by the join. -/
def Equates (j : HashJoin) (i i' : ℕ) : Prop :=
  ∃ n n', (PhysicalExpr.column ⟨n, i⟩, PhysicalExpr.column ⟨n', i'⟩) ∈ j.on

/-- Output position `p` has the value of position `i` of the left input: it shows it, or it shows a
position of the right input that the join equates with it. -/
def CarriesLeft (j : HashJoin) (w w' p i : ℕ) : Prop :=
  leftPosition j.joinType w p = some i ∨
    ∃ i', rightPosition j.joinType w w' p = some i' ∧ j.Equates i i'

/-- Output position `p` has the value of position `i'` of the right input. -/
def CarriesRight (j : HashJoin) (w w' p i' : ℕ) : Prop :=
  rightPosition j.joinType w w' p = some i' ∨
    ∃ i, leftPosition j.joinType w p = some i ∧ j.Equates i i'

end HashJoin

/-- What a rule pushes where: which nodes it enters, which scans it narrows, the columns of the filter
by name, and whether the filter rejects NULLs. -/
structure Target where
  visits : ℕ → Bool
  receives : IcebergTableScan → Bool
  columns : List String
  rejectsNulls : Prop

namespace Target

variable (T : Target)

mutual

/-- No scan of the plan is narrowed. -/
def untouched : ExecutionPlan → Bool
  | .scan s => !T.receives s
  | .hashJoin l r _ => untouched l && untouched r
  | .projection i _ | .filter i _ | .limit i _ _ | .aggregate i _ _ | .wrapper _ i => untouched i
  | .union is | .other _ _ is => !T.visits is.length || untouchedList is

/-- No scan of the plans is narrowed. -/
def untouchedList : List ExecutionPlan → Bool
  | [] => true
  | p :: ps => untouched p && untouchedList ps

end

/-- The filter's columns, at the positions `pos` of a projection or a grouping, are plain columns of
the input, at the positions `pos'`. -/
def PassedOn (exprs : List (PhysicalExpr × String)) (pos pos' : String → ℕ) : Prop :=
  ∀ c ∈ T.columns, ∃ n name, exprs[pos c]? = some (.column ⟨n, pos' c⟩, name)

mutual

/-- The columns of the filter, at the positions `pos` of the output, are the columns of the same name of
every narrowed scan below, and no operator on the way would notice that rows failing the filter are
missing. -/
def reaches : ExecutionPlan → (String → ℕ) → Prop
  | .scan s, pos => T.receives s = false ∨
      (s.limit = none ∧ ∀ c ∈ T.columns, s.outputSchema[pos c]? = some c)
  | .hashJoin l r j, pos => (T.untouched l && T.untouched r) = true ∨
      ((T.rejectsNulls ∨ extendsWithNulls j.joinType = false) ∧
        (T.untouched l = true ∨ ∃ posL, (∀ c ∈ T.columns,
          j.CarriesLeft l.width r.width (pos c) (posL c)) ∧ reaches l posL) ∧
        (T.untouched r = true ∨ ∃ posR, (∀ c ∈ T.columns,
          j.CarriesRight l.width r.width (pos c) (posR c)) ∧ reaches r posR))
  | .projection i exprs, pos => T.untouched i = true ∨
      ∃ pos', T.PassedOn exprs pos pos' ∧ reaches i pos'
  | .filter i _, pos | .wrapper _ i, pos => reaches i pos
  | .limit i _ _, _ => T.untouched i = true
  | .aggregate i groupBy _, pos => T.untouched i = true ∨
      (groupBy ≠ [] ∧ ∃ pos', T.PassedOn groupBy pos pos' ∧ reaches i pos')
  | .union is, pos => T.visits is.length = false ∨ reachesAll is pos
  | .other _ _ is, _ => (!T.visits is.length || T.untouchedList is) = true

/-- The columns reach in every input. -/
def reachesAll : List ExecutionPlan → (String → ℕ) → Prop
  | [], _ => True
  | p :: ps, pos => reaches p pos ∧ reachesAll ps pos

end

end Target

/-! ### What replacing scans leaves alone -/

section

variable {T : Target} {g : IcebergTableScan → IcebergTableScan}

mutual

/-- An untouched plan is left as it is. -/
theorem mapScans_of_untouched (hg : ∀ s, T.receives s = false → g s = s) :
    ∀ p : ExecutionPlan, T.untouched p = true → mapScans T.visits g p = p
  | .scan s, h => by
      have hs : T.receives s = false := by simpa [Target.untouched] using h
      rw [mapScans, hg s hs]
  | .hashJoin l r j, h => by
      rw [Target.untouched, Bool.and_eq_true] at h
      rw [mapScans, mapScans_of_untouched hg l h.1, mapScans_of_untouched hg r h.2]
  | .projection i _, h => by rw [mapScans, mapScans_of_untouched hg i h]
  | .filter i _, h => by rw [mapScans, mapScans_of_untouched hg i h]
  | .limit i _ _, h => by rw [mapScans, mapScans_of_untouched hg i h]
  | .aggregate i _ _, h => by rw [mapScans, mapScans_of_untouched hg i h]
  | .wrapper _ i, h => by rw [mapScans, mapScans_of_untouched hg i h]
  | .union is, h => by rw [mapScans, mapScansList_of_untouched hg is h]
  | .other _ _ is, h => by rw [mapScans, mapScansList_of_untouched hg is h]

theorem mapScansList_of_untouched (hg : ∀ s, T.receives s = false → g s = s) :
    ∀ ps : List ExecutionPlan, (!T.visits ps.length || T.untouchedList ps) = true →
      (if T.visits ps.length then mapScansList T.visits g ps else ps) = ps
  | ps, h => by
      split
      · rename_i hv
        rw [hv, Bool.not_true, Bool.false_or] at h
        exact mapScansList_eq_self hg ps h
      · rfl

theorem mapScansList_eq_self (hg : ∀ s, T.receives s = false → g s = s) :
    ∀ ps : List ExecutionPlan, T.untouchedList ps = true → mapScansList T.visits g ps = ps
  | [], _ => rfl
  | p :: ps, h => by
      rw [Target.untouchedList, Bool.and_eq_true] at h
      rw [mapScansList, mapScans_of_untouched hg p h.1, mapScansList_eq_self hg ps h.2]

end

mutual

/-- Replacing scans keeps the number of columns. -/
theorem width_mapScans (visits : ℕ → Bool) (hg : ∀ s, (g s).outputSchema = s.outputSchema) :
    ∀ p : ExecutionPlan, (mapScans visits g p).width = p.width
  | .scan s => by rw [mapScans, ExecutionPlan.width, ExecutionPlan.width, hg]
  | .hashJoin l r j => by
      rw [mapScans, ExecutionPlan.width, ExecutionPlan.width, width_mapScans visits hg l,
        width_mapScans visits hg r]
  | .projection _ _ => rfl
  | .filter i _ => width_mapScans visits hg i
  | .limit i _ _ => width_mapScans visits hg i
  | .aggregate _ _ _ => rfl
  | .wrapper _ i => width_mapScans visits hg i
  | .union is => by
      rw [mapScans, ExecutionPlan.width, ExecutionPlan.width]
      split
      · exact widthOfFirst_mapScansList visits hg is
      · rfl
  | .other _ _ _ => rfl

theorem widthOfFirst_mapScansList (visits : ℕ → Bool) (hg : ∀ s, (g s).outputSchema = s.outputSchema) :
    ∀ ps : List ExecutionPlan, widthOfFirst (mapScansList visits g ps) = widthOfFirst ps
  | [] => rfl
  | p :: _ => width_mapScans visits hg p

end

end

theorem length_mapScansList (visits : ℕ → Bool) (g : IcebergTableScan → IcebergTableScan) :
    ∀ ps : List ExecutionPlan, (mapScansList visits g ps).length = ps.length
  | [] => rfl
  | _ :: ps => congrArg (· + 1) (length_mapScansList visits g ps)

/-! ### The shape of a plan -/

/-- A scan without its filters. -/
def bare (s : IcebergTableScan) : IcebergTableScan := { s with predicates := none, physicalFilters := [] }

/-- A plan without the filters of its scans: what no pushdown changes. -/
def shape (p : ExecutionPlan) : ExecutionPlan := mapScans (fun _ => true) bare p

mutual

/-- Changing filters keeps the shape. -/
theorem shape_mapScans (visits : ℕ → Bool) {g : IcebergTableScan → IcebergTableScan}
    (hg : ∀ s, bare (g s) = bare s) : ∀ p : ExecutionPlan, shape (mapScans visits g p) = shape p
  | .scan s => by simp only [shape, mapScans, hg]
  | .hashJoin l r j => by
      have hl := shape_mapScans visits hg l
      have hr := shape_mapScans visits hg r
      simp only [shape, mapScans] at hl hr ⊢
      rw [hl, hr]
  | .projection i _ => by
      have hi := shape_mapScans visits hg i
      simp only [shape, mapScans] at hi ⊢
      rw [hi]
  | .filter i _ => by
      have hi := shape_mapScans visits hg i
      simp only [shape, mapScans] at hi ⊢
      rw [hi]
  | .limit i _ _ => by
      have hi := shape_mapScans visits hg i
      simp only [shape, mapScans] at hi ⊢
      rw [hi]
  | .aggregate i _ _ => by
      have hi := shape_mapScans visits hg i
      simp only [shape, mapScans] at hi ⊢
      rw [hi]
  | .wrapper _ i => by
      have hi := shape_mapScans visits hg i
      simp only [shape, mapScans] at hi ⊢
      rw [hi]
  | .union is => by
      simp only [shape, mapScans, if_true]
      rw [shape_mapScansList visits hg is]
  | .other _ _ is => by
      simp only [shape, mapScans, if_true]
      rw [shape_mapScansList visits hg is]

theorem shape_mapScansList (visits : ℕ → Bool) {g : IcebergTableScan → IcebergTableScan}
    (hg : ∀ s, bare (g s) = bare s) : ∀ ps : List ExecutionPlan,
      mapScansList (fun _ => true) bare (if visits ps.length then mapScansList visits g ps else ps) =
        mapScansList (fun _ => true) bare ps
  | ps => by
      split
      · exact mapScansList_bare visits hg ps
      · rfl

theorem mapScansList_bare (visits : ℕ → Bool) {g : IcebergTableScan → IcebergTableScan}
    (hg : ∀ s, bare (g s) = bare s) : ∀ ps : List ExecutionPlan,
      mapScansList (fun _ => true) bare (mapScansList visits g ps) = mapScansList (fun _ => true) bare ps
  | [] => rfl
  | p :: ps => by
      have hp := shape_mapScans visits hg p
      have hps := mapScansList_bare visits hg ps
      simp only [shape, mapScansList] at hp hps ⊢
      rw [hp, hps]

end

/-- What a target looks at is part of the shape. -/
def Target.SeesShape (T : Target) : Prop := ∀ s, T.receives (bare s) = T.receives s

section

variable {T : Target}

theorem width_shape (p : ExecutionPlan) : (shape p).width = p.width := by
  have hbare : ∀ s, (bare s).outputSchema = s.outputSchema := fun _ => rfl
  exact width_mapScans _ hbare p

mutual

theorem untouched_shape (hT : T.SeesShape) :
    ∀ p : ExecutionPlan, T.untouched (shape p) = T.untouched p
  | .scan s => by simp only [shape, mapScans, Target.untouched, hT s]
  | .hashJoin l r j => by
      show (T.untouched (shape l) && T.untouched (shape r)) = _
      rw [untouched_shape hT l, untouched_shape hT r, Target.untouched]
  | .projection i _ => untouched_shape hT i
  | .filter i _ => untouched_shape hT i
  | .limit i _ _ => untouched_shape hT i
  | .aggregate i _ _ => untouched_shape hT i
  | .wrapper _ i => untouched_shape hT i
  | .union is => by
      simp only [shape, mapScans, Target.untouched, if_true, length_mapScansList,
        untouchedList_shape hT is]
  | .other _ _ is => by
      simp only [shape, mapScans, Target.untouched, if_true, length_mapScansList,
        untouchedList_shape hT is]

theorem untouchedList_shape (hT : T.SeesShape) : ∀ ps : List ExecutionPlan,
    T.untouchedList (mapScansList (fun _ => true) bare ps) = T.untouchedList ps
  | [] => rfl
  | p :: ps => by
      show (T.untouched (shape p) && T.untouchedList (mapScansList (fun _ => true) bare ps)) = _
      rw [untouched_shape hT p, untouchedList_shape hT ps, Target.untouchedList]

end

mutual

/-- Reaching is a matter of shape. -/
theorem reaches_shape (hT : T.SeesShape) :
    ∀ (p : ExecutionPlan) (pos : String → ℕ), T.reaches (shape p) pos ↔ T.reaches p pos
  | .scan s, pos => by
      simp only [shape, mapScans, Target.reaches, hT s]
      rfl
  | .hashJoin l r j, pos => by
      have hl := reaches_shape hT l
      have hr := reaches_shape hT r
      show T.reaches (.hashJoin (shape l) (shape r) j) pos ↔ _
      simp only [Target.reaches, untouched_shape hT, width_shape, hl, hr]
  | .projection i exprs, pos => by
      have hi := reaches_shape hT i
      show T.reaches (.projection (shape i) exprs) pos ↔ _
      simp only [Target.reaches, untouched_shape hT, hi]
  | .filter i _, pos => reaches_shape hT i pos
  | .limit i skip fetch, pos => by
      show T.reaches (.limit (shape i) skip fetch) pos ↔ _
      simp only [Target.reaches, untouched_shape hT]
  | .aggregate i groupBy aggregates, pos => by
      have hi := reaches_shape hT i
      show T.reaches (.aggregate (shape i) groupBy aggregates) pos ↔ _
      simp only [Target.reaches, untouched_shape hT, hi]
  | .wrapper _ i, pos => reaches_shape hT i pos
  | .union is, pos => by
      have his := reachesAll_shape hT is pos
      simp only [shape, mapScans, Target.reaches, if_true, length_mapScansList, his]
  | .other _ _ is, pos => by
      simp only [shape, mapScans, Target.reaches, if_true, length_mapScansList,
        untouchedList_shape hT]

theorem reachesAll_shape (hT : T.SeesShape) : ∀ (ps : List ExecutionPlan) (pos : String → ℕ),
    T.reachesAll (mapScansList (fun _ => true) bare ps) pos ↔ T.reachesAll ps pos
  | [], _ => Iff.rfl
  | p :: ps, pos => and_congr (reaches_shape hT p pos) (reachesAll_shape hT ps pos)

end

/-- Plans of one shape are reached alike. -/
theorem reaches_of_shape (hT : T.SeesShape) {p p' : ExecutionPlan} (h : shape p' = shape p)
    {pos : String → ℕ} (hr : T.reaches p pos) : T.reaches p' pos := by
  rw [← reaches_shape hT, h, reaches_shape hT]
  exact hr

theorem untouched_of_shape (hT : T.SeesShape) {p p' : ExecutionPlan} (h : shape p' = shape p) :
    T.untouched p' = T.untouched p := by
  rw [← untouched_shape hT, h, untouched_shape hT]

end

/-! ### The rows of a join -/

theorem append_of_lt {w i : ℕ} (h : i < w) (a b : Tuple) : append w a b i = a i := if_pos h

theorem append_of_not_lt {w i : ℕ} (h : ¬ i < w) (a b : Tuple) : append w a b i = b (i - w) := if_neg h

theorem keysEqual_eq {n : NullEquality} {x y : Option Value} (h : keysEqual n x y = true) : x = y := by
  cases x with
  | none =>
      cases y with
      | none => rfl
      | some b => cases n <;> cases h
  | some a =>
      cases y with
      | none => cases n <;> cases h
      | some b => exact congrArg some (of_decide_eq_true h)

section

variable {E : Engine} {j : HashJoin} {w w' p i i' : ℕ} {a b : Tuple}

/-- Matching rows have equal values in equated columns. -/
theorem matchRows_equates (hm : E.matchRows j w a b = true) (h : j.Equates i i') : a i = b i' := by
  obtain ⟨n, n', hmem⟩ := h
  rw [Engine.matchRows, Bool.and_eq_true, List.all_eq_true] at hm
  exact keysEqual_eq (hm.1 _ hmem)

/-- A left position shows the left row, whatever stands beside it. -/
theorem leftPosition_lt {jt : JoinType} (h : leftPosition jt w p = some i) :
    p = i ∧ p < w ∧ sides jt ≠ .rightOnly := by
  unfold leftPosition at h
  split at h
  · split at h
    · rename_i hs hp
      refine ⟨Option.some.inj h, hp, ?_⟩
      rw [hs]
      decide
    · cases h
  · split at h
    · rename_i hs hp
      refine ⟨Option.some.inj h, hp, ?_⟩
      rw [hs]
      decide
    · cases h
  · cases h

theorem append_leftPosition {jt : JoinType} (h : leftPosition jt w p = some i) :
    append w a b p = a i := by
  obtain ⟨rfl, hp, -⟩ := leftPosition_lt h
  exact append_of_lt hp a b

theorem leftAlone_leftPosition {jt : JoinType} {mark : Option Bool}
    (h : leftPosition jt w p = some i) : leftAlone jt w a mark p = a i := by
  unfold leftAlone
  cases sides jt <;> exact append_leftPosition h

/-- Where both sides are shown, a right position shows the right row. -/
theorem append_rightPosition {jt : JoinType} (hs : sides jt = .both)
    (h : rightPosition jt w w' p = some i') : append w a b p = b i' := by
  simp only [rightPosition, hs] at h
  split at h
  · cases h
  · rename_i hp
    rw [append_of_not_lt hp, Option.some.inj h]

theorem rightAlone_rightPosition {jt : JoinType} {mark : Option Bool}
    (h : rightPosition jt w w' p = some i') : rightAlone jt w w' b mark p = b i' := by
  unfold rightAlone
  cases hs : sides jt with
  | both => exact append_rightPosition hs h
  | leftOnly =>
      simp only [rightPosition, hs] at h
      cases h
  | rightOnly =>
      simp only [rightPosition, hs] at h
      split at h
      · rename_i hp
        obtain rfl := Option.some.inj h
        exact append_of_lt hp _ _
      · cases h

/-- Alone in the output, a left row has NULLs on the right. -/
theorem leftAlone_rightPosition {jt : JoinType} {mark : Option Bool} (hs : sides jt ≠ .rightOnly)
    (h : rightPosition jt w w' p = some i') : sides jt = .both ∧ leftAlone jt w a mark p = none := by
  cases hs' : sides jt with
  | both =>
      refine ⟨rfl, ?_⟩
      simp only [leftAlone, hs']
      exact append_rightPosition hs' h
  | leftOnly =>
      simp only [rightPosition, hs'] at h
      cases h
  | rightOnly => exact absurd hs' hs

/-- Alone in the output, a right row has NULLs on the left. -/
theorem rightAlone_leftPosition {jt : JoinType} {mark : Option Bool} (hs : sides jt ≠ .leftOnly)
    (h : leftPosition jt w p = some i) : sides jt = .both ∧ rightAlone jt w w' b mark p = none := by
  cases hs' : sides jt with
  | both =>
      refine ⟨rfl, ?_⟩
      simp only [rightAlone, hs']
      exact append_leftPosition h
  | leftOnly => exact absurd hs' hs
  | rightOnly => exact absurd hs' (leftPosition_lt h).2.2

end

/-- Pairs are shown only where both sides are. -/
theorem sides_of_emitsPairs {jt : JoinType}
    (h : jt.leftContribution.emitsPairs = true ∨ jt.rightContribution.emitsPairs = true) :
    sides jt = .both := by
  revert h
  cases jt <;> decide

/-- A left row alone is never shown without left columns, and beside NULLs only by an outer join. -/
theorem sides_of_leftAlone {jt : JoinType} (h : jt.leftContribution.emitsAlone = true) :
    sides jt ≠ .rightOnly ∧ (sides jt = .both → extendsWithNulls jt = true) := by
  revert h
  cases jt <;> decide

theorem sides_of_rightAlone {jt : JoinType} (h : jt.rightContribution.emitsAlone = true) :
    sides jt ≠ .leftOnly ∧ (sides jt = .both → extendsWithNulls jt = true) := by
  revert h
  cases jt <;> decide

/-- If only rows that satisfy `P` and `Q` match, then only these matter, on a side that does not show
unmatched rows. -/
theorem matters_of_match {E : Engine} {j : HashJoin} {w w' : ℕ} {as bs : List Tuple}
    {p q P Q : Tuple → Bool}
    (hmatch : ∀ a ∈ as, ∀ b ∈ bs, E.matchRows j w a b = true → P a = true ∧ Q b = true)
    (hp : (∀ a, p a = true) ∨ (j.joinType.leftContribution.keepsUnmatched = false ∧ p = P))
    (hq : (∀ b, q b = true) ∨ (j.joinType.rightContribution.keepsUnmatched = false ∧ q = Q)) :
    Matters j.joinType (E.matchRows j w) (append w) (leftAlone j.joinType w)
      (rightAlone j.joinType w w') (fun _ => true) p q as bs := by
  have hpmatch : ∀ a ∈ as, ∀ b ∈ bs, E.matchRows j w a b = true → p a = true := by
    intro a ha b hb hm
    rcases hp with hp | ⟨-, rfl⟩
    · exact hp a
    · exact (hmatch a ha b hb hm).1
  have hqmatch : ∀ a ∈ as, ∀ b ∈ bs, E.matchRows j w a b = true → q b = true := by
    intro a ha b hb hm
    rcases hq with hq | ⟨-, rfl⟩
    · exact hq b
    · exact (hmatch a ha b hb hm).2
  constructor
  · intro _ a ha b hb hm _
    exact ⟨hpmatch a ha b hb hm, hqmatch a ha b hb hm⟩
  · intro _ a ha hu mark _
    refine ⟨?_, fun b hb hm => hqmatch a ha b hb hm⟩
    rcases hp with hp | ⟨hk, -⟩
    · exact hp a
    · rcases hu with hu | ⟨b, hb, hm⟩
      · rw [hk] at hu
        cases hu
      · exact hpmatch a ha b hb hm
  · intro _ b hb hu mark _
    refine ⟨?_, fun a ha hm => hpmatch a ha b hb hm⟩
    rcases hq with hq | ⟨hk, -⟩
    · exact hq b
    · rcases hu with hu | ⟨a, ha, hm⟩
      · rw [hk] at hu
        cases hu
      · exact hqmatch a ha b hb hm

/-! ### Narrowing the scans -/

/-- `g` narrows the scans that `T` names by a filter on the columns of `T`: it keeps what the rest of
the plan sees of a scan, returns no new row and loses none that satisfies the filter. -/
structure Narrows (E : Engine) (T : Target) (g : IcebergTableScan → IcebergTableScan)
    (Φ : (String → Option Value) → Bool) : Prop where
  unchanged : ∀ s, T.receives s = false → g s = s
  outputSchema : ∀ s, (g s).outputSchema = s.outputSchema
  limit : ∀ s, (g s).limit = s.limit
  tableRows : ∀ s, (g s).tableRows = s.tableRows
  fewer : ∀ s row, (g s).keeps E.current row → s.keeps E.current row
  enough : ∀ s row, T.receives s = true → s.keeps E.current row →
    Φ (fun c => (row c).map Subtype.val) = true → (g s).keeps E.current row
  congr : ∀ ρ ρ' : String → Option Value, (∀ c ∈ T.columns, ρ c = ρ' c) → Φ ρ = Φ ρ'
  nulls : T.rejectsNulls → ∀ ρ : String → Option Value, ∀ c ∈ T.columns, ρ c = none → Φ ρ = false

section

variable {E : Engine} {T : Target} {g : IcebergTableScan → IcebergTableScan}
  {Φ : (String → Option Value) → Bool}

/-- The filter at the positions `pos` of a tuple. -/
def filterAt (Φ : (String → Option Value) → Bool) (pos : String → ℕ) (t : Tuple) : Bool :=
  Φ fun c => t (pos c)

/-- A narrowed scan loses only rows that fail the filter. -/
theorem Narrows.agreeOn_scan (h : Narrows E T g Φ) {s : IcebergTableScan} {pos : String → ℕ}
    (hr : T.receives s = true) (hlimit : s.limit = none)
    (hpos : ∀ c ∈ T.columns, s.outputSchema[pos c]? = some c) :
    AgreeOn (filterAt Φ pos) (E.scanRows s) (E.scanRows (g s)) := by
  have htuple : Engine.scanTuple (g s) = Engine.scanTuple s := by
    funext row i
    rw [Engine.scanTuple, Engine.scanTuple, h.outputSchema]
  have hrows : AgreeOn (fun row : Row => Φ fun c => (row c).map Subtype.val)
      (s.tableRows.filter fun row => decide (s.keeps E.current row))
      (s.tableRows.filter fun row => decide ((g s).keeps E.current row)) := by
    show List.filter _ _ = List.filter _ _
    rw [List.filter_filter, List.filter_filter]
    apply List.filter_congr
    intro row _
    cases hΦ : Φ fun c => (row c).map Subtype.val with
    | false => rfl
    | true =>
        have hiff : s.keeps E.current row ↔ (g s).keeps E.current row :=
          ⟨fun hk => h.enough s row hr hk hΦ, h.fewer s row⟩
        rw [Bool.true_and, Bool.true_and, decide_eq_decide]
        exact hiff
  simp only [Engine.scanRows, h.limit, h.tableRows, hlimit, htuple]
  apply hrows.map
  intro row hφ
  refine Eq.trans (h.congr _ _ ?_) hφ
  intro c hc
  rw [Engine.scanTuple, hpos c hc, Option.bind_some]

/-- The filter on the projected tuple is the filter on the input tuple. -/
theorem Narrows.at_passedOn (h : Narrows E T g Φ) {exprs : List (PhysicalExpr × String)}
    {pos pos' : String → ℕ} (hpos : T.PassedOn exprs pos pos') {t out : Tuple}
    (hout : ∀ i, i < exprs.length → out i = exprs[i]?.bind fun e => E.value e.1 t) :
    filterAt Φ pos out = filterAt Φ pos' t := by
  apply h.congr
  intro c hc
  obtain ⟨n, name, he⟩ := hpos c hc
  have hlt : pos c < exprs.length := (List.getElem?_eq_some_iff.mp he).1
  rw [hout _ hlt, he]
  rfl

section

variable {j : HashJoin} {w w' : ℕ} {pos posL posR : String → ℕ} {a b : Tuple} {mark : Option Bool}

/-- On a matching pair, the filter on the output is the filter on the left row. -/
theorem Narrows.pair_left (h : Narrows E T g Φ) (hs : sides j.joinType = .both)
    (hL : ∀ c ∈ T.columns, j.CarriesLeft w w' (pos c) (posL c)) (hm : E.matchRows j w a b = true) :
    filterAt Φ pos (append w a b) = filterAt Φ posL a := by
  apply h.congr
  intro c hc
  rcases hL c hc with hpos | ⟨i', hpos, heq⟩
  · exact append_leftPosition hpos
  · rw [append_rightPosition hs hpos, matchRows_equates hm heq]

/-- On a matching pair, the filter on the output is the filter on the right row. -/
theorem Narrows.pair_right (h : Narrows E T g Φ) (hs : sides j.joinType = .both)
    (hR : ∀ c ∈ T.columns, j.CarriesRight w w' (pos c) (posR c)) (hm : E.matchRows j w a b = true) :
    filterAt Φ pos (append w a b) = filterAt Φ posR b := by
  apply h.congr
  intro c hc
  rcases hR c hc with hpos | ⟨i, hpos, heq⟩
  · exact append_rightPosition hs hpos
  · rw [append_leftPosition hpos, matchRows_equates hm heq]

/-- A left row alone that satisfies the filter does so by its own columns: the right ones are NULL. -/
theorem Narrows.leftAlone_shows (h : Narrows E T g Φ)
    (hn : T.rejectsNulls ∨ extendsWithNulls j.joinType = false)
    (hk : j.joinType.leftContribution.emitsAlone = true)
    (hφ : filterAt Φ pos (leftAlone j.joinType w a mark) = true) {c : String} (hc : c ∈ T.columns)
    {i' : ℕ} : rightPosition j.joinType w w' (pos c) ≠ some i' := by
  intro hpos
  obtain ⟨hside, hext⟩ := sides_of_leftAlone hk
  obtain ⟨hboth, hnull⟩ : sides j.joinType = .both ∧ leftAlone j.joinType w a mark (pos c) = none :=
    leftAlone_rightPosition hside hpos
  rcases hn with hn | hn
  · have hfalse := h.nulls hn (fun c => leftAlone j.joinType w a mark (pos c)) c hc hnull
    rw [filterAt, hfalse] at hφ
    cases hφ
  · rw [hext hboth] at hn
    cases hn

/-- A right row alone that satisfies the filter does so by its own columns. -/
theorem Narrows.rightAlone_shows (h : Narrows E T g Φ)
    (hn : T.rejectsNulls ∨ extendsWithNulls j.joinType = false)
    (hk : j.joinType.rightContribution.emitsAlone = true)
    (hφ : filterAt Φ pos (rightAlone j.joinType w w' b mark) = true) {c : String} (hc : c ∈ T.columns)
    {i : ℕ} : leftPosition j.joinType w (pos c) ≠ some i := by
  intro hpos
  obtain ⟨hside, hext⟩ := sides_of_rightAlone hk
  obtain ⟨hboth, hnull⟩ :
      sides j.joinType = .both ∧ rightAlone j.joinType w w' b mark (pos c) = none :=
    rightAlone_leftPosition hside hpos
  rcases hn with hn | hn
  · have hfalse := h.nulls hn (fun c => rightAlone j.joinType w w' b mark (pos c)) c hc hnull
    rw [filterAt, hfalse] at hφ
    cases hφ
  · rw [hext hboth] at hn
    cases hn

/-- What is asked of one side of a join: its rows are the same, or the filter's columns carry. -/
def SideCarried (T : Target) (Φ : (String → Option Value) → Bool) (Carries : ℕ → ℕ → Prop)
    (pos : String → ℕ) (p : Tuple → Bool) : Prop :=
  (∀ a, p a = true) ∨
    ∃ pos', (∀ c ∈ T.columns, Carries (pos c) (pos' c)) ∧ p = filterAt Φ pos'

/-- **Where the columns carry, only rows that satisfy the filter matter to a join.** -/
theorem Narrows.matters (h : Narrows E T g Φ)
    (hn : T.rejectsNulls ∨ extendsWithNulls j.joinType = false) {p q : Tuple → Bool}
    (hp : SideCarried T Φ (j.CarriesLeft w w') pos p)
    (hq : SideCarried T Φ (j.CarriesRight w w') pos q) (as bs : List Tuple) :
    Matters j.joinType (E.matchRows j w) (append w) (leftAlone j.joinType w)
      (rightAlone j.joinType w w') (filterAt Φ pos) p q as bs where
  pair hk a _ b _ hm hφ := by
    have hs := sides_of_emitsPairs hk
    constructor
    · rcases hp with hp | ⟨posL, hL, rfl⟩
      · exact hp a
      · rw [← h.pair_left hs hL hm, hφ]
    · rcases hq with hq | ⟨posR, hR, rfl⟩
      · exact hq b
      · rw [← h.pair_right hs hR hm, hφ]
  left hk a _ _ mark hφ := by
    constructor
    · rcases hp with hp | ⟨posL, hL, rfl⟩
      · exact hp a
      · refine Eq.trans (h.congr _ _ ?_) hφ
        intro c hc
        rcases hL c hc with hpos | ⟨i', hpos, -⟩
        · exact (leftAlone_leftPosition hpos).symm
        · exact absurd hpos (h.leftAlone_shows hn hk hφ hc)
    · intro b _ hm
      rcases hq with hq | ⟨posR, hR, rfl⟩
      · exact hq b
      · refine Eq.trans (h.congr _ _ ?_) hφ
        intro c hc
        rcases hR c hc with hpos | ⟨i, hpos, heq⟩
        · exact absurd hpos (h.leftAlone_shows hn hk hφ hc)
        · rw [leftAlone_leftPosition hpos, matchRows_equates hm heq]
  right hk b _ _ mark hφ := by
    constructor
    · rcases hq with hq | ⟨posR, hR, rfl⟩
      · exact hq b
      · refine Eq.trans (h.congr _ _ ?_) hφ
        intro c hc
        rcases hR c hc with hpos | ⟨i, hpos, -⟩
        · exact (rightAlone_rightPosition hpos).symm
        · exact absurd hpos (h.rightAlone_shows hn hk hφ hc)
    · intro a _ hm
      rcases hp with hp | ⟨posL, hL, rfl⟩
      · exact hp a
      · refine Eq.trans (h.congr _ _ ?_) hφ
        intro c hc
        rcases hL c hc with hpos | ⟨i', hpos, heq⟩
        · exact absurd hpos (h.rightAlone_shows hn hk hφ hc)
        · rw [rightAlone_rightPosition hpos, matchRows_equates hm heq]

end

/-- A projection agrees where its input does. -/
theorem Narrows.agreeOn_projection (h : Narrows E T g Φ) {exprs : List (PhysicalExpr × String)}
    {pos pos' : String → ℕ} (hpos : T.PassedOn exprs pos pos') {rows rows' : List Tuple}
    (hrows : AgreeOn (filterAt Φ pos') rows rows') :
    AgreeOn (filterAt Φ pos) (rows.map (E.project exprs)) (rows'.map (E.project exprs)) := by
  apply hrows.map
  intro t hφ
  rw [← hφ]
  exact (h.at_passedOn hpos fun i _ => rfl).symm

/-- A grouping agrees where its input does: rows that differ in the filter are in different groups. -/
theorem Narrows.agreeOn_aggregate (h : Narrows E T g Φ) {groupBy : List (PhysicalExpr × String)}
    (hgroup : groupBy ≠ []) (aggregates : List AggregateExpr) {pos pos' : String → ℕ}
    (hpos : T.PassedOn groupBy pos pos') {rows rows' : List Tuple}
    (hrows : AgreeOn (filterAt Φ pos') rows rows') :
    AgreeOn (filterAt Φ pos) (E.aggregateRows groupBy aggregates rows)
      (E.aggregateRows groupBy aggregates rows') := by
  -- the filter, on the key of a group
  let onKey : List (Option Value) → Bool := fun key => Φ fun c => key[pos c]?.join
  have hkey : onKey ∘ E.groupKey groupBy = filterAt Φ pos' := by
    funext t
    apply h.congr
    intro c hc
    obtain ⟨n, name, he⟩ := hpos c hc
    rw [Engine.groupKey, List.getElem?_map, he]
    rfl
  have hout : ∀ t rows, filterAt Φ pos (E.groupTuple aggregates (E.groupKey groupBy t) rows) =
      onKey (E.groupKey groupBy t) := by
    intro t rows
    apply h.congr
    intro c hc
    obtain ⟨n, name, he⟩ := hpos c hc
    have hlt : pos c < (E.groupKey groupBy t).length := by
      rw [Engine.groupKey, List.length_map]
      exact (List.getElem?_eq_some_iff.mp he).1
    rw [Engine.groupTuple, if_pos hlt]
  have hempty : groupBy.isEmpty = false := List.isEmpty_eq_false_iff.mpr hgroup
  simp only [Engine.aggregateRows, hempty]
  exact .grouped hout (hkey ▸ hrows)

theorem Narrows.agreeOn_untouched (h : Narrows E T g Φ) (p : ExecutionPlan) (φ : Tuple → Bool)
    (hp : T.untouched p = true) : AgreeOn φ (E.eval p) (E.eval (mapScans T.visits g p)) := by
  rw [mapScans_of_untouched h.unchanged p hp]
  exact .of_eq φ rfl

mutual

/-- **Where the columns reach, narrowing the scans only changes rows that fail the filter.** -/
theorem agreeOn_mapScans (h : Narrows E T g Φ) : ∀ (p : ExecutionPlan) (pos : String → ℕ),
    T.reaches p pos → AgreeOn (filterAt Φ pos) (E.eval p) (E.eval (mapScans T.visits g p))
  | .scan s, pos, hr => by
      rw [mapScans, Engine.eval, Engine.eval]
      cases hs : T.receives s with
      | false => exact .of_eq _ (by rw [h.unchanged s hs])
      | true =>
          rcases hr with hr | ⟨hlimit, hpos⟩
          · rw [hs] at hr
            cases hr
          · exact h.agreeOn_scan hs hlimit hpos
  | .hashJoin l r j, pos, hr => by
      rcases hr with hr | ⟨hn, hl, hr⟩
      · exact h.agreeOn_untouched (.hashJoin l r j) _ hr
      · rw [mapScans, Engine.eval, Engine.eval, width_mapScans _ h.outputSchema,
          width_mapScans _ h.outputSchema]
        obtain ⟨p, hp, hagreeL⟩ : ∃ p, SideCarried T Φ (j.CarriesLeft l.width r.width) pos p ∧
            AgreeOn p (E.eval l) (E.eval (mapScans T.visits g l)) := by
          rcases hl with hl | ⟨posL, hL, hreach⟩
          · exact ⟨fun _ => true, .inl fun _ => rfl, h.agreeOn_untouched l _ hl⟩
          · exact ⟨_, .inr ⟨posL, hL, rfl⟩, agreeOn_mapScans h l posL hreach⟩
        obtain ⟨q, hq, hagreeR⟩ : ∃ q, SideCarried T Φ (j.CarriesRight l.width r.width) pos q ∧
            AgreeOn q (E.eval r) (E.eval (mapScans T.visits g r)) := by
          rcases hr with hr | ⟨posR, hR, hreach⟩
          · exact ⟨fun _ => true, .inl fun _ => rfl, h.agreeOn_untouched r _ hr⟩
          · exact ⟨_, .inr ⟨posR, hR, rfl⟩, agreeOn_mapScans h r posR hreach⟩
        exact hagreeL.joined hagreeR (h.matters hn hp hq _ _) (h.matters hn hp hq _ _)
  | .projection i exprs, pos, hr => by
      rcases hr with hr | ⟨pos', hpos, hreach⟩
      · exact h.agreeOn_untouched (.projection i exprs) _ hr
      · exact h.agreeOn_projection hpos (agreeOn_mapScans h i pos' hreach)
  | .filter i e, pos, hr => (agreeOn_mapScans h i pos hr).filter _
  | .limit i skip fetch, _, hr => h.agreeOn_untouched (.limit i skip fetch) _ hr
  | .aggregate i groupBy aggregates, pos, hr => by
      rcases hr with hr | ⟨hgroup, pos', hpos, hreach⟩
      · exact h.agreeOn_untouched (.aggregate i groupBy aggregates) _ hr
      · exact h.agreeOn_aggregate hgroup aggregates hpos (agreeOn_mapScans h i pos' hreach)
  | .wrapper _ i, pos, hr => agreeOn_mapScans h i pos hr
  | .union is, pos, hr => by
      rw [mapScans, Engine.eval, Engine.eval]
      split
      · rename_i hv
        rcases hr with hr | hr
        · rw [hv] at hr
          cases hr
        · exact agreeOn_mapScansList h is pos hr
      · exact .of_eq _ rfl
  | .other name w is, _, hr => h.agreeOn_untouched (.other name w is) _ hr

theorem agreeOn_mapScansList (h : Narrows E T g Φ) : ∀ (ps : List ExecutionPlan) (pos : String → ℕ),
    T.reachesAll ps pos → AgreeOn (filterAt Φ pos) (E.evalList ps).flatten
      (E.evalList (mapScansList T.visits g ps)).flatten
  | [], _, _ => .of_eq _ rfl
  | p :: ps, pos, hr => (agreeOn_mapScans h p pos hr.1).append (agreeOn_mapScansList h ps pos hr.2)

end

end

end IcebergDb.Plan
