import Mathlib.Algebra.BigOperators.Group.List.Basic
import Mathlib.Data.List.Destutter
import Mathlib.Data.List.Sort
import Mathlib.Data.Rat.Defs
import Mathlib.Data.String.Basic
import Mathlib.Tactic.Common

/-!
# The report of a benchmark

`runner.rs` runs every query on an engine, once to warm up and then a number of timed iterations, and `report.rs`
compares two such runs.

* `runEngine`, `summarize`, `compareRuns` — the source, over engines with a state of their own;
* `timedRuns` — what the engine returned in every timed iteration;
* `comparisons_queryId` — the report lists every query once, in order;
* `evidence_iff` — **matching row counts are evidence of agreement exactly if no query whose last iterations report
  the same count hides an iteration that failed or returned another count.**
-/

namespace IcebergDb.Bench

/-! ### The source -/

/-- `QueryRunResult`. -/
structure QueryRunResult where
  queryId : String
  elapsedMs : UInt64
  meanElapsedMs : Option UInt64
  timedIterations : Option UInt32
  rowCount : ℕ
  error : Option String
  deriving DecidableEq

/-- `TpcdsQuery`, less the path of its file. -/
structure TpcdsQuery where
  id : String
  sql : String

/-- `BenchEngine`, with a state of its own.  Both engines return the id that they were given. -/
structure BenchEngine (σ : Type) where
  name : String
  runQuery : String → String → σ → QueryRunResult × σ
  queryId_runQuery : ∀ id sql s, (runQuery id sql s).1.queryId = id

/-- `median_ms`, which is called on samples only.  The sum wraps. -/
def medianMs (samples : List UInt64) : UInt64 :=
  let sorted := samples.insertionSort (· ≤ ·)
  let n := sorted.length
  if n = 1 then sorted.getD 0 0 else (sorted.getD ((n - 1) / 2) 0 + sorted.getD (n / 2) 0) / 2

/-- `iter().sum::<u64>()`. -/
def sumMs (samples : List UInt64) : UInt64 := samples.foldl (· + ·) 0

/-- `mean_ms`. -/
def meanMs (samples : List UInt64) : UInt64 := sumMs samples / UInt64.ofNat samples.length

/-- What stands for the last result before the first iteration. -/
def noIterations (id : String) : QueryRunResult where
  queryId := id
  elapsedMs := 0
  meanElapsedMs := none
  timedIterations := none
  rowCount := 0
  error := some "no iterations"

section

variable {σ τ : Type}

/-- The loop of `run_engine` over the timed iterations. -/
def iterate (engine : BenchEngine σ) (q : TpcdsQuery) :
    ℕ → QueryRunResult → List UInt64 → σ → (QueryRunResult × List UInt64) × σ
  | 0, last, samples, s => ((last, samples), s)
  | n + 1, _, samples, s =>
      let (last, s) := engine.runQuery q.id q.sql s
      iterate engine q n last (if last.error.isNone then samples ++ [last.elapsedMs] else samples) s

/-- The times over all iterations, in the last result. -/
def aggregate (timedIters : UInt32) (last : QueryRunResult) (samples : List UInt64) : QueryRunResult :=
  if 1 < timedIters ∧ samples ≠ [] then
    { last with
      elapsedMs := medianMs samples
      meanElapsedMs := some (meanMs samples)
      timedIterations := some timedIters }
  else last

/-- The iteration that warms the engine up, of which only the state is left. -/
def warmUp (engine : BenchEngine σ) (warmup : Bool) (q : TpcdsQuery) (s : σ) : σ :=
  if warmup then (engine.runQuery q.id q.sql s).2 else s

/-- `run_engine`. -/
def runEngine (engine : BenchEngine σ) (warmup : Bool) (iterations : UInt32) :
    List TpcdsQuery → σ → List QueryRunResult × σ
  | [], s => ([], s)
  | q :: qs, s =>
      let timedIters := max iterations 1
      let ((last, samples), s) := iterate engine q timedIters.toNat (noIterations q.id) [] (warmUp engine warmup q s)
      let (results, s) := runEngine engine warmup iterations qs s
      (aggregate timedIters last samples :: results, s)

/-- `EngineRunSummary`. -/
structure EngineRunSummary where
  engine : String
  queriesRun : ℕ
  queriesOk : ℕ
  queriesFailed : ℕ
  totalElapsedMs : UInt64
  results : List QueryRunResult

/-- `summarize`. -/
def summarize (engine : String) (results : List QueryRunResult) : EngineRunSummary :=
  let queriesRun := results.length
  let queriesOk := (results.filter fun r => r.error.isNone).length
  { engine, queriesRun, queriesOk, queriesFailed := queriesRun - queriesOk,
    totalElapsedMs := sumMs (results.map QueryRunResult.elapsedMs), results }

/-- `QueryComparison`.  The speedup is the quotient that the float rounds. -/
structure QueryComparison where
  queryId : String
  icebergMs : Option UInt64
  duckdbMs : Option UInt64
  speedupVsDuckdb : Option ℚ
  icebergRows : Option ℕ
  duckdbRows : Option ℕ
  rowCountMatch : Option Bool
  icebergError : Option String
  duckdbError : Option String

/-- `BenchReport`. -/
structure BenchReport where
  suite : String
  icebergDb : EngineRunSummary
  duckdb : EngineRunSummary
  comparisons : List QueryComparison

/-- The match on the two times. -/
def speedup : Option UInt64 → Option UInt64 → Option ℚ
  | some iceberg, some duckdb => if 0 < iceberg then some (duckdb.toNat / iceberg.toNat) else none
  | _, _ => none

/-- The match on the two row counts. -/
def rowsMatch : Option ℕ → Option ℕ → Option Bool
  | some iceberg, some duckdb => some (iceberg == duckdb)
  | _, _ => none

/-- The body of the loop of `compare_runs`. -/
def compareQuery (iceberg duckdb : EngineRunSummary) (id : String) : QueryComparison :=
  let i := iceberg.results.find? fun r => r.queryId = id
  let d := duckdb.results.find? fun r => r.queryId = id
  let icebergMs := i.map QueryRunResult.elapsedMs
  let duckdbMs := d.map QueryRunResult.elapsedMs
  let icebergRows := i.map QueryRunResult.rowCount
  let duckdbRows := d.map QueryRunResult.rowCount
  { queryId := id, icebergMs, duckdbMs, speedupVsDuckdb := speedup icebergMs duckdbMs, icebergRows, duckdbRows,
    rowCountMatch := rowsMatch icebergRows duckdbRows, icebergError := i.bind QueryRunResult.error,
    duckdbError := d.bind QueryRunResult.error }

/-- The ids of both runs, sorted and each once. -/
def reportIds (iceberg duckdb : EngineRunSummary) : List String :=
  let ids := iceberg.results.map QueryRunResult.queryId ++ duckdb.results.map QueryRunResult.queryId
  (ids.insertionSort (· ≤ ·)).destutter (· ≠ ·)

/-- `compare_runs`. -/
def compareRuns (suite : String) (iceberg duckdb : EngineRunSummary) : BenchReport where
  suite := suite
  icebergDb := iceberg
  duckdb := duckdb
  comparisons := (reportIds iceberg duckdb).map (compareQuery iceberg duckdb)

/-- `run_tpcds_suite`, from engines that are prepared. -/
def runTpcdsSuite (iceberg : BenchEngine σ) (duckdb : BenchEngine τ) (warmup : Bool) (iterations : UInt32)
    (queries : List TpcdsQuery) (s : σ) (t : τ) : BenchReport :=
  compareRuns "tpcds" (summarize iceberg.name (runEngine iceberg warmup iterations queries s).1)
    (summarize duckdb.name (runEngine duckdb warmup iterations queries t).1)

/-! ### What the engines returned -/

/-- The results of a number of runs of a query, one after the other. -/
def runs (engine : BenchEngine σ) (q : TpcdsQuery) : ℕ → σ → List QueryRunResult × σ
  | 0, s => ([], s)
  | n + 1, s =>
      let (result, s) := engine.runQuery q.id q.sql s
      let (results, s) := runs engine q n s
      (result :: results, s)

/-- The results of all timed iterations, by query. -/
def timedRuns (engine : BenchEngine σ) (warmup : Bool) (iterations : UInt32) :
    List TpcdsQuery → σ → List (String × List QueryRunResult)
  | [], _ => []
  | q :: qs, s =>
      let (results, s) := runs engine q (max iterations 1).toNat (warmUp engine warmup q s)
      (q.id, results) :: timedRuns engine warmup iterations qs s

/-- The row count of the last iteration at the first occurrence of the id. -/
def lastRows (timed : List (String × List QueryRunResult)) (id : String) : Option ℕ :=
  (timed.find? fun t => t.1 = id).bind fun t => t.2.getLast?.map QueryRunResult.rowCount

/-- All iterations of the query succeeded, with one row count. -/
def Agreed (timed : List (String × List QueryRunResult)) (id : String) (rows : ℕ) : Prop :=
  ∀ t ∈ timed, t.1 = id → ∀ run ∈ t.2, run.error = none ∧ run.rowCount = rows

/-- The report lists every query once, in order, and matching row counts are evidence of agreement. -/
structure Evidence (report : BenchReport) (queries : List TpcdsQuery)
    (timed : List (String × List QueryRunResult)) : Prop where
  sorted : (report.comparisons.map QueryComparison.queryId).Pairwise (· < ·)
  listed : ∀ id, id ∈ report.comparisons.map QueryComparison.queryId ↔ id ∈ queries.map TpcdsQuery.id
  agreed : ∀ c ∈ report.comparisons, c.rowCountMatch = some true → ∃ rows, Agreed timed c.queryId rows

/-- Where the last iterations of a query report the same count on both engines, no iteration failed or returned
another. -/
def NothingHidden (iceberg duckdb : List (String × List QueryRunResult)) : Prop :=
  ∀ id rows, lastRows iceberg id = some rows → lastRows duckdb id = some rows → Agreed (iceberg ++ duckdb) id rows

/-! ### One engine -/

theorem runs_fst_length (engine : BenchEngine σ) (q : TpcdsQuery) (n : ℕ) (s : σ) :
    (runs engine q n s).1.length = n := by
  induction n generalizing s with
  | zero => rfl
  | succ n ih => exact congrArg (· + 1) (ih _)

/-- The loop keeps the last result, and the state goes through all of them. -/
theorem iterate_spec (engine : BenchEngine σ) (q : TpcdsQuery) (n : ℕ) (last : QueryRunResult)
    (samples : List UInt64) (s : σ) :
    (iterate engine q n last samples s).1.1 = (runs engine q n s).1.getLast?.getD last ∧
      (iterate engine q n last samples s).2 = (runs engine q n s).2 := by
  induction n generalizing last samples s with
  | zero => exact ⟨rfl, rfl⟩
  | succ n ih =>
      obtain ⟨hlast, hstate⟩ := ih (engine.runQuery q.id q.sql s).1
        (if (engine.runQuery q.id q.sql s).1.error.isNone then samples ++ [(engine.runQuery q.id q.sql s).1.elapsedMs]
          else samples) (engine.runQuery q.id q.sql s).2
      refine ⟨hlast.trans ?_, hstate⟩
      show _ = ((engine.runQuery q.id q.sql s).1 :: (runs engine q n (engine.runQuery q.id q.sql s).2).1).getLast?.getD
        last
      rw [List.getLast?_cons]
      rfl

/-- The times are all that is aggregated. -/
theorem aggregate_spec (timedIters : UInt32) (last : QueryRunResult) (samples : List UInt64) :
    (aggregate timedIters last samples).queryId = last.queryId ∧
      (aggregate timedIters last samples).rowCount = last.rowCount := by
  rw [aggregate]
  split
  · exact ⟨rfl, rfl⟩
  · exact ⟨rfl, rfl⟩

theorem queryId_of_mem_runs (engine : BenchEngine σ) (q : TpcdsQuery) (n : ℕ) (s : σ) :
    ∀ run ∈ (runs engine q n s).1, run.queryId = q.id := by
  induction n generalizing s with
  | zero => exact fun run hrun => absurd hrun List.not_mem_nil
  | succ n ih =>
      intro run hrun
      rcases List.mem_cons.mp hrun with rfl | hrun
      · exact engine.queryId_runQuery q.id q.sql s
      · exact ih _ run hrun

/-- There is at least one timed iteration. -/
theorem max_one_toNat_pos (iterations : UInt32) : 0 < (max iterations 1).toNat := by
  show 0 < (if iterations ≤ 1 then (1 : UInt32) else iterations).toNat
  split
  · decide
  · rename_i hmany
    rw [UInt32.le_iff_toNat_le] at hmany
    exact Nat.zero_lt_of_lt (Nat.lt_of_not_le hmany)

/-- **One query**: the result has its id and the row count of the last iteration. -/
theorem aggregate_iterate (engine : BenchEngine σ) (q : TpcdsQuery) (iterations : UInt32) (s : σ) :
    ∃ last ∈ (runs engine q (max iterations 1).toNat s).1.getLast?,
      ∀ loop, loop = iterate engine q (max iterations 1).toNat (noIterations q.id) [] s →
        (aggregate (max iterations 1) loop.1.1 loop.1.2).queryId = q.id ∧
          (aggregate (max iterations 1) loop.1.1 loop.1.2).rowCount = last.rowCount := by
  have hne : (runs engine q (max iterations 1).toNat s).1 ≠ [] := by
    intro hnil
    have hlength := runs_fst_length engine q (max iterations 1).toNat s
    rw [hnil, List.length_nil] at hlength
    exact absurd (max_one_toNat_pos iterations) (by omega)
  refine ⟨_, List.getLast?_eq_some_getLast hne, ?_⟩
  rintro loop rfl
  obtain ⟨hid, hrows⟩ := aggregate_spec (max iterations 1)
    (iterate engine q (max iterations 1).toNat (noIterations q.id) [] s).1.1
    (iterate engine q (max iterations 1).toNat (noIterations q.id) [] s).1.2
  have hlast := (iterate_spec engine q (max iterations 1).toNat (noIterations q.id) [] s).1
  rw [List.getLast?_eq_some_getLast hne] at hlast
  rw [hid, hrows, hlast]
  exact ⟨queryId_of_mem_runs engine q _ s _ (List.getLast_mem hne), rfl⟩

/-- The ids of the results are those of the queries. -/
theorem runEngine_queryId (engine : BenchEngine σ) (warmup : Bool) (iterations : UInt32) (queries : List TpcdsQuery)
    (s : σ) :
    (runEngine engine warmup iterations queries s).1.map QueryRunResult.queryId = queries.map TpcdsQuery.id := by
  induction queries generalizing s with
  | nil => rfl
  | cons q qs ih =>
      obtain ⟨last, -, hloop⟩ := aggregate_iterate engine q iterations (warmUp engine warmup q s)
      exact congrArg₂ List.cons (hloop _ rfl).1 (ih _)

/-- The row count that the report finds for an id is the one of the last iteration at its first occurrence. -/
theorem find?_runEngine (engine : BenchEngine σ) (warmup : Bool) (iterations : UInt32) (queries : List TpcdsQuery)
    (s : σ) (id : String) :
    ((runEngine engine warmup iterations queries s).1.find? fun r => r.queryId = id).map QueryRunResult.rowCount =
      lastRows (timedRuns engine warmup iterations queries s) id := by
  induction queries generalizing s with
  | nil => rfl
  | cons q qs ih =>
      obtain ⟨last, hlast, hloop⟩ := aggregate_iterate engine q iterations (warmUp engine warmup q s)
      obtain ⟨hid, hrows⟩ := hloop _ rfl
      have hstate :=
        (iterate_spec engine q (max iterations 1).toNat (noIterations q.id) [] (warmUp engine warmup q s)).2
      rw [runEngine, timedRuns, lastRows]
      by_cases hq : q.id = id
      · rw [List.find?_cons_of_pos (by simpa [hid] using hq), List.find?_cons_of_pos (by simpa using hq)]
        rw [Option.map_some, Option.bind_some, Option.mem_def.mp hlast, Option.map_some, hrows]
      · rw [List.find?_cons_of_neg (by simpa [hid] using hq), List.find?_cons_of_neg (by simpa using hq)]
        rw [ih, hstate]
        rfl

theorem timedRuns_fst (engine : BenchEngine σ) (warmup : Bool) (iterations : UInt32) (queries : List TpcdsQuery)
    (s : σ) : (timedRuns engine warmup iterations queries s).map Prod.fst = queries.map TpcdsQuery.id := by
  induction queries generalizing s with
  | nil => rfl
  | cons q qs ih => exact congrArg (q.id :: ·) (ih _)

/-- The last row count of an id is that of one of its iterations. -/
theorem exists_of_lastRows {timed : List (String × List QueryRunResult)} {id : String} {rows : ℕ}
    (h : lastRows timed id = some rows) : ∃ t ∈ timed, t.1 = id ∧ ∃ run ∈ t.2, run.rowCount = rows := by
  obtain ⟨t, hfind, hlast⟩ := Option.bind_eq_some_iff.mp h
  obtain ⟨run, hrun, hrows⟩ := Option.map_eq_some_iff.mp hlast
  have hid := List.find?_some hfind
  exact ⟨t, List.mem_of_find?_eq_some hfind, by simpa using hid, run, List.mem_of_getLast? hrun, hrows⟩

/-! ### The report -/

/-- The ids of the report are sorted, each once, and those of the two runs. -/
theorem reportIds_spec (iceberg duckdb : EngineRunSummary) :
    (reportIds iceberg duckdb).Pairwise (· < ·) ∧
      ∀ id, id ∈ reportIds iceberg duckdb ↔
        id ∈ iceberg.results.map QueryRunResult.queryId ∨ id ∈ duckdb.results.map QueryRunResult.queryId := by
  have hsorted := List.pairwise_insertionSort (· ≤ ·)
    (iceberg.results.map QueryRunResult.queryId ++ duckdb.results.map QueryRunResult.queryId)
  rw [reportIds, hsorted.destutter_eq_dedup]
  constructor
  · have hle := hsorted.sublist (List.dedup_sublist _)
    exact (hle.and (List.nodup_dedup _)).imp fun h => lt_of_le_of_ne h.1 h.2
  · intro id
    rw [List.mem_dedup, List.mem_insertionSort, List.mem_append]

theorem map_queryId_comparisons (suite : String) (iceberg duckdb : EngineRunSummary) :
    (compareRuns suite iceberg duckdb).comparisons.map QueryComparison.queryId = reportIds iceberg duckdb := by
  show ((reportIds iceberg duckdb).map (compareQuery iceberg duckdb)).map QueryComparison.queryId = _
  rw [List.map_map]
  exact List.map_id _

/-- **The report lists every query once, in order.** -/
theorem comparisons_queryId (iceberg : BenchEngine σ) (duckdb : BenchEngine τ) (warmup : Bool) (iterations : UInt32)
    (queries : List TpcdsQuery) (s : σ) (t : τ) :
    ((runTpcdsSuite iceberg duckdb warmup iterations queries s t).comparisons.map QueryComparison.queryId).Pairwise
        (· < ·) ∧
      ∀ id, id ∈ (runTpcdsSuite iceberg duckdb warmup iterations queries s t).comparisons.map
        QueryComparison.queryId ↔ id ∈ queries.map TpcdsQuery.id := by
  rw [runTpcdsSuite, map_queryId_comparisons]
  obtain ⟨hsorted, hmem⟩ := reportIds_spec
    (summarize iceberg.name (runEngine iceberg warmup iterations queries s).1)
    (summarize duckdb.name (runEngine duckdb warmup iterations queries t).1)
  refine ⟨hsorted, fun id => ?_⟩
  rw [hmem]
  show id ∈ (runEngine iceberg warmup iterations queries s).1.map QueryRunResult.queryId ∨
    id ∈ (runEngine duckdb warmup iterations queries t).1.map QueryRunResult.queryId ↔ _
  rw [runEngine_queryId, runEngine_queryId, or_self]

theorem rowsMatch_eq_true_iff {i d : Option ℕ} :
    rowsMatch i d = some true ↔ ∃ rows, i = some rows ∧ d = some rows := by
  cases i with
  | none => simp [rowsMatch]
  | some a =>
      cases d with
      | none => simp [rowsMatch]
      | some b =>
          show some (a == b) = some true ↔ _
          rw [Option.some_inj, beq_iff_eq]
          constructor
          · rintro rfl
            exact ⟨a, rfl, rfl⟩
          · rintro ⟨rows, ha, hb⟩
            exact (Option.some.inj ha).trans (Option.some.inj hb).symm

/-- The row counts of an id match if its last iterations report the same count. -/
theorem rowCountMatch_iff (iceberg : BenchEngine σ) (duckdb : BenchEngine τ) (warmup : Bool) (iterations : UInt32)
    (queries : List TpcdsQuery) (s : σ) (t : τ) (id : String) :
    (compareQuery (summarize iceberg.name (runEngine iceberg warmup iterations queries s).1)
        (summarize duckdb.name (runEngine duckdb warmup iterations queries t).1) id).rowCountMatch = some true ↔
      ∃ rows, lastRows (timedRuns iceberg warmup iterations queries s) id = some rows ∧
        lastRows (timedRuns duckdb warmup iterations queries t) id = some rows := by
  rw [← find?_runEngine, ← find?_runEngine]
  exact rowsMatch_eq_true_iff

/-- **Matching row counts are evidence of agreement** exactly if the iterations before the last, and those of a
query's later occurrences, hide nothing. -/
theorem evidence_iff (iceberg : BenchEngine σ) (duckdb : BenchEngine τ) (warmup : Bool) (iterations : UInt32)
    (queries : List TpcdsQuery) (s : σ) (t : τ) :
    Evidence (runTpcdsSuite iceberg duckdb warmup iterations queries s t) queries
        (timedRuns iceberg warmup iterations queries s ++ timedRuns duckdb warmup iterations queries t) ↔
      NothingHidden (timedRuns iceberg warmup iterations queries s) (timedRuns duckdb warmup iterations queries t) := by
  obtain ⟨hsorted, hlisted⟩ := comparisons_queryId iceberg duckdb warmup iterations queries s t
  constructor
  · intro h id rows hiceberg hduckdb
    obtain ⟨u, hu, huid, run, hrun, hrows⟩ := exists_of_lastRows hiceberg
    -- the id is one of the queries, so it is in the report
    have hquery : id ∈ queries.map TpcdsQuery.id := by
      rw [← timedRuns_fst iceberg warmup iterations queries s]
      exact List.mem_map.mpr ⟨u, hu, huid⟩
    obtain ⟨c, hc, hcid⟩ := List.mem_map.mp ((hlisted id).mpr hquery)
    have hmatch : c.rowCountMatch = some true := by
      obtain ⟨id', -, rfl⟩ := List.mem_map.mp hc
      obtain rfl : id' = id := hcid
      exact (rowCountMatch_iff iceberg duckdb warmup iterations queries s t id').mpr ⟨rows, hiceberg, hduckdb⟩
    obtain ⟨rows', hagreed⟩ := h.agreed c hc hmatch
    rw [hcid] at hagreed
    have hsame := (hagreed u (List.mem_append_left _ hu) huid run hrun).2
    rwa [← hrows, hsame]
  · intro h
    refine ⟨hsorted, hlisted, ?_⟩
    intro c hc hmatch
    obtain ⟨id, -, rfl⟩ := List.mem_map.mp hc
    obtain ⟨rows, hiceberg, hduckdb⟩ :=
      (rowCountMatch_iff iceberg duckdb warmup iterations queries s t id).mp hmatch
    exact ⟨rows, h id rows hiceberg hduckdb⟩

end

/-- An engine that fails on every query. -/
def failing (name : String) : BenchEngine Unit where
  name := name
  runQuery id _ s := ({ noIterations id with error := some "table not found" }, s)
  queryId_runQuery _ _ _ := rfl

/-- Two engines that fail on the only query match. -/
theorem not_evidence_failing :
    ¬ Evidence (runTpcdsSuite (failing "iceberg-db-rs") (failing "duckdb") false 1 [⟨"q1", "SELECT 1 FROM t"⟩] () ())
      [⟨"q1", "SELECT 1 FROM t"⟩]
      (timedRuns (failing "iceberg-db-rs") false 1 [⟨"q1", "SELECT 1 FROM t"⟩] () ++
        timedRuns (failing "duckdb") false 1 [⟨"q1", "SELECT 1 FROM t"⟩] ()) := by
  intro h
  obtain ⟨hsorted, hlisted⟩ := comparisons_queryId (failing "iceberg-db-rs") (failing "duckdb") false 1
    [⟨"q1", "SELECT 1 FROM t"⟩] () ()
  obtain ⟨c, hc, hcid⟩ := List.mem_map.mp ((hlisted "q1").mpr List.mem_cons_self)
  have hmatch : c.rowCountMatch = some true := by
    obtain ⟨id, -, rfl⟩ := List.mem_map.mp hc
    obtain rfl : id = "q1" := hcid
    rfl
  obtain ⟨rows, hagreed⟩ := h.agreed c hc hmatch
  have hrun := hagreed ("q1", [{ noIterations "q1" with error := some "table not found" }]) (List.mem_append_left _
    List.mem_cons_self) hcid.symm _ List.mem_cons_self
  cases hrun.1

end IcebergDb.Bench
