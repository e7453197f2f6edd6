import IcebergDb.Bench.RunReport
import IcebergDb.Foundation.Logged
import IcebergDb.Foundation.Text
import IcebergDb.Foundation.Utf8

/-!
# The history of benchmark runs

`record_run` appends a run to a file of JSON lines and then writes the audit log of all runs in that file.

* `truncateOneLine`, `renderHistoryMarkdown`, `recordRun` — the source; `none` where a slice splits a character;
* `OneLineFits` — the notes are short, or a character begins behind the cut;
* `isSome_truncateOneLine_iff` — then, and only then, they are cut without a panic;
* `recordRun_completed_iff` — **a run is recorded completely exactly if its notes and those of all runs before it
  fit.**
-/

namespace IcebergDb.Bench

/-! ### The source -/

/-- What is printed of a `ConfigSnapshot`. -/
structure ConfigSnapshot where
  configPath : String
  warehouse : String
  manifestQueries : List String
  iterations : UInt32
  warmup : Bool
  targetPartitions : Option ℕ

/-- `RunHistoryEntry`. -/
structure RunHistoryEntry where
  recordedAt : String
  gitCommit : Option String
  label : Option String
  notes : String
  changes : List String
  config : ConfigSnapshot
  report : BenchReport

/-- How floats are printed: `{x:.2}` of a speedup, and the percentage between two times. -/
structure Floats where
  speedup : ℚ → String
  percent : UInt64 → UInt64 → String

/-- `replace('\n', " ")`. -/
def oneLine (s : String) : List Char := s.toList.map fun c => if c = '\n' then ' ' else c

/-- `truncate_one_line`. -/
def truncateOneLine (s : String) (max : ℕ) : Option String :=
  if (Utf8.bytes (oneLine s)).length ≤ max then some (String.ofList (oneLine s))
  else (Utf8.sliceTo (max - 1) (oneLine s)).map fun cut => String.ofList cut ++ "…"

/-- `pct_delta`. -/
def pctDelta (floats : Floats) (before after : UInt64) : Option String :=
  if before = 0 then none else some (floats.percent before after)

/-- The loop of `format_delta_vs_previous`, which ends the whole function when a query is new. -/
def deltaLines (floats : Floats) (previous : List QueryComparison) : List QueryComparison → Option (List String)
  | [] => some []
  | c :: cs => do
      let prev ← previous.find? fun p => p.queryId = c.queryId
      let lines ← deltaLines floats previous cs
      match c.icebergMs, prev.icebergMs with
      | some cur, some pr =>
          return match pctDelta floats pr cur with
            | some d => ("- " ++ c.queryId ++ " iceberg: " ++ d ++ " (" ++ toString pr ++ " → " ++ toString cur ++
                " ms)") :: lines
            | none => lines
      | _, _ => return lines

/-- `format_delta_vs_previous`. -/
def formatDeltaVsPrevious (floats : Floats) (current previous : RunHistoryEntry) : Option String := do
  let before := previous.report.icebergDb.totalElapsedMs
  let after := current.report.icebergDb.totalElapsedMs
  let total := match pctDelta floats before after with
    | some d => ["- iceberg-db-rs total: " ++ d ++ " (" ++ toString before ++ " → " ++ toString after ++ " ms)"]
    | none => []
  let lines ← deltaLines floats previous.report.comparisons current.report.comparisons
  if (total ++ lines).isEmpty then none
  else some ("\n".intercalate (["**Δ vs previous run:**"] ++ total ++ lines))

/-- A time, or what stands for it. -/
def shownMs (missing : String) (ms : Option UInt64) : String := (ms.map toString).getD missing

/-- The line of a run in the summary. -/
def summaryRow (n : ℕ) (run : RunHistoryEntry) : Option String := do
  let notesShort ← truncateOneLine run.notes 60
  let q07 := run.report.comparisons.find? fun c => c.queryId = "q07"
  return "| " ++ toString n ++ " | " ++ run.recordedAt ++ " | " ++ run.gitCommit.getD "-" ++ " | " ++
    run.label.getD "-" ++ " | " ++ toString run.report.icebergDb.totalElapsedMs ++ " ms | " ++
    toString run.report.duckdb.totalElapsedMs ++ " ms | " ++
    shownMs "-" (q07.bind QueryComparison.icebergMs) ++ " ms | " ++
    shownMs "-" (q07.bind QueryComparison.duckdbMs) ++ " ms | " ++ notesShort ++ " |\n"

/-- The line of a query in the details. -/
def comparisonRow (floats : Floats) (c : QueryComparison) : String :=
  let speedup := (c.speedupVsDuckdb.map fun x => floats.speedup x ++ "x").getD "-"
  let rows := (c.rowCountMatch.map fun m => if m then "yes" else "NO").getD "-"
  "| " ++ c.queryId ++ " | " ++ shownMs "ERR" c.icebergMs ++ " | " ++ shownMs "ERR" c.duckdbMs ++ " | " ++ speedup ++
    " | " ++ rows ++ " |\n"

/-- The details of a run, with the run before it. -/
def runDetails (floats : Floats) (n : ℕ) (run : RunHistoryEntry) (previous : Option RunHistoryEntry) : String :=
  let git := (run.gitCommit.map fun commit => "- **Git:** `" ++ commit ++ "`\n").getD ""
  let label := (run.label.map fun label => "- **Label:** " ++ label ++ "\n").getD ""
  let partitions :=
    (run.config.targetPartitions.map fun tp => "- **target_partitions:** " ++ toString tp ++ "\n").getD ""
  let notes :=
    if run.notes = "" then ""
    else "\n**Notes:**\n\n" ++ run.notes ++ (if run.notes.toList.getLast? = some '\n' then "" else "\n") ++ "\n"
  let changes :=
    if run.changes.isEmpty then ""
    else "\n**Changes:**\n\n" ++ String.join (run.changes.map fun c => "- " ++ c ++ "\n") ++ "\n"
  let delta := ((previous.bind (formatDeltaVsPrevious floats run)).map fun delta => delta ++ "\n").getD ""
  "### Run " ++ toString n ++ " — " ++ run.recordedAt ++ "\n\n" ++ git ++ label ++
    "- **Config:** `" ++ run.config.configPath ++ "`\n" ++ "- **Warehouse:** `" ++ run.config.warehouse ++ "`\n" ++
    "- **Queries:** " ++ ", ".intercalate run.config.manifestQueries ++ "\n" ++
    "- **Iterations:** " ++ toString run.config.iterations ++ ", warmup: " ++ toString run.config.warmup ++ "\n" ++
    partitions ++ notes ++ changes ++ delta ++
    "\n| Query | iceberg-db-rs (ms) | DuckDB (ms) | speedup | rows match |\n" ++
    "|-------|-------------------|-------------|---------|------------|\n" ++
    String.join (run.report.comparisons.map (comparisonRow floats)) ++ "\n"

/-- The text before the summary. -/
def historyHead (jsonlPath : String) : String :=
  "# TPC-DS benchmark audit log\n\n" ++
    "Tracks **iceberg-db-rs vs DuckDB** latency over time, with notes on what changed between runs.\n\n" ++
    "- Machine-readable: [`" ++ jsonlPath ++ "`](../../" ++
    String.ofList (jsonlPath.toList.map fun c => if c = '\\' then '/' else c) ++ ")\n" ++
    "- Regenerated by `idb-bench` after each recorded run\n\n" ++ "## Record a run\n\n" ++ "```powershell\n" ++
    "cargo run -p idb-bench --release -- --config benchmarks/tpcds/bench.yaml `\n" ++
    "  --notes \"What you changed and why\" `\n" ++ "  --change \"patches/foo: short description\"\n" ++ "```\n\n" ++
    "Use `--no-history` to skip recording. `speedup_vs_duckdb` > 1 means iceberg-db-rs was faster.\n\n" ++
    "## Summary\n\n" ++
    "| # | Recorded (UTC) | Commit | Label | iceberg total | DuckDB total | q07 iceberg | q07 DuckDB | Notes |\n" ++
    "|---|----------------|--------|-------|---------------|--------------|-------------|------------|-------|\n"

/-- `render_history_markdown`. -/
def renderHistoryMarkdown (floats : Floats) (runs : List RunHistoryEntry) (jsonlPath : String) : Option String := do
  let rows ← runs.zipIdx.mapM fun (run, i) => summaryRow (i + 1) run
  let summary := historyHead jsonlPath ++ String.join rows ++ "\n## Run details\n\n"
  if runs.isEmpty then return summary ++ "_No runs recorded yet._\n"
  return summary ++ String.join (runs.zipIdx.reverse.map fun (run, i) =>
    runDetails floats (i + 1) run (if 0 < i then runs[i - 1]? else none))

/-- The JSON lines of the entries.  No line is blank, and the notes are read back as they were written. -/
structure Journal where
  encode : RunHistoryEntry → String
  decode : String → Option RunHistoryEntry
  trim_ne : ∀ entry, Text.trim (encode entry) ≠ ""
  notes : ∀ entry, (decode (Text.trim (encode entry))).map RunHistoryEntry.notes = some entry.notes

/-- The lines of the history file, and the audit log. -/
structure HistoryFiles where
  jsonl : List String
  markdown : Option String

/-- No run has been recorded. -/
def HistoryFiles.empty : HistoryFiles := ⟨[], none⟩

section

variable (journal : Journal) (floats : Floats) (jsonlPath : String)

/-- `append_run`. -/
def appendRun (files : HistoryFiles) (entry : RunHistoryEntry) : HistoryFiles :=
  { files with jsonl := files.jsonl ++ [journal.encode entry] }

/-- `load_runs`. -/
def loadRuns : List String → Option (List RunHistoryEntry)
  | [] => some []
  | line :: lines =>
      if Text.trim line = "" then loadRuns lines
      else do
        let run ← journal.decode (Text.trim line)
        let runs ← loadRuns lines
        return run :: runs

/-- `regenerate_audit_markdown`. -/
def regenerateAuditMarkdown (files : HistoryFiles) : Option HistoryFiles := do
  let runs ← loadRuns journal files.jsonl
  let md ← renderHistoryMarkdown floats runs jsonlPath
  return { files with markdown := some md }

/-- `record_run`: the files after it, and whether it came to its end. -/
def recordRun (files : HistoryFiles) (entry : RunHistoryEntry) : HistoryFiles × Bool :=
  match regenerateAuditMarkdown journal floats jsonlPath (appendRun journal files entry) with
  | some files => (files, true)
  | none => (appendRun journal files entry, false)

/-- The files after a sequence of runs. -/
def recordRuns (entries : List RunHistoryEntry) : HistoryFiles :=
  entries.foldl (fun files entry => (recordRun journal floats jsonlPath files entry).1) .empty

end

/-! ### One line -/

/-- The text has at most `max` bytes, or a character begins behind its first `max - 1`. -/
def OneLineFits (max : ℕ) (s : String) : Prop :=
  (Utf8.bytes s.toList).length ≤ max ∨ Utf8.CutFits (max - 1) s.toList

instance (max : ℕ) (s : String) : Decidable (OneLineFits max s) := instDecidableOr

/-- A line break is one byte, as the blank in its place. -/
theorem bytes_oneLine (cs : List Char) :
    (Utf8.bytes (cs.map fun c => if c = '\n' then ' ' else c)).length = (Utf8.bytes cs).length := by
  induction cs with
  | nil => rfl
  | cons c cs ih =>
      rw [List.map_cons, Utf8.length_bytes_cons, Utf8.length_bytes_cons, ih]
      by_cases hc : c = '\n'
      · rw [if_pos hc, hc]
        rfl
      · rw [if_neg hc]

theorem isBoundary_oneLine (n : ℕ) (s : String) : Utf8.IsBoundary n (oneLine s) ↔ Utf8.IsBoundary n s.toList := by
  constructor
  · rintro ⟨ds, es, hsplit, hlen⟩
    obtain ⟨ds', es', hs, rfl, -⟩ := List.map_eq_append_iff.mp hsplit
    exact ⟨ds', es', hs, (bytes_oneLine ds').symm.trans hlen⟩
  · rintro ⟨ds, es, hsplit, hlen⟩
    refine ⟨ds.map fun c => if c = '\n' then ' ' else c, es.map fun c => if c = '\n' then ' ' else c, ?_, ?_⟩
    · rw [oneLine, hsplit, List.map_append]
    · rw [bytes_oneLine, hlen]

/-- **A text is cut to one line without a panic** exactly if it fits. -/
theorem isSome_truncateOneLine_iff (s : String) (max : ℕ) :
    (truncateOneLine s max).isSome = true ↔ OneLineFits max s := by
  have hlen : (Utf8.bytes (oneLine s)).length = (Utf8.bytes s.toList).length := bytes_oneLine s.toList
  rw [truncateOneLine, OneLineFits, hlen]
  by_cases hshort : (Utf8.bytes s.toList).length ≤ max
  · simp [hshort]
  · rw [if_neg hshort, Option.isSome_map, Utf8.isSome_sliceTo_iff, isBoundary_oneLine,
      Utf8.isBoundary_iff_cutFits (by omega)]
    simp [hshort]

/-! ### The audit log -/

theorem isSome_summaryRow_iff (n : ℕ) (run : RunHistoryEntry) :
    (summaryRow n run).isSome = true ↔ OneLineFits 60 run.notes := by
  have hsame : (summaryRow n run).isSome = (truncateOneLine run.notes 60).isSome :=
    Logged.isSome_bind_of_forall _ fun _ => rfl
  rw [hsame]
  exact isSome_truncateOneLine_iff run.notes 60

/-- The log is written exactly if the notes of all runs fit. -/
theorem isSome_renderHistoryMarkdown_iff (floats : Floats) (runs : List RunHistoryEntry) (jsonlPath : String) :
    (renderHistoryMarkdown floats runs jsonlPath).isSome = true ↔ ∀ run ∈ runs, OneLineFits 60 run.notes := by
  have hrows : ((runs.zipIdx.mapM fun (p : RunHistoryEntry × ℕ) => summaryRow (p.2 + 1) p.1).isSome = true) ↔
      ∀ run ∈ runs, OneLineFits 60 run.notes := by
    rw [Logged.isSome_mapM]
    simp only [isSome_summaryRow_iff]
    constructor
    · intro h run hrun
      obtain ⟨i, hi, rfl⟩ := List.mem_iff_getElem.mp hrun
      exact h (runs[i], i) (List.mem_zipIdx_iff_getElem?.mpr (List.getElem?_eq_getElem hi))
    · intro h p hp
      exact h p.1 (List.mem_of_getElem? (List.mem_zipIdx_iff_getElem?.mp hp))
  rw [← hrows, renderHistoryMarkdown, Logged.isSome_bind_of_forall]
  intro rows
  split
  · rfl
  · rfl

/-! ### The history -/

section

variable {journal : Journal} {floats : Floats} {jsonlPath : String}

/-- The file is read back, with the notes of its entries. -/
theorem exists_loadRuns (journal : Journal) (entries : List RunHistoryEntry) :
    ∃ runs, loadRuns journal (entries.map journal.encode) = some runs ∧
      runs.map RunHistoryEntry.notes = entries.map RunHistoryEntry.notes := by
  induction entries with
  | nil => exact ⟨[], rfl, rfl⟩
  | cons entry entries ih =>
      obtain ⟨runs, hruns, hnotes⟩ := ih
      obtain ⟨run, hrun, hnote⟩ := Option.map_eq_some_iff.mp (journal.notes entry)
      refine ⟨run :: runs, ?_, congrArg₂ List.cons hnote hnotes⟩
      rw [List.map_cons, loadRuns, if_neg (journal.trim_ne entry), hrun, hruns]
      rfl

/-- **Step**: whatever becomes of the log, the entry is in the file. -/
theorem jsonl_recordRun (files : HistoryFiles) (entry : RunHistoryEntry) :
    (recordRun journal floats jsonlPath files entry).1.jsonl = files.jsonl ++ [journal.encode entry] := by
  rw [recordRun]
  split
  · rename_i files' hregenerate
    obtain ⟨runs, -, hrender⟩ := Option.bind_eq_some_iff.mp hregenerate
    obtain ⟨md, -, hfiles⟩ := Option.bind_eq_some_iff.mp hrender
    rw [← Option.some.inj hfiles]
    rfl
  · rfl

theorem recordRun_snd (files : HistoryFiles) (entry : RunHistoryEntry) :
    (recordRun journal floats jsonlPath files entry).2 =
      (regenerateAuditMarkdown journal floats jsonlPath (appendRun journal files entry)).isSome := by
  rw [recordRun]
  cases regenerateAuditMarkdown journal floats jsonlPath (appendRun journal files entry) with
  | none => rfl
  | some files' => rfl

/-- **Run**: the file holds all entries. -/
theorem jsonl_recordRuns (entries : List RunHistoryEntry) :
    (recordRuns journal floats jsonlPath entries).jsonl = entries.map journal.encode := by
  induction entries using List.reverseRecOn with
  | nil => rfl
  | append_singleton entries entry ih =>
      rw [recordRuns, List.foldl_append, List.foldl_cons, List.foldl_nil, jsonl_recordRun, List.map_append]
      exact congrArg (· ++ [journal.encode entry]) ih

/-- **A run is recorded completely** exactly if its notes and those of all runs before it fit.  So after one that
does not, no run ever is. -/
theorem recordRun_completed_iff (entries : List RunHistoryEntry) (entry : RunHistoryEntry) :
    (recordRun journal floats jsonlPath (recordRuns journal floats jsonlPath entries) entry).2 = true ↔
      ∀ run ∈ entries ++ [entry], OneLineFits 60 run.notes := by
  obtain ⟨runs, hload, hnotes⟩ := exists_loadRuns journal (entries ++ [entry])
  have hjsonl : (appendRun journal (recordRuns journal floats jsonlPath entries) entry).jsonl =
      (entries ++ [entry]).map journal.encode := by
    rw [appendRun, jsonl_recordRuns, List.map_append]
    rfl
  have hsame : (∀ run ∈ runs, OneLineFits 60 run.notes) ↔ ∀ run ∈ entries ++ [entry], OneLineFits 60 run.notes := by
    rw [← List.forall_mem_map (f := RunHistoryEntry.notes) (P := OneLineFits 60), hnotes, List.forall_mem_map]
  rw [← hsame, ← isSome_renderHistoryMarkdown_iff floats runs jsonlPath, recordRun_snd, regenerateAuditMarkdown, hjsonl,
    hload]
  show (renderHistoryMarkdown floats runs jsonlPath >>= _).isSome = true ↔ _
  rw [Logged.isSome_bind_of_forall _ fun md => rfl]

end

end IcebergDb.Bench
