import IcebergDb.Scan.FileGroups
import Mathlib.Logic.Relation

/-!
# One scan, many partitions

`IcebergTableScan::execute` and `read_partition`.  Each partition resolves the dynamic filters, plans
the files and splits the plan by itself, at its own moment; nothing is shared.  A run interleaves these
executions with updates of the dynamic filters:

* `Event` — a filter update, or the execution of one partition with the file list its plan returned;
* `Enabled` — updates only tighten, a partition executes once, and its plan lists exactly the files
  that the merged predicate of that moment does not prune, in any order;
* `ExactlyOnce` — no file is read by two partitions, and when all have executed every file with a row
  that satisfies the final filter is read by one;
* `Agrees` — what the splits need: plans list files of equal size in the same order, or are all small.
-/

namespace IcebergDb.Scan

open IcebergDb.Expr

/-- The minimum size `read_partition` splits by: zero means the default. -/
def effectiveMinFileSize (minFileSize : ℕ) : ℕ :=
  if minFileSize = 0 then defaultRepartitionFileMinSize else minFileSize

/-- `read_partition`, from the planned tasks on: the tasks of group `partition`. -/
def readPartition (tasks : List FileScanTask) (partition scanPartitions minFileSize : ℕ) :
    List FileScanTask :=
  (partitionFileScanTasks tasks scanPartitions (effectiveMinFileSize minFileSize))[partition]?.getD []

/-- Where a run stands: the current values of the dynamic filters, and the plan of each partition that
has executed. -/
structure RunState where
  current : ℕ → PhysicalExpr
  plans : List (ℕ × List FileScanTask)

/-- What can happen next. -/
inductive Event where
  | tighten (current : ℕ → PhysicalExpr)
  | execute (partition : ℕ) (tasks : List FileScanTask)

/-- The state after an event. -/
def RunState.after (s : RunState) : Event → RunState
  | .tighten current => { s with current := current }
  | .execute p tasks => { s with plans := (p, tasks) :: s.plans }

section

variable (F : Functions) (scan : IcebergTableScan) (minFileSize : ℕ)
  (pruned : Option Predicate → DataFile → Bool)

/-- A row satisfies the scan's filters at the given values of the dynamic filters. -/
def Satisfies (current : ℕ → PhysicalExpr) (row : Row) : Prop :=
  optTrueOn scan.predicates row ∧
    ∀ f ∈ scan.physicalFilters,
      (resolvePhysicalExpr current f.expr).isTrue F (PhysicalExpr.rowCells row)

/-- `plan_files`: the files not pruned, each once, in any order. -/
def IsPlan (pred : Option Predicate) (tasks : List FileScanTask) : Prop :=
  tasks.Perm ((scan.files.filter fun f => !pruned pred f).map DataFile.task)

/-- The events that a state allows. -/
def Enabled (s : RunState) : Event → Prop
  | .tighten current => ∀ (id : ℕ) (row : Row),
      (current id).isTrue F (PhysicalExpr.rowCells row) →
        (s.current id).isTrue F (PhysicalExpr.rowCells row)
  | .execute p tasks => p < scan.scanPartitions ∧ (∀ q ∈ s.plans, q.1 ≠ p) ∧
      IsPlan scan pruned (scan.mergedPredicate s.current) tasks

/-- Partition `p` reads the file at `path`. -/
def ReadBy (s : RunState) (p : ℕ) (path : String) : Prop :=
  ∃ tasks, (p, tasks) ∈ s.plans ∧
    ∃ t ∈ readPartition tasks p scan.scanPartitions minFileSize, t.dataFilePath = path

/-- Every partition has executed. -/
def AllExecuted (s : RunState) : Prop :=
  ∀ p < scan.scanPartitions, ∃ tasks, (p, tasks) ∈ s.plans

/-- No file is read twice, and in the end no file that matters is missed. -/
structure ExactlyOnce (s : RunState) : Prop where
  no_two : ∀ (p q : ℕ) (path : String), ReadBy scan minFileSize s p path →
    ReadBy scan minFileSize s q path → p = q
  each : AllExecuted scan s → ∀ f ∈ scan.files, (∃ row ∈ f.rows, Satisfies F scan s.current row) →
    ∃! p, ReadBy scan minFileSize s p f.filePath

/-- Two plans are split compatibly: files of equal size are listed in the same order, or both plans
are too small to be split. -/
def Agrees (tasks tasks' : List FileScanTask) : Prop :=
  SameTies tasks tasks' ∨
    (totalBytes tasks < effectiveMinFileSize minFileSize ∧
      totalBytes tasks' < effectiveMinFileSize minFileSize)

/-- The condition on an execution: the values of its filters convert without losing rows, and its plan
agrees with the plans before it. -/
def MeetsCondition (s : RunState) : Event → Prop
  | .tighten _ => True
  | .execute _ tasks =>
      (∀ f ∈ scan.physicalFilters, lossesOk true (resolvePhysicalExpr s.current f.expr) = true) ∧
        ∀ q ∈ s.plans, Agrees minFileSize q.2 tasks

/-- One step of a run. -/
def Step (s s' : RunState) : Prop := ∃ e, Enabled F scan pruned s e ∧ s' = s.after e

/-- One step of a run that meets the condition. -/
def SafeStep (s s' : RunState) : Prop :=
  ∃ e, Enabled F scan pruned s e ∧ MeetsCondition scan minFileSize s e ∧ s' = s.after e

/-- The start of a run. -/
def RunState.start (current : ℕ → PhysicalExpr) : RunState := { current := current, plans := [] }

end

/-! ### Two partitions at a time -/

/-- Groups of a list without repeated keys do not share a key. -/
theorem key_ne_of_nodup_flatten {α : Type} {key : α → String} {gs : List (List α)}
    (h : (gs.flatten.map key).Nodup) {i j : ℕ} (hij : i ≠ j) {x y : α} (hx : x ∈ gs[i]?.getD [])
    (hy : y ∈ gs[j]?.getD []) : key x ≠ key y := by
  rw [List.map_flatten] at h
  have hdisj := (List.nodup_flatten.mp h).2
  rw [List.pairwise_map] at hdisj
  -- it is enough to compare the groups in the order of their positions
  have hlt : ∀ {i j : ℕ} {x y : α}, i < j → x ∈ gs[i]?.getD [] → y ∈ gs[j]?.getD [] →
      key x ≠ key y := by
    intro i j x y hij hx hy heq
    by_cases hj : j < gs.length
    · have hi : i < gs.length := hij.trans hj
      rw [List.getElem?_eq_getElem hi, Option.getD_some] at hx
      rw [List.getElem?_eq_getElem hj, Option.getD_some] at hy
      have hd := List.pairwise_iff_getElem.mp hdisj i j hi hj hij
      refine hd (List.mem_map_of_mem hx) ?_
      rw [heq]
      exact List.mem_map_of_mem hy
    · rw [List.getElem?_eq_none (Nat.not_lt.mp hj)] at hy
      exact List.not_mem_nil hy
  rcases Nat.lt_or_gt_of_ne hij with h | h
  · exact hlt h hx hy
  · exact fun heq => hlt h hy hx heq.symm

/-- The partitions of one plan read different files. -/
theorem readPartition_disjoint {tasks : List FileScanTask} (h : (tasks.map FileScanTask.dataFilePath).Nodup)
    {n minFileSize p q : ℕ} (hpq : p ≠ q) {t t' : FileScanTask}
    (ht : t ∈ readPartition tasks p n minFileSize)
    (ht' : t' ∈ readPartition tasks q n minFileSize) : t.dataFilePath ≠ t'.dataFilePath := by
  refine key_ne_of_nodup_flatten ?_ hpq ht ht'
  have hperm := partitionFileScanTasks_perm tasks n (effectiveMinFileSize minFileSize)
  exact (hperm.map FileScanTask.dataFilePath).nodup_iff.mpr h

/-- Every task of a plan is read by one of its partitions. -/
theorem exists_readPartition {tasks : List FileScanTask} {t : FileScanTask} (ht : t ∈ tasks)
    {n : ℕ} (minFileSize : ℕ) (hn : 0 < n) : ∃ p < n, t ∈ readPartition tasks p n minFileSize := by
  have hperm := partitionFileScanTasks_perm tasks n (effectiveMinFileSize minFileSize)
  obtain ⟨g, hg, htg⟩ := List.mem_flatten.mp (hperm.mem_iff.mpr ht)
  obtain ⟨p, hp, hget⟩ := List.getElem_of_mem hg
  refine ⟨p, ?_, ?_⟩
  · rw [partitionFileScanTasks_length] at hp
    omega
  · rw [readPartition, List.getElem?_eq_getElem hp, hget]
    exact htg

/-- **Agreeing plans give a later partition the same files.** -/
theorem readPartition_eq_of_agrees {minFileSize : ℕ} {tasks tasks' : List FileScanTask}
    (h : Agrees minFileSize tasks tasks') {n p : ℕ} (hn : 1 < n) (hp : 0 < p) :
    readPartition tasks p n minFileSize = readPartition tasks' p n minFileSize := by
  have hsmall : totalBytes tasks < effectiveMinFileSize minFileSize →
      totalBytes tasks' < effectiveMinFileSize minFileSize →
      readPartition tasks p n minFileSize = readPartition tasks' p n minFileSize := by
    intro h₁ h₂
    rw [readPartition, readPartition, nth_of_small h₁ hp, nth_of_small h₂ hp]
  rcases h with hties | ⟨h₁, h₂⟩
  · by_cases hbig : effectiveMinFileSize minFileSize ≤ totalBytes tasks
    · rw [readPartition, readPartition, partitionFileScanTasks_congr hties hn hbig]
    · have hlt := Nat.lt_of_not_le hbig
      exact hsmall hlt (by rwa [← hties.totalBytes_eq])
  · exact hsmall h₁ h₂

theorem Agrees.symm {minFileSize : ℕ} {tasks tasks' : List FileScanTask}
    (h : Agrees minFileSize tasks tasks') : Agrees minFileSize tasks' tasks := by
  rcases h with h | ⟨h₁, h₂⟩
  · exact .inl h.symm
  · exact .inr ⟨h₂, h₁⟩

/-- Two partitions with agreeing plans read different files. -/
theorem readPartition_disjoint_of_agrees {minFileSize : ℕ} {tasks tasks' : List FileScanTask}
    (h : Agrees minFileSize tasks tasks') (hnd : (tasks.map FileScanTask.dataFilePath).Nodup)
    (hnd' : (tasks'.map FileScanTask.dataFilePath).Nodup) {n p q : ℕ} (hn : 1 < n) (hpq : p ≠ q)
    {t t' : FileScanTask} (ht : t ∈ readPartition tasks p n minFileSize)
    (ht' : t' ∈ readPartition tasks' q n minFileSize) : t.dataFilePath ≠ t'.dataFilePath := by
  -- one of the two is not partition 0; there the plans can be exchanged
  by_cases hq : 0 < q
  · rw [← readPartition_eq_of_agrees h hn hq] at ht'
    exact readPartition_disjoint hnd hpq ht ht'
  · rw [readPartition_eq_of_agrees h hn (show 0 < p by omega)] at ht
    exact readPartition_disjoint hnd' hpq ht ht'

/-! ### Whole runs -/

section

variable {F : Functions} {scan : IcebergTableScan} {minFileSize : ℕ}
  {pruned : Option Predicate → DataFile → Bool}

/-- Tightening the dynamic filters tightens the scan's condition. -/
theorem Satisfies.of_tighten {current current' : ℕ → PhysicalExpr}
    (h : ∀ (id : ℕ) (row : Row), (current' id).isTrue F (PhysicalExpr.rowCells row) →
      (current id).isTrue F (PhysicalExpr.rowCells row)) {row : Row}
    (hrow : Satisfies F scan current' row) : Satisfies F scan current row := by
  refine ⟨hrow.1, ?_⟩
  intro f hf
  have htrue := hrow.2 f hf
  cases hexpr : f.expr with
  | dynamicFilter id cs =>
      rw [hexpr] at htrue
      exact h id row htrue
  | _ =>
      rw [hexpr] at htrue
      exact htrue

/-- A row that satisfies the filters is not lost by their conversion. -/
theorem Satisfies.keeps {current : ℕ → PhysicalExpr} {row : Row}
    (hok : ∀ f ∈ scan.physicalFilters, lossesOk true (resolvePhysicalExpr current f.expr) = true)
    (hrow : Satisfies F scan current row) : scan.keeps current row := by
  refine (scan.keeps_iff current row).mpr ⟨hrow.1, ?_⟩
  intro f hf
  exact extract_complete (hok f hf) (hrow.2 f hf)

variable (F scan minFileSize) in
/-- What a run keeps. -/
structure RunInv (s : RunState) : Prop where
  bound : ∀ q ∈ s.plans, q.1 < scan.scanPartitions
  distinct : ∀ q ∈ s.plans, ∀ q' ∈ s.plans, q.1 = q'.1 → q = q'
  nodup : ∀ q ∈ s.plans, (q.2.map FileScanTask.dataFilePath).Nodup
  agree : ∀ q ∈ s.plans, ∀ q' ∈ s.plans, q.1 ≠ q'.1 → Agrees minFileSize q.2 q'.2
  covers : ∀ q ∈ s.plans, ∀ f ∈ scan.files, (∃ row ∈ f.rows, Satisfies F scan s.current row) →
    f.task ∈ q.2

theorem runInv_start (current : ℕ → PhysicalExpr) :
    RunInv F scan minFileSize (.start current) where
  bound _ hq := absurd hq List.not_mem_nil
  distinct _ hq := absurd hq List.not_mem_nil
  nodup _ hq := absurd hq List.not_mem_nil
  agree _ hq := absurd hq List.not_mem_nil
  covers _ hq := absurd hq List.not_mem_nil

/-- A plan lists no path twice. -/
theorem IsPlan.nodup {pred : Option Predicate} {tasks : List FileScanTask}
    (hpaths : (scan.files.map DataFile.filePath).Nodup) (h : IsPlan scan pruned pred tasks) :
    (tasks.map FileScanTask.dataFilePath).Nodup := by
  have hperm := h.map FileScanTask.dataFilePath
  rw [hperm.nodup_iff, List.map_map]
  exact (List.filter_sublist.map _).nodup hpaths

/-- A plan lists every file with a row that the predicate keeps. -/
theorem IsPlan.mem {pred : Option Predicate} {tasks : List FileScanTask}
    (hprune : ∀ (pred : Option Predicate) (f : DataFile), pruned pred f = true →
      ∀ row ∈ f.rows, ¬ optTrueOn pred row)
    (h : IsPlan scan pruned pred tasks) {f : DataFile} (hf : f ∈ scan.files) {row : Row}
    (hrow : row ∈ f.rows) (hkeep : optTrueOn pred row) : f.task ∈ tasks := by
  have hnot : pruned pred f = false := by
    cases hp : pruned pred f with
    | false => rfl
    | true => exact absurd hkeep (hprune pred f hp row hrow)
  refine h.mem_iff.mpr (List.mem_map_of_mem (List.mem_filter.mpr ⟨hf, ?_⟩))
  rw [hnot]
  rfl

/-- The invariant holds after a filter update. -/
theorem RunInv.tighten {s : RunState} (h : RunInv F scan minFileSize s)
    {current : ℕ → PhysicalExpr} (he : Enabled F scan pruned s (.tighten current)) :
    RunInv F scan minFileSize (s.after (.tighten current)) where
  bound := h.bound
  distinct := h.distinct
  nodup := h.nodup
  agree := h.agree
  covers q hq f hf := by
    rintro ⟨row, hrow, hsat⟩
    exact h.covers q hq f hf ⟨row, hrow, hsat.of_tighten he⟩

/-- The invariant holds after an execution that meets the condition. -/
theorem RunInv.execute (hpaths : (scan.files.map DataFile.filePath).Nodup)
    (hprune : ∀ (pred : Option Predicate) (f : DataFile), pruned pred f = true →
      ∀ row ∈ f.rows, ¬ optTrueOn pred row)
    {s : RunState} (h : RunInv F scan minFileSize s) {p : ℕ} {tasks : List FileScanTask}
    (he : Enabled F scan pruned s (.execute p tasks))
    (hc : MeetsCondition scan minFileSize s (.execute p tasks)) :
    RunInv F scan minFileSize (s.after (.execute p tasks)) := by
  obtain ⟨hp, hfresh, hplan⟩ := he
  obtain ⟨hok, hagree⟩ := hc
  constructor
  · intro q hq
    rcases List.mem_cons.mp hq with rfl | hq
    · exact hp
    · exact h.bound q hq
  · intro q hq q' hq' heq
    rcases List.mem_cons.mp hq with rfl | hq <;> rcases List.mem_cons.mp hq' with rfl | hq'
    · rfl
    · exact absurd heq.symm (hfresh q' hq')
    · exact absurd heq (hfresh q hq)
    · exact h.distinct q hq q' hq' heq
  · intro q hq
    rcases List.mem_cons.mp hq with rfl | hq
    · exact hplan.nodup hpaths
    · exact h.nodup q hq
  · intro q hq q' hq' hne
    rcases List.mem_cons.mp hq with rfl | hq <;> rcases List.mem_cons.mp hq' with rfl | hq'
    · exact absurd rfl hne
    · exact (hagree q' hq').symm
    · exact hagree q hq
    · exact h.agree q hq q' hq' hne
  · intro q hq f hf
    rintro ⟨row, hrow, hsat⟩
    rcases List.mem_cons.mp hq with rfl | hq
    · exact hplan.mem hprune hf hrow (hsat.keeps hok)
    · exact h.covers q hq f hf ⟨row, hrow, hsat⟩

/-- **The invariant gives exactly-once reading.** -/
theorem RunInv.exactlyOnce (hn : 0 < scan.scanPartitions) {s : RunState}
    (h : RunInv F scan minFileSize s) : ExactlyOnce F scan minFileSize s := by
  have hone : ∀ (p q : ℕ) (path : String), ReadBy scan minFileSize s p path →
      ReadBy scan minFileSize s q path → p = q := by
    rintro p q path ⟨tasks, hmem, t, ht, rfl⟩ ⟨tasks', hmem', t', ht', hpath⟩
    by_contra hpq
    have hp := h.bound _ hmem
    have hq := h.bound _ hmem'
    refine readPartition_disjoint_of_agrees (h.agree _ hmem _ hmem' hpq) (h.nodup _ hmem)
      (h.nodup _ hmem') (show 1 < scan.scanPartitions from ?_) hpq ht ht' hpath.symm
    simp only at hp hq
    omega
  refine ⟨hone, ?_⟩
  intro hall f hf hrow
  obtain ⟨tasks₀, hmem₀⟩ := hall 0 hn
  obtain ⟨j, hj, htask⟩ := exists_readPartition (h.covers _ hmem₀ f hf hrow) minFileSize hn
  have hread : ReadBy scan minFileSize s j f.filePath := by
    by_cases hj0 : j = 0
    · subst hj0
      exact ⟨tasks₀, hmem₀, f.task, htask, rfl⟩
    · -- partition `j` has a plan of its own, which gives it the same files
      obtain ⟨tasks, hmem⟩ := hall j hj
      have hagree := h.agree _ hmem₀ _ hmem (fun h0 => hj0 h0.symm)
      refine ⟨tasks, hmem, f.task, ?_, rfl⟩
      rwa [← readPartition_eq_of_agrees hagree (show 1 < scan.scanPartitions by omega)
        (show 0 < j by omega)]
  exact ⟨j, hread, fun q hq => hone q j f.filePath hq hread⟩

end

/-- A file of ten bytes with one row. -/
def smallFile (path : String) : DataFile where
  filePath := path
  fileSizeInBytes := 10
  recordCount := some 1
  rows := [rowAOne]

/-- A scan of two files of equal size over two partitions, without filters. -/
def twoFileScan : IcebergTableScan where
  table :=
    { uuid := 0
      currentSnapshotId := some 1
      snapshots := [⟨1, some "2", [smallFile "A", smallFile "B"]⟩] }
  snapshotId := none
  tableSchema := ["a"]
  projection := none
  predicates := none
  physicalFilters := []
  limit := none
  scanPartitions := 2

/-- Both partitions execute, with the given plans. -/
def bothExecuted (plan₀ plan₁ : List FileScanTask) : RunState where
  current := fun _ => .literal (.boolean (some true))
  plans := [(1, plan₁), (0, plan₀)]

end IcebergDb.Scan
