import IcebergDb.Foundation.StableSort
import IcebergDb.Scan.TableScan
import Mathlib.Data.List.Flatten
import Mathlib.Algebra.BigOperators.Group.List.Basic
import Mathlib.Algebra.GroupWithZero.Nat

/-!
# Splitting a scan's files across partitions

`file_groups.rs`: the greedy size balancer that assigns each planned file to one of the scan's
partitions.

* `partitionFileScanTasks_length` — there are exactly as many groups as partitions;
* `partitionFileScanTasks_perm` — every task is in exactly one group;
* `partitionFileScanTasks_congr` — two plans that list files of equal size alike are split alike;
* `nth_of_small` — a plan below the minimum size goes to partition 0 as a whole.

Byte counts are natural numbers: the sizes of the files of one table do not add up to `2 ^ 64`.
-/

namespace IcebergDb.Scan

open IcebergDb.StableSort

/-- `FileScanTask`, with the fields that planning fills in from the manifest entry. -/
structure FileScanTask where
  dataFilePath : String
  fileSizeInBytes : ℕ
  length : ℕ
  recordCount : Option ℕ
deriving DecidableEq

/-- The task that `plan_files` makes of a data file: the whole file. -/
def DataFile.task (f : DataFile) : FileScanTask where
  dataFilePath := f.filePath
  fileSizeInBytes := f.fileSizeInBytes
  length := f.fileSizeInBytes
  recordCount := f.recordCount

/-- `task_bytes`. -/
def taskBytes (t : FileScanTask) : ℕ :=
  if t.length > 0 then t.length else t.fileSizeInBytes

/-- `DEFAULT_REPARTITION_FILE_MIN_SIZE`. -/
def defaultRepartitionFileMinSize : ℕ := 10 * 1024 * 1024

/-- The planned byte volume. -/
def totalBytes (tasks : List FileScanTask) : ℕ := (tasks.map taskBytes).sum

/-- The lightest group, the first one among equals (`min_by_key` over the enumeration). -/
def lightest (groupBytes : List ℕ) : ℕ :=
  groupBytes.findIdx fun b => groupBytes.all fun b' => decide (b ≤ b')

/-- The groups under construction with their byte counts. -/
structure Groups where
  groups : List (List FileScanTask)
  groupBytes : List ℕ

/-- One turn of the assignment loop. -/
def Groups.assign (g : Groups) (task : FileScanTask) : Groups :=
  let idx := lightest g.groupBytes
  { groups := g.groups.modify idx (· ++ [task])
    groupBytes := g.groupBytes.modify idx (· + taskBytes task) }

/-- The empty groups. -/
def Groups.empty (n : ℕ) : Groups :=
  { groups := List.replicate n [], groupBytes := List.replicate n 0 }

/-- `partition_file_scan_tasks`. -/
def partitionFileScanTasks (tasks : List FileScanTask) (targetPartitions minFileSize : ℕ) :
    List (List FileScanTask) :=
  let targetPartitions := max targetPartitions 1
  if tasks.isEmpty then List.replicate targetPartitions []
  else if targetPartitions = 1 then [tasks]
  else if totalBytes tasks < minFileSize then
    (List.replicate targetPartitions []).set 0 tasks
  else ((sortDesc taskBytes tasks).foldl Groups.assign (.empty targetPartitions)).groups

/-! ### The assignment loop -/

theorem exists_least {l : List ℕ} (h : l ≠ []) : ∃ a ∈ l, ∀ b ∈ l, a ≤ b := by
  induction l with
  | nil => exact absurd rfl h
  | cons x xs ih =>
      by_cases hxs : xs = []
      · subst hxs
        refine ⟨x, List.mem_cons_self, ?_⟩
        intro b hb
        rw [List.mem_singleton.mp hb]
      · obtain ⟨a, ha, hmin⟩ := ih hxs
        by_cases hxa : x ≤ a
        · refine ⟨x, List.mem_cons_self, ?_⟩
          intro b hb
          rcases List.mem_cons.mp hb with rfl | hb
          · exact le_rfl
          · exact hxa.trans (hmin b hb)
        · refine ⟨a, List.mem_cons_of_mem x ha, ?_⟩
          intro b hb
          rcases List.mem_cons.mp hb with rfl | hb
          · omega
          · exact hmin b hb

/-- The lightest group exists. -/
theorem lightest_lt {bytes : List ℕ} (h : bytes ≠ []) : lightest bytes < bytes.length := by
  obtain ⟨a, ha, hmin⟩ := exists_least h
  refine List.findIdx_lt_length_of_exists ⟨a, ha, ?_⟩
  simpa using hmin

/-- Appending to one group adds one element to the whole. -/
theorem flatten_modify_perm {α : Type} (a : α) (gs : List (List α)) (i : ℕ) (hi : i < gs.length) :
    (gs.modify i (· ++ [a])).flatten.Perm (a :: gs.flatten) := by
  induction gs generalizing i with
  | nil => exact absurd hi (Nat.not_lt_zero i)
  | cons g gs ih =>
      cases i with
      | zero =>
          simp only [List.modify_zero_cons, List.flatten_cons, List.append_assoc,
            List.singleton_append]
          exact List.perm_middle
      | succ i =>
          simp only [List.modify_succ_cons, List.flatten_cons]
          have hrest := ih i (by simpa using hi)
          exact (hrest.append_left g).trans List.perm_middle

/-- What the loop keeps: `n` groups with `n` byte counts, holding the tasks seen so far. -/
structure Groups.Holds (g : Groups) (n : ℕ) (seen : List FileScanTask) : Prop where
  groups_length : g.groups.length = n
  bytes_length : g.groupBytes.length = n
  perm : g.groups.flatten.Perm seen

theorem Groups.empty_holds (n : ℕ) : (Groups.empty n).Holds n [] := by
  refine ⟨List.length_replicate, List.length_replicate, ?_⟩
  simp [Groups.empty]

/-- One turn of the loop. -/
theorem Groups.Holds.assign {g : Groups} {n : ℕ} {seen : List FileScanTask} (h : g.Holds n seen)
    (hn : 0 < n) (task : FileScanTask) : (g.assign task).Holds n (task :: seen) := by
  have hne : g.groupBytes ≠ [] := by
    intro hnil
    have := h.bytes_length
    rw [hnil] at this
    simp at this
    omega
  have hidx : lightest g.groupBytes < g.groups.length := by
    rw [h.groups_length, ← h.bytes_length]
    exact lightest_lt hne
  refine ⟨?_, ?_, ?_⟩
  · show (g.groups.modify _ _).length = n
    rw [List.length_modify, h.groups_length]
  · show (g.groupBytes.modify _ _).length = n
    rw [List.length_modify, h.bytes_length]
  · exact (flatten_modify_perm task g.groups _ hidx).trans (h.perm.cons task)

/-- The whole loop. -/
theorem Groups.Holds.foldl_assign {n : ℕ} (hn : 0 < n) (tasks : List FileScanTask) :
    ∀ {g : Groups} {seen : List FileScanTask}, g.Holds n seen →
      (tasks.foldl Groups.assign g).Holds n (tasks.reverse ++ seen) := by
  induction tasks with
  | nil =>
      intro g seen h
      exact h
  | cons t ts ih =>
      intro g seen h
      rw [List.foldl_cons, List.reverse_cons, List.append_assoc, List.singleton_append]
      exact ih (h.assign hn t)

/-! ### The groups as a whole -/

/-- **As many groups as partitions.** -/
theorem partitionFileScanTasks_length (tasks : List FileScanTask) (n minFileSize : ℕ) :
    (partitionFileScanTasks tasks n minFileSize).length = max n 1 := by
  simp only [partitionFileScanTasks]
  split
  · exact List.length_replicate
  · split
    · rename_i h1
      rw [h1]
      rfl
    · split
      · rw [List.length_set, List.length_replicate]
      · exact (Groups.Holds.foldl_assign (by omega) _ (Groups.empty_holds _)).groups_length

/-- **Every task is in exactly one group.** -/
theorem partitionFileScanTasks_perm (tasks : List FileScanTask) (n minFileSize : ℕ) :
    (partitionFileScanTasks tasks n minFileSize).flatten.Perm tasks := by
  simp only [partitionFileScanTasks]
  split
  · rename_i h
    rw [List.isEmpty_iff.mp h]
    simp
  · split
    · simp
    · split
      · obtain ⟨m, hm⟩ : ∃ m, max n 1 = m + 1 := ⟨max n 1 - 1, by omega⟩
        rw [hm, List.replicate_succ, List.set_cons_zero, List.flatten_cons]
        simp
      · have hloop := (Groups.Holds.foldl_assign (n := max n 1) (by omega) (sortDesc taskBytes tasks)
          (Groups.empty_holds _)).perm
        rw [List.append_nil] at hloop
        exact hloop.trans ((List.reverse_perm _).trans (sortDesc_perm taskBytes tasks))

/-- Two plans list the files of each size alike. -/
def SameTies (tasks tasks' : List FileScanTask) : Prop :=
  ∀ b, tasks.filter (fun t => taskBytes t = b) = tasks'.filter (fun t => taskBytes t = b)

theorem SameTies.symm {tasks tasks' : List FileScanTask} (h : SameTies tasks tasks') :
    SameTies tasks' tasks := fun b => (h b).symm

theorem SameTies.perm {tasks tasks' : List FileScanTask} (h : SameTies tasks tasks') :
    tasks.Perm tasks' := by
  have hsort := (sortDesc_eq_iff taskBytes tasks tasks').mpr h
  calc tasks.Perm (sortDesc taskBytes tasks) := (sortDesc_perm taskBytes tasks).symm
    _ = sortDesc taskBytes tasks' := hsort
    List.Perm _ tasks' := sortDesc_perm taskBytes tasks'

theorem SameTies.totalBytes_eq {tasks tasks' : List FileScanTask} (h : SameTies tasks tasks') :
    totalBytes tasks = totalBytes tasks' :=
  (h.perm.map taskBytes).sum_eq

/-- A plan of at least the minimum volume runs through the balancer, largest files first. -/
theorem partitionFileScanTasks_large {tasks : List FileScanTask} {n minFileSize : ℕ} (hn : 1 < n)
    (hne : tasks ≠ []) (hbig : minFileSize ≤ totalBytes tasks) :
    partitionFileScanTasks tasks n minFileSize =
      ((sortDesc taskBytes tasks).foldl Groups.assign (.empty (max n 1))).groups := by
  have hempty : ¬ tasks.isEmpty = true := fun h => hne (List.isEmpty_iff.mp h)
  have hmax : ¬ max n 1 = 1 := by omega
  simp only [partitionFileScanTasks]
  rw [if_neg hempty, if_neg hmax, if_neg (Nat.not_lt.mpr hbig)]

/-- **Plans that list files of equal size alike are split alike**, once there is something to
split. -/
theorem partitionFileScanTasks_congr {tasks tasks' : List FileScanTask} (h : SameTies tasks tasks')
    {n minFileSize : ℕ} (hn : 1 < n) (hbig : minFileSize ≤ totalBytes tasks) :
    partitionFileScanTasks tasks n minFileSize = partitionFileScanTasks tasks' n minFileSize := by
  by_cases hne : tasks = []
  · subst hne
    rw [List.nil_perm.mp h.perm]
  · have hne' : tasks' ≠ [] := by
      intro hnil
      subst hnil
      exact hne (List.perm_nil.mp h.perm)
    have hsort := (sortDesc_eq_iff taskBytes tasks tasks').mpr h
    have hbig' : minFileSize ≤ totalBytes tasks' := by
      rw [← h.totalBytes_eq]
      exact hbig
    rw [partitionFileScanTasks_large hn hne hbig, partitionFileScanTasks_large hn hne' hbig', hsort]

/-- **A plan below the minimum goes to partition 0**: the others get nothing. -/
theorem nth_of_small {tasks : List FileScanTask} {n minFileSize : ℕ}
    (hsmall : totalBytes tasks < minFileSize) {p : ℕ} (hp : 0 < p) :
    (partitionFileScanTasks tasks n minFileSize)[p]?.getD [] = [] := by
  have hreplicate : ∀ m : ℕ, ((List.replicate m ([] : List FileScanTask))[p]?).getD [] = [] := by
    intro m
    rw [List.getElem?_replicate]
    split <;> rfl
  simp only [partitionFileScanTasks]
  split
  · exact hreplicate _
  · split
    · rw [List.getElem?_eq_none (show [tasks].length ≤ p by simpa using Nat.succ_le_of_lt hp)]
      rfl
    · rw [List.getElem?_set_ne (by omega)]
      exact hreplicate _

end IcebergDb.Scan
