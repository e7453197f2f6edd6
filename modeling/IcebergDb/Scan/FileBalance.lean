import IcebergDb.Foundation.Greedy
import IcebergDb.Scan.FileGroups
import Mathlib.Algebra.Order.BigOperators.Group.List

/-!
# The balance of a scan's file groups

The greedy balancer of `file_groups.rs` with the `u64` sums it really adds, and how even its groups are.

* `partitionFileScanTasksU64` — `partition_file_scan_tasks`, whose sums wrap at `2 ^ 64`;
* `partitionFileScanTasksU64_eq` — below `2 ^ 64` in total no sum wraps, and it is
  `partitionFileScanTasks`;
* `Balanced` — no group outweighs another by more than the largest task, and none is idle while another
  has two tasks that weigh something;
* `partitionFileScanTasks_balanced` — **the groups of a large plan are balanced.**
-/

namespace IcebergDb.Scan

open IcebergDb.StableSort IcebergDb.Greedy

/-! ### Sums of machine words -/

/-- `u64` addition, as compiled without overflow checks. -/
def addU64 (a b : ℕ) : ℕ := (a + b) % 2 ^ 64

/-- One turn of the assignment loop. -/
def Groups.assignU64 (g : Groups) (task : FileScanTask) : Groups :=
  let idx := lightest g.groupBytes
  { groups := g.groups.modify idx (· ++ [task])
    groupBytes := g.groupBytes.modify idx fun b => addU64 b (taskBytes task) }

/-- `partition_file_scan_tasks`, on a 64-bit host. -/
def partitionFileScanTasksU64 (tasks : List FileScanTask) (targetPartitions minFileSize : ℕ) :
    List (List FileScanTask) :=
  let targetPartitions := max targetPartitions 1
  if tasks.isEmpty then List.replicate targetPartitions []
  else if targetPartitions = 1 then [tasks]
  else if (tasks.map taskBytes).foldl addU64 0 < minFileSize then
    (List.replicate targetPartitions []).set 0 tasks
  else ((sortDesc taskBytes tasks).foldl Groups.assignU64 (.empty targetPartitions)).groups

theorem addU64_eq {a b : ℕ} (h : a + b < 2 ^ 64) : addU64 a b = a + b := Nat.mod_eq_of_lt h

theorem foldl_addU64 (weights : List ℕ) : ∀ {acc : ℕ}, acc + weights.sum < 2 ^ 64 →
    weights.foldl addU64 acc = acc + weights.sum := by
  induction weights with
  | nil =>
      intro acc _
      simp
  | cons s weights ih =>
      intro acc h
      rw [List.sum_cons, ← Nat.add_assoc] at h
      have hs : acc + s < 2 ^ 64 := by omega
      rw [List.foldl_cons, addU64_eq hs, ih h, List.sum_cons, Nat.add_assoc]

/-- A turn of the loop adds the bytes of the task to the sum of the counts. -/
theorem Groups.sum_assign {g : Groups} (hne : g.groupBytes ≠ []) (task : FileScanTask) :
    (g.assign task).groupBytes.sum = g.groupBytes.sum + taskBytes task := by
  obtain ⟨l₁, a, l₂, hold, -, hnew⟩ :=
    List.exists_of_modify (· + taskBytes task) (lightest_lt hne)
  show (g.groupBytes.modify _ _).sum = _
  rw [hnew]
  conv_rhs => rw [hold]
  simp only [List.sum_append, List.sum_cons]
  omega

theorem Groups.assignU64_eq {g : Groups} {task : FileScanTask}
    (h : g.groupBytes.sum + taskBytes task < 2 ^ 64) : g.assignU64 task = g.assign task := by
  have hbytes : g.groupBytes.modify (lightest g.groupBytes) (fun b => addU64 b (taskBytes task)) =
      g.groupBytes.modify (lightest g.groupBytes) (· + taskBytes task) := by
    refine List.ext_getElem? fun j => ?_
    rw [List.getElem?_modify, List.getElem?_modify]
    cases hj : g.groupBytes[j]? with
    | none => rfl
    | some b =>
        have hle : b ≤ g.groupBytes.sum := List.le_sum_of_mem (List.mem_of_getElem? hj)
        have hb : addU64 b (taskBytes task) = b + taskBytes task := addU64_eq (by omega)
        show some (if _ then addU64 b (taskBytes task) else b) = some _
        rw [hb]
  exact congrArg (Groups.mk (g.groups.modify (lightest g.groupBytes) (· ++ [task]))) hbytes

/-- **The loop adds no two counts that overflow** as long as all tasks together do not. -/
theorem Groups.foldl_assignU64_eq (tasks : List FileScanTask) : ∀ {g : Groups}, g.groupBytes ≠ [] →
    g.groupBytes.sum + totalBytes tasks < 2 ^ 64 →
      tasks.foldl Groups.assignU64 g = tasks.foldl Groups.assign g := by
  induction tasks with
  | nil => exact fun _ _ => rfl
  | cons t tasks ih =>
      intro g hne h
      have htotal : totalBytes (t :: tasks) = taskBytes t + totalBytes tasks := by
        rw [totalBytes, List.map_cons, List.sum_cons, totalBytes]
      rw [htotal] at h
      have hstep : g.assignU64 t = g.assign t := Groups.assignU64_eq (by omega)
      have hne' : (g.assign t).groupBytes ≠ [] := by
        intro hnil
        have := congrArg List.length hnil
        rw [Groups.assign, List.length_modify] at this
        exact hne (List.length_eq_zero_iff.mp this)
      have hsum := g.sum_assign hne t
      rw [List.foldl_cons, List.foldl_cons, hstep]
      exact ih hne' (by omega)

/-- **Below `2 ^ 64` bytes in total, machine sums are exact.** -/
theorem partitionFileScanTasksU64_eq {tasks : List FileScanTask} (h : totalBytes tasks < 2 ^ 64)
    (n minFileSize : ℕ) :
    partitionFileScanTasksU64 tasks n minFileSize = partitionFileScanTasks tasks n minFileSize := by
  have htotal : (tasks.map taskBytes).foldl addU64 0 = totalBytes tasks := by
    rw [foldl_addU64 _ (by rw [Nat.zero_add]; exact h), Nat.zero_add, totalBytes]
  have hsorted : totalBytes (sortDesc taskBytes tasks) = totalBytes tasks :=
    ((sortDesc_perm taskBytes tasks).map taskBytes).sum_eq
  have hempty : ∀ k, (Groups.empty k).groupBytes.sum = 0 := by
    intro k
    simp [Groups.empty]
  have hne : (Groups.empty (max n 1)).groupBytes ≠ [] := by
    intro hnil
    have := congrArg List.length hnil
    simp only [Groups.empty, List.length_replicate, List.length_nil] at this
    omega
  have hloop := Groups.foldl_assignU64_eq (sortDesc taskBytes tasks) hne
    (by rw [hempty, hsorted, Nat.zero_add]; exact h)
  simp only [partitionFileScanTasksU64, partitionFileScanTasks, htotal, hloop]

/-! ### Balance -/

/-- The size of the largest task. -/
def largestTask (tasks : List FileScanTask) : ℕ := (tasks.map taskBytes).foldr max 0

/-- The tasks that weigh something. -/
def weighty (tasks : List FileScanTask) : List FileScanTask :=
  tasks.filter fun t => decide (0 < taskBytes t)

/-- No group outweighs another by more than `m`, and none is idle while another has two tasks that weigh
something. -/
structure Balanced (m : ℕ) (groups : List (List FileScanTask)) : Prop where
  spread : ∀ g ∈ groups, ∀ g' ∈ groups, totalBytes g ≤ totalBytes g' + m
  busy : ∀ g ∈ groups, ∀ g' ∈ groups, 2 ≤ (weighty g).length → g' ≠ []

theorem le_largestTask {tasks : List FileScanTask} {t : FileScanTask} (h : t ∈ tasks) :
    taskBytes t ≤ largestTask tasks := by
  induction tasks with
  | nil => exact absurd h List.not_mem_nil
  | cons u tasks ih =>
      rw [largestTask, List.map_cons, List.foldr_cons]
      rcases List.mem_cons.mp h with rfl | h
      · exact le_max_left _ _
      · exact (ih h).trans (le_max_right _ _)

/-- The lightest group is picked. -/
theorem picks_lightest : Picks lightest := by
  intro bytes hne
  have hlt := lightest_lt hne
  refine ⟨bytes[lightest bytes], List.getElem?_eq_getElem hlt, ?_⟩
  have hleast : (bytes.all fun b' => decide (bytes[lightest bytes] ≤ b')) = true :=
    List.findIdx_getElem (w := hlt)
  intro b hb
  exact of_decide_eq_true (List.all_eq_true.mp hleast b hb)

/-- The counts are the sizes of the groups, and where a group has two tasks that weigh something, none is
without weight. -/
structure Groups.Fair (g : Groups) (m : ℕ) : Prop where
  bytes : g.groupBytes = g.groups.map totalBytes
  spread : Spread m g.groupBytes
  busy : (∃ grp ∈ g.groups, 2 ≤ (weighty grp).length) → ∀ b ∈ g.groupBytes, 0 < b

theorem totalBytes_append (tasks : List FileScanTask) (t : FileScanTask) :
    totalBytes (tasks ++ [t]) = totalBytes tasks + taskBytes t := by
  rw [totalBytes, List.map_append, List.sum_append, totalBytes]
  simp

/-- A group with a task that weighs something weighs something. -/
theorem totalBytes_pos {tasks : List FileScanTask} (h : 0 < (weighty tasks).length) :
    0 < totalBytes tasks := by
  obtain ⟨t, ht⟩ := List.exists_mem_of_length_pos h
  obtain ⟨ht, hpos⟩ := List.mem_filter.mp ht
  have hle : taskBytes t ≤ totalBytes tasks :=
    List.le_sum_of_mem (List.mem_map_of_mem ht)
  exact lt_of_lt_of_le (of_decide_eq_true hpos) hle

theorem Groups.fair_empty (m n : ℕ) : (Groups.empty n).Fair m where
  bytes := by simp [Groups.empty, totalBytes]
  spread := spread_replicate (Nat.zero_le m) n 0
  busy := by
    rintro ⟨grp, hgrp, h⟩
    rw [List.eq_of_mem_replicate hgrp] at h
    exact absurd h (by decide)

/-- One turn of the loop. -/
theorem Groups.Fair.assign {g : Groups} {m : ℕ} (h : g.Fair m) {task : FileScanTask}
    (htask : taskBytes task ≤ m) : (g.assign task).Fair m where
  bytes := by
    show g.groupBytes.modify _ _ = (g.groups.modify _ _).map totalBytes
    refine List.ext_getElem? fun j => ?_
    rw [List.getElem?_modify, h.bytes, List.getElem?_map, List.getElem?_map, List.getElem?_modify]
    cases g.groups[j]? with
    | none => rfl
    | some grp =>
        show some (if _ then totalBytes grp + taskBytes task else totalBytes grp) =
          some (totalBytes (if _ then grp ++ [task] else grp))
        split
        · rw [totalBytes_append]
        · rfl
  spread := h.spread.place picks_lightest (Nat.zero_le _) htask
  busy := by
    rintro ⟨grp, hgrp, htwo⟩ b hb
    have hgrow : (∀ c ∈ g.groupBytes, 0 < c) → 0 < b := by
      intro hall
      rcases mem_modify hb with hb | ⟨c, hc, rfl⟩
      · exact hall b hb
      · exact Nat.add_pos_left (hall c (List.mem_of_getElem? hc)) _
    rcases mem_modify hgrp with hold | ⟨old, hold, rfl⟩
    · exact hgrow (h.busy ⟨grp, hold, htwo⟩)
    · by_cases hweight : 0 < (weighty old).length
      · -- the task went to a group that weighed something, so all did
        refine hgrow fun c hc => ?_
        have hne : g.groupBytes ≠ [] := List.ne_nil_of_mem hc
        obtain ⟨x, hx, hleast⟩ := picks_lightest g.groupBytes hne
        have hxold : x = totalBytes old := by
          have hmap := congrArg (·[lightest g.groupBytes]?) h.bytes
          simp only [List.getElem?_map, hold, hx, Option.map_some, Option.some.injEq] at hmap
          exact hmap
        exact lt_of_lt_of_le (hxold ▸ totalBytes_pos hweight) (hleast c hc)
      · have hone : (weighty (old ++ [task])).length ≤ 1 := by
          rw [weighty, List.filter_append, List.length_append]
          have hlast := List.length_filter_le (fun t => decide (0 < taskBytes t)) [task]
          have hold0 : (old.filter fun t => decide (0 < taskBytes t)).length = 0 :=
            Nat.eq_zero_of_not_pos hweight
          simp only [List.length_singleton] at hlast
          omega
        omega

/-- The whole loop. -/
theorem Groups.Fair.foldl_assign {m : ℕ} (tasks : List FileScanTask)
    (htasks : ∀ t ∈ tasks, taskBytes t ≤ m) :
    ∀ {g : Groups}, g.Fair m → (tasks.foldl Groups.assign g).Fair m := by
  induction tasks with
  | nil => exact fun h => h
  | cons t tasks ih =>
      intro g h
      exact ih (fun u hu => htasks u (List.mem_cons_of_mem t hu))
        (h.assign (htasks t List.mem_cons_self))

/-- Fair groups are balanced. -/
theorem Groups.Fair.balanced {g : Groups} {m : ℕ} (h : g.Fair m) : Balanced m g.groups where
  spread a ha b hb := by
    refine h.spread _ ?_ _ ?_ <;> rw [h.bytes]
    · exact List.mem_map_of_mem ha
    · exact List.mem_map_of_mem hb
  busy a ha b hb htwo hnil := by
    subst hnil
    have hzero : totalBytes [] ∈ g.groupBytes := by
      rw [h.bytes]
      exact List.mem_map_of_mem hb
    exact absurd (h.busy ⟨a, ha, htwo⟩ _ hzero) (by decide)

/-- One group is balanced. -/
theorem balanced_singleton (m : ℕ) (tasks : List FileScanTask) : Balanced m [tasks] where
  spread a ha b hb := by
    rw [List.mem_singleton.mp ha, List.mem_singleton.mp hb]
    exact Nat.le_add_right _ _
  busy a ha b hb htwo hnil := by
    rw [List.mem_singleton.mp ha, ← List.mem_singleton.mp hb, hnil] at htwo
    exact absurd htwo (by decide)

/-- **`partition_file_scan_tasks` is a balanced partition**: as many groups as partitions, every task in
one of them; all tasks in group 0 when they are below the minimum together, and balanced groups
otherwise. -/
theorem partitionFileScanTasks_balanced {tasks : List FileScanTask} (h : totalBytes tasks < 2 ^ 64)
    (n minFileSize : ℕ) :
    (partitionFileScanTasksU64 tasks n minFileSize).length = max 1 n ∧
      (partitionFileScanTasksU64 tasks n minFileSize).flatten.Perm tasks ∧
      (totalBytes tasks < minFileSize →
        partitionFileScanTasksU64 tasks n minFileSize = tasks :: List.replicate (max 1 n - 1) []) ∧
      (minFileSize ≤ totalBytes tasks →
        Balanced (largestTask tasks) (partitionFileScanTasksU64 tasks n minFileSize)) := by
  have hreplicate : ∀ l : List FileScanTask,
      (List.replicate (max n 1) []).set 0 l = l :: List.replicate (max n 1 - 1) [] := by
    intro l
    obtain ⟨k, hk⟩ : ∃ k, max n 1 = k + 1 := ⟨max n 1 - 1, by omega⟩
    rw [hk, List.replicate_succ, List.set_cons_zero, Nat.add_sub_cancel]
  rw [partitionFileScanTasksU64_eq h, max_comm 1 n]
  refine ⟨partitionFileScanTasks_length tasks n minFileSize,
    partitionFileScanTasks_perm tasks n minFileSize, ?_, ?_⟩
  · intro hsmall
    simp only [partitionFileScanTasks]
    split
    · rename_i hempty
      rw [List.isEmpty_iff.mp hempty, ← hreplicate]
      obtain ⟨k, hk⟩ : ∃ k, max n 1 = k + 1 := ⟨max n 1 - 1, by omega⟩
      rw [hk, List.replicate_succ, List.set_cons_zero]
    · split
      · rename_i hone
        rw [hone]
        rfl
      · exact hreplicate tasks
  · intro hbig
    simp only [partitionFileScanTasks]
    split
    · exact ((Groups.fair_empty (largestTask tasks) (max n 1)).balanced)
    · split
      · exact balanced_singleton _ tasks
      · rw [if_neg (Nat.not_lt.mpr hbig)]
        refine (Groups.Fair.foldl_assign _ ?_ (Groups.fair_empty _ _)).balanced
        intro t ht
        exact le_largestTask ((sortDesc_perm taskBytes tasks).subset ht)

/-- Three files of which one is listed without a length, for two partitions. -/
def threeFiles : List FileScanTask :=
  [⟨"a.parquet", 50, 50, none⟩, ⟨"b.parquet", 70, 0, none⟩, ⟨"c.parquet", 40, 40, none⟩]

theorem threeFiles_balanced : Balanced 70 (partitionFileScanTasksU64 threeFiles 2 0) := by
  have hbytes : totalBytes threeFiles < 2 ^ 64 := by decide
  obtain ⟨-, -, -, h⟩ := partitionFileScanTasks_balanced hbytes 2 0
  exact h (Nat.zero_le _)

end IcebergDb.Scan
