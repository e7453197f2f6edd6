import IcebergDb.Delete.PositionalDeletes
import IcebergDb.Foundation.ByteRange
import IcebergDb.Scan.PagePruning

/-!
# Reading a data file

`process_file_scan_task` combines everything that can keep rows of a Parquet file from being read: the byte
range of the task, the statistics of the row groups, the page index, positional deletes and the row filter,
which is that of the scan together with that of the equality deletes.

* `pick` — some of the row groups;
* `filterRowGroupsByByteRange`, `getSelectedRowGroupIndices`, `getRowSelectionForFilterPredicate` — the three
  decisions about row groups and pages;
* `processFileScanTask` — the read, over the record batch stream of the Parquet crate;
* `liveRows` — the rows of the byte range that pass the filters and are not deleted;
* `processFileScanTask_eq` — **the read yields the live rows, whatever is pruned**, and so does the one that
  prunes nothing;
* `countP_filterRowGroupsByByteRange` — which of the tasks of a split file read a row group;
* `liveRows_planned` — a planned task is about all rows of the file.
-/

namespace IcebergDb.Scan.Read

open IcebergDb.Expr IcebergDb.RunLength IcebergDb.Delete IcebergDb.Kleene IcebergDb.ByteRange

/-! ### Some of the row groups -/

section

variable {α β : Type}

/-- The row groups of the given indices, or all of them. -/
def pick (groups : List β) : Option (List ℕ) → List β
  | none => groups
  | some indices => indices.filterMap fun i => groups[i]?

/-- The rows a selection leaves. -/
def masked : Option RowSelection → List α → List α
  | none, l => l
  | some sel, l => mask (expand sel) l

theorem map_masked (f : α → β) (sel : Option RowSelection) (l : List α) :
    (masked sel l).map f = masked sel (l.map f) := by
  cases sel with
  | none => rfl
  | some sel => exact map_mask f (expand sel) l

theorem map_pick (f : α → β) (groups : List α) (indices : Option (List ℕ)) :
    (pick groups indices).map f = pick (groups.map f) indices := by
  cases indices with
  | none => rfl
  | some indices =>
      show (indices.filterMap fun i => groups[i]?).map f = indices.filterMap fun i => (groups.map f)[i]?
      rw [List.map_filterMap]
      simp only [List.getElem?_map]

theorem filterMap_range' (pre groups : List β) :
    (List.range' pre.length groups.length).filterMap (fun i => (pre ++ groups)[i]?) = groups := by
  induction groups generalizing pre with
  | nil => rfl
  | cons g groups ih =>
      have hhead : (pre ++ g :: groups)[pre.length]? = some g := by simp
      have htail := ih (pre ++ [g])
      rw [List.append_assoc, List.length_append] at htail
      rw [List.length_cons, List.range'_succ, List.filterMap_cons, hhead]
      exact congrArg (g :: ·) htail

theorem pick_range (groups : List β) : pick groups (some (List.range groups.length)) = groups := by
  rw [List.range_eq_range']
  exact filterMap_range' [] groups

/-- Row groups without a row that the test keeps may be left out. -/
theorem filter_pick {groups : List (List α)} {p : α → Bool} {good : ℕ → Bool}
    (hgood : ∀ i g, groups[i]? = some g → good i = false → g.filter p = []) (indices : List ℕ) :
    (pick groups (some (indices.filter good))).flatten.filter p =
      (pick groups (some indices)).flatten.filter p := by
  induction indices with
  | nil => rfl
  | cons i indices ih =>
      have hcons : ∀ is : List ℕ, (pick groups (some (i :: is))).flatten.filter p =
          (groups[i]?.toList.flatten).filter p ++ (pick groups (some is)).flatten.filter p := by
        intro is
        show ((i :: is).filterMap fun k => groups[k]?).flatten.filter p = _
        rw [List.filterMap_cons]
        cases groups[i]? with
        | none => rfl
        | some g =>
            show (g ++ _).filter p = ([g].flatten).filter p ++ _
            rw [List.filter_append, List.flatten_singleton]
            rfl
      rw [hcons indices, List.filter_cons]
      cases hi : good i with
      | true =>
          rw [if_pos rfl, hcons (indices.filter good), ih]
      | false =>
          rw [if_neg Bool.false_ne_true, ih]
          cases hg : groups[i]? with
          | none => rfl
          | some g =>
              show _ = ([g].flatten).filter p ++ _
              rw [List.flatten_singleton, hgood i g hg hi]
              rfl

/-- The rows of the row groups, with their positions in the file. -/
def numbered : ℕ → List (List α) → List (List (α × ℕ))
  | _, [] => []
  | base, rows :: groups => rows.zipIdx base :: numbered (base + rows.length) groups

theorem numbered_fst (base : ℕ) (groups : List (List α)) : (numbered base groups).map (List.map Prod.fst) = groups := by
  induction groups generalizing base with
  | nil => rfl
  | cons rows groups ih =>
      show (rows.zipIdx base).map Prod.fst :: (numbered (base + rows.length) groups).map (List.map Prod.fst) = _
      rw [ih, List.zipIdx_map_fst]

theorem numbered_snd (base : ℕ) (groups : List (List α)) :
    (numbered base groups).map (List.map Prod.snd) = groupRows base (groups.map List.length) := by
  induction groups generalizing base with
  | nil => rfl
  | cons rows groups ih =>
      show (rows.zipIdx base).map Prod.snd :: (numbered (base + rows.length) groups).map (List.map Prod.snd) = _
      rw [ih, List.zipIdx_map_snd]
      rfl

end

/-! ### The decisions about row groups and pages -/

/-- `ParquetMetaData`: the row groups, and for each of them the index of its columns if the file has one. -/
structure ParquetMetaData where
  rowGroups : List RowGroupMetaData
  columnIndex : Option (List (List ColumnIndexMetaData))
  offsetIndex : Option (List (List (List ℤ)))

/-- The loop of `filter_row_groups_by_byte_range`. -/
def byteRangeLoop (start stop : ℕ) : ℕ → ℕ → List RowGroupMetaData → List ℕ
  | _, _, [] => []
  | idx, offset, g :: groups =>
      let next := offset + g.compressedSize
      if offset < stop ∧ start < next then idx :: byteRangeLoop start stop (idx + 1) next groups
      else byteRangeLoop start stop (idx + 1) next groups

/-- `filter_row_groups_by_byte_range`: the row groups follow the four bytes of the magic number. -/
def filterRowGroupsByByteRange (m : ParquetMetaData) (start length : ℕ) : List ℕ :=
  byteRangeLoop start (start + length) 0 4 m.rowGroups

section

variable (utf8 : Bytes → Option String) (ops : RowSelectionOps) (fieldId : FieldRef → ℤ)
  (fieldIdMap : ℤ → Option ℕ) (predicate : BoundPredicate)

/-- The loop of `get_selected_row_group_indices`. -/
def rowGroupLoop : ℕ → List RowGroupMetaData → Except VisitError (List ℕ)
  | _, [] => .ok []
  | idx, g :: groups =>
      match rowGroupMetricsEval fieldId utf8 fieldIdMap predicate g with
      | .error e => .error e
      | .ok true => (rowGroupLoop (idx + 1) groups).map (idx :: ·)
      | .ok false => rowGroupLoop (idx + 1) groups

/-- `get_selected_row_group_indices`. -/
def getSelectedRowGroupIndices (m : ParquetMetaData) : Except VisitError (List ℕ) :=
  rowGroupLoop utf8 fieldId fieldIdMap predicate 0 m.rowGroups

/-- The index of a row group with its metadata. -/
abbrev IndexedRowGroup := (List ColumnIndexMetaData × List (List ℤ)) × RowGroupMetaData

/-- `PageIndexEvaluator::eval` on a row group. -/
def pageSelection (g : IndexedRowGroup) : Except VisitError RowSelection :=
  pageIndexEval utf8 ops fieldId fieldIdMap ⟨g.2.numRows, g.1.1, g.1.2⟩ predicate

/-- The loop of `get_row_selection_for_filter_predicate`, with the selected indices that are still to come; it
ends after the last of them. -/
def pageSelectionLoop : Option (List ℕ) → ℕ → List IndexedRowGroup → Except VisitError (List RowSelection)
  | _, _, [] => .ok []
  | none, idx, g :: groups =>
      match pageSelection utf8 ops fieldId fieldIdMap predicate g with
      | .error e => .error e
      | .ok sel => (pageSelectionLoop none (idx + 1) groups).map (sel :: ·)
  | some [], _, _ :: _ => .ok []
  | some (wanted :: rest), idx, g :: groups =>
      if idx = wanted then
        match pageSelection utf8 ops fieldId fieldIdMap predicate g with
        | .error e => .error e
        | .ok sel => (pageSelectionLoop (some rest) (idx + 1) groups).map (sel :: ·)
      else pageSelectionLoop (some (wanted :: rest)) (idx + 1) groups

/-- `get_row_selection_for_filter_predicate`. -/
def getRowSelectionForFilterPredicate (m : ParquetMetaData) (selected : Option (List ℕ)) :
    Except VisitError RowSelection :=
  match m.columnIndex with
  | none => .error (.unexpected "Parquet file metadata does not contain a column index")
  | some columnIndex =>
      match m.offsetIndex with
      | none => .error (.unexpected "Parquet file metadata does not contain an offset index")
      | some offsetIndex =>
          if selected = some [] then .ok (ops.ofSelectors [])
          else (pageSelectionLoop utf8 ops fieldId fieldIdMap predicate selected 0
            ((columnIndex.zip offsetIndex).zip m.rowGroups)).map fun sels => ops.ofSelectors sels.flatten

end

/-! ### The read -/

/-- The record batch stream of the Parquet crate, on the rows of the row groups: some row groups, a selection
of their rows, a filter. -/
structure BatchStreamBuilder where
  stream : List (List Row) → Option (List ℕ) → Option RowSelection → Option (Row → Bool) → List Row

/-- What the stream yields. -/
structure BatchStreamBuilder.Lawful (builder : BatchStreamBuilder) : Prop where
  stream : ∀ groups indices sel filter, builder.stream groups indices sel filter =
    (masked sel (pick groups indices).flatten).filter fun row => filter.all (· row)

/-- How a read fails. -/
inductive ReadError where
  | visit (e : VisitError)
  | filter (e : FilterError)
  /-- `build_deletes_row_selection` does not end. -/
  | endless

/-- What a `FileScanTask` and its delete filter say about the rows. -/
structure FileScanTask where
  start : ℕ
  length : ℕ
  predicate : Option BoundPredicate
  deletePredicate : Option BoundPredicate
  deleteVector : Option DeleteVector

/-- The switches of `ArrowReader`. -/
structure ReadOptions where
  rowGroupFilteringEnabled : Bool
  rowSelectionEnabled : Bool

/-- `final_predicate`. -/
def FileScanTask.finalPredicate (task : FileScanTask) : Option BoundPredicate :=
  match task.predicate, task.deletePredicate with
  | none, none => none
  | some p, none => some p
  | none, some p => some p
  | some p, some q => some (p.and q)

/-- `get_row_filter`: whether the filter can be built does not depend on a row. -/
def getRowFilter (present : String → Bool) (p : BoundPredicate) : Except FilterError (Row → Bool) :=
  (p.rowFilter present fun _ => none).map fun _ => p.keeps present

/-- `task.start != 0 || task.length != 0`. -/
def FileScanTask.byteRange (task : FileScanTask) (m : ParquetMetaData) : Option (List ℕ) :=
  if task.start ≠ 0 ∨ task.length ≠ 0 then some (filterRowGroupsByByteRange m task.start task.length) else none

section

variable (utf8 : Bytes → Option String) (ops : RowSelectionOps) (fieldId : FieldRef → ℤ)
  (fieldIdMap : ℤ → Option ℕ) (builder : BatchStreamBuilder) (m : ParquetMetaData)

/-- The row groups that are left: the statistics narrow the byte range down. -/
def selectRowGroups (enabled : Bool) (p : BoundPredicate) (byteRange : Option (List ℕ)) :
    Except ReadError (Option (List ℕ)) :=
  if enabled then
    match getSelectedRowGroupIndices utf8 fieldId fieldIdMap p m with
    | .error e => .error (.visit e)
    | .ok filtered =>
        match byteRange with
        | some indices => .ok (some (indices.filter (filtered.contains ·)))
        | none => .ok (some filtered)
  else .ok byteRange

/-- The selection of pages; an error of the kind `Unexpected` means that nothing is left out. -/
def selectPages (enabled : Bool) (p : BoundPredicate) (selected : Option (List ℕ)) :
    Except ReadError (Option RowSelection) :=
  if enabled then
    match getRowSelectionForFilterPredicate utf8 ops fieldId fieldIdMap p m selected with
    | .ok sel => .ok (some sel)
    | .error (.unexpected _) => .ok none
    | .error e => .error (.visit e)
  else .ok none

/-- What is done once the row groups, the pages and the row filter are known: the deletes, then the stream. -/
def openStream (task : FileScanTask) (data : List (List Row)) (selected : Option (List ℕ))
    (sel : Option RowSelection) (filter : Option (Row → Bool)) : Except ReadError (List Row) :=
  match task.deleteVector with
  | none => .ok (builder.stream data selected sel filter)
  | some v =>
      match buildDeletesRowSelection (m.rowGroups.map RowGroupMetaData.numRows) selected v with
      | none => .error .endless
      | some deletes =>
          let deletes := ops.ofSelectors deletes
          let sel := match sel with
            | none => deletes
            | some sel => ops.intersection sel deletes
          .ok (builder.stream data selected (some sel) filter)

/-- `process_file_scan_task`, on a file with this metadata and these rows. -/
def processFileScanTask (present : String → Bool) (options : ReadOptions) (task : FileScanTask)
    (data : List (List Row)) : Except ReadError (List Row) :=
  match task.finalPredicate with
  | none => openStream ops builder m task data (task.byteRange m) none none
  | some p =>
      match getRowFilter present p with
      | .error e => .error (.filter e)
      | .ok filter =>
          match selectRowGroups utf8 fieldId fieldIdMap m options.rowGroupFilteringEnabled p
              (task.byteRange m) with
          | .error e => .error e
          | .ok selected =>
              match selectPages utf8 ops fieldId fieldIdMap m options.rowSelectionEnabled p selected with
              | .error e => .error e
              | .ok sel => openStream ops builder m task data selected sel (some filter)

end

/-! ### The rows of a task -/

/-- The two predicates of a task. -/
def FileScanTask.predicates (task : FileScanTask) : List BoundPredicate :=
  task.predicate.toList ++ task.deletePredicate.toList

/-- The row is not deleted. -/
def FileScanTask.notDeleted (task : FileScanTask) (position : ℕ) : Bool := task.deleteVector.all (·.keeps position)

/-- The rows of the byte range that pass the predicates and are not deleted, in the order of the file. -/
def liveRows (present : String → Bool) (m : ParquetMetaData) (task : FileScanTask) (data : List (List Row)) :
    List Row :=
  ((pick (numbered 0 data) (task.byteRange m)).flatten.filter fun x =>
    (task.predicates.all fun p => p.keeps present x.1) && task.notDeleted x.2).map Prod.fst

/-! ### The connectives of the final predicate -/

section

variable {present : String → Bool} {p q : BoundPredicate}

/-- A row passes a conjunction if it passes both. -/
theorem keeps_and (row : Row) : (p.and q).keeps present row = (p.keeps present row && q.keeps present row) := by
  have hfalse : BoundPredicate.alwaysFalse.keeps present row = false := rfl
  have htrue : BoundPredicate.alwaysTrue.keeps present row = true := rfl
  fun_cases BoundPredicate.and p q with
  | case1 p => rw [hfalse, Bool.and_false]
  | case2 q => rw [hfalse, Bool.false_and]
  | case3 p => rw [htrue, Bool.and_true]
  | case4 q => rw [htrue, Bool.true_and]
  | case5 p q =>
      rw [Bool.eq_iff_iff, Bool.and_eq_true, BoundPredicate.keeps_iff, BoundPredicate.keeps_iff,
        BoundPredicate.keeps_iff]
      constructor
      · exact (passes_satisfies present row).and p q
      · rintro ⟨hp, hq⟩
        show filterBoth kand (p.rowFilter present row) (q.rowFilter present row) = .ok (some true)
        rw [hp, hq]
        rfl

end

section

variable {ops : RowSelectionOps} {builder : BatchStreamBuilder} {m : ParquetMetaData} {task : FileScanTask}
  {data : List (List Row)} {selected : Option (List ℕ)} {sel : Option RowSelection}
  {filter : Option (Row → Bool)}

/-- The positions of the rows that are looked at. -/
theorem map_snd_pick (hrows : m.rowGroups.map RowGroupMetaData.numRows = data.map List.length) :
    ((pick (numbered 0 data) selected).flatten).map Prod.snd =
      selectedRows (m.rowGroups.map RowGroupMetaData.numRows) selected := by
  rw [List.map_flatten, map_pick, numbered_snd, hrows]
  cases selected <;> rfl

theorem map_fst_pick : ((pick (numbered 0 data) selected).flatten).map Prod.fst = (pick data selected).flatten := by
  rw [List.map_flatten, map_pick, numbered_fst]

/-- **What the stream yields**: the rows of the row groups that the row filter keeps and that are not
deleted, as long as the selection of pages loses none of those. -/
theorem openStream_eq (hops : ops.Lawful) (hbuilder : builder.Lawful)
    (hrows : m.rowGroups.map RowGroupMetaData.numRows = data.map List.length)
    (hsmall : (data.map List.length).sum < 2 ^ 32) (hsorted : ∀ wanted ∈ selected, wanted.Pairwise (· < ·))
    (hsel : ∀ s ∈ sel, Retains (fun row => filter.all (· row)) (expand s) (pick data selected).flatten) :
    openStream ops builder m task data selected sel filter =
      .ok (((pick (numbered 0 data) selected).flatten.filter fun x =>
        filter.all (· x.1) && task.notDeleted x.2).map Prod.fst) := by
  have hfst : (pick (numbered 0 data) selected).flatten.map Prod.fst = _ := map_fst_pick
  have hsnd : (pick (numbered 0 data) selected).flatten.map Prod.snd = _ := map_snd_pick hrows
  generalize (pick (numbered 0 data) selected).flatten = rows at hfst hsnd ⊢
  -- The stream, for a selection of rows that were not deleted.
  have hstream : ∀ sel' : Option RowSelection, (masked sel' rows).filter (fun x => filter.all (· x.1)) =
      rows.filter (fun x => filter.all (· x.1) && task.notDeleted x.2) →
      builder.stream data selected sel' filter =
        (rows.filter fun x => filter.all (· x.1) && task.notDeleted x.2).map Prod.fst := by
    intro sel' hsel'
    rw [hbuilder.stream, ← hfst, ← map_masked, List.filter_map, ← hsel']
    rfl
  have hretains : ∀ s ∈ sel, Retains (fun x : Row × ℕ => filter.all (· x.1)) (expand s) rows := by
    intro s hs
    have := hsel s hs
    rw [← hfst] at this
    exact this.of_map
  unfold openStream
  cases hv : task.deleteVector with
  | none =>
      have hkept : ∀ position, task.notDeleted position = true := by
        intro position
        rw [FileScanTask.notDeleted, hv]
        rfl
      refine congrArg Except.ok (hstream sel ?_)
      simp only [hkept, Bool.and_true]
      cases sel with
      | none => rfl
      | some s => exact (hretains s rfl).filter_mask
  | some v =>
      have hkept : ∀ position, task.notDeleted position = v.keeps position := by
        intro position
        rw [FileScanTask.notDeleted, hv]
        rfl
      obtain ⟨deletes, hdeletes, hexpand⟩ := expand_buildDeletesRowSelection v
        (m.rowGroups.map RowGroupMetaData.numRows) selected hsorted (.inr (by rw [hrows]; exact hsmall))
      rw [← hsnd, List.map_map, ← hops.ofSelectors] at hexpand
      show (match buildDeletesRowSelection (m.rowGroups.map RowGroupMetaData.numRows) selected v with
        | none => _
        | some deletes => _) = _
      rw [hdeletes]
      refine congrArg Except.ok (hstream _ ?_)
      simp only [hkept]
      cases sel with
      | none =>
          show (mask (expand (ops.ofSelectors deletes)) rows).filter _ = _
          rw [hexpand, mask_map, List.filter_filter]
          rfl
      | some s =>
          have hs := hretains s rfl
          have hlen : (expand s).length = (expand (ops.ofSelectors deletes)).length := by
            rw [hexpand, List.length_map, hs.length]
          show (mask (expand (ops.intersection s (ops.ofSelectors deletes))) rows).filter _ = _
          rw [hops.intersection _ _ hlen, hexpand, mask_meet_map _ hs.length, List.filter_comm, hs.filter_mask,
            List.filter_filter]
          exact List.filter_congr fun x _ => Bool.and_comm _ _

end

/-! ### What the three decisions leave -/

section

theorem byteRangeLoop_spec (start stop idx offset : ℕ) (groups : List RowGroupMetaData) :
    (byteRangeLoop start stop idx offset groups).Pairwise (· < ·) ∧
      ∀ i ∈ byteRangeLoop start stop idx offset groups, idx ≤ i := by
  induction groups generalizing idx offset with
  | nil => exact ⟨.nil, fun i hi => by cases hi⟩
  | cons g groups ih =>
      obtain ⟨hsorted, hge⟩ := ih (idx + 1) (offset + g.compressedSize)
      have hcons : byteRangeLoop start stop idx offset (g :: groups) =
          if offset < stop ∧ start < offset + g.compressedSize then
            idx :: byteRangeLoop start stop (idx + 1) (offset + g.compressedSize) groups
          else byteRangeLoop start stop (idx + 1) (offset + g.compressedSize) groups := rfl
      rw [hcons]
      split
      · refine ⟨List.pairwise_cons.mpr ⟨fun i hi => hge i hi, hsorted⟩, ?_⟩
        intro i hi
        rcases List.mem_cons.mp hi with rfl | hi
        · exact le_rfl
        · exact (Nat.le_succ idx).trans (hge i hi)
      · exact ⟨hsorted, fun i hi => (Nat.le_succ idx).trans (hge i hi)⟩

/-- The row groups of a byte range, in order. -/
theorem byteRange_sorted (m : ParquetMetaData) (task : FileScanTask) :
    ∀ wanted ∈ task.byteRange m, wanted.Pairwise (· < ·) := by
  intro wanted hwanted
  unfold FileScanTask.byteRange at hwanted
  split at hwanted
  · cases hwanted
    exact (byteRangeLoop_spec _ _ _ _ _).1
  · cases hwanted

variable {utf8 : Bytes → Option String} {ops : RowSelectionOps} {fieldId : FieldRef → ℤ}
  {fieldIdMap : ℤ → Option ℕ} {p : BoundPredicate}

/-- The row groups that the statistics leave are those for which the evaluator said so. -/
theorem rowGroupLoop_spec {idx : ℕ} {groups : List RowGroupMetaData} {is : List ℕ}
    (h : rowGroupLoop utf8 fieldId fieldIdMap p idx groups = .ok is) :
    ∃ good : ℕ → Bool, is = (List.range' idx groups.length).filter good ∧
      ∀ k g, groups[k]? = some g → rowGroupMetricsEval fieldId utf8 fieldIdMap p g = .ok (good (idx + k)) := by
  induction groups generalizing idx is with
  | nil =>
      cases h
      exact ⟨fun _ => true, rfl, fun k g hg => by cases hg⟩
  | cons g groups ih =>
      have hrest : ∃ b rest, rowGroupMetricsEval fieldId utf8 fieldIdMap p g = .ok b ∧
          rowGroupLoop utf8 fieldId fieldIdMap p (idx + 1) groups = .ok rest ∧
          is = if b then idx :: rest else rest := by
        unfold rowGroupLoop at h
        split at h
        · cases h
        · cases hloop : rowGroupLoop utf8 fieldId fieldIdMap p (idx + 1) groups with
          | error e =>
              rw [hloop] at h
              cases h
          | ok rest =>
              rw [hloop] at h
              exact ⟨true, rest, ‹_›, rfl, (Except.ok.inj h).symm⟩
        · exact ⟨false, is, ‹_›, h, rfl⟩
      obtain ⟨b, rest, heval, hloop, rfl⟩ := hrest
      obtain ⟨good, rfl, hgood⟩ := ih hloop
      refine ⟨fun i => if i = idx then b else good i, ?_, ?_⟩
      · have hcongr : (List.range' (idx + 1) groups.length).filter (fun i => if i = idx then b else good i) =
            (List.range' (idx + 1) groups.length).filter good := by
          refine List.filter_congr fun i hi => ?_
          obtain ⟨k, -, rfl⟩ := List.mem_range'.mp hi
          rw [if_neg (by omega)]
        rw [List.length_cons, List.range'_succ, List.filter_cons, hcongr, if_pos rfl]
      · intro k g' hg
        cases k with
        | zero =>
            cases hg
            show _ = Except.ok (if idx = idx then b else good idx)
            rw [if_pos rfl]
            exact heval
        | succ k =>
            show _ = Except.ok (if idx + (k + 1) = idx then b else good (idx + (k + 1)))
            rw [if_neg (by omega), hgood k g' hg, Nat.add_right_comm, Nat.add_assoc]

/-- **The selections of the row groups that are left**, one after the other. -/
theorem pageSelectionLoop_some {keep : Row → Bool} {wanted : List ℕ} {idx : ℕ} {groups : List IndexedRowGroup}
    {data : List (List Row)} {sels : List RowSelection} (hlen : groups.length = data.length)
    (hgroup : ∀ (k : ℕ) g rows, groups[k]? = some g → data[k]? = some rows → ∀ sel,
      pageSelection utf8 ops fieldId fieldIdMap p g = .ok sel → Retains keep (expand sel) rows)
    (hsorted : wanted.Pairwise (· < ·)) (hge : ∀ i ∈ wanted, idx ≤ i)
    (h : pageSelectionLoop utf8 ops fieldId fieldIdMap p (some wanted) idx groups = .ok sels) :
    Retains keep (expand sels.flatten) (wanted.filterMap fun i => data[i - idx]?).flatten := by
  induction groups generalizing idx wanted data sels with
  | nil =>
      obtain rfl := List.length_eq_zero_iff.mp hlen.symm
      have hnone : wanted.filterMap (fun i => ([] : List (List Row))[i - idx]?) = [] :=
        List.filterMap_eq_nil_iff.mpr fun _ _ => rfl
      cases wanted <;> cases h <;> (rw [hnone]; exact Retains.nil _)
  | cons g groups ih =>
      cases data with
      | nil => cases hlen
      | cons rows data =>
          have htail : ∀ rest : List ℕ, (∀ i ∈ rest, idx + 1 ≤ i) →
              rest.filterMap (fun i => (rows :: data)[i - idx]?) =
                rest.filterMap fun i => data[i - (idx + 1)]? := by
            intro rest hrest
            refine List.filterMap_congr fun i hi => ?_
            have hi := hrest i hi
            rw [show i - idx = i - (idx + 1) + 1 by omega, List.getElem?_cons_succ]
          have hrec := fun (k : ℕ) g' rows' (hg : groups[k]? = some g') (hr : data[k]? = some rows') =>
            hgroup (k + 1) g' rows' hg hr
          cases wanted with
          | nil =>
              cases h
              exact Retains.nil _
          | cons w rest =>
              obtain ⟨hw, hrest⟩ := List.pairwise_cons.mp hsorted
              unfold pageSelectionLoop at h
              split at h
              · rename_i hidx
                subst hidx
                split at h
                · cases h
                · rename_i sel hsel
                  cases hloop : pageSelectionLoop utf8 ops fieldId fieldIdMap p (some rest) (idx + 1) groups with
                  | error e =>
                      rw [hloop] at h
                      cases h
                  | ok rest' =>
                      rw [hloop] at h
                      cases h
                      have hlater := ih (Nat.succ.inj hlen) hrec hrest hw hloop
                      rw [List.filterMap_cons, Nat.sub_self, htail rest hw]
                      rw [List.flatten_cons, expand_append]
                      exact (hgroup 0 g rows rfl rfl sel hsel).append hlater
              · rename_i hidx
                have hwge : idx + 1 ≤ w := by
                  have := hge w List.mem_cons_self
                  omega
                have hall : ∀ i ∈ w :: rest, idx + 1 ≤ i := by
                  intro i hi
                  rcases List.mem_cons.mp hi with rfl | hi
                  · exact hwge
                  · exact hwge.trans (hw i hi).le
                rw [htail _ hall]
                exact ih (Nat.succ.inj hlen) hrec hsorted hall h

theorem pageSelectionLoop_none {keep : Row → Bool} {idx : ℕ} {groups : List IndexedRowGroup}
    {data : List (List Row)} {sels : List RowSelection} (hlen : groups.length = data.length)
    (hgroup : ∀ (k : ℕ) g rows, groups[k]? = some g → data[k]? = some rows → ∀ sel,
      pageSelection utf8 ops fieldId fieldIdMap p g = .ok sel → Retains keep (expand sel) rows)
    (h : pageSelectionLoop utf8 ops fieldId fieldIdMap p none idx groups = .ok sels) :
    Retains keep (expand sels.flatten) data.flatten := by
  induction groups generalizing idx data sels with
  | nil =>
      obtain rfl := List.length_eq_zero_iff.mp hlen.symm
      cases h
      exact Retains.nil _
  | cons g groups ih =>
      cases data with
      | nil => cases hlen
      | cons rows data =>
          unfold pageSelectionLoop at h
          split at h
          · cases h
          · rename_i sel hsel
            cases hloop : pageSelectionLoop utf8 ops fieldId fieldIdMap p none (idx + 1) groups with
            | error e =>
                rw [hloop] at h
                cases h
            | ok rest =>
                rw [hloop] at h
                cases h
                have hlater := ih (Nat.succ.inj hlen) (fun k g' rows' hg hr => hgroup (k + 1) g' rows' hg hr) hloop
                rw [List.flatten_cons, List.flatten_cons, expand_append]
                exact (hgroup 0 g rows rfl rfl sel hsel).append hlater

end

/-! ### Metadata that fits the rows -/

section

variable (utf8 : Bytes → Option String) (fieldId : FieldRef → ℤ) (fieldIdMap : ℤ → Option ℕ)
  (present : String → Bool)

/-- The metadata counts the rows, and an index of pages is one for every row group. -/
structure ParquetMetaData.Counts (m : ParquetMetaData) (data : List (List Row)) : Prop where
  numRows : m.rowGroups.map RowGroupMetaData.numRows = data.map List.length
  columnIndex : ∀ l, m.columnIndex = some l → l.length = data.length
  offsetIndex : ∀ l, m.offsetIndex = some l → l.length = data.length

/-- The statistics and the page index describe a field of the rows. -/
structure ParquetMetaData.DescribesField (m : ParquetMetaData) (data : List (List Row)) (r : FieldRef) : Prop where
  mapped : fieldIdMap (fieldId r) = none ↔ present r.field.name = false
  statistics : present r.field.name = true → ∀ (i : ℕ) g rows, m.rowGroups[i]? = some g →
    data[i]? = some rows → (g.column fieldId utf8 fieldIdMap r).Describes (rows.map fun row => row r.field.name)
  pages : ∀ columns offsets, m.columnIndex = some columns → m.offsetIndex = some offsets →
    ∀ (i : ℕ) g rows, ((columns.zip offsets).zip m.rowGroups)[i]? = some g → data[i]? = some rows →
      PageIndex.DescribesField utf8 fieldId fieldIdMap ⟨g.2.numRows, g.1.1, g.1.2⟩ present rows r

/-- A predicate on which the file may be pruned. -/
structure Prunable (m : ParquetMetaData) (data : List (List Row)) (p : BoundPredicate) : Prop where
  notFree : p.NotFree
  typed : p.Typed
  asksNoNan : AsksNoNan p
  fields : ∀ r ∈ p.fields, m.DescribesField utf8 fieldId fieldIdMap present data r
  nanFree : ∀ rows ∈ data, ∀ row ∈ rows, NanFree present row p

variable {utf8 fieldId fieldIdMap present} {m : ParquetMetaData} {data : List (List Row)} {p q : BoundPredicate}

theorem Prunable.and (hp : Prunable utf8 fieldId fieldIdMap present m data p)
    (hq : Prunable utf8 fieldId fieldIdMap present m data q) :
    Prunable utf8 fieldId fieldIdMap present m data (p.and q) := by
  fun_cases BoundPredicate.and p q with
  | case1 p => exact hq
  | case2 q => exact hp
  | case3 p => exact hp
  | case4 q => exact hq
  | case5 p q =>
      refine ⟨⟨hp.notFree, hq.notFree⟩, ⟨hp.typed, hq.typed⟩, ?_, ?_, ?_⟩
      · intro r hr
        exact (List.mem_append.mp hr).elim (hp.asksNoNan r) (hq.asksNoNan r)
      · intro r hr
        exact (List.mem_append.mp hr).elim (hp.fields r) (hq.fields r)
      · intro rows hrows row hrow r hr
        exact (List.mem_append.mp hr).elim (hp.nanFree rows hrows row hrow r) (hq.nanFree rows hrows row hrow r)

variable {ops : RowSelectionOps} {selected byteRange : Option (List ℕ)} {sel : Option RowSelection}
  {enabled : Bool}

/-- The row groups that are left hold all the rows that pass. -/
theorem selectRowGroups_spec (hm : m.Counts data) (hp : Prunable utf8 fieldId fieldIdMap present m data p)
    (hsorted : ∀ wanted ∈ byteRange, wanted.Pairwise (· < ·))
    (h : selectRowGroups utf8 fieldId fieldIdMap m enabled p byteRange = .ok selected) :
    (∀ wanted ∈ selected, wanted.Pairwise (· < ·)) ∧
      (pick (numbered 0 data) selected).flatten.filter (fun x => p.keeps present x.1) =
        (pick (numbered 0 data) byteRange).flatten.filter fun x => p.keeps present x.1 := by
  have hlen : m.rowGroups.length = (numbered 0 data).length := by
    have hcount := congrArg List.length hm.numRows
    have hnumbered := congrArg List.length (numbered_fst 0 data)
    rw [List.length_map, List.length_map] at hcount
    rw [List.length_map] at hnumbered
    rw [hcount, hnumbered]
  cases enabled with
  | false =>
      cases h
      exact ⟨hsorted, rfl⟩
  | true =>
      unfold selectRowGroups at h
      rw [if_pos rfl] at h
      split at h
      · cases h
      · rename_i filtered hfiltered
        obtain ⟨good, rfl, hgood⟩ := rowGroupLoop_spec hfiltered
        rw [hlen] at h
        have hempty : ∀ i g, (numbered 0 data)[i]? = some g → good i = false →
            g.filter (fun x => p.keeps present x.1) = [] := by
          intro i g hg hi
          have hrows : data[i]? = some (g.map Prod.fst) := by
            have hfst := congrArg (·[i]?) (numbered_fst 0 data)
            rw [← hfst, List.getElem?_map, hg]
            rfl
          have hlt : i < m.rowGroups.length := by
            rw [hlen]
            exact (List.getElem?_eq_some_iff.mp hg).1
          have hmeta : m.rowGroups[i]? = some m.rowGroups[i] := List.getElem?_eq_getElem hlt
          have heval := hgood i _ hmeta
          rw [Nat.zero_add, hi] at heval
          have hcount : m.rowGroups[i].numRows = (g.map Prod.fst).length := by
            have hnum := congrArg (·[i]?) hm.numRows
            simp only [List.getElem?_map, hmeta, hrows, Option.map_some] at hnum
            exact Option.some.inj hnum
          refine List.filter_eq_nil_iff.mpr fun x hx hkeeps => ?_
          refine rowGroupMetricsEval_keeps hp.notFree hp.typed hp.asksNoNan hcount ?_ ?_ heval
            (List.mem_map_of_mem hx) (hp.nanFree _ (List.mem_of_getElem? hrows) _ (List.mem_map_of_mem hx))
            ((BoundPredicate.keeps_iff _ _ _).mp hkeeps)
          · exact fun r hr hpresent => (hp.fields r hr).statistics hpresent i _ _ hmeta hrows
          · exact fun r hr hmissing => (hp.fields r hr).mapped.mpr hmissing
        rw [← List.range_eq_range'] at h
        cases byteRange with
        | some indices =>
            cases h
            have hfilter : ∀ i, i < (numbered 0 data).length →
                ((List.range (numbered 0 data).length).filter good).contains i = good i := by
              intro i hi
              rw [Bool.eq_iff_iff, List.contains_iff_mem, List.mem_filter, List.mem_range]
              exact and_iff_right hi
            refine ⟨?_, ?_⟩
            · rintro wanted ⟨⟩
              exact (hsorted indices rfl).filter _
            · refine filter_pick ?_ indices
              intro i g hg hi
              rw [hfilter i (List.getElem?_eq_some_iff.mp hg).1] at hi
              exact hempty i g hg hi
        | none =>
            cases h
            refine ⟨?_, ?_⟩
            · rintro wanted ⟨⟩
              exact List.pairwise_lt_range.filter _
            · rw [filter_pick hempty, pick_range]
              rfl

/-- The selection of pages takes all the rows that pass. -/
theorem selectPages_spec (hops : ops.Lawful) (hm : m.Counts data)
    (hp : Prunable utf8 fieldId fieldIdMap present m data p)
    (hsorted : ∀ wanted ∈ selected, wanted.Pairwise (· < ·))
    (h : selectPages utf8 ops fieldId fieldIdMap m enabled p selected = .ok sel) :
    ∀ s ∈ sel, Retains (p.keeps present) (expand s) (pick data selected).flatten := by
  rintro s rfl
  cases enabled with
  | false => cases h
  | true =>
      unfold selectPages at h
      rw [if_pos rfl] at h
      split at h
      · rename_i s' hs
        cases h
        unfold getRowSelectionForFilterPredicate at hs
        split at hs
        · cases hs
        · rename_i columns hcolumns
          split at hs
          · cases hs
          · rename_i offsets hoffsets
            have hlen : ((columns.zip offsets).zip m.rowGroups).length = data.length := by
              have hcount := congrArg List.length hm.numRows
              rw [List.length_map, List.length_map] at hcount
              rw [List.length_zip, List.length_zip, hm.columnIndex _ hcolumns, hm.offsetIndex _ hoffsets, hcount,
                min_self, min_self]
            have hgroup : ∀ (k : ℕ) g rows, ((columns.zip offsets).zip m.rowGroups)[k]? = some g →
                data[k]? = some rows → ∀ sel, pageSelection utf8 ops fieldId fieldIdMap p g = .ok sel →
                  Retains (p.keeps present) (expand sel) rows := by
              intro k g rows hg hrows sel hsel
              have hcount : g.2.numRows = rows.length := by
                have hmeta : m.rowGroups[k]? = some g.2 := (List.getElem?_zip_eq_some.mp hg).2
                have hnum := congrArg (·[k]?) hm.numRows
                simp only [List.getElem?_map, hmeta, hrows, Option.map_some] at hnum
                exact Option.some.inj hnum
              exact pageIndexEval_retains hops hcount hp.notFree hp.typed hp.asksNoNan
                (fun r hr => (hp.fields r hr).pages columns offsets hcolumns hoffsets k g rows hg hrows)
                (hp.nanFree rows (List.mem_of_getElem? hrows)) hsel
            split at hs
            · rename_i hnone
              subst hnone
              cases hs
              rw [hops.ofSelectors]
              exact Retains.nil _
            · cases hloop : pageSelectionLoop utf8 ops fieldId fieldIdMap p selected 0
                ((columns.zip offsets).zip m.rowGroups) with
              | error e =>
                  rw [hloop] at hs
                  cases hs
              | ok sels =>
                  rw [hloop] at hs
                  cases hs
                  rw [hops.ofSelectors]
                  cases selected with
                  | none => exact pageSelectionLoop_none hlen hgroup hloop
                  | some wanted =>
                      exact pageSelectionLoop_some hlen hgroup (hsorted wanted rfl) (fun i _ => Nat.zero_le i) hloop
      · cases h
      · cases h

variable {builder : BatchStreamBuilder} {task : FileScanTask} {options : ReadOptions} {out : List Row}

/-- The final predicate is the conjunction of what there is. -/
theorem finalPredicate_spec (hpred : ∀ p ∈ task.predicates, Prunable utf8 fieldId fieldIdMap present m data p) :
    match task.finalPredicate with
    | none => task.predicates = []
    | some p => Prunable utf8 fieldId fieldIdMap present m data p ∧
        ∀ row, p.keeps present row = task.predicates.all fun p => p.keeps present row := by
  have hall : task.predicates = task.predicate.toList ++ task.deletePredicate.toList := rfl
  unfold FileScanTask.finalPredicate
  cases hp : task.predicate with
  | none =>
      cases hq : task.deletePredicate with
      | none =>
          rw [hp, hq] at hall
          exact hall
      | some q =>
          rw [hp, hq] at hall
          rw [hall] at hpred ⊢
          exact ⟨hpred q List.mem_cons_self, fun row => (Bool.and_true _).symm⟩
  | some p =>
      cases hq : task.deletePredicate with
      | none =>
          rw [hp, hq] at hall
          rw [hall] at hpred ⊢
          exact ⟨hpred p List.mem_cons_self, fun row => (Bool.and_true _).symm⟩
      | some q =>
          rw [hp, hq] at hall
          rw [hall] at hpred ⊢
          refine ⟨(hpred p List.mem_cons_self).and (hpred q (List.mem_cons_of_mem p List.mem_cons_self)), ?_⟩
          intro row
          rw [keeps_and]
          exact congrArg (p.keeps present row && ·) (Bool.and_true _).symm

theorem getRowFilter_eq_ok {filter : Row → Bool} (h : getRowFilter present p = .ok filter) :
    filter = p.keeps present := by
  unfold getRowFilter at h
  cases hbuild : p.rowFilter present fun _ => none with
  | error e =>
      rw [hbuild] at h
      cases h
  | ok v =>
      rw [hbuild] at h
      exact (Except.ok.inj h).symm

/-- **A file scan task yields the live rows**: those of its byte range that pass its predicates and are not
deleted.  Pruning by statistics or by the page index changes nothing. -/
theorem processFileScanTask_eq (hops : ops.Lawful) (hbuilder : builder.Lawful) (hm : m.Counts data)
    (hpred : ∀ p ∈ task.predicates, Prunable utf8 fieldId fieldIdMap present m data p)
    (hsmall : (data.map List.length).sum < 2 ^ 32)
    (h : processFileScanTask utf8 ops fieldId fieldIdMap builder m present options task data = .ok out) :
    out = liveRows present m task data ∧
      processFileScanTask utf8 ops fieldId fieldIdMap builder m present ⟨false, false⟩ task data = .ok out := by
  have hrange := byteRange_sorted m task
  have hfinal := finalPredicate_spec hpred
  have hnoSel : ∀ (filter : Option (Row → Bool)) (s : RowSelection), s ∈ (none : Option RowSelection) →
      Retains (fun row => filter.all (· row)) (expand s) (pick data (task.byteRange m)).flatten :=
    fun _ _ hs => by cases hs
  unfold processFileScanTask at h ⊢
  split at h
  · rename_i hnone
    rw [hnone] at hfinal
    have hopen : openStream ops builder m task data (task.byteRange m) none none = _ :=
      openStream_eq hops hbuilder hm.numRows hsmall hrange (hnoSel none)
    refine ⟨?_, h⟩
    rw [hopen] at h
    rw [← Except.ok.inj h, liveRows, hfinal]
    rfl
  · rename_i p hp
    rw [hp] at hfinal
    obtain ⟨hprunable, hkeeps⟩ := hfinal
    have hlive : (((pick (numbered 0 data) (task.byteRange m)).flatten.filter fun x =>
        p.keeps present x.1 && task.notDeleted x.2).map Prod.fst) = liveRows present m task data := by
      refine congrArg (List.map Prod.fst) (List.filter_congr fun x _ => ?_)
      exact congrArg (· && task.notDeleted x.2) (hkeeps x.1)
    split at h
    · cases h
    · rename_i filter hfilter
      obtain rfl := getRowFilter_eq_ok hfilter
      split at h
      · cases h
      · rename_i selected hselected
        obtain ⟨hsorted, hrows⟩ := selectRowGroups_spec hm hprunable hrange hselected
        split at h
        · cases h
        · rename_i sel hsel
          have hpruned : openStream ops builder m task data selected sel (some (p.keeps present)) = _ :=
            openStream_eq hops hbuilder hm.numRows hsmall hsorted (selectPages_spec hops hm hprunable hsorted hsel)
          have hplain : openStream ops builder m task data (task.byteRange m) none (some (p.keeps present)) = _ :=
            openStream_eq hops hbuilder hm.numRows hsmall hrange (hnoSel (some (p.keeps present)))
          have hsplit : ∀ rows : List (Row × ℕ), (rows.filter fun x =>
              p.keeps present x.1 && task.notDeleted x.2) =
                (rows.filter fun x => p.keeps present x.1).filter fun x => task.notDeleted x.2 := by
            intro rows
            rw [List.filter_filter]
            exact List.filter_congr fun x _ => Bool.and_comm _ _
          have hout : Except.ok (liveRows present m task data) = (Except.ok out : Except ReadError (List Row)) := by
            rw [← h, hpruned, ← hlive, hsplit, ← hrows, ← hsplit]
            rfl
          refine ⟨(Except.ok.inj hout).symm, ?_⟩
          show openStream ops builder m task data (task.byteRange m) none (some (p.keeps present)) = _
          rw [hplain, ← hout, ← hlive]
          rfl

end

/-- A record batch stream that does what is documented. -/
def plainBuilder : BatchStreamBuilder where
  stream groups indices sel filter := (masked sel (pick groups indices).flatten).filter fun row => filter.all (· row)

/-- The metadata of a file of one row group with the two pages. -/
def twoPageFile : ParquetMetaData where
  rowGroups := [⟨2, 100, fun _ => some ⟨some 0, some (.int32 1), some (.int32 20)⟩⟩]
  columnIndex := some [twoPages.columnIndex]
  offsetIndex := some [twoPages.offsetIndex]

/-- The filter `id > 10`, and a delete of the first row. -/
def aboveTenTask : FileScanTask := ⟨0, 0, some aboveTen, none, some ⟨[0], List.pairwise_singleton _ 0⟩⟩

theorem prunable_aboveTen : Prunable (fun _ => none) (fun _ => 1) (fun _ => some 0) (fun _ => true) twoPageFile
    [[rowThree, rowTwelve]] aboveTen where
  notFree := trivial
  typed := aboveTen_typed
  asksNoNan := aboveTen_asksNoNan
  nanFree := by
    intro rows hrows
    obtain rfl := List.mem_singleton.mp hrows
    exact nanFree_twoRows
  fields := by
    intro r hr
    obtain rfl : r = idRef := List.mem_singleton.mp hr
    refine ⟨iff_of_false (by decide) (by decide), ?_, ?_⟩
    · intro _ i g rows hg hrows
      cases i with
      | succ i => cases hg
      | zero =>
          cases hg
          cases hrows
          refine ⟨?_, ?_, ?_, ?_, ?_⟩
          · exact fun n hn => (Option.some.inj hn).symm
          · exact fun n hn => (Option.some.inj hn).symm
          · exact fun n hn => by cases hn
          · intro b hb v hv _
            cases hb
            rcases List.mem_cons.mp hv with hv | hv
            · cases hv
              exact ⟨.lt, by decide, by decide⟩
            · cases List.mem_singleton.mp hv
              exact ⟨.lt, by decide, by decide⟩
          · intro b hb v hv _
            cases hb
            rcases List.mem_cons.mp hv with hv | hv
            · cases hv
              exact ⟨.lt, by decide, by decide⟩
            · cases List.mem_singleton.mp hv
              exact ⟨.lt, by decide, by decide⟩
    · intro columns offsets hcolumns hoffsets i g rows hg hrows
      cases hcolumns
      cases hoffsets
      cases i with
      | succ i => cases hg
      | zero =>
          cases hg
          cases hrows
          exact describes_twoPages

theorem processFileScanTask_eq_aboveTen :
    [rowTwelve] = liveRows (fun _ => true) twoPageFile aboveTenTask [[rowThree, rowTwelve]] ∧
      processFileScanTask (fun _ => none) plainOps (fun _ => 1) (fun _ => some 0) plainBuilder twoPageFile
        (fun _ => true) ⟨false, false⟩ aboveTenTask [[rowThree, rowTwelve]] = .ok [rowTwelve] := by
  have hcounts : twoPageFile.Counts [[rowThree, rowTwelve]] := by
    refine ⟨rfl, ?_, ?_⟩
    · rintro l ⟨⟩
      rfl
    · rintro l ⟨⟩
      rfl
  have hpred : ∀ p ∈ aboveTenTask.predicates, Prunable (fun _ => none) (fun _ => 1) (fun _ => some 0)
      (fun _ => true) twoPageFile [[rowThree, rowTwelve]] p := by
    intro p hp
    obtain rfl := List.mem_singleton.mp hp
    exact prunable_aboveTen
  have hread : processFileScanTask (fun _ => none) plainOps (fun _ => 1) (fun _ => some 0) plainBuilder twoPageFile
      (fun _ => true) ⟨true, true⟩ aboveTenTask [[rowThree, rowTwelve]] = .ok [rowTwelve] := by rfl
  exact processFileScanTask_eq plainOps_lawful ⟨fun _ _ _ _ => rfl⟩ hcounts hpred (by decide) hread

/-! ### Splitting a file -/

section

variable {m : ParquetMetaData} {i : ℕ} {g : RowGroupMetaData}

/-- Where a row group begins in the file. -/
def ParquetMetaData.rowGroupStart (m : ParquetMetaData) (i : ℕ) : ℕ :=
  4 + ((m.rowGroups.take i).map RowGroupMetaData.compressedSize).sum

theorem mem_byteRangeLoop {start stop idx offset : ℕ} {groups : List RowGroupMetaData} :
    i ∈ byteRangeLoop start stop idx offset groups ↔ ∃ k g, groups[k]? = some g ∧ i = idx + k ∧
      offset + ((groups.take k).map RowGroupMetaData.compressedSize).sum < stop ∧
      start < offset + ((groups.take k).map RowGroupMetaData.compressedSize).sum + g.compressedSize := by
  induction groups generalizing idx offset with
  | nil =>
      constructor
      · intro h
        cases h
      · rintro ⟨k, g, hg, -⟩
        cases hg
  | cons g groups ih =>
      have hmem : i ∈ byteRangeLoop start stop idx offset (g :: groups) ↔
          (i = idx ∧ offset < stop ∧ start < offset + g.compressedSize) ∨
            i ∈ byteRangeLoop start stop (idx + 1) (offset + g.compressedSize) groups := by
        show i ∈ (if offset < stop ∧ start < offset + g.compressedSize then
          idx :: byteRangeLoop start stop (idx + 1) (offset + g.compressedSize) groups
          else byteRangeLoop start stop (idx + 1) (offset + g.compressedSize) groups) ↔ _
        split
        · rename_i h
          rw [List.mem_cons]
          exact or_congr_left (and_iff_left h).symm
        · rename_i h
          exact (or_iff_right fun hi => h hi.2).symm
      rw [hmem, ih]
      constructor
      · rintro (⟨rfl, hstop, hstart⟩ | ⟨k, g', hg, rfl, hstop, hstart⟩)
        · exact ⟨0, g, rfl, rfl, hstop, hstart⟩
        · refine ⟨k + 1, g', hg, by omega, ?_, ?_⟩
          · rw [List.take_succ_cons, List.map_cons, List.sum_cons]
            omega
          · rw [List.take_succ_cons, List.map_cons, List.sum_cons]
            omega
      · rintro ⟨k, g', hg, rfl, hstop, hstart⟩
        cases k with
        | zero =>
            cases hg
            exact .inl ⟨rfl, hstop, hstart⟩
        | succ k =>
            rw [List.take_succ_cons, List.map_cons, List.sum_cons] at hstop hstart
            exact .inr ⟨k, g', hg, by omega, by omega, by omega⟩

/-- A row group is in a byte range if it meets it. -/
theorem mem_filterRowGroupsByByteRange {start length : ℕ} (hg : m.rowGroups[i]? = some g) :
    i ∈ filterRowGroupsByByteRange m start length ↔
      m.rowGroupStart i < start + length ∧ start < m.rowGroupStart i + g.compressedSize := by
  rw [filterRowGroupsByByteRange, mem_byteRangeLoop]
  constructor
  · rintro ⟨k, g', hg', hi, hstop, hstart⟩
    obtain rfl : i = k := by omega
    cases hg.symm.trans hg'
    exact ⟨hstop, hstart⟩
  · rintro ⟨hstop, hstart⟩
    exact ⟨i, g, hg, (Nat.zero_add i).symm, hstop, hstart⟩

/-- A row group ends where the file does or before. -/
theorem rowGroupStart_add_le (hg : m.rowGroups[i]? = some g) :
    m.rowGroupStart i + g.compressedSize ≤ 4 + (m.rowGroups.map RowGroupMetaData.compressedSize).sum := by
  have hsplit : m.rowGroups = m.rowGroups.take i ++ g :: m.rowGroups.drop (i + 1) := by
    obtain ⟨hlt, rfl⟩ := List.getElem?_eq_some_iff.mp hg
    rw [List.getElem_cons_drop, List.take_append_drop]
  have hsum := congrArg (fun l => (l.map RowGroupMetaData.compressedSize).sum) hsplit
  simp only [List.map_append, List.map_cons, List.sum_append, List.sum_cons] at hsum
  unfold ParquetMetaData.rowGroupStart
  omega

/-- **A split file**: of tasks with consecutive byte ranges that reach its end, one reads a row group, and
besides every task that starts strictly inside the row group.  The rows come out once exactly if the file is
split at the borders of row groups. -/
theorem countP_filterRowGroupsByByteRange {lengths : List ℕ} (hg : m.rowGroups[i]? = some g)
    (hsize : 0 < g.compressedSize)
    (hend : 4 + (m.rowGroups.map RowGroupMetaData.compressedSize).sum ≤ lengths.sum) :
    (consecutive 0 lengths).countP (fun r => (filterRowGroupsByByteRange m r.start (r.stop - r.start)).contains i) =
      1 + (consecutive 0 lengths).countP (fun r => decide (m.rowGroupStart i < r.start ∧
        r.start < m.rowGroupStart i + g.compressedSize)) := by
  have hfits := rowGroupStart_add_le hg
  have hmeets := countP_meets (a := m.rowGroupStart i) (b := m.rowGroupStart i + g.compressedSize) (by omega)
    (show _ ≤ 0 + lengths.sum by omega)
  rw [if_pos (Nat.zero_le _), Nat.add_comm _ 1] at hmeets
  rw [← hmeets]
  refine List.countP_congr fun r hr => ?_
  have hle := start_le_stop_of_mem hr
  rw [List.contains_iff_mem, mem_filterRowGroupsByByteRange hg, Range.meets, decide_eq_true_eq,
    Nat.add_sub_cancel' hle]

/-- Two row groups of 100 bytes. -/
def twoGroupFile : ParquetMetaData := ⟨[⟨1, 100, fun _ => none⟩, ⟨1, 100, fun _ => none⟩], none, none⟩

/-- A cut inside the second one: it is read twice. -/
theorem countP_filterRowGroupsByByteRange_straddling :
    (consecutive 0 [150, 60]).countP (fun r =>
      (filterRowGroupsByByteRange twoGroupFile r.start (r.stop - r.start)).contains 1) =
      1 + (consecutive 0 [150, 60]).countP (fun r => decide (twoGroupFile.rowGroupStart 1 < r.start ∧
        r.start < twoGroupFile.rowGroupStart 1 + 100)) := by
  have hg : twoGroupFile.rowGroups[1]? = some ⟨1, 100, fun _ => none⟩ := rfl
  exact countP_filterRowGroupsByByteRange hg (by decide) (by decide)

theorem byteRangeLoop_whole {stop idx offset : ℕ} {groups : List RowGroupMetaData} (hpos : 0 < offset)
    (hend : offset + (groups.map RowGroupMetaData.compressedSize).sum ≤ stop)
    (hsize : ∀ g ∈ groups, 0 < g.compressedSize) :
    byteRangeLoop 0 stop idx offset groups = List.range' idx groups.length := by
  induction groups generalizing idx offset with
  | nil => rfl
  | cons g groups ih =>
      have hg := hsize g List.mem_cons_self
      rw [List.map_cons, List.sum_cons] at hend
      have htail : byteRangeLoop 0 stop (idx + 1) (offset + g.compressedSize) groups = _ :=
        ih (by omega) (by omega) fun g' hg' => hsize g' (List.mem_cons_of_mem g hg')
      show (if offset < stop ∧ 0 < offset + g.compressedSize then
        idx :: byteRangeLoop 0 stop (idx + 1) (offset + g.compressedSize) groups
        else byteRangeLoop 0 stop (idx + 1) (offset + g.compressedSize) groups) = _
      rw [if_pos ⟨by omega, by omega⟩, htail, List.length_cons, List.range'_succ]

variable {task : FileScanTask} {data : List (List Row)}

/-- A planned task, whose byte range is the file, is about all of its rows. -/
theorem liveRows_planned (present : String → Bool) (hm : m.rowGroups.length = data.length) (hstart : task.start = 0)
    (hend : 4 + (m.rowGroups.map RowGroupMetaData.compressedSize).sum ≤ task.length)
    (hsize : ∀ g ∈ m.rowGroups, 0 < g.compressedSize) :
    liveRows present m task data = (((numbered 0 data).flatten.filter fun x =>
      (task.predicates.all fun p => p.keeps present x.1) && task.notDeleted x.2).map Prod.fst) := by
  have hrange : task.byteRange m = some (List.range m.rowGroups.length) := by
    have hwhole : byteRangeLoop 0 task.length 0 4 m.rowGroups = _ := byteRangeLoop_whole (by decide) hend hsize
    unfold FileScanTask.byteRange filterRowGroupsByByteRange
    rw [if_pos (.inr (by omega)), hstart, Nat.zero_add, hwhole, List.range_eq_range']
  have hlen : (numbered 0 data).length = data.length := by
    have hfst := congrArg List.length (numbered_fst 0 data)
    rwa [List.length_map] at hfst
  rw [liveRows, hrange, hm, ← hlen, pick_range]

end

end IcebergDb.Scan.Read
