import IcebergDb.Table.ManifestList
import Mathlib.Algebra.GroupWithZero.Nat
import Mathlib.Data.Nat.Find

/-!
# The snapshot of a fast append

* `FastAppend.commit` — the manifests that the table has, and one for the files that are added;
* `Sane` — what holds of the metadata of a table;
* `FastAppend.commit_eq_ok` — what the new snapshot is.
-/

namespace IcebergDb.Table

open IcebergDb.Checked

/-! ### The action -/

/-- `DataContentType`. -/
inductive DataContentType where
  | data
  | positionDeletes
  | equalityDeletes
deriving DecidableEq

/-- `DataFile`. -/
structure DataFile where
  content : DataContentType
  filePath : String
  recordCount : ℕ
  partitionSpecId : ℤ

/-- The random numbers that a loop may draw: they do not stay within any list for ever. -/
structure Draws where
  draw : ℕ → ℤ
  unbounded : ∀ l : List ℤ, ∃ n, ((draw n).natAbs : ℤ) ∉ l

/-- What an action reads of its surroundings. -/
structure Surroundings where
  now : ℤ
  draws : Draws
  uuid : String

/-- `FastAppendAction`. -/
structure FastAppend where
  checkDuplicate : Bool
  commitUuid : Option String
  snapshotProperties : List (String × String)
  addedDataFiles : List DataFile

/-- `ActionCommit`, and `TableCommit`. -/
structure TableCommit where
  updates : List TableUpdate
  requirements : List TableRequirement

/-- `generate_unique_snapshot_id`: the first draw that the table does not have. -/
def generateUniqueSnapshotId (t : TableMetadata) (draws : Draws) : ℤ :=
  (draws.draw (Nat.find (draws.unbounded t.snapshots.keys))).natAbs

/-- `ManifestWriter` on the entries of added files: an entry for each, and the counts. -/
def writeManifestFile (path : String) (snapshotId : ℤ) (files : List DataFile) : ManifestFile where
  manifestPath := path
  content := .data
  sequenceNumber := unassignedSequenceNumber
  minSequenceNumber := unassignedSequenceNumber
  addedSnapshotId := snapshotId
  addedFilesCount := some files.length
  existingFilesCount := some 0
  deletedFilesCount := some 0
  addedRowsCount := some (files.map DataFile.recordCount).sum
  existingRowsCount := some 0
  deletedRowsCount := some 0
  firstRowId := none
  entries := files.map fun f => ⟨.added, f.filePath, f.recordCount⟩

namespace FastAppend

variable (a : FastAppend)

/-- The paths of the files. -/
def paths : List String := a.addedDataFiles.map DataFile.filePath

/-- `validate_added_data_files`. -/
def validateAddedDataFiles (t : TableMetadata) : Except Error Unit :=
  checkAll (fun f => do
    require (f.content = .data) (dataInvalid "Only data content type is allowed for fast append")
    require (t.defaultSpecId = f.partitionSpecId)
      (dataInvalid "Data file partition spec id does not match table default partition spec id")) a.addedDataFiles

/-- The files of the action that are in the manifests already. -/
def referencedFiles (manifests : List ManifestFile) : List String :=
  (manifests.flatMap ManifestFile.liveFiles).filter (a.paths.contains ·)

/-- `validate_duplicate_files`. -/
def validateDuplicateFiles (t : TableMetadata) : Except Error Unit :=
  match t.currentSnapshot with
  | none => .ok ()
  | some s => do
      let manifests ← s.loadManifestList t
      require (a.referencedFiles manifests = [])
        (dataInvalid ("Cannot add files that are already referenced by table, files: " ++
          String.intercalate ", " (a.referencedFiles manifests)))

/-- Whether the check takes place is a choice of the caller. -/
def checkDuplicateFiles (t : TableMetadata) : Except Error Unit :=
  if a.checkDuplicate then a.validateDuplicateFiles t else .ok ()

/-- `existing_manifest`. -/
def existingManifest (t : TableMetadata) : Except Error (List ManifestFile) :=
  match t.currentSnapshot with
  | none => .ok []
  | some s => do
      let manifests ← s.loadManifestList t
      return manifests.filter fun m => m.hasAddedFiles || m.hasExistingFiles

/-- `manifest_file`. -/
def manifestFile (t : TableMetadata) (uuid : String) (snapshotId : ℤ) : Except Error (List ManifestFile) := do
  require (¬ (a.addedDataFiles = [] ∧ a.snapshotProperties = []))
    ⟨.preconditionFailed, "No added data files or added snapshot properties found when write a manifest file", false⟩
  let existing ← existingManifest t
  return existing ++ (if a.addedDataFiles = [] then []
    else [writeManifestFile (t.location ++ "/metadata/" ++ uuid ++ "-m0.avro") snapshotId a.addedDataFiles])

/-- The writer of the manifest list, which gives out row ids from version 3 on. -/
def listWriter (t : TableMetadata) (snapshotId : ℤ) : ManifestListWriter where
  formatVersion := t.formatVersion
  sequenceNumber := match t.formatVersion with
    | .v1 => 0
    | _ => t.nextSequenceNumber
  snapshotId := snapshotId
  nextRowId := match t.formatVersion with
    | .v3 => some t.nextRowId
    | _ => none
  entries := []

/-- The snapshot that `SnapshotProducer::commit` builds of the list that was written. -/
def newSnapshot (t : TableMetadata) (now snapshotId : ℤ) (w : ManifestListWriter) : Snapshot where
  snapshotId := snapshotId
  parentSnapshotId := t.currentSnapshotId
  sequenceNumber := t.nextSequenceNumber
  timestampMs := now
  manifests := w.entries
  rowRange := w.nextRowId.map fun next => (t.nextRowId, next - t.nextRowId)

/-- The updates and the requirements for a snapshot. -/
def snapshotCommit (t : TableMetadata) (s : Snapshot) : TableCommit where
  updates := [.addSnapshot s, .setSnapshotRef mainBranch ⟨s.snapshotId, .branch none none none⟩]
  requirements := [.uuidMatch t.uuid, .refSnapshotIdMatch mainBranch t.currentSnapshotId]

/-- `FastAppendAction::commit`. -/
def commit (o : Surroundings) (t : TableMetadata) : Except Error TableCommit := do
  let snapshotId := generateUniqueSnapshotId t o.draws
  a.validateAddedDataFiles t
  a.checkDuplicateFiles t
  let manifests ← a.manifestFile t (a.commitUuid.getD o.uuid) snapshotId
  let w ← (listWriter t snapshotId).addManifests manifests
  return snapshotCommit t (newSnapshot t o.now snapshotId w)

end FastAppend

/-! ### What holds of a table -/

/-- The main branch is the current snapshot, and counts, sequence numbers and row ids are right. -/
structure Sane (t : TableMetadata) : Prop where
  mainRef : t.MainIsCurrent
  keyed : ∀ id s, t.snapshots.lookup id = some s → s.snapshotId = id
  counted : ∀ f ∈ t.currentManifests, f.Counted
  number_nonneg : 0 ≤ t.lastSequenceNumber
  numbered : ∀ f ∈ t.currentManifests, 0 ≤ f.sequenceNumber ∧ f.sequenceNumber ≤ t.lastSequenceNumber
  noRowIds : t.formatVersion ≠ .v3 → t.nextRowId = 0 ∧ ∀ f ∈ t.currentManifests, f.firstRowId = none
  rowIds : t.formatVersion = .v3 → (∀ f ∈ t.currentManifests, ∀ x, f.rowSpan = some x → x.2 ≤ t.nextRowId) ∧
    t.currentManifests.Pairwise ManifestFile.Apart

/-- What the snapshot of a fast append is. -/
structure Fits (t : TableMetadata) (a : FastAppend) (s : Snapshot) : Prop where
  fresh : t.snapshots.lookup s.snapshotId = none
  id_nonneg : 0 ≤ s.snapshotId
  parent : s.parentSnapshotId = t.currentSnapshotId
  number : s.sequenceNumber = t.nextSequenceNumber
  absent : a.checkDuplicate = true → ∀ p ∈ a.paths, p ∉ t.liveFiles
  manifests : ∃ kept new, s.manifests = kept ++ new ∧ kept.flatMap ManifestFile.liveFiles = t.liveFiles ∧
    new.flatMap ManifestFile.liveFiles = a.paths ∧
    (t.formatVersion ≠ .v1 → ∀ f ∈ new, f.sequenceNumber = s.sequenceNumber)
  counted : ∀ f ∈ s.manifests, f.Counted
  numbered : ∀ f ∈ s.manifests, 0 ≤ f.sequenceNumber ∧ f.sequenceNumber ≤ s.sequenceNumber
  noRowIds : t.formatVersion ≠ .v3 → s.rowRange = none ∧ ∀ f ∈ s.manifests, f.firstRowId = none
  rowIds : t.formatVersion = .v3 → ∃ n, s.rowRange = some (t.nextRowId, n) ∧
    (∀ f ∈ s.manifests, ∀ x, f.rowSpan = some x → x.2 ≤ t.nextRowId + n) ∧ s.manifests.Pairwise ManifestFile.Apart

namespace FastAppend

variable {a : FastAppend} {t : TableMetadata}

theorem generateUniqueSnapshotId_fresh (t : TableMetadata) (draws : Draws) :
    t.snapshots.lookup (generateUniqueSnapshotId t draws) = none :=
  AList.lookup_eq_none.mpr (Nat.find_spec (draws.unbounded t.snapshots.keys))

theorem currentManifests_of_none (h : t.currentSnapshot = none) : t.currentManifests = [] := by
  unfold TableMetadata.currentManifests
  rw [h]
  rfl

theorem currentManifests_of_some {s : Snapshot} (h : t.currentSnapshot = some s) : t.currentManifests = s.manifests := by
  unfold TableMetadata.currentManifests
  rw [h]
  rfl

theorem liveFiles_of_load {s : Snapshot} {ms : List ManifestFile} (hs : t.currentSnapshot = some s)
    (h : s.loadManifestList t = .ok ms) : ms.flatMap ManifestFile.liveFiles = t.liveFiles := by
  rw [liveFiles_of_carries (loadManifestList_eq_ok h), TableMetadata.liveFiles, currentManifests_of_some hs]

/-- The check for duplicates sees the files of the table. -/
theorem absent_of_checkDuplicateFiles (h : a.checkDuplicateFiles t = .ok ()) (hc : a.checkDuplicate = true) :
    ∀ p ∈ a.paths, p ∉ t.liveFiles := by
  intro p hp hlive
  have hv : a.validateDuplicateFiles t = .ok () := by
    unfold checkDuplicateFiles at h
    rwa [if_pos hc] at h
  unfold validateDuplicateFiles at hv
  split at hv
  next hnone =>
    rw [TableMetadata.liveFiles, currentManifests_of_none hnone] at hlive
    cases hlive
  next s hs =>
    obtain ⟨ms, hms, hrest⟩ := bind_eq_ok hv
    have hnil : a.referencedFiles ms = [] := require_eq_ok hrest
    have hmem : p ∈ a.referencedFiles ms := by
      show p ∈ (ms.flatMap ManifestFile.liveFiles).filter (a.paths.contains ·)
      rw [liveFiles_of_load hs hms]
      exact List.mem_filter.mpr ⟨hlive, List.contains_iff_mem.mpr hp⟩
    rw [hnil] at hmem
    cases hmem

/-- The manifests that are carried over. -/
theorem existingManifest_eq_ok {ms : List ManifestFile} (ht : Sane t) (h : existingManifest t = .ok ms) :
    ms.flatMap ManifestFile.liveFiles = t.liveFiles ∧ (∀ m ∈ ms, m.Counted) ∧
      (∀ m ∈ ms, 0 ≤ m.sequenceNumber ∧ m.sequenceNumber ≤ t.lastSequenceNumber) ∧
      (t.formatVersion = .v3 → ms.Sublist t.currentManifests) := by
  unfold existingManifest at h
  split at h
  next hnone =>
    cases h
    refine ⟨?_, by simp, by simp, fun _ => List.nil_sublist _⟩
    rw [TableMetadata.liveFiles, currentManifests_of_none hnone]
  next s hs =>
    obtain ⟨loaded, hloaded, hrest⟩ := bind_eq_ok h
    cases hrest
    have hcurrent : t.currentManifests = s.manifests := currentManifests_of_some hs
    have hcounted : ∀ m ∈ loaded, m.Counted :=
      counted_of_carries (loadManifestList_eq_ok hloaded) fun m hm => ht.counted m (hcurrent ▸ hm)
    refine ⟨?_, fun m hm => hcounted m (List.mem_of_mem_filter hm), fun m hm => ?_, fun h3 => ?_⟩
    · rw [liveFiles_filter hcounted]
      exact liveFiles_of_load hs hloaded
    · obtain ⟨x, hx, hread⟩ := exists_of_forall₂ (mapM_eq_ok hloaded) (List.mem_of_mem_filter hm)
      rw [ManifestFile.read_sequenceNumber hread]
      split
      · exact ⟨le_refl 0, ht.number_nonneg⟩
      · exact ht.numbered x (hcurrent ▸ hx)
    · have heq : s.manifests = loaded := by
        refine List.forall₂_eq_eq_eq.subst (motive := fun R => R s.manifests loaded) ?_
        exact (mapM_eq_ok hloaded).imp fun x y hxy => (ManifestFile.read_v3 (h3 ▸ hxy)).symm
      rw [hcurrent, heq]
      exact List.filter_sublist

theorem liveFiles_writeManifestFile (path : String) (id : ℤ) (files : List DataFile) :
    (writeManifestFile path id files).liveFiles = files.map DataFile.filePath := by
  show ((files.map fun f => (⟨.added, f.filePath, f.recordCount⟩ : ManifestEntry)).filter
    ManifestEntry.isAlive).map ManifestEntry.filePath = files.map DataFile.filePath
  induction files with
  | nil => rfl
  | cons f files ih => exact congrArg (f.filePath :: ·) ih

theorem counted_writeManifestFile (path : String) (id : ℤ) (files : List DataFile) :
    (writeManifestFile path id files).Counted := by
  refine ⟨fun c hc => ?_, fun c hc => ?_⟩
  · have hlen : files.length = c := Option.some.inj hc
    simp [writeManifestFile, List.countP_map, Function.comp_def, hlen]
  · have hzero : 0 = c := Option.some.inj hc
    simp [writeManifestFile, List.countP_map, Function.comp_def, ← hzero]

/-- The manifests of the new snapshot, before the list of them is written. -/
theorem manifestFile_eq_ok {uuid : String} {id : ℤ} {ms : List ManifestFile}
    (h : a.manifestFile t uuid id = .ok ms) :
    ∃ existing new, existingManifest t = .ok existing ∧ ms = existing ++ new ∧
      new.flatMap ManifestFile.liveFiles = a.paths ∧ (∀ m ∈ new, m.Counted) ∧
      ∀ m ∈ new, m.sequenceNumber = unassignedSequenceNumber ∧ m.firstRowId = none := by
  obtain ⟨-, h⟩ := require_bind h
  obtain ⟨existing, hexisting, h⟩ := bind_eq_ok h
  cases h
  refine ⟨existing, _, hexisting, rfl, ?_⟩
  split
  next hnil =>
    refine ⟨?_, by simp, by simp⟩
    unfold paths
    rw [hnil]
    rfl
  next =>
    refine ⟨?_, ?_, ?_⟩
    · rw [List.flatMap_singleton]
      exact liveFiles_writeManifestFile _ id a.addedDataFiles
    · exact List.forall_mem_singleton.mpr (counted_writeManifestFile _ id a.addedDataFiles)
    · exact List.forall_mem_singleton.mpr ⟨rfl, rfl⟩

theorem writtenNumber_listWriter {id : ℤ} {m : ManifestFile} :
    (listWriter t id).writtenNumber m = if t.formatVersion = .v1 then 0
      else if m.sequenceNumber = unassignedSequenceNumber then t.nextSequenceNumber else m.sequenceNumber := by
  unfold ManifestListWriter.writtenNumber listWriter
  cases t.formatVersion <;> rfl

theorem listWriter_nextRowId_of_ne {id : ℤ} (h3 : t.formatVersion ≠ .v3) : (listWriter t id).nextRowId = none := by
  unfold listWriter
  cases hv : t.formatVersion with
  | v1 => rfl
  | v2 => rfl
  | v3 => exact absurd hv h3

theorem listWriter_nextRowId_of_eq {id : ℤ} (h3 : t.formatVersion = .v3) :
    (listWriter t id).nextRowId = some t.nextRowId := by
  unfold listWriter
  rw [h3]

theorem nextSequenceNumber_eq (hv : t.formatVersion ≠ .v1) :
    t.nextSequenceNumber = t.lastSequenceNumber + 1 := by
  unfold TableMetadata.nextSequenceNumber
  split
  next h1 => exact absurd h1 hv
  next => rfl

theorem next_nonneg (ht : Sane t) : 0 ≤ t.nextSequenceNumber := by
  have hlast := ht.number_nonneg
  unfold TableMetadata.nextSequenceNumber
  split
  · exact le_refl 0
  · omega

/-- What is carried over keeps its number, and what is added gets the number of the snapshot. -/
theorem numbered_of_written {w : ManifestListWriter} {id : ℤ} {ms es : List ManifestFile} (ht : Sane t)
    (hw : w.writtenNumber = (listWriter t id).writtenNumber)
    (hms : ∀ m ∈ ms, m.sequenceNumber = unassignedSequenceNumber ∨
      0 ≤ m.sequenceNumber ∧ m.sequenceNumber ≤ t.lastSequenceNumber)
    (h : List.Forall₂ (fun m e => ManifestFile.Carries m e ∧ e.sequenceNumber = w.writtenNumber m) ms es) :
    ∀ e ∈ es, 0 ≤ e.sequenceNumber ∧ e.sequenceNumber ≤ t.nextSequenceNumber := by
  intro e he
  obtain ⟨m, hm, -, hnumber⟩ := exists_of_forall₂ h he
  have hnext := next_nonneg ht
  rw [hnumber, hw, writtenNumber_listWriter]
  split
  · exact ⟨le_refl 0, hnext⟩
  next hv =>
    split
    · exact ⟨hnext, le_refl _⟩
    next hassigned =>
      rcases hms m hm with hun | ⟨h0, hle⟩
      · exact absurd hun hassigned
      · rw [nextSequenceNumber_eq hv]
        omega

/-- The commit of a fast append adds one snapshot, which fits the table, and makes it the main branch. -/
theorem commit_eq_ok {o : Surroundings} {c : TableCommit} (ht : Sane t) (h : a.commit o t = .ok c) :
    ∃ s, c = snapshotCommit t s ∧ s.timestampMs = o.now ∧ Fits t a s := by
  obtain ⟨-, -, h⟩ := bind_eq_ok h
  obtain ⟨u, hcheck, h⟩ := bind_eq_ok h
  obtain ⟨ms, hms, h⟩ := bind_eq_ok h
  obtain ⟨w, hw, h⟩ := bind_eq_ok h
  cases h
  obtain ⟨existing, new, hexisting, rfl, hnew, hnewCounted, hnewNumber⟩ := manifestFile_eq_ok hms
  obtain ⟨hlive, hcounted, hnumbered, hsublist⟩ := existingManifest_eq_ok ht hexisting
  refine ⟨_, rfl, rfl, ?_⟩
  obtain ⟨v, hv, hvw⟩ := foldlM_append hw
  obtain ⟨es, hes, hvVersion, hvNumber, hesAll, hesRows⟩ := ManifestListWriter.addManifests_eq_ok hv
  obtain ⟨fs, hfs, -, -, hfsAll, hfsRows⟩ := ManifestListWriter.addManifests_eq_ok hvw
  have hentries : w.entries = es ++ fs := by
    rw [hfs, hes]
    rfl
  have hsame : v.writtenNumber = (listWriter t (generateUniqueSnapshotId t o.draws)).writtenNumber :=
    ManifestListWriter.writtenNumber_congr hvVersion hvNumber
  exact {
    fresh := generateUniqueSnapshotId_fresh t o.draws
    id_nonneg := Int.natCast_nonneg _
    parent := rfl
    number := rfl
    absent := absent_of_checkDuplicateFiles hcheck
    manifests := by
      refine ⟨es, fs, hentries, ?_, ?_, fun h1 f hf => ?_⟩
      · rw [liveFiles_of_carries (hesAll.imp fun _ _ h => h.1), hlive]
      · rw [liveFiles_of_carries (hfsAll.imp fun _ _ h => h.1), hnew]
      · obtain ⟨m, hm, -, hnumber⟩ := exists_of_forall₂ hfsAll hf
        rw [hnumber, hsame, writtenNumber_listWriter, if_neg h1, if_pos (hnewNumber m hm).1]
        rfl
    counted := by
      show ∀ f ∈ w.entries, f.Counted
      rw [hentries]
      exact List.forall_mem_append.mpr ⟨counted_of_carries (hesAll.imp fun _ _ h => h.1) hcounted,
        counted_of_carries (hfsAll.imp fun _ _ h => h.1) hnewCounted⟩
    numbered := by
      show ∀ f ∈ w.entries, 0 ≤ f.sequenceNumber ∧ f.sequenceNumber ≤ t.nextSequenceNumber
      rw [hentries]
      exact List.forall_mem_append.mpr ⟨numbered_of_written ht rfl (fun m hm => .inr (hnumbered m hm)) hesAll,
        numbered_of_written ht hsame (fun m hm => .inl (hnewNumber m hm).1) hfsAll⟩
    noRowIds := by
      intro h3
      obtain ⟨hesNone, hvNext⟩ := hesRows h3
      obtain ⟨hfsNone, hwNext⟩ := hfsRows (hvVersion ▸ h3)
      refine ⟨?_, ?_⟩
      · show (w.nextRowId.map fun next => (t.nextRowId, next - t.nextRowId)) = none
        rw [hwNext, hvNext, listWriter_nextRowId_of_ne h3]
        rfl
      · show ∀ f ∈ w.entries, f.firstRowId = none
        rw [hentries]
        exact List.forall_mem_append.mpr ⟨hesNone, hfsNone⟩
    rowIds := by
      intro h3
      obtain ⟨hbelow, hapart⟩ := ht.rowIds h3
      have hsub := hsublist h3
      have hspans : ∀ m ∈ existing ++ new, ∀ x, m.rowSpan = some x → x.2 ≤ t.nextRowId := by
        refine List.forall_mem_append.mpr ⟨fun m hm => hbelow m (hsub.subset hm), fun m hm x hx => ?_⟩
        rw [ManifestFile.rowSpan_of_none (hnewNumber m hm).2] at hx
        cases hx
      have hpairs : (existing ++ new).Pairwise ManifestFile.Apart := by
        refine List.pairwise_append.mpr ⟨hapart.sublist hsub, ?_, fun m hm e he x y hx hy => ?_⟩
        · refine List.pairwise_of_forall_mem_list fun m hm e he x y hx hy => ?_
          rw [ManifestFile.rowSpan_of_none (hnewNumber m hm).2] at hx
          cases hx
        · rw [ManifestFile.rowSpan_of_none (hnewNumber e he).2] at hy
          cases hy
      obtain ⟨gs, n, hgs, hn, hle, hall, hgsApart⟩ := ManifestListWriter.addManifests_rows hw h3
        (listWriter_nextRowId_of_eq h3) (Nat.le_refl t.nextRowId) hspans hpairs
      have hwgs : w.entries = gs := hgs
      refine ⟨n - t.nextRowId, ?_, ?_, ?_⟩
      · show (w.nextRowId.map fun next => (t.nextRowId, next - t.nextRowId)) = some (t.nextRowId, n - t.nextRowId)
        rw [hn]
        rfl
      · show ∀ f ∈ w.entries, ∀ x, f.rowSpan = some x → x.2 ≤ t.nextRowId + (n - t.nextRowId)
        intro f hf x hx
        obtain ⟨m, hm, hmf⟩ := exists_of_forall₂ hall (hwgs ▸ hf)
        rcases hmf x hx with hold | ⟨-, hto⟩
        · exact Nat.le_trans (hspans m hm x hold) (Nat.le_add_right _ _)
        · omega
      · show w.entries.Pairwise ManifestFile.Apart
        rw [hwgs]
        exact hgsApart }

end FastAppend

end IcebergDb.Table
