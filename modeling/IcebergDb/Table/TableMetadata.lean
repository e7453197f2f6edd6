import IcebergDb.Foundation.Checked
import IcebergDb.Foundation.Text
import Mathlib.Data.List.AList

/-!
# Table metadata and its builder

The part of the table metadata that commits change: snapshots with the manifests in their manifest lists,
references to snapshots, sequence numbers and row ids.  Objects in the storage are written once, so a manifest
list and a manifest stand for what is in them.

* `ManifestFile`, `Snapshot`, `TableMetadata` — the metadata;
* `TableUpdate`, `TableMetadataBuilder` — the updates, which the builder applies one by one;
* `TableMetadataBuilder.build` — the checks at the end;
* `TableRequirement.check` — what a commit demands of the metadata it meets;
* `quiet_updates`, `addSnapshot_eq_ok`, `setRef_main`, `build_eq_ok` — what the builder does to snapshots.
-/

namespace IcebergDb.Table

open IcebergDb.Checked

/-! ### Errors -/

/-- `ErrorKind`, as far as it occurs here. -/
inductive ErrorKind where
  | dataInvalid
  | preconditionFailed
  | catalogCommitConflicts
  | unexpected
deriving DecidableEq

/-- `Error`. -/
structure Error where
  kind : ErrorKind
  message : String
  retryable : Bool
deriving DecidableEq

/-- An error of the kind `DataInvalid`. -/
def dataInvalid (message : String) : Error := ⟨.dataInvalid, message, false⟩

/-- A requirement that is not met; the commit may be tried again. -/
def conflict (message : String) : Error := ⟨.catalogCommitConflicts, "Requirement failed: " ++ message, true⟩

/-! ### Manifests -/

/-- `FormatVersion`. -/
inductive FormatVersion where
  | v1
  | v2
  | v3
deriving DecidableEq

/-- `format_version as u8`. -/
def FormatVersion.number : FormatVersion → ℕ
  | v1 => 1
  | v2 => 2
  | v3 => 3

/-- `ManifestStatus`. -/
inductive ManifestStatus where
  | existing
  | added
  | deleted
deriving DecidableEq

/-- `ManifestEntry`. -/
structure ManifestEntry where
  status : ManifestStatus
  filePath : String
  recordCount : ℕ

/-- `is_alive`. -/
def ManifestEntry.isAlive (e : ManifestEntry) : Bool := decide (e.status ≠ .deleted)

/-- `ManifestContentType`. -/
inductive ManifestContentType where
  | data
  | deletes
deriving DecidableEq

/-- `ManifestFile`, with the entries of the manifest. -/
structure ManifestFile where
  manifestPath : String
  content : ManifestContentType
  sequenceNumber : ℤ
  minSequenceNumber : ℤ
  addedSnapshotId : ℤ
  addedFilesCount : Option ℕ
  existingFilesCount : Option ℕ
  deletedFilesCount : Option ℕ
  addedRowsCount : Option ℕ
  existingRowsCount : Option ℕ
  deletedRowsCount : Option ℕ
  firstRowId : Option ℕ
  entries : List ManifestEntry

namespace ManifestFile

/-- `has_added_files`. -/
def hasAddedFiles (m : ManifestFile) : Bool := (m.addedFilesCount.map fun c => decide (0 < c)).getD true

/-- `has_existing_files`. -/
def hasExistingFiles (m : ManifestFile) : Bool := (m.existingFilesCount.map fun c => decide (0 < c)).getD true

/-- The files of the manifest that are part of the table. -/
def liveFiles (m : ManifestFile) : List String := (m.entries.filter ManifestEntry.isAlive).map ManifestEntry.filePath

end ManifestFile

/-! ### Snapshots -/

/-- `Snapshot`, with the manifests of its manifest list. -/
structure Snapshot where
  snapshotId : ℤ
  parentSnapshotId : Option ℤ
  sequenceNumber : ℤ
  timestampMs : ℤ
  manifests : List ManifestFile
  rowRange : Option (ℕ × ℕ)

/-- `SnapshotRetention`. -/
inductive SnapshotRetention where
  | branch (minSnapshotsToKeep maxSnapshotAgeMs maxRefAgeMs : Option ℤ)
  | tag (maxRefAgeMs : Option ℤ)
deriving DecidableEq

/-- `SnapshotReference`. -/
structure SnapshotReference where
  snapshotId : ℤ
  retention : SnapshotRetention
deriving DecidableEq

/-- `SnapshotLog`. -/
structure SnapshotLog where
  snapshotId : ℤ
  timestampMs : ℤ
deriving DecidableEq

/-- `MAIN_BRANCH`. -/
def mainBranch : String := "main"

/-- `ONE_MINUTE_MS`. -/
def oneMinuteMs : ℤ := 60000

/-- `TableMetadata`. -/
structure TableMetadata where
  uuid : ℕ
  formatVersion : FormatVersion
  location : String
  lastSequenceNumber : ℤ
  lastUpdatedMs : ℤ
  defaultSpecId : ℤ
  properties : AList fun _ : String => String
  snapshots : AList fun _ : ℤ => Snapshot
  refs : AList fun _ : String => SnapshotReference
  currentSnapshotId : Option ℤ
  snapshotLog : List SnapshotLog
  nextRowId : ℕ

namespace TableMetadata

/-- `next_sequence_number`. -/
def nextSequenceNumber (m : TableMetadata) : ℤ :=
  match m.formatVersion with
  | .v1 => 0
  | _ => m.lastSequenceNumber + 1

/-- `current_snapshot`. -/
def currentSnapshot (m : TableMetadata) : Option Snapshot := m.currentSnapshotId.bind m.snapshots.lookup

/-- `snapshot_for_ref`. -/
def snapshotForRef (m : TableMetadata) (ref : String) : Option Snapshot :=
  (m.refs.lookup ref).bind fun r => m.snapshots.lookup r.snapshotId

/-- The manifests of the current snapshot. -/
def currentManifests (m : TableMetadata) : List ManifestFile := (m.currentSnapshot.map Snapshot.manifests).getD []

/-- The files of the table. -/
def liveFiles (m : TableMetadata) : List String := m.currentManifests.flatMap ManifestFile.liveFiles

end TableMetadata

/-! ### The builder -/

/-- `TableUpdate`, as far as the transactions here produce it. -/
inductive TableUpdate where
  | addSnapshot (snapshot : Snapshot)
  | setSnapshotRef (refName : String) (reference : SnapshotReference)
  | setProperties (updates : List (String × String))
  | removeProperties (removals : List String)
  | setLocation (location : String)
  | upgradeFormatVersion (version : FormatVersion)

/-- `TableMetadataBuilder`. -/
structure TableMetadataBuilder where
  metadata : TableMetadata
  changes : List TableUpdate
  lastUpdatedMs : Option ℤ

/-- `into_builder`. -/
def TableMetadata.intoBuilder (m : TableMetadata) : TableMetadataBuilder := ⟨m, [], none⟩

/-- `RESERVED_PROPERTIES`. -/
def reservedProperties : List String :=
  ["format-version", "uuid", "snapshot-count", "current-snapshot-id", "current-snapshot-summary",
    "current-snapshot-timestamp-ms", "current-schema", "default-partition-spec", "default-sort-order"]

namespace TableMetadataBuilder

variable (b : TableMetadataBuilder)

/-- The check of the rows of a snapshot, which yields the next row id of the table. -/
def addedRows (snapshot : Snapshot) : Except Error ℕ :=
  if 3 ≤ b.metadata.formatVersion.number then
    match snapshot.rowRange with
    | none => .error (dataInvalid ("Cannot add a snapshot: first-row-id is null. first-row-id must be set for " ++
        "format version >= v3"))
    | some (first, rows) =>
        if first < b.metadata.nextRowId then
          .error (dataInvalid ("Cannot add a snapshot, first-row-id is behind table next-row-id: " ++
            toString first ++ " < " ++ toString b.metadata.nextRowId))
        else if 2 ^ 64 ≤ b.metadata.nextRowId + rows then
          .error (dataInvalid "Cannot add snapshot: next-row-id overflowed when adding added-rows")
        else .ok (b.metadata.nextRowId + rows)
  else .ok b.metadata.nextRowId

/-- `add_snapshot`. -/
def addSnapshot (snapshot : Snapshot) : Except Error TableMetadataBuilder := do
  require ((b.metadata.snapshots.lookup snapshot.snapshotId).isNone = true)
    (dataInvalid ("Snapshot already exists for: '" ++ toString snapshot.snapshotId ++ "'"))
  require (¬ (b.metadata.formatVersion ≠ .v1 ∧ snapshot.sequenceNumber ≤ b.metadata.lastSequenceNumber ∧
      snapshot.parentSnapshotId ≠ none))
    (dataInvalid ("Cannot add snapshot with sequence number " ++ toString snapshot.sequenceNumber ++
      " older than last sequence number " ++ toString b.metadata.lastSequenceNumber))
  require ((b.metadata.snapshotLog.getLast?.all fun last =>
      decide (-oneMinuteMs ≤ snapshot.timestampMs - last.timestampMs)) = true)
    (dataInvalid ("Invalid snapshot timestamp " ++ toString snapshot.timestampMs ++
      ": before last snapshot timestamp " ++
      toString ((b.metadata.snapshotLog.getLast?.map SnapshotLog.timestampMs).getD 0)))
  require (-oneMinuteMs ≤ snapshot.timestampMs - max (b.lastUpdatedMs.getD 0) b.metadata.lastUpdatedMs)
    (dataInvalid ("Invalid snapshot timestamp " ++ toString snapshot.timestampMs ++
      ": before last updated timestamp " ++ toString (max (b.lastUpdatedMs.getD 0) b.metadata.lastUpdatedMs)))
  let nextRowId ← b.addedRows snapshot
  return ⟨{ b.metadata with
      nextRowId := nextRowId
      lastSequenceNumber := snapshot.sequenceNumber
      snapshots := b.metadata.snapshots.insert snapshot.snapshotId snapshot },
    b.changes ++ [.addSnapshot snapshot], some snapshot.timestampMs⟩

/-- The snapshot was added by this builder. -/
def isAdded (snapshotId : ℤ) : Bool :=
  b.changes.any fun
    | .addSnapshot s => s.snapshotId == snapshotId
    | _ => false

/-- `set_ref`, with the time of the clock. -/
def setRef (now : ℤ) (refName : String) (reference : SnapshotReference) : Except Error TableMetadataBuilder :=
  if b.metadata.refs.lookup refName = some reference then .ok b
  else match b.metadata.snapshots.lookup reference.snapshotId with
    | none => .error (dataInvalid ("Cannot set '" ++ refName ++ "' to unknown snapshot: '" ++
        toString reference.snapshotId ++ "'"))
    | some snapshot =>
        let updated := if b.isAdded snapshot.snapshotId then some snapshot.timestampMs else b.lastUpdatedMs
        let changes := b.changes ++ [.setSnapshotRef refName reference]
        let refs := b.metadata.refs.insert refName reference
        if refName = mainBranch then
          .ok ⟨{ b.metadata with
              refs := refs
              currentSnapshotId := some snapshot.snapshotId
              snapshotLog := b.metadata.snapshotLog ++ [⟨snapshot.snapshotId, updated.getD now⟩] },
            changes, some (updated.getD now)⟩
        else .ok ⟨{ b.metadata with refs := refs }, changes, updated⟩

/-- `set_properties`. -/
def setProperties (updates : List (String × String)) : Except Error TableMetadataBuilder :=
  if updates.any (fun kv => reservedProperties.contains kv.1) then
    .error (dataInvalid ("Table properties should not contain reserved properties, but got: [" ++
      String.intercalate ", " ((updates.map Prod.fst).filter (reservedProperties.contains ·)) ++ "]"))
  else if updates = [] then .ok b
  else .ok { b with
    metadata := { b.metadata with
      properties := updates.foldl (fun m kv => m.insert kv.1 kv.2) b.metadata.properties }
    changes := b.changes ++ [.setProperties updates] }

/-- `remove_properties`. -/
def removeProperties (removals : List String) : Except Error TableMetadataBuilder :=
  if removals.any (reservedProperties.contains ·) then
    .error (dataInvalid ("Table properties to remove contain reserved properties: [" ++
      String.intercalate ", " (removals.filter (reservedProperties.contains ·)) ++ "]"))
  else if removals = [] then .ok b
  else .ok { b with
    metadata := { b.metadata with properties := removals.foldl (fun m k => m.erase k) b.metadata.properties }
    changes := b.changes ++ [.removeProperties removals] }

/-- `set_location`. -/
def setLocation (location : String) : TableMetadataBuilder :=
  let location := Text.trimEndMatches '/' location
  if b.metadata.location = location then b
  else { b with
    metadata := { b.metadata with location := location }
    changes := b.changes ++ [.setLocation location] }

/-- `upgrade_format_version`: a table of version 3 starts with the row id 0. -/
def upgradeFormatVersion (version : FormatVersion) : Except Error TableMetadataBuilder :=
  if version.number < b.metadata.formatVersion.number then
    .error (dataInvalid ("Cannot downgrade FormatVersion from v" ++ toString b.metadata.formatVersion.number ++
      " to v" ++ toString version.number))
  else if version = b.metadata.formatVersion then .ok b
  else match version with
    | .v1 => .ok b
    | .v2 => .ok { b with
        metadata := { b.metadata with formatVersion := version }
        changes := b.changes ++ [.upgradeFormatVersion version] }
    | .v3 => .ok { b with
        metadata := { b.metadata with formatVersion := version, nextRowId := 0 }
        changes := b.changes ++ [.upgradeFormatVersion version] }

/-- `TableUpdate::apply`. -/
def applyUpdate (now : ℤ) (update : TableUpdate) : Except Error TableMetadataBuilder :=
  match update with
  | .addSnapshot s => b.addSnapshot s
  | .setSnapshotRef name r => b.setRef now name r
  | .setProperties updates => b.setProperties updates
  | .removeProperties removals => b.removeProperties removals
  | .setLocation l => .ok (b.setLocation l)
  | .upgradeFormatVersion v => b.upgradeFormatVersion v

/-- Applies the updates one by one. -/
def applyUpdates (now : ℤ) (updates : List TableUpdate) : Except Error TableMetadataBuilder :=
  updates.foldlM (fun b u => b.applyUpdate now u) b

/-- `get_intermediate_snapshots`: snapshots that were added and made current, and then replaced, by one commit. -/
def intermediateSnapshots : List ℤ :=
  b.changes.filterMap fun
    | .setSnapshotRef name r =>
        if b.isAdded r.snapshotId ∧ name = mainBranch ∧ r.snapshotId ≠ b.metadata.currentSnapshotId.getD (-1) then
          some r.snapshotId
        else none
    | _ => none

/-- `update_snapshot_log`; no update here removes snapshots. -/
def updateSnapshotLog : Except Error (List SnapshotLog) :=
  if b.intermediateSnapshots = [] then .ok b.metadata.snapshotLog
  else
    let log := b.metadata.snapshotLog.filter fun entry =>
      (b.metadata.snapshots.lookup entry.snapshotId).isSome && !b.intermediateSnapshots.contains entry.snapshotId
    if b.metadata.currentSnapshotId ≠ none ∧ log.getLast?.map SnapshotLog.snapshotId ≠ b.metadata.currentSnapshotId
    then .error (dataInvalid "Cannot set invalid snapshot log: latest entry is not the current snapshot")
    else .ok log

end TableMetadataBuilder

namespace TableMetadata

variable (m : TableMetadata)

/-- `normalize_current_snapshot`. -/
def normalizeCurrentSnapshot : Except Error TableMetadata :=
  match m.currentSnapshotId with
  | none => .ok m
  | some id =>
      if id = -1 then .ok { m with currentSnapshotId := none }
      else if (m.snapshots.lookup id).isNone then
        .error (dataInvalid ("Snapshot for current snapshot id " ++ toString id ++
          " does not exist in the existing snapshots list"))
      else .ok m

/-- `construct_refs`. -/
def constructRefs : TableMetadata :=
  match m.currentSnapshotId with
  | none => m
  | some id =>
      if mainBranch ∈ m.refs then m
      else { m with refs := m.refs.insert mainBranch ⟨id, .branch none none none⟩ }

/-- The second half of `validate_refs`: the main branch is the current snapshot. -/
def validateMainRef : Except Error Unit :=
  match m.currentSnapshotId, m.refs.lookup mainBranch with
  | some id, some r =>
      if r.snapshotId = id then .ok ()
      else .error (dataInvalid ("Current snapshot id does not match main branch (" ++ toString id ++ " != " ++
        toString r.snapshotId ++ ")"))
  | none, some _ => .error (dataInvalid "Current snapshot is not set, but main branch exists")
  | _, none => .ok ()

/-- `validate_refs`. -/
def validateRefs : Except Error Unit :=
  match m.refs.entries.find? fun e => (m.snapshots.lookup e.2.snapshotId).isNone with
  | some e => .error (dataInvalid ("Snapshot for reference " ++ e.1 ++
      " does not exist in the existing snapshots list"))
  | none => m.validateMainRef

/-- The entries are in order, with a tolerance for clocks that differ. -/
def logInOrder : List SnapshotLog → Bool
  | prev :: curr :: log => decide (-oneMinuteMs ≤ curr.timestampMs - prev.timestampMs) && logInOrder (curr :: log)
  | _ => true

/-- `validate_chronological_snapshot_logs`. -/
def validateChronologicalSnapshotLogs : Except Error Unit := do
  require (logInOrder m.snapshotLog = true) (dataInvalid "Expected sorted snapshot log entries")
  require ((m.snapshotLog.getLast?.all fun last =>
      decide (-oneMinuteMs ≤ m.lastUpdatedMs - last.timestampMs)) = true)
    (dataInvalid ("Invalid update timestamp " ++ toString m.lastUpdatedMs ++
      ": before last snapshot log entry at " ++
      toString ((m.snapshotLog.getLast?.map SnapshotLog.timestampMs).getD 0)))

/-- `validate_snapshot_sequence_number`. -/
def validateSnapshotSequenceNumber : Except Error Unit :=
  match m.formatVersion with
  | .v1 =>
      if m.lastSequenceNumber = 0 then .ok ()
      else .error (dataInvalid ("Last sequence number must be 0 in v1. Found " ++ toString m.lastSequenceNumber))
  | _ =>
      match m.snapshots.entries.find? fun e => decide (m.lastSequenceNumber < e.2.sequenceNumber) with
      | some e =>
          .error (dataInvalid ("Invalid snapshot with id " ++ toString e.2.snapshotId ++ " and sequence number " ++
            toString e.2.sequenceNumber ++ " greater than last sequence number " ++ toString m.lastSequenceNumber))
      | none => .ok ()

/-- `try_normalize`. -/
def tryNormalize : Except Error TableMetadata := do
  let m ← m.normalizeCurrentSnapshot
  let m := m.constructRefs
  m.validateRefs
  m.validateChronologicalSnapshotLogs
  let m := { m with location := Text.trimEndMatches '/' m.location }
  m.validateSnapshotSequenceNumber
  return m

end TableMetadata

/-- `build`, with the time of the clock. -/
def TableMetadataBuilder.build (b : TableMetadataBuilder) (now : ℤ) : Except Error TableMetadata := do
  let log ← b.updateSnapshotLog
  TableMetadata.tryNormalize { b.metadata with lastUpdatedMs := b.lastUpdatedMs.getD now, snapshotLog := log }

/-! ### Requirements -/

/-- `TableRequirement`, as far as the transactions here produce it. -/
inductive TableRequirement where
  | uuidMatch (uuid : ℕ)
  | refSnapshotIdMatch (ref : String) (snapshotId : Option ℤ)

/-- `check`, on a table that exists. -/
def TableRequirement.check (m : TableMetadata) : TableRequirement → Except Error Unit
  | uuidMatch uuid => require (m.uuid = uuid) (conflict "Table UUID does not match")
  | refSnapshotIdMatch ref (some id) =>
      match m.snapshotForRef ref with
      | none => .error (conflict ("Branch or tag `" ++ ref ++ "` not found"))
      | some s => require (s.snapshotId = id) (conflict ("Branch or tag `" ++ ref ++ "`'s snapshot has changed"))
  | refSnapshotIdMatch ref none =>
      require ((m.snapshotForRef ref).isNone = true) (conflict ("Branch or tag `" ++ ref ++ "` already exists"))

/-! ### What the builder does to snapshots -/

/-- The update leaves snapshots and references alone. -/
def TableUpdate.quiet : TableUpdate → Bool
  | addSnapshot _ => false
  | setSnapshotRef _ _ => false
  | _ => true

/-- The version of the table after the update. -/
def TableUpdate.version (v : FormatVersion) : TableUpdate → FormatVersion
  | upgradeFormatVersion w => if v.number < w.number then w else v
  | _ => v

/-- The snapshots, and what belongs to them, are the same. -/
structure SameSnapshots (m m' : TableMetadata) : Prop where
  uuid : m'.uuid = m.uuid
  snapshots : m'.snapshots = m.snapshots
  refs : m'.refs = m.refs
  currentSnapshotId : m'.currentSnapshotId = m.currentSnapshotId
  lastSequenceNumber : m'.lastSequenceNumber = m.lastSequenceNumber

/-- Row ids are given out from version 3 on. -/
def RowIdsFromV3 (m : TableMetadata) : Prop := m.formatVersion ≠ .v3 → m.nextRowId = 0

/-- What quiet updates do to the metadata. -/
structure Quietly (m : TableMetadata) (us : List TableUpdate) (m' : TableMetadata) : Prop where
  same : SameSnapshots m m'
  formatVersion : m'.formatVersion = us.foldl TableUpdate.version m.formatVersion
  nextRowId : RowIdsFromV3 m → m'.nextRowId = m.nextRowId

theorem SameSnapshots.refl (m : TableMetadata) : SameSnapshots m m := ⟨rfl, rfl, rfl, rfl, rfl⟩

theorem SameSnapshots.trans {a b c : TableMetadata} (h : SameSnapshots a b) (h' : SameSnapshots b c) :
    SameSnapshots a c :=
  ⟨h'.uuid.trans h.uuid, h'.snapshots.trans h.snapshots, h'.refs.trans h.refs,
    h'.currentSnapshotId.trans h.currentSnapshotId, h'.lastSequenceNumber.trans h.lastSequenceNumber⟩

theorem TableUpdate.number_version_upgrade (v w : FormatVersion) :
    ((upgradeFormatVersion w).version v).number = max v.number w.number := by
  cases v <;> cases w <;> rfl

theorem TableUpdate.version_number_le {v w : FormatVersion} (h : v.number ≤ w.number) (u : TableUpdate) :
    (u.version v).number ≤ (u.version w).number := by
  cases u with
  | upgradeFormatVersion x =>
      rw [number_version_upgrade, number_version_upgrade]
      omega
  | _ => exact h

theorem TableUpdate.number_le_version (v : FormatVersion) (u : TableUpdate) : v.number ≤ (u.version v).number := by
  cases u with
  | upgradeFormatVersion x =>
      rw [number_version_upgrade]
      omega
  | _ => exact Nat.le_refl _

/-- There is no later version. -/
theorem FormatVersion.eq_v3_of_le {v w : FormatVersion} (hv : v = .v3) (h : v.number ≤ w.number) : w = .v3 := by
  rw [hv] at h
  cases w with
  | v1 => exact absurd h (by decide)
  | v2 => exact absurd h (by decide)
  | v3 => rfl

theorem foldl_version_le {us : List TableUpdate} {v w : FormatVersion} (h : v.number ≤ w.number) :
    (us.foldl TableUpdate.version v).number ≤ (us.foldl TableUpdate.version w).number := by
  induction us generalizing v w with
  | nil => exact h
  | cons u us ih => exact ih (TableUpdate.version_number_le h u)

theorem le_foldl_version (us : List TableUpdate) (v : FormatVersion) :
    v.number ≤ (us.foldl TableUpdate.version v).number := by
  induction us generalizing v with
  | nil => exact Nat.le_refl _
  | cons u us ih => exact Nat.le_trans (TableUpdate.number_le_version v u) (ih (u.version v))

theorem Quietly.rowIds {m m' : TableMetadata} {us : List TableUpdate} (h : Quietly m us m')
    (hm : RowIdsFromV3 m) : RowIdsFromV3 m' := by
  intro h3
  rw [h.nextRowId hm]
  refine hm fun hm3 => h3 ?_
  rw [h.formatVersion]
  exact FormatVersion.eq_v3_of_le hm3 (le_foldl_version us m.formatVersion)

theorem Quietly.trans {a b c : TableMetadata} {u : TableUpdate} {us : List TableUpdate} (h : Quietly a [u] b)
    (h' : Quietly b us c) : Quietly a (u :: us) c := by
  refine ⟨h.same.trans h'.same, ?_, fun ha => ?_⟩
  · rw [h'.formatVersion, h.formatVersion]
    rfl
  · rw [h'.nextRowId (h.rowIds ha), h.nextRowId ha]

namespace TableMetadataBuilder

variable {b b' : TableMetadataBuilder} {now : ℤ}

theorem upgradeFormatVersion_eq_ok {v : FormatVersion} (h : b.upgradeFormatVersion v = .ok b') :
    Quietly b.metadata [.upgradeFormatVersion v] b'.metadata := by
  unfold upgradeFormatVersion at h
  split at h
  · cases h
  next hle =>
    split at h
    next heq =>
      cases h
      refine ⟨.refl _, ?_, fun _ => rfl⟩
      show b.metadata.formatVersion = if b.metadata.formatVersion.number < v.number then v
        else b.metadata.formatVersion
      rw [heq, if_neg (Nat.lt_irrefl _)]
    next hne =>
      have hlt : b.metadata.formatVersion.number < v.number := by
        cases hb : b.metadata.formatVersion <;> cases v <;> simp_all [FormatVersion.number]
      split at h
      · exact absurd hlt (by cases b.metadata.formatVersion <;> decide)
      · cases h
        exact ⟨⟨rfl, rfl, rfl, rfl, rfl⟩, (if_pos hlt).symm, fun _ => rfl⟩
      · cases h
        refine ⟨⟨rfl, rfl, rfl, rfl, rfl⟩, (if_pos hlt).symm, fun hrows => (hrows fun h3 => ?_).symm⟩
        exact hne h3.symm

/-- An update that is quiet. -/
theorem quiet_update {u : TableUpdate} (hu : u.quiet = true) (h : b.applyUpdate now u = .ok b') :
    Quietly b.metadata [u] b'.metadata := by
  cases u with
  | addSnapshot s => cases hu
  | setSnapshotRef name r => cases hu
  | setProperties updates =>
      have h : b.setProperties updates = .ok b' := h
      unfold setProperties at h
      split at h
      · cases h
      · split at h
        · cases h
          exact ⟨.refl _, rfl, fun _ => rfl⟩
        · cases h
          exact ⟨⟨rfl, rfl, rfl, rfl, rfl⟩, rfl, fun _ => rfl⟩
  | removeProperties removals =>
      have h : b.removeProperties removals = .ok b' := h
      unfold removeProperties at h
      split at h
      · cases h
      · split at h
        · cases h
          exact ⟨.refl _, rfl, fun _ => rfl⟩
        · cases h
          exact ⟨⟨rfl, rfl, rfl, rfl, rfl⟩, rfl, fun _ => rfl⟩
  | setLocation location =>
      cases h
      show Quietly b.metadata [.setLocation location] (b.setLocation location).metadata
      unfold setLocation
      simp only
      split
      · exact ⟨.refl _, rfl, fun _ => rfl⟩
      · exact ⟨⟨rfl, rfl, rfl, rfl, rfl⟩, rfl, fun _ => rfl⟩
  | upgradeFormatVersion v => exact upgradeFormatVersion_eq_ok h

/-- Updates that are quiet, one after the other. -/
theorem quiet_updates {us : List TableUpdate} (hus : ∀ u ∈ us, u.quiet = true)
    (h : b.applyUpdates now us = .ok b') : Quietly b.metadata us b'.metadata := by
  induction us generalizing b with
  | nil =>
      cases h
      exact ⟨.refl _, rfl, fun _ => rfl⟩
  | cons u us ih =>
      obtain ⟨c, hc, hrest⟩ := bind_eq_ok (show (b.applyUpdate now u >>= fun c => c.applyUpdates now us) =
        .ok b' from h)
      exact (quiet_update (hus u List.mem_cons_self) hc).trans
        (ih (fun x hx => hus x (List.mem_cons_of_mem u hx)) hrest)

/-- A snapshot is added once; from version 2 on its number is the highest so far, if it has a parent; from
version 3 on its rows get the next row ids. -/
theorem addSnapshot_eq_ok {s : Snapshot} (h : b.addSnapshot s = .ok b') :
    b.metadata.snapshots.lookup s.snapshotId = none ∧
      (b.metadata.formatVersion ≠ .v1 → s.parentSnapshotId ≠ none → b.metadata.lastSequenceNumber < s.sequenceNumber) ∧
      (b.metadata.formatVersion = .v3 → ∃ first rows, s.rowRange = some (first, rows) ∧
        b.metadata.nextRowId ≤ first ∧ b'.metadata.nextRowId = b.metadata.nextRowId + rows) ∧
      b'.metadata = { b.metadata with
        nextRowId := b'.metadata.nextRowId
        lastSequenceNumber := s.sequenceNumber
        snapshots := b.metadata.snapshots.insert s.snapshotId s } ∧
      (b.metadata.formatVersion ≠ .v3 → b'.metadata.nextRowId = b.metadata.nextRowId) := by
  obtain ⟨hfresh, h⟩ := require_bind h
  obtain ⟨hnumber, h⟩ := require_bind h
  obtain ⟨-, h⟩ := require_bind h
  obtain ⟨-, h⟩ := require_bind h
  obtain ⟨n, hn, h⟩ := bind_eq_ok h
  cases h
  refine ⟨Option.isNone_iff_eq_none.mp hfresh, fun h1 hp => ?_, fun h3 => ?_, rfl, fun h3 => ?_⟩
  · by_contra hle
    exact hnumber ⟨h1, not_lt.mp hle, hp⟩
  · unfold addedRows at hn
    rw [h3, if_pos (by decide)] at hn
    split at hn
    · cases hn
    next first rows hrange =>
      split at hn
      · cases hn
      next hfirst =>
        split at hn
        · cases hn
        · cases hn
          exact ⟨first, rows, hrange, not_lt.mp hfirst, rfl⟩
  · unfold addedRows at hn
    have hlow : ¬ 3 ≤ b.metadata.formatVersion.number := by
      cases hv : b.metadata.formatVersion with
      | v1 => decide
      | v2 => decide
      | v3 => exact absurd hv h3
    rw [if_neg hlow] at hn
    cases hn
    rfl

/-- The main branch is set to a snapshot, which it was not before. -/
theorem setRef_main {r : SnapshotReference} {s : Snapshot} (h : b.setRef now mainBranch r = .ok b')
    (hnew : b.metadata.refs.lookup mainBranch ≠ some r) (hs : b.metadata.snapshots.lookup r.snapshotId = some s) :
    ∃ log, b'.metadata = { b.metadata with
      refs := b.metadata.refs.insert mainBranch r
      currentSnapshotId := some s.snapshotId
      snapshotLog := log } := by
  unfold setRef at h
  rw [if_neg hnew, hs] at h
  simp only [if_true] at h
  cases h
  exact ⟨_, rfl⟩

end TableMetadataBuilder

namespace TableMetadata

variable {m m' : TableMetadata}

/-- The main branch is the current snapshot, which the table has. -/
structure MainIsCurrent (m : TableMetadata) : Prop where
  main : (m.refs.lookup mainBranch).map SnapshotReference.snapshotId = m.currentSnapshotId
  current : ∀ id, m.currentSnapshotId = some id → ∃ s, m.snapshots.lookup id = some s
  normal : m.currentSnapshotId ≠ some (-1)

theorem normalizeCurrentSnapshot_eq_ok (h : m.normalizeCurrentSnapshot = .ok m') :
    (∀ id, m'.currentSnapshotId = some id → id ≠ -1 ∧ ∃ s, m'.snapshots.lookup id = some s) ∧
      ((m' = m ∧ m.currentSnapshotId ≠ some (-1)) ∨
        (m' = { m with currentSnapshotId := none } ∧ m.currentSnapshotId = some (-1))) := by
  unfold normalizeCurrentSnapshot at h
  split at h
  next hnone =>
    cases h
    exact ⟨fun id hid => absurd (hnone.symm.trans hid) (by simp), .inl ⟨rfl, by simp [hnone]⟩⟩
  next id hid =>
    split at h
    next hneg =>
      cases h
      refine ⟨fun x hx => ?_, .inr ⟨rfl, hneg ▸ hid⟩⟩
      cases hx
    next hneg =>
      split at h
      · cases h
      next hsome =>
        cases h
        refine ⟨fun x hx => ?_, .inl ⟨rfl, fun hx => hneg (Option.some.inj (hid.symm.trans hx))⟩⟩
        have heq : id = x := Option.some.inj (hid.symm.trans hx)
        rw [← heq]
        exact ⟨hneg, Option.ne_none_iff_exists'.mp fun hnone => hsome (by rw [hnone]; rfl)⟩

theorem constructRefs_main (id : ℤ) (h : m.currentSnapshotId = some id) :
    ∃ r, m.constructRefs.refs.lookup mainBranch = some r := by
  unfold constructRefs
  rw [h]
  simp only
  split
  next hmem => exact Option.isSome_iff_exists.mp (AList.lookup_isSome.mpr hmem)
  next => exact ⟨_, AList.lookup_insert _⟩

theorem constructRefs_eq (m : TableMetadata) : ∃ refs, m.constructRefs = { m with refs := refs } := by
  unfold constructRefs
  split
  · exact ⟨m.refs, rfl⟩
  · split
    · exact ⟨m.refs, rfl⟩
    · exact ⟨_, rfl⟩

theorem main_of_validateRefs (h : m.validateRefs = .ok ())
    (hmain : ∀ id, m.currentSnapshotId = some id → ∃ r, m.refs.lookup mainBranch = some r) :
    (m.refs.lookup mainBranch).map SnapshotReference.snapshotId = m.currentSnapshotId := by
  unfold validateRefs at h
  split at h
  · cases h
  · unfold validateMainRef at h
    split at h
    next id r hid hr =>
      split at h
      next heq =>
        rw [hr, hid, ← heq]
        rfl
      · cases h
    · cases h
    next hr =>
      cases hcur : m.currentSnapshotId with
      | none => rw [hr]; rfl
      | some id =>
          obtain ⟨r, hr'⟩ := hmain id hcur
          rw [hr] at hr'
          cases hr'

/-- What is normalized keeps its snapshots, and its main branch is the current snapshot. -/
theorem tryNormalize_eq_ok (h : m.tryNormalize = .ok m') :
    MainIsCurrent m' ∧ m'.uuid = m.uuid ∧ m'.snapshots = m.snapshots ∧ m'.formatVersion = m.formatVersion ∧
      m'.lastSequenceNumber = m.lastSequenceNumber ∧ m'.nextRowId = m.nextRowId ∧
      (m.currentSnapshotId ≠ some (-1) → m'.currentSnapshotId = m.currentSnapshotId) := by
  obtain ⟨n, hn, h⟩ := bind_eq_ok h
  obtain ⟨u, hrefs, h⟩ := bind_eq_ok h
  obtain ⟨u', -, h⟩ := bind_eq_ok h
  obtain ⟨u'', -, h⟩ := bind_eq_ok h
  cases h
  obtain ⟨hexists, hcases⟩ := normalizeCurrentSnapshot_eq_ok hn
  obtain ⟨refs, hconstruct⟩ := constructRefs_eq n
  have hmain := main_of_validateRefs hrefs
  have hcurrent : n.constructRefs.currentSnapshotId = n.currentSnapshotId := by rw [hconstruct]
  have hsnapshots : n.constructRefs.snapshots = n.snapshots := by rw [hconstruct]
  refine ⟨⟨?_, ?_, ?_⟩, ?_⟩
  · exact hmain fun id hid => constructRefs_main id (hcurrent ▸ hid)
  · intro id hid
    show ∃ s, n.constructRefs.snapshots.lookup id = some s
    rw [hsnapshots]
    exact (hexists id (hcurrent ▸ hid)).2
  · intro hneg
    exact (hexists (-1) (hcurrent ▸ hneg)).1 rfl
  · show n.constructRefs.uuid = m.uuid ∧ n.constructRefs.snapshots = m.snapshots ∧
      n.constructRefs.formatVersion = m.formatVersion ∧ n.constructRefs.lastSequenceNumber = m.lastSequenceNumber ∧
      n.constructRefs.nextRowId = m.nextRowId ∧
      (m.currentSnapshotId ≠ some (-1) → n.constructRefs.currentSnapshotId = m.currentSnapshotId)
    rw [hconstruct]
    rcases hcases with ⟨rfl, -⟩ | ⟨rfl, hneg⟩
    · exact ⟨rfl, rfl, rfl, rfl, rfl, fun _ => rfl⟩
    · exact ⟨rfl, rfl, rfl, rfl, rfl, fun hne => absurd hneg hne⟩

end TableMetadata

/-- What is built keeps its snapshots, and its main branch is the current snapshot. -/
theorem TableMetadataBuilder.build_eq_ok {b : TableMetadataBuilder} {now : ℤ} {m : TableMetadata}
    (h : b.build now = .ok m) :
    m.MainIsCurrent ∧ m.uuid = b.metadata.uuid ∧ m.snapshots = b.metadata.snapshots ∧
      m.formatVersion = b.metadata.formatVersion ∧ m.lastSequenceNumber = b.metadata.lastSequenceNumber ∧
      m.nextRowId = b.metadata.nextRowId ∧
      (b.metadata.currentSnapshotId ≠ some (-1) → m.currentSnapshotId = b.metadata.currentSnapshotId) := by
  obtain ⟨log, -, h⟩ := bind_eq_ok h
  have hnormalized := TableMetadata.tryNormalize_eq_ok h
  exact hnormalized

end IcebergDb.Table
