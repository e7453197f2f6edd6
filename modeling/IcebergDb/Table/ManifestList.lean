import IcebergDb.Table.TableMetadata

/-!
# Manifest lists

* `ManifestFile.write`, `ManifestFile.read` — the entry of a manifest list, in each format version;
* `ManifestListWriter` — sequence numbers and row ids are given out when the list is written;
* `ManifestFile.Carries`, `ManifestFile.Counted` — what an entry keeps, and what its counts say;
* `addManifests_eq_ok` — the entries that are written, with their numbers;
* `addManifests_rows` — the row ids that are given out do not overlap.
-/

namespace IcebergDb.Table

open IcebergDb.Checked

/-! ### Entries of manifest lists -/

/-- `UNASSIGNED_SEQUENCE_NUMBER`. -/
def unassignedSequenceNumber : ℤ := -1

/-- A count that the file has, or not, as a signed integer. -/
def optionalCount (bits : ℕ) : Option ℕ → Except Error Unit
  | none => .ok ()
  | some n => require (n < 2 ^ (bits - 1)) (dataInvalid "failed to convert integer")

/-- A count that the file has. -/
def requiredCount (message : String) (bits : ℕ) : Option ℕ → Except Error Unit
  | none => .error (dataInvalid message)
  | some n => optionalCount bits (some n)

namespace ManifestFile

variable (m : ManifestFile)

/-- The checks of the counts, in the order of the fields. -/
def checkCounts (check : String → ℕ → Option ℕ → Except Error Unit) : Except Error Unit := do
  check "added_data_files_count" 32 m.addedFilesCount
  check "existing_data_files_count" 32 m.existingFilesCount
  check "deleted_data_files_count" 32 m.deletedFilesCount
  check "added_rows_count" 64 m.addedRowsCount
  check "existing_rows_count" 64 m.existingRowsCount
  check "deleted_rows_count" 64 m.deletedRowsCount

/-- The fields that entries of version 1 do not have, as they are read. -/
def withoutV2Fields : ManifestFile :=
  { m with content := .data, sequenceNumber := 0, minSequenceNumber := 0, firstRowId := none }

/-- The conversions into `ManifestFileV1`, `ManifestFileV2` and `ManifestFileV3`. -/
def write (version : FormatVersion) : Except Error ManifestFile :=
  match version with
  | .v1 => do
      m.checkCounts fun _ => optionalCount
      return m.withoutV2Fields
  | .v2 => do
      m.checkCounts fun field => requiredCount (field ++ " in ManifestFileV2 should be require")
      return { m with firstRowId := none }
  | .v3 => do
      m.checkCounts fun field => requiredCount (field ++ " in ManifestFileV3 is required")
      return m

/-- `ManifestList::parse_with_version` on one entry. -/
def read (version : FormatVersion) : Except Error ManifestFile :=
  match version with
  | .v1 => .ok m.withoutV2Fields
  | .v2 => do
      m.checkCounts fun _ => requiredCount "Failure in conversion with avro"
      return { m with firstRowId := none }
  | .v3 => do
      m.checkCounts fun _ => requiredCount "Failure in conversion with avro"
      return m

end ManifestFile

/-- `load_manifest_list`. -/
def Snapshot.loadManifestList (s : Snapshot) (t : TableMetadata) : Except Error (List ManifestFile) :=
  s.manifests.mapM fun m => m.read t.formatVersion

/-! ### The writer of manifest lists -/

/-- `ManifestListWriter`, with the entries that are written. -/
structure ManifestListWriter where
  formatVersion : FormatVersion
  sequenceNumber : ℤ
  snapshotId : ℤ
  nextRowId : Option ℕ
  entries : List ManifestFile

namespace ManifestListWriter

variable (w : ManifestListWriter)

/-- An unassigned number is that of the snapshot which added the manifest. -/
def assignNumber (m : ManifestFile) (number : ℤ) : Except Error ℤ :=
  if number = unassignedSequenceNumber then
    if m.addedSnapshotId ≠ w.snapshotId then
      .error (dataInvalid ("Found unassigned sequence number for a manifest from snapshot " ++
        toString m.addedSnapshotId ++ "."))
    else .ok w.sequenceNumber
  else .ok number

/-- `assign_sequence_numbers`. -/
def assignSequenceNumbers (m : ManifestFile) : Except Error ManifestFile := do
  let sequenceNumber ← w.assignNumber m m.sequenceNumber
  let minSequenceNumber ← w.assignNumber m m.minSequenceNumber
  return { m with sequenceNumber := sequenceNumber, minSequenceNumber := minSequenceNumber }

/-- `require_row_counts_in_manifest`. -/
def requireRowCountsInManifest (m : ManifestFile) : Except Error (ℕ × ℕ) :=
  match m.existingRowsCount, m.addedRowsCount with
  | none, _ => .error (dataInvalid ("Cannot include a Manifest without existing-rows-count to a table with row " ++
      "lineage enabled. Manifest path: " ++ m.manifestPath))
  | some _, none => .error (dataInvalid ("Cannot include a Manifest without added-rows-count to a table with " ++
      "row lineage enabled. Manifest path: " ++ m.manifestPath))
  | some existing, some added => .ok (existing, added)

/-- `assign_first_row_id`: the manifest, and the next row id of the writer. -/
def assignFirstRowId (m : ManifestFile) : Except Error (ManifestFile × Option ℕ) :=
  match m.content with
  | .deletes => .ok ({ m with firstRowId := none }, w.nextRowId)
  | .data =>
      match w.nextRowId, m.firstRowId with
      | some _, some _ => .ok (m, w.nextRowId)
      | none, some first => .error ⟨.unexpected, "Found invalid first-row-id assignment for Manifest " ++
          m.manifestPath ++ ". Writer does not have a next-row-id assigned, but the manifest has first-row-id " ++
          "assigned to " ++ toString first ++ ".", false⟩
      | some next, none => do
          let (existing, added) ← requireRowCountsInManifest m
          require (next + existing + added < 2 ^ 64)
            (dataInvalid ("Row ID overflow when computing next row ID for Manifest " ++ m.manifestPath ++
              ". Next Row ID: " ++ toString next ++ ", Existing Rows Count: " ++ toString existing ++
              ", Added Rows Count: " ++ toString added))
          return ({ m with firstRowId := some next }, some (next + existing + added))
      | none, none => .ok (m, none)

/-- `add_manifests` on one manifest. -/
def addManifest (m : ManifestFile) : Except Error ManifestListWriter :=
  match w.formatVersion with
  | .v1 => do
      let entry ← m.write .v1
      return { w with entries := w.entries ++ [entry] }
  | .v2 => do
      let m ← w.assignSequenceNumbers m
      let entry ← m.write .v2
      return { w with entries := w.entries ++ [entry] }
  | .v3 => do
      let m ← w.assignSequenceNumbers m
      let (m, next) ← w.assignFirstRowId m
      let entry ← m.write .v3
      return { w with nextRowId := next, entries := w.entries ++ [entry] }

/-- `add_manifests`. -/
def addManifests (manifests : List ManifestFile) : Except Error ManifestListWriter := manifests.foldlM addManifest w

end ManifestListWriter

/-! ### What is carried over -/

namespace ManifestFile

/-- The rows that get row ids. -/
def rows (m : ManifestFile) : ℕ := m.existingRowsCount.getD 0 + m.addedRowsCount.getD 0

/-- The row ids of a data manifest, if it has any. -/
def rowSpan (m : ManifestFile) : Option (ℕ × ℕ) :=
  match m.content, m.firstRowId with
  | .data, some first => some (first, first + m.rows)
  | _, _ => none

/-- The manifest and its counts; the numbers that are assigned may differ. -/
structure Carries (m e : ManifestFile) : Prop where
  entries : e.entries = m.entries
  addedFilesCount : e.addedFilesCount = m.addedFilesCount
  existingFilesCount : e.existingFilesCount = m.existingFilesCount
  rows : e.rows = m.rows

/-- The counts, where they are known, are those of the entries. -/
structure Counted (m : ManifestFile) : Prop where
  added : ∀ c, m.addedFilesCount = some c → c = m.entries.countP fun e => decide (e.status = .added)
  existing : ∀ c, m.existingFilesCount = some c → c = m.entries.countP fun e => decide (e.status = .existing)

theorem Carries.refl (m : ManifestFile) : m.Carries m := ⟨rfl, rfl, rfl, rfl⟩

theorem Carries.trans {a b c : ManifestFile} (h : a.Carries b) (h' : b.Carries c) : a.Carries c :=
  ⟨h'.entries.trans h.entries, h'.addedFilesCount.trans h.addedFilesCount,
    h'.existingFilesCount.trans h.existingFilesCount, h'.rows.trans h.rows⟩

theorem Carries.liveFiles {m e : ManifestFile} (h : m.Carries e) : e.liveFiles = m.liveFiles := by
  unfold ManifestFile.liveFiles
  rw [h.entries]

theorem Carries.counted {m e : ManifestFile} (h : m.Carries e) (hm : m.Counted) : e.Counted := by
  refine ⟨fun c hc => ?_, fun c hc => ?_⟩
  · rw [h.entries]
    exact hm.added c (h.addedFilesCount ▸ hc)
  · rw [h.entries]
    exact hm.existing c (h.existingFilesCount ▸ hc)

theorem write_eq_ok {v : FormatVersion} {m e : ManifestFile} (h : m.write v = .ok e) : m.Carries e := by
  cases v with
  | v1 =>
      obtain ⟨u, -, hu⟩ := bind_eq_ok h
      cases hu
      exact ⟨rfl, rfl, rfl, rfl⟩
  | v2 =>
      obtain ⟨u, -, hu⟩ := bind_eq_ok h
      cases hu
      exact ⟨rfl, rfl, rfl, rfl⟩
  | v3 =>
      obtain ⟨u, -, hu⟩ := bind_eq_ok h
      cases hu
      exact .refl m

theorem read_eq_ok {v : FormatVersion} {m e : ManifestFile} (h : m.read v = .ok e) : m.Carries e := by
  cases v with
  | v1 =>
      cases h
      exact ⟨rfl, rfl, rfl, rfl⟩
  | v2 =>
      obtain ⟨u, -, hu⟩ := bind_eq_ok h
      cases hu
      exact ⟨rfl, rfl, rfl, rfl⟩
  | v3 =>
      obtain ⟨u, -, hu⟩ := bind_eq_ok h
      cases hu
      exact .refl m

/-- A manifest that the counts report as empty has no file of the table. -/
theorem Counted.liveFiles_eq_nil {m : ManifestFile} (hm : m.Counted)
    (h : (m.hasAddedFiles || m.hasExistingFiles) = false) : m.liveFiles = [] := by
  rw [Bool.or_eq_false_iff] at h
  have hadded : ∀ e ∈ m.entries, e.status ≠ .added := by
    cases hc : m.addedFilesCount with
    | none => simp [hasAddedFiles, hc] at h
    | some c =>
        have hzero : c = 0 := by simpa [hasAddedFiles, hc] using h.1
        have hcount := (hm.added c hc).symm
        rw [hzero, List.countP_eq_zero] at hcount
        simpa using hcount
  have hexisting : ∀ e ∈ m.entries, e.status ≠ .existing := by
    cases hc : m.existingFilesCount with
    | none => simp [hasExistingFiles, hc] at h
    | some c =>
        have hzero : c = 0 := by simpa [hasExistingFiles, hc] using h.2
        have hcount := (hm.existing c hc).symm
        rw [hzero, List.countP_eq_zero] at hcount
        simpa using hcount
  show (m.entries.filter ManifestEntry.isAlive).map ManifestEntry.filePath = []
  rw [List.map_eq_nil_iff, List.filter_eq_nil_iff]
  intro e he halive
  cases hs : e.status with
  | added => exact hadded e he hs
  | existing => exact hexisting e he hs
  | deleted => simp [ManifestEntry.isAlive, hs] at halive

end ManifestFile

theorem exists_of_forall₂ {α β : Type} {R : α → β → Prop} {l : List α} {m : List β} {b : β}
    (h : List.Forall₂ R l m) (hb : b ∈ m) : ∃ a ∈ l, R a b := by
  induction h with
  | nil => cases hb
  | @cons a c l m hac _ ih =>
      rcases List.mem_cons.mp hb with rfl | hmem
      · exact ⟨a, List.mem_cons_self, hac⟩
      · obtain ⟨x, hx, hxb⟩ := ih hmem
        exact ⟨x, List.mem_cons_of_mem a hx, hxb⟩

/-- Two lists of manifests of which one carries the other have the same files. -/
theorem liveFiles_of_carries {ms es : List ManifestFile} (h : List.Forall₂ ManifestFile.Carries ms es) :
    es.flatMap ManifestFile.liveFiles = ms.flatMap ManifestFile.liveFiles := by
  induction h with
  | nil => rfl
  | cons hme _ ih => rw [List.flatMap_cons, List.flatMap_cons, hme.liveFiles, ih]

theorem counted_of_carries {ms es : List ManifestFile} (h : List.Forall₂ ManifestFile.Carries ms es)
    (hms : ∀ m ∈ ms, m.Counted) : ∀ e ∈ es, e.Counted := by
  intro e he
  obtain ⟨m, hm, hme⟩ := exists_of_forall₂ h he
  exact hme.counted (hms m hm)

theorem loadManifestList_eq_ok {s : Snapshot} {t : TableMetadata} {ms : List ManifestFile}
    (h : s.loadManifestList t = .ok ms) : List.Forall₂ ManifestFile.Carries s.manifests ms :=
  (mapM_eq_ok h).imp fun _ _ => ManifestFile.read_eq_ok

/-- Manifests without files are dropped, and only these. -/
theorem liveFiles_filter {ms : List ManifestFile} (hms : ∀ m ∈ ms, m.Counted) :
    (ms.filter fun m => m.hasAddedFiles || m.hasExistingFiles).flatMap ManifestFile.liveFiles =
      ms.flatMap ManifestFile.liveFiles := by
  induction ms with
  | nil => rfl
  | cons m ms ih =>
      have hrest := ih fun x hx => hms x (List.mem_cons_of_mem m hx)
      cases hkeep : m.hasAddedFiles || m.hasExistingFiles with
      | true => simp only [List.filter_cons, hkeep, if_true, List.flatMap_cons, hrest]
      | false =>
          have hnil : m.liveFiles = [] := (hms m List.mem_cons_self).liveFiles_eq_nil hkeep
          simp only [List.filter_cons, hkeep, List.flatMap_cons, hnil, List.nil_append]
          exact hrest

namespace ManifestFile

theorem rowSpan_of_none {m : ManifestFile} (h : m.firstRowId = none) : m.rowSpan = none := by
  unfold rowSpan
  rw [h]
  cases m.content <;> rfl

theorem write_sequenceNumber {v : FormatVersion} {m e : ManifestFile} (h : m.write v = .ok e) :
    e.sequenceNumber = if v = .v1 then 0 else m.sequenceNumber := by
  cases v with
  | v1 =>
      obtain ⟨u, -, hu⟩ := bind_eq_ok h
      cases hu
      rfl
  | v2 =>
      obtain ⟨u, -, hu⟩ := bind_eq_ok h
      cases hu
      rfl
  | v3 =>
      obtain ⟨u, -, hu⟩ := bind_eq_ok h
      cases hu
      rfl

theorem read_sequenceNumber {v : FormatVersion} {m e : ManifestFile} (h : m.read v = .ok e) :
    e.sequenceNumber = if v = .v1 then 0 else m.sequenceNumber := by
  cases v with
  | v1 =>
      cases h
      rfl
  | v2 =>
      obtain ⟨u, -, hu⟩ := bind_eq_ok h
      cases hu
      rfl
  | v3 =>
      obtain ⟨u, -, hu⟩ := bind_eq_ok h
      cases hu
      rfl

theorem write_firstRowId {v : FormatVersion} {m e : ManifestFile} (h : m.write v = .ok e) (hv : v ≠ .v3) :
    e.firstRowId = none := by
  cases v with
  | v1 =>
      obtain ⟨u, -, hu⟩ := bind_eq_ok h
      cases hu
      rfl
  | v2 =>
      obtain ⟨u, -, hu⟩ := bind_eq_ok h
      cases hu
      rfl
  | v3 => exact absurd rfl hv

theorem write_v3 {m e : ManifestFile} (h : m.write .v3 = .ok e) : e = m := by
  obtain ⟨u, -, hu⟩ := bind_eq_ok h
  cases hu
  rfl

theorem read_v3 {m e : ManifestFile} (h : m.read .v3 = .ok e) : e = m := by
  obtain ⟨u, -, hu⟩ := bind_eq_ok h
  cases hu
  rfl

/-- The row ids of two manifests do not overlap. -/
def Apart (a b : ManifestFile) : Prop :=
  ∀ x y, a.rowSpan = some x → b.rowSpan = some y → x.2 ≤ y.1 ∨ y.2 ≤ x.1

end ManifestFile

namespace ManifestListWriter

variable {w w' : ManifestListWriter} {m : ManifestFile}

/-- The sequence number that an entry gets. -/
def writtenNumber (w : ManifestListWriter) (m : ManifestFile) : ℤ :=
  if w.formatVersion = .v1 then 0
  else if m.sequenceNumber = unassignedSequenceNumber then w.sequenceNumber
  else m.sequenceNumber

theorem assignNumber_eq_ok {n k : ℤ} (h : w.assignNumber m n = .ok k) :
    k = if n = unassignedSequenceNumber then w.sequenceNumber else n := by
  unfold assignNumber at h
  split at h
  next hn =>
    split at h
    · cases h
    · cases h
      exact (if_pos hn).symm
  next hn =>
    cases h
    exact (if_neg hn).symm

theorem assignSequenceNumbers_eq_ok {e : ManifestFile} (h : w.assignSequenceNumbers m = .ok e) :
    m.Carries e ∧ e.rowSpan = m.rowSpan ∧
      e.sequenceNumber = if m.sequenceNumber = unassignedSequenceNumber then w.sequenceNumber
        else m.sequenceNumber := by
  obtain ⟨n, hn, h⟩ := bind_eq_ok h
  obtain ⟨k, -, h⟩ := bind_eq_ok h
  cases h
  exact ⟨⟨rfl, rfl, rfl, rfl⟩, rfl, assignNumber_eq_ok hn⟩

theorem requireRowCountsInManifest_eq_ok {c : ℕ × ℕ} (h : requireRowCountsInManifest m = .ok c) :
    c.1 + c.2 = m.rows := by
  unfold requireRowCountsInManifest at h
  split at h
  · cases h
  · cases h
  next existing added hexisting hadded =>
    cases h
    show existing + added = m.existingRowsCount.getD 0 + m.addedRowsCount.getD 0
    rw [hexisting, hadded]
    rfl

theorem assignFirstRowId_eq_ok {r : ManifestFile × Option ℕ} (h : w.assignFirstRowId m = .ok r) :
    m.Carries r.1 ∧ r.1.sequenceNumber = m.sequenceNumber ∧
      ∀ n, w.nextRowId = some n → (r.1.rowSpan = m.rowSpan ∧ r.2 = some n) ∨
        (m.rowSpan = none ∧ r.1.rowSpan = some (n, n + m.rows) ∧ r.2 = some (n + m.rows)) := by
  unfold assignFirstRowId at h
  split at h
  next hcontent =>
    cases h
    refine ⟨⟨rfl, rfl, rfl, rfl⟩, rfl, fun n hn => .inl ⟨?_, hn⟩⟩
    simp only [ManifestFile.rowSpan, hcontent]
  next hcontent =>
    split at h
    · cases h
      exact ⟨.refl m, rfl, fun n hn => .inl ⟨rfl, hn⟩⟩
    · cases h
    next next hnext hfirst =>
      obtain ⟨c, hc, h⟩ := bind_eq_ok h
      obtain ⟨-, h⟩ := require_bind h
      cases h
      have hrows : next + c.1 + c.2 = next + m.rows := by
        rw [Nat.add_assoc, requireRowCountsInManifest_eq_ok hc]
      refine ⟨⟨rfl, rfl, rfl, rfl⟩, rfl, fun n hn => .inr ⟨ManifestFile.rowSpan_of_none hfirst, ?_, ?_⟩⟩
      · have heq : next = n := Option.some.inj (hnext.symm.trans hn)
        rw [← heq]
        simp only [ManifestFile.rowSpan, hcontent]
        rfl
      · have heq : next = n := Option.some.inj (hnext.symm.trans hn)
        rw [← heq]
        exact congrArg some hrows
    next hnext _ =>
      cases h
      refine ⟨.refl m, rfl, fun n hn => ?_⟩
      rw [hnext] at hn
      cases hn

/-- What writing one entry does. -/
structure Written (w w' : ManifestListWriter) (m e : ManifestFile) : Prop where
  entries : w'.entries = w.entries ++ [e]
  formatVersion : w'.formatVersion = w.formatVersion
  sequenceNumber : w'.sequenceNumber = w.sequenceNumber
  carries : m.Carries e
  number : e.sequenceNumber = w.writtenNumber m
  noRowIds : w.formatVersion ≠ .v3 → e.firstRowId = none ∧ w'.nextRowId = w.nextRowId
  rowIds : w.formatVersion = .v3 → ∀ n, w.nextRowId = some n →
    (e.rowSpan = m.rowSpan ∧ w'.nextRowId = some n) ∨
      (m.rowSpan = none ∧ e.rowSpan = some (n, n + m.rows) ∧ w'.nextRowId = some (n + m.rows))

theorem addManifest_eq_ok (h : w.addManifest m = .ok w') : ∃ e, Written w w' m e := by
  unfold addManifest at h
  split at h
  next hv =>
    obtain ⟨e, he, h⟩ := bind_eq_ok h
    cases h
    refine ⟨e, rfl, rfl, rfl, ManifestFile.write_eq_ok he, ?_, fun _ => ⟨?_, rfl⟩, fun h3 => ?_⟩
    · rw [ManifestFile.write_sequenceNumber he, writtenNumber, if_pos rfl, if_pos hv]
    · exact ManifestFile.write_firstRowId he (by decide)
    · rw [hv] at h3
      cases h3
  next hv =>
    obtain ⟨x, hx, h⟩ := bind_eq_ok h
    obtain ⟨e, he, h⟩ := bind_eq_ok h
    cases h
    obtain ⟨hcarries, -, hnumber⟩ := assignSequenceNumbers_eq_ok hx
    refine ⟨e, rfl, rfl, rfl, hcarries.trans (ManifestFile.write_eq_ok he), ?_, fun _ => ⟨?_, rfl⟩, fun h3 => ?_⟩
    · have hne : ¬ w.formatVersion = .v1 := fun h1 => by rw [hv] at h1; cases h1
      rw [ManifestFile.write_sequenceNumber he, hnumber, writtenNumber, if_neg (by decide), if_neg hne]
    · exact ManifestFile.write_firstRowId he (by decide)
    · rw [hv] at h3
      cases h3
  next hv =>
    obtain ⟨x, hx, h⟩ := bind_eq_ok h
    obtain ⟨y, hy, h⟩ := bind_eq_ok h
    obtain ⟨e, he, h⟩ := bind_eq_ok h
    cases h
    obtain ⟨hcarries, hspan, hnumber⟩ := assignSequenceNumbers_eq_ok hx
    obtain ⟨hcarries', hnumber', hrows⟩ := assignFirstRowId_eq_ok hy
    rw [ManifestFile.write_v3 he]
    refine ⟨y.1, rfl, rfl, rfl, hcarries.trans hcarries', ?_, fun h3 => absurd hv h3, fun _ n hn => ?_⟩
    · have hne : ¬ w.formatVersion = .v1 := fun h1 => by rw [hv] at h1; cases h1
      rw [hnumber', hnumber, writtenNumber, if_neg hne]
    · have hspans := hrows n hn
      rw [hspan, hcarries.rows] at hspans
      exact hspans

theorem writtenNumber_congr (hv : w'.formatVersion = w.formatVersion)
    (hn : w'.sequenceNumber = w.sequenceNumber) : w'.writtenNumber = w.writtenNumber := by
  funext x
  unfold writtenNumber
  rw [hv, hn]

/-- The entries that are written, with their numbers. -/
theorem addManifests_eq_ok {ms : List ManifestFile} (h : w.addManifests ms = .ok w') :
    ∃ es, w'.entries = w.entries ++ es ∧ w'.formatVersion = w.formatVersion ∧
      w'.sequenceNumber = w.sequenceNumber ∧
      List.Forall₂ (fun m e => ManifestFile.Carries m e ∧ e.sequenceNumber = w.writtenNumber m) ms es ∧
      (w.formatVersion ≠ .v3 → (∀ e ∈ es, e.firstRowId = none) ∧ w'.nextRowId = w.nextRowId) := by
  induction ms generalizing w with
  | nil =>
      cases h
      exact ⟨[], (List.append_nil _).symm, rfl, rfl, .nil, fun _ => ⟨by simp, rfl⟩⟩
  | cons m ms ih =>
      obtain ⟨v, hv, hrest⟩ := bind_eq_ok (show (w.addManifest m >>= fun v => v.addManifests ms) = .ok w' from h)
      obtain ⟨e, he⟩ := addManifest_eq_ok hv
      obtain ⟨es, hes, hversion, hsequence, hall, hnone⟩ := ih hrest
      rw [writtenNumber_congr he.formatVersion he.sequenceNumber] at hall
      refine ⟨e :: es, ?_, hversion.trans he.formatVersion, hsequence.trans he.sequenceNumber,
        .cons ⟨he.carries, he.number⟩ hall, fun h3 => ?_⟩
      · rw [hes, he.entries, List.append_assoc]
        rfl
      · obtain ⟨hfirst, hnext⟩ := he.noRowIds h3
        obtain ⟨hfirsts, hnexts⟩ := hnone (he.formatVersion ▸ h3)
        exact ⟨List.forall_mem_cons.mpr ⟨hfirst, hfirsts⟩, hnexts.trans hnext⟩

/-- Row ids are given out from the next one on, without overlaps. -/
theorem addManifests_rows {ms : List ManifestFile} {bound n : ℕ} (h : w.addManifests ms = .ok w')
    (h3 : w.formatVersion = .v3) (hn : w.nextRowId = some n) (hbound : bound ≤ n)
    (hms : ∀ m ∈ ms, ∀ x, m.rowSpan = some x → x.2 ≤ bound) (hapart : ms.Pairwise ManifestFile.Apart) :
    ∃ es n', w'.entries = w.entries ++ es ∧ w'.nextRowId = some n' ∧ n ≤ n' ∧
      List.Forall₂ (fun m e => ∀ y, e.rowSpan = some y → m.rowSpan = some y ∨ (n ≤ y.1 ∧ y.2 ≤ n')) ms es ∧
      es.Pairwise ManifestFile.Apart := by
  induction ms generalizing w n with
  | nil =>
      cases h
      exact ⟨[], n, (List.append_nil _).symm, hn, Nat.le_refl n, .nil, .nil⟩
  | cons m ms ih =>
      obtain ⟨v, hv, hrest⟩ := bind_eq_ok (show (w.addManifest m >>= fun v => v.addManifests ms) = .ok w' from h)
      obtain ⟨e, he⟩ := addManifest_eq_ok hv
      have hv3 : v.formatVersion = .v3 := he.formatVersion.trans h3
      have htail : ∀ x ∈ ms, ∀ y, x.rowSpan = some y → y.2 ≤ bound := fun x hx =>
        hms x (List.mem_cons_of_mem m hx)
      obtain ⟨hhead, hpairs⟩ := List.pairwise_cons.mp hapart
      rcases he.rowIds h3 n hn with ⟨hspan, hnext⟩ | ⟨hnone, hspan, hnext⟩
      · obtain ⟨es, n', hes, hn', hle, hall, hes'⟩ := ih hrest hv3 hnext hbound htail hpairs
        refine ⟨e :: es, n', ?_, hn', hle, .cons (fun y hy => .inl (hspan ▸ hy)) hall, ?_⟩
        · rw [hes, he.entries, List.append_assoc]
          rfl
        · refine List.pairwise_cons.mpr ⟨fun f hf x y hx hy => ?_, hes'⟩
          have hxb : x.2 ≤ bound := hms m List.mem_cons_self x (hspan ▸ hx)
          obtain ⟨k, hk, hkf⟩ := exists_of_forall₂ hall hf
          rcases hkf y hy with hold | ⟨hfrom, -⟩
          · exact hhead k hk x y (hspan ▸ hx) hold
          · left
            omega
      · have hle1 : n ≤ n + m.rows := Nat.le_add_right n m.rows
        obtain ⟨es, n', hes, hn', hle, hall, hes'⟩ := ih hrest hv3 hnext (Nat.le_trans hbound hle1) htail hpairs
        refine ⟨e :: es, n', ?_, hn', Nat.le_trans hle1 hle, .cons (fun y hy => .inr ?_) ?_, ?_⟩
        · rw [hes, he.entries, List.append_assoc]
          rfl
        · cases hspan.symm.trans hy
          exact ⟨Nat.le_refl n, hle⟩
        · exact hall.imp fun a b hab y hy => (hab y hy).imp id fun hy' => ⟨Nat.le_trans hle1 hy'.1, hy'.2⟩
        · refine List.pairwise_cons.mpr ⟨fun f hf x y hx hy => ?_, hes'⟩
          cases hspan.symm.trans hx
          obtain ⟨k, hk, hkf⟩ := exists_of_forall₂ hall hf
          rcases hkf y hy with hold | ⟨hfrom, -⟩
          · right
            exact Nat.le_trans (htail k hk y hold) hbound
          · left
            exact hfrom

end ManifestListWriter

end IcebergDb.Table
