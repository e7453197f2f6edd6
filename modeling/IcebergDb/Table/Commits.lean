import IcebergDb.Table.Transaction
import Mathlib.Algebra.Order.BigOperators.Group.List

/-!
# Concurrent commits to one table

Any number of transactions, in any order of their steps, with any clocks and random numbers, and with any number
of retries.

* `liveFiles_run` — the table has the files that it had, and those of the transactions that have committed, each
  once and in the order of the commits;
* `nodup_liveFiles_run` — with the check for duplicates no file is in the table twice;
* `not_done_of_two_appends` — a transaction with two fast appends is never committed;
* `rowIds_run` — row ids do not overlap;
* `newer_step` — what a commit adds has a higher sequence number than all that was there;
* `done_of_single_append` — a fast append is refused only if another transaction has committed.
-/

namespace IcebergDb.Table

open IcebergDb.Checked IcebergDb.Optimistic

variable {ι : Type} [DecidableEq ι] {jobs : ι → Transaction} {store : TableMetadata} {retries : ℕ}

/-- The runs from a table. -/
def commits (jobs : ι → Transaction) (store : TableMetadata) (retries : ℕ)
    (es : List (Event ι (ℕ → Surroundings))) : State ι TableMetadata TableCommit Error :=
  run protocol jobs (start store retries) es

theorem sound_commits (jobs : ι → Transaction) (retries : ℕ) (h : Sane store)
    (es : List (Event ι (ℕ → Surroundings))) :
    Sound Sane Ready Appended jobs store (commits jobs store retries es) := guarded.run h

/-- A table of version 3 with one file. -/
def oneFileTable : TableMetadata where
  uuid := 7
  formatVersion := .v3
  location := "s3://table"
  lastSequenceNumber := 1
  lastUpdatedMs := 0
  defaultSpecId := 0
  properties := ∅
  snapshots := AList.singleton 5 ⟨5, none, 1, 0, [⟨"s3://table/metadata/m0.avro", .data, 1, 1, 5, some 1, some 0, some 0,
    some 10, some 0, some 0, some 0, [⟨.added, "a.parquet", 10⟩]⟩], some (0, 10)⟩
  refs := AList.singleton mainBranch ⟨5, .branch none none none⟩
  currentSnapshotId := some 5
  snapshotLog := []
  nextRowId := 10

theorem sane_oneFileTable : Sane oneFileTable where
  mainRef := by
    refine ⟨rfl, fun id hid => ?_, by decide⟩
    cases hid
    exact ⟨_, rfl⟩
  keyed := by
    intro id s hs
    by_cases hid : id = 5
    · subst hid
      cases hs
      rfl
    · have hnone : oneFileTable.snapshots.lookup id = none := AList.lookup_eq_none.mpr fun hmem =>
        hid (List.mem_singleton.mp (AList.mem_keys.mp hmem))
      rw [hnone] at hs
      cases hs
  counted := List.forall_mem_singleton.mpr ⟨fun c hc => (Option.some.inj hc) ▸ rfl, fun c hc => (Option.some.inj hc) ▸ rfl⟩
  number_nonneg := by decide
  numbered := List.forall_mem_singleton.mpr (by decide)
  noRowIds := fun h => absurd rfl h
  rowIds := fun _ => ⟨List.forall_mem_singleton.mpr fun x hx => by cases hx; decide, List.pairwise_singleton _ _⟩

/-- The draws 0, 1, 2 and so on. -/
def counting : Draws where
  draw n := n
  unbounded := by
    intro l
    refine ⟨(l.map Int.natAbs).sum + 1, fun h => ?_⟩
    have hle : (l.map Int.natAbs).sum + 1 ≤ (l.map Int.natAbs).sum :=
      List.single_le_sum (by simp) _ (List.mem_map.mpr ⟨_, h, rfl⟩)
    omega

/-- A fast append of one file. -/
def appendOf (path : String) : FastAppend := ⟨true, none, [], [⟨.data, path, 3, 0⟩]⟩

/-- Two transactions that each append a file. -/
def twoAppends (i : Fin 2) : Transaction :=
  ⟨[.fastAppend (appendOf (if i = 0 then "b.parquet" else "c.parquet"))], by simp⟩

/-- A step of a writer. -/
def turn (i : Fin 2) : Event (Fin 2) (ℕ → Surroundings) := ⟨i, fun _ => ⟨1000, counting, "uuid"⟩, false⟩

/-- Both load the table; the second one is refused, and loads it again. -/
def overtaken : List (Event (Fin 2) (ℕ → Surroundings)) := [turn 0, turn 1, turn 0, turn 1, turn 1, turn 1]

/-- No file is lost, none is there twice, and none comes from a transaction that has not committed. -/
theorem liveFiles_run (jobs : ι → Transaction) (retries : ℕ) (es : List (Event ι (ℕ → Surroundings)))
    (h : Sane store) :
    (commits jobs store retries es).store.liveFiles =
        store.liveFiles ++ (commits jobs store retries es).log.flatMap (fun i => (jobs i).paths) ∧
      (commits jobs store retries es).log.Nodup ∧
      ∀ i, i ∈ (commits jobs store retries es).log ↔ (commits jobs store retries es).phase i = .done := by
  have hlog : LogOk (commits jobs store retries es) := LogOk.start.run
  refine ⟨?_, hlog.nodup, hlog.mem⟩
  exact (sound_commits jobs retries h es).exec.appends fun _ _ _ happ => happ.liveFiles

theorem liveFiles_run_overtaken :
    (commits twoAppends oneFileTable 4 overtaken).store.liveFiles = ["a.parquet", "b.parquet", "c.parquet"] := by
  have hlog : (commits twoAppends oneFileTable 4 overtaken).log = [0, 1] := by decide +kernel
  rw [(liveFiles_run twoAppends 4 overtaken sane_oneFileTable).1, hlog]
  rfl

/-- Transactions that check for duplicates, and do not name a file twice themselves, never make the table list a
file twice. -/
theorem nodup_liveFiles_run (jobs : ι → Transaction) (retries : ℕ) (es : List (Event ι (ℕ → Surroundings)))
    (h : Sane store) (hstore : store.liveFiles.Nodup)
    (hjobs : ∀ i, ∀ a ∈ (jobs i).appends, a.checkDuplicate = true ∧ a.paths.Nodup) :
    (commits jobs store retries es).store.liveFiles.Nodup := by
  refine (sound_commits jobs retries h es).exec.closed (P := fun m => m.liveFiles.Nodup)
    (fun i _ m m' happ hm => ?_) hstore
  rw [happ.liveFiles]
  match hap : (jobs i).appends, happ.atMostOne with
  | [], _ =>
      have hpaths : (jobs i).paths = [] := by
        unfold Transaction.paths
        rw [hap]
        rfl
      rw [hpaths, List.append_nil]
      exact hm
  | [a], _ =>
      have hmem : a ∈ (jobs i).appends := by simp [hap]
      have hpaths : (jobs i).paths = a.paths := by
        unfold Transaction.paths
        rw [hap]
        exact List.flatMap_singleton _ _
      rw [hpaths]
      refine List.nodup_append.mpr ⟨hm, (hjobs i a hmem).2, fun p hp q hq hpq => ?_⟩
      exact happ.absent a hmem (hjobs i a hmem).1 q hq (hpq ▸ hp)

theorem nodup_liveFiles_run_overtaken : (commits twoAppends oneFileTable 4 overtaken).store.liveFiles.Nodup :=
  nodup_liveFiles_run twoAppends 4 overtaken sane_oneFileTable (by decide) fun i a ha => by
    rw [List.mem_singleton.mp ha]
    exact ⟨rfl, List.nodup_singleton _⟩

/-- The second append demands the snapshot of the first one, which the catalog does not have yet. -/
theorem not_done_of_two_appends (jobs : ι → Transaction) (retries : ℕ) (es : List (Event ι (ℕ → Surroundings)))
    (h : Sane store) {i : ι} (htwo : 2 ≤ (jobs i).appends.length) :
    (commits jobs store retries es).phase i ≠ .done := by
  intro hdone
  have hlog : LogOk (commits jobs store retries es) := LogOk.start.run
  have hmem : i ∈ (commits jobs store retries es).log := (hlog.mem i).mpr hdone
  have hle : (jobs i).appends.length ≤ 1 :=
    (sound_commits jobs retries h es).exec.all (fun j _ _ happ => happ.atMostOne) i hmem
  omega

theorem not_done_of_two_appends_overtaken :
    (commits (fun _ : Fin 2 => ⟨[.fastAppend (appendOf "b.parquet"), .fastAppend (appendOf "c.parquet")], by simp⟩)
      oneFileTable 4 overtaken).phase 0 ≠ .done :=
  not_done_of_two_appends _ 4 overtaken sane_oneFileTable (by decide)

/-- From version 3 on the data manifests of the table have row ids that do not overlap, below the next one. -/
theorem rowIds_run (jobs : ι → Transaction) (retries : ℕ) (es : List (Event ι (ℕ → Surroundings)))
    (h : Sane store) (h3 : (commits jobs store retries es).store.formatVersion = .v3) :
    (∀ f ∈ (commits jobs store retries es).store.currentManifests, ∀ x, f.rowSpan = some x →
        x.2 ≤ (commits jobs store retries es).store.nextRowId) ∧
      (commits jobs store retries es).store.currentManifests.Pairwise ManifestFile.Apart :=
  (sound_commits jobs retries h es).inv.rowIds h3

theorem rowIds_run_overtaken :
    (commits twoAppends oneFileTable 4 overtaken).store.currentManifests.Pairwise ManifestFile.Apart :=
  (rowIds_run twoAppends 4 overtaken sane_oneFileTable (by decide +kernel)).2

/-- Whatever was committed between the preparation of a commit and the commit itself: the files it adds have a
higher sequence number than every manifest of the table, delete manifests among them. -/
theorem newer_step (jobs : ι → Transaction) (retries : ℕ) (es : List (Event ι (ℕ → Surroundings)))
    (e : Event ι (ℕ → Surroundings)) (h : Sane store)
    (hcommit : (commits jobs store retries (es ++ [e])).log ≠ (commits jobs store retries es).log)
    (hv : (commits jobs store retries es).store.formatVersion ≠ .v1) :
    ∃ kept new, (commits jobs store retries (es ++ [e])).store.currentManifests = kept ++ new ∧
      kept.flatMap ManifestFile.liveFiles = (commits jobs store retries es).store.liveFiles ∧
      new.flatMap ManifestFile.liveFiles = (jobs e.writer).paths ∧
      ∀ f ∈ (commits jobs store retries es).store.currentManifests, ∀ n ∈ new,
        f.sequenceNumber < n.sequenceNumber := by
  have hlast : commits jobs store retries (es ++ [e]) = step protocol jobs (commits jobs store retries es) e :=
    List.foldl_append
  rw [hlast] at hcommit ⊢
  obtain ⟨kept, new, hmanifests, hkept, hnew, hnumber⟩ := (guarded.step_spec (sound_commits jobs retries h es) hcommit).newer
  exact ⟨kept, new, hmanifests, hkept, hnew, hnumber hv⟩

theorem newer_step_overtaken :
    ∃ kept new, (commits twoAppends oneFileTable 4 ([turn 0, turn 1] ++ [turn 0])).store.currentManifests = kept ++ new ∧
      new.flatMap ManifestFile.liveFiles = ["b.parquet"] := by
  obtain ⟨kept, new, hmanifests, -, hnew, -⟩ := newer_step twoAppends 4 [turn 0, turn 1] (turn 0) sane_oneFileTable
    (by decide +kernel) (by decide +kernel)
  exact ⟨kept, new, hmanifests, hnew⟩

/-- The snapshots from one to another one that is its ancestor by so many generations. -/
inductive Descends (m : TableMetadata) : ℕ → Option ℤ → Option ℤ → Prop
  | refl (x : Option ℤ) : Descends m 0 x x
  | step {n : ℕ} {id : ℤ} {s : Snapshot} {x : Option ℤ} :
      m.snapshots.lookup id = some s → Descends m n s.parentSnapshotId x → Descends m (n + 1) (some id) x

theorem Descends.mono {m m' : TableMetadata} {n : ℕ} {x y : Option ℤ} (h : Descends m n x y)
    (hm : ∀ id s, m.snapshots.lookup id = some s → m'.snapshots.lookup id = some s) : Descends m' n x y := by
  induction h with
  | refl x => exact .refl x
  | step hs _ ih => exact .step (hm _ _ hs) ih

theorem history_exec {κ : Type} {jobs : κ → Transaction} {l : List κ} {m m' : TableMetadata} (h : Exec Appended jobs l m m') :
    (∀ id s, m.snapshots.lookup id = some s → m'.snapshots.lookup id = some s) ∧
      Descends m' (l.countP fun i => !(jobs i).appends.isEmpty) m'.currentSnapshotId m.currentSnapshotId := by
  induction h with
  | nil => exact ⟨fun _ _ hs => hs, .refl _⟩
  | @snoc l i st₁ st₂ st₃ hl hi ih =>
      obtain ⟨hsnap, hdesc⟩ := ih
      have hparent := hi.parent
      refine ⟨fun id s hs => hi.snapshots id s (hsnap id s hs), ?_⟩
      rw [List.countP_append]
      match hap : (jobs i).appends with
      | [] =>
          rw [if_pos hap] at hparent
          rw [hparent]
          simpa [hap] using hdesc.mono hi.snapshots
      | a :: as =>
          rw [if_neg (by simp [hap])] at hparent
          obtain ⟨s, hs, hp, -⟩ := hparent
          obtain ⟨id, hid, hlookup⟩ := Option.bind_eq_some_iff.mp hs
          have hone : [i].countP (fun i => !(jobs i).appends.isEmpty) = 1 := by simp [hap]
          rw [hone, hid]
          exact .step hlookup (hp ▸ hdesc.mono hi.snapshots)

/-- No snapshot is changed or dropped, and the history of the main branch is one line, with one snapshot for each
append that was committed. -/
theorem history_run (jobs : ι → Transaction) (retries : ℕ) (es : List (Event ι (ℕ → Surroundings)))
    (h : Sane store) :
    (∀ id s, store.snapshots.lookup id = some s →
        (commits jobs store retries es).store.snapshots.lookup id = some s) ∧
      Descends (commits jobs store retries es).store
        ((commits jobs store retries es).log.countP fun i => !(jobs i).appends.isEmpty)
        (commits jobs store retries es).store.currentSnapshotId store.currentSnapshotId :=
  history_exec (sound_commits jobs retries h es).exec

theorem history_run_overtaken :
    Descends (commits twoAppends oneFileTable 4 overtaken).store 2
      (commits twoAppends oneFileTable 4 overtaken).store.currentSnapshotId (some 5) := by
  have hlog : (commits twoAppends oneFileTable 4 overtaken).log = [0, 1] := by decide +kernel
  have hdesc := (history_run twoAppends 4 overtaken sane_oneFileTable).2
  rw [hlog] at hdesc
  exact hdesc

/-! ### Progress -/

/-- The time of the clock is not read once a snapshot was added. -/
theorem setRef_congr {b : TableMetadataBuilder} {now now' ts : ℤ} {name : String} {r : SnapshotReference}
    (h : b.lastUpdatedMs = some ts) : b.setRef now name r = b.setRef now' name r := by
  unfold TableMetadataBuilder.setRef
  split
  · rfl
  · cases hs : b.metadata.snapshots.lookup r.snapshotId with
    | none => rfl
    | some s =>
        cases hadded : b.isAdded s.snapshotId with
        | true => simp only [hadded, if_true, Option.getD_some]
        | false => simp only [hadded, h]; rfl

theorem lastUpdatedMs_setRef {b b' : TableMetadataBuilder} {now ts : ℤ} {name : String} {r : SnapshotReference}
    (h : b.lastUpdatedMs = some ts) (hset : b.setRef now name r = .ok b') : ∃ ts', b'.lastUpdatedMs = some ts' := by
  unfold TableMetadataBuilder.setRef at hset
  split at hset
  · cases hset
    exact ⟨ts, h⟩
  · split at hset
    · cases hset
    next s hs =>
      simp only at hset
      split at hset
      · cases hset
        exact ⟨_, rfl⟩
      · cases hset
        show ∃ ts', (if b.isAdded s.snapshotId then some s.timestampMs else b.lastUpdatedMs) = some ts'
        split
        · exact ⟨_, rfl⟩
        · exact ⟨ts, h⟩

theorem build_congr {b : TableMetadataBuilder} {now now' ts : ℤ} (h : b.lastUpdatedMs = some ts) :
    b.build now = b.build now' := by
  unfold TableMetadataBuilder.build
  rw [h]
  rfl

/-- The commit of one snapshot does the same at any time. -/
theorem apply_snapshotCommit_congr {m m' : TableMetadata} {s : Snapshot} {now : ℤ} (now' : ℤ)
    (h : (FastAppend.snapshotCommit m s).apply now m = .ok m') :
    (FastAppend.snapshotCommit m s).apply now' m = .ok m' := by
  obtain ⟨u, hreqs, h⟩ := bind_eq_ok h
  obtain ⟨b, hb, hbuild⟩ := bind_eq_ok h
  obtain ⟨ba, hadd, hrest⟩ := bind_eq_ok hb
  obtain ⟨bs, hset, hrest⟩ := bind_eq_ok hrest
  cases hrest
  have hts : ba.lastUpdatedMs = some s.timestampMs := by
    obtain ⟨-, hadd⟩ := require_bind hadd
    obtain ⟨-, hadd⟩ := require_bind hadd
    obtain ⟨-, hadd⟩ := require_bind hadd
    obtain ⟨-, hadd⟩ := require_bind hadd
    obtain ⟨n, -, hadd⟩ := bind_eq_ok hadd
    cases hadd
    rfl
  have hadd : m.intoBuilder.addSnapshot s = .ok ba := hadd
  have hset : ba.setRef now mainBranch ⟨s.snapshotId, .branch none none none⟩ = .ok b := hset
  obtain ⟨ts, hbts⟩ := lastUpdatedMs_setRef hts hset
  have hset' : ba.setRef now' mainBranch ⟨s.snapshotId, .branch none none none⟩ = .ok b :=
    (setRef_congr hts).trans hset
  have hb' : m.intoBuilder.applyUpdates now' (snapshotUpdates s) = .ok b := by
    show (m.intoBuilder.addSnapshot s >>= fun b =>
      b.setRef now' mainBranch ⟨s.snapshotId, .branch none none none⟩ >>= fun b => pure b) = .ok b
    rw [hadd]
    show (ba.setRef now' mainBranch ⟨s.snapshotId, .branch none none none⟩ >>= fun b => pure b) = .ok b
    rw [hset']
    rfl
  show (checkAll (TableRequirement.check m) (FastAppend.snapshotCommit m s).requirements >>= fun _ =>
    m.intoBuilder.applyUpdates now' (snapshotUpdates s) >>= fun b => b.build now') = .ok m'
  rw [hreqs, hb']
  exact (build_congr hbts).trans hbuild

/-- A single fast append that was prepared on a table can be committed to it. -/
theorem apply_of_prepare {tx : Transaction} {a : FastAppend} {env : ℕ → Surroundings} {m : TableMetadata}
    {c : TableCommit} (hm : Sane m) (htx : tx.actions = [.fastAppend a]) (h : tx.prepare env m = .ok c) (now : ℤ) :
    ∃ m', c.apply now m = .ok m' := by
  obtain ⟨s, hs, h⟩ := bind_eq_ok h
  cases h
  rw [htx, List.foldlM_cons] at hs
  obtain ⟨s₁, hs₁, hrest⟩ := bind_eq_ok hs
  cases hrest
  obtain ⟨c, t, hc, ht, rfl⟩ := stage_eq_ok hs₁
  obtain ⟨snap, rfl, -, -⟩ := FastAppend.commit_eq_ok hm hc
  exact ⟨t, apply_snapshotCommit_congr now ht⟩

/-- A fast append that has loaded the table is committed at its next step, whatever the others do, unless one of
them commits in between. -/
theorem done_of_single_append (jobs : ι → Transaction) (retries : ℕ) (es es' : List (Event ι (ℕ → Surroundings)))
    (e e' : Event ι (ℕ → Surroundings)) (h : Sane store) {a : FastAppend} {r : ℕ}
    (hjob : (jobs e.writer).actions = [.fastAppend a])
    (hidle : (commits jobs store retries es).phase e.writer = .idle r)
    (hprepared : ((commits jobs store retries (es ++ [e])).phase e.writer).isPrepared = true)
    (hothers : ∀ x ∈ es', x.writer ≠ e.writer) (hwriter : e'.writer = e.writer)
    (hlog : (commits jobs store retries (es ++ [e] ++ es')).log = (commits jobs store retries es).log) :
    (commits jobs store retries (es ++ [e] ++ es' ++ [e'])).phase e.writer = .done := by
  have hlast : commits jobs store retries (es ++ [e]) = step protocol jobs (commits jobs store retries es) e :=
    List.foldl_append
  have hmid : commits jobs store retries (es ++ [e] ++ es') =
      run protocol jobs (step protocol jobs (commits jobs store retries es) e) es' := by
    rw [← hlast]
    exact List.foldl_append
  have hend : commits jobs store retries (es ++ [e] ++ es' ++ [e']) =
      step protocol jobs (commits jobs store retries (es ++ [e] ++ es')) e' := List.foldl_append
  have hsane : Sane (commits jobs store retries es).store := (sound_commits jobs retries h es).inv
  rw [hlast] at hprepared
  obtain ⟨c', hprep⟩ := prepare_of_step hidle hprepared
  obtain ⟨m', happ⟩ := apply_of_prepare hsane hjob hprep (e'.env 0).now
  rw [hmid] at hlog
  rw [hend, hmid]
  exact done_unless_overtaken hidle hprep happ hothers hwriter hlog

theorem done_of_single_append_prepared :
    (commits twoAppends oneFileTable 4 ([] ++ [turn 0] ++ [turn 1] ++ [turn 0])).phase 0 = .done :=
  done_of_single_append twoAppends 4 [] [turn 1] (turn 0) (turn 0) sane_oneFileTable (a := appendOf "b.parquet")
    (r := 4) rfl rfl (by decide +kernel) (by decide) rfl (by decide +kernel)

end IcebergDb.Table
