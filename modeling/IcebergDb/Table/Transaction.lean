import IcebergDb.Foundation.Optimistic
import IcebergDb.Table.FastAppend

/-!
# Transactions

* `Action`, `Transaction`, `prepare` — the actions are staged one on top of the other;
* `TableCommit.apply` — the catalog checks the requirements, and makes the updates, on the table it has then;
* `Added`, `apply_added` — a commit with one new snapshot; `apply_quiet` — a commit without one;
* `Prepared`, `prepare_eq_ok` — what a commit is, and that two appends in one transaction exclude each other;
* `Appended`, `guarded` — what a commit does to the table, whatever was committed since it was prepared.
-/

namespace IcebergDb.Table

open IcebergDb.Checked

/-- `TableCommit::apply`, and `Transaction::apply`. -/
def TableCommit.apply (c : TableCommit) (now : ℤ) (t : TableMetadata) : Except Error TableMetadata := do
  checkAll (TableRequirement.check t) c.requirements
  let b ← t.intoBuilder.applyUpdates now c.updates
  b.build now

/-- The actions of a transaction. -/
inductive Action where
  | fastAppend (action : FastAppend)
  | updateProperties (updates : List (String × String)) (removals : List String)
  | updateLocation (location : Option String)
  | upgradeFormatVersion (version : Option FormatVersion)

/-- `UpdatePropertiesAction::commit`. -/
def updatePropertiesCommit (updates : List (String × String)) (removals : List String) : Except Error TableCommit :=
  match removals.find? fun k => (updates.map Prod.fst).contains k with
  | some k => .error ⟨.preconditionFailed, "Key " ++ k ++ " is present in both removal set and update set", false⟩
  | none => .ok ⟨[.setProperties updates, .removeProperties removals], []⟩

/-- `TransactionAction::commit`. -/
def Action.commit (o : Surroundings) (t : TableMetadata) : Action → Except Error TableCommit
  | fastAppend a => a.commit o t
  | updateProperties updates removals => updatePropertiesCommit updates removals
  | updateLocation (some location) => .ok ⟨[.setLocation location], []⟩
  | updateLocation none => .error (dataInvalid "Location is not set for UpdateLocationAction!")
  | upgradeFormatVersion (some version) => .ok ⟨[.upgradeFormatVersion version], []⟩
  | upgradeFormatVersion none => .error (dataInvalid "FormatVersion is not set for UpgradeFormatVersionAction!")

/-- `Transaction`; one without actions is not committed. -/
structure Transaction where
  actions : List Action
  nonempty : actions ≠ []

/-- The transaction while its actions are staged. -/
structure Staged where
  table : TableMetadata
  updates : List TableUpdate
  requirements : List TableRequirement
  count : ℕ

/-- One round of the loop of `do_commit`. -/
def Staged.stage (env : ℕ → Surroundings) (s : Staged) (a : Action) : Except Error Staged := do
  let c ← a.commit (env s.count) s.table
  let table ← c.apply (env s.count).now s.table
  return ⟨table, s.updates ++ c.updates, s.requirements ++ c.requirements, s.count + 1⟩

/-- `do_commit`, up to the call of the catalog. -/
def Transaction.prepare (tx : Transaction) (env : ℕ → Surroundings) (t : TableMetadata) :
    Except Error TableCommit := do
  let s ← tx.actions.foldlM (Staged.stage env) ⟨t, [], [], 0⟩
  return ⟨s.updates, s.requirements⟩

/-- `do_commit` and `update_table`, with the errors that are tried again. -/
def protocol : Optimistic.Protocol TableMetadata Transaction TableCommit (ℕ → Surroundings) Error where
  prepare := Transaction.prepare
  apply c env t := c.apply (env 0).now t
  retryable := Error.retryable

/-! ### Commits that add one snapshot, or none -/

/-- The snapshots of `m` are snapshots of `m'`, and what only grows has grown. -/
structure Extends (m m' : TableMetadata) : Prop where
  snapshots : ∀ id s, m.snapshots.lookup id = some s → m'.snapshots.lookup id = some s
  formatVersion : m.formatVersion.number ≤ m'.formatVersion.number
  nextRowId : m.nextRowId ≤ m'.nextRowId

/-- The updates that make a snapshot the main branch. -/
def snapshotUpdates (s : Snapshot) : List TableUpdate :=
  [.addSnapshot s, .setSnapshotRef mainBranch ⟨s.snapshotId, .branch none none none⟩]

/-- What a commit with one new snapshot does; `version` is that of the table when the snapshot is added. -/
structure Added (m : TableMetadata) (s : Snapshot) (version : FormatVersion) (m' : TableMetadata) : Prop where
  fresh : m.snapshots.lookup s.snapshotId = none
  snapshots : m'.snapshots = m.snapshots.insert s.snapshotId s
  mainRef : m'.MainIsCurrent
  currentSnapshotId : m'.currentSnapshotId = some s.snapshotId
  lastSequenceNumber : m'.lastSequenceNumber = s.sequenceNumber
  number : version ≠ .v1 → s.parentSnapshotId ≠ none → m.lastSequenceNumber < s.sequenceNumber
  rowIds : version = .v3 → ∃ first rows, s.rowRange = some (first, rows) ∧ m.nextRowId ≤ first ∧
    m'.nextRowId = m.nextRowId + rows
  noRowIds : version ≠ .v3 → m'.nextRowId = m.nextRowId

theorem apply_eq_ok {c : TableCommit} {now : ℤ} {m m' : TableMetadata} (h : c.apply now m = .ok m') :
    (∀ r ∈ c.requirements, r.check m = .ok ()) ∧
      ∃ b, m.intoBuilder.applyUpdates now c.updates = .ok b ∧ b.build now = .ok m' := by
  obtain ⟨u, hreqs, h⟩ := bind_eq_ok h
  obtain ⟨b, hb, h⟩ := bind_eq_ok h
  exact ⟨checkAll_eq_ok hreqs, b, hb, h⟩

theorem applyUpdates_append {b b' : TableMetadataBuilder} {now : ℤ} {us vs : List TableUpdate}
    (h : b.applyUpdates now (us ++ vs) = .ok b') :
    ∃ c, b.applyUpdates now us = .ok c ∧ c.applyUpdates now vs = .ok b' := foldlM_append h

/-- A commit without new snapshots. -/
theorem apply_quiet {c : TableCommit} {now : ℤ} {m m' : TableMetadata} (hm : Sane m)
    (hquiet : ∀ u ∈ c.updates, u.quiet = true) (h : c.apply now m = .ok m') :
    m'.MainIsCurrent ∧ m'.snapshots = m.snapshots ∧ m'.currentSnapshotId = m.currentSnapshotId ∧
      m'.lastSequenceNumber = m.lastSequenceNumber ∧ m'.nextRowId = m.nextRowId ∧
      m'.formatVersion = c.updates.foldl TableUpdate.version m.formatVersion := by
  obtain ⟨-, b, hb, hbuild⟩ := apply_eq_ok h
  have hq := TableMetadataBuilder.quiet_updates hquiet hb
  obtain ⟨hmain, -, hsnap, hversion, hlast, hnext, hcur⟩ := TableMetadataBuilder.build_eq_ok hbuild
  have hbcur : b.metadata.currentSnapshotId = m.currentSnapshotId := hq.same.currentSnapshotId
  refine ⟨hmain, hsnap.trans hq.same.snapshots, ?_, hlast.trans hq.same.lastSequenceNumber, ?_,
    hversion.trans hq.formatVersion⟩
  · rw [hcur (hbcur ▸ hm.mainRef.normal), hbcur]
  · rw [hnext]
    exact hq.nextRowId fun h3 => (hm.noRowIds h3).1

/-- A commit with one new snapshot. -/
theorem apply_added {c : TableCommit} {now : ℤ} {m m' : TableMetadata} {s : Snapshot} (pre post : List TableUpdate)
    (hm : Sane m) (hc : c.updates = pre ++ snapshotUpdates s ++ post) (hpre : ∀ u ∈ pre, u.quiet = true)
    (hpost : ∀ u ∈ post, u.quiet = true) (hid : 0 ≤ s.snapshotId) (h : c.apply now m = .ok m') :
    Added m s (pre.foldl TableUpdate.version m.formatVersion) m' ∧
      m'.formatVersion = c.updates.foldl TableUpdate.version m.formatVersion := by
  obtain ⟨-, b, hb, hbuild⟩ := apply_eq_ok h
  rw [hc] at hb
  obtain ⟨b₂, hb₂, hpostRun⟩ := applyUpdates_append hb
  obtain ⟨b₁, hpreRun, hsnapRun⟩ := applyUpdates_append hb₂
  obtain ⟨ba, hadd, hrest⟩ := bind_eq_ok hsnapRun
  obtain ⟨bs, hset, hrest⟩ := bind_eq_ok hrest
  cases hrest
  have hq₁ := TableMetadataBuilder.quiet_updates hpre hpreRun
  have hrows₁ : RowIdsFromV3 b₁.metadata := hq₁.rowIds fun h3 => (hm.noRowIds h3).1
  obtain ⟨hfresh, hnumber, hrowIds, hmeta, hnoRowIds⟩ := TableMetadataBuilder.addSnapshot_eq_ok hadd
  have hsnap₁ : b₁.metadata.snapshots = m.snapshots := hq₁.same.snapshots
  have hnext₁ : b₁.metadata.nextRowId = m.nextRowId := hq₁.nextRowId fun h3 => (hm.noRowIds h3).1
  have hversion₁ : b₁.metadata.formatVersion = pre.foldl TableUpdate.version m.formatVersion := hq₁.formatVersion
  rw [hsnap₁] at hfresh
  have hrefs : ba.metadata.refs = m.refs := by
    rw [hmeta]
    exact hq₁.same.refs
  have hother : ba.metadata.refs.lookup mainBranch ≠ some ⟨s.snapshotId, .branch none none none⟩ := by
    intro hsame
    rw [hrefs] at hsame
    have hcurrent := hm.mainRef.main
    rw [hsame] at hcurrent
    obtain ⟨x, hx⟩ := hm.mainRef.current s.snapshotId hcurrent.symm
    rw [hfresh] at hx
    cases hx
  have hfound : ba.metadata.snapshots.lookup s.snapshotId = some s := by
    rw [hmeta]
    exact AList.lookup_insert _
  obtain ⟨log, hset⟩ := TableMetadataBuilder.setRef_main hset hother hfound
  have hq₂ := TableMetadataBuilder.quiet_updates hpost hpostRun
  have hversions : b₂.metadata.formatVersion = pre.foldl TableUpdate.version m.formatVersion := by
    rw [hset, hmeta]
    exact hversion₁
  have hnexts : b₂.metadata.nextRowId = ba.metadata.nextRowId := by rw [hset]
  have hrows₂ : RowIdsFromV3 b₂.metadata := by
    intro h3
    rw [hversions, ← hversion₁] at h3
    rw [hnexts, hnoRowIds h3]
    exact hrows₁ h3
  have hids : b₂.metadata.snapshots = m.snapshots.insert s.snapshotId s := by
    rw [hset, hmeta, hsnap₁]
  have hlasts : b₂.metadata.lastSequenceNumber = s.sequenceNumber := by rw [hset, hmeta]
  have hcurs : b₂.metadata.currentSnapshotId = some s.snapshotId := by rw [hset]
  obtain ⟨hmain, -, hsnap, hversion, hlast, hnext, hcur⟩ := TableMetadataBuilder.build_eq_ok hbuild
  have hcurb : b.metadata.currentSnapshotId = some s.snapshotId := hq₂.same.currentSnapshotId.trans hcurs
  have hnextb : m'.nextRowId = ba.metadata.nextRowId := by rw [hnext, hq₂.nextRowId hrows₂, hnexts]
  refine ⟨?_, ?_⟩
  · exact {
      fresh := hfresh
      snapshots := by rw [hsnap, hq₂.same.snapshots, hids]
      mainRef := hmain
      currentSnapshotId := by
        rw [hcur ?_, hcurb]
        rw [hcurb]
        intro hneg
        have heq : s.snapshotId = -1 := Option.some.inj hneg
        omega
      lastSequenceNumber := by rw [hlast, hq₂.same.lastSequenceNumber, hlasts]
      number := by
        intro h1 hp
        have hlt := hnumber (hversion₁ ▸ h1) hp
        rwa [hq₁.same.lastSequenceNumber] at hlt
      rowIds := by
        intro h3
        obtain ⟨first, rows, hrange, hfirst, hsum⟩ := hrowIds (hversion₁.trans h3)
        rw [hnext₁] at hfirst hsum
        exact ⟨first, rows, hrange, hfirst, hnextb.trans hsum⟩
      noRowIds := by
        intro h3
        rw [hnextb, hnoRowIds (hversion₁ ▸ h3), hnext₁] }
  · rw [hversion, hq₂.formatVersion, hversions, hc, List.foldl_append, List.foldl_append]
    rfl

theorem Extends.refl (m : TableMetadata) : Extends m m := ⟨fun _ _ h => h, Nat.le_refl _, Nat.le_refl _⟩

theorem Extends.trans {a b c : TableMetadata} (h : Extends a b) (h' : Extends b c) : Extends a c :=
  ⟨fun id s hs => h'.snapshots id s (h.snapshots id s hs), Nat.le_trans h.formatVersion h'.formatVersion,
    Nat.le_trans h.nextRowId h'.nextRowId⟩

theorem currentManifests_congr {m m' : TableMetadata} (h : m'.currentSnapshot = m.currentSnapshot) :
    m'.currentManifests = m.currentManifests := by
  unfold TableMetadata.currentManifests
  rw [h]

theorem liveFiles_congr {m m' : TableMetadata} (h : m'.currentSnapshot = m.currentSnapshot) :
    m'.liveFiles = m.liveFiles := by
  unfold TableMetadata.liveFiles
  rw [currentManifests_congr h]

theorem currentSnapshot_congr {m m' : TableMetadata} (hs : m'.snapshots = m.snapshots)
    (hc : m'.currentSnapshotId = m.currentSnapshotId) : m'.currentSnapshot = m.currentSnapshot := by
  unfold TableMetadata.currentSnapshot
  rw [hs, hc]

/-- Without a new snapshot the table stays what it is. -/
theorem sane_of_quiet {c : TableCommit} {now : ℤ} {m m' : TableMetadata} (hm : Sane m)
    (hquiet : ∀ u ∈ c.updates, u.quiet = true) (h : c.apply now m = .ok m') :
    Sane m' ∧ Extends m m' := by
  obtain ⟨hmain, hsnap, hcur, hlast, hnext, hversion⟩ := apply_quiet hm hquiet h
  have hmanifests : m'.currentManifests = m.currentManifests :=
    currentManifests_congr (currentSnapshot_congr hsnap hcur)
  have hgrow : m.formatVersion.number ≤ m'.formatVersion.number := hversion ▸ le_foldl_version _ _
  have hbefore : m'.formatVersion ≠ .v3 → m.formatVersion ≠ .v3 := fun h3 hm3 =>
    h3 (FormatVersion.eq_v3_of_le hm3 hgrow)
  refine ⟨?_, ⟨fun id s hs => hsnap ▸ hs, hgrow, Nat.le_of_eq hnext.symm⟩⟩
  exact {
    mainRef := hmain
    keyed := hsnap ▸ hm.keyed
    counted := hmanifests ▸ hm.counted
    number_nonneg := hlast ▸ hm.number_nonneg
    numbered := by
      rw [hmanifests, hlast]
      exact hm.numbered
    noRowIds := by
      intro h3
      rw [hmanifests, hnext]
      exact hm.noRowIds (hbefore h3)
    rowIds := by
      intro h3
      rw [hmanifests, hnext]
      by_cases hm3 : m.formatVersion = .v3
      · exact hm.rowIds hm3
      · have hnone : ∀ f ∈ m.currentManifests, f.rowSpan = none := fun f hf =>
          ManifestFile.rowSpan_of_none ((hm.noRowIds hm3).2 f hf)
        refine ⟨fun f hf x hx => ?_, List.pairwise_of_forall_mem_list fun f hf g hg x y hx hy => ?_⟩
        · rw [hnone f hf] at hx
          cases hx
        · rw [hnone f hf] at hx
          cases hx }

theorem Added.currentSnapshot {m m' : TableMetadata} {s : Snapshot} {v : FormatVersion} (h : Added m s v m') :
    m'.currentSnapshot = some s := by
  unfold TableMetadata.currentSnapshot
  rw [h.currentSnapshotId, h.snapshots]
  exact AList.lookup_insert _

theorem Added.lookup_of_lookup {m m' : TableMetadata} {s x : Snapshot} {v : FormatVersion} {id : ℤ}
    (h : Added m s v m') (hx : m.snapshots.lookup id = some x) : m'.snapshots.lookup id = some x := by
  rw [h.snapshots, AList.lookup_insert_ne]
  · exact hx
  · rintro rfl
    rw [h.fresh] at hx
    cases hx

/-- With a snapshot that fits a table which has grown since, the table stays in order. -/
theorem Added.sane {m m' t : TableMetadata} {a : FastAppend} {s : Snapshot} {v : FormatVersion} (hm : Sane m)
    (ht : Sane t) (hf : Fits t a s) (htv : t.formatVersion.number ≤ v.number)
    (hmv : m.formatVersion.number ≤ v.number) (hv : v.number ≤ m'.formatVersion.number)
    (hnext : t.nextRowId ≤ m.nextRowId) (h : Added m s v m') : Sane m' ∧ Extends m m' := by
  have hmanifests : m'.currentManifests = s.manifests := FastAppend.currentManifests_of_some h.currentSnapshot
  have hlast : m'.lastSequenceNumber = s.sequenceNumber := h.lastSequenceNumber
  have hnoRowIds : v ≠ .v3 → m'.nextRowId = 0 ∧ ∀ f ∈ s.manifests, f.firstRowId = none := fun h3 =>
    ⟨(h.noRowIds h3).trans (hm.noRowIds fun hm3 => h3 (FormatVersion.eq_v3_of_le hm3 hmv)).1,
      (hf.noRowIds fun ht3 => h3 (FormatVersion.eq_v3_of_le ht3 htv)).2⟩
  -- a snapshot of an earlier version is refused from version 3 on
  have hrange : v = .v3 → t.formatVersion = .v3 ∧ ∃ n, s.rowRange = some (t.nextRowId, n) ∧
      m'.nextRowId = t.nextRowId + n := by
    intro h3
    obtain ⟨first, rows, hrows, hfirst, hsum⟩ := h.rowIds h3
    have ht3 : t.formatVersion = .v3 := by
      by_contra hne
      rw [(hf.noRowIds hne).1] at hrows
      cases hrows
    obtain ⟨n, hn, -, -⟩ := hf.rowIds ht3
    have hpair : (t.nextRowId, n) = (first, rows) := Option.some.inj (hn.symm.trans hrows)
    have hfst : t.nextRowId = first := congrArg Prod.fst hpair
    have hsnd : n = rows := congrArg Prod.snd hpair
    refine ⟨ht3, n, hn, ?_⟩
    omega
  refine ⟨?_, ⟨fun id x hx => h.lookup_of_lookup hx, Nat.le_trans hmv hv, ?_⟩⟩
  · exact {
      mainRef := h.mainRef
      keyed := by
        intro id x hx
        rw [h.snapshots] at hx
        by_cases hid : id = s.snapshotId
        · rw [hid, AList.lookup_insert] at hx
          rw [← Option.some.inj hx, hid]
        · rw [AList.lookup_insert_ne hid] at hx
          exact hm.keyed id x hx
      counted := hmanifests ▸ hf.counted
      number_nonneg := by
        rw [hlast, hf.number]
        exact FastAppend.next_nonneg ht
      numbered := by
        rw [hmanifests, hlast]
        exact hf.numbered
      noRowIds := by
        intro h3
        rw [hmanifests]
        exact hnoRowIds fun hv3 => h3 (FormatVersion.eq_v3_of_le hv3 hv)
      rowIds := by
        intro _
        rw [hmanifests]
        by_cases hv3 : v = .v3
        · obtain ⟨ht3, n, hn, hsum⟩ := hrange hv3
          obtain ⟨k, hk, hbelow, hapart⟩ := hf.rowIds ht3
          have hkn : k = n := congrArg Prod.snd (Option.some.inj (hk.symm.trans hn))
          refine ⟨fun f hfm x hx => ?_, hapart⟩
          rw [hsum, ← hkn]
          exact hbelow f hfm x hx
        · have hnone : ∀ f ∈ s.manifests, f.rowSpan = none := fun f hfm =>
            ManifestFile.rowSpan_of_none ((hnoRowIds hv3).2 f hfm)
          refine ⟨fun f hfm x hx => ?_, List.pairwise_of_forall_mem_list fun f hfm g hg x y hx hy => ?_⟩
          · rw [hnone f hfm] at hx
            cases hx
          · rw [hnone f hfm] at hx
            cases hx }
  · by_cases hv3 : v = .v3
    · obtain ⟨first, rows, -, -, hsum⟩ := h.rowIds hv3
      omega
    · exact Nat.le_of_eq (h.noRowIds hv3).symm

/-! ### What is prepared -/

/-- The fast appends among the actions. -/
def appendsOf (actions : List Action) : List FastAppend :=
  actions.filterMap fun
    | .fastAppend a => some a
    | _ => none

/-- The fast appends of the transaction. -/
def Transaction.appends (tx : Transaction) : List FastAppend := appendsOf tx.actions

/-- The paths of the files that the transaction adds. -/
def Transaction.paths (tx : Transaction) : List String := tx.appends.flatMap FastAppend.paths

/-- The requirement on the main branch. -/
def mainIs (id : Option ℤ) : TableRequirement := .refSnapshotIdMatch mainBranch id

/-- A staged table that has no new snapshot. -/
structure Unchanged (b t : TableMetadata) (us : List TableUpdate) : Prop where
  sane : Sane t
  snapshots : t.snapshots = b.snapshots
  currentSnapshotId : t.currentSnapshotId = b.currentSnapshotId
  lastSequenceNumber : t.lastSequenceNumber = b.lastSequenceNumber
  nextRowId : t.nextRowId = b.nextRowId
  formatVersion : t.formatVersion = us.foldl TableUpdate.version b.formatVersion

/-- The updates and requirements for the appends `as` on the base `b`. -/
inductive Prepared (b : TableMetadata) (as : List FastAppend) (c : TableCommit) : Prop
  | quiet : as = [] → (∀ u ∈ c.updates, u.quiet = true) → Prepared b as c
  | append (a : FastAppend) (t : TableMetadata) (s : Snapshot) (pre post : List TableUpdate) :
      as = [a] → c.updates = pre ++ snapshotUpdates s ++ post → (∀ u ∈ pre, u.quiet = true) →
      (∀ u ∈ post, u.quiet = true) → mainIs b.currentSnapshotId ∈ c.requirements → Fits t a s →
      Unchanged b t pre → Prepared b as c
  | twice (id : ℤ) : 2 ≤ as.length → mainIs b.currentSnapshotId ∈ c.requirements →
      mainIs (some id) ∈ c.requirements → b.currentSnapshotId ≠ some id → Prepared b as c

/-- The commit of what is staged. -/
def Staged.commit (s : Staged) : TableCommit := ⟨s.updates, s.requirements⟩

/-- The staged table, as far as the next action needs it. -/
structure StagedTable (b : TableMetadata) (as : List FastAppend) (s : Staged) : Prop where
  prepared : Prepared b as s.commit
  unchanged : as = [] → Unchanged b s.table s.updates
  appended : ∀ a, as = [a] → Sane s.table ∧
    ∃ id, s.table.currentSnapshotId = some id ∧ b.currentSnapshotId ≠ some id

theorem appendsOf_append (as bs : List Action) : appendsOf (as ++ bs) = appendsOf as ++ appendsOf bs :=
  List.filterMap_append

/-- The commits of the other actions are quiet, and demand nothing. -/
theorem Action.commit_quiet {o : Surroundings} {t : TableMetadata} {x : Action} {c : TableCommit}
    (hx : appendsOf [x] = []) (h : x.commit o t = .ok c) :
    c.requirements = [] ∧ ∀ u ∈ c.updates, u.quiet = true := by
  cases x with
  | fastAppend a => cases hx
  | updateProperties updates removals =>
      have h : updatePropertiesCommit updates removals = .ok c := h
      unfold updatePropertiesCommit at h
      split at h
      · cases h
      · cases h
        exact ⟨rfl, by simp [TableUpdate.quiet]⟩
  | updateLocation location =>
      cases location with
      | none => cases h
      | some l =>
          cases h
          exact ⟨rfl, by simp [TableUpdate.quiet]⟩
  | upgradeFormatVersion version =>
      cases version with
      | none => cases h
      | some v =>
          cases h
          exact ⟨rfl, by simp [TableUpdate.quiet]⟩

theorem stage_eq_ok {env : ℕ → Surroundings} {s s' : Staged} {x : Action} (h : s.stage env x = .ok s') :
    ∃ c t, x.commit (env s.count) s.table = .ok c ∧ c.apply (env s.count).now s.table = .ok t ∧
      s' = ⟨t, s.updates ++ c.updates, s.requirements ++ c.requirements, s.count + 1⟩ := by
  obtain ⟨c, hc, h⟩ := bind_eq_ok h
  obtain ⟨t, ht, h⟩ := bind_eq_ok h
  cases h
  exact ⟨c, t, hc, ht, rfl⟩

/-- Staging an action that adds no snapshot. -/
theorem StagedTable.quiet {env : ℕ → Surroundings} {b : TableMetadata} {as : List FastAppend} {s s' : Staged}
    {x : Action} (hs : StagedTable b as s) (hx : appendsOf [x] = []) (h : s.stage env x = .ok s') :
    StagedTable b as s' := by
  obtain ⟨c, t, hc, ht, rfl⟩ := stage_eq_ok h
  obtain ⟨hreqs, hquiet⟩ := Action.commit_quiet hx hc
  have hkept : ∀ r ∈ s.requirements, r ∈ s.requirements ++ c.requirements := fun r hr => List.mem_append_left _ hr
  refine ⟨?_, fun has => ?_, fun a ha => ?_⟩
  · cases hs.prepared with
    | quiet has hus => exact .quiet has (List.forall_mem_append.mpr ⟨hus, hquiet⟩)
    | append a t s pre post has hus hpre hpost hmain hfits hbase =>
        refine .append a t s pre (post ++ c.updates) has ?_ hpre (List.forall_mem_append.mpr ⟨hpost, hquiet⟩)
          (hkept _ hmain) hfits hbase
        exact (congrArg (· ++ c.updates) hus).trans (List.append_assoc _ _ _)
    | twice id hlen hmain hsecond hne => exact .twice id hlen (hkept _ hmain) (hkept _ hsecond) hne
  · have hbase := hs.unchanged has
    obtain ⟨-, hsnap, hcur, hlast, hnext, hversion⟩ := apply_quiet hbase.sane hquiet ht
    refine ⟨(sane_of_quiet hbase.sane hquiet ht).1, hsnap.trans hbase.snapshots, hcur.trans hbase.currentSnapshotId,
      hlast.trans hbase.lastSequenceNumber, hnext.trans hbase.nextRowId, ?_⟩
    rw [hversion, hbase.formatVersion, List.foldl_append]
  · obtain ⟨hsane, id, hid, hne⟩ := hs.appended a ha
    obtain ⟨-, -, hcur, -⟩ := apply_quiet hsane hquiet ht
    exact ⟨(sane_of_quiet hsane hquiet ht).1, id, hcur.trans hid, hne⟩

/-- Staging a fast append: the first one adds a snapshot, and a second one demands that it is the main branch. -/
theorem StagedTable.append {env : ℕ → Surroundings} {b : TableMetadata} {as : List FastAppend} {s s' : Staged}
    {a : FastAppend} (hb : Sane b) (hs : StagedTable b as s) (h : s.stage env (.fastAppend a) = .ok s') :
    StagedTable b (as ++ [a]) s' := by
  obtain ⟨c, t, hc, ht, rfl⟩ := stage_eq_ok h
  have hkept : ∀ r ∈ s.requirements, r ∈ s.requirements ++ c.requirements := fun r hr => List.mem_append_left _ hr
  cases hs.prepared with
  | quiet has hus =>
      have hbase := hs.unchanged has
      obtain ⟨snap, rfl, -, hfits⟩ := FastAppend.commit_eq_ok hbase.sane hc
      obtain ⟨hadded, hversion⟩ := apply_added [] [] hbase.sane rfl (by simp) (by simp)
        hfits.id_nonneg ht
      have hsane := (hadded.sane hbase.sane hbase.sane hfits (Nat.le_refl _) (Nat.le_refl _)
        (hversion ▸ le_foldl_version _ _) (Nat.le_refl _)).1
      rw [has]
      refine ⟨.append a s.table snap s.updates [] rfl ?_ hus (by simp) ?_ hfits hbase, by simp, fun _ _ => ?_⟩
      · exact (List.append_nil _).symm
      · exact List.mem_append_right _ (by simp [FastAppend.snapshotCommit, mainIs, hbase.currentSnapshotId])
      · refine ⟨hsane, snap.snapshotId, hadded.currentSnapshotId, fun hcur => ?_⟩
        obtain ⟨x, hx⟩ := hb.mainRef.current snap.snapshotId hcur
        have hfresh := hfits.fresh
        rw [hbase.snapshots, hx] at hfresh
        cases hfresh
  | append a₁ t₁ snap pre post has hus hpre hpost hmain hfits hbase =>
      obtain ⟨hsane, id, hid, hne⟩ := hs.appended a₁ has
      obtain ⟨snap, rfl, -, -⟩ := FastAppend.commit_eq_ok hsane hc
      rw [has]
      refine ⟨.twice id (Nat.le_refl 2) (hkept _ hmain) ?_ hne, by simp, by simp⟩
      exact List.mem_append_right _ (by simp [FastAppend.snapshotCommit, mainIs, hid])
  | twice id hlen hmain hsecond hne =>
      refine ⟨.twice id ?_ (hkept _ hmain) (hkept _ hsecond) hne, fun hnil => ?_, fun x hx => ?_⟩
      · rw [List.length_append]
        omega
      · simp at hnil
      · have hlen1 := congrArg List.length hx
        rw [List.length_append] at hlen1
        simp only [List.length_singleton] at hlen1
        omega

theorem StagedTable.actions {env : ℕ → Surroundings} {b : TableMetadata} {as : List FastAppend} {s s' : Staged}
    {xs : List Action} (hb : Sane b) (hs : StagedTable b as s) (h : xs.foldlM (Staged.stage env) s = .ok s') :
    StagedTable b (as ++ appendsOf xs) s' := by
  induction xs generalizing as s with
  | nil =>
      cases h
      simpa [appendsOf] using hs
  | cons x xs ih =>
      rw [List.foldlM_cons] at h
      obtain ⟨s₁, hs₁, hrest⟩ := bind_eq_ok h
      have hsplit : appendsOf (x :: xs) = appendsOf [x] ++ appendsOf xs := appendsOf_append [x] xs
      rw [hsplit, ← List.append_assoc]
      refine ih ?_ hrest
      cases x with
      | fastAppend a => exact hs.append hb hs₁
      | updateProperties updates removals => exact (List.append_nil as).symm ▸ hs.quiet rfl hs₁
      | updateLocation location => exact (List.append_nil as).symm ▸ hs.quiet rfl hs₁
      | upgradeFormatVersion version => exact (List.append_nil as).symm ▸ hs.quiet rfl hs₁

/-- What `do_commit` hands to the catalog. -/
theorem prepare_eq_ok {tx : Transaction} {env : ℕ → Surroundings} {b : TableMetadata} {c : TableCommit}
    (hb : Sane b) (h : tx.prepare env b = .ok c) : Prepared b tx.appends c := by
  obtain ⟨s, hs, h⟩ := bind_eq_ok h
  cases h
  have hstart : StagedTable b [] ⟨b, [], [], 0⟩ :=
    ⟨.quiet rfl (by simp [Staged.commit]), fun _ => ⟨hb, rfl, rfl, rfl, rfl, rfl⟩, by simp⟩
  exact (hstart.actions hb hs).prepared

/-! ### What a commit does -/

/-- What the commit of a transaction does to the table. -/
structure Appended (tx : Transaction) (m m' : TableMetadata) : Prop where
  atMostOne : tx.appends.length ≤ 1
  liveFiles : m'.liveFiles = m.liveFiles ++ tx.paths
  absent : ∀ a ∈ tx.appends, a.checkDuplicate = true → ∀ p ∈ a.paths, p ∉ m.liveFiles
  snapshots : ∀ id s, m.snapshots.lookup id = some s → m'.snapshots.lookup id = some s
  parent : if tx.appends = [] then m'.currentSnapshotId = m.currentSnapshotId
    else ∃ s, m'.currentSnapshot = some s ∧ s.parentSnapshotId = m.currentSnapshotId ∧
      m.snapshots.lookup s.snapshotId = none
  newer : ∃ kept new, m'.currentManifests = kept ++ new ∧
    kept.flatMap ManifestFile.liveFiles = m.liveFiles ∧ new.flatMap ManifestFile.liveFiles = tx.paths ∧
    (m.formatVersion ≠ .v1 → ∀ f ∈ m.currentManifests, ∀ n ∈ new, f.sequenceNumber < n.sequenceNumber)

/-- The requirement says what the current snapshot is. -/
theorem currentSnapshotId_of_check {m : TableMetadata} {id : Option ℤ} (hm : Sane m)
    (h : (mainIs id).check m = .ok ()) : m.currentSnapshotId = id := by
  have hmain := hm.mainRef.main
  have hfor : m.snapshotForRef mainBranch = m.currentSnapshot := by
    unfold TableMetadata.snapshotForRef TableMetadata.currentSnapshot
    rw [← hmain]
    cases m.refs.lookup mainBranch <;> rfl
  cases id with
  | some id =>
      simp only [mainIs, TableRequirement.check, hfor] at h
      split at h
      · cases h
      next s hs =>
        obtain ⟨x, hx, hlookup⟩ := Option.bind_eq_some_iff.mp hs
        rw [hx, ← hm.keyed x s hlookup, require_eq_ok h]
  | none =>
      have hnone : (m.snapshotForRef mainBranch).isNone = true := require_eq_ok h
      rw [hfor, Option.isNone_iff_eq_none] at hnone
      cases hcur : m.currentSnapshotId with
      | none => rfl
      | some x =>
          obtain ⟨s, hs⟩ := hm.mainRef.current x hcur
          unfold TableMetadata.currentSnapshot at hnone
          rw [hcur] at hnone
          exact absurd (hs.symm.trans hnone) (by simp)

/-- A commit that was prepared on a state of the table that has only grown since. -/
def Ready (tx : Transaction) (c : TableCommit) (m : TableMetadata) : Prop :=
  ∃ b, Sane b ∧ Extends b m ∧ Prepared b tx.appends c

/-- With the same current snapshot the base and the table have the same manifests. -/
theorem Unchanged.currentSnapshot {b t m : TableMetadata} {us : List TableUpdate} (h : Unchanged b t us) (hb : Sane b)
    (hext : Extends b m) (hcur : m.currentSnapshotId = b.currentSnapshotId) :
    t.currentSnapshot = m.currentSnapshot := by
  rw [currentSnapshot_congr h.snapshots h.currentSnapshotId]
  unfold TableMetadata.currentSnapshot
  rw [hcur]
  cases hid : b.currentSnapshotId with
  | none => rfl
  | some id =>
      obtain ⟨s, hs⟩ := hb.mainRef.current id hid
      exact hs.trans (hext.snapshots id s hs).symm

/-- What a snapshot adds to a table from version 2 on is newer than all that the table has. -/
theorem newer_of_fits {m m' t : TableMetadata} {a : FastAppend} {s : Snapshot} {v : FormatVersion}
    {new : List ManifestFile} (hm : Sane m) (ht : Sane t) (hf : Fits t a s) (h : Added m s v m')
    (hmv : m.formatVersion.number ≤ v.number) (hcur : t.currentSnapshot = m.currentSnapshot)
    (hparent : t.currentSnapshotId = m.currentSnapshotId) (hm1 : m.formatVersion ≠ .v1)
    (hnew : t.formatVersion ≠ .v1 → ∀ n ∈ new, n.sequenceNumber = s.sequenceNumber) :
    ∀ f ∈ m.currentManifests, ∀ n ∈ new, f.sequenceNumber < n.sequenceNumber := by
  intro f hfm n hn
  have hmanifests : m.currentManifests = t.currentManifests := currentManifests_congr hcur.symm
  by_cases ht1 : t.formatVersion = .v1
  · -- the table was upgraded since; a snapshot of version 1 is accepted only as the first one
    have hv1 : v ≠ .v1 := by
      rintro rfl
      cases hmf : m.formatVersion with
      | v1 => exact hm1 hmf
      | v2 => exact absurd (hmf ▸ hmv) (by decide)
      | v3 => exact absurd (hmf ▸ hmv) (by decide)
    have hzero : s.sequenceNumber = 0 := by
      rw [hf.number]
      unfold TableMetadata.nextSequenceNumber
      rw [ht1]
    have hsome : s.parentSnapshotId ≠ none := by
      intro hnone
      rw [hf.parent, hparent] at hnone
      have hempty : m.currentSnapshot = none := by
        unfold TableMetadata.currentSnapshot
        rw [hnone]
        rfl
      rw [FastAppend.currentManifests_of_none hempty] at hfm
      cases hfm
    have hlt := h.number hv1 hsome
    have hlast := hm.number_nonneg
    omega
  · rw [hnew ht1 n hn, hf.number, FastAppend.nextSequenceNumber_eq ht1]
    have hle := (ht.numbered f (hmanifests ▸ hfm)).2
    omega

/-- Applying a commit, whatever was committed since it was prepared. -/
theorem Ready.apply {tx : Transaction} {c : TableCommit} {now : ℤ} {m m' : TableMetadata} (hm : Sane m)
    (hr : Ready tx c m) (h : c.apply now m = .ok m') : Sane m' ∧ Extends m m' ∧ Appended tx m m' := by
  obtain ⟨b, hb, hext, hprep⟩ := hr
  obtain ⟨hreqs, -⟩ := apply_eq_ok h
  cases hprep with
  | quiet has hquiet =>
      obtain ⟨-, hsnap, hcur, -⟩ := apply_quiet hm hquiet h
      obtain ⟨hsane, hgrow⟩ := sane_of_quiet hm hquiet h
      have hpaths : tx.paths = [] := by
        unfold Transaction.paths
        rw [has]
        rfl
      have hsame : m'.currentSnapshot = m.currentSnapshot := currentSnapshot_congr hsnap hcur
      refine ⟨hsane, hgrow, ?_⟩
      exact {
        atMostOne := by simp [has]
        liveFiles := by rw [liveFiles_congr hsame, hpaths, List.append_nil]
        absent := by simp [has]
        snapshots := hgrow.snapshots
        parent := by
          rw [if_pos has]
          exact hcur
        newer := ⟨m.currentManifests, [], by rw [currentManifests_congr hsame, List.append_nil], rfl,
          hpaths.symm, by simp⟩ }
  | append a t s pre post has hus hpre hpost hmain hfits hbase =>
      have hcur : m.currentSnapshotId = b.currentSnapshotId := currentSnapshotId_of_check hm (hreqs _ hmain)
      have hsame : t.currentSnapshot = m.currentSnapshot := hbase.currentSnapshot hb hext hcur
      have hparent : t.currentSnapshotId = m.currentSnapshotId := hbase.currentSnapshotId.trans hcur.symm
      have hlive : t.liveFiles = m.liveFiles := (liveFiles_congr hsame.symm).symm
      obtain ⟨hadded, hversion⟩ := apply_added pre post hm hus hpre hpost hfits.id_nonneg h
      have htv : t.formatVersion.number ≤ (pre.foldl TableUpdate.version m.formatVersion).number := by
        rw [hbase.formatVersion]
        exact foldl_version_le hext.formatVersion
      have hmv : m.formatVersion.number ≤ (pre.foldl TableUpdate.version m.formatVersion).number :=
        le_foldl_version pre m.formatVersion
      have hv : (pre.foldl TableUpdate.version m.formatVersion).number ≤ m'.formatVersion.number := by
        rw [hversion, hus, List.append_assoc, List.foldl_append]
        exact le_foldl_version _ _
      have hnext : t.nextRowId ≤ m.nextRowId := hbase.nextRowId ▸ hext.nextRowId
      obtain ⟨hsane, hgrow⟩ := hadded.sane hm hbase.sane hfits htv hmv hv hnext
      obtain ⟨kept, new, hmanifests, hkept, hnew, hnumber⟩ := hfits.manifests
      have hpaths : tx.paths = a.paths := by
        unfold Transaction.paths
        rw [has]
        exact List.flatMap_singleton _ _
      have hcurrent : m'.currentManifests = kept ++ new :=
        (FastAppend.currentManifests_of_some hadded.currentSnapshot).trans hmanifests
      refine ⟨hsane, hgrow, ?_⟩
      exact {
        atMostOne := by simp [has]
        liveFiles := by
          unfold TableMetadata.liveFiles
          rw [hcurrent, List.flatMap_append, hkept, hnew, hlive, hpaths]
          rfl
        absent := by
          rw [has, ← hlive]
          exact List.forall_mem_singleton.mpr hfits.absent
        snapshots := hgrow.snapshots
        parent := by
          rw [if_neg (by simp [has])]
          exact ⟨s, hadded.currentSnapshot, hfits.parent.trans hparent, hadded.fresh⟩
        newer := ⟨kept, new, hcurrent, hkept.trans hlive, hnew.trans hpaths.symm, fun hm1 =>
          newer_of_fits hm hbase.sane hfits hadded hmv hsame hparent hm1 hnumber⟩ }
  | twice id hlen hmain hsecond hne =>
      have hfirst : m.currentSnapshotId = b.currentSnapshotId := currentSnapshotId_of_check hm (hreqs _ hmain)
      have hother : m.currentSnapshotId = some id := currentSnapshotId_of_check hm (hreqs _ hsecond)
      exact absurd (hfirst.symm.trans hother) hne

/-- Commits that were prepared on a sane table stay applicable or are refused, and do what `Appended` says. -/
theorem guarded : Optimistic.Guarded protocol Sane Ready Appended where
  prepared := fun hb h => ⟨_, hb, .refl _, prepare_eq_ok hb h⟩
  stable := by
    intro j c j' c' e st st' hst hready hready' happly
    obtain ⟨b, hb, hext, hprep⟩ := hready
    exact ⟨b, hb, hext.trans (hready'.apply hst happly).2.1, hprep⟩
  keeps := fun hst hready happly => (hready.apply hst happly).1
  commits := fun hst hready happly => (hready.apply hst happly).2.2

end IcebergDb.Table
