import IcebergDb.Foundation.Text
import Mathlib.Logic.Function.Basic
import Mathlib.Logic.Relation

/-!
# Finding the metadata of a Hadoop table

`hadoop.rs`: `resolve_metadata_file` reads `version-hint.text` and falls back to the directory listing.

* `resolveMetadataFile` and its helpers, over a directory and an order of listing it;
* `CommitStep` — writers commit versions: the metadata file appears, then the hint is replaced, and a
  writer may stop in between;
* in every directory that commits build, in whatever order it is listed, the file found is the one of the
  latest version exactly when the hint is that version, or is missing and the version fits a `u32`
  (`resolveMetadataFile_eq_latest_iff`).
-/

namespace IcebergDb.Catalog

open IcebergDb.Text

/-! ### The directory -/

/-- An entry of a directory: a regular file with its text, or anything else. -/
inductive DirEntry where
  | file (text : String)
  | other
deriving DecidableEq

/-- `Path::is_file`. -/
def DirEntry.isFile : DirEntry → Bool
  | .file _ => true
  | .other => false

/-- A metadata directory: its path, and its entries by name. -/
structure MetadataDir where
  path : String
  entry : String → Option DirEntry

/-- `metadata_dir.join(name)`. -/
def MetadataDir.join (dir : MetadataDir) (name : String) : String := dir.path ++ "/" ++ name

/-- `metadata_dir.join(name).is_file()`. -/
def MetadataDir.hasFile (dir : MetadataDir) (name : String) : Bool :=
  (dir.entry name).any DirEntry.isFile

/-- `normalize_path`. -/
def normalizePath (path : String) : String :=
  String.ofList (path.toList.map fun c => if c = '\\' then '/' else c)

/-- The name of the hint file. -/
def versionHint : String := "version-hint.text"

/-- The metadata file of a version. -/
def metadataName (version : String) : String := "v" ++ version ++ ".metadata.json"

/-- `metadata_from_version_hint`: the name of the file the hint asks for. -/
def metadataFromVersionHint (dir : MetadataDir) : Option String :=
  match dir.entry versionHint with
  | some (.file text) =>
      let version := trim text
      if version.isEmpty then none else some (metadataName version)
  | _ => none

/-- `parse_metadata_version`. -/
def parseMetadataVersion (fileName : String) : Option ℕ := do
  let rest ← stripPrefix "v" fileName
  let version ← stripSuffix ".metadata.json" rest
  parseUnsigned 32 version

/-- The loop of `latest_metadata_json`. -/
def latestLoop (dir : MetadataDir) : List String → Option (ℕ × String) → Option (ℕ × String)
  | [], best => best
  | name :: listing, best =>
      match parseMetadataVersion name with
      | none => latestLoop dir listing best
      | some version =>
          if !dir.hasFile name then latestLoop dir listing best
          else match best with
            | some (bestVersion, bestName) =>
                if version ≤ bestVersion then latestLoop dir listing (some (bestVersion, bestName))
                else latestLoop dir listing (some (version, name))
            | none => latestLoop dir listing (some (version, name))

/-- `latest_metadata_json`. -/
def latestMetadataJson (dir : MetadataDir) (listing : List String) : Option String :=
  (latestLoop dir listing none).map Prod.snd

/-- `resolve_metadata_file`, of a directory that exists and can be read. -/
def resolveMetadataFile (dir : MetadataDir) (listing : List String) : Option String :=
  match (metadataFromVersionHint dir).filter dir.hasFile with
  | some name => some (normalizePath (dir.join name))
  | none => (latestMetadataJson dir listing).map fun name => normalizePath (dir.join name)

/-- An order in which the directory may be listed. -/
def Lists (dir : MetadataDir) (listing : List String) : Prop :=
  ∀ name, name ∈ listing ↔ dir.entry name ≠ none

/-! ### The commit protocol -/

/-- A directory in use, and the versions whose writers have still to replace the hint. -/
structure CommitState where
  dir : MetadataDir
  pending : List ℕ

/-- The metadata file of the version is there. -/
def Present (dir : MetadataDir) (n : ℕ) : Prop := dir.entry (metadataName (toString n)) ≠ none

/-- The latest version, 0 if there is none. -/
def Latest (dir : MetadataDir) (n : ℕ) : Prop :=
  (∀ m, Present dir m → m ≤ n) ∧ (n = 0 ∨ Present dir n)

/-- A name that belongs to neither a version nor the hint: manifests, temporary files and so on. -/
def Foreign (name : String) : Prop :=
  parseMetadataVersion name = none ∧ name ≠ versionHint ∧ ∀ n : ℕ, name ≠ metadataName (toString n)

/-- The directory with one entry replaced. -/
def MetadataDir.set (dir : MetadataDir) (name : String) (e : Option DirEntry) : MetadataDir :=
  { dir with entry := Function.update dir.entry name e }

/-- One step of a writer: the next version appears, its hint is published, or the writer stops before
that.  Other files come and go. -/
inductive CommitStep : CommitState → CommitState → Prop
  | appear {s : CommitState} {n : ℕ} (hlatest : Latest s.dir n) (metadata : String) :
      CommitStep s ⟨s.dir.set (metadataName (toString (n + 1))) (some (.file metadata)),
        (n + 1) :: s.pending⟩
  | publish {s : CommitState} {n : ℕ} (hpending : n ∈ s.pending) :
      CommitStep s ⟨s.dir.set versionHint (some (.file (toString n))), s.pending.erase n⟩
  | crash {s : CommitState} {n : ℕ} (hpending : n ∈ s.pending) :
      CommitStep s ⟨s.dir, s.pending.erase n⟩
  | foreign {s : CommitState} {name : String} (hforeign : Foreign name) (e : Option DirEntry) :
      CommitStep s ⟨s.dir.set name e, s.pending⟩

/-- The empty directory. -/
def emptyDir (path : String) : MetadataDir := ⟨path, fun _ => none⟩

/-- A directory that commits have built. -/
def ReachableDir (dir : MetadataDir) : Prop :=
  ∃ path pending, Relation.ReflTransGen CommitStep ⟨emptyDir path, []⟩ ⟨dir, pending⟩

/-! ### Names -/

theorem parseMetadataVersion_metadataName (version : String) :
    parseMetadataVersion (metadataName version) = parseUnsigned 32 version := by
  unfold parseMetadataVersion metadataName
  rw [String.append_assoc, stripPrefix_append]
  show (stripSuffix ".metadata.json" (version ++ ".metadata.json")).bind (parseUnsigned 32) = _
  rw [stripSuffix_append]
  rfl

theorem metadataName_injective {m n : ℕ}
    (h : metadataName (toString m) = metadataName (toString n)) : m = n := by
  unfold metadataName at h
  rw [String.append_assoc, String.append_assoc, String.append_right_inj, String.append_left_inj] at h
  exact toString_injective h

/-- The hint is no version's file. -/
theorem versionHint_ne_metadataName (n : ℕ) : versionHint ≠ metadataName (toString n) := by
  intro h
  have hlast := congrArg (fun s : String => s.toList.getLast?) h
  have hn : (metadataName (toString n)).toList.getLast? = some 'n' := by
    unfold metadataName
    rw [String.toList_append, List.getLast?_append]
    rfl
  simp only [hn] at hlast
  exact absurd hlast (by decide)

theorem normalizePath_append (s t : String) :
    normalizePath (s ++ t) = normalizePath s ++ normalizePath t := by
  simp [normalizePath]

/-- A printed version has nothing to normalize. -/
theorem normalizePath_metadataName (n : ℕ) :
    normalizePath (metadataName (toString n)) = metadataName (toString n) := by
  have hdigits : normalizePath (toString n) = toString n := by
    have hmap : (toString n).toList.map (fun c => if c = '\\' then '/' else c) =
        (toString n).toList.map id := by
      refine List.map_congr_left ?_
      intro c hc
      refine if_neg ?_
      rintro rfl
      exact absurd (isDigit_of_mem_toString hc) (by decide)
    unfold normalizePath
    rw [hmap, List.map_id, String.ofList_toList]
  unfold metadataName
  rw [normalizePath_append, normalizePath_append, hdigits]
  rfl

/-- The files of different versions have different paths. -/
theorem normalizePath_join_injective (dir : MetadataDir) {m n : ℕ}
    (h : normalizePath (dir.join (metadataName (toString m))) =
      normalizePath (dir.join (metadataName (toString n)))) : m = n := by
  unfold MetadataDir.join at h
  rw [normalizePath_append, normalizePath_append (dir.path ++ "/"), String.append_right_inj,
    normalizePath_metadataName, normalizePath_metadataName] at h
  exact metadataName_injective h

/-! ### The loop over the listing -/

/-- A name of the listing that counts: the regular file of some version. -/
def Candidate (dir : MetadataDir) (name : String) (version : ℕ) : Prop :=
  parseMetadataVersion name = some version ∧ dir.hasFile name = true

/-- What the loop has found so far is one of the candidates, and none is later. -/
def Best (dir : MetadataDir) (seen : List String) : Option (ℕ × String) → Prop
  | none => ∀ name ∈ seen, ∀ version, ¬ Candidate dir name version
  | some (best, bestName) => bestName ∈ seen ∧ Candidate dir bestName best ∧
      ∀ name ∈ seen, ∀ version, Candidate dir name version → version ≤ best

/-- A name that does not count changes nothing. -/
theorem Best.skip {dir : MetadataDir} {seen : List String} {best : Option (ℕ × String)}
    (h : Best dir seen best) {name : String} (hskip : ∀ version, ¬ Candidate dir name version) :
    Best dir (seen ++ [name]) best := by
  cases best with
  | none =>
      intro n hn version hcand
      rcases List.mem_append.mp hn with hn | hn
      · exact h n hn version hcand
      · rw [List.mem_singleton.mp hn] at hcand
        exact hskip version hcand
  | some b =>
      obtain ⟨hmem, hcand, hmax⟩ := h
      refine ⟨List.mem_append_left _ hmem, hcand, ?_⟩
      intro n hn version hn'
      rcases List.mem_append.mp hn with hn | hn
      · exact hmax n hn version hn'
      · rw [List.mem_singleton.mp hn] at hn'
        exact absurd hn' (hskip version)

/-- A later candidate takes over. -/
theorem Best.take {dir : MetadataDir} {seen : List String} {best : Option (ℕ × String)}
    (h : Best dir seen best) {name : String} {version : ℕ} (hcand : Candidate dir name version)
    (hlater : ∀ b ∈ best, b.1 < version) : Best dir (seen ++ [name]) (some (version, name)) := by
  refine ⟨List.mem_append_right _ List.mem_cons_self, hcand, ?_⟩
  intro n hn v hv
  rcases List.mem_append.mp hn with hn | hn
  · cases best with
    | none => exact absurd hv (h n hn v)
    | some b => exact (h.2.2 n hn v hv).trans (hlater b rfl).le
  · rw [List.mem_singleton.mp hn] at hv
    rw [Option.some.inj (hv.1.symm.trans hcand.1)]

/-- A candidate that is not later is passed over. -/
theorem Best.keep {dir : MetadataDir} {seen : List String} {b : ℕ × String}
    (h : Best dir seen (some b)) {name : String} {version : ℕ} (hcand : Candidate dir name version)
    (hle : version ≤ b.1) : Best dir (seen ++ [name]) (some b) := by
  obtain ⟨hmem, hbest, hmax⟩ := h
  refine ⟨List.mem_append_left _ hmem, hbest, ?_⟩
  intro n hn v hv
  rcases List.mem_append.mp hn with hn | hn
  · exact hmax n hn v hv
  · rw [List.mem_singleton.mp hn] at hv
    rw [Option.some.inj (hv.1.symm.trans hcand.1)]
    exact hle

/-- **The loop finds the latest candidate**, whatever the order. -/
theorem latestLoop_best (dir : MetadataDir) (listing seen : List String) (best : Option (ℕ × String))
    (h : Best dir seen best) : Best dir (seen ++ listing) (latestLoop dir listing best) := by
  induction listing generalizing seen best with
  | nil =>
      rw [List.append_nil]
      exact h
  | cons name listing ih =>
      rw [List.append_cons]
      rw [latestLoop]
      split
      · rename_i hparse
        refine ih _ _ (h.skip ?_)
        intro version hcand
        exact absurd (hparse.symm.trans hcand.1) (by simp)
      rename_i version hparse
      split
      · rename_i hfile
        refine ih _ _ (h.skip ?_)
        intro v hcand
        rw [hcand.2] at hfile
        cases hfile
      rename_i hfile
      have hcand : Candidate dir name version := ⟨hparse, by simpa using hfile⟩
      split
      · rename_i bestVersion bestName
        split
        · rename_i hle
          exact ih _ _ (h.keep hcand hle)
        · rename_i hlt
          refine ih _ _ (h.take hcand ?_)
          rintro b ⟨⟩
          exact Nat.lt_of_not_le hlt
      · refine ih _ _ (h.take hcand ?_)
        rintro b ⟨⟩

/-! ### The directories that commits build -/

theorem MetadataDir.entry_set_self (dir : MetadataDir) (name : String) (e : Option DirEntry) :
    (dir.set name e).entry name = e := by
  show Function.update dir.entry name e name = e
  rw [Function.update_self]

theorem MetadataDir.entry_set_of_ne (dir : MetadataDir) {name other : String} (h : other ≠ name)
    (e : Option DirEntry) : (dir.set name e).entry other = dir.entry other := by
  show Function.update dir.entry name e other = dir.entry other
  rw [Function.update_of_ne h]

/-- Versions 1 to `last` are there and no others, every writer has one of them, and so has the hint. -/
structure Committed (s : CommitState) (last : ℕ) : Prop where
  present : ∀ n, Present s.dir n ↔ 0 < n ∧ n ≤ last
  isFile : ∀ n, Present s.dir n → s.dir.hasFile (metadataName (toString n)) = true
  pending : ∀ n ∈ s.pending, 0 < n ∧ n ≤ last
  hint : s.dir.entry versionHint = none ∨
    ∃ n, 0 < n ∧ n ≤ last ∧ s.dir.entry versionHint = some (.file (toString n))
  names : ∀ name version, s.dir.entry name ≠ none → parseMetadataVersion name = some version →
    name = metadataName (toString version)

/-- Replacing an entry that is no version's file leaves the versions as they are. -/
theorem present_set {dir : MetadataDir} {name : String} (h : ∀ n : ℕ, name ≠ metadataName (toString n))
    (e : Option DirEntry) (n : ℕ) : Present (dir.set name e) n ↔ Present dir n := by
  unfold Present
  rw [dir.entry_set_of_ne (h n).symm]

theorem hasFile_set {dir : MetadataDir} {name other : String} (h : other ≠ name) (e : Option DirEntry) :
    (dir.set name e).hasFile other = dir.hasFile other := by
  unfold MetadataDir.hasFile
  rw [dir.entry_set_of_ne h]

/-- Replacing an entry whose name is read as no version keeps names honest. -/
theorem names_set {dir : MetadataDir} {name : String} (hparse : parseMetadataVersion name = none)
    (hnames : ∀ other version, dir.entry other ≠ none → parseMetadataVersion other = some version →
      other = metadataName (toString version)) (e : Option DirEntry) :
    ∀ other version, (dir.set name e).entry other ≠ none → parseMetadataVersion other = some version →
      other = metadataName (toString version) := by
  intro other version hentry hversion
  by_cases hsame : other = name
  · rw [hsame, hparse] at hversion
    cases hversion
  · rw [dir.entry_set_of_ne hsame] at hentry
    exact hnames other version hentry hversion

/-- The latest version is the last one committed. -/
theorem Committed.latest_eq {s : CommitState} {last : ℕ} (h : Committed s last) {n : ℕ}
    (hlatest : Latest s.dir n) : n = last := by
  obtain ⟨hmax, hn⟩ := hlatest
  rcases hn with rfl | hn
  · by_contra hne
    have hlast : Present s.dir last := (h.present last).mpr ⟨by omega, le_rfl⟩
    have := hmax last hlast
    omega
  · have hle := ((h.present n).mp hn).2
    have hlast : Present s.dir last := (h.present last).mpr ⟨by have := (h.present n).mp hn; omega, le_rfl⟩
    have := hmax last hlast
    omega

theorem Committed.latest {s : CommitState} {last : ℕ} (h : Committed s last) : Latest s.dir last := by
  refine ⟨fun m hm => ((h.present m).mp hm).2, ?_⟩
  rcases Nat.eq_zero_or_pos last with hzero | hpos
  · exact .inl hzero
  · exact .inr ((h.present last).mpr ⟨hpos, le_rfl⟩)

/-- A new version. -/
theorem Committed.appear {s : CommitState} {last : ℕ} (h : Committed s last) (metadata : String) :
    Committed ⟨s.dir.set (metadataName (toString (last + 1))) (some (.file metadata)),
      (last + 1) :: s.pending⟩ (last + 1) := by
  have hother : ∀ {n : ℕ}, n ≠ last + 1 →
      metadataName (toString n) ≠ metadataName (toString (last + 1)) := by
    intro n hne hname
    exact hne (metadataName_injective hname)
  refine ⟨?_, ?_, ?_, ?_, ?_⟩
  · intro n
    by_cases hn : n = last + 1
    · subst hn
      refine iff_of_true ?_ ⟨by omega, le_rfl⟩
      unfold Present
      rw [s.dir.entry_set_self]
      exact Option.some_ne_none _
    · unfold Present
      rw [s.dir.entry_set_of_ne (hother hn)]
      rw [show (s.dir.entry (metadataName (toString n)) ≠ none ↔ _) from h.present n]
      omega
  · intro n hn
    by_cases hlast : n = last + 1
    · subst hlast
      unfold MetadataDir.hasFile
      rw [s.dir.entry_set_self]
      rfl
    · unfold Present at hn
      rw [s.dir.entry_set_of_ne (hother hlast)] at hn
      rw [hasFile_set (hother hlast)]
      exact h.isFile n hn
  · intro n hn
    rcases List.mem_cons.mp hn with rfl | hn
    · omega
    · have := h.pending n hn
      omega
  · show (s.dir.set _ _).entry versionHint = none ∨ _
    rw [s.dir.entry_set_of_ne (versionHint_ne_metadataName (last + 1))]
    rcases h.hint with hnone | ⟨n, hpos, hle, hentry⟩
    · exact .inl hnone
    · exact .inr ⟨n, hpos, by omega, hentry⟩
  · intro name version hentry hparse
    by_cases hsame : name = metadataName (toString (last + 1))
    · rw [hsame, parseMetadataVersion_metadataName, parseUnsigned_toString] at hparse
      split at hparse
      · rw [hsame, Option.some.inj hparse]
      · cases hparse
    · rw [s.dir.entry_set_of_ne hsame] at hentry
      exact h.names name version hentry hparse

/-- Replacing the hint. -/
theorem Committed.publish {s : CommitState} {last : ℕ} (h : Committed s last) {n : ℕ}
    (hpending : n ∈ s.pending) :
    Committed ⟨s.dir.set versionHint (some (.file (toString n))), s.pending.erase n⟩ last := by
  refine ⟨?_, ?_, ?_, ?_, ?_⟩
  · intro m
    rw [present_set versionHint_ne_metadataName]
    exact h.present m
  · intro m hm
    rw [present_set versionHint_ne_metadataName] at hm
    rw [hasFile_set (versionHint_ne_metadataName m).symm]
    exact h.isFile m hm
  · intro m hm
    exact h.pending m (List.mem_of_mem_erase hm)
  · obtain ⟨hpos, hle⟩ := h.pending n hpending
    exact .inr ⟨n, hpos, hle, s.dir.entry_set_self versionHint _⟩
  · exact names_set (by decide) h.names _

/-- **One step** of a writer. -/
theorem Committed.step {s s' : CommitState} {last : ℕ} (h : Committed s last) (hstep : CommitStep s s') :
    ∃ last', Committed s' last' := by
  cases hstep with
  | appear hlatest metadata =>
      obtain rfl := h.latest_eq hlatest
      exact ⟨_, h.appear metadata⟩
  | publish hpending => exact ⟨last, h.publish hpending⟩
  | crash hpending =>
      exact ⟨last, h.present, h.isFile, fun n hn => h.pending n (List.mem_of_mem_erase hn), h.hint,
        h.names⟩
  | foreign hforeign e =>
      obtain ⟨hparse, hhint, hversion⟩ := hforeign
      refine ⟨last, ?_, ?_, h.pending, ?_, names_set hparse h.names e⟩
      · intro n
        rw [present_set hversion]
        exact h.present n
      · intro n hn
        rw [present_set hversion] at hn
        rw [hasFile_set (hversion n).symm]
        exact h.isFile n hn
      · rw [s.dir.entry_set_of_ne hhint.symm]
        exact h.hint

theorem committed_emptyDir (path : String) : Committed ⟨emptyDir path, []⟩ 0 := by
  refine ⟨?_, ?_, ?_, .inl rfl, ?_⟩
  · intro n
    exact iff_of_false (fun hn => hn rfl) (by omega)
  · intro n hn
    exact absurd rfl hn
  · intro n hn
    cases hn
  · intro name version hentry
    exact absurd rfl hentry

/-- **Every directory that commits build** has the versions up to its last one. -/
theorem committed_of_reachable {dir : MetadataDir} (h : ReachableDir dir) :
    ∃ pending last, Committed ⟨dir, pending⟩ last := by
  obtain ⟨path, pending, hrun⟩ := h
  refine ⟨pending, ?_⟩
  generalize hs : (⟨dir, pending⟩ : CommitState) = s at hrun
  clear hs
  induction hrun with
  | refl => exact ⟨0, committed_emptyDir path⟩
  | tail _ hstep ih =>
      obtain ⟨last, hlast⟩ := ih
      exact hlast.step hstep

/-! ### What is resolved -/

/-- The hint, if there is one, is trusted. -/
theorem resolveMetadataFile_of_hint {s : CommitState} {last n : ℕ} (h : Committed s last)
    (hpos : 0 < n) (hle : n ≤ last) (hhint : s.dir.entry versionHint = some (.file (toString n)))
    (listing : List String) :
    resolveMetadataFile s.dir listing =
      some (normalizePath (s.dir.join (metadataName (toString n)))) := by
  have hne : (toString n).isEmpty = false := by
    rw [Bool.eq_false_iff, ne_eq, String.isEmpty_iff]
    intro hempty
    apply toList_toString_ne_nil n
    rw [hempty]
    rfl
  have hfrom : metadataFromVersionHint s.dir = some (metadataName (toString n)) := by
    simp only [metadataFromVersionHint, hhint, trim_toString, hne]
    rfl
  have hfile := h.isFile n ((h.present n).mpr ⟨hpos, hle⟩)
  simp only [resolveMetadataFile, hfrom, Option.filter_some, hfile, if_true]

/-- In a committed directory the candidates are the versions that fit a `u32`. -/
theorem Committed.candidate_iff {s : CommitState} {last : ℕ} (h : Committed s last) {name : String}
    {version : ℕ} :
    Candidate s.dir name version ↔
      name = metadataName (toString version) ∧ 0 < version ∧ version ≤ last ∧ version < 2 ^ 32 := by
  constructor
  · rintro ⟨hparse, hfile⟩
    have hentry : s.dir.entry name ≠ none := by
      intro hnone
      unfold MetadataDir.hasFile at hfile
      rw [hnone] at hfile
      cases hfile
    have hname := h.names name version hentry hparse
    subst hname
    rw [parseMetadataVersion_metadataName, parseUnsigned_toString] at hparse
    obtain ⟨hpos, hle⟩ := (h.present version).mp hentry
    refine ⟨rfl, hpos, hle, ?_⟩
    by_contra hbig
    rw [if_neg hbig] at hparse
    cases hparse
  · rintro ⟨rfl, hpos, hle, hfits⟩
    refine ⟨?_, h.isFile version ((h.present version).mpr ⟨hpos, hle⟩)⟩
    rw [parseMetadataVersion_metadataName, parseUnsigned_toString, if_pos hfits]

/-- Without a hint the listing decides, up to the versions it can read. -/
theorem resolveMetadataFile_of_listing {s : CommitState} {last : ℕ} (h : Committed s last)
    (hlast : 0 < last) (hhint : s.dir.entry versionHint = none) {listing : List String}
    (hlist : Lists s.dir listing) :
    resolveMetadataFile s.dir listing =
      some (normalizePath (s.dir.join (metadataName (toString (min last (2 ^ 32 - 1)))))) := by
  have hbest : Best s.dir listing (latestLoop s.dir listing none) :=
    latestLoop_best s.dir listing [] none fun name hname => absurd hname List.not_mem_nil
  -- the greatest readable version is listed
  have hcand : Candidate s.dir (metadataName (toString (min last (2 ^ 32 - 1)))) (min last (2 ^ 32 - 1)) :=
    h.candidate_iff.mpr ⟨rfl, by omega, by omega, by omega⟩
  have hmem : metadataName (toString (min last (2 ^ 32 - 1))) ∈ listing :=
    (hlist _).mpr ((h.present _).mpr ⟨by omega, by omega⟩)
  have hfrom : metadataFromVersionHint s.dir = none := by
    simp only [metadataFromVersionHint, hhint]
  simp only [resolveMetadataFile, hfrom, Option.filter_none, latestMetadataJson]
  cases hloop : latestLoop s.dir listing none with
  | none =>
      rw [hloop] at hbest
      exact absurd hcand (hbest _ hmem _)
  | some b =>
      obtain ⟨best, bestName⟩ := b
      rw [hloop] at hbest
      obtain ⟨-, hbestCand, hmax⟩ := hbest
      obtain ⟨hname, -, hle, hfits⟩ := h.candidate_iff.mp hbestCand
      have hge := hmax _ hmem _ hcand
      have heq : best = min last (2 ^ 32 - 1) := by omega
      subst heq
      rw [hname]
      rfl

/-- **The latest version is found** exactly when the hint names it, or when there is no hint and the
version fits a `u32`; whatever the order of the listing. -/
theorem resolveMetadataFile_eq_latest_iff {dir : MetadataDir} (hreach : ReachableDir dir)
    {listing : List String} (hlist : Lists dir listing) {n : ℕ} (hlatest : Latest dir n)
    (hpresent : Present dir n) :
    resolveMetadataFile dir listing = some (normalizePath (dir.join (metadataName (toString n)))) ↔
      dir.entry versionHint = some (.file (toString n)) ∨
        (dir.entry versionHint = none ∧ n < 2 ^ 32) := by
  obtain ⟨pending, last, h⟩ := committed_of_reachable hreach
  obtain rfl := h.latest_eq hlatest
  obtain ⟨hpos, -⟩ := (h.present n).mp hpresent
  rcases h.hint with hnone | ⟨m, hm, hle, hhint⟩
  · have hresolve := resolveMetadataFile_of_listing h hpos hnone hlist
    rw [hresolve, Option.some.injEq]
    constructor
    · intro hpath
      have := normalizePath_join_injective dir hpath
      exact .inr ⟨hnone, by omega⟩
    · rintro (hhint | ⟨-, hfits⟩)
      · rw [show dir.entry versionHint = none from hnone] at hhint
        cases hhint
      · rw [show min n (2 ^ 32 - 1) = n by omega]
  · have hresolve := resolveMetadataFile_of_hint h hm hle hhint listing
    rw [hresolve, Option.some.injEq]
    constructor
    · intro hpath
      obtain rfl := normalizePath_join_injective dir hpath
      exact .inl hhint
    · rintro (hother | ⟨hnone, -⟩)
      · rw [show dir.entry versionHint = _ from hhint] at hother
        have hsame : toString m = toString n := by
          injection Option.some.inj hother
        rw [hsame]
      · rw [show dir.entry versionHint = _ from hhint] at hnone
        cases hnone

/-! ### A table of two versions -/

/-- Version 1 has been written, and its hint. -/
def firstCommit : CommitState :=
  ⟨((emptyDir "t/metadata").set (metadataName (toString 1)) (some (.file "a"))).set versionHint
    (some (.file (toString 1))), []⟩

/-- The writer of version 2 has stopped before it replaced the hint. -/
def stoppedCommit : CommitState :=
  ⟨firstCommit.dir.set (metadataName (toString 2)) (some (.file "b")), []⟩

theorem firstCommit_run : Relation.ReflTransGen CommitStep ⟨emptyDir "t/metadata", []⟩ firstCommit := by
  have happear := CommitStep.appear (committed_emptyDir "t/metadata").latest "a"
  have hpublish := CommitStep.publish (s := ⟨(emptyDir "t/metadata").set (metadataName (toString 1))
    (some (.file "a")), [1]⟩) (n := 1) List.mem_cons_self
  exact .tail (.single happear) hpublish

theorem firstCommit_committed : Committed firstCommit 1 :=
  ((committed_emptyDir "t/metadata").appear "a").publish (n := 1) List.mem_cons_self

theorem stoppedCommit_run : Relation.ReflTransGen CommitStep ⟨emptyDir "t/metadata", []⟩ stoppedCommit := by
  have happear := CommitStep.appear firstCommit_committed.latest "b"
  have hcrash := CommitStep.crash (s := ⟨stoppedCommit.dir, [2]⟩) (n := 2) List.mem_cons_self
  exact .tail (.tail firstCommit_run happear) hcrash

theorem stoppedCommit_committed : Committed ⟨stoppedCommit.dir, [2]⟩ 2 :=
  firstCommit_committed.appear "b"

theorem lists_firstCommit : Lists firstCommit.dir [versionHint, metadataName (toString 1)] := by
  intro name
  by_cases hhint : name = versionHint
  · rw [hhint]
    unfold firstCommit
    rw [MetadataDir.entry_set_self]
    simp
  · by_cases hname : name = metadataName (toString 1)
    · rw [hname]
      unfold firstCommit
      rw [MetadataDir.entry_set_of_ne _ (versionHint_ne_metadataName 1).symm, MetadataDir.entry_set_self]
      simp
    · unfold firstCommit
      rw [MetadataDir.entry_set_of_ne _ hhint, MetadataDir.entry_set_of_ne _ hname, List.mem_cons,
        List.mem_singleton]
      exact iff_of_false (not_or_intro hhint hname) fun hentry => hentry rfl

theorem firstCommit_hint : firstCommit.dir.entry versionHint = some (.file (toString 1)) :=
  MetadataDir.entry_set_self _ _ _

theorem stoppedCommit_hint : stoppedCommit.dir.entry versionHint = some (.file (toString 1)) := by
  unfold stoppedCommit
  rw [MetadataDir.entry_set_of_ne _ (versionHint_ne_metadataName 2)]
  exact firstCommit_hint

/-- After a whole commit the hint is right. -/
theorem resolveMetadataFile_firstCommit :
    firstCommit.dir.entry versionHint = some (.file (toString 1)) ∧
      (resolveMetadataFile firstCommit.dir [versionHint, metadataName (toString 1)] =
          some (normalizePath (firstCommit.dir.join (metadataName (toString 1)))) ↔
        firstCommit.dir.entry versionHint = some (.file (toString 1)) ∨
          (firstCommit.dir.entry versionHint = none ∧ 1 < 2 ^ 32)) :=
  ⟨firstCommit_hint, resolveMetadataFile_eq_latest_iff ⟨"t/metadata", [], firstCommit_run⟩
    lists_firstCommit firstCommit_committed.latest ((firstCommit_committed.present 1).mpr (by decide))⟩

/-- The writer of version 2 stops before it replaces the hint: version 1 is resolved, however the
directory is listed. -/
theorem exists_stale_hint :
    ReachableDir stoppedCommit.dir ∧ Latest stoppedCommit.dir 2 ∧ Present stoppedCommit.dir 2 ∧
      ∀ listing, resolveMetadataFile stoppedCommit.dir listing =
          some (normalizePath (stoppedCommit.dir.join (metadataName (toString 1)))) ∧
        resolveMetadataFile stoppedCommit.dir listing ≠
          some (normalizePath (stoppedCommit.dir.join (metadataName (toString 2)))) := by
  refine ⟨⟨"t/metadata", [], stoppedCommit_run⟩, stoppedCommit_committed.latest,
    (stoppedCommit_committed.present 2).mpr (by decide), ?_⟩
  intro listing
  have hfirst := resolveMetadataFile_of_hint stoppedCommit_committed (by decide) (by decide)
    stoppedCommit_hint listing
  refine ⟨hfirst, ?_⟩
  intro hsecond
  have hsame := normalizePath_join_injective _ (Option.some.inj (hfirst.symm.trans hsecond))
  exact absurd hsame (by decide)

end IcebergDb.Catalog
