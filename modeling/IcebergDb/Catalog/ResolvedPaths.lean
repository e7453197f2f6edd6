import IcebergDb.Foundation.Trim
import IcebergDb.Foundation.Url

/-!
# Local paths

`resolved_paths.rs` makes paths absolute before a storage sees them, and `LocalFsStorage` reads what it gets.

* `resolvePath` and `LocalFsStorage.normalizePath` — the source;
* `localFile` — the file that a text names, if it is absolute;
* `SchemeIndependent` — a path and its file URIs all name one file, and resolving is idempotent;
* `JoinsBase` — a relative path is put behind the base, and resolving is idempotent;
* `resolvePath_iff` — **the former holds exactly for paths that begin, after their slashes, with a drive or a
  backslash, the latter exactly for paths without surrounding white space, without `://`, without a colon at index
  one and behind a base that does not end in a backslash.**
-/

namespace IcebergDb.Catalog

open Trim

/-! ### The source -/

/-- `replace('\\', "/")`. -/
def slashes (path : List Char) : List Char := path.map fun c => if c = '\\' then '/' else c

/-- `file_uri_to_local_path`. -/
def fileUriToLocalPath (path : List Char) : Option (List Char) :=
  (strip "file:".toList path).bind fun rest =>
    if (slashes (rest.dropWhile (· = '/'))).isEmpty then none else some (slashes (rest.dropWhile (· = '/')))

/-- `is_absolute_path`. -/
def isAbsolutePath (path : List Char) : Bool := path.head? = some '/' || path[1]? = some ':'

/-- `resolve_path`. -/
def resolvePath (base path : List Char) : List Char :=
  let path := trim path
  if path.isEmpty then path
  else
    match fileUriToLocalPath path with
    | some localPath => localPath
    | none =>
        if "://".toList <:+: path || isAbsolutePath path then slashes path
        else slashes (trimEnd (· = '/') base) ++ '/' :: slashes (path.dropWhile (· = '/'))

/-- What is left of a URI, with a slash before it. -/
def rooted (stripped : List Char) : List Char :=
  if stripped.head? = some '/' then stripped else '/' :: stripped

/-- `LocalFsStorage::normalize_path`. -/
def LocalFsStorage.normalizePath (path : List Char) : List Char :=
  match strip "file://".toList path with
  | some stripped => rooted stripped
  | none =>
      match strip "file:".toList path with
      | some stripped => rooted stripped
      | none => path

/-! ### The files that paths name -/

/-- The path begins with a drive letter and a colon. -/
def HasDrive (path : List Char) : Prop := path.head?.any Char.isAlpha = true ∧ path[1]? = some ':'

instance (path : List Char) : Decidable (HasDrive path) := instDecidableAnd

/-- An absolute local path. -/
def Absolute (path : List Char) : Prop := path.head? = some '/' ∨ HasDrive path

instance (path : List Char) : Decidable (Absolute path) := instDecidableOr

/-- The segments of a path, between slashes or backslashes. -/
def segments (path : List Char) : List (List Char) := ((slashes path).splitOn '/').filter (· ≠ [])

/-- The file that a text names, if it is absolute.  A drive may have a slash before it, as in URIs. -/
def localFile (path : List Char) : Option (List (List Char)) :=
  if Absolute (slashes path) then some (segments path) else none

/-- The file URIs of an absolute path. -/
def uriForms (path : List Char) : List (List Char) :=
  ["file:".toList ++ path, "file://".toList ++ path] ++ if HasDrive path then ["file:///".toList ++ path] else []

/-- The path and its URIs name one file, for the resolver and for the storage. -/
structure SchemeIndependent (base path : List Char) : Prop where
  file : ∃ file, ∀ form ∈ path :: uriForms path,
    localFile (resolvePath base form) = some file ∧ localFile (LocalFsStorage.normalizePath form) = some file
  idempotent : Absolute base → ∀ form ∈ path :: uriForms path,
    resolvePath base (resolvePath base form) = resolvePath base form

/-- A relative path without a scheme. -/
def Relative (path : List Char) : Prop := path.head? ≠ some '/' ∧ Url.splitScheme path = none

/-- The path stands behind the base. -/
structure JoinsBase (base path : List Char) : Prop where
  joined : resolvePath base path = trimEnd (· = '/') (slashes base) ++ '/' :: slashes path
  idempotent : Absolute base → resolvePath base (resolvePath base path) = resolvePath base path

/-- No white space at the end, and, after the slashes, a drive or a backslash. -/
structure DriveOrBackslash (path : List Char) : Prop where
  stop : EndsOutside Text.isWhitespace path
  first : HasDrive (path.dropWhile (· = '/')) ∨ (path.dropWhile (· = '/')).head? = some '\\'

/-- No white space at the ends, nothing that is taken for a URI or a drive, and no backslash at the end of the
base. -/
structure Joinable (base path : List Char) : Prop where
  nonempty : path ≠ []
  start : StartsOutside Text.isWhitespace path
  stop : EndsOutside Text.isWhitespace path
  scheme : ¬ "://".toList <:+: path
  drive : path[1]? ≠ some ':'
  base : (trimEnd (· = '/') base).getLast? ≠ some '\\'

section

variable {base path rest : List Char}

/-! ### Slashes -/

theorem slashes_append (cs ds : List Char) : slashes (cs ++ ds) = slashes cs ++ slashes ds := List.map_append

theorem slashes_slashes (path : List Char) : slashes (slashes path) = slashes path := by
  rw [slashes, slashes, List.map_map]
  refine List.map_congr_left fun c _ => ?_
  show (if (if c = '\\' then '/' else c) = '\\' then '/' else if c = '\\' then '/' else c) = _
  by_cases hc : c = '\\'
  · rw [if_pos hc]
    decide
  · rw [if_neg hc, if_neg hc]

theorem length_slashes (path : List Char) : (slashes path).length = path.length := List.length_map _

/-- A slash or backslash is no white space, no letter and no colon. -/
theorem isWhitespace_slash (c : Char) : Text.isWhitespace (if c = '\\' then '/' else c) = Text.isWhitespace c := by
  by_cases hc : c = '\\'
  · rw [if_pos hc, hc]
    decide
  · rw [if_neg hc]

theorem head?_slashes (path : List Char) :
    (slashes path).head? = path.head?.map fun c => if c = '\\' then '/' else c := List.head?_map

theorem getLast?_slashes (path : List Char) :
    (slashes path).getLast? = path.getLast?.map fun c => if c = '\\' then '/' else c := List.getLast?_map

theorem endsOutside_slashes (h : EndsOutside Text.isWhitespace path) :
    EndsOutside Text.isWhitespace (slashes path) := by
  intro c hc
  rw [getLast?_slashes] at hc
  obtain ⟨d, hd, rfl⟩ := Option.map_eq_some_iff.mp hc
  rw [isWhitespace_slash]
  exact h d hd

theorem hasDrive_slashes (path : List Char) : HasDrive (slashes path) ↔ HasDrive path := by
  have hcolon : ∀ c : Char, (if c = '\\' then '/' else c) = ':' ↔ c = ':' := by
    intro c
    by_cases hc : c = '\\'
    · rw [if_pos hc, hc]
      decide
    · rw [if_neg hc]
  have hletter : ∀ c : Char, (if c = '\\' then '/' else c).isAlpha = c.isAlpha := by
    intro c
    by_cases hc : c = '\\'
    · rw [if_pos hc, hc]
      decide
    · rw [if_neg hc]
  unfold HasDrive slashes
  rw [List.head?_map, List.getElem?_map, Option.any_map, Option.map_eq_some_iff]
  simp only [hcolon, hletter]
  constructor
  · rintro ⟨halpha, c, hget, rfl⟩
    exact ⟨halpha, hget⟩
  · rintro ⟨halpha, hget⟩
    exact ⟨halpha, ':', hget, rfl⟩

theorem head?_slashes_eq_slash (path : List Char) :
    (slashes path).head? = some '/' ↔ path.head? = some '/' ∨ path.head? = some '\\' := by
  rw [head?_slashes]
  cases path.head? with
  | none => simp
  | some c =>
      by_cases hc : c = '\\'
      · simp [hc]
      · simp [hc]

theorem Absolute.slashes (h : Absolute path) : Absolute (slashes path) :=
  h.imp (fun hslash => (head?_slashes_eq_slash path).mpr (.inl hslash)) (hasDrive_slashes path).mpr

/-! ### Segments -/

theorem segments_slashes (path : List Char) : segments (slashes path) = segments path := by
  rw [segments, slashes_slashes]
  rfl

theorem segments_cons_slash (path : List Char) : segments ('/' :: path) = segments path := by
  have hcons : ('/' :: slashes path).splitOn '/' = [] :: (slashes path).splitOn '/' := by
    simp [List.splitOn, List.splitOnP_cons_eq_if_modifyHead]
  show (('/' :: slashes path).splitOn '/').filter (· ≠ []) = _
  rw [hcons, List.filter_cons_of_neg (by simp)]
  rfl

theorem segments_append_of_slashes {pre : List Char} (h : ∀ c ∈ pre, c = '/') (path : List Char) :
    segments (pre ++ path) = segments path := by
  induction pre with
  | nil => rfl
  | cons c pre ih =>
      rw [h c List.mem_cons_self, List.cons_append, segments_cons_slash]
      exact ih fun d hd => h d (List.mem_cons_of_mem _ hd)

theorem segments_dropWhile (path : List Char) : segments (path.dropWhile (· = '/')) = segments path := by
  have hpre : ∀ c ∈ path.takeWhile (· = '/'), c = '/' := by
    intro c hc
    simpa using List.mem_takeWhile_imp hc
  have happend := segments_append_of_slashes hpre (path.dropWhile (· = '/'))
  rw [List.takeWhile_append_dropWhile] at happend
  exact happend.symm

/-- The segments together are the path without its separators. -/
theorem flatten_segments (path : List Char) : (segments path).flatten = (slashes path).filter (· ≠ '/') := by
  have hfilter : ∀ l : List (List Char), (l.filter (· ≠ [])).flatten = l.flatten := by
    intro l
    induction l with
    | nil => rfl
    | cons cs l ih =>
        by_cases hcs : cs = []
        · rw [List.filter_cons_of_neg (by simp [hcs]), ih, hcs]
          rfl
        · rw [List.filter_cons_of_pos (by simp [hcs]), List.flatten_cons, ih, List.flatten_cons]
  rw [segments, hfilter]
  induction slashes path with
  | nil => rfl
  | cons c cs ih =>
      by_cases hc : c = '/'
      · simpa [List.splitOn, List.splitOnP_cons_eq_if_modifyHead, hc] using ih
      · obtain ⟨seg, segs, hsegs⟩ := List.exists_cons_of_ne_nil (List.splitOnP_ne_nil (· == '/') cs)
        simp only [List.splitOn, hsegs] at ih
        simpa [List.splitOn, List.splitOnP_cons_eq_if_modifyHead, hc, hsegs] using ih

/-! ### Absolute paths -/

theorem Absolute.startsOutside (h : Absolute path) : StartsOutside Text.isWhitespace path := by
  intro c hc
  rcases h with hslash | ⟨halpha, -⟩
  · rw [Option.mem_def.mp hc] at hslash
    rw [Option.some.inj hslash]
    decide
  · rw [Option.mem_def.mp hc] at halpha
    exact Text.isWhitespace_of_isAlpha halpha

/-- Only white space at the end of an absolute path is trimmed, and what is left is absolute. -/
theorem Absolute.trim (h : Absolute path) :
    ∃ post, path = trim path ++ post ∧ (∀ c ∈ post, Text.isWhitespace c = true) ∧ Absolute (Trim.trim path) := by
  obtain ⟨pre, post, hpath, hpre, hpost, -, -⟩ := exists_append_trimOf Text.isWhitespace path
  have hnil : pre = [] := by
    cases pre with
    | nil => rfl
    | cons c pre =>
        have hout := h.startsOutside c (by rw [hpath]; rfl)
        rw [hpre c List.mem_cons_self] at hout
        cases hout
  subst hnil
  replace hpath : path = Trim.trim path ++ post := hpath
  refine ⟨post, hpath, hpost, ?_⟩
  -- the first character is not trimmed, and a colon is not either
  have hkeep : ∀ (i : ℕ) (c : Char), path[i]? = some c → Text.isWhitespace c = false →
      (Trim.trim path)[i]? = some c := by
    intro i c hget hout
    by_cases hi : i < (Trim.trim path).length
    · rw [← hget]
      conv_rhs => rw [hpath]
      exact (List.getElem?_append_left hi).symm
    · rw [hpath, List.getElem?_append_right (by omega)] at hget
      rw [hpost c (List.mem_of_getElem? hget)] at hout
      cases hout
  rcases h with hslash | ⟨halpha, hcolon⟩
  · rw [List.head?_eq_getElem?] at hslash
    left
    rw [List.head?_eq_getElem?]
    exact hkeep 0 '/' hslash (by decide)
  · right
    refine ⟨?_, hkeep 1 ':' hcolon (by decide)⟩
    rw [List.head?_eq_getElem?] at halpha ⊢
    cases hget : path[0]? with
    | none =>
        rw [hget] at halpha
        cases halpha
    | some c =>
        rw [hget] at halpha
        rw [hkeep 0 c hget (Text.isWhitespace_of_isAlpha halpha)]
        exact halpha

theorem strip_file_of_absolute (h : Absolute path) (rest : List Char) : strip ('f' :: 'i' :: rest) path = none := by
  rcases h with hslash | ⟨-, hcolon⟩
  · refine strip_eq_none_of_getElem (i := 0) (by simp) ?_
    rw [← List.head?_eq_getElem?, hslash]
    simp
  · refine strip_eq_none_of_getElem (i := 1) (by simp) ?_
    rw [hcolon]
    simp

theorem isAbsolutePath_of_absolute (h : Absolute path) : isAbsolutePath path = true := by
  rw [isAbsolutePath, Bool.or_eq_true, decide_eq_true_eq, decide_eq_true_eq]
  exact h.imp id fun hdrive => hdrive.2

theorem Absolute.ne_nil (h : Absolute path) : path ≠ [] := by
  rintro rfl
  rcases h with h | ⟨h, -⟩ <;> cases h

/-- An absolute path is kept, with slashes. -/
theorem resolvePath_of_absolute (base : List Char) (h : Absolute (trim path)) :
    resolvePath base path = slashes (trim path) := by
  have hne : ¬ (trim path).isEmpty = true := by simpa using h.ne_nil
  have hfile : fileUriToLocalPath (trim path) = none := by
    show (strip ['f', 'i', 'l', 'e', ':'] (trim path)).bind _ = none
    rw [strip_file_of_absolute h]
    rfl
  simp only [resolvePath, if_neg hne, hfile, isAbsolutePath_of_absolute h, Bool.or_true, if_true]

/-- So resolving what is absolute and trimmed with slashes does nothing. -/
theorem resolvePath_slashes (base : List Char) (h : Absolute (slashes path))
    (hstop : EndsOutside Text.isWhitespace path) : resolvePath base (slashes path) = slashes path := by
  have htrim : trim (slashes path) = slashes path := trimOf_eq_self h.startsOutside (endsOutside_slashes hstop)
  rw [resolvePath_of_absolute base (by rwa [htrim]), htrim, slashes_slashes]

/-! ### File URIs -/

/-- A file URI is cut behind the scheme and the slashes. -/
theorem resolvePath_file (base : List Char) (hstop : EndsOutside Text.isWhitespace rest)
    (hne : rest.dropWhile (· = '/') ≠ []) :
    resolvePath base ("file:".toList ++ rest) = slashes (rest.dropWhile (· = '/')) := by
  have hrest : rest ≠ [] := by
    rintro rfl
    exact hne rfl
  have htrim : trim ("file:".toList ++ rest) = "file:".toList ++ rest :=
    trimOf_eq_self (startsOutside_append (by intro c hc; cases hc; decide) (by decide) rest)
      (endsOutside_append hstop hrest _)
  have hlocal : ¬ (slashes (rest.dropWhile (· = '/'))).isEmpty = true := by
    rw [List.isEmpty_iff]
    exact fun hnil => hne (List.map_eq_nil_iff.mp hnil)
  have hform : ¬ ("file:".toList ++ rest).isEmpty = true := by simp
  simp only [resolvePath, htrim, if_neg hform, fileUriToLocalPath, strip_append, Option.bind_some, if_neg hlocal]

theorem rooted_spec (cs : List Char) : (rooted cs).head? = some '/' ∧ segments (rooted cs) = segments cs := by
  rw [rooted]
  split
  · rename_i h
    exact ⟨h, rfl⟩
  · exact ⟨rfl, segments_cons_slash cs⟩

/-- The storage reads a file URI as the absolute path with the same segments. -/
theorem localFile_normalizePath_file (rest : List Char) :
    localFile (LocalFsStorage.normalizePath ("file:".toList ++ rest)) = some (segments rest) := by
  have hrooted : ∀ cs, segments cs = segments rest → localFile (rooted cs) = some (segments rest) := by
    intro cs hcs
    obtain ⟨hhead, hsegs⟩ := rooted_spec cs
    have habs : Absolute (rooted cs) := .inl hhead
    rw [localFile, if_pos habs.slashes, hsegs, hcs]
  rw [LocalFsStorage.normalizePath]
  split
  · rename_i stripped hstrip
    have hslashes : rest = '/' :: '/' :: stripped := by
      have happend : "file:".toList ++ rest = "file://".toList ++ stripped := strip_eq_some_iff.mp hstrip
      have hfile : "file:".toList ++ rest = "file:".toList ++ '/' :: '/' :: stripped := happend
      exact List.append_cancel_left hfile
    refine hrooted stripped ?_
    rw [hslashes, segments_cons_slash, segments_cons_slash]
  · rw [strip_append]
    exact hrooted rest rfl

theorem normalizePath_of_absolute (h : Absolute path) : LocalFsStorage.normalizePath path = path := by
  rw [LocalFsStorage.normalizePath]
  have hlong : strip "file://".toList path = none := strip_file_of_absolute h _
  have hshort : strip "file:".toList path = none := strip_file_of_absolute h _
  rw [hlong, hshort]

/-- Every URI of a path is `file:`, slashes and the path. -/
theorem exists_of_mem_uriForms {form : List Char} (h : form ∈ uriForms path) :
    ∃ pre, (∀ c ∈ pre, c = '/') ∧ form = "file:".toList ++ (pre ++ path) := by
  rw [uriForms, List.mem_append] at h
  rcases h with h | h
  · simp only [List.mem_cons, List.not_mem_nil, or_false] at h
    rcases h with rfl | rfl
    · exact ⟨[], by simp, rfl⟩
    · exact ⟨['/', '/'], by simp, rfl⟩
  · split at h
    · rw [List.mem_singleton.mp h]
      exact ⟨['/', '/', '/'], by simp, rfl⟩
    · cases h

/-- **The path and its URIs name one file** if the resolver finds a drive or a slash behind the slashes. -/
theorem schemeIndependent_of_driveOrBackslash (habs : Absolute path) (h : DriveOrBackslash path) (base : List Char) :
    SchemeIndependent base path := by
  have htrim : trim path = path := trimOf_eq_self habs.startsOutside h.stop
  have hplain : resolvePath base path = slashes path := by
    rw [resolvePath_of_absolute base (by rwa [htrim]), htrim]
  -- what is cut off a URI
  have hne : path.dropWhile (· = '/') ≠ [] := by
    intro hnil
    rcases h.first with ⟨hdrive, -⟩ | hback
    · rw [hnil] at hdrive
      cases hdrive
    · rw [hnil] at hback
      cases hback
  have hrest : Absolute (slashes (path.dropWhile (· = '/'))) := by
    rcases h.first with hdrive | hback
    · exact .inr ((hasDrive_slashes _).mpr hdrive)
    · exact .inl ((head?_slashes_eq_slash _).mpr (.inr hback))
  have hreststop : EndsOutside Text.isWhitespace (path.dropWhile (· = '/')) := by
    intro c hc
    refine h.stop c ?_
    rw [← List.takeWhile_append_dropWhile (p := (· = '/')) (l := path), List.getLast?_append_of_ne_nil _ hne]
    exact hc
  have huri : ∀ form ∈ uriForms path, resolvePath base form = slashes (path.dropWhile (· = '/')) := by
    intro form hform
    obtain ⟨pre, hpre, rfl⟩ := exists_of_mem_uriForms hform
    have hdrop : (pre ++ path).dropWhile (· = '/') = path.dropWhile (· = '/') :=
      List.dropWhile_append_of_pos fun c hc => by simpa using hpre c hc
    rw [resolvePath_file base (endsOutside_append h.stop habs.ne_nil pre) (by rwa [hdrop]), hdrop]
  constructor
  · refine ⟨segments path, fun form hform => ?_⟩
    rcases List.mem_cons.mp hform with rfl | hform
    · rw [hplain, normalizePath_of_absolute habs]
      refine ⟨?_, if_pos habs.slashes⟩
      rw [localFile, slashes_slashes, if_pos habs.slashes, segments_slashes]
    · rw [huri form hform, localFile, slashes_slashes, if_pos hrest, segments_slashes, segments_dropWhile]
      refine ⟨rfl, ?_⟩
      obtain ⟨pre, hpre, rfl⟩ := exists_of_mem_uriForms hform
      rw [localFile_normalizePath_file, segments_append_of_slashes hpre]
  · intro _ form hform
    rcases List.mem_cons.mp hform with rfl | hform
    · rw [hplain, resolvePath_slashes base habs.slashes h.stop]
    · rw [huri form hform, resolvePath_slashes base hrest hreststop]

/-- White space is no separator. -/
theorem slashes_of_whitespace {cs : List Char} (h : ∀ c ∈ cs, Text.isWhitespace c = true) :
    (slashes cs).filter (· ≠ '/') = cs := by
  have hself : slashes cs = cs := by
    rw [slashes]
    conv_rhs => rw [← List.map_id cs]
    refine List.map_congr_left fun c hc => if_neg ?_
    rintro rfl
    exact absurd (h _ hc) (by decide)
  rw [hself, List.filter_eq_self]
  intro c hc
  refine decide_eq_true ?_
  rintro rfl
  exact absurd (h _ hc) (by decide)

/-- The first character of a text is among its segments, unless it separates. -/
theorem mem_flatten_segments {c : Char} {cs : List Char} (hc : c ∈ cs) (hslash : c ≠ '/') (hback : c ≠ '\\') :
    c ∈ (segments cs).flatten := by
  rw [flatten_segments, List.mem_filter]
  refine ⟨List.mem_map.mpr ⟨c, hc, if_neg hback⟩, ?_⟩
  simpa using hslash

/-- **If they name one file**, nothing is trimmed, and the resolver finds a drive or a slash. -/
theorem SchemeIndependent.driveOrBackslash (habs : Absolute path) (h : SchemeIndependent base path) :
    DriveOrBackslash path := by
  obtain ⟨file, hfile⟩ := h.file
  obtain ⟨hresolved, hnormal⟩ := hfile path List.mem_cons_self
  -- the storage reads the path as it is
  rw [normalizePath_of_absolute habs, localFile, if_pos habs.slashes] at hnormal
  have hsegs : segments path = file := Option.some.inj hnormal
  obtain ⟨post, hpath, hpost, htrimmed⟩ := habs.trim
  have hnil : post = [] := by
    rw [resolvePath_of_absolute base htrimmed, localFile, slashes_slashes, if_pos htrimmed.slashes, segments_slashes]
      at hresolved
    have hsame : segments (trim path) = segments path := (Option.some.inj hresolved).trans hsegs.symm
    have hflat := congrArg List.flatten hsame
    rw [flatten_segments, flatten_segments] at hflat
    conv_rhs at hflat => rw [hpath]
    rw [slashes_append, List.filter_append, slashes_of_whitespace hpost] at hflat
    exact List.self_eq_append_right.mp hflat
  have hstop : EndsOutside Text.isWhitespace path := by
    rw [hnil, List.append_nil] at hpath
    exact (trimOf_eq_self_iff.mp hpath.symm).2
  refine ⟨hstop, ?_⟩
  have huri := (hfile _ (List.mem_cons_of_mem _ (List.mem_append_left _ List.mem_cons_self))).1
  by_cases hrest : path.dropWhile (· = '/') = []
  · -- nothing but slashes: the URI is taken for a relative path, or kept
    exfalso
    have hempty : file = [] := by
      rw [← hsegs, ← segments_dropWhile, hrest]
      rfl
    have hflat : ∀ cs, localFile cs = some file → 'f' ∉ cs := by
      intro cs hcs hmem
      rw [localFile] at hcs
      split at hcs
      · have hin := mem_flatten_segments hmem (by decide) (by decide)
        rw [Option.some.inj hcs, hempty] at hin
        cases hin
      · cases hcs
    refine hflat _ huri ?_
    have htrim : trim ("file:".toList ++ path) = "file:".toList ++ path :=
      trimOf_eq_self (startsOutside_append (by intro c hc; cases hc; decide) (by decide) path)
        (endsOutside_append hstop habs.ne_nil _)
    have hform : ¬ ("file:".toList ++ path).isEmpty = true := by simp
    have hlocal : (slashes []).isEmpty = true := rfl
    simp only [resolvePath, htrim, if_neg hform, fileUriToLocalPath, strip_append, Option.bind_some, hrest, hlocal,
      if_true]
    split
    · exact List.mem_map.mpr ⟨'f', List.mem_cons_self, rfl⟩
    · refine List.mem_append_right _ (List.mem_cons_of_mem _ (List.mem_map.mpr ⟨'f', ?_, rfl⟩))
      exact List.mem_cons_self
  · rw [resolvePath_file base hstop hrest, localFile, slashes_slashes] at huri
    split at huri
    · rename_i hfound
      rcases hfound with hslash | hdrive
      · rcases (head?_slashes_eq_slash _).mp hslash with hhead | hback
        · have hout := startsOutside_dropWhile (fun c : Char => decide (c = '/')) path '/' hhead
          exact absurd hout (by decide)
        · exact .inr hback
      · exact .inl ((hasDrive_slashes _).mp hdrive)
    · cases huri

/-! ### Relative paths -/

theorem length_fileUriToLocalPath {localPath : List Char} (h : fileUriToLocalPath path = some localPath) :
    localPath.length ≤ path.length := by
  obtain ⟨stripped, hstrip, hcut⟩ := Option.bind_eq_some_iff.mp h
  split at hcut
  · cases hcut
  · rw [← Option.some.inj hcut, length_slashes, strip_eq_some_iff.mp hstrip, List.length_append]
    have := (List.dropWhile_sublist (· = '/') (l := stripped)).length_le
    omega

/-- The slashes at the end of the base, and those that its backslashes become. -/
theorem exists_append_slashes (base : List Char) :
    ∃ more, slashes (trimEnd (· = '/') base) = trimEnd (· = '/') (slashes base) ++ more ∧
      (∀ c ∈ more, c = '/') ∧ (more = [] ↔ (trimEnd (· = '/') base).getLast? ≠ some '\\') := by
  obtain ⟨post, hbase, hpost, hend⟩ := exists_append_trimEnd (fun c : Char => decide (c = '/')) base
  obtain ⟨more, hmore, hall, hstop⟩ :=
    exists_append_trimEnd (fun c : Char => decide (c = '/')) (slashes (trimEnd (· = '/') base))
  have hsame : trimEnd (· = '/') (slashes base) = trimEnd (· = '/') (slashes (trimEnd (· = '/') base)) := by
    conv_lhs => rw [hbase, slashes_append, hmore, List.append_assoc]
    refine trimEnd_append hstop fun c hc => ?_
    rcases List.mem_append.mp hc with hc | hc
    · exact hall c hc
    · obtain ⟨d, hd, rfl⟩ := List.mem_map.mp hc
      rw [of_decide_eq_true (hpost d hd)]
      decide
  refine ⟨more, ?_, fun c hc => of_decide_eq_true (hall c hc), ?_⟩
  · rw [hsame]
    exact hmore
  · constructor
    · intro hnil hback
      rw [hnil, List.append_nil] at hmore
      have hlast : (slashes (trimEnd (· = '/') base)).getLast? = some '/' := by
        rw [getLast?_slashes, hback]
        rfl
      rw [hmore] at hlast
      exact absurd (hstop '/' hlast) (by decide)
    · intro hback
      have houtside : EndsOutside (fun c : Char => decide (c = '/')) (slashes (trimEnd (· = '/') base)) := by
        intro c hc
        rw [getLast?_slashes] at hc
        obtain ⟨d, hd, rfl⟩ := Option.map_eq_some_iff.mp hc
        rw [if_neg (by rintro rfl; exact hback hd)]
        exact hend d hd
      have htrim := trimEnd_append houtside (List.forall_mem_nil _)
      rw [List.append_nil] at htrim
      rw [htrim] at hmore
      exact List.self_eq_append_right.mp hmore

/-- An absolute base is absolute without the slashes at its end, and whatever stands behind it. -/
theorem Absolute.behindBase (h : Absolute base) (path : List Char) :
    Absolute (trimEnd (· = '/') base ++ '/' :: path) := by
  obtain ⟨post, hbase, hpost, -⟩ := exists_append_trimEnd (fun c : Char => decide (c = '/')) base
  have hkeep : ∀ (i : ℕ) (c : Char), base[i]? = some c → c ≠ '/' →
      (trimEnd (· = '/') base ++ '/' :: path)[i]? = some c := by
    intro i c hget hne
    rw [hbase] at hget
    by_cases hi : i < (trimEnd (fun c : Char => decide (c = '/')) base).length
    · rw [List.getElem?_append_left hi] at hget ⊢
      exact hget
    · rw [List.getElem?_append_right (by omega)] at hget
      exact absurd (of_decide_eq_true (hpost c (List.mem_of_getElem? hget))) hne
  rcases h with hslash | ⟨halpha, hcolon⟩
  · left
    cases htrim : trimEnd (fun c : Char => decide (c = '/')) base with
    | nil => rfl
    | cons c cs =>
        rw [hbase, htrim] at hslash
        exact hslash
  · right
    refine ⟨?_, hkeep 1 ':' hcolon (by decide)⟩
    rw [List.head?_eq_getElem?] at halpha ⊢
    cases hget : base[0]? with
    | none =>
        rw [hget] at halpha
        cases halpha
    | some c =>
        rw [hget] at halpha
        have hne : c ≠ '/' := by
          rintro rfl
          exact absurd halpha (by decide)
        rw [hkeep 0 c hget hne]
        exact halpha

/-- A relative path that can be joined is put behind the base. -/
theorem joinsBase_of_joinable (hrel : Relative path) (h : Joinable base path) : JoinsBase base path := by
  have htrim : trim path = path := trimOf_eq_self h.start h.stop
  have hempty : ¬ path.isEmpty = true := by simpa using h.nonempty
  have hfile : fileUriToLocalPath path = none := by
    cases hstrip : strip "file:".toList path with
    | none =>
        rw [fileUriToLocalPath, hstrip]
        rfl
    | some rest =>
        have hscheme := hrel.2
        rw [strip_eq_some_iff.mp hstrip] at hscheme
        cases hscheme
  have habs : ¬ (decide ("://".toList <:+: path) || isAbsolutePath path) = true := by
    rw [isAbsolutePath, Bool.or_eq_true, Bool.or_eq_true, decide_eq_true_eq, decide_eq_true_eq, decide_eq_true_eq]
    rintro (hscheme | hslash | hcolon)
    · exact h.scheme hscheme
    · exact hrel.1 hslash
    · exact h.drive hcolon
  have hdrop : path.dropWhile (· = '/') = path := by
    refine dropWhile_eq_self fun c hc => decide_eq_false ?_
    rintro rfl
    exact hrel.1 hc
  obtain ⟨more, hmore, -, hnil⟩ := exists_append_slashes base
  rw [hnil.mpr h.base, List.append_nil] at hmore
  have hresolve : resolvePath base path = slashes (trimEnd (· = '/') base ++ '/' :: path) := by
    simp only [resolvePath, htrim, if_neg hempty, hfile, if_neg habs, hdrop]
    rw [slashes_append]
    rfl
  constructor
  · rw [hresolve, slashes_append, hmore]
    rfl
  · intro hbase
    rw [hresolve]
    refine resolvePath_slashes base (hbase.behindBase path).slashes ?_
    have hcons : EndsOutside Text.isWhitespace ('/' :: path) := endsOutside_append h.stop h.nonempty ['/']
    exact endsOutside_append hcons (by simp) _

theorem length_trim_le (path : List Char) : (trim path).length ≤ path.length :=
  (List.rdropWhile_prefix _ _).length_le.trans (List.dropWhile_sublist _).length_le

/-- A path that is put behind the base is not taken for a URI or an absolute path. -/
theorem JoinsBase.behind (h : JoinsBase base path) :
    trim path ≠ [] ∧ ¬ (decide ("://".toList <:+: trim path) || isAbsolutePath (trim path)) = true ∧
      slashes (trimEnd (· = '/') base) ++ '/' :: slashes ((trim path).dropWhile (· = '/')) =
        trimEnd (· = '/') (slashes base) ++ '/' :: slashes path := by
  have hjoined := h.joined
  -- anything else that is returned is no longer than the path
  have hshort : ∀ cs : List Char, cs.length ≤ path.length →
      cs ≠ trimEnd (· = '/') (slashes base) ++ '/' :: slashes path := by
    rintro cs hle rfl
    rw [List.length_append, List.length_cons, length_slashes] at hle
    omega
  have htrim := length_trim_le path
  rw [resolvePath] at hjoined
  split at hjoined
  · exact absurd hjoined (hshort _ htrim)
  · rename_i hempty
    split at hjoined
    · rename_i localPath hlocal
      exact absurd hjoined (hshort _ ((length_fileUriToLocalPath hlocal).trans htrim))
    · split at hjoined
      · refine absurd hjoined (hshort _ ?_)
        rw [length_slashes]
        exact htrim
      · rename_i habs
        exact ⟨by simpa using hempty, habs, hjoined⟩

/-- A slash too many is not made up for by trimming: a character of the path would be gone. -/
theorem slash_append_ne (hhead : path.head? ≠ some '/') (hne : trim path ≠ []) {more : List Char}
    (hmore : ∀ c ∈ more, c = '/') : more ++ '/' :: slashes ((trim path).dropWhile (· = '/')) ≠ slashes path := by
  intro htail
  obtain ⟨pre, post, hpath, hpre, hpost, hstart, hend⟩ := exists_append_trimOf Text.isWhitespace path
  replace hpath : path = pre ++ trim path ++ post := hpath
  replace hend : EndsOutside Text.isWhitespace (trim path) := hend
  have hslash : (slashes path).head? = some '/' := by
    rw [← htail]
    cases hcase : more with
    | nil => rfl
    | cons c cs =>
        rw [hmore c (by rw [hcase]; exact List.mem_cons_self)]
        rfl
  have hback := ((head?_slashes_eq_slash path).mp hslash).resolve_left hhead
  have hprenil : pre = [] := by
    cases hp : pre with
    | nil => rfl
    | cons d ds =>
        rw [hpath, hp] at hback
        have hd : d = '\\' := Option.some.inj hback
        have hws := hpre d (by rw [hp]; exact List.mem_cons_self)
        rw [hd] at hws
        exact absurd hws (by decide)
  rw [hprenil, List.nil_append] at hpath
  have hstay : (trim path).dropWhile (· = '/') = trim path := by
    refine dropWhile_eq_self fun d hd => ?_
    have hfirst : path.head? = some d := by
      rw [hpath, List.head?_append_of_ne_nil _ hne]
      exact hd
    rw [hback] at hfirst
    rw [← Option.some.inj hfirst]
    decide
  rw [hstay] at htail
  have hpostne : post ≠ [] := by
    rintro rfl
    rw [List.append_nil] at hpath
    have hlength := congrArg List.length htail
    rw [← hpath, List.length_append, List.length_cons, length_slashes] at hlength
    omega
  -- so the path ends in white space, and what is left of it does not
  have hlast : (slashes (trim path)).getLast? = (slashes path).getLast? := by
    rw [← htail, List.getLast?_append_of_ne_nil _ (by simp), ← List.singleton_append,
      List.getLast?_append_of_ne_nil _ (by simpa [slashes] using hne)]
  obtain ⟨d, hd⟩ := List.getLast?_isSome.mpr hpostne |> Option.isSome_iff_exists.mp
  have hdws := hpost d (List.mem_of_getLast? hd)
  have hdlast : path.getLast? = some d := by
    rw [hpath, List.getLast?_append_of_ne_nil _ hpostne]
    exact hd
  have hout := endsOutside_slashes hend (if d = '\\' then '/' else d) (by
    show (slashes (trim path)).getLast? = _
    rw [hlast, getLast?_slashes, hdlast]
    rfl)
  rw [isWhitespace_slash, hdws] at hout
  cases hout

/-- **A path that is put behind the base** can be joined. -/
theorem JoinsBase.joinable (hrel : Relative path) (h : JoinsBase base path) : Joinable base path := by
  obtain ⟨hne, habs, hjoined⟩ := h.behind
  obtain ⟨more, hmore, hslashes, hnil⟩ := exists_append_slashes base
  rw [hmore, List.append_assoc] at hjoined
  have hrest := List.append_cancel_left hjoined
  cases hcase : more with
  | nil =>
      rw [hcase, List.nil_append] at hrest
      have hsame := congrArg List.length (List.cons.inj hrest).2
      rw [length_slashes, length_slashes] at hsame
      have hdrop := (List.dropWhile_sublist (fun c : Char => decide (c = '/')) (l := trim path)).length_le
      have hself : trim path = path := by
        obtain ⟨pre, post, hpath, -⟩ := exists_append_trimOf Text.isWhitespace path
        replace hpath : path = pre ++ trim path ++ post := hpath
        have hlength := congrArg List.length hpath
        rw [List.length_append, List.length_append] at hlength
        have hpre : pre = [] := List.length_eq_zero_iff.mp (by omega)
        have hpost : post = [] := List.length_eq_zero_iff.mp (by omega)
        rw [hpre, hpost, List.nil_append, List.append_nil] at hpath
        exact hpath.symm
      obtain ⟨hstart, hend⟩ := trimOf_eq_self_iff.mp hself
      rw [hself] at hne habs
      rw [isAbsolutePath, Bool.or_eq_true, Bool.or_eq_true, decide_eq_true_eq, decide_eq_true_eq,
        decide_eq_true_eq, not_or, not_or] at habs
      exact ⟨hne, hstart, hend, habs.1, habs.2.2, hnil.mp hcase⟩
  | cons c more' =>
      -- a backslash at the end of the base leaves one slash too many
      rw [hcase, hslashes c (by rw [hcase]; exact List.mem_cons_self), List.cons_append] at hrest
      refine absurd (List.cons.inj hrest).2 (slash_append_ne hrel.1 hne fun d hd => hslashes d ?_)
      rw [hcase]
      exact List.mem_cons_of_mem c hd

/-! ### The conditions -/

/-- **What resolving does.**  An absolute path and its file URIs name one file exactly if there is a drive or a
backslash behind its slashes; a relative path stands behind the base exactly if it can be joined. -/
theorem resolvePath_iff (base path : List Char) :
    (Absolute path → (SchemeIndependent base path ↔ DriveOrBackslash path)) ∧
      (Relative path → (JoinsBase base path ↔ Joinable base path)) :=
  ⟨fun habs => ⟨fun h => h.driveOrBackslash habs, fun h => schemeIndependent_of_driveOrBackslash habs h base⟩,
    fun hrel => ⟨fun h => h.joinable hrel, joinsBase_of_joinable hrel⟩⟩

/-- A path on a drive, and one behind it. -/
theorem resolvePath_iff_drive :
    (SchemeIndependent "C:/wh".toList "C:/wh/a".toList ↔ DriveOrBackslash "C:/wh/a".toList) ∧
      (JoinsBase "C:/wh".toList "data".toList ↔ Joinable "C:/wh".toList "data".toList) :=
  ⟨(resolvePath_iff "C:/wh".toList "C:/wh/a".toList).1 (by decide),
    (resolvePath_iff "C:/wh".toList "data".toList).2 ⟨by decide, by decide⟩⟩

/-- The URI of a Unix path resolves to a relative path, the storage's file is absolute. -/
theorem not_schemeIndependent_unix :
    Absolute "/abs/data.parquet".toList ∧
      resolvePath "/wh".toList "file:/abs/data.parquet".toList = "abs/data.parquet".toList ∧
      LocalFsStorage.normalizePath "file:/abs/data.parquet".toList = "/abs/data.parquet".toList ∧
      ¬ SchemeIndependent "/wh".toList "/abs/data.parquet".toList := by
  refine ⟨by decide, by decide, by decide, fun h => ?_⟩
  obtain ⟨file, hfile⟩ := h.file
  have huri := (hfile "file:/abs/data.parquet".toList (by decide)).1
  have hnone : localFile (resolvePath "/wh".toList "file:/abs/data.parquet".toList) = none := by decide
  rw [hnone] at huri
  cases huri

end

end IcebergDb.Catalog
