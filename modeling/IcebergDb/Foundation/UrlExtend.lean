import IcebergDb.Foundation.Url

/-!
# More path behind a URL

What a URL becomes when a slash and more text are written behind it.

* `pathRest` — what is left of the text: it is cleaned, and ends at a `?` or a `#`;
* `foldPath_append_cons`, `pathState_append` — a path goes on where it ended, behind a segment that is not empty;
* `parse_append` — **behind a URL with such a path, without a query and a fragment, the text goes on with the path**;
* `parse_append_of_tail` — behind a query or a fragment, the path does not change;
* `getElem_foldPath` — what stands behind the old segments comes from the new ones.
-/

namespace IcebergDb.Url

open Percent Utf8

variable {k : Kind} {path segs : List Segment} {seg : Segment} {cs rest : List Char}

/-! ### Paths that go on -/

/-- Past a segment that is no dot segment, a path goes on. -/
theorem foldPath_append_cons (h : isDot seg = false) (segs path more : List Segment) :
    foldPath k path (segs ++ seg :: more) = foldPath k (foldPath k path (segs ++ [seg])) more := by
  induction segs generalizing path with
  | nil =>
      rw [List.nil_append, List.nil_append, foldPath_cons_of_not_dot h, foldPath_cons_of_not_dot h]
      rfl
  | cons s segs ih =>
      have hempty : ∀ tail : List Segment, (segs ++ seg :: tail).isEmpty = false := by simp
      rw [List.cons_append, List.cons_append, foldPath, foldPath, hempty, hempty]
      exact ih _

/-- A dot segment at the end leaves an empty segment. -/
theorem not_dot_of_foldPath (last : Segment) (hne : seg ≠ []) :
    ∀ (segs front : List Segment), foldPath k front (segs ++ [last]) = path ++ [seg] → isDot last = false := by
  intro segs
  induction segs with
  | nil =>
      intro front h
      rw [Bool.eq_false_iff]
      intro hdot
      rw [isDot, Bool.or_eq_true] at hdot
      have hlast : ∃ before, foldPath k front [last] = before ++ [[]] := by
        by_cases hdouble : isDoubleDot last = true
        · refine ⟨shorten k front, ?_⟩
          rw [foldPath, if_pos hdouble]
          rfl
        · refine ⟨front, ?_⟩
          rw [foldPath, if_neg hdouble, if_pos (hdot.resolve_right hdouble)]
          rfl
      obtain ⟨before, hbefore⟩ := hlast
      have hsame := (List.append_inj_right' (hbefore.symm.trans h) rfl)
      exact hne (List.cons.inj hsame).1.symm
  | cons s segs ih =>
      intro front h
      exact ih _ h

/-- **A path whose last segment is not empty goes on behind it.** -/
theorem pathState_append (h : pathState k cs = path ++ [seg]) (hne : seg ≠ []) (rest : List Char) :
    pathState k (cs ++ '/' :: rest) = foldPath k (path ++ [seg]) (rest.splitOnP (isSeparator k)) := by
  have hsplit : (cs ++ '/' :: rest).splitOnP (isSeparator k) =
      cs.splitOnP (isSeparator k) ++ rest.splitOnP (isSeparator k) :=
    List.splitOnP_append_cons cs rest (isSeparator_slash k)
  obtain ⟨front, last, hcs⟩ : ∃ front last, cs.splitOnP (isSeparator k) = front ++ [last] := by
    rcases List.eq_nil_or_concat (cs.splitOnP (isSeparator k)) with hnil | ⟨front, last, hconcat⟩
    · exact absurd hnil (List.splitOnP_ne_nil _ cs)
    · exact ⟨front, last, by rw [hconcat, List.concat_eq_append]⟩
  unfold pathState at h ⊢
  rw [hcs] at h
  rw [hsplit, hcs, List.append_assoc, List.singleton_append,
    foldPath_append_cons (not_dot_of_foldPath last hne front [] h), h]

/-- A path that is read from nothing ends in an empty segment, if in any. -/
theorem eq_nil_of_pathStart_nil (h : pathStart k [] = path ++ [seg]) : seg = [] := by
  unfold pathStart at h
  simp only at h
  split at h
  · have hconcat : [] ++ [[]] = path ++ [seg] := h
    exact (List.cons.inj (List.append_inj_right' hconcat rfl)).1.symm
  · exact absurd h.symm (by simp)

theorem eq_nil_of_pathState_nil (h : pathState k [] = path ++ [seg]) : seg = [] := by
  have hstate : pathState k [] = [] ++ [[]] := by cases k <;> rfl
  exact (List.cons.inj (List.append_inj_right' (hstate.symm.trans h) rfl)).1.symm

theorem pathStart_append (h : pathStart k cs = path ++ [seg]) (hne : seg ≠ []) (rest : List Char) :
    pathStart k (cs ++ '/' :: rest) = foldPath k (path ++ [seg]) (rest.splitOnP (isSeparator k)) := by
  cases cs with
  | nil => exact absurd (eq_nil_of_pathStart_nil h) hne
  | cons c cs =>
      unfold pathStart at h ⊢
      simp only [List.cons_append] at h ⊢
      split at h
      · rename_i hsep
        rw [if_pos hsep]
        exact pathState_append h hne rest
      · rename_i hsep
        rw [if_neg hsep]
        exact pathState_append h hne rest

/-! ### Texts that go on -/

section

variable {H : HostParser} {scheme : String} {u : Url}

/-- Whatever is taken while there is no separator ends at a slash. -/
theorem takeWhile_append_slash (cs rest : List Char) :
    (cs ++ '/' :: rest).takeWhile (!isSeparator k ·) = cs.takeWhile (!isSeparator k ·) ∧
      (cs ++ '/' :: rest).dropWhile (!isSeparator k ·) = cs.dropWhile (!isSeparator k ·) ++ '/' :: rest := by
  have hslash : isSeparator k '/' = true := isSeparator_slash k
  induction cs with
  | nil =>
      rw [List.nil_append, List.takeWhile_cons_of_neg (by rw [hslash]; decide),
        List.dropWhile_cons_of_neg (by rw [hslash]; decide)]
      exact ⟨rfl, rfl⟩
  | cons c cs ih =>
      cases hc : isSeparator k c with
      | true =>
          rw [List.cons_append, List.takeWhile_cons_of_neg (by rw [hc]; decide),
            List.takeWhile_cons_of_neg (by rw [hc]; decide), List.dropWhile_cons_of_neg (by rw [hc]; decide),
            List.dropWhile_cons_of_neg (by rw [hc]; decide)]
          exact ⟨rfl, rfl⟩
      | false =>
          rw [List.cons_append, List.takeWhile_cons_of_pos (by rw [hc]; decide),
            List.takeWhile_cons_of_pos (by rw [hc]; decide), List.dropWhile_cons_of_pos (by rw [hc]; decide),
            List.dropWhile_cons_of_pos (by rw [hc]; decide), ih.1, ih.2]
          exact ⟨rfl, rfl⟩

/-- A URL with its path gone on. -/
def withPath (u : Url) (path : List Segment) : Url := { u with path := .segments path }

theorem parseHierarchy_append (h : parseHierarchy H scheme cs = some u) (hpath : u.path = .segments (path ++ [seg]))
    (hne : seg ≠ []) (rest : List Char) :
    parseHierarchy H scheme (cs ++ '/' :: rest) =
      some (u.withPath (foldPath (kindOf scheme) (path ++ [seg]) (rest.splitOnP (isSeparator (kindOf scheme))))) := by
  unfold parseHierarchy at h ⊢
  obtain ⟨htake, hdrop⟩ := takeWhile_append_slash (k := kindOf scheme) cs rest
  simp only at h ⊢
  rw [htake, hdrop]
  obtain ⟨authority, hauthority, rfl⟩ := Option.map_eq_some_iff.mp h
  rw [hauthority, Option.map_some, pathStart_append (Path.segments.inj hpath) hne]
  rfl

theorem parseFileHost_append (h : parseFileHost H cs = some u) (hpath : u.path = .segments (path ++ [seg]))
    (hne : seg ≠ []) (rest : List Char) :
    parseFileHost H (cs ++ '/' :: rest) =
      some (u.withPath (foldPath .file (path ++ [seg]) (rest.splitOnP (isSeparator .file)))) := by
  unfold parseFileHost at h ⊢
  obtain ⟨htake, hdrop⟩ := takeWhile_append_slash (k := .file) cs rest
  simp only at h ⊢
  rw [htake, hdrop]
  by_cases hdrive : isDriveLetter (cs.takeWhile (!isSeparator .file ·)) = true
  · rw [if_pos hdrive] at h
    obtain rfl := Option.some.inj h
    rw [if_pos hdrive, pathState_append (Path.segments.inj hpath) hne]
    rfl
  · rw [if_neg hdrive] at h
    obtain ⟨host, hhost, rfl⟩ := Option.map_eq_some_iff.mp h
    rw [if_neg hdrive, hhost, Option.map_some, pathStart_append (Path.segments.inj hpath) hne]
    rfl

theorem parseFile_append (h : parseFile H cs = some u) (hpath : u.path = .segments (path ++ [seg]))
    (hne : seg ≠ []) (rest : List Char) :
    parseFile H (cs ++ '/' :: rest) =
      some (u.withPath (foldPath .file (path ++ [seg]) (rest.splitOnP (isSeparator .file)))) := by
  -- a path that is read from nothing does not end in `seg`
  have hnil : pathState .file [] ≠ path ++ [seg] := by
    intro hnil
    exact hne (eq_nil_of_pathState_nil hnil)
  match cs with
  | [] =>
      obtain rfl := Option.some.inj h
      exact absurd (Path.segments.inj hpath) hnil
  | [c] =>
      cases hc : isSeparator .file c with
      | true =>
          have hdrop : [c].dropWhile (isSeparator .file ·) = [] := List.dropWhile_cons_of_pos hc
          unfold parseFile at h
          simp only [hdrop] at h
          obtain rfl := Option.some.inj h
          exact absurd (Path.segments.inj hpath) hnil
      | false =>
          have hdrop : [c].dropWhile (isSeparator .file ·) = [c] :=
            List.dropWhile_cons_of_neg (by rw [hc]; decide)
          unfold parseFile at h ⊢
          simp only [hdrop] at h
          obtain rfl := Option.some.inj h
          simp only [List.cons_append, List.nil_append, hc, Bool.false_eq_true, if_false]
          have hgo := pathState_append (Path.segments.inj hpath) hne rest
          rw [List.singleton_append] at hgo
          rw [hgo]
          rfl
  | c :: d :: cs =>
      unfold parseFile at h ⊢
      simp only [List.cons_append] at h ⊢
      cases hc : isSeparator .file c with
      | true =>
          rw [hc, if_pos rfl] at h
          rw [if_pos rfl]
          cases hd : isSeparator .file d with
          | true =>
              rw [hd, if_pos rfl] at h
              rw [if_pos rfl]
              exact parseFileHost_append h hpath hne rest
          | false =>
              rw [hd, if_neg (by decide)] at h
              obtain rfl := Option.some.inj h
              rw [if_neg (by decide)]
              have hgo := pathState_append (Path.segments.inj hpath) hne rest
              rw [List.cons_append] at hgo
              rw [hgo]
              rfl
      | false =>
          rw [hc, if_neg (by decide)] at h
          obtain rfl := Option.some.inj h
          rw [if_neg (by decide)]
          have hgo := pathState_append (Path.segments.inj hpath) hne rest
          rw [List.cons_append, List.cons_append] at hgo
          rw [hgo]
          rfl

/-- One slash after a scheme begins a path. -/
theorem parseAfterScheme_slash (hkind : kindOf scheme = .other) (h : cs.head? ≠ some '/') :
    parseAfterScheme H scheme ('/' :: cs) = some (plain scheme none (.segments (pathState .other cs))) := by
  unfold parseAfterScheme
  rw [hkind]
  cases cs with
  | nil => rfl
  | cons c cs =>
      have hc : c ≠ '/' := fun heq => h (congrArg some heq)
      split
      · rename_i heq
        cases heq
      · rename_i heq
        cases heq
      · rename_i heq
        exact absurd (List.cons.inj (List.cons.inj heq).2).1 hc
      · rename_i heq
        rw [(List.cons.inj heq).2]
      · rename_i hno
        exact absurd rfl (hno _)

/-- No slash after a scheme begins a text. -/
theorem parseAfterScheme_text (hkind : kindOf scheme = .other) (h : cs.head? ≠ some '/') :
    parseAfterScheme H scheme cs = some (plain scheme none (.text (percentEncode c0Set cs))) := by
  unfold parseAfterScheme
  rw [hkind]
  split
  · rename_i heq
    cases heq
  · rename_i heq
    cases heq
  · exact absurd rfl h
  · exact absurd rfl h
  · rfl

theorem parseAfterScheme_append (h : parseAfterScheme H scheme cs = some u)
    (hpath : u.path = .segments (path ++ [seg])) (hne : seg ≠ []) (rest : List Char) :
    parseAfterScheme H scheme (cs ++ '/' :: rest) =
      some (u.withPath (foldPath (kindOf scheme) (path ++ [seg]) (rest.splitOnP (isSeparator (kindOf scheme))))) := by
  have hhierarchy : parseHierarchy H scheme [] ≠ some u := by
    intro hnil
    obtain ⟨authority, -, rfl⟩ := Option.map_eq_some_iff.mp hnil
    exact hne (eq_nil_of_pathStart_nil (Path.segments.inj hpath))
  cases hkind : kindOf scheme with
  | special =>
      unfold parseAfterScheme at h ⊢
      simp only [hkind] at h ⊢
      -- the slashes at the front end before the text does
      have hdrop : cs.dropWhile (isSeparator .special ·) ≠ [] := by
        intro hnil
        rw [hnil] at h
        exact hhierarchy h
      have happend : (cs ++ '/' :: rest).dropWhile (isSeparator .special ·) =
          cs.dropWhile (isSeparator .special ·) ++ '/' :: rest := by
        rw [List.dropWhile_append, if_neg (by rwa [List.isEmpty_iff])]
      have hgo := parseHierarchy_append h hpath hne rest
      rw [happend, hgo, hkind]
  | file =>
      unfold parseAfterScheme at h ⊢
      simp only [hkind] at h ⊢
      exact parseFile_append h hpath hne rest
  | other =>
      by_cases hslash : cs.head? = some '/'
      · obtain ⟨others, rfl⟩ : ∃ others, cs = '/' :: others := by
          cases cs with
          | nil => cases hslash
          | cons c cs => exact ⟨cs, congrArg (· :: cs) (Option.some.inj hslash)⟩
        by_cases hagain : others.head? = some '/'
        · obtain ⟨text, rfl⟩ : ∃ text, others = '/' :: text := by
            cases others with
            | nil => cases hagain
            | cons c cs => exact ⟨cs, congrArg (· :: cs) (Option.some.inj hagain)⟩
          unfold parseAfterScheme at h ⊢
          simp only [hkind, List.cons_append] at h ⊢
          rw [parseHierarchy_append h hpath hne rest, hkind]
        · rw [parseAfterScheme_slash hkind hagain] at h
          obtain rfl := Option.some.inj h
          have hothers : others ≠ [] := by
            rintro rfl
            exact hne (eq_nil_of_pathState_nil (Path.segments.inj hpath))
          have hhead : (others ++ '/' :: rest).head? ≠ some '/' := by
            rw [List.head?_append_of_ne_nil _ hothers]
            exact hagain
          rw [List.cons_append, parseAfterScheme_slash hkind hhead, pathState_append (Path.segments.inj hpath) hne]
          rfl
      · rw [parseAfterScheme_text hkind hslash] at h
        obtain rfl := Option.some.inj h
        cases hpath

/-- A scheme is read as before. -/
theorem splitScheme_append_of_some {body : List Char} (h : splitScheme cs = some (scheme, body)) (rest : List Char) :
    splitScheme (cs ++ rest) = some (scheme, body ++ rest) := by
  unfold splitScheme at h
  split at h
  · rename_i after hdrop
    split at h
    · rename_i hfirst
      obtain ⟨rfl, rfl⟩ := Prod.mk.inj (Option.some.inj h)
      have hcs := List.takeWhile_append_dropWhile (p := isSchemeChar) (l := cs)
      rw [hdrop] at hcs
      rw [← hcs, List.append_assoc, List.cons_append, splitScheme_append hfirst ?_]
      · rw [hcs]
      · intro c hc
        exact List.mem_takeWhile_imp hc
    · cases h
  · cases h

/-- The scheme is the one that was read. -/
theorem scheme_of_parseAfterScheme (h : parseAfterScheme H scheme cs = some u) : u.scheme = scheme := by
  have hhierarchy : ∀ cs, parseHierarchy H scheme cs = some u → u.scheme = scheme := by
    intro cs h
    obtain ⟨authority, -, rfl⟩ := Option.map_eq_some_iff.mp h
    rfl
  have hhost : ∀ cs, parseFileHost H cs = some u → u.scheme = "file" := by
    intro cs h
    unfold parseFileHost at h
    simp only at h
    split at h
    · obtain rfl := Option.some.inj h
      rfl
    · obtain ⟨host, -, rfl⟩ := Option.map_eq_some_iff.mp h
      rfl
  have hfile : parseFile H cs = some u → u.scheme = "file" := by
    intro h
    unfold parseFile at h
    split at h
    · split at h
      · split at h
        · exact hhost _ h
        · obtain rfl := Option.some.inj h
          rfl
      · obtain rfl := Option.some.inj h
        rfl
    · obtain rfl := Option.some.inj h
      rfl
  unfold parseAfterScheme at h
  split at h
  · exact hhierarchy _ h
  · rename_i hkind
    have hscheme : scheme = "file" := by
      unfold kindOf at hkind
      split at hkind
      · assumption
      · split at hkind
        · cases hkind
        · cases hkind
    rw [hfile h, hscheme]
  · exact hhierarchy _ h
  · obtain rfl := Option.some.inj h
    rfl
  · obtain rfl := Option.some.inj h
    rfl

theorem parseHead_append {head : Url} (h : parseHead H cs = some head) (hpath : head.path = .segments (path ++ [seg]))
    (hne : seg ≠ []) (rest : List Char) :
    parseHead H (cs ++ '/' :: rest) =
      some (head.withPath (foldPath head.kind (path ++ [seg]) (rest.splitOnP (isSeparator head.kind)))) := by
  obtain ⟨⟨scheme, body⟩, hscheme, hafter⟩ := Option.bind_eq_some_iff.mp h
  have hkind : head.kind = kindOf scheme := congrArg kindOf (scheme_of_parseAfterScheme hafter)
  unfold parseHead
  rw [splitScheme_append_of_some hscheme, Option.bind_some, parseAfterScheme_append hafter hpath hne, hkind]

/-! ### More path -/

/-- What is left of more path: it is cleaned, and ends at a `?` or a `#`. -/
def pathRest (rest : List Char) : List Char := (cutAt '?' (cutAt '#' (cleanEnd rest)).1).1

/-- **Behind a URL without query and fragment, a text goes on with the path.** -/
theorem parse_append {c : Char} (hc : isC0OrSpace c = false) {pre : List Char} (hu : parse H (pre ++ [c]) = some u)
    (hquery : u.query = none) (hfragment : u.fragment = none) (hpath : u.path = .segments (path ++ [seg]))
    (hne : seg ≠ []) (rest : List Char) :
    ∃ v, parse H (pre ++ c :: '/' :: rest) = some v ∧
      v.path = .segments (foldPath u.kind (path ++ [seg]) ((pathRest rest).splitOnP (isSeparator u.kind))) := by
  obtain ⟨head, hhead, rfl⟩ := Option.map_eq_some_iff.mp hu
  have hhash : '#' ∉ clean (pre ++ [c]) := cutAt_snd_eq_none_iff.mp (Option.map_eq_none_iff.mp hfragment)
  rw [cutAt_eq_self hhash] at hhead hquery
  have hquestion : '?' ∉ clean (pre ++ [c]) := cutAt_snd_eq_none_iff.mp (Option.map_eq_none_iff.mp hquery)
  rw [cutAt_eq_self hquestion] at hhead
  -- the text is cut behind the slash
  have hno : ∀ d, d ≠ '/' → d ∉ clean (pre ++ [c]) → d ∉ clean (pre ++ [c]) ++ ['/'] := by
    intro d hd hnot
    rw [List.mem_append, List.mem_singleton, not_or]
    exact ⟨hnot, hd⟩
  have hjoin : clean (pre ++ [c]) ++ '/' :: cleanEnd rest = (clean (pre ++ [c]) ++ ['/']) ++ cleanEnd rest := by simp
  have hcut : (cutAt '?' (cutAt '#' (clean (pre ++ c :: '/' :: rest))).1).1 =
      clean (pre ++ [c]) ++ '/' :: pathRest rest := by
    rw [clean_append_cons hc (show isC0OrSpace '/' = false by decide), hjoin, cutAt_of_notMem (hno '#' (by decide) hhash),
      cutAt_of_notMem (hno '?' (by decide) hquestion), List.append_assoc]
    rfl
  unfold parse
  simp only [hcut, parseHead_append hhead hpath hne]
  exact ⟨_, rfl, rfl⟩

/-- **Behind a query or a fragment, the path does not change.** -/
theorem parse_append_of_tail {c : Char} (hc : isC0OrSpace c = false) {pre : List Char}
    (hu : parse H (pre ++ [c]) = some u) (htail : u.query ≠ none ∨ u.fragment ≠ none) (rest : List Char) :
    ∃ v, parse H (pre ++ c :: rest) = some v ∧ v.path = u.path := by
  obtain ⟨head, hhead, rfl⟩ := Option.map_eq_some_iff.mp hu
  have hcut : (cutAt '?' (cutAt '#' (clean (pre ++ c :: rest))).1).1 =
      (cutAt '?' (cutAt '#' (clean (pre ++ [c]))).1).1 := by
    rw [clean_append hc]
    by_cases hhash : '#' ∈ clean (pre ++ [c])
    · obtain ⟨before, after, hmem⟩ := cutAt_of_mem hhash
      have hself := hmem []
      rw [List.append_nil, List.append_nil] at hself
      rw [hmem, hself]
    · have hquestion : '?' ∈ clean (pre ++ [c]) := by
        by_contra hquestion
        rw [cutAt_eq_self hhash, cutAt_eq_self hquestion] at htail
        exact htail.elim (fun h => h rfl) fun h => h rfl
      obtain ⟨before, after, hmem⟩ := cutAt_of_mem hquestion
      have hself := hmem []
      rw [List.append_nil, List.append_nil] at hself
      rw [cutAt_of_notMem hhash, hmem, cutAt_eq_self hhash, hself]
  unfold parse
  simp only [hcut, hhead]
  exact ⟨_, rfl, rfl⟩

end

/-! ### What stands behind the old segments -/

/-- Only the first segment of a path may be a drive letter. -/
theorem getElem_pushSegment {P : Segment → Prop} {n : ℕ} (hn : 0 < n) (hseg : P (percentEncode pathSet seg))
    (hpath : ∀ i s, n ≤ i → path[i]? = some s → P s) :
    ∀ i s, n ≤ i → (pushSegment k path seg)[i]? = some s → P s := by
  intro i s hi hs
  unfold pushSegment at hs
  have hplain : (path ++ [percentEncode pathSet seg])[i]? = some s → P s := by
    intro hs
    by_cases hlt : i < path.length
    · rw [List.getElem?_append_left hlt] at hs
      exact hpath i s hi hs
    · rw [List.getElem?_append_right (by omega), List.getElem?_singleton] at hs
      split at hs
      · obtain rfl := Option.some.inj hs
        exact hseg
      · cases hs
  split at hs
  · split at hs
    · rw [List.getElem?_singleton, if_neg (by omega)] at hs
      cases hs
    · rw [List.getElem?_singleton, if_neg (by omega)] at hs
      cases hs
  · exact hplain hs

theorem getElem_shorten {P : Segment → Prop} {n : ℕ} (hpath : ∀ i s, n ≤ i → path[i]? = some s → P s) :
    ∀ i s, n ≤ i → (shorten k path)[i]? = some s → P s := by
  intro i s hi hs
  have hprefix : shorten k path <+: path := by
    unfold shorten
    split
    · split
      · exact List.prefix_rfl
      · exact List.nil_prefix
    · exact List.dropLast_prefix path
  obtain ⟨hlt, hget⟩ := List.getElem?_eq_some_iff.mp hs
  refine hpath i s hi (List.getElem?_eq_some_iff.mpr ⟨hlt.trans_le hprefix.length_le, ?_⟩)
  rw [← hprefix.getElem hlt, hget]

/-- **What stands behind the old segments comes from the new ones**, or is empty. -/
theorem getElem_foldPath {P : Segment → Prop} {n : ℕ} (hn : 0 < n) (hnil : P [])
    (hsegs : ∀ seg ∈ segs, P (percentEncode pathSet seg)) :
    ∀ {path : List Segment}, (∀ i s, n ≤ i → path[i]? = some s → P s) →
      ∀ i s, n ≤ i → (foldPath k path segs)[i]? = some s → P s := by
  induction segs with
  | nil => exact fun hpath => hpath
  | cons seg segs ih =>
      intro path hpath
      have hconcat : ∀ {path : List Segment}, (∀ i s, n ≤ i → path[i]? = some s → P s) →
          ∀ i s, n ≤ i → (path ++ [[]])[i]? = some s → P s := by
        intro path hpath i s hi hs
        by_cases hlt : i < path.length
        · rw [List.getElem?_append_left hlt] at hs
          exact hpath i s hi hs
        · rw [List.getElem?_append_right (by omega), List.getElem?_singleton] at hs
          split at hs
          · obtain rfl := Option.some.inj hs
            exact hnil
          · cases hs
      refine ih (fun s hs => hsegs s (List.mem_cons_of_mem seg hs)) ?_
      split
      · split
        · exact hconcat (getElem_shorten hpath)
        · exact getElem_shorten hpath
      · split
        · split
          · exact hconcat hpath
          · exact hpath
        · exact getElem_pushSegment hn (hsegs seg List.mem_cons_self) hpath

/-! ### Plain segments -/

/-- Nothing in the text is cleaned, cut off or split. -/
abbrev PlainChars (k : Kind) (cs : List Char) : Prop :=
  ∀ c ∈ cs, isTabOrNewline c = false ∧ c ≠ '?' ∧ c ≠ '#' ∧ isSeparator k c = false

/-- A text that is one segment of a path, and stands for itself. -/
structure PlainSegment (k : Kind) (cs : List Char) : Prop where
  noTriplet : NoTriplet cs
  notDot : isDot cs = false
  chars : PlainChars k cs

/-- A plain segment stands for itself. -/
theorem PlainSegment.percentDecode (h : PlainSegment k cs) :
    percentDecode (percentEncode pathSet cs) = bytes cs := by
  rw [percentDecode_percentEncode pathSet_leavesTriplets, percentDecode_of_noTriplet h.noTriplet]

/-- Plain characters are left alone before a slash. -/
theorem pathRest_append (h : PlainChars k cs) (rest : List Char) :
    pathRest (cs ++ '/' :: rest) = cs ++ '/' :: pathRest rest := by
  have hclean : cleanEnd (cs ++ '/' :: rest) = (cs ++ ['/']) ++ cleanEnd rest := by
    rw [cleanEnd_append_cons (fun c hc => (h c hc).1) (by decide), List.append_assoc]
    rfl
  have hno : ∀ d, d = '?' ∨ d = '#' → d ∉ cs ++ ['/'] := by
    intro d hd hmem
    rcases List.mem_append.mp hmem with hmem | hmem
    · exact hd.elim (h d hmem).2.1 (h d hmem).2.2.1
    · obtain rfl := List.mem_singleton.mp hmem
      rcases hd with hd | hd
      · exact absurd hd (by decide)
      · exact absurd hd (by decide)
  unfold pathRest
  rw [hclean, cutAt_of_notMem (hno '#' (.inr rfl)), cutAt_of_notMem (hno '?' (.inl rfl)), List.append_assoc]
  rfl

/-- Plain characters are one segment before others. -/
theorem PlainChars.splitOnP_append (h : PlainChars k cs) (rest : List Char) :
    (pathRest (cs ++ '/' :: rest)).splitOnP (isSeparator k) = cs :: (pathRest rest).splitOnP (isSeparator k) := by
  rw [pathRest_append h]
  exact List.splitOnP_append_cons_of_forall_mem (fun c hc => (h c hc).2.2.2) '/' (isSeparator_slash k) _

/-- At the end, they are one segment without the controls and spaces behind them. -/
theorem PlainChars.splitOnP (h : PlainChars k cs) :
    (pathRest cs).splitOnP (isSeparator k) = [cs.rdropWhile isC0OrSpace] := by
  have hfront : PlainChars k (cs.rdropWhile isC0OrSpace) :=
    fun c hc => h c ((List.rdropWhile_prefix _ cs).subset hc)
  have hclean : cleanEnd cs = cs.rdropWhile isC0OrSpace := filter_eq_self_of_noTabs fun c hc => (hfront c hc).1
  have hhash : '#' ∉ cs.rdropWhile isC0OrSpace := fun hc => (hfront _ hc).2.2.1 rfl
  have hquestion : '?' ∉ cs.rdropWhile isC0OrSpace := fun hc => (hfront _ hc).2.1 rfl
  rw [pathRest, hclean, cutAt_eq_self hhash, cutAt_eq_self hquestion]
  exact List.splitOnP_eq_singleton fun c hc => (hfront c hc).2.2.2

/-- What a text is split into is part of it. -/
theorem sublist_of_mem_splitOnP {p : Char → Bool} (cs : List Char) : ∀ seg ∈ cs.splitOnP p, seg.Sublist cs := by
  induction cs using splitInduction (p := p) with
  | last s hs =>
      intro seg hseg
      rw [List.splitOnP_eq_singleton hs] at hseg
      obtain rfl := List.mem_singleton.mp hseg
      exact List.Sublist.refl seg
  | next s c rest hs hc ih =>
      intro seg hseg
      rw [List.splitOnP_append_cons_of_forall_mem hs c hc] at hseg
      rcases List.mem_cons.mp hseg with rfl | hseg
      · exact List.sublist_append_left seg _
      · exact ((ih seg hseg).cons c).trans (List.sublist_append_right s _)

/-- The segments of what is left have nothing that is cleaned or cut off. -/
theorem of_mem_splitOnP_pathRest (h : seg ∈ (pathRest rest).splitOnP (isSeparator k)) :
    seg.Sublist rest ∧ PlainChars k seg := by
  have hsub := sublist_of_mem_splitOnP _ seg h
  have hquestion := cutAt_fst_sublist '?' (cutAt '#' (cleanEnd rest)).1
  have hhash := cutAt_fst_sublist '#' (cleanEnd rest)
  refine ⟨hsub.trans ((hquestion.trans hhash).trans (cleanEnd_sublist rest)), fun c hc => ?_⟩
  have hmem : c ∈ (cutAt '?' (cutAt '#' (cleanEnd rest)).1).1 := hsub.subset hc
  have hfilter := (List.mem_filter.mp (hhash.subset (hquestion.subset hmem))).2
  refine ⟨by simpa using hfilter, ?_, ?_, eq_false_of_mem_splitOnP _ seg h c hc⟩
  · simpa using List.mem_takeWhile_imp hmem
  · simpa using List.mem_takeWhile_imp (hquestion.subset hmem)

/-- **A segment that stands for a text with as many percent signs and as many `2` is that text.** -/
theorem eq_of_percentDecode {ds : List Char} (h : percentDecode seg = bytes ds)
    (hpercent : seg.count '%' ≤ ds.count '%') (htwo : seg.count '2' ≤ ds.count '2') : NoTriplet seg ∧ seg = ds := by
  obtain ⟨hle, heq⟩ := count_percentDecode seg
  have hsigns : (bytes ds).count 0x25 = ds.count '%' := count_bytes (show '%'.toNat < 128 by decide) ds
  have htwos : (bytes ds).count 0x32 = ds.count '2' := count_bytes (show '2'.toNat < 128 by decide) ds
  rw [h, hsigns] at hle heq
  rw [htwos] at heq
  obtain ⟨hle2, heq2⟩ := heq (by omega)
  have hno := heq2 (by omega)
  refine ⟨hno, bytes_injective ?_⟩
  rw [← h, percentDecode_of_noTriplet hno]

/-- **If what stands behind the old segments stands for a text with as many percent signs and `2` as all that was
written, nothing in that text is cleaned, cut off or split.** -/
theorem chars_of_foldPath {ds : List Char} {i : ℕ} (hpath : path ≠ [])
    (h : (foldPath k path ((pathRest rest).splitOnP (isSeparator k)))[i]? = some seg) (hi : path.length ≤ i)
    (hseg : percentDecode seg = bytes ds) (hpercent : rest.count '%' ≤ ds.count '%')
    (htwo : rest.count '2' ≤ ds.count '2') : PlainChars k ds := by
  have hraw : ∃ raw, (raw = [] ∨ raw ∈ (pathRest rest).splitOnP (isSeparator k)) ∧
      percentDecode seg = percentDecode raw := by
    refine getElem_foldPath
      (P := fun s => ∃ raw, (raw = [] ∨ raw ∈ (pathRest rest).splitOnP (isSeparator k)) ∧
        percentDecode s = percentDecode raw)
      (List.length_pos_of_ne_nil hpath) ⟨[], .inl rfl, rfl⟩ (fun raw hmem => ?_) (fun j s hj hs => ?_) i seg hi h
    · exact ⟨raw, .inr hmem, percentDecode_percentEncode pathSet_leavesTriplets raw⟩
    · rw [List.getElem?_eq_none hj] at hs
      cases hs
  obtain ⟨raw, hmem, hdecode⟩ := hraw
  rw [hseg] at hdecode
  rcases hmem with rfl | hmem
  · obtain rfl : ds = [] := bytes_injective hdecode
    exact fun c hc => absurd hc List.not_mem_nil
  · obtain ⟨hsub, hchars⟩ := of_mem_splitOnP_pathRest hmem
    obtain ⟨-, rfl⟩ := eq_of_percentDecode hdecode.symm ((hsub.count_le '%').trans hpercent)
      ((hsub.count_le '2').trans htwo)
    exact hchars

theorem shorten_length_le (k : Kind) (path : List Segment) : (shorten k path).length ≤ path.length := by
  unfold shorten
  split
  · split
    · exact le_rfl
    · exact Nat.zero_le _
  · rw [List.length_dropLast]
    exact Nat.sub_le _ _

/-- Every segment adds one at most. -/
theorem length_foldPath_le (k : Kind) (segs : List Segment) :
    ∀ path, (foldPath k path segs).length ≤ path.length + segs.length := by
  have hpush : ∀ path seg, (pushSegment k path seg).length ≤ path.length + 1 := by
    intro path seg
    unfold pushSegment
    split
    · split
      · exact le_rfl
      · exact le_rfl
    · rw [List.length_append, List.length_singleton]
  induction segs with
  | nil => exact fun path => le_rfl
  | cons seg segs ih =>
      intro path
      refine (ih _).trans ?_
      rw [List.length_cons]
      have hs := shorten_length_le k path
      have hp := hpush path seg
      split
      · split
        · rw [List.length_append, List.length_singleton]
          omega
        · omega
      · split
        · split
          · rw [List.length_append, List.length_singleton]
            omega
          · omega
        · omega

/-- A dot segment before others adds nothing. -/
theorem not_dot_of_length {segs : List Segment} (hsegs : segs ≠ [])
    (h : path.length + segs.length < (foldPath k path (seg :: segs)).length) : isDot seg = false := by
  rw [Bool.eq_false_iff]
  intro hdot
  rw [isDot, Bool.or_eq_true] at hdot
  have hempty : segs.isEmpty = false := by rwa [List.isEmpty_eq_false_iff]
  have hshorten := shorten_length_le k path
  by_cases hdouble : isDoubleDot seg = true
  · have hrest := length_foldPath_le k segs (shorten k path)
    rw [foldPath, if_pos hdouble, hempty] at h
    simp only [Bool.false_eq_true, if_false] at h
    omega
  · have hrest := length_foldPath_le k segs path
    rw [foldPath, if_neg hdouble, if_pos (hdot.resolve_right hdouble), hempty] at h
    simp only [Bool.false_eq_true, if_false] at h
    omega

end IcebergDb.Url
