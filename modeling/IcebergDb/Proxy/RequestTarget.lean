import IcebergDb.Foundation.PercentEncoding
import IcebergDb.Foundation.Trim

/-!
# Request targets of the dev proxy

`idb-sf-proxy` takes the path, the query and a parameter out of a request target, and `wasm_s3_storage.rs` writes the
targets for its route `_s3`.

* `pathAndQuery`, `queryParam`, `dispatch` — the source of the proxy; `encode`, `decode` — of the crate `urlencoding`;
* `pathAndQuery_origin_iff`, `pathAndQuery_absolute_iff` — a target is taken apart rightly exactly if it has no `://`
  but that of its scheme, or nothing is lost with it;
* `queryParam_iff` — a parameter is found exactly if no pair without `=` precedes it;
* `dispatch_s3` — **what the browser storage writes is always read.**
-/

namespace IcebergDb.Proxy

open Trim

/-! ### The source -/

/-- `url.split("://").nth(1)`. -/
def behindScheme (url : List Char) : Option (List Char) :=
  (cut "://".toList url).map fun p => ((cut "://".toList p.2).map Prod.fst).getD p.2

/-- `split_once('?')`, or all of it. -/
def splitQuery (pathQ : List Char) : List Char × Option (List Char) :=
  match cut ['?'] pathQ with
  | some (p, q) => (p, some q)
  | none => (pathQ, none)

/-- `path_and_query`. -/
def pathAndQuery (url : List Char) : List Char × Option (List Char) :=
  let pathQ := match behindScheme url with
    | some after => if '/' ∈ after then after.dropWhile (· ≠ '/') else ['/']
    | none => url
  splitQuery (pathQ.dropWhile (· = '/'))

/-- `urlencoding::decode`. -/
def decode (v : List Char) : Option (List Char) := Utf8.fromUtf8 (Percent.percentDecode v)

/-- The characters that `urlencoding::encode` does not keep. -/
def reserved (c : Char) : Bool := !(c.isAlphanum || c == '-' || c == '_' || c == '.' || c == '~')

/-- `urlencoding::encode`. -/
def encode (cs : List Char) : List Char := Percent.percentEncode reserved cs

/-- The loop of `query_param`, which ends at a pair without `=`. -/
def findParam (key : List Char) : List (List Char) → Option (List Char)
  | [] => none
  | pair :: pairs => (cut ['='] pair).bind fun p => if p.1 = key then decode p.2 else findParam key pairs

/-- `query_param`. -/
def queryParam (query : Option (List Char)) (key : List Char) : Option (List Char) :=
  query.bind fun query => findParam key (query.splitOn '&')

/-- Where `handle` sends a request. -/
inductive Route where
  | preflight
  | health
  | s3Signed
  | s3 (query : Option (List Char))
  | snowflake (path : List Char) (query : Option (List Char))
  deriving DecidableEq

/-- `handle`. -/
def dispatch (options : Bool) (url : List Char) : Route :=
  let (path, query) := pathAndQuery url
  if options then .preflight
  else if path = "health".toList then .health
  else if path = "_s3_signed".toList then .s3Signed
  else if path = "_s3".toList then .s3 query
  else .snowflake path query

/-- What `handle_s3` requests. -/
def s3Target : Route → Option (List Char)
  | .s3 query => queryParam query "u".toList
  | _ => none

/-! ### What should be read -/

/-- A query behind its question mark. -/
def queryPart (query : Option (List Char)) : List Char := (query.map ('?' :: ·)).getD []

/-- A target in origin form, behind its first slash. -/
def originForm (path : List Char) (query : Option (List Char)) : List Char := '/' :: (path ++ queryPart query)

/-- A target in absolute form. -/
def absoluteForm (host path : List Char) (query : Option (List Char)) : List Char :=
  "http://".toList ++ (host ++ originForm path query)

/-- The value of a pair with this key. -/
def valueOf (key pair : List Char) : Option (List Char) :=
  (cut ['='] pair).bind fun p => if p.1 = key then some p.2 else none

/-- The value of the first pair with this key. -/
def firstValue (key : List Char) (pairs : List (List Char)) : Option (List Char) :=
  (pairs.findSome? (valueOf key)).bind decode

/-- All pairs before the first one with this key have a `=`. -/
def NoBareBefore (key : List Char) (pairs : List (List Char)) : Prop :=
  ∀ pair ∈ pairs.takeWhile fun pair => (valueOf key pair).isNone, '=' ∈ pair

section

variable {path host : List Char} {query : Option (List Char)}

/-! ### Path and query -/

theorem splitQuery_queryPart (h : '?' ∉ path) : splitQuery (path ++ queryPart query) = (path, query) := by
  cases query with
  | none =>
      show splitQuery (path ++ []) = _
      rw [List.append_nil, splitQuery, cut_singleton_none h]
  | some q =>
      show splitQuery (path ++ '?' :: q) = _
      rw [splitQuery, cut_singleton h]

/-- Path and query together are what was split. -/
theorem splitQuery_append (pathQ : List Char) : (splitQuery pathQ).1 ++ queryPart (splitQuery pathQ).2 = pathQ := by
  rw [splitQuery]
  cases hcut : cut ['?'] pathQ with
  | none => exact List.append_nil pathQ
  | some p => exact (append_of_cut hcut).symm

/-- Slashes stand before the query only. -/
theorem dropWhile_queryPart (path : List Char) (query : Option (List Char)) :
    (path ++ queryPart query).dropWhile (· = '/') = path.dropWhile (· = '/') ++ queryPart query := by
  rw [List.dropWhile_append]
  split
  · rename_i hnil
    rw [List.isEmpty_iff.mp hnil, List.nil_append]
    cases query <;> rfl
  · rfl

/-- What is read of a target in origin form whose slash is kept. -/
theorem splitQuery_originForm (h : '?' ∉ path) :
    splitQuery ((originForm path query).dropWhile (· = '/')) = (path.dropWhile (· = '/'), query) := by
  have hslash : (originForm path query).dropWhile (· = '/') = (path ++ queryPart query).dropWhile (· = '/') :=
    List.dropWhile_cons_of_pos (by decide)
  rw [hslash, dropWhile_queryPart]
  exact splitQuery_queryPart fun hmem => h ((List.dropWhile_sublist _).subset hmem)

/-- A text is read as a target only if it is what stands behind the slashes of the target. -/
theorem eq_of_splitQuery {pathQ : List Char} (h : '?' ∉ path)
    (heq : splitQuery pathQ = (path.dropWhile (· = '/'), query)) :
    pathQ = (originForm path query).dropWhile (· = '/') := by
  rw [← splitQuery_append pathQ, ← splitQuery_append ((originForm path query).dropWhile (· = '/')), heq,
    splitQuery_originForm h]

/-- **A target in origin form** is taken apart rightly exactly if it has no `://`. -/
theorem pathAndQuery_origin_iff (h : '?' ∉ path) :
    pathAndQuery (originForm path query) = (path.dropWhile (· = '/'), query) ↔
      ¬ "://".toList <:+: originForm path query := by
  rw [← cut_eq_none_iff (by decide), pathAndQuery, behindScheme]
  cases hcut : cut "://".toList (originForm path query) with
  | none => exact iff_of_true (splitQuery_originForm h) rfl
  | some p =>
      obtain ⟨pre, post⟩ := p
      refine iff_of_false (fun heq => ?_) (Option.some_ne_none _)
      have hsplit : originForm path query = pre ++ ':' :: ("//".toList ++ post) := append_of_cut hcut
      have hread := eq_of_splitQuery h heq
      rw [hsplit, dropWhile_append_cons (by decide)] at hread
      -- what is read is behind the `://`, and what should be read is not
      have hlength := congrArg List.length hread
      rw [List.length_append, List.length_cons, List.length_append] at hlength
      have hafter : (((cut "://".toList post).map Prod.fst).getD post).length ≤ post.length := by
        cases hpost : cut "://".toList post with
        | none => exact le_rfl
        | some p =>
            rw [append_of_cut hpost, List.length_append]
            exact Nat.le_add_right _ _
      simp only [Option.map_some] at hlength
      split at hlength
      · have hdrop := (List.dropWhile_sublist (· = '/')
          (l := (((cut "://".toList post).map Prod.fst).getD post).dropWhile (· ≠ '/'))).length_le
        have hdrop' := (List.dropWhile_sublist (· ≠ '/')
          (l := ((cut "://".toList post).map Prod.fst).getD post)).length_le
        omega
      · have hnil : (['/'].dropWhile fun c => decide (c = '/')).length = 0 := rfl
        omega

/-- The first slash of a text stands behind what has none. -/
theorem dropWhile_slash {pre : List Char} (h : '/' ∉ pre) (post : List Char) :
    (pre ++ '/' :: post).dropWhile (· ≠ '/') = '/' :: post := by
  have hpre : ∀ c ∈ pre, decide (c ≠ '/') = true := by
    intro c hc
    refine decide_eq_true ?_
    rintro rfl
    exact h hc
  rw [List.dropWhile_append_of_pos hpre]
  exact List.dropWhile_cons_of_neg (by decide)

theorem behindScheme_http (rest : List Char) :
    behindScheme ("http://".toList ++ rest) = some (((cut "://".toList rest).map Prod.fst).getD rest) := by
  have hcut : cut "://".toList ("http://".toList ++ rest) = some ("http".toList, rest) := by
    show cut [':', '/', '/'] ('h' :: 't' :: 't' :: 'p' :: ':' :: '/' :: '/' :: rest) = _
    simp [cut]
  rw [behindScheme, hcut]
  rfl

/-- What stands behind the scheme is read from its first slash on. -/
theorem pathAndQuery_of_mem {url pre post : List Char} (hpre : '/' ∉ pre)
    (h : behindScheme url = some (pre ++ '/' :: post)) : pathAndQuery url = splitQuery (post.dropWhile (· = '/')) := by
  have hmem : '/' ∈ pre ++ '/' :: post := List.mem_append_right _ List.mem_cons_self
  simp only [pathAndQuery, h, hmem, if_true, dropWhile_slash hpre]
  rfl

theorem pathAndQuery_of_notMem {url after : List Char} (hafter : '/' ∉ after) (h : behindScheme url = some after) :
    pathAndQuery url = ([], none) := by
  simp only [pathAndQuery, h, hafter, if_false]
  rfl

/-- So a text is cut at its first slash in one way. -/
theorem slash_inj {pre pre' post post' : List Char} (hpre : '/' ∉ pre) (hpre' : '/' ∉ pre')
    (h : pre ++ '/' :: post = pre' ++ '/' :: post') : pre = pre' ∧ post = post' := by
  have hrest : '/' :: post = '/' :: post' := by rw [← dropWhile_slash hpre, h, dropWhile_slash hpre']
  rw [hrest] at h
  exact ⟨List.append_cancel_right h, (List.cons.inj hrest).2⟩

/-- A `://` behind the scheme is behind the slash of the path, or this slash is part of it. -/
theorem host_of_colon {pre post : List Char} (hhost : '/' ∉ host)
    (h : host ++ originForm path query = pre ++ ':' :: '/' :: '/' :: post) :
    (∃ pre', pre = host ++ '/' :: pre' ∧ path ++ queryPart query = pre' ++ ':' :: '/' :: '/' :: post) ∨
      '/' ∉ pre ∧ host = pre ++ [':'] ∧ path ++ queryPart query = '/' :: post := by
  by_cases hpre : '/' ∈ pre
  · left
    obtain ⟨as, bs, rfl, has⟩ := List.eq_append_cons_of_mem hpre
    rw [List.append_assoc, List.cons_append] at h
    obtain ⟨rfl, hpath⟩ := slash_inj hhost has h
    exact ⟨bs, rfl, hpath⟩
  · right
    have hcolon : '/' ∉ pre ++ [':'] := by
      intro hmem
      rcases List.mem_append.mp hmem with hmem | hmem
      · exact hpre hmem
      · exact absurd hmem (by decide)
    rw [← List.singleton_append, ← List.append_assoc] at h
    obtain ⟨rfl, hpath⟩ := slash_inj hhost hcolon h
    exact ⟨hpre, rfl, hpath⟩

/-- The host ends in a colon, and nothing but slashes stands behind it. -/
def OnlySlashes (host path : List Char) (query : Option (List Char)) : Prop :=
  host.getLast? = some ':' ∧ (∀ c ∈ path, c = '/') ∧ query = none

theorem dropWhile_eq_nil_iff_slashes (path : List Char) : path.dropWhile (· = '/') = [] ↔ ∀ c ∈ path, c = '/' := by
  rw [List.dropWhile_eq_nil_iff]
  exact forall₂_congr fun c _ => decide_eq_true_iff

/-- **A target in absolute form** is taken apart rightly exactly if it has no second `://`, or nothing but slashes
behind a host that ends in a colon. -/
theorem pathAndQuery_absolute_iff (hhost : '/' ∉ host) (h : '?' ∉ path) :
    pathAndQuery (absoluteForm host path query) = (path.dropWhile (· = '/'), query) ↔
      ¬ "://".toList <:+: host ++ originForm path query ∨ OnlySlashes host path query := by
  have hbehind : behindScheme (absoluteForm host path query) = _ := behindScheme_http (host ++ originForm path query)
  rw [← cut_eq_none_iff (by decide)]
  cases hcut : cut "://".toList (host ++ originForm path query) with
  | none =>
      rw [hcut, Option.map_none, Option.getD_none] at hbehind
      refine iff_of_true ?_ (.inl rfl)
      rw [pathAndQuery_of_mem hhost hbehind]
      exact splitQuery_originForm h
  | some p =>
      obtain ⟨pre, post⟩ := p
      rw [hcut, Option.map_some, Option.getD_some] at hbehind
      have hsplit : host ++ originForm path query = pre ++ ':' :: '/' :: '/' :: post := append_of_cut hcut
      rcases host_of_colon hhost hsplit with ⟨pre', rfl, hpath⟩ | ⟨hpre, hhostpre, hpath⟩
      · -- the path is read up to the `://` only
        rw [pathAndQuery_of_mem hhost hbehind]
        have hcolon : ':' ∈ path ++ queryPart query := by
          rw [hpath]
          exact List.mem_append_right _ List.mem_cons_self
        refine iff_of_false (fun heq => ?_) ?_
        · have hread := eq_of_splitQuery h heq
          have hslash : (originForm path query).dropWhile (· = '/') = (path ++ queryPart query).dropWhile (· = '/') :=
            List.dropWhile_cons_of_pos (by decide)
          rw [hslash, hpath, dropWhile_append_cons (by decide)] at hread
          exact List.cons_ne_nil _ _ (List.self_eq_append_right.mp hread)
        · rintro (hnone | ⟨-, hall, rfl⟩)
          · cases hnone
          · rw [queryPart, Option.map_none, Option.getD_none, List.append_nil] at hcolon
            exact absurd (hall _ hcolon) (by decide)
      · rw [pathAndQuery_of_notMem hpre hbehind]
        have hlast : host.getLast? = some ':' := by
          rw [hhostpre]
          exact List.getLast?_concat
        constructor
        · intro heq
          obtain ⟨hnil, hnone⟩ := Prod.mk.inj heq
          exact .inr ⟨hlast, (dropWhile_eq_nil_iff_slashes path).mp hnil.symm, hnone.symm⟩
        · rintro (hnone | ⟨-, hall, rfl⟩)
          · cases hnone
          · rw [(dropWhile_eq_nil_iff_slashes path).mpr hall]

end

/-! ### Parameters -/

section

variable {key : List Char} {pairs : List (List Char)}

/-- A pair without `=` ends the loop. -/
theorem findParam_bare {pair : List Char} (h : '=' ∉ pair) : findParam key (pair :: pairs) = none := by
  rw [findParam, cut_singleton_none h]
  rfl

/-- The loop returns the value of a pair with the key. -/
theorem findParam_of_valueOf {pair value : List Char} (h : valueOf key pair = some value) :
    findParam key (pair :: pairs) = decode value := by
  obtain ⟨p, hcut, hvalue⟩ := Option.bind_eq_some_iff.mp h
  rw [findParam, hcut, Option.bind_some]
  split at hvalue
  · rename_i hkey
    rw [if_pos hkey, Option.some.inj hvalue]
  · cases hvalue

/-- It passes over any other pair. -/
theorem findParam_of_other {pair : List Char} (hpair : '=' ∈ pair) (h : valueOf key pair = none) :
    findParam key (pair :: pairs) = findParam key pairs := by
  obtain ⟨k, v, rfl, hk⟩ := List.eq_append_cons_of_mem hpair
  rw [valueOf, cut_singleton hk, Option.bind_some] at h
  rw [findParam, cut_singleton hk, Option.bind_some]
  split at h
  · cases h
  · rename_i hkey
    exact if_neg hkey

/-- **A parameter is found** exactly if no pair before it lacks a `=`, or there is nothing to be found. -/
theorem findParam_iff (key : List Char) (pairs : List (List Char)) :
    findParam key pairs = firstValue key pairs ↔ firstValue key pairs = none ∨ NoBareBefore key pairs := by
  induction pairs with
  | nil => exact iff_of_true rfl (.inl rfl)
  | cons pair pairs ih =>
      rw [firstValue, NoBareBefore]
      cases hvalue : valueOf key pair with
      | some value =>
          rw [findParam_of_valueOf hvalue, List.findSome?_cons, hvalue, List.takeWhile_cons_of_neg (by simp [hvalue])]
          exact iff_of_true rfl (.inr fun pair hpair => absurd hpair List.not_mem_nil)
      | none =>
          rw [List.findSome?_cons, hvalue, List.takeWhile_cons_of_pos (by simp [hvalue]), List.forall_mem_cons]
          show _ = firstValue key pairs ↔ firstValue key pairs = none ∨ '=' ∈ pair ∧ NoBareBefore key pairs
          by_cases hpair : '=' ∈ pair
          · rw [findParam_of_other hpair hvalue, ih, and_iff_right hpair]
          · rw [findParam_bare hpair]
            constructor
            · exact fun h => .inl h.symm
            · rintro (h | ⟨h, -⟩)
              · exact h.symm
              · exact absurd h hpair

/-! ### The targets of the browser storage -/

theorem decode_encode (cs : List Char) : decode (encode cs) = some cs := by
  rw [decode, encode, Percent.percentDecode_percentEncode_of_percent (by decide), Utf8.fromUtf8_bytes]

/-- No separator is left in an encoded text. -/
theorem not_mem_encode {c : Char} (hreserved : reserved c = true) (hpercent : c ≠ '%')
    (hhex : Percent.isHex c = false) (cs : List Char) : c ∉ encode cs := by
  intro hmem
  rcases Percent.mem_percentEncode hmem with ⟨-, hfalse⟩ | rfl | htrue
  · rw [hreserved] at hfalse
    cases hfalse
  · exact hpercent rfl
  · rw [hhex] at htrue
    cases htrue

/-- **What the browser storage writes is read**: the request is sent to the URL. -/
theorem dispatch_s3 (url : List Char) : s3Target (dispatch false ("/_s3?u=".toList ++ encode url)) = some url := by
  have hcolon := not_mem_encode (c := ':') (by decide) (by decide) (by decide) url
  have hquery : queryPart (some ("u=".toList ++ encode url)) = '?' :: 'u' :: '=' :: encode url := rfl
  have hpath : pathAndQuery ("/_s3?u=".toList ++ encode url) = ("_s3".toList, some ("u=".toList ++ encode url)) := by
    have horigin : "/_s3?u=".toList ++ encode url = originForm "_s3".toList (some ("u=".toList ++ encode url)) := rfl
    have hscheme : ¬ "://".toList <:+: originForm "_s3".toList (some ("u=".toList ++ encode url)) := by
      intro hpart
      have hmem := hpart.subset (List.mem_cons_self (a := ':'))
      rw [originForm, hquery] at hmem
      rcases List.mem_append.mp (List.mem_cons.mp hmem |>.resolve_left (by decide)) with hmem | hmem
      · exact absurd hmem (by decide)
      · simp only [List.mem_cons] at hmem
        rcases hmem with h | h | h | h
        · exact absurd h (by decide)
        · exact absurd h (by decide)
        · exact absurd h (by decide)
        · exact hcolon h
    rw [horigin, (pathAndQuery_origin_iff (by decide)).mpr hscheme]
    rfl
  have hamp := not_mem_encode (c := '&') (by decide) (by decide) (by decide) url
  have hpairs : ("u=".toList ++ encode url).splitOn '&' = ["u=".toList ++ encode url] := by
    refine List.splitOnP_eq_singleton fun c hc => ?_
    rw [beq_eq_false_iff_ne]
    rintro rfl
    rcases List.mem_append.mp hc with hc | hc
    · exact absurd hc (by decide)
    · exact hamp hc
  rw [dispatch, hpath]
  show findParam "u".toList (("u=".toList ++ encode url).splitOn '&') = some url
  have hvalue : valueOf "u".toList ("u=".toList ++ encode url) = some (encode url) := by
    show valueOf ['u'] (['u'] ++ '=' :: encode url) = _
    rw [valueOf, cut_singleton (by decide)]
    rfl
  rw [hpairs, findParam_of_valueOf hvalue, decode_encode]

end

/-! ### Exactness -/

/-- **Request targets are parsed exactly** if they have no `://` where it is not the scheme's, and parameters if no pair
before them lacks a `=`; and the targets of the browser storage always are. -/
theorem requestTarget_iff (path host : List Char) (query : Option (List Char)) (text key url : List Char) :
    ('?' ∉ path → (pathAndQuery (originForm path query) = (path.dropWhile (· = '/'), query) ↔
      ¬ "://".toList <:+: originForm path query)) ∧
    ('/' ∉ host → '?' ∉ path → (pathAndQuery (absoluteForm host path query) = (path.dropWhile (· = '/'), query) ↔
      ¬ "://".toList <:+: host ++ originForm path query ∨ OnlySlashes host path query)) ∧
    (queryParam (some text) key = firstValue key (text.splitOn '&') ↔
      firstValue key (text.splitOn '&') = none ∨ NoBareBefore key (text.splitOn '&')) ∧
    s3Target (dispatch false ("/_s3?u=".toList ++ encode url)) = some url :=
  ⟨fun h => pathAndQuery_origin_iff h, fun hhost h => pathAndQuery_absolute_iff hhost h,
    findParam_iff key (text.splitOn '&'), dispatch_s3 url⟩

/-- A path without, and with, a host. -/
theorem requestTarget_iff_path :
    (pathAndQuery (originForm "p".toList none) = ("p".toList, none) ↔
      ¬ "://".toList <:+: originForm "p".toList none) ∧
    (pathAndQuery (absoluteForm "h".toList "p".toList none) = ("p".toList, none) ↔
      ¬ "://".toList <:+: "h".toList ++ originForm "p".toList none ∨ OnlySlashes "h".toList "p".toList none) :=
  have h := requestTarget_iff "p".toList "h".toList none [] [] []
  ⟨h.1 (by decide), h.2.1 (by decide) (by decide)⟩

/-- A URL in the query is taken for the target, and a pair without `=` hides the one behind it. -/
theorem not_requestTarget_url :
    pathAndQuery (originForm "t".toList (some "u=s3://b/k".toList)) = ("k".toList, none) ∧
      queryParam (some "flag&u=1".toList) "u".toList = none ∧
      firstValue "u".toList ("flag&u=1".toList.splitOn '&') = some "1".toList := by
  refine ⟨by decide, by decide, ?_⟩
  show decode (encode ['1']) = some ['1']
  exact decode_encode ['1']

end IcebergDb.Proxy
