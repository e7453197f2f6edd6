import IcebergDb.Catalog.S3Address
import IcebergDb.Foundation.UrlAuthority
import IcebergDb.Proxy.RequestTarget

/-!
# Where the dev proxy sends requests

`forward_snowflake` in `idb-sf-proxy` writes the first segment of the path before `.snowflakecomputing.com` and sends
the request, with its `Authorization` header and its body, to the host of this URL.

* `splitAccount`, `upstream` — the source;
* `StaysAtSnowflake` — the host of a URL, if it is one, is of Snowflake;
* `KeepsHost` — an account leaves the end of the host name in place, or there is no other host before it;
* `authorityOf_upstream` — the authority of the URL that is written;
* `staysAtSnowflake_iff` — **requests stay at Snowflake exactly if the account keeps the host.**
-/

namespace IcebergDb.Proxy

open Trim Url

/-! ### The source -/

/-- `path.splitn(2, '/')`: the account, and what follows it. -/
def splitAccount (path : List Char) : List Char × List Char := (cut ['/'] path).getD (path, [])

/-- The URL of `forward_snowflake`. -/
def upstream (path : List Char) (query : Option (List Char)) : Except String (List Char) :=
  let (account, rest) := splitAccount path
  if account = [] then .error "missing account in path (expected /\x7baccount\x7d/polaris/...)"
  else .ok ("https://".toList ++ account ++ ".snowflakecomputing.com/".toList ++ rest ++ queryPart query)

/-- Where `handle` and `forward_snowflake` send a request. -/
def forward (options : Bool) (url : List Char) : Option (Except String (List Char)) :=
  match dispatch options url with
  | .snowflake path query => some (upstream path query)
  | _ => none

/-! ### The host -/

/-- How hosts of Snowflake end. -/
def snowflakeHost : List Char := ".snowflakecomputing.com".toList

/-- A text that is no URL, or one of Snowflake. -/
def StaysAtSnowflake (H : HostParser) (text : List Char) : Prop :=
  ∀ u, parse H text = some u → ∃ host, u.host = some host ∧ snowflakeHost <:+ host

/-- An account as it is read from a URL, without tabs and newlines. -/
def readAccount (account : List Char) : List Char := account.filter (!isTabOrNewline ·)

/-- The account of a request target. -/
def accountOf (url : List Char) : List Char := (splitAccount (pathAndQuery url).1).1

/-- Behind leading backslashes the account has no `#` and no `\`, or what stands before the first of them is not the
authority of another host. -/
def KeepsHost (H : HostParser) (account : List Char) : Prop :=
  (∀ c ∈ (readAccount account).dropWhile (· = '\\'), c ≠ '#' ∧ c ≠ '\\') ∨
    ∀ a, parseAuthority H "https" (authorityOf (readAccount account)) = some a → snowflakeHost <:+ a.host

section

variable {H : HostParser} {path account rest : List Char} {query : Option (List Char)}

/-! ### The account -/

/-- The account has no slash. -/
theorem slash_notMem_account (path : List Char) : '/' ∉ (splitAccount path).1 := by
  by_cases hslash : '/' ∈ path
  · obtain ⟨account, rest, rfl, haccount⟩ := List.eq_append_cons_of_mem hslash
    rw [splitAccount, cut_singleton haccount]
    exact haccount
  · rw [splitAccount, cut_singleton_none hslash]
    exact hslash

/-! ### The authority -/

/-- What stands before a slash is cleaned inside only. -/
theorem cleanEnd_append_slash (pre post : List Char) :
    cleanEnd (pre ++ '/' :: post) = pre.filter (!isTabOrNewline ·) ++ '/' :: cleanEnd post := by
  rw [cleanEnd, rdropWhile_append_cons (by decide), List.filter_append, List.filter_cons_of_pos (by decide)]
  rfl

/-- The account is read behind the slashes of the URL. -/
theorem authorityOf_upstream (account rest : List Char) :
    authorityOf (cleanEnd ("//".toList ++ account ++ snowflakeHost ++ '/' :: rest)) =
      authorityOf (readAccount account ++ (snowflakeHost ++ '/' :: cleanEnd rest)) := by
  have hread : ("//".toList ++ account ++ snowflakeHost).filter (!isTabOrNewline ·) =
      '/' :: '/' :: (readAccount account ++ snowflakeHost) := by
    rw [List.filter_append, List.filter_append, List.append_assoc]
    rfl
  rw [cleanEnd_append_slash, hread, List.cons_append, List.cons_append, List.append_assoc, authorityOf,
    List.dropWhile_cons_of_pos (isSeparator_slash _), List.dropWhile_cons_of_pos (isSeparator_slash _)]
  rfl

/-- A request stays at Snowflake if the authority does. -/
theorem staysAtSnowflake_iff_authority (H : HostParser) (text : List Char) :
    StaysAtSnowflake H ("https:".toList ++ text) ↔
      ∀ a, parseAuthority H "https" (authorityOf (cleanEnd text)) = some a → snowflakeHost <:+ a.host := by
  have hparse : (parse H ("https:".toList ++ text)).map Url.host =
      (parseAuthority H "https" (authorityOf (cleanEnd text))).map fun a => some a.host :=
    parse_host (s := "https".toList) (by decide) (Text.forall_mem_of_all (by decide)) rfl (by decide) text
  constructor
  · intro hstays a ha
    rw [ha, Option.map_some, Option.map_eq_some_iff] at hparse
    obtain ⟨u, hu, hhost⟩ := hparse
    obtain ⟨host, hsome, hsuffix⟩ := hstays u hu
    rw [hhost] at hsome
    rw [Option.some.inj hsome]
    exact hsuffix
  · intro hstays u hu
    rw [hu, Option.map_some] at hparse
    obtain ⟨a, ha, hhost⟩ := Option.map_eq_some_iff.mp hparse.symm
    exact ⟨a.host, hhost.symm, hstays a ha⟩

/-! ### Staying at Snowflake -/

/-- The URL of an account. -/
theorem upstream_eq_ok {text : List Char} (h : upstream path query = .ok text) :
    text = "https:".toList ++ ("//".toList ++ (splitAccount path).1 ++ snowflakeHost ++
      '/' :: ((splitAccount path).2 ++ queryPart query)) := by
  rw [upstream] at h
  split at h
  rename_i account rest hsplit
  split at h
  · cases h
  · rw [← Except.ok.inj h, hsplit]
    show ("https:".toList ++ "//".toList) ++ account ++ (snowflakeHost ++ ['/']) ++ rest ++ queryPart query = _
    simp only [List.append_assoc, List.singleton_append]
    rfl

/-- The path has no question mark. -/
theorem question_notMem_path (url : List Char) : '?' ∉ (pathAndQuery url).1 := by
  have hsplit : ∀ pathQ, '?' ∉ (splitQuery pathQ).1 := by
    intro pathQ
    by_cases hmem : '?' ∈ pathQ
    · obtain ⟨path, query, rfl, hpath⟩ := List.eq_append_cons_of_mem hmem
      rw [splitQuery, cut_singleton hpath]
      exact hpath
    · rw [splitQuery, cut_singleton_none hmem]
      exact hmem
  exact hsplit _

/-- The account is part of the path. -/
theorem splitAccount_sublist (path : List Char) : (splitAccount path).1.Sublist path := by
  rw [splitAccount]
  cases hcut : cut ['/'] path with
  | none => exact List.Sublist.refl path
  | some p =>
      rw [append_of_cut hcut]
      exact List.sublist_append_left _ _

/-- An account ends the authority only with `#` or a backslash, and only a backslash separates. -/
theorem endsAuthority_account {url : List Char} {c : Char} (hc : c ∈ readAccount (accountOf url)) :
    isSeparator .special c = decide (c = '\\') ∧ (endsAuthority c = false ↔ c ≠ '#' ∧ c ≠ '\\') := by
  have hmem : c ∈ accountOf url := List.mem_of_mem_filter hc
  have hslash : c ≠ '/' := by
    rintro rfl
    exact slash_notMem_account _ hmem
  have hquestion : c ≠ '?' := by
    rintro rfl
    exact question_notMem_path url ((splitAccount_sublist _).subset hmem)
  have hsep : isSeparator .special c = decide (c = '\\') := by
    rw [isSeparator, decide_eq_false hslash]
    rfl
  refine ⟨hsep, ?_⟩
  rw [endsAuthority, hsep, decide_eq_false hquestion, Bool.or_false, Bool.or_eq_false_iff, decide_eq_false_iff_not,
    decide_eq_false_iff_not]
  exact and_comm

theorem forall_endsAuthority_iff (url : List Char) :
    (∀ c ∈ (readAccount (accountOf url)).dropWhile (isSeparator .special ·), endsAuthority c = false) ↔
      ∀ c ∈ (readAccount (accountOf url)).dropWhile (· = '\\'), c ≠ '#' ∧ c ≠ '\\' := by
  have hdrop : (readAccount (accountOf url)).dropWhile (isSeparator .special ·) =
      (readAccount (accountOf url)).dropWhile (· = '\\') :=
    dropWhile_congr fun c hc => (endsAuthority_account hc).1
  rw [hdrop]
  exact forall₂_congr fun c hc => (endsAuthority_account ((List.dropWhile_sublist _).subset hc)).2

/-- What is forwarded is what was read. -/
theorem eq_of_dispatch {options : Bool} {url : List Char} (h : dispatch options url = .snowflake path query) :
    pathAndQuery url = (path, query) := by
  rw [dispatch] at h
  split at h
  rename_i path' query' hread
  split_ifs at h
  obtain ⟨rfl, rfl⟩ := Route.snowflake.inj h
  exact hread

/-- **Requests stay at Snowflake** exactly if the account keeps the host. -/
theorem staysAtSnowflake_iff (hH : H.KeepsNames) {options : Bool} {url text : List Char}
    (h : forward options url = some (.ok text)) : StaysAtSnowflake H text ↔ KeepsHost H (accountOf url) := by
  have haccount : ∃ rest, text = "https:".toList ++ ("//".toList ++ accountOf url ++ snowflakeHost ++ '/' :: rest) := by
    rw [forward] at h
    split at h
    · rename_i path query hroute
      rw [accountOf, eq_of_dispatch hroute]
      exact ⟨_, upstream_eq_ok (Option.some.inj h)⟩
    · cases h
  obtain ⟨rest, rfl⟩ := haccount
  rw [staysAtSnowflake_iff_authority, authorityOf_upstream, KeepsHost, ← forall_endsAuthority_iff]
  have hdot : endsAuthority '.' = false := by decide
  by_cases hkeeps : ∀ c ∈ (readAccount (accountOf url)).dropWhile (isSeparator .special ·), endsAuthority c = false
  · -- the authority is the account with the end of the host name
    refine iff_of_true (fun a ha => ?_) (.inl hkeeps)
    have hname : ∀ c ∈ "snowflakecomputing.com".toList, endsAuthority c = false := Text.forall_mem_of_all (by decide)
    have hauthority : authorityOf (_ ++ (snowflakeHost ++ '/' :: cleanEnd rest)) = _ :=
      authorityOf_append hdot hname hkeeps
    exact suffix_of_parseAuthority hH (by decide) (Text.forall_mem_of_all (by decide)) (by decide)
      (hauthority ▸ ha)
  · have hauthority := authorityOf_append_of_ends hdot hkeeps
      ("snowflakecomputing.com".toList ++ '/' :: cleanEnd rest)
    rw [or_iff_right hkeeps, ← hauthority]
    rfl

/-- An account that a path can have without escapes keeps the host. -/
theorem keepsHost_of_notMem (hhash : '#' ∉ account) (hback : '\\' ∉ account) : KeepsHost H account := by
  left
  intro c hc
  have hmem : c ∈ account := List.mem_of_mem_filter ((List.dropWhile_sublist _).subset hc)
  constructor
  · rintro rfl
    exact hhash hmem
  · rintro rfl
    exact hback hmem

end

/-! ### Two accounts -/

theorem nameParser_keepsNames : Catalog.nameParser.KeepsNames where
  suffix := by
    intro cs name host _ _ h
    rw [(Catalog.nameParser_special h).1]
    exact List.suffix_append cs ('.' :: name)

/-- An organization and an account. -/
theorem staysAtSnowflake_account :
    StaysAtSnowflake Catalog.nameParser "https://org-acct.snowflakecomputing.com/polaris/v1?x=1".toList ↔
      KeepsHost Catalog.nameParser (accountOf "/org-acct/polaris/v1?x=1".toList) :=
  staysAtSnowflake_iff nameParser_keepsNames (show forward false _ = some (.ok _) by decide)

/-- With a `#` or a backslash behind another host, the request goes there. -/
theorem not_staysAtSnowflake_evil :
    (forward false "/evil.com#/polaris".toList =
        some (.ok "https://evil.com#.snowflakecomputing.com/polaris".toList) ∧
      ¬ StaysAtSnowflake Catalog.nameParser "https://evil.com#.snowflakecomputing.com/polaris".toList) ∧
    forward false "/evil.com\\/polaris".toList =
        some (.ok "https://evil.com\\.snowflakecomputing.com/polaris".toList) ∧
      ¬ StaysAtSnowflake Catalog.nameParser "https://evil.com\\.snowflakecomputing.com/polaris".toList := by
  have hleaves : ∀ text, ((parse Catalog.nameParser text).bind Url.host) = some "evil.com".toList →
      ¬ StaysAtSnowflake Catalog.nameParser text := by
    intro text hhost hstays
    obtain ⟨u, hu, hevil⟩ := Option.bind_eq_some_iff.mp hhost
    obtain ⟨host, hsome, hsuffix⟩ := hstays u hu
    rw [hevil] at hsome
    rw [← Option.some.inj hsome] at hsuffix
    exact absurd hsuffix.length_le (by decide)
  exact ⟨⟨by decide, hleaves _ (by decide)⟩, by decide, hleaves _ (by decide)⟩

end IcebergDb.Proxy
