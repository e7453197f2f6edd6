import IcebergDb.Catalog.S3Address
import IcebergDb.Catalog.TableEndpoint
import IcebergDb.Foundation.Paging
import IcebergDb.Foundation.UrlQuery

/-!
# Listing the tables of a namespace

`list_tables_wasm` asks for one page after the other, and writes the token of the next page behind the URL as it
is.

* `httpGet`, `listPages`, `listTablesWasm` — the source; the loop is `Paging.follow` (`listPages_eq_follow`);
* `sent` — what the server receives as token of a request;
* `ListsAll` — every server that has the tables in pages under these tokens has them listed;
* `listsAll_iff` — **all tables are listed exactly when the endpoint is a URL without a token, a query and a
  fragment, and every token is a plain value**.
-/

namespace IcebergDb.Catalog

open Url Utf8 Paging

/-! ### The source -/

/-- `ListTablesResponse`. -/
structure ListTablesResponse where
  identifiers : List TableIdent
  nextPageToken : Option String

/-- The reply to a listing request: the status, the body, and what `serde_json` reads from it, or its error. -/
structure ListReply where
  status : ℕ
  body : String
  page : Except String ListTablesResponse

/-- What a listing uses of other crates, in addition: the hosts that `url` accepts, and whether `reqwest` takes the
bearer as a header. -/
structure ListEnv extends HttpEnv where
  hosts : HostParser
  bearerOk : String → Bool

/-- The errors of `list_tables_wasm`, all of the kind `Unexpected`; those of `exchange_pat` and `http_get` are passed
on. -/
inductive ListError
  | missingUri
  | exchange
  | http
  | notFound
  | failed (status : ℕ) (body : String)
  | parse (error : String)

/-- The texts of the errors that are its own. -/
def ListError.message (env : HttpEnv) : ListError → Option String
  | .missingUri => some "REST catalog missing uri"
  | .exchange => none
  | .http => none
  | .notFound => some "namespace does not exist"
  | .failed status body => some ("list_tables failed (" ++ env.showStatus status ++ "): " ++ body)
  | .parse error => some ("parse list_tables JSON: " ++ error)

/-- `http_get`: `reqwest` wants a URL with a host. -/
def httpGet (env : ListEnv) (server : Url → ListReply) (url bearer : String) : Option ListReply :=
  match parse env.hosts url.toList with
  | none => none
  | some u => if u.hostText.isSome && env.bearerOk bearer then some (server u) else none

/-- The loop of `list_tables_wasm`; `none` when the fuel runs out. -/
def listPages (env : ListEnv) (server : Url → ListReply) (uri bearer : String) (namespaceParts : List String)
    (props : Props) : ℕ → Option String → List TableIdent → Option (Except ListError (List TableIdent))
  | 0, _, _ => none
  | fuel + 1, nextToken, identifiers =>
      let url := match nextToken with
        | some token => tablesListEndpoint env.toHttpEnv uri namespaceParts props ++ "?pageToken=" ++ token
        | none => tablesListEndpoint env.toHttpEnv uri namespaceParts props
      match httpGet env server url bearer with
      | none => some (.error .http)
      | some resp =>
          if resp.status = 404 then some (.error .notFound)
          else if resp.status ≠ 200 then some (.error (.failed resp.status resp.body))
          else
            match resp.page with
            | .error e => some (.error (.parse e))
            | .ok page =>
                match page.nextPageToken.filter (· ≠ "") with
                | some token =>
                    listPages env server uri bearer namespaceParts props fuel (some token)
                      (identifiers ++ page.identifiers)
                | none => some (.ok (identifiers ++ page.identifiers))

/-- `list_tables_wasm`. -/
def listTablesWasm (env : ListEnv) (server : Url → ListReply) (props : Props) (namespaceParts : List String)
    (oauth : Option OAuthReply) (fuel : ℕ) : Option (Except ListError (List TableIdent)) :=
  match props.getNonempty "uri" with
  | none => some (.error .missingUri)
  | some uri =>
      match (exchangePat env.toHttpEnv props oauth).result with
      | none => some (.error .exchange)
      | some bearer => listPages env server uri bearer namespaceParts props fuel none []

/-! ### Servers -/

/-- The token that a server finds in a request. -/
def pageToken (u : Url) : Option (List UInt8) := u.query.bind (queryParam (bytes "pageToken".toList))

/-- The name of a page: the bytes of its token. -/
def tokenName (token : Option String) : Option (List UInt8) := token.map fun t => bytes t.toList

/-- What the loop reads from a reply. -/
def readReply (resp : ListReply) : Except ListError (Page String TableIdent) :=
  if resp.status = 404 then .error .notFound
  else if resp.status ≠ 200 then .error (.failed resp.status resp.body)
  else
    match resp.page with
    | .error e => .error (.parse e)
    | .ok page => .ok (page.identifiers, page.nextPageToken.filter (· ≠ ""))

/-- The tables are listed by every server that has them in pages, one for each token and one before them, and goes by
the token of a request. -/
def ListsAll (env : ListEnv) (props : Props) (namespaceParts : List String) (oauth : Option OAuthReply)
    (tokens : List String) : Prop :=
  ∀ (pages : List (List TableIdent)) (server : Option (List UInt8) → ListReply),
    Serves readReply tokenName tokens pages server →
      ∃ fuel, listTablesWasm env (fun u => server (pageToken u)) props namespaceParts oauth fuel =
        some (.ok pages.flatten)

/-- The requests are made, the first without a token, and the tokens go where they should. -/
structure Listable (env : ListEnv) (props : Props) (namespaceParts : List String) (oauth : Option OAuthReply)
    (tokens : List String) : Prop where
  request : ∃ uri bearer u, props.getNonempty "uri" = some uri ∧
    (exchangePat env.toHttpEnv props oauth).result = some bearer ∧ env.bearerOk bearer = true ∧
    parse env.hosts (tablesListEndpoint env.toHttpEnv uri namespaceParts props).toList = some u ∧
    u.hostText.isSome = true ∧ pageToken u = none ∧ (tokens ≠ [] → u.query = none ∧ u.fragment = none)
  tokens : ∀ t ∈ tokens, PlainValue t.toList

/-! ### The loop -/

section

variable {env : ListEnv} {props : Props} {namespaceParts : List String} {oauth : Option OAuthReply}
  {tokens : List String} {uri bearer : String}

/-- The URL of a request. -/
def requestText (env : ListEnv) (uri : String) (namespaceParts : List String) (props : Props) :
    Option String → String
  | some token => tablesListEndpoint env.toHttpEnv uri namespaceParts props ++ "?pageToken=" ++ token
  | none => tablesListEndpoint env.toHttpEnv uri namespaceParts props

/-- What the server receives as token of a request. -/
def sent (env : ListEnv) (uri bearer : String) (namespaceParts : List String) (props : Props)
    (token : Option String) : Except ListError (Option (List UInt8)) :=
  match parse env.hosts (requestText env uri namespaceParts props token).toList with
  | none => .error .http
  | some u => if u.hostText.isSome && env.bearerOk bearer then .ok (pageToken u) else .error .http

/-- One turn of the loop. -/
theorem listPages_succ (server : Url → ListReply) (fuel : ℕ) (token : Option String)
    (identifiers : List TableIdent) :
    listPages env server uri bearer namespaceParts props (fuel + 1) token identifiers =
      match httpGet env server (requestText env uri namespaceParts props token) bearer with
      | none => some (.error .http)
      | some resp =>
          match readReply resp with
          | .error e => some (.error e)
          | .ok (page, none) => some (.ok (identifiers ++ page))
          | .ok (page, some next) =>
              listPages env server uri bearer namespaceParts props fuel (some next) (identifiers ++ page) := by
  have hturn : ∀ resp : ListReply,
      (if resp.status = 404 then some (.error .notFound)
        else if resp.status ≠ 200 then some (.error (.failed resp.status resp.body))
        else
          match resp.page with
          | .error e => some (.error (.parse e))
          | .ok page =>
              match page.nextPageToken.filter (· ≠ "") with
              | some next =>
                  listPages env server uri bearer namespaceParts props fuel (some next)
                    (identifiers ++ page.identifiers)
              | none => some (.ok (identifiers ++ page.identifiers))) =
        match readReply resp with
        | .error e => some (.error e)
        | .ok (page, none) => some (.ok (identifiers ++ page))
        | .ok (page, some next) =>
            listPages env server uri bearer namespaceParts props fuel (some next) (identifiers ++ page) := by
    intro resp
    unfold readReply
    split
    · rfl
    · split
      · rfl
      · cases resp.page with
        | error e => rfl
        | ok page =>
            simp only
            cases page.nextPageToken.filter (· ≠ "") with
            | none => rfl
            | some next => rfl
  cases token with
  | none =>
      conv_lhs => unfold listPages
      simp only [requestText, hturn]
  | some token =>
      conv_lhs => unfold listPages
      simp only [requestText, hturn]

/-- **The loop follows the pages.** -/
theorem listPages_eq_follow (server : Option (List UInt8) → ListReply) (fuel : ℕ) (token : Option String)
    (identifiers : List TableIdent) :
    listPages env (fun u => server (pageToken u)) uri bearer namespaceParts props fuel token identifiers =
      follow (fetch (sent env uri bearer namespaceParts props) readReply server) fuel token identifiers := by
  induction fuel generalizing token identifiers with
  | zero => rfl
  | succ fuel ih =>
      rw [listPages_succ, follow, fetch, httpGet, sent]
      cases parse env.hosts (requestText env uri namespaceParts props token).toList with
      | none => rfl
      | some u =>
          simp only
          by_cases hok : (u.hostText.isSome && env.bearerOk bearer) = true
          · rw [if_pos hok, if_pos hok]
            simp only
            cases readReply (server (pageToken u)) with
            | error e => rfl
            | ok reply =>
                obtain ⟨page, next⟩ := reply
                cases next with
                | none => rfl
                | some next => exact ih (some next) (identifiers ++ page)
          · rw [if_neg hok, if_neg hok]

/-- Once the listing ends, more turns change nothing. -/
theorem listTablesWasm_add {server : Option (List UInt8) → ListReply} {fuel : ℕ}
    {r : Except ListError (List TableIdent)}
    (h : listTablesWasm env (fun u => server (pageToken u)) props namespaceParts oauth fuel = some r) (more : ℕ) :
    listTablesWasm env (fun u => server (pageToken u)) props namespaceParts oauth (fuel + more) = some r := by
  unfold listTablesWasm at h ⊢
  cases huri : props.getNonempty "uri" with
  | none =>
      rw [huri] at h
      exact h
  | some uri =>
      rw [huri] at h
      simp only at h ⊢
      cases hbearer : (exchangePat env.toHttpEnv props oauth).result with
      | none =>
          rw [hbearer] at h
          exact h
      | some bearer =>
          rw [hbearer] at h
          simp only [listPages_eq_follow] at h ⊢
          exact follow_add h more

/-! ### The requests -/

/-- The token of a request that is made. -/
theorem sent_eq_ok_iff {token : Option String} {r : Option (List UInt8)} :
    sent env uri bearer namespaceParts props token = .ok r ↔
      ∃ u, parse env.hosts (requestText env uri namespaceParts props token).toList = some u ∧
        u.hostText.isSome = true ∧ env.bearerOk bearer = true ∧ pageToken u = r := by
  unfold sent
  cases parse env.hosts (requestText env uri namespaceParts props token).toList with
  | none =>
      constructor
      · intro h
        cases h
      · intro ⟨u, hu, _⟩
        cases hu
  | some u =>
      simp only
      constructor
      · intro h
        split at h
        · rename_i hok
          rw [Bool.and_eq_true] at hok
          exact ⟨u, rfl, hok.1, hok.2, Except.ok.inj h⟩
        · cases h
      · intro ⟨u', hu, hhost, hbearer, hr⟩
        obtain rfl := Option.some.inj hu
        rw [hhost, hbearer, ← hr]
        rfl

/-- A token is written behind a letter. -/
theorem exists_requestText (env : ListEnv) (uri : String) (namespaceParts : List String) (props : Props) :
    ∃ pre, (requestText env uri namespaceParts props none).toList = pre ++ ['s'] ∧
      ∀ t, (requestText env uri namespaceParts props (some t)).toList =
        pre ++ 's' :: '?' :: ("pageToken".toList ++ '=' :: t.toList) := by
  have hend : "/tables".toList = "/table".toList ++ ['s'] := by decide
  have hparam : "?pageToken=".toList = '?' :: ("pageToken".toList ++ ['=']) := by decide
  obtain ⟨pre, hpre⟩ : ∃ pre, (tablesListEndpoint env.toHttpEnv uri namespaceParts props).toList = pre ++ ['s'] := by
    rw [tablesListEndpoint_eq, String.toList_append, hend, ← List.append_assoc]
    exact ⟨_, rfl⟩
  refine ⟨pre, hpre, fun t => ?_⟩
  rw [requestText, String.toList_append, String.toList_append, hpre, hparam]
  simp only [List.append_assoc, List.cons_append, List.nil_append]

/-- The name of the parameter is plain. -/
theorem plainName_pageToken : PlainName (bytes "pageToken".toList) "pageToken".toList := by
  constructor
  · decide
  · exact Text.forall_mem_of_all (by decide)

/-- **A token arrives exactly if it is a plain value behind a URL without query and fragment.** -/
theorem sent_token_iff {u : Url} (hu : parse env.hosts (requestText env uri namespaceParts props none).toList = some u)
    (hhost : u.hostText.isSome = true) (hbearer : env.bearerOk bearer = true) (hnone : pageToken u = none)
    (t : String) :
    sent env uri bearer namespaceParts props (some t) = .ok (tokenName (some t)) ↔
      (u.query = none ∧ u.fragment = none) ∧ PlainValue t.toList := by
  obtain ⟨pre, hpre, htoken⟩ := exists_requestText env uri namespaceParts props
  rw [hpre] at hu
  rw [sent_eq_ok_iff, htoken]
  have hletter : isC0OrSpace 's' = false := by decide
  by_cases hfragment : u.fragment = none
  · cases hquery : u.query with
    | none =>
        obtain ⟨query, fragment, hparse, hvalue⟩ :=
          parse_param hletter hu hquery hfragment plainName_pageToken t.toList
        rw [hparse, ← percentDecode_valueRest_iff]
        constructor
        · intro ⟨u', hu', _, _, hr⟩
          obtain rfl := Option.some.inj hu'
          exact ⟨⟨rfl, hfragment⟩, Option.some.inj (hvalue.symm.trans hr)⟩
        · intro ⟨_, hdecode⟩
          exact ⟨_, rfl, hhost, hbearer, hvalue.trans (congrArg some hdecode)⟩
    | some q =>
        have hq : queryParam (bytes "pageToken".toList) q = none := by
          rw [pageToken, hquery] at hnone
          exact hnone
        obtain ⟨query, fragment, hparse, hvalue⟩ :=
          param_ne_of_query hletter hu hquery hq hfragment plainName_pageToken t.toList
        rw [hparse]
        constructor
        · intro ⟨u', hu', _, _, hr⟩
          obtain rfl := Option.some.inj hu'
          exact absurd hr hvalue
        · intro ⟨hno, _⟩
          cases hno.1
  · obtain ⟨fragment, hparse⟩ := parse_query_of_fragment hletter hu hfragment
      ("pageToken".toList ++ '=' :: t.toList)
    rw [hparse]
    constructor
    · intro ⟨u', hu', _, _, hr⟩
      obtain rfl := Option.some.inj hu'
      have hsame : pageToken u = tokenName (some t) := hr
      rw [hnone] at hsame
      cases hsame
    · intro ⟨hno, _⟩
      exact absurd hno.2 hfragment

/-! ### All tables -/

/-- Different pages have different tokens. -/
theorem separates_tokenName (hdistinct : tokens.Nodup) : Separates tokenName tokens := by
  have hinj : ∀ a b : Option String, tokenName a = tokenName b → a = b := by
    intro a b h
    refine Option.map_injective ?_ h
    intro s t hst
    exact String.toList_inj.mp (bytes_injective hst)
  intro i j hi hj h
  have hcursor := hinj _ _ h
  cases i with
  | zero =>
      cases j with
      | zero => rfl
      | succ j =>
          rw [cursor, cursor, List.getElem?_eq_getElem (by omega)] at hcursor
          cases hcursor
  | succ i =>
      cases j with
      | zero =>
          rw [cursor, cursor, List.getElem?_eq_getElem (by omega)] at hcursor
          cases hcursor
      | succ j =>
          rw [cursor, cursor] at hcursor
          exact congrArg (· + 1) ((List.getElem?_inj (by omega) hdistinct).mp hcursor)

/-- Every page can be replied, when no token is empty. -/
theorem repliable_readReply (hne : ∀ t ∈ tokens, t ≠ "") : Repliable readReply tokens where
  page := by
    intro page i
    refine ⟨⟨200, "", .ok ⟨page, tokens[i]?⟩⟩, ?_⟩
    have hkeep : tokens[i]?.filter (· ≠ "") = tokens[i]? := by
      cases ht : tokens[i]? with
      | none => rfl
      | some t => exact Option.filter_some_pos (decide_eq_true (hne t (List.mem_of_getElem? ht)))
    show Except.ok (page, tokens[i]?.filter (· ≠ "")) = _
    rw [hkeep]
  error := ⟨⟨404, "", .error ""⟩, .notFound, rfl⟩

instance nontrivial_tableIdent : Nontrivial TableIdent where
  exists_pair_ne := ⟨⟨[], "a"⟩, ⟨[], "b"⟩, fun h => absurd (congrArg TableIdent.name h) (by decide)⟩

/-- Every token of a listing has its place. -/
theorem forall_cursor_iff {P : Option String → Prop} :
    (∀ i ≤ tokens.length, P (cursor tokens i)) ↔ P none ∧ ∀ t ∈ tokens, P (some t) := by
  constructor
  · intro h
    refine ⟨h 0 (Nat.zero_le _), fun t ht => ?_⟩
    obtain ⟨i, hi, rfl⟩ := List.getElem_of_mem ht
    have hplace := h (i + 1) hi
    rwa [cursor, List.getElem?_eq_getElem hi] at hplace
  · rintro ⟨hnone, htokens⟩ i hi
    cases i with
    | zero => exact hnone
    | succ i =>
        rw [cursor, List.getElem?_eq_getElem hi]
        exact htokens _ (List.getElem_mem hi)

/-- With a URI and a bearer, it is the tokens that matter. -/
theorem listsAll_iff_sent (hdistinct : tokens.Nodup) (hne : ∀ t ∈ tokens, t ≠ "")
    (huri : props.getNonempty "uri" = some uri)
    (hbearer : (exchangePat env.toHttpEnv props oauth).result = some bearer) :
    ListsAll env props namespaceParts oauth tokens ↔
      sent env uri bearer namespaceParts props none = .ok none ∧
        ∀ t ∈ tokens, sent env uri bearer namespaceParts props (some t) = .ok (tokenName (some t)) := by
  have hloop : ListsAll env props namespaceParts oauth tokens ↔
      Complete (sent env uri bearer namespaceParts props) readReply tokenName tokens := by
    unfold ListsAll Complete listTablesWasm
    simp only [huri, hbearer, listPages_eq_follow]
  rw [hloop, complete_iff (repliable_readReply hne) (separates_tokenName hdistinct)]
  exact forall_cursor_iff (P := fun token => sent env uri bearer namespaceParts props token = .ok (tokenName token))

end

/-- **All tables are listed exactly when the requests are made, the first without a token, and the tokens are plain
values behind a URL without query and fragment.** -/
theorem listsAll_iff (env : ListEnv) (props : Props) (namespaceParts : List String) (oauth : Option OAuthReply)
    {tokens : List String} (hdistinct : tokens.Nodup) (hne : ∀ t ∈ tokens, t ≠ "") :
    ListsAll env props namespaceParts oauth tokens ↔ Listable env props namespaceParts oauth tokens := by
  constructor
  · intro h
    -- there is such a server
    have hfail : ∀ e, ¬ ∀ server fuel, listTablesWasm env server props namespaceParts oauth fuel = some (.error e) := by
      intro e hall
      obtain ⟨server, hserves, -⟩ := exists_serves (repliable_readReply hne) (separates_tokenName hdistinct)
        (List.length_replicate : (List.replicate (tokens.length + 1) ([] : List TableIdent)).length = _)
      obtain ⟨fuel, hrun⟩ := h _ server hserves
      rw [hall] at hrun
      cases hrun
    cases huri : props.getNonempty "uri" with
    | none =>
        refine absurd (fun server fuel => ?_) (hfail .missingUri)
        rw [listTablesWasm, huri]
    | some uri =>
        cases hbearer : (exchangePat env.toHttpEnv props oauth).result with
        | none =>
            refine absurd (fun server fuel => ?_) (hfail .exchange)
            rw [listTablesWasm, huri]
            simp only [hbearer]
        | some bearer =>
            rw [listsAll_iff_sent hdistinct hne huri hbearer] at h
            obtain ⟨u, hu, hhost, hok, hnone⟩ := sent_eq_ok_iff.mp h.1
            have harrive := fun t ht => (sent_token_iff hu hhost hok hnone t).mp (h.2 t ht)
            refine ⟨⟨uri, bearer, u, huri, hbearer, hok, hu, hhost, hnone, fun htokens => ?_⟩, fun t ht => (harrive t ht).2⟩
            obtain ⟨t, ht⟩ := List.exists_mem_of_ne_nil tokens htokens
            exact (harrive t ht).1
  · intro h
    obtain ⟨uri, bearer, u, huri, hbearer, hok, hu, hhost, hnone, hplain⟩ := h.request
    rw [listsAll_iff_sent hdistinct hne huri hbearer]
    refine ⟨sent_eq_ok_iff.mpr ⟨u, hu, hhost, hok, hnone⟩, fun t ht => ?_⟩
    rw [sent_token_iff hu hhost hok hnone]
    exact ⟨hplain (List.ne_nil_of_mem ht), h.tokens t ht⟩

/-! ### Two tokens -/

/-- A catalog at a host of its own, with a bearer. -/
def siteEnv : ListEnv where
  toHttpEnv := asciiEnv
  hosts := nameParser
  bearerOk _ := true

def siteProps : Props := [("uri", "https://catalog.example"), ("token", "abc")]

/-- The URL of the endpoint. -/
def siteUrl : Url :=
  plain "https" (some "catalog.example".toList)
    (.segments ["v1".toList, "namespaces".toList, "SALES".toList, "tables".toList])

theorem parse_siteUrl :
    parse siteEnv.hosts (requestText siteEnv "https://catalog.example" ["sales"] siteProps none).toList =
      some siteUrl := by decide +kernel

/-- A token with a space is encoded, and arrives as it is. -/
theorem listsAll_space : ListsAll siteEnv siteProps ["sales"] none ["page 2"] := by
  refine (listsAll_iff siteEnv siteProps ["sales"] none (by decide) (by decide)).mpr ⟨?_, ?_⟩
  · exact ⟨"https://catalog.example", "abc", siteUrl, rfl, rfl, rfl, parse_siteUrl, by decide, rfl,
      fun _ => ⟨rfl, rfl⟩⟩
  · intro t ht
    obtain rfl := List.mem_singleton.mp ht
    exact ⟨by decide, by decide, by decide, Text.forall_mem_of_all (by decide),
      Text.forall_mem_getLast_of_all (by decide)⟩

/-- Of a token with an ampersand, the server sees what stands before it. -/
theorem not_listsAll_ampersand :
    ¬ ListsAll siteEnv siteProps ["sales"] none ["a&b"] ∧
      (sent siteEnv "https://catalog.example" "abc" ["sales"] siteProps (some "a&b")).toOption =
        some (tokenName (some "a")) := by
  refine ⟨fun h => ?_, by decide +kernel⟩
  have huri : siteProps.getNonempty "uri" = some "https://catalog.example" := rfl
  have hbearer : (exchangePat siteEnv.toHttpEnv siteProps none).result = some "abc" := rfl
  have hsent := ((listsAll_iff_sent (by decide) (by decide) huri hbearer).mp h).2 "a&b" List.mem_cons_self
  have harrive := (sent_token_iff parse_siteUrl (by decide) rfl rfl "a&b").mp hsent
  exact harrive.2.ampersand (by decide)

end IcebergDb.Catalog
