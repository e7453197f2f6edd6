import IcebergDb.Foundation.Logged
import IcebergDb.Foundation.Text
import IcebergDb.Foundation.Utf8
import Mathlib.Data.List.Sort
import Mathlib.Data.String.Basic

/-!
# Opening a REST catalog and loading tables, with the HTTP log

What `open_rest` and `load_table_vended` do up to the requests, with `IDB_LOG_HTTP` set: which request
is made with which values, and every line that is written to the log on the way.

* `Props` — the properties of the catalog, in the order in which the hash map is iterated;
* `redactSecret`, `formBody`, `logOutbound`, `logCatalogBootstrap` — the functions of `http_log`;
* `exchangePat` — the PAT exchange, or the pre-set bearer token;
* `openRest`, `loadTableVended`, `RestRun.log` — the log of a whole run.

Errors and panics end the call; their texts are returned to the caller and not logged.
-/

namespace IcebergDb.Catalog

open Text Logged

/-! ### Properties -/

/-- A `HashMap<String, String>`: distinct keys, in iteration order. -/
abbrev Props := List (String × String)

namespace Props

/-- `HashMap::get`. -/
def get (props : Props) (key : String) : Option String := props.lookup key

/-- `get` followed by `filter(|s| !s.is_empty())`. -/
def getNonempty (props : Props) (key : String) : Option String :=
  (props.get key).filter (· ≠ "")

/-- `HashMap::remove`. -/
def remove (props : Props) (key : String) : Props := props.filter (·.1 ≠ key)

/-- `HashMap::insert`. -/
def insert (props : Props) (key value : String) : Props := props.remove key ++ [(key, value)]

/-- `entry(key).or_insert(value)`. -/
def orInsert (props : Props) (key value : String) : Props :=
  if (props.get key).isSome then props else props.insert key value

/-- `keys` followed by `sort`. -/
def sortedKeys (props : Props) : List String := (props.map Prod.fst).insertionSort (· ≤ ·)

theorem get_remove_of_ne (props : Props) {key other : String} (h : key ≠ other) :
    (props.remove other).get key = props.get key := by
  unfold remove get
  induction props with
  | nil => rfl
  | cons p rest ih =>
      obtain ⟨k, v⟩ := p
      rw [List.filter_cons]
      by_cases hk : k = other
      · subst hk
        rw [if_neg (by simp), ih, List.lookup_cons, beq_false_of_ne h]
      · rw [if_pos (by simpa using hk), List.lookup_cons, List.lookup_cons, ih]

theorem get_remove_self (props : Props) (key : String) : (props.remove key).get key = none := by
  unfold remove get
  rw [List.lookup_eq_none_iff]
  intro p hp
  have hne : p.1 ≠ key := of_decide_eq_true (List.mem_filter.mp hp).2
  exact bne_iff_ne.mpr hne.symm

theorem get_insert_self (props : Props) (key value : String) :
    (props.insert key value).get key = some value := by
  unfold insert
  have hnone := get_remove_self props key
  unfold get at hnone ⊢
  rw [List.lookup_append, hnone]
  simp

theorem get_insert_of_ne (props : Props) {key other : String} (value : String) (h : key ≠ other) :
    (props.insert other value).get key = props.get key := by
  have hremove := get_remove_of_ne props h
  unfold insert
  unfold get at hremove ⊢
  rw [List.lookup_append, hremove]
  simp [List.lookup_cons, beq_false_of_ne h]

theorem get_orInsert_of_ne (props : Props) {key other : String} (value : String) (h : key ≠ other) :
    (props.orInsert other value).get key = props.get key := by
  unfold orInsert
  split
  · rfl
  · exact get_insert_of_ne props value h

end Props

/-- `str::len`. -/
def len (s : String) : ℕ := (Utf8.bytes s.toList).length

/-! ### The functions of `http_log` -/

/-- `redact_secret`; `none` where a slice would split a character. -/
def redactSecret (value : String) : Option String :=
  if len value ≤ 8 then some "***"
  else
    match Utf8.sliceTo 4 value.toList, Utf8.sliceFrom (len value - 4) value.toList with
    | some first, some last =>
        some (String.ofList first ++ "…" ++ String.ofList last ++ " (" ++ toString (len value) ++
          " chars)")
    | _, _ => none

/-- A secret can be redacted if it is short, or its first four and its last four bytes are characters. -/
theorem isSome_redactSecret_iff (value : String) : (redactSecret value).isSome = true ↔
    len value ≤ 8 ∨ (Utf8.IsBoundary 4 value.toList ∧ Utf8.IsBoundary (len value - 4) value.toList) := by
  rw [← Utf8.isSome_sliceTo_iff, ← Utf8.isSome_sliceFrom_iff]
  unfold redactSecret
  by_cases hshort : len value ≤ 8
  · simp [hshort]
  · rw [if_neg hshort]
    cases Utf8.sliceTo 4 value.toList with
    | none => simp [hshort]
    | some first => cases Utf8.sliceFrom (len value - 4) value.toList <;> simp [hshort]

/-- `form_body`. -/
def formBody (params : List (String × String)) : Option String := do
  let fields ← params.mapM fun (key, value) => do
    let shown ← if key = "client_secret" then redactSecret value else some value
    return key ++ "=" ++ shown
  return "&".intercalate fields

/-- `log_outbound`. -/
def logOutbound (method url : String) (headers : List (String × String)) (body : Option String) :
    List String :=
  ["--- idb HTTP → Snowflake / REST catalog ---", method ++ " " ++ url] ++
    headers.map (fun (key, value) => key ++ ": " ++ value) ++
    (match body with
      | some b => ["", b]
      | none => []) ++
    ["--- end ---"]

/-- `log_curl_oauth_pat`; the PAT itself is not an argument. -/
def logCurlOauthPat (url scope : String) (clientId : Option String) : List String :=
  ["--- reproduce Snowflake PAT OAuth (use curl.exe on Windows) ---",
    "curl.exe -i -X POST \"" ++ url ++ "\" `",
    "  -H \"Content-Type: application/x-www-form-urlencoded\" `",
    "  --data-urlencode \"grant_type=client_credentials\" `"] ++
    (match clientId with
      | some id => ["  --data-urlencode \"client_id=" ++ id ++ "\" `"]
      | none => []) ++
    ["  --data-urlencode \"scope=" ++ scope ++ "\" `",
      "  --data-urlencode \"client_secret=$env:SNOWFLAKE_ACCESS_TOKEN\"",
      "--- end ---"]

/-- `iceberg_rest_urls`. -/
def icebergRestUrls (props : Props) : List (String × String) :=
  match props.get "uri" with
  | none => []
  | some uri =>
      let base := trimEndMatches '/' uri
      [("GET (init)", base ++ "/v1/config" ++
        (match props.get "warehouse" with
          | some warehouse => "?warehouse=" ++ warehouse
          | none => "")),
      ("POST (auth)", (props.get "oauth2-server-uri").getD (base ++ "/v1/oauth/tokens")),
      ("GET", base ++ "/v1/namespaces")]

/-- The keys whose values `log_catalog_bootstrap` redacts. -/
def redactsKey (key : String) : Bool :=
  contains "token" key || contains "credential" key || contains "secret" key

/-- What the property dump shows of a value. -/
def shownValue (key value : String) : Option String :=
  if redactsKey key then redactSecret value else some value

/-- One line of the property dump. -/
def propertyLine (props : Props) (key : String) : Option String := do
  let value ← props.get key
  let shown ← shownValue key value
  return "  " ++ key ++ " = " ++ shown

/-- The loop of the property dump; a panic leaves the lines before it. -/
def logProperties (props : Props) : List String → Logged String Unit
  | [] => return ()
  | key :: keys => do
      let line ← ofOption (propertyLine props key)
      say [line]
      logProperties props keys

/-- `log_catalog_bootstrap`. -/
def logCatalogBootstrap (props : Props) : Logged String Unit := do
  say ["--- idb REST catalog bootstrap (inner iceberg-catalog-rest) ---",
    "Resolved catalog properties (secrets redacted):"]
  logProperties props props.sortedKeys
  say (["Expected HTTP sequence:"] ++
    (icebergRestUrls props).map (fun (method, url) => "  " ++ method ++ " " ++ url) ++
    ["--- end ---"])

/-! ### The Snowflake profile -/

/-- `snowflake_pat_secret`. -/
def snowflakePatSecret (credential : String) : String :=
  match splitOnce ':' credential with
  | some (_, pat) => pat
  | none => credential

/-- `is_snowflake_horizon_uri`. -/
def isSnowflakeHorizonUri (uri : String) : Bool :=
  contains "/polaris/api/catalog" uri &&
    (contains "snowflakecomputing.com" uri || contains "/sf/" uri || contains "127.0.0.1:8787" uri ||
      contains "localhost:8787" uri)

/-- `is_snowflake_horizon_profile`. -/
def isSnowflakeHorizonProfile (profile uri : Option String) : Bool :=
  profile.any (toAsciiLowercase · == "snowflake-horizon") || uri.any isSnowflakeHorizonUri

/-- `validate_snowflake_horizon`. -/
def validateSnowflakeHorizon (props : Props) : Bool :=
  let scope := (props.get "scope").or (props.get "oauth2-scope")
  let cred := ((props.getNonempty "credential").or (props.getNonempty "token")).getD ""
  scope.any (fun s => s ≠ "" && startsWith "session:role:" s) && 32 ≤ len (snowflakePatSecret cred)

/-- `validate_rest_props`. -/
def validateRestProps (props : Props) (profile : Option String) : Bool :=
  match props.getNonempty "uri" with
  | none => false
  | some uri =>
      !contains "<" uri && !contains ">" uri &&
        (startsWith "http://" uri || startsWith "https://" uri) &&
        ((props.getNonempty "token").isSome || (props.getNonempty "credential").isSome) &&
        (!isSnowflakeHorizonProfile profile (some uri) || validateSnowflakeHorizon props)

/-- `oauth_client_id`. -/
def oauthClientId (props : Props) : Option String := props.getNonempty "oauth2-client-id"

/-- `pat_from_props`. -/
def patFromProps (props : Props) : Option String := do
  let cred ← props.getNonempty "credential"
  if len (snowflakePatSecret cred) < 32 then none else some (snowflakePatSecret cred)

/-- `oauth_scope`. -/
def oauthScope (props : Props) : Option String :=
  ((props.get "oauth2-scope").or (props.get "scope")).filter
    fun scope => scope ≠ "" && startsWith "session:role:" scope

/-! ### The requests -/

/-- The reply to the token request: the status, the body, and what `serde_json` reads from it as
`access_token`. -/
structure OAuthReply where
  status : ℕ
  body : String
  token : Option String

/-- A table identifier. -/
structure TableIdent where
  namespaceParts : List String
  name : String

/-- What the run uses of other crates: `str::to_uppercase`, how a status code is printed, and whether
`reqwest` takes the header properties. -/
structure HttpEnv where
  toUppercase : String → String
  showStatus : ℕ → String
  clientOk : List (String × String) → Bool

/-- `exchange_pat`.  The reply is `none` when the request itself fails. -/
def exchangePat (env : HttpEnv) (props : Props) (reply : Option OAuthReply) : Logged String String :=
  match props.getNonempty "token" with
  | some token => do
      say ["--- idb auth: using pre-set bearer token (skipping PAT exchange) ---"]
      return token
  | none => do
      let pat ← ofOption (patFromProps props)
      let clientId := oauthClientId props
      let oauthUri ← ofOption (props.get "oauth2-server-uri")
      let scope ← ofOption (oauthScope props)
      say ["--- idb auth: Snowflake PAT OAuth exchange ---",
        (match clientId with
          | some id => "  client_id=" ++ id
          | none => "  client_id=(not sent — PAT-only, per Snowflake IRC docs)"),
        "  scope=" ++ scope,
        "  pat_len=" ++ toString (len pat)]
      let body ← ofOption (formBody ([("grant_type", "client_credentials"), ("scope", scope)] ++
        (match clientId with
          | some id => [("client_id", id)]
          | none => []) ++
        [("client_secret", pat)]))
      say (logOutbound "POST" oauthUri [("Content-Type", "application/x-www-form-urlencoded")]
        (some body))
      say (logCurlOauthPat oauthUri scope clientId)
      let response ← ofOption reply
      say ["--- idb HTTP response ---", "POST " ++ oauthUri,
        "status: " ++ env.showStatus response.status,
        "body: " ++ (if response.body = "" then "<empty>" else response.body),
        "--- end ---"]
      ofOption (if 200 ≤ response.status ∧ response.status < 300 then response.token else none)

/-- `catalog_request_headers`, without the header that is always sent. -/
def headerProps (props : Props) : List (String × String) :=
  props.filterMap fun (key, value) => (stripPrefix "header." key).map (·, value)

/-- `catalog_request_headers`. -/
def catalogRequestHeaders (props : Props) : List (String × String) :=
  headerProps props ++ [("X-Iceberg-Access-Delegation", "vended-credentials")]

/-- `table_endpoint`. -/
def tableEndpoint (env : HttpEnv) (uri : String) (table : TableIdent) (props : Props) : String :=
  let base := trimEndMatches '/' uri
  let ns := env.toUppercase ("\x1f".intercalate table.namespaceParts)
  let name := env.toUppercase table.name
  let db := ((props.get "warehouse").or (props.get "prefix")).filter
    fun w => w ≠ "" && !contains "://" w
  match isSnowflakeHorizonUri uri, db, props.getNonempty "prefix" with
  | true, some db, _ => base ++ "/v1/" ++ env.toUppercase db ++ "/namespaces/" ++ ns ++ "/tables/" ++ name
  | _, _, some pre => base ++ "/v1/" ++ trimMatches '/' pre ++ "/namespaces/" ++ ns ++ "/tables/" ++ name
  | _, _, none => base ++ "/v1/namespaces/" ++ ns ++ "/tables/" ++ name

/-- `load_table_vended`, which logs nothing after the status of the reply. -/
def loadTableVended (env : HttpEnv) (props : Props) (table : TableIdent) (oauth : Option OAuthReply)
    (status : Option ℕ) : Logged String Unit := do
  let uri ← ofOption (props.getNonempty "uri")
  let url := tableEndpoint env uri table props
  let bearer ← exchangePat env props oauth
  let redacted ← ofOption (redactSecret bearer)
  say (logOutbound "GET" url
    (catalogRequestHeaders props ++ [("Authorization", "Bearer " ++ redacted)]) none)
  let status ← ofOption status
  say ["--- idb HTTP response ---", "GET " ++ url, "status: " ++ env.showStatus status, "--- end ---"]

/-- What a run depends on: the properties after `rest_catalog_properties`, the profile and the default
schema of the catalog, the reply to each token request, and the tables that are loaded then, with the
status of the reply. -/
structure RestRun where
  props : Props
  profile : Option String
  defaultSchema : Option String
  oauth : ℕ → Option OAuthReply
  tables : List (TableIdent × Option ℕ)

/-- The properties with the default schema in them.  Taking `uri` out and putting it back changes nothing,
and `warehouse` is there under its own name. -/
def RestRun.catalogProps (run : RestRun) : Props :=
  match run.defaultSchema with
  | some schema => run.props.orInsert "default-schema" schema
  | none => run.props

/-- `open_rest` from `rest_props` on; it returns the properties that the catalog keeps. -/
def connect (env : HttpEnv) (profile : Option String) (props : Props) (oauth : Option OAuthReply) :
    Logged String Props :=
  let restProps := props.remove "header.X-Iceberg-Access-Delegation"
  if isSnowflakeHorizonProfile profile (restProps.get "uri") then do
    let bearer ← exchangePat env restProps oauth
    logCatalogBootstrap ((restProps.insert "token" bearer).remove "credential")
    return (props.insert "token" bearer).remove "credential"
  else do
    logCatalogBootstrap restProps
    return props

/-- `open_rest`. -/
def openRest (env : HttpEnv) (run : RestRun) : Logged String Props := do
  ofOption (if validateRestProps run.props run.profile then some () else none)
  connect env run.profile run.catalogProps (run.oauth 0)

/-- The lines of the table loads, one after the other; the first is load number `n`. -/
def logTables (env : HttpEnv) (props : Props) (oauth : ℕ → Option OAuthReply) :
    ℕ → List (TableIdent × Option ℕ) → List String
  | _, [] => []
  | n, (table, status) :: rest =>
      (loadTableVended env props table (oauth n) status).lines ++ logTables env props oauth (n + 1) rest

/-- The log of the run: the bootstrap, and then the table loads, when `build_http_client` accepts the
header properties. -/
def RestRun.log (env : HttpEnv) (run : RestRun) : List String :=
  (openRest env run).lines ++
    (match (openRest env run).result with
      | some props =>
          if env.clientOk (headerProps props) then logTables env props run.oauth 1 run.tables else []
      | none => [])

end IcebergDb.Catalog
