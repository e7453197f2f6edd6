import IcebergDb.Catalog.RestAuth

/-!
# Secrets and the HTTP log

Two runs of the bootstrap and of the table loads that differ only in secret values, where corresponding
secrets have the same length and the same first and last four bytes.

* `Alike` — two secrets that `redact_secret` does not tell apart (`redactSecret_congr`);
* `SameButSecrets` — the two runs;
* `Unexposed` — the secrets that the code prints as they are agree in both;
* `log_eq_of_unexposed` — then the two logs are equal, line for line.

Three sites print secrets as they are: the body of the reply to the token request, the dump of the
properties where the key has none of the three words it looks for, and the request headers.
-/

namespace IcebergDb.Catalog

open Text Logged

/-! ### Secrets that look alike -/

/-- The same length, the same first four and the same last four bytes. -/
structure Alike (v w : String) : Prop where
  length : len v = len w
  first : (Utf8.bytes v.toList).take 4 = (Utf8.bytes w.toList).take 4
  last : (Utf8.bytes v.toList).drop (len v - 4) = (Utf8.bytes w.toList).drop (len w - 4)

instance instDecidableAlike (v w : String) : Decidable (Alike v w) :=
  decidable_of_iff (len v = len w ∧ (Utf8.bytes v.toList).take 4 = (Utf8.bytes w.toList).take 4 ∧
      (Utf8.bytes v.toList).drop (len v - 4) = (Utf8.bytes w.toList).drop (len w - 4))
    ⟨fun h => ⟨h.1, h.2.1, h.2.2⟩, fun h => ⟨h.length, h.first, h.last⟩⟩

theorem Alike.refl (v : String) : Alike v v := ⟨rfl, rfl, rfl⟩

theorem Alike.eq_empty_iff {v w : String} (h : Alike v w) : v = "" ↔ w = "" := by
  have hlen : ∀ s : String, s = "" ↔ len s = 0 := by
    intro s
    constructor
    · rintro rfl
      rfl
    · intro hs
      have hnil : s.toList = [] := Utf8.bytes_injective (List.length_eq_zero_iff.mp hs)
      exact String.toList_eq_nil_iff.mp hnil
  rw [hlen v, hlen w, h.length]

/-- `redact_secret` shows the same of both, or panics on both. -/
theorem redactSecret_congr {v w : String} (h : Alike v w) : redactSecret v = redactSecret w := by
  have hlast : Utf8.sliceFrom (len w - 4) v.toList = Utf8.sliceFrom (len w - 4) w.toList := by
    refine Utf8.sliceFrom_congr h.length ?_
    have := h.last
    rwa [h.length] at this
  unfold redactSecret
  rw [h.length, Utf8.sliceTo_congr h.first, hlast]

/-- A key that names a token, a credential, a secret, an access key or the Authorization header. -/
def namesSecret (key : String) : Bool :=
  let lower := toAsciiLowercase key
  contains "token" lower || contains "credential" lower || contains "secret" lower ||
    contains "access-key" lower || contains "authorization" lower

/-! ### The two runs -/

/-- The property has alike values in both runs, and the same value where the key is `fixed`. -/
structure Close (fixed : String → Bool) (p q : String × String) : Prop where
  key : p.1 = q.1
  alike : Alike p.2 q.2
  value : fixed p.1 = true → p.2 = q.2

/-- The two replies differ at most in the token. -/
structure SameReply (a b : OAuthReply) : Prop where
  status : a.status = b.status
  token : Option.Rel Alike a.token b.token
  body : a.body = b.body ∨ ∃ t u pre post, a.token = some t ∧ b.token = some u ∧
    a.body = pre ++ t ++ post ∧ b.body = pre ++ u ++ post

/-- Two runs that differ only in secrets: in the values of the keys that name one, and in the tokens of
the replies.  The PAT is the part of the credential, or of the token, after
the colon. -/
structure SameButSecrets (r₁ r₂ : RestRun) : Prop where
  props : List.Forall₂ (Close fun key => !namesSecret key) r₁.props r₂.props
  pat : ∀ key ∈ ["credential", "token"], Option.Rel
    (fun v w => Alike (snowflakePatSecret v) (snowflakePatSecret w)) (r₁.props.get key) (r₂.props.get key)
  profile : r₁.profile = r₂.profile
  defaultSchema : r₁.defaultSchema = r₂.defaultSchema
  oauth : ∀ n, Option.Rel SameReply (r₁.oauth n) (r₂.oauth n)
  tables : r₁.tables = r₂.tables

/-- The keys whose values are printed as they are, in the dump of the properties or as a header. -/
def printsRaw (key : String) : Bool := !redactsKey key || startsWith "header." key

/-- What the code prints of a secret agrees in both runs: there is a bearer token already, so that no
PAT is exchanged, or the replies to the token requests have the same bodies; and every secret property
whose key has none of the words `token`, `credential`, `secret`, or starts with `header.`, has the same
value. -/
structure Unexposed (r₁ r₂ : RestRun) : Prop where
  reply : (r₁.props.getNonempty "token").isSome ∨
    ∀ n, Option.Rel (fun a b => a.body = b.body) (r₁.oauth n) (r₂.oauth n)
  property : List.Forall₂ (fun p q => namesSecret p.1 = true → printsRaw p.1 = true → p.2 = q.2)
    r₁.props r₂.props

/-! ### Properties of the two runs -/

section

variable {fixed : String → Bool} {p₁ p₂ : Props} {key v w : String}

theorem Close.refl (p : String × String) : Close fixed p p := ⟨rfl, .refl p.2, fun _ => rfl⟩

/-- The properties of two runs in which the secrets that are printed agree. -/
theorem forall₂_close {r₁ r₂ : RestRun} (h : SameButSecrets r₁ r₂) (hun : Unexposed r₁ r₂) :
    List.Forall₂ (Close printsRaw) r₁.props r₂.props := by
  have hboth := h.props
  have hraw := hun.property
  revert hboth hraw
  generalize r₁.props = p₁
  generalize r₂.props = p₂
  intro hboth hraw
  induction hboth with
  | nil => exact .nil
  | cons hpq hrest ih =>
      cases hraw with
      | cons hraw hraws =>
          refine .cons ⟨hpq.key, hpq.alike, ?_⟩ (ih hraws)
          intro hprints
          cases hname : namesSecret _ with
          | false => exact hpq.value (by rw [hname]; rfl)
          | true => exact hraw hname hprints

theorem get_rel (h : List.Forall₂ (Close fixed) p₁ p₂) (key : String) :
    Option.Rel (fun v w => Alike v w ∧ (fixed key = true → v = w)) (p₁.get key) (p₂.get key) := by
  induction h with
  | nil => exact .none
  | @cons p q l₁ l₂ hpq hrest ih =>
      obtain ⟨k, v⟩ := p
      obtain ⟨k', w⟩ := q
      obtain rfl : k = k' := hpq.key
      show Option.Rel _ (((k, v) :: l₁).lookup key) (((k, w) :: l₂).lookup key)
      rw [List.lookup_cons, List.lookup_cons]
      cases hk : key == k with
      | true =>
          obtain rfl : key = k := eq_of_beq hk
          exact .some ⟨hpq.alike, hpq.value⟩
      | false => exact ih

/-- A property with a fixed key is the same in both runs. -/
theorem get_eq (h : List.Forall₂ (Close fixed) p₁ p₂) (hkey : fixed key = true) :
    p₁.get key = p₂.get key :=
  rel_eq (get_rel h key) fun _ _ hvw => hvw.2 hkey

theorem getNonempty_eq (h : List.Forall₂ (Close fixed) p₁ p₂) (hkey : fixed key = true) :
    p₁.getNonempty key = p₂.getNonempty key := by
  rw [Props.getNonempty, Props.getNonempty, get_eq h hkey]

theorem getNonempty_rel (h : List.Forall₂ (Close fixed) p₁ p₂) (key : String) :
    Option.Rel Alike (p₁.getNonempty key) (p₂.getNonempty key) := by
  refine rel_filter (rel_mono (get_rel h key) fun _ _ hvw => hvw.1) ?_
  intro v w hvw
  simp only [ne_eq, decide_not, hvw.eq_empty_iff]

theorem remove_close (h : List.Forall₂ (Close fixed) p₁ p₂) (key : String) :
    List.Forall₂ (Close fixed) (p₁.remove key) (p₂.remove key) := by
  unfold Props.remove
  induction h with
  | nil => exact .nil
  | @cons p q l₁ l₂ hpq hrest ih =>
      rw [List.filter_cons, List.filter_cons, hpq.key]
      split
      · exact .cons hpq ih
      · exact ih

theorem insert_close (h : List.Forall₂ (Close fixed) p₁ p₂) (hvw : Close fixed (key, v) (key, w)) :
    List.Forall₂ (Close fixed) (p₁.insert key v) (p₂.insert key w) :=
  List.rel_append (remove_close h key) (.cons hvw .nil)

theorem orInsert_close (h : List.Forall₂ (Close fixed) p₁ p₂) (key v : String) :
    List.Forall₂ (Close fixed) (p₁.orInsert key v) (p₂.orInsert key v) := by
  have hsome : (p₁.get key).isSome = (p₂.get key).isSome := rel_isSome (get_rel h key)
  unfold Props.orInsert
  rw [hsome]
  split
  · exact h
  · exact insert_close h (.refl _)

theorem sortedKeys_eq (h : List.Forall₂ (Close fixed) p₁ p₂) : p₁.sortedKeys = p₂.sortedKeys := by
  have hkeys : p₁.map Prod.fst = p₂.map Prod.fst := by
    induction h with
    | nil => rfl
    | cons hpq hrest ih => rw [List.map_cons, List.map_cons, hpq.key, ih]
  rw [Props.sortedKeys, Props.sortedKeys, hkeys]

theorem headerProps_eq (h : List.Forall₂ (Close printsRaw) p₁ p₂) : headerProps p₁ = headerProps p₂ := by
  unfold headerProps
  induction h with
  | nil => rfl
  | @cons p q l₁ l₂ hpq hrest ih =>
      obtain ⟨k, v⟩ := p
      obtain ⟨k', w⟩ := q
      obtain rfl : k = k' := hpq.key
      rw [List.filterMap_cons, List.filterMap_cons, ih]
      cases hstrip : stripPrefix "header." k with
      | none => simp only [hstrip, Option.map_none]
      | some name =>
          have hheader : startsWith "header." k = true := by
            unfold stripPrefix at hstrip
            unfold startsWith
            by_contra hnot
            rw [if_neg hnot] at hstrip
            cases hstrip
          have hvw : v = w := hpq.value (by rw [printsRaw, hheader, Bool.or_true])
          rw [hvw]

end

/-! ### The log of the two runs -/

section

variable {p₁ p₂ : Props} {a b : Option OAuthReply}

/-- The form of the token request shows the same of two PATs that look alike. -/
theorem formBody_congr (form : List (String × String)) {v w : String} (h : Alike v w) :
    formBody (form ++ [("client_secret", v)]) = formBody (form ++ [("client_secret", w)]) := by
  have hsame : redactSecret v = redactSecret w := redactSecret_congr h
  simp only [formBody, List.mapM_append, List.mapM_cons, List.mapM_nil, if_true, hsame]

/-- The credentials of the two runs: the PATs in them look alike too. -/
abbrev SamePat (p₁ p₂ : Props) (key : String) : Prop :=
  Option.Rel (fun v w => Alike (snowflakePatSecret v) (snowflakePatSecret w)) (p₁.get key) (p₂.get key)

/-- The PATs of the two runs look alike, or neither run has one. -/
theorem patFromProps_rel (h : List.Forall₂ (Close printsRaw) p₁ p₂)
    (hpat : SamePat p₁ p₂ "credential") : Option.Rel Alike (patFromProps p₁) (patFromProps p₂) := by
  have hboth := rel_and (get_rel h "credential") hpat
  refine rel_bind (rel_filter hboth ?_) ?_
  · intro v w hvw
    simp only [ne_eq, decide_not, hvw.1.1.eq_empty_iff]
  · intro v w hvw
    have hpat : Alike (snowflakePatSecret v) (snowflakePatSecret w) := hvw.2
    rw [hpat.length]
    split
    · exact .none
    · exact .some hpat

/-- With a pre-set token no request is made. -/
theorem exchangePat_of_token (env : HttpEnv) {t u : String} (h₁ : p₁.getNonempty "token" = some t)
    (h₂ : p₂.getNonempty "token" = some u) (htu : Alike t u) (a b : Option OAuthReply) :
    Same (fun t u => Alike t u ∧ ((p₁.getNonempty "token").isSome → t ≠ ""))
      (exchangePat env p₁ a) (exchangePat env p₂ b) := by
  have hne : t ≠ "" := by
    have hfilter := (Option.filter_eq_some_iff.mp h₁).2
    simpa using hfilter
  simp only [exchangePat, h₁, h₂]
  exact (Same.say rfl).bind fun _ _ _ => .pure ⟨htu, fun _ => hne⟩

/-- Without one the PAT is sent, and the reply is printed. -/
theorem exchangePat_of_none (env : HttpEnv) (h : List.Forall₂ (Close printsRaw) p₁ p₂)
    (hpat : SamePat p₁ p₂ "credential") (hab : Option.Rel SameReply a b)
    (hbodies : Option.Rel (fun a b => a.body = b.body) a b) (h₁ : p₁.getNonempty "token" = none)
    (h₂ : p₂.getNonempty "token" = none) :
    Same (fun t u => Alike t u ∧ ((p₁.getNonempty "token").isSome → t ≠ ""))
      (exchangePat env p₁ a) (exchangePat env p₂ b) := by
  have hclient : oauthClientId p₁ = oauthClientId p₂ := getNonempty_eq h (by decide)
  have huri : p₁.get "oauth2-server-uri" = p₂.get "oauth2-server-uri" := get_eq h (by decide)
  have hscope : oauthScope p₁ = oauthScope p₂ := by
    have hscope₁ : p₁.get "oauth2-scope" = p₂.get "oauth2-scope" := get_eq h (by decide)
    have hscope₂ : p₁.get "scope" = p₂.get "scope" := get_eq h (by decide)
    rw [oauthScope, oauthScope, hscope₁, hscope₂]
  simp only [exchangePat, h₁, h₂, hclient, huri, hscope]
  refine (Same.ofOption (patFromProps_rel h hpat)).bind fun v w hvw => ?_
  refine (Same.refl _).bind fun uri _ huri => ?_
  subst huri
  refine (Same.refl _).bind fun scope _ hscope => ?_
  subst hscope
  refine (Same.say (by rw [hvw.length])).bind fun _ _ _ => ?_
  rw [formBody_congr _ hvw]
  refine (Same.refl _).bind fun body _ hbody => ?_
  subst hbody
  refine (Same.say rfl).bind fun _ _ _ => (Same.say rfl).bind fun _ _ _ => ?_
  refine (Same.ofOption (rel_and hab hbodies)).bind fun x y hxy => ?_
  refine (Same.say (by rw [hxy.1.status, hxy.2])).bind fun _ _ _ => Same.ofOption ?_
  rw [hxy.1.status]
  split
  · exact rel_mono hxy.1.token fun t u htu => ⟨htu, by simp⟩
  · exact .none

/-- The two exchanges write the same, provided the replies have the same body or no exchange is made. -/
theorem exchangePat_same (env : HttpEnv) (h : List.Forall₂ (Close printsRaw) p₁ p₂)
    (hpat : SamePat p₁ p₂ "credential") (hab : Option.Rel SameReply a b)
    (hbody : (p₁.getNonempty "token").isSome ∨ Option.Rel (fun a b => a.body = b.body) a b) :
    Same (fun t u => Alike t u ∧ ((p₁.getNonempty "token").isSome → t ≠ ""))
      (exchangePat env p₁ a) (exchangePat env p₂ b) := by
  have htoken := getNonempty_rel h "token"
  cases h₁ : p₁.getNonempty "token" with
  | some t =>
      cases h₂ : p₂.getNonempty "token" with
      | none =>
          rw [h₁, h₂] at htoken
          cases htoken
      | some u =>
          rw [h₁, h₂] at htoken
          cases htoken with
          | some htu => exact h₁ ▸ exchangePat_of_token env h₁ h₂ htu a b
  | none =>
      cases h₂ : p₂.getNonempty "token" with
      | some u =>
          rw [h₁, h₂] at htoken
          cases htoken
      | none =>
          rw [h₁] at hbody
          exact h₁ ▸ exchangePat_of_none env h hpat hab (hbody.resolve_left (by simp)) h₁ h₂

/-- Both runs pass the validation, or neither does. -/
theorem validateRestProps_eq (h : List.Forall₂ (Close printsRaw) p₁ p₂)
    (hcred : SamePat p₁ p₂ "credential") (htoken : SamePat p₁ p₂ "token") (profile : Option String) :
    validateRestProps p₁ profile = validateRestProps p₂ profile := by
  have hfilter : ∀ key, SamePat p₁ p₂ key →
      Option.Rel (fun v w => Alike (snowflakePatSecret v) (snowflakePatSecret w)) (p₁.getNonempty key)
        (p₂.getNonempty key) := by
    intro key hpat
    refine rel_mono (rel_filter (rel_and (get_rel h key) hpat) ?_) fun v w hvw => hvw.2
    intro v w hvw
    simp only [ne_eq, decide_not, hvw.1.1.eq_empty_iff]
  have hpat : len (snowflakePatSecret (((p₁.getNonempty "credential").or
      (p₁.getNonempty "token")).getD "")) =
      len (snowflakePatSecret (((p₂.getNonempty "credential").or (p₂.getNonempty "token")).getD "")) := by
    have hor := rel_or (hfilter "credential" hcred) (hfilter "token" htoken)
    exact (rel_getD hor (Alike.refl _)).length
  have hscope : p₁.get "scope" = p₂.get "scope" := get_eq h (by decide)
  have hscope' : p₁.get "oauth2-scope" = p₂.get "oauth2-scope" := get_eq h (by decide)
  have hhorizon : validateSnowflakeHorizon p₁ = validateSnowflakeHorizon p₂ := by
    simp only [validateSnowflakeHorizon, hpat, hscope, hscope']
  have huri : p₁.getNonempty "uri" = p₂.getNonempty "uri" := getNonempty_eq h (by decide)
  have hsome : ∀ key, (p₁.getNonempty key).isSome = (p₂.getNonempty key).isSome :=
    fun key => rel_isSome (getNonempty_rel h key)
  rw [validateRestProps, validateRestProps, huri, hsome, hsome, hhorizon]

theorem propertyLine_eq (h : List.Forall₂ (Close printsRaw) p₁ p₂) (key : String) :
    propertyLine p₁ key = propertyLine p₂ key := by
  refine rel_eq (rel_bind (get_rel h key) (fun v w hvw => ?_)) fun _ _ heq => heq
  have hshown : shownValue key v = shownValue key w := by
    unfold shownValue
    cases hkey : redactsKey key with
    | true => exact redactSecret_congr hvw.1
    | false => rw [hvw.2 (by rw [printsRaw, hkey]; rfl)]
  rw [hshown]
  exact rel_refl _

theorem logCatalogBootstrap_eq (h : List.Forall₂ (Close printsRaw) p₁ p₂) :
    logCatalogBootstrap p₁ = logCatalogBootstrap p₂ := by
  have hloop : ∀ keys, logProperties p₁ keys = logProperties p₂ keys := by
    intro keys
    induction keys with
    | nil => rfl
    | cons key keys ih => rw [logProperties, logProperties, propertyLine_eq h key, ih]
  have huri : p₁.get "uri" = p₂.get "uri" := get_eq h (by decide)
  have hwarehouse : p₁.get "warehouse" = p₂.get "warehouse" := get_eq h (by decide)
  have hserver : p₁.get "oauth2-server-uri" = p₂.get "oauth2-server-uri" := get_eq h (by decide)
  have hurls : icebergRestUrls p₁ = icebergRestUrls p₂ := by
    rw [icebergRestUrls, icebergRestUrls, huri, hwarehouse, hserver]
  rw [logCatalogBootstrap, logCatalogBootstrap, sortedKeys_eq h, hloop, hurls]

theorem loadTableVended_lines_eq (env : HttpEnv) (h : List.Forall₂ (Close printsRaw) p₁ p₂)
    (hpat : SamePat p₁ p₂ "credential") (hab : Option.Rel SameReply a b)
    (hbody : (p₁.getNonempty "token").isSome ∨ Option.Rel (fun a b => a.body = b.body) a b)
    (table : TableIdent) (status : Option ℕ) :
    (loadTableVended env p₁ table a status).lines = (loadTableVended env p₂ table b status).lines := by
  have huri : p₁.getNonempty "uri" = p₂.getNonempty "uri" := getNonempty_eq h (by decide)
  have hwarehouse : p₁.get "warehouse" = p₂.get "warehouse" := get_eq h (by decide)
  have hprefix : p₁.get "prefix" = p₂.get "prefix" := get_eq h (by decide)
  have hurl : ∀ uri, tableEndpoint env uri table p₁ = tableEndpoint env uri table p₂ := by
    intro uri
    rw [tableEndpoint, tableEndpoint, Props.getNonempty, Props.getNonempty, hwarehouse, hprefix]
  have hheaders : catalogRequestHeaders p₁ = catalogRequestHeaders p₂ := by
    rw [catalogRequestHeaders, catalogRequestHeaders, headerProps_eq h]
  refine Same.lines (R := fun _ _ => True) ?_
  simp only [loadTableVended, huri, hurl, hheaders]
  refine (Same.refl _).bind fun uri _ heq => ?_
  subst heq
  refine (exchangePat_same env h hpat hab hbody).bind fun t u htu => ?_
  rw [redactSecret_congr htu.1]
  refine (Same.refl _).bind fun redacted _ heq => ?_
  subst heq
  refine (Same.say rfl).bind fun _ _ _ => ?_
  refine (Same.refl _).bind fun code _ heq => ?_
  subst heq
  exact Same.say rfl

theorem logTables_eq (env : HttpEnv) (h : List.Forall₂ (Close printsRaw) p₁ p₂)
    (hpat : SamePat p₁ p₂ "credential") {o₁ o₂ : ℕ → Option OAuthReply}
    (hoauth : ∀ n, Option.Rel SameReply (o₁ n) (o₂ n))
    (hbody : (p₁.getNonempty "token").isSome ∨
      ∀ n, Option.Rel (fun a b => a.body = b.body) (o₁ n) (o₂ n))
    (n : ℕ) (tables : List (TableIdent × Option ℕ)) :
    logTables env p₁ o₁ n tables = logTables env p₂ o₂ n tables := by
  induction tables generalizing n with
  | nil => rfl
  | cons t rest ih =>
      obtain ⟨table, status⟩ := t
      have hbody' := hbody.imp_right fun hall => hall n
      rw [logTables, logTables, loadTableVended_lines_eq env h hpat (hoauth n) hbody', ih]

/-- What the two catalogs keep when the bootstrap is over. -/
structure SameCatalog (r₁ r₂ : RestRun) (q₁ q₂ : Props) : Prop where
  props : List.Forall₂ (Close printsRaw) q₁ q₂
  pat : SamePat q₁ q₂ "credential"
  reply : (q₁.getNonempty "token").isSome ∨
    ∀ n, Option.Rel (fun a b => a.body = b.body) (r₁.oauth n) (r₂.oauth n)

theorem SameCatalog.insert_token {r₁ r₂ : RestRun} (h : SameCatalog r₁ r₂ p₁ p₂) {t u : String}
    (htu : Alike t u) (hne : (p₁.getNonempty "token").isSome → t ≠ "") :
    SameCatalog r₁ r₂ ((p₁.insert "token" t).remove "credential")
      ((p₂.insert "token" u).remove "credential") := by
  have hclose : Close printsRaw ("token", t) ("token", u) :=
    ⟨rfl, htu, fun hraw => absurd hraw (show ¬ printsRaw "token" = true by decide)⟩
  refine ⟨remove_close (insert_close h.props hclose) _, ?_, ?_⟩
  · unfold SamePat
    rw [Props.get_remove_self, Props.get_remove_self]
    exact .none
  · refine h.reply.imp_left fun hsome => ?_
    rw [Props.getNonempty, Props.get_remove_of_ne _ (by decide), Props.get_insert_self,
      Option.filter_some_pos (by simpa using hne hsome)]
    rfl

theorem catalogProps_same {r₁ r₂ : RestRun} (h : SameButSecrets r₁ r₂) (hun : Unexposed r₁ r₂) :
    SameCatalog r₁ r₂ r₁.catalogProps r₂.catalogProps := by
  have hprops := forall₂_close h hun
  have hcred := h.pat "credential" (by simp)
  unfold RestRun.catalogProps
  rw [← h.defaultSchema]
  cases r₁.defaultSchema with
  | none => exact ⟨hprops, hcred, hun.reply⟩
  | some schema =>
      refine ⟨orInsert_close hprops _ _, ?_, ?_⟩
      · unfold SamePat
        rw [Props.get_orInsert_of_ne _ _ (by decide), Props.get_orInsert_of_ne _ _ (by decide)]
        exact hcred
      · unfold Props.getNonempty
        rw [Props.get_orInsert_of_ne _ _ (by decide)]
        exact hun.reply

/-- The bootstrap writes the same in both runs. -/
theorem connect_same (env : HttpEnv) (profile : Option String) {r₁ r₂ : RestRun}
    (h : SameCatalog r₁ r₂ p₁ p₂) (hab : Option.Rel SameReply (r₁.oauth 0) (r₂.oauth 0)) :
    Same (SameCatalog r₁ r₂) (connect env profile p₁ (r₁.oauth 0))
      (connect env profile p₂ (r₂.oauth 0)) := by
  have htoken : (p₁.remove "header.X-Iceberg-Access-Delegation").getNonempty "token" =
      p₁.getNonempty "token" := by
    unfold Props.getNonempty
    rw [Props.get_remove_of_ne _ (by decide)]
  -- the properties without the delegation header
  have hrest : SameCatalog r₁ r₂ (p₁.remove "header.X-Iceberg-Access-Delegation")
      (p₂.remove "header.X-Iceberg-Access-Delegation") := by
    refine ⟨remove_close h.props _, ?_, ?_⟩
    · unfold SamePat
      rw [Props.get_remove_of_ne _ (by decide), Props.get_remove_of_ne _ (by decide)]
      exact h.pat
    · rw [htoken]
      exact h.reply
  have huri : (p₁.remove "header.X-Iceberg-Access-Delegation").get "uri" =
      (p₂.remove "header.X-Iceberg-Access-Delegation").get "uri" := get_eq hrest.props (by decide)
  simp only [connect, huri]
  split
  · refine (exchangePat_same env hrest.props hrest.pat hab
      (hrest.reply.imp_right fun hall => hall 0)).bind fun t u htu => ?_
    have hne : (p₁.getNonempty "token").isSome → t ≠ "" := by
      rw [← htoken]
      exact htu.2
    rw [logCatalogBootstrap_eq (hrest.insert_token htu.1 htu.2).props]
    exact (Same.refl _).bind fun _ _ _ => .pure (h.insert_token htu.1 hne)
  · rw [logCatalogBootstrap_eq hrest.props]
    exact (Same.refl _).bind fun _ _ _ => .pure h

theorem openRest_same (env : HttpEnv) {r₁ r₂ : RestRun} (h : SameButSecrets r₁ r₂)
    (hun : Unexposed r₁ r₂) : Same (SameCatalog r₁ r₂) (openRest env r₁) (openRest env r₂) := by
  have hvalid := validateRestProps_eq (forall₂_close h hun) (h.pat "credential" (by simp))
    (h.pat "token" (by simp)) r₁.profile
  unfold openRest
  rw [← h.profile, hvalid]
  exact (Same.refl _).bind fun _ _ _ => connect_same env r₁.profile (catalogProps_same h hun) (h.oauth 0)

/-- **The log of two runs that differ only in secrets** is the same, line for line, when the secrets that
the code prints as they are agree. -/
theorem log_eq_of_unexposed (env : HttpEnv) {r₁ r₂ : RestRun} (h : SameButSecrets r₁ r₂)
    (hun : Unexposed r₁ r₂) : r₁.log env = r₂.log env := by
  obtain ⟨hlines, hresult⟩ := openRest_same env h hun
  unfold RestRun.log
  rw [hlines, ← h.tables]
  revert hresult
  generalize (openRest env r₁).result = x
  generalize (openRest env r₂).result = y
  intro hresult
  cases hresult with
  | none => rfl
  | @some q₁ q₂ hq =>
      have htables := logTables_eq env hq.props hq.pat h.oauth hq.reply 1 r₁.tables
      simp only [headerProps_eq hq.props, htables]

end

/-! ### Runs -/

/-- An environment that leaves names as they are and takes every header. -/
def plainEnv : HttpEnv where
  toUppercase := id
  showStatus := toString
  clientOk := fun _ => true

/-- A catalog with a bearer token and one more property, and one table load. -/
def bearerRun (token key value : String) : RestRun where
  props := [(key, value), ("token", token), ("uri", "https://example.com/iceberg/v1")]
  profile := none
  defaultSchema := none
  oauth := fun _ => none
  tables := [(⟨["public"], "employee"⟩, some 200)]

/-- Two runs of a catalog with a bearer token. -/
theorem bearerRun_sameButSecrets {token token' key value value' : String} (htoken : Alike token token')
    (hpat : Alike (snowflakePatSecret token) (snowflakePatSecret token'))
    (hkey : namesSecret key = true) (hvalue : Alike value value') (hcred : key ≠ "credential")
    (hother : key ≠ "token") :
    SameButSecrets (bearerRun token key value) (bearerRun token' key value') := by
  have hget : ∀ t v, (bearerRun t key v).props.get "credential" = none ∧
      (bearerRun t key v).props.get "token" = some t := by
    intro t v
    simp [bearerRun, Props.get, List.lookup_cons, beq_false_of_ne hcred.symm,
      beq_false_of_ne hother.symm]
  refine ⟨.cons ⟨rfl, hvalue, ?_⟩ (.cons ⟨rfl, htoken, ?_⟩ (.cons (.refl _) .nil)), ?_, rfl, rfl,
    fun _ => .none, rfl⟩
  · simp [hkey]
  · exact fun hfixed => absurd hfixed (show ¬ (!namesSecret "token") = true by decide)
  · intro k hk
    simp only [List.mem_cons, List.not_mem_nil, or_false] at hk
    obtain rfl | rfl := hk
    · rw [(hget token value).1, (hget token' value').1]
      exact .none
    · rw [(hget token value).2, (hget token' value').2]
      exact .some hpat

/-- Two bearer tokens and two S3 secrets that look alike leave the same log. -/
theorem bearerRun_log :
    (bearerRun "aaaa-1-bbbb" "s3.secret-access-key" "cccc-3-dddd").log plainEnv =
      (bearerRun "aaaa-2-bbbb" "s3.secret-access-key" "cccc-4-dddd").log plainEnv := by
  refine log_eq_of_unexposed plainEnv (bearerRun_sameButSecrets (by decide +kernel) (by decide +kernel)
    (by decide +kernel) (by decide +kernel) (by decide) (by decide)) ⟨.inl (by decide +kernel), ?_⟩
  have hraw : ∀ {v w : String}, namesSecret "s3.secret-access-key" = true →
      printsRaw "s3.secret-access-key" = true → v = w :=
    fun _ hraw => absurd hraw (by decide +kernel)
  have htoken : ∀ {v w : String}, namesSecret "token" = true → printsRaw "token" = true → v = w :=
    fun _ hraw => absurd hraw (by decide +kernel)
  exact .cons hraw (.cons htoken (.cons (fun _ _ => rfl) .nil))

/-- A catalog that exchanges a PAT for a bearer token. -/
def exchangeRun (token : String) : RestRun where
  props := [("credential", "eyJ0eXAiOiJKV1QiLCJhbGciOiJIUzI1NiJ9.test-pat-secret"),
    ("oauth2-scope", "session:role:R"),
    ("oauth2-server-uri", "https://xy.snowflakecomputing.com/polaris/api/catalog/v1/oauth/tokens"),
    ("uri", "https://xy.snowflakecomputing.com/polaris/api/catalog")]
  profile := some "snowflake-horizon"
  defaultSchema := none
  oauth := fun _ => some ⟨200, "\x7b\"access_token\":\"" ++ token ++ "\"\x7d", some token⟩
  tables := []

/-- Two runs whose token requests are answered with different tokens. -/
theorem exchangeRun_sameButSecrets {t u : String} (h : Alike t u) :
    SameButSecrets (exchangeRun t) (exchangeRun u) := by
  refine ⟨?_, ?_, rfl, rfl, ?_, rfl⟩
  · exact .cons (.refl _) (.cons (.refl _) (.cons (.refl _) (.cons (.refl _) .nil)))
  · intro key _
    exact rel_mono (rel_refl _) fun v w hvw => hvw ▸ Alike.refl _
  · intro n
    exact .some ⟨rfl, .some h, .inr ⟨t, u, _, _, rfl, rfl, rfl, rfl⟩⟩

/-- The three sites: the body of the reply to the token request, a property whose key has none of the
three words, and a request header.  The runs differ in one secret each, and so do their logs. -/
theorem log_ne_of_exposed :
    (SameButSecrets (exchangeRun "aaaa-1-bbbb") (exchangeRun "aaaa-2-bbbb") ∧
      (exchangeRun "aaaa-1-bbbb").log plainEnv ≠ (exchangeRun "aaaa-2-bbbb").log plainEnv) ∧
    (SameButSecrets (bearerRun "t" "s3.access-key-id" "AKIA-1-WXYZ")
        (bearerRun "t" "s3.access-key-id" "AKIA-2-WXYZ") ∧
      (bearerRun "t" "s3.access-key-id" "AKIA-1-WXYZ").log plainEnv ≠
        (bearerRun "t" "s3.access-key-id" "AKIA-2-WXYZ").log plainEnv) ∧
    (SameButSecrets (bearerRun "t" "header.X-Auth-Token" "aaaa-1-bbbb")
        (bearerRun "t" "header.X-Auth-Token" "aaaa-2-bbbb") ∧
      (bearerRun "t" "header.X-Auth-Token" "aaaa-1-bbbb").log plainEnv ≠
        (bearerRun "t" "header.X-Auth-Token" "aaaa-2-bbbb").log plainEnv) := by
  refine ⟨⟨exchangeRun_sameButSecrets (by decide +kernel), by decide +kernel⟩, ⟨?_, by decide +kernel⟩, ?_,
    by decide +kernel⟩
  · exact bearerRun_sameButSecrets (.refl _) (.refl _) (by decide +kernel) (by decide +kernel) (by decide)
      (by decide)
  · exact bearerRun_sameButSecrets (.refl _) (.refl _) (by decide +kernel) (by decide +kernel) (by decide)
      (by decide)

end IcebergDb.Catalog
