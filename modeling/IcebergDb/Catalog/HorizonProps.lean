import IcebergDb.Catalog.RestAuth

/-!
# The properties of a Snowflake Horizon catalog

`profile.rs` expands and validates the properties of a catalog, and `exchange_pat` checks them again when it uses
them.

* `applyProfile` — `apply_profile`, whose steps are functions of their own;
* `LocalChecks`, `OnlyHttpFails` — what `exchange_pat` finds out without a request;
* `Sufficient` — properties that are validated, of a catalog that is opened as a Horizon catalog, pass;
* `Expanded` and `Redactable` — the profile has written the keys that are read, and the token can be printed;
* `sufficient_iff` — **validated properties are sufficient exactly if a bearer token is given, or the keys are
  written and the token can be printed.**
-/

namespace IcebergDb.Catalog

open Text Logged

/-! ### The source -/

/-- `normalize_rest_headers`. -/
def normalizeRestHeaders (props : Props) : Props :=
  (props.filterMap fun (key, value) =>
    (stripPrefix "rest.headers." key).map fun name => ("header." ++ name, value)).foldl
      (fun props header => props.orInsert header.1 header.2) props

/-- `username` becomes the client id. -/
def moveUsername (props : Props) : Props :=
  match props.get "username" with
  | some username => (props.remove "username").orInsert "oauth2-client-id" username
  | none => props

/-- The shorthand of an account becomes a URL. -/
def expandUri (props : Props) : Props :=
  match props.get "uri" with
  | some uri =>
      if !contains "snowflakecomputing.com" uri && !startsWith "http" uri then
        props.insert "uri" ("https://" ++ uri ++ ".snowflakecomputing.com/polaris/api/catalog")
      else props
  | none => props

/-- `token` becomes `credential`. -/
def moveToken (props : Props) : Props :=
  match props.get "token" with
  | some pat => (props.remove "token").insert "credential" (trim pat)
  | none => props

/-- `scope` becomes `oauth2-scope`. -/
def moveScope (props : Props) : Props :=
  match props.get "scope" with
  | some scope => (props.remove "scope").insert "oauth2-scope" (trim scope)
  | none => props

/-- The token endpoint is below `uri`. -/
def addOauthUri (props : Props) : Props :=
  match props.get "uri" with
  | some uri =>
      props.orInsert "oauth2-server-uri"
        (if uri.toList.getLast? = some '/' then uri ++ "v1/oauth/tokens" else uri ++ "/v1/oauth/tokens")
  | none => props

/-- `apply_snowflake_horizon`. -/
def applySnowflakeHorizon (props : Props) : Props :=
  addOauthUri (moveScope (moveToken (expandUri (moveUsername props))))

/-- The profile is the one of Snowflake Horizon, by its name. -/
def namesHorizon (profile : Option String) : Bool := profile.any (toAsciiLowercase · == "snowflake-horizon")

/-- `apply_profile`. -/
def applyProfile (profile : Option String) (props : Props) : Props :=
  if namesHorizon profile then applySnowflakeHorizon (normalizeRestHeaders props) else normalizeRestHeaders props

/-! ### Sufficiency -/

/-- The checks of `exchange_pat` that come before the request; with a bearer token there are none. -/
def LocalChecks (props : Props) : Prop :=
  (props.getNonempty "token").isSome = true ∨
    ((patFromProps props).isSome = true ∧ (props.get "oauth2-server-uri").isSome = true ∧
      (oauthScope props).isSome = true)

/-- `exchange_pat` returns a bearer if the request is answered with one. -/
def OnlyHttpFails (env : HttpEnv) (props : Props) : Prop :=
  ∀ (reply : OAuthReply) (token : String), 200 ≤ reply.status → reply.status < 300 → reply.token = some token →
    (exchangePat env props (some reply)).result.isSome = true

/-- Validated properties of a Horizon catalog pass all checks of `exchange_pat`. -/
def Sufficient (env : HttpEnv) (profile : Option String) (props : Props) : Prop :=
  validateRestProps (applyProfile profile props) profile = true →
    isSnowflakeHorizonProfile profile ((applyProfile profile props).get "uri") = true →
      LocalChecks (applyProfile profile props) ∧ OnlyHttpFails env (applyProfile profile props)

/-- The keys that are read first are written: by the profile, or by hand. -/
def Expanded (profile : Option String) (props : Props) : Prop :=
  namesHorizon profile = true ∨
    ((props.get "oauth2-server-uri").isSome = true ∧
      ∀ scope ∈ props.get "oauth2-scope", startsWith "session:role:" scope = true)

/-- The ends of the PAT, four bytes each, are characters. -/
def Redactable (props : Props) : Prop :=
  ∀ cred ∈ props.getNonempty "credential",
    Utf8.IsBoundary 4 (snowflakePatSecret cred).toList ∧
      Utf8.IsBoundary (len (snowflakePatSecret cred) - 4) (snowflakePatSecret cred).toList

section

variable {env : HttpEnv} {props : Props} {profile : Option String} {key : String}

/-! ### What the profile writes -/

theorem Props.isSome_get_orInsert (props : Props) (key value : String) :
    ((props.orInsert key value).get key).isSome = true := by
  unfold Props.orInsert
  split
  · assumption
  · rw [Props.get_insert_self]
    rfl

theorem get_addOauthUri_of_ne (h : key ≠ "oauth2-server-uri") : (addOauthUri props).get key = props.get key := by
  unfold addOauthUri
  split
  · exact props.get_orInsert_of_ne _ h
  · rfl

theorem isSome_get_addOauthUri (h : (props.get "uri").isSome = true) :
    ((addOauthUri props).get "oauth2-server-uri").isSome = true := by
  obtain ⟨uri, huri⟩ := Option.isSome_iff_exists.mp h
  simp only [addOauthUri, huri]
  exact props.isSome_get_orInsert _ _

theorem get_moveScope_of_ne (hscope : key ≠ "scope") (hoauth : key ≠ "oauth2-scope") :
    (moveScope props).get key = props.get key := by
  unfold moveScope
  split
  · rw [Props.get_insert_of_ne _ _ hoauth, Props.get_remove_of_ne _ hscope]
  · rfl

theorem get_moveScope_scope : (moveScope props).get "scope" = none := by
  unfold moveScope
  split
  · rw [Props.get_insert_of_ne _ _ (by decide), Props.get_remove_self]
  · assumption

theorem get_moveToken_token : (moveToken props).get "token" = none := by
  unfold moveToken
  split
  · rw [Props.get_insert_of_ne _ _ (by decide), Props.get_remove_self]
  · assumption

/-- After the profile the token is a credential, the scope is the OAuth scope, and the token endpoint is known. -/
theorem applySnowflakeHorizon_spec (props : Props) :
    (applySnowflakeHorizon props).get "token" = none ∧ (applySnowflakeHorizon props).get "scope" = none ∧
      (((applySnowflakeHorizon props).get "uri").isSome = true →
        ((applySnowflakeHorizon props).get "oauth2-server-uri").isSome = true) := by
  refine ⟨?_, ?_, fun huri => ?_⟩
  · rw [applySnowflakeHorizon, get_addOauthUri_of_ne (by decide), get_moveScope_of_ne (by decide) (by decide),
      get_moveToken_token]
  · rw [applySnowflakeHorizon, get_addOauthUri_of_ne (by decide), get_moveScope_scope]
  · rw [applySnowflakeHorizon, get_addOauthUri_of_ne (by decide)] at huri
    exact isSome_get_addOauthUri huri

/-! ### What `exchange_pat` reads -/

/-- A form can be written if the secrets in it can be redacted. -/
theorem isSome_formBody_iff (params : List (String × String)) :
    (formBody params).isSome = true ↔ ∀ p ∈ params, p.1 = "client_secret" → (redactSecret p.2).isSome = true := by
  rw [formBody, isSome_bind_of_forall _ fun _ => rfl, isSome_mapM]
  refine forall₂_congr fun p _ => ?_
  by_cases hkey : p.1 = "client_secret"
  · rw [forall_prop_of_true hkey]
    simp only [if_pos hkey]
    rw [isSome_bind_of_forall _ fun _ => rfl]
  · simp only [if_neg hkey]
    exact iff_of_true rfl fun h => absurd h hkey

theorem isSome_formBody_secret (scope pat : String) (client : List (String × String))
    (hclient : client = [] ∨ ∃ id, client = [("client_id", id)]) :
    (formBody ([("grant_type", "client_credentials"), ("scope", scope)] ++ client ++
      [("client_secret", pat)])).isSome = (redactSecret pat).isSome := by
  have hother : ∀ p ∈ [("grant_type", "client_credentials"), ("scope", scope)] ++ client, p.1 ≠ "client_secret" := by
    intro p hp
    rcases List.mem_append.mp hp with hp | hp
    · simp only [List.mem_cons, List.not_mem_nil, or_false] at hp
      rcases hp with rfl | rfl
      · decide
      · show "scope" ≠ "client_secret"
        decide
    · rcases hclient with rfl | ⟨id, rfl⟩
      · cases hp
      · rw [List.mem_singleton.mp hp]
        show "client_id" ≠ "client_secret"
        decide
  rw [Bool.eq_iff_iff, isSome_formBody_iff]
  constructor
  · intro h
    exact h ("client_secret", pat) (List.mem_append_right _ List.mem_cons_self) rfl
  · intro h p hp hkey
    rcases List.mem_append.mp hp with hp | hp
    · exact absurd hkey (hother p hp)
    · rw [List.mem_singleton.mp hp]
      exact h

/-- Without a bearer token, `exchange_pat` succeeds after the checks, if the token can be printed. -/
theorem isSome_exchangePat (hnone : props.getNonempty "token" = none) {reply : OAuthReply} {token : String}
    (hlow : 200 ≤ reply.status) (hhigh : reply.status < 300) (htoken : reply.token = some token) :
    (exchangePat env props (some reply)).result.isSome = true ↔ ∃ pat, patFromProps props = some pat ∧
      (props.get "oauth2-server-uri").isSome = true ∧ (oauthScope props).isSome = true ∧
      (redactSecret pat).isSome = true := by
  have hstatus : 200 ≤ reply.status ∧ reply.status < 300 := ⟨hlow, hhigh⟩
  simp only [exchangePat, hnone, result_bind, result_say, result_ofOption, Option.bind_some, if_pos hstatus, htoken]
  have hno : ∀ {p : Prop}, (p → False) → (false = true ↔ p) := fun h => iff_of_false Bool.false_ne_true h
  cases patFromProps props with
  | none =>
      refine hno ?_
      rintro ⟨pat, hpat, -⟩
      cases hpat
  | some pat =>
      cases props.get "oauth2-server-uri" with
      | none =>
          refine hno ?_
          rintro ⟨-, -, huri, -⟩
          cases huri
      | some uri =>
          cases oauthScope props with
          | none =>
              refine hno ?_
              rintro ⟨-, -, -, hscope, -⟩
              cases hscope
          | some scope =>
              simp only [Option.bind_some, Option.isSome_bind, Option.some.injEq, exists_eq_left', Option.isSome_some,
                true_and, Option.any_true]
              rw [isSome_formBody_secret]
              cases oauthClientId props with
              | none => exact .inl rfl
              | some id => exact .inr ⟨id, rfl⟩

theorem onlyHttpFails_of_none (hnone : props.getNonempty "token" = none) :
    OnlyHttpFails env props ↔ ∃ pat, patFromProps props = some pat ∧
      (props.get "oauth2-server-uri").isSome = true ∧ (oauthScope props).isSome = true ∧
      (redactSecret pat).isSome = true := by
  constructor
  · intro h
    have hreply := h ⟨200, "", some ""⟩ "" (by decide) (by decide) rfl
    have htoken : (⟨200, "", some ""⟩ : OAuthReply).token = some "" := rfl
    exact (isSome_exchangePat hnone (by decide) (by decide) htoken).mp hreply
  · intro h reply token hlow hhigh htoken
    exact (isSome_exchangePat hnone hlow hhigh htoken).mpr h

theorem onlyHttpFails_of_token {token : String} (h : props.getNonempty "token" = some token) :
    OnlyHttpFails env props := by
  intro reply _ _ _ _
  simp only [exchangePat, h]
  rfl

/-! ### Validated properties -/

/-- What the validation of a Horizon catalog says about the properties. -/
theorem of_validateRestProps (hvalid : validateRestProps props profile = true)
    (hhorizon : isSnowflakeHorizonProfile profile (props.get "uri") = true) :
    (props.get "uri").isSome = true ∧
      ((props.getNonempty "token").isSome = true ∨ (props.getNonempty "credential").isSome = true) ∧
      validateSnowflakeHorizon props = true := by
  unfold validateRestProps at hvalid
  cases huri : props.getNonempty "uri" with
  | none =>
      rw [huri] at hvalid
      cases hvalid
  | some uri =>
      simp only [huri, Bool.and_eq_true, Bool.or_eq_true, Bool.not_eq_true'] at hvalid
      obtain ⟨⟨-, hcred⟩, hprofile⟩ := hvalid
      have hget : props.get "uri" = some uri := (Option.filter_eq_some_iff.mp huri).1
      rw [hget] at hhorizon
      refine ⟨by rw [hget]; rfl, hcred, hprofile.resolve_left ?_⟩
      rw [hhorizon]
      decide

/-- Without a bearer token, the credential is a PAT. -/
theorem isSome_patFromProps (hnone : props.getNonempty "token" = none)
    (hcred : (props.getNonempty "credential").isSome = true) (hvalid : validateSnowflakeHorizon props = true) :
    ∃ cred, props.getNonempty "credential" = some cred ∧ patFromProps props = some (snowflakePatSecret cred) ∧
      32 ≤ len (snowflakePatSecret cred) := by
  obtain ⟨cred, hget⟩ := Option.isSome_iff_exists.mp hcred
  simp only [validateSnowflakeHorizon, hget, hnone, Option.some_or, Option.getD_some, Bool.and_eq_true,
    decide_eq_true_eq] at hvalid
  refine ⟨cred, hget, ?_, hvalid.2⟩
  have hlong : ¬ len (snowflakePatSecret cred) < 32 := by omega
  simp only [patFromProps, hget, Option.bind_eq_bind, Option.bind_some, if_neg hlong]

/-- The scope that `exchange_pat` reads is the validated one, if there is no other OAuth scope. -/
theorem isSome_oauthScope_iff (hvalid : validateSnowflakeHorizon props = true) :
    (oauthScope props).isSome = true ↔
      ∀ scope ∈ props.get "oauth2-scope", startsWith "session:role:" scope = true := by
  have hnonempty : ∀ scope, startsWith "session:role:" scope = true → scope ≠ "" := by
    rintro scope hstart rfl
    exact absurd hstart (by decide)
  simp only [validateSnowflakeHorizon, Bool.and_eq_true] at hvalid
  obtain ⟨hscope, -⟩ := hvalid
  unfold oauthScope
  cases hoauth : props.get "oauth2-scope" with
  | some scope =>
      rw [Option.some_or, Option.isSome_filter]
      constructor
      · rintro h _ ⟨⟩
        simpa using (Bool.and_eq_true _ _ ▸ h).2
      · intro h
        have hstart := h scope rfl
        simpa [hstart] using hnonempty scope hstart
  | none =>
      rw [hoauth, Option.or_none] at hscope
      rw [Option.none_or]
      cases hget : props.get "scope" with
      | none =>
          rw [hget] at hscope
          cases hscope
      | some scope =>
          rw [hget] at hscope
          refine ⟨(fun _ _ h => by cases h), fun _ => ?_⟩
          rw [Option.isSome_filter]
          exact hscope

/-- Without a bearer token: the keys are there, and the token can be printed. -/
theorem sufficient_of_none (hvalid : validateRestProps props profile = true)
    (hhorizon : isSnowflakeHorizonProfile profile (props.get "uri") = true)
    (hnone : props.getNonempty "token" = none) :
    LocalChecks props ∧ OnlyHttpFails env props ↔
      ((props.get "oauth2-server-uri").isSome = true ∧
        ∀ scope ∈ props.get "oauth2-scope", startsWith "session:role:" scope = true) ∧ Redactable props := by
  obtain ⟨-, hcred, hprofile⟩ := of_validateRestProps hvalid hhorizon
  rw [hnone] at hcred
  obtain ⟨cred, hget, hpat, hlong⟩ := isSome_patFromProps hnone (hcred.resolve_left Bool.false_ne_true) hprofile
  have hredact : (redactSecret (snowflakePatSecret cred)).isSome = true ↔ Redactable props := by
    rw [isSome_redactSecret_iff, Redactable, hget]
    constructor
    · rintro h _ ⟨⟩
      exact h.resolve_left (by omega)
    · exact fun h => .inr (h cred rfl)
  rw [onlyHttpFails_of_none hnone, LocalChecks, hnone, hpat, isSome_oauthScope_iff hprofile]
  constructor
  · rintro ⟨-, pat, hsome, huri, hscope, hshown⟩
    cases hsome
    exact ⟨⟨huri, hscope⟩, hredact.mp hshown⟩
  · rintro ⟨⟨huri, hscope⟩, hshown⟩
    exact ⟨.inr ⟨rfl, huri, hscope⟩, _, rfl, huri, hscope, hredact.mpr hshown⟩

/-- The profile writes the keys. -/
theorem expanded_of_namesHorizon (hname : namesHorizon profile = true)
    (hvalid : validateRestProps (applyProfile profile props) profile = true)
    (hhorizon : isSnowflakeHorizonProfile profile ((applyProfile profile props).get "uri") = true) :
    (applyProfile profile props).getNonempty "token" = none ∧
      ((applyProfile profile props).get "oauth2-server-uri").isSome = true ∧
        ∀ scope ∈ (applyProfile profile props).get "oauth2-scope", startsWith "session:role:" scope = true := by
  obtain ⟨huri, -, hprofile⟩ := of_validateRestProps hvalid hhorizon
  rw [applyProfile, if_pos hname] at huri hprofile ⊢
  obtain ⟨htoken, hscope, hserver⟩ := applySnowflakeHorizon_spec (normalizeRestHeaders props)
  refine ⟨?_, hserver huri, ?_⟩
  · rw [Props.getNonempty, htoken]
    rfl
  · -- the scope that was validated is the OAuth scope
    intro scope hget
    simp only [validateSnowflakeHorizon, hscope, Option.none_or, Option.mem_def.mp hget, Option.any_some,
      Bool.and_eq_true] at hprofile
    exact hprofile.1.2

end

/-- **Validated properties of a Horizon catalog are sufficient exactly if a bearer token is given, or the keys that
are read are written and the PAT can be printed.** -/
theorem sufficient_iff (env : HttpEnv) (profile : Option String) (props : Props) :
    Sufficient env profile props ↔
      (validateRestProps (applyProfile profile props) profile = true →
        isSnowflakeHorizonProfile profile ((applyProfile profile props).get "uri") = true →
          ((applyProfile profile props).getNonempty "token").isSome = true ∨
            (Expanded profile (applyProfile profile props) ∧ Redactable (applyProfile profile props))) := by
  refine forall_congr' fun hvalid => forall_congr' fun hhorizon => ?_
  cases htoken : (applyProfile profile props).getNonempty "token" with
  | some token =>
      refine ⟨fun _ => .inl rfl, fun _ => ⟨.inl ?_, onlyHttpFails_of_token htoken⟩⟩
      rw [htoken]
      rfl
  | none =>
      rw [sufficient_of_none hvalid hhorizon htoken]
      constructor
      · exact fun ⟨hkeys, hshown⟩ => .inr ⟨.inr hkeys, hshown⟩
      · intro h
        obtain ⟨hkeys, hshown⟩ := h.resolve_left Bool.false_ne_true
        refine ⟨hkeys.elim (fun hname => ?_) id, hshown⟩
        exact (expanded_of_namesHorizon hname hvalid hhorizon).2

/-- A catalog that is configured by hand, with everything that the validation asks for. -/
def handProps : Props :=
  [("credential", "0123456789abcdef0123456789abcdef"), ("scope", "session:role:ANALYST"),
    ("uri", "https://xy.snowflakecomputing.com/polaris/api/catalog")]

/-- A PAT that cannot be printed. -/
def accentedProps : Props :=
  [("scope", "session:role:ANALYST"), ("token", "0éé456789abcdef0123456789abcdef"), ("uri", "xy")]

/-- The first has no token endpoint; of the second all checks pass, but printing the form panics. -/
theorem not_localChecks_hand :
    (validateRestProps (applyProfile none handProps) none = true ∧
        isSnowflakeHorizonProfile none ((applyProfile none handProps).get "uri") = true ∧
        ¬ LocalChecks (applyProfile none handProps)) ∧
      validateRestProps (applyProfile (some "snowflake-horizon") accentedProps) (some "snowflake-horizon") = true ∧
        ¬ Redactable (applyProfile (some "snowflake-horizon") accentedProps) := by
  refine ⟨⟨by decide +kernel, by decide +kernel, ?_⟩, by decide +kernel, ?_⟩
  · rintro (h | ⟨-, h, -⟩)
    · exact absurd h (by decide +kernel)
    · exact absurd h (by decide +kernel)
  · intro h
    have hcut := (h "0éé456789abcdef0123456789abcdef" (by decide +kernel)).1
    rw [← Utf8.isSome_sliceTo_iff] at hcut
    exact absurd hcut (by decide +kernel)

end IcebergDb.Catalog
