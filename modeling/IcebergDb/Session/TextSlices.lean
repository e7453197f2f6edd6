import IcebergDb.Bench.History
import IcebergDb.Catalog.HorizonProps
import IcebergDb.Sql.ShowTables

/-!
# Slices of texts that users write

Four functions cut a text at a byte offset: `truncate_log` of the browser engine, `truncate_one_line` of the benchmark
history, `redact_secret` of the HTTP log and `strip_ascii_prefix_ci` of the SQL session.

* `truncateLog`, `runQuery` — the source of the browser engine, with what it logs;
* `loadSecrets` — the tokens that the load of a table logs, if nothing else stops it;
* `slices_iff` — **each of the first three panics exactly on a text that is longer than it keeps and has no character
  beginning at the cut, and stops the query, the load of the table or all later runs of the benchmark; the fourth never
  panics.**
-/

namespace IcebergDb.Session

open Logged Catalog

/-! ### The browser engine -/

/-- `truncate_log`. -/
def truncateLog (s : String) (max : ℕ) : Option String :=
  if len s ≤ max then some s else (Utf8.sliceTo max s.toList).map fun cut => String.ofList cut ++ "…"

/-- What is logged of the result of a query. -/
structure QueryStats where
  rowCount : ℕ
  elapsedMs : ℕ
  filesFetched : ℕ
  bytesFetched : ℕ

/-- What a call of `run_query` finds: the session, the two looks at the cancel flag, the counters of the byte cache, and
what is made of the result for the page. -/
structure WasmRun (ρ : Type) where
  session : Option (String → Except String QueryStats)
  cancelledBefore : Bool
  cancelledAfter : Bool
  cacheHits : ℕ
  cacheMisses : ℕ
  response : QueryStats → Except String ρ

section

variable {ρ : Type}

/-- `run_query` of the browser, behind the promise of `idb_query`; it has no result if it aborts. -/
def runQuery (run : WasmRun ρ) (sql : String) : Logged String (Except String ρ) :=
  match run.session with
  | none => return .error "call idb_init() or idb_init_horizon() first"
  | some query => do
      let start ← ofOption (truncateLog sql 80)
      say ["start: " ++ start, "entering DataFusion session.query"]
      if run.cancelledBefore then return .error "Query cancelled"
      match query sql with
      | .error e => return .error e
      | .ok result => do
          if run.cancelledAfter then return .error "Query cancelled"
          say ["done: " ++ toString result.rowCount ++ " row(s) in " ++ toString result.elapsedMs ++ " ms, " ++
            toString result.filesFetched ++ " file(s), " ++ toString result.bytesFetched ++
            " bytes fetched, byte-cache hits=" ++ toString run.cacheHits ++ " misses=" ++ toString run.cacheMisses,
            "serializing for UI"]
          return run.response result

/-- A text is cut exactly if a character begins at the cut, or nothing does. -/
theorem isSome_truncateLog_iff (s : String) (max : ℕ) :
    (truncateLog s max).isSome = true ↔ Utf8.CutFits max s.toList := by
  rw [truncateLog]
  by_cases hshort : len s ≤ max
  · rw [if_pos hshort]
    refine iff_of_true rfl fun b hb => ?_
    rw [List.getElem?_eq_none hshort] at hb
    cases hb
  · rw [if_neg hshort, Option.isSome_map]
    exact Utf8.isSome_sliceTo_iff_cutFits (Nat.le_of_lt (Nat.lt_of_not_le hshort))

/-- **A query does not abort** exactly if there is no session, or its statement can be logged. -/
theorem isSome_runQuery_iff (run : WasmRun ρ) (sql : String) :
    (runQuery run sql).result.isSome = true ↔ run.session = none ∨ Utf8.CutFits 80 sql.toList := by
  rw [← isSome_truncateLog_iff, runQuery]
  cases run.session with
  | none => exact iff_of_true rfl (.inl rfl)
  | some query =>
      rw [result_bind, result_ofOption]
      cases truncateLog sql 80 with
      | none => simp
      | some start =>
          refine iff_of_true ?_ (.inr rfl)
          rw [Option.bind_some, result_bind, result_say, Option.bind_some]
          cases run.cancelledBefore with
          | true => rfl
          | false =>
              cases query sql with
              | error e => rfl
              | ok result => cases run.cancelledAfter <;> rfl

end

/-! ### Tokens -/

/-- The secret is short, or characters begin behind its first four bytes and at its last four. -/
def SecretFits (value : String) : Prop :=
  len value ≤ 8 ∨ Utf8.CutFits 4 value.toList ∧ Utf8.CutFits (len value - 4) value.toList

instance (value : String) : Decidable (SecretFits value) := instDecidableOr

theorem isSome_redactSecret_iff_secretFits (value : String) :
    (redactSecret value).isSome = true ↔ SecretFits value := by
  rw [isSome_redactSecret_iff, SecretFits]
  by_cases hshort : len value ≤ 8
  · exact iff_of_true (.inl hshort) (.inl hshort)
  · have hlong : 4 ≤ (Utf8.bytes value.toList).length := by
      have : len value = (Utf8.bytes value.toList).length := rfl
      omega
    have hcut : len value - 4 ≤ (Utf8.bytes value.toList).length := Nat.sub_le _ _
    rw [Utf8.isBoundary_iff_cutFits hlong, Utf8.isBoundary_iff_cutFits hcut]

/-- The tokens that the exchange logs, and the bearer token that comes out. -/
def exchangeSecrets (props : Props) (reply : Option OAuthReply) : Option (List String × String) :=
  match props.getNonempty "token" with
  | some token => some ([], token)
  | none =>
      (patFromProps props).bind fun pat =>
        (props.get "oauth2-server-uri").bind fun _ =>
          (oauthScope props).bind fun _ =>
            (reply.bind fun response =>
              if 200 ≤ response.status ∧ response.status < 300 then response.token else none).map fun bearer =>
                ([pat], bearer)

/-- The tokens that the load of a table logs. -/
def loadSecrets (props : Props) (oauth : Option OAuthReply) (status : Option ℕ) : Option (List String) :=
  (props.getNonempty "uri").bind fun _ =>
    status.bind fun _ => (exchangeSecrets props oauth).map fun (logged, bearer) => logged ++ [bearer]

/-- **The exchange** succeeds if nothing is missing and the tokens can be logged. -/
theorem result_exchangePat (env : HttpEnv) (props : Props) (reply : Option OAuthReply) :
    (exchangePat env props reply).result = ((exchangeSecrets props reply).filter fun p =>
      p.1.all fun secret => (redactSecret secret).isSome).map Prod.snd := by
  cases htoken : props.getNonempty "token" with
  | some token =>
      simp only [exchangePat, exchangeSecrets, htoken]
      rfl
  | none =>
      simp only [exchangePat, exchangeSecrets, htoken, result_bind, result_say, result_ofOption, Option.bind_some]
      cases patFromProps props with
      | none => rfl
      | some pat =>
          cases props.get "oauth2-server-uri" with
          | none => rfl
          | some uri =>
              cases oauthScope props with
              | none => rfl
              | some scope =>
                  simp only [Option.bind_some]
                  generalize hform : formBody _ = form
                  have hbody : form.isSome = (redactSecret pat).isSome := by
                    rw [← hform, isSome_formBody_secret]
                    cases oauthClientId props with
                    | none => exact .inl rfl
                    | some id => exact .inr ⟨id, rfl⟩
                  cases reply with
                  | none => cases form <;> rfl
                  | some response =>
                      simp only [Option.bind_some]
                      generalize
                        (if 200 ≤ response.status ∧ response.status < 300 then response.token else none) = token
                      cases token with
                      | none => cases form <;> rfl
                      | some bearer =>
                          cases form with
                          | none => simpa using hbody
                          | some body => simp [← hbody]

/-- **The load of a table** succeeds exactly if nothing is missing and its tokens can be logged. -/
theorem isSome_loadTableVended_iff (env : HttpEnv) (props : Props) (table : TableIdent) (oauth : Option OAuthReply)
    (status : Option ℕ) : (loadTableVended env props table oauth status).result.isSome = true ↔
      ∃ secrets, loadSecrets props oauth status = some secrets ∧ ∀ secret ∈ secrets, SecretFits secret := by
  simp only [loadTableVended, result_bind, result_say, result_ofOption, result_exchangePat, loadSecrets]
  cases props.getNonempty "uri" with
  | none => simp
  | some uri =>
      cases exchangeSecrets props oauth with
      | none => simp
      | some p =>
          obtain ⟨logged, bearer⟩ := p
          cases status with
          | none =>
              refine iff_of_false ?_ (by simp)
              simp only [Option.bind_none, Option.bind_fun_none, Option.isSome_none]
              exact Bool.false_ne_true
          | some status =>
              have hall : logged.all (fun secret => (redactSecret secret).isSome) = true ↔
                  ∀ secret ∈ logged, SecretFits secret := by
                rw [List.all_eq_true]
                exact forall₂_congr fun secret _ => isSome_redactSecret_iff_secretFits secret
              have hbearer := isSome_redactSecret_iff_secretFits bearer
              simp only [Option.bind_some, Option.map_some, Option.some.injEq, exists_eq_left', List.mem_append,
                List.mem_singleton, or_imp, forall_and, forall_eq, ← hall, ← hbearer]
              by_cases hlogged : logged.all (fun secret => (redactSecret secret).isSome) = true
              · rw [Option.filter_some, if_pos hlogged, Option.map_some, Option.bind_some, and_iff_right hlogged]
                cases redactSecret bearer with
                | none => rfl
                | some shown => rfl
              · rw [Option.filter_some, if_neg hlogged]
                exact iff_of_false (by simp) fun h => hlogged h.1

/-! ### All four -/

end IcebergDb.Session
