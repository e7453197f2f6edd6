import Mathlib.Data.Nat.Notation
import Mathlib.Logic.Function.Basic

/-!
# Cancelling queries in the browser

The browser engine keeps one flag, `QUERY_CANCEL_REQUESTED`, for all queries.  `idb_cancel_query` sets
it, the first poll of every query clears it (in `run_query` and again in `SqlSession::query`), and a
query looks at it before a storage read and once more before it returns.

* `Engine.step` — calls from JavaScript and the steps of the queries between their await points;
* `Stopped` — after a cancel, the query starts no read, sends no request and does not succeed;
* `idbCancelQuery_stops_iff` — a cancel stops a query, as long as no other query begins, exactly when
  the query is running and has no read that is past its check; and a query that is started after the
  last cancel is never stopped by one.

The flag belongs to nobody, so the first poll of any query takes back a cancel that was meant for
another one, or for itself.
-/

namespace IcebergDb.Session

/-! ### The engine -/

/-- Where a query stands.  A running query has a number of reads that are past their check and wait for
a permit of `fetch_limit`, or for their turn on the event loop. -/
inductive QueryPhase where
  | absent
  | started
  | running (queued : ℕ)
  | succeeded
  | cancelled
  | failed
deriving DecidableEq

/-- The browser engine: `SESSION`, `QUERY_CANCEL_REQUESTED` and the queries. -/
structure Engine where
  session : Bool
  cancelRequested : Bool
  phase : ℕ → QueryPhase

/-- The module as loaded. -/
def Engine.init : Engine where
  session := false
  cancelRequested := false
  phase := fun _ => .absent

/-- The calls from JavaScript, and what a query does. -/
inductive Event where
  /-- `idb_init_horizon` stores its session. -/
  | storeSession
  | idbQuery (q : ℕ)
  | idbCancelQuery
  /-- The first poll of the promise. -/
  | poll (q : ℕ)
  /-- `signed_request` passes its check. -/
  | read (q : ℕ)
  /-- A storage read fails with `query cancelled`. -/
  | refuse (q : ℕ)
  /-- A read that is past its check gets its permit, and the request goes out. -/
  | send (q : ℕ)
  | succeed (q : ℕ)
  /-- `run_query` returns `Query cancelled`. -/
  | stop (q : ℕ)
  /-- The query returns another error. -/
  | fail (q : ℕ)
deriving DecidableEq

/-- `reset_query_state`; the counters of the status bar are left out. -/
def Engine.resetQueryState (s : Engine) : Engine :=
  { s with cancelRequested := false }

/-- `request_query_cancel`. -/
def Engine.requestQueryCancel (s : Engine) : Engine :=
  { s with cancelRequested := true }

/-- `query_cancelled`. -/
def Engine.queryCancelled (s : Engine) : Bool :=
  s.cancelRequested

/-- Query `q` goes on to `p`. -/
def Engine.goto (s : Engine) (q : ℕ) (p : QueryPhase) : Engine :=
  { s with phase := Function.update s.phase q p }

/-- `run_query` up to the first await point, which is in `SqlSession::query`. -/
def Engine.runQuery (s : Engine) (q : ℕ) : Engine :=
  if s.session then
    let s := s.resetQueryState
    if s.queryCancelled then s.goto q .cancelled
    else s.resetQueryState.goto q (.running 0)
  else s.goto q .failed

/-- One step.  The check of a read and the check before the result are each in one step with what
follows them up to the next await point. -/
def Engine.step (s : Engine) : Event → Option Engine
  | .storeSession => some { s with session := true }
  | .idbQuery q => if s.phase q = .absent then some (s.goto q .started) else none
  | .idbCancelQuery => some s.requestQueryCancel
  | .poll q => if s.phase q = .started then some (s.runQuery q) else none
  | .read q =>
      match s.phase q with
      | .running queued => if s.queryCancelled then none else some (s.goto q (.running (queued + 1)))
      | _ => none
  | .refuse q =>
      match s.phase q with
      | .running _ => if s.queryCancelled then some s else none
      | _ => none
  | .send q =>
      match s.phase q with
      | .running (queued + 1) => some (s.goto q (.running queued))
      | _ => none
  | .succeed q =>
      match s.phase q with
      | .running _ => if s.queryCancelled then none else some (s.goto q .succeeded)
      | _ => none
  | .stop q =>
      match s.phase q with
      | .running _ => if s.queryCancelled then some (s.goto q .cancelled) else none
      | _ => none
  | .fail q =>
      match s.phase q with
      | .running _ => some (s.goto q .failed)
      | _ => none

/-- The events one after the other. -/
def Engine.run (s : Engine) (es : List Event) : Option Engine :=
  es.foldlM Engine.step s

/-- The query has been started and has not finished. -/
def Engine.Live (s : Engine) (q : ℕ) : Prop :=
  s.phase q = .started ∨ ∃ queued, s.phase q = .running queued

/-- Query `q` starts no storage read, sends no request and does not succeed. -/
def Stopped (q : ℕ) (es : List Event) : Prop :=
  ∀ e ∈ es, e ≠ .read q ∧ e ≠ .send q ∧ e ≠ .succeed q

/-- No other query is polled for the first time while `q` is live. -/
def Undisturbed (q : ℕ) : Engine → List Event → Prop
  | _, [] => True
  | s, e :: es => (∀ q', e = .poll q' → q' ≠ q → ¬ s.Live q) ∧
      ∀ s', s.step e = some s' → Undisturbed q s' es

/-! ### What a step can do -/

section

variable {s s' : Engine} {e : Event} {q : ℕ}

/-- The steps, case by case. -/
inductive Engine.Moves (s : Engine) : Event → Engine → Prop where
  | storeSession : s.Moves .storeSession { s with session := true }
  | idbQuery {q : ℕ} (hq : s.phase q = .absent) : s.Moves (.idbQuery q) (s.goto q .started)
  | idbCancelQuery : s.Moves .idbCancelQuery s.requestQueryCancel
  | poll {q : ℕ} (hq : s.phase q = .started) (hsession : s.session = true) :
      s.Moves (.poll q) (s.resetQueryState.goto q (.running 0))
  | pollFails {q : ℕ} (hq : s.phase q = .started) : s.Moves (.poll q) (s.goto q .failed)
  | read {q n : ℕ} (hq : s.phase q = .running n) (hflag : s.cancelRequested = false) :
      s.Moves (.read q) (s.goto q (.running (n + 1)))
  | refuse {q n : ℕ} (hq : s.phase q = .running n) (hflag : s.cancelRequested = true) :
      s.Moves (.refuse q) s
  | send {q n : ℕ} (hq : s.phase q = .running (n + 1)) : s.Moves (.send q) (s.goto q (.running n))
  | succeed {q n : ℕ} (hq : s.phase q = .running n) (hflag : s.cancelRequested = false) :
      s.Moves (.succeed q) (s.goto q .succeeded)
  | stop {q n : ℕ} (hq : s.phase q = .running n) (hflag : s.cancelRequested = true) :
      s.Moves (.stop q) (s.goto q .cancelled)
  | fail {q n : ℕ} (hq : s.phase q = .running n) : s.Moves (.fail q) (s.goto q .failed)

/-- A step that only a running query can take. -/
theorem of_match_running {p : QueryPhase} {f : ℕ → Option Engine}
    (h : (match p with
      | .running queued => f queued
      | _ => none) = some s') : ∃ queued, p = .running queued ∧ f queued = some s' := by
  cases p with
  | running queued => exact ⟨queued, rfl, h⟩
  | _ => cases h

theorem Engine.moves_of_step (h : s.step e = some s') : s.Moves e s' := by
  cases e with
  | storeSession =>
      cases h
      exact .storeSession
  | idbQuery q =>
      simp only [step, Option.ite_none_right_eq_some, Option.some.injEq] at h
      obtain ⟨hq, rfl⟩ := h
      exact .idbQuery hq
  | idbCancelQuery =>
      cases h
      exact .idbCancelQuery
  | poll q =>
      simp only [step, Option.ite_none_right_eq_some, Option.some.injEq] at h
      obtain ⟨hq, rfl⟩ := h
      unfold runQuery
      by_cases hsession : s.session = true
      · rw [if_pos hsession]
        exact .poll hq hsession
      · rw [if_neg hsession]
        exact .pollFails hq
  | send q =>
      simp only [step] at h
      split at h
      · rename_i n hq
        cases h
        exact .send hq
      · cases h
  | fail q =>
      obtain ⟨n, hq, h⟩ := of_match_running h
      cases h
      exact .fail hq
  | read q =>
      obtain ⟨n, hq, h⟩ := of_match_running h
      cases hflag : s.cancelRequested with
      | false =>
          simp only [queryCancelled, hflag] at h
          cases h
          exact .read hq hflag
      | true => simp [queryCancelled, hflag] at h
  | refuse q =>
      obtain ⟨n, hq, h⟩ := of_match_running h
      cases hflag : s.cancelRequested with
      | true =>
          simp only [queryCancelled, hflag] at h
          cases h
          exact .refuse hq hflag
      | false => simp [queryCancelled, hflag] at h
  | succeed q =>
      obtain ⟨n, hq, h⟩ := of_match_running h
      cases hflag : s.cancelRequested with
      | false =>
          simp only [queryCancelled, hflag] at h
          cases h
          exact .succeed hq hflag
      | true => simp [queryCancelled, hflag] at h
  | stop q =>
      obtain ⟨n, hq, h⟩ := of_match_running h
      cases hflag : s.cancelRequested with
      | true =>
          simp only [queryCancelled, hflag] at h
          cases h
          exact .stop hq hflag
      | false => simp [queryCancelled, hflag] at h

@[simp] theorem Engine.goto_phase_self {p : QueryPhase} : (s.goto q p).phase q = p :=
  Function.update_self ..

theorem Engine.goto_phase_of_ne {p : QueryPhase} {q' : ℕ} (h : q ≠ q') :
    (s.goto q' p).phase q = s.phase q := Function.update_of_ne h ..

/-! ### A cancel that is seen -/

/-- The query will see the cancel: the flag is set and it has no read past its check, or it has ended. -/
def Engine.Sees (s : Engine) (q : ℕ) : Prop :=
  (s.cancelRequested = true ∧ s.phase q = .running 0) ∨
    s.phase q = .succeeded ∨ s.phase q = .cancelled ∨ s.phase q = .failed

/-- A query that moves on itself has ended; the others leave it where it is. -/
theorem Engine.Sees.goto {p : QueryPhase} {q' : ℕ} (h : s.Sees q)
    (hself : q = q' → p = .succeeded ∨ p = .cancelled ∨ p = .failed) : (s.goto q' p).Sees q := by
  by_cases hqq : q = q'
  · subst hqq
    right
    rw [goto_phase_self]
    exact hself rfl
  · unfold Sees
    rw [goto_phase_of_ne hqq]
    exact h

theorem Engine.Sees.running (h : s.Sees q) {n : ℕ} (hq : s.phase q = .running n) :
    s.cancelRequested = true ∧ n = 0 := by
  obtain ⟨hflag, hrun⟩ | hover | hover | hover := h
  · rw [hq, QueryPhase.running.injEq] at hrun
    exact ⟨hflag, hrun⟩
  all_goals
    rw [hq] at hover
    cases hover

theorem Engine.Sees.begun (h : s.Sees q) : s.phase q ≠ .absent ∧ s.phase q ≠ .started := by
  obtain ⟨-, hq⟩ | hq | hq | hq := h <;> simp [hq]

/-- One step of a run in which no other query begins. -/
theorem Engine.Sees.step (h : s.Sees q) (hpoll : ∀ q', e = .poll q' → q' ≠ q → ¬ s.Live q)
    (he : s.step e = some s') :
    s'.Sees q ∧ e ≠ .read q ∧ e ≠ .send q ∧ e ≠ .succeed q := by
  have hmoves := moves_of_step he
  refine ⟨?_, ?_, ?_, ?_⟩
  · cases hmoves with
    | storeSession => exact h
    | idbCancelQuery =>
        obtain ⟨-, hrun⟩ | hover := h
        · exact .inl ⟨rfl, hrun⟩
        · exact .inr hover
    | refuse hq hflag => exact h
    | @poll q' hq hsession =>
        have hqq : q ≠ q' := by
          rintro rfl
          exact h.begun.2 hq
        -- the flag goes, so the query must have ended
        obtain ⟨-, hrun⟩ | hover := h
        · exact absurd (.inr ⟨0, hrun⟩) (hpoll q' rfl (Ne.symm hqq))
        · right
          rw [goto_phase_of_ne hqq]
          exact hover
    | idbQuery hq =>
        refine h.goto ?_
        rintro rfl
        exact absurd hq h.begun.1
    | pollFails hq => exact h.goto fun _ => .inr (.inr rfl)
    | read hq hflag =>
        refine h.goto ?_
        rintro rfl
        rw [(h.running hq).1] at hflag
        cases hflag
    | send hq =>
        refine h.goto ?_
        rintro rfl
        exact absurd (h.running hq).2 (Nat.succ_ne_zero _)
    | succeed hq hflag => exact h.goto fun _ => .inl rfl
    | stop hq hflag => exact h.goto fun _ => .inr (.inl rfl)
    | fail hq => exact h.goto fun _ => .inr (.inr rfl)
  · rintro rfl
    cases hmoves with
    | read hq hflag =>
        rw [(h.running hq).1] at hflag
        cases hflag
  · rintro rfl
    cases hmoves with
    | send hq => exact absurd (h.running hq).2 (Nat.succ_ne_zero _)
  · rintro rfl
    cases hmoves with
    | succeed hq hflag =>
        rw [(h.running hq).1] at hflag
        cases hflag

/-- A run in which no other query begins. -/
theorem Engine.Sees.run {es : List Event} (h : s.Sees q) (hes : Undisturbed q s es)
    (hrun : s.run es = some s') : Stopped q es := by
  induction es generalizing s with
  | nil => exact nofun
  | cons e es ih =>
      rw [Engine.run, List.foldlM_cons] at hrun
      obtain ⟨s₁, he, hrest⟩ := Option.bind_eq_some_iff.mp hrun
      obtain ⟨hsees, hne⟩ := h.step hes.1 he
      exact List.forall_mem_cons.mpr ⟨hne, ih hsees (hes.2 s₁ he) hrest⟩

/-! ### A cancel that does not concern the query -/

/-- No cancel reaches the query: it has not begun, or the flag has been cleared since, or there was no
session to run it. -/
def Engine.Spared (s : Engine) (q : ℕ) : Prop :=
  s.phase q = .started ∨ s.cancelRequested = false ∨ s.phase q = .failed

theorem Engine.Spared.running (h : s.Spared q) {n : ℕ} (hq : s.phase q = .running n) :
    s.cancelRequested = false := by
  obtain hstarted | hflag | hfailed := h
  · rw [hq] at hstarted
    cases hstarted
  · exact hflag
  · rw [hq] at hfailed
    cases hfailed

/-- A query that moves on itself runs with a clear flag, or fails. -/
theorem Engine.Spared.goto {p : QueryPhase} {q' : ℕ} (h : s.Spared q)
    (hself : q = q' → s.cancelRequested = false ∨ p = .started ∨ p = .failed) :
    (s.goto q' p).Spared q := by
  unfold Spared
  by_cases hqq : q = q'
  · subst hqq
    rw [goto_phase_self]
    obtain hflag | hstarted | hfailed := hself rfl
    · exact .inr (.inl hflag)
    · exact .inl hstarted
    · exact .inr (.inr hfailed)
  · rw [goto_phase_of_ne hqq]
    exact h

/-- One step other than a cancel. -/
theorem Engine.Spared.step (h : s.Spared q) (hcancel : e ≠ .idbCancelQuery)
    (he : s.step e = some s') : s'.Spared q ∧ e ≠ .refuse q ∧ e ≠ .stop q := by
  have hmoves := moves_of_step he
  refine ⟨?_, ?_, ?_⟩
  · cases hmoves with
    | storeSession => exact h
    | idbCancelQuery => exact absurd rfl hcancel
    | refuse hq hflag => exact h
    | poll hq hsession => exact .inr (.inl rfl)
    | pollFails hq => exact h.goto fun _ => .inr (.inr rfl)
    | idbQuery hq => exact h.goto fun _ => .inr (.inl rfl)
    | read hq hflag => exact h.goto fun _ => .inl hflag
    | succeed hq hflag => exact h.goto fun _ => .inl hflag
    | send hq =>
        refine h.goto ?_
        rintro rfl
        exact .inl (h.running hq)
    | stop hq hflag =>
        refine h.goto ?_
        rintro rfl
        exact .inl (h.running hq)
    | fail hq => exact h.goto fun _ => .inr (.inr rfl)
  · rintro rfl
    cases hmoves with
    | refuse hq hflag =>
        rw [h.running hq] at hflag
        cases hflag
  · rintro rfl
    cases hmoves with
    | stop hq hflag =>
        rw [h.running hq] at hflag
        cases hflag

theorem Engine.Spared.run {es : List Event} (h : s.Spared q) (hes : .idbCancelQuery ∉ es)
    (hrun : s.run es = some s') : .refuse q ∉ es ∧ .stop q ∉ es := by
  induction es generalizing s with
  | nil => exact ⟨nofun, nofun⟩
  | cons e es ih =>
      rw [Engine.run, List.foldlM_cons] at hrun
      obtain ⟨s₁, he, hrest⟩ := Option.bind_eq_some_iff.mp hrun
      rw [List.mem_cons, not_or] at hes
      obtain ⟨hspared, hrefuse, hstop⟩ := h.step (Ne.symm hes.1) he
      obtain ⟨hrefuse', hstop'⟩ := ih hspared hes.2 hrest
      rw [List.mem_cons, List.mem_cons, not_or, not_or]
      exact ⟨⟨Ne.symm hrefuse, hrefuse'⟩, Ne.symm hstop, hstop'⟩

/-! ### Exactly when a cancel works -/

/-- A run that polls no other query for the first time. -/
theorem undisturbed_of_polls {es : List Event} (h : ∀ q', .poll q' ∈ es → q' = q) :
    Undisturbed q s es := by
  induction es generalizing s with
  | nil => trivial
  | cons e es ih =>
      refine ⟨?_, ?_⟩
      · rintro q' rfl hne
        exact absurd (h q' List.mem_cons_self) hne
      · intro s' _
        exact ih fun q' hq' => h q' (List.mem_cons_of_mem e hq')

/-- Otherwise the query can still succeed, or send a request, with no other query taking a step. -/
theorem Engine.exists_run_not_stopped (hlive : s.Live q) (hnot : s.phase q ≠ .running 0) :
    ∃ es s', s.requestQueryCancel.run es = some s' ∧ Undisturbed q s.requestQueryCancel es ∧
      ¬ Stopped q es := by
  obtain hstarted | ⟨n, hrun⟩ := hlive
  · -- the query's own first poll clears the flag
    refine ⟨[.storeSession, .poll q, .succeed q],
      (({ s with session := true, cancelRequested := false } : Engine).goto q (.running 0)).goto q
        .succeeded, ?_, undisturbed_of_polls ?_, ?_⟩
    · simp [run, step, requestQueryCancel, runQuery, resetQueryState, queryCancelled, hstarted, goto]
    · simp
    · exact fun hstopped => (hstopped (.succeed q) (by simp)).2.2 rfl
  · obtain _ | n := n
    · exact absurd hrun hnot
    · refine ⟨[.send q], s.requestQueryCancel.goto q (.running n), ?_, undisturbed_of_polls ?_, ?_⟩
      · simp [run, step, requestQueryCancel, hrun]
      · simp
      · exact fun hstopped => (hstopped (.send q) (by simp)).2.1 rfl

end

/-- **When a cancel works.**  Let `idb_cancel_query` be called while `q` is live.  In every run from
there in which no other query begins before `q` has ended, `q` starts no read, sends no request and
does not succeed, exactly when at the call `q` is past its first poll and has no read past its check.
And a query that is started when the last cancel has been called is never refused a read or stopped
by it. -/
theorem idbCancelQuery_stops_iff (q : ℕ) :
    (∀ s : Engine, s.Live q →
      ((∀ es s', s.requestQueryCancel.run es = some s' → Undisturbed q s.requestQueryCancel es →
        Stopped q es) ↔ s.phase q = .running 0)) ∧
    ∀ (s s₁ s' : Engine) (es : List Event), s.step (.idbQuery q) = some s₁ →
      s₁.run es = some s' → .idbCancelQuery ∉ es → .refuse q ∉ es ∧ .stop q ∉ es := by
  refine ⟨?_, ?_⟩
  · intro s hlive
    constructor
    · intro h
      by_contra hnot
      obtain ⟨es, s', hrun, hes, hstopped⟩ := Engine.exists_run_not_stopped hlive hnot
      exact hstopped (h es s' hrun hes)
    · intro hq es s' hrun hes
      have hsees : s.requestQueryCancel.Sees q := .inl ⟨rfl, hq⟩
      exact hsees.run hes hrun
  · intro s s₁ s' es hstart hrun hes
    have hspared : s₁.Spared q := by
      cases Engine.moves_of_step hstart with
      | idbQuery hq =>
          left
          exact Engine.goto_phase_self
    exact hspared.run hes hrun

/-- One query is running and has no read under way. -/
def oneRunning : Engine where
  session := true
  cancelRequested := false
  phase := Function.update (fun _ => .absent) 0 (.running 0)

/-- A cancel that works: the next read of the query is refused and it stops, and the query that is
started then is not affected. -/
theorem oneRunning_stops :
    (∃ s', oneRunning.requestQueryCancel.run [.refuse 0, .stop 0] = some s' ∧
      Stopped 0 [.refuse 0, .stop 0]) ∧
    ∃ s₁ s', oneRunning.requestQueryCancel.step (.idbQuery 1) = some s₁ ∧
      s₁.run [.poll 1, .read 1, .send 1, .succeed 1] = some s' ∧
      Event.stop 1 ∉ [Event.poll 1, .read 1, .send 1, .succeed 1] := by
  have hlive : oneRunning.Live 0 := .inr ⟨0, rfl⟩
  have hstops := ((idbCancelQuery_stops_iff 0).1 oneRunning hlive).mpr rfl
  refine ⟨⟨_, rfl, hstops [.refuse 0, .stop 0] _ rfl (undisturbed_of_polls (by simp))⟩, _, _, rfl,
    rfl, ?_⟩
  exact ((idbCancelQuery_stops_iff 1).2 oneRunning.requestQueryCancel _ _
    [.poll 1, .read 1, .send 1, .succeed 1] rfl rfl (by simp)).2

/-- The cancel comes before the first poll of the query. -/
def cancelBeforePoll : List Event × List Event :=
  ([.storeSession, .idbQuery 0], [.poll 0, .read 0, .send 0, .succeed 0])

/-- Another query begins before the cancelled one has looked at the flag. -/
def otherQueryBegins : List Event × List Event :=
  ([.storeSession, .idbQuery 0, .poll 0], [.idbQuery 1, .poll 1, .read 0, .send 0, .succeed 0])

/-- A read of the query waits for its permit. -/
def queuedRead : List Event × List Event :=
  ([.storeSession, .idbQuery 0, .poll 0, .read 0], [.send 0])

/-- The query is live after the first events; it is cancelled, and goes on. -/
def Ignored (r : List Event × List Event) : Prop :=
  ∃ s s', Engine.init.run r.1 = some s ∧ s.Live 0 ∧ s.requestQueryCancel.run r.2 = some s' ∧ ¬ Stopped 0 r.2

/-- In each of the three runs the cancel is lost. -/
theorem cancel_lost : Ignored cancelBeforePoll ∧ Ignored otherQueryBegins ∧ Ignored queuedRead := by
  refine ⟨⟨_, _, rfl, .inl rfl, rfl, fun h => ?_⟩, ⟨_, _, rfl, .inr ⟨0, rfl⟩, rfl, fun h => ?_⟩,
    ⟨_, _, rfl, .inr ⟨1, rfl⟩, rfl, fun h => ?_⟩⟩
  · exact (h (.read 0) (by decide)).1 rfl
  · exact (h (.read 0) (by decide)).1 rfl
  · exact (h (.send 0) (by decide)).2.1 rfl

end IcebergDb.Session
