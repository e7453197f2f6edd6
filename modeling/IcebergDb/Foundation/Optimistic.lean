import IcebergDb.Foundation.Checked
import Mathlib.Data.List.Nodup
import Mathlib.Logic.Function.Basic

/-!
# Optimistic commits

Writers that share one store without holding a lock on it: a writer prepares a commit on the state that it
loads, and the commit is applied, in one step, to whatever state it meets then.  A commit that is refused
with an error for which trying again makes sense is prepared anew.

* `Protocol`, `State`, `step`, `run` — any number of writers, in any order of steps;
* `step_cases` — what one step can do;
* `LogOk` — a writer commits at most once;
* `Exec`, `Guarded`, `Guarded.run` — a run does to the store what its commits do one after the other;
* `store_of_log` — only a commit changes the store;
* `done_unless_overtaken` — a commit is refused only because another one came first.
-/

namespace IcebergDb.Optimistic

open IcebergDb.Checked

/-- Jobs are prepared on the store that is loaded; commits are applied to the store that is met. -/
structure Protocol (Store Job Commit Env Err : Type) where
  prepare : Job → Env → Store → Except Err Commit
  apply : Commit → Env → Store → Except Err Store
  retryable : Err → Bool

/-- How far a writer is. -/
inductive Phase (Commit Err : Type) where
  | idle (retries : ℕ)
  | prepared (retries : ℕ) (commit : Commit)
  | done
  | failed (error : Err)

/-- The writer has a commit to apply. -/
def Phase.isPrepared {Commit Err : Type} : Phase Commit Err → Bool
  | prepared _ _ => true
  | _ => false

/-- The store, the writers, and the writers that have committed, in this order. -/
structure State (ι Store Commit Err : Type) where
  store : Store
  phase : ι → Phase Commit Err
  log : List ι

/-- A writer takes a step; it may run out of the time for retries. -/
structure Event (ι Env : Type) where
  writer : ι
  env : Env
  giveUp : Bool

/-- After an error a writer starts again, or not. -/
def afterError {Commit Err : Type} (retryable : Bool) (giveUp : Bool) (retries : ℕ) (e : Err) : Phase Commit Err :=
  if retryable && !giveUp then
    match retries with
    | 0 => .failed e
    | n + 1 => .idle n
  else .failed e

variable {ι Store Job Commit Env Err : Type}

/-- All writers are at the beginning. -/
def start (store : Store) (retries : ℕ) : State ι Store Commit Err := ⟨store, fun _ => .idle retries, []⟩

/-! ### Sequences of commits -/

/-- The commits of the writers, one after the other. -/
inductive Exec (spec : Job → Store → Store → Prop) (jobs : ι → Job) : List ι → Store → Store → Prop
  | nil {st : Store} : Exec spec jobs [] st st
  | snoc {l : List ι} {i : ι} {st₁ st₂ st₃ : Store} :
      Exec spec jobs l st₁ st₂ → spec (jobs i) st₂ st₃ → Exec spec jobs (l ++ [i]) st₁ st₃

section Exec

variable {spec : Job → Store → Store → Prop} {jobs : ι → Job}

/-- What every commit keeps, their sequence keeps. -/
theorem Exec.closed {P : Store → Prop} {l : List ι} {st st' : Store} (h : Exec spec jobs l st st')
    (hspec : ∀ i ∈ l, ∀ a b, spec (jobs i) a b → P a → P b) (hst : P st) : P st' := by
  induction h with
  | nil => exact hst
  | snoc hl hi ih =>
      exact hspec _ (by simp) _ _ hi (ih (fun j hj => hspec j (List.mem_append_left _ hj)) hst)

theorem Exec.all {P : Job → Prop} {l : List ι} {st st' : Store} (h : Exec spec jobs l st st')
    (hspec : ∀ j a b, spec j a b → P j) : ∀ i ∈ l, P (jobs i) := by
  induction h with
  | nil => simp
  | snoc hl hi ih => exact List.forall_mem_append.mpr ⟨ih, List.forall_mem_singleton.mpr (hspec _ _ _ hi)⟩

/-- A sequence of commits that each add to a list adds all of it, in the order of the commits. -/
theorem Exec.appends {α : Type} {view : Store → List α} {adds : Job → List α} {l : List ι} {st st' : Store}
    (h : Exec spec jobs l st st') (hspec : ∀ j a b, spec j a b → view b = view a ++ adds j) :
    view st' = view st ++ l.flatMap fun i => adds (jobs i) := by
  induction h with
  | nil => exact (List.append_nil _).symm
  | snoc hl hi ih =>
      rw [hspec _ _ _ hi, ih, List.flatMap_append, List.append_assoc]
      simp

end Exec

/-- The log names each writer that is done, once. -/
structure LogOk (s : State ι Store Commit Err) : Prop where
  nodup : s.log.Nodup
  mem : ∀ i, i ∈ s.log ↔ s.phase i = .done

theorem LogOk.start {store : Store} {retries : ℕ} : LogOk (start store retries : State ι Store Commit Err) :=
  ⟨List.nodup_nil, fun i => by simp [Optimistic.start]⟩

/-! ### One step -/

variable [DecidableEq ι]

/-- One step of one writer. -/
def step (p : Protocol Store Job Commit Env Err) (jobs : ι → Job) (s : State ι Store Commit Err)
    (e : Event ι Env) : State ι Store Commit Err :=
  match s.phase e.writer with
  | .idle r =>
      match p.prepare (jobs e.writer) e.env s.store with
      | .ok c => { s with phase := Function.update s.phase e.writer (.prepared r c) }
      | .error err =>
          { s with phase := Function.update s.phase e.writer (afterError (p.retryable err) e.giveUp r err) }
  | .prepared r c =>
      match p.apply c e.env s.store with
      | .ok st =>
          { store := st, phase := Function.update s.phase e.writer .done, log := s.log ++ [e.writer] }
      | .error err =>
          { s with phase := Function.update s.phase e.writer (afterError (p.retryable err) e.giveUp r err) }
  | _ => s

/-- The steps of a run. -/
def run (p : Protocol Store Job Commit Env Err) (jobs : ι → Job) (s : State ι Store Commit Err)
    (es : List (Event ι Env)) : State ι Store Commit Err :=
  es.foldl (step p jobs) s

theorem afterError_ne_done {retryable giveUp : Bool} {r : ℕ} {e : Err} :
    (afterError retryable giveUp r e : Phase Commit Err) ≠ .done := by
  cases r <;> unfold afterError <;> split <;> simp

theorem afterError_ne_prepared {retryable giveUp : Bool} {r n : ℕ} {e : Err} {c : Commit} :
    (afterError retryable giveUp r e : Phase Commit Err) ≠ .prepared n c := by
  cases r <;> unfold afterError <;> split <;> simp

section Steps

variable {p : Protocol Store Job Commit Env Err} {jobs : ι → Job} {s : State ι Store Commit Err}
  {e : Event ι Env} {es : List (Event ι Env)}

/-- A step changes the phase of one writer that is not done, or it is a commit, or it does nothing. -/
theorem step_cases (p : Protocol Store Job Commit Env Err) (jobs : ι → Job) (s : State ι Store Commit Err)
    (e : Event ι Env) :
    (∃ ph, step p jobs s e = { s with phase := Function.update s.phase e.writer ph } ∧
      s.phase e.writer ≠ .done ∧ ph ≠ .done ∧
      ∀ r c, ph = .prepared r c → p.prepare (jobs e.writer) e.env s.store = .ok c) ∨
    (∃ r c st, s.phase e.writer = .prepared r c ∧ p.apply c e.env s.store = .ok st ∧
      step p jobs s e = ⟨st, Function.update s.phase e.writer .done, s.log ++ [e.writer]⟩) ∨
    step p jobs s e = s := by
  cases hph : s.phase e.writer with
  | idle r =>
      left
      cases hprep : p.prepare (jobs e.writer) e.env s.store with
      | ok c =>
          refine ⟨.prepared r c, ?_, by simp, by simp, ?_⟩
          · simp only [step, hph, hprep]
          · intro r' c' h
            cases h
            rfl
      | error err =>
          refine ⟨afterError (p.retryable err) e.giveUp r err, ?_, by simp, afterError_ne_done, ?_⟩
          · simp only [step, hph, hprep]
          · intro r' c' h
            exact absurd h afterError_ne_prepared
  | prepared r c =>
      cases happ : p.apply c e.env s.store with
      | ok st =>
          right
          left
          exact ⟨r, c, st, rfl, happ, by simp only [step, hph, happ]⟩
      | error err =>
          left
          refine ⟨afterError (p.retryable err) e.giveUp r err, ?_, by simp, afterError_ne_done, ?_⟩
          · simp only [step, hph, happ]
          · intro r' c' h
            exact absurd h afterError_ne_prepared
  | done => exact .inr (.inr (by simp only [step, hph]))
  | failed err => exact .inr (.inr (by simp only [step, hph]))

/-- What one step keeps, a run keeps. -/
theorem run_induction {P : State ι Store Commit Err → Prop}
    (hstep : ∀ s e, P s → P (step p jobs s e)) (h : P s) : P (run p jobs s es) := by
  induction es generalizing s with
  | nil => exact h
  | cons e es ih => exact ih (hstep s e h)

end Steps

/-! ### The log -/

section Log

variable {p : Protocol Store Job Commit Env Err} {jobs : ι → Job} {s : State ι Store Commit Err}
  {e : Event ι Env} {es : List (Event ι Env)} {store : Store} {retries : ℕ}

theorem LogOk.step (h : LogOk s) : LogOk (step p jobs s e) := by
  rcases step_cases p jobs s e with
    ⟨ph, heq, hbefore, hafter, -⟩ | ⟨r, c, st, hph, -, heq⟩ | heq
  · rw [heq]
    refine ⟨h.nodup, fun i => ?_⟩
    rw [h.mem i]
    show s.phase i = .done ↔ Function.update s.phase e.writer ph i = .done
    by_cases hi : i = e.writer
    · rw [hi, Function.update_self]
      exact ⟨fun hd => absurd hd hbefore, fun hd => absurd hd hafter⟩
    · rw [Function.update_of_ne hi]
  · rw [heq]
    have hfresh : e.writer ∉ s.log := by
      rw [h.mem e.writer, hph]
      simp
    refine ⟨?_, fun i => ?_⟩
    · show (s.log ++ [e.writer]).Nodup
      exact List.nodup_append.mpr ⟨h.nodup, by simp, by
        intro a ha b hb hab
        rw [List.mem_singleton.mp hb] at hab
        exact hfresh (hab ▸ ha)⟩
    · show i ∈ s.log ++ [e.writer] ↔ Function.update s.phase e.writer .done i = .done
      rw [List.mem_append, List.mem_singleton, h.mem i]
      by_cases hi : i = e.writer
      · rw [hi, Function.update_self]
        simp
      · rw [Function.update_of_ne hi]
        simp [hi]
  · rw [heq]
    exact h

theorem LogOk.run (h : LogOk s) : LogOk (run p jobs s es) := run_induction (fun _ _ => LogOk.step) h

/-- A run adds commits to the log, and changes the store with a commit only. -/
theorem store_of_log (p : Protocol Store Job Commit Env Err) (jobs : ι → Job) (s : State ι Store Commit Err)
    (es : List (Event ι Env)) :
    ∃ l, (run p jobs s es).log = s.log ++ l ∧ (l = [] → (run p jobs s es).store = s.store) := by
  induction es generalizing s with
  | nil => exact ⟨[], (List.append_nil _).symm, fun _ => rfl⟩
  | cons e es ih =>
      show ∃ l, (run p jobs (Optimistic.step p jobs s e) es).log = s.log ++ l ∧
        (l = [] → (run p jobs (Optimistic.step p jobs s e) es).store = s.store)
      obtain ⟨l, hlog, hstore⟩ := ih (Optimistic.step p jobs s e)
      rcases step_cases p jobs s e with
        ⟨ph, heq, -, -, -⟩ | ⟨r, c, st, -, -, heq⟩ | heq
      · refine ⟨l, ?_, fun hl => ?_⟩
        · rw [hlog, heq]
        · rw [hstore hl, heq]
      · refine ⟨e.writer :: l, ?_, fun hl => by cases hl⟩
        rw [hlog, heq]
        exact List.append_assoc _ _ _
      · refine ⟨l, ?_, fun hl => ?_⟩
        · rw [hlog, heq]
        · rw [hstore hl, heq]

theorem phase_run_of_ne {i : ι} (h : ∀ x ∈ es, x.writer ≠ i) : (run p jobs s es).phase i = s.phase i := by
  induction es generalizing s with
  | nil => rfl
  | cons e es ih =>
      have hne : i ≠ e.writer := fun heq => h e List.mem_cons_self heq.symm
      have hstep : (Optimistic.step p jobs s e).phase i = s.phase i := by
        rcases step_cases p jobs s e with
          ⟨ph, heq, -, -, -⟩ | ⟨r, c, st, -, -, heq⟩ | heq
        · rw [heq]
          exact Function.update_of_ne hne ph s.phase
        · rw [heq]
          exact Function.update_of_ne hne .done s.phase
        · rw [heq]
      show (run p jobs (Optimistic.step p jobs s e) es).phase i = s.phase i
      rw [ih fun x hx => h x (List.mem_cons_of_mem e hx), hstep]

theorem prepare_of_step {r : ℕ} (hidle : s.phase e.writer = .idle r)
    (h : ((Optimistic.step p jobs s e).phase e.writer).isPrepared = true) :
    ∃ c, p.prepare (jobs e.writer) e.env s.store = .ok c := by
  cases hprep : p.prepare (jobs e.writer) e.env s.store with
  | ok c => exact ⟨c, rfl⟩
  | error err =>
      simp only [Optimistic.step, hidle, hprep, Function.update_self] at h
      cases hafter : (afterError (p.retryable err) e.giveUp r err : Phase Commit Err) with
      | prepared n c => exact absurd hafter afterError_ne_prepared
      | _ =>
          rw [hafter] at h
          cases h

theorem step_done {r : ℕ} {c : Commit} {st : Store} (hphase : s.phase e.writer = .prepared r c)
    (happ : p.apply c e.env s.store = .ok st) : (Optimistic.step p jobs s e).phase e.writer = .done := by
  simp only [Optimistic.step, hphase, happ]
  exact Function.update_self e.writer _ _

/-- A commit that could be applied to the state it was prepared on is done, unless another one came first. -/
theorem done_unless_overtaken {e' : Event ι Env} {r : ℕ} {c : Commit} {st : Store}
    (hidle : s.phase e.writer = .idle r) (hprep : p.prepare (jobs e.writer) e.env s.store = .ok c)
    (happ : p.apply c e'.env s.store = .ok st) (hothers : ∀ x ∈ es, x.writer ≠ e.writer)
    (hwriter : e'.writer = e.writer) (hlog : (run p jobs (Optimistic.step p jobs s e) es).log = s.log) :
    (Optimistic.step p jobs (run p jobs (Optimistic.step p jobs s e) es) e').phase e.writer = .done := by
  have hstep : Optimistic.step p jobs s e =
      { s with phase := Function.update s.phase e.writer (.prepared r c) } := by
    simp only [Optimistic.step, hidle, hprep]
  have hphase : (run p jobs (Optimistic.step p jobs s e) es).phase e'.writer = .prepared r c := by
    rw [hwriter, phase_run_of_ne hothers, hstep]
    exact Function.update_self e.writer _ s.phase
  have hstore : (run p jobs (Optimistic.step p jobs s e) es).store = s.store := by
    obtain ⟨l, hl, hsame⟩ := store_of_log p jobs (Optimistic.step p jobs s e) es
    have hnil : l = [] := by
      rw [hlog, hstep] at hl
      exact List.self_eq_append_right.mp hl
    rw [hsame hnil, hstep]
  rw [← hwriter]
  exact step_done hphase (hstore ▸ happ)

end Log

/-! ### Runs and their commits -/

/-- A commit that was prepared stays `ready` while others commit, and then does what `spec` says. -/
structure Guarded (p : Protocol Store Job Commit Env Err) (inv : Store → Prop)
    (ready : Job → Commit → Store → Prop) (spec : Job → Store → Store → Prop) : Prop where
  prepared : ∀ {j e st c}, inv st → p.prepare j e st = .ok c → ready j c st
  stable : ∀ {j c j' c' e st st'}, inv st → ready j c st → ready j' c' st → p.apply c' e st = .ok st' →
    ready j c st'
  keeps : ∀ {j c e st st'}, inv st → ready j c st → p.apply c e st = .ok st' → inv st'
  commits : ∀ {j c e st st'}, inv st → ready j c st → p.apply c e st = .ok st' → spec j st st'

section Runs

variable {p : Protocol Store Job Commit Env Err} {jobs : ι → Job} {s : State ι Store Commit Err}
  {e : Event ι Env} {es : List (Event ι Env)} {store : Store} {retries : ℕ} {inv : Store → Prop}
  {ready : Job → Commit → Store → Prop} {spec : Job → Store → Store → Prop}

/-- What holds along a run. -/
structure Sound (inv : Store → Prop) (ready : Job → Commit → Store → Prop) (spec : Job → Store → Store → Prop)
    (jobs : ι → Job) (store : Store) (s : State ι Store Commit Err) : Prop where
  inv : inv s.store
  ready : ∀ i r c, s.phase i = .prepared r c → ready (jobs i) c s.store
  exec : Exec spec jobs s.log store s.store

theorem Guarded.step (h : Guarded p inv ready spec) (hs : Sound inv ready spec jobs store s) :
    Sound inv ready spec jobs store (step p jobs s e) := by
  rcases step_cases p jobs s e with
    ⟨ph, heq, -, -, hprep⟩ | ⟨r, c, st, hph, happ, heq⟩ | heq
  · rw [heq]
    refine ⟨hs.inv, fun i r c hi => ?_, hs.exec⟩
    by_cases hw : i = e.writer
    · rw [hw]
      rw [hw] at hi
      have hph : ph = .prepared r c := (Function.update_self e.writer ph s.phase).symm.trans hi
      exact h.prepared hs.inv (hprep r c hph)
    · exact hs.ready i r c ((Function.update_of_ne hw ph s.phase).symm.trans hi)
  · rw [heq]
    have hready : ready (jobs e.writer) c s.store := hs.ready _ _ _ hph
    refine ⟨h.keeps hs.inv hready happ, fun i r' c' hi => ?_, hs.exec.snoc (h.commits hs.inv hready happ)⟩
    by_cases hw : i = e.writer
    · rw [hw] at hi
      have hdone : Phase.done = .prepared r' c' := (Function.update_self e.writer .done s.phase).symm.trans hi
      cases hdone
    · have hi' : s.phase i = .prepared r' c' := (Function.update_of_ne hw .done s.phase).symm.trans hi
      exact h.stable hs.inv (hs.ready i r' c' hi') hready happ
  · rw [heq]
    exact hs

/-- A step that commits does what `spec` says. -/
theorem Guarded.step_spec (h : Guarded p inv ready spec) (hs : Sound inv ready spec jobs store s)
    (hlog : (Optimistic.step p jobs s e).log ≠ s.log) :
    spec (jobs e.writer) s.store (Optimistic.step p jobs s e).store := by
  rcases step_cases p jobs s e with
    ⟨ph, heq, -, -, -⟩ | ⟨r, c, st, hph, happ, heq⟩ | heq
  · exact absurd (by rw [heq]) hlog
  · rw [heq]
    exact h.commits hs.inv (hs.ready _ _ _ hph) happ
  · exact absurd (by rw [heq]) hlog

/-- However the steps of the writers interleave, the store is what the commits make of it one by one. -/
theorem Guarded.run (h : Guarded p inv ready spec) (hinv : inv store) :
    Sound inv ready spec jobs store (run p jobs (start store retries) es) :=
  run_induction (P := Sound inv ready spec jobs store) (fun _ _ => h.step)
    ⟨hinv, fun i r c hi => by simp [start] at hi, .nil⟩

end Runs

end IcebergDb.Optimistic
