import IcebergDb.Expr.Predicate
import Mathlib.Logic.Relation
import Mathlib.Logic.Function.Basic

/-!
# Loading delete files: who waits for whom

`DeleteFilter` keeps one entry per delete file: absent, `Loading` with a notifier, or `Loaded`.  The
load futures of `CachingDeleteFileLoader` create and finish the entries; other futures find an entry
`Loading`, register on its notifier and park until it fires.

* `DeleteFilter` and its functions — the maps under the lock, each function one critical section;
* `System.step` — one step of one future, any number of them interleaved;
* `System.Inv` — who owns an entry, and that a woken future finds it `Loaded`, in every run;
* `System.store_step_notify` — why the end of a load may be one step;
* `noneStranded_of_carefulRun` — a parked future has a live loader that will fire its notifier, in
  every run that avoids three situations.

The code excludes none of the three: a look between the two writes of `load_file_for_task` or at an
entry whose load has failed, a failure under waiting futures, and a load that finishes while a future
has read the notifier but not yet registered on it.
-/

namespace IcebergDb.Delete

variable {φ π : Type}

/-! ### The maps under the lock -/

/-- The two maps of `DeleteFileFilterState` that have loading entries. -/
inductive DeleteKind where
  | equality
  | position
deriving DecidableEq

/-- A delete file in one of the two maps. -/
structure DeleteKey (φ : Type) where
  kind : DeleteKind
  path : φ
deriving DecidableEq

/-- `EqDelState` and `PosDelState`.  A notifier is known by the number it was allocated with; a loaded
positional file keeps no value in the map. -/
inductive LoadState (π : Type) where
  | loading (notifier : ℕ)
  | loaded (predicate : Option π)
deriving DecidableEq

/-- `DeleteFilter`: both maps, and the number of the next `Notify::new()`. -/
structure DeleteFilter (φ π : Type) where
  entry : DeleteKey φ → Option (LoadState π)
  fresh : ℕ

/-- `PosDelLoadAction`. -/
inductive PosDelLoadAction where
  | load
  | alreadyLoaded
  | waitFor (notifier : ℕ)

section

variable [DecidableEq φ]

/-- The entry becomes `Loading` with a new notifier. -/
def DeleteFilter.markLoading (F : DeleteFilter φ π) (k : DeleteKey φ) : DeleteFilter φ π where
  entry := Function.update F.entry k (some (.loading F.fresh))
  fresh := F.fresh + 1

/-- The entry becomes `Loaded`. -/
def DeleteFilter.markLoaded (F : DeleteFilter φ π) (k : DeleteKey φ) (predicate : Option π) :
    DeleteFilter φ π :=
  { F with entry := Function.update F.entry k (some (.loaded predicate)) }

/-- `try_start_eq_del_load`. -/
def DeleteFilter.tryStartEqDelLoad (F : DeleteFilter φ π) (path : φ) : Option ℕ × DeleteFilter φ π :=
  if (F.entry ⟨.equality, path⟩).isSome then (none, F)
  else (some F.fresh, F.markLoading ⟨.equality, path⟩)

/-- `try_start_pos_del_load`. -/
def DeleteFilter.tryStartPosDelLoad (F : DeleteFilter φ π) (path : φ) :
    PosDelLoadAction × DeleteFilter φ π :=
  match F.entry ⟨.position, path⟩ with
  | some (.loaded _) => (.alreadyLoaded, F)
  | some (.loading notifier) => (.waitFor notifier, F)
  | none => (.load, F.markLoading ⟨.position, path⟩)

/-- The first half of `insert_equality_delete`: the entry is overwritten, whatever it was, and the
spawned task keeps the new notifier. -/
def DeleteFilter.insertEqualityDelete (F : DeleteFilter φ π) (path : φ) : ℕ × DeleteFilter φ π :=
  (F.fresh, F.markLoading ⟨.equality, path⟩)

/-- The critical section of `finish_pos_del_load`, with the notifier to fire: that of the old entry. -/
def DeleteFilter.finishPosDelLoad (F : DeleteFilter φ π) (path : φ) : Option ℕ × DeleteFilter φ π :=
  (match F.entry ⟨.position, path⟩ with
    | some (.loading notifier) => some notifier
    | _ => none,
   F.markLoaded ⟨.position, path⟩ none)

/-- The critical section of the task that `insert_equality_delete` spawned, with the notifier to fire:
the one it was spawned with. -/
def DeleteFilter.finishEqDelLoad (F : DeleteFilter φ π) (path : φ) (notifier : ℕ) (predicate : π) :
    Option ℕ × DeleteFilter φ π :=
  (some notifier, F.markLoaded ⟨.equality, path⟩ (some predicate))

end

/-! ### The futures -/

/-- Where a future stands. -/
inductive Phase (φ π : Type) where
  | idle
  /-- In `load_file_for_task`, between `try_start_eq_del_load` and `insert_equality_delete`. -/
  | started (path : φ) (notifier : ℕ)
  /-- A live load.  For an equality file this is the load future with its sender and the spawned task
  with its receiver; the latter has the notifier.  For a positional file the notifier is in the entry. -/
  | loading (k : DeleteKey φ) (notifier : ℕ)
  /-- It has read the notifier from the entry and has not called `notified()`. -/
  | saw (k : DeleteKey φ) (notifier : ℕ)
  /-- It awaits `notified()`. -/
  | parked (k : DeleteKey φ) (notifier : ℕ)
  | woken (k : DeleteKey φ)
  | done (result : Option π)
  | failed
  /-- The `unreachable!` after waking. -/
  | unreachable
deriving DecidableEq

/-- The delete filter and the futures that share it. -/
structure System (φ π : Type) where
  filter : DeleteFilter φ π
  phase : ℕ → Phase φ π

/-- An empty filter, before any future has run. -/
def System.init : System φ π where
  filter := ⟨fun _ => none, 0⟩
  phase := fun _ => .idle

/-- Future `a` takes a step. -/
inductive Event (φ π : Type) where
  /-- `load_file_for_task` on an equality delete file, up to `try_start_eq_del_load`. -/
  | startEq (a : ℕ) (path : φ)
  | insertEq (a : ℕ)
  /-- `load_file_for_task` on a positional delete file, up to `try_start_pos_del_load`. -/
  | startPos (a : ℕ) (path : φ)
  /-- The first look of `get_equality_delete_predicate_for_delete_file_path`. -/
  | getEq (a : ℕ) (path : φ)
  | register (a : ℕ)
  /-- The load is over: the entry is written and the notifier fires. -/
  | finish (a : ℕ) (predicate : π)
  /-- An error of the load, or the future is dropped because another load of its stream failed. -/
  | fail (a : ℕ)
  | resume (a : ℕ)

/-- Future `a` goes on to `p`. -/
def System.goto (s : System φ π) (a : ℕ) (p : Phase φ π) : System φ π :=
  { s with phase := Function.update s.phase a p }

/-- `notify_waiters`: it wakes the futures that are registered now, and leaves no permit behind. -/
def Phase.notify (notifier : Option ℕ) : Phase φ π → Phase φ π
  | .parked k n => if notifier = some n then .woken k else .parked k n
  | p => p

/-- `notify_waiters` on the notifier, if there is one. -/
def System.notifyWaiters (s : System φ π) (notifier : Option ℕ) : System φ π :=
  { s with phase := fun a => (s.phase a).notify notifier }

section

variable [DecidableEq φ]

/-- The write at the end of a load, with the notifier to fire. -/
def System.store (s : System φ π) (a : ℕ) (k : DeleteKey φ) (notifier : ℕ) (predicate : π) :
    Option ℕ × System φ π :=
  let written := match k.kind with
    | .equality => s.filter.finishEqDelLoad k.path notifier predicate
    | .position => s.filter.finishPosDelLoad k.path
  (written.1, ({ s with filter := written.2 } : System φ π).goto a (.done none))

/-- One step.  The end of a load is one step although the lock is released before `notify_waiters`:
what another future does between the two it could have done before or after both (see
`store_step_notify`). -/
def System.step (s : System φ π) : Event φ π → Option (System φ π)
  | .startEq a path =>
      match s.phase a, s.filter.tryStartEqDelLoad path with
      | .idle, (some n, F) => some (({ s with filter := F } : System φ π).goto a (.started path n))
      | .idle, (none, F) => some (({ s with filter := F } : System φ π).goto a (.done none))
      | _, _ => none
  | .insertEq a =>
      match s.phase a with
      | .started path _ =>
          let (n, F) := s.filter.insertEqualityDelete path
          some (({ s with filter := F } : System φ π).goto a (.loading ⟨.equality, path⟩ n))
      | _ => none
  | .startPos a path =>
      match s.phase a, s.filter.tryStartPosDelLoad path with
      | .idle, (.load, F) => some
          (({ s with filter := F } : System φ π).goto a (.loading ⟨.position, path⟩ s.filter.fresh))
      | .idle, (.alreadyLoaded, F) => some (({ s with filter := F } : System φ π).goto a (.done none))
      | .idle, (.waitFor n, F) =>
          some (({ s with filter := F } : System φ π).goto a (.saw ⟨.position, path⟩ n))
      | _, _ => none
  | .getEq a path =>
      match s.phase a, s.filter.entry ⟨.equality, path⟩ with
      | .idle, none => some (s.goto a (.done none))
      | .idle, some (.loading n) => some (s.goto a (.saw ⟨.equality, path⟩ n))
      | .idle, some (.loaded predicate) => some (s.goto a (.done predicate))
      | _, _ => none
  | .register a =>
      match s.phase a with
      | .saw k n => some (s.goto a (.parked k n))
      | _ => none
  | .finish a predicate =>
      match s.phase a with
      | .loading k n =>
          let written := s.store a k n predicate
          some (written.2.notifyWaiters written.1)
      | _ => none
  | .fail a =>
      match s.phase a with
      | .loading _ _ | .parked _ _ | .woken _ => some (s.goto a .failed)
      | _ => none
  | .resume a =>
      match s.phase a with
      | .woken k =>
          match k.kind, s.filter.entry k with
          | .position, _ => some (s.goto a (.done none))
          | .equality, some (.loaded predicate) => some (s.goto a (.done predicate))
          | .equality, _ => some (s.goto a .unreachable)
      | _ => none

/-- One step of a run. -/
def System.Step (s s' : System φ π) : Prop :=
  ∃ e : Event φ π, s.step e = some s'

end

/-! ### Who owns an entry -/

/-- The entry that a future is about to finish. -/
def Phase.owned : Phase φ π → Option (DeleteKey φ × ℕ)
  | .started path n => some (⟨.equality, path⟩, n)
  | .loading k n => some (k, n)
  | _ => none

/-- The notifier that a future waits for, or is about to. -/
def Phase.waiting : Phase φ π → Option (DeleteKey φ × ℕ)
  | .saw k n | .parked k n => some (k, n)
  | _ => none

/-- What every run keeps. -/
structure System.Inv (s : System φ π) : Prop where
  owned : ∀ a k n, (s.phase a).owned = some (k, n) → s.filter.entry k = some (.loading n)
  alone : ∀ a b k n m, (s.phase a).owned = some (k, n) → (s.phase b).owned = some (k, m) → a = b
  entryLt : ∀ k n, s.filter.entry k = some (.loading n) → n < s.filter.fresh
  waitLt : ∀ a k n, (s.phase a).waiting = some (k, n) → n < s.filter.fresh
  entryKey : ∀ k k' n, s.filter.entry k = some (.loading n) → s.filter.entry k' = some (.loading n) →
    k = k'
  waitKey : ∀ a k k' n, (s.phase a).waiting = some (k, n) → s.filter.entry k' = some (.loading n) →
    k = k'
  woken : ∀ a k, s.phase a = .woken k → ∃ predicate, s.filter.entry k = some (.loaded predicate)
  reachable : ∀ a, s.phase a ≠ .unreachable

theorem System.inv_init : (System.init : System φ π).Inv where
  owned _ _ _ h := by cases h
  alone _ _ _ _ _ h := by cases h
  entryLt _ _ h := by cases h
  waitLt _ _ _ h := by cases h
  entryKey _ _ _ h := by cases h
  waitKey _ _ _ _ h := by cases h
  woken _ _ h := by cases h
  reachable _ h := by cases h

section

variable {s : System φ π} {a : ℕ} {k : DeleteKey φ} {n : ℕ} {p : Phase φ π}

@[simp] theorem System.goto_phase_self : (s.goto a p).phase a = p := Function.update_self ..

@[simp] theorem System.goto_phase_of_ne {b : ℕ} (h : b ≠ a) : (s.goto a p).phase b = s.phase b :=
  Function.update_of_ne h ..

/-- A phase after `goto` is the new one, or that of another future. -/
theorem System.of_goto_phase (P : Phase φ π → Prop) {b : ℕ} (h : P ((s.goto a p).phase b)) :
    (b = a ∧ P p) ∨ (b ≠ a ∧ P (s.phase b)) := by
  by_cases hba : b = a
  · subst hba
    rw [goto_phase_self] at h
    exact .inl ⟨rfl, h⟩
  · rw [goto_phase_of_ne hba] at h
    exact .inr ⟨hba, h⟩

@[simp] theorem System.notifyWaiters_filter (m : Option ℕ) : (s.notifyWaiters m).filter = s.filter :=
  rfl

@[simp] theorem System.notifyWaiters_phase (m : Option ℕ) (b : ℕ) :
    (s.notifyWaiters m).phase b = (s.phase b).notify m := rfl

@[simp] theorem Phase.notify_owned (m : Option ℕ) : (p.notify m).owned = p.owned := by
  cases p with
  | parked k n =>
      simp only [notify]
      split <;> rfl
  | _ => rfl

/-- Who still waits after the notifier has fired was not registered on it. -/
theorem Phase.waiting_of_notify {m : Option ℕ} (h : (p.notify m).waiting = some (k, n)) :
    p = .saw k n ∨ (p = .parked k n ∧ m ≠ some n) := by
  cases p with
  | parked k' n' =>
      simp only [notify] at h
      split at h
      · cases h
      · cases h
        exact .inr ⟨rfl, ‹_›⟩
  | saw k' n' =>
      cases h
      exact .inl rfl
  | _ => cases h

/-- Who is awake after the notifier has fired was so before, or was registered on it. -/
theorem Phase.of_notify_eq_woken {m : Option ℕ} (h : p.notify m = .woken k) :
    p = .woken k ∨ ∃ n, m = some n ∧ p = .parked k n := by
  cases p with
  | parked k' n' =>
      simp only [notify] at h
      split at h
      · cases h
        exact .inr ⟨n', ‹_›, rfl⟩
      · cases h
  | woken k' => exact .inl h
  | _ => cases h

theorem Phase.of_notify_eq_unreachable {m : Option ℕ} (h : p.notify m = .unreachable) :
    p = .unreachable := by
  cases p with
  | parked k n =>
      simp only [notify] at h
      split at h <;> cases h
  | unreachable => rfl
  | _ => cases h

/-- A future moves on without touching the maps. -/
theorem System.Inv.goto (h : s.Inv) (hown : p.owned = none)
    (hwait : ∀ k n, p.waiting = some (k, n) →
      (s.phase a).waiting = some (k, n) ∨ s.filter.entry k = some (.loading n))
    (hwoken : ∀ k, p ≠ .woken k) (hreach : p ≠ .unreachable) : (s.goto a p).Inv := by
  -- an owner or a woken future of the new state is not `a`
  have hother : ∀ b k n, ((s.goto a p).phase b).owned = some (k, n) →
      (s.phase b).owned = some (k, n) := by
    intro b k n hb
    obtain ⟨-, hnew⟩ | ⟨-, hold⟩ := of_goto_phase (fun p => p.owned = some (k, n)) hb
    · rw [hown] at hnew
      cases hnew
    · exact hold
  have hwaits : ∀ b k n, ((s.goto a p).phase b).waiting = some (k, n) →
      (s.phase b).waiting = some (k, n) ∨ s.filter.entry k = some (.loading n) := by
    intro b k n hb
    obtain ⟨rfl, hnew⟩ | ⟨-, hold⟩ := of_goto_phase (fun p => p.waiting = some (k, n)) hb
    · exact hwait k n hnew
    · exact .inl hold
  refine ⟨?_, ?_, h.entryLt, ?_, h.entryKey, ?_, ?_, ?_⟩
  · intro b k n hb
    exact h.owned b k n (hother b k n hb)
  · intro b c k n m hb hc
    exact h.alone b c k n m (hother b k n hb) (hother c k m hc)
  · intro b k n hb
    obtain hold | hentry := hwaits b k n hb
    · exact h.waitLt b k n hold
    · exact h.entryLt k n hentry
  · intro b k k' n hb hk'
    obtain hold | hentry := hwaits b k n hb
    · exact h.waitKey b k k' n hold hk'
    · exact h.entryKey k k' n hentry hk'
  · intro b k hb
    obtain ⟨-, hnew⟩ | ⟨-, hold⟩ := of_goto_phase (· = .woken k) hb
    · exact absurd hnew (hwoken k)
    · exact h.woken b k hold
  · intro b hb
    obtain ⟨-, hnew⟩ | ⟨-, hold⟩ := of_goto_phase (· = .unreachable) hb
    · exact hreach hnew
    · exact h.reachable b hold

variable [DecidableEq φ]

@[simp] theorem DeleteFilter.markLoading_self (F : DeleteFilter φ π) :
    (F.markLoading k).entry k = some (.loading F.fresh) := Function.update_self ..

theorem DeleteFilter.markLoading_of_ne (F : DeleteFilter φ π) {k' : DeleteKey φ} (h : k' ≠ k) :
    (F.markLoading k).entry k' = F.entry k' := Function.update_of_ne h ..

@[simp] theorem DeleteFilter.markLoaded_self (F : DeleteFilter φ π) (v : Option π) :
    (F.markLoaded k v).entry k = some (.loaded v) := Function.update_self ..

theorem DeleteFilter.markLoaded_of_ne (F : DeleteFilter φ π) (v : Option π) {k' : DeleteKey φ}
    (h : k' ≠ k) : (F.markLoaded k v).entry k' = F.entry k' := Function.update_of_ne h ..

/-- A loading entry of the new map is an old one at another key, or the new notifier. -/
theorem DeleteFilter.markLoading_eq_loading {F : DeleteFilter φ π} {k' : DeleteKey φ}
    (h : (F.markLoading k).entry k' = some (.loading n)) :
    (k' = k ∧ n = F.fresh) ∨ (k' ≠ k ∧ F.entry k' = some (.loading n)) := by
  by_cases hk : k' = k
  · subst hk
    rw [markLoading_self, Option.some.injEq, LoadState.loading.injEq] at h
    exact .inl ⟨rfl, h.symm⟩
  · rw [markLoading_of_ne F hk] at h
    exact .inr ⟨hk, h⟩

/-- A loading entry after a load has finished is an old one at another key. -/
theorem DeleteFilter.markLoaded_eq_loading {F : DeleteFilter φ π} {v : Option π} {k' : DeleteKey φ}
    (h : (F.markLoaded k v).entry k' = some (.loading n)) :
    k' ≠ k ∧ F.entry k' = some (.loading n) := by
  by_cases hk : k' = k
  · subst hk
    rw [markLoaded_self] at h
    cases h
  · rw [markLoaded_of_ne F v hk] at h
    exact ⟨hk, h⟩

/-- Future `a` writes a new loading entry, for a key that nobody else owns. -/
theorem System.Inv.markLoading (h : s.Inv)
    (hfree : ∀ b n, (s.phase b).owned = some (k, n) → b = a)
    (hnot : ∀ v, s.filter.entry k ≠ some (.loaded v))
    (hp : p.owned = some (k, s.filter.fresh)) :
    (({ s with filter := s.filter.markLoading k } : System φ π).goto a p).Inv := by
  -- the futures other than `a` own other keys
  have hown : ∀ b k' n, ((({ s with filter := s.filter.markLoading k } : System φ π).goto a p).phase
      b).owned = some (k', n) →
      (b = a ∧ k' = k ∧ n = s.filter.fresh) ∨ (b ≠ a ∧ k' ≠ k ∧ (s.phase b).owned = some (k', n)) := by
    intro b k' n hb
    obtain ⟨hba, hnew⟩ | ⟨hba, hold⟩ := of_goto_phase (fun p => p.owned = some (k', n)) hb
    · rw [hp, Option.some.injEq, Prod.mk.injEq] at hnew
      exact .inl ⟨hba, hnew.1.symm, hnew.2.symm⟩
    · refine .inr ⟨hba, ?_, hold⟩
      intro hk
      subst hk
      exact hba (hfree b n hold)
  have hwait : ∀ b k' n, ((({ s with filter := s.filter.markLoading k } : System φ π).goto a p).phase
      b).waiting = some (k', n) → (s.phase b).waiting = some (k', n) := by
    intro b k' n hb
    obtain ⟨-, hnew⟩ | ⟨-, hold⟩ := of_goto_phase (fun p => p.waiting = some (k', n)) hb
    · cases p <;> simp [Phase.owned, Phase.waiting] at hp hnew
    · exact hold
  refine ⟨?_, ?_, ?_, ?_, ?_, ?_, ?_, ?_⟩
  · intro b k' n hb
    obtain ⟨-, rfl, rfl⟩ | ⟨-, hk, hold⟩ := hown b k' n hb
    · exact DeleteFilter.markLoading_self _
    · show (s.filter.markLoading k).entry k' = _
      rw [DeleteFilter.markLoading_of_ne _ hk]
      exact h.owned b k' n hold
  · intro b c k' n m hb hc
    obtain ⟨rfl, rfl, -⟩ | ⟨-, hk, holdb⟩ := hown b k' n hb
    · obtain ⟨rfl, -, -⟩ | ⟨-, hk, -⟩ := hown c k' m hc
      · rfl
      · exact absurd rfl hk
    · obtain ⟨-, rfl, -⟩ | ⟨-, -, holdc⟩ := hown c k' m hc
      · exact absurd rfl hk
      · exact h.alone b c k' n m holdb holdc
  · intro k' n hk'
    show n < s.filter.fresh + 1
    obtain ⟨-, rfl⟩ | ⟨-, hold⟩ := DeleteFilter.markLoading_eq_loading hk'
    · omega
    · have := h.entryLt k' n hold
      omega
  · intro b k' n hb
    show n < s.filter.fresh + 1
    have := h.waitLt b k' n (hwait b k' n hb)
    omega
  · intro k' k'' n hk' hk''
    obtain ⟨rfl, rfl⟩ | ⟨-, hold'⟩ := DeleteFilter.markLoading_eq_loading hk'
    · obtain ⟨rfl, -⟩ | ⟨-, hold''⟩ := DeleteFilter.markLoading_eq_loading hk''
      · rfl
      · exact absurd (h.entryLt k'' _ hold'') (Nat.lt_irrefl _)
    · obtain ⟨-, rfl⟩ | ⟨-, hold''⟩ := DeleteFilter.markLoading_eq_loading hk''
      · exact absurd (h.entryLt k' _ hold') (Nat.lt_irrefl _)
      · exact h.entryKey k' k'' n hold' hold''
  · intro b k' k'' n hb hk''
    obtain ⟨-, rfl⟩ | ⟨-, hold''⟩ := DeleteFilter.markLoading_eq_loading hk''
    · exact absurd (h.waitLt b k' _ (hwait b k' _ hb)) (Nat.lt_irrefl _)
    · exact h.waitKey b k' k'' n (hwait b k' n hb) hold''
  · intro b k' hb
    obtain ⟨-, rfl⟩ | ⟨-, hold⟩ := of_goto_phase (· = .woken k') hb
    · cases hp
    · obtain ⟨v, hv⟩ := h.woken b k' hold
      have hk : k' ≠ k := by
        rintro rfl
        exact hnot v hv
      exact ⟨v, (DeleteFilter.markLoading_of_ne _ hk).trans hv⟩
  · intro b hb
    obtain ⟨-, rfl⟩ | ⟨-, hold⟩ := of_goto_phase (· = .unreachable) hb
    · cases hp
    · exact h.reachable b hold

/-- The same for a key that has no entry. -/
theorem System.Inv.markLoading_of_none (h : s.Inv) (hentry : s.filter.entry k = none)
    (hp : p.owned = some (k, s.filter.fresh)) :
    (({ s with filter := s.filter.markLoading k } : System φ π).goto a p).Inv := by
  refine h.markLoading ?_ ?_ hp
  · intro b n hb
    rw [h.owned b k n hb] at hentry
    cases hentry
  · intro v hv
    rw [hv] at hentry
    cases hentry

/-- The value that a load leaves in the map. -/
def DeleteKey.value (k : DeleteKey φ) (predicate : π) : Option π :=
  match k.kind with
  | .equality => some predicate
  | .position => none

/-- A load that ends writes its entry and fires its own notifier, whichever of the two functions does
it. -/
theorem System.Inv.store_eq (h : s.Inv) (ha : s.phase a = .loading k n) (predicate : π) :
    s.store a k n predicate = (some n,
      ({ s with filter := s.filter.markLoaded k (k.value predicate) } : System φ π).goto a
        (.done none)) := by
  obtain ⟨kind, path⟩ := k
  have hentry := h.owned a ⟨kind, path⟩ n (by rw [ha]; rfl)
  cases kind with
  | equality => rfl
  | position => simp only [store, DeleteFilter.finishPosDelLoad, hentry]; rfl

/-- The owner of an entry ends its load: the entry is `Loaded` and its waiters are awake. -/
theorem System.Inv.finish (h : s.Inv) (ha : s.phase a = .loading k n) (v : Option π) :
    ((({ s with filter := s.filter.markLoaded k v } : System φ π).goto a (.done none)).notifyWaiters
      (some n)).Inv := by
  have hentry : s.filter.entry k = some (.loading n) := h.owned a k n (by rw [ha]; rfl)
  -- nobody but `a` owned the key
  have hown : ∀ b k' n', (((({ s with filter := s.filter.markLoaded k v } : System φ π).goto a
      (.done none)).notifyWaiters (some n)).phase b).owned = some (k', n') →
      k' ≠ k ∧ (s.phase b).owned = some (k', n') := by
    intro b k' n' hb
    rw [notifyWaiters_phase, Phase.notify_owned] at hb
    obtain ⟨-, hnew⟩ | ⟨hba, hold⟩ := of_goto_phase (fun p => p.owned = some (k', n')) hb
    · cases hnew
    · refine ⟨?_, hold⟩
      intro hk
      subst hk
      exact hba (h.alone b a k' n' n hold (by rw [ha]; rfl))
  have hwait : ∀ b k' n', (((({ s with filter := s.filter.markLoaded k v } : System φ π).goto a
      (.done none)).notifyWaiters (some n)).phase b).waiting = some (k', n') →
      (s.phase b).waiting = some (k', n') := by
    intro b k' n' hb
    rw [notifyWaiters_phase] at hb
    obtain ⟨-, hnew⟩ | ⟨-, hold⟩ := of_goto_phase (fun p => (p.notify (some n)).waiting = some (k', n')) hb
    · cases hnew
    · obtain hsaw | ⟨hparked, -⟩ := Phase.waiting_of_notify hold
      · rw [hsaw]
        rfl
      · rw [hparked]
        rfl
  refine ⟨?_, ?_, ?_, ?_, ?_, ?_, ?_, ?_⟩
  · intro b k' n' hb
    obtain ⟨hk, hold⟩ := hown b k' n' hb
    exact (DeleteFilter.markLoaded_of_ne _ v hk).trans (h.owned b k' n' hold)
  · intro b c k' n' m hb hc
    exact h.alone b c k' n' m (hown b k' n' hb).2 (hown c k' m hc).2
  · intro k' n' hk'
    exact h.entryLt k' n' (DeleteFilter.markLoaded_eq_loading hk').2
  · intro b k' n' hb
    exact h.waitLt b k' n' (hwait b k' n' hb)
  · intro k' k'' n' hk' hk''
    exact h.entryKey k' k'' n' (DeleteFilter.markLoaded_eq_loading hk').2
      (DeleteFilter.markLoaded_eq_loading hk'').2
  · intro b k' k'' n' hb hk''
    exact h.waitKey b k' k'' n' (hwait b k' n' hb) (DeleteFilter.markLoaded_eq_loading hk'').2
  · intro b k' hb
    rw [notifyWaiters_phase] at hb
    obtain ⟨-, hnew⟩ | ⟨-, hold⟩ := of_goto_phase (fun p => p.notify (some n) = .woken k') hb
    · cases hnew
    · show ∃ predicate, (s.filter.markLoaded k v).entry k' = some (.loaded predicate)
      by_cases hk : k' = k
      · subst hk
        exact ⟨v, DeleteFilter.markLoaded_self _ v⟩
      · rw [DeleteFilter.markLoaded_of_ne _ v hk]
        obtain hwoken | ⟨m, hm, hparked⟩ := Phase.of_notify_eq_woken hold
        · exact h.woken b k' hwoken
        · -- a waiter of the notifier waits for the key of its entry
          cases hm
          exact absurd (h.waitKey b k' k n (by rw [hparked]; rfl) hentry) hk
  · intro b hb
    obtain ⟨-, hnew⟩ | ⟨-, hold⟩ := of_goto_phase (· = .unreachable) (Phase.of_notify_eq_unreachable hb)
    · cases hnew
    · exact h.reachable b hold

/-- What a step can do, case by case. -/
inductive System.Moves (s : System φ π) : Event φ π → System φ π → Prop where
  | startEq {a : ℕ} {path : φ} (ha : s.phase a = .idle)
      (hentry : s.filter.entry ⟨.equality, path⟩ = none) :
      s.Moves (.startEq a path)
        (({ s with filter := s.filter.markLoading ⟨.equality, path⟩ } : System φ π).goto a
          (.started path s.filter.fresh))
  | insertEq {a : ℕ} {path : φ} {n : ℕ} (ha : s.phase a = .started path n) :
      s.Moves (.insertEq a)
        (({ s with filter := s.filter.markLoading ⟨.equality, path⟩ } : System φ π).goto a
          (.loading ⟨.equality, path⟩ s.filter.fresh))
  | startPos {a : ℕ} {path : φ} (ha : s.phase a = .idle)
      (hentry : s.filter.entry ⟨.position, path⟩ = none) :
      s.Moves (.startPos a path)
        (({ s with filter := s.filter.markLoading ⟨.position, path⟩ } : System φ π).goto a
          (.loading ⟨.position, path⟩ s.filter.fresh))
  | startPosWait {a : ℕ} {path : φ} {n : ℕ} (ha : s.phase a = .idle)
      (hentry : s.filter.entry ⟨.position, path⟩ = some (.loading n)) :
      s.Moves (.startPos a path) (s.goto a (.saw ⟨.position, path⟩ n))
  | getEqWait {a : ℕ} {path : φ} {n : ℕ} (ha : s.phase a = .idle)
      (hentry : s.filter.entry ⟨.equality, path⟩ = some (.loading n)) :
      s.Moves (.getEq a path) (s.goto a (.saw ⟨.equality, path⟩ n))
  | register {a : ℕ} {k : DeleteKey φ} {n : ℕ} (ha : s.phase a = .saw k n) :
      s.Moves (.register a) (s.goto a (.parked k n))
  | finish {a : ℕ} {k : DeleteKey φ} {n : ℕ} {predicate : π} (ha : s.phase a = .loading k n) :
      s.Moves (.finish a predicate)
        ((s.store a k n predicate).2.notifyWaiters (s.store a k n predicate).1)
  | fail {a : ℕ} (ha : s.phase a ≠ .idle) : s.Moves (.fail a) (s.goto a .failed)
  /-- A future returns: it found an entry, or none, and has nothing to wait for. -/
  | done {e : Event φ π} {a : ℕ} {result : Option π} (ha : ∀ k n, s.phase a ≠ .loading k n) :
      s.Moves e (s.goto a (.done result))
  | unreachable {a : ℕ} {k : DeleteKey φ} (ha : s.phase a = .woken k)
      (hentry : ∀ predicate, s.filter.entry k ≠ some (.loaded predicate)) :
      s.Moves (.resume a) (s.goto a .unreachable)

theorem System.moves_of_step {t : System φ π} {e : Event φ π} (he : s.step e = some t) :
    s.Moves e t := by
  cases e with
  | startEq a path =>
      cases ha : s.phase a with
      | idle =>
          cases hentry : s.filter.entry ⟨.equality, path⟩ with
          | none =>
              simp only [step, ha, DeleteFilter.tryStartEqDelLoad, hentry] at he
              cases he
              exact .startEq ha hentry
          | some l =>
              simp only [step, ha, DeleteFilter.tryStartEqDelLoad, hentry] at he
              cases he
              exact .done (by simp [ha])
      | _ => simp [step, ha] at he
  | insertEq a =>
      simp only [step] at he
      split at he
      · rename_i path n ha
        cases he
        exact .insertEq ha
      · cases he
  | startPos a path =>
      cases ha : s.phase a with
      | idle =>
          cases hentry : s.filter.entry ⟨.position, path⟩ with
          | none =>
              simp only [step, ha, DeleteFilter.tryStartPosDelLoad, hentry] at he
              cases he
              exact .startPos ha hentry
          | some l =>
              cases l with
              | loading n =>
                  simp only [step, ha, DeleteFilter.tryStartPosDelLoad, hentry] at he
                  cases he
                  exact .startPosWait ha hentry
              | loaded v =>
                  simp only [step, ha, DeleteFilter.tryStartPosDelLoad, hentry] at he
                  cases he
                  exact .done (by simp [ha])
      | _ => simp [step, ha] at he
  | getEq a path =>
      cases ha : s.phase a with
      | idle =>
          cases hentry : s.filter.entry ⟨.equality, path⟩ with
          | none =>
              simp only [step, ha, hentry] at he
              cases he
              exact .done (by simp [ha])
          | some l =>
              cases l with
              | loading n =>
                  simp only [step, ha, hentry] at he
                  cases he
                  exact .getEqWait ha hentry
              | loaded v =>
                  simp only [step, ha, hentry] at he
                  cases he
                  exact .done (by simp [ha])
      | _ => simp [step, ha] at he
  | register a =>
      simp only [step] at he
      split at he
      · rename_i ha
        cases he
        exact .register ha
      · cases he
  | finish a predicate =>
      simp only [step] at he
      split at he
      · rename_i ha
        cases he
        exact .finish ha
      · cases he
  | fail a =>
      simp only [step] at he
      split at he
      all_goals first
        | cases he; exact .fail (by simp [*])
        | cases he
  | resume a =>
      simp only [step] at he
      split at he
      · rename_i k ha
        split at he
        · cases he
          exact .done (by simp [ha])
        · cases he
          exact .done (by simp [ha])
        · rename_i hnot
          cases he
          refine .unreachable ha ?_
          intro predicate hentry
          exact hnot predicate hentry
      · cases he

/-- One step keeps the invariant. -/
theorem System.Inv.step {t : System φ π} (h : s.Inv) {e : Event φ π} (he : s.step e = some t) :
    t.Inv := by
  cases moves_of_step he with
  | startEq ha hentry => exact h.markLoading_of_none hentry rfl
  | @insertEq a path n ha =>
      have howned : (s.phase a).owned = some (⟨.equality, path⟩, n) := by
        rw [ha]
        rfl
      refine h.markLoading ?_ ?_ rfl
      · intro b m hb
        exact h.alone b a _ m n hb howned
      · intro v hv
        rw [h.owned a _ n howned] at hv
        cases hv
  | startPos ha hentry => exact h.markLoading_of_none hentry rfl
  | startPosWait ha hentry =>
      refine h.goto rfl ?_ nofun nofun
      intro k' n' hw
      cases hw
      exact .inr hentry
  | getEqWait ha hentry =>
      refine h.goto rfl ?_ nofun nofun
      intro k' n' hw
      cases hw
      exact .inr hentry
  | register ha =>
      refine h.goto rfl ?_ nofun nofun
      intro k' n' hw
      cases hw
      exact .inl (by rw [ha]; rfl)
  | finish ha =>
      rw [h.store_eq ha]
      exact h.finish ha _
  | fail ha => exact h.goto rfl nofun nofun nofun
  | done ha => exact h.goto rfl nofun nofun nofun
  | unreachable ha hentry =>
      obtain ⟨v, hv⟩ := h.woken _ _ ha
      exact absurd hv (hentry v)

/-- The invariant holds in every run, so the `unreachable!` after waking is never taken. -/
theorem System.inv_of_run {t : System φ π}
    (hrun : Relation.ReflTransGen System.Step System.init t) : t.Inv := by
  induction hrun with
  | refl => exact inv_init
  | tail _ hstep ih =>
      obtain ⟨e, he⟩ := hstep
      exact ih.step he

end

/-! ### The end of a load as one step -/

section

variable {s : System φ π} {a : ℕ} {k : DeleteKey φ} {n : ℕ} {p : Phase φ π}

/-- The future of an event. -/
def Event.future : Event φ π → ℕ
  | .startEq a _ | .insertEq a | .startPos a _ | .getEq a _ | .register a | .finish a _ | .fail a
  | .resume a => a

theorem System.notifyWaiters_goto (s : System φ π) (a : ℕ) (p : Phase φ π) (m : Option ℕ) :
    (s.goto a p).notifyWaiters m = (s.notifyWaiters m).goto a (p.notify m) := by
  simp only [notifyWaiters, goto, System.mk.injEq, true_and]
  funext b
  by_cases hb : b = a
  · subst hb
    rw [Function.update_self, Function.update_self]
  · rw [Function.update_of_ne hb, Function.update_of_ne hb]

theorem Phase.notify_comm (p : Phase φ π) (m m' : Option ℕ) :
    (p.notify m).notify m' = (p.notify m').notify m := by
  cases p with
  | parked k n => by_cases hm : m = some n <;> by_cases hm' : m' = some n <;> simp [notify, hm, hm']
  | _ => rfl

variable [DecidableEq φ]

theorem System.store_notifyWaiters (s : System φ π) (a : ℕ) (k : DeleteKey φ) (n : ℕ) (predicate : π)
    (m : Option ℕ) : (s.notifyWaiters m).store a k n predicate =
      ((s.store a k n predicate).1, (s.store a k n predicate).2.notifyWaiters m) := by
  simp only [store, notifyWaiters_goto]
  rfl

/-- A step that registers nobody may as well come after the notifier has fired. -/
theorem System.step_notifyWaiters {t : System φ π} {e : Event φ π} (m : Option ℕ)
    (he : ∀ b, e ≠ .register b) (h : s.step e = some t) :
    (s.notifyWaiters m).step e = some (t.notifyWaiters m) := by
  cases e with
  | startEq b path =>
      cases hb : s.phase b with
      | idle =>
          rcases hstart : s.filter.tryStartEqDelLoad path with ⟨started, F⟩
          cases started <;> simp only [step, hb, hstart] at h <;> cases h <;>
            simp only [step, notifyWaiters_phase, notifyWaiters_filter, hb, Phase.notify, hstart,
              notifyWaiters_goto] <;> rfl
      | _ => simp [step, hb] at h
  | insertEq b =>
      cases hb : s.phase b with
      | started path n =>
          simp only [step, hb] at h
          cases h
          simp only [step, notifyWaiters_phase, notifyWaiters_filter, hb, Phase.notify,
            notifyWaiters_goto]
          rfl
      | _ => simp [step, hb] at h
  | startPos b path =>
      cases hb : s.phase b with
      | idle =>
          rcases hstart : s.filter.tryStartPosDelLoad path with ⟨action, F⟩
          cases action <;> simp only [step, hb, hstart] at h <;> cases h <;>
            simp only [step, notifyWaiters_phase, notifyWaiters_filter, hb, Phase.notify, hstart,
              notifyWaiters_goto] <;> rfl
      | _ => simp [step, hb] at h
  | getEq b path =>
      cases hb : s.phase b with
      | idle =>
          rcases hentry : s.filter.entry ⟨.equality, path⟩ with _ | l
          · simp only [step, hb, hentry] at h
            cases h
            simp only [step, notifyWaiters_phase, notifyWaiters_filter, hb, Phase.notify, hentry,
              notifyWaiters_goto]
          · cases l <;> simp only [step, hb, hentry] at h <;> cases h <;>
              simp only [step, notifyWaiters_phase, notifyWaiters_filter, hb, Phase.notify, hentry,
                notifyWaiters_goto]
      | _ => simp [step, hb] at h
  | register b => exact absurd rfl (he b)
  | finish b predicate =>
      cases hb : s.phase b with
      | loading k n =>
          simp only [step, hb] at h
          cases h
          simp only [step, notifyWaiters_phase, hb, Phase.notify, store_notifyWaiters]
          simp only [notifyWaiters, Option.some.injEq, System.mk.injEq, true_and]
          funext c
          exact Phase.notify_comm _ _ _
      | _ => simp [step, hb] at h
  | fail b =>
      -- a parked future that is dropped may have been woken before
      cases hb : s.phase b with
      | parked k n =>
          simp only [step, hb] at h
          cases h
          by_cases hm : m = some n <;>
            simp [step, notifyWaiters_phase, hb, Phase.notify, notifyWaiters_goto, hm]
      | loading k n =>
          simp only [step, hb] at h
          cases h
          simp only [step, notifyWaiters_phase, hb, Phase.notify, notifyWaiters_goto]
      | woken k =>
          simp only [step, hb] at h
          cases h
          simp only [step, notifyWaiters_phase, hb, Phase.notify, notifyWaiters_goto]
      | _ => simp [step, hb] at h
  | resume b =>
      cases hb : s.phase b with
      | woken k =>
          simp only [step, hb] at h
          simp only [step, notifyWaiters_phase, notifyWaiters_filter, hb, Phase.notify]
          split at h <;> cases h <;> simp only [notifyWaiters_goto, Phase.notify, *]
      | _ => simp [step, hb] at h

/-- What another future does between the write and `notify_waiters` it could have done before both or
after both, with the same outcome. -/
theorem System.store_step_notify {t : System φ π} {e : Event φ π} {predicate : π}
    (ha : s.phase a = .loading k n) (he : e.future ≠ a)
    (h : (s.store a k n predicate).2.step e = some t) :
    (∃ u, s.step e = some u ∧
      u.step (.finish a predicate) = some (t.notifyWaiters (s.store a k n predicate).1)) ∨
    ∃ w, s.step (.finish a predicate) = some w ∧
      w.step e = some (t.notifyWaiters (s.store a k n predicate).1) := by
  have hfinish : s.step (.finish a predicate) =
      some ((s.store a k n predicate).2.notifyWaiters (s.store a k n predicate).1) := by
    simp only [step, ha]
  by_cases hreg : ∃ b, e = .register b
  · obtain ⟨b, rfl⟩ := hreg
    left
    have hba : b ≠ a := he
    have hphase : (s.store a k n predicate).2.phase b = s.phase b := Function.update_of_ne hba ..
    cases hb : s.phase b with
    | saw k' n' =>
        simp only [step, hphase, hb] at h
        cases h
        refine ⟨s.goto b (.parked k' n'), by simp only [step, hb], ?_⟩
        simp only [step, goto_phase_of_ne hba.symm, ha]
        simp only [store, goto]
        rw [Function.update_comm hba]
    | _ => simp [step, hphase, hb] at h
  · right
    refine ⟨_, hfinish, step_notifyWaiters _ ?_ h⟩
    intro b hb
    exact hreg ⟨b, hb⟩

end

/-! ### Runs in which nobody is stranded -/

section

variable {s : System φ π} {a : ℕ} {k : DeleteKey φ} {n : ℕ} {p : Phase φ π}

/-- The three situations to avoid.  A future looks at a loading entry only while its load is running,
neither between the two writes of its loader nor after it has failed; a load does not fail while
somebody waits for it; and it does not finish while somebody has read its notifier but is not yet
registered on it. -/
def System.Careful (s : System φ π) : Event φ π → Prop
  | .startPos _ path => ∀ n, s.filter.entry ⟨.position, path⟩ = some (.loading n) →
      ∃ b, s.phase b = .loading ⟨.position, path⟩ n
  | .getEq _ path => ∀ n, s.filter.entry ⟨.equality, path⟩ = some (.loading n) →
      ∃ b, s.phase b = .loading ⟨.equality, path⟩ n
  | .fail a => ∀ k n, s.phase a = .loading k n → ∀ b, (s.phase b).waiting ≠ some (k, n)
  | .finish a _ => ∀ k n, s.phase a = .loading k n → ∀ b, s.phase b ≠ .saw k n
  | _ => True

/-- Everybody who waits, or is about to, has a live load to wait for. -/
def System.Attended (s : System φ π) : Prop :=
  ∀ a k n, (s.phase a).waiting = some (k, n) → ∃ b, s.phase b = .loading k n

/-- A future that nobody waits for moves on. -/
theorem System.Attended.goto (h : s.Attended) (F : DeleteFilter φ π)
    (hkeep : ∀ c k n, (s.phase c).waiting = some (k, n) → s.phase a ≠ .loading k n)
    (hp : ∀ k n, p.waiting = some (k, n) → ∃ b, b ≠ a ∧ s.phase b = .loading k n) :
    (({ s with filter := F } : System φ π).goto a p).Attended := by
  intro c k n hc
  have hlive : ∃ b, b ≠ a ∧ s.phase b = .loading k n := by
    obtain ⟨-, hnew⟩ | ⟨-, hold⟩ := of_goto_phase (fun p => p.waiting = some (k, n)) hc
    · exact hp k n hnew
    · obtain ⟨b, hb⟩ := h c k n hold
      refine ⟨b, ?_, hb⟩
      intro hba
      subst hba
      exact hkeep c k n hold hb
  obtain ⟨b, hba, hb⟩ := hlive
  exact ⟨b, by rw [goto_phase_of_ne hba, hb]⟩

/-- A future that has no load of its own begins to wait for one that is alive. -/
theorem System.Attended.goto_waiting (h : s.Attended) (ha : ∀ k n, s.phase a ≠ .loading k n)
    (hp : p.waiting = some (k, n)) (hlive : ∃ b, s.phase b = .loading k n) : (s.goto a p).Attended := by
  refine h.goto s.filter (fun _ k n _ => ha k n) ?_
  intro k' n' hw
  obtain ⟨rfl, rfl⟩ : k = k' ∧ n = n' := Prod.mk.inj (Option.some.inj (hp.symm.trans hw))
  obtain ⟨b, hb⟩ := hlive
  refine ⟨b, ?_, hb⟩
  intro hba
  subst hba
  exact ha k n hb

/-- A load that ends wakes everybody who waits for it, provided they are registered. -/
theorem System.Attended.finish (h : s.Attended) (ha : s.phase a = .loading k n)
    (hsaw : ∀ b, s.phase b ≠ .saw k n) (F : DeleteFilter φ π) :
    ((({ s with filter := F } : System φ π).goto a (.done none)).notifyWaiters (some n)).Attended := by
  intro c k' n' hc
  rw [notifyWaiters_phase] at hc
  have hstill : ((s.phase c).notify (some n)).waiting = some (k', n') := by
    obtain ⟨-, hnew⟩ | ⟨-, hold⟩ := of_goto_phase (fun p => (p.notify (some n)).waiting = some (k', n')) hc
    · cases hnew
    · exact hold
  have hold : (s.phase c).waiting = some (k', n') := by
    obtain hw | ⟨hw, -⟩ := Phase.waiting_of_notify hstill <;> rw [hw] <;> rfl
  obtain ⟨b, hb⟩ := h c k' n' hold
  have hba : b ≠ a := by
    -- the load of a future that still waits is not the one that has ended
    intro hba
    subst hba
    rw [ha] at hb
    cases hb
    obtain hw | ⟨-, hne⟩ := Phase.waiting_of_notify hstill
    · exact hsaw c hw
    · exact hne rfl
  refine ⟨b, ?_⟩
  rw [notifyWaiters_phase, goto_phase_of_ne hba]
  show (s.phase b).notify (some n) = _
  rw [hb]
  rfl

variable [DecidableEq φ]

/-- A future that is parked on a notifier has the entry of its file `Loading` with that notifier, and a
live load of the file whose last step fires it; and no future is in the `unreachable!` branch. -/
def System.NoneStranded (s : System φ π) : Prop :=
  (∀ a k n, s.phase a = .parked k n → s.filter.entry k = some (.loading n) ∧
    ∃ b, s.phase b = .loading k n ∧ ∀ predicate, (s.store b k n predicate).1 = some n) ∧
  ∀ a, s.phase a ≠ .unreachable

/-- A careful step leaves nobody without a load to wait for. -/
theorem System.Attended.step {t : System φ π} (h : s.Attended) (hinv : s.Inv) {e : Event φ π}
    (hcareful : s.Careful e) (he : s.step e = some t) : t.Attended := by
  cases moves_of_step he with
  | startEq ha hentry => exact h.goto _ (by simp [ha]) nofun
  | insertEq ha => exact h.goto _ (by simp [ha]) nofun
  | startPos ha hentry => exact h.goto _ (by simp [ha]) nofun
  | startPosWait ha hentry => exact h.goto_waiting (by simp [ha]) rfl (hcareful _ hentry)
  | getEqWait ha hentry => exact h.goto_waiting (by simp [ha]) rfl (hcareful _ hentry)
  | register ha => exact h.goto_waiting (by simp [ha]) rfl (h _ _ _ (by rw [ha]; rfl))
  | finish ha =>
      rw [hinv.store_eq ha]
      exact h.finish ha (hcareful _ _ ha) _
  | fail ha =>
      refine h.goto s.filter ?_ nofun
      intro c k n hc hload
      exact hcareful k n hload c hc
  | done ha => exact h.goto s.filter (fun _ k n _ => ha k n) nofun
  | unreachable ha hentry => exact h.goto s.filter (by simp [ha]) nofun

/-- One step of a run that avoids the three situations. -/
def System.CarefulStep (s s' : System φ π) : Prop :=
  ∃ e : Event φ π, s.Careful e ∧ s.step e = some s'

/-- **No future is stranded** in a run that avoids the three situations: whoever is parked has the
entry `Loading` with its own notifier and a live load that is going to fire it, and nobody reaches the
`unreachable!` branch. -/
theorem noneStranded_of_carefulRun {s : System φ π}
    (hrun : Relation.ReflTransGen System.CarefulStep System.init s) : s.NoneStranded := by
  have hboth : s.Inv ∧ s.Attended := by
    induction hrun with
    | refl => exact ⟨System.inv_init, nofun⟩
    | tail _ hstep ih =>
        obtain ⟨e, hcareful, he⟩ := hstep
        exact ⟨ih.1.step he, ih.2.step ih.1 hcareful he⟩
  obtain ⟨hinv, hatt⟩ := hboth
  refine ⟨?_, hinv.reachable⟩
  intro a k n ha
  obtain ⟨b, hb⟩ := hatt a k n (by rw [ha]; rfl)
  refine ⟨hinv.owned b k n (by rw [hb]; rfl), b, hb, ?_⟩
  intro predicate
  rw [hinv.store_eq hb]

end

/-- The events one after the other. -/
def System.run [DecidableEq φ] (s : System φ π) (es : List (Event φ π)) : Option (System φ π) :=
  es.foldlM System.step s

theorem System.reaches_of_run [DecidableEq φ] {s t : System φ π} {es : List (Event φ π)}
    (h : s.run es = some t) : Relation.ReflTransGen System.Step s t := by
  induction es generalizing s with
  | nil =>
      cases h
      exact .refl
  | cons e es ih =>
      rw [run, List.foldlM_cons] at h
      obtain ⟨u, hu, hrest⟩ := Option.bind_eq_some_iff.mp h
      exact .head ⟨e, hu⟩ (ih hrest)

/-- A future looks up and registers on an equality delete file whose load then fails: its sender is
dropped, the spawned task panics on `unwrap`, and the entry stays `Loading`. -/
def failedLoad : List (Event String Expr.Predicate) :=
  [.startEq 0 "d", .insertEq 0, .getEq 1 "d", .register 1, .fail 0]

/-- A future reads the notifier of `try_start_eq_del_load`, which `insert_equality_delete` replaces. -/
def replacedNotifier : List (Event String Expr.Predicate) :=
  [.startEq 0 "d", .getEq 1 "d", .insertEq 0, .register 1, .finish 0 .alwaysTrue]

/-- A future is told to wait, and the load finishes before it calls `notified()`. -/
def missedWakeup : List (Event String Expr.Predicate) :=
  [.startPos 0 "d", .startPos 1 "d", .finish 0 .alwaysTrue, .register 1]

/-- After the events the second future is parked, and nobody will wake it. -/
def Strands (es : List (Event String Expr.Predicate)) : Prop :=
  ∃ s k n, System.init.run es = some s ∧ Relation.ReflTransGen System.Step System.init s ∧
    s.phase 1 = .parked k n ∧ ¬ s.NoneStranded

theorem strands_of_run {es : List (Event String Expr.Predicate)} {s : System String Expr.Predicate}
    (k : DeleteKey String) (n : ℕ) (hrun : System.init.run es = some s) (hparked : s.phase 1 = .parked k n)
    (hstranded : ¬ s.NoneStranded) : Strands es :=
  ⟨s, k, n, hrun, System.reaches_of_run hrun, hparked, hstranded⟩

/-- The three situations occur: each of the three runs reaches a state with a stranded future. -/
theorem reachable_stranded : Strands failedLoad ∧ Strands replacedNotifier ∧ Strands missedWakeup := by
  refine ⟨strands_of_run ⟨.equality, "d"⟩ 1 rfl rfl fun h => ?_,
    strands_of_run ⟨.equality, "d"⟩ 0 rfl rfl fun h => ?_,
    strands_of_run ⟨.position, "d"⟩ 0 rfl rfl fun h => ?_⟩
  · obtain ⟨-, b, hb, -⟩ := h.1 1 ⟨.equality, "d"⟩ 1 rfl
    match b, hb with
    | 0, hb => cases hb
    | 1, hb => cases hb
    | b + 2, hb => cases hb
  · obtain ⟨hentry, -⟩ := h.1 1 ⟨.equality, "d"⟩ 0 rfl
    cases hentry
  · obtain ⟨hentry, -⟩ := h.1 1 ⟨.position, "d"⟩ 0 rfl
    cases hentry

/-- A careful run with a future that waits. -/
theorem carefulRun_waiter :
    ∃ s : System String Expr.Predicate, Relation.ReflTransGen System.CarefulStep System.init s ∧
      s.phase 1 = .parked ⟨.equality, "d"⟩ 1 := by
  refine ⟨_, .tail (.tail (.tail (.single ⟨.startEq 0 "d", trivial, rfl⟩) ⟨.insertEq 0, trivial, rfl⟩)
    ⟨.getEq 1 "d", ?_, rfl⟩) ⟨.register 1, trivial, rfl⟩, rfl⟩
  intro n hn
  cases hn
  exact ⟨0, rfl⟩

theorem noneStranded_waiter :
    ∃ s : System String Expr.Predicate, s.phase 1 = .parked ⟨.equality, "d"⟩ 1 ∧ s.NoneStranded := by
  obtain ⟨s, hrun, hparked⟩ := carefulRun_waiter
  exact ⟨s, hparked, noneStranded_of_carefulRun hrun⟩

end IcebergDb.Delete
