import Mathlib.Data.List.Basic
import Mathlib.Data.List.Range
import Mathlib.Logic.Nontrivial.Basic

/-!
# Following the cursors of pages

A list that is served in pages: every page but the last comes with a cursor, and the request with that cursor is
answered with the next page.  Between the client and the server a cursor may be changed, or lost.

* `follow` — the client, which asks until a page has no cursor, and adds up what it gets;
* `Serves` — the server has the pages, each under the name of its cursor, and may answer anything else as it likes;
* `Complete` — whatever the pages and the server are, the client ends with all of them, in order;
* `complete_iff` — **the client is complete exactly when every cursor reaches the server under its name**.
-/

namespace IcebergDb.Paging

variable {τ α ε ρ σ : Type}

/-- One page, and the cursor of the next. -/
abbrev Page (τ α : Type) := List α × Option τ

/-- Ask for a page, and for the next one as long as there is a cursor; `none` when the fuel runs out. -/
def follow (fetch : Option τ → Except ε (Page τ α)) :
    ℕ → Option τ → List α → Option (Except ε (List α))
  | 0, _, _ => none
  | fuel + 1, cursor, items =>
      match fetch cursor with
      | .error e => some (.error e)
      | .ok (page, none) => some (.ok (items ++ page))
      | .ok (page, some next) => follow fetch fuel (some next) (items ++ page)

/-- The cursor of a page: none for the first, and then the tokens. -/
def cursor (tokens : List τ) : ℕ → Option τ
  | 0 => none
  | i + 1 => tokens[i]?

/-- What a request with a cursor comes to: `request` is what the server sees of it, and `read` is what the client
reads from the reply. -/
def fetch (request : Option τ → Except ε ρ) (read : σ → Except ε (Page τ α)) (server : ρ → σ) (cursor : Option τ) :
    Except ε (Page τ α) :=
  match request cursor with
  | .error e => .error e
  | .ok r => read (server r)

/-- The server has the pages, each under the name of its cursor. -/
structure Serves (read : σ → Except ε (Page τ α)) (name : Option τ → ρ) (tokens : List τ) (pages : List (List α))
    (server : ρ → σ) : Prop where
  length : pages.length = tokens.length + 1
  page : ∀ i page, pages[i]? = some page → read (server (name (cursor tokens i))) = .ok (page, tokens[i]?)

/-- The client gets all pages from every server that has them. -/
def Complete (request : Option τ → Except ε ρ) (read : σ → Except ε (Page τ α)) (name : Option τ → ρ)
    (tokens : List τ) : Prop :=
  ∀ pages server, Serves read name tokens pages server →
    ∃ fuel, follow (fetch request read server) fuel none [] = some (.ok pages.flatten)

/-! ### The client -/

section

variable {fetch : Option τ → Except ε (Page τ α)} {fuel : ℕ} {c : Option τ} {items result : List α}

theorem follow_error {e : ε} (h : fetch c = .error e) : follow fetch (fuel + 1) c items = some (.error e) := by
  rw [follow, h]

theorem follow_last {page : List α} (h : fetch c = .ok (page, none)) :
    follow fetch (fuel + 1) c items = some (.ok (items ++ page)) := by
  rw [follow, h]

theorem follow_next {page : List α} {t : τ} (h : fetch c = .ok (page, some t)) :
    follow fetch (fuel + 1) c items = follow fetch fuel (some t) (items ++ page) := by
  rw [follow, h]

/-- Fuel that is left over does not matter. -/
theorem follow_add {r : Except ε (List α)} (h : follow fetch fuel c items = some r) (more : ℕ) :
    follow fetch (fuel + more) c items = some r := by
  induction fuel generalizing c items with
  | zero => cases h
  | succ fuel ih =>
      rw [Nat.add_right_comm]
      match hpage : fetch c with
      | .error e =>
          rw [follow_error hpage] at h
          rw [follow_error hpage]
          exact h
      | .ok (page, none) =>
          rw [follow_last hpage] at h
          rw [follow_last hpage]
          exact h
      | .ok (page, some t) =>
          rw [follow_next hpage] at h
          rw [follow_next hpage]
          exact ih h

/-- A run that ends well began with a page. -/
theorem exists_page_of_follow (h : follow fetch fuel c items = some (.ok result)) :
    ∃ page next, fetch c = .ok (page, next) ∧ (items ++ page) <+: result := by
  induction fuel generalizing c items with
  | zero => cases h
  | succ fuel ih =>
      match hpage : fetch c with
      | .error e =>
          rw [follow_error hpage] at h
          cases h
      | .ok (page, none) =>
          rw [follow_last hpage] at h
          obtain rfl := Except.ok.inj (Option.some.inj h)
          exact ⟨page, none, rfl, List.prefix_rfl⟩
      | .ok (page, some t) =>
          rw [follow_next hpage] at h
          obtain ⟨following, -, -, hfront⟩ := ih h
          exact ⟨page, some t, rfl, (List.prefix_append _ following).trans hfront⟩

end

/-! ### Servers -/

section

variable {request : Option τ → Except ε ρ} {read : σ → Except ε (Page τ α)} {name : Option τ → ρ}
  {tokens : List τ} {pages : List (List α)} {server : ρ → σ} {i : ℕ}

/-- A page that is asked for under its name. -/
theorem Serves.fetch_eq (h : Serves read name tokens pages server) (hi : i < pages.length)
    (hrequest : request (cursor tokens i) = .ok (name (cursor tokens i))) :
    fetch request read server (cursor tokens i) = .ok (pages[i], tokens[i]?) := by
  unfold fetch
  rw [hrequest]
  exact h.page i pages[i] (List.getElem?_eq_getElem hi)

/-- **A step of a run whose cursor comes under its name.** -/
theorem Serves.follow_step (h : Serves read name tokens pages server) (hi : i < tokens.length)
    (hrequest : request (cursor tokens i) = .ok (name (cursor tokens i))) (fuel : ℕ) :
    follow (fetch request read server) (fuel + 1) (cursor tokens i) (pages.take i).flatten =
      follow (fetch request read server) fuel (cursor tokens (i + 1)) (pages.take (i + 1)).flatten := by
  have hlt : i < pages.length := by
    rw [h.length]
    omega
  have hnext : tokens[i]? = some tokens[i] := List.getElem?_eq_getElem hi
  have hpage := h.fetch_eq hlt hrequest
  rw [hnext] at hpage
  rw [follow_next hpage, List.take_succ_eq_append_getElem hlt, List.flatten_concat, cursor, hnext]

/-- With the cursors under their names, the rest of the pages is collected. -/
theorem Serves.follow_eq (h : Serves read name tokens pages server)
    (hrequest : ∀ i ≤ tokens.length, request (cursor tokens i) = .ok (name (cursor tokens i))) :
    ∀ fuel i, i + fuel = tokens.length →
      follow (fetch request read server) (fuel + 1) (cursor tokens i) (pages.take i).flatten =
        some (.ok pages.flatten) := by
  intro fuel
  induction fuel with
  | zero =>
      intro i hi
      have hlt : i < pages.length := by
        rw [h.length]
        omega
      have hend : tokens[i]? = none := List.getElem?_eq_none (by omega)
      have hlast : pages.take (i + 1) = pages := List.take_of_length_le (by rw [h.length]; omega)
      have hpage := h.fetch_eq hlt (hrequest i (by omega))
      rw [hend] at hpage
      rw [follow_last hpage, ← List.flatten_concat, ← List.take_succ_eq_append_getElem hlt, hlast]
  | succ fuel ih =>
      intro i hi
      rw [h.follow_step (by omega) (hrequest i (by omega))]
      exact ih (i + 1) (by omega)

/-- As long as the cursors come under their names, a run is at the page it should be at. -/
theorem Serves.exists_follow (h : Serves read name tokens pages server) (hi : i ≤ tokens.length)
    (hrequest : ∀ j < i, request (cursor tokens j) = .ok (name (cursor tokens j))) {fuel : ℕ}
    {r : Except ε (List α)} (hrun : follow (fetch request read server) fuel none [] = some r) :
    ∃ fuel', follow (fetch request read server) fuel' (cursor tokens i) (pages.take i).flatten = some r := by
  induction i with
  | zero => exact ⟨fuel, hrun⟩
  | succ i ih =>
      obtain ⟨fuel', hfollow⟩ := ih (by omega) fun j hj => hrequest j (by omega)
      cases fuel' with
      | zero => cases hfollow
      | succ fuel' =>
          rw [h.follow_step (by omega) (hrequest i (by omega))] at hfollow
          exact ⟨fuel', hfollow⟩

/-! ### Completeness -/

/-- Every page can be replied, and so can an error. -/
structure Repliable (read : σ → Except ε (Page τ α)) (tokens : List τ) : Prop where
  page : ∀ (page : List α) (i : ℕ), ∃ reply, read reply = .ok (page, tokens[i]?)
  error : ∃ reply e, read reply = .error e

/-- Different pages have different names. -/
def Separates (name : Option τ → ρ) (tokens : List τ) : Prop :=
  ∀ i j, i ≤ tokens.length → j ≤ tokens.length → name (cursor tokens i) = name (cursor tokens j) → i = j

/-- A server that has the pages, and replies with an error to everything else. -/
theorem exists_serves (hread : Repliable read tokens) (hname : Separates name tokens)
    (hlength : pages.length = tokens.length + 1) :
    ∃ server, Serves read name tokens pages server ∧
      ∀ r page next, read (server r) = .ok (page, next) →
        ∃ i, r = name (cursor tokens i) ∧ pages[i]? = some page := by
  classical
  obtain ⟨failure, e, hfailure⟩ := hread.error
  choose reply hreply using hread.page
  let server : ρ → σ := fun r =>
    if h : ∃ i < pages.length, r = name (cursor tokens i) then reply (pages.getD h.choose []) h.choose else failure
  have hserver : ∀ i, (hi : i < pages.length) → read (server (name (cursor tokens i))) = .ok (pages[i], tokens[i]?) := by
    intro i hi
    have hex : ∃ j < pages.length, name (cursor tokens i) = name (cursor tokens j) := ⟨i, hi, rfl⟩
    have hchoose : hex.choose = i :=
      (hname i _ (by omega) (by have := hex.choose_spec.1; omega) hex.choose_spec.2).symm
    show read (if h : _ then _ else _) = _
    rw [dif_pos hex, hreply, hchoose, List.getD_eq_getElem?_getD, List.getElem?_eq_getElem hi]
    rfl
  refine ⟨server, ⟨hlength, ?_⟩, ?_⟩
  · intro i page hpage
    obtain ⟨hi, rfl⟩ := List.getElem?_eq_some_iff.mp hpage
    exact hserver i hi
  · intro r page next hok
    by_cases hex : ∃ i < pages.length, r = name (cursor tokens i)
    · obtain ⟨i, hi, rfl⟩ := hex
      rw [hserver i hi] at hok
      obtain ⟨rfl, -⟩ := Prod.mk.inj (Except.ok.inj hok)
      exact ⟨i, rfl, List.getElem?_eq_getElem hi⟩
    · have hfail : server r = failure := dif_neg hex
      rw [hfail, hfailure] at hok
      cases hok

/-- **The client is complete exactly when every cursor reaches the server under its name.** -/
theorem complete_iff [Nontrivial α] (hread : Repliable read tokens) (hname : Separates name tokens) :
    Complete request read name tokens ↔
      ∀ i ≤ tokens.length, request (cursor tokens i) = .ok (name (cursor tokens i)) := by
  constructor
  · intro hcomplete i
    -- by strong induction, the cursors before it come under their names
    induction i using Nat.strong_induction_on with
    | _ i ih =>
        intro hi
        obtain ⟨a, b, hab⟩ := exists_pair_ne α
        -- a page that differs from all others
        let item : ℕ → α := fun j => if j = i then b else a
        let pages : List (List α) := (List.range (tokens.length + 1)).map fun j => [item j]
        have hlength : pages.length = tokens.length + 1 := by simp [pages]
        have hitem : ∀ j (hj : j < pages.length), pages[j] = [item j] := by simp [pages]
        obtain ⟨server, hserves, hother⟩ := exists_serves hread hname hlength
        obtain ⟨fuel, hrun⟩ := hcomplete pages server hserves
        obtain ⟨fuel', hfollow⟩ := hserves.exists_follow hi (fun j hj => ih j hj (by omega)) hrun
        obtain ⟨page, next, hfetch, hfront⟩ := exists_page_of_follow hfollow
        obtain ⟨r, hr, hreply⟩ : ∃ r, request (cursor tokens i) = .ok r ∧ read (server r) = .ok (page, next) := by
          unfold fetch at hfetch
          split at hfetch
          · cases hfetch
          · rename_i r hr
            exact ⟨r, hr, hfetch⟩
        obtain ⟨j, rfl, hj⟩ := hother r page next hreply
        by_cases hji : j = i
        · rw [hr, hji]
        · -- the page of another cursor does not stand at this place
          exfalso
          have hpage : page = [a] := by
            obtain ⟨hlt, rfl⟩ := List.getElem?_eq_some_iff.mp hj
            rw [hitem j hlt]
            exact congrArg (fun x => [x]) (if_neg hji)
          have hi' : i < pages.length := by omega
          have hself : pages[i] = [b] := by
            rw [hitem i hi']
            exact congrArg (fun x => [x]) (if_pos rfl)
          have hsplit : pages.flatten = (pages.take i).flatten ++ ([b] ++ (pages.drop (i + 1)).flatten) := by
            rw [← hself, ← List.flatten_cons, ← List.flatten_append, ← List.drop_eq_getElem_cons hi',
              List.take_append_drop]
          rw [hpage, hsplit, List.prefix_append_right_inj] at hfront
          exact hab (List.cons_prefix_cons.mp hfront).1
  · intro hrequest pages server hserves
    exact ⟨tokens.length + 1, hserves.follow_eq hrequest tokens.length 0 (Nat.zero_add _)⟩

end

end IcebergDb.Paging
