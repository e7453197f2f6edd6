import Mathlib.Algebra.GroupWithZero.Nat
import Mathlib.Data.List.Basic
import Mathlib.Tactic.Common

/-!
# Run-length coded selections

A sequence of decisions "take" or "leave", one for each element of a list, is stored as runs.

* `expand` — the decisions a list of runs stands for;
* `mask` — the elements that are taken;
* `meet` and `join` — both selections, either selection; what the longer one has left over stays;
* `mask_map` — **a selection that decides by a test takes what a filter keeps**;
* `mask_meet_map` — a selection together with one by a test; `getElem?_meet`, `getElem?_join` — single elements;
* `Retains` — a selection that takes what a test keeps, and `Retains.filter_mask`, that nothing is lost then;
* `getElem?_expand_blocks` — a decision for each block of a list, and what it is for an element.
-/

namespace IcebergDb.RunLength

variable {α β : Type}

/-- A run: a value and how often it stands in a row. -/
structure Run (β : Type) where
  count : ℕ
  value : β
deriving DecidableEq

/-- The sequence that a list of runs stands for. -/
def expand (rs : List (Run β)) : List β := rs.flatMap fun r => List.replicate r.count r.value

@[simp] theorem expand_nil : expand ([] : List (Run β)) = [] := rfl

@[simp] theorem expand_cons (r : Run β) (rs : List (Run β)) :
    expand (r :: rs) = List.replicate r.count r.value ++ expand rs := rfl

@[simp] theorem expand_append (rs ss : List (Run β)) : expand (rs ++ ss) = expand rs ++ expand ss :=
  List.flatMap_append

/-- Every element as a run of its own. -/
def ofList (l : List β) : List (Run β) := l.map (Run.mk 1)

@[simp] theorem expand_ofList (l : List β) : expand (ofList l) = l := by
  induction l with
  | nil => rfl
  | cons b l ih =>
      show List.replicate 1 b ++ expand (ofList l) = b :: l
      rw [ih]
      rfl

/-- A constant test along a list is one run. -/
theorem map_eq_replicate {l : List α} {f : α → β} {b : β} (h : ∀ a ∈ l, f a = b) :
    l.map f = List.replicate l.length b := by
  rw [List.eq_replicate_iff]
  refine ⟨List.length_map f, ?_⟩
  intro c hc
  obtain ⟨a, ha, rfl⟩ := List.mem_map.mp hc
  exact h a ha

/-! ### Selections -/

/-- The elements at which the selection says "take"; nothing is taken where the selection has ended. -/
def mask : List Bool → List α → List α
  | true :: bs, a :: l => a :: mask bs l
  | false :: bs, _ :: l => mask bs l
  | _, _ => []

@[simp] theorem mask_nil (bs : List Bool) : mask bs ([] : List α) = [] := by
  cases bs with
  | nil => rfl
  | cons b bs => cases b <;> rfl

/-- **A selection by a test is a filter.** -/
theorem mask_map (p : α → Bool) (l : List α) : mask (l.map p) l = l.filter p := by
  induction l with
  | nil => rfl
  | cons a l ih =>
      rw [List.map_cons, List.filter_cons]
      cases p a with
      | true => exact congrArg (a :: ·) ih
      | false => exact ih

theorem map_mask (f : α → β) (bs : List Bool) (l : List α) : (mask bs l).map f = mask bs (l.map f) := by
  induction l generalizing bs with
  | nil => rw [mask_nil, List.map_nil, mask_nil]
  | cons a l ih =>
      cases bs with
      | nil => rfl
      | cons b bs =>
          cases b with
          | true => exact congrArg (f a :: ·) (ih bs)
          | false => exact ih bs

/-- Both selections; the rest of the longer one is kept as it is. -/
def meet : List Bool → List Bool → List Bool
  | a :: as, b :: bs => (a && b) :: meet as bs
  | as, [] => as
  | [], bs => bs

/-- Either selection; the rest of the longer one is kept as it is. -/
def join : List Bool → List Bool → List Bool
  | a :: as, b :: bs => (a || b) :: join as bs
  | as, [] => as
  | [], bs => bs

theorem length_meet {as bs : List Bool} (h : as.length = bs.length) : (meet as bs).length = as.length := by
  induction as generalizing bs with
  | nil =>
      obtain rfl := List.length_eq_zero_iff.mp h.symm
      rfl
  | cons a as ih =>
      cases bs with
      | nil => cases h
      | cons b bs => exact congrArg (· + 1) (ih (Nat.succ.inj h))

theorem length_join {as bs : List Bool} (h : as.length = bs.length) : (join as bs).length = as.length := by
  induction as generalizing bs with
  | nil =>
      obtain rfl := List.length_eq_zero_iff.mp h.symm
      rfl
  | cons a as ih =>
      cases bs with
      | nil => cases h
      | cons b bs => exact congrArg (· + 1) (ih (Nat.succ.inj h))

/-- Both selections decide element by element. -/
theorem getElem?_meet {as bs : List Bool} {i : ℕ} {a b : Bool} (ha : as[i]? = some a) (hb : bs[i]? = some b) :
    (meet as bs)[i]? = some (a && b) := by
  induction as generalizing bs i with
  | nil => cases ha
  | cons a' as ih =>
      cases bs with
      | nil => cases hb
      | cons b' bs =>
          cases i with
          | zero =>
              cases ha
              cases hb
              rfl
          | succ i => exact ih ha hb

theorem getElem?_join {as bs : List Bool} {i : ℕ} {a b : Bool} (ha : as[i]? = some a) (hb : bs[i]? = some b) :
    (join as bs)[i]? = some (a || b) := by
  induction as generalizing bs i with
  | nil => cases ha
  | cons a' as ih =>
      cases bs with
      | nil => cases hb
      | cons b' bs =>
          cases i with
          | zero =>
              cases ha
              cases hb
              rfl
          | succ i => exact ih ha hb

/-- A selection together with one by a test. -/
theorem mask_meet_map {bs : List Bool} {l : List α} (q : α → Bool) (h : bs.length = l.length) :
    mask (meet bs (l.map q)) l = (mask bs l).filter q := by
  induction bs generalizing l with
  | nil =>
      obtain rfl := List.length_eq_zero_iff.mp h.symm
      rfl
  | cons b bs ih =>
      cases l with
      | nil => cases h
      | cons a l =>
          have htail := ih (l := l) (Nat.succ.inj h)
          show mask ((b && q a) :: meet bs (l.map q)) (a :: l) = _
          cases b with
          | false => exact htail
          | true =>
              show mask (q a :: meet bs (l.map q)) (a :: l) = (a :: mask bs l).filter q
              rw [List.filter_cons]
              cases q a with
              | true => exact congrArg (a :: ·) htail
              | false => exact htail

/-! ### Selections that lose nothing -/

/-- The selection is as long as the list and takes every element that the test keeps. -/
structure Retains (p : α → Bool) (bs : List Bool) (l : List α) : Prop where
  length : bs.length = l.length
  takes : ∀ (i : ℕ) a, l[i]? = some a → p a = true → bs[i]? = some true

theorem Retains.nil (p : α → Bool) : Retains p [] [] := ⟨rfl, fun _ _ h => by cases h⟩

theorem Retains.append {p : α → Bool} {bs cs : List Bool} {l m : List α} (h : Retains p bs l)
    (h' : Retains p cs m) : Retains p (bs ++ cs) (l ++ m) := by
  refine ⟨by rw [List.length_append, List.length_append, h.length, h'.length], ?_⟩
  intro i a ha hp
  rcases Nat.lt_or_ge i l.length with hi | hi
  · rw [List.getElem?_append_left hi] at ha
    rw [List.getElem?_append_left (h.length ▸ hi)]
    exact h.takes i a ha hp
  · rw [List.getElem?_append_right hi] at ha
    rw [List.getElem?_append_right (h.length ▸ hi), h.length]
    exact h'.takes _ a ha hp

theorem Retains.of_map {f : α → β} {p : β → Bool} {bs : List Bool} {l : List α} (h : Retains p bs (l.map f)) :
    Retains (fun a => p (f a)) bs l := by
  refine ⟨h.length.trans (List.length_map f), ?_⟩
  intro i a ha hp
  refine h.takes i (f a) ?_ hp
  rw [List.getElem?_map, ha]
  rfl

/-- **Nothing of what the test keeps is lost.** -/
theorem Retains.filter_mask {p : α → Bool} {bs : List Bool} {l : List α} (h : Retains p bs l) :
    (mask bs l).filter p = l.filter p := by
  obtain ⟨hlength, htakes⟩ := h
  induction l generalizing bs with
  | nil => rw [mask_nil]
  | cons a l ih =>
      cases bs with
      | nil => cases hlength
      | cons b bs =>
          have htail := ih (Nat.succ.inj hlength) fun i c hc hp => htakes (i + 1) c hc hp
          cases b with
          | true =>
              show (a :: mask bs l).filter p = _
              rw [List.filter_cons, List.filter_cons, htail]
          | false =>
              show (mask bs l).filter p = _
              have ha : ¬ p a = true := fun hp => by cases htakes 0 a rfl hp
              rw [List.filter_cons, if_neg ha, htail]

/-! ### Blocks -/

/-- One decision for each block of a list. -/
def blocks (sizes : List ℕ) (flags : List β) : List (Run β) := List.zipWith Run.mk sizes flags

theorem length_expand_blocks {sizes : List ℕ} {flags : List β} (h : flags.length = sizes.length) :
    (expand (blocks sizes flags)).length = sizes.sum := by
  induction sizes generalizing flags with
  | nil => simp [blocks]
  | cons n sizes ih =>
      cases flags with
      | nil => cases h
      | cons b flags =>
          have htail : (expand (blocks sizes flags)).length = _ := ih (Nat.succ.inj h)
          show (List.replicate n b ++ expand (blocks sizes flags)).length = _
          rw [List.length_append, List.length_replicate, htail, List.sum_cons]

/-- **An element is decided as its block.** -/
theorem getElem?_expand_blocks {pages : List (List α)} {flags : List β} (h : flags.length = pages.length)
    {i : ℕ} {a : α} (ha : pages.flatten[i]? = some a) :
    ∃ (k : ℕ) (page : List α) (flag : β), pages[k]? = some page ∧ flags[k]? = some flag ∧ a ∈ page ∧
      (expand (blocks (pages.map List.length) flags))[i]? = some flag := by
  induction pages generalizing flags i with
  | nil => cases ha
  | cons page pages ih =>
      cases flags with
      | nil => cases h
      | cons flag flags =>
          have hexpand : expand (blocks ((page :: pages).map List.length) (flag :: flags)) =
              List.replicate page.length flag ++ expand (blocks (pages.map List.length) flags) := rfl
          rw [List.flatten_cons] at ha
          rw [hexpand]
          rcases Nat.lt_or_ge i page.length with hi | hi
          · rw [List.getElem?_append_left hi] at ha
            refine ⟨0, page, flag, rfl, rfl, List.mem_of_getElem? ha, ?_⟩
            rw [List.getElem?_append_left (by rw [List.length_replicate]; exact hi),
              List.getElem?_replicate_of_lt hi]
          · rw [List.getElem?_append_right hi] at ha
            obtain ⟨k, page', flag', hpage, hflag, hmem, hget⟩ := ih (Nat.succ.inj h) ha
            refine ⟨k + 1, page', flag', hpage, hflag, hmem, ?_⟩
            rw [List.getElem?_append_right (by rw [List.length_replicate]; exact hi),
              List.length_replicate]
            exact hget

end IcebergDb.RunLength
