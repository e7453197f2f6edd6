import Mathlib.Data.List.Forall2
import Mathlib.Tactic.Common

/-!
# Computations that may be refused

Functions that check their arguments one after the other and yield an error at the first check that fails.

* `require`, `checkAll` — a check, and one check of everything in a list;
* `bind_eq_ok`, `require_eq_ok` — what is known when a sequence of checks went through;
* `mapM_eq_ok`, `mapM_getElem?` — a computation for each element of a list;
* `foldlM_append` — a loop that stops at the first error, over two lists.
-/

namespace IcebergDb.Checked

variable {ε α β : Type}

/-- A check: the error unless the condition holds. -/
def require (p : Prop) [Decidable p] (e : ε) : Except ε Unit := if p then .ok () else .error e

/-- A sequence went through if both parts did. -/
theorem bind_eq_ok {x : Except ε α} {f : α → Except ε β} {b : β} (h : (x >>= f) = .ok b) :
    ∃ a, x = .ok a ∧ f a = .ok b := by
  cases x with
  | error e => cases h
  | ok a => exact ⟨a, rfl, h⟩

theorem require_eq_ok {p : Prop} [Decidable p] {e : ε} {u : Unit} (h : require p e = .ok u) : p := by
  unfold require at h
  split at h
  · assumption
  · cases h

/-- A check in front of a computation that went through. -/
theorem require_bind {p : Prop} [Decidable p] {e : ε} {f : Unit → Except ε β} {b : β}
    (h : (require p e >>= f) = .ok b) : p ∧ f () = .ok b := by
  obtain ⟨u, hu, hf⟩ := bind_eq_ok h
  exact ⟨require_eq_ok hu, hf⟩

/-- Checks the elements of a list from the first to the last. -/
def checkAll (f : α → Except ε Unit) : List α → Except ε Unit
  | [] => .ok ()
  | a :: l => do
      f a
      checkAll f l

theorem checkAll_eq_ok {f : α → Except ε Unit} {l : List α} {u : Unit} (h : checkAll f l = .ok u) :
    ∀ a ∈ l, f a = .ok () := by
  induction l with
  | nil => simp
  | cons a l ih =>
      obtain ⟨v, ha, hl⟩ := bind_eq_ok (show (f a >>= fun _ => checkAll f l) = .ok u from h)
      intro b hb
      rcases List.mem_cons.mp hb with rfl | hmem
      · exact ha
      · exact ih hl b hmem

theorem mapM_eq_ok {f : α → Except ε β} {l : List α} {m : List β} (h : l.mapM f = .ok m) :
    List.Forall₂ (fun a b => f a = .ok b) l m := by
  induction l generalizing m with
  | nil =>
      cases h
      exact .nil
  | cons a l ih =>
      rw [List.mapM_cons] at h
      obtain ⟨b, hb, hrest⟩ := bind_eq_ok h
      obtain ⟨bs, hbs, hm⟩ := bind_eq_ok hrest
      cases hm
      exact .cons hb (ih hbs)

theorem mapM_getElem? {f : α → Except ε β} {l : List α} {m : List β} (h : l.mapM f = .ok m) {i : ℕ} {a : α}
    (ha : l[i]? = some a) : ∃ b, m[i]? = some b ∧ f a = .ok b := by
  have hall := mapM_eq_ok h
  clear h
  induction hall generalizing i with
  | nil => cases ha
  | cons hab hrest ih =>
      cases i with
      | zero =>
          cases ha
          exact ⟨_, rfl, hab⟩
      | succ i => exact ih ha

/-- A loop over two lists is two loops. -/
theorem foldlM_append {f : β → α → Except ε β} {l m : List α} {b c : β} (h : (l ++ m).foldlM f b = .ok c) :
    ∃ d, l.foldlM f b = .ok d ∧ m.foldlM f d = .ok c := by
  rw [List.foldlM_append] at h
  exact bind_eq_ok h

end IcebergDb.Checked
