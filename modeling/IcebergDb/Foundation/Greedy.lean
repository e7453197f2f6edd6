import Mathlib.Algebra.Order.Monoid.Canonical.Defs
import Mathlib.Data.List.Basic
import Mathlib.Tactic.Common

/-!
# Greedy balancing

Weights arrive one after the other and each goes to a place that carries the least so far.

* `place` — one arrival; `pick` names the place;
* `Picks` — the named place carries the least;
* `Spread` — no place carries more than `m` above another;
* `Spread.place` and `Spread.foldl` — **weights up to `m` keep the loads within `m` of each other**,
  whatever the order in which they arrive.
-/

namespace IcebergDb.Greedy

variable {α : Type}

/-- The weight `s` goes to the place that `pick` names. -/
def place [Add α] (pick : List α → ℕ) (loads : List α) (s : α) : List α :=
  loads.modify (pick loads) (· + s)

/-- The place that is named carries no more than any other. -/
def Picks [LE α] (pick : List α → ℕ) : Prop :=
  ∀ loads, loads ≠ [] → ∃ x, loads[pick loads]? = some x ∧ ∀ b ∈ loads, x ≤ b

/-- What a list holds after one element was changed. -/
theorem mem_modify {l : List α} {i : ℕ} {f : α → α} {a : α} (h : a ∈ l.modify i f) :
    a ∈ l ∨ ∃ x, l[i]? = some x ∧ a = f x := by
  obtain ⟨j, hj⟩ := List.mem_iff_getElem?.mp h
  rw [List.getElem?_modify] at hj
  obtain ⟨x, hx, rfl⟩ := Option.map_eq_some_iff.mp hj
  by_cases hij : i = j
  · subst hij
    exact .inr ⟨x, hx, if_pos rfl⟩
  · refine .inl ?_
    rw [if_neg hij]
    exact List.mem_iff_getElem?.mpr ⟨j, hx⟩

section

variable [AddCommMonoid α] [PartialOrder α] [IsOrderedAddMonoid α] {pick : List α → ℕ} {m s : α}
  {loads : List α}

/-- No load exceeds another by more than `m`. -/
def Spread (m : α) (loads : List α) : Prop := ∀ a ∈ loads, ∀ b ∈ loads, a ≤ b + m

/-- Equal loads. -/
theorem spread_replicate (hm : 0 ≤ m) (n : ℕ) (x : α) : Spread m (List.replicate n x) := by
  intro a ha b hb
  rw [List.eq_of_mem_replicate ha, List.eq_of_mem_replicate hb]
  exact le_add_of_nonneg_right hm

/-- **One arrival**: the place that was lightest has gained at most `m`. -/
theorem Spread.place (h : Spread m loads) (hpick : Picks pick) (hs : 0 ≤ s) (hsm : s ≤ m) :
    Spread m (place pick loads s) := by
  by_cases hne : loads = []
  · subst hne
    rw [Greedy.place, List.modify_nil]
    exact h
  obtain ⟨x, hx, hleast⟩ := hpick loads hne
  have hm : 0 ≤ m := hs.trans hsm
  intro a ha b hb
  rcases mem_modify ha with ha | ⟨y, hy, rfl⟩
  · rcases mem_modify hb with hb | ⟨z, hz, rfl⟩
    · exact h a ha b hb
    · obtain rfl := Option.some.inj (hx.symm.trans hz)
      calc a ≤ x + m := h a ha x (List.mem_of_getElem? hx)
        _ ≤ x + s + m := by
          refine add_le_add ?_ le_rfl
          exact le_add_of_nonneg_right hs
  · obtain rfl := Option.some.inj (hx.symm.trans hy)
    rcases mem_modify hb with hb | ⟨z, hz, rfl⟩
    · exact add_le_add (hleast b hb) hsm
    · obtain rfl := Option.some.inj (hx.symm.trans hz)
      exact le_add_of_nonneg_right hm

/-- **All arrivals.** -/
theorem Spread.foldl (hpick : Picks pick) (weights : List α) (hw : ∀ s ∈ weights, 0 ≤ s ∧ s ≤ m) :
    ∀ {loads : List α}, Spread m loads → Spread m (weights.foldl (Greedy.place pick) loads) := by
  induction weights with
  | nil => exact fun h => h
  | cons s weights ih =>
      intro loads h
      have hs := hw s List.mem_cons_self
      exact ih (fun t ht => hw t (List.mem_cons_of_mem s ht)) (h.place hpick hs.1 hs.2)

end

end IcebergDb.Greedy
