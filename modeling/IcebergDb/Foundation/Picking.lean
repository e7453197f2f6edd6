import Mathlib.Data.List.Induction
import Mathlib.Data.List.Perm.Basic
import Mathlib.Logic.Function.Basic

/-!
# Picking an entry of a list

A listing whose order means nothing is searched for an entry.

* `Picks` — the search finds an entry of a kind, if there is one, and which one depends on the order;
* `picks_find` — the first entry that fits;
* `picks_lastWith` — the entry that a map keeps for a key when the listing is written into it;
* `Picks.perm_iff` — **the order does not matter exactly when only one entry can be found.**
-/

namespace IcebergDb.Picking

variable {α κ : Type}

/-- The search finds an entry with `p` if there is one, and can be made to find any by the order. -/
structure Picks (p : α → Prop) (choose : List α → Option α) : Prop where
  mem : ∀ {l a}, choose l = some a → a ∈ l ∧ p a
  none : ∀ {l}, choose l = none → ∀ a ∈ l, ¬ p a
  first : ∀ {l a}, a ∈ l → p a → ∃ l', l'.Perm l ∧ choose l' = some a

/-- All entries with `p` are one. -/
def Unambiguous (p : α → Prop) (l : List α) : Prop := ∀ a ∈ l, ∀ b ∈ l, p a → p b → a = b

section

variable {p : α → Prop} {choose : List α → Option α} {l : List α}

theorem Picks.eq_some_of_unique (h : Picks p choose) {a : α} (ha : a ∈ l) (hp : p a)
    (hunique : ∀ b ∈ l, p b → b = a) : choose l = some a := by
  cases hc : choose l with
  | none => exact absurd hp (h.none hc a ha)
  | some b =>
      obtain ⟨hb, hpb⟩ := h.mem hc
      rw [hunique b hb hpb]

theorem Picks.eq_none (h : Picks p choose) (hnone : ∀ a ∈ l, ¬ p a) : choose l = .none := by
  cases hc : choose l with
  | none => rfl
  | some b =>
      obtain ⟨hb, hpb⟩ := h.mem hc
      exact absurd hpb (hnone b hb)

/-- **The order does not matter exactly when only one entry can be found.** -/
theorem Picks.perm_iff (h : Picks p choose) :
    (∀ l₁ l₂ : List α, l₁.Perm l → l₂.Perm l → choose l₁ = choose l₂) ↔ Unambiguous p l := by
  constructor
  · intro hperm a ha b hb hpa hpb
    obtain ⟨l₁, hl₁, ha⟩ := h.first ha hpa
    obtain ⟨l₂, hl₂, hb⟩ := h.first hb hpb
    have hsame := hperm l₁ l₂ hl₁ hl₂
    rw [ha, hb] at hsame
    exact Option.some.inj hsame
  · intro hone
    -- every order finds what the given one finds
    have hgiven : ∀ l' : List α, l'.Perm l → choose l' = choose l := by
      intro l' hl'
      cases hc : choose l with
      | none => exact h.eq_none fun a ha => h.none hc a (hl'.mem_iff.mp ha)
      | some a =>
          obtain ⟨ha, hpa⟩ := h.mem hc
          exact h.eq_some_of_unique (hl'.mem_iff.mpr ha) hpa
            fun b hb hpb => hone b (hl'.mem_iff.mp hb) a ha hpb hpa
    intro l₁ l₂ hl₁ hl₂
    rw [hgiven l₁ hl₁, hgiven l₂ hl₂]

end

/-! ### The first entry -/

theorem picks_find (p : α → Bool) : Picks (fun a => p a = true) (List.find? p) where
  mem h := ⟨List.mem_of_find?_eq_some h, List.find?_some h⟩
  none h := by simpa using h
  first := by
    intro l a ha hp
    obtain ⟨pre, post, rfl⟩ := List.append_of_mem ha
    exact ⟨a :: (pre ++ post), List.perm_middle.symm, List.find?_cons_of_pos hp⟩

/-! ### The last entry under a key -/

/-- `collect` into a map: of two values under one key the later one stays. -/
def collect [DecidableEq κ] (key : α → κ) (l : List α) : κ → Option α :=
  l.foldl (fun (m : κ → Option α) a => Function.update m (key a) (some a)) fun _ => none

theorem collect_append [DecidableEq κ] (key : α → κ) (l : List α) (a : α) (k : κ) :
    collect key (l ++ [a]) k = if k = key a then some a else collect key l k := by
  unfold collect
  rw [List.foldl_append]
  exact Function.update_apply _ (key a) (some a) k

theorem picks_lastWith [DecidableEq κ] (key : α → κ) (k : κ) :
    Picks (fun a => key a = k) fun l => collect key l k where
  mem := by
    intro l a h
    induction l using List.reverseRecOn with
    | nil => cases h
    | append_singleton l b ih =>
        simp only [collect_append] at h
        split at h
        · rename_i hk
          cases h
          exact ⟨by simp, hk.symm⟩
        · obtain ⟨ha, hk⟩ := ih h
          exact ⟨List.mem_append_left _ ha, hk⟩
  none := by
    intro l h
    induction l using List.reverseRecOn with
    | nil => exact fun a ha => absurd ha List.not_mem_nil
    | append_singleton l b ih =>
        simp only [collect_append] at h
        split at h
        · cases h
        · rename_i hk
          intro a ha
          rcases List.mem_append.mp ha with ha | ha
          · exact ih h a ha
          · rw [List.mem_singleton.mp ha]
            exact fun heq => hk heq.symm
  first := by
    intro l a ha hk
    obtain ⟨pre, post, rfl⟩ := List.append_of_mem ha
    refine ⟨(pre ++ post) ++ [a], ?_, ?_⟩
    · exact (List.perm_append_singleton a (pre ++ post)).trans List.perm_middle.symm
    · show collect key ((pre ++ post) ++ [a]) k = some a
      rw [collect_append, if_pos hk.symm]

end IcebergDb.Picking
