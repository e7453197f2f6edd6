import Mathlib.Data.List.Sort
import Mathlib.Tactic.Common

/-!
# Stable sorting by a key

A stable sort keeps elements of equal key in their order.  So the sorted list is determined by the
subsequences of equal key, and by nothing else:

* `sortDesc` — stable sort, largest key first;
* `filter_sortDesc` — sorting leaves each subsequence of equal key as it is;
* `eq_of_pairwise_of_filter` — two sorted lists with the same subsequences are equal;
* `sortDesc_eq_iff` — two lists sort alike exactly when they agree key by key.
-/

namespace IcebergDb.StableSort

variable {α β : Type} [LinearOrder β] (key : α → β)

/-- Stable sort by decreasing key. -/
def sortDesc (l : List α) : List α :=
  l.insertionSort fun a b => key b ≤ key a

instance total_key_ge : Std.Total fun a b : α => key b ≤ key a := ⟨fun a b => le_total (key b) (key a)⟩

instance isTrans_key_ge : IsTrans α fun a b : α => key b ≤ key a := ⟨fun _ _ _ hab hbc => hbc.trans hab⟩

theorem sortDesc_perm (l : List α) : (sortDesc key l).Perm l :=
  List.perm_insertionSort _ l

theorem sortDesc_pairwise (l : List α) :
    (sortDesc key l).Pairwise fun a b => key b ≤ key a :=
  List.pairwise_insertionSort _ l

/-- **Stability**: sorting leaves each subsequence of equal key as it is. -/
theorem filter_sortDesc (l : List α) (k : β) :
    (sortDesc key l).filter (fun a => key a = k) = l.filter (fun a => key a = k) := by
  have hkey : (l.filter fun a => key a = k).Pairwise fun a b => key b ≤ key a := by
    refine List.pairwise_of_forall_mem_list ?_
    intro a ha b hb
    have ha' := of_decide_eq_true (List.mem_filter.mp ha).2
    have hb' := of_decide_eq_true (List.mem_filter.mp hb).2
    rw [ha', hb']
  have hsub : (l.filter fun a => key a = k).Sublist (sortDesc key l) :=
    List.sublist_insertionSort hkey List.filter_sublist
  -- the subsequence survives the filter on the sorted list, and the lengths agree
  have hsub' := hsub.filter (fun a => key a = k)
  rw [List.filter_filter, List.filter_congr (fun a _ => Bool.and_self _)] at hsub'
  exact (hsub'.eq_of_length ((sortDesc_perm key l).filter _).length_eq.symm).symm

/-- The keys of a list are those of its subsequences of equal key. -/
theorem mem_of_filter_eq {l l' : List α}
    (h : ∀ k, l.filter (fun a => key a = k) = l'.filter (fun a => key a = k)) {a : α}
    (ha : a ∈ l) : a ∈ l' := by
  have hmem : a ∈ l.filter (fun b => key b = key a) := List.mem_filter.mpr ⟨ha, by simp⟩
  rw [h] at hmem
  exact (List.mem_filter.mp hmem).1

/-- **Two sorted lists with the same subsequences of equal key are equal.** -/
theorem eq_of_pairwise_of_filter {l l' : List α}
    (hl : l.Pairwise fun a b => key b ≤ key a) (hl' : l'.Pairwise fun a b => key b ≤ key a)
    (h : ∀ k, l.filter (fun a => key a = k) = l'.filter (fun a => key a = k)) : l = l' := by
  induction l generalizing l' with
  | nil =>
      cases l' with
      | nil => rfl
      | cons a l' =>
          have hmem := mem_of_filter_eq key (fun k => (h k).symm) (List.mem_cons_self (a := a))
          exact absurd hmem List.not_mem_nil
  | cons a l ih =>
      cases l' with
      | nil => exact absurd (mem_of_filter_eq key h List.mem_cons_self) List.not_mem_nil
      | cons b l' =>
          rw [List.pairwise_cons] at hl hl'
          -- both heads have the largest key
          have hab : key a ≤ key b := by
            rcases List.mem_cons.mp (mem_of_filter_eq key h List.mem_cons_self) with rfl | hmem
            · exact le_rfl
            · exact hl'.1 a hmem
          have hba : key b ≤ key a := by
            rcases List.mem_cons.mp (mem_of_filter_eq key (fun k => (h k).symm) List.mem_cons_self)
              with rfl | hmem
            · exact le_rfl
            · exact hl.1 b hmem
          have hkey : key a = key b := le_antisymm hab hba
          have hhead := h (key b)
          rw [List.filter_cons_of_pos (by simp [hkey]), List.filter_cons_of_pos (by simp)] at hhead
          obtain ⟨rfl, htail⟩ := List.cons.inj hhead
          rw [ih hl.2 hl'.2 ?_]
          intro k
          by_cases hk : key a = k
          · subst hk
            exact htail
          · have hrest := h k
            rwa [List.filter_cons_of_neg (by simpa using hk),
              List.filter_cons_of_neg (by simpa using hk)] at hrest

/-- **Two lists sort alike** exactly when they agree key by key. -/
theorem sortDesc_eq_iff (l l' : List α) :
    sortDesc key l = sortDesc key l' ↔
      ∀ k, l.filter (fun a => key a = k) = l'.filter (fun a => key a = k) := by
  constructor
  · intro h k
    rw [← filter_sortDesc key l k, ← filter_sortDesc key l' k, h]
  · intro h
    refine eq_of_pairwise_of_filter key (sortDesc_pairwise key l) (sortDesc_pairwise key l') ?_
    intro k
    rw [filter_sortDesc, filter_sortDesc, h k]

end IcebergDb.StableSort
