import Mathlib.Data.List.Basic
import Mathlib.Tactic.Common

/-!
# Least and greatest elements under a comparison function

`Iterator::min_by` and `Iterator::max_by`: one pass over a list that keeps the best element so far.
The comparison need only be a total preorder on the elements of the list.

* `minBy` keeps the first of the least elements, `maxBy` the last of the greatest;
* `PreorderOn` — what is asked of the comparison;
* `minBy_spec` / `maxBy_spec` — the result is an element, and none is smaller (greater).
-/

namespace IcebergDb.Extremum

variable {α : Type}

/-- `min_by`. -/
def minBy (cmp : α → α → Ordering) : List α → Option α
  | [] => none
  | x :: xs => some (xs.foldl (fun best y => if cmp best y = .gt then y else best) x)

/-- `max_by`. -/
def maxBy (cmp : α → α → Ordering) : List α → Option α
  | [] => none
  | x :: xs => some (xs.foldl (fun best y => if cmp best y = .gt then best else y) x)

/-- On the elements of `l`, "not greater" is a total preorder. -/
structure PreorderOn (cmp : α → α → Ordering) (l : List α) : Prop where
  refl : ∀ a ∈ l, cmp a a ≠ .gt
  total : ∀ a ∈ l, ∀ b ∈ l, cmp a b = .gt → cmp b a ≠ .gt
  trans : ∀ a ∈ l, ∀ b ∈ l, ∀ c ∈ l, cmp a b ≠ .gt → cmp b c ≠ .gt → cmp a c ≠ .gt

/-- The pass of `min_by`: the result is not greater than the start nor any element seen. -/
theorem foldl_min_spec {cmp : α → α → Ordering} {l : List α} (h : PreorderOn cmp l) :
    ∀ (xs : List α) (x : α), x ∈ l → (∀ y ∈ xs, y ∈ l) →
      xs.foldl (fun best y => if cmp best y = .gt then y else best) x ∈ l ∧
      ∀ y ∈ x :: xs, cmp (xs.foldl (fun best y => if cmp best y = .gt then y else best) x) y ≠ .gt := by
  intro xs
  induction xs with
  | nil =>
      intro x hx _
      refine ⟨hx, ?_⟩
      intro y hy
      rw [List.mem_singleton.mp hy]
      exact h.refl x hx
  | cons z xs ih =>
      intro x hx hxs
      have hz : z ∈ l := hxs z List.mem_cons_self
      have hrest : ∀ y ∈ xs, y ∈ l := fun y hy => hxs y (List.mem_cons_of_mem z hy)
      rw [List.foldl_cons]
      by_cases hgt : cmp x z = .gt
      · rw [if_pos hgt]
        obtain ⟨hmem, hle⟩ := ih z hz hrest
        refine ⟨hmem, ?_⟩
        intro y hy
        rcases List.mem_cons.mp hy with rfl | hy
        · exact h.trans _ hmem z hz y hx (hle z List.mem_cons_self) (h.total y hx z hz hgt)
        · exact hle y hy
      · rw [if_neg hgt]
        obtain ⟨hmem, hle⟩ := ih x hx hrest
        refine ⟨hmem, ?_⟩
        intro y hy
        rcases List.mem_cons.mp hy with rfl | hy
        · exact hle y List.mem_cons_self
        · rcases List.mem_cons.mp hy with rfl | hy
          · exact h.trans _ hmem x hx y hz (hle x List.mem_cons_self) hgt
          · exact hle y (List.mem_cons_of_mem x hy)

/-- The pass of `max_by`. -/
theorem foldl_max_spec {cmp : α → α → Ordering} {l : List α} (h : PreorderOn cmp l) :
    ∀ (xs : List α) (x : α), x ∈ l → (∀ y ∈ xs, y ∈ l) →
      xs.foldl (fun best y => if cmp best y = .gt then best else y) x ∈ l ∧
      ∀ y ∈ x :: xs, cmp y (xs.foldl (fun best y => if cmp best y = .gt then best else y) x) ≠ .gt := by
  intro xs
  induction xs with
  | nil =>
      intro x hx _
      refine ⟨hx, ?_⟩
      intro y hy
      rw [List.mem_singleton.mp hy]
      exact h.refl x hx
  | cons z xs ih =>
      intro x hx hxs
      have hz : z ∈ l := hxs z List.mem_cons_self
      have hrest : ∀ y ∈ xs, y ∈ l := fun y hy => hxs y (List.mem_cons_of_mem z hy)
      rw [List.foldl_cons]
      by_cases hgt : cmp x z = .gt
      · rw [if_pos hgt]
        obtain ⟨hmem, hle⟩ := ih x hx hrest
        refine ⟨hmem, ?_⟩
        intro y hy
        rcases List.mem_cons.mp hy with rfl | hy
        · exact hle y List.mem_cons_self
        · rcases List.mem_cons.mp hy with rfl | hy
          · exact h.trans y hz x hx _ hmem (h.total x hx y hz hgt) (hle x List.mem_cons_self)
          · exact hle y (List.mem_cons_of_mem x hy)
      · rw [if_neg hgt]
        obtain ⟨hmem, hle⟩ := ih z hz hrest
        refine ⟨hmem, ?_⟩
        intro y hy
        rcases List.mem_cons.mp hy with rfl | hy
        · exact h.trans y hx z hz _ hmem hgt (hle z List.mem_cons_self)
        · exact hle y hy

/-- **`min_by` finds a least element.** -/
theorem minBy_spec {cmp : α → α → Ordering} {l : List α} (h : PreorderOn cmp l) {m : α}
    (hm : minBy cmp l = some m) : m ∈ l ∧ ∀ y ∈ l, cmp m y ≠ .gt := by
  cases l with
  | nil => cases hm
  | cons x xs =>
      obtain rfl := Option.some.inj hm
      exact foldl_min_spec h xs x List.mem_cons_self fun y hy => List.mem_cons_of_mem x hy

/-- **`max_by` finds a greatest element.** -/
theorem maxBy_spec {cmp : α → α → Ordering} {l : List α} (h : PreorderOn cmp l) {m : α}
    (hm : maxBy cmp l = some m) : m ∈ l ∧ ∀ y ∈ l, cmp y m ≠ .gt := by
  cases l with
  | nil => cases hm
  | cons x xs =>
      obtain rfl := Option.some.inj hm
      exact foldl_max_spec h xs x List.mem_cons_self fun y hy => List.mem_cons_of_mem x hy

end IcebergDb.Extremum
