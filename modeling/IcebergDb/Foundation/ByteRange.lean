import Mathlib.Algebra.GroupWithZero.Nat
import Mathlib.Data.List.Basic
import Mathlib.Tactic.Common

/-!
# Ranges of a sequence

A half-open range of positions and the part of a list it selects, truncated where the list ends.

* `Range.slice` — the selected part;
* `slice_slice` — a range inside a range can be cut from the selected part;
* `slice_eq_self_iff` — a range from 0 selects everything exactly when it reaches the end;
* `coalesce` — ranges in the order of their starts are joined where the gaps are small: what comes out is
  apart (`coalesce_apart`) and every range lies within one of the results (`coalesce_within`);
* `getElem?_takeWhile_start` — the last range that starts early enough is the one around;
* `consecutive`, `countP_meets` — **how many of consecutive ranges meet an interval**.
-/

namespace IcebergDb.ByteRange

variable {α : Type}

/-- The half-open range of positions `start ..< stop`. -/
structure Range where
  start : ℕ
  stop : ℕ
deriving DecidableEq

/-- The part of `xs` in the range, truncated at the end of `xs`. -/
def Range.slice (r : Range) (xs : List α) : List α := (xs.take r.stop).drop r.start

/-- **A range inside a range** can be cut from what the outer range selects. -/
theorem slice_slice (xs : List α) {outer inner : Range} (hstart : outer.start ≤ inner.start)
    (hstop : inner.stop ≤ outer.stop) (hle : inner.start ≤ inner.stop) :
    (⟨inner.start - outer.start, inner.start - outer.start + (inner.stop - inner.start)⟩ : Range).slice
      (outer.slice xs) = inner.slice xs := by
  have hend : outer.start + (inner.start - outer.start + (inner.stop - inner.start)) = inner.stop := by
    omega
  have hbegin : outer.start + (inner.start - outer.start) = inner.start := by omega
  show (((xs.take outer.stop).drop outer.start).take _).drop _ = (xs.take inner.stop).drop inner.start
  rw [List.take_drop, List.take_take, hend, Nat.min_eq_left hstop, List.drop_drop, hbegin]

/-- A range from 0 selects everything exactly when it reaches the end. -/
theorem slice_eq_self_iff (xs : List α) (stop : ℕ) :
    (⟨0, stop⟩ : Range).slice xs = xs ↔ xs.length ≤ stop := by
  show (xs.take stop).drop 0 = xs ↔ _
  rw [List.drop_zero]
  constructor
  · intro h
    have hlen := congrArg List.length h
    rw [List.length_take] at hlen
    omega
  · exact List.take_of_length_le

theorem slice_full (xs : List α) : (⟨0, xs.length⟩ : Range).slice xs = xs :=
  (slice_eq_self_iff xs xs.length).mpr (Nat.le_refl _)

/-! ### Joining ranges -/

section

variable {gap size : ℕ} {cur r m : Range} {rest rs : List Range}

/-- The range does not end before it starts, nor beyond the end. -/
def Range.Within (size : ℕ) (r : Range) : Prop := r.start ≤ r.stop ∧ r.stop ≤ size

/-- Each range is joined to the current one unless the gap between them is too wide. -/
def coalesce (gap : ℕ) : Range → List Range → List Range
  | cur, [] => [cur]
  | cur, r :: rest =>
      if r.start - cur.stop ≤ gap then coalesce gap ⟨cur.start, max cur.stop r.stop⟩ rest
      else cur :: coalesce gap r rest

theorem coalesce_start_le (hsorted : (cur :: rest).Pairwise fun a b => a.start ≤ b.start) :
    ∀ m ∈ coalesce gap cur rest, cur.start ≤ m.start := by
  induction rest generalizing cur with
  | nil =>
      intro m hm
      obtain rfl := List.mem_singleton.mp hm
      exact Nat.le_refl _
  | cons r rest ih =>
      obtain ⟨hcur, htail⟩ := List.pairwise_cons.mp hsorted
      intro m hm
      unfold coalesce at hm
      split at hm
      · have hjoined : (⟨cur.start, max cur.stop r.stop⟩ :: rest).Pairwise fun a b : Range => a.start ≤ b.start :=
          List.pairwise_cons.mpr ⟨fun s hs => hcur s (List.mem_cons_of_mem r hs), (List.pairwise_cons.mp htail).2⟩
        exact ih hjoined m hm
      · rcases List.mem_cons.mp hm with rfl | hm
        · exact Nat.le_refl _
        · exact Nat.le_trans (hcur r List.mem_cons_self) (ih htail m hm)

/-- The results are what is within the bounds as well. -/
theorem coalesce_bounds (hcur : cur.Within size) (hrest : ∀ r ∈ rest, r.Within size) :
    ∀ m ∈ coalesce gap cur rest, m.Within size := by
  induction rest generalizing cur with
  | nil =>
      intro m hm
      rw [List.mem_singleton.mp hm]
      exact hcur
  | cons r rest ih =>
      have hr := hrest r List.mem_cons_self
      have htail : ∀ r ∈ rest, r.Within size := fun s hs => hrest s (List.mem_cons_of_mem r hs)
      unfold coalesce
      split
      · refine ih ⟨?_, Nat.max_le.mpr ⟨hcur.2, hr.2⟩⟩ htail
        exact Nat.le_trans hcur.1 (Nat.le_max_left _ _)
      · intro m hm
        rcases List.mem_cons.mp hm with rfl | hm
        · exact hcur
        · exact ih hr htail m hm

/-- **The results are more than the gap apart.** -/
theorem coalesce_apart (hsorted : (cur :: rest).Pairwise fun a b => a.start ≤ b.start) :
    (coalesce gap cur rest).Pairwise fun a b => a.stop + gap < b.start := by
  induction rest generalizing cur with
  | nil => exact List.pairwise_singleton _ cur
  | cons r rest ih =>
      obtain ⟨hcur, htail⟩ := List.pairwise_cons.mp hsorted
      unfold coalesce
      split
      · refine ih (List.pairwise_cons.mpr ⟨?_, (List.pairwise_cons.mp htail).2⟩)
        exact fun s hs => hcur s (List.mem_cons_of_mem r hs)
      · rename_i hgap
        refine List.pairwise_cons.mpr ⟨?_, ih htail⟩
        intro s hs
        have hstart := coalesce_start_le htail s hs
        omega

/-- **Every range lies within one of the results.** -/
theorem coalesce_within (hsorted : (cur :: rest).Pairwise fun a b => a.start ≤ b.start) (hr : r ∈ cur :: rest) :
    ∃ m ∈ coalesce gap cur rest, m.start ≤ r.start ∧ r.stop ≤ m.stop := by
  induction rest generalizing cur r with
  | nil =>
      obtain rfl := List.mem_singleton.mp hr
      exact ⟨r, List.mem_cons_self, Nat.le_refl _, Nat.le_refl _⟩
  | cons s rest ih =>
      obtain ⟨hcur, htail⟩ := List.pairwise_cons.mp hsorted
      unfold coalesce
      split
      · have hjoined : (⟨cur.start, max cur.stop s.stop⟩ :: rest).Pairwise fun a b : Range => a.start ≤ b.start :=
          List.pairwise_cons.mpr ⟨fun t ht => hcur t (List.mem_cons_of_mem s ht), (List.pairwise_cons.mp htail).2⟩
        -- The current range and the next are within the joined one.
        obtain ⟨m, hm, hstart, hstop⟩ := ih hjoined List.mem_cons_self
        rcases List.mem_cons.mp hr with rfl | hr
        · exact ⟨m, hm, hstart, Nat.le_trans (Nat.le_max_left _ _) hstop⟩
        · rcases List.mem_cons.mp hr with rfl | hr
          · exact ⟨m, hm, Nat.le_trans hstart (hcur r List.mem_cons_self),
              Nat.le_trans (Nat.le_max_right _ _) hstop⟩
          · exact ih hjoined (List.mem_cons_of_mem _ hr)
      · rcases List.mem_cons.mp hr with rfl | hr
        · exact ⟨r, List.mem_cons_self, Nat.le_refl _, Nat.le_refl _⟩
        · obtain ⟨m, hm, hstart, hstop⟩ := ih htail hr
          exact ⟨m, List.mem_cons_of_mem cur hm, hstart, hstop⟩

/-- Of ranges that are apart, the last one that starts early enough is the one around. -/
theorem getElem?_takeWhile_start (hapart : rs.Pairwise fun a b => a.stop + gap < b.start)
    (hbounds : ∀ a ∈ rs, a.Within size) (hm : m ∈ rs) (hstart : m.start ≤ r.start) (hstop : r.stop ≤ m.stop)
    (hr : r.start ≤ r.stop) :
    ∃ idx, (rs.takeWhile fun a => a.start ≤ r.start).length = idx + 1 ∧ rs[idx]? = some m := by
  induction rs with
  | nil => cases hm
  | cons a rs ih =>
      obtain ⟨hfirst, hlater⟩ := List.pairwise_cons.mp hapart
      rcases List.mem_cons.mp hm with rfl | hm
      · refine ⟨0, ?_, rfl⟩
        have hrest : rs.takeWhile (fun a => a.start ≤ r.start) = [] := by
          cases rs with
          | nil => rfl
          | cons b rs =>
              have hb := hfirst b List.mem_cons_self
              exact List.takeWhile_cons_of_neg (by simp only [decide_eq_true_eq]; omega)
        rw [List.takeWhile_cons, if_pos (decide_eq_true hstart), hrest]
        rfl
      · obtain ⟨idx, hidx, hget⟩ := ih hlater (fun b hb => hbounds b (List.mem_cons_of_mem a hb)) hm
        refine ⟨idx + 1, ?_, hget⟩
        have ha := hbounds a List.mem_cons_self
        have hgap := hfirst m hm
        have hle : a.start ≤ r.start := by
          have := ha.1
          omega
        rw [List.takeWhile_cons, if_pos (decide_eq_true hle), List.length_cons, hidx]

/-- Ranges of the given lengths, one after the other. -/
def consecutive : ℕ → List ℕ → List Range
  | _, [] => []
  | base, n :: sizes => ⟨base, base + n⟩ :: consecutive (base + n) sizes

theorem start_le_stop_of_mem {base : ℕ} {sizes : List ℕ} (hr : r ∈ consecutive base sizes) : r.start ≤ r.stop := by
  induction sizes generalizing base with
  | nil => cases hr
  | cons n sizes ih =>
      rcases List.mem_cons.mp hr with rfl | hr
      · exact Nat.le_add_right _ _
      · exact ih hr

/-- The range meets the interval from `a` to `b`. -/
def Range.meets (a b : ℕ) (r : Range) : Bool := decide (a < r.stop ∧ r.start < b)

/-- **Consecutive ranges that cover an interval meet it once, and once more for each of them that starts
within.** -/
theorem countP_meets {a b base : ℕ} {sizes : List ℕ} (hab : a < b) (hend : b ≤ base + sizes.sum) :
    (consecutive base sizes).countP (Range.meets a b) =
      (consecutive base sizes).countP (fun r => decide (a < r.start ∧ r.start < b)) +
        if base ≤ a then 1 else 0 := by
  induction sizes generalizing base with
  | nil =>
      have hbase : ¬ base ≤ a := by
        simp only [List.sum_nil] at hend
        omega
      rw [if_neg hbase]
      rfl
  | cons n sizes ih =>
      rw [List.sum_cons] at hend
      have htail := ih (show b ≤ base + n + sizes.sum by omega)
      have hmeets : Range.meets a b ⟨base, base + n⟩ = decide (a < base + n ∧ base < b) := rfl
      rw [consecutive, List.countP_cons, List.countP_cons, htail, hmeets]
      simp only [decide_eq_true_eq]
      split_ifs <;> omega

end

end IcebergDb.ByteRange
