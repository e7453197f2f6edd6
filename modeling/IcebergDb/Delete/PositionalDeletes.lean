import IcebergDb.Foundation.RunLength
import Mathlib.Data.Nat.Bitwise
import Mathlib.Data.List.Basic
import Mathlib.Tactic.Common

/-!
# Positional deletes

From the delete vector of a data file to the rows that the Parquet reader is told to read.

* `DeleteVector` — the deleted positions of one data file;
* `DeleteVectorIterator` — the walk through them, bitmap by bitmap, with `next` and `advanceTo`;
* `buildDeletesRowSelection` — the loop over the row groups, with its cached next delete;
* `Feeds` — the invariant of the loops: what is cached and what the iterator has left are the deletes to come;
* `expand_buildDeletesRowSelection` — **the selection takes exactly the rows that are not deleted**, group
  after group, for every set of selected row groups.
-/

namespace IcebergDb.Delete

open IcebergDb.RunLength

/-! ### Delete vectors -/

/-- A position joins the ascending list. -/
def insertPosition (p : ℕ) : List ℕ → List ℕ
  | [] => [p]
  | q :: qs => if p < q then p :: q :: qs else if p = q then q :: qs else q :: insertPosition p qs

theorem mem_insertPosition {p q : ℕ} {qs : List ℕ} : q ∈ insertPosition p qs ↔ q = p ∨ q ∈ qs := by
  induction qs with
  | nil => simp [insertPosition]
  | cons r qs ih =>
      unfold insertPosition
      split
      · exact List.mem_cons
      · split
        · rename_i h
          subst h
          simp
        · rw [List.mem_cons, ih, List.mem_cons]
          exact or_left_comm

theorem sorted_insertPosition {p : ℕ} {qs : List ℕ} (h : qs.Pairwise (· < ·)) :
    (insertPosition p qs).Pairwise (· < ·) := by
  induction qs with
  | nil => exact List.pairwise_singleton _ p
  | cons r qs ih =>
      obtain ⟨hr, hqs⟩ := List.pairwise_cons.mp h
      unfold insertPosition
      split
      · rename_i hlt
        refine List.pairwise_cons.mpr ⟨?_, h⟩
        intro q hq
        rcases List.mem_cons.mp hq with rfl | hq
        · exact hlt
        · exact hlt.trans (hr q hq)
      · split
        · exact h
        · refine List.pairwise_cons.mpr ⟨?_, ih hqs⟩
          intro q hq
          rcases mem_insertPosition.mp hq with rfl | hq
          · omega
          · exact hr q hq

/-- `DeleteVector`: the positions that are set, in ascending order. -/
structure DeleteVector where
  positions : List ℕ
  sorted : positions.Pairwise (· < ·)

namespace DeleteVector

/-- `DeleteVector::default`. -/
def empty : DeleteVector := ⟨[], .nil⟩

/-- `insert`, with whether the position is new. -/
def insert (v : DeleteVector) (pos : ℕ) : Bool × DeleteVector :=
  (!v.positions.contains pos, ⟨insertPosition pos v.positions, sorted_insertPosition v.sorted⟩)

/-- `bitor_assign`. -/
def bitOrAssign (v other : DeleteVector) : DeleteVector :=
  other.positions.foldl (fun v pos => (v.insert pos).2) v

/-- `len`. -/
def len (v : DeleteVector) : ℕ := v.positions.length

@[simp] theorem mem_insert {v : DeleteVector} {p q : ℕ} :
    q ∈ (v.insert p).2.positions ↔ q = p ∨ q ∈ v.positions := mem_insertPosition

theorem mem_foldl_insert (ps : List ℕ) (v : DeleteVector) {q : ℕ} :
    q ∈ (ps.foldl (fun v pos => (v.insert pos).2) v).positions ↔ q ∈ ps ∨ q ∈ v.positions := by
  induction ps generalizing v with
  | nil => simp
  | cons p ps ih =>
      rw [List.foldl_cons, ih, mem_insert, List.mem_cons]
      tauto

@[simp] theorem mem_bitOrAssign {v w : DeleteVector} {q : ℕ} :
    q ∈ (v.bitOrAssign w).positions ↔ q ∈ w.positions ∨ q ∈ v.positions := mem_foldl_insert w.positions v

end DeleteVector

/-- `u64::from(high) << 32 | u64::from(low)`. -/
def joinBits (high low : ℕ) : ℕ := high <<< 32 ||| low

theorem joinBits_eq {high low : ℕ} (h : low < 2 ^ 32) : joinBits high low = high * 2 ^ 32 + low := by
  rw [joinBits, ← Nat.shiftLeft_add_eq_or_of_lt h, Nat.shiftLeft_eq]

theorem joinBits_split (p : ℕ) : joinBits (p >>> 32) (p % 2 ^ 32) = p := by
  rw [joinBits_eq (Nat.mod_lt p (by decide)), Nat.shiftRight_eq_div_pow]
  exact Nat.div_add_mod' p (2 ^ 32)

/-- `RoaringTreemap::bitmaps`: the positions grouped by their high bits. -/
def bitmaps : List ℕ → List (ℕ × List ℕ)
  | [] => []
  | p :: ps =>
      match bitmaps ps with
      | [] => [(p >>> 32, [p % 2 ^ 32])]
      | (high, lows) :: rest =>
          if p >>> 32 = high then (high, p % 2 ^ 32 :: lows) :: rest
          else (p >>> 32, [p % 2 ^ 32]) :: (high, lows) :: rest

/-- The positions of a list of bitmaps. -/
def positionsOf (bs : List (ℕ × List ℕ)) : List ℕ := bs.flatMap fun b => b.2.map (joinBits b.1)

@[simp] theorem positionsOf_cons (b : ℕ × List ℕ) (bs : List (ℕ × List ℕ)) :
    positionsOf (b :: bs) = b.2.map (joinBits b.1) ++ positionsOf bs := rfl

@[simp] theorem positionsOf_nil : positionsOf [] = [] := rfl

theorem positionsOf_bitmaps (ps : List ℕ) : positionsOf (bitmaps ps) = ps := by
  induction ps with
  | nil => rfl
  | cons p ps ih =>
      have hp := joinBits_split p
      unfold bitmaps
      split
      · rename_i h
        rw [h] at ih
        rw [← ih, positionsOf_cons, List.map_cons, hp]
        rfl
      · rename_i high lows rest h
        rw [h] at ih
        rw [← ih]
        split
        · rename_i hhigh
          rw [hhigh] at hp
          rw [positionsOf_cons, positionsOf_cons, List.map_cons, hp, List.cons_append]
        · rw [positionsOf_cons, List.map_cons, hp, List.map_nil, List.cons_append, List.nil_append]

/-- Bitmaps as the treemap keeps them, as far as the iterator relies on it: what follows a bitmap has
greater high bits, and low bits are `u32`. -/
def Keyed : List (ℕ × List ℕ) → Prop
  | [] => True
  | b :: bs => (∀ x ∈ b.2, x < 2 ^ 32) ∧ (∀ c ∈ bs, b.1 < c.1) ∧ Keyed bs

theorem high_bitmaps {ps : List ℕ} {b : ℕ × List ℕ} (h : b ∈ bitmaps ps) : ∃ p ∈ ps, p >>> 32 = b.1 := by
  induction ps with
  | nil => cases h
  | cons p ps ih =>
      unfold bitmaps at h
      split at h
      · obtain rfl := List.mem_singleton.mp h
        exact ⟨p, List.mem_cons_self, rfl⟩
      · rename_i high lows rest hps
        rw [hps] at ih
        split at h
        · rename_i hhigh
          rcases List.mem_cons.mp h with rfl | h
          · exact ⟨p, List.mem_cons_self, hhigh⟩
          · obtain ⟨q, hq, hb⟩ := ih (List.mem_cons_of_mem _ h)
            exact ⟨q, List.mem_cons_of_mem p hq, hb⟩
        · rcases List.mem_cons.mp h with rfl | h
          · exact ⟨p, List.mem_cons_self, rfl⟩
          · obtain ⟨q, hq, hb⟩ := ih h
            exact ⟨q, List.mem_cons_of_mem p hq, hb⟩

theorem keyed_bitmaps {ps : List ℕ} (h : ps.Pairwise (· < ·)) : Keyed (bitmaps ps) := by
  induction ps with
  | nil => trivial
  | cons p ps ih =>
      obtain ⟨hp, hps⟩ := List.pairwise_cons.mp h
      have hkeyed := ih hps
      have hmod : p % 2 ^ 32 < 2 ^ 32 := Nat.mod_lt p (by decide)
      have hle : ∀ b ∈ bitmaps ps, p >>> 32 ≤ b.1 := by
        intro b hb
        obtain ⟨q, hq, hhigh⟩ := high_bitmaps hb
        rw [← hhigh, Nat.shiftRight_eq_div_pow, Nat.shiftRight_eq_div_pow]
        exact Nat.div_le_div_right (hp q hq).le
      unfold bitmaps
      split
      · exact ⟨by simpa using hmod, by simp, trivial⟩
      · rename_i high lows rest hbs
        rw [hbs] at hkeyed hle
        obtain ⟨hlows, hrest, hkeyed'⟩ := hkeyed
        split
        · refine ⟨?_, hrest, hkeyed'⟩
          intro x hx
          rcases List.mem_cons.mp hx with rfl | hx
          · exact hmod
          · exact hlows x hx
        · rename_i hne
          refine ⟨by simpa using hmod, ?_, hlows, hrest, hkeyed'⟩
          have hlt : p >>> 32 < high := lt_of_le_of_ne (hle _ List.mem_cons_self) hne
          intro c hc
          rcases List.mem_cons.mp hc with rfl | hc
          · exact hlt
          · exact hlt.trans (hrest c hc)

/-! ### The iterator -/

/-- `DeleteVectorIterator`: the bitmap it is in, with what is left of it, and the bitmaps to come. -/
structure DeleteVectorIterator where
  outer : List (ℕ × List ℕ)
  inner : Option (ℕ × List ℕ)

/-- `DeleteVector::iter`. -/
def DeleteVector.iter (v : DeleteVector) : DeleteVectorIterator := ⟨bitmaps v.positions, none⟩

namespace DeleteVectorIterator

/-- `next`, once the inner iterator has ended: the first bitmap that holds a bit. -/
def nextBitmap (inner : Option (ℕ × List ℕ)) : List (ℕ × List ℕ) → Option ℕ × DeleteVectorIterator
  | [] => (none, ⟨[], inner⟩)
  | (high, []) :: outer => nextBitmap (some (high, [])) outer
  | (high, low :: lows) :: outer => (some (joinBits high low), ⟨outer, some (high, lows)⟩)

/-- `Iterator::next`. -/
def next (it : DeleteVectorIterator) : Option ℕ × DeleteVectorIterator :=
  match it.inner with
  | some (high, low :: lows) => (some (joinBits high low), ⟨it.outer, some (high, lows)⟩)
  | _ => nextBitmap it.inner it.outer

/-- The loop of `advance_to`: bitmaps with smaller high bits are dropped.  If there is no further bitmap
it returns, with the iterator where it was. -/
def seek (hi lo high : ℕ) (lows : List ℕ) : List (ℕ × List ℕ) → DeleteVectorIterator
  | [] => if high < hi then ⟨[], some (high, lows)⟩ else ⟨[], some (high, lows.dropWhile (· < lo))⟩
  | (high', lows') :: outer =>
      if high < hi then seek hi lo high' lows' outer
      else ⟨(high', lows') :: outer, some (high, lows.dropWhile (· < lo))⟩

/-- `advance_to`. -/
def advanceTo (it : DeleteVectorIterator) (pos : ℕ) : DeleteVectorIterator :=
  match it.inner with
  | none => it
  | some (high, lows) => seek (pos >>> 32) (pos % 2 ^ 32) high lows it.outer

/-- The bitmaps that are left. -/
def rest (it : DeleteVectorIterator) : List (ℕ × List ℕ) := it.inner.toList ++ it.outer

/-- The positions that are left. -/
def positions (it : DeleteVectorIterator) : List ℕ := positionsOf it.rest

/-- The iterator is inside the bitmaps, or they are used up; the invariant once `next` was called. -/
structure Primed (it : DeleteVectorIterator) : Prop where
  keyed : Keyed it.rest
  started : it.inner = none → it.outer = []

theorem nextBitmap_spec (inner : Option (ℕ × List ℕ)) (hinner : ∀ b ∈ inner, b.2 = [])
    (outer : List (ℕ × List ℕ)) (hkeyed : Keyed outer) :
    positionsOf outer = (nextBitmap inner outer).1.toList ++ (nextBitmap inner outer).2.positions ∧
      ((nextBitmap inner outer).1 = none → (nextBitmap inner outer).2.positions = []) ∧
      (nextBitmap inner outer).2.Primed := by
  induction outer generalizing inner with
  | nil =>
      have hempty : (⟨[], inner⟩ : DeleteVectorIterator).positions = [] := by
        cases inner with
        | none => rfl
        | some b => simp [positions, rest, hinner b rfl]
      refine ⟨by simpa [nextBitmap] using hempty.symm, fun _ => hempty, ?_, fun _ => rfl⟩
      cases inner with
      | none => trivial
      | some b =>
          refine ⟨?_, fun c hc => absurd hc List.not_mem_nil, trivial⟩
          rw [hinner b rfl]
          exact fun x hx => absurd hx List.not_mem_nil
  | cons b outer ih =>
      obtain ⟨hlow, hhigh, hkeyed'⟩ := hkeyed
      obtain ⟨high, lows⟩ := b
      cases lows with
      | nil =>
          have hnext := ih (some (high, [])) (by simp) hkeyed'
          simpa [nextBitmap] using hnext
      | cons low lows =>
          refine ⟨by simp [nextBitmap, positions, rest], by simp [nextBitmap], ?_, by simp [nextBitmap]⟩
          exact ⟨fun x hx => hlow x (List.mem_cons_of_mem low hx), hhigh, hkeyed'⟩

/-- **`next` takes the first of the positions that are left.** -/
theorem next_spec {it : DeleteVectorIterator} (hkeyed : Keyed it.rest) :
    it.positions = it.next.1.toList ++ it.next.2.positions ∧
      (it.next.1 = none → it.next.2.positions = []) ∧ it.next.2.Primed := by
  obtain ⟨outer, inner⟩ := it
  rcases inner with _ | ⟨high, _ | ⟨low, lows⟩⟩
  · exact nextBitmap_spec none (by simp) outer hkeyed
  · have hspec := nextBitmap_spec (some (high, [])) (by simp) outer hkeyed.2.2
    simpa [positions, rest, next] using hspec
  · obtain ⟨hlow, hhigh, hkeyed'⟩ := hkeyed
    refine ⟨by simp [next, positions, rest], by simp [next], ?_, by simp [next]⟩
    exact ⟨fun x hx => hlow x (List.mem_cons_of_mem low hx), hhigh, hkeyed'⟩

/-- `advance_to` drops positions, it adds none. -/
theorem seek_sublist (hi lo high : ℕ) (lows : List ℕ) (outer : List (ℕ × List ℕ)) :
    (seek hi lo high lows outer).positions.Sublist (positionsOf ((high, lows) :: outer)) := by
  have hdrop : ((lows.dropWhile (· < lo)).map (joinBits high)).Sublist (lows.map (joinBits high)) :=
    (List.dropWhile_sublist _).map _
  induction outer generalizing high lows with
  | nil =>
      unfold seek
      split
      · exact List.Sublist.refl _
      · exact hdrop.append (List.Sublist.refl _)
  | cons b outer ih =>
      unfold seek
      split
      · refine (ih b.1 b.2 ((List.dropWhile_sublist _).map _)).trans ?_
        exact List.sublist_append_right _ _
      · exact hdrop.append (List.Sublist.refl _)

theorem advanceTo_sublist (it : DeleteVectorIterator) (pos : ℕ) :
    (it.advanceTo pos).positions.Sublist it.positions := by
  obtain ⟨outer, inner⟩ := it
  cases inner with
  | none => exact List.Sublist.refl _
  | some b => exact seek_sublist _ _ b.1 b.2 outer

theorem lt_of_keyed {bs : List (ℕ × List ℕ)} (hkeyed : Keyed bs) {b : ℕ × List ℕ} (hb : b ∈ bs) :
    ∀ x ∈ b.2, x < 2 ^ 32 := by
  induction bs with
  | nil => cases hb
  | cons c bs ih =>
      rcases List.mem_cons.mp hb with rfl | hb
      · exact hkeyed.1
      · exact ih hkeyed.2.2 hb

/-- Positions with high bits are beyond the first bitmap. -/
theorem positionsOf_ge {bs : List (ℕ × List ℕ)} (hkeyed : Keyed bs) (hpos : ∀ b ∈ bs, 0 < b.1) {p : ℕ}
    (hp : p ∈ positionsOf bs) : 2 ^ 32 ≤ p := by
  obtain ⟨b, hb, hp⟩ := List.mem_flatMap.mp hp
  obtain ⟨x, hx, rfl⟩ := List.mem_map.mp hp
  rw [joinBits_eq (lt_of_keyed hkeyed hb x hx)]
  calc 2 ^ 32 = 1 * 2 ^ 32 := (Nat.one_mul _).symm
    _ ≤ b.1 * 2 ^ 32 := Nat.mul_le_mul_right _ (hpos b hb)
    _ ≤ b.1 * 2 ^ 32 + x := Nat.le_add_right _ _

/-- In an ascending list, dropping the smaller ones keeps the others. -/
theorem mem_dropWhile_lt {a x : ℕ} {xs : List ℕ} (h : xs.Pairwise (· < ·)) :
    x ∈ xs.dropWhile (· < a) ↔ x ∈ xs ∧ a ≤ x := by
  induction xs with
  | nil => simp
  | cons y xs ih =>
      obtain ⟨hy, hxs⟩ := List.pairwise_cons.mp h
      by_cases hya : y < a
      · rw [List.dropWhile_cons_of_pos (by simpa using hya), ih hxs, List.mem_cons]
        constructor
        · exact fun hx => ⟨.inr hx.1, hx.2⟩
        · rintro ⟨rfl | hx, hax⟩
          · omega
          · exact ⟨hx, hax⟩
      · rw [List.dropWhile_cons_of_neg (by simpa using hya)]
        refine ⟨fun hx => ⟨hx, ?_⟩, And.left⟩
        rcases List.mem_cons.mp hx with rfl | hx
        · omega
        · have := hy x hx
          omega

/-- **`advance_to` in a file of fewer than `2 ^ 32` rows**: what is left are the positions from `pos` on.
Positions beyond the file may be lost, and nothing is left in front of `pos`. -/
theorem advanceTo_spec {it : DeleteVectorIterator} (h : it.Primed) (hsorted : it.positions.Pairwise (· < ·))
    {pos : ℕ} (hpos : pos < 2 ^ 32) :
    (∀ p, p < 2 ^ 32 → (p ∈ (it.advanceTo pos).positions ↔ p ∈ it.positions ∧ pos ≤ p)) ∧
      (∀ p ∈ (it.advanceTo pos).positions, pos ≤ p) ∧ (it.advanceTo pos).Primed := by
  obtain ⟨outer, inner⟩ := it
  cases inner with
  | none =>
      obtain rfl : outer = [] := h.started rfl
      have hempty : (⟨[], none⟩ : DeleteVectorIterator).positions = [] := rfl
      refine ⟨?_, ?_, h⟩
      · intro p _
        show p ∈ (⟨[], none⟩ : DeleteVectorIterator).positions ↔ _
        rw [hempty]
        simp
      · intro p hp
        cases hp
  | some b =>
      obtain ⟨high, lows⟩ := b
      obtain ⟨hlow, hhigh, hkeyed⟩ := h.keyed
      have hseek : (⟨outer, some (high, lows)⟩ : DeleteVectorIterator).advanceTo pos =
          ⟨outer, some (high, lows.dropWhile (· < pos))⟩ := by
        show seek (pos >>> 32) (pos % 2 ^ 32) high lows outer = _
        rw [Nat.shiftRight_eq_div_pow, Nat.div_eq_of_lt hpos, Nat.mod_eq_of_lt hpos]
        cases outer <;> exact if_neg (Nat.not_lt_zero high)
      have hprimed : (⟨outer, some (high, lows.dropWhile (· < pos))⟩ : DeleteVectorIterator).Primed :=
        ⟨⟨fun x hx => hlow x ((List.dropWhile_sublist _).mem hx), hhigh, hkeyed⟩, by simp⟩
      have houter : ∀ p ∈ positionsOf outer, 2 ^ 32 ≤ p := by
        intro p hp
        exact positionsOf_ge hkeyed (fun c hc => Nat.zero_lt_of_lt (hhigh c hc)) hp
      rw [hseek]
      have hpositions : ∀ ls : List ℕ, (⟨outer, some (high, ls)⟩ : DeleteVectorIterator).positions =
          ls.map (joinBits high) ++ positionsOf outer := fun _ => rfl
      rw [hpositions] at hsorted ⊢
      rw [hpositions]
      rcases Nat.eq_zero_or_pos high with rfl | hpos'
      · have hjoin : ∀ x, joinBits 0 x = x := fun x => by rw [joinBits, Nat.zero_shiftLeft, Nat.zero_or]
        have hmap : ∀ ls : List ℕ, ls.map (joinBits 0) = ls := fun ls => by
          rw [List.map_congr_left fun x _ => hjoin x, List.map_id']
        rw [hmap] at hsorted
        have hlows : lows.Pairwise (· < ·) := (List.pairwise_append.mp hsorted).1
        refine ⟨?_, ?_, hprimed⟩
        · intro p hp
          rw [hmap, hmap, List.mem_append, List.mem_append, mem_dropWhile_lt hlows]
          constructor
          · rintro (hx | hx)
            · exact ⟨.inl hx.1, hx.2⟩
            · exact absurd (houter p hx) (by omega)
          · rintro ⟨hx | hx, hle⟩
            · exact .inl ⟨hx, hle⟩
            · exact .inr hx
        · intro p hp
          rw [hmap] at hp
          rcases List.mem_append.mp hp with hp | hp
          · exact ((mem_dropWhile_lt hlows).mp hp).2
          · have := houter p hp
            omega
      · have hfar : ∀ ls : List ℕ, (∀ x ∈ ls, x < 2 ^ 32) →
            ∀ p ∈ ls.map (joinBits high) ++ positionsOf outer, 2 ^ 32 ≤ p := by
          intro ls hls p hp
          have hkeyed' : Keyed ((high, ls) :: outer) := ⟨hls, hhigh, hkeyed⟩
          refine positionsOf_ge hkeyed' ?_ hp
          intro c hc
          rcases List.mem_cons.mp hc with rfl | hc
          · exact hpos'
          · exact hpos'.trans (hhigh c hc)
        have hdrop : ∀ x ∈ lows.dropWhile (· < pos), x < 2 ^ 32 :=
          fun x hx => hlow x ((List.dropWhile_sublist _).mem hx)
        refine ⟨?_, ?_, hprimed⟩
        · intro p hp
          constructor
          · exact fun h' => absurd (hfar _ hdrop p h') (by omega)
          · exact fun h' => absurd (hfar _ hlow p h'.1) (by omega)
        · intro p hp
          have := hfar _ hdrop p hp
          omega

end DeleteVectorIterator

/-! ### The loop over the row groups -/

/-- `RowSelector`: a number of rows, to be read or to be skipped. -/
abbrev RowSelector := Run Bool

/-- `RowSelector::select`. -/
def RowSelector.select (rows : ℕ) : RowSelector := ⟨rows, true⟩

/-- `RowSelector::skip`. -/
def RowSelector.skip (rows : ℕ) : RowSelector := ⟨rows, false⟩

/-- How the inner `while` ends: in front of a delete that lies further on, or with no delete left. -/
inductive SkipRun where
  | stopped (runLength current next : ℕ) (iter : DeleteVectorIterator)
  | exhausted (runLength current : ℕ) (iter : DeleteVectorIterator)

/-- The inner `while`, which counts consecutive deleted rows.  `current` grows towards `limit` in each
round, so as many rounds as there are rows left are enough. -/
def skipRun (limit : ℕ) : ℕ → ℕ → ℕ → ℕ → DeleteVectorIterator → SkipRun
  | 0, run, current, next, iter => .stopped run current next iter
  | rounds + 1, run, current, next, iter =>
      if next = current ∧ next < limit then
        match iter.next with
        | (some d, iter) => skipRun limit rounds (run + 1) (current + 1) d iter
        | (none, iter) => .exhausted (run + 1) (current + 1) iter
      else .stopped run current next iter

/-- What `'chunks` leaves behind. -/
structure Chunks where
  results : List RowSelector
  current : ℕ
  next : Option ℕ
  iter : DeleteVectorIterator

/-- The loop `'chunks`; `none` if it does not end in `rounds` rounds. -/
def chunks (limit : ℕ) : ℕ → ℕ → ℕ → DeleteVectorIterator → List RowSelector → Option Chunks
  | 0, _, _, _, _ => none
  | rounds + 1, current, next, iter, results =>
      if next < limit then
        let results := if current < next then results ++ [.select (next - current)] else results
        let current := if current < next then next else current
        match skipRun limit (limit - current) 0 current next iter with
        | .exhausted run current iter => some ⟨results ++ [.skip run], current, none, iter⟩
        | .stopped run current next iter =>
            chunks limit rounds current next iter (if 0 < run then results ++ [.skip run] else results)
      else some ⟨results, current, some next, iter⟩

/-- The local variables of `build_deletes_row_selection`. -/
structure SelectionLoop where
  results : List RowSelector
  selectedIdx : ℕ
  base : ℕ
  next : Option ℕ
  iter : DeleteVectorIterator

/-- A row group that is read. -/
def selectGroup (rows : ℕ) (s : SelectionLoop) : Option SelectionLoop :=
  let limit := s.base + rows
  match s.next with
  | none => some { s with results := s.results ++ [.select rows], base := limit }
  | some next =>
      if limit ≤ next then some { s with results := s.results ++ [.select rows], base := limit }
      else (chunks limit (rows + 1) s.base next s.iter s.results).map fun c =>
        { s with
          results := if c.current < limit then c.results ++ [.select (limit - c.current)] else c.results
          base := limit
          next := c.next
          iter := c.iter }

/-- A row group that is not read: the iterator is moved behind it, and so is the cached delete. -/
def skipGroup (rows : ℕ) (s : SelectionLoop) : SelectionLoop :=
  let limit := s.base + rows
  let iter := s.iter.advanceTo limit
  match s.next with
  | none => { s with base := limit, iter := iter }
  | some cached =>
      if cached < limit then { s with base := limit, next := iter.next.1, iter := iter.next.2 }
      else { s with base := limit, iter := iter }

/-- The loop over the row groups, from the one of index `idx` on. -/
def selectionLoop (selected : Option (List ℕ)) : ℕ → List ℕ → SelectionLoop → Option (List RowSelector)
  | _, [], s => some s.results
  | idx, rows :: groups, s =>
      match selected with
      | none => (selectGroup rows s).bind (selectionLoop selected (idx + 1) groups)
      | some wanted =>
          if s.selectedIdx = wanted.length then some s.results
          else if wanted[s.selectedIdx]? = some idx then
            (selectGroup rows { s with selectedIdx := s.selectedIdx + 1 }).bind
              (selectionLoop selected (idx + 1) groups)
          else selectionLoop selected (idx + 1) groups (skipGroup rows s)

/-- `build_deletes_row_selection`, on the numbers of rows of the row groups. -/
def buildDeletesRowSelection (groups : List ℕ) (selected : Option (List ℕ)) (v : DeleteVector) :
    Option (List RowSelector) :=
  selectionLoop selected 0 groups ⟨[], 0, 0, v.iter.next.1, v.iter.next.2⟩

example : buildDeletesRowSelection [3, 2] (some [0, 1]) ⟨[1, 3, 4], by decide⟩ =
    some [.select 1, .skip 1, .select 1, .skip 2] := by decide

/-- The rows of the row groups, by position in the file. -/
def groupRows : ℕ → List ℕ → List (List ℕ)
  | _, [] => []
  | base, rows :: groups => List.range' base rows :: groupRows (base + rows) groups

/-- The rows that the reader looks at: those of the selected row groups, in the order of the selection. -/
def selectedRows (groups : List ℕ) : Option (List ℕ) → List ℕ
  | none => (groupRows 0 groups).flatten
  | some wanted => (wanted.filterMap fun i => (groupRows 0 groups)[i]?).flatten

/-! ### What one row group adds -/

section

variable {v : DeleteVector} {total current limit : ℕ} {pending : List ℕ}

/-- The row stays: no delete is at its position. -/
def DeleteVector.keeps (v : DeleteVector) (p : ℕ) : Bool := !v.positions.contains p

theorem DeleteVector.keeps_eq_true {p : ℕ} : v.keeps p = true ↔ p ∉ v.positions := by
  simp [DeleteVector.keeps]

theorem DeleteVector.keeps_eq_false {p : ℕ} : v.keeps p = false ↔ p ∈ v.positions := by
  simp [DeleteVector.keeps]

/-- The invariant of the loops: the cached delete and the iterator together hold, in order, the deletes
from the current row on.  Beyond the end of the file nothing is said. -/
structure Feeds (v : DeleteVector) (total current : ℕ) (pending : List ℕ) : Prop where
  sorted : pending.Pairwise (· < ·)
  ge : ∀ p ∈ pending, current ≤ p
  mem : ∀ p, current ≤ p → p < total → (p ∈ pending ↔ p ∈ v.positions)

/-- The current row is deleted: the next row sees the rest. -/
theorem Feeds.tail {rest : List ℕ} (h : Feeds v total current (current :: rest)) :
    Feeds v total (current + 1) rest := by
  obtain ⟨hhead, hrest⟩ := List.pairwise_cons.mp h.sorted
  refine ⟨hrest, fun p hp => hhead p hp, ?_⟩
  intro p hp hlt
  rw [← h.mem p (by omega) hlt, List.mem_cons]
  exact ⟨.inr, fun hmem => hmem.resolve_left (by omega)⟩

/-- Rows in front of the first delete may be passed. -/
theorem Feeds.pass {next : ℕ} (h : Feeds v total current pending) (hle : current ≤ next)
    (hpending : ∀ p ∈ pending, next ≤ p) : Feeds v total next pending :=
  ⟨h.sorted, hpending, fun p hp hlt => h.mem p (hle.trans hp) hlt⟩

/-- ... and none of them is deleted. -/
theorem Feeds.kept (next : ℕ) {p : ℕ} (h : Feeds v total current pending) (hpending : ∀ p ∈ pending, next ≤ p)
    (hp : current ≤ p) (hlt : p < next) (htotal : p < total) : v.keeps p = true := by
  rw [DeleteVector.keeps_eq_true, ← h.mem p hp htotal]
  intro hmem
  have := hpending p hmem
  omega

theorem Feeds.head_le {next : ℕ} {rest : List ℕ} (h : Feeds v total current (next :: rest)) :
    ∀ p ∈ next :: rest, next ≤ p := by
  intro p hp
  rcases List.mem_cons.mp hp with rfl | hp
  · exact le_rfl
  · exact ((List.pairwise_cons.mp h.sorted).1 p hp).le

/-- A stretch of rows with one decision. -/
theorem replicate_eq_map {b : Bool} {n m : ℕ} (hle : n ≤ m) (h : ∀ p, n ≤ p → p < m → v.keeps p = b) :
    List.replicate (m - n) b = (List.range' n (m - n)).map v.keeps := by
  rw [map_eq_replicate (b := b), List.length_range']
  intro p hp
  obtain ⟨i, hi, rfl⟩ := List.mem_range'.mp hp
  exact h _ (by omega) (by omega)

/-- Two stretches. -/
theorem map_range'_append {n m k : ℕ} (hnm : n ≤ m) (hmk : m ≤ k) :
    (List.range' n (m - n)).map v.keeps ++ (List.range' m (k - m)).map v.keeps =
      (List.range' n (k - n)).map v.keeps := by
  have hk : k - n = (m - n) + (k - m) := by omega
  have hm : m = n + 1 * (m - n) := by omega
  rw [hk, ← List.range'_append, ← hm, List.map_append]

/-- What the inner `while` guarantees: it has counted the rows it has passed, all of them are deleted, and
it has stopped in front of the next delete or at the end of the row group. -/
def SkipRun.Counts (v : DeleteVector) (total limit run current : ℕ) : SkipRun → Prop
  | .stopped run' current' next iter =>
      run' = run + (current' - current) ∧ (current ≤ current' ∧ current' ≤ limit) ∧
        (∀ p, current ≤ p → p < current' → v.keeps p = false) ∧
        Feeds v total current' (next :: iter.positions) ∧ iter.Primed ∧ (next < limit → current' < next)
  | .exhausted run' current' iter =>
      run' = run + (current' - current) ∧ (current < current' ∧ current' ≤ limit) ∧
        (∀ p, current ≤ p → p < current' → v.keeps p = false) ∧
        Feeds v total current' [] ∧ iter.Primed ∧ iter.positions = []

theorem skipRun_counts (htotal : limit ≤ total) (rounds run : ℕ) {current next : ℕ}
    {iter : DeleteVectorIterator} (hrounds : limit - current ≤ rounds) (hle : current ≤ limit)
    (hfeeds : Feeds v total current (next :: iter.positions)) (hprimed : iter.Primed) :
    (skipRun limit rounds run current next iter).Counts v total limit run current := by
  have hstop : ∀ run : ℕ, (next < limit → current < next) →
      (SkipRun.stopped run current next iter).Counts v total limit run current := by
    intro run hnext
    refine ⟨by omega, ⟨le_rfl, hle⟩, ?_, hfeeds, hprimed, hnext⟩
    intro p hp hlt
    omega
  have hcurrent : current ≤ next := hfeeds.ge next List.mem_cons_self
  induction rounds generalizing run current next iter with
  | zero => exact hstop run (by omega)
  | succ rounds ih =>
      unfold skipRun
      split
      · rename_i hnext
        obtain ⟨rfl, hlt⟩ := hnext
        have hdeleted : v.keeps next = false := by
          rw [DeleteVector.keeps_eq_false, ← hfeeds.mem next le_rfl (by omega)]
          exact List.mem_cons_self
        have htail := hfeeds.tail
        obtain ⟨hsplit, hdone, hprimed'⟩ := DeleteVectorIterator.next_spec hprimed.keyed
        rw [hsplit] at htail
        split
        · rename_i d iter' hiter
          rw [hiter] at htail hprimed'
          have hrest := ih (run + 1) (by omega) (by omega) htail hprimed' ?_
            (htail.ge d List.mem_cons_self)
          · generalize skipRun limit rounds (run + 1) (next + 1) d iter' = r at hrest
            cases r with
            | stopped run' current' next' iter'' =>
                obtain ⟨hrun, hbounds, hall, hfeeds', hprimed'', hstopped⟩ := hrest
                refine ⟨by omega, by omega, ?_, hfeeds', hprimed'', hstopped⟩
                intro p hp hplt
                rcases hp.eq_or_lt with rfl | hp
                · exact hdeleted
                · exact hall p hp hplt
            | exhausted run' current' iter'' =>
                obtain ⟨hrun, hbounds, hall, hfeeds', hprimed'', hempty⟩ := hrest
                refine ⟨by omega, by omega, ?_, hfeeds', hprimed'', hempty⟩
                intro p hp hplt
                rcases hp.eq_or_lt with rfl | hp
                · exact hdeleted
                · exact hall p hp hplt
          · intro run' hnext
            refine ⟨by omega, ⟨le_rfl, by omega⟩, ?_, htail, hprimed', hnext⟩
            intro p hp hplt
            omega
        · rename_i iter' hiter
          rw [hiter] at htail hprimed' hdone
          have hempty : iter'.positions = [] := hdone rfl
          have hpending : (none : Option ℕ).toList ++ iter'.positions = [] := hempty
          rw [hpending] at htail
          refine ⟨by omega, by omega, ?_, htail, hprimed', hempty⟩
          intro p hp hplt
          obtain rfl : p = next := by omega
          exact hdeleted
      · rename_i hnext
        exact hstop run (fun hlt => lt_of_le_of_ne hcurrent fun h => hnext ⟨h.symm, hlt⟩)

/-- What `'chunks` guarantees: the selectors decide as the vector does up to `current`, and the rest of the
row group stays. -/
structure Chunks.Decides (v : DeleteVector) (total limit current : ℕ) (results : List RowSelector)
    (c : Chunks) : Prop where
  bounds : current ≤ c.current ∧ c.current ≤ limit
  results : expand c.results = expand results ++ (List.range' current (c.current - current)).map v.keeps
  kept : ∀ p, c.current ≤ p → p < limit → v.keeps p = true
  feeds : Feeds v total limit (c.next.toList ++ c.iter.positions)
  primed : c.iter.Primed
  done : c.next = none → c.iter.positions = []

/-- **`'chunks` ends**, within one round more than there are rows. -/
theorem chunks_decides (results : List RowSelector) (htotal : limit ≤ total) (rounds : ℕ)
    {current next : ℕ} {iter : DeleteVectorIterator} (hrounds : limit - current < rounds)
    (hle : current ≤ limit) (hfeeds : Feeds v total current (next :: iter.positions))
    (hprimed : iter.Primed) :
    ∃ c, chunks limit rounds current next iter results = some c ∧
      c.Decides v total limit current results := by
  induction rounds generalizing current next iter results with
  | zero => omega
  | succ rounds ih =>
      have hcurrent : current ≤ next := hfeeds.ge next List.mem_cons_self
      have hhead := hfeeds.head_le
      by_cases hlt : next < limit
      swap
      · refine ⟨⟨results, current, some next, iter⟩, ?_, ⟨le_rfl, hle⟩, ?_, ?_, ?_, hprimed, by simp⟩
        · exact if_neg hlt
        · simp
        · exact fun p hp hplt => hfeeds.kept limit (fun q hq => (by omega : limit ≤ next).trans
            (hhead q hq)) hp hplt (by omega)
        · exact hfeeds.pass hle fun q hq => (by omega : limit ≤ next).trans (hhead q hq)
      · -- the rows in front of the next delete are selected
        have hpassed := hfeeds.pass hcurrent hhead
        have hselect : expand (if current < next then results ++ [.select (next - current)] else results) =
            expand results ++ (List.range' current (next - current)).map v.keeps := by
          have hkept : ∀ p, current ≤ p → p < next → v.keeps p = true :=
            fun p hp hplt => hfeeds.kept next hhead hp hplt (by omega)
          rw [← replicate_eq_map hcurrent hkept]
          split
          · rw [expand_append]
            simp [RowSelector.select]
          · obtain rfl : current = next := by omega
            simp
        have hcurrent' : (if current < next then next else current) = next := by
          split <;> omega
        have hcounts := skipRun_counts htotal (limit - next) 0 le_rfl hlt.le hpassed hprimed
        have hstep : chunks limit (rounds + 1) current next iter results =
            match skipRun limit (limit - next) 0 next next iter with
            | .exhausted run current' iter' =>
                some ⟨(if current < next then results ++ [.select (next - current)] else results) ++
                  [.skip run], current', none, iter'⟩
            | .stopped run current' next' iter' => chunks limit rounds current' next' iter'
                (if 0 < run then (if current < next then results ++ [.select (next - current)] else results)
                  ++ [.skip run] else (if current < next then results ++ [.select (next - current)]
                  else results)) := by
          rw [chunks, if_pos hlt]
          simp only [hcurrent']
        rw [hstep]
        generalize skipRun limit (limit - next) 0 next next iter = r at hcounts
        have hskip : ∀ run current' : ℕ, run = 0 + (current' - next) → next ≤ current' →
            (∀ p, next ≤ p → p < current' → v.keeps p = false) →
            expand ((if current < next then results ++ [.select (next - current)] else results) ++
              [.skip run]) = expand results ++ (List.range' current (current' - current)).map v.keeps := by
          intro run current' hrun hnc hdeleted
          rw [expand_append, hselect, List.append_assoc, ← map_range'_append hcurrent hnc,
            ← replicate_eq_map hnc hdeleted, hrun, Nat.zero_add]
          simp [RowSelector.skip]
        cases r with
        | exhausted run current' iter' =>
            obtain ⟨hrun, hbounds, hdeleted, hfeeds', hprimed', hempty⟩ := hcounts
            refine ⟨_, rfl, ⟨hcurrent.trans hbounds.1.le, hbounds.2⟩,
              hskip run current' hrun (by omega) hdeleted, ?_, ?_, hprimed', fun _ => hempty⟩
            · exact fun p hp hplt => hfeeds'.kept limit (by simp) hp hplt (by omega)
            · show Feeds v total limit ([] ++ iter'.positions)
              rw [hempty]
              exact hfeeds'.pass hbounds.2 (by simp)
        | stopped run current' next' iter' =>
            obtain ⟨hrun, hbounds, hdeleted, hfeeds', hprimed', hstopped⟩ := hcounts
            have hprogress : next < current' := by
              by_contra hno
              obtain rfl : current' = next := by omega
              have hmem : current' ∈ next' :: iter'.positions := by
                rw [hfeeds'.mem current' le_rfl (by omega), ← hpassed.mem current' le_rfl (by omega)]
                exact List.mem_cons_self
              have := hfeeds'.head_le current' hmem
              by_cases hn : next' < limit
              · have := hstopped hn
                omega
              · omega
            obtain ⟨c, hc, hdecides⟩ := ih _ (by omega) hbounds.2 hfeeds' hprimed'
            refine ⟨c, ?_, ?_⟩
            · show chunks limit rounds current' next' iter' (if 0 < run then _ else _) = some c
              rw [if_pos (by omega : 0 < run)]
              exact hc
            · have hcb := hdecides.bounds
              refine ⟨by omega, ?_, hdecides.kept, hdecides.feeds, hdecides.primed, hdecides.done⟩
              rw [hdecides.results, hskip run current' hrun (by omega) hdeleted, List.append_assoc,
                map_range'_append (by omega) hcb.1]

/-! ### The whole file -/

variable {s : SelectionLoop}

/-- The invariant of the outer loop. -/
structure SelectionLoop.Tracks (v : DeleteVector) (total : ℕ) (s : SelectionLoop) : Prop where
  feeds : Feeds v total s.base (s.next.toList ++ s.iter.positions)
  primed : s.iter.Primed
  done : s.next = none → s.iter.positions = []

/-- **A row group that is read** adds the decisions of the vector on its rows. -/
theorem selectGroup_tracks (rows : ℕ) (h : s.Tracks v total) (htotal : s.base + rows ≤ total) :
    ∃ s', selectGroup rows s = some s' ∧ s'.Tracks v total ∧ s'.base = s.base + rows ∧
      s'.selectedIdx = s.selectedIdx ∧
      expand s'.results = expand s.results ++ (List.range' s.base rows).map v.keeps := by
  obtain ⟨results, selectedIdx, base, next, iter⟩ := s
  obtain ⟨hfeeds, hprimed, hdone⟩ := h
  replace htotal : base + rows ≤ total := htotal
  have hwhole : (∀ p ∈ next.toList ++ iter.positions, base + rows ≤ p) →
      expand (results ++ [RowSelector.select rows]) =
        expand results ++ (List.range' base rows).map v.keeps := by
    intro hpending
    have hkept : ∀ p, base ≤ p → p < base + rows → v.keeps p = true :=
      fun p hp hlt => hfeeds.kept (base + rows) hpending hp hlt (by omega)
    have hmap := replicate_eq_map (Nat.le_add_right base rows) hkept
    rw [Nat.add_sub_cancel_left] at hmap
    rw [expand_append, ← hmap]
    simp [RowSelector.select]
  cases next with
  | none =>
      have hempty : iter.positions = [] := hdone rfl
      have hnone : ∀ p ∈ (none : Option ℕ).toList ++ iter.positions, base + rows ≤ p := by
        simp [hempty]
      refine ⟨⟨results ++ [.select rows], selectedIdx, base + rows, none, iter⟩, rfl, ?_, rfl, rfl,
        hwhole hnone⟩
      exact ⟨hfeeds.pass (Nat.le_add_right base rows) hnone, hprimed, hdone⟩
  | some next =>
      by_cases hle : base + rows ≤ next
      · have hnext : ∀ p ∈ (some next).toList ++ iter.positions, base + rows ≤ p :=
          fun p hp => hle.trans (hfeeds.head_le p hp)
        refine ⟨⟨results ++ [.select rows], selectedIdx, base + rows, some next, iter⟩, ?_, ?_, rfl, rfl,
          hwhole hnext⟩
        · exact if_pos hle
        · exact ⟨hfeeds.pass (Nat.le_add_right base rows) hnext, hprimed, hdone⟩
      · obtain ⟨c, hc, hbounds, hresults, hkept, hfeeds', hprimed', hdone'⟩ :=
          chunks_decides results htotal (rows + 1) (by show base + rows - base < rows + 1; omega)
            (Nat.le_add_right base rows) hfeeds hprimed
        refine ⟨⟨if c.current < base + rows then c.results ++ [.select (base + rows - c.current)]
          else c.results, selectedIdx, base + rows, c.next, c.iter⟩, ?_, ⟨hfeeds', hprimed', hdone'⟩, rfl,
          rfl, ?_⟩
        · show (if base + rows ≤ next then _ else (chunks _ _ _ _ _ _).map _) = _
          rw [if_neg hle, hc]
          rfl
        · have hrest : expand (if c.current < base + rows
              then c.results ++ [.select (base + rows - c.current)] else c.results) =
              expand c.results ++ (List.range' c.current (base + rows - c.current)).map v.keeps := by
            rw [← replicate_eq_map hbounds.2 hkept]
            split
            · rw [expand_append]
              simp [RowSelector.select]
            · have : base + rows - c.current = 0 := by omega
              rw [this, List.replicate_zero, List.append_nil]
          have hrange := map_range'_append (v := v) hbounds.1 hbounds.2
          rw [Nat.add_sub_cancel_left] at hrange
          exact hrest.trans (by rw [hresults, List.append_assoc, hrange])

/-- **A row group that is not read** leaves the deletes behind it where they are, if the file has fewer than
`2 ^ 32` rows. -/
theorem skipGroup_tracks (rows : ℕ) (h : s.Tracks v total) (htotal : s.base + rows ≤ total)
    (hsmall : total < 2 ^ 32) :
    (skipGroup rows s).Tracks v total ∧ (skipGroup rows s).base = s.base + rows ∧
      (skipGroup rows s).selectedIdx = s.selectedIdx ∧ (skipGroup rows s).results = s.results := by
  obtain ⟨results, selectedIdx, base, next, iter⟩ := s
  obtain ⟨hfeeds, hprimed, hdone⟩ := h
  replace htotal : base + rows ≤ total := htotal
  replace hfeeds : Feeds v total base (next.toList ++ iter.positions) := hfeeds
  replace hprimed : iter.Primed := hprimed
  have hiter : iter.positions.Pairwise (· < ·) := (List.pairwise_append.mp hfeeds.sorted).2.1
  have hlimit : base + rows < 2 ^ 32 := by omega
  obtain ⟨hmem, hge, hprimed'⟩ := DeleteVectorIterator.advanceTo_spec hprimed hiter hlimit
  have hsub := iter.advanceTo_sublist (base + rows)
  cases next with
  | none =>
      have hempty : (iter.advanceTo (base + rows)).positions = [] := by
        rw [hdone rfl] at hsub
        exact List.sublist_nil.mp hsub
      refine ⟨⟨?_, hprimed', fun _ => hempty⟩, rfl, rfl, rfl⟩
      show Feeds v total (base + rows) ([] ++ (iter.advanceTo (base + rows)).positions)
      rw [hempty]
      have hnone : (none : Option ℕ).toList ++ iter.positions = [] := hdone rfl
      rw [hnone] at hfeeds
      exact hfeeds.pass (Nat.le_add_right base rows) (by simp)
  | some cached =>
      obtain ⟨hsplit, hdone', hprimed''⟩ := DeleteVectorIterator.next_spec hprimed'.keyed
      by_cases hlt : cached < base + rows
      · have hstate : skipGroup rows ⟨results, selectedIdx, base, some cached, iter⟩ =
            ⟨results, selectedIdx, base + rows, (iter.advanceTo (base + rows)).next.1,
              (iter.advanceTo (base + rows)).next.2⟩ := if_pos hlt
        rw [hstate]
        refine ⟨⟨?_, hprimed'', hdone'⟩, rfl, rfl, rfl⟩
        show Feeds v total (base + rows) ((iter.advanceTo (base + rows)).next.1.toList ++
          (iter.advanceTo (base + rows)).next.2.positions)
        rw [← hsplit]
        refine ⟨hiter.sublist hsub, hge, ?_⟩
        intro p hp hpt
        rw [hmem p (by omega), ← hfeeds.mem p (by omega) hpt]
        have hne : p ≠ cached := by omega
        constructor
        · exact fun h => List.mem_cons_of_mem cached h.1
        · exact fun h => ⟨(List.mem_cons.mp h).resolve_left hne, hp⟩
      · have hstate : skipGroup rows ⟨results, selectedIdx, base, some cached, iter⟩ =
            ⟨results, selectedIdx, base + rows, some cached, iter.advanceTo (base + rows)⟩ := if_neg hlt
        rw [hstate]
        have hhead := (List.pairwise_cons.mp hfeeds.sorted).1
        refine ⟨⟨⟨?_, ?_, ?_⟩, hprimed', by simp⟩, rfl, rfl, rfl⟩
        · exact List.pairwise_cons.mpr ⟨fun p hp => hhead p (hsub.mem hp), hiter.sublist hsub⟩
        · intro p hp
          rcases List.mem_cons.mp hp with rfl | hp
          · exact Nat.le_of_not_lt hlt
          · exact hge p hp
        · intro p hp hpt
          replace hp : base + rows ≤ p := hp
          rw [← hfeeds.mem p (by omega) hpt]
          show p ∈ cached :: (iter.advanceTo (base + rows)).positions ↔ p ∈ cached :: iter.positions
          rw [List.mem_cons, List.mem_cons, hmem p (by omega)]
          exact or_congr_right ⟨And.left, fun h => ⟨h, hp⟩⟩

/-- The loop without a selection of row groups. -/
theorem selectionLoop_none (groups : List ℕ) (idx : ℕ) (h : s.Tracks v total) (htotal : s.base + groups.sum ≤ total) :
    ∃ sel, selectionLoop none idx groups s = some sel ∧
      expand sel = expand s.results ++ (groupRows s.base groups).flatten.map v.keeps := by
  induction groups generalizing idx s with
  | nil => exact ⟨s.results, rfl, by simp [groupRows]⟩
  | cons rows groups ih =>
      rw [List.sum_cons] at htotal
      obtain ⟨s', hs', htracks, hbase, -, hresults⟩ := selectGroup_tracks rows h (by omega)
      obtain ⟨sel, hsel, hexpand⟩ := ih (idx + 1) htracks (by omega)
      refine ⟨sel, ?_, ?_⟩
      · show (selectGroup rows s).bind _ = some sel
        rw [hs']
        exact hsel
      · rw [hexpand, hresults, hbase, groupRows, List.flatten_cons, List.map_append, List.append_assoc]

/-- Indices behind the first row group. -/
theorem filterMap_getElem_cons {α : Type} {idx : ℕ} {wanted : List ℕ} {r : α} {rs : List α}
    (h : ∀ i ∈ wanted, idx + 1 ≤ i) :
    wanted.filterMap (fun i => (r :: rs)[i - idx]?) = wanted.filterMap fun i => rs[i - (idx + 1)]? := by
  refine List.filterMap_congr ?_
  intro i hi
  have hsucc : i - idx = (i - (idx + 1)) + 1 := by
    have := h i hi
    omega
  rw [hsucc, List.getElem?_cons_succ]

/-- The loop with a selection of row groups, from the group `idx` on. -/
theorem selectionLoop_some (groups : List ℕ) {wanted : List ℕ} (idx : ℕ) (h : s.Tracks v total)
    (htotal : s.base + groups.sum ≤ total) (hsmall : total < 2 ^ 32) (hsorted : wanted.Pairwise (· < ·))
    (hfrom : ∀ i ∈ wanted.drop s.selectedIdx, idx ≤ i) (hidx : s.selectedIdx ≤ wanted.length) :
    ∃ sel, selectionLoop (some wanted) idx groups s = some sel ∧
      expand sel = expand s.results ++ ((wanted.drop s.selectedIdx).filterMap fun i =>
        (groupRows s.base groups)[i - idx]?).flatten.map v.keeps := by
  induction groups generalizing idx s with
  | nil => exact ⟨s.results, rfl, by simp [groupRows]⟩
  | cons rows groups ih =>
      rw [List.sum_cons] at htotal
      by_cases hend : s.selectedIdx = wanted.length
      · refine ⟨s.results, if_pos hend, ?_⟩
        rw [hend, List.drop_length]
        simp
      have hlt : s.selectedIdx < wanted.length := by omega
      have hdrop : wanted.drop s.selectedIdx =
          wanted[s.selectedIdx] :: wanted.drop (s.selectedIdx + 1) := List.drop_eq_getElem_cons hlt
      have hget : wanted[s.selectedIdx]? = some wanted[s.selectedIdx] := List.getElem?_eq_getElem hlt
      have hlater : ∀ i ∈ wanted.drop (s.selectedIdx + 1), wanted[s.selectedIdx] < i := by
        have hpair := hsorted.sublist (List.drop_sublist s.selectedIdx wanted)
        rw [hdrop] at hpair
        exact (List.pairwise_cons.mp hpair).1
      have hfirst : idx ≤ wanted[s.selectedIdx] := hfrom _ (by rw [hdrop]; exact List.mem_cons_self)
      by_cases hwanted : wanted[s.selectedIdx]? = some idx
      · -- the row group is read
        have heq : wanted[s.selectedIdx] = idx := Option.some.inj (hget.symm.trans hwanted)
        have hafter : ∀ i ∈ wanted.drop (s.selectedIdx + 1), idx + 1 ≤ i := by
          intro i hi
          have := hlater i hi
          omega
        have htracks : SelectionLoop.Tracks v total { s with selectedIdx := s.selectedIdx + 1 } :=
          ⟨h.feeds, h.primed, h.done⟩
        obtain ⟨s', hs', htracks', hbase, hidx', hresults⟩ :=
          selectGroup_tracks rows htracks (by show s.base + rows ≤ total; omega)
        have hidx'' : s'.selectedIdx = s.selectedIdx + 1 := hidx'
        have hbase' : s'.base = s.base + rows := hbase
        obtain ⟨sel, hsel, hexpand⟩ := ih (idx + 1) htracks' (by omega) (by rw [hidx'']; exact hafter)
          (by omega)
        refine ⟨sel, ?_, ?_⟩
        · rw [selectionLoop, if_neg hend, if_pos hwanted, hs']
          exact hsel
        · rw [hexpand, hresults, hidx'', hbase', hdrop, heq, List.filterMap_cons, Nat.sub_self]
          show _ = expand s.results ++ ((List.range' s.base rows) :: List.filterMap
            (fun i => (List.range' s.base rows :: groupRows (s.base + rows) groups)[i - idx]?)
            (wanted.drop (s.selectedIdx + 1))).flatten.map v.keeps
          rw [filterMap_getElem_cons hafter, List.flatten_cons, List.map_append, List.append_assoc]
      · -- the row group is skipped
        have hne : wanted[s.selectedIdx] ≠ idx := fun heq => hwanted (by rw [hget, heq])
        have hafter : ∀ i ∈ wanted.drop s.selectedIdx, idx + 1 ≤ i := by
          rw [hdrop]
          intro i hi
          rcases List.mem_cons.mp hi with rfl | hi
          · omega
          · have := hlater i hi
            omega
        obtain ⟨htracks, hbase, hidx', hresults⟩ := skipGroup_tracks rows h (by omega) hsmall
        obtain ⟨sel, hsel, hexpand⟩ := ih (idx + 1) htracks (by omega) (by rw [hidx']; exact hafter)
          (by omega)
        refine ⟨sel, ?_, ?_⟩
        · rw [selectionLoop, if_neg hend, if_neg hwanted]
          exact hsel
        · rw [hexpand, hresults, hidx', hbase, groupRows, filterMap_getElem_cons hafter]

/-- The state in which the loop starts. -/
theorem tracks_start (v : DeleteVector) (total : ℕ) :
    (⟨[], 0, 0, v.iter.next.1, v.iter.next.2⟩ : SelectionLoop).Tracks v total := by
  have hpositions : v.iter.positions = v.positions := positionsOf_bitmaps v.positions
  obtain ⟨hsplit, hdone, hprimed⟩ :=
    DeleteVectorIterator.next_spec (show Keyed v.iter.rest from keyed_bitmaps v.sorted)
  rw [hpositions] at hsplit
  refine ⟨?_, hprimed, hdone⟩
  show Feeds v total 0 (v.iter.next.1.toList ++ v.iter.next.2.positions)
  rw [← hsplit]
  exact ⟨v.sorted, fun p _ => Nat.zero_le p, fun p _ _ => Iff.rfl⟩

/-- **The row selection takes exactly the rows that are not deleted**: it is computed (the loops end), and
along the rows of the selected row groups it decides as the delete vector does.  With a selection of row
groups the file must have fewer than `2 ^ 32` rows. -/
theorem expand_buildDeletesRowSelection (v : DeleteVector) (groups : List ℕ) (selected : Option (List ℕ))
    (hsorted : ∀ wanted ∈ selected, wanted.Pairwise (· < ·))
    (hsmall : selected = none ∨ groups.sum < 2 ^ 32) :
    ∃ sel, buildDeletesRowSelection groups selected v = some sel ∧
      expand sel = (selectedRows groups selected).map v.keeps := by
  have hstart := tracks_start v groups.sum
  cases selected with
  | none =>
      obtain ⟨sel, hsel, hexpand⟩ :=
        selectionLoop_none groups 0 hstart (by show 0 + groups.sum ≤ groups.sum; omega)
      exact ⟨sel, hsel, by simpa [selectedRows] using hexpand⟩
  | some wanted =>
      have hfile : groups.sum < 2 ^ 32 := hsmall.resolve_left (by simp)
      obtain ⟨sel, hsel, hexpand⟩ := selectionLoop_some groups 0 hstart
        (by show 0 + groups.sum ≤ groups.sum; omega) hfile (hsorted wanted rfl)
        (fun i _ => Nat.zero_le i) (Nat.zero_le _)
      exact ⟨sel, hsel, by simpa [selectedRows] using hexpand⟩

theorem expand_buildDeletesRowSelection_second :
    ∃ sel, buildDeletesRowSelection [3, 2] (some [1]) ⟨[1, 3], by decide⟩ = some sel ∧
      expand sel = (selectedRows [3, 2] (some [1])).map (DeleteVector.keeps ⟨[1, 3], by decide⟩) := by
  refine expand_buildDeletesRowSelection _ _ _ ?_ (.inr (by decide))
  rintro wanted ⟨⟩
  exact List.pairwise_singleton _ 1

end

end IcebergDb.Delete
