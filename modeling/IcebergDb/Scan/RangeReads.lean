import IcebergDb.Foundation.ByteRange
import Mathlib.Data.List.Perm.Basic

/-!
# Fetching byte ranges

The Parquet reader asks for the byte ranges of the column chunks of a row group.  `ArrowFileReader` merges
those that are close to each other, fetches the merged ranges and slices the answers.

* `mergeRanges` — `merge_ranges`, over any sort by the starts;
* `sliceFetched` — the part of a fetched range that was asked for;
* `getByteRanges` — `get_byte_ranges`;
* `mergeRanges_spec` — the merged ranges are apart, and every range lies within one of them;
* `getByteRanges_eq` — **the answers are the ranges of the file, in the order in which they were asked for**.
-/

namespace IcebergDb.Scan

open IcebergDb.ByteRange

variable {β ε : Type}

/-- `sort_unstable_by_key(|r| r.start)`: ranges with one start come in any order. -/
def SortsByStart (sort : List Range → List Range) : Prop :=
  ∀ ranges, (sort ranges).Perm ranges ∧ (sort ranges).Pairwise fun a b => a.start ≤ b.start

/-- `merge_ranges`. -/
def mergeRanges (sort : List Range → List Range) (ranges : List Range) (gap : ℕ) : List Range :=
  match sort ranges with
  | [] => []
  | r :: rest => coalesce gap r rest

/-- How a fetch fails. -/
inductive FetchError (ε : Type) where
  | external (e : ε)
  /-- An index or a slice is out of range. -/
  | panicked

/-- The merged ranges, fetched one after the other as far as the order of the answers goes. -/
def fetchAll (read : Range → Except ε (List β)) : List Range → Except (FetchError ε) (List (List β))
  | [] => .ok []
  | r :: rs =>
      match read r with
      | .error e => .error (.external e)
      | .ok bytes => (fetchAll read rs).map (bytes :: ·)

/-- The closure that slices: `partition_point` is the number of ranges that start early enough. -/
def sliceFetched (fetchRanges : List Range) (fetched : List (List β)) (r : Range) :
    Except (FetchError ε) (List β) :=
  match (fetchRanges.takeWhile fun a => a.start ≤ r.start).length with
  | 0 => .error .panicked
  | idx + 1 =>
      match fetchRanges[idx]?, fetched[idx]? with
      | some fetchRange, some bytes =>
          let start := r.start - fetchRange.start
          let stop := min (r.stop - fetchRange.start) bytes.length
          if start ≤ stop then .ok ((⟨start, stop⟩ : Range).slice bytes) else .error .panicked
      | _, _ => .error .panicked

/-- The slices of all ranges. -/
def sliceAll (fetchRanges : List Range) (fetched : List (List β)) :
    List Range → Except (FetchError ε) (List (List β))
  | [] => .ok []
  | r :: rs =>
      match sliceFetched fetchRanges fetched r with
      | .error e => .error e
      | .ok bytes => (sliceAll fetchRanges fetched rs).map (bytes :: ·)

/-- `get_byte_ranges`. -/
def getByteRanges (sort : List Range → List Range) (read : Range → Except ε (List β)) (gap : ℕ)
    (ranges : List Range) : Except (FetchError ε) (List (List β)) :=
  match fetchAll read (mergeRanges sort ranges gap) with
  | .error e => .error e
  | .ok fetched => sliceAll (mergeRanges sort ranges gap) fetched ranges

section

variable {sort : List Range → List Range} {read : Range → Except ε (List β)} {gap size : ℕ}
  {ranges : List Range} {file : List β}

/-- **What is fetched**: ranges within the file that are more than the gap apart, with every range that is
asked for inside one of them. -/
theorem mergeRanges_spec (gap : ℕ) (hsort : SortsByStart sort) (hranges : ∀ r ∈ ranges, r.Within size) :
    ((mergeRanges sort ranges gap).Pairwise fun a b => a.stop + gap < b.start) ∧
      (∀ m ∈ mergeRanges sort ranges gap, m.Within size) ∧
      ∀ r ∈ ranges, ∃ m ∈ mergeRanges sort ranges gap, m.start ≤ r.start ∧ r.stop ≤ m.stop := by
  obtain ⟨hperm, hsorted⟩ := hsort ranges
  unfold mergeRanges
  cases hs : sort ranges with
  | nil =>
      rw [hs] at hperm
      obtain rfl := hperm.symm.eq_nil
      refine ⟨.nil, ?_, ?_⟩
      · intro m hm
        cases hm
      · intro r hr
        cases hr
  | cons r rest =>
      rw [hs] at hperm hsorted
      have hwithin : ∀ a ∈ r :: rest, a.Within size := fun a ha => hranges a (hperm.mem_iff.mp ha)
      refine ⟨coalesce_apart hsorted, ?_, ?_⟩
      · exact coalesce_bounds (hwithin r List.mem_cons_self) fun a ha => hwithin a (List.mem_cons_of_mem r ha)
      · exact fun a ha => coalesce_within hsorted (hperm.mem_iff.mpr ha)

theorem fetchAll_eq {rs : List Range} (hread : ∀ r ∈ rs, read r = .ok (r.slice file)) :
    fetchAll read rs = .ok (rs.map fun r => r.slice file) := by
  induction rs with
  | nil => rfl
  | cons r rs ih =>
      have htail := ih fun a ha => hread a (List.mem_cons_of_mem r ha)
      unfold fetchAll
      rw [hread r List.mem_cons_self, htail]
      rfl

/-- The slice of the range around is the range. -/
theorem sliceFetched_eq {rs : List Range} {r : Range}
    (hapart : rs.Pairwise fun a b => a.stop + gap < b.start) (hbounds : ∀ m ∈ rs, m.Within file.length)
    (hr : r.Within file.length) (hin : ∃ m ∈ rs, m.start ≤ r.start ∧ r.stop ≤ m.stop) :
    (sliceFetched rs (rs.map fun r => r.slice file) r : Except (FetchError ε) _) = .ok (r.slice file) := by
  obtain ⟨m, hm, hstart, hstop⟩ := hin
  obtain ⟨idx, hidx, hget⟩ := getElem?_takeWhile_start hapart hbounds hm hstart hstop hr.1
  have hfetched : (rs.map fun r => r.slice file)[idx]? = some (m.slice file) := by
    rw [List.getElem?_map, hget]
    rfl
  have hlen : (m.slice file).length = m.stop - m.start := by
    show ((file.take m.stop).drop m.start).length = _
    rw [List.length_drop, List.length_take, Nat.min_eq_left (hbounds m hm).2]
  have hend : min (r.stop - m.start) (m.slice file).length = r.start - m.start + (r.stop - r.start) := by
    have := hr.1
    rw [hlen]
    omega
  unfold sliceFetched
  rw [hidx]
  show (match rs[idx]?, (rs.map fun r => r.slice file)[idx]? with
    | some fetchRange, some bytes => _
    | _, _ => _) = _
  rw [hget, hfetched]
  show (if r.start - m.start ≤ min (r.stop - m.start) (m.slice file).length then
    Except.ok ((⟨r.start - m.start, min (r.stop - m.start) (m.slice file).length⟩ : Range).slice (m.slice file))
    else _) = _
  rw [hend, if_pos (Nat.le_add_right _ _), slice_slice file hstart hstop hr.1]

theorem sliceAll_eq {rs : List Range} {fetched : List (List β)}
    (h : ∀ r ∈ ranges, (sliceFetched rs fetched r : Except (FetchError ε) _) = .ok (r.slice file)) :
    (sliceAll rs fetched ranges : Except (FetchError ε) _) = .ok (ranges.map fun r => r.slice file) := by
  induction ranges with
  | nil => rfl
  | cons r ranges ih =>
      have htail := ih fun a ha => h a (List.mem_cons_of_mem r ha)
      unfold sliceAll
      rw [h r List.mem_cons_self, htail]
      rfl

/-- **Merging is invisible**: of a file that can be read, `get_byte_ranges` yields the ranges, in order.  What
is fetched for them is more than the gap apart, so no byte is fetched twice. -/
theorem getByteRanges_eq (hsort : SortsByStart sort)
    (hread : ∀ r : Range, r.Within file.length → read r = .ok (r.slice file))
    (hranges : ∀ r ∈ ranges, r.Within file.length) :
    getByteRanges sort read gap ranges = .ok (ranges.map fun r => r.slice file) ∧
      (mergeRanges sort ranges gap).Pairwise fun a b => a.stop + gap < b.start := by
  obtain ⟨hapart, hbounds, hin⟩ := mergeRanges_spec gap hsort hranges
  have hfetch := fetchAll_eq fun m hm => hread m (hbounds m hm)
  refine ⟨?_, hapart⟩
  unfold getByteRanges
  rw [hfetch]
  exact sliceAll_eq fun r hr => sliceFetched_eq hapart hbounds (hranges r hr) (hin r hr)

end

/-- A sort by the starts. -/
def sortByStart (ranges : List Range) : List Range := ranges.mergeSort fun a b => decide (a.start ≤ b.start)

theorem sortByStart_sorts : SortsByStart sortByStart := by
  intro ranges
  refine ⟨List.mergeSort_perm ranges _, ?_⟩
  have hsorted : (sortByStart ranges).Pairwise fun a b => decide (a.start ≤ b.start) = true := by
    refine List.pairwise_mergeSort ?_ ?_ ranges
    · intro a b c hab hbc
      exact decide_eq_true (Nat.le_trans (of_decide_eq_true hab) (of_decide_eq_true hbc))
    · intro a b
      rcases Nat.le_total a.start b.start with hab | hab
      · rw [decide_eq_true hab, Bool.true_or]
      · rw [decide_eq_true hab, Bool.or_true]
  exact hsorted.imp of_decide_eq_true

theorem getByteRanges_eq_overlapping :
    getByteRanges sortByStart (fun r => (.ok (r.slice [10, 11, 12, 13, 14]) : Except Empty (List ℕ))) 0
        [⟨3, 5⟩, ⟨0, 2⟩, ⟨1, 3⟩] = .ok [[13, 14], [10, 11], [11, 12]] ∧
      (mergeRanges sortByStart [⟨3, 5⟩, ⟨0, 2⟩, ⟨1, 3⟩] 0).Pairwise fun a b => a.stop + 0 < b.start := by
  refine getByteRanges_eq sortByStart_sorts (fun r _ => rfl) ?_
  intro r hr
  rcases List.mem_cons.mp hr with rfl | hr
  · exact ⟨by decide, by decide⟩
  · rcases List.mem_cons.mp hr with rfl | hr
    · exact ⟨by decide, by decide⟩
    · obtain rfl := List.mem_singleton.mp hr
      exact ⟨by decide, by decide⟩

end IcebergDb.Scan
