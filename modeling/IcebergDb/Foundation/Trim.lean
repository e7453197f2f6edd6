import IcebergDb.Foundation.Text
import Mathlib.Data.List.DropRight
import Mathlib.Data.List.Infix

/-!
# Prefixes and ends of texts

`strip_prefix` and the functions of the `trim` family on lists of characters.

* `strip`, `trimOf`, `trim` — a prefix is taken off, or at both ends all characters of a kind;
* `trimOf_append` — the middle of a text between characters of the kind is what trimming leaves, and every text is
  of this form (`exists_append_trimOf`);
* `trimEnd_append`, `exists_append_trimEnd` — the same at the end of a text only;
* `cut` — a text before and behind the first occurrence of another.
-/

namespace IcebergDb.Trim

variable {α : Type} {p : α → Bool} {l m pre post : List α}

/-! ### Prefixes -/

/-- `strip_prefix`. -/
def strip [DecidableEq α] (pre l : List α) : Option (List α) :=
  if pre <+: l then some (l.drop pre.length) else none

theorem strip_append [DecidableEq α] (pre l : List α) : strip pre (pre ++ l) = some l := by
  rw [strip, if_pos (List.prefix_append pre l), List.drop_left]

theorem strip_eq_some_iff [DecidableEq α] : strip pre l = some m ↔ l = pre ++ m := by
  constructor
  · intro h
    rw [strip] at h
    split at h
    · rename_i hpre
      obtain ⟨rest, rfl⟩ := hpre
      rw [List.drop_left] at h
      rw [Option.some.inj h]
    · cases h
  · rintro rfl
    exact strip_append pre m

/-- What does not begin like the prefix is left alone. -/
theorem strip_eq_none_of_getElem [DecidableEq α] {i : ℕ} (hi : i < pre.length) (h : l[i]? ≠ pre[i]?) :
    strip pre l = none := by
  refine if_neg fun hpre => h ?_
  obtain ⟨rest, rfl⟩ := hpre
  rw [List.getElem?_append_left hi]

/-! ### Ends -/

/-- `trim_end_matches`. -/
def trimEnd (p : α → Bool) (l : List α) : List α := l.rdropWhile p

/-- `trim_matches`. -/
def trimOf (p : α → Bool) (l : List α) : List α := trimEnd p (l.dropWhile p)

/-- The text ends in no character of the kind. -/
def EndsOutside (p : α → Bool) (l : List α) : Prop := ∀ a ∈ l.getLast?, p a = false

/-- The text begins with no character of the kind. -/
def StartsOutside (p : α → Bool) (l : List α) : Prop := ∀ a ∈ l.head?, p a = false

theorem startsOutside_append (h : StartsOutside p l) (hne : l ≠ []) (m : List α) : StartsOutside p (l ++ m) := by
  intro a ha
  rw [List.head?_append_of_ne_nil _ hne] at ha
  exact h a ha

theorem endsOutside_append (h : EndsOutside p m) (hne : m ≠ []) (l : List α) : EndsOutside p (l ++ m) := by
  intro a ha
  rw [List.getLast?_append_of_ne_nil _ hne] at ha
  exact h a ha

theorem trimEnd_append (hm : EndsOutside p m) (hpost : ∀ a ∈ post, p a = true) : trimEnd p (m ++ post) = m := by
  induction post using List.reverseRecOn with
  | nil =>
      rw [List.append_nil, trimEnd, List.rdropWhile_eq_self_iff]
      intro hne hlast
      rw [hm _ (List.getLast?_eq_some_getLast hne)] at hlast
      cases hlast
  | append_singleton post a ih =>
      rw [← List.append_assoc, trimEnd, List.rdropWhile_concat_pos _ _ _ (hpost a (by simp))]
      exact ih fun b hb => hpost b (List.mem_append_left _ hb)

theorem exists_append_trimEnd (p : α → Bool) (l : List α) :
    ∃ post, l = trimEnd p l ++ post ∧ (∀ a ∈ post, p a = true) ∧ EndsOutside p (trimEnd p l) := by
  refine ⟨l.rtakeWhile p, (List.rdropWhile_append_rtakeWhile).symm, fun a ha => List.mem_rtakeWhile_imp ha, ?_⟩
  intro a ha
  have hne : l.rdropWhile p ≠ [] := by
    intro hnil
    rw [trimEnd, hnil] at ha
    cases ha
  have hlast := List.rdropWhile_last_not p l hne
  rw [trimEnd, List.getLast?_eq_some_getLast hne] at ha
  rw [Option.mem_some.mp ha] at hlast
  exact Bool.eq_false_of_not_eq_true hlast

/-- What ends outside of the kind is kept. -/
theorem trimEnd_append_left (hl : EndsOutside p l) (m : List α) : trimEnd p (l ++ m) = l ++ trimEnd p m := by
  obtain ⟨post, hsplit, hpost, hend⟩ := exists_append_trimEnd p m
  conv_lhs => rw [hsplit, ← List.append_assoc]
  refine trimEnd_append ?_ hpost
  by_cases hm : trimEnd p m = []
  · rwa [hm, List.append_nil]
  · exact endsOutside_append hend hm l

theorem startsOutside_dropWhile (p : α → Bool) (l : List α) : StartsOutside p (l.dropWhile p) := by
  intro a ha
  have hhead := List.head?_dropWhile_not p l
  rw [Option.mem_def.mp ha] at hhead
  exact hhead

theorem dropWhile_congr {q : α → Bool} (h : ∀ a ∈ l, p a = q a) : l.dropWhile p = l.dropWhile q := by
  induction l with
  | nil => rfl
  | cons a l ih =>
      rw [List.forall_mem_cons] at h
      rw [List.dropWhile_cons, List.dropWhile_cons, h.1, ih h.2]

/-- Characters of the kind are dropped up to the first other one. -/
theorem dropWhile_append_cons {a : α} (ha : p a = false) (pre post : List α) :
    (pre ++ a :: post).dropWhile p = pre.dropWhile p ++ a :: post := by
  rw [List.dropWhile_append]
  split
  · rename_i hnil
    rw [List.isEmpty_iff.mp hnil, List.dropWhile_cons_of_neg (by rw [ha]; decide)]
    rfl
  · rfl

theorem dropWhile_eq_self (h : StartsOutside p l) : l.dropWhile p = l := by
  cases l with
  | nil => rfl
  | cons a l => rw [List.dropWhile_cons_of_neg (by rw [h a rfl]; decide)]

theorem trimOf_append (hpre : ∀ a ∈ pre, p a = true) (hstart : StartsOutside p m) (hend : EndsOutside p m)
    (hpost : ∀ a ∈ post, p a = true) : trimOf p (pre ++ m ++ post) = m := by
  rw [trimOf, List.append_assoc, List.dropWhile_append_of_pos hpre]
  by_cases hm : m = []
  · subst hm
    rw [List.nil_append, List.dropWhile_eq_nil_iff.mpr hpost]
    rfl
  · rw [dropWhile_eq_self (startsOutside_append hstart hm post), trimEnd_append hend hpost]

/-- Every text is trimmed between characters of the kind. -/
theorem exists_append_trimOf (p : α → Bool) (l : List α) :
    ∃ pre post, l = pre ++ trimOf p l ++ post ∧ (∀ a ∈ pre, p a = true) ∧ (∀ a ∈ post, p a = true) ∧
      StartsOutside p (trimOf p l) ∧ EndsOutside p (trimOf p l) := by
  obtain ⟨post, hpost, hall, hend⟩ := exists_append_trimEnd p (l.dropWhile p)
  refine ⟨l.takeWhile p, post, ?_, fun a ha => List.mem_takeWhile_imp ha, hall, ?_, hend⟩
  · rw [List.append_assoc, trimOf, ← hpost, List.takeWhile_append_dropWhile]
  · intro a ha
    refine startsOutside_dropWhile p l a ?_
    rw [hpost]
    have hne : trimEnd p (l.dropWhile p) ≠ [] := by
      intro hnil
      rw [trimOf, hnil] at ha
      cases ha
    rw [List.head?_append_of_ne_nil _ hne]
    exact ha

theorem trimOf_eq_self (hstart : StartsOutside p l) (hend : EndsOutside p l) : trimOf p l = l := by
  have h := trimOf_append (List.forall_mem_nil _) hstart hend (List.forall_mem_nil _)
  rwa [List.nil_append, List.append_nil] at h

theorem trimOf_eq_self_iff : trimOf p l = l ↔ StartsOutside p l ∧ EndsOutside p l := by
  constructor
  · intro h
    obtain ⟨pre, post, -, -, -, hstart, hend⟩ := exists_append_trimOf p l
    rw [h] at hstart hend
    exact ⟨hstart, hend⟩
  · exact fun h => trimOf_eq_self h.1 h.2

/-! ### Occurrences -/

/-- What stands before and behind the first occurrence: `split_once`. -/
def cut [DecidableEq α] (pat : List α) : List α → Option (List α × List α)
  | [] => none
  | a :: l => if pat <+: a :: l then some ([], (a :: l).drop pat.length) else (cut pat l).map fun p => (a :: p.1, p.2)

theorem append_of_cut [DecidableEq α] {pat : List α} (h : cut pat l = some (pre, post)) : l = pre ++ (pat ++ post) := by
  induction l generalizing pre with
  | nil => cases h
  | cons a l ih =>
      rw [cut] at h
      split at h
      · rename_i hpat
        obtain ⟨rest, hrest⟩ := hpat
        obtain ⟨rfl, rfl⟩ := Prod.mk.inj (Option.some.inj h)
        rw [← hrest, List.drop_left]
        rfl
      · obtain ⟨p, hp, heq⟩ := Option.map_eq_some_iff.mp h
        obtain ⟨rfl, rfl⟩ := Prod.mk.inj heq
        exact congrArg (a :: ·) (ih hp)

/-- There is no cut exactly if the text does not occur. -/
theorem cut_eq_none_iff [DecidableEq α] {pat : List α} (hpat : pat ≠ []) : cut pat l = none ↔ ¬ pat <:+: l := by
  induction l with
  | nil => simp [cut, hpat]
  | cons a l ih =>
      rw [cut, List.infix_cons_iff]
      split
      · rename_i hpre
        exact iff_of_false (Option.some_ne_none _) fun hnot => hnot (.inl hpre)
      · rename_i hpre
        rw [Option.map_eq_none_iff, ih, not_or, and_iff_right hpre]

/-- A text is cut at the first occurrence of a character. -/
theorem cut_singleton [DecidableEq α] {a : α} (h : a ∉ pre) (post : List α) :
    cut [a] (pre ++ a :: post) = some (pre, post) := by
  induction pre with
  | nil => exact if_pos ⟨post, rfl⟩
  | cons b pre ih =>
      have hne : ¬ [a] <+: b :: (pre ++ a :: post) := by
        rintro ⟨rest, hrest⟩
        exact h (by rw [(List.cons.inj hrest).1]; exact List.mem_cons_self)
      rw [List.cons_append, cut, if_neg hne, ih fun hmem => h (List.mem_cons_of_mem b hmem)]
      rfl

theorem cut_singleton_none [DecidableEq α] {a : α} (h : a ∉ l) : cut [a] l = none := by
  rw [cut_eq_none_iff (List.cons_ne_nil a [])]
  exact fun hpart => h (hpart.subset List.mem_cons_self)

/-! ### White space -/

/-- `str::trim`. -/
def trim (cs : List Char) : List Char := trimOf Text.isWhitespace cs

end IcebergDb.Trim
