import Mathlib.Data.List.Lex
import Mathlib.Data.List.Infix
import Mathlib.Order.Lattice
import Mathlib.Tactic.Common

/-!
# Prefixes in the lexicographic order

Words over a linear order, compared lexicographically, and what a lower and an upper bound of a set of words
say about the words with a given prefix.  The bounds are cut to the length of the prefix before they are
compared with it.

* `take_le_take` — cutting keeps the order;
* `take_le_word`, `word_le_take` — a bounded set with such a word has its cut bounds around the
  prefix;
* `prefix_of_between` — **if both bounds begin with the prefix, so does everything between them**.
-/

namespace IcebergDb.PrefixOrder

variable {α : Type} [LinearOrder α] {l m p s lower upper : List α}

theorem nil_le (l : List α) : [] ≤ l := by
  cases l with
  | nil => exact le_rfl
  | cons a l => exact (List.nil_lt_cons a l).le

theorem cons_le_cons_iff {a b : α} : a :: l ≤ b :: m ↔ a < b ∨ a = b ∧ l ≤ m := by
  rw [← not_lt, List.cons_lt_cons_iff, not_or, not_and, not_lt]
  constructor
  · rintro ⟨hab, htail⟩
    rcases hab.lt_or_eq with hlt | heq
    · exact .inl hlt
    · exact .inr ⟨heq, not_lt.mp (htail heq.symm)⟩
  · rintro (hlt | ⟨rfl, hle⟩)
    · exact ⟨hlt.le, fun heq => absurd heq hlt.ne'⟩
    · exact ⟨le_rfl, fun _ => not_lt.mpr hle⟩

/-- A prefix comes first. -/
theorem prefix_le (h : p <+: s) : p ≤ s := by
  obtain ⟨t, rfl⟩ := h
  induction p with
  | nil => exact nil_le t
  | cons a p ih => exact cons_le_cons_iff.mpr (.inr ⟨rfl, ih⟩)

/-- **Cutting keeps the order.** -/
theorem take_le_take (h : l ≤ m) (k : ℕ) : l.take k ≤ m.take k := by
  induction k generalizing l m with
  | zero => exact le_rfl
  | succ k ih =>
      cases l with
      | nil => exact nil_le _
      | cons a l =>
          cases m with
          | nil => exact absurd (List.nil_lt_cons a l) (not_lt.mpr h)
          | cons b m =>
              rw [List.take_succ_cons, List.take_succ_cons]
              refine cons_le_cons_iff.mpr ?_
              exact (cons_le_cons_iff.mp h).imp_right fun hl => ⟨hl.1, ih hl.2⟩

omit [LinearOrder α] in
/-- Up to the length of a prefix, a word is its prefix. -/
theorem take_of_le_length (h : p <+: s) {k : ℕ} (hk : k ≤ p.length) : s.take k = p.take k := by
  obtain ⟨t, rfl⟩ := h
  exact List.take_append_of_le_length hk

theorem take_le_word (hlower : lower ≤ s) (hp : p <+: s) {k : ℕ} (hk : k ≤ p.length) :
    lower.take k ≤ p := by
  calc lower.take k ≤ s.take k := take_le_take hlower k
    _ = p.take k := take_of_le_length hp hk
    _ ≤ p := prefix_le (List.take_prefix k p)

theorem word_le_take (hupper : s ≤ upper) (hp : p <+: s) :
    p ≤ upper.take (min upper.length p.length) := by
  rcases le_total upper.length p.length with hlen | hlen
  · rw [min_eq_left hlen, List.take_length]
    exact (prefix_le hp).trans hupper
  · rw [min_eq_right hlen]
    calc p = p.take p.length := List.take_length.symm
      _ = s.take p.length := (take_of_le_length hp le_rfl).symm
      _ ≤ upper.take p.length := take_le_take hupper _

/-- **Between two words with a prefix, every word has it.** -/
theorem prefix_of_between (hlower : lower ≤ s) (hupper : s ≤ upper) (hl : lower.take p.length = p)
    (hu : upper.take p.length = p) : p <+: s := by
  have hle := take_le_take hlower p.length
  have hge := take_le_take hupper p.length
  rw [hl] at hle
  rw [hu] at hge
  have heq : s.take p.length = p := le_antisymm hge hle
  have hprefix := List.take_prefix p.length s
  rwa [heq] at hprefix

end IcebergDb.PrefixOrder
