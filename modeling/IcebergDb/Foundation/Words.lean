import Mathlib.Data.List.Basic
import Mathlib.Tactic.Common

/-!
# Texts as words

A text is cut into its longest runs of word characters, each with the character before it.  A run may be empty,
between two characters that are no word characters.

* `Piece`, `pieces`, `join` — the runs of a text, and the text of runs;
* `IsCut` — each run has word characters only, and only the first one stands behind nothing;
* `join_pieces`, `pieces_join` — **a text is cut in one way.**
-/

namespace IcebergDb.Words

/-- A run of word characters, and what stands before it. -/
structure Piece (α : Type) where
  left : Option α
  word : List α
  deriving DecidableEq

variable {α : Type} {p : α → Bool}

/-- The text of a run. -/
def Piece.text (a : Piece α) : List α := a.left.toList ++ a.word

/-- The text of runs. -/
def join (l : List (Piece α)) : List α := l.flatMap Piece.text

/-- The first run, and the others. -/
def cut (p : α → Bool) : List α → List α × List (Piece α)
  | [] => ([], [])
  | c :: cs =>
      let rest := cut p cs
      if p c then (c :: rest.1, rest.2) else ([], ⟨some c, rest.1⟩ :: rest.2)

/-- The runs of a text. -/
def pieces (p : α → Bool) (cs : List α) : List (Piece α) := ⟨none, (cut p cs).1⟩ :: (cut p cs).2

/-- What stands behind the run before these. -/
def next (l : List (Piece α)) : Option α := l.head?.bind Piece.left

/-- These runs have word characters only, and none before them. -/
def Follow (p : α → Bool) (l : List (Piece α)) : Prop :=
  ∀ a ∈ l, (∃ c, a.left = some c ∧ p c = false) ∧ ∀ c ∈ a.word, p c = true

/-- These are the runs of a text. -/
inductive IsCut (p : α → Bool) : List (Piece α) → Prop
  | mk {word : List α} {rest : List (Piece α)} (hword : ∀ c ∈ word, p c = true) (hrest : Follow p rest) :
      IsCut p (⟨none, word⟩ :: rest)

variable {a : Piece α} {l : List (Piece α)} {w w' rest rest' : List α}

theorem join_cons (a : Piece α) (l : List (Piece α)) : join (a :: l) = a.left.toList ++ (a.word ++ join l) := by
  rw [join, List.flatMap_cons, Piece.text, List.append_assoc]
  rfl

theorem join_append (l m : List (Piece α)) : join (l ++ m) = join l ++ join m := List.flatMap_append

theorem follow_nil : Follow p [] := List.forall_mem_nil _

theorem follow_cons : Follow p (a :: l) ↔
    ((∃ c, a.left = some c ∧ p c = false) ∧ ∀ c ∈ a.word, p c = true) ∧ Follow p l :=
  List.forall_mem_cons

/-! ### Cutting -/

theorem join_cut (p : α → Bool) (cs : List α) : (cut p cs).1 ++ join (cut p cs).2 = cs := by
  induction cs with
  | nil => rfl
  | cons c cs ih =>
      rw [cut]
      split
      · exact congrArg (c :: ·) ih
      · rw [List.nil_append, join_cons]
        exact congrArg (c :: ·) ih

/-- Nothing is lost. -/
theorem join_pieces (p : α → Bool) (cs : List α) : join (pieces p cs) = cs := by
  rw [pieces, join_cons]
  exact join_cut p cs

theorem follow_cut (p : α → Bool) (cs : List α) : (∀ c ∈ (cut p cs).1, p c = true) ∧ Follow p (cut p cs).2 := by
  induction cs with
  | nil => exact ⟨List.forall_mem_nil _, follow_nil⟩
  | cons c cs ih =>
      rw [cut]
      split
      · rename_i hc
        exact ⟨List.forall_mem_cons.mpr ⟨hc, ih.1⟩, ih.2⟩
      · rename_i hc
        rw [Bool.not_eq_true] at hc
        exact ⟨List.forall_mem_nil _, follow_cons.mpr ⟨⟨⟨c, rfl, hc⟩, ih.1⟩, ih.2⟩⟩

theorem isCut_pieces (p : α → Bool) (cs : List α) : IsCut p (pieces p cs) :=
  .mk (follow_cut p cs).1 (follow_cut p cs).2

theorem cut_word (hw : ∀ c ∈ w, p c = true) (cs : List α) : cut p (w ++ cs) = (w ++ (cut p cs).1, (cut p cs).2) := by
  induction w with
  | nil => rfl
  | cons c w ih =>
      rw [List.forall_mem_cons] at hw
      rw [List.cons_append, cut, ih hw.2, if_pos hw.1]
      rfl

theorem cut_join (hl : Follow p l) : cut p (join l) = ([], l) := by
  induction l with
  | nil => rfl
  | cons a l ih =>
      rw [follow_cons] at hl
      obtain ⟨c, hleft, hc⟩ := hl.1.1
      have hneg : ¬ p c = true := by
        rw [hc]
        decide
      rw [join_cons, hleft, Option.toList_some, List.singleton_append, cut, cut_word hl.1.2, ih hl.2, if_neg hneg,
        List.append_nil, ← hleft]

/-- **Runs are the runs of their text.** -/
theorem pieces_join (h : IsCut p l) : pieces p (join l) = l := by
  cases h with
  | mk hword hrest =>
      rw [join_cons, Option.toList_none, List.nil_append, pieces, cut_word hword, cut_join hrest, List.append_nil]

/-! ### The first run -/

/-- A text begins with the character before its first run. -/
theorem head?_join (hl : Follow p l) : (join l).head? = next l := by
  cases l with
  | nil => rfl
  | cons a l =>
      obtain ⟨c, hleft, -⟩ := (follow_cons.mp hl).1.1
      rw [join_cons, next, List.head?_cons, Option.bind_some, hleft]
      rfl

theorem next_eq_false {c : α} (hl : Follow p l) (hc : next l = some c) : p c = false := by
  cases l with
  | nil => cases hc
  | cons a l =>
      obtain ⟨d, hleft, hd⟩ := (follow_cons.mp hl).1.1
      have hcd : some d = some c := hleft.symm.trans hc
      rw [← Option.some.inj hcd]
      exact hd

/-- **The first run of a text is its longest.** -/
theorem word_inj (hw : ∀ c ∈ w, p c = true) (hw' : ∀ c ∈ w', p c = true) (hrest : ∀ c ∈ rest.head?, p c = false)
    (hrest' : ∀ c ∈ rest'.head?, p c = false) (h : w ++ rest = w' ++ rest') : w = w' ∧ rest = rest' := by
  have htake : ∀ {w rest : List α}, (∀ c ∈ w, p c = true) → (∀ c ∈ rest.head?, p c = false) →
      (w ++ rest).takeWhile p = w := by
    intro w rest hw hrest
    rw [List.takeWhile_append_of_pos hw]
    cases rest with
    | nil => exact List.append_nil w
    | cons c rest =>
        have hneg : ¬ p c = true := by
          rw [hrest c rfl]
          decide
        rw [List.takeWhile_cons_of_neg hneg, List.append_nil]
  have hword : w = w' := by rw [← htake hw hrest, h, htake hw' hrest']
  subst hword
  exact ⟨rfl, List.append_cancel_left h⟩

end IcebergDb.Words
