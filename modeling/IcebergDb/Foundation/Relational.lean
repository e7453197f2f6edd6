import Mathlib.Data.List.Dedup
import Mathlib.Data.List.Basic
import Mathlib.Tactic.Common

/-!
# Lists that agree on the rows that matter

Dropping rows early is sound when nothing above looks at them.  `AgreeOn φ l l'` says that two lists
have the same rows, in the same order, among those that satisfy `φ`; a row that fails `φ` may be
present in one and absent in the other.  The relation passes through the operators of a query:

* `AgreeOn.map`, `AgreeOn.filter`, `AgreeOn.append` — row-wise operators and concatenation;
* `groupRows` / `AgreeOn.grouped` — grouping by a key that determines `φ`;
* `joinRows` — the ten join types, each described by what one row contributes given its matches;
* `filter_joinRows_restrict` — **a join may be computed from the rows that matter on each side**, and
  `AgreeOn.joined` is the form used above it.
-/

namespace IcebergDb.Relational

variable {α β γ κ : Type}

/-- The two lists have the same rows among those that satisfy `φ`. -/
def AgreeOn (φ : α → Bool) (l l' : List α) : Prop := l.filter φ = l'.filter φ

theorem AgreeOn.of_eq (φ : α → Bool) {l l' : List α} (h : l = l') : AgreeOn φ l l' := by
  rw [AgreeOn, h]

/-- Agreement on all rows is equality. -/
theorem AgreeOn.eq {l l' : List α} (h : AgreeOn (fun _ => true) l l') : l = l' := by
  rw [AgreeOn, List.filter_true, List.filter_true] at h
  exact h

/-- Rows that satisfy `φ` may first be sought among those that satisfy a weaker `ψ`. -/
theorem filter_eq_filter_filter {φ ψ : α → Bool} {l : List α}
    (h : ∀ x ∈ l, φ x = true → ψ x = true) : l.filter φ = (l.filter ψ).filter φ := by
  rw [List.filter_filter]
  apply List.filter_congr
  intro x hx
  cases hφ : φ x with
  | false => rfl
  | true => rw [h x hx hφ]; rfl

theorem AgreeOn.mono {φ ψ : α → Bool} {l l' : List α} (h : AgreeOn ψ l l')
    (himp : ∀ x, φ x = true → ψ x = true) : AgreeOn φ l l' := by
  show l.filter φ = l'.filter φ
  rw [filter_eq_filter_filter fun x _ => himp x, h, ← filter_eq_filter_filter fun x _ => himp x]

theorem AgreeOn.map {φ : β → Bool} {ψ : α → Bool} {l l' : List α} (h : AgreeOn ψ l l') (f : α → β)
    (himp : ∀ x, φ (f x) = true → ψ x = true) : AgreeOn φ (l.map f) (l'.map f) := by
  have hmono : AgreeOn (φ ∘ f) l l' := h.mono himp
  show (l.map f).filter φ = (l'.map f).filter φ
  rw [List.filter_map, List.filter_map, hmono]

theorem filter_comm (p q : α → Bool) (l : List α) : (l.filter p).filter q = (l.filter q).filter p := by
  rw [List.filter_filter, List.filter_filter]
  apply List.filter_congr
  intro x _
  exact Bool.and_comm _ _

theorem AgreeOn.filter {φ : α → Bool} {l l' : List α} (h : AgreeOn φ l l') (g : α → Bool) :
    AgreeOn φ (l.filter g) (l'.filter g) := by
  show (l.filter g).filter φ = (l'.filter g).filter φ
  rw [filter_comm g φ l, filter_comm g φ l', h]

theorem AgreeOn.append {φ : α → Bool} {l₁ l₁' l₂ l₂' : List α} (h₁ : AgreeOn φ l₁ l₁')
    (h₂ : AgreeOn φ l₂ l₂') : AgreeOn φ (l₁ ++ l₂) (l₁' ++ l₂') := by
  show (l₁ ++ l₂).filter φ = (l₁' ++ l₂').filter φ
  rw [List.filter_append, List.filter_append, h₁, h₂]

/-! ### Grouping -/

section

variable [DecidableEq κ]

/-- One row for each key, made from the key and the rows that have it. -/
def groupRows (key : α → κ) (out : κ → List α → β) (l : List α) : List β :=
  (l.map key).dedup.map fun k => out k (l.filter fun x => key x = k)

/-- Filtering and removing duplicates commute. -/
theorem filter_dedup (p : κ → Bool) (l : List κ) : l.dedup.filter p = (l.filter p).dedup := by
  induction l with
  | nil => rfl
  | cons a l ih =>
      by_cases hp : p a = true
      · rw [List.filter_cons_of_pos hp]
        by_cases ha : a ∈ l
        · rw [List.dedup_cons_of_mem ha, List.dedup_cons_of_mem (List.mem_filter.mpr ⟨ha, hp⟩), ih]
        · have ha' : a ∉ l.filter p := fun h => ha (List.mem_filter.mp h).1
          rw [List.dedup_cons_of_notMem ha, List.dedup_cons_of_notMem ha', List.filter_cons_of_pos hp,
            ih]
      · rw [List.filter_cons_of_neg hp]
        by_cases ha : a ∈ l
        · rw [List.dedup_cons_of_mem ha, ih]
        · rw [List.dedup_cons_of_notMem ha, List.filter_cons_of_neg hp, ih]

/-- The groups that matter are those of the rows that matter. -/
theorem filter_groupRows (key : α → κ) (out : κ → List α → β) {φ : β → Bool} {p : κ → Bool}
    (hφ : ∀ x rows, φ (out (key x) rows) = p (key x)) (l : List α) :
    (groupRows key out l).filter φ = groupRows key out (l.filter (p ∘ key)) := by
  have hkeys : (l.map key).dedup.filter (φ ∘ fun k => out k (l.filter fun x => key x = k)) =
      ((l.filter (p ∘ key)).map key).dedup := by
    rw [← List.filter_map, ← filter_dedup]
    apply List.filter_congr
    intro k hk
    obtain ⟨x, -, rfl⟩ := List.mem_map.mp (List.mem_dedup.mp hk)
    exact hφ x _
  rw [groupRows, groupRows, List.filter_map, hkeys]
  apply List.map_congr_left
  intro k hk
  -- a key that is left satisfies `p`, so its rows all passed the filter
  obtain ⟨x, hx, rfl⟩ := List.mem_map.mp (List.mem_dedup.mp hk)
  have hkey : p (key x) = true := (List.mem_filter.mp hx).2
  congr 1
  rw [List.filter_filter]
  apply List.filter_congr
  intro y _
  by_cases hy : key y = key x
  · simp [hy, hkey]
  · simp [hy]

theorem AgreeOn.grouped {key : α → κ} {out : κ → List α → β} {φ : β → Bool} {p : κ → Bool}
    (hφ : ∀ x rows, φ (out (key x) rows) = p (key x)) {l l' : List α} (h : AgreeOn (p ∘ key) l l') :
    AgreeOn φ (groupRows key out l) (groupRows key out l') := by
  show (groupRows key out l).filter φ = (groupRows key out l').filter φ
  rw [filter_groupRows key out hφ, filter_groupRows key out hφ, h]

end

/-! ### Joins -/

/-- What a row contributes to the output of a join, given the rows it matches on the other side. -/
inductive Contribution where
  | nothing
  | pairs
  | pairsOrAlone
  | aloneIfMatched
  | aloneIfUnmatched
  | aloneWithMark
deriving DecidableEq

namespace Contribution

/-- The output rows of `a` with the matches `bs`. -/
def rows (pair : α → β → γ) (alone : α → Option Bool → γ) (a : α) (bs : List β) :
    Contribution → List γ
  | nothing => []
  | pairs => bs.map (pair a)
  | pairsOrAlone => if bs.isEmpty then [alone a none] else bs.map (pair a)
  | aloneIfMatched => if bs.isEmpty then [] else [alone a none]
  | aloneIfUnmatched => if bs.isEmpty then [alone a none] else []
  | aloneWithMark => [alone a (some !bs.isEmpty)]

/-- Some output row pairs `a` with a match. -/
def emitsPairs : Contribution → Bool
  | pairs | pairsOrAlone => true
  | _ => false

/-- Some output row is made from `a` alone. -/
def emitsAlone : Contribution → Bool
  | nothing | pairs => false
  | _ => true

/-- A row without a match still shows in the output. -/
def keepsUnmatched : Contribution → Bool
  | pairsOrAlone | aloneIfUnmatched | aloneWithMark => true
  | _ => false

section

variable {pair : α → β → γ} {alone : α → Option Bool → γ} {a : α} {bs : List β} {φ : γ → Bool}
  {p : α → Bool} {q : β → Bool}

/-- A row without matches, where these do not show, contributes nothing. -/
theorem rows_nil {k : Contribution} (hk : k.keepsUnmatched = false) : k.rows pair alone a [] = [] := by
  cases k with
  | pairsOrAlone | aloneIfUnmatched | aloneWithMark => cases hk
  | _ => rfl

/-- Where no row made from `a` alone matters, only the pairs do. -/
theorem filter_rows_of_not_alone (k : Contribution)
    (h : k.emitsAlone = true → ∀ mark, φ (alone a mark) = false) (bs : List β) :
    (k.rows pair alone a bs).filter φ =
      if k.emitsPairs then (bs.map (pair a)).filter φ else [] := by
  cases k with
  | nothing | pairs => rfl
  | pairsOrAlone | aloneIfMatched | aloneIfUnmatched =>
      cases bs <;> simp [rows, emitsPairs, h rfl]
  | aloneWithMark => simp [rows, emitsPairs, h rfl]

/-- The pairs of `a`, restricted to the matches that matter. -/
theorem filter_pairs_restrict (hpair : ∀ b ∈ bs, φ (pair a b) = true → p a = true ∧ q b = true) :
    (bs.map (pair a)).filter φ = if p a then ((bs.filter q).map (pair a)).filter φ else [] := by
  by_cases ha : p a = true
  · rw [if_pos ha, List.filter_map, List.filter_map]
    rw [filter_eq_filter_filter (show ∀ b ∈ bs, (φ ∘ pair a) b = true → q b = true from
      fun b hb h => (hpair b hb h).2)]
  · rw [if_neg ha, List.filter_eq_nil_iff]
    intro x hx hφ
    obtain ⟨b, hb, rfl⟩ := List.mem_map.mp hx
    exact ha (hpair b hb hφ).1

/-- **The contribution of one row, restricted to the rows that matter.**  If every output row that
matters comes from a row `a` and matches that matter, then the other matches may be dropped, and `a`
with them when it does not matter itself. -/
theorem filter_rows_restrict (k : Contribution)
    (hpair : k.emitsPairs = true → ∀ b ∈ bs, φ (pair a b) = true → p a = true ∧ q b = true)
    (halone : k.emitsAlone = true → k.keepsUnmatched = true ∨ bs ≠ [] →
      ∀ mark, φ (alone a mark) = true → p a = true ∧ ∀ b ∈ bs, q b = true) :
    (k.rows pair alone a bs).filter φ =
      if p a then (k.rows pair alone a (bs.filter q)).filter φ else [] := by
  by_cases hshows : k.keepsUnmatched = true ∨ bs ≠ []
  · by_cases hφ : k.emitsAlone = true ∧ ∃ mark, φ (alone a mark) = true
    · -- a row made from `a` alone matters, and then so do `a` and all its matches
      obtain ⟨hk, mark, hmark⟩ := hφ
      obtain ⟨hp, hq⟩ := halone hk hshows mark hmark
      rw [if_pos hp, List.filter_eq_self.mpr hq]
    · have hnone : k.emitsAlone = true → ∀ mark, φ (alone a mark) = false := by
        intro hk mark
        rw [← Bool.not_eq_true]
        exact fun hmark => hφ ⟨hk, mark, hmark⟩
      rw [filter_rows_of_not_alone k hnone, filter_rows_of_not_alone k hnone]
      cases hk : k.emitsPairs with
      | true => exact filter_pairs_restrict (hpair hk)
      | false => exact (ite_self _).symm
  · -- `a` has no match and does not show
    rw [not_or, Bool.not_eq_true, ne_eq, not_not] at hshows
    obtain ⟨hk, rfl⟩ := hshows
    rw [List.filter_nil, rows_nil hk, List.filter_nil, ite_self]

end

end Contribution

/-- The join types of SQL and their semi, anti and mark variants. -/
inductive JoinType where
  | inner
  | left
  | right
  | full
  | leftSemi
  | rightSemi
  | leftAnti
  | rightAnti
  | leftMark
  | rightMark
deriving DecidableEq

namespace JoinType

/-- What a left row contributes. -/
def leftContribution : JoinType → Contribution
  | inner => .pairs
  | left | full => .pairsOrAlone
  | leftSemi => .aloneIfMatched
  | leftAnti => .aloneIfUnmatched
  | leftMark => .aloneWithMark
  | right | rightSemi | rightAnti | rightMark => .nothing

/-- What a right row contributes. -/
def rightContribution : JoinType → Contribution
  | right => .pairsOrAlone
  | full => .aloneIfUnmatched
  | rightSemi => .aloneIfMatched
  | rightAnti => .aloneIfUnmatched
  | rightMark => .aloneWithMark
  | inner | left | leftSemi | leftAnti | leftMark => .nothing

end JoinType

/-- The output of a join: what the left rows contribute, then what the right rows do. -/
def joinRows (jt : JoinType) (m : α → β → Bool) (pair : α → β → γ) (leftAlone : α → Option Bool → γ)
    (rightAlone : β → Option Bool → γ) (as : List α) (bs : List β) : List γ :=
  (as.flatMap fun a => jt.leftContribution.rows pair leftAlone a (bs.filter (m a))) ++
    bs.flatMap fun b =>
      jt.rightContribution.rows (fun b a => pair a b) rightAlone b (as.filter fun a => m a b)

/-- One half of a join: the rows that do not matter contribute nothing that does. -/
theorem filter_flatMap_restrict {f g : α → List γ} {φ : γ → Bool} {p : α → Bool} {as : List α}
    (h : ∀ a ∈ as, (f a).filter φ = if p a then (g a).filter φ else []) :
    (as.flatMap f).filter φ = ((as.filter p).flatMap g).filter φ := by
  induction as with
  | nil => rfl
  | cons a as ih =>
      have hrest := ih fun x hx => h x (List.mem_cons_of_mem a hx)
      rw [List.flatMap_cons, List.filter_append, h a List.mem_cons_self, hrest]
      by_cases ha : p a = true
      · rw [if_pos ha, List.filter_cons_of_pos ha, List.flatMap_cons, List.filter_append]
      · rw [if_neg ha, List.filter_cons_of_neg ha, List.nil_append]

/-- What the output rows of a join that satisfy `φ` say about the rows they are made of. -/
structure Matters (jt : JoinType) (m : α → β → Bool) (pair : α → β → γ)
    (leftAlone : α → Option Bool → γ) (rightAlone : β → Option Bool → γ) (φ : γ → Bool)
    (p : α → Bool) (q : β → Bool) (as : List α) (bs : List β) : Prop where
  pair : jt.leftContribution.emitsPairs = true ∨ jt.rightContribution.emitsPairs = true →
    ∀ a ∈ as, ∀ b ∈ bs, m a b = true → φ (pair a b) = true → p a = true ∧ q b = true
  left : jt.leftContribution.emitsAlone = true → ∀ a ∈ as,
    jt.leftContribution.keepsUnmatched = true ∨ (∃ b ∈ bs, m a b = true) →
    ∀ mark, φ (leftAlone a mark) = true → p a = true ∧ ∀ b ∈ bs, m a b = true → q b = true
  right : jt.rightContribution.emitsAlone = true → ∀ b ∈ bs,
    jt.rightContribution.keepsUnmatched = true ∨ (∃ a ∈ as, m a b = true) →
    ∀ mark, φ (rightAlone b mark) = true → q b = true ∧ ∀ a ∈ as, m a b = true → p a = true

section

variable {jt : JoinType} {m : α → β → Bool} {pair : α → β → γ} {leftAlone : α → Option Bool → γ}
  {rightAlone : β → Option Bool → γ} {φ : γ → Bool} {p : α → Bool} {q : β → Bool}

theorem exists_of_filter_ne_nil {l : List α} {p : α → Bool} (h : l.filter p ≠ []) :
    ∃ x ∈ l, p x = true := by
  obtain ⟨x, hx⟩ := List.exists_mem_of_ne_nil _ h
  exact ⟨x, List.mem_filter.mp hx⟩

/-- **A join may be computed from the rows that matter.** -/
theorem filter_joinRows_restrict {as : List α} {bs : List β}
    (h : Matters jt m pair leftAlone rightAlone φ p q as bs) :
    (joinRows jt m pair leftAlone rightAlone as bs).filter φ =
      (joinRows jt m pair leftAlone rightAlone (as.filter p) (bs.filter q)).filter φ := by
  simp only [joinRows, List.filter_append]
  congr 1
  · apply filter_flatMap_restrict
    intro a ha
    rw [filter_comm q (m a) bs]
    apply Contribution.filter_rows_restrict
    · intro hk b hb
      obtain ⟨hb, hm⟩ := List.mem_filter.mp hb
      exact h.pair (.inl hk) a ha b hb hm
    · intro hk hu mark hφ
      obtain ⟨hp, hq⟩ := h.left hk a ha (hu.imp_right exists_of_filter_ne_nil) mark hφ
      refine ⟨hp, ?_⟩
      intro b hb
      obtain ⟨hb, hm⟩ := List.mem_filter.mp hb
      exact hq b hb hm
  · apply filter_flatMap_restrict
    intro b hb
    rw [filter_comm p (fun a => m a b) as]
    apply Contribution.filter_rows_restrict
    · intro hk a ha hφ
      obtain ⟨ha, hm⟩ := List.mem_filter.mp ha
      exact (h.pair (.inr hk) a ha b hb hm hφ).symm
    · intro hk hu mark hφ
      obtain ⟨hq, hp⟩ := h.right hk b hb (hu.imp_right exists_of_filter_ne_nil) mark hφ
      refine ⟨hq, ?_⟩
      intro a ha
      obtain ⟨ha, hm⟩ := List.mem_filter.mp ha
      exact hp a ha hm

/-- **Agreement on the inputs of a join gives agreement on its output.** -/
theorem AgreeOn.joined {as as' : List α} {bs bs' : List β} (ha : AgreeOn p as as')
    (hb : AgreeOn q bs bs') (h : Matters jt m pair leftAlone rightAlone φ p q as bs)
    (h' : Matters jt m pair leftAlone rightAlone φ p q as' bs') :
    AgreeOn φ (joinRows jt m pair leftAlone rightAlone as bs)
      (joinRows jt m pair leftAlone rightAlone as' bs') := by
  show (joinRows jt m pair leftAlone rightAlone as bs).filter φ =
    (joinRows jt m pair leftAlone rightAlone as' bs').filter φ
  rw [filter_joinRows_restrict h, filter_joinRows_restrict h', ha, hb]

end

end IcebergDb.Relational
