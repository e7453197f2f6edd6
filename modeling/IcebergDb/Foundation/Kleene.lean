import Mathlib.Order.Basic
import Mathlib.Tactic.Common

/-!
# Kleene's three-valued connectives

SQL conditions and Arrow's `and_kleene` / `or_kleene` / `not` kernels share one truth table: a value is
`some true`, `some false` or `none` (NULL, unknown).  This file fixes the three connectives on
`Option Bool` and the inversion facts every later argument about filters uses:

* `kand_true_left` and its seven companions — the constants are neutral or dominate;
* `kand_eq_true` / `kand_eq_false` — a conjunction is TRUE when both sides are, FALSE when one is;
* `kor_eq_true` / `kor_eq_false` — the dual facts;
* `knot_eq_true` / `knot_eq_false` — negation exchanges the two definite values and keeps NULL;
* `kany` / `kall` — the connectives over a list, with the same inversion facts.

Nothing here mentions a query engine.
-/

namespace IcebergDb.Kleene

/-- Kleene conjunction: FALSE dominates, TRUE is neutral. -/
def kand : Option Bool → Option Bool → Option Bool
  | some false, _ => some false
  | _, some false => some false
  | some true, some true => some true
  | _, _ => none

/-- Kleene disjunction: TRUE dominates, FALSE is neutral. -/
def kor : Option Bool → Option Bool → Option Bool
  | some true, _ => some true
  | _, some true => some true
  | some false, some false => some false
  | _, _ => none

/-- Kleene negation. -/
def knot : Option Bool → Option Bool
  | some b => some (!b)
  | none => none

@[simp] theorem kand_true_left (a : Option Bool) : kand (some true) a = a := by
  rcases a with _ | _ | _ <;> rfl

@[simp] theorem kand_true_right (a : Option Bool) : kand a (some true) = a := by
  rcases a with _ | _ | _ <;> rfl

@[simp] theorem kand_false_left (a : Option Bool) : kand (some false) a = some false := rfl

@[simp] theorem kand_false_right (a : Option Bool) : kand a (some false) = some false := by
  rcases a with _ | _ | _ <;> rfl

@[simp] theorem kor_false_left (a : Option Bool) : kor (some false) a = a := by
  rcases a with _ | _ | _ <;> rfl

@[simp] theorem kor_false_right (a : Option Bool) : kor a (some false) = a := by
  rcases a with _ | _ | _ <;> rfl

@[simp] theorem kor_true_left (a : Option Bool) : kor (some true) a = some true := rfl

@[simp] theorem kor_true_right (a : Option Bool) : kor a (some true) = some true := by
  rcases a with _ | _ | _ <;> rfl

@[simp] theorem kand_eq_true (a b : Option Bool) :
    kand a b = some true ↔ a = some true ∧ b = some true := by
  rcases a with _ | _ | _ <;> rcases b with _ | _ | _ <;> simp [kand]

@[simp] theorem kand_eq_false (a b : Option Bool) :
    kand a b = some false ↔ a = some false ∨ b = some false := by
  rcases a with _ | _ | _ <;> rcases b with _ | _ | _ <;> simp [kand]

@[simp] theorem kor_eq_true (a b : Option Bool) :
    kor a b = some true ↔ a = some true ∨ b = some true := by
  rcases a with _ | _ | _ <;> rcases b with _ | _ | _ <;> simp [kor]

@[simp] theorem kor_eq_false (a b : Option Bool) :
    kor a b = some false ↔ a = some false ∧ b = some false := by
  rcases a with _ | _ | _ <;> rcases b with _ | _ | _ <;> simp [kor]

@[simp] theorem knot_eq_true (a : Option Bool) : knot a = some true ↔ a = some false := by
  rcases a with _ | _ | _ <;> simp [knot]

@[simp] theorem knot_eq_false (a : Option Bool) : knot a = some false ↔ a = some true := by
  rcases a with _ | _ | _ <;> simp [knot]

@[simp] theorem knot_knot (a : Option Bool) : knot (knot a) = a := by
  rcases a with _ | _ | _ <;> rfl

/-! ### More is known

`∀ b, x = some b → y = some b` says that whatever `x` decides, `y` decides alike. -/

theorem kor_mono {x y x' y' : Option Bool} (h : ∀ b, x = some b → y = some b)
    (h' : ∀ b, x' = some b → y' = some b) : ∀ b, kor x x' = some b → kor y y' = some b := by
  intro b hb
  cases b with
  | true => exact (kor_eq_true y y').mpr (((kor_eq_true x x').mp hb).imp (h true) (h' true))
  | false =>
      obtain ⟨h₁, h₂⟩ := (kor_eq_false x x').mp hb
      exact (kor_eq_false y y').mpr ⟨h false h₁, h' false h₂⟩

theorem knot_mono {x y : Option Bool} (h : ∀ b, x = some b → y = some b) :
    ∀ b, knot x = some b → knot y = some b := by
  intro b hb
  cases b with
  | true => exact (knot_eq_true y).mpr (h false ((knot_eq_true x).mp hb))
  | false => exact (knot_eq_false y).mpr (h true ((knot_eq_false x).mp hb))

/-! ### Folds over a list -/

/-- The disjunction of `f` over a list. -/
def kany {α : Type} (f : α → Option Bool) (l : List α) : Option Bool :=
  l.foldr (fun a acc => kor (f a) acc) (some false)

/-- The conjunction of `f` over a list. -/
def kall {α : Type} (f : α → Option Bool) (l : List α) : Option Bool :=
  l.foldr (fun a acc => kand (f a) acc) (some true)

theorem kany_cons {α : Type} (f : α → Option Bool) (a : α) (l : List α) :
    kany f (a :: l) = kor (f a) (kany f l) := rfl

theorem kany_eq_true {α : Type} (f : α → Option Bool) (l : List α) :
    kany f l = some true ↔ ∃ a ∈ l, f a = some true := by
  induction l with
  | nil => simp [kany]
  | cons a l ih =>
      rw [kany] at ih
      rw [kany, List.foldr_cons, kor_eq_true, ih]
      simp

theorem kany_eq_false {α : Type} (f : α → Option Bool) (l : List α) :
    kany f l = some false ↔ ∀ a ∈ l, f a = some false := by
  induction l with
  | nil => simp [kany]
  | cons a l ih =>
      rw [kany] at ih
      rw [kany, List.foldr_cons, kor_eq_false, ih]
      simp

theorem kall_eq_true {α : Type} (f : α → Option Bool) (l : List α) :
    kall f l = some true ↔ ∀ a ∈ l, f a = some true := by
  induction l with
  | nil => simp [kall]
  | cons a l ih =>
      rw [kall] at ih
      rw [kall, List.foldr_cons, kand_eq_true, ih]
      simp

end IcebergDb.Kleene
