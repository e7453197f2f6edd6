import Mathlib.Data.Option.Basic

/-!
# Computations that write a log

A computation writes lines and then returns a value or stops, by an error or a panic.  Two runs of one
program are compared by `Same`: they write the same lines and stop together, or return related values.

* `Logged`, with `say` and `ofOption`, is a monad;
* `Same.bind` — the rule for sequences, with one rule for each primitive.
-/

namespace IcebergDb

/-- The lines written, and the value returned; `none` when the computation stops early. -/
structure Logged (ω α : Type) where
  lines : List ω
  result : Option α

namespace Logged

variable {ω α β γ δ : Type}

/-- Write some lines. -/
def say (ls : List ω) : Logged ω Unit := ⟨ls, some ()⟩

/-- Stop when there is no value. -/
def ofOption (o : Option α) : Logged ω α := ⟨[], o⟩

/-- One computation after the other. -/
def andThen (x : Logged ω α) (f : α → Logged ω β) : Logged ω β :=
  match x.result with
  | none => ⟨x.lines, none⟩
  | some a => ⟨x.lines ++ (f a).lines, (f a).result⟩

instance instMonad : Monad (Logged ω) where
  pure a := ⟨[], some a⟩
  bind := andThen

/-! ### Results -/

theorem result_bind (x : Logged ω α) (f : α → Logged ω β) :
    (x >>= f).result = x.result.bind fun a => (f a).result := by
  obtain ⟨lines, result⟩ := x
  cases result with
  | none => rfl
  | some a => rfl

theorem result_say (ls : List ω) : (say ls).result = some () := rfl

theorem result_ofOption (o : Option α) : (ofOption o : Logged ω α).result = o := rfl

/-! ### Optional values -/

theorem isSome_mapM (f : α → Option β) (l : List α) :
    (l.mapM f).isSome = true ↔ ∀ a ∈ l, (f a).isSome = true := by
  induction l with
  | nil => simp
  | cons a l ih =>
      rw [List.mapM_cons, List.forall_mem_cons, ← ih]
      cases f a with
      | none => simp
      | some b => cases l.mapM f <;> simp

/-- What follows does not panic. -/
theorem isSome_bind_of_forall {f : α → Option β} (o : Option α) (h : ∀ a, (f a).isSome = true) :
    (o >>= f).isSome = o.isSome := by
  cases o with
  | none => rfl
  | some a => exact h a

/-- The two runs write the same and return related values. -/
structure Same (R : α → β → Prop) (x : Logged ω α) (y : Logged ω β) : Prop where
  lines : x.lines = y.lines
  result : Option.Rel R x.result y.result

variable {R : α → β → Prop} {S : γ → δ → Prop}

/-! ### Related optional values -/

theorem rel_refl (x : Option α) : Option.Rel Eq x x := by
  cases x with
  | none => exact .none
  | some a => exact .some rfl

theorem rel_eq {T : α → α → Prop} {x y : Option α} (h : Option.Rel T x y)
    (heq : ∀ a b, T a b → a = b) : x = y := by
  cases h with
  | none => rfl
  | some hab => rw [heq _ _ hab]

theorem rel_isSome {x : Option α} {y : Option β} (h : Option.Rel R x y) : x.isSome = y.isSome := by
  cases h <;> rfl

theorem rel_mono {T : α → β → Prop} {x : Option α} {y : Option β} (h : Option.Rel R x y)
    (hRT : ∀ a b, R a b → T a b) : Option.Rel T x y := by
  cases h with
  | none => exact .none
  | some hab => exact .some (hRT _ _ hab)

/-- A filter that does not tell related values apart. -/
theorem rel_filter {x : Option α} {y : Option β} {f : α → Bool} {g : β → Bool} (h : Option.Rel R x y)
    (hfg : ∀ a b, R a b → f a = g b) : Option.Rel R (x.filter f) (y.filter g) := by
  cases h with
  | none => exact .none
  | @some a b hab =>
      rw [Option.filter_some, Option.filter_some, hfg a b hab]
      split
      · exact .some hab
      · exact .none

theorem rel_and {T : α → β → Prop} {x : Option α} {y : Option β} (h : Option.Rel R x y)
    (h' : Option.Rel T x y) : Option.Rel (fun a b => R a b ∧ T a b) x y := by
  cases h with
  | none => exact .none
  | some hab =>
      cases h' with
      | some hab' => exact .some ⟨hab, hab'⟩

theorem rel_bind {x : Option α} {y : Option β} {f : α → Option γ} {g : β → Option δ}
    (h : Option.Rel R x y) (hfg : ∀ a b, R a b → Option.Rel S (f a) (g b)) :
    Option.Rel S (x.bind f) (y.bind g) := by
  cases h with
  | none => exact .none
  | some hab => exact hfg _ _ hab

theorem rel_or {x x' : Option α} {y y' : Option β} (h : Option.Rel R x y) (h' : Option.Rel R x' y') :
    Option.Rel R (x.or x') (y.or y') := by
  cases h with
  | none => exact h'
  | some hab => exact .some hab

theorem rel_getD {x : Option α} {y : Option β} {a : α} {b : β} (h : Option.Rel R x y) (hab : R a b) :
    R (x.getD a) (y.getD b) := by
  cases h with
  | none => exact hab
  | some hxy => exact hxy

/-! ### The rules for two runs -/

theorem Same.bind {x : Logged ω α} {y : Logged ω β} {f : α → Logged ω γ} {g : β → Logged ω δ}
    (h : Same R x y) (hfg : ∀ a b, R a b → Same S (f a) (g b)) : Same S (x >>= f) (y >>= g) := by
  obtain ⟨xlines, xresult⟩ := x
  obtain ⟨ylines, yresult⟩ := y
  obtain ⟨hlines, hresult⟩ := h
  cases hlines
  cases hresult with
  | none => exact ⟨rfl, .none⟩
  | @some a b hab =>
      refine ⟨?_, (hfg a b hab).result⟩
      show xlines ++ (f a).lines = xlines ++ (g b).lines
      rw [(hfg a b hab).lines]

theorem Same.refl (x : Logged ω α) : Same Eq x x := ⟨rfl, rel_refl x.result⟩

theorem Same.pure {a : α} {b : β} (h : R a b) : Same R (Pure.pure a : Logged ω α) (Pure.pure b) :=
  ⟨rfl, .some h⟩

theorem Same.ofOption {x : Option α} {y : Option β} (h : Option.Rel R x y) :
    Same R (ofOption x : Logged ω α) (ofOption y) :=
  ⟨rfl, h⟩

theorem Same.say {ls ls' : List ω} (h : ls = ls') : Same (fun _ _ => True) (say ls) (say ls') :=
  ⟨h, .some trivial⟩

end Logged

end IcebergDb
