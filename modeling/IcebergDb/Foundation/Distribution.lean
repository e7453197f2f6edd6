import Mathlib.Data.Nat.Notation
import Mathlib.Data.List.Basic
import Mathlib.Tactic.Common

/-!
# How data is distributed over partitions

An operator of a parallel query plan requires something of the partitionings of its inputs, and its own
output is partitioned in a way that follows from them.  A plan is rewritten soundly when nobody above the
rewritten node misses what its output no longer offers.

* `Partitioning.Satisfies` — a partitioning meets a required distribution;
* `Operator` — the requirements of an operator, and the input whose partitioning it passes on, if any;
* `Operator.sees` — the operator, or one above it, relies on the hash partitioning of an input;
* `Keeps` — a new partitioning offers what the old one did, as far as it is seen:
  `Operator.accepts_of_keeps` and `Operator.output_keeps` carry this through an operator;
* `Exposed` — a partitioning that offers nothing: `Operator.not_accepts_of_exposed` and
  `Operator.output_exposed` carry the loss to the operator that requires what is gone.
-/

namespace IcebergDb.Partitions

variable {κ : Type}

/-- The number of partitions, and the keys the rows are hashed by. -/
structure Partitioning (κ : Type) where
  count : ℕ
  hash : Option κ

/-- What an operator can require of an input. -/
inductive Distribution (κ : Type) where
  | unspecified
  | single
  | hash (keys : κ)

/-- The requirement is about the hash keys. -/
def Distribution.isHash : Distribution κ → Bool
  | .hash _ => true
  | _ => false

/-- `meets k k'`: rows hashed by `k` are distributed as `k'` requires.  One partition satisfies everything. -/
def Partitioning.Satisfies (meets : κ → κ → Prop) (p : Partitioning κ) : Distribution κ → Prop
  | .unspecified => True
  | .single => p.count = 1
  | .hash keys => p.count = 1 ∨ ∃ k, p.hash = some k ∧ meets k keys

/-- As many partitions, and the image of the keys. -/
def Partitioning.image (f : κ → Option κ) (p : Partitioning κ) : Partitioning κ :=
  ⟨p.count, p.hash.bind f⟩

theorem Partitioning.image_some (p : Partitioning κ) : p.image some = p := by
  rw [Partitioning.image, Option.bind_fun_some]

/-- What the output partitioning comes from: the operator itself, given the numbers of input partitions, or
one input, of whose keys the image is kept. -/
inductive Output (κ : Type) where
  | own (count : List ℕ → ℕ) (hash : Option κ)
  | ofInput (i : ℕ) (image : κ → Option κ)

/-- An operator, as far as distribution goes. -/
structure Operator (κ : Type) where
  required : ℕ → Distribution κ
  output : Output κ

namespace Operator

/-- The partitioning of the output. -/
def outputPartitioning (op : Operator κ) (inputs : List (Partitioning κ)) : Partitioning κ :=
  match op.output with
  | .own count hash => ⟨count (inputs.map Partitioning.count), hash⟩
  | .ofInput i image =>
      match inputs[i]? with
      | some p => p.image image
      | none => ⟨0, none⟩

theorem outputPartitioning_own {op : Operator κ} {count : List ℕ → ℕ} {hash : Option κ}
    (h : op.output = .own count hash) (inputs : List (Partitioning κ)) :
    op.outputPartitioning inputs = ⟨count (inputs.map Partitioning.count), hash⟩ := by
  rw [outputPartitioning, h]

theorem outputPartitioning_ofInput {op : Operator κ} {i : ℕ} {image : κ → Option κ}
    (h : op.output = .ofInput i image) {inputs : List (Partitioning κ)} {p : Partitioning κ}
    (hp : inputs[i]? = some p) : op.outputPartitioning inputs = p.image image := by
  rw [outputPartitioning, h]
  simp only [hp]

theorem outputPartitioning_missing {op : Operator κ} {i : ℕ} {image : κ → Option κ}
    (h : op.output = .ofInput i image) {inputs : List (Partitioning κ)} (hp : inputs[i]? = none) :
    op.outputPartitioning inputs = ⟨0, none⟩ := by
  rw [outputPartitioning, h]
  simp only [hp]

/-- Every requirement is satisfied. -/
def Accepts (meets : κ → κ → Prop) (op : Operator κ) (inputs : List (Partitioning κ)) : Prop :=
  ∀ (i : ℕ) (p : Partitioning κ), inputs[i]? = some p → p.Satisfies meets (op.required i)

/-- The output passes on the partitioning of input `i`. -/
def passesOn (op : Operator κ) (i : ℕ) : Bool :=
  match op.output with
  | .own _ _ => false
  | .ofInput j _ => i == j

/-- The hash keys of input `i` matter, to this operator or, through its output, to one above. -/
def sees (op : Operator κ) (seen : Bool) (i : ℕ) : Bool :=
  (op.required i).isHash || (op.passesOn i && seen)

end Operator

/-! ### What a rewritten input still offers -/

/-- `new` offers what `old` did: as many partitions and, if they are seen, the same keys. -/
structure Keeps (seen : Bool) (old new : Partitioning κ) : Prop where
  count : new.count = old.count
  hash : seen = true → old.count = 1 ∨ ∀ k, old.hash = some k → new.hash = some k

theorem Keeps.refl (seen : Bool) (p : Partitioning κ) : Keeps seen p p :=
  ⟨rfl, fun _ => .inr fun _ h => h⟩

/-- What is kept for more is kept for less. -/
theorem Keeps.weaken {seen seen' : Bool} {p q : Partitioning κ} (h : Keeps seen p q)
    (hseen : seen' = true → seen = true) : Keeps seen' p q :=
  ⟨h.count, fun hs => h.hash (hseen hs)⟩

/-- The image of a partitioning offers what it did when the keys are seen. -/
theorem Keeps.image {seen : Bool} {p q : Partitioning κ} (h : Keeps seen p q) (f : κ → Option κ) :
    Keeps seen (p.image f) (q.image f) := by
  refine ⟨h.count, fun hseen => (h.hash hseen).imp id fun hkeep k hk => ?_⟩
  obtain ⟨k', hk', hf⟩ := Option.bind_eq_some_iff.mp hk
  exact Option.bind_eq_some_iff.mpr ⟨k', hkeep k' hk', hf⟩

/-- Input for input, `new` offers what `old` did. -/
def KeepsAll (seen : ℕ → Bool) (old new : List (Partitioning κ)) : Prop :=
  ∀ i, Option.Rel (Keeps (seen i)) old[i]? new[i]?

theorem KeepsAll.nil (seen : ℕ → Bool) : KeepsAll seen ([] : List (Partitioning κ)) [] :=
  fun _ => .none

theorem KeepsAll.cons {seen : ℕ → Bool} {p q : Partitioning κ} {ps qs : List (Partitioning κ)}
    (h : Keeps (seen 0) p q) (hs : KeepsAll (fun i => seen (i + 1)) ps qs) :
    KeepsAll seen (p :: ps) (q :: qs) := by
  intro i
  cases i with
  | zero => exact .some h
  | succ i => exact hs i

theorem KeepsAll.get {seen : ℕ → Bool} {old new : List (Partitioning κ)} (h : KeepsAll seen old new)
    {i : ℕ} {q : Partitioning κ} (hq : new[i]? = some q) : ∃ p, old[i]? = some p ∧ Keeps (seen i) p q := by
  have hrel := h i
  rw [hq] at hrel
  cases hp : old[i]? with
  | none =>
      rw [hp] at hrel
      cases hrel
  | some p =>
      rw [hp] at hrel
      cases hrel with
      | some hkeeps => exact ⟨p, rfl, hkeeps⟩

/-- The numbers of partitions are the same. -/
theorem KeepsAll.map_count {seen : ℕ → Bool} {old new : List (Partitioning κ)}
    (h : KeepsAll seen old new) : new.map Partitioning.count = old.map Partitioning.count := by
  apply List.ext_getElem?
  intro i
  have hrel := h i
  rw [List.getElem?_map, List.getElem?_map]
  cases hp : old[i]? with
  | none =>
      rw [hp] at hrel
      cases hq : new[i]? with
      | none => rfl
      | some q =>
          rw [hq] at hrel
          cases hrel
  | some p =>
      rw [hp] at hrel
      cases hq : new[i]? with
      | none =>
          rw [hq] at hrel
          cases hrel
      | some q =>
          rw [hq] at hrel
          cases hrel with
          | some hkeeps => exact congrArg some hkeeps.count

section

variable {meets : κ → κ → Prop} {op : Operator κ} {seen : Bool}

/-- **What was satisfied stays satisfied**, if the keys are seen where keys are required. -/
theorem Keeps.satisfies {p q : Partitioning κ} (h : Keeps seen p q) {d : Distribution κ}
    (hd : d.isHash = true → seen = true) (hp : p.Satisfies meets d) : q.Satisfies meets d := by
  cases d with
  | unspecified => trivial
  | single => exact h.count.trans hp
  | hash keys =>
      rcases hp with hone | ⟨k, hk, hmeets⟩
      · exact .inl (h.count.trans hone)
      · rcases h.hash (hd rfl) with hone | hkeep
        · exact .inl (h.count.trans hone)
        · exact .inr ⟨k, hkeep k hk, hmeets⟩

namespace Operator

/-- **Requirements survive** inputs that offer what they did. -/
theorem accepts_of_keeps {old new : List (Partitioning κ)} (h : KeepsAll (op.sees seen) old new)
    (hold : op.Accepts meets old) : op.Accepts meets new := by
  intro i q hq
  obtain ⟨p, hp, hkeeps⟩ := h.get hq
  refine hkeeps.satisfies (fun hhash => ?_) (hold i p hp)
  rw [sees, hhash]
  rfl

/-- **The output offers what it did** when the inputs do. -/
theorem output_keeps {old new : List (Partitioning κ)} (h : KeepsAll (op.sees seen) old new) :
    Keeps seen (op.outputPartitioning old) (op.outputPartitioning new) := by
  cases hout : op.output with
  | own count hash =>
      rw [outputPartitioning_own hout, outputPartitioning_own hout, h.map_count]
      exact .refl seen _
  | ofInput i image =>
      have hrel := h i
      cases hp : old[i]? with
      | none =>
          cases hq : new[i]? with
          | none =>
              rw [outputPartitioning_missing hout hp, outputPartitioning_missing hout hq]
              exact .refl seen _
          | some q =>
              rw [hp, hq] at hrel
              cases hrel
      | some p =>
          cases hq : new[i]? with
          | none =>
              rw [hp, hq] at hrel
              cases hrel
          | some q =>
              rw [hp, hq] at hrel
              rw [outputPartitioning_ofInput hout hp, outputPartitioning_ofInput hout hq]
              cases hrel with
              | some hkeeps =>
                  refine Keeps.image (hkeeps.weaken fun hseen => ?_) image
                  rw [sees, passesOn, hout, hseen, Bool.and_true]
                  exact (congrArg _ (beq_self_eq_true i)).trans (Bool.or_true _)

end Operator

/-! ### What a rewritten input lacks -/

/-- Several partitions, and nothing known about the keys. -/
structure Exposed (p : Partitioning κ) : Prop where
  count : p.count ≠ 1
  hash : p.hash = none

theorem Exposed.image {p : Partitioning κ} (h : Exposed p) (f : κ → Option κ) : Exposed (p.image f) :=
  ⟨h.count, by rw [Partitioning.image, h.hash, Option.bind_none]⟩

theorem Exposed.not_satisfies {p : Partitioning κ} (h : Exposed p) {d : Distribution κ}
    (hd : d.isHash = true) : ¬ p.Satisfies meets d := by
  cases d with
  | unspecified => cases hd
  | single => cases hd
  | hash keys =>
      intro hp
      rcases hp with hone | ⟨k, hk, -⟩
      · exact h.count hone
      · rw [h.hash] at hk
        cases hk

namespace Operator

/-- **A requirement notices the loss.** -/
theorem not_accepts_of_exposed {inputs : List (Partitioning κ)} {i : ℕ} {p : Partitioning κ}
    (hp : inputs[i]? = some p) (h : Exposed p) (hi : (op.required i).isHash = true) :
    ¬ op.Accepts meets inputs :=
  fun haccepts => h.not_satisfies hi (haccepts i p hp)

/-- **An operator that passes the partitioning on passes the loss on.** -/
theorem output_exposed {inputs : List (Partitioning κ)} {i : ℕ} {p : Partitioning κ}
    (hp : inputs[i]? = some p) (h : Exposed p) (hi : op.passesOn i = true) :
    Exposed (op.outputPartitioning inputs) := by
  cases hout : op.output with
  | own count hash =>
      rw [passesOn, hout] at hi
      cases hi
  | ofInput j image =>
      rw [passesOn, hout] at hi
      obtain rfl := eq_of_beq hi
      rw [outputPartitioning_ofInput hout hp]
      exact h.image image

/-- An input whose loss is seen either breaks a requirement or exposes the output. -/
theorem exposed_of_sees {inputs : List (Partitioning κ)} {i : ℕ} {p : Partitioning κ}
    (hp : inputs[i]? = some p) (h : Exposed p) (hi : op.sees seen i = true)
    (haccepts : op.Accepts meets inputs) :
    seen = true ∧ Exposed (op.outputPartitioning inputs) := by
  rcases (Bool.or_eq_true _ _).mp hi with hhash | hpass
  · exact absurd haccepts (not_accepts_of_exposed hp h hhash)
  · obtain ⟨hpass, hseen⟩ := (Bool.and_eq_true _ _).mp hpass
    exact ⟨hseen, output_exposed hp h hpass⟩

end Operator

end

end IcebergDb.Partitions
