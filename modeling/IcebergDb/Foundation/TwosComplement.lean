import Mathlib.Algebra.Order.Ring.Int
import Mathlib.Tactic.Ring
import Mathlib.Tactic.Linarith
import Mathlib.Tactic.LinearCombination

/-!
# Two's complement

Numbers as bytes, the most significant byte first.

* `unsigned`, `signed` — the number of a word of bytes;
* `be` — the word of a number, and `signed_be`, which reads it back if it fits;
* `trim` — leading bytes that only repeat the sign are dropped;
* `signed_trim` — **the number stays**, and `length_trim_le` — as few bytes are left as hold it.
-/

namespace IcebergDb.TwosComplement

variable {b c : Fin 256} {bs : List (Fin 256)} {n k : ℕ} {v : ℤ}

/-! ### Words -/

/-- The number of a word without a sign. -/
def unsigned (bs : List (Fin 256)) : ℕ := bs.foldl (fun n b => n * 256 + b.val) 0

/-- The number of a word in two's complement. -/
def signed (bs : List (Fin 256)) : ℤ :=
  match bs with
  | [] => 0
  | b :: _ => if 128 ≤ b.val then (unsigned bs : ℤ) - 256 ^ bs.length else unsigned bs

/-- The lowest byte of a number. -/
def byte (v : ℤ) : Fin 256 := ⟨(v % 256).toNat, by omega⟩

/-- The lowest `n` bytes of a number. -/
def be : ℕ → ℤ → List (Fin 256)
  | 0, _ => []
  | n + 1, v => byte (v / 256 ^ n) :: be n v

/-- The number fits into `n` bytes. -/
def Fits (n : ℕ) (v : ℤ) : Prop := -256 ^ n ≤ 2 * v ∧ 2 * v < 256 ^ n

theorem length_be (n : ℕ) (v : ℤ) : (be n v).length = n := by
  induction n with
  | zero => rfl
  | succ n ih => rw [be, List.length_cons, ih]

theorem val_byte (v : ℤ) : ((byte v).val : ℤ) = v % 256 := by
  show ((v % 256).toNat : ℤ) = v % 256
  omega

theorem unsigned_cons (b : Fin 256) (bs : List (Fin 256)) :
    unsigned (b :: bs) = b.val * 256 ^ bs.length + unsigned bs := by
  have hfold : ∀ (l : List (Fin 256)) (acc : ℕ),
      l.foldl (fun n b => n * 256 + b.val) acc = acc * 256 ^ l.length + unsigned l := by
    intro l
    induction l with
    | nil =>
        intro acc
        simp [unsigned]
    | cons a l ih =>
        intro acc
        show l.foldl _ (acc * 256 + a.val) = acc * 256 ^ (l.length + 1) + l.foldl _ (0 * 256 + a.val)
        rw [ih, ih]
        ring
  show bs.foldl _ (0 * 256 + b.val) = _
  rw [hfold, Nat.zero_mul, Nat.zero_add]

theorem unsigned_lt (bs : List (Fin 256)) : unsigned bs < 256 ^ bs.length := by
  induction bs with
  | nil => decide
  | cons b bs ih =>
      have hb := b.isLt
      have hmul : b.val * 256 ^ bs.length ≤ 255 * 256 ^ bs.length := Nat.mul_le_mul_right _ (by omega)
      rw [unsigned_cons, List.length_cons, Nat.pow_succ]
      omega

theorem signed_cons (b : Fin 256) (bs : List (Fin 256)) :
    signed (b :: bs) = (if 128 ≤ b.val then (b.val : ℤ) - 256 else b.val) * 256 ^ bs.length + unsigned bs := by
  show (if 128 ≤ b.val then (unsigned (b :: bs) : ℤ) - 256 ^ (bs.length + 1) else unsigned (b :: bs)) = _
  rw [unsigned_cons]
  split
  · push_cast
    ring
  · push_cast
    rfl

/-! ### Writing and reading -/

theorem unsigned_be (n : ℕ) (v : ℤ) : (unsigned (be n v) : ℤ) = v % 256 ^ n := by
  induction n with
  | zero => simp [be, unsigned]
  | succ n ih =>
      have hpos : (0 : ℤ) < 256 ^ n := by positivity
      rw [be, unsigned_cons, length_be]
      push_cast
      rw [val_byte, ih, pow_succ]
      -- the quotient and the remainder of the quotient
      have hdiv := Int.emod_add_mul_ediv v (256 ^ n)
      have hquot := Int.emod_add_mul_ediv (v / 256 ^ n) 256
      have hlow := Int.emod_nonneg v hpos.ne'
      have hlow' := Int.emod_lt_of_pos v hpos
      have hmid := Int.emod_nonneg (v / 256 ^ n) (by decide : (256 : ℤ) ≠ 0)
      have hmid' := Int.emod_lt_of_pos (v / 256 ^ n) (by decide : (0 : ℤ) < 256)
      have hsum : v = (v / 256 ^ n % 256 * 256 ^ n + v % 256 ^ n) +
          256 ^ n * 256 * (v / 256 ^ n / 256) := by
        linear_combination (-1 : ℤ) * hdiv - 256 ^ n * hquot
      have hsmall : v / 256 ^ n % 256 * 256 ^ n + v % 256 ^ n < 256 ^ n * 256 := by nlinarith
      conv_rhs => rw [hsum]
      rw [Int.add_mul_emod_self_left, Int.emod_eq_of_lt (by positivity) hsmall]

/-- **A number that fits is read back.** -/
theorem signed_be (hn : 0 < n) (hv : Fits n v) : signed (be n v) = v := by
  obtain ⟨m, rfl⟩ : ∃ m, n = m + 1 := ⟨n - 1, by omega⟩
  obtain ⟨hlow, hhigh⟩ := hv
  have hpos : (0 : ℤ) < 256 ^ m := by positivity
  have hpow : (256 : ℤ) ^ (m + 1) = 256 ^ m * 256 := pow_succ _ _
  have hdiv := Int.emod_add_mul_ediv v (256 ^ m)
  have hrem := Int.emod_nonneg v hpos.ne'
  have hrem' := Int.emod_lt_of_pos v hpos
  have htop : -128 ≤ v / 256 ^ m ∧ v / 256 ^ m < 128 := by
    constructor
    · by_contra h
      nlinarith
    · by_contra h
      nlinarith
  have hbyte : (if 128 ≤ (byte (v / 256 ^ m)).val then ((byte (v / 256 ^ m)).val : ℤ) - 256
      else (byte (v / 256 ^ m)).val) = v / 256 ^ m := by
    have hval := val_byte (v / 256 ^ m)
    split <;> omega
  rw [be, signed_cons, hbyte, length_be, unsigned_be]
  linear_combination hdiv

/-! ### As few bytes as possible -/

/-- Leading bytes that repeat the sign are dropped. -/
def trim (negative : Bool) : List (Fin 256) → List (Fin 256)
  | b :: c :: bs =>
      if b.val = (if negative then 255 else 0) ∧ decide (128 ≤ c.val) = negative then trim negative (c :: bs)
      else b :: c :: bs
  | bs => bs

/-- **The number stays.** -/
theorem signed_trim (negative : Bool) (bs : List (Fin 256)) : signed (trim negative bs) = signed bs := by
  fun_induction trim negative bs with
  | case1 b c bs h ih =>
      rw [ih, signed_cons b, List.length_cons]
      show (if 128 ≤ c.val then (unsigned (c :: bs) : ℤ) - 256 ^ (bs.length + 1) else unsigned (c :: bs)) = _
      obtain ⟨hb, hsign⟩ := h
      cases negative with
      | true =>
          rw [if_pos (of_decide_eq_true hsign), hb]
          simp only [if_true]
          push_cast
          norm_num
          ring
      | false =>
          rw [if_neg (of_decide_eq_false hsign), hb]
          simp
  | case2 b c bs h => rfl
  | case3 bs h => rfl

theorem length_trim_le_length (negative : Bool) (bs : List (Fin 256)) :
    (trim negative bs).length ≤ bs.length := by
  fun_induction trim negative bs with
  | case1 b c bs h ih =>
      rw [List.length_cons]
      omega
  | case2 b c bs h => exact le_rfl
  | case3 bs h => exact le_rfl

/-- The first byte of a word that has more bytes than its number needs repeats the sign. -/
theorem first_of_fits (hk : k ≤ bs.length + 1) (h : Fits k (signed (b :: c :: bs))) :
    b.val = (if decide (signed (b :: c :: bs) < 0) then 255 else 0) ∧
      decide (128 ≤ c.val) = decide (signed (b :: c :: bs) < 0) := by
  obtain ⟨hlow, hhigh⟩ := h
  have hb := b.isLt
  have hc := c.isLt
  have hrest := unsigned_lt bs
  have hpow : (256 : ℤ) ^ k ≤ 256 ^ bs.length * 256 := by
    rw [← pow_succ]
    exact pow_le_pow_right₀ (by decide) hk
  have hsigned := signed_cons b (c :: bs)
  rw [unsigned_cons, List.length_cons, pow_succ] at hsigned
  push_cast at hsigned
  have hpos : (0 : ℤ) < 256 ^ bs.length := by positivity
  have hrest' : (unsigned bs : ℤ) < 256 ^ bs.length := by exact_mod_cast hrest
  have hu : (0 : ℤ) ≤ unsigned bs := Int.natCast_nonneg _
  generalize signed (b :: c :: bs) = s at *
  generalize (256 : ℤ) ^ bs.length = p at *
  generalize (unsigned bs : ℤ) = u at *
  by_cases hneg : s < 0
  · rw [decide_eq_true hneg, if_pos rfl]
    split at hsigned
    · have hval : b.val = 255 := by
        by_contra hne
        have : (b.val : ℤ) - 256 ≤ -2 := by omega
        nlinarith
      rw [hval] at hsigned
      refine ⟨hval, decide_eq_true ?_⟩
      by_contra hlt
      have : (c.val : ℤ) ≤ 127 := by omega
      push_cast at hsigned
      nlinarith
    · nlinarith
  · rw [decide_eq_false hneg, if_neg Bool.false_ne_true]
    split at hsigned
    · have : (b.val : ℤ) - 256 ≤ -1 := by omega
      nlinarith
    · have hval : b.val = 0 := by
        by_contra hne
        have : (1 : ℤ) ≤ b.val := by omega
        nlinarith
      rw [hval] at hsigned
      refine ⟨hval, decide_eq_false ?_⟩
      intro hle
      have : (128 : ℤ) ≤ c.val := by omega
      push_cast at hsigned
      nlinarith

/-- **What is left of a number that fits into `k` bytes are at most `k` bytes.** -/
theorem length_trim_le (hk : 0 < k) (h : Fits k (signed bs)) :
    (trim (decide (signed bs < 0)) bs).length ≤ k := by
  generalize hnegative : decide (signed bs < 0) = negative
  fun_induction trim negative bs with
  | case1 b c bs hdrop ih =>
      have hsame : signed (c :: bs) = signed (b :: c :: bs) := by
        have htrim := signed_trim negative (b :: c :: bs)
        rw [trim, if_pos hdrop, signed_trim] at htrim
        exact htrim
      exact ih (hsame ▸ h) (hsame ▸ hnegative)
  | case2 b c bs hkeep =>
      by_contra hlong
      have hfirst := first_of_fits (k := k) (by rw [List.length_cons, List.length_cons] at hlong; omega) h
      rw [hnegative] at hfirst
      exact hkeep hfirst
  | case3 bs hshort =>
      cases bs with
      | nil => exact Nat.zero_le k
      | cons b bs =>
          cases bs with
          | nil => exact hk
          | cons c bs => exact absurd rfl (hshort b c bs)

end IcebergDb.TwosComplement
