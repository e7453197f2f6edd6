import Mathlib.Data.Nat.Notation
import Mathlib.Data.String.Basic

/-!
# Upper-casing

Unicode upper-casing as far as other characters than letters go: it maps character by character, and leaves ASCII
characters that are no letters where they are.

* `Uppercase` — what is known of `str::to_uppercase`;
* `Uppercase.sameSigns` — **ASCII characters that are no letters stay as many as they are**;
* `Uppercase.intercalate` — joined texts are upper-cased one by one;
* `uppercase_map` — the ASCII function is one.
-/

namespace IcebergDb

/-- Upper-casing maps characters one by one, ASCII characters as in ASCII, and others to no ASCII characters but
capital letters; and capital letters stay. -/
structure Uppercase (f : String → String) : Prop where
  chars : ∃ g : Char → List Char, (∀ s, (f s).toList = s.toList.flatMap g) ∧
    (∀ c, c.toNat < 128 → g c = [c.toUpper]) ∧
    ∀ c, 128 ≤ c.toNat → ∀ d ∈ g c, d.toNat < 128 → d.isUpper = true
  idempotent : ∀ s, f (f s) = f s

/-- The texts have as many of each ASCII character that is no letter. -/
def SameSigns (cs ds : List Char) : Prop := ∀ x : Char, x.toNat < 128 → x.isAlpha = false → cs.count x = ds.count x

theorem SameSigns.mem_iff {cs ds : List Char} (h : SameSigns cs ds) {x : Char} (hascii : x.toNat < 128)
    (hletter : x.isAlpha = false) : x ∈ cs ↔ x ∈ ds := by
  rw [← List.count_pos_iff, ← List.count_pos_iff, h x hascii hletter]

namespace Uppercase

variable {f : String → String} {x : Char}

/-- An ASCII character stays, or becomes a capital letter. -/
theorem toUpper_cases {c : Char} (hc : c.toNat < 128) :
    c.toUpper = c ∨ c.isAlpha = true ∧ c.toUpper.isAlpha = true := by
  have hall : ∀ n < 128, (Char.ofNat n).toUpper = Char.ofNat n ∨
      (Char.ofNat n).isAlpha = true ∧ (Char.ofNat n).toUpper.isAlpha = true := by decide
  have h := hall c.toNat hc
  rwa [Char.ofNat_toNat] at h

/-- **ASCII characters that are no letters stay as many as they are.** -/
theorem sameSigns (hf : Uppercase f) (s : String) : SameSigns (f s).toList s.toList := by
  intro x hascii hletter
  obtain ⟨g, hg, hsmall, hlarge⟩ := hf.chars
  have hchar : ∀ c, (g c).count x = [c].count x := by
    intro c
    by_cases hc : c.toNat < 128
    · rw [hsmall c hc]
      rcases toUpper_cases hc with hsame | ⟨halpha, hupper⟩
      · rw [hsame]
      · have hne : c ≠ x := by
          rintro rfl
          rw [halpha] at hletter
          cases hletter
        have hne' : c.toUpper ≠ x := by
          rintro rfl
          rw [hupper] at hletter
          cases hletter
        rw [List.count_singleton, List.count_singleton, if_neg (by simpa using hne'),
          if_neg (by simpa using hne)]
    · have hne : c ≠ x := by
        rintro rfl
        exact hc hascii
      rw [List.count_singleton, if_neg (by simpa using hne), List.count_eq_zero]
      intro hmem
      have hupper := hlarge c (by omega) x hmem hascii
      have hcase : (x.isUpper || x.isLower) = false := hletter
      rw [hupper] at hcase
      cases hcase
  rw [hg]
  induction s.toList with
  | nil => rfl
  | cons c cs ih => rw [List.flatMap_cons, List.count_append, hchar, ih, ← List.count_append, List.singleton_append]

/-- Texts with the same upper-casing have the same signs. -/
theorem sameSigns_of_eq (hf : Uppercase f) {s t : String} (h : f s = f t) : SameSigns s.toList t.toList := by
  intro x hascii hletter
  rw [← hf.sameSigns s x hascii hletter, h, hf.sameSigns t x hascii hletter]

theorem empty (hf : Uppercase f) : f "" = "" := by
  obtain ⟨g, hg, -, -⟩ := hf.chars
  rw [← String.toList_inj, hg]
  rfl

/-- **Joined texts are upper-cased one by one.** -/
theorem intercalate (hf : Uppercase f) (hascii : x.toNat < 128) (hletter : x.isAlpha = false) (parts : List String) :
    f ((String.singleton x).intercalate parts) = (String.singleton x).intercalate (parts.map f) := by
  obtain ⟨g, hg, hsmall, -⟩ := hf.chars
  have hsep : g x = [x] := by
    rw [hsmall x hascii]
    rcases toUpper_cases hascii with hsame | ⟨halpha, -⟩
    · rw [hsame]
    · rw [halpha] at hletter
      cases hletter
  have hlists : ∀ ls : List (List Char), ([x].intercalate ls).flatMap g = [x].intercalate (ls.map (·.flatMap g)) := by
    intro ls
    induction ls with
    | nil => rfl
    | cons l ls ih =>
        cases ls with
        | nil => simp
        | cons l' ls =>
            have hne : (l' :: ls).map (·.flatMap g) ≠ [] := by simp
            rw [List.intercalate_cons_of_ne_nil (List.cons_ne_nil l' ls), List.map_cons,
              List.intercalate_cons_of_ne_nil hne, List.flatMap_append, List.flatMap_append, ih,
              List.flatMap_singleton, hsep]
  rw [← String.toList_inj, hg, String.toList_intercalate, String.toList_intercalate, String.toList_singleton, hlists,
    List.map_map, List.map_map]
  refine congrArg _ (List.map_congr_left fun s _ => ?_)
  exact (hg s).symm

end Uppercase

/-- Upper-casing in ASCII. -/
theorem uppercase_map : Uppercase fun s => String.ofList (s.toList.map Char.toUpper) := by
  have hlarge : ∀ c : Char, 128 ≤ c.toNat → c.toUpper = c := by
    intro c hc
    refine dif_neg fun h => ?_
    have hle : c.toNat ≤ 122 := UInt32.le_iff_toNat_le.mp h.2
    omega
  have hsmall : ∀ n < 128, (Char.ofNat n).toUpper.toUpper = (Char.ofNat n).toUpper := by decide
  have htwice : ∀ c : Char, c.toUpper.toUpper = c.toUpper := by
    intro c
    by_cases hc : c.toNat < 128
    · have h := hsmall c.toNat hc
      rwa [Char.ofNat_toNat] at h
    · rw [hlarge c (by omega), hlarge c (by omega)]
  constructor
  · refine ⟨fun c => [c.toUpper], fun s => ?_, fun c _ => rfl, fun c hc d hd hascii => ?_⟩
    · rw [String.toList_ofList, List.map_eq_flatMap]
    · obtain rfl := List.mem_singleton.mp hd
      rw [hlarge c hc] at hascii
      omega
  · intro s
    rw [String.toList_ofList, List.map_map]
    exact congrArg String.ofList (List.map_congr_left fun c _ => htwice c)

end IcebergDb
