import IcebergDb.Foundation.PrefixOrder
import IcebergDb.Foundation.Utf8
import Mathlib.Data.Char
import Mathlib.Order.Fin.Basic

/-!
# The order of UTF-8

Texts in the order of their code points are in the order of their bytes, so bounds of texts may be compared as
bytes.

* `octets` — the bytes of a text, as numbers;
* `octets_cons_lt` — the bytes of a smaller character come first, whatever follows them;
* `octets_le_octets` — **the encoding keeps the order**;
* `octets_prefix_octets` — a text begins with another one exactly if its bytes begin with those.
-/

namespace IcebergDb.Utf8

variable {c d : Char} {cs ds : List Char}

/-- The bytes of a text. -/
def octets (cs : List Char) : List (Fin 256) := (bytes cs).map UInt8.toFin

theorem octets_cons (c : Char) (cs : List Char) :
    octets (c :: cs) = (String.utf8EncodeChar c).map UInt8.toFin ++ octets cs := by
  rw [octets, bytes_cons, List.map_append]
  rfl

theorem octets_append (cs ds : List Char) : octets (cs ++ ds) = octets cs ++ octets ds := by
  rw [octets, bytes_append, List.map_append]
  rfl

section

variable {α : Type} [LinearOrder α] {a b e f g h i j : α} {x y : List α}

theorem lt_of_two (hab : a < e ∨ a = e ∧ b < f) : a :: b :: x < e :: f :: y := by
  simp only [List.cons_lt_cons_iff]
  tauto

theorem lt_of_three (hab : a < e ∨ a = e ∧ (b < f ∨ b = f ∧ g < h)) : a :: b :: g :: x < e :: f :: h :: y := by
  simp only [List.cons_lt_cons_iff]
  tauto

theorem lt_of_four (hab : a < e ∨ a = e ∧ (b < f ∨ b = f ∧ (g < h ∨ g = h ∧ i < j))) :
    a :: b :: g :: i :: x < e :: f :: h :: j :: y := by
  simp only [List.cons_lt_cons_iff]
  tauto

end

theorem toFin_injective : Function.Injective UInt8.toFin := fun _ _ h => UInt8.toFin_inj.mp h

/-- **The bytes of a smaller character come first.**  The number of bytes is told by the first one, so they
differ before one of the two ends. -/
theorem octets_cons_lt (hcd : c < d) (x y : List (Fin 256)) :
    (String.utf8EncodeChar c).map UInt8.toFin ++ x < (String.utf8EncodeChar d).map UInt8.toFin ++ y := by
  have hlt : c.val.toNat < d.val.toNat := Char.lt_def.mp hcd
  have hd : d.val.toNat < 0x110000 := by
    rcases d.valid with h | h
    · exact h.trans (by decide)
    · exact h.2
  have hval : ∀ n : ℕ, ((UInt8.ofNat n).toFin : ℕ) = n % 256 := fun n => UInt8.toNat_ofNat'
  have hhead : ∀ {m n : ℕ} (l k : List (Fin 256)), m < n → n < 256 →
      (UInt8.ofNat m).toFin :: l < (UInt8.ofNat n).toFin :: k := by
    intro m n l k hmn hn
    refine List.cons_lt_cons_iff.mpr (.inl ?_)
    rw [Fin.lt_def, hval, hval, Nat.mod_eq_of_lt hn, Nat.mod_eq_of_lt (hmn.trans hn)]
    exact hmn
  unfold String.utf8EncodeChar
  generalize c.val.toNat = v at hlt
  generalize d.val.toNat = w at hlt hd
  simp only
  split
  · split
    · exact hhead _ _ hlt (by omega)
    · split
      · exact hhead _ _ (by omega) (by omega)
      · split
        · exact hhead _ _ (by omega) (by omega)
        · exact hhead _ _ (by omega) (by omega)
  · rw [if_neg (by omega : ¬ w ≤ 0x7f)]
    split
    · split
      · refine lt_of_two ?_
        simp only [Fin.lt_def, Fin.ext_iff, hval]
        omega
      · split
        · exact hhead _ _ (by omega) (by omega)
        · exact hhead _ _ (by omega) (by omega)
    · rw [if_neg (by omega : ¬ w ≤ 0x7ff)]
      split
      · split
        · refine lt_of_three ?_
          simp only [Fin.lt_def, Fin.ext_iff, hval]
          omega
        · exact hhead _ _ (by omega) (by omega)
      · rw [if_neg (by omega : ¬ w ≤ 0xffff)]
        -- four digits in base 64, of which the first is at most four
        have hdigits : ∀ u < 0x110000, u = 262144 * (u / 262144 % 8) + 4096 * (u / 4096 % 64) +
            64 * (u / 64 % 64) + u % 64 ∧ u / 262144 % 8 < 8 ∧ u / 4096 % 64 < 64 ∧ u / 64 % 64 < 64 ∧
              u % 64 < 64 := by
          intro u hu
          omega
        have hv := hdigits v (by omega)
        have hw := hdigits w hd
        refine lt_of_four ?_
        simp only [Fin.lt_def, Fin.ext_iff, hval]
        generalize v / 262144 % 8 = a at hv ⊢
        generalize v / 4096 % 64 = b at hv ⊢
        generalize v / 64 % 64 = e at hv ⊢
        generalize v % 64 = f at hv ⊢
        generalize w / 262144 % 8 = a' at hw ⊢
        generalize w / 4096 % 64 = b' at hw ⊢
        generalize w / 64 % 64 = e' at hw ⊢
        generalize w % 64 = f' at hw ⊢
        have hsmall : ∀ {n : ℕ}, n < 64 → (n + 128) % 256 = n + 128 := fun hn => Nat.mod_eq_of_lt (by omega)
        simp only [Nat.mod_eq_of_lt (by omega : a + 240 < 256), Nat.mod_eq_of_lt (by omega : a' + 240 < 256),
          hsmall hv.2.2.1, hsmall hv.2.2.2.1, hsmall hv.2.2.2.2, hsmall hw.2.2.1, hsmall hw.2.2.2.1,
          hsmall hw.2.2.2.2]
        omega

theorem octets_lt_octets (h : cs < ds) : octets cs < octets ds := by
  induction cs generalizing ds with
  | nil =>
      cases ds with
      | nil => exact absurd h (lt_irrefl _)
      | cons d ds =>
          have hpos := d.utf8Size_pos
          have hlen := length_bytes_cons d ds
          rw [← List.length_map UInt8.toFin] at hlen
          cases hbytes : octets (d :: ds) with
          | nil =>
              rw [show (bytes (d :: ds)).map UInt8.toFin = [] from hbytes, List.length_nil] at hlen
              omega
          | cons b bs => exact List.nil_lt_cons b bs
  | cons c cs ih =>
      cases ds with
      | nil => exact absurd h (List.not_lt_nil _)
      | cons d ds =>
          rw [octets_cons, octets_cons]
          rcases List.cons_lt_cons_iff.mp h with hcd | ⟨rfl, htail⟩
          · exact octets_cons_lt hcd (octets cs) (octets ds)
          · exact List.append_left_lt (ih htail)

/-- **Texts are in the order of their bytes.** -/
theorem octets_le_octets : octets cs ≤ octets ds ↔ cs ≤ ds := by
  constructor
  · intro h
    exact not_lt.mp fun hlt => absurd h (not_le.mpr (octets_lt_octets hlt))
  · intro h
    rcases h.lt_or_eq with hlt | rfl
    · exact (octets_lt_octets hlt).le
    · exact le_rfl

theorem octets_prefix_octets : octets cs <+: octets ds ↔ cs <+: ds := by
  constructor
  · intro h
    obtain ⟨xs, hxs⟩ := (List.prefix_map_iff_of_injective toFin_injective).mp h
    obtain ⟨es, hes, -⟩ := exists_append_of_bytes hxs.symm
    exact ⟨es, hes.symm⟩
  · rintro ⟨es, rfl⟩
    exact ⟨octets es, (octets_append cs es).symm⟩

end IcebergDb.Utf8
