import IcebergDb.Foundation.Utf8
import Mathlib.Data.List.Basic

/-!
# Percent-encoding

A text is a list of characters; what it stands for is a sequence of bytes.

* `percentEncode` — the characters of a set are replaced by the triplets `%XX` of their UTF-8 bytes;
* `percentDecode` — every `%` that two hexadecimal digits follow is replaced, with them, by a byte;
* `percentDecode_percentEncode` — what is encoded is not seen by decoding, as long as the set leaves triplets
  alone;
* `percentDecode_eq_bytes_iff` — **a text stands for its own bytes exactly when it has no triplet**, and
  otherwise for fewer bytes (`length_percentDecode_eq_iff`);
* `percentDecode_append_cons` — a text may be decoded piece by piece.
-/

namespace IcebergDb.Percent

open Utf8

/-! ### Hexadecimal digits -/

/-- The value of a hexadecimal digit. -/
def hexValue (c : Char) : Option ℕ :=
  if '0' ≤ c ∧ c ≤ '9' then some (c.toNat - 48)
  else if 'a' ≤ c ∧ c ≤ 'f' then some (c.toNat - 87)
  else if 'A' ≤ c ∧ c ≤ 'F' then some (c.toNat - 55)
  else none

/-- The digit is hexadecimal. -/
def isHex (c : Char) : Bool := (hexValue c).isSome

/-- The upper-case digit of a value below 16. -/
def hexDigit (n : ℕ) : Char := if n < 10 then Char.ofNat (48 + n) else Char.ofNat (55 + n)

theorem hexValue_hexDigit {n : ℕ} (h : n < 16) : hexValue (hexDigit n) = some n := by
  have hall : ∀ n : Fin 16, hexValue (hexDigit n) = some n.val := by decide
  exact hall ⟨n, h⟩

theorem isHex_hexDigit {n : ℕ} (h : n < 16) : isHex (hexDigit n) = true := by
  rw [isHex, hexValue_hexDigit h]
  rfl

/-! ### Triplets -/

/-- The text begins with `%` and two hexadecimal digits. -/
def startsTriplet : List Char → Bool
  | '%' :: a :: b :: _ => isHex a && isHex b
  | _ => false

/-- There is no `%` that two hexadecimal digits follow. -/
def NoTriplet (cs : List Char) : Prop := ∀ t ∈ cs.tails, startsTriplet t = false

instance (cs : List Char) : Decidable (NoTriplet cs) := inferInstanceAs (Decidable (∀ t ∈ cs.tails, _))

variable {c : Char} {cs ds : List Char} {set : Char → Bool}

/-- The shape of a text that begins with a triplet. -/
theorem startsTriplet_iff : startsTriplet cs = true ↔
    ∃ a b ds, cs = '%' :: a :: b :: ds ∧ isHex a = true ∧ isHex b = true := by
  constructor
  · intro h
    unfold startsTriplet at h
    split at h
    · rename_i a b ds
      rw [Bool.and_eq_true] at h
      exact ⟨a, b, ds, rfl, h.1, h.2⟩
    · cases h
  · rintro ⟨a, b, ds, rfl, ha, hb⟩
    show (isHex a && isHex b) = true
    rw [ha, hb]
    rfl

@[simp] theorem noTriplet_nil : NoTriplet [] := by decide

@[simp] theorem noTriplet_cons :
    NoTriplet (c :: cs) ↔ startsTriplet (c :: cs) = false ∧ NoTriplet cs := by
  unfold NoTriplet
  rw [List.tails, List.forall_mem_cons]

/-- A text without `%` has no triplet. -/
theorem noTriplet_of_notMem (h : '%' ∉ cs) : NoTriplet cs := by
  induction cs with
  | nil => exact noTriplet_nil
  | cons c cs ih =>
      rw [List.mem_cons, not_or] at h
      rw [noTriplet_cons]
      refine ⟨?_, ih h.2⟩
      rw [Bool.eq_false_iff, Ne, startsTriplet_iff]
      rintro ⟨a, b, ds, heq, -, -⟩
      exact h.1 (List.cons.inj heq).1.symm

/-- Texts are built from triplets and from characters that begin none. -/
theorem tripletInduction {motive : List Char → Prop} (nil : motive [])
    (triplet : ∀ a b cs, isHex a = true → isHex b = true → motive cs → motive ('%' :: a :: b :: cs))
    (plain : ∀ c cs, startsTriplet (c :: cs) = false → motive cs → motive (c :: cs))
    (cs : List Char) : motive cs := by
  generalize hn : cs.length = n
  induction n using Nat.strong_induction_on generalizing cs with
  | _ n ih =>
      cases cs with
      | nil => exact nil
      | cons c cs =>
          cases hstart : startsTriplet (c :: cs) with
          | true =>
              obtain ⟨a, b, ds, heq, ha, hb⟩ := startsTriplet_iff.mp hstart
              rw [heq] at hn ⊢
              refine triplet a b ds ha hb (ih ds.length ?_ ds rfl)
              rw [← hn, List.length_cons, List.length_cons, List.length_cons]
              omega
          | false =>
              refine plain c cs hstart (ih cs.length ?_ cs rfl)
              rw [← hn, List.length_cons]
              omega

/-! ### Decoding -/

/-- The bytes that a text stands for. -/
def percentDecode : List Char → List UInt8
  | [] => []
  | '%' :: a :: b :: cs =>
      match hexValue a, hexValue b with
      | some x, some y => UInt8.ofNat (16 * x + y) :: percentDecode cs
      | _, _ => String.utf8EncodeChar '%' ++ percentDecode (a :: b :: cs)
  | c :: cs => String.utf8EncodeChar c ++ percentDecode cs

@[simp] theorem percentDecode_nil : percentDecode [] = [] := rfl

/-- A triplet is one byte. -/
theorem percentDecode_triplet {a b : Char} {x y : ℕ} (ha : hexValue a = some x) (hb : hexValue b = some y) :
    percentDecode ('%' :: a :: b :: cs) = UInt8.ofNat (16 * x + y) :: percentDecode cs := by
  rw [percentDecode, ha, hb]

/-- Any other character is its own bytes. -/
theorem percentDecode_plain (h : startsTriplet (c :: cs) = false) :
    percentDecode (c :: cs) = String.utf8EncodeChar c ++ percentDecode cs := by
  rw [percentDecode.eq_def]
  split
  · contradiction
  · rename_i a b ds heq
    obtain ⟨rfl, rfl⟩ := List.cons.inj heq
    have hhex : (isHex a && isHex b) = false := h
    rw [isHex, isHex] at hhex
    cases ha : hexValue a with
    | none => rfl
    | some x =>
        cases hb : hexValue b with
        | none => rfl
        | some y =>
            rw [ha, hb] at hhex
            cases hhex
  · rename_i heq
    obtain ⟨rfl, rfl⟩ := List.cons.inj heq
    rfl

theorem percentDecode_cons_of_ne (h : c ≠ '%') :
    percentDecode (c :: cs) = String.utf8EncodeChar c ++ percentDecode cs := by
  refine percentDecode_plain ?_
  rw [Bool.eq_false_iff, Ne, startsTriplet_iff]
  rintro ⟨a, b, ds, heq, -, -⟩
  exact h (List.cons.inj heq).1

/-- The byte of a triplet. -/
theorem percentDecode_isHex {a b : Char} (ha : isHex a = true) (hb : isHex b = true) (cs : List Char) :
    ∃ byte, ∀ ds, percentDecode ('%' :: a :: b :: (cs ++ ds)) = byte :: percentDecode (cs ++ ds) := by
  obtain ⟨x, hx⟩ := Option.isSome_iff_exists.mp ha
  obtain ⟨y, hy⟩ := Option.isSome_iff_exists.mp hb
  exact ⟨UInt8.ofNat (16 * x + y), fun ds => percentDecode_triplet hx hy⟩

/-- A text without triplets stands for its own bytes. -/
theorem percentDecode_of_noTriplet (h : NoTriplet cs) : percentDecode cs = bytes cs := by
  induction cs with
  | nil => rfl
  | cons c cs ih =>
      rw [noTriplet_cons] at h
      rw [percentDecode_plain h.1, ih h.2, bytes_cons]

/-- Decoding makes no bytes, and the number stays only where there is nothing to decode. -/
theorem length_percentDecode (cs : List Char) :
    (percentDecode cs).length ≤ (bytes cs).length ∧
      ((percentDecode cs).length = (bytes cs).length → NoTriplet cs) := by
  induction cs using tripletInduction with
  | nil => exact ⟨le_rfl, fun _ => noTriplet_nil⟩
  | triplet a b cs ha hb ih =>
      obtain ⟨byte, hdecode⟩ := percentDecode_isHex ha hb cs
      have hcs := hdecode []
      rw [List.append_nil] at hcs
      have hlt : (percentDecode ('%' :: a :: b :: cs)).length < (bytes ('%' :: a :: b :: cs)).length := by
        have ha' := a.utf8Size_pos
        have hb' := b.utf8Size_pos
        have hpercent := ('%').utf8Size_pos
        rw [hcs, List.length_cons, length_bytes_cons, length_bytes_cons, length_bytes_cons]
        omega
      exact ⟨hlt.le, fun heq => absurd heq hlt.ne⟩
  | plain c cs hstart ih =>
      rw [percentDecode_plain hstart, bytes_cons, List.length_append, List.length_append, noTriplet_cons]
      exact ⟨Nat.add_le_add_left ih.1 _, fun heq => ⟨hstart, ih.2 (Nat.add_left_cancel heq)⟩⟩

theorem length_percentDecode_le (cs : List Char) : (percentDecode cs).length ≤ (bytes cs).length :=
  (length_percentDecode cs).1

theorem length_percentDecode_eq_iff :
    (percentDecode cs).length = (bytes cs).length ↔ NoTriplet cs :=
  ⟨(length_percentDecode cs).2, fun h => by rw [percentDecode_of_noTriplet h]⟩

/-- **A text stands for its own bytes exactly when it has no triplet.** -/
theorem percentDecode_eq_bytes_iff : percentDecode cs = bytes cs ↔ NoTriplet cs :=
  ⟨fun h => length_percentDecode_eq_iff.mp (congrArg List.length h), percentDecode_of_noTriplet⟩

/-! ### Piece by piece -/

/-- No triplet goes over a character that is no digit. -/
theorem startsTriplet_append_cons (hc : isHex c = false) (d : Char) (h : startsTriplet (d :: cs) = false) :
    startsTriplet (d :: (cs ++ c :: ds)) = false := by
  rw [Bool.eq_false_iff, Ne, startsTriplet_iff] at h ⊢
  rintro ⟨a, b, es, heq, ha, hb⟩
  obtain ⟨rfl, hrest⟩ := List.cons.inj heq
  match cs with
  | [] =>
      obtain ⟨rfl, -⟩ := List.cons.inj hrest
      rw [hc] at ha
      cases ha
  | [_] =>
      obtain ⟨-, hlast⟩ := List.cons.inj hrest
      obtain ⟨rfl, -⟩ := List.cons.inj hlast
      rw [hc] at hb
      cases hb
  | a' :: b' :: cs =>
      obtain ⟨rfl, hlast⟩ := List.cons.inj hrest
      obtain ⟨rfl, -⟩ := List.cons.inj hlast
      exact h ⟨a', b', cs, rfl, ha, hb⟩

/-- What stands before a character that is no digit is decoded on its own. -/
theorem percentDecode_append_cons (hc : isHex c = false) (cs ds : List Char) :
    percentDecode (cs ++ c :: ds) = percentDecode cs ++ percentDecode (c :: ds) := by
  induction cs using tripletInduction with
  | nil => rfl
  | triplet a b cs ha hb ih =>
      obtain ⟨byte, hdecode⟩ := percentDecode_isHex ha hb cs
      have hcs := hdecode []
      rw [List.append_nil] at hcs
      show percentDecode ('%' :: a :: b :: (cs ++ c :: ds)) = _
      rw [hdecode, hcs, ih]
      rfl
  | plain d cs hstart ih =>
      rw [List.cons_append, percentDecode_plain (startsTriplet_append_cons hc d hstart),
        percentDecode_plain hstart, ih, List.append_assoc]

/-! ### Percent signs -/

/-- The digits of the percent sign. -/
theorem hexValue_percent {a b : Char} {x y : ℕ} (ha : hexValue a = some x) (hb : hexValue b = some y)
    (h : UInt8.ofNat (16 * x + y) = 0x25) : a = '2' := by
  have hdigit : ∀ {c : Char} {n : ℕ}, hexValue c = some n → n < 16 ∧ (n = 2 → c = '2') := by
    intro c n hc
    unfold hexValue at hc
    split at hc
    · rename_i hrange
      have hlow : 48 ≤ c.toNat := UInt32.le_iff_toNat_le.mp hrange.1
      have hhigh : c.toNat ≤ 57 := UInt32.le_iff_toNat_le.mp hrange.2
      obtain rfl := Option.some.inj hc
      refine ⟨by omega, fun htwo => Char.toNat_inj.mp ?_⟩
      show c.toNat = 50
      omega
    · split at hc
      · rename_i hrange
        have hlow : 97 ≤ c.toNat := UInt32.le_iff_toNat_le.mp hrange.1
        have hhigh : c.toNat ≤ 102 := UInt32.le_iff_toNat_le.mp hrange.2
        obtain rfl := Option.some.inj hc
        omega
      · split at hc
        · rename_i hrange
          have hlow : 65 ≤ c.toNat := UInt32.le_iff_toNat_le.mp hrange.1
          have hhigh : c.toNat ≤ 70 := UInt32.le_iff_toNat_le.mp hrange.2
          obtain rfl := Option.some.inj hc
          omega
        · cases hc
  obtain ⟨hx, hxTwo⟩ := hdigit ha
  have hy := (hdigit hb).1
  have hnat := congrArg UInt8.toNat h
  rw [UInt8.toNat_ofNat', Nat.mod_eq_of_lt (by omega)] at hnat
  have hvalue : 16 * x + y = 37 := hnat
  exact hxTwo (by omega)

/-- **Decoding makes no percent signs; if it keeps their number, it makes no `2`; and if it keeps the number of
these, too, there was nothing to decode.** -/
theorem count_percentDecode (cs : List Char) : (percentDecode cs).count 0x25 ≤ cs.count '%' ∧
    ((percentDecode cs).count 0x25 = cs.count '%' → (percentDecode cs).count 0x32 ≤ cs.count '2' ∧
      ((percentDecode cs).count 0x32 = cs.count '2' → NoTriplet cs)) := by
  induction cs using tripletInduction with
  | nil => exact ⟨le_rfl, fun _ => ⟨le_rfl, fun _ => noTriplet_nil⟩⟩
  | triplet a b cs ha hb ih =>
      obtain ⟨x, hx⟩ := Option.isSome_iff_exists.mp ha
      obtain ⟨y, hy⟩ := Option.isSome_iff_exists.mp hb
      have hne : ∀ {c : Char}, isHex c = true → c ≠ '%' := by
        rintro c hc rfl
        exact absurd hc (by decide)
      have hsigns : ('%' :: a :: b :: cs).count '%' = cs.count '%' + 1 := by
        rw [List.count_cons_self, List.count_cons_of_ne (hne ha), List.count_cons_of_ne (hne hb)]
      obtain ⟨hle, hrest⟩ := ih
      rw [percentDecode_triplet hx hy, hsigns]
      by_cases hpercent : UInt8.ofNat (16 * x + y) = 0x25
      · obtain rfl := hexValue_percent hx hy hpercent
        have htwos : cs.count '2' + 1 ≤ ('%' :: '2' :: b :: cs).count '2' := by
          rw [List.count_cons_of_ne (by decide), List.count_cons_self]
          exact Nat.add_le_add_right List.count_le_count_cons 1
        rw [hpercent, List.count_cons_self, List.count_cons_of_ne (by decide)]
        refine ⟨by omega, fun heq => ?_⟩
        obtain ⟨hle2, -⟩ := hrest (by omega)
        exact ⟨by omega, fun heq2 => by omega⟩
      · rw [List.count_cons_of_ne hpercent]
        exact ⟨by omega, fun heq => by omega⟩
  | plain c cs hstart ih =>
      have hcount : ∀ d : Char, d.toNat < 128 → (percentDecode (c :: cs)).count (UInt8.ofNat d.toNat) =
          (percentDecode cs).count (UInt8.ofNat d.toNat) + if c = d then 1 else 0 := by
        intro d hd
        rw [percentDecode_plain hstart, List.count_append, count_utf8EncodeChar hd, Nat.add_comm]
      have hchars : ∀ d : Char, (c :: cs).count d = cs.count d + if c = d then 1 else 0 := by
        intro d
        rw [List.count_cons]
        simp only [beq_iff_eq]
      have hpercent := hcount '%' (by decide)
      have htwo := hcount '2' (by decide)
      have hpercentByte : UInt8.ofNat ('%').toNat = 0x25 := by decide
      have htwoByte : UInt8.ofNat ('2').toNat = 0x32 := by decide
      rw [hpercentByte] at hpercent
      rw [htwoByte] at htwo
      obtain ⟨hle, hrest⟩ := ih
      rw [hpercent, htwo, hchars, hchars, noTriplet_cons]
      refine ⟨by omega, fun heq => ?_⟩
      obtain ⟨hle2, hrest2⟩ := hrest (by omega)
      exact ⟨by omega, fun heq2 => ⟨hstart, hrest2 (by omega)⟩⟩

/-! ### Encoding -/

/-- The triplet of a byte. -/
def encodeByte (b : UInt8) : List Char := ['%', hexDigit (b.toNat / 16), hexDigit (b.toNat % 16)]

/-- A character of the set as triplets, any other as it is. -/
def encodeChar (set : Char → Bool) (c : Char) : List Char :=
  if set c then (String.utf8EncodeChar c).flatMap encodeByte else [c]

/-- The text with the characters of the set as triplets. -/
def percentEncode (set : Char → Bool) (cs : List Char) : List Char := cs.flatMap (encodeChar set)

/-- The set has no character that a triplet is made of. -/
def LeavesTriplets (set : Char → Bool) : Prop := ∀ c, set c = true → c ≠ '%' ∧ isHex c = false

theorem percentEncode_cons (set : Char → Bool) (c : Char) (cs : List Char) :
    percentEncode set (c :: cs) = encodeChar set c ++ percentEncode set cs := rfl

theorem percentEncode_append (set : Char → Bool) (cs ds : List Char) :
    percentEncode set (cs ++ ds) = percentEncode set cs ++ percentEncode set ds := List.flatMap_append

theorem percentEncode_cons_of_false (h : set c = false) (cs : List Char) :
    percentEncode set (c :: cs) = c :: percentEncode set cs := by
  rw [percentEncode_cons, encodeChar, h]
  rfl

/-- A text without characters of the set is left as it is. -/
theorem percentEncode_eq_self (h : ∀ c ∈ cs, set c = false) : percentEncode set cs = cs := by
  induction cs with
  | nil => rfl
  | cons c cs ih =>
      rw [percentEncode_cons_of_false (h c List.mem_cons_self), ih fun d hd => h d (List.mem_cons_of_mem c hd)]

/-- What an encoded text is made of. -/
theorem mem_percentEncode (h : c ∈ percentEncode set cs) :
    (c ∈ cs ∧ set c = false) ∨ c = '%' ∨ isHex c = true := by
  obtain ⟨d, hd, hc⟩ := List.mem_flatMap.mp h
  unfold encodeChar at hc
  cases hset : set d with
  | false =>
      rw [hset] at hc
      obtain rfl := List.mem_singleton.mp hc
      exact .inl ⟨hd, hset⟩
  | true =>
      rw [hset] at hc
      obtain ⟨b, -, hb⟩ := List.mem_flatMap.mp hc
      have hbyte : b.toNat < 256 := b.toNat_lt
      rcases List.mem_cons.mp hb with rfl | hb
      · exact .inr (.inl rfl)
      rcases List.mem_cons.mp hb with rfl | hb
      · exact .inr (.inr (isHex_hexDigit (by omega)))
      · obtain rfl := List.mem_singleton.mp hb
        exact .inr (.inr (isHex_hexDigit (by omega)))

/-- No character of the set is left. -/
theorem set_of_mem_percentEncode (hset : LeavesTriplets set) (h : c ∈ percentEncode set cs) : set c = false := by
  rw [Bool.eq_false_iff]
  intro hc
  obtain ⟨hpercent, hhex⟩ := hset c hc
  rcases mem_percentEncode h with ⟨-, hfalse⟩ | rfl | htrue
  · rw [hc] at hfalse
    cases hfalse
  · exact hpercent rfl
  · rw [hhex] at htrue
    cases htrue

/-- The triplets of bytes are these bytes. -/
theorem percentDecode_encodeBytes (bs : List UInt8) (cs : List Char) :
    percentDecode (bs.flatMap encodeByte ++ cs) = bs ++ percentDecode cs := by
  induction bs with
  | nil => rfl
  | cons b bs ih =>
      have hbyte : b.toNat < 256 := b.toNat_lt
      have hvalue : 16 * (b.toNat / 16) + b.toNat % 16 = b.toNat := by omega
      show percentDecode ('%' :: hexDigit (b.toNat / 16) :: hexDigit (b.toNat % 16) ::
        (bs.flatMap encodeByte ++ cs)) = b :: (bs ++ percentDecode cs)
      rw [percentDecode_triplet (hexValue_hexDigit (by omega)) (hexValue_hexDigit (by omega)), ih, hvalue,
        UInt8.ofNat_toNat]

/-- Only a percent sign can be new at the head of an encoded text. -/
theorem percentEncode_eq_cons {d : Char} (h : percentEncode set cs = d :: ds) (hd : d ≠ '%') :
    ∃ cs', cs = d :: cs' ∧ ds = percentEncode set cs' := by
  cases cs with
  | nil => cases h
  | cons c cs =>
      cases hset : set c with
      | false =>
          rw [percentEncode_cons_of_false hset] at h
          obtain ⟨rfl, rfl⟩ := List.cons.inj h
          exact ⟨cs, rfl, rfl⟩
      | true =>
          -- the triplets of a character begin with `%`
          obtain ⟨b, bs, hb⟩ := List.exists_cons_of_ne_nil (@String.utf8EncodeChar_ne_nil c)
          rw [percentEncode_cons, encodeChar, hset, if_pos rfl, hb] at h
          exact absurd (List.cons.inj h).1.symm hd

/-- Encoding makes no triplet together with what stands before. -/
theorem startsTriplet_percentEncode (h : startsTriplet (c :: cs) = false) :
    startsTriplet (c :: percentEncode set cs) = false := by
  rw [Bool.eq_false_iff, Ne, startsTriplet_iff] at h ⊢
  rintro ⟨a, b, es, heq, ha, hb⟩
  obtain ⟨rfl, hrest⟩ := List.cons.inj heq
  have hdigit : ∀ d : Char, isHex d = true → d ≠ '%' := by
    rintro d hd rfl
    exact absurd hd (by decide)
  obtain ⟨cs', rfl, hcs'⟩ := percentEncode_eq_cons hrest (hdigit a ha)
  obtain ⟨cs'', rfl, -⟩ := percentEncode_eq_cons hcs'.symm (hdigit b hb)
  exact h ⟨a, b, cs'', rfl, ha, hb⟩

/-- **Where percent signs are encoded too**, decoding gives the bytes of the text. -/
theorem percentDecode_percentEncode_of_percent (hpercent : set '%' = true) (cs : List Char) :
    percentDecode (percentEncode set cs) = bytes cs := by
  induction cs with
  | nil => rfl
  | cons c cs ih =>
      rw [bytes_cons, ← ih]
      cases hc : set c with
      | true => rw [percentEncode_cons, encodeChar, hc, if_pos rfl, percentDecode_encodeBytes]
      | false =>
          rw [percentEncode_cons_of_false hc]
          refine percentDecode_cons_of_ne ?_
          rintro rfl
          rw [hpercent] at hc
          cases hc

/-- **What is encoded is not seen by decoding.** -/
theorem percentDecode_percentEncode (hset : LeavesTriplets set) (cs : List Char) :
    percentDecode (percentEncode set cs) = percentDecode cs := by
  have hfalse : ∀ d, d = '%' ∨ isHex d = true → set d = false := by
    intro d hd
    rw [Bool.eq_false_iff]
    intro htrue
    obtain ⟨hpercent, hhex⟩ := hset d htrue
    rcases hd with rfl | hd
    · exact hpercent rfl
    · rw [hhex] at hd
      cases hd
  induction cs using tripletInduction with
  | nil => rfl
  | triplet a b cs ha hb ih =>
      obtain ⟨x, hx⟩ := Option.isSome_iff_exists.mp ha
      obtain ⟨y, hy⟩ := Option.isSome_iff_exists.mp hb
      rw [percentEncode_cons_of_false (hfalse '%' (.inl rfl)), percentEncode_cons_of_false (hfalse a (.inr ha)),
        percentEncode_cons_of_false (hfalse b (.inr hb)), percentDecode_triplet hx hy,
        percentDecode_triplet hx hy, ih]
  | plain c cs hstart ih =>
      cases hc : set c with
      | false =>
          rw [percentEncode_cons_of_false hc, percentDecode_plain (startsTriplet_percentEncode hstart),
            percentDecode_plain hstart, ih]
      | true =>
          rw [percentEncode_cons, encodeChar, hc, if_pos rfl, percentDecode_encodeBytes,
            percentDecode_plain hstart, ih]

/-- A space goes over the wire as `%20`; a percent sign stays, and is decoded with what follows. -/
example : percentEncode (· = ' ') ['a', ' ', '%', '4', '1'] = ['a', '%', '2', '0', '%', '4', '1'] ∧
    percentDecode ['a', '%', '2', '0', '%', '4', '1'] = bytes ['a', ' ', 'A'] := by decide

end IcebergDb.Percent
