import Mathlib.Data.Nat.Notation
import Mathlib.Data.String.Basic

/-!
# Slices of text by byte offset

A Rust `str` is UTF-8: lengths and slice bounds count bytes, and a slice whose bound falls inside a
character panics.  Text is a list of characters here; a slice is `none` where the source panics.

* `bytes` — the encoding of a text; `sliceTo`, `sliceFrom` — `&s[..n]` and `&s[n..]`;
* `sliceTo_eq_some_iff`, `sliceFrom_eq_some_iff` — the text is cut at a character boundary;
* `isSome_sliceTo_iff`, `isSome_sliceFrom_iff` — a slice panics unless its bound is such a boundary;
* `isBoundary_iff_cutFits` — such a boundary is where a byte begins a character, or nothing is left;
* `exists_append_of_lowerByte` — a prefix that agrees up to ASCII case ends at a boundary;
* `sliceTo_congr`, `sliceFrom_congr` — a slice, and whether it panics, depends on its own bytes only.
-/

namespace IcebergDb.Utf8

/-- The UTF-8 encoding. -/
def bytes (cs : List Char) : List UInt8 := cs.flatMap String.utf8EncodeChar

/-- `&s[..n]`. -/
def sliceTo : ℕ → List Char → Option (List Char)
  | 0, _ => some []
  | _ + 1, [] => none
  | n + 1, c :: cs =>
      if c.utf8Size ≤ n + 1 then (sliceTo (n + 1 - c.utf8Size) cs).map (c :: ·) else none

/-- `&s[n..]`. -/
def sliceFrom : ℕ → List Char → Option (List Char)
  | 0, cs => some cs
  | _ + 1, [] => none
  | n + 1, c :: cs => if c.utf8Size ≤ n + 1 then sliceFrom (n + 1 - c.utf8Size) cs else none

variable {n : ℕ} {c d : Char} {cs ds es : List Char}

@[simp] theorem bytes_nil : bytes [] = [] := rfl

theorem bytes_cons (c : Char) (cs : List Char) : bytes (c :: cs) = String.utf8EncodeChar c ++ bytes cs :=
  rfl

theorem bytes_append (cs ds : List Char) : bytes (cs ++ ds) = bytes cs ++ bytes ds :=
  List.flatMap_append

theorem length_bytes_cons (c : Char) (cs : List Char) :
    (bytes (c :: cs)).length = c.utf8Size + (bytes cs).length := by
  rw [bytes_cons, List.length_append, String.length_utf8EncodeChar]

theorem length_le_length_bytes (cs : List Char) : cs.length ≤ (bytes cs).length := by
  induction cs with
  | nil => exact le_rfl
  | cons c cs ih =>
      have hpos := c.utf8Size_pos
      rw [length_bytes_cons, List.length_cons]
      omega

/-- What is left of a text has fewer bytes, unless nothing is missing. -/
theorem length_bytes_sublist (h : cs.Sublist ds) :
    (bytes cs).length ≤ (bytes ds).length ∧ ((bytes cs).length = (bytes ds).length → cs = ds) := by
  induction h with
  | slnil => exact ⟨le_rfl, fun _ => rfl⟩
  | cons d _ ih =>
      have hpos := d.utf8Size_pos
      rw [length_bytes_cons]
      exact ⟨by omega, fun heq => by omega⟩
  | cons_cons d _ ih =>
      rw [length_bytes_cons, length_bytes_cons]
      exact ⟨by omega, fun heq => congrArg (d :: ·) (ih.2 (by omega))⟩

/-- The bytes of a character that is not ASCII are not ASCII. -/
theorem le_of_mem_utf8EncodeChar (hc : 128 ≤ c.toNat) {b : UInt8} (hb : b ∈ String.utf8EncodeChar c) :
    128 ≤ b.toNat := by
  have hbyte : ∀ m : ℕ, 128 ≤ m → m < 256 → 128 ≤ (UInt8.ofNat m).toNat := by
    intro m hle hlt
    rw [UInt8.toNat_ofNat', Nat.mod_eq_of_lt hlt]
    exact hle
  have hval : ¬ c.val.toNat ≤ 0x7f := by
    show ¬ c.toNat ≤ 0x7f
    omega
  unfold String.utf8EncodeChar at hb
  simp only [hval, if_false] at hb
  split at hb
  · simp only [List.mem_cons, List.not_mem_nil, or_false] at hb
    rcases hb with rfl | rfl
    · exact hbyte _ (by omega) (by omega)
    · exact hbyte _ (by omega) (by omega)
  · split at hb
    · simp only [List.mem_cons, List.not_mem_nil, or_false] at hb
      rcases hb with rfl | rfl | rfl
      · exact hbyte _ (by omega) (by omega)
      · exact hbyte _ (by omega) (by omega)
      · exact hbyte _ (by omega) (by omega)
    · simp only [List.mem_cons, List.not_mem_nil, or_false] at hb
      rcases hb with rfl | rfl | rfl | rfl
      · exact hbyte _ (by omega) (by omega)
      · exact hbyte _ (by omega) (by omega)
      · exact hbyte _ (by omega) (by omega)
      · exact hbyte _ (by omega) (by omega)

/-- An ASCII character is one byte. -/
theorem utf8EncodeChar_of_ascii (hc : c.toNat < 128) : String.utf8EncodeChar c = [UInt8.ofNat c.toNat] := by
  have hval : c.val.toNat ≤ 0x7f := Nat.le_of_lt_succ hc
  unfold String.utf8EncodeChar
  simp only [hval, if_true]
  rfl

/-- The byte of an ASCII character comes from nothing else. -/
theorem count_utf8EncodeChar (hd : d.toNat < 128) (c : Char) :
    (String.utf8EncodeChar c).count (UInt8.ofNat d.toNat) = if c = d then 1 else 0 := by
  have hvalue : ∀ e : Char, e.toNat < 128 → (UInt8.ofNat e.toNat).toNat = e.toNat := by
    intro e he
    rw [UInt8.toNat_ofNat', Nat.mod_eq_of_lt (by omega)]
  by_cases hc : c.toNat < 128
  · rw [utf8EncodeChar_of_ascii hc, List.count_singleton]
    by_cases heq : c = d
    · rw [heq, beq_self_eq_true, if_pos rfl, if_pos rfl]
    · rw [if_neg heq, if_neg]
      rw [beq_iff_eq]
      intro hbyte
      have hnat := congrArg UInt8.toNat hbyte
      rw [hvalue c hc, hvalue d hd] at hnat
      exact heq (Char.toNat_inj.mp hnat)
  · have hne : c ≠ d := by
      rintro rfl
      exact hc hd
    rw [if_neg hne, List.count_eq_zero]
    intro hmem
    have hle := le_of_mem_utf8EncodeChar (by omega) hmem
    rw [hvalue d hd] at hle
    omega

/-- So a text has as many of these bytes as of these characters. -/
theorem count_bytes (hd : d.toNat < 128) (cs : List Char) :
    (bytes cs).count (UInt8.ofNat d.toNat) = cs.count d := by
  induction cs with
  | nil => rfl
  | cons c cs ih =>
      rw [bytes_cons, List.count_append, count_utf8EncodeChar hd, ih, List.count_cons, Nat.add_comm]
      by_cases heq : c = d
      · rw [if_pos heq, if_pos (beq_iff_eq.mpr heq)]
      · rw [if_neg heq, if_neg (by rwa [beq_iff_eq])]

/-! ### Slices cut at character boundaries -/

/-- Past the first character the slice goes on in the rest. -/
theorem sliceTo_add (c : Char) (cs : List Char) (n : ℕ) :
    sliceTo (c.utf8Size + n) (c :: cs) = (sliceTo n cs).map (c :: ·) := by
  have hpos := c.utf8Size_pos
  obtain ⟨m, hm⟩ : ∃ m, c.utf8Size + n = m + 1 := ⟨c.utf8Size + n - 1, by omega⟩
  have hrest : m + 1 - c.utf8Size = n := by omega
  rw [hm, sliceTo, if_pos (by omega), hrest]

theorem sliceFrom_add (c : Char) (cs : List Char) (n : ℕ) :
    sliceFrom (c.utf8Size + n) (c :: cs) = sliceFrom n cs := by
  have hpos := c.utf8Size_pos
  obtain ⟨m, hm⟩ : ∃ m, c.utf8Size + n = m + 1 := ⟨c.utf8Size + n - 1, by omega⟩
  have hrest : m + 1 - c.utf8Size = n := by omega
  rw [hm, sliceFrom, if_pos (by omega), hrest]

theorem sliceTo_append (ds es : List Char) : sliceTo (bytes ds).length (ds ++ es) = some ds := by
  induction ds with
  | nil =>
      show sliceTo 0 es = some []
      unfold sliceTo
      rfl
  | cons d ds ih => rw [length_bytes_cons, List.cons_append, sliceTo_add, ih, Option.map_some]

theorem sliceFrom_append (ds es : List Char) : sliceFrom (bytes ds).length (ds ++ es) = some es := by
  induction ds with
  | nil =>
      show sliceFrom 0 es = some es
      unfold sliceFrom
      rfl
  | cons d ds ih => rw [length_bytes_cons, List.cons_append, sliceFrom_add, ih]

theorem exists_append_of_sliceTo (h : sliceTo n cs = some ds) :
    ∃ es, cs = ds ++ es ∧ (bytes ds).length = n := by
  fun_induction sliceTo n cs generalizing ds with
  | case1 cs =>
      cases h
      exact ⟨cs, rfl, rfl⟩
  | case2 n => cases h
  | case3 n c cs hle ih =>
      obtain ⟨ds', hds', rfl⟩ := Option.map_eq_some_iff.mp h
      obtain ⟨es, rfl, hlen⟩ := ih hds'
      refine ⟨es, rfl, ?_⟩
      rw [length_bytes_cons, hlen]
      omega
  | case4 n c cs hlt => cases h

theorem exists_append_of_sliceFrom (h : sliceFrom n cs = some es) :
    ∃ ds, cs = ds ++ es ∧ (bytes ds).length = n := by
  fun_induction sliceFrom n cs with
  | case1 cs =>
      cases h
      exact ⟨[], rfl, rfl⟩
  | case2 n => cases h
  | case3 n c cs hle ih =>
      obtain ⟨ds, rfl, hlen⟩ := ih h
      refine ⟨c :: ds, rfl, ?_⟩
      rw [length_bytes_cons, hlen]
      omega
  | case4 n c cs hlt => cases h

theorem sliceTo_eq_some_iff :
    sliceTo n cs = some ds ↔ ∃ es, cs = ds ++ es ∧ (bytes ds).length = n := by
  constructor
  · exact exists_append_of_sliceTo
  · intro ⟨es, hcs, hlen⟩
    rw [hcs, ← hlen]
    exact sliceTo_append ds es

theorem sliceFrom_eq_some_iff :
    sliceFrom n cs = some es ↔ ∃ ds, cs = ds ++ es ∧ (bytes ds).length = n := by
  constructor
  · exact exists_append_of_sliceFrom
  · intro ⟨ds, hcs, hlen⟩
    rw [hcs, ← hlen]
    exact sliceFrom_append ds es

/-- The offset is one of a character boundary: `is_char_boundary`. -/
def IsBoundary (n : ℕ) (cs : List Char) : Prop := ∃ ds es, cs = ds ++ es ∧ (bytes ds).length = n

theorem isSome_sliceTo_iff : (sliceTo n cs).isSome = true ↔ IsBoundary n cs := by
  rw [Option.isSome_iff_exists]
  exact exists_congr fun ds => sliceTo_eq_some_iff

theorem isSome_sliceFrom_iff : (sliceFrom n cs).isSome = true ↔ IsBoundary n cs := by
  rw [Option.isSome_iff_exists]
  constructor
  · intro ⟨es, h⟩
    obtain ⟨ds, hcs, hlen⟩ := sliceFrom_eq_some_iff.mp h
    exact ⟨ds, es, hcs, hlen⟩
  · intro ⟨ds, es, hcs, hlen⟩
    exact ⟨es, sliceFrom_eq_some_iff.mpr ⟨ds, hcs, hlen⟩⟩

/-! ### The encoding can be cut in one way only -/

/-- No encoding of a character is the beginning of another. -/
theorem utf8EncodeChar_append_inj {xs ys : List UInt8}
    (h : String.utf8EncodeChar c ++ xs = String.utf8EncodeChar d ++ ys) : c = d ∧ xs = ys := by
  have hdecode : ∀ (e : Char) (zs : List UInt8),
      ((String.utf8EncodeChar e ++ zs).toByteArray).utf8DecodeChar? 0 = some e := by
    intro e zs
    rw [List.toByteArray_append]
    exact ByteArray.utf8DecodeChar?_utf8EncodeChar_append
  have hcd : c = d := by
    have hc := hdecode c xs
    rw [h, hdecode d ys] at hc
    exact (Option.some.inj hc).symm
  subst hcd
  exact ⟨rfl, List.append_cancel_left h⟩

/-- A text whose encoding begins with that of `ds` begins with `ds`. -/
theorem exists_append_of_bytes {xs : List UInt8} (h : bytes cs = bytes ds ++ xs) :
    ∃ es, cs = ds ++ es ∧ bytes es = xs := by
  induction ds generalizing cs with
  | nil => exact ⟨cs, rfl, h⟩
  | cons d ds ih =>
      rw [bytes_cons, List.append_assoc] at h
      cases cs with
      | nil =>
          have hnil := List.append_eq_nil_iff.mp h.symm
          exact absurd hnil.1 String.utf8EncodeChar_ne_nil
      | cons c cs =>
          rw [bytes_cons] at h
          obtain ⟨rfl, hrest⟩ := utf8EncodeChar_append_inj h
          obtain ⟨es, rfl, hes⟩ := ih hrest
          exact ⟨es, rfl, hes⟩

theorem bytes_injective (h : bytes cs = bytes ds) : cs = ds := by
  have h' : bytes cs = bytes ds ++ [] := by rw [h, List.append_nil]
  obtain ⟨es, rfl, hes⟩ := exists_append_of_bytes h'
  cases es with
  | nil => exact List.append_nil ds
  | cons e es =>
      have hlen := congrArg List.length hes
      rw [length_bytes_cons] at hlen
      have := e.utf8Size_pos
      simp at hlen
      omega

/-- A byte that can begin a character does. -/
theorem exists_append_of_isUTF8FirstByte {xs ys : List UInt8} {b : UInt8} (hb : b.IsUTF8FirstByte)
    (h : bytes cs = xs ++ b :: ys) : ∃ ds es, cs = ds ++ es ∧ bytes ds = xs ∧ bytes es = b :: ys := by
  induction cs generalizing xs with
  | nil => exact absurd h.symm (by simp)
  | cons c cs ih =>
      by_cases hxs : xs = []
      · subst hxs
        exact ⟨[], c :: cs, rfl, rfl, h⟩
      rw [bytes_cons] at h
      obtain ⟨as, rfl, hrest⟩ | ⟨as, hc, hrest⟩ := List.append_eq_append_iff.mp h
      · -- the byte is past the first character
        obtain ⟨ds, es, rfl, rfl, hes⟩ := ih hrest
        exact ⟨c :: ds, es, rfl, rfl, hes⟩
      · cases as with
        | nil =>
            rw [List.append_nil] at hc
            exact ⟨[c], cs, rfl, by rw [bytes_cons, hc, bytes_nil, List.append_nil], hrest.symm⟩
        | cons a as =>
            -- the byte is inside the first character, and not its first
            obtain ⟨rfl, -⟩ := List.cons_eq_cons.mp hrest
            have hlt : xs.length < (String.utf8EncodeChar c).length := by
              rw [hc, List.length_append, List.length_cons]
              omega
            have hget : (String.utf8EncodeChar c).get ⟨xs.length, hlt⟩ = b := by
              simp [hc]
            have hzero : xs.length = 0 :=
              UInt8.isUTF8FirstByte_getElem_utf8EncodeChar.mp (hget ▸ hb)
            exact absurd (List.length_eq_zero_iff.mp hzero) hxs

/-- The byte behind the cut, if there is one, begins a character. -/
def CutFits (n : ℕ) (cs : List Char) : Prop := ∀ b ∈ (bytes cs)[n]?, b.IsUTF8FirstByte

theorem all_iff_cutFits (n : ℕ) (cs : List Char) :
    ((bytes cs)[n]?.all fun b => decide b.IsUTF8FirstByte) = true ↔ CutFits n cs := by
  unfold CutFits
  cases (bytes cs)[n]? with
  | none => simp
  | some b => simp

instance (n : ℕ) (cs : List Char) : Decidable (CutFits n cs) := decidable_of_iff _ (all_iff_cutFits n cs)

/-- **A cut is a character boundary** exactly if a character begins behind it, or nothing does. -/
theorem isBoundary_iff_cutFits (h : n ≤ (bytes cs).length) : IsBoundary n cs ↔ CutFits n cs := by
  constructor
  · rintro ⟨ds, es, rfl, rfl⟩ b hb
    rw [Option.mem_def, bytes_append, List.getElem?_append_right le_rfl, Nat.sub_self] at hb
    cases es with
    | nil => cases hb
    | cons e es =>
        have hpos : 0 < (String.utf8EncodeChar e).length := by
          rw [String.length_utf8EncodeChar]
          exact e.utf8Size_pos
        rw [bytes_cons, List.getElem?_append_left hpos, List.getElem?_eq_getElem hpos] at hb
        rw [← Option.some.inj hb]
        exact UInt8.isUTF8FirstByte_getElem_zero_utf8EncodeChar
  · intro hfits
    rcases Nat.lt_or_ge n (bytes cs).length with hlt | hge
    · have hsplit : bytes cs = (bytes cs).take n ++ (bytes cs)[n] :: (bytes cs).drop (n + 1) := by
        rw [← List.drop_eq_getElem_cons hlt, List.take_append_drop]
      obtain ⟨ds, es, hcs, hds, -⟩ :=
        exists_append_of_isUTF8FirstByte (hfits _ (List.getElem?_eq_getElem hlt)) hsplit
      refine ⟨ds, es, hcs, ?_⟩
      rw [hds, List.length_take, Nat.min_eq_left h]
    · exact ⟨cs, [], (List.append_nil cs).symm, Nat.le_antisymm hge h⟩

/-- A text that is long enough can be cut there. -/
theorem isSome_sliceTo_iff_cutFits (h : n ≤ (bytes cs).length) : (sliceTo n cs).isSome = true ↔ CutFits n cs :=
  isSome_sliceTo_iff.trans (isBoundary_iff_cutFits h)

/-! ### Reading texts -/

/-- `str::from_utf8`. -/
def fromUtf8 (bs : List UInt8) : Option (List Char) := bs.toByteArray.utf8Decode?.map Array.toList

theorem fromUtf8_bytes (cs : List Char) : fromUtf8 (bytes cs) = some cs := by
  show cs.utf8Encode.utf8Decode?.map Array.toList = some cs
  rw [List.utf8Decode?_utf8Encode, Option.map_some]

/-! ### ASCII case -/

/-- `u8::to_ascii_lowercase`. -/
def lowerByte (b : UInt8) : UInt8 := if 65 ≤ b ∧ b ≤ 90 then b + 32 else b

/-- Lowering the bytes of a text lowers its characters. -/
theorem bytes_map_toLower (cs : List Char) : bytes (cs.map Char.toLower) = (bytes cs).map lowerByte := by
  have hascii : ∀ n : Fin 128, String.utf8EncodeChar (Char.ofNat n).toLower =
      (String.utf8EncodeChar (Char.ofNat n)).map lowerByte := by decide
  have hchar : ∀ c : Char, String.utf8EncodeChar c.toLower = (String.utf8EncodeChar c).map lowerByte := by
    intro c
    by_cases hc : c.toNat < 128
    · have h := hascii ⟨c.toNat, hc⟩
      rwa [Char.ofNat_toNat] at h
    · have hlower : c.toLower = c := by
        refine dif_neg fun hupper => hc ?_
        have hle : c.toNat ≤ 90 := UInt32.le_iff_toNat_le.mp hupper.2
        omega
      rw [hlower]
      conv_lhs => rw [← List.map_id (String.utf8EncodeChar c)]
      refine List.map_congr_left fun b hb => ?_
      have hle := le_of_mem_utf8EncodeChar (by omega) hb
      refine (if_neg fun hupper => ?_).symm
      have h90 : b.toNat ≤ 90 := UInt8.le_iff_toNat_le.mp hupper.2
      omega
  induction cs with
  | nil => rfl
  | cons c cs ih => rw [List.map_cons, bytes_cons, bytes_cons, List.map_append, hchar, ih]

/-- **A text whose first bytes agree with a prefix up to case** is cut behind as many characters. -/
theorem exists_append_of_lowerByte {pre : List Char}
    (h : ((bytes cs).take (bytes pre).length).map lowerByte = (bytes pre).map lowerByte) :
    ∃ ds es, cs = ds ++ es ∧ ds.map Char.toLower = pre.map Char.toLower ∧ (bytes ds).length = (bytes pre).length := by
  have hlower : bytes (cs.map Char.toLower) =
      bytes (pre.map Char.toLower) ++ ((bytes cs).drop (bytes pre).length).map lowerByte := by
    rw [bytes_map_toLower, bytes_map_toLower, ← h, ← List.map_append, List.take_append_drop]
  obtain ⟨rest, hmap, -⟩ := exists_append_of_bytes hlower
  obtain ⟨ds, es, hcs, hds, -⟩ := List.map_eq_append_iff.mp hmap
  refine ⟨ds, es, hcs, hds, ?_⟩
  have hlen := congrArg (fun es => (bytes es).length) hds
  simpa only [bytes_map_toLower, List.length_map] using hlen

/-! ### A slice depends on its bytes -/

/-- Whether `&s[..n]` panics, and what it is, depends on the first `n` bytes. -/
theorem sliceTo_congr (h : (bytes cs).take n = (bytes ds).take n) : sliceTo n cs = sliceTo n ds := by
  have himp : ∀ {cs ds : List Char}, (bytes cs).take n = (bytes ds).take n → ∀ as,
      sliceTo n cs = some as → sliceTo n ds = some as := by
    intro cs ds h as has
    obtain ⟨es, rfl, hlen⟩ := sliceTo_eq_some_iff.mp has
    rw [bytes_append, ← hlen, List.take_left] at h
    have hds : bytes ds = bytes as ++ (bytes ds).drop (bytes as).length := by
      conv_lhs => rw [← List.take_append_drop (bytes as).length (bytes ds), ← h]
    obtain ⟨es', rfl, -⟩ := exists_append_of_bytes hds
    exact sliceTo_eq_some_iff.mpr ⟨es', rfl, hlen⟩
  exact Option.ext fun as => ⟨himp h as, himp h.symm as⟩

/-- Whether `&s[n..]` panics, and what it is, depends on the bytes from `n` on and their number. -/
theorem sliceFrom_congr (hlen : (bytes cs).length = (bytes ds).length)
    (h : (bytes cs).drop n = (bytes ds).drop n) : sliceFrom n cs = sliceFrom n ds := by
  have himp : ∀ {cs ds : List Char}, (bytes cs).length = (bytes ds).length →
      (bytes cs).drop n = (bytes ds).drop n → ∀ es,
      sliceFrom n cs = some es → sliceFrom n ds = some es := by
    intro cs ds hlen h es hes
    obtain ⟨as, rfl, has⟩ := sliceFrom_eq_some_iff.mp hes
    rw [bytes_append, ← has, List.drop_left] at h
    cases es with
    | nil =>
        refine sliceFrom_eq_some_iff.mpr ⟨ds, (List.append_nil ds).symm, ?_⟩
        rw [← hlen, List.append_nil, has]
    | cons e es =>
        have hds : bytes ds = (bytes ds).take (bytes as).length ++ bytes (e :: es) := by
          conv_lhs => rw [← List.take_append_drop (bytes as).length (bytes ds), ← h]
        obtain ⟨b, bs, hb⟩ := List.exists_cons_of_ne_nil (@String.utf8EncodeChar_ne_nil e)
        have hfirst : b.IsUTF8FirstByte := by
          have h0 := @UInt8.isUTF8FirstByte_getElem_zero_utf8EncodeChar e
          simp only [hb, List.getElem_cons_zero] at h0
          exact h0
        rw [bytes_cons, hb, List.cons_append] at hds
        obtain ⟨ds', es', rfl, hds', hes'⟩ := exists_append_of_isUTF8FirstByte hfirst hds
        have hsame : es' = e :: es := by
          apply bytes_injective
          rw [hes', bytes_cons, hb, List.cons_append]
        subst hsame
        refine sliceFrom_eq_some_iff.mpr ⟨ds', rfl, ?_⟩
        simp only [bytes_append, List.length_append] at hlen
        omega
  exact Option.ext fun es => ⟨himp hlen h es, himp hlen.symm h.symm es⟩

end IcebergDb.Utf8
