import Mathlib.Data.String.Basic

/-!
# Small text functions

The string functions of the Rust standard library that configuration, statistics and file names are read
with: unsigned decimal parsing (`str::parse`), `str::trim` and its kin, the ASCII case functions,
`strip_prefix`, `strip_suffix`, `contains` and `split_once`; and that a printed number is read back
(`parseUnsigned_toString`, `trim_toString`).
-/

namespace IcebergDb.Text

/-- What every character of a text has is decided along the text, not over all characters. -/
theorem forall_mem_of_all {p : Char → Prop} [DecidablePred p] {cs : List Char}
    (h : cs.all (fun c => decide (p c)) = true) : ∀ c ∈ cs, p c :=
  fun c hc => of_decide_eq_true (List.all_eq_true.mp h c hc)

/-- The same for its last character. -/
theorem forall_mem_getLast_of_all {p : Char → Prop} [DecidablePred p] {cs : List Char}
    (h : cs.getLast?.all (fun c => decide (p c)) = true) : ∀ c ∈ cs.getLast?, p c := by
  intro c hc
  rw [Option.mem_def.mp hc] at h
  exact of_decide_eq_true h

/-- The value of a run of digits, most significant first, continuing from `acc`. -/
def parseDigits (acc : ℕ) : List Char → Option ℕ
  | [] => some acc
  | c :: cs => if c.isDigit then parseDigits (10 * acc + (c.toNat - '0'.toNat)) cs else none

/-- `str::parse` for an unsigned type of `bits` bits: an optional plus sign, at least one digit, no
overflow. -/
def parseUnsigned (bits : ℕ) (s : String) : Option ℕ :=
  let digits := match s.toList with
    | '+' :: cs => cs
    | cs => cs
  match digits with
  | [] => none
  | cs => (parseDigits 0 cs).filter (· < 2 ^ bits)

/-- The characters of the Unicode property `White_Space`. -/
def isWhitespace (c : Char) : Bool :=
  let n := c.toNat
  (0x9 ≤ n && n ≤ 0xD) || n == 0x20 || n == 0x85 || n == 0xA0 || n == 0x1680 ||
    (0x2000 ≤ n && n ≤ 0x200A) || n == 0x2028 || n == 0x2029 || n == 0x202F || n == 0x205F ||
    n == 0x3000

theorem toNat_of_isAlpha {c : Char} (h : c.isAlpha = true) : 65 ≤ c.toNat ∧ c.toNat ≤ 122 := by
  have hcase : (c.isUpper || c.isLower) = true := h
  rcases Bool.or_eq_true _ _ ▸ hcase with h | h
  · obtain ⟨hlow, hhigh⟩ := of_decide_eq_true h
    exact ⟨UInt32.le_iff_toNat_le.mp hlow, (UInt32.le_iff_toNat_le.mp hhigh).trans (by decide)⟩
  · obtain ⟨hlow, hhigh⟩ := Bool.and_eq_true _ _ ▸ h
    exact ⟨le_trans (by decide) (UInt32.le_iff_toNat_le.mp (of_decide_eq_true hlow)),
      UInt32.le_iff_toNat_le.mp (of_decide_eq_true hhigh)⟩

/-- A letter is no white space. -/
theorem isWhitespace_of_isAlpha {c : Char} (h : c.isAlpha = true) : isWhitespace c = false := by
  have hrange := toNat_of_isAlpha h
  simp only [isWhitespace, Bool.or_eq_false_iff, Bool.and_eq_false_iff, decide_eq_false_iff_not,
    beq_eq_false_iff_ne]
  omega

/-- A letter is lowered to a letter, and nothing else is lowered. -/
theorem isAlpha_toLower (c : Char) : c.toLower.isAlpha = c.isAlpha ∧ (c.isAlpha = false → c.toLower = c) := by
  have hother : c.isAlpha = false → c.toLower = c := by
    intro h
    refine dif_neg fun hrange => ?_
    have hupper : c.isUpper = true := decide_eq_true hrange
    have halpha : (c.isUpper || c.isLower) = false := h
    rw [hupper, Bool.true_or] at halpha
    cases halpha
  refine ⟨?_, hother⟩
  cases halpha : c.isAlpha with
  | false => rw [hother halpha, halpha]
  | true =>
      have hascii : ∀ n : Fin 128, (Char.ofNat n).isAlpha = true → (Char.ofNat n).toLower.isAlpha = true := by decide
      have hlt : c.toNat < 128 := by
        have := toNat_of_isAlpha halpha
        omega
      have hlower := hascii ⟨c.toNat, hlt⟩
      rw [Char.ofNat_toNat] at hlower
      exact hlower halpha

/-- `str::trim`. -/
def trim (s : String) : String :=
  String.ofList (((s.toList.dropWhile isWhitespace).reverse.dropWhile isWhitespace).reverse)

/-- `eq_ignore_ascii_case`. -/
def eqIgnoreAsciiCase (s t : String) : Bool :=
  s.toList.map Char.toLower == t.toList.map Char.toLower

/-- `to_ascii_lowercase`. -/
def toAsciiLowercase (s : String) : String := String.ofList (s.toList.map Char.toLower)

/-- Lowering a letter twice is lowering it once. -/
theorem toLower_toLower (c : Char) : c.toLower.toLower = c.toLower := by
  have hother : ∀ d : Char, ¬ (d.val ≥ 'A'.val ∧ d.val ≤ 'Z'.val) → d.toLower = d :=
    fun d hd => dif_neg hd
  by_cases hc : c.val ≥ 'A'.val ∧ c.val ≤ 'Z'.val
  · refine hother _ ?_
    -- an upper-case letter moves 32 places up, beyond the upper-case letters
    have hval : c.toLower.val = c.val + 32 := by
      unfold Char.toLower
      rw [dif_pos hc]
      rfl
    have hlow : 65 ≤ c.val.toNat := UInt32.le_iff_toNat_le.mp hc.1
    have hhigh : c.val.toNat ≤ 90 := UInt32.le_iff_toNat_le.mp hc.2
    have hsum : (c.val + 32).toNat = c.val.toNat + 32 := by
      rw [UInt32.toNat_add]
      refine Nat.mod_eq_of_lt ?_
      show c.val.toNat + 32 < 2 ^ 32
      omega
    rw [hval]
    rintro ⟨-, hle⟩
    have hle' : (c.val + 32).toNat ≤ 90 := UInt32.le_iff_toNat_le.mp hle
    omega
  · rw [hother c hc]
    exact hother c hc

theorem toAsciiLowercase_toAsciiLowercase (s : String) :
    toAsciiLowercase (toAsciiLowercase s) = toAsciiLowercase s := by
  unfold toAsciiLowercase
  rw [String.toList_ofList, List.map_map]
  refine congrArg String.ofList (List.map_congr_left ?_)
  intro c _
  exact toLower_toLower c

/-- `strip_prefix`. -/
def stripPrefix (pre s : String) : Option String :=
  if pre.toList.isPrefixOf s.toList then some (String.ofList (s.toList.drop pre.toList.length)) else none

/-- `strip_suffix`. -/
def stripSuffix (suf s : String) : Option String :=
  if suf.toList.isSuffixOf s.toList then
    some (String.ofList (s.toList.take (s.toList.length - suf.toList.length)))
  else none

/-- `starts_with`. -/
def startsWith (pre s : String) : Bool := pre.toList.isPrefixOf s.toList

/-- `contains`. -/
def contains (part s : String) : Bool := s.toList.tails.any part.toList.isPrefixOf

/-- `split_once` at a character: what stands before and after its first occurrence. -/
def splitOnce (sep : Char) (s : String) : Option (String × String) :=
  match s.toList.dropWhile (· ≠ sep) with
  | [] => none
  | _ :: rest => some (String.ofList (s.toList.takeWhile (· ≠ sep)), String.ofList rest)

/-- `trim_end_matches` of a character. -/
def trimEndMatches (c : Char) (s : String) : String :=
  String.ofList ((s.toList.reverse.dropWhile (· = c)).reverse)

/-- `trim_matches` of a character. -/
def trimMatches (c : Char) (s : String) : String :=
  trimEndMatches c (String.ofList (s.toList.dropWhile (· = c)))

theorem stripPrefix_append (pre s : String) : stripPrefix pre (pre ++ s) = some s := by
  simp [stripPrefix]

theorem stripSuffix_append (suf s : String) : stripSuffix suf (s ++ suf) = some s := by
  simp [stripSuffix]

/-! ### Printed numbers -/

/-- A run of digits has the value that it has as a decimal number. -/
theorem parseDigits_eq {cs : List Char} (h : ∀ c ∈ cs, c.isDigit = true) (acc : ℕ) :
    parseDigits acc cs = some (Nat.ofDigitChars 10 cs acc) := by
  induction cs generalizing acc with
  | nil => simp [parseDigits]
  | cons c cs ih =>
      rw [parseDigits, if_pos (h c List.mem_cons_self), Nat.ofDigitChars_cons]
      exact ih (fun d hd => h d (List.mem_cons_of_mem c hd)) _

theorem isDigit_of_mem_toString {n : ℕ} {c : Char} (h : c ∈ (toString n).toList) :
    c.isDigit = true := by
  rw [Nat.toString_eq_ofList_toDigits, String.toList_ofList] at h
  exact Nat.isDigit_of_mem_toDigits (by decide) (by decide) h

theorem toList_toString_ne_nil (n : ℕ) : (toString n).toList ≠ [] := by
  rw [Nat.toString_eq_ofList_toDigits, String.toList_ofList]
  exact Nat.toDigits_ne_nil

/-- **A printed number is read back** if it fits. -/
theorem parseUnsigned_toString (bits n : ℕ) :
    parseUnsigned bits (toString n) = if n < 2 ^ bits then some n else none := by
  have hdigits : parseDigits 0 (toString n).toList = some n := by
    rw [parseDigits_eq fun c hc => isDigit_of_mem_toString hc, Nat.toString_eq_ofList_toDigits,
      String.toList_ofList, Nat.ofDigitChars_ten_toDigits]
  have hfirst := toList_toString_ne_nil n
  have hall := fun c => isDigit_of_mem_toString (n := n) (c := c)
  cases hcs : (toString n).toList with
  | nil => exact absurd hcs hfirst
  | cons c cs =>
      rw [hcs] at hdigits hall
      have hplus : c ≠ '+' := by
        rintro rfl
        exact absurd (hall '+' List.mem_cons_self) (by decide)
      have hnosign : (match c :: cs with
          | '+' :: cs => cs
          | cs => cs) = c :: cs := by
        split
        · rename_i hsign
          exact absurd (List.cons.inj hsign).1 hplus
        · rfl
      unfold parseUnsigned
      simp only [hcs, hnosign, hdigits, Option.filter_some, decide_eq_true_eq]

/-- Printed numbers differ. -/
theorem toString_injective {m n : ℕ} (h : toString m = toString n) : m = n := by
  have hread : ∀ k : ℕ, Nat.ofDigitChars 10 (toString k).toList 0 = k := by
    intro k
    rw [Nat.toString_eq_ofList_toDigits, String.toList_ofList, Nat.ofDigitChars_ten_toDigits]
  rw [← hread m, ← hread n, h]

theorem toNat_of_isDigit {c : Char} (h : c.isDigit = true) : 48 ≤ c.toNat ∧ c.toNat ≤ 57 := by
  rw [Char.isDigit, Bool.and_eq_true, decide_eq_true_eq, decide_eq_true_eq] at h
  exact ⟨UInt32.le_iff_toNat_le.mp h.1, UInt32.le_iff_toNat_le.mp h.2⟩

/-- A digit is no white space. -/
theorem isWhitespace_eq_false {c : Char} (h : c.isDigit = true) : isWhitespace c = false := by
  have hrange := toNat_of_isDigit h
  simp only [isWhitespace, Bool.or_eq_false_iff, Bool.and_eq_false_iff, decide_eq_false_iff_not,
    beq_eq_false_iff_ne]
  omega

/-- A text without white space is trimmed already. -/
theorem trim_eq_self {s : String} (h : ∀ c ∈ s.toList, isWhitespace c = false) : trim s = s := by
  have hdrop : ∀ l : List Char, (∀ c ∈ l, isWhitespace c = false) → l.dropWhile isWhitespace = l := by
    intro l hl
    cases l with
    | nil => rfl
    | cons c cs => rw [List.dropWhile_cons_of_neg (by rw [hl c List.mem_cons_self]; decide)]
  unfold trim
  rw [hdrop _ h, hdrop _ fun c hc => h c (List.mem_reverse.mp hc), List.reverse_reverse,
    String.ofList_toList]

theorem trim_toString (n : ℕ) : trim (toString n) = toString n :=
  trim_eq_self fun _ hc => isWhitespace_eq_false (isDigit_of_mem_toString hc)

/-- Parsing reads printed numbers back. -/
example : parseUnsigned 64 "600000" = some 600000 ∧ parseUnsigned 64 "+7" = some 7 ∧
    parseUnsigned 8 "256" = none ∧ parseUnsigned 64 "12a" = none := by decide

end IcebergDb.Text
