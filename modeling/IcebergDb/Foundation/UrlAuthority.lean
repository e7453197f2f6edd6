import IcebergDb.Foundation.Url
import Mathlib.Data.List.TakeWhile

/-!
# Where the authority of a URL ends

A text is put into the authority of a special URL, before the end of a host name that is known.

* `Url.authorityOf` — the authority in what follows a scheme;
* `parse_host` — the host of a URL is the one of its authority;
* `HostParser.KeepsNames` — the host parser keeps lower-case letters at the end of a domain;
* `authorityOf_append`, `authorityOf_append_of_ends` — what a text leaves of a known end behind it: all, or nothing;
* `suffix_of_parseAuthority` — **an authority that ends in a name has a host that ends in it.**
-/

namespace IcebergDb

/-- What the standard says about the end of a domain: it goes to ASCII label by label, so labels of lower-case letters
at its end are left as they are. -/
structure HostParser.KeepsNames (H : HostParser) : Prop where
  suffix : ∀ {cs name host}, (∀ c ∈ name, c.isLower || c = '.') → name.getLast?.any Char.isLower →
    H.special (cs ++ '.' :: name) = some host → '.' :: name <:+ host

namespace Url

/-- A character that ends the authority of a special URL. -/
def endsAuthority (c : Char) : Bool := isSeparator .special c || c = '?' || c = '#'

/-- The authority in what follows the scheme of a special URL. -/
def authorityOf (cs : List Char) : List Char :=
  (cs.dropWhile (isSeparator .special ·)).takeWhile (!endsAuthority ·)

section

variable {H : HostParser} {scheme : String} {cs ds name rest s : List Char} {c : Char}

/-! ### The authority -/

theorem dropWhile_takeWhile {p q : Char → Bool} (h : ∀ c, p c = true → q c = true) (cs : List Char) :
    (cs.takeWhile q).dropWhile p = (cs.dropWhile p).takeWhile q := by
  induction cs with
  | nil => rfl
  | cons c cs ih =>
      cases hp : p c with
      | true =>
          rw [List.takeWhile_cons_of_pos (h c hp), List.dropWhile_cons_of_pos hp, List.dropWhile_cons_of_pos hp, ih]
      | false =>
          have hneg : ¬ p c = true := by
            rw [hp]
            decide
          rw [List.dropWhile_cons_of_neg hneg]
          cases hq : q c with
          | true => rw [List.takeWhile_cons_of_pos hq, List.dropWhile_cons_of_neg hneg]
          | false =>
              rw [List.takeWhile_cons_of_neg (by rw [hq]; decide)]
              rfl

/-- Before the fragment, the query and the path. -/
theorem takeWhile_authority (cs : List Char) :
    ((cutAt '?' (cutAt '#' cs).1).1.dropWhile (isSeparator .special ·)).takeWhile (!isSeparator .special ·) =
      authorityOf cs := by
  have hne : ∀ d, isSeparator .special d = false → ∀ c, isSeparator .special c = true → decide (c ≠ d) = true := by
    intro d hd c hc
    refine decide_eq_true ?_
    rintro rfl
    rw [hd] at hc
    cases hc
  show (((cs.takeWhile (· ≠ '#')).takeWhile (· ≠ '?')).dropWhile _).takeWhile _ = _
  rw [dropWhile_takeWhile (hne '?' (by decide)), dropWhile_takeWhile (hne '#' (by decide)), List.takeWhile_takeWhile,
    List.takeWhile_takeWhile, authorityOf]
  refine congrArg (List.takeWhile · _) (funext fun c => ?_)
  rw [endsAuthority]
  by_cases hsep : isSeparator .special c = true <;> by_cases hquery : c = '?' <;> by_cases hhash : c = '#' <;>
    simp [hsep, hquery, hhash]

/-- **The host of a special URL** is read from its authority. -/
theorem parse_host (hfirst : s.head?.any Char.isAlpha = true) (hs : ∀ c ∈ s, isSchemeChar c = true)
    (hscheme : String.ofList (s.map Char.toLower) = scheme) (hkind : kindOf scheme = .special) (rest : List Char) :
    (parse H (s ++ ':' :: rest)).map Url.host =
      (parseAuthority H scheme (authorityOf (cleanEnd rest))).map fun a => some a.host := by
  rw [parse_scheme hfirst hs hscheme, Option.map_map, ← takeWhile_authority]
  simp only [parseAfterScheme, hkind, parseHierarchy, Option.map_map]
  rfl

theorem isSeparator_of_endsAuthority (hc : endsAuthority c = false) : isSeparator .special c = false := by
  rw [endsAuthority, Bool.or_eq_false_iff, Bool.or_eq_false_iff] at hc
  exact hc.1.1

/-- **A text leaves all of what stands behind it** in the authority, if no character of it ends one. -/
theorem authorityOf_append (hc : endsAuthority c = false) (hds : ∀ d ∈ ds, endsAuthority d = false)
    (hcs : ∀ d ∈ cs.dropWhile (isSeparator .special ·), endsAuthority d = false) :
    authorityOf (cs ++ c :: (ds ++ '/' :: rest)) = cs.dropWhile (isSeparator .special ·) ++ c :: ds := by
  have hkept : ∀ d ∈ cs.dropWhile (isSeparator .special ·) ++ c :: ds, (!endsAuthority d) = true := by
    intro d hd
    rw [Bool.not_eq_true']
    rcases List.mem_append.mp hd with hd | hd
    · exact hcs d hd
    · rcases List.mem_cons.mp hd with rfl | hd
      · exact hc
      · exact hds d hd
  rw [authorityOf, Trim.dropWhile_append_cons (isSeparator_of_endsAuthority hc), ← List.cons_append,
    ← List.append_assoc, List.takeWhile_append_of_pos hkept, List.takeWhile_cons_of_neg (by decide), List.append_nil]

/-- And nothing, if one does. -/
theorem authorityOf_append_of_ends (hc : endsAuthority c = false)
    (hcs : ¬ ∀ d ∈ cs.dropWhile (isSeparator .special ·), endsAuthority d = false) (rest : List Char) :
    authorityOf (cs ++ c :: rest) = authorityOf cs := by
  rw [authorityOf, Trim.dropWhile_append_cons (isSeparator_of_endsAuthority hc), authorityOf, List.takeWhile_append,
    if_neg]
  intro hlength
  refine hcs fun d hd => ?_
  rw [← (List.takeWhile_prefix _).eq_of_length hlength] at hd
  have hkept := List.mem_takeWhile_imp hd
  rwa [Bool.not_eq_true'] at hkept

/-! ### The end of the host -/

theorem splitUserinfo_append (h : '@' ∉ ds) (cs : List Char) :
    (splitUserinfo (cs ++ ds)).2 = (splitUserinfo cs).2 ++ ds := by
  have hrev : '@' ∉ ds.reverse := by
    rw [List.mem_reverse]
    exact h
  show (cutAt '@' (cs ++ ds).reverse).1.reverse = (cutAt '@' cs.reverse).1.reverse ++ ds
  rw [List.reverse_append, cutAt_of_notMem hrev, List.reverse_append, List.reverse_reverse]

/-- A text without colons is the end of the port or of the host. -/
theorem splitPort_append (h : ':' ∉ ds) (inside : Bool) (cs : List Char) :
    (∃ port, (splitPort inside (cs ++ ds)).2 = some (port ++ ds)) ∨ splitPort inside (cs ++ ds) = (cs ++ ds, none) := by
  induction cs generalizing inside with
  | nil =>
      right
      show splitPort inside ds = (ds, none)
      induction ds generalizing inside with
      | nil => rfl
      | cons d ds ih =>
          rw [List.mem_cons, not_or] at h
          rw [splitPort, if_neg fun hd => h.1 hd.1.symm, ih h.2]
  | cons c cs ih =>
      rw [List.cons_append, splitPort]
      split
      · exact .inl ⟨cs, rfl⟩
      · rcases ih (if c = '[' then true else if c = ']' then false else inside) with ⟨port, hport⟩ | hhost
        · exact .inl ⟨port, hport⟩
        · right
          rw [hhost]

theorem parseDigits_eq_none (hc : c ∈ cs) (hdigit : c.isDigit = false) (acc : ℕ) : Text.parseDigits acc cs = none := by
  induction cs generalizing acc with
  | nil => cases hc
  | cons d cs ih =>
      rw [Text.parseDigits]
      rcases List.mem_cons.mp hc with rfl | hc
      · rw [if_neg (by rw [hdigit]; decide)]
      · rw [ih hc, ite_self]

/-- A port has digits only. -/
theorem parsePort_eq_none (hc : c ∈ cs) (hdigit : c.isDigit = false) (scheme : String) :
    parsePort scheme cs = none := by
  have hne : ¬ cs.isEmpty = true := by
    intro hnil
    rw [List.isEmpty_iff.mp hnil] at hc
    cases hc
  rw [parsePort, if_neg hne, parseDigits_eq_none hc hdigit]
  rfl

/-- **An authority that ends in a name has a host that ends in it.** -/
theorem suffix_of_parseAuthority (hH : H.KeepsNames) (hkind : kindOf scheme = .special)
    (hname : ∀ c ∈ name, c.isLower || c = '.') (hlast : name.getLast?.any Char.isLower) {a : Authority}
    (h : parseAuthority H scheme (cs ++ '.' :: name) = some a) : '.' :: name <:+ a.host := by
  have hno : ∀ c, (c.isLower || decide (c = '.')) = false → c ∉ '.' :: name := by
    intro c hc hmem
    rcases List.mem_cons.mp hmem with rfl | hmem
    · exact absurd hc (by decide)
    · have := hname c hmem
      rw [hc] at this
      cases this
  rw [parseAuthority] at h
  simp only [hkind, splitUserinfo_append (hno '@' (by decide))] at h
  split at h
  · cases h
  · obtain ⟨host, hhost, hrest⟩ := Option.bind_eq_some_iff.mp h
    obtain ⟨port, hport, rfl⟩ := Option.map_eq_some_iff.mp hrest
    rcases splitPort_append (hno ':' (by decide)) false (splitUserinfo cs).2 with ⟨text, htext⟩ | hself
    · -- the name would be the port
      rw [htext, Option.getD_some,
        parsePort_eq_none (List.mem_append_right text List.mem_cons_self) (by decide)] at hport
      cases hport
    · rw [hself, HostParser.parse, if_neg (by simp), if_pos (by decide)] at hhost
      exact hH.suffix hname hlast hhost

end

end Url

end IcebergDb
