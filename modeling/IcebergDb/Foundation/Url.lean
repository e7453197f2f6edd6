import IcebergDb.Foundation.Trim
import IcebergDb.Foundation.UrlPath

/-!
# URLs

The parser and the setters of the URL Standard, without a base URL.  A text is cleaned, the fragment and the
query are cut off, and what is left is a scheme, an authority and a path; the host parser for special schemes is a
parameter, because domains go through Unicode processing.

* `Url.parse`, `Url.setPath`, `Url.setHost` — the parser, and the setters of the path and the host;
* `Url.pathText`, `Url.hostText` — the path and the host as texts;
* `parse_authority` — the URL of a text that is written as scheme, host and path;
* `parse_query` — **a query that is written behind a URL is its query**;
* `Url.queryParam` — the value that a server reads from the query.
-/

namespace IcebergDb

open Percent

namespace Url

/-! ### Texts -/

/-- Cleaning, at the end of a text and inside it. -/
def cleanEnd (cs : List Char) : List Char := (cs.rdropWhile isC0OrSpace).filter (!isTabOrNewline ·)

/-- C0 controls and spaces are taken off at both ends, tabs and newlines everywhere. -/
def clean (cs : List Char) : List Char := cleanEnd (cs.dropWhile isC0OrSpace)

/-- What stands before and after the first occurrence of a character. -/
def cutAt (c : Char) (cs : List Char) : List Char × Option (List Char) :=
  (cs.takeWhile (· ≠ c),
    match cs.dropWhile (· ≠ c) with
    | [] => none
    | _ :: rest => some rest)

/-- A character of a scheme, after its first. -/
def isSchemeChar (c : Char) : Bool := c.isAlphanum || ['+', '-', '.'].contains c

/-- The scheme, and what follows the colon. -/
def splitScheme (cs : List Char) : Option (String × List Char) :=
  match cs.dropWhile isSchemeChar with
  | ':' :: rest =>
      if (cs.takeWhile isSchemeChar).head?.any Char.isAlpha then
        some (String.ofList ((cs.takeWhile isSchemeChar).map Char.toLower), rest)
      else none
  | _ => none

/-- The kind of a scheme. -/
def kindOf (scheme : String) : Kind :=
  if scheme = "file" then .file
  else if scheme ∈ ["ftp", "http", "https", "ws", "wss"] then .special
  else .other

/-- The default port. -/
def defaultPort (scheme : String) : Option ℕ :=
  if scheme = "ftp" then some 21
  else if scheme ∈ ["http", "ws"] then some 80
  else if scheme ∈ ["https", "wss"] then some 443
  else none

/-- The forbidden host code points. -/
def forbiddenHost (c : Char) : Bool :=
  [0x00, 0x09, 0x0A, 0x0D, 0x20, 0x23, 0x2F, 0x3A, 0x3C, 0x3E, 0x3F, 0x40, 0x5B, 0x5C, 0x5D, 0x5E, 0x7C].contains
    c.toNat

end Url

/-! ### Authorities -/

/-- How hosts are parsed: domains and addresses of special URLs, and addresses in brackets of the others. -/
structure HostParser where
  special : List Char → Option (List Char)
  ipv6 : List Char → Option (List Char)

/-- The host parser; an empty host is left to the caller. -/
def HostParser.parse (H : HostParser) (k : Url.Kind) (cs : List Char) : Option (List Char) :=
  if cs.isEmpty then some []
  else if k.isSpecial then H.special cs
  else if cs.head? = some '[' then H.ipv6 cs
  else if cs.any Url.forbiddenHost then none
  else some (percentEncode Url.c0Set cs)

/-- The last label of a host is a number, as in an IPv4 address. -/
def Url.endsInNumber (host : List Char) : Bool :=
  (host.splitOn '.').getLast?.any fun label => !label.isEmpty && label.all Char.isDigit

/-- What the standard says about hosts of special URLs: a host is parsed to itself and has no forbidden code
points, unless it is an address in brackets; one that ends in a number is an IPv4 address; and lower-case names
are left as they are, unless they are such an address. -/
structure HostParser.Standard (H : HostParser) : Prop where
  idempotent : ∀ {cs host}, H.special cs = some host → H.special host = some host
  forbidden : ∀ {cs host}, H.special cs = some host →
    host.head? = some '[' ∨ ∀ c ∈ host, Url.forbiddenHost c = false
  address : ∀ {cs host}, H.special cs = some host → Url.endsInNumber host = true → (host.splitOn '.').length = 4
  name : ∀ {cs host}, (∀ c ∈ cs, c.isLower || c.isDigit || c = '-' || c = '.') →
    H.special cs = some host → host = cs ∨ Url.endsInNumber host = true

/-- Where a URL points to. -/
structure Authority where
  username : List Char
  password : List Char
  host : List Char
  port : Option ℕ

namespace Url

/-- What stands before the last `@`, and after it. -/
def splitUserinfo (cs : List Char) : Option (List Char) × List Char :=
  let cut := cutAt '@' cs.reverse
  (cut.2.map List.reverse, cut.1.reverse)

/-- The host, and what follows the first colon outside of brackets. -/
def splitPort (inside : Bool) : List Char → List Char × Option (List Char)
  | [] => ([], none)
  | c :: cs =>
      if c = ':' ∧ inside = false then ([], some cs)
      else
        let rest := splitPort (if c = '[' then true else if c = ']' then false else inside) cs
        (c :: rest.1, rest.2)

/-- The port; the default port is not kept. -/
def parsePort (scheme : String) (cs : List Char) : Option (Option ℕ) :=
  if cs.isEmpty then some none
  else do
    let port ← Text.parseDigits 0 cs
    if 65535 < port then none
    else return if defaultPort scheme = some port then none else some port

/-- The authority, host and port states. -/
def parseAuthority (H : HostParser) (scheme : String) (cs : List Char) : Option Authority :=
  let userinfo := splitUserinfo cs
  let host := splitPort false userinfo.2
  let credentials := cutAt ':' (userinfo.1.getD [])
  if host.1.isEmpty && ((kindOf scheme).isSpecial || userinfo.1.isSome || host.2.isSome) then none
  else
    (H.parse (kindOf scheme) host.1).bind fun parsed =>
      (parsePort scheme (host.2.getD [])).map fun port =>
        ⟨percentEncode userinfoSet credentials.1, percentEncode userinfoSet (credentials.2.getD []), parsed, port⟩

/-- A path is a list of segments, or any text after a scheme without a slash. -/
inductive Path
  | segments (path : List Segment)
  | text (cs : List Char)
  deriving DecidableEq

end Url

/-- A URL record. -/
structure Url where
  scheme : String
  username : List Char
  password : List Char
  host : Option (List Char)
  port : Option ℕ
  path : Url.Path
  query : Option (List Char)
  fragment : Option (List Char)
  deriving DecidableEq

namespace Url

/-- The kind of the scheme. -/
def kind (u : Url) : Kind := kindOf u.scheme

/-- A URL without credentials and port. -/
def plain (scheme : String) (host : Option (List Char)) (path : Path) : Url :=
  ⟨scheme, [], [], host, none, path, none, none⟩

/-- The path. -/
def pathText (u : Url) : List Char :=
  match u.path with
  | .segments path => joinPath path
  | .text cs => cs

/-- The host, if it is not empty. -/
def hostText (u : Url) : Option (List Char) := u.host.filter (· ≠ [])

/-! ### The parser -/

/-- From the authority state on. -/
def parseHierarchy (H : HostParser) (scheme : String) (cs : List Char) : Option Url :=
  let isEnd := isSeparator (kindOf scheme)
  (parseAuthority H scheme (cs.takeWhile (!isEnd ·))).map fun authority =>
    ⟨scheme, authority.username, authority.password, some authority.host, authority.port,
      .segments (pathStart (kindOf scheme) (cs.dropWhile (!isEnd ·))), none, none⟩

/-- The file host state. -/
def parseFileHost (H : HostParser) (cs : List Char) : Option Url :=
  let buffer := cs.takeWhile (!isSeparator .file ·)
  if isDriveLetter buffer then some (plain "file" (some []) (.segments (pathState .file cs)))
  else
    (H.parse .file buffer).map fun host =>
      plain "file" (some (if host = "localhost".toList then [] else host))
        (.segments (pathStart .file (cs.dropWhile (!isSeparator .file ·))))

/-- The file state. -/
def parseFile (H : HostParser) (cs : List Char) : Option Url :=
  match cs with
  | c :: d :: rest =>
      if isSeparator .file c then
        if isSeparator .file d then parseFileHost H rest
        else some (plain "file" (some []) (.segments (pathState .file (d :: rest))))
      else some (plain "file" (some []) (.segments (pathState .file cs)))
  | cs => some (plain "file" (some [])
      (.segments (pathState .file (cs.dropWhile (isSeparator .file ·)))))

/-- What follows the scheme. -/
def parseAfterScheme (H : HostParser) (scheme : String) (rest : List Char) : Option Url :=
  match kindOf scheme, rest with
  | .special, rest => parseHierarchy H scheme (rest.dropWhile (isSeparator .special ·))
  | .file, rest => parseFile H rest
  | .other, '/' :: '/' :: rest => parseHierarchy H scheme rest
  | .other, '/' :: rest => some (plain scheme none (.segments (pathState .other rest)))
  | .other, rest => some (plain scheme none (.text (percentEncode c0Set rest)))

/-- What stands before the query and the fragment. -/
def parseHead (H : HostParser) (cs : List Char) : Option Url :=
  (splitScheme cs).bind fun cut => parseAfterScheme H cut.1 cut.2

/-- The query percent-encode set of a kind. -/
def querySetOf (k : Kind) : Char → Bool := if k.isSpecial then specialQuerySet else querySet

/-- The parser. -/
def parse (H : HostParser) (cs : List Char) : Option Url :=
  let fragment := cutAt '#' (clean cs)
  let query := cutAt '?' fragment.1
  (parseHead H query.1).map fun u =>
    { u with
      query := query.2.map (percentEncode (querySetOf u.kind))
      fragment := fragment.2.map (percentEncode fragmentSet) }

/-! ### The setters -/

/-- The setter of the path: `?` and `#` belong to it. -/
def setPath (u : Url) (cs : List Char) : Url :=
  match u.path with
  | .text _ => u
  | .segments _ =>
      let cs := cs.filter (!isTabOrNewline ·)
      { u with path := .segments (if cs.isEmpty && u.host.isNone then [[]] else pathStart u.kind cs) }

/-- The setter of the host, which is taken up to a colon. -/
def setHost (H : HostParser) (u : Url) (cs : List Char) : Option Url :=
  match u.path with
  | .text _ => none
  | .segments _ =>
      let text := splitPort false cs
      if text.1.isEmpty && (u.kind = .special || text.2.isSome) then none
      else
        (H.parse u.kind text.1).map fun host =>
          { u with host := some (if u.kind = .file ∧ host = "localhost".toList then [] else host) }

/-! ### Queries -/

/-- The first parameter of a name in a query, as a server reads it. -/
def queryParam (name : List UInt8) (query : List Char) : Option (List UInt8) :=
  (query.splitOn '&').findSome? fun field =>
    let cut := cutAt '=' field
    if percentDecode cut.1 = name then some (percentDecode (cut.2.getD [])) else none

/-! ### Cutting and cleaning -/

section

variable {c : Char} {cs ds : List Char}

theorem cutAt_of_notMem (h : c ∉ cs) (ds : List Char) :
    cutAt c (cs ++ ds) = (cs ++ (cutAt c ds).1, (cutAt c ds).2) := by
  have hne : ∀ d ∈ cs, decide (d ≠ c) = true := by
    intro d hd
    rw [decide_eq_true_eq]
    rintro rfl
    exact h hd
  unfold cutAt
  rw [List.takeWhile_append_of_pos hne, List.dropWhile_append_of_pos hne]

theorem cutAt_cons (c : Char) (cs : List Char) : cutAt c (c :: cs) = ([], some cs) := by
  unfold cutAt
  rw [List.takeWhile_cons_of_neg (by simp), List.dropWhile_cons_of_neg (by simp)]

theorem cutAt_eq_self (h : c ∉ cs) : cutAt c cs = (cs, none) := by
  have hcut := cutAt_of_notMem h []
  rw [List.append_nil] at hcut
  rw [hcut]
  exact Prod.ext (List.append_nil cs) rfl

/-- A text is cut at the first occurrence, whatever follows. -/
theorem cutAt_of_mem (h : c ∈ cs) :
    ∃ before after, ∀ ds, cutAt c (cs ++ ds) = (before, some (after ++ ds)) := by
  obtain ⟨before, after, rfl, hbefore⟩ := List.eq_append_cons_of_mem h
  refine ⟨before, after, fun ds => ?_⟩
  rw [List.append_assoc, cutAt_of_notMem hbefore, List.cons_append, cutAt_cons, List.append_nil]

/-- Whether there is something to cut off. -/
theorem cutAt_snd_eq_none_iff : (cutAt c cs).2 = none ↔ c ∉ cs := by
  constructor
  · intro hnone hmem
    obtain ⟨before, after, hcut⟩ := cutAt_of_mem hmem
    have hcs := hcut []
    rw [List.append_nil] at hcs
    rw [hcs] at hnone
    cases hnone
  · intro h
    rw [cutAt_eq_self h]

/-- What stands before is shorter, unless it is all. -/
theorem cutAt_fst_sublist (c : Char) (cs : List Char) : (cutAt c cs).1.Sublist cs :=
  List.takeWhile_sublist _

theorem notMem_of_cutAt_fst_eq (h : (cutAt c cs).1 = cs) : c ∉ cs := by
  intro hmem
  have hall : cs.takeWhile (· ≠ c) = cs := h
  have := List.takeWhile_eq_self_iff.mp hall c hmem
  simp at this

theorem rdropWhile_append_cons {p : Char → Bool} (hc : p c = false) (pre rest : List Char) :
    (pre ++ c :: rest).rdropWhile p = pre ++ c :: rest.rdropWhile p := by
  unfold List.rdropWhile
  rw [List.reverse_append, List.reverse_cons, List.append_assoc, List.singleton_append,
    Trim.dropWhile_append_cons hc, List.reverse_append, List.reverse_cons, List.reverse_reverse, List.append_assoc]
  rfl

/-- **A text is cleaned in two parts**, the second at its end only. -/
theorem clean_append (hc : isC0OrSpace c = false) (pre rest : List Char) :
    clean (pre ++ c :: rest) = clean (pre ++ [c]) ++ cleanEnd rest := by
  unfold clean cleanEnd
  rw [Trim.dropWhile_append_cons hc, Trim.dropWhile_append_cons hc, rdropWhile_append_cons hc,
    rdropWhile_append_cons hc, ← List.filter_append, List.append_assoc]
  rfl

theorem cleanEnd_sublist (cs : List Char) : (cleanEnd cs).Sublist cs :=
  List.filter_sublist.trans (List.rdropWhile_prefix _ cs).sublist

/-- Tabs and newlines are C0 controls. -/
theorem isC0OrSpace_of_isTabOrNewline (h : isTabOrNewline c = true) : isC0OrSpace c = true := by
  rw [isTabOrNewline, List.contains_iff_mem] at h
  simp only [List.mem_cons, List.not_mem_nil, or_false] at h
  rw [isC0OrSpace, decide_eq_true_eq]
  omega

theorem isTabOrNewline_eq_false (h : isC0OrSpace c = false) : isTabOrNewline c = false := by
  rw [Bool.eq_false_iff]
  intro htab
  rw [isC0OrSpace_of_isTabOrNewline htab] at h
  cases h

theorem filter_eq_self_of_noTabs (h : ∀ c ∈ cs, isTabOrNewline c = false) :
    cs.filter (!isTabOrNewline ·) = cs := by
  rw [List.filter_eq_self]
  intro c hc
  rw [h c hc]
  rfl

/-- **Before a character that is kept, a text without tabs and newlines is kept.** -/
theorem cleanEnd_append_cons (hcs : ∀ c ∈ cs, isTabOrNewline c = false) (hc : isC0OrSpace c = false)
    (rest : List Char) : cleanEnd (cs ++ c :: rest) = cs ++ c :: cleanEnd rest := by
  unfold cleanEnd
  rw [rdropWhile_append_cons hc, List.filter_append, filter_eq_self_of_noTabs hcs,
    List.filter_cons_of_pos (by rw [isTabOrNewline_eq_false hc]; rfl)]

/-- A text is cleaned up to two characters that are kept, and behind them. -/
theorem clean_append_cons (hc : isC0OrSpace c = false) {d : Char} (hd : isC0OrSpace d = false)
    (pre rest : List Char) : clean (pre ++ c :: d :: rest) = clean (pre ++ [c]) ++ d :: cleanEnd rest := by
  rw [clean_append hc]
  exact congrArg _ (cleanEnd_append_cons (fun _ hmem => absurd hmem List.not_mem_nil) hd rest)

/-- Nothing is dropped from the end. -/
theorem rdropWhile_eq_self_iff : cs.rdropWhile isC0OrSpace = cs ↔ ∀ c ∈ cs.getLast?, isC0OrSpace c = false := by
  rw [List.rdropWhile_eq_self_iff]
  constructor
  · intro h c hc
    have hne : cs ≠ [] := by
      rintro rfl
      cases hc
    rw [List.getLast?_eq_getLast_of_ne_nil hne] at hc
    obtain rfl := Option.some.inj hc
    exact Bool.not_eq_true _ ▸ h hne
  · intro h hne
    rw [Bool.not_eq_true]
    exact h _ (List.getLast?_eq_getLast_of_ne_nil hne)

/-- What has nothing to clean. -/
theorem cleanEnd_eq_self_iff : cleanEnd cs = cs ↔
    (∀ c ∈ cs, isTabOrNewline c = false) ∧ ∀ c ∈ cs.getLast?, isC0OrSpace c = false := by
  have hprefix := List.rdropWhile_prefix isC0OrSpace cs
  constructor
  · intro h
    have hlength := congrArg List.length h
    have hdrop : cs.rdropWhile isC0OrSpace = cs := by
      refine hprefix.eq_of_length (le_antisymm hprefix.length_le ?_)
      rw [← hlength]
      exact List.length_filter_le _ _
    refine ⟨?_, rdropWhile_eq_self_iff.mp hdrop⟩
    rw [cleanEnd, hdrop, List.filter_eq_self] at h
    intro c hc
    have := h c hc
    rwa [Bool.not_eq_true'] at this
  · intro ⟨htabs, hlast⟩
    rw [cleanEnd, rdropWhile_eq_self_iff.mpr hlast, filter_eq_self_of_noTabs htabs]

end

/-! ### Reading a URL -/

section

variable {H : HostParser} {scheme : String} {host cs : List Char}

/-- A scheme is read up to its colon. -/
theorem splitScheme_append {s : List Char} (hfirst : s.head?.any Char.isAlpha = true)
    (hs : ∀ c ∈ s, isSchemeChar c = true) (rest : List Char) :
    splitScheme (s ++ ':' :: rest) = some (String.ofList (s.map Char.toLower), rest) := by
  unfold splitScheme
  rw [List.dropWhile_append_of_pos hs, List.takeWhile_append_of_pos hs, List.dropWhile_cons_of_neg (by decide),
    List.takeWhile_cons_of_neg (by decide), List.append_nil]
  exact if_pos hfirst

/-- A text without colons and brackets has no port. -/
theorem splitPort_eq_self (hcolon : ':' ∉ cs) (hbracket : '[' ∉ cs) : splitPort false cs = (cs, none) := by
  induction cs with
  | nil => rfl
  | cons c cs ih =>
      rw [List.mem_cons, not_or] at hcolon hbracket
      rw [splitPort, if_neg fun h => hcolon.1 h.1.symm, if_neg (Ne.symm hbracket.1), ite_self,
        ih hcolon.2 hbracket.2]

/-- A plain host is the whole authority. -/
theorem parseAuthority_plain (hne : host ≠ []) (hhost : ∀ c ∈ host, forbiddenHost c = false) :
    parseAuthority H scheme host = (H.parse (kindOf scheme) host).map (⟨[], [], ·, none⟩) := by
  have hno : ∀ c, forbiddenHost c = true → c ∉ host := by
    intro c hc hmem
    rw [hhost c hmem] at hc
    cases hc
  have huser : splitUserinfo host = (none, host) := by
    have hat : '@' ∉ host.reverse := by
      rw [List.mem_reverse]
      exact hno '@' (by decide)
    show ((cutAt '@' host.reverse).2.map List.reverse, (cutAt '@' host.reverse).1.reverse) = _
    rw [cutAt_eq_self hat, List.reverse_reverse]
    rfl
  have hempty : host.isEmpty = false := by
    rw [List.isEmpty_eq_false_iff]
    exact hne
  unfold parseAuthority
  rw [huser]
  simp only [splitPort_eq_self (hno ':' (by decide)) (hno '[' (by decide)), hempty, Bool.false_and,
    Option.getD_none]
  show ((H.parse (kindOf scheme) host).bind fun parsed => some (⟨[], [], parsed, none⟩ : Authority)) = _
  cases H.parse (kindOf scheme) host with
  | none => rfl
  | some h => rfl

/-- Scheme characters are neither space nor control. -/
theorem lt_of_isSchemeChar {c : Char} (h : isSchemeChar c = true) : 0x20 < c.toNat := by
  by_contra hle
  have hall : ∀ n < 0x21, isSchemeChar (Char.ofNat n) = false := by decide
  have := hall c.toNat (by omega)
  rw [Char.ofNat_toNat, h] at this
  cases this

/-- Host characters neither separate nor are cleaned. -/
theorem of_forbiddenHost {c : Char} (h : forbiddenHost c = false) (k : Kind) :
    isSeparator k c = false ∧ isTabOrNewline c = false ∧ c ≠ '?' ∧ c ≠ '#' := by
  have hne : ∀ d, forbiddenHost d = true → c ≠ d := by
    rintro d hd rfl
    rw [h] at hd
    cases hd
  refine ⟨isSeparator_eq_false_iff.mpr ⟨hne '/' (by decide), fun _ => hne '\\' (by decide)⟩, ?_,
    hne '?' (by decide), hne '#' (by decide)⟩
  rw [Bool.eq_false_iff]
  intro htab
  rw [isTabOrNewline, List.contains_iff_mem] at htab
  rw [forbiddenHost, Bool.eq_false_iff, ne_eq, List.contains_iff_mem] at h
  refine h ?_
  simp only [List.mem_cons, List.not_mem_nil, or_false] at htab ⊢
  omega

/-- A plain host and a path. -/
theorem parseHierarchy_plain (hne : host ≠ []) (hhost : ∀ c ∈ host, forbiddenHost c = false) (path : List Char) :
    parseHierarchy H scheme (host ++ '/' :: path) = (H.parse (kindOf scheme) host).map fun h =>
      plain scheme (some h) (.segments (pathState (kindOf scheme) path)) := by
  have hend : ∀ c ∈ host, (!isSeparator (kindOf scheme) c) = true := by
    intro c hc
    rw [(of_forbiddenHost (hhost c hc) (kindOf scheme)).1]
    rfl
  unfold parseHierarchy
  simp only [List.takeWhile_append_of_pos hend, List.dropWhile_append_of_pos hend, isSeparator_slash,
    Bool.not_true, Bool.false_eq_true, not_false_eq_true, List.takeWhile_cons_of_neg,
    List.dropWhile_cons_of_neg, List.append_nil, parseAuthority_plain hne hhost, Option.map_map]
  rfl

variable {s : List Char}

/-- A text after a scheme is cleaned at its end, and cut. -/
theorem parse_scheme (hfirst : s.head?.any Char.isAlpha = true) (hs : ∀ c ∈ s, isSchemeChar c = true)
    (hscheme : String.ofList (s.map Char.toLower) = scheme) (rest : List Char) :
    parse H (s ++ ':' :: rest) =
      (parseAfterScheme H scheme (cutAt '?' (cutAt '#' (cleanEnd rest)).1).1).map fun u => { u with
        query := (cutAt '?' (cutAt '#' (cleanEnd rest)).1).2.map (percentEncode (querySetOf u.kind))
        fragment := (cutAt '#' (cleanEnd rest)).2.map (percentEncode fragmentSet) } := by
  have hne : ∀ c, isSchemeChar c = false → c ≠ ':' → c ∉ s ++ [':'] := by
    intro c hc hcolon hmem
    rcases List.mem_append.mp hmem with hmem | hmem
    · rw [hs c hmem] at hc
      cases hc
    · exact hcolon (List.mem_singleton.mp hmem)
  have hclean : clean (s ++ ':' :: rest) = (s ++ [':']) ++ cleanEnd rest := by
    rw [clean_append (by decide)]
    refine congrArg (· ++ cleanEnd rest) ?_
    cases s with
    | nil => cases hfirst
    | cons first others =>
        have hlt := lt_of_isSchemeChar (hs first List.mem_cons_self)
        unfold clean
        rw [List.cons_append, List.dropWhile_cons_of_neg (by simp [isC0OrSpace]; omega), ← List.cons_append,
          cleanEnd_eq_self_iff]
        constructor
        · intro c hc
          rw [isTabOrNewline, Bool.eq_false_iff, ne_eq, List.contains_iff_mem]
          simp only [List.mem_cons, List.not_mem_nil, or_false]
          rcases List.mem_append.mp hc with hc | hc
          · have := lt_of_isSchemeChar (hs c hc)
            omega
          · obtain rfl := List.mem_singleton.mp hc
            decide
        · intro c hc
          rw [List.getLast?_concat] at hc
          obtain rfl := Option.some.inj hc
          decide
  have hhead : ∀ tail, parseHead H ((s ++ [':']) ++ tail) = parseAfterScheme H scheme tail := by
    intro tail
    unfold parseHead
    rw [List.append_assoc, List.singleton_append, splitScheme_append hfirst hs, hscheme]
    rfl
  unfold parse
  simp only [hclean, cutAt_of_notMem (hne '#' (by decide) (by decide)),
    cutAt_of_notMem (hne '?' (by decide) (by decide)), hhead]

/-- **The URL of a scheme, a host and a path.** -/
theorem parse_authority (hfirst : s.head?.any Char.isAlpha = true) (hs : ∀ c ∈ s, isSchemeChar c = true)
    (hscheme : String.ofList (s.map Char.toLower) = scheme) (hkind : kindOf scheme ≠ .file)
    (hne : host ≠ []) (hhost : ∀ c ∈ host, forbiddenHost c = false) (rest : List Char) :
    parse H (s ++ ':' :: '/' :: '/' :: (host ++ '/' :: rest)) =
      (H.parse (kindOf scheme) host).map fun h =>
        { plain scheme (some h)
            (.segments (pathState (kindOf scheme) (cutAt '?' (cutAt '#' (cleanEnd rest)).1).1)) with
          query := (cutAt '?' (cutAt '#' (cleanEnd rest)).1).2.map (percentEncode (querySetOf (kindOf scheme)))
          fragment := (cutAt '#' (cleanEnd rest)).2.map (percentEncode fragmentSet) } := by
  have hpre : ∀ c ∈ '/' :: '/' :: (host ++ ['/']), isTabOrNewline c = false ∧ c ≠ '?' ∧ c ≠ '#' := by
    intro c hc
    simp only [List.mem_append, List.mem_cons, List.not_mem_nil, or_false] at hc
    rcases hc with rfl | rfl | hc | rfl
    · decide
    · decide
    · exact (of_forbiddenHost (hhost c hc) .other).2
    · decide
  have hclean : cleanEnd ('/' :: '/' :: (host ++ '/' :: rest)) = ('/' :: '/' :: (host ++ ['/'])) ++ cleanEnd rest := by
    have hkept : ∀ c ∈ '/' :: '/' :: host, isTabOrNewline c = false := by
      intro c hc
      refine (hpre c ?_).1
      rw [← List.cons_append, ← List.cons_append]
      exact List.mem_append_left ['/'] hc
    have happend := cleanEnd_append_cons hkept (c := '/') (by decide) rest
    simp only [List.cons_append, List.append_assoc, List.nil_append] at happend ⊢
    exact happend
  have hafter : ∀ path, parseAfterScheme H scheme (('/' :: '/' :: (host ++ ['/'])) ++ path) =
      (H.parse (kindOf scheme) host).map fun h =>
        plain scheme (some h) (.segments (pathState (kindOf scheme) path)) := by
    intro path
    have htext : ('/' :: '/' :: (host ++ ['/'])) ++ path = '/' :: '/' :: (host ++ '/' :: path) := by simp
    rw [htext, ← parseHierarchy_plain hne hhost path]
    obtain ⟨first, others, rfl⟩ := List.exists_cons_of_ne_nil hne
    unfold parseAfterScheme
    cases hk : kindOf scheme with
    | special =>
        -- the slashes are skipped, up to the host
        have hsep := (of_forbiddenHost (hhost first List.mem_cons_self) .special).1
        simp only [List.cons_append]
        rw [List.dropWhile_cons_of_pos (isSeparator_slash _), List.dropWhile_cons_of_pos (isSeparator_slash _),
          List.dropWhile_cons_of_neg (by rw [hsep]; decide)]
    | file => exact absurd hk hkind
    | other => rfl
  rw [parse_scheme hfirst hs hscheme, hclean]
  simp only [cutAt_of_notMem fun h => (hpre _ h).2.2 rfl, cutAt_of_notMem fun h => (hpre _ h).2.1 rfl, hafter,
    Option.map_map]
  rfl

/-! ### What every URL has -/

/-- What every URL has that was read: its path is normalized, and a host, which is one that the host parser
gives, comes with segments. -/
structure WellFormed (H : HostParser) (u : Url) : Prop where
  path : ∀ path, u.path = .segments path → Normalized u.kind path
  host : ∀ host, u.hostText = some host →
    (∃ path, u.path = .segments path) ∧ (u.kind.isSpecial = true → ∃ cs, H.special cs = some host)

variable {u : Url} {path : List Segment}

/-- A host that the host parser gives for a special scheme. -/
theorem special_of_hostParse {k : Kind} {h : List Char} (hparse : H.parse k cs = some h) (hne : h ≠ [])
    (hk : k.isSpecial = true) : ∃ cs, H.special cs = some h := by
  unfold HostParser.parse at hparse
  split at hparse
  · exact absurd (Option.some.inj hparse).symm hne
  · exact ⟨cs, hparse⟩

theorem hostText_eq_some (h : u.hostText = some host) : u.host = some host ∧ host ≠ [] := by
  rw [hostText, Option.filter_eq_some_iff, decide_eq_true_eq] at h
  exact h

/-- A URL without credentials is well-formed if its path and host are. -/
theorem wellFormed_plain (hpath : Normalized (kindOf scheme) path) (host : Option (List Char))
    (hhost : ∀ h, host = some h → h ≠ [] → (kindOf scheme).isSpecial = true → ∃ cs, H.special cs = some h) :
    WellFormed H (plain scheme host (.segments path)) := by
  refine ⟨fun path' heq => ?_, fun h hh => ⟨⟨path, rfl⟩, ?_⟩⟩
  · obtain rfl : path = path' := Path.segments.inj heq
    exact hpath
  · obtain ⟨hsome, hne⟩ := hostText_eq_some hh
    exact hhost h hsome hne

theorem wellFormed_of_parseHierarchy (h : parseHierarchy H scheme cs = some u) : WellFormed H u := by
  obtain ⟨authority, hauthority, rfl⟩ := Option.map_eq_some_iff.mp h
  refine ⟨fun path hpath => ?_, fun host hh => ⟨⟨_, rfl⟩, fun hk => ?_⟩⟩
  · obtain rfl := Path.segments.inj hpath
    exact normalized_pathStart _ _
  · obtain ⟨hsome, hne⟩ := hostText_eq_some hh
    obtain rfl := Option.some.inj hsome
    unfold parseAuthority at hauthority
    simp only at hauthority
    split at hauthority
    · cases hauthority
    · obtain ⟨parsed, hparsed, hrest⟩ := Option.bind_eq_some_iff.mp hauthority
      obtain ⟨port, -, rfl⟩ := Option.map_eq_some_iff.mp hrest
      exact special_of_hostParse hparsed hne hk

theorem wellFormed_of_parseFileHost (h : parseFileHost H cs = some u) : WellFormed H u := by
  simp only [parseFileHost] at h
  split at h
  · obtain rfl := Option.some.inj h
    refine wellFormed_plain (normalized_pathState _ _) _ fun host hsome hne => ?_
    exact absurd (Option.some.inj hsome).symm hne
  · obtain ⟨parsed, hparsed, rfl⟩ := Option.map_eq_some_iff.mp h
    refine wellFormed_plain (normalized_pathStart _ _) _ fun host hsome hne hk => ?_
    obtain rfl := Option.some.inj hsome
    split at hne
    · exact absurd rfl hne
    · rename_i hlocal
      rw [if_neg hlocal]
      exact special_of_hostParse hparsed hne hk

theorem wellFormed_of_parseFile (h : parseFile H cs = some u) : WellFormed H u := by
  have hplain : ∀ path : List Char, WellFormed H (plain "file" (some []) (.segments (pathState .file path))) := by
    intro path
    refine wellFormed_plain (normalized_pathState _ _) _ fun host hsome hne => ?_
    exact absurd (Option.some.inj hsome).symm hne
  unfold parseFile at h
  split at h
  · split at h
    · split at h
      · exact wellFormed_of_parseFileHost h
      · obtain rfl := Option.some.inj h
        exact hplain _
    · obtain rfl := Option.some.inj h
      exact hplain _
  · obtain rfl := Option.some.inj h
    exact hplain _

theorem wellFormed_of_parseAfterScheme (h : parseAfterScheme H scheme cs = some u) : WellFormed H u := by
  unfold parseAfterScheme at h
  split at h
  · exact wellFormed_of_parseHierarchy h
  · exact wellFormed_of_parseFile h
  · exact wellFormed_of_parseHierarchy h
  · rename_i hkind
    obtain rfl := Option.some.inj h
    refine wellFormed_plain ?_ _ nofun
    rw [hkind]
    exact normalized_pathState _ _
  · obtain rfl := Option.some.inj h
    exact ⟨nofun, nofun⟩

/-- **Every URL that was read is well-formed.** -/
theorem wellFormed_of_parse (h : parse H cs = some u) : WellFormed H u := by
  obtain ⟨head, hhead, rfl⟩ := Option.map_eq_some_iff.mp h
  obtain ⟨cut, -, hafter⟩ := Option.bind_eq_some_iff.mp hhead
  obtain ⟨hpath, hhost⟩ := wellFormed_of_parseAfterScheme hafter
  exact ⟨hpath, hhost⟩

/-- The scheme is the one that is written. -/
theorem scheme_of_parse (hfirst : s.head?.any Char.isAlpha = true) (hs : ∀ c ∈ s, isSchemeChar c = true)
    (hscheme : String.ofList (s.map Char.toLower) = scheme) (hkind : kindOf scheme = .special) {rest : List Char}
    (h : parse H (s ++ ':' :: rest) = some u) : u.scheme = scheme := by
  rw [parse_scheme hfirst hs hscheme] at h
  obtain ⟨after, hafter, rfl⟩ := Option.map_eq_some_iff.mp h
  unfold parseAfterScheme at hafter
  rw [hkind] at hafter
  obtain ⟨authority, -, rfl⟩ := Option.map_eq_some_iff.mp hafter
  rfl

@[simp] theorem hostText_setPath (u : Url) (cs : List Char) : (u.setPath cs).hostText = u.hostText := by
  unfold setPath
  split
  · rfl
  · rfl

/-- The host that is set is the one that is parsed. -/
theorem parse_of_setHost {v : Url} (hne : cs ≠ []) (hplain : ∀ c ∈ cs, forbiddenHost c = false)
    (h : u.setHost H cs = some v) (hhost : v.hostText = some host) : H.parse u.kind cs = some host := by
  have hno : ∀ c, forbiddenHost c = true → c ∉ cs := by
    intro c hc hmem
    rw [hplain c hmem] at hc
    cases hc
  unfold setHost at h
  split at h
  · cases h
  · simp only [splitPort_eq_self (hno ':' (by decide)) (hno '[' (by decide))] at h
    rw [if_neg (by simp [hne])] at h
    obtain ⟨parsed, hparsed, rfl⟩ := Option.map_eq_some_iff.mp h
    obtain ⟨hsome, hnonempty⟩ := hostText_eq_some hhost
    have hset := Option.some.inj hsome
    split at hset
    · exact absurd hset.symm hnonempty
    · rw [hparsed, hset]

/-! ### Queries -/

theorem querySetOf_leavesTriplets (k : Kind) : LeavesTriplets (querySetOf k) := by
  unfold querySetOf
  split
  · exact specialQuerySet_leavesTriplets
  · exact querySet_leavesTriplets

/-- **What is written behind a URL is the rest of its query**, up to a `#`. -/
theorem parse_query {c : Char} (hc : isC0OrSpace c = false) {pre : List Char}
    (hu : parse H (pre ++ [c]) = some u) (hfragment : u.fragment = none) (q : List Char) :
    parse H (pre ++ c :: '?' :: q) = some { u with
      query := some ((u.query.map (· ++ ['?'])).getD [] ++
        percentEncode (querySetOf u.kind) (cutAt '#' (cleanEnd q)).1)
      fragment := (cutAt '#' (cleanEnd q)).2.map (percentEncode fragmentSet) } := by
  obtain ⟨head, hhead, rfl⟩ := Option.map_eq_some_iff.mp hu
  have hhash : '#' ∉ clean (pre ++ [c]) := cutAt_snd_eq_none_iff.mp (Option.map_eq_none_iff.mp hfragment)
  rw [cutAt_eq_self hhash] at hhead
  have hcut : cutAt '#' (clean (pre ++ [c]) ++ '?' :: cleanEnd q) =
      (clean (pre ++ [c]) ++ '?' :: (cutAt '#' (cleanEnd q)).1, (cutAt '#' (cleanEnd q)).2) := by
    have hno : '#' ∉ clean (pre ++ [c]) ++ ['?'] := by
      rw [List.mem_append, not_or]
      exact ⟨hhash, by decide⟩
    have happend := cutAt_of_notMem hno (cleanEnd q)
    rw [List.append_assoc, List.append_assoc] at happend
    exact happend
  unfold parse
  simp only [clean_append_cons hc (show isC0OrSpace '?' = false by decide), hcut]
  by_cases hquestion : '?' ∈ clean (pre ++ [c])
  · -- there is a query already
    obtain ⟨before, after, hmem⟩ := cutAt_of_mem hquestion
    have hself := hmem []
    rw [List.append_nil, List.append_nil] at hself
    simp only [hself] at hhead
    -- `?` belongs to a query
    have hencode : ∀ (k : Kind) (q : List Char), percentEncode (querySetOf k) (after ++ '?' :: q) =
        (percentEncode (querySetOf k) after ++ ['?']) ++ percentEncode (querySetOf k) q := by
      intro k q
      rw [percentEncode_append, percentEncode_cons_of_false (by cases k <;> decide), List.append_assoc]
      rfl
    simp only [hmem, hhead, cutAt_eq_self hhash, hself, Option.map_some, Option.getD_some, hencode]
    rfl
  · simp only [cutAt_eq_self hquestion] at hhead
    simp only [cutAt_of_notMem hquestion, cutAt_cons, List.append_nil, hhead, cutAt_eq_self hhash,
      cutAt_eq_self hquestion, Option.map_some, Option.map_none, Option.getD_none, List.nil_append]
    rfl

/-- Behind a fragment there is no query. -/
theorem parse_query_of_fragment {c : Char} (hc : isC0OrSpace c = false) {pre : List Char}
    (hu : parse H (pre ++ [c]) = some u) (hfragment : u.fragment ≠ none) (q : List Char) :
    ∃ fragment, parse H (pre ++ c :: '?' :: q) = some { u with fragment := fragment } := by
  obtain ⟨head, hhead, rfl⟩ := Option.map_eq_some_iff.mp hu
  have hhash : '#' ∈ clean (pre ++ [c]) := by
    by_contra hno
    rw [cutAt_eq_self hno] at hfragment
    exact hfragment rfl
  obtain ⟨before, after, hmem⟩ := cutAt_of_mem hhash
  have hself := hmem []
  rw [List.append_nil, List.append_nil] at hself
  rw [hself] at hhead
  unfold parse
  simp only [clean_append_cons hc (show isC0OrSpace '?' = false by decide), hmem, hhead, hself]
  exact ⟨_, rfl⟩

end

end Url

end IcebergDb
