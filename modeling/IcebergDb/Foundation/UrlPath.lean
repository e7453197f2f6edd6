import IcebergDb.Foundation.PercentEncoding
import Mathlib.Algebra.Order.Group.Nat
import Mathlib.Data.List.DropRight

/-!
# The path of a URL

The path state of the URL Standard: a text is cut into segments, `.` and `..` are carried out, and what is left
is percent-encoded.

* `foldPath`, `pathState`, `pathStart` — the path state, as a fold over the segments;
* `decodedPath` — the bytes that a path stands for;
* `foldPath_of_noDots`, `length_foldPath` — without dot segments the path is the segments, and with them it
  stands for fewer bytes;
* `decodedPath_splitOnP_iff` — the segments stand for the bytes of the text exactly when all separators are
  slashes;
* `Normalized` — what every path has that was read, so that it is read again as it is
  (`Normalized.foldPath_append`).
-/

namespace IcebergDb.Url

open Percent Utf8

/-! ### Sets of characters -/

/-- C0 controls and the space. -/
def isC0OrSpace (c : Char) : Bool := decide (c.toNat ≤ 0x20)

/-- Tab, line feed and carriage return. -/
def isTabOrNewline (c : Char) : Bool := [0x09, 0x0A, 0x0D].contains c.toNat

/-- The C0 control percent-encode set. -/
def c0Set (c : Char) : Bool := decide (c.toNat ≤ 0x1F) || decide (0x7E < c.toNat)

/-- The fragment percent-encode set. -/
def fragmentSet (c : Char) : Bool := c0Set c || [0x20, 0x22, 0x3C, 0x3E, 0x60].contains c.toNat

/-- The query percent-encode set. -/
def querySet (c : Char) : Bool := c0Set c || [0x20, 0x22, 0x23, 0x3C, 0x3E].contains c.toNat

/-- The special-query percent-encode set. -/
def specialQuerySet (c : Char) : Bool := querySet c || c.toNat == 0x27

/-- The path percent-encode set. -/
def pathSet (c : Char) : Bool := querySet c || [0x3F, 0x5E, 0x60, 0x7B, 0x7D].contains c.toNat

/-- The userinfo percent-encode set. -/
def userinfoSet (c : Char) : Bool :=
  pathSet c || [0x2F, 0x3A, 0x3B, 0x3D, 0x40, 0x5B, 0x5C, 0x5D, 0x7C].contains c.toNat

/-- Digits are ASCII. -/
theorem toNat_of_isHex {c : Char} (h : isHex c = true) : c.toNat ≤ 102 := by
  unfold isHex hexValue at h
  split at h
  · rename_i hc
    exact le_trans (UInt32.le_iff_toNat_le.mp hc.2) (by decide)
  · split at h
    · rename_i hc
      exact UInt32.le_iff_toNat_le.mp hc.2
    · split at h
      · rename_i hc
        exact le_trans (UInt32.le_iff_toNat_le.mp hc.2) (by decide)
      · cases h

/-- A set leaves triplets alone if its ASCII characters do. -/
theorem leavesTriplets_of_ascii {set : Char → Bool}
    (h : ∀ n < 128, set (Char.ofNat n) = true → Char.ofNat n ≠ '%' ∧ isHex (Char.ofNat n) = false) :
    LeavesTriplets set := by
  intro c hc
  by_cases hascii : c.toNat < 128
  · rw [← Char.ofNat_toNat c] at hc ⊢
    exact h c.toNat hascii hc
  · refine ⟨?_, ?_⟩
    · rintro rfl
      exact hascii (by decide)
    · rw [Bool.eq_false_iff]
      intro hhex
      have := toNat_of_isHex hhex
      omega

theorem pathSet_leavesTriplets : LeavesTriplets pathSet := leavesTriplets_of_ascii (by decide)

theorem querySet_leavesTriplets : LeavesTriplets querySet := leavesTriplets_of_ascii (by decide)

theorem specialQuerySet_leavesTriplets : LeavesTriplets specialQuerySet := leavesTriplets_of_ascii (by decide)

/-- A character that the path keeps is no space, no control, no `?` and no `#`. -/
theorem of_pathSet_eq_false {c : Char} (h : pathSet c = false) :
    isC0OrSpace c = false ∧ isTabOrNewline c = false ∧ c ≠ '?' ∧ c ≠ '#' := by
  simp only [pathSet, querySet, c0Set, Bool.or_eq_false_iff, decide_eq_false_iff_not, List.contains_eq_mem,
    List.mem_cons, List.not_mem_nil, or_false] at h
  refine ⟨?_, ?_, ?_, ?_⟩
  · rw [isC0OrSpace, decide_eq_false_iff_not]
    omega
  · rw [isTabOrNewline, List.contains_eq_mem, decide_eq_false_iff_not]
    simp only [List.mem_cons, List.not_mem_nil, or_false]
    omega
  · rintro rfl
    exact h.2 (by decide)
  · rintro rfl
    exact h.1.2 (by decide)

/-! ### Segments -/

/-- What the rules for a scheme depend on. -/
inductive Kind
  /-- `ftp`, `http`, `https`, `ws` and `wss`. -/
  | special
  | file
  | other
  deriving DecidableEq

/-- The scheme is special. -/
def Kind.isSpecial : Kind → Bool
  | .other => false
  | _ => true

/-- A special URL takes backslashes for slashes. -/
def isSeparator (k : Kind) (c : Char) : Bool := c = '/' || (k.isSpecial && c = '\\')

abbrev Segment := List Char

/-- `.`, plain or encoded. -/
def isSingleDot (seg : Segment) : Bool := percentDecode seg == [0x2E]

/-- `..`, plain or encoded. -/
def isDoubleDot (seg : Segment) : Bool := percentDecode seg == [0x2E, 0x2E]

/-- `.` or `..`. -/
def isDot (seg : Segment) : Bool := isSingleDot seg || isDoubleDot seg

/-- A Windows drive letter. -/
def isDriveLetter : Segment → Bool
  | [a, b] => a.isAlpha && (b == ':' || b == '|')
  | _ => false

/-- A normalized Windows drive letter. -/
def isNormalizedDriveLetter : Segment → Bool
  | [a, b] => a.isAlpha && b == ':'
  | _ => false

/-- The shorten operation: a drive letter is never taken off. -/
def shorten (k : Kind) (path : List Segment) : List Segment :=
  match k, path with
  | .file, [seg] => if isNormalizedDriveLetter seg then path else []
  | _, _ => path.dropLast

/-- A segment that is no dot segment goes to the end. -/
def pushSegment (k : Kind) (path : List Segment) (seg : Segment) : List Segment :=
  match k, path, seg with
  | .file, [], [a, b] => if isDriveLetter [a, b] then [[a, ':']] else [percentEncode pathSet [a, b]]
  | _, _, _ => path ++ [percentEncode pathSet seg]

/-- The path state, from one segment to the next. -/
def foldPath (k : Kind) : List Segment → List Segment → List Segment
  | path, [] => path
  | path, seg :: rest =>
      let path :=
        if isDoubleDot seg then (if rest.isEmpty then shorten k path ++ [[]] else shorten k path)
        else if isSingleDot seg then (if rest.isEmpty then path ++ [[]] else path)
        else pushSegment k path seg
      foldPath k path rest

/-- The path state. -/
def pathState (k : Kind) (cs : List Char) : List Segment := foldPath k [] (cs.splitOnP (isSeparator k))

/-- The path start state. -/
def pathStart (k : Kind) (cs : List Char) : List Segment :=
  match cs with
  | [] => if k.isSpecial then [[]] else []
  | c :: rest => pathState k (if isSeparator k c then rest else cs)

/-- The text of a path. -/
def joinPath (path : List Segment) : List Char := path.flatMap ('/' :: ·)

/-- The bytes that a path stands for. -/
def decodedPath (path : List Segment) : List UInt8 := path.flatMap fun seg => 0x2F :: percentDecode seg

variable {k : Kind} {path segs : List Segment} {seg : Segment} {cs : List Char}

@[simp] theorem decodedPath_nil : decodedPath [] = [] := rfl

@[simp] theorem decodedPath_cons (seg : Segment) (path : List Segment) :
    decodedPath (seg :: path) = 0x2F :: (percentDecode seg ++ decodedPath path) := rfl

@[simp] theorem decodedPath_append (path segs : List Segment) :
    decodedPath (path ++ segs) = decodedPath path ++ decodedPath segs := List.flatMap_append

/-- A path and its text stand for the same bytes. -/
theorem percentDecode_joinPath (path : List Segment) : percentDecode (joinPath path) = decodedPath path := by
  induction path with
  | nil => rfl
  | cons seg path ih =>
      show percentDecode ('/' :: (seg ++ joinPath path)) = _
      rw [percentDecode_cons_of_ne (by decide), decodedPath_cons, ← ih]
      cases path with
      | nil =>
          rw [joinPath, List.flatMap_nil, List.append_nil, percentDecode_nil, List.append_nil]
          rfl
      | cons next path =>
          show _ ++ percentDecode (seg ++ '/' :: (next ++ joinPath path)) = _
          rw [percentDecode_append_cons (by decide)]
          rfl

/-! ### Dot segments -/

/-- Every set leaves dot segments what they are. -/
theorem isDot_percentEncode {set : Char → Bool} (hset : LeavesTriplets set) (seg : Segment) :
    isDot (percentEncode set seg) = isDot seg := by
  unfold isDot isSingleDot isDoubleDot
  rw [percentDecode_percentEncode hset]

/-- A step on a segment that is no dot segment. -/
theorem foldPath_cons_of_not_dot (h : isDot seg = false) (path rest : List Segment) :
    foldPath k path (seg :: rest) = foldPath k (pushSegment k path seg) rest := by
  obtain ⟨hsingle, hdouble⟩ := Bool.or_eq_false_iff.mp h
  rw [foldPath, hsingle, hdouble]
  rfl

/-- Only the first segment of a file URL may be more than encoded. -/
theorem pushSegment_eq (h : k = .file → path = [] → isDriveLetter seg = false) :
    pushSegment k path seg = path ++ [percentEncode pathSet seg] := by
  unfold pushSegment
  split
  · rename_i a b
    rw [h rfl rfl]
    rfl
  · rfl

/-- What a segment adds to the bytes of the path. -/
theorem length_pushSegment (k : Kind) (path : List Segment) (seg : Segment) :
    (decodedPath (pushSegment k path seg)).length =
      (decodedPath path).length + (percentDecode seg).length + 1 := by
  have hplain : (decodedPath (path ++ [percentEncode pathSet seg])).length =
      (decodedPath path).length + (percentDecode seg).length + 1 := by
    rw [decodedPath_append, decodedPath_cons, decodedPath_nil, List.append_nil,
      percentDecode_percentEncode pathSet_leavesTriplets, List.length_append, List.length_cons, Nat.add_assoc]
  unfold pushSegment
  split
  · rename_i a b
    split
    · rename_i hdrive
      -- a drive letter is two ASCII characters before and after
      have hb : b = ':' ∨ b = '|' := by
        rw [isDriveLetter, Bool.and_eq_true, Bool.or_eq_true, beq_iff_eq, beq_iff_eq] at hdrive
        exact hdrive.2
      have hshort : ∀ x y, startsTriplet [x, y] = false := by
        intro x y
        rw [Bool.eq_false_iff, Ne, startsTriplet_iff]
        rintro ⟨_, _, _, heq, -, -⟩
        cases heq
      rw [decodedPath_cons, percentDecode_plain (hshort a ':'), percentDecode_plain (hshort a b)]
      rcases hb with rfl | rfl <;>
        simp [percentDecode_cons_of_ne, String.utf8EncodeChar]
    · exact hplain
  · exact hplain

/-- The shorten operation makes no bytes. -/
theorem length_shorten (k : Kind) (path : List Segment) :
    (decodedPath (shorten k path)).length ≤ (decodedPath path).length := by
  have hdrop : (decodedPath path.dropLast).length ≤ (decodedPath path).length := by
    obtain ⟨last, hlast⟩ := List.dropLast_prefix path
    rw [← congrArg decodedPath hlast, decodedPath_append, List.length_append]
    exact Nat.le_add_right _ _
  unfold shorten
  split
  · split
    · exact le_rfl
    · exact Nat.zero_le _
  · exact hdrop

/-- **Reading segments makes no bytes, and a dot segment costs some.** -/
theorem length_foldPath (k : Kind) (segs : List Segment) : ∀ path,
    (decodedPath (foldPath k path segs)).length ≤ (decodedPath path).length + (decodedPath segs).length ∧
    ((decodedPath (foldPath k path segs)).length = (decodedPath path).length + (decodedPath segs).length →
      ∀ seg ∈ segs, isDot seg = false) := by
  induction segs with
  | nil => exact fun path => ⟨le_rfl, fun _ seg hseg => absurd hseg List.not_mem_nil⟩
  | cons seg rest ih =>
      intro path
      rw [decodedPath_cons, List.length_cons, List.length_append]
      cases hdot : isDot seg with
      | false =>
          obtain ⟨hle, heq⟩ := ih (pushSegment k path seg)
          rw [length_pushSegment] at hle heq
          rw [foldPath_cons_of_not_dot hdot]
          refine ⟨by omega, fun hlength s hs => ?_⟩
          rcases List.mem_cons.mp hs with rfl | hs
          · exact hdot
          · exact heq (by omega) s hs
      | true =>
          -- whatever is next, a byte is lost
          have hlt : ∃ path', foldPath k path (seg :: rest) = foldPath k path' rest ∧
              (decodedPath path').length < (decodedPath path).length + (percentDecode seg).length + 1 := by
            refine ⟨_, rfl, ?_⟩
            have hshort := length_shorten k path
            rw [isDot, Bool.or_eq_true] at hdot
            split
            · rename_i hdouble
              rw [isDoubleDot, beq_iff_eq] at hdouble
              rw [hdouble]
              split
              · simp only [decodedPath_append, decodedPath_cons, decodedPath_nil, percentDecode_nil,
                  List.append_nil, List.length_append, List.length_cons, List.length_nil]
                omega
              · simp only [List.length_cons, List.length_nil]
                omega
            · rename_i hdouble
              have hsingle : percentDecode seg = [0x2E] := by
                have := hdot.resolve_right hdouble
                rwa [isSingleDot, beq_iff_eq] at this
              rw [if_pos (hdot.resolve_right hdouble), hsingle]
              split
              · simp only [decodedPath_append, decodedPath_cons, decodedPath_nil, percentDecode_nil,
                  List.append_nil, List.length_append, List.length_cons, List.length_nil]
                omega
              · simp only [List.length_cons, List.length_nil]
                omega
          obtain ⟨path', hfold, hlength⟩ := hlt
          rw [hfold]
          have hle := (ih path').1
          exact ⟨by omega, fun heq => by omega⟩

/-- **Without dot segments the path is the segments.** -/
theorem foldPath_of_noDots (hdots : ∀ seg ∈ segs, isDot seg = false) : ∀ {path : List Segment},
    (k = .file → path = [] → ∀ seg ∈ segs.head?, isDriveLetter seg = false) →
    foldPath k path segs = path ++ segs.map (percentEncode pathSet) := by
  induction segs with
  | nil =>
      intro path _
      rw [List.map_nil, List.append_nil]
      rfl
  | cons seg rest ih =>
      intro path hdrive
      rw [foldPath_cons_of_not_dot (hdots seg List.mem_cons_self),
        pushSegment_eq fun hk hpath => hdrive hk hpath seg rfl,
        ih (fun s hs => hdots s (List.mem_cons_of_mem seg hs)), List.append_assoc]
      · rfl
      · intro _ hnil
        exact absurd hnil (by simp)

/-! ### Splitting -/

/-- A text is cut at its first separator, and goes on after it. -/
theorem splitInduction {p : Char → Bool} {motive : List Char → Prop}
    (last : ∀ s, (∀ c ∈ s, p c = false) → motive s)
    (next : ∀ s c rest, (∀ d ∈ s, p d = false) → p c = true → motive rest → motive (s ++ c :: rest))
    (cs : List Char) : motive cs := by
  generalize hn : cs.length = n
  induction n using Nat.strong_induction_on generalizing cs with
  | _ n ih =>
      cases hfind : cs.find? p with
      | none =>
          refine last cs fun c hc => ?_
          rw [Bool.eq_false_iff]
          exact List.find?_eq_none.mp hfind c hc
      | some c =>
          obtain ⟨hsep, s, rest, rfl, hs⟩ := List.find?_eq_some_iff_append.mp hfind
          refine next s c rest (fun d hd => ?_) hsep (ih rest.length ?_ rest rfl)
          · have := hs d hd
            rwa [Bool.not_eq_true'] at this
          · rw [← hn, List.length_append, List.length_cons]
            omega

/-- Separators are slashes and backslashes, which are no digits and one byte each. -/
theorem isSeparator_cases {c : Char} (h : isSeparator k c = true) :
    c = '/' ∨ (k.isSpecial = true ∧ c = '\\') := by
  rw [isSeparator, Bool.or_eq_true, Bool.and_eq_true, decide_eq_true_eq, decide_eq_true_eq] at h
  exact h

theorem isSeparator_slash (k : Kind) : isSeparator k '/' = true := rfl

theorem isSeparator_eq_false_iff {c : Char} :
    isSeparator k c = false ↔ c ≠ '/' ∧ (k.isSpecial = true → c ≠ '\\') := by
  rw [isSeparator, Bool.or_eq_false_iff, decide_eq_false_iff_not, Bool.and_eq_false_imp]
  simp only [decide_eq_false_iff_not, ne_eq]

/-- A text is decoded up to a separator and from it on. -/
theorem percentDecode_append_separator {c : Char} (hc : isSeparator k c = true) (s rest : List Char) :
    percentDecode (s ++ c :: rest) = percentDecode s ++ UInt8.ofNat c.toNat :: percentDecode rest := by
  rcases isSeparator_cases hc with rfl | ⟨-, rfl⟩
  · rw [percentDecode_append_cons (by decide), percentDecode_cons_of_ne (by decide)]
    rfl
  · rw [percentDecode_append_cons (by decide), percentDecode_cons_of_ne (by decide)]
    rfl

/-- The segments of a text stand for as many bytes as the text after a slash. -/
theorem length_decodedPath_splitOnP (k : Kind) (cs : List Char) :
    (decodedPath (cs.splitOnP (isSeparator k))).length = (percentDecode cs).length + 1 := by
  induction cs using splitInduction (p := isSeparator k) with
  | last s hs =>
      rw [List.splitOnP_eq_singleton hs, decodedPath_cons, decodedPath_nil, List.append_nil, List.length_cons]
  | next s c rest hs hc ih =>
      rw [List.splitOnP_append_cons_of_forall_mem hs c hc, decodedPath_cons,
        percentDecode_append_separator hc, List.length_cons, List.length_append, List.length_append, ih,
        List.length_cons]

/-- **The segments of a text stand for the text after a slash exactly when all separators are slashes.** -/
theorem decodedPath_splitOnP_iff (k : Kind) (cs : List Char) :
    decodedPath (cs.splitOnP (isSeparator k)) = 0x2F :: percentDecode cs ↔
      (k.isSpecial = true → '\\' ∉ cs) := by
  induction cs using splitInduction (p := isSeparator k) with
  | last s hs =>
      rw [List.splitOnP_eq_singleton hs, decodedPath_cons, decodedPath_nil, List.append_nil]
      refine ⟨fun _ hk hmem => ?_, fun _ => rfl⟩
      exact (isSeparator_eq_false_iff.mp (hs _ hmem)).2 hk rfl
  | next s c rest hs hc ih =>
      rw [List.splitOnP_append_cons_of_forall_mem hs c hc, decodedPath_cons,
        percentDecode_append_separator hc]
      have hno : k.isSpecial = true → '\\' ∉ s := fun hk hmem => (isSeparator_eq_false_iff.mp (hs _ hmem)).2 hk rfl
      rcases isSeparator_cases hc with rfl | ⟨hk, rfl⟩
      · -- a slash stands for itself
        constructor
        · intro heq hk
          have hrest := ih.mp (List.append_cancel_left (List.cons.inj heq).2) hk
          rw [List.mem_append, List.mem_cons]
          rintro (hmem | hmem | hmem)
          · exact hno hk hmem
          · exact absurd hmem (by decide)
          · exact hrest hmem
        · intro hbackslash
          rw [ih.mpr fun hk hmem => hbackslash hk (List.mem_append_right s (List.mem_cons_of_mem _ hmem))]
          rfl
      · -- a backslash becomes a slash
        constructor
        · intro heq
          have htail := List.append_cancel_left (List.cons.inj heq).2
          obtain ⟨seg, more, hsplit⟩ := List.exists_cons_of_ne_nil (List.splitOnP_ne_nil (isSeparator k) rest)
          rw [hsplit, decodedPath_cons] at htail
          exact absurd (List.cons.inj htail).1 (by decide)
        · intro hbackslash
          exact absurd (List.mem_append_right s List.mem_cons_self) (hbackslash hk)

/-- Without backslashes, only slashes separate. -/
theorem splitOnP_of_notMem (h : k.isSpecial = true → '\\' ∉ cs) :
    cs.splitOnP (isSeparator k) = cs.splitOnP (isSeparator .other) := by
  induction cs with
  | nil => rfl
  | cons c cs ih =>
      have hc : isSeparator k c = isSeparator .other c := by
        cases hk : k.isSpecial with
        | false =>
            rw [isSeparator, isSeparator, hk]
            rfl
        | true =>
            have hne : c ≠ '\\' := fun heq => h hk (heq ▸ List.mem_cons_self)
            rw [isSeparator, isSeparator, decide_eq_false hne, Bool.and_false, Bool.and_false]
      rw [List.splitOnP_cons_eq_if_modifyHead, List.splitOnP_cons_eq_if_modifyHead, hc,
        ih fun hk hmem => h hk (List.mem_cons_of_mem c hmem)]

/-- What was split at slashes is joined again. -/
theorem joinPath_splitOnP (cs : List Char) : joinPath (cs.splitOnP (isSeparator .other)) = '/' :: cs := by
  induction cs using splitInduction (p := isSeparator .other) with
  | last s hs =>
      rw [List.splitOnP_eq_singleton hs]
      exact List.append_nil _
  | next s c rest hs hc ih =>
      obtain rfl : c = '/' := (isSeparator_cases hc).resolve_right fun h => by cases h.1
      rw [List.splitOnP_append_cons_of_forall_mem hs _ hc]
      show '/' :: (s ++ joinPath _) = _
      rw [ih]

/-- Encoding does not move the slashes. -/
theorem splitOnP_percentEncode (cs : List Char) :
    (percentEncode pathSet cs).splitOnP (isSeparator .other) =
      (cs.splitOnP (isSeparator .other)).map (percentEncode pathSet) := by
  have hencode : ∀ s : List Char, (∀ c ∈ s, isSeparator .other c = false) →
      ∀ c ∈ percentEncode pathSet s, isSeparator .other c = false := by
    intro s hs c hc
    rcases mem_percentEncode hc with ⟨hmem, -⟩ | rfl | hhex
    · exact hs c hmem
    · decide
    · rw [isSeparator_eq_false_iff]
      exact ⟨fun heq => absurd (heq ▸ hhex) (by decide), nofun⟩
  induction cs using splitInduction (p := isSeparator .other) with
  | last s hs => rw [List.splitOnP_eq_singleton hs, List.splitOnP_eq_singleton (hencode s hs)]; rfl
  | next s c rest hs hc ih =>
      obtain rfl : c = '/' := (isSeparator_cases hc).resolve_right fun h => by cases h.1
      rw [List.splitOnP_append_cons_of_forall_mem hs _ hc, percentEncode_append,
        percentEncode_cons_of_false (by decide),
        List.splitOnP_append_cons_of_forall_mem (hencode s hs) '/' hc, ih]
      rfl

/-- Encoded segments stand for what they stood for. -/
theorem decodedPath_map_percentEncode (segs : List Segment) :
    decodedPath (segs.map (percentEncode pathSet)) = decodedPath segs := by
  induction segs with
  | nil => rfl
  | cons seg segs ih =>
      rw [List.map_cons, decodedPath_cons, decodedPath_cons, ih,
        percentDecode_percentEncode pathSet_leavesTriplets]

/-- Segments without separators are read back, and what follows them goes on. -/
theorem exists_splitOnP_joinPath (hpath : ∀ seg ∈ path, ∀ c ∈ seg, isSeparator k c = false) (cs : List Char) :
    ∃ rest, joinPath path ++ '/' :: cs = '/' :: rest ∧
      rest.splitOnP (isSeparator k) = path ++ cs.splitOnP (isSeparator k) := by
  induction path with
  | nil => exact ⟨cs, rfl, rfl⟩
  | cons seg path ih =>
      obtain ⟨rest, hjoin, hsplit⟩ := ih fun s hs => hpath s (List.mem_cons_of_mem seg hs)
      refine ⟨seg ++ '/' :: rest, ?_, ?_⟩
      · rw [← hjoin, ← List.append_assoc]
        rfl
      · rw [List.splitOnP_append_cons_of_forall_mem (hpath seg List.mem_cons_self) '/' (isSeparator_slash k),
          hsplit]
        rfl

/-- A path and a text behind it are read together. -/
theorem pathStart_joinPath (hpath : ∀ seg ∈ path, ∀ c ∈ seg, isSeparator k c = false) (cs : List Char) :
    pathStart k (joinPath path ++ '/' :: cs) = foldPath k [] (path ++ cs.splitOnP (isSeparator k)) := by
  obtain ⟨rest, hjoin, hsplit⟩ := exists_splitOnP_joinPath hpath cs
  rw [hjoin, ← hsplit]
  rfl

/-- The slashes at the end of the text are the empty segments at the end of the path. -/
theorem rdropWhile_joinPath (hpath : ∀ seg ∈ path, '/' ∉ seg) :
    (joinPath path).rdropWhile (· = '/') = joinPath (path.rdropWhile List.isEmpty) := by
  induction path using List.reverseRecOn with
  | nil => rfl
  | append_singleton path seg ih =>
      have hsegs := fun s hs => hpath s (List.mem_append_left [seg] hs)
      have hjoin : joinPath (path ++ [seg]) = joinPath path ++ '/' :: seg := by
        rw [joinPath, List.flatMap_append, List.flatMap_cons, List.flatMap_nil, List.append_nil]
        rfl
      rcases List.eq_nil_or_concat seg with rfl | ⟨front, last, rfl⟩
      · rw [hjoin, List.rdropWhile_concat_pos _ _ _ (by decide), List.rdropWhile_concat_pos _ _ _ rfl]
        exact ih hsegs
      · have hlast : last ≠ '/' := by
          rintro rfl
          exact hpath _ (List.mem_append_right path List.mem_cons_self) (by simp)
        have hconcat : joinPath (path ++ [front.concat last]) = (joinPath path ++ '/' :: front) ++ [last] := by
          rw [hjoin, List.concat_eq_append, List.append_assoc]
          rfl
        rw [List.rdropWhile_concat_neg _ _ _ (by simp), hconcat,
          List.rdropWhile_concat_neg _ _ _ (by simpa using hlast)]

/-! ### Normalized paths -/

/-- What every path has that was read from a text. -/
structure Normalized (k : Kind) (path : List Segment) : Prop where
  segments : ∀ seg ∈ path, isDot seg = false ∧ ∀ c ∈ seg, pathSet c = false ∧ isSeparator k c = false
  drive : k = .file → ∀ seg ∈ path.head?, isDriveLetter seg = true → isNormalizedDriveLetter seg = true

/-- A normalized segment is its own encoding. -/
theorem Normalized.percentEncode (h : Normalized k path) (hseg : seg ∈ path) : percentEncode pathSet seg = seg :=
  percentEncode_eq_self fun c hc => ((h.segments seg hseg).2 c hc).1

/-- **A normalized path is read as it is.** -/
theorem Normalized.foldPath_append (h : Normalized k path) (segs : List Segment) :
    foldPath k [] (path ++ segs) = foldPath k path segs := by
  -- past the first segment, nothing is read as a drive letter
  have hrest : ∀ tail pre : List Segment, pre ≠ [] → (∀ seg ∈ tail, seg ∈ path) →
      foldPath k pre (tail ++ segs) = foldPath k (pre ++ tail) segs := by
    intro tail
    induction tail with
    | nil =>
        intro pre _ _
        rw [List.nil_append, List.append_nil]
    | cons seg tail ih =>
        intro pre hpre htail
        have hseg := htail seg List.mem_cons_self
        rw [List.cons_append, foldPath_cons_of_not_dot (h.segments seg hseg).1,
          pushSegment_eq (fun _ hnil => absurd hnil hpre), h.percentEncode hseg,
          ih _ (by simp) fun s hs => htail s (List.mem_cons_of_mem seg hs), List.append_assoc]
        rfl
  cases path with
  | nil => rfl
  | cons seg tail =>
      have hseg : seg ∈ seg :: tail := List.mem_cons_self
      have hpush : pushSegment k [] seg = [seg] := by
        by_cases hdrive : k = .file ∧ isDriveLetter seg = true
        · obtain ⟨rfl, hdrive⟩ := hdrive
          have hnormal := h.drive rfl seg rfl hdrive
          unfold isNormalizedDriveLetter at hnormal
          split at hnormal
          · rename_i a b
            rw [Bool.and_eq_true, beq_iff_eq] at hnormal
            obtain rfl := hnormal.2
            show (if isDriveLetter [a, ':'] = true then [[a, ':']] else _) = [[a, ':']]
            rw [if_pos hdrive]
          · cases hnormal
        · rw [pushSegment_eq (fun hk _ => by simpa [hk] using hdrive), h.percentEncode hseg]
          rfl
      rw [List.cons_append, foldPath_cons_of_not_dot (h.segments seg hseg).1, hpush]
      exact hrest tail [seg] (by simp) fun s hs => List.mem_cons_of_mem seg hs

/-- Encoding makes no drive letter. -/
theorem isDriveLetter_percentEncode (h : isDriveLetter (percentEncode pathSet seg) = true) :
    isDriveLetter seg = true := by
  unfold isDriveLetter at h
  split at h
  · rename_i a b heq
    rw [Bool.and_eq_true, Bool.or_eq_true, beq_iff_eq, beq_iff_eq] at h
    have ha : a ≠ '%' := by
      rintro rfl
      exact absurd h.1 (by decide)
    have hb : b ≠ '%' := by
      rintro rfl
      exact absurd h.2 (by decide)
    obtain ⟨rest, rfl, hrest⟩ := percentEncode_eq_cons heq ha
    obtain ⟨last, rfl, hlast⟩ := percentEncode_eq_cons hrest.symm hb
    have hnil : last = [] := by
      cases last with
      | nil => rfl
      | cons c cs =>
          rw [percentEncode_cons, encodeChar] at hlast
          split at hlast
          · obtain ⟨byte, bytes, hbytes⟩ := List.exists_cons_of_ne_nil (@String.utf8EncodeChar_ne_nil c)
            rw [hbytes] at hlast
            cases hlast
          · cases hlast
    rw [hnil, isDriveLetter, Bool.and_eq_true, Bool.or_eq_true, beq_iff_eq, beq_iff_eq]
    exact h
  · cases h

/-- Letters are kept, and separate nothing. -/
theorem of_isAlpha {c : Char} (h : c.isAlpha = true) : pathSet c = false ∧ isSeparator k c = false := by
  have hascii : c.toNat < 128 := by
    have hcase : (c.isUpper || c.isLower) = true := h
    rcases Bool.or_eq_true _ _ ▸ hcase with h | h
    · exact lt_of_le_of_lt (UInt32.le_iff_toNat_le.mp (of_decide_eq_true h).2) (by decide)
    · have hle := of_decide_eq_true (Bool.and_eq_true _ _ ▸ h).2
      exact lt_of_le_of_lt (UInt32.le_iff_toNat_le.mp hle) (by decide)
  have hall : ∀ n < 128, (Char.ofNat n).isAlpha = true →
      pathSet (Char.ofNat n) = false ∧ Char.ofNat n ≠ '/' ∧ Char.ofNat n ≠ '\\' := by decide
  obtain ⟨hset, hslash, hbackslash⟩ := hall c.toNat hascii (by rwa [Char.ofNat_toNat])
  rw [Char.ofNat_toNat] at hset hslash hbackslash
  exact ⟨hset, isSeparator_eq_false_iff.mpr ⟨hslash, fun _ => hbackslash⟩⟩

/-- A step keeps a path normalized. -/
theorem Normalized.push (h : Normalized k path) (hdot : isDot seg = false)
    (hseg : ∀ c ∈ seg, isSeparator k c = false) : Normalized k (pushSegment k path seg) := by
  have hplain : (k = .file → path = [] → isDriveLetter seg = false) →
      Normalized k (path ++ [Percent.percentEncode pathSet seg]) := by
    intro hdrive
    refine ⟨?_, ?_⟩
    · intro s hs
      rcases List.mem_append.mp hs with hs | hs
      · exact h.segments s hs
      · obtain rfl := List.mem_singleton.mp hs
        refine ⟨by rw [isDot_percentEncode pathSet_leavesTriplets, hdot], fun c hc => ?_⟩
        refine ⟨set_of_mem_percentEncode pathSet_leavesTriplets hc, ?_⟩
        rcases mem_percentEncode hc with ⟨hmem, -⟩ | rfl | hhex
        · exact hseg c hmem
        · exact isSeparator_eq_false_iff.mpr ⟨by decide, fun _ => by decide⟩
        · rw [isSeparator_eq_false_iff]
          refine ⟨?_, fun _ => ?_⟩
          · rintro rfl
            exact absurd hhex (by decide)
          · rintro rfl
            exact absurd hhex (by decide)
    · intro hk s hs hletter
      cases path with
      | nil =>
          obtain rfl := Option.some.inj hs
          have hbefore := isDriveLetter_percentEncode hletter
          rw [hdrive hk rfl] at hbefore
          cases hbefore
      | cons first rest => exact h.drive hk s hs hletter
  by_cases hdrive : k = .file ∧ path = [] ∧ isDriveLetter seg = true
  · obtain ⟨rfl, rfl, hletter⟩ := hdrive
    unfold isDriveLetter at hletter
    split at hletter
    · rename_i a b
      have hpush : pushSegment .file [] [a, b] = [[a, ':']] := if_pos hletter
      rw [Bool.and_eq_true] at hletter
      obtain ⟨hset, hsep⟩ := of_isAlpha (k := .file) hletter.1
      rw [hpush]
      refine ⟨?_, ?_⟩
      · intro s hs
        obtain rfl := List.mem_singleton.mp hs
        have ha : a ≠ '%' := by
          rintro rfl
          exact absurd hletter.1 (by decide)
        have hdecode : percentDecode [a, ':'] = String.utf8EncodeChar a ++ [0x3A] := by
          rw [percentDecode_cons_of_ne ha]
          rfl
        refine ⟨?_, ?_⟩
        · -- its last byte is no dot
          rw [isDot, isSingleDot, isDoubleDot, hdecode, Bool.or_eq_false_iff, beq_eq_false_iff_ne,
            beq_eq_false_iff_ne]
          have hlast : (String.utf8EncodeChar a ++ [0x3A]).getLast? = some 0x3A := List.getLast?_concat
          constructor
          · intro heq
            rw [heq] at hlast
            exact absurd hlast (by decide)
          · intro heq
            rw [heq] at hlast
            exact absurd hlast (by decide)
        · intro c hc
          rcases List.mem_cons.mp hc with rfl | hc
          · exact ⟨hset, hsep⟩
          · obtain rfl := List.mem_singleton.mp hc
            decide
      · intro _ s hs _
        obtain rfl := Option.some.inj hs
        rw [isNormalizedDriveLetter, hletter.1]
        rfl
    · cases hletter
  · have hno : k = .file → path = [] → isDriveLetter seg = false := by
      intro hk hpath
      rw [Bool.eq_false_iff]
      exact fun hletter => hdrive ⟨hk, hpath, hletter⟩
    rw [pushSegment_eq hno]
    exact hplain hno

theorem normalized_nil : Normalized k [] :=
  ⟨fun _ hseg => absurd hseg List.not_mem_nil, fun _ _ hseg => by cases hseg⟩

/-- The front of a normalized path is normalized. -/
theorem Normalized.front (h : Normalized k path) (hfront : segs <+: path) : Normalized k segs := by
  refine ⟨fun seg hseg => h.segments seg (hfront.subset hseg), fun hk seg hseg => h.drive hk seg ?_⟩
  obtain ⟨rest, rfl⟩ := hfront
  rw [List.head?_append, hseg]
  rfl

/-- The shorten operation keeps a path normalized, too. -/
theorem Normalized.shorten (h : Normalized k path) : Normalized k (shorten k path) := by
  unfold Url.shorten
  split
  · split
    · exact h
    · exact normalized_nil
  · exact h.front (List.dropLast_prefix path)

/-- An empty segment at the end does not matter. -/
theorem Normalized.concat_nil (h : Normalized k path) : Normalized k (path ++ [[]]) := by
  refine ⟨fun seg hseg => ?_, fun hk seg hseg hletter => ?_⟩
  · rcases List.mem_append.mp hseg with hseg | hseg
    · exact h.segments seg hseg
    · obtain rfl := List.mem_singleton.mp hseg
      exact ⟨rfl, fun _ hc => absurd hc List.not_mem_nil⟩
  · cases path with
    | nil =>
        obtain rfl := Option.some.inj hseg
        cases hletter
    | cons first rest => exact h.drive hk seg hseg hletter

/-- **Segments without separators make a normalized path.** -/
theorem Normalized.foldPath (hsegs : ∀ seg ∈ segs, ∀ c ∈ seg, isSeparator k c = false) :
    ∀ {path : List Segment}, Normalized k path → Normalized k (foldPath k path segs) := by
  induction segs with
  | nil => exact fun h => h
  | cons seg rest ih =>
      intro path h
      refine ih (fun s hs => hsegs s (List.mem_cons_of_mem seg hs)) ?_
      split
      · split
        · exact h.shorten.concat_nil
        · exact h.shorten
      · rename_i hdouble
        split
        · split
          · exact h.concat_nil
          · exact h
        · rename_i hsingle
          refine h.push ?_ (hsegs seg List.mem_cons_self)
          rw [isDot, Bool.or_eq_false_iff, Bool.eq_false_iff, Bool.eq_false_iff]
          exact ⟨hsingle, hdouble⟩

/-- There is no separator in what a text is split into. -/
theorem eq_false_of_mem_splitOnP {p : Char → Bool} (cs : List Char) :
    ∀ seg ∈ cs.splitOnP p, ∀ c ∈ seg, p c = false := by
  induction cs using splitInduction (p := p) with
  | last s hs =>
      intro seg hseg
      rw [List.splitOnP_eq_singleton hs] at hseg
      obtain rfl := List.mem_singleton.mp hseg
      exact hs
  | next s c rest hs hc ih =>
      intro seg hseg
      rw [List.splitOnP_append_cons_of_forall_mem hs c hc] at hseg
      rcases List.mem_cons.mp hseg with rfl | hseg
      · exact hs
      · exact ih seg hseg

theorem normalized_pathState (k : Kind) (cs : List Char) : Normalized k (pathState k cs) :=
  normalized_nil.foldPath (eq_false_of_mem_splitOnP cs)

theorem normalized_pathStart (k : Kind) (cs : List Char) : Normalized k (pathStart k cs) := by
  unfold pathStart
  split
  · split
    · exact normalized_nil.concat_nil
    · exact normalized_nil
  · exact normalized_pathState k _

/-- Dots are carried out, and backslashes are slashes in a special URL. -/
example : pathState .special "a/./b\\..//c d".toList = ["a".toList, [], "c%20d".toList] := by decide

end IcebergDb.Url
