import IcebergDb.Foundation.Trim
import IcebergDb.Foundation.Utf8

/-!
# `SHOW TABLES`

`parse_show_tables` takes a statement apart with prefixes, trimming and a search for the last dot.

* `stripAsciiPrefixCi`, `parseShowTables` — the source; the outer `none` is a slice that splits a character, which
  never happens (`stripAsciiPrefixCi_eq`);
* `ShowTables` — the syntax trees of the grammar, with their text and their result;
* `statement_text` — what trimming leaves of such a text;
* `parseShowTables_exact_iff` — **a statement is parsed as the grammar says exactly if it is written with one blank
  between the keywords, without blanks between its semicolons, and with a last part that the trimming of quotes
  leaves alone; or if it is not in the grammar, and nothing stands behind `IN`.**
-/

namespace IcebergDb.Sql

open Trim

/-! ### The source -/

/-- `strip_ascii_prefix_ci`. -/
def stripAsciiPrefixCi (s pre : List Char) : Option (Option (List Char)) :=
  let n := (Utf8.bytes pre).length
  if (Utf8.bytes s).length < n then some none
  else if ((Utf8.bytes s).take n).map Utf8.lowerByte ≠ (Utf8.bytes pre).map Utf8.lowerByte then some none
  else (Utf8.sliceFrom n s).map some

/-- What is left of the text before the keywords are looked for. -/
def statement (sql : List Char) : List Char := trim (trimEnd (· = ';') (trim sql))

/-- `starts_with(char::is_whitespace)`. -/
def startsBlank (s : List Char) : Bool := s.head?.any Text.isWhitespace

/-- The last segment, without quotes around it. -/
def schemaOf (name : List Char) : List Char :=
  trimOf (· = '`') (trimOf (· = '"') (name.rtakeWhile (· ≠ '.')))

/-- `parse_show_tables`. -/
def parseShowTables (sql : List Char) : Option (Option (Option (List Char))) := do
  let some after ← stripAsciiPrefixCi (statement sql) "show tables".toList | return none
  if !after.isEmpty && !startsBlank after then return none
  let tail := trim after
  if tail.isEmpty then return some none
  let some afterIn ← stripAsciiPrefixCi tail "in".toList | return none
  if !startsBlank afterIn then return none
  let schema := trim afterIn
  if schema.isEmpty then return none
  return some (some (schemaOf schema))

/-! ### The grammar -/

/-- The characters of plain identifiers. -/
structure IdentRules where
  isStart : Char → Bool
  isPart : Char → Bool
  isPart_of_isStart : ∀ c, isStart c = true → isPart c = true
  isPart_bare : ∀ c, isPart c = true → Text.isWhitespace c = false ∧ c ∉ ['.', '"', '`', ';']

/-- White space, and some of it. -/
def Blank (gap : List Char) : Prop := gap ≠ [] ∧ ∀ c ∈ gap, Text.isWhitespace c = true

/-- The keyword, in any letter case. -/
def Keyword (word : String) (text : List Char) : Prop := text.map Char.toLower = word.toList

section

variable (rules : IdentRules)

/-- A part of a name: a plain identifier, or a text in double quotes or backticks. -/
inductive Part where
  | plain (c : Char) (cs : List Char) (start : rules.isStart c = true) (rest : ∀ d ∈ cs, rules.isPart d = true)
  | quoted (q : Char) (content : List Char) (quote : q = '"' ∨ q = '`') (closed : q ∉ content)

/-- `IN` and a dotted name. -/
structure SchemaClause where
  gap : List Char
  inWord : List Char
  innerGap : List Char
  qualifiers : List (Part rules)
  name : Part rules
  gap_blank : Blank gap
  inWord_keyword : Keyword "in" inWord
  innerGap_blank : Blank innerGap

/-- A statement of the grammar. -/
structure ShowTables where
  before : List Char
  showWord : List Char
  gap : List Char
  tablesWord : List Char
  schema : Option (SchemaClause rules)
  after : List Char
  before_blank : ∀ c ∈ before, Text.isWhitespace c = true
  showWord_keyword : Keyword "show" showWord
  gap_blank : Blank gap
  tablesWord_keyword : Keyword "tables" tablesWord
  after_end : ∀ c ∈ after, Text.isWhitespace c = true ∨ c = ';'

end

section

variable {rules : IdentRules}

/-- The part as it is written. -/
def Part.text : Part rules → List Char
  | .plain c cs _ _ => c :: cs
  | .quoted q content _ _ => q :: content ++ [q]

/-- The identifier that the part stands for. -/
def Part.value : Part rules → List Char
  | .plain c cs _ _ => c :: cs
  | .quoted _ content _ _ => content

/-- The parts before the last one, each with its dot. -/
def SchemaClause.dots (clause : SchemaClause rules) : List Char :=
  clause.qualifiers.flatMap fun part => part.text ++ ['.']

/-- The clause as it is written. -/
def SchemaClause.text (clause : SchemaClause rules) : List Char :=
  clause.gap ++ (clause.inWord ++ (clause.innerGap ++ (clause.dots ++ clause.name.text)))

/-- The clause, if there is one. -/
def ShowTables.clause (t : ShowTables rules) : List Char := (t.schema.map SchemaClause.text).getD []

/-- The statement without what stands around it. -/
def ShowTables.core (t : ShowTables rules) : List Char := t.showWord ++ t.gap ++ t.tablesWord ++ t.clause

/-- The statement as it is written. -/
def ShowTables.text (t : ShowTables rules) : List Char := t.before ++ t.core ++ t.after

/-- What the parser should return: the last part of the name. -/
def ShowTables.result (t : ShowTables rules) : Option (List Char) := t.schema.map fun clause => clause.name.value

/-- The quotes are all that trimming takes off. -/
def Part.Kept : Part rules → Prop
  | .plain .. => True
  | .quoted q content _ _ => '.' ∉ content ∧ (q = '"' → content.head? ≠ some '`' ∧ content.getLast? ≠ some '`')

/-- White space, semicolons, white space. -/
def PlainEnd (after : List Char) : Prop :=
  ∃ blank semicolons more, after = blank ++ semicolons ++ more ∧ (∀ c ∈ blank, Text.isWhitespace c = true) ∧
    (∀ c ∈ semicolons, c = ';') ∧ ∀ c ∈ more, Text.isWhitespace c = true

/-- The spelling of a statement that the parser understands. -/
structure ShowTables.Understood (t : ShowTables rules) : Prop where
  gap : t.gap = [' ']
  after : PlainEnd t.after
  name : ∀ clause ∈ t.schema, clause.name.Kept

/-- The keywords with one blank, then `IN`, and something behind it. -/
def ShowsIn (s : List Char) : Prop :=
  ∃ keywords gap inWord innerGap name, s = keywords ++ (gap ++ (inWord ++ (innerGap ++ name))) ∧
    Keyword "show tables" keywords ∧ Blank gap ∧ Keyword "in" inWord ∧ Blank innerGap ∧ name ≠ []

/-- The statement is parsed as the grammar says. -/
def Exact (rules : IdentRules) (sql : List Char) : Prop :=
  ∀ r, parseShowTables sql = some (some r) ↔ ∃ t : ShowTables rules, t.text = sql ∧ t.result = r

end

/-! ### Prefixes -/

/-- The prefix, in any letter case, taken off. -/
def stripCi (s pre : List Char) : Option (List Char) :=
  if (s.take pre.length).map Char.toLower = pre.map Char.toLower then some (s.drop pre.length) else none

theorem stripCi_eq_some_iff {s pre rest : List Char} :
    stripCi s pre = some rest ↔ ∃ k, s = k ++ rest ∧ k.map Char.toLower = pre.map Char.toLower := by
  have hlength : ∀ k : List Char, k.map Char.toLower = pre.map Char.toLower → k.length = pre.length := by
    intro k hk
    simpa using congrArg List.length hk
  constructor
  · intro h
    rw [stripCi] at h
    split at h
    · rename_i hpre
      rw [← Option.some.inj h]
      exact ⟨_, (List.take_append_drop _ s).symm, hpre⟩
    · cases h
  · rintro ⟨k, rfl, hk⟩
    rw [stripCi, ← hlength k hk, List.take_left, List.drop_left, if_pos hk]

/-- **The slice never splits a character**, and takes the prefix off. -/
theorem stripAsciiPrefixCi_eq (s pre : List Char) : stripAsciiPrefixCi s pre = some (stripCi s pre) := by
  have hnone : (((Utf8.bytes s).take (Utf8.bytes pre).length).map Utf8.lowerByte ≠
      (Utf8.bytes pre).map Utf8.lowerByte) → stripCi s pre = none := by
    intro hne
    refine if_neg fun hpre => hne ?_
    have hbytes := congrArg Utf8.bytes hpre
    rw [Utf8.bytes_map_toLower, Utf8.bytes_map_toLower] at hbytes
    have hlength : (Utf8.bytes (s.take pre.length)).length = (Utf8.bytes pre).length := by
      simpa using congrArg List.length hbytes
    have hsplit : Utf8.bytes s = Utf8.bytes (s.take pre.length) ++ Utf8.bytes (s.drop pre.length) := by
      rw [← Utf8.bytes_append, List.take_append_drop]
    rw [← hbytes, ← hlength, hsplit, List.take_left]
  rw [stripAsciiPrefixCi]
  split
  · rename_i hshort
    refine congrArg some (hnone fun heq => ?_).symm
    have hlength := congrArg List.length heq
    rw [List.length_map, List.length_map, List.length_take] at hlength
    omega
  split
  · rename_i hne
    exact congrArg some (hnone hne).symm
  · rename_i heq
    obtain ⟨ds, es, hs, hds, hlength⟩ := Utf8.exists_append_of_lowerByte (not_not.mp heq)
    rw [Utf8.sliceFrom_eq_some_iff.mpr ⟨ds, hs, hlength⟩, stripCi_eq_some_iff.mpr ⟨ds, hs, hds⟩]
    rfl

/-! ### What trimming leaves -/

/-- The letters of a keyword are letters. -/
theorem isAlpha_of_keyword {word : String} {text : List Char} (h : Keyword word text)
    (hword : word.toList.all Char.isAlpha = true) : ∀ c ∈ text, c.isAlpha = true := by
  intro c hc
  have hmem : c.toLower ∈ word.toList := by
    rw [← h]
    exact List.mem_map_of_mem hc
  rw [← (Text.isAlpha_toLower c).1]
  exact List.all_eq_true.mp hword _ hmem

/-- A character that trimming keeps. -/
def Solid (c : Char) : Prop := Text.isWhitespace c = false ∧ c ≠ ';'

theorem solid_of_isAlpha {c : Char} (h : c.isAlpha = true) : Solid c := by
  refine ⟨Text.isWhitespace_of_isAlpha h, ?_⟩
  rintro rfl
  exact absurd h (by decide)

variable {rules : IdentRules}

/-- Both ends of a part are kept. -/
theorem Part.text_ends (part : Part rules) :
    (∃ c, part.text.head? = some c ∧ Solid c) ∧ ∃ c, part.text.getLast? = some c ∧ Solid c := by
  cases part with
  | plain c cs start rest =>
      have hpart : ∀ d ∈ c :: cs, rules.isPart d = true := by
        intro d hd
        rcases List.mem_cons.mp hd with rfl | hd
        · exact rules.isPart_of_isStart d start
        · exact rest d hd
      have hsolid : ∀ d ∈ c :: cs, Solid d := by
        intro d hd
        obtain ⟨hblank, hmarks⟩ := rules.isPart_bare d (hpart d hd)
        exact ⟨hblank, fun hsemi => hmarks (by rw [hsemi]; decide)⟩
      refine ⟨⟨c, rfl, hsolid c List.mem_cons_self⟩, ?_⟩
      have hlast := List.getLast?_eq_some_getLast (List.cons_ne_nil c cs)
      exact ⟨_, hlast, hsolid _ (List.getLast_mem _)⟩
  | quoted q content quote closed =>
      have hsolid : Solid q := by
        rcases quote with rfl | rfl
        · exact ⟨by decide, by decide⟩
        · exact ⟨by decide, by decide⟩
      exact ⟨⟨q, rfl, hsolid⟩, ⟨q, by rw [Part.text, List.getLast?_concat], hsolid⟩⟩

/-- What a clause begins with. -/
theorem SchemaClause.name_head (clause : SchemaClause rules) :
    ∃ c, (clause.dots ++ clause.name.text).head? = some c ∧ Solid c := by
  cases hquals : clause.qualifiers with
  | nil =>
      rw [SchemaClause.dots, hquals]
      exact clause.name.text_ends.1
  | cons part quals =>
      obtain ⟨c, hc, hsolid⟩ := part.text_ends.1
      refine ⟨c, ?_, hsolid⟩
      rw [SchemaClause.dots, hquals, List.flatMap_cons]
      have hne : part.text ≠ [] := by
        intro hnil
        rw [hnil] at hc
        cases hc
      rw [List.append_assoc, List.append_assoc, List.head?_append_of_ne_nil _ hne]
      exact hc

/-- The first and the last character of a statement are kept. -/
theorem ShowTables.core_ends (t : ShowTables rules) :
    (∃ c, t.core.head? = some c ∧ Solid c) ∧ ∃ c, t.core.getLast? = some c ∧ Solid c := by
  have hkeyword : ∀ {word : String} {text : List Char}, Keyword word text → word.toList.all Char.isAlpha = true →
      word.toList ≠ [] → text ≠ [] ∧ ∀ c ∈ text, Solid c := by
    intro word text h hword hne
    refine ⟨?_, fun c hc => solid_of_isAlpha (isAlpha_of_keyword h hword c hc)⟩
    rintro rfl
    exact hne h.symm
  obtain ⟨hshow, hshowsolid⟩ := hkeyword t.showWord_keyword (by decide) (by decide)
  obtain ⟨htables, htablessolid⟩ := hkeyword t.tablesWord_keyword (by decide) (by decide)
  constructor
  · refine ⟨t.showWord.head hshow, ?_, hshowsolid _ (List.head_mem hshow)⟩
    rw [ShowTables.core, List.append_assoc, List.append_assoc, List.head?_append_of_ne_nil _ hshow]
    exact List.head?_eq_some_head hshow
  · cases hschema : t.schema with
    | none =>
        refine ⟨t.tablesWord.getLast htables, ?_, htablessolid _ (List.getLast_mem htables)⟩
        have hclause : t.clause = [] := by
          rw [ShowTables.clause, hschema]
          rfl
        rw [ShowTables.core, hclause, List.append_nil, List.getLast?_append_of_ne_nil _ htables]
        exact List.getLast?_eq_some_getLast htables
    | some clause =>
        obtain ⟨c, hc, hsolid⟩ := clause.name.text_ends.2
        have hne : clause.name.text ≠ [] := by
          intro hnil
          rw [hnil] at hc
          cases hc
        refine ⟨c, ?_, hsolid⟩
        have hclause :
            t.clause = clause.gap ++ clause.inWord ++ clause.innerGap ++ clause.dots ++ clause.name.text := by
          rw [ShowTables.clause, hschema]
          simp [SchemaClause.text]
        rw [ShowTables.core, hclause, ← List.append_assoc, List.getLast?_append_of_ne_nil _ hne]
        exact hc

/-- What is left of the end of a statement. -/
def leftOver (after : List Char) : List Char :=
  trimEnd Text.isWhitespace (trimEnd (· = ';') (trimEnd Text.isWhitespace after))

/-- **Trimming leaves the statement**, and of its end what stands before the last semicolons. -/
theorem statement_text (t : ShowTables rules) : statement t.text = t.core ++ leftOver t.after := by
  obtain ⟨⟨first, hfirst, hfirstsolid⟩, last, hlast, hlastsolid⟩ := t.core_ends
  have hne : t.core ≠ [] := by
    intro hnil
    rw [hnil] at hfirst
    cases hfirst
  have hstart : StartsOutside Text.isWhitespace t.core := by
    intro c hc
    rw [Option.mem_def.mp hc] at hfirst
    rw [Option.some.inj hfirst]
    exact hfirstsolid.1
  have hends : ∀ p : Char → Bool, p last = false → EndsOutside p t.core := by
    intro p hp c hc
    rw [Option.mem_def.mp hc] at hlast
    rw [Option.some.inj hlast]
    exact hp
  have hblank := hends Text.isWhitespace hlastsolid.1
  have hdrop : ∀ rest, (t.core ++ rest).dropWhile Text.isWhitespace = t.core ++ rest :=
    fun rest => dropWhile_eq_self (startsOutside_append hstart hne rest)
  have htrim : ∀ rest, trim (t.core ++ rest) = t.core ++ trimEnd Text.isWhitespace rest := by
    intro rest
    rw [trim, trimOf, hdrop, trimEnd_append_left hblank]
  have hbefore : trim t.text = trim (t.core ++ t.after) := by
    rw [trim, trim, trimOf, trimOf, ShowTables.text, List.append_assoc, List.dropWhile_append_of_pos t.before_blank]
  rw [statement, hbefore, htrim, trimEnd_append_left (hends _ (decide_eq_false hlastsolid.2)), htrim]
  rfl

/-- What is left ends in a semicolon. -/
theorem leftOver_spec {after : List Char} (h : ∀ c ∈ after, Text.isWhitespace c = true ∨ c = ';') :
    (∀ c ∈ leftOver after, Text.isWhitespace c = true ∨ c = ';') ∧
      (leftOver after ≠ [] → (leftOver after).getLast? = some ';') ∧ (leftOver after = [] ↔ PlainEnd after) := by
  obtain ⟨more, hmore, hmoreall, -⟩ := exists_append_trimEnd Text.isWhitespace after
  obtain ⟨semis, hsemis, hsemisall, -⟩ :=
    exists_append_trimEnd (fun c : Char => decide (c = ';')) (trimEnd Text.isWhitespace after)
  obtain ⟨blank, hblank, hblankall, hend⟩ := exists_append_trimEnd Text.isWhitespace
    (trimEnd (fun c : Char => decide (c = ';')) (trimEnd Text.isWhitespace after))
  replace hblank : trimEnd (fun c : Char => decide (c = ';')) (trimEnd Text.isWhitespace after) =
    leftOver after ++ blank := hblank
  rw [hblank] at hsemis
  rw [hsemis] at hmore
  have hmem : ∀ c ∈ leftOver after, Text.isWhitespace c = true ∨ c = ';' := by
    intro c hc
    refine h c ?_
    rw [hmore]
    exact List.mem_append_left _ (List.mem_append_left _ (List.mem_append_left _ hc))
  refine ⟨hmem, ?_, ?_⟩
  · intro hne
    have hlast := List.getLast?_eq_some_getLast hne
    have hout := hend _ hlast
    rcases hmem _ (List.getLast_mem hne) with hws | hsemi
    · rw [hws] at hout
      cases hout
    · rw [hlast, hsemi]
  · constructor
    · intro hnil
      rw [hnil, List.nil_append] at hmore
      exact ⟨blank, semis, more, hmore, hblankall, fun c hc => of_decide_eq_true (hsemisall c hc), hmoreall⟩
    · rintro ⟨blank', semis', more', rfl, hblank', hsemis', hmore'⟩
      have hnil : ∀ (p : Char → Bool) (cs : List Char), (∀ c ∈ cs, p c = true) → trimEnd p cs = [] := by
        intro p cs hcs
        have hnone : EndsOutside p [] := by
          intro c hc
          cases hc
        have htrim := trimEnd_append hnone hcs
        rwa [List.nil_append] at htrim
      by_cases hsemisnil : semis' = []
      · -- nothing but white space
        have hall : ∀ c ∈ blank' ++ semis' ++ more', Text.isWhitespace c = true := by
          intro c hc
          rw [hsemisnil, List.append_nil] at hc
          exact (List.mem_append.mp hc).elim (hblank' c) (hmore' c)
        rw [leftOver, hnil _ _ hall]
        rfl
      · have hout : EndsOutside Text.isWhitespace (blank' ++ semis') := by
          refine endsOutside_append ?_ hsemisnil blank'
          intro c hc
          rw [hsemis' c (List.mem_of_getLast? hc)]
          decide
        have hblankout : EndsOutside (fun c : Char => decide (c = ';')) blank' := by
          intro c hc
          refine decide_eq_false ?_
          rintro rfl
          exact absurd (hblank' _ (List.mem_of_getLast? hc)) (by decide)
        rw [leftOver, trimEnd_append hout hmore', trimEnd_append hblankout fun c hc => decide_eq_true (hsemis' c hc)]
        exact hnil _ _ hblank'

/-! ### The parser -/

section

variable {sql s keywords gap inWord innerGap name : List Char}

theorem endsOutside_statement (sql : List Char) : EndsOutside Text.isWhitespace (statement sql) := by
  obtain ⟨-, -, -, -, -, -, hend⟩ := exists_append_trimOf Text.isWhitespace (trimEnd (· = ';') (trim sql))
  exact hend

/-- The end of a text that ends outside of the kind does so too. -/
theorem endsOutside_of_append {p : Char → Bool} {l m : List Char} (h : EndsOutside p (l ++ m)) : EndsOutside p m := by
  intro c hc
  refine h c ?_
  rw [Option.mem_def, List.getLast?_append, Option.mem_def.mp hc]
  rfl

theorem startsBlank_append (hgap : Blank gap) (rest : List Char) : startsBlank (gap ++ rest) = true := by
  cases gap with
  | nil => exact absurd rfl hgap.1
  | cons c gap => exact hgap.2 c List.mem_cons_self

theorem trim_gap (hgap : Blank gap) (hstart : StartsOutside Text.isWhitespace s)
    (hend : EndsOutside Text.isWhitespace s) : trim (gap ++ s) = s := by
  have htrim := trimOf_append hgap.2 hstart hend (List.forall_mem_nil _)
  rwa [List.append_nil] at htrim

/-- The bare form. -/
theorem parseShowTables_bare (h : Keyword "show tables" (statement sql)) :
    parseShowTables sql = some (some none) := by
  have hstrip : stripCi (statement sql) "show tables".toList = some [] :=
    stripCi_eq_some_iff.mpr ⟨statement sql, (List.append_nil _).symm, h⟩
  rw [parseShowTables, stripAsciiPrefixCi_eq, hstrip]
  rfl

/-- The form with a name. -/
theorem parseShowTables_in (h : statement sql = keywords ++ (gap ++ (inWord ++ (innerGap ++ name))))
    (hkeywords : Keyword "show tables" keywords) (hgap : Blank gap) (hin : Keyword "in" inWord)
    (hinner : Blank innerGap) (hne : name ≠ []) (hstart : StartsOutside Text.isWhitespace name) :
    parseShowTables sql = some (some (some (schemaOf name))) := by
  have hend := endsOutside_statement sql
  rw [h] at hend
  have hafterend := endsOutside_of_append (endsOutside_of_append hend)
  have hnameend := endsOutside_of_append (endsOutside_of_append hafterend)
  have hinne : inWord ≠ [] := by
    rintro rfl
    cases hin
  have hinstart : StartsOutside Text.isWhitespace (inWord ++ (innerGap ++ name)) := by
    refine startsOutside_append (fun c hc => ?_) hinne _
    exact Text.isWhitespace_of_isAlpha (isAlpha_of_keyword hin (by decide) c (List.mem_of_head? hc))
  have hstrip : stripCi (statement sql) "show tables".toList = some (gap ++ (inWord ++ (innerGap ++ name))) :=
    stripCi_eq_some_iff.mpr ⟨keywords, h, hkeywords⟩
  have hstripin : stripCi (inWord ++ (innerGap ++ name)) "in".toList = some (innerGap ++ name) :=
    stripCi_eq_some_iff.mpr ⟨inWord, rfl, hin⟩
  have htail : (inWord ++ (innerGap ++ name)).isEmpty = false := by simp [hinne]
  have hname : name.isEmpty = false := by simp [hne]
  simp only [parseShowTables, stripAsciiPrefixCi_eq, hstrip, startsBlank_append hgap,
    trim_gap hgap hinstart hafterend, htail, hstripin, startsBlank_append hinner, trim_gap hinner hstart hnameend,
    hname,
    Option.bind_eq_bind, Option.bind_some, Bool.not_true, Bool.and_false, Bool.false_eq_true, if_false, Option.pure_def]

/-- What begins with white space has some before the trimmed text. -/
theorem exists_blank (hblank : startsBlank s = true) (hne : trim s ≠ []) :
    ∃ gap post, s = gap ++ (trim s ++ post) ∧ Blank gap := by
  obtain ⟨gap, post, hsplit, hgap, -, hstart, -⟩ := exists_append_trimOf Text.isWhitespace s
  replace hsplit : s = gap ++ trim s ++ post := hsplit
  replace hstart : StartsOutside Text.isWhitespace (trim s) := hstart
  refine ⟨gap, post, by rw [← List.append_assoc]; exact hsplit, ?_, hgap⟩
  rintro rfl
  rw [List.nil_append] at hsplit
  rw [hsplit] at hblank
  cases hcs : trim s with
  | nil => exact hne hcs
  | cons c cs =>
      rw [hcs] at hblank
      have hout := hstart c (by rw [hcs]; rfl)
      have hws : Text.isWhitespace c = true := hblank
      rw [hout] at hws
      cases hws

/-- What ends in another character is not trimmed away. -/
theorem trim_ne_nil (hend : EndsOutside Text.isWhitespace s) (hne : s ≠ []) : trim s ≠ [] := by
  obtain ⟨pre, post, hsplit, hpre, hpost, -⟩ := exists_append_trimOf Text.isWhitespace s
  replace hsplit : s = pre ++ trim s ++ post := hsplit
  intro hnil
  have hall : ∀ c ∈ s, Text.isWhitespace c = true := by
    intro c hc
    rw [hsplit, hnil, List.append_nil] at hc
    exact (List.mem_append.mp hc).elim (hpre c) (hpost c)
  have hws := hall _ (List.getLast_mem hne)
  rw [hend _ (List.getLast?_eq_some_getLast hne)] at hws
  cases hws

/-- There are no other forms. -/
theorem showsIn_of_parseShowTables {r : Option (List Char)} (h : parseShowTables sql = some (some r)) :
    (Keyword "show tables" (statement sql) ∧ r = none) ∨ ShowsIn (statement sql) ∧ r ≠ none := by
  have hend := endsOutside_statement sql
  simp only [parseShowTables, stripAsciiPrefixCi_eq, Option.bind_eq_bind, Option.bind_some, Option.pure_def] at h
  cases hstrip : stripCi (statement sql) "show tables".toList with
  | none =>
      rw [hstrip] at h
      cases h
  | some after =>
      obtain ⟨keywords, hs, hkeywords⟩ := stripCi_eq_some_iff.mp hstrip
      rw [hs] at hend
      by_cases hafter : after = []
      · left
        rw [hstrip, hafter] at h
        rw [hs, hafter, List.append_nil]
        exact ⟨hkeywords, (Option.some.inj (Option.some.inj h)).symm⟩
      right
      have hempty : after.isEmpty = false := by simp [hafter]
      simp only [hstrip, hempty, Bool.not_false, Bool.true_and] at h
      by_cases hblank : startsBlank after = true
      · have htail := trim_ne_nil (endsOutside_of_append hend) hafter
        have htailempty : (trim after).isEmpty = false := by simp [htail]
        simp only [hblank, Bool.not_true, Bool.false_eq_true, if_false, htailempty] at h
        cases hin : stripCi (trim after) "in".toList with
        | none =>
            rw [hin] at h
            cases h
        | some afterIn =>
            obtain ⟨inWord, htrim, hword⟩ := stripCi_eq_some_iff.mp hin
            simp only [hin] at h
            by_cases hinner : startsBlank afterIn = true
            · have hrest : trim afterIn ≠ [] := by
                intro hnil
                simp [hinner, hnil] at h
              have hr : r ≠ none := by
                have hrestempty : (trim afterIn).isEmpty = false := by simp [hrest]
                simp only [hinner, hrestempty, Bool.not_true, Bool.false_eq_true, if_false] at h
                rw [← Option.some.inj (Option.some.inj h)]
                exact Option.some_ne_none _
              obtain ⟨gap, post, hsplit, hgap⟩ := exists_blank hblank htail
              obtain ⟨innerGap, innerPost, hinnersplit, hinnergap⟩ := exists_blank hinner hrest
              refine ⟨⟨keywords, gap, inWord, innerGap, trim afterIn ++ (innerPost ++ post), ?_, hkeywords, hgap, hword,
                hinnergap, fun hnil => hrest (List.append_eq_nil_iff.mp hnil).1⟩, hr⟩
              have htext : afterIn ++ post = innerGap ++ (trim afterIn ++ (innerPost ++ post)) := by
                conv_lhs => rw [hinnersplit]
                simp only [List.append_assoc]
              rw [hs, hsplit, htrim, List.append_assoc inWord, htext]
            · simp [hinner] at h
      · simp [hblank] at h

/-- **What stands behind `IN`** is taken for a name. -/
theorem exists_parseShowTables (h : ShowsIn (statement sql)) : ∃ r, parseShowTables sql = some (some r) := by
  obtain ⟨keywords, gap, inWord, innerGap, name, hs, hkeywords, hgap, hin, hinner, hne⟩ := h
  have hend := endsOutside_statement sql
  rw [hs] at hend
  have hnameend := endsOutside_of_append (endsOutside_of_append (endsOutside_of_append (endsOutside_of_append hend)))
  have hdrop : name.dropWhile Text.isWhitespace ≠ [] := by
    intro hnil
    have hws := List.dropWhile_eq_nil_iff.mp hnil _ (List.getLast_mem hne)
    rw [hnameend _ (List.getLast?_eq_some_getLast hne)] at hws
    cases hws
  have hsplit : statement sql = keywords ++ (gap ++ (inWord ++ ((innerGap ++ name.takeWhile Text.isWhitespace) ++
      name.dropWhile Text.isWhitespace))) := by
    rw [hs, List.append_assoc innerGap, List.takeWhile_append_dropWhile]
  have hblank : Blank (innerGap ++ name.takeWhile Text.isWhitespace) := by
    refine ⟨fun hnil => hinner.1 (List.append_eq_nil_iff.mp hnil).1, fun c hc => ?_⟩
    exact (List.mem_append.mp hc).elim (hinner.2 c) fun hc => List.mem_takeWhile_imp hc
  exact ⟨_, parseShowTables_in hsplit hkeywords hgap hin hblank hdrop (startsOutside_dropWhile _ name)⟩

end

/-! ### The last part of a name -/

theorem endsOutside_of_getLast {p : Char → Bool} {l : List Char} {c : Char} (hlast : l.getLast? = some c)
    (h : p c = false) : EndsOutside p l := by
  intro d hd
  rw [Option.mem_def.mp hd] at hlast
  rwa [Option.some.inj hlast]

theorem mem_of_mem_schemaOf {name : List Char} {c : Char} (h : c ∈ schemaOf name) : c ≠ '.' := by
  have hsub : ∀ (p : Char → Bool) (l : List Char), (trimOf p l).Sublist l :=
    fun p l => (List.rdropWhile_prefix p _).sublist.trans (List.dropWhile_sublist p)
  have hmem := (hsub _ _).subset ((hsub _ _).subset h)
  simpa using List.mem_rtakeWhile_imp hmem

/-- Behind the dots, the last segment is what has no dot. -/
theorem rtakeWhile_dots (clause : SchemaClause rules) {m : List Char} (h : '.' ∉ m) :
    (clause.dots ++ m).rtakeWhile (· ≠ '.') = m := by
  have hall : ∀ c ∈ m, decide (c ≠ '.') = true := by
    intro c hc
    refine decide_eq_true ?_
    rintro rfl
    exact h hc
  have htake : ∀ l : List Char, (l ++ ['.'] ++ m).rtakeWhile (· ≠ '.') = m := by
    intro l
    induction m using List.reverseRecOn with
    | nil =>
        rw [List.append_nil]
        exact List.rtakeWhile_concat_neg _ _ '.' (by simp)
    | append_singleton m c ih =>
        rw [← List.append_assoc, List.rtakeWhile_concat_pos (fun c => decide (c ≠ '.')) _ c (hall c (by simp))]
        rw [ih (fun hmem => h (List.mem_append_left _ hmem)) fun d hd => hall d (List.mem_append_left _ hd)]
  rw [SchemaClause.dots]
  cases hquals : clause.qualifiers using List.reverseRecOn with
  | nil => exact List.rtakeWhile_eq_self_iff.mpr hall
  | append_singleton quals part =>
      rw [List.flatMap_append, List.flatMap_singleton, ← List.append_assoc]
      exact htake _

/-- The quotes around a text are trimmed. -/
theorem trimOf_quoted {q : Char} {content : List Char} (h : q ∉ content) :
    trimOf (· = q) (q :: content ++ [q]) = content := by
  have hout : ∀ c ∈ content, decide (c = q) = false := by
    intro c hc
    refine decide_eq_false ?_
    rintro rfl
    exact h hc
  have hquote : ∀ c ∈ [q], decide (c = q) = true := by simp
  exact trimOf_append hquote (fun c hc => hout c (List.mem_of_head? hc))
    (fun c hc => hout c (List.mem_of_getLast? hc)) hquote

/-- If more stands behind, the closing quote stays. -/
theorem mem_trimOf_quoted {q last : Char} {content left : List Char} (h : q ∉ content) (hne : content ≠ [])
    (hlast : left.getLast? = some last) (hq : last ≠ q) : q ∈ trimOf (· = q) (q :: content ++ q :: left) := by
  have hleft : left ≠ [] := by
    rintro rfl
    cases hlast
  have hstart : StartsOutside (fun c => decide (c = q)) (content ++ q :: left) := by
    refine startsOutside_append (fun c hc => decide_eq_false ?_) hne _
    rintro rfl
    exact h (List.mem_of_head? hc)
  have hend : EndsOutside (fun c => decide (c = q)) (content ++ q :: left) := by
    refine endsOutside_of_getLast (c := last) ?_ (decide_eq_false hq)
    rw [List.getLast?_append_of_ne_nil _ (List.cons_ne_nil q left), ← List.singleton_append,
      List.getLast?_append_of_ne_nil _ hleft]
    exact hlast
  have hquote : ∀ c ∈ [q], decide (c = q) = true := by simp
  have htrim := trimOf_append hquote hstart hend (List.forall_mem_nil _)
  rw [List.append_nil, List.singleton_append] at htrim
  rw [List.cons_append, htrim]
  simp

/-- What is not of the kind is not trimmed. -/
theorem mem_trimOf {p : Char → Bool} {l : List Char} {c : Char} (hc : c ∈ l) (hp : p c = false) : c ∈ trimOf p l := by
  obtain ⟨pre, post, hsplit, hpre, hpost, -, -⟩ := exists_append_trimOf p l
  rw [hsplit] at hc
  rcases List.mem_append.mp hc with hc | hc
  · rcases List.mem_append.mp hc with hc | hc
    · rw [hpre c hc] at hp
      cases hp
    · exact hc
  · rw [hpost c hc] at hp
    cases hp

section

variable {clause : SchemaClause rules} {left : List Char}

/-- No dot stands behind a name. -/
theorem not_mem_left {c : Char} (hleft : ∀ d ∈ left, Text.isWhitespace d = true ∨ d = ';')
    (hc : Text.isWhitespace c = false) (hsemi : c ≠ ';') : c ∉ left := by
  intro hmem
  rcases hleft c hmem with h | h
  · rw [hc] at h
    cases h
  · exact hsemi h

/-- A plain part is read back if nothing is left behind it. -/
theorem schemaOf_plain {c : Char} {cs : List Char} (start : rules.isStart c = true)
    (rest : ∀ d ∈ cs, rules.isPart d = true) (hleft : ∀ d ∈ left, Text.isWhitespace d = true ∨ d = ';')
    (hlast : left ≠ [] → left.getLast? = some ';') :
    schemaOf (clause.dots ++ (c :: cs ++ left)) = c :: cs ↔ left = [] := by
  have hpart : ∀ d ∈ c :: cs, d ∉ ['.', '"', '`', ';'] := by
    intro d hd
    rcases List.mem_cons.mp hd with rfl | hd
    · exact (rules.isPart_bare d (rules.isPart_of_isStart d start)).2
    · exact (rules.isPart_bare d (rest d hd)).2
  have hdot : '.' ∉ c :: cs ++ left := by
    intro hmem
    rcases List.mem_append.mp hmem with hmem | hmem
    · exact hpart _ hmem (by decide)
    · exact not_mem_left hleft (by decide) (by decide) hmem
  have htrim : ∀ q : Char, q ∈ ['"', '`'] → trimOf (fun d => decide (d = q)) (c :: cs ++ left) = c :: cs ++ left := by
    intro q hq
    have hquote : ∀ d ∈ c :: cs, d ≠ q := by
      rintro d hd rfl
      refine hpart d hd ?_
      simp only [List.mem_cons, List.not_mem_nil, or_false] at hq ⊢
      tauto
    refine trimOf_eq_self (fun d hd => ?_) ?_
    · rw [← Option.some.inj hd]
      exact decide_eq_false (hquote c List.mem_cons_self)
    · by_cases hnil : left = []
      · rw [hnil, List.append_nil]
        exact fun d hd => decide_eq_false (hquote d (List.mem_of_getLast? hd))
      · refine endsOutside_of_getLast (c := ';') ?_ (decide_eq_false ?_)
        · rw [List.getLast?_append_of_ne_nil _ hnil]
          exact hlast hnil
        · rintro rfl
          exact absurd hq (by decide)
  rw [schemaOf, rtakeWhile_dots clause hdot, htrim '"' (by decide), htrim '`' (by decide)]
  exact List.append_right_eq_self

/-- A quoted part is read back if nothing is left behind it, and if it has neither dots nor, in double quotes, a
backtick at an end. -/
theorem schemaOf_quoted {q : Char} {content : List Char} (quote : q = '"' ∨ q = '`') (closed : q ∉ content)
    (hleft : ∀ d ∈ left, Text.isWhitespace d = true ∨ d = ';') (hlast : left ≠ [] → left.getLast? = some ';') :
    schemaOf (clause.dots ++ (q :: content ++ [q] ++ left)) = content ↔
      left = [] ∧ (Part.quoted q content quote closed : Part rules).Kept := by
  have hquote : Text.isWhitespace q = false ∧ q ≠ ';' ∧ q ≠ '.' := by
    rcases quote with rfl | rfl
    · exact ⟨by decide, by decide, by decide⟩
    · exact ⟨by decide, by decide, by decide⟩
  by_cases hcontent : '.' ∈ content
  · -- a dot cannot be read back
    constructor
    · intro h
      rw [← h] at hcontent
      exact absurd rfl (mem_of_mem_schemaOf hcontent)
    · exact fun h => absurd hcontent h.2.1
  have hdot : '.' ∉ q :: content ++ [q] ++ left := by
    simp only [List.mem_append, List.mem_cons, List.not_mem_nil, or_false, not_or]
    exact ⟨⟨⟨hquote.2.2.symm, hcontent⟩, hquote.2.2.symm⟩, not_mem_left hleft (by decide) (by decide)⟩
  rw [schemaOf, rtakeWhile_dots clause hdot]
  -- backticks are not trimmed as double quotes
  have hback : q = '`' → trimOf (fun d => decide (d = '"')) (q :: content ++ [q] ++ left) =
      q :: content ++ [q] ++ left := by
    rintro rfl
    refine trimOf_eq_self (fun d hd => ?_) ?_
    · rw [← Option.some.inj hd]
      decide
    · by_cases hnil : left = []
      · rw [hnil, List.append_nil]
        exact endsOutside_of_getLast List.getLast?_concat (by decide)
      · refine endsOutside_of_getLast (c := ';') ?_ (by decide)
        rw [List.getLast?_append_of_ne_nil _ hnil]
        exact hlast hnil
  by_cases hnil : left = []
  · subst hnil
    rw [List.append_nil] at hback ⊢
    rcases quote with rfl | rfl
    · rw [trimOf_quoted closed, trimOf_eq_self_iff]
      have hends :
          (StartsOutside (fun d => decide (d = '`')) content ∧ EndsOutside (fun d => decide (d = '`')) content) ↔
          content.head? ≠ some '`' ∧ content.getLast? ≠ some '`' := by
        have hout : ∀ o : Option Char, (∀ d ∈ o, decide (d = '`') = false) ↔ o ≠ some '`' := by
          intro o
          cases o with
          | none => simp
          | some d => simp
        exact and_congr (hout _) (hout _)
      rw [hends]
      exact ⟨fun h => ⟨rfl, hcontent, fun _ => h⟩, fun h => h.2.2 rfl⟩
    · rw [hback rfl, trimOf_quoted closed]
      exact ⟨fun _ => ⟨rfl, hcontent, fun h => absurd h (by decide)⟩, fun _ => rfl⟩
  · -- what is left keeps the closing quote
    refine ⟨fun h => ?_, fun h => absurd h.1 hnil⟩
    have hlastleft := hlast hnil
    have hsemi : ';' ∈ q :: content ++ [q] ++ left := List.mem_append_right _ (List.mem_of_getLast? hlastleft)
    have hsemi' := mem_trimOf (p := fun d => decide (d = '`'))
      (mem_trimOf (p := fun d => decide (d = '"')) hsemi (by decide)) (by decide)
    rw [h] at hsemi'
    have hne : content ≠ [] := List.ne_nil_of_mem hsemi'
    have hsplit : q :: content ++ [q] ++ left = q :: content ++ q :: left := by simp
    have hmem : q ∈ content := by
      rw [← h]
      rcases quote with rfl | rfl
      · rw [hsplit]
        exact mem_trimOf (mem_trimOf_quoted closed hne hlastleft (by decide)) (by decide)
      · rw [hback rfl, hsplit]
        exact mem_trimOf_quoted closed hne hlastleft (by decide)
    exact absurd hmem closed

/-- **The last part of a name is read back** exactly if nothing is left behind it and the quotes are all that
trimming takes off. -/
theorem schemaOf_name (clause : SchemaClause rules) (hleft : ∀ d ∈ left, Text.isWhitespace d = true ∨ d = ';')
    (hlast : left ≠ [] → left.getLast? = some ';') :
    schemaOf (clause.dots ++ (clause.name.text ++ left)) = clause.name.value ↔ left = [] ∧ clause.name.Kept := by
  cases clause.name with
  | plain c cs start rest => exact (schemaOf_plain start rest hleft hlast).trans (and_iff_left trivial).symm
  | quoted q content quote closed => exact schemaOf_quoted quote closed hleft hlast

end

/-! ### Exactness -/

/-- The keywords of a statement are those of the parser if one blank stands between them. -/
theorem ShowTables.gap_eq {t : ShowTables rules} {keywords rest : List Char}
    (hkeywords : Keyword "show tables" keywords)
    (h : t.core ++ leftOver t.after = keywords ++ rest) : t.gap = [' '] := by
  have hwords : keywords.map Char.toLower = "show".toList ++ ' ' :: 't' :: "ables".toList := hkeywords.trans (by decide)
  obtain ⟨show', tables', hsplit, hshow, htables⟩ := List.map_eq_append_iff.mp hwords
  have hlength : t.showWord.length = show'.length := by
    have h1 := congrArg List.length t.showWord_keyword
    have h2 := congrArg List.length hshow
    rw [List.length_map] at h1 h2
    rw [h1, h2]
  rw [ShowTables.core, hsplit, List.append_assoc, List.append_assoc, List.append_assoc, List.append_assoc] at h
  have hgap := (List.append_inj h hlength).2
  obtain ⟨c, tables'', hc, hblank, htables''⟩ := List.map_eq_cons_iff.mp htables
  obtain ⟨d, tables''', hd, hletter, -⟩ := List.map_eq_cons_iff.mp htables''
  rw [hc, hd] at hgap
  -- the first character behind the keyword is a blank, the second a letter
  have hcblank : c = ' ' := by
    rw [← (Text.isAlpha_toLower c).2, hblank]
    rw [← (Text.isAlpha_toLower c).1, hblank]
    decide
  have hdalpha : d.isAlpha = true := by
    rw [← (Text.isAlpha_toLower d).1, hletter]
    decide
  have hgapblank := t.gap_blank
  generalize t.gap = gap at hgap hgapblank
  cases gap with
  | nil => exact absurd rfl hgapblank.1
  | cons g gs =>
      obtain ⟨hg, hgs⟩ := List.cons.inj hgap
      cases gs with
      | nil => rw [hg, hcblank]
      | cons g' gs =>
          obtain ⟨hg', -⟩ := List.cons.inj hgs
          have hws := hgapblank.2 g' (by simp)
          rw [hg', Text.isWhitespace_of_isAlpha hdalpha] at hws
          cases hws

/-- With one blank between the keywords, the bare form is parsed if nothing is left behind it. -/
theorem ShowTables.parse_bare {t : ShowTables rules} (hgap : t.gap = [' ']) (hschema : t.schema = none)
    (hleft : leftOver t.after = []) : parseShowTables t.text = some (some none) := by
  refine parseShowTables_bare ?_
  rw [statement_text, hleft, List.append_nil, ShowTables.core, ShowTables.clause, hschema, hgap]
  show (t.showWord ++ [' '] ++ t.tablesWord ++ []).map Char.toLower = _
  rw [List.append_nil, List.map_append, List.map_append, t.showWord_keyword, t.tablesWord_keyword]
  decide

/-- With one blank between the keywords, a name is read together with what is left behind it. -/
theorem ShowTables.parse_in {t : ShowTables rules} {clause : SchemaClause rules} (hgap : t.gap = [' '])
    (hschema : t.schema = some clause) :
    parseShowTables t.text =
      some (some (some (schemaOf (clause.dots ++ (clause.name.text ++ leftOver t.after))))) := by
  obtain ⟨first, hfirst, hsolid⟩ := clause.name_head
  have hne : clause.dots ++ clause.name.text ≠ [] := by
    intro hnil
    rw [hnil] at hfirst
    cases hfirst
  have hstart : StartsOutside Text.isWhitespace (clause.dots ++ (clause.name.text ++ leftOver t.after)) := by
    rw [← List.append_assoc]
    refine startsOutside_append (fun c hc => ?_) hne _
    rw [Option.mem_def.mp hc] at hfirst
    rw [Option.some.inj hfirst]
    exact hsolid.1
  have hsplit : statement t.text = (t.showWord ++ [' '] ++ t.tablesWord) ++ (clause.gap ++ (clause.inWord ++
      (clause.innerGap ++ (clause.dots ++ (clause.name.text ++ leftOver t.after))))) := by
    rw [statement_text, ShowTables.core, ShowTables.clause, hschema, hgap]
    show _ ++ clause.text ++ _ = _
    simp only [SchemaClause.text, List.append_assoc]
  have hkeywords : Keyword "show tables" (t.showWord ++ [' '] ++ t.tablesWord) := by
    show (t.showWord ++ [' '] ++ t.tablesWord).map Char.toLower = _
    rw [List.map_append, List.map_append, t.showWord_keyword, t.tablesWord_keyword]
    decide
  refine parseShowTables_in hsplit hkeywords clause.gap_blank clause.inWord_keyword clause.innerGap_blank ?_ hstart
  rw [← List.append_assoc]
  exact fun hnil => hne (List.append_eq_nil_iff.mp hnil).1

/-- **A statement of the grammar is parsed to its result** exactly if it is understood. -/
theorem ShowTables.parse_iff (t : ShowTables rules) :
    parseShowTables t.text = some (some t.result) ↔ t.Understood := by
  obtain ⟨hleft, hlast, hplain⟩ := leftOver_spec t.after_end
  constructor
  · intro h
    have hgap : t.gap = [' '] := by
      rcases showsIn_of_parseShowTables h with
        ⟨hkeywords, -⟩ | ⟨⟨keywords, gap, inWord, innerGap, name, hs, hkeywords, -⟩, -⟩
      · rw [statement_text] at hkeywords
        exact t.gap_eq hkeywords (List.append_nil _).symm
      · rw [statement_text] at hs
        exact t.gap_eq hkeywords hs
    cases hschema : t.schema with
    | none =>
        have hresult : t.result = none := by
          rw [ShowTables.result, hschema]
          rfl
        refine ⟨hgap, hplain.mp ?_, by rw [hschema]; exact fun clause hclause => by cases hclause⟩
        -- the bare form ends with the keyword
        have hcore : t.core.length = 11 := by
          have hshow := congrArg List.length t.showWord_keyword
          have htables := congrArg List.length t.tablesWord_keyword
          rw [List.length_map] at hshow htables
          rw [ShowTables.core, ShowTables.clause, hschema, hgap, List.length_append, List.length_append,
            List.length_append, hshow, htables]
          rfl
        obtain ⟨hkeywords, -⟩ := (showsIn_of_parseShowTables h).resolve_right fun hshows => hshows.2 hresult
        have hlength := congrArg List.length hkeywords
        rw [statement_text, List.length_map, List.length_append, hcore] at hlength
        have h11 : "show tables".toList.length = 11 := rfl
        exact List.length_eq_zero_iff.mp (by omega)
    | some clause =>
        have hresult : t.result = some clause.name.value := by
          rw [ShowTables.result, hschema]
          rfl
        rw [t.parse_in hgap hschema, hresult] at h
        obtain ⟨hnil, hkept⟩ := (schemaOf_name clause hleft hlast).mp
          (Option.some.inj (Option.some.inj (Option.some.inj h)))
        refine ⟨hgap, hplain.mp hnil, ?_⟩
        rw [hschema]
        rintro clause' hclause'
        rw [← Option.some.inj hclause']
        exact hkept
  · intro h
    have hnil := hplain.mpr h.after
    cases hschema : t.schema with
    | none =>
        rw [t.parse_bare h.gap hschema hnil, ShowTables.result, hschema]
        rfl
    | some clause =>
        have hkept := h.name clause hschema
        rw [t.parse_in h.gap hschema, (schemaOf_name clause hleft hlast).mpr ⟨hnil, hkept⟩, ShowTables.result, hschema]
        rfl

/-- White space and semicolons stand around what the parser looks at. -/
theorem exists_append_statement (sql : List Char) : ∃ before after, sql = before ++ statement sql ++ after ∧
    (∀ c ∈ before, Text.isWhitespace c = true) ∧ ∀ c ∈ after, Text.isWhitespace c = true ∨ c = ';' := by
  obtain ⟨pre, post, hsql, hpre, hpost, -, -⟩ := exists_append_trimOf Text.isWhitespace sql
  obtain ⟨semis, htrim, hsemis, -⟩ := exists_append_trimEnd (fun c : Char => decide (c = ';')) (trim sql)
  obtain ⟨pre', post', hstatement, hpre', hpost', -, -⟩ :=
    exists_append_trimOf Text.isWhitespace (trimEnd (fun c : Char => decide (c = ';')) (trim sql))
  refine ⟨pre ++ pre', post' ++ semis ++ post, ?_, ?_, ?_⟩
  · have hinner : trim sql = pre' ++ statement sql ++ post' ++ semis := htrim.trans (congrArg (· ++ semis) hstatement)
    have houter : sql = pre ++ trim sql ++ post := hsql
    rw [hinner] at houter
    simpa only [List.append_assoc] using houter
  · exact fun c hc => (List.mem_append.mp hc).elim (hpre c) (hpre' c)
  · intro c hc
    rcases List.mem_append.mp hc with hc | hc
    · exact (List.mem_append.mp hc).imp (hpost' c) fun hc => of_decide_eq_true (hsemis c hc)
    · exact .inl (hpost c hc)

/-- What is parsed as the bare form is one. -/
theorem exists_showTables_bare {sql : List Char} (rules : IdentRules) (h : Keyword "show tables" (statement sql)) :
    ∃ t : ShowTables rules, t.text = sql := by
  obtain ⟨before, after, hsql, hbefore, hafter⟩ := exists_append_statement sql
  have hwords : (statement sql).map Char.toLower = "show".toList ++ ' ' :: "tables".toList := h.trans (by decide)
  obtain ⟨show', rest, hsplit, hshow, hrest⟩ := List.map_eq_append_iff.mp hwords
  obtain ⟨c, tables', hc, hblank, htables⟩ := List.map_eq_cons_iff.mp hrest
  have hcblank : c = ' ' := by
    rw [← (Text.isAlpha_toLower c).2, hblank]
    rw [← (Text.isAlpha_toLower c).1, hblank]
    decide
  refine ⟨{ before := before, showWord := show', gap := [' '], tablesWord := tables', schema := none, after := after,
            before_blank := hbefore, showWord_keyword := hshow, gap_blank := ⟨by simp, by simp; decide⟩,
            tablesWord_keyword := htables, after_end := hafter }, ?_⟩
  rw [hsplit, hc, hcblank] at hsql
  rw [hsql]
  simp [ShowTables.text, ShowTables.core, ShowTables.clause]

/-- **A statement is parsed as the grammar says** exactly if all its spellings are understood, or if it is not in the
grammar, and the keywords, `IN` and something behind it are not what it consists of. -/
theorem parseShowTables_exact_iff (rules : IdentRules) (sql : List Char) : Exact rules sql ↔
    (∀ t : ShowTables rules, t.text = sql → t.Understood) ∧
      ((∃ t : ShowTables rules, t.text = sql) ∨ ¬ ShowsIn (statement sql)) := by
  constructor
  · intro h
    refine ⟨?_, ?_⟩
    · rintro t rfl
      exact t.parse_iff.mp ((h t.result).mpr ⟨t, rfl, rfl⟩)
    · by_cases hshows : ShowsIn (statement sql)
      · obtain ⟨r, hr⟩ := exists_parseShowTables hshows
        obtain ⟨t, ht, -⟩ := (h r).mp hr
        exact .inl ⟨t, ht⟩
      · exact .inr hshows
  · rintro ⟨hunderstood, hcases⟩ r
    constructor
    · intro hr
      have htree : ∃ t : ShowTables rules, t.text = sql := by
        rcases hcases with htree | hshows
        · exact htree
        · rcases showsIn_of_parseShowTables hr with ⟨hkeywords, -⟩ | ⟨hin, -⟩
          · exact exists_showTables_bare rules hkeywords
          · exact absurd hin hshows
      obtain ⟨t, rfl⟩ := htree
      rw [t.parse_iff.mpr (hunderstood t rfl)] at hr
      exact ⟨t, rfl, Option.some.inj (Option.some.inj hr)⟩
    · rintro ⟨t, rfl, rfl⟩
      exact t.parse_iff.mpr (hunderstood t rfl)

/-- The ASCII letters, digits and the underscore. -/
def asciiRules : IdentRules where
  isStart c := c.isAlpha || c == '_'
  isPart c := c.isAlpha || c.isDigit || c == '_'
  isPart_of_isStart c h := by
    rcases Bool.or_eq_true _ _ ▸ h with h | h
    · rw [h]
      rfl
    · rw [h, Bool.or_true]
  isPart_bare c h := by
    have hascii : ∀ n : Fin 128, ((Char.ofNat n).isAlpha || (Char.ofNat n).isDigit || Char.ofNat n == '_') = true →
        Text.isWhitespace (Char.ofNat n) = false ∧ Char.ofNat n ∉ ['.', '"', '`', ';'] := by decide
    have hlt : c.toNat < 128 := by
      rcases Bool.or_eq_true _ _ ▸ h with h | h
      · rcases Bool.or_eq_true _ _ ▸ h with h | h
        · have := Text.toNat_of_isAlpha h
          omega
        · have hdigit := of_decide_eq_true (Bool.and_eq_true _ _ ▸ h).2
          have hle : c.toNat ≤ 57 := UInt32.le_iff_toNat_le.mp hdigit
          omega
      · rw [beq_iff_eq.mp h]
        decide
    have hchar := hascii ⟨c.toNat, hlt⟩
    rw [Char.ofNat_toNat] at hchar
    exact hchar h

/-- Two blanks between the keywords are not understood. -/
theorem not_exact_blanks : ¬ Exact asciiRules "SHOW  TABLES".toList := by
  intro h
  have hnone : parseShowTables "SHOW  TABLES".toList = some none := by decide
  have hsome := (h none).mpr ⟨{
    before := [], showWord := "SHOW".toList, gap := [' ', ' '], tablesWord := "TABLES".toList, schema := none,
    after := [],
    before_blank := by simp, showWord_keyword := by unfold Keyword; decide, gap_blank := ⟨by simp, by simp; decide⟩,
    tablesWord_keyword := by unfold Keyword; decide, after_end := by simp }, by decide, rfl⟩
  rw [hnone] at hsome
  cases hsome

end IcebergDb.Sql
