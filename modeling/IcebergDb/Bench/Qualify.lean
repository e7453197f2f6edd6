import IcebergDb.Foundation.StableSort
import IcebergDb.Foundation.Text
import IcebergDb.Foundation.Words

/-!
# Qualified table names

`qualify.rs` puts a schema before the bare names of TPC-DS tables in a query, with one pattern and one pass for each
table.

* `replaceAll`, `qualifyTpcdsSql` — the pattern of a table, its leftmost matches that do not overlap, and the passes;
* `Lexer`, `Site`, `Qualified` — which runs of word characters are bare names in a dialect, and what should stand for
  each run;
* `replaceAll_join`, `pass_expand` — a pass over a text is a pass over its runs, and one more table is done by it;
* `qualifyTpcdsSql_join` — the function qualifies what is taken for a table, but for every second of neighbours;
* `qualify_twice_iff` — when nothing is left to qualify;
* `qualified_cons_iff` — one run, by what it is taken for and what it is;
* `qualify_iff` — **the function qualifies a query, and only once, exactly if the query is plain.**
-/

namespace IcebergDb.Bench

open Words

/-! ### The source -/

/-- `TPCDS_TABLES`. -/
def tpcdsTables : List (List Char) :=
  ["call_center".toList, "catalog_returns".toList, "catalog_sales".toList, "customer".toList,
    "customer_address".toList, "customer_demographics".toList, "date_dim".toList, "household_demographics".toList,
    "income_band".toList, "inventory".toList, "item".toList, "promotion".toList, "reason".toList, "ship_mode".toList,
    "store".toList, "store_returns".toList, "store_sales".toList, "time_dim".toList, "warehouse".toList,
    "web_page".toList, "web_returns".toList, "web_sales".toList, "web_site".toList]

/-- A plain identifier, which stands for itself in a replacement. -/
structure SchemaName where
  text : List Char
  first : text.head?.any fun c => c.isAlpha || c = '_'
  rest : ∀ c ∈ text, c.isAlphanum || c = '_'

/-- The class `\w` of the crate `regex`: the letters, marks, digits and connectors of Unicode. -/
structure WordClass where
  isWord : Char → Bool
  ascii : ∀ c, c.toNat < 128 → isWord c = (c.isAlphanum || c = '_')
  longS : isWord '\u017f' = true
  kelvin : isWord '\u212a' = true

/-- The letter that a letter is matched with under `(?i)`. -/
def foldCase (c : Char) : Char := if c = '\u017f' then 's' else if c = '\u212a' then 'k' else c.toLower

section

variable (W : WordClass)

/-- `[^.\w]`. -/
def isDelimiter (c : Char) : Bool := !(c = '.' || W.isWord c)

/-- A match of the name and of `([^.\w]|$)`, with what the group has. -/
def matchName (table cs : List Char) : Option (Option Char) :=
  if (cs.take table.length).map foldCase = table then
    match cs.drop table.length with
    | [] => some none
    | c :: _ => if isDelimiter W c then some (some c) else none
  else none

/-- A match of `[^.\w]` before the name. -/
def matchBehind (table : List Char) : List Char → Option (Option Char × Option Char)
  | [] => none
  | c :: cs => if isDelimiter W c then (matchName W table cs).map (some c, ·) else none

/-- A match of the pattern at the beginning of a text, with what the groups have. -/
def matchPattern (table : List Char) (start : Bool) (cs : List Char) : Option (Option Char × Option Char) :=
  match if start then matchName W table cs else none with
  | some after => some (none, after)
  | none => matchBehind W table cs

/-- `replace_all`, while some characters are still to be passed over because they were matched. -/
def replaceFrom (schema table : List Char) : Bool → ℕ → List Char → List Char
  | _, _, [] => []
  | _, skip + 1, _ :: cs => replaceFrom schema table false skip cs
  | start, 0, c :: cs =>
      match matchPattern W table start (c :: cs) with
      | some (before, after) =>
          before.toList ++ schema ++ '.' :: table ++ after.toList ++
            replaceFrom schema table false (before.toList.length + table.length + after.toList.length - 1) cs
      | none => c :: replaceFrom schema table false 0 cs

/-- One pass over the text. -/
def replaceAll (schema table cs : List Char) : List Char := replaceFrom W schema table true 0 cs

/-- `qualify_tpcds_sql`. -/
def qualifyTpcdsSql (schema : SchemaName) (sql : List Char) : List Char :=
  (StableSort.sortDesc List.length tpcdsTables).foldl (fun out table => replaceAll W schema.text table out) sql

end

/-! ### What should be qualified -/

/-- The lexical grammar of a dialect: states between characters, those outside of literals, comments and quoted
identifiers, and the characters of identifiers besides `\w`. -/
structure Lexer where
  State : Type
  start : State
  next : State → Char → State
  isCode : State → Bool
  isPart : Char → Bool

/-- Reading a text. -/
def Lexer.read (L : Lexer) (s : L.State) (cs : List Char) : L.State := cs.foldl L.next s

/-- A run of word characters in a query. -/
structure Site (L : Lexer) where
  state : L.State
  left : Option Char
  word : List Char
  right : Option Char

/-- The runs of a query, from a state on. -/
def sitesFrom (L : Lexer) (s : L.State) : List (Piece Char) → List (Site L)
  | [] => []
  | a :: l => ⟨L.read s a.left.toList, a.left, a.word, Words.next l⟩ :: sitesFrom L (L.read s a.text) l

/-- The runs of a query. -/
def sites (W : WordClass) (L : Lexer) (sql : List Char) : List (Site L) :=
  sitesFrom L L.start (pieces W.isWord sql)

/-- The base tables of TPC-DS. -/
def baseTables : List (List Char) := "catalog_page".toList :: tpcdsTables

/-- No part of a longer identifier, and not qualified. -/
def Lexer.Ends (L : Lexer) (c : Option Char) : Prop := ∀ d, c = some d → d ≠ '.' ∧ L.isPart d = false

/-- A bare table name. -/
structure Site.Bare {L : Lexer} (a : Site L) : Prop where
  code : L.isCode a.state = true
  left : L.Ends a.left
  right : L.Ends a.right
  table : a.word.map Char.toLower ∈ baseTables

/-- What should stand for a run: a bare table name behind the schema, in any letter case, and all else as it is. -/
def Site.Becomes {L : Lexer} (schema : List Char) (a : Site L) (text : List Char) : Prop :=
  (a.Bare → ∃ name : List Char, name.map Char.toLower = a.word.map Char.toLower ∧ text = schema ++ '.' :: name) ∧
    (¬ a.Bare → text = a.word)

/-- A query with its bare table names qualified. -/
def Qualified {L : Lexer} (schema : List Char) : List (Site L) → List Char → Prop
  | [], out => out = []
  | a :: l, out => ∃ text rest, out = a.left.toList ++ (text ++ rest) ∧ a.Becomes schema text ∧ Qualified schema l rest

/-- The table that the patterns take a run for. -/
def tableAt (left : Option Char) (word : List Char) (right : Option Char) : Option (List Char) :=
  if left ≠ some '.' ∧ right ≠ some '.' ∧ word.map foldCase ∈ tpcdsTables then some (word.map foldCase) else none

/-- The table that the patterns take a run for. -/
def Site.table? {L : Lexer} (a : Site L) : Option (List Char) := tableAt a.left a.word a.right

/-- Two neighbouring runs are not taken for one table. -/
def Apart (tables : List (Option (List Char))) : Prop := tables.IsChain fun t t' => t ≠ none → t ≠ t'

/-- A query in which the patterns find what they should. -/
structure Plain (W : WordClass) (L : Lexer) (sql : List Char) : Prop where
  apart : Apart ((sites W L sql).map Site.table?)
  bare : ∀ a ∈ sites W L sql, a.table? ≠ none → L.isCode a.state = true ∧ L.Ends a.left ∧ L.Ends a.right ∧
    '\u017f' ∉ a.word
  listed : ∀ a ∈ sites W L sql, a.Bare → a.word.map Char.toLower ≠ "catalog_page".toList

section

variable {W : WordClass} {schema table : List Char} {a : Piece Char} {l : List (Piece Char)}

/-! ### Names -/

/-- The names have lower-case letters and underscores only, and no `k`. -/
theorem of_mem_baseTables (h : table ∈ baseTables) :
    table ≠ [] ∧ ∀ c ∈ table, (c.isLower || c = '_') = true ∧ c.toLower = c ∧ c ≠ 'k' := by
  have hall : baseTables.all (fun t => !t.isEmpty &&
      t.all fun c => (c.isLower || c = '_') && c.toLower = c && c ≠ 'k') = true := by
    decide
  have htable := List.all_eq_true.mp hall table h
  rw [Bool.and_eq_true, List.all_eq_true, Bool.not_eq_true', List.isEmpty_eq_false_iff] at htable
  refine ⟨htable.1, fun c hc => ?_⟩
  have hchar := htable.2 c hc
  rwa [Bool.and_eq_true, Bool.and_eq_true, decide_eq_true_eq, decide_eq_true_eq, and_assoc] at hchar

theorem mem_baseTables (h : table ∈ tpcdsTables) : table ∈ baseTables := List.mem_cons_of_mem _ h

theorem map_toLower_table (h : table ∈ baseTables) : table.map Char.toLower = table :=
  (List.map_congr_left fun c hc => ((of_mem_baseTables h).2 c hc).2.1).trans (List.map_id table)

/-- A letter of a name is a word character. -/
theorem isWord_of_toLower (W : WordClass) {c : Char} (h : (c.toLower.isLower || c.toLower = '_') = true) :
    W.isWord c = true := by
  cases halpha : c.isAlpha with
  | true =>
      obtain ⟨-, hhigh⟩ := Text.toNat_of_isAlpha halpha
      rw [W.ascii c (by omega), Char.isAlphanum, halpha]
      rfl
  | false =>
      obtain ⟨heq, hother⟩ := Text.isAlpha_toLower c
      rw [hother halpha, Bool.or_eq_true, decide_eq_true_eq] at h
      rcases h with hlower | rfl
      · have hletter : (c.isUpper || c.isLower) = false := halpha
        rw [hlower, Bool.or_true] at hletter
        cases hletter
      · rw [W.ascii '_' (by decide)]
        rfl

theorem isWord_of_foldCase (W : WordClass) {c : Char} (h : ((foldCase c).isLower || foldCase c = '_') = true) :
    W.isWord c = true := by
  rw [foldCase] at h
  split at h
  · rename_i hc
    rw [hc]
    exact W.longS
  · split at h
    · rename_i hc
      rw [hc]
      exact W.kelvin
    · exact isWord_of_toLower W h

/-- What is matched with a name is a word. -/
theorem isWord_of_map_foldCase (W : WordClass) {cs : List Char} (h : cs.map foldCase ∈ baseTables) :
    ∀ c ∈ cs, W.isWord c = true :=
  fun c hc => isWord_of_foldCase W ((of_mem_baseTables h).2 (foldCase c) (List.mem_map_of_mem hc)).1

theorem isWord_of_map_toLower (W : WordClass) {cs : List Char} (h : cs.map Char.toLower ∈ baseTables) :
    ∀ c ∈ cs, W.isWord c = true :=
  fun c hc => isWord_of_toLower W ((of_mem_baseTables h).2 c.toLower (List.mem_map_of_mem hc)).1

theorem isWord_table (W : WordClass) (h : table ∈ baseTables) : ∀ c ∈ table, W.isWord c = true :=
  isWord_of_map_toLower W ((map_toLower_table h).symm ▸ h)

/-- A schema is a word. -/
theorem SchemaName.isWord (schema : SchemaName) (W : WordClass) : ∀ c ∈ schema.text, W.isWord c = true := by
  intro c hc
  have hchar := schema.rest c hc
  have hascii : c.toNat < 128 := by
    rw [Char.isAlphanum, Bool.or_eq_true, Bool.or_eq_true, decide_eq_true_eq] at hchar
    rcases hchar with (halpha | hdigit) | rfl
    · have := Text.toNat_of_isAlpha halpha
      omega
    · have := Text.toNat_of_isDigit hdigit
      omega
    · decide
  rw [W.ascii c hascii, hchar]

/-! ### Matching -/

theorem isDelimiter_eq_false {c : Char} (h : W.isWord c = true) : isDelimiter W c = false := by
  rw [isDelimiter, h, Bool.or_true]
  rfl

theorem isDelimiter_iff {c : Char} (h : W.isWord c = false) : isDelimiter W c = true ↔ c ≠ '.' := by
  rw [isDelimiter, h, Bool.or_false, Bool.not_eq_true', decide_eq_false_iff_not]

/-- A name is matched at a word exactly if it is this word, and no `.` stands behind it. -/
theorem matchName_append (htable : table ∈ tpcdsTables) {w rest : List Char} (hw : ∀ c ∈ w, W.isWord c = true)
    (hrest : ∀ c ∈ rest.head?, W.isWord c = false) :
    matchName W table (w ++ rest) =
      if w.map foldCase = table ∧ rest.head? ≠ some '.' then some rest.head? else none := by
  by_cases hname : w.map foldCase = table
  · have hlength : table.length = w.length := by rw [← hname, List.length_map]
    rw [matchName, hlength, List.take_left, List.drop_left, if_pos hname]
    cases rest with
    | nil => exact (if_pos ⟨hname, Option.some_ne_none _ |>.symm⟩).symm
    | cons c rest =>
        have hdelimiter := isDelimiter_iff (hrest c rfl)
        show (if isDelimiter W c = true then some (some c) else none) = _
        by_cases hdot : c = '.'
        · rw [if_neg fun h => hdelimiter.mp h hdot, if_neg fun h => h.2 (congrArg some hdot)]
        · have hne : (c :: rest).head? ≠ some '.' := fun h => hdot (Option.some.inj h)
          rw [if_pos (hdelimiter.mpr hdot), if_pos ⟨hname, hne⟩]
          rfl
  · rw [if_neg fun h => hname h.1, matchName]
    split
    · rename_i htake
      -- the characters matched are words, so the word goes on behind them
      have htaken := isWord_of_map_foldCase W (htake.symm ▸ mem_baseTables htable)
      have hsplit := List.take_append_drop table.length (w ++ rest)
      cases hdrop : (w ++ rest).drop table.length with
      | nil =>
          rw [hdrop] at hsplit
          obtain ⟨hword, -⟩ := word_inj htaken hw (fun c hc => by cases hc) hrest hsplit
          exact absurd (hword ▸ htake) hname
      | cons c cs =>
          rw [hdrop] at hsplit
          refine if_neg fun hdelimiter => ?_
          have hc : W.isWord c = false := by
            rw [Bool.eq_false_iff]
            intro hword
            rw [isDelimiter_eq_false hword] at hdelimiter
            cases hdelimiter
          have hhead : ∀ d ∈ (c :: cs).head?, W.isWord d = false := by
            intro d hd
            rw [← Option.some.inj hd]
            exact hc
          obtain ⟨hword, -⟩ := word_inj htaken hw hhead hrest hsplit
          exact hname (hword ▸ htake)
    · rfl

/-! ### One pass -/

/-- Whether a run is matched, if the character before it is not taken. -/
def hit (table : List Char) (a : Piece Char) (right : Option Char) : Bool :=
  a.word.map foldCase = table && a.left ≠ some '.' && right ≠ some '.'

/-- A pass over runs; what stands behind a match is taken by it. -/
def pass (schema table : List Char) : Bool → List (Piece Char) → List (Piece Char)
  | _, [] => []
  | skip, a :: l =>
      if !skip && hit table a (next l) then ⟨a.left, schema⟩ :: ⟨some '.', table⟩ :: pass schema table true l
      else a :: pass schema table false l

theorem hit_iff {right : Option Char} :
    hit table a right = true ↔ a.word.map foldCase = table ∧ a.left ≠ some '.' ∧ right ≠ some '.' := by
  rw [hit, Bool.and_eq_true, Bool.and_eq_true, decide_eq_true_eq, decide_eq_true_eq, decide_eq_true_eq, and_assoc]

theorem replaceFrom_skip (w cs : List Char) (n : ℕ) :
    replaceFrom W schema table false (w.length + n) (w ++ cs) = replaceFrom W schema table false n cs := by
  induction w with
  | nil => rw [List.length_nil, Nat.zero_add, List.nil_append]
  | cons c w ih => rw [List.length_cons, Nat.add_right_comm, List.cons_append, replaceFrom, ih]

theorem matchBehind_word {c : Char} (hc : W.isWord c = true) (cs : List Char) :
    matchBehind W table (c :: cs) = none := by
  rw [matchBehind, isDelimiter_eq_false hc]
  rfl

/-- A word is copied where the character before it is taken. -/
theorem replaceFrom_word {w : List Char} (hw : ∀ c ∈ w, W.isWord c = true) (cs : List Char) :
    replaceFrom W schema table false 0 (w ++ cs) = w ++ replaceFrom W schema table false 0 cs := by
  induction w with
  | nil => rfl
  | cons c w ih =>
      rw [List.forall_mem_cons] at hw
      have hmatch : matchPattern W table false (c :: (w ++ cs)) = none := matchBehind_word hw.1 _
      rw [List.cons_append, replaceFrom, hmatch, List.cons_append]
      exact congrArg (c :: ·) (ih hw.2)

theorem follow_head (hl : Follow W.isWord l) : ∀ c ∈ (join l).head?, W.isWord c = false := by
  rw [head?_join hl]
  exact fun c hc => next_eq_false hl hc

/-- The pattern at a run. -/
theorem matchBehind_cons (htable : table ∈ tpcdsTables) (ha : Follow W.isWord (a :: l)) :
    matchBehind W table (join (a :: l)) = if hit table a (next l) then some (a.left, next l) else none := by
  obtain ⟨⟨⟨c, hleft, hc⟩, hword⟩, hl⟩ := follow_cons.mp ha
  have hname := matchName_append htable hword (follow_head hl)
  rw [head?_join hl] at hname
  rw [join_cons, hleft, Option.toList_some, List.singleton_append, matchBehind, hname]
  by_cases hdot : c = '.'
  · rw [if_neg fun h => (isDelimiter_iff hc).mp h hdot, if_neg fun h => (hit_iff.mp h).2.1 (hleft.trans (hdot ▸ rfl))]
  · have hne : a.left ≠ some '.' := by
      rw [hleft]
      exact fun h => hdot (Option.some.inj h)
    rw [if_pos ((isDelimiter_iff hc).mpr hdot)]
    by_cases hname : a.word.map foldCase = table ∧ next l ≠ some '.'
    · rw [if_pos hname, if_pos (hit_iff.mpr ⟨hname.1, hne, hname.2⟩)]
      rfl
    · rw [if_neg hname, if_neg fun h => hname ⟨(hit_iff.mp h).1, (hit_iff.mp h).2.2⟩]
      rfl

/-- What is copied behind a match. -/
theorem length_of_hit {right : Option Char} (h : hit table a right = true) : table.length = a.word.length := by
  rw [← (hit_iff.mp h).1, List.length_map]

/-- What a match puts before the rest of the text. -/
theorem replaceFrom_hit {start : Bool} {c : Char} {w cs : List Char} {before after : Option Char}
    (hmatch : matchPattern W table start (c :: (w ++ cs)) = some (before, after))
    (hlength : before.toList.length + table.length = w.length + 1) :
    replaceFrom W schema table start 0 (c :: (w ++ cs)) =
      before.toList ++ (schema ++ '.' :: (table ++ (after.toList ++
        replaceFrom W schema table false after.toList.length cs))) := by
  have hskip : before.toList.length + table.length + after.toList.length - 1 = w.length + after.toList.length := by
    omega
  rw [replaceFrom, hmatch]
  show before.toList ++ schema ++ '.' :: table ++ after.toList ++ replaceFrom W schema table false
    (before.toList.length + table.length + after.toList.length - 1) (w ++ cs) = _
  rw [hskip, replaceFrom_skip]
  simp only [List.append_assoc, List.cons_append]

/-- **A pass over a text is a pass over its runs**, where the character before the first one is not taken, and where it
is. -/
theorem replaceFrom_join (schema : List Char) (htable : table ∈ tpcdsTables) (hl : Follow W.isWord l) :
    replaceFrom W schema table false 0 (join l) = join (pass schema table false l) ∧
      (next l).toList ++ replaceFrom W schema table false (next l).toList.length (join l) =
        join (pass schema table true l) := by
  induction l with
  | nil => exact ⟨rfl, rfl⟩
  | cons a l ih =>
      obtain ⟨⟨⟨c, hleft, hc⟩, hword⟩, hrest⟩ := follow_cons.mp hl
      obtain ⟨hfree, htaken⟩ := ih hrest
      have htext : join (a :: l) = c :: (a.word ++ join l) := by
        rw [join_cons, hleft]
        rfl
      have hnext : next (a :: l) = some c := hleft
      have hmatch : matchPattern W table false (c :: (a.word ++ join l)) =
          if hit table a (next l) then some (a.left, next l) else none := by
        rw [← matchBehind_cons htable hl, htext]
        rfl
      constructor
      · rw [htext, pass, Bool.not_false, Bool.true_and]
        cases hhit : hit table a (next l) with
        | true =>
            have hlength : a.left.toList.length + table.length = a.word.length + 1 := by
              rw [length_of_hit hhit, hleft, Nat.add_comm]
              rfl
            rw [hhit, if_pos rfl] at hmatch
            rw [replaceFrom_hit hmatch hlength, htaken, if_pos rfl, join_cons, join_cons]
            rfl
        | false =>
            rw [replaceFrom, hmatch, hhit]
            show c :: replaceFrom W schema table false 0 (a.word ++ join l) = join (a :: pass schema table false l)
            rw [replaceFrom_word hword, hfree, join_cons, hleft]
            rfl
      · have hskipped : pass schema table true (a :: l) = a :: pass schema table false l := rfl
        rw [hskipped, hnext, htext, join_cons, hleft, ← hfree]
        show c :: replaceFrom W schema table false 0 (a.word ++ join l) = _
        rw [replaceFrom_word hword]
        rfl

/-- At the beginning of a text no character is needed before a name. -/
theorem replaceAll_join (htable : table ∈ tpcdsTables) (h : IsCut W.isWord l) :
    replaceAll W schema table (join l) = join (pass schema table false l) := by
  cases h with
  | mk hword hrest =>
      rename_i word l
      obtain ⟨hfree, htaken⟩ := replaceFrom_join schema htable hrest
      have hname := matchName_append htable hword (follow_head hrest)
      rw [head?_join hrest] at hname
      rw [join_cons, Option.toList_none, List.nil_append, replaceAll, pass, Bool.not_false, Bool.true_and]
      cases word with
      | nil =>
          have hmiss : ¬ [] = table := fun h => (of_mem_baseTables (mem_baseTables htable)).1 h.symm
          have hnone : matchName W table (join l) = none := hname.trans (if_neg fun h => hmiss h.1)
          have hstart : replaceFrom W schema table true 0 (join l) = replaceFrom W schema table false 0 (join l) := by
            cases hjoin : join l with
            | nil => rfl
            | cons c cs =>
                rw [hjoin] at hnone
                have hmatch : matchPattern W table true (c :: cs) = matchPattern W table false (c :: cs) := by
                  rw [matchPattern, if_pos rfl, hnone]
                  rfl
                rw [replaceFrom, replaceFrom, hmatch]
          have hhit : ¬ hit table ⟨none, []⟩ (next l) = true := fun h => hmiss (hit_iff.mp h).1
          rw [List.nil_append, hstart, hfree, if_neg hhit]
          rfl
      | cons c w =>
          have hmatch : matchPattern W table true (c :: (w ++ join l)) =
              if hit table ⟨none, c :: w⟩ (next l) then some (none, next l) else none := by
            have hbehind : matchBehind W table (c :: (w ++ join l)) = none :=
              matchBehind_word (hword c List.mem_cons_self) _
            rw [matchPattern, if_pos rfl, ← List.cons_append, hname]
            by_cases hhit : hit table ⟨none, c :: w⟩ (next l) = true
            · obtain ⟨htext, -, hright⟩ := hit_iff.mp hhit
              rw [if_pos ⟨htext, hright⟩, if_pos hhit]
            · rw [if_neg fun h => hhit (hit_iff.mpr ⟨h.1, Option.some_ne_none _ |>.symm, h.2⟩), if_neg hhit]
              exact hbehind
          rw [List.cons_append]
          cases hhit : hit table ⟨none, c :: w⟩ (next l) with
          | true =>
              have hlength : (none : Option Char).toList.length + table.length = w.length + 1 := by
                rw [length_of_hit hhit, Option.toList_none, List.length_nil, Nat.zero_add]
                rfl
              rw [hhit, if_pos rfl] at hmatch
              rw [replaceFrom_hit hmatch hlength, htaken, if_pos rfl, join_cons, join_cons]
              rfl
          | false =>
              rw [replaceFrom, hmatch, hhit]
              show c :: replaceFrom W schema table false 0 (w ++ join l) = join (_ :: pass schema table false l)
              rw [replaceFrom_word fun d hd => hword d (List.mem_cons_of_mem c hd), hfree, join_cons]
              rfl

/-! ### All passes -/

/-- The runs after the passes for some of the tables. -/
def expand (schema : List Char) (done : List (List Char)) : Option (List Char) → List (Piece Char) → List (Piece Char)
  | _, [] => []
  | last, a :: l =>
      match tableAt a.left a.word (next l) with
      | none => a :: expand schema done none l
      | some t =>
          if last = some t then a :: expand schema done none l
          else if t ∈ done then ⟨a.left, schema⟩ :: ⟨some '.', t⟩ :: expand schema done (some t) l
          else a :: expand schema done (some t) l

theorem expand_none {right : Option Char} (last : Option (List Char)) (done : List (List Char))
    (hright : next l = right) (h : tableAt a.left a.word right = none) :
    expand schema done last (a :: l) = a :: expand schema done none l := by
  rw [expand, hright, h]

theorem expand_some {t : List Char} (last : Option (List Char)) (done : List (List Char))
    (h : tableAt a.left a.word (next l) = some t) :
    expand schema done last (a :: l) =
      if last = some t then a :: expand schema done none l
      else if t ∈ done then ⟨a.left, schema⟩ :: ⟨some '.', t⟩ :: expand schema done (some t) l
      else a :: expand schema done (some t) l := by
  rw [expand, h]

/-- What stands behind a run stays there. -/
theorem next_expand (done : List (List Char)) (last : Option (List Char)) (l : List (Piece Char)) :
    next (expand schema done last l) = next l := by
  cases l with
  | nil => rfl
  | cons a l =>
      cases htable : tableAt a.left a.word (next l) with
      | none =>
          rw [expand_none last done rfl htable]
          rfl
      | some t =>
          rw [expand_some last done htable]
          split
          · rfl
          · split
            · rfl
            · rfl

/-- Before all passes. -/
theorem expand_nil (last : Option (List Char)) (l : List (Piece Char)) : expand schema [] last l = l := by
  induction l generalizing last with
  | nil => rfl
  | cons a l ih =>
      cases htable : tableAt a.left a.word (next l) with
      | none => rw [expand_none last [] rfl htable, ih]
      | some t => rw [expand_some last [] htable, ih, ih, if_neg List.not_mem_nil, ite_self]

/-- A run is matched by the pattern of its table. -/
theorem hit_iff_tableAt {right : Option Char} (htable : table ∈ tpcdsTables) :
    hit table a right = true ↔ tableAt a.left a.word right = some table := by
  rw [hit_iff, tableAt]
  constructor
  · rintro ⟨rfl, hleft, hright⟩
    exact if_pos ⟨hleft, hright, htable⟩
  · intro h
    split at h
    · rename_i hall
      exact ⟨Option.some.inj h, hall.1, hall.2.1⟩
    · cases h

theorem pass_miss {skip : Bool} (h : skip = false → hit table a (next l) = false) :
    pass schema table skip (a :: l) = a :: pass schema table false l := by
  rw [pass, if_neg]
  intro hboth
  rw [Bool.and_eq_true, Bool.not_eq_true'] at hboth
  rw [h hboth.1] at hboth
  cases hboth.2

/-- Nothing is matched beside a `.`. -/
theorem hit_dot_left (w : List Char) (right : Option Char) : hit table ⟨some '.', w⟩ right = false := by
  rw [Bool.eq_false_iff]
  exact fun h => (hit_iff.mp h).2.1 rfl

theorem hit_dot_right (a : Piece Char) : hit table a (some '.') = false := by
  rw [Bool.eq_false_iff]
  exact fun h => (hit_iff.mp h).2.2 rfl

/-- **One more pass**: where the last run was matched, the character before this one is taken. -/
theorem pass_expand (htable : table ∈ tpcdsTables) {done : List (List Char)} (hnew : table ∉ done)
    (last : Option (List Char)) (l : List (Piece Char)) :
    pass schema table (decide (last = some table)) (expand schema done last l) =
      expand schema (table :: done) last l := by
  induction l generalizing last with
  | nil => rfl
  | cons a l ih =>
      have hmiss : tableAt a.left a.word (next l) ≠ some table → hit table a (next l) = false := by
        intro hne
        rw [Bool.eq_false_iff]
        exact fun h => hne ((hit_iff_tableAt htable).mp h)
      cases htab : tableAt a.left a.word (next l) with
      | none =>
          rw [expand_none last done rfl htab, expand_none last (table :: done) rfl htab, ← ih none]
          refine pass_miss fun _ => ?_
          rw [next_expand]
          exact hmiss (by rw [htab]; exact (Option.some_ne_none _).symm)
      | some t =>
          rw [expand_some last done htab, expand_some last (table :: done) htab]
          by_cases hlast : last = some t
          · -- the character before is taken, or the pattern is another
            rw [if_pos hlast, if_pos hlast, ← ih none]
            refine pass_miss fun hskip => ?_
            rw [next_expand]
            refine hmiss ?_
            rw [htab, ← hlast]
            exact of_decide_eq_false hskip
          · rw [if_neg hlast, if_neg hlast, ← ih (some t)]
            by_cases ht : t = table
            · subst ht
              have hhit := (hit_iff_tableAt htable).mpr htab
              rw [if_neg hnew, if_pos List.mem_cons_self, decide_eq_false hlast, decide_eq_true rfl, pass, next_expand,
                hhit]
              rfl
            · have hne : ¬ some t = some table := fun h => ht (Option.some.inj h)
              rw [decide_eq_false hne]
              by_cases hdone : t ∈ done
              · rw [if_pos hdone, if_pos (List.mem_cons_of_mem _ hdone), pass_miss fun _ => hit_dot_right _,
                  pass_miss fun _ => hit_dot_left t _]
              · have hnotin : t ∉ table :: done := fun h => (List.mem_cons.mp h).elim ht hdone
                rw [if_neg hdone, if_neg hnotin]
                refine pass_miss fun _ => ?_
                rw [next_expand]
                exact hmiss (by rw [htab]; exact hne)

theorem of_tableAt {left right : Option Char} {w t : List Char} (h : tableAt left w right = some t) :
    left ≠ some '.' ∧ right ≠ some '.' ∧ t ∈ tpcdsTables ∧ w.map foldCase = t := by
  rw [tableAt] at h
  split at h
  · rename_i hall
    obtain rfl := Option.some.inj h
    exact ⟨hall.1, hall.2.1, hall.2.2, rfl⟩
  · cases h

/-- The passes keep the runs apart. -/
theorem follow_expand (hschema : ∀ c ∈ schema, W.isWord c = true) (done : List (List Char))
    (last : Option (List Char)) (hl : Follow W.isWord l) : Follow W.isWord (expand schema done last l) := by
  induction l generalizing last with
  | nil => exact follow_nil
  | cons a l ih =>
      obtain ⟨ha, hrest⟩ := follow_cons.mp hl
      cases htab : tableAt a.left a.word (next l) with
      | none =>
          rw [expand_none last done rfl htab]
          exact follow_cons.mpr ⟨ha, ih none hrest⟩
      | some t =>
          have hword := isWord_table W (mem_baseTables (of_tableAt htab).2.2.1)
          rw [expand_some last done htab]
          split
          · exact follow_cons.mpr ⟨ha, ih none hrest⟩
          · split
            · refine follow_cons.mpr ⟨⟨ha.1, hschema⟩, follow_cons.mpr ⟨⟨⟨'.', rfl, ?_⟩, hword⟩, ih _ hrest⟩⟩
              exact W.ascii '.' (by decide)
            · exact follow_cons.mpr ⟨ha, ih _ hrest⟩

theorem isCut_expand (hschema : ∀ c ∈ schema, W.isWord c = true) (done : List (List Char))
    (last : Option (List Char)) (h : IsCut W.isWord l) : IsCut W.isWord (expand schema done last l) := by
  cases h with
  | mk hword hrest =>
      rename_i word l
      have hfollow := fun last => follow_expand hschema done last hrest
      cases htab : tableAt none word (next l) with
      | none =>
          rw [expand_none last done rfl htab]
          exact .mk hword (hfollow none)
      | some t =>
          have htable := isWord_table W (mem_baseTables (of_tableAt htab).2.2.1)
          rw [expand_some last done htab]
          split
          · exact .mk hword (hfollow none)
          · split
            · refine .mk hschema (follow_cons.mpr ⟨⟨⟨'.', rfl, ?_⟩, htable⟩, hfollow _⟩)
              exact W.ascii '.' (by decide)
            · exact .mk hword (hfollow _)

/-- **The passes, one after another.** -/
theorem foldl_replaceAll (hschema : ∀ c ∈ schema, W.isWord c = true) (h : IsCut W.isWord l) {tables : List (List Char)}
    (htables : ∀ t ∈ tables, t ∈ tpcdsTables) (hnodup : tables.Nodup) (done : List (List Char))
    (hnew : ∀ t ∈ tables, t ∉ done) :
    tables.foldl (fun out table => replaceAll W schema table out) (join (expand schema done none l)) =
      join (expand schema (tables.reverse ++ done) none l) := by
  induction tables generalizing done with
  | nil => rfl
  | cons table tables ih =>
      rw [List.forall_mem_cons] at htables hnew
      rw [List.nodup_cons] at hnodup
      have hpass : replaceAll W schema table (join (expand schema done none l)) =
          join (expand schema (table :: done) none l) := by
        rw [replaceAll_join htables.1 (isCut_expand hschema done none h), ← pass_expand htables.1 hnew.1]
        rfl
      rw [List.foldl_cons, hpass, List.reverse_cons, List.append_assoc]
      refine ih htables.2 hnodup.2 (table :: done) fun t ht hmem => ?_
      rcases List.mem_cons.mp hmem with rfl | hmem
      · exact hnodup.1 ht
      · exact hnew.2 t ht hmem

/-- Which tables are done counts only. -/
theorem expand_congr {done : List (List Char)} (hall : ∀ t ∈ tpcdsTables, t ∈ done) (last : Option (List Char))
    (l : List (Piece Char)) : expand schema done last l = expand schema tpcdsTables last l := by
  induction l generalizing last with
  | nil => rfl
  | cons a l ih =>
      cases htab : tableAt a.left a.word (next l) with
      | none => rw [expand_none last done rfl htab, expand_none last tpcdsTables rfl htab, ih]
      | some t =>
          have ht := (of_tableAt htab).2.2.1
          rw [expand_some last done htab, expand_some last tpcdsTables htab, if_pos (hall t ht), if_pos ht, ih, ih]

/-- **The function, on runs.** -/
theorem qualifyTpcdsSql_join (schema : SchemaName) (h : IsCut W.isWord l) :
    qualifyTpcdsSql W schema (join l) = join (expand schema.text tpcdsTables none l) := by
  have hperm := StableSort.sortDesc_perm List.length tpcdsTables
  have hpasses := foldl_replaceAll (schema.isWord W) h (fun t ht => hperm.mem_iff.mp ht)
    (hperm.nodup_iff.mpr (by decide)) [] fun t _ => List.not_mem_nil
  rw [expand_nil, List.append_nil] at hpasses
  rw [qualifyTpcdsSql, hpasses]
  refine congrArg join (expand_congr (fun t ht => ?_) none l)
  rw [List.mem_reverse]
  exact hperm.mem_iff.mpr ht

/-! ### Twice -/

/-- The tables that the patterns take runs for. -/
def tablesOf : List (Piece Char) → List (Option (List Char))
  | [] => []
  | a :: l => tableAt a.left a.word (next l) :: tablesOf l

theorem map_table?_sitesFrom (L : Lexer) (s : L.State) (l : List (Piece Char)) :
    (sitesFrom L s l).map Site.table? = tablesOf l := by
  induction l generalizing s with
  | nil => rfl
  | cons a l ih =>
      rw [sitesFrom, List.map_cons, ih, tablesOf]
      rfl

/-- Each run that is taken for a table behind this one is qualified, if no neighbour is taken for the same. -/
theorem expand_all {last t : Option (List Char)} (htab : tableAt a.left a.word (next l) = t)
    (hlast : last ≠ none → last ≠ t) :
    expand schema tpcdsTables last (a :: l) =
      (t.elim [a] fun name => [⟨a.left, schema⟩, ⟨some '.', name⟩]) ++ expand schema tpcdsTables t l := by
  cases t with
  | none => exact expand_none last tpcdsTables rfl htab
  | some t =>
      have hne : last ≠ some t := by
        rintro rfl
        exact hlast (Option.some_ne_none t) rfl
      rw [expand_some last tpcdsTables htab, if_neg hne, if_pos (of_tableAt htab).2.2.1]
      rfl

/-- **Nothing is left to qualify** exactly if no neighbouring runs are taken for one table. -/
theorem tablesOf_expand_iff (schema : List Char) (last : Option (List Char)) (l : List (Piece Char)) :
    (∀ t ∈ tablesOf (expand schema tpcdsTables last l), t = none) ↔ Apart (last :: tablesOf l) := by
  induction l generalizing last with
  | nil => exact iff_of_true (List.forall_mem_nil _) (.singleton last)
  | cons a l ih =>
      rw [Apart, tablesOf, List.isChain_cons_cons]
      by_cases hlast : last ≠ none → last ≠ tableAt a.left a.word (next l)
      · rw [and_iff_right hlast, expand_all rfl hlast]
        show _ ↔ Apart _
        rw [← ih]
        cases htab : tableAt a.left a.word (next l) with
        | none =>
            show (∀ t' ∈ tablesOf (a :: expand schema tpcdsTables none l), t' = none) ↔ _
            rw [tablesOf, next_expand, htab, List.forall_mem_cons, and_iff_right rfl]
        | some t =>
            show (∀ t' ∈ tablesOf (⟨a.left, schema⟩ :: ⟨some '.', t⟩ :: expand schema tpcdsTables (some t) l),
              t' = none) ↔ _
            have hleft : tableAt a.left schema (some '.') = none := if_neg fun h => h.2.1 rfl
            have hright : tableAt (some '.') t (next l) = none := if_neg fun h => h.1 rfl
            rw [tablesOf, tablesOf, next_expand, List.forall_mem_cons, List.forall_mem_cons]
            exact (and_iff_right hleft).trans (and_iff_right hright)
      · -- the run is passed over, and found by the next call
        refine iff_of_false ?_ fun h => hlast h.1
        rw [Classical.not_imp, not_not] at hlast
        obtain ⟨hsome, heq⟩ := hlast
        obtain ⟨t, rfl⟩ := Option.ne_none_iff_exists'.mp hsome
        rw [expand_some _ _ heq.symm, if_pos rfl, tablesOf, next_expand, ← heq]
        intro hall
        cases hall _ List.mem_cons_self

theorem expand_eq_self (h : ∀ t ∈ tablesOf l, t = none) (last : Option (List Char)) :
    expand schema tpcdsTables last l = l := by
  induction l generalizing last with
  | nil => rfl
  | cons a l ih =>
      rw [tablesOf, List.forall_mem_cons] at h
      rw [expand_none last tpcdsTables rfl h.1, ih h.2]

theorem length_le_expand (schema : List Char) (last : Option (List Char)) (l : List (Piece Char)) :
    l.length ≤ (expand schema tpcdsTables last l).length := by
  induction l generalizing last with
  | nil => exact le_rfl
  | cons a l ih =>
      have hle := fun last => ih last
      cases htab : tableAt a.left a.word (next l) with
      | none =>
          rw [expand_none last tpcdsTables rfl htab]
          exact Nat.succ_le_succ (hle none)
      | some t =>
          rw [expand_some last tpcdsTables htab]
          have hsome := hle (some t)
          split
          · exact Nat.succ_le_succ (hle none)
          · split <;> simp only [List.length_cons] <;> omega

/-- Text without a table is left alone, and only such text. -/
theorem expand_eq_self_iff (l : List (Piece Char)) :
    expand schema tpcdsTables none l = l ↔ ∀ t ∈ tablesOf l, t = none := by
  refine ⟨fun h => ?_, fun h => expand_eq_self h none⟩
  induction l with
  | nil => exact List.forall_mem_nil _
  | cons a l ih =>
      rw [expand_all rfl fun hne => absurd rfl hne] at h
      rw [tablesOf, List.forall_mem_cons]
      cases htab : tableAt a.left a.word (next l) with
      | none =>
          rw [htab] at h
          exact ⟨rfl, ih (List.cons.inj h).2⟩
      | some t =>
          have hlength := congrArg List.length h
          have hle := length_le_expand schema (some t) l
          rw [htab, List.length_append, List.length_cons] at hlength
          have htwo : ((some t).elim [a] fun name => [⟨a.left, schema⟩, ⟨some '.', name⟩]).length = 2 := rfl
          omega

/-- **Applying the function twice changes nothing** exactly if no neighbouring runs are taken for one table. -/
theorem qualify_twice_iff (schema : SchemaName) (h : IsCut W.isWord l) :
    qualifyTpcdsSql W schema (qualifyTpcdsSql W schema (join l)) = qualifyTpcdsSql W schema (join l) ↔
      Apart (tablesOf l) := by
  have hcut := isCut_expand (schema.isWord W) tpcdsTables none h
  have happart : Apart (none :: tablesOf l) ↔ Apart (tablesOf l) := by
    cases htables : tablesOf l with
    | nil => exact iff_of_true (.singleton none) .nil
    | cons t l => exact List.isChain_cons_cons.trans (and_iff_right fun hne => absurd rfl hne)
  rw [qualifyTpcdsSql_join schema h, qualifyTpcdsSql_join schema hcut, ← happart, ← tablesOf_expand_iff schema.text,
    ← expand_eq_self_iff]
  refine ⟨fun heq => ?_, fun heq => congrArg join heq⟩
  rw [← pieces_join (isCut_expand (schema.isWord W) tpcdsTables none hcut), heq, pieces_join hcut]

/-! ### Once -/

variable {L : Lexer} {s : L.State}

/-- A run of a query. -/
def siteOf (L : Lexer) (s : L.State) (a : Piece Char) (l : List (Piece Char)) : Site L :=
  ⟨L.read s a.left.toList, a.left, a.word, next l⟩

/-- Before a qualified text stands what stood before its first run. -/
theorem head?_of_qualified (hl : Follow W.isWord l) {out : List Char} (h : Qualified schema (sitesFrom L s l) out) :
    out.head? = next l := by
  cases l with
  | nil =>
      have hnil : out = [] := h
      rw [hnil]
      rfl
  | cons a l =>
      obtain ⟨text, rest, rfl, -, -⟩ := h
      obtain ⟨c, hleft, -⟩ := (follow_cons.mp hl).1.1
      show (a.left.toList ++ (text ++ rest)).head? = a.left
      rw [hleft]
      rfl

theorem map_foldCase_eq {w : List Char} (h : w.map Char.toLower ∈ baseTables) :
    w.map foldCase = w.map Char.toLower := by
  refine List.map_congr_left fun c hc => ?_
  have hlower := ((of_mem_baseTables h).2 c.toLower (List.mem_map_of_mem hc)).1
  rw [foldCase, if_neg, if_neg]
  · rintro rfl
    exact absurd hlower (by decide)
  · rintro rfl
    exact absurd hlower (by decide)

/-- What the passes put for a run. -/
def written (schema : List Char) (a : Piece Char) (t : Option (List Char)) : List Char :=
  t.elim a.word fun name => schema ++ '.' :: name

theorem join_expand_all {last t : Option (List Char)} (htab : tableAt a.left a.word (next l) = t)
    (hlast : last ≠ none → last ≠ t) :
    join (expand schema tpcdsTables last (a :: l)) =
      a.left.toList ++ (written schema a t ++ join (expand schema tpcdsTables t l)) := by
  rw [expand_all htab hlast, join_append]
  cases t with
  | none =>
      show join [a] ++ _ = _
      rw [join_cons, List.append_assoc, List.append_assoc]
      rfl
  | some t =>
      show join [⟨a.left, schema⟩, ⟨some '.', t⟩] ++ _ = _
      rw [join_cons, join_cons, written]
      simp [join]

/-- **One run**: what stands for it is right exactly if it is taken for a table and is a bare name, or neither. -/
theorem qualified_cons_iff (hschema : ∀ c ∈ schema, W.isWord c = true) (hword : ∀ c ∈ a.word, W.isWord c = true)
    (hl : Follow W.isWord l) {t : Option (List Char)} (htab : tableAt a.left a.word (next l) = t) :
    Qualified schema (sitesFrom L s (a :: l))
        (a.left.toList ++ (written schema a t ++ join (expand schema tpcdsTables t l))) ↔
      (t ≠ none ↔ (siteOf L s a l).Bare) ∧
        Qualified schema (sitesFrom L (L.read s a.text) l) (join (expand schema tpcdsTables t l)) := by
  have hhead : (join (expand schema tpcdsTables t l)).head? = next l := by
    rw [head?_join (follow_expand hschema tpcdsTables t hl), next_expand]
  have hstop : ∀ rest : List Char, rest.head? = next l → ∀ c ∈ rest.head?, W.isWord c = false := by
    intro rest hrest
    rw [hrest]
    exact fun c hc => next_eq_false hl hc
  have hdot : ∀ cs : List Char, ∀ c ∈ ('.' :: cs).head?, W.isWord c = false := by
    intro cs c hc
    rw [← Option.some.inj hc]
    exact W.ascii '.' (by decide)
  constructor
  · rintro ⟨text, rest, heq, hbecomes, hqualified⟩
    have hout := List.append_cancel_left heq
    have hrest := head?_of_qualified hl hqualified
    by_cases hbare : (siteOf L s a l).Bare
    · obtain ⟨name, hname, rfl⟩ := hbecomes.1 hbare
      cases t with
      | none =>
          -- a bare name is left alone
          rw [List.append_assoc] at hout
          obtain ⟨-, hdotted⟩ := word_inj hword hschema (hstop _ hhead) (hdot _) hout
          rw [hdotted] at hhead
          exact absurd rfl (hbare.right '.' hhead.symm).1
      | some t =>
          refine ⟨iff_of_true (Option.some_ne_none t) hbare, ?_⟩
          rw [written, Option.elim_some, List.append_assoc, List.append_assoc] at hout
          have htail := (List.cons.inj (List.append_cancel_left hout)).2
          have hnameword := isWord_of_map_toLower W (hname.symm ▸ hbare.table)
          have htword := isWord_table W (mem_baseTables (of_tableAt htab).2.2.1)
          rw [(word_inj htword hnameword (hstop _ hhead) (hstop _ hrest) htail).2]
          exact hqualified
    · rw [hbecomes.2 hbare] at hout
      cases t with
      | none =>
          refine ⟨iff_of_false (fun h => h rfl) hbare, ?_⟩
          rw [List.append_cancel_left hout]
          exact hqualified
      | some t =>
          -- what is no bare name is qualified
          rw [written, Option.elim_some, List.append_assoc] at hout
          obtain ⟨-, hdotted⟩ := word_inj hschema hword (hdot _) (hstop _ hrest) hout
          rw [← hdotted] at hrest
          exact absurd hrest.symm (of_tableAt htab).2.1
  · rintro ⟨hiff, hqualified⟩
    refine ⟨written schema a t, _, rfl, ⟨fun hbare => ?_, fun hbare => ?_⟩, hqualified⟩
    · obtain ⟨t, rfl⟩ := Option.ne_none_iff_exists'.mp (hiff.mpr hbare)
      obtain ⟨-, -, ht, hfold⟩ := of_tableAt htab
      refine ⟨t, ?_, rfl⟩
      rw [map_toLower_table (mem_baseTables ht), ← hfold]
      exact map_foldCase_eq hbare.table
    · have hnone : t = none := by
        by_contra hne
        exact hbare (hiff.mp hne)
      rw [hnone]
      rfl

/-- **All runs**, if no neighbours are taken for one table. -/
theorem qualified_iff_of_apart (hschema : ∀ c ∈ schema, W.isWord c = true) (hl : Follow W.isWord l)
    {last : Option (List Char)} (hapart : Apart (last :: tablesOf l)) :
    Qualified schema (sitesFrom L s l) (join (expand schema tpcdsTables last l)) ↔
      ∀ a ∈ sitesFrom L s l, (a.table? ≠ none ↔ a.Bare) := by
  induction l generalizing s last with
  | nil => exact iff_of_true rfl (List.forall_mem_nil _)
  | cons a l ih =>
      rw [follow_cons] at hl
      rw [Apart, tablesOf, List.isChain_cons_cons] at hapart
      rw [join_expand_all rfl hapart.1, qualified_cons_iff hschema hl.1.2 hl.2 rfl, ih hl.2 hapart.2, sitesFrom,
        List.forall_mem_cons]
      rfl

/-- The same from the first run of a query on. -/
theorem qualified_iff_of_isCut (hschema : ∀ c ∈ schema, W.isWord c = true) (h : IsCut W.isWord l)
    (hapart : Apart (tablesOf l)) :
    Qualified schema (sitesFrom L s l) (join (expand schema tpcdsTables none l)) ↔
      ∀ a ∈ sitesFrom L s l, (a.table? ≠ none ↔ a.Bare) := by
  cases h with
  | mk hword hrest =>
      rw [join_expand_all rfl fun hne => absurd rfl hne, qualified_cons_iff hschema hword hrest rfl,
        qualified_iff_of_apart hschema hrest hapart, sitesFrom, List.forall_mem_cons]
      rfl

/-! ### Plain queries -/

theorem notMem_of_table {left right : Option Char} {w t : List Char} (h : tableAt left w right = some t) :
    '\u212a' ∉ w := by
  intro hmem
  obtain ⟨-, -, ht, rfl⟩ := of_tableAt h
  exact ((of_mem_baseTables (mem_baseTables ht)).2 _ (List.mem_map_of_mem hmem)).2.2 (by decide)

/-- Without a long s a table is taken for the name that is written. -/
theorem map_toLower_of_table {left right : Option Char} {w t : List Char} (h : tableAt left w right = some t)
    (hlong : '\u017f' ∉ w) : w.map Char.toLower = t := by
  have hkelvin := notMem_of_table h
  obtain ⟨-, -, -, rfl⟩ := of_tableAt h
  refine List.map_congr_left fun c hc => ?_
  rw [foldCase, if_neg, if_neg]
  · rintro rfl
    exact hkelvin hc
  · rintro rfl
    exact hlong hc

/-- **What is taken for a table is a bare name, and the other way round**, exactly if this is so for the places and the
letters of what is taken, and if the name that is not in the list does not occur. -/
theorem table?_iff_bare (a : Site L) :
    (a.table? ≠ none ↔ a.Bare) ↔
      (a.table? ≠ none → L.isCode a.state = true ∧ L.Ends a.left ∧ L.Ends a.right ∧ '\u017f' ∉ a.word) ∧
        (a.Bare → a.word.map Char.toLower ≠ "catalog_page".toList) := by
  constructor
  · intro hiff
    refine ⟨fun htab => ?_, fun hbare hpage => ?_⟩
    · have hbare := hiff.mp htab
      refine ⟨hbare.code, hbare.left, hbare.right, fun hlong => ?_⟩
      exact absurd ((of_mem_baseTables hbare.table).2 _ (List.mem_map_of_mem hlong)).1 (by decide)
    · obtain ⟨t, ht⟩ := Option.ne_none_iff_exists'.mp (hiff.mpr hbare)
      obtain ⟨-, -, hmem, hfold⟩ := of_tableAt ht
      rw [← hfold, map_foldCase_eq hbare.table, hpage] at hmem
      exact absurd hmem (by decide)
  · rintro ⟨hplaces, hlisted⟩
    constructor
    · intro htab
      obtain ⟨hcode, hleft, hright, hlong⟩ := hplaces htab
      obtain ⟨t, ht⟩ := Option.ne_none_iff_exists'.mp htab
      refine ⟨hcode, hleft, hright, ?_⟩
      rw [map_toLower_of_table ht hlong]
      exact mem_baseTables (of_tableAt ht).2.2.1
    · intro hbare
      have hmem := (List.mem_cons.mp hbare.table).resolve_left (hlisted hbare)
      rw [← map_foldCase_eq hbare.table] at hmem
      have htab : a.table? = some _ :=
        if_pos ⟨fun h => (hbare.left '.' h).1 rfl, fun h => (hbare.right '.' h).1 rfl, hmem⟩
      rw [htab]
      exact Option.some_ne_none _

theorem plain_iff (W : WordClass) (L : Lexer) (sql : List Char) :
    Plain W L sql ↔ Apart (tablesOf (pieces W.isWord sql)) ∧ ∀ a ∈ sites W L sql, (a.table? ≠ none ↔ a.Bare) := by
  have hmap : (sites W L sql).map Site.table? = tablesOf (pieces W.isWord sql) := map_table?_sitesFrom L L.start _
  constructor
  · intro h
    exact ⟨hmap ▸ h.apart, fun a ha => (table?_iff_bare a).mpr ⟨h.bare a ha, h.listed a ha⟩⟩
  · rintro ⟨hapart, hall⟩
    exact ⟨hmap ▸ hapart, fun a ha => ((table?_iff_bare a).mp (hall a ha)).1,
      fun a ha => ((table?_iff_bare a).mp (hall a ha)).2⟩

end

/-! ### Exactness -/

/-- **Bare table names are qualified, once, and nothing else is changed** exactly if the query is plain. -/
theorem qualify_iff (W : WordClass) (L : Lexer) (schema : SchemaName) (sql : List Char) :
    (Qualified schema.text (sites W L sql) (qualifyTpcdsSql W schema sql) ∧
      qualifyTpcdsSql W schema (qualifyTpcdsSql W schema sql) = qualifyTpcdsSql W schema sql) ↔ Plain W L sql := by
  have hcut := isCut_pieces W.isWord sql
  have hjoin := qualifyTpcdsSql_join schema hcut
  have htwice := qualify_twice_iff schema hcut
  rw [join_pieces] at hjoin htwice
  rw [plain_iff, htwice, and_comm]
  refine and_congr_right fun hapart => ?_
  rw [hjoin]
  exact qualified_iff_of_isCut (schema.isWord W) hcut hapart

/-! ### A dialect -/

/-- Where a character of a query stands: in code, behind its first dash or slash, in quotes, or in a comment. -/
inductive SqlMode
  | code
  | dash
  | slash
  | quoted (quote : Char)
  | line
  | block (depth : ℕ) (last : Char)

/-- Reading a character in code. -/
def SqlMode.ofCode (c : Char) : SqlMode :=
  if c = '\'' ∨ c = '"' ∨ c = '`' then .quoted c
  else if c = '-' then .dash
  else if c = '/' then .slash
  else .code

/-- Reading a character; a quote that is doubled closes and opens. -/
def SqlMode.next : SqlMode → Char → SqlMode
  | .code, c => .ofCode c
  | .dash, c => if c = '-' then .line else .ofCode c
  | .slash, c => if c = '*' then .block 0 ' ' else .ofCode c
  | .quoted quote, c => if c = quote then .code else .quoted quote
  | .line, c => if c = '\n' then .code else .line
  | .block depth last, c =>
      if last = '*' ∧ c = '/' then if depth = 0 then .code else .block (depth - 1) ' '
      else if last = '/' ∧ c = '*' then .block (depth + 1) ' '
      else .block depth c

def SqlMode.isCode : SqlMode → Bool
  | .code => true
  | .dash => true
  | .slash => true
  | _ => false

/-- Literals, quoted identifiers and nested comments. -/
def sqlLexer : Lexer where
  State := SqlMode
  start := .code
  next := SqlMode.next
  isCode := SqlMode.isCode
  isPart c := c = '$' || c = '@' || c = '#'

/-- The word characters of ASCII, and those that are matched with them. -/
def asciiWords : WordClass where
  isWord c := c.isAlphanum || c = '_' || c = '\u017f' || c = '\u212a'
  ascii := by
    intro c hc
    have hlong : c ≠ '\u017f' := by
      rintro rfl
      exact absurd hc (by decide)
    have hkelvin : c ≠ '\u212a' := by
      rintro rfl
      exact absurd hc (by decide)
    rw [decide_eq_false hlong, decide_eq_false hkelvin, Bool.or_false, Bool.or_false]
  longS := by decide
  kelvin := by decide

def tpcdsSchema : SchemaName := ⟨"tpcds".toList, by decide, Text.forall_mem_of_all (by decide)⟩

/-- The query of the test in the source. -/
example : qualifyTpcdsSql asciiWords tpcdsSchema "SELECT 1 FROM store_sales, date_dim WHERE x = 1".toList =
    "SELECT 1 FROM tpcds.store_sales, tpcds.date_dim WHERE x = 1".toList := by
  decide +kernel

/-- A second name behind one blank is left for the next call, a literal is changed, and one table is not in the list. -/
theorem not_qualified_store :
    qualifyTpcdsSql asciiWords tpcdsSchema "FROM store store".toList = "FROM tpcds.store store".toList ∧
    qualifyTpcdsSql asciiWords tpcdsSchema "FROM tpcds.store store".toList = "FROM tpcds.store tpcds.store".toList ∧
    qualifyTpcdsSql asciiWords tpcdsSchema "'store'".toList = "'tpcds.store'".toList ∧
    ¬ Qualified tpcdsSchema.text (sites asciiWords sqlLexer "'store'".toList) "'tpcds.store'".toList ∧
    qualifyTpcdsSql asciiWords tpcdsSchema "FROM catalog_page".toList = "FROM catalog_page".toList := by
  refine ⟨by decide +kernel, by decide +kernel, by decide +kernel, fun h => ?_, by decide +kernel⟩
  have htables : tablesOf (pieces asciiWords.isWord "'store'".toList) = [none, some "store".toList, none] := by
    decide +kernel
  have hout : join (expand tpcdsSchema.text tpcdsTables none (pieces asciiWords.isWord "'store'".toList)) =
      "'tpcds.store'".toList := by
    decide +kernel
  have hapart : Apart [none, some "store".toList, none] :=
    .cons_cons (by decide) (.cons_cons (by decide) (.singleton _))
  have hiff := qualified_iff_of_isCut (L := sqlLexer) (s := sqlLexer.start) (tpcdsSchema.isWord asciiWords)
    (isCut_pieces asciiWords.isWord "'store'".toList) (htables ▸ hapart)
  rw [hout] at hiff
  -- the literal is taken for a table, and is no code
  have hsite := hiff.mp h (siteOf sqlLexer .code ⟨some '\'', "store".toList⟩ [⟨some '\'', []⟩])
    (List.mem_cons_of_mem _ List.mem_cons_self)
  have hcode := (hsite.mp (by decide +kernel)).code
  exact absurd hcode (by decide)

end IcebergDb.Bench
