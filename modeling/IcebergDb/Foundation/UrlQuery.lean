import IcebergDb.Foundation.Url

/-!
# The parameters of a query

What a server reads from a query, in terms of what was written behind the URL.

* `fieldParam` — the value of one field, if the field has the name;
* `queryParam_append`, `queryParam_percentEncode` — a query is read field by field, encoded or not;
* `Url.PlainValue` — a value that is read as it was written (`percentDecode_valueRest_iff`);
* `parse_param` — **a parameter behind a URL without a query arrives as what is left of its value**;
* `param_ne_of_query` — behind a query, it does not arrive at all.
-/

namespace IcebergDb.Url

open Percent Utf8

variable {name : List UInt8} {set : Char → Bool} {s n q v cs : List Char} {value : List UInt8}

/-! ### Fields -/

/-- The value of a field with the name. -/
def fieldParam (name : List UInt8) (field : List Char) : Option (List UInt8) :=
  if percentDecode (cutAt '=' field).1 = name then some (percentDecode ((cutAt '=' field).2.getD [])) else none

theorem queryParam_of_notMem (h : '&' ∉ s) : queryParam name s = fieldParam name s := by
  show (s.splitOn '&').findSome? (fieldParam name) = _
  rw [List.splitOn_eq_singleton h, List.findSome?_singleton]

/-- A query is read from its first field on. -/
theorem queryParam_append (h : '&' ∉ s) (rest : List Char) :
    queryParam name (s ++ '&' :: rest) = (fieldParam name s).or (queryParam name rest) := by
  show ((s ++ '&' :: rest).splitOn '&').findSome? (fieldParam name) = _
  rw [List.splitOn_append_cons_self_of_not_mem h, List.findSome?_cons]
  cases fieldParam name s with
  | none => rfl
  | some value => rfl

/-- Induction on the fields. -/
theorem fieldInduction {motive : List Char → Prop} (last : ∀ s, '&' ∉ s → motive s)
    (next : ∀ s rest, '&' ∉ s → motive rest → motive (s ++ '&' :: rest)) (q : List Char) : motive q := by
  have hno : ∀ s : List Char, (∀ c ∈ s, (c == '&') = false) → '&' ∉ s := by
    intro s hs hmem
    exact absurd (hs _ hmem) (by decide)
  induction q using splitInduction (p := (· == '&')) with
  | last s hs => exact last s (hno s hs)
  | next s c rest hs hc ih =>
      obtain rfl : c = '&' := beq_iff_eq.mp hc
      exact next s rest (hno s hs) ih

/-- No value is longer than the query. -/
theorem length_queryParam_le (h : queryParam name q = some value) : value.length ≤ (bytes q).length := by
  have hfield : ∀ s, fieldParam name s = some value → value.length ≤ (bytes s).length := by
    intro s hs
    unfold fieldParam at hs
    split at hs
    · obtain rfl := Option.some.inj hs
      refine (length_percentDecode_le _).trans (length_bytes_sublist ?_).1
      unfold cutAt
      cases hdrop : s.dropWhile (· ≠ '=') with
      | nil => exact List.nil_sublist s
      | cons c rest =>
          have hsub := List.dropWhile_sublist (· ≠ '=') (l := s)
          rw [hdrop] at hsub
          exact (List.sublist_cons_self c rest).trans hsub
    · cases hs
  induction q using fieldInduction with
  | last s hs =>
      rw [queryParam_of_notMem hs] at h
      exact hfield s h
  | next s rest hs ih =>
      rw [queryParam_append hs] at h
      rw [bytes_append, bytes_cons, List.length_append, List.length_append]
      rcases Option.or_eq_some_iff.mp h with h | ⟨-, h⟩
      · have := hfield s h
        omega
      · have := ih h
        omega

/-! ### Encoded queries -/

/-- Encoding adds none of the characters that cut a query. -/
theorem notMem_percentEncode {c : Char} (hpercent : c ≠ '%') (hhex : isHex c = false) (h : c ∉ s) :
    c ∉ percentEncode set s := by
  intro hmem
  rcases mem_percentEncode hmem with ⟨hmem, -⟩ | heq | hhex'
  · exact h hmem
  · exact hpercent heq
  · rw [hhex] at hhex'
    cases hhex'

/-- A field is read encoded as it is read plain. -/
theorem fieldParam_percentEncode (hset : LeavesTriplets set) (hcut : set '=' = false) (s : List Char) :
    fieldParam name (percentEncode set s) = fieldParam name s := by
  unfold fieldParam
  by_cases hmem : '=' ∈ s
  · obtain ⟨before, after, rfl, hbefore⟩ := List.eq_append_cons_of_mem hmem
    have hbefore' : '=' ∉ percentEncode set before := notMem_percentEncode (by decide) (by decide) hbefore
    rw [percentEncode_append, percentEncode_cons_of_false hcut, cutAt_of_notMem hbefore, cutAt_of_notMem hbefore',
      cutAt_cons, cutAt_cons, List.append_nil, List.append_nil, Option.getD_some, Option.getD_some,
      percentDecode_percentEncode hset, percentDecode_percentEncode hset]
  · rw [cutAt_eq_self hmem, cutAt_eq_self (notMem_percentEncode (by decide) (by decide) hmem),
      percentDecode_percentEncode hset]

/-- **A query is read encoded as it is read plain.** -/
theorem queryParam_percentEncode (hset : LeavesTriplets set) (hamp : set '&' = false) (hcut : set '=' = false)
    (q : List Char) : queryParam name (percentEncode set q) = queryParam name q := by
  have hno : ∀ s : List Char, '&' ∉ s → '&' ∉ percentEncode set s :=
    fun s hs => notMem_percentEncode (by decide) (by decide) hs
  induction q using fieldInduction with
  | last s hs => rw [queryParam_of_notMem hs, queryParam_of_notMem (hno s hs), fieldParam_percentEncode hset hcut]
  | next s rest hs ih =>
      rw [percentEncode_append, percentEncode_cons_of_false hamp, queryParam_append hs, queryParam_append (hno s hs),
        fieldParam_percentEncode hset hcut, ih]

/-! ### Values -/

/-- What is left of a value behind a URL: it is cleaned, and ends at a `#` or a `&`. -/
def valueRest (v : List Char) : List Char := (cutAt '&' (cutAt '#' (cleanEnd v)).1).1

/-- Nothing in the value is cleaned, cut off or decoded. -/
structure PlainValue (v : List Char) : Prop where
  noTriplet : NoTriplet v
  ampersand : '&' ∉ v
  hash : '#' ∉ v
  tabs : ∀ c ∈ v, isTabOrNewline c = false
  stop : ∀ c ∈ v.getLast?, isC0OrSpace c = false

theorem valueRest_sublist (v : List Char) : (valueRest v).Sublist v :=
  ((cutAt_fst_sublist '&' _).trans (cutAt_fst_sublist '#' _)).trans (cleanEnd_sublist v)

/-- **A value arrives as it is exactly when it is plain.** -/
theorem percentDecode_valueRest_iff : percentDecode (valueRest v) = bytes v ↔ PlainValue v := by
  constructor
  · intro h
    obtain ⟨hle, heq⟩ := length_bytes_sublist (valueRest_sublist v)
    have hdecode := length_percentDecode_le (valueRest v)
    rw [h] at hdecode
    have hrest : valueRest v = v := heq (by omega)
    -- so no step took anything off
    have hamp := (cutAt_fst_sublist '&' (cutAt '#' (cleanEnd v)).1)
    have hhash := cutAt_fst_sublist '#' (cleanEnd v)
    have hclean := cleanEnd_sublist v
    have hlength : (cutAt '&' (cutAt '#' (cleanEnd v)).1).1.length = v.length := congrArg List.length hrest
    have hcleanEq : cleanEnd v = v := hclean.eq_of_length_le (by
      have := hamp.length_le
      have := hhash.length_le
      omega)
    have hhashEq : (cutAt '#' (cleanEnd v)).1 = cleanEnd v := hhash.eq_of_length_le (by
      have := hamp.length_le
      have := hclean.length_le
      omega)
    have hampEq : (cutAt '&' v).1 = v := by
      unfold valueRest at hrest
      rwa [hhashEq, hcleanEq] at hrest
    rw [hcleanEq] at hhashEq
    rw [hrest] at h
    obtain ⟨htabs, hstop⟩ := cleanEnd_eq_self_iff.mp hcleanEq
    exact ⟨percentDecode_eq_bytes_iff.mp h, notMem_of_cutAt_fst_eq hampEq, notMem_of_cutAt_fst_eq hhashEq, htabs, hstop⟩
  · intro h
    have hclean : cleanEnd v = v := cleanEnd_eq_self_iff.mpr ⟨h.tabs, h.stop⟩
    rw [valueRest, hclean, cutAt_eq_self h.hash, cutAt_eq_self h.ampersand]
    exact percentDecode_of_noTriplet h.noTriplet

/-- A name that is written as it is. -/
structure PlainName (name : List UInt8) (n : List Char) : Prop where
  decode : percentDecode n = name
  chars : ∀ c ∈ n, isTabOrNewline c = false ∧ c ≠ '#' ∧ c ≠ '&' ∧ c ≠ '='

theorem PlainName.notMem (hn : PlainName name n) {c : Char} (hc : c = '#' ∨ c = '&' ∨ c = '=') : c ∉ n := by
  intro hmem
  obtain ⟨-, hhash, hamp, hcut⟩ := hn.chars c hmem
  exact hc.elim hhash fun hc => hc.elim hamp hcut

/-- A name is left alone when a parameter is cleaned and cut. -/
theorem PlainName.rest (hn : PlainName name n) (v : List Char) :
    (cutAt '#' (cleanEnd (n ++ '=' :: v))).1 = n ++ '=' :: (cutAt '#' (cleanEnd v)).1 := by
  have hclean : cleanEnd (n ++ '=' :: v) = n ++ ['='] ++ cleanEnd v := by
    rw [cleanEnd_append_cons (fun c hc => (hn.chars c hc).1) (by decide), List.append_assoc]
    rfl
  have hno : '#' ∉ n ++ ['='] := by
    rw [List.mem_append, not_or]
    exact ⟨hn.notMem (.inl rfl), by decide⟩
  rw [hclean, cutAt_of_notMem hno, List.append_assoc]
  rfl

/-- The value of the first field. -/
theorem queryParam_value (hn : PlainName name n) (v : List Char) :
    queryParam name (n ++ '=' :: v) = some (percentDecode (cutAt '&' v).1) := by
  have hfield : ∀ s, fieldParam name (n ++ '=' :: s) = some (percentDecode s) := by
    intro s
    unfold fieldParam
    rw [cutAt_of_notMem (hn.notMem (.inr (.inr rfl))), cutAt_cons, List.append_nil, if_pos hn.decode,
      Option.getD_some]
  have hno : ∀ s, '&' ∉ s → '&' ∉ n ++ '=' :: s := by
    intro s hs
    rw [List.mem_append, List.mem_cons, not_or, not_or]
    exact ⟨hn.notMem (.inr (.inl rfl)), by decide, hs⟩
  by_cases hmem : '&' ∈ v
  · obtain ⟨before, after, rfl, hbefore⟩ := List.eq_append_cons_of_mem hmem
    have happend : queryParam name ((n ++ '=' :: before) ++ '&' :: after) = _ :=
      queryParam_append (hno before hbefore) after
    rw [List.append_assoc, List.cons_append] at happend
    rw [happend, hfield, Option.some_or, cutAt_of_notMem hbefore, cutAt_cons, List.append_nil]
  · rw [queryParam_of_notMem (hno v hmem), hfield, cutAt_eq_self hmem]

/-- A name behind a question mark is not the name. -/
theorem fieldParam_question (hn : PlainName name n) (hs : fieldParam name s = none) (v : List Char) :
    fieldParam name (s ++ '?' :: (n ++ '=' :: v)) = none := by
  unfold fieldParam at hs ⊢
  rw [ite_eq_right_iff] at hs ⊢
  intro hdecode
  exfalso
  by_cases hmem : '=' ∈ s
  · -- the name ends before
    obtain ⟨before, after, hcut⟩ := cutAt_of_mem hmem
    have hself := hcut []
    rw [List.append_nil, List.append_nil] at hself
    rw [hcut] at hdecode
    rw [hself] at hs
    exact Option.some_ne_none _ (hs hdecode)
  · -- the name is too long
    have hno : '=' ∉ s ++ '?' :: n := by
      rw [List.mem_append, List.mem_cons, not_or, not_or]
      exact ⟨hmem, by decide, hn.notMem (.inr (.inr rfl))⟩
    have hjoin : s ++ '?' :: (n ++ '=' :: v) = (s ++ '?' :: n) ++ '=' :: v := by simp
    rw [hjoin, cutAt_of_notMem hno, cutAt_cons, List.append_nil, percentDecode_append_cons (by decide),
      percentDecode_cons_of_ne (by decide), hn.decode] at hdecode
    have hlength := congrArg List.length hdecode
    have hbyte : (String.utf8EncodeChar '?').length = 1 := rfl
    rw [List.length_append, List.length_append, hbyte] at hlength
    omega

/-- **Behind another query, the value of the name is shorter**, if there is one. -/
theorem length_queryParam_question (hn : PlainName name n) (hq : queryParam name q = none)
    (h : queryParam name (q ++ '?' :: (n ++ '=' :: v)) = some value) : value.length < (bytes v).length := by
  induction q using fieldInduction with
  | last s hs =>
      rw [queryParam_of_notMem hs] at hq
      have hno : ∀ w, '&' ∉ w → '&' ∉ s ++ '?' :: (n ++ '=' :: w) := by
        intro w hw
        simp only [List.mem_append, List.mem_cons, not_or]
        exact ⟨hs, by decide, hn.notMem (.inr (.inl rfl)), by decide, hw⟩
      by_cases hmem : '&' ∈ v
      · obtain ⟨before, after, rfl, hbefore⟩ := List.eq_append_cons_of_mem hmem
        have hjoin : s ++ '?' :: (n ++ '=' :: (before ++ '&' :: after)) =
            (s ++ '?' :: (n ++ '=' :: before)) ++ '&' :: after := by simp
        rw [hjoin, queryParam_append (hno before hbefore), fieldParam_question hn hq, Option.none_or] at h
        have hle := length_queryParam_le h
        have hbyte : (String.utf8EncodeChar '&').length = 1 := rfl
        rw [bytes_append, bytes_cons, List.length_append, List.length_append, hbyte]
        omega
      · rw [queryParam_of_notMem (hno v hmem), fieldParam_question hn hq] at h
        cases h
  | next s rest hs ih =>
      rw [queryParam_append hs, Option.or_eq_none_iff] at hq
      rw [List.append_assoc, List.cons_append, queryParam_append hs, hq.1, Option.none_or] at h
      exact ih hq.2 h

/-! ### Parameters behind a URL -/

section

variable {H : HostParser} {u : Url} {c : Char} {pre : List Char}

theorem queryParam_querySetOf (k : Kind) (q : List Char) :
    queryParam name (percentEncode (querySetOf k) q) = queryParam name q :=
  queryParam_percentEncode (querySetOf_leavesTriplets k) (by cases k <;> decide) (by cases k <;> decide) q

/-- **A parameter behind a URL without a query arrives as what is left of its value.** -/
theorem parse_param (hc : isC0OrSpace c = false) (hu : parse H (pre ++ [c]) = some u) (hquery : u.query = none)
    (hfragment : u.fragment = none) (hn : PlainName name n) (v : List Char) :
    ∃ query fragment, parse H (pre ++ c :: '?' :: (n ++ '=' :: v)) =
        some { u with query := some query, fragment := fragment } ∧
      queryParam name query = some (percentDecode (valueRest v)) := by
  refine ⟨_, _, parse_query hc hu hfragment _, ?_⟩
  rw [hquery, hn.rest]
  show queryParam name ([] ++ percentEncode (querySetOf u.kind) _) = _
  rw [List.nil_append, queryParam_querySetOf, queryParam_value hn]
  rfl

/-- A query is the encoding of what was written. -/
theorem exists_query_of_parse (hu : parse H cs = some u) (hquery : u.query = some q) :
    ∃ raw, q = percentEncode (querySetOf u.kind) raw := by
  obtain ⟨head, -, rfl⟩ := Option.map_eq_some_iff.mp hu
  obtain ⟨raw, -, rfl⟩ := Option.map_eq_some_iff.mp hquery
  exact ⟨raw, rfl⟩

/-- **Behind another query, a parameter does not arrive.** -/
theorem param_ne_of_query (hc : isC0OrSpace c = false) (hu : parse H (pre ++ [c]) = some u)
    (hquery : u.query = some q) (hq : queryParam name q = none) (hfragment : u.fragment = none)
    (hn : PlainName name n) (v : List Char) :
    ∃ query fragment, parse H (pre ++ c :: '?' :: (n ++ '=' :: v)) =
        some { u with query := some query, fragment := fragment } ∧
      queryParam name query ≠ some (bytes v) := by
  refine ⟨_, _, parse_query hc hu hfragment _, ?_⟩
  obtain ⟨raw, rfl⟩ := exists_query_of_parse hu hquery
  have hquestion : querySetOf u.kind '?' = false := by
    cases u.kind with
    | special => decide
    | file => decide
    | other => decide
  have hjoin : percentEncode (querySetOf u.kind) raw ++ ['?'] ++ percentEncode (querySetOf u.kind)
      (n ++ '=' :: (cutAt '#' (cleanEnd v)).1) =
        percentEncode (querySetOf u.kind) (raw ++ '?' :: (n ++ '=' :: (cutAt '#' (cleanEnd v)).1)) := by
    rw [percentEncode_append (querySetOf u.kind) raw, percentEncode_cons_of_false hquestion, List.append_assoc]
    rfl
  rw [queryParam_querySetOf] at hq
  rw [hquery, hn.rest]
  show queryParam name (percentEncode (querySetOf u.kind) raw ++ ['?'] ++ _) ≠ _
  rw [hjoin, queryParam_querySetOf]
  intro hvalue
  have hlt := length_queryParam_question hn hq hvalue
  have hle := (length_bytes_sublist ((cutAt_fst_sublist '#' (cleanEnd v)).trans (cleanEnd_sublist v))).1
  omega

end

end IcebergDb.Url
