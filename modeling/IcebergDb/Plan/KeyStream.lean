import IcebergDb.Plan.FkBoundPushdown
import Mathlib.Data.Int.Interval
import Mathlib.Data.List.Perm.Subperm

/-!
# Constraints from a stream of keys

The collection loop of `plan_time_join_key_constraint`, on key columns of any Arrow type but the floats.

* `KeyType` and `keyTypeOf` — the types of key columns, and of their cells;
* `streamConstraint` — the loop and what is made of the distinct datums;
* `Satisfies` — a row with the key passes a predicate;
* `streamConstraint_complete` — **every key of the stream satisfies the pushed predicate, and a range admits at
  most four times as many keys as there are**, if a `Date64` column holds days that an Iceberg date can hold;
* `planTime_eq_stream` — the loop on the columns that Iceberg's reader returns.
-/

namespace IcebergDb.Plan

open IcebergDb.Expr IcebergDb.Scan IcebergDb.Extremum

/-! ### Key columns -/

/-- The Arrow type of a key column; `other` are the types whose scalars have no datum. -/
inductive KeyType where
  | boolean
  | int8
  | int16
  | int32
  | int64
  | utf8
  | largeUtf8
  | binary
  | largeBinary
  | date32
  | date64
  | timestampMicrosecond (tz : Option String)
  | timestampNanosecond (tz : Option String)
  | other (name : String)
deriving DecidableEq

/-- The type of a cell that is no float. -/
def keyTypeOf : ScalarValue → Option KeyType
  | .boolean _ => some .boolean
  | .int8 _ => some .int8
  | .int16 _ => some .int16
  | .int32 _ => some .int32
  | .int64 _ => some .int64
  | .float32 _ | .float64 _ => none
  | .utf8 _ => some .utf8
  | .largeUtf8 _ => some .largeUtf8
  | .binary _ => some .binary
  | .largeBinary _ => some .largeBinary
  | .date32 _ => some .date32
  | .date64 _ => some .date64
  | .timestampMicrosecond _ tz => some (.timestampMicrosecond tz)
  | .timestampNanosecond _ tz => some (.timestampNanosecond tz)
  | .other name _ => some (.other name)

/-- The days of a `Date64` column, as far as an Iceberg date goes. -/
def IsDay : ScalarValue → Prop
  | .date64 (some ms) => ∃ d : ℤ, (-2 ^ 31 ≤ d ∧ d < 2 ^ 31) ∧ ms = d * millisPerDay
  | _ => True

/-- `is_null`. -/
def isNullCell (cell : ScalarValue) : Bool := cell.value.isNone

/-- The datums of a stream, each once. -/
def distinctDatums (batches : List (List ScalarValue)) : List Datum :=
  (batches.flatten.filterMap scalarValueToDatum).dedup

/-- The keys of a stream, each once. -/
def distinctKeys (batches : List (List ScalarValue)) : List ScalarValue :=
  (batches.flatten.filter fun cell => !isNullCell cell).dedup

/-! ### The loop -/

/-- One cell of `collect_distinct_from_array`. -/
def insertScalar (distinct : List Datum) (cell : ScalarValue) : List Datum :=
  if isNullCell cell then distinct
  else
    match scalarValueToDatum cell with
    | some d => if d ∈ distinct then distinct else distinct ++ [d]
    | none => distinct

/-- The loop over the record batches. -/
def collectStream : ℕ → List Datum → List (List ScalarValue) → Option (List Datum)
  | _, distinct, [] => some distinct
  | rowsRead, distinct, batch :: batches =>
      if batch.length = 0 then collectStream rowsRead distinct batches
      else if rowsRead + batch.length > maxPlanTimeDimRows then none
      else collectStream (rowsRead + batch.length) (batch.foldl insertScalar distinct) batches

/-- The constraint for the distinct datums, in the order in which the hash set is iterated. -/
def summarize (values : List Datum) : Option JoinKeyConstraint :=
  match minBy cmpDatum values, maxBy cmpDatum values with
  | some lo, some hi =>
      if rangeIsSelective lo hi values.length then some (.range lo hi)
      else if values.length ≤ maxInlistValues then some (.inList values)
      else none
  | _, _ => none

/-- What `plan_time_join_key_constraint` makes of the record batches. -/
def streamConstraint (iter : List Datum → List Datum) (batches : List (List ScalarValue)) :
    Option JoinKeyConstraint :=
  (collectStream 0 [] batches).bind fun distinct => summarize (iter distinct)

/-! ### Keys as Iceberg values -/

/-- The value of a key in an Iceberg column: a date has no time of day. -/
def ScalarValue.nativeValue : ScalarValue → Option NativeValue
  | .date64 (some ms) => if millisPerDay ∣ ms then some ⟨.date (ms / millisPerDay), rfl⟩ else none
  | cell => cell.value.bind fun v => if h : v.native = true then some ⟨v, h⟩ else none

/-- A row with the key in the column passes the predicate. -/
def Satisfies (column : String) (p : Predicate) (cell : ScalarValue) : Prop :=
  ∃ v, ScalarValue.nativeValue cell = some v ∧ p.isTrueOn fun c => if c = column then some v else none

/-- The integer under a key. -/
def keyInt (cell : ScalarValue) : Option ℤ := (scalarValueToDatum cell).bind datumAsI64

/-- What a constraint promises about the keys of a column of type `ty`. -/
structure CompleteFor (column : String) (ty : KeyType) (batches : List (List ScalarValue))
    (c : JoinKeyConstraint) : Prop where
  /-- No key is lost. -/
  keys : ∀ cell ∈ batches.flatten, isNullCell cell = false →
    Satisfies column (constraintToPredicate column c) cell
  /-- A range is as tight as the number of distinct datums, in the integers. -/
  span : ∀ lo hi, c = .range lo hi → ∃ l u, datumAsI64 lo = some l ∧ datumAsI64 hi = some u ∧
    u - l + 1 ≤ 4 * (distinctDatums batches).length
  /-- A range admits at most four times the distinct keys. -/
  few : ∀ lo hi, c = .range lo hi → ∀ admitted : List ScalarValue, admitted.Nodup →
    (∀ cell ∈ admitted, keyTypeOf cell = some ty ∧ IsDay cell ∧
      Satisfies column (constraintToPredicate column c) cell) →
    admitted.length ≤ 4 * (distinctKeys batches).length

/-! ### What is collected -/

/-- A NULL has no datum. -/
theorem scalarValueToDatum_of_null {cell : ScalarValue} (hnull : isNullCell cell = true) :
    scalarValueToDatum cell = none := by
  cases cell with
  | other => rfl
  | _ v => cases v with
    | none => rfl
    | some => cases hnull

theorem mem_insertScalar {d : Datum} (distinct : List Datum) (cell : ScalarValue) :
    d ∈ insertScalar distinct cell ↔ d ∈ distinct ∨ scalarValueToDatum cell = some d := by
  unfold insertScalar
  split
  · rename_i hnull
    simp [scalarValueToDatum_of_null hnull]
  · cases scalarValueToDatum cell with
    | none => simp
    | some e =>
        by_cases he : e ∈ distinct
        · simp only [if_pos he, Option.some.injEq]
          refine ⟨.inl, ?_⟩
          rintro (h | rfl)
          · exact h
          · exact he
        · simp only [if_neg he, List.mem_append, List.mem_singleton, Option.some.injEq, @eq_comm _ d e]

/-- One cell adds at most one datum, and none twice. -/
theorem insertScalar_spec {distinct : List Datum} (hnodup : distinct.Nodup) (cell : ScalarValue) :
    (insertScalar distinct cell).Nodup ∧ (insertScalar distinct cell).length ≤ distinct.length + 1 := by
  unfold insertScalar
  split
  · exact ⟨hnodup, Nat.le_succ _⟩
  · cases scalarValueToDatum cell with
    | none => exact ⟨hnodup, Nat.le_succ _⟩
    | some d =>
        by_cases hd : d ∈ distinct
        · simp only [if_pos hd]
          exact ⟨hnodup, Nat.le_succ _⟩
        · simp only [if_neg hd]
          refine ⟨?_, by rw [List.length_append, List.length_singleton]⟩
          exact hnodup.append (List.nodup_singleton d) (by simpa using hd)

theorem mem_foldl_insertScalar {d : Datum} (batch : List ScalarValue) : ∀ distinct : List Datum,
    d ∈ batch.foldl insertScalar distinct ↔
      d ∈ distinct ∨ ∃ cell ∈ batch, scalarValueToDatum cell = some d := by
  induction batch with
  | nil => simp
  | cons cell batch ih =>
      intro distinct
      rw [List.foldl_cons, ih, mem_insertScalar, or_assoc]
      simp only [List.mem_cons, or_and_right, exists_or, exists_eq_left]

theorem foldl_insertScalar_spec (batch : List ScalarValue) : ∀ distinct : List Datum, distinct.Nodup →
    (batch.foldl insertScalar distinct).Nodup ∧
      (batch.foldl insertScalar distinct).length ≤ distinct.length + batch.length := by
  induction batch with
  | nil => exact fun distinct hnodup => ⟨hnodup, le_refl _⟩
  | cons cell batch ih =>
      intro distinct hnodup
      obtain ⟨hcell, hlength⟩ := insertScalar_spec hnodup cell
      obtain ⟨hbatch, hlength'⟩ := ih _ hcell
      refine ⟨hbatch, ?_⟩
      rw [List.foldl_cons, List.length_cons]
      omega

/-- **What the loop collects**: the datums of all cells, each once, not more than rows may be read. -/
theorem collectStream_spec (batches : List (List ScalarValue)) :
    ∀ (rowsRead : ℕ) (distinct out : List Datum), distinct.Nodup → distinct.length ≤ rowsRead →
      rowsRead ≤ maxPlanTimeDimRows → collectStream rowsRead distinct batches = some out →
      out.Nodup ∧ out.length ≤ maxPlanTimeDimRows ∧
        ∀ d, d ∈ out ↔ d ∈ distinct ∨ ∃ cell ∈ batches.flatten, scalarValueToDatum cell = some d := by
  induction batches with
  | nil =>
      intro rowsRead distinct out hnodup hlength hrows h
      obtain rfl := Option.some.inj h
      exact ⟨hnodup, hlength.trans hrows, by simp⟩
  | cons batch batches ih =>
      intro rowsRead distinct out hnodup hlength hrows h
      rw [collectStream] at h
      simp only [List.flatten_cons, List.mem_append]
      split at h
      · rename_i hempty
        obtain ⟨hout, hbound, hmem⟩ := ih _ _ _ hnodup hlength hrows h
        refine ⟨hout, hbound, fun d => ?_⟩
        rw [hmem, List.length_eq_zero_iff.mp hempty]
        simp
      · split at h
        · cases h
        · rename_i hfew
          obtain ⟨hbatch, hlength'⟩ := foldl_insertScalar_spec batch distinct hnodup
          obtain ⟨hout, hbound, hmem⟩ := ih _ _ _ hbatch (by omega) (by omega) h
          refine ⟨hout, hbound, fun d => ?_⟩
          rw [hmem, mem_foldl_insertScalar, or_assoc]
          simp only [or_and_right, exists_or]

/-! ### Keys of one column -/

section

variable {ty : KeyType} {cell other : ScalarValue} {d e : Datum}

/-- The datums of one column compare with each other. -/
theorem partialCmp_of_keyType (htype : keyTypeOf cell = some ty) (hother : keyTypeOf other = some ty)
    (hd : scalarValueToDatum cell = some d) (he : scalarValueToDatum other = some e) :
    ∃ o, d.partialCmp e = some o := by
  unfold scalarValueToDatum at hd
  split at hd <;> cases hd <;> cases htype <;>
    (cases other <;> cases hother
     rename_i v
     cases v <;> cases he
     exact ⟨_, rfl⟩)

/-- Where one cell of a column has a datum, all cells that are not NULL have. -/
theorem exists_datum_of_keyType (htype : keyTypeOf cell = some ty) (hother : keyTypeOf other = some ty)
    (hd : scalarValueToDatum cell = some d) (hnull : isNullCell other = false) :
    ∃ e, scalarValueToDatum other = some e := by
  unfold scalarValueToDatum at hd
  split at hd <;> cases hd <;> cases htype <;>
    (cases other <;> cases hother
     rename_i v
     cases v <;> cases hnull
     exact ⟨_, rfl⟩)

theorem Datum.native_value (d : Datum) : d.value.native = true := by
  cases d <;> rfl

theorem asI32_of_range {d : ℤ} (hlo : -2 ^ 31 ≤ d) (hhi : d < 2 ^ 31) : asI32 d = d := by
  unfold asI32
  exact Int.bmod_eq_of_le (by omega) (by omega)

/-- A day survives the conversion. -/
theorem datum_of_day {ms : ℤ} (hday : IsDay (.date64 (some ms))) :
    ∃ d : ℤ, ms = d * millisPerDay ∧ scalarValueToDatum (.date64 (some ms)) = some (.date d) := by
  obtain ⟨d, ⟨hlo, hhi⟩, rfl⟩ := hday
  have hpos : millisPerDay ≠ 0 := by decide
  refine ⟨d, rfl, ?_⟩
  show some (Datum.date (asI32 ((d * millisPerDay).tdiv millisPerDay))) = _
  rw [Int.mul_tdiv_cancel d hpos, asI32_of_range hlo hhi]

theorem nativeValue_eq (hdate : cell.isDate64 = false) : ScalarValue.nativeValue cell =
    cell.value.bind fun v => if h : v.native = true then some ⟨v, h⟩ else none := by
  cases cell with
  | date64 => cases hdate
  | _ => rfl

/-- A NULL is no value. -/
theorem isNullCell_of_nativeValue {v : NativeValue} (hv : ScalarValue.nativeValue cell = some v) :
    isNullCell cell = false := by
  by_cases hdate : cell.isDate64 = true
  · cases cell <;> cases hdate
    rename_i ms
    cases ms with
    | none => cases hv
    | some ms => rfl
  · rw [nativeValue_eq (Bool.eq_false_iff.mpr hdate)] at hv
    obtain ⟨w, hw, -⟩ := Option.bind_eq_some_iff.mp hv
    rw [isNullCell, hw]
    rfl

/-- **The datum of a key has its value.** -/
theorem nativeValue_of_datum (hday : IsDay cell) (hd : scalarValueToDatum cell = some d) :
    ScalarValue.nativeValue cell = some ⟨d.value, Datum.native_value d⟩ := by
  by_cases hdate : cell.isDate64 = true
  · cases cell <;> cases hdate
    rename_i v
    cases v with
    | none => cases hd
    | some ms =>
        obtain ⟨day, rfl, hdatum⟩ := datum_of_day hday
        obtain rfl := Option.some.inj (hdatum.symm.trans hd)
        have hpos : millisPerDay ≠ 0 := by decide
        rw [ScalarValue.nativeValue, if_pos (Int.dvd_mul_left day millisPerDay)]
        simp only [Int.mul_ediv_cancel day hpos]
        rfl
  · have hvalue := scalarValueToDatum_value hd (Bool.eq_false_iff.mpr hdate)
    rw [nativeValue_eq (Bool.eq_false_iff.mpr hdate), hvalue, Option.bind_some,
      dif_pos (Datum.native_value d)]

/-- Keys of one column over the same integer are the same key. -/
theorem eq_of_keyInt {i : ℤ} (htype : keyTypeOf cell = some ty) (hother : keyTypeOf other = some ty)
    (hday : IsDay cell) (hday' : IsDay other) (hi : keyInt cell = some i) (hi' : keyInt other = some i) :
    cell = other := by
  obtain ⟨d, hd, hdi⟩ := Option.bind_eq_some_iff.mp hi
  obtain ⟨e, he, hei⟩ := Option.bind_eq_some_iff.mp hi'
  unfold scalarValueToDatum at hd
  split at hd <;> cases hd <;> cases hdi <;> cases htype <;>
    (cases other <;> cases hother
     rename_i v
     cases v <;> cases he)
  case h_13 ms w =>
    obtain ⟨day, rfl, hdatum⟩ := datum_of_day hday
    obtain ⟨day', rfl, hdatum'⟩ := datum_of_day hday'
    rw [keyInt, hdatum] at hi
    rw [keyInt, hdatum'] at hi'
    rw [Option.some.inj (hi.trans hi'.symm)]
  all_goals
    cases hei
    rfl

/-- A datum that compares with an integer is one. -/
theorem ordering_of_int {o : Ordering} {l : ℤ} (ho : d.partialCmp e = some o)
    (hl : datumAsI64 e = some l) :
    ∃ i, datumAsI64 d = some i ∧ d.value.ordering e.value = some (lcmp i l) := by
  cases d <;> cases e <;> cases ho <;> cases hl <;> exact ⟨_, rfl, rfl⟩

end

/-- **The test on a range is exact** for as many keys as may be read. -/
theorem span_of_selective {lo hi : Datum} {n : ℕ} (hn : n ≤ maxPlanTimeDimRows)
    (h : rangeIsSelective lo hi n = true) :
    ∃ l u, datumAsI64 lo = some l ∧ datumAsI64 hi = some u ∧ u - l + 1 ≤ 4 * n := by
  unfold rangeIsSelective at h
  split at h
  · rename_i l u hl hu
    refine ⟨l, u, hl, hu, ?_⟩
    split at h
    · cases h
    · have hspan := of_decide_eq_true h
      have hrows : maxPlanTimeDimRows = 524288 := rfl
      have hmul : saturatingMul n 4 ≤ n * 4 := Nat.min_le_left _ _
      unfold saturateI64 at hspan
      omega
  · cases h

/-! ### The constraint -/

/-- A range or a list of what was collected. -/
theorem summarize_cases {values : List Datum} {c : JoinKeyConstraint} (h : summarize values = some c) :
    ∃ lo hi, minBy cmpDatum values = some lo ∧ maxBy cmpDatum values = some hi ∧
      ((c = .range lo hi ∧ rangeIsSelective lo hi values.length = true) ∨ c = .inList values) := by
  unfold summarize at h
  split at h
  · rename_i lo hi hlo hhi
    refine ⟨lo, hi, hlo, hhi, ?_⟩
    split at h
    · rename_i hselective
      exact .inl ⟨(Option.some.inj h).symm, hselective⟩
    · split at h
      · exact .inr (Option.some.inj h).symm
      · cases h
  · cases h

/-- A key whose datum the constraint admits satisfies the pushed predicate. -/
theorem satisfies_iff {column : String} {c : JoinKeyConstraint} {cell : ScalarValue} {d : Datum}
    (hday : IsDay cell) (hd : scalarValueToDatum cell = some d) :
    Satisfies column (constraintToPredicate column c) cell ↔ c.Admits d.value := by
  have hrow : ∀ v : NativeValue,
      (constraintToPredicate column c).isTrueOn (fun c => if c = column then some v else none) ↔
        c.Admits v.1 := by
    intro v
    rw [constraintToPredicate_isTrueOn, admitsKey_eq_true, if_pos rfl]
    simp
  rw [Satisfies, nativeValue_of_datum hday hd]
  simp only [Option.some.injEq, hrow]
  constructor
  · rintro ⟨v, rfl, hadmits⟩
    exact hadmits
  · intro hadmits
    exact ⟨_, rfl, hadmits⟩

/-- The integers between the ends of a range are the keys that it admits. -/
theorem keyInt_of_admits {ty : KeyType} {cell low high : ScalarValue} {d lo hi : Datum} {l u : ℤ}
    (htype : keyTypeOf cell = some ty) (hlowType : keyTypeOf low = some ty)
    (hhighType : keyTypeOf high = some ty) (hd : scalarValueToDatum cell = some d)
    (hlo : scalarValueToDatum low = some lo) (hhi : scalarValueToDatum high = some hi)
    (hl : datumAsI64 lo = some l) (hu : datumAsI64 hi = some u)
    (hadmits : (JoinKeyConstraint.range lo hi).Admits d.value) :
    ∃ i, keyInt cell = some i ∧ l ≤ i ∧ i ≤ u := by
  obtain ⟨o, ho⟩ := partialCmp_of_keyType htype hlowType hd hlo
  obtain ⟨o', ho'⟩ := partialCmp_of_keyType htype hhighType hd hhi
  obtain ⟨i, hint, hge⟩ := ordering_of_int ho hl
  obtain ⟨i', hint', hle⟩ := ordering_of_int ho' hu
  obtain rfl := Option.some.inj (hint.symm.trans hint')
  obtain ⟨hlower, hupper⟩ := hadmits
  refine ⟨i, by rw [keyInt, hd, Option.bind_some, hint], ?_, ?_⟩
  · have hlower' : (d.value.ordering lo.value).bind PredicateOperator.greaterThanOrEq.test = some true := hlower
    rw [hge, Option.bind_some] at hlower'
    by_contra hlt
    have hcmp : lcmp i l = .lt := (cmp_eq_lt_iff i l).mpr (not_le.mp hlt)
    rw [hcmp] at hlower'
    cases hlower'
  · have hupper' : (d.value.ordering hi.value).bind PredicateOperator.lessThanOrEq.test = some true := hupper
    rw [hle, Option.bind_some] at hupper'
    by_contra hgt
    have hcmp : lcmp i u = .gt := (cmp_eq_gt_iff i u).mpr (not_le.mp hgt)
    rw [hcmp] at hupper'
    cases hupper'

/-- **A range admits no more keys than integers.** -/
theorem length_admitted_le {ty : KeyType} {low high : ScalarValue} {lo hi : Datum} {l u : ℤ}
    (hlowType : keyTypeOf low = some ty) (hhighType : keyTypeOf high = some ty)
    (hlo : scalarValueToDatum low = some lo) (hhi : scalarValueToDatum high = some hi)
    (hl : datumAsI64 lo = some l) (hu : datumAsI64 hi = some u) {column : String}
    {admitted : List ScalarValue} (hnodup : admitted.Nodup)
    (hadmitted : ∀ cell ∈ admitted, keyTypeOf cell = some ty ∧ IsDay cell ∧
      Satisfies column (constraintToPredicate column (.range lo hi)) cell) :
    admitted.length ≤ (u + 1 - l).toNat := by
  have hbetween : ∀ cell ∈ admitted, ∃ i, keyInt cell = some i ∧ l ≤ i ∧ i ≤ u := by
    intro cell hcell
    obtain ⟨htype, hday, hsatisfies⟩ := hadmitted cell hcell
    have hnull : isNullCell cell = false := by
      obtain ⟨v, hv, -⟩ := hsatisfies
      exact isNullCell_of_nativeValue hv
    obtain ⟨d, hd⟩ := exists_datum_of_keyType hlowType htype hlo hnull
    exact keyInt_of_admits htype hlowType hhighType hd hlo hhi hl hu ((satisfies_iff hday hd).mp hsatisfies)
  have hints : (admitted.map keyInt).Nodup := by
    refine List.Nodup.map_on ?_ hnodup
    intro cell hcell cell' hcell' hsame
    obtain ⟨i, hint, -⟩ := hbetween cell hcell
    obtain ⟨htype, hday, -⟩ := hadmitted cell hcell
    obtain ⟨htype', hday', -⟩ := hadmitted cell' hcell'
    exact eq_of_keyInt htype htype' hday hday' hint (hsame ▸ hint)
  have hsub : admitted.map keyInt ⊆ (Finset.Icc l u).toList.map some := by
    intro k hk
    obtain ⟨cell, hcell, rfl⟩ := List.mem_map.mp hk
    obtain ⟨i, hint, hlower, hupper⟩ := hbetween cell hcell
    rw [hint]
    exact List.mem_map.mpr ⟨i, Finset.mem_toList.mpr (Finset.mem_Icc.mpr ⟨hlower, hupper⟩), rfl⟩
  have hcard := (List.subperm_of_subset hints hsub).length_le
  rwa [List.length_map, List.length_map, Finset.length_toList, Int.card_Icc] at hcard

/-- Every datum is that of a key. -/
theorem length_distinctDatums (batches : List (List ScalarValue)) :
    (distinctDatums batches).length ≤ (distinctKeys batches).length := by
  have hsub : distinctDatums batches ⊆ (distinctKeys batches).filterMap scalarValueToDatum := by
    intro d hd
    obtain ⟨cell, hcell, hdatum⟩ := List.mem_filterMap.mp (List.mem_dedup.mp hd)
    refine List.mem_filterMap.mpr ⟨cell, List.mem_dedup.mpr (List.mem_filter.mpr ⟨hcell, ?_⟩), hdatum⟩
    cases hnull : isNullCell cell with
    | false => rfl
    | true => cases (scalarValueToDatum_of_null hnull).symm.trans hdatum
  exact ((List.subperm_of_subset (List.nodup_dedup _) hsub).length_le).trans (List.length_filterMap_le _ _)

/-- **The constraint of a stream is complete**, for every order in which the hash set is iterated: no key is
lost, and a range is tight. -/
theorem streamConstraint_complete {iter : List Datum → List Datum} (hiter : ∀ l, (iter l).Perm l)
    {ty : KeyType} {batches : List (List ScalarValue)}
    (htype : ∀ cell ∈ batches.flatten, keyTypeOf cell = some ty)
    (hday : ∀ cell ∈ batches.flatten, IsDay cell) {c : JoinKeyConstraint}
    (h : streamConstraint iter batches = some c) (column : String) : CompleteFor column ty batches c := by
  obtain ⟨distinct, hcollect, h⟩ := Option.bind_eq_some_iff.mp h
  obtain ⟨lo, hi, hlo, hhi, hc⟩ := summarize_cases h
  obtain ⟨hnodup, hbound, hcollected⟩ :=
    collectStream_spec batches 0 [] distinct List.nodup_nil (Nat.zero_le _) (Nat.zero_le _) hcollect
  have hmem : ∀ d, d ∈ iter distinct ↔ ∃ cell ∈ batches.flatten, scalarValueToDatum cell = some d := by
    intro d
    rw [(hiter distinct).mem_iff, hcollected]
    simp
  have hcomparable : MutuallyComparable (iter distinct) := by
    intro a ha b hb
    obtain ⟨cell, hcell, hcella⟩ := (hmem a).mp ha
    obtain ⟨cell', hcell', hcellb⟩ := (hmem b).mp hb
    exact partialCmp_of_keyType (htype cell hcell) (htype cell' hcell') hcella hcellb
  obtain ⟨low, hlow, hlowDatum⟩ := (hmem lo).mp (minBy_spec hcomparable.preorderOn hlo).1
  obtain ⟨high, hhigh, hhighDatum⟩ := (hmem hi).mp (maxBy_spec hcomparable.preorderOn hhi).1
  -- a range is chosen by the number of distinct datums
  have hlength : (iter distinct).length = (distinctDatums batches).length := by
    rw [(hiter distinct).length_eq]
    refine List.Perm.length_eq ((List.perm_ext_iff_of_nodup hnodup (List.nodup_dedup _)).mpr ?_)
    intro d
    rw [hcollected, List.mem_dedup, List.mem_filterMap]
    simp
  have hspan : ∀ lo' hi', c = .range lo' hi' → lo' = lo ∧ hi' = hi ∧ ∃ l u, datumAsI64 lo = some l ∧
      datumAsI64 hi = some u ∧ u - l + 1 ≤ 4 * (distinctDatums batches).length := by
    intro lo' hi' hrange
    rcases hc with ⟨hcrange, hselective⟩ | hlist
    · obtain ⟨rfl, rfl⟩ := JoinKeyConstraint.range.inj (hcrange.symm.trans hrange)
      have hrows : (iter distinct).length ≤ maxPlanTimeDimRows := by
        rw [(hiter distinct).length_eq]
        exact hbound
      obtain ⟨l, u, hl, hu, hexact⟩ := span_of_selective hrows hselective
      rw [hlength] at hexact
      exact ⟨rfl, rfl, l, u, hl, hu, hexact⟩
    · cases hlist.symm.trans hrange
  refine ⟨?_, ?_, ?_⟩
  · intro cell hcell hnull
    obtain ⟨d, hd⟩ := exists_datum_of_keyType (htype low hlow) (htype cell hcell) hlowDatum hnull
    have hdmem : d ∈ iter distinct := (hmem d).mpr ⟨cell, hcell, hd⟩
    rw [satisfies_iff (hday cell hcell) hd]
    rcases hc with ⟨rfl, -⟩ | rfl
    · exact hcomparable.range_admits hlo hhi hdmem
    · exact inList_admits hdmem
  · intro lo' hi' hrange
    obtain ⟨rfl, rfl, hexact⟩ := hspan lo' hi' hrange
    exact hexact
  · intro lo' hi' hrange admitted hadmittedNodup hadmitted
    obtain ⟨rfl, rfl, l, u, hl, hu, hexact⟩ := hspan lo' hi' hrange
    subst hrange
    have hcard := length_admitted_le (htype low hlow) (htype high hhigh) hlowDatum hhighDatum hl hu
      hadmittedNodup hadmitted
    have hkeys := length_distinctDatums batches
    omega

/-- A stream of one integer key, twice and with a NULL. -/
theorem streamConstraint_complete_repeats :
    streamConstraint List.reverse [[.int64 (some 5), .int64 none], [], [.int64 (some 5)]] =
        some (.range (.long 5) (.long 5)) ∧
      CompleteFor "k" .int64 [[.int64 (some 5), .int64 none], [], [.int64 (some 5)]]
        (.range (.long 5) (.long 5)) := by
  refine ⟨by decide, streamConstraint_complete List.reverse_perm ?_ ?_ (by decide) "k"⟩
  · decide
  · intro cell hcell
    simp only [List.flatten_cons, List.flatten_nil, List.cons_append, List.nil_append, List.mem_cons,
      List.not_mem_nil, or_false] at hcell
    rcases hcell with rfl | rfl | rfl <;> trivial

/-- The first day after those of an Iceberg date, in the milliseconds of a `Date64`. -/
def dayAfterDates : ScalarValue := .date64 (some (2 ^ 31 * millisPerDay))

/-- A day that does not fit an `i32` becomes another day, which the key does not satisfy. -/
theorem streamConstraint_loses_day :
    streamConstraint id [[dayAfterDates]] = some (.range (.date (-2 ^ 31)) (.date (-2 ^ 31))) ∧
      isNullCell dayAfterDates = false ∧
      ¬ Satisfies "k" (constraintToPredicate "k" (.range (.date (-2 ^ 31)) (.date (-2 ^ 31)))) dayAfterDates := by
  refine ⟨by decide, rfl, ?_⟩
  rintro ⟨v, hv, htrue⟩
  have hvalue : ScalarValue.nativeValue dayAfterDates = some ⟨.date (2 ^ 31), rfl⟩ := by decide
  obtain rfl := Option.some.inj (hvalue.symm.trans hv)
  exact absurd htrue (by decide)

/-! ### The columns that the reader returns -/

/-- A NULL of a type. -/
def ArrowType.null : ArrowType → ScalarValue
  | .boolean => .boolean none
  | .int32 => .int32 none
  | .int64 => .int64 none
  | .float32 => .float32 none
  | .float64 => .float64 none
  | .utf8 => .utf8 none
  | .largeUtf8 => .largeUtf8 none
  | .binary => .binary none
  | .largeBinary => .largeBinary none
  | .date32 => .date32 none
  | .timestampMicrosecond tz => .timestampMicrosecond none tz
  | .timestampNanosecond tz => .timestampNanosecond none tz
  | .other name => .other name none

/-- A cell that the reader returns. -/
def ArrowType.cell (ty : ArrowType) (cell : Option NativeValue) : ScalarValue :=
  (cell.bind fun v => ty.scalar v.1).getD ty.null

theorem insertScalar_cell (ty : ArrowType) (distinct : List Datum) (cell : Option NativeValue) :
    insertScalar distinct (ty.cell cell) = insertCell ty distinct cell := by
  have hskip : ∀ s, scalarValueToDatum s = none → insertScalar distinct s = distinct := by
    intro s hs
    rw [insertScalar, hs]
    exact ite_self _
  have hnull : scalarValueToDatum ty.null = none := by cases ty <;> rfl
  rw [insertCell, ArrowType.cell]
  cases cell with
  | none => exact hskip _ hnull
  | some v =>
      rw [Option.bind_some, Option.bind_some, ArrowType.datum]
      cases hscalar : ty.scalar v.1 with
      | none => exact hskip _ hnull
      | some s =>
          rw [Option.bind_some, Option.getD_some]
          cases hs : scalarValueToDatum s with
          | none => exact hskip s hs
          | some d =>
              have hfull : isNullCell s = false := by
                cases hempty : isNullCell s with
                | false => rfl
                | true => cases (scalarValueToDatum_of_null hempty).symm.trans hs
              rw [insertScalar, hfull, hs]
              rfl

theorem collectStream_cells (ty : ArrowType) (batches : List (List (Option NativeValue))) :
    ∀ (rowsRead : ℕ) (distinct : List Datum),
      collectStream rowsRead distinct (batches.map (List.map ty.cell)) =
        collectBatches ty rowsRead distinct batches := by
  induction batches with
  | nil => exact fun _ _ => rfl
  | cons batch batches ih =>
      intro rowsRead distinct
      have hbatch : (batch.map ty.cell).foldl insertScalar distinct =
          collectDistinctFromArray ty distinct batch := by
        rw [List.foldl_map, collectDistinctFromArray]
        exact congrArg (fun f => batch.foldl f distinct) (funext₂ (insertScalar_cell ty))
      rw [List.map_cons, collectStream, collectBatches, List.length_map, ih, ih, hbatch]

/-- **The plan-time read makes its constraint from the stream of its cells.** -/
theorem planTime_eq_stream {predicates : Option Predicate} {tasks : List FileScanTask}
    {batches : List (List (Option NativeValue))} {ty : ArrowType} {iter : List Datum → List Datum}
    {c : JoinKeyConstraint} (h : planTimeJoinKeyConstraint predicates tasks batches ty iter = some c) :
    streamConstraint iter (batches.map (List.map ty.cell)) = some c := by
  rw [planTimeJoinKeyConstraint] at h
  split at h
  · cases h
  · simp only at h
    split at h
    · cases h
    · rw [streamConstraint, collectStream_cells]
      split at h
      · cases h
      · rename_i distinct hdistinct
        rw [hdistinct, ← h]
        rfl

end IcebergDb.Plan
