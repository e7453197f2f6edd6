import IcebergDb.Foundation.PrefixOrder
import IcebergDb.Expr.Visitor
import Mathlib.Data.List.Count

/-!
# Column metrics and the tests on them

The counts and bounds that are kept for a column of a data file or a row group, and what they say about a
predicate.  `InclusiveMetricsEvaluator` and `RowGroupMetricsEvaluator` ask the same questions.

* `ColumnMetrics` — the counts and the bounds, each of which may be unknown;
* `ColumnMetrics.visitInequality`, `eq`, `startsWith`, `notStartsWith`, `isIn` — the tests;
* `boundsVisitor` — the visitor that both evaluators are;
* `ColumnMetrics.Describes` — the metrics are those of a list of cells;
* `boundsVisitor_leaf`, `boundsVisitor_keeps` — **a predicate that the row filter finds TRUE on a row of
  these cells is not ruled out**.

A comparison of a NaN is where the evaluators and the row filter differ: the row filter puts NaN above every
number, the bounds leave it out.  Rows with a NaN in a tested column are therefore not covered.
-/

namespace IcebergDb.Expr

open IcebergDb.Kleene IcebergDb.PrefixOrder

/-! ### NaN -/

/-- The place of NaN in the order of the floats. -/
def nanPlace : ℤ := 0x7ff8000000000000

/-- The value is NaN. -/
def Value.isNan : Value → Bool
  | .float place => place == nanPlace
  | _ => false

/-- `Datum::is_nan`. -/
def Datum.isNan (d : Datum) : Bool := d.value.isNan

/-- `is_nan` of a literal. -/
def BoundLiteral.isNan : BoundLiteral → Bool
  | .datum d => d.isNan
  | _ => false

/-- The cell holds NaN. -/
def cellIsNan : Option NativeValue → Bool
  | some v => v.1.isNan
  | none => false

/-! ### The order of values and datums -/

namespace Value

variable {a b c : Value} {o : Ordering}

/-- `a` is not above `b`, and they compare. -/
def AtMost (a b : Value) : Prop := ∃ o, a.ordering b = some o ∧ o ≠ .gt

theorem AtMost.trans (h : AtMost a b) (h' : AtMost b c) : AtMost a c := by
  obtain ⟨o, ho, hne⟩ := h
  obtain ⟨o', ho', hne'⟩ := h'
  exact ordering_trans ho hne ho' hne'

theorem AtMost.of_eq (h : a.ordering b = some .eq) : AtMost a b := ⟨.eq, h, by decide⟩

/-- Below something smaller is smaller. -/
theorem AtMost.lt (h : AtMost a b) (h' : b.ordering c = some .lt) : a.ordering c = some .lt := by
  obtain ⟨o, ho, hne⟩ := h.trans ⟨.lt, h', by decide⟩
  cases o with
  | lt => exact ho
  | gt => exact absurd rfl hne
  | eq =>
      obtain rfl := (ordering_eq_iff a c).mp ho
      obtain ⟨o, hab, hab'⟩ := h
      rw [ordering_swap, h'] at hab
      cases hab
      exact absurd rfl hab'

/-- Above something greater is greater. -/
theorem AtMost.gt (h : AtMost b a) (h' : b.ordering c = some .gt) : a.ordering c = some .gt := by
  have hcb : c.ordering b = some .lt := by
    rw [ordering_swap, h']
    rfl
  obtain ⟨o, ho, hne⟩ := AtMost.trans ⟨.lt, hcb, by decide⟩ h
  rw [ordering_swap, ho]
  cases o with
  | lt => rfl
  | gt => exact absurd rfl hne
  | eq =>
      obtain rfl := (ordering_eq_iff c a).mp ho
      obtain ⟨o, hbc, hbc'⟩ := h
      rw [h'] at hbc
      cases hbc
      exact absurd rfl hbc'

theorem AtMost.not_lt (h : AtMost b a) : a.ordering b ≠ some .lt := by
  obtain ⟨o, ho, hne⟩ := h
  rw [ordering_swap, ho]
  cases o with
  | lt => simp
  | eq => simp
  | gt => exact absurd rfl hne

end Value

/-- Exchanging two datums swaps the outcome. -/
theorem Datum.partialCmp_swap (a b : Datum) : b.partialCmp a = (a.partialCmp b).map Ordering.swap := by
  cases a <;> cases b <;> simp only [Datum.partialCmp, Option.map_none, Option.map_some, lcmp_swap]

/-- Where datums compare, they do so as their values. -/
theorem Datum.partialCmp_of_isSome {a b : Datum} (h : (a.partialCmp b).isSome) :
    a.partialCmp b = a.value.ordering b.value := by
  obtain ⟨o, ho⟩ := Option.isSome_iff_exists.mp h
  rw [ho, Datum.partialCmp_value ho]

/-- `PartialOrd` between a bound and a literal; false if they do not compare. -/
def Datum.compares (b : Datum) (cmp : Ordering → Bool) : BoundLiteral → Bool
  | .datum d => (b.partialCmp d).any cmp
  | _ => false

/-- `PartialOrd` between a literal and a bound. -/
def BoundLiteral.compares (cmp : Ordering → Bool) (b : Datum) : BoundLiteral → Bool
  | .datum d => (d.partialCmp b).any cmp
  | _ => false

/-! ### The tests -/

/-- What is known about a column.  Reading a bound may fail. -/
structure ColumnMetrics where
  valueCount : Option ℕ
  nullCount : Option ℕ
  nanCount : Option ℕ
  lowerBound : Except VisitError (Option Datum)
  upperBound : Except VisitError (Option Datum)

namespace ColumnMetrics

variable (m : ColumnMetrics)

/-- `IN_PREDICATE_LIMIT`. -/
def inPredicateLimit : ℕ := 4096

/-- `contains_nans_only`. -/
def containsNansOnly : Bool := m.nanCount.isSome && m.nanCount == m.valueCount

/-- `contains_nulls_only`. -/
def containsNullsOnly : Bool := m.nullCount.isSome && m.nullCount == m.valueCount

/-- `may_contain_null`. -/
def mayContainNull : Bool :=
  match m.nullCount with
  | some n => decide (0 < n)
  | none => true

/-- `visit_inequality`. -/
def visitInequality (l : BoundLiteral) (cmp : Ordering → Bool) (useLowerBound : Bool) :
    Except VisitError Bool :=
  if m.containsNullsOnly || m.containsNansOnly then .ok false
  else if l.isNan then .ok true
  else match if useLowerBound then m.lowerBound else m.upperBound with
    | .error e => .error e
    | .ok none => .ok true
    | .ok (some b) => .ok (b.compares cmp l)

/-- `eq`: a bound that is NaN is unreliable and ends the test. -/
def eq (l : BoundLiteral) : Except VisitError Bool :=
  if m.containsNullsOnly || m.containsNansOnly then .ok false
  else match m.lowerBound with
    | .error e => .error e
    | .ok lower =>
        if lower.any Datum.isNan then .ok true
        else if lower.any (Datum.compares · (· == .gt) l) then .ok false
        else match m.upperBound with
          | .error e => .error e
          | .ok upper =>
              if upper.any Datum.isNan then .ok true
              else .ok !(upper.any (Datum.compares · (· == .lt) l))

/-- A bound that has to be a text. -/
def textBound (message : String) : Except VisitError (Option Datum) → Except VisitError (Option (List Char))
  | .error e => .error e
  | .ok none => .ok none
  | .ok (some (.string s)) => .ok (some s.toList)
  | .ok (some _) => .error (.unexpected message)

/-- A bound, cut to the length of the prefix. -/
def cut (bound pre : List Char) : List Char := bound.take (min bound.length pre.length)

/-- `starts_with`, on a prefix. -/
def startsWithText (s : List Char) : Except VisitError Bool :=
  match textBound "Cannot use StartsWith operator on non-string lower_bound value" m.lowerBound with
  | .error e => .error e
  | .ok lower =>
      if lower.any fun b => decide (s < cut b s) then .ok false
      else match textBound "Cannot use StartsWith operator on non-string upper_bound value" m.upperBound with
        | .error e => .error e
        | .ok upper => .ok !(upper.any fun b => decide (cut b s < s))

/-- `starts_with`. -/
def startsWith (l : BoundLiteral) : Except VisitError Bool :=
  if m.containsNullsOnly then .ok false
  else match l with
    | .datum (.string s) => m.startsWithText s.toList
    | _ => .error (.unexpected "Cannot use StartsWith operator on non-string values")

/-- `not_starts_with`, on a prefix: only bounds that both begin with it rule the column out. -/
def notStartsWithText (s : List Char) : Except VisitError Bool :=
  match textBound "Cannot use NotStartsWith operator on non-string lower_bound value" m.lowerBound with
  | .error e => .error e
  | .ok none => .ok true
  | .ok (some lower) =>
      if lower < s then .ok true
      else if lower.take s.length = s then
        match textBound "Cannot use NotStartsWith operator on non-string upper_bound value" m.upperBound with
        | .error e => .error e
        | .ok none => .ok true
        | .ok (some upper) =>
            if upper.length < s.length then .ok true else .ok !(upper.take s.length == s)
      else .ok true

/-- `not_starts_with`: a column that may have a NULL is not ruled out. -/
def notStartsWith (l : BoundLiteral) : Except VisitError Bool :=
  if m.mayContainNull then .ok true
  else match l with
    | .datum (.string s) => m.notStartsWithText s.toList
    | _ => .error (.unexpected "Cannot use StartsWith operator on non-string values")

/-- `r#in`. -/
def isIn (ls : List BoundLiteral) : Except VisitError Bool :=
  if m.containsNullsOnly || m.containsNansOnly then .ok false
  else if inPredicateLimit < ls.length then .ok true
  else match m.lowerBound with
    | .error e => .error e
    | .ok lower =>
        if lower.any Datum.isNan then .ok true
        else if lower.any fun b => !ls.any (BoundLiteral.compares (· != .lt) b) then .ok false
        else match m.upperBound with
          | .error e => .error e
          | .ok upper =>
              if upper.any Datum.isNan then .ok true
              else .ok !(upper.any fun b => !ls.any (BoundLiteral.compares (· != .gt) b))

end ColumnMetrics

/-- The visitor that the evaluators of files and of row groups share; they differ in where the metrics come
from and in their test for NaN. -/
def boundsVisitor (column : FieldRef → ColumnMetrics) (isNan : FieldRef → Bool) :
    BoundPredicateVisitor Bool where
  alwaysTrue := .ok true
  alwaysFalse := .ok false
  and a b := .ok (a && b)
  or a b := .ok (a || b)
  not a := .ok !a
  isNull r := .ok ((column r).nullCount != some 0)
  notNull r := .ok !(column r).containsNullsOnly
  isNan r := .ok (isNan r)
  notNan r := .ok !(column r).containsNansOnly
  lessThan r l := (column r).visitInequality l (· == .lt) true
  lessThanOrEq r l := (column r).visitInequality l (· != .gt) true
  greaterThan r l := (column r).visitInequality l (· == .gt) false
  greaterThanOrEq r l := (column r).visitInequality l (· != .lt) false
  eq r l := (column r).eq l
  notEq _ _ := .ok true
  startsWith r l := (column r).startsWith l
  notStartsWith r l := (column r).notStartsWith l
  isIn r ls := (column r).isIn ls
  notIn _ _ := .ok true

/-! ### What the metrics say about the cells -/

/-- The metrics are those of the cells, as far as they are known.  The bounds leave NaN out. -/
structure ColumnMetrics.Describes (m : ColumnMetrics) (cells : List (Option NativeValue)) : Prop where
  valueCount : ∀ n, m.valueCount = some n → n = cells.length
  nullCount : ∀ n, m.nullCount = some n → n = cells.countP Option.isNone
  nanCount : ∀ n, m.nanCount = some n → n = cells.countP cellIsNan
  lower : ∀ b, m.lowerBound = .ok (some b) → ∀ v : NativeValue, some v ∈ cells → v.1.isNan = false →
    b.value.AtMost v.1
  upper : ∀ b, m.upperBound = .ok (some b) → ∀ v : NativeValue, some v ∈ cells → v.1.isNan = false →
    v.1.AtMost b.value

/-- Nothing is known about the values. -/
structure ColumnMetrics.Unknown (m : ColumnMetrics) : Prop where
  nullCount : m.nullCount = none
  nanCount : m.nanCount = none
  lower : m.lowerBound = .ok none
  upper : m.upperBound = .ok none

/-- The literal compares with the bounds: they are of one type. -/
def ColumnMetrics.Comparable (m : ColumnMetrics) (l : BoundLiteral) : Prop :=
  ∀ d, l = .datum d → ∀ b, m.lowerBound = .ok (some b) ∨ m.upperBound = .ok (some b) →
    (b.partialCmp d).isSome

namespace ColumnMetrics

variable {m : ColumnMetrics} {cells : List (Option NativeValue)} {v : NativeValue} {d : Datum} {t : Bool}

theorem count_eq_length {p : Option NativeValue → Bool} {counted total : Option ℕ}
    (hcount : ∀ n, counted = some n → n = cells.countP p) (htotal : ∀ n, total = some n → n = cells.length)
    (h : (counted.isSome && counted == total) = true) {c : Option NativeValue} (hc : c ∈ cells) :
    p c = true := by
  rw [Bool.and_eq_true, beq_iff_eq] at h
  obtain ⟨n, hn⟩ := Option.isSome_iff_exists.mp h.1
  have hall : cells.countP p = cells.length := by
    rw [← hcount n hn, ← htotal n (h.2.symm.trans hn)]
  exact List.countP_eq_length.mp hall c hc

theorem Describes.nullsOnly (h : m.Describes cells) (hv : some v ∈ cells) : m.containsNullsOnly = false := by
  by_contra hall
  have := count_eq_length h.nullCount h.valueCount (Bool.eq_true_of_not_eq_false hall) hv
  cases this

theorem Describes.nansOnly (h : m.Describes cells) {c : Option NativeValue} (hc : c ∈ cells)
    (hnan : cellIsNan c = false) : m.containsNansOnly = false := by
  by_contra hall
  have := count_eq_length h.nanCount h.valueCount (Bool.eq_true_of_not_eq_false hall) hc
  rw [hnan] at this
  cases this

theorem Describes.mayContainNull (h : m.Describes cells) (hc : none ∈ cells) : m.mayContainNull = true := by
  unfold ColumnMetrics.mayContainNull
  split
  · rename_i n hn
    rw [h.nullCount n hn]
    exact decide_eq_true (List.countP_pos_iff.mpr ⟨none, hc, rfl⟩)
  · rfl

/-- A bound below the value, against a literal. -/
theorem compares_of_lower {b : Datum} (hcmp : (b.partialCmp d).isSome) (hb : b.value.AtMost v.1)
    {cmp : Ordering → Bool} (hle : cmp = (· == .lt) ∨ cmp = (· != .gt)) {o : Ordering}
    (ho : v.1.ordering d.value = some o) (hop : cmp o = true) : b.compares cmp (.datum d) = true := by
  show (b.partialCmp d).any cmp = true
  rw [Datum.partialCmp_of_isSome hcmp]
  rcases hle with rfl | rfl
  · obtain rfl : o = .lt := by simpa using hop
    rw [hb.lt ho]
    rfl
  · obtain ⟨o', ho', hne⟩ := hb.trans ⟨o, ho, by simpa using hop⟩
    rw [ho']
    simpa using hne

/-- A bound above the value, against a literal. -/
theorem compares_of_upper {b : Datum} (hcmp : (b.partialCmp d).isSome) (hb : v.1.AtMost b.value)
    {cmp : Ordering → Bool} (hge : cmp = (· == .gt) ∨ cmp = (· != .lt)) {o : Ordering}
    (ho : v.1.ordering d.value = some o) (hop : cmp o = true) : b.compares cmp (.datum d) = true := by
  show (b.partialCmp d).any cmp = true
  rw [Datum.partialCmp_of_isSome hcmp]
  rcases hge with rfl | rfl
  · obtain rfl : o = .gt := by simpa using hop
    rw [hb.gt ho]
    rfl
  · have hdv : d.value.AtMost v.1 := by
      refine ⟨o.swap, ?_, ?_⟩
      · rw [Value.ordering_swap, ho]
        rfl
      · cases o with
        | lt => simp at hop
        | eq => simp
        | gt => simp
    obtain ⟨o', ho', hne⟩ := hdv.trans hb
    rw [Value.ordering_swap, ho']
    cases o' with
    | lt => rfl
    | eq => rfl
    | gt => exact absurd rfl hne

variable (hm : m.Describes cells) (hv : some v ∈ cells) (hnan : v.1.isNan = false)

include hm hv hnan

theorem visitInequality_of_lower (hcmp : m.Comparable (.datum d)) {cmp : Ordering → Bool}
    (hle : cmp = (· == .lt) ∨ cmp = (· != .gt)) {o : Ordering} (ho : v.1.ordering d.value = some o)
    (hop : cmp o = true) (h : m.visitInequality (.datum d) cmp true = .ok t) : t = true := by
  unfold visitInequality at h
  rw [hm.nullsOnly hv, hm.nansOnly hv hnan, Bool.or_false, if_neg Bool.false_ne_true, if_pos rfl] at h
  split at h
  · cases h
    rfl
  · split at h
    · cases h
    · cases h
      rfl
    · rename_i b hb
      cases h
      exact compares_of_lower (hcmp d rfl b (.inl hb)) (hm.lower b hb v hv hnan) hle ho hop

theorem visitInequality_of_upper (hcmp : m.Comparable (.datum d)) {cmp : Ordering → Bool}
    (hge : cmp = (· == .gt) ∨ cmp = (· != .lt)) {o : Ordering} (ho : v.1.ordering d.value = some o)
    (hop : cmp o = true) (h : m.visitInequality (.datum d) cmp false = .ok t) : t = true := by
  unfold visitInequality at h
  rw [hm.nullsOnly hv, hm.nansOnly hv hnan, Bool.or_false, if_neg Bool.false_ne_true,
    if_neg Bool.false_ne_true] at h
  split at h
  · cases h
    rfl
  · split at h
    · cases h
    · cases h
      rfl
    · rename_i b hb
      cases h
      exact compares_of_upper (hcmp d rfl b (.inr hb)) (hm.upper b hb v hv hnan) hge ho hop

/-- The value lies between the bounds, so they are not apart from it. -/
theorem between {b : Datum} (hcmp : m.Comparable (.datum d)) (hd : v.1 = d.value) :
    (m.lowerBound = .ok (some b) → b.compares (· == .gt) (.datum d) = false ∧
      BoundLiteral.compares (· != .lt) b (.datum d) = true) ∧
    (m.upperBound = .ok (some b) → b.compares (· == .lt) (.datum d) = false ∧
      BoundLiteral.compares (· != .gt) b (.datum d) = true) := by
  constructor
  · intro hb
    obtain ⟨o, ho, hne⟩ := hm.lower b hb v hv hnan
    rw [hd] at ho
    have hbd : b.partialCmp d = some o := (Datum.partialCmp_of_isSome (hcmp d rfl b (.inl hb))).trans ho
    refine ⟨?_, ?_⟩
    · show (b.partialCmp d).any _ = false
      rw [hbd]
      simpa using hne
    · show (d.partialCmp b).any _ = true
      rw [Datum.partialCmp_swap b d, hbd]
      cases o with
      | lt => rfl
      | eq => rfl
      | gt => exact absurd rfl hne
  · intro hb
    obtain ⟨o, ho, hne⟩ := hm.upper b hb v hv hnan
    rw [hd] at ho
    have hdb : d.partialCmp b = some o := by
      rw [Datum.partialCmp_of_isSome, ho]
      rw [Datum.partialCmp_swap b d, Option.isSome_map]
      exact hcmp d rfl b (.inr hb)
    refine ⟨?_, ?_⟩
    · show (b.partialCmp d).any _ = false
      rw [Datum.partialCmp_swap d b, hdb]
      cases o with
      | lt => rfl
      | eq => rfl
      | gt => exact absurd rfl hne
    · show (d.partialCmp b).any _ = true
      rw [hdb]
      simpa using hne

theorem eq_of_value (hcmp : m.Comparable (.datum d)) (hd : v.1 = d.value)
    (h : m.eq (.datum d) = .ok t) : t = true := by
  unfold eq at h
  rw [hm.nullsOnly hv, hm.nansOnly hv hnan, Bool.or_false, if_neg Bool.false_ne_true] at h
  split at h
  · cases h
  · rename_i lower hlower
    split at h
    · cases h
      rfl
    · split at h
      · rename_i hgt
        obtain ⟨b, rfl, hb⟩ := (Option.any_eq_true _ _).mp hgt
        rw [((between hm hv hnan hcmp hd).1 hlower).1] at hb
        cases hb
      · split at h
        · cases h
        · rename_i upper hupper
          split at h
          · cases h
            rfl
          · cases h
            rw [Bool.not_eq_true']
            cases upper with
            | none => rfl
            | some b => exact ((between hm hv hnan hcmp hd).2 hupper).1

theorem isIn_of_value {ls : List BoundLiteral} (hcmp : m.Comparable (.datum d)) (hd : v.1 = d.value)
    (hmem : .datum d ∈ ls) (h : m.isIn ls = .ok t) : t = true := by
  unfold isIn at h
  rw [hm.nullsOnly hv, hm.nansOnly hv hnan, Bool.or_false, if_neg Bool.false_ne_true] at h
  have hany : ∀ {cmp : Ordering → Bool} {b : Datum}, BoundLiteral.compares cmp b (.datum d) = true →
      ls.any (BoundLiteral.compares cmp b) = true :=
    fun hb => List.any_eq_true.mpr ⟨.datum d, hmem, hb⟩
  split at h
  · cases h
    rfl
  · split at h
    · cases h
    · rename_i lower hlower
      split at h
      · cases h
        rfl
      · split at h
        · rename_i hout
          obtain ⟨b, rfl, hb⟩ := (Option.any_eq_true _ _).mp hout
          rw [hany ((between hm hv hnan hcmp hd).1 hlower).2] at hb
          cases hb
        · split at h
          · cases h
          · rename_i upper hupper
            split at h
            · cases h
              rfl
            · cases h
              rw [Bool.not_eq_true']
              cases upper with
              | none => rfl
              | some b =>
                  show (!ls.any (BoundLiteral.compares (· != .gt) b)) = false
                  rw [hany ((between hm hv hnan hcmp hd).2 hupper).2]
                  rfl

omit hm hv hnan

/-- A text bound as a datum. -/
theorem textBound_eq_ok {message : String} {bound : Except VisitError (Option Datum)} {w : Option (List Char)}
    (h : textBound message bound = .ok w) :
    w = none ∧ bound = .ok none ∨ ∃ s : String, w = some s.toList ∧ bound = .ok (some (.string s)) := by
  unfold textBound at h
  split at h
  · cases h
  · cases h
    exact .inl ⟨rfl, rfl⟩
  · rename_i s
    cases h
    exact .inr ⟨s, rfl, rfl⟩
  · cases h

theorem atMost_str {a b : String} : Value.AtMost (.str a) (.str b) ↔ a.toList ≤ b.toList := by
  rw [← String.le_iff_toList_le, ← lcmp_ne_gt_iff]
  constructor
  · rintro ⟨o, ho, hne⟩
    obtain rfl : lcmp a b = o := Option.some.inj ho
    exact hne
  · exact fun h => ⟨_, rfl, h⟩

theorem startsWithText_of_prefix (hm : m.Describes cells) {s p : String} (hs : v.1 = .str s)
    (hv : some v ∈ cells) (hp : p.toList <+: s.toList) (h : m.startsWithText p.toList = .ok t) : t = true := by
  have hnan : v.1.isNan = false := by rw [hs]; rfl
  unfold startsWithText at h
  split at h
  · cases h
  · rename_i lower hlower
    split at h
    · rename_i hlt
      obtain ⟨b, rfl, hb⟩ := (Option.any_eq_true _ _).mp hlt
      rcases textBound_eq_ok hlower with ⟨hnone, -⟩ | ⟨b', hb', hbound⟩
      · cases hnone
      · cases hb'
        have hle := hm.lower _ hbound v hv hnan
        rw [hs] at hle
        have hcut := take_le_word (atMost_str.mp hle) hp (min_le_right b'.toList.length p.toList.length)
        exact absurd (of_decide_eq_true hb) (not_lt.mpr hcut)
    · split at h
      · cases h
      · rename_i upper hupper
        cases h
        rw [Bool.not_eq_true']
        rcases textBound_eq_ok hupper with ⟨rfl, -⟩ | ⟨b', rfl, hbound⟩
        · rfl
        · have hle := hm.upper _ hbound v hv hnan
          rw [hs] at hle
          exact decide_eq_false (not_lt.mpr (word_le_take (atMost_str.mp hle) hp))

theorem notStartsWithText_of_not_prefix (hm : m.Describes cells) {s p : String} (hs : v.1 = .str s)
    (hv : some v ∈ cells) (hp : ¬ p.toList <+: s.toList) (h : m.notStartsWithText p.toList = .ok t) :
    t = true := by
  have hnan : v.1.isNan = false := by rw [hs]; rfl
  unfold notStartsWithText at h
  split at h
  · cases h
  · cases h
    rfl
  · rename_i lower hlower
    split at h
    · cases h
      rfl
    · split at h
      · rename_i htake
        split at h
        · cases h
        · cases h
          rfl
        · rename_i upper hupper
          split at h
          · cases h
            rfl
          · cases h
            rw [Bool.not_eq_true', beq_eq_false_iff_ne]
            intro htake'
            rcases textBound_eq_ok hlower with ⟨hnone, -⟩ | ⟨b, hb, hbound⟩
            · cases hnone
            rcases textBound_eq_ok hupper with ⟨hnone, -⟩ | ⟨b', hb', hbound'⟩
            · cases hnone
            cases hb
            cases hb'
            have hle := hm.lower _ hbound v hv hnan
            have hge := hm.upper _ hbound' v hv hnan
            rw [hs] at hle hge
            exact hp (prefix_of_between (atMost_str.mp hle) (atMost_str.mp hge) htake htake')
      · cases h
        rfl

end ColumnMetrics

/-! ### No leaf loses a row -/

section

variable (present : String → Bool) (row : Row) (column : FieldRef → ColumnMetrics)

/-- The metrics of a column fit a row: nothing is known of a column that the file does not have, and
otherwise the cell of the row is among those described, and is not NaN. -/
structure Covers (r : FieldRef) : Prop where
  absent : present r.field.name = false → (column r).Unknown
  cells : present r.field.name = true → ∃ cells, (column r).Describes cells ∧ row r.field.name ∈ cells
  notNan : present r.field.name = true → cellIsNan (row r.field.name) = false

/-- The leaves that are covered.  A test for NaN is not: the row filter answers it with TRUE. -/
def LeafFits : BoundPredicate → Prop
  | .unary op r => Covers present row column r ∧ op ≠ .isNan
  | .binary _ r l => Covers present row column r ∧ (column r).Comparable l
  | .set _ r ls => Covers present row column r ∧ ∀ l ∈ ls, (column r).Comparable l
  | _ => True

variable {present row column} {isNan : FieldRef → Bool}

/-- Of a column nothing is known of, no test rules anything out. -/
theorem unknown_tests {m : ColumnMetrics} (hm : m.Unknown) (t : Bool) :
    (∀ l cmp lower, m.visitInequality l cmp lower = .ok t → t = true) ∧ (∀ l, m.eq l = .ok t → t = true) ∧
      (∀ l, m.startsWith l = .ok t → t = true) ∧ (∀ l, m.notStartsWith l = .ok t → t = true) ∧
      ∀ ls, m.isIn ls = .ok t → t = true := by
  have hnulls : m.containsNullsOnly = false := by rw [ColumnMetrics.containsNullsOnly, hm.nullCount]; rfl
  have hnans : m.containsNansOnly = false := by rw [ColumnMetrics.containsNansOnly, hm.nanCount]; rfl
  have hboth : ¬ (m.containsNullsOnly || m.containsNansOnly) = true := by rw [hnulls, hnans]; decide
  refine ⟨?_, ?_, ?_, ?_, ?_⟩
  · intro l cmp lower h
    rw [ColumnMetrics.visitInequality, if_neg hboth, hm.lower, hm.upper, ite_self] at h
    split at h
    · cases h
      rfl
    · cases h
      rfl
  · intro l h
    rw [ColumnMetrics.eq, if_neg hboth, hm.lower, hm.upper] at h
    cases h
    rfl
  · intro l h
    unfold ColumnMetrics.startsWith at h
    rw [hnulls, if_neg Bool.false_ne_true] at h
    split at h
    · rw [ColumnMetrics.startsWithText, hm.lower, hm.upper] at h
      cases h
      rfl
    · cases h
  · intro l h
    unfold ColumnMetrics.notStartsWith at h
    rw [ColumnMetrics.mayContainNull, hm.nullCount] at h
    cases h
    rfl
  · intro ls h
    rw [ColumnMetrics.isIn, if_neg hboth, hm.lower, hm.upper] at h
    split at h
    · cases h
      rfl
    · cases h
      rfl

theorem value_str {d : Datum} {s : String} (h : .str s = d.value) : d = .string s := by
  cases d with
  | string v =>
      cases h
      rfl
  | _ => cases h

/-- A comparison that a value passes is not ruled out. -/
theorem binary_of_value {m : ColumnMetrics} {cells : List (Option NativeValue)} (hm : m.Describes cells)
    {v : NativeValue} (hv : some v ∈ cells) (hnan : v.1.isNan = false) {d : Datum}
    (hcmp : m.Comparable (.datum d)) {op : PredicateOperator}
    (heval : Predicate.evalBinary op v.1 d.value = some true) {r : FieldRef} (hr : column r = m) {t : Bool}
    (h : visitBinary (boundsVisitor column isNan) op r (.datum d) = .ok t) : t = true := by
  subst hr
  have hordered : ∀ op' : PredicateOperator, (v.1.ordering d.value).bind op'.test = some true →
      ∃ o, v.1.ordering d.value = some o ∧ op'.test o = some true :=
    fun op' h' => Option.bind_eq_some_iff.mp h'
  cases op with
  | lessThan =>
      obtain ⟨o, ho, htest⟩ := hordered .lessThan heval
      exact ColumnMetrics.visitInequality_of_lower hm hv hnan hcmp (.inl rfl) ho (Option.some.inj htest) h
  | lessThanOrEq =>
      obtain ⟨o, ho, htest⟩ := hordered .lessThanOrEq heval
      exact ColumnMetrics.visitInequality_of_lower hm hv hnan hcmp (.inr rfl) ho (Option.some.inj htest) h
  | greaterThan =>
      obtain ⟨o, ho, htest⟩ := hordered .greaterThan heval
      exact ColumnMetrics.visitInequality_of_upper hm hv hnan hcmp (.inl rfl) ho (Option.some.inj htest) h
  | greaterThanOrEq =>
      obtain ⟨o, ho, htest⟩ := hordered .greaterThanOrEq heval
      exact ColumnMetrics.visitInequality_of_upper hm hv hnan hcmp (.inr rfl) ho (Option.some.inj htest) h
  | eq =>
      obtain ⟨o, ho, htest⟩ := hordered .eq heval
      obtain rfl : o = .eq := eq_of_beq (Option.some.inj htest)
      exact ColumnMetrics.eq_of_value hm hv hnan hcmp ((Value.ordering_eq_iff _ _).mp ho) h
  | notEq =>
      cases h
      rfl
  | startsWith =>
      have hprefix : Predicate.prefixTest v.1 d.value = some true := heval
      unfold Predicate.prefixTest at hprefix
      split at hprefix
      · rename_i s p hs hp
        have hd : d = .string p := value_str hp.symm
        subst hd
        have hstarts : (column r).startsWith (.datum (.string p)) = .ok t := h
        unfold ColumnMetrics.startsWith at hstarts
        rw [hm.nullsOnly hv, if_neg Bool.false_ne_true] at hstarts
        exact ColumnMetrics.startsWithText_of_prefix hm hs hv
          (List.isPrefixOf_iff_prefix.mp (Option.some.inj hprefix)) hstarts
      · cases hprefix
  | notStartsWith =>
      have hprefix : knot (Predicate.prefixTest v.1 d.value) = some true := heval
      rw [knot_eq_true] at hprefix
      unfold Predicate.prefixTest at hprefix
      split at hprefix
      · rename_i s p hs hp
        have hd : d = .string p := value_str hp.symm
        subst hd
        have hstarts : (column r).notStartsWith (.datum (.string p)) = .ok t := h
        unfold ColumnMetrics.notStartsWith at hstarts
        split at hstarts
        · cases hstarts
          rfl
        · refine ColumnMetrics.notStartsWithText_of_not_prefix hm hs hv ?_ hstarts
          intro hpre
          rw [List.isPrefixOf_iff_prefix.mpr hpre] at hprefix
          cases hprefix
      · cases hprefix
  | isNull => cases h
  | notNull => cases h
  | isNan => cases h
  | notNan => cases h
  | isIn => cases h
  | notIn => cases h

/-- **A leaf that the row filter finds TRUE is not ruled out.** -/
theorem boundsVisitor_leaf {b : BoundPredicate} (hb : b.IsLeaf)
    (hfits : LeafFits present row column b) {t : Bool}
    (h : visit (boundsVisitor column isNan) b = .ok t) (hpass : b.Passes present row) : t = true := by
  cases b with
  | alwaysTrue => cases hb
  | alwaysFalse => cases hb
  | andExpr l r => cases hb
  | orExpr l r => cases hb
  | notExpr p => cases hb
  | unary op r =>
      obtain ⟨hcovers, hop⟩ := hfits
      have hvisit : visitUnary (boundsVisitor column isNan) op r = .ok t := h
      cases hpresent : present r.field.name with
      | false =>
          have hunknown := hcovers.absent hpresent
          cases op with
          | isNull =>
              cases hvisit
              rw [hunknown.nullCount]
              rfl
          | notNull =>
              cases hvisit
              rw [ColumnMetrics.containsNullsOnly, hunknown.nullCount]
              rfl
          | isNan => exact absurd rfl hop
          | notNan =>
              cases hvisit
              rw [ColumnMetrics.containsNansOnly, hunknown.nanCount]
              rfl
          | _ => cases hvisit
      | true =>
          have hcell := passes_unary hpresent hpass
          obtain ⟨cells, hm, hmem⟩ := hcovers.cells hpresent
          cases op with
          | isNull =>
              cases hvisit
              have hnull : row r.field.name = none := Option.isNone_iff_eq_none.mp (Option.some.inj hcell)
              rw [hnull] at hmem
              rw [bne_iff_ne]
              intro hzero
              have hcount := hm.nullCount 0 hzero
              have hpos : 0 < cells.countP Option.isNone := List.countP_pos_iff.mpr ⟨none, hmem, rfl⟩
              omega
          | notNull =>
              cases hvisit
              obtain ⟨v, hv⟩ := Option.isSome_iff_exists.mp (Option.some.inj hcell)
              rw [hv] at hmem
              rw [hm.nullsOnly hmem]
              rfl
          | isNan => exact absurd rfl hop
          | notNan =>
              cases hvisit
              rw [hm.nansOnly hmem (hcovers.notNan hpresent)]
              rfl
          | _ => cases hvisit
  | binary op r l =>
      obtain ⟨hcovers, hcmp⟩ := hfits
      have hvisit : visitBinary (boundsVisitor column isNan) op r l = .ok t := h
      cases hpresent : present r.field.name with
      | false =>
          obtain ⟨hineq, heq, hstarts, hnot, -⟩ := unknown_tests (hcovers.absent hpresent) t
          cases op with
          | lessThan => exact hineq l (· == .lt) true hvisit
          | lessThanOrEq => exact hineq l (· != .gt) true hvisit
          | greaterThan => exact hineq l (· == .gt) false hvisit
          | greaterThanOrEq => exact hineq l (· != .lt) false hvisit
          | eq => exact heq l hvisit
          | notEq =>
              cases hvisit
              rfl
          | startsWith => exact hstarts l hvisit
          | notStartsWith => exact hnot l hvisit
          | _ => cases hvisit
      | true =>
          obtain ⟨d, v, rfl, hv, heval⟩ := passes_binary hpresent hpass
          obtain ⟨cells, hm, hmem⟩ := hcovers.cells hpresent
          have hnan := hcovers.notNan hpresent
          rw [hv] at hmem hnan
          exact binary_of_value hm hmem hnan hcmp heval rfl hvisit
  | set op r ls =>
      obtain ⟨hcovers, hcmp⟩ := hfits
      have hvisit : visitSet (boundsVisitor column isNan) op r ls = .ok t := h
      cases op with
      | isIn =>
          cases hpresent : present r.field.name with
          | false =>
              exact (unknown_tests (hcovers.absent hpresent) t).2.2.2.2 ls hvisit
          | true =>
              obtain ⟨d, v, hd, hv, hvd⟩ := passes_isIn hpresent hpass
              obtain ⟨cells, hm, hmem⟩ := hcovers.cells hpresent
              have hnan := hcovers.notNan hpresent
              rw [hv] at hmem hnan
              exact ColumnMetrics.isIn_of_value hm hmem hnan (hcmp _ hd) hvd hd hvisit
      | notIn =>
          cases hvisit
          rfl
      | _ => cases hvisit

theorem boundsVisitor_joins (column : FieldRef → ColumnMetrics) (isNan : FieldRef → Bool) :
    Joins (boundsVisitor column isNan) (fun _ => True) (· = true) :=
  joins_of_bool rfl (fun _ _ => rfl) fun _ _ => rfl

/-- **The tests lose no row.** -/
theorem boundsVisitor_keeps {p : BoundPredicate} (hp : p.NotFree)
    (hfits : ∀ b ∈ p.leaves, LeafFits present row column b) {t : Bool}
    (h : visit (boundsVisitor column isNan) p = .ok t) (hpass : p.Passes present row) : t = true := by
  have hleaf : ∀ b ∈ p.leaves, ∀ u, visit (boundsVisitor column isNan) b = .ok u →
      True ∧ (b.Passes present row → u = true) :=
    fun b hb u hu => ⟨trivial, boundsVisitor_leaf (BoundPredicate.isLeaf_of_mem hb) (hfits b hb) hu⟩
  have hkeeps := visit_keeps (boundsVisitor_joins column isNan) (passes_satisfies present row) hp hleaf h hpass
  exact hkeeps

end

end IcebergDb.Expr
