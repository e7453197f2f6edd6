import IcebergDb.Scan.PartitionSummaries

/-!
# Pruning by partition

A filter on the partition tuple rules out data files, and manifests by what their summaries say about all of
their tuples.

* `expressionEval` — `ExpressionEvaluator`, on the tuple of a file;
* `manifestEval` — `ManifestEvaluator`, on the summaries of a manifest;
* `FieldSummary.Covers.lower_test` and the like — what the tests say where the summary is right;
* `manifestFilterVisitor_leaf` — a leaf that holds of a tuple is not ruled out;
* `manifestEval_keeps` — **a manifest is not ruled out if one of its files is not**.
-/

namespace IcebergDb.Scan

open IcebergDb.Expr

/-! ### Data files -/

section

variable (partitionSchema : Schema)

/-- `StructAccessor::position`. -/
def position (r : FieldRef) : ℕ := partitionSchema.fields.findIdx (·.name == r.field.name)

/-- `StructAccessor::get`: an index out of range panics. -/
def accessorGet (tuple : PartitionTuple) (r : FieldRef) : Except VisitError (Option Datum) :=
  match tuple[position partitionSchema r]? with
  | some value => .ok value
  | none => .error .panicked

/-- A test of the value, which has an answer of its own for NULL. -/
def onValue (tuple : PartitionTuple) (r : FieldRef) (null : Bool) (test : Datum → Bool) : Except VisitError Bool :=
  (accessorGet partitionSchema tuple r).map fun value => value.elim null test

/-- `starts_with` of `ExpressionEvaluatorVisitor`, on a value. -/
def valueStartsWith (l : BoundLiteral) : Datum → Bool
  | .string s =>
      match l with
      | .datum (.string p) => p.toList.isPrefixOf s.toList
      | _ => false
  | _ => false

/-- `ExpressionEvaluatorVisitor`. -/
def expressionEvaluatorVisitor (tuple : PartitionTuple) : BoundPredicateVisitor Bool where
  alwaysTrue := .ok true
  alwaysFalse := .ok false
  and a b := .ok (a && b)
  or a b := .ok (a || b)
  not _ := .error (.unexpected ("The evaluation of expressions should not be performed against Predicates that " ++
    "contain a Not operator. Ensure that \"Rewrite Not\" gets applied to the originating Predicate before " ++
    "binding it."))
  isNull r := onValue partitionSchema tuple r true fun _ => false
  notNull r := onValue partitionSchema tuple r false fun _ => true
  isNan r := onValue partitionSchema tuple r false Datum.isNan
  notNan r := onValue partitionSchema tuple r true fun d => !d.isNan
  lessThan r l := onValue partitionSchema tuple r false fun d => d.compares (· == .lt) l
  lessThanOrEq r l := onValue partitionSchema tuple r false fun d => d.compares (· != .gt) l
  greaterThan r l := onValue partitionSchema tuple r false fun d => d.compares (· == .gt) l
  greaterThanOrEq r l := onValue partitionSchema tuple r false fun d => d.compares (· != .lt) l
  eq r l := onValue partitionSchema tuple r false fun d => BoundLiteral.datum d == l
  notEq r l := onValue partitionSchema tuple r true fun d => BoundLiteral.datum d != l
  startsWith r l := onValue partitionSchema tuple r false (valueStartsWith l)
  notStartsWith r l := onValue partitionSchema tuple r true fun d => !valueStartsWith l d
  isIn r ls := onValue partitionSchema tuple r false fun d => ls.contains (.datum d)
  notIn r ls := onValue partitionSchema tuple r true fun d => !ls.contains (.datum d)

/-- `ExpressionEvaluator::eval`. -/
def expressionEval (partitionFilter : BoundPredicate) (tuple : PartitionTuple) : Except VisitError Bool :=
  visit (expressionEvaluatorVisitor partitionSchema tuple) partitionFilter

end

/-! ### Manifests -/

section

variable (floats : FloatBytes)

/-- `bytes_to_datum`, with its two `unwrap`s. -/
def bytesToDatum (bs : Bytes) : FieldType → Except VisitError Datum
  | .primitive t =>
      match tryFromBytes floats bs t with
      | .ok d => .ok d
      | .error _ => .error .panicked
  | .nested => .error .panicked

namespace FieldSummary

variable (s : FieldSummary) (t : FieldType)

/-- `are_all_null`. -/
def areAllNull : Bool :=
  if (s.containsNull && s.lowerBound.isNone) && t.isFloatingType then
    match s.containsNan with
    | some v => !v
    | none => false
  else s.containsNull && s.lowerBound.isNone

/-- `is_nan`. -/
def mayHaveNan : Bool := s.containsNan != some false && !s.areAllNull t

/-- `not_nan`: not if every value is NaN. -/
def mayHaveOther : Bool := !(s.containsNan == some true && !s.containsNull && s.lowerBound.isNone)

/-- The four comparisons: a bound, and where it must not lie, seen from the literal. -/
def boundTest (bound : Option Bytes) (l : BoundLiteral) (excluded : Ordering → Bool) : Except VisitError Bool :=
  match bound with
  | none => .ok false
  | some bs => (bytesToDatum floats bs t).map fun b => !BoundLiteral.compares excluded b l

/-- `eq`. -/
def eq (l : BoundLiteral) : Except VisitError Bool :=
  match s.lowerBound, s.upperBound with
  | some lower, some upper =>
      match bytesToDatum floats lower t with
      | .error e => .error e
      | .ok lower =>
          if lower.compares (· == .gt) l then .ok false
          else (bytesToDatum floats upper t).map fun upper => !upper.compares (· == .lt) l
  | _, _ => .ok false

/-- `datum_as_str`. -/
def datumAsStr (message : String) : BoundLiteral → Except VisitError String
  | .datum (.string p) => .ok p
  | _ => .error (.unexpected message)

/-- `starts_with`, on the bytes of the prefix: the bounds are cut to its length. -/
def startsWithBytes (lower upper p : Bytes) : Bool :=
  !(decide (p < lower.take (min lower.length p.length)) || decide (upper.take (min upper.length p.length) < p))

/-- `starts_with`. -/
def startsWith (l : BoundLiteral) : Except VisitError Bool :=
  match s.lowerBound, s.upperBound with
  | some lower, some upper =>
      (datumAsStr "Cannot perform starts_with on non-string value" l).map fun p =>
        startsWithBytes lower upper (textBytes p)
  | _, _ => .ok false

/-- `not_starts_with`, on the bytes of the prefix: only bounds that both begin with it rule the manifest
out. -/
def notStartsWithBytes (lower upper p : Bytes) : Bool :=
  if lower.length < p.length then true
  else if lower.take p.length = p then
    if upper.length < p.length then true else upper.take p.length != p
  else true

/-- `not_starts_with`. -/
def notStartsWith (l : BoundLiteral) : Except VisitError Bool :=
  if s.containsNull then .ok true
  else match s.lowerBound, s.upperBound with
    | some lower, some upper =>
        (datumAsStr "Cannot perform not_starts_with on non-string value" l).map fun p =>
          notStartsWithBytes lower upper (textBytes p)
    | _, _ => .ok true

/-- `r#in`. -/
def isIn (ls : List BoundLiteral) : Except VisitError Bool :=
  match s.lowerBound with
  | none => .ok false
  | some lower =>
      if ColumnMetrics.inPredicateLimit < ls.length then .ok true
      else match bytesToDatum floats lower t with
        | .error e => .error e
        | .ok lower =>
            if ls.all (lower.compares (· == .gt)) then .ok false
            else match s.upperBound with
              | none => .ok true
              | some upper => (bytesToDatum floats upper t).map fun upper => !ls.all (upper.compares (· == .lt))

end FieldSummary

variable (partitionSchema : Schema)

/-- `field_summary_for_reference`: an index out of range panics. -/
def onSummary (partitions : List FieldSummary) (r : FieldRef) (test : FieldSummary → Except VisitError Bool) :
    Except VisitError Bool :=
  match partitions[position partitionSchema r]? with
  | some s => test s
  | none => .error .panicked

/-- `ManifestFilterVisitor`. -/
def manifestFilterVisitor (partitions : List FieldSummary) : BoundPredicateVisitor Bool where
  alwaysTrue := .ok true
  alwaysFalse := .ok false
  and a b := .ok (a && b)
  or a b := .ok (a || b)
  not _ := .error (.unexpected "not operator is not supported in partition filter")
  isNull r := onSummary partitionSchema partitions r fun s => .ok s.containsNull
  notNull r := onSummary partitionSchema partitions r fun s => .ok !(s.areAllNull r.field.fieldType)
  isNan r := onSummary partitionSchema partitions r fun s => .ok (s.mayHaveNan r.field.fieldType)
  notNan r := onSummary partitionSchema partitions r fun s => .ok s.mayHaveOther
  lessThan r l := onSummary partitionSchema partitions r fun s =>
    FieldSummary.boundTest floats r.field.fieldType s.lowerBound l (· != .gt)
  lessThanOrEq r l := onSummary partitionSchema partitions r fun s =>
    FieldSummary.boundTest floats r.field.fieldType s.lowerBound l (· == .lt)
  greaterThan r l := onSummary partitionSchema partitions r fun s =>
    FieldSummary.boundTest floats r.field.fieldType s.upperBound l (· != .lt)
  greaterThanOrEq r l := onSummary partitionSchema partitions r fun s =>
    FieldSummary.boundTest floats r.field.fieldType s.upperBound l (· == .gt)
  eq r l := onSummary partitionSchema partitions r fun s => s.eq floats r.field.fieldType l
  notEq _ _ := .ok true
  startsWith r l := onSummary partitionSchema partitions r fun s => s.startsWith l
  notStartsWith r l := onSummary partitionSchema partitions r fun s => s.notStartsWith l
  isIn r ls := onSummary partitionSchema partitions r fun s => s.isIn floats r.field.fieldType ls
  notIn _ _ := .ok true

/-- `ManifestEvaluator::eval`, on the summaries of a manifest. -/
def manifestEval (partitionFilter : BoundPredicate) (partitions : Option (List FieldSummary)) :
    Except VisitError Bool :=
  match partitions with
  | some (s :: ss) => visit (manifestFilterVisitor floats partitionSchema (s :: ss)) partitionFilter
  | _ => .ok true

end

/-! ### The tests on summaries -/

section

variable {floats : FloatBytes} {s : FieldSummary} {t : PrimitiveType} {d b e : Datum} {l : BoundLiteral}
  {bound : Option Bytes} {cmp excluded : Ordering → Bool} {u : Bool}

theorem IsBound.eq_bytes (hb : IsBound floats t bound b) :
    ∃ bs, bound = some bs ∧ bytesToDatum floats bs (.primitive t) = .ok b := by
  obtain ⟨bs, hbs, -, hread⟩ := hb.bytes
  exact ⟨bs, hbs, by simp only [bytesToDatum, hread]⟩

/-- A bound of texts is the bytes of a text. -/
theorem IsBound.eq_text (hb : IsBound floats .string bound b) :
    ∃ w : String, b = .string w ∧ bound = some (textBytes w) := by
  obtain ⟨bs, hbs, hwritten, -⟩ := hb.bytes
  have htype := hb.type
  cases b with
  | string w =>
      cases hwritten
      exact ⟨w, rfl, hbs⟩
  | _ => cases htype

theorem compares_eq_true (h : d.compares cmp l = true) :
    ∃ e o, l = .datum e ∧ d.partialCmp e = some o ∧ cmp o = true := by
  cases l with
  | datum e =>
      obtain ⟨o, ho, hcmp⟩ := (Option.any_eq_true _ _).mp (show (d.partialCmp e).any cmp = true from h)
      exact ⟨e, o, rfl, ho, hcmp⟩
  | aboveMax => cases h
  | belowMin => cases h

/-- Seen from the literal, the outcome is swapped. -/
theorem not_excluded (hswap : ∀ o, cmp o = true → excluded o.swap = false)
    (h : b.compares cmp (.datum e) = true) : BoundLiteral.compares excluded b (.datum e) = false := by
  obtain ⟨o, ho, hcmp⟩ := (Option.any_eq_true _ _).mp (show (b.partialCmp e).any cmp = true from h)
  show (e.partialCmp b).any excluded = false
  rw [Datum.partialCmp_swap b e, ho]
  exact hswap o hcmp

theorem boundTest_eq_true (hb : IsBound floats t bound b) (hswap : ∀ o, cmp o = true → excluded o.swap = false)
    (h : b.compares cmp (.datum e) = true)
    (hu : FieldSummary.boundTest floats (.primitive t) bound (.datum e) excluded = .ok u) : u = true := by
  obtain ⟨bs, rfl, hread⟩ := hb.eq_bytes
  simp only [FieldSummary.boundTest, hread] at hu
  cases hu
  show (!BoundLiteral.compares excluded b (.datum e)) = true
  rw [not_excluded hswap h]
  rfl

namespace FieldSummary.Covers

variable (hs : s.Covers floats t (some d)) (hnan : d.isNan = false)

include hs hnan

theorem lower_test (hl : l.OfType (.primitive t)) (hle : cmp = (· == .lt) ∨ cmp = (· != .gt))
    (hswap : ∀ o, cmp o = true → excluded o.swap = false) (h : d.compares cmp l = true)
    (hu : boundTest floats (.primitive t) s.lowerBound l excluded = .ok u) : u = true := by
  obtain ⟨e, o, rfl, ho, hcmp⟩ := compares_eq_true h
  obtain ⟨lower, -, hlower, -, hat, -⟩ := hs.bounds d rfl hnan
  have htype : lower.primitiveType = e.primitiveType := by
    rw [hlower.type]
    exact FieldType.primitive.inj (hl e rfl)
  have hnative : d.value.native = true := by cases d <;> rfl
  have hbound : lower.compares cmp (.datum e) = true :=
    ColumnMetrics.compares_of_lower (v := ⟨d.value, hnative⟩) (Datum.partialCmp_isSome htype) hat hle
      (Datum.partialCmp_value ho) hcmp
  exact boundTest_eq_true hlower hswap hbound hu

theorem upper_test (hl : l.OfType (.primitive t)) (hge : cmp = (· == .gt) ∨ cmp = (· != .lt))
    (hswap : ∀ o, cmp o = true → excluded o.swap = false) (h : d.compares cmp l = true)
    (hu : boundTest floats (.primitive t) s.upperBound l excluded = .ok u) : u = true := by
  obtain ⟨e, o, rfl, ho, hcmp⟩ := compares_eq_true h
  obtain ⟨-, upper, -, hupper, -, hat⟩ := hs.bounds d rfl hnan
  have htype : upper.primitiveType = e.primitiveType := by
    rw [hupper.type]
    exact FieldType.primitive.inj (hl e rfl)
  have hnative : d.value.native = true := by cases d <;> rfl
  have hbound : upper.compares cmp (.datum e) = true :=
    ColumnMetrics.compares_of_upper (v := ⟨d.value, hnative⟩) (Datum.partialCmp_isSome htype) hat hge
      (Datum.partialCmp_value ho) hcmp
  exact boundTest_eq_true hupper hswap hbound hu

/-- A value lies between its bounds. -/
theorem between : ∃ lower upper, IsBound floats t s.lowerBound lower ∧ IsBound floats t s.upperBound upper ∧
    lower.compares (· == .gt) (.datum d) = false ∧ upper.compares (· == .lt) (.datum d) = false := by
  obtain ⟨lower, upper, hlower, hupper, ⟨o, ho, hne⟩, ⟨o', ho', hne'⟩⟩ := hs.bounds d rfl hnan
  refine ⟨lower, upper, hlower, hupper, ?_, ?_⟩
  · have hcmp := Datum.partialCmp_of_isSome (Datum.partialCmp_isSome (hlower.type.trans (hs.typed d rfl).symm))
    show (lower.partialCmp d).any _ = false
    rw [hcmp, ho]
    simpa using hne
  · have hcmp := Datum.partialCmp_of_isSome (Datum.partialCmp_isSome (hupper.type.trans (hs.typed d rfl).symm))
    show (upper.partialCmp d).any _ = false
    rw [hcmp, Value.ordering_swap, ho']
    cases o' with
    | lt => rfl
    | eq => rfl
    | gt => exact absurd rfl hne'

theorem eq_test (hu : s.eq floats (.primitive t) (.datum d) = .ok u) : u = true := by
  obtain ⟨lower, upper, hlower, hupper, hbelow, habove⟩ := hs.between hnan
  obtain ⟨bs, hbs, hread⟩ := hlower.eq_bytes
  obtain ⟨bs', hbs', hread'⟩ := hupper.eq_bytes
  simp only [FieldSummary.eq, hbs, hbs', hread, hread', hbelow] at hu
  cases hu
  show (!upper.compares (· == .lt) (.datum d)) = true
  rw [habove]
  rfl

theorem isIn_test {ls : List BoundLiteral} (hmem : .datum d ∈ ls) (hu : s.isIn floats (.primitive t) ls = .ok u) :
    u = true := by
  obtain ⟨lower, upper, hlower, hupper, hbelow, habove⟩ := hs.between hnan
  obtain ⟨bs, hbs, hread⟩ := hlower.eq_bytes
  obtain ⟨bs', hbs', hread'⟩ := hupper.eq_bytes
  have hnot : ∀ {test : BoundLiteral → Bool}, test (.datum d) = false → ls.all test = false :=
    fun h => List.all_eq_false.mpr ⟨_, hmem, by rw [h]; decide⟩
  simp only [FieldSummary.isIn, hbs, hbs', hread, hread', hnot hbelow] at hu
  split at hu
  · cases hu
    rfl
  · cases hu
    show (!ls.all (upper.compares (· == .lt))) = true
    rw [hnot habove]
    rfl

theorem lowerBound_isNone : s.lowerBound.isNone = false := by
  obtain ⟨lower, upper, hlower, -, -, -⟩ := hs.bounds d rfl hnan
  obtain ⟨bs, hbs, -⟩ := hlower.eq_bytes
  rw [hbs]
  rfl

omit hnan

/-- Not all values are NULL. -/
theorem areAllNull : s.areAllNull (.primitive t) = false := by
  unfold FieldSummary.areAllNull
  cases hnan : d.isNan with
  | false => simp [hs.lowerBound_isNone hnan]
  | true =>
      have hfloat : (FieldType.primitive t).isFloatingType = true := by
        rw [← hs.typed d rfl]
        cases d with
        | float v => rfl
        | double v => rfl
        | _ => cases hnan
      rw [hs.nan d rfl hnan, hfloat]
      split
      · rfl
      · rename_i hnot
        rw [Bool.and_true] at hnot
        exact Bool.eq_false_of_not_eq_true hnot

/-- The bounds of texts. -/
theorem text {x : String} (hx : d = .string x) : ∃ lo hi : String, s.lowerBound = some (textBytes lo) ∧
    s.upperBound = some (textBytes hi) ∧ lo.toList ≤ x.toList ∧ x.toList ≤ hi.toList := by
  subst hx
  obtain rfl : .string = t := hs.typed _ rfl
  obtain ⟨lower, upper, hlower, hupper, hle, hge⟩ := hs.bounds _ rfl rfl
  obtain ⟨lo, rfl, hlo⟩ := hlower.eq_text
  obtain ⟨hi, rfl, hhi⟩ := hupper.eq_text
  exact ⟨lo, hi, hlo, hhi, ColumnMetrics.atMost_str.mp hle, ColumnMetrics.atMost_str.mp hge⟩

theorem startsWith_test (h : valueStartsWith l d = true) (hu : s.startsWith l = .ok u) : u = true := by
  unfold valueStartsWith at h
  split at h
  · rename_i x
    split at h
    · rename_i p
      obtain ⟨lo, hi, hlo, hhi, hle, hge⟩ := hs.text rfl
      have hp := Utf8.octets_prefix_octets.mpr (List.isPrefixOf_iff_prefix.mp h)
      have hlow := PrefixOrder.take_le_word (Utf8.octets_le_octets.mpr hle) hp
        (min_le_right (Utf8.octets lo.toList).length (Utf8.octets p.toList).length)
      have hhigh := PrefixOrder.word_le_take (Utf8.octets_le_octets.mpr hge) hp
      simp only [FieldSummary.startsWith, hlo, hhi] at hu
      cases hu
      show startsWithBytes (textBytes lo) (textBytes hi) (textBytes p) = true
      rw [startsWithBytes, Bool.not_eq_true', Bool.or_eq_false_iff]
      exact ⟨decide_eq_false (not_lt.mpr hlow), decide_eq_false (not_lt.mpr hhigh)⟩
    · cases h
  · cases h

theorem notStartsWith_test (hnan : d.isNan = false) (hl : l.OfType (.primitive t)) (h : valueStartsWith l d = false)
    (hu : s.notStartsWith l = .ok u) : u = true := by
  obtain ⟨lower, upper, hlower, hupper, -, -⟩ := hs.bounds d rfl hnan
  obtain ⟨bs, hbs, -⟩ := hlower.eq_bytes
  obtain ⟨bs', hbs', -⟩ := hupper.eq_bytes
  unfold FieldSummary.notStartsWith at hu
  split at hu
  · cases hu
    rfl
  · simp only [hbs, hbs'] at hu
    unfold datumAsStr at hu
    split at hu
    · rename_i p
      cases hu
      have htype : d.primitiveType = .string := (hs.typed d rfl).trans (FieldType.primitive.inj (hl _ rfl))
      cases d with
      | string x =>
          obtain ⟨lo, hi, hlo, hhi, hle, hge⟩ := hs.text rfl
          obtain rfl := Option.some.inj (hbs.symm.trans hlo)
          obtain rfl := Option.some.inj (hbs'.symm.trans hhi)
          show notStartsWithBytes (textBytes lo) (textBytes hi) (textBytes p) = true
          unfold notStartsWithBytes
          split
          · rfl
          · split
            · rename_i hcut
              split
              · rfl
              · rw [bne_iff_ne]
                intro hcut'
                have hbytes := PrefixOrder.prefix_of_between (Utf8.octets_le_octets.mpr hle)
                  (Utf8.octets_le_octets.mpr hge) hcut hcut'
                have hstarts := List.isPrefixOf_iff_prefix.mpr (Utf8.octets_prefix_octets.mp hbytes)
                exact absurd (hstarts.symm.trans h) (by decide)
            · rfl
      | _ => cases htype
    · cases hu

end FieldSummary.Covers

end

/-! ### No file is lost -/

/-- The summary of a field is right about its value in the tuple. -/
structure FieldCovered (floats : FloatBytes) (partitionSchema : Schema) (partitions : List FieldSummary)
    (tuple : PartitionTuple) (r : FieldRef) (t : PrimitiveType) (v : Option Datum) (s : FieldSummary) : Prop where
  type : r.field.fieldType = .primitive t
  value : accessorGet partitionSchema tuple r = .ok v
  summary : ∀ test, onSummary partitionSchema partitions r test = test s
  covers : s.Covers floats t v

/-- The predicate compares the values of the field, and does not only ask for NULL or NaN. -/
def ComparesField (r : FieldRef) : BoundPredicate → Prop
  | .binary _ r' _ | .set _ r' _ => r' = r
  | _ => False

section

variable {floats : FloatBytes} {partitionSchema : Schema} {partitions : List FieldSummary} {tuple : PartitionTuple}
  {r : FieldRef} {t : PrimitiveType} {v : Option Datum} {s : FieldSummary} {u : Bool}

theorem onValue_eq_true {null : Bool} {test : Datum → Bool} (hv : accessorGet partitionSchema tuple r = .ok v)
    (h : onValue partitionSchema tuple r null test = .ok true) : v.elim null test = true := by
  rw [onValue, hv] at h
  exact Except.ok.inj h

variable (hr : FieldCovered floats partitionSchema partitions tuple r t v s)

include hr

theorem FieldCovered.unary {op : PredicateOperator}
    (hkeep : visitUnary (expressionEvaluatorVisitor partitionSchema tuple) op r = .ok true)
    (h : visitUnary (manifestFilterVisitor floats partitionSchema partitions) op r = .ok u) : u = true := by
  have hs := hr.covers
  cases op with
  | isNull =>
      have hvalue := onValue_eq_true hr.value hkeep
      have hu := (hr.summary _).symm.trans h
      cases hu
      cases v with
      | none => exact hs.null rfl
      | some d => cases hvalue
  | notNull =>
      have hvalue := onValue_eq_true hr.value hkeep
      have hu := (hr.summary _).symm.trans h
      cases hu
      cases v with
      | none => cases hvalue
      | some d =>
          rw [hr.type, hs.areAllNull]
          rfl
  | isNan =>
      have hvalue := onValue_eq_true hr.value hkeep
      have hu := (hr.summary _).symm.trans h
      cases hu
      cases v with
      | none => cases hvalue
      | some d =>
          rw [hr.type, FieldSummary.mayHaveNan, hs.areAllNull, hs.nan d rfl hvalue]
          rfl
  | notNan =>
      have hvalue := onValue_eq_true hr.value hkeep
      have hu := (hr.summary _).symm.trans h
      cases hu
      cases v with
      | none => simp [FieldSummary.mayHaveOther, hs.null rfl]
      | some d =>
          have hnan : d.isNan = false := by simpa using hvalue
          simp [FieldSummary.mayHaveOther, hs.lowerBound_isNone hnan]
  | _ => cases h

/-- The comparisons with the lower bound. -/
theorem FieldCovered.lower {l : BoundLiteral} (hl : l.OfType r.field.fieldType)
    (hnan : ∀ d, v = some d → d.isNan = false) {cmp excluded : Ordering → Bool}
    (hle : cmp = (· == .lt) ∨ cmp = (· != .gt)) (hswap : ∀ o, cmp o = true → excluded o.swap = false)
    (hkeep : onValue partitionSchema tuple r false (fun d => d.compares cmp l) = .ok true)
    (h : onSummary partitionSchema partitions r (fun s =>
      FieldSummary.boundTest floats r.field.fieldType s.lowerBound l excluded) = .ok u) : u = true := by
  have hvalue := onValue_eq_true hr.value hkeep
  rw [hr.type] at hl
  rw [hr.summary, hr.type] at h
  cases v with
  | none => cases hvalue
  | some d => exact hr.covers.lower_test (hnan d rfl) hl hle hswap hvalue h

/-- The comparisons with the upper bound. -/
theorem FieldCovered.upper {l : BoundLiteral} (hl : l.OfType r.field.fieldType)
    (hnan : ∀ d, v = some d → d.isNan = false) {cmp excluded : Ordering → Bool}
    (hge : cmp = (· == .gt) ∨ cmp = (· != .lt)) (hswap : ∀ o, cmp o = true → excluded o.swap = false)
    (hkeep : onValue partitionSchema tuple r false (fun d => d.compares cmp l) = .ok true)
    (h : onSummary partitionSchema partitions r (fun s =>
      FieldSummary.boundTest floats r.field.fieldType s.upperBound l excluded) = .ok u) : u = true := by
  have hvalue := onValue_eq_true hr.value hkeep
  rw [hr.type] at hl
  rw [hr.summary, hr.type] at h
  cases v with
  | none => cases hvalue
  | some d => exact hr.covers.upper_test (hnan d rfl) hl hge hswap hvalue h

theorem FieldCovered.binary {op : PredicateOperator} {l : BoundLiteral} (hl : l.OfType r.field.fieldType)
    (hnan : ∀ d, v = some d → d.isNan = false)
    (hkeep : visitBinary (expressionEvaluatorVisitor partitionSchema tuple) op r l = .ok true)
    (h : visitBinary (manifestFilterVisitor floats partitionSchema partitions) op r l = .ok u) : u = true := by
  have hs := hr.covers
  cases op with
  | lessThan => exact hr.lower hl hnan (.inl rfl) (by decide) hkeep h
  | lessThanOrEq => exact hr.lower hl hnan (.inr rfl) (by decide) hkeep h
  | greaterThan => exact hr.upper hl hnan (.inl rfl) (by decide) hkeep h
  | greaterThanOrEq => exact hr.upper hl hnan (.inr rfl) (by decide) hkeep h
  | eq =>
      have hvalue := onValue_eq_true hr.value hkeep
      have hu := (hr.summary _).symm.trans h
      rw [hr.type] at hu
      cases v with
      | none => cases hvalue
      | some d =>
          obtain rfl : .datum d = l := eq_of_beq hvalue
          exact hs.eq_test (hnan d rfl) hu
  | notEq =>
      cases h
      rfl
  | startsWith =>
      have hvalue := onValue_eq_true hr.value hkeep
      have hu := (hr.summary _).symm.trans h
      cases v with
      | none => cases hvalue
      | some d => exact hs.startsWith_test hvalue hu
  | notStartsWith =>
      have hvalue := onValue_eq_true hr.value hkeep
      have hu := (hr.summary _).symm.trans h
      cases v with
      | none =>
          rw [FieldSummary.notStartsWith, if_pos (hs.null rfl)] at hu
          cases hu
          rfl
      | some d => exact hs.notStartsWith_test (hnan d rfl) (hr.type ▸ hl) ((Bool.not_eq_true' _).mp hvalue) hu
  | _ => cases h

theorem FieldCovered.set {op : PredicateOperator} {ls : List BoundLiteral} (hnan : ∀ d, v = some d → d.isNan = false)
    (hkeep : visitSet (expressionEvaluatorVisitor partitionSchema tuple) op r ls = .ok true)
    (h : visitSet (manifestFilterVisitor floats partitionSchema partitions) op r ls = .ok u) : u = true := by
  cases op with
  | isIn =>
      have hvalue := onValue_eq_true hr.value hkeep
      have hu := (hr.summary _).symm.trans h
      rw [hr.type] at hu
      cases v with
      | none => cases hvalue
      | some d => exact hr.covers.isIn_test (hnan d rfl) (List.contains_iff_mem.mp hvalue) hu
  | notIn =>
      cases h
      rfl
  | _ => cases h

omit hr

/-- **A leaf that holds of the tuple is not ruled out.** -/
theorem manifestFilterVisitor_leaf {b : BoundPredicate} (hb : b.IsLeaf) (htyped : b.Typed)
    (hcovered : ∀ r ∈ b.fields, ∃ t v s, FieldCovered floats partitionSchema partitions tuple r t v s)
    (hnan : ∀ r, ComparesField r b → ∀ d, accessorGet partitionSchema tuple r = .ok (some d) → d.isNan = false)
    (hkeep : visit (expressionEvaluatorVisitor partitionSchema tuple) b = .ok true)
    (h : visit (manifestFilterVisitor floats partitionSchema partitions) b = .ok u) : u = true := by
  cases b with
  | alwaysTrue => cases hb
  | alwaysFalse => cases hb
  | andExpr l r => cases hb
  | orExpr l r => cases hb
  | notExpr p => cases hb
  | unary op r =>
      obtain ⟨t, v, s, hr⟩ := hcovered r List.mem_cons_self
      exact hr.unary hkeep h
  | binary op r l =>
      obtain ⟨t, v, s, hr⟩ := hcovered r List.mem_cons_self
      exact hr.binary htyped (fun d hd => hnan r rfl d (hd ▸ hr.value)) hkeep h
  | set op r ls =>
      obtain ⟨t, v, s, hr⟩ := hcovered r List.mem_cons_self
      exact hr.set (fun d hd => hnan r rfl d (hd ▸ hr.value)) hkeep h

theorem manifestFilterVisitor_joins :
    Joins (manifestFilterVisitor floats partitionSchema partitions) (fun _ => True) (· = true) :=
  joins_of_bool rfl (fun _ _ => rfl) fun _ _ => rfl

theorem expressionEval_satisfies :
    Satisfies fun b => visit (expressionEvaluatorVisitor partitionSchema tuple) b = .ok true where
  alwaysFalse := by
    intro h
    cases h
  and := by
    intro l r h
    obtain ⟨a, b, ha, hb, hab⟩ := visit_andExpr h
    obtain ⟨rfl, rfl⟩ := (Bool.and_eq_true a b).mp (Except.ok.inj hab)
    exact ⟨ha, hb⟩
  or := by
    intro l r h
    obtain ⟨a, b, ha, hb, hab⟩ := visit_orExpr h
    rcases (Bool.or_eq_true a b).mp (Except.ok.inj hab) with rfl | rfl
    · exact .inl ha
    · exact .inr hb

/-- A field that a name was bound to stands at its position. -/
theorem getElem?_position (hnested : partitionSchema.nested = []) {name : String}
    (h : bindReference partitionSchema name = .ok r) :
    partitionSchema.fields[position partitionSchema r]? = some r.field := by
  unfold bindReference Schema.fieldByName at h
  rw [hnested] at h
  cases hfind : partitionSchema.fields.find? (·.name == name) with
  | none =>
      rw [hfind] at h
      cases h
  | some f =>
      rw [hfind] at h
      have hname : f.name = name := eq_of_beq (@List.find?_some _ (fun g : NestedField => g.name == name) _ _ hfind)
      simp only at h
      split at h
      · cases h
        show partitionSchema.fields[partitionSchema.fields.findIdx (·.name == f.name)]? = some f
        rw [hname, ← List.find?_eq_getElem?_findIdx]
        exact hfind
      · cases h

/-- **A manifest is not ruled out if one of its files is not**, when its summaries were written for the tuples of
its files. -/
theorem manifestEval_keeps {parsers : TextParsers} {p : Predicate} {q : BoundPredicate} {types : List PrimitiveType}
    {tuples : List PartitionTuple} {summaries : List FieldSummary} (hp : p.NotFree)
    (hbind : p.bind parsers partitionSchema = .ok q) (hnested : partitionSchema.nested = [])
    (htypes : partitionSchema.fields.map NestedField.fieldType = types.map .primitive)
    (hwritten : constructPartitionSummaries floats types tuples = .ok summaries)
    (hstorable : ∀ tuple ∈ tuples, ∀ d, some d ∈ tuple → Datum.Storable floats d) (hmem : tuple ∈ tuples)
    (hnan : ∀ b ∈ q.leaves, ∀ r, ComparesField r b → ∀ d,
      accessorGet partitionSchema tuple r = .ok (some d) → d.isNan = false)
    (hkeep : expressionEval partitionSchema q tuple = .ok true) :
    manifestEval floats partitionSchema q (some summaries) ≠ .ok false := by
  have hcovered : ∀ r ∈ q.fields, ∃ t v s, FieldCovered floats partitionSchema summaries tuple r t v s := by
    intro r hr
    obtain ⟨name, hname⟩ := bind_boundTo hbind r hr
    have hfield := getElem?_position hnested hname
    have htype : (partitionSchema.fields.map NestedField.fieldType)[position partitionSchema r]? =
        some r.field.fieldType := by
      rw [List.getElem?_map, hfield]
      rfl
    rw [htypes, List.getElem?_map] at htype
    obtain ⟨t, ht, htr⟩ := Option.map_eq_some_iff.mp htype
    obtain ⟨v, s, hv, hs, hcovers⟩ := covers_constructPartitionSummaries hwritten hstorable hmem ht
    exact ⟨t, v, s, htr.symm, by rw [accessorGet, hv], fun test => by rw [onSummary, hs], hcovers⟩
  have hleaf : ∀ b ∈ q.leaves, ∀ u, visit (manifestFilterVisitor floats partitionSchema summaries) b = .ok u →
      True ∧ (visit (expressionEvaluatorVisitor partitionSchema tuple) b = .ok true → u = true) := by
    intro b hb u hu
    refine ⟨trivial, fun hsat => ?_⟩
    exact manifestFilterVisitor_leaf (BoundPredicate.isLeaf_of_mem hb) ((bind_typed hbind).of_mem hb)
      (fun r hr => hcovered r (BoundPredicate.mem_fields hb r hr)) (hnan b hb) hsat hu
  intro hruled
  unfold manifestEval at hruled
  split at hruled
  · rename_i s ss hsummaries
    obtain rfl := Option.some.inj hsummaries
    have hkept := visit_keeps manifestFilterVisitor_joins expressionEval_satisfies (bind_notFree hp hbind) hleaf
      hruled hkeep
    cases hkept
  · cases hruled

/-- A table that is partitioned by one number. -/
def idSchema : Schema := ⟨[⟨"id", .primitive .int, false⟩], []⟩

/-- The filter `id < 5`. -/
def belowFive : BoundPredicate := .binary .lessThan ⟨true, ⟨"id", .primitive .int, false⟩, true⟩ (.datum (.int 5))

/-- The tuples of three files. -/
def idTuples : List PartitionTuple := [[some (.int 7)], [some (.int 3)], [none]]

theorem manifestEval_keeps_belowFive : manifestEval plainFloats idSchema belowFive
    (some [⟨true, some false, some [3, 0, 0, 0], some [7, 0, 0, 0]⟩]) ≠ .ok false := by
  have hbind : Predicate.bind ⟨fun _ => none, fun _ => none, fun _ => none, fun _ => none⟩ idSchema
      (.binary .lessThan "id" (.int 5)) = .ok belowFive := rfl
  have hwritten : constructPartitionSummaries plainFloats [.int] idTuples =
      .ok [⟨true, some false, some [3, 0, 0, 0], some [7, 0, 0, 0]⟩] := rfl
  have hkeep : expressionEval idSchema belowFive [some (.int 3)] = .ok true := rfl
  have hstorable : ∀ tuple ∈ idTuples, ∀ d, some d ∈ tuple → Datum.Storable plainFloats d := by
    intro tuple htuple d hd
    rcases List.mem_cons.mp htuple with rfl | htuple
    · cases List.mem_singleton.mp hd
      exact ⟨by decide, by decide⟩
    · rcases List.mem_cons.mp htuple with rfl | htuple
      · cases List.mem_singleton.mp hd
        exact ⟨by decide, by decide⟩
      · obtain rfl := List.mem_singleton.mp htuple
        cases List.mem_singleton.mp hd
  refine manifestEval_keeps (p := .binary .lessThan "id" (.int 5)) trivial hbind rfl rfl hwritten hstorable
    (by decide) ?_ hkeep
  intro b hb r hr d hd
  cases List.mem_singleton.mp hb
  cases hr
  cases hd
  rfl

end

end IcebergDb.Scan
