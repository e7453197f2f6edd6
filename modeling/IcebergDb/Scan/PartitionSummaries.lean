import IcebergDb.Foundation.Checked
import IcebergDb.Scan.SingleValues

/-!
# Summaries of partitions

For each partition field, the manifest list says of a manifest whether the tuples of its files have a NULL or a
NaN there, and between which bounds the other values lie.

* `PartitionTuple`, `FieldSummary` — the partition of a file, the summary of a field in a manifest;
* `PartitionFieldStats`, `constructPartitionSummaries` — how the writer of a manifest gets the summaries;
* `FieldSummary.Covers` — the summary is right about a value;
* `PartitionFieldStats.Tracks`, `Tracks.update`, `Tracks.finish` — what the statistics know of the values so far;
* `covers_constructPartitionSummaries` — **the summaries of a list of tuples are right about each of them**.
-/

namespace IcebergDb.Scan

open IcebergDb.Expr

/-! ### Tuples and summaries -/

/-- The partition of a file: a value of its type for each partition field, or NULL. -/
abbrev PartitionTuple := List (Option Datum)

/-- `FieldSummary`. -/
structure FieldSummary where
  containsNull : Bool
  containsNan : Option Bool
  lowerBound : Option Bytes
  upperBound : Option Bytes

/-! ### Writing summaries -/

/-- `PartitionFieldStats`. -/
structure PartitionFieldStats where
  partitionType : PrimitiveType
  containsNull : Bool
  containsNan : Option Bool
  lowerBound : Option Datum
  upperBound : Option Datum

namespace PartitionFieldStats

/-- `new`. -/
def new (t : PrimitiveType) : PartitionFieldStats := ⟨t, false, some false, none, none⟩

/-- `update`. -/
def update (s : PartitionFieldStats) : Option Datum → Except VisitError PartitionFieldStats
  | none => .ok { s with containsNull := true }
  | some d =>
      if d.primitiveType ≠ s.partitionType then .error (.dataInvalid "value is not compatible with type")
      else if d.isNan then .ok { s with containsNan := some true }
      else .ok { s with
        lowerBound := some (s.lowerBound.elim d fun b => if d.partialCmp b = some .lt then d else b)
        upperBound := some (s.upperBound.elim d fun b => if d.partialCmp b = some .gt then d else b) }

/-- A bound as bytes, with the `unwrap`. -/
def boundBytes (floats : FloatBytes) : Option Datum → Except VisitError (Option Bytes)
  | none => .ok none
  | some b =>
      match Datum.toBytes floats b with
      | .ok bs => .ok (some bs)
      | .error _ => .error .panicked

/-- `finish`. -/
def finish (floats : FloatBytes) (s : PartitionFieldStats) : Except VisitError FieldSummary := do
  let upper ← boundBytes floats s.upperBound
  let lower ← boundBytes floats s.lowerBound
  return ⟨s.containsNull, s.containsNan, lower, upper⟩

end PartitionFieldStats

/-- `zip_eq` on a tuple and the statistics, updating these. -/
def updateAll : PartitionTuple → List PartitionFieldStats → Except VisitError (List PartitionFieldStats)
  | [], [] => .ok []
  | v :: vs, s :: ss => do
      let s ← s.update v
      let ss ← updateAll vs ss
      return s :: ss
  | _, _ => .error .panicked

/-- `construct_partition_summaries`. -/
def constructPartitionSummaries (floats : FloatBytes) (types : List PrimitiveType) (tuples : List PartitionTuple) :
    Except VisitError (List FieldSummary) := do
  let stats ← tuples.foldlM (fun ss tuple => updateAll tuple ss) (types.map PartitionFieldStats.new)
  stats.mapM (PartitionFieldStats.finish floats)

/-! ### What summaries say -/

/-- The bytes are those of the bound, and are read back as it. -/
structure IsBound (floats : FloatBytes) (t : PrimitiveType) (bound : Option Bytes) (b : Datum) : Prop where
  bytes : ∃ bs, bound = some bs ∧ Datum.toBytes floats b = .ok bs ∧ tryFromBytes floats bs t = .ok b
  type : b.primitiveType = t

/-- The summary is right about a value. -/
structure FieldSummary.Covers (floats : FloatBytes) (s : FieldSummary) (t : PrimitiveType)
    (value : Option Datum) : Prop where
  typed : ∀ d, value = some d → d.primitiveType = t
  null : value = none → s.containsNull = true
  nan : ∀ d, value = some d → d.isNan = true → s.containsNan = some true
  bounds : ∀ d, value = some d → d.isNan = false → ∃ lower upper, IsBound floats t s.lowerBound lower ∧
    IsBound floats t s.upperBound upper ∧ lower.value.AtMost d.value ∧ d.value.AtMost upper.value

/-- What the statistics have been updated with. -/
structure PartitionFieldStats.Tracks (s : PartitionFieldStats) (t : PrimitiveType) (seen : Option Datum → Prop) :
    Prop where
  type : s.partitionType = t
  typed : ∀ d, seen (some d) → d.primitiveType = t
  null : seen none → s.containsNull = true
  nan : ∀ d, seen (some d) → d.isNan = true → s.containsNan = some true
  bounds : ∀ d, seen (some d) → d.isNan = false → ∃ lower upper, s.lowerBound = some lower ∧
    s.upperBound = some upper ∧ lower.value.AtMost d.value ∧ d.value.AtMost upper.value
  lower : ∀ b, s.lowerBound = some b → seen (some b)
  upper : ∀ b, s.upperBound = some b → seen (some b)

/-- Of two datums of a type, one is at most the other. -/
theorem atMost_of_not_lt {a b : Datum} (htype : a.primitiveType = b.primitiveType)
    (h : a.partialCmp b ≠ some .lt) : b.value.AtMost a.value := by
  obtain ⟨o, ho⟩ := Option.isSome_iff_exists.mp (Datum.partialCmp_isSome htype)
  refine ⟨o.swap, ?_, ?_⟩
  · rw [Value.ordering_swap, Datum.partialCmp_value ho]
    rfl
  · cases o with
    | lt => exact absurd ho h
    | eq => simp
    | gt => simp

theorem atMost_of_not_gt {a b : Datum} (htype : a.primitiveType = b.primitiveType)
    (h : a.partialCmp b ≠ some .gt) : a.value.AtMost b.value := by
  obtain ⟨o, ho⟩ := Option.isSome_iff_exists.mp (Datum.partialCmp_isSome htype)
  exact ⟨o, Datum.partialCmp_value ho, fun hgt => h (hgt ▸ ho)⟩

theorem atMost_refl (v : Value) : v.AtMost v := .of_eq ((Value.ordering_eq_iff v v).mpr rfl)

namespace PartitionFieldStats

variable {s s' : PartitionFieldStats} {t : PrimitiveType} {seen : Option Datum → Prop} {value : Option Datum}

theorem tracks_new (t : PrimitiveType) : (new t).Tracks t fun _ => False where
  type := rfl
  typed := fun _ h => h.elim
  null := False.elim
  nan := fun _ h => h.elim
  bounds := fun _ h => h.elim
  lower := fun _ h => nomatch h
  upper := fun _ h => nomatch h

/-- The lower of two datums. -/
theorem lower_spec {d : Datum} {bound : Option Datum}
    (hbound : ∀ b, bound = some b → d.primitiveType = b.primitiveType) :
    ∃ b, (some (bound.elim d fun b => if d.partialCmp b = some .lt then d else b)) = some b ∧
      b.value.AtMost d.value ∧ (∀ c, bound = some c → b.value.AtMost c.value) ∧ (b = d ∨ bound = some b) := by
  refine ⟨_, rfl, ?_⟩
  cases bound with
  | none =>
      show d.value.AtMost d.value ∧ (∀ c : Datum, none = some c → d.value.AtMost c.value) ∧ _
      refine ⟨atMost_refl _, ?_, .inl rfl⟩
      intro c hc
      cases hc
  | some c =>
      have htype := hbound c rfl
      show (ite _ d c).value.AtMost d.value ∧ (∀ e, some c = some e → (ite _ d c).value.AtMost e.value) ∧ _
      by_cases hlt : d.partialCmp c = some .lt
      · rw [if_pos hlt]
        refine ⟨atMost_refl _, ?_, .inl (if_pos hlt)⟩
        rintro e ⟨⟩
        exact atMost_of_not_gt htype (by rw [hlt]; decide)
      · rw [if_neg hlt]
        refine ⟨atMost_of_not_lt htype hlt, ?_, .inr (congrArg some (if_neg hlt).symm)⟩
        rintro e ⟨⟩
        exact atMost_refl _

/-- The higher of two datums. -/
theorem upper_spec {d : Datum} {bound : Option Datum}
    (hbound : ∀ b, bound = some b → d.primitiveType = b.primitiveType) :
    ∃ b, (some (bound.elim d fun b => if d.partialCmp b = some .gt then d else b)) = some b ∧
      d.value.AtMost b.value ∧ (∀ c, bound = some c → c.value.AtMost b.value) ∧ (b = d ∨ bound = some b) := by
  refine ⟨_, rfl, ?_⟩
  cases bound with
  | none =>
      show d.value.AtMost d.value ∧ (∀ c : Datum, none = some c → c.value.AtMost d.value) ∧ _
      refine ⟨atMost_refl _, ?_, .inl rfl⟩
      intro c hc
      cases hc
  | some c =>
      have htype := hbound c rfl
      show d.value.AtMost (ite _ d c).value ∧ (∀ e, some c = some e → e.value.AtMost (ite _ d c).value) ∧ _
      by_cases hgt : d.partialCmp c = some .gt
      · rw [if_pos hgt]
        refine ⟨atMost_refl _, ?_, .inl (if_pos hgt)⟩
        rintro e ⟨⟩
        exact atMost_of_not_lt htype (by rw [hgt]; decide)
      · rw [if_neg hgt]
        refine ⟨atMost_of_not_gt htype hgt, ?_, .inr (congrArg some (if_neg hgt).symm)⟩
        rintro e ⟨⟩
        exact atMost_refl _

/-- **One update.** -/
theorem Tracks.update (hs : s.Tracks t seen) (h : s.update value = .ok s') :
    s'.Tracks t fun v => seen v ∨ v = value := by
  unfold PartitionFieldStats.update at h
  split at h
  · cases h
    have hold : ∀ d, seen (some d) ∨ some d = none → seen (some d) := fun d hd => hd.resolve_right fun h => nomatch h
    refine ⟨hs.type, fun d hd => hs.typed d (hold d hd), fun _ => rfl, ?_, ?_, ?_, ?_⟩
    · exact fun d hd => hs.nan d (hold d hd)
    · exact fun d hd => hs.bounds d (hold d hd)
    · exact fun b hb => .inl (hs.lower b hb)
    · exact fun b hb => .inl (hs.upper b hb)
  · rename_i d
    split at h
    · cases h
    · rename_i htype
      rw [ne_eq, not_not, hs.type] at htype
      have htyped : ∀ e, seen (some e) ∨ some e = some d → e.primitiveType = t := by
        rintro e (he | he)
        · exact hs.typed e he
        · cases he
          exact htype
      have hnull : seen none ∨ none = some d → s.containsNull = true :=
        fun hn => hs.null (hn.resolve_right fun h => nomatch h)
      split at h
      · rename_i hnan
        cases h
        refine ⟨hs.type, htyped, hnull, fun _ _ _ => rfl, ?_, ?_, ?_⟩
        · rintro e (he | he) hnot
          · exact hs.bounds e he hnot
          · cases he
            rw [hnan] at hnot
            cases hnot
        · exact fun b hb => .inl (hs.lower b hb)
        · exact fun b hb => .inl (hs.upper b hb)
      · rename_i hnan
        cases h
        obtain ⟨lo, hlo, hlod, hloc, hlomem⟩ := lower_spec fun b hb => htype.trans (hs.typed b (hs.lower b hb)).symm
        obtain ⟨hi, hhi, hhid, hhic, hhimem⟩ := upper_spec fun b hb => htype.trans (hs.typed b (hs.upper b hb)).symm
        refine ⟨hs.type, htyped, hnull, ?_, ?_, ?_, ?_⟩
        · rintro e (he | he) heNan
          · exact hs.nan e he heNan
          · cases he
            exact absurd heNan hnan
        · rintro e (he | he) heNan
          · obtain ⟨lower, upper, hlower, hupper, hle, hge⟩ := hs.bounds e he heNan
            exact ⟨lo, hi, hlo, hhi, (hloc lower hlower).trans hle, hge.trans (hhic upper hupper)⟩
          · cases he
            exact ⟨lo, hi, hlo, hhi, hlod, hhid⟩
        · intro b hb
          cases hlo.symm.trans hb
          rcases hlomem with rfl | hmem
          · exact .inr rfl
          · exact .inl (hs.lower _ hmem)
        · intro b hb
          cases hhi.symm.trans hb
          rcases hhimem with rfl | hmem
          · exact .inr rfl
          · exact .inl (hs.upper _ hmem)

theorem boundBytes_eq_ok {floats : FloatBytes} {bound : Option Datum} {w : Option Bytes}
    (h : boundBytes floats bound = .ok w) {b : Datum} (hb : bound = some b) (htype : b.primitiveType = t)
    (hstorable : Datum.Storable floats b) : IsBound floats t w b := by
  obtain ⟨bs, hbs, hread⟩ := tryFromBytes_toBytes hstorable
  obtain ⟨e, he, hetype, hevalue⟩ := hread t (htype ▸ Promotes.refl _)
  rw [hb, boundBytes, hbs] at h
  cases h
  obtain rfl : e = b := Datum.eq_of_value (hetype.trans htype.symm) hevalue
  exact ⟨⟨bs, rfl, hbs, he⟩, htype⟩

/-- **What is written of the statistics is right about everything that was seen.** -/
theorem Tracks.finish {floats : FloatBytes} {w : FieldSummary} (hs : s.Tracks t seen)
    (hstorable : ∀ d, seen (some d) → Datum.Storable floats d) (h : s.finish floats = .ok w)
    (hvalue : seen value) : w.Covers floats t value := by
  obtain ⟨upper, hupper, hrest⟩ := Checked.bind_eq_ok h
  obtain ⟨lower, hlower, hw⟩ := Checked.bind_eq_ok hrest
  cases hw
  refine ⟨?_, ?_, ?_, ?_⟩
  · rintro d rfl
    exact hs.typed d hvalue
  · rintro rfl
    exact hs.null hvalue
  · rintro d rfl hnan
    exact hs.nan d hvalue hnan
  · rintro d rfl hnan
    obtain ⟨lo, hi, hlo, hhi, hle, hge⟩ := hs.bounds d hvalue hnan
    have hloSeen := hs.lower lo hlo
    have hhiSeen := hs.upper hi hhi
    exact ⟨lo, hi, boundBytes_eq_ok hlower hlo (hs.typed lo hloSeen) (hstorable lo hloSeen),
      boundBytes_eq_ok hupper hhi (hs.typed hi hhiSeen) (hstorable hi hhiSeen), hle, hge⟩

end PartitionFieldStats

/-! ### All fields of all tuples -/

/-- The statistics of each field have been updated with its values. -/
def TracksAll (types : List PrimitiveType) (seen : ℕ → Option Datum → Prop) (ss : List PartitionFieldStats) : Prop :=
  ∀ i t, types[i]? = some t → ∃ s : PartitionFieldStats, ss[i]? = some s ∧ s.Tracks t (seen i)

section

variable {types : List PrimitiveType} {seen : ℕ → Option Datum → Prop} {ss ss' : List PartitionFieldStats}
  {tuple : PartitionTuple} {tuples : List PartitionTuple} {i : ℕ}

theorem updateAll_eq_ok (h : updateAll tuple ss = .ok ss') {s : PartitionFieldStats} (hs : ss[i]? = some s) :
    ∃ v s', tuple[i]? = some v ∧ ss'[i]? = some s' ∧ s.update v = .ok s' := by
  induction tuple generalizing ss ss' i with
  | nil =>
      cases ss with
      | nil => cases hs
      | cons s₀ ss => cases h
  | cons v vs ih =>
      cases ss with
      | nil => cases h
      | cons s₀ ss =>
          obtain ⟨s₁, hs₁, hrest⟩ := Checked.bind_eq_ok h
          obtain ⟨ss₁, hss₁, hok⟩ := Checked.bind_eq_ok hrest
          cases hok
          cases i with
          | zero =>
              cases hs
              exact ⟨v, s₁, rfl, rfl, hs₁⟩
          | succ i => exact ih hss₁ hs

theorem TracksAll.updateAll (hss : TracksAll types seen ss) (h : updateAll tuple ss = .ok ss') :
    TracksAll types (fun i v => seen i v ∨ tuple[i]? = some v) ss' := by
  intro i t ht
  obtain ⟨s, hs, htracks⟩ := hss i t ht
  obtain ⟨v, s', hv, hs', hupdate⟩ := updateAll_eq_ok h hs
  refine ⟨s', hs', ?_⟩
  have hseen : (fun u => seen i u ∨ tuple[i]? = some u) = fun u => seen i u ∨ u = v := by
    funext u
    rw [hv, Option.some_inj, @eq_comm _ v u]
  show s'.Tracks t fun u => seen i u ∨ tuple[i]? = some u
  rw [hseen]
  exact htracks.update hupdate

/-- **All updates.**  Every tuple has a value for each field. -/
theorem TracksAll.updates (hss : TracksAll types seen ss)
    (h : tuples.foldlM (fun ss tuple => Scan.updateAll tuple ss) ss = .ok ss') :
    TracksAll types (fun i v => seen i v ∨ ∃ tuple ∈ tuples, tuple[i]? = some v) ss' ∧
      ∀ tuple ∈ tuples, ∀ (i : ℕ) (t : PrimitiveType), types[i]? = some t → ∃ v, tuple[i]? = some v := by
  induction tuples generalizing ss seen with
  | nil =>
      cases h
      refine ⟨?_, fun tuple hmem => nomatch hmem⟩
      intro i t ht
      obtain ⟨s, hs, htracks⟩ := hss i t ht
      exact ⟨s, hs, by simpa using htracks⟩
  | cons tuple tuples ih =>
      rw [List.foldlM_cons] at h
      obtain ⟨ss₁, hss₁, hrest⟩ := Checked.bind_eq_ok h
      obtain ⟨hall, hvalues⟩ := ih (hss.updateAll hss₁) hrest
      constructor
      · intro i t ht
        obtain ⟨s, hs, htracks⟩ := hall i t ht
        refine ⟨s, hs, ?_⟩
        simpa only [List.exists_mem_cons_iff, or_assoc] using htracks
      · intro tuple' hmem i t ht
        rcases List.mem_cons.mp hmem with rfl | hmem
        · obtain ⟨s, hs, -⟩ := hss i t ht
          obtain ⟨v, -, hv, -⟩ := updateAll_eq_ok hss₁ hs
          exact ⟨v, hv⟩
        · exact hvalues tuple' hmem i t ht

/-- **The summaries that are written of a list of tuples are right about each of them.** -/
theorem covers_constructPartitionSummaries {floats : FloatBytes} {summaries : List FieldSummary}
    (h : constructPartitionSummaries floats types tuples = .ok summaries)
    (hstorable : ∀ tuple ∈ tuples, ∀ d, some d ∈ tuple → Datum.Storable floats d) (hmem : tuple ∈ tuples)
    {t : PrimitiveType} (ht : types[i]? = some t) :
    ∃ (v : Option Datum) (s : FieldSummary), tuple[i]? = some v ∧ summaries[i]? = some s ∧ s.Covers floats t v := by
  obtain ⟨stats, hstats, hsummaries⟩ := Checked.bind_eq_ok h
  have hnew : TracksAll types (fun _ _ => False) (types.map PartitionFieldStats.new) := by
    intro i t ht
    exact ⟨.new t, by rw [List.getElem?_map, ht]; rfl, PartitionFieldStats.tracks_new t⟩
  obtain ⟨hall, hvalues⟩ := hnew.updates hstats
  obtain ⟨v, hv⟩ := hvalues tuple hmem i t ht
  obtain ⟨stat, hstat, htracks⟩ := hall i t ht
  obtain ⟨s, hs, hfinish⟩ := Checked.mapM_getElem? hsummaries hstat
  refine ⟨v, s, hv, hs, htracks.finish ?_ hfinish (.inr ⟨tuple, hmem, hv⟩)⟩
  rintro d (hd | ⟨tuple', hmem', hd⟩)
  · exact hd.elim
  · exact hstorable tuple' hmem' d (List.mem_of_getElem? hd)

end

end IcebergDb.Scan
