import IcebergDb.Expr.Predicate
import Mathlib.Data.Finset.Max

/-!
# Membership in a set of integers

`PredicateConverter::in` on a column that is stored as integers: the single pass over raw integers, and the
loop that casts each literal to the type of the column first.

* `IntegerType` and `DataType` — the Iceberg types whose literals are integers, and the Arrow types that a data
  file may have for them; `Cast` is what Arrow does with time zones;
* `integerArrayIsIn` — the single pass, and `inFallback` — the loop;
* `Filter` — a row filter without negation around either of them;
* `UnitsCoincide` — casting does not change the literals, as far as a column can tell;
* `integerIn_agrees_iff` — **both select the same rows of every column exactly when the units coincide.**
-/

namespace IcebergDb.Expr

open IcebergDb.Kleene

/-! ### Types -/

/-- The Iceberg types whose literals are held as `Int` or `Long`. -/
inductive IntegerType where
  | int
  | long
  | date
  | time
  | timestamp
  | timestamptz
  | timestampNs
  | timestamptzNs

/-- `TimeUnit`. -/
inductive TimeUnit where
  | second
  | millisecond
  | microsecond
  | nanosecond
deriving DecidableEq

/-- `time_unit_multiple`: how many make a second. -/
def TimeUnit.multiple : TimeUnit → ℤ
  | .second => 1
  | .millisecond => 1000
  | .microsecond => 1000000
  | .nanosecond => 1000000000

/-- The Arrow types over integers. -/
inductive DataType where
  | int8
  | int16
  | int32
  | int64
  | uint8
  | uint16
  | uint32
  | date32
  | time64 (unit : TimeUnit)
  | timestamp (unit : TimeUnit) (tz : Option String)
deriving DecidableEq

/-- The first integer of a type, and the first one past it. -/
def DataType.bounds : DataType → ℤ × ℤ
  | .int8 => (-2 ^ 7, 2 ^ 7)
  | .int16 => (-2 ^ 15, 2 ^ 15)
  | .int32 | .date32 => (-2 ^ 31, 2 ^ 31)
  | .int64 | .time64 _ | .timestamp _ _ => (-2 ^ 63, 2 ^ 63)
  | .uint8 => (0, 2 ^ 8)
  | .uint16 => (0, 2 ^ 16)
  | .uint32 => (0, 2 ^ 32)

/-- An integer of the type. -/
def DataType.Holds (ty : DataType) (v : ℤ) : Prop := ty.bounds.1 ≤ v ∧ v < ty.bounds.2

instance (ty : DataType) (v : ℤ) : Decidable (ty.Holds v) := inferInstanceAs (Decidable (_ ∧ _))

/-- The integer, or NULL if the type does not hold it. -/
def DataType.keep (ty : DataType) (v : ℤ) : Option ℤ := if ty.Holds v then some v else none

theorem DataType.keep_eq_some {ty : DataType} {v w : ℤ} : ty.keep v = some w ↔ ty.Holds v ∧ v = w := by
  unfold keep
  split <;> simp_all

theorem DataType.isSome_keep {ty : DataType} {v : ℤ} : (ty.keep v).isSome = true ↔ ty.Holds v := by
  unfold keep
  split <;> simp_all

/-- Plain integers. -/
def DataType.isInteger : DataType → Bool
  | .date32 | .time64 _ | .timestamp _ _ => false
  | _ => true

namespace IntegerType

/-- The Arrow type that `get_arrow_datum` gives a literal. -/
def arrowType : IntegerType → Option DataType
  | int => some .int32
  | long => some .int64
  | date => some .date32
  | time => none
  | timestamp => some (.timestamp .microsecond none)
  | timestamptz => some (.timestamp .microsecond (some "+00:00"))
  | timestampNs => some (.timestamp .nanosecond none)
  | timestamptzNs => some (.timestamp .nanosecond (some "+00:00"))

/-- The literals of the type: an `Int` or a `Long`. -/
def HasLiteral : IntegerType → ℤ → Prop
  | int, v | date, v => DataType.int32.Holds v
  | _, v => DataType.int64.Holds v

/-- A data file may have the Arrow type for a column of the Iceberg type. -/
def StoredAs : IntegerType → DataType → Prop
  | int, ty | long, ty => ty.isInteger = true
  | date, ty => ty = .date32
  | time, ty => ∃ unit, ty = .time64 unit
  | _, ty => ∃ unit tz, ty = .timestamp unit tz

end IntegerType

/-! ### Casts -/

/-- What Arrow knows about time zones: whether a name is one, and the instant that has a given local time
there, if it can be represented. -/
structure Cast where
  zoneKnown : String → Bool
  adjust : TimeUnit → String → ℤ → Option ℤ
  adjust_holds : ∀ unit zone v w, adjust unit zone v = some w → DataType.int64.Holds w

/-- The rescaling of a timestamp: towards zero, and NULL on overflow. -/
def rescale (unit unit' : TimeUnit) (v : ℤ) : Option ℤ :=
  if unit'.multiple < unit.multiple then some (v.tdiv (unit.multiple / unit'.multiple))
  else if unit.multiple = unit'.multiple then some v
  else DataType.int64.keep (v * (unit'.multiple / unit.multiple))

/-- `cast` of one timestamp.  Without a zone it is a local time. -/
def Cast.timestamp (C : Cast) (unit : TimeUnit) (tz : Option String) (unit' : TimeUnit)
    (tz' : Option String) (v : ℤ) : Except String (Option ℤ) :=
  match tz, tz' with
  | none, some zone =>
      if C.zoneKnown zone then .ok ((rescale unit unit' v).bind (C.adjust unit' zone))
      else .error "invalid timezone"
  | _, _ => .ok (rescale unit unit' v)

/-- `try_cast_literal`; `none` is NULL. -/
def Cast.tryCastLiteral (C : Cast) (literalType columnType : DataType) (v : ℤ) : Except String (Option ℤ) :=
  if literalType = columnType then .ok (some v)
  else
    match literalType, columnType with
    | .timestamp unit tz, .timestamp unit' tz' => C.timestamp unit tz unit' tz' v
    | _, _ =>
        if literalType.isInteger && columnType.isInteger then
          .ok (columnType.keep v)
        else .error "cast not supported"

/-! ### The two paths -/

/-- A column of `n` rows. -/
abbrev IntColumn (n : ℕ) := Fin n → Option ℤ

/-- A `BooleanArray`. -/
abbrev BooleanArray (n : ℕ) := Fin n → Option Bool

/-- `integer_array_is_in`: a NULL is no member. -/
def integerArrayIsIn {n : ℕ} (set : List ℤ) (array : IntColumn n) : Except String (BooleanArray n) :=
  .ok fun i =>
    match array i with
    | some x => some (decide (x ∈ set))
    | none => some false

/-- The kernel `or`: NULL if either side is. -/
def orCell : Option Bool → Option Bool → Option Bool
  | some a, some b => some (a || b)
  | _, _ => none

/-- The kernel `eq`. -/
def eqCell : Option ℤ → Option ℤ → Option Bool
  | some x, some v => some (decide (x = v))
  | _, _ => none

/-- The loop over the literals. -/
def orEqualities {n : ℕ} (C : Cast) (literalType columnType : DataType) (array : IntColumn n) :
    List ℤ → BooleanArray n → Except String (BooleanArray n)
  | [], acc => .ok acc
  | l :: ls, acc =>
      match C.tryCastLiteral literalType columnType l with
      | .error e => .error e
      | .ok literal =>
          orEqualities C literalType columnType array ls fun i => orCell (acc i) (eqCell (array i) literal)

/-- The fallback of `in`.  A literal without an Arrow counterpart makes it panic. -/
def inFallback {n : ℕ} (C : Cast) (ty : IntegerType) (columnType : DataType) (literals : List ℤ)
    (array : IntColumn n) : Except String (BooleanArray n) :=
  match ty.arrowType with
  | some literalType => orEqualities C literalType columnType array literals fun _ => some false
  | none => if literals.isEmpty then .ok fun _ => some false else .error "unwrap on an error"

/-- A row filter without negation: the membership test, other tests with any answer, and the Kleene
connectives. -/
inductive Filter (n : ℕ) where
  | isIn
  | other (answer : Except String (BooleanArray n))
  | and (left right : Filter n)
  | or (left right : Filter n)

/-- `and` and `or` of the visitor. -/
def joinAnswers {n : ℕ} (f : Option Bool → Option Bool → Option Bool)
    (left right : Except String (BooleanArray n)) : Except String (BooleanArray n) :=
  match left, right with
  | .error e, _ => .error e
  | .ok _, .error e => .error e
  | .ok a, .ok b => .ok fun i => f (a i) (b i)

/-- The answer of a filter by that of its membership tests. -/
def Filter.eval {n : ℕ} (answer : Except String (BooleanArray n)) : Filter n → Except String (BooleanArray n)
  | isIn => answer
  | other a => a
  | and l r => joinAnswers kand (l.eval answer) (r.eval answer)
  | or l r => joinAnswers kor (l.eval answer) (r.eval answer)

/-- Where the fallback answers, the fast path answers too and selects the same rows. -/
def Agrees {n : ℕ} (fallback fast : Except String (BooleanArray n)) : Prop :=
  ∀ rows, fallback = .ok rows → ∃ rows', fast = .ok rows' ∧ ∀ i, rows' i = some true ↔ rows i = some true

/-- The units of the literals and of the column coincide, as far as these literals tell. -/
def UnitsCoincide (C : Cast) (ty : IntegerType) (columnType : DataType) (literals : List ℤ) : Prop :=
  match ty.arrowType, columnType with
  | none, _ => True
  | some .date32, _ => True
  | some (.timestamp unit none), .timestamp unit' (some zone) =>
      C.zoneKnown zone = false ∨
        ((∀ l ∈ literals, ∃ m ∈ literals, (rescale unit unit' l).bind (C.adjust unit' zone) = some m) ∧
          ∀ m ∈ literals, ∃ l ∈ literals, (rescale unit unit' l).bind (C.adjust unit' zone) = some m)
  | some (.timestamp unit _), .timestamp unit' _ => unit = unit' ∨ ∀ l ∈ literals, l = 0
  | some _, columnType =>
      (∀ l ∈ literals, columnType.Holds l) ∨ ∀ l ∈ literals, ¬ columnType.Holds l

/-! ### Filters -/

section

variable {n : ℕ}

/-- The connectives hand agreement on: what is TRUE does not depend on FALSE or NULL elsewhere. -/
theorem agrees_joinAnswers {f : Option Bool → Option Bool → Option Bool}
    (hf : ∀ a b a' b', (a' = some true ↔ a = some true) → (b' = some true ↔ b = some true) →
      (f a' b' = some true ↔ f a b = some true))
    {l l' r r' : Except String (BooleanArray n)} (hl : Agrees l l') (hr : Agrees r r') :
    Agrees (joinAnswers f l r) (joinAnswers f l' r') := by
  intro rows hrows
  cases l with
  | error e => cases hrows
  | ok a =>
      cases r with
      | error e => cases hrows
      | ok b =>
          obtain rfl := Except.ok.inj hrows
          obtain ⟨a', rfl, ha⟩ := hl a rfl
          obtain ⟨b', rfl, hb⟩ := hr b rfl
          exact ⟨_, rfl, fun i => hf _ _ _ _ (ha i) (hb i)⟩

theorem Agrees.filter {fallback fast : Except String (BooleanArray n)} (h : Agrees fallback fast)
    (filter : Filter n) : Agrees (filter.eval fallback) (filter.eval fast) := by
  induction filter with
  | isIn => exact h
  | other a => exact fun rows hrows => ⟨rows, hrows, fun i => Iff.rfl⟩
  | and l r ihl ihr =>
      refine agrees_joinAnswers ?_ ihl ihr
      intro a b a' b' ha hb
      rw [kand_eq_true, kand_eq_true, ha, hb]
  | or l r ihl ihr =>
      refine agrees_joinAnswers ?_ ihl ihr
      intro a b a' b' ha hb
      rw [kor_eq_true, kor_eq_true, ha, hb]

end

/-! ### The loop over the literals -/

@[simp] theorem orCell_none_right (a : Option Bool) : orCell a none = none := by
  cases a <;> rfl

@[simp] theorem eqCell_none_right (cell : Option ℤ) : eqCell cell none = none := by
  cases cell <;> rfl

theorem foldl_orCell_none (f : ℤ → Option Bool) (ls : List ℤ) :
    ls.foldl (fun a l => orCell a (f l)) none = none := by
  induction ls with
  | nil => rfl
  | cons l ls ih => exact ih

/-- A row is selected by the loop when it equals some literal and no literal is NULL. -/
theorem foldl_orCell_eq_true {cast : ℤ → Option ℤ} {cell : Option ℤ} (ls : List ℤ) : ∀ b : Bool,
    ls.foldl (fun a l => orCell a (eqCell cell (cast l))) (some b) = some true ↔
      (∀ l ∈ ls, cell.isSome = true ∧ (cast l).isSome = true) ∧
        (b = true ∨ ∃ l ∈ ls, ∃ x, cell = some x ∧ cast l = some x) := by
  induction ls with
  | nil => simp
  | cons l ls ih =>
      intro b
      rw [List.foldl_cons]
      cases cell with
      | none =>
          show ls.foldl _ none = some true ↔ _
          rw [foldl_orCell_none]
          refine ⟨nofun, fun h => ?_⟩
          cases (h.1 l List.mem_cons_self).1
      | some x =>
          cases hl : cast l with
          | none =>
              rw [eqCell_none_right, orCell_none_right, foldl_orCell_none]
              refine ⟨nofun, fun h => ?_⟩
              have hsome := (h.1 l List.mem_cons_self).2
              rw [hl] at hsome
              cases hsome
          | some v =>
              show ls.foldl _ (some (b || decide (x = v))) = some true ↔ _
              rw [ih]
              simp [hl, or_assoc, @eq_comm _ v x]

/-- The loop where every cast succeeds. -/
theorem orEqualities_of_ok {n : ℕ} {C : Cast} {literalType columnType : DataType} {array : IntColumn n}
    {cast : ℤ → Option ℤ} {ls : List ℤ}
    (hcast : ∀ l ∈ ls, C.tryCastLiteral literalType columnType l = .ok (cast l)) :
    ∀ acc : BooleanArray n, orEqualities C literalType columnType array ls acc =
      .ok fun i => ls.foldl (fun a l => orCell a (eqCell (array i) (cast l))) (acc i) := by
  induction ls with
  | nil => exact fun _ => rfl
  | cons l ls ih =>
      intro acc
      rw [orEqualities, hcast l List.mem_cons_self]
      exact ih (fun m hm => hcast m (List.mem_cons_of_mem l hm)) _

/-! ### Agreement on every column -/

/-- The fast path and the fallback agree under every filter on every column of the type. -/
def AgreeOnColumns (C : Cast) (ty : IntegerType) (columnType : DataType) (literals : List ℤ) : Prop :=
  ∀ (n : ℕ) (array : IntColumn n), (∀ i, ∀ x ∈ array i, columnType.Holds x) → ∀ filter : Filter n,
    Agrees (filter.eval (inFallback C ty columnType literals array))
      (filter.eval (integerArrayIsIn literals array))

/-- Casting the literals changes no answer about an integer of the column. -/
def CastsToItself (cast : ℤ → Option ℤ) (columnType : DataType) (literals : List ℤ) : Prop :=
  ∀ x, columnType.Holds x →
    (x ∈ literals ↔ (∀ l ∈ literals, (cast l).isSome = true) ∧ ∃ l ∈ literals, cast l = some x)

section

variable {C : Cast} {ty : IntegerType} {literalType columnType : DataType} {literals : List ℤ}

/-- A fallback that fails agrees with everything. -/
theorem agreeOnColumns_of_error (h : ∀ (n : ℕ) (array : IntColumn n), ∃ e,
    inFallback C ty columnType literals array = .error e) : AgreeOnColumns C ty columnType literals := by
  intro n array _ filter
  refine Agrees.filter ?_ filter
  obtain ⟨e, he⟩ := h n array
  rw [he]
  intro rows hrows
  cases hrows

/-- Without literals nothing is selected. -/
theorem agreeOnColumns_nil (hliterals : literals = []) : AgreeOnColumns C ty columnType literals := by
  intro n array _ filter
  refine Agrees.filter ?_ filter
  subst hliterals
  have hfallback : inFallback C ty columnType [] array = .ok fun _ => some false := by
    unfold inFallback
    split <;> rfl
  rw [hfallback]
  intro rows hrows
  obtain rfl := Except.ok.inj hrows
  refine ⟨_, rfl, fun i => ?_⟩
  cases array i <;> simp

/-- **Where every cast succeeds, the paths agree exactly when casting changes no answer.** -/
theorem agreeOnColumns_iff (cast : ℤ → Option ℤ) (hliteral : ty.arrowType = some literalType)
    (hcast : ∀ l ∈ literals, C.tryCastLiteral literalType columnType l = .ok (cast l)) :
    AgreeOnColumns C ty columnType literals ↔ CastsToItself cast columnType literals := by
  have hfallback : ∀ {n : ℕ} (array : IntColumn n), inFallback C ty columnType literals array =
      .ok fun i => literals.foldl (fun a l => orCell a (eqCell (array i) (cast l))) (some false) := by
    intro n array
    rw [inFallback, hliteral]
    exact orEqualities_of_ok hcast _
  constructor
  · intro h x hx
    -- a column of the one row `x`
    obtain ⟨rows, hrows, hsame⟩ := h 1 (fun _ => some x)
      (fun _ y hy => Option.some.inj hy ▸ hx) .isIn _ (hfallback _)
    obtain rfl := Except.ok.inj hrows
    have hrow := hsame 0
    rw [foldl_orCell_eq_true] at hrow
    simpa using hrow
  · intro h n array hholds filter
    refine Agrees.filter ?_ filter
    intro rows hrows
    rw [hfallback] at hrows
    obtain rfl := Except.ok.inj hrows
    refine ⟨_, rfl, fun i => ?_⟩
    rw [foldl_orCell_eq_true]
    cases hcell : array i with
    | none =>
        simp
    | some x =>
        have hx := h x (hholds i x hcell)
        simp only [Option.some.injEq, decide_eq_true_eq, Option.isSome_some, true_and, Bool.false_eq_true,
          false_or, exists_eq_left']
        exact hx

/-! ### Casts of integers -/

/-- A cast that keeps the literals that fit keeps all answers when all fit or none does. -/
theorem castsToItself_integer : CastsToItself columnType.keep columnType literals ↔
    (∀ l ∈ literals, columnType.Holds l) ∨ ∀ l ∈ literals, ¬ columnType.Holds l := by
  unfold CastsToItself
  simp only [DataType.isSome_keep, DataType.keep_eq_some]
  constructor
  · intro h
    by_cases hsome : ∃ l ∈ literals, columnType.Holds l
    · obtain ⟨l, hl, hholds⟩ := hsome
      exact .inl ((h l hholds).mp hl).1
    · exact .inr fun l hl hholds => hsome ⟨l, hl, hholds⟩
  · intro h x hx
    constructor
    · intro hmem
      refine ⟨?_, x, hmem, hx, rfl⟩
      rcases h with hall | hnone
      · exact hall
      · exact absurd hx (hnone x hmem)
    · rintro ⟨-, l, hl, -, rfl⟩
      exact hl

/-! ### Casts of timestamps -/

theorem castsToItself_some : CastsToItself some columnType literals := by
  intro x _
  simp

/-- The literals other than zero reach furthest somewhere. -/
theorem exists_furthest (h : ¬ ∀ l ∈ literals, l = 0) :
    ∃ l ∈ literals, l ≠ 0 ∧ ∀ m ∈ literals, m.natAbs ≤ l.natAbs := by
  push Not at h
  obtain ⟨z, hz, hne⟩ := h
  obtain ⟨l, hl, hmax⟩ := literals.toFinset.exists_max_image Int.natAbs ⟨z, List.mem_toFinset.mpr hz⟩
  refine ⟨l, List.mem_toFinset.mp hl, ?_, fun m hm => hmax m (List.mem_toFinset.mpr hm)⟩
  rintro rfl
  have := hmax z (List.mem_toFinset.mpr hz)
  omega

theorem rescale_self (unit : TimeUnit) (v : ℤ) : rescale unit unit v = some v := by
  rw [rescale, if_neg (lt_irrefl _), if_pos rfl]

theorem rescale_zero (unit unit' : TimeUnit) : rescale unit unit' 0 = some 0 := by
  cases unit <;> cases unit' <;> decide

/-- To a finer unit, a timestamp is multiplied. -/
theorem rescale_of_lt {unit unit' : TimeUnit} (h : unit.multiple < unit'.multiple) :
    ∃ k : ℤ, 2 ≤ k ∧ ∀ v, rescale unit unit' v = DataType.int64.keep (v * k) := by
  refine ⟨unit'.multiple / unit.multiple, ?_, fun v => ?_⟩
  · revert h
    cases unit <;> cases unit' <;> decide
  · rw [rescale, if_neg (not_lt.mpr (le_of_lt h)), if_neg (ne_of_lt h)]

/-- To a coarser unit, it is divided. -/
theorem rescale_of_gt {unit unit' : TimeUnit} (h : unit'.multiple < unit.multiple) :
    ∃ k : ℤ, 2 ≤ k ∧ ∀ v, rescale unit unit' v = some (v.tdiv k) := by
  refine ⟨unit.multiple / unit'.multiple, ?_, fun v => ?_⟩
  · revert h
    cases unit <;> cases unit' <;> decide
  · rw [rescale, if_pos h]

theorem eq_of_multiple_eq {unit unit' : TimeUnit} (h : unit.multiple = unit'.multiple) : unit = unit' := by
  cases unit <;> cases unit' <;> first | rfl | (exact absurd h (by decide))

/-- **A change of unit moves every timestamp but zero**, so it keeps no other set. -/
theorem castsToItself_rescale (unit unit' : TimeUnit) (tz : Option String)
    (hholds : ∀ l ∈ literals, DataType.int64.Holds l) :
    CastsToItself (rescale unit unit') (.timestamp unit' tz) literals ↔
      unit = unit' ∨ ∀ l ∈ literals, l = 0 := by
  constructor
  · intro h
    by_cases hzero : ∀ l ∈ literals, l = 0
    · exact .inr hzero
    left
    obtain ⟨l, hl, hne, hmax⟩ := exists_furthest hzero
    obtain ⟨hsome, m, hm, hcast⟩ := (h l (hholds l hl)).mp hl
    rcases lt_trichotomy unit.multiple unit'.multiple with hlt | heq | hgt
    · -- the furthest literal is cast to an integer further out, which is a literal too
      obtain ⟨k, hk, hrescale⟩ := rescale_of_lt hlt
      have hfits : DataType.int64.Holds (l * k) := by
        have := hsome l hl
        rwa [hrescale, DataType.isSome_keep] at this
      have hmem : l * k ∈ literals := by
        refine (h (l * k) hfits).mpr ⟨hsome, l, hl, ?_⟩
        rw [hrescale, DataType.keep_eq_some]
        exact ⟨hfits, rfl⟩
      have hfar := hmax _ hmem
      rw [Int.natAbs_mul] at hfar
      have : l.natAbs * 2 ≤ l.natAbs * k.natAbs := Nat.mul_le_mul_left _ (by omega)
      omega
    · exact eq_of_multiple_eq heq
    · -- the furthest literal is the image of a literal further out
      obtain ⟨k, hk, hrescale⟩ := rescale_of_gt hgt
      rw [hrescale] at hcast
      have hfar := hmax m hm
      have hquotient : l.natAbs = m.natAbs / k.natAbs := by
        rw [← Option.some.inj hcast]
        exact Int.natAbs_tdiv m k
      have hpos : 0 < m.natAbs := by
        rcases Nat.eq_zero_or_pos m.natAbs with hm0 | hm0
        · rw [Int.natAbs_eq_zero] at hm0
          rw [hm0, Int.zero_tdiv] at hcast
          exact absurd (Option.some.inj hcast).symm hne
        · exact hm0
      have : m.natAbs / k.natAbs < m.natAbs := Nat.div_lt_self hpos (by omega)
      omega
  · rintro (rfl | hzero)
    · rw [funext (rescale_self unit)]
      exact castsToItself_some
    · intro x _
      constructor
      · intro hx
        refine ⟨fun l hl => by rw [hzero l hl, rescale_zero]; rfl, x, hx, ?_⟩
        rw [hzero x hx, rescale_zero]
      · rintro ⟨-, l, hl, hcast⟩
        rw [hzero l hl, rescale_zero] at hcast
        rw [← Option.some.inj hcast, ← hzero l hl]
        exact hl

/-- A cast into the type keeps all answers when it maps the literals onto themselves. -/
theorem castsToItself_iff_onto (columnType : DataType) {cast : ℤ → Option ℤ} (hholds : ∀ l ∈ literals, columnType.Holds l)
    (hcast : ∀ l w, cast l = some w → columnType.Holds w) :
    CastsToItself cast columnType literals ↔
      (∀ l ∈ literals, ∃ m ∈ literals, cast l = some m) ∧ ∀ m ∈ literals, ∃ l ∈ literals, cast l = some m := by
  constructor
  · intro h
    refine ⟨fun l hl => ?_, fun m hm => ((h m (hholds m hm)).mp hm).2⟩
    obtain ⟨w, hw⟩ := Option.isSome_iff_exists.mp (((h l (hholds l hl)).mp hl).1 l hl)
    have hsome := ((h l (hholds l hl)).mp hl).1
    exact ⟨w, (h w (hcast l w hw)).mpr ⟨hsome, l, hl, hw⟩, hw⟩
  · rintro ⟨hinto, honto⟩ x _
    constructor
    · intro hx
      refine ⟨fun l hl => ?_, honto x hx⟩
      obtain ⟨m, -, hm⟩ := hinto l hl
      rw [hm]
      rfl
    · rintro ⟨-, l, hl, hx⟩
      obtain ⟨m, hm, hlm⟩ := hinto l hl
      rw [hlm] at hx
      exact Option.some.inj hx ▸ hm

end

/-! ### The types one by one -/

section

variable {C : Cast} {columnType : DataType} {literals : List ℤ}

/-- Integers, and any literal type that holds the literals. -/
theorem agreeOnColumns_integer {ty : IntegerType} {literalType : DataType}
    (hliteral : ty.arrowType = some literalType) (hint : literalType.isInteger = true)
    (hcolumn : columnType.isInteger = true) (hholds : ∀ l ∈ literals, literalType.Holds l) :
    AgreeOnColumns C ty columnType literals ↔
      (∀ l ∈ literals, columnType.Holds l) ∨ ∀ l ∈ literals, ¬ columnType.Holds l := by
  rw [← castsToItself_integer]
  refine agreeOnColumns_iff _ hliteral fun l hl => ?_
  unfold Cast.tryCastLiteral
  split
  · rename_i heq
    subst heq
    rw [DataType.keep, if_pos (hholds l hl)]
  · have hboth : (literalType.isInteger && columnType.isInteger) = true := by rw [hint, hcolumn]; rfl
    split
    · cases hint
    · rw [if_pos hboth]

/-- Timestamps of two units. -/
theorem agreeOnColumns_timestamp {ty : IntegerType} {unit : TimeUnit} (unit' : TimeUnit)
    {tz : Option String} (tz' : Option String) (hliteral : ty.arrowType = some (.timestamp unit tz))
    (hzone : tz.isSome = true ∨ tz' = none) (hholds : ∀ l ∈ literals, DataType.int64.Holds l) :
    AgreeOnColumns C ty (.timestamp unit' tz') literals ↔ unit = unit' ∨ ∀ l ∈ literals, l = 0 := by
  rw [← castsToItself_rescale unit unit' tz' hholds]
  refine agreeOnColumns_iff _ hliteral fun l _ => ?_
  unfold Cast.tryCastLiteral
  split
  · rename_i heq
    obtain ⟨rfl, -⟩ := DataType.timestamp.inj heq
    rw [rescale_self]
  · show C.timestamp unit tz unit' tz' l = _
    unfold Cast.timestamp
    split
    · rcases hzone with hzone | hzone <;> cases hzone
    · rfl

/-- Local times as literals, instants in the column. -/
theorem agreeOnColumns_zone {ty : IntegerType} {unit unit' : TimeUnit} {zone : String}
    (hliteral : ty.arrowType = some (.timestamp unit none))
    (hholds : ∀ l ∈ literals, DataType.int64.Holds l) :
    AgreeOnColumns C ty (.timestamp unit' (some zone)) literals ↔
      C.zoneKnown zone = false ∨
        ((∀ l ∈ literals, ∃ m ∈ literals, (rescale unit unit' l).bind (C.adjust unit' zone) = some m) ∧
          ∀ m ∈ literals, ∃ l ∈ literals, (rescale unit unit' l).bind (C.adjust unit' zone) = some m) := by
  have hne : DataType.timestamp unit none ≠ .timestamp unit' (some zone) := by simp
  cases hknown : C.zoneKnown zone with
  | false =>
      refine ⟨fun _ => .inl rfl, fun _ => ?_⟩
      rcases literals with _ | ⟨l, ls⟩
      · exact agreeOnColumns_nil rfl
      · refine agreeOnColumns_of_error fun n array => ⟨"invalid timezone", ?_⟩
        have hcast : C.tryCastLiteral (.timestamp unit none) (.timestamp unit' (some zone)) l =
            .error "invalid timezone" := by
          rw [Cast.tryCastLiteral, if_neg hne]
          show C.timestamp unit none unit' (some zone) l = _
          rw [Cast.timestamp, hknown]
          rfl
        rw [inFallback, hliteral]
        show orEqualities C _ _ array (l :: ls) _ = _
        rw [orEqualities, hcast]
  | true =>
      rw [← castsToItself_iff_onto (.timestamp unit' (some zone)) hholds ?_]
      · have hiff : AgreeOnColumns C ty (.timestamp unit' (some zone)) literals ↔
            CastsToItself (fun l => (rescale unit unit' l).bind (C.adjust unit' zone))
              (.timestamp unit' (some zone)) literals := by
          refine agreeOnColumns_iff _ hliteral fun l _ => ?_
          rw [Cast.tryCastLiteral, if_neg hne]
          show C.timestamp unit none unit' (some zone) l = _
          rw [Cast.timestamp, hknown]
          rfl
        rw [hiff]
        simp
      · intro l w hw
        obtain ⟨v, -, hv⟩ := Option.bind_eq_some_iff.mp hw
        exact C.adjust_holds _ _ _ _ hv

end

/-! ### Casts that make a difference -/

/-- The zones of a Parquet file: local time is UTC. -/
def utcCast : Cast where
  zoneKnown := fun zone => zone = "UTC" || zone = "+00:00"
  adjust := fun _ _ v => DataType.int64.keep v
  adjust_holds := fun _ _ v w h => by
    obtain ⟨hholds, rfl⟩ := DataType.keep_eq_some.mp h
    exact hholds

theorem native_integer (v : ℤ) : (Value.integer v).native = true := rfl

/-- The value of a raw integer of an Iceberg type. -/
def IntegerType.value : IntegerType → ℤ → NativeValue
  | .int, v | .long, v => ⟨.integer v, native_integer v⟩
  | .date, v => ⟨.date v, rfl⟩
  | .time, v => ⟨.time v, rfl⟩
  | .timestamp, v | .timestamptz, v => ⟨.micros v, rfl⟩
  | .timestampNs, v | .timestamptzNs, v => ⟨.nanos v, rfl⟩

/-- A literal of the type. -/
def IntegerType.datum : IntegerType → ℤ → Datum
  | .int, v => .int v
  | .long, v => .long v
  | .date, v => .date v
  | .time, v => .time v
  | .timestamp, v => .timestamp v
  | .timestamptz, v => .timestamptz v
  | .timestampNs, v => .timestampNs v
  | .timestamptzNs, v => .timestamptzNs v

/-- **In the units of the literals, the fast path is the membership test of the predicate.** -/
theorem evalIn_eq_fastPath {n : ℕ} (ty : IntegerType) (literals : List ℤ) (array : IntColumn n) :
    integerArrayIsIn literals array =
      .ok fun i => Predicate.evalIn ((array i).map ty.value) (literals.map ty.datum) := by
  have hinteger : (literals.map ty.datum).all Predicate.isIntegerLiteral = true := by
    rw [List.all_map, List.all_eq_true]
    intro l _
    cases ty <;> rfl
  have heq : ∀ x l : ℤ, (Predicate.eqTest (some (ty.value x)) (ty.datum l) == some true) = decide (x = l) := by
    intro x l
    have hvalue : (ty.datum l).value = (ty.value l).1 := by cases ty <;> rfl
    have hordering : (ty.value x).1.ordering (ty.value l).1 = some (lcmp x l) := by cases ty <;> rfl
    show (((ty.value x).1.ordering (ty.datum l).value).bind PredicateOperator.eq.test == some true) = _
    rw [hvalue, hordering]
    show (some (lcmp x l == .eq) == some true) = _
    by_cases hx : x = l
    · rw [(lcmp_eq_eq_iff x l).mpr hx, decide_eq_true hx]
      rfl
    · have hne : lcmp x l ≠ .eq := fun h => hx ((lcmp_eq_eq_iff x l).mp h)
      rw [beq_eq_false_iff_ne.mpr hne, decide_eq_false hx]
      rfl
  refine congrArg Except.ok (funext fun i => ?_)
  rw [Predicate.evalIn, if_pos hinteger, List.any_map]
  cases array i with
  | none => simp [Predicate.eqTest]
  | some x => simp [Function.comp_def, heq, List.any_eq]

end IcebergDb.Expr
