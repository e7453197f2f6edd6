import Mathlib.Data.String.Basic
import Mathlib.Data.List.Lex
import Mathlib.Order.Fin.Basic
import Mathlib.Data.Rat.Defs
import Mathlib.Algebra.Order.Ring.Rat
import Mathlib.Order.Compare
import Mathlib.Tactic.Common

/-!
# Values, Arrow scalars and Iceberg datums

Three vocabularies meet in the scan layer, and this file fixes all of them:

* `Value` — what a comparison kernel sees: a non-null value with its width forgotten.  NULL is the
  absent value, so a cell is an `Option Value`;
* `ScalarValue` — DataFusion's typed literals, one constructor per variant that
  `scalar_value_to_datum` names and one, `other`, for all the rest;
* `Datum` — Iceberg's typed literals.  The source checks the type/literal pair at construction; here
  an ill-typed pair cannot be written.

`scalarValueToDatum` is the one conversion between the last two, and `scalarValueToDatum_value` says
that it keeps the value, with the single exception of `Date64`.

Floats stand for their place in the IEEE total order that Arrow's kernels and `Datum` both compare by
(an `f32` for the place of its `f64` image, so that widening is the identity); the zeros and the NaNs,
which `OrderedFloat` identifies, are one value each.
-/

namespace IcebergDb.Expr

/-- Raw bytes. -/
abbrev Bytes := List (Fin 256)

/-- Comparison in a linear order. -/
def lcmp {α : Type} [LinearOrder α] (a b : α) : Ordering := cmp a b

theorem lcmp_swap {α : Type} [LinearOrder α] (a b : α) : (lcmp a b).swap = lcmp b a :=
  cmp_swap a b

@[simp] theorem lcmp_eq_eq_iff {α : Type} [LinearOrder α] (a b : α) : lcmp a b = .eq ↔ a = b :=
  cmp_eq_eq_iff a b

theorem lcmp_ne_gt_iff {α : Type} [LinearOrder α] (a b : α) : lcmp a b ≠ .gt ↔ a ≤ b := by
  rw [lcmp, ne_eq, cmp_eq_gt_iff, not_lt]

theorem lcmp_trans {α : Type} [LinearOrder α] {a b c : α} {o o' : Ordering}
    (h : some (lcmp a b) = some o) (ho : o ≠ .gt) (h' : some (lcmp b c) = some o') (ho' : o' ≠ .gt) :
    ∃ o'', some (lcmp a c) = some o'' ∧ o'' ≠ .gt := by
  obtain rfl := Option.some.inj h
  obtain rfl := Option.some.inj h'
  refine ⟨_, rfl, (lcmp_ne_gt_iff a c).mpr ?_⟩
  exact ((lcmp_ne_gt_iff a b).mp ho).trans ((lcmp_ne_gt_iff b c).mp ho')

/-- A non-null SQL value.  Integers of every width are one kind, as are timestamps with and without
a zone: DataFusion coerces the operands of a comparison to one type before the physical plan exists.
`foreign` holds a value of an Arrow type that no Iceberg column is read as. -/
inductive Value where
  | boolean (b : Bool)
  | integer (i : ℤ)
  | float (place : ℤ)
  | date (days : ℤ)
  | time (micros : ℤ)
  | micros (t : ℤ)
  | nanos (t : ℤ)
  | str (s : String)
  | bytes (b : Bytes)
  | uuid (u : ℕ)
  | decimal (q : ℚ)
  | foreign (arrowType : String) (payload : ℤ)
deriving DecidableEq

namespace Value

/-- The kinds that an Iceberg column can be read as. -/
def native : Value → Bool
  | .foreign _ _ => false
  | _ => true

/-- Comparison of two values of one kind; values of different kinds do not compare (Arrow refuses
such operands). -/
def ordering : Value → Value → Option Ordering
  | .boolean a, .boolean b => some (lcmp a b)
  | .integer a, .integer b => some (lcmp a b)
  | .float a, .float b => some (lcmp a b)
  | .date a, .date b => some (lcmp a b)
  | .time a, .time b => some (lcmp a b)
  | .micros a, .micros b => some (lcmp a b)
  | .nanos a, .nanos b => some (lcmp a b)
  | .str a, .str b => some (lcmp a b)
  | .bytes a, .bytes b => some (lcmp a b)
  | .uuid a, .uuid b => some (lcmp a b)
  | .decimal a, .decimal b => some (lcmp a b)
  | .foreign s a, .foreign t b => if s = t then some (lcmp a b) else none
  | _, _ => none

/-- Exchanging the operands swaps the outcome. -/
theorem ordering_swap (a b : Value) : ordering b a = (ordering a b).map Ordering.swap := by
  cases a <;> cases b <;> simp only [ordering, Option.map_none, Option.map_some, lcmp_swap]
  case foreign s x t y =>
    by_cases h : s = t
    · rw [if_pos h, if_pos h.symm, Option.map_some, lcmp_swap]
    · rw [if_neg h, if_neg (fun e => h e.symm), Option.map_none]

/-- The outcome is `eq` exactly on equal values. -/
theorem ordering_eq_iff (a b : Value) : ordering a b = some .eq ↔ a = b := by
  cases a <;> cases b <;> simp [ordering]

/-- "Not greater" is transitive. -/
theorem ordering_trans {a b c : Value} {o o' : Ordering} (h : ordering a b = some o) (ho : o ≠ .gt)
    (h' : ordering b c = some o') (ho' : o' ≠ .gt) : ∃ o'', ordering a c = some o'' ∧ o'' ≠ .gt := by
  cases a <;> cases b <;> simp only [ordering, reduceCtorEq] at h <;>
    cases c <;> simp only [ordering, reduceCtorEq] at h' ⊢
  case foreign s x t y u z =>
    split at h
    · rename_i hst
      split at h'
      · rename_i htu
        rw [if_pos (hst.trans htu)]
        exact lcmp_trans h ho h' ho'
      · cases h'
    · cases h
  all_goals exact lcmp_trans h ho h' ho'

/-- A native value never compares with a foreign one. -/
theorem ordering_native_foreign {a b : Value} (ha : a.native = true) (hb : b.native = false) :
    ordering a b = none := by
  cases b <;> simp only [native, reduceCtorEq] at hb
  cases a <;> simp only [native, reduceCtorEq] at ha <;> rfl

end Value

/-- A value read from an Iceberg column. -/
abbrev NativeValue := {v : Value // v.native = true}

/-! ### Arrow scalars -/

/-- DataFusion's typed literals.  Every variant carries an optional payload (a typed NULL is a
literal too); `other` stands for the variants that `scalar_value_to_datum` sends to `None`. -/
inductive ScalarValue where
  | boolean (v : Option Bool)
  | int8 (v : Option ℤ)
  | int16 (v : Option ℤ)
  | int32 (v : Option ℤ)
  | int64 (v : Option ℤ)
  | float32 (v : Option ℤ)
  | float64 (v : Option ℤ)
  | utf8 (v : Option String)
  | largeUtf8 (v : Option String)
  | binary (v : Option Bytes)
  | largeBinary (v : Option Bytes)
  | date32 (v : Option ℤ)
  | date64 (v : Option ℤ)
  | timestampMicrosecond (v : Option ℤ) (tz : Option String)
  | timestampNanosecond (v : Option ℤ) (tz : Option String)
  | other (arrowType : String) (v : Option ℤ)
deriving DecidableEq

/-- The value a scalar denotes, `none` for a typed NULL.  A `Date64` counts milliseconds and is
foreign to Iceberg, whose dates are read as `Date32`. -/
def ScalarValue.value : ScalarValue → Option Value
  | .boolean v => v.map .boolean
  | .int8 v | .int16 v | .int32 v | .int64 v => v.map .integer
  | .float32 v | .float64 v => v.map .float
  | .utf8 v | .largeUtf8 v => v.map .str
  | .binary v | .largeBinary v => v.map .bytes
  | .date32 v => v.map .date
  | .date64 v => v.map (.foreign "Date64")
  | .timestampMicrosecond v _ => v.map .micros
  | .timestampNanosecond v _ => v.map .nanos
  | .other t v => v.map (.foreign t)

/-! ### Iceberg datums -/

/-- Iceberg's literals, one constructor per primitive type. -/
inductive Datum where
  | boolean (v : Bool)
  | int (v : ℤ)
  | long (v : ℤ)
  | float (v : ℤ)
  | double (v : ℤ)
  | date (v : ℤ)
  | time (v : ℤ)
  | timestamp (v : ℤ)
  | timestamptz (v : ℤ)
  | timestampNs (v : ℤ)
  | timestamptzNs (v : ℤ)
  | string (v : String)
  | uuid (v : ℕ)
  | fixed (v : Bytes)
  | binary (v : Bytes)
  | decimal (mantissa : ℤ) (precision scale : ℕ)
deriving DecidableEq

/-- The value a datum denotes. -/
def Datum.value : Datum → Value
  | .boolean v => .boolean v
  | .int v | .long v => .integer v
  | .float v | .double v => .float v
  | .date v => .date v
  | .time v => .time v
  | .timestamp v | .timestamptz v => .micros v
  | .timestampNs v | .timestamptzNs v => .nanos v
  | .string v => .str v
  | .uuid v => .uuid v
  | .fixed v | .binary v => .bytes v
  | .decimal m _ s => .decimal (mkRat m (10 ^ s))

/-- `impl PartialOrd for Datum`: only datums of one primitive type compare. -/
def Datum.partialCmp : Datum → Datum → Option Ordering
  | .boolean a, .boolean b => some (lcmp a b)
  | .int a, .int b => some (lcmp a b)
  | .long a, .long b => some (lcmp a b)
  | .float a, .float b => some (lcmp a b)
  | .double a, .double b => some (lcmp a b)
  | .date a, .date b => some (lcmp a b)
  | .time a, .time b => some (lcmp a b)
  | .timestamp a, .timestamp b => some (lcmp a b)
  | .timestamptz a, .timestamptz b => some (lcmp a b)
  | .timestampNs a, .timestampNs b => some (lcmp a b)
  | .timestamptzNs a, .timestamptzNs b => some (lcmp a b)
  | .string a, .string b => some (lcmp a b)
  | .uuid a, .uuid b => some (lcmp a b)
  | .fixed a, .fixed b => some (lcmp a b)
  | .binary a, .binary b => some (lcmp a b)
  | .decimal m _ s, .decimal m' _ s' => some (lcmp (mkRat m (10 ^ s)) (mkRat m' (10 ^ s')))
  | _, _ => none

/-- Where `partial_cmp` answers, it compares the values. -/
theorem Datum.partialCmp_value {a b : Datum} {o : Ordering} (h : a.partialCmp b = some o) :
    a.value.ordering b.value = some o := by
  cases a <;> cases b <;> simp_all [Datum.partialCmp, Datum.value, Value.ordering]

/-- `MILLIS_PER_DAY`. -/
def millisPerDay : ℤ := 24 * 60 * 60 * 1000

/-- `v as i32`: two's complement truncation. -/
def asI32 (v : ℤ) : ℤ := v.bmod (2 ^ 32)

/-- `scalar_value_to_datum`. -/
def scalarValueToDatum : ScalarValue → Option Datum
  | .boolean (some v) => some (.boolean v)
  | .int8 (some v) => some (.int v)
  | .int16 (some v) => some (.int v)
  | .int32 (some v) => some (.int v)
  | .int64 (some v) => some (.long v)
  | .float32 (some v) => some (.double v)
  | .float64 (some v) => some (.double v)
  | .utf8 (some v) => some (.string v)
  | .largeUtf8 (some v) => some (.string v)
  | .binary (some v) => some (.binary v)
  | .largeBinary (some v) => some (.binary v)
  | .date32 (some v) => some (.date v)
  | .date64 (some v) => some (.date (asI32 (v.tdiv millisPerDay)))
  | .timestampMicrosecond (some v) _ => some (.timestamp v)
  | .timestampNanosecond (some v) _ => some (.timestampNs v)
  | _ => none

/-- The literals whose value the conversion changes: milliseconds become whole days. -/
def ScalarValue.isDate64 : ScalarValue → Bool
  | .date64 _ => true
  | _ => false

/-- **The conversion keeps the value** of every literal that is not a `Date64`. -/
theorem scalarValueToDatum_value {v : ScalarValue} {d : Datum} (h : scalarValueToDatum v = some d)
    (hv : v.isDate64 = false) : v.value = some d.value := by
  unfold scalarValueToDatum at h
  split at h <;> cases h <;> first | rfl | simp [ScalarValue.isDate64] at hv

/-- A `Date64` literal denotes a foreign value, so nothing read from a table compares with it. -/
theorem ScalarValue.value_of_isDate64 {v : ScalarValue} (hv : v.isDate64 = true) (x : Value)
    (hx : v.value = some x) : x.native = false := by
  cases v <;> simp_all [ScalarValue.isDate64, ScalarValue.value]
  obtain ⟨_, _, rfl⟩ := hx
  rfl

end IcebergDb.Expr
