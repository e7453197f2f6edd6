import IcebergDb.Foundation.TwosComplement
import IcebergDb.Foundation.Utf8Order
import IcebergDb.Scan.MetricsPruning
import Mathlib.Data.Nat.Log
import Mathlib.Tactic.NormNum

/-!
# Values as bytes

The bounds in manifests and manifest lists are bytes, which `Datum::to_bytes` writes and `Datum::try_from_bytes`
reads, possibly with the type that the column has been promoted to since.

* `Datum.toBytes`, `tryFromBytes` — the two functions, over the bytes of floats;
* `decimalRequiredBytes` — how many bytes a decimal may take;
* `Datum.Storable` — the number is one of its type;
* `Promotes` — the types that a column may be promoted to;
* `tryFromBytes_toBytes` — **what is written is read as the same value**, as the type it had or a wider one.
-/

namespace IcebergDb.Scan

open IcebergDb.Expr IcebergDb.TwosComplement

/-! ### Texts, floats and decimals -/

/-- The bytes of a text. -/
def textBytes (s : String) : Bytes := Utf8.octets s.toList

/-- `str::from_utf8`. -/
def textOfBytes (bs : Bytes) : Option String := (Utf8.fromUtf8 (bs.map UInt8.ofFin)).map String.ofList

theorem textOfBytes_textBytes (s : String) : textOfBytes (textBytes s) = some s := by
  have hmap : (Utf8.octets s.toList).map UInt8.ofFin = Utf8.bytes s.toList := by
    rw [Utf8.octets, List.map_map]
    exact List.map_id _
  rw [textOfBytes, textBytes, hmap, Utf8.fromUtf8_bytes]
  simp

/-- `to_le_bytes` and `from_le_bytes` of floats, which stand for their places. -/
structure FloatBytes where
  f32 : ℤ → Bytes
  f64 : ℤ → Bytes
  ofF32 : Bytes → ℤ
  ofF64 : Bytes → ℤ
  isF32 : ℤ → Prop
  isF64 : ℤ → Prop
  length_f32 : ∀ p, (f32 p).length = 4
  length_f64 : ∀ p, (f64 p).length = 8
  ofF32_f32 : ∀ p, isF32 p → ofF32 (f32 p) = p
  ofF64_f64 : ∀ p, isF64 p → ofF64 (f64 p) = p

/-- `MAX_PRECISION`. -/
def maxPrecision (bytes : ℕ) : ℕ := Nat.log 10 (2 ^ (8 * bytes - 1))

/-- `decimal_required_bytes`. -/
def decimalRequiredBytes (precision : ℕ) : Except VisitError ℕ :=
  if 0 < precision ∧ precision ≤ 38 then
    .ok (((List.range 24).find? fun j => precision ≤ maxPrecision (j + 1)).elim 0 (· + 1))
  else .error (.dataInvalid
    ("Decimals with precision larger than 38 are not supported: " ++ toString precision))

/-- `i128_to_be_bytes_min`. -/
def i128ToBeBytesMin (v : ℤ) : Bytes := trim (decide (v < 0)) (be 16 v)

theorem maxPrecision_sixteen : maxPrecision 16 = 38 := by
  rw [maxPrecision, Nat.log_eq_iff (.inl (by decide))]
  constructor
  · norm_num
  · norm_num

/-- The decimals of a precision fit into the bytes that it requires. -/
theorem decimalRequiredBytes_eq_ok {p : ℕ} (hp : 0 < p) (hp' : p ≤ 38) :
    ∃ n, decimalRequiredBytes p = .ok n ∧ 0 < n ∧ n ≤ 16 ∧ ∀ m : ℤ, m.natAbs < 10 ^ p → Fits n m := by
  have hsixteen : p ≤ maxPrecision (15 + 1) := maxPrecision_sixteen ▸ hp'
  cases hfind : (List.range 24).find? fun j => decide (p ≤ maxPrecision (j + 1)) with
  | none =>
      have hnot := List.find?_eq_none.mp hfind 15 (List.mem_range.mpr (by decide))
      exact absurd (decide_eq_true hsixteen) hnot
  | some j =>
      obtain ⟨hj, -, hfirst⟩ := List.find?_range_eq_some.mp hfind
      have hj15 : j ≤ 15 := by
        by_contra hlarge
        have hnot := hfirst 15 (by omega)
        rw [decide_eq_true hsixteen] at hnot
        cases hnot
      refine ⟨j + 1, ?_, by omega, by omega, ?_⟩
      · rw [decimalRequiredBytes, if_pos ⟨hp, hp'⟩, hfind]
        rfl
      · intro m hm
        have hle : 10 ^ p ≤ 2 ^ (8 * (j + 1) - 1) :=
          (Nat.pow_le_pow_right (by decide) (of_decide_eq_true hj)).trans
            (Nat.pow_log_le_self 10 (by positivity))
        have hpow : 2 ^ (8 * (j + 1) - 1) * 2 = 256 ^ (j + 1) := by
          rw [← pow_succ, show (256 : ℕ) = 2 ^ 8 from rfl, ← pow_mul]
          congr 1
        have hint : (256 : ℤ) ^ (j + 1) = ((2 ^ (8 * (j + 1) - 1) * 2 : ℕ) : ℤ) := by
          rw [hpow]
          push_cast
          rfl
        unfold Fits
        rw [hint]
        constructor <;> omega

/-! ### Writing and reading -/

/-- `from_le_bytes` of a signed integer. -/
def leInt (n : ℕ) (bs : Bytes) : Except VisitError ℤ :=
  if bs.length = n then .ok (signed bs.reverse) else .error .external

theorem leInt_be {n : ℕ} {v : ℤ} (hn : 0 < n) (hv : Fits n v) : leInt n (be n v).reverse = .ok v := by
  rw [leInt, List.length_reverse, length_be, if_pos rfl, List.reverse_reverse, signed_be hn hv]

section

variable (floats : FloatBytes)

/-- `Datum::to_bytes`. -/
def Datum.toBytes : Datum → Except VisitError Bytes
  | .boolean v => .ok [if v then 1 else 0]
  | .int v | .date v => .ok (be 4 v).reverse
  | .long v | .time v | .timestamp v | .timestamptz v | .timestampNs v | .timestamptzNs v =>
      .ok (be 8 v).reverse
  | .float v => .ok (floats.f32 v)
  | .double v => .ok (floats.f64 v)
  | .string v => .ok (textBytes v)
  | .uuid v => .ok (be 16 v)
  | .fixed v | .binary v => .ok v
  | .decimal m precision _ =>
      match decimalRequiredBytes precision with
      | .error _ => .error (.dataInvalid
          ("PrimitiveType Decimal must has valid precision but got " ++ toString precision))
      | .ok n => .ok ((i128ToBeBytesMin m).take n)

/-- `Datum::try_from_bytes`. -/
def tryFromBytes (bs : Bytes) : PrimitiveType → Except VisitError Datum
  | .boolean => .ok (.boolean !(bs == [0]))
  | .int => (leInt 4 bs).map .int
  | .long => (if bs.length = 4 then leInt 4 bs else leInt 8 bs).map .long
  | .float => if bs.length = 4 then .ok (.float (floats.ofF32 bs)) else .error .external
  | .double =>
      if bs.length = 4 then .ok (.double (floats.ofF32 bs))
      else if bs.length = 8 then .ok (.double (floats.ofF64 bs)) else .error .external
  | .date => (leInt 4 bs).map .date
  | .time => (leInt 8 bs).map .time
  | .timestamp => (leInt 8 bs).map .timestamp
  | .timestamptz => (leInt 8 bs).map .timestamptz
  | .timestampNs => (leInt 8 bs).map .timestampNs
  | .timestamptzNs => (leInt 8 bs).map .timestamptzNs
  | .string =>
      match textOfBytes bs with
      | some s => .ok (.string s)
      | none => .error .external
  | .uuid => if bs.length = 16 then .ok (.uuid (unsigned bs)) else .error .external
  | .fixed _ => .ok (.fixed bs)
  | .binary => .ok (.binary bs)
  | .decimal precision scale =>
      match i128FromBeBytes bs with
      | some m => .ok (.decimal m precision scale)
      | none => .error (.dataInvalid ("Can't convert bytes to i128: " ++ toString (bs.map Fin.val)))

/-- The number is one of its type. -/
def Datum.Storable : Datum → Prop
  | .int v | .date v => Fits 4 v
  | .long v | .time v | .timestamp v | .timestamptz v | .timestampNs v | .timestamptzNs v => Fits 8 v
  | .float v => floats.isF32 v
  | .double v => floats.isF64 v
  | .uuid v => v < 256 ^ 16
  | .decimal m precision _ => 0 < precision ∧ precision ≤ 38 ∧ m.natAbs < 10 ^ precision
  | .boolean _ | .string _ | .fixed _ | .binary _ => True

end

/-- The types that a column may be promoted to. -/
def Promotes : PrimitiveType → PrimitiveType → Prop
  | .int, .long => True
  | .float, .double => True
  | .decimal precision scale, .decimal precision' scale' => precision ≤ precision' ∧ scale = scale'
  | t, t' => t = t'

theorem Promotes.refl (t : PrimitiveType) : Promotes t t := by
  cases t with
  | decimal precision scale => exact ⟨le_rfl, rfl⟩
  | _ => rfl

/-- A value of a type is that of one datum. -/
theorem Datum.eq_of_value {a b : Datum} (htype : a.primitiveType = b.primitiveType) (h : a.value = b.value) :
    a = b := by
  cases a <;> cases b <;> simp only [Datum.primitiveType, Datum.value, reduceCtorEq] at htype h
  case decimal.decimal m p s m' p' s' =>
    obtain ⟨rfl, rfl⟩ := PrimitiveType.decimal.inj htype
    have hq := Value.decimal.inj h
    have hscale : (10 : ℕ) ^ s ≠ 0 := by positivity
    rw [Rat.mkRat_eq_iff hscale hscale] at hq
    rw [mul_right_cancel₀ (by exact_mod_cast hscale) hq]
  all_goals
    injection h with h
    rw [h]

section

variable {floats : FloatBytes} {d : Datum}

theorem i128FromBeBytes_min {m : ℤ} (hm : Fits 16 m) : i128FromBeBytes (i128ToBeBytesMin m) = some m := by
  have hlen := length_trim_le_length (decide (m < 0)) (be 16 m)
  rw [length_be] at hlen
  have hsigned : ∀ bs : Bytes, beSigned bs = signed bs := by
    intro bs
    cases bs <;> rfl
  rw [i128FromBeBytes, if_neg (by rw [i128ToBeBytesMin]; omega), hsigned, i128ToBeBytesMin, signed_trim,
    signed_be (by decide) hm]

/-- **What is written is read as the same value**, with the type it had or one that the column was promoted
to. -/
theorem tryFromBytes_toBytes (hd : Datum.Storable floats d) : ∃ bs, Datum.toBytes floats d = .ok bs ∧
    ∀ t, Promotes d.primitiveType t →
      ∃ e, tryFromBytes floats bs t = .ok e ∧ e.primitiveType = t ∧ e.value = d.value := by
  cases d with
  | boolean v =>
      refine ⟨_, rfl, fun t ht => ?_⟩
      obtain rfl : .boolean = t := ht
      refine ⟨.boolean v, ?_, rfl, rfl⟩
      cases v <;> rfl
  | int v =>
      refine ⟨_, rfl, fun t ht => ?_⟩
      cases t with
      | int => exact ⟨.int v, by rw [tryFromBytes, leInt_be (by decide) hd]; rfl, rfl, rfl⟩
      | long =>
          refine ⟨.long v, ?_, rfl, rfl⟩
          rw [tryFromBytes, if_pos (by rw [List.length_reverse, length_be]), leInt_be (by decide) hd]
          rfl
      | _ => cases ht
  | long v =>
      refine ⟨_, rfl, fun t ht => ?_⟩
      obtain rfl : .long = t := ht
      refine ⟨.long v, ?_, rfl, rfl⟩
      rw [tryFromBytes, if_neg (by rw [List.length_reverse, length_be]; decide), leInt_be (by decide) hd]
      rfl
  | float v =>
      refine ⟨_, rfl, fun t ht => ?_⟩
      have hlen := floats.length_f32 v
      cases t with
      | float => exact ⟨.float v, by rw [tryFromBytes, if_pos hlen, floats.ofF32_f32 v hd], rfl, rfl⟩
      | double => exact ⟨.double v, by rw [tryFromBytes, if_pos hlen, floats.ofF32_f32 v hd], rfl, rfl⟩
      | _ => cases ht
  | double v =>
      refine ⟨_, rfl, fun t ht => ?_⟩
      obtain rfl : .double = t := ht
      have hlen := floats.length_f64 v
      refine ⟨.double v, ?_, rfl, rfl⟩
      rw [tryFromBytes, if_neg (by omega), if_pos hlen, floats.ofF64_f64 v hd]
  | string v =>
      refine ⟨_, rfl, fun t ht => ?_⟩
      obtain rfl : .string = t := ht
      refine ⟨.string v, ?_, rfl, rfl⟩
      simp only [tryFromBytes, textOfBytes_textBytes]
  | uuid v =>
      refine ⟨_, rfl, fun t ht => ?_⟩
      obtain rfl : .uuid = t := ht
      have hread : unsigned (be 16 v) = v := by
        have hmod := unsigned_be 16 v
        have hsmall : (v : ℤ) < 256 ^ 16 := by exact_mod_cast (show v < 256 ^ 16 from hd)
        rw [Int.emod_eq_of_lt (Int.natCast_nonneg v) hsmall] at hmod
        exact_mod_cast hmod
      exact ⟨.uuid v, by rw [tryFromBytes, if_pos (length_be 16 v), hread], rfl, rfl⟩
  | fixed v =>
      refine ⟨_, rfl, fun t ht => ?_⟩
      obtain rfl : .fixed v.length = t := ht
      exact ⟨.fixed v, rfl, rfl, rfl⟩
  | binary v =>
      refine ⟨_, rfl, fun t ht => ?_⟩
      obtain rfl : .binary = t := ht
      exact ⟨.binary v, rfl, rfl, rfl⟩
  | decimal m precision scale =>
      obtain ⟨hpos, hle, hsmall⟩ := hd
      obtain ⟨n, hn, hn0, hn16, hfits⟩ := decimalRequiredBytes_eq_ok hpos hle
      have hm := hfits m hsmall
      have hm16 : Fits 16 m := by
        have hpow : (256 : ℤ) ^ n ≤ 256 ^ 16 := pow_le_pow_right₀ (by decide) hn16
        exact ⟨by linarith [hm.1], by linarith [hm.2]⟩
      have hlen : (i128ToBeBytesMin m).length ≤ n := by
        have hfull := signed_be (n := 16) (by decide) hm16
        have hsmall : Fits n (signed (be 16 m)) := hfull.symm ▸ hm
        have htrim := length_trim_le hn0 hsmall
        rwa [hfull] at htrim
      refine ⟨i128ToBeBytesMin m, ?_, fun t ht => ?_⟩
      · simp only [Datum.toBytes, hn, List.take_of_length_le hlen]
      · cases t with
        | decimal precision' scale' =>
            obtain ⟨-, rfl⟩ := ht
            exact ⟨.decimal m precision' scale, by simp only [tryFromBytes, i128FromBeBytes_min hm16], rfl, rfl⟩
        | _ => cases ht
  | date v =>
      refine ⟨_, rfl, fun t ht => ?_⟩
      obtain rfl : .date = t := ht
      exact ⟨.date v, by rw [tryFromBytes, leInt_be (by decide) hd]; rfl, rfl, rfl⟩
  | time v =>
      refine ⟨_, rfl, fun t ht => ?_⟩
      obtain rfl : .time = t := ht
      exact ⟨.time v, by rw [tryFromBytes, leInt_be (by decide) hd]; rfl, rfl, rfl⟩
  | timestamp v =>
      refine ⟨_, rfl, fun t ht => ?_⟩
      obtain rfl : .timestamp = t := ht
      exact ⟨.timestamp v, by rw [tryFromBytes, leInt_be (by decide) hd]; rfl, rfl, rfl⟩
  | timestamptz v =>
      refine ⟨_, rfl, fun t ht => ?_⟩
      obtain rfl : .timestamptz = t := ht
      exact ⟨.timestamptz v, by rw [tryFromBytes, leInt_be (by decide) hd]; rfl, rfl, rfl⟩
  | timestampNs v =>
      refine ⟨_, rfl, fun t ht => ?_⟩
      obtain rfl : .timestampNs = t := ht
      exact ⟨.timestampNs v, by rw [tryFromBytes, leInt_be (by decide) hd]; rfl, rfl, rfl⟩
  | timestamptzNs v =>
      refine ⟨_, rfl, fun t ht => ?_⟩
      obtain rfl : .timestamptzNs = t := ht
      exact ⟨.timestamptzNs v, by rw [tryFromBytes, leInt_be (by decide) hd]; rfl, rfl, rfl⟩

/-- Floats whose places are their bytes. -/
def plainFloats : FloatBytes where
  f32 p := be 4 p
  f64 p := be 8 p
  ofF32 := signed
  ofF64 := signed
  isF32 := Fits 4
  isF64 := Fits 8
  length_f32 := length_be 4
  length_f64 := length_be 8
  ofF32_f32 := fun _ => signed_be (by decide)
  ofF64_f64 := fun _ => signed_be (by decide)

theorem tryFromBytes_toBytes_negative :
    ∃ bs, Datum.toBytes plainFloats (.decimal (-12345) 9 2) = .ok bs ∧
      ∀ t, Promotes (.decimal 9 2) t → ∃ e, tryFromBytes plainFloats bs t = .ok e ∧ e.primitiveType = t ∧
        e.value = (Datum.decimal (-12345) 9 2).value :=
  tryFromBytes_toBytes ⟨by decide, by decide, by decide⟩

end

end IcebergDb.Scan
