import Mathlib.Data.List.Basic

/-!
# Host types: `f64` bits, integer text, and the text codecs of other crates

The store keeps its primitive cells as `f64`, `i64` and `i32`, and turns them
into text and back at the wire. Integers are printed and parsed here exactly
as the Rust standard library does. The text forms of a double, of a point in time
and of a binary blob come from other crates (`ryu`, `chrono`, `base64`), so
they are the fields of `HostText`: every result of the development holds for
any implementation of them. What the store makes of chrono's points in time is
`parse_timestamp_str` and `format_timestamp_micros`, at the end.
-/

namespace CqServer

/-- An `f64`, as its 64 bits. -/
structure F64 where
  bits : UInt64
  deriving DecidableEq, Repr

namespace F64

/-- `f64::NAN`, the null sentinel of double columns. -/
def nan : F64 := ⟨0x7ff8000000000000⟩

/-- `f64::is_nan`: an all-ones exponent and a non-zero mantissa. -/
def isNan (f : F64) : Bool :=
  (f.bits >>> 52) &&& 0x7ff == 0x7ff && f.bits &&& 0xfffffffffffff != 0

def isFinite (f : F64) : Bool := (f.bits >>> 52) &&& 0x7ff != 0x7ff

def isZero (f : F64) : Bool := f.bits &&& 0x7fffffffffffffff == 0

/-- `==` on `f64`: NaN differs from everything, the two zeros are equal. -/
def ieeeEq (f g : F64) : Bool :=
  !f.isNan && !g.isNan && (f.bits == g.bits || (f.isZero && g.isZero))

end F64

/-- A `chrono::DateTime` in UTC: seconds since the epoch, and nanoseconds. -/
structure DateTime where
  secs : Int
  nanos : Nat
  deriving DecidableEq

/-- The text codecs the server takes from other crates. -/
class HostText where
  /-- `n as f64`. -/
  f64OfInt : Int → F64
  /-- `str::parse::<f64>`. -/
  parseF64 : String → Option F64
  /-- `f64::to_string`. -/
  displayF64 : F64 → String
  /-- `serde_json::Number::to_string` of a float. -/
  jsonF64 : F64 → String
  /-- `DateTime::parse_from_rfc3339`. -/
  parseFromRfc3339 : String → Option DateTime
  /-- `NaiveDateTime::parse_from_str` with a format, in UTC. -/
  naiveDateTime : String → String → Option DateTime
  /-- `NaiveDate::parse_from_str` with a format, as days since the epoch. -/
  naiveDate : String → String → Option Int
  /-- `DateTime::from_timestamp`, which has a range of its own. -/
  fromTimestamp : Int → Nat → Option DateTime
  /-- `to_rfc3339_opts(SecondsFormat::Micros, true)`. -/
  toRfc3339 : DateTime → String
  /-- The standard base64 alphabet, with padding. -/
  base64Encode : List UInt8 → String
  base64Decode : String → Option (List UInt8)

/-- Codecs that know no text, for runs that never call one. -/
@[reducible] def HostText.unused : HostText where
  f64OfInt _ := F64.nan
  parseF64 _ := none
  displayF64 _ := "NaN"
  jsonF64 _ := "null"
  parseFromRfc3339 _ := none
  naiveDateTime _ _ := none
  naiveDate _ _ := none
  fromTimestamp _ _ := none
  toRfc3339 _ := ""
  base64Encode _ := ""
  base64Decode _ := none

namespace Unused
scoped instance : HostText := .unused
end Unused

/-! ## Integer text -/

def digitsValue : List Char → Nat → Option Nat
  | [], n => some n
  | c :: cs, n =>
    if c.isDigit then digitsValue cs (10 * n + (c.toNat - 48)) else none

/-- The magnitude part of an integer: the empty text is refused. -/
def parseDigits : List Char → Option Nat
  | [] => none
  | c :: cs => digitsValue (c :: cs) 0

/-- The integer text Rust's `from_str` accepts: an optional sign, then digits. -/
def parseInt (s : String) : Option Int :=
  match s.toList with
  | '+' :: ds => (parseDigits ds).map Int.ofNat
  | '-' :: ds => (parseDigits ds).map fun n => -Int.ofNat n
  | ds => (parseDigits ds).map Int.ofNat

/-- `str::parse::<i64>`: out-of-range values are refused. -/
def parseI64 (s : String) : Option Int64 :=
  (parseInt s).bind fun i =>
    if Int64.minValue.toInt ≤ i ∧ i ≤ Int64.maxValue.toInt then
      some (Int64.ofInt i)
    else none

def parseI32 (s : String) : Option Int32 :=
  (parseInt s).bind fun i =>
    if Int32.minValue.toInt ≤ i ∧ i ≤ Int32.maxValue.toInt then
      some (Int32.ofInt i)
    else none

def displayI64 (n : Int64) : String := toString n.toInt

def displayI32 (n : Int32) : String := toString n.toInt

theorem mem_toString_nat {n : Nat} {c : Char} (hc : c ∈ (toString n).toList) : c.isDigit = true := by
  rw [Nat.toString_eq_ofList_toDigits, String.toList_ofList] at hc
  exact Nat.isDigit_of_mem_toDigits (by decide) (by decide) hc

theorem toString_nat_inj {m n : Nat} (h : (toString m).toList = (toString n).toList) : m = n := by
  have hvalue := congrArg (fun ds => Nat.ofDigitChars 10 ds 0) h
  simpa using hvalue

theorem toString_neg {n : Int} (h : n < 0) :
    (toString n).toList = '-' :: (toString n.natAbs).toList := by
  obtain ⟨m, rfl⟩ := Int.eq_negSucc_of_lt_zero h
  change ("-" ++ toString (m + 1)).toList = _
  rw [String.toList_append]
  rfl

theorem toString_int_inj {m n : Int} (h : toString m = toString n) : m = n := by
  have hsign : ∀ {k l : Int}, 0 ≤ k → l < 0 → toString k ≠ toString l := by
    rintro k l hk hl heq
    obtain ⟨i, rfl⟩ := Int.eq_ofNat_of_zero_le hk
    have hmem : '-' ∈ (toString i).toList := by
      rw [show toString i = toString l from heq, toString_neg hl]
      exact List.mem_cons_self
    exact absurd (mem_toString_nat hmem) (by decide)
  have hcases (k : Int) : k < 0 ∨ 0 ≤ k := by omega
  rcases hcases m with hm | hm <;> rcases hcases n with hn | hn
  · have hlists := congrArg String.toList h
    rw [toString_neg hm, toString_neg hn] at hlists
    have := toString_nat_inj (List.cons.inj hlists).2
    omega
  · exact absurd h.symm (hsign hn hm)
  · exact absurd h (hsign hm hn)
  · obtain ⟨i, rfl⟩ := Int.eq_ofNat_of_zero_le hm
    obtain ⟨j, rfl⟩ := Int.eq_ofNat_of_zero_le hn
    rw [toString_nat_inj (congrArg String.toList h)]

def toAsciiLowercase (s : String) : String := String.ofList (s.toList.map Char.toLower)

/-! ## Timestamps -/

/-- `timestamp_micros`. -/
def DateTime.timestampMicros (t : DateTime) : Int64 :=
  Int64.ofInt (t.secs * 1000000 + t.nanos / 1000)

section
variable [HostText]

/-- The forms are tried in turn; a time without a zone is UTC, a date alone is midnight. -/
def parseTimestampStr (s : String) : Option Int64 :=
  (HostText.parseFromRfc3339 s <|>
    HostText.naiveDateTime "%Y-%m-%dT%H:%M:%S%.f" s <|>
    HostText.naiveDateTime "%Y-%m-%dT%H:%M:%S" s <|>
    HostText.naiveDateTime "%Y-%m-%d %H:%M:%S%.f" s <|>
    HostText.naiveDateTime "%Y-%m-%d %H:%M:%S" s <|>
    (HostText.naiveDate "%Y-%m-%d" s).map fun days => (⟨days * 86400, 0⟩ : DateTime)).map
      DateTime.timestampMicros

/-- Microseconds that chrono has no point in time for are printed as a number. -/
def formatTimestampMicros (micros : Int64) : String :=
  let secs := micros.toInt / 1000000
  let nanos := (micros.toInt % 1000000).toNat * 1000
  ((HostText.fromTimestamp secs nanos).map HostText.toRfc3339).getD (displayI64 micros)

/-- The years 0 to 9999, which RFC 3339 has a text for. -/
def DateTime.HasText (secs : Int) : Prop := -62167219200 ≤ secs ∧ secs < 253402300800

/-- What is assumed of chrono: a whole number of microseconds in the years of RFC 3339 has a text,
which is read as that point in time. -/
structure ChronoFaithful : Prop where
  fromTimestamp : ∀ secs micros, DateTime.HasText secs → micros < 1000000 →
    HostText.fromTimestamp secs (micros * 1000) = some ⟨secs, micros * 1000⟩
  parses : ∀ secs micros, DateTime.HasText secs → micros < 1000000 →
    HostText.parseFromRfc3339 (HostText.toRfc3339 ⟨secs, micros * 1000⟩) =
      some ⟨secs, micros * 1000⟩

/-- The microseconds come back: the Euclidean quotient and remainder are put together again. -/
theorem ChronoFaithful.parse_format (h : ChronoFaithful) {t : Int64}
    (ht : DateTime.HasText (t.toInt / 1000000)) :
    parseTimestampStr (formatTimestampMicros t) = some t := by
  have hmicros : (t.toInt % 1000000).toNat < 1000000 := by omega
  have hformat : formatTimestampMicros t =
      HostText.toRfc3339 ⟨t.toInt / 1000000, (t.toInt % 1000000).toNat * 1000⟩ := by
    simp only [formatTimestampMicros, h.fromTimestamp _ _ ht hmicros, Option.map_some,
      Option.getD_some]
  have htime : t.toInt / 1000000 * 1000000 +
      ((t.toInt % 1000000).toNat * 1000 : Nat) / 1000 = t.toInt := by omega
  rw [parseTimestampStr, hformat, h.parses _ _ ht hmicros]
  show some (Int64.ofInt _) = some t
  rw [htime, Int64.ofInt_toInt]

end

-- Leading zeros and an explicit plus sign are accepted, so a number has many texts.
example : parseI64 "007" = some 7 := by decide
example : parseI64 "9223372036854775808" = none := by decide

end CqServer
