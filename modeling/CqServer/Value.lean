import CqServer.Schema
import Mathlib.Algebra.Group.Int.Defs

/-!
# Cell values and their JSON form

`store.rs`: the typed value of a cell, the null sentinels of the primitive
columns, the conversions between a cell and JSON, and the coercions of
`ColumnStore::set`.
-/

namespace CqServer

inductive Value where
  | double (f : F64)
  | long (n : Int64)
  | int (n : Int32)
  | string (s : Option String)
  | bool (b : Option Bool)
  | timestamp (micros : Int64)
  | bytes (b : Option (List UInt8))
  | null
  deriving DecidableEq, Repr, Inhabited

def nullLong : Int64 := Int64.minValue
def nullInt : Int32 := Int32.minValue
def nullTimestamp : Int64 := Int64.minValue

theorem i64_range (n : Int64) : -(2 ^ 63) ≤ n.toInt ∧ n.toInt < 2 ^ 63 :=
  ⟨n.le_toInt, n.toInt_lt⟩

theorem i32_range (n : Int32) : -(2 ^ 63) ≤ n.toInt ∧ n.toInt < 2 ^ 63 := by
  have hlow := n.le_toInt
  have hhigh := n.toInt_lt
  omega

namespace Value

/-- `is_null`: the `Null` variant and every column type's sentinel. -/
def isNull : Value → Bool
  | .double f => f.isNan
  | .long n => n == nullLong
  | .int n => n == nullInt
  | .string s => s.isNone
  | .bool b => b.isNone
  | .timestamp t => t == nullTimestamp
  | .bytes b => b.isNone
  | .null => true

/-- The derived `PartialEq`: doubles compare as `f64`s, so a null double is
not equal to itself. -/
def partialEq : Value → Value → Bool
  | .double f, .double g => f.ieeeEq g
  | v, w => v == w

def nullOf : ColumnType → Value
  | .double => .double F64.nan
  | .long => .long nullLong
  | .int => .int nullInt
  | .string => .string none
  | .bool => .bool none
  | .timestamp => .timestamp nullTimestamp
  | .bytes => .bytes none

def hasType : ColumnType → Value → Bool
  | .double, .double _ => true
  | .long, .long _ => true
  | .int, .int _ => true
  | .string, .string _ => true
  | .bool, .bool _ => true
  | .timestamp, .timestamp _ => true
  | .bytes, .bytes _ => true
  | _, _ => false

@[simp] theorem hasType_nullOf (ty : ColumnType) : hasType ty (nullOf ty) = true := by
  cases ty <;> rfl

@[simp] theorem isNull_nullOf (ty : ColumnType) : (nullOf ty).isNull = true := by
  cases ty <;> decide

section
variable {ty : ColumnType} {v : Value} (h : hasType ty v = true)
include h

theorem exists_of_hasType :
    match ty with
    | .double => ∃ f, v = .double f
    | .long => ∃ n, v = .long n
    | .int => ∃ n, v = .int n
    | .string => ∃ s, v = .string s
    | .bool => ∃ b, v = .bool b
    | .timestamp => ∃ t, v = .timestamp t
    | .bytes => ∃ b, v = .bytes b := by
  cases ty <;> cases v <;> first | exact ⟨_, rfl⟩ | cases h

theorem ne_null_of_hasType :
    v ≠ .null := by
  rintro rfl
  cases ty <;> simp [hasType] at h

end

section Json
variable [HostText]

/-- The integer forms of a JSON number (`serde_json::Value::from(i64)`). -/
def jsonOfInt (n : Int) : Json :=
  if 0 ≤ n then .number (.posInt (UInt64.ofNat n.toNat)) else .number (.negInt (Int64.ofInt n))

theorem jsonOfInt_spec {n : Int} (h : -(2 ^ 63) ≤ n ∧ n < 2 ^ 63) : ∃ m : Number,
    jsonOfInt n = .number m ∧ m.asI64 = some (Int64.ofInt n) ∧ m.render = toString n := by
  unfold jsonOfInt
  split
  · rename_i hpos
    obtain ⟨k, rfl⟩ := Int.eq_ofNat_of_zero_le hpos
    have hcode : (UInt64.ofNat k).toNat = k := UInt64.toNat_ofNat_of_lt' (show k < 2 ^ 64 by omega)
    refine ⟨_, rfl, (if_pos (hcode.trans_lt (by omega))).trans ?_, congrArg toString hcode⟩
    exact congrArg some UInt64.toInt64_ofNat'
  · exact ⟨_, rfl, rfl, congrArg toString (Int64.toInt_ofInt_of_le h.1 h.2)⟩

/-- `to_json`. A non-finite double has no JSON number and becomes null. -/
def toJson : Value → Json
  | .double f => if h : f.isFinite = true then .number (.float f h) else .null
  | .long n => if n = nullLong then .null else jsonOfInt n.toInt
  | .int n => if n = nullInt then .null else jsonOfInt n.toInt
  | .string (some s) => .string s
  | .bool (some b) => .bool b
  | .timestamp t =>
    if t = nullTimestamp then .null else .string (formatTimestampMicros t)
  | .bytes (some b) => .string (HostText.base64Encode b)
  | _ => .null

def saturatingMul (n : Int64) (k : Int) : Int64 :=
  Int64.ofInt (max Int64.minValue.toInt (min Int64.maxValue.toInt (n.toInt * k)))

/-- A numeric timestamp is read as seconds, milliseconds, microseconds or
nanoseconds by its magnitude. -/
def timestampOfNumber (raw : Int64) : Int64 :=
  if raw = nullTimestamp then nullTimestamp
  else if raw.toInt.natAbs < 100000000000 then saturatingMul raw 1000000
  else if raw.toInt.natAbs < 100000000000000 then saturatingMul raw 1000
  else if raw.toInt.natAbs < 100000000000000000 then raw
  else Int64.ofInt (raw.toInt.tdiv 1000)

def parseTimestampJson : Json → Int64
  | .string s => (parseTimestampStr s).getD nullTimestamp
  | .number n => timestampOfNumber (n.asI64.getD nullTimestamp)
  | _ => nullTimestamp

def boolOfText (s : String) : Option Bool :=
  let lc := toAsciiLowercase s
  if lc = "true" ∨ lc = "1" ∨ lc = "yes" ∨ lc = "y" then some true
  else if lc = "false" ∨ lc = "0" ∨ lc = "no" ∨ lc = "n" then some false
  else none

/-- `from_json`: a value that does not fit the column becomes the column's
null cell, never `Value::Null`. -/
def fromJson (json : Json) : ColumnType → Value
  | .double => match json with
      | .number n => .double n.asF64
      | .string s => .double ((HostText.parseF64 s).getD F64.nan)
      | _ => .double F64.nan
  | .long => match json with
      | .number n => .long (n.asI64.getD nullLong)
      | .string s => .long ((parseI64 s).getD nullLong)
      | _ => .long nullLong
  | .int => match json with
      | .number n => .int ((n.asI64.map Int64.toInt32).getD nullInt)
      | .string s => .int ((parseI32 s).getD nullInt)
      | _ => .int nullInt
  | .string => match json with
      | .string s => .string (some s)
      | .null => .string none
      | .bool b => .string (some (if b then "true" else "false"))
      | other => .string (some other.render)
  | .bool => match json with
      | .bool b => .bool (some b)
      | .string s => .bool (boolOfText s)
      | .number n => .bool (n.asI64.map fun i => i != 0)
      | _ => .bool none
  | .timestamp => .timestamp (parseTimestampJson json)
  | .bytes => match json with
      | .string s => .bytes (HostText.base64Decode s)
      | _ => .bytes none

variable (json : Json) (ty : ColumnType)

@[simp] theorem hasType_fromJson : hasType ty (fromJson json ty) = true := by
  cases ty <;> cases json <;> rfl

/-- A published field is never the `Value::Null` that `update_row` skips. -/
@[simp] theorem fromJson_ne_null : fromJson json ty ≠ .null :=
  ne_null_of_hasType (hasType_fromJson json ty)

@[simp] theorem fromJson_null : fromJson .null ty = nullOf ty := by
  cases ty <;> rfl

/-- A cell that its JSON form gives back. -/
def Survives (ty : ColumnType) (v : Value) : Prop := fromJson v.toJson ty = v

instance (ty : ColumnType) (v : Value) : Decidable (v.Survives ty) :=
  inferInstanceAs (Decidable (_ = _))

theorem toJson_of_isNull {v : Value} (h : v.isNull = true) : v.toJson = .null := by
  cases v with
  | double f =>
    have hf : f.isFinite = false := by
      simp only [isNull, F64.isNan, Bool.and_eq_true, beq_iff_eq] at h
      simp [F64.isFinite, h.1]
    simp [toJson, hf]
  | long n | int n | string s | bool b | timestamp t | bytes b => simp_all [isNull, toJson]
  | null => rfl

@[simp] theorem toJson_nullOf (ty : ColumnType) : (nullOf ty).toJson = .null :=
  toJson_of_isNull (isNull_nullOf ty)

theorem toJson_flat (v : Value) : v.toJson.isNested = false := by
  have hint : ∀ n : Int, (jsonOfInt n).isNested = false := by
    intro n
    unfold jsonOfInt
    split <;> rfl
  cases v with
  | double f | timestamp t =>
    simp only [toJson]
    split <;> rfl
  | long n | int n =>
    simp only [toJson]
    split
    · rfl
    · exact hint _
  | string x | bool x | bytes x => cases x <;> rfl
  | null => rfl

/-- What a payload shows of a cell: nulls are left out. -/
def shown (v : Value) : Option Json := if v.isNull then none else some v.toJson

/-- A surviving cell can be told from what is shown of it. -/
theorem shown_inj {ty : ColumnType} {v w : Value} (hv : v.Survives ty) (hw : w.Survives ty)
    (h : v.shown = w.shown) : v = w := by
  have hjson : v.toJson = w.toJson := by
    unfold shown at h
    split at h <;> split at h
    · rw [toJson_of_isNull ‹_›, toJson_of_isNull ‹_›]
    · cases h
    · cases h
    · exact Option.some.inj h
  rw [← hv, ← hw, hjson]

/-- The text a string column takes from a value of another type. -/
def coerceText : Value → Option String
  | .double f => some (HostText.displayF64 f)
  | .long n => some (displayI64 n)
  | .int n => some (displayI32 n)
  | .bool (some b) => some (if b then "true" else "false")
  | .timestamp t =>
    if t = nullTimestamp then none else some (formatTimestampMicros t)
  | _ => none

def coerceBool : Value → Option Bool
  | .long n => if n = nullLong then none else some (n != 0)
  | .int n => if n = nullInt then none else some (n != 0)
  | .double f => if f.isNan then none else some !f.isZero
  | .string (some s) => boolOfText s
  | _ => none

/-- The microseconds a timestamp column takes from a value of another type. -/
def coerceTimestamp : Value → Int64
  | .string (some s) => (parseTimestampStr s).getD nullTimestamp
  | .long n => if n = nullLong then nullTimestamp else n
  | .int n => if n = nullInt then nullTimestamp else Int64.ofInt n.toInt
  | _ => nullTimestamp

/-- `ColumnStore::set` on one cell of a column: the new contents of a cell
that held `old`. A value of a type that cannot be coerced leaves it alone. -/
def setCell (ty : ColumnType) (old new : Value) : Value :=
  match ty, new with
  | ty, .null => nullOf ty
  | .double, .double f => .double f
  | .double, .long n => .double (HostText.f64OfInt n.toInt)
  | .double, .int n => .double (HostText.f64OfInt n.toInt)
  | .long, .long n => .long n
  | .long, .int n => .long (Int64.ofInt n.toInt)
  | .int, .int n => .int n
  | .string, .string s => .string s
  | .string, other => .string (coerceText other)
  | .bool, .bool b => .bool b
  | .bool, other => .bool (coerceBool other)
  | .timestamp, .timestamp t => .timestamp t
  | .timestamp, other => .timestamp (coerceTimestamp other)
  | .bytes, .bytes b => .bytes b
  | _, _ => old

@[simp] theorem setCell_null (old : Value) : setCell ty old .null = nullOf ty := by
  cases ty <;> rfl

theorem setCell_of_hasType {ty : ColumnType} {old new : Value}
    (h : hasType ty new = true) : setCell ty old new = new := by
  cases ty <;> cases new <;> first | rfl | exact absurd h (by simp [hasType])

theorem hasType_setCell {ty : ColumnType} {old : Value} (new : Value)
    (h : hasType ty old = true) : hasType ty (setCell ty old new) = true := by
  cases ty <;> cases new <;> first | rfl | exact h

end Json

end Value

end CqServer
