import CqServer.Value

/-!
# Cells and their JSON form

A cell is journalled and sent as `to_json` writes it, and read back by `from_json`. Doubles and
timestamps outside the years 0 to 9999 apart, a cell that was stored from JSON comes back as it
was. On the way in, an integer for an `Int` column is cut to its low 32 bits, so one out of range
can be stored as another number (`big_int_stored_as_one`).
-/

namespace CqServer

def Number.asInt : Number → Option Int
  | .posInt n => some n.toNat
  | .negInt n => some n.toInt
  | .float _ _ => none

theorem toInt_toInt64 {n : UInt64} (h : n.toNat < 2 ^ 63) : n.toInt64.toInt = n.toNat :=
  BitVec.toInt_eq_toNat_of_lt (show 2 * n.toNat < 2 ^ 64 by omega)

theorem Number.asInt_of_asI64 {n : Number} {i : Int64} (h : n.asI64 = some i) :
    n.asInt = some i.toInt := by
  cases n with
  | posInt n =>
    obtain ⟨hlt, heq⟩ := Option.ite_none_right_eq_some.mp h
    cases heq
    exact congrArg some (toInt_toInt64 hlt).symm
  | negInt n =>
    cases h
    rfl
  | float f hf => cases h

namespace Value

/-- The integers that `as i32` makes other numbers of, and not the null cell. -/
def wraps (i : Int64) : Bool := i.toInt32.toInt ≠ i.toInt ∧ i.toInt32 ≠ nullInt

/-- A number for a timestamp is taken for less than ten to the eleventh seconds. -/
theorem timestampOfNumber_bound (raw : Int64) : timestampOfNumber raw = nullTimestamp ∨
    (timestampOfNumber raw).toInt.natAbs < 10 ^ 17 := by
  have hlo := raw.le_toInt
  have hhi := raw.toInt_lt
  have hmin : Int64.minValue.toInt = -2 ^ 63 := rfl
  have hmax : Int64.maxValue.toInt = 2 ^ 63 - 1 := rfl
  have hscale : ∀ k : Int, (raw.toInt * k).natAbs < 10 ^ 17 →
      (saturatingMul raw k).toInt.natAbs < 10 ^ 17 := by
    intro k hk
    unfold saturatingMul
    rw [Int64.toInt_ofInt_of_le] <;> omega
  have hdiv : (raw.toInt.tdiv 1000).natAbs = raw.toInt.natAbs / 1000 := Int.natAbs_tdiv ..
  unfold timestampOfNumber
  split
  · exact .inl rfl
  refine .inr ?_
  split
  · exact hscale _ (by omega)
  split
  · exact hscale _ (by omega)
  · split
    · assumption
    · rw [Int64.toInt_ofInt_of_le] <;> omega

/-- The microseconds lie in the years that RFC 3339 has a text for. -/
def HasText (t : Int64) : Prop := DateTime.HasText (t.toInt / 1000000)

section
variable [HostText] (hchrono : ChronoFaithful)
  (hbase64 : ∀ b, HostText.base64Decode (HostText.base64Encode b) = some b)
include hchrono hbase64

theorem survives_fromJson (json : Json) {ty : ColumnType} (hty : ty ≠ .double)
    (hrange : ∀ t, fromJson json ty = .timestamp t → t = nullTimestamp ∨ HasText t) :
    (fromJson json ty).Survives ty := by
  have hcell := hasType_fromJson json ty
  generalize fromJson json ty = v at hrange hcell
  unfold Survives
  cases ty with
  | double => exact absurd rfl hty
  | long =>
    obtain ⟨n, rfl⟩ := exists_of_hasType hcell
    by_cases hnull : n = nullLong
    · simp [toJson, hnull, nullOf]
    · obtain ⟨m, hm, hn, -⟩ := jsonOfInt_spec (i64_range n)
      simp [toJson, hnull, hm, fromJson, hn]
  | int =>
    obtain ⟨n, rfl⟩ := exists_of_hasType hcell
    by_cases hnull : n = nullInt
    · simp [toJson, hnull, nullOf]
    · obtain ⟨m, hm, hn, -⟩ := jsonOfInt_spec (i32_range n)
      simp [toJson, hnull, hm, fromJson, hn]
  | string | bool =>
    obtain ⟨x, rfl⟩ := exists_of_hasType hcell
    cases x <;> rfl
  | timestamp =>
    obtain ⟨t, rfl⟩ := exists_of_hasType hcell
    by_cases hnull : t = nullTimestamp
    · simp [toJson, hnull, nullOf]
    · have hback := hchrono.parse_format ((hrange t rfl).resolve_left hnull)
      simp [toJson, hnull, fromJson, parseTimestampJson, hback]
  | bytes =>
    obtain ⟨b, rfl⟩ := exists_of_hasType hcell
    cases b with
    | none => rfl
    | some b => simp [toJson, fromJson, hbase64]

/-- **Cells come back.** Let chrono and base64 be faithful, the first in the years of RFC 3339, and
take a column that is not of doubles and JSON that is not stored as a timestamp outside them. A null
and what is stored come back, and an integer for an `Int` column is stored as itself or a null, if
and only if the column is not an `Int` column that is given an integer which wraps. -/
theorem fromJson_faithful_iff (json : Json) {ty : ColumnType} (hty : ty ≠ .double)
    (hrange : ∀ t, fromJson json ty = .timestamp t → t = nullTimestamp ∨ HasText t) :
    (((nullOf ty).Survives ty ∧ (fromJson json ty).Survives ty ∧
      ∀ n i, json = .number n → ty = .int → n.asInt = some i →
        fromJson json ty = nullOf ty ∨ ∃ m, fromJson json ty = .int m ∧ m.toInt = i) ↔
      ¬ ∃ n i, json = .number n ∧ ty = .int ∧ n.asI64 = some i ∧ wraps i = true) ∧
    ∀ n t, json = .number n → fromJson json ty = .timestamp t →
      t = nullTimestamp ∨ t.toInt.natAbs < 10 ^ 17 := by
  refine ⟨⟨?_, ?_⟩, ?_⟩
  · rintro ⟨-, -, hkept⟩ ⟨n, i, rfl, rfl, hi, hwraps⟩
    obtain ⟨hne, hnull⟩ := of_decide_eq_true hwraps
    have hcell : fromJson (.number n) .int = .int i.toInt32 := by simp [fromJson, hi]
    rcases hkept n i.toInt rfl rfl (Number.asInt_of_asI64 hi) with hnone | ⟨m, hm, heq⟩
    · rw [hcell] at hnone
      exact hnull (Value.int.inj hnone)
    · rw [hcell] at hm
      exact hne (Value.int.inj hm ▸ heq)
  · intro hnot
    refine ⟨?_, survives_fromJson hchrono hbase64 json hty hrange, ?_⟩
    · simpa using survives_fromJson hchrono hbase64 .null hty (by
        intro t ht
        cases ty <;> cases ht
        exact .inl rfl)
    · rintro n i rfl rfl hi
      cases hj : n.asI64 with
      | none => exact .inl (by simp [fromJson, hj, nullOf])
      | some j =>
        obtain rfl := Option.some.inj (hi.symm.trans (Number.asInt_of_asI64 hj))
        have hcell : fromJson (.number n) .int = .int j.toInt32 := by simp [fromJson, hj]
        rw [hcell]
        by_cases hnull : j.toInt32 = nullInt
        · exact .inl (congrArg Value.int hnull)
        · by_contra hlost
          refine hnot ⟨n, j, rfl, rfl, hj, decide_eq_true ⟨?_, hnull⟩⟩
          exact fun heq => hlost (.inr ⟨_, rfl, heq⟩)
  · rintro n t rfl ht
    cases ty <;> cases ht
    exact timestampOfNumber_bound _

end

/-- Microseconds since the year 0. -/
def microsOf (t : DateTime) : Nat := (t.secs + 62167219200).toNat * 1000000 + t.nanos / 1000

def ofMicros (n : Nat) : DateTime := ⟨(n / 1000000 : Nat) - 62167219200, n % 1000000 * 1000⟩

theorem ofMicros_microsOf {secs : Int} {micros : Nat} (hsecs : DateTime.HasText secs)
    (hmicros : micros < 1000000) :
    ofMicros (microsOf ⟨secs, micros * 1000⟩) = ⟨secs, micros * 1000⟩ := by
  obtain ⟨hlo, -⟩ := hsecs
  simp only [ofMicros, microsOf, DateTime.mk.injEq]
  omega

/-- Blobs as texts of one character for each byte, points in time as numbers. -/
@[reducible] def standIn : HostText where
  __ := HostText.unused
  base64Encode b := String.ofList (b.map Char.ofUInt8)
  base64Decode s := some (s.toList.map Char.toUInt8)
  fromTimestamp secs nanos := some ⟨secs, nanos⟩
  toRfc3339 t := toString (microsOf t)
  parseFromRfc3339 s := some (ofMicros (Nat.ofDigitChars 10 s.toList 0))

theorem standIn_blobs (b : List UInt8) :
    standIn.base64Decode (standIn.base64Encode b) = some b := by
  have hbyte : Char.toUInt8 ∘ Char.ofUInt8 = id := by
    funext u
    exact UInt8.toUInt8_toUInt32 u
  change some ((String.ofList (b.map Char.ofUInt8)).toList.map Char.toUInt8) = some b
  rw [String.toList_ofList, List.map_map, hbyte, List.map_id]

theorem standIn_times : @ChronoFaithful standIn := by
  refine @ChronoFaithful.mk standIn (fun _ _ _ _ => rfl) fun secs micros hsecs hmicros => ?_
  have hread (n : Nat) : Nat.ofDigitChars 10 (toString n).toList 0 = n := by simp
  show some (ofMicros (Nat.ofDigitChars 10 (toString (microsOf _)).toList 0)) = _
  rw [hread, ofMicros_microsOf hsecs hmicros]

/-- The year 2026, in milliseconds. -/
theorem millis_survive : @Survives standIn .timestamp
    (@fromJson standIn (.number (.posInt 1779749323201)) .timestamp) := by
  have hrange : HasText 1779749323201000 := by unfold HasText DateTime.HasText; decide
  have hstored : @fromJson standIn (.number (.posInt 1779749323201)) .timestamp =
      .timestamp 1779749323201000 := by decide
  have hiff := @fromJson_faithful_iff standIn standIn_times standIn_blobs
    (.number (.posInt 1779749323201)) .timestamp (by decide) ?_
  · exact (hiff.1.mpr (by simp)).2.1
  · intro t ht
    cases hstored.symm.trans ht
    exact .inr hrange

open Unused in
/-- A number out of range is stored as 1. -/
theorem big_int_stored_as_one : fromJson (.number (.posInt 4294967297)) .int = .int 1 := by
  decide

end Value

end CqServer
