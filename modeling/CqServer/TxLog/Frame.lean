import Mathlib.Data.List.Basic
import CqServer.Lib.BigEndian

/-!
# Transaction log entries as bytes

An entry is framed as its body's length, the body's checksum (both 4 bytes) and
the body. A V1 body starts with the sequence; a V2 body (an entry with an origin,
or a sparse delta) has a marker byte before it and the origin after the key. The
reader tells the two apart by the first byte, which is the high byte of a V1
entry's sequence: below `2 ^ 56` it is zero.

`parseBody` reads back what `body` wrote (`parseBody_body`), and an origin-tagged or
delta entry has no other body (`eq_body_of_parseBody`).
-/

namespace CqServer

open Lib List BigEndian

abbrev Bytes := List UInt8

def maxEntrySize : Nat := 16 * 1024 * 1024
def maxTopicLen : Nat := 1024
def maxOriginLen : Nat := 256

def txlogFormatV2 : UInt8 := 0x01

def txlogFormatV2Delta : UInt8 := 0x03

inductive PayloadFormat where
  | json
  | jsonDelta
  deriving DecidableEq, Repr

/-- `TxLogError`, without the I/O errors. -/
inductive TxLogError where
  | checksumMismatch (offset : Nat)
  | entryTooLarge (offset len max : Nat)
  | topicTooLong (len max : Nat)
  | originTooLong (len max : Nat)
  | utf8 (offset : Nat)
  deriving DecidableEq, Repr

structure TxEntry where
  sequence : UInt64
  timestampMs : UInt64
  topic : String
  key : String
  origin : String
  payload : Bytes
  payloadFormat : PayloadFormat
  deriving DecidableEq, Repr

variable (e : TxEntry)

def TxEntry.isTombstone : Bool := e.payload.isEmpty

def asBytes (s : String) : Bytes := s.toByteArray.data.toList

def fromUtf8 (b : Bytes) : Option String := String.fromUTF8? ⟨b.toArray⟩

theorem fromUtf8_asBytes (s : String) : fromUtf8 (asBytes s) = some s := by
  have hdata : (⟨(asBytes s).toArray⟩ : ByteArray) = s.toByteArray := by simp [asBytes]
  rw [fromUtf8, hdata, String.fromUTF8?, dif_pos s.isValidUTF8]
  rfl

variable {b : Bytes} {s : String}

theorem asBytes_of_fromUtf8 (h : fromUtf8 b = some s) : asBytes s = b := by
  unfold fromUtf8 String.fromUTF8? at h
  split at h
  · cases h
    simp [asBytes, String.fromUTF8]
  · cases h

/-- A text field: its length in two bytes (`as u16`), then the text. -/
def textField (s : String) : Bytes := encode 2 (asBytes s).length ++ asBytes s

/-- Delta payloads always use the V2 layout. -/
def TxEntry.v2 : Bool := e.payloadFormat = .jsonDelta || e.origin ≠ ""

/-- The `body_len` that `append_with_origin_format` works out. -/
def TxEntry.bodyLen : Nat :=
  if e.v2 then
    1 + 8 + 8 + 2 + (asBytes e.topic).length + 2 + (asBytes e.key).length + 2 +
      (asBytes e.origin).length + e.payload.length
  else
    8 + 8 + 2 + (asBytes e.topic).length + 2 + (asBytes e.key).length + e.payload.length

def TxEntry.marker : UInt8 :=
  if e.payloadFormat = .jsonDelta then txlogFormatV2Delta else txlogFormatV2

def TxEntry.body : Bytes :=
  (if e.v2 then [e.marker] else []) ++ encode 8 e.sequence.toNat ++
    encode 8 e.timestampMs.toNat ++ textField e.topic ++ textField e.key ++
    (if e.v2 then textField e.origin else []) ++ e.payload

theorem length_textField (s : String) : (textField s).length = 2 + (asBytes s).length := by
  simp [textField]

theorem TxEntry.length_body : e.body.length = e.bodyLen := by
  unfold body bodyLen
  split <;> simp [length_textField] <;> omega

variable (crc32 : Bytes → UInt32)

/-- Length, checksum and body, as they are written to the file. -/
def frameOf (body : Bytes) : Bytes :=
  encode 4 body.length ++ encode 4 (crc32 body).toNat ++ body

def TxEntry.frame (e : TxEntry) : Bytes := frameOf crc32 e.body

theorem length_frameOf (body : Bytes) : (frameOf crc32 body).length = 8 + body.length := by
  simp only [frameOf, length_append, length_encode]

theorem TxEntry.length_frame (e : TxEntry) : (e.frame crc32).length = 8 + e.bodyLen := by
  rw [frame, length_frameOf, length_body]

/-- The closure `take` of `parse_body`. -/
def takeBytes (offset n : Nat) (rest : Bytes) : Except TxLogError (Bytes × Bytes) :=
  if n ≤ rest.length then .ok (rest.take n, rest.drop n) else .error (.checksumMismatch offset)

def takeText (offset : Nat) (rest : Bytes) : Except TxLogError (String × Bytes) := do
  let (lenBytes, rest) ← takeBytes offset 2 rest
  let (textBytes, rest) ← takeBytes offset (decode lenBytes) rest
  match fromUtf8 textBytes with
  | some s => .ok (s, rest)
  | none => .error (.utf8 offset)

/-- Only a V2 body has an origin. -/
def takeOrigin (v2 : Bool) (offset : Nat) (rest : Bytes) : Except TxLogError (String × Bytes) :=
  if v2 then takeText offset rest else .ok ("", rest)

/-- The fields of a body after its marker byte, in the V1 or the V2 layout. -/
def parseFields (v2 : Bool) (format : PayloadFormat) (offset : Nat) (rest : Bytes) :
    Except TxLogError TxEntry := do
  let (seqBytes, rest) ← takeBytes offset 8 rest
  let (tsBytes, rest) ← takeBytes offset 8 rest
  let (topic, rest) ← takeText offset rest
  let (key, rest) ← takeText offset rest
  let (origin, rest) ← takeOrigin v2 offset rest
  .ok
    { sequence := UInt64.ofNat (decode seqBytes)
      timestampMs := UInt64.ofNat (decode tsBytes)
      topic := topic
      key := key
      origin := origin
      payload := rest
      payloadFormat := format }

def parseBody (body : Bytes) (offset : Nat) : Except TxLogError TxEntry :=
  let marker := body.head?
  let delta := marker = some txlogFormatV2Delta
  let v2 := delta ∨ marker = some txlogFormatV2
  let format := if delta then PayloadFormat.jsonDelta else .json
  parseFields (decide v2) format offset (if v2 then body.drop 1 else body)

/-! ## Reading back -/

/-- What a successful append and the reader's assumptions ask of an entry. -/
structure TxEntry.Fits : Prop where
  topic : (asBytes e.topic).length ≤ maxTopicLen
  key : (asBytes e.key).length < 65536
  origin : (asBytes e.origin).length ≤ maxOriginLen
  size : e.bodyLen ≤ maxEntrySize
  sequence : e.sequence.toNat < 2 ^ 56

variable {a : Bytes} {n offset : Nat}

theorem takeBytes_append (h : a.length = n) : takeBytes offset n (a ++ b) = .ok (a, b) := by
  subst h
  simp [takeBytes]

variable {bs : Bytes}

theorem eq_append_of_takeBytes (h : takeBytes offset n bs = .ok (a, b)) :
    bs = a ++ b ∧ a.length = n := by
  unfold takeBytes at h
  split at h
  · rename_i hle
    cases h
    exact ⟨(take_append_drop n bs).symm, length_take_of_le hle⟩
  · cases h

variable {α β ε : Type}

theorem ok_bind (a : α) (f : α → Except ε β) : (Except.ok a >>= f) = f a := rfl

theorem bind_ok {x : Except ε α} {f : α → Except ε β} {b : β} (h : x >>= f = .ok b) :
    ∃ a, x = .ok a ∧ f a = .ok b := by
  cases x with
  | error e => cases h
  | ok a => exact ⟨a, rfl, h⟩

variable {rest : Bytes}

theorem takeText_append (h : (asBytes s).length < 65536) :
    takeText offset (textField s ++ rest) = .ok (s, rest) := by
  have hlen : decode (encode 2 (asBytes s).length) = (asBytes s).length :=
    decode_encode_of_lt (by omega)
  unfold takeText textField
  simp [takeBytes_append (length_encode _ _), ok_bind, hlen, takeBytes_append rfl, fromUtf8_asBytes]

theorem eq_append_of_takeText (h : takeText offset bs = .ok (s, rest)) :
    bs = textField s ++ rest ∧ (asBytes s).length < 65536 := by
  obtain ⟨⟨lenBytes, tail⟩, hlen, h1⟩ := bind_ok h
  obtain ⟨⟨textBytes, tail'⟩, htext, h2⟩ := bind_ok h1
  obtain ⟨rfl, hl⟩ := eq_append_of_takeBytes hlen
  obtain ⟨rfl, ht⟩ := eq_append_of_takeBytes htext
  dsimp only at h2
  cases hs : fromUtf8 textBytes with
  | none =>
    rw [hs] at h2
    cases h2
  | some s' =>
    rw [hs] at h2
    cases h2
    have hwidth : encode 2 (decode lenBytes) = lenBytes := by
      conv_lhs => rw [← hl]
      exact encode_decode lenBytes
    have hlt := decode_lt lenBytes
    rw [hl] at hlt
    rw [textField, asBytes_of_fromUtf8 hs, ht, hwidth, append_assoc]
    exact ⟨rfl, hlt⟩

def TxEntry.fields (v2 : Bool) : Bytes :=
  encode 8 e.sequence.toNat ++ (encode 8 e.timestampMs.toNat ++
    (textField e.topic ++ (textField e.key ++
      ((if v2 then textField e.origin else []) ++ e.payload))))

theorem TxEntry.body_eq : e.body = (if e.v2 then [e.marker] else []) ++ e.fields e.v2 := by
  simp [body, fields]

theorem ofNat_decode_encode (n : UInt64) :
    UInt64.ofNat (decode (encode 8 n.toNat)) = n := by
  have hlt : n.toNat < 256 ^ 8 := n.toNat_lt
  rw [decode_encode_of_lt hlt, UInt64.ofNat_toNat]

variable {e : TxEntry}

theorem parseFields_fields (htopic : (asBytes e.topic).length ≤ maxTopicLen)
    (hkey : (asBytes e.key).length < 65536) (horigin : (asBytes e.origin).length ≤ maxOriginLen)
    (v2 : Bool) (offset : Nat) (hv2 : v2 = false → e.origin = "") :
    parseFields v2 e.payloadFormat offset (e.fields v2) = .ok e := by
  replace htopic : (asBytes e.topic).length < 65536 := lt_of_le_of_lt htopic (by decide)
  replace horigin : (asBytes e.origin).length < 65536 := lt_of_le_of_lt horigin (by decide)
  have htail : takeOrigin v2 offset ((if v2 then textField e.origin else []) ++ e.payload) =
      .ok (e.origin, e.payload) := by
    cases v2 with
    | true => exact takeText_append horigin
    | false =>
      rw [hv2 rfl]
      rfl
  unfold parseFields TxEntry.fields
  simp [takeBytes_append (length_encode _ _), takeText_append htopic,
    takeText_append hkey, htail, ok_bind, ofNat_decode_encode]

theorem eq_fields_of_parseFields {v2 : Bool} {format : PayloadFormat}
    (h : parseFields v2 format offset bs = .ok e) :
    bs = e.fields v2 ∧ (asBytes e.key).length < 65536 ∧ e.payloadFormat = format ∧
      (v2 = false → e.origin = "") := by
  obtain ⟨⟨seqBytes, tail⟩, hseq, h1⟩ := bind_ok h
  obtain ⟨⟨tsBytes, tail⟩, hts, h2⟩ := bind_ok h1
  obtain ⟨⟨topic, tail⟩, htopic, h3⟩ := bind_ok h2
  obtain ⟨⟨key, tail⟩, hkey, h4⟩ := bind_ok h3
  obtain ⟨⟨origin, payload⟩, horigin, h5⟩ := bind_ok h4
  obtain ⟨rfl, hseqLen⟩ := eq_append_of_takeBytes hseq
  obtain ⟨rfl, htsLen⟩ := eq_append_of_takeBytes hts
  obtain ⟨rfl, -⟩ := eq_append_of_takeText htopic
  obtain ⟨rfl, hkeyLen⟩ := eq_append_of_takeText hkey
  have hword : ∀ b : Bytes, b.length = 8 →
      encode 8 (UInt64.ofNat (decode b)).toNat = b := by
    intro b hb
    have hlt := decode_lt b
    rw [hb] at hlt
    rw [UInt64.toNat_ofNat_of_lt' hlt, ← hb, encode_decode]
  cases h5
  cases v2 with
  | true =>
    obtain ⟨rfl, -⟩ := eq_append_of_takeText horigin
    refine ⟨?_, hkeyLen, rfl, nofun⟩
    simp only [TxEntry.fields, hword _ hseqLen, hword _ htsLen, if_true]
  | false =>
    cases horigin
    refine ⟨?_, hkeyLen, rfl, fun _ => rfl⟩
    simp only [TxEntry.fields, hword _ hseqLen, hword _ htsLen, Bool.false_eq_true, if_false,
      nil_append]

/-- Whether the first byte of the body says which layout it has: a V2 body starts with its
marker, and a V1 body, which starts with the high byte of the sequence, must not. -/
def TxEntry.TellsLayout (e : TxEntry) : Prop :=
  e.v2 = true ∨ e.sequence.toNat / 256 ^ 7 ≠ txlogFormatV2.toNat ∧
    e.sequence.toNat / 256 ^ 7 ≠ txlogFormatV2Delta.toNat

theorem TxEntry.head_fields (e : TxEntry) (v2 : Bool) :
    (e.fields v2).head? = some (UInt8.ofNat (e.sequence.toNat / 256 ^ 7)) := rfl

theorem TxEntry.ofNat_high (e : TxEntry) (m : UInt8) :
    UInt8.ofNat (e.sequence.toNat / 256 ^ 7) = m ↔ e.sequence.toNat / 256 ^ 7 = m.toNat := by
  have hlt := e.sequence.toNat_lt
  have hhigh : e.sequence.toNat / 256 ^ 7 < 256 := by omega
  rw [← UInt8.toNat_inj, UInt8.toNat_ofNat_of_lt' hhigh]

theorem TxEntry.json_of_v1 (hv : e.v2 = false) : e.payloadFormat = .json ∧ e.origin = "" := by
  cases hf : e.payloadFormat with
  | json => exact ⟨rfl, by simpa [TxEntry.v2, hf] using hv⟩
  | jsonDelta => simp [TxEntry.v2, hf] at hv

/-- The reader gets back the entry that was written, if its lengths fit their fields and its
first byte tells the layout. -/
theorem parseBody_of_tellsLayout (htopic : (asBytes e.topic).length ≤ maxTopicLen)
    (hkey : (asBytes e.key).length < 65536) (horigin : (asBytes e.origin).length ≤ maxOriginLen)
    (he : e.TellsLayout) (offset : Nat) : parseBody e.body offset = .ok e := by
  rw [TxEntry.body_eq]
  cases hv : e.v2 with
  | true =>
    have hread := parseFields_fields htopic hkey horigin true offset nofun
    cases hf : e.payloadFormat with
    | json =>
      simpa [parseBody, TxEntry.marker, hf, txlogFormatV2, txlogFormatV2Delta] using hread
    | jsonDelta =>
      simpa [parseBody, TxEntry.marker, hf] using hread
  | false =>
    obtain ⟨hformat, hempty⟩ := TxEntry.json_of_v1 hv
    have hread := parseFields_fields htopic hkey horigin false offset fun _ => hempty
    rw [hformat] at hread
    have hbyte := he.resolve_left (by simp [hv])
    have hhead : ∀ m : UInt8, e.sequence.toNat / 256 ^ 7 ≠ m.toNat →
        (e.fields false).head? ≠ some m := fun m hm h =>
      hm ((e.ofNat_high m).mp (Option.some.inj h))
    simpa [parseBody, hhead _ hbyte.1, hhead _ hbyte.2] using hread

theorem parseBody_body (he : e.Fits) (offset : Nat) : parseBody e.body offset = .ok e := by
  have hzero : e.sequence.toNat / 256 ^ 7 = 0 := Nat.div_eq_of_lt he.sequence
  exact parseBody_of_tellsLayout he.topic he.key he.origin (Or.inr (by rw [hzero]; decide)) offset

/-- A V1 body taken for a V2 one is one byte and a length field short. -/
theorem tellsLayout_of_parseBody {time : UInt64}
    (h : parseBody e.body offset = .ok { e with timestampMs := time }) :
    (asBytes e.key).length < 65536 ∧ e.TellsLayout := by
  obtain ⟨hfields, hkey, -, -⟩ := eq_fields_of_parseFields h
  refine ⟨hkey, ?_⟩
  by_contra hnot
  obtain ⟨hv, hbyte⟩ := not_or.mp hnot
  rw [Bool.not_eq_true] at hv
  have hhead : e.body.head? = some txlogFormatV2Delta ∨ e.body.head? = some txlogFormatV2 := by
    rw [TxEntry.body_eq, hv]
    simp only [Bool.false_eq_true, if_false, nil_append, e.head_fields, Option.some.injEq,
      e.ofNat_high]
    omega
  rw [if_pos hhead] at hfields
  have hlen := congrArg length hfields
  rw [length_drop, TxEntry.length_body, TxEntry.bodyLen, hv] at hlen
  simp [TxEntry.fields, length_textField] at hlen
  omega

theorem eq_body_of_parseBody (h : parseBody b offset = .ok e) (hv : e.v2 = true) : b = e.body := by
  obtain ⟨hfields, -, hformat, horigin⟩ := eq_fields_of_parseFields h
  rw [TxEntry.body_eq, hv]
  by_cases hdelta : b.head? = some txlogFormatV2Delta
  · -- a delta marker: the format is a delta, whatever the origin
    obtain ⟨tail, rfl⟩ := head?_eq_some_iff.mp hdelta
    have hf : e.payloadFormat = .jsonDelta := by simpa using hformat
    simpa [TxEntry.marker, hf] using hfields
  · by_cases hjson : b.head? = some txlogFormatV2
    · obtain ⟨tail, rfl⟩ := head?_eq_some_iff.mp hjson
      have hne : txlogFormatV2 ≠ txlogFormatV2Delta := by decide
      have hf : e.payloadFormat = .json := by simpa [hne] using hformat
      simpa [TxEntry.marker, hf] using hfields
    · -- no marker: a full payload without an origin, so not a V2 entry
      have hf : e.payloadFormat = .json := by simpa [hdelta] using hformat
      have ho : e.origin = "" := horigin (by simp [hdelta, hjson])
      simp [TxEntry.v2, hf, ho] at hv

end CqServer
