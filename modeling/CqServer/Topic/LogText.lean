import CqServer.Topic.Replay
import CqServer.TxLog.Writer

/-!
# Log entries as they are read back

The writer stores the length of a key in two bytes and does not check it, and the reader takes the
first byte of a sequence for the marker of a layout if it can. An entry is `Legible` if its fields
fit; then its bytes are read as the entry that was written (`readBack_of_legible`). Of an entry
with a key of 65536 bytes the reader gets an empty key, and a payload that starts with the key
(`readBack_long`).
-/

namespace CqServer

open Lib List

/-- The texts of a topic's entries: its name, and how payloads are written and read. -/
structure LogCodec where
  topic : String
  serialize : JsonMap → Bytes
  parse : Bytes → Option JsonMap
  /-- Else the writer refuses every entry. -/
  topic_le : (asBytes topic).length ≤ maxTopicLen
  /-- An object has its braces. -/
  serialize_ne : ∀ m, serialize m ≠ []

/-- The fields have room for the entry: a longer origin is refused by the writer, a longer key and a
higher sequence are not. -/
@[mk_iff]
structure LogEntry.Legible (e : LogEntry) : Prop where
  key : (asBytes e.key).length < 65536
  origin : (asBytes e.origin).length ≤ maxOriginLen
  sequence : e.sequence < 2 ^ 56

instance (e : LogEntry) : Decidable e.Legible := decidable_of_iff _ e.legible_iff.symm

/-- Every entry of the log is read back as it was written. -/
structure Readable (decode : Decode) (log : List LogEntry) : Prop where
  decodes : Decodes decode log
  legible : ∀ e ∈ log, e.Legible

theorem Readable.subset {decode : Decode} {log log' : List LogEntry}
    (h : Readable decode log') (hsub : log ⊆ log') : Readable decode log :=
  ⟨fun e he => h.decodes e (hsub he), fun e he => h.legible e (hsub he)⟩

/-- The entry, with its payload as it is read again. -/
def LogEntry.reread (decode : Decode) (e : LogEntry) : Option LogEntry :=
  match e.payload with
  | none => some e
  | some payload => (decode payload).map fun m => { e with payload := some m }

namespace LogCodec
variable (codec : LogCodec)

def decode (m : JsonMap) : Option JsonMap := codec.parse (codec.serialize m)

def write (time : UInt64) (e : LogEntry) : TxEntry where
  sequence := .ofNat e.sequence
  timestampMs := time
  topic := codec.topic
  key := e.key
  origin := e.origin
  payload := e.payload.elim [] codec.serialize
  payloadFormat := e.format

/-- An entry as recovery takes it in; one with a payload that is no JSON object is passed over. -/
def read (x : TxEntry) : Option LogEntry :=
  if x.isTombstone then some ⟨x.sequence.toNat, x.key, x.origin, none, x.payloadFormat⟩
  else (codec.parse x.payload).map fun m =>
    ⟨x.sequence.toNat, x.key, x.origin, some m, x.payloadFormat⟩

/-- What recovery gets of an entry, through its bytes. -/
def readBack (e : LogEntry) : Option LogEntry :=
  (parseBody (codec.write 0 e).body 0).toOption.bind codec.read

variable {codec} {e : LogEntry}

theorem parseBody_write (h : e.Legible) (time : UInt64) (offset : Nat) :
    parseBody (codec.write time e).body offset = .ok (codec.write time e) := by
  have hseq : (UInt64.ofNat e.sequence).toNat = e.sequence :=
    UInt64.toNat_ofNat_of_lt' (h.sequence.trans (by decide))
  have hzero : (codec.write time e).sequence.toNat / 256 ^ 7 = 0 :=
    Nat.div_eq_of_lt (hseq.trans_lt h.sequence)
  exact parseBody_of_tellsLayout codec.topic_le h.key h.origin (.inr (by rw [hzero]; decide)) offset

theorem read_write (h : e.Legible) (time : UInt64) :
    codec.read (codec.write time e) = e.reread codec.decode := by
  have hseq : (UInt64.ofNat e.sequence).toNat = e.sequence :=
    UInt64.toNat_ofNat_of_lt' (h.sequence.trans (by decide))
  unfold read LogEntry.reread
  cases hp : e.payload with
  | none =>
    rw [if_pos (by simp [TxEntry.isTombstone, write, hp])]
    simp only [write, hseq, ← hp]
  | some payload =>
    have hne : (codec.serialize payload).isEmpty = false := by
      simpa using codec.serialize_ne payload
    simp [TxEntry.isTombstone, write, hp, hne, hseq, decode]

theorem readBack_of_legible (h : e.Legible) : codec.readBack e = e.reread codec.decode := by
  rw [readBack, parseBody_write h]
  exact read_write h 0

/-- The key's length is stored as zero, and the key is read with the payload. -/
theorem readBack_long (hv1 : e.origin = "" ∧ e.format = .json)
    (hkey : (asBytes e.key).length = 65536) (hsequence : e.sequence < 2 ^ 56) :
    codec.readBack e =
      (codec.parse (asBytes e.key ++ e.payload.elim [] codec.serialize)).map fun m =>
        { e with key := "", payload := some m } := by
  have hwrap : textField e.key = textField "" ++ asBytes e.key := by
    rw [textField, hkey]
    exact congrArg (· ++ asBytes e.key) (BigEndian.encode_add_mul 2 0 1)
  let x : TxEntry := { codec.write 0 e with
    key := "", payload := asBytes e.key ++ e.payload.elim [] codec.serialize }
  have hbody : (codec.write 0 e).body = x.body := by
    simp [TxEntry.body, TxEntry.v2, write, x, hv1, hwrap]
  have hseq : (UInt64.ofNat e.sequence).toNat = e.sequence :=
    UInt64.toNat_ofNat_of_lt' (hsequence.trans (by decide))
  have hzero : x.sequence.toNat / 256 ^ 7 = 0 := Nat.div_eq_of_lt (hseq.trans_lt hsequence)
  have hempty : (asBytes "").length = 0 := rfl
  have hparse : parseBody x.body 0 = .ok x := by
    refine parseBody_of_tellsLayout codec.topic_le (hempty.trans_lt (by decide)) ?_
      (.inr (by rw [hzero]; decide)) 0
    exact (congrArg (fun s => (asBytes s).length) hv1.1).trans hempty |>.le.trans (by decide)
  have hlive : x.isTombstone = false := by
    have hne : asBytes e.key ≠ [] := fun hnil => by simp [hnil] at hkey
    simp [TxEntry.isTombstone, x, hne]
  rw [readBack, hbody, hparse]
  show codec.read x = _
  rw [read, if_neg (by simp [hlive])]
  simp only [x, write, hseq]

end LogCodec

section Replaying
variable [HostText] {σ : Schema} {cfg : TopicConfig}

/-- An entry replayed from what was read of it. -/
theorem Topic.replayEntry_reread (decode : Decode) (now : Nat) (t : Topic σ)
    (e : LogEntry) : ((e.reread decode).elim t fun e' => t.replayEntry cfg some now e') =
      t.replayEntry cfg decode now e := by
  unfold LogEntry.reread
  cases hp : e.payload with
  | none => simp [replayEntry, hp]
  | some payload => cases hd : decode payload <;> simp [replayEntry, hp, hd]

theorem Topic.replayLog_readBack {codec : LogCodec} {log : List LogEntry}
    (h : ∀ e ∈ log, e.Legible) (now : Nat) (t : Topic σ) :
    t.replayLog cfg some now (log.filterMap codec.readBack) =
      t.replayLog cfg codec.decode now log := by
  induction log generalizing t with
  | nil => rfl
  | cons e log ih =>
    have hrest := ih fun e' he' => h e' (mem_cons_of_mem _ he')
    rw [filterMap_cons, LogCodec.readBack_of_legible (h e mem_cons_self)]
    show _ = replayLog cfg codec.decode now (t.replayEntry cfg codec.decode now e) log
    rw [← t.replayEntry_reread]
    cases e.reread codec.decode <;> exact hrest _

end Replaying

end CqServer
