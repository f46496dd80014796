import CqServer.Lib.Drain
import CqServer.TxLog.Frame

/-!
# Reading the transaction log

`SegmentReader::read_next` takes one frame off a segment; `TxLogReader::read_next`
goes through the segments in the order of their ids. The last segment is the
active one: an incomplete frame, an oversized or a zero length end it quietly. In
any other segment they are errors, and a wrong checksum is one everywhere.

The bottom of the module is a description of what `readNext` accepts
(`readNext_some`) and of the two files that matter: whole frames, and whole frames
with a piece of one more behind them (`TornTail`).
-/

namespace CqServer

open Lib List BigEndian TxEntry

/-- `ReadResult`; a full read also gives the bytes and what is left. -/
inductive ReadResult where
  | full (bytes rest : Bytes)
  | short
  | eof

def readExactOrEof (n : Nat) (bs : Bytes) : ReadResult :=
  if n ≤ bs.length then .full (bs.take n) (bs.drop n) else if bs.isEmpty then .eof else .short

structure SegmentReader where
  inner : Bytes
  offset : Nat
  deriving DecidableEq, Repr

structure RawEntry where
  entry : TxEntry
  frameBytes : Nat
  deriving DecidableEq, Repr

/-- `SegmentReader::open` on a file with these bytes. -/
def SegmentReader.ofFile (bytes : Bytes) : SegmentReader := ⟨bytes, 0⟩

section Reading

variable (crc32 : Bytes → UInt32)

def SegmentReader.readNext (isActiveSegment : Bool) (r : SegmentReader) :
    Except TxLogError (Option (RawEntry × SegmentReader)) :=
  -- the end of the active segment, an error elsewhere
  let torn (e : TxLogError) : Except TxLogError (Option (RawEntry × SegmentReader)) :=
    if isActiveSegment then .ok none else .error e
  match readExactOrEof 8 r.inner with
  | .eof => .ok none
  | .short => torn (.checksumMismatch r.offset)
  | .full header rest =>
    let frameLen := decode (header.take 4)
    let expectedCrc := decode (header.drop 4)
    if maxEntrySize < frameLen then torn (.entryTooLarge r.offset frameLen maxEntrySize)
    else if frameLen = 0 then torn (.checksumMismatch r.offset)
    else
      match readExactOrEof frameLen rest with
      | .full body rest =>
        if (crc32 body).toNat ≠ expectedCrc then .error (.checksumMismatch r.offset)
        else
          match parseBody body r.offset with
          | .error e => .error e
          | .ok entry => .ok (some (⟨entry, 8 + frameLen⟩, ⟨rest, r.offset + (8 + frameLen)⟩))
      | _ => torn (.checksumMismatch r.offset)

/-- `TxLogReader`; `segments` are those from the cursor on. -/
structure TxLogReader where
  segments : List (Nat × Bytes)
  current : Option SegmentReader
  globalOffset : Nat
  deriving DecidableEq, Repr

/-- `TxLogReader::open` on a directory, or on a single file as a one-segment log. -/
def TxLogReader.ofSegments (segments : List (Nat × Bytes)) : TxLogReader := ⟨segments, none, 0⟩

def TxLogReader.pull (globalOffset : Nat) :
    List (Nat × Bytes) → Option SegmentReader → Except TxLogError (Option (TxEntry × TxLogReader))
  | [], _ => .ok none
  | segment :: segments, current =>
    match (current.getD (.ofFile segment.2)).readNext crc32 segments.isEmpty with
    | .error e => .error e
    | .ok (some (raw, reader)) =>
      .ok (some (raw.entry, ⟨segment :: segments, some reader, globalOffset + raw.frameBytes⟩))
    | .ok none => TxLogReader.pull globalOffset segments none

variable (r : TxLogReader)

def TxLogReader.readNext : Except TxLogError (Option (TxEntry × TxLogReader)) :=
  TxLogReader.pull crc32 r.globalOffset r.segments r.current

def TxLogReader.skipToSegment (minSegmentId : Nat) : TxLogReader :=
  { r with
    segments := r.segments.dropWhile fun segment => segment.1 < minSegmentId
    current := none }

def TxLogReader.remaining : Nat :=
  match r.segments, r.current with
  | [], _ => 0
  | segment :: segments, current =>
    (current.getD (.ofFile segment.2)).inner.length + (segments.map (·.2.length)).sum

/-- `read_all`: every entry takes up bytes, so the number of bytes bounds the loop. -/
def TxLogReader.readAll : Except TxLogError (List TxEntry) :=
  drain (TxLogReader.readNext crc32) (r.remaining + 1) r

end Reading

variable {crc32 : Bytes → UInt32}

/-! ## One frame -/

variable {a b : Bytes} {n : Nat}

theorem readExactOrEof_append (h : a.length = n) : readExactOrEof n (a ++ b) = .full a b := by
  subst h
  simp [readExactOrEof]

variable {bs : Bytes}

theorem readExactOrEof_full (h : readExactOrEof n bs = .full a b) : bs = a ++ b ∧ a.length = n := by
  unfold readExactOrEof at h
  split at h
  · rename_i hle
    cases h
    exact ⟨(take_append_drop n bs).symm, length_take_of_le hle⟩
  · split at h <;> cases h

theorem readExactOrEof_short (hne : bs ≠ []) (h : bs.length < n) :
    readExactOrEof n bs = .short := by
  have hle : ¬ n ≤ bs.length := by omega
  simp [readExactOrEof, hle, hne]

variable {active : Bool}

/-- Everything `read_next` accepts is a frame with a readable body. -/
theorem SegmentReader.readNext_some {r r' : SegmentReader} {raw : RawEntry}
    (h : r.readNext crc32 active = .ok (some (raw, r'))) :
    ∃ body, r.inner = frameOf crc32 body ++ r'.inner ∧ parseBody body r.offset = .ok raw.entry := by
  unfold readNext at h
  dsimp only at h
  split at h
  · cases h
  · cases active <;> cases h
  rename_i header rest hheader
  obtain ⟨hinner, hlen⟩ := readExactOrEof_full hheader
  split at h
  · cases active <;> cases h
  split at h
  · cases active <;> cases h
  split at h
  · rename_i body tail hbody
    obtain ⟨hrest, hbodyLen⟩ := readExactOrEof_full hbody
    split at h
    · cases h
    rename_i hcrc
    split at h
    · cases h
    rename_i entry hparse
    cases h
    refine ⟨body, ?_, hparse⟩
    -- the two halves of the header are the encodings of what they decode to
    have hfour : (header.take 4).length = 4 := by simp [hlen]
    have hfour' : (header.drop 4).length = 4 := by simp [hlen]
    have hlo := encode_decode (header.take 4)
    have hhi := encode_decode (header.drop 4)
    rw [hfour] at hlo
    rw [hfour'] at hhi
    rw [hinner, hrest, frameOf, hbodyLen, not_not.mp hcrc, hlo, hhi,
      take_append_drop, append_assoc]
  · cases active <;> cases h

variable {offset : Nat}

/-- A frame is taken off the segment, with what its body says. -/
theorem SegmentReader.readNext_frameOf {body rest : Bytes} (hpos : body ≠ [])
    (hmax : body.length ≤ maxEntrySize) :
    SegmentReader.readNext crc32 active ⟨frameOf crc32 body ++ rest, offset⟩ =
      (parseBody body offset).map fun entry =>
        some (⟨entry, 8 + body.length⟩, ⟨rest, offset + (8 + body.length)⟩) := by
  have hsize : body.length < 256 ^ 4 := lt_of_le_of_lt hmax (by decide)
  have hcrc : (crc32 body).toNat < 256 ^ 4 := (crc32 body).toNat_lt
  have hheader : readExactOrEof 8 (frameOf crc32 body ++ rest) =
      .full (encode 4 body.length ++ encode 4 (crc32 body).toNat)
        (body ++ rest) := by
    rw [frameOf, append_assoc _ body rest]
    exact readExactOrEof_append (by simp)
  have hlen := decode_encode_of_lt hsize
  have hsum := decode_encode_of_lt hcrc
  unfold readNext
  simp [hheader, hlen, hsum, hpos, not_lt.mpr hmax, readExactOrEof_append]
  cases parseBody body offset <;> rfl

/-- A proper piece of a frame ends the active segment and is an error in any other. -/
theorem SegmentReader.readNext_torn {body torn missing : Bytes} (hpos : body ≠ [])
    (hmax : body.length ≤ maxEntrySize) (hsplit : torn ++ missing = frameOf crc32 body)
    (hmissing : missing ≠ []) (htorn : torn ≠ []) :
    SegmentReader.readNext crc32 active ⟨torn, offset⟩ =
      if active then .ok none else .error (.checksumMismatch offset) := by
  have hlen : torn.length + missing.length = 8 + body.length := by
    rw [← length_append, hsplit, length_frameOf]
  have hmissing' : 0 < missing.length := length_pos_iff.mpr hmissing
  unfold readNext
  by_cases hheader : torn.length < 8
  · simp [readExactOrEof_short htorn hheader]
  -- the header is whole, so it announces the body's own length
  have hsize : body.length < 256 ^ 4 := lt_of_le_of_lt hmax (by decide)
  have hkeep : torn.take 8 =
      encode 4 body.length ++ encode 4 (crc32 body).toNat := by
    have htake : (torn ++ missing).take 8 = torn.take 8 :=
      take_append_of_le_length (by omega)
    rw [← htake, hsplit]
    exact take_left' (by simp)
  have hfull : readExactOrEof 8 torn = .full (encode 4 body.length ++ encode 4 (crc32 body).toNat)
        (torn.drop 8) := by
    rw [← hkeep, readExactOrEof, if_pos (by omega)]
  have hannounced := decode_encode_of_lt hsize
  have hrest : (torn.drop 8).length < body.length := by
    rw [length_drop]
    omega
  have hbody : readExactOrEof body.length (torn.drop 8) = .eof ∨
      readExactOrEof body.length (torn.drop 8) = .short := by
    unfold readExactOrEof
    rw [if_neg (by omega)]
    split
    · exact Or.inl rfl
    · exact Or.inr rfl
  rcases hbody with hbody | hbody <;>
    simp [hfull, hannounced, hpos, not_lt.mpr hmax, hbody]

/-! ## Whole entries and a torn tail -/

def frames (crc32 : Bytes → UInt32) (es : List TxEntry) : Bytes :=
  es.flatMap (frame crc32)

@[simp] theorem frames_nil : frames crc32 [] = [] := rfl

@[simp] theorem frames_cons (e : TxEntry) (es : List TxEntry) :
    frames crc32 (e :: es) = e.frame crc32 ++ frames crc32 es := rfl

@[simp] theorem frames_append (es es' : List TxEntry) :
    frames crc32 (es ++ es') = frames crc32 es ++ frames crc32 es' := by
  simp [frames]

/-- A piece, possibly empty, of a frame that is not the whole frame. -/
def TornTail (crc32 : Bytes → UInt32) (torn : Bytes) : Prop :=
  ∃ (e : TxEntry) (missing : Bytes), e.Fits ∧ missing ≠ [] ∧ torn ++ missing = e.frame crc32

theorem TxEntry.body_ne_nil (e : TxEntry) : e.body ≠ [] := by
  have hlen : 0 < e.body.length := by
    rw [length_body, bodyLen]
    split <;> omega
  exact ne_nil_of_length_pos hlen

theorem TxEntry.frame_ne_nil (e : TxEntry) : e.frame crc32 ≠ [] := by
  apply ne_nil_of_length_pos
  rw [length_frame]
  omega

variable {e : TxEntry}

theorem tornTail_nil (he : e.Fits) : TornTail crc32 [] :=
  ⟨e, e.frame crc32, he, e.frame_ne_nil, rfl⟩

variable {torn : Bytes}

theorem TornTail.nil (h : TornTail crc32 torn) : TornTail crc32 [] := by
  obtain ⟨e, _, he, _⟩ := h
  exact tornTail_nil he

variable {rest : Bytes}

theorem SegmentReader.readNext_frame (he : e.Fits) :
    SegmentReader.readNext crc32 active ⟨e.frame crc32 ++ rest, offset⟩ =
      .ok (some (⟨e, (e.frame crc32).length⟩, ⟨rest, offset + (e.frame crc32).length⟩)) := by
  have hlen : (e.frame crc32).length = 8 + e.body.length := length_frameOf crc32 e.body
  have hmax : e.body.length ≤ maxEntrySize := e.length_body ▸ he.size
  rw [hlen]
  rw [frame, readNext_frameOf e.body_ne_nil hmax, parseBody_body he offset]
  rfl

theorem SegmentReader.readNext_tornTail (h : TornTail crc32 torn) :
    SegmentReader.readNext crc32 active ⟨torn, offset⟩ =
      if active ∨ torn = [] then .ok none else .error (.checksumMismatch offset) := by
  obtain ⟨e, missing, he, hmissing, hsplit⟩ := h
  by_cases htorn : torn = []
  · subst htorn
    simp [readNext, readExactOrEof]
  · have hmax : e.body.length ≤ maxEntrySize := e.length_body ▸ he.size
    rw [readNext_torn e.body_ne_nil hmax hsplit hmissing htorn]
    simp [htorn]

/-! ## The whole directory -/

variable {es : List TxEntry}

theorem TxLogReader.emits_frames (crc32 : Bytes → UInt32) (hes : ∀ e ∈ es, e.Fits)
    (segment : Nat × Bytes) (segments : List (Nat × Bytes)) (tail : Bytes)
    (offset globalOffset : Nat) :
    Emits (TxLogReader.readNext crc32)
      ⟨segment :: segments, some ⟨frames crc32 es ++ tail, offset⟩, globalOffset⟩ es
      ⟨segment :: segments, some ⟨tail, offset + (frames crc32 es).length⟩,
        globalOffset + (frames crc32 es).length⟩ := by
  induction es generalizing offset globalOffset with
  | nil => exact .nil
  | cons e es ih =>
    have he : e.Fits := hes e (mem_cons_self ..)
    have hrest := ih (fun x hx => hes x (mem_cons_of_mem _ hx))
      (offset + (e.frame crc32).length) (globalOffset + (e.frame crc32).length)
    rw [frames_cons, length_append, ← Nat.add_assoc, ← Nat.add_assoc]
    refine .cons ?_ hrest
    simp [readNext, pull, SegmentReader.readNext_frame he]

/-- Each pull moves the reader on by at least a frame's header. -/
theorem TxLogReader.remaining_lt {r r' : TxLogReader} (h : r.readNext crc32 = .ok (some (e, r'))) :
    r'.remaining < r.remaining := by
  obtain ⟨segments, current, globalOffset⟩ := r
  unfold readNext at h
  induction segments generalizing current with
  | nil => cases h
  | cons segment segments ih =>
    unfold pull at h
    cases hn : (current.getD (.ofFile segment.2)).readNext crc32 segments.isEmpty with
    | error err =>
      rw [hn] at h
      cases h
    | ok o =>
      rw [hn] at h
      cases o with
      | some p =>
        cases h
        obtain ⟨body, hinner, _⟩ := SegmentReader.readNext_some hn
        simp only [remaining, Option.getD_some, hinner, length_append, length_frameOf]
        omega
      | none =>
        have hlt := ih none h
        cases segments with
        | nil => cases h
        | cons next segments =>
          simp only [remaining, Option.getD_none, SegmentReader.ofFile, map_cons, sum_cons] at hlt ⊢
          omega

variable {out : Except TxLogError (List TxEntry)}

theorem TxLogReader.readAll_eq {r : TxLogReader} (h : Drains (TxLogReader.readNext crc32) r out) :
    r.readAll crc32 = out :=
  drain_eq TxLogReader.remaining (fun _ _ _ hn => remaining_lt hn) (Nat.lt_succ_self _) h

theorem TxLogReader.drains_readAll (crc32 : Bytes → UInt32) (r : TxLogReader) :
    Drains (TxLogReader.readNext crc32) r (r.readAll crc32) :=
  drains_drain TxLogReader.remaining (fun _ _ _ hn => remaining_lt hn) (Nat.lt_succ_self _)

variable {globalOffset : Nat} {segment : Nat × Bytes} {segments : List (Nat × Bytes)}

theorem TxLogReader.readNext_end :
    TxLogReader.readNext crc32 ⟨segment :: segments, some ⟨[], offset⟩, globalOffset⟩ =
      TxLogReader.readNext crc32 ⟨segments, none, globalOffset⟩ :=
  rfl

variable {tail : Bytes}

/-- Reading a segment that starts with whole frames: their entries, then the rest. -/
theorem TxLogReader.drains_frames (hes : ∀ e ∈ es, e.Fits) (id : Nat)
    (hout : Drains (TxLogReader.readNext crc32)
      ⟨(id, frames crc32 es ++ tail) :: segments, some ⟨tail, (frames crc32 es).length⟩,
      globalOffset + (frames crc32 es).length⟩ out) :
    Drains (TxLogReader.readNext crc32)
      ⟨(id, frames crc32 es ++ tail) :: segments, none, globalOffset⟩ (out.map (es ++ ·)) := by
  have hemits := emits_frames crc32 hes (id, frames crc32 es ++ tail) segments tail 0 globalOffset
  rw [Nat.zero_add] at hemits
  refine .of_next_eq ?_ (hemits.drains hout)
  rfl

variable {sealedSegs : List (Nat × List TxEntry)}

/-- Sealed segments of whole frames read as their entries, whatever comes after them. -/
theorem TxLogReader.drains_sealed (hfits : ∀ seg ∈ sealedSegs, ∀ e ∈ seg.2, e.Fits)
    (hout : Drains (TxLogReader.readNext crc32)
      ⟨segments, none, globalOffset + (frames crc32 (sealedSegs.flatMap Prod.snd)).length⟩ out) :
    Drains (TxLogReader.readNext crc32)
      ⟨sealedSegs.map (fun seg => (seg.1, frames crc32 seg.2)) ++ segments, none, globalOffset⟩
      (out.map (sealedSegs.flatMap Prod.snd ++ ·)) := by
  induction sealedSegs generalizing globalOffset with
  | nil =>
    cases out with
    | error e | ok es => exact hout
  | cons seg sealedSegs ih =>
    have hseg : ∀ e ∈ seg.2, e.Fits := hfits seg (mem_cons_self ..)
    rw [flatMap_cons, frames_append, length_append, ← Nat.add_assoc] at hout
    have hrest := ih (fun s hs => hfits s (mem_cons_of_mem _ hs)) hout
    have hsegment := drains_frames hseg seg.1 (hrest.of_next_eq readNext_end)
    rw [append_nil] at hsegment
    cases out with
    | error e => exact hsegment
    | ok es => simpa [Except.map] using hsegment

section
variable (hsealed : ∀ seg ∈ sealedSegs, ∀ e ∈ seg.2, e.Fits) (hes : ∀ e ∈ es, e.Fits)
include hsealed hes

theorem TxLogReader.readAll_upto (id : Nat)
    (hout : ∀ globalOffset, Drains (TxLogReader.readNext crc32)
      ⟨(id, frames crc32 es ++ tail) :: segments, some ⟨tail, (frames crc32 es).length⟩,
        globalOffset⟩ out) :
    (TxLogReader.ofSegments (sealedSegs.map (fun seg => (seg.1, frames crc32 seg.2)) ++
      (id, frames crc32 es ++ tail) :: segments)).readAll crc32 =
        (out.map (es ++ ·)).map (sealedSegs.flatMap Prod.snd ++ ·) :=
  readAll_eq (drains_sealed hsealed (drains_frames hes id (hout _)))

theorem TxLogReader.readAll_segments (htorn : TornTail crc32 torn) (id : Nat) :
    (TxLogReader.ofSegments (sealedSegs.map (fun seg => (seg.1, frames crc32 seg.2)) ++
      [(id, frames crc32 es ++ torn)])).readAll crc32 =
        .ok (sealedSegs.flatMap Prod.snd ++ es) := by
  have hend : ∀ globalOffset, TxLogReader.readNext crc32
      ⟨[(id, frames crc32 es ++ torn)], some ⟨torn, (frames crc32 es).length⟩, globalOffset⟩ =
        .ok none := fun _ => by
    simp [readNext, pull, SegmentReader.readNext_tornTail htorn]
  simpa [Except.map] using readAll_upto hsealed hes id fun _ => .stop (hend _)

end

theorem TxLogReader.readAll_single (hes : ∀ e ∈ es, e.Fits) (htorn : TornTail crc32 torn)
    (id : Nat) :
    (TxLogReader.ofSegments [(id, frames crc32 es ++ torn)]).readAll crc32 = .ok es := by
  have hnone : ∀ seg ∈ ([] : List (Nat × List TxEntry)), ∀ e ∈ seg.2, e.Fits := nofun
  exact readAll_segments hnone hes htorn id

/-- If the reader's next entry is origin-tagged or a delta, its frame is what comes next. -/
theorem TxLogReader.eq_frame_of_drains (he : e.v2 = true)
    (h : Drains (TxLogReader.readNext crc32) ⟨[segment], some ⟨tail, offset⟩, globalOffset⟩
      (.ok (e :: es))) :
    ∃ rest, tail = e.frame crc32 ++ rest := by
  obtain ⟨r, hn, _⟩ := h.head
  cases hread : SegmentReader.readNext crc32 true ⟨tail, offset⟩ with
  | error err => simp [readNext, pull, hread] at hn
  | ok o =>
    cases o with
    | none => simp [readNext, pull, hread] at hn
    | some p =>
      obtain ⟨body, htail, hparse⟩ := SegmentReader.readNext_some hread
      have hentry : p.1.entry = e := by
        simp only [readNext, pull, Option.getD_some, isEmpty_nil, hread] at hn
        cases hn
        rfl
      rw [hentry] at hparse
      exact ⟨p.2.inner, by rw [frame, ← eq_body_of_parseBody hparse he]; exact htail⟩

theorem TxLogReader.eq_frame_of_readAll (hsealed : ∀ seg ∈ sealedSegs, ∀ e ∈ seg.2, e.Fits)
    (hes : ∀ e ∈ es, e.Fits) {id : Nat} (he : e.v2 = true)
    (h : (TxLogReader.ofSegments (sealedSegs.map (fun seg => (seg.1, frames crc32 seg.2)) ++
      [(id, frames crc32 es ++ tail)])).readAll crc32 =
      .ok (sealedSegs.flatMap Prod.snd ++ es ++ [e])) :
    ∃ rest, tail = e.frame crc32 ++ rest := by
  have htail := drains_readAll crc32
    ⟨[(id, frames crc32 es ++ tail)], some ⟨tail, (frames crc32 es).length⟩,
      0 + (frames crc32 (sealedSegs.flatMap Prod.snd)).length + (frames crc32 es).length⟩
  generalize TxLogReader.readAll crc32 ⟨_, some ⟨tail, _⟩, _⟩ = out at htail
  have hall := (readAll_eq (drains_sealed hsealed (drains_frames hes id htail))).symm.trans h
  cases out with
  | error err => cases hall
  | ok rest =>
    have hlist := Except.ok.inj hall
    rw [append_assoc] at hlist
    obtain rfl := append_cancel_left (append_cancel_left hlist)
    exact eq_frame_of_drains he htail

end CqServer
