import CqServer.Lib.Run
import CqServer.TxLog.Reader

/-!
# Writing the transaction log

The writer appends to the segment with the highest id and rotates to a fresh one
before an append that would pass `segment_size`. Reopening looks for the last
segment, scans back for the highest sequence and goes on at the end of the file,
wherever that is: the bytes of an interrupted write stay in place.

`Holds` says which entries the files hold. It is kept by every operation as long as
the active segment ends at a frame boundary.
-/

namespace CqServer

open Lib List TxLogReader SegmentReader

/-- `TxLogWriter` and the files of its directory. -/
structure TxLogWriter where
  segmentSize : Nat
  currentId : Nat
  currentBytes : Nat
  entriesWritten : Nat
  maxSequence : UInt64
  /-- the segment files but the active one, as `list_segments` orders them -/
  sealedFiles : List (Nat × Bytes)
  currentFile : Bytes
  deriving DecidableEq, Repr

def TxLogWriter.fresh (segmentSize : Nat) : TxLogWriter := ⟨segmentSize, 1, 0, 0, 0, [], []⟩

variable (w : TxLogWriter)

/-- `list_segments` on the writer's directory. -/
def TxLogWriter.files : List (Nat × Bytes) :=
  w.sealedFiles ++ [(w.currentId, w.currentFile)]

section Writing

variable (crc32 : Bytes → UInt32)

/-- The backward scan for the highest sequence: the newest segment with an entry has it. -/
def scanMaxSequence : List (Nat × Bytes) → Except TxLogError UInt64
  | [] => .ok 0
  | segment :: older => do
    let entries ← (ofSegments [(1, segment.2)]).readAll crc32
    if entries.isEmpty then scanMaxSequence older
    else .ok (entries.foldl (fun m e => if m < e.sequence then e.sequence else m) 0)

/-- `open_with_segment_size` on a directory with these segments. -/
def openWithSegmentSize (existing : List (Nat × Bytes)) (segmentSize : Nat) :
    Except TxLogError TxLogWriter :=
  match existing.getLast? with
  | none =>
    .ok
      { segmentSize := segmentSize
        currentId := 1
        currentBytes := 0
        entriesWritten := 0
        maxSequence := 0
        sealedFiles := []
        currentFile := [] }
  | some (lastId, bytes) => do
    let maxSequence ← scanMaxSequence crc32 existing.reverse
    .ok
      { segmentSize := segmentSize
        currentId := lastId
        currentBytes := bytes.length
        entriesWritten := 0
        maxSequence := maxSequence
        sealedFiles := existing.dropLast
        currentFile := bytes }

/-- `rotate`, without an archive directory. -/
def TxLogWriter.rotate : TxLogWriter :=
  { w with
    sealedFiles := w.files
    currentId := w.currentId + 1
    currentFile := []
    currentBytes := 0 }

/-- The rotation before an append that would pass the limit. -/
def TxLogWriter.makeRoom (frameLen : Nat) : TxLogWriter :=
  if 0 < w.currentBytes ∧ w.segmentSize < w.currentBytes + frameLen then w.rotate else w

def TxLogWriter.writeFrame (w : TxLogWriter) (e : TxEntry) : TxLogWriter :=
  let frame := e.frame crc32
  { w with
    currentFile := w.currentFile ++ frame
    currentBytes := w.currentBytes + frame.length
    entriesWritten := w.entriesWritten + 1
    maxSequence := if w.maxSequence < e.sequence then e.sequence else w.maxSequence }

/-- `append_with_origin_format`; the entry carries the time stamp. -/
def TxLogWriter.append (w : TxLogWriter) (e : TxEntry) : Except TxLogError TxLogWriter :=
  if maxTopicLen < (asBytes e.topic).length then
    .error (.topicTooLong (asBytes e.topic).length maxTopicLen)
  else if maxOriginLen < (asBytes e.origin).length then
    .error (.originTooLong (asBytes e.origin).length maxOriginLen)
  else if maxEntrySize < e.bodyLen then
    .error (.entryTooLarge w.currentBytes e.bodyLen maxEntrySize)
  else .ok ((w.makeRoom (4 + 4 + e.bodyLen)).writeFrame crc32 e)

def TxLogWriter.appendAll (w : TxLogWriter) : List TxEntry → Except TxLogError TxLogWriter
  | [] => .ok w
  | e :: es => do
    let w ← w.append crc32 e
    w.appendAll es

end Writing

/-- `prune_segments_below`, with every deletion going through. -/
def TxLogWriter.pruneSegmentsBelow (cutoff : Nat) : TxLogWriter :=
  { w with
    sealedFiles := w.sealedFiles.filter fun segment => min cutoff w.currentId ≤ segment.1 }

variable {crc32 : Bytes → UInt32}

/-! ## What the files hold -/

/-- What an append does not check and the reader relies on. -/
structure TxEntry.Bounded (e : TxEntry) : Prop where
  key : (asBytes e.key).length < 65536
  sequence : e.sequence.toNat < 2 ^ 56

/-- The entries of each segment, and what is left of an interrupted write. -/
structure Holds (crc32 : Bytes → UInt32) (w : TxLogWriter)
    (sealedSegs : List (Nat × List TxEntry)) (active : List TxEntry) (torn : Bytes) : Prop where
  sealedFiles : w.sealedFiles = sealedSegs.map fun seg => (seg.1, frames crc32 seg.2)
  currentFile : w.currentFile = frames crc32 active ++ torn
  currentBytes : w.currentBytes = w.currentFile.length
  ascending : w.sealedFiles.Pairwise (·.1 < ·.1)
  below : ∀ file ∈ w.sealedFiles, file.1 < w.currentId
  sealedFits : ∀ seg ∈ sealedSegs, ∀ e ∈ seg.2, e.Fits
  activeFits : ∀ e ∈ active, e.Fits
  tornTail : TornTail crc32 torn

theorem append_ok {w w' : TxLogWriter} {e : TxEntry} (h : w.append crc32 e = .ok w') :
    (asBytes e.topic).length ≤ maxTopicLen ∧ (asBytes e.origin).length ≤ maxOriginLen ∧
      e.bodyLen ≤ maxEntrySize ∧
      w' = (w.makeRoom (e.frame crc32).length).writeFrame crc32 e := by
  unfold TxLogWriter.append at h
  split at h
  · cases h
  split at h
  · cases h
  split at h
  · cases h
  cases h
  rw [TxEntry.length_frame]
  exact ⟨by omega, by omega, by omega, rfl⟩

theorem append_fits {w w' : TxLogWriter} {e : TxEntry} (hb : e.Bounded)
    (h : w.append crc32 e = .ok w') : e.Fits := by
  obtain ⟨htopic, horigin, hsize, _⟩ := append_ok h
  exact ⟨htopic, hb.key, horigin, hsize, hb.sequence⟩

/-- **What was appended is read back**: after a successful append the file ends in the entry's
frame, and reading it gives the entry again, the time stamp aside, exactly if the key's length
fits its two bytes and the body's first byte tells the layout. -/
theorem append_readNext_iff {w w' : TxLogWriter} {e : TxEntry} (h : w.append crc32 e = .ok w') :
    (∃ earlier, w'.currentFile = earlier ++ e.frame crc32) ∧
      ∀ (active : Bool) (offset : Nat) (rest : Bytes),
        (∃ time n after, readNext crc32 active ⟨e.frame crc32 ++ rest, offset⟩ =
          .ok (some (⟨{ e with timestampMs := time }, n⟩, after))) ↔
        (asBytes e.key).length < 65536 ∧ e.TellsLayout := by
  obtain ⟨htopic, horigin, hsize, rfl⟩ := append_ok h
  refine ⟨⟨_, rfl⟩, fun active offset rest => ?_⟩
  have hmax : e.body.length ≤ maxEntrySize := by rwa [TxEntry.length_body]
  rw [TxEntry.frame, readNext_frameOf e.body_ne_nil hmax]
  constructor
  · rintro ⟨time, n, after, hread⟩
    cases hparse : parseBody e.body offset with
    | error err =>
      rw [hparse] at hread
      cases hread
    | ok entry =>
      rw [hparse] at hread
      injection hread with hsome
      obtain rfl := congrArg (fun read => RawEntry.entry read.1) (Option.some.inj hsome)
      exact tellsLayout_of_parseBody hparse
  · rintro ⟨hkey, hlayout⟩
    rw [parseBody_of_tellsLayout htopic hkey horigin hlayout offset]
    exact ⟨e.timestampMs, _, _, rfl⟩

/-- The first entry of the topic, from this process. -/
def orderEntry (key : String) (payload : Bytes) : TxEntry :=
  ⟨1, 0, "/orders", key, "", payload, .json⟩

theorem append_readNext_iff_order : ∃ w',
    (TxLogWriter.fresh 4096).append (fun _ => 0) (orderEntry "7" [0]) = .ok w' ∧
    ∃ time n after, readNext (fun _ => 0) true ⟨(orderEntry "7" [0]).frame (fun _ => 0) ++ [], 0⟩ =
      .ok (some (⟨{ orderEntry "7" [0] with timestampMs := time }, n⟩, after)) := by
  obtain ⟨w', h⟩ : ∃ w', (TxLogWriter.fresh 4096).append (fun _ => 0) (orderEntry "7" [0]) =
      .ok w' := ⟨_, rfl⟩
  exact ⟨w', h, ((append_readNext_iff h).2 true 0 []).mpr
    ⟨by decide +kernel, Or.inr (by decide +kernel)⟩⟩

theorem length_asBytes_replicate (n : Nat) :
    (asBytes (String.ofList (replicate n 'a'))).length = n := by
  induction n with
  | zero => rfl
  | succ n ih =>
    simp only [asBytes, String.toByteArray_ofList, Array.length_toList] at ih ⊢
    rw [replicate_succ, utf8Encode_cons, ByteArray.data_append, Array.size_append, ih, Nat.add_comm]
    rfl

theorem length_asBytes_orders : (asBytes "/orders").length = 7 := by decide +kernel

theorem body_orderEntry (key : String) (payload : Bytes) : (orderEntry key payload).body =
      BigEndian.encode 8 1 ++ BigEndian.encode 8 0 ++ textField "/orders" ++ textField key ++
        payload := by
  simp [TxEntry.body, TxEntry.v2, orderEntry]

/-- **The delete of a key of 65536 bytes is read back as a row of the empty key**: the key's
length is stored as zero, and its bytes become the payload. -/
theorem long_key_misread : ∃ (key : String) (w' : TxLogWriter), (asBytes key).length = 65536 ∧
    (TxLogWriter.fresh 4096).append (fun _ => 0) (orderEntry key []) = .ok w' ∧
    readNext (fun _ => 0) true ⟨w'.currentFile, 0⟩ =
      .ok (some (⟨orderEntry "" (asBytes key), w'.currentFile.length⟩,
        ⟨[], w'.currentFile.length⟩)) := by
  obtain ⟨key, hkey⟩ : ∃ key, (asBytes key).length = 65536 := ⟨_, length_asBytes_replicate 65536⟩
  have hempty : (asBytes "").length = 0 := rfl
  have hbody : (orderEntry key []).body = (orderEntry "" (asBytes key)).body := by
    have hwrap : textField key = textField "" ++ asBytes key := by
      rw [textField, hkey]
      exact congrArg (· ++ asBytes key) (BigEndian.encode_add_mul 2 0 1)
    rw [body_orderEntry, body_orderEntry, hwrap, append_nil, append_assoc _ (textField "")]
  have hlen : (orderEntry key []).bodyLen ≤ maxEntrySize := by
    rw [← TxEntry.length_body, body_orderEntry]
    simp [length_textField, hkey, length_asBytes_orders, maxEntrySize]
  have hfits : (orderEntry "" (asBytes key)).Fits := by
    refine ⟨length_asBytes_orders.le.trans (by decide), hempty.trans_lt (by decide),
      hempty.le.trans (by decide), ?_, Nat.one_lt_two_pow (by decide)⟩
    rwa [← TxEntry.length_body, ← hbody, TxEntry.length_body]
  have happend : (TxLogWriter.fresh 4096).append (fun _ => 0) (orderEntry key []) =
      .ok ((TxLogWriter.fresh 4096).writeFrame (fun _ => 0) (orderEntry key [])) := by
    simp [TxLogWriter.append, TxLogWriter.makeRoom, orderEntry, length_asBytes_orders, hempty,
      maxTopicLen, TxLogWriter.fresh]
    exact hlen
  have hread : readNext (fun _ => 0) true
      ⟨(orderEntry "" (asBytes key)).frame (fun _ => 0) ++ [], 0⟩ = _ :=
    readNext_frame hfits
  rw [append_nil, Nat.zero_add, TxEntry.frame, ← hbody] at hread
  exact ⟨key, _, hkey, happend, hread⟩

namespace Holds

variable {w : TxLogWriter} {sealedSegs : List (Nat × List TxEntry)} {active : List TxEntry}
  {torn : Bytes}

theorem readAll (h : Holds crc32 w sealedSegs active torn) : (ofSegments w.files).readAll crc32 =
      .ok (sealedSegs.flatMap Prod.snd ++ active) := by
  rw [TxLogWriter.files, h.sealedFiles, h.currentFile]
  exact readAll_segments h.sealedFits h.activeFits h.tornTail w.currentId

/-- Reading from a segment on gives the entries of that segment and the later ones. -/
theorem readAll_skipToSegment (h : Holds crc32 w sealedSegs active torn) (minSegmentId : Nat) :
    ((ofSegments w.files).skipToSegment minSegmentId).readAll crc32 =
      .ok (((sealedSegs ++ [(w.currentId, active)]).dropWhile fun seg =>
        seg.1 < minSegmentId).flatMap Prod.snd) := by
  have hsealed : w.sealedFiles.dropWhile (fun seg => seg.1 < minSegmentId) =
      (sealedSegs.dropWhile fun seg => seg.1 < minSegmentId).map
        fun seg => (seg.1, frames crc32 seg.2) := by
    rw [h.sealedFiles, dropWhile_map]
    rfl
  have hfits : ∀ seg ∈ sealedSegs.dropWhile (fun seg => seg.1 < minSegmentId),
      ∀ e ∈ seg.2, e.Fits := fun seg hseg =>
    h.sealedFits seg ((dropWhile_sublist _).mem hseg)
  have hrest := readAll_segments hfits h.activeFits h.tornTail w.currentId
  have hactive := readAll_single h.activeFits h.tornTail w.currentId
  simp only [skipToSegment, ofSegments, TxLogWriter.files,
    dropWhile_append, hsealed, h.currentFile, isEmpty_map]
  by_cases hempty : (sealedSegs.dropWhile fun seg => seg.1 < minSegmentId).isEmpty = true
  · -- only the active segment can be left
    rw [if_pos hempty, if_pos hempty]
    by_cases hbelow : w.currentId < minSegmentId
    · rw [dropWhile_cons_of_pos (by simpa using hbelow),
        dropWhile_cons_of_pos (by simpa using hbelow)]
      rfl
    · rw [dropWhile_cons_of_neg (by simpa using hbelow),
        dropWhile_cons_of_neg (by simpa using hbelow), flatMap_singleton]
      exact hactive
  · rw [if_neg hempty, if_neg hempty, flatMap_append, flatMap_singleton]
    exact hrest

section
variable (h : Holds crc32 w sealedSegs active [])
include h

theorem rotate : Holds crc32 w.rotate (sealedSegs ++ [(w.currentId, active)]) [] [] where
  sealedFiles := by
    simp [TxLogWriter.rotate, TxLogWriter.files, h.sealedFiles, h.currentFile]
  currentFile := rfl
  currentBytes := rfl
  ascending := pairwise_concat h.ascending h.below
  below :=
    forall_mem_concat (fun file hfile => Nat.lt_succ_of_lt (h.below file hfile)) (Nat.lt_succ_self _)
  sealedFits := forall_mem_concat h.sealedFits h.activeFits
  activeFits := nofun
  tornTail := h.tornTail

theorem writeFrame {e : TxEntry} (he : e.Fits) :
    Holds crc32 (w.writeFrame crc32 e) sealedSegs (active ++ [e]) [] where
  __ := h
  currentFile := by
    have hfile := h.currentFile
    simp [TxLogWriter.writeFrame, hfile]
  currentBytes := by
    simp [TxLogWriter.writeFrame, h.currentBytes]
  activeFits := forall_mem_concat h.activeFits he

theorem append {e : TxEntry} {w' : TxLogWriter}
    (hb : e.Bounded) (happend : w.append crc32 e = .ok w') :
    ∃ sealedSegs' active', Holds crc32 w' sealedSegs' active' [] ∧
      sealedSegs'.flatMap Prod.snd ++ active' = sealedSegs.flatMap Prod.snd ++ active ++ [e] := by
  have he := append_fits hb happend
  obtain ⟨_, _, _, rfl⟩ := append_ok happend
  unfold TxLogWriter.makeRoom
  split
  · exact ⟨_, _, h.rotate.writeFrame he, by simp⟩
  · exact ⟨_, _, h.writeFrame he, by simp⟩

theorem appendAll {es : List TxEntry} {w' : TxLogWriter}
    (hb : ∀ e ∈ es, e.Bounded) (happend : w.appendAll crc32 es = .ok w') :
    ∃ sealedSegs' active', Holds crc32 w' sealedSegs' active' [] ∧
      sealedSegs'.flatMap Prod.snd ++ active' = sealedSegs.flatMap Prod.snd ++ active ++ es := by
  induction es generalizing w sealedSegs active with
  | nil =>
    cases happend
    exact ⟨_, _, h, by simp⟩
  | cons e es ih =>
    obtain ⟨w₁, hone, hrest⟩ := bind_ok happend
    obtain ⟨sealedSegs₁, active₁, h₁, heq₁⟩ := h.append (hb e (mem_cons_self ..)) hone
    obtain ⟨sealedSegs₂, active₂, h₂, heq₂⟩ :=
      ih h₁ (fun x hx => hb x (mem_cons_of_mem _ hx)) hrest
    refine ⟨sealedSegs₂, active₂, h₂, ?_⟩
    rw [heq₂, heq₁]
    simp

end

/-- Pruning drops the entries of the segments below the cut-off, and no others. -/
theorem pruneSegmentsBelow (h : Holds crc32 w sealedSegs active torn) (cutoff : Nat) :
    Holds crc32 (w.pruneSegmentsBelow cutoff)
      (sealedSegs.filter fun seg => min cutoff w.currentId ≤ seg.1) active torn where
  __ := h
  sealedFiles := by
    simp only [TxLogWriter.pruneSegmentsBelow, h.sealedFiles, filter_map]
    rfl
  ascending := h.ascending.sublist filter_sublist
  below := fun file hfile => h.below file (mem_filter.mp hfile).1
  sealedFits := fun seg hseg => h.sealedFits seg (mem_filter.mp hseg).1

end Holds

theorem scanMaxSequence_ok {segments : List (Nat × Bytes)}
    (h : ∀ seg ∈ segments, ∃ es, (ofSegments [(1, seg.2)]).readAll crc32 = .ok es) :
    ∃ m, scanMaxSequence crc32 segments = .ok m := by
  induction segments with
  | nil => exact ⟨0, rfl⟩
  | cons segment older ih =>
    obtain ⟨es, hes⟩ := h segment (mem_cons_self ..)
    simp only [scanMaxSequence, hes, ok_bind]
    split
    · exact ih fun seg hseg => h seg (mem_cons_of_mem _ hseg)
    · exact ⟨_, rfl⟩

theorem Holds.openWithSegmentSize {w : TxLogWriter} {sealedSegs : List (Nat × List TxEntry)}
    {active : List TxEntry} {torn : Bytes} (h : Holds crc32 w sealedSegs active torn)
    (segmentSize : Nat) :
    ∃ w', CqServer.openWithSegmentSize crc32 w.files segmentSize = .ok w' ∧
      Holds crc32 w' sealedSegs active torn := by
  have hread : ∀ seg ∈ w.files.reverse,
      ∃ es, (ofSegments [(1, seg.2)]).readAll crc32 = .ok es := by
    intro seg hseg
    rcases mem_append.mp (mem_reverse.mp hseg) with hseg | hseg
    · rw [h.sealedFiles] at hseg
      obtain ⟨s, hs, rfl⟩ := mem_map.mp hseg
      have hwhole := readAll_single (h.sealedFits s hs) h.tornTail.nil 1
      rw [append_nil] at hwhole
      exact ⟨s.2, hwhole⟩
    · rw [mem_singleton.mp hseg]
      have hlast := readAll_single h.activeFits h.tornTail 1
      rw [← h.currentFile] at hlast
      exact ⟨active, hlast⟩
  obtain ⟨m, hm⟩ := scanMaxSequence_ok hread
  have hlast : w.files.getLast? = some (w.currentId, w.currentFile) := by
    simp [TxLogWriter.files]
  have hsealed : w.files.dropLast = w.sealedFiles := by
    simp [TxLogWriter.files]
  refine ⟨⟨segmentSize, w.currentId, w.currentFile.length, 0, m, w.sealedFiles, w.currentFile⟩,
    ?_, ?_⟩
  · simp [CqServer.openWithSegmentSize, hlast, hm, hsealed, ok_bind]
  · exact { h with currentBytes := rfl }

end CqServer
