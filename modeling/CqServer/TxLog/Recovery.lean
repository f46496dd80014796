import CqServer.TxLog.Writer

/-!
# Torn tails and recovery

A crash in the middle of a write leaves some of the active segment's bytes. The
reader passes over an incomplete frame at the end of the active segment, but
reopening the writer does not remove it: the next append goes behind the torn
bytes, or seals them into a segment that may not have a torn tail.

`run_reads_expected` is the positive result, over any number of crashes: as long as
nothing is written behind a torn tail, the directory reads as the entries that were
complete when each crash came and those appended since. `exists_misread` is the
negative one: behind a torn tail there is always an append that is not read back.
-/

namespace CqServer

open Lib List BigEndian TxLogReader TxLogWriter TxEntry

variable {crc32 : Bytes → UInt32}

/-- The entries whose frames lie wholly within the first `budget` bytes. -/
def completeEntries (crc32 : Bytes → UInt32) : Nat → List TxEntry → List TxEntry
  | _, [] => []
  | budget, e :: es =>
    if (e.frame crc32).length ≤ budget then
      e :: completeEntries crc32 (budget - (e.frame crc32).length) es
    else []

def byteCount (files : List (Nat × Bytes)) : Nat := (files.map (·.2.length)).sum

/-- The writer's directory when only `n` bytes of the active segment are left. -/
def TxLogWriter.crashed (w : TxLogWriter) (n : Nat) : List (Nat × Bytes) :=
  w.sealedFiles ++ [(w.currentId, w.currentFile.take n)]

/-! ## What a crash leaves -/

theorem completeEntries_append (es es' : List TxEntry) (n : Nat) :
    completeEntries crc32 ((frames crc32 es).length + n) (es ++ es') =
      es ++ completeEntries crc32 n es' := by
  induction es with
  | nil => simp
  | cons e es ih =>
    have hle : (e.frame crc32).length ≤ (frames crc32 (e :: es)).length + n := by
      rw [frames_cons, length_append]
      omega
    have hsub : (frames crc32 (e :: es)).length + n - (e.frame crc32).length =
        (frames crc32 es).length + n := by
      rw [frames_cons, length_append]
      omega
    rw [cons_append, completeEntries, if_pos hle, hsub, ih, cons_append]

variable {e : TxEntry} {es : List TxEntry} {n : Nat}

theorem completeEntries_subset (h : e ∈ completeEntries crc32 n es) : e ∈ es := by
  induction es generalizing n with
  | nil => cases h
  | cons x es ih =>
    unfold completeEntries at h
    split at h
    · rcases mem_cons.mp h with rfl | h
      · exact mem_cons_self ..
      · exact mem_cons_of_mem _ (ih h)
    · cases h

variable {torn : Bytes}

theorem TornTail.take (h : TornTail crc32 torn) (n : Nat) : TornTail crc32 (torn.take n) := by
  obtain ⟨e, missing, he, hmissing, hsplit⟩ := h
  refine ⟨e, torn.drop n ++ missing, he, by simp [hmissing], ?_⟩
  rw [← append_assoc, take_append_drop, hsplit]

/-- Cutting a file of frames leaves the complete ones and a torn tail. -/
theorem take_frames (hes : ∀ e ∈ es, e.Fits) (htorn : TornTail crc32 torn) (n : Nat) :
    ∃ torn', (frames crc32 es ++ torn).take n = frames crc32 (completeEntries crc32 n es) ++ torn' ∧
      TornTail crc32 torn' := by
  induction es generalizing n with
  | nil => exact ⟨torn.take n, rfl, htorn.take n⟩
  | cons e es ih =>
    by_cases hle : (e.frame crc32).length ≤ n
    · obtain ⟨torn', heq, htorn'⟩ :=
        ih (fun x hx => hes x (mem_cons_of_mem _ hx)) (n - (e.frame crc32).length)
      refine ⟨torn', ?_, htorn'⟩
      rw [completeEntries, if_pos hle, frames_cons, frames_cons, append_assoc,
        append_assoc, ← heq, take_append, take_of_length_le hle]
    · -- the cut is inside this entry's frame
      have hmissing : (e.frame crc32).drop n ≠ [] := by
        rw [ne_eq, drop_eq_nil_iff]
        omega
      refine ⟨(e.frame crc32).take n, ?_, e, _, hes e (mem_cons_self ..), hmissing,
        take_append_drop ..⟩
      rw [completeEntries, if_neg hle, frames_cons, append_assoc,
        take_append_of_le_length (by omega)]
      rfl

theorem byteCount_frames (sealedSegs : List (Nat × List TxEntry)) :
    byteCount (sealedSegs.map fun seg => (seg.1, frames crc32 seg.2)) =
      (frames crc32 (sealedSegs.flatMap Prod.snd)).length := by
  induction sealedSegs with
  | nil => rfl
  | cons seg sealedSegs ih =>
    rw [flatMap_cons, frames_append, length_append, ← ih]
    rfl

variable {active : List TxEntry} {sealedSegs : List (Nat × List TxEntry)} {w : TxLogWriter}

/-- The directory after a crash opens, and holds the entries that were complete. -/
theorem Holds.crash (h : Holds crc32 w sealedSegs active torn) (hn : n ≤ w.currentFile.length)
    (segmentSize : Nat) :
    ∃ w' active' torn', CqServer.openWithSegmentSize crc32 (w.crashed n) segmentSize = .ok w' ∧
      Holds crc32 w' sealedSegs active' torn' ∧
      completeEntries crc32 (byteCount (w.crashed n)) (sealedSegs.flatMap Prod.snd ++ active) =
        sealedSegs.flatMap Prod.snd ++ active' ∧
      byteCount (w.crashed n) =
        (frames crc32 (sealedSegs.flatMap Prod.snd ++ active')).length + torn'.length := by
  obtain ⟨torn', htake, htorn'⟩ := take_frames h.activeFits h.tornTail n
  rw [← h.currentFile] at htake
  have hlen : (w.currentFile.take n).length = n := length_take_of_le hn
  have hcount : byteCount (w.crashed n) = (frames crc32 (sealedSegs.flatMap Prod.snd)).length + n := by
    rw [← byteCount_frames, ← h.sealedFiles]
    simp [byteCount, crashed, hn]
  -- the writer that would have written just these bytes
  have hcut : Holds crc32 { w with currentFile := w.currentFile.take n, currentBytes := n }
      sealedSegs (completeEntries crc32 n active) torn' :=
    { h with
      currentFile := htake, currentBytes := hlen.symm, tornTail := htorn'
      activeFits := fun e he => h.activeFits e (completeEntries_subset he) }
  obtain ⟨w', hopen, hholds⟩ := hcut.openWithSegmentSize segmentSize
  refine ⟨w', _, torn', hopen, hholds, ?_, ?_⟩
  · rw [hcount, completeEntries_append]
  · have hsum := congrArg length htake
    rw [length_append] at hsum
    rw [frames_append, length_append]
    omega

/-! ## Writing behind a torn tail -/

/-- A delta without topic, key and origin, and a payload of `n` zero bytes. -/
def TxEntry.blank (n : Nat) : TxEntry :=
  { sequence := 1
    timestampMs := 0
    topic := ""
    key := ""
    origin := ""
    payload := replicate n 0
    payloadFormat := .jsonDelta }

theorem TxEntry.bodyLen_blank (n : Nat) : (TxEntry.blank n).bodyLen = 23 + n := by
  have hempty : asBytes "" = [] := by decide
  simp [bodyLen, v2, blank, hempty]

/-- A short body's length field: three zero bytes and the length. -/
theorem TxEntry.frame_eq (crc32 : Bytes → UInt32) (h : e.bodyLen < 256) :
    ∃ tail, e.frame crc32 = 0 :: 0 :: 0 :: UInt8.ofNat e.bodyLen :: tail := by
  refine ⟨encode 4 (crc32 e.body).toNat ++ e.body, ?_⟩
  have h3 : e.bodyLen / 256 ^ 3 = 0 := by omega
  have h2 : e.bodyLen / 256 ^ 2 = 0 := by omega
  have h1 : e.bodyLen / 256 ^ 1 = 0 := by omega
  have h0 : e.bodyLen / 256 ^ 0 = e.bodyLen := by omega
  rw [frame, frameOf, length_body]
  simp only [encode, h3, h2, h1, h0]
  rfl

/-- Behind a torn frame, a short frame of another length is not where the reader looks. -/
theorem torn_append_frame_ne {torn missing rest : Bytes} {e₀ e : TxEntry} (he₀ : e₀.Fits)
    (htorn : torn ≠ []) (hsplit : torn ++ missing = e₀.frame crc32) (hlen : e.bodyLen ≠ e₀.bodyLen)
    (hpos : 0 < e.bodyLen) (hsmall : e.bodyLen < 256) :
    torn ++ e.frame crc32 ≠ e.frame crc32 ++ rest := by
  intro heq
  obtain ⟨tail, hframe⟩ := frame_eq crc32 hsmall
  by_cases hfour : 4 ≤ torn.length
  · -- both sides start with a length field
    have hleft : (torn ++ e.frame crc32).take 4 = encode 4 e₀.bodyLen := by
      have htake : (torn ++ missing).take 4 = torn.take 4 := take_append_of_le_length hfour
      rw [take_append_of_le_length hfour, ← htake, hsplit, frame, frameOf,
        length_body]
      exact take_left' (length_encode ..)
    have hright : (e.frame crc32 ++ rest).take 4 = encode 4 e.bodyLen := by
      rw [frame, frameOf, length_body]
      exact take_left' (length_encode ..)
    have hsize : e₀.bodyLen < 256 ^ 4 := lt_of_le_of_lt he₀.size (by decide)
    have hdecode := congrArg decode (hleft.symm.trans ((congrArg _ heq).trans hright))
    rw [decode_encode_of_lt hsize, decode_encode_of_lt (by omega)] at hdecode
    exact hlen hdecode.symm
  · -- the fourth byte is zero on the left and the length on the right
    have hbyte : UInt8.ofNat e.bodyLen ≠ 0 := by
      intro hzero
      have hval := congrArg UInt8.toNat hzero
      simp only [UInt8.toNat_ofNat'] at hval
      have : (0 : UInt8).toNat = 0 := rfl
      omega
    rcases torn with _ | ⟨a, _ | ⟨b, _ | ⟨c, _ | ⟨d, torn⟩⟩⟩⟩
    · exact htorn rfl
    · simp_all
    · simp_all
    · simp_all
    · simp at hfour

theorem append_blank (crc32 : Bytes → UInt32) (hn : n ≤ 1) (w : TxLogWriter) :
    (blank n).Bounded ∧ w.append crc32 (.blank n) =
      .ok ((w.makeRoom ((blank n).frame crc32).length).writeFrame crc32 (.blank n)) := by
  have hempty : asBytes "" = [] := by decide
  have htopic : asBytes (blank n).topic = [] := hempty
  have horigin : asBytes (blank n).origin = [] := hempty
  have hsize : ¬ maxEntrySize < (blank n).bodyLen := by
    rw [bodyLen_blank, maxEntrySize]
    omega
  constructor
  · refine ⟨by simp [blank, hempty], ?_⟩
    show (1 : UInt64).toNat < 2 ^ 56
    decide
  · rw [length_frame]
    simp [append, hsize, htopic, horigin]

theorem Holds.exists_misread (h : Holds crc32 w sealedSegs active torn) (hne : torn ≠ []) :
    ∃ e w', e.Bounded ∧ w.append crc32 e = .ok w' ∧ (ofSegments w'.files).readAll crc32 ≠
        .ok (sealedSegs.flatMap Prod.snd ++ active ++ [e]) := by
  obtain ⟨e₀, missing, he₀, hmissing, hsplit⟩ := h.tornTail
  obtain ⟨n, hn, hlen⟩ : ∃ n ≤ 1, (blank n).bodyLen ≠ e₀.bodyLen := by
    by_cases h23 : e₀.bodyLen = 23
    · exact ⟨1, le_refl 1, by rw [bodyLen_blank]; omega⟩
    · exact ⟨0, by omega, by rw [bodyLen_blank]; omega⟩
  obtain ⟨hbounded, happend⟩ := append_blank crc32 hn w
  refine ⟨_, _, hbounded, happend, ?_⟩
  unfold TxLogWriter.makeRoom
  split
  · -- the torn segment is sealed
    have hfiles : (w.rotate.writeFrame crc32 (.blank n)).files =
        sealedSegs.map (fun seg => (seg.1, frames crc32 seg.2)) ++
          (w.currentId, frames crc32 active ++ torn) ::
            [(w.currentId + 1, (blank n).frame crc32)] := by
      simp [TxLogWriter.files, TxLogWriter.rotate, TxLogWriter.writeFrame, h.sealedFiles,
        h.currentFile]
    rw [hfiles, readAll_upto h.sealedFits h.activeFits w.currentId
      fun _ => .fail (e := TxLogError.checksumMismatch (frames crc32 active).length) ?_]
    · intro h
      cases h
    · simp [readNext, pull, SegmentReader.readNext_tornTail h.tornTail, hne]
  · -- the frame stands behind the torn bytes
    have hfiles : (w.writeFrame crc32 (.blank n)).files =
        sealedSegs.map (fun seg => (seg.1, frames crc32 seg.2)) ++
          [(w.currentId, frames crc32 active ++ (torn ++ (blank n).frame crc32))] := by
      simp [TxLogWriter.files, TxLogWriter.writeFrame, h.sealedFiles, h.currentFile]
    intro hread
    rw [hfiles] at hread
    obtain ⟨rest, hrest⟩ := eq_frame_of_readAll h.sealedFits h.activeFits rfl hread
    refine torn_append_frame_ne he₀ hne hsplit hlen ?_ ?_ hrest
    · rw [bodyLen_blank]
      omega
    · rw [bodyLen_blank]
      omega

theorem Holds.fresh (crc32 : Bytes → UInt32) (segmentSize : Nat) :
    Holds crc32 (.fresh segmentSize) [] [] [] where
  sealedFiles := rfl
  currentFile := rfl
  currentBytes := rfl
  ascending := .nil
  below := nofun
  sealedFits := nofun
  activeFits := nofun
  tornTail := by
    obtain ⟨hbounded, happend⟩ := append_blank crc32 (Nat.zero_le 1) (.fresh segmentSize)
    exact tornTail_nil (append_fits hbounded happend)

/-! ## The journal through crashes -/

namespace Recovery

/-- `expected` and `torn` are not the program's: the entries that should be read back, and whether
the active segment ends inside a frame. -/
structure State where
  writer : TxLogWriter
  expected : List TxEntry
  torn : Bool
  deriving DecidableEq, Repr

inductive Move where
  | append (e : TxEntry)
  | forceRotate
  /-- a crash that leaves `n` bytes of the active segment, and a reopening -/
  | crash (n segmentSize : Nat)

/-- A failed append changes nothing. -/
def step (crc32 : Bytes → UInt32) (s : State) : Move → Option State
  | .append e =>
    match s.writer.append crc32 e with
    | .ok w => some { s with writer := w, expected := s.expected ++ [e] }
    | .error _ => some s
  | .forceRotate => some { s with writer := s.writer.rotate }
  | .crash n segmentSize =>
    if n ≤ s.writer.currentFile.length then
      let files := s.writer.crashed n
      let kept := completeEntries crc32 (byteCount files) s.expected
      match openWithSegmentSize crc32 files segmentSize with
      | .ok w => some ⟨w, kept, decide ((frames crc32 kept).length ≠ byteCount files)⟩
      | .error _ => none
    else none

/-- Nothing is written or sealed behind a torn tail. -/
def Ok (s : State) : Move → Prop
  | .append e => s.torn = false ∧ e.Bounded
  | .forceRotate => s.torn = false
  | .crash _ _ => True

def State.init (segmentSize : Nat) : State := ⟨.fresh segmentSize, [], false⟩

def Inv (crc32 : Bytes → UInt32) (s : State) : Prop :=
  ∃ sealedSegs active torn, Holds crc32 s.writer sealedSegs active torn ∧
    s.expected = sealedSegs.flatMap Prod.snd ++ active ∧ (s.torn = false → torn = [])

theorem Inv.init (crc32 : Bytes → UInt32) (segmentSize : Nat) :
    Inv crc32 (State.init segmentSize) :=
  ⟨[], [], [], Holds.fresh crc32 segmentSize, rfl, fun _ => rfl⟩

theorem Inv.step {s s' : State} {m : Move} (hinv : Inv crc32 s) (hok : Ok s m)
    (hstep : Recovery.step crc32 s m = some s') : Inv crc32 s' := by
  obtain ⟨sealedSegs, active, torn, hholds, hexpected, htorn⟩ := hinv
  cases m with
  | append e =>
    obtain rfl := htorn hok.1
    unfold Recovery.step at hstep
    cases happend : s.writer.append crc32 e with
    | error err =>
      simp only [happend] at hstep
      cases hstep
      exact ⟨sealedSegs, active, [], hholds, hexpected, fun _ => rfl⟩
    | ok w =>
      simp only [happend] at hstep
      cases hstep
      obtain ⟨sealedSegs', active', hholds', heq⟩ := hholds.append hok.2 happend
      refine ⟨sealedSegs', active', [], hholds', ?_, fun _ => rfl⟩
      rw [heq, ← hexpected]
  | forceRotate =>
    obtain rfl := htorn hok
    cases hstep
    refine ⟨_, _, [], hholds.rotate, ?_, fun _ => rfl⟩
    rw [hexpected]
    simp
  | crash n segmentSize =>
    by_cases hn : n ≤ s.writer.currentFile.length
    · simp only [Recovery.step, if_pos hn] at hstep
      obtain ⟨w', active', torn', hopen, hholds', hkept, hcount⟩ :=
        hholds.crash hn segmentSize
      rw [← hexpected] at hkept
      simp only [hopen, hkept] at hstep
      cases hstep
      refine ⟨sealedSegs, active', torn', hholds', rfl, ?_⟩
      intro hflag
      have hlen := of_decide_eq_false hflag
      exact eq_nil_of_length_eq_zero (by omega)
    · simp only [Recovery.step, if_neg hn] at hstep
      cases hstep

/-- In a run that never writes behind a torn tail, the directory always reads as the
entries complete at each crash and those appended since. -/
theorem run_reads_expected {segmentSize : Nat} {moves : List Move} {s : State}
    (hrun : Run (Recovery.step crc32) Ok (State.init segmentSize) moves s) :
    (ofSegments s.writer.files).readAll crc32 = .ok s.expected := by
  have hinv : Inv crc32 s := hrun.invariant (fun _ _ _ hi hok hst => hi.step hok hst)
    (Inv.init crc32 segmentSize)
  obtain ⟨sealedSegs, active, torn, hholds, hexpected, _⟩ := hinv
  rw [hexpected]
  exact hholds.readAll

theorem dropWhile_filter {segs : List (Nat × List TxEntry)} (hids : segs.Pairwise (·.1 < ·.1))
    {low resume : Nat} (hlow : low ≤ resume) (rest : List (Nat × List TxEntry)) :
    ((segs.filter fun seg => low ≤ seg.1) ++ rest).dropWhile (fun seg => seg.1 < resume) =
      (segs ++ rest).dropWhile fun seg => seg.1 < resume := by
  induction segs with
  | nil => rfl
  | cons seg segs ih =>
    obtain ⟨hseg, hids⟩ := pairwise_cons.mp hids
    by_cases hlt : seg.1 < resume
    · rw [cons_append, dropWhile_cons_of_pos (by simpa using hlt), ← ih hids, filter_cons]
      split
      · rw [cons_append, dropWhile_cons_of_pos (by simpa using hlt)]
      · rfl
    · rw [filter_eq_self.mpr]
      intro seg' hmem
      rcases mem_cons.mp hmem with rfl | hmem
      · simp
        omega
      · have := hseg seg' hmem
        simp
        omega

/-- **Reclaiming.** Once the segments below a cut-off are gone, a reader that starts at the cut-off
or later reads what it would have read: the end of the entries that are expected. -/
theorem run_pruned_reads {segmentSize : Nat} {moves : List Move} {s : State}
    (hrun : Run (Recovery.step crc32) Ok (State.init segmentSize) moves s) {cutoff resume : Nat}
    (hresume : min cutoff s.writer.currentId ≤ resume) :
    ∃ es, es <:+ s.expected ∧
      ((ofSegments s.writer.files).skipToSegment resume).readAll crc32 = .ok es ∧
      ((ofSegments (s.writer.pruneSegmentsBelow cutoff).files).skipToSegment resume).readAll crc32 =
        .ok es := by
  obtain ⟨sealedSegs, active, torn, hholds, hexpected, -⟩ : Inv crc32 s :=
    hrun.invariant (fun _ _ _ hi hok hst => hi.step hok hst) (Inv.init crc32 segmentSize)
  have hids : sealedSegs.Pairwise (·.1 < ·.1) := by
    have hfiles := hholds.ascending
    rwa [hholds.sealedFiles, pairwise_map] at hfiles
  refine ⟨_, ?_, hholds.readAll_skipToSegment resume,
    ((hholds.pruneSegmentsBelow cutoff).readAll_skipToSegment resume).trans ?_⟩
  · obtain ⟨passed, hpassed⟩ := dropWhile_suffix (l := sealedSegs ++ [(s.writer.currentId, active)])
      fun seg => decide (seg.1 < resume)
    refine ⟨passed.flatMap Prod.snd, ?_⟩
    rw [← flatMap_append, hpassed, hexpected]
    simp
  · exact congrArg (fun segs => Except.ok (segs.flatMap Prod.snd)) (dropWhile_filter hids hresume _)

/-- After a truncation to `n` bytes the writer reopens. What is read later is the complete
entries and the new ones if the cut was on a frame boundary or nothing was appended;
behind any other cut there is an append that is not read back. -/
theorem truncated_journal_reads_back {segmentSize : Nat} {es : List TxEntry}
    (hes : ∀ e ∈ es, e.Bounded) {w : TxLogWriter}
    (hw : (fresh segmentSize).appendAll crc32 es = .ok w) {n : Nat}
    (hn : n ≤ w.currentFile.length) :
    let files := w.crashed n
    let kept := completeEntries crc32 (byteCount files) es
    ∃ w₁, openWithSegmentSize crc32 files segmentSize = .ok w₁ ∧
      (∀ more w₂, (∀ e ∈ more, e.Bounded) → w₁.appendAll crc32 more = .ok w₂ →
        (frames crc32 kept).length = byteCount files ∨ more = [] →
          (ofSegments w₂.files).readAll crc32 = .ok (kept ++ more)) ∧
      ((frames crc32 kept).length ≠ byteCount files →
        ∃ e w₂, e.Bounded ∧ w₁.append crc32 e = .ok w₂ ∧
          (ofSegments w₂.files).readAll crc32 ≠ .ok (kept ++ [e])) := by
  dsimp only
  obtain ⟨sealedSegs, active, hholds, heq⟩ := (Holds.fresh crc32 segmentSize).appendAll hes hw
  obtain ⟨w₁, active', torn, hopen, hholds₁, hkept, hcount⟩ := hholds.crash hn segmentSize
  rw [heq] at hkept
  simp only [flatMap_nil, nil_append] at hkept
  rw [hkept]
  refine ⟨w₁, hopen, ?_, ?_⟩
  · intro more w₂ hmore happend hwhen
    rcases hwhen with hboundary | rfl
    · obtain rfl : torn = [] := eq_nil_of_length_eq_zero (by omega)
      obtain ⟨sealedSegs₂, active₂, hholds₂, heq₂⟩ := hholds₁.appendAll hmore happend
      rw [hholds₂.readAll, heq₂]
    · cases happend
      rw [hholds₁.readAll, append_nil]
  · intro hinside
    have hne : torn ≠ [] := by
      intro hnil
      rw [hnil, length_nil] at hcount
      omega
    exact hholds₁.exists_misread hne

/-! ## Two journals -/

/-- CRC-32 (reflected, polynomial `0xEDB88320`), the checksum of `crc32fast`. -/
def crc32fast (bytes : Bytes) : UInt32 :=
  let shift (c : UInt32) : UInt32 :=
    if c &&& 1 = 1 then (c >>> 1) ^^^ 0xEDB88320 else c >>> 1
  let addByte (c : UInt32) (b : UInt8) : UInt32 := shift^[8] (c ^^^ b.toUInt32)
  bytes.foldl addByte 0xFFFFFFFF ^^^ 0xFFFFFFFF

-- the check value of the algorithm, on the digits 1 to 9
example : crc32fast [49, 50, 51, 52, 53, 54, 55, 56, 57] = 0xCBF43926 := by decide +kernel

/-- A tick with a one-byte key and payload; its frame has 32 bytes. -/
def tick (sequence : UInt64) : TxEntry :=
  { sequence := sequence
    timestampMs := 1000
    topic := "/t"
    key := "A"
    origin := ""
    payload := [55]
    payloadFormat := .json }

theorem tick_bounded {sequence : UInt64} (h : sequence.toNat < 2 ^ 56) : (tick sequence).Bounded :=
  ⟨by show (asBytes "A").length < 65536; decide +kernel, h⟩

instance (e : TxEntry) : Decidable e.Bounded :=
  decidable_of_iff _ ⟨fun h => ⟨h.1, h.2⟩, fun h => And.intro h.1 h.2⟩

instance (s : State) (m : Move) : Decidable (Ok s m) := by
  cases m <;> dsimp only [Ok] <;> infer_instance

/-- A tick is cut off, a second crash takes the rest of it, and then another one is logged. -/
theorem run_reads_expected_crashed : ∃ s : State, Run (step crc32fast) Ok (State.init 80)
    [.append (tick 1), .crash 20 80, .crash 0 80, .append (tick 2)] s ∧ s.expected = [tick 2] ∧
      (ofSegments s.writer.files).readAll crc32fast = .ok s.expected :=
  Run.exists_of_check (fun s => s.expected = [tick 2]) (by decide +kernel) fun _ hrun hend =>
    ⟨hend, run_reads_expected hrun⟩

theorem run_pruned_reads_rotated : ∃ s : State, Run (step crc32fast) Ok (State.init 80)
    [.append (tick 1), .forceRotate, .append (tick 2)] s ∧ s.writer.currentId = 2 ∧
      ∃ es, es <:+ s.expected ∧
        ((ofSegments s.writer.files).skipToSegment 2).readAll crc32fast = .ok es ∧
        ((ofSegments (s.writer.pruneSegmentsBelow 2).files).skipToSegment 2).readAll crc32fast =
          .ok es :=
  Run.exists_of_check (fun s => s.writer.currentId = 2) (by decide +kernel) fun _ hrun hend =>
    ⟨hend, run_pruned_reads hrun (Nat.min_le_left ..)⟩

theorem ticks_bounded : ∀ e ∈ [tick 1, tick 2], e.Bounded := by
  intro e he
  rcases mem_pair.mp he with rfl | rfl
  · exact tick_bounded (by decide)
  · exact tick_bounded (by decide)

/-- A writer that goes on with a segment of these bytes. -/
def resumed (currentFile : Bytes) (maxSequence : UInt64) : TxLogWriter :=
  ⟨80, 1, currentFile.length, 0, maxSequence, [], currentFile⟩

theorem truncated_journal_reads_back_boundary :
    ∃ w w₁ w₂, (fresh 80).appendAll crc32fast [tick 1, tick 2] = .ok w ∧
      openWithSegmentSize crc32fast (w.crashed 32) 80 = .ok w₁ ∧
      w₁.appendAll crc32fast [tick 3] = .ok w₂ ∧
      (ofSegments w₂.files).readAll crc32fast = .ok [tick 1, tick 3] := by
  have hmore : ∀ e ∈ [tick 3], e.Bounded := by
    intro e he
    rw [mem_singleton.mp he]
    exact tick_bounded (by decide)
  have hw : (fresh 80).appendAll crc32fast [tick 1, tick 2] =
      .ok (((fresh 80).writeFrame crc32fast (tick 1)).writeFrame crc32fast (tick 2)) := by
    decide +kernel
  have happend : (resumed ((tick 1).frame crc32fast) 1).appendAll crc32fast [tick 3] =
      .ok ((resumed ((tick 1).frame crc32fast) 1).writeFrame crc32fast (tick 3)) := by
    decide +kernel
  obtain ⟨w₁, hopen, hreads, _⟩ := truncated_journal_reads_back ticks_bounded hw
    (show 32 ≤ _ by decide +kernel)
  obtain rfl : w₁ = resumed ((tick 1).frame crc32fast) 1 :=
    Except.ok.inj (hopen.symm.trans (by decide +kernel))
  have hread := hreads [tick 3] _ hmore happend (Or.inl (by decide +kernel))
  refine ⟨_, _, _, hw, hopen, happend, hread.trans ?_⟩
  decide +kernel

/-- A tick cut off after 20 of its 32 bytes: the next append is written behind the cut, and
the log cannot be read any more. -/
theorem append_behind_torn_tail_unreadable :
    ∃ w w₁ w₂, (fresh 80).appendAll crc32fast [tick 1] = .ok w ∧
      openWithSegmentSize crc32fast (w.crashed 20) 80 = .ok w₁ ∧
      w₁.appendAll crc32fast [tick 2] = .ok w₂ ∧
      completeEntries crc32fast (byteCount (w.crashed 20)) [tick 1] ++ [tick 2] = [tick 2] ∧
      (ofSegments w₂.files).readAll crc32fast = .error (.checksumMismatch 0) :=
  ⟨(fresh 80).writeFrame crc32fast (tick 1), resumed (((tick 1).frame crc32fast).take 20) 0,
    (resumed (((tick 1).frame crc32fast).take 20) 0).writeFrame crc32fast (tick 2),
    by decide +kernel⟩

end Recovery

end CqServer
