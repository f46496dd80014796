import CqServer.Topic.LogText

/-!
# Checkpoints and restarts

A checkpoint builds a snapshot of the topic under the read lock, replaces the
snapshot file, and then deletes the segments below the one that was active at
the build, one file at a time. Publishers append and rotate in between. A start
loads the snapshot, if there is one, and replays the segments from the
snapshot's own on; entries the snapshot covers are dropped by their sequence.

Seen through its keys a restart therefore does two things: it takes the
snapshot's records, and applies the entries with later sequences
(`replayLog_contents`). `Covers` says that this gives the live records; it
survives a publish because the entry is at the end of both logs, and a deletion
because the segment deleted is not replayed. The slots do not survive: a publish
without a key may then meet another record in slot 0 (`restart_overwrites_record`).
The entries are replayed as they are read from the bytes of the files.
-/

namespace CqServer

open Lib StoreState List Function SlotTable

variable {σ : Schema}

structure SowSnapshot where
  sequence : Nat
  segmentId : Nat
  originHighwater : AList (fun _ : String => Nat)
  rows : List JsonMap

abbrev Segment := Nat × List LogEntry

namespace Topic

section Snapshots
variable [HostText]

/-- `build_snapshot`; the order in which the key index yields its slots is not
specified. -/
def buildSnapshot (t : Topic σ) (segmentId : Nat) (slots : List Nat) : SowSnapshot where
  sequence := t.nextSequence
  segmentId := segmentId
  originHighwater := t.replicatedHighwater
  rows := slots.map fun r => (t.state.row r).getRowMap

def applySnapshotRow (cfg : TopicConfig) (now : Nat) (t : Topic σ) (m : JsonMap) : Topic σ :=
  t.writeStoreReplay cfg now (.ofMap σ (flatView m))

def applySnapshot (cfg : TopicConfig) (decode : Decode) (now : Nat)
    (t : Topic σ) (snap : SowSnapshot) : Topic σ :=
  let t := snap.rows.foldl
    (fun t row => match decode row with
      | some m => t.applySnapshotRow cfg now m
      | none => t) t
  let highwater := snap.originHighwater.entries.foldl
    (fun hw e => hw.insert e.1 (max ((hw.lookup e.1).getD 0) e.2)) t.replicatedHighwater
  { t with replicatedHighwater := highwater }.bumpSequenceTo snap.sequence

end Snapshots

end Topic

/-- The `max_sequence` a writer finds when it is opened: that of the newest
segment with any entry. -/
def maxSequence (segments : List Segment) : Nat :=
  match segments.reverse.find? fun seg => !seg.2.isEmpty with
  | some seg => seg.2.foldl (fun m e => max m e.sequence) 0
  | none => 0

def entriesFrom (resume : Nat) (segments : List Segment) : List LogEntry :=
  (segments.dropWhile fun seg => seg.1 < resume).flatMap Prod.snd

/-- A segment as the writer is given it. -/
def LogCodec.written (codec : LogCodec) (time : LogEntry → UInt64) (seg : Segment) :
    Nat × List TxEntry :=
  (seg.1, seg.2.map fun e => codec.write (time e) e)

/-- The entries that are replayed are what the reader gets from the bytes of the log's files. -/
theorem readAll_eq_entriesFrom {crc32 : Bytes → UInt32} {codec : LogCodec}
    {time : LogEntry → UInt64} {sealedSegs : List Segment} {active : Segment} {w : TxLogWriter}
    {torn : Bytes} (hid : w.currentId = active.1)
    (h : Holds crc32 w (sealedSegs.map (codec.written time)) (codec.written time active).2 torn)
    (hlegible : ∀ e ∈ (sealedSegs ++ [active]).flatMap Prod.snd, e.Legible) (resume : Nat) :
    (((TxLogReader.ofSegments w.files).skipToSegment resume).readAll crc32).map
        (filterMap codec.read) =
      .ok ((entriesFrom resume (sealedSegs ++ [active])).filterMap codec.readBack) := by
  have hsegs : sealedSegs.map (codec.written time) ++ [(w.currentId, (codec.written time active).2)] =
      (sealedSegs ++ [active]).map (codec.written time) := by
    rw [map_append, hid]
    rfl
  have hread : ∀ seg ∈ sealedSegs ++ [active],
      (codec.written time seg).2.filterMap codec.read = seg.2.filterMap codec.readBack := by
    intro seg hseg
    rw [LogCodec.written, filterMap_map]
    refine filterMap_congr fun e he => ?_
    have he := hlegible e (mem_flatMap.mpr ⟨seg, hseg, he⟩)
    exact (LogCodec.read_write he _).trans (LogCodec.readBack_of_legible he).symm
  rw [h.readAll_skipToSegment, hsegs, entriesFrom, dropWhile_map, flatMap_map]
  show Except.ok _ = _
  rw [filterMap_flatMap, filterMap_flatMap]
  exact congrArg Except.ok (flatMap_congr fun seg hseg => hread seg ((dropWhile_sublist _).mem hseg))

section StartUp
variable [HostText]

def loadSnapshot (cfg : TopicConfig) (decode : Decode) (now : Nat)
    (t : Topic σ) : Option SowSnapshot → Topic σ
  | some snap => t.applySnapshot cfg decode now snap
  | none => t

/-- `apply_snapshot` on a topic whose log is attached, and the replay of what was read. -/
def recover (σ : Schema) (cfg : TopicConfig) (codec : LogCodec) (now nextSequence : Nat)
    (durable : Option SowSnapshot) (entries : List LogEntry) : Topic σ :=
  (loadSnapshot cfg codec.decode now { Topic.new σ with nextSequence } durable).replayLog cfg some
    now entries

/-- The start-up of a topic: `attach_txlog`, `apply_snapshot`, and the replay of
the segments from the snapshot's on. -/
def startUp (σ : Schema) (cfg : TopicConfig) (codec : LogCodec) (now : Nat)
    (segments : List Segment) (durable : Option SowSnapshot) : Topic σ :=
  recover σ cfg codec now (maxSequence segments) durable
    ((entriesFrom ((durable.map SowSnapshot.segmentId).getD 0) segments).filterMap codec.readBack)

end StartUp

theorem le_foldl_max {log : List LogEntry} {e : LogEntry} (he : e ∈ log) (m : Nat) :
    e.sequence ≤ log.foldl (fun m e => max m e.sequence) m := by
  have hbase : ∀ (log : List LogEntry) (m : Nat),
      m ≤ log.foldl (fun m e => max m e.sequence) m := by
    intro log
    induction log with
    | nil => exact fun m => le_rfl
    | cons e log ih => exact fun m => (le_max_left _ _).trans (ih _)
  induction log generalizing m with
  | nil => cases he
  | cons e' log ih =>
    rcases mem_cons.mp he with rfl | he
    · exact (le_max_right _ _).trans (hbase log _)
    · exact ih he _

theorem le_maxSequence {segments : List Segment}
    (hsorted : (segments.flatMap Prod.snd).Pairwise fun e e' => e.sequence < e'.sequence)
    {e : LogEntry} (he : e ∈ segments.flatMap Prod.snd) : e.sequence ≤ maxSequence segments := by
  induction segments using reverseRecOn with
  | nil => cases he
  | append_singleton segments seg ih =>
    rw [flatMap_append, flatMap_singleton] at hsorted he
    obtain ⟨hold, -, hcross⟩ := pairwise_append.mp hsorted
    cases hseg : seg.2 with
    | nil =>
      rw [hseg, append_nil] at he
      simpa [maxSequence, hseg] using ih hold he
    | cons e₀ es =>
      rw [hseg] at he hcross
      suffices e.sequence ≤ (e₀ :: es).foldl (fun m e => max m e.sequence) 0 by
        simpa [maxSequence, hseg] using this
      rcases mem_append.mp he with he | he
      · exact (hcross e he e₀ mem_cons_self).le.trans (le_foldl_max mem_cons_self _)
      · exact le_foldl_max he _

theorem dropWhile_eq_filter {segments : List Segment}
    (hids : segments.Pairwise fun s s' => s.1 < s'.1) (resume : Nat) :
    (segments.dropWhile fun seg => seg.1 < resume) =
      segments.filter fun seg => resume ≤ seg.1 := by
  induction segments with
  | nil => rfl
  | cons seg segments ih =>
    obtain ⟨hseg, hids⟩ := pairwise_cons.mp hids
    by_cases hlt : seg.1 < resume
    · simp [hlt, ih hids]
    have hall : ∀ s ∈ segments, resume ≤ s.1 := by
      intro s hs
      have := hseg s hs
      omega
    have hle : resume ≤ seg.1 := by omega
    simp only [hlt, decide_false, Bool.false_eq_true, not_false_eq_true,
      dropWhile_cons_of_neg, hle, decide_true, filter_cons_of_pos, cons.injEq,
      true_and]
    exact (filter_eq_self.mpr fun s hs => by simpa using hall s hs).symm

/-! ## Replay through the keys -/

section Contents
variable [HostText] {cfg : TopicConfig} {decode : Decode}

/-- An entry as an update of the records. -/
def applyEntry (cfg : TopicConfig) (c : String → Option (Row σ)) (e : LogEntry) :
    String → Option (Row σ) :=
  match e.payload with
  | none => update c e.key none
  | some payload =>
    let v := Values.ofMap σ (flatView payload)
    match computeKeyWith v.vals (cfg.keyColIndices σ) with
    | some k => update c k (some (upsertRow (c k) v))
    | none => c

/-- The entry of a tombstone or of a keyed full publish, as the topic's own
writer makes them. -/
structure Replayable (σ : Schema) (cfg : TopicConfig) (decode : Decode)
    (e : LogEntry) : Prop where
  origin : e.origin = cfg.originId
  positive : 0 < e.sequence
  format : e.format = .json
  decodes : ∀ payload, e.payload = some payload → decode payload = some payload
  keyed : ∀ payload, e.payload = some payload →
    (computeKeyWith (Values.ofMap σ (flatView payload)).vals (cfg.keyColIndices σ)).isSome

variable {k : String} {keyCols : List σ.Col} {v : Values σ}

theorem commit_contents (hk : computeKeyWith v.vals keyCols = some k) (now : Nat)
    (st : StoreState σ) :
    (st.commitValuesLocked keyCols now v).1.contents =
      update st.contents k (some (upsertRow (st.contents k) v)) := by
  funext k'
  rw [commitValuesLocked_contents hk, update_apply]

variable {key : String}

omit [HostText] in
theorem remove_contents {st st' : StoreState σ} {r : Nat} (h : st.removeKey key = some (st', r)) :
    st'.contents = update st.contents key none := by
  funext k
  rw [removeKey_contents h, update_apply]

variable {origin : String}

omit [HostText] in
theorem noteApplied_own (t : Topic σ) (ho : origin = cfg.originId) (seq : Nat) :
    t.replayNoteApplied cfg origin seq = t.bumpSequenceTo seq := by
  subst ho
  simp [Topic.replayNoteApplied, Topic.ownOrigin]

omit [HostText] in
theorem isDuplicate_own (t : Topic σ) (ho : origin = cfg.originId) {seq : Nat} (hpos : 0 < seq) :
    t.replayIsDuplicate cfg origin seq = decide (seq ≤ t.lastAppliedSequence) := by
  rw [Topic.isDuplicate_eq_mark t origin hpos, Topic.mark, if_pos]
  simp [Topic.ownOrigin, ho]

/-- A tombstone, or a full publish that decodes and has a key. -/
structure PlainEntry (σ : Schema) (cfg : TopicConfig) (decode : Decode)
    (e : LogEntry) : Prop where
  format : e.format = .json
  decodes : ∀ payload, e.payload = some payload → decode payload = some payload
  keyed : ∀ payload, e.payload = some payload →
    (computeKeyWith (Values.ofMap σ (flatView payload)).vals (cfg.keyColIndices σ)).isSome

variable {e : LogEntry}

theorem Replayable.plain (h : Replayable σ cfg decode e) : PlainEntry σ cfg decode e :=
  ⟨h.format, h.decodes, h.keyed⟩

variable {t : Topic σ}

theorem replayEntry_fresh (he : PlainEntry σ cfg decode e)
    (hnew : t.replayIsDuplicate cfg e.origin e.sequence = false) (now : Nat) :
    ∃ st : StoreState σ, st.contents = applyEntry cfg t.state.contents e ∧
      t.replayEntry cfg decode now e =
        Topic.replayNoteApplied cfg { t with state := st } e.origin e.sequence := by
  unfold Topic.replayEntry applyEntry
  cases hp : e.payload with
  | none =>
    simp only [Topic.replayDeleteOrigin, hnew]
    cases hrem : t.state.removeKey e.key with
    | none =>
      have hgone := view_of_lookup_none (removeKey_eq_none.mp hrem)
      exact ⟨t.state, (update_eq_self_iff.mpr hgone.symm).symm, rfl⟩
    | some p => exact ⟨p.1, remove_contents hrem, rfl⟩
  | some payload =>
    obtain ⟨k, hk⟩ := Option.isSome_iff_exists.mp (he.keyed payload hp)
    simp only [he.decodes payload hp, he.format, Topic.replayUpsertMapOrigin, hnew, hk]
    exact ⟨_, commit_contents hk now t.state, rfl⟩

/-- What an entry does to a topic under recovery: nothing if it is covered, else
its update, and the watermarks follow. -/
theorem replayEntry_spec (he : Replayable σ cfg decode e) (now : Nat) (t : Topic σ) :
    (e.sequence ≤ t.lastAppliedSequence → t.replayEntry cfg decode now e = t) ∧
    (t.lastAppliedSequence < e.sequence →
      (t.replayEntry cfg decode now e).state.contents = applyEntry cfg t.state.contents e ∧
      (t.replayEntry cfg decode now e).lastAppliedSequence = e.sequence ∧
      (t.replayEntry cfg decode now e).nextSequence = max t.nextSequence e.sequence) := by
  have hdup := isDuplicate_own t he.origin he.positive
  constructor
  · intro hle
    exact replayEntry_duplicate (by simpa [hdup] using hle) now
  · intro hlt
    obtain ⟨st, hcont, heq⟩ := replayEntry_fresh he.plain (t := t) (by simpa [hdup] using hlt) now
    rw [heq, noteApplied_own _ he.origin]
    exact ⟨hcont, max_eq_right hlt.le, rfl⟩

variable {log : List LogEntry}

/-- **Replay through the keys**: the entries beyond the watermark are applied to
the records, in order. -/
theorem replayLog_contents (hsorted : log.Pairwise fun e e' => e.sequence < e'.sequence)
    (hrep : ∀ e ∈ log, Replayable σ cfg decode e) (now : Nat) (t : Topic σ) :
    (t.replayLog cfg decode now log).state.contents =
      (log.filter fun e => t.lastAppliedSequence < e.sequence).foldl (applyEntry cfg)
        t.state.contents := by
  induction log generalizing t with
  | nil => rfl
  | cons e log ih =>
    obtain ⟨hfirst, hsorted⟩ := pairwise_cons.mp hsorted
    obtain ⟨hskip, happly⟩ := replayEntry_spec (hrep e mem_cons_self) now t
    have ih := ih hsorted fun e' he' => hrep e' (mem_cons_of_mem _ he')
    rw [show t.replayLog cfg decode now (e :: log) =
      (t.replayEntry cfg decode now e).replayLog cfg decode now log from rfl]
    by_cases hle : e.sequence ≤ t.lastAppliedSequence
    · rw [hskip hle, ih, filter_cons_of_neg (by simpa using hle)]
    have hlt : t.lastAppliedSequence < e.sequence := by omega
    obtain ⟨hcont, hlast, -⟩ := happly hlt
    have hrest : ∀ e' ∈ log, e.sequence < e'.sequence ∧ t.lastAppliedSequence < e'.sequence := by
      intro e' he'
      have := hfirst e' he'
      omega
    rw [ih, hcont, hlast, filter_cons_of_pos (by simpa using hlt), foldl_cons,
      filter_eq_self.mpr fun e' he' => by simpa using (hrest e' he').1,
      filter_eq_self.mpr fun e' he' => by simpa using (hrest e' he').2]

theorem nextSequence_le_replayLog (hrep : ∀ e ∈ log, Replayable σ cfg decode e) (now : Nat)
    (t : Topic σ) : t.nextSequence ≤ (t.replayLog cfg decode now log).nextSequence := by
  induction log generalizing t with
  | nil => exact le_rfl
  | cons e log ih =>
    obtain ⟨hskip, happly⟩ := replayEntry_spec (hrep e mem_cons_self) now t
    refine le_trans ?_ (ih (fun e' he' => hrep e' (mem_cons_of_mem _ he')) _)
    by_cases hle : e.sequence ≤ t.lastAppliedSequence
    · rw [hskip hle]
    · rw [(happly (by omega)).2.2]
      exact le_max_left _ _

/-! ## Loading a snapshot -/

/-- A row that its JSON form gives back. -/
def Row.RoundTrips (r : Row σ) : Prop := Row.null.write (Values.ofMap σ r.getRowMap) = r

instance (r : Row σ) : Decidable r.RoundTrips := inferInstanceAs (Decidable (_ = _))

/-- Every record is filed under the key of its row, and no key cell is null. -/
def KeyedCells (keyCols : List σ.Col) (c : String → Option (Row σ)) : Prop :=
  ∀ k r, c k = some r → recordKey keyCols r = some k ∧ ∀ i ∈ keyCols, (r.cells i).isNull = false

theorem flatView_getRowMap (r : Row σ) : flatView r.getRowMap = r.getRowMap := by
  refine flatView_foldl ?_ σ.cols
  intro m i hm
  split
  · exact hm
  · exact mapHasNesting_insert (Value.toJson_flat _) hm

/-- Loading rows of a state into a topic that has none of their keys. -/
theorem applyRows_contents (hσ : σ.Distinct) {source : StoreState σ}
    (hkeyed : KeyedCells (cfg.keyColIndices σ) source.contents)
    (hrows : ∀ k r, source.contents k = some r →
      r.RoundTrips ∧ decode r.getRowMap = some r.getRowMap)
    (now : Nat) {slots : List Nat} (hnodup : slots.Nodup)
    (hlive : ∀ r ∈ slots, source.table.Live r) (t : Topic σ)
    (hnew : ∀ k r, source.table.keyToRow.lookup k = some r → r ∈ slots →
      t.state.contents k = none) (k : String) :
    ((slots.map fun r => (source.row r).getRowMap).foldl
      (fun t row => match decode row with
        | some m => t.applySnapshotRow cfg now m
        | none => t) t).state.contents k =
      match source.table.keyToRow.lookup k with
      | some r => if r ∈ slots then some (source.row r) else t.state.contents k
      | none => t.state.contents k := by
  induction slots generalizing t with
  | nil => cases source.table.keyToRow.lookup k <;> rfl
  | cons r slots ih =>
    obtain ⟨hr, hnodup⟩ := nodup_cons.mp hnodup
    obtain ⟨k₀, hk₀⟩ := hlive r mem_cons_self
    have hrec : source.contents k₀ = some (source.row r) := view_of_lookup hk₀
    obtain ⟨hkey, hcells⟩ := hkeyed k₀ _ hrec
    obtain ⟨hrt, hdec⟩ := hrows k₀ _ hrec
    have hstep : (t.applySnapshotRow cfg now (source.row r).getRowMap).state.contents =
        update t.state.contents k₀ (some (source.row r)) := by
      have hval : computeKeyWith (Values.ofMap σ (source.row r).getRowMap).vals
          (cfg.keyColIndices σ) = some k₀ := by
        refine (computeKeyWith_congr fun i hi => ?_).trans hkey
        have hne : (Values.ofMap σ (source.row r).getRowMap).vals i ≠ .null := by
          rw [Ne, Values.ofMap_vals_eq_null, Row.getRowMap_get? hσ, if_pos (hcells i hi)]
          simp
        have hcell := congrArg (fun row : Row σ => row.cells i) hrt
        rw [Row.write_cells, if_neg hne] at hcell
        exact hcell
      rw [Topic.applySnapshotRow, flatView_getRowMap]
      refine (commit_contents hval now t.state).trans ?_
      rw [hnew k₀ r hk₀ mem_cons_self]
      exact congrArg (fun row => update t.state.contents k₀ (some row)) hrt
    rw [map_cons, foldl_cons, hdec]
    rw [ih hnodup (fun r' hr' => hlive r' (mem_cons_of_mem _ hr')), hstep]
    · cases hk : source.table.keyToRow.lookup k with
      | none =>
        have hne : k ≠ k₀ := by
          intro heq
          rw [heq, hk₀] at hk
          cases hk
        simp [hne]
      | some r' =>
        by_cases hkk : k = k₀
        · subst hkk
          cases hk.symm.trans hk₀
          simp
        · have hne : r' ≠ r := by
            intro heq
            exact hkk (source.table.slot_inj (heq ▸ hk) hk₀)
          simp [hkk, hne]
    · intro k' r' hk' hr'
      have hne : k' ≠ k₀ := by
        intro heq
        rw [heq, hk₀] at hk'
        exact hr (Option.some.inj hk' ▸ hr')
      rw [hstep, update_of_ne hne]
      exact hnew k' r' hk' (mem_cons_of_mem _ hr')

end Contents

/-! ## Publishers, a checkpoint and crashes -/

namespace Checkpoint

inductive Phase where
  | idle
  | built (snap : SowSnapshot)
  | pruning (cutoff : Nat)

structure State (σ : Schema) where
  topic : Topic σ
  sealed : List Segment
  current : Segment
  durable : Option SowSnapshot
  phase : Phase

def State.init (σ : Schema) : State σ := ⟨.new σ, [], (1, []), none, .idle⟩

def State.segments (s : State σ) : List Segment := s.sealed ++ [s.current]

def State.entries (s : State σ) : List LogEntry := s.segments.flatMap Prod.snd

inductive Move where
  | upsertMap (now : Nat) (m : JsonMap) (rotates : Bool)
  | delete (key : String) (rotates : Bool)
  | build (slots : List Nat)
  | writeSnapshot
  | prune (id : Nat)
  | finish
  /-- The process dies and starts again. -/
  | crash (now : Nat)

/-- Take in a write: its entry goes to the active segment, or to a new one. -/
def State.record (s : State σ) (rotates : Bool) (o : Outcome σ) : State σ :=
  match o.entries with
  | [] => { s with topic := o.topic }
  | entries =>
    if rotates then
      { s with
        topic := o.topic
        sealed := s.sealed ++ [s.current]
        current := (s.current.1 + 1, entries) }
    else { s with topic := o.topic, current := (s.current.1, s.current.2 ++ entries) }

section System
variable [HostText]

variable (cfg : TopicConfig) (codec : LogCodec)

def step (s : State σ) : Move → Option (State σ)
  | .upsertMap now m rotates => some (s.record rotates (CqServer.upsertMap cfg now true s.topic m))
  | .delete key rotates => some (s.record rotates (CqServer.delete cfg true s.topic key))
  | .build slots =>
    match s.phase with
    | .idle =>
      if slots.Perm s.topic.state.table.liveSlots then
        some { s with phase := .built (s.topic.buildSnapshot s.current.1 slots) }
      else none
    | _ => none
  | .writeSnapshot =>
    match s.phase with
    | .built snap =>
      some { s with
        durable := some snap
        phase := .pruning (min snap.segmentId s.current.1) }
    | _ => none
  | .prune id =>
    match s.phase with
    | .pruning cutoff =>
      if id < cutoff then some { s with sealed := s.sealed.filter fun seg => seg.1 ≠ id }
      else none
    | _ => none
  | .finish =>
    match s.phase with
    | .pruning _ => some { s with phase := .idle }
    | _ => none
  | .crash now =>
    some { s with topic := startUp σ cfg codec now s.segments s.durable, phase := .idle }

/-- The conditions on a step: a publish has a key with no null in it, the log has room for the
keys and sequences, and what is written as JSON reads back as it was. -/
def Ok (s : State σ) : Move → Prop
  | .upsertMap now m _ =>
    let v := Values.ofMap σ (flatView m)
    (∀ e ∈ (CqServer.upsertMap cfg now true s.topic m).entries, e.Legible) ∧
    (computeKeyWith v.vals (cfg.keyColIndices σ)).isSome ∧
      (∀ i ∈ cfg.keyColIndices σ, (v.vals i).isNull = false) ∧
      codec.decode (flatView m) = some (flatView m)
  | .build _ => ∀ k r, s.topic.state.contents k = some r →
      r.RoundTrips ∧ codec.decode r.getRowMap = some r.getRowMap
  | .delete key _ => ∀ e ∈ (CqServer.delete cfg true s.topic key).entries, e.Legible
  | _ => True

variable {cfg : TopicConfig} {codec : LogCodec} {s s' : State σ}

/-- Loading the snapshot and applying the later entries gives the live records. -/
structure Covers (cfg : TopicConfig) (codec : LogCodec) (s : State σ)
    (snap : Option SowSnapshot) : Prop where
  sequence : (snap.map SowSnapshot.sequence).getD 0 ≤ s.topic.nextSequence
  segment : (snap.map SowSnapshot.segmentId).getD 0 ≤ s.current.1
  contents : ∀ now (t : Topic σ), t.state = .build σ →
    (((s.segments.filter fun seg => (snap.map SowSnapshot.segmentId).getD 0 ≤ seg.1).flatMap
      Prod.snd).filter fun e => (snap.map SowSnapshot.sequence).getD 0 < e.sequence).foldl
        (applyEntry cfg) (loadSnapshot cfg codec.decode now t snap).state.contents =
      s.topic.state.contents

structure Inv (cfg : TopicConfig) (codec : LogCodec) (s : State σ) : Prop where
  ids : s.segments.Pairwise fun seg seg' => seg.1 < seg'.1
  sorted : s.entries.Pairwise fun e e' => e.sequence < e'.sequence
  replayable : ∀ e ∈ s.entries, Replayable σ cfg codec.decode e
  legible : ∀ e ∈ s.entries, e.Legible
  bounded : ∀ e ∈ s.entries, e.sequence ≤ s.topic.nextSequence
  keyed : KeyedCells (cfg.keyColIndices σ) s.topic.state.contents
  durable : Covers cfg codec s s.durable
  built : ∀ snap, s.phase = .built snap → Covers cfg codec s (some snap)
  pruning : ∀ cutoff, s.phase = .pruning cutoff →
    cutoff ≤ (s.durable.map SowSnapshot.segmentId).getD 0

theorem Inv.init (cfg : TopicConfig) (codec : LogCodec) :
    Inv cfg codec (State.init σ) where
  ids := pairwise_singleton _ _
  sorted := Pairwise.nil
  replayable e he := by cases he
  legible e he := by cases he
  bounded e he := by cases he
  keyed k r h := by simp [State.init, Topic.new] at h
  durable := by
    refine ⟨le_rfl, Nat.zero_le _, ?_⟩
    intro now t ht
    simp [loadSnapshot, ht, State.init, State.segments, Topic.new]
  built snap h := by cases h
  pruning cutoff h := by cases h

/-! ## Publishing -/

structure Appends (s s' : State σ) (e : LogEntry) : Prop where
  entries : s'.entries = s.entries ++ [e]
  ids : (s.segments.Pairwise fun seg seg' => seg.1 < seg'.1) →
    s'.segments.Pairwise fun seg seg' => seg.1 < seg'.1
  current : s.current.1 ≤ s'.current.1
  tail : ∀ a, a ≤ s.current.1 → (s'.segments.filter fun seg => a ≤ seg.1).flatMap Prod.snd =
      (s.segments.filter fun seg => a ≤ seg.1).flatMap Prod.snd ++ [e]
  durable : s'.durable = s.durable
  phase : s'.phase = s.phase

omit [HostText] in
theorem State.record_topic (s : State σ) (rotates : Bool) (o : Outcome σ) :
    (s.record rotates o).topic = o.topic := by
  unfold State.record
  split
  · rfl
  · split <;> rfl

omit [HostText] in
theorem State.record_appends {o : Outcome σ} {e : LogEntry} (ho : o.entries = [e])
    (rotates : Bool) : Appends s (s.record rotates o) e := by
  cases rotates with
  | true =>
    have hseg : (s.record true o).segments = s.segments ++ [(s.current.1 + 1, [e])] := by
      simp [State.record, ho, State.segments]
    refine ⟨?_, ?_, by simp [State.record, ho], ?_, by simp [State.record, ho],
      by simp [State.record, ho]⟩
    · simp [State.entries, hseg]
    · intro hids
      rw [hseg]
      refine pairwise_append.mpr ⟨hids, pairwise_singleton _ _, ?_⟩
      intro seg hmem seg' hmem'
      obtain rfl := mem_singleton.mp hmem'
      rcases mem_append.mp hmem with hmem | hmem
      · have hlt := (pairwise_append.mp hids).2.2 seg hmem s.current (by simp)
        exact Nat.lt_succ_of_lt hlt
      · rw [mem_singleton.mp hmem]
        exact Nat.lt_succ_self _
    · intro a ha
      have hle : a ≤ s.current.1 + 1 := Nat.le_succ_of_le ha
      simp [hseg, hle]
  | false =>
    have hseg : (s.record false o).segments =
        s.sealed ++ [(s.current.1, s.current.2 ++ [e])] := by
      simp [State.record, ho, State.segments]
    refine ⟨?_, ?_, by simp [State.record, ho], ?_, by simp [State.record, ho],
      by simp [State.record, ho]⟩
    · unfold State.entries
      rw [hseg]
      simp [State.segments]
    · intro hids
      rw [hseg]
      refine pairwise_append.mpr ⟨(pairwise_append.mp hids).1, pairwise_singleton _ _, ?_⟩
      intro seg hmem seg' hmem'
      obtain rfl := mem_singleton.mp hmem'
      exact (pairwise_append.mp hids).2.2 seg hmem s.current (by simp)
    · intro a ha
      rw [hseg]
      simp [State.segments, ha]

theorem Covers.append {snap : Option SowSnapshot} (h : Covers cfg codec s snap) {e : LogEntry}
    (ha : Appends s s' e) (hnext : s.topic.nextSequence < e.sequence)
    (hnext' : s'.topic.nextSequence = e.sequence)
    (hcont : s'.topic.state.contents = applyEntry cfg s.topic.state.contents e) :
    Covers cfg codec s' snap := by
  have hseq := h.sequence
  refine ⟨by omega, h.segment.trans ha.current, ?_⟩
  intro now t ht
  have hlt : (snap.map SowSnapshot.sequence).getD 0 < e.sequence := by omega
  rw [ha.tail _ h.segment, filter_append, filter_cons_of_pos (by simpa using hlt),
    foldl_append, h.contents now t ht, hcont]
  rfl

theorem Inv.append (h : Inv cfg codec s) {e : LogEntry} (ha : Appends s s' e)
    (hrep : Replayable σ cfg codec.decode e) (hlegible : e.Legible)
    (hseq : e.sequence = s.topic.nextSequence + 1)
    (hnext : s'.topic.nextSequence = e.sequence)
    (hcont : s'.topic.state.contents = applyEntry cfg s.topic.state.contents e)
    (hkeyed : KeyedCells (cfg.keyColIndices σ) s'.topic.state.contents) : Inv cfg codec s' := by
  have hlt : s.topic.nextSequence < e.sequence := by omega
  refine ⟨ha.ids h.ids, ?_, ?_, ?_, ?_, hkeyed, ?_, ?_, ?_⟩
  · rw [ha.entries]
    exact pairwise_concat h.sorted fun e₀ he₀ => Nat.lt_of_le_of_lt (h.bounded e₀ he₀) hlt
  · rw [ha.entries]
    exact forall_mem_concat h.replayable hrep
  · rw [ha.entries]
    exact forall_mem_concat h.legible hlegible
  · intro e₀ he₀
    rw [ha.entries] at he₀
    rcases mem_append.mp he₀ with he₀ | he₀
    · have := h.bounded e₀ he₀
      omega
    · rw [mem_singleton.mp he₀, hnext]
  · rw [ha.durable]
    exact h.durable.append ha hlt hnext hcont
  · intro snap hsnap
    rw [ha.phase] at hsnap
    exact (h.built snap hsnap).append ha hlt hnext hcont
  · intro cutoff hcut
    rw [ha.phase] at hcut
    rw [ha.durable]
    exact h.pruning cutoff hcut

theorem Inv.upsertMap (hpersist : cfg.persist = true) (h : Inv cfg codec s) {now : Nat}
    {m : JsonMap} {rotates : Bool} (hok : Ok cfg codec s (.upsertMap now m rotates)) :
    Inv cfg codec (s.record rotates (CqServer.upsertMap cfg now true s.topic m)) := by
  obtain ⟨hlegible, hsome, hcells, hdec⟩ := hok
  obtain ⟨k, hk⟩ := Option.isSome_iff_exists.mp hsome
  rw [CqServer.upsertMap, writeStoreWithChanged_logged hpersist] at hlegible ⊢
  have hcont := commit_contents hk now s.topic.state
  refine h.append (State.record_appends rfl rotates) ?_ (hlegible _ (mem_singleton_self _)) rfl
    ?_ ?_ ?_
  · refine ⟨rfl, Nat.succ_pos _, rfl, ?_, ?_⟩
    · intro payload hp
      cases hp
      exact hdec
    · intro payload hp
      cases hp
      rw [flatView_flatView, hk]
      rfl
  · rw [State.record_topic]
  · rw [State.record_topic, hcont]
    simp [applyEntry, hk]
  · rw [State.record_topic, hcont]
    refine forall_update_some ?_ fun k' _ => h.keyed k'
    rintro _ ⟨⟩
    refine ⟨upsertRow_recordKey hk _, fun i hi => ?_⟩
    rw [upsertRow_cells, if_neg (computeKeyWith_ne_null hk hi)]
    exact hcells i hi

theorem Inv.delete (hpersist : cfg.persist = true) (h : Inv cfg codec s) {key : String}
    {rotates : Bool} (hok : Ok cfg codec s (.delete key rotates)) :
    Inv cfg codec (s.record rotates (CqServer.delete cfg true s.topic key)) := by
  cases hrem : s.topic.state.removeKey key with
  | none =>
    have hsame : s.record rotates (CqServer.delete cfg true s.topic key) = s := by
      simp [State.record, CqServer.delete, hrem]
    rw [hsame]
    exact h
  | some p =>
    obtain ⟨st, row⟩ := p
    rw [Ok, delete_logged hpersist hrem] at hok
    rw [delete_logged hpersist hrem]
    refine h.append (State.record_appends rfl rotates) ?_ (hok _ (mem_singleton_self _)) rfl
      ?_ ?_ ?_
    · exact ⟨rfl, Nat.succ_pos _, rfl, by simp, by simp⟩
    · rw [State.record_topic]
    · rw [State.record_topic]
      exact remove_contents hrem
    · rw [State.record_topic, remove_contents hrem]
      exact forall_update_some (by simp) fun k _ => h.keyed k

/-! ## The checkpoint -/

theorem Inv.build (hσ : σ.Distinct) (h : Inv cfg codec s) {slots : List Nat}
    (hok : Ok cfg codec s (.build slots))
    (hperm : slots.Perm s.topic.state.table.liveSlots) :
    Covers cfg codec s (some (s.topic.buildSnapshot s.current.1 slots)) := by
  refine ⟨le_rfl, le_rfl, ?_⟩
  intro now t ht
  have hnil : (((s.segments.filter fun seg => s.current.1 ≤ seg.1).flatMap Prod.snd).filter
      fun e => s.topic.nextSequence < e.sequence) = [] := by
    refine filter_eq_nil_iff.mpr ?_
    intro e he
    obtain ⟨seg, hseg, he⟩ := mem_flatMap.mp he
    have hle := h.bounded e (mem_flatMap.mpr ⟨seg, mem_of_mem_filter hseg, he⟩)
    simp only [decide_eq_true_eq]
    omega
  have hnodup : slots.Nodup := hperm.nodup_iff.mpr s.topic.state.table.liveSlots_nodup
  have hmem : ∀ r, r ∈ slots ↔ s.topic.state.table.Live r := fun r =>
    hperm.mem_iff.trans mem_liveSlots
  show foldl _ _ (filter (fun e => decide (s.topic.nextSequence < e.sequence))
    ((s.segments.filter fun seg => decide (s.current.1 ≤ seg.1)).flatMap Prod.snd)) = _
  rw [hnil]
  funext k
  have hrows := applyRows_contents hσ h.keyed hok now hnodup (fun r hr => (hmem r).mp hr) t
    (fun k r _ _ => by rw [ht, contents_build]) k
  refine hrows.trans ?_
  cases hk : s.topic.state.table.keyToRow.lookup k with
  | none =>
    rw [ht]
    exact (view_of_lookup_none hk).symm
  | some r =>
    dsimp only
    rw [if_pos ((hmem r).mpr ⟨k, hk⟩)]
    exact (view_of_lookup hk).symm

/-- Deleting a segment below the snapshot's own loses nothing. -/
theorem Inv.prune (h : Inv cfg codec s) {cutoff id : Nat} (hphase : s.phase = .pruning cutoff)
    (hid : id < cutoff) :
    Inv cfg codec { s with sealed := s.sealed.filter fun seg => seg.1 ≠ id } := by
  have hcut := h.pruning cutoff hphase
  have hsub : ((s.sealed.filter fun seg => seg.1 ≠ id) ++ [s.current]).Sublist s.segments :=
    filter_sublist.append_right _
  have hents := hsub.flatMap Prod.snd
  refine ⟨h.ids.sublist hsub, h.sorted.sublist hents, fun e he => h.replayable e (hents.subset he),
    fun e he => h.legible e (hents.subset he), fun e he => h.bounded e (hents.subset he), h.keyed,
    ?_, ?_, h.pruning⟩
  · refine ⟨h.durable.sequence, h.durable.segment, ?_⟩
    intro now t ht
    have hkeep : (((s.sealed.filter fun seg => seg.1 ≠ id) ++ [s.current]).filter fun seg =>
        (s.durable.map SowSnapshot.segmentId).getD 0 ≤ seg.1) =
        s.segments.filter fun seg => (s.durable.map SowSnapshot.segmentId).getD 0 ≤ seg.1 := by
      rw [State.segments, filter_append, filter_append, filter_filter]
      congr 1
      refine filter_congr ?_
      intro seg _
      by_cases hle : (s.durable.map SowSnapshot.segmentId).getD 0 ≤ seg.1
      · have hne : seg.1 ≠ id := by omega
        simp [hne]
      · simp [hle]
    exact hkeep ▸ h.durable.contents now t ht
  · intro snap hsnap
    rw [hphase] at hsnap
    cases hsnap

/-! ## Restarting -/

variable (cfg) in
theorem applySnapshot_watermarks (decode : Decode) (now : Nat) (t : Topic σ)
    (snap : SowSnapshot) (hlast : t.lastAppliedSequence = 0) :
    (t.applySnapshot cfg decode now snap).lastAppliedSequence = snap.sequence ∧
      (t.applySnapshot cfg decode now snap).nextSequence = max t.nextSequence snap.sequence := by
  simp only [Topic.applySnapshot, Topic.bumpSequenceTo]
  -- the rows leave the watermarks alone
  obtain ⟨hl, hn⟩ := foldlRecOn (motive := fun t' : Topic σ =>
      t'.lastAppliedSequence = t.lastAppliedSequence ∧ t'.nextSequence = t.nextSequence) snap.rows
    (fun t row => match decode row with
      | some m => t.applySnapshotRow cfg now m
      | none => t) ⟨rfl, rfl⟩ fun t' h row _ => by cases decode row <;> exact h
  rw [hl, hn, hlast, Nat.zero_max]
  exact ⟨rfl, rfl⟩

/-- **A restart gives the live records back**, and counts on from where the log
and the snapshot are. -/
theorem Inv.startUp (h : Inv cfg codec s) (now : Nat) :
    (startUp σ cfg codec now s.segments s.durable).state.contents = s.topic.state.contents ∧
      maxSequence s.segments ≤ (startUp σ cfg codec now s.segments s.durable).nextSequence ∧
      (s.durable.map SowSnapshot.sequence).getD 0 ≤
        (startUp σ cfg codec now s.segments s.durable).nextSequence := by
  let attached : Topic σ := { Topic.new σ with nextSequence := maxSequence s.segments }
  obtain ⟨hlast, hseq, hmax⟩ :
      (loadSnapshot cfg codec.decode now attached s.durable).lastAppliedSequence =
        (s.durable.map SowSnapshot.sequence).getD 0 ∧
      (s.durable.map SowSnapshot.sequence).getD 0 ≤
        (loadSnapshot cfg codec.decode now attached s.durable).nextSequence ∧
      maxSequence s.segments ≤
        (loadSnapshot cfg codec.decode now attached s.durable).nextSequence := by
    cases hd : s.durable with
    | none => exact ⟨rfl, Nat.zero_le _, le_rfl⟩
    | some snap =>
      obtain ⟨hl, hn⟩ := applySnapshot_watermarks cfg codec.decode now attached snap rfl
      refine ⟨hl, ?_, ?_⟩
      · exact hn ▸ le_max_right _ _
      · exact hn ▸ le_max_left _ _
  have hfrom : entriesFrom ((s.durable.map SowSnapshot.segmentId).getD 0) s.segments =
      (s.segments.filter fun seg =>
        (s.durable.map SowSnapshot.segmentId).getD 0 ≤ seg.1).flatMap Prod.snd := by
    rw [entriesFrom, dropWhile_eq_filter h.ids]
  have hsub : ((s.segments.filter fun seg =>
      (s.durable.map SowSnapshot.segmentId).getD 0 ≤ seg.1).flatMap Prod.snd).Sublist s.entries :=
    filter_sublist.flatMap Prod.snd
  have hrep := fun e he => h.replayable e (hsub.subset he)
  have hstart : CqServer.startUp σ cfg codec now s.segments s.durable =
      (loadSnapshot cfg codec.decode now attached s.durable).replayLog cfg codec.decode now
        ((s.segments.filter fun seg =>
          (s.durable.map SowSnapshot.segmentId).getD 0 ≤ seg.1).flatMap Prod.snd) := by
    rw [CqServer.startUp, hfrom, recover, Topic.replayLog_readBack fun e he =>
      h.legible e (hsub.subset he)]
  have hle := nextSequence_le_replayLog hrep now (loadSnapshot cfg codec.decode now attached s.durable)
  refine ⟨?_, ?_, ?_⟩
  · rw [hstart, replayLog_contents (h.sorted.sublist hsub) hrep, hlast]
    exact h.durable.contents now attached rfl
  · exact hstart ▸ hmax.trans hle
  · exact hstart ▸ hseq.trans hle

theorem Inv.crash (h : Inv cfg codec s) (now : Nat) : Inv cfg codec
      { s with topic := CqServer.startUp σ cfg codec now s.segments s.durable, phase := .idle } := by
  obtain ⟨hcont, hmax, hseq⟩ := h.startUp now
  refine ⟨h.ids, h.sorted, h.replayable, h.legible, ?_, ?_, ⟨hseq, h.durable.segment, ?_⟩, nofun, nofun⟩
  · intro e he
    exact (le_maxSequence h.sorted he).trans hmax
  · show KeyedCells _ (CqServer.startUp σ cfg codec now s.segments s.durable).state.contents
    rw [hcont]
    exact h.keyed
  · intro now' t ht
    exact (h.durable.contents now' t ht).trans hcont.symm

theorem Inv.step (hpersist : cfg.persist = true) (hσ : σ.Distinct) (h : Inv cfg codec s)
    {m : Move} (hok : Ok cfg codec s m) (hstep : step cfg codec s m = some s') :
    Inv cfg codec s' := by
  cases m with
  | upsertMap now m rotates =>
    cases hstep
    exact h.upsertMap hpersist hok
  | delete key rotates =>
    cases hstep
    exact h.delete hpersist hok
  | build slots =>
    cases hphase : s.phase with
    | idle =>
      simp only [Checkpoint.step, hphase] at hstep
      obtain ⟨hperm, rfl⟩ := of_guard hstep
      have hcov := h.build hσ hok hperm
      refine { h with durable := { h.durable with }, built := ?_, pruning := nofun }
      intro snap hsnap
      cases hsnap
      exact { hcov with }
    | _ => simp [Checkpoint.step, hphase] at hstep
  | writeSnapshot =>
    cases hphase : s.phase with
    | built snap =>
      simp only [Checkpoint.step, hphase] at hstep
      cases hstep
      have hcov := h.built snap hphase
      refine { h with durable := { hcov with }, built := nofun, pruning := ?_ }
      intro cutoff hcut
      cases hcut
      exact min_le_left _ _
    | _ => simp [Checkpoint.step, hphase] at hstep
  | prune id =>
    cases hphase : s.phase with
    | pruning cutoff =>
      simp only [Checkpoint.step, hphase] at hstep
      obtain ⟨hid, rfl⟩ := of_guard hstep
      exact hphase ▸ h.prune hphase hid
    | _ => simp [Checkpoint.step, hphase] at hstep
  | finish =>
    cases hphase : s.phase with
    | pruning cutoff =>
      simp only [Checkpoint.step, hphase] at hstep
      cases hstep
      exact { h with durable := { h.durable with }, built := nofun, pruning := nofun }
    | _ => simp [Checkpoint.step, hphase] at hstep
  | crash now =>
    cases hstep
    exact h.crash now

omit [HostText] in
/-- The files hold the bytes of the segments, and perhaps the start of one more entry. -/
structure OnDisk (crc32 : Bytes → UInt32) (codec : LogCodec) (time : LogEntry → UInt64)
    (s : State σ) (w : TxLogWriter) (torn : Bytes) : Prop where
  sealedFiles : w.sealedFiles =
    (s.sealed.map (codec.written time)).map fun seg => (seg.1, frames crc32 seg.2)
  currentId : w.currentId = s.current.1
  currentFile : w.currentFile = frames crc32 (codec.written time s.current).2 ++ torn
  currentBytes : w.currentBytes = w.currentFile.length
  tornTail : TornTail crc32 torn
  size : ∀ e ∈ s.entries, (codec.write (time e) e).bodyLen ≤ maxEntrySize

variable {crc32 : Bytes → UInt32} {time : LogEntry → UInt64} {w : TxLogWriter} {torn : Bytes}

theorem OnDisk.holds (h : OnDisk crc32 codec time s w torn) (hinv : Inv cfg codec s) :
    Holds crc32 w (s.sealed.map (codec.written time)) (codec.written time s.current).2 torn := by
  have hfits : ∀ e ∈ s.entries, (codec.write (time e) e).Fits := by
    intro e he
    have hlegible := hinv.legible e he
    have hseq : (UInt64.ofNat e.sequence).toNat = e.sequence :=
      UInt64.toNat_ofNat_of_lt' (hlegible.sequence.trans (by decide))
    exact ⟨codec.topic_le, hlegible.key, hlegible.origin, h.size e he,
      hseq.trans_lt hlegible.sequence⟩
  have hsegs : ∀ seg ∈ s.segments, ∀ x ∈ (codec.written time seg).2, x.Fits := by
    intro seg hseg x hx
    obtain ⟨e, he, rfl⟩ := mem_map.mp hx
    exact hfits e (mem_flatMap.mpr ⟨seg, hseg, he⟩)
  obtain ⟨hids, -, hcurrent⟩ := pairwise_append.mp hinv.ids
  refine ⟨h.sealedFiles, h.currentFile, h.currentBytes, ?_, ?_, ?_, ?_, h.tornTail⟩
  · rw [h.sealedFiles, map_map]
    exact hids.map _ fun _ _ => id
  · intro file hfile
    rw [h.sealedFiles, map_map] at hfile
    obtain ⟨seg, hseg, rfl⟩ := mem_map.mp hfile
    exact h.currentId ▸ hcurrent seg hseg _ (mem_singleton_self _)
  · intro seg' hseg' x hx
    obtain ⟨seg, hseg, rfl⟩ := mem_map.mp hseg'
    exact hsegs seg (mem_append_left _ hseg) x hx
  · exact hsegs _ (mem_append_right _ (mem_singleton_self _))

/-- **Crash safety.** After any run of publishes, deletes, checkpoints and
restarts whose publishes have keys, whose entries are legible and whose rows survive
their JSON form, the reader gets through the files, and a restart from what it reads
gives the records as the last logged publish left them. -/
theorem restart_recovers (hpersist : cfg.persist = true) (hσ : σ.Distinct) {moves : List Move}
    (hrun : Run (Checkpoint.step cfg codec) (Ok cfg codec) (State.init σ) moves s) (now : Nat)
    (hdisk : OnDisk crc32 codec time s w torn) :
    ∃ entries, ((TxLogReader.ofSegments w.files).skipToSegment
        ((s.durable.map SowSnapshot.segmentId).getD 0)).readAll crc32 = .ok entries ∧
      (recover σ cfg codec now (maxSequence s.segments) s.durable
        (entries.filterMap codec.read)).state.contents = s.topic.state.contents := by
  have hinv : Inv cfg codec s := hrun.invariant
    (fun _ _ _ hi hok hst => hi.step hpersist hσ hok hst) (Inv.init cfg codec)
  have hread := readAll_eq_entriesFrom hdisk.currentId (hdisk.holds hinv) hinv.legible
    ((s.durable.map SowSnapshot.segmentId).getD 0)
  cases hentries : ((TxLogReader.ofSegments w.files).skipToSegment
      ((s.durable.map SowSnapshot.segmentId).getD 0)).readAll crc32 with
  | error err =>
    rw [hentries] at hread
    cases hread
  | ok entries =>
    rw [hentries] at hread
    refine ⟨entries, rfl, ?_⟩
    rw [show entries.filterMap codec.read = _ from Except.ok.inj hread]
    exact (hinv.startUp now).1

end System

section Quotes
open Quotes

open Unused

theorem quotes_le : (asBytes "/quotes").length ≤ maxTopicLen := by decide +kernel

/-- Payloads as their number in a list, or one behind it for all that are not in it. -/
def numbered (maps : List JsonMap) (other : JsonMap) : LogCodec where
  topic := "/quotes"
  serialize m := [UInt8.ofNat (maps.idxOf m)]
  parse
    | [b] => some (maps.getD b.toNat other)
    | _ => none
  topic_le := quotes_le
  serialize_ne _ := cons_ne_nil _ _

instance (codec : LogCodec) (s : State Quotes.schema) (m : Move) :
    Decidable (Ok config codec s m) := by
  cases m <;> dsimp only [Ok] <;> infer_instance

def quotesCodec : LogCodec := numbered [full "A" 10 11, full "B" 20 21, full "C" 30 31,
  full "A" 10 12, full "D" 40 41, full "B" 22 23, [("bid", num 9)]] []

/-- Publishes around every step of a checkpoint, and a crash between two
deletions of files. -/
def checkpointed : List Move :=
  [.upsertMap 0 (full "A" 10 11) false, .upsertMap 1 (full "B" 20 21) true,
    .upsertMap 2 (full "C" 30 31) true, .delete "B" false, .build [2, 0],
    .upsertMap 3 (full "A" 10 12) false, .writeSnapshot, .upsertMap 4 (full "D" 40 41) true,
    .prune 1, .crash 5, .upsertMap 6 (full "B" 22 23) true]

/-- The files of the segments, with a checksum of zero. -/
def writerOf (s : State Quotes.schema) : TxLogWriter :=
  let bytes (seg : Segment) := frames (fun _ => 0) (quotesCodec.written (fun _ => 0) seg).2
  ⟨4096, s.current.1, (bytes s.current).length, 0, 0, s.sealed.map fun seg => (seg.1, bytes seg),
    bytes s.current⟩

theorem restart_recovers_checkpointed : ∃ s,
    Run (step config quotesCodec) (Ok config quotesCodec) (State.init schema) checkpointed s ∧
      s.segments.map Prod.fst = [2, 3, 4, 5] ∧
      ∃ entries, ((TxLogReader.ofSegments (writerOf s).files).skipToSegment
          ((s.durable.map SowSnapshot.segmentId).getD 0)).readAll (fun _ => 0) = .ok entries ∧
        (recover schema config quotesCodec 7 (maxSequence s.segments) s.durable
          (entries.filterMap quotesCodec.read)).state.contents = s.topic.state.contents := by
  refine Run.exists_of_check (fun s => s.segments.map Prod.fst = [2, 3, 4, 5] ∧
    ∀ e ∈ s.entries, (quotesCodec.write 0 e).bodyLen ≤ maxEntrySize)
    (by decide +kernel) fun s hrun hend => ⟨hend.1, ?_⟩
  have htorn : TornTail (fun _ => 0) [] := tornTail_nil (e := orderEntry "7" [0])
    ⟨by decide +kernel, by decide +kernel, by decide +kernel, by decide +kernel, by decide +kernel⟩
  exact restart_recovers rfl Quotes.distinct hrun 7
    ⟨by simp [writerOf, LogCodec.written], rfl, (append_nil _).symm, rfl, htorn, hend.2⟩

/-- A publish without a key, after a checkpoint that moved a record to slot 0. -/
def keylessPublish : List Move :=
  [.upsertMap 0 (full "A" 10 11) false, .upsertMap 1 (full "B" 20 21) false, .delete "A" false,
    .build [1], .writeSnapshot, .finish, .upsertMap 2 [("bid", num 9)] false]

/-- The live publish went to the free slot 0; replayed, it overwrites record `B`,
which the snapshot was loaded to. -/
theorem restart_overwrites_record : ∃ s,
    Run (step config quotesCodec) (fun _ _ => True) (State.init schema) keylessPublish s ∧
      (s.topic.state.contents "B").map (·.cells bid) = some (.long 20) ∧
      ((CqServer.startUp schema config quotesCodec 3 s.segments s.durable).state.contents "B").map
        (·.cells bid) = some (.long 9) := by
  decide +kernel

end Quotes

end Checkpoint

end CqServer
