import Mathlib.Data.List.TakeWhile
import CqServer.Topic.Restore

/-!
# Sequences are never reused

A restart rebuilds the sequence counter from what is left on disk: the newest
live segment with an entry, the snapshot's sequence, and the entries it replays
from the live and the archived segments. Rotation moves segments to the archive
or leaves them in place, and a checkpoint deletes segments below its snapshot's
own. Whatever was deleted is below the snapshot's sequence, and whatever was not
is replayed (`Covered`), so the counter never falls behind the log as long as the
log can be read. An entry with a key of 65536 bytes cannot, and its sequence is
assigned again (`long_key_sequence_reused`).
-/

namespace CqServer

open Lib List AnyTopic

/-! ## Start-up with an archive -/

/-- `open_with_archive`: the segments of both directories by id; where an id is in
both, the live file is read. -/
def mergeSegments (archived live : List Segment) : List Segment :=
  ((archived.filter fun seg => ∀ l ∈ live, l.1 ≠ seg.1) ++ live).insertionSort fun a b => a.1 ≤ b.1

theorem mem_mergeSegments {archived live : List Segment} {seg : Segment}
    (h : seg ∈ live ∨ seg ∈ archived ∧ ∀ l ∈ live, l.1 ≠ seg.1) :
    seg ∈ mergeSegments archived live := by
  refine (perm_insertionSort _ _).mem_iff.mpr (mem_append.mpr ?_)
  rcases h with h | ⟨h, hne⟩
  · exact .inr h
  · exact .inl (mem_filter.mpr ⟨h, decide_eq_true hne⟩)

theorem mem_dropWhile_of_neg {α : Type*} {p : α → Bool} {l : List α} {a : α} (ha : a ∈ l)
    (hp : p a = false) : a ∈ l.dropWhile p := by
  rw [← takeWhile_append_dropWhile (p := p) (l := l)] at ha
  rcases mem_append.mp ha with ha | ha
  · rw [mem_takeWhile_imp ha] at hp
    cases hp
  · exact ha

theorem mem_entriesFrom {resume : Nat} {segments : List Segment} {seg : Segment} {e : LogEntry}
    (hseg : seg ∈ segments) (hresume : resume ≤ seg.1) (he : e ∈ seg.2) :
    e ∈ entriesFrom resume segments :=
  mem_flatMap.mpr ⟨seg, mem_dropWhile_of_neg hseg (by simpa using hresume), he⟩

namespace AnyTopic
section StartUp
variable [HostText] {cfg : TopicConfig} {decode : Decode}

def loadSnapshot (cfg : TopicConfig) (decode : Decode) (now : Nat)
    (t : AnyTopic) : Option SowSnapshot → AnyTopic
  | some snap => t.applySnapshot cfg decode 0 now snap
  | none => t

def replayLog (cfg : TopicConfig) (decode : Decode) (subscriptions now : Nat)
    (t : AnyTopic) (log : List LogEntry) : AnyTopic :=
  log.foldl (replayEntry cfg decode subscriptions now) t

/-- The start-up of a persistent topic: `attach_txlog` with the writer's
`max_sequence`, `apply_snapshot`, `recover_topic_with_archive`. -/
def startUp (σ₀ : Schema) (cfg : TopicConfig) (codec : LogCodec) (now : Nat)
    (archived live : List Segment) (durable : Option SowSnapshot) : AnyTopic :=
  let attached : AnyTopic := ⟨σ₀, .attached σ₀ (maxSequence live)⟩
  let resume := (durable.map SowSnapshot.segmentId).getD 0
  (loadSnapshot cfg codec.decode now attached durable).replayLog cfg some 0 now
    ((entriesFrom resume (mergeSegments archived live)).filterMap codec.readBack)

theorem applySnapshotRows_marks (subscriptions now : Nat) (t : AnyTopic) (rows : List JsonMap) :
    SameMarks t.2 (t.applySnapshotRows cfg decode subscriptions now rows).2 := by
  induction rows generalizing t with
  | nil => exact ⟨rfl, rfl, rfl⟩
  | cons row rows ih =>
    rw [applySnapshotRows, foldl_cons]
    cases decode row with
    | none => exact ih t
    | some m =>
      obtain ⟨hnext, happlied, hhigh⟩ :=
        discover_watermarks subscriptions t (some (flatView m))
      have hrest := ih (t.applySnapshotRow cfg subscriptions now m)
      exact ⟨hrest.next.trans hnext, hrest.applied.trans happlied, hrest.highwater.trans hhigh⟩

/-- The entry's decoded form is replayed and not skipped for want of a key. -/
def Noted (cfg : TopicConfig) (decode : Decode) (e : LogEntry) : Prop :=
  ∃ d, e.decoded decode = some d ∧ d.skipped cfg = false

/-- **Replay and the counter**: it does not fall, and passes every own entry that
is replayed. -/
theorem replayLog_counter {log : List LogEntry} (subscriptions now : Nat) {t : AnyTopic}
    (h : t.2.lastAppliedSequence ≤ t.2.nextSequence) :
    t.2.nextSequence ≤ (t.replayLog cfg decode subscriptions now log).2.nextSequence ∧
      ∀ e ∈ log, e.origin = cfg.originId → 0 < e.sequence → Noted cfg decode e →
        e.sequence ≤ (t.replayLog cfg decode subscriptions now log).2.nextSequence := by
  induction log generalizing t with
  | nil => exact ⟨le_rfl, nofun⟩
  | cons e log ih =>
    have hstep : t.2.nextSequence ≤ (t.replayEntry cfg decode subscriptions now e).2.nextSequence ∧
        (t.replayEntry cfg decode subscriptions now e).2.lastAppliedSequence ≤
          (t.replayEntry cfg decode subscriptions now e).2.nextSequence := by
      unfold replayEntry
      cases e.decoded decode with
      | none => exact ⟨le_rfl, h⟩
      | some d =>
        obtain ⟨hnext, happlied⟩ := replay_counter subscriptions now t d
        exact ⟨hnext, happlied h⟩
    obtain ⟨hrest, hnoted⟩ := ih hstep.2
    refine ⟨hstep.1.trans hrest, ?_⟩
    intro e' he' horigin hpos hn
    rcases mem_cons.mp he' with rfl | he'
    · -- once replayed, the entry is at or below the own watermark
      refine le_trans ?_ hrest
      obtain ⟨d, hd, hskip⟩ := hn
      have hfields := LogEntry.decoded_fields hd
      have heq : t.replayEntry cfg decode subscriptions now e' =
          t.replay cfg subscriptions now d := by
        simp [replayEntry, hd]
      have hdup := (replay_noted subscriptions now t d).2 hskip (fun _ => hfields.2 ▸ hpos)
      have hown : Topic.ownOrigin cfg d.origin = true := by
        simp [Topic.ownOrigin, hfields.1, horigin]
      have hle := hstep.2
      rw [heq] at hle ⊢
      simp only [Topic.replayIsDuplicate, hown, if_true, Bool.and_eq_true,
        decide_eq_true_eq] at hdup
      omega
    · exact hnoted e' he' horigin hpos hn

end StartUp
end AnyTopic

/-! ## What a live write puts into the log -/

section Entries
variable [HostText] {σ : Schema} {cfg : TopicConfig}

/-- An entry that is a sparse delta has its key fields. -/
def LogEntry.KeyedDelta (cfg : TopicConfig) (e : LogEntry) : Prop :=
  e.format = .jsonDelta → ∀ payload, e.payload = some payload →
    (deltaKey cfg (flatView payload)).isSome = true

theorem writeStoreWithChanged_keyedDelta {now : Nat} {appendOk : Bool} {t : Topic σ} {v : Values σ}
    {key : String} {payload : JsonMap} {format : PayloadFormat} {cols : Option (List σ.Col)}
    (h : format = .jsonDelta → (deltaKey cfg (flatView payload)).isSome = true) :
    ∀ e ∈ (writeStoreWithChanged cfg now appendOk t v key payload format cols).entries,
      e.KeyedDelta cfg := by
  intro e he hformat p hp
  simp only [writeStoreWithChanged] at he
  split at he
  · cases he
  split at he
  · obtain rfl := mem_singleton.mp he
    cases hp
    exact h hformat
  · cases he

theorem delete_keyedDelta (appendOk : Bool) (t : Topic σ) (key : String) :
    ∀ e ∈ (delete cfg appendOk t key).entries, e.KeyedDelta cfg := by
  intro e he hformat p hp
  simp only [delete] at he
  split at he
  · cases he
  split at he
  · cases he
  split at he
  · obtain rfl := mem_singleton.mp he
    cases hp
  · cases he

theorem LiveWrite.run_keyedDelta (t : Topic σ) (w : LiveWrite) :
    ∀ e ∈ (w.run cfg t).entries, e.KeyedDelta cfg := by
  cases w with
  | upsertMap now appendOk m => exact writeStoreWithChanged_keyedDelta (by simp)
  | upsertMapBatch now rows =>
    have hrows : ∀ (rows : List (JsonMap × Bool)) (t : Topic σ),
        ∀ e ∈ (CqServer.upsertMapBatch cfg now t rows).entries, e.KeyedDelta cfg := by
      intro rows
      induction rows with
      | nil => exact fun t e he => by cases he
      | cons row rows ih =>
        intro t e he
        have hfirst : ∀ e ∈ (CqServer.upsertMap cfg now row.2 t row.1).entries,
            e.KeyedDelta cfg := writeStoreWithChanged_keyedDelta (by simp)
        simp only [CqServer.upsertMapBatch] at he
        split at he
        · rcases mem_append.mp he with he | he
          · exact hfirst e he
          · exact ih _ e he
        · exact hfirst e he
    exact hrows rows t
  | deltaUpsertMap now appendOk m =>
    simp only [LiveWrite.run, CqServer.deltaUpsertMap]
    cases hread : deltaRead cfg t.state m with
    | none => exact fun e he => by cases he
    | some d =>
      obtain ⟨key, hkey, rfl⟩ := Option.map_eq_some_iff.mp hread
      refine writeStoreWithChanged_keyedDelta ?_
      intro hformat
      cases hs : cfg.sparseDeltaTxlog with
      | true => simp [hkey]
      | false => simp [hs] at hformat
  | delete appendOk key => exact delete_keyedDelta appendOk t key
  | expire appendOk ttl sweepObservedAt key =>
    simp only [LiveWrite.run, deleteIfStillExpired]
    split
    · exact delete_keyedDelta appendOk t key
    · exact fun e he => by cases he

/-- What `serde_json` has written for the payload it reads as an object, and the
fields of a record key are still there. -/
def LogEntry.ReadsBack (cfg : TopicConfig) (decode : Decode) (e : LogEntry) : Prop :=
  ∀ m ∈ e.payload, ∃ m' ∈ decode m,
    (deltaKey cfg (flatView m)).isSome = true → (deltaKey cfg (flatView m')).isSome = true

instance (decode : Decode) (e : LogEntry) : Decidable (e.ReadsBack cfg decode) :=
  inferInstanceAs (Decidable (∀ m ∈ e.payload, ∃ m' ∈ decode m, _))

theorem LogEntry.KeyedDelta.noted {decode : Decode} {e : LogEntry}
    (h : e.KeyedDelta cfg) (hread : e.ReadsBack cfg decode) : Noted cfg decode e := by
  cases hp : e.payload with
  | none => exact ⟨⟨e.origin, e.sequence, .delete e.key⟩, by simp [LogEntry.decoded, hp], rfl⟩
  | some payload =>
    obtain ⟨m, hdec, hkeep⟩ := hread payload hp
    rw [Option.mem_def] at hdec
    cases hf : e.format with
    | json =>
      exact ⟨⟨e.origin, e.sequence, .upsert m⟩, by simp [LogEntry.decoded, hp, hdec, hf], rfl⟩
    | jsonDelta =>
      refine ⟨⟨e.origin, e.sequence, .delta m⟩, by simp [LogEntry.decoded, hp, hdec, hf], ?_⟩
      obtain ⟨k, hk⟩ := Option.isSome_iff_exists.mp (hkeep (h hf payload hp))
      simp [Delivery.skipped, hk]

omit [HostText] in
theorem LogEntry.decoded_reread (decode : Decode) (e : LogEntry) :
    ((e.reread decode).bind fun e' => e'.decoded some) = e.decoded decode := by
  unfold LogEntry.reread
  cases hp : e.payload with
  | none => simp [LogEntry.decoded, hp]
  | some payload => cases hd : decode payload <;> simp [LogEntry.decoded, hp, hd]

end Entries

/-! ## Writers, rotations, checkpoints and restarts -/

namespace Sequence

/-- Whether a segment is sealed, and where its file goes. -/
inductive Rotation where
  | no
  | stays
  | archives
  deriving DecidableEq

structure State where
  topic : AnyTopic
  archived : List Segment
  sealed : List Segment
  current : Segment
  durable : Option SowSnapshot
  phase : Checkpoint.Phase
  history : List LogEntry

def State.init (σ₀ : Schema) : State := ⟨.new σ₀, [], [], (1, []), none, .idle, []⟩

def State.live (s : State) : List Segment := s.sealed ++ [s.current]

/-- `rotate`: the active segment is sealed and a new one opened. -/
def State.rotate (s : State) : Rotation → State
  | .no => s
  | .stays => { s with sealed := s.sealed ++ [s.current], current := (s.current.1 + 1, []) }
  | .archives => { s with archived := s.archived ++ [s.current], current := (s.current.1 + 1, []) }

/-- `append_with_origin_format`, after a rotation if the entry does not fit. -/
def State.append (s : State) (r : Rotation) (e : LogEntry) : State :=
  let s := s.rotate r
  { s with current := (s.current.1, s.current.2 ++ [e]), history := s.history ++ [e] }

inductive Move where
  /-- A live write; `rotation` says which of its entries rotate first. -/
  | write (subscriptions : Nat) (w : LiveWrite) (rotation : LogEntry → Rotation)
  | deliver (subscriptions now : Nat) (d : Delivery)
  | forceRotate (r : Rotation)
  | build (slots : List Nat)
  | writeSnapshot
  | prune (id : Nat)
  | finish
  | restart (now : Nat)

section System
variable [HostText]

def step (σ₀ : Schema) (cfg : TopicConfig) (codec : LogCodec) (s : State) :
    Move → Option State
  | .write subscriptions w rotation =>
    let o := s.topic.write cfg subscriptions w
    some (o.2.foldl (fun s e => s.append (rotation e) e) { s with topic := o.1 })
  | .deliver subscriptions now d =>
    some { s with topic := s.topic.replay cfg subscriptions now d }
  | .forceRotate r => some (s.rotate r)
  | .build slots =>
    match s.phase with
    | .idle => some { s with phase := .built (s.topic.2.buildSnapshot s.current.1 slots) }
    | _ => none
  | .writeSnapshot =>
    match s.phase with
    | .built snap =>
      some { s with
        durable := some snap
        phase := .pruning (min snap.segmentId s.current.1) }
    | _ => none
  | .prune id =>
    match s.phase with
    | .pruning cutoff =>
      if id < cutoff then some { s with sealed := s.sealed.filter fun seg => seg.1 ≠ id }
      else none
    | _ => none
  | .finish =>
    match s.phase with
    | .pruning _ => some { s with phase := .idle }
    | _ => none
  | .restart now =>
    some { s with
      topic := AnyTopic.startUp σ₀ cfg codec now s.archived s.live s.durable
      phase := .idle }

/-- The log has room for the keys and the sequences that are written to it, and the payloads read
back. -/
def Ok (cfg : TopicConfig) (decode : Decode) (s : State) : Move → Prop
  | .write subscriptions w _ =>
    ∀ e ∈ (s.topic.write cfg subscriptions w).2, e.Legible ∧ e.ReadsBack cfg decode
  | _ => True

variable {σ₀ : Schema} {cfg : TopicConfig} {decode : Decode} {codec : LogCodec} {s s' : State}

omit [HostText] in
/-- What the snapshot does not cover is in a segment that a restart reads. -/
structure Covered (s : State) (snap : Option SowSnapshot) : Prop where
  segment : (snap.map SowSnapshot.segmentId).getD 0 ≤ s.current.1
  kept : ∀ e ∈ s.history, e.sequence ≤ (snap.map SowSnapshot.sequence).getD 0 ∨
    ∃ seg ∈ s.archived ++ s.live, (snap.map SowSnapshot.segmentId).getD 0 ≤ seg.1 ∧ e ∈ seg.2

structure Inv (cfg : TopicConfig) (decode : Decode) (s : State) : Prop where
  sorted : s.history.Pairwise fun e e' => e.sequence < e'.sequence
  bounded : ∀ e ∈ s.history, e.sequence ≤ s.topic.2.nextSequence
  entries : ∀ e ∈ s.history, e.origin = cfg.originId ∧ 0 < e.sequence ∧ e.KeyedDelta cfg
  legible : ∀ e ∈ s.history, e.Legible ∧ e.ReadsBack cfg decode
  older : ∀ seg ∈ s.archived ++ s.sealed, seg.1 < s.current.1
  apart : ∀ a ∈ s.archived, ∀ seg ∈ s.sealed, a.1 ≠ seg.1
  durable : Covered s s.durable
  built : ∀ snap, s.phase = .built snap → Covered s (some snap)
  pruning : ∀ cutoff, s.phase = .pruning cutoff →
    cutoff ≤ (s.durable.map SowSnapshot.segmentId).getD 0

variable {snap : Option SowSnapshot}

omit [HostText] in
theorem Covered.mono (h : Covered s snap) (hcurrent : s.current.1 ≤ s'.current.1)
    (hhistory : s'.history = s.history)
    (hfiles : ∀ seg ∈ s.archived ++ s.live, ∀ e ∈ seg.2,
      ∃ seg' ∈ s'.archived ++ s'.live, seg'.1 = seg.1 ∧ e ∈ seg'.2) : Covered s' snap := by
  refine ⟨h.segment.trans hcurrent, ?_⟩
  intro e he
  rcases h.kept e (hhistory ▸ he) with hle | ⟨seg, hseg, hid, hmem⟩
  · exact .inl hle
  · obtain ⟨seg', hseg', hid', hmem'⟩ := hfiles seg hseg e hmem
    exact .inr ⟨seg', hseg', hid' ▸ hid, hmem'⟩

theorem Inv.init (cfg : TopicConfig) (σ₀ : Schema) : Inv cfg decode (State.init σ₀) :=
  ⟨.nil, nofun, nofun, nofun, nofun, nofun, ⟨Nat.zero_le _, nofun⟩, nofun, nofun⟩

/-! ## Writing -/

omit [HostText] in
theorem State.rotate_covered (h : Covered s snap) (r : Rotation) : Covered (s.rotate r) snap := by
  cases r with
  | no => exact h
  | stays | archives =>
    refine h.mono (Nat.le_succ _) rfl ?_
    intro seg hseg e he
    refine ⟨seg, ?_, rfl, he⟩
    simp only [State.live, State.rotate, mem_append] at hseg ⊢
    tauto

theorem Inv.rotate (h : Inv cfg decode s) (r : Rotation) : Inv cfg decode (s.rotate r) := by
  have hdurable := State.rotate_covered h.durable r
  have hbuilt := fun snap hsnap => State.rotate_covered (h.built snap hsnap) r
  cases r with
  | no => exact h
  | stays =>
    refine { h with older := ?_, apart := ?_, durable := hdurable, built := hbuilt }
    · simp only [State.rotate, ← append_assoc]
      exact forall_mem_concat (fun seg hseg => (h.older seg hseg).trans (Nat.lt_succ_self _))
        (Nat.lt_succ_self _)
    · intro a ha
      exact forall_mem_concat (h.apart a ha) (h.older a (mem_append_left _ ha)).ne
  | archives =>
    refine { h with older := ?_, apart := ?_, durable := hdurable, built := hbuilt }
    · intro seg hseg
      simp only [State.rotate, mem_append, mem_singleton] at hseg ⊢
      rcases hseg with (hseg | rfl) | hseg
      · exact (h.older seg (mem_append_left _ hseg)).trans (Nat.lt_succ_self _)
      · exact Nat.lt_succ_self _
      · exact (h.older seg (mem_append_right _ hseg)).trans (Nat.lt_succ_self _)
    · exact forall_mem_concat h.apart fun seg hseg =>
        (h.older seg (mem_append_right _ hseg)).ne'

omit [HostText] in
/-- The new entry is in the active segment, which a restart reads. -/
theorem Covered.append (h : Covered s snap) (e : LogEntry) :
    Covered { s with
      current := (s.current.1, s.current.2 ++ [e])
      history := s.history ++ [e] } snap := by
  refine ⟨h.segment, ?_⟩
  intro e' he'
  rcases mem_append.mp he' with he' | he'
  · rcases h.kept e' he' with hle | ⟨seg, hseg, hid, hmem⟩
    · exact .inl hle
    · refine .inr ?_
      simp only [State.live, ← append_assoc, mem_append, mem_singleton] at hseg ⊢
      rcases hseg with hseg | rfl
      · exact ⟨seg, .inl hseg, hid, hmem⟩
      · exact ⟨_, .inr rfl, hid, mem_append_left _ hmem⟩
  · rw [mem_singleton.mp he']
    refine .inr ⟨(s.current.1, s.current.2 ++ [e]), ?_, h.segment, ?_⟩
    · simp [State.live]
    · simp

theorem Inv.append (h : Inv cfg decode s) {e : LogEntry}
    (hnew : ∀ e' ∈ s.history, e'.sequence < e.sequence)
    (hbound : e.sequence ≤ s.topic.2.nextSequence)
    (hentry : e.origin = cfg.originId ∧ 0 < e.sequence ∧ e.KeyedDelta cfg)
    (hlegible : e.Legible ∧ e.ReadsBack cfg decode) :
    Inv cfg decode { s with
      current := (s.current.1, s.current.2 ++ [e])
      history := s.history ++ [e] } := by
  refine ⟨?_, ?_, ?_, ?_, h.older, h.apart, h.durable.append e,
    fun snap hsnap => (h.built snap hsnap).append e, h.pruning⟩
  · exact pairwise_concat h.sorted hnew
  · exact forall_mem_concat h.bounded hbound
  · exact forall_mem_concat h.entries hentry
  · exact forall_mem_concat h.legible hlegible

theorem Inv.appendAll (rotation : LogEntry → Rotation) {entries : List LogEntry}
    (h : Inv cfg decode s)
    (hsorted : entries.Pairwise fun e e' => e.sequence < e'.sequence)
    (hnew : ∀ e ∈ entries, ∀ e' ∈ s.history, e'.sequence < e.sequence)
    (hbound : ∀ e ∈ entries, e.sequence ≤ s.topic.2.nextSequence)
    (hentries : ∀ e ∈ entries, e.origin = cfg.originId ∧ 0 < e.sequence ∧ e.KeyedDelta cfg)
    (hlegible : ∀ e ∈ entries, e.Legible ∧ e.ReadsBack cfg decode) :
    Inv cfg decode (entries.foldl (fun s e => s.append (rotation e) e) s) := by
  induction entries generalizing s with
  | nil => exact h
  | cons e entries ih =>
    obtain ⟨hfirst, hsorted⟩ := pairwise_cons.mp hsorted
    obtain ⟨htopic, hhistory⟩ : (s.rotate (rotation e)).topic = s.topic ∧
        (s.rotate (rotation e)).history = s.history := by
      cases rotation e <;> exact ⟨rfl, rfl⟩
    have hone : Inv cfg decode (s.append (rotation e) e) :=
      (h.rotate (rotation e)).append (hhistory ▸ hnew e mem_cons_self)
        (htopic ▸ hbound e mem_cons_self) (hentries e mem_cons_self) (hlegible e mem_cons_self)
    refine ih hone hsorted ?_ ?_ (fun e' he' => hentries e' (mem_cons_of_mem _ he'))
      fun e' he' => hlegible e' (mem_cons_of_mem _ he')
    · intro e' he' e₀ he₀
      exact forall_mem_concat (hnew e' (mem_cons_of_mem _ he')) (hfirst e' he') e₀ (hhistory ▸ he₀)
    · intro e' he'
      have : (s.append (rotation e) e).topic = s.topic := htopic
      rw [this]
      exact hbound e' (mem_cons_of_mem _ he')

theorem Inv.setTopic (h : Inv cfg decode s) {t : AnyTopic}
    (ht : s.topic.2.nextSequence ≤ t.2.nextSequence) : Inv cfg decode { s with topic := t } :=
  { h with
    bounded := fun e he => (h.bounded e he).trans ht, durable := { h.durable with }
    built := fun snap hsnap => { h.built snap hsnap with } }

theorem Inv.write (h : Inv cfg decode s) {subscriptions : Nat} {w : LiveWrite}
    {rotation : LogEntry → Rotation} (hok : Ok cfg decode s (.write subscriptions w rotation)) :
    Inv cfg decode ((s.topic.write cfg subscriptions w).2.foldl (fun s e => s.append (rotation e) e)
      { s with topic := (s.topic.write cfg subscriptions w).1 }) := by
  have hmarks := discover_watermarks subscriptions s.topic w.discovers
  have hlogs : Logs cfg (s.topic.discover subscriptions w.discovers).2
      (s.topic.write cfg subscriptions w).1.2 (s.topic.write cfg subscriptions w).2 := w.run_logs _
  have hnext := hmarks.next ▸ hlogs.counter
  have hrange : ∀ e ∈ (s.topic.write cfg subscriptions w).2, s.topic.2.nextSequence < e.sequence ∧
      e.sequence ≤ (s.topic.write cfg subscriptions w).1.2.nextSequence :=
    fun e he => hmarks.next ▸ hlogs.range e he
  refine (h.setTopic hnext).appendAll rotation hlogs.sorted ?_ (fun e he => (hrange e he).2) ?_ hok
  · intro e he e' he'
    exact (h.bounded e' he').trans_lt (hrange e he).1
  · intro e he
    have := (hrange e he).1
    exact ⟨hlogs.origin e he, by omega, w.run_keyedDelta _ e he⟩

/-! ## Checkpoints and restarts -/

/-- A segment that is deleted is below the snapshot's own. -/
theorem Inv.prune (h : Inv cfg decode s) {cutoff id : Nat} (hphase : s.phase = .pruning cutoff)
    (hid : id < cutoff) :
    Inv cfg decode { s with sealed := s.sealed.filter fun seg => seg.1 ≠ id } := by
  have hcut := h.pruning cutoff hphase
  refine { h with older := ?_, apart := ?_, durable := ⟨h.durable.segment, ?_⟩, built := ?_ }
  · intro seg hseg
    refine h.older seg (mem_append.mpr ?_)
    exact (mem_append.mp hseg).imp_right mem_of_mem_filter
  · intro a ha seg hseg
    exact h.apart a ha seg (mem_of_mem_filter hseg)
  · intro e he
    rcases h.durable.kept e he with hle | ⟨seg, hseg, hkeep, hmem⟩
    · exact .inl hle
    refine .inr ⟨seg, ?_, hkeep, hmem⟩
    have hne : seg.1 ≠ id := by omega
    simp only [State.live, mem_append, mem_filter] at hseg ⊢
    simp only [hne, ne_eq, not_false_eq_true, decide_true, and_true]
    exact hseg
  · intro snap hsnap
    rw [hphase] at hsnap
    cases hsnap

/-- **A restart counts on from everything ever logged.** -/
theorem Inv.startUp (h : Inv cfg codec.decode s) (now : Nat) :
    ∀ e ∈ s.history, e.sequence ≤
      (AnyTopic.startUp σ₀ cfg codec now s.archived s.live s.durable).2.nextSequence := by
  let attached : AnyTopic := ⟨σ₀, .attached σ₀ (maxSequence s.live)⟩
  obtain ⟨hsnap, hmarks⟩ : (s.durable.map SowSnapshot.sequence).getD 0 ≤
        (attached.loadSnapshot cfg codec.decode now s.durable).2.nextSequence ∧
      (attached.loadSnapshot cfg codec.decode now s.durable).2.lastAppliedSequence ≤
        (attached.loadSnapshot cfg codec.decode now s.durable).2.nextSequence := by
    cases s.durable with
    | none => exact ⟨Nat.zero_le _, Nat.zero_le _⟩
    | some snap =>
      have hrows : SameMarks attached.2 (attached.applySnapshotRows cfg codec.decode 0 now snap.rows).2 :=
        AnyTopic.applySnapshotRows_marks 0 now attached snap.rows
      obtain ⟨hnext, happlied, -⟩ := hrows
      have hzero : attached.2.lastAppliedSequence = 0 := rfl
      simp only [AnyTopic.loadSnapshot, AnyTopic.applySnapshot, Topic.bumpSequenceTo,
        Option.map_some, Option.getD_some]
      omega
  obtain ⟨hnext, hnoted⟩ := AnyTopic.replayLog_counter 0 now hmarks
  intro e he
  obtain ⟨horigin, hpos, hdelta⟩ := h.entries e he
  rcases h.durable.kept e he with hle | ⟨seg, hseg, hid, hmem⟩
  · exact (hle.trans hsnap).trans hnext
  -- what is read of the entry is noted in its place
  obtain ⟨d, hd, hskip⟩ := hdelta.noted (h.legible e he).2
  obtain ⟨e', hback, hd'⟩ := Option.bind_eq_some_iff.mp ((e.decoded_reread _).trans hd)
  have hfields := LogEntry.decoded_fields hd
  have hfields' := LogEntry.decoded_fields hd'
  have hseq : e'.sequence = e.sequence := hfields'.2.symm.trans hfields.2
  rw [← LogCodec.readBack_of_legible (h.legible e he).1] at hback
  rw [← hseq] at hpos ⊢
  refine hnoted e' (mem_filterMap.mpr ⟨e, mem_entriesFrom (mem_mergeSegments ?_) hid hmem, hback⟩)
    ((hfields'.1.symm.trans hfields.1).trans horigin) hpos ⟨d, hd', hskip⟩
  rcases mem_append.mp hseg with hseg | hseg
  · refine .inr ⟨hseg, ?_⟩
    exact forall_mem_concat (fun l hl => (h.apart seg hseg l hl).symm)
      (h.older seg (mem_append_left _ hseg)).ne'
  · exact .inl hseg

theorem Inv.step (h : Inv cfg codec.decode s) {m : Move} (hok : Ok cfg codec.decode s m)
    (hstep : step σ₀ cfg codec s m = some s') : Inv cfg codec.decode s' := by
  cases m with
  | write subscriptions w rotation =>
    cases hstep
    exact h.write hok
  | deliver subscriptions now d =>
    cases hstep
    exact h.setTopic (AnyTopic.replay_counter subscriptions now s.topic d).1
  | forceRotate r =>
    cases hstep
    exact h.rotate r
  | build slots =>
    cases hphase : s.phase with
    | idle =>
      simp only [Sequence.step, hphase] at hstep
      cases hstep
      refine { h with durable := { h.durable with }, built := ?_, pruning := nofun }
      intro snap hsnap
      cases hsnap
      exact ⟨le_rfl, fun e he => .inl (h.bounded e he)⟩
    | _ => simp [Sequence.step, hphase] at hstep
  | writeSnapshot =>
    cases hphase : s.phase with
    | built snap =>
      simp only [Sequence.step, hphase] at hstep
      cases hstep
      have hcov := h.built snap hphase
      refine { h with durable := { hcov with }, built := nofun, pruning := ?_ }
      intro cutoff hcut
      cases hcut
      exact min_le_left _ _
    | _ => simp [Sequence.step, hphase] at hstep
  | prune id =>
    cases hphase : s.phase with
    | pruning cutoff =>
      simp only [Sequence.step, hphase] at hstep
      obtain ⟨hid, rfl⟩ := of_guard hstep
      exact hphase ▸ h.prune hphase hid
    | _ => simp [Sequence.step, hphase] at hstep
  | finish =>
    cases hphase : s.phase with
    | pruning cutoff =>
      simp only [Sequence.step, hphase] at hstep
      cases hstep
      exact { h with durable := { h.durable with }, built := nofun, pruning := nofun }
    | _ => simp [Sequence.step, hphase] at hstep
  | restart now =>
    cases hstep
    exact { h with
      bounded := h.startUp now, durable := { h.durable with }, built := nofun
      pruning := nofun }

/-- **Sequences are never reused.** In every run of writes, replays, rotations,
checkpoints and restarts in which every logged entry is legible and reads back, each
logged entry has a higher sequence than every entry logged before it. -/
theorem sequences_never_reused {moves : List Move}
    (hrun : Run (Sequence.step σ₀ cfg codec) (Ok cfg codec.decode) (State.init σ₀) moves s) :
    s.history.Pairwise fun e e' => e.sequence < e'.sequence :=
  (hrun.invariant (fun _ _ _ hi hok hst => hi.step hok hst) (Inv.init cfg σ₀)).sorted

end System

section Quotes
open Quotes

open Unused

instance (decode : Decode) (s : State) (m : Move) : Decidable (Ok config decode s m) := by
  cases m <;> dsimp only [Ok] <;> infer_instance

/-- Archived segments, a checkpoint that deletes one, a failed append, and two
restarts, the first on an empty live segment. -/
def restarted : List Move :=
  [.write 0 (.upsertMap 0 true (full "A" 10 11)) fun _ => .no, .forceRotate .archives, .restart 1,
    .write 0 (.upsertMapBatch 2 [(full "B" 20 21, true), (full "C" 30 31, true)]) fun _ => .stays,
    .write 0 (.upsertMap 3 false (full "D" 40 41)) fun _ => .no, .build [0, 1, 2],
    .write 0 (.delete true "B") fun _ => .stays, .writeSnapshot, .prune 2, .restart 4,
    .write 0 (.deltaUpsertMap 5 true (full "C" 31 31)) fun _ => .no]

def restartedCodec : LogCodec := Checkpoint.numbered [full "A" 10 11, full "B" 20 21, full "C" 30 31]
  (full "C" 31 31)

theorem sequences_never_reused_restarted : ∃ s,
    Run (step schema config restartedCodec) (Ok config restartedCodec.decode) (State.init schema)
      restarted s ∧
      s.history.map LogEntry.sequence = [1, 2, 3, 5, 6] ∧
      s.history.Pairwise fun e e' => e.sequence < e'.sequence := by
  refine Run.exists_of_check (fun s => s.history.map LogEntry.sequence = [1, 2, 3, 5, 6])
    (by decide +kernel) fun s hrun hend => ?_
  exact ⟨hend, sequences_never_reused hrun⟩

/-- A key that is too long for its length field, logged, moved to the archive and passed over by the
restart: its sequence is assigned to the next entry. -/
def longKeyed (key : String) : List Move :=
  [.write 0 (.upsertMap 0 true (full key 10 11)) fun _ => .no, .forceRotate .archives, .restart 1,
    .write 0 (.upsertMap 2 true (full "B" 20 21)) fun _ => .no]

theorem long_key_sequence_reused : ∃ key s, (asBytes key).length = 65536 ∧
    Run (step schema config (Checkpoint.numbered [] (full key 10 11))) (fun _ _ => True)
      (State.init schema) (longKeyed key) s ∧ s.history.map LogEntry.sequence = [1, 1] := by
  obtain ⟨key, hkey⟩ : ∃ key, (asBytes key).length = 65536 := ⟨_, length_asBytes_replicate 65536⟩
  let codec := Checkpoint.numbered [] (full key 10 11)
  let e : LogEntry := ⟨1, key, "", some (full key 10 11), .json⟩
  have hlost : codec.readBack e = none := by
    rw [LogCodec.readBack_long ⟨rfl, rfl⟩ hkey (show 1 < 2 ^ 56 by decide)]
    have hparse : codec.parse (asBytes key ++ [0]) = none := by
      cases hbytes : asBytes key with
      | nil => simp [hbytes] at hkey
      | cons b rest => cases rest <;> rfl
    exact congrArg (Option.map _) hparse
  have hstart : AnyTopic.startUp schema config codec 1 [(1, [e])] [(2, [])] none =
      ⟨schema, .attached schema 0⟩ := by
    show AnyTopic.replayLog config some 0 1 ⟨schema, .attached schema 0⟩
      ([e].filterMap codec.readBack) = _
    rw [filterMap_cons, hlost]
    rfl
  have hrestart (t : AnyTopic) :
      step schema config codec ⟨t, [(1, [e])], [], (2, []), none, .idle, [e]⟩ (.restart 1) =
        some ⟨⟨schema, .attached schema 0⟩, [(1, [e])], [], (2, []), none, .idle, [e]⟩ := by
    rw [← hstart]
    rfl
  refine ⟨key, _, hkey, .cons trivial rfl (.cons trivial rfl (.cons trivial (hrestart _)
    (.cons trivial rfl .nil))), ?_⟩
  rfl

end Quotes

end Sequence

end CqServer
