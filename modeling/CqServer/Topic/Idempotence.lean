import CqServer.Topic.Discovery

/-!
# Repeated deliveries

Replication delivers at least once: after a reconnect, or over a second path, an
entry can reach a topic again, and a node's own entries can come back to it. An
entry that was replayed is at or below its origin's watermark from then on, and
watermarks only rise, so a second delivery stops at the dedup gate. A live write
raises no watermark: the gate for the topic's own origin reads
`last_applied_sequence`, which only replays advance, so the echo of a live write
is applied on top of whatever came after it (`echo_reverts_record`).
-/

namespace CqServer

open Lib AnyTopic

/-! ## Deliveries -/

inductive Change where
  | upsert (m : JsonMap)
  | delta (m : JsonMap)
  | delete (key : String)

/-- A call of `replay_upsert_map_origin`, `replay_delta_map_origin` or
`replay_delete_origin`. -/
structure Delivery where
  origin : String
  sequence : Nat
  change : Change

def LogEntry.delivery (e : LogEntry) : Delivery where
  origin := e.origin
  sequence := e.sequence
  change := match e.payload, e.format with
    | none, _ => .delete e.key
    | some m, .json => .upsert m
    | some m, .jsonDelta => .delta m

structure Ahead {σ τ : Schema} (t : Topic σ) (u : Topic τ) : Prop where
  applied : t.lastAppliedSequence ≤ u.lastAppliedSequence
  highwater : ∀ origin hw, t.replicatedHighwater.lookup origin = some hw →
    ∃ hw', u.replicatedHighwater.lookup origin = some hw' ∧ hw ≤ hw'

variable {σ : Schema} {t : Topic σ} {τ : Schema} {u : Topic τ}

theorem Ahead.of_eq (happlied : u.lastAppliedSequence = t.lastAppliedSequence)
    (hhigh : u.replicatedHighwater = t.replicatedHighwater) : Ahead t u := by
  refine ⟨happlied.ge, ?_⟩
  intro origin hw hlook
  exact ⟨hw, by rw [hhigh, hlook], le_rfl⟩

theorem SameMarks.ahead (h : SameMarks t u) : Ahead t u :=
  .of_eq h.applied h.highwater

theorem Ahead.trans {σ τ υ : Schema} {t : Topic σ} {u : Topic τ} {v : Topic υ} (h : Ahead t u)
    (h' : Ahead u v) : Ahead t v := by
  refine ⟨h.applied.trans h'.applied, ?_⟩
  intro origin hw hlook
  obtain ⟨hw', hlook', hle⟩ := h.highwater origin hw hlook
  obtain ⟨hw'', hlook'', hle'⟩ := h'.highwater origin hw' hlook'
  exact ⟨hw'', hlook'', hle.trans hle'⟩

variable {cfg : TopicConfig} {origin : String} {seq : Nat}

theorem Ahead.isDuplicate (h : Ahead t u) (hdup : t.replayIsDuplicate cfg origin seq = true) :
    u.replayIsDuplicate cfg origin seq = true := by
  have happlied := h.applied
  unfold Topic.replayIsDuplicate at hdup ⊢
  by_cases hown : Topic.ownOrigin cfg origin = true
  · simp only [hown, if_true, Bool.and_eq_true, decide_eq_true_eq] at hdup ⊢
    omega
  simp only [hown, Bool.false_eq_true, if_false, Option.any_eq_true] at hdup ⊢
  obtain ⟨hw, hlook, hle⟩ := hdup
  obtain ⟨hw', hlook', hle'⟩ := h.highwater origin hw hlook
  refine ⟨hw', hlook', ?_⟩
  have hle := of_decide_eq_true hle
  exact decide_eq_true (by omega)

/-- Noting an entry raises its origin's watermark and no other falls. -/
theorem Ahead.noteApplied (cfg : TopicConfig) (t : Topic σ) (origin : String) (seq : Nat) :
    Ahead t (t.replayNoteApplied cfg origin seq) := by
  unfold Topic.replayNoteApplied
  split
  · refine ⟨le_max_left _ _, ?_⟩
    intro o hw hlook
    exact ⟨hw, hlook, le_rfl⟩
  · refine ⟨le_rfl, ?_⟩
    intro o hw hlook
    by_cases ho : o = origin
    · subst ho
      refine ⟨max hw seq, ?_, le_max_left _ _⟩
      simp [hlook]
    · exact ⟨hw, by simp [AList.lookup_insert_ne ho, hlook], le_rfl⟩

/-- A noted entry is a duplicate from then on. Sequence 0, which no write is
given, is the exception on the own origin: there 0 stands for no watermark. -/
theorem isDuplicate_noteApplied (t : Topic σ) (hpos : Topic.ownOrigin cfg origin = true → 0 < seq) :
    (t.replayNoteApplied cfg origin seq).replayIsDuplicate cfg origin seq = true := by
  unfold Topic.replayNoteApplied Topic.replayIsDuplicate
  by_cases hown : Topic.ownOrigin cfg origin = true
  · have := hpos hown
    simp only [hown, if_true, Topic.bumpSequenceTo, Bool.and_eq_true, decide_eq_true_eq]
    omega
  · simp [hown]

section Replay
variable [HostText] {cfg : TopicConfig}

def AnyTopic.replay (cfg : TopicConfig) (subscriptions now : Nat) (t : AnyTopic) (d : Delivery) :
    AnyTopic :=
  match d.change with
  | .upsert m => t.replayUpsertMapOrigin cfg subscriptions now d.origin d.sequence m
  | .delta m => t.replayDeltaMapOrigin cfg subscriptions now d.origin d.sequence m
  | .delete key => t.replayDeleteOrigin cfg d.origin d.sequence key

/-- A delta entry of a keyed topic that lacks its key fields is skipped. -/
def Delivery.skipped (cfg : TopicConfig) (d : Delivery) : Bool :=
  match d.change with
  | .delta m => (deltaKey cfg (flatView m)).isNone
  | _ => false

theorem AnyTopic.replay_duplicate {t : AnyTopic} {d : Delivery}
    (h : t.2.replayIsDuplicate cfg d.origin d.sequence = true) (subscriptions now : Nat) :
    t.replay cfg subscriptions now d = t := by
  unfold AnyTopic.replay
  cases hc : d.change with
  | upsert m => simp [replayUpsertMapOrigin, h]
  | delta m => simp [replayDeltaMapOrigin, h]
  | delete key => simp [replayDeleteOrigin, Topic.replayDeleteOrigin, h]

/-- A skipped entry changes nothing under a settled schema. -/
theorem AnyTopic.replay_skipped {t : AnyTopic} {d : Delivery} (h : d.skipped cfg = true)
    (hdecl : t.declared = true) (subscriptions now : Nat) :
    t.replay cfg subscriptions now d = t := by
  unfold AnyTopic.replay
  unfold Delivery.skipped at h
  cases hc : d.change with
  | upsert m | delete key => simp [hc] at h
  | delta m =>
    have hkey : deltaKey cfg (flatView m) = none := by simpa [hc] using h
    have hkeep : t.2.replayDeltaMapOrigin cfg now d.origin d.sequence m = t.2 := by
      simp [Topic.replayDeltaMapOrigin, hkey]
    dsimp only [replayDeltaMapOrigin]
    rw [discover_declared hdecl, hkeep]
    exact ite_self t

section
variable (subscriptions now : Nat) (t : AnyTopic) (d : Delivery)

/-- **What a delivery can do**: stop at the gate, be skipped, or change the store
and note the entry. -/
theorem AnyTopic.replay_cases :
    (t.2.replayIsDuplicate cfg d.origin d.sequence = true ∧ t.replay cfg subscriptions now d = t) ∨
    (d.skipped cfg = true ∧ ∃ flat, t.replay cfg subscriptions now d = t.discover subscriptions flat) ∨
    (d.skipped cfg = false ∧ ∃ u : AnyTopic, SameMarks t.2 u.2 ∧
      t.replay cfg subscriptions now d = ⟨u.1, u.2.replayNoteApplied cfg d.origin d.sequence⟩) := by
  by_cases hdup : t.2.replayIsDuplicate cfg d.origin d.sequence = true
  · exact .inl ⟨hdup, replay_duplicate hdup subscriptions now⟩
  -- past the gate the entry meets the topic with its schema settled
  have hdisc : ∀ flat,
      ¬ (t.discover subscriptions flat).2.replayIsDuplicate cfg d.origin d.sequence = true := by
    intro flat
    obtain ⟨-, happlied, hhigh⟩ := discover_watermarks subscriptions t flat
    rw [isDuplicate_congr happlied hhigh]
    exact hdup
  refine .inr ?_
  unfold AnyTopic.replay Delivery.skipped
  cases hc : d.change with
  | upsert m =>
    refine .inr ⟨rfl, ⟨_, Topic.writeStoreReplay cfg now
      (t.discover subscriptions (some (flatView m))).2 (.ofMap _ (flatView m))⟩, ?_, ?_⟩
    · exact { discover_watermarks subscriptions t (some (flatView m)) with }
    · dsimp only
      rw [show t.replayUpsertMapOrigin cfg subscriptions now d.origin d.sequence m = _ from
        if_neg hdup]
      simp [Topic.replayUpsertMapOrigin, if_neg (hdisc (some (flatView m)))]
  | delta m =>
    dsimp only
    rw [show t.replayDeltaMapOrigin cfg subscriptions now d.origin d.sequence m = _ from
      if_neg hdup]
    simp only [Topic.replayDeltaMapOrigin, if_neg (hdisc (some (flatView m)))]
    cases hkey : deltaKey cfg (flatView m) with
    | none => exact .inl ⟨rfl, some (flatView m), rfl⟩
    | some key =>
      refine .inr ⟨rfl, ⟨_, Topic.writeStoreReplay cfg now
        (t.discover subscriptions (some (flatView m))).2 (.merge _ (flatView m)
          ((t.discover subscriptions (some (flatView m))).2.state.contents key))⟩, ?_, rfl⟩
      exact { discover_watermarks subscriptions t (some (flatView m)) with }
  | delete key =>
    simp only [replayDeleteOrigin, Topic.replayDeleteOrigin, if_neg hdup]
    cases hrem : t.2.state.removeKey key with
    | none => exact .inr ⟨trivial, t, ⟨rfl, rfl, rfl⟩, rfl⟩
    | some p => exact .inr ⟨trivial, ⟨t.1, { t.2 with state := p.1 }⟩, ⟨rfl, rfl, rfl⟩, rfl⟩

/-- **One delivery**: watermarks do not fall, and the entry is a duplicate
afterwards, unless it was skipped. -/
theorem AnyTopic.replay_noted : Ahead t.2 (t.replay cfg subscriptions now d).2 ∧
      (d.skipped cfg = false → (Topic.ownOrigin cfg d.origin = true → 0 < d.sequence) →
        (t.replay cfg subscriptions now d).2.replayIsDuplicate cfg d.origin d.sequence = true) := by
  rcases replay_cases subscriptions now t d with
    ⟨hdup, heq⟩ | ⟨hskip, flat, heq⟩ | ⟨-, u, hmarks, heq⟩
  · rw [heq]
    exact ⟨.of_eq rfl rfl, fun _ _ => hdup⟩
  · rw [heq]
    refine ⟨(discover_watermarks subscriptions t flat).ahead, ?_⟩
    intro hs
    rw [hskip] at hs
    cases hs
  · rw [heq]
    exact ⟨hmarks.ahead.trans (.noteApplied ..), fun _ => isDuplicate_noteApplied u.2⟩

/-- The counter does not fall, and stays ahead of what was replayed. -/
theorem AnyTopic.replay_counter :
    t.2.nextSequence ≤ (t.replay cfg subscriptions now d).2.nextSequence ∧
      (t.2.lastAppliedSequence ≤ t.2.nextSequence →
        (t.replay cfg subscriptions now d).2.lastAppliedSequence ≤
          (t.replay cfg subscriptions now d).2.nextSequence) := by
  rcases replay_cases subscriptions now t d with
    ⟨-, heq⟩ | ⟨-, flat, heq⟩ | ⟨-, u, ⟨hnext, happlied, -⟩, heq⟩
  · rw [heq]
    exact ⟨le_rfl, id⟩
  · rw [heq]
    obtain ⟨hnext, happlied, -⟩ := discover_watermarks subscriptions t flat
    exact ⟨hnext.ge, fun h => by rw [hnext, happlied]; exact h⟩
  · rw [heq]
    dsimp only [Topic.replayNoteApplied]
    cases Topic.ownOrigin cfg d.origin with
    | true =>
      simp only [if_true, Topic.bumpSequenceTo]
      omega
    | false =>
      simp only [Bool.false_eq_true, if_false]
      omega

end

/-- The delivery an entry leads to, if its payload decodes to an object. -/
def LogEntry.decoded (decode : Decode) (e : LogEntry) : Option Delivery :=
  match e.payload with
  | none => some ⟨e.origin, e.sequence, .delete e.key⟩
  | some payload => (decode payload).map fun m =>
    ⟨e.origin, e.sequence, match e.format with
      | .json => .upsert m
      | .jsonDelta => .delta m⟩

omit [HostText] in
theorem LogEntry.decoded_fields {decode : Decode} {e : LogEntry} {d : Delivery}
    (h : e.decoded decode = some d) : d.origin = e.origin ∧ d.sequence = e.sequence := by
  unfold LogEntry.decoded at h
  cases hp : e.payload with
  | none =>
    rw [hp] at h
    cases h
    exact ⟨rfl, rfl⟩
  | some payload =>
    rw [hp] at h
    obtain ⟨m, -, rfl⟩ := Option.map_eq_some_iff.mp h
    exact ⟨rfl, rfl⟩

/-- One entry, as recovery and the replication receiver dispatch it. -/
def AnyTopic.replayEntry (cfg : TopicConfig) (decode : Decode)
    (subscriptions now : Nat) (t : AnyTopic) (e : LogEntry) : AnyTopic :=
  match e.decoded decode with
  | some d => t.replay cfg subscriptions now d
  | none => t

end Replay

/-! ## Schedules with repetitions -/

namespace Idempotence

structure State where
  topic : AnyTopic
  delivered : List Delivery
  written : List LogEntry

def State.init (σ : Schema) : State := ⟨.new σ, [], []⟩

inductive Move where
  | write (subscriptions : Nat) (w : LiveWrite)
  | deliver (subscriptions now : Nat) (d : Delivery)
  /-- One more delivery of an entry that was delivered. -/
  | again (subscriptions now : Nat) (d : Delivery)
  /-- An entry of a live write comes back. -/
  | echo (subscriptions now : Nat) (e : LogEntry)

def Move.repeats : Move → Bool
  | .again .. => true
  | .echo .. => true
  | _ => false

section System
variable [HostText]

def Move.apply (cfg : TopicConfig) (t : AnyTopic) : Move → AnyTopic
  | .write subscriptions w => (t.write cfg subscriptions w).1
  | .deliver subscriptions now d => t.replay cfg subscriptions now d
  | .again subscriptions now d => t.replay cfg subscriptions now d
  | .echo subscriptions now e => t.replay cfg subscriptions now e.delivery

/-- Only what was delivered is delivered again, and only what was logged is echoed. -/
inductive Enabled (s : State) : Move → Prop where
  | write {subscriptions w} : Enabled s (.write subscriptions w)
  | deliver {subscriptions now d} : Enabled s (.deliver subscriptions now d)
  | again {subscriptions now d} : d ∈ s.delivered → Enabled s (.again subscriptions now d)
  | echo {subscriptions now e} : e ∈ s.written → Enabled s (.echo subscriptions now e)

def next (cfg : TopicConfig) (s : State) (m : Move) : State where
  topic := m.apply cfg s.topic
  delivered := match m with
    | .deliver _ _ d => d :: s.delivered
    | _ => s.delivered
  written := match m with
    | .write subscriptions w => s.written ++ (s.topic.write cfg subscriptions w).2
    | _ => s.written

def step (cfg : TopicConfig) (s : State) (m : Move) : Option State := some (next cfg s m)

/-- The conditions on a repetition: an entry of the own origin has a positive
sequence, a delta that is skipped for want of a key meets a settled schema, and
an echo is covered by a replay of the own origin. -/
def Harmless (cfg : TopicConfig) (s : State) : Move → Prop
  | .again _ _ d => (Topic.ownOrigin cfg d.origin = true → 0 < d.sequence) ∧
      (d.skipped cfg = true → s.topic.declared = true)
  | .echo _ _ e => e.sequence ≤ s.topic.2.lastAppliedSequence
  | _ => True

def Ok (cfg : TopicConfig) (s : State) (m : Move) : Prop := Enabled s m ∧ Harmless cfg s m

variable {cfg : TopicConfig} {s s' : State}

/-- What was delivered stays known to the gate, and the log is the topic's own. -/
structure Inv (cfg : TopicConfig) (s : State) : Prop where
  known : ∀ d ∈ s.delivered, d.skipped cfg = false →
    (Topic.ownOrigin cfg d.origin = true → 0 < d.sequence) →
    s.topic.2.replayIsDuplicate cfg d.origin d.sequence = true
  own : ∀ e ∈ s.written, e.origin = cfg.originId ∧ 0 < e.sequence

theorem Inv.init (cfg : TopicConfig) (σ : Schema) : Inv cfg (State.init σ) := ⟨nofun, nofun⟩

theorem Inv.repeats (h : Inv cfg s) {m : Move} (hok : Ok cfg s m) (hm : m.repeats = true) :
    m.apply cfg s.topic = s.topic := by
  obtain ⟨hen, hharm⟩ := hok
  cases hen with
  | write | deliver => cases hm
  | @again subscriptions now d hd =>
    obtain ⟨hpos, hskip⟩ := hharm
    cases hs : d.skipped cfg with
    | true => exact replay_skipped hs (hskip hs) subscriptions now
    | false => exact replay_duplicate (h.known d hd hs hpos) subscriptions now
  | @echo subscriptions now e he =>
    obtain ⟨horigin, hpos⟩ := h.own e he
    refine replay_duplicate ?_ subscriptions now
    have hle : e.sequence ≤ s.topic.2.lastAppliedSequence := hharm
    have hlast : 0 < s.topic.2.lastAppliedSequence := by omega
    simp [LogEntry.delivery, horigin, Topic.replayIsDuplicate, Topic.ownOrigin, hle, hlast]

theorem Inv.next (h : Inv cfg s) {m : Move} (hok : Ok cfg s m) : Inv cfg (next cfg s m) := by
  cases m with
  | again subscriptions now d | echo subscriptions now e =>
    refine ⟨?_, h.own⟩
    rw [show (Idempotence.next cfg s _).topic = s.topic from h.repeats hok rfl]
    exact h.known
  | write subscriptions w =>
    have hlogs : Logs cfg (s.topic.discover subscriptions w.discovers).2
        (w.run cfg (s.topic.discover subscriptions w.discovers).2).topic
        (w.run cfg (s.topic.discover subscriptions w.discovers).2).entries := w.run_logs _
    have hahead : Ahead s.topic.2 (s.topic.write cfg subscriptions w).1.2 :=
      (discover_watermarks subscriptions s.topic w.discovers).ahead.trans
        (.of_eq hlogs.applied hlogs.highwater)
    refine ⟨fun d hd hs hpos => hahead.isDuplicate (h.known d hd hs hpos), ?_⟩
    intro e he
    rcases List.mem_append.mp he with he | he
    · exact h.own e he
    · have hrange := hlogs.range e he
      exact ⟨hlogs.origin e he, by omega⟩
  | deliver subscriptions now d =>
    refine ⟨?_, h.own⟩
    intro d' hd' hs hpos
    rcases List.mem_cons.mp hd' with rfl | hd'
    · exact (replay_noted subscriptions now s.topic d').2 hs hpos
    · exact (replay_noted subscriptions now s.topic d).1.isDuplicate
        (h.known d' hd' hs hpos)

def withoutRepeats (cfg : TopicConfig) (t : AnyTopic) (moves : List Move) : AnyTopic :=
  (moves.filter fun m => !m.repeats).foldl (Move.apply cfg) t

/-- **Idempotent replay.** A run ends in the topic that its first deliveries and
live writes alone would leave, if its repetitions are harmless. -/
theorem repeats_change_nothing {σ : Schema} {moves : List Move}
    (hrun : Run (step cfg) (Ok cfg) (State.init σ) moves s) :
    s.topic = withoutRepeats cfg (new σ) moves := by
  have hgen : ∀ {s₀ s : State} {moves : List Move}, Run (step cfg) (Ok cfg) s₀ moves s →
      Inv cfg s₀ → s.topic = withoutRepeats cfg s₀.topic moves := by
    intro s₀ s moves hrun
    induction hrun with
    | nil => exact fun _ => rfl
    | @cons s₀ s₁ s₂ m moves hok hstep _ ih =>
      intro hinv
      cases hstep
      rw [ih (hinv.next hok)]
      cases hm : m.repeats with
      | true =>
        have htopic : (next cfg s₀ m).topic = s₀.topic := hinv.repeats hok hm
        rw [htopic, withoutRepeats, withoutRepeats, List.filter_cons_of_neg (by simp [hm])]
      | false =>
        rw [withoutRepeats, withoutRepeats, List.filter_cons_of_pos (by simp [hm])]
        rfl
  exact hgen hrun (Inv.init cfg σ)

end System

/-! ## Two schedules -/

section Quotes
open Quotes

open Unused

def named : TopicConfig := { config with originId := "a" }

def cell (t : AnyTopic) (key column : String) : Option Value :=
  (t.2.state.contents key).bind fun r => (t.1.indexOf column).map r.cells

/-- An entry of another node, with a live write before its second delivery. -/
def redelivered : List Move :=
  let d : Delivery := ⟨"b", 1, .upsert (full "A" 10 11)⟩
  [.deliver 0 0 d, .write 0 (.upsertMap 1 true (full "A" 20 21)), .again 0 2 d]

theorem repeats_change_nothing_redelivered : ∃ s,
    Run (step named) (Ok named) (State.init schema) redelivered s ∧
      cell s.topic "A" "bid" = some (.long 20) ∧
      s.topic = withoutRepeats named (new schema) redelivered := by
  obtain ⟨s, hrun, hcell⟩ : ∃ s, Run (step named) (Ok named) (State.init schema) redelivered s ∧
      cell s.topic "A" "bid" = some (.long 20) := by
    refine ⟨_, .cons ⟨.deliver, trivial⟩ rfl (.cons ⟨.write, trivial⟩ rfl (.cons ⟨.again ?_, ?_⟩
      rfl .nil)), ?_⟩
    · exact List.mem_cons_self
    · exact ⟨fun h => absurd h (by decide), fun h => absurd h (by decide)⟩
    · decide +kernel
  exact ⟨s, hrun, hcell, repeats_change_nothing hrun⟩

/-- Two live writes of one record, and then the first of them once more. -/
def echoed : List Move :=
  [.write 0 (.upsertMap 0 true (full "A" 10 11)), .write 0 (.upsertMap 1 true (full "A" 20 21)),
    .echo 0 2 ⟨1, "A", "a", some (full "A" 10 11), .json⟩]

/-- The echo puts the older quote back. -/
theorem echo_reverts_record : ∃ s, Run (step named) Enabled (State.init schema) echoed s ∧
      cell (withoutRepeats named (new schema) echoed) "A" "bid" = some (.long 20) ∧
      cell s.topic "A" "bid" = some (.long 10) := by
  refine ⟨_, .cons .write rfl (.cons .write rfl (.cons (.echo ?_) rfl .nil)), ?_, ?_⟩
  · exact List.mem_cons_self
  · decide +kernel
  · decide +kernel

end Quotes

end Idempotence

end CqServer
