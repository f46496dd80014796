import CqServer.Topic.Replay

/-!
# Topics that discover their schema

A topic without a declared schema takes its columns from the first map that
reaches it, be it published or replayed. Here the write and replay paths are
taken together with the schema in force. How many subscriptions are registered
decides whether a discovery may happen and is an argument of each call.
-/

namespace CqServer

/-- A call of the write API; `appendOk` is whether its log append succeeds. -/
inductive LiveWrite where
  | upsertMap (now : Nat) (appendOk : Bool) (m : JsonMap)
  | upsertMapBatch (now : Nat) (rows : List (JsonMap × Bool))
  | deltaUpsertMap (now : Nat) (appendOk : Bool) (m : JsonMap)
  | delete (appendOk : Bool) (key : String)
  | expire (appendOk : Bool) (ttl sweepObservedAt : Nat) (key : String)

namespace LiveWrite

/-- The map `maybe_discover_schema` is called with; a batch shows its first row. -/
def discovers : LiveWrite → Option JsonMap
  | .upsertMap _ _ m => some (flatView m)
  | .upsertMapBatch _ rows => rows.head?.map fun row => flatView row.1
  | .deltaUpsertMap _ _ m => some (flatView m)
  | .delete .. => none
  | .expire .. => none

variable [HostText] {σ : Schema}

/-- The call on a topic whose schema is settled. -/
def run (cfg : TopicConfig) (t : Topic σ) : LiveWrite → Outcome σ
  | .upsertMap now appendOk m => CqServer.upsertMap cfg now appendOk t m
  | .upsertMapBatch now rows => CqServer.upsertMapBatch cfg now t rows
  | .deltaUpsertMap now appendOk m => CqServer.deltaUpsertMap cfg now appendOk t m
  | .delete appendOk key => CqServer.delete cfg appendOk t key
  | .expire appendOk ttl sweepObservedAt key =>
    deleteIfStillExpired cfg appendOk t ttl sweepObservedAt key

end LiveWrite

/-! ## What a live write logs -/

section Logs
variable {σ : Schema} {cfg : TopicConfig}

/-- A live write numbers its entries upwards from the topic's counter, signs
them with the topic's own origin, and leaves the replay watermarks alone. -/
structure Logs (cfg : TopicConfig) (t t' : Topic σ) (entries : List LogEntry) : Prop where
  counter : t.nextSequence ≤ t'.nextSequence
  sorted : entries.Pairwise fun e e' => e.sequence < e'.sequence
  range : ∀ e ∈ entries, t.nextSequence < e.sequence ∧ e.sequence ≤ t'.nextSequence
  origin : ∀ e ∈ entries, e.origin = cfg.originId
  applied : t'.lastAppliedSequence = t.lastAppliedSequence
  highwater : t'.replicatedHighwater = t.replicatedHighwater

theorem Logs.none {t t' : Topic σ} (hcounter : t.nextSequence ≤ t'.nextSequence)
    (happlied : t'.lastAppliedSequence = t.lastAppliedSequence)
    (hhigh : t'.replicatedHighwater = t.replicatedHighwater) : Logs cfg t t' [] :=
  ⟨hcounter, .nil, nofun, nofun, happlied, hhigh⟩

theorem Logs.one {t t' : Topic σ} {e : LogEntry} (hseq : e.sequence = t.nextSequence + 1)
    (hcounter : t'.nextSequence = t.nextSequence + 1) (horigin : e.origin = cfg.originId)
    (happlied : t'.lastAppliedSequence = t.lastAppliedSequence)
    (hhigh : t'.replicatedHighwater = t.replicatedHighwater) : Logs cfg t t' [e] := by
  refine ⟨by omega, List.pairwise_singleton _ _, ?_, ?_, happlied, hhigh⟩
  · intro e' he'
    obtain rfl := List.mem_singleton.mp he'
    omega
  · intro e' he'
    obtain rfl := List.mem_singleton.mp he'
    exact horigin

theorem Logs.append {t t' t'' : Topic σ} {es es' : List LogEntry} (h : Logs cfg t t' es)
    (h' : Logs cfg t' t'' es') : Logs cfg t t'' (es ++ es') := by
  have hle := h.counter
  have hle' := h'.counter
  refine ⟨by omega, ?_, ?_, ?_, h'.applied.trans h.applied, h'.highwater.trans h.highwater⟩
  · refine List.pairwise_append.mpr ⟨h.sorted, h'.sorted, ?_⟩
    intro e he e' he'
    have hlow := (h.range e he).2
    have hhigh := (h'.range e' he').1
    omega
  · intro e he
    rcases List.mem_append.mp he with he | he
    · have := h.range e he
      omega
    · have := h'.range e he
      omega
  · intro e he
    rcases List.mem_append.mp he with he | he
    · exact h.origin e he
    · exact h'.origin e he

theorem delete_logs (appendOk : Bool) (t : Topic σ) (key : String) :
    Logs cfg t (delete cfg appendOk t key).topic (delete cfg appendOk t key).entries := by
  cases hrem : t.state.removeKey key with
  | none =>
    simp only [delete, hrem]
    exact .none le_rfl rfl rfl
  | some p =>
    cases hb : cfg.persist && !appendOk with
    | true =>
      simp only [delete, hrem, hb]
      exact .none (Nat.le_succ _) rfl rfl
    | false =>
      simp only [delete, hrem, hb, Bool.false_eq_true, if_false]
      split
      · exact .one rfl rfl rfl rfl rfl
      · exact .none (Nat.le_succ _) rfl rfl

variable [HostText]

theorem writeStoreWithChanged_logs (now : Nat) (appendOk : Bool) (t : Topic σ) (v : Values σ)
    (key : String) (payload : JsonMap) (format : PayloadFormat) (cols : Option (List σ.Col)) :
    Logs cfg t (writeStoreWithChanged cfg now appendOk t v key payload format cols).topic
      (writeStoreWithChanged cfg now appendOk t v key payload format cols).entries := by
  cases hb : cfg.persist && !appendOk with
  | true =>
    simp only [writeStoreWithChanged, hb]
    exact .none (Nat.le_succ _) rfl rfl
  | false =>
    simp only [writeStoreWithChanged, hb, Bool.false_eq_true, if_false]
    split
    · exact .one rfl rfl rfl rfl rfl
    · exact .none (Nat.le_succ _) rfl rfl

theorem upsertMapBatch_logs (now : Nat) (t : Topic σ) (rows : List (JsonMap × Bool)) :
    Logs cfg t (upsertMapBatch cfg now t rows).topic (upsertMapBatch cfg now t rows).entries := by
  induction rows generalizing t with
  | nil => exact .none le_rfl rfl rfl
  | cons row rows ih =>
    obtain ⟨m, appendOk⟩ := row
    have hfirst : Logs cfg t (upsertMap cfg now appendOk t m).topic
        (upsertMap cfg now appendOk t m).entries := writeStoreWithChanged_logs ..
    simp only [upsertMapBatch]
    split
    · exact hfirst.append (ih _)
    · exact hfirst

theorem LiveWrite.run_logs (t : Topic σ) (w : LiveWrite) :
    Logs cfg t (w.run cfg t).topic (w.run cfg t).entries := by
  cases w with
  | upsertMap now appendOk m => exact writeStoreWithChanged_logs ..
  | upsertMapBatch now rows => exact upsertMapBatch_logs now t rows
  | deltaUpsertMap now appendOk m =>
    simp only [LiveWrite.run, CqServer.deltaUpsertMap]
    split
    · exact writeStoreWithChanged_logs ..
    · exact .none le_rfl rfl rfl
  | delete appendOk key => exact delete_logs appendOk t key
  | expire appendOk ttl sweepObservedAt key =>
    simp only [LiveWrite.run, deleteIfStillExpired]
    split
    · exact delete_logs appendOk t key
    · exact .none le_rfl rfl rfl

end Logs

/-- The counters of the two topics agree. -/
structure SameMarks {σ τ : Schema} (t : Topic σ) (u : Topic τ) : Prop where
  next : u.nextSequence = t.nextSequence
  applied : u.lastAppliedSequence = t.lastAppliedSequence
  highwater : u.replicatedHighwater = t.replicatedHighwater

namespace AnyTopic

def new (σ : Schema) : AnyTopic := ⟨σ, .new σ⟩

variable (subscriptions : Nat) (t : AnyTopic)

def discover (subscriptions : Nat) (t : AnyTopic) : Option JsonMap → AnyTopic
  | some flat => maybeDiscoverSchema subscriptions t flat
  | none => t

/-- The schema in force is not the placeholder. -/
def declared : Bool := !t.1.isPlaceholder

theorem discover_declared {t : AnyTopic} (h : t.declared = true) (subscriptions : Nat)
    (flat : Option JsonMap) : t.discover subscriptions flat = t := by
  have hp : t.1.isPlaceholder = false := by simpa [declared] using h
  cases flat with
  | none => rfl
  | some flat => simp [discover, maybeDiscoverSchema, hp]

/-- The topic right after a discovery: new columns, an empty store, the same
watermarks. -/
def discovered (flat : JsonMap) : AnyTopic :=
  ⟨Schema.discover flat,
    { state := .build _
      nextSequence := t.2.nextSequence
      lastAppliedSequence := t.2.lastAppliedSequence
      replicatedHighwater := t.2.replicatedHighwater }⟩

/-- Discovery happens on an empty placeholder topic only. -/
theorem discover_cases (flat : Option JsonMap) : t.discover subscriptions flat = t ∨
      ∃ m, flat = some m ∧ m ≠ [] ∧ t.declared = false ∧ t.2.state.table.rowCount = 0 ∧
        t.discover subscriptions flat = t.discovered m := by
  cases flat with
  | none => exact .inl rfl
  | some m =>
    by_cases h : t.1.isPlaceholder ∧ t.2.state.table.rowCount = 0 ∧ subscriptions = 0 ∧ m ≠ []
    · refine .inr ⟨m, rfl, h.2.2.2, by simp [declared, h.1], h.2.1, ?_⟩
      exact if_pos h
    · exact .inl (if_neg h)

theorem discover_watermarks (flat : Option JsonMap) :
    SameMarks t.2 (t.discover subscriptions flat).2 := by
  rcases discover_cases subscriptions t flat with h | ⟨m, -, -, -, -, h⟩
  · rw [h]
    exact ⟨rfl, rfl, rfl⟩
  · rw [h]
    exact ⟨rfl, rfl, rfl⟩

theorem isDuplicate_congr {σ τ : Schema} {cfg : TopicConfig} {t : Topic σ} {u : Topic τ}
    (hlast : t.lastAppliedSequence = u.lastAppliedSequence)
    (hhigh : t.replicatedHighwater = u.replicatedHighwater) (origin : String) (seq : Nat) :
    t.replayIsDuplicate cfg origin seq = u.replayIsDuplicate cfg origin seq := by
  unfold Topic.replayIsDuplicate
  rw [hlast, hhigh]

section Calls
variable [HostText]

variable (cfg : TopicConfig)

def write (subscriptions : Nat) (t : AnyTopic) (w : LiveWrite) : AnyTopic × List LogEntry :=
  let d := t.discover subscriptions w.discovers
  let o := w.run cfg d.2
  (⟨d.1, o.topic⟩, o.entries)

/-- `replay_upsert_map_origin`; a duplicate does not reach the discovery. -/
def replayUpsertMapOrigin (subscriptions now : Nat) (t : AnyTopic) (origin : String) (seq : Nat)
    (m : JsonMap) : AnyTopic :=
  if t.2.replayIsDuplicate cfg origin seq then t
  else
    let d := t.discover subscriptions (some (flatView m))
    ⟨d.1, d.2.replayUpsertMapOrigin cfg now origin seq m⟩

/-- `replay_delta_map_origin`; the discovery comes before the key is looked for. -/
def replayDeltaMapOrigin (subscriptions now : Nat) (t : AnyTopic) (origin : String) (seq : Nat)
    (m : JsonMap) : AnyTopic :=
  if t.2.replayIsDuplicate cfg origin seq then t
  else
    let d := t.discover subscriptions (some (flatView m))
    ⟨d.1, d.2.replayDeltaMapOrigin cfg now origin seq m⟩

def replayDeleteOrigin (t : AnyTopic) (origin : String) (seq : Nat) (key : String) : AnyTopic :=
  ⟨t.1, t.2.replayDeleteOrigin cfg origin seq key⟩

end Calls

end AnyTopic

end CqServer
