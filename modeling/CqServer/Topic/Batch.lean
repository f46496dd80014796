import CqServer.Topic.Publish
import CqServer.Topic.Restore

/-!
# Batched publishes

`upsert_map_batch` flattens, converts and serialises all its rows before it
commits the first, against the schema that its first row may define. That is as
good as one `upsert_map` after the other: no conversion reads the store, and a
store with a row in it discovers no schema.
-/

namespace CqServer

open StoreState

structure BatchRow where
  m : JsonMap
  appendOk : Bool
  now : Nat

structure Serving where
  topic : IndexedTopic
  log : List LogEntry
  queue : List (Σ σ : Schema, MutationEvent σ)

namespace Serving

variable [HostText] (cfg : TopicConfig) (indexColumns : List String) (subscriptions : Nat)

/-- `upsert_map` with the sequence it returns; none is its error. -/
def upsertMap (s : Serving) (r : BatchRow) : Serving × Option Nat :=
  let d := s.topic.discover indexColumns subscriptions (some (flatView r.m))
  let o := CqServer.upsertMap cfg r.now r.appendOk d.topic r.m
  (⟨s.topic.write cfg indexColumns subscriptions (.upsertMap r.now r.appendOk r.m),
    s.log ++ o.entries, s.queue ++ o.events.map (Sigma.mk d.schema)⟩,
    if o.ok then some o.topic.nextSequence else none)

/-- The calls in order, up to the first that fails. -/
def upsertMaps (s : Serving) : List BatchRow → Serving × Option (List Nat)
  | [] => (s, some [])
  | r :: rows =>
    match s.upsertMap cfg indexColumns subscriptions r with
    | (s', none) => (s', none)
    | (s', some seq) =>
      let p := upsertMaps s' rows
      (p.1, p.2.map (seq :: ·))

/-- What `upsert_map_batch` makes ready outside the write lock: the converted
columns, and the key and payload of the log entry. -/
structure Prepared (σ : Schema) extends BatchRow where
  values : Values σ
  key : String
  payload : JsonMap

def prepare (σ : Schema) (r : BatchRow) : Prepared σ :=
  let flat := flatView r.m
  ⟨r, .ofMap σ flat, (computeKeyFromMap cfg flat).getD "", flat⟩

/-- The commit loop of `upsert_map_batch`, with the sequences assigned so far. -/
def commitRows {σ : Schema} (log : List LogEntry) (queue : List (Σ σ : Schema, MutationEvent σ))
    (seqs : List Nat) (t : Topic σ) (index : SecondaryIndex σ) :
    List (Prepared σ) → Serving × Option (List Nat)
  | [] => (⟨⟨σ, t, index⟩, log, queue⟩, some seqs)
  | r :: rows =>
    let seq := t.nextSequence + 1
    if cfg.persist && !r.appendOk then
      (⟨⟨σ, { t with nextSequence := seq }, index⟩, log, queue⟩, none)
    else
      let c := t.state.commitValuesLocked (cfg.keyColIndices σ) r.now r.values
      let s := IndexedState.commitValuesLocked (cfg.keyColIndices σ) r.now ⟨t.state, index⟩ r.values
      let entries := if cfg.persist then [⟨seq, r.key, cfg.originId, some r.payload, .json⟩] else []
      commitRows (log ++ entries) (queue ++ [⟨σ, c.2, seq, .upsert, none⟩]) (seqs ++ [seq])
        { t with state := c.1, nextSequence := seq } s.index rows

def upsertMapBatch (s : Serving) (rows : List BatchRow) : Serving × Option (List Nat) :=
  match rows with
  | [] => (s, some [])
  | first :: _ =>
    let d := s.topic.discover indexColumns subscriptions (some (flatView first.m))
    commitRows cfg s.log s.queue [] d.topic d.index (rows.map (prepare cfg d.schema))

/-! ## They agree -/

section Agreement
variable {cfg}

omit [HostText] in
theorem discover_again (t : IndexedTopic) (m : JsonMap) :
    (t.discover indexColumns subscriptions (some m)).discover indexColumns subscriptions (some m) =
      t.discover indexColumns subscriptions (some m) := by
  by_cases h : t.schema.isPlaceholder ∧ t.topic.state.table.rowCount = 0 ∧ subscriptions = 0 ∧
      m ≠ []
  · rw [show t.discover indexColumns subscriptions (some m) = _ from if_pos h]
    exact ite_self _
  · rw [show t.discover indexColumns subscriptions (some m) = t from if_neg h]
    exact if_neg h

theorem commitRows_eq (t : IndexedTopic) (log : List LogEntry)
    (queue : List (Σ σ : Schema, MutationEvent σ)) (seqs : List Nat) {rows : List BatchRow}
    (hsettled : ∀ r ∈ rows.head?, t.discover indexColumns subscriptions (some (flatView r.m)) = t) :
    commitRows cfg log queue seqs t.topic t.index (rows.map (prepare cfg t.schema)) =
      let p := upsertMaps cfg indexColumns subscriptions ⟨t, log, queue⟩ rows
      (p.1, p.2.map (seqs ++ ·)) := by
  induction rows generalizing t log queue seqs with
  | nil => simp [commitRows, upsertMaps]
  | cons r rows ih =>
    rw [upsertMaps, upsertMap, IndexedTopic.write, LiveWrite.discovers, hsettled r rfl]
    cases hfail : cfg.persist && !r.appendOk with
    | true =>
      simp [commitRows, prepare, CqServer.upsertMap, writeStoreWithChanged, LiveWrite.run,
        LiveWrite.mutations, hfail, IndexedTopic.indexed]
    | false =>
      simp only [List.map_cons, commitRows, prepare, hfail]
      rw [ih ⟨t.schema, _, _⟩ _ _ _ fun _ _ =>
        (IndexedTopic.discover_cases ..).resolve_right fun hm =>
          hm.elim fun _ hempty => (AnyTopic.rowCount_pos_commit ..).ne' hempty.1]
      simp [CqServer.upsertMap, writeStoreWithChanged, LiveWrite.run, LiveWrite.mutations, hfail,
        IndexedTopic.indexed, IndexedState.mutate, Function.comp_def]

theorem upsertMapBatch_eq (s : Serving) (rows : List BatchRow) :
    s.upsertMapBatch cfg indexColumns subscriptions rows =
      s.upsertMaps cfg indexColumns subscriptions rows := by
  cases rows with
  | nil => rfl
  | cons r rows =>
    have hagain := discover_again indexColumns subscriptions s.topic (flatView r.m)
    have hcall : upsertMap cfg indexColumns subscriptions
        { s with topic := s.topic.discover indexColumns subscriptions (some (flatView r.m)) } r =
          upsertMap cfg indexColumns subscriptions s r := by
      simp only [upsertMap, IndexedTopic.write, LiveWrite.discovers]
      rw [hagain]
    rw [upsertMapBatch, commitRows_eq indexColumns subscriptions, upsertMaps, upsertMaps]
    · simp [hcall]
    · rintro _ ⟨⟩
      exact hagain

/-- Where the calls stop, what the failed one leaves of the topic is what it found. -/
theorem upsertMaps_failed (hpersist : cfg.persist = true) {done rest : List BatchRow} {r : BatchRow}
    (hdone : ∀ r' ∈ done, r'.appendOk = true) (hr : r.appendOk = false) (s : Serving) :
    let p := s.upsertMaps cfg indexColumns subscriptions (done ++ r :: rest)
    let u := (s.upsertMaps cfg indexColumns subscriptions done).1
    p.2 = none ∧ p.1.log = u.log ∧ p.1.queue = u.queue ∧ u.topic.Untouched p.1.topic := by
  induction done generalizing s with
  | nil =>
    have hfail : (cfg.persist && !r.appendOk) = true := by simp [hpersist, hr]
    have hkept : s.topic.Untouched (s.topic.write cfg indexColumns subscriptions
        (.upsertMap r.now r.appendOk r.m)) := by
      refine IndexedTopic.publish_untouched s.topic rfl ?_
      simp [LiveWrite.run, CqServer.upsertMap, writeStoreWithChanged, hfail]
    simpa [upsertMaps, upsertMap, CqServer.upsertMap, writeStoreWithChanged, hfail] using hkept
  | cons r' done ih =>
    have hok : (cfg.persist && !r'.appendOk) = false := by simp [hdone r' List.mem_cons_self]
    have hrest := ih (fun x hx => hdone x (List.mem_cons_of_mem _ hx))
    simp [upsertMaps, upsertMap, CqServer.upsertMap, writeStoreWithChanged, hok, hrest]

/-- **A batch is its maps in order**: the same sequences, store, index, log and events. An
append that fails ends it with the effect of the maps before. -/
theorem batch_sequential (s : Serving) (rows : List BatchRow) :
    s.upsertMapBatch cfg indexColumns subscriptions rows =
      s.upsertMaps cfg indexColumns subscriptions rows ∧
    ∀ done r rest, rows = done ++ r :: rest → cfg.persist = true →
      (∀ r' ∈ done, r'.appendOk = true) → r.appendOk = false →
      let p := s.upsertMapBatch cfg indexColumns subscriptions rows
      let u := (s.upsertMaps cfg indexColumns subscriptions done).1
      p.2 = none ∧ p.1.log = u.log ∧ p.1.queue = u.queue ∧ u.topic.Untouched p.1.topic := by
  refine ⟨upsertMapBatch_eq indexColumns subscriptions s rows, ?_⟩
  rintro done r rest rfl hpersist hdone hr
  rw [upsertMapBatch_eq]
  exact upsertMaps_failed indexColumns subscriptions hpersist hdone hr s

end Agreement

section Quotes
open Quotes Unused

def quotes : Serving := ⟨.new ["bid"] Quotes.schema, [], []⟩

/-- The log refuses the second of three quotes. -/
theorem batch_cut_short :
    let p := quotes.upsertMapBatch config ["bid"] 0
      [⟨full "A" 10 11, true, 1⟩, ⟨full "B" 20 21, false, 2⟩, ⟨full "C" 30 31, true, 3⟩]
    let u := (quotes.upsertMaps config ["bid"] 0 [⟨full "A" 10 11, true, 1⟩]).1
    p.2 = none ∧ p.1.log = u.log ∧ p.1.queue = u.queue ∧ u.topic.Untouched p.1.topic :=
  (batch_sequential ["bid"] 0 quotes _).2 [⟨full "A" 10 11, true, 1⟩] ⟨full "B" 20 21, false, 2⟩
    [⟨full "C" 30 31, true, 3⟩] rfl rfl (by simp) rfl

end Quotes

end Serving

end CqServer
