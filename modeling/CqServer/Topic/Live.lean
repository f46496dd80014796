import CqServer.Subscription.Fanout
import CqServer.Lib.Run

/-!
# A topic under load

Writers, the evaluator and subscribers of one topic, interleaved. A write holds
the topic's write lock from the allocation of its sequence to the emission of
its event, `subscribe` holds the read lock from the snapshot to the seeding of
the active set, and the evaluator takes one queued event at a time and reads
the store as it is then; each of these is one step. Only a delta publish is two
steps, with its merged image pending in between.

Every write comes down to a list of `Effect`s, each a store mutation with its
sequence and its event (`step_cases`).
-/

namespace CqServer

open Lib

variable {σ : Schema}

/-! ## Subscribing -/

def StoreState.liveRows (st : StoreState σ) : Finset Nat := st.table.liveSlots.toFinset

theorem StoreState.mem_liveRows {st : StoreState σ} {r : Nat} : r ∈ st.liveRows ↔ st.table.Live r := by
  rw [liveRows, List.mem_toFinset, SlotTable.mem_liveSlots]

/-- The options of the subscribe calls: sparse deltas, and the active-set cap
of `subscribe_with_cap`. -/
structure SubscribeOptions where
  sparse : Bool := false
  maxActive : Option Nat := none
  deriving DecidableEq, Repr

section Subscribe
variable [HostText] [AggregateExec σ]

variable (cfg : TopicConfig)

/-- The snapshot of a query that is not aggregating, with the row each result
comes from. On a keyed topic tombstoned rows are dropped. -/
def snapshotRows (st : StoreState σ) (q : ParsedQuery σ) : List (Nat × JsonMap) :=
  let res := executeQuery q st.store
  (res.sourceRows.zip res.rows).filter fun p => cfg.keyFields = [] || st.table.Live p.1

/-- The subscription `subscribe_inner` registers: its live events start after
the sequence captured under the read lock. -/
def newSubscription (t : Topic σ) (id : String) (q : ParsedQuery σ)
    (opts : SubscribeOptions) : Subscription σ :=
  { Subscription.new id q (t.nextSequence + 1) with
    sparse := opts.sparse
    keyCols := if opts.sparse then cfg.keyColIndices σ else []
    maxActive := opts.maxActive }

/-- The subscription `subscribe_inner` leaves in the engine. -/
def subscribed (t : Topic σ) (id : String) (q : ParsedQuery σ)
    (opts : SubscribeOptions) : Subscription σ :=
  let sub := newSubscription cfg t id q opts
  let store := t.state.store
  if q.isAggregating then
    sub.seedAggregate store t.state.liveRows
      (AggregateExec.executeAggregate q store (some t.state.liveRows))
  else sub.seedActiveSet store

theorem subscribed_keeps (t : Topic σ) (id : String) (q : ParsedQuery σ) (opts : SubscribeOptions) :
    (subscribed cfg t id q opts).id = id ∧ (subscribed cfg t id q opts).query = q ∧
      (subscribed cfg t id q opts).liveStartSequence = t.nextSequence + 1 := by
  unfold subscribed
  split
  · exact ⟨rfl, rfl, rfl⟩
  · have hseed := Subscription.seedRows_keeps t.state.store (List.range t.state.store.rowCount)
      (newSubscription cfg t id q opts)
    exact ⟨hseed.id, hseed.query, hseed.liveStart⟩

/-- `subscribe_inner`: register the subscription and seed it from the store the
snapshot is taken from. -/
def subscribeInner (t : Topic σ) (e : SubscriptionEngine σ) (id : String) (q : ParsedQuery σ)
    (opts : SubscribeOptions) : SubscriptionEngine σ :=
  e.add (subscribed cfg t id q opts)

theorem lookup_subscribeInner (t : Topic σ) (e : SubscriptionEngine σ) (id : String)
    (q : ParsedQuery σ) (opts : SubscribeOptions) (id' : String) :
    (subscribeInner cfg t e id q opts).subscriptions.lookup id' =
      if id' = id then some (subscribed cfg t id q opts) else e.subscriptions.lookup id' := by
  rw [subscribeInner, SubscriptionEngine.add, lookup_insert_ite, (subscribed_keeps cfg t id q opts).1]

theorem snapshotRows_eq {cfg : TopicConfig} (hkeys : cfg.keyFields ≠ []) {q : ParsedQuery σ}
    (hq : q.Stored) (st : StoreState σ) :
    snapshotRows cfg st q =
      ((selectedRows q st.store).filter fun r => decide (st.table.Live r)).map fun r =>
        (r, projectRow q (st.row r)) := by
  have hlive : ∀ p : Nat × JsonMap,
      (decide (cfg.keyFields = []) || decide (st.table.Live p.1)) = decide (st.table.Live p.1) := by
    simp [hkeys]
  unfold snapshotRows
  simp only [executeQuery, hq.rowOriented, if_true, executeRows_rows hq,
    ← List.map_prod_left_eq_zip, hlive]
  rw [List.filter_map]
  rfl

end Subscribe

/-! ## The state and its steps -/

/-- `images` are those of the delta publishes that have read but not yet committed. -/
structure Live (σ : Schema) where
  topic : Topic σ
  queue : List (MutationEvent σ)
  engine : SubscriptionEngine σ
  images : Nat → Option (DeltaImage σ)

def Live.init (σ : Schema) : Live σ := ⟨.new σ, [], .empty, fun _ => none⟩

inductive Act (σ : Schema) where
  | upsertMap (now : Nat) (appendOk : Bool) (m : JsonMap)
  | upsertMapBatch (now : Nat) (rows : List (JsonMap × Bool))
  | deltaRead (writer : Nat) (m : JsonMap)
  | deltaCommit (writer now : Nat) (appendOk : Bool)
  | delete (appendOk : Bool) (key : String)
  | expire (appendOk : Bool) (ttl sweepObservedAt : Nat) (key : String)
  | subscribe (id : String) (q : ParsedQuery σ) (opts : SubscribeOptions)
  | unsubscribe (id : String)
  | evaluate

def Act.mentions (id : String) : Act σ → Bool
  | .subscribe id' _ _ => id' = id
  | .unsubscribe id' => id' = id
  | _ => false

namespace Live

/-- Take in a write: the topic as it left it, its events behind the queue. -/
def absorb (s : Live σ) (o : Outcome σ) : Live σ :=
  { s with topic := o.topic, queue := s.queue ++ o.events }

variable [HostText] [AggregateExec σ]

def step (cfg : TopicConfig) (s : Live σ) : Act σ → Option (Live σ × List Delta)
  | .upsertMap now appendOk m => some (s.absorb (upsertMap cfg now appendOk s.topic m), [])
  | .upsertMapBatch now rows => some (s.absorb (upsertMapBatch cfg now s.topic rows), [])
  | .deltaRead writer m =>
    (deltaRead cfg s.topic.state m).map fun d =>
      ({ s with images := Function.update s.images writer (some d) }, [])
  | .deltaCommit writer now appendOk =>
    (s.images writer).map fun d =>
      ({ s.absorb (deltaCommit cfg now appendOk s.topic d) with
          images := Function.update s.images writer none }, [])
  | .delete appendOk key => some (s.absorb (delete cfg appendOk s.topic key), [])
  | .expire appendOk ttl sweepObservedAt key =>
    some (s.absorb (deleteIfStillExpired cfg appendOk s.topic ttl sweepObservedAt key), [])
  | .subscribe id q opts =>
    some ({ s with engine := subscribeInner cfg s.topic s.engine id q opts }, [])
  | .unsubscribe id => some ({ s with engine := s.engine.remove id }, [])
  | .evaluate =>
    match s.queue with
    | [] => none
    | ev :: rest =>
      let o := s.engine.evaluateRowKindIndexed ev.row ev.sequence s.topic.state.store
        ev.kind ev.changedCols
      some ({ s with queue := rest, engine := o.1 }, o.2)

end Live

/-! ## What a write does to the topic -/

/-- One store mutation with its sequence: a failed publish burns its sequence, a
delete whose append fails is not announced to the evaluator. -/
inductive Effect (σ : Schema) where
  | burn
  | commit (now : Nat) (v : Values σ) (changedCols : Option (List σ.Col))
  | remove (key : String) (announced : Bool)

section Effects
variable [HostText]

/-- The topic after the effect, and the events it emits. -/
def Effect.apply (cfg : TopicConfig) (t : Topic σ) : Effect σ → Topic σ × List (MutationEvent σ)
  | .burn => ({ t with nextSequence := t.nextSequence + 1 }, [])
  | .commit now v changedCols =>
    let c := t.state.commitValuesLocked (cfg.keyColIndices σ) now v
    ({ t with state := c.1, nextSequence := t.nextSequence + 1 },
      [⟨c.2, t.nextSequence + 1, .upsert, changedCols⟩])
  | .remove key announced =>
    match t.state.removeKey key with
    | none => (t, [])
    | some (st, row) =>
      ({ t with state := st, nextSequence := t.nextSequence + 1 },
        if announced then [⟨row, t.nextSequence + 1, .delete, none⟩] else [])

def Effect.applyAll (cfg : TopicConfig) (t : Topic σ) :
    List (Effect σ) → Topic σ × List (MutationEvent σ)
  | [] => (t, [])
  | e :: es =>
    let o := e.apply cfg t
    let rest := applyAll cfg o.1 es
    (rest.1, o.2 ++ rest.2)

def publishEffect (cfg : TopicConfig) (now : Nat) (appendOk : Bool) (v : Values σ)
    (changedCols : Option (List σ.Col)) : Effect σ :=
  if cfg.persist && !appendOk then .burn else .commit now v changedCols

/-- A batch stops at its first failed append. -/
def batchEffects (cfg : TopicConfig) (now : Nat) : List (JsonMap × Bool) → List (Effect σ)
  | [] => []
  | (m, appendOk) :: rest =>
    publishEffect cfg now appendOk (.ofMap σ (flatView m)) none ::
      if cfg.persist && !appendOk then [] else batchEffects cfg now rest

def Act.effects (cfg : TopicConfig) (s : Live σ) : Act σ → List (Effect σ)
  | .upsertMap now appendOk m => [publishEffect cfg now appendOk (.ofMap σ (flatView m)) none]
  | .upsertMapBatch now rows => batchEffects cfg now rows
  | .deltaCommit writer now appendOk =>
    match s.images writer with
    | some d => [publishEffect cfg now appendOk d.values (some d.changedCols)]
    | none => []
  | .delete appendOk key => [.remove key !(cfg.persist && !appendOk)]
  | .expire appendOk ttl sweepObservedAt key =>
    if stillExpired s.topic.state ttl sweepObservedAt key then
      [.remove key !(cfg.persist && !appendOk)]
    else []
  | _ => []

section
variable (cfg : TopicConfig)

theorem Effect.apply_sequence (t : Topic σ) (e : Effect σ) :
    t.nextSequence ≤ (e.apply cfg t).1.nextSequence ∧ ∀ ev ∈ (e.apply cfg t).2,
        t.nextSequence < ev.sequence ∧ ev.sequence ≤ (e.apply cfg t).1.nextSequence := by
  cases e with
  | burn | commit now v cols => simp [apply]
  | remove key announced =>
    cases hrem : t.state.removeKey key with
    | none => simp [apply, hrem]
    | some p => cases announced <;> simp [apply, hrem]

theorem Effect.applyAll_sequence (t : Topic σ) (es : List (Effect σ)) :
    t.nextSequence ≤ (applyAll cfg t es).1.nextSequence ∧ ∀ ev ∈ (applyAll cfg t es).2,
        t.nextSequence < ev.sequence ∧ ev.sequence ≤ (applyAll cfg t es).1.nextSequence := by
  induction es generalizing t with
  | nil => simp [applyAll]
  | cons e es ih =>
    obtain ⟨hle, hev⟩ := e.apply_sequence cfg t
    obtain ⟨hle', hev'⟩ := ih (e.apply cfg t).1
    refine ⟨hle.trans hle', ?_⟩
    intro ev hmem
    rcases List.mem_append.mp hmem with hmem | hmem
    · obtain ⟨hlo, hhi⟩ := hev ev hmem
      exact ⟨hlo, hhi.trans hle'⟩
    · obtain ⟨hlo, hhi⟩ := hev' ev hmem
      exact ⟨Nat.lt_of_le_of_lt hle hlo, hhi⟩

section
variable (now : Nat) (appendOk : Bool) (t : Topic σ)

theorem writeStoreWithChanged_effect (v : Values σ) (key : String) (payload : JsonMap)
    (format : PayloadFormat) (cols : Option (List σ.Col)) :
    let o := writeStoreWithChanged cfg now appendOk t v key payload format cols
    let e := (publishEffect cfg now appendOk v cols).apply cfg t
    o.topic = e.1 ∧ o.events = e.2 ∧ o.ok = !(cfg.persist && !appendOk) := by
  unfold writeStoreWithChanged publishEffect
  cases hb : cfg.persist && !appendOk <;> exact ⟨rfl, rfl, rfl⟩

theorem upsertMap_effect (m : JsonMap) :
    let o := upsertMap cfg now appendOk t m
    let e := (publishEffect cfg now appendOk (.ofMap σ (flatView m)) none).apply cfg t
    o.topic = e.1 ∧ o.events = e.2 ∧ o.ok = !(cfg.persist && !appendOk) :=
  writeStoreWithChanged_effect ..

end

theorem delete_effect (appendOk : Bool) (t : Topic σ) (key : String) :
    let o := delete cfg appendOk t key
    let e := (Effect.remove key !(cfg.persist && !appendOk)).apply cfg t
    o.topic = e.1 ∧ o.events = e.2 := by
  unfold delete Effect.apply
  dsimp only
  cases t.state.removeKey key with
  | none => exact ⟨rfl, rfl⟩
  | some p => cases hb : cfg.persist && !appendOk <;> exact ⟨rfl, rfl⟩

theorem upsertMapBatch_effects (now : Nat) (t : Topic σ) (rows : List (JsonMap × Bool)) :
    let o := upsertMapBatch cfg now t rows
    let e := Effect.applyAll cfg t (batchEffects cfg now rows)
    o.topic = e.1 ∧ o.events = e.2 := by
  induction rows generalizing t with
  | nil => exact ⟨rfl, rfl⟩
  | cons row rows ih =>
    obtain ⟨m, appendOk⟩ := row
    obtain ⟨htopic, hevents, hok⟩ := upsertMap_effect cfg now appendOk t m
    dsimp only [upsertMapBatch, batchEffects, Effect.applyAll]
    rw [hok]
    cases hb : cfg.persist && !appendOk with
    | true =>
      -- the failed append ends the batch
      simp [htopic, hevents, Effect.applyAll]
    | false =>
      obtain ⟨htopic', hevents'⟩ := ih (upsertMap cfg now appendOk t m).topic
      rw [← htopic, ← hevents, htopic', hevents']
      exact ⟨rfl, rfl⟩

end

def Live.perform (cfg : TopicConfig) (s : Live σ) (es : List (Effect σ)) : Live σ :=
  { s with
    topic := (Effect.applyAll cfg s.topic es).1
    queue := s.queue ++ (Effect.applyAll cfg s.topic es).2 }

theorem Live.absorb_eq_perform {cfg : TopicConfig} {s : Live σ} {o : Outcome σ}
    {es : List (Effect σ)}
    (h : o.topic = (Effect.applyAll cfg s.topic es).1 ∧
      o.events = (Effect.applyAll cfg s.topic es).2) : s.absorb o = s.perform cfg es := by
  rw [absorb, h.1, h.2, perform]

theorem Live.absorb_eq_perform_one {cfg : TopicConfig} {s : Live σ} {o : Outcome σ}
    {e : Effect σ} (h : o.topic = (e.apply cfg s.topic).1 ∧ o.events = (e.apply cfg s.topic).2) :
    s.absorb o = s.perform cfg [e] := by
  refine absorb_eq_perform ?_
  simpa [Effect.applyAll] using h

variable [AggregateExec σ]

/-- **What a step can do**: run its effects, change the pending images, change
the registrations, or evaluate the head of the queue. -/
theorem Live.step_cases {cfg : TopicConfig} {s s' : Live σ} {a : Act σ} {ds : List Delta}
    (h : s.step cfg a = some (s', ds)) :
    (∃ images, s' = { s.perform cfg (a.effects cfg s) with images } ∧ ds = [] ∧
      a ≠ .evaluate ∧ (∀ id q opts, a ≠ .subscribe id q opts) ∧ ∀ id, a ≠ .unsubscribe id) ∨
    (∃ id q opts, a = .subscribe id q opts ∧ ds = [] ∧
      s' = { s with engine := subscribeInner cfg s.topic s.engine id q opts }) ∨
    (∃ id, a = .unsubscribe id ∧ ds = [] ∧ s' = { s with engine := s.engine.remove id }) ∨
    (∃ ev rest, a = .evaluate ∧ s.queue = ev :: rest ∧
      s' = { s with
        queue := rest
        engine := (s.engine.evaluateRowKindIndexed ev.row ev.sequence s.topic.state.store
          ev.kind ev.changedCols).1 } ∧
      ds = (s.engine.evaluateRowKindIndexed ev.row ev.sequence s.topic.state.store
        ev.kind ev.changedCols).2) := by
  cases a with
  | upsertMap now appendOk m =>
    obtain ⟨htopic, hevents, -⟩ := upsertMap_effect cfg now appendOk s.topic m
    obtain ⟨rfl, rfl⟩ := h
    refine .inl ⟨s.images, ?_, rfl, by simp, by simp, by simp⟩
    exact absorb_eq_perform_one ⟨htopic, hevents⟩
  | upsertMapBatch now rows =>
    simp only [step] at h
    cases h
    refine .inl ⟨s.images, ?_, rfl, by simp, by simp, by simp⟩
    exact absorb_eq_perform (upsertMapBatch_effects cfg now s.topic rows)
  | deltaRead writer m =>
    simp only [step, Option.map_eq_some_iff] at h
    obtain ⟨d, -, rfl, rfl⟩ := h
    refine .inl ⟨Function.update s.images writer (some d), ?_, rfl, by simp, by simp, by simp⟩
    simp [perform, Act.effects, Effect.applyAll]
  | deltaCommit writer now appendOk =>
    simp only [step, Option.map_eq_some_iff] at h
    obtain ⟨d, hd, rfl, rfl⟩ := h
    obtain ⟨htopic, hevents, -⟩ := writeStoreWithChanged_effect cfg now appendOk s.topic
      d.values d.key d.payload d.format (some d.changedCols)
    refine .inl ⟨Function.update s.images writer none, ?_, rfl, by simp, by simp, by simp⟩
    rw [deltaCommit, absorb_eq_perform_one ⟨htopic, hevents⟩]
    simp [Act.effects, hd]
  | delete appendOk key =>
    obtain ⟨rfl, rfl⟩ := h
    refine .inl ⟨s.images, ?_, rfl, by simp, by simp, by simp⟩
    exact absorb_eq_perform_one (delete_effect cfg appendOk s.topic key)
  | expire appendOk ttl sweepObservedAt key =>
    simp only [step] at h
    cases h
    refine .inl ⟨s.images, ?_, rfl, by simp, by simp, by simp⟩
    by_cases hexp : stillExpired s.topic.state ttl sweepObservedAt key
    · simp only [deleteIfStillExpired, Act.effects, if_pos hexp]
      exact absorb_eq_perform_one (delete_effect cfg appendOk s.topic key)
    · simp only [deleteIfStillExpired, Act.effects, if_neg hexp]
      exact absorb_eq_perform ⟨rfl, rfl⟩
  | subscribe id q opts =>
    obtain ⟨rfl, rfl⟩ := h
    exact .inr (.inl ⟨id, q, opts, rfl, rfl, rfl⟩)
  | unsubscribe id =>
    simp only [step] at h
    cases h
    exact .inr (.inr (.inl ⟨id, rfl, rfl, rfl⟩))
  | evaluate =>
    cases hq : s.queue with
    | nil => simp [step, hq] at h
    | cons ev rest =>
      simp only [step, hq] at h
      cases h
      exact .inr (.inr (.inr ⟨ev, rest, rfl, rfl, rfl, rfl⟩))

end Effects

end CqServer
