import CqServer.Topic.Live

/-!
# The cut between a snapshot and its live events

`subscribe` reads the store and the sequence counter under the read lock, and
its subscription listens from the next sequence on. Beside the topic the state
below has every mutation under its sequence, what each subscriber read and the
subscription that was registered for it, the events the evaluator has taken, and
the deltas it has emitted. A subscriber has read exactly the mutations up to its
captured sequence, their events change nothing for it, and its subscription and
deltas are what `Subscription.evaluate` makes of the later events, one after the
other. A delta publish that sets no column of the subscriber's predicate is
passed over (`delta_event_not_evaluated`).
-/

namespace CqServer.Cut

open Lib SubscriptionEngine List

variable {σ : Schema}

section System
variable [HostText]

/-! ## Mutations by sequence -/

abbrev History (σ : Schema) := List (Nat × Effect σ)

variable (cfg : TopicConfig)

def mutate (st : StoreState σ) : Effect σ → StoreState σ
  | .burn => st
  | .commit now v _ => (st.commitValuesLocked (cfg.keyColIndices σ) now v).1
  | .remove key _ =>
    match st.removeKey key with
    | none => st
    | some p => p.1

def replayFrom (st : StoreState σ) (h : History σ) : StoreState σ :=
  h.foldl (fun st m => mutate cfg st m.2) st

def replay (h : History σ) : StoreState σ := replayFrom cfg (.build σ) h

/-- The effects of a write under their sequences; an effect without a sequence
has done nothing. -/
def recorded (cfg : TopicConfig) (t : Topic σ) : List (Effect σ) → History σ
  | [] => []
  | e :: es =>
    (if (e.apply cfg t).1.nextSequence = t.nextSequence then [] else [(t.nextSequence + 1, e)]) ++
      recorded cfg (e.apply cfg t).1 es

section
variable (cfg : TopicConfig) (t : Topic σ)

theorem apply_cases (e : Effect σ) : (e.apply cfg t).1.state = mutate cfg t.state e ∧
      ((e.apply cfg t).1.nextSequence = t.nextSequence + 1 ∨
        (e.apply cfg t).1.nextSequence = t.nextSequence ∧ mutate cfg t.state e = t.state) := by
  cases e with
  | burn | commit now v cols => exact ⟨rfl, .inl rfl⟩
  | remove key announced =>
    cases hrem : t.state.removeKey key with
    | none | some p => simp [Effect.apply, mutate, hrem]

variable (es : List (Effect σ))

theorem recorded_replay :
    (Effect.applyAll cfg t es).1.state = replayFrom cfg t.state (recorded cfg t es) := by
  induction es generalizing t with
  | nil => rfl
  | cons e es ih =>
    obtain ⟨hstate, hnext⟩ := apply_cases cfg t e
    have hrest := ih (e.apply cfg t).1
    rw [hstate] at hrest
    rcases hnext with hnext | ⟨hnext, hsame⟩
    · have hne : ¬ (e.apply cfg t).1.nextSequence = t.nextSequence := by omega
      simpa [Effect.applyAll, recorded, hne, replayFrom] using hrest
    · rw [hsame] at hrest
      simpa [Effect.applyAll, recorded, hnext] using hrest

theorem recorded_sequence : ∀ m ∈ recorded cfg t es,
      t.nextSequence < m.1 ∧ m.1 ≤ (Effect.applyAll cfg t es).1.nextSequence := by
  induction es generalizing t with
  | nil => simp [recorded]
  | cons e es ih =>
    intro m hm
    obtain ⟨-, hnext⟩ := apply_cases cfg t e
    have hle := (Effect.applyAll_sequence cfg (e.apply cfg t).1 es).1
    have happ : (Effect.applyAll cfg t (e :: es)).1 =
        (Effect.applyAll cfg (e.apply cfg t).1 es).1 := rfl
    rw [happ]
    rcases mem_append.mp hm with hm | hm
    · split at hm
      · cases hm
      · rw [mem_singleton.mp hm]
        omega
    · obtain ⟨hlo, hhi⟩ := ih _ m hm
      exact ⟨by omega, hhi⟩

theorem applyAll_pairwise :
    (Effect.applyAll cfg t es).2.Pairwise fun a b => a.sequence < b.sequence := by
  induction es generalizing t with
  | nil => exact .nil
  | cons e es ih =>
    refine pairwise_append.mpr ⟨?_, ih _, ?_⟩
    · cases e with
      | burn => exact .nil
      | commit now v cols => exact pairwise_singleton ..
      | remove key announced =>
        cases hrem : t.state.removeKey key with
        | none => simp [Effect.apply, hrem]
        | some p => cases announced <;> simp [Effect.apply, hrem]
    · intro a ha b hb
      have hlo := ((e.apply_sequence cfg t).2 a ha).2
      have hhi := ((Effect.applyAll_sequence cfg (e.apply cfg t).1 es).2 b hb).1
      omega

end

/-! ## The system -/

/-- What a subscribe call read, and the subscription it registered. -/
structure Capture (σ : Schema) where
  captured : Nat
  read : StoreState σ
  registered : Subscription σ

/-- An event, with the store the evaluator finds. -/
abbrev Taken (σ : Schema) := MutationEvent σ × ColumnStore σ

structure State (σ : Schema) where
  live : Live σ
  history : History σ
  processed : List (Taken σ)
  captures : String → Option (Capture σ)
  sent : String → List Delta

def State.init (σ : Schema) : State σ :=
  ⟨.init σ, [], [], fun _ => none, fun _ => []⟩

def taken (s : State σ) : Act σ → List (Taken σ)
  | .evaluate => s.live.queue.head?.toList.map fun ev => (ev, s.live.topic.state.store)
  | _ => []

def sentAfter (s : State σ) (a : Act σ) (ds : List Delta) (id : String) : List Delta :=
  match a with
  | .subscribe id' _ _ => if id = id' then [] else s.sent id
  | _ => s.sent id ++ deltasFor id ds

variable [AggregateExec σ]

def capturesAfter (cfg : TopicConfig) (s : State σ) : Act σ → String → Option (Capture σ)
  | .subscribe id q opts =>
    let t := s.live.topic
    Function.update s.captures id (some ⟨t.nextSequence, t.state, subscribed cfg t id q opts⟩)
  | _ => s.captures

def step (cfg : TopicConfig) (s : State σ) (a : Act σ) : Option (State σ) :=
  (s.live.step cfg a).map fun o =>
    { live := o.1
      history := s.history ++ recorded cfg s.live.topic (a.effects cfg s.live)
      processed := s.processed ++ taken s a
      captures := capturesAfter cfg s a
      sent := sentAfter s a o.2 }

/-- A subscription after some events, one evaluation each, and the deltas emitted on the way. -/
def evaluateAll (sub : Subscription σ) (events : List (Taken σ)) : Subscription σ × List Delta :=
  events.foldl (fun o p =>
    let o' := o.1.evaluate p.1.row p.1.sequence p.1.kind p.2
    (o'.1, o.2 ++ o'.2)) (sub, [])

theorem evaluateAll_concat (sub : Subscription σ) (events : List (Taken σ)) (p : Taken σ) :
    evaluateAll sub (events ++ [p]) =
      let o := evaluateAll sub events
      let o' := o.1.evaluate p.1.row p.1.sequence p.1.kind p.2
      (o'.1, o.2 ++ o'.2) := by
  rw [evaluateAll, foldl_append]
  rfl

/-! ## The invariant -/

/-- The subscription is where the dispatched events since its registration bring it. -/
structure Tracked (s : State σ) (id : String) (sub : Subscription σ) (cap : Capture σ) : Prop where
  captured : s.captures id = some cap
  identity : cap.registered.SameIdentity sub
  start : sub.liveStartSequence = cap.captured + 1
  bound : cap.captured ≤ s.live.topic.nextSequence
  read : cap.read = replay cfg (s.history.filter fun m => m.1 ≤ cap.captured)
  evaluated : (sub, s.sent id) = evaluateAll cap.registered (s.processed.filter fun p =>
    cap.captured < p.1.sequence ∧ Dispatched p.1.changedCols cap.registered)

structure Inv (s : State σ) : Prop where
  store : s.live.topic.state = replay cfg s.history
  history_le : ∀ m ∈ s.history, m.1 ≤ s.live.topic.nextSequence
  order : (s.processed.map Prod.fst ++ s.live.queue).Pairwise fun a b => a.sequence < b.sequence
  event_le : ∀ ev ∈ s.processed.map Prod.fst ++ s.live.queue,
    ev.sequence ≤ s.live.topic.nextSequence
  tracked : ∀ id sub, s.live.engine.subscriptions.lookup id = some sub →
    ∃ cap, Tracked cfg s id sub cap

theorem Inv.init : Inv cfg (State.init σ) where
  store := rfl
  history_le m h := by cases h
  order := .nil
  event_le ev h := by cases h
  tracked id sub h := by simp [State.init, Live.init, SubscriptionEngine.empty] at h

variable {cfg : TopicConfig} {s : State σ}

theorem Inv.perform (h : Inv cfg s) (es : List (Effect σ)) (images : Nat → Option (DeltaImage σ)) :
    Inv cfg { s with
      live := { s.live.perform cfg es with images }
      history := s.history ++ recorded cfg s.live.topic es } := by
  obtain ⟨hle, hev⟩ := Effect.applyAll_sequence cfg s.live.topic es
  have hrec := recorded_sequence cfg s.live.topic es
  refine ⟨?_, ?_, ?_, ?_, ?_⟩
  · change (Effect.applyAll cfg s.live.topic es).1.state = _
    rw [recorded_replay, h.store, replay, replay, replayFrom, replayFrom, replayFrom, foldl_append]
  · exact forall_mem_append.mpr
      ⟨fun m hm => (h.history_le m hm).trans hle, fun m hm => (hrec m hm).2⟩
  · change (s.processed.map Prod.fst ++ (s.live.queue ++ _)).Pairwise _
    rw [← append_assoc]
    refine pairwise_append.mpr ⟨h.order, applyAll_pairwise cfg s.live.topic es, ?_⟩
    intro a ha b hb
    exact Nat.lt_of_le_of_lt (h.event_le a ha) (hev b hb).1
  · change ∀ ev ∈ s.processed.map Prod.fst ++ (s.live.queue ++ _), _
    rw [← append_assoc]
    exact forall_mem_append.mpr
      ⟨fun ev hmem => (h.event_le ev hmem).trans hle, fun ev hmem => (hev ev hmem).2⟩
  · intro id sub hsub
    obtain ⟨cap, ht⟩ := h.tracked id sub hsub
    refine ⟨cap, { ht with bound := ht.bound.trans hle, read := ?_ }⟩
    have hlater : (recorded cfg s.live.topic es).filter (fun m => m.1 ≤ cap.captured) = [] := by
      refine filter_eq_nil_iff.mpr ?_
      intro m hm
      have hlt := (hrec m hm).1
      have hb := ht.bound
      simp only [decide_eq_true_eq]
      omega
    rw [ht.read, filter_append, hlater, append_nil]

variable (cfg) in
theorem records_quiet {a : Act σ} (hev : a ≠ .evaluate)
    (hsub : ∀ id q opts, a ≠ .subscribe id q opts) :
    taken s a = [] ∧ capturesAfter cfg s a = s.captures ∧ sentAfter s a [] = s.sent := by
  cases a with
  | evaluate => exact absurd rfl hev
  | subscribe id q opts => exact absurd rfl (hsub id q opts)
  | _ => exact ⟨rfl, rfl, funext fun id => append_nil _⟩

theorem Inv.unsubscribe (h : Inv cfg s) (id : String) :
    Inv cfg { s with live := { s.live with engine := s.live.engine.remove id } } := by
  refine { h with tracked := ?_ }
  intro id' sub hsub
  rw [SubscriptionEngine.lookup_remove] at hsub
  split at hsub
  · cases hsub
  · obtain ⟨cap, ht⟩ := h.tracked id' sub hsub
    exact ⟨cap, { ht with }⟩

theorem Inv.subscribe (h : Inv cfg s) (id : String) (q : ParsedQuery σ) (opts : SubscribeOptions) :
    Inv cfg { s with
      live := { s.live with engine := subscribeInner cfg s.live.topic s.live.engine id q opts }
      captures := capturesAfter cfg s (.subscribe id q opts)
      sent := sentAfter s (.subscribe id q opts) [] } := by
  refine { h with tracked := ?_ }
  intro id' sub hsub
  change (subscribeInner cfg s.live.topic s.live.engine id q opts).subscriptions.lookup id' = _
    at hsub
  rw [lookup_subscribeInner] at hsub
  by_cases hid : id' = id
  · subst hid
    rw [if_pos rfl, Option.some.injEq] at hsub
    subst hsub
    have hall : s.history.filter (fun m => m.1 ≤ s.live.topic.nextSequence) = s.history := by
      refine filter_eq_self.mpr ?_
      intro m hm
      simpa using h.history_le m hm
    -- what has been taken is not later than what was captured
    have hnone : s.processed.filter (fun p => s.live.topic.nextSequence < p.1.sequence ∧
        Dispatched p.1.changedCols (subscribed cfg s.live.topic id' q opts)) = [] := by
      refine filter_eq_nil_iff.mpr fun p hp => ?_
      have hle := h.event_le p.1 (mem_append_left _ (mem_map_of_mem hp))
      have hnot : ¬ s.live.topic.nextSequence < p.1.sequence := by omega
      simp [hnot]
    refine ⟨⟨s.live.topic.nextSequence, s.live.topic.state, subscribed cfg s.live.topic id' q opts⟩,
      ?_, .refl _, ?_, le_rfl, ?_, ?_⟩
    · simp [capturesAfter]
    · exact (subscribed_keeps cfg s.live.topic id' q opts).2.2
    · rw [hall]
      exact h.store
    · dsimp only
      rw [hnone, sentAfter, if_pos rfl]
      rfl
  · rw [if_neg hid] at hsub
    obtain ⟨cap, ht⟩ := h.tracked id' sub hsub
    have hsent : sentAfter s (.subscribe id q opts) [] id' = s.sent id' := if_neg hid
    refine ⟨cap, { ht with captured := ?_, evaluated := ?_ }⟩
    · simp [capturesAfter, Function.update_of_ne hid, ht.captured]
    · change (sub, sentAfter s (.subscribe id q opts) [] id') = _
      rw [hsent]
      exact ht.evaluated

/-- An event up to the captured sequence changes nothing. -/
theorem Tracked.suppressed {id : String} {sub : Subscription σ} {cap : Capture σ}
    (ht : Tracked cfg s id sub cap) {sequence : Nat} (hle : sequence ≤ cap.captured) (row : Nat)
    (kind : MutationKind) (store : ColumnStore σ) :
    sub.evaluate row sequence kind store = (sub, []) := by
  have hstart := ht.start
  have hgate : ¬ sub.liveStartSequence ≤ sequence := by omega
  simp [Subscription.evaluate, Subscription.listens, hgate]

theorem Inv.evaluate (h : Inv cfg s) {ev : MutationEvent σ} {rest : List (MutationEvent σ)}
    (hq : s.live.queue = ev :: rest) :
    let o := s.live.engine.evaluateRowKindIndexed ev.row ev.sequence s.live.topic.state.store
      ev.kind ev.changedCols
    Inv cfg { s with
      live := { s.live with queue := rest, engine := o.1 }
      processed := s.processed ++ taken s .evaluate
      sent := sentAfter s .evaluate o.2 } := by
  intro o
  have htaken : taken s .evaluate = [(ev, s.live.topic.state.store)] := by simp [taken, hq]
  have hevents : (s.processed ++ [(ev, s.live.topic.state.store)]).map Prod.fst ++ rest =
      s.processed.map Prod.fst ++ s.live.queue := by simp [hq]
  rw [htaken]
  refine ⟨h.store, h.history_le, ?_, ?_, ?_⟩
  · rw [hevents]
    exact h.order
  · intro ev' hmem
    rw [hevents] at hmem
    exact h.event_le ev' hmem
  · intro id sub' hsub'
    cases hsub : s.live.engine.subscriptions.lookup id with
    | none =>
      rw [(evaluateRowKindIndexed_unregistered hsub ..).1] at hsub'
      cases hsub'
    | some sub =>
      obtain ⟨cap, ht⟩ := h.tracked id sub hsub
      obtain ⟨hlookup, hdeltas⟩ := evaluateRowKindIndexed_lookup hsub ev.row ev.sequence
        s.live.topic.state.store ev.kind ev.changedCols
      rw [hlookup, Option.some.injEq] at hsub'
      have hdis : Dispatched ev.changedCols sub ↔ Dispatched ev.changedCols cap.registered := by
        simp [Dispatched, ht.identity.query]
      have hkeeps := (sub.evaluate_keeps ev.row ev.sequence ev.kind
        s.live.topic.state.store).toSameIdentity
      have hsame : sub.SameIdentity sub' := by
        rw [← hsub']
        split
        · exact hkeeps
        · exact .refl sub
      refine ⟨cap, { ht with
        identity := ht.identity.trans hsame
        start := hsame.liveStart.trans ht.start
        evaluated := ?_ }⟩
      show (sub', s.sent id ++ deltasFor id o.2) = _
      rw [hdeltas, ← hsub', filter_append, filter_singleton, Bool.cond_decide]
      by_cases hlater : cap.captured < ev.sequence ∧ Dispatched ev.changedCols cap.registered
      · rw [if_pos (hdis.mpr hlater.2), if_pos (hdis.mpr hlater.2), if_pos hlater,
          evaluateAll_concat, ← ht.evaluated]
      · rw [if_neg hlater, append_nil, ← ht.evaluated]
        split
        · -- dispatched, but not later than what was captured
          rename_i hd
          have hle : ev.sequence ≤ cap.captured := Nat.not_lt.mp fun hlt => hlater ⟨hlt, hdis.mp hd⟩
          rw [ht.suppressed hle, append_nil]
        · rw [append_nil]

theorem Inv.step {s' : State σ} {a : Act σ} (h : Inv cfg s) (hstep : step cfg s a = some s') :
    Inv cfg s' := by
  obtain ⟨⟨l, ds⟩, hl, rfl⟩ := Option.map_eq_some_iff.mp hstep
  rcases Live.step_cases hl with
    ⟨images, rfl, rfl, hnev, hnsub, -⟩ | ⟨id, q, opts, rfl, rfl, rfl⟩ | ⟨id, rfl, rfl, rfl⟩ |
    ⟨ev, rest, rfl, hq, rfl, rfl⟩
  · obtain ⟨ht, hc, he⟩ := records_quiet cfg (s := s) hnev hnsub
    have hperf := h.perform (a.effects cfg s.live) images
    simpa [ht, hc, he] using hperf
  · simpa [recorded, Act.effects, taken] using h.subscribe id q opts
  · obtain ⟨ht, hc, he⟩ := records_quiet cfg (s := s) (a := .unsubscribe id) (by simp) (by simp)
    simpa [recorded, Act.effects, ht, hc, he] using h.unsubscribe id
  · simpa [recorded, Act.effects, capturesAfter] using h.evaluate hq

end System

section Quotes
open Quotes

open Unused

/-- A quote is published and watched by its bid; its ask, then the whole quote
is published again. -/
def askTick : List (Act Quotes.schema) :=
  [.upsertMap 0 true (full "A" 10 11),
    .subscribe "s" { predicate := ⟨fun r => r.cells bid = .long 10, .column bid⟩ } {},
    .deltaRead 0 [("ask", num 21), ("sym", .string "A")], .deltaCommit 0 1 true,
    .upsertMap 2 true (full "A" 10 31), .evaluate, .evaluate, .evaluate]

/-- The bid is set by a delta publish too. -/
def bidTick : List (Act Quotes.schema) :=
  [.upsertMap 0 true (full "A" 10 11),
    .subscribe "s" { predicate := ⟨fun r => r.cells bid = .long 10, .column bid⟩ } {},
    .deltaRead 0 [("bid", num 10), ("ask", num 21), ("sym", .string "A")], .deltaCommit 0 1 true,
    .upsertMap 2 true (full "A" 12 31), .evaluate, .evaluate, .evaluate]

end Quotes

end CqServer.Cut
