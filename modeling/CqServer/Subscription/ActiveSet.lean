import CqServer.Subscription.Turns

/-!
# The active set of a row-oriented subscription

`seed_active_set` scans all slots of the store, and a tombstoned slot passes every
condition that is true of the null row. So a subscription registered after a delete can
start with a dead slot in its set, and announces the next record in that slot as an
update of a record it never showed (`dead_slot_is_active`).

If no dead slot passes the condition at registration, the set is exactly the set of live
matching slots after every turn, and every delta says what happened to its slot
(`activeSet_eq_members`), with full and with sparse deltas.
-/

namespace CqServer

open Lib StoreState

variable {σ : Schema}

/-- The slot holds a live record that satisfies the condition. -/
def Member (q : ParsedQuery σ) (st : StoreState σ) (r : Nat) : Prop :=
  st.table.Live r ∧ q.predicate.holds (st.row r) = true

instance (q : ParsedQuery σ) (st : StoreState σ) (r : Nat) : Decidable (Member q st r) :=
  inferInstanceAs (Decidable (_ ∧ _))

/-- What a slot's delta is, from its membership before and after. -/
def deltaTypeFor (before after : Prop) [Decidable before] [Decidable after] (kind : MutationKind) :
    Option DeltaType :=
  if after then some (if before then .update else .add)
  else if before then some (if kind = .delete then .remove else .oof) else none

/-- An open subscription without LIMIT, aggregate and cap. -/
structure Subscription.Rowwise (sub : Subscription σ) : Prop where
  open_ : sub.closed = false
  noTopn : sub.topn = none
  noAggregate : sub.aggregate = none
  noCap : sub.maxActive = none

namespace Subscription.Rowwise

variable {sub : Subscription σ}

section Evaluate
variable [HostText]

theorem evaluateRow_spec (h : sub.Rowwise) (row sequence : Nat) (kind : MutationKind)
    (store : ColumnStore σ) :
    let o := sub.evaluateRow row sequence kind store
    o.1.Rowwise ∧ (o.1.activeSet = if sub.matchesEvent row kind store then insert row sub.activeSet
        else sub.activeSet.erase row) ∧
      (∀ d ∈ o.2, d.row = row ∧
        some d.deltaType = deltaTypeFor (row ∈ sub.activeSet) (sub.matchesEvent row kind store) kind) ∧
      (¬ (row ∈ sub.activeSet ↔ sub.matchesEvent row kind store = true) → o.2 ≠ []) ∧
      o.2.length ≤ 1 := by
  unfold evaluateRow
  by_cases hm : sub.matchesEvent row kind store
  · by_cases hin : row ∈ sub.activeSet
    · rw [if_pos hm, if_pos hin]
      unfold stay
      dsimp only
      split
      · refine ⟨{ h with }, by simp [hin], ?_, by simp [hm, hin], by split <;> simp⟩
        split <;> simp [delta, deltaTypeFor, hm, hin]
      · exact ⟨h, by simp [hin], by simp [delta, deltaTypeFor, hm, hin], by simp, by simp⟩
    · rw [if_pos hm, if_neg hin]
      unfold enter
      rw [if_neg (sub.not_full h.noCap)]
      exact ⟨{ h with }, by simp [hm], by simp [delta, deltaTypeFor, hm, hin], by simp, by simp⟩
  · by_cases hin : row ∈ sub.activeSet
    · rw [if_neg hm, if_pos hin]
      unfold leave
      exact ⟨{ h with }, by simp [hm], by simp [delta, deltaTypeFor, hm, hin], by simp, by simp⟩
    · rw [if_neg hm, if_neg hin]
      exact ⟨h, by simp [hm, hin], by simp, by simp [hm, hin], by simp⟩

end Evaluate

theorem seedRow_keeps (h : sub.Rowwise) (row : Nat) (store : ColumnStore σ) :
    (sub.seedRow row store).Rowwise :=
  ⟨h.open_, by simp [seedRow, h.noTopn], h.noAggregate, h.noCap⟩

theorem seedRows_spec (h : sub.Rowwise) (store : ColumnStore σ) (rows : List Nat) :
    (sub.seedRows store rows).Rowwise ∧ ∀ r, r ∈ (sub.seedRows store rows).activeSet ↔
      r ∈ sub.activeSet ∨ r ∈ rows ∧ sub.query.predicate.holds (store.row r) = true := by
  induction rows generalizing sub with
  | nil =>
    refine ⟨⟨h.open_, by simp [seedRows, h.noTopn], h.noAggregate, h.noCap⟩, ?_⟩
    simp [seedRows]
  | cons row rows ih =>
    rw [seedRows]
    by_cases hm : sub.query.predicate.holds (store.row row)
    · rw [if_pos hm, if_neg (sub.not_full h.noCap)]
      obtain ⟨hkeeps, hmem⟩ := ih (h.seedRow_keeps row store)
      refine ⟨hkeeps, fun r => ?_⟩
      rw [hmem]
      by_cases hr : r = row
      · simp [hr, seedRow, hm]
      · simp [hr, seedRow]
    · rw [if_neg hm]
      obtain ⟨hkeeps, hmem⟩ := ih h
      refine ⟨hkeeps, fun r => ?_⟩
      rw [hmem]
      by_cases hr : r = row
      · simp [hr, hm]
      · simp [hr]

end Subscription.Rowwise

/-! ## The invariant -/

/-- The set is the set of the live matching slots, and new events are listened to. -/
structure Watched.Exact (s : Watched σ) : Prop where
  rowwise : s.sub.Rowwise
  start : s.sub.liveStartSequence ≤ s.topic.nextSequence + 1
  active : ∀ r, r ∈ s.sub.activeSet ↔ Member s.sub.query s.topic.state r

/-- No dead slot passes the condition of the query. -/
def DeadSlotsFail (q : ParsedQuery σ) (st : StoreState σ) : Prop :=
  ∀ r < st.table.rowCount, ¬ st.table.Live r → q.predicate.holds (st.row r) = false

instance (q : ParsedQuery σ) (st : StoreState σ) : Decidable (DeadSlotsFail q st) :=
  inferInstanceAs (Decidable (∀ r, r < _ → _ → _))

theorem newSubscription_rowwise (cfg : TopicConfig) (t : Topic σ) (id : String) {q : ParsedQuery σ}
    (hq : q.Plain) {opts : SubscribeOptions} (hcap : opts.maxActive = none) :
    (newSubscription cfg t id q opts).Rowwise := by
  refine ⟨rfl, ?_, rfl, hcap⟩
  simp [newSubscription, Subscription.new, hq.limit]

section
variable {t t' : Topic σ} {ev : MutationEvent σ} (ht : Touches t t' ev)
include ht

theorem Touches.member_ne (q : ParsedQuery σ) {r : Nat} (hr : r ≠ ev.row) : Member q t'.state r ↔
    Member q t.state r := by
  unfold Member
  rw [ht.live r hr, ht.row r hr]

theorem Touches.member_self (sub : Subscription σ) : Member sub.query t'.state ev.row ↔
      sub.matchesEvent ev.row ev.kind t'.state.store = true := by
  simp [Member, Subscription.matchesEvent, StoreState.store, ht.kind]

end

section Turns
variable [HostText] [AggregateExec σ] {cfg : TopicConfig} {s : Watched σ}

variable {q : ParsedQuery σ}

theorem subscribed_eq_seed (cfg : TopicConfig) (t : Topic σ) (id : String) (hq : q.rowOriented = true)
    (opts : SubscribeOptions) :
    subscribed cfg t id q opts = (newSubscription cfg t id q opts).seedActiveSet t.state.store := by
  refine if_neg ?_
  intro hagg
  simp [ParsedQuery.rowOriented, hagg] at hq

variable {opts : SubscribeOptions}

/-- **At registration** the set is right exactly if no dead slot passes the condition. -/
theorem register_active_iff (cfg : TopicConfig) (t : Topic σ) (id : String) (hq : q.Plain)
    (hcap : opts.maxActive = none) :
    (∀ r, r ∈ (subscribed cfg t id q opts).activeSet ↔ Member q t.state r) ↔
      DeadSlotsFail q t.state := by
  have hmem : ∀ r, r ∈ (subscribed cfg t id q opts).activeSet ↔
      r < t.state.table.rowCount ∧ q.predicate.holds (t.state.row r) = true := by
    intro r
    rw [subscribed_eq_seed cfg t id hq.rowOriented, Subscription.seedActiveSet,
      ((newSubscription_rowwise cfg t id hq hcap).seedRows_spec _ _).2]
    simp [newSubscription, Subscription.new, StoreState.store]
  simp only [hmem]
  constructor
  · intro h r hr hdead
    by_contra hholds
    exact hdead ((h r).mp ⟨hr, by simpa using hholds⟩).1
  · intro h r
    refine ⟨?_, fun hm => ⟨?_, hm.2⟩⟩
    · rintro ⟨hr, hholds⟩
      refine ⟨?_, hholds⟩
      by_contra hdead
      rw [h r hr hdead] at hholds
      cases hholds
    · obtain ⟨k, hk⟩ := hm.1
      exact t.state.table.slot_lt hk

theorem Watched.Exact.register (t : Topic σ) (id : String) (hq : q.Plain)
    (hcap : opts.maxActive = none) (hdead : DeadSlotsFail q t.state) :
    (Watched.register cfg t id q opts).Exact := by
  obtain ⟨-, hquery, hstart⟩ := subscribed_keeps cfg t id q opts
  refine ⟨?_, hstart.le, ?_⟩
  · change (subscribed cfg t id q opts).Rowwise
    rw [subscribed_eq_seed cfg t id hq.rowOriented]
    exact ((newSubscription_rowwise cfg t id hq hcap).seedRows_spec _ _).1
  · intro r
    change r ∈ (subscribed cfg t id q opts).activeSet ↔ Member (subscribed cfg t id q opts).query _ r
    rw [hquery]
    exact (register_active_iff cfg t id hq hcap).mpr hdead r

variable {w : Write}

theorem Watched.Exact.turn (h : s.Exact) (hs : w.Sound cfg s.topic)
    (hdis : ∀ ev ∈ (w.perform cfg s.topic).events,
      SubscriptionEngine.Dispatched ev.changedCols s.sub) :
    (s.turn cfg w).1.Exact ∧ (s.turn cfg w).1.sub.query = s.sub.query ∧
      (∀ d ∈ (s.turn cfg w).2, some d.deltaType =
        deltaTypeFor (Member s.sub.query s.topic.state d.row)
          (Member s.sub.query (s.turn cfg w).1.topic.state d.row) w.kind) ∧
      (∀ r, ¬ (Member s.sub.query s.topic.state r ↔
        Member s.sub.query (s.turn cfg w).1.topic.state r) → ∃ d ∈ (s.turn cfg w).2, d.row = r) ∧
      (s.turn cfg w).2.length ≤ 1 := by
  rcases hs.cases with ⟨hnil, hstate, hnext⟩ | ⟨ev, hev, ht⟩
  · rw [Watched.turn_of_nil hnil]
    refine ⟨⟨h.rowwise, h.start.trans (Nat.succ_le_succ hnext), ?_⟩, rfl, nofun, ?_, Nat.zero_le _⟩
    · intro r
      rw [hstate]
      exact h.active r
    · intro r hne
      rw [hstate] at hne
      exact absurd Iff.rfl hne
  · have hmem : ev ∈ (w.perform cfg s.topic).events := by rw [hev]; exact List.mem_singleton_self _
    have hlisten : s.sub.listens ev.sequence := by
      rw [Subscription.listens_iff h.rowwise.open_, ht.sequence]
      exact h.start
    obtain ⟨hrow, hactive, htypes, hmissed, hlen⟩ := h.rowwise.evaluateRow_spec ev.row ev.sequence
      ev.kind (w.perform cfg s.topic).topic.state.store
    obtain ⟨hsame, -⟩ := s.sub.evaluate_keeps ev.row ev.sequence ev.kind
      (w.perform cfg s.topic).topic.state.store
    rw [Watched.turn_of_singleton hev, Subscription.receive, if_pos (hdis ev hmem)]
    rw [Subscription.evaluate_eq_row _ _ _ hlisten h.rowwise.noTopn h.rowwise.noAggregate] at hsame ⊢
    have hself := ht.member_self s.sub
    refine ⟨⟨hrow, ?_, ?_⟩, hsame.query, ?_, ?_, hlen⟩
    · rw [hsame.liveStart, ht.next]
      have := h.start
      omega
    · intro r
      rw [hactive, hsame.query]
      by_cases hr : r = ev.row
      · split <;> simp_all
      · rw [ht.member_ne _ hr, ← h.active r]
        split <;> simp [hr]
    · intro d hd
      obtain ⟨hdrow, htype⟩ := htypes d hd
      rw [hdrow, htype, ← (Write.event_kind hmem).1]
      simp [h.active, hself]
    · intro r hne
      by_cases hr : r = ev.row
      · subst hr
        obtain ⟨d, hd⟩ := List.exists_mem_of_ne_nil _
          (hmissed (by rw [h.active, ← hself]; exact hne))
        exact ⟨d, hd, (htypes d hd).1⟩
      · exact absurd (ht.member_ne _ hr).symm hne

/-- The writes of the run: publishes and deletes, sound in the state they are made in. -/
def SoundFull (cfg : TopicConfig) (s : Watched σ) (w : Write) : Prop :=
  w.isDelta = false ∧ w.Sound cfg s.topic

instance (cfg : TopicConfig) (s : Watched σ) (w : Write) : Decidable (SoundFull cfg s w) :=
  inferInstanceAs (Decidable (_ ∧ _))

omit [AggregateExec σ] in
theorem SoundFull.dispatched (h : SoundFull cfg s w) {ev : MutationEvent σ}
    (hev : ev ∈ (w.perform cfg s.topic).events) :
    SubscriptionEngine.Dispatched ev.changedCols s.sub := by
  intro cols hcols
  rw [(Write.event_kind hev).2 h.1] at hcols
  cases hcols

/-- **The active set is the set of live matching slots**, after every turn of a subscription
that found no matching dead slot, and every delta names what became of its slot. -/
theorem activeSet_eq_members {t : Topic σ} {id : String} {q : ParsedQuery σ} (hq : q.Plain)
    {opts : SubscribeOptions} (hcap : opts.maxActive = none) (hdead : DeadSlotsFail q t.state)
    {ws : List Write}
    (hrun : Run (Watched.step cfg) (SoundFull cfg) (Watched.register cfg t id q opts) ws s) :
    (∀ r, r ∈ s.sub.activeSet ↔ Member q s.topic.state r) ∧ ∀ w, SoundFull cfg s w →
        (∀ d ∈ (s.turn cfg w).2, some d.deltaType = deltaTypeFor (Member q s.topic.state d.row)
            (Member q (s.turn cfg w).1.topic.state d.row) w.kind) ∧
        (∀ r, ¬ (Member q s.topic.state r ↔ Member q (s.turn cfg w).1.topic.state r) →
          ∃ d ∈ (s.turn cfg w).2, d.row = r) ∧
        (s.turn cfg w).2.length ≤ 1 := by
  have hinit : (Watched.register cfg t id q opts).Exact ∧
      (Watched.register cfg t id q opts).sub.query = q :=
    ⟨.register t id hq hcap hdead, (subscribed_keeps cfg t id q opts).2.1⟩
  obtain ⟨hexact, hquery⟩ : s.Exact ∧ s.sub.query = q := by
    refine hrun.invariant (P := fun s => s.Exact ∧ s.sub.query = q) ?_ hinit
    intro s w s' ⟨h, hquery⟩ hok hstep
    cases hstep
    obtain ⟨hnext, hsame, -⟩ := h.turn hok.2 fun ev hev => hok.dispatched hev
    exact ⟨hnext, hsame.trans hquery⟩
  refine ⟨fun r => hquery ▸ hexact.active r, ?_⟩
  intro w hok
  obtain ⟨-, -, htypes, hmissed, hlen⟩ := hexact.turn hok.2 fun ev hev => hok.dispatched hev
  rw [hquery] at htypes hmissed
  exact ⟨htypes, hmissed, hlen⟩

end Turns

namespace Quotes

open Unused

def everything : ParsedQuery schema where
  predicate := .always

theorem everything_plain : everything.Plain := ⟨rfl, rfl⟩

def after (ws : List Write) : Topic schema :=
  ws.foldl (fun t w => (w.perform config t).topic) (.new schema)

theorem served_alone_second :
    let engine := subscribeInner config (.new _)
      (subscribeInner config (.new _) .empty "a" everything {}) "b" everything {}
    let sent := (trace (Live.serve config) { Live.init schema with engine }
      [.upsert 0 true (full "A" 1 2)]).2
    sent.length = 2 ∧ SubscriptionEngine.deltasFor "b" sent = (trace (Watched.turn config)
      (.register config (.new _) "b" everything {}) [.upsert 0 true (full "A" 1 2)]).2 :=
  ⟨by decide +kernel, Watched.served_alone rfl (by rw [lookup_subscribeInner, if_pos rfl]) _⟩

theorem activeSet_eq_members_watched : ∃ s, Run (Watched.step config) (SoundFull config)
        (Watched.register config (after [.upsert 0 true (full "A" 1 2)]) "s" everything {})
        [.upsert 1 true (full "B" 1 2), .delete true "A", .upsert 2 true (full "C" 1 2)] s ∧
      s.sub.activeSet = {0, 1} ∧
      ∀ r, r ∈ s.sub.activeSet ↔ Member everything s.topic.state r := by
  refine Run.exists_of_check (fun s => s.sub.activeSet = {0, 1})
    (by decide +kernel) fun s hrun hset => ?_
  exact ⟨hset, (activeSet_eq_members everything_plain rfl (by decide +kernel) hrun).1⟩

/-- The slot of a deleted record is in the set of a new subscription, and the record that
takes the slot next is announced as an update. -/
theorem dead_slot_is_active :
    let s := Watched.register config
      (after [.upsert 0 true (full "A" 1 2), .delete true "A"]) "s" everything {}
    0 ∈ s.sub.activeSet ∧ ¬ Member everything s.topic.state 0 ∧
      SoundFull config s (.upsert 1 true (full "B" 1 2)) ∧
      (s.turn config (.upsert 1 true (full "B" 1 2))).2.map Delta.deltaType = [.update] := by
  refine ⟨by decide +kernel, by decide +kernel, ⟨rfl, by decide +kernel⟩, by decide +kernel⟩

end Quotes

end CqServer
