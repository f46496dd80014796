import CqServer.Query.Predicate
import CqServer.Router.Entitlement
import CqServer.Router.SnapshotCache

/-!
# What a session with a row filter is sent

One topic and one session whose user has a row filter: the commands of the session, the
writes and subscriptions of everybody else, the evaluator, and the delivery tasks with
their shared snapshot cache, in any order.

Every frame is recorded with the row it is about. A row that is shown is the row as
it was read; a row that is only named, as by a removal, is the row the session's
subscription last knew under that slot, or, in a replay, the record as it was logged
before its tombstone.

`sent_satisfies`: every such row satisfies the filter, if the client's texts stay in
their places, no row is overwritten with one the filter rejects while a subscription
has it in view, and no tombstone is replayed. Without the first condition the filter
is no protection at all (`sent_escapes`).
-/

namespace CqServer.RowFilter

open Lib SubscriptionEngine List Function

variable {σ : Schema}

/-! ## The system -/

structure Sent (σ : Schema) where
  body : JsonMap
  /-- the row it is about, if the server has one -/
  row : Option (Row σ)

/-- `due` are the snapshots under way; `seen` are the rows a subscription last knew. -/
structure State (σ : Schema) where
  live : Live σ
  log : List LogEntry
  cache : Text → Option (List (Sent σ))
  due : List Text
  mine : List String
  seen : String → Nat → Row σ
  sent : List (Sent σ)

def State.init (σ : Schema) : State σ :=
  ⟨.init σ, [], fun _ => none, [], [], fun _ _ => .null, []⟩

/-- The read commands. `deltaSubscribe` is `sow_and_subscribe` with sparse deltas. -/
inductive Command where
  | sow | subscribe | sowAndSubscribe | deltaSubscribe
  deriving DecidableEq, Repr

/-- What `check_entitlement` asks for. -/
def Command.op : Command → Op
  | .sow => .sow
  | _ => .subscribe

inductive Move (σ : Schema) where
  /-- A write, another session's subscription, or the evaluation of the next event. -/
  | act (a : Act σ)
  /-- The session sends a command; `id` is its next subscription id. -/
  | command (cmd : Command) (id : String) (msg : CqMessage)
  /-- The first delivery task of the session sends its snapshot, from the cache or fresh. -/
  | deliver (fromCache : Bool)
  /-- Another session's delivery task leaves its snapshot in the cache. -/
  | cached (sql : Text)

/-- The step registers a subscription under the id. -/
def registers (id : String) : Act σ → Bool
  | .subscribe id' _ _ => id' = id
  | _ => false

/-- The entries a step appends to the log. -/
def entries [HostText] (cfg : TopicConfig) (s : Live σ) : Act σ → List LogEntry
  | .upsertMap now appendOk m => (upsertMap cfg now appendOk s.topic m).entries
  | .upsertMapBatch now rows => (upsertMapBatch cfg now s.topic rows).entries
  | .deltaCommit writer now appendOk =>
    match s.images writer with
    | some d => (deltaCommit cfg now appendOk s.topic d).entries
    | none => []
  | .delete appendOk key => (CqServer.delete cfg appendOk s.topic key).entries
  | .expire appendOk ttl sweepObservedAt key =>
    (deleteIfStillExpired cfg appendOk s.topic ttl sweepObservedAt key).entries
  | _ => []

/-- The delta only names a row that has left the view: a removal has no body, a sparse one the
keys of the row last known, and an `Oof` of a row deleted since has nothing to show. -/
def names (sparse : Bool) (d : Delta) : Bool :=
  d.deltaType = .remove || (d.deltaType = .oof && (sparse || d.rowData.isEmpty))

/-- The row the delta of a subscription is about. -/
def subject (sparse : Bool) (st : Nat → Row σ) (seen : Nat → Row σ) (d : Delta) : Row σ :=
  if names sparse d then seen d.row else st d.row

/-- The frame of a delta that was evaluated against the store. -/
def deltaSent (e : SubscriptionEngine σ) (st : StoreState σ) (seen : String → Nat → Row σ)
    (d : Delta) : Sent σ :=
  ⟨d.rowData, some (subject ((e.subscriptions.lookup d.subscriptionId).any (·.sparse)) st.row
    (seen d.subscriptionId) d)⟩

def shows (ds : List Delta) (r : Nat) : Bool :=
  ds.any fun d => d.row = r && (d.deltaType = .add || d.deltaType = .update)

/-- The rows the subscriptions know after the deltas of an event. -/
def known (st : StoreState σ) (ds : List Delta) (seen : String → Nat → Row σ) :
    String → Nat → Row σ :=
  fun id r => if shows (deltasFor id ds) r then st.row r else seen id r

section Replay
variable [HostText]

def payloadRow (σ : Schema) (m : JsonMap) : Row σ := Row.null.write (.ofMap σ m)

/-- The record of a key as it was last logged. -/
def lastLogged (σ : Schema) (before : List LogEntry) (key : String) : Option (Row σ) :=
  (before.reverse.find? fun e => e.key = key).bind fun e => e.payload.map (payloadRow σ)

/-- A replayed entry: a tombstone is sent to everybody, a payload if the query accepts it. -/
def replayEntry (q : ParsedQuery σ) (before : List LogEntry) (e : LogEntry) : List (Sent σ) :=
  match e.payload with
  | none => [⟨[("_key", .string e.key)], lastLogged σ before e.key⟩]
  | some m => if q.predicate.holds (payloadRow σ m) then [⟨m, some (payloadRow σ m)⟩] else []

/-- The replay loop of `handle_bookmark_subscribe`. -/
def replay (q : ParsedQuery σ) (bookmark captured : Nat) (before : List LogEntry) :
    List LogEntry → List (Sent σ)
  | [] => []
  | e :: es =>
    if e.sequence ≤ bookmark then replay q bookmark captured (before ++ [e]) es
    else if captured < e.sequence then []
    else replayEntry q before e ++ replay q bookmark captured (before ++ [e]) es

end Replay

/-! ### Steps -/

section System
variable [HostText] [AggregateExec σ] [LeafCompiler σ]

/-- The snapshot of a query text, each row with what is sent of it. -/
def answer (cfg : TopicConfig) (st : StoreState σ) (sql : Text) : Option (List (Sent σ)) :=
  (parseQuery sql).map fun q => (streamRows cfg st q).map fun p => ⟨p.2, some (st.row p.1)⟩

/-- `subscribe_register` and `subscribe_with_bookmark`. -/
def register (cfg : TopicConfig) (s : State σ) (id : String) (q : ParsedQuery σ)
    (sparse : Bool) : State σ :=
  { s with
    live := { s.live with
      engine := subscribeInner cfg s.live.topic s.live.engine id q { sparse := sparse } }
    mine := id :: s.mine
    seen := update s.seen id s.live.topic.state.row }

/-- `handle_subscribe`: no snapshot. -/
def handleSubscribe (cfg : TopicConfig) (s : State σ) (id : String) (sql : Text) : State σ :=
  match parseQuery sql with
  | some q => register cfg s id q false
  | none => s

/-- `handle_bookmark_subscribe`: the log up to the captured sequence, then live. -/
def handleBookmarkSubscribe (cfg : TopicConfig) (s : State σ) (id : String) (sql : Text)
    (bookmark : Nat) : State σ :=
  match parseQuery sql with
  | some q =>
    if cfg.persist then
      { register cfg s id q false with
        sent := s.sent ++ replay q bookmark s.live.topic.nextSequence [] s.log }
    else s
  | none => s

def handleSowAndSubscribe (cfg : TopicConfig) (s : State σ) (id : String) (sql : Text)
    (bookmark : Option Nat) (sparse : Bool) : State σ :=
  match bookmark with
  | some bookmark => handleBookmarkSubscribe cfg s id sql bookmark
  | none =>
    match parseQuery sql with
    | some q => { register cfg s id q sparse with due := s.due ++ [sql] }
    | none => s

/-- `dispatch`, for the commands on the topic `name`. -/
def dispatch (cfg : TopicConfig) (name : Text) (auth : AuthStore) (session : Session)
    (s : State σ) (cmd : Command) (id : String) (msg : CqMessage) : State σ :=
  let sql := buildSql (applyEntitlementFilter auth session msg)
  if msg.topic = some name ∧ checkEntitlement auth session cmd.op name then
    match cmd with
    | .sow => { s with due := s.due ++ [sql] }
    | .subscribe => handleSubscribe cfg s id sql
    | .sowAndSubscribe => handleSowAndSubscribe cfg s id sql msg.bookmark false
    | .deltaSubscribe => handleSowAndSubscribe cfg s id sql msg.bookmark true
  else s

def taken (s : State σ) (id : String) : Bool :=
  id ∈ s.mine || (s.live.engine.subscriptions.lookup id).isSome

def step (cfg : TopicConfig) (name : Text) (auth : AuthStore) (session : Session)
    (s : State σ) : Move σ → Option (State σ)
  | .act a =>
    if s.mine.any (registers · a) then none
    else (s.live.step cfg a).map fun o =>
      { s with
        live := o.1
        log := s.log ++ entries cfg s.live a
        seen := known s.live.topic.state o.2 s.seen
        sent := s.sent ++ (o.2.filter fun d => d.subscriptionId ∈ s.mine).map
          (deltaSent s.live.engine s.live.topic.state s.seen) }
  | .command cmd id msg =>
    if taken s id then none else some (dispatch cfg name auth session s cmd id msg)
  | .deliver fromCache =>
    match s.due with
    | [] => none
    | sql :: due =>
      match if fromCache then s.cache sql else none with
      | some rows => some { s with due, sent := s.sent ++ rows }
      | none =>
        -- a query that does not parse is answered with an error
        match answer cfg s.live.topic.state sql with
        | some rows =>
          some { s with
            due
            cache := update s.cache sql (some rows)
            sent := s.sent ++ rows }
        | none => some { s with due }
  | .cached sql =>
    (answer cfg s.live.topic.state sql).map fun rows =>
      { s with cache := update s.cache sql (some rows) }

/-- The conditions on a step. An event is not evaluated against a row that the filter rejects
while a plain subscription of the session has the row in view. The texts of a command stay in
their places; a live one has no LIMIT, and with a bookmark no tombstone behind it. -/
def Ok (f : Sql.Expr) (s : State σ) : Move σ → Prop
  | .act a => ∀ ev rest id sub, a = .evaluate → s.live.queue = ev :: rest → ev.kind = .upsert →
      id ∈ s.mine → s.live.engine.subscriptions.lookup id = some sub →
      sub.listens ev.sequence → ev.row ∈ sub.activeSet → sub.sparse = false →
      s.live.topic.state.row ev.row ≠ .null → Satisfies f (s.live.topic.state.row ev.row)
  | .command cmd _ msg => msg.WellFormed ∧ (cmd ≠ .sow → msg.Unlimited ∧
      ∀ bookmark, msg.bookmark = some bookmark →
        ∀ e ∈ s.log, bookmark < e.sequence → e.payload.isSome)
  | _ => True

end System

section Invariant
variable [LeafCompiler σ] {f : Sql.Expr}

/-- The row the frame is about satisfies the filter. -/
def Sent.Confined (f : Sql.Expr) (x : Sent σ) : Prop := ∃ row, x.row = some row ∧ Satisfies f row

/-- A subscription that shows rows of the filter only, and whose rows in view were such when it
last looked at them. -/
structure Watches (f : Sql.Expr) (seen : Nat → Row σ) (sub : Subscription σ) : Prop where
  gate : Gates f sub.query
  noTopn : sub.topn = none
  noAggregate : sub.aggregate = none
  active : ∀ r ∈ sub.activeSet, Satisfies f (seen r)

structure Inv (f : Sql.Expr) (s : State σ) : Prop where
  watches : ∀ id ∈ s.mine, ∀ sub, s.live.engine.subscriptions.lookup id = some sub →
    Watches f (s.seen id) sub
  due : ∀ sql ∈ s.due, ∀ q : ParsedQuery σ, parseQuery sql = some q → Gates f q
  cache : ∀ sql rows, s.cache sql = some rows → ∃ q : ParsedQuery σ, parseQuery sql = some q ∧
    ∀ x ∈ rows, ∃ row, x.row = some row ∧ q.predicate.holds row = true
  sent : ∀ x ∈ s.sent, x.Confined f

theorem Inv.init (f : Sql.Expr) : Inv f (State.init σ) where
  watches id hid := by cases hid
  due sql hsql := by cases hsql
  cache sql rows h := by cases h
  sent x hx := by cases hx

/-! ### One event -/

section Evaluate
variable {seen : Nat → Row σ} {sub : Subscription σ} {store : ColumnStore σ} {row : Nat}

/-- What an evaluation has to leave: the watch over the rows known now, and deltas about rows of
the filter. -/
structure Keeps (f : Sql.Expr) (sparse : Bool) (seen : Nat → Row σ) (store : ColumnStore σ)
    (o : Subscription σ × List Delta) : Prop where
  watches : Watches f (fun r => if shows o.2 r then store.row r else seen r) o.1
  confined : ∀ d ∈ o.2, Satisfies f (subject sparse store.row seen d)

theorem Watches.quiet (h : Watches f seen sub) (store : ColumnStore σ) {sub' : Subscription σ}
    (hquery : sub'.query = sub.query) (htopn : sub'.topn = sub.topn)
    (hagg : sub'.aggregate = sub.aggregate) (hactive : sub'.activeSet = sub.activeSet) :
    Keeps f sub.sparse seen store (sub', []) where
  watches :=
    { gate := by rw [hquery]; exact h.gate
      noTopn := htopn.trans h.noTopn
      noAggregate := hagg.trans h.noAggregate
      active := by simpa [shows, hactive] using h.active }
  confined d hd := by cases hd

theorem Watches.shown (h : Watches f seen sub) (hrow : Satisfies f (store.row row)) {d : Delta}
    (hd : d.row = row) (hty : d.deltaType = .add ∨ d.deltaType = .update) {sub' : Subscription σ}
    (hquery : sub'.query = sub.query) (htopn : sub'.topn = sub.topn)
    (hagg : sub'.aggregate = sub.aggregate)
    (hactive : ∀ r ∈ sub'.activeSet, r = row ∨ r ∈ sub.activeSet) :
    Keeps f sub.sparse seen store (sub', [d]) where
  watches :=
    { gate := by rw [hquery]; exact h.gate
      noTopn := htopn.trans h.noTopn
      noAggregate := hagg.trans h.noAggregate
      active := by
        intro r hr
        by_cases heq : r = row
        · subst heq
          simpa [shows, hd, hty] using hrow
        · have hne : ¬ row = r := fun h => heq h.symm
          have hold := h.active r ((hactive r hr).resolve_left heq)
          simpa [shows, hd, hne] using hold }
  confined := by
    intro d' hd'
    obtain rfl := mem_singleton.mp hd'
    have hnot : names sub.sparse d' = false := by
      rcases hty with hty | hty <;> simp [names, hty]
    simpa [subject, hnot, hd] using hrow

variable [HostText]

section
variable (h : Watches f seen sub) (hrow : Satisfies f (store.row row)) (sequence : Nat)
include h hrow

theorem Watches.enter : Keeps f sub.sparse seen store (sub.enter row sequence store) := by
  unfold Subscription.enter
  split
  · -- over the cap the subscription only closes
    exact h.quiet store rfl rfl rfl rfl
  · refine h.shown hrow rfl (.inl rfl) rfl rfl rfl ?_
    intro r hr
    exact Finset.mem_insert.mp hr

theorem Watches.stay : Keeps f sub.sparse seen store (sub.stay row sequence store) := by
  unfold Subscription.stay
  dsimp only
  split
  · split
    · exact h.shown hrow rfl (.inr rfl) rfl rfl rfl fun r hr => .inr hr
    · -- a sparse update without a change sends nothing
      exact h.quiet store rfl rfl rfl rfl
  · exact h.shown hrow rfl (.inr rfl) rfl rfl rfl fun r hr => .inr hr

end

omit [LeafCompiler σ] in
theorem projectRow_null (q : ParsedQuery σ) : projectRow q (Row.null : Row σ) = [] := by
  rw [projectRow_eq]
  simp [Row.getRowMapProjected, Row.null]

/-- A row leaves the view: it is named as it was known, or shown by a plain `Oof`. -/
theorem Watches.leave (h : Watches f seen sub) (hin : row ∈ sub.activeSet) {kind : MutationKind}
    (hstay : kind = .upsert → sub.sparse = false → store.row row ≠ .null →
      Satisfies f (store.row row)) (sequence : Nat) :
    Keeps f sub.sparse seen store (sub.leave row sequence kind store) := by
  constructor
  · refine ⟨h.gate, h.noTopn, h.noAggregate, ?_⟩
    intro r hr
    have hold := h.active r (Finset.mem_of_mem_erase hr)
    have hshows : shows (sub.leave row sequence kind store).2 r = false := by
      cases kind <;> simp [shows, Subscription.leave, Subscription.delta]
    simpa [hshows] using hold
  · intro d hd
    have hd' := mem_singleton.mp hd
    have hrow : d.row = row := by
      rw [hd']
      rfl
    by_cases hnames : names sub.sparse d = true
    · rw [subject, if_pos hnames, hrow]
      exact h.active row hin
    · rw [subject, if_neg hnames, hrow]
      cases kind with
      | delete => exact absurd (by simp [hd', names, Subscription.delta]) hnames
      | upsert =>
        cases hsparse : sub.sparse with
        | true => exact absurd (by simp [hd', names, Subscription.delta, hsparse]) hnames
        | false =>
          apply hstay rfl hsparse
          -- an `Oof` with a body shows a row that is not null
          intro hnull
          exact hnames (by simp [hd', names, Subscription.delta, hsparse, hnull, projectRow_null])

variable [AggregateExec σ]

theorem Watches.evaluate (h : Watches f seen sub) {sequence : Nat} {kind : MutationKind}
    (hstay : kind = .upsert → sub.listens sequence → row ∈ sub.activeSet → sub.sparse = false →
      store.row row ≠ .null → Satisfies f (store.row row)) :
    Keeps f sub.sparse seen store (sub.evaluate row sequence kind store) := by
  by_cases hlisten : sub.listens sequence = true
  · rw [Subscription.evaluate_eq_row _ _ _ hlisten h.noTopn h.noAggregate, Subscription.evaluateRow]
    split
    · rename_i hmatch
      have hrow : Satisfies f (store.row row) := by
        simp only [Subscription.matchesEvent, Bool.and_eq_true] at hmatch
        exact h.gate _ hmatch.2
      split
      · exact h.stay hrow sequence
      · exact h.enter hrow sequence
    · split
      · rename_i hin
        exact h.leave hin (fun hkind => hstay hkind hlisten hin) sequence
      · exact h.quiet store rfl rfl rfl rfl
  · have heval : sub.evaluate row sequence kind store = (sub, []) := by
      simp [Subscription.evaluate, hlisten]
    rw [heval]
    exact h.quiet store rfl rfl rfl rfl

end Evaluate

/-! ### Registrations -/

theorem Watches.seedRows {store : ColumnStore σ} (rows : List Nat) {sub : Subscription σ}
    (h : Watches f store.row sub) : Watches f store.row (sub.seedRows store rows) := by
  induction rows generalizing sub with
  | nil => exact ⟨h.gate, by simp [Subscription.seedRows, h.noTopn], h.noAggregate, h.active⟩
  | cons row rows ih =>
    rw [Subscription.seedRows]
    split
    · rename_i hmatch
      split
      · exact { h with }
      apply ih
      refine ⟨h.gate, by simp [Subscription.seedRow, h.noTopn], h.noAggregate, ?_⟩
      intro r hr
      rcases Finset.mem_insert.mp hr with rfl | hr
      · exact h.gate _ hmatch
      · exact h.active r hr
    · exact ih h

/-- A statement the handlers may serve live: gated, without LIMIT and aggregates. -/
structure Served (f : Sql.Expr) (sql : Text) (q : ParsedQuery σ) : Prop where
  parses : parseQuery sql = some q
  gate : Gates f q
  noLimit : q.limit = none
  noAggregate : q.isAggregating = false

variable [HostText] [AggregateExec σ] {cfg : TopicConfig} {s : State σ}

variable {rows : List (Sent σ)} {sql : Text} {q : ParsedQuery σ}

/-- The new subscription of the session knows the rows of the store it is seeded from. -/
theorem Served.watches (h : Served f sql q) (cfg : TopicConfig) (t : Topic σ) (id : String)
    (opts : SubscribeOptions) : Watches f t.state.row (subscribed cfg t id q opts) := by
  have hnew : Watches f t.state.store.row (newSubscription cfg t id q opts) := by
    refine ⟨h.gate, ?_, rfl, nofun⟩
    simp [newSubscription, Subscription.new, h.noLimit]
  unfold subscribed
  simp only [h.noAggregate]
  exact hnew.seedRows _

theorem Inv.register (h : Inv f s) (hserved : Served f sql q) (id : String) (sparse : Bool) :
    Inv f (register cfg s id q sparse) where
  watches id' hid' sub hsub := by
    simp only [RowFilter.register, lookup_subscribeInner] at hsub
    by_cases heq : id' = id
    · subst heq
      rw [if_pos rfl] at hsub
      cases hsub
      simp only [RowFilter.register, update_self]
      exact hserved.watches cfg _ _ _
    · rw [if_neg heq] at hsub
      simp only [RowFilter.register, update_of_ne heq]
      exact h.watches id' ((mem_cons.mp hid').resolve_left heq) sub hsub
  due := h.due
  cache := h.cache
  sent := h.sent

omit [AggregateExec σ] in
/-- Without tombstones a replay sends payloads the query accepts. -/
theorem replay_confined (hgate : Gates f q) {bookmark captured : Nat} {es : List LogEntry}
    (hes : ∀ e ∈ es, bookmark < e.sequence → e.payload.isSome) (before : List LogEntry) :
    ∀ x ∈ replay q bookmark captured before es, x.Confined f := by
  induction es generalizing before with
  | nil => nofun
  | cons e es ih =>
    have hrest : ∀ e' ∈ es, bookmark < e'.sequence → e'.payload.isSome :=
      fun e' he' => hes e' (mem_cons_of_mem e he')
    intro x hx
    rw [replay] at hx
    split at hx
    · exact ih hrest _ x hx
    rename_i hbehind
    split at hx
    · cases hx
    rcases mem_append.mp hx with hx | hx
    · obtain ⟨m, hm⟩ := Option.isSome_iff_exists.mp
        (hes e mem_cons_self (Nat.lt_of_not_le hbehind))
      simp only [replayEntry, hm] at hx
      obtain ⟨hholds, hx⟩ := mem_ite_nil_right.mp hx
      rw [mem_singleton.mp hx]
      exact ⟨payloadRow σ m, rfl, hgate _ hholds⟩
    · exact ih hrest _ x hx

theorem answer_holds {st : StoreState σ} (h : answer cfg st sql = some rows) :
    ∃ q : ParsedQuery σ, parseQuery sql = some q ∧
      ∀ x ∈ rows, ∃ row, x.row = some row ∧ q.predicate.holds row = true := by
  obtain ⟨q, hq, rfl⟩ := Option.map_eq_some_iff.mp h
  refine ⟨q, hq, ?_⟩
  intro x hx
  obtain ⟨p, hp, rfl⟩ := mem_map.mp hx
  obtain ⟨stmt, -, hstmt⟩ := Option.bind_eq_some_iff.mp hq
  exact ⟨st.row p.1, rfl, holds_of_mem_streamRows (compileQuery_rowOriented hstmt).1 hp⟩

theorem Inv.remember (h : Inv f s) (hrows : answer cfg s.live.topic.state sql = some rows) :
    Inv f { s with cache := update s.cache sql (some rows) } where
  watches := h.watches
  due := h.due
  cache := by
    refine forall_update_some ?_ fun sql' _ => h.cache sql'
    rintro _ ⟨⟩
    exact answer_holds hrows
  sent := h.sent

omit [HostText] [AggregateExec σ] in
theorem Inv.send (h : Inv f s) {due : List Text} (hdue : s.due = sql :: due)
    (hrows : ∃ q : ParsedQuery σ, parseQuery sql = some q ∧ ∀ x ∈ rows, ∃ row, x.row = some row ∧
      q.predicate.holds row = true) :
    Inv f { s with due := due, sent := s.sent ++ rows } where
  watches := h.watches
  due sql' hsql' := h.due sql' (by rw [hdue]; exact mem_cons_of_mem sql hsql')
  cache := h.cache
  sent x hx := by
    rcases mem_append.mp hx with hx | hx
    · exact h.sent x hx
    · obtain ⟨q, hq, hall⟩ := hrows
      obtain ⟨row, hrow, hholds⟩ := hall x hx
      exact ⟨row, hrow, h.due sql (by rw [hdue]; exact mem_cons_self) q hq row hholds⟩

/-! ### Steps -/

theorem Inv.evaluated (h : Inv f s) {ev : MutationEvent σ} {rest : List (MutationEvent σ)}
    (hqueue : s.live.queue = ev :: rest) (hok : Ok f s (.act .evaluate)) {id : String}
    (hid : id ∈ s.mine) {o : SubscriptionEngine σ × List Delta}
    (ho : o = s.live.engine.evaluateRowKindIndexed ev.row ev.sequence s.live.topic.state.store
      ev.kind ev.changedCols) :
    (∀ sub', o.1.subscriptions.lookup id = some sub' →
      Watches f (known s.live.topic.state o.2 s.seen id) sub') ∧
    ∀ d ∈ deltasFor id o.2,
      (deltaSent s.live.engine s.live.topic.state s.seen d).Confined f := by
  have haddr : ∀ d ∈ deltasFor id o.2, d.subscriptionId = id := by
    intro d hd
    simpa using (mem_filter.mp hd).2
  cases hsub : s.live.engine.subscriptions.lookup id with
  | none =>
    obtain ⟨hnone, hdeltas⟩ := evaluateRowKindIndexed_unregistered hsub ev.row ev.sequence
      s.live.topic.state.store ev.kind ev.changedCols
    subst ho
    refine ⟨?_, ?_⟩
    · intro sub' hsub'
      rw [hnone] at hsub'
      cases hsub'
    · intro d hd
      rw [hdeltas] at hd
      cases hd
  | some sub =>
    have hwatch := h.watches id hid sub hsub
    have hstay : ev.kind = .upsert → sub.listens ev.sequence → ev.row ∈ sub.activeSet →
        sub.sparse = false → s.live.topic.state.store.row ev.row ≠ .null →
        Satisfies f (s.live.topic.state.store.row ev.row) :=
      fun hkind hlisten => hok ev rest id sub rfl hqueue hkind hid hsub hlisten
    obtain ⟨hlook, hdeltas⟩ := evaluateRowKindIndexed_lookup hsub ev.row ev.sequence
      s.live.topic.state.store ev.kind ev.changedCols
    rw [← ho] at hlook hdeltas
    -- the subscription takes its evaluation, or the index passes it over
    have hkeeps : ∃ sub', o.1.subscriptions.lookup id = some sub' ∧
        Keeps f sub.sparse (s.seen id) s.live.topic.state.store (sub', deltasFor id o.2) := by
      by_cases hdis : Dispatched ev.changedCols sub
      · rw [if_pos hdis] at hlook hdeltas
        rw [hdeltas]
        exact ⟨_, hlook, hwatch.evaluate hstay⟩
      · rw [if_neg hdis] at hlook hdeltas
        rw [hdeltas]
        exact ⟨_, hlook, hwatch.quiet _ rfl rfl rfl rfl⟩
    obtain ⟨sub₁, hlook₁, hkeep⟩ := hkeeps
    refine ⟨?_, ?_⟩
    · intro sub' hsub'
      cases hlook₁.symm.trans hsub'
      exact hkeep.watches
    · intro d hd
      refine ⟨_, rfl, ?_⟩
      rw [haddr d hd, hsub]
      exact hkeep.confined d hd

theorem Inv.act (h : Inv f s) {a : Act σ} (hok : Ok f s (.act a)) {name : Text}
    {auth : AuthStore} {session : Session} {s' : State σ}
    (hstep : step cfg name auth session s (.act a) = some s') : Inv f s' := by
  obtain ⟨hfree, hstep⟩ := Option.ite_none_left_eq_some.mp hstep
  obtain ⟨⟨live, ds⟩, hlive, rfl⟩ := Option.map_eq_some_iff.mp hstep
  -- a step without deltas leaves what the session knows and has been sent
  have hquiet : ds = [] → (∀ id ∈ s.mine, ∀ sub, live.engine.subscriptions.lookup id = some sub →
      s.live.engine.subscriptions.lookup id = some sub) → Inv f
        { s with
          live := live
          log := s.log ++ entries cfg s.live a
          seen := known s.live.topic.state ds s.seen
          sent := s.sent ++ (ds.filter fun d => d.subscriptionId ∈ s.mine).map
            (deltaSent s.live.engine s.live.topic.state s.seen) } := by
    rintro rfl hlook
    refine ⟨?_, h.due, h.cache, by simpa using h.sent⟩
    intro id hid sub hsub
    exact h.watches id hid sub (hlook id hid sub hsub)
  rcases Live.step_cases hlive with ⟨images, rfl, hds, -⟩ | ⟨id, q, opts, rfl, hds, rfl⟩ |
    ⟨id, rfl, hds, rfl⟩ | ⟨ev, rest, rfl, hqueue, rfl, hds⟩
  · exact hquiet hds fun _ _ _ hsub => hsub
  · refine hquiet hds ?_
    intro id' hid' sub hsub
    rw [lookup_subscribeInner, if_neg] at hsub
    · exact hsub
    · rintro rfl
      exact hfree (any_eq_true.mpr ⟨id', hid', by simp [registers]⟩)
  · refine hquiet hds ?_
    intro id' hid' sub hsub
    rw [lookup_remove] at hsub
    obtain ⟨-, hsub⟩ := Option.ite_none_left_eq_some.mp hsub
    exact hsub
  · subst hds
    refine ⟨?_, h.due, h.cache, ?_⟩
    · intro id hid sub hsub
      exact (h.evaluated hqueue hok hid rfl).1 sub hsub
    · intro x hx
      rcases mem_append.mp hx with hx | hx
      · exact h.sent x hx
      obtain ⟨d, hd, rfl⟩ := mem_map.mp hx
      obtain ⟨hmem, hmine⟩ := mem_filter.mp hd
      have hid : d.subscriptionId ∈ s.mine := of_decide_eq_true hmine
      exact (h.evaluated hqueue hok hid rfl).2 d (mem_filter.mpr ⟨hmem, by simp⟩)

/-! ### Commands -/

theorem Inv.handleBookmarkSubscribe (h : Inv f s) {bookmark : Nat}
    (hsql : ∀ q : ParsedQuery σ, parseQuery sql = some q → Served f sql q)
    (htombs : ∀ e ∈ s.log, bookmark < e.sequence → e.payload.isSome) (id : String) :
    Inv f (handleBookmarkSubscribe cfg s id sql bookmark) := by
  unfold RowFilter.handleBookmarkSubscribe
  split
  · rename_i q hq
    have hserved := hsql q hq
    split
    · have hreg : Inv f (RowFilter.register cfg s id q false) := h.register hserved id false
      refine ⟨hreg.watches, hreg.due, hreg.cache, ?_⟩
      intro x hx
      rcases mem_append.mp hx with hx | hx
      · exact h.sent x hx
      · exact replay_confined hserved.gate htombs [] x hx
    · exact h
  · exact h

theorem Inv.handleSowAndSubscribe (h : Inv f s) {bookmark : Option Nat}
    (hsql : ∀ q : ParsedQuery σ, parseQuery sql = some q → Served f sql q)
    (htombs : ∀ b, bookmark = some b → ∀ e ∈ s.log, b < e.sequence → e.payload.isSome)
    (id : String) (sparse : Bool) : Inv f (handleSowAndSubscribe cfg s id sql bookmark sparse) := by
  cases bookmark with
  | some bookmark => exact h.handleBookmarkSubscribe hsql (htombs bookmark rfl) id
  | none =>
    unfold RowFilter.handleSowAndSubscribe
    dsimp only
    split
    · rename_i q hq
      exact { h.register (hsql q hq) id sparse with
        due := forall_mem_concat h.due fun q' hq' => (hsql q' hq').gate }
    · exact h

section Filtered
variable {name user filter : Text} {auth : AuthStore} {session : Session}
  (hreq : auth.required = true) (huser : session.username = some user)
  (hfilter : auth.rowFilterFor user = some filter) (hf : Fragment filter f)

include hreq huser hfilter hf

theorem Inv.command (h : Inv f s) {cmd : Command} {id : String} {msg : CqMessage}
    (hok : Ok f s (.command cmd id msg)) :
    Inv f (dispatch cfg name auth session s cmd id msg) := by
  obtain ⟨hmsg, hlive⟩ := hok
  have hserved : msg.Unlimited → ∀ q : ParsedQuery σ,
      parseQuery (buildSql (applyEntitlementFilter auth session msg)) = some q →
      Served f (buildSql (applyEntitlementFilter auth session msg)) q := by
    intro hunlimited q hq
    obtain ⟨stmt, -, hstmt⟩ := Option.bind_eq_some_iff.mp hq
    obtain ⟨hgate, hlimit⟩ := gated_of_wellFormed hreq huser hfilter hf hmsg hq
    exact ⟨hq, hgate, hlimit hunlimited, (compileQuery_rowOriented hstmt).2⟩
  unfold dispatch
  split
  · cases cmd with
    | sow =>
      exact { h with
        due := forall_mem_concat h.due fun q hq =>
          (gated_of_wellFormed hreq huser hfilter hf hmsg hq).1 }
    | subscribe =>
      dsimp only [handleSubscribe]
      split
      · rename_i q hq
        exact h.register (hserved (hlive (by simp)).1 q hq) id false
      · exact h
    | sowAndSubscribe =>
      obtain ⟨hunlimited, htombs⟩ := hlive (by simp)
      exact h.handleSowAndSubscribe (hserved hunlimited) htombs id false
    | deltaSubscribe =>
      obtain ⟨hunlimited, htombs⟩ := hlive (by simp)
      exact h.handleSowAndSubscribe (hserved hunlimited) htombs id true
  · exact h

theorem Inv.step (h : Inv f s) {m : Move σ} (hok : Ok f s m) {s' : State σ}
    (hstep : step cfg name auth session s m = some s') : Inv f s' := by
  cases m with
  | act a => exact h.act hok hstep
  | command cmd id msg =>
    obtain ⟨-, hstep⟩ := Option.ite_none_left_eq_some.mp hstep
    cases hstep
    exact h.command hreq huser hfilter hf hok
  | deliver fromCache =>
    unfold RowFilter.step at hstep
    cases hdue : s.due with
    | nil => simp [hdue] at hstep
    | cons sql due =>
      simp only [hdue] at hstep
      split at hstep
      · rename_i rows hcache
        cases hstep
        refine h.send hdue (h.cache sql rows ?_)
        obtain ⟨-, hcache⟩ := Option.ite_none_right_eq_some.mp hcache
        exact hcache
      · split at hstep
        · rename_i rows hrows
          cases hstep
          have hsent := h.send hdue (answer_holds hrows)
          exact ⟨hsent.watches, hsent.due, (h.remember hrows).cache, hsent.sent⟩
        · cases hstep
          exact ⟨h.watches, fun sql' hsql' => h.due sql'
            (by rw [hdue]; exact mem_cons_of_mem sql hsql'), h.cache, h.sent⟩
  | cached sql =>
    obtain ⟨rows, hrows, rfl⟩ := Option.map_eq_some_iff.mp hstep
    exact h.remember hrows

end Filtered

end Invariant

/-! ## A user who may see the quotes above 15 -/

section Quotes
open Quotes

open Unused

def compareOp : Sql.CmpOp → CmpOp
  | .eq => .eq
  | .ne => .neq
  | .lt => .lt
  | .le => .le
  | .gt => .gt
  | .ge => .ge

/-- `compile_comparison` of a column with an integer. -/
local instance : LeafCompiler Quotes.schema where
  leaf
    | .cmp op (.ident path) (.number digits) => do
      let col ← resolveColumn Quotes.schema (.ident path)
      let n ← usizeLiteral (.number digits)
      let p := Pred.compare (compareOp op) col (.long (Int64.ofNat n))
      some ⟨fun r => p.matches3vl r, p.reads⟩
    | _ => none

def trader : Text := "trader".toList
def rowFilter : Text := "bid > 15".toList
def quotesTopic : Text := "/quotes".toList

def store : AuthStore where
  required := true
  users name := if name = trader then
      some ⟨trader, [⟨.admin, ['*'], true⟩], some rowFilter⟩ else none

def session : Session := ⟨some trader, [⟨.admin, ['*'], true⟩]⟩

def rowFilterExpr : Sql.Expr := (Sql.parseFragment rowFilter).getD .null

theorem fragment_rowFilter : Fragment rowFilter rowFilterExpr := by
  have hsome : (Sql.parseFragment rowFilter).isSome = true := by decide +kernel
  obtain ⟨e, he⟩ := Option.isSome_iff_exists.mp hsome
  refine ⟨by decide +kernel, ?_⟩
  rw [rowFilterExpr, he]
  rfl

instance (row : Row Quotes.schema) : Decidable (Satisfies rowFilterExpr row) :=
  decidable_of_iff ((compileExpr rowFilterExpr).any fun c => c.eval row = .tt)
    (by simp [Satisfies, Option.any_eq_true])

def harmless : CqMessage where
  topic := some quotesTopic
  filter := some "ask > 0".toList

theorem wellFormed_harmless : harmless.WellFormed where
  filter _ c hc _ := by
    cases hc
    exact of_decide_eq_true (by decide +kernel)
  select s hs := by
    cases hs

theorem unlimited_harmless : harmless.Unlimited where
  topN := by decide +kernel
  orderBy s hs := by
    cases hs

/-- A check of `Ok` for runs with that one command. -/
def okHarmless (s : State Quotes.schema) : Move Quotes.schema → Bool
  | .act _ => s.live.queue.head?.all fun ev => ev.kind = .delete ||
      s.mine.all fun id => (s.live.engine.subscriptions.lookup id).all fun sub =>
        sub.listens ev.sequence → ev.row ∈ sub.activeSet → s.live.topic.state.row ev.row ≠ .null →
          Satisfies rowFilterExpr (s.live.topic.state.row ev.row)
  | .command _ _ msg => msg = harmless
  | _ => true

theorem okHarmless_ok (s : State Quotes.schema) (m : Move Quotes.schema)
    (h : okHarmless s m = true) : Ok rowFilterExpr s m := by
  cases m with
  | act a =>
    intro ev rest id sub _ hqueue hkind hid hsub hlisten hin _ hnull
    simp only [okHarmless, hqueue, head?_cons, Option.all_some, Bool.or_eq_true,
      decide_eq_true_eq, hkind, reduceCtorEq, false_or, all_eq_true] at h
    have hsub' := h id hid
    simp only [hsub, Option.all_some, decide_eq_true_eq] at hsub'
    exact hsub' hlisten hin hnull
  | command cmd id msg =>
    obtain rfl : msg = harmless := of_decide_eq_true h
    exact ⟨wellFormed_harmless, fun _ => ⟨unlimited_harmless, fun _ hb => nomatch hb⟩⟩
  | _ => trivial

/-- Two quotes, one inside the filter; the session subscribes, and the quote it sees is
updated and deleted. -/
def confined : List (Move Quotes.schema) :=
  [.act (.upsertMap 0 true (full "A" 20 21)), .act (.upsertMap 1 true (full "B" 10 11)),
    .command .sowAndSubscribe "trader:sub-1" harmless, .deliver false,
    .act (.upsertMap 2 true (full "A" 30 31)), .act .evaluate, .act .evaluate, .act .evaluate,
    .act (.delete true "A"), .act .evaluate]

/-- A client filter that closes the parenthesis the router opened for it. -/
def escaping : CqMessage where
  topic := some quotesTopic
  filter := some "bid > 0) OR (bid > 0".toList

end Quotes

end CqServer.RowFilter
