import CqServer.Router.SnapshotCache
import CqServer.Topic.Convergence
import CqServer.Topic.Checkpoint

/-!
# Reading from a standby

A standby applies replicated entries and answers its own clients meanwhile. The
apply path (`write_store_replay`) commits to the store and does nothing else: it
emits no event for the subscriptions, and it does not drop the snapshots that
the router keeps to answer a repeated `Sow`. So a reader is up to date only as
long as the entries applied while it is subscribed, or while a snapshot is
kept, do not concern its query (`Ok`); otherwise the subscriber and the next
`Sow` keep the rows from before the entry (`standby_readers_stale`).
-/

namespace CqServer.Follower

open Lib StoreState List Function

variable {σ : Schema}

/-! ## Entries a query does not see -/

section Quiet
variable [HostText] {cfg : TopicConfig} {q : ParsedQuery σ} {st : StoreState σ}

theorem expected_eq_none {r : Nat}
    (h : st.table.Live r → q.predicate.holds (st.row r) = false) : expected cfg q st r = none := by
  unfold expected
  rw [if_neg]
  intro hr
  rw [h hr.1] at hr
  cases hr.2

/-- The record's row before the write and the row `v` makes of it both fail the
predicate. -/
def Unseen (q : ParsedQuery σ) (st : StoreState σ) (k : String) (v : Values σ) : Prop :=
  (∀ row ∈ st.contents k, q.predicate.holds row = false) ∧
    q.predicate.holds (upsertRow (st.contents k) v) = false

theorem expected_commit {v : Values σ} {k : String}
    (hk : computeKeyWith v.vals (cfg.keyColIndices σ) = some k) (h : Unseen q st k v) (now : Nat) :
    expected cfg q (st.commitValuesLocked (cfg.keyColIndices σ) now v).1 = expected cfg q st := by
  obtain ⟨hold, hnew⟩ := h
  funext r
  by_cases hr : r = (st.commitValuesLocked (cfg.keyColIndices σ) now v).2
  · -- the slot of the record: not shown before, not shown after
    rw [expected_eq_none fun _ => by rw [hr, commitValuesLocked_row_self hk, hnew]]
    refine (expected_eq_none ?_).symm
    intro hlive
    rcases commitValuesLocked_cases (cfg.keyColIndices σ) now st v with
      ⟨k₁, s, hk₁, hs, -, hrow⟩ | ⟨k₁, -, -, -, hrow⟩ | ⟨hnone, -⟩
    · cases hk₁.symm.trans hk
      rw [hr, hrow]
      exact hold _ (SlotTable.view_of_lookup hs)
    · rw [hr, hrow] at hlive
      exact absurd hlive st.table.nextSlot_not_live
    · rw [hk] at hnone
      cases hnone
  · exact expected_congr (commitValuesLocked_row_ne _ now st v hr)
      (commitValuesLocked_live_ne _ now st v hr)

/-- The entry concerns a record that the query does not show, neither before the
entry is applied nor after. -/
def Quiet (cfg : TopicConfig) (decode : Decode) (q : ParsedQuery σ)
    (st : StoreState σ) (e : LogEntry) : Prop :=
  match e.payload with
  | none => ∀ row, st.contents e.key = some row → q.predicate.holds row = false
  | some payload =>
    match decode payload, e.format with
    | none, _ => True
    | some m, .json =>
      let v := Values.ofMap σ (flatView m)
      ∃ k, computeKeyWith v.vals (cfg.keyColIndices σ) = some k ∧ Unseen q st k v
    | some m, .jsonDelta =>
      match deltaKey cfg (flatView m) with
      | none => True
      | some key =>
        let v := Values.merge σ (flatView m) (st.contents key)
        ∃ k, computeKeyWith v.vals (cfg.keyColIndices σ) = some k ∧ Unseen q st k v

theorem expected_replayEntry {decode : Decode} {t : Topic σ} {e : LogEntry}
    (h : Quiet cfg decode q t.state e) (now : Nat) :
    expected cfg q (t.replayEntry cfg decode now e).state = expected cfg q t.state := by
  unfold Quiet at h
  rcases replayEntry_cases cfg decode now t e with
    ⟨hsame, -⟩ | ⟨-, st, heq, ⟨hp, rfl⟩ | ⟨v, hv, rfl⟩⟩
  · rw [hsame]
  · rw [heq, Topic.noteApplied_state]
    rw [hp] at h
    cases hrem : t.state.removeKey e.key with
    | none => rfl
    | some p =>
      funext r
      dsimp only [Option.elim]
      by_cases hr : r = p.2
      · rw [expected_eq_none fun hl => absurd hr ((removeKey_live hrem).mp hl).1]
        refine (expected_eq_none fun _ => ?_).symm
        rw [hr]
        exact h _ (SlotTable.view_of_lookup (removeKey_eq_some.mp hrem).1)
      · exact expected_congr (removeKey_row_ne hrem hr)
          ((removeKey_live hrem).trans (and_iff_right hr))
  · obtain ⟨k, hk, hu⟩ : ∃ k, computeKeyWith v.vals (cfg.keyColIndices σ) = some k ∧
        Unseen q t.state k v := by
      obtain ⟨payload, m, hp, hm, ⟨hf, rfl⟩ | ⟨key, hf, hkey, rfl⟩⟩ := exists_of_entryValues hv
      · simpa [hp, hm, hf] using h
      · simpa [hp, hm, hf, hkey] using h
    rw [heq, Topic.noteApplied_state]
    exact expected_commit hk hu now

end Quiet

/-! ## What a `Sow` streams -/

section Stream
variable [HostText] [AggregateExec σ]

/-- The rows of a snapshot query; those of an aggregate come from no slot. -/
def sowRows (cfg : TopicConfig) (st : StoreState σ) (q : ParsedQuery σ) : Batch :=
  if q.rowOriented then keyedRows cfg st (streamRows cfg st q)
  else (executeQuery q st.store).rows.map fun row => (0, none, row)

def sowBatches (cfg : TopicConfig) (cap : Nat) (st : StoreState σ) (q : ParsedQuery σ) :
    List Batch :=
  batchesFrom cap [] (sowRows cfg st q)

omit [AggregateExec σ] in
theorem filterMap_range_expected (cfg : TopicConfig) (q : ParsedQuery σ) (st : StoreState σ)
    {n : Nat} (hn : st.store.rowCount ≤ n) {β : Type} (f : Nat → Option String × JsonMap → β) :
    (range n).filterMap (fun r => (expected cfg q st r).map (f r)) =
      (range st.store.rowCount).filterMap fun r => (expected cfg q st r).map (f r) := by
  induction n, hn using Nat.le_induction with
  | base => rfl
  | succ n hn ih =>
    have hnone : expected cfg q st n = none := by
      refine expected_eq_none ?_
      intro hlive
      obtain ⟨k, hk⟩ := hlive
      exact absurd (st.table.slot_lt hk) (Nat.not_lt.mpr hn)
    rw [range_succ, filterMap_append, ih]
    simp [hnone]

variable {cfg : TopicConfig} (hkeys : cfg.keyFields ≠ []) {q : ParsedQuery σ}
  (hq : q.needsFullBuffer = false)
include hkeys hq

theorem sowRows_direct (st : StoreState σ) :
    sowRows cfg st q = (range st.store.rowCount).filterMap fun r =>
      (expected cfg q st r).map fun p => (r, p) := by
  have hrow : q.rowOriented = true := by
    simp only [ParsedQuery.needsFullBuffer, Bool.or_eq_false_iff] at hq
    simp [ParsedQuery.rowOriented, hq]
  unfold sowRows streamRows keyedRows matchingRows
  rw [if_pos hrow, if_neg (by simp [hq]), map_map, filter_filter, ← filterMap_eq_map,
    filterMap_filter]
  refine filterMap_congr ?_
  intro r _
  have hstore : st.store.row r = st.row r := rfl
  by_cases hlive : st.table.Live r <;>
    simp [expected, hkeys, hstore]

theorem sowBatches_congr {st st' : StoreState σ}
    (h : expected cfg q st' = expected cfg q st) (cap : Nat) :
    sowBatches cfg cap st' q = sowBatches cfg cap st q := by
  have hmax := fun st₁ (h₁ : st₁.store.rowCount ≤ max st.store.rowCount st'.store.rowCount) =>
    filterMap_range_expected cfg q st₁ h₁ fun r p => (r, p)
  rw [sowBatches, sowBatches, sowRows_direct hkeys hq, sowRows_direct hkeys hq,
    ← hmax st (le_max_left ..), ← hmax st' (le_max_right ..), h]

end Stream

/-! ## The standby -/

structure Client where
  sql : String
  frames : List Frame

/-- A `Sow` in flight: its delivery task, the rows sent so far, and the stores
there have been since it was issued. -/
structure Request (σ : Schema) where
  sql : String
  phase : Phase
  sent : Batch
  since : List (StoreState σ)

structure State (σ : Schema) where
  live : Live σ
  clients : String → Option Client
  cache : String → Option CacheState
  requests : Nat → Option (Request σ)

/-- A standby that has recovered its topic, before the first request. -/
def State.start (t : Topic σ) : State σ :=
  ⟨⟨t, [], .empty, fun _ => none⟩, fun _ => none, fun _ => none, fun _ => none⟩

inductive Move (σ : Schema) where
  | apply (now : Nat) (e : LogEntry)
  | subscribe (id sql : String)
  | unsubscribe (id : String)
  | evaluate
  | sow (i : Nat) (sql : String)
  | task (i : Nat) (stage : Stage)
  /-- A kept snapshot reaches its TTL or is evicted. -/
  | expire (sql : String)

/-- The requests for a query whose build has ended are woken. -/
def Request.woken (wake : Bool) (sql : String) (req : Request σ) : Request σ :=
  if wake && req.sql = sql then { req with phase := req.phase.notify } else req

/-- What a delivery task takes from the cache or builds is the snapshot of now. -/
theorem taskStep_fresh {snapshot : List Batch} {cache cache' : Option CacheState} {ph ph' : Phase}
    {stage : Stage} (h : taskStep snapshot cache ph stage = some (cache', ph'))
    (hcache : ∀ batches, cache = some (.ready batches) → batches = snapshot)
    (hph : ∀ batches, ph = .built batches → batches = snapshot) :
    (∀ batches, cache' = some (.ready batches) → batches = snapshot) ∧
    (∀ batches, ph' = .built batches → batches = snapshot) ∧
    ((∃ batches, ph = .sending (sentBatch ph stage :: batches) ∧ ph' = .sending batches) ∨
      (∀ batches, ph ≠ .sending batches) ∧ sentBatch ph stage = [] ∧
        ∀ batches, ph' = .sending batches → batches = snapshot) := by
  unfold taskStep at h
  split at h
  · -- lookup
    split at h <;> cases h
    · exact ⟨hcache, nofun, .inr ⟨nofun, rfl, fun b hb => hcache b (Phase.sending.inj hb ▸ rfl)⟩⟩
    · exact ⟨hcache, nofun, .inr ⟨nofun, rfl, nofun⟩⟩
    · exact ⟨nofun, nofun, .inr ⟨nofun, rfl, nofun⟩⟩
  · -- wake
    split at h <;> cases h
    · exact ⟨hcache, nofun, .inr ⟨nofun, rfl, fun b hb => hcache b (Phase.sending.inj hb ▸ rfl)⟩⟩
    · exact ⟨hcache, nofun, .inr ⟨nofun, rfl, nofun⟩⟩
  · -- build
    cases h
    exact ⟨hcache, fun b hb => (Phase.built.inj hb).symm, .inr ⟨nofun, rfl, nofun⟩⟩
  · -- fail
    cases h
    exact ⟨nofun, nofun, .inr ⟨nofun, rfl, nofun⟩⟩
  · -- publish
    rename_i batches
    cases h
    have hb := hph batches rfl
    subst hb
    refine ⟨?_, nofun, .inr ⟨nofun, rfl, fun b hb => (Phase.sending.inj hb).symm⟩⟩
    intro b hb
    exact (CacheState.ready.inj (Option.some.inj hb)).symm
  · -- send
    rename_i batch batches
    cases h
    exact ⟨hcache, nofun, .inl ⟨batches, rfl, rfl⟩⟩
  · cases h

section System
variable [HostText] [AggregateExec σ]

variable (cfg : TopicConfig) (decode : Decode)

/-- One step of the standby; `compile` gives the queries the texts stand for. -/
def step (cap : Nat) (compile : String → ParsedQuery σ) (s : State σ) : Move σ → Option (State σ)
  | .apply now e =>
    let t := s.live.topic.replayEntry cfg decode now e
    some { s with
      live := { s.live with topic := t }
      requests := fun i => (s.requests i).map fun req =>
        { req with since := req.since ++ [t.state] } }
  | .subscribe id sql =>
    let rows := snapshotRows cfg s.live.topic.state (compile sql)
    (s.live.step cfg (.subscribe id (compile sql) {})).map fun o =>
      { s with
        live := o.1
        clients := update s.clients id
          (some ⟨sql, (keyedRows cfg s.live.topic.state rows).map .ofRow⟩) }
  | .unsubscribe id =>
    (s.live.step cfg (.unsubscribe id)).map fun o =>
      { s with live := o.1, clients := update s.clients id none }
  | .evaluate =>
    (s.live.step cfg .evaluate).map fun o =>
      { s with
        live := o.1
        clients := fun id => (s.clients id).map fun c =>
          { c with frames := c.frames ++
              (SubscriptionEngine.deltasFor id o.2).map (deltaFrame cfg s.live.topic.state) } }
  | .sow i sql =>
    match s.requests i with
    | some _ => none
    | none =>
      let req : Request σ := ⟨sql, .looking, [], [s.live.topic.state]⟩
      some { s with requests := update s.requests i (some req) }
  | .task i stage =>
    (s.requests i).bind fun req =>
      (taskStep (sowBatches cfg cap s.live.topic.state (compile req.sql)) (s.cache req.sql)
        req.phase stage).map fun o =>
          { s with
            cache := update s.cache req.sql o.1
            requests := update
              (fun j => (s.requests j).map (.woken (wakes (s.cache req.sql) stage) req.sql)) i
              (some { req with phase := o.2, sent := req.sent ++ sentBatch req.phase stage }) }
  | .expire sql =>
    match s.cache sql with
    | some (.ready _) => some { s with cache := update s.cache sql none }
    | _ => none

/-- A snapshot of the query is kept, or built and about to be. -/
def Retained (s : State σ) (sql : String) : Prop :=
  (∃ batches, s.cache sql = some (.ready batches)) ∨
    ∃ i req batches, s.requests i = some req ∧ req.sql = sql ∧ req.phase = .built batches

/-- The condition on an entry that is applied: the subscribers do not see its
record, and each retained snapshot is of a plain scan that does not either. -/
def Ok (compile : String → ParsedQuery σ) (s : State σ) : Move σ → Prop
  | .apply _ e => s.live.topic.replayIsDuplicate cfg e.origin e.sequence = true ∨
      (∀ id c, s.clients id = some c → (compile c.sql).Stored →
        Quiet cfg decode (compile c.sql) s.live.topic.state e) ∧
      ∀ sql, Retained s sql → (compile sql).needsFullBuffer = false ∧
        Quiet cfg decode (compile sql) s.live.topic.state e
  | _ => True

variable {cfg : TopicConfig} {decode : Decode} {cap : Nat}
  {compile : String → ParsedQuery σ}

/-! ## The invariant -/

/-- The snapshot a request sends is that of a store since it was issued; one it
has built and not yet published is that of the store as it is. -/
structure Request.Fresh (cfg : TopicConfig) (cap : Nat) (q : ParsedQuery σ) (st : StoreState σ)
    (req : Request σ) : Prop where
  now : st ∈ req.since
  built : ∀ batches, req.phase = .built batches → batches = sowBatches cfg cap st q
  unsent : (∀ batches, req.phase ≠ .sending batches) → req.sent = []
  sending : ∀ batches, req.phase = .sending batches →
    ∃ st' ∈ req.since, req.sent ++ batches.flatten = (sowBatches cfg cap st' q).flatten

structure Inv (cfg : TopicConfig) (cap : Nat) (compile : String → ParsedQuery σ) (s : State σ) :
    Prop where
  quiet : s.live.queue = []
  view : ∀ id c, s.clients id = some c → (compile c.sql).Stored →
    held c.frames = expected cfg (compile c.sql) s.live.topic.state
  kept : ∀ sql batches, s.cache sql = some (.ready batches) →
    batches = sowBatches cfg cap s.live.topic.state (compile sql)
  fresh : ∀ i req, s.requests i = some req → req.Fresh cfg cap (compile req.sql) s.live.topic.state

theorem Inv.start (cfg : TopicConfig) (cap : Nat) (compile : String → ParsedQuery σ)
    (t : Topic σ) : Inv cfg cap compile (State.start t) where
  quiet := rfl
  view _ _ h := by cases h
  kept _ _ h := by cases h
  fresh _ _ h := by cases h

variable {q : ParsedQuery σ}

theorem held_snapshot (hkeys : cfg.keyFields ≠ []) (hq : q.Stored) (st : StoreState σ) :
    held ((keyedRows cfg st (snapshotRows cfg st q)).map .ofRow) = expected cfg q st := by
  have hframes : (keyedRows cfg st (snapshotRows cfg st q)).map Frame.ofRow =
      ((selectedRows q st.store).filter fun r => decide (st.table.Live r)).map fun r =>
        .shown r (recordKey (cfg.keyColIndices σ) (st.row r)) (projectRow q (st.row r)) := by
    rw [snapshotRows_eq hkeys hq, keyedRows, map_map, map_map]
    rfl
  funext r
  rw [hframes, Convergence.held_map_shown]
  have hsel : r ∈ selectedRows q st.store ↔ r < st.store.rowCount ∧
      q.predicate.holds (st.row r) := mem_selectedRows hq
  refine if_congr ?_ rfl rfl
  rw [mem_filter, hsel, decide_eq_true_eq]
  constructor
  · intro h
    exact ⟨h.2, h.1.2⟩
  · intro h
    obtain ⟨k, hk⟩ := h.1
    exact ⟨⟨st.table.slot_lt hk, h.2⟩, h.1⟩

variable {req : Request σ} {st : StoreState σ}

theorem Request.Fresh.woken (h : req.Fresh cfg cap q st) (wake : Bool) (sql : String) :
    (req.woken wake sql).Fresh cfg cap q st := by
  unfold Request.woken
  split
  · have hnotify : ∀ ph', (∀ b, ph' ≠ Phase.waiting b) →
        (req.phase.notify = ph' ↔ req.phase = ph') := by
      intro ph' hw
      cases hp : req.phase <;> simp [Phase.notify, Ne.symm (hw _)]
    refine ⟨h.now, fun b hb => ?_, fun hne => ?_, fun b hb => ?_⟩
    · exact h.built b ((hnotify (.built b) (by simp)).mp hb)
    · exact h.unsent fun b hb => hne b ((hnotify (.sending b) (by simp)).mpr hb)
    · exact h.sending b ((hnotify (.sending b) (by simp)).mp hb)
  · exact h

variable {stage : Stage}

theorem Request.Fresh.task (h : req.Fresh cfg cap q st) {cache cache' : Option CacheState}
    {ph' : Phase}
    (hstep : taskStep (sowBatches cfg cap st q) cache req.phase stage = some (cache', ph'))
    (hcache : ∀ batches, cache = some (.ready batches) → batches = sowBatches cfg cap st q) :
    Request.Fresh cfg cap q st
      { req with phase := ph', sent := req.sent ++ sentBatch req.phase stage } := by
  obtain ⟨-, hbuilt, hsent⟩ := taskStep_fresh hstep hcache h.built
  rcases hsent with ⟨batches, hph, rfl⟩ | ⟨hnot, hnil, hall⟩
  · refine ⟨h.now, hbuilt, fun hne => absurd rfl (hne batches), fun b hb => ?_⟩
    cases hb
    obtain ⟨st', hst', heq⟩ := h.sending _ hph
    refine ⟨st', hst', ?_⟩
    rw [← heq, flatten_cons, append_assoc]
  · refine ⟨h.now, hbuilt, fun _ => ?_, fun b hb => ⟨st, h.now, ?_⟩⟩
    · rw [hnil, append_nil]
      exact h.unsent hnot
    · rw [hnil, h.unsent hnot, hall b hb]
      rfl

variable {s s' : State σ}

theorem Inv.apply (hkeys : cfg.keyFields ≠ []) (h : Inv cfg cap compile s) {now : Nat}
    {e : LogEntry} (hok : Ok cfg decode compile s (.apply now e))
    (hstep : step cfg decode cap compile s (.apply now e) = some s') : Inv cfg cap compile s' := by
  cases hstep
  have hview : ∀ id c, s.clients id = some c → (compile c.sql).Stored →
      expected cfg (compile c.sql) (s.live.topic.replayEntry cfg decode now e).state =
        expected cfg (compile c.sql) s.live.topic.state := by
    intro id c hc hq
    rcases hok with hdup | ⟨hclients, -⟩
    · rw [replayEntry_duplicate hdup now]
    · exact expected_replayEntry (hclients id c hc hq) now
  have hkept : ∀ sql, Retained s sql →
      sowBatches cfg cap (s.live.topic.replayEntry cfg decode now e).state (compile sql) =
        sowBatches cfg cap s.live.topic.state (compile sql) := by
    intro sql hsql
    rcases hok with hdup | ⟨-, hretained⟩
    · rw [replayEntry_duplicate hdup now]
    · obtain ⟨hdirect, hquiet⟩ := hretained sql hsql
      exact sowBatches_congr hkeys hdirect (expected_replayEntry hquiet now) cap
  refine ⟨h.quiet, fun id c hc hq => ?_, fun sql batches hb => ?_, fun i req hreq => ?_⟩
  · exact (h.view id c hc hq).trans (hview id c hc hq).symm
  · exact (h.kept sql batches hb).trans (hkept sql (.inl ⟨batches, hb⟩)).symm
  · obtain ⟨req₀, hreq₀, rfl⟩ := Option.map_eq_some_iff.mp hreq
    have hreq := h.fresh i req₀ hreq₀
    refine ⟨by simp, fun b hb => ?_, hreq.unsent, fun b hb => ?_⟩
    · -- a snapshot that is built is still the one a build would give
      exact (hreq.built b hb).trans (hkept _ (.inr ⟨i, req₀, b, hreq₀, rfl, hb⟩)).symm
    · obtain ⟨st₁, hst₁, heq⟩ := hreq.sending b hb
      exact ⟨st₁, mem_append_left _ hst₁, heq⟩

theorem Inv.task (h : Inv cfg cap compile s) {i : Nat}
    (hstep : step cfg decode cap compile s (.task i stage) = some s') : Inv cfg cap compile s' := by
  obtain ⟨req, hreq, hmap⟩ := Option.bind_eq_some_iff.mp hstep
  obtain ⟨⟨cache', ph'⟩, htask, rfl⟩ := Option.map_eq_some_iff.mp hmap
  have hfresh := h.fresh i req hreq
  refine ⟨h.quiet, h.view, fun sql batches hb => ?_, forall_update_some ?_ fun j _ req' hj => ?_⟩
  · dsimp only at hb
    by_cases hsql : sql = req.sql
    · subst hsql
      rw [update_self] at hb
      exact (taskStep_fresh htask (h.kept _) hfresh.built).1 batches hb
    · rw [update_of_ne hsql] at hb
      exact h.kept sql batches hb
  · rintro _ ⟨⟩
    exact hfresh.task htask (h.kept _)
  · obtain ⟨req₀, hreq₀, rfl⟩ := Option.map_eq_some_iff.mp hj
    have hsql : (req₀.woken (wakes (s.cache req.sql) stage) req.sql).sql = req₀.sql := by
      unfold Request.woken
      split <;> rfl
    rw [hsql]
    exact (h.fresh j req₀ hreq₀).woken _ _

theorem Inv.step (hkeys : cfg.keyFields ≠ []) {m : Move σ} (h : Inv cfg cap compile s)
    (hok : Ok cfg decode compile s m) (hstep : step cfg decode cap compile s m = some s') :
    Inv cfg cap compile s' := by
  cases m with
  | apply now e => exact h.apply hkeys hok hstep
  | task i stage => exact h.task hstep
  | subscribe id sql =>
    cases hstep
    refine ⟨h.quiet, forall_update_some ?_ fun id' _ => h.view id', h.kept, h.fresh⟩
    rintro _ ⟨⟩ hq
    exact held_snapshot hkeys hq _
  | unsubscribe id =>
    cases hstep
    exact ⟨h.quiet, forall_update_some (by simp) fun id' _ => h.view id', h.kept, h.fresh⟩
  | evaluate =>
    -- no entry queues an event
    simp [Follower.step, Live.step, h.quiet] at hstep
  | sow i sql =>
    simp only [Follower.step] at hstep
    split at hstep
    · cases hstep
    cases hstep
    refine ⟨h.quiet, h.view, h.kept, forall_update_some ?_ fun j _ => h.fresh j⟩
    rintro _ ⟨⟩
    exact ⟨by simp, by simp, fun _ => rfl, by simp⟩
  | expire sql =>
    simp only [Follower.step] at hstep
    split at hstep
    · cases hstep
      refine ⟨h.quiet, h.view, fun sql' batches hb => ?_, h.fresh⟩
      dsimp only at hb
      by_cases hsql : sql' = sql
      · rw [hsql, update_self] at hb
        cases hb
      · rw [update_of_ne hsql] at hb
        exact h.kept sql' batches hb
    · cases hstep

/-- **Readers of a standby are up to date** while the applied entries pass them
by: with no event queued every plain subscriber holds the matching rows of the
store, and the rows a `Sow` has returned are those of a store no older than it. -/
theorem standby_readers_current (hkeys : cfg.keyFields ≠ []) {t : Topic σ} {moves : List (Move σ)}
    {s : State σ}
    (hrun : Run (step cfg decode cap compile) (Ok cfg decode compile) (State.start t) moves s) :
    (s.live.queue = [] → ∀ id c, s.clients id = some c → (compile c.sql).Stored →
      held c.frames = expected cfg (compile c.sql) s.live.topic.state) ∧
    ∀ i req, s.requests i = some req → req.phase = .sending [] →
      ∃ st ∈ req.since, req.sent = sowRows cfg st (compile req.sql) := by
  have hinv : Inv cfg cap compile s :=
    hrun.invariant (fun _ _ _ h hok hstep => h.step hkeys hok hstep) (.start cfg cap compile t)
  refine ⟨fun _ => hinv.view, ?_⟩
  intro i req hreq hdone
  obtain ⟨st, hst, heq⟩ := (hinv.fresh i req hreq).sending [] hdone
  refine ⟨st, hst, ?_⟩
  rw [sowBatches, flatten_batchesFrom, nil_append] at heq
  rw [← heq]
  simp

end System

/-! ## Runs -/

section Concrete
open Quotes
open Convergence (watchBid)

open Unused

def oneQuote : Topic schema := (upsertMap config 0 true (Topic.new schema) (full "A" 10 11)).topic

/-- A client subscribes and a `Sow` leaves its snapshot behind; an entry is
applied, and another `Sow` is answered. -/
def readAround (e : LogEntry) : List (Move schema) :=
  [.subscribe "s" "bid = 10", .sow 0 "bid = 10", .task 0 .lookup, .task 0 .build, .task 0 .publish,
    .task 0 .send, .apply 1 e, .sow 1 "bid = 10", .task 1 .lookup, .task 1 .send]

abbrev watch : String → ParsedQuery schema := fun _ => watchBid

instance (st : StoreState schema) (e : LogEntry) : Decidable (Quiet config some watchBid st e) := by
  unfold Quiet Unseen
  repeat' split
  all_goals infer_instance

def okUnseen (s : State schema) : Move schema → Bool
  | .apply _ e => Quiet config some watchBid s.live.topic.state e
  | _ => true

theorem okUnseen_ok (s : State schema) (m : Move schema) (h : okUnseen s m = true) :
    Ok config some watch s m := by
  cases m with
  | apply now e =>
    have hquiet : Quiet config some watchBid s.live.topic.state e := of_decide_eq_true h
    exact .inr ⟨fun _ _ _ _ => hquiet, fun _ _ => ⟨rfl, hquiet⟩⟩
  | _ => trivial

theorem standby_readers_current_unseen : ∃ s,
    Run (step config some 8 watch) (Ok config some watch) (State.start oneQuote)
      (readAround ⟨2, "B", "", some (full "B" 20 21), .json⟩) s ∧
    (∀ id c, s.clients id = some c → held c.frames = expected config watchBid s.live.topic.state) ∧
    ∃ req, s.requests 1 = some req ∧ ∃ st ∈ req.since, req.sent = sowRows config st watchBid := by
  refine Run.exists_of_check_with okUnseen okUnseen_ok
    (fun s => s.live.queue = [] ∧ ∃ req, s.requests 1 = some req ∧ req.phase = .sending [])
    (by decide +kernel) fun s hrun ⟨hqueue, req, hreq, hdone⟩ => ?_
  have hq : watchBid.Stored := ⟨⟨rfl, rfl⟩, rfl, rfl, rfl⟩
  obtain ⟨hclients, hsows⟩ := standby_readers_current (by decide) hrun
  have hall := hclients hqueue
  exact ⟨fun id c hc => hall id c hc hq, req, hreq, hsows 1 req hreq hdone⟩

/-- The quote's ask is changed on the primary. The subscriber is sent nothing,
and the second `Sow` gets the rows the first one left behind. -/
theorem standby_readers_stale : ∃ s,
    Run (step config some 8 watch) (fun _ _ => True) (State.start oneQuote)
      (readAround ⟨2, "A", "", some (full "A" 10 12), .json⟩) s ∧ s.live.queue = [] ∧
    (∃ c, s.clients "s" = some c ∧ held c.frames ≠ expected config watchBid s.live.topic.state) ∧
    ∃ req, s.requests 1 = some req ∧ req.phase = .sending [] ∧
      ∀ st ∈ req.since, req.sent ≠ sowRows config st watchBid := by
  refine Run.exists_of_check (fun s => s.live.queue = [] ∧
      (s.clients "s").any (held ·.frames 0 ≠ expected config watchBid s.live.topic.state 0) ∧
      ∃ req ∈ s.requests 1, req.phase = .sending [] ∧
        ∀ st ∈ req.since, req.sent ≠ sowRows config st watchBid)
    (by decide +kernel) fun s hrun ⟨hqueue, hany, hserved⟩ => ?_
  obtain ⟨c, hc, hne⟩ := (Option.any_eq_true _ _).mp hany
  exact ⟨hqueue, ⟨c, hc, fun h => of_decide_eq_true hne (congrFun h 0)⟩, hserved⟩

end Concrete

end CqServer.Follower
