import CqServer.Router.SnapshotCache

/-!
# Writes and the snapshots in the fan-out cache

The encoded snapshots of all topics and queries share one cache. A finished
entry lives for a TTL and may be evicted for room; a client's write drops the
finished entries of its topic before it is acked, while the TTL sweeper and the
views drop nothing. The writes of a topic are numbered as they commit, and what
a request may be sent is measured by how many of them its snapshot was read
with.
-/

namespace CqServer.FanoutCache

open Lib Function

/-! ## The cache -/

/-- `CachedSnapshot`, and how many writes of the topic its read had seen. -/
structure CachedSnapshot where
  batches : List Batch
  expiresAt : Nat
  insertedAt : Nat
  bytes : Nat
  readAt : Nat

inductive Entry where
  | building
  | ready (snap : CachedSnapshot)

abbrev Key := String × String

abbrev Cache := Key → Option Entry

structure Limits where
  ttl : Nat
  maxBytes : Nat
  rowBytes : JsonMap → Nat

def snapshotByteSize (lim : Limits) (batches : List Batch) : Nat :=
  (batches.flatten.map fun row => lim.rowBytes row.2.2).sum

/-- What a lookup sees: a finished entry that has expired is none. -/
def Entry.seen (now : Nat) : Entry → Option CacheState
  | .building => some .building
  | .ready snap => if now < snap.expiresAt then some (.ready snap.batches) else none

def currentCacheBytes (keys : List Key) (cache : Cache) : Nat :=
  (keys.map fun key => match cache key with
    | some (.ready snap) => snap.bytes
    | _ => 0).sum

/-- The finished entry with the least insertion time, the first of them in the
order of the keys. -/
def oldest (keys : List Key) (cache : Cache) : Option (Key × Nat) :=
  keys.foldl (fun best key => match cache key, best with
    | some (.ready snap), some (_, inserted) =>
      if snap.insertedAt < inserted then some (key, snap.insertedAt) else best
    | some (.ready snap), none => some (key, snap.insertedAt)
    | _, _ => best) none

/-- The loop of `evict_for_budget`. A round drops an entry or is the last. -/
def dropOldest (keys : List Key) (incoming cap : Nat) : Nat → Cache → Cache
  | 0, cache => cache
  | rounds + 1, cache =>
    if currentCacheBytes keys cache + incoming ≤ cap then cache
    else
      match oldest keys cache with
      | some (key, _) => dropOldest keys incoming cap rounds (update cache key none)
      | none => cache

/-- `evict_for_budget`; `keys` are those of the map in the order it iterates. -/
def evictForBudget (keys : List Key) (now incoming cap : Nat) (cache : Cache) : Cache :=
  dropOldest keys incoming cap keys.length fun key =>
    (cache key).filter fun e => (e.seen now).isSome

theorem dropOldest_le {keys : List Key} {incoming cap rounds : Nat} {cache : Cache} {key : Key}
    {e : Entry} (h : dropOldest keys incoming cap rounds cache key = some e) :
    cache key = some e := by
  induction rounds generalizing cache with
  | zero => exact h
  | succ rounds ih =>
    rw [dropOldest] at h
    split at h
    · exact h
    cases hold : oldest keys cache with
    | none =>
      rw [hold] at h
      exact h
    | some gone =>
      rw [hold] at h
      have hkept := ih h
      by_cases hkey : key = gone.1
      · simp [hkey] at hkept
      · rwa [update_of_ne hkey] at hkept

/-- `invalidate_snapshot_cache_for_topic`: entries that are being built stay. -/
def invalidateForTopic (topic : String) (cache : Cache) : Cache := fun key =>
  match cache key with
  | some (.ready snap) => if key.1 = topic then none else some (.ready snap)
  | e => e

/-! ## Writers and requests -/

inductive Writer where
  | idle
  | committed (topic : String) (n : Nat)
  | dropped (topic : String) (n : Nat)

structure Request where
  topic : String := ""
  sql : String := ""
  /-- The number of the last write of the topic acked before the request began. -/
  started : Nat := 0
  phase : Phase := .idle
  /-- How many writes its own build had seen. -/
  readAt : Nat := 0
  received : Batch := []

def Request.key (x : Request) : Key := (x.topic, x.sql)

structure State (W : Type) where
  writes : String → List W
  /-- The last write after which the topic's entries were dropped. -/
  dropped : String → Nat
  acked : String → Nat
  writers : Nat → Writer
  cache : Cache
  requests : Nat → Request

def State.init {W : Type} : State W :=
  ⟨fun _ => [], fun _ => 0, fun _ => 0, fun _ => .idle, fun _ => none, fun _ => {}⟩

inductive Event (W : Type) where
  /-- A publish, delta or delete of a client commits; a batch does so row by row. -/
  | commit (writer : Nat) (topic : String) (writes : List W)
  | invalidate (writer : Nat)
  | ack (writer : Nat)
  /-- The TTL sweeper or a view writes. -/
  | background (topic : String) (write : W)
  | request (i : Nat) (topic sql : String)
  | task (i : Nat) (stage : Stage) (now : Nat) (keys : List Key)

section System
variable {W : Type} (lim : Limits) (snapshotOf : String → String → List W → List Batch)

/-- The entry a stage of the task leaves under its key: a lookup that sees
nothing claims it, whoever has built publishes, and a failed build removes what
is there. -/
def entryAfter (now : Nat) (x : Request) (entry : Option Entry) : Stage → Option Entry
  | .lookup => if (entry.bind (Entry.seen now)).isNone then some .building else entry
  | .publish =>
    match x.phase with
    | .built batches =>
      some (.ready ⟨batches, now + lim.ttl, now, snapshotByteSize lim batches, x.readAt⟩)
    | _ => entry
  | .fail => none
  | _ => entry

/-- The other entries: a publish makes room for its own. -/
def roomAfter (now : Nat) (keys : List Key) (x : Request) (cache : Cache) : Stage → Cache
  | .publish =>
    match x.phase with
    | .built batches => evictForBudget keys now (snapshotByteSize lim batches) lim.maxBytes cache
    | _ => cache
  | _ => cache

/-- A writer's rows go into the store; `snapshotOf topic sql writes` are the
batches of the query on the topic after the writes. -/
def step (s : State W) : Event W → Option (State W)
  | .commit w topic ws =>
    let written := update s.writes topic (s.writes topic ++ ws)
    let s' := { s with
      writes := written
      writers := update s.writers w (.committed topic (written topic).length) }
    match s.writers w with
    | .idle => some s'
    | .committed topic' _ => if topic' = topic then some s' else none
    | .dropped .. => none
  | .invalidate w =>
    match s.writers w with
    | .committed topic n => some { s with
        cache := invalidateForTopic topic s.cache
        dropped := update s.dropped topic (max (s.dropped topic) n)
        writers := update s.writers w (.dropped topic n) }
    | _ => none
  | .ack w =>
    match s.writers w with
    | .dropped topic n => some { s with
        acked := update s.acked topic (max (s.acked topic) n)
        writers := update s.writers w .idle }
    | _ => none
  | .background topic w =>
    some { s with writes := update s.writes topic (s.writes topic ++ [w]) }
  | .request i topic sql =>
    let x : Request := { topic, sql, started := s.acked topic, phase := .looking }
    match (s.requests i).phase with
    | .idle => some { s with requests := update s.requests i x }
    | _ => none
  | .task i stage now keys =>
    let x := s.requests i
    let seen := (s.cache x.key).bind (Entry.seen now)
    match taskStep (snapshotOf x.topic x.sql (s.writes x.topic)) seen x.phase stage with
    | none => none
    | some (_, phase) =>
      let woken j :=
        let y := s.requests j
        if wakes seen stage ∧ y.key = x.key then { y with phase := y.phase.notify } else y
      some { s with
        cache := update (roomAfter lim now keys x s.cache stage) x.key
          (entryAfter lim now x (s.cache x.key) stage)
        requests := update woken i { x with
          phase
          readAt := if stage = .build then (s.writes x.topic).length else x.readAt
          received := x.received ++ sentBatch x.phase stage } }

/-- A snapshot goes into the cache only if no client's write has dropped the
topic's entries since, having committed after the snapshot was read. -/
def ok (s : State W) : Event W → Bool
  | .task i .publish _ _ => s.dropped (s.requests i).topic ≤ (s.requests i).readAt
  | _ => true

/-! ## What snapshots show -/

/-- The batches are those of the topic after its first `m` writes. -/
def Reads (writes : String → List W) (topic sql : String) (m : Nat) (batches : List Batch) : Prop :=
  m ≤ (writes topic).length ∧ batches = snapshotOf topic sql ((writes topic).take m)

/-- What holds of a request: what it has been sent and is still owed is one
snapshot, read with every write that was acked when the request began. -/
structure Request.Served (writes : String → List W) (dropped : String → Nat) (x : Request) :
    Prop where
  started_le : x.started ≤ dropped x.topic
  built : ∀ batches, x.phase = .built batches →
    x.started ≤ x.readAt ∧ Reads snapshotOf writes x.topic x.sql x.readAt batches
  todo : ∀ rows, x.phase.todo = some rows → ∃ m batches, x.started ≤ m ∧
    Reads snapshotOf writes x.topic x.sql m batches ∧ x.received ++ rows = batches.flatten
  unsent : x.phase.todo = none → x.received = []

variable {snapshotOf} {s t : State W} {writes writes' : String → List W}
  {dropped dropped' : String → Nat} {x : Request}

theorem Reads.mono {topic sql : String} {m : Nat} {batches : List Batch}
    (h : Reads snapshotOf writes topic sql m batches) (hw : writes topic <+: writes' topic) :
    Reads snapshotOf writes' topic sql m batches := by
  obtain ⟨more, hmore⟩ := hw
  refine ⟨h.1.trans (by simp [← hmore]), ?_⟩
  rw [← hmore, List.take_append_of_le_length h.1]
  exact h.2

theorem Request.Served.mono (h : x.Served snapshotOf writes dropped)
    (hw : writes x.topic <+: writes' x.topic) (hd : dropped x.topic ≤ dropped' x.topic) :
    x.Served snapshotOf writes' dropped' where
  started_le := h.started_le.trans hd
  built batches hb := (h.built batches hb).imp_right fun hr => hr.mono hw
  todo rows hrows :=
    have ⟨m, batches, hm, hr, hsent⟩ := h.todo rows hrows
    ⟨m, batches, hm, hr.mono hw, hsent⟩
  unsent := h.unsent

theorem Request.Served.notify (h : x.Served snapshotOf writes dropped) :
    ({ x with phase := x.phase.notify } : Request).Served snapshotOf writes dropped where
  started_le := h.started_le
  built batches hb := h.built batches (by
    cases hx : x.phase <;> rw [hx] at hb <;> first | exact hb | cases hb)
  todo rows hrows := h.todo rows (by simpa using hrows)
  unsent hnone := h.unsent (by simpa using hnone)

variable (snapshotOf) in
structure Inv (s : State W) : Prop where
  acked_le : ∀ topic, s.acked topic ≤ s.dropped topic
  dropped_le : ∀ topic, s.dropped topic ≤ (s.writes topic).length
  committed : ∀ w topic n, s.writers w = .committed topic n → n ≤ (s.writes topic).length
  dropping : ∀ w topic n, s.writers w = .dropped topic n → n ≤ s.dropped topic
  cached : ∀ topic sql snap, s.cache (topic, sql) = some (.ready snap) →
    s.dropped topic ≤ snap.readAt ∧ Reads snapshotOf s.writes topic sql snap.readAt snap.batches
  served : ∀ i, (s.requests i).Served snapshotOf s.writes s.dropped

theorem Inv.init : Inv snapshotOf (State.init) where
  acked_le _ := le_rfl
  dropped_le _ := le_rfl
  committed _ _ _ h := nomatch h
  dropping _ _ _ h := nomatch h
  cached _ _ _ h := nomatch h
  served _ := ⟨le_rfl, nofun, nofun, fun _ => rfl⟩

theorem Inv.write (h : Inv snapshotOf s) {topic : String} {ws : List W} {writers : Nat → Writer}
    (hc : ∀ w name n, writers w = .committed name n →
      s.writers w = .committed name n ∨ name = topic ∧ n ≤ (s.writes topic ++ ws).length)
    (hd : ∀ w name n, writers w = .dropped name n → s.writers w = .dropped name n) :
    Inv snapshotOf { s with
      writes := update s.writes topic (s.writes topic ++ ws), writers } := by
  have hgrow : ∀ name,
      s.writes name <+: update s.writes topic (s.writes topic ++ ws) name := by
    intro name
    by_cases hname : name = topic
    · rw [hname, update_self]
      exact ⟨ws, rfl⟩
    · rw [update_of_ne hname]
  constructor
  case acked_le => exact h.acked_le
  case dropped_le => exact fun name => (h.dropped_le name).trans (hgrow name).length_le
  case committed =>
    intro w name n hw
    rcases hc w name n hw with hold | ⟨rfl, hn⟩
    · exact (h.committed w name n hold).trans (hgrow name).length_le
    · simpa using hn
  case dropping => exact fun w name n hw => h.dropping w name n (hd w name n hw)
  case cached =>
    exact fun name sql snap hsnap =>
      (h.cached name sql snap hsnap).imp_right fun hr => hr.mono (hgrow name)
  case served => exact fun i => (h.served i).mono (hgrow _) le_rfl

/-- Dropping the topic's finished entries makes room for a later write. -/
theorem Inv.invalidate (h : Inv snapshotOf s) {w : Nat} {topic : String} {n : Nat}
    (hw : s.writers w = .committed topic n) :
    Inv snapshotOf { s with
      cache := invalidateForTopic topic s.cache
      dropped := update s.dropped topic (max (s.dropped topic) n)
      writers := update s.writers w (.dropped topic n) } := by
  have hup : ∀ name,
      s.dropped name ≤ update s.dropped topic (max (s.dropped topic) n) name := by
    intro name
    by_cases hname : name = topic
    · simp [hname]
    · rw [update_of_ne hname]
  constructor
  case acked_le => exact fun name => (h.acked_le name).trans (hup name)
  case dropped_le =>
    intro name
    by_cases hname : name = topic
    · subst hname
      simpa using ⟨h.dropped_le name, h.committed w name n hw⟩
    · simpa [hname] using h.dropped_le name
  case committed =>
    intro w' name k hk
    by_cases hw' : w' = w
    · simp [hw'] at hk
    · exact h.committed w' name k (by simpa [hw'] using hk)
  case dropping =>
    intro w' name k hk
    by_cases hw' : w' = w
    · obtain ⟨rfl, rfl⟩ : topic = name ∧ n = k := by simpa [hw'] using hk
      simp
    · exact (h.dropping w' name k (by simpa [hw'] using hk)).trans (hup name)
  case cached =>
    intro name sql snap hsnap
    simp only [invalidateForTopic] at hsnap
    split at hsnap
    · rename_i hold
      split at hsnap
      · cases hsnap
      rename_i hname
      cases hsnap
      dsimp only at hname ⊢
      rw [update_of_ne hname]
      exact h.cached name sql _ hold
    · rename_i hready
      exact absurd hsnap (hready snap)
  case served => exact fun i => (h.served i).mono List.prefix_rfl (hup _)

theorem seen_ready {now : Nat} {e : Option Entry} {batches : List Batch}
    (h : e.bind (Entry.seen now) = some (.ready batches)) :
    ∃ snap, e = some (.ready snap) ∧ snap.batches = batches := by
  obtain ⟨e, rfl, he⟩ := Option.bind_eq_some_iff.mp h
  cases e with
  | building => cases he
  | ready snap =>
    rw [Entry.seen] at he
    split at he
    · exact ⟨snap, rfl, CacheState.ready.inj (Option.some.inj he)⟩
    · cases he

/-- A request's own step: it takes a snapshot from the cache or the store, or
goes on with the one it has. -/
theorem Inv.task_served (h : Inv snapshotOf s) (hx : x.Served snapshotOf s.writes s.dropped)
    {stage : Stage} {now : Nat} {cache : Option CacheState} {phase : Phase}
    (hstep : taskStep (snapshotOf x.topic x.sql (s.writes x.topic))
      ((s.cache x.key).bind (Entry.seen now)) x.phase stage = some (cache, phase)) :
    ({ x with
      phase
      readAt := if stage = .build then (s.writes x.topic).length else x.readAt
      received := x.received ++ sentBatch x.phase stage } : Request).Served snapshotOf
        s.writes s.dropped := by
  have hread : Reads snapshotOf s.writes x.topic x.sql (s.writes x.topic).length
      (snapshotOf x.topic x.sql (s.writes x.topic)) := ⟨le_rfl, by rw [List.take_length]⟩
  have hall := hx.started_le.trans (h.dropped_le x.topic)
  obtain ⟨-, -, hcases⟩ := taskStep_cases hstep
  constructor
  case started_le => exact hx.started_le
  case built =>
    intro batches hb
    dsimp only at hb
    rw [hb] at hstep
    obtain ⟨rfl, rfl⟩ : stage = .build ∧ batches = snapshotOf x.topic x.sql (s.writes x.topic) := by
      unfold taskStep at hstep
      split at hstep <;> try split at hstep
      all_goals simp_all
    exact ⟨hall, hread⟩
  case todo =>
    intro rows hrows
    rcases hcases with ⟨batches, -, hseen, hnone, htodo, hsent⟩ | ⟨-, hnone, htodo, hsent⟩ |
      ⟨rest, htodo, hrest⟩ | ⟨htodo, hsent⟩
    · obtain ⟨snap, hsnap, rfl⟩ := seen_ready hseen
      obtain ⟨hdropped, hr⟩ := h.cached x.topic x.sql snap hsnap
      cases htodo.symm.trans hrows
      exact ⟨_, _, hx.started_le.trans hdropped, hr, by simp [hx.unsent hnone, hsent]⟩
    · cases htodo.symm.trans hrows
      exact ⟨_, _, hall, hread, by simp [hx.unsent hnone, hsent]⟩
    · cases hrest.symm.trans hrows
      obtain ⟨m, batches, hm, hr, hflat⟩ := hx.todo _ htodo
      exact ⟨m, batches, hm, hr, by rw [← hflat, List.append_assoc]⟩
    · obtain ⟨m, batches, hm, hr, hflat⟩ := hx.todo rows (htodo.symm.trans hrows)
      exact ⟨m, batches, hm, hr, by rw [hsent, List.append_nil, hflat]⟩
  case unsent =>
    intro hnone
    rcases hcases with ⟨_, -, -, -, htodo, -⟩ | ⟨-, -, htodo, -⟩ | ⟨_, -, htodo⟩ | ⟨htodo, hsent⟩
    · simp [htodo] at hnone
    · simp [htodo] at hnone
    · simp [htodo] at hnone
    · rw [hsent, hx.unsent (htodo.symm.trans hnone), List.append_nil]

/-- A finished entry after a task's step was there before, or it is the snapshot
of the task, just published. -/
theorem cache_after_task {now : Nat} {keys : List Key} {cache : Cache} {stage : Stage} {key : Key}
    {snap : CachedSnapshot}
    (h : update (roomAfter lim now keys x cache stage) x.key
      (entryAfter lim now x (cache x.key) stage) key = some (.ready snap)) :
    cache key = some (.ready snap) ∨ stage = .publish ∧ key = x.key ∧
      x.phase = .built snap.batches ∧ snap.readAt = x.readAt := by
  by_cases hkey : key = x.key
  · subst hkey
    rw [update_self] at h
    unfold entryAfter at h
    split at h
    · split at h
      · cases h
      · exact .inl h
    · split at h
      · rename_i hph
        cases h
        exact .inr ⟨rfl, rfl, hph, rfl⟩
      · exact .inl h
    · cases h
    · exact .inl h
  · rw [update_of_ne hkey] at h
    refine .inl ?_
    cases stage with
    | publish =>
      cases hph : x.phase <;> rw [roomAfter, hph] at h
      case built => exact (Option.filter_eq_some_iff.mp (dropOldest_le h)).1
      all_goals exact h
    | _ => exact h

theorem Inv.step (h : Inv snapshotOf s) {event : Event W} (hok : ok s event = true)
    (hstep : step lim snapshotOf s event = some t) : Inv snapshotOf t := by
  cases event with
  | commit w topic ws =>
    have hwrite : Inv snapshotOf { s with
        writes := update s.writes topic (s.writes topic ++ ws)
        writers := update s.writers w (.committed topic
          (update s.writes topic (s.writes topic ++ ws) topic).length) } := by
      refine h.write (fun w' name n hw => ?_) (fun w' name n hw => ?_)
      · by_cases hw' : w' = w
        · obtain ⟨rfl, rfl⟩ := Writer.committed.inj (by simpa [hw'] using hw)
          exact .inr ⟨rfl, by simp⟩
        · exact .inl (by simpa [hw'] using hw)
      · by_cases hw' : w' = w
        · simp [hw'] at hw
        · simpa [hw'] using hw
    simp only [FanoutCache.step] at hstep
    split at hstep
    · cases hstep
      exact hwrite
    · obtain ⟨-, rfl⟩ := of_guard hstep
      exact hwrite
    · cases hstep
  | invalidate w =>
    simp only [FanoutCache.step] at hstep
    split at hstep
    · rename_i hw
      cases hstep
      exact h.invalidate hw
    · cases hstep
  | ack w =>
    simp only [FanoutCache.step] at hstep
    split at hstep
    · rename_i topic n hw
      cases hstep
      have hothers : ∀ w' (v : Writer), v ≠ .idle → update s.writers w .idle w' = v →
          s.writers w' = v := by
        intro w' v hv heq
        by_cases hw' : w' = w
        · exact absurd (by simpa [hw'] using heq.symm) hv
        · rwa [update_of_ne hw'] at heq
      refine { h with acked_le := fun name => ?_, committed := ?_, dropping := ?_ }
      · by_cases hname : name = topic
        · subst hname
          simpa using ⟨h.acked_le name, h.dropping w name n hw⟩
        · simpa [hname] using h.acked_le name
      · exact fun w' name k hk => h.committed w' name k (hothers w' _ nofun hk)
      · exact fun w' name k hk => h.dropping w' name k (hothers w' _ nofun hk)
    · cases hstep
  | background topic w =>
    cases hstep
    exact h.write (fun _ _ _ hw => .inl hw) (fun _ _ _ hw => hw)
  | request i topic sql =>
    simp only [FanoutCache.step] at hstep
    split at hstep
    · cases hstep
      refine { h with served := fun j => ?_ }
      by_cases hj : j = i
      · simp only [hj, update_self]
        exact ⟨h.acked_le topic, nofun, nofun, fun _ => rfl⟩
      · simp only [update_of_ne hj]
        exact h.served j
    · cases hstep
  | task i stage now keys =>
    simp only [FanoutCache.step] at hstep
    split at hstep
    · cases hstep
    rename_i cache phase htask
    cases hstep
    refine { h with cached := fun topic sql snap hsnap => ?_, served := fun j => ?_ }
    · rcases cache_after_task lim hsnap with hold | ⟨rfl, hkey, hph, hat⟩
      · exact h.cached topic sql snap hold
      · cases hkey
        rw [hat]
        exact ⟨of_decide_eq_true hok, ((h.served i).built _ hph).2⟩
    · by_cases hj : j = i
      · simp only [hj, update_self]
        exact h.task_served (h.served i) htask
      · simp only [update_of_ne hj]
        split
        · exact (h.served j).notify
        · exact h.served j

/-- **A request is sent a snapshot with every write that was acked before it
began**, in every run in which no snapshot is published behind a client's write
that it was read without and whose entries were already dropped. -/
theorem snapshot_shows_acked_writes {events : List (Event W)}
    (hrun : Run (FanoutCache.step lim snapshotOf) (fun s e => ok s e = true) .init events s)
    {i : Nat} {rows : Batch} (hrows : (s.requests i).phase.todo = some rows) :
    ∃ m, (s.requests i).started ≤ m ∧ m ≤ (s.writes (s.requests i).topic).length ∧
      (s.requests i).received ++ rows = (snapshotOf (s.requests i).topic (s.requests i).sql
        ((s.writes (s.requests i).topic).take m)).flatten := by
  have hinv : Inv snapshotOf s :=
    hrun.invariant (fun _ _ _ h hok hstep => h.step lim hok hstep) Inv.init
  obtain ⟨m, batches, hm, ⟨hle, rfl⟩, hsent⟩ := (hinv.served i).todo rows hrows
  exact ⟨m, hm, hle, hsent⟩

end System

/-! ## Quotes -/

section Quotes
open Quotes

open Unused

/-- `SELECT *` on the quotes published so far. -/
def allQuotes (_ _ : String) (published : List JsonMap) : List Batch :=
  let topic := published.foldl (fun t m => (upsertMap config 0 true t m).topic) (Topic.new schema)
  streamBatches config 2 topic.state { predicate := .always }

def defaults : Limits := ⟨500, 256 * 1024 * 1024, fun _ => 40⟩

def publishQuote : List (Event JsonMap) :=
  [.commit 0 "quotes" [full "A" 10 11], .invalidate 0, .ack 0]

/-- A request of all quotes and stages of its task, at one instant. -/
def ask (i : Nat) (stages : List Stage) : List (Event JsonMap) :=
  .request i "quotes" "SELECT *" :: stages.map fun stage => .task i stage 1000 []

/-- A cached snapshot is dropped by the publish; the next request builds, and a
third takes what the second has put into the cache. -/
def refreshed : List (Event JsonMap) :=
  ask 0 [.lookup, .build, .publish] ++ publishQuote ++ ask 1 [.lookup, .build, .publish] ++
    ask 2 [.lookup]

theorem snapshot_shows_acked_writes_refreshed : ∃ s rows,
    Run (step defaults allQuotes) (fun s e => ok s e = true) .init refreshed s ∧
      (s.requests 2).started = 1 ∧ (s.requests 2).phase.todo = some rows ∧
      ∃ m, (s.requests 2).started ≤ m ∧ m ≤ (s.writes (s.requests 2).topic).length ∧
        (s.requests 2).received ++ rows = (allQuotes (s.requests 2).topic (s.requests 2).sql
          ((s.writes (s.requests 2).topic).take m)).flatten := by
  simp only [exists_and_left]
  refine Run.exists_of_check
    (fun s => (s.requests 2).started = 1 ∧ (s.requests 2).phase.todo.isSome)
    (by decide +kernel) fun s hrun ⟨hstarted, htodo⟩ => ?_
  obtain ⟨rows, hrows⟩ := Option.isSome_iff_exists.mp htodo
  exact ⟨hstarted, rows, hrows, snapshot_shows_acked_writes defaults hrun hrows⟩

/-- The quote is published and acked between the build's read of the store and
its publication; the entry under construction is not dropped. -/
def crossed : List (Event JsonMap) :=
  ask 0 [.lookup, .build] ++ publishQuote ++ [.task 0 .publish 1000 []] ++ ask 1 [.lookup]

/-- The request that begins after the ack is sent the empty snapshot. -/
theorem acked_quote_missing : ∃ s, Run (step defaults allQuotes) (fun _ _ => True) .init crossed s ∧
      (s.requests 1).started = 1 ∧ (s.requests 1).phase.todo = some [] ∧
      (s.requests 1).received = [] ∧ (s.writes "quotes").length = 1 ∧
      (allQuotes "quotes" "SELECT *" (s.writes "quotes")).flatten ≠ [] := by
  refine Run.exists_of_check (fun s => (s.requests 1).started = 1 ∧
      (∃ rows, (s.requests 1).phase.todo = some rows ∧ rows = []) ∧ (s.requests 1).received = [] ∧
      (s.writes "quotes").length = 1 ∧
      (allQuotes "quotes" "SELECT *" (s.writes "quotes")).flatten ≠ [])
    (by decide +kernel) fun s hrun ⟨hstarted, ⟨rows, htodo, hnil⟩, hquote⟩ => ?_
  exact ⟨hstarted, hnil ▸ htodo, hquote⟩

end Quotes

end CqServer.FanoutCache
