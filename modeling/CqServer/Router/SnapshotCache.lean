import CqServer.Topic.Mirror

/-!
# The streamed snapshot and its fan-out cache

`deliver_streaming_snapshot` sends a subscriber its snapshot in batches. Tasks
that ask for the same query on the same topic share one encoded snapshot through
a cache entry: the first marks the entry as building, reads the store, publishes
the batches, and the others wait for it or take the batches it left.
-/

namespace CqServer

open Lib StoreState List

variable {σ : Schema}

/-- The batches of a stream of rows behind a begun batch. -/
def batchesFrom {α : Type} (cap : Nat) : List α → List α → List (List α)
  | batch, [] => if batch.isEmpty then [] else [batch]
  | batch, row :: rows =>
    let full := batch ++ [row]
    if max cap 1 ≤ full.length then full :: batchesFrom cap [] rows
    else batchesFrom cap full rows

theorem flatten_batchesFrom {α : Type} (cap : Nat) (batch rows : List α) :
    (batchesFrom cap batch rows).flatten = batch ++ rows := by
  induction rows generalizing batch with
  | nil => cases batch <;> simp [batchesFrom]
  | cons row rows ih =>
    rw [batchesFrom]
    split <;> simp [ih]

/-! ## The rows of the snapshot -/

/-- The query needs the buffered path of `query_streaming_json`. -/
def ParsedQuery.needsFullBuffer (q : ParsedQuery σ) : Bool :=
  !q.orderBy.isEmpty || q.limit.isSome || q.isAggregating || !q.computed.isEmpty ||
    (q.hasPivot || q.hasUnpivot) || !q.windows.isEmpty

/-- A snapshot row: the bytes sent are those of its data alone. -/
abbrev Batch := List (Nat × Option String × JsonMap)

theorem holds_of_mem_selectedRows {q : ParsedQuery σ} {store : ColumnStore σ} {r : Nat}
    (h : r ∈ selectedRows q store) : q.predicate.holds (store.row r) = true := by
  have hsorted : r ∈ (if q.orderBy = [] then matchingRows q store
      else (matchingRows q store).insertionSort fun a b =>
        compareRows q.orderBy (store.row a) (store.row b) ≠ .gt) := by
    unfold selectedRows at h
    cases hlimit : q.limit <;> cases hoffset : q.offset <;> rw [hlimit, hoffset] at h
    · exact h
    · exact mem_of_mem_drop h
    · exact mem_of_mem_take h
    · exact mem_of_mem_drop (mem_of_mem_take h)
  have hmatch : r ∈ matchingRows q store := by
    split at hsorted
    · exact hsorted
    · exact (perm_insertionSort _ _).mem_iff.mp hsorted
  exact (mem_filter.mp hmatch).2

section Stream
variable [HostText] [AggregateExec σ]

/-- `query_streaming_json` on a row-oriented query: through the executor, or
straight from the store. -/
def streamRows (cfg : TopicConfig) (st : StoreState σ) (q : ParsedQuery σ) :
    List (Nat × JsonMap) :=
  if q.needsFullBuffer then snapshotRows cfg st q
  else ((matchingRows q st.store).filter fun r => cfg.keyFields = [] || st.table.Live r).map
    fun r => (r, projectRow q (st.row r))

theorem holds_of_mem_streamRows {cfg : TopicConfig} {st : StoreState σ} {q : ParsedQuery σ}
    (hq : q.rowOriented = true) {p : Nat × JsonMap} (h : p ∈ streamRows cfg st q) :
    q.predicate.holds (st.row p.1) = true := by
  unfold streamRows at h
  split at h
  · obtain ⟨hzip, -⟩ := mem_filter.mp h
    have hsource := (of_mem_zip hzip).1
    rw [executeQuery, if_pos hq] at hsource
    exact holds_of_mem_selectedRows hsource
  · obtain ⟨r, hr, rfl⟩ := mem_map.mp h
    exact (mem_filter.mp (mem_filter.mp hr).1).2

def streamBatches (cfg : TopicConfig) (cap : Nat) (st : StoreState σ) (q : ParsedQuery σ) :
    List Batch :=
  batchesFrom cap [] (keyedRows cfg st (streamRows cfg st q))

end Stream

/-! ## The cache entry and the tasks -/

/-- `SnapshotCacheState` of one topic and query; an entry that has expired is no
entry. -/
inductive CacheState where
  | building
  | ready (batches : List Batch)

/-- Where a session is in `handle_sow_and_subscribe` and the delivery task it
spawns. -/
inductive Phase where
  | idle
  /-- In the engine, but deltas have no route yet. -/
  | registered
  | looking
  | waiting (notified : Bool)
  | building
  | built (batches : List Batch)
  | sending (batches : List Batch)
  | failed
  deriving DecidableEq

inductive Stage where
  | lookup
  | wake
  | build
  | fail
  | publish
  | send
  deriving DecidableEq, Repr

namespace Phase

def routed : Phase → Bool
  | .idle => false
  | .registered => false
  | _ => true

def todo : Phase → Todo
  | .built batches => some batches.flatten
  | .sending batches => some batches.flatten
  | _ => none

/-- `notify_waiters`. -/
def notify : Phase → Phase
  | .waiting _ => .waiting true
  | ph => ph

@[simp] theorem notify_todo (ph : Phase) : ph.notify.todo = ph.todo := by
  cases ph <;> rfl

end Phase

/-- One step of a delivery task; `snapshot` is what a build would emit now. -/
def taskStep (snapshot : List Batch) (cache : Option CacheState) :
    Phase → Stage → Option (Option CacheState × Phase)
  | .looking, .lookup =>
    match cache with
    | some (.ready batches) => some (cache, .sending batches)
    | some .building => some (cache, .waiting false)
    | none => some (some .building, .building)
  | .waiting true, .wake =>
    match cache with
    | some (.ready batches) => some (cache, .sending batches)
    | _ => some (cache, .building)
  | .building, .build => some (cache, .built snapshot)
  | .building, .fail => some (none, .failed)
  | .built batches, .publish => some (some (.ready batches), .sending batches)
  | .sending (_ :: batches), .send => some (cache, .sending batches)
  | _, _ => none

def sentBatch : Phase → Stage → Batch
  | .sending (batch :: _), .send => batch
  | _, _ => []

/-- The step wakes the tasks that wait for the build. -/
def wakes (cache : Option CacheState) : Stage → Bool
  | .publish | .fail => match cache with
      | some .building => true
      | _ => false
  | _ => false

/-- **What a task step can do**: take the snapshot from the cache, or from the
store, or send a batch of it, or leave what is owed as it was. -/
theorem taskStep_cases {snapshot : List Batch} {cache cache' : Option CacheState}
    {ph ph' : Phase} {stage : Stage} (h : taskStep snapshot cache ph stage = some (cache', ph')) :
    ph.routed = true ∧ ph'.routed = true ∧
    ((∃ batches, (stage = .lookup ∨ stage = .wake) ∧ cache = some (.ready batches) ∧
        ph.todo = none ∧ ph'.todo = some batches.flatten ∧ sentBatch ph stage = []) ∨
      (stage = .build ∧ ph.todo = none ∧ ph'.todo = some snapshot.flatten ∧
        sentBatch ph stage = []) ∨
      (∃ rest, ph.todo = some (sentBatch ph stage ++ rest) ∧ ph'.todo = some rest) ∨
      (ph'.todo = ph.todo ∧ sentBatch ph stage = [])) := by
  unfold taskStep at h
  split at h
  · -- lookup
    split at h
    · rename_i batches
      cases h
      exact ⟨rfl, rfl, .inl ⟨batches, .inl rfl, rfl, rfl, rfl, rfl⟩⟩
    · cases h
      exact ⟨rfl, rfl, .inr (.inr (.inr ⟨rfl, rfl⟩))⟩
    · cases h
      exact ⟨rfl, rfl, .inr (.inr (.inr ⟨rfl, rfl⟩))⟩
  · -- wake
    split at h
    · rename_i batches
      cases h
      exact ⟨rfl, rfl, .inl ⟨batches, .inr rfl, rfl, rfl, rfl, rfl⟩⟩
    · cases h
      exact ⟨rfl, rfl, .inr (.inr (.inr ⟨rfl, rfl⟩))⟩
  · -- build
    cases h
    exact ⟨rfl, rfl, .inr (.inl ⟨rfl, rfl, rfl, rfl⟩)⟩
  · -- fail
    cases h
    exact ⟨rfl, rfl, .inr (.inr (.inr ⟨rfl, rfl⟩))⟩
  · -- publish
    cases h
    exact ⟨rfl, rfl, .inr (.inr (.inr ⟨rfl, rfl⟩))⟩
  · -- send
    rename_i batch batches
    cases h
    exact ⟨rfl, rfl, .inr (.inr (.inl ⟨batches.flatten, rfl, rfl⟩))⟩
  · cases h

end CqServer
