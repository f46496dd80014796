import CqServer.Topic.State
import CqServer.TxLog.Frame

/-!
# The live write paths

`upsert_map`, `upsert_map_batch`, `delta_upsert_map`, `delete` and the TTL
delete. Each allocates its sequence, appends to the log, changes the store and
emits its event while it holds the topic's write lock. A delta publish alone
takes two locks: it merges under the read lock and commits the merged image
under a later write lock, so `deltaRead` and the commit are two steps.

A log append can fail; whether it does is an argument (`appendOk`). A failed
publish has used up its sequence and changed nothing else, a failed delete has
already changed the store.
-/

namespace CqServer

open Lib

variable {σ : Schema}

inductive MutationKind where
  | upsert
  | delete
  deriving DecidableEq, Repr

/-- `MutationEvent`; `changedCols = none` stands for every column. -/
structure MutationEvent (σ : Schema) where
  row : Nat
  sequence : Nat
  kind : MutationKind
  changedCols : Option (List σ.Col)
  deriving DecidableEq, Repr

/-- A log entry of one topic; no payload is a tombstone. -/
structure LogEntry where
  sequence : Nat
  key : String
  origin : String
  payload : Option JsonMap
  format : PayloadFormat
  deriving DecidableEq

/-- The mutable part of `Topic` that writes and replays touch. -/
structure Topic (σ : Schema) where
  state : StoreState σ
  nextSequence : Nat
  lastAppliedSequence : Nat
  replicatedHighwater : AList (fun _ : String => Nat)

def Topic.new (σ : Schema) : Topic σ := ⟨.build σ, 0, 0, ∅⟩

structure Outcome (σ : Schema) where
  topic : Topic σ
  entries : List LogEntry
  events : List (MutationEvent σ)
  ok : Bool

/-- A topic together with the schema in force. -/
abbrev AnyTopic := Σ σ : Schema, Topic σ

/-- `maybe_discover_schema`: a placeholder topic without rows or subscribers
takes its columns from the published map. -/
def maybeDiscoverSchema (subscriptions : Nat) (t : AnyTopic) (flat : JsonMap) : AnyTopic :=
  if t.1.isPlaceholder ∧ t.2.state.table.rowCount = 0 ∧ subscriptions = 0 ∧ flat ≠ [] then
    ⟨Schema.discover flat,
      { state := .build _
        nextSequence := t.2.nextSequence
        lastAppliedSequence := t.2.lastAppliedSequence
        replicatedHighwater := t.2.replicatedHighwater }⟩
  else t

section Writes
variable [HostText]

/-! ## Full publishes -/

variable (cfg : TopicConfig)

def writeStoreWithChanged (now : Nat) (appendOk : Bool) (t : Topic σ) (v : Values σ) (key : String)
    (payload : JsonMap) (format : PayloadFormat) (changedCols : Option (List σ.Col)) : Outcome σ :=
  let seq := t.nextSequence + 1
  if cfg.persist && !appendOk then
    { topic := { t with nextSequence := seq }, entries := [], events := [], ok := false }
  else
    let c := t.state.commitValuesLocked (cfg.keyColIndices σ) now v
    { topic := { t with state := c.1, nextSequence := seq }
      entries := if cfg.persist then [⟨seq, key, cfg.originId, some payload, format⟩] else []
      events := [⟨c.2, seq, .upsert, changedCols⟩]
      ok := true }

variable {cfg} in
theorem writeStoreWithChanged_logged (hpersist : cfg.persist = true) (now : Nat) (t : Topic σ)
    (v : Values σ) (key : String) (payload : JsonMap) (format : PayloadFormat)
    (changedCols : Option (List σ.Col)) :
    writeStoreWithChanged cfg now true t v key payload format changedCols =
      let c := t.state.commitValuesLocked (cfg.keyColIndices σ) now v
      { topic := { t with state := c.1, nextSequence := t.nextSequence + 1 }
        entries := [⟨t.nextSequence + 1, key, cfg.originId, some payload, format⟩]
        events := [⟨c.2, t.nextSequence + 1, .upsert, changedCols⟩]
        ok := true } := by
  simp [writeStoreWithChanged, hpersist]

/-- `upsert_map`. A payload that gives no key is journalled under `""`. -/
def upsertMap (now : Nat) (appendOk : Bool) (t : Topic σ) (m : JsonMap) : Outcome σ :=
  let flat := flatView m
  let key := (computeKeyFromMap cfg flat).getD ""
  writeStoreWithChanged cfg now appendOk t (.ofMap σ flat) key flat .json none

/-- `upsert_map_batch`: one row after the other under one lock, up to the first
failed append. -/
def upsertMapBatch (cfg : TopicConfig) (now : Nat) :
    Topic σ → List (JsonMap × Bool) → Outcome σ
  | t, [] => { topic := t, entries := [], events := [], ok := true }
  | t, (m, appendOk) :: rest =>
    let o := upsertMap cfg now appendOk t m
    if o.ok then
      let o' := upsertMapBatch cfg now o.topic rest
      { o' with entries := o.entries ++ o'.entries, events := o.events ++ o'.events }
    else o

/-! ## Delta publishes -/

structure DeltaImage (σ : Schema) where
  values : Values σ
  key : String
  payload : JsonMap
  format : PayloadFormat
  changedCols : List σ.Col

/-- The key a delta is looked up under; a keyed topic refuses a payload without
its key fields (`MissingKeyFields`). -/
def deltaKey (flat : JsonMap) : Option String :=
  match computeKeyFromMap cfg flat with
  | some k => some k
  | none => if cfg.keyFields = [] then some "" else none

/-- The merged row the default journalling writes: every column, nulls as
explicit JSON nulls. -/
def mergedPayload (v : Values σ) : JsonMap :=
  σ.cols.foldl (fun m i => m.insert (σ.columnName i) (v.vals i).toJson) []

/-- The columns a published map mentions. -/
def mentionedCols (σ : Schema) (flat : JsonMap) : List σ.Col :=
  σ.cols.filter fun i => (flat.get? (σ.columnName i)).isSome

/-- The read phase of `delta_upsert_map`, under the read lock. -/
def deltaRead (st : StoreState σ) (m : JsonMap) : Option (DeltaImage σ) :=
  let flat := flatView m
  (deltaKey cfg flat).map fun key =>
    let values := Values.merge σ flat (st.contents key)
    { values
      key
      payload := if cfg.sparseDeltaTxlog then flat else mergedPayload values
      format := if cfg.sparseDeltaTxlog then .jsonDelta else .json
      changedCols := mentionedCols σ flat }

/-- The write phase of `delta_upsert_map`. -/
def deltaCommit (now : Nat) (appendOk : Bool) (t : Topic σ) (d : DeltaImage σ) : Outcome σ :=
  writeStoreWithChanged cfg now appendOk t d.values d.key d.payload d.format
    (some d.changedCols)

/-- `delta_upsert_map` with no other write between its two phases. -/
def deltaUpsertMap (now : Nat) (appendOk : Bool) (t : Topic σ) (m : JsonMap) : Outcome σ :=
  match deltaRead cfg t.state m with
  | some d => deltaCommit cfg now appendOk t d
  | none => { topic := t, entries := [], events := [], ok := false }

end Writes

/-- `delete`: the store changes before the append is tried. -/
def delete (cfg : TopicConfig) (appendOk : Bool) (t : Topic σ) (key : String) : Outcome σ :=
  match t.state.removeKey key with
  | none => { topic := t, entries := [], events := [], ok := true }
  | some (st, row) =>
    let seq := t.nextSequence + 1
    let t' := { t with state := st, nextSequence := seq }
    if cfg.persist && !appendOk then
      { topic := t', entries := [], events := [], ok := false }
    else
      { topic := t'
        entries := if cfg.persist then [⟨seq, key, cfg.originId, none, .json⟩] else []
        events := [⟨row, seq, .delete, none⟩]
        ok := true }

theorem delete_logged {cfg : TopicConfig} (hpersist : cfg.persist = true) {t : Topic σ}
    {key : String} {st : StoreState σ} {row : Nat} (h : t.state.removeKey key = some (st, row)) :
    delete cfg true t key =
      { topic := { t with state := st, nextSequence := t.nextSequence + 1 }
        entries := [⟨t.nextSequence + 1, key, cfg.originId, none, .json⟩]
        events := [⟨row, t.nextSequence + 1, .delete, none⟩]
        ok := true } := by
  simp [delete, h, hpersist]

/-- The re-check of `delete_if_still_expired`: the row has not been written
since the sweep, and had been idle for the TTL when the sweep saw it. -/
def stillExpired (st : StoreState σ) (ttl sweepObservedAt : Nat) (key : String) : Bool :=
  match st.table.keyToRow.lookup key with
  | none => false
  | some r =>
    match st.lastTouched r with
    | none => false
    | some touched => touched ≤ sweepObservedAt && ttl ≤ sweepObservedAt - touched

def deleteIfStillExpired (cfg : TopicConfig) (appendOk : Bool) (t : Topic σ)
    (ttl sweepObservedAt : Nat) (key : String) : Outcome σ :=
  if stillExpired t.state ttl sweepObservedAt key then delete cfg appendOk t key
  else { topic := t, entries := [], events := [], ok := true }

namespace Quotes

def schema : Schema := ⟨[⟨"sym", .string⟩, ⟨"bid", .long⟩, ⟨"ask", .long⟩]⟩

def config : TopicConfig := { keyFields := ["sym"] }

theorem distinct : schema.Distinct := by decide

abbrev bid : schema.Col := ⟨1, by decide⟩
abbrev ask : schema.Col := ⟨2, by decide⟩

def num (n : Nat) : Json := .number (.posInt (UInt64.ofNat n))

def full (s : String) (b a : Nat) : JsonMap :=
  [("ask", num a), ("bid", num b), ("sym", .string s)]

end Quotes

end CqServer
