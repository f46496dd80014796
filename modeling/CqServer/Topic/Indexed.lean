import CqServer.SecondaryIndex
import CqServer.Topic.Restore

/-!
# The store state with its secondary index

`commit_values_locked` and the removal of a key keep the key map, the free list,
the rows, the touch times and both index maps in step. `Represents` is what they
keep; every call of the write, replay and snapshot API changes the store through
these two mutations only (`LiveWrite.run_state`, `Delivery.run_state`).
-/

namespace CqServer

open Lib StoreState List Function SlotTable AnyTopic

variable {σ : Schema}

/-- `StoreState` with `secondary_index`. -/
structure IndexedState (σ : Schema) where
  state : StoreState σ
  index : SecondaryIndex σ

inductive Mutation (σ : Schema) where
  | commit (now : Nat) (v : Values σ)
  | remove (key : String)

section Mutations
variable [HostText]

variable (keyCols : List σ.Col)

def Mutation.apply (st : StoreState σ) : Mutation σ → StoreState σ
  | .commit now v => (st.commitValuesLocked keyCols now v).1
  | .remove key => ((st.removeKey key).map Prod.fst).getD st

def Mutation.HasKey : Mutation σ → Prop
  | .commit _ v => (computeKeyWith v.vals keyCols).isSome = true
  | .remove _ => True

namespace IndexedState

def build (indexColumns : List String) (σ : Schema) : IndexedState σ :=
  ⟨.build σ, .new (indexColumns.filterMap σ.indexOf)⟩

/-- `commit_values_locked` with its index maintenance: an updated row is moved
before the store changes, a new one is listed from the store. -/
def commitValuesLocked (now : Nat) (s : IndexedState σ) (v : Values σ) : IndexedState σ :=
  let st := (s.state.commitValuesLocked keyCols now v).1
  match computeKeyWith v.vals keyCols with
  | some key =>
    match s.state.table.keyToRow.lookup key with
    | some r => ⟨st, s.index.reindexRow (s.state.row r) r v⟩
    | none =>
      let r := s.state.table.nextSlot
      ⟨st, s.index.indexNewRowFromStore (st.row r) r⟩
  | none =>
    if 0 < s.state.table.rowCount then ⟨st, s.index.reindexRow (s.state.row 0) 0 v⟩
    else ⟨st, s.index.indexNewRowFromStore (st.row 0) 0⟩

def removeKey (s : IndexedState σ) (key : String) : Option (IndexedState σ) :=
  (s.state.removeKey key).map fun p => ⟨p.1, s.index.unindexRow (s.state.row p.2) p.2⟩

def mutate (s : IndexedState σ) : Mutation σ → IndexedState σ
  | .commit now v => s.commitValuesLocked keyCols now v
  | .remove key => (s.removeKey key).getD s

variable (keyCols : List σ.Col) (s : IndexedState σ)

theorem mutate_state (m : Mutation σ) :
    (s.mutate keyCols m).state = m.apply keyCols s.state := by
  cases m with
  | commit now v =>
    simp only [mutate, commitValuesLocked]
    split
    · split <;> rfl
    · split <;> rfl
  | remove key =>
    simp only [mutate, removeKey, Mutation.apply]
    cases s.state.removeKey key <;> rfl

theorem foldl_mutate_state (ms : List (Mutation σ)) :
    (ms.foldl (mutate keyCols) s).state = ms.foldl (Mutation.apply keyCols) s.state := by
  induction ms generalizing s with
  | nil => rfl
  | cons m ms ih =>
    rw [foldl_cons, foldl_cons, ih, mutate_state]

end IndexedState

/-! ## The representation invariant -/

/-- The key map, the free list, the rows, the touch times and the index agree. -/
structure Represents (s : IndexedState σ) : Prop where
  injective : ∀ k k' r, s.state.table.keyToRow.lookup k = some r →
    s.state.table.keyToRow.lookup k' = some r → k = k'
  disjoint : ∀ k r, s.state.table.keyToRow.lookup k = some r → r ∉ s.state.table.freeSlots
  nodup : s.state.table.freeSlots.Nodup
  slots : ∀ r, r < s.state.table.rowCount ↔ s.state.table.Live r ∨ r ∈ s.state.table.freeSlots
  free : ∀ r ∈ s.state.table.freeSlots, s.state.row r = Row.null
  unused : ∀ r, s.state.table.rowCount ≤ r → s.state.row r = Row.null
  keyed : Keyed keyCols s.state
  touched : ∀ r < s.state.table.rowCount, (s.state.lastTouched r).isSome = true
  index : s.index.Exact s.state.table.row

variable {keyCols : List σ.Col} {s : IndexedState σ}

theorem Represents.build (indexColumns : List String) (keyCols : List σ.Col) :
    Represents keyCols (.build indexColumns σ) where
  injective _ _ _ := (StoreState.build σ).table.slot_inj
  disjoint _ _ := (StoreState.build σ).table.free_unused
  nodup := .nil
  slots r := by simp [IndexedState.build, StoreState.build, empty, SlotTable.Live]
  free _ := nofun
  unused _ _ := rfl
  keyed := Keyed.build keyCols
  touched _ := nofun
  index := ⟨.new IxKey.fromValue_nullOf _, .new RangeKey.fromValue_nullOf _⟩

section
variable (h : Represents keyCols s)
include h

theorem Represents.nextSlot_null :
    s.state.row s.state.table.nextSlot = Row.null := by
  unfold nextSlot
  cases hf : s.state.table.freeSlots with
  | nil => exact h.unused _ le_rfl
  | cons r rest => exact h.free r (by simp [hf])

theorem Represents.update {v : Values σ} {k : String} {r : Nat}
    (hk : computeKeyWith v.vals keyCols = some k)
    (hr : s.state.table.keyToRow.lookup k = some r) (now : Nat) :
    Represents keyCols (s.commitValuesLocked keyCols now v) := by
  have hstate : (s.state.commitValuesLocked keyCols now v).1 =
      ⟨s.state.table.modify r (·.update v), Function.update s.state.lastTouched r (some now)⟩ := by
    simp [StoreState.commitValuesLocked, hk, hr]
  have hcommit : s.commitValuesLocked keyCols now v =
      ⟨⟨s.state.table.modify r (·.update v), Function.update s.state.lastTouched r (some now)⟩,
        s.index.reindexRow (s.state.row r) r v⟩ := by
    simp [IndexedState.commitValuesLocked, hk, hr, hstate]
  have hkeyed := h.keyed.commit hk now
  rw [hstate] at hkeyed
  rw [hcommit]
  refine ⟨fun _ _ _ => s.state.table.slot_inj, fun _ _ => s.state.table.free_unused, h.nodup,
    h.slots, ?_, ?_, hkeyed, ?_, ?_⟩
  · intro r' hr'
    have hne : r' ≠ r := fun heq => h.disjoint k r hr (heq ▸ hr')
    exact (update_of_ne hne _ _).trans (h.free r' hr')
  · intro r' hr'
    have hne : r' ≠ r := ((s.state.table.slot_lt hr).trans_le hr').ne'
    exact (Function.update_of_ne hne _ _).trans (h.unused r' hr')
  · intro r' hr'
    by_cases hne : r' = r
    · simp [hne]
    · dsimp only
      rw [update_of_ne hne]
      exact h.touched r' hr'
  · exact h.index.reindexRow (update_self ..) fun r' hne => update_of_ne hne ..

/-- **A commit of a new key**, to a freed slot or a fresh one. -/
theorem Represents.alloc {v : Values σ} {k : String} (hk : computeKeyWith v.vals keyCols = some k)
    (hr : s.state.table.keyToRow.lookup k = none) (now : Nat) :
    Represents keyCols (s.commitValuesLocked keyCols now v) := by
  let slot := s.state.table.nextSlot
  let table := s.state.table.alloc k (·.write v)
  have hstate : (s.state.commitValuesLocked keyCols now v).1 =
      ⟨table, Function.update s.state.lastTouched slot (some now)⟩ := by
    simp [StoreState.commitValuesLocked, hk, hr, table, slot]
  have hcommit : s.commitValuesLocked keyCols now v =
      ⟨⟨table, Function.update s.state.lastTouched slot (some now)⟩,
        s.index.indexNewRowFromStore (table.row slot) slot⟩ := by
    simp [IndexedState.commitValuesLocked, hk, hr, hstate, slot]
  have hkeyed := h.keyed.commit hk now
  rw [hstate] at hkeyed
  rw [hcommit]
  -- the new row count, and where the slot came from
  have hcount : ∀ r, r < table.rowCount ↔ r = slot ∨ r < s.state.table.rowCount := by
    intro r
    show r < (if s.state.table.freeSlots = [] then _ else _) ↔ r = s.state.table.nextSlot ∨ _
    unfold nextSlot
    cases hf : s.state.table.freeSlots with
    | nil =>
      simp only [if_true, headD_nil]
      omega
    | cons r₀ rest =>
      have hlt : r₀ < s.state.table.rowCount := s.state.table.free_lt (by simp [hf])
      exact (or_iff_right_of_imp fun heq => heq ▸ hlt).symm
  have hfree : ∀ r, r ∈ table.freeSlots ↔ r ∈ s.state.table.freeSlots ∧ r ≠ slot := by
    intro r
    show r ∈ s.state.table.freeSlots.tail ↔ _ ∧ r ≠ s.state.table.nextSlot
    have hnot := s.state.table.nextSlot_not_mem_tail
    unfold nextSlot at hnot ⊢
    cases hf : s.state.table.freeSlots with
    | nil => simp
    | cons r₀ rest =>
      rw [hf] at hnot
      constructor
      · intro hr
        exact ⟨mem_cons_of_mem _ hr, fun heq => hnot (heq ▸ hr)⟩
      · rintro ⟨hr, hne⟩
        exact (mem_cons.mp hr).resolve_left hne
  have hrow : ∀ r, r ≠ slot → table.row r = s.state.table.row r := fun r hne => update_of_ne hne ..
  refine ⟨fun _ _ _ => table.slot_inj, fun _ _ => table.free_unused, table.free_nodup,
    ?_, ?_, ?_, hkeyed, ?_, ?_⟩
  · intro r
    have hlive : table.Live r ↔ r = slot ∨ s.state.table.Live r := live_alloc hr _
    rw [hcount, hlive, hfree, h.slots r]
    tauto
  · intro r hmem
    obtain ⟨hmem, hne⟩ := (hfree r).mp hmem
    exact (hrow r hne).trans (h.free r hmem)
  · intro r hle
    have hnot : ¬ r < table.rowCount := not_lt.mpr hle
    rw [hcount, not_or, not_lt] at hnot
    exact (hrow r hnot.1).trans (h.unused r hnot.2)
  · intro r hlt
    by_cases hne : r = slot
    · simp [hne]
    · dsimp only
      rw [Function.update_of_ne hne]
      exact h.touched r (((hcount r).mp hlt).resolve_left hne)
  · exact h.index.indexNewRow h.nextSlot_null hrow

theorem Represents.remove {key : String} {r : Nat}
    (hr : s.state.table.keyToRow.lookup key = some r) :
    Represents keyCols ⟨⟨s.state.table.remove key Row.null, s.state.lastTouched⟩,
      s.index.unindexRow (s.state.row r) r⟩ := by
  have hkeyed := h.keyed.remove (removeKey_eq_some.mpr ⟨hr, rfl⟩)
  have hlive (r' : Nat) := live_remove hr (Row.null) (s := r')
  rw [remove_of_some hr] at hkeyed hlive ⊢
  have hrow : ∀ r', r' ≠ r → Function.update s.state.table.row r Row.null r' = s.state.row r' :=
    fun r' hne => update_of_ne hne ..
  refine ⟨fun _ _ _ => slot_inj _, fun _ _ => free_unused _, free_nodup _, ?_, ?_, ?_, hkeyed,
    h.touched, h.index.unindexRow (update_self ..) hrow⟩
  · intro r'
    refine (h.slots r').trans ?_
    rw [hlive]
    constructor
    · intro hr'
      by_cases heq : r' = r
      · exact .inr (mem_cons.mpr (.inl heq))
      · exact hr'.imp (fun hl => ⟨heq, hl⟩) (mem_cons_of_mem _)
    · rintro (⟨-, hl⟩ | hmem)
      · exact .inl hl
      · exact (mem_cons.mp hmem).imp_left (by rintro rfl; exact ⟨key, hr⟩)
  · intro r' hmem
    by_cases heq : r' = r
    · rw [heq]
      exact update_self ..
    · exact (hrow r' heq).trans (h.free r' ((mem_cons.mp hmem).resolve_left heq))
  · intro r' hle
    have hne : r' ≠ r := ((s.state.table.slot_lt hr).trans_le hle).ne'
    exact (hrow r' hne).trans (h.unused r' hle)

theorem Represents.mutate {m : Mutation σ} (hm : m.HasKey keyCols) :
    Represents keyCols (s.mutate keyCols m) := by
  cases m with
  | commit now v =>
    obtain ⟨k, hk⟩ := Option.isSome_iff_exists.mp hm
    cases hr : s.state.table.keyToRow.lookup k with
    | some r => exact h.update hk hr now
    | none => exact h.alloc hk hr now
  | remove key =>
    simp only [IndexedState.mutate, IndexedState.removeKey]
    cases hrem : s.state.removeKey key with
    | none => exact h
    | some p =>
      obtain ⟨st, r⟩ := p
      obtain ⟨hr, rfl⟩ := removeKey_eq_some.mp hrem
      exact h.remove hr

end

theorem Represents.mutateAll {ms : List (Mutation σ)} (h : Represents keyCols s)
    (hms : ∀ m ∈ ms, m.HasKey keyCols) :
    Represents keyCols (ms.foldl (IndexedState.mutate keyCols) s) := by
  induction ms generalizing s with
  | nil => exact h
  | cons m ms ih =>
    exact ih (h.mutate (hms m mem_cons_self)) fun m' hm' => hms m' (mem_cons_of_mem _ hm')

/-! ## The API as mutations -/

section Api
variable {cfg : TopicConfig}

/-- The commits of a batch, up to the first failed append. -/
def batchMutations (σ : Schema) (cfg : TopicConfig) (now : Nat) :
    List (JsonMap × Bool) → List (Mutation σ)
  | [] => []
  | (m, appendOk) :: rest =>
    if cfg.persist && !appendOk then []
    else .commit now (.ofMap σ (flatView m)) :: batchMutations σ cfg now rest

def LiveWrite.mutations (cfg : TopicConfig) (t : Topic σ) : LiveWrite → List (Mutation σ)
  | .upsertMap now appendOk m =>
    if cfg.persist && !appendOk then [] else [.commit now (.ofMap σ (flatView m))]
  | .upsertMapBatch now rows => batchMutations σ cfg now rows
  | .deltaUpsertMap now appendOk m =>
    match deltaRead cfg t.state m with
    | none => []
    | some d => if cfg.persist && !appendOk then [] else [.commit now d.values]
  | .delete _ key => [.remove key]
  | .expire _ ttl sweepObservedAt key =>
    if stillExpired t.state ttl sweepObservedAt key then [.remove key] else []

theorem writeStoreWithChanged_state (now : Nat) (appendOk : Bool) (t : Topic σ) (v : Values σ)
    (key : String) (payload : JsonMap) (format : PayloadFormat) (cols : Option (List σ.Col)) :
    (writeStoreWithChanged cfg now appendOk t v key payload format cols).topic.state =
      (if cfg.persist && !appendOk then [] else [Mutation.commit now v]).foldl
        (Mutation.apply (cfg.keyColIndices σ)) t.state := by
  unfold writeStoreWithChanged
  cases cfg.persist && !appendOk <;> rfl

theorem delete_state (appendOk : Bool) (t : Topic σ) (key : String) :
    (delete cfg appendOk t key).topic.state =
      [Mutation.remove key].foldl (Mutation.apply (cfg.keyColIndices σ)) t.state := by
  simp only [delete, foldl_cons, Mutation.apply]
  cases t.state.removeKey key with
  | none => rfl
  | some p =>
    dsimp only
    split <;> rfl

theorem upsertMapBatch_state (now : Nat) (t : Topic σ) (rows : List (JsonMap × Bool)) :
    (upsertMapBatch cfg now t rows).topic.state =
      (batchMutations σ cfg now rows).foldl (Mutation.apply (cfg.keyColIndices σ)) t.state := by
  induction rows generalizing t with
  | nil => rfl
  | cons row rows ih =>
    obtain ⟨m, appendOk⟩ := row
    have hfirst : (upsertMap cfg now appendOk t m).topic.state =
        (if cfg.persist && !appendOk then []
          else [Mutation.commit now (.ofMap σ (flatView m))]).foldl
          (Mutation.apply (cfg.keyColIndices σ)) t.state := writeStoreWithChanged_state ..
    cases hb : cfg.persist && !appendOk with
    | true =>
      have hok : (upsertMap cfg now appendOk t m).ok = false := by
        simp [upsertMap, writeStoreWithChanged, hb]
      rw [hb] at hfirst
      simp only [upsertMapBatch, batchMutations, hb, hok]
      exact hfirst
    | false =>
      have hok : (upsertMap cfg now appendOk t m).ok = true := by
        simp [upsertMap, writeStoreWithChanged, hb]
      rw [hb] at hfirst
      simp only [upsertMapBatch, batchMutations, hb, hok, Bool.false_eq_true, if_false, if_true]
      rw [ih]
      exact congrArg (fun st => foldl _ st (batchMutations σ cfg now rows)) hfirst

theorem LiveWrite.run_state (t : Topic σ) (w : LiveWrite) : (w.run cfg t).topic.state =
      (w.mutations cfg t).foldl (Mutation.apply (cfg.keyColIndices σ)) t.state := by
  cases w with
  | upsertMap now appendOk m => exact writeStoreWithChanged_state ..
  | upsertMapBatch now rows => exact upsertMapBatch_state now t rows
  | deltaUpsertMap now appendOk m =>
    simp only [LiveWrite.run, LiveWrite.mutations, CqServer.deltaUpsertMap]
    cases deltaRead cfg t.state m with
    | none => rfl
    | some d => exact writeStoreWithChanged_state ..
  | delete appendOk key => exact delete_state appendOk t key
  | expire appendOk ttl sweepObservedAt key =>
    simp only [LiveWrite.run, LiveWrite.mutations, deleteIfStillExpired]
    split
    · exact delete_state appendOk t key
    · rfl

/-- The map a delivery shows to the discovery. -/
def Delivery.discovers (d : Delivery) : Option JsonMap :=
  match d.change with
  | .upsert m => some (flatView m)
  | .delta m => some (flatView m)
  | .delete _ => none

/-- The delivered entry's call under a settled schema. -/
def Delivery.run (cfg : TopicConfig) (now : Nat) (t : Topic σ) (d : Delivery) : Topic σ :=
  match d.change with
  | .upsert m => t.replayUpsertMapOrigin cfg now d.origin d.sequence m
  | .delta m => t.replayDeltaMapOrigin cfg now d.origin d.sequence m
  | .delete key => t.replayDeleteOrigin cfg d.origin d.sequence key

def Delivery.mutations (cfg : TopicConfig) (now : Nat) (t : Topic σ) (d : Delivery) :
    List (Mutation σ) :=
  match d.change with
  | .upsert m => [.commit now (.ofMap σ (flatView m))]
  | .delta m =>
    match deltaKey cfg (flatView m) with
    | none => []
    | some key => [.commit now (.merge σ (flatView m) (t.state.contents key))]
  | .delete key => [.remove key]

theorem Delivery.run_state {t : Topic σ} {d : Delivery}
    (hnew : t.replayIsDuplicate cfg d.origin d.sequence = false) (now : Nat) :
    (d.run cfg now t).state =
      (d.mutations cfg now t).foldl (Mutation.apply (cfg.keyColIndices σ)) t.state := by
  unfold Delivery.run Delivery.mutations
  cases d.change with
  | upsert m =>
    simp only [Topic.replayUpsertMapOrigin, hnew]
    exact Topic.noteApplied_state ..
  | delta m =>
    simp only [Topic.replayDeltaMapOrigin, hnew]
    cases deltaKey cfg (flatView m) with
    | none => rfl
    | some key => exact Topic.noteApplied_state ..
  | delete key =>
    simp only [Topic.replayDeleteOrigin, hnew, foldl_cons, Mutation.apply]
    cases t.state.removeKey key with
    | none | some p => exact Topic.noteApplied_state ..

end Api

end Mutations

/-! ## Topics with an index -/

structure IndexedTopic where
  schema : Schema
  topic : Topic schema
  index : SecondaryIndex schema

namespace IndexedTopic

def forget (t : IndexedTopic) : AnyTopic := ⟨t.schema, t.topic⟩

def indexed (t : IndexedTopic) : IndexedState t.schema := ⟨t.topic.state, t.index⟩

def new (indexColumns : List String) (σ : Schema) : IndexedTopic :=
  ⟨σ, .new σ, (IndexedState.build indexColumns σ).index⟩

/-- Discovery builds the index anew, with the store. -/
def discover (indexColumns : List String) (subscriptions : Nat) (t : IndexedTopic) :
    Option JsonMap → IndexedTopic
  | none => t
  | some m =>
    if t.schema.isPlaceholder ∧ t.topic.state.table.rowCount = 0 ∧ subscriptions = 0 ∧ m ≠ [] then
      ⟨Schema.discover m, (t.forget.discovered m).2, (IndexedState.build indexColumns _).index⟩
    else t

section
variable (indexColumns : List String) (subscriptions : Nat) (t : IndexedTopic)
  (flat : Option JsonMap)

/-- Discovery happens on an empty store only, and leaves an empty one. -/
theorem discover_cases : t.discover indexColumns subscriptions flat = t ∨
      ∃ m, t.topic.state.table.rowCount = 0 ∧ t.discover indexColumns subscriptions flat =
        ⟨Schema.discover m, (t.forget.discovered m).2, (IndexedState.build indexColumns _).index⟩ := by
  cases flat with
  | none => exact .inl rfl
  | some m =>
    by_cases h : t.schema.isPlaceholder ∧ t.topic.state.table.rowCount = 0 ∧ subscriptions = 0 ∧
        m ≠ []
    · exact .inr ⟨m, h.2.1, if_pos h⟩
    · exact .inl (if_neg h)

theorem forget_discover :
    (t.discover indexColumns subscriptions flat).forget = t.forget.discover subscriptions flat := by
  cases flat with
  | none => rfl
  | some m =>
    by_cases h : t.schema.isPlaceholder ∧ t.topic.state.table.rowCount = 0 ∧ subscriptions = 0 ∧
        m ≠ []
    · rw [show t.discover indexColumns subscriptions (some m) = _ from if_pos h]
      exact (if_pos h).symm
    · rw [show t.discover indexColumns subscriptions (some m) = t from if_neg h]
      exact (if_neg h).symm

end

section System
variable [HostText] {cfg : TopicConfig} {indexColumns : List String}

def write (cfg : TopicConfig) (indexColumns : List String) (subscriptions : Nat)
    (t : IndexedTopic) (w : LiveWrite) : IndexedTopic :=
  let d := t.discover indexColumns subscriptions w.discovers
  { schema := d.schema
    topic := (w.run cfg d.topic).topic
    index := ((w.mutations cfg d.topic).foldl (IndexedState.mutate (cfg.keyColIndices _))
      d.indexed).index }

def replay (cfg : TopicConfig) (indexColumns : List String) (subscriptions now : Nat)
    (t : IndexedTopic) (d : Delivery) : IndexedTopic :=
  if t.topic.replayIsDuplicate cfg d.origin d.sequence then t
  else
    let u := t.discover indexColumns subscriptions d.discovers
    { schema := u.schema
      topic := d.run cfg now u.topic
      index := ((d.mutations cfg now u.topic).foldl (IndexedState.mutate (cfg.keyColIndices _))
        u.indexed).index }

def applySnapshotRow (cfg : TopicConfig) (indexColumns : List String) (subscriptions now : Nat)
    (t : IndexedTopic) (m : JsonMap) : IndexedTopic :=
  let d := t.discover indexColumns subscriptions (some (flatView m))
  { schema := d.schema
    topic := d.topic.applySnapshotRow cfg now m
    index := (d.indexed.mutate (cfg.keyColIndices _)
      (.commit now (.ofMap d.schema (flatView m)))).index }

/-- The last part of `apply_snapshot`: the marks. -/
def applySnapshotMarks (t : IndexedTopic) (snap : SowSnapshot) : IndexedTopic :=
  let highwater := snap.originHighwater.entries.foldl
    (fun hw e => hw.insert e.1 (max ((hw.lookup e.1).getD 0) e.2)) t.topic.replicatedHighwater
  { t with topic := { t.topic with replicatedHighwater := highwater }.bumpSequenceTo snap.sequence }

inductive Move where
  | write (subscriptions : Nat) (w : LiveWrite)
  | deliver (subscriptions now : Nat) (d : Delivery)
  | snapshotRow (subscriptions now : Nat) (m : JsonMap)
  | snapshotMarks (snap : SowSnapshot)

def step (cfg : TopicConfig) (indexColumns : List String) (t : IndexedTopic) :
    Move → Option IndexedTopic
  | .write subscriptions w => some (t.write cfg indexColumns subscriptions w)
  | .deliver subscriptions now d => some (t.replay cfg indexColumns subscriptions now d)
  | .snapshotRow subscriptions now m =>
    some (t.applySnapshotRow cfg indexColumns subscriptions now m)
  | .snapshotMarks snap => some (t.applySnapshotMarks snap)

/-- Every converted vector of the call has a key. -/
def Ok (cfg : TopicConfig) (indexColumns : List String) (t : IndexedTopic) : Move → Prop
  | .write subscriptions w =>
    let d := t.discover indexColumns subscriptions w.discovers
    ∀ m ∈ w.mutations cfg d.topic, m.HasKey (cfg.keyColIndices _)
  | .deliver subscriptions now d =>
    let u := t.discover indexColumns subscriptions d.discovers
    t.topic.replayIsDuplicate cfg d.origin d.sequence = false →
      ∀ m ∈ d.mutations cfg now u.topic, m.HasKey (cfg.keyColIndices _)
  | .snapshotRow subscriptions now m =>
    let d := t.discover indexColumns subscriptions (some (flatView m))
    (Mutation.commit now (.ofMap d.schema (flatView m))).HasKey (cfg.keyColIndices _)
  | .snapshotMarks _ => True

def Inv (cfg : TopicConfig) (t : IndexedTopic) : Prop :=
  Represents (cfg.keyColIndices t.schema) t.indexed

theorem Inv.discover {t : IndexedTopic} (h : Inv cfg t) (indexColumns : List String)
    (subscriptions : Nat) (flat : Option JsonMap) :
    Inv cfg (t.discover indexColumns subscriptions flat) := by
  rcases discover_cases indexColumns subscriptions t flat with heq | ⟨m, -, heq⟩
  · rwa [heq]
  · rw [heq]
    exact Represents.build indexColumns _

theorem Inv.mutateAll {t : IndexedTopic} (h : Inv cfg t) {u : Topic t.schema}
    {ms : List (Mutation t.schema)} (hms : ∀ m ∈ ms, m.HasKey (cfg.keyColIndices t.schema))
    (hu : u.state = ms.foldl (Mutation.apply (cfg.keyColIndices t.schema)) t.topic.state) :
    Inv cfg ⟨t.schema, u, (ms.foldl (IndexedState.mutate (cfg.keyColIndices _)) t.indexed).index⟩ := by
  have hall := Represents.mutateAll h hms
  have hstate : (ms.foldl (IndexedState.mutate (cfg.keyColIndices _)) t.indexed).state = u.state :=
    (IndexedState.foldl_mutate_state _ _ _).trans hu.symm
  show Represents _ ⟨u.state, _⟩
  rw [← hstate]
  exact hall

theorem Inv.step {t t' : IndexedTopic} {m : Move} (h : Inv cfg t) (hok : Ok cfg indexColumns t m)
    (hstep : step cfg indexColumns t m = some t') : Inv cfg t' := by
  cases m with
  | write subscriptions w =>
    cases hstep
    exact (h.discover indexColumns subscriptions w.discovers).mutateAll hok (w.run_state _)
  | deliver subscriptions now d =>
    cases hstep
    unfold replay
    split
    · exact h
    rename_i hdup
    have hnew : t.topic.replayIsDuplicate cfg d.origin d.sequence = false := by simpa using hdup
    refine (h.discover indexColumns subscriptions d.discovers).mutateAll (hok hnew) ?_
    refine Delivery.run_state ?_ now
    -- discovery leaves the watermarks as they are
    have hmarks := discover_watermarks subscriptions t.forget d.discovers
    rw [← forget_discover indexColumns] at hmarks
    exact (isDuplicate_congr hmarks.applied hmarks.highwater _ _).trans hnew
  | snapshotRow subscriptions now m =>
    cases hstep
    have hone : ∀ m' ∈ [Mutation.commit now (.ofMap
        (t.discover indexColumns subscriptions (some (flatView m))).schema (flatView m))],
        m'.HasKey (cfg.keyColIndices _) := by
      intro m' hm'
      rw [mem_singleton.mp hm']
      exact hok
    exact (h.discover indexColumns subscriptions (some (flatView m))).mutateAll hone rfl
  | snapshotMarks snap =>
    cases hstep
    exact h

/-- **The representation invariant** holds at every point of every run of the
write, replay and snapshot calls whose vectors all have a key. -/
theorem runs_represent {σ₀ : Schema} {t : IndexedTopic} {moves : List Move}
    (hrun : Run (step cfg indexColumns) (Ok cfg indexColumns) (new indexColumns σ₀) moves t) :
    Represents (cfg.keyColIndices t.schema) t.indexed :=
  hrun.invariant (P := Inv cfg) (fun _ _ _ hi hok hst => hi.step hok hst)
    (Represents.build indexColumns _)

end System

section Quotes
open Quotes

open Unused

instance {σ : Schema} (keyCols : List σ.Col) : (m : Mutation σ) → Decidable (m.HasKey keyCols)
  | .commit _ v => inferInstanceAs (Decidable ((computeKeyWith v.vals keyCols).isSome = true))
  | .remove _ => isTrue trivial

instance (cfg : TopicConfig) (indexColumns : List String) (t : IndexedTopic) :
    (m : Move) → Decidable (Ok cfg indexColumns t m)
  | .write subscriptions w => inferInstanceAs (Decidable (∀ m ∈ w.mutations cfg
      (t.discover indexColumns subscriptions w.discovers).topic, m.HasKey (cfg.keyColIndices _)))
  | .deliver subscriptions now d => inferInstanceAs (Decidable
      (t.topic.replayIsDuplicate cfg d.origin d.sequence = false → ∀ m ∈ d.mutations cfg now
        (t.discover indexColumns subscriptions d.discovers).topic,
        m.HasKey (cfg.keyColIndices _)))
  | .snapshotRow subscriptions now m => inferInstanceAs (Decidable ((Mutation.commit now (.ofMap
      (t.discover indexColumns subscriptions (some (flatView m))).schema (flatView m))).HasKey
        (cfg.keyColIndices _)))
  | .snapshotMarks _ => isTrue trivial

/-- A snapshot row, publishes, a delta that moves a row in the index, a delete and
the reuse of its slot. -/
def reused : List Move :=
  [.snapshotRow 0 0 (full "A" 10 11), .write 0 (.upsertMap 1 true (full "B" 20 21)),
    .write 0 (.deltaUpsertMap 2 true [("bid", num 12), ("sym", .string "A")]),
    .write 0 (.delete true "B"), .deliver 0 3 ⟨"b", 1, .upsert (full "C" 12 31)⟩]

theorem runs_represent_reused : ∃ t,
    Run (step config ["bid"]) (Ok config ["bid"]) (new ["bid"] Quotes.schema) reused t ∧
      t.topic.state.table.rowCount = 2 ∧
      t.index.byCol.entries.map (fun e => e.2.rows (.long 12)) = [{0, 1}] ∧
      Represents (config.keyColIndices t.schema) t.indexed := by
  refine Run.exists_of_check (fun t => t.topic.state.table.rowCount = 2 ∧
      t.index.byCol.entries.map (fun e => e.2.rows (.long 12)) = [{0, 1}])
    (by decide +kernel) fun t hrun ⟨hcount, hrows⟩ => ?_
  exact ⟨hcount, hrows, runs_represent hrun⟩

end Quotes

end IndexedTopic

end CqServer
