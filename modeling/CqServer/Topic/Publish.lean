import CqServer.Topic.Indexed

/-!
# What a write leaves of the records

A payload denotes the key that `compute_key_from_map` reads off it; its columns are
committed under the key that `compute_key_with` reads off the converted values. Where
the two agree a publish is a change of that key's record alone. They need not: a
number that wraps in its column, or a null, is committed under another key, and a
vector without a key lands on row 0, whoever owns it. And a column the map does not
name keeps its cell when the key is live. A failed append of a publish leaves the
store as it was; a failed append of a delete comes after the store has changed.
-/

namespace CqServer

open Lib StoreState SlotTable

section Commit
variable [HostText] {σ : Schema} {keyCols : List σ.Col} {st : StoreState σ} {v : Values σ}

/-- A commit without a key writes the record that owns row 0. -/
theorem StoreState.commitValuesLocked_contents_none (hk : computeKeyWith v.vals keyCols = none)
    (now : Nat) (k : String) :
    (commitValuesLocked keyCols now st v).1.contents k =
      if st.table.keyToRow.lookup k = some 0 then some ((st.row 0).update v)
      else st.contents k := by
  rcases commitValuesLocked_cases keyCols now st v with
    ⟨k₁, r, hk₁, -⟩ | ⟨k₁, hk₁, -⟩ | ⟨-, htab, -⟩
  · cases hk.symm.trans hk₁
  · cases hk.symm.trans hk₁
  rw [contents, htab]
  cases hlk : st.table.keyToRow.lookup k with
  | none => split <;> simp [contents, SlotTable.view, hlk]
  | some r =>
    have hlt := st.table.slot_lt hlk
    rw [if_pos (Nat.zero_lt_of_lt hlt), contents]
    by_cases hr : r = 0
    · subst hr
      simp [SlotTable.view, SlotTable.modify, hlk]
    · simp [SlotTable.view, SlotTable.modify, hlk, hr]

end Commit

def LiveWrite.publishes : LiveWrite → Bool
  | .upsertMap .. | .deltaUpsertMap .. => true
  | .upsertMapBatch .. | .delete .. | .expire .. => false

namespace IndexedTopic

/-- The record of a live key, with the schema its row is of. -/
def record (t : IndexedTopic) (key : String) : Option (Σ σ : Schema, Row σ) :=
  (t.topic.state.contents key).map (Sigma.mk t.schema)

variable {cfg : TopicConfig} {indexColumns : List String} {subscriptions now : Nat}
  {appendOk : Bool} {t : IndexedTopic} {m : JsonMap} {k : String}

theorem record_discover (flat : Option JsonMap) :
    (t.discover indexColumns subscriptions flat).record k = t.record k := by
  rcases discover_cases indexColumns subscriptions t flat with heq | ⟨flat, hempty, heq⟩
  · rw [heq]
  rw [heq]
  cases hlk : t.topic.state.table.keyToRow.lookup k with
  | none => simp [record, contents, view, hlk, AnyTopic.discovered, StoreState.build,
      empty]
  | some r =>
    have hlt := t.topic.state.table.slot_lt hlk
    rw [hempty] at hlt
    cases hlt

section Calls
variable [HostText]

/-! ## Publishes -/

/-- The key that the converted columns of a map are committed under. -/
def committedKey (cfg : TopicConfig) (t : IndexedTopic) (m : JsonMap) : Option String :=
  computeKeyWith (Values.ofMap t.schema (flatView m)).vals (cfg.keyColIndices t.schema)

/-- The publish of a map writes the row of the key, if it is live: it is committed under it, or
under none and the key owns row 0. -/
def Writes (cfg : TopicConfig) (t : IndexedTopic) (m : JsonMap) (k : String) : Prop :=
  t.committedKey cfg m = some k ∨
    t.committedKey cfg m = none ∧ t.topic.state.table.keyToRow.lookup k = some 0

instance : Decidable (t.Writes cfg m k) := inferInstanceAs (Decidable (_ ∨ _))

variable {d : IndexedTopic} (hd : t.discover indexColumns subscriptions (some (flatView m)) = d)
  (hok : (upsertMap cfg now appendOk d.topic m).ok = true)

include hd hok

theorem record_upsertMap :
    (t.write cfg indexColumns subscriptions (.upsertMap now appendOk m)).record k =
      ((commitValuesLocked (cfg.keyColIndices d.schema) now d.topic.state
        (.ofMap d.schema (flatView m))).1.contents k).map (Sigma.mk d.schema) := by
  subst hd
  have hlog : ¬ (cfg.persist && !appendOk) = true := by
    intro hlog
    simp [upsertMap, writeStoreWithChanged, hlog] at hok
  simp only [record, write, LiveWrite.run, upsertMap, writeStoreWithChanged_state, if_neg hlog]
  rfl

theorem record_live {row : Row d.schema} (hrow : d.topic.state.contents k = some row) :
    (t.write cfg indexColumns subscriptions (.upsertMap now appendOk m)).record k =
      some ⟨d.schema, if d.Writes cfg m k then row.update (.ofMap d.schema (flatView m)) else row⟩ := by
  rw [record_upsertMap hd hok]
  cases hk : d.committedKey cfg m with
  | some committed =>
    have hwrites : d.Writes cfg m k ↔ k = committed := by simp [Writes, hk, eq_comm]
    rw [commitValuesLocked_contents hk]
    by_cases heq : k = committed
    · rw [if_pos heq, if_pos (hwrites.mpr heq), ← heq, hrow]
      rfl
    · rw [if_neg heq, if_neg (mt hwrites.mp heq), hrow]
      rfl
  | none =>
    have hwrites : d.Writes cfg m k ↔ d.topic.state.table.keyToRow.lookup k = some 0 := by
      simp [Writes, hk]
    rw [commitValuesLocked_contents_none hk]
    by_cases hzero : d.topic.state.table.keyToRow.lookup k = some 0
    · rw [contents, view_of_lookup hzero] at hrow
      cases hrow
      rw [if_pos hzero, if_pos (hwrites.mpr hzero)]
      rfl
    · rw [if_neg hzero, if_neg (mt hwrites.mp hzero), hrow]
      rfl

/-- **What a publish leaves of its record.** It holds the map's converted fields and
nulls elsewhere if and only if the live record it found, if any, was null in every
column the map does not name. -/
theorem record_replaced_iff (hk : d.committedKey cfg m = some k) :
    (∃ row, (t.write cfg indexColumns subscriptions (.upsertMap now appendOk m)).record k =
      some ⟨d.schema, row⟩ ∧ ∀ i, row.cells i =
        ((flatView m).get? (d.schema.columnName i)).elim (Value.nullOf (d.schema.columnType i))
          (Value.fromJson · (d.schema.columnType i))) ↔
    ∀ row, d.topic.state.contents k = some row → ∀ i,
      (flatView m).get? (d.schema.columnName i) = none →
        row.cells i = Value.nullOf (d.schema.columnType i) := by
  have hcells : ∀ old i, (upsertRow old (Values.ofMap d.schema (flatView m))).cells i =
      ((flatView m).get? (d.schema.columnName i)).elim
        (old.elim (Value.nullOf (d.schema.columnType i)) (·.cells i))
        (Value.fromJson · (d.schema.columnType i)) := by
    intro old i
    cases hget : (flatView m).get? (d.schema.columnName i) <;> simp [Values.ofMap, hget]
  rw [record_upsertMap hd hok, commitValuesLocked_contents hk, if_pos rfl]
  constructor
  · rintro ⟨row, hrow, hcell⟩ old hold i hnone
    cases hrow
    have hi := hcell i
    rw [hcells, hold, hnone] at hi
    exact hi
  · intro h
    refine ⟨_, rfl, fun i => ?_⟩
    rw [hcells]
    cases hnone : (flatView m).get? (d.schema.columnName i) with
    | some v => rfl
    | none =>
      cases hold : d.topic.state.contents k with
      | none => rfl
      | some old => exact h old hold i hnone

omit hd hok

/-! ## Failed appends -/

/-- The store, the keys, the free slots and the index are as they were, or the
store of a placeholder was and is empty. -/
def Untouched (t u : IndexedTopic) : Prop :=
  (⟨u.schema, u.indexed⟩ : Σ σ, IndexedState σ) = ⟨t.schema, t.indexed⟩ ∨
    t.topic.state.table.rowCount = 0 ∧ ∃ indexColumns, u.indexed = .build indexColumns u.schema

theorem write_eq_found {w : LiveWrite}
    (hnone : w.mutations cfg (t.discover indexColumns subscriptions w.discovers).topic = []) :
    (⟨_, (t.discover indexColumns subscriptions w.discovers).indexed⟩ : Σ σ, IndexedState σ) =
      ⟨_, (t.write cfg indexColumns subscriptions w).indexed⟩ := by
  have hstate := (w.run_state _).trans (congrArg (List.foldl _ _) hnone)
  simp [write, indexed, hnone, hstate]

theorem publish_failed {σ : Schema} {t : Topic σ} {w : LiveWrite} (hw : w.publishes = true)
    (hfail : (w.run cfg t).ok = false) : w.mutations cfg t = [] ∧ (w.run cfg t).events = [] := by
  cases w with
  | upsertMap now appendOk m =>
    cases hlog : cfg.persist && !appendOk <;>
      simp_all [LiveWrite.run, LiveWrite.mutations, upsertMap, writeStoreWithChanged]
  | deltaUpsertMap now appendOk m =>
    cases hread : deltaRead cfg t.state m with
    | none => simp [LiveWrite.run, LiveWrite.mutations, deltaUpsertMap, hread]
    | some d =>
      cases hlog : cfg.persist && !appendOk <;>
        simp_all [LiveWrite.run, LiveWrite.mutations, deltaUpsertMap, deltaCommit,
          writeStoreWithChanged]
  | upsertMapBatch | delete | expire => cases hw

theorem publish_untouched (t : IndexedTopic) {w : LiveWrite} (hw : w.publishes = true)
    (hfail : (w.run cfg (t.discover indexColumns subscriptions w.discovers).topic).ok = false) :
    Untouched t (t.write cfg indexColumns subscriptions w) := by
  have hnone := (publish_failed hw hfail).1
  rcases discover_cases indexColumns subscriptions t w.discovers with heq | ⟨m, hempty, heq⟩
  · refine .inl ?_
    rw [← write_eq_found hnone, heq]
  · refine .inr ⟨hempty, indexColumns, ?_⟩
    have hbuilt : ∀ p : Σ σ, IndexedState σ, p = ⟨_, .build indexColumns (Schema.discover m)⟩ →
        p.2 = .build indexColumns p.1 := by
      rintro _ rfl
      rfl
    refine hbuilt ⟨_, (t.write cfg indexColumns subscriptions w).indexed⟩ ?_
    rw [← write_eq_found hnone, heq]
    rfl

theorem delete_failed {σ : Schema} {t : Topic σ} (hfail : (delete cfg appendOk t k).ok = false) :
    (∃ r, t.state.table.keyToRow.lookup k = some r) ∧
      (delete cfg appendOk t k).topic.state.table.keyToRow.lookup k = none := by
  cases hrem : t.state.removeKey k with
  | none => simp [delete, hrem] at hfail
  | some p =>
    obtain ⟨hr, hst⟩ := removeKey_eq_some.mp hrem
    refine ⟨⟨p.2, hr⟩, ?_⟩
    simp only [delete_state, Mutation.apply, hrem, List.foldl_cons]
    simp [hst, lookup_remove]

/-- **A call that fails** leaves no trace if and only if it is a publish. -/
theorem failed_untouched_iff (t : IndexedTopic) {w : LiveWrite}
    (hsingle : ∀ now rows, w ≠ .upsertMapBatch now rows)
    (hfail : (w.run cfg (t.discover indexColumns subscriptions w.discovers).topic).ok = false) :
    (Untouched t (t.write cfg indexColumns subscriptions w) ∧
      (w.run cfg (t.discover indexColumns subscriptions w.discovers).topic).events = []) ↔
    w.publishes = true := by
  cases hw : w.publishes with
  | true => exact iff_of_true ⟨publish_untouched t hw hfail, (publish_failed hw hfail).2⟩ rfl
  | false =>
    refine iff_of_false (fun h => ?_) nofun
    have hdelete : ∃ appendOk key, t.write cfg indexColumns subscriptions w =
        t.write cfg indexColumns subscriptions (.delete appendOk key) ∧
          (delete cfg appendOk t.topic key).ok = false := by
      cases w with
      | upsertMap | deltaUpsertMap => cases hw
      | upsertMapBatch now rows => exact absurd rfl (hsingle now rows)
      | delete appendOk key => exact ⟨appendOk, key, rfl, hfail⟩
      | expire appendOk ttl sweepObservedAt key =>
        change (deleteIfStillExpired cfg appendOk t.topic ttl sweepObservedAt key).ok = false
          at hfail
        refine ⟨appendOk, key, ?_⟩
        cases hexp : stillExpired t.topic.state ttl sweepObservedAt key with
        | true =>
          rw [deleteIfStillExpired, if_pos hexp] at hfail
          exact ⟨by simp [write, discover, LiveWrite.run, LiveWrite.mutations, LiveWrite.discovers,
            deleteIfStillExpired, hexp], hfail⟩
        | false => simp [deleteIfStillExpired, hexp] at hfail
    obtain ⟨appendOk, key, hwrite, hfail⟩ := hdelete
    obtain ⟨⟨r, hr⟩, hgone⟩ := delete_failed hfail
    rcases h.1 with hsame | ⟨hempty, -⟩
    · have hlookup := congrArg (fun p : Σ σ, IndexedState σ => p.2.state.table.keyToRow.lookup key)
        hsame
      rw [hwrite] at hlookup
      cases (hgone.symm.trans hlookup).trans hr
    · have hlt := t.topic.state.table.slot_lt hr
      rw [hempty] at hlt
      cases hlt

end Calls

/-! ## A topic with one quote -/

section Quotes
open Quotes

open Unused

def once : IndexedTopic :=
  (new ["bid"] Quotes.schema).write config ["bid"] 0 (.upsertMap 1 true (full "A" 10 11))

/-- A full publish of a live key keeps the ask it does not name. -/
theorem unnamed_ask_stays :
    ((once.write config ["bid"] 0 (.upsertMap 2 true [("bid", num 12), ("sym", .string "A")])).record
      "A").map (·.2.getRowMap) = some (full "A" 12 11) := by
  decide +kernel

theorem record_replaced_whole :
    ∃ row, (once.write config ["bid"] 0 (.upsertMap 2 true (full "A" 12 13))).record "A" =
      some ⟨once.schema, row⟩ ∧ row.cells ask = .long 13 := by
  have hok : (upsertMap config 2 true once.topic (full "A" 12 13)).ok = true := by decide +kernel
  have hnamed : ∀ i : once.schema.Col,
      (flatView (full "A" 12 13)).get? (once.schema.columnName i) ≠ none := by decide +kernel
  have hkey : once.committedKey config (full "A" 12 13) = some "A" := by decide +kernel
  have hd : once.discover ["bid"] 0 (some (flatView (full "A" 12 13))) = once := rfl
  obtain ⟨row, hrow, hcells⟩ := (record_replaced_iff hd hok hkey).mpr
    fun row _ i hnone => absurd hnone (hnamed i)
  exact ⟨row, hrow, hcells ask⟩

/-- The append of a delete fails, and its key is gone all the same. -/
theorem failed_delete_removes : (LiveWrite.run config once.topic (.delete false "A")).ok = false ∧
    (once.record "A").isSome = true ∧
    (once.write config ["bid"] 0 (.delete false "A")).record "A" = none := by
  decide +kernel

theorem failed_untouched_publish :
    Untouched once (once.write config ["bid"] 0 (.upsertMap 2 false (full "A" 12 13))) :=
  ((failed_untouched_iff (w := .upsertMap 2 false (full "A" 12 13)) once nofun
    (by decide +kernel)).mpr rfl).1

end Quotes

end IndexedTopic

end CqServer
