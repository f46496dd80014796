import CqServer.Topic.Write
import CqServer.Lib.Run

/-!
# Replaying the log

`replay_upsert_map_origin`, `replay_delta_map_origin` and
`replay_delete_origin`, as recovery drives them, and what replaying a live
topic's own log gives.

A replayed publish converts its payload again and commits it as the live one
did, so the replica goes through the same slot tables as the live topic
(`Shadows`), as long as each payload leads to the commit it was written for. For
a full publish, a sparse delta and a tombstone it does. A delta publish that is
journalled as the merged row does so only if the columns the merge left out are
null in the row the commit updates: the journal has explicit nulls there, which
the replay writes and the live commit did not (`replay_nulls_merged_column`).
-/

namespace CqServer

open Lib StoreState List SlotTable

variable {σ : Schema}

/-! ## The replay paths -/

namespace Topic

def bumpSequenceTo (t : Topic σ) (seq : Nat) : Topic σ :=
  { t with
    nextSequence := max t.nextSequence seq
    lastAppliedSequence := max t.lastAppliedSequence seq }

/-- Own and legacy entries share one sequence space. -/
def ownOrigin (cfg : TopicConfig) (origin : String) : Bool := origin = "" || origin = cfg.originId

variable (cfg : TopicConfig) (t : Topic σ) (origin : String)

def replayIsDuplicate (origin : String) (seq : Nat) : Bool :=
  if ownOrigin cfg origin then seq ≤ t.lastAppliedSequence && 0 < t.lastAppliedSequence
  else (t.replicatedHighwater.lookup origin).any fun hw => seq ≤ hw

def replayNoteApplied (origin : String) (seq : Nat) : Topic σ :=
  if ownOrigin cfg origin then t.bumpSequenceTo seq
  else
    let hw := (t.replicatedHighwater.lookup origin).getD 0
    { t with replicatedHighwater := t.replicatedHighwater.insert origin (max hw seq) }

@[simp] theorem noteApplied_state (seq : Nat) :
    (t.replayNoteApplied cfg origin seq).state = t.state := by
  unfold replayNoteApplied
  split <;> rfl

/-- The highest sequence of an origin that the topic has applied. -/
def mark (origin : String) : Nat :=
  if ownOrigin cfg origin then t.lastAppliedSequence
  else (t.replicatedHighwater.lookup origin).getD 0

theorem isDuplicate_eq_mark {cfg : TopicConfig} (t : Topic σ) (origin : String) {seq : Nat}
    (hpos : 0 < seq) :
    t.replayIsDuplicate cfg origin seq = decide (seq ≤ t.mark cfg origin) := by
  unfold replayIsDuplicate mark
  by_cases hown : ownOrigin cfg origin = true
  · rw [if_pos hown, if_pos hown]
    by_cases hle : seq ≤ t.lastAppliedSequence
    · have : 0 < t.lastAppliedSequence := by omega
      simp [this]
    · simp [hle]
  · rw [if_neg hown, if_neg hown]
    cases t.replicatedHighwater.lookup origin with
    | none => simp [Nat.pos_iff_ne_zero.mp hpos]
    | some hw => simp

@[simp] theorem mark_noteApplied (seq : Nat) :
    (t.replayNoteApplied cfg origin seq).mark cfg origin = max (t.mark cfg origin) seq := by
  unfold replayNoteApplied mark
  by_cases hown : ownOrigin cfg origin = true
  · simp [hown, bumpSequenceTo]
  · simp [hown]

section Replay
variable [HostText]

/-- `write_store_replay`: commit without a log entry or an event. -/
def writeStoreReplay (cfg : TopicConfig) (now : Nat) (t : Topic σ) (v : Values σ) : Topic σ :=
  { t with state := (t.state.commitValuesLocked (cfg.keyColIndices σ) now v).1 }

def replayUpsertMapOrigin (cfg : TopicConfig) (now : Nat) (t : Topic σ) (origin : String)
    (seq : Nat) (m : JsonMap) : Topic σ :=
  if t.replayIsDuplicate cfg origin seq then t
  else (t.writeStoreReplay cfg now (.ofMap σ (flatView m))).replayNoteApplied cfg origin seq

/-- `replay_delta_map_origin`: an entry of a keyed topic without its key fields
is skipped. -/
def replayDeltaMapOrigin (cfg : TopicConfig) (now : Nat) (t : Topic σ) (origin : String)
    (seq : Nat) (m : JsonMap) : Topic σ :=
  if t.replayIsDuplicate cfg origin seq then t
  else
    match deltaKey cfg (flatView m) with
    | none => t
    | some key =>
      (t.writeStoreReplay cfg now (.merge σ (flatView m) (t.state.contents key))).replayNoteApplied
        cfg origin seq

end Replay

def replayDeleteOrigin (cfg : TopicConfig) (t : Topic σ) (origin : String) (seq : Nat)
    (key : String) : Topic σ :=
  if t.replayIsDuplicate cfg origin seq then t
  else
    match t.state.removeKey key with
    | none => t.replayNoteApplied cfg origin seq
    | some (st, _) => { t with state := st }.replayNoteApplied cfg origin seq

variable [HostText]

/-- One entry of the log, as `recover_topic_with_archive` dispatches it. What
`serde_json` reads back from a payload is `decode`; a payload that does not
decode to an object is skipped. -/
def replayEntry (cfg : TopicConfig) (decode : Decode) (now : Nat) (t : Topic σ)
    (e : LogEntry) : Topic σ :=
  match e.payload with
  | none => t.replayDeleteOrigin cfg e.origin e.sequence e.key
  | some payload =>
    match decode payload, e.format with
    | none, _ => t
    | some m, .json => t.replayUpsertMapOrigin cfg now e.origin e.sequence m
    | some m, .jsonDelta => t.replayDeltaMapOrigin cfg now e.origin e.sequence m

def replayLog (cfg : TopicConfig) (decode : Decode) (now : Nat) (t : Topic σ)
    (log : List LogEntry) : Topic σ :=
  log.foldl (replayEntry cfg decode now) t

theorem replayLog_append (cfg : TopicConfig) (decode : Decode) (now : Nat)
    (t : Topic σ) (log log' : List LogEntry) :
    t.replayLog cfg decode now (log ++ log') =
      (t.replayLog cfg decode now log).replayLog cfg decode now log' :=
  foldl_append ..

end Topic

/-! ## What an entry does -/

/-- The values an entry writes to a store in this state. -/
def entryValues [HostText] (cfg : TopicConfig) (decode : Decode) (st : StoreState σ)
    (e : LogEntry) : Option (Values σ) :=
  match e.payload with
  | none => none
  | some payload =>
    match decode payload, e.format with
    | none, _ => none
    | some m, .json => some (.ofMap σ (flatView m))
    | some m, .jsonDelta =>
      (deltaKey cfg (flatView m)).map fun key => .merge σ (flatView m) (st.contents key)

section Entry
variable [HostText] {cfg : TopicConfig} {decode : Decode}

/-- **One entry of a replay**: it changes nothing, or it is noted and has removed or
written a record. -/
theorem replayEntry_cases (cfg : TopicConfig) (decode : Decode) (now : Nat)
    (t : Topic σ) (e : LogEntry) :
    (t.replayEntry cfg decode now e = t ∧ (t.replayIsDuplicate cfg e.origin e.sequence = true ∨
        e.payload ≠ none ∧ entryValues cfg decode t.state e = none)) ∨
      (t.replayIsDuplicate cfg e.origin e.sequence = false ∧ ∃ st, t.replayEntry cfg decode now e =
            Topic.replayNoteApplied cfg { t with state := st } e.origin e.sequence ∧
          ((e.payload = none ∧ st = (t.state.removeKey e.key).elim t.state Prod.fst) ∨
            ∃ v, entryValues cfg decode t.state e = some v ∧
              st = (t.state.commitValuesLocked (cfg.keyColIndices σ) now v).1)) := by
  unfold Topic.replayEntry entryValues
  cases hdup : t.replayIsDuplicate cfg e.origin e.sequence with
  | true =>
    refine .inl ⟨?_, .inl rfl⟩
    split
    · exact if_pos hdup
    split
    · rfl
    · exact if_pos hdup
    · exact if_pos hdup
  | false =>
    cases hp : e.payload with
    | none =>
      refine .inr ⟨rfl, _, ?_, .inl ⟨rfl, rfl⟩⟩
      simp only [Topic.replayDeleteOrigin, hdup]
      cases t.state.removeKey e.key <;> rfl
    | some payload =>
      simp only [Topic.replayUpsertMapOrigin, Topic.replayDeltaMapOrigin, hdup]
      split
      · exact .inl ⟨rfl, .inr ⟨nofun, rfl⟩⟩
      · exact .inr ⟨trivial, _, rfl, .inr ⟨_, rfl, rfl⟩⟩
      · cases deltaKey cfg _ with
        | none => exact .inl ⟨rfl, .inr ⟨nofun, rfl⟩⟩
        | some key => exact .inr ⟨trivial, _, rfl, .inr ⟨_, rfl, rfl⟩⟩

variable {t : Topic σ} {e : LogEntry}

/-- An entry that writes has a payload that decodes, to a record or to a sparse delta. -/
theorem exists_of_entryValues {st : StoreState σ} {v : Values σ}
    (h : entryValues cfg decode st e = some v) :
    ∃ payload m, e.payload = some payload ∧ decode payload = some m ∧
      (e.format = .json ∧ v = .ofMap σ (flatView m) ∨
        ∃ key, e.format = .jsonDelta ∧ deltaKey cfg (flatView m) = some key ∧
          v = .merge σ (flatView m) (st.contents key)) := by
  unfold entryValues at h
  split at h
  · cases h
  rename_i payload hp
  split at h
  · cases h
  · exact ⟨payload, _, hp, ‹_›, .inl ⟨‹_›, (Option.some.inj h).symm⟩⟩
  · obtain ⟨key, hkey, rfl⟩ := Option.map_eq_some_iff.mp h
    exact ⟨payload, _, hp, ‹_›, .inr ⟨key, ‹_›, hkey, rfl⟩⟩

theorem replayEntry_duplicate (hdup : t.replayIsDuplicate cfg e.origin e.sequence = true)
    (now : Nat) : t.replayEntry cfg decode now e = t := by
  rcases replayEntry_cases cfg decode now t e with ⟨hsame, -⟩ | ⟨hnew, -⟩
  · exact hsame
  · cases hnew.symm.trans hdup

theorem replayEntry_fresh_table (hnew : t.replayIsDuplicate cfg e.origin e.sequence = false)
    (now : Nat) :
    (t.replayEntry cfg decode now e).state.table =
      e.payload.elim (t.state.table.remove e.key Row.null) fun _ =>
        (entryValues cfg decode t.state e).elim t.state.table fun v =>
          (t.state.commitValuesLocked (cfg.keyColIndices σ) now v).1.table := by
  rcases replayEntry_cases cfg decode now t e with
    ⟨hsame, hdup | ⟨hp, hv⟩⟩ | ⟨-, st, heq, ⟨hp, rfl⟩ | ⟨v, hv, rfl⟩⟩
  · cases hnew.symm.trans hdup
  · obtain ⟨payload, hp⟩ := Option.ne_none_iff_exists'.mp hp
    rw [hsame, hp, hv]
    rfl
  · rw [heq, hp, Topic.noteApplied_state]
    cases hrem : t.state.removeKey e.key with
    | none => exact (remove_of_none (removeKey_eq_none.mp hrem) _).symm
    | some p => simp [(removeKey_eq_some.mp hrem).2]
  · cases hp : e.payload with
    | none => simp [entryValues, hp] at hv
    | some payload => simp [heq, hv]

end Entry

/-! ## The journalled row -/

theorem mergedPayload_get? [HostText] (hσ : σ.Distinct) (v : Values σ) (i : σ.Col) :
    (mergedPayload v).get? (σ.columnName i) = some (v.vals i).toJson := by
  rw [mergedPayload, JsonMap.get?_foldl_insert_inj hσ fun i => (v.vals i).toJson]
  simp

theorem mergedPayload_get?_of_ne [HostText] (v : Values σ) {name : String}
    (h : ∀ i, σ.columnName i ≠ name) : (mergedPayload v).get? name = none :=
  JsonMap.get?_foldl_insert σ.columnName (fun _ i => (v.vals i).toJson) (fun i _ => h i) []

theorem flatView_foldl {α : Type} {f : JsonMap → α → JsonMap}
    (hf : ∀ m a, mapHasNesting m = false → mapHasNesting (f m a) = false) (xs : List α) :
    flatView (xs.foldl f []) = xs.foldl f [] := by
  have hflat : mapHasNesting (xs.foldl f []) = false :=
    foldlRecOn (motive := (mapHasNesting · = false)) xs f rfl fun m hm a _ => hf m a hm
  simp [flatView, hflat]

theorem flatView_mergedPayload [HostText] (v : Values σ) :
    flatView (mergedPayload v) = mergedPayload v :=
  flatView_foldl (fun _ _ hm => mapHasNesting_insert (Value.toJson_flat _) hm) σ.cols

/-- The row a commit of `v` would update. -/
def StoreState.updatedRow [HostText] (keyCols : List σ.Col) (st : StoreState σ) (v : Values σ) :
    Option (Row σ) :=
  match computeKeyWith v.vals keyCols with
  | some k => st.contents k
  | none => if 0 < st.table.rowCount then some (st.row 0) else none

/-- The merged image of a delta can be journalled as a row: its cells survive,
and a column it leaves out is null in the row that the commit updates. -/
@[mk_iff]
structure Journalable [HostText] (keyCols : List σ.Col) (st : StoreState σ) (v : Values σ) :
    Prop where
  survives : ∀ i, v.vals i ≠ .null → (v.vals i).Survives (σ.columnType i)
  leftOut : ∀ i, v.vals i = .null → ∀ old, st.updatedRow keyCols v = some old →
    old.cells i = Value.nullOf (σ.columnType i)

section Commit
variable [HostText] {keyCols : List σ.Col}

variable {st st' : StoreState σ} (htab : st'.table = st.table) {v w : Values σ}
include htab

/-- What a commit does to the table depends on the table and on what the values
do to the row they hit. -/
theorem commitValuesLocked_table_eq (hkey : computeKeyWith w.vals keyCols = computeKeyWith v.vals
    keyCols)
    (hwrite : ∀ r : Row σ, r.write w = r.write v)
    (hupdate : ∀ old, st.updatedRow keyCols v = some old → old.update w = old.update v)
    (now now' : Nat) :
    (st'.commitValuesLocked keyCols now' w).1.table = (st.commitValuesLocked keyCols now v).1.table := by
  have hmodify : ∀ r, st.updatedRow keyCols v = some (st.row r) →
      st.table.modify r (·.update w) = st.table.modify r (·.update v) := by
    intro r hr
    have hrow := hupdate _ hr
    simp [SlotTable.modify, hrow]
  unfold commitValuesLocked
  simp only [hkey, htab, hwrite]
  cases hk : computeKeyWith v.vals keyCols with
  | none =>
    by_cases hpos : 0 < st.table.rowCount
    · rw [if_pos hpos, if_pos hpos]
      exact hmodify 0 (by simp [updatedRow, hk, hpos])
    · rw [if_neg hpos, if_neg hpos]
  | some k =>
    dsimp only
    cases hr : st.table.keyToRow.lookup k with
    | some r => exact hmodify r (by simp [updatedRow, hk, contents, SlotTable.view_of_lookup hr])
    | none => rfl

theorem Journalable.commit (h : Journalable keyCols st v) (hkeys : ∀ i ∈ keyCols, v.vals i ≠ .null)
    (hw : ∀ i, w.vals i = Value.fromJson (v.vals i).toJson (σ.columnType i)) (now now' : Nat) :
    (st'.commitValuesLocked keyCols now' w).1.table = (st.commitValuesLocked keyCols now v).1.table := by
  have hsome : ∀ i, v.vals i ≠ .null → w.vals i = v.vals i := fun i hi =>
    (hw i).trans (h.survives i hi)
  have hnull : ∀ i, v.vals i = .null → w.vals i = Value.nullOf (σ.columnType i) := by
    intro i hi
    rw [hw i, hi]
    exact Value.fromJson_null _
  refine commitValuesLocked_table_eq htab ?_ ?_ ?_ now now'
  · exact computeKeyWith_congr fun i hi => hsome i (hkeys i hi)
  · intro r
    ext i
    by_cases hi : v.vals i = .null
    · simp [hi, hnull i hi]
    · simp [hsome i hi]
  · intro old hold
    ext i
    by_cases hi : v.vals i = .null
    · simp [hi, hnull i hi, h.leftOut i hi old hold]
    · simp [hsome i hi]

end Commit

/-! ## Live topic and replica -/

/-- The two states hold the same records, slot by slot. Without key columns
there are no records. -/
structure SameRecords (keyCols : List σ.Col) (st st' : StoreState σ) : Prop where
  keyed : keyCols ≠ [] → st'.table = st.table
  keyless : keyCols = [] →
    ∀ k, st.table.keyToRow.lookup k = none ∧ st'.table.keyToRow.lookup k = none

theorem SameRecords.contents_eq {keyCols : List σ.Col} {st st' : StoreState σ}
    (h : SameRecords keyCols st st') : st'.contents = st.contents := by
  by_cases hk : keyCols = []
  · funext k
    obtain ⟨h₁, h₂⟩ := h.keyless hk k
    rw [contents, contents, view_of_lookup_none h₁, view_of_lookup_none h₂]
  · rw [contents, contents, h.keyed hk]

theorem SameRecords.removeKey {keyCols : List σ.Col} {st st' st₁ : StoreState σ}
    (h : SameRecords keyCols st st') {key : String} {r : Nat}
    (hrem : st.removeKey key = some (st₁, r)) :
    ∃ st₁', st'.removeKey key = some (st₁', r) ∧ SameRecords keyCols st₁ st₁' := by
  obtain ⟨hr, rfl⟩ := removeKey_eq_some.mp hrem
  have hk : keyCols ≠ [] := by
    intro hk
    rw [(h.keyless hk key).1] at hr
    cases hr
  have htab := h.keyed hk
  refine ⟨_, removeKey_eq_some.mpr ⟨by rw [htab]; exact hr, rfl⟩, ?_, fun hc => absurd hc hk⟩
  intro _
  rw [htab]

section Shadows
variable [HostText] {cfg : TopicConfig}

theorem commitValuesLocked_lookup_keyless (now : Nat) (st : StoreState σ) (v : Values σ)
    (k : String) :
    (st.commitValuesLocked [] now v).1.table.keyToRow.lookup k = st.table.keyToRow.lookup k := by
  rcases commitValuesLocked_cases [] now st v with ⟨k', r, hk', -⟩ | ⟨k', hk', -⟩ | ⟨-, htab, -⟩
  · simp [computeKeyWith] at hk'
  · simp [computeKeyWith] at hk'
  · rw [htab]
    split <;> rfl

variable {st st' : StoreState σ}

theorem SameRecords.commit {keyCols : List σ.Col} (h : SameRecords keyCols st st') {v w : Values σ}
    {now now' : Nat}
    (hcommit : keyCols ≠ [] → st'.table = st.table →
      (st'.commitValuesLocked keyCols now' w).1.table =
      (st.commitValuesLocked keyCols now v).1.table) :
    SameRecords keyCols (st.commitValuesLocked keyCols now v).1
      (st'.commitValuesLocked keyCols now' w).1 := by
  refine ⟨fun hk => hcommit hk (h.keyed hk), ?_⟩
  intro hk k
  subst hk
  rw [commitValuesLocked_lookup_keyless, commitValuesLocked_lookup_keyless]
  exact h.keyless rfl k

/-- The replica has applied the live topic's log so far. -/
structure Shadows (cfg : TopicConfig) (live replica : Topic σ) : Prop where
  same : SameRecords (cfg.keyColIndices σ) live.state replica.state
  applied : replica.lastAppliedSequence ≤ live.nextSequence

omit [HostText] in
theorem Shadows.new (cfg : TopicConfig) : Shadows cfg (Topic.new σ) (Topic.new σ) :=
  ⟨⟨fun _ => rfl, fun _ _ => ⟨rfl, rfl⟩⟩, le_rfl⟩

variable {live replica : Topic σ}

omit [HostText] in
theorem Shadows.not_duplicate (h : Shadows cfg live replica) :
    ¬ replica.replayIsDuplicate cfg cfg.originId (live.nextSequence + 1) = true := by
  have hle := h.applied
  simp only [Topic.replayIsDuplicate, Topic.ownOrigin, decide_true, Bool.or_true, if_true,
    Bool.and_eq_true, decide_eq_true_eq]
  omega

omit [HostText] in
theorem Shadows.advance (h : Shadows cfg live replica)
    (hst : SameRecords (cfg.keyColIndices σ) st st') :
    Shadows cfg { live with state := st, nextSequence := live.nextSequence + 1 }
      (Topic.replayNoteApplied cfg { replica with state := st' } cfg.originId
        (live.nextSequence + 1)) := by
  have hle := h.applied
  simp only [Topic.replayNoteApplied, Topic.ownOrigin, decide_true, Bool.or_true, if_true,
    Topic.bumpSequenceTo]
  exact ⟨hst, by dsimp only; omega⟩

variable {decode : Decode}

/-- The payloads read back as they were written. -/
def Decodes (decode : Decode) (log : List LogEntry) : Prop :=
  ∀ e ∈ log, ∀ payload, e.payload = some payload → decode payload = some payload

omit [HostText] in
theorem Decodes.append_iff {log log' : List LogEntry} :
    Decodes decode (log ++ log') ↔ Decodes decode log ∧ Decodes decode log' :=
  forall_mem_append

section
variable (h : Shadows cfg live replica) (hpersist : cfg.persist = true) (now now' : Nat)
include h hpersist

theorem Shadows.upsertMap (m : JsonMap) (hd : Decodes decode (upsertMap cfg now true live
    m).entries) :
    Shadows cfg (upsertMap cfg now true live m).topic
      (replica.replayLog cfg decode now' (upsertMap cfg now true live m).entries) := by
  simp only [CqServer.upsertMap, writeStoreWithChanged_logged hpersist] at hd ⊢
  have hdec := hd _ mem_cons_self _ rfl
  simp only [Topic.replayLog, foldl_cons, Topic.replayEntry, hdec, Topic.replayUpsertMapOrigin,
    if_neg h.not_duplicate, flatView_flatView]
  refine h.advance (h.same.commit ?_)
  intro _ htab
  exact commitValuesLocked_table_eq htab rfl (fun _ => rfl) (fun _ _ => rfl) _ _

theorem Shadows.upsertMapBatch (rows : List JsonMap)
    (hd : Decodes decode (upsertMapBatch cfg now live (rows.map (·, true))).entries) :
    Shadows cfg (upsertMapBatch cfg now live (rows.map (·, true))).topic
      (replica.replayLog cfg decode now'
        (upsertMapBatch cfg now live (rows.map (·, true))).entries) := by
  induction rows generalizing live replica with
  | nil => exact h
  | cons m rows ih =>
    have hok : (CqServer.upsertMap cfg now true live m).ok = true := by
      simp [CqServer.upsertMap, writeStoreWithChanged]
    simp only [map_cons, CqServer.upsertMapBatch, hok, if_true] at hd ⊢
    rw [Decodes.append_iff] at hd
    rw [Topic.replayLog_append]
    exact ih (h.upsertMap hpersist now now' m hd.1) hd.2

end

variable {i : σ.Col} {key : String} {m : JsonMap}

theorem deltaKey_get? (hkey : deltaKey cfg m = some key) (hi : i ∈ cfg.keyColIndices σ) :
    ∃ v, m.get? (σ.columnName i) = some v := by
  obtain ⟨f, hf, hidx⟩ := mem_filterMap.mp hi
  have hfields : cfg.keyFields ≠ [] := ne_nil_of_mem hf
  rw [Schema.columnName_of_indexOf hidx]
  cases hc : computeKeyFromMap cfg m with
  | none => simp [deltaKey, hc, hfields] at hkey
  | some k =>
    unfold computeKeyFromMap at hc
    split at hc
    · cases hc
    obtain ⟨parts, hparts, -⟩ := Option.map_eq_some_iff.mp hc
    obtain ⟨part, hpart⟩ := exists_of_mapM_eq_some hparts hf
    obtain ⟨v, hv, -⟩ := Option.bind_eq_some_iff.mp hpart
    exact ⟨v, hv⟩

variable (h : Shadows cfg live replica) (hpersist : cfg.persist = true)
include h hpersist

theorem Shadows.deltaUpsertMap (hσ : σ.Distinct) (now now' : Nat) (m : JsonMap)
    (hok : cfg.sparseDeltaTxlog = true ∨ cfg.keyColIndices σ = [] ∨
      ∀ d, deltaRead cfg live.state m = some d →
      Journalable (cfg.keyColIndices σ) live.state d.values)
    (hd : Decodes decode (deltaUpsertMap cfg now true live m).entries) :
    Shadows cfg (deltaUpsertMap cfg now true live m).topic
      (replica.replayLog cfg decode now' (deltaUpsertMap cfg now true live m).entries) := by
  cases hread : deltaRead cfg live.state m with
  | none => simpa [CqServer.deltaUpsertMap, hread, Topic.replayLog] using h
  | some d =>
    obtain ⟨key, hkey, rfl⟩ := Option.map_eq_some_iff.mp hread
    simp only [CqServer.deltaUpsertMap, hread, deltaCommit,
      writeStoreWithChanged_logged hpersist] at hd ⊢
    have hdec := hd _ mem_cons_self _ rfl
    by_cases hs : cfg.sparseDeltaTxlog = true
    · -- the delta as published: the replica merges it as the live topic did
      simp only [hs, if_true] at hdec ⊢
      simp only [Topic.replayLog, foldl_cons, Topic.replayEntry, hdec,
        Topic.replayDeltaMapOrigin, if_neg h.not_duplicate, flatView_flatView, hkey,
        h.same.contents_eq]
      refine h.advance (h.same.commit ?_)
      intro _ htab
      exact commitValuesLocked_table_eq htab rfl (fun _ => rfl) (fun _ _ => rfl) _ _
    · -- the merged row, with a null for every column it lacks
      simp only [hs, Bool.false_eq_true, if_false] at hdec ⊢
      simp only [Topic.replayLog, foldl_cons, Topic.replayEntry, hdec,
        Topic.replayUpsertMapOrigin, if_neg h.not_duplicate, flatView_mergedPayload]
      refine h.advance (h.same.commit ?_)
      intro hkeyed htab
      have hj := ((hok.resolve_left hs).resolve_left hkeyed) _ hread
      refine hj.commit htab (fun i hi => ?_) ?_ _ _
      · obtain ⟨v, hv⟩ := deltaKey_get? hkey hi
        simp [Values.merge, hv]
      · simp [Values.ofMap, mergedPayload_get? hσ]

theorem Shadows.delete (now' : Nat) (key : String) : Shadows cfg (delete cfg true live key).topic
      (replica.replayLog cfg decode now' (delete cfg true live key).entries) := by
  cases hrem : live.state.removeKey key with
  | none => simpa [CqServer.delete, hrem, Topic.replayLog] using h
  | some p =>
    obtain ⟨st', hrem', hsame⟩ := h.same.removeKey hrem
    simp only [delete_logged hpersist hrem, Topic.replayLog, foldl_cons, Topic.replayEntry,
      Topic.replayDeleteOrigin, if_neg h.not_duplicate, hrem']
    exact h.advance hsame

end Shadows

/-! ## Runs of a live topic and its log -/

namespace Replay

structure State (σ : Schema) where
  topic : Topic σ
  log : List LogEntry

def State.init (σ : Schema) : State σ := ⟨.new σ, []⟩

/-- The operations of a sequential run; every append succeeds. -/
inductive Op where
  | upsertMap (now : Nat) (m : JsonMap)
  | upsertMapBatch (now : Nat) (rows : List JsonMap)
  | deltaUpsertMap (now : Nat) (m : JsonMap)
  | delete (key : String)
  | expire (ttl sweepObservedAt : Nat) (key : String)

section System
variable [HostText] {cfg : TopicConfig} {decode : Decode}

def Op.run (cfg : TopicConfig) (t : Topic σ) : Op → Outcome σ
  | .upsertMap now m => CqServer.upsertMap cfg now true t m
  | .upsertMapBatch now rows => CqServer.upsertMapBatch cfg now t (rows.map (·, true))
  | .deltaUpsertMap now m => CqServer.deltaUpsertMap cfg now true t m
  | .delete key => CqServer.delete cfg true t key
  | .expire ttl sweepObservedAt key => deleteIfStillExpired cfg true t ttl sweepObservedAt key

def step (cfg : TopicConfig) (s : State σ) (op : Op) : Option (State σ) :=
  let o := op.run cfg s.topic
  if o.ok then some ⟨o.topic, s.log ++ o.entries⟩ else none

/-- A delta that is journalled as the merged row meets `Journalable`. -/
def Ok (cfg : TopicConfig) (s : State σ) : Op → Prop
  | .deltaUpsertMap _ m => cfg.sparseDeltaTxlog = true ∨ cfg.keyColIndices σ = [] ∨
      ∀ d, deltaRead cfg s.topic.state m = some d →
        Journalable (cfg.keyColIndices σ) s.topic.state d.values
  | _ => True

/-- **One operation**: replaying its entries brings the replica level again. -/
theorem shadows_step (hpersist : cfg.persist = true) (hσ : σ.Distinct) {s s' : State σ} {op : Op}
    (hok : Ok cfg s op) (hstep : step cfg s op = some s') (now : Nat)
    (hd : Decodes decode s'.log)
    (h : Shadows cfg s.topic ((Topic.new σ).replayLog cfg decode now s.log)) :
    Shadows cfg s'.topic ((Topic.new σ).replayLog cfg decode now s'.log) := by
  obtain ⟨-, rfl⟩ := of_guard hstep
  rw [Topic.replayLog_append]
  have hd := (Decodes.append_iff.mp hd).2
  cases op with
  | upsertMap now' m => exact h.upsertMap hpersist now' now m hd
  | upsertMapBatch now' rows => exact h.upsertMapBatch hpersist now' now rows hd
  | deltaUpsertMap now' m => exact h.deltaUpsertMap hpersist hσ now' now m hok hd
  | delete key => exact h.delete hpersist now key
  | expire ttl sweepObservedAt key =>
    simp only [Op.run, deleteIfStillExpired] at hd ⊢
    split
    · exact h.delete hpersist now key
    · exact h

/-- **Replay equivalence.** Replaying the log of a run into a fresh topic gives
the records of the live topic, if every delta that is journalled as a merged row
can be. -/
theorem replay_reproduces (hpersist : cfg.persist = true) (hσ : σ.Distinct) {s : State σ}
    {ops : List Op} (hrun : Run (step cfg) (Ok cfg) (State.init σ) ops s)
    (hd : Decodes decode s.log) (now : Nat) :
    ((Topic.new σ).replayLog cfg decode now s.log).state.contents = s.topic.state.contents := by
  have hinv := hrun.invariant (P := fun s => Decodes decode s.log → Shadows cfg s.topic
    ((Topic.new σ).replayLog cfg decode now s.log)) ?_ (fun _ => Shadows.new cfg)
  · exact (hinv hd).same.contents_eq
  · intro s op s' ih hok hstep hd'
    refine shadows_step hpersist hσ hok hstep now hd' (ih ?_)
    obtain ⟨-, rfl⟩ := of_guard hstep
    exact (Decodes.append_iff.mp hd').1

end System

section Orders

open Unused

def orders : Schema := ⟨[⟨"id", .long⟩, ⟨"x", .long⟩, ⟨"y", .long⟩]⟩

def ordersConfig : TopicConfig := { keyFields := ["id"] }

theorem orders_distinct : orders.Distinct := by decide

def order (fields : List (String × Nat)) : JsonMap := fields.map fun p => (p.1, Quotes.num p.2)

/-- Publishes, a delta under the stored key text, and a delete. -/
def journalled : List Op :=
  [.upsertMap 0 (order [("id", 7), ("x", 1), ("y", 2)]),
    .deltaUpsertMap 1 (order [("id", 7), ("x", 5)]),
    .upsertMapBatch 2 [order [("id", 8), ("x", 1)], order [("id", 9), ("y", 3)]],
    .deltaUpsertMap 3 (order [("id", 10), ("y", 4)]), .delete "8", .expire 1 9 "9"]

instance (keyCols : List σ.Col) (st : StoreState σ) (v : Values σ) :
    Decidable (Journalable keyCols st v) :=
  decidable_of_iff' _ (journalable_iff ..)

instance (s : State orders) (op : Op) : Decidable (Ok ordersConfig s op) := by
  cases op <;> dsimp only [Ok] <;> infer_instance

theorem replay_reproduces_journalled : ∃ s,
    Run (step ordersConfig) (Ok ordersConfig) (State.init orders) journalled s ∧ s.log.length = 7 ∧
      ((Topic.new orders).replayLog ordersConfig some 0 s.log).state.contents =
        s.topic.state.contents := by
  refine Run.exists_of_check (fun s => s.log.length = 7) (by decide +kernel) fun s hrun hend => ?_
  exact ⟨hend, replay_reproduces rfl orders_distinct hrun (fun _ _ _ _ => rfl) 0⟩

/-- A delta that writes the key as `"007"`: it finds no record under that text,
and commits to record `7`. -/
def otherText : List Op :=
  [.upsertMap 0 (order [("id", 7), ("x", 1), ("y", 2)]),
    .deltaUpsertMap 1 [("id", .string "007"), ("x", Quotes.num 5)]]

/-- The live record keeps `y`; the journal has a null there, and the replay
loses it. -/
theorem replay_nulls_merged_column : ∃ s,
    Run (step ordersConfig) (fun _ _ => True) (State.init orders) otherText s ∧
      (s.topic.state.contents "7").map (·.cells ⟨2, by decide⟩) = some (.long 2) ∧
      (((Topic.new orders).replayLog ordersConfig some 0 s.log).state.contents "7").map
        (·.cells ⟨2, by decide⟩) = some (.long nullLong) := by
  decide +kernel

end Orders

end Replay

end CqServer
