import CqServer.Topic.Replay
import Mathlib.Data.List.TakeWhile

/-!
# Concurrent replication sessions

A receiver may run several sessions at once (`receiver.rs`, `concurrent`), and two of them may
bring the entries of one origin. Each session checks an entry against the watermark of the
origin, writes it, and raises the watermark, in steps of their own; a sparse delta reads the
record it is merged into in a step before its write.

The sessions together write every entry at least once, and the first write of each comes in
sequence (`Progress`). An entry is written again by a session that had checked it before the
other one raised the watermark. That changes nothing as long as nothing later has been written
to the record (`concurrent_replay`); otherwise it brings an old record back
(`stale_entry_rewritten`).
-/

namespace CqServer

open Lib StoreState List Function Option

variable {σ : Schema}

/-! ## Committing again -/

section Again
variable [HostText]

theorem upsertRow_update (old : Option (Row σ)) (v : Values σ) :
    (upsertRow old v).update v = upsertRow old v := by
  ext i
  by_cases hnull : v.vals i = .null
  · rw [Row.update_cells, if_pos hnull]
  · simp [hnull]

theorem merge_update_merge (m : JsonMap) (r : Row σ) :
    Values.merge σ m (some (r.update (.merge σ m (some r)))) = .merge σ m (some r) := by
  refine Values.ext (funext fun i => ?_)
  cases hget : m.get? (σ.columnName i) with
  | none | some x => simp [Values.merge, hget]

variable {keyCols : List σ.Col} {st : StoreState σ} {v : Values σ}

theorem commit_noop {k : String} {row : Row σ} (hk : computeKeyWith v.vals keyCols = some k)
    (hrow : st.contents k = some row) (hsame : row.update v = row) (now : Nat) :
    (st.commitValuesLocked keyCols now v).1.table = st.table := by
  obtain ⟨r, hr, rfl⟩ := map_eq_some_iff.mp hrow
  unfold commitValuesLocked
  rw [hk]
  dsimp only
  rw [hr]
  exact SlotTable.modify_eq_self (f := fun row : Row σ => row.update v) hsame

variable (hk : computeKeyWith v.vals keyCols = none)
include hk

/-- Values without a key collapse onto row 0, and change nothing there the second time. -/
theorem commit_keyless_again {st' : StoreState σ}
    {now : Nat} (htab : st'.table = (st.commitValuesLocked keyCols now v).1.table) (now' : Nat) :
    (st'.commitValuesLocked keyCols now' v).1.table = st'.table := by
  have hzero : 0 < st'.table.rowCount ∧ (st'.row 0).update v = st'.row 0 := by
    unfold commitValuesLocked at htab
    rw [hk] at htab
    dsimp only at htab
    rw [row, htab]
    split
    · rename_i hpos
      have hrow := upsertRow_update (some (st.row 0)) v
      exact ⟨hpos, by simpa [SlotTable.modify, upsertRow] using hrow⟩
    · have hcount : st.table.rowCount = 0 := by omega
      have hrow := upsertRow_update none v
      rw [upsertRow, Row.write_eq_write Row.null (st.table.row 0)] at hrow
      exact ⟨Nat.succ_pos _, by simpa [SlotTable.push, hcount] using hrow⟩
  unfold commitValuesLocked
  rw [hk]
  rw [if_pos hzero.1]
  exact SlotTable.modify_eq_self (f := fun row : Row σ => row.update v) hzero.2

/-- The record of a key after a commit without one: it may be the one in row 0. -/
theorem commit_keyless_contents (now : Nat) (k : String) :
    (st.commitValuesLocked keyCols now v).1.contents k = st.contents k ∨
      ∃ r, st.contents k = some r ∧
        (st.commitValuesLocked keyCols now v).1.contents k = some (r.update v) := by
  unfold commitValuesLocked contents
  rw [hk]
  dsimp only
  split
  · by_cases hlive : st.table.keyToRow.lookup k = some 0
    · refine .inr ⟨st.row 0, SlotTable.view_of_lookup hlive, ?_⟩
      rw [SlotTable.view_modify hlive, if_pos rfl]
    · refine .inl ?_
      cases hr : st.table.keyToRow.lookup k with
      | none =>
        rw [SlotTable.view_of_lookup_none hr, SlotTable.view_of_lookup_none (by simpa using hr)]
      | some r =>
        have hne : r ≠ 0 := by
          rintro rfl
          exact hlive hr
        rw [SlotTable.view_of_lookup hr,
          SlotTable.view_of_lookup (by simpa using hr)]
        simp [SlotTable.modify, hne]
  · exact .inl (SlotTable.view_push _ _ _)

end Again

/-! ## The sessions -/

namespace Sessions

section Model
variable [HostText]

inductive Phase (σ : Schema) where
  /-- the next entry is read from the stream and checked -/
  | ready
  /-- a sparse delta, before it reads the record under the key -/
  | merge (e : LogEntry) (m : JsonMap) (key : String)
  /-- before `write_store_replay` -/
  | write (e : LogEntry) (v : Values σ)
  /-- before the locked section of `replay_delete_origin` -/
  | remove (e : LogEntry)
  /-- before `replay_note_applied` -/
  | note (e : LogEntry)
  deriving DecidableEq

structure Session (σ : Schema) where
  rest : List LogEntry
  phase : Phase σ

structure State (σ : Schema) (ι : Type) where
  topic : Topic σ
  session : ι → Session σ

def State.start (ι : Type) (t : Topic σ) (log : List LogEntry) : State σ ι := ⟨t, fun _ => ⟨log, .ready⟩⟩

/-- `apply_entry` up to its first write: a payload that is not an object is skipped, a duplicate,
and a delta of a keyed topic without its key fields. -/
def check (cfg : TopicConfig) (decode : Decode) (t : Topic σ) (e : LogEntry) :
    Phase σ :=
  match e.payload with
  | none => if t.replayIsDuplicate cfg e.origin e.sequence then .ready else .remove e
  | some payload =>
    match decode payload, e.format with
    | none, _ => .ready
    | some m, .json =>
      if t.replayIsDuplicate cfg e.origin e.sequence then .ready
      else .write e (.ofMap σ (flatView m))
    | some m, .jsonDelta =>
      if t.replayIsDuplicate cfg e.origin e.sequence then .ready
      else
        match deltaKey cfg (flatView m) with
        | none => .ready
        | some key => .merge e (flatView m) key

variable {ι : Type} [DecidableEq ι]

variable (cfg : TopicConfig) (decode : Decode)

def step (s : State σ ι) (x : ι × Nat) : Option (State σ ι) :=
  let c := s.session x.1
  let goOn (t : Topic σ) (rest : List LogEntry) (phase : Phase σ) : State σ ι :=
    ⟨t, update s.session x.1 ⟨rest, phase⟩⟩
  match c.phase with
  | .ready =>
    match c.rest with
    | [] => none
    | e :: rest => some (goOn s.topic rest (check cfg decode s.topic e))
  | .merge e m key => some (goOn s.topic c.rest (.write e (.merge σ m (s.topic.state.contents key))))
  | .write e v => some (goOn (s.topic.writeStoreReplay cfg x.2 v) c.rest (.note e))
  | .remove e =>
    match s.topic.state.removeKey e.key with
    | none => some (goOn s.topic c.rest (.note e))
    | some (st, _) => some (goOn { s.topic with state := st } c.rest (.note e))
  | .note e => some (goOn (s.topic.replayNoteApplied cfg e.origin e.sequence) c.rest .ready)

/-- What an entry writes: nothing, row 0 for want of a key, or the record of a key. -/
def target (σ : Schema) (decode : Decode) (e : LogEntry) :
    Option (Option String) :=
  match e.payload with
  | none => some (some e.key)
  | some payload =>
    match decode payload, e.format with
    | none, _ => none
    | some m, .json => some (computeKeyWith (Values.ofMap σ (flatView m)).vals (cfg.keyColIndices σ))
    | some m, .jsonDelta =>
      (deltaKey cfg (flatView m)).map fun _ =>
        computeKeyWith (Values.ofMap σ (flatView m)).vals (cfg.keyColIndices σ)

/-- The record a sparse delta is merged into. -/
def source (e : LogEntry) : Option String :=
  match e.payload with
  | none => none
  | some payload =>
    match decode payload, e.format with
    | some m, .jsonDelta => deltaKey cfg (flatView m)
    | _, _ => none

/-- The later entry, once written, must not be followed by the earlier one: they write the same
record, or one of them has no key, or the earlier one is merged into what the later one writes. -/
def Clash (σ : Schema) (decode : Decode) (e later : LogEntry) : Prop :=
  target cfg σ decode later ≠ none ∧
    (target cfg σ decode e = some none ∨ target cfg σ decode later = some none ∨
      target cfg σ decode later = target cfg σ decode e ∨
      target cfg σ decode later = (source cfg decode e).map some)

/-- The entry is in the store: the watermark has reached it, or a session has written it and is
about to raise the watermark. -/
def Written (s : State σ ι) (e : LogEntry) : Prop :=
  e.sequence ≤ s.topic.mark cfg e.origin ∨ ∃ i, (s.session i).phase = .note e

/-- What the code does not see to: an entry is not written after a later one it clashes with. -/
def Ok (log : List LogEntry) (s : State σ ι) (x : ι × Nat) : Prop :=
  match (s.session x.1).phase with
  | .write e _ | .remove e =>
    ∀ later ∈ log, e.sequence < later.sequence → Written cfg s later → ¬ Clash cfg σ decode e later
  | _ => True

end Model

/-! ## Replaying one entry -/

section Entry
variable [HostText] {cfg : TopicConfig} {decode : Decode}

theorem merge_key {m : JsonMap} {key : String} (hkey : deltaKey cfg m = some key)
    (existing : Option (Row σ)) :
    computeKeyWith (Values.merge σ m existing).vals (cfg.keyColIndices σ) =
      computeKeyWith (Values.ofMap σ m).vals (cfg.keyColIndices σ) := by
  apply computeKeyWith_congr
  intro i hi
  obtain ⟨x, hx⟩ := deltaKey_get? hkey hi
  simp [Values.merge, Values.ofMap, hx]

variable {e : LogEntry} {st : StoreState σ} {v : Values σ}

theorem target_of_entryValues (h : entryValues cfg decode st e = some v) :
    target cfg σ decode e = some (computeKeyWith v.vals (cfg.keyColIndices σ)) := by
  obtain ⟨payload, m, hp, hm, ⟨hf, rfl⟩ | ⟨key, hf, hkey, rfl⟩⟩ := exists_of_entryValues h
  · simp [target, hp, hm, hf]
  · simp [target, hp, hm, hf, hkey, merge_key hkey]

/-- A later entry that does not clash writes nothing, or a record of its own. -/
theorem other_of_not_clash {later : LogEntry} (h : ¬ Clash cfg σ decode e later) :
    target cfg σ decode later = none ∨ ∃ k', target cfg σ decode later = some (some k') ∧
      target cfg σ decode e ≠ some (some k') ∧ source cfg decode e ≠ some k' := by
  unfold Clash at h
  cases hl : target cfg σ decode later with
  | none => exact .inl rfl
  | some l =>
    rw [hl] at h
    cases l with
    | none => exact absurd ⟨nofun, .inr (.inl rfl)⟩ h
    | some k' =>
      refine .inr ⟨k', rfl, fun htarget => ?_, fun hsource => ?_⟩
      · exact h ⟨nofun, .inr (.inr (.inl htarget.symm))⟩
      · exact h ⟨nofun, .inr (.inr (.inr (by rw [hsource]; rfl)))⟩

theorem target_tombstone (h : e.payload = none) : target cfg σ decode e = some (some e.key) := by
  simp [target, h]

theorem target_eq_none : target cfg σ decode e = none ↔
    e.payload ≠ none ∧ entryValues cfg decode st e = none := by
  unfold target entryValues
  cases hp : e.payload with
  | none => simp
  | some payload => cases hd : decode payload <;> cases hf : e.format <;> simp [hd]

variable (now : Nat) (t : Topic σ)

/-- **One entry of the sequential replay**: it changes nothing, removes a record or writes one. -/
theorem replayEntry_spec (e : LogEntry) :
    ((t.replayIsDuplicate cfg e.origin e.sequence = true ∨ target cfg σ decode e = none) ∧
        t.replayEntry cfg decode now e = t) ∨
      (t.replayIsDuplicate cfg e.origin e.sequence = false ∧
        (t.replayEntry cfg decode now e).mark cfg e.origin = max (t.mark cfg e.origin) e.sequence ∧
        ((e.payload = none ∧
            (t.replayEntry cfg decode now e).state.table = t.state.table.remove e.key Row.null) ∨
          ∃ v, entryValues cfg decode t.state e = some v ∧ (t.replayEntry cfg decode now e).state =
              (t.state.commitValuesLocked (cfg.keyColIndices σ) now v).1)) := by
  rcases replayEntry_cases cfg decode now t e with
    ⟨hsame, hskip⟩ | ⟨hnew, st, heq, hwrites⟩
  · exact .inl ⟨hskip.imp_right target_eq_none.mpr, hsame⟩
  refine .inr ⟨hnew, ?_, hwrites.imp (fun ⟨hp, _⟩ => ⟨hp, ?_⟩) fun ⟨v, hv, hst⟩ => ⟨v, hv, ?_⟩⟩
  · rw [heq, Topic.mark_noteApplied]
    rfl
  · rw [replayEntry_fresh_table hnew, hp]
    rfl
  · rw [heq, Topic.noteApplied_state]
    exact hst

theorem replayEntry_contents {k : String}
    (hk : target cfg σ decode e = none ∨ ∃ k', target cfg σ decode e = some (some k') ∧ k' ≠ k) :
    (t.replayEntry cfg decode now e).state.contents k = t.state.contents k := by
  rcases replayEntry_spec now t e with ⟨-, hsame⟩ | ⟨-, -, ⟨hp, htab⟩ | ⟨v, hv, hst⟩⟩
  · rw [hsame]
  · rw [target_tombstone hp] at hk
    obtain ⟨k', hk', hne⟩ := hk.resolve_left (by simp)
    cases hk'
    rw [contents, htab, SlotTable.view_remove, if_neg hne.symm]
    rfl
  · rw [target_of_entryValues hv] at hk
    obtain ⟨k', hk', hne⟩ := hk.resolve_left (by simp)
    rw [hst, commitValuesLocked_contents (some.inj hk'), if_neg hne.symm]

theorem mark_replayLog_lt {origin : String} {q : Nat} (now : Nat) {log : List LogEntry}
    (horigin : ∀ e ∈ log, e.origin = origin) (hlt : ∀ e ∈ log, e.sequence < q) {t : Topic σ}
    (hmark : t.mark cfg origin < q) : (t.replayLog cfg decode now log).mark cfg origin < q := by
  refine foldlRecOn (motive := fun t : Topic σ => t.mark cfg origin < q) log _ hmark ?_
  intro t hmark e he
  have heq := horigin e he
  rcases replayEntry_spec now t e with ⟨-, hsame⟩ | ⟨-, hnoted, -⟩
  · rw [hsame]
    exact hmark
  · rw [← heq, hnoted]
    exact max_lt (heq ▸ hmark) (hlt e he)

/-- What an entry writes depends on the store only if it is a sparse delta. -/
theorem entryValues_cases (h : entryValues cfg decode st e = some v) :
    (∀ st' : StoreState σ, entryValues cfg decode st' e = some v) ∨
      ∃ m key, source cfg decode e = some key ∧
        ∀ st' : StoreState σ, entryValues cfg decode st' e = some (.merge σ m (st'.contents key)) := by
  obtain ⟨payload, m, hp, hm, ⟨hf, rfl⟩ | ⟨key, hf, hkey, rfl⟩⟩ := exists_of_entryValues h
  · exact .inl fun st' => by simp [entryValues, hp, hm, hf]
  · refine .inr ⟨flatView m, key, ?_, fun st' => ?_⟩
    · simp [source, hp, hm, hf, hkey]
    · simp [entryValues, hp, hm, hf, hkey]

theorem check_cases (e : LogEntry) : (check cfg decode t e = .ready ∧
        (t.replayIsDuplicate cfg e.origin e.sequence = true ∨ target cfg σ decode e = none)) ∨
      (t.replayIsDuplicate cfg e.origin e.sequence = false ∧
        ((check cfg decode t e = .remove e ∧ e.payload = none) ∨
          (∃ v, check cfg decode t e = .write e v ∧
            ∀ st : StoreState σ, entryValues cfg decode st e = some v) ∨
          ∃ m key, check cfg decode t e = .merge e m key ∧ ∀ st : StoreState σ,
            entryValues cfg decode st e = some (.merge σ m (st.contents key)))) := by
  unfold check entryValues target
  cases hdup : t.replayIsDuplicate cfg e.origin e.sequence with
  | true =>
    refine .inl ⟨?_, .inl rfl⟩
    split
    · rfl
    · split <;> rfl
  | false =>
    simp only [Bool.false_eq_true]
    cases hp : e.payload with
    | none => exact .inr ⟨trivial, .inl ⟨rfl, rfl⟩⟩
    | some payload =>
      dsimp only
      cases hm : decode payload with
      | none => exact .inl ⟨rfl, .inr rfl⟩
      | some m =>
        cases hf : e.format with
        | json => exact .inr ⟨trivial, .inr (.inl ⟨_, rfl, fun _ => rfl⟩)⟩
        | jsonDelta =>
          dsimp only
          cases hkey : deltaKey cfg (flatView m) with
          | none => exact .inl ⟨rfl, .inr rfl⟩
          | some key =>
            exact .inr ⟨trivial, .inr (.inr ⟨flatView m, key, rfl, fun _ => rfl⟩)⟩

theorem replayEntry_skip (h : target cfg σ decode e = none) :
    t.replayEntry cfg decode now e = t := by
  rcases replayEntry_spec now t e with ⟨-, hsame⟩ | ⟨-, -, ⟨hp, -⟩ | ⟨v, hv, -⟩⟩
  · exact hsame
  · rw [target_tombstone hp] at h
    cases h
  · rw [target_of_entryValues hv] at h
    cases h

end Entry

/-! ## Progress -/

structure Stream (origin : String) (log : List LogEntry) : Prop where
  origin : ∀ e ∈ log, e.origin = origin
  sorted : log.Pairwise fun e e' => e.sequence < e'.sequence
  positive : ∀ e ∈ log, 0 < e.sequence

theorem Stream.lt {origin : String} {log : List LogEntry} (h : Stream origin log) {i j : Nat}
    {e e' : LogEntry} (hi : log[i]? = some e) (hj : log[j]? = some e') (hij : i < j) :
    e.sequence < e'.sequence := by
  obtain ⟨hi', rfl⟩ := List.getElem?_eq_some_iff.mp hi
  obtain ⟨hj', rfl⟩ := List.getElem?_eq_some_iff.mp hj
  exact pairwise_iff_getElem.mp h.sorted i j hi' hj' hij

section Progress
variable [HostText] (cfg : TopicConfig) (decode : Decode) (now : Nat)
  (t : Topic σ) (log : List LogEntry) (origin : String)

def after (j : Nat) : Topic σ := t.replayLog cfg decode now (log.take j)

/-- Where a session can be that has read `p` entries, when the first `w` entries are written: the
entry it has in hand is `p - 1`, everything before it is written, and what it has read of the
store it has read since. -/
def Phase.At (w p : Nat) : Phase σ → Prop
  | .ready => p ≤ w
  | .merge e m key => ∃ j, p = j + 1 ∧ log[j]? = some e ∧ t.mark cfg origin < e.sequence ∧ j ≤ w ∧
      ∀ st : StoreState σ, entryValues cfg decode st e = some (.merge σ m (st.contents key))
  | .write e v => ∃ j, p = j + 1 ∧ log[j]? = some e ∧ t.mark cfg origin < e.sequence ∧
      ∃ r, j ≤ r ∧ r ≤ w ∧ entryValues cfg decode (after cfg decode now t log r).state e = some v
  | .remove e => ∃ j, p = j + 1 ∧ log[j]? = some e ∧ t.mark cfg origin < e.sequence ∧ j ≤ w ∧
      e.payload = none
  | .note e => ∃ j, p = j + 1 ∧ log[j]? = some e ∧ j < w

/-- The first `w` entries are written, as the sequential replay writes them. -/
structure Progress {ι : Type} (s : State σ ι) (w : Nat) : Prop where
  le : w ≤ log.length
  table : s.topic.state.table = (after cfg decode now t log w).state.table
  started : t.mark cfg origin ≤ s.topic.mark cfg origin
  ahead : ∀ j e, w ≤ j → log[j]? = some e → s.topic.mark cfg origin < e.sequence
  written : ∀ j e, j < w → log[j]? = some e → target cfg σ decode e ≠ none → Written cfg s e
  sessions : ∀ i, ∃ p, (s.session i).rest = log.drop p ∧
    Phase.At cfg decode now t log origin w p (s.session i).phase

end Progress

section Steps
variable [HostText] {cfg : TopicConfig} {decode : Decode} {now : Nat}
  {t : Topic σ} {log : List LogEntry} {origin : String} {ι : Type} {s : State σ ι} {w : Nat}

variable {e : LogEntry} {j : Nat}

theorem after_succ (h : log[j]? = some e) : after cfg decode now t log (j + 1) =
      (after cfg decode now t log j).replayEntry cfg decode now e := by
  unfold after
  rw [take_add_one, h, Topic.replayLog_append]
  rfl

/-- What every entry of a part of the log keeps holds at its end. -/
theorem after_induction {P : Topic σ → Prop} {a b : Nat} (hab : a ≤ b)
    (hstep : ∀ j e, a ≤ j → j < b → log[j]? = some e → ∀ u, P u → P (u.replayEntry cfg decode now e))
    (h : P (after cfg decode now t log a)) : P (after cfg decode now t log b) := by
  induction b, hab using Nat.le_induction with
  | base => exact h
  | succ b hab ih =>
    have hold := ih fun j e hj hlt => hstep j e hj (Nat.lt_succ_of_lt hlt)
    cases he : log[b]? with
    | none =>
      have hlen := getElem?_eq_none_iff.mp he
      rw [after, take_of_length_le hlen] at hold
      rwa [after, take_of_length_le (Nat.le_succ_of_le hlen)]
    | some e =>
      rw [after_succ he]
      exact hstep b e hab (Nat.lt_succ_self b) he _ hold

theorem after_contents {k : String} {a b : Nat} (hab : a ≤ b)
    (hk : ∀ j e, a ≤ j → j < b → log[j]? = some e → target cfg σ decode e = none ∨
      ∃ k', target cfg σ decode e = some (some k') ∧ k' ≠ k) :
    (after cfg decode now t log b).state.contents k =
      (after cfg decode now t log a).state.contents k :=
  after_induction (P := fun u => u.state.contents k = _) hab
    (fun j e hj hlt he u hu => (replayEntry_contents now u (hk j e hj hlt he)).trans hu) rfl

theorem after_skip {a b : Nat} (hab : a ≤ b)
    (hk : ∀ j e, a ≤ j → j < b → log[j]? = some e → target cfg σ decode e = none) :
    after cfg decode now t log b = after cfg decode now t log a :=
  after_induction (P := fun u => u = _) hab
    (fun j e hj hlt he u hu => (replayEntry_skip now u (hk j e hj hlt he)).trans hu) rfl

variable {p w' : Nat}

theorem Phase.At.mono (hle : w ≤ w') {phase : Phase σ}
    (h : Phase.At cfg decode now t log origin w p phase) :
    Phase.At cfg decode now t log origin w' p phase := by
  cases phase with
  | ready => exact Nat.le_trans h hle
  | merge e m key | remove e =>
    obtain ⟨j, hp, he, hnew, hj, hv⟩ := h
    exact ⟨j, hp, he, hnew, Nat.le_trans hj hle, hv⟩
  | write e v =>
    obtain ⟨j, hp, he, hnew, r, hjr, hr, hv⟩ := h
    exact ⟨j, hp, he, hnew, r, hjr, Nat.le_trans hr hle, hv⟩
  | note e =>
    obtain ⟨j, hp, he, hj⟩ := h
    exact ⟨j, hp, he, Nat.lt_of_lt_of_le hj hle⟩

variable {v : Values σ}

section
variable (hs : Stream origin log) (hj : log[j]? = some e) (hnew : t.mark cfg origin < e.sequence)
include hs hj hnew

/-- The sequential replay has not seen an entry it comes to, unless the topic had before. -/
theorem after_fresh :
    (after cfg decode now t log j).replayIsDuplicate cfg e.origin e.sequence = false := by
  have hmem := mem_of_getElem? hj
  rw [hs.origin e hmem, Topic.isDuplicate_eq_mark _ _ (hs.positive e hmem), decide_eq_false_iff_not,
    Nat.not_le]
  refine mark_replayLog_lt now (fun e' he' => hs.origin e' (mem_of_mem_take he')) ?_ hnew
  intro e' he'
  obtain ⟨i, hi⟩ := mem_iff_getElem?.mp he'
  rw [getElem?_take] at hi
  split at hi
  · rename_i hlt
    exact hs.lt hi hj hlt
  · cases hi

/-- **The first entry that is not written is written.** -/
theorem after_applied (htarget : target cfg σ decode e ≠ none) :
    (e.payload = none ∧ (after cfg decode now t log (j + 1)).state.table =
        (after cfg decode now t log j).state.table.remove e.key Row.null) ∨
      ∃ v, entryValues cfg decode (after cfg decode now t log j).state e = some v ∧
        (after cfg decode now t log (j + 1)).state =
          ((after cfg decode now t log j).state.commitValuesLocked (cfg.keyColIndices σ) now v).1 := by
  rw [after_succ hj]
  rcases replayEntry_spec now (after cfg decode now t log j) e with
    ⟨hdup | hskip, -⟩ | ⟨-, -, hwrites⟩
  · cases (after_fresh hs hj hnew).symm.trans hdup
  · exact absurd hskip htarget
  · exact hwrites

theorem after_write (hv : entryValues cfg decode (after cfg decode now t log j).state e = some v) :
    (after cfg decode now t log (j + 1)).state =
      ((after cfg decode now t log j).state.commitValuesLocked (cfg.keyColIndices σ) now v).1 := by
  obtain ⟨_, _, hp, -⟩ := exists_of_entryValues hv
  have htarget : target cfg σ decode e ≠ none := by simp [target_of_entryValues hv]
  rcases after_applied hs hj hnew htarget with ⟨hp', -⟩ | ⟨v', hv', hst⟩
  · cases hp'.symm.trans hp
  · cases hv'.symm.trans hv
    exact hst

theorem after_remove (hp : e.payload = none) : (after cfg decode now t log (j + 1)).state.table =
      (after cfg decode now t log j).state.table.remove e.key Row.null := by
  have htarget : target cfg σ decode e ≠ none := by simp [target_tombstone hp]
  rcases after_applied hs hj hnew htarget with ⟨-, htab⟩ | ⟨v, hv, -⟩
  · exact htab
  · obtain ⟨_, _, hp', -⟩ := exists_of_entryValues hv
    cases hp.symm.trans hp'

variable {st : StoreState σ} (hjw : j < w)
  (hclash : ∀ i later, j < i → i < w → log[i]? = some later → ¬ Clash cfg σ decode e later)
  (htab : st.table = (after cfg decode now t log w).state.table)
include hjw hclash htab

omit hs hj hnew in
theorem contents_after {k : String} (htarget : target cfg σ decode e = some (some k)) :
    st.contents k = (after cfg decode now t log (j + 1)).state.contents k := by
  rw [contents, htab]
  refine after_contents hjw fun i later hi hiw hlog => ?_
  refine (other_of_not_clash (hclash i later hi hiw hlog)).imp_right ?_
  rintro ⟨k', hk', hne, -⟩
  exact ⟨k', hk', fun heq => hne (heq ▸ htarget)⟩

/-- **An entry is written again**, with nothing after it that it clashes with. -/
theorem write_again {r : Nat} (hjr : j ≤ r) (hrw : r ≤ w)
    (hv : entryValues cfg decode (after cfg decode now t log r).state e = some v) (now' : Nat) :
    (st.commitValuesLocked (cfg.keyColIndices σ) now' v).1.table = st.table := by
  -- the values of the first write
  obtain ⟨u, hu⟩ : ∃ u, entryValues cfg decode (after cfg decode now t log j).state e = some u := by
    rcases entryValues_cases hv with hsame | ⟨m, key, -, hmerge⟩
    · exact ⟨v, hsame _⟩
    · exact ⟨_, hmerge _⟩
  have hfirst := after_write hs hj hnew hu
  have htarget := target_of_entryValues hv
  have hkeys := some.inj (htarget.symm.trans (target_of_entryValues hu))
  cases hkey : computeKeyWith v.vals (cfg.keyColIndices σ) with
  | some k =>
    rw [hkey] at htarget hkeys
    have hrow := commitValuesLocked_contents hkeys.symm now (after cfg decode now t log j).state
    rw [← hfirst] at hrow
    have hsame : st.contents k = some (upsertRow
        ((after cfg decode now t log j).state.contents k) u) := by
      rw [contents_after hjw hclash htab htarget, hrow, if_pos rfl]
    refine commit_noop hkey hsame ?_ now'
    rcases entryValues_cases hv with hall | ⟨m, key, hsource, hmerge⟩
    · cases (hall _).symm.trans hu
      exact upsertRow_update _ _
    cases (hmerge _).symm.trans hv
    cases (hmerge _).symm.trans hu
    rcases Nat.eq_or_lt_of_le hjr with rfl | hlt
    · exact upsertRow_update _ _
    -- the delta has read the record after the first write
    have hread : (after cfg decode now t log r).state.contents key =
        (after cfg decode now t log (j + 1)).state.contents key := by
      refine after_contents hlt fun i later hi hir hlog => ?_
      refine (other_of_not_clash (hclash i later hi (hir.trans_le hrw) hlog)).imp_right ?_
      rintro ⟨k', hk', -, hne⟩
      exact ⟨k', hk', fun heq => hne (heq ▸ hsource)⟩
    rw [hread, hrow]
    split
    · rename_i heq
      subst heq
      -- the delta is merged into the row it has already been merged into
      ext i
      cases hget : m.get? (σ.columnName i) with
      | none | some x => simp [Values.merge, hget]
    · exact upsertRow_update _ _
  | none =>
    rw [hkey] at htarget hkeys
    have hlater : ∀ i later, j + 1 ≤ i → i < w → log[i]? = some later →
        target cfg σ decode later = none := by
      intro i later hi hiw hlog
      by_contra hsome
      exact hclash i later hi hiw hlog ⟨hsome, .inl htarget⟩
    have hvu : v = u := by
      rcases entryValues_cases hv with hall | ⟨m, key, hsource, hmerge⟩
      · exact some.inj ((hall _).symm.trans hu)
      cases (hmerge _).symm.trans hv
      cases (hmerge _).symm.trans hu
      rcases Nat.eq_or_lt_of_le hjr with rfl | hlt
      · rfl
      have hskip := @after_skip σ _ cfg decode now t log (j + 1) r hlt fun i later hi hir hlog =>
        hlater i later hi (Nat.lt_of_lt_of_le hir hrw) hlog
      rw [hskip, hfirst]
      rcases commit_keyless_contents hkeys.symm now key with hsame | ⟨row, hrow, hupdated⟩
      · rw [hsame]
      · rw [hupdated, hrow]
        exact merge_update_merge m row
    subst hvu
    have hagain : st.table = ((after cfg decode now t log j).state.commitValuesLocked
        (cfg.keyColIndices σ) now v).1.table := by
      rw [htab, after_skip hjw hlater, hfirst]
    exact commit_keyless_again hkey hagain now'

/-- **A tombstone is applied again**, with nothing after it that it clashes with. -/
theorem remove_again (hp : e.payload = none) : st.removeKey e.key = none := by
  have hcontents : st.contents e.key = none := by
    rw [contents_after hjw hclash htab (target_tombstone hp), contents,
      after_remove hs hj hnew hp, SlotTable.view_remove, if_pos rfl]
  exact removeKey_eq_none.mpr (map_eq_none_iff.mp hcontents)

end

variable {c : Session σ} {i : ι} {u : Topic σ}

omit [HostText] in
/-- An entry that is written stays so while its session has not raised the watermark. -/
theorem Written.update [DecidableEq ι] (h : Written cfg s e)
    (hmark : s.topic.mark cfg e.origin ≤ u.mark cfg e.origin)
    (hnote : ∀ e', (s.session i).phase = .note e' → e'.sequence ≤ u.mark cfg e'.origin) :
    Written cfg ⟨u, update s.session i c⟩ e := by
  rcases h with hreached | ⟨i', hphase⟩
  · exact .inl (Nat.le_trans hreached hmark)
  by_cases hi : i' = i
  · subst hi
    exact .inl (hnote e hphase)
  · refine .inr ⟨i', ?_⟩
    dsimp only
    rw [update_of_ne hi]
    exact hphase

section
variable (h : Progress cfg decode now t log origin s w)
include h

/-- A session that has read everything before an entry that is written or writes nothing. -/
theorem Progress.passed (hlog : log[p]? = some e)
    (hpw : p ≤ w) (hpass : e.sequence ≤ s.topic.mark cfg origin ∨ target cfg σ decode e = none) :
    ∃ w', w ≤ w' ∧ p < w' ∧ Progress cfg decode now t log origin s w' := by
  rcases Nat.lt_or_ge p w with hlt | hge
  · exact ⟨w, le_rfl, hlt, h⟩
  obtain rfl : p = w := Nat.le_antisymm hpw hge
  have hskip : target cfg σ decode e = none := by
    rcases hpass with hreached | hskip
    · exact absurd (h.ahead p e le_rfl hlog) (Nat.not_lt.mpr hreached)
    · exact hskip
  refine ⟨p + 1, Nat.le_succ p, Nat.lt_succ_self p, ?_⟩
  refine ⟨(List.getElem?_eq_some_iff.mp hlog).1, ?_, h.started, ?_, ?_, ?_⟩
  · rw [after_succ hlog, replayEntry_skip now _ hskip]
    exact h.table
  · exact fun j e' hj => h.ahead j e' (Nat.le_of_succ_le hj)
  · intro j e' hj hlog' htarget
    rcases Nat.lt_succ_iff_lt_or_eq.mp hj with hlt | rfl
    · exact h.written j e' hlt hlog' htarget
    · cases hlog.symm.trans hlog'
      exact absurd hskip htarget
  · intro i
    obtain ⟨p', hrest, hat⟩ := h.sessions i
    exact ⟨p', hrest, hat.mono (Nat.le_succ p)⟩

theorem Progress.no_clash (hs : Stream origin log) (hlog : log[j]? = some e)
    (hok : ∀ later ∈ log, e.sequence < later.sequence → Written cfg s later →
      ¬ Clash cfg σ decode e later) :
    ∀ i later, j < i → i < w → log[i]? = some later → ¬ Clash cfg σ decode e later := by
  intro i later hi hiw hlog' hclash
  have hwritten := h.written i later hiw hlog' hclash.1
  exact hok later (mem_of_getElem? hlog') (hs.lt hlog hlog' hi) hwritten hclash

variable [DecidableEq ι]

theorem Progress.others (hle : w ≤ w')
    (hrest : c.rest = log.drop p) (hat : Phase.At cfg decode now t log origin w' p c.phase)
    (i' : ι) :
    ∃ p, (update s.session i c i').rest = log.drop p ∧
      Phase.At cfg decode now t log origin w' p (update s.session i c i').phase := by
  by_cases hi : i' = i
  · subst hi
    rw [update_self]
    exact ⟨p, hrest, hat⟩
  · rw [update_of_ne hi]
    obtain ⟨p', hrest', hat'⟩ := h.sessions i'
    exact ⟨p', hrest', hat'.mono hle⟩

/-- **A session writes**, an entry that is not written yet or again. -/
theorem Progress.written_by {rest : List LogEntry}
    (hlog : log[j]? = some e) (hrest : rest = log.drop (j + 1)) (hjw : j ≤ w)
    (hphase : ∀ e', (s.session i).phase ≠ .note e')
    (hmark : u.mark cfg origin = s.topic.mark cfg origin) (horigin : ∀ e ∈ log, e.origin = origin)
    (hfirst : j = w → u.state.table = (after cfg decode now t log (j + 1)).state.table)
    (hagain : j < w → u.state.table = s.topic.state.table) :
    ∃ w', Progress cfg decode now t log origin
      ⟨u, update s.session i ⟨rest, .note e⟩⟩ w' := by
  refine ⟨max w (j + 1), max_le h.le (List.getElem?_eq_some_iff.mp hlog).1, ?_, ?_, ?_, ?_,
    h.others (le_max_left _ _) hrest ⟨j, rfl, hlog, by omega⟩⟩
  · rcases Nat.lt_or_eq_of_le hjw with hlt | rfl
    · rw [max_eq_left hlt]
      exact (hagain hlt).trans h.table
    · rw [max_eq_right (Nat.le_succ j)]
      exact hfirst rfl
  · rw [hmark]
    exact h.started
  · rw [hmark]
    exact fun j' e' hj' => h.ahead j' e' (le_of_max_le_left hj')
  · intro j' e' hj' hlog' htarget
    by_cases hlt : j' < w
    · refine (h.written j' e' hlt hlog' htarget).update ?_ fun e' he' => absurd he' (hphase e')
      rw [horigin e' (mem_of_getElem? hlog'), hmark]
    · obtain rfl : j' = j := by omega
      cases hlog.symm.trans hlog'
      exact .inr ⟨i, by dsimp only; rw [update_self]⟩

theorem Progress.step (hs : Stream origin log)
    {x : ι × Nat} {s' : State σ ι} (hok : Ok cfg decode log s x)
    (hstep : step cfg decode s x = some s') :
    ∃ w', Progress cfg decode now t log origin s' w' := by
  obtain ⟨i, now'⟩ := x
  obtain ⟨p, hrest, hat⟩ := h.sessions i
  -- a session that does not write leaves the topic as it is
  have hmove : ∀ {w' p' : Nat} {rest : List LogEntry} {phase : Phase σ},
      Progress cfg decode now t log origin s w' → rest = log.drop p' →
      Phase.At cfg decode now t log origin w' p' phase →
      (∀ e, (s.session i).phase ≠ .note e) →
      Progress cfg decode now t log origin ⟨s.topic, update s.session i ⟨rest, phase⟩⟩ w' := by
    intro w' p' rest phase h' hrest' hat' hphase
    refine ⟨h'.le, h'.table, h'.started, h'.ahead, ?_, h'.others (Nat.le_refl w') hrest' hat'⟩
    intro j e hj hlog htarget
    exact (h'.written j e hj hlog htarget).update le_rfl fun e' he' =>
      absurd he' (hphase e')
  unfold Sessions.step at hstep
  dsimp only at hstep
  cases hphase : (s.session i).phase with
  | ready =>
    rw [hphase] at hstep hat
    dsimp only at hstep
    split at hstep
    · cases hstep
    rename_i e rest hcons
    cases hstep
    rw [hrest] at hcons
    have hlog : log[p]? = some e := by rw [← head?_drop, hcons, head?_cons]
    have hrest' : rest = log.drop (p + 1) := by rw [← tail_drop, hcons, tail_cons]
    have hmem := mem_of_getElem? hlog
    have horigin := hs.origin e hmem
    have hdup : s.topic.replayIsDuplicate cfg origin e.sequence =
        decide (e.sequence ≤ s.topic.mark cfg origin) :=
      Topic.isDuplicate_eq_mark s.topic origin (hs.positive e hmem)
    have hnote : ∀ e', (s.session i).phase ≠ .note e' := fun e' => by simp [hphase]
    rcases check_cases s.topic e with ⟨hready, hpass⟩ | ⟨hfresh, hcheck⟩
    · rw [hready]
      have hpass' : e.sequence ≤ s.topic.mark cfg origin ∨ target cfg σ decode e = none := by
        refine hpass.imp_left fun hd => ?_
        rw [horigin, hdup] at hd
        exact of_decide_eq_true hd
      obtain ⟨w', -, hlt, h'⟩ := h.passed hlog hat hpass'
      exact ⟨w', hmove h' hrest' hlt hnote⟩
    · have hnew : t.mark cfg origin < e.sequence := by
        rw [horigin, hdup, decide_eq_false_iff_not, Nat.not_le] at hfresh
        exact Nat.lt_of_le_of_lt h.started hfresh
      rcases hcheck with ⟨hc, hp⟩ | ⟨v, hc, hv⟩ | ⟨m, key, hc, hv⟩
      · rw [hc]
        exact ⟨w, hmove h hrest' ⟨p, rfl, hlog, hnew, hat, hp⟩ hnote⟩
      · rw [hc]
        exact ⟨w, hmove h hrest' ⟨p, rfl, hlog, hnew, w, hat, le_rfl, hv _⟩ hnote⟩
      · rw [hc]
        exact ⟨w, hmove h hrest' ⟨p, rfl, hlog, hnew, hat, hv⟩ hnote⟩
  | merge e m key =>
    rw [hphase] at hstep hat
    cases hstep
    obtain ⟨j, rfl, hlog, hnew, hjw, hv⟩ := hat
    refine ⟨w, hmove h hrest ⟨j, rfl, hlog, hnew, w, hjw, le_rfl, ?_⟩ (by simp [hphase])⟩
    rw [hv, contents, contents, h.table]
  | write e v =>
    unfold Ok at hok
    rw [hphase] at hstep hat hok
    cases hstep
    obtain ⟨j, rfl, hlog, hnew, r, hjr, hrw, hv⟩ := hat
    refine h.written_by hlog hrest (Nat.le_trans hjr hrw) (by simp [hphase]) rfl hs.origin ?_ ?_
    · rintro rfl
      obtain rfl : r = j := Nat.le_antisymm hrw hjr
      rw [after_write hs hlog hnew hv]
      exact commitValuesLocked_table_eq h.table rfl (fun _ => rfl) (fun _ _ => rfl) _ _
    · intro hlt
      exact write_again hs hlog hnew hlt (h.no_clash hs hlog hok) h.table hjr hrw hv now'
  | remove e =>
    unfold Ok at hok
    rw [hphase] at hstep hat hok
    obtain ⟨j, rfl, hlog, hnew, hjw, hp⟩ := hat
    have hnote : ∀ e', (s.session i).phase ≠ .note e' := fun e' => by simp [hphase]
    have hnext := @after_remove σ _ cfg decode now t log origin e j hs hlog hnew hp
    dsimp only at hstep
    split at hstep
    · rename_i hnone
      cases hstep
      refine h.written_by hlog hrest hjw hnote rfl hs.origin ?_ fun _ => rfl
      rintro rfl
      rw [hnext, ← h.table, SlotTable.remove_of_none (removeKey_eq_none.mp hnone)]
    · rename_i st r hsome
      cases hstep
      refine h.written_by hlog hrest hjw hnote rfl hs.origin ?_ fun hlt => ?_
      · rintro rfl
        rw [hnext, ← h.table, (removeKey_eq_some.mp hsome).2]
      · rw [remove_again hs hlog hnew hlt (h.no_clash hs hlog hok) h.table hp] at hsome
        cases hsome
  | note e =>
    rw [hphase] at hstep hat
    cases hstep
    obtain ⟨j, rfl, hlog, hjw⟩ := hat
    have horigin := hs.origin e (mem_of_getElem? hlog)
    have hmark : (s.topic.replayNoteApplied cfg e.origin e.sequence).mark cfg origin =
        max (s.topic.mark cfg origin) e.sequence := by
      rw [horigin]
      exact Topic.mark_noteApplied cfg s.topic origin e.sequence
    refine ⟨w, h.le, ?_, ?_, ?_, ?_, h.others le_rfl hrest hjw⟩
    · rw [Topic.noteApplied_state]
      exact h.table
    · rw [hmark]
      exact Nat.le_trans h.started (Nat.le_max_left _ _)
    · intro j' e' hj' hlog'
      rw [hmark]
      exact max_lt (h.ahead j' e' hj' hlog') (hs.lt hlog hlog' (Nat.lt_of_lt_of_le hjw hj'))
    · intro j' e' hj' hlog' htarget
      refine (h.written j' e' hj' hlog' htarget).update ?_ fun e'' he'' => ?_
      · rw [hs.origin e' (mem_of_getElem? hlog'), hmark]
        exact Nat.le_max_left _ _
      · rw [hphase] at he''
        cases he''
        rw [horigin] at hmark ⊢
        rw [hmark]
        exact Nat.le_max_right _ _

end

theorem Progress.start (hs : Stream origin log) :
    ∃ w, Progress cfg decode now t log origin (State.start ι t log) w := by
  let w := log.findIdx fun e => t.mark cfg origin < e.sequence
  have hbefore : ∀ j e, j < w → log[j]? = some e → e.sequence ≤ t.mark cfg e.origin := by
    intro j e hj he
    obtain ⟨hlt, rfl⟩ := List.getElem?_eq_some_iff.mp he
    rw [hs.origin _ (getElem_mem hlt)]
    simpa using not_of_lt_findIdx hj
  refine ⟨w, findIdx_le_length, ?_, le_rfl, ?_, fun j e hj he _ => .inl (hbefore j e hj he),
    fun _ => ⟨0, rfl, Nat.zero_le _⟩⟩
  · -- the sequential replay skips the entries before
    have hskip : after cfg decode now t log w = t := by
      refine after_induction (P := (· = t)) (Nat.zero_le w) ?_ rfl
      rintro j e - hj he _ rfl
      rcases replayEntry_spec now _ e with ⟨-, hsame⟩ | ⟨hfresh, -⟩
      · exact hsame
      · rw [Topic.isDuplicate_eq_mark _ _ (hs.positive e (mem_of_getElem? he)),
          decide_eq_false_iff_not] at hfresh
        exact absurd (hbefore j e hj he) hfresh
    rw [hskip]
    rfl
  · intro j e hj he
    have hlt : w < log.length := Nat.lt_of_le_of_lt hj (List.getElem?_eq_some_iff.mp he).1
    have hfirst : t.mark cfg origin < (log.get ⟨w, hlt⟩).sequence := by
      simpa using findIdx_getElem (w := hlt)
    rcases Nat.eq_or_lt_of_le hj with rfl | hlater
    · obtain ⟨_, rfl⟩ := List.getElem?_eq_some_iff.mp he
      exact hfirst
    · exact hfirst.trans (hs.lt (getElem?_eq_getElem hlt) he hlater)

variable [DecidableEq ι]

/-- **Concurrent sessions.** Sessions bring the entries of one origin, each in sequence, and no
entry is written after a later one it clashes with. When one of them is at its end, every record is
as the sequential replay leaves it. -/
theorem concurrent_replay (hs : Stream origin log) {xs : List (ι × Nat)}
    (hrun : Run (step cfg decode) (Ok cfg decode log) (.start ι t log) xs s) (i : ι)
    (hrest : (s.session i).rest = []) (hready : (s.session i).phase = .ready) :
    (∀ k, s.topic.state.contents k = (t.replayLog cfg decode now log).state.contents k) ∧
      ∀ before e later k, log = before ++ e :: later →
        (∀ e' ∈ later, target cfg σ decode e' = none ∨
          ∃ k', target cfg σ decode e' = some (some k') ∧ k' ≠ k) →
        s.topic.state.contents k =
          ((t.replayLog cfg decode now before).replayEntry cfg decode now e).state.contents k := by
  obtain ⟨w, h⟩ : ∃ w, Progress cfg decode now t log origin s w := by
    refine hrun.invariant (P := fun s => ∃ w, Progress cfg decode now t log origin s w) ?_
      (Progress.start hs)
    rintro s x s' ⟨w, h⟩ hok hstep
    exact h.step hs hok hstep
  obtain ⟨p, hdrop, hat⟩ := h.sessions i
  rw [hready] at hat
  have hlen : log.length ≤ p := drop_eq_nil_iff.mp (hdrop.symm.trans hrest)
  obtain rfl : w = log.length := Nat.le_antisymm h.le (Nat.le_trans hlen hat)
  have hall : ∀ k, s.topic.state.contents k = (after cfg decode now t log log.length).state.contents k := by
    intro k
    rw [contents, contents, h.table]
  refine ⟨fun k => ?_, fun before e later k hlog hk => ?_⟩
  · rw [hall, after, take_length]
  · have hget : log[before.length]? = some e := by
      rw [hlog, getElem?_append_right le_rfl, Nat.sub_self]
      rfl
    have hlt : before.length < log.length := (List.getElem?_eq_some_iff.mp hget).1
    have hbefore : after cfg decode now t log before.length = t.replayLog cfg decode now before := by
      rw [after, hlog, take_left]
    rw [hall, after_contents hlt fun j e' hj _ he' => hk e' ?_, after_succ hget, hbefore]
    rw [hlog, append_cons, getElem?_append_right (by simpa using hj)] at he'
    exact mem_of_getElem? he'

end Steps

section TwoSessions
open Replay

open Unused

instance (cfg : TopicConfig) (decode : Decode) (e later : LogEntry) :
    Decidable (Clash cfg σ decode e later) :=
  inferInstanceAs (Decidable (_ ∧ (_ ∨ _ ∨ _ ∨ _)))

instance (cfg : TopicConfig) (log : List LogEntry) (s : State σ Bool) (x : Bool × Nat) :
    Decidable (Ok cfg some log s x) := by
  dsimp only [Ok, Written]
  cases (s.session x.1).phase <;> infer_instance

/-- Two publishes of order 7 at another primary, a sparse delta and the delete of order 8. -/
def fromPrimary : List LogEntry :=
  [⟨1, "7", "p", some (order [("id", 7), ("x", 10), ("y", 11)]), .json⟩, ⟨2, "8", "p", none, .json⟩,
    ⟨3, "7", "p", some (order [("id", 7), ("x", 20)]), .jsonDelta⟩]

theorem fromPrimary_stream : Stream "p" fromPrimary where
  origin := by decide
  sorted := by decide
  positive := by decide

/-- One session goes through its stream while the other checks the first entry and writes it
once more, before the delta. -/
def interleaved : List (Bool × Nat) :=
  [false, true, false, false, true, true, false, false, false, true, false, false, true, true,
    false, true, false].map (·, 0)

theorem concurrent_replay_interleaved : ∃ s,
    Run (step ordersConfig some) (Ok ordersConfig some fromPrimary)
        (.start Bool (Topic.new orders) fromPrimary) interleaved s ∧
      (∀ k, s.topic.state.contents k =
        ((Topic.new orders).replayLog ordersConfig some 0 fromPrimary).state.contents k) ∧
      (s.topic.state.contents "7").map (fun r => (r.cells ⟨1, by decide⟩, r.cells ⟨2, by decide⟩)) =
        some (.long 20, .long 11) := by
  refine Run.exists_of_check
    (fun s => (s.session false).rest = [] ∧ (s.session false).phase = .ready ∧
      (s.topic.state.contents "7").map (fun r => (r.cells ⟨1, by decide⟩, r.cells ⟨2, by decide⟩)) =
      some (.long 20, .long 11))
    (by decide +kernel) fun s hrun ⟨hrest, hready, hrow⟩ => ?_
  exact ⟨(concurrent_replay fromPrimary_stream hrun false hrest hready).1, hrow⟩

def twice : List LogEntry :=
  [⟨1, "7", "p", some (order [("id", 7), ("x", 10), ("y", 11)]), .json⟩,
    ⟨2, "7", "p", some (order [("id", 7), ("x", 20), ("y", 21)]), .json⟩]

/-- One session checks the first publish; the other applies both; the first goes on. -/
def overtaken : List (Bool × Nat) :=
  [false, true, true, true, true, true, true, false, false, false].map (·, 0)

/-- The old publish is written over the new one, and both sessions are at their end. -/
theorem stale_entry_rewritten : Stream "p" twice ∧ ∃ s,
    Run (step ordersConfig some) (fun _ _ => True)
        (.start Bool (Topic.new orders) twice) overtaken s ∧
      (∀ i, (s.session i).rest = [] ∧ (s.session i).phase = .ready) ∧
      (s.topic.state.contents "7").map (·.cells ⟨1, by decide⟩) = some (.long 10) ∧
      (((Topic.new orders).replayLog ordersConfig some 0 twice).state.contents "7").map
        (·.cells ⟨1, by decide⟩) = some (.long 20) := by
  refine ⟨⟨by decide, by decide, by decide⟩, ?_⟩
  decide +kernel

end TwoSessions

end Sessions

end CqServer
