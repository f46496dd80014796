import CqServer.Replication.Sessions
import CqServer.Replication.Shipper
import CqServer.Topic.History

/-!
# Replication through a filter

A shipper with a filter sends the entries whose payload has the value in the filter column, and
every tombstone. What a standby should have is a matter of rows: the primary's live rows that have
the value (`mirror`). The two agree as long as a payload tells about its row: the filter column in
the payload is what the row gets, a record that is not shipped any more never was, and one that
is shipped for the first time comes with all its columns (`Routable`, `filtered_standby`).

A record that leaves the filter stays on the standby as it was (`left_filter_stays`).
-/

namespace CqServer

open Lib StoreState List Function Option

variable {σ : Schema}

/-! ## The filter on payloads and on rows -/

section Filter
variable [HostText]

/-- The comparison of `apply_filter` with what the payload has under the column. -/
def FilterSpec.holds (f : FilterSpec) : Option Json → Bool
  | some (.string s) => s = f.value
  | some (.number n) => n.render = f.value
  | some (.bool b) => (if b then "true" else "false") = f.value
  | _ => false

/-- A value of the filter column passes. -/
def FilterSpec.Passes (f : FilterSpec) (vals : σ.Col → Value) : Prop :=
  ∃ i, σ.columnName i = f.column ∧ f.holds (some (vals i).toJson) = true

instance (f : FilterSpec) (vals : σ.Col → Value) : Decidable (f.Passes vals) :=
  inferInstanceAs (Decidable (∃ _, _ ∧ _))

/-- The row has the value in the filter column, in its JSON form. -/
def Row.meets (f : FilterSpec) (r : Row σ) : Bool := f.holds (r.getRowMap.get? f.column)

theorem Row.meets_iff (hσ : σ.Distinct) (f : FilterSpec) (r : Row σ) :
    r.meets f = true ↔ f.Passes r.cells := by
  unfold meets
  constructor
  · intro h
    by_cases hcol : ∃ i, σ.columnName i = f.column
    · obtain ⟨i, hi⟩ := hcol
      rw [← hi, getRowMap_get? hσ] at h
      split at h
      · exact ⟨i, hi, h⟩
      · cases h
    · rw [getRowMap, getRowMapProjected_get?_of_ne r _ (not_exists.mp hcol)] at h
      cases h
  · rintro ⟨i, hi, h⟩
    rw [← hi, getRowMap_get? hσ]
    split
    · exact h
    · rename_i hnull
      rw [Value.toJson_of_isNull (by simpa using hnull)] at h
      cases h

theorem mergedPayload_holds (hσ : σ.Distinct) (f : FilterSpec) (v : Values σ) :
    f.holds ((mergedPayload v).get? f.column) = true ↔ f.Passes v.vals := by
  constructor
  · intro h
    by_cases hcol : ∃ i, σ.columnName i = f.column
    · obtain ⟨i, hi⟩ := hcol
      rw [← hi, mergedPayload_get? hσ] at h
      exact ⟨i, hi, h⟩
    · rw [mergedPayload_get?_of_ne v (not_exists.mp hcol)] at h
      cases h
  · rintro ⟨i, hi, h⟩
    rw [← hi, mergedPayload_get? hσ]
    exact h

variable {f : FilterSpec} {v : Values σ}

theorem passes_upsertRow (h : f.Passes v.vals)
    (old : Option (Row σ)) : f.Passes (upsertRow old v).cells := by
  obtain ⟨i, hi, hv⟩ := h
  have hne : v.vals i ≠ .null := by
    intro hnull
    rw [hnull] at hv
    cases hv
  refine ⟨i, hi, ?_⟩
  rw [upsertRow_cells, if_neg hne]
  exact hv

theorem not_passes_upsertRow (h : ¬ f.Passes v.vals)
    {old : Option (Row σ)} (hold : ∀ r, old = some r → ¬ f.Passes r.cells) :
    ¬ f.Passes (upsertRow old v).cells := by
  rintro ⟨i, hi, hv⟩
  rw [upsertRow_cells] at hv
  split at hv
  · cases old with
    | none =>
      rw [Option.elim, Value.toJson_nullOf] at hv
      cases hv
    | some r => exact hold r rfl ⟨i, hi, hv⟩
  · exact h ⟨i, hi, hv⟩

end Filter

/-! ## Entries as updates of the records -/

section Records
variable [HostText] {cfg : TopicConfig} {decode : Decode}

/-- A commit, on the records: without a key it is not one of theirs. -/
def commitTo (cfg : TopicConfig) (c : String → Option (Row σ)) (v : Values σ) :
    String → Option (Row σ) :=
  match computeKeyWith v.vals (cfg.keyColIndices σ) with
  | some k => update c k (some (upsertRow (c k) v))
  | none => c

theorem commitTo_of_key {v : Values σ} {k : String}
    (hk : computeKeyWith v.vals (cfg.keyColIndices σ) = some k) (c : String → Option (Row σ)) :
    commitTo cfg c v = update c k (some (upsertRow (c k) v)) := by
  simp [commitTo, hk]

def applyRecord (cfg : TopicConfig) (c : String → Option (Row σ)) (e : LogEntry) :
    String → Option (Row σ) :=
  match e.payload with
  | none => update c e.key none
  | some payload =>
    match e.format with
    | .json => commitTo cfg c (.ofMap σ (flatView payload))
    | .jsonDelta =>
      match deltaKey cfg (flatView payload) with
      | none => c
      | some key => commitTo cfg c (.merge σ (flatView payload) (c key))

theorem commit_contents_eq {v : Values σ} {k : String}
    (hk : computeKeyWith v.vals (cfg.keyColIndices σ) = some k) (now : Nat) (st : StoreState σ) :
    (st.commitValuesLocked (cfg.keyColIndices σ) now v).1.contents = commitTo cfg st.contents v := by
  funext k'
  rw [commitValuesLocked_contents hk, commitTo_of_key hk, update_apply]

theorem replayEntry_records {t : Topic σ} {e : LogEntry} {k : String}
    (hnew : t.replayIsDuplicate cfg e.origin e.sequence = false)
    (hdec : ∀ payload, e.payload = some payload → decode payload = some payload)
    (hk : Sessions.target cfg σ decode e = some (some k)) (now : Nat) :
    (t.replayEntry cfg decode now e).state.contents = applyRecord cfg t.state.contents e ∧
      (t.replayEntry cfg decode now e).mark cfg e.origin = max (t.mark cfg e.origin) e.sequence := by
  rcases Sessions.replayEntry_spec now t e with
    ⟨hdup | hskip, -⟩ | ⟨-, hmark, ⟨hp, hremove⟩ | ⟨v, hv, hwrite⟩⟩
  · rw [hnew] at hdup
    cases hdup
  · rw [hk] at hskip
    cases hskip
  · refine ⟨?_, hmark⟩
    funext k'
    rw [contents, hremove, SlotTable.view_remove, applyRecord, hp]
    dsimp only
    rw [update_apply]
    rfl
  · refine ⟨?_, hmark⟩
    have hkey : computeKeyWith v.vals (cfg.keyColIndices σ) = some k :=
      some.inj ((Sessions.target_of_entryValues hv).symm.trans hk)
    rw [hwrite, commit_contents_eq hkey]
    unfold entryValues at hv
    unfold applyRecord
    cases hp : e.payload with
    | none =>
      rw [hp] at hv
      cases hv
    | some payload =>
      rw [hp] at hv
      dsimp only at hv ⊢
      rw [hdec payload hp] at hv
      cases hf : e.format with
      | json =>
        rw [hf] at hv
        cases hv
        rfl
      | jsonDelta =>
        rw [hf] at hv
        obtain ⟨key, hkey', rfl⟩ := map_eq_some_iff.mp hv
        rw [hkey']

end Records

/-! ## The rows a standby should have -/

section Mirror
variable [HostText] {cfg : TopicConfig} {f : FilterSpec}

def mirror (f : FilterSpec) (c : String → Option (Row σ)) (k : String) : Option (Row σ) :=
  (c k).filter (·.meets f)

variable {c : String → Option (Row σ)} {k : String}

theorem mirror_of_meets {r : Row σ} (hr : c k = some r) (h : r.meets f = true) :
    mirror f c k = c k := by
  rw [mirror, hr, filter_some, if_pos h]

theorem mirror_of_fails {r : Row σ} (hr : c k = some r) (h : r.meets f = false) :
    mirror f c k = none := by
  simp [mirror, hr, h]

theorem mirror_of_not_meets (h : ∀ r, c k = some r → r.meets f = false) : mirror f c k = none := by
  cases hr : c k with
  | none => rw [mirror, hr, filter_none]
  | some r => exact mirror_of_fails hr (h r hr)

theorem mirror_update (c : String → Option (Row σ)) (k : String) (r : Option (Row σ)) :
    mirror f (update c k r) = update (mirror f c) k (r.filter (·.meets f)) := by
  funext k'
  by_cases hk : k' = k
  · subst hk
    simp [mirror]
  · simp [mirror, hk]

/-- What a commit has to fulfil to be filtered by its payload alone: the payload is shipped if the
value it writes passes; a record that is shipped for the first time has no other columns; a record
that is not shipped did not meet the filter. -/
@[mk_iff]
structure Fits (f : FilterSpec) (shipped : Bool) (old : Option (Row σ)) (v : Values σ) : Prop where
  agrees : shipped = true ↔ f.Passes v.vals
  replaces : shipped = true → ∀ r, old = some r → r.meets f = false →
    ∀ j, v.vals j = .null → r.cells j = Value.nullOf (σ.columnType j)
  stays : shipped = false → ∀ r, old = some r → r.meets f = false

variable {v : Values σ}

theorem Fits.upsertRow_mirror (h : Fits f true (c k) v) :
    upsertRow (mirror f c k) v = upsertRow (c k) v := by
  cases hr : c k with
  | none => rw [mirror_of_not_meets fun r hr' => nomatch hr.symm.trans hr']
  | some r =>
    cases hm : r.meets f with
    | true => rw [mirror_of_meets hr hm, hr]
    | false =>
      rw [mirror_of_fails hr hm]
      ext i
      by_cases hnull : v.vals i = .null
      · simp [h.replaces rfl r hr hm i hnull]
      · simp [hnull]

theorem Fits.mirror_commit (hσ : σ.Distinct) {shipped : Bool} (h : Fits f shipped (c k) v)
    (hk : computeKeyWith v.vals (cfg.keyColIndices σ) = some k) :
    mirror f (commitTo cfg c v) =
      if shipped then update (mirror f c) k (some (upsertRow (c k) v)) else mirror f c := by
  rw [commitTo_of_key hk, mirror_update]
  cases shipped with
  | true =>
    have hmeets : (upsertRow (c k) v).meets f = true :=
      (Row.meets_iff hσ f _).mpr (passes_upsertRow (h.agrees.mp rfl) _)
    rw [filter_some, if_pos hmeets]
    rfl
  | false =>
    have hold := h.stays rfl
    have hmeets : ¬ (upsertRow (c k) v).meets f = true := by
      rw [Row.meets_iff hσ]
      refine not_passes_upsertRow (fun hp => Bool.false_ne_true (h.agrees.mpr hp)) ?_
      intro r hr
      rw [← Row.meets_iff hσ, hold r hr]
      exact Bool.false_ne_true
    rw [filter_some, if_neg hmeets]
    exact update_eq_self_iff.mpr (mirror_of_not_meets hold).symm

/-- A mutation whose entry tells enough about its row: it has a key, and it fits. A delta journalled
as the merged row writes all its columns, if it can be replayed at all; a sparse one is merged
into what the standby has. -/
def Routable (cfg : TopicConfig) (f : FilterSpec) (st : StoreState σ) : History.Mutation → Prop
  | .publish _ m =>
    ∃ k, computeKeyWith (Values.ofMap σ (flatView m)).vals (cfg.keyColIndices σ) = some k ∧
      Fits f (f.holds ((flatView m).get? f.column)) (st.contents k) (.ofMap σ (flatView m))
  | .delta _ m => ∀ key, deltaKey cfg (flatView m) = some key →
      ∃ k, computeKeyWith (Values.merge σ (flatView m) (st.contents key)).vals
          (cfg.keyColIndices σ) = some k ∧
        if cfg.sparseDeltaTxlog then
          Fits f (f.holds ((flatView m).get? f.column)) (st.contents k)
              (.merge σ (flatView m) (st.contents key)) ∧
            (f.holds ((flatView m).get? f.column) = true → ∀ r, st.contents key = some r →
              r.meets f = false → key = k ∧ ∀ j, (flatView m).get? (σ.columnName j) = none →
                r.cells j = Value.nullOf (σ.columnType j))
        else
          Journalable (cfg.keyColIndices σ) st (.merge σ (flatView m) (st.contents key)) ∧
            (¬ f.Passes (Values.merge σ (flatView m) (st.contents key)).vals →
              ∀ r, st.contents k = some r → r.meets f = false)
  | .delete _ => True

/-- A sparse delta is merged on the standby as on the primary, or replaces the whole row. -/
theorem upsertRow_merge_mirror {m : JsonMap} {key k : String}
    (hfits : Fits f true (c k) (.merge σ m (c key)))
    (hwhole : ∀ r, c key = some r → r.meets f = false → key = k ∧
      ∀ j, m.get? (σ.columnName j) = none → r.cells j = Value.nullOf (σ.columnType j)) :
    upsertRow (mirror f c k) (.merge σ m (mirror f c key)) =
      upsertRow (c k) (.merge σ m (c key)) := by
  cases hr : c key with
  | none =>
    rw [hr] at hfits
    rw [mirror_of_not_meets fun r hr' => nomatch hr.symm.trans hr']
    exact hfits.upsertRow_mirror
  | some r =>
    cases hm : r.meets f with
    | true =>
      rw [hr] at hfits
      rw [mirror_of_meets hr hm, hr]
      exact hfits.upsertRow_mirror
    | false =>
      obtain ⟨rfl, hnull⟩ := hwhole r hr hm
      rw [mirror_of_fails hr hm, hr]
      ext j
      cases hj : m.get? (σ.columnName j) with
      | none => simp [Values.merge, hj, hnull j hj]
      | some x => simp [Values.merge, hj]

variable {st : StoreState σ}

variable (hσ : σ.Distinct) (h : Journalable (cfg.keyColIndices σ) st v)
  (hk : computeKeyWith v.vals (cfg.keyColIndices σ) = some k)
include hσ h hk

/-- The journalled row replaces whatever the standby has. -/
theorem Journalable.upsertRow_payload (old : Option (Row σ)) :
    upsertRow old (.ofMap σ (mergedPayload v)) = upsertRow (st.contents k) v := by
  have hvals : ∀ i, (Values.ofMap σ (mergedPayload v)).vals i =
      Value.fromJson (v.vals i).toJson (σ.columnType i) := by
    simp [Values.ofMap, mergedPayload_get? hσ]
  ext i
  rw [upsertRow_cells, upsertRow_cells, hvals, if_neg (Value.fromJson_ne_null _ _)]
  split
  · rename_i hnull
    rw [hnull]
    cases hold : st.contents k with
    | none => exact Value.fromJson_null _
    | some r =>
      refine (Value.fromJson_null _).trans (h.leftOut i hnull r ?_).symm
      rw [updatedRow, hk]
      exact hold
  · rename_i hnull
    exact h.survives i hnull

end Mirror

/-! ## The entries of the primary -/

section Primary
variable [HostText] {cfg : TopicConfig} {f : FilterSpec} {decode : Decode}

def Ships (f : FilterSpec) (decode : Decode) (e : LogEntry) : Bool :=
  applyFilter decode e.payload (some f)

/-- The entry takes the records that meet the filter from the one state to the other, if it is
shipped; otherwise they have not changed. -/
structure Carries (cfg : TopicConfig) (f : FilterSpec) (decode : Decode)
    (e : LogEntry) (c c' : String → Option (Row σ)) : Prop where
  keyed : Ships f decode e = true → ∃ k, Sessions.target cfg σ decode e = some (some k)
  mirror : mirror f c' =
    if Ships f decode e then applyRecord cfg (mirror f c) e else mirror f c

variable {c : String → Option (Row σ)} {e : LogEntry} {k : String} {m : JsonMap}

/-- A commit that fits is carried, if its entry writes the committed row on a mirror. -/
theorem Fits.carries (hσ : σ.Distinct) (hp : e.payload = some m) (hdec : decode m = some m)
    {v : Values σ} (hfits : Fits f (f.holds (m.get? f.column)) (c k) v)
    (hk : computeKeyWith v.vals (cfg.keyColIndices σ) = some k)
    (htarget : Sessions.target cfg σ decode e = some (some k))
    (hrecord : Fits f true (c k) v → f.holds (m.get? f.column) = true →
      applyRecord cfg (mirror f c) e = update (mirror f c) k (some (upsertRow (c k) v))) :
    Carries cfg f decode e c (commitTo cfg c v) := by
  have hships : Ships f decode e = f.holds (m.get? f.column) := by
    simp only [Ships, applyFilter, hp, bind_some, hdec]
    rfl
  refine ⟨fun _ => ⟨k, htarget⟩, ?_⟩
  rw [hfits.mirror_commit hσ hk, hships]
  cases hs : f.holds (m.get? f.column) with
  | false => rfl
  | true =>
    rw [hs] at hfits
    exact (hrecord hfits hs).symm

theorem carries_merged (hσ : σ.Distinct) {st : StoreState σ} {v : Values σ}
    (hp : e.payload = some (mergedPayload v)) (hf : e.format = .json)
    (hdec : decode (mergedPayload v) = some (mergedPayload v))
    (hk : computeKeyWith v.vals (cfg.keyColIndices σ) = some k)
    (hj : Journalable (cfg.keyColIndices σ) st v)
    (hstays : ¬ f.Passes v.vals → ∀ r, st.contents k = some r → r.meets f = false) :
    Carries cfg f decode e st.contents (commitTo cfg st.contents v) := by
  have hkey : computeKeyWith (Values.ofMap σ (mergedPayload v)).vals (cfg.keyColIndices σ) =
      some k := by
    rw [← hk]
    refine computeKeyWith_congr fun i hi => ?_
    have hsurvives : Value.fromJson (v.vals i).toJson (σ.columnType i) = v.vals i :=
      hj.survives i (computeKeyWith_ne_null hk hi)
    simpa [Values.ofMap, mergedPayload_get? hσ] using hsurvives
  have htarget : Sessions.target cfg σ decode e = some (some k) := by
    simp [Sessions.target, hp, hdec, hf, flatView_mergedPayload, hkey]
  have hholds := mergedPayload_holds hσ f v
  have hfits : Fits f (f.holds ((mergedPayload v).get? f.column)) (st.contents k) v := by
    refine ⟨hholds, fun _ r hr _ j hnull => ?_, fun hnot => hstays fun hpass => ?_⟩
    · refine hj.leftOut j hnull r ?_
      rw [updatedRow, hk]
      exact hr
    · rw [hholds.mpr hpass] at hnot
      cases hnot
  refine hfits.carries hσ hp hdec hk htarget fun _ _ => ?_
  simp only [applyRecord, hp, hf, flatView_mergedPayload]
  rw [commitTo_of_key hkey, hj.upsertRow_payload hσ hk]

/-- **A mutation of the primary**: its entry carries the filtered records over. -/
theorem step_carries (hpersist : cfg.persist = true) (hσ : σ.Distinct) {s s' : Replay.State σ}
    {mu : History.Mutation} (hok : Routable cfg f s.topic.state mu)
    (hstep : History.step cfg s mu = some s') (hd : Decodes decode s'.log) :
    s' = s ∨ ∃ e, s'.log = s.log ++ [e] ∧
      Carries cfg f decode e s.topic.state.contents s'.topic.state.contents := by
  rcases History.step_cases hpersist hstep with
    ⟨now, m, rfl, rfl⟩ | ⟨now, m, d, rfl, hread, rfl⟩ | ⟨key, st, r, -, hrem, rfl⟩ |
      ⟨key, -, -, rfl⟩
  · obtain ⟨k, hk, hfits⟩ := hok
    have hdec := hd _ mem_concat_self _ rfl
    refine .inr ⟨_, rfl, ?_⟩
    dsimp only [History.commit]
    rw [commit_contents_eq hk]
    refine hfits.carries hσ rfl hdec hk ?_ fun hfits _ => ?_
    · simp [Sessions.target, History.entry, hdec, hk]
    · simp only [applyRecord, History.entry, flatView_flatView]
      rw [commitTo_of_key hk, hfits.upsertRow_mirror]
  · obtain ⟨key, hkey, rfl⟩ := map_eq_some_iff.mp hread
    obtain ⟨k, hk, hcond⟩ := hok key hkey
    have hdec := hd _ mem_concat_self _ rfl
    refine .inr ⟨_, rfl, ?_⟩
    dsimp only [History.commit] at hdec ⊢
    rw [commit_contents_eq hk]
    cases hs : cfg.sparseDeltaTxlog with
    | true =>
      simp only [hs, if_true] at hdec hcond ⊢
      have hkeys := fun existing => (Sessions.merge_key hkey existing).trans
        ((Sessions.merge_key hkey (s.topic.state.contents key)).symm.trans hk)
      refine hcond.1.carries hσ rfl hdec hk ?_ fun hfits hholds => ?_
      · simp only [Sessions.target, History.entry, hdec, flatView_flatView, hkey, map_some]
        rw [← Sessions.merge_key hkey (s.topic.state.contents key), hk]
      · simp only [applyRecord, History.entry, flatView_flatView, hkey]
        rw [commitTo_of_key (hkeys _), upsertRow_merge_mirror hfits (hcond.2 hholds)]
    | false =>
      simp only [hs] at hdec hcond ⊢
      exact carries_merged hσ rfl rfl hdec hk hcond.1 hcond.2
  · refine .inr ⟨_, rfl, fun _ => ⟨key, rfl⟩, ?_⟩
    dsimp only [History.commit]
    have hcontents : st.contents = update s.topic.state.contents key none := by
      funext k
      rw [removeKey_contents hrem, update_apply]
    rw [hcontents, mirror_update]
    rfl
  · exact .inl rfl

end Primary

/-! ## The connection -/

/-- The files that the shipper's reader goes through are those of `Journal`; here the log is one
list, and `place` is how far the reader is. -/
structure Link (σ : Schema) where
  primary : Replay.State σ
  shipper : TopicShipper
  place : Nat
  wire : List LogEntry
  standby : Topic σ

namespace Link

def hello (t : Topic σ) : AList (fun _ : String => Nat) :=
  t.replicatedHighwater.insert "" t.nextSequence

def init (σ : Schema) : Link σ := ⟨.init σ, ⟨hello (.new σ), 0, none⟩, 0, [], .new σ⟩

inductive Move where
  | write (mu : History.Mutation)
  | poll
  /-- A new cycle: the reader is opened again, at the segment the last cycle ended in. -/
  | reopen (place : Nat)
  | receive (now : Nat)
  /-- The connection breaks, the frames under way are lost, and a new one starts from `Hello`. -/
  | reconnect

def behind (cfg : TopicConfig) (f : FilterSpec) (name : String) : Destination where
  config := { cfg with originId := name }
  filter := some f

section System
variable [HostText] {cfg : TopicConfig} {f : FilterSpec} {name : String}
  {decode : Decode}

def step (cfg : TopicConfig) (f : FilterSpec) (name : String)
    (decode : Decode) (s : Link σ) : Move → Option (Link σ)
  | .write mu => (History.step cfg s.primary mu).map fun p => { s with primary := p }
  | .poll =>
    match s.primary.log[s.place]? with
    | none => none
    | some e =>
      let out := s.shipper.ship (behind cfg f name) decode e
      some { s with
        shipper := out.1
        place := s.place + 1
        wire := s.wire ++ out.2.toList }
  | .reopen place => if place ≤ s.place then some { s with place := place } else none
  | .receive now =>
    match s.wire with
    | [] => none
    | e :: rest =>
      -- of an entry that is not legible the standby gets a payload that is no JSON object
      some { s with
        standby := if e.Legible then
          s.standby.replayEntry (behind cfg f name).config decode now e else s.standby
        wire := rest }
  | .reconnect =>
    some { s with shipper := ⟨hello s.standby, 0, none⟩, place := 0, wire := [] }

def Ok (cfg : TopicConfig) (f : FilterSpec) (s : Link σ) : Move → Prop
  | .write mu => Routable cfg f s.primary.topic.state mu
  | _ => True

/-- The standby's mark for the primary's entries. -/
def mark (cfg : TopicConfig) (f : FilterSpec) (name : String) (s : Link σ) : Nat :=
  s.standby.mark (behind cfg f name).config cfg.originId

/-- The records of the entries that were shipped. -/
def records (cfg : TopicConfig) (f : FilterSpec) (decode : Decode)
    (log : List LogEntry) : String → Option (Row σ) :=
  (log.filter (Ships f decode)).foldl (applyRecord cfg) fun _ => none

/-- The standby has what was shipped up to its mark, the frames under way are what was shipped
from there on, and the whole log brings the primary's filtered records. -/
structure Inv (cfg : TopicConfig) (f : FilterSpec) (name : String)
    (decode : Decode) (s : Link σ) : Prop where
  numbered : History.Numbered cfg s.primary
  keyed : ∀ e ∈ s.primary.log, Ships f decode e = true →
    ∃ k, Sessions.target cfg σ decode e = some (some k)
  mirrored : records cfg f decode s.primary.log = mirror f s.primary.topic.state.contents
  mark_le : s.mark cfg f name ≤ s.shipper.sent cfg.originId
  sent_le : s.shipper.sent cfg.originId ≤ s.primary.log.length
  place_le : s.place ≤ s.shipper.sent cfg.originId
  standby : s.standby.state.contents = records cfg f decode (s.primary.log.take (s.mark cfg f name))
  wire : s.wire = ((s.primary.log.take (s.shipper.sent cfg.originId)).drop
    (s.mark cfg f name)).filter (Ships f decode)
  level : s.standby.nextSequence = s.standby.lastAppliedSequence

variable {s s' : Link σ}

theorem records_append (log log' : List LogEntry) :
    (records cfg f decode (log ++ log') : String → Option (Row σ)) =
      (log'.filter (Ships f decode)).foldl (applyRecord cfg) (records cfg f decode log) := by
  rw [records, filter_append, foldl_append]
  rfl

theorem Inv.init : Inv cfg f name decode (Link.init σ) where
  numbered := .init cfg
  keyed := nofun
  mirrored := by
    funext k
    simp [records, mirror, Link.init, Replay.State.init, Topic.new]
  mark_le := by simp [mark, Link.init, Topic.mark, Topic.new]
  sent_le := by
    unfold TopicShipper.sent Link.init hello
    by_cases horigin : cfg.originId = ""
    · rw [horigin]
      rfl
    · rw [AList.lookup_insert_ne horigin]
      exact Nat.zero_le _
  place_le := Nat.zero_le _
  standby := by
    simp [records, Link.init, Replay.State.init, Topic.new]
  wire := by simp [Link.init, Replay.State.init]
  level := rfl

theorem Inv.write (hpersist : cfg.persist = true) (hσ : σ.Distinct) (h : Inv cfg f name decode s)
    {mu : History.Mutation} (hok : Routable cfg f s.primary.topic.state mu) {p : Replay.State σ}
    (hstep : History.step cfg s.primary mu = some p) (hd : Decodes decode p.log) :
    Inv cfg f name decode { s with primary := p } := by
  have hnumbered := h.numbered.step hpersist hstep
  rcases step_carries hpersist hσ hok hstep hd with rfl | ⟨e, hlog, hcarries⟩
  · exact h
  have htake : ∀ n ≤ s.primary.log.length, p.log.take n = s.primary.log.take n := by
    intro n hn
    rw [hlog, take_append_of_le_length hn]
  constructor
  case numbered => exact hnumbered
  case keyed =>
    intro e' he' hs
    rw [hlog] at he'
    rcases mem_append.mp he' with hold | hnew
    · exact h.keyed e' hold hs
    · rw [mem_singleton.mp hnew] at hs ⊢
      exact hcarries.keyed hs
  case mirrored =>
    rw [hlog, records_append, h.mirrored, hcarries.mirror]
    cases hs : Ships f decode e with
    | true | false => simp [hs]
  case mark_le => exact h.mark_le
  case sent_le =>
    rw [hlog, length_append]
    exact Nat.le_trans h.sent_le (Nat.le_add_right _ _)
  case place_le => exact h.place_le
  case standby =>
    have hmark := Nat.le_trans h.mark_le h.sent_le
    exact h.standby.trans (congrArg _ (htake _ hmark).symm)
  case wire =>
    refine h.wire.trans ?_
    rw [htake _ h.sent_le]
    rfl
  case level => exact h.level

/-- **The shipper takes an entry**: one it has dealt with is passed over. -/
theorem Inv.poll (hnames : cfg.originId = "" ∨ cfg.originId ≠ name) (h : Inv cfg f name decode s)
    {e : LogEntry} (he : s.primary.log[s.place]? = some e) :
    Inv cfg f name decode
      { s with
        shipper := (s.shipper.ship (behind cfg f name) decode e).1
        place := s.place + 1
        wire := s.wire ++ (s.shipper.ship (behind cfg f name) decode e).2.toList } := by
  have hseq := h.numbered.sequence _ e he
  have horigin := h.numbered.origin e (mem_of_getElem? he)
  have hnamed : (behind cfg f name).Names cfg.originId := hnames
  obtain ⟨hskip, hsend⟩ : _ ∧ (_ → s.shipper.ship (behind cfg f name) decode e = _) :=
    TopicShipper.ship_spec hnamed horigin s.shipper
  by_cases hold : e.sequence ≤ s.shipper.sent cfg.originId
  · rw [hskip hold]
    rw [hseq] at hold
    have hwire : s.wire ++ (none : Option LogEntry).toList = s.wire := append_nil _
    exact { h with place_le := hold, wire := hwire.trans h.wire }
  · rw [hsend (Nat.lt_of_not_le hold)]
    have hplace := h.place_le
    have hsent : s.shipper.sent cfg.originId = s.place := by omega
    have hsent' : TopicShipper.sent
        { s.shipper with lastShipped := s.shipper.lastShipped.insert cfg.originId e.sequence }
        cfg.originId = s.place + 1 := by
      simp [TopicShipper.sent, hseq]
    have hlt : s.place < s.primary.log.length := (List.getElem?_eq_some_iff.mp he).1
    refine { h with mark_le := ?mark_le, sent_le := ?sent_le, place_le := ?place_le, wire := ?wire }
    case mark_le =>
      have hmark := h.mark_le
      rw [hsent']
      exact Nat.le_succ_of_le (hsent ▸ hmark)
    case sent_le =>
      rw [hsent']
      exact hlt
    case place_le =>
      rw [hsent']
    case wire =>
      have hmark : s.mark cfg f name ≤ (s.primary.log.take s.place).length := by
        rw [length_take, Nat.min_eq_left (Nat.le_of_lt hlt), ← hsent]
        exact h.mark_le
      rw [hsent', take_add_one, he]
      show _ = filter _ (drop (s.mark cfg f name) _)
      rw [drop_append_of_le_length hmark, h.wire, hsent]
      cases hs : applyFilter decode e.payload (some f) with
      | true | false => simp [Ships, hs, behind, Destination.frame, applyTransform]

/-- The two counters of a standby that is not written to go together. -/
theorem replayEntry_level {dest : TopicConfig} {t : Topic σ} (now : Nat) (e : LogEntry)
    (h : t.nextSequence = t.lastAppliedSequence) :
    (t.replayEntry dest decode now e).nextSequence =
      (t.replayEntry dest decode now e).lastAppliedSequence := by
  have hnote : ∀ u : Topic σ, u.nextSequence = u.lastAppliedSequence → ∀ origin seq,
      (u.replayNoteApplied dest origin seq).nextSequence =
        (u.replayNoteApplied dest origin seq).lastAppliedSequence := by
    intro u hu origin seq
    unfold Topic.replayNoteApplied
    split
    · simp [Topic.bumpSequenceTo, hu]
    · exact hu
  rcases replayEntry_cases dest decode now t e with ⟨hsame, -⟩ | ⟨-, st, heq, -⟩
  · rw [hsame]
    exact h
  · rw [heq]
    exact hnote { t with state := st } h _ _

/-- **The standby takes a frame**: the entries before it since the mark were not shipped. -/
theorem Inv.receive (h : Inv cfg f name decode s) (hd : Decodes decode s.primary.log)
    {e : LogEntry} {rest : List LogEntry} (hwire : s.wire = e :: rest) (now : Nat) :
    Inv cfg f name decode
      { s with
        standby := s.standby.replayEntry (behind cfg f name).config decode now e
        wire := rest } := by
  have hmark_le := h.mark_le
  have hsent_le := h.sent_le
  obtain ⟨skipped, after, hsplit, hskipped, hships, hrest⟩ :=
    filter_eq_cons_iff.mp (h.wire.symm.trans hwire)
  -- the frame in the log
  have hbound : s.mark cfg f name + skipped.length < s.shipper.sent cfg.originId := by
    have hlens := congrArg length hsplit
    rw [length_drop, length_take, length_append, length_cons] at hlens
    omega
  have hget : s.primary.log[s.mark cfg f name + skipped.length]? = some e := by
    rw [← getElem?_take_of_lt hbound, ← getElem?_drop, hsplit, getElem?_append_right le_rfl,
      Nat.sub_self]
    rfl
  have hmem : e ∈ s.primary.log := mem_of_getElem? hget
  have hseq := h.numbered.sequence _ e hget
  have horigin := h.numbered.origin e hmem
  obtain ⟨k, hk⟩ := h.keyed e hmem hships
  -- it is new to the standby
  have hnew : s.standby.replayIsDuplicate (behind cfg f name).config e.origin e.sequence = false := by
    rw [Topic.isDuplicate_eq_mark _ _ (by omega), horigin, decide_eq_false_iff_not, Nat.not_le]
    show s.mark cfg f name < _
    omega
  obtain ⟨hcontents, hmark⟩ := replayEntry_records hnew (hd e hmem) hk now
  have hmark' : (s.standby.replayEntry (behind cfg f name).config decode now e).mark
      (behind cfg f name).config cfg.originId = s.mark cfg f name + skipped.length + 1 := by
    rw [horigin] at hmark
    rw [hmark]
    show max (s.mark cfg f name) _ = _
    omega
  have htake : s.primary.log.take (s.mark cfg f name + skipped.length + 1) =
      s.primary.log.take (s.mark cfg f name) ++ skipped ++ [e] := by
    have hfront := congrArg (take skipped.length) hsplit
    rw [take_left, drop_take, take_take, Nat.min_eq_left (by omega)] at hfront
    rw [take_add_one, hget, take_add, hfront]
    rfl
  refine { h with
    mark_le := ?mark_le, sent_le := hsent_le, standby := ?standby, wire := ?wire
    level := replayEntry_level now e h.level }
  case mark_le =>
    show Topic.mark _ _ _ ≤ _
    rw [hmark']
    exact hbound
  case standby =>
    show _ = records cfg f decode (take (Topic.mark _ _ _) _)
    rw [hmark', htake, records_append, records_append, filter_eq_nil_iff.mpr hskipped,
      filter_singleton, hships, hcontents, h.standby]
    rfl
  case wire =>
    show rest = filter _ (drop (Topic.mark _ _ _) _)
    rw [hmark', Nat.add_assoc, ← drop_drop, hsplit, ← drop_drop, drop_left]
    exact hrest.symm

theorem Inv.reconnect (hnames : cfg.originId = "" ∨ cfg.originId ≠ name)
    (h : Inv cfg f name decode s) :
    Inv cfg f name decode
      { s with shipper := ⟨hello s.standby, 0, none⟩, place := 0, wire := [] } := by
  have hsent : TopicShipper.sent ⟨hello s.standby, 0, none⟩ cfg.originId = s.mark cfg f name :=
    Topic.hello_mark hnames fun _ => h.level
  refine { h with
    mark_le := hsent.ge, sent_le := hsent.le.trans (h.mark_le.trans h.sent_le)
    place_le := Nat.zero_le _, wire := ?_ }
  rw [hsent]
  show [] = filter _ (drop (s.mark cfg f name) _)
  rw [drop_eq_nil_of_le (length_take_le _ _), filter_nil]

theorem Inv.step (hpersist : cfg.persist = true) (hσ : σ.Distinct)
    (hnames : cfg.originId = "" ∨ cfg.originId ≠ name) (h : Inv cfg f name decode s) {a : Move}
    (hok : Ok cfg f s a) (hstep : step cfg f name decode s a = some s')
    (hd : Readable decode s'.primary.log) : Inv cfg f name decode s' := by
  cases a with
  | write mu =>
    obtain ⟨p, hp, rfl⟩ := map_eq_some_iff.mp hstep
    exact h.write hpersist hσ hok hp hd.decodes
  | poll =>
    dsimp only [Link.step] at hstep
    split at hstep
    · cases hstep
    rename_i e he
    cases hstep
    exact h.poll hnames he
  | reopen place =>
    obtain ⟨hle, rfl⟩ := of_guard hstep
    exact { h with place_le := hle.trans h.place_le }
  | receive now =>
    dsimp only [Link.step] at hstep
    split at hstep
    · cases hstep
    rename_i e rest hwire
    cases hstep
    obtain ⟨hmem, -⟩ := mem_filter.mp (h.wire ▸ hwire ▸ mem_cons_self : e ∈ _)
    rw [if_pos (hd.legible e (mem_of_mem_take (mem_of_mem_drop hmem)))]
    exact h.receive hd.decodes hwire now
  | reconnect =>
    cases hstep
    exact h.reconnect hnames

theorem step_log (hpersist : cfg.persist = true) {a : Move}
    (hstep : step cfg f name decode s a = some s') : s.primary.log <+: s'.primary.log := by
  cases a with
  | write mu =>
    obtain ⟨p, hp, rfl⟩ := map_eq_some_iff.mp hstep
    rcases History.step_log hpersist hp with rfl | ⟨st, e, rfl, -⟩
    · exact prefix_rfl
    · exact prefix_append _ _
  | poll | receive =>
    dsimp only [step] at hstep
    split at hstep
    · cases hstep
    · cases hstep
      exact prefix_rfl
  | reopen =>
    obtain ⟨-, rfl⟩ := of_guard hstep
    exact prefix_rfl
  | reconnect =>
    cases hstep
    exact prefix_rfl

/-- **Filtered replication.** In every run whose mutations are routable and whose log reads back, a
standby that has got and applied all there is to ship has the primary's live rows that meet the filter. -/
theorem filtered_standby (hpersist : cfg.persist = true) (hσ : σ.Distinct)
    (hnames : cfg.originId = "" ∨ cfg.originId ≠ name) {moves : List Move}
    (hrun : Run (step cfg f name decode) (Ok cfg f) (init σ) moves s)
    (hd : Readable decode s.primary.log) (hshipped : s.place = s.primary.log.length)
    (happlied : s.wire = []) (k : String) :
    s.standby.state.contents k = (s.primary.topic.state.contents k).filter (·.meets f) := by
  have hinv : Readable decode s.primary.log → Inv cfg f name decode s := by
    refine hrun.invariant
      (P := fun s => Readable decode s.primary.log → Inv cfg f name decode s) ?_ fun _ => Inv.init
    intro s a s' ih hok hstep hd'
    have hd₀ := hd'.subset (step_log hpersist hstep).subset
    exact (ih hd₀).step hpersist hσ hnames hok hstep hd'
  have h := hinv hd
  have hsent : s.shipper.sent cfg.originId = s.primary.log.length :=
    Nat.le_antisymm h.sent_le (hshipped ▸ h.place_le)
  -- nothing that was shipped is beyond the mark
  have hrest : (s.primary.log.drop (s.mark cfg f name)).filter (Ships f decode) = [] := by
    rw [← happlied, h.wire, hsent, take_length]
  have hall : (records cfg f decode s.primary.log : String → Option (Row σ)) =
      records cfg f decode (s.primary.log.take (s.mark cfg f name)) := by
    conv_lhs => rw [← take_append_drop (s.mark cfg f name) s.primary.log]
    rw [records_append, hrest, foldl_nil]
  rw [h.standby, ← hall, h.mirrored]
  rfl

end System

section Desk
open Replay

open Unused

instance (f : FilterSpec) (shipped : Bool) (old : Option (Row orders)) (v : Values orders) :
    Decidable (Fits f shipped old v) :=
  decidable_of_iff' _ (fits_iff ..)

/-- Orders of a named primary; the standby is to have those with `x = 10`. -/
def named : TopicConfig := { ordersConfig with originId := "a" }

def ten : FilterSpec := ⟨"x", "10"⟩

instance (s : Link orders) (m : Move) : Decidable (Ok named ten s m) := by
  cases m with
  | write mu => cases mu <;> dsimp only [Ok, Routable] <;> infer_instance
  | _ => dsimp only [Ok]; infer_instance

/-- Two orders, a change to the shipped one, a delete, and a connection that breaks. -/
def routed : List Move :=
  [.write (.publish 0 (order [("id", 7), ("x", 10), ("y", 11)])), .poll,
    .write (.publish 1 (order [("id", 8), ("x", 20), ("y", 21)])), .poll, .reconnect, .poll,
    .receive 5, .write (.delta 2 (order [("id", 7), ("y", 12)])), .write (.delete "8"), .poll,
    .reopen 1, .poll, .poll, .poll, .receive 6, .receive 7]

theorem filtered_standby_routed : ∃ s,
    Run (step named ten "b" some) (Ok named ten) (init orders) routed s ∧
      (∀ k, s.standby.state.contents k = (s.primary.topic.state.contents k).filter (·.meets ten)) ∧
      (s.standby.state.contents "7").map (·.cells ⟨2, by decide⟩) = some (.long 12) := by
  refine Run.exists_of_check (fun s => s.place = s.primary.log.length ∧ s.wire = [] ∧
      (∀ e ∈ s.primary.log, e.Legible) ∧
      (s.standby.state.contents "7").map (·.cells ⟨2, by decide⟩) = some (.long 12))
    (by decide +kernel) fun s hrun ⟨hplace, hwire, hlegible, hrow⟩ => ?_
  exact ⟨filtered_standby rfl orders_distinct (by decide) hrun ⟨fun _ _ _ _ => rfl, hlegible⟩ hplace
    hwire, hrow⟩

def leaving : List Move :=
  [.write (.publish 0 (order [("id", 7), ("x", 10), ("y", 11)])), .poll, .receive 1,
    .write (.publish 2 (order [("id", 7), ("x", 20), ("y", 21)])), .poll]

/-- All is shipped and applied, and the standby still has the order as it was. -/
theorem left_filter_stays : ∃ s,
    Run (step named ten "b" some) (fun _ _ => True) (init orders) leaving s ∧
      s.place = s.primary.log.length ∧ s.wire = [] ∧
      (s.primary.topic.state.contents "7").map (·.cells ⟨1, by decide⟩) = some (.long 20) ∧
      (s.standby.state.contents "7").map (·.cells ⟨1, by decide⟩) = some (.long 10) := by
  decide +kernel

end Desk

end Link

end CqServer
