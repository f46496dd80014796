import CqServer.Replication.Journal
import CqServer.Topic.History

/-!
# Queries as of a sequence

`reconstruct_asof_rows` is a second interpreter of the log: it keeps the payloads as they are, one
map per logged key. A full payload replaces the map, a sparse delta is laid over it, a tombstone
takes it away. The store converts a payload to the columns' types, files it under the key of the
converted values, and a publish leaves the columns it does not mention as they were.

The two agree on a history whose payloads are what the store makes of them and are filed under the
logged key, if a full publish over an existing record mentions all that the record has
(`Recorded`); otherwise the reconstructed row has lost columns (`partial_publish_replaces`). They
stay in step also when only the end of the log is read, for the records that are written there as
a whole (`Told`): files that have left the directory, archived or not, are not read.
-/

namespace CqServer

open Lib StoreState List Option AList
open Sequence (Rotation)

variable {σ : Schema}

structure Reconstruction where
  order : List String
  rows : AList (fun _ : String => JsonMap)

namespace Reconstruction

/-- The fields of a sparse delta are inserted one by one; a map has each name once. -/
def overlay (existing map : JsonMap) : JsonMap :=
  map.foldr (fun field m => m.insert field.1 field.2) existing

def read (decode : Decode) (a : Reconstruction) (e : LogEntry) : Reconstruction :=
  match e.payload with
  | none =>
    if (a.rows.lookup e.key).isSome then ⟨a.order.filter (· ≠ e.key), a.rows.erase e.key⟩ else a
  | some payload =>
    match decode payload, e.format with
    | none, _ => a
    | some map, .jsonDelta =>
      match a.rows.lookup e.key with
      | some existing => ⟨a.order, a.rows.insert e.key (overlay existing map)⟩
      | none => ⟨a.order ++ [e.key], a.rows.insert e.key map⟩
    | some map, .json =>
      ⟨if (a.rows.lookup e.key).isSome then a.order else a.order ++ [e.key],
        a.rows.insert e.key map⟩

def drain : List String → AList (fun _ : String => JsonMap) → List JsonMap
  | [], _ => []
  | k :: ks, rows =>
    match rows.lookup k with
    | some map => map :: drain ks (rows.erase k)
    | none => drain ks rows

def readAll (decode : Decode) (log : List LogEntry) : Reconstruction :=
  log.foldl (read decode) ⟨[], ∅⟩

end Reconstruction

/-- `reconstruct_asof_rows`, on the entries of the files in the directory. Of an entry that is not
legible it reads a payload that is no JSON object, and passes over it. -/
def reconstructAsofRows (decode : Decode) (log : List LogEntry)
    (targetSeq : Nat) : List JsonMap :=
  let read := (log.takeWhile fun e => e.sequence ≤ targetSeq).filter fun e => e.Legible
  let a := Reconstruction.readAll decode read
  Reconstruction.drain a.order a.rows

namespace Reconstruction

/-! ## One key -/

/-- What an entry makes of the map under its key. -/
def readRow (decode : Decode) (old : Option JsonMap) (e : LogEntry) :
    Option JsonMap :=
  match e.payload with
  | none => none
  | some payload =>
    match decode payload, e.format with
    | none, _ => old
    | some map, .jsonDelta => some (old.elim map fun existing => overlay existing map)
    | some map, .json => some map

structure Listed (a : Reconstruction) : Prop where
  nodup : a.order.Nodup
  mem_iff : ∀ k, k ∈ a.order ↔ (a.rows.lookup k).isSome

section Keys
variable {decode : Decode} {a : Reconstruction} {e : LogEntry}

theorem lookup_read (k : String) : (a.read decode e).rows.lookup k =
      if k = e.key then readRow decode (a.rows.lookup e.key) e else a.rows.lookup k := by
  have hself : ∀ x, a.rows.lookup e.key = x → a.rows.lookup k =
      if k = e.key then x else a.rows.lookup k := by
    intro x hx
    split
    · rename_i hk
      rw [hk, hx]
    · rfl
  unfold read readRow
  cases e.payload with
  | none =>
    dsimp only
    split
    · exact lookup_erase_ite
    · rename_i hnone
      exact hself none (by simpa using hnone)
  | some payload =>
    dsimp only
    cases decode payload with
    | none => exact hself _ rfl
    | some map =>
      cases e.format with
      | json => exact lookup_insert_ite
      | jsonDelta =>
        cases hl : a.rows.lookup e.key with
        | none => exact lookup_insert_ite
        | some existing => exact lookup_insert_ite

theorem Listed.empty : Listed ⟨[], ∅⟩ := ⟨nodup_nil, fun k => by simp⟩

theorem Listed.insert (h : Listed a) (key : String) (map : JsonMap) :
    Listed ⟨if (a.rows.lookup key).isSome then a.order else a.order ++ [key],
      a.rows.insert key map⟩ := by
  have hlookup : ∀ k, ((a.rows.insert key map).lookup k).isSome ↔ k = key ∨ k ∈ a.order := by
    intro k
    by_cases hk : k = key
    · subst hk
      simp
    · simp [hk, h.mem_iff]
  by_cases hin : (a.rows.lookup key).isSome
  · refine ⟨by simpa [hin] using h.nodup, fun k => ?_⟩
    rw [hlookup]
    simp only [hin]
    constructor
    · exact .inr
    · rintro (rfl | hk)
      · exact (h.mem_iff k).mpr hin
      · exact hk
  · have hnew : key ∉ a.order := fun hk => hin ((h.mem_iff key).mp hk)
    refine ⟨?_, fun k => ?_⟩
    · simp only [hin]
      exact nodup_append.mpr ⟨h.nodup, nodup_singleton _,
        fun k hk k' hk' heq => hnew (mem_singleton.mp hk' ▸ heq ▸ hk)⟩
    · rw [hlookup]
      simp [hin, or_comm]

theorem Listed.read (h : Listed a) : Listed (a.read decode e) := by
  unfold Reconstruction.read
  cases e.payload with
  | none =>
    dsimp only
    split
    · refine ⟨h.nodup.filter _, fun k => ?_⟩
      by_cases hk : k = e.key
      · subst hk
        simp
      · simp [hk, h.mem_iff]
    · exact h
  | some payload =>
    dsimp only
    cases decode payload with
    | none => exact h
    | some map =>
      have hput := h.insert e.key
      cases e.format with
      | json => exact hput map
      | jsonDelta =>
        cases hl : a.rows.lookup e.key with
        | none => simpa [hl] using hput map
        | some existing => simpa [hl] using hput (overlay existing map)

theorem Listed.readAll (decode : Decode) (log : List LogEntry) :
    Listed (Reconstruction.readAll decode log) :=
  foldlRecOn (motive := Listed) log _ .empty fun _ h _ _ => h.read

theorem lookup_readAll_of_ne {log : List LogEntry} {k : String} (h : ∀ e ∈ log, e.key ≠ k) :
    (readAll decode log).rows.lookup k = none := by
  refine foldlRecOn (motive := fun a : Reconstruction => a.rows.lookup k = none) log _ rfl ?_
  intro a ha e he
  rw [lookup_read, if_neg (h e he).symm, ha]

theorem drain_forall₂ {order : List String} (hnodup : order.Nodup)
    {rows₀ rows : AList (fun _ : String => JsonMap)}
    (hrows : ∀ k ∈ order, rows.lookup k = rows₀.lookup k)
    (h : ∀ k ∈ order, (rows₀.lookup k).isSome) :
    Forall₂ (fun k map => rows₀.lookup k = some map) order (drain order rows) := by
  induction order generalizing rows with
  | nil => exact .nil
  | cons k ks ih =>
    obtain ⟨hk, hks⟩ := nodup_cons.mp hnodup
    obtain ⟨map, hmap⟩ := isSome_iff_exists.mp (h k mem_cons_self)
    unfold drain
    rw [hrows k mem_cons_self, hmap]
    refine .cons hmap (ih hks ?_ fun k' hk' => h k' (mem_cons_of_mem _ hk'))
    intro k' hk'
    have hne : k' ≠ k := fun heq => hk (heq ▸ hk')
    rw [lookup_erase_ne hne]
    exact hrows k' (mem_cons_of_mem _ hk')

end Keys

/-! ## Maps and rows -/

section Rows
variable [HostText] {cfg : TopicConfig} {decode : Decode}

/-- A null field is as good as none. -/
def visible : Option Json → Option Json
  | some .null => none
  | x => x

/-- The map has what the row's JSON form has. -/
def Shows (map : JsonMap) (r : Row σ) : Prop :=
  ∀ name, visible (map.get? name) = visible (r.getRowMap.get? name)

/-- The record and what the interpreter has in its place. -/
def Agrees : Option JsonMap → Option (Row σ) → Prop
  | some map, some r => Shows map r
  | none, none => True
  | _, _ => False

/-- Every field that is not null is a column's, and the column gives it back as it is. -/
def Fitting (σ : Schema) (m : JsonMap) : Prop :=
  ∀ name v, m.get? name = some v → v ≠ .null →
    ∃ i, σ.columnName i = name ∧ (Value.fromJson v (σ.columnType i)).toJson = v

theorem shows_iff (hσ : σ.Distinct) (map : JsonMap) (r : Row σ) : Shows map r ↔
      (∀ i, visible (map.get? (σ.columnName i)) = visible (some (r.cells i).toJson)) ∧
        ∀ name, (∀ i, σ.columnName i ≠ name) → visible (map.get? name) = none := by
  have hcell : ∀ i, visible (r.getRowMap.get? (σ.columnName i)) =
      visible (some (r.cells i).toJson) := by
    intro i
    rw [Row.getRowMap_get? hσ]
    split
    · rfl
    · rename_i hnull
      rw [Value.toJson_of_isNull (by simpa using hnull)]
      rfl
  have hother : ∀ name, (∀ i, σ.columnName i ≠ name) → r.getRowMap.get? name = none :=
    fun name h => r.getRowMapProjected_get?_of_ne _ h
  constructor
  · intro h
    refine ⟨fun i => (h _).trans (hcell i), fun name hname => ?_⟩
    rw [h name, hother name hname]
    rfl
  · rintro ⟨hcols, hnames⟩ name
    by_cases hname : ∃ i, σ.columnName i = name
    · obtain ⟨i, rfl⟩ := hname
      rw [hcols, hcell]
    · have hne := not_exists.mp hname
      rw [hnames name hne, hother name hne]
      rfl

theorem Fitting.visible_eq (hσ : σ.Distinct) {m : JsonMap} (h : Fitting σ m) {i : σ.Col} {v : Json}
    (hv : m.get? (σ.columnName i) = some v) :
    visible (some (Value.fromJson v (σ.columnType i)).toJson) = visible (some v) := by
  by_cases hnull : v = .null
  · subst hnull
    rw [Value.fromJson_null, Value.toJson_nullOf]
  · obtain ⟨j, hj, hback⟩ := h _ v hv hnull
    obtain rfl := hσ hj
    rw [hback]

theorem Fitting.invisible {m : JsonMap} (h : Fitting σ m) {name : String}
    (hname : ∀ i, σ.columnName i ≠ name) : visible (m.get? name) = none := by
  cases hv : m.get? name with
  | none => rfl
  | some v =>
    by_cases hnull : v = .null
    · rw [hnull]
      rfl
    · obtain ⟨i, hi, -⟩ := h name v hv hnull
      exact absurd hi (hname i)

/-- A full publish that fits, over no record or one that it covers. -/
theorem shows_publish (hσ : σ.Distinct) {m : JsonMap} (h : Fitting σ m) {old : Option (Row σ)}
    (hcovers : ∀ r, old = some r → ∀ i, m.get? (σ.columnName i) = none →
      (r.cells i).toJson = .null) :
    Shows m (upsertRow old (.ofMap σ m)) := by
  refine (shows_iff hσ _ _).mpr ⟨fun i => ?_, fun name hname => h.invisible hname⟩
  cases hv : m.get? (σ.columnName i) with
  | none =>
    rw [upsertRow_cells, if_pos (Values.ofMap_vals_eq_null.mpr hv)]
    cases old with
    | none =>
      rw [Option.elim, Value.toJson_nullOf]
      rfl
    | some r =>
      rw [Option.elim, hcovers r rfl i hv]
      rfl
  | some v =>
    have hval : (Values.ofMap σ m).vals i = Value.fromJson v (σ.columnType i) := by
      simp [Values.ofMap, hv]
    rw [upsertRow_cells, hval, if_neg (Value.fromJson_ne_null _ _), h.visible_eq hσ hv]

/-- The journalled row of a delta, over no record or the one it was merged into. -/
theorem shows_merged (hσ : σ.Distinct) (m : JsonMap) (old : Option (Row σ)) :
    Shows (mergedPayload (.merge σ m old)) (upsertRow old (.merge σ m old)) := by
  refine (shows_iff hσ _ _).mpr ⟨fun i => ?_, fun name hname => ?_⟩
  · rw [mergedPayload_get? hσ, upsertRow_cells]
    split
    · rename_i hnull
      cases old with
      | none =>
        rw [hnull, Option.elim, Value.toJson_nullOf]
        rfl
      | some r => exact absurd hnull (Values.merge_some_ne_null m r i)
    · rfl
  · rw [mergedPayload_get?_of_ne _ hname]
    rfl

omit [HostText] in
theorem get?_overlay (existing map : JsonMap) (name : String) : (overlay existing map).get? name =
      (map.get? name).elim (existing.get? name) some := by
  induction map with
  | nil => rfl
  | cons field map ih =>
    obtain ⟨k, v⟩ := field
    rw [JsonMap.get?_cons]
    unfold overlay at ih ⊢
    rw [foldr_cons]
    by_cases hk : name = k
    · subst hk
      rw [if_pos rfl, JsonMap.get?_insert_self]
      rfl
    · rw [if_neg hk, JsonMap.get?_insert_ne hk, ih]

/-- A sparse delta that fits, laid over the map and merged into the row. -/
theorem shows_overlay (hσ : σ.Distinct) {m existing : JsonMap} (h : Fitting σ m) {r : Row σ}
    (hshows : Shows existing r) :
    Shows (overlay existing m) (r.update (.merge σ m (some r))) := by
  obtain ⟨hcols, hnames⟩ := (shows_iff hσ _ _).mp hshows
  refine (shows_iff hσ _ _).mpr ⟨fun i => ?_, fun name hname => ?_⟩
  · rw [get?_overlay, Row.update_cells, if_neg (Values.merge_some_ne_null m r i)]
    cases hv : m.get? (σ.columnName i) with
    | none =>
      have hval : (Values.merge σ m (some r)).vals i = r.cells i := by simp [Values.merge, hv]
      rw [hval]
      exact hcols i
    | some v =>
      have hval : (Values.merge σ m (some r)).vals i = Value.fromJson v (σ.columnType i) := by
        simp [Values.merge, hv]
      rw [hval, h.visible_eq hσ hv]
      rfl
  · rw [get?_overlay]
    have hinvisible := h.invisible hname
    cases hv : m.get? name with
    | none => exact hnames name hname
    | some v =>
      rw [hv] at hinvisible
      exact hinvisible

end Rows

/-! ## Mutations -/

section Mutations
variable [HostText] {cfg : TopicConfig} {decode : Decode}

/-- What a mutation has to fulfil: the key it is logged under is the one it is stored under, its
fields fit, and a full publish over a record mentions all that the record has. -/
def Recorded (cfg : TopicConfig) (st : StoreState σ) : History.Mutation → Prop
  | .publish _ m =>
    ∃ k, computeKeyFromMap cfg (flatView m) = some k ∧
      computeKeyWith (Values.ofMap σ (flatView m)).vals (cfg.keyColIndices σ) = some k ∧
      Fitting σ (flatView m) ∧
      ∀ r, st.contents k = some r → ∀ i, (flatView m).get? (σ.columnName i) = none →
        (r.cells i).toJson = .null
  | .delta _ m => ∀ key, deltaKey cfg (flatView m) = some key →
      computeKeyWith (Values.merge σ (flatView m) (st.contents key)).vals (cfg.keyColIndices σ) =
          some key ∧
        (cfg.sparseDeltaTxlog = true → Fitting σ (flatView m))
  | .delete _ => True

/-- The entry tells the whole record: all but a sparse delta do. -/
def Whole (e : LogEntry) : Prop := e.payload = none ∨ e.format = .json

/-- The entry does to a map what the mutation does to the record. -/
structure Traces (decode : Decode) (e : LogEntry)
    (c c' : String → Option (Row σ)) : Prop where
  others : ∀ k, k ≠ e.key → c' k = c k
  whole : Whole e → ∀ old, Agrees (readRow decode old e) (c' e.key)
  merged : ∀ old, Agrees old (c e.key) → Agrees (readRow decode old e) (c' e.key)
  live : ∀ old, (readRow decode old e).isSome → (c' e.key).isSome

theorem Agrees.isSome_eq {map : Option JsonMap} {r : Option (Row σ)} (h : Agrees map r) :
    map.isSome = r.isSome := by
  cases map with
  | none | some => cases r with
    | none | some => first | rfl | exact h.elim

theorem Traces.of_whole {e : LogEntry} {c c' : String → Option (Row σ)}
    (hothers : ∀ k, k ≠ e.key → c' k = c k)
    (hwhole : ∀ old, Agrees (readRow decode old e) (c' e.key)) : Traces decode e c c' where
  others := hothers
  whole _ := hwhole
  merged old _ := hwhole old
  live old h := (hwhole old).isSome_eq ▸ h

theorem step_traces (hpersist : cfg.persist = true) (hσ : σ.Distinct) {s s' : Replay.State σ}
    {mu : History.Mutation} (hok : Recorded cfg s.topic.state mu)
    (hstep : History.step cfg s mu = some s') (hd : Decodes decode s'.log) :
    s' = s ∨ ∃ e, s'.log = s.log ++ [e] ∧
      Traces decode e s.topic.state.contents s'.topic.state.contents := by
  rcases History.step_cases hpersist hstep with
    ⟨now, m, rfl, rfl⟩ | ⟨now, m, d, rfl, hread, rfl⟩ | ⟨key, st, r, -, hrem, rfl⟩ |
      ⟨key, -, -, rfl⟩
  · obtain ⟨k, hlogged, hk, hfits, hcovers⟩ := hok
    have hdec := hd _ mem_concat_self _ rfl
    refine .inr ⟨_, rfl, .of_whole ?_ ?_⟩
    · intro k' hk'
      dsimp only [History.entry, History.commit] at hk' ⊢
      rw [hlogged, getD_some] at hk'
      rw [commitValuesLocked_contents hk, if_neg hk']
    · intro old
      dsimp only [History.entry, History.commit, readRow]
      rw [hdec, hlogged, getD_some, commitValuesLocked_contents hk, if_pos rfl]
      exact shows_publish hσ hfits hcovers
  · obtain ⟨key, hkey, rfl⟩ := map_eq_some_iff.mp hread
    obtain ⟨hk, hfits⟩ := hok key hkey
    have hdec := hd _ mem_concat_self _ rfl
    have hcontents := commitValuesLocked_contents hk now s.topic.state
    have hothers := fun k' (hk' : k' ≠ key) => (hcontents k').trans (if_neg hk')
    have hself := (hcontents key).trans (if_pos rfl)
    refine .inr ⟨_, rfl, ?_⟩
    dsimp only [History.commit, History.entry] at hdec ⊢
    cases hs : cfg.sparseDeltaTxlog with
    | false =>
      simp only [hs] at hdec ⊢
      refine .of_whole hothers fun old => ?_
      dsimp only [readRow]
      rw [hdec, hself]
      exact shows_merged hσ _ _
    | true =>
      simp only [hs] at hdec ⊢
      refine ⟨hothers, ?_, ?_, ?_⟩
      · rintro (hnone | hjson)
        · cases hnone
        · cases hjson
      · intro old hagrees
        dsimp only [readRow] at hagrees ⊢
        rw [hdec, hself]
        cases hc : s.topic.state.contents key with
        | none =>
          rw [hc] at hagrees
          cases old with
          | some map => exact hagrees.elim
          | none => exact shows_publish hσ (hfits hs) nofun
        | some r =>
          rw [hc] at hagrees
          cases old with
          | none => exact hagrees.elim
          | some map => exact shows_overlay hσ (hfits hs) hagrees
      · intro old _
        rw [hself]
        rfl
  · refine .inr ⟨_, rfl, .of_whole ?_ ?_⟩
    · intro k hk
      dsimp only [History.commit, History.entry] at hk ⊢
      rw [removeKey_contents hrem, if_neg hk]
    · intro old
      dsimp only [History.commit, History.entry]
      rw [removeKey_contents hrem, if_pos rfl]
      trivial
  · exact .inl rfl

end Mutations

/-! ## The end of the log -/

section Ends
variable [HostText] {cfg : TopicConfig} {decode : Decode}

/-- What is to be known of a record is in the log from the given place on: it has no earlier entry,
or one from there on tells the whole record. -/
def Told (start : Nat) (log : List LogEntry) (k : String) : Prop :=
  (∀ e ∈ log.take start, e.key ≠ k) ∨ ∃ e ∈ log.drop start, e.key = k ∧ Whole e

/-- The end of the log gives the records that it tells, and no others than live ones. -/
structure Stands (decode : Decode) (start : Nat) (log : List LogEntry)
    (c : String → Option (Row σ)) : Prop where
  only : ∀ k, ((readAll decode (log.drop start)).rows.lookup k).isSome → (c k).isSome
  told : ∀ k, Told start log k → Agrees ((readAll decode (log.drop start)).rows.lookup k) (c k)

theorem Stands.append {start : Nat} {log : List LogEntry} {c c' : String → Option (Row σ)}
    (h : Stands decode start log c) (hstart : start ≤ log.length) {e : LogEntry}
    (ht : Traces decode e c c') : Stands decode start (log ++ [e]) c' := by
  have hdrop : (log ++ [e]).drop start = log.drop start ++ [e] :=
    drop_append_of_le_length hstart
  have htake : (log ++ [e]).take start = log.take start := take_append_of_le_length hstart
  have hlookup : ∀ k, (readAll decode ((log ++ [e]).drop start)).rows.lookup k =
      if k = e.key then readRow decode ((readAll decode (log.drop start)).rows.lookup e.key) e
      else (readAll decode (log.drop start)).rows.lookup k := by
    intro k
    rw [hdrop, readAll, foldl_append]
    exact lookup_read k
  constructor
  · intro k hk
    rw [hlookup] at hk
    split at hk
    · rename_i heq
      rw [heq]
      exact ht.live _ hk
    · rename_i hne
      rw [ht.others k hne]
      exact h.only k hk
  · intro k htold
    rw [hlookup]
    unfold Told at htold
    rw [htake, hdrop] at htold
    have hbefore : ¬ (e.key = k ∧ Whole e) → Told start log k := by
      refine fun hnot => htold.imp_right ?_
      rintro ⟨e', he', htells⟩
      rcases mem_concat.mp he' with hold | rfl
      · exact ⟨e', hold, htells⟩
      · exact absurd htells hnot
    split
    · rename_i heq
      subst heq
      by_cases hwhole : Whole e
      · exact ht.whole hwhole _
      · exact ht.merged _ (h.told _ (hbefore fun htells => hwhole htells.2))
    · rename_i hne
      rw [ht.others k hne]
      exact h.told k (hbefore fun htells => hne htells.1.symm)

theorem Stands.empty {log : List LogEntry} {c : String → Option (Row σ)}
    (h : Stands decode 0 log c) : Stands decode log.length log c := by
  constructor
  · intro k hk
    rw [drop_length] at hk
    cases hk
  · intro k htold
    rw [drop_length]
    rcases htold with hnone | ⟨e, he, -⟩
    · have hzero := h.told k (.inl fun e he => nomatch he)
      rw [lookup_readAll_of_ne (by simpa using hnone)] at hzero
      exact hzero
    · rw [drop_length] at he
      cases he

structure Inv (cfg : TopicConfig) (decode : Decode) (s : Replay.State σ) :
    Prop where
  numbered : History.Numbered cfg s
  stands : ∀ start ≤ s.log.length, Stands decode start s.log s.topic.state.contents

theorem Inv.init : Inv cfg decode (Replay.State.init σ) := by
  refine ⟨.init cfg, fun start hstart => ⟨fun k hk => ?_, fun k _ => ?_⟩⟩
  · rw [show (Replay.State.init σ).log = [] from rfl, drop_nil] at hk
    cases hk
  · simp [Replay.State.init, Topic.new, readAll, Agrees]

theorem Inv.step (hpersist : cfg.persist = true) (hσ : σ.Distinct) {s s' : Replay.State σ}
    (h : Inv cfg decode s) {mu : History.Mutation} (hok : Recorded cfg s.topic.state mu)
    (hstep : History.step cfg s mu = some s') (hd : Decodes decode s'.log) :
    Inv cfg decode s' := by
  refine ⟨h.numbered.step hpersist hstep, ?_⟩
  rcases step_traces hpersist hσ hok hstep hd with rfl | ⟨e, hlog, ht⟩
  · exact h.stands
  have hold : ∀ start ≤ s.log.length, Stands decode start s'.log s'.topic.state.contents := by
    intro start hstart
    rw [hlog]
    exact (h.stands start hstart).append hstart ht
  intro start hstart
  by_cases hlt : start ≤ s.log.length
  · exact hold start hlt
  have heq : start = s'.log.length := by
    rw [hlog, length_append, length_singleton] at hstart ⊢
    omega
  rw [heq]
  exact (hold 0 (Nat.zero_le _)).empty

end Ends

/-! ## The directory -/

structure State (σ : Schema) where
  topic : Topic σ
  journal : Journal

def State.init (σ : Schema) : State σ := ⟨.new σ, .init⟩

/-- The entries a reader of the directory finds. -/
def State.entries (s : State σ) : List LogEntry := s.journal.live.flatMap Prod.snd

inductive Move where
  | write (mu : History.Mutation)
  | rotate (r : Rotation)
  /-- One file of `prune_segments_below`. -/
  | prune (id : Nat)

section System
variable [HostText] {cfg : TopicConfig} {decode : Decode} {s s' : State σ}

def step (cfg : TopicConfig) (s : State σ) : Move → Option (State σ)
  | .write mu =>
    let o := History.run cfg s.topic mu
    if o.ok then some ⟨o.topic, o.entries.foldl .append s.journal⟩ else none
  | .rotate r => some { s with journal := s.journal.rotate r }
  | .prune id => some { s with journal := s.journal.prune id }

/-- A file leaves the directory after the earlier ones. -/
def Ok (cfg : TopicConfig) (s : State σ) : Move → Prop
  | .write mu => Recorded cfg s.topic.state mu
  | .rotate r => r = .archives → ∀ seg ∈ s.journal.sealed, seg.1 ∈ s.journal.gone
  | .prune id => ∀ seg ∈ s.journal.segments, seg.1 < id → seg.1 ∈ s.journal.gone

omit [HostText] in
theorem history_foldl_append (entries : List LogEntry) (j : Journal) :
    (entries.foldl .append j).history = j.history ++ entries := by
  induction entries generalizing j with
  | nil => simp
  | cons e entries ih => rw [foldl_cons, ih, Journal.append_history, append_assoc]; rfl

/-- A write is a mutation of the history; the files are moved without one. -/
theorem step_history {a : Move} (h : step cfg s a = some s') :
    (∃ mu, a = .write mu ∧ History.step cfg ⟨s.topic, s.journal.history⟩ mu =
      some ⟨s'.topic, s'.journal.history⟩) ∨
    (s'.topic = s.topic ∧ s'.journal.history = s.journal.history) := by
  cases a with
  | write mu =>
    obtain ⟨hok, rfl⟩ := of_guard h
    refine .inl ⟨mu, rfl, ?_⟩
    dsimp only [History.step]
    rw [if_pos hok, history_foldl_append]
  | rotate r =>
    cases h
    exact .inr ⟨rfl, Journal.rotate_history r⟩
  | prune id =>
    cases h
    exact .inr ⟨rfl, Journal.prune_history id⟩

/-- The files that have left are the first ones. -/
def Front (j : Journal) : Prop :=
  ∀ seg ∈ j.segments, ∀ id ∈ j.gone, seg.1 < id → seg.1 ∈ j.gone

omit [HostText] in
theorem Front.append {j : Journal} (h : Front j) (entries : List LogEntry) :
    Front (entries.foldl .append j) := by
  refine foldlRecOn (motive := Front) entries _ h ?_
  intro j h e _ seg hseg id hid hlt
  rcases mem_concat.mp hseg with hold | rfl
  · exact h seg (mem_append_left _ hold) id hid hlt
  · exact h j.active mem_concat_self id hid hlt

omit [HostText] in
theorem Front.rotate {j : Journal} (h : Front j) {r : Rotation}
    (hok : r = .archives → ∀ seg ∈ j.sealed, seg.1 ∈ j.gone) : Front (j.rotate r) := by
  have hsegs : ∀ seg ∈ j.roll.segments, seg ∈ j.segments ∨ seg.1 = j.active.1 + 1 := by
    intro seg hseg
    exact (mem_concat.mp hseg).imp_right (congrArg Prod.fst)
  have hroll : Front j.roll := by
    intro seg hseg id hid hlt
    rcases hsegs seg hseg with hold | hnew
    · exact h seg hold id hid hlt
    · have hkept := j.kept id hid
      omega
  cases r with
  | no => exact h
  | stays => exact hroll
  | archives =>
    intro seg hseg id hid hlt
    rcases mem_concat.mp hid with hid | rfl
    · exact mem_append_left _ (hroll seg hseg id hid hlt)
    rcases hsegs seg hseg with hold | hnew
    · rcases mem_concat.mp hold with hsealed | rfl
      · exact mem_append_left _ (hok rfl seg hsealed)
      · exact absurd hlt (Nat.lt_irrefl _)
    · omega

omit [HostText] in
theorem Front.prune {j : Journal} (h : Front j) {id : Nat}
    (hok : ∀ seg ∈ j.segments, seg.1 < id → seg.1 ∈ j.gone) : Front (j.prune id) := by
  unfold Journal.prune
  split
  · intro seg hseg id' hid' hlt
    rcases mem_concat.mp hid' with hid' | rfl
    · exact mem_append_left _ (h seg hseg id' hid' hlt)
    · exact mem_append_left _ (hok seg hseg hlt)
  · exact h

theorem Front.step {a : Move} (h : Front s.journal) (hok : Ok cfg s a)
    (hstep : step cfg s a = some s') : Front s'.journal := by
  cases a with
  | write mu =>
    obtain ⟨-, rfl⟩ := of_guard hstep
    exact h.append _
  | rotate r =>
    cases hstep
    exact h.rotate hok
  | prune id =>
    cases hstep
    exact h.prune hok

omit [HostText] in
theorem Front.entries (h : Front s.journal) : ∃ start, s.entries = s.journal.history.drop start := by
  have hlive : ∃ n, s.journal.live = s.journal.segments.drop n := by
    have hord := s.journal.segments_ordered
    unfold Front at h
    unfold Journal.live
    generalize s.journal.segments = segs at h hord
    induction segs with
    | nil => exact ⟨0, rfl⟩
    | cons seg segs ih =>
      obtain ⟨hfirst, hord⟩ := pairwise_cons.mp hord
      obtain ⟨n, hn⟩ := ih (fun seg' hseg' => h seg' (mem_cons_of_mem _ hseg')) hord
      by_cases hgone : seg.1 ∈ s.journal.gone
      · exact ⟨n + 1, by simpa [hgone] using hn⟩
      -- nothing after a file that is there has left
      refine ⟨0, filter_eq_self.mpr fun seg' hseg' => ?_⟩
      rcases mem_cons.mp hseg' with rfl | hseg'
      · simpa using hgone
      · have hlater : seg'.1 ∉ s.journal.gone := fun hin =>
          hgone (h seg mem_cons_self seg'.1 hin (hfirst seg' hseg'))
        simpa using hlater
  obtain ⟨n, hn⟩ := hlive
  refine ⟨((s.journal.segments.take n).flatMap Prod.snd).length, ?_⟩
  have hsplit : s.journal.history =
      (s.journal.segments.take n).flatMap Prod.snd ++ s.entries := by
    rw [State.entries, hn, ← flatMap_append, take_append_drop]
    rfl
  rw [hsplit, drop_left]

theorem step_grows (hpersist : cfg.persist = true) {a : Move} (h : step cfg s a = some s') :
    s.journal.history <+: s'.journal.history := by
  rcases step_history h with ⟨mu, -, hmu⟩ | ⟨-, hsame⟩
  · rcases History.step_log hpersist hmu with hsame | ⟨st, e, hcommit, -⟩
    · have hlog : s'.journal.history = s.journal.history := congrArg Replay.State.log hsame
      rw [hlog]
    · have hlog : s'.journal.history = s.journal.history ++ [e] :=
        congrArg Replay.State.log hcommit
      rw [hlog]
      exact prefix_append _ _
  · rw [hsame]

theorem run_inv (hpersist : cfg.persist = true) (hσ : σ.Distinct) {moves : List Move}
    (hrun : Run (step cfg) (Ok cfg) (State.init σ) moves s)
    (hd : Decodes decode s.journal.history) :
    Inv cfg decode ⟨s.topic, s.journal.history⟩ ∧ Front s.journal := by
  have hinv : Decodes decode s.journal.history →
      Inv cfg decode ⟨s.topic, s.journal.history⟩ ∧ Front s.journal := by
    refine hrun.invariant (P := fun s => Decodes decode s.journal.history →
      Inv cfg decode ⟨s.topic, s.journal.history⟩ ∧ Front s.journal) ?_
      fun _ => ⟨Inv.init, fun _ _ _ hid => nomatch hid⟩
    intro s a s' ih hok hstep hd'
    have hd₀ : Decodes decode s.journal.history :=
      fun e he => hd' e ((step_grows hpersist hstep).subset he)
    obtain ⟨h, hfront⟩ := ih hd₀
    refine ⟨?_, hfront.step hok hstep⟩
    rcases step_history hstep with ⟨mu, rfl, hmu⟩ | ⟨htopic, hsame⟩
    · exact h.step hpersist hσ hok hmu hd'
    · rw [htopic, hsame]
      exact h
  exact hinv hd

omit [HostText] in
theorem takeWhile_drop {before after : List LogEntry} {n : Nat}
    (hbefore : ∀ e ∈ before, e.sequence ≤ n) (hafter : ∀ e ∈ after, n < e.sequence) (start : Nat) :
    ((before ++ after).drop start).takeWhile (fun e => e.sequence ≤ n) = before.drop start := by
  have hnone : ∀ l : List LogEntry, (∀ e ∈ l, n < e.sequence) →
      l.takeWhile (fun e => decide (e.sequence ≤ n)) = [] := by
    intro l hl
    cases l with
    | nil => rfl
    | cons e l =>
      have hlt := hl e mem_cons_self
      rw [takeWhile_cons_of_neg (by simpa using hlt)]
  rw [drop_append, takeWhile_append_of_pos]
  · rw [hnone _ fun e he => hafter e (mem_of_mem_drop he), append_nil]
  · intro e he
    simpa using hbefore e (mem_of_mem_drop he)

/-- **As-of queries.** A run comes to a state, and goes on. The rows reconstructed as of that
state's sequence are its live rows, if for each of them the directory still has all its entries up
to there, or one that tells the whole record, and the log reads back. -/
theorem as_of_correct (hpersist : cfg.persist = true) (hσ : σ.Distinct) {moves moves' : List Move}
    (hrun : Run (step cfg) (Ok cfg) (State.init σ) moves s)
    (hrun' : Run (step cfg) (Ok cfg) s moves' s') (hd : Readable decode s'.journal.history)
    (hkept : ∀ k, (s.topic.state.contents k).isSome →
      (∀ e ∈ s'.journal.history, e.key = k → e.sequence ≤ s.topic.nextSequence → e ∈ s'.entries) ∨
        ∃ e ∈ s'.entries, e.key = k ∧ e.sequence ≤ s.topic.nextSequence ∧ e.format = .json) :
    ∃ keys : List String, keys.Nodup ∧ (∀ k, k ∈ keys ↔ (s.topic.state.contents k).isSome) ∧
      List.Forall₂ (fun k map => ∃ r, s.topic.state.contents k = some r ∧ Shows map r) keys
        (reconstructAsofRows decode s'.entries s.topic.nextSequence) := by
  obtain ⟨after, hafter⟩ : s.journal.history <+: s'.journal.history := by
    refine hrun'.invariant (P := fun s' => s.journal.history <+: s'.journal.history) ?_
      prefix_rfl
    exact fun _ _ _ ih _ hstep => ih.trans (step_grows hpersist hstep)
  have hd₀ : Readable decode s.journal.history :=
    hd.subset fun e he => hafter ▸ mem_append_left _ he
  obtain ⟨h, -⟩ := run_inv hpersist hσ hrun hd₀.decodes
  obtain ⟨h', hfront⟩ := run_inv hpersist hσ (hrun.append hrun') hd.decodes
  obtain ⟨start, hentries⟩ := hfront.entries
  -- the entries up to the sequence are those of the state
  have hlength : s.journal.history.length = s.topic.nextSequence := h.numbered.length
  have hread : s'.entries.takeWhile (fun e => e.sequence ≤ s.topic.nextSequence) =
      s.journal.history.drop start := by
    rw [hentries, ← hafter]
    refine takeWhile_drop (fun e he => ?_) (fun e he => ?_) start
    · refine (h.numbered.mem_take.mp ?_).2
      rw [← hlength, take_length]
      exact he
    · refine (h'.numbered.mem_drop.mp ?_).2
      rw [← hafter, ← hlength, drop_left]
      exact he
  have hdrop := (drop_eq_drop_min (l := s.journal.history) (i := start)).symm
  have hstands := h.stands (min start s.journal.history.length) (Nat.min_le_right _ _)
  -- each live record is told by what is read
  have htold : ∀ k, (s.topic.state.contents k).isSome →
      Told (min start s.journal.history.length) s.journal.history k := by
    intro k hk
    rcases hkept k hk with hall | ⟨e, he, hkey, hseq, hjson⟩
    · refine .inl fun e he hkey => ?_
      obtain ⟨hmem, hle⟩ := h.numbered.mem_take.mp he
      have hin := hall e (hafter ▸ mem_append_left _ hmem) hkey (by omega)
      -- it is behind the place where reading starts
      rw [hentries] at hin
      have hlt := (h'.numbered.mem_drop.mp hin).2
      omega
    · refine .inr ⟨e, ?_, hkey, .inr hjson⟩
      rw [hentries] at he
      obtain ⟨hin, hlt⟩ := h'.numbered.mem_drop.mp he
      have hmem : e ∈ s'.journal.history.take s.topic.nextSequence :=
        h'.numbered.mem_take.mpr ⟨hin, hseq⟩
      rw [← hafter, ← hlength, take_left] at hmem
      rw [hdrop]
      exact h.numbered.mem_drop.mpr ⟨hmem, hlt⟩
  have honly := hstands.only
  have hagrees : ∀ k, (s.topic.state.contents k).isSome → Agrees
      ((readAll decode (s.journal.history.drop start)).rows.lookup k) (s.topic.state.contents k) := by
    intro k hk
    have htells := hstands.told k (htold k hk)
    rw [hdrop] at htells
    exact htells
  rw [hdrop] at honly
  have hlisted := Listed.readAll decode (s.journal.history.drop start)
  refine ⟨(readAll decode (s.journal.history.drop start)).order, hlisted.nodup, fun k => ?_, ?_⟩
  · rw [hlisted.mem_iff]
    refine ⟨honly k, fun hk => ?_⟩
    rw [(hagrees k hk).isSome_eq]
    exact hk
  · unfold reconstructAsofRows
    rw [hread, filter_eq_self.mpr fun e he =>
      decide_eq_true (hd₀.legible e (mem_of_mem_drop he))]
    refine (drain_forall₂ hlisted.nodup (fun _ _ => rfl) fun k => (hlisted.mem_iff k).mp).imp ?_
    intro k map hmap
    obtain ⟨r, hr⟩ := isSome_iff_exists.mp (honly k (by rw [hmap]; rfl))
    have hrow := hagrees k (by rw [hr]; rfl)
    rw [hmap, hr] at hrow
    exact ⟨r, hr, hrow⟩

end System

section Orders
open Replay

open Unused

instance (m : JsonMap) : Decidable (Fitting σ m) := by
  refine decidable_of_iff (∀ p ∈ m, m.get? p.1 = some p.2 → p.2 ≠ .null → ∃ i,
    σ.columnName i = p.1 ∧ (Value.fromJson p.2 (σ.columnType i)).toJson = p.2)
    ⟨fun h name v hv => h (name, v) ?_ hv, fun h p _ => h p.1 p.2⟩
  obtain ⟨_, _, rfl, -⟩ := lookup_eq_some_iff.mp hv
  simp

instance (s : State orders) : (a : Move) → Decidable (Ok ordersConfig s a)
  | .write (.publish ..) | .write (.delta ..) | .write (.delete ..) | .rotate .. | .prune .. => by
    dsimp only [Ok, Recorded]
    infer_instance

/-- Order 7 is archived with its segment, and published again. -/
def upTo : List Move :=
  [.write (.publish 0 (Replay.order [("id", 7), ("x", 1), ("y", 2)])), .rotate .archives,
    .write (.publish 1 (Replay.order [("id", 8), ("x", 3), ("y", 4)])),
    .write (.publish 2 (Replay.order [("id", 7), ("x", 5), ("y", 6)])),
    .write (.delta 3 (Replay.order [("id", 8), ("y", 9)]))]

def andOn : List Move :=
  [.write (.delete "8"), .rotate .no, .write (.publish 4 (Replay.order [("id", 7), ("x", 0), ("y", 0)]))]

theorem as_of_correct_upTo : ∃ s s',
    Run (step ordersConfig) (Ok ordersConfig) (State.init orders) upTo s ∧
      Run (step ordersConfig) (Ok ordersConfig) s andOn s' ∧
      (∃ keys : List String, keys.Nodup ∧ (∀ k, k ∈ keys ↔ (s.topic.state.contents k).isSome) ∧
        Forall₂ (fun k map => ∃ r, s.topic.state.contents k = some r ∧ Shows map r) keys
          (reconstructAsofRows some s'.entries s.topic.nextSequence)) ∧
      (reconstructAsofRows some s'.entries s.topic.nextSequence).map (·.get? "y") =
        [some (Quotes.num 9), some (Quotes.num 6)] := by
  simp only [exists_and_left]
  refine Run.exists_of_check (fun s => ∃ s', Run (step ordersConfig) (Ok ordersConfig) s andOn s' ∧
      (∀ k ∈ s.topic.state.table.keyToRow.keys, ∃ e ∈ s'.entries, e.key = k ∧
        e.sequence ≤ s.topic.nextSequence ∧ e.format = .json) ∧
      (∀ e ∈ s'.journal.history, e.Legible) ∧
      (reconstructAsofRows some s'.entries s.topic.nextSequence).map (·.get? "y") =
        [some (Quotes.num 9), some (Quotes.num 6)])
    (by decide +kernel) fun s hrun ⟨s', hrun', hkept, hlegible, hrows⟩ => ?_
  refine ⟨s', hrun', ?_, hrows⟩
  refine as_of_correct rfl orders_distinct hrun hrun' ⟨fun _ _ _ _ => rfl, hlegible⟩ fun k hk =>
    .inr ?_
  refine hkept k ?_
  rw [contents, SlotTable.view, isSome_map] at hk
  exact mem_keys.mpr (lookup_isSome.mp hk)

def partialPublish : List Move :=
  [.write (.publish 0 (Replay.order [("id", 7), ("x", 1), ("y", 2)])),
    .write (.publish 1 (Replay.order [("id", 7), ("x", 3)]))]

/-- The store keeps `y`; the reconstructed row, as of the last sequence, has lost it. -/
theorem partial_publish_replaces : ∃ s,
    Run (step ordersConfig) (fun _ _ => True) (State.init orders) partialPublish s ∧
      s.journal.gone = [] ∧ s.topic.nextSequence = 2 ∧
      (s.topic.state.contents "7").map (·.getRowMap.get? "y") = some (some (Quotes.num 2)) ∧
      reconstructAsofRows some s.entries 2 = [Replay.order [("id", 7), ("x", 3)]] := by
  decide +kernel

end Orders

end Reconstruction

end CqServer
