import CqServer.Topic.Checkpoint
import CqServer.Topic.Idempotence

/-!
# What a snapshot restores

`apply_snapshot` on a fresh topic of the same configuration, with the schema
discovery its rows go through. A snapshot has the rows of the live keys, without
their null cells. So a topic that discovered its columns gets them back from
whichever row comes first, if that row has a value everywhere; and a topic
without key columns, whose row belongs to no key, has no rows in its snapshot
(`snapshot_drops_keyless_row`). A `serde_json::Map` may keep the order of
insertion (`preserve_order`), so nothing is assumed about the order of a map:
discovery takes the columns in the map's, and a row is written in the schema's.
-/

namespace CqServer

open Lib StoreState List SlotTable AnyTopic

/-! ## Maps in any order -/

namespace JsonMap

/-- Each key once, as a map has them in either order. -/
def Distinct (m : JsonMap) : Prop := (m.map Prod.fst).Nodup

theorem Sorted.distinct {m : JsonMap} (h : m.Sorted) : m.Distinct :=
  pairwise_map.mpr (h.imp ne_of_lt)

theorem get?_perm {m m' : JsonMap} (h : m.Perm m') (hm : m.Distinct) (n : String) :
    m.get? n = m'.get? n := by
  induction h with
  | nil => rfl
  | cons e _ ih => rw [get?_cons, get?_cons, ih (nodup_cons.mp hm).2]
  | swap e e' m =>
    have hne : e'.1 ≠ e.1 := fun heq => (nodup_cons.mp hm).1 (heq ▸ mem_cons_self)
    rw [get?_cons, get?_cons, get?_cons, get?_cons]
    split
    · rename_i heq
      rw [if_neg (heq ▸ hne)]
    · rfl
  | trans h _ ih ih' => exact (ih hm).trans (ih' ((h.map Prod.fst).nodup_iff.mp hm))

end JsonMap

theorem flatView_distinct {m : JsonMap} (h : m.Distinct) : (flatView m).Distinct := by
  unfold flatView
  split
  · -- the flattener collects in a `BTreeMap`
    exact (flattenRecursive_keeps (P := JsonMap.Sorted) {} (fun k v _ _ hm => hm.insert k v) 32 ""
      (.object m) [] .nil).distinct
  · exact h

namespace Schema

/-- The types discovery infers. -/
def Inferred (σ : Schema) : Prop :=
  ∀ i, σ.columnType i = .double ∨ σ.columnType i = .long ∨ σ.columnType i = .string ∨
    σ.columnType i = .bool

theorem distinct_discover {m : JsonMap} (h : m.Distinct) : (discover m).Distinct := by
  have hcols : (discover m).columns.Pairwise fun c c' => c.name ≠ c'.name :=
    pairwise_map.mpr (pairwise_map.mp h)
  intro i j hij
  rcases lt_trichotomy i j with hlt | heq | hlt
  · exact absurd hij (pairwise_iff_get.mp hcols i j hlt)
  · exact heq
  · exact absurd hij.symm (pairwise_iff_get.mp hcols j i hlt)

theorem inferred_discover (m : JsonMap) : (discover m).Inferred := by
  have hty : ∀ v : Json, ColumnType.fromJson v = .double ∨ ColumnType.fromJson v = .long ∨
      ColumnType.fromJson v = .string ∨ ColumnType.fromJson v = .bool := by
    intro v
    cases v with
    | number n =>
      simp only [ColumnType.fromJson]
      split <;> simp
    | _ => simp [ColumnType.fromJson]
  intro i
  have hcol : (discover m).columns.get i ∈ (discover m).columns := get_mem ..
  obtain ⟨e, -, he⟩ := mem_map.mp hcol
  rw [columnType, ← he]
  exact hty e.2

end Schema

section RowSchema
variable [HostText] {σ : Schema}

/-- A row as `get_row_map` lists it in a map that keeps the order of insertion. -/
def Row.listed (r : Row σ) : JsonMap :=
  (σ.cols.filter fun i => !(r.cells i).isNull).map fun i => (σ.columnName i, (r.cells i).toJson)

theorem Row.getRowMap_distinct (r : Row σ) : r.getRowMap.Distinct := by
  rw [getRowMap, getRowMapProjected_eq]
  exact (foldlRecOn (motive := JsonMap.Sorted) _ _ .nil fun _ hm _ _ => hm.insert ..).distinct

theorem Value.fromJson_toJson_type {ty : ColumnType} {v : Value} (hty : hasType ty v = true)
    (hinf : ty = .double ∨ ty = .long ∨ ty = .string ∨ ty = .bool) (hnull : v.isNull = false)
    (hsurv : v.Survives ty) : ColumnType.fromJson v.toJson = ty := by
  rcases hinf with rfl | rfl | rfl | rfl <;> obtain ⟨x, rfl⟩ := exists_of_hasType hty
  · by_cases hf : x.isFinite = true
    · simp [toJson, hf, ColumnType.fromJson, Number.isF64]
    · -- an infinite double has no JSON form and comes back as a null
      have hnan : x.isNan = true := by
        simp only [Survives, toJson, hf, Bool.false_eq_true, dite_false, fromJson,
          Value.double.injEq] at hsurv
        rw [← hsurv]
        decide
      simp [isNull, hnan] at hnull
  · have hn : x ≠ nullLong := by simpa [isNull] using hnull
    simp only [toJson, hn, if_false, jsonOfInt]
    split <;> rfl
  · cases x with
    | none => cases hnull
    | some s => rfl
  · cases x with
    | none => cases hnull
    | some b => rfl

theorem Row.RoundTrips.survives (hσ : σ.Distinct) {r : Row σ} (hr : r.RoundTrips) {i : σ.Col}
    (hi : (r.cells i).isNull = false) : (r.cells i).Survives (σ.columnType i) := by
  have hval : (Values.ofMap σ r.getRowMap).vals i =
      Value.fromJson (r.cells i).toJson (σ.columnType i) := by
    simp [Values.ofMap, Row.getRowMap_get? hσ, hi]
  have hcell := congrArg (fun row : Row σ => row.cells i) hr
  rw [Row.write_cells, hval, if_neg (Value.fromJson_ne_null _ _)] at hcell
  exact hcell

theorem flatView_listed (r : Row σ) : flatView r.listed = r.listed := by
  have hnest : mapHasNesting r.listed = false := by
    refine any_eq_false.mpr fun e he => ?_
    obtain ⟨i, -, rfl⟩ := mem_map.mp he
    simp [Value.toJson_flat]
  rw [flatView, hnest]
  rfl

/-- **A row without nulls gives its schema back.** -/
theorem Schema.discover_listed (hσ : σ.Distinct) (hinf : σ.Inferred) {r : Row σ}
    (hr : r.RoundTrips) (hnull : ∀ i, (r.cells i).isNull = false) :
    Schema.discover r.listed = σ := by
  have hcol : ∀ i, (⟨σ.columnName i, ColumnType.fromJson (r.cells i).toJson⟩ : Column) =
      σ.columns.get i := by
    intro i
    rw [Value.fromJson_toJson_type (r.typed i) (hinf i) (hnull i) (hr.survives hσ (hnull i))]
    rfl
  rw [discover, Row.listed, filter_eq_self.mpr fun i _ => by simp [hnull i], map_map]
  have hmap : map ((fun e : String × Json => (⟨e.1, ColumnType.fromJson e.2⟩ : Column)) ∘
      fun i => (σ.columnName i, (r.cells i).toJson)) σ.cols = σ.columns :=
    (map_congr_left fun i _ => hcol i).trans (map_get_finRange _)
  rw [hmap]

/-- The order of a row's map is not seen by the columns. -/
theorem Topic.applySnapshotRow_perm {r : Row σ} {m : JsonMap} (h : m.Perm r.getRowMap)
    (cfg : TopicConfig) (now : Nat) (t : Topic σ) :
    t.applySnapshotRow cfg now m = t.applySnapshotRow cfg now r.getRowMap := by
  have hflat : flatView m = m := by
    have hnest : mapHasNesting m = false := by
      rw [mapHasNesting, h.any_eq]
      exact flatView_getRowMap r ▸ flatView_flat r.getRowMap
    rw [flatView, hnest]
    rfl
  have hvals : Values.ofMap σ m = Values.ofMap σ r.getRowMap := by
    simp only [Values.ofMap, JsonMap.get?_perm h.symm r.getRowMap_distinct]
  rw [applySnapshotRow, applySnapshotRow, hflat, hvals, flatView_getRowMap]

end RowSchema

/-! ## Loading a snapshot under discovery -/

/-- A topic that has opened its log and done nothing yet. -/
def Topic.attached (σ : Schema) (maxSequence : Nat) : Topic σ :=
  { Topic.new σ with nextSequence := maxSequence }

namespace AnyTopic
section Load
variable [HostText]

def applyRows {σ : Schema} (cfg : TopicConfig) (decode : Decode) (now : Nat)
    (t : Topic σ) (rows : List JsonMap) : Topic σ :=
  rows.foldl (fun t row => match decode row with
    | some m => t.applySnapshotRow cfg now m
    | none => t) t

def applySnapshotRow (cfg : TopicConfig) (subscriptions now : Nat) (t : AnyTopic) (m : JsonMap) :
    AnyTopic :=
  let d := t.discover subscriptions (some (flatView m))
  ⟨d.1, d.2.applySnapshotRow cfg now m⟩

variable (cfg : TopicConfig) (decode : Decode)

/-- The rows of a snapshot; one that does not decode to an object is skipped. -/
def applySnapshotRows (subscriptions now : Nat) (t : AnyTopic) (rows : List JsonMap) : AnyTopic :=
  rows.foldl (fun t row => match decode row with
    | some m => t.applySnapshotRow cfg subscriptions now m
    | none => t) t

def applySnapshot (subscriptions now : Nat) (t : AnyTopic) (snap : SowSnapshot) : AnyTopic :=
  let t := t.applySnapshotRows cfg decode subscriptions now snap.rows
  let highwater := snap.originHighwater.entries.foldl
    (fun hw e => hw.insert e.1 (max ((hw.lookup e.1).getD 0) e.2)) t.2.replicatedHighwater
  ⟨t.1, { t.2 with replicatedHighwater := highwater }.bumpSequenceTo snap.sequence⟩

variable {cfg : TopicConfig} {decode : Decode}

variable {σ : Schema}

theorem applyRows_highwater (now : Nat) (t : Topic σ) (rows : List JsonMap) :
    (applyRows cfg decode now t rows).replicatedHighwater = t.replicatedHighwater := by
  induction rows generalizing t with
  | nil => rfl
  | cons row rows ih =>
    rw [applyRows, foldl_cons]
    cases decode row with
    | none => exact ih t
    | some m => exact ih _

/-- Rows that are read back in another order are loaded as they were. -/
theorem applyRows_read {rows : List (Row σ)} (h : ∀ r ∈ rows, ∃ m ∈ decode r.getRowMap,
    m.Perm r.getRowMap) (now : Nat) (t : Topic σ) :
    applyRows cfg decode now t (rows.map Row.getRowMap) =
      applyRows cfg some now t (rows.map Row.getRowMap) := by
  refine foldl_ext _ _ _ fun t row hrow => ?_
  obtain ⟨r, hr, rfl⟩ := mem_map.mp hrow
  obtain ⟨m, hdec, hperm⟩ := h r hr
  rw [show decode r.getRowMap = some m from hdec]
  exact t.applySnapshotRow_perm hperm cfg now

theorem rowCount_pos_commit (keyCols : List σ.Col) (now : Nat) (st : StoreState σ) (v : Values σ) :
    0 < (st.commitValuesLocked keyCols now v).1.table.rowCount := by
  cases hk : computeKeyWith v.vals keyCols with
  | some k => exact Nat.zero_lt_of_lt (SlotTable.slot_lt _ (commitValuesLocked_lookup hk now st))
  | none =>
    simp only [commitValuesLocked, hk]
    split
    · assumption
    · exact Nat.succ_pos _

theorem applySnapshotRows_settled (t : Topic σ)
    (h : σ.isPlaceholder = false ∨ 0 < t.state.table.rowCount) (subscriptions now : Nat)
    (rows : List JsonMap) :
    applySnapshotRows cfg decode subscriptions now ⟨σ, t⟩ rows =
      ⟨σ, applyRows cfg decode now t rows⟩ := by
  induction rows generalizing t with
  | nil => rfl
  | cons row rows ih =>
    rw [applySnapshotRows, applyRows, foldl_cons, foldl_cons]
    cases hdec : decode row with
    | none => exact ih t h
    | some m =>
      have hkeep : discover subscriptions ⟨σ, t⟩ (some (flatView m)) = ⟨σ, t⟩ := by
        rcases discover_cases subscriptions ⟨σ, t⟩ (some (flatView m)) with
          heq | ⟨_, -, -, hdecl, hrows, -⟩
        · exact heq
        rcases h with h | h
        · simp [declared, h] at hdecl
        · exact absurd hrows h.ne'
      dsimp only [applySnapshotRow]
      rw [hkeep]
      exact ih _ (.inr (rowCount_pos_commit ..))

variable {σ₀ : Schema}

/-- Loading goes on under the schema of the snapshot, if that is the declared one
or the one the first row shows. -/
theorem applySnapshotRows_attached {rows : List JsonMap}
    (h : σ₀ = σ ∧ (σ₀.isPlaceholder = false ∨ rows = []) ∨ σ₀.isPlaceholder = true ∧
      ∃ row m rest, rows = row :: rest ∧ decode row = some m ∧ flatView m = m ∧ m ≠ [] ∧
      Schema.discover m = σ) (now n : Nat) :
    applySnapshotRows cfg decode 0 now ⟨σ₀, Topic.attached σ₀ n⟩ rows =
      ⟨σ, applyRows cfg decode now (Topic.attached σ n) rows⟩ := by
  rcases h with ⟨rfl, hplace | rfl⟩ | ⟨hplace, row, m, rest, rfl, hdec, hflat, hm, rfl⟩
  · exact applySnapshotRows_settled _ (.inl hplace) 0 now rows
  · rfl
  have hfirst : discover 0 ⟨σ₀, Topic.attached σ₀ n⟩ (some m) = ⟨_, Topic.attached _ n⟩ :=
    if_pos ⟨hplace, rfl, rfl, hm⟩
  rw [applySnapshotRows, applyRows, foldl_cons, foldl_cons, hdec]
  dsimp only [applySnapshotRow]
  rw [hflat, hfirst]
  exact applySnapshotRows_settled _ (.inr (rowCount_pos_commit ..)) 0 now rest

omit [HostText] in
theorem highwater_restored (marks : AList (fun _ : String => Nat)) (origin : String) :
    (marks.entries.foldl (fun hw e => hw.insert e.1 (max ((hw.lookup e.1).getD 0) e.2))
      (∅ : AList (fun _ : String => Nat))).lookup origin = marks.lookup origin := by
  have hfold : ∀ (entries : List (Sigma fun _ : String => Nat)), entries.NodupKeys →
      ∀ base : AList (fun _ : String => Nat), (∀ e ∈ entries, base.lookup e.1 = none) →
      (entries.foldl (fun hw e => hw.insert e.1 (max ((hw.lookup e.1).getD 0) e.2)) base).lookup
        origin = (entries.dlookup origin).or (base.lookup origin) := by
    intro entries
    induction entries with
    | nil => exact fun _ base _ => rfl
    | cons e entries ih =>
      intro hnodup base hbase
      obtain ⟨hnew, hnodup⟩ := nodupKeys_cons.mp hnodup
      have hnone := hbase e mem_cons_self
      rw [foldl_cons, ih hnodup]
      · by_cases ho : origin = e.1
        · subst ho
          rw [dlookup_eq_none.mpr hnew, AList.lookup_insert, dlookup_cons_eq, hnone]
          simp
        · rw [AList.lookup_insert_ne ho, dlookup_cons_ne _ _ (by simpa using ho)]
      · intro e' he'
        have hne : e'.1 ≠ e.1 := fun heq => hnew (heq ▸ mem_keys_of_mem he')
        rw [AList.lookup_insert_ne hne]
        exact hbase e' (mem_cons_of_mem _ he')
  rw [hfold marks.entries marks.nodupKeys ∅ (fun _ _ => AList.lookup_empty _)]
  simp [AList.lookup]

end Load
end AnyTopic

/-! ## Restoring a topic -/

namespace Restore

inductive Move where
  | write (subscriptions : Nat) (w : LiveWrite)
  | deliver (subscriptions now : Nat) (d : Delivery)

def Move.maps : Move → List JsonMap
  | .write _ (.upsertMap _ _ m) => [m]
  | .write _ (.upsertMapBatch _ rows) => rows.map Prod.fst
  | .write _ (.deltaUpsertMap _ _ m) => [m]
  | .write _ (.delete ..) => []
  | .write _ (.expire ..) => []
  | .deliver _ _ d => match d.change with
      | .upsert m => [m]
      | .delta m => [m]
      | .delete _ => []

/-- The maps have each key once, as every `serde_json::Map` has. -/
def Ok (_ : AnyTopic) (m : Move) : Prop := ∀ map ∈ m.maps, map.Distinct

section System
variable [HostText] {cfg : TopicConfig} {decode : Decode}

def step (cfg : TopicConfig) (t : AnyTopic) : Move → Option AnyTopic
  | .write subscriptions w => some (t.write cfg subscriptions w).1
  | .deliver subscriptions now d => some (t.replay cfg subscriptions now d)

/-- The schema in force is the declared one, or was discovered from some map. -/
def Schemas (σ₀ σ : Schema) : Prop :=
  σ = σ₀ ∨ σ₀.isPlaceholder = true ∧ ∃ m : JsonMap, m.Distinct ∧ m ≠ [] ∧ σ = Schema.discover m

variable {t : AnyTopic} {σ₀ : Schema}

omit [HostText] in
theorem Schemas.discover (h : Schemas σ₀ t.1) {flat : Option JsonMap}
    (hflat : ∀ m, flat = some m → m.Distinct) (subscriptions : Nat) :
    Schemas σ₀ (t.discover subscriptions flat).1 := by
  rcases discover_cases subscriptions t flat with heq | ⟨m, hm, hne, hdecl, -, heq⟩
  · rw [heq]
    exact h
  · rw [heq]
    have hplace : σ₀.isPlaceholder = true := by
      rcases h with h | h
      · simpa [declared, h] using hdecl
      · exact h.1
    exact .inr ⟨hplace, m, hflat m hm, hne, rfl⟩

theorem Schemas.step {t t' : AnyTopic} {m : Move} (h : Schemas σ₀ t.1) (hok : Ok t m)
    (hstep : step cfg t m = some t') : Schemas σ₀ t'.1 := by
  cases m with
  | write subscriptions w =>
    cases hstep
    refine h.discover ?_ subscriptions
    intro flat hflat
    cases w with
    | upsertMap now appendOk m | deltaUpsertMap now appendOk m =>
      cases hflat
      exact flatView_distinct (hok m mem_cons_self)
    | upsertMapBatch now rows =>
      obtain ⟨row, hrow, rfl⟩ := Option.map_eq_some_iff.mp hflat
      exact flatView_distinct (hok row.1 (mem_map_of_mem (mem_of_head? hrow)))
    | delete appendOk key | expire appendOk ttl sweepObservedAt key => cases hflat
  | deliver subscriptions now d =>
    cases hstep
    obtain ⟨origin, sequence, change⟩ := d
    cases change with
    | upsert m | delta m =>
      dsimp only [replay, replayUpsertMapOrigin, replayDeltaMapOrigin]
      split
      · exact h
      · refine h.discover (fun flat heq => ?_) subscriptions
        cases heq
        exact flatView_distinct (hok m mem_cons_self)
    | delete key => exact h

/-- When a snapshot has all of a topic: there is no row outside the keys of a
keyless topic, every record is under the key of its row, with no null in it, and
survives its JSON form; and if the columns are not the configured ones, some row
is there to show them and no row has a null. A row may be read back in another
order, but where columns are discovered it is read back as it was listed. -/
@[mk_iff]
structure Restorable (cfg : TopicConfig) (decode : Decode) (σ₀ : Schema)
    (t : AnyTopic) : Prop where
  keyless : cfg.keyColIndices t.1 = [] → t.2.state.table.rowCount = 0
  keyed : KeyedCells (cfg.keyColIndices t.1) t.2.state.contents
  rows : ∀ k r, t.2.state.contents k = some r →
    r.RoundTrips ∧ ∃ m ∈ decode r.getRowMap, m.Perm r.getRowMap
  shown : t.1 ≠ σ₀ → ∃ k r, t.2.state.contents k = some r
  complete : t.1 ≠ σ₀ → ∀ k r, t.2.state.contents k = some r → ∀ i, (r.cells i).isNull = false
  listed : σ₀.isPlaceholder = true →
    ∀ k r, t.2.state.contents k = some r → decode r.getRowMap = some r.listed

/-- The restored topic `u` has what `t` had. Its replay watermark starts at the
snapshot's sequence, which is `t`'s own if `t` has replayed all it has. -/
structure Restored {σ : Schema} (cfg : TopicConfig) (t u : Topic σ) : Prop where
  contents : u.state.contents = t.state.contents
  keyless : cfg.keyColIndices σ = [] → u.state.table.rowCount = t.state.table.rowCount ∧
    ∀ r < t.state.table.rowCount, u.state.row r = t.state.row r
  nextSequence : u.nextSequence = t.nextSequence
  lastApplied : u.lastAppliedSequence = t.lastAppliedSequence ↔
    t.lastAppliedSequence = t.nextSequence
  highwater : ∀ origin, u.replicatedHighwater.lookup origin = t.replicatedHighwater.lookup origin

variable {slots : List Nat}

theorem Restorable.loads (hσ : Schemas σ₀ t.1) (h : Restorable cfg decode σ₀ t)
    (hslots : slots.Perm t.2.state.table.liveSlots) :
    σ₀ = t.1 ∧ (σ₀.isPlaceholder = false ∨ (slots.map fun r => (t.2.state.row r).getRowMap) = []) ∨
      σ₀.isPlaceholder = true ∧ ∃ row m rest,
        (slots.map fun r => (t.2.state.row r).getRowMap) = row :: rest ∧ decode row = some m ∧
          flatView m = m ∧ m ≠ [] ∧ Schema.discover m = t.1 := by
  cases hplace : σ₀.isPlaceholder with
  | false =>
    refine .inl ⟨?_, .inl rfl⟩
    rcases hσ with hσ | ⟨hp, -⟩
    · exact hσ.symm
    · rw [hplace] at hp
      cases hp
  | true =>
    have hholder : σ₀ = Schema.discover [("_key", .string "")] := by
      have : σ₀.columns = [⟨"_key", .string⟩] := by simpa [Schema.isPlaceholder] using hplace
      obtain ⟨columns⟩ := σ₀
      simpa [Schema.discover, ColumnType.fromJson] using this
    -- either way the columns in force are those of some map
    obtain ⟨shown, hdist, hne, hdisc⟩ :
        ∃ m : JsonMap, m.Distinct ∧ m ≠ [] ∧ t.1 = Schema.discover m := by
      rcases hσ with hσ | ⟨-, hm⟩
      · exact ⟨[("_key", .string "")], nodup_singleton _, cons_ne_nil _ _, hσ.trans hholder⟩
      · exact hm
    cases hs : slots with
    | nil =>
      refine .inl ⟨?_, .inr rfl⟩
      by_contra hne'
      obtain ⟨k, r, hr⟩ := h.shown (Ne.symm hne')
      obtain ⟨slot, hslot, -⟩ := view_eq_some.mp hr
      have hmem := hslots.mem_iff.mpr (mem_liveSlots.mpr ⟨k, hslot⟩)
      rw [hs] at hmem
      cases hmem
    | cons slot rest =>
      obtain ⟨k, hk⟩ := mem_liveSlots.mp (hslots.mem_iff.mp (hs ▸ mem_cons_self : slot ∈ slots))
      have hrec : t.2.state.contents k = some (t.2.state.row slot) :=
        view_of_lookup hk
      obtain ⟨hkey, hcells⟩ := h.keyed k _ hrec
      have hrt := (h.rows k _ hrec).1
      have hfull : ∀ i, ((t.2.state.row slot).cells i).isNull = false := by
        by_cases hσ₀ : t.1 = σ₀
        · -- the placeholder's one column is the key
          intro i
          have hone : t.1.columnCount = 1 := by
            rw [hσ₀, hholder]
            rfl
          have hcols : cfg.keyColIndices t.1 ≠ [] := by
            intro hnil
            simp [recordKey, computeKeyWith, hnil] at hkey
          obtain ⟨j, hj⟩ := exists_mem_of_ne_nil _ hcols
          obtain rfl : i = j := by
            exact Fin.ext (by omega)
          exact hcells i hj
        · exact h.complete hσ₀ k _ hrec
      have hback : Schema.discover (t.2.state.row slot).listed = t.1 :=
        Schema.discover_listed (hdisc ▸ Schema.distinct_discover hdist)
          (hdisc ▸ Schema.inferred_discover shown) hrt hfull
      refine .inr ⟨rfl, _, _, _, rfl, h.listed hplace k _ hrec, flatView_listed _, ?_, hback⟩
      intro hnil
      rw [hnil, hdisc] at hback
      have hlen := congrArg (fun σ : Schema => σ.columns.length) hback
      simp only [Schema.discover, length_map] at hlen
      exact hne (length_eq_zero_iff.mp hlen.symm)

theorem Restorable.restored (hdist : t.1.Distinct) (h : Restorable cfg decode σ₀ t)
    (hslots : slots.Perm t.2.state.table.liveSlots) {n : Nat} (hn : n ≤ t.2.nextSequence)
    (now segmentId : Nat) :
    Restored cfg t.2 ((Topic.attached t.1 n).applySnapshot cfg decode now
      (t.2.buildSnapshot segmentId slots)) := by
  obtain ⟨happlied, hnext⟩ := Checkpoint.applySnapshot_watermarks cfg decode now
    (Topic.attached t.1 n) (t.2.buildSnapshot segmentId slots) rfl
  have hmem : ∀ r, r ∈ slots ↔ t.2.state.table.Live r := fun r =>
    hslots.mem_iff.trans mem_liveSlots
  have hread : ∀ r ∈ slots.map t.2.state.row, ∃ m ∈ decode r.getRowMap, m.Perm r.getRowMap := by
    intro r hr
    obtain ⟨slot, hslot, rfl⟩ := mem_map.mp hr
    obtain ⟨k, hk⟩ := (hmem slot).mp hslot
    exact (h.rows k _ (view_of_lookup hk)).2
  refine ⟨?_, ?_, ?_, ?_, ?_⟩
  · funext k
    have hloaded : applyRows cfg decode now (Topic.attached t.1 n) _ = _ :=
      applyRows_read hread now (Topic.attached t.1 n)
    rw [map_map] at hloaded
    refine (congrArg (fun u : Topic t.1 => u.state.contents k) hloaded).trans ?_
    refine (applyRows_contents hdist h.keyed (fun k r hr => ⟨(h.rows k r hr).1, rfl⟩) now
      (hslots.nodup_iff.mpr t.2.state.table.liveSlots_nodup) (fun r hr => (hmem r).mp hr)
      (Topic.attached t.1 n) (fun k r _ _ => congrFun contents_build k) k).trans ?_
    cases hk : t.2.state.table.keyToRow.lookup k with
    | none => exact (congrFun contents_build k).trans (view_of_lookup_none hk).symm
    | some r =>
      dsimp only
      rw [if_pos ((hmem r).mpr ⟨k, hk⟩)]
      exact (view_of_lookup hk).symm
  · intro hnil
    have hzero := h.keyless hnil
    have hnone : slots = [] := by
      refine eq_nil_iff_forall_not_mem.mpr ?_
      intro r hr
      obtain ⟨k, hk⟩ := (hmem r).mp hr
      have := t.2.state.table.slot_lt hk
      omega
    subst hnone
    refine ⟨hzero.symm, ?_⟩
    omega
  · rw [hnext]
    exact max_eq_right hn
  · rw [happlied]
    exact eq_comm
  · intro origin
    refine Eq.trans ?_ (highwater_restored t.2.replicatedHighwater origin)
    show AList.lookup origin (foldl _ (applyRows cfg decode now
      (Topic.attached t.1 n) _).replicatedHighwater _) = _
    rw [applyRows_highwater]
    rfl

/-- **A snapshot restores the topic.** In every run of writes and replays, whatever the order in
which the key index is walked, a topic that opens its log anew and loads the snapshot has the
schema, the records and the watermarks of the first one, where `Restorable` holds. -/
theorem snapshot_restores {σ₀ : Schema} (hσ₀ : σ₀.Distinct) {t : AnyTopic} {moves : List Move}
    (hrun : Run (step cfg) Ok (new σ₀) moves t) (hrest : Restorable cfg decode σ₀ t)
    {slots : List Nat} (hslots : slots.Perm t.2.state.table.liveSlots) {n : Nat}
    (hn : n ≤ t.2.nextSequence) (now segmentId : Nat) :
    ∃ u : Topic t.1, applySnapshot cfg decode 0 now ⟨σ₀, Topic.attached σ₀ n⟩
        (t.2.buildSnapshot segmentId slots) = ⟨t.1, u⟩ ∧ Restored cfg t.2 u := by
  have hschemas : Schemas σ₀ t.1 := hrun.invariant (P := fun t => Schemas σ₀ t.1)
    (fun _ _ _ hi hok hstep => hi.step hok hstep) (.inl rfl)
  have hdist : t.1.Distinct := by
    rcases hschemas with heq | ⟨-, m, hm, -, heq⟩
    · exact heq ▸ hσ₀
    · exact heq ▸ Schema.distinct_discover hm
  refine ⟨_, ?_, hrest.restored hdist hslots hn now segmentId⟩
  have hload : applySnapshotRows cfg decode 0 now ⟨σ₀, Topic.attached σ₀ n⟩
      (slots.map fun r => (t.2.state.row r).getRowMap) = ⟨t.1, _⟩ :=
    applySnapshotRows_attached (hrest.loads hschemas hslots) now n
  dsimp only [applySnapshot, Topic.buildSnapshot]
  rw [hload]
  rfl

end System

section Quotes
open Quotes

open Unused

instance (m : JsonMap) : Decidable m.Distinct := inferInstanceAs (Decidable (Nodup _))

instance (t : AnyTopic) (m : Move) : Decidable (Ok t m) :=
  inferInstanceAs (Decidable (∀ map ∈ m.maps, map.Distinct))

instance (cfg : TopicConfig) (decode : Decode) (σ₀ : Schema) (t : AnyTopic) :
    Decidable (Restorable cfg decode σ₀ t) :=
  have : Decidable (∃ k r, t.2.state.contents k = some r) :=
    decidable_of_iff (¬ ∀ k r, t.2.state.contents k = some r → False) (by simp)
  have : Decidable (KeyedCells (cfg.keyColIndices t.1) t.2.state.contents) :=
    inferInstanceAs (Decidable (∀ k r, t.2.state.contents k = some r → _))
  decidable_of_iff' _ (restorable_iff ..)

def placeholder : Schema := ⟨[⟨"_key", .string⟩]⟩

/-- A quote as a map that keeps the order of insertion has it. -/
def quote (s : String) (b a : Nat) : JsonMap := [("sym", .string s), ("bid", num b), ("ask", num a)]

/-- The entries of a quote, in the order of insertion. -/
def inOrder (m : JsonMap) : Option JsonMap :=
  ["sym", "bid", "ask"].filterMap fun n => (m.get? n).map fun v => (n, v)

/-- Quotes without a declared schema, replayed, with an entry of another node among them. -/
def discovering : List Move :=
  [.deliver 0 0 ⟨"", 1, .upsert (quote "A" 10 11)⟩, .deliver 0 1 ⟨"", 2, .upsert (quote "B" 20 21)⟩,
    .deliver 0 2 ⟨"b", 5, .upsert (quote "C" 30 31)⟩, .deliver 0 3 ⟨"", 3, .delete "A"⟩]

theorem snapshot_restores_discovering : ∃ t,
    Run (step config) Ok (new placeholder) discovering t ∧
      t.1.columns.map Column.name = ["sym", "bid", "ask"] ∧
      t.2.state.table.liveSlots.length = 2 ∧
      ∃ u : Topic t.1, applySnapshot config inOrder 0 9 ⟨placeholder, .attached placeholder 3⟩
          (t.2.buildSnapshot 1 t.2.state.table.liveSlots.reverse) = ⟨t.1, u⟩ ∧
          Restored config t.2 u ∧ u.lastAppliedSequence = t.2.lastAppliedSequence := by
  refine Run.exists_of_check (fun t => t.1.columns.map Column.name = ["sym", "bid", "ask"] ∧
      t.2.state.table.liveSlots.length = 2 ∧ t.2.nextSequence = 3 ∧ t.2.lastAppliedSequence = 3 ∧
      Restorable config inOrder placeholder t)
    (by decide +kernel) fun t hrun ⟨hne, hlen, hseq, hlast, hsaved⟩ => ?_
  obtain ⟨u, hu, hrest⟩ :=
    snapshot_restores (by decide) hrun hsaved (reverse_perm _) hseq.ge 9 1
  exact ⟨hne, hlen, u, hu, hrest, hrest.lastApplied.mpr (hlast.trans hseq.symm)⟩

def unkeyed : TopicConfig := { keyFields := [] }

/-- The row of a topic without key columns is not in its snapshot. -/
theorem snapshot_drops_keyless_row : ∃ t,
    Run (step unkeyed) Ok (new schema) [.write 0 (.upsertMap 0 true (full "A" 10 11))] t ∧
      t.2.state.table.rowCount = 1 ∧
      (applySnapshot unkeyed some 0 1 ⟨schema, .attached schema 1⟩
        (t.2.buildSnapshot 1 t.2.state.table.liveSlots)).2.state.table.rowCount = 0 := by
  decide +kernel

end Quotes

end Restore

end CqServer
