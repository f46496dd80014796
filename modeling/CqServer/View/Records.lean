import CqServer.Lib.Replica
import CqServer.Topic.Indexed
import CqServer.View.Schema
import Mathlib.Algebra.Order.BigOperators.Group.List

/-!
# The records of a view

A view keeps one record per output row, and two functions compute its key: the topic takes
it from the columns when a row is published (`compute_key_with`), the runner from the row
when the record is to be deleted (`compose_view_key`). They agree, and two output rows have
the same key exactly if they are of the same group, where the group columns are integers
and texts that are not null, and the texts hold no separator if there are several
(`Keyable`). Then the output can be replicated record by record (`Mirrors.change`).
-/

namespace CqServer

open Lib List Option

variable {σ : Schema}

section Keys
variable [HostText]

/-- The text of a value in `compose_view_key`. -/
def viewKeyPart : Json → Option String
  | .string s => some s
  | .number n => some n.render
  | .bool b => some (if b then "true" else "false")
  | _ => none

def composeViewKey (names : List String) (row : JsonMap) : Option String :=
  (names.mapM fun n => (row.get? n).bind viewKeyPart).map (String.intercalate "|")

end Keys

/-! ## Cells both functions read alike -/

namespace Value

/-- The text of a cell in the key of a record, where it can be told from the other cells. -/
def keyText : Value → Option String
  | .string s => s
  | .long n => if n = nullLong then none else some (displayI64 n)
  | .int n => if n = nullInt then none else some (displayI32 n)
  | _ => none

theorem keyText_cases {ty : ColumnType} {v : Value} {s : String} (hv : hasType ty v = true)
    (h : v.keyText = some s) :
    ty = .string ∧ v = .string (some s) ∨
      (∃ n, ty = .long ∧ v = .long n ∧ n ≠ nullLong ∧ s = toString n.toInt) ∨
      ∃ n, ty = .int ∧ v = .int n ∧ n ≠ nullInt ∧ s = toString n.toInt := by
  have hform := exists_of_hasType hv
  cases ty with
  | string =>
    obtain ⟨s', rfl⟩ := hform
    exact .inl ⟨rfl, congrArg Value.string h⟩
  | long =>
    obtain ⟨n, rfl⟩ := hform
    simp only [keyText] at h
    split at h
    · cases h
    · rename_i hn
      exact .inr (.inl ⟨n, rfl, rfl, hn, (some.inj h).symm⟩)
  | int =>
    obtain ⟨n, rfl⟩ := hform
    simp only [keyText] at h
    split at h
    · cases h
    · rename_i hn
      exact .inr (.inr ⟨n, rfl, rfl, hn, (some.inj h).symm⟩)
  | double | bool | timestamp | bytes =>
    obtain ⟨_, rfl⟩ := hform
    cases h

theorem keyText_inj {ty : ColumnType} {v w : Value} {s : String} (hv : hasType ty v = true)
    (hw : hasType ty w = true) (hvs : v.keyText = some s) (hws : w.keyText = some s) : v = w := by
  rcases keyText_cases hv hvs with ⟨rfl, rfl⟩ | ⟨m, rfl, rfl, -, rfl⟩ | ⟨m, rfl, rfl, -, rfl⟩
  · rcases keyText_cases hw hws with ⟨-, rfl⟩ | ⟨_, ⟨⟩, -⟩ | ⟨_, ⟨⟩, -⟩
    rfl
  · rcases keyText_cases hw hws with ⟨⟨⟩, -⟩ | ⟨n, -, rfl, -, heq⟩ | ⟨_, ⟨⟩, -⟩
    rw [Int64.toInt_inj.mp (toString_int_inj heq)]
  · rcases keyText_cases hw hws with ⟨⟨⟩, -⟩ | ⟨_, ⟨⟩, -⟩ | ⟨n, -, rfl, -, heq⟩
    rw [Int32.toInt_inj.mp (toString_int_inj heq)]

variable [HostText]

/-- **What is published of a cell** with a text: the column of the view holds the cell, and
both functions read its text. -/
theorem keyText_published {ty : ColumnType} {v : Value} {s : String} (hv : hasType ty v = true)
    (h : v.keyText = some s) :
    fromJson (GroupKeyPart.fromValue v).toJson ty = v ∧
      (GroupKeyPart.fromValue v).toJson = v.toJson ∧ keyPartOfValue v = some s ∧
      viewKeyPart v.toJson = some s := by
  rcases keyText_cases hv h with ⟨rfl, rfl⟩ | ⟨n, rfl, rfl, hn, rfl⟩ | ⟨n, rfl, rfl, hn, rfl⟩
  · exact ⟨rfl, rfl, rfl, rfl⟩
  · obtain ⟨m, hm, hvalue, hrender⟩ := jsonOfInt_spec (i64_range n)
    simp [GroupKeyPart.fromValue, if_neg hn, GroupKeyPart.toJson, toJson, hm, fromJson, hvalue,
      viewKeyPart, hrender, keyPartOfValue, displayI64]
  · obtain ⟨m, hm, hvalue, hrender⟩ := jsonOfInt_spec (i32_range n)
    simp only [GroupKeyPart.fromValue, if_neg hn, GroupKeyPart.toJson, toJson, hm, fromJson, hvalue,
      viewKeyPart, hrender, map_some, Int64.toInt32_ofInt, Int32.ofInt_toInt,
      getD_some, keyPartOfValue, displayI32, and_self]

end Value

structure Keyable (cols : List σ.Col) (r : Row σ) : Prop where
  text : ∀ c ∈ cols, (r.cells c).keyText.isSome = true
  joined : cols.length = 1 ∨ ∀ c ∈ cols, ∀ s ∈ (r.cells c).keyText, '|' ∉ s.toList

instance (cols : List σ.Col) (r : Row σ) : Decidable (Keyable cols r) :=
  decidable_of_iff ((∀ c ∈ cols, (r.cells c).keyText.isSome = true) ∧
      (cols.length = 1 ∨ ∀ c ∈ cols, ∀ s ∈ (r.cells c).keyText, '|' ∉ s.toList))
    ⟨fun h => ⟨h.1, h.2⟩, fun h => ⟨h.text, h.joined⟩⟩

/-- The texts of the group columns. -/
def keyTexts (cols : List σ.Col) (r : Row σ) : List String :=
  cols.map fun c => (r.cells c).keyText.getD ""

theorem mapM_eq_some_map {α β : Type} {f : α → Option β} {g : α → β} {l : List α}
    (h : ∀ a ∈ l, f a = some (g a)) : l.mapM f = some (l.map g) := by
  induction l with
  | nil => rfl
  | cons a l ih =>
    rw [mapM_cons, h a mem_cons_self, ih fun b hb => h b (mem_cons_of_mem _ hb)]
    rfl

namespace Keyable
variable {cols : List σ.Col} {r r' : Row σ}

theorem keyText_eq (h : Keyable cols r) {c : σ.Col} (hc : c ∈ cols) :
    (r.cells c).keyText = some ((r.cells c).keyText.getD "") := by
  obtain ⟨s, hs⟩ := isSome_iff_exists.mp (h.text c hc)
  rw [hs]
  rfl

/-- Rows whose joined texts are the same have the same group columns. -/
theorem cells_eq (h : Keyable cols r) (h' : Keyable cols r')
    (hkey : String.intercalate "|" (keyTexts cols r) = String.intercalate "|" (keyTexts cols r')) :
    ∀ c ∈ cols, r.cells c = r'.cells c := by
  have htexts : keyTexts cols r = keyTexts cols r' := by
    have hlen : (keyTexts cols r).length = (keyTexts cols r').length := by simp [keyTexts]
    by_cases hone : cols.length = 1
    · obtain ⟨c, rfl⟩ := length_eq_one_iff.mp hone
      simpa [keyTexts] using hkey
    · have hparts : ∀ {r : Row σ}, Keyable cols r →
          ∀ x ∈ (keyTexts cols r).map String.toList, '|' ∉ x := by
        intro r h x hx
        obtain ⟨s, hs, rfl⟩ := mem_map.mp hx
        obtain ⟨c, hc, rfl⟩ := mem_map.mp hs
        exact h.joined.resolve_left hone c hc _ (h.keyText_eq hc)
      have hlists := congrArg String.toList hkey
      rw [String.toList_intercalate, String.toList_intercalate] at hlists
      have hmap := intercalate_inj (by simpa using hlen) (hparts h) (hparts h') hlists
      exact map_injective_iff.mpr (fun _ _ => String.toList_inj.mp) hmap
  intro c hc
  have htext := map_inj_left.mp htexts c hc
  exact Value.keyText_inj (r.typed c) (r'.typed c) (h.keyText_eq hc)
    ((h'.keyText_eq hc).trans (congrArg some htext.symm))

end Keyable

/-! ## Output rows as records -/

namespace SelectQuery

section Records
variable [HostText] {q : SelectQuery σ}

/-- The view's topic: `build_view_topic`. -/
def viewConfig (q : SelectQuery σ) : TopicConfig where
  keyFields := q.groupNames
  persist := false

/-- An output row that the view can hold: it shows the group columns of a row with a key, and
every column has a value that it holds, or none if it is hidden. -/
structure Output (q : SelectQuery σ) (m : JsonMap) : Prop where
  group : ∃ r : Row σ, Keyable q.groupBy r ∧ ∀ c ∈ q.groupBy,
    m.get? (σ.columnName c) = some (GroupKeyPart.fromValue (r.cells c)).toJson
  column : ∀ col ∈ (deriveViewSchema q).columns,
    (q.Shown col.name → ∃ v, m.get? col.name = some v ∧ v.Stores col.colType) ∧
      (¬ q.Shown col.name → m.get? col.name = none)
  flat : flatView m = m

/-- A record shows an output row, column by column. -/
def RowShows {q : SelectQuery σ} (row : Row (deriveViewSchema q)) (m : JsonMap) : Prop :=
  ∀ i, (row.cells i).toJson.partialEq ((m.get? ((deriveViewSchema q).columnName i)).getD .null) = true

theorem RowShows.congr {row : Row (deriveViewSchema q)} {m m' : JsonMap} (h : RowShows row m)
    (heq : Json.fieldsEq m m' = true) : RowShows row m' := fun i =>
  Json.partialEq_trans (h i) (JsonMap.partialEq_get? heq _)

omit [HostText] in
theorem exists_viewCol (hdistinct : (deriveViewSchema q).Distinct) {c : σ.Col} (hc : c ∈ q.groupBy) :
    ∃ i, (deriveViewSchema q).indexOf (σ.columnName c) = some i ∧
      (deriveViewSchema q).columnName i = σ.columnName c ∧
      (deriveViewSchema q).columnType i = σ.columnType c := by
  have hmem : (⟨σ.columnName c, σ.columnType c⟩ : Column) ∈ (deriveViewSchema q).columns :=
    mem_append_left _ (mem_append_left _
      (mem_map_of_mem (f := fun c => (⟨σ.columnName c, σ.columnType c⟩ : Column)) hc))
  obtain ⟨i, hi⟩ := mem_iff_get.mp hmem
  have hname : (deriveViewSchema q).columnName i = σ.columnName c := congrArg Column.name hi
  refine ⟨i, ?_, hname, congrArg Column.colType hi⟩
  rw [← hname]
  exact (deriveViewSchema q).indexOf_columnName hdistinct i

namespace Output
variable {m m' : JsonMap}

section
variable {r : Row σ} (hr : Keyable q.groupBy r) (hm : ∀ c ∈ q.groupBy,
  m.get? (σ.columnName c) = some (GroupKeyPart.fromValue (r.cells c)).toJson)
include hr hm

theorem composeViewKey_eq :
    composeViewKey q.groupNames m = some (String.intercalate "|" (keyTexts q.groupBy r)) := by
  unfold composeViewKey groupNames
  rw [mapM_map, mapM_eq_some_map]
  · rfl
  · intro c hc
    obtain ⟨-, hjson, -, hpart⟩ := Value.keyText_published (r.typed c) (hr.keyText_eq hc)
    simp [hm c hc, hjson, hpart]

theorem computeKeyWith_eq (hdistinct : (deriveViewSchema q).Distinct) (hgrouped : q.groupBy ≠ []) :
    computeKeyWith (Values.ofMap (deriveViewSchema q) m).vals
        (q.viewConfig.keyColIndices (deriveViewSchema q)) =
      some (String.intercalate "|" (keyTexts q.groupBy r)) := by
  have hparts : ∀ cols : List σ.Col, (∀ c ∈ cols, c ∈ q.groupBy) →
      ((cols.map σ.columnName).filterMap (deriveViewSchema q).indexOf).mapM (fun i =>
          keyPartOfValue ((Values.ofMap (deriveViewSchema q) m).vals i)) =
        some (keyTexts cols r) := by
    intro cols hcols
    induction cols with
    | nil => rfl
    | cons c cols ih =>
      have hc := hcols c mem_cons_self
      obtain ⟨i, hi, hname, hty⟩ := exists_viewCol hdistinct hc
      obtain ⟨hcell, -, hpart, -⟩ := Value.keyText_published (r.typed c) (hr.keyText_eq hc)
      have hvalue : (Values.ofMap (deriveViewSchema q) m).vals i = r.cells c := by
        simp [Values.ofMap, hname, hm c hc, hty, hcell]
      rw [map_cons, filterMap_cons_some hi, mapM_cons, hvalue, hpart,
        ih fun c' hc' => hcols c' (mem_cons_of_mem _ hc')]
      rfl
  have htexts := hparts q.groupBy fun _ hc => hc
  have hne : q.viewConfig.keyColIndices (deriveViewSchema q) ≠ [] := by
    intro hnil
    change (q.viewConfig.keyColIndices (deriveViewSchema q)).mapM _ = _ at htexts
    rw [hnil] at htexts
    have hlen := congrArg length (some.inj htexts)
    rw [keyTexts, length_map] at hlen
    exact hgrouped (length_eq_zero_iff.mp hlen.symm)
  have hjoin : ∀ parts : List String, joinKey parts = String.intercalate "|" parts := by
    intro parts
    unfold joinKey
    split
    · exact String.intercalate_singleton.symm
    · rfl
  unfold computeKeyWith
  rw [if_neg hne]
  rw [show (q.viewConfig.keyColIndices (deriveViewSchema q)).mapM _ = _ from htexts, map_some,
    hjoin]

theorem values_plain : ∀ n ∈ q.groupNames, ((m.get? n).getD .null).Plain := by
  intro n hn
  obtain ⟨c, hc, rfl⟩ := mem_map.mp hn
  rw [hm c hc]
  refine GroupKeyPart.toJson_fromValue_plain (r.typed c) ?_
  rcases Value.keyText_cases (r.typed c) (hr.keyText_eq hc) with
    ⟨hty, -⟩ | ⟨_, hty, -⟩ | ⟨_, hty, -⟩ <;> rw [hty] <;> nofun

end

/-- **One record for each group**: output rows have the same key exactly if they have the
same group. -/
theorem key_eq_iff (h : q.Output m) (h' : q.Output m') :
    composeViewKey q.groupNames m = composeViewKey q.groupNames m' ↔
      groupKeyCanonical m q.groupNames = groupKeyCanonical m' q.groupNames := by
  obtain ⟨r, hr, hm⟩ := h.group
  obtain ⟨r', hr', hm'⟩ := h'.group
  constructor
  · intro hkey
    rw [composeViewKey_eq hr hm, composeViewKey_eq hr' hm'] at hkey
    have hcells := hr.cells_eq hr' (some.inj hkey)
    refine congrArg (fun items => Json.render (.array items)) (map_congr_left fun n hn => ?_)
    obtain ⟨c, hc, rfl⟩ := mem_map.mp hn
    rw [hm c hc, hm' c hc, hcells c hc]
  · intro htext
    have hvalues := groupKeyCanonical_inj (values_plain hr hm) (values_plain hr' hm') htext
    have hcells : ∀ c ∈ q.groupBy, r.cells c = r'.cells c := by
      intro c hc
      have hvalue := hvalues _ (mem_map_of_mem hc)
      rw [hm c hc, hm' c hc] at hvalue
      have hback := (Value.keyText_published (r.typed c) (hr.keyText_eq hc)).1
      have hback' := (Value.keyText_published (r'.typed c) (hr'.keyText_eq hc)).1
      rw [← hback, ← hback']
      exact congrArg (Value.fromJson · (σ.columnType c)) hvalue
    have htexts : keyTexts q.groupBy r = keyTexts q.groupBy r' :=
      map_congr_left fun c hc => by rw [hcells c hc]
    rw [composeViewKey_eq hr hm, composeViewKey_eq hr' hm', htexts]

/-- The record of a published output row, new or over another, shows the row. -/
theorem upsertRow_shows (hm : q.Output m) {old : Option (Row (deriveViewSchema q))}
    (hold : ∀ row ∈ old, ∃ m', q.Output m' ∧ RowShows row m') :
    RowShows (StoreState.upsertRow old (.ofMap (deriveViewSchema q) m)) m := by
  intro i
  have hcol := hm.column ((deriveViewSchema q).columns.get i) (get_mem _ _)
  by_cases hshown : q.Shown ((deriveViewSchema q).columnName i)
  · obtain ⟨v, hv, hstores⟩ := hcol.1 hshown
    change m.get? ((deriveViewSchema q).columnName i) = some v at hv
    change (Value.fromJson v ((deriveViewSchema q).columnType i)).toJson = v at hstores
    have hvals : (Values.ofMap (deriveViewSchema q) m).vals i =
        .fromJson v ((deriveViewSchema q).columnType i) := by
      simp [Values.ofMap, hv]
    rw [StoreState.upsertRow_cells, hvals, if_neg (Value.fromJson_ne_null _ _), hv, hstores]
    exact Json.partialEq_refl v
  · -- a hidden column is never written
    have hnone : ∀ m' : JsonMap, q.Output m' → m'.get? ((deriveViewSchema q).columnName i) = none :=
      fun m' hm' => (hm'.column _ (get_mem (deriveViewSchema q).columns i)).2 hshown
    rw [StoreState.upsertRow_cells, if_pos (Values.ofMap_vals_eq_null.mpr (hnone m hm)), hnone m hm]
    cases old with
    | none =>
      rw [Option.elim, Value.toJson_nullOf]
      rfl
    | some row =>
      obtain ⟨m', hm', hshows⟩ := hold row rfl
      have hhidden := hshows i
      rw [hnone m' hm'] at hhidden
      exact hhidden

/-- **Publishing an output row** writes the record under its key and shows the row there. -/
theorem publish (hs : q.Storable) (hgrouped : q.groupBy ≠ []) (hm : q.Output m) (now : Nat)
    (t : Topic (deriveViewSchema q)) (hshowing : Showing q.Output RowShows t.state.contents) :
    ∃ k row, composeViewKey q.groupNames m = some k ∧ RowShows row m ∧
      ∀ k', (upsertMap q.viewConfig now true t m).topic.state.contents k' =
        if k' = k then some row else t.state.contents k' := by
  obtain ⟨r, hr, hgroup⟩ := hm.group
  have hkey := computeKeyWith_eq hr hgroup hs.distinct hgrouped
  have hstate : (upsertMap q.viewConfig now true t m).topic.state =
      (t.state.commitValuesLocked (q.viewConfig.keyColIndices (deriveViewSchema q)) now
        (.ofMap (deriveViewSchema q) m)).1 := by
    simp [upsertMap, hm.flat, writeStoreWithChanged]
  exact ⟨_, _, composeViewKey_eq hr hgroup, hm.upsertRow_shows (fun row hrow => hshowing _ row hrow),
    fun k' => hstate ▸ StoreState.commitValuesLocked_contents hkey now t.state k'⟩

end Output

/-! ## The output rows of a store -/

section Execute
variable [F64Arith] {store : ColumnStore σ}

/-- What is summed fits into an `i64`, over however many slots it is taken. -/
def Summable (q : SelectQuery σ) (store : ColumnStore σ) : Prop :=
  ∀ a ∈ q.aggregates, a.func = .sum → ∀ n, a.magnitudes ((range n).map store.row) < 2 ^ 63

omit [HostText] [F64Arith] in
theorem Summable.magnitudes_lt (h : q.Summable store) {a : AggregateSpec σ} (ha : a ∈ q.aggregates)
    (hsum : a.func = .sum) {s : Finset Nat} {n : Nat} (hs : ∀ r ∈ s, r < n) :
    a.magnitudes ((s.sort (· ≤ ·)).map store.row) < 2 ^ 63 := by
  have hsort : s.sort (· ≤ ·) = (range n).filter fun r => r ∈ s :=
    sort_eq_filter pairwise_lt_range fun r =>
      ⟨fun hr => ⟨mem_range.mpr (hs r hr), hr⟩, And.right⟩
  have hle : a.magnitudes ((s.sort (· ≤ ·)).map store.row) ≤
      a.magnitudes ((range n).map store.row) := by
    rw [hsort]
    exact ((filter_sublist.map _).map _).sum_le_sum fun _ _ => Nat.zero_le _
  exact hle.trans_lt (h a ha hsum n)

/-- **The output of a group can be held by the view**, if its first row has a key; the slots
are `u32`s. -/
theorem aggregateOneGroup_output (hσ : σ.Distinct) (hq : q.GroupShape) (hs : q.Storable)
    (hsum : q.Summable store) {s : Finset Nat} (hslots : ∀ r ∈ s, r < 2 ^ 32)
    (hanchor : ∀ a ∈ (s.sort (· ≤ ·)).head?, Keyable q.groupBy (store.row a)) {m : JsonMap}
    (h : q.aggregateOneGroup store s = some m) : q.Output m := by
  cases hlist : s.sort (· ≤ ·) with
  | nil => simp [aggregateOneGroup, hlist] at h
  | cons a rest =>
    rw [hlist] at hanchor
    have hkeyable := hanchor a rfl
    rw [aggregateOneGroup_of_sort hlist] at h
    have hkeys : ∀ c ∈ q.groupBy,
        (GroupKeyPart.fromValue ((store.row a).cells c)).toJson.Stores (σ.columnType c) := by
      intro c hc
      obtain ⟨hcell, hjson, -⟩ :=
        Value.keyText_published ((store.row a).typed c) (hkeyable.keyText_eq hc)
      rw [Json.Stores, hcell, hjson]
    have hlen : ((a :: rest).map store.row).length < 2 ^ 63 := by
      have hcard : s.card ≤ 2 ^ 32 := by
        have hsub : s ⊆ Finset.range (2 ^ 32) := fun r hr => Finset.mem_range.mpr (hslots r hr)
        exact (Finset.card_le_card hsub).trans (Finset.card_range _).le
      rw [← hlist, length_map, Finset.length_sort]
      omega
    have hvalues : ∀ spec ∈ q.aggregates,
        (spec.value ((a :: rest).map store.row)).Stores spec.viewType := by
      intro spec hspec
      refine (hs.aggregates spec hspec).value_stores hlen fun hfunc => ?_
      rw [← hlist]
      exact hsum.magnitudes_lt hspec hfunc hslots
    refine ⟨⟨store.row a, hkeyable, fun c hc => ?_⟩, ?_, hs.emit_flat h hkeys hvalues⟩
    · rw [hq.emit_group h hc, get?_keyMap hσ, if_pos hc]
    · intro col hcol
      exact hs.emit_column h hkeys hvalues hσ hcol

end Execute

/-- The view's records are the output rows in the table. -/
def Mirrors (q : SelectQuery σ) (last : Finmap fun _ : String => JsonMap)
    (t : Topic (deriveViewSchema q)) : Prop :=
  Replica (composeViewKey q.groupNames) (groupKeyCanonical · q.groupNames) q.Output RowShows
    (fun k => last.lookup k) t.state.contents

/-- The writes and then the deletes; a view is not persisted, so none of them fails. -/
def applyToView (q : SelectQuery σ) (now : Nat) (t : Topic (deriveViewSchema q))
    (toUpsert : List JsonMap) (toDelete : List String) : Topic (deriveViewSchema q) :=
  toDelete.foldl (fun t key => (delete q.viewConfig true t key).topic)
    (toUpsert.foldl (fun t row => (upsertMap q.viewConfig now true t row).topic) t)

theorem contents_delete {cfg : TopicConfig} {τ : Schema} (t : Topic τ) (key k : String) :
    (delete cfg true t key).topic.state.contents k =
      if k = key then none else t.state.contents k := by
  rw [delete_state]
  simp only [foldl_cons, Mutation.apply]
  cases hrem : t.state.removeKey key with
  | none =>
    have habsent : t.state.contents key = none :=
      SlotTable.view_of_lookup_none (StoreState.removeKey_eq_none.mp hrem)
    by_cases hk : k = key
    · rw [if_pos hk, hk]
      exact habsent
    · rw [if_neg hk]
      rfl
  | some p => exact StoreState.removeKey_contents hrem k

theorem Mirrors.change (hs : q.Storable) (hgrouped : q.groupBy ≠ [])
    {last last' : Finmap fun _ : String => JsonMap} {t : Topic (deriveViewSchema q)}
    (h : q.Mirrors last t) (now : Nat) {toUpsert : List JsonMap} {toDelete : List String}
    (hentry : ∀ k m, last'.lookup k = some m → q.Output m ∧ groupKeyCanonical m q.groupNames = k)
    (hchange : TableChange (composeViewKey q.groupNames) (RowShows (q := q)) (fun k => last.lookup k)
      (fun k => last'.lookup k) toUpsert toDelete) :
    q.Mirrors last' (q.applyToView now t toUpsert toDelete) := by
  refine Replica.change h (fun m m' hm hm' => hm.key_eq_iff hm') ?_ hentry hchange ?_
  · intro m hm
    obtain ⟨r, hr, hgroup⟩ := hm.group
    exact ⟨_, Output.composeViewKey_eq hr hgroup⟩
  · refine applied_foldl
      (fun t u hu hshowing => hu.publish hs hgrouped now t hshowing)
      (fun t key k => contents_delete t key k) ?_ toDelete fun k row hrow => h.showing hrow
    intro u hu
    obtain ⟨k, hk⟩ := hchange.new u hu
    exact (hentry k u hk).1

end Records

end SelectQuery

end CqServer
