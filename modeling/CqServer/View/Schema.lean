import CqServer.Query.Incremental
import Mathlib.Algebra.GroupWithZero.Nat

/-!
# The columns of a view

A view keeps the output rows of a GROUP BY query as records of a topic whose schema is
derived from the query (`derive_view_schema`). The derived type of a column need not hold
what the aggregate returns: a sum over an expression is a double in a long column, and a
minimum over booleans is a count in a boolean column. `Storable` names the queries without
such a column; their output rows come back from the view as they are (`emit_column`).
-/

namespace CqServer

open Lib Option

variable {σ : Schema}

/-! ## Values a column gives back -/

section Stores
variable [HostText]

/-- A column of this type shows the value as it was published. -/
def Json.Stores (ty : ColumnType) (v : Json) : Prop := (Value.fromJson v ty).toJson = v

theorem stores_null (ty : ColumnType) : Json.null.Stores ty :=
  Value.toJson_nullOf ty

theorem stores_string (s : String) : (Json.string s).Stores .string := rfl

theorem stores_f64 (f : F64) : f.toJson.Stores .double := by
  unfold F64.toJson
  split
  · rename_i hf
    change (Value.double f).toJson = _
    simp [Value.toJson, hf]
  · exact stores_null .double

theorem stores_long {n : Int} (h : -(2 ^ 63) < n ∧ n < 2 ^ 63) : (Value.jsonOfInt n).Stores .long := by
  obtain ⟨m, hm, hvalue, -⟩ := Value.jsonOfInt_spec ⟨h.1.le, h.2⟩
  have hback : (Int64.ofInt n).toInt = n := Int64.toInt_ofInt_of_le h.1.le h.2
  have hne : Int64.ofInt n ≠ nullLong := by
    intro heq
    rw [heq] at hback
    have hmin : nullLong.toInt = -(2 ^ 63) := rfl
    omega
  rw [Json.Stores, hm]
  simp only [Value.fromJson, hvalue, getD_some, Value.toJson, if_neg hne, hback]
  exact hm

theorem stores_int {n : Int} (h : -(2 ^ 31) < n ∧ n < 2 ^ 31) : (Value.jsonOfInt n).Stores .int := by
  obtain ⟨m, hm, hvalue, -⟩ := Value.jsonOfInt_spec (n := n) ⟨by omega, by omega⟩
  have hback : (Int32.ofInt n).toInt = n := Int32.toInt_ofInt_of_le h.1.le h.2
  have hne : Int32.ofInt n ≠ nullInt := by
    intro heq
    rw [heq] at hback
    have hmin : nullInt.toInt = -(2 ^ 31) := rfl
    omega
  rw [Json.Stores, hm]
  simp only [Value.fromJson, hvalue, map_some, Int64.toInt32_ofInt, getD_some,
    Value.toJson, if_neg hne, hback]
  exact hm

theorem Json.Stores.not_nested {ty : ColumnType} {v : Json} (h : v.Stores ty) :
    v.isNested = false := by
  rw [← show _ = v from h]
  exact Value.toJson_flat _

end Stores

/-! ## The type of an aggregate -/

/-- The type `derive_view_schema` gives an aggregate. -/
def AggregateSpec.viewType (a : AggregateSpec σ) : ColumnType :=
  match a.func, a.col with
  | .count, _ => .long
  | .sum, some c => if σ.columnType c = .double then .double else .long
  | .avg, _ => .double
  | .min, some c | .max, some c => σ.columnType c
  | .min, none | .max, none | .sum, none => .long
  | .stddev, _ | .stddevSamp, _ | .variance, _ | .varianceSamp, _ => .double
  | .percentileCont, _ => .double
  | .countDistinct, _ => .long

/-- The aggregates whose column holds what they return: sums, minima and maxima are over a
column, the last two over a column they have an order for. -/
def AggregateSpec.Storable (a : AggregateSpec σ) : Prop :=
  match a.func with
  | .sum => a.expr = none
  | .min | .max => a.expr = none ∧ ∀ c ∈ a.col,
      σ.columnType c = .double ∨ σ.columnType c = .long ∨ σ.columnType c = .int ∨
        σ.columnType c = .string
  | _ => True

namespace AggState

/-- What the state of an aggregate can be after `n` rows, if its column has this type and
the integers read so far add up to no more than `total`. -/
def Fits (ty : ColumnType) (n total : Nat) : AggState → Prop
  | .count k => ty = .long ∧ k ≤ n
  | .sumI acc _ => ty = .long ∧ acc.natAbs ≤ total
  | .sumF .. | .avgF .. | .minF .. | .maxF .. | .welford .. | .percentile .. => ty = .double
  | .minI cur seen | .maxI cur seen =>
    ty = .long ∧ (seen = true → -(2 ^ 63) < cur.toInt) ∨
      ty = .int ∧ (seen = true → -(2 ^ 31) < cur.toInt ∧ cur.toInt < 2 ^ 31)
  | .minS .. | .maxS .. => ty = .string
  | .countDistinct set => ty = .long ∧ set.length ≤ n

/-- The state of an integer sum. -/
def isSumI : AggState → Bool
  | .sumI .. => true
  | _ => false

variable [HostText] [F64Arith]

theorem isSumI_update (st : AggState) (v : Option Value) : (st.update v).isSumI = st.isSumI := by
  cases st <;> simp only [update] <;> (repeat' split) <;> rfl

theorem Fits.finalize {ty : ColumnType} {n total : Nat} {st : AggState} (h : st.Fits ty n total)
    (hn : n < 2 ^ 63) (htotal : st.isSumI = true → total < 2 ^ 63) : st.finalize.Stores ty := by
  cases st with
  | count k =>
    obtain ⟨rfl, hk⟩ := h
    exact stores_long ⟨by omega, by omega⟩
  | sumI acc seen =>
    obtain ⟨rfl, hacc⟩ := h
    have hbound := htotal rfl
    have hmin : Int64.minValue.toInt = -(2 ^ 63) := rfl
    have hmax : Int64.maxValue.toInt = 2 ^ 63 - 1 := rfl
    have hrange : Int64.minValue.toInt ≤ acc ∧ acc ≤ Int64.maxValue.toInt := by omega
    simp only [AggState.finalize]
    split
    · exact stores_null _
    · exact stores_long (by omega)
  | sumF acc seen | minF acc seen | maxF acc seen | avgF acc k | percentile values q =>
    obtain rfl := h
    simp only [AggState.finalize]
    split
    · exact stores_null _
    · exact stores_f64 _
  | welford k mean m2 kind =>
    obtain rfl := h
    simp only [AggState.finalize]
    cases welfordValue k m2 kind with
    | none => exact stores_null _
    | some f => exact stores_f64 f
  | minI cur seen | maxI cur seen =>
    have hhigh := cur.toInt_lt
    simp only [AggState.finalize]
    split
    · exact stores_null _
    rename_i hseen
    have hseen' : seen = true := by simpa using hseen
    rcases h with ⟨rfl, hlow⟩ | ⟨rfl, hrange⟩
    · exact stores_long ⟨hlow hseen', hhigh⟩
    · exact stores_int (hrange hseen')
  | minS cur seen | maxS cur seen =>
    obtain rfl := h
    simp only [AggState.finalize]
    split
    · exact stores_null _
    · exact stores_string cur
  | countDistinct set =>
    obtain ⟨rfl, hlen⟩ := h
    exact stores_long ⟨by omega, by omega⟩

end AggState

/-- An integer that is read is not the null of its column. -/
theorem Value.lt_asI64 {v : Value} {x : Int64} (h : v.asI64 = some x) : -(2 ^ 63) < x.toInt := by
  cases v with
  | long n =>
    simp only [asI64] at h
    split at h
    · cases h
    rename_i hne
    obtain rfl := some.inj h
    have hlow := n.le_toInt
    have hnull : n.toInt ≠ -(2 ^ 63) := fun heq => hne (Int64.toInt_inj.mp heq)
    omega
  | int n =>
    simp only [asI64] at h
    split at h
    · cases h
    cases h
    have hlow := n.le_toInt
    rw [Int32.toInt_toInt64]
    omega
  | _ => cases h

theorem Value.asI64_int {n : Int32} {x : Int64} (h : (Value.int n).asI64 = some x) :
    -(2 ^ 31) < x.toInt ∧ x.toInt < 2 ^ 31 := by
  simp only [asI64] at h
  split at h
  · cases h
  rename_i hne
  cases h
  have hlow := n.le_toInt
  have hhigh := n.toInt_lt
  have hnull : n.toInt ≠ -(2 ^ 31) := fun heq => hne (Int32.toInt_inj.mp heq)
  rw [Int32.toInt_toInt64]
  omega

namespace AggState
variable [HostText] [F64Arith]

/-- What a row adds to an integer sum, in absolute value. -/
def magnitude (v : Option Value) : Nat := (v.bind Value.asI64).elim 0 fun x => x.toInt.natAbs

theorem Fits.update {ty : ColumnType} {n total : Nat} {st : AggState} (h : st.Fits ty n total)
    {v : Option Value} (hint : ty = .int → ∀ w ∈ v, ∃ m, w = .int m) :
    (st.update v).Fits ty (n + 1) (total + magnitude v) := by
  -- the integers a minimum or maximum may keep
  have hread : ∀ x, v.bind Value.asI64 = some x →
      -(2 ^ 63) < x.toInt ∧ (ty = .int → -(2 ^ 31) < x.toInt ∧ x.toInt < 2 ^ 31) := by
    intro x hx
    obtain ⟨w, hw, hasI64⟩ := bind_eq_some_iff.mp hx
    refine ⟨Value.lt_asI64 hasI64, fun hty => ?_⟩
    obtain ⟨m, rfl⟩ := hint hty w hw
    exact Value.asI64_int hasI64
  have hkeep : ∀ {cur x : Int64} {seen : Bool} (p : Prop) [Decidable p],
      (minI cur seen).Fits ty n total → (¬ p → seen = true) → v.bind Value.asI64 = some x →
      (minI (if p then x else cur) true).Fits ty n total := by
    intro cur x seen p _ hcur hp hx
    obtain ⟨hlow, hrange⟩ := hread x hx
    split
    · rcases hcur with ⟨hty, -⟩ | ⟨hty, -⟩
      · exact .inl ⟨hty, fun _ => hlow⟩
      · exact .inr ⟨hty, fun _ => hrange hty⟩
    · rename_i hnot
      rcases hcur with ⟨hty, hcur⟩ | ⟨hty, hcur⟩
      · exact .inl ⟨hty, fun _ => hcur (hp hnot)⟩
      · exact .inr ⟨hty, fun _ => hcur (hp hnot)⟩
  cases st with
  | count k =>
    obtain ⟨hty, hk⟩ := h
    simp only [AggState.update]
    (repeat' split) <;> exact ⟨hty, by omega⟩
  | sumI acc seen =>
    obtain ⟨hty, hacc⟩ := h
    simp only [AggState.update, magnitude]
    cases hx : v.bind Value.asI64 with
    | none => exact ⟨hty, hacc⟩
    | some x =>
      refine ⟨hty, ?_⟩
      simp only [elim_some]
      omega
  | sumF acc seen | avgF acc k | minF cur seen | maxF cur seen | welford k mean m2 kind
  | percentile values q | minS cur seen | maxS cur seen =>
    simp only [AggState.update]
    split <;> exact h
  | minI cur seen | maxI cur seen =>
    simp only [AggState.update]
    cases hx : v.bind Value.asI64 with
    | none => exact h
    | some x => exact hkeep _ h (by cases seen <;> simp) hx
  | countDistinct set =>
    obtain ⟨hty, hlen⟩ := h
    simp only [AggState.update]
    split
    · split
      · exact ⟨hty, by omega⟩
      · refine ⟨hty, ?_⟩
        unfold List.insert
        split
        · omega
        · rw [List.length_cons]
          omega
    · exact ⟨hty, by omega⟩

end AggState

namespace AggregateSpec
variable [HostText] [F64Arith] {a : AggregateSpec σ}

omit [HostText] [F64Arith] in
theorem Storable.init_fits (h : a.Storable) : a.init.Fits a.viewType 0 0 := by
  obtain ⟨func, col, expr, label, q⟩ := a
  cases func with
  | count | countDistinct => exact ⟨rfl, le_rfl⟩
  | avg | stddev | stddevSamp | variance | varianceSamp | percentileCont => rfl
  | sum =>
    obtain rfl : expr = none := h
    cases col with
    | none => exact ⟨rfl, le_rfl⟩
    | some c =>
      simp only [init, inputType, viewType, map_some]
      cases hty : σ.columnType c with
      | double => rfl
      | _ => exact ⟨rfl, le_rfl⟩
  | min | max =>
    obtain ⟨rfl, hordered⟩ := h
    cases col with
    | none => exact ⟨rfl, le_rfl⟩
    | some c =>
      simp only [init, inputType, viewType, map_some]
      rcases hordered c rfl with hty | hty | hty | hty <;> rw [hty]
      · rfl
      · exact .inl ⟨rfl, nofun⟩
      · exact .inr ⟨rfl, nofun⟩
      · rfl

omit [HostText] [F64Arith] in
/-- An int column of a view reads an int column of the source. -/
theorem Storable.input_int (h : a.Storable) (hty : a.viewType = .int) {r : Row σ} {w : Value}
    (hw : w ∈ a.input r) : ∃ m, w = .int m := by
  obtain ⟨func, col, expr, label, q⟩ := a
  cases func with
  | min | max =>
    obtain ⟨rfl, -⟩ := h
    cases col with
    | none => cases hw
    | some c =>
      have htyped := r.typed c
      rw [show σ.columnType c = .int from hty] at htyped
      exact some.inj hw ▸ Value.exists_of_hasType htyped
  | sum =>
    cases col with
    | none => cases hty
    | some c =>
      simp only [viewType] at hty
      split at hty <;> cases hty
  | _ => cases hty

omit [HostText] [F64Arith] in
theorem isSumI_init (hsum : a.init.isSumI = true) : a.func = .sum := by
  obtain ⟨func, col, expr, label, q⟩ := a
  cases func with
  | sum => rfl
  | count | avg | stddev | stddevSamp | variance | varianceSamp | percentileCont | countDistinct =>
    cases hsum
  | min | max =>
    simp only [init] at hsum
    generalize inputType _ = ty at hsum
    cases ty with
    | none => cases hsum
    | some ty => cases ty <;> cases hsum

def magnitudes (a : AggregateSpec σ) (rows : List (Row σ)) : Nat :=
  (rows.map fun r => AggState.magnitude (a.input r)).sum

/-- **The value of a storable aggregate is shown by its column as it is**, if the rows can be
counted and, for a sum, the integers are not too large. -/
theorem Storable.value_stores (h : a.Storable) {rows : List (Row σ)} (hlen : rows.length < 2 ^ 63)
    (hsum : a.func = .sum → a.magnitudes rows < 2 ^ 63) : (a.value rows).Stores a.viewType := by
  have hfold : ∀ (rows : List (Row σ)) (st : AggState) (n total : Nat), st.Fits a.viewType n total →
      (rows.foldl a.update st).Fits a.viewType (n + rows.length) (total + a.magnitudes rows) ∧
        (rows.foldl a.update st).isSumI = st.isSumI := by
    intro rows
    induction rows with
    | nil => exact fun st n total hst => ⟨hst, rfl⟩
    | cons r rows ih =>
      intro st n total hst
      obtain ⟨hfits, hkind⟩ := ih (a.update st r) _ _
        (hst.update fun hty w hw => h.input_int hty hw)
      refine ⟨?_, hkind.trans (st.isSumI_update _)⟩
      have hn : n + (r :: rows).length = n + 1 + rows.length := by
        rw [List.length_cons]
        omega
      have htotal : total + a.magnitudes (r :: rows) =
          total + AggState.magnitude (a.input r) + a.magnitudes rows := by
        simp only [magnitudes, List.map_cons, List.sum_cons]
        omega
      rw [hn, htotal]
      exact hfits
  obtain ⟨hfits, hkind⟩ := hfold rows a.init 0 0 h.init_fits
  rw [Nat.zero_add, Nat.zero_add] at hfits
  refine hfits.finalize hlen fun hstate => hsum (isSumI_init ?_)
  rw [← hkind]
  exact hstate

end AggregateSpec

/-! ## Output rows -/

def deriveViewSchema (q : SelectQuery σ) : Schema where
  columns :=
    q.groupBy.map (fun c => ⟨σ.columnName c, σ.columnType c⟩) ++
      (q.aggregates.map fun a => ⟨a.label, a.viewType⟩) ++
      q.postAgg.map fun p => ⟨p.1, .double⟩

theorem Schema.Distinct.nodup_names {τ : Schema} (h : τ.Distinct) :
    (τ.columns.map Column.name).Nodup := by
  rw [List.nodup_iff_injective_get]
  intro i j heq
  have hlen : (τ.columns.map Column.name).length = τ.columns.length := List.length_map _
  have hget : ∀ i : Fin (τ.columns.map Column.name).length,
      (τ.columns.map Column.name).get i = τ.columnName (i.cast hlen) := by
    simp [Schema.columnName]
  rw [hget, hget] at heq
  exact Fin.cast_injective hlen (h heq)

namespace SelectQuery
variable {q : SelectQuery σ}

/-- A column that `apply_post_agg` does not strip. -/
def Shown (q : SelectQuery σ) (name : String) : Prop :=
  q.postAgg = [] ∨ "__postagg_".isPrefixOf name = false

/-- The queries whose values the columns of the view hold. -/
structure Storable [HostText] (q : SelectQuery σ) : Prop where
  distinct : (deriveViewSchema q).Distinct
  aggregates : ∀ a ∈ q.aggregates, a.Storable
  postAgg : ∀ p ∈ q.postAgg, ∀ m, (p.2 m).Stores .double

section Emit
variable [HostText]

variable {m : JsonMap}

theorem emit_cases {key : List GroupKeyPart} {values : List Json} (h : q.emit key values = some m) :
    ∃ row : JsonMap, row = (q.aggregates.zip values).foldl (fun m e => m.insert e.1.label e.2)
        (keyMap q.groupBy key) ∧ m = q.applyPostAgg row := by
  unfold GroupQuery.emit at h
  dsimp only at h
  split at h
  · cases h
    exact ⟨_, rfl, rfl⟩
  · cases h

omit [HostText] in
/-- What the output row shows under a name that expressions over aggregates do not write. -/
theorem get?_applyPostAgg_of_ne {n : String} (hn : ∀ p ∈ q.postAgg, p.1 ≠ n) (row : JsonMap) :
    JsonMap.get? (q.applyPostAgg row) n =
      if q.postAgg = [] ∨ "__postagg_".isPrefixOf n = false then row.get? n else none := by
  unfold GroupQuery.applyPostAgg
  split
  · rename_i hempty
    rw [if_pos (.inl (by simpa using hempty))]
  · rename_i hne
    have hsome : q.postAgg ≠ [] := by simpa using hne
    rw [get?_filter fun n => !"__postagg_".isPrefixOf n,
      JsonMap.get?_foldl_insert Prod.fst (fun m (p : String × (JsonMap → Json)) => p.2 m) hn row]
    simp [hsome]

variable {f : AggregateSpec σ → Json} {r : Row σ}

omit [HostText] in
theorem flat_foldl_insert {α : Type} (name : α → String) (value : JsonMap → α → Json) {l : List α}
    (hl : ∀ a ∈ l, ∀ m, (value m a).isNested = false) (hm : mapHasNesting m = false) :
    mapHasNesting (l.foldl (fun m a => JsonMap.insert (name a) (value m a) m) m) = false := by
  exact List.foldlRecOn (motive := (mapHasNesting · = false)) l _ hm fun m hm a ha =>
    mapHasNesting_insert (hl a ha m) hm

section
variable (hs : q.Storable) (h : q.emit (groupKey q.groupBy r) (q.aggregates.map f) = some m)
  (hkeys : ∀ c ∈ q.groupBy, (GroupKeyPart.fromValue (r.cells c)).toJson.Stores (σ.columnType c))
  (hvalues : ∀ a ∈ q.aggregates, (f a).Stores a.viewType)
include hs h hkeys hvalues

/-- **A column of the view and the output row**: a shown column has a value that it holds, a
hidden one has none. -/
theorem Storable.emit_column (hσ : σ.Distinct) {col : Column}
    (hcol : col ∈ (deriveViewSchema q).columns) :
    (q.Shown col.name → ∃ v, m.get? col.name = some v ∧ v.Stores col.colType) ∧
      (¬ q.Shown col.name → m.get? col.name = none) := by
  obtain ⟨row, hrow, rfl⟩ := emit_cases h
  have hzip : q.aggregates.zip (q.aggregates.map f) = q.aggregates.map fun a => (a, f a) :=
    List.map_prod_left_eq_zip.symm
  rw [hzip, List.foldl_map] at hrow
  have hnames := hs.distinct.nodup_names
  simp only [deriveViewSchema, List.map_append, List.map_map, List.nodup_append] at hnames
  obtain ⟨⟨-, hlabels, hgroup⟩, hpost, hothers⟩ := hnames
  simp only [deriveViewSchema, List.mem_append, List.mem_map] at hcol
  rcases hcol with (⟨c, hc, rfl⟩ | ⟨a, ha, rfl⟩) | ⟨p, hp, rfl⟩
  · -- a group column
    have hne : ∀ p ∈ q.postAgg, p.1 ≠ σ.columnName c := fun p hp heq =>
      hothers _ (List.mem_append_left _ (List.mem_map_of_mem hc)) _ (List.mem_map_of_mem hp) heq.symm
    have hvalue : row.get? (σ.columnName c) =
        some (GroupKeyPart.fromValue (r.cells c)).toJson := by
      rw [hrow, JsonMap.get?_foldl_insert AggregateSpec.label (fun _ a => f a), get?_keyMap hσ, if_pos hc]
      exact fun a ha heq => hgroup _ (List.mem_map_of_mem hc) _ (List.mem_map_of_mem ha) heq.symm
    rw [get?_applyPostAgg_of_ne hne, hvalue]
    exact ⟨fun hshown => ⟨_, if_pos hshown, hkeys c hc⟩, fun hhidden => if_neg hhidden⟩
  · -- an aggregate
    have hne : ∀ p ∈ q.postAgg, p.1 ≠ a.label := fun p hp heq =>
      hothers _ (List.mem_append_right _ (List.mem_map_of_mem ha)) _ (List.mem_map_of_mem hp)
        heq.symm
    have hvalue : row.get? a.label = some (f a) := by
      obtain ⟨_, hget⟩ := JsonMap.get?_foldl_insert_of_mem AggregateSpec.label (fun _ a => f a)
        hlabels ha (keyMap q.groupBy (groupKey q.groupBy r))
      rw [hrow]
      exact hget
    rw [get?_applyPostAgg_of_ne hne, hvalue]
    exact ⟨fun hshown => ⟨_, if_pos hshown, hvalues a ha⟩, fun hhidden => if_neg hhidden⟩
  · -- an expression over aggregates
    have hsome : q.postAgg ≠ [] := List.ne_nil_of_mem hp
    obtain ⟨m', hget⟩ := JsonMap.get?_foldl_insert_of_mem Prod.fst
      (fun m (p : String × (JsonMap → Json)) => p.2 m) hpost hp row
    have hvalue : JsonMap.get? (q.applyPostAgg row) p.1 =
        if "__postagg_".isPrefixOf p.1 = false then some (p.2 m') else none := by
      unfold GroupQuery.applyPostAgg
      rw [if_neg (by simpa using hsome), get?_filter fun n => !"__postagg_".isPrefixOf n, hget]
      simp
    rw [hvalue]
    refine ⟨fun hshown => ⟨_, if_pos (hshown.resolve_left hsome), hs.postAgg p hp m'⟩, ?_⟩
    exact fun hhidden => if_neg fun hvisible => hhidden (.inr hvisible)

theorem Storable.emit_flat : flatView m = m := by
  obtain ⟨row, hrow, rfl⟩ := emit_cases h
  have hgroups : mapHasNesting (keyMap q.groupBy (groupKey q.groupBy r)) = false := by
    refine flat_foldl_insert (fun e : σ.Col × GroupKeyPart => σ.columnName e.1)
      (fun _ e => e.2.toJson) ?_ rfl
    intro e he _
    have hpair : e.2 = .fromValue (r.cells e.1) := by
      have hmem : e ∈ q.groupBy.map fun c => (c, GroupKeyPart.fromValue (r.cells c)) := by
        rw [List.map_prod_left_eq_zip]
        exact he
      obtain ⟨c, -, rfl⟩ := List.mem_map.mp hmem
      rfl
    rw [hpair]
    exact (hkeys e.1 (List.of_mem_zip he).1).not_nested
  have hflat : mapHasNesting row = false := by
    rw [hrow]
    refine flat_foldl_insert (fun e : AggregateSpec σ × Json => e.1.label) (fun _ e => e.2) ?_
      hgroups
    intro e he _
    obtain ⟨a, ha, hvalue⟩ := List.mem_map.mp (List.of_mem_zip he).2
    rw [← hvalue]
    exact (hvalues a ha).not_nested
  have hnone : mapHasNesting (q.applyPostAgg row) = false := by
    unfold GroupQuery.applyPostAgg
    split
    · exact hflat
    have hpost := flat_foldl_insert Prod.fst (fun m (p : String × (JsonMap → Json)) => p.2 m)
      (fun p hp m => (hs.postAgg p hp m).not_nested) hflat
    rw [mapHasNesting, List.any_eq_false] at hpost ⊢
    exact fun e he => hpost e (List.mem_filter.mp he).1
  rw [flatView, hnone]
  rfl

end

end Emit

end SelectQuery

end CqServer
