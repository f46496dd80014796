import CqServer.Value
import Mathlib.Data.Fintype.Basic
import Mathlib.Data.Fintype.Pi

/-!
# The columnar store

`ColumnStore` keeps one typed array per column, filled with the null sentinel
up to its capacity. The model reads it by rows: a row is one well-typed cell
per column, so a cell of the wrong type cannot be built, and an untouched slot
is the null row. The per-row seqlock and the growth of the arrays are not
visible to a reader that holds the topic's lock and are left out.
-/

namespace CqServer

variable {σ : Schema}

/-- A slot of the store: one cell per column, each of its column's type. -/
@[ext] structure Row (σ : Schema) where
  cells : σ.Col → Value
  typed : ∀ i, Value.hasType (σ.columnType i) (cells i) = true

/-- `Vec<Value>`: what a publish hands to the store, one value per column.
`Value::Null` stands for a column the publish does not mention; every other
value has been converted to its column's type. -/
@[ext] structure Values (σ : Schema) where
  vals : σ.Col → Value
  typed : ∀ i, vals i = .null ∨ Value.hasType (σ.columnType i) (vals i) = true

namespace Row

instance : DecidableEq (Row σ) := fun r s =>
  decidable_of_iff (r.cells = s.cells) ⟨Row.ext, fun h => h ▸ rfl⟩

/-- `null_out_row`, and every slot before its first write. -/
def null : Row σ where
  cells i := Value.nullOf (σ.columnType i)
  typed _ := Value.hasType_nullOf _

theorem cells_ne_null (r : Row σ) (i : σ.Col) : r.cells i ≠ .null :=
  Value.ne_null_of_hasType (r.typed i)

/-- A whole row read back as a vector of values (`store.get` on each column). -/
def values (r : Row σ) : Values σ where
  vals := r.cells
  typed i := .inr (r.typed i)

variable [HostText]

variable (r : Row σ)

/-- `append_row_owned` and `write_row_at`: every column is set, `Value::Null`
is an explicit null. -/
def write (v : Values σ) : Row σ where
  cells i := Value.setCell (σ.columnType i) (r.cells i) (v.vals i)
  typed i := Value.hasType_setCell _ (r.typed i)

/-- `update_row`: `Value::Null` leaves the column as it is. -/
def update (v : Values σ) : Row σ where
  cells i :=
    if v.vals i = .null then r.cells i
    else Value.setCell (σ.columnType i) (r.cells i) (v.vals i)
  typed i := by
    split
    · exact r.typed i
    · exact Value.hasType_setCell _ (r.typed i)

section
variable (r : Row σ) (v : Values σ) (i : σ.Col)

@[simp] theorem write_cells : (r.write v).cells i =
      if v.vals i = .null then Value.nullOf (σ.columnType i) else v.vals i := by
  by_cases h : v.vals i = .null
  · simp [write, h]
  · have ht := (v.typed i).resolve_left h
    simp [write, h, Value.setCell_of_hasType ht]

@[simp] theorem update_cells :
    (r.update v).cells i = if v.vals i = .null then r.cells i else v.vals i := by
  by_cases h : v.vals i = .null
  · simp [update, h]
  · have ht := (v.typed i).resolve_left h
    simp [update, Value.setCell_of_hasType ht]

end

theorem write_eq_write (r s : Row σ) (v : Values σ) : r.write v = s.write v := by
  ext i
  simp

@[simp] theorem update_values (r s : Row σ) : r.update s.values = s := by
  ext i
  simp [values, cells_ne_null]

/-! ## Rows as JSON -/

/-- `get_row_map_projected`: null cells are left out. -/
def getRowMapProjected (cols : List σ.Col) : JsonMap :=
  cols.foldl
    (fun m i =>
      if (r.cells i).isNull then m else m.insert (σ.columnName i) (r.cells i).toJson) []

theorem getRowMapProjected_eq (cols : List σ.Col) : r.getRowMapProjected cols =
    (cols.filter fun i => !(r.cells i).isNull).foldl
      (fun m i => JsonMap.insert (σ.columnName i) (r.cells i).toJson m) [] := by
  rw [List.foldl_filter]
  refine congrArg (cols.foldl · []) (funext₂ fun m i => ?_)
  cases (r.cells i).isNull <;> rfl

def getRowMap : JsonMap := r.getRowMapProjected σ.cols

section
variable (hσ : σ.Distinct) (r : Row σ)
include hσ

theorem getRowMapProjected_get? (cols : List σ.Col) (i : σ.Col) :
    (r.getRowMapProjected cols).get? (σ.columnName i) =
      if i ∈ cols ∧ (r.cells i).isNull = false then some (r.cells i).toJson else none := by
  rw [getRowMapProjected_eq, JsonMap.get?_foldl_insert_inj hσ fun i => (r.cells i).toJson]
  simp

theorem getRowMap_get? (i : σ.Col) : r.getRowMap.get? (σ.columnName i) =
      if (r.cells i).isNull = false then some (r.cells i).toJson else none := by
  simpa [getRowMap] using getRowMapProjected_get? hσ r σ.cols i

end

theorem getRowMapProjected_get?_of_ne (cols : List σ.Col) {name : String}
    (h : ∀ i, σ.columnName i ≠ name) : (r.getRowMapProjected cols).get? name = none := by
  rw [getRowMapProjected_eq]
  exact JsonMap.get?_foldl_insert σ.columnName (fun _ i => (r.cells i).toJson) (fun i _ => h i) []

theorem getRowMapProjected_congr {r s : Row σ} {cols : List σ.Col}
    (h : ∀ i ∈ cols, r.cells i = s.cells i) :
    r.getRowMapProjected cols = s.getRowMapProjected cols := by
  refine List.foldl_ext _ _ _ ?_
  intro m i hi
  rw [h i hi]

end Row

/-- `ColumnStore`, as queries and the evaluator read it. -/
structure ColumnStore (σ : Schema) where
  rowCount : Nat
  row : Nat → Row σ

/-! ## Values of a published map -/

namespace Values

variable [HostText]

instance : DecidableEq (Values σ) := fun v w =>
  decidable_of_iff (v.vals = w.vals) ⟨Values.ext, fun h => h ▸ rfl⟩

/-- The conversion every full publish makes: the columns the map names, in
their column's type; `Value::Null` for the others. -/
def ofMap (σ : Schema) (m : JsonMap) : Values σ where
  vals i :=
    match m.get? (σ.columnName i) with
    | some v => Value.fromJson v (σ.columnType i)
    | none => .null
  typed i := by
    split
    · exact .inr (Value.hasType_fromJson _ _)
    · exact .inl rfl

theorem ofMap_vals_eq_null {m : JsonMap} {i : σ.Col} :
    (ofMap σ m).vals i = .null ↔ m.get? (σ.columnName i) = none := by
  cases h : m.get? (σ.columnName i) with
  | none | some v => simp [ofMap, h]

/-- A delta publish merged over the row it finds, or over nothing. -/
def merge (σ : Schema) (m : JsonMap) (existing : Option (Row σ)) : Values σ where
  vals i :=
    match m.get? (σ.columnName i) with
    | some v => Value.fromJson v (σ.columnType i)
    | none =>
      match existing with
      | some r => r.cells i
      | none => .null
  typed i := by
    split
    · exact .inr (Value.hasType_fromJson _ _)
    split
    · rename_i r
      exact .inr (r.typed i)
    · exact .inl rfl

/-- Over an existing row the merged image is complete: no column is skipped. -/
theorem merge_some_ne_null (m : JsonMap) (r : Row σ) (i : σ.Col) :
    (merge σ m (some r)).vals i ≠ .null := by
  cases h : m.get? (σ.columnName i) with
  | none => simpa [merge, h] using r.cells_ne_null i
  | some v => simp [merge, h]

end Values

end CqServer
