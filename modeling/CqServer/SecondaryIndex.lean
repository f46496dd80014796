import CqServer.Store
import CqServer.Lib.Inverted

/-!
# Secondary indexes

`sec_index.rs`: for every indexed column an equality map and a range map from
cell values to the rows that hold them. Both are inverted indexes under their own
kind of key, kept by the same two operations, so what is proved of one map
(`ColumnIndex`) holds of the other. `Exact` says that a map lists each row under
the key of its cell and nowhere else; a loop of removals and additions over the
indexed columns moves it from one image of a row to the next.
-/

namespace CqServer

open Lib

inductive IxKey where
  | int (n : Int32)
  | long (n : Int64)
  | doubleBits (bits : UInt64)
  | string (s : String)
  | bool (b : Bool)
  | timestamp (micros : Int64)
  deriving DecidableEq, Repr

/-- `RangeKey`; a double is kept under bits whose order is that of the doubles. -/
inductive RangeKey where
  | int (n : Int32)
  | long (n : Int64)
  | doubleOrdered (bits : UInt64)
  | string (s : String)
  | bool (b : Bool)
  | timestamp (micros : Int64)
  deriving DecidableEq, Repr

def f64ToOrderedBits (f : F64) : UInt64 :=
  if f.bits &&& 0x8000000000000000 = 0 then f.bits ^^^ 0x8000000000000000 else ~~~ f.bits

section Keys
variable [HostText]

/-- `IxKey::from_value`: nulls have no key. -/
def IxKey.fromValue : Value → Option IxKey
  | .null => none
  | .string s => s.map .string
  | .long n => if n = nullLong then none else some (.long n)
  | .int n => if n = nullInt then none else some (.int n)
  | .double f => if f.isNan then none else some (.doubleBits f.bits)
  | .bool b => b.map .bool
  | .timestamp t => if t = nullTimestamp then none else some (.timestamp t)
  | .bytes b => b.map fun b => .string (HostText.base64Encode b)

def RangeKey.fromValue : Value → Option RangeKey
  | .null => none
  | .string s => s.map .string
  | .long n => if n = nullLong then none else some (.long n)
  | .int n => if n = nullInt then none else some (.int n)
  | .double f => if f.isNan then none else some (.doubleOrdered (f64ToOrderedBits f))
  | .bool b => b.map .bool
  | .timestamp t => if t = nullTimestamp then none else some (.timestamp t)
  | .bytes b => b.map fun b => .string (HostText.base64Encode b)

theorem IxKey.fromValue_nullOf (ty : ColumnType) : fromValue (Value.nullOf ty) = none := by
  cases ty <;> rfl

theorem RangeKey.fromValue_nullOf (ty : ColumnType) : fromValue (Value.nullOf ty) = none := by
  cases ty <;> rfl

end Keys

/-! ## One map per column -/

variable {σ : Schema} {κ : Type} [DecidableEq κ]

/-- The maps of the indexed columns. -/
abbrev ColumnIndex (σ : Schema) (κ : Type) [DecidableEq κ] := AList (fun _ : σ.Col => Inverted κ)

namespace ColumnIndex

variable (keyOf : Value → Option κ)

def new (cols : List σ.Col) : ColumnIndex σ κ := cols.foldl (fun ix c => ix.insert c .empty) ∅

variable (ix : ColumnIndex σ κ)

/-- `add` on one side; a null or an uncovered column changes nothing. -/
def add (col : σ.Col) (v : Value) (row : Nat) : ColumnIndex σ κ :=
  match ix.lookup col, keyOf v with
  | some inner, some key => ix.insert col (inner.add key row)
  | _, _ => ix

def remove (col : σ.Col) (v : Value) (row : Nat) : ColumnIndex σ κ :=
  match ix.lookup col, keyOf v with
  | some inner, some key => ix.insert col (inner.remove key row)
  | _, _ => ix

def Listed (col : σ.Col) (key : κ) (row : Nat) : Prop :=
  ∃ inner, ix.lookup col = some inner ∧ row ∈ inner.rows key

variable {keyOf} {ix : ColumnIndex σ κ} {c col : σ.Col} {v : Value} {row r : Nat} {key : κ}

theorem isSome_lookup_add :
    ((ix.add keyOf col v row).lookup c).isSome = (ix.lookup c).isSome := by
  unfold add
  cases hin : ix.lookup col with
  | none => rfl
  | some inner =>
    cases keyOf v with
    | none => rfl
    | some k =>
      by_cases hc : c = col
      · subst hc
        simp [hin]
      · simp [AList.lookup_insert_ne hc]

theorem isSome_lookup_remove :
    ((ix.remove keyOf col v row).lookup c).isSome = (ix.lookup c).isSome := by
  unfold remove
  cases hin : ix.lookup col with
  | none => rfl
  | some inner =>
    cases keyOf v with
    | none => rfl
    | some k =>
      by_cases hc : c = col
      · subst hc
        simp [hin]
      · simp [AList.lookup_insert_ne hc]

theorem listed_add : (ix.add keyOf col v row).Listed c key r ↔
    c = col ∧ r = row ∧ keyOf v = some key ∧ (ix.lookup col).isSome ∨ ix.Listed c key r := by
  unfold Listed add
  cases hin : ix.lookup col with
  | none => simp
  | some inner =>
    cases hk : keyOf v with
    | none => simp
    | some k =>
      by_cases hc : c = col
      · subst hc
        simp only [AList.lookup_insert, Option.some.injEq, exists_eq_left', hin,
          Inverted.mem_rows_add, true_and, Option.isSome_some, and_true]
        constructor
        · rintro (⟨rfl, rfl⟩ | h)
          · exact .inl ⟨rfl, rfl⟩
          · exact .inr h
        · rintro (⟨rfl, rfl⟩ | h)
          · exact .inl ⟨rfl, rfl⟩
          · exact .inr h
      · simp [hc]

theorem listed_remove : (ix.remove keyOf col v row).Listed c key r ↔
    ix.Listed c key r ∧ ¬ (c = col ∧ r = row ∧ keyOf v = some key) := by
  unfold Listed remove
  cases hin : ix.lookup col with
  | none =>
    constructor
    · rintro ⟨inner, hc, hr⟩
      refine ⟨⟨inner, hc, hr⟩, ?_⟩
      rintro ⟨rfl, -⟩
      rw [hin] at hc
      cases hc
    · exact And.left
  | some inner =>
    cases hk : keyOf v with
    | none => simp
    | some k =>
      by_cases hc : c = col
      · subst hc
        simp only [AList.lookup_insert, Option.some.injEq, exists_eq_left', hin,
          Inverted.mem_rows_remove, true_and]
        refine and_congr_right fun _ => not_congr ?_
        constructor
        · rintro ⟨rfl, rfl⟩
          exact ⟨rfl, rfl⟩
        · rintro ⟨rfl, rfl⟩
          exact ⟨rfl, rfl⟩
      · simp [hc]

theorem lookup_new (cols : List σ.Col) (c : σ.Col) :
    (new cols : ColumnIndex σ κ).lookup c = if c ∈ cols then some .empty else none := by
  have hfold : ∀ (cols : List σ.Col) (ix : ColumnIndex σ κ),
      (cols.foldl (fun ix c => ix.insert c .empty) ix).lookup c =
        if c ∈ cols then some .empty else ix.lookup c := by
    intro cols
    induction cols with
    | nil => exact fun ix => rfl
    | cons c' cols ih =>
      intro ix
      rw [List.foldl_cons, ih]
      by_cases hmem : c ∈ cols
      · simp [hmem]
      by_cases hc : c = c'
      · subst hc
        simp
      · simp [hc]
  rw [new, hfold]
  simp

/-- Each row is listed under the key of its cell and nowhere else; other columns
have no map. -/
structure Exact (keyOf : Value → Option κ) (cols : List σ.Col) (rows : Nat → Row σ)
    (ix : ColumnIndex σ κ) : Prop where
  covers : ∀ c, (ix.lookup c).isSome = true ↔ c ∈ cols
  listed : ∀ c ∈ cols, ∀ key r, ix.Listed c key r ↔ keyOf ((rows r).cells c) = some key

theorem Exact.new (hnull : ∀ ty, keyOf (Value.nullOf ty) = none) (cols : List σ.Col) :
    Exact keyOf cols (fun _ => Row.null) (ColumnIndex.new cols) := by
  refine ⟨?_, ?_⟩
  · intro c
    rw [lookup_new]
    split <;> simp_all
  · simp [Listed, lookup_new, Row.null, hnull]

/-- One row, column by column: out under its old cell, in under its new one. -/
def reindex (keyOf : Value → Option κ) (old new : σ.Col → Value) (row : Nat) (cols : List σ.Col)
    (ix : ColumnIndex σ κ) : ColumnIndex σ κ :=
  cols.foldl (fun ix c => (ix.remove keyOf c (old c) row).add keyOf c (new c) row) ix

theorem reindex_spec {old new : σ.Col → Value} {cols : List σ.Col}
    (hcovers : ∀ c ∈ cols, (ix.lookup c).isSome = true)
    (hold : ∀ c key, ix.Listed c key row → keyOf (old c) = some key ∨ keyOf (new c) = some key) :
    (∀ c, ((reindex keyOf old new row cols ix).lookup c).isSome = (ix.lookup c).isSome) ∧
      ∀ c key r, (reindex keyOf old new row cols ix).Listed c key r ↔
        if c ∈ cols ∧ r = row then keyOf (new c) = some key else ix.Listed c key r := by
  induction cols generalizing ix with
  | nil => exact ⟨fun _ => rfl, by simp [reindex]⟩
  | cons col cols ih =>
    have hkeep : ∀ c, (((ix.remove keyOf col (old col) row).add keyOf col (new col) row).lookup
        c).isSome = (ix.lookup c).isSome := fun c => by
      rw [isSome_lookup_add, isSome_lookup_remove]
    have hhead : ∀ c key r,
        ((ix.remove keyOf col (old col) row).add keyOf col (new col) row).Listed c key r ↔
          if c = col ∧ r = row then keyOf (new c) = some key else ix.Listed c key r := by
      intro c key r
      rw [listed_add, listed_remove, isSome_lookup_remove]
      by_cases hhit : c = col ∧ r = row
      · obtain ⟨rfl, rfl⟩ := hhit
        have := hold c key
        simp only [and_self]
        tauto
      · simp only [hhit]
        tauto
    have hmid : ∀ c key,
        ((ix.remove keyOf col (old col) row).add keyOf col (new col) row).Listed c key row →
          keyOf (old c) = some key ∨ keyOf (new c) = some key := by
      intro c key h
      rw [hhead] at h
      split at h
      · exact .inr h
      · exact hold c key h
    obtain ⟨hlook, hlisted⟩ := ih (fun c hc => (hkeep c).trans
      (hcovers c (List.mem_cons_of_mem _ hc))) hmid
    refine ⟨fun c => (hlook c).trans (hkeep c), ?_⟩
    intro c key r
    rw [show reindex keyOf old new row (col :: cols) ix = reindex keyOf old new row cols
      ((ix.remove keyOf col (old col) row).add keyOf col (new col) row) from rfl, hlisted]
    by_cases hmem : c ∈ cols ∧ r = row
    · simp [hmem.1, hmem.2]
    rw [if_neg hmem, hhead]
    by_cases hc : c = col
    · subst hc
      by_cases hr : r = row <;> simp
    · have : ¬ (c ∈ col :: cols ∧ r = row) := by simpa [hc] using hmem
      rw [if_neg this]
      simp [hc]

/-- **The loop keeps the map exact** across the change of one row. -/
theorem Exact.reindex {rows rows' : Nat → Row σ} {cols : List σ.Col}
    (h : Exact keyOf cols rows ix) {old new : σ.Col → Value} {row : Nat}
    (hold : ∀ c, keyOf (old c) = keyOf ((rows row).cells c))
    (hnew : ∀ c, keyOf (new c) = keyOf ((rows' row).cells c))
    (hother : ∀ r, r ≠ row → rows' r = rows r) :
    Exact keyOf cols rows' (ColumnIndex.reindex keyOf old new row cols ix) := by
  have hlist : ∀ c key, ix.Listed c key row → keyOf (old c) = some key ∨ keyOf (new c) = some key := by
    intro c key hl
    have hc : c ∈ cols := by
      obtain ⟨inner, hin, -⟩ := hl
      exact (h.covers c).mp (by simp [hin])
    exact .inl ((hold c).trans ((h.listed c hc key row).mp hl))
  obtain ⟨hlook, hlisted⟩ := reindex_spec (fun c hc => (h.covers c).mpr hc) hlist
  refine ⟨fun c => by rw [hlook]; exact h.covers c, ?_⟩
  intro c hc key r
  rw [hlisted]
  by_cases hr : r = row
  · subst hr
    simp [hc, hnew]
  · simp only [hr, and_false, if_false]
    rw [h.listed c hc key r, hother r hr]

end ColumnIndex

/-! ## Both sides -/

structure SecondaryIndex (σ : Schema) where
  indexedCols : List σ.Col
  byCol : ColumnIndex σ IxKey
  rangeByCol : ColumnIndex σ RangeKey

namespace SecondaryIndex

def new (cols : List σ.Col) : SecondaryIndex σ := ⟨cols, .new cols, .new cols⟩

variable [HostText]

def add (ix : SecondaryIndex σ) (col : σ.Col) (v : Value) (row : Nat) : SecondaryIndex σ :=
  { ix with
    byCol := ix.byCol.add IxKey.fromValue col v row
    rangeByCol := ix.rangeByCol.add RangeKey.fromValue col v row }

def remove (ix : SecondaryIndex σ) (col : σ.Col) (v : Value) (row : Nat) : SecondaryIndex σ :=
  { ix with
    byCol := ix.byCol.remove IxKey.fromValue col v row
    rangeByCol := ix.rangeByCol.remove RangeKey.fromValue col v row }

def indexNewRowFromStore (ix : SecondaryIndex σ) (image : Row σ) (row : Nat) : SecondaryIndex σ :=
  ix.indexedCols.foldl (fun ix col => ix.add col (image.cells col) row) ix

/-- `reindex_row`: a `Value::Null` leaves the cell as it is, so its old value goes
back in. -/
def reindexRow (ix : SecondaryIndex σ) (image : Row σ) (row : Nat) (v : Values σ) :
    SecondaryIndex σ :=
  ix.indexedCols.foldl
    (fun ix col =>
      let new := if v.vals col = .null then image.cells col else v.vals col
      (ix.remove col (image.cells col) row).add col new row) ix

/-- The loop of `delete` and `replay_delete_origin`. -/
def unindexRow (ix : SecondaryIndex σ) (image : Row σ) (row : Nat) : SecondaryIndex σ :=
  ix.indexedCols.foldl (fun ix col => ix.remove col (image.cells col) row) ix

def reindex (old new : σ.Col → Value) (row : Nat) (ix : SecondaryIndex σ) : SecondaryIndex σ :=
  { ix with
    byCol := ix.byCol.reindex IxKey.fromValue old new row ix.indexedCols
    rangeByCol := ix.rangeByCol.reindex RangeKey.fromValue old new row ix.indexedCols }

theorem foldl_reindex (old new : σ.Col → Value) (row : Nat) (cols : List σ.Col)
    (ix : SecondaryIndex σ) :
    cols.foldl (fun ix col => (ix.remove col (old col) row).add col (new col) row) ix =
      { ix with
        byCol := ix.byCol.reindex IxKey.fromValue old new row cols
        rangeByCol := ix.rangeByCol.reindex RangeKey.fromValue old new row cols } := by
  induction cols generalizing ix with
  | nil => rfl
  | cons col cols ih =>
    rw [List.foldl_cons, ih]
    rfl

section
variable (ix : SecondaryIndex σ)

theorem add_null (col : σ.Col) (row : Nat) : ix.add col .null row = ix := by
  have hix : ix.byCol.add IxKey.fromValue col .null row = ix.byCol := by
    unfold ColumnIndex.add
    cases ix.byCol.lookup col <;> rfl
  have hrange : ix.rangeByCol.add RangeKey.fromValue col .null row = ix.rangeByCol := by
    unfold ColumnIndex.add
    cases ix.rangeByCol.lookup col <;> rfl
  rw [add, hix, hrange]

theorem remove_null (col : σ.Col) (row : Nat) :
    ix.remove col .null row = ix := by
  have hix : ix.byCol.remove IxKey.fromValue col .null row = ix.byCol := by
    unfold ColumnIndex.remove
    cases ix.byCol.lookup col <;> rfl
  have hrange : ix.rangeByCol.remove RangeKey.fromValue col .null row = ix.rangeByCol := by
    unfold ColumnIndex.remove
    cases ix.rangeByCol.lookup col <;> rfl
  rw [remove, hix, hrange]

variable (image : Row σ) (row : Nat)

theorem indexNewRowFromStore_eq :
    ix.indexNewRowFromStore image row = ix.reindex (fun _ => .null) image.cells row := by
  rw [reindex, ← foldl_reindex]
  simp [indexNewRowFromStore, remove_null]

theorem unindexRow_eq :
    ix.unindexRow image row = ix.reindex image.cells (fun _ => .null) row := by
  rw [reindex, ← foldl_reindex]
  simp [unindexRow, add_null]

theorem reindexRow_eq (v : Values σ) :
    ix.reindexRow image row v = ix.reindex image.cells (image.update v).cells row := by
  have hcells := funext (Row.update_cells image v)
  rw [reindex, ← foldl_reindex, hcells]
  rfl

end

structure Exact (rows : Nat → Row σ) (ix : SecondaryIndex σ) : Prop where
  equality : ColumnIndex.Exact IxKey.fromValue ix.indexedCols rows ix.byCol
  range : ColumnIndex.Exact RangeKey.fromValue ix.indexedCols rows ix.rangeByCol

variable {rows rows' : Nat → Row σ} {ix : SecondaryIndex σ} {row : Nat}

variable (h : Exact rows ix)
include h

theorem Exact.reindexRow {v : Values σ}
    (hrow : rows' row = (rows row).update v) (hother : ∀ r, r ≠ row → rows' r = rows r) :
    Exact rows' (ix.reindexRow (rows row) row v) := by
  rw [reindexRow_eq]
  refine ⟨h.equality.reindex (fun _ => rfl) ?_ hother, h.range.reindex (fun _ => rfl) ?_ hother⟩
  · intro c
    rw [hrow]
  · intro c
    rw [hrow]

theorem Exact.indexNewRow (hold : rows row = Row.null) (hother : ∀ r, r ≠ row → rows' r = rows r) :
    Exact rows' (ix.indexNewRowFromStore (rows' row) row) := by
  rw [indexNewRowFromStore_eq]
  refine ⟨h.equality.reindex ?_ (fun _ => rfl) hother, h.range.reindex ?_ (fun _ => rfl) hother⟩
  · intro c
    rw [hold]
    exact (IxKey.fromValue_nullOf _).symm
  · intro c
    rw [hold]
    exact (RangeKey.fromValue_nullOf _).symm

theorem Exact.unindexRow (hnew : rows' row = Row.null) (hother : ∀ r, r ≠ row → rows' r = rows r) :
    Exact rows' (ix.unindexRow (rows row) row) := by
  rw [unindexRow_eq]
  refine ⟨h.equality.reindex (fun _ => rfl) ?_ hother, h.range.reindex (fun _ => rfl) ?_ hother⟩
  · intro c
    rw [hnew]
    exact (IxKey.fromValue_nullOf _).symm
  · intro c
    rw [hnew]
    exact (RangeKey.fromValue_nullOf _).symm

end SecondaryIndex

end CqServer
