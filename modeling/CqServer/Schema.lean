import CqServer.Json
import Mathlib.Data.List.FinRange
import Mathlib.Logic.Function.Basic

/-!
# Topic schemas

Column names and types (`schema.rs`). A topic without a declared schema starts
on the one-column placeholder and discovers its columns on the first publish.
-/

namespace CqServer

inductive ColumnType where
  | double
  | long
  | int
  | string
  | bool
  | timestamp
  | bytes
  deriving DecidableEq, Repr, Inhabited

/-- `ColumnType::from_json`: the type inferred from a first published value. -/
def ColumnType.fromJson : Json → ColumnType
  | .number n => if n.isF64 then .double else .long
  | .bool _ => .bool
  | _ => .string

/-- `Column`; its index is its position in the schema. -/
structure Column where
  name : String
  colType : ColumnType
  deriving DecidableEq, Repr, Inhabited

structure Schema where
  columns : List Column
  deriving DecidableEq, Repr

namespace Schema

variable (s : Schema)

abbrev columnCount : Nat := s.columns.length

/-- A column index of the schema; every index the server keeps is one. -/
abbrev Col := Fin s.columnCount

instance lawfulBEq_col : LawfulBEq s.Col := inferInstance

def columnName (i : s.Col) : String := (s.columns.get i).name

def columnType (i : s.Col) : ColumnType := (s.columns.get i).colType

def cols : List s.Col := List.finRange s.columnCount

/-- `index_of`: where a name is declared twice, `name_to_index` keeps the last. -/
def indexOf (name : String) : Option s.Col :=
  s.cols.reverse.find? fun i => s.columnName i = name

/-- `is_placeholder_schema`: the single `_key: String` column. -/
def isPlaceholder : Bool :=
  s.columns = [⟨"_key", .string⟩]

/-- The schema `maybe_discover_schema` installs for a first published map. -/
def discover (m : JsonMap) : Schema :=
  ⟨m.map fun e => ⟨e.1, ColumnType.fromJson e.2⟩⟩

def Distinct : Prop := Function.Injective s.columnName

instance (s : Schema) : Decidable s.Distinct :=
  inferInstanceAs (Decidable (∀ i j, s.columnName i = s.columnName j → i = j))

@[simp] theorem mem_cols (i : s.Col) : i ∈ s.cols := List.mem_finRange i

theorem columnName_of_indexOf {s : Schema} {name : String} {i : s.Col}
    (h : s.indexOf name = some i) : s.columnName i = name := by
  have := List.find?_some h
  simpa using this

theorem columnName_ne_of_indexOf {name : String} (h : s.indexOf name = none)
    (i : s.Col) : s.columnName i ≠ name := by
  have hnot := List.find?_eq_none.mp h i (by simp)
  simpa using hnot

theorem indexOf_columnName (hs : s.Distinct) (i : s.Col) : s.indexOf (s.columnName i) = some i := by
  cases h : s.indexOf (s.columnName i) with
  | none => exact absurd rfl (s.columnName_ne_of_indexOf h i)
  | some j => rw [hs (columnName_of_indexOf h)]

end Schema

end CqServer
