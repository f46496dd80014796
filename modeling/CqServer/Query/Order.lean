import CqServer.Query
import CqServer.Lib.StableSort

/-!
# The order of rows

ORDER BY compares the cells of one column, which all have its type, so the
comparison of rows is a total preorder and sorting by it is stable.
-/

namespace CqServer

open Lib

variable {σ : Schema}

/-- What a cell is ordered by: a number or a text, nulls first. -/
def Value.orderKey : Value → Option Int × Option String
  | .double f => (if f.isNan then none else some f.signedMagnitude, none)
  | .long n => (some n.toInt, none)
  | .int n => (some n.toInt, none)
  | .string s => (none, s)
  | .bool b => (b.map fun b => if b then 1 else 0, none)
  | .timestamp t => (some t.toInt, none)
  | .bytes _ => (none, none)
  | .null => (none, none)

def compareKeys : Option Int × Option String → Option Int × Option String → Ordering :=
  compareLex (compareOn Prod.fst) (compareOn Prod.snd)

instance : Std.TransCmp compareKeys :=
  inferInstanceAs (Std.TransCmp (compareLex (compareOn Prod.fst) (compareOn Prod.snd)))

theorem compareKeys_number (m n : Int) :
    compareKeys (some m, none) (some n, none) = compare m n := by
  exact Ordering.then_eq ..

theorem compareCells_eq {ty : ColumnType} {v w : Value} (hv : Value.hasType ty v = true)
    (hw : Value.hasType ty w = true) : compareCells v w = compareKeys v.orderKey w.orderKey := by
  have hv := Value.exists_of_hasType hv
  have hw := Value.exists_of_hasType hw
  cases ty with
  | double =>
    obtain ⟨⟨f, rfl⟩, ⟨g, rfl⟩⟩ := And.intro hv hw
    cases hf : f.isNan <;> cases hg : g.isNan <;>
      simp [compareCells, F64.orderCmp, Value.orderKey, hf, hg, compareKeys_number] <;> rfl
  | long | int =>
    obtain ⟨⟨m, rfl⟩, ⟨n, rfl⟩⟩ := And.intro hv hw
    exact (compareKeys_number m.toInt n.toInt).symm
  | string =>
    obtain ⟨⟨s, rfl⟩, ⟨t, rfl⟩⟩ := And.intro hv hw
    cases s <;> rfl
  | bool =>
    obtain ⟨⟨a, rfl⟩, ⟨b, rfl⟩⟩ := And.intro hv hw
    rcases a with - | a <;> rcases b with - | b <;> try rfl
    cases a <;> cases b <;> rfl
  | timestamp =>
    obtain ⟨⟨s, rfl⟩, ⟨t, rfl⟩⟩ := And.intro hv hw
    exact (compareKeys_number s.toInt t.toInt).symm
  | bytes =>
    obtain ⟨⟨a, rfl⟩, ⟨b, rfl⟩⟩ := And.intro hv hw
    rfl

def compareColumn (c : σ.Col × Bool) (r s : Row σ) : Ordering :=
  let o := compareKeys (r.cells c.1).orderKey (s.cells c.1).orderKey
  if c.2 then o else o.swap

instance (c : σ.Col × Bool) : Std.TransCmp (compareColumn c) := by
  obtain ⟨c, asc⟩ := c
  have hkey : Std.TransCmp fun r s : Row σ => compareKeys (r.cells c).orderKey (s.cells c).orderKey :=
    transCmp_comap fun r : Row σ => (r.cells c).orderKey
  cases asc with
  | true => exact hkey
  | false => exact transCmp_swap

theorem compareRows_cons (c : σ.Col × Bool) (orderBy : List (σ.Col × Bool)) :
    compareRows (c :: orderBy) = compareLex (compareColumn c) (compareRows orderBy) := by
  funext r s
  rw [compareLex, compareColumn, ← compareCells_eq (r.typed c.1) (s.typed c.1)]
  rfl

/-- The comparison of rows is a total preorder. -/
instance compareRows_trans : (orderBy : List (σ.Col × Bool)) → Std.TransCmp (compareRows orderBy)
  | [] => transCmp_eq
  | c :: orderBy => by
    have := compareRows_trans orderBy
    rw [compareRows_cons]
    infer_instance

def compareSlots (row : Nat → Row σ) (orderBy : List (σ.Col × Bool)) (a b : Nat) : Ordering :=
  compareRows orderBy (row a) (row b)

instance (row : Nat → Row σ) (orderBy : List (σ.Col × Bool)) :
    Std.TransCmp (compareSlots row orderBy) :=
  transCmp_comap row

end CqServer
