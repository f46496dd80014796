import CqServer.Store
import Mathlib.Data.List.Sort

/-!
# Compiled queries and the row executor

`ParsedQuery` of `query.rs` as the executors read it, and the row-oriented half
of `execute_query`: filter, sort, offset, limit, project. A compiled predicate
is a function of the row (`NOW()` is fixed when the query is compiled) together
with the columns that stand in it. Computed columns and window
functions are functions of the row and of the result, and the aggregate
executors are taken as given (`AggregateExec`).
-/

namespace CqServer

variable {σ : Schema}

/-- What the walks over `CompiledPredicate`, `StringExpr` and `NumExpr` see of a variant: a column
(a comparison, a null test), two parts (`And`, `Concat`; one part is that part) or nothing (`True`,
a literal). -/
inductive Reads (σ : Schema) where
  | column (c : σ.Col)
  | both (l r : Reads σ)
  | nothing

def Reads.collectReferenced : Reads σ → List σ.Col
  | .column c => [c]
  | .both l r => l.collectReferenced ++ r.collectReferenced
  | .nothing => []

/-- `CompiledPredicate`: its verdict on a row and the columns in it. -/
structure CompiledPredicate (σ : Schema) where
  holds : Row σ → Bool
  reads : Reads σ

/-- `referenced_columns`, sorted and without duplicates. -/
def CompiledPredicate.referencedColumns (p : CompiledPredicate σ) : List σ.Col :=
  p.reads.collectReferenced.dedup.insertionSort (· ≤ ·)

def CompiledPredicate.always : CompiledPredicate σ := ⟨fun _ => true, .nothing⟩

structure ComputedColumn (σ : Schema) where
  label : String
  eval : Row σ → Value

/-- `WindowColumn`: one value per result row, from the result's source rows. -/
structure WindowColumn (σ : Schema) where
  label : String
  values : ColumnStore σ → List Nat → List Json

structure ParsedQuery (σ : Schema) where
  projection : List σ.Col := []
  predicate : CompiledPredicate σ
  orderBy : List (σ.Col × Bool) := []
  limit : Option Nat := none
  offset : Option Nat := none
  hasAggregates : Bool := false
  groupBy : List σ.Col := []
  hasPivot : Bool := false
  hasUnpivot : Bool := false
  hasJoin : Bool := false
  windows : List (WindowColumn σ) := []
  computed : List (ComputedColumn σ) := []

namespace ParsedQuery

def isAggregating (q : ParsedQuery σ) : Bool := q.hasAggregates || !q.groupBy.isEmpty

/-- The query takes the row executor: no aggregate, PIVOT or UNPIVOT. -/
def rowOriented (q : ParsedQuery σ) : Bool :=
  !(q.isAggregating || q.hasPivot || q.hasUnpivot)

/-- `effective_projection`: an empty projection means every column. -/
def effectiveProjection (q : ParsedQuery σ) : List σ.Col :=
  if q.projection = [] then σ.cols else q.projection

end ParsedQuery

/-! ## Orders -/

namespace F64

/-- The magnitude with its sign; both zeros are zero. -/
def signedMagnitude (f : F64) : Int :=
  let m : Int := (f.bits &&& 0x7fffffffffffffff).toNat
  if f.bits >>> 63 = 1 then -m else m

def totalCmp (f g : F64) : Ordering :=
  let key (h : F64) : Int := if h.bits >>> 63 = 1 then h.signedMagnitude - 1 else h.signedMagnitude
  compare (key f) (key g)

/-- ORDER BY on a double column: nulls first, then by value. -/
def orderCmp (f g : F64) : Ordering :=
  match f.isNan, g.isNan with
  | true, true => .eq
  | true, false => .lt
  | false, true => .gt
  | false, false => compare f.signedMagnitude g.signedMagnitude

end F64

/-- `None` before `Some`. -/
def compareOption {α : Type} (cmp : α → α → Ordering) : Option α → Option α → Ordering
  | none, none => .eq
  | none, some _ => .lt
  | some _, none => .gt
  | some a, some b => cmp a b

/-- `compare_values` of `query.rs`: two cells of one column. -/
def compareCells : Value → Value → Ordering
  | .double f, .double g => f.orderCmp g
  | .long m, .long n => compare m.toInt n.toInt
  | .int m, .int n => compare m.toInt n.toInt
  | .string s, .string t => compareOption compare s t
  | .bool a, .bool b => compareOption compare a b
  | .timestamp s, .timestamp t => compare s.toInt t.toInt
  | _, _ => .eq

/-- The ORDER BY comparison of two rows: the first column that decides. -/
def compareRows (orderBy : List (σ.Col × Bool)) (r s : Row σ) : Ordering :=
  orderBy.foldr
    (fun c rest =>
      let o := compareCells (r.cells c.1) (s.cells c.1)
      (if c.2 then o else o.swap).then rest) .eq

/-! ## The row executor -/

section Execute
variable [HostText]

/-- `project_row`: what a delta of the query shows of a row. -/
def projectRow (q : ParsedQuery σ) (r : Row σ) : JsonMap :=
  if q.projection = [] then r.getRowMap else r.getRowMapProjected q.projection

theorem projectRow_eq (q : ParsedQuery σ) (r : Row σ) :
    projectRow q r = r.getRowMapProjected q.effectiveProjection := by
  unfold projectRow ParsedQuery.effectiveProjection
  split <;> rfl

/-- `QueryResult`: output rows and the store rows they come from. -/
structure QueryResult where
  rows : List JsonMap
  sourceRows : List Nat

def matchingRows (q : ParsedQuery σ) (store : ColumnStore σ) : List Nat :=
  (List.range store.rowCount).filter fun r => q.predicate.holds (store.row r)

def selectedRows (q : ParsedQuery σ) (store : ColumnStore σ) : List Nat :=
  let sorted :=
    if q.orderBy = [] then matchingRows q store
    else (matchingRows q store).insertionSort fun a b =>
      compareRows q.orderBy (store.row a) (store.row b) ≠ .gt
  let skipped := match q.offset with
    | some n => sorted.drop n
    | none => sorted
  match q.limit with
  | some n => skipped.take n
  | none => skipped

/-- A result row before window functions: the projection and the computed columns. -/
def resultRow (q : ParsedQuery σ) (r : Row σ) : JsonMap :=
  q.computed.foldl (fun m c => m.insert c.label (c.eval r).toJson)
    (r.getRowMapProjected q.effectiveProjection)

def applyWindow (store : ColumnStore σ) (sourceRows : List Nat) (rows : List JsonMap)
    (w : WindowColumn σ) : List JsonMap :=
  List.zipWith (fun m v => m.insert w.label v) rows (w.values store sourceRows)

/-- `execute_query` on a row-oriented query. -/
def executeRows (q : ParsedQuery σ) (store : ColumnStore σ) : QueryResult :=
  let sourceRows := selectedRows q store
  let rows := sourceRows.map fun r => resultRow q (store.row r)
  ⟨q.windows.foldl (applyWindow store sourceRows) rows, sourceRows⟩

end Execute

/-- The other executors: `execute_query_with_index_filtered` on a query that is
not row-oriented (over the given rows only, if a filter is given),
`aggregate_one_group`, and the canonical group key of a stored row. -/
class AggregateExec (σ : Schema) where
  executeAggregate : ParsedQuery σ → ColumnStore σ → Option (Finset Nat) → List JsonMap
  aggregateOneGroup : ParsedQuery σ → ColumnStore σ → Finset Nat → Option JsonMap
  groupKeyFromStore : ColumnStore σ → Nat → List σ.Col → String

namespace Unused
scoped instance : AggregateExec σ where
  executeAggregate _ _ _ := []
  aggregateOneGroup _ _ _ := none
  groupKeyFromStore _ _ _ := ""
end Unused

/-- `execute_query`; output that is not row-oriented has no source rows. -/
def executeQuery [HostText] [AggregateExec σ] (q : ParsedQuery σ) (store : ColumnStore σ) :
    QueryResult :=
  if q.rowOriented then executeRows q store
  else ⟨AggregateExec.executeAggregate q store none, []⟩

/-- The keys of a group's output row, as text (`group_key_canonical`). -/
def groupKeyCanonical [HostText] (row : JsonMap) (groupNames : List String) : String :=
  Json.render (.array (groupNames.map fun n =>
    .array [.string n, (row.get? n).getD .null]))

/-- Neither aggregating nor windowed by LIMIT: one output row per matching row. -/
structure ParsedQuery.Plain (q : ParsedQuery σ) : Prop where
  rowOriented : q.rowOriented = true
  limit : q.limit = none

/-- A plain query whose deltas can reproduce its snapshot: no OFFSET, and
nothing in the SELECT list beyond stored columns. -/
structure ParsedQuery.Stored (q : ParsedQuery σ) : Prop extends q.Plain where
  offset : q.offset = none
  computed : q.computed = []
  windows : q.windows = []

section Stored
variable [HostText] {q : ParsedQuery σ}

omit [HostText] in
theorem mem_selectedRows (h : q.Stored) {store : ColumnStore σ} {r : Nat} :
    r ∈ selectedRows q store ↔ r < store.rowCount ∧ q.predicate.holds (store.row r) = true := by
  have hperm : (selectedRows q store).Perm (matchingRows q store) := by
    simp only [selectedRows, h.offset, h.limit]
    split
    · exact List.Perm.refl _
    · exact List.perm_insertionSort _ _
  rw [hperm.mem_iff]
  simp [matchingRows]

theorem executeRows_rows (h : q.Stored) (store : ColumnStore σ) : (executeRows q store).rows =
      (executeRows q store).sourceRows.map fun r => projectRow q (store.row r) := by
  simp [executeRows, h.windows, resultRow, h.computed, projectRow_eq]

end Stored

end CqServer
