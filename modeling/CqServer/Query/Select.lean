import CqServer.Query.Planner
import CqServer.Query.Window
import CqServer.Query.Pivot

/-!
# One query over one store

`execute_query_with_index`: the plan, the filter, and then one of the executors. Each
of them is a function of the list of matching rows (`runOn`).
-/

namespace CqServer

open Lib List

variable {σ : Schema}

/-- A PIVOT or UNPIVOT is accepted without ORDER BY, LIMIT and OFFSET only. -/
structure SelectQuery (σ : Schema) extends GroupQuery σ where
  projection : List σ.Col := []
  predicate : Pred σ := .always
  orderBy : List (σ.Col × Bool) := []
  orderByAliases : List (Option String) := []
  limit : Option Nat := none
  offset : Option Nat := none
  pivot : Option (ParsedPivot σ) := none
  unpivot : Option (ParsedUnpivot σ) := none
  windows : List (WindowSpec σ) := []
  computed : List (ComputedColumn σ) := []
  pivotPlain : pivot.isSome ∨ unpivot.isSome → orderBy = [] ∧ limit = none ∧ offset = none := by
    simp

/-! ## Orders of output rows -/

section Output
variable [HostText]

/-- `compare_json_values`. -/
def compareJson : Option Json → Option Json → Ordering
  | none, none => .eq
  | none, some _ => .lt
  | some _, none => .gt
  | some .null, some .null => .eq
  | some .null, some _ => .lt
  | some _, some .null => .gt
  | some (.number m), some (.number n) =>
    if m.asF64.isNan || n.asF64.isNan then .eq
    else compare m.asF64.signedMagnitude n.asF64.signedMagnitude
  | some (.string s), some (.string t) => compare s t
  | _, _ => .eq

def compareOutput (names : List (String × Bool)) (a b : JsonMap) : Ordering :=
  names.foldr
    (fun k rest =>
      let o := compareJson (a.get? k.1) (b.get? k.1)
      (if k.2 then o else o.swap).then rest) .eq

end Output

def slice {α : Type} (offset limit : Option Nat) (l : List α) : List α :=
  let skipped := offset.elim l fun n => l.drop n
  limit.elim skipped fun n => skipped.take n

theorem slice_sublist {α : Type} (offset limit : Option Nat) (l : List α) :
    (slice offset limit l).Sublist l := by
  cases offset <;> cases limit
  · exact .refl l
  · exact take_sublist _ l
  · exact drop_sublist _ l
  · exact (take_sublist _ _).trans (drop_sublist _ l)

namespace SelectQuery

variable (q : SelectQuery σ)

/-- The query takes the aggregate path, if it is no PIVOT. -/
def isAggregating : Bool := !q.aggregates.isEmpty || !q.groupBy.isEmpty

def orderAlias (i : Nat) : Option String := (q.orderByAliases[i]?).join

def orderNames : List (String × Bool) :=
  q.orderBy.zipIdx.map fun e => ((q.orderAlias e.2).getD (σ.columnName e.1.1), e.1.2)

/-! ## The executors -/

section Execute
variable [HostText] [F64Arith]

variable (q : SelectQuery σ)

/-- The query as the row executor and the subscriptions read it. -/
def toParsed : ParsedQuery σ where
  projection := q.projection
  predicate := q.predicate.compiled
  orderBy := q.orderBy
  limit := q.limit
  offset := q.offset
  hasAggregates := !q.aggregates.isEmpty
  groupBy := q.groupBy
  hasPivot := q.pivot.isSome
  hasUnpivot := q.unpivot.isSome
  windows := q.windows.map WindowSpec.column
  computed := q.computed

/-- The row executor, from the matching rows on: sort, OFFSET, LIMIT, project, windows. -/
def executeRowsOn (store : ColumnStore σ) (matching : List Nat) : QueryResult :=
  let sorted :=
    if q.orderBy = [] then matching else sortBy (compareSlots store.row q.orderBy) matching
  let sourceRows := slice q.offset q.limit sorted
  let rows := sourceRows.map fun r => resultRow q.toParsed (store.row r)
  ⟨q.windows.foldl (fun rows w => applyWindow store sourceRows rows w.column) rows, sourceRows⟩

/-- `execute_aggregate_query`, from the matching rows on: ORDER BY and LIMIT. -/
def executeAggregateOn (store : ColumnStore σ) (matching : List Nat) : List JsonMap :=
  let rows := q.execute (matching.map store.row)
  let sorted := if q.orderBy = [] then rows else sortBy (compareOutput q.orderNames) rows
  slice none q.limit sorted

/-- The executors, from the matching rows on. -/
def runOn (store : ColumnStore σ) (matching : List Nat) : QueryResult :=
  match q.pivot, q.unpivot with
  | some p, _ => ⟨p.execute (matching.map store.row), []⟩
  | none, some u => ⟨u.execute (matching.map store.row), []⟩
  | none, none =>
    if q.isAggregating then ⟨q.executeAggregateOn store matching, []⟩
    else q.executeRowsOn store matching

/-- The candidates that satisfy the condition. PIVOT and UNPIVOT plan without the index. -/
def matching (store : ColumnStore σ) (ix : Option (SecondaryIndex σ)) : List Nat :=
  let ix := if q.pivot.isSome || q.unpivot.isSome then none else ix
  (planCandidates q.predicate store.rowCount ix).rows.filter fun r =>
    q.predicate.compiled.holds (store.row r)

end Execute

end SelectQuery

end CqServer
