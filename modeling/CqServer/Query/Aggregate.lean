import CqServer.Query
import CqServer.Lib.Grouping
import CqServer.Lib.StableSort

/-!
# Aggregates

`AggState` and the group pass of `execute_aggregate_query`. The pass keeps the
states of every group in one table while it walks the rows; `groupStates_eq` says
what it leaves: each group key in the order of its first row, with every aggregate
folded over the rows of the group. HAVING conditions and expressions over aggregates
are functions of the output row.
-/

namespace CqServer

open Lib

variable {σ : Schema}

/-- The `f64` operations of the accumulators. -/
class F64Arith where
  add : F64 → F64 → F64
  sub : F64 → F64 → F64
  mul : F64 → F64 → F64
  div : F64 → F64 → F64
  sqrt : F64 → F64
  floor : F64 → F64
  ceil : F64 → F64
  /-- `as usize`. -/
  toUsize : F64 → Nat

/-- Operations that know no number, for runs that never call one. -/
@[reducible] def F64Arith.unused : F64Arith where
  add _ _ := F64.nan
  sub _ _ := F64.nan
  mul _ _ := F64.nan
  div _ _ := F64.nan
  sqrt _ := F64.nan
  floor _ := F64.nan
  ceil _ := F64.nan
  toUsize _ := 0

namespace Unused
scoped instance : F64Arith := .unused
end Unused

namespace F64

def zero : F64 := ⟨0⟩
def one : F64 := ⟨0x3ff0000000000000⟩
def half : F64 := ⟨0x3fe0000000000000⟩
def infinity : F64 := ⟨0x7ff0000000000000⟩
def negInfinity : F64 := ⟨0xfff0000000000000⟩

def lt (f g : F64) : Bool := !f.isNan && !g.isNan && f.signedMagnitude < g.signedMagnitude

/-- `serde_json::Value::from(f64)`: only finite numbers have a JSON form. -/
def toJson (f : F64) : Json := if h : f.isFinite = true then .number (.float f h) else .null

end F64

namespace Value

def asI64 : Value → Option Int64
  | .long n => if n = nullLong then none else some n
  | .int n => if n = nullInt then none else some n.toInt64
  | _ => none

def asStr : Value → Option String
  | .string s => s
  | _ => none

def asF64 [HostText] : Value → Option F64
  | .double f => if f.isNan then none else some f
  | .long n => if n = nullLong then none else some (HostText.f64OfInt n.toInt)
  | .int n => if n = nullInt then none else some (HostText.f64OfInt n.toInt)
  | .timestamp t => if t = nullTimestamp then none else some (HostText.f64OfInt t.toInt)
  | _ => none

end Value

/-- `GroupKeyPart`, and `AnchorKeyPart` of `pivot.rs`: nulls are a key of their own. -/
inductive GroupKeyPart where
  | null
  | int (n : Int32)
  | long (n : Int64)
  | doubleBits (bits : UInt64)
  | string (s : String)
  | bool (b : Bool)
  | timestamp (micros : Int64)
  deriving DecidableEq, Repr

namespace GroupKeyPart
variable [HostText]

def fromValue : Value → GroupKeyPart
  | .null => .null
  | .string s => s.elim .null .string
  | .long n => if n = nullLong then .null else .long n
  | .int n => if n = nullInt then .null else .int n
  | .double f => if f.isNan then .null else .doubleBits f.bits
  | .bool b => b.elim .null .bool
  | .timestamp t => if t = nullTimestamp then .null else .timestamp t
  | .bytes b => b.elim .null fun b => .string (HostText.base64Encode b)

def toJson : GroupKeyPart → Json
  | .null => .null
  | .int n => Value.jsonOfInt n.toInt
  | .long n => Value.jsonOfInt n.toInt
  | .doubleBits bits => (F64.mk bits).toJson
  | .string s => .string s
  | .bool b => .bool b
  | .timestamp t => .string (formatTimestampMicros t)

end GroupKeyPart

def groupKey [HostText] (cols : List σ.Col) (r : Row σ) : List GroupKeyPart :=
  cols.map fun c => .fromValue (r.cells c)

/-! ## Accumulators -/

inductive AggFn where
  | sum | count | avg | min | max
  | stddev | stddevSamp | variance | varianceSamp
  | percentileCont | countDistinct
  deriving DecidableEq, Repr

inductive WelfordKind where
  | stddevPop | stddevSamp | varPop | varSamp
  deriving DecidableEq, Repr

/-- `AggState`; `seen` tells an empty input from a zero. -/
inductive AggState where
  | count (n : Nat)
  | sumI (acc : Int) (seen : Bool)
  | sumF (acc : F64) (seen : Bool)
  | avgF (sum : F64) (count : Nat)
  | minI (cur : Int64) (seen : Bool)
  | maxI (cur : Int64) (seen : Bool)
  | minF (cur : F64) (seen : Bool)
  | maxF (cur : F64) (seen : Bool)
  | minS (cur : String) (seen : Bool)
  | maxS (cur : String) (seen : Bool)
  | welford (count : Nat) (mean m2 : F64) (kind : WelfordKind)
  | percentile (values : List F64) (q : F64)
  | countDistinct (set : List GroupKeyPart)
  deriving DecidableEq, Repr

namespace AggState

/-- `init_with_q`. An aggregate without a form for its column type counts. -/
def initWithQ (func : AggFn) (colType : Option ColumnType) (q : Option F64) : AggState :=
  match func, colType with
  | .count, _ => .count 0
  | .sum, some .double => .sumF .zero false
  | .sum, some .long | .sum, some .int => .sumI 0 false
  | .avg, _ => .avgF .zero 0
  | .min, some .double => .minF .infinity false
  | .min, some .long | .min, some .int => .minI Int64.maxValue false
  | .min, some .string => .minS "" false
  | .max, some .double => .maxF .negInfinity false
  | .max, some .long | .max, some .int => .maxI Int64.minValue false
  | .max, some .string => .maxS "" false
  | .stddev, _ => .welford 0 .zero .zero .stddevPop
  | .stddevSamp, _ => .welford 0 .zero .zero .stddevSamp
  | .variance, _ => .welford 0 .zero .zero .varPop
  | .varianceSamp, _ => .welford 0 .zero .zero .varSamp
  | .percentileCont, _ => .percentile [] (q.getD .half)
  | .countDistinct, _ => .countDistinct []
  | _, _ => .count 0

section Host
variable [HostText] [F64Arith]

open F64Arith

/-- `update`; no value stands for `COUNT(*)`, which reads no column. -/
def update (st : AggState) (v : Option Value) : AggState :=
  match st with
  | .count n =>
    match v with
    | none => .count (n + 1)
    | some val => if val.isNull then .count n else .count (n + 1)
  | .sumI acc seen =>
    match v.bind Value.asI64 with
    | some x => .sumI (acc + x.toInt) true
    | none => .sumI acc seen
  | .sumF acc seen =>
    match v.bind Value.asF64 with
    | some x => .sumF (add acc x) true
    | none => .sumF acc seen
  | .avgF acc n =>
    match v.bind Value.asF64 with
    | some x => .avgF (add acc x) (n + 1)
    | none => .avgF acc n
  | .minI cur seen =>
    match v.bind Value.asI64 with
    | some x => .minI (if !seen || x < cur then x else cur) true
    | none => .minI cur seen
  | .maxI cur seen =>
    match v.bind Value.asI64 with
    | some x => .maxI (if !seen || cur < x then x else cur) true
    | none => .maxI cur seen
  | .minF cur seen =>
    match v.bind Value.asF64 with
    | some x => .minF (if !seen || x.lt cur then x else cur) true
    | none => .minF cur seen
  | .maxF cur seen =>
    match v.bind Value.asF64 with
    | some x => .maxF (if !seen || cur.lt x then x else cur) true
    | none => .maxF cur seen
  | .minS cur seen =>
    match v.bind Value.asStr with
    | some s => .minS (if !seen || s < cur then s else cur) true
    | none => .minS cur seen
  | .maxS cur seen =>
    match v.bind Value.asStr with
    | some s => .maxS (if !seen || cur < s then s else cur) true
    | none => .maxS cur seen
  | .welford n mean m2 kind =>
    match v.bind Value.asF64 with
    | some x =>
      let delta := sub x mean
      let mean' := add mean (div delta (HostText.f64OfInt (n + 1)))
      .welford (n + 1) mean' (add m2 (mul delta (sub x mean'))) kind
    | none => .welford n mean m2 kind
  | .percentile values q =>
    match v.bind Value.asF64 with
    | some x => .percentile (values ++ [x]) q
    | none => .percentile values q
  | .countDistinct set =>
    match v with
    | some val => if val.isNull then .countDistinct set
        else .countDistinct (set.insert (.fromValue val))
    | none => .countDistinct set

/-- The linear interpolation of `PERCENTILE_CONT`, over at least one value. -/
def percentileOf (values : List F64) (q : F64) : F64 :=
  let sorted := sortBy (fun a b : F64 => compare a.signedMagnitude b.signedMagnitude) values
  let rank := mul q (HostText.f64OfInt (sorted.length - 1))
  let lo := toUsize (floor rank)
  let hi := toUsize (ceil rank)
  let at' (i : Nat) := (sorted[i]?).getD .nan
  if lo = hi then at' lo
  else add (at' lo) (mul (sub rank (HostText.f64OfInt lo)) (sub (at' hi) (at' lo)))

/-- The moment a Welford state stands for; sample moments need two rows. -/
def welfordValue (count : Nat) (m2 : F64) (kind : WelfordKind) : Option F64 :=
  let n := HostText.f64OfInt count
  match kind with
  | .varPop => if count = 0 then none else some (div m2 n)
  | .stddevPop => if count = 0 then none else some (sqrt (div m2 n))
  | .varSamp => if count < 2 then none else some (div m2 (sub n .one))
  | .stddevSamp => if count < 2 then none else some (sqrt (div m2 (sub n .one)))

def finalize : AggState → Json
  | .count n => Value.jsonOfInt n
  | .sumI acc seen =>
    if !seen then .null
    else if Int64.minValue.toInt ≤ acc ∧ acc ≤ Int64.maxValue.toInt then Value.jsonOfInt acc
    else (HostText.f64OfInt acc).toJson
  | .sumF acc seen => if !seen then .null else acc.toJson
  | .avgF acc n => if n = 0 then .null else (div acc (HostText.f64OfInt n)).toJson
  | .minI cur seen | .maxI cur seen => if !seen then .null else Value.jsonOfInt cur.toInt
  | .minF cur seen | .maxF cur seen => if !seen then .null else cur.toJson
  | .minS cur seen | .maxS cur seen => if !seen then .null else .string cur
  | .countDistinct set => Value.jsonOfInt set.length
  | .percentile values q => if values = [] then .null else (percentileOf values q).toJson
  | .welford n _ m2 kind => (welfordValue n m2 kind).elim .null F64.toJson

end Host

end AggState

/-- `AggregateSpec`; the input is the expression if there is one, else the column. -/
structure AggregateSpec (σ : Schema) where
  func : AggFn
  col : Option σ.Col := none
  expr : Option (Row σ → F64) := none
  label : String
  percentileQ : Option F64 := none

namespace AggregateSpec

/-- The type the state is chosen by: expressions are doubles. -/
def inputType (a : AggregateSpec σ) : Option ColumnType :=
  if a.expr.isSome then some .double else a.col.map σ.columnType

def init (a : AggregateSpec σ) : AggState := .initWithQ a.func a.inputType a.percentileQ

/-- What a row gives the state. An expression that yields NaN gives nothing, as
`COUNT(*)` does. -/
def input (a : AggregateSpec σ) (r : Row σ) : Option Value :=
  match a.expr with
  | some e => if (e r).isNan then none else some (.double (e r))
  | none => a.col.map r.cells

variable [HostText] [F64Arith]

def update (a : AggregateSpec σ) (st : AggState) (r : Row σ) : AggState := st.update (a.input r)

def value (a : AggregateSpec σ) (rows : List (Row σ)) : Json :=
  (rows.foldl a.update a.init).finalize

end AggregateSpec

section Groups
variable [HostText] [F64Arith]

variable (specs : List (AggregateSpec σ))

def initStates : List AggState := specs.map AggregateSpec.init

def updateStates (states : List AggState) (r : Row σ) : List AggState :=
  List.zipWith (fun a st => a.update st r) specs states

/-- The states of every group, in the order the groups first appear. -/
def groupStates (groupBy : List σ.Col) (rows : List (Row σ)) :
    List (List GroupKeyPart × List AggState) :=
  groupFold (groupKey groupBy) (initStates specs) (updateStates specs) rows

variable (specs : List (AggregateSpec σ))

theorem foldl_updateStates (rows : List (Row σ)) :
    rows.foldl (updateStates specs) (initStates specs) =
      specs.map fun a => rows.foldl a.update a.init := by
  have hfrom : ∀ s : AggregateSpec σ → AggState, rows.foldl (updateStates specs) (specs.map s) =
        specs.map fun a => rows.foldl a.update (s a) := by
    induction rows with
    | nil => exact fun s => rfl
    | cons r rows ih =>
      intro s
      have hrow : updateStates specs (specs.map s) r = specs.map fun a => a.update (s a) r := by
        rw [updateStates, List.zipWith_map_right, List.zipWith_self]
      rw [List.foldl_cons, hrow, ih]
      rfl
  exact hfrom AggregateSpec.init

theorem groupStates_eq (groupBy : List σ.Col)
    (rows : List (Row σ)) : groupStates specs groupBy rows =
      (distinct (rows.map (groupKey groupBy))).map fun k =>
        (k, specs.map fun a => (members (groupKey groupBy) rows k).foldl a.update a.init) := by
  rw [groupStates, groupFold_eq]
  refine List.map_congr_left fun k _ => ?_
  rw [foldl_updateStates]

end Groups

/-! ## Output rows -/

structure GroupQuery (σ : Schema) where
  aggregates : List (AggregateSpec σ) := []
  groupBy : List σ.Col := []
  having : Option (JsonMap → Bool) := none
  postAgg : List (String × (JsonMap → Json)) := []

namespace GroupQuery

/-- `apply_post_agg`: the hidden aggregates are dropped at the end. -/
def applyPostAgg (q : GroupQuery σ) (m : JsonMap) : JsonMap :=
  if q.postAgg.isEmpty then m
  else
    let m' : JsonMap := q.postAgg.foldl (fun m p => m.insert p.1 (p.2 m)) m
    m'.filter fun e => !"__postagg_".isPrefixOf e.1

variable [HostText]

def emit (q : GroupQuery σ) (key : List GroupKeyPart) (values : List Json) : Option JsonMap :=
  let keys : JsonMap := (q.groupBy.zip key).foldl
    (fun m e => m.insert (σ.columnName e.1) e.2.toJson) []
  let row : JsonMap := (q.aggregates.zip values).foldl (fun m e => m.insert e.1.label e.2) keys
  if q.having.elim true (· row) then some (q.applyPostAgg row) else none

variable [F64Arith]

/-- The rows of `execute_aggregate_query` before ORDER BY and LIMIT. Without a GROUP BY
an empty input still has one row. -/
def execute (q : GroupQuery σ) (rows : List (Row σ)) : List JsonMap :=
  let groups := groupStates q.aggregates q.groupBy rows
  let implicit :=
    if groups = [] ∧ q.groupBy = [] ∧ q.aggregates ≠ [] then
      (q.emit [] ((initStates q.aggregates).map AggState.finalize)).toList
    else []
  implicit ++ groups.filterMap fun g => q.emit g.1 (g.2.map AggState.finalize)

/-- The keys of the groups of some rows; without a GROUP BY all rows are one group. -/
def keys (q : GroupQuery σ) (rows : List (Row σ)) : List (List GroupKeyPart) :=
  if q.groupBy = [] then [[]] else distinct (rows.map (groupKey q.groupBy))

/-- **GROUP BY with aggregates**: one row per group, of the values of the aggregates over
the rows of the group. -/
def groups (q : GroupQuery σ) (rows : List (Row σ)) : List JsonMap :=
  (q.keys rows).filterMap fun k =>
    q.emit k (q.aggregates.map fun a => a.value (members (groupKey q.groupBy) rows k))

theorem execute_eq_groups {q : GroupQuery σ} (h : q.aggregates ≠ [] ∨ q.groupBy ≠ [])
    (rows : List (Row σ)) : q.execute rows = q.groups rows := by
  have hpass : (groupStates q.aggregates q.groupBy rows).filterMap
      (fun g => q.emit g.1 (g.2.map AggState.finalize)) =
      (distinct (rows.map (groupKey q.groupBy))).filterMap fun k =>
        q.emit k (q.aggregates.map fun a => a.value (members (groupKey q.groupBy) rows k)) := by
    rw [groupStates_eq, List.filterMap_map]
    simp only [Function.comp_def, List.map_map]
    rfl
  simp only [execute, groups, keys, hpass]
  by_cases hby : q.groupBy = []
  · have hagg : q.aggregates ≠ [] := h.resolve_right (not_not.mpr hby)
    rw [if_pos hby]
    cases rows with
    | nil =>
      -- no row, so no group in the table: the implicit one
      rw [if_pos ⟨rfl, hby, hagg⟩, initStates, List.map_map]
      change (q.emit [] (q.aggregates.map fun a => a.value [])).toList ++ [] = _
      cases hrow : q.emit [] (q.aggregates.map fun a => a.value []) with
      | none | some row => simp [members, hrow]
    | cons r rows =>
      have hone : distinct ((r :: rows).map (groupKey q.groupBy)) = [[]] := by
        have hconst : (r :: rows).map (groupKey q.groupBy) =
            List.replicate (rows.length + 1) [] := by
          rw [List.eq_replicate_iff]
          refine ⟨by simp, fun k hk => ?_⟩
          obtain ⟨r', _, rfl⟩ := List.mem_map.mp hk
          rw [hby]
          rfl
        rw [hconst]
        exact distinct_replicate _ _
      have hsome : groupStates q.aggregates q.groupBy (r :: rows) ≠ [] := by
        rw [groupStates_eq, hone]
        simp
      rw [if_neg fun hempty => hsome hempty.1, hone]
      rfl
  · rw [if_neg hby, if_neg fun hempty => hby hempty.2.1]
    rfl

end GroupQuery

end CqServer
