import CqServer.Query.Aggregate
import CqServer.Query.Order

/-!
# Window functions

`apply_window`: the rows of a result are split by PARTITION BY, each part is sorted
by the window's own ORDER BY, and a row's value comes from its place in its part.
The rows come in the order in which they leave the query's ORDER BY.
-/

namespace CqServer

open Lib

variable {σ : Schema}

inductive FrameAggKind where
  | sum | avg | min | max | count
  deriving DecidableEq, Repr

/-- `WindowFn`. A frame without a bound starts with the part; `NTILE` has at least one
bucket. -/
inductive WindowFn (σ : Schema) where
  | rowNumber
  | rank
  | denseRank
  | lag (col : σ.Col) (offset : Nat) (default : Option Json)
  | lead (col : σ.Col) (offset : Nat) (default : Option Json)
  | ntile (buckets : Nat) (positive : 0 < buckets)
  | frameAgg (agg : FrameAggKind) (col : σ.Col) (framePreceding : Option Nat)

structure WindowSpec (σ : Schema) where
  label : String
  partitionBy : List σ.Col := []
  orderBy : List (σ.Col × Bool) := []
  kind : WindowFn σ

/-! ## Values by place -/

/-- The rows at a place and just before it are tied on every ORDER BY column. -/
def tiedAt (orderBy : List (σ.Col × Bool)) (part : List (Row σ)) (pos : Nat) : Bool :=
  match part[pos - 1]?, part[pos]? with
  | some r, some s => orderBy.all fun c => compareCells (r.cells c.1) (s.cells c.1) = .eq
  | _, _ => false

/-- `RANK`: tied rows share the rank of the first of them. -/
def rankAt (tied : Nat → Bool) : Nat → Nat
  | 0 => 1
  | p + 1 => if tied (p + 1) then rankAt tied p else p + 2

def denseRankAt (tied : Nat → Bool) : Nat → Nat
  | 0 => 1
  | p + 1 => if tied (p + 1) then denseRankAt tied p else denseRankAt tied p + 1

/-- The bucket of every place: the first `n % buckets` buckets have one row more. -/
def ntileBuckets (n buckets : Nat) : List Nat :=
  (List.range buckets).flatMap fun i =>
    List.replicate (n / buckets + if i + 1 ≤ n % buckets then 1 else 0) (i + 1)

section Frames
variable [HostText] [F64Arith]

structure WindowFrame where
  sum : F64 := .zero
  min : F64 := .infinity
  max : F64 := .negInfinity
  count : Nat := 0

/-- One row of a frame; COUNT counts rows without a number as well. -/
def WindowFrame.add (agg : FrameAggKind) (f : WindowFrame) (v : Value) : WindowFrame :=
  match v.asF64 with
  | some x =>
    { sum := F64Arith.add f.sum x
      min := if x.lt f.min then x else f.min
      max := if f.max.lt x then x else f.max
      count := f.count + 1 }
  | none => if agg = .count then { f with count := f.count + 1 } else f

def WindowFrame.value (agg : FrameAggKind) (f : WindowFrame) : Json :=
  match agg with
  | .count => Value.jsonOfInt f.count
  | .sum => if f.count = 0 then .null else f.sum.toJson
  | .avg => if f.count = 0 then .null
      else (F64Arith.div f.sum (HostText.f64OfInt f.count)).toJson
  | .min => if f.count = 0 then .null else f.min.toJson
  | .max => if f.count = 0 then .null else f.max.toJson

def WindowFn.value (orderBy : List (σ.Col × Bool)) (part : List (Row σ)) (pos : Nat) :
    WindowFn σ → Json
  | .rowNumber => Value.jsonOfInt (pos + 1)
  | .rank => Value.jsonOfInt (rankAt (tiedAt orderBy part) pos)
  | .denseRank => Value.jsonOfInt (denseRankAt (tiedAt orderBy part) pos)
  | .lag col offset default =>
    if offset ≤ pos then ((part[pos - offset]?).map fun r => (r.cells col).toJson).getD .null
    else default.getD .null
  | .lead col offset default =>
    if pos + offset < part.length then
      ((part[pos + offset]?).map fun r => (r.cells col).toJson).getD .null
    else default.getD .null
  | .ntile buckets _ => ((ntileBuckets part.length buckets)[pos]?).elim .null fun b => Value.jsonOfInt b
  | .frameAgg agg col framePreceding =>
    let start := framePreceding.elim 0 fun k => pos - k
    let rows := (part.drop start).take (pos + 1 - start)
    (rows.foldl (fun f r => f.add agg (r.cells col)) ({} : WindowFrame)).value agg

namespace WindowSpec

variable (w : WindowSpec σ)

/-- The sorted part of a row, among the rows of a result. -/
def part (row : Nat → Row σ) (source : List Nat) (r : Nat) : List Nat :=
  sortBy (compareSlots row w.orderBy)
    (source.filter fun s => groupKey w.partitionBy (row s) = groupKey w.partitionBy (row r))

def valueAt (row : Nat → Row σ) (source : List Nat) (r : Nat) : Json :=
  let part := w.part row source r
  w.kind.value w.orderBy (part.map row) (part.idxOf r)

def column : WindowColumn σ :=
  ⟨w.label, fun store source => source.map (w.valueAt store.row source)⟩

end WindowSpec

end Frames

end CqServer
