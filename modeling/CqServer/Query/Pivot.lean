import CqServer.Query.Aggregate
import CqServer.Query.Predicate

/-!
# PIVOT and UNPIVOT

`pivot.rs`. A PIVOT makes one row of every anchor (the values of the columns it does
not name) and one column of every listed value and aggregate. The pass keeps a bucket
per anchor and listed value (`executeStatic_eq`); a bucket is the aggregate over the rows
of its anchor that equal its value, if no two columns share a name, the aggregates are
over columns, and no listed value is a zero or a sentinel that the rows read differently.
-/

namespace CqServer

open Lib List

variable {σ : Schema}

/-- `ParsedPivot`; a dynamic PIVOT (`IN ANY`) lists the values it finds. -/
structure ParsedPivot (σ : Schema) where
  aggregates : List (AggregateSpec σ)
  pivotCol : σ.Col
  pivotValues : List Scalar := []
  dynamic : Bool := false
  anchorCols : List σ.Col

structure ParsedUnpivot (σ : Schema) where
  valueColName : String
  nameColName : String
  sourceCols : List σ.Col
  anchorCols : List σ.Col

/-! ## Values of the pivot column -/

def Scalar.asColumnLabel [HostText] : Scalar → String
  | .string s => s
  | .long n => displayI64 n
  | .double f => HostText.displayF64 f
  | .bool b => if b then "true" else "false"
  | .timestamp t => formatTimestampMicros t

/-- The order of a `BTreeSet` of literals: doubles are kept by their bits. -/
def Scalar.setCmp (a b : Scalar) : Ordering :=
  match a, b with
  | .double f, .double g => compare f.bits.toNat g.bits.toNat
  | a, b => (a.cmp b).getD .eq

/-- `discover_pivot_values`: the distinct values of the column, in their order. -/
def discoverPivotValues (col : σ.Col) (rows : List (Row σ)) : List Scalar :=
  let found := sortBy Scalar.setCmp (distinct (rows.filterMap fun r => (r.cells col).scalar))
  match σ.columnType col with
  | .double => sortBy (fun a b => (Scalar.cmp a b).getD .eq) found
  | _ => found

/-- The value `match_pivot_value` looks up: a null `Int` is read as its sentinel. -/
def pivotCell : Value → Option Scalar
  | .int n => some (.long n.toInt64)
  | v => v.scalar

def matchPivotValue (values : List Scalar) (v : Value) : Option Nat :=
  (pivotCell v).bind fun s => values.findIdx? (· = s)

namespace ParsedPivot

def specs (p : ParsedPivot σ) : List (AggregateSpec σ) :=
  p.aggregates.map fun a => { a with expr := none }

variable [HostText] [F64Arith]

variable (p : ParsedPivot σ)

/-- `pivot_output_col_name`. -/
def outputColName (value : Scalar) (a : AggregateSpec σ) : String :=
  if p.aggregates.length = 1 then value.asColumnLabel
  else value.asColumnLabel ++ "_" ++ a.label

/-- An output row: the anchor's columns, then one column per listed value and aggregate.
`cell` gives the value of an aggregate under the value at a place of the list. -/
def outputRow (anchor : List GroupKeyPart) (cell : Nat → AggregateSpec σ × Nat → Json) : JsonMap :=
  let anchors : JsonMap := (p.anchorCols.zip anchor).foldl
    (fun m e => m.insert (σ.columnName e.1) e.2.toJson) []
  p.pivotValues.zipIdx.foldl (fun m v => p.specs.zipIdx.foldl
      (fun m a => m.insert (p.outputColName v.1 a.1) (cell v.2 a)) m) anchors

/-- The anchor of a row and the place of its value in the list. -/
def bucketKey (r : Row σ) : List GroupKeyPart × Option Nat :=
  (groupKey p.anchorCols r, matchPivotValue p.pivotValues (r.cells p.pivotCol))

def buckets (rows : List (Row σ)) : List ((List GroupKeyPart × Option Nat) × List AggState) :=
  groupFold p.bucketKey (initStates p.specs) (updateStates p.specs)
    (rows.filter fun r => (p.bucketKey r).2.isSome)

/-- `execute_pivot_query` on a list of values. Every anchor has a row, whether or not
its rows hold a listed value. -/
def executeStatic (rows : List (Row σ)) : List JsonMap :=
  let buckets := p.buckets rows
  (distinct (rows.map (groupKey p.anchorCols))).map fun anchor =>
    p.outputRow anchor fun i a =>
      match buckets.find? (fun b => b.1 = (anchor, some i)) with
      | some b => ((b.2[a.2]?).map AggState.finalize).getD .null
      | none => a.1.init.finalize

/-- `execute_pivot_query`. -/
def execute (rows : List (Row σ)) : List JsonMap :=
  if p.dynamic then
    let found := discoverPivotValues p.pivotCol rows
    if found = [] then []
    else { p with pivotValues := found, dynamic := false }.executeStatic rows
  else p.executeStatic rows

/-! ## What a PIVOT means -/

def listing (values : List Scalar) : ParsedPivot σ :=
  { p with pivotValues := values, dynamic := false }

/-- The rows of an anchor whose pivot column equals a value, as SQL compares them. -/
def holding (rows : List (Row σ)) (anchor : List GroupKeyPart) (v : Scalar) : List (Row σ) :=
  rows.filter fun r => groupKey p.anchorCols r = anchor ∧
    (r.cells p.pivotCol).scalar.bind (·.cmp v) = some .eq

/-- Each listed value with each aggregate. -/
def cells : List (Scalar × AggregateSpec σ) :=
  p.pivotValues.flatMap fun v => p.specs.map fun a => (v, a)

/-- Their columns, as they are inserted. -/
def outputCols : List String := p.cells.map fun e => p.outputColName e.1 e.2

/-- Each listed value and aggregate has a column of its own. -/
def OwnColumns : Prop :=
  p.outputCols.Nodup ∧ ∀ c ∈ p.anchorCols, σ.columnName c ∉ p.outputCols

/-- **Conditional aggregation**: one row per anchor, which has under a listed value the
aggregates over the rows of the anchor that equal the value. -/
def Conditional (rows : List (Row σ)) : Prop :=
  p.OwnColumns ∧ ∃ row : List GroupKeyPart → JsonMap,
    p.execute rows = (distinct (rows.map (groupKey p.anchorCols))).map row ∧
    ∀ anchor ∈ rows.map (groupKey p.anchorCols), ∀ v ∈ p.pivotValues, ∀ a ∈ p.aggregates,
      (row anchor).get? (p.outputColName v a) = some (a.value (p.holding rows anchor v))

/-- The values of a PIVOT: those it lists or, for `IN ANY`, the non-null values of the rows, no
two of them equal. -/
def Over (rows : List (Row σ)) (values : List Scalar) : Prop :=
  if p.dynamic then values.Pairwise (fun v w => v.cmp w ≠ some .eq) ∧
    ∀ v, v ∈ values ↔ ∃ r ∈ rows, (r.cells p.pivotCol).scalar = some v
  else values = p.pivotValues

/-- When a list is bucketed as it should be: no two columns share a name, no aggregate is over an
expression (`execute_pivot_query` reads `spec.col` only), a zero in the rows has the sign of the
listed one (literals are compared by their bits), and the sentinel of an `Int` column is not
listed where a row is null. -/
structure Regular (rows : List (Row σ)) : Prop where
  own : p.OwnColumns
  plain : ∀ a ∈ p.aggregates, a.expr = none
  zeros : ∀ v ∈ p.pivotValues, v.isZero = true → ∀ r ∈ rows,
    ∀ s, (r.cells p.pivotCol).scalar = some s → s.cmp v = some .eq → s = v
  sentinel : σ.columnType p.pivotCol = .int → .long nullInt.toInt64 ∈ p.pivotValues →
    ∀ r ∈ rows, (r.cells p.pivotCol).isNull = false

end ParsedPivot

/-! ## The pass computes it -/

theorem findIdx?_nodup {values : List Scalar} (h : values.Nodup) {s : Scalar} {i : Nat} :
    values.findIdx? (· = s) = some i ↔ values[i]? = some s := by
  rw [findIdx?_eq_some_iff_getElem]
  constructor
  · rintro ⟨hi, heq, _⟩
    rw [getElem?_eq_getElem hi, of_decide_eq_true heq]
  · intro hget
    obtain ⟨hi, rfl⟩ := List.getElem?_eq_some_iff.mp hget
    refine ⟨hi, by simp, fun j hj hjs => ?_⟩
    have heq : values[j] = values[i] := of_decide_eq_true hjs
    exact absurd ((h.getElem_inj_iff).mp heq) (by omega)

namespace ParsedPivot

variable [HostText]

theorem bucketKey_iff {p : ParsedPivot σ} (hnodup : p.pivotValues.Nodup) {i : Nat} {v : Scalar}
    (hv : p.pivotValues[i]? = some v) (r : Row σ) (anchor : List GroupKeyPart) :
    p.bucketKey r = (anchor, some i) ↔
      groupKey p.anchorCols r = anchor ∧ pivotCell (r.cells p.pivotCol) = some v := by
  rw [bucketKey, Prod.mk.injEq, matchPivotValue, Option.bind_eq_some_iff]
  refine and_congr_right fun _ => ⟨?_, fun h => ⟨v, h, (findIdx?_nodup hnodup).mpr hv⟩⟩
  rintro ⟨s, hs, hidx⟩
  rw [hs, ← hv, (findIdx?_nodup hnodup).mp hidx]

variable [F64Arith]

theorem bucket_value (p : ParsedPivot σ) (rows : List (Row σ)) (anchor : List GroupKeyPart) (i : Nat)
    {a : AggregateSpec σ × Nat} (ha : a ∈ p.specs.zipIdx) :
    (match (p.buckets rows).find? (fun b => b.1 = (anchor, some i)) with
      | some b => ((b.2[a.2]?).map AggState.finalize).getD .null
      | none => a.1.init.finalize) =
    a.1.value (rows.filter fun r => p.bucketKey r = (anchor, some i)) := by
  have hmembers : members p.bucketKey (rows.filter fun r => (p.bucketKey r).2.isSome) (anchor, some i) =
      rows.filter fun r => p.bucketKey r = (anchor, some i) := by
    rw [members, filter_filter]
    refine filter_congr fun r _ => ?_
    by_cases hk : p.bucketKey r = (anchor, some i)
    · simp [hk]
    · simp [hk]
  rw [buckets, find?_groupFold, foldl_updateStates, hmembers]
  split
  · -- the bucket exists: its state of the aggregate
    rename_i hb
    obtain ⟨hlt, hat⟩ := mem_zipIdx' ha
    have hget : p.specs[a.2]? = some a.1 := by rw [getElem?_eq_getElem hlt, hat]
    split at hb
    · cases hb
      simp [AggregateSpec.value, hget]
    · cases hb
  · -- no row has the value: the empty state
    rename_i hb
    split at hb
    · cases hb
    rename_i hnone
    have hempty : rows.filter (fun r => p.bucketKey r = (anchor, some i)) = [] := by
      refine filter_eq_nil_iff.mpr fun r hr hk => hnone ?_
      have hk' : p.bucketKey r = (anchor, some i) := of_decide_eq_true hk
      exact mem_map.mpr ⟨r, mem_filter.mpr ⟨hr, by simp [hk']⟩, hk'⟩
    rw [hempty]
    rfl

variable {p : ParsedPivot σ}

/-- What the bucket of a value collects. -/
def collected (p : ParsedPivot σ) (rows : List (Row σ)) (anchor : List GroupKeyPart) (v : Scalar) :
    List (Row σ) :=
  rows.filter fun r => groupKey p.anchorCols r = anchor ∧ pivotCell (r.cells p.pivotCol) = some v

def anchorMap (p : ParsedPivot σ) (anchor : List GroupKeyPart) : JsonMap :=
  (p.anchorCols.zip anchor).foldl (fun m e => m.insert (σ.columnName e.1) e.2.toJson) []

/-- **The pass** over a list of different values, without its buckets. -/
theorem executeStatic_eq (hnodup : p.pivotValues.Nodup) (rows : List (Row σ)) :
    p.executeStatic rows = (distinct (rows.map (groupKey p.anchorCols))).map fun anchor =>
      p.cells.foldl (fun m e => m.insert (p.outputColName e.1 e.2)
        (e.2.value (p.collected rows anchor e.1))) (p.anchorMap anchor) := by
  refine map_congr_left fun anchor _ => ?_
  let put (m : JsonMap) (v : Scalar) (a : AggregateSpec σ) :=
    m.insert (p.outputColName v a) (a.value (p.collected rows anchor v))
  have hvalue : ∀ m, ∀ v ∈ p.pivotValues.zipIdx, p.specs.zipIdx.foldl (fun m a =>
      m.insert (p.outputColName v.1 a.1) (match (p.buckets rows).find?
        (fun b => b.1 = (anchor, some v.2)) with
      | some b => ((b.2[a.2]?).map AggState.finalize).getD .null
      | none => a.1.init.finalize)) m = p.specs.foldl (put · v.1) m := by
    intro m v hv
    have hidx := mk_mem_zipIdx_iff_getElem?.mp hv
    rw [← zipIdx_map_fst 0 p.specs, foldl_map, zipIdx_map_fst]
    refine foldl_ext _ _ _ fun m a ha => ?_
    rw [bucket_value p rows anchor v.2 ha]
    simp only [bucketKey_iff hnodup hidx]
    rfl
  rw [outputRow, foldl_ext _ _ _ hvalue, cells, foldl_flatMap]
  nth_rewrite 2 [← zipIdx_map_fst 0 p.pivotValues]
  simp only [foldl_map]
  rfl

omit [HostText] [F64Arith] in
theorem scalar_not_nan {v : Value} {s : Scalar} (h : v.scalar = some s) (f : F64)
    (hf : s = .double f) : f.isNan = false := by
  subst hf
  cases v with
  | double g =>
    rw [Value.scalar] at h
    split at h
    · cases h
    · rename_i hnan
      cases h
      exact Bool.eq_false_of_not_eq_true hnan
  | long n | int n | timestamp t =>
    rw [Value.scalar] at h
    split at h <;> cases h
  | string x | bool x => cases x <;> cases h
  | bytes b | null => cases h

omit [F64Arith] in
theorem Regular.pivotCell_iff {rows : List (Row σ)} (h : p.Regular rows) {r : Row σ} (hr : r ∈ rows)
    {v : Scalar} (hv : v ∈ p.pivotValues) : pivotCell (r.cells p.pivotCol) = some v ↔
      (r.cells p.pivotCol).scalar.bind (·.cmp v) = some .eq := by
  have hscalar : pivotCell (r.cells p.pivotCol) = some v ↔ (r.cells p.pivotCol).scalar = some v := by
    have hty := r.typed p.pivotCol
    cases hcell : r.cells p.pivotCol with
    | int n =>
      by_cases hnull : n = nullInt
      · -- the null of an `Int` column is matched as its sentinel
        have hne : v ≠ .long nullInt.toInt64 := by
          rintro rfl
          have hint : σ.columnType p.pivotCol = .int := by
            rw [hcell] at hty
            cases hcol : σ.columnType p.pivotCol <;> rw [hcol] at hty <;>
              first | rfl | simp [Value.hasType] at hty
          have := h.sentinel hint hv r hr
          simp [hcell, hnull, Value.isNull] at this
        simp [pivotCell, Value.scalar, hnull, hne.symm]
      · simp [pivotCell, Value.scalar, hnull]
    | _ => rfl
  rw [hscalar, Option.bind_eq_some_iff]
  constructor
  · exact fun hs => ⟨v, hs, Scalar.cmp_self (scalar_not_nan hs)⟩
  · rintro ⟨s, hs, hcmp⟩
    have heq : s = v := by
      cases hz : v.isZero with
      | false => exact Scalar.eq_of_cmp hcmp hz
      | true => exact h.zeros v hv hz r hr s hs hcmp
    rw [hs, heq]

theorem Regular.conditional {rows : List (Row σ)} (h : p.Regular rows) (hdyn : p.dynamic = false) :
    p.Conditional rows := by
  refine ⟨h.own, ?_⟩
  have hexec : p.execute rows = p.executeStatic rows := by simp [execute, hdyn]
  rw [hexec]
  cases hagg : p.aggregates with
  | nil => exact ⟨_, rfl, by simp⟩
  | cons a₀ rest =>
    have ha₀ : { a₀ with expr := none } ∈ p.specs := by simp [specs, hagg]
    have hnodup : p.pivotValues.Nodup := by
      have hcols := h.own.1
      rw [outputCols, cells, map_flatMap] at hcols
      refine (nodup_flatMap.mp hcols).2.imp fun hdisj heq => ?_
      subst heq
      exact hdisj (mem_map_of_mem (mem_map_of_mem ha₀)) (mem_map_of_mem (mem_map_of_mem ha₀))
    rw [← hagg]
    refine ⟨_, executeStatic_eq hnodup rows, fun anchor _ v hv a ha => ?_⟩
    have hspec : a ∈ p.specs := mem_map.mpr ⟨a, ha, by rw [← h.plain a ha]⟩
    have hmem : (v, a) ∈ p.cells := mem_flatMap.mpr ⟨v, hv, mem_map_of_mem hspec⟩
    obtain ⟨_, hget⟩ := JsonMap.get?_foldl_insert_of_mem (fun e : Scalar × AggregateSpec σ =>
      p.outputColName e.1 e.2) (fun _ e => e.2.value (p.collected rows anchor e.1)) h.own.1 hmem _
    refine hget.trans (congrArg (fun l => some (a.value l)) (filter_congr fun r hr => ?_))
    exact decide_eq_decide.mpr (and_congr_right fun _ => h.pivotCell_iff hr hv)

/-! ## The values a dynamic PIVOT finds -/

omit [HostText] [F64Arith] in
theorem discoverPivotValues_perm (col : σ.Col) (rows : List (Row σ)) :
    (discoverPivotValues col rows).Perm (distinct (rows.filterMap fun r => (r.cells col).scalar)) := by
  unfold discoverPivotValues
  dsimp only
  split
  · exact (sortBy_perm _ _).trans (sortBy_perm _ _)
  · exact sortBy_perm _ _

/-- The order of a list does not matter where each value has columns of its own. -/
theorem executeStatic_perm {values values' : List Scalar} (hperm : values.Perm values')
    (hnodup : values.Nodup) (hown : (p.listing values).OwnColumns) (rows : List (Row σ)) :
    (p.listing values).executeStatic rows = (p.listing values').executeStatic rows := by
  rw [executeStatic_eq hnodup, executeStatic_eq (hperm.nodup_iff.mp hnodup)]
  refine map_congr_left fun anchor _ => ?_
  have hcells : (p.listing values).cells.Perm (p.listing values').cells := hperm.flatMap_right _
  refine hcells.foldl_eq' (fun e he e' he' m => ?_) _
  by_cases heq : e = e'
  · rw [heq]
  · exact JsonMap.insert_comm (fun hname => heq (inj_on_of_nodup_map hown.1 he he' hname)) ..

end ParsedPivot

section Orders
open Unused ParsedPivot

abbrev fills : Schema := ⟨[⟨"sym", .string⟩, ⟨"side", .string⟩, ⟨"qty", .long⟩]⟩

def fill (sym : String) (side : Option String) (qty : Int64) : Row fills :=
  ⟨fun
    | 0 => .string (some sym)
    | 1 => .string side
    | 2 => .long qty, fun
    | 0 | 1 | 2 => rfl⟩

/-- `SUM(qty), COUNT(*) FOR side IN ANY`, by symbol. -/
def bySide : ParsedPivot fills where
  aggregates := [{ func := .sum, col := some 2, label := "qty" }, { func := .count, label := "n" }]
  pivotCol := 1
  dynamic := true
  anchorCols := [0]

def filled : List (Row fills) :=
  [fill "A" (some "sell") 5, fill "A" (some "buy") 7, fill "B" none 1, fill "A" (some "buy") 2]

/-- `COUNT(*) FOR sym IN ('A', 'A')`. -/
def listedTwice : ParsedPivot ⟨[⟨"sym", .string⟩]⟩ where
  aggregates := [{ func := .count, label := "n" }]
  pivotCol := 0
  pivotValues := [.string "A", .string "A"]
  anchorCols := []

def rowA : Row ⟨[⟨"sym", .string⟩]⟩ := ⟨fun _ => .string (some "A"), by decide⟩

end Orders

/-- `execute_unpivot_query`: a row for every listed column a source row has a value in. -/
def ParsedUnpivot.execute [HostText] (u : ParsedUnpivot σ) (rows : List (Row σ)) : List JsonMap :=
  rows.flatMap fun r =>
    let anchors : JsonMap := r.getRowMapProjected u.anchorCols
    (u.sourceCols.filter fun c => (r.cells c).isNull = false).map fun c =>
      (anchors.insert u.nameColName (.string (σ.columnName c))).insert u.valueColName
        (r.cells c).toJson

end CqServer
