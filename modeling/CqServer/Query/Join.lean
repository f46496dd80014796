import CqServer.Query.Order
import Mathlib.Tactic.Choose

/-!
# Joins

`execute_join_query` up to the combined store it runs the rest of the query on: the right
rows are indexed by the text of their USING columns, every left row is looked up, and the
outer kinds add the rows without a partner. An AS OF join pairs a left row with the last
right row of its key that is not later than it.
-/

namespace CqServer

open Lib List

variable {σ τ : Schema}

inductive JoinKind where
  | inner
  | leftOuter
  | rightOuter
  | fullOuter
  | asOf (tsCol : String)
  deriving DecidableEq, Repr

structure JoinSpec where
  usingCols : List String
  kind : JoinKind

/-- What `key_for` makes of one cell; only texts and numbers can be joined on. -/
def Value.joinPart (v : Value) : Option String :=
  if v.isNull then none
  else match v with
    | .string s => s
    | .long n => some (displayI64 n)
    | .int n => some (displayI32 n)
    | .double f => some (toString f.bits.toNat)
    | _ => none

def keyFor (cols : List σ.Col) (r : Row σ) : Option String :=
  (cols.mapM fun c => (r.cells c).joinPart).map (String.intercalate "\x1f")

/-- The match value of an AS OF join. -/
def Value.asofTs : Value → Option Int64
  | .timestamp t => if t = nullTimestamp then none else some t
  | .long n => if n = nullLong then none else some n
  | _ => none

def bucket {α : Type} (entries : List (String × α)) (key : String) : List α :=
  (entries.filter fun e => e.1 = key).map Prod.snd

inductive JoinedRow where
  | left (l : Nat) (r : Option Nat)
  | rightOnly (r : Nat)

namespace JoinSpec

structure Resolved (σ τ : Schema) where
  leftUsing : List σ.Col
  rightUsing : List τ.Col
  ts : Option (σ.Col × τ.Col)

def resolve (j : JoinSpec) : Except String (Resolved σ τ) := do
  let cols ← j.usingCols.mapM fun name => match σ.indexOf name, τ.indexOf name with
    | none, _ => .error s!"JOIN USING column `{name}` not found on left side"
    | _, none => .error s!"JOIN USING column `{name}` not found on right side"
    | some l, some r => .ok (l, r)
  let ts ← match j.kind with
    | .asOf name => match σ.indexOf name, τ.indexOf name with
      | _, none => .error s!"AS OF JOIN: ts column `{name}` not found on right side"
      | none, _ => .error s!"AS OF JOIN: ts column `{name}` not found on left side"
      | some l, some r => .ok (some (l, r))
    | _ => .ok none
  .ok ⟨cols.map Prod.fst, cols.map Prod.snd, ts⟩

variable (left : ColumnStore σ) (right : ColumnStore τ)

def rightEntries (cols : List τ.Col) : List (String × Nat) :=
  (range right.rowCount).filterMap fun r =>
    (keyFor cols (right.row r)).map fun key => (key, r)

def asofEntries (cols : List τ.Col) (ts : τ.Col) : List (String × Int64 × Nat) :=
  (range right.rowCount).filterMap fun r => do
    let key ← keyFor cols (right.row r)
    let t ← ((right.row r).cells ts).asofTs
    some (key, t, r)

def compareTs (a b : Int64 × Nat) : Ordering := compare a.1.toInt b.1.toInt

/-- The entry before the partition point of a match value. -/
def resolvedRr (entries : List (Int64 × Nat)) (ts : Int64) : Option (Int64 × Nat) :=
  (entries.takeWhile fun e => e.1 ≤ ts).getLast?

/-- The right rows a left row is paired with. -/
def partners (cols : Resolved σ τ) (l : Row σ) : List Nat :=
  match keyFor cols.leftUsing l, cols.ts with
  | none, _ => []
  | some key, none => bucket (rightEntries right cols.rightUsing) key
  | some key, some (lts, rts) =>
    let ts := (l.cells lts).asofTs.getD Int64.minValue
    let entries := sortBy compareTs (bucket (asofEntries right cols.rightUsing rts) key)
    ((resolvedRr entries ts).map Prod.snd).toList

def joined (j : JoinSpec) (cols : Resolved σ τ) : List JoinedRow :=
  let found := (range left.rowCount).map fun l => (l, partners right cols (left.row l))
  found.flatMap (fun p => match p.2 with
    | [] => if j.kind = .leftOuter ∨ j.kind = .fullOuter then [.left p.1 none] else []
    | rs => rs.map fun r => .left p.1 (some r)) ++
  if j.kind = .rightOuter ∨ j.kind = .fullOuter then
    ((range right.rowCount).filter fun r => ¬ found.any (r ∈ ·.2)).map .rightOnly
  else []

/-- `combined_sources`, with the types of the combined columns. -/
def combinedSources (j : JoinSpec) : List (ColumnType × (σ.Col ⊕ τ.Col)) :=
  σ.cols.map (fun i => (σ.columnType i, .inl ((σ.indexOf (σ.columnName i)).getD i))) ++
  (τ.cols.filter fun i => τ.columnName i ∉ j.usingCols).map fun i =>
    (τ.columnType i, .inr ((τ.indexOf (τ.columnName i)).getD i))

/-- One value of `row_buf`. The left columns of a right-only row are looked up by name. -/
def source : JoinedRow → σ.Col ⊕ τ.Col → Value
  | .left l _, .inl c => (left.row l).cells c
  | .left _ (some r), .inr c | .rightOnly r, .inr c => (right.row r).cells c
  | .left _ none, .inr _ => .null
  | .rightOnly r, .inl c => ((τ.indexOf (σ.columnName c)).map (right.row r).cells).getD .null

section
variable [HostText]

def combinedRow (j : JoinSpec) (row : JoinedRow) : List Value :=
  j.combinedSources.map fun c => Value.setCell c.1 (Value.nullOf c.1) (source left right row c.2)

def combined (j : JoinSpec) : Except String (List (List Value)) := do
  let cols ← j.resolve
  .ok ((j.joined left right cols).map (j.combinedRow left right))

end

/-! ## AS OF joins -/

section AsOf

instance : Std.TransCmp compareTs := transCmp_comap fun e : Int64 × Nat => e.1.toInt

theorem before_compareTs {a b : Int64 × Nat} :
    Before compareTs (·.2 < ·.2) a b ↔ a.1 < b.1 ∨ a.1 = b.1 ∧ a.2 < b.2 := by
  rw [Before, compareTs, Int.compare_eq_lt, Int.compare_eq_eq, Int64.lt_iff_toInt_lt,
    Int64.toInt_inj]

/-- The entry of the greatest match value, and of the highest row among those. -/
def Latest (P : Int64 × Nat → Prop) : Option (Int64 × Nat) → Prop
  | none => ∀ e, ¬ P e
  | some x => P x ∧ ∀ e, P e → e.1 < x.1 ∨ e.1 = x.1 ∧ e.2 ≤ x.2

theorem latest_resolvedRr {entries : List (Int64 × Nat)} (h : entries.Pairwise (·.2 < ·.2))
    (ts : Int64) : Latest (fun e => e ∈ entries ∧ e.1 ≤ ts)
      (resolvedRr (sortBy compareTs entries) ts) := by
  have hsorted : (sortBy compareTs entries).Pairwise _ := sortBy_before h
  have hlast := getLast?_takeWhile (p := fun e => e.1 ≤ ts) hsorted ?_
  · simp only [(sortBy_perm compareTs entries).mem_iff, before_compareTs] at hlast
    rw [resolvedRr]
    generalize getLast? _ = o at hlast ⊢
    cases o with
    | none => exact fun e he => absurd (decide_eq_true he.2) (by simp [hlast e he.1])
    | some x =>
      obtain ⟨hx, hle, hmax⟩ := hlast
      refine ⟨⟨hx, of_decide_eq_true hle⟩, fun e he => ?_⟩
      rcases hmax e he.1 (decide_eq_true he.2) with rfl | hlt | ⟨heq, hlt⟩
      · exact .inr ⟨rfl, le_rfl⟩
      · exact .inl hlt
      · exact .inr ⟨heq, Nat.le_of_lt hlt⟩
  · intro a b hab hb
    rcases before_compareTs.mp hab with hlt | ⟨heq, -⟩
    · exact decide_eq_true (Int64.le_trans (Int64.le_of_lt hlt) (of_decide_eq_true hb))
    · rwa [heq]

section Entries
variable (cols : List τ.Col) (ts : τ.Col) (key : String)

theorem mem_bucket {e : Int64 × Nat} : e ∈ bucket (asofEntries right cols ts) key ↔
    e.2 < right.rowCount ∧ keyFor cols (right.row e.2) = some key ∧
      ((right.row e.2).cells ts).asofTs = some e.1 := by
  obtain ⟨t, r⟩ := e
  simp [bucket, asofEntries, Option.bind_eq_some_iff]

theorem bucket_pairwise : (bucket (asofEntries right cols ts) key).Pairwise (·.2 < ·.2) := by
  refine pairwise_map.mpr (.filter _ (.filterMap _ ?_ pairwise_lt_range))
  intro r r' hlt e he e' he'
  simp only [Option.bind_eq_bind, Option.bind_eq_some_iff, Option.some.injEq] at he he'
  obtain ⟨_, _, _, _, rfl⟩ := he
  obtain ⟨_, _, _, _, rfl⟩ := he'
  exact hlt

end Entries

/-- A right row with its match value that an AS OF join may pair with a left row. -/
def AsOfMatch (lk lts : σ.Col) (rk rts : τ.Col) (l : Nat) (e : Int64 × Nat) : Prop :=
  e.2 < right.rowCount ∧ ((left.row l).cells lk).isNull = false ∧
    (right.row e.2).cells rk = (left.row l).cells lk ∧
    ((right.row e.2).cells rts).asofTs = some e.1 ∧
    ∃ ts, ((left.row l).cells lts).asofTs = some ts ∧ e.1 ≤ ts

/-- A left row beside a right row: all columns of the left one, then those of the right one that
are not joined on. -/
def paired (usingCols : List String) (l r : Nat) : List Value :=
  σ.cols.map (left.row l).cells ++
    (τ.cols.filter fun c => τ.columnName c ∉ usingCols).map (right.row r).cells

theorem combinedRow_eq_paired [HostText] (hσ : σ.Distinct) (hτ : τ.Distinct) (j : JoinSpec)
    (l r : Nat) : j.combinedRow left right (.left l (some r)) = paired left right j.usingCols l r := by
  rw [combinedRow, combinedSources, map_append, map_map, map_map, paired]
  congr 1
  · refine map_congr_left fun c _ => ?_
    simp only [Function.comp_apply, Schema.indexOf_columnName σ hσ, Option.getD_some, source]
    exact Value.setCell_of_hasType ((left.row l).typed c)
  · refine map_congr_left fun c _ => ?_
    simp only [Function.comp_apply, Schema.indexOf_columnName τ hτ, Option.getD_some, source]
    exact Value.setCell_of_hasType ((right.row r).typed c)

theorem keyFor_single (c : σ.Col) (r : Row σ) : keyFor [c] r = (r.cells c).joinPart := by
  cases h : (r.cells c).joinPart <;> simp [keyFor, h]

theorem le_asofTs {v w : Value} {t : Int64} (h : v.asofTs = some t) :
    t ≤ w.asofTs.getD Int64.minValue ↔ ∃ ts, w.asofTs = some ts ∧ t ≤ ts := by
  cases w.asofTs with
  | some ts => simp
  | none =>
    -- no match value is the sentinel that stands for a null one
    have hne : t ≠ Int64.minValue := by
      cases v <;> grind [Value.asofTs, nullTimestamp, nullLong]
    simp [Int64.le_minValue_iff, hne]

theorem joinPart_cases {ty : ColumnType} (hty : ty = .string ∨ ty = .long) {v w : Value}
    (hv : Value.hasType ty v = true) (hw : Value.hasType ty w = true) :
    match v.joinPart with
    | none => v.isNull = true
    | some key => v.isNull = false ∧ (w.joinPart = some key ↔ w = v) := by
  rcases hty with rfl | rfl
  · obtain ⟨a, rfl⟩ := Value.exists_of_hasType hv
    obtain ⟨b, rfl⟩ := Value.exists_of_hasType hw
    cases a <;> cases b <;> simp [Value.joinPart, Value.isNull]
  · obtain ⟨a, rfl⟩ := Value.exists_of_hasType hv
    obtain ⟨b, rfl⟩ := Value.exists_of_hasType hw
    have hinj : displayI64 b = displayI64 a ↔ b = a :=
      ⟨fun h => Int64.toInt_inj.mp (toString_int_inj h), congrArg _⟩
    by_cases ha : a = nullLong
    · simp [Value.joinPart, Value.isNull, ha]
    · by_cases hb : b = nullLong
      · simp [Value.joinPart, Value.isNull, ha, hb, Ne.symm ha]
      · simp [Value.joinPart, Value.isNull, ha, hb, hinj]

section
variable {lk lts : σ.Col} {rk rts : τ.Col} (htype : τ.columnType rk = σ.columnType lk)
  (hkey : σ.columnType lk = .string ∨ σ.columnType lk = .long) (l : Nat)
include htype hkey

theorem partners_asof : ∃ o : Option (Int64 × Nat),
    partners right ⟨[lk], [rk], some (lts, rts)⟩ (left.row l) = (o.map Prod.snd).toList ∧
      Latest (AsOfMatch left right lk lts rk rts l) o := by
  have hcases := fun r => joinPart_cases hkey ((left.row l).typed lk)
    (htype ▸ (right.row r).typed rk)
  rw [partners, keyFor_single]
  cases hpart : ((left.row l).cells lk).joinPart with
  | none =>
    rw [hpart] at hcases
    refine ⟨none, rfl, ?_⟩
    rintro e ⟨-, hnull, -⟩
    cases (hcases e.2).symm.trans hnull
  | some key =>
    rw [hpart] at hcases
    have hmatch : AsOfMatch left right lk lts rk rts l = fun e =>
        e ∈ bucket (asofEntries right [rk] rts) key ∧
          e.1 ≤ ((left.row l).cells lts).asofTs.getD Int64.minValue := by
      funext e
      rw [mem_bucket, keyFor_single, (hcases e.2).2, AsOfMatch, (hcases e.2).1]
      refine propext ⟨?_, ?_⟩
      · rintro ⟨hr, -, hk, ht, hts⟩
        exact ⟨⟨hr, hk, ht⟩, (le_asofTs ht).mpr hts⟩
      · rintro ⟨⟨hr, hk, ht⟩, hts⟩
        exact ⟨hr, rfl, hk, ht, (le_asofTs ht).mp hts⟩
    rw [hmatch]
    exact ⟨_, rfl, latest_resolvedRr (bucket_pairwise right [rk] rts key) _⟩

variable {name ts : String} (hlk : σ.indexOf name = some lk) (hrk : τ.indexOf name = some rk)
  (hlts : σ.indexOf ts = some lts) (hrts : τ.indexOf ts = some rts)
include hlk hrk hlts hrts

/-- **An AS OF join** on one text or integer column: the combined store has one row for every
left row that a right row matches, in order, and it is the left row beside the last of its
matches. -/
theorem combined_asof [HostText] (hσ : σ.Distinct) (hτ : τ.Distinct) :
    ∃ best : Nat → Option (Int64 × Nat),
    (∀ l, Latest (AsOfMatch left right lk lts rk rts l) (best l)) ∧
    (⟨[name], .asOf ts⟩ : JoinSpec).combined left right =
      .ok ((range left.rowCount).filterMap fun l => (best l).map fun e =>
        paired left right [name] l e.2) := by
  choose best hbest hlatest using partners_asof left right htype hkey
  refine ⟨best, hlatest, ?_⟩
  have hrow : ∀ l, (match partners right ⟨[lk], [rk], some (lts, rts)⟩ (left.row l) with
      | [] => []
      | rs => rs.map fun r => JoinedRow.left l (some r)) =
        ((best l).map fun e => JoinedRow.left l (some e.2)).toList := by
    intro l
    rw [hbest]
    cases best l <;> rfl
  have hrows : joined left right ⟨[name], .asOf ts⟩ ⟨[lk], [rk], some (lts, rts)⟩ =
      (range left.rowCount).filterMap fun l => (best l).map fun e => .left l (some e.2) := by
    simp [joined, flatMap_map, hrow, filterMap_eq_flatMap_toList]
  have hresolve : (⟨[name], .asOf ts⟩ : JoinSpec).resolve = .ok ⟨[lk], [rk], some (lts, rts)⟩ := by
    simp [resolve, hlk, hrk, hlts, hrts]
    rfl
  rw [combined, hresolve]
  change Except.ok _ = _
  rw [hrows, map_filterMap]
  simp only [Option.map_map, Function.comp_def, combinedRow_eq_paired left right hσ hτ]

end

end AsOf

section Ticks
open Unused

/-- A key, a time and a price. -/
def tick : Schema := ⟨[⟨"k", .long⟩, ⟨"t", .long⟩, ⟨"px", .long⟩]⟩

theorem tick_long : ∀ c, tick.columnType c = .long := by decide

def ticks (rows : List (Int64 × Int64 × Int64)) : ColumnStore tick where
  rowCount := rows.length
  row r :=
    { cells := fun c =>
        let row := (rows[r]?).getD (nullLong, nullLong, nullLong)
        .long (if c.1 = 0 then row.1 else if c.1 = 1 then row.2.1 else row.2.2)
      typed := fun c => by rw [tick_long]; rfl }

def trades := ticks [(7, 5, 100), (7, 0, 101), (8, 5, 102)]

def quotes := ticks [(7, 1, 10), (7, 5, 11), (7, 5, 12), (7, 6, 13)]

/-- The first trade goes with the later of two quotes of its time, the others with none. -/
theorem combined_asof_ticks : (∃ best : Nat → Option (Int64 × Nat),
    (∀ l, Latest (AsOfMatch trades quotes ⟨0, by decide⟩ ⟨1, by decide⟩ ⟨0, by decide⟩
      ⟨1, by decide⟩ l) (best l)) ∧
    (⟨["k"], .asOf "t"⟩ : JoinSpec).combined trades quotes =
      .ok ((range 3).filterMap fun l => (best l).map fun e => paired trades quotes ["k"] l e.2)) ∧
    (range 3).flatMap (fun l => partners quotes ⟨[⟨0, by decide⟩], [⟨0, by decide⟩],
      some (⟨1, by decide⟩, ⟨1, by decide⟩)⟩ (trades.row l)) = [2] ∧
    paired trades quotes ["k"] 0 2 = [.long 7, .long 5, .long 100, .long 5, .long 12] :=
  ⟨combined_asof trades quotes rfl (.inr rfl) rfl rfl rfl rfl (by decide) (by decide),
    by decide +kernel, by decide +kernel⟩

end Ticks

end JoinSpec

end CqServer
