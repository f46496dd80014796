import CqServer.Query.Predicate
import CqServer.SecondaryIndex
import Mathlib.Data.Finset.Sort

/-!
# Index planning

`plan_candidates`: the rows a query looks at, from the secondary index where the
condition bounds a column it covers and from the whole store otherwise. Every
candidate is checked again, so a plan is right if it misses no row the condition
is true of (`planCandidates_filter`). The maps tell the two zeros of the doubles
apart and comparisons do not, so a literal zero can miss rows (`Planned`).
-/

namespace CqServer

open Lib List

variable {σ : Schema}

/-! ## Lookups -/

def RangeKey.tag : RangeKey → Nat
  | .int _ => 0
  | .long _ => 1
  | .doubleOrdered _ => 2
  | .string _ => 3
  | .bool _ => 4
  | .timestamp _ => 5

def RangeKey.cmp : RangeKey → RangeKey → Ordering
  | .int m, .int n => compare m.toInt n.toInt
  | .long m, .long n => compare m.toInt n.toInt
  | .doubleOrdered x, .doubleOrdered y => compare x.toNat y.toNat
  | .string s, .string t => compare s t
  | .bool x, .bool y => compare x y
  | .timestamp s, .timestamp t => compare s.toInt t.toInt
  | a, b => compare a.tag b.tag

namespace SecondaryIndex

def covers (ix : SecondaryIndex σ) (col : σ.Col) : Bool := col ∈ ix.indexedCols

def hasRange (ix : SecondaryIndex σ) (col : σ.Col) : Bool := (ix.rangeByCol.lookup col).isSome

def rowsForKey (ix : SecondaryIndex σ) (col : σ.Col) (key : IxKey) : Option (Finset Nat) :=
  (ix.byCol.lookup col).bind fun inner => inner.entries.lookup key

/-- `rows_in_range`, closed at both ends. No key is in an inverted range; the source
returns early there because the B-tree's own range lookup would panic. -/
def rowsInRange (ix : SecondaryIndex σ) (col : σ.Col) (lo hi : Option RangeKey) :
    Option (Finset Nat) :=
  (ix.rangeByCol.lookup col).map fun inner => inner.rowsWhere fun k =>
    decide (∀ l ∈ lo, l.cmp k ≠ .gt) && decide (∀ h ∈ hi, k.cmp h ≠ .gt)

def rowsGreaterThan (ix : SecondaryIndex σ) (col : σ.Col) (lo : RangeKey) : Option (Finset Nat) :=
  (ix.rangeByCol.lookup col).map fun inner => inner.rowsWhere fun k => lo.cmp k = .lt

def rowsLessThan (ix : SecondaryIndex σ) (col : σ.Col) (hi : RangeKey) : Option (Finset Nat) :=
  (ix.rangeByCol.lookup col).map fun inner => inner.rowsWhere fun k => k.cmp hi = .lt

end SecondaryIndex

namespace Scalar

def ixKey : Scalar → IxKey
  | .double f => .doubleBits f.bits
  | .long n => .long n
  | .string s => .string s
  | .bool b => .bool b
  | .timestamp t => .timestamp t

/-- Range plans are made for long and double literals; a NaN has no key (`from_double`). -/
def rangeKey : Scalar → Option RangeKey
  | .double f => if f.isNan then none else some (.doubleOrdered (f64ToOrderedBits f))
  | .long n => some (.long n)
  | _ => none

def isNan : Scalar → Bool
  | .double f => f.isNan
  | _ => false

/-- The equality fast path is for these kinds. -/
def hinted : Scalar → Bool
  | .double f => !f.isNan
  | .long _ | .string _ => true
  | .bool _ | .timestamp _ => false

end Scalar

/-! ## Plans -/

section Plan
variable (ix : SecondaryIndex σ)

def findIndexHint : Pred σ → Option (σ.Col × IxKey)
  | .compare .eq col value =>
    if ix.covers col && value.hinted then some (col, value.ixKey) else none
  | .and a b => (findIndexHint a).or (findIndexHint b)
  | _ => none

def findRangeHint : Pred σ → Option (Finset Nat)
  | .between col low high =>
    if ix.hasRange col then
      low.rangeKey.bind fun lo => high.rangeKey.bind fun hi =>
        ix.rowsInRange col (some lo) (some hi)
    else none
  | .compare op col value =>
    if ix.hasRange col then
      value.rangeKey.bind fun k =>
        match op with
        | .gt => ix.rowsGreaterThan col k
        | .ge => ix.rowsInRange col (some k) none
        | .lt => ix.rowsLessThan col k
        | .le => ix.rowsInRange col none (some k)
        | .eq | .neq => none
    else none
  | .and a b => (findRangeHint a).or (findRangeHint b)
  | _ => none

def findSetHint : Pred σ → Option (Finset Nat)
  | .compare .eq col value =>
    if ix.covers col && !value.isNan then some ((ix.rowsForKey col value.ixKey).getD ∅) else none
  | .isIn _ col values =>
    if ix.covers col then
      some (values.foldl (fun out v => out ∪ (ix.rowsForKey col v.ixKey).getD ∅) ∅)
    else none
  | .compare op col value => findRangeHint ix (.compare op col value)
  | .between col low high => findRangeHint ix (.between col low high)
  | .and a b =>
    match findSetHint a, findSetHint b with
    | some x, some y => some (x ∩ y)
    | some x, none => some x
    | none, other => other
  | .or a b =>
    match findSetHint a, findSetHint b with
    | some x, some y => some (x ∪ y)
    | _, _ => none
  | _ => none

end Plan

/-- `CandidateRows`; the borrowed and the owned bitmap are one. -/
inductive CandidateRows where
  | bitmap (b : Finset Nat)
  | full (n : Nat)

def CandidateRows.rows : CandidateRows → List Nat
  | .bitmap b => b.sort (· ≤ ·)
  | .full n => range n

/-- `plan_candidates`. A hint whose key is not in the map yields no row. -/
def planCandidates (p : Pred σ) (rowCount : Nat) : Option (SecondaryIndex σ) → CandidateRows
  | none => .full rowCount
  | some ix =>
    match findIndexHint ix p with
    | some (col, key) =>
      match ix.rowsForKey col key with
      | some b => .bitmap b
      | none => .full 0
    | none =>
      match findRangeHint ix p with
      | some b => .bitmap b
      | none =>
        match findSetHint ix p with
        | some b => .bitmap b
        | none => .full rowCount

/-! ## Literals a plan is right for -/

/-- The key of the literal bounds the keys of the values the operator admits: no zero
for `=`, no positive zero for `>=`, no negative zero for `<=`. -/
def Scalar.safeFor (v : Scalar) : CmpOp → Bool
  | .eq => !v.isZero
  | .ge => v ≠ .double ⟨0⟩
  | .le => v ≠ .double ⟨0x8000000000000000⟩
  | _ => true

/-- Every literal the planner may look up is right for its operator. -/
def Pred.Planned (indexed : List σ.Col) : Pred σ → Prop
  | .compare op col value => col ∈ indexed → value.safeFor op = true
  | .between col low high => col ∈ indexed → low.safeFor .ge = true ∧ high.safeFor .le = true
  | .and a b | .or a b => a.Planned indexed ∧ b.Planned indexed
  | .isIn .. | .leaf _ | .not _ | .always => True

namespace F64

theorem sign_zero_iff (b : UInt64) : b &&& 0x8000000000000000 = 0 ↔ b.toNat < 2 ^ 63 := by
  have hlt := b.toNat_lt
  have htop : b.toNat.testBit 63 = decide (2 ^ 63 ≤ b.toNat) := by
    rw [Nat.testBit_eq_decide_div_mod_eq, decide_eq_decide]
    omega
  rw [← UInt64.toNat_inj, UInt64.toNat_and]
  constructor
  · intro h
    have hbit := congrArg (Nat.testBit · 63) h
    have hone : Nat.testBit (UInt64.toNat 0x8000000000000000) 63 = true := by decide
    simp only [Nat.testBit_and, hone, htop] at hbit
    simpa using hbit
  · intro h
    refine Nat.eq_of_testBit_eq fun j => ?_
    rw [Nat.testBit_and, show UInt64.toNat 0x8000000000000000 = 2 ^ 63 from rfl,
      Nat.testBit_two_pow]
    by_cases hj : 63 = j
    · subst hj
      simp [htop]
      omega
    · simp [hj]

theorem xor_two_pow {n b : Nat} (h : b < 2 ^ n) : b ^^^ 2 ^ n = 2 ^ n + b := by
  refine Nat.eq_of_testBit_eq fun j => ?_
  rcases Nat.lt_trichotomy j n with hj | rfl | hj
  · rw [Nat.testBit_two_pow_add_gt hj]
    simp [Nat.ne_of_gt hj]
  · rw [Nat.testBit_two_pow_add_eq]
    simp
  · have hsum : 2 ^ n + b < 2 ^ j := by
      have : 2 ^ (n + 1) ≤ 2 ^ j := Nat.pow_le_pow_right (by decide) hj
      omega
    have hb : b < 2 ^ j := by omega
    simp [Nat.testBit_lt_two_pow hsum, Nat.testBit_lt_two_pow hb, Nat.ne_of_lt hj]

theorem orderedBits_toNat (f : F64) : (f64ToOrderedBits f).toNat =
    if f.bits.toNat < 2 ^ 63 then 2 ^ 63 + f.bits.toNat else 2 ^ 64 - 1 - f.bits.toNat := by
  unfold f64ToOrderedBits
  by_cases hs : f.bits.toNat < 2 ^ 63
  · rw [if_pos ((sign_zero_iff _).mpr hs), if_pos hs]
    exact xor_two_pow hs
  · rw [if_neg (fun h => hs ((sign_zero_iff _).mp h)), if_neg hs, UInt64.toNat_not]
    rfl

theorem orderedBits_lt {f g : F64} (h : f.signedMagnitude < g.signedMagnitude) :
    (f64ToOrderedBits f).toNat < (f64ToOrderedBits g).toNat := by
  have hf := f.bits.toNat_lt
  rw [signedMagnitude_eq, signedMagnitude_eq] at h
  rw [orderedBits_toNat, orderedBits_toNat]
  by_cases hf' : f.bits.toNat < 2 ^ 63 <;> by_cases hg' : g.bits.toNat < 2 ^ 63 <;>
    simp only [hf', hg', if_true, if_false] at h ⊢ <;> omega

/-- Equal doubles have equal keys, but the negative zero's is below the positive one's. -/
theorem orderedBits_le {f g : F64} (h : f.signedMagnitude = g.signedMagnitude)
    (hz : f.bits.toNat ≠ 0 ∨ g.bits.toNat ≠ 2 ^ 63) :
    (f64ToOrderedBits f).toNat ≤ (f64ToOrderedBits g).toNat := by
  rw [signedMagnitude_eq, signedMagnitude_eq] at h
  rw [orderedBits_toNat, orderedBits_toNat]
  by_cases hf' : f.bits.toNat < 2 ^ 63 <;> by_cases hg' : g.bits.toNat < 2 ^ 63 <;>
    simp only [hf', hg', if_true, if_false] at h ⊢ <;> omega

theorem toNat_ne {f : F64} {b : UInt64} (h : f ≠ ⟨b⟩) : f.bits.toNat ≠ b.toNat := by
  intro hb
  exact h (congrArg F64.mk (UInt64.toNat_inj.mp hb))

end F64

/-! ## Cells and their keys -/

def Scalar.value : Scalar → Value
  | .double f => .double f
  | .long n => .long n
  | .string s => .string (some s)
  | .bool b => .bool (some b)
  | .timestamp t => .timestamp t

/-- A cell that compares as a literal holds it, unless it is an `Int`. -/
theorem Value.eq_value_of_scalar {ty : ColumnType} {v : Value} {w : Scalar}
    (hs : v.scalar = some w) (ht : Value.hasType ty v = true) (hint : ty ≠ .int) :
    v = w.value ∧ v.isNull = false := by
  cases v with
  | double f =>
    obtain ⟨hnan, hw⟩ := Option.ite_none_left_eq_some.mp hs
    cases hw
    exact ⟨rfl, by simpa [isNull] using hnan⟩
  | long n | timestamp t =>
    obtain ⟨hnull, hw⟩ := Option.ite_none_left_eq_some.mp hs
    cases hw
    exact ⟨rfl, by simpa [isNull] using hnull⟩
  | int n => cases ty <;> first | exact absurd rfl hint | cases ht
  | string x | bool x =>
    obtain ⟨y, rfl, rfl⟩ := Option.map_eq_some_iff.mp hs
    exact ⟨rfl, rfl⟩
  | bytes b | null => cases hs

section Keys
variable [HostText]

theorem IxKey.fromValue_value {w : Scalar} (h : w.value.isNull = false) :
    IxKey.fromValue w.value = some w.ixKey := by
  cases w <;> simp_all [Scalar.value, Value.isNull, IxKey.fromValue, Scalar.ixKey]

theorem RangeKey.fromValue_value {w : Scalar} {k : RangeKey} (h : w.value.isNull = false)
    (hk : w.rangeKey = some k) : RangeKey.fromValue w.value = some k := by
  cases w with
  | double f =>
    simpa [Scalar.value, RangeKey.fromValue, Scalar.rangeKey] using hk
  | long n =>
    have hnull : n ≠ nullLong := by simpa [Scalar.value, Value.isNull] using h
    simpa [Scalar.value, RangeKey.fromValue, Scalar.rangeKey, hnull] using hk
  | _ => cases hk

end Keys

namespace Scalar

variable {kw : RangeKey} {v w : Scalar}

theorem rangeKey_cases {o : Ordering} (h : v.cmp w = some o) (hw : w.rangeKey = some kw) :
    (∃ m n, v = .long m ∧ w = .long n ∧ kw = .long n ∧ o = compare m.toInt n.toInt) ∨
      ∃ f g, w = .double g ∧ v.rangeKey = some (.doubleOrdered (f64ToOrderedBits f)) ∧
        kw = .doubleOrdered (f64ToOrderedBits g) ∧
        o = compare f.signedMagnitude g.signedMagnitude := by
  cases v <;> cases w <;> simp only [cmp, rangeKey, reduceCtorEq, Option.some.injEq] at h hw
  case long.long m n => exact .inl ⟨m, n, rfl, rfl, hw.symm, h.symm⟩
  case double.double f g =>
    split at h
    · cases h
    rename_i hnan
    split at hw
    · cases hw
    refine .inr ⟨f, g, rfl, ?_, (Option.some.inj hw).symm, (Option.some.inj h).symm⟩
    rw [Bool.or_eq_true, not_or] at hnan
    exact if_neg hnan.1

/-- A value below the literal has a key below the literal's. -/
theorem rangeKey_lt (h : v.cmp w = some .lt) (hw : w.rangeKey = some kw) :
    ∃ kv, v.rangeKey = some kv ∧ kv.cmp kw = .lt := by
  rcases rangeKey_cases h hw with ⟨m, n, rfl, rfl, rfl, ho⟩ | ⟨f, g, rfl, hkv, rfl, ho⟩
  · exact ⟨.long m, rfl, ho.symm⟩
  · exact ⟨_, hkv, compare_lt_iff_lt.mpr (F64.orderedBits_lt (compare_lt_iff_lt.mp ho.symm))⟩

theorem rangeKey_gt (h : v.cmp w = some .gt) (hw : w.rangeKey = some kw) :
    ∃ kv, v.rangeKey = some kv ∧ kw.cmp kv = .lt := by
  rcases rangeKey_cases h hw with ⟨m, n, rfl, rfl, rfl, ho⟩ | ⟨f, g, rfl, hkv, rfl, ho⟩
  · exact ⟨.long m, rfl, compare_lt_iff_lt.mpr (compare_gt_iff_gt.mp ho.symm)⟩
  · exact ⟨_, hkv, compare_lt_iff_lt.mpr (F64.orderedBits_lt (compare_gt_iff_gt.mp ho.symm))⟩

/-- A value equal to the literal has a key on the right side of the literal's. -/
theorem rangeKey_eq (h : v.cmp w = some .eq) (hw : w.rangeKey = some kw) :
    ∃ kv, v.rangeKey = some kv ∧
      (w.safeFor .le = true → kv.cmp kw ≠ .gt) ∧ (w.safeFor .ge = true → kw.cmp kv ≠ .gt) := by
  rcases rangeKey_cases h hw with ⟨m, n, rfl, rfl, rfl, ho⟩ | ⟨f, g, rfl, hkv, rfl, ho⟩
  · have hmn := compare_eq_iff_eq.mp ho.symm
    refine ⟨.long m, rfl, fun _ => ?_, fun _ => ?_⟩
    · exact compare_le_iff_le.mpr hmn.le
    · exact compare_le_iff_le.mpr hmn.ge
  · have hmag := compare_eq_iff_eq.mp ho.symm
    refine ⟨_, hkv, fun hs => ?_, fun hs => ?_⟩
    · have hne : g ≠ ⟨0x8000000000000000⟩ := by simpa [safeFor] using hs
      exact compare_le_iff_le.mpr (F64.orderedBits_le hmag (.inr (F64.toNat_ne hne)))
    · have hne : g ≠ ⟨0⟩ := by simpa [safeFor] using hs
      exact compare_le_iff_le.mpr (F64.orderedBits_le hmag.symm (.inl (F64.toNat_ne hne)))

theorem rangeKey_le (h : v.cmp w = some .lt ∨ v.cmp w = some .eq) (hw : w.rangeKey = some kw)
    (hs : w.safeFor .le = true) : ∃ kv, v.rangeKey = some kv ∧ kv.cmp kw ≠ .gt := by
  rcases h with h | h
  · obtain ⟨kv, hkv, hlt⟩ := rangeKey_lt h hw
    exact ⟨kv, hkv, by simp [hlt]⟩
  · obtain ⟨kv, hkv, hle, _⟩ := rangeKey_eq h hw
    exact ⟨kv, hkv, hle hs⟩

theorem rangeKey_ge (h : v.cmp w = some .gt ∨ v.cmp w = some .eq) (hw : w.rangeKey = some kw)
    (hs : w.safeFor .ge = true) : ∃ kv, v.rangeKey = some kv ∧ kw.cmp kv ≠ .gt := by
  rcases h with h | h
  · obtain ⟨kv, hkv, hlt⟩ := rangeKey_gt h hw
    exact ⟨kv, hkv, by simp [hlt]⟩
  · obtain ⟨kv, hkv, _, hge⟩ := rangeKey_eq h hw
    exact ⟨kv, hkv, hge hs⟩

end Scalar

/-- Every row the condition is true of is in the set, and none of the set's rows is
the null row. -/
structure Bounds (rows : Nat → Row σ) (p : Pred σ) (b : Finset Nat) : Prop where
  covers : ∀ r, p.truth (rows r) = .tt → r ∈ b
  used : ∀ r ∈ b, rows r ≠ Row.null

section Bounds
variable [HostText] {rows : Nat → Row σ} {ix : SecondaryIndex σ} {col : σ.Col} {r : Nat}
  {p a b : Pred σ} {bm bm' : Finset Nat}

variable {key : IxKey}

theorem mem_rowsForKey (hix : ix.Exact rows) (hc : ix.covers col = true) :
    r ∈ (ix.rowsForKey col key).getD ∅ ↔ IxKey.fromValue ((rows r).cells col) = some key := by
  have hmem : col ∈ ix.indexedCols := of_decide_eq_true hc
  rw [← hix.equality.listed col hmem key r]
  unfold SecondaryIndex.rowsForKey ColumnIndex.Listed
  cases hin : ix.byCol.lookup col with
  | none => simp
  | some inner => simp [Inverted.rows]

variable {inner : Inverted RangeKey} {ok : RangeKey → Bool}

theorem mem_rangeRows (hix : ix.Exact rows) (hin : ix.rangeByCol.lookup col = some inner) :
    r ∈ inner.rowsWhere ok ↔
      ∃ k, ok k = true ∧ RangeKey.fromValue ((rows r).cells col) = some k := by
  have hmem : col ∈ ix.indexedCols := (hix.range.covers col).mp (by simp [hin])
  rw [Inverted.mem_rowsWhere]
  refine exists_congr fun k => and_congr_right fun _ => ?_
  rw [← hix.range.listed col hmem k r]
  simp [ColumnIndex.Listed, hin]

omit [HostText] in
theorem ne_null_of_key {κ : Type} {k : κ} {fromValue : Value → Option κ}
    (hnone : ∀ ty, fromValue (Value.nullOf ty) = none)
    (h : fromValue ((rows r).cells col) = some k) : rows r ≠ Row.null := by
  intro hnull
  rw [hnull] at h
  cases (hnone _).symm.trans h

/-! ### Leaves -/

variable {f : Scalar → Bool}

section Leaf
variable (hint : σ.columnType col ≠ .int)
  (htruth : ∀ row, p.truth row =
    match (row.cells col).scalar with | some v => Tri.ofBool (f v) | none => .unknown)
include hint htruth

omit [HostText] in
theorem cell_of_true {row : Row σ} (h : p.truth row = .tt) :
    ∃ v : Scalar, row.cells col = v.value ∧ v.value.isNull = false ∧ f v = true := by
  rw [htruth] at h
  cases hs : (row.cells col).scalar with
  | none =>
    rw [hs] at h
    cases h
  | some v =>
    rw [hs] at h
    obtain ⟨hv, hnull⟩ := Value.eq_value_of_scalar hs (row.typed col) hint
    exact ⟨v, hv, hv ▸ hnull, Tri.ofBool_eq_tt.mp h⟩

/-- A leaf is bounded by the rows under the equality keys of the values it admits. -/
theorem bounds_keys (hix : ix.Exact rows) (hc : ix.covers col = true) {K : IxKey → Prop}
    (hkeys : ∀ v, f v = true → K v.ixKey)
    (hbm : ∀ r, r ∈ bm ↔ ∃ key, K key ∧ r ∈ (ix.rowsForKey col key).getD ∅) : Bounds rows p bm := by
  refine ⟨fun r hr => ?_, fun r hr => ?_⟩
  · obtain ⟨v, hcell, hnull, hv⟩ := cell_of_true hint htruth hr
    refine (hbm r).mpr ⟨v.ixKey, hkeys v hv, (mem_rowsForKey hix hc).mpr ?_⟩
    rw [hcell]
    exact IxKey.fromValue_value hnull
  · obtain ⟨key, _, hkey⟩ := (hbm r).mp hr
    exact ne_null_of_key IxKey.fromValue_nullOf ((mem_rowsForKey hix hc).mp hkey)

/-- A leaf is bounded by a range of keys that holds the keys of the values it admits. -/
theorem bounds_range (hix : ix.Exact rows)
    (h : (ix.rangeByCol.lookup col).map (·.rowsWhere ok) = some bm)
    (hok : ∀ v, f v = true → ∃ k, v.rangeKey = some k ∧ ok k = true) : Bounds rows p bm := by
  obtain ⟨inner, hin, rfl⟩ := Option.map_eq_some_iff.mp h
  refine ⟨fun r hr => ?_, fun r hr => ?_⟩
  · obtain ⟨v, hcell, hnull, hv⟩ := cell_of_true hint htruth hr
    obtain ⟨k, hk, hokk⟩ := hok v hv
    refine (mem_rangeRows hix hin).mpr ⟨k, hokk, ?_⟩
    rw [hcell]
    exact RangeKey.fromValue_value hnull hk
  · obtain ⟨k, _, hkey⟩ := (mem_rangeRows hix hin).mp hr
    exact ne_null_of_key RangeKey.fromValue_nullOf hkey

end Leaf

omit [HostText] in
theorem kind_ne_int (v : Scalar) : v.kind ≠ .int := by
  cases v <;> nofun

variable {value : Scalar}

theorem bounds_eq (hix : ix.Exact rows) (hc : ix.covers col = true)
    (ht : (Pred.compare .eq col value).Typed)
    (hp : (Pred.compare .eq col value).Planned ix.indexedCols) :
    Bounds rows (.compare .eq col value) ((ix.rowsForKey col value.ixKey).getD ∅) := by
  have hcol : σ.columnType col = value.kind := ht
  have hsafe : value.isZero = false := by
    simpa [Scalar.safeFor] using hp (of_decide_eq_true hc)
  refine bounds_keys (hcol ▸ kind_ne_int value) (fun _ => rfl) hix hc (K := (· = value.ixKey)) ?_ ?_
  · intro v hv
    have heq : v.cmp value = some .eq := by simpa [CmpOp.holds] using hv
    rw [Scalar.eq_of_cmp heq hsafe]
  · simp

theorem bounds_isIn (hix : ix.Exact rows) {kind : ColumnType} {values : List Scalar}
    (hc : ix.covers col = true) (ht : (Pred.isIn kind col values).Typed) :
    Bounds rows (.isIn kind col values)
      (values.foldl (fun out v => out ∪ (ix.rowsForKey col v.ixKey).getD ∅) ∅) := by
  obtain ⟨hcol, hint, _, hz⟩ := ht
  refine bounds_keys (hcol ▸ hint) (fun _ => rfl) hix hc
    (K := fun key => ∃ v ∈ values, v.ixKey = key) ?_ ?_
  · intro v hv
    obtain ⟨w, hw, heq⟩ := any_eq_true.mp hv
    have hcmp : v.cmp w = some .eq := by simpa [CmpOp.holds] using heq
    exact ⟨w, hw, by rw [Scalar.eq_of_cmp hcmp (hz w hw)]⟩
  · intro r
    have hfold : ∀ (vs : List Scalar) (out : Finset Nat),
        r ∈ vs.foldl (fun out v => out ∪ (ix.rowsForKey col v.ixKey).getD ∅) out ↔
          r ∈ out ∨ ∃ v ∈ vs, r ∈ (ix.rowsForKey col v.ixKey).getD ∅ := by
      intro vs
      induction vs with
      | nil => simp
      | cons v vs ih =>
        intro out
        rw [foldl_cons, ih]
        simp [or_assoc]
    rw [hfold]
    simp

/-! ### Hints -/

omit [HostText] in
theorem Bounds.and_left (h : Bounds rows a bm) : Bounds rows (.and a b) bm :=
  ⟨fun r hr => h.covers r (Tri.and_eq_tt.mp hr).1, h.used⟩

omit [HostText] in
theorem Bounds.and_right (h : Bounds rows b bm) : Bounds rows (.and a b) bm :=
  ⟨fun r hr => h.covers r (Tri.and_eq_tt.mp hr).2, h.used⟩

section
variable (hix : ix.Exact rows)
include hix

theorem findIndexHint_bounds (ht : p.Typed) (hp : p.Planned ix.indexedCols)
    (h : findIndexHint ix p = some (col, key)) :
    Bounds rows p ((ix.rowsForKey col key).getD ∅) := by
  induction p with
  | compare op c value =>
    cases op <;> try cases h
    obtain ⟨hcond, heq⟩ := Option.ite_none_right_eq_some.mp h
    obtain ⟨rfl, rfl⟩ := Prod.mk.injEq .. ▸ Option.some.inj heq
    exact bounds_eq hix (Bool.and_eq_true_iff.mp hcond).1 ht hp
  | and a b iha ihb =>
    rcases Option.or_eq_some_iff.mp h with ha | ⟨-, hb⟩
    · exact (iha ht.1 hp.1 ha).and_left
    · exact (ihb ht.2 hp.2 hb).and_right
  | _ => cases h

theorem compareRange_bounds {op : CmpOp} (ht : (Pred.compare op col value).Typed)
    (hp : (Pred.compare op col value).Planned ix.indexedCols)
    (h : findRangeHint ix (.compare op col value) = some bm) :
    Bounds rows (.compare op col value) bm := by
  have hcol : σ.columnType col = value.kind := ht
  have hint : σ.columnType col ≠ .int := hcol ▸ kind_ne_int value
  obtain ⟨hrange, h⟩ := Option.ite_none_right_eq_some.mp h
  obtain ⟨kw, hkw, h⟩ := Option.bind_eq_some_iff.mp h
  have hmem : col ∈ ix.indexedCols := (hix.range.covers col).mp hrange
  have hsafe := hp hmem
  cases op with
  | eq | neq => cases h
  | gt =>
    refine bounds_range hint (fun _ => rfl) hix h fun v hv => ?_
    obtain ⟨kv, hkv, hlt⟩ := Scalar.rangeKey_gt (by simpa [CmpOp.holds] using hv) hkw
    exact ⟨kv, hkv, by simpa using hlt⟩
  | lt =>
    refine bounds_range hint (fun _ => rfl) hix h fun v hv => ?_
    obtain ⟨kv, hkv, hlt⟩ := Scalar.rangeKey_lt (by simpa [CmpOp.holds] using hv) hkw
    exact ⟨kv, hkv, by simpa using hlt⟩
  | ge =>
    refine bounds_range hint (fun _ => rfl) hix h fun v hv => ?_
    obtain ⟨kv, hkv, hle⟩ := Scalar.rangeKey_ge (by simpa [CmpOp.holds] using hv) hkw hsafe
    exact ⟨kv, hkv, by simpa using hle⟩
  | le =>
    refine bounds_range hint (fun _ => rfl) hix h fun v hv => ?_
    obtain ⟨kv, hkv, hle⟩ := Scalar.rangeKey_le (by simpa [CmpOp.holds] using hv) hkw hsafe
    exact ⟨kv, hkv, by simpa using hle⟩

variable (ht : p.Typed) (hp : p.Planned ix.indexedCols)
include ht hp

theorem findRangeHint_bounds (h : findRangeHint ix p = some bm) : Bounds rows p bm := by
  induction p with
  | compare op c value => exact compareRange_bounds hix ht hp h
  | between c low high =>
    have hint : σ.columnType c ≠ .int := ht.1 ▸ kind_ne_int low
    obtain ⟨hrange, h⟩ := Option.ite_none_right_eq_some.mp h
    obtain ⟨klo, hlo, h⟩ := Option.bind_eq_some_iff.mp h
    obtain ⟨khi, hhi, h⟩ := Option.bind_eq_some_iff.mp h
    obtain ⟨hslo, hshi⟩ := hp ((hix.range.covers c).mp hrange)
    refine bounds_range hint (fun _ => rfl) hix h fun v hv => ?_
    simp only [CmpOp.holds, Bool.and_eq_true, decide_eq_true_eq] at hv
    obtain ⟨kv, hkv, hge⟩ := Scalar.rangeKey_ge hv.1 hlo hslo
    obtain ⟨kv', hkv', hle⟩ := Scalar.rangeKey_le hv.2 hhi hshi
    cases hkv.symm.trans hkv'
    exact ⟨kv, hkv, by simp [hge, hle]⟩
  | and a b iha ihb =>
    rcases Option.or_eq_some_iff.mp h with ha | ⟨-, hb⟩
    · exact (iha ht.1 hp.1 ha).and_left
    · exact (ihb ht.2 hp.2 hb).and_right
  | _ => cases h

theorem findSetHint_bounds (h : findSetHint ix p = some bm) : Bounds rows p bm := by
  induction p generalizing bm with
  | compare op c value =>
    by_cases hop : op = .eq
    · subst hop
      obtain ⟨hcond, rfl⟩ := Option.ite_none_right_eq_some.mp h |>.imp_right Option.some.inj
      exact bounds_eq hix (Bool.and_eq_true_iff.mp hcond).1 ht hp
    · have hrange : findRangeHint ix (.compare op c value) = some bm := by
        cases op <;> first | exact absurd rfl hop | exact h
      exact compareRange_bounds hix ht hp hrange
  | between c low high => exact findRangeHint_bounds hix ht hp h
  | isIn kind c values =>
    obtain ⟨hc, rfl⟩ := Option.ite_none_right_eq_some.mp h |>.imp_right Option.some.inj
    exact bounds_isIn hix hc ht
  | and a b iha ihb =>
    unfold findSetHint at h
    split at h
    · rename_i x y ha hb
      cases h
      have hax := iha ht.1 hp.1 ha
      refine ⟨fun r hr => ?_, fun r hr => hax.used r (Finset.mem_of_mem_inter_left hr)⟩
      obtain ⟨hra, hrb⟩ := Tri.and_eq_tt.mp hr
      exact Finset.mem_inter.mpr ⟨hax.covers r hra, (ihb ht.2 hp.2 hb).covers r hrb⟩
    · rename_i x ha hb
      cases h
      exact (iha ht.1 hp.1 ha).and_left
    · exact (ihb ht.2 hp.2 h).and_right
  | or a b iha ihb =>
    unfold findSetHint at h
    split at h
    · rename_i x y ha hb
      cases h
      have hax := iha ht.1 hp.1 ha
      have hby := ihb ht.2 hp.2 hb
      refine ⟨fun r hr => ?_, fun r hr => (Finset.mem_union.mp hr).elim (hax.used r) (hby.used r)⟩
      rcases Tri.or_eq_tt.mp hr with hra | hrb
      · exact Finset.mem_union_left _ (hax.covers r hra)
      · exact Finset.mem_union_right _ (hby.covers r hrb)
    · cases h
  | _ => cases h

end

variable {n : Nat}

omit [HostText] in
theorem Bounds.filter_sort (h : Bounds rows p bm) (hunused : ∀ r, n ≤ r → rows r = Row.null) :
    (bm.sort (· ≤ ·)).filter (fun r => p.truth (rows r) = .tt) =
      (range n).filter fun r => p.truth (rows r) = .tt := by
  have hlt : (bm.sort (· ≤ ·)).Pairwise (· < ·) := bm.sortedLT_sort.pairwise
  refine Pairwise.eq_of_mem_iff (hlt.filter _) (pairwise_lt_range.filter _) fun r => ?_
  simp only [mem_filter, Finset.mem_sort, mem_range, decide_eq_true_eq]
  constructor
  · rintro ⟨hr, htrue⟩
    refine ⟨?_, htrue⟩
    by_contra hge
    exact h.used r hr (hunused r (not_lt.mp hge))
  · rintro ⟨_, htrue⟩
    exact ⟨h.covers r htrue, htrue⟩

/-- **A plan loses no row**: the candidates that match are the rows of the store the
condition is true of, in row order. -/
theorem planCandidates_filter (hix : ix.Exact rows) (ht : p.Typed) (hp : p.Planned ix.indexedCols)
    (hunused : ∀ r, n ≤ r → rows r = Row.null) :
    (planCandidates p n (some ix)).rows.filter (fun r => p.compiled.holds (rows r)) =
      (range n).filter fun r => p.truth (rows r) = .tt := by
  have hholds : (fun r => p.compiled.holds (rows r)) = fun r => decide (p.truth (rows r) = .tt) := by
    simp [Pred.compiled, Pred.matches3vl_eq_truth ht]
  rw [hholds, planCandidates]
  cases hi : findIndexHint ix p with
  | some hint =>
    obtain ⟨col, key⟩ := hint
    have hb := findIndexHint_bounds hix ht hp hi
    dsimp only
    cases hkey : ix.rowsForKey col key with
    | some bm =>
      rw [hkey] at hb
      exact hb.filter_sort hunused
    | none =>
      -- a key that is not in the map: the empty range is the empty set
      rw [hkey] at hb
      have hempty := hb.filter_sort hunused
      rw [Option.getD_none, Finset.sort_empty] at hempty
      exact hempty
  | none =>
    cases hr : findRangeHint ix p with
    | some bm => exact (findRangeHint_bounds hix ht hp hr).filter_sort hunused
    | none =>
      cases hs : findSetHint ix p with
      | some bm => exact (findSetHint_bounds hix ht hp hs).filter_sort hunused
      | none => rfl

end Bounds

end CqServer
