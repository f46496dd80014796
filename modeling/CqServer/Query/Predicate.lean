import CqServer.Sql.Compile

/-!
# Compiled conditions

The tree of `CompiledPredicate`: comparisons, BETWEEN and IN of a column with
literals, under AND, OR and NOT. `matches3vl` reads a cell from the array its
leaf was compiled for, at the column's place among the columns of its own type;
`truth` is what the condition says of the row. The two agree where every leaf is
on a column of its literals' type (`matches3vl_eq_truth`). A comparison on an
`Int` column is compiled to a `Long` leaf, so it reads another column.
-/

namespace CqServer

variable {σ : Schema}

/-! ## Literals -/

/-- A literal of a comparison, by the array it is compared with. -/
inductive Scalar where
  | double (f : F64)
  | long (n : Int64)
  | string (s : String)
  | bool (b : Bool)
  | timestamp (micros : Int64)
  deriving DecidableEq, Repr

namespace Scalar

def kind : Scalar → ColumnType
  | .double _ => .double
  | .long _ => .long
  | .string _ => .string
  | .bool _ => .bool
  | .timestamp _ => .timestamp

/-- `partial_cmp`. -/
def cmp : Scalar → Scalar → Option Ordering
  | .double f, .double g =>
    if f.isNan || g.isNan then none else some (compare f.signedMagnitude g.signedMagnitude)
  | .long m, .long n => some (compare m.toInt n.toInt)
  | .string s, .string t => some (compare s t)
  | .bool a, .bool b => some (compare a b)
  | .timestamp s, .timestamp t => some (compare s.toInt t.toInt)
  | _, _ => none

def isZero : Scalar → Bool
  | .double f => f.isZero
  | _ => false

end Scalar

inductive CmpOp where
  | eq | neq | lt | le | gt | ge
  deriving DecidableEq, Repr

/-- The operator holds of two values that compare this way; a NaN only differs. -/
def CmpOp.holds : CmpOp → Option Ordering → Bool
  | .eq, o => o = some .eq
  | .neq, o => o ≠ some .eq
  | .lt, o => o = some .lt
  | .le, o => o = some .lt ∨ o = some .eq
  | .gt, o => o = some .gt
  | .ge, o => o = some .gt ∨ o = some .eq

/-- What a cell compares as; nulls and bytes do not. -/
def Value.scalar : Value → Option Scalar
  | .double f => if f.isNan then none else some (.double f)
  | .long n => if n = nullLong then none else some (.long n)
  | .int n => if n = nullInt then none else some (.long n.toInt64)
  | .string s => s.map .string
  | .bool b => b.map .bool
  | .timestamp t => if t = nullTimestamp then none else some (.timestamp t)
  | .bytes _ => none
  | .null => none

/-- `ColumnMapping::array_index`: the columns of one type, counted. -/
def Schema.arrayIndex (σ : Schema) (c : σ.Col) : Nat :=
  ((σ.cols.take c).filter fun i => σ.columnType i = σ.columnType c).length

/-- `get_double`, `get_long` and the other accessors: the array of the type, at the
column's place among the columns of its own type. Past the arrays of that type the
access panics; the null stands for it here. -/
def Row.array (r : Row σ) (ty : ColumnType) (c : σ.Col) : Value :=
  match (σ.cols.filter fun i => σ.columnType i = ty)[σ.arrayIndex c]? with
  | some i => r.cells i
  | none => Value.nullOf ty

/-- On a column of its own type an accessor reads the column's cell. -/
theorem Row.array_self (r : Row σ) (c : σ.Col) : r.array (σ.columnType c) c = r.cells c := by
  have hlen : (c : Nat) < σ.cols.length := by simp [Schema.cols]
  have hat : σ.cols[(c : Nat)] = c := by simp [Schema.cols]
  have hsplit : σ.cols.filter (fun i => σ.columnType i = σ.columnType c) =
      (σ.cols.take c).filter (fun i => σ.columnType i = σ.columnType c) ++
        c :: (σ.cols.drop (c + 1)).filter (fun i => σ.columnType i = σ.columnType c) := by
    conv_lhs => rw [← List.take_append_drop c σ.cols]
    rw [List.drop_eq_getElem_cons hlen, hat, List.filter_append, List.filter_cons_of_pos (by simp)]
  have hget : (σ.cols.filter fun i => σ.columnType i = σ.columnType c)[σ.arrayIndex c]? = some c := by
    rw [hsplit, Schema.arrayIndex]
    simp
  rw [Row.array, hget]

/-! ## Conditions -/

/-- `CompiledPredicate`. The leaves the index planner never looks at (LIKE, the null
tests, string functions, arithmetic) are conditions of their own. -/
inductive Pred (σ : Schema) where
  | compare (op : CmpOp) (col : σ.Col) (value : Scalar)
  | between (col : σ.Col) (low high : Scalar)
  | isIn (kind : ColumnType) (col : σ.Col) (values : List Scalar)
  | leaf (c : Condition σ)
  | and (l r : Pred σ)
  | or (l r : Pred σ)
  | not (p : Pred σ)
  | always

/-- `tri`. -/
def Tri.ofBool (b : Bool) : Tri := if b then .tt else .ff

theorem Tri.or_eq_tt {a b : Tri} : a.or b = .tt ↔ a = .tt ∨ b = .tt := by
  cases a <;> cases b <;> simp [Tri.or]

@[simp] theorem Tri.ofBool_eq_tt {b : Bool} : Tri.ofBool b = .tt ↔ b = true := by
  cases b <;> simp [Tri.ofBool]

namespace Pred

/-- A null read from an array passes `NeqDouble`, `NeqLong` and `NeqString`. -/
def nullDiffers : ColumnType → Bool
  | .bool | .timestamp => false
  | _ => true

/-- `matches_leaf_bool` of a comparison. -/
def compareLeaf (op : CmpOp) (cell : Value) (value : Scalar) : Bool :=
  match cell.scalar with
  | some v => op.holds (v.cmp value)
  | none => op = .neq ∧ nullDiffers value.kind

def betweenLeaf (cell : Value) (low high : Scalar) : Bool :=
  match cell.scalar with
  | some v => CmpOp.ge.holds (v.cmp low) && CmpOp.le.holds (v.cmp high)
  | none => false

/-- The values of an IN list are a hash set: doubles are the same where their bits are. -/
def inLeaf (cell : Value) (values : List Scalar) : Bool :=
  match cell.scalar with
  | some v => v ∈ values
  | none => false

def matches3vl (r : Row σ) : Pred σ → Tri
  | .compare op col value =>
    if (r.cells col).isNull then .unknown
    else .ofBool (compareLeaf op (r.array value.kind col) value)
  | .between col low high =>
    if (r.cells col).isNull then .unknown
    else .ofBool (betweenLeaf (r.array low.kind col) low high)
  | .isIn kind col values =>
    if (r.cells col).isNull then .unknown else .ofBool (inLeaf (r.array kind col) values)
  | .leaf c => c.eval r
  | .and a b => (matches3vl r a).and (matches3vl r b)
  | .or a b => (matches3vl r a).or (matches3vl r b)
  | .not p => (matches3vl r p).not
  | .always => .tt

def reads : Pred σ → Reads σ
  | .compare _ col _ | .between col _ _ | .isIn _ col _ => .column col
  | .leaf c => c.reads
  | .and a b | .or a b => .both a.reads b.reads
  | .not p => p.reads
  | .always => .nothing

def compiled (p : Pred σ) : CompiledPredicate σ := ⟨fun r => p.matches3vl r = .tt, p.reads⟩

/-- A comparison with a null is unknown; values compare as numbers and texts do. -/
def truth (r : Row σ) : Pred σ → Tri
  | .compare op col value =>
    match (r.cells col).scalar with
    | some v => .ofBool (op.holds (v.cmp value))
    | none => .unknown
  | .between col low high =>
    match (r.cells col).scalar with
    | some v => .ofBool (CmpOp.ge.holds (v.cmp low) && CmpOp.le.holds (v.cmp high))
    | none => .unknown
  | .isIn _ col values =>
    match (r.cells col).scalar with
    | some v => .ofBool (values.any fun w => CmpOp.eq.holds (v.cmp w))
    | none => .unknown
  | .leaf c => c.eval r
  | .and a b => (truth r a).and (truth r b)
  | .or a b => (truth r a).or (truth r b)
  | .not p => (truth r p).not
  | .always => .tt

/-- Every comparison is on a column of its literals' type, and no IN list of doubles
has a zero (the two zeros are equal and have different bits). -/
def Typed : Pred σ → Prop
  | .compare _ col value => σ.columnType col = value.kind
  | .between col low high => σ.columnType col = low.kind ∧ low.kind = high.kind
  | .isIn kind col values => σ.columnType col = kind ∧ kind ≠ .int ∧ kind ≠ .bytes ∧
      ∀ v ∈ values, v.isZero = false
  | .and a b | .or a b => a.Typed ∧ b.Typed
  | .not p => p.Typed
  | .leaf _ | .always => True

end Pred

/-! ## The orders of the doubles -/

namespace F64

theorem sign_iff (b : UInt64) : b >>> 63 = 1 ↔ 2 ^ 63 ≤ b.toNat := by
  rw [← UInt64.toNat_inj]
  have := b.toNat_lt
  simp
  omega

theorem magnitude_toNat (b : UInt64) : (b &&& 0x7fffffffffffffff).toNat = b.toNat % 2 ^ 63 := by
  exact Nat.and_two_pow_sub_one_eq_mod b.toNat 63

theorem signedMagnitude_eq (f : F64) : f.signedMagnitude =
    if f.bits.toNat < 2 ^ 63 then (f.bits.toNat : Int) else 2 ^ 63 - (f.bits.toNat : Int) := by
  have hlt := f.bits.toNat_lt
  unfold signedMagnitude
  rw [magnitude_toNat]
  by_cases hs : f.bits.toNat < 2 ^ 63
  · rw [if_neg (by rw [sign_iff]; omega), if_pos hs, Nat.mod_eq_of_lt hs]
  · rw [if_pos (by rw [sign_iff]; omega)]
    omega

theorem isZero_iff (f : F64) : f.isZero = true ↔ f.signedMagnitude = 0 := by
  have hzero : f.isZero = true ↔ f.bits.toNat % 2 ^ 63 = 0 := by
    rw [← magnitude_toNat]
    simp [isZero, ← UInt64.toNat_inj]
  have hlt := f.bits.toNat_lt
  rw [hzero, signedMagnitude_eq]
  split <;> omega

/-- Of the doubles only the two zeros have the same magnitude and different bits. -/
theorem eq_of_signedMagnitude {f g : F64} (h : f.signedMagnitude = g.signedMagnitude)
    (hg : g.isZero = false) : f = g := by
  have hne : g.signedMagnitude ≠ 0 := fun h0 => by
    rw [(isZero_iff g).mpr h0] at hg
    cases hg
  have hbits : f.bits.toNat = g.bits.toNat := by
    rw [signedMagnitude_eq, signedMagnitude_eq] at h
    rw [signedMagnitude_eq] at hne
    split at h <;> omega
  cases f
  cases g
  exact congrArg F64.mk (UInt64.toNat_inj.mp hbits)

end F64

namespace Scalar

theorem eq_of_cmp {v w : Scalar} (h : v.cmp w = some .eq) (hw : w.isZero = false) : v = w := by
  cases v <;> cases w <;> simp only [cmp, Option.some.injEq, reduceCtorEq] at h
  case double.double f g =>
    split at h
    · cases h
    · have heq := Std.LawfulEqCmp.eq_of_compare (Option.some.inj h)
      rw [F64.eq_of_signedMagnitude heq hw]
  case long.long m n => rw [Int64.toInt_inj.mp (Std.LawfulEqCmp.eq_of_compare h)]
  case string.string s t => rw [compare_eq_iff_eq.mp h]
  case bool.bool a b => rw [compare_eq_iff_eq.mp h]
  case timestamp.timestamp s t => rw [Int64.toInt_inj.mp (Std.LawfulEqCmp.eq_of_compare h)]

theorem cmp_self {v : Scalar} (h : ∀ f, v = .double f → f.isNan = false) : v.cmp v = some .eq := by
  cases v with
  | double f => simp [cmp, h f rfl]
  | _ => simp [cmp]

end Scalar

/-! ## Nulls -/

theorem Value.scalar_of_isNull {v : Value} (h : v.isNull = true) : v.scalar = none := by
  cases v with
  | double f => simpa [Value.scalar, isNull] using h
  | long n => simpa [Value.scalar, isNull] using h
  | int n => simpa [Value.scalar, isNull] using h
  | timestamp t => simpa [Value.scalar, isNull] using h
  | string s => simpa [Value.scalar, isNull] using h
  | bool b => simpa [Value.scalar, isNull] using h
  | _ => rfl

theorem Value.scalar_isSome {v : Value} (h : v.isNull = false) (hb : Value.hasType .bytes v = false) :
    v.scalar.isSome = true := by
  cases v with
  | double f | long n | int n | timestamp t => simp_all [Value.scalar, isNull]
  | string s => cases s <;> simp_all [Value.scalar, isNull]
  | bool b => cases b <;> simp_all [Value.scalar, isNull]
  | bytes b => cases hb
  | null => cases h

theorem Value.not_bytes {ty : ColumnType} {v : Value} (h : Value.hasType ty v = true)
    (hb : ty ≠ .bytes) : Value.hasType .bytes v = false := by
  cases v with
  | bytes b => cases ty <;> first | exact absurd rfl hb | cases h
  | _ => rfl

theorem Value.scalar_not_nan {v : Value} {f : F64} (h : v.scalar = some (.double f)) :
    f.isNan = false := by
  cases v with
  | double g =>
    simp only [Value.scalar] at h
    split at h
    · cases h
    · cases h
      simpa using ‹¬ f.isNan = true›
  | long n | int n | timestamp t => simp only [Value.scalar] at h; split at h <;> cases h
  | string s => cases s <;> cases h
  | bool b => cases b <;> cases h
  | _ => cases h

theorem Scalar.kind_ne_bytes (v : Scalar) : v.kind ≠ .bytes := by
  cases v <;> nofun

namespace Pred

/-- A row's cell of a column that is not of type bytes is null or compares. -/
theorem scalar_cases (r : Row σ) {c : σ.Col} {ty : ColumnType} (hc : σ.columnType c = ty)
    (hb : ty ≠ .bytes) :
    ((r.cells c).isNull = true ∧ (r.cells c).scalar = none) ∨
      ((r.cells c).isNull = false ∧ ∃ v, (r.cells c).scalar = some v) := by
  cases hn : (r.cells c).isNull with
  | true => exact .inl ⟨rfl, Value.scalar_of_isNull hn⟩
  | false =>
    have hcell := Value.not_bytes (r.typed c) (hc ▸ hb)
    exact .inr ⟨rfl, Option.isSome_iff_exists.mp (Value.scalar_isSome hn hcell)⟩

/-- **The evaluator computes the condition** where its leaves fit their columns. -/
theorem matches3vl_eq_truth {p : Pred σ} (h : p.Typed) (r : Row σ) : p.matches3vl r = p.truth r := by
  induction p with
  | compare op col value =>
    have hcol : σ.columnType col = value.kind := h
    simp only [matches3vl, truth, ← hcol, Row.array_self]
    rcases scalar_cases r hcol value.kind_ne_bytes with ⟨hn, hs⟩ | ⟨hn, v, hs⟩
    · simp [hn, hs]
    · simp [hn, hs, compareLeaf]
  | between col low high =>
    have hcol : σ.columnType col = low.kind := h.1
    simp only [matches3vl, truth, ← hcol, Row.array_self]
    rcases scalar_cases r hcol low.kind_ne_bytes with ⟨hn, hs⟩ | ⟨hn, v, hs⟩
    · simp [hn, hs]
    · simp [hn, hs, betweenLeaf]
  | isIn kind col values =>
    obtain ⟨hcol, _, hbytes, hz⟩ := h
    simp only [matches3vl, truth, ← hcol, Row.array_self]
    rcases scalar_cases r hcol hbytes with ⟨hn, hs⟩ | ⟨hn, v, hs⟩
    · simp [hn, hs]
    have hnan : ∀ f, v = .double f → f.isNan = false := by
      rintro f rfl
      exact Value.scalar_not_nan hs
    simp only [hn, hs, inLeaf]
    refine congrArg Tri.ofBool (Bool.eq_iff_iff.mpr (decide_eq_true_iff.trans ?_))
    rw [List.any_eq_true]
    -- in a list without zeros, membership is equality with an entry
    constructor
    · intro hmem
      exact ⟨v, hmem, by simp [CmpOp.holds, Scalar.cmp_self hnan]⟩
    · rintro ⟨w, hw, heq⟩
      have hcmp : v.cmp w = some .eq := by simpa [CmpOp.holds] using heq
      rw [Scalar.eq_of_cmp hcmp (hz w hw)]
      exact hw
  | leaf c => rfl
  | and a b iha ihb | or a b iha ihb => rw [matches3vl, truth, iha h.1, ihb h.2]
  | not p ih => rw [matches3vl, truth, ih h]
  | always => rfl

end Pred

end CqServer
