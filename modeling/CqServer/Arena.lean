import CqServer.Lib.Run
import CqServer.Store

/-!
# The arrays of the columnar store

`ColumnStore` keeps one vector per column and one of row versions, all at least as long as its
capacity. Growing resizes every vector; shrinking truncates only those of four column types, so
the others stay longer until the next growth. An operation that indexes out of bounds fails.

A store created with capacity 0 never grows, and its first append is out of bounds
(`append_at_capacity_zero`); every other store stays sized (`arena_sized`) and holds the rows
of `ColumnStore`, whatever becomes of its vectors (`arena_refines_rows`).
-/

namespace CqServer

open Lib List

variable {σ : Schema}

abbrev Arena.Cells (σ : Schema) := σ.Col → List Value

structure Arena (σ : Schema) where
  cols : Arena.Cells σ
  rowVersions : List Nat
  rowCount : Nat
  capacity : Nat

namespace Arena

def resize {α : Type} (l : List α) (n : Nat) (x : α) : List α :=
  l.take n ++ replicate (n - l.length) x

def new (σ : Schema) (capacity : Nat) : Arena σ where
  cols i := replicate capacity (Value.nullOf (σ.columnType i))
  rowVersions := replicate capacity 0
  rowCount := 0
  capacity := capacity

def grownCapacity (capacity : Nat) : Nat :=
  if capacity < 65536 then capacity * 2 else capacity + max (capacity / 4) 65536

def grow (a : Arena σ) : Arena σ where
  cols i := resize (a.cols i) (grownCapacity a.capacity) (Value.nullOf (σ.columnType i))
  rowVersions := resize a.rowVersions (grownCapacity a.capacity) 0
  rowCount := a.rowCount
  capacity := grownCapacity a.capacity

/-- The column types whose vectors `shrink_to_fit` truncates. -/
def truncated : ColumnType → Bool
  | .double | .long | .int | .string => true
  | .bool | .timestamp | .bytes => false

def shrinkToFit (a : Arena σ) : Arena σ :=
  let target := max a.rowCount 1
  if a.capacity - target < 16384 then a
  else
    { a with
      cols := fun i => if truncated (σ.columnType i) then (a.cols i).take target else a.cols i
      rowVersions := a.rowVersions.take target
      capacity := target }

def Fits (n capacity : Nat) (cols : Cells σ) : Prop :=
  ∀ i, capacity ≤ (cols i).length ∧ ∀ v ∈ (cols i).drop n, v = Value.nullOf (σ.columnType i)

/-- The vectors are as long as the capacity, which is enough for the rows, and null behind them. -/
structure Sized (a : Arena σ) : Prop where
  cols : Fits a.rowCount a.capacity a.cols
  versions : a.capacity ≤ a.rowVersions.length
  count : a.rowCount ≤ a.capacity
  positive : 0 < a.capacity

variable {a : Arena σ} {n capacity row : Nat} {cols : Cells σ}

theorem Sized.new (h : 0 < capacity) : Sized (new σ capacity) where
  cols _ := ⟨length_replicate.ge, fun _ hv => eq_of_mem_replicate (mem_of_mem_drop hv)⟩
  versions := length_replicate.ge
  count := Nat.zero_le _
  positive := h

theorem mem_drop_of_take {α : Type} {l : List α} {m : Nat} {x : α} (h : x ∈ (l.take m).drop n) :
    x ∈ l.drop n := by
  rw [drop_take] at h
  exact mem_of_mem_take h

theorem length_resize {α : Type} (l : List α) (n : Nat) (x : α) : (resize l n x).length = n := by
  rw [resize, length_append, length_take, length_replicate]
  omega

theorem lt_grownCapacity (h : 0 < capacity) : capacity < grownCapacity capacity := by
  unfold grownCapacity
  split <;> omega

theorem Sized.grow (h : Sized a) : Sized a.grow := by
  have hlt := lt_grownCapacity h.positive
  refine ⟨fun i => ⟨(length_resize _ _ _).ge, fun v hv => ?_⟩, (length_resize _ _ _).ge,
    h.count.trans hlt.le, h.positive.trans hlt⟩
  dsimp only [Arena.grow, resize] at hv
  rw [drop_append] at hv
  rcases mem_append.mp hv with hold | hnew
  · exact (h.cols i).2 v (mem_drop_of_take hold)
  · exact eq_of_mem_replicate (mem_of_mem_drop hnew)

theorem Sized.shrinkToFit (h : Sized a) : Sized a.shrinkToFit := by
  rw [Arena.shrinkToFit]
  split
  · exact h
  · rename_i hslack
    have hcap : max a.rowCount 1 ≤ a.capacity := by omega
    refine ⟨fun i => ?_, ?_, Nat.le_max_left _ _, Nat.le_max_right _ _⟩
    · obtain ⟨hlen, hnull⟩ := h.cols i
      dsimp only
      split
      · rw [length_take]
        exact ⟨Nat.le_min.mpr ⟨le_rfl, hcap.trans hlen⟩, fun v hv =>
          hnull v (mem_drop_of_take hv)⟩
      · exact ⟨hcap.trans hlen, hnull⟩
    · rw [length_take]
      exact Nat.le_min.mpr ⟨le_rfl, hcap.trans h.versions⟩

section Writes
variable [HostText]

/-- `set` and `set_owned`; a value that a column ignores is looked up, too. -/
def set (cols : Cells σ) (i : σ.Col) (row : Nat) (v : Value) : Option (Cells σ) :=
  (cols i)[row]?.map fun old =>
    Function.update cols i ((cols i).set row (Value.setCell (σ.columnType i) old v))

/-- The loop over the values of a row, from a column on; values beyond the last column are
ignored. -/
def setFrom (row : Nat) (skipNull : Bool) : Cells σ → Nat → List Value → Option (Cells σ)
  | cols, _, [] => some cols
  | cols, col, v :: vs =>
    if h : col < σ.columnCount ∧ ¬ (skipNull = true ∧ v = .null) then
      (set cols ⟨col, h.1⟩ row v).bind fun cols => setFrom row skipNull cols (col + 1) vs
    else setFrom row skipNull cols (col + 1) vs

/-- A write to the columns of a row, between the two stamps of its version. -/
def write (a : Arena σ) (row : Nat) (stamp : Nat → Nat) (skipNull : Bool) (values : List Value) :
    Option (Arena σ) :=
  a.rowVersions[row]?.bind fun version =>
    (setFrom row skipNull a.cols 0 values).map fun cols =>
      { a with cols := cols, rowVersions := a.rowVersions.set row (stamp version) }

/-- `append_row` and `append_row_owned`; the count is a `u32`. -/
def appendRow (a : Arena σ) (values : List Value) : Option (Arena σ) :=
  let a := if a.capacity ≤ a.rowCount then a.grow else a
  (a.write a.rowCount (fun _ => 2) false values).map fun a =>
    { a with rowCount := (a.rowCount + 1) % 2 ^ 32 }

inductive Op where
  | appendRow (values : List Value)
  | appendRowOwned (values : List Value)
  | writeRowAt (slot : Nat) (values : List Value)
  | updateRow (row : Nat) (values : List Value)
  | nullOutRow (row : Nat)
  | shrinkToFit

def step (a : Arena σ) : Op → Option (Arena σ)
  | .appendRow values | .appendRowOwned values => a.appendRow values
  | .writeRowAt slot values => a.write slot (· + 2) false values
  | .updateRow row values => a.write row (· + 2) true values
  | .nullOutRow row => a.write row (· + 2) false (replicate σ.columnCount .null)
  | .shrinkToFit => some a.shrinkToFit

/-- Row indices are valid, and the count does not overflow. -/
def Ok (a : Arena σ) : Op → Prop
  | .appendRow _ | .appendRowOwned _ => a.rowCount + 1 < 2 ^ 32
  | .writeRowAt row _ | .updateRow row _ | .nullOutRow row => row < a.rowCount
  | .shrinkToFit => True

theorem Fits.set (h : Fits n capacity cols) (hrow : row < n) (hn : n ≤ capacity) (i : σ.Col)
    (v : Value) : ∃ cols', Arena.set cols i row v = some cols' ∧ Fits n capacity cols' := by
  have hlt : row < (cols i).length := (hrow.trans_le hn).trans_le (h i).1
  refine ⟨_, by rw [Arena.set, getElem?_eq_getElem hlt, Option.map_some], ?_⟩
  refine (Function.forall_update_iff cols fun j (l : List Value) => capacity ≤ l.length ∧
    ∀ v ∈ l.drop n, v = Value.nullOf (σ.columnType j)).mpr ⟨?_, fun j _ => h j⟩
  rw [length_set, drop_set_of_lt hrow]
  exact h i

theorem Fits.setFrom (h : Fits n capacity cols) (hrow : row < n) (hn : n ≤ capacity)
    (skipNull : Bool) (values : List Value) (col : Nat) :
    ∃ cols', Arena.setFrom row skipNull cols col values = some cols' ∧ Fits n capacity cols' := by
  induction values generalizing cols col with
  | nil => exact ⟨cols, rfl, h⟩
  | cons v values ih =>
    rw [Arena.setFrom]
    split
    · rename_i hcol
      obtain ⟨cols', hset, hfits⟩ := h.set hrow hn ⟨col, hcol.1⟩ v
      rw [hset, Option.bind_some]
      exact ih hfits (col + 1)
    · exact ih h (col + 1)

/-- A write to a row below `n` does not fail, and leaves the rows from `n` on null. -/
theorem Fits.write (h : Fits n a.capacity a.cols) (hrow : row < n) (hn : n ≤ a.capacity)
    (hversions : a.capacity ≤ a.rowVersions.length) (stamp : Nat → Nat) (skipNull : Bool)
    (values : List Value) : ∃ cols versions, Fits n a.capacity cols ∧
      a.capacity ≤ versions.length ∧
      a.write row stamp skipNull values = some { a with cols, rowVersions := versions } := by
  obtain ⟨cols', hset, hfits⟩ := h.setFrom hrow hn skipNull values 0
  have hlt : row < a.rowVersions.length := (hrow.trans_le hn).trans_le hversions
  refine ⟨cols', _, hfits, ?_, by
    rw [Arena.write, getElem?_eq_getElem hlt, Option.bind_some, hset, Option.map_some]⟩
  rw [length_set]
  exact hversions

theorem Sized.appendRow (h : Sized a) (hcount : a.rowCount + 1 < 2 ^ 32) (values : List Value) :
    ∃ a', a.appendRow values = some a' ∧ Sized a' := by
  -- the store has room for one more row
  obtain ⟨b, hb, hbcount, hsized, hroom⟩ : ∃ b : Arena σ,
      (if a.capacity ≤ a.rowCount then a.grow else a) = b ∧ b.rowCount = a.rowCount ∧ Sized b ∧
        b.rowCount < b.capacity := by
    split
    · exact ⟨_, rfl, rfl, h.grow, h.count.trans_lt (lt_grownCapacity h.positive)⟩
    · exact ⟨_, rfl, rfl, h, by omega⟩
  have hfits : Fits (b.rowCount + 1) b.capacity b.cols :=
    fun i => ⟨(hsized.cols i).1, fun v hv =>
      (hsized.cols i).2 v (drop_subset_drop_left _ (Nat.le_succ _) hv)⟩
  obtain ⟨cols', versions, hcols, hlen, hwrite⟩ :=
    hfits.write (Nat.lt_succ_self _) hroom hsized.versions (fun _ => 2) false values
  refine ⟨_, by rw [Arena.appendRow, hb, hwrite, Option.map_some], ?_⟩
  rw [← hbcount] at hcount
  rw [Nat.mod_eq_of_lt hcount]
  exact ⟨hcols, hlen, hroom, hsized.positive⟩

/-- **An operation** on a valid row does not fail, and leaves the store sized. -/
theorem Sized.step (h : Sized a) {op : Op} (hok : Ok a op) :
    ∃ a', a.step op = some a' ∧ Sized a' := by
  have hwrite : ∀ row < a.rowCount, ∀ stamp skipNull values,
      ∃ a', a.write row stamp skipNull values = some a' ∧ Sized a' := by
    intro row hrow stamp skipNull values
    obtain ⟨cols, versions, hcols, hlen, hwrite⟩ :=
      h.cols.write hrow h.count h.versions stamp skipNull values
    exact ⟨_, hwrite, hcols, hlen, h.count, h.positive⟩
  cases op with
  | appendRow values | appendRowOwned values => exact h.appendRow hok values
  | writeRowAt row values | updateRow row values => exact hwrite row hok _ _ _
  | nullOutRow row => exact hwrite row hok _ _ _
  | shrinkToFit => exact ⟨_, rfl, h.shrinkToFit⟩

/-- **Sizing.** In every sequence of operations on a store that was created with room, on valid
rows, the store is sized and the next operation does not fail. -/
theorem arena_sized {ops : List Op} (hcap : 0 < capacity)
    (hrun : Run Arena.step Ok (.new σ capacity) ops a) :
    Sized a ∧ ∀ op, Ok a op → ∃ a', a.step op = some a' := by
  have hsized : Sized a := by
    refine hrun.invariant (fun b op b' hb hok hstep => ?_) (.new hcap)
    obtain ⟨b'', hb'', hs⟩ := hb.step hok
    cases hstep.symm.trans hb''
    exact hs
  exact ⟨hsized, fun op hok => (hsized.step hok).imp fun _ h => h.1⟩

end Writes

/-! ## The rows -/

/-- The vectors hold the cells of the rows; where one has ended, the cell is null. -/
structure Shows (a : Arena σ) (s : ColumnStore σ) : Prop where
  count : a.rowCount = s.rowCount
  cells : ∀ i r, (a.cols i)[r]?.getD (Value.nullOf (σ.columnType i)) = (s.row r).cells i

section
variable {α : Type} {l : List α} {m r : Nat} {x : α} (h : ∀ y ∈ l.drop n, y = x)
include h

theorem getD_of_drop (hr : n ≤ r) : l[r]?.getD x = x := by
  cases hl : l[r]? with
  | none => rfl
  | some y =>
    refine h y (mem_of_getElem? (i := r - n) ?_)
    rw [getElem?_drop, Nat.add_sub_cancel' hr, hl]

theorem getD_take (hm : n ≤ m) : (l.take m)[r]?.getD x = l[r]?.getD x := by
  rw [getElem?_take]
  split
  · rfl
  · exact (getD_of_drop h (by omega)).symm

theorem getD_resize (hm : n ≤ m) : (resize l m x)[r]?.getD x = l[r]?.getD x := by
  rw [resize, ← getD_take h hm, getElem?_append]
  split
  · rfl
  · rename_i hr
    rw [getElem?_eq_none (not_lt.mp hr), getElem?_replicate]
    split <;> rfl

end

variable {s : ColumnStore σ}

theorem Shows.grow (h : Shows a s) (hsized : Sized a) : Shows a.grow s where
  count := h.count
  cells i r := by
    have hlt := lt_grownCapacity hsized.positive
    exact (getD_resize (hsized.cols i).2 (hsized.count.trans hlt.le)).trans (h.cells i r)

theorem Shows.shrinkToFit (h : Shows a s) (hsized : Sized a) : Shows a.shrinkToFit s := by
  rw [Arena.shrinkToFit]
  split
  · exact h
  · refine ⟨h.count, fun i r => ?_⟩
    rw [← h.cells]
    dsimp only
    split
    · exact getD_take (hsized.cols i).2 (Nat.le_max_left _ _)
    · rfl

section Rows
variable [HostText]

/-- A cell after a write of a value, if there is one for its column. -/
def written (skipNull : Bool) (ty : ColumnType) (old : Value) : Option Value → Value
  | some v => if skipNull = true ∧ v = .null then old else Value.setCell ty old v
  | none => old

def put (skipNull : Bool) (values : List Value) (r : Row σ) : Row σ where
  cells i := written skipNull (σ.columnType i) (r.cells i) values[(i : Nat)]?
  typed i := by
    unfold written
    split
    · split
      · exact r.typed i
      · exact Value.hasType_setCell _ (r.typed i)
    · exact r.typed i

theorem put_replicate_null (r : Row σ) : put false (replicate σ.columnCount .null) r = .null := by
  ext i
  simp [put, written, Row.null, Value.setCell_null]

/-- What an operation does to the rows. -/
def Op.apply (s : ColumnStore σ) : Op → ColumnStore σ
  | .appendRow values | .appendRowOwned values =>
    ⟨s.rowCount + 1, Function.update s.row s.rowCount (put false values .null)⟩
  | .writeRowAt row values => ⟨s.rowCount, Function.update s.row row (put false values (s.row row))⟩
  | .updateRow row values => ⟨s.rowCount, Function.update s.row row (put true values (s.row row))⟩
  | .nullOutRow row => ⟨s.rowCount, Function.update s.row row .null⟩
  | .shrinkToFit => s

/-- The value for a column, of those for the columns from `col` on. -/
def valueFor (col : Nat) (values : List Value) (i : Nat) : Option Value :=
  if col ≤ i then values[i - col]? else none

omit [HostText] in
theorem valueFor_cons (col : Nat) (v : Value) (values : List Value) (i : Nat) :
    valueFor col (v :: values) i = if i = col then some v else valueFor (col + 1) values i := by
  grind [valueFor]

theorem setFrom_cells {skipNull : Bool} {values : List Value} {col : Nat} {cols' : Cells σ}
    (h : setFrom row skipNull cols col values = some cols') (i : σ.Col) (r : Nat) :
    (cols' i)[r]? = (cols i)[r]?.map fun old =>
      if r = row then written skipNull (σ.columnType i) old (valueFor col values i) else old := by
  induction values generalizing cols col with
  | nil =>
    cases h
    simp [valueFor, written]
  | cons v values ih =>
    rw [setFrom] at h
    simp only [valueFor_cons]
    by_cases hi : (i : Nat) = col
    · subst hi
      have hpast : valueFor (i + 1) values i = none := if_neg (by omega)
      split at h
      · rename_i hcol
        obtain ⟨cols₁, hset, hrest⟩ := Option.bind_eq_some_iff.mp h
        obtain ⟨old, hold, rfl⟩ := Option.map_eq_some_iff.mp hset
        have hlt := (List.getElem?_eq_some_iff.mp hold).1
        rw [ih hrest, hpast, Function.update_self, getElem?_set]
        by_cases hr : r = row
        · subst hr
          rw [if_pos rfl, if_pos hlt, show (cols i)[r]? = some old from hold]
          simp [written, hcol.2]
        · simp [hr, Ne.symm hr]
      · rename_i hcol
        have hskip : skipNull = true ∧ v = .null := by
          by_contra hne
          exact hcol ⟨i.isLt, hne⟩
        rw [ih h, hpast]
        simp [written, hskip]
    · rw [if_neg hi]
      split at h
      · obtain ⟨cols₁, hset, hrest⟩ := Option.bind_eq_some_iff.mp h
        obtain ⟨old, -, rfl⟩ := Option.map_eq_some_iff.mp hset
        rw [ih hrest, Function.update_of_ne fun he => hi (congrArg Fin.val he)]
      · exact ih h

theorem Shows.write {a' : Arena σ} {stamp : Nat → Nat} {skipNull : Bool} {values : List Value}
    (h : Shows a s) (hsized : Sized a) (hrow : row < a.capacity)
    (hwrite : a.write row stamp skipNull values = some a') :
    Shows a' ⟨s.rowCount, Function.update s.row row (put skipNull values (s.row row))⟩ := by
  obtain ⟨version, -, hcols⟩ := Option.bind_eq_some_iff.mp hwrite
  obtain ⟨cols', hset, rfl⟩ := Option.map_eq_some_iff.mp hcols
  refine ⟨h.count, fun i r => ?_⟩
  have hcell := h.cells i r
  rw [setFrom_cells hset]
  by_cases hr : r = row
  · subst hr
    have hlt := hrow.trans_le (hsized.cols i).1
    rw [getElem?_eq_getElem hlt] at hcell ⊢
    simp [put, valueFor, ← hcell]
  · simp [hr, hcell]

theorem Shows.appendRow {a' : Arena σ} {values : List Value} (h : Shows a s) (hsized : Sized a)
    (hcount : a.rowCount + 1 < 2 ^ 32) (happend : a.appendRow values = some a') :
    Shows a' ((Op.appendRow values).apply s) := by
  obtain ⟨b, hb, hbcount, hbsized, hshows, hroom⟩ : ∃ b : Arena σ,
      (if a.capacity ≤ a.rowCount then a.grow else a) = b ∧ b.rowCount = a.rowCount ∧ Sized b ∧
        Shows b s ∧ b.rowCount < b.capacity := by
    split
    · exact ⟨_, rfl, rfl, hsized.grow, h.grow hsized,
        hsized.count.trans_lt (lt_grownCapacity hsized.positive)⟩
    · exact ⟨_, rfl, rfl, hsized, h, by omega⟩
  -- the slot behind the rows is still null
  have hnull : s.row b.rowCount = .null := by
    ext i
    rw [← hshows.cells]
    exact getD_of_drop (hbsized.cols i).2 le_rfl
  rw [Arena.appendRow, hb] at happend
  obtain ⟨c, hwrite, rfl⟩ := Option.map_eq_some_iff.mp happend
  have hc := hshows.write hbsized hroom hwrite
  rw [hnull, hshows.count] at hc
  refine ⟨?_, hc.cells⟩
  rw [h.count] at hcount
  exact (congrArg (fun n => (n + 1) % 2 ^ 32) hc.count).trans (Nat.mod_eq_of_lt hcount)

theorem Shows.step {op : Op} {a' : Arena σ} (h : Shows a s) (hsized : Sized a) (hok : Ok a op)
    (hstep : a.step op = some a') : Shows a' (op.apply s) := by
  cases op with
  | appendRow values | appendRowOwned values => exact h.appendRow hsized hok hstep
  | writeRowAt row values | updateRow row values =>
    exact h.write hsized (Nat.lt_of_lt_of_le hok hsized.count) hstep
  | nullOutRow row =>
    have hwrite := h.write hsized (Nat.lt_of_lt_of_le hok hsized.count) hstep
    rwa [put_replicate_null] at hwrite
  | shrinkToFit =>
    cases hstep
    exact h.shrinkToFit hsized

/-- **Refinement.** After every sequence of operations the vectors, grown and shrunk on the way,
hold what the same operations make of the rows one by one. -/
theorem arena_refines_rows {ops : List Op} (hcap : 0 < capacity)
    (hrun : Run Arena.step Ok (.new σ capacity) ops a) :
    Shows a (ops.foldl Op.apply ⟨0, fun _ => .null⟩) := by
  refine (hrun.foldl (R := fun a s => Sized a ∧ Shows a s) ?_ ⟨.new hcap, rfl, fun i r => ?_⟩).2
  · intro a op a' s ⟨hsized, hshows⟩ hok hstep
    obtain ⟨a'', ha'', hsized'⟩ := hsized.step hok
    cases hstep.symm.trans ha''
    exact ⟨hsized', hshows.step hsized hok hstep⟩
  · exact getD_of_drop (n := 0) (fun y hy => eq_of_mem_replicate hy) (Nat.zero_le r)

end Rows

/-! ## A store of flags -/

open Unused

def flags : Schema := ⟨[⟨"up", .bool⟩]⟩

theorem arena_sized_grown : ∃ a : Arena flags,
    Run Arena.step Ok (.new flags 1) [.appendRow [.bool (some true)], .appendRow []] a ∧
      a.capacity = 2 ∧ Sized a ∧ ∀ op, Ok a op → ∃ a', a.step op = some a' :=
  have hrun := .cons (show 1 < 2 ^ 32 by decide) rfl (.cons (show 2 < 2 ^ 32 by decide) rfl .nil)
  ⟨_, hrun, rfl, arena_sized Nat.one_pos hrun⟩

theorem arena_refines_rows_grown : ∃ a : Arena flags,
    Run Arena.step Ok (.new flags 1) [.appendRow [.bool (some true)], .appendRow []] a ∧
      a.capacity = 2 ∧
        Shows a ([.appendRow [.bool (some true)], .appendRow []].foldl Op.apply ⟨0, fun _ => .null⟩) :=
  have hrun := .cons (show 1 < 2 ^ 32 by decide) rfl (.cons (show 2 < 2 ^ 32 by decide) rfl .nil)
  ⟨_, hrun, rfl, arena_refines_rows Nat.one_pos hrun⟩

/-- Doubling nothing is nothing. -/
theorem append_at_capacity_zero :
    Ok (.new flags 0) (.appendRow []) ∧ (Arena.new flags 0).step (.appendRow []) = none :=
  ⟨show 1 < 2 ^ 32 by decide, rfl⟩

end Arena

end CqServer
