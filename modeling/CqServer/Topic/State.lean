import CqServer.Store
import CqServer.Lib.SlotTable

/-!
# A topic's store state

`StoreState` of `topic.rs`: the rows, the key index and the free slots, with
the two mutations every write path ends in, `commit_values_locked` and the
removal of a key. Both run under the topic's write lock, so each is one atomic
step. Read through its keys, the state is a finite map from key text to row
(`contents`), and `commitValuesLocked_contents` and `removeKey_contents` say
what the two mutations do to that map.
-/

namespace CqServer

open Lib Option SlotTable

variable {σ : Schema}

/-- The part of `TopicConfig` the write paths read, with the two switches the
server sets on the topic itself. -/
structure TopicConfig where
  keyFields : List String
  expireSeconds : Option Nat := none
  sparseDeltaTxlog : Bool := false
  originId : String := ""
  persist : Bool := true
  deriving DecidableEq, Repr

/-- `key_col_indices`: a key field that is not a column is dropped. -/
def TopicConfig.keyColIndices (cfg : TopicConfig) (σ : Schema) : List σ.Col :=
  cfg.keyFields.filterMap σ.indexOf

/-! ## Record keys -/

def joinKey : List String → String
  | [part] => part
  | parts => String.intercalate "|" parts

/-- The text a typed value contributes to the record key. -/
def keyPartOfValue [HostText] : Value → Option String
  | .string (some s) => some s
  | .long n => some (displayI64 n)
  | .int n => some (displayI32 n)
  | .double f => some (HostText.displayF64 f)
  | _ => none

/-- The text a JSON value contributes to the record key. -/
def keyPartOfJson [HostText] : Json → Option String
  | .string s => some s
  | .number n => some n.render
  | _ => none

/-- `compute_key_with`: all key columns or no key. -/
def computeKeyWith [HostText] (vals : σ.Col → Value) (keyCols : List σ.Col) :
    Option String :=
  if keyCols = [] then none
  else (keyCols.mapM fun i => keyPartOfValue (vals i)).map joinKey

def computeKeyFromMap [HostText] (cfg : TopicConfig) (m : JsonMap) : Option String :=
  if cfg.keyFields = [] then none
  else (cfg.keyFields.mapM fun f => (m.get? f).bind keyPartOfJson).map joinKey

theorem computeKeyWith_congr [HostText] {v w : σ.Col → Value} {keyCols : List σ.Col}
    (h : ∀ i ∈ keyCols, v i = w i) : computeKeyWith v keyCols = computeKeyWith w keyCols := by
  have hm : (keyCols.mapM fun i => keyPartOfValue (v i)) =
      keyCols.mapM fun i => keyPartOfValue (w i) := by
    induction keyCols with
    | nil => rfl
    | cons i is ih =>
      rw [List.mapM_cons, List.mapM_cons, h i (by simp),
        ih fun j hj => h j (List.mem_cons_of_mem _ hj)]
  unfold computeKeyWith
  rw [hm]

theorem exists_of_mapM_eq_some {α β : Type} {f : α → Option β} {xs : List α} {ys : List β}
    (h : xs.mapM f = some ys) {x : α} (hx : x ∈ xs) : ∃ y, f x = some y := by
  induction xs generalizing ys with
  | nil => cases hx
  | cons x' xs ih =>
    simp only [List.mapM_cons, bind_eq_bind, bind_eq_some_iff] at h
    obtain ⟨y, hy, ys', hys', -⟩ := h
    rcases List.mem_cons.mp hx with rfl | hx
    · exact ⟨y, hy⟩
    · exact ih hys' hx

theorem computeKeyWith_ne_null [HostText] {v : σ.Col → Value} {keyCols : List σ.Col}
    {k : String} (h : computeKeyWith v keyCols = some k) {i : σ.Col} (hi : i ∈ keyCols) :
    v i ≠ .null := by
  unfold computeKeyWith at h
  split at h
  · cases h
  obtain ⟨parts, hparts, -⟩ := map_eq_some_iff.mp h
  obtain ⟨part, hpart⟩ := exists_of_mapM_eq_some hparts hi
  intro hnull
  rw [hnull] at hpart
  cases hpart

/-! ## The store state -/

structure StoreState (σ : Schema) where
  table : SlotTable String (Row σ)
  lastTouched : Nat → Option Nat

namespace StoreState

def build (σ : Schema) : StoreState σ := ⟨.empty Row.null, fun _ => none⟩

/-- The row a slot holds; a slot past the end is still the null row. -/
abbrev row (st : StoreState σ) (r : Nat) : Row σ := st.table.row r

def store (st : StoreState σ) : ColumnStore σ := ⟨st.table.rowCount, st.table.row⟩

def contents (st : StoreState σ) : String → Option (Row σ) := st.table.view

instance {st : StoreState σ} {P : String → Row σ → Prop} [∀ k r, Decidable (P k r)] :
    Decidable (∀ k r, st.contents k = some r → P k r) :=
  inferInstanceAs (Decidable (∀ k r, st.table.view k = some r → P k r))

@[simp] theorem contents_build : (build σ).contents = fun _ => none := by
  funext k
  simp [build, contents, view, empty]

section Commit
variable [HostText]

/-- `commit_values_locked`: update the key's row, or give a new key a freed or fresh slot. Without a
key the write collapses onto row 0, also on a keyed topic whose row has no key. -/
def commitValuesLocked (keyCols : List σ.Col) (now : Nat) (st : StoreState σ)
    (v : Values σ) : StoreState σ × Nat :=
  match computeKeyWith v.vals keyCols with
  | some key =>
    match st.table.keyToRow.lookup key with
    | some r =>
      (⟨st.table.modify r (·.update v), Function.update st.lastTouched r (some now)⟩, r)
    | none =>
      let r := st.table.nextSlot
      (⟨st.table.alloc key (·.write v), Function.update st.lastTouched r (some now)⟩, r)
  | none =>
    if 0 < st.table.rowCount then
      (⟨st.table.modify 0 (·.update v), Function.update st.lastTouched 0 (some now)⟩, 0)
    else
      (⟨st.table.push (·.write v), Function.update st.lastTouched 0 (some now)⟩, 0)

/-- What a publish of `v` leaves of a record: an update of the row it had, or a
new row. -/
def upsertRow (old : Option (Row σ)) (v : Values σ) : Row σ :=
  match old with
  | some r => r.update v
  | none => Row.null.write v

@[simp]
theorem upsertRow_cells (old : Option (Row σ)) (v : Values σ) (i : σ.Col) : (upsertRow old v).cells i =
    if v.vals i = .null then old.elim (Value.nullOf (σ.columnType i)) (·.cells i) else v.vals i := by
  cases old <;> simp [upsertRow]

/-- The three places a commit can write, as facts about the table. -/
theorem commitValuesLocked_cases (keyCols : List σ.Col) (now : Nat) (st : StoreState σ)
    (v : Values σ) :
    (∃ k r, computeKeyWith v.vals keyCols = some k ∧ st.table.keyToRow.lookup k = some r ∧
      (commitValuesLocked keyCols now st v).1.table = st.table.modify r (·.update v) ∧
      (commitValuesLocked keyCols now st v).2 = r) ∨
    (∃ k, computeKeyWith v.vals keyCols = some k ∧ st.table.keyToRow.lookup k = none ∧
      (commitValuesLocked keyCols now st v).1.table = st.table.alloc k (·.write v) ∧
      (commitValuesLocked keyCols now st v).2 = st.table.nextSlot) ∨
    (computeKeyWith v.vals keyCols = none ∧ (commitValuesLocked keyCols now st v).1.table =
        (if 0 < st.table.rowCount then st.table.modify 0 (·.update v)
          else st.table.push (·.write v)) ∧
      (commitValuesLocked keyCols now st v).2 = 0) := by
  unfold commitValuesLocked
  cases hk : computeKeyWith v.vals keyCols with
  | none =>
    refine .inr (.inr ⟨rfl, ?_, ?_⟩) <;> dsimp only <;> split <;> rfl
  | some k =>
    cases hr : st.table.keyToRow.lookup k with
    | some r => exact .inl ⟨k, r, rfl, hr, by simp [hr], by simp [hr]⟩
    | none => exact .inr (.inl ⟨k, rfl, hr, by simp [hr], by simp [hr]⟩)

variable {k : String} {keyCols : List σ.Col} {v : Values σ}

section
variable (hk : computeKeyWith v.vals keyCols = some k) (now : Nat) (st : StoreState σ)
include hk

/-- **A keyed commit is a map update**: it rewrites its own key's row and
leaves every other record as it was. -/
theorem commitValuesLocked_contents (k' : String) :
    (commitValuesLocked keyCols now st v).1.contents k' =
      if k' = k then some (upsertRow (st.contents k) v) else st.contents k' := by
  rcases commitValuesLocked_cases keyCols now st v with
    ⟨k₁, r, hk₁, hr, htab, -⟩ | ⟨k₁, hk₁, hr, htab, -⟩ | ⟨hnone, -⟩
  · cases hk₁.symm.trans hk
    rw [contents, htab, view_modify hr, contents, view_of_lookup hr]
    rfl
  · cases hk₁.symm.trans hk
    rw [contents, htab, view_alloc, contents, view_of_lookup_none hr, Row.write_eq_write _ Row.null]
    rfl
  · rw [hk] at hnone
    cases hnone

theorem commitValuesLocked_lookup :
    (commitValuesLocked keyCols now st v).1.table.keyToRow.lookup k =
      some (commitValuesLocked keyCols now st v).2 := by
  rcases commitValuesLocked_cases keyCols now st v with
    ⟨k₁, r, hk₁, hr, htab, hrow⟩ | ⟨k₁, hk₁, -, htab, hrow⟩ | ⟨hnone, -⟩
  · cases hk₁.symm.trans hk
    rw [htab, hrow, lookup_modify, hr]
  · cases hk₁.symm.trans hk
    rw [htab, hrow, lookup_alloc, if_pos rfl]
  · rw [hk] at hnone
    cases hnone

end

variable {r : Nat}

section
variable (keyCols : List σ.Col) (now : Nat) (st : StoreState σ) (v : Values σ)
  (h : r ≠ (commitValuesLocked keyCols now st v).2)
include h

theorem commitValuesLocked_row_ne :
    (commitValuesLocked keyCols now st v).1.row r = st.row r := by
  rcases commitValuesLocked_cases keyCols now st v with
    ⟨k, s, -, -, htab, hrow⟩ | ⟨k, -, -, htab, hrow⟩ | ⟨-, htab, hrow⟩
  · rw [hrow] at h
    simp [row, htab, SlotTable.modify, h]
  · rw [hrow] at h
    simp [row, htab, SlotTable.alloc, h]
  · rw [hrow] at h
    rw [row, htab]
    split
    · simp [SlotTable.modify, h]
    · have hc0 : st.table.rowCount = 0 := by omega
      simp [SlotTable.push, hc0, h]

theorem commitValuesLocked_live_ne :
    (commitValuesLocked keyCols now st v).1.table.Live r ↔ st.table.Live r := by
  rcases commitValuesLocked_cases keyCols now st v with
    ⟨k, s, -, -, htab, hrow⟩ | ⟨k, -, hlk, htab, hrow⟩ | ⟨-, htab, hrow⟩
  · rw [htab, live_modify]
  · rw [hrow] at h
    rw [htab, live_alloc hlk]
    simp [h]
  · rw [htab]
    split
    · exact live_modify _
    · exact live_push _

end

theorem commitValuesLocked_row_self (hk : computeKeyWith v.vals keyCols = some k) (now : Nat)
    (st : StoreState σ) :
    (commitValuesLocked keyCols now st v).1.row (commitValuesLocked keyCols now st v).2 =
      upsertRow (st.contents k) v := by
  have hlk := commitValuesLocked_lookup hk now st
  have hc := commitValuesLocked_contents hk now st k
  rw [contents, view_of_lookup hlk, if_pos rfl] at hc
  exact some.inj hc

end Commit

/-- The body `delete`, `delete_if_still_expired` and `replay_delete_origin` share: drop the key,
null its row, free its slot. -/
def removeKey (st : StoreState σ) (key : String) : Option (StoreState σ × Nat) :=
  (st.table.keyToRow.lookup key).map fun r => (⟨st.table.remove key Row.null, st.lastTouched⟩, r)

variable {key : String} {st : StoreState σ}

theorem removeKey_eq_none : st.removeKey key = none ↔ st.table.keyToRow.lookup key = none := by
  simp [removeKey]

variable {r : Nat} {st' : StoreState σ}

theorem removeKey_eq_some : st.removeKey key = some (st', r) ↔
      st.table.keyToRow.lookup key = some r ∧
        st' = ⟨st.table.remove key Row.null, st.lastTouched⟩ := by
  simp only [removeKey, map_eq_some_iff, Prod.mk.injEq]
  constructor
  · rintro ⟨r', hr', rfl, rfl⟩
    exact ⟨hr', rfl⟩
  · rintro ⟨hr, rfl⟩
    exact ⟨r, hr, rfl, rfl⟩

theorem removeKey_contents (h : st.removeKey key = some (st', r)) (k : String) :
    st'.contents k = if k = key then none else st.contents k := by
  obtain ⟨-, rfl⟩ := removeKey_eq_some.mp h
  exact view_remove _ _ _ _

theorem removeKey_row_self (h : st.removeKey key = some (st', r)) : st'.row r = Row.null := by
  obtain ⟨hr, rfl⟩ := removeKey_eq_some.mp h
  simp [row, remove_of_some hr, removeSlot]

variable {s : Nat}

theorem removeKey_row_ne (h : st.removeKey key = some (st', r)) (hs : s ≠ r) :
    st'.row s = st.row s := by
  obtain ⟨hr, rfl⟩ := removeKey_eq_some.mp h
  simp [row, remove_of_some hr, removeSlot, hs]

theorem removeKey_live (h : st.removeKey key = some (st', r)) :
    st'.table.Live s ↔ s ≠ r ∧ st.table.Live s := by
  obtain ⟨hr, rfl⟩ := removeKey_eq_some.mp h
  exact live_remove hr _

/-! ## Rows under their own key -/

section Keyed
variable [HostText]

def recordKey (keyCols : List σ.Col) (r : Row σ) : Option String := computeKeyWith r.cells keyCols

def Keyed (keyCols : List σ.Col) (st : StoreState σ) : Prop :=
  ∀ k r, st.contents k = some r → recordKey keyCols r = some k

variable {k : String} {keyCols : List σ.Col} {v : Values σ}

theorem upsertRow_recordKey (hk : computeKeyWith v.vals keyCols = some k) (old : Option (Row σ)) :
    recordKey keyCols (upsertRow old v) = some k := by
  rw [← hk]
  refine computeKeyWith_congr ?_
  intro i hi
  have hne : v.vals i ≠ .null := computeKeyWith_ne_null hk hi
  simp [hne]

theorem Keyed.build (keyCols : List σ.Col) : Keyed keyCols (StoreState.build σ) := by
  intro k r h
  simp at h

variable {st : StoreState σ}

theorem Keyed.commit (h : Keyed keyCols st) (hk : computeKeyWith v.vals keyCols = some k)
    (now : Nat) : Keyed keyCols (commitValuesLocked keyCols now st v).1 := by
  intro k' r hr
  rw [commitValuesLocked_contents hk] at hr
  split at hr
  · rename_i heq
    cases hr
    rw [heq]
    exact upsertRow_recordKey hk _
  · exact h k' r hr

theorem Keyed.remove {st st' : StoreState σ} (h : Keyed keyCols st) {key : String} {row : Nat}
    (hrem : st.removeKey key = some (st', row)) : Keyed keyCols st' := by
  intro k r hr
  rw [removeKey_contents hrem] at hr
  split at hr
  · cases hr
  · exact h k r hr

variable {r : Nat}

theorem Keyed.live (h : Keyed keyCols st) (hr : st.table.keyToRow.lookup k = some r) :
    recordKey keyCols (st.row r) = some k :=
  h k _ (view_of_lookup hr)

theorem Keyed.recordKey_commit (h : Keyed keyCols st) (hk : computeKeyWith v.vals keyCols = some k)
    (now : Nat) (hlive : st.table.Live r) :
    recordKey keyCols ((commitValuesLocked keyCols now st v).1.row r) =
      recordKey keyCols (st.row r) := by
  by_cases hr : r = (commitValuesLocked keyCols now st v).2
  · obtain ⟨k₀, hk₀⟩ := hlive
    have hafter := (h.commit hk now).live (commitValuesLocked_lookup hk now st)
    rw [← hr] at hafter
    rw [hafter, h.live hk₀]
    -- the slot was live, so the commit updated it under the key it had
    rcases commitValuesLocked_cases keyCols now st v with
      ⟨k₁, r₁, hk₁, hr₁, -, hrow⟩ | ⟨k₁, -, -, -, hrow⟩ | ⟨hnone, -⟩
    · cases hk₁.symm.trans hk
      rw [← hrow, ← hr] at hr₁
      rw [st.table.slot_inj hk₀ hr₁]
    · exact absurd ⟨k₀, (hr.trans hrow) ▸ hk₀⟩ st.table.nextSlot_not_live
    · rw [hk] at hnone
      cases hnone
  · rw [commitValuesLocked_row_ne keyCols now st v hr]

end Keyed

end StoreState

end CqServer
