import CqServer.Query
import Mathlib.Data.List.AList

/-!
# The predicate index

`predicate_index.rs`: which subscriptions reference which column, with the
subscriptions that reference none kept apart. The index carries the agreement
of its three maps, so that `mem_affected` can say exactly which subscriptions
a set of changed columns reaches.
-/

namespace CqServer

open AList

variable {σ : Schema}

/-- `PredicateIndex`. A column without subscribers has an empty list. -/
structure PredicateIndex (σ : Schema) where
  colToSubs : σ.Col → List String
  alwaysSubs : List String
  subToCols : AList (fun _ : String => List σ.Col)
  col_iff : ∀ c id, id ∈ colToSubs c ↔ ∃ cols, subToCols.lookup id = some cols ∧ c ∈ cols
  always_iff : ∀ id, id ∈ alwaysSubs ↔ subToCols.lookup id = some []

namespace PredicateIndex

def empty : PredicateIndex σ where
  colToSubs _ := []
  alwaysSubs := []
  subToCols := ∅
  col_iff := by simp
  always_iff := by simp

variable (ix : PredicateIndex σ)

/-- `remove`: the reverse map says where the subscription is registered. -/
def remove (id : String) : PredicateIndex σ where
  colToSubs c :=
    match ix.subToCols.lookup id with
    | some cols => if c ∈ cols then (ix.colToSubs c).filter (· ≠ id) else ix.colToSubs c
    | none => ix.colToSubs c
  alwaysSubs :=
    match ix.subToCols.lookup id with
    | some [] => ix.alwaysSubs.filter (· ≠ id)
    | _ => ix.alwaysSubs
  subToCols := ix.subToCols.erase id
  col_iff c id' := by
    by_cases hid : id' = id
    · subst hid
      cases h : ix.subToCols.lookup id' with
      | none => simp [ix.col_iff, h]
      | some cols =>
        by_cases hc : c ∈ cols
        · simp [hc]
        · simp [hc, ix.col_iff, h]
    · rw [lookup_erase_ne hid, ← ix.col_iff]
      cases ix.subToCols.lookup id with
      | none => rfl
      | some cols =>
        by_cases hc : c ∈ cols
        · simp [hc, hid]
        · simp [hc]
  always_iff id' := by
    by_cases hid : id' = id
    · subst hid
      cases h : ix.subToCols.lookup id' with
      | none => simp [ix.always_iff, h]
      | some cols =>
        cases cols with
        | nil => simp
        | cons c cols => simp [ix.always_iff, h]
    · rw [lookup_erase_ne hid, ← ix.always_iff]
      cases ix.subToCols.lookup id with
      | none => rfl
      | some cols =>
        cases cols with
        | nil => simp [hid]
        | cons c cols => rfl

/-- Register a subscription that is not registered yet. -/
def register (id : String) (cols : List σ.Col)
    (h : ix.subToCols.lookup id = none) : PredicateIndex σ where
  colToSubs c := if c ∈ cols then ix.colToSubs c ++ [id] else ix.colToSubs c
  alwaysSubs := if cols = [] then ix.alwaysSubs ++ [id] else ix.alwaysSubs
  subToCols := ix.subToCols.insert id cols
  col_iff c id' := by
    by_cases hid : id' = id
    · subst hid
      have hn : id' ∉ ix.colToSubs c := by simp [ix.col_iff, h]
      by_cases hc : c ∈ cols
      · simp [hc]
      · simp [hc, hn]
    · rw [lookup_insert_ne hid, ← ix.col_iff]
      by_cases hc : c ∈ cols
      · simp [hc, hid]
      · simp [hc]
  always_iff id' := by
    by_cases hid : id' = id
    · subst hid
      have hn : id' ∉ ix.alwaysSubs := by simp [ix.always_iff, h]
      by_cases hc : cols = []
      · simp [hc]
      · simp [hc, hn]
    · rw [lookup_insert_ne hid, ← ix.always_iff]
      by_cases hc : cols = []
      · simp [hc, hid]
      · simp [hc]

/-- `add`: a second registration replaces the first. -/
def add (id : String) (p : CompiledPredicate σ) : PredicateIndex σ :=
  (ix.remove id).register id p.referencedColumns (lookup_erase id ix.subToCols)

/-- `affected(Some(cols))`, sorted and without duplicates. -/
def affected (changed : List σ.Col) : List String :=
  (ix.alwaysSubs ++ changed.flatMap ix.colToSubs).dedup.insertionSort (· ≤ ·)

section
variable (ix : PredicateIndex σ) (id id' : String)

theorem lookup_add (p : CompiledPredicate σ) : (ix.add id p).subToCols.lookup id' =
      if id' = id then some p.referencedColumns else ix.subToCols.lookup id' := by
  by_cases h : id' = id
  · subst h
    simp [add, register]
  · simp [add, register, remove, h]

theorem lookup_remove : (ix.remove id).subToCols.lookup id' =
      if id' = id then none else ix.subToCols.lookup id' := by
  by_cases h : id' = id
  · subst h
    simp [remove]
  · simp [remove, h]

end

/-- The columns reach a predicate: it references one of them, or none at all. -/
def Reaches (changed refs : List σ.Col) : Prop := refs = [] ∨ ∃ c ∈ changed, c ∈ refs

instance (changed refs : List σ.Col) : Decidable (Reaches changed refs) :=
  inferInstanceAs (Decidable (refs = [] ∨ ∃ c ∈ changed, c ∈ refs))

variable (ix : PredicateIndex σ) (changed : List σ.Col)

/-- **The index is exact**: it returns the registered subscriptions the changed
columns reach. -/
theorem mem_affected (id : String) : id ∈ ix.affected changed ↔
      ∃ refs, ix.subToCols.lookup id = some refs ∧ Reaches changed refs := by
  unfold affected Reaches
  rw [List.mem_insertionSort, List.mem_dedup, List.mem_append, List.mem_flatMap, ix.always_iff]
  constructor
  · intro h
    rcases h with h | h
    · exact ⟨[], h, .inl rfl⟩
    · obtain ⟨c, hc, hid⟩ := h
      obtain ⟨refs, hl, hm⟩ := (ix.col_iff c id).mp hid
      exact ⟨refs, hl, .inr ⟨c, hc, hm⟩⟩
  · intro h
    obtain ⟨refs, hl, hr⟩ := h
    rcases hr with hr | hr
    · subst hr
      exact .inl hl
    · obtain ⟨c, hc, hm⟩ := hr
      exact .inr ⟨c, hc, (ix.col_iff c id).mpr ⟨refs, hl, hm⟩⟩

theorem affected_nodup :
    (ix.affected changed).Nodup := by
  unfold affected
  rw [(List.perm_insertionSort _ _).nodup_iff]
  exact List.nodup_dedup _

/-! ## Any sequence of registrations -/

/-- `affected`; with `None` the lists of all columns are taken. -/
def affectedBy : Option (List σ.Col) → List String
  | some cols => ix.affected cols
  | none => ix.affected σ.cols

inductive Registration (σ : Schema) where
  | add (id : String) (p : CompiledPredicate σ)
  | remove (id : String)

def apply (ix : PredicateIndex σ) : Registration σ → PredicateIndex σ
  | .add id p => ix.add id p
  | .remove id => ix.remove id

/-- The predicate last added under each id, unless it was removed since. -/
def Registration.apply (latest : String → Option (CompiledPredicate σ)) :
    Registration σ → String → Option (CompiledPredicate σ)
  | .add id p => Function.update latest id (some p)
  | .remove id => Function.update latest id none

variable {ix : PredicateIndex σ} {latest : String → Option (CompiledPredicate σ)}

theorem lookup_apply (op : Registration σ)
    (h : ∀ id, ix.subToCols.lookup id = (latest id).map (·.referencedColumns)) (id : String) :
    (ix.apply op).subToCols.lookup id = (op.apply latest id).map (·.referencedColumns) := by
  cases op with
  | add id' p =>
    rw [apply, lookup_add, Registration.apply, Function.update_apply, h]
    split <;> rfl
  | remove id' =>
    rw [apply, lookup_remove, Registration.apply, Function.update_apply, h]
    split <;> rfl

theorem lookup_foldl (ops : List (Registration σ))
    (h : ∀ id, ix.subToCols.lookup id = (latest id).map (·.referencedColumns)) (id : String) :
    (ops.foldl apply ix).subToCols.lookup id =
      (ops.foldl Registration.apply latest id).map (·.referencedColumns) := by
  induction ops generalizing ix latest with
  | nil => exact h id
  | cons op ops ih => exact ih (lookup_apply op h)

end PredicateIndex

end CqServer
