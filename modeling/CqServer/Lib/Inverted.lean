import CqServer.Lib.SlotTable
import Mathlib.Data.Finset.Basic

/-!
# Inverted indexes

The set of rows listed under each key. A key whose last row is removed is
dropped, so no key of the table has an empty set.
-/

namespace Lib

open AList

variable {κ : Type} [DecidableEq κ]

structure Inverted (κ : Type) [DecidableEq κ] where
  entries : AList (fun _ : κ => Finset Nat)
  /-- Every key has a row. -/
  nonempty : ∀ {k rows}, entries.lookup k = some rows → rows.Nonempty

namespace Inverted

def empty : Inverted κ := ⟨∅, by simp⟩

variable (t : Inverted κ)

def rows (k : κ) : Finset Nat := (t.entries.lookup k).getD ∅

def add (k : κ) (r : Nat) : Inverted κ where
  entries := t.entries.insert k (insert r (t.rows k))
  nonempty h := by
    rcases lookup_insert_some h with ⟨-, rfl⟩ | h
    · exact Finset.insert_nonempty _ _
    · exact t.nonempty h

def remove (k : κ) (r : Nat) : Inverted κ :=
  if h : ((t.rows k).erase r).Nonempty then
    { entries := t.entries.insert k ((t.rows k).erase r)
      nonempty := fun hk' => by
        rcases lookup_insert_some hk' with ⟨-, rfl⟩ | hk'
        · exact h
        · exact t.nonempty hk' }
  else
    { entries := t.entries.erase k
      nonempty := fun hk' => t.nonempty (lookup_erase_some hk').2 }

def rowsWhere (p : κ → Bool) : Finset Nat :=
  t.entries.entries.foldl (fun acc e => if p e.1 then acc ∪ e.2 else acc) ∅

variable {k : κ} {r : Nat}

@[simp] theorem mem_rows_empty : r ∉ (empty : Inverted κ).rows k := by
  simp [rows, empty]

variable {k' : κ} {r' : Nat} {t : Inverted κ}

theorem mem_rows_add : r' ∈ (t.add k r).rows k' ↔ k' = k ∧ r' = r ∨ r' ∈ t.rows k' := by
  by_cases hk : k' = k
  · subst hk
    simp [add, rows]
  · simp [add, rows, hk]

theorem mem_rows_remove : r' ∈ (t.remove k r).rows k' ↔ r' ∈ t.rows k' ∧ ¬ (k' = k ∧ r' = r) := by
  unfold remove
  by_cases hk : k' = k
  · subst hk
    by_cases h : ((t.rows k').erase r).Nonempty
    · rw [dif_pos h]
      simp only [rows, lookup_insert, Option.getD_some, Finset.mem_erase, true_and]
      exact and_comm
    · rw [dif_neg h]
      have hnone : r' ∉ (t.rows k').erase r := by
        rw [Finset.not_nonempty_iff_eq_empty.mp h]
        exact Finset.notMem_empty _
      simp only [Finset.mem_erase, not_and] at hnone
      simp only [rows, lookup_erase, Option.getD_none, Finset.notMem_empty, true_and,
        false_iff, not_and]
      intro hr
      by_contra hne
      exact hnone hne hr
  · split <;> simp [rows, hk]

theorem mem_rowsWhere {p : κ → Bool} : r ∈ t.rowsWhere p ↔ ∃ k, p k = true ∧ r ∈ t.rows k := by
  have hfold : ∀ (es : List (Sigma fun _ : κ => Finset Nat)) (acc : Finset Nat),
      r ∈ es.foldl (fun acc e => if p e.1 then acc ∪ e.2 else acc) acc ↔
        r ∈ acc ∨ ∃ e ∈ es, p e.1 = true ∧ r ∈ e.2 := by
    intro es
    induction es with
    | nil => simp
    | cons e es ih =>
      intro acc
      rw [List.foldl_cons, ih]
      by_cases hp : p e.1 = true
      · simp [hp, or_assoc]
      · simp [hp]
  unfold rowsWhere
  rw [hfold]
  constructor
  · rintro (h | ⟨⟨k, rows⟩, he, hp, hr⟩)
    · exact absurd h (Finset.notMem_empty r)
    · have hlook : t.entries.lookup k = some rows := mem_lookup_iff.mpr he
      exact ⟨k, hp, by simpa [Inverted.rows, hlook] using hr⟩
  · rintro ⟨k, hp, hr⟩
    cases hlook : t.entries.lookup k with
    | none => simp [Inverted.rows, hlook] at hr
    | some rows =>
      have hr' : r ∈ rows := by simpa [Inverted.rows, hlook] using hr
      exact .inr ⟨⟨k, rows⟩, mem_lookup_iff.mp hlook, hp, hr'⟩

end Inverted

end Lib
