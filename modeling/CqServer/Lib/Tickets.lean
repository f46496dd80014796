import Mathlib.Data.Multiset.Basic
import Mathlib.Data.List.Pairwise

/-!
# Records under increasing numbers

A table whose records are filed under numbers it hands out itself, one higher each
time, and taken out again by number. That no number is used twice is part of the
type.
-/

namespace Lib

open List

/-- The records that are out, and the last number handed out. -/
structure Tickets (α : Type*) where
  entries : List (Nat × α)
  last : Nat
  increasing : entries.Pairwise fun e e' => e.1 < e'.1
  issued : ∀ e ∈ entries, e.1 ≤ last

namespace Tickets

variable {α : Type*} {t : Tickets α} {n : Nat} {a : α}

def empty : Tickets α := ⟨[], 0, .nil, fun _ h => nomatch h⟩

def get? (t : Tickets α) (n : Nat) : Option α := (t.entries.find? fun e => e.1 = n).map Prod.snd

def issue (t : Tickets α) (a : α) : Tickets α where
  entries := t.entries ++ [(t.last + 1, a)]
  last := t.last + 1
  increasing := by
    refine pairwise_append.mpr ⟨t.increasing, pairwise_singleton _ _, ?_⟩
    intro e he e' he'
    obtain rfl := mem_singleton.mp he'
    exact Nat.lt_succ_of_le (t.issued e he)
  issued := by
    intro e he
    rcases mem_append.mp he with he | he
    · exact Nat.le_succ_of_le (t.issued e he)
    · obtain rfl := mem_singleton.mp he
      exact le_rfl

def restrict (t : Tickets α) (p : Nat → Bool) : Tickets α where
  entries := t.entries.filter fun e => p e.1
  last := t.last
  increasing := t.increasing.filter _
  issued e he := t.issued e (mem_filter.mp he).1

def remove (t : Tickets α) (n : Nat) : Tickets α := t.restrict (· ≠ n)

def modify (t : Tickets α) (n : Nat) (f : α → α) : Tickets α where
  entries := t.entries.map fun e => if e.1 = n then (e.1, f e.2) else e
  last := t.last
  increasing := by
    have hkey : ∀ e : Nat × α, (if e.1 = n then (e.1, f e.2) else e).1 = e.1 := by
      intro e
      split <;> rfl
    refine pairwise_map.mpr (t.increasing.imp ?_)
    intro e e' h
    rwa [hkey, hkey]
  issued := by
    intro e he
    obtain ⟨e', he', rfl⟩ := mem_map.mp he
    split
    · exact t.issued e' he'
    · exact t.issued e' he'

/-- Take out the records under the given numbers, one after the other. -/
def takeAll : List Nat → Tickets α → List (Nat × α) × Tickets α
  | [], t => ([], t)
  | n :: ns, t =>
    match t.get? n with
    | some a =>
      let rest := takeAll ns (t.remove n)
      ((n, a) :: rest.1, rest.2)
    | none => takeAll ns t

theorem mem_of_get? (h : t.get? n = some a) : (n, a) ∈ t.entries := by
  obtain ⟨e, he, rfl⟩ := Option.map_eq_some_iff.mp h
  have hkey : e.1 = n := by simpa using find?_some he
  exact hkey ▸ mem_of_find?_eq_some he

theorem unique {e e' : Nat × α} (h : e ∈ t.entries) (h' : e' ∈ t.entries) (hn : e.1 = e'.1) :
    e = e' := by
  have hincreasing := t.increasing
  generalize t.entries = es at h h' hincreasing
  induction es with
  | nil => cases h
  | cons x es ih =>
    obtain ⟨hhead, htail⟩ := pairwise_cons.mp hincreasing
    rcases mem_cons.mp h with rfl | hes
    · rcases mem_cons.mp h' with rfl | hes'
      · rfl
      · exact absurd hn (Nat.ne_of_lt (hhead e' hes'))
    · rcases mem_cons.mp h' with rfl | hes'
      · exact absurd hn.symm (Nat.ne_of_lt (hhead e hes))
      · exact ih hes hes' htail

theorem get?_of_mem {e : Nat × α} (h : e ∈ t.entries) : t.get? e.1 = some e.2 := by
  unfold get?
  cases hfind : t.entries.find? (fun e' => e'.1 = e.1) with
  | none => exact absurd (decide_eq_true rfl) (find?_eq_none.mp hfind e h)
  | some e' =>
    have hkey : e'.1 = e.1 := by simpa using find?_some hfind
    rw [unique (mem_of_find?_eq_some hfind) h hkey]
    rfl

theorem mem_remove {e : Nat × α} : e ∈ (t.remove n).entries ↔ e ∈ t.entries ∧ e.1 ≠ n := by
  simp [remove, restrict]

/-- What is taken out and what is left make up the table. -/
theorem entries_remove (h : t.get? n = some a) :
    t.entries.Perm ((n, a) :: (t.remove n).entries) := by
  have hmem := mem_of_get? h
  have hdistinct := t.increasing
  change t.entries.Perm ((n, a) :: t.entries.filter fun e => e.1 ≠ n)
  generalize t.entries = es at hmem hdistinct
  induction es with
  | nil => cases hmem
  | cons e es ih =>
    obtain ⟨hhead, htail⟩ := pairwise_cons.mp hdistinct
    rcases mem_cons.mp hmem with rfl | hrest
    · -- the others have higher numbers
      have hkeep : es.filter (fun e => decide (e.1 ≠ n)) = es := by
        refine filter_eq_self.mpr fun e he => ?_
        have hlt := hhead e he
        simp only [decide_eq_true_eq]
        omega
      rw [filter_cons_of_neg (by simp), hkeep]
    · have hne : e.1 ≠ n := by
        have hlt := hhead (n, a) hrest
        omega
      rw [filter_cons_of_pos (by simpa using hne)]
      exact ((ih hrest htail).cons e).trans (Perm.swap _ _ _)

theorem entries_takeAll (ns : List Nat) (t : Tickets α) :
    t.entries.Perm ((takeAll ns t).1 ++ (takeAll ns t).2.entries) := by
  induction ns generalizing t with
  | nil => exact Perm.refl _
  | cons n ns ih =>
    unfold takeAll
    cases h : t.get? n with
    | none => exact ih t
    | some a => exact (entries_remove h).trans ((ih (t.remove n)).cons _)

section
variable {ns : List Nat} {t : Tickets α} {e : Nat × α}

theorem mem_takeAll (h : e ∈ (takeAll ns t).1) :
    e ∈ t.entries ∧ e.1 ∈ ns := by
  refine ⟨(entries_takeAll ns t).mem_iff.mpr (mem_append_left _ h), ?_⟩
  induction ns generalizing t with
  | nil => cases h
  | cons n ns ih =>
    unfold takeAll at h
    cases hget : t.get? n with
    | none =>
      rw [hget] at h
      exact mem_cons_of_mem n (ih h)
    | some a =>
      rw [hget] at h
      rcases mem_cons.mp h with rfl | hrest
      · exact mem_cons_self
      · exact mem_cons_of_mem n (ih hrest)

theorem takeAll_of_mem (h : e ∈ t.entries)
    (hn : e.1 ∈ ns) : e ∈ (takeAll ns t).1 := by
  induction ns generalizing t with
  | nil => cases hn
  | cons n ns ih =>
    unfold takeAll
    by_cases heq : e.1 = n
    · have hget : t.get? n = some e.2 := heq ▸ get?_of_mem h
      rw [hget]
      exact heq ▸ mem_cons_self
    · have hns : e.1 ∈ ns := (mem_cons.mp hn).resolve_left heq
      cases hget : t.get? n with
      | none => exact ih h hns
      | some a => exact mem_cons_of_mem _ (ih (mem_remove.mpr ⟨h, heq⟩) hns)

end
theorem takeAll_last (ns : List Nat) (t : Tickets α) : (takeAll ns t).2.last = t.last := by
  induction ns generalizing t with
  | nil => rfl
  | cons n ns ih =>
    unfold takeAll
    cases t.get? n with
    | none => exact ih t
    | some a => exact ih (t.remove n)

end Tickets

end Lib
