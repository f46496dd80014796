import Mathlib.Data.List.AList

/-!
# Keyed slot tables with a free list

Rows live in numbered slots; a map sends each key to its slot, and the slots of
removed keys are handed out again before the table grows. The table carries its
representation invariant: two keys never share a slot, and a free slot belongs
to no key. Read through its keys it is a finite map (`view`), and the laws of
`view` under each operation are what its clients reason with.
-/

namespace Lib

open List Function Option AList

variable {κ ρ : Type*} [DecidableEq κ]

section Lookup
variable {β : Type*} {m : AList fun _ : κ => β} {k k' : κ} {v x : β}

theorem lookup_insert_ite :
    (m.insert k v).lookup k' = if k' = k then some v else m.lookup k' := by
  by_cases hk : k' = k
  · rw [if_pos hk, hk, lookup_insert]
  · rw [if_neg hk, lookup_insert_ne hk]

theorem lookup_erase_ite : (m.erase k).lookup k' = if k' = k then none else m.lookup k' := by
  by_cases hk : k' = k
  · rw [if_pos hk, hk, lookup_erase]
  · rw [if_neg hk, lookup_erase_ne hk]

theorem lookup_insert_some (h : (m.insert k v).lookup k' = some x) :
    k' = k ∧ v = x ∨ m.lookup k' = some x := by
  rw [lookup_insert_ite] at h
  split at h
  · exact .inl ⟨‹_›, some.inj h⟩
  · exact .inr h

theorem lookup_erase_some (h : (m.erase k).lookup k' = some x) :
    k' ≠ k ∧ m.lookup k' = some x := by
  rw [lookup_erase_ite] at h
  split at h
  · cases h
  · exact ⟨‹_›, h⟩

end Lookup

/-- A table of rows with a key index and a stack of free slots. -/
structure SlotTable (κ ρ : Type*) [DecidableEq κ] where
  rowCount : Nat
  row : Nat → ρ
  keyToRow : AList (fun _ : κ => Nat)
  freeSlots : List Nat
  /-- Every key's slot has been allocated. -/
  slot_lt : ∀ {k r}, keyToRow.lookup k = some r → r < rowCount
  /-- Two keys do not share a slot. -/
  slot_inj : ∀ {k k' r}, keyToRow.lookup k = some r → keyToRow.lookup k' = some r → k = k'
  free_lt : ∀ {r}, r ∈ freeSlots → r < rowCount
  free_nodup : freeSlots.Nodup
  /-- A free slot is no key's slot. -/
  free_unused : ∀ {k r}, keyToRow.lookup k = some r → r ∉ freeSlots

namespace SlotTable

variable {t : SlotTable κ ρ} {k k' : κ} {r : Nat}

/-- The table before any write; every slot holds `blank`. -/
def empty (blank : ρ) : SlotTable κ ρ where
  rowCount := 0
  row _ := blank
  keyToRow := ∅
  freeSlots := []
  slot_lt h := by simp at h
  slot_inj h := by simp at h
  free_lt h := by simp at h
  free_nodup := nodup_nil
  free_unused h := by simp at h

def Live (t : SlotTable κ ρ) (r : Nat) : Prop := ∃ k, t.keyToRow.lookup k = some r

def liveSlots (t : SlotTable κ ρ) : List Nat := t.keyToRow.entries.map Sigma.snd

theorem mem_liveSlots : r ∈ t.liveSlots ↔ t.Live r := by
  unfold liveSlots Live
  rw [List.mem_map]
  constructor
  · rintro ⟨⟨k, r'⟩, hmem, rfl⟩
    exact ⟨k, mem_lookup_iff.mpr hmem⟩
  · rintro ⟨k, hk⟩
    exact ⟨⟨k, r⟩, mem_lookup_iff.mp hk, rfl⟩

theorem liveSlots_nodup (t : SlotTable κ ρ) : t.liveSlots.Nodup := by
  refine Nodup.map_on ?_ t.keyToRow.nodupKeys.nodup
  intro e he e' he' heq
  obtain ⟨k, r⟩ := e
  obtain ⟨k', r'⟩ := e'
  obtain rfl : r = r' := heq
  rw [t.slot_inj (mem_lookup_iff.mpr he) (mem_lookup_iff.mpr he')]

instance (t : SlotTable κ ρ) (r : Nat) : Decidable (t.Live r) :=
  decidable_of_iff _ mem_liveSlots

/-- The table as a map from keys to rows. -/
def view (t : SlotTable κ ρ) (k : κ) : Option ρ := (t.keyToRow.lookup k).map t.row

def modify (t : SlotTable κ ρ) (r : Nat) (f : ρ → ρ) : SlotTable κ ρ where
  rowCount := t.rowCount
  row := update t.row r (f (t.row r))
  keyToRow := t.keyToRow
  freeSlots := t.freeSlots
  slot_lt := t.slot_lt
  slot_inj := t.slot_inj
  free_lt := t.free_lt
  free_nodup := t.free_nodup
  free_unused := t.free_unused

/-- Append a slot that no key owns. -/
def push (t : SlotTable κ ρ) (f : ρ → ρ) : SlotTable κ ρ where
  rowCount := t.rowCount + 1
  row := update t.row t.rowCount (f (t.row t.rowCount))
  keyToRow := t.keyToRow
  freeSlots := t.freeSlots
  slot_lt h := Nat.lt_succ_of_lt (t.slot_lt h)
  slot_inj := t.slot_inj
  free_lt h := Nat.lt_succ_of_lt (t.free_lt h)
  free_nodup := t.free_nodup
  free_unused := t.free_unused

/-- The slot the next new key receives: the last freed one, else a fresh one. -/
def nextSlot (t : SlotTable κ ρ) : Nat := t.freeSlots.headD t.rowCount

theorem nextSlot_not_live (t : SlotTable κ ρ) : ¬ t.Live t.nextSlot := by
  rintro ⟨k, hk⟩
  unfold nextSlot at hk
  cases hf : t.freeSlots with
  | nil =>
    rw [hf] at hk
    exact absurd (t.slot_lt hk) (lt_irrefl _)
  | cons r rest =>
    exact t.free_unused hk (by simp [hf])

theorem nextSlot_not_mem_tail (t : SlotTable κ ρ) : t.nextSlot ∉ t.freeSlots.tail := by
  unfold nextSlot
  cases hf : t.freeSlots with
  | nil => simp
  | cons r rest =>
    have := t.free_nodup
    rw [hf, nodup_cons] at this
    simpa using this.1

/-- Give a key the next slot and write its row there. -/
def alloc (t : SlotTable κ ρ) (k : κ) (f : ρ → ρ) : SlotTable κ ρ where
  rowCount := if t.freeSlots = [] then t.rowCount + 1 else t.rowCount
  row := update t.row t.nextSlot (f (t.row t.nextSlot))
  keyToRow := t.keyToRow.insert k t.nextSlot
  freeSlots := t.freeSlots.tail
  slot_lt {k' r} h := by
    rcases lookup_insert_some h with ⟨-, rfl⟩ | h
    · unfold nextSlot
      cases hf : t.freeSlots with
      | nil => simp
      | cons r rest => simpa using t.free_lt (by simp [hf])
    · have := t.slot_lt h
      split <;> omega
  slot_inj {k₁ k₂ r} h₁ h₂ := by
    rcases lookup_insert_some h₁ with ⟨rfl, rfl⟩ | hold₁
    · rcases lookup_insert_some h₂ with ⟨rfl, -⟩ | hold₂
      · rfl
      · exact absurd ⟨k₂, hold₂⟩ t.nextSlot_not_live
    · rcases lookup_insert_some h₂ with ⟨rfl, rfl⟩ | hold₂
      · exact absurd ⟨k₁, hold₁⟩ t.nextSlot_not_live
      · exact t.slot_inj hold₁ hold₂
  free_lt {r} h := by
    have := t.free_lt (mem_of_mem_tail h)
    split <;> omega
  free_nodup := t.free_nodup.tail
  free_unused {k' r} h := by
    rcases lookup_insert_some h with ⟨-, rfl⟩ | h
    · exact t.nextSlot_not_mem_tail
    · exact fun hm => t.free_unused h (mem_of_mem_tail hm)

/-- Blank a key's slot and make it the next one to be reused. -/
def removeSlot (t : SlotTable κ ρ) (k : κ) (r : Nat) (h : t.keyToRow.lookup k = some r)
    (blank : ρ) : SlotTable κ ρ where
  rowCount := t.rowCount
  row := update t.row r blank
  keyToRow := t.keyToRow.erase k
  freeSlots := r :: t.freeSlots
  slot_lt h' := t.slot_lt (lookup_erase_some h').2
  slot_inj h₁ h₂ := t.slot_inj (lookup_erase_some h₁).2 (lookup_erase_some h₂).2
  free_lt {r'} h' := by
    rcases mem_cons.mp h' with rfl | h'
    · exact t.slot_lt h
    · exact t.free_lt h'
  free_nodup := nodup_cons.mpr ⟨t.free_unused h, t.free_nodup⟩
  free_unused {k' r'} h' := by
    obtain ⟨hk, h'⟩ := lookup_erase_some h'
    rw [mem_cons, not_or]
    refine ⟨?_, t.free_unused h'⟩
    rintro rfl
    exact hk (t.slot_inj h' h)

def remove (t : SlotTable κ ρ) (k : κ) (blank : ρ) : SlotTable κ ρ :=
  match h : t.keyToRow.lookup k with
  | none => t
  | some r => t.removeSlot k r h blank

theorem remove_of_none (h : t.keyToRow.lookup k = none) (blank : ρ) :
    t.remove k blank = t := by
  unfold remove
  split
  · rfl
  · rename_i r hr
    rw [h] at hr
    cases hr

theorem remove_of_some (h : t.keyToRow.lookup k = some r) (blank : ρ) :
    t.remove k blank = t.removeSlot k r h blank := by
  unfold remove
  split
  · rename_i hn
    rw [h] at hn
    cases hn
  · rename_i r' hr
    have : r' = r := some.inj (hr.symm.trans h)
    subst this
    rfl

/-! ## Slots under each operation -/

theorem modify_eq_self {f : ρ → ρ} (h : f (t.row r) = t.row r) : t.modify r f = t := by
  have hrow : update t.row r (f (t.row r)) = t.row := by
    rw [h, update_eq_self]
  cases t
  simp only [modify, mk.injEq, true_and, and_true]
  exact hrow

section
variable (t : SlotTable κ ρ)

@[simp] theorem lookup_modify (r : Nat) (f : ρ → ρ) (k : κ) :
    (t.modify r f).keyToRow.lookup k = t.keyToRow.lookup k := rfl

@[simp] theorem lookup_push (f : ρ → ρ) (k : κ) :
    (t.push f).keyToRow.lookup k = t.keyToRow.lookup k := rfl

theorem lookup_alloc (k k' : κ) (f : ρ → ρ) : (t.alloc k f).keyToRow.lookup k' =
      if k' = k then some t.nextSlot else t.keyToRow.lookup k' := lookup_insert_ite

theorem lookup_remove (k k' : κ) (blank : ρ) : (t.remove k blank).keyToRow.lookup k' =
      if k' = k then none else t.keyToRow.lookup k' := by
  cases h : t.keyToRow.lookup k with
  | none =>
    rw [remove_of_none h]
    by_cases hk : k' = k
    · subst hk
      simp [h]
    · simp [hk]
  | some r =>
    rw [remove_of_some h]
    exact lookup_erase_ite

end

@[simp] theorem live_modify {s : Nat} (f : ρ → ρ) : (t.modify s f).Live r ↔ t.Live r :=
  Iff.rfl

@[simp] theorem live_push (f : ρ → ρ) : (t.push f).Live r ↔ t.Live r := Iff.rfl

theorem live_alloc (h : t.keyToRow.lookup k = none) (f : ρ → ρ) :
    (t.alloc k f).Live r ↔ r = t.nextSlot ∨ t.Live r := by
  simp only [Live, lookup_alloc]
  constructor
  · rintro ⟨k', hk'⟩
    split at hk'
    · exact .inl (some.inj hk').symm
    · exact .inr ⟨k', hk'⟩
  · rintro (rfl | ⟨k', hk'⟩)
    · exact ⟨k, by simp⟩
    · have hne : k' ≠ k := fun e => by
        subst e
        rw [h] at hk'
        cases hk'
      exact ⟨k', by rw [if_neg hne]; exact hk'⟩

theorem live_remove (h : t.keyToRow.lookup k = some r) (blank : ρ) {s : Nat} :
    (t.remove k blank).Live s ↔ s ≠ r ∧ t.Live s := by
  simp only [Live, lookup_remove]
  constructor
  · rintro ⟨k', hk'⟩
    split at hk'
    · cases hk'
    rename_i hne
    refine ⟨?_, k', hk'⟩
    rintro rfl
    exact hne (t.slot_inj hk' h)
  · rintro ⟨hsr, k', hk'⟩
    have hne : k' ≠ k := fun e => by
      subst e
      rw [h] at hk'
      exact hsr (some.inj hk').symm
    exact ⟨k', by rw [if_neg hne]; exact hk'⟩

/-! ## The view under each operation -/

theorem view_eq_some {x : ρ} :
    t.view k = some x ↔ ∃ r, t.keyToRow.lookup k = some r ∧ t.row r = x := by
  simp [view]

theorem view_of_lookup (h : t.keyToRow.lookup k = some r) : t.view k = some (t.row r) := by
  simp [view, h]

instance {P : κ → ρ → Prop} [∀ k x, Decidable (P k x)] :
    Decidable (∀ k x, t.view k = some x → P k x) := by
  refine decidable_of_iff (∀ e ∈ t.keyToRow.entries, P e.1 (t.row e.2)) ⟨?_, ?_⟩
  · intro h k x hx
    obtain ⟨r, hr, rfl⟩ := view_eq_some.mp hx
    exact h _ (mem_lookup_iff.mp hr)
  · intro h e he
    exact h _ _ (view_of_lookup (mem_lookup_iff.mpr he))

theorem view_of_lookup_none (h : t.keyToRow.lookup k = none) : t.view k = none := by
  simp [view, h]

theorem view_modify (h : t.keyToRow.lookup k = some r) (f : ρ → ρ) (k' : κ) :
    (t.modify r f).view k' = if k' = k then some (f (t.row r)) else t.view k' := by
  by_cases hk : k' = k
  · subst hk
    simp [view, modify, h]
  · rw [if_neg hk]
    cases hk' : t.keyToRow.lookup k' with
    | none => simp [view, hk']
    | some r' =>
      have hne : r' ≠ r := by
        rintro rfl
        exact hk (t.slot_inj hk' h)
      simp [view, modify, hk', hne]

variable (t : SlotTable κ ρ)

theorem view_push (f : ρ → ρ) (k : κ) :
    (t.push f).view k = t.view k := by
  cases hk : t.keyToRow.lookup k with
  | none => simp [view, hk]
  | some r =>
    have hne : r ≠ t.rowCount := Nat.ne_of_lt (t.slot_lt hk)
    simp [view, push, hk, hne]

theorem view_alloc (k k' : κ) (f : ρ → ρ) : (t.alloc k f).view k' =
      if k' = k then some (f (t.row t.nextSlot)) else t.view k' := by
  by_cases hk : k' = k
  · subst hk
    simp [view, alloc]
  · cases hk' : t.keyToRow.lookup k' with
    | none => simp [view, lookup_alloc, hk, hk']
    | some r' =>
      have hne : r' ≠ t.nextSlot := by
        rintro rfl
        exact t.nextSlot_not_live ⟨k', hk'⟩
      simp [view, hk, hk', alloc, hne]

theorem view_remove (k k' : κ) (blank : ρ) :
    (t.remove k blank).view k' = if k' = k then none else t.view k' := by
  cases h : t.keyToRow.lookup k with
  | none =>
    rw [remove_of_none h]
    by_cases hk : k' = k
    · subst hk
      simp [view, h]
    · simp [hk]
  | some r =>
    by_cases hk : k' = k
    · subst hk
      simp [view, lookup_remove]
    · cases hk' : t.keyToRow.lookup k' with
      | none => simp [view, lookup_remove, hk']
      | some r' =>
        have hne : r' ≠ r := by
          rintro rfl
          exact hk (t.slot_inj hk' h)
        simp [view, hk, hk', remove_of_some h, removeSlot, hne]

end SlotTable

end Lib
