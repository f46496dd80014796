import Mathlib.Data.List.Induction
import Mathlib.Data.List.Dedup
import Mathlib.Data.Finmap
import Mathlib.Data.Finset.Sort

/-!
# Grouping by first appearance

A pass over a list keeps one accumulator per key, in the order in which the keys
first appear. What it leaves is each key with the fold over the elements of that
key, in their order. A list whose elements have different keys is a table (`lookup_keyBy`).
-/

namespace Lib

open List

variable {α κ β : Type*} [DecidableEq κ]

/-- Update the accumulator of a key, which is new if the key is. -/
def bump (k : κ) (f : β → β) (init : β) : List (κ × β) → List (κ × β)
  | [] => [(k, f init)]
  | (k', s) :: gs => if k' = k then (k', f s) :: gs else (k', s) :: bump k f init gs

def groupFold (key : α → κ) (init : β) (step : β → α → β) (l : List α) : List (κ × β) :=
  l.foldl (fun gs a => bump (key a) (step · a) init gs) []

/-- The distinct elements of a list, each where it first appears. -/
def distinct (l : List κ) : List κ := l.eraseDups

def members (key : α → κ) (l : List α) (k : κ) : List α := l.filter fun a => key a = k

theorem bump_of_notMem {k : κ} {ks : List κ} (hk : k ∉ ks) (f : β → β) (init : β) (s : κ → β) :
    bump k f init (ks.map fun k => (k, s k)) = ks.map (fun k => (k, s k)) ++ [(k, f init)] := by
  induction ks with
  | nil => rfl
  | cons k' ks ih =>
    have hne : k' ≠ k := fun h => hk (by simp [h])
    rw [map_cons, bump, if_neg hne, ih fun h => hk (by simp [h])]
    rfl

theorem bump_of_mem {k : κ} {ks : List κ} (hnodup : ks.Nodup) (hk : k ∈ ks) (f : β → β) (init : β)
    (s : κ → β) : bump k f init (ks.map fun k => (k, s k)) =
      ks.map fun k' => (k', if k' = k then f (s k') else s k') := by
  induction ks with
  | nil => cases hk
  | cons k' ks ih =>
    obtain ⟨hk', hnodup'⟩ := nodup_cons.mp hnodup
    rw [map_cons, map_cons, bump]
    by_cases heq : k' = k
    · subst heq
      rw [if_pos rfl, if_pos rfl]
      refine congrArg _ (map_congr_left fun k₁ hk₁ => ?_)
      have hne : k₁ ≠ k' := fun h => hk' (h ▸ hk₁)
      rw [if_neg hne]
    · rw [if_neg heq, if_neg heq,
        ih hnodup' ((mem_cons.mp hk).resolve_left (Ne.symm heq))]

@[simp] theorem mem_distinct {l : List κ} {k : κ} : k ∈ distinct l ↔ k ∈ l := mem_eraseDups

theorem distinct_concat (l : List κ) (k : κ) :
    distinct (l ++ [k]) = if k ∈ l then distinct l else distinct l ++ [k] := by
  unfold distinct
  rw [eraseDups_append]
  by_cases hk : k ∈ l
  · simp [removeAll, hk]
  · simp [removeAll, hk, eraseDups_cons]

theorem nodup_distinct (l : List κ) : (distinct l).Nodup := by
  induction l using reverseRecOn with
  | nil => simp [distinct]
  | append_singleton l k ih =>
    rw [distinct_concat]
    split
    · exact ih
    rename_i hk
    rw [nodup_append]
    refine ⟨ih, nodup_singleton k, ?_⟩
    intro a ha b hb heq
    rw [mem_singleton.mp hb] at heq
    exact hk (mem_distinct.mp (heq ▸ ha))

theorem distinct_replicate (n : Nat) (k : κ) : distinct (replicate (n + 1) k) = [k] := by
  induction n with
  | zero => simp [distinct, eraseDups_cons]
  | succ n ih => rw [replicate_succ', distinct_concat, if_pos (by simp), ih]

section
variable (key : α → κ) (init : β) (step : β → α → β) (l : List α)

theorem groupFold_eq : groupFold key init step l =
      (distinct (l.map key)).map fun k => (k, (members key l k).foldl step init) := by
  induction l using reverseRecOn with
  | nil => rfl
  | append_singleton l a ih =>
    have hpass : groupFold key init step (l ++ [a]) =
        bump (key a) (step · a) init (groupFold key init step l) := by
      simp [groupFold]
    have hmembers : ∀ k, (members key (l ++ [a]) k).foldl step init =
        if k = key a then step ((members key l k).foldl step init) a
        else (members key l k).foldl step init := by
      intro k
      by_cases hk : k = key a
      · simp [members, hk]
      · simp [members, hk, Ne.symm hk]
    rw [hpass, ih, map_append, map_singleton, distinct_concat]
    by_cases hk : key a ∈ l.map key
    · rw [if_pos hk, bump_of_mem (nodup_distinct _) (mem_distinct.mpr hk)]
      simp [hmembers]
    · have hempty : members key l (key a) = [] := by
        refine filter_eq_nil_iff.mpr fun b hb hkey => hk ?_
        exact mem_map.mpr ⟨b, hb, of_decide_eq_true hkey⟩
      rw [if_neg hk, bump_of_notMem fun h => hk (mem_distinct.mp h), map_append]
      congr 1
      · refine map_congr_left fun k hk' => ?_
        rw [hmembers, if_neg]
        exact fun h => hk (h ▸ mem_distinct.mp hk')
      · rw [map_singleton, hmembers, if_pos rfl, hempty]
        rfl

/-- A key is looked up in what a pass leaves: its fold, if it has members. -/
theorem find?_groupFold (k : κ) : (groupFold key init step l).find? (fun g => g.1 = k) =
      if k ∈ l.map key then some (k, (members key l k).foldl step init) else none := by
  have hfind : ∀ (ks : List κ) (f : κ → β), (ks.map fun k => (k, f k)).find? (fun g => g.1 = k) =
      if k ∈ ks then some (k, f k) else none := by
    intro ks f
    induction ks with
    | nil => rfl
    | cons k' ks ih =>
      by_cases hk : k' = k
      · simp [hk]
      · simp [hk, Ne.symm hk, ih]
  rw [groupFold_eq, hfind]
  simp

end

/-- The elements of a list, by key; the last one of a key stays. -/
def keyBy (key : α → κ) (l : List α) : Finmap (fun _ : κ => α) :=
  l.foldl (fun m a => m.insert (key a) a) ∅

/-- If no key appears twice, each element is found under its key. -/
theorem lookup_keyBy {key : α → κ} {l : List α} (h : (l.map key).Nodup) {k : κ} {a : α} :
    (keyBy key l).lookup k = some a ↔ a ∈ l ∧ key a = k := by
  induction l using reverseRecOn with
  | nil =>
    change (∅ : Finmap fun _ : κ => α).lookup k = some a ↔ _
    simp
  | append_singleton l b ih =>
    rw [map_append, nodup_append] at h
    obtain ⟨hl, -, hfresh⟩ := h
    have hstep : keyBy key (l ++ [b]) = (keyBy key l).insert (key b) b := by
      simp [keyBy]
    have hne : ∀ c ∈ l, key c ≠ key b := fun c hc =>
      hfresh _ (mem_map_of_mem hc) _ (mem_singleton_self _)
    rw [hstep]
    by_cases hk : k = key b
    · subst hk
      rw [Finmap.lookup_insert, mem_append, mem_singleton, Option.some_inj]
      constructor
      · rintro rfl
        exact ⟨.inr rfl, rfl⟩
      · rintro ⟨ha | rfl, hkey⟩
        · exact absurd hkey (hne a ha)
        · rfl
    · rw [Finmap.lookup_insert_of_ne _ hk, ih hl, mem_append, mem_singleton]
      constructor
      · rintro ⟨ha, hkey⟩
        exact ⟨.inl ha, hkey⟩
      · rintro ⟨ha | rfl, hkey⟩
        · exact ⟨ha, hkey⟩
        · exact absurd hkey.symm hk

/-- The part of an ascending list that makes up a set is the set in ascending order. -/
theorem sort_eq_filter {l : List ℕ} (hl : l.Pairwise (· < ·)) {p : ℕ → Prop} [DecidablePred p]
    {s : Finset ℕ} (hs : ∀ n, n ∈ s ↔ n ∈ l ∧ p n) :
    s.sort (· ≤ ·) = l.filter fun n => decide (p n) := by
  have hfilter := hl.filter fun n => decide (p n)
  have hset : s = (l.filter fun n => decide (p n)).toFinset := by
    ext n
    simp [hs]
  rw [hset]
  exact (toFinset_sort (· ≤ ·) (hfilter.imp Nat.ne_of_lt)).mpr (hfilter.imp Nat.le_of_lt)

end Lib
