import Mathlib.Data.List.Basic

/-!
# A table and its replica

The entries of a table are written to a store under a key of their own. The replica is
complete if every entry can be read back from the store and the store holds nothing else.
A change of the table is carried over by writing the entries that are new and deleting the
keys of those that are gone (`Replica.change`), as long as two entries have the same key
exactly if they stand in the same place.
-/

namespace Lib

variable {ι κ P R S : Type*}

/-- Every entry is shown by the record under its key, and there is no other record. -/
structure Replica (key : P → Option κ) (name : P → ι) (Valid : P → Prop) (Shows : R → P → Prop)
    (table : ι → Option P) (c : κ → Option R) : Prop where
  entry : ∀ i p, table i = some p → Valid p ∧ name p = i
  shown : ∀ i p, table i = some p → ∃ k row, key p = some k ∧ c k = some row ∧ Shows row p
  only : ∀ k row, c k = some row → ∃ i p, table i = some p ∧ key p = some k

/-- What is to be written and deleted when a table changes. -/
structure TableChange (key : P → Option κ) (Shows : R → P → Prop) (table table' : ι → Option P)
    (ups : List P) (dels : List κ) : Prop where
  new : ∀ u ∈ ups, ∃ i, table' i = some u
  kept : ∀ i p', table' i = some p' →
    p' ∈ ups ∨ ∃ p, table i = some p ∧ ∀ row : R, Shows row p → Shows row p'
  gone : ∀ k, k ∈ dels ↔ ∃ i p, table i = some p ∧ table' i = none ∧ key p = some k

/-- The store after the writes and then the deletes. -/
structure Applied (key : P → Option κ) (Shows : R → P → Prop) (ups : List P) (dels : List κ)
    (c c' : κ → Option R) : Prop where
  deleted : ∀ k ∈ dels, c' k = none
  written : ∀ k, k ∉ dels → (∃ u ∈ ups, key u = some k ∧ ∃ row, c' k = some row ∧ Shows row u) ∨
      (∀ u ∈ ups, key u ≠ some k) ∧ c' k = c k

section Change
variable {key : P → Option κ} {name : P → ι} {Valid : P → Prop} {Shows : R → P → Prop}
  {table table' : ι → Option P} {c c' : κ → Option R}

theorem Replica.empty : Replica key name Valid Shows (fun _ => none) fun _ => none :=
  ⟨nofun, nofun, nofun⟩

variable (h : Replica key name Valid Shows table c)
include h

theorem Replica.showing {k : κ} {row : R}
    (hrow : c k = some row) : ∃ p, Valid p ∧ Shows row p := by
  obtain ⟨i, p, hp, hk⟩ := h.only k row hrow
  obtain ⟨k', row', hk', hrow', hshows⟩ := h.shown i p hp
  cases hk.symm.trans hk'
  cases hrow.symm.trans hrow'
  exact ⟨p, (h.entry i p hp).1, hshows⟩

theorem Replica.change (hkey : ∀ p p', Valid p → Valid p' → (key p = key p' ↔ name p = name p'))
    (hsome : ∀ p, Valid p → ∃ k, key p = some k) {ups : List P} {dels : List κ}
    (hentry : ∀ i p, table' i = some p → Valid p ∧ name p = i)
    (hchange : TableChange key Shows table table' ups dels)
    (happlied : Applied key Shows ups dels c c') :
    Replica key name Valid Shows table' c' := by
  refine ⟨hentry, ?_, ?_⟩
  · intro i p' hp'
    obtain ⟨hvalid, hname⟩ := hentry i p' hp'
    obtain ⟨k, hk⟩ := hsome p' hvalid
    have hin : k ∉ dels := by
      intro hdel
      obtain ⟨j, p, hp, hgone, hpk⟩ := (hchange.gone k).mp hdel
      obtain ⟨hpvalid, hpname⟩ := h.entry j p hp
      have hsame := (hkey p p' hpvalid hvalid).mp (hpk.trans hk.symm)
      rw [hpname, hname] at hsame
      rw [hsame, hp'] at hgone
      cases hgone
    rcases happlied.written k hin with ⟨u, hu, huk, row, hrow, hshows⟩ | ⟨hnone, hsame⟩
    · -- the entry written last under this key is the entry itself
      obtain ⟨j, hj⟩ := hchange.new u hu
      obtain ⟨huvalid, huname⟩ := hentry j u hj
      have hji := (hkey u p' huvalid hvalid).mp (huk.trans hk.symm)
      rw [huname, hname] at hji
      rw [hji, hp'] at hj
      cases hj
      exact ⟨k, row, hk, hrow, hshows⟩
    · obtain ⟨p, hp, hkeeps⟩ := (hchange.kept i p' hp').resolve_left fun hu => hnone p' hu hk
      obtain ⟨hpvalid, hpname⟩ := h.entry i p hp
      obtain ⟨k₀, row, hk₀, hrow, hshows⟩ := h.shown i p hp
      have hkk := (hkey p p' hpvalid hvalid).mpr (hpname.trans hname.symm)
      rw [hk₀, hk] at hkk
      obtain rfl := Option.some.inj hkk
      exact ⟨k₀, row, hk, hsame.trans hrow, hkeeps row hshows⟩
  · intro k row hrow
    have hin : k ∉ dels := by
      intro hdel
      rw [happlied.deleted k hdel] at hrow
      cases hrow
    rcases happlied.written k hin with ⟨u, hu, huk, -⟩ | ⟨-, hsame⟩
    · obtain ⟨j, hj⟩ := hchange.new u hu
      exact ⟨j, u, hj, huk⟩
    · rw [hsame] at hrow
      obtain ⟨i, p, hp, hpk⟩ := h.only k row hrow
      cases hp' : table' i with
      | none => exact absurd ((hchange.gone k).mpr ⟨i, p, hp, hp', hpk⟩) hin
      | some p' =>
        obtain ⟨hpvalid, hpname⟩ := h.entry i p hp
        obtain ⟨hvalid, hname⟩ := hentry i p' hp'
        have hkk := (hkey p p' hpvalid hvalid).mpr (hpname.trans hname.symm)
        exact ⟨i, p', hp', hkk.symm.trans hpk⟩

end Change

/-! ## Writing and deleting one by one -/

section Apply
variable {key : P → Option κ} {Valid : P → Prop} {Shows : R → P → Prop} {c : S → κ → Option R}

/-- Every record of the store shows a valid entry. -/
def Showing (Valid : P → Prop) (Shows : R → P → Prop) (c : κ → Option R) : Prop :=
  ∀ k row, c k = some row → ∃ p, Valid p ∧ Shows row p

variable [DecidableEq κ]

theorem foldl_written {put : S → P → S}
    (hput : ∀ s u, Valid u → Showing Valid Shows (c s) → ∃ k row, key u = some k ∧ Shows row u ∧
      ∀ k', c (put s u) k' = if k' = k then some row else c s k')
    {ups : List P} (hvalid : ∀ u ∈ ups, Valid u) {s : S} (hs : Showing Valid Shows (c s)) (k : κ) :
    (∃ u ∈ ups, key u = some k ∧ ∃ row, c (ups.foldl put s) k = some row ∧ Shows row u) ∨
      (∀ u ∈ ups, key u ≠ some k) ∧ c (ups.foldl put s) k = c s k := by
  induction ups generalizing s with
  | nil => exact .inr ⟨nofun, rfl⟩
  | cons u ups ih =>
    have hu := hvalid u List.mem_cons_self
    obtain ⟨ku, row, hku, hshows, hcontents⟩ := hput s u hu hs
    have hnext : Showing Valid Shows (c (put s u)) := by
      intro k' row' hrow'
      rw [hcontents] at hrow'
      split at hrow'
      · cases hrow'
        exact ⟨u, hu, hshows⟩
      · exact hs k' row' hrow'
    rcases ih (fun v hv => hvalid v (List.mem_cons_of_mem _ hv)) hnext with
      ⟨v, hv, hvk, hrow⟩ | ⟨hnone, hsame⟩
    · exact .inl ⟨v, List.mem_cons_of_mem _ hv, hvk, hrow⟩
    rw [List.foldl_cons, hsame, hcontents]
    by_cases hk : k = ku
    · subst hk
      exact .inl ⟨u, List.mem_cons_self, hku, row, if_pos rfl, hshows⟩
    · refine .inr ⟨?_, if_neg hk⟩
      intro v hv hvk
      rcases List.mem_cons.mp hv with rfl | hv
      · exact hk (Option.some.inj (hvk.symm.trans hku))
      · exact hnone v hv hvk

theorem foldl_deleted {del : S → κ → S}
    (hdel : ∀ s k k', c (del s k) k' = if k' = k then none else c s k') (dels : List κ) (s : S)
    (k : κ) : c (dels.foldl del s) k = if k ∈ dels then none else c s k := by
  induction dels generalizing s with
  | nil => simp
  | cons d dels ih =>
    rw [List.foldl_cons, ih, hdel]
    by_cases hk : k = d
    · simp [hk]
    · simp [hk]

theorem applied_foldl {put : S → P → S} {del : S → κ → S}
    (hput : ∀ s u, Valid u → Showing Valid Shows (c s) → ∃ k row, key u = some k ∧ Shows row u ∧
      ∀ k', c (put s u) k' = if k' = k then some row else c s k')
    (hdel : ∀ s k k', c (del s k) k' = if k' = k then none else c s k') {ups : List P}
    (hvalid : ∀ u ∈ ups, Valid u) (dels : List κ) {s : S} (hs : Showing Valid Shows (c s)) :
    Applied key Shows ups dels (c s) (c (dels.foldl del (ups.foldl put s))) where
  deleted k hk := by rw [foldl_deleted hdel, if_pos hk]
  written k hk := by
    rw [foldl_deleted hdel, if_neg hk]
    exact foldl_written hput hvalid hs k

end Apply

end Lib
