import CqServer.Subscription.Engine
import CqServer.Query.Incremental

/-!
# Groups that are kept up to date

A subscription or a view on a GROUP BY query keeps, for each group, the slots of its rows
and the output it emitted last. An event files one slot under another group and recomputes
the groups the slot left and joined (`regroup`). Those two then show what the store says,
and no other group changes (`regroup_spec`); what is reported is the difference
(`refreshGroups_applied`).
-/

namespace CqServer

open Lib List

variable {σ : Schema}

/-- The output emitted last and the output now, as `==` on rows compares them. -/
def Agree : Option JsonMap → Option JsonMap → Prop
  | none, none => True
  | some p, some row => Json.fieldsEq p row = true
  | _, _ => False

theorem Agree.refl (p : Option JsonMap) : Agree p p := by
  cases p with
  | none => trivial
  | some p => exact Json.fieldsEq_refl p

def AggregateSubState.Filed (agg : AggregateSubState) : Prop :=
  ∀ r k, r ∈ agg.groupRows k ↔ agg.rowGroup r = some k

theorem AggregateSubState.Filed.moveRow {agg : AggregateSubState} (h : agg.Filed) (row : Nat)
    (new : Option String) : (moveRow agg row (agg.rowGroup row) new).Filed := by
  intro r k
  have hrow := h row k
  have hother := h r k
  simp only [CqServer.moveRow]
  by_cases hr : r = row
  · subst hr
    rw [Function.update_self]
    split_ifs with hsame hnew hold
    · rw [← hsame]
      exact hrow
    · simp [hnew]
    · simp [hnew]
    · rw [hrow]
      simp [hold, hnew]
  · rw [Function.update_of_ne hr, ← hother]
    split_ifs <;> simp [hr]

section Refresh
variable [AggregateExec σ] {q : ParsedQuery σ} {store : ColumnStore σ}
  {agg : AggregateSubState}

/-- The entry of the group is its output now or an equal one that stays, and the other entries are
as they were. -/
theorem refreshGroup_cases (key : String) :
    let last := (refreshGroup q store agg key).1.lastEmitted
    (∀ k, k ≠ key → last.lookup k = agg.lastEmitted.lookup k) ∧
      (last.lookup key = groupOutput q store agg key ∨
        last.lookup key = agg.lastEmitted.lookup key ∧
          Agree (agg.lastEmitted.lookup key) (groupOutput q store agg key)) := by
  unfold refreshGroup
  cases groupOutput q store agg key with
  | none => exact ⟨fun _ hk => Finmap.lookup_erase_ne hk, .inl (Finmap.lookup_erase _ _)⟩
  | some row =>
    cases hprev : agg.lastEmitted.lookup key with
    | none => exact ⟨fun _ hk => Finmap.lookup_insert_of_ne _ hk, .inl (Finmap.lookup_insert _)⟩
    | some p =>
      dsimp only
      split
      · rename_i heq
        exact ⟨fun _ _ => rfl, .inr ⟨hprev, heq⟩⟩
      · exact ⟨fun _ hk => Finmap.lookup_insert_of_ne _ hk, .inl (Finmap.lookup_insert _)⟩

theorem refreshGroup_self (key : String) :
    Agree ((refreshGroup q store agg key).1.lastEmitted.lookup key)
      (groupOutput q store agg key) := by
  rcases (@refreshGroup_cases σ _ q store agg key).2 with hnew | ⟨hsame, hagree⟩
  · rw [hnew]
    exact .refl _
  · rw [hsame]
    exact hagree

variable {k key : String} {m : JsonMap}

theorem refreshGroup_lookup
    (h : (refreshGroup q store agg key).1.lastEmitted.lookup k = some m) :
    agg.lastEmitted.lookup k = some m ∨ k = key ∧ groupOutput q store agg k = some m := by
  obtain ⟨hother, hself⟩ := @refreshGroup_cases σ _ q store agg key
  by_cases hk : k = key
  · subst hk
    rcases hself with hnew | ⟨hsame, -⟩
    · exact .inr ⟨rfl, hnew.symm.trans h⟩
    · exact .inl (hsame.symm.trans h)
  · exact .inl ((hother k hk).symm.trans h)

/-- Every group in the list is right afterwards, and no other is touched. -/
theorem refreshGroups_spec (dirty : List String) (k : String) :
    (k ∈ dirty → Agree ((refreshGroups q store agg dirty).1.lastEmitted.lookup k)
        (groupOutput q store agg k)) ∧
      (k ∉ dirty → (refreshGroups q store agg dirty).1.lastEmitted.lookup k =
        agg.lastEmitted.lookup k) := by
  induction dirty generalizing agg with
  | nil => exact ⟨nofun, fun _ => rfl⟩
  | cons key dirty ih =>
    obtain ⟨hin, hout⟩ := @ih (refreshGroup q store agg key).1
    change (_ → Agree ((refreshGroups q store (refreshGroup q store agg key).1
      dirty).1.lastEmitted.lookup k) _) ∧ (_ → (refreshGroups q store
        (refreshGroup q store agg key).1 dirty).1.lastEmitted.lookup k = _)
    constructor
    · intro hk
      by_cases hlater : k ∈ dirty
      · exact hin hlater
      · obtain rfl := (mem_cons.mp hk).resolve_right hlater
        rw [hout hlater]
        exact refreshGroup_self k
    · intro hk
      obtain ⟨hne, hlater⟩ := not_or.mp (fun h => hk (mem_cons.mpr h))
      rw [hout hlater, (refreshGroup_cases key).1 k hne]

/-! ## Filing a slot anew -/

/-- The groups an event recomputes. -/
def dirtyGroups (old new : Option String) : List String :=
  if old = new then new.toList else old.toList ++ new.toList

/-- A slot is filed under another group, or under none. -/
def regroup (q : ParsedQuery σ) (store : ColumnStore σ) (agg : AggregateSubState) (row : Nat)
    (new : Option String) : AggregateSubState × List (DeltaType × JsonMap) :=
  refreshGroups q store (moveRow agg row (agg.rowGroup row) new)
    (dirtyGroups (agg.rowGroup row) new)

theorem Subscription.evaluateAggregatingIncremental_eq {sub : Subscription σ}
    (hagg : sub.aggregate = some agg) (row sequence : Nat) (kind : MutationKind) :
    sub.evaluateAggregatingIncremental agg row sequence kind store =
      ({ sub with
          aggregate := some (regroup sub.query store agg row (sub.eventGroup row kind store)).1 },
        (regroup sub.query store agg row (sub.eventGroup row kind store)).2.map
          fun d => sub.delta sequence d.1 0 d.2) := by
  unfold evaluateAggregatingIncremental
  dsimp only
  split
  · rename_i h
    have hstill : moveRow agg row none none = agg := by
      unfold CqServer.moveRow
      rw [← h.1]
      simp
    have hnothing : regroup sub.query store agg row (sub.eventGroup row kind store) = (agg, []) := by
      unfold regroup
      rw [h.1, h.2, hstill]
      rfl
    rw [hnothing, ← hagg]
    rfl
  · rfl

omit [AggregateExec σ] in
theorem mem_dirtyGroups {old new : Option String} :
    k ∈ dirtyGroups old new ↔ old = some k ∨ new = some k := by
  unfold dirtyGroups
  split
  · rename_i h
    simp [h]
  · simp

/-- **Filing a slot anew**: its old and its new group are right for the store, and the
other groups are as they were. -/
theorem regroup_spec (hfiled : agg.Filed) (row : Nat) (new : Option String) :
    let agg' := (regroup q store agg row new).1
    agg'.Filed ∧ agg'.rowGroup = Function.update agg.rowGroup row new ∧
      agg'.incrementalReady = agg.incrementalReady ∧
      (∀ k, agg.rowGroup row = some k ∨ new = some k →
        Agree (agg'.lastEmitted.lookup k) (groupOutput q store agg' k)) ∧
      ∀ k, agg.rowGroup row ≠ some k → new ≠ some k →
        agg'.lastEmitted.lookup k = agg.lastEmitted.lookup k ∧ agg'.groupRows k = agg.groupRows k := by
  intro agg'
  obtain ⟨hrows, hgroup, hready⟩ := @refreshGroups_files σ _ q store
    (moveRow agg row (agg.rowGroup row) new) (dirtyGroups (agg.rowGroup row) new)
  have hspec := @refreshGroups_spec σ _ q store (moveRow agg row (agg.rowGroup row) new)
    (dirtyGroups (agg.rowGroup row) new)
  refine ⟨?_, hgroup, hready, ?_, ?_⟩
  · intro r k
    rw [show agg'.groupRows = _ from hrows, show agg'.rowGroup = _ from hgroup]
    exact hfiled.moveRow row new r k
  · intro k hk
    rw [groupOutput, show agg'.groupRows = _ from hrows]
    exact (hspec k).1 (mem_dirtyGroups.mpr hk)
  · intro k hold hnew
    refine ⟨(hspec k).2 fun h => (mem_dirtyGroups.mp h).elim hold hnew, ?_⟩
    rw [show agg'.groupRows = _ from hrows]
    simp [CqServer.moveRow, hold, hnew]

/-! ## Differences -/

/-- The changes from one table to another, in whatever order. -/
def Differences (last last' : Finmap fun _ : String => JsonMap)
    (ds : List (DeltaType × JsonMap)) : Prop :=
  ∀ d, d ∈ ds ↔ ∃ k, d ∈ diffGroup (last.lookup k) (last'.lookup k)

omit [AggregateExec σ] in
theorem diffGroup_of_agree : ∀ {p row : Option JsonMap}, Agree p row → diffGroup p row = []
  | none, none, _ => rfl
  | some _, some _, h => if_pos h

theorem refreshGroup_diff (key : String) :
    (refreshGroup q store agg key).2 = diffGroup (agg.lastEmitted.lookup key)
      ((refreshGroup q store agg key).1.lastEmitted.lookup key) := by
  rcases (@refreshGroup_cases σ _ q store agg key).2 with hnew | ⟨hsame, hagree⟩
  · rw [hnew]
    rfl
  · -- an equal row stays as it was emitted
    rw [hsame, diffGroup_self]
    exact diffGroup_of_agree hagree

theorem refreshGroups_diff {dirty : List String} (hdirty : dirty.Nodup) :
    (refreshGroups q store agg dirty).2 = dirty.flatMap fun k =>
      diffGroup (agg.lastEmitted.lookup k)
        ((refreshGroups q store agg dirty).1.lastEmitted.lookup k) := by
  induction dirty generalizing agg with
  | nil => rfl
  | cons key dirty ih =>
    obtain ⟨hkey, hrest⟩ := nodup_cons.mp hdirty
    have hlast := (@refreshGroups_spec σ _ q store (refreshGroup q store agg key).1 dirty key).2 hkey
    have hothers : ∀ k ∈ dirty, (refreshGroup q store agg key).1.lastEmitted.lookup k =
        agg.lastEmitted.lookup k :=
      fun k hk => (refreshGroup_cases key).1 k fun heq => hkey (heq ▸ hk)
    have hhead := @refreshGroup_diff σ _ q store agg key
    rw [← hlast] at hhead
    change (refreshGroup q store agg key).2 ++ _ = _ ++ flatMap _ dirty
    rw [ih hrest, hhead]
    refine congrArg _ (flatMap_congr fun k hk => ?_)
    rw [hothers k hk]
    rfl

omit [AggregateExec σ] in
theorem nodup_dirtyGroups (old new : Option String) : (dirtyGroups old new).Nodup := by
  unfold dirtyGroups
  split
  · cases new <;> simp
  · cases old <;> cases new <;> simp_all

theorem regroup_differences (row : Nat) (new : Option String) :
    Differences agg.lastEmitted (regroup q store agg row new).1.lastEmitted
      (regroup q store agg row new).2 := by
  intro d
  have hdiff := @refreshGroups_diff σ _ q store (moveRow agg row (agg.rowGroup row) new) _
    (nodup_dirtyGroups (agg.rowGroup row) new)
  rw [show (regroup q store agg row new).2 = _ from hdiff, mem_flatMap]
  refine ⟨fun ⟨k, _, hd⟩ => ⟨k, hd⟩, fun ⟨k, hd⟩ => ⟨k, ?_, hd⟩⟩
  -- a group that was not recomputed has not changed
  by_contra hk
  have hsame := (@refreshGroups_spec σ _ q store (moveRow agg row (agg.rowGroup row) new)
    (dirtyGroups (agg.rowGroup row) new) k).2 hk
  rw [show (regroup q store agg row new).1.lastEmitted.lookup k = _ from hsame] at hd
  change d ∈ diffGroup (agg.lastEmitted.lookup k) (agg.lastEmitted.lookup k) at hd
  rw [diffGroup_self] at hd
  cases hd

theorem refreshGroups_lookup {dirty : List String}
    (h : (refreshGroups q store agg dirty).1.lastEmitted.lookup k = some m) :
    agg.lastEmitted.lookup k = some m ∨ k ∈ dirty ∧ groupOutput q store agg k = some m := by
  induction dirty generalizing agg with
  | nil => exact .inl h
  | cons key dirty ih =>
    rcases ih h with hone | ⟨hk, hout⟩
    · rcases refreshGroup_lookup hone with hsame | ⟨rfl, hout⟩
      · exact .inl hsame
      · exact .inr ⟨mem_cons_self, hout⟩
    · exact .inr ⟨mem_cons_of_mem _ hk, hout⟩

/-! ## What is reported -/

variable [HostText]

/-- The client's copy of the output, by group, after a change. -/
def applyChange (names : List String) (m : Finmap fun _ : String => JsonMap)
    (d : DeltaType × JsonMap) : Finmap fun _ : String => JsonMap :=
  match d.1 with
  | .add | .update => m.insert (groupKeyCanonical d.2 names) d.2
  | .remove | .oof => m.erase (groupKeyCanonical d.2 names)

variable {names : List String}

/-- What is reported turns the old table into the new one, if rows name their group. -/
theorem refreshGroup_applied
    (hnew : ∀ row, groupOutput q store agg key = some row → groupKeyCanonical row names = key)
    (hprev : ∀ p, agg.lastEmitted.lookup key = some p → groupKeyCanonical p names = key) :
    (refreshGroup q store agg key).2.foldl (applyChange names) agg.lastEmitted =
      (refreshGroup q store agg key).1.lastEmitted := by
  unfold refreshGroup diffGroup
  cases hout : groupOutput q store agg key with
  | none =>
    cases hlast : agg.lastEmitted.lookup key with
    | none =>
      refine Finmap.ext_lookup fun k => ?_
      by_cases hk : k = key
      · rw [hk, Finmap.lookup_erase]
        exact hlast
      · exact (Finmap.lookup_erase_ne hk).symm
    | some p =>
      change agg.lastEmitted.erase (groupKeyCanonical p names) = _
      rw [hprev p hlast]
  | some row =>
    cases hlast : agg.lastEmitted.lookup key with
    | none =>
      change agg.lastEmitted.insert (groupKeyCanonical row names) row = _
      rw [hnew row hout]
    | some p =>
      dsimp only
      split
      · rfl
      · change agg.lastEmitted.insert (groupKeyCanonical row names) row = _
        rw [hnew row hout]

/-- **What is reported is the difference**, if the rows of each group, filed and shown, name it. -/
theorem refreshGroups_applied (dirty : List String)
    (hnew : ∀ k row, groupOutput q store agg k = some row → groupKeyCanonical row names = k)
    (hprev : ∀ k p, agg.lastEmitted.lookup k = some p → groupKeyCanonical p names = k) :
    (refreshGroups q store agg dirty).2.foldl (applyChange names) agg.lastEmitted =
      (refreshGroups q store agg dirty).1.lastEmitted := by
  induction dirty generalizing agg with
  | nil => rfl
  | cons key dirty ih =>
    have hnext : ∀ k p, (refreshGroup q store agg key).1.lastEmitted.lookup k = some p →
        groupKeyCanonical p names = k := by
      intro k p hp
      rcases refreshGroup_lookup hp with hsame | ⟨rfl, hout⟩
      · exact hprev k p hsame
      · exact hnew k p hout
    change ((refreshGroup q store agg key).2 ++ _).foldl _ _ = _
    rw [foldl_append, refreshGroup_applied (hnew key) (hprev key),
      @ih (refreshGroup q store agg key).1 hnew hnext]
    rfl

end Refresh

end CqServer
