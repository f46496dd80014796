import CqServer.Query.GroupKey
import CqServer.Query.Select

/-!
# One group at a time

`aggregate_one_group` computes the output row of one group from the slots of its rows.
The full executor does the same for all groups at once; keyed by the text of the group
columns, its rows are those of the groups one by one (`Maintained.lookup_executeAggregateOn`).
-/

namespace CqServer

open Lib List

variable {σ : Schema}

namespace SelectQuery

section Execute
variable [HostText] [F64Arith]

variable (q : SelectQuery σ)

/-- `aggregate_one_group`: the slots in ascending order, the group columns from the first. -/
def aggregateOneGroup (store : ColumnStore σ) (members : Finset Nat) : Option JsonMap :=
  let rows := (members.sort (· ≤ ·)).map store.row
  let states := rows.foldl (updateStates q.aggregates) (initStates q.aggregates)
  rows.head?.bind fun anchor => q.emit (groupKey q.groupBy anchor) (states.map AggState.finalize)

/-- `build_group_membership`: the group of a slot, if it is live and passes the filter. -/
def buildGroupMembership (store : ColumnStore σ) (live : Finset Nat) (r : Nat) : Option String :=
  if r < store.rowCount ∧ r ∈ live ∧ q.predicate.compiled.holds (store.row r) then
    some (groupText q.groupBy (store.row r))
  else none

/-- `execute_query_with_index_filtered`: only the aggregate executor takes the filter. -/
def executeFiltered (store : ColumnStore σ) (ix : Option (SecondaryIndex σ))
    (live : Option (Finset Nat)) : QueryResult :=
  let rows := q.matching store ix
  q.runOn store <|
    if q.isAggregating && q.pivot.isNone && q.unpivot.isNone then
      rows.filter fun r => live.all fun live => r ∈ live
    else rows

/-- The executors of the query, with an index at hand when a snapshot is taken. -/
@[reducible] def exec (ix : Option (SecondaryIndex σ)) : AggregateExec σ where
  executeAggregate _ store live :=
    (q.executeFiltered store (if live.isSome then ix else none) live).rows
  aggregateOneGroup _ store members := q.aggregateOneGroup store members
  groupKeyFromStore store row cols := groupText cols (store.row row)

structure Executes [AggregateExec σ] (q : SelectQuery σ) (ix : Option (SecondaryIndex σ)) :
    Prop where
  snapshot : ∀ store live, AggregateExec.executeAggregate q.toParsed store (some live) =
    (q.executeFiltered store ix (some live)).rows
  oneGroup : ∀ store members, AggregateExec.aggregateOneGroup q.toParsed store members =
    q.aggregateOneGroup store members
  text : ∀ store row, AggregateExec.groupKeyFromStore store row q.groupBy =
    groupText q.groupBy (store.row row)

theorem executes_exec (ix : Option (SecondaryIndex σ)) : @Executes σ _ _ (q.exec ix) q ix :=
  letI := q.exec ix
  ⟨fun _ _ => rfl, fun _ _ => rfl, fun _ _ => rfl⟩

/-- A GROUP BY on columns with a text, whose names no alias takes and, if there are
expressions over aggregates, whose names do not look like those of hidden aggregates. -/
structure GroupShape : Prop where
  grouped : q.groupBy ≠ []
  columns : TextColumns q.groupBy
  labels : ∀ c ∈ q.groupBy, ∀ a ∈ q.aggregates, a.label ≠ σ.columnName c
  postLabels : ∀ c ∈ q.groupBy, ∀ p ∈ q.postAgg, p.1 ≠ σ.columnName c
  visible : q.postAgg ≠ [] → ∀ c ∈ q.groupBy, "__postagg_".isPrefixOf (σ.columnName c) = false
  pivot : q.pivot = none
  unpivot : q.unpivot = none

/-- The shapes that are maintained group by group. -/
structure Maintained : Prop extends q.GroupShape where
  limit : q.limit = none
  offset : q.offset = none
  windows : q.windows = []

/-! ## Output rows show their group -/

def groupNames : List String := q.groupBy.map σ.columnName

variable {q : SelectQuery σ}

omit [HostText] [F64Arith] in
theorem get?_filter (p : String → Bool) (n : String) (m : JsonMap) :
    JsonMap.get? (m.filter fun e => p e.1) n = if p n then m.get? n else none := by
  induction m with
  | nil => simp
  | cons e m ih =>
    obtain ⟨k, v⟩ := e
    by_cases hk : n = k
    · subst hk
      by_cases hp : p n = true
      · rw [filter_cons_of_pos (by exact hp), JsonMap.get?_cons, JsonMap.get?_cons, if_pos hp]
        simp
      · rw [filter_cons_of_neg (by exact hp), ih, if_neg hp, if_neg hp]
    · rw [JsonMap.get?_cons, if_neg hk]
      by_cases hp : p k = true
      · rw [filter_cons_of_pos (by exact hp), JsonMap.get?_cons, if_neg hk, ih]
      · rw [filter_cons_of_neg (by exact hp), ih]

variable {c : σ.Col}

omit [F64Arith] in
theorem GroupShape.get?_applyPostAgg (hq : q.GroupShape) (hc : c ∈ q.groupBy) (m : JsonMap) :
    JsonMap.get? (q.applyPostAgg m) (σ.columnName c) = m.get? (σ.columnName c) := by
  unfold GroupQuery.applyPostAgg
  split
  · rfl
  rename_i hne
  have hsome : q.postAgg ≠ [] := by simpa using hne
  rw [get?_filter fun n => !"__postagg_".isPrefixOf n, if_pos (by simp [hq.visible hsome c hc])]
  exact JsonMap.get?_foldl_insert Prod.fst (fun m (p : String × (JsonMap → Json)) => p.2 m)
    (fun p hp => hq.postLabels c hc p hp) m

variable {m : JsonMap} {values : List Json}

omit [F64Arith] in
theorem GroupShape.emit_group (hq : q.GroupShape) {key : List GroupKeyPart}
    (h : q.emit key values = some m) (hc : c ∈ q.groupBy) :
    m.get? (σ.columnName c) = (keyMap q.groupBy key).get? (σ.columnName c) := by
  unfold GroupQuery.emit at h
  dsimp only at h
  split at h
  · cases h
    rw [hq.get?_applyPostAgg hc]
    refine JsonMap.get?_foldl_insert (fun e : AggregateSpec σ × Json => e.1.label) (fun _ e => e.2) ?_ _
    intro e he
    exact hq.labels c hc e.1 (of_mem_zip he).1
  · cases h

omit [F64Arith] in
theorem GroupShape.emit_text (hq : q.GroupShape) {r : Row σ}
    (h : q.emit (groupKey q.groupBy r) values = some m) :
    groupKeyCanonical m q.groupNames = groupText q.groupBy r := by
  unfold groupKeyCanonical groupText groupNames
  rw [groupKeyCanonical, map_map, map_map]
  refine congrArg (fun items => Json.render (.array items)) (map_congr_left fun c hc => ?_)
  simp [hq.emit_group h hc]

/-! ## The groups of the executor, one by one -/

variable {store : ColumnStore σ} {slots : List Nat}

def groupOf (q : SelectQuery σ) (store : ColumnStore σ) (slots : List Nat) (r : Nat) :
    Option JsonMap :=
  let key := groupKey q.groupBy (store.row r)
  q.emit key (q.aggregates.map fun a =>
    a.value (members (groupKey q.groupBy) (slots.map store.row) key))

theorem GroupShape.mem_groups (hq : q.GroupShape) :
    m ∈ q.groups (slots.map store.row) ↔ ∃ r ∈ slots, q.groupOf store slots r = some m := by
  unfold GroupQuery.groups GroupQuery.keys
  rw [if_neg hq.grouped, mem_filterMap]
  simp only [mem_distinct, mem_map, exists_exists_and_eq_and]
  rfl

theorem GroupShape.nodup_texts (hσ : σ.Distinct) (hq : q.GroupShape) :
    ((q.groups (slots.map store.row)).map fun m => groupKeyCanonical m q.groupNames).Nodup := by
  unfold GroupQuery.groups GroupQuery.keys
  rw [if_neg hq.grouped, Nodup, pairwise_map, pairwise_filterMap]
  refine (nodup_distinct _).pairwise_of_forall_ne ?_
  intro k hk k' hk' hne m hm m' hm' heq
  obtain ⟨r, -, rfl⟩ := mem_map.mp (mem_distinct.mp hk)
  obtain ⟨r', -, rfl⟩ := mem_map.mp (mem_distinct.mp hk')
  rw [hq.emit_text hm, hq.emit_text hm'] at heq
  exact hne ((groupText_eq_iff hσ hq.columns).mp heq)

variable {s : Finset Nat}

theorem aggregateOneGroup_of_sort {a : Nat} {rest : List Nat} (h : s.sort (· ≤ ·) = a :: rest) :
    q.aggregateOneGroup store s = q.emit (groupKey q.groupBy (store.row a))
      (q.aggregates.map fun spec => spec.value ((a :: rest).map store.row)) := by
  unfold aggregateOneGroup
  dsimp only
  rw [h, foldl_updateStates, map_map]
  rfl

variable {k : String}

theorem GroupShape.groupOf_eq (hσ : σ.Distinct) (hq : q.GroupShape)
    (hslots : slots.Pairwise (· < ·))
    (hs : ∀ r, r ∈ s ↔ r ∈ slots ∧ groupText q.groupBy (store.row r) = k) {r : Nat} (hr : r ∈ s) :
    q.groupOf store slots r = q.aggregateOneGroup store s := by
  have hsort := sort_eq_filter hslots hs
  have hsame : ∀ r', groupText q.groupBy (store.row r') = k ↔
      groupKey q.groupBy (store.row r') = groupKey q.groupBy (store.row r) := by
    intro r'
    rw [← ((hs r).mp hr).2]
    exact groupText_eq_iff hσ hq.columns
  cases hlist : s.sort (· ≤ ·) with
  | nil =>
    have hmem : r ∈ s.sort (· ≤ ·) := (Finset.mem_sort _).mpr hr
    rw [hlist] at hmem
    cases hmem
  | cons a rest =>
    have hkey : groupKey q.groupBy (store.row a) = groupKey q.groupBy (store.row r) := by
      have ha : a ∈ s := (Finset.mem_sort (· ≤ ·)).mp (hlist ▸ mem_cons_self)
      exact (hsame a).mp ((hs a).mp ha).2
    have hrows : members (groupKey q.groupBy) (slots.map store.row)
        (groupKey q.groupBy (store.row r)) = (a :: rest).map store.row := by
      rw [← hlist, hsort, members, filter_map]
      refine congrArg _ (filter_congr fun r' _ => ?_)
      simp [hsame r']
    rw [aggregateOneGroup_of_sort hlist, groupOf, hrows, hkey]

/-- The executor shows some of the groups, in some order. -/
theorem GroupShape.executed_subperm (hq : q.GroupShape) (store : ColumnStore σ) (slots : List Nat) :
    (q.executeAggregateOn store slots).Subperm (q.groups (slots.map store.row)) := by
  unfold executeAggregateOn
  rw [GroupQuery.execute_eq_groups (.inr hq.grouped)]
  have hsorted : (if q.orderBy = [] then q.groups (slots.map store.row)
      else sortBy (compareOutput q.orderNames) (q.groups (slots.map store.row))).Perm
      (q.groups (slots.map store.row)) := by
    split
    · exact .refl _
    · exact sortBy_perm _ _
  refine Subperm.trans (Sublist.subperm ?_) hsorted.subperm
  cases q.limit with
  | none => exact .refl _
  | some n => exact take_sublist _ _

theorem GroupShape.nodup_executed (hσ : σ.Distinct) (hq : q.GroupShape) (store : ColumnStore σ)
    (slots : List Nat) :
    ((q.executeAggregateOn store slots).map fun m => groupKeyCanonical m q.groupNames).Nodup := by
  obtain ⟨l, hperm, hsub⟩ := hq.executed_subperm store slots
  exact (hperm.map _).nodup_iff.mp ((hq.nodup_texts hσ).sublist (hsub.map _))

/-- **The executor and the groups one by one**: what the executor shows under a text is
the output of the slots with that text. -/
theorem Maintained.lookup_executeAggregateOn (hσ : σ.Distinct) (hq : q.Maintained)
    (hslots : slots.Pairwise (· < ·))
    (hs : ∀ r, r ∈ s ↔ r ∈ slots ∧ groupText q.groupBy (store.row r) = k) :
    (keyBy (groupKeyCanonical · q.groupNames) (q.executeAggregateOn store slots)).lookup k =
      q.aggregateOneGroup store s := by
  have hperm : (q.executeAggregateOn store slots).Perm (q.groups (slots.map store.row)) := by
    unfold executeAggregateOn
    rw [GroupQuery.execute_eq_groups (.inr hq.grouped), hq.limit]
    split
    · exact .refl _
    · exact sortBy_perm _ _
  refine Option.ext fun m => ?_
  rw [lookup_keyBy (hq.nodup_executed hσ store slots), hperm.mem_iff, hq.mem_groups]
  constructor
  · rintro ⟨⟨r, hr, hout⟩, htext⟩
    rw [hq.emit_text hout] at htext
    rw [← hout]
    exact (hq.groupOf_eq hσ hslots hs ((hs r).mpr ⟨hr, htext⟩)).symm
  · intro hout
    obtain ⟨r, hr⟩ : s.Nonempty := by
      rw [Finset.nonempty_iff_ne_empty]
      rintro rfl
      simp [aggregateOneGroup] at hout
    have hgroup := hq.groupOf_eq hσ hslots hs hr
    rw [hout] at hgroup
    exact ⟨⟨r, ((hs r).mp hr).1, hgroup⟩, (hq.emit_text hgroup).trans ((hs r).mp hr).2⟩

theorem aggregateOneGroup_congr {store store' : ColumnStore σ}
    (h : ∀ r ∈ s, store.row r = store'.row r) :
    q.aggregateOneGroup store s = q.aggregateOneGroup store' s := by
  have hrows : (s.sort (· ≤ ·)).map store.row = (s.sort (· ≤ ·)).map store'.row :=
    map_congr_left fun r hr => h r ((Finset.mem_sort _).mp hr)
  unfold aggregateOneGroup
  rw [hrows]

/-- A group that is shown names itself, if its first row does. -/
theorem GroupShape.aggregateOneGroup_text (hq : q.GroupShape)
    (hs : ∀ a ∈ (s.sort (· ≤ ·)).head?, groupText q.groupBy (store.row a) = k)
    (h : q.aggregateOneGroup store s = some m) : groupKeyCanonical m q.groupNames = k := by
  cases hlist : s.sort (· ≤ ·) with
  | nil => simp [aggregateOneGroup, hlist] at h
  | cons a rest =>
    rw [aggregateOneGroup_of_sort hlist] at h
    rw [hlist] at hs
    exact (hq.emit_text h).trans (hs a rfl)

end Execute

end SelectQuery

end CqServer
