import CqServer.Subscription.Aggregates
import CqServer.View.Records

/-!
# The view runner

`refresh`, `seed_membership`, `apply_event_incremental` and `run_view_batch` of `view.rs`, over
a source topic with its secondary index. A refresh replaces the table of what was emitted last
by a full run of the query; an event recomputes the groups its row left and joined. Either way
the difference of the tables is written to the view's topic, so the topic stays a replica of
the table (`refresh_mirrors`, `event_mirrors`).
-/

namespace CqServer

open Lib StoreState List SelectQuery

variable {σ : Schema}

/-! ## The source -/

structure Source (σ : Schema) where
  topic : Topic σ
  index : SecondaryIndex σ

def Write.call : Write → LiveWrite
  | .upsert now appendOk m => .upsertMap now appendOk m
  | .delta now appendOk m => .deltaUpsertMap now appendOk m
  | .delete appendOk key => .delete appendOk key
  | .expire appendOk ttl sweepObservedAt key => .expire appendOk ttl sweepObservedAt key

section Source
variable [HostText] {cfg : TopicConfig}

theorem Write.call_run (cfg : TopicConfig) (t : Topic σ) (w : Write) :
    w.call.run cfg t = w.perform cfg t := by
  cases w <;> rfl

theorem Write.Sound.hasKey {t : Topic σ} {w : Write} (h : w.Sound cfg t) {m : Mutation σ}
    (hm : m ∈ w.call.mutations cfg t) : m.HasKey (cfg.keyColIndices σ) := by
  have hcommit : ∀ {now appendOk v} {cols : Option (List σ.Col)},
      CqServer.Sound cfg t (publishEffect cfg now appendOk v cols) →
      m ∈ (if cfg.persist && !appendOk then [] else [Mutation.commit now v]) →
      m.HasKey (cfg.keyColIndices σ) := by
    intro now appendOk v cols hs hm
    unfold publishEffect at hs
    split at hm
    · cases hm
    rename_i hok
    rw [if_neg hok] at hs
    obtain rfl := mem_singleton.mp hm
    exact hs
  cases w with
  | upsert now appendOk m => exact hcommit (h _ rfl) hm
  | delta now appendOk m =>
    simp only [call, LiveWrite.mutations] at hm
    cases hread : deltaRead cfg t.state m with
    | none =>
      rw [hread] at hm
      cases hm
    | some d =>
      rw [hread] at hm
      refine hcommit (h (publishEffect cfg now appendOk d.values (some d.changedCols)) ?_) hm
      simp [effect?, hread]
  | delete appendOk key =>
    obtain rfl := mem_singleton.mp hm
    trivial
  | expire appendOk ttl sweepObservedAt key =>
    simp only [call, LiveWrite.mutations] at hm
    split at hm
    · obtain rfl := mem_singleton.mp hm
      trivial
    · cases hm

theorem IndexedState.mutate_indexedCols (keyCols : List σ.Col) (s : IndexedState σ)
    (m : Mutation σ) : (s.mutate keyCols m).index.indexedCols = s.index.indexedCols := by
  cases m with
  | commit now v =>
    simp only [mutate, commitValuesLocked]
    simp only [SecondaryIndex.reindexRow_eq, SecondaryIndex.indexNewRowFromStore_eq]
    split <;> split <;> rfl
  | remove key =>
    simp only [mutate, removeKey]
    cases s.state.removeKey key with
    | none => rfl
    | some p =>
      simp only [SecondaryIndex.unindexRow_eq]
      rfl

namespace Source

def write (cfg : TopicConfig) (s : Source σ) (w : Write) : Source σ where
  topic := (w.perform cfg s.topic).topic
  index := ((w.call.mutations cfg s.topic).foldl (IndexedState.mutate (cfg.keyColIndices σ))
    ⟨s.topic.state, s.index⟩).index

/-- What every topic keeps up whose writes all have a key: the index is that of the store, and
the mark of the replays is not ahead of the counter. -/
structure Consistent (cfg : TopicConfig) (s : Source σ) : Prop where
  represents : Represents (cfg.keyColIndices σ) ⟨s.topic.state, s.index⟩
  applied : s.topic.lastAppliedSequence ≤ s.topic.nextSequence

theorem Consistent.new (cfg : TopicConfig) (indexColumns : List String) :
    Consistent cfg (⟨.new σ, .new (indexColumns.filterMap σ.indexOf)⟩ : Source σ) where
  represents := Represents.build indexColumns _
  applied := le_rfl

variable {s : Source σ} {w : Write}

section
variable (cfg : TopicConfig) (s : Source σ) (w : Write)

theorem write_indexedCols :
    (s.write cfg w).index.indexedCols = s.index.indexedCols := by
  have hfold : ∀ (ms : List (Mutation σ)) (s : IndexedState σ),
      (ms.foldl (IndexedState.mutate (cfg.keyColIndices σ)) s).index.indexedCols =
        s.index.indexedCols := by
    intro ms
    induction ms with
    | nil => exact fun s => rfl
    | cons m ms ih =>
      intro s
      rw [foldl_cons, ih, IndexedState.mutate_indexedCols]
  exact hfold _ _

theorem write_applied : (s.write cfg w).topic.lastAppliedSequence = s.topic.lastAppliedSequence ∧
      s.topic.nextSequence ≤ (s.write cfg w).topic.nextSequence := by
  have hlogs : Logs cfg s.topic (w.call.run cfg s.topic).topic _ :=
    LiveWrite.run_logs s.topic w.call
  rw [Write.call_run] at hlogs
  exact ⟨hlogs.applied, hlogs.counter⟩

end

theorem Consistent.write (h : s.Consistent cfg) (hs : w.Sound cfg s.topic) :
    (s.write cfg w).Consistent cfg := by
  have hstate : ((w.call.mutations cfg s.topic).foldl (IndexedState.mutate (cfg.keyColIndices σ))
      ⟨s.topic.state, s.index⟩).state = (s.write cfg w).topic.state := by
    rw [IndexedState.foldl_mutate_state, ← LiveWrite.run_state, Write.call_run]
    rfl
  obtain ⟨happlied, hcounter⟩ := write_applied cfg s w
  refine ⟨?_, happlied.trans_le (h.applied.trans hcounter)⟩
  rw [← hstate]
  exact h.represents.mutateAll fun m hm => hs.hasKey hm

end Source

end Source

/-! ## The views that hold their output -/

namespace SelectQuery
variable [HostText] [F64Arith]

/-- The queries a view can be kept for, with these columns of the source indexed. -/
structure Viewable (q : SelectQuery σ) (indexedCols : List σ.Col) : Prop where
  source : σ.Distinct
  shape : q.GroupShape
  storable : q.Storable
  typed : q.predicate.Typed
  planned : q.predicate.Planned indexedCols

/-- The rows a view can be kept of: the groups have keys, the slots are `u32`s, and the sums
are `i64`s. -/
structure Fit (q : SelectQuery σ) (st : StoreState σ) : Prop where
  keyable : ∀ r, Member q.toParsed st r → Keyable q.groupBy (st.row r)
  slots : ∀ r, st.table.Live r → r < 2 ^ 32
  sums : q.Summable st.store

/-- `supports_incremental`, of a query on one topic. -/
def supportsIncremental (q : SelectQuery σ) : Bool :=
  q.pivot.isNone && q.unpivot.isNone && q.limit.isNone && q.offset.isNone && q.windows.isEmpty &&
    !q.groupBy.isEmpty

variable {q : SelectQuery σ}

omit [F64Arith] in
theorem GroupShape.maintained (h : q.GroupShape) (hinc : q.supportsIncremental = true) :
    q.Maintained := by
  simp only [supportsIncremental, Bool.and_eq_true, Option.isNone_iff_eq_none,
    List.isEmpty_iff] at hinc
  obtain ⟨⟨⟨⟨⟨-, -⟩, hlimit⟩, hoffset⟩, hwindows⟩, -⟩ := hinc
  exact ⟨h, hlimit, hoffset, hwindows⟩

omit [F64Arith] in
theorem Viewable.indexed {cfg : TopicConfig} {src : Source σ}
    (hq : q.Viewable src.index.indexedCols) (hsrc : src.Consistent cfg) :
    q.Indexed (cfg.keyColIndices σ) src.topic.state (some src.index) := by
  intro i hi
  cases hi
  exact ⟨hsrc.represents, hq.typed, hq.planned⟩

theorem Viewable.recomputed_entry {cfg : TopicConfig} {src : Source σ}
    (hq : q.Viewable src.index.indexedCols) (hsrc : src.Consistent cfg)
    (hfit : q.Fit src.topic.state) {k : String} {m : JsonMap}
    (h : (q.recomputed src.topic.state (some src.index)).lookup k = some m) :
    q.Output m ∧ groupKeyCanonical m q.groupNames = k := by
  unfold recomputed at h
  rw [hq.shape.executed_rows (hq.indexed hsrc),
    lookup_keyBy (hq.shape.nodup_executed hq.source _ _)] at h
  obtain ⟨hrow, rfl⟩ := h
  obtain ⟨r, hr, hout⟩ := hq.shape.mem_groups.mp ((hq.shape.executed_subperm _ _).subset hrow)
  -- the rows of the group by themselves
  let text := groupText q.groupBy (src.topic.state.store.row r)
  let s := ((q.matchingSlots src.topic.state).filter fun r' =>
    groupText q.groupBy (src.topic.state.store.row r') = text).toFinset
  have hs : ∀ r', r' ∈ s ↔ r' ∈ q.matchingSlots src.topic.state ∧
      groupText q.groupBy (src.topic.state.store.row r') = text := by
    simp [s]
  have hmember : ∀ r' ∈ s, Member q.toParsed src.topic.state r' := fun r' hr' =>
    mem_matchingSlots.mp ((hs r').mp hr').1
  have hself : r ∈ s := (hs r).mpr ⟨hr, rfl⟩
  rw [hq.shape.groupOf_eq hq.source (q.matchingSlots_ascending _) hs hself] at hout
  refine ⟨aggregateOneGroup_output hq.source hq.shape hq.storable hfit.sums
    (fun r' hr' => hfit.slots r' (hmember r' hr').1) ?_ hout, rfl⟩
  intro a ha
  exact hfit.keyable a (hmember a ((Finset.mem_sort (· ≤ ·)).mp (mem_of_mem_head? ha)))

end SelectQuery

/-! ## The runner -/

section Changes
variable [HostText]

/-- The rows to be published for some changes. -/
def toUpsert (ds : List (DeltaType × JsonMap)) : List JsonMap :=
  ds.filterMap fun d => match d.1 with
    | .add | .update => some d.2
    | .remove | .oof => none

/-- The keys to be deleted for some changes; a row without a key is skipped. -/
def toDelete (names : List String) (ds : List (DeltaType × JsonMap)) : List String :=
  ds.filterMap fun d => match d.1 with
    | .add | .update => none
    | .remove | .oof => composeViewKey names d.2

omit [HostText] in
theorem mem_diffGroup {prev new : Option JsonMap} {d : DeltaType × JsonMap}
    (h : d ∈ diffGroup prev new) :
    ((d.1 = .add ∨ d.1 = .update) ∧ new = some d.2) ∨
      d.1 = .remove ∧ prev = some d.2 ∧ new = none := by
  cases prev with
  | none =>
    cases new with
    | none => cases h
    | some row =>
      obtain rfl := mem_singleton.mp h
      exact .inl ⟨.inl rfl, rfl⟩
  | some p =>
    cases new with
    | none =>
      obtain rfl := mem_singleton.mp h
      exact .inr ⟨rfl, rfl, rfl⟩
    | some row =>
      simp only [diffGroup] at h
      split at h
      · cases h
      · obtain rfl := mem_singleton.mp h
        exact .inl ⟨.inr rfl, rfl⟩

/-- The changes of the table, as writes and deletes of records. -/
theorem Differences.tableChange {q : SelectQuery σ} {last last' : Finmap fun _ : String => JsonMap}
    {ds : List (DeltaType × JsonMap)} (h : Differences last last' ds) :
    TableChange (composeViewKey q.groupNames) (RowShows (q := q))
      (fun k => last.lookup k) (fun k => last'.lookup k) (toUpsert ds)
      (toDelete q.groupNames ds) where
  new u hu := by
    obtain ⟨d, hd, hout⟩ := mem_filterMap.mp hu
    obtain ⟨k, hk⟩ := (h d).mp hd
    rcases mem_diffGroup hk with ⟨htype | htype, hnew⟩ | ⟨htype, -, -⟩
    · rw [htype] at hout
      exact ⟨k, Option.some.inj hout ▸ hnew⟩
    · rw [htype] at hout
      exact ⟨k, Option.some.inj hout ▸ hnew⟩
    · rw [htype] at hout
      cases hout
  kept k m hm := by
    have hadd : ∀ t, t = .add ∨ t = .update → (t, m) ∈ ds → m ∈ toUpsert ds := by
      rintro t (rfl | rfl) hmem <;> exact mem_filterMap.mpr ⟨_, hmem, rfl⟩
    cases hp : last.lookup k with
    | none =>
      refine .inl (hadd .add (.inl rfl) ((h _).mpr ⟨k, ?_⟩))
      rw [hp, hm]
      exact mem_singleton_self _
    | some p =>
      by_cases heq : Json.fieldsEq p m = true
      · exact .inr ⟨p, rfl, fun row hrow => hrow.congr heq⟩
      · refine .inl (hadd .update (.inr rfl) ((h _).mpr ⟨k, ?_⟩))
        rw [hp, hm, diffGroup, if_neg heq]
        exact mem_singleton_self _
  gone key := by
    constructor
    · intro hkey
      obtain ⟨d, hd, hout⟩ := mem_filterMap.mp hkey
      obtain ⟨k, hk⟩ := (h d).mp hd
      rcases mem_diffGroup hk with ⟨htype | htype, -⟩ | ⟨htype, hprev, hnone⟩
      · rw [htype] at hout
        cases hout
      · rw [htype] at hout
        cases hout
      · rw [htype] at hout
        exact ⟨k, d.2, hprev, hnone, hout⟩
    · rintro ⟨k, p, hp, hnone, hkey⟩
      refine mem_filterMap.mpr ⟨(.remove, p), (h _).mpr ⟨k, ?_⟩, hkey⟩
      rw [hp, hnone]
      exact mem_singleton_self _

end Changes

/-- `View` with its `ViewState`; the table of the last output and the filing of the slots are
those of a subscription. -/
structure MaterializedView (q : SelectQuery σ) where
  topic : Topic (deriveViewSchema q)
  groups : AggregateSubState
  seedSeq : Nat
  lastSeenDrops : Nat

def incrementalBatchCap : Nat := 256

/-- The order in which a hash map yields its keys; it may be another at every time. -/
class WalkOrder where
  walk : Nat → Finset String → List String
  walk_perm : ∀ now keys, (walk now keys).Perm (sortedKeys keys)

namespace Unused
scoped instance sortedWalk : WalkOrder := ⟨fun _ => sortedKeys, fun _ _ => .refl _⟩
end Unused

namespace MaterializedView
variable [HostText] [F64Arith] {q : SelectQuery σ}

def empty (q : SelectQuery σ) : MaterializedView q := ⟨.new _, {}, 0, 0⟩

/-- The end of `refresh` and of `apply_event_incremental`. -/
def publish (now : Nat) (v : MaterializedView q) (groups : AggregateSubState)
    (ds : List (DeltaType × JsonMap)) : MaterializedView q :=
  { v with
    groups
    topic := q.applyToView now v.topic (toUpsert ds) (toDelete q.groupNames ds) }

def changes [WalkOrder] (now : Nat) (last next : Finmap fun _ : String => JsonMap) :
    List (DeltaType × JsonMap) :=
  (WalkOrder.walk now (last.keys ∪ next.keys)).flatMap fun k =>
    diffGroup (last.lookup k) (next.lookup k)

def refresh [WalkOrder] (src : Source σ) (now : Nat) (v : MaterializedView q) :
    MaterializedView q :=
  let next := q.recomputed src.topic.state (some src.index)
  v.publish now { v.groups with lastEmitted := next } (changes now v.groups.lastEmitted next)

def seedMembership (src : Source σ) (v : MaterializedView q) : MaterializedView q :=
  let group := q.buildGroupMembership src.topic.state.store src.topic.state.liveRows
  { v with
    groups :=
      { v.groups with
        groupRows := fun k => src.topic.state.liveRows.filter fun r => group r = some k
        rowGroup := group
        incrementalReady := true }
    seedSeq := src.topic.lastAppliedSequence }

/-- The group of an event's row: a row that is deleted by now is in none. -/
def eventGroup (q : SelectQuery σ) (st : StoreState σ) (ev : MutationEvent σ) : Option String :=
  if ev.kind ≠ .delete ∧ ev.row ∈ st.liveRows ∧
      q.predicate.compiled.holds (st.store.row ev.row) then
    some (groupText q.groupBy (st.store.row ev.row))
  else none

def applyEventIncremental (src : Source σ) (now : Nat) (v : MaterializedView q)
    (ev : MutationEvent σ) : MaterializedView q :=
  if ev.sequence ≤ v.seedSeq then v
  else
    let o := @regroup σ (q.exec none) q.toParsed src.topic.state.store v.groups ev.row
      (eventGroup q src.topic.state ev)
    v.publish now o.1 o.2

/-- `run_view_batch` on a source that does not change meanwhile, with the drop counter it reads. -/
def runViewBatch [WalkOrder] (src : Source σ) (now drops : Nat) (v : MaterializedView q)
    (batch : List (MutationEvent σ)) : MaterializedView q :=
  let dropped := drops ≠ v.lastSeenDrops
  let v := { v with lastSeenDrops := drops }
  if q.supportsIncremental ∧ ¬ dropped ∧ batch.length ≤ incrementalBatchCap then
    batch.foldl (applyEventIncremental src now) v
  else
    let v := v.refresh src now
    if q.supportsIncremental then v.seedMembership src else v

def new [WalkOrder] (q : SelectQuery σ) (src : Source σ) (now : Nat) : MaterializedView q :=
  let v := (empty q).refresh src now
  if q.supportsIncremental then v.seedMembership src else v

/-! ## What the runner keeps up -/

variable {cfg : TopicConfig} {src : Source σ} {v : MaterializedView q}

omit [F64Arith] in
theorem mirrors_empty (q : SelectQuery σ) :
    q.Mirrors (empty q).groups.lastEmitted (empty q).topic := by
  unfold SelectQuery.Mirrors
  exact Replica.empty

omit [HostText] [F64Arith] in
theorem differences_changes [WalkOrder] (now : Nat) (last next : Finmap fun _ : String => JsonMap) :
    Differences last next (changes now last next) := by
  intro d
  unfold changes
  rw [mem_flatMap]
  constructor
  · rintro ⟨k, -, hd⟩
    exact ⟨k, hd⟩
  rintro ⟨k, hd⟩
  refine ⟨k, ?_, hd⟩
  rw [(WalkOrder.walk_perm ..).mem_iff, sortedKeys, Finset.mem_sort, Finset.mem_union,
    Finmap.mem_keys, Finmap.mem_keys]
  rcases mem_diffGroup hd with ⟨-, hnew⟩ | ⟨-, hprev, -⟩
  · exact .inr (Finmap.mem_of_lookup_eq_some hnew)
  · exact .inl (Finmap.mem_of_lookup_eq_some hprev)

omit [F64Arith] in
theorem publish_mirrors {indexedCols : List σ.Col} (hq : q.Viewable indexedCols)
    (hm : q.Mirrors v.groups.lastEmitted v.topic) (now : Nat) (groups : AggregateSubState)
    {ds : List (DeltaType × JsonMap)}
    (hds : Differences v.groups.lastEmitted groups.lastEmitted ds)
    (hentry : ∀ k m, groups.lastEmitted.lookup k = some m →
      q.Output m ∧ groupKeyCanonical m q.groupNames = k) :
    q.Mirrors (v.publish now groups ds).groups.lastEmitted (v.publish now groups ds).topic :=
  hm.change hq.storable hq.shape.grouped now hentry hds.tableChange

/-- **A refresh** makes the full run the table, and the topic follows. -/
theorem refresh_mirrors [WalkOrder] (hq : q.Viewable src.index.indexedCols) (hsrc : src.Consistent cfg)
    (hfit : q.Fit src.topic.state) (hm : q.Mirrors v.groups.lastEmitted v.topic) (now : Nat) :
    q.Mirrors (q.recomputed src.topic.state (some src.index)) (v.refresh src now).topic :=
  publish_mirrors hq hm now { v.groups with lastEmitted := _ } (differences_changes _ _ _)
    fun _ _ h => hq.recomputed_entry hsrc hfit h

section
variable (v : MaterializedView q) (src : Source σ)

theorem seedMembership_rowGroup (r : Nat) :
    (v.seedMembership src).groups.rowGroup r = q.slotGroup src.topic.state r :=
  buildGroupMembership_eq q src.topic.state r

theorem seedMembership_filed :
    (v.seedMembership src).groups.Filed := by
  intro r k
  rw [seedMembership_rowGroup]
  change r ∈ src.topic.state.liveRows.filter (fun r =>
    q.buildGroupMembership src.topic.state.store src.topic.state.liveRows r = some k) ↔ _
  simp only [buildGroupMembership_eq, Finset.mem_filter, mem_liveRows]
  exact and_iff_right_of_imp fun h => (slotGroup_eq_some.mp h).1.1

end

/-- The group of an event's row is that of its slot, unless the event is a delete. -/
theorem eventGroup_cases (q : SelectQuery σ) (st : StoreState σ) (ev : MutationEvent σ) :
    eventGroup q st ev = q.slotGroup st ev.row ∧ ev.kind = .upsert ∨
      eventGroup q st ev = none ∧ ev.kind = .delete := by
  cases hkind : ev.kind with
  | upsert =>
    refine .inl ⟨?_, rfl⟩
    unfold eventGroup slotGroup Member
    simp only [hkind, mem_liveRows, ne_eq, reduceCtorEq, not_false_eq_true, true_and]
    rfl
  | delete =>
    refine .inr ⟨?_, rfl⟩
    exact if_neg fun h => h.1 hkind

/-- The first slot that is filed under a group of the event still belongs to the group. -/
def Anchored (q : SelectQuery σ) (st : StoreState σ) (groups : AggregateSubState) (row : Nat)
    (new : Option String) : Prop :=
  ∀ k ∈ dirtyGroups (groups.rowGroup row) new,
    ∀ a ∈ (((moveRow groups row (groups.rowGroup row) new).groupRows k).sort (· ≤ ·)).head?,
      q.slotGroup st a = some k

/-- The slots that are filed are `u32`s. -/
def Bounded (groups : AggregateSubState) : Prop :=
  ∀ r k, groups.rowGroup r = some k → r < 2 ^ 32

/-- **An event** recomputes its groups, and the topic follows. -/
theorem event_mirrors {indexedCols : List σ.Col} (hq : q.Viewable indexedCols)
    (hfit : q.Fit src.topic.state) (hm : q.Mirrors v.groups.lastEmitted v.topic)
    (hfiled : v.groups.Filed) (hbounded : Bounded v.groups) {ev : MutationEvent σ}
    (hanchored : Anchored q src.topic.state v.groups ev.row (eventGroup q src.topic.state ev))
    (now : Nat) :
    let o := @regroup σ (q.exec none) q.toParsed src.topic.state.store v.groups ev.row
      (eventGroup q src.topic.state ev)
    q.Mirrors o.1.lastEmitted (v.publish now o.1 o.2).topic ∧ Bounded o.1 := by
  let := q.exec none
  intro o
  have hmoved : ∀ r k, Function.update v.groups.rowGroup ev.row
      (eventGroup q src.topic.state ev) r = some k → r < 2 ^ 32 := by
    intro r k hr
    by_cases hrow : r = ev.row
    · subst hrow
      rw [Function.update_self] at hr
      rcases eventGroup_cases q src.topic.state ev with ⟨heq, -⟩ | ⟨hnone, -⟩
      · exact hfit.slots _ (slotGroup_eq_some.mp (heq ▸ hr)).1.1
      · rw [hnone] at hr
        cases hr
    · rw [Function.update_of_ne hrow] at hr
      exact hbounded r k hr
  obtain ⟨-, hgroups, -⟩ := @regroup_spec σ _ q.toParsed src.topic.state.store v.groups hfiled
    ev.row (eventGroup q src.topic.state ev)
  refine ⟨publish_mirrors hq hm now o.1 (regroup_differences _ _) ?_, fun r k hr => ?_⟩
  · intro k m hlook
    rcases refreshGroups_lookup hlook with hsame | ⟨hdirty, hout⟩
    · exact hm.entry k m hsame
    · rw [(executes_exec q none).groupOutput_eq] at hout
      have hfirst := hanchored k hdirty
      refine ⟨aggregateOneGroup_output hq.source hq.shape hq.storable hfit.sums ?_ ?_
        hout, hq.shape.aggregateOneGroup_text ?_ hout⟩
      · exact fun r hr => hmoved r k ((hfiled.moveRow ev.row _ r k).mp hr)
      · exact fun a ha => hfit.keyable a (slotGroup_eq_some.mp (hfirst a ha)).1
      · exact fun a ha => (slotGroup_eq_some.mp (hfirst a ha)).2
  · rw [show o.1.rowGroup = _ from hgroups] at hr
    exact hmoved r k hr

/-! ## The view and a full run -/

/-- The output of the query over the live rows of the source. -/
def sourceOutput (q : SelectQuery σ) (src : Source σ) : List JsonMap :=
  (q.executeFiltered src.topic.state.store (some src.index) (some src.topic.state.liveRows)).rows

/-- The live records of the view are the output of the query, one record for each group. -/
structure Exact (src : Source σ) (v : MaterializedView q) : Prop where
  one : ((sourceOutput q src).map (composeViewKey q.groupNames)).Nodup
  shown : ∀ m ∈ sourceOutput q src, ∃ k row, composeViewKey q.groupNames m = some k ∧
    v.topic.state.contents k = some row ∧ RowShows row m
  only : ∀ k row, v.topic.state.contents k = some row →
    ∃ m ∈ sourceOutput q src, composeViewKey q.groupNames m = some k

/-- A view that follows its table is exact when the table is that of a full run. -/
theorem exact_of_agree (hq : q.Viewable src.index.indexedCols) (hsrc : src.Consistent cfg)
    (hfit : q.Fit src.topic.state) (hm : q.Mirrors v.groups.lastEmitted v.topic)
    (hagree : ∀ k, Agree (v.groups.lastEmitted.lookup k)
      ((q.recomputed src.topic.state (some src.index)).lookup k)) : v.Exact src := by
  have hnodup : ((sourceOutput q src).map fun m => groupKeyCanonical m q.groupNames).Nodup := by
    rw [sourceOutput, hq.shape.executed_rows (hq.indexed hsrc)]
    exact hq.shape.nodup_executed hq.source _ _
  have hlook : ∀ {k m}, (q.recomputed src.topic.state (some src.index)).lookup k = some m ↔
      m ∈ sourceOutput q src ∧ groupKeyCanonical m q.groupNames = k := lookup_keyBy hnodup
  have houtput : ∀ m ∈ sourceOutput q src, q.Output m := fun m hmem =>
    (hq.recomputed_entry hsrc hfit (hlook.mpr ⟨hmem, rfl⟩)).1
  -- an entry of the table and the output row of its group have the same key
  have hkeys : ∀ {k p m}, v.groups.lastEmitted.lookup k = some p → m ∈ sourceOutput q src →
      groupKeyCanonical m q.groupNames = k →
      composeViewKey q.groupNames p = composeViewKey q.groupNames m := by
    intro k p m hp hmem hname
    obtain ⟨hvalid, hpname⟩ := hm.entry k p hp
    exact (hvalid.key_eq_iff (houtput m hmem)).mpr (hpname.trans hname.symm)
  refine ⟨?_, ?_, ?_⟩
  · rw [Nodup, pairwise_map] at hnodup ⊢
    refine hnodup.imp_of_mem fun {m m'} hmem hmem' hne heq => hne ?_
    exact ((houtput m hmem).key_eq_iff (houtput m' hmem')).mp heq
  · intro m hmem
    have hentry := hagree (groupKeyCanonical m q.groupNames)
    rw [hlook.mpr ⟨hmem, rfl⟩] at hentry
    cases hp : v.groups.lastEmitted.lookup (groupKeyCanonical m q.groupNames) with
    | none =>
      rw [hp] at hentry
      cases hentry
    | some p =>
      rw [hp] at hentry
      obtain ⟨k, row, hk, hrow, hshows⟩ := hm.shown _ p hp
      exact ⟨k, row, (hkeys hp hmem rfl).symm.trans hk, hrow, hshows.congr hentry⟩
  · intro k row hrow
    obtain ⟨i, p, hp, hpk⟩ := hm.only k row hrow
    have hentry := hagree i
    rw [hp] at hentry
    cases hm' : (q.recomputed src.topic.state (some src.index)).lookup i with
    | none =>
      rw [hm'] at hentry
      cases hentry
    | some m =>
      obtain ⟨hmem, hname⟩ := hlook.mp hm'
      exact ⟨m, hmem, (hkeys hp hmem hname).symm.trans hpk⟩

end MaterializedView

/-! ## A small view for concrete runs -/

namespace Trades

/-- Trades by symbol, each of a desk. -/
def schema : Schema := ⟨[⟨"sym", .string⟩, ⟨"desk", .string⟩]⟩

def config : TopicConfig := { keyFields := ["sym"] }

abbrev desk : schema.Col := ⟨1, by decide⟩

def trade (sym desk : String) : JsonMap := [("desk", .string desk), ("sym", .string sym)]

/-- `SELECT desk, COUNT(*) AS n … GROUP BY desk`. -/
def countByDesk : SelectQuery schema where
  aggregates := [{ func := .count, label := "n" }]
  groupBy := [desk]

section Runs

open Unused

theorem countByDesk_viewable : countByDesk.Viewable [] where
  source := by decide
  shape :=
    { grouped := nofun
      columns := by
        intro c hc
        obtain rfl := mem_singleton.mp hc
        exact ⟨nofun, nofun⟩
      labels := by decide
      postLabels := nofun
      visible := fun h => absurd rfl h
      pivot := rfl
      unpivot := rfl }
  storable :=
    { distinct := by decide
      aggregates := by
        intro a ha
        obtain rfl := mem_singleton.mp ha
        trivial
      postAgg := nofun }
  typed := trivial
  planned := trivial

def fits (src : Source schema) : Bool :=
  decide (src.topic.state.table.rowCount ≤ 2 ^ 32) &&
    decide (∀ r ∈ countByDesk.matchingSlots src.topic.state, Keyable [desk] (src.topic.state.row r))

theorem countByDesk_fit {src : Source schema} (h : fits src = true) :
    countByDesk.Fit src.topic.state := by
  simp only [fits, Bool.and_eq_true, decide_eq_true_eq] at h
  refine ⟨fun r hr => h.2 r (mem_matchingSlots.mpr hr), ?_, ?_⟩
  · rintro r ⟨key, hkey⟩
    exact (src.topic.state.table.slot_lt hkey).trans_le h.1
  · intro a ha hsum
    obtain rfl := mem_singleton.mp ha
    cases hsum

def emptySource : Source schema := ⟨.new schema, .new []⟩

end Runs

end Trades

end CqServer
