import CqServer.View.Turns

/-!
# A view under concurrent writes

The writers of the source and the view runner, step by step. A write commits and offers its
event to the tap under the write lock; if the tap is full it counts the drop before it lets go
of the lock, in a step of its own. The runner reads the store under the read lock in each
refresh, scan and event, and takes events off the tap and reads the drop counter without it.

Once the writers stop and the runner has taken everything, the view is exact
(`idle_view_exact`), under conditions that the code does not see to: no row leaves its group
between a refresh and the scan that follows it (`moved_row_stays_shown`), no drop is overlooked
because it is counted late, the first slot filed under a group that is recomputed still belongs
to it, and no delete is replayed on a slot that is in use again unless another event of the slot
is still to come.
-/

namespace CqServer.ViewRaces

open Lib StoreState SelectQuery MaterializedView List

section Races
variable {σ : Schema}

inductive Phase (σ : Schema) where
  /-- the tap is not registered -/
  | unregistered
  /-- a refresh is next -/
  | refreshing
  /-- the view is refreshed, the slots are not filed yet -/
  | seeding
  /-- events are taken off the tap -/
  | collecting (batch : List (MutationEvent σ))
  /-- the events of a batch are replayed -/
  | applying (rest : List (MutationEvent σ))
  deriving DecidableEq

structure State (q : SelectQuery σ) where
  source : Source σ
  tap : List (MutationEvent σ)
  drops : Nat
  /-- a writer has found the tap full and still has to count the drop -/
  uncounted : Bool
  phase : Phase σ
  view : MaterializedView q

inductive Move where
  | write (w : Write)
  | count
  /-- the tap of another view is full -/
  | otherDrop
  | register
  | refresh (now : Nat)
  | seed
  | receive
  | check
  | event (now : Nat)

variable {q : SelectQuery σ}

def State.pending (s : State q) : List (MutationEvent σ) :=
  match s.phase with
  | .collecting batch => batch ++ s.tap
  | .applying rest => rest ++ s.tap
  | _ => s.tap

/-- `fanout_view_tap`, up to the counting of a drop. -/
def fanoutViewTap (cap : Nat) (s : State q) (ev : MutationEvent σ) : State q :=
  match s.phase with
  | .unregistered => s
  | _ =>
    if s.tap.length < cap then { s with tap := s.tap ++ [ev] } else { s with uncounted := true }

variable [HostText] [F64Arith]

/-- The view is created on a source whose drop counter may have moved before. -/
def start (q : SelectQuery σ) (src : Source σ) (drops : Nat) : State q :=
  ⟨src, [], drops, false, .unregistered, .empty q⟩

/-- One step; a writer that has not counted its drop holds the write lock. -/
def step [WalkOrder] (cfg : TopicConfig) (cap : Nat) (s : State q) : Move → Option (State q)
  | .write w =>
    if s.uncounted then none
    else some ((w.perform cfg s.source.topic).events.foldl (fanoutViewTap cap)
      { s with source := s.source.write cfg w })
  | .count => if s.uncounted then some { s with drops := s.drops + 1, uncounted := false } else none
  | .otherDrop => some { s with drops := s.drops + 1 }
  | .register =>
    match s.phase with
    | .unregistered => some { s with phase := .refreshing }
    | _ => none
  | .refresh now =>
    match s.phase with
    | .refreshing =>
      if s.uncounted then none
      else some
        { s with
          view := s.view.refresh s.source now
          phase := if q.supportsIncremental then .seeding else .collecting [] }
    | _ => none
  | .seed =>
    match s.phase with
    | .seeding =>
      if s.uncounted then none
      else some { s with view := s.view.seedMembership s.source, phase := .collecting [] }
    | _ => none
  | .receive =>
    match s.phase, s.tap with
    | .collecting batch, ev :: tap => some { s with tap, phase := .collecting (batch ++ [ev]) }
    | _, _ => none
  | .check =>
    match s.phase with
    | .collecting (ev :: batch) =>
      some
        { s with
          view := { s.view with lastSeenDrops := s.drops }
          phase :=
            if q.supportsIncremental ∧ s.drops = s.view.lastSeenDrops ∧
                (ev :: batch).length ≤ incrementalBatchCap then .applying (ev :: batch)
            else .refreshing }
    | _ => none
  | .event now =>
    match s.phase with
    | .applying (ev :: rest) =>
      if s.uncounted then none
      else some
        { s with
          view := s.view.applyEventIncremental s.source now ev
          phase := if rest.isEmpty then .collecting [] else .applying rest }
    | _ => none

/-- The writers have stopped and the runner has processed everything. -/
def Idle (s : State q) : Prop := s.phase = .collecting [] ∧ s.tap = [] ∧ s.uncounted = false

/-- What the code does not see to. -/
def Ok (cfg : TopicConfig) (s : State q) : Move → Prop
  | .write w =>
    w.Sound cfg s.source.topic ∧ q.Fit (s.source.write cfg w).topic.state ∧
      match s.phase with
      | .seeding => ∀ r, q.slotGroup s.source.topic.state r = none ∨
          q.slotGroup (s.source.write cfg w).topic.state r = q.slotGroup s.source.topic.state r
      | _ => True
  | .check => s.uncounted = false ∨ s.drops ≠ s.view.lastSeenDrops
  | .event _ =>
    match s.phase with
    | .applying (ev :: rest) =>
      Anchored q s.source.topic.state s.view.groups ev.row (eventGroup q s.source.topic.state ev) ∧
        (ev.kind = .delete → ¬ s.source.topic.state.table.Live ev.row ∨
          ∃ ev' ∈ rest ++ s.tap, ev'.row = ev.row)
    | _ => True
  | _ => True

/-! ## Groups that are in step but for the pending events -/

/-- A slot that is not filed under its group, and a group that is not shown as it is, have an
event pending. -/
structure Synced (q : SelectQuery σ) (st : StoreState σ) (groups : AggregateSubState)
    (pending : List (MutationEvent σ)) : Prop where
  row : ∀ r, (∃ ev ∈ pending, ev.row = r) ∨ groups.rowGroup r = q.slotGroup st r
  group : ∀ k, (∃ ev ∈ pending, groups.rowGroup ev.row = some k) ∨
    Agree (groups.lastEmitted.lookup k) (q.aggregateOneGroup st.store (groups.groupRows k))

variable {groups : AggregateSubState} {st : StoreState σ}

variable {ev : MutationEvent σ} {pending : List (MutationEvent σ)}

theorem Synced.touch {t t' : Topic σ} (ht : Touches t t' ev) (hfiled : groups.Filed)
    (h : Synced q t.state groups pending) : Synced q t'.state groups (pending ++ [ev]) := by
  refine ⟨fun r => ?_, fun k => ?_⟩
  · by_cases hr : r = ev.row
    · exact .inl ⟨ev, mem_concat_self, hr.symm⟩
    · rcases h.row r with ⟨ev', hev', hrow⟩ | hsame
      · exact .inl ⟨ev', mem_append_left _ hev', hrow⟩
      · exact .inr (hsame.trans (slotGroup_of_touches q ht hr).symm)
  · by_cases hk : groups.rowGroup ev.row = some k
    · exact .inl ⟨ev, mem_concat_self, hk⟩
    · rcases h.group k with ⟨ev', hev', hrow⟩ | hagree
      · exact .inl ⟨ev', mem_append_left _ hev', hrow⟩
      · have hsame : q.aggregateOneGroup t'.state.store (groups.groupRows k) =
            q.aggregateOneGroup t.state.store (groups.groupRows k) := by
          refine aggregateOneGroup_congr fun r hr => ht.row r ?_
          rintro rfl
          exact hk ((hfiled _ k).mp hr)
        exact .inr (hsame ▸ hagree)

/-- **A write between a refresh and the scan** is covered by its event if the row does not leave
its group. -/
theorem Synced.seeding {src src' : Source σ} (ht : Touches src.topic src'.topic ev)
    {v : MaterializedView q}
    (hkeep : q.slotGroup src.topic.state ev.row = none ∨
      q.slotGroup src'.topic.state ev.row = q.slotGroup src.topic.state ev.row)
    (h : Synced q src.topic.state (v.seedMembership src).groups pending) :
    Synced q src'.topic.state (v.seedMembership src').groups (pending ++ [ev]) := by
  refine ⟨fun r => .inr (v.seedMembership_rowGroup src' r), fun k => ?_⟩
  by_cases hk : q.slotGroup src'.topic.state ev.row = some k
  · refine .inl ⟨ev, mem_concat_self, ?_⟩
    rw [seedMembership_rowGroup]
    exact hk
  · have hk₀ : q.slotGroup src.topic.state ev.row ≠ some k := by
      rcases hkeep with hnone | hsame
      · rw [hnone]
        nofun
      · exact hsame ▸ hk
    have hsame : ∀ r, q.slotGroup src'.topic.state r = some k ↔
        q.slotGroup src.topic.state r = some k := by
      intro r
      by_cases hr : r = ev.row
      · subst hr
        exact iff_of_false hk hk₀
      · rw [slotGroup_of_touches q ht hr]
    rcases h.group k with ⟨ev', hev', hrow⟩ | hagree
    · refine .inl ⟨ev', mem_append_left _ hev', ?_⟩
      rw [seedMembership_rowGroup] at hrow ⊢
      exact (hsame _).mpr hrow
    · have hrows : (v.seedMembership src').groups.groupRows k =
          (v.seedMembership src).groups.groupRows k := by
        ext r
        rw [v.seedMembership_filed src' r k, v.seedMembership_filed src r k,
          seedMembership_rowGroup, seedMembership_rowGroup]
        exact hsame r
      have hout : q.aggregateOneGroup src'.topic.state.store
          ((v.seedMembership src).groups.groupRows k) =
          q.aggregateOneGroup src.topic.state.store ((v.seedMembership src).groups.groupRows k) := by
        refine aggregateOneGroup_congr fun r hr => ht.row r ?_
        rintro rfl
        rw [v.seedMembership_filed src, seedMembership_rowGroup] at hr
        exact hk₀ hr
      rw [hrows, hout]
      exact .inr hagree

/-- **An event** puts its slot and its groups in step. -/
theorem Synced.event (hfiled : groups.Filed) (h : Synced q st groups (ev :: pending))
    (hdelete : ev.kind = .delete → ¬ st.table.Live ev.row ∨ ∃ ev' ∈ pending, ev'.row = ev.row) :
    Synced q st (@regroup σ (q.exec none) q.toParsed st.store groups ev.row
      (eventGroup q st ev)).1 pending := by
  let := q.exec none
  obtain ⟨-, hgroups, -, hdirty, hothers⟩ := @regroup_spec σ _ q.toParsed st.store groups hfiled
    ev.row (eventGroup q st ev)
  refine ⟨fun r => ?_, fun k => ?_⟩
  · rw [hgroups]
    by_cases hr : r = ev.row
    · subst hr
      rw [Function.update_self]
      rcases eventGroup_cases q st ev with ⟨heq, -⟩ | ⟨hnone, hkind⟩
      · exact .inr heq
      rcases hdelete hkind with hdead | hlater
      · refine .inr ?_
        rw [hnone, slotGroup, if_neg fun hmem => hdead hmem.1]
      · exact .inl hlater
    · rw [Function.update_of_ne hr]
      rcases h.row r with ⟨ev', hev', hrow⟩ | hsame
      · rcases mem_cons.mp hev' with rfl | hev'
        · exact absurd hrow.symm hr
        · exact .inl ⟨ev', hev', hrow⟩
      · exact .inr hsame
  · by_cases hk : groups.rowGroup ev.row = some k ∨ eventGroup q st ev = some k
    · rw [← (executes_exec q none).groupOutput_eq]
      exact .inr (hdirty k hk)
    · obtain ⟨hold, hnew⟩ := not_or.mp hk
      obtain ⟨hlast, hrows⟩ := hothers k hold hnew
      rcases h.group k with ⟨ev', hev', hrow⟩ | hagree
      · rcases mem_cons.mp hev' with rfl | hev'
        · exact absurd hrow hold
        refine .inl ⟨ev', hev', ?_⟩
        rw [hgroups, Function.update_of_ne ?_]
        · exact hrow
        · intro heq
          exact hold (heq ▸ hrow)
      · rw [hlast, hrows]
        exact .inr hagree

/-! ## What the steps keep up -/

/-- An event was lost and the runner will find out: the counter has moved or is about to, and
there is an event left to be taken before it is read. -/
def Behind (s : State q) (left : List (MutationEvent σ)) : Prop :=
  (s.drops ≠ s.view.lastSeenDrops ∨ s.uncounted = true) ∧ left ≠ []

/-- The slots are filed; unless an event was lost, what is out of step is pending. -/
structure Filing (s : State q) (left pending : List (MutationEvent σ)) : Prop where
  filed : s.view.groups.Filed
  bounded : Bounded s.view.groups
  synced : Behind s left ∨ Synced q s.source.topic.state s.view.groups pending

/-- What holds of the groups, by what the runner is doing. -/
def Tracked (s : State q) : Prop :=
  match s.phase with
  | .unregistered | .refreshing => True
  | .seeding => q.supportsIncremental = true ∧ (Behind s s.tap ∨
      Synced q s.source.topic.state (s.view.seedMembership s.source).groups s.tap)
  | .collecting batch =>
    (q.supportsIncremental = true → Filing s (batch ++ s.tap) (batch ++ s.tap)) ∧
      (q.supportsIncremental = false → batch ++ s.tap ≠ [] ∨
        ∀ k, Agree (s.view.groups.lastEmitted.lookup k)
          ((q.recomputed s.source.topic.state (some s.source.index)).lookup k))
  | .applying rest => q.supportsIncremental = true ∧ Filing s s.tap (rest ++ s.tap)

structure Kept (cfg : TopicConfig) (s : State q) : Prop where
  consistent : s.source.Consistent cfg
  viewable : q.Viewable s.source.index.indexedCols
  fit : q.Fit s.source.topic.state
  mirrors : q.Mirrors s.view.groups.lastEmitted s.view.topic
  seen : s.view.lastSeenDrops ≤ s.drops
  seed : s.view.seedSeq ≤ s.source.topic.lastAppliedSequence
  fresh : ∀ ev ∈ s.pending, s.source.topic.lastAppliedSequence < ev.sequence
  tracked : Tracked s

variable {cfg : TopicConfig} {cap : Nat} {s : State q}

section
variable (h : Kept cfg s)
include h

theorem Kept.counted (uncounted : Bool) :
    Kept cfg { s with drops := s.drops + 1, uncounted } := by
  refine { h with seen := h.seen.trans (Nat.le_succ _), tracked := ?_ }
  have hmoved : s.drops + 1 ≠ s.view.lastSeenDrops := by
    have := h.seen
    omega
  have htracked := h.tracked
  obtain ⟨source, tap, drops, lost, phase, view⟩ := s
  cases phase with
  | unregistered | refreshing => trivial
  | seeding => exact ⟨htracked.1, htracked.2.imp_left fun hb => ⟨.inl hmoved, hb.2⟩⟩
  | collecting batch =>
    refine ⟨fun hinc => ?_, htracked.2⟩
    obtain ⟨hfiled, hbounded, hsynced⟩ := htracked.1 hinc
    exact ⟨hfiled, hbounded, hsynced.imp_left fun hb => ⟨.inl hmoved, hb.2⟩⟩
  | applying rest =>
    obtain ⟨hinc, hfiled, hbounded, hsynced⟩ := htracked
    exact ⟨hinc, hfiled, hbounded, hsynced.imp_left fun hb => ⟨.inl hmoved, hb.2⟩⟩

theorem Kept.refresh [WalkOrder] (hphase : s.phase = .refreshing) (now : Nat) :
    Kept cfg { s with
      view := s.view.refresh s.source now
      phase := if q.supportsIncremental then .seeding else .collecting [] } := by
  have hmirrors := refresh_mirrors h.viewable h.consistent h.fit h.mirrors now
  have hfresh : ∀ ev ∈ s.tap, s.source.topic.lastAppliedSequence < ev.sequence := by
    have := h.fresh
    simpa only [State.pending, hphase] using this
  by_cases hinc : q.supportsIncremental = true
  · simp only [if_pos hinc]
    refine { h with mirrors := hmirrors, fresh := hfresh, tracked := ⟨hinc, .inr ?_⟩ }
    have hm := ViewTurns.maintains_refreshed h.viewable h.consistent h.fit hinc s.view now
    exact ⟨fun r => .inr (hm.group r), fun k => .inr (hm.shown k)⟩
  · simp only [if_neg hinc]
    exact { h with
      mirrors := hmirrors, fresh := hfresh
      tracked := ⟨fun hinc' => absurd hinc' hinc, fun _ => .inr fun k => .refl _⟩ }

theorem Kept.scan (hphase : s.phase = .seeding) :
    Kept cfg { s with view := s.view.seedMembership s.source, phase := .collecting [] } := by
  have hfresh := h.fresh
  simp only [State.pending, hphase] at hfresh
  have htracked := h.tracked
  simp only [Tracked, hphase] at htracked
  obtain ⟨hinc, hsynced⟩ := htracked
  refine { h with
    seed := le_rfl, fresh := hfresh
    tracked := ⟨fun _ => ⟨seedMembership_filed _ _, fun r k hr => ?_, hsynced⟩,
      fun hfull => absurd hinc (hfull ▸ nofun)⟩ }
  rw [seedMembership_rowGroup] at hr
  exact h.fit.slots r (slotGroup_eq_some.mp hr).1.1

theorem Kept.receive {batch tap : List (MutationEvent σ)}
    (hphase : s.phase = .collecting batch) (htap : s.tap = ev :: tap) :
    Kept cfg { s with tap, phase := .collecting (batch ++ [ev]) } := by
  -- what is pending stays the same
  have hpending : (batch ++ [ev]) ++ tap = batch ++ s.tap := by
    rw [htap, append_assoc, singleton_append]
  refine { h with fresh := ?_, tracked := ?_ }
  · have hfresh := h.fresh
    simp only [State.pending, hphase] at hfresh ⊢
    rwa [hpending]
  · have htracked := h.tracked
    simp only [Tracked, hphase] at htracked ⊢
    rw [hpending]
    refine ⟨fun hinc => ?_, htracked.2⟩
    obtain ⟨hfiled, hbounded, hsynced⟩ := htracked.1 hinc
    exact ⟨hfiled, hbounded, hsynced⟩

theorem Kept.check {batch : List (MutationEvent σ)} (hphase : s.phase = .collecting batch)
    (hok : s.uncounted = false ∨ s.drops ≠ s.view.lastSeenDrops) :
    Kept cfg { s with
      view := { s.view with lastSeenDrops := s.drops }
      phase :=
        if q.supportsIncremental ∧ s.drops = s.view.lastSeenDrops ∧
            batch.length ≤ incrementalBatchCap then .applying batch
        else .refreshing } := by
  have hfresh := h.fresh
  simp only [State.pending, hphase] at hfresh
  have htracked := h.tracked
  simp only [Tracked, hphase] at htracked
  by_cases hpath : q.supportsIncremental ∧ s.drops = s.view.lastSeenDrops ∧
      batch.length ≤ incrementalBatchCap
  · simp only [if_pos hpath]
    obtain ⟨hinc, hsame, -⟩ := hpath
    obtain ⟨hfiled, hbounded, hsynced⟩ := htracked.1 hinc
    have hcounted : s.uncounted = false := hok.resolve_right (not_not_intro hsame)
    refine { h with
      seen := le_rfl, fresh := hfresh, tracked := ⟨hinc, hfiled, hbounded, .inr ?_⟩ }
    rcases hsynced with ⟨hmoved | hun, -⟩ | hsynced
    · exact absurd hsame hmoved
    · rw [hcounted] at hun
      cases hun
    · exact hsynced
  · simp only [if_neg hpath]
    exact { h with
      seen := le_rfl, fresh := fun ev hev => hfresh ev (mem_append_right _ hev)
      tracked := trivial }

theorem Kept.event {rest : List (MutationEvent σ)} (hphase : s.phase = .applying (ev :: rest))
    (hanchored : Anchored q s.source.topic.state s.view.groups ev.row
      (eventGroup q s.source.topic.state ev))
    (hdelete : ev.kind = .delete → ¬ s.source.topic.state.table.Live ev.row ∨
      ∃ ev' ∈ rest ++ s.tap, ev'.row = ev.row) (now : Nat) :
    Kept cfg { s with
      view := s.view.applyEventIncremental s.source now ev
      phase := if rest.isEmpty then .collecting [] else .applying rest } := by
  let := q.exec none
  have hfresh := h.fresh
  simp only [State.pending, hphase, cons_append, forall_mem_cons] at hfresh
  have htracked := h.tracked
  simp only [Tracked, hphase] at htracked
  obtain ⟨hinc, hfiled, hbounded, hsynced⟩ := htracked
  have hnew : ¬ ev.sequence ≤ s.view.seedSeq := by
    have := h.seed
    omega
  obtain ⟨hmirrors, hbounded'⟩ := event_mirrors h.viewable h.fit h.mirrors hfiled hbounded
    hanchored now
  obtain ⟨hfiled', -⟩ := @regroup_spec σ _ q.toParsed s.source.topic.state.store s.view.groups
    hfiled ev.row (eventGroup q s.source.topic.state ev)
  unfold applyEventIncremental
  simp only [if_neg hnew]
  have hfiling : ∀ phase, Filing
      { s with
        view := s.view.publish now
          (@regroup σ (q.exec none) q.toParsed s.source.topic.state.store s.view.groups ev.row
            (eventGroup q s.source.topic.state ev)).1
          (@regroup σ (q.exec none) q.toParsed s.source.topic.state.store s.view.groups ev.row
            (eventGroup q s.source.topic.state ev)).2
        phase } s.tap (rest ++ s.tap) := fun phase =>
    ⟨hfiled', hbounded', hsynced.imp_right fun hs => hs.event hfiled hdelete⟩
  refine { h with mirrors := hmirrors, fresh := ?_, tracked := ?_ }
  · cases rest with
    | nil | cons ev' rest => exact hfresh.2
  cases rest with
  | nil => exact ⟨fun _ => hfiling _, fun hfull => absurd hinc (hfull ▸ nofun)⟩
  | cons ev' rest => exact ⟨hinc, hfiling _⟩

end

/-! ## Writes -/

variable {s' : State q} {w : Write}

section
variable (h : Kept cfg s)
include h

section
variable (hs : w.Sound cfg s.source.topic) (hfit : q.Fit (s.source.write cfg w).topic.state)
include hs hfit

theorem Kept.written (hsource : s'.source = s.source.write cfg w)
    (hview : s'.view = s.view) (hdrops : s'.drops = s.drops)
    (hfresh : ∀ ev ∈ s'.pending, s.source.topic.lastAppliedSequence < ev.sequence)
    (htracked : Tracked s') : Kept cfg s' := by
  obtain ⟨happlied, -⟩ := Source.write_applied cfg s.source w
  refine ⟨?_, ?_, ?_, ?_, ?_, ?_, ?_, htracked⟩
  · rw [hsource]
    exact h.consistent.write hs
  · rw [hsource, Source.write_indexedCols]
    exact h.viewable
  · rw [hsource]
    exact hfit
  · rw [hview]
    exact h.mirrors
  · rw [hview, hdrops]
    exact h.seen
  · rw [hview, hsource, happlied]
    exact h.seed
  · rw [hsource, happlied]
    exact hfresh

theorem Kept.quiet (hsame : (s.source.write cfg w).topic.state = s.source.topic.state) :
    Kept cfg { s with source := s.source.write cfg w } := by
  have hq := h.viewable
  rw [← Source.write_indexedCols cfg s.source w] at hq
  -- the index may have been written anew; a full run gives the same
  have hfull : q.recomputed (s.source.write cfg w).topic.state (some (s.source.write cfg w).index) =
      q.recomputed s.source.topic.state (some s.source.index) := by
    have hindexed := hq.indexed (h.consistent.write hs)
    rw [hsame] at hindexed ⊢
    exact hq.shape.recomputed_congr hindexed (h.viewable.indexed h.consistent)
  refine h.written hs hfit rfl rfl rfl h.fresh ?_
  have htracked := h.tracked
  obtain ⟨source, tap, drops, lost, phase, view⟩ := s
  cases phase with
  | unregistered | refreshing => trivial
  | seeding =>
    refine ⟨htracked.1, htracked.2.imp id fun hsynced => ?_⟩
    dsimp only [seedMembership] at hsynced ⊢
    rwa [hsame]
  | collecting batch =>
    refine ⟨fun hinc => ?_, fun hinc => ?_⟩
    · obtain ⟨hfiled, hbounded, hsynced⟩ := htracked.1 hinc
      exact ⟨hfiled, hbounded, hsynced.imp id fun hsynced => hsame ▸ hsynced⟩
    · rw [hfull]
      exact htracked.2 hinc
  | applying rest =>
    obtain ⟨hinc, hfiled, hbounded, hsynced⟩ := htracked
    exact ⟨hinc, hfiled, hbounded, hsynced.imp id fun hsynced => hsame ▸ hsynced⟩

end

theorem Kept.tapped (hok : Ok cfg s (.write w))
    (ht : Touches s.source.topic (s.source.write cfg w).topic ev) :
    Kept cfg { s with source := s.source.write cfg w, tap := s.tap ++ [ev] } := by
  obtain ⟨hs, hfit, hkeep⟩ := hok
  have hnew : s.source.topic.lastAppliedSequence < ev.sequence := by
    have := h.consistent.applied
    have := ht.sequence
    omega
  have hfresh := h.fresh
  have htracked := h.tracked
  refine h.written hs hfit rfl rfl rfl ?_ ?_
  · have hpending : State.pending { s with
        source := s.source.write cfg w, tap := s.tap ++ [ev] } = s.pending ++ [ev] := by
      unfold State.pending
      cases s.phase <;> simp only [append_assoc]
    rw [hpending]
    intro ev' hev'
    rcases mem_append.mp hev' with hold | hlast
    · exact hfresh ev' hold
    · rw [mem_singleton.mp hlast]
      exact hnew
  · obtain ⟨source, tap, drops, lost, phase, view⟩ := s
    have hsome : ∀ l : List (MutationEvent σ), l ++ [ev] ≠ [] := fun l =>
      append_ne_nil_of_right_ne_nil _ (cons_ne_nil _ _)
    cases phase with
    | unregistered | refreshing => trivial
    | seeding =>
      refine ⟨htracked.1, htracked.2.imp (fun hb => ⟨hb.1, hsome _⟩) fun hsynced => ?_⟩
      exact hsynced.seeding ht (hkeep ev.row)
    | collecting batch =>
      simp only [Tracked, ← append_assoc] at htracked ⊢
      refine ⟨fun hinc => ?_, fun _ => .inl (hsome _)⟩
      obtain ⟨hfiled, hbounded, hsynced⟩ := htracked.1 hinc
      exact ⟨hfiled, hbounded,
        hsynced.imp (fun hb => ⟨hb.1, hsome _⟩) fun hsynced => hsynced.touch ht hfiled⟩
    | applying rest =>
      obtain ⟨hinc, hfiled, hbounded, hsynced⟩ := htracked
      simp only [Tracked, ← append_assoc]
      exact ⟨hinc, hfiled, hbounded,
        hsynced.imp (fun hb => ⟨hb.1, hsome _⟩) fun hsynced => hsynced.touch ht hfiled⟩

/-- **A write whose event is lost**: the tap is full, so there is an event to be taken. -/
theorem Kept.lost (hs : w.Sound cfg s.source.topic)
    (hfit : q.Fit (s.source.write cfg w).topic.state) (htap : s.tap ≠ []) :
    Kept cfg { s with source := s.source.write cfg w, uncounted := true } := by
  have htracked := h.tracked
  refine h.written hs hfit rfl rfl rfl h.fresh ?_
  obtain ⟨source, tap, drops, lost, phase, view⟩ := s
  cases phase with
  | unregistered | refreshing => trivial
  | seeding => exact ⟨htracked.1, .inl ⟨.inr rfl, htap⟩⟩
  | collecting batch =>
    have hleft : batch ++ tap ≠ [] := append_ne_nil_of_right_ne_nil _ htap
    refine ⟨fun hinc => ?_, fun _ => .inl hleft⟩
    obtain ⟨hfiled, hbounded, -⟩ := htracked.1 hinc
    exact ⟨hfiled, hbounded, .inl ⟨.inr rfl, hleft⟩⟩
  | applying rest =>
    obtain ⟨hinc, hfiled, hbounded, -⟩ := htracked
    exact ⟨hinc, hfiled, hbounded, .inl ⟨.inr rfl, htap⟩⟩

theorem Kept.write (hcap : 0 < cap) (hok : Ok cfg s (.write w)) :
    Kept cfg ((w.perform cfg s.source.topic).events.foldl (fanoutViewTap cap)
      { s with source := s.source.write cfg w }) := by
  rcases hok.1.cases with ⟨hnil, hstate, -⟩ | ⟨ev, hev, ht⟩
  · rw [hnil]
    exact h.quiet hok.1 hok.2.1 hstate
  · rw [hev, foldl_cons, foldl_nil, fanoutViewTap]
    split
    · rename_i hphase
      refine h.written hok.1 hok.2.1 rfl rfl rfl h.fresh ?_
      simp [Tracked, show s.phase = .unregistered from hphase]
    split
    · exact h.tapped hok ht
    · rename_i hfull
      refine h.lost hok.1 hok.2.1 fun hnil => hfull ?_
      rw [hnil]
      exact hcap

end

/-! ## Runs -/

theorem Kept.start {src : Source σ} (hq : q.Viewable src.index.indexedCols)
    (hsrc : src.Consistent cfg) (hfit : q.Fit src.topic.state) (drops : Nat) :
    Kept cfg (start q src drops) where
  consistent := hsrc
  viewable := hq
  fit := hfit
  mirrors := mirrors_empty q
  seen := Nat.zero_le _
  seed := Nat.zero_le _
  fresh := nofun
  tracked := trivial

theorem Kept.step [WalkOrder] (h : Kept cfg s) (hcap : 0 < cap) {m : Move} (hok : Ok cfg s m)
    (hstep : step cfg cap s m = some s') : Kept cfg s' := by
  cases m with
  | write w =>
    simp only [ViewRaces.step] at hstep
    split at hstep
    · cases hstep
    · cases hstep
      exact h.write hcap hok
  | count =>
    obtain ⟨-, rfl⟩ := of_guard hstep
    exact h.counted false
  | otherDrop =>
    cases hstep
    exact h.counted s.uncounted
  | register =>
    simp only [ViewRaces.step] at hstep
    split at hstep
    · rename_i hphase
      cases hstep
      have hfresh := h.fresh
      simp only [State.pending, hphase] at hfresh
      exact { h with fresh := hfresh, tracked := trivial }
    · cases hstep
  | refresh now =>
    simp only [ViewRaces.step] at hstep
    split at hstep
    · rename_i hphase
      split at hstep
      · cases hstep
      · cases hstep
        exact h.refresh hphase now
    · cases hstep
  | seed =>
    simp only [ViewRaces.step] at hstep
    split at hstep
    · rename_i hphase
      split at hstep
      · cases hstep
      · cases hstep
        exact h.scan hphase
    · cases hstep
  | receive =>
    simp only [ViewRaces.step] at hstep
    split at hstep
    · rename_i hphase htap
      cases hstep
      exact h.receive hphase htap
    · cases hstep
  | check =>
    simp only [ViewRaces.step] at hstep
    split at hstep
    · rename_i hphase
      cases hstep
      exact h.check hphase hok
    · cases hstep
  | event now =>
    simp only [ViewRaces.step] at hstep
    split at hstep
    · rename_i hphase
      split at hstep
      · cases hstep
      cases hstep
      simp only [Ok, hphase] at hok
      exact h.event hphase hok.1 hok.2 now
    · cases hstep

/-- With nothing left to be taken the table is that of a full run. -/
theorem Kept.agree (h : Kept cfg s) (hidle : Idle s) (k : String) :
    Agree (s.view.groups.lastEmitted.lookup k)
      ((q.recomputed s.source.topic.state (some s.source.index)).lookup k) := by
  obtain ⟨hphase, htap, -⟩ := hidle
  have htracked := h.tracked
  simp only [Tracked, hphase, htap] at htracked
  cases hinc : q.supportsIncremental with
  | false => exact (htracked.2 hinc).resolve_left (fun hne => hne rfl) k
  | true =>
    obtain ⟨hfiled, -, hsynced⟩ := htracked.1 hinc
    rcases hsynced with ⟨-, hleft⟩ | hsynced
    · exact absurd rfl hleft
    have hmaintains : q.Maintains s.source.topic.state s.view.groups :=
      ⟨hfiled, fun r => (hsynced.row r).resolve_left nofun,
        fun k => (hsynced.group k).resolve_left nofun, fun k p hp => (h.mirrors.entry k p hp).2⟩
    exact hmaintains.recomputed h.viewable.source (h.viewable.shape.maintained hinc)
      (h.viewable.indexed h.consistent) k

/-- **A view converges.** Once the writers have stopped and the runner has processed its tap, the
live records of the view are the output of the query over the live rows, one for each group, if
every step meets `Ok` and the tap holds an event at all. -/
theorem idle_view_exact [WalkOrder] {src : Source σ} (hq : q.Viewable src.index.indexedCols)
    (hsrc : src.Consistent cfg) (hfit : q.Fit src.topic.state) (hcap : 0 < cap) {drops : Nat}
    {moves : List Move} {s : State q}
    (hrun : Run (step cfg cap) (Ok cfg) (start q src drops) moves s) (hidle : Idle s) :
    s.view.Exact s.source := by
  have h : Kept cfg s :=
    hrun.invariant (fun _ _ _ h hok hstep => h.step hcap hok hstep) (.start hq hsrc hfit drops)
  exact exact_of_agree h.viewable h.consistent h.fit h.mirrors (h.agree hidle)

/-- What is asked of the writers alone. -/
def Written (cfg : TopicConfig) (s : State q) : Move → Prop
  | .write w => w.Sound cfg s.source.topic ∧ q.Fit (s.source.write cfg w).topic.state
  | _ => True

end Races

/-! ## Trades by desk -/

section Trades
open Trades

open Unused

/-- The check of a write of a trade. -/
def writtenb (s : State countByDesk) : Move → Bool
  | .write w => decide (w.Sound config s.source.topic) && fits (s.source.write config w)
  | _ => true

theorem writtenb_written (s : State countByDesk) (m : Move) (h : writtenb s m = true) :
    Written config s m := by
  cases m with
  | write w =>
    simp only [writtenb, Bool.and_eq_true, decide_eq_true_eq] at h
    exact ⟨h.1, countByDesk_fit h.2⟩
  | _ => trivial

/-- The check of a move on trades; it lets no write pass before a scan and no delete be
replayed. -/
def okb (s : State countByDesk) (m : Move) : Bool :=
  writtenb s m &&
    match m, s.phase with
    | .write _, .seeding => false
    | .check, _ => !s.uncounted || decide (s.drops ≠ s.view.lastSeenDrops)
    | .event _, .applying (ev :: _) =>
      let new := eventGroup countByDesk s.source.topic.state ev
      decide (ev.kind ≠ .delete) &&
        (dirtyGroups (s.view.groups.rowGroup ev.row) new).all fun k =>
          (((moveRow s.view.groups ev.row (s.view.groups.rowGroup ev.row) new).groupRows k).sort
            (· ≤ ·)).head?.all fun a =>
              decide (countByDesk.slotGroup s.source.topic.state a = some k)
    | _, _ => true

theorem okb_ok (s : State countByDesk) (m : Move) (h : okb s m = true) : Ok config s m := by
  simp only [okb, Bool.and_eq_true] at h
  obtain ⟨hwritten, hcheck⟩ := h
  have hw := writtenb_written s m hwritten
  cases m with
  | write w =>
    refine ⟨hw.1, hw.2, ?_⟩
    cases hphase : s.phase with
    | seeding =>
      rw [hphase] at hcheck
      cases hcheck
    | _ => trivial
  | check =>
    simp only [Bool.or_eq_true, Bool.not_eq_true', decide_eq_true_eq] at hcheck
    exact hcheck
  | event now =>
    obtain ⟨source, tap, drops, lost, phase, view⟩ := s
    cases phase with
    | applying events =>
      cases events with
      | nil => trivial
      | cons ev rest =>
        simp only [Bool.and_eq_true, decide_eq_true_eq, all_eq_true] at hcheck
        refine ⟨fun k hk a ha => ?_, fun hkind => absurd hkind hcheck.1⟩
        have hhead := hcheck.2 k hk
        rw [Option.mem_def.mp ha] at hhead
        exact of_decide_eq_true hhead
    | _ => trivial
  | _ => trivial

/-- A trade moves to another desk while the tap is full, so the view is refreshed; that it moves
to a third one is replayed. -/
def fullTap : List Move :=
  [.register, .refresh 0, .seed, .write (.upsert 0 true (trade "A" "x")),
    .write (.upsert 1 true (trade "A" "y")), .count, .receive, .check, .refresh 2, .seed,
    .write (.upsert 3 true (trade "A" "z")), .receive, .check, .event 4]

instance (s : State countByDesk) : Decidable (Idle s) := inferInstanceAs (Decidable (_ ∧ _ ∧ _))

theorem idle_view_exact_fullTap : ∃ s,
    Run (step config 1) (Ok config) (start countByDesk emptySource 0) fullTap s ∧ Idle s ∧
      (s.view.topic.state.contents "y").isNone ∧ (s.view.topic.state.contents "z").isSome ∧
      s.view.Exact s.source := by
  refine Run.exists_of_check_with okb okb_ok
    (fun s => Idle s ∧ (s.view.topic.state.contents "y").isNone ∧
      (s.view.topic.state.contents "z").isSome)
    (by decide +kernel) fun s hrun ⟨hidle, hy, hz⟩ => ?_
  have hviewable : countByDesk.Viewable emptySource.index.indexedCols := countByDesk_viewable
  exact ⟨hidle, hy, hz,
    idle_view_exact hviewable (.new config []) (countByDesk_fit (by decide)) Nat.one_pos hrun hidle⟩

/-- A trade moves to another desk between the refresh and the scan. -/
def movedBeforeScan : List Move :=
  [.write (.upsert 0 true (trade "A" "x")), .register, .refresh 0,
    .write (.upsert 1 true (trade "A" "y")), .seed, .receive, .check, .event 1]

/-- The scan files the trade under its new desk, so its event does not touch the old one, which
stays shown although it has no trades. -/
theorem moved_row_stays_shown : ∃ s,
    Run (step config 1024) (Written config) (start countByDesk emptySource 0) movedBeforeScan s ∧
      Idle s ∧ (sourceOutput countByDesk s.source).map (composeViewKey ["desk"]) = [some "y"] ∧
      (s.view.topic.state.contents "x").isSome ∧ ¬ s.view.Exact s.source := by
  refine Run.exists_of_check_with writtenb writtenb_written (fun s => Idle s ∧
      (sourceOutput countByDesk s.source).map (composeViewKey ["desk"]) = [some "y"] ∧
      (s.view.topic.state.contents "x").isSome)
    (by decide +kernel) fun s hrun ⟨hidle, hkeys, hx⟩ => ?_
  refine ⟨hidle, hkeys, hx, fun hexact => ?_⟩
  obtain ⟨row, hrow⟩ := Option.isSome_iff_exists.mp hx
  obtain ⟨m, hm, hkey⟩ := hexact.only "x" row hrow
  have hmem := mem_map_of_mem (f := composeViewKey ["desk"]) hm
  rw [hkeys, mem_singleton] at hmem
  exact absurd (hkey.symm.trans hmem) (by decide)

end Trades

end CqServer.ViewRaces
