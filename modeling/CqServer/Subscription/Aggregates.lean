import CqServer.Subscription.ActiveSet
import CqServer.Subscription.Groups
import CqServer.Query.Select
import CqServer.Topic.Indexed

/-!
# Aggregate subscriptions

A subscription on a GROUP BY query starts from a full run of the query over the live rows
and then recomputes the groups its events touch. After every turn it shows what another
full run would show, and its filing of the slots is exact (`aggregates_recomputed`), if no
record without a key gets in: such a record takes a slot that is not live, and its group is
shown all the same (`keyless_row_is_grouped`).
-/

namespace CqServer

open Lib StoreState List Subscription

variable {σ : Schema}

namespace SelectQuery

section Store
variable [HostText] [F64Arith]

/-- The text of the group a slot belongs to, if it holds a live matching row. -/
def slotGroup (q : SelectQuery σ) (st : StoreState σ) (r : Nat) : Option String :=
  if Member q.toParsed st r then some (groupText q.groupBy (st.row r)) else none

/-- The index, if there is one, is that of the store, and the condition can be planned with it. -/
def Indexed (q : SelectQuery σ) (keyCols : List σ.Col) (st : StoreState σ)
    (ix : Option (SecondaryIndex σ)) : Prop :=
  ∀ i ∈ ix, Represents keyCols ⟨st, i⟩ ∧ q.predicate.Typed ∧ q.predicate.Planned i.indexedCols

variable {q : SelectQuery σ} {st : StoreState σ} {keyCols : List σ.Col}
  {ix : Option (SecondaryIndex σ)}

theorem slotGroup_eq_some {r : Nat} {k : String} :
    q.slotGroup st r = some k ↔ Member q.toParsed st r ∧ groupText q.groupBy (st.row r) = k := by
  unfold slotGroup
  split <;> simp_all

theorem buildGroupMembership_eq (q : SelectQuery σ) (st : StoreState σ) (r : Nat) :
    q.buildGroupMembership st.store st.liveRows r = q.slotGroup st r := by
  have hiff : (r < st.store.rowCount ∧ r ∈ st.liveRows ∧
      q.predicate.compiled.holds (st.store.row r) = true) ↔ Member q.toParsed st r := by
    rw [mem_liveRows]
    constructor
    · rintro ⟨-, hlive, hholds⟩
      exact ⟨hlive, hholds⟩
    · rintro ⟨⟨key, hkey⟩, hholds⟩
      exact ⟨st.table.slot_lt hkey, ⟨key, hkey⟩, hholds⟩
  unfold buildGroupMembership slotGroup
  simp only [hiff]
  rfl

omit [HostText] [F64Arith] in
theorem matching_none (q : SelectQuery σ) (store : ColumnStore σ) :
    q.matching store none = (range store.rowCount).filter fun r =>
      q.predicate.compiled.holds (store.row r) := by
  simp [matching, planCandidates, CandidateRows.rows]

omit [F64Arith] in
/-- The plan finds the rows that a scan finds. -/
theorem Indexed.matching_eq (h : q.Indexed keyCols st ix) :
    q.matching st.store ix = q.matching st.store none := by
  have hscan (ht : q.predicate.Typed) (r : Nat) : q.predicate.compiled.holds (st.store.row r) =
      decide (q.predicate.truth (st.row r) = .tt) := by
    simp only [Pred.compiled, Pred.matches3vl_eq_truth ht]
    rfl
  cases ix with
  | none => rfl
  | some i =>
    obtain ⟨hrep, ht, hp⟩ := h i rfl
    rw [matching_none, matching]
    split
    · exact filter_congr fun _ _ => rfl
    · refine (planCandidates_filter hrep.index ht hp hrep.unused).trans ?_
      exact filter_congr fun r _ => (hscan ht r).symm

def matchingSlots (q : SelectQuery σ) (st : StoreState σ) : List Nat :=
  (range st.store.rowCount).filter fun r => Member q.toParsed st r

theorem mem_matchingSlots {r : Nat} : r ∈ q.matchingSlots st ↔ Member q.toParsed st r := by
  simp only [matchingSlots, mem_filter, mem_range, decide_eq_true_eq]
  refine and_iff_right_of_imp ?_
  rintro ⟨⟨key, hkey⟩, -⟩
  exact st.table.slot_lt hkey

theorem matchingSlots_ascending (q : SelectQuery σ) (st : StoreState σ) :
    (q.matchingSlots st).Pairwise (· < ·) :=
  pairwise_lt_range.filter _

theorem GroupShape.executed_rows (hq : q.GroupShape) (hix : q.Indexed keyCols st ix) :
    (q.executeFiltered st.store ix (some st.liveRows)).rows =
      q.executeAggregateOn st.store (q.matchingSlots st) := by
  have hslots : ((range st.store.rowCount).filter fun r =>
      q.predicate.compiled.holds (st.store.row r)).filter (fun r => r ∈ st.liveRows) =
      q.matchingSlots st := by
    rw [filter_filter]
    refine filter_congr fun r _ => ?_
    rw [← Bool.decide_coe (q.predicate.compiled.holds (st.store.row r)), ← Bool.decide_and]
    exact decide_eq_decide.mpr (and_congr_left' mem_liveRows)
  have hagg : q.isAggregating = true := by simp [isAggregating, hq.grouped]
  simp [executeFiltered, runOn, hq.pivot, hq.unpivot, hagg, hix.matching_eq, matching_none, hslots]

/-- A full run over the live rows, by the text of the groups. -/
def recomputed (q : SelectQuery σ) (st : StoreState σ) (ix : Option (SecondaryIndex σ)) :
    Finmap fun _ : String => JsonMap :=
  keyBy (groupKeyCanonical · q.groupNames) (q.executeFiltered st.store ix (some st.liveRows)).rows

theorem GroupShape.recomputed_congr (hq : q.GroupShape) {ix' : Option (SecondaryIndex σ)}
    (hix : q.Indexed keyCols st ix) (hix' : q.Indexed keyCols st ix') :
    q.recomputed st ix = q.recomputed st ix' := by
  rw [recomputed, recomputed, hq.executed_rows hix, hq.executed_rows hix']

theorem Maintained.lookup_recomputed (hσ : σ.Distinct) (hq : q.Maintained)
    (hix : q.Indexed keyCols st ix) {s : Finset Nat} {k : String}
    (hs : ∀ r, r ∈ s ↔ q.slotGroup st r = some k) :
    (q.recomputed st ix).lookup k = q.aggregateOneGroup st.store s := by
  unfold recomputed
  rw [hq.executed_rows hix]
  refine hq.lookup_executeAggregateOn hσ (q.matchingSlots_ascending st) fun r => ?_
  rw [hs, slotGroup_eq_some, mem_matchingSlots]
  rfl

end Store

theorem slotGroup_of_touches [HostText] [F64Arith] (q : SelectQuery σ) {t t' : Topic σ}
    {ev : MutationEvent σ} (ht : Touches t t' ev) {r : Nat} (hr : r ≠ ev.row) :
    q.slotGroup t'.state r = q.slotGroup t.state r := by
  unfold slotGroup
  simp [ht.member_ne q.toParsed hr, ht.row r hr]

/-! ## The state of a subscription against the store -/

section State
variable [HostText] [F64Arith] [AggregateExec σ] {q : SelectQuery σ} {st st' : StoreState σ}
  {agg : AggregateSubState} {ix : Option (SecondaryIndex σ)}

theorem Executes.groupOutput_eq (hex : q.Executes ix) (store : ColumnStore σ)
    (agg : AggregateSubState) (k : String) :
    groupOutput q.toParsed store agg k = q.aggregateOneGroup store (agg.groupRows k) := by
  unfold groupOutput
  split
  · rename_i hempty
    simp [hempty, aggregateOneGroup]
  · exact hex.oneGroup store _

structure Maintains (q : SelectQuery σ) (st : StoreState σ) (agg : AggregateSubState) : Prop where
  filed : agg.Filed
  group : ∀ r, agg.rowGroup r = q.slotGroup st r
  shown : ∀ k, Agree (agg.lastEmitted.lookup k) (q.aggregateOneGroup st.store (agg.groupRows k))
  named : ∀ k p, agg.lastEmitted.lookup k = some p → groupKeyCanonical p q.groupNames = k

omit [AggregateExec σ] in
theorem Maintains.recomputed (h : q.Maintains st agg) (hσ : σ.Distinct) (hq : q.Maintained)
    {keyCols : List σ.Col} (hix : q.Indexed keyCols st ix) (k : String) :
    Agree (agg.lastEmitted.lookup k) ((q.recomputed st ix).lookup k) := by
  have hs : ∀ r, r ∈ agg.groupRows k ↔ q.slotGroup st r = some k := by
    intro r
    rw [h.filed, h.group]
  rw [hq.lookup_recomputed hσ hix hs]
  exact h.shown k

theorem Maintains.regroup (h : q.Maintains st agg) (hq : q.Maintained) (hex : q.Executes ix)
    {row : Nat} (hrow : ∀ r, r ≠ row → st'.row r = st.row r)
    (hgroup : ∀ r, r ≠ row → q.slotGroup st' r = q.slotGroup st r) :
    let o := CqServer.regroup q.toParsed st'.store agg row (q.slotGroup st' row)
    q.Maintains st' o.1 ∧ o.1.incrementalReady = agg.incrementalReady ∧
      o.2.foldl (applyChange q.groupNames) agg.lastEmitted = o.1.lastEmitted := by
  intro o
  obtain ⟨hfiled, hrows, hready, hdirty, hother⟩ :=
    @regroup_spec σ _ q.toParsed st'.store agg h.filed row (q.slotGroup st' row)
  have hfile : ∀ r, o.1.rowGroup r = q.slotGroup st' r := by
    intro r
    rw [show o.1.rowGroup = _ from hrows]
    by_cases hr : r = row
    · rw [hr, Function.update_self]
    · rw [Function.update_of_ne hr, h.group r, hgroup r hr]
  -- every slot filed under a group has its text
  have hnew : ∀ k out,
      groupOutput q.toParsed st'.store (moveRow agg row (agg.rowGroup row) (q.slotGroup st' row)) k =
        some out → groupKeyCanonical out q.groupNames = k := by
    intro k out hout
    rw [hex.groupOutput_eq] at hout
    refine hq.aggregateOneGroup_text ?_ hout
    intro r hr
    have hmoved : Function.update agg.rowGroup row (q.slotGroup st' row) r = some k :=
      (h.filed.moveRow row _ r k).mp ((Finset.mem_sort _).mp (mem_of_mem_head? hr))
    rw [← hrows] at hmoved
    exact (slotGroup_eq_some.mp ((hfile r).symm.trans hmoved)).2
  refine ⟨⟨hfiled, hfile, fun k => ?_, fun k p hp => ?_⟩, hready,
    refreshGroups_applied _ hnew h.named⟩
  rotate_left
  · rcases refreshGroups_lookup hp with hsame | ⟨-, hout⟩
    · exact h.named k p hsame
    · exact hnew k p hout
  by_cases hk : agg.rowGroup row = some k ∨ q.slotGroup st' row = some k
  · rw [← hex.groupOutput_eq]
    exact hdirty k hk
  · obtain ⟨hold, hnew⟩ := not_or.mp hk
    obtain ⟨hlast, hsame⟩ := hother k hold hnew
    rw [show o.1.lastEmitted.lookup k = _ from hlast, show o.1.groupRows k = _ from hsame]
    have hrest : q.aggregateOneGroup st'.store (agg.groupRows k) =
        q.aggregateOneGroup st.store (agg.groupRows k) := by
      refine aggregateOneGroup_congr fun r hr => hrow r ?_
      rintro rfl
      exact hold ((h.filed r k).mp hr)
    rw [hrest]
    exact h.shown k

omit [AggregateExec σ] in
theorem Maintained.isAggregating (hq : q.Maintained) : q.toParsed.isAggregating = true := by
  simp [ParsedQuery.isAggregating, toParsed, hq.grouped]

omit [AggregateExec σ] in
theorem Maintained.incremental (hq : q.Maintained) : needsFullRecompute q.toParsed = false := by
  simp [needsFullRecompute, toParsed, hq.grouped, hq.pivot, hq.unpivot, hq.limit, hq.offset,
    hq.windows]

/-- The subscription starts from a full run and a scan of the live rows. -/
theorem Maintains.register (hσ : σ.Distinct) (hq : q.Maintained) (hex : q.Executes ix)
    (cfg : TopicConfig) (t : Topic σ) (hix : q.Indexed (cfg.keyColIndices σ) t.state ix)
    (id : String) (opts : SubscribeOptions) :
    ∃ agg, (subscribed cfg t id q.toParsed opts).aggregate = some agg ∧
      agg.incrementalReady = true ∧ q.Maintains t.state agg := by
  have hmember : ∀ r, (if r < t.state.store.rowCount ∧ r ∈ t.state.liveRows ∧
        q.toParsed.predicate.holds (t.state.store.row r) then
      some (AggregateExec.groupKeyFromStore t.state.store r q.toParsed.groupBy) else none) =
      q.slotGroup t.state r := by
    intro r
    rw [← buildGroupMembership_eq, show AggregateExec.groupKeyFromStore t.state.store r
      q.toParsed.groupBy = _ from hex.text _ _]
    rfl
  unfold subscribed
  rw [if_pos hq.isAggregating]
  unfold seedAggregate
  have hquery : (newSubscription cfg t id q.toParsed opts).query = q.toParsed := rfl
  simp only [hquery, hq.incremental, hmember]
  refine ⟨_, rfl, rfl, ?_⟩
  have hfiled : ∀ r k, r ∈ (t.state.liveRows.filter fun r => q.slotGroup t.state r = some k) ↔
      q.slotGroup t.state r = some k := by
    intro r k
    rw [Finset.mem_filter, mem_liveRows]
    exact and_iff_right_of_imp fun h => (slotGroup_eq_some.mp h).1.1
  have hshown : ∀ k, (keyBy (groupKeyCanonical · q.groupNames) (AggregateExec.executeAggregate
      q.toParsed t.state.store (some t.state.liveRows))).lookup k =
      q.aggregateOneGroup t.state.store
        (t.state.liveRows.filter fun r => q.slotGroup t.state r = some k) := by
    intro k
    rw [hex.snapshot]
    exact hq.lookup_recomputed hσ hix fun r => hfiled r k
  refine ⟨fun r k => hfiled r k, fun r => rfl, ?_, ?_⟩
  · intro k
    refine Eq.subst (motive := fun x => Agree x _) (hshown k).symm ?_
    exact .refl _
  · intro k p hp
    refine hq.aggregateOneGroup_text ?_ ((hshown k).symm.trans hp)
    intro r hr
    have hmem := (hfiled r k).mp ((Finset.mem_sort _).mp (mem_of_mem_head? hr))
    exact (slotGroup_eq_some.mp hmem).2

end State

end SelectQuery

/-! ## Turn by turn -/

namespace Aggregates

open SelectQuery

section Turns
variable [HostText] [F64Arith] [AggregateExec σ] {cfg : TopicConfig} {q : SelectQuery σ}
  {s : Watched σ} {agg : AggregateSubState} {ix : Option (SecondaryIndex σ)}

/-- The client's copy of the groups after some deltas. -/
def receive (names : List String) (m : Finmap fun _ : String => JsonMap) (ds : List Delta) :
    Finmap fun _ : String => JsonMap :=
  ds.foldl (fun m d => applyChange names m (d.deltaType, d.rowData)) m

structure Current (q : SelectQuery σ) (s : Watched σ) (agg : AggregateSubState) : Prop where
  aggregate : s.sub.aggregate = some agg
  ready : agg.incrementalReady = true
  open_ : s.sub.closed = false
  query : s.sub.query = q.toParsed
  start : s.sub.liveStartSequence ≤ s.topic.nextSequence + 1
  maintains : q.Maintains s.topic.state agg

theorem Current.eventGroup_eq (h : Current q s agg) (hex : q.Executes ix) {t' : Topic σ}
    {ev : MutationEvent σ} (ht : Touches s.topic t' ev) :
    s.sub.eventGroup ev.row ev.kind t'.state.store = q.slotGroup t'.state ev.row := by
  have hself := ht.member_self s.sub
  rw [h.query] at hself
  unfold eventGroup slotGroup
  rw [h.query]
  simp only [hself]
  split
  · exact congrArg some (hex.text _ _)
  · rfl

theorem Current.turn (h : Current q s agg) (hq : q.Maintained) (hex : q.Executes ix) {w : Write}
    (hok : SoundFull cfg s w) :
    ∃ agg', Current q (s.turn cfg w).1 agg' ∧
      receive q.groupNames agg.lastEmitted (s.turn cfg w).2 = agg'.lastEmitted := by
  rcases hok.2.cases with ⟨hnil, hstate, hnext⟩ | ⟨ev, hev, ht⟩
  · rw [Watched.turn_of_nil hnil]
    refine ⟨agg, ⟨h.aggregate, h.ready, h.open_, h.query,
      h.start.trans (Nat.succ_le_succ hnext), ?_⟩, rfl⟩
    rw [hstate]
    exact h.maintains
  · have hmem : ev ∈ (w.perform cfg s.topic).events := by
      rw [hev]
      exact mem_singleton_self _
    have hlisten : s.sub.listens ev.sequence = true := by
      simp only [Subscription.listens, h.open_, ht.sequence, Bool.not_false, Bool.true_and,
        decide_eq_true_eq]
      exact h.start
    obtain ⟨hmaintains, hready, happlied⟩ := h.maintains.regroup hq hex ht.row fun r hr =>
      slotGroup_of_touches q ht hr
    have heval : s.sub.evaluate ev.row ev.sequence ev.kind (w.perform cfg s.topic).topic.state.store =
        s.sub.evaluateAggregatingIncremental agg ev.row ev.sequence ev.kind
          (w.perform cfg s.topic).topic.state.store := by
      unfold Subscription.evaluate Subscription.evaluateAggregating
      rw [if_pos hlisten, h.aggregate]
      dsimp only
      rw [h.ready, h.query, hq.incremental]
      rfl
    rw [Watched.turn_of_singleton hev, Subscription.receive, if_pos (hok.dispatched hmem), heval,
      Subscription.evaluateAggregatingIncremental_eq h.aggregate, h.eventGroup_eq hex ht, h.query]
    refine ⟨_, ⟨rfl, hready.trans h.ready, h.open_, rfl, ?_, hmaintains⟩, ?_⟩
    · have hstart := h.start
      have hnext := ht.next
      dsimp only
      omega
    · rw [← happlied, receive, foldl_map]
      rfl

/-- **Aggregates are those of a full run.** After every turn, if no record without a key is
published and no delete fails in its append, the output shown last is that of a full run over the
live rows, each slot is filed under the group of its row, and the deltas of the next turn lead to
the next output. -/
theorem aggregates_recomputed (hσ : σ.Distinct) (hq : q.Maintained) (hex : q.Executes ix)
    {t : Topic σ} (hix : q.Indexed (cfg.keyColIndices σ) t.state ix) {id : String}
    {opts : SubscribeOptions} {ws : List Write}
    (hrun : Run (Watched.step cfg) (SoundFull cfg) (Watched.register cfg t id q.toParsed opts) ws s) :
    ∃ agg, s.sub.aggregate = some agg ∧
      (∀ ix', q.Indexed (cfg.keyColIndices σ) s.topic.state ix' → ∀ k,
        Agree (agg.lastEmitted.lookup k) ((q.recomputed s.topic.state ix').lookup k)) ∧
      (∀ r, agg.rowGroup r = q.slotGroup s.topic.state r) ∧
      (∀ r k, r ∈ agg.groupRows k ↔ q.slotGroup s.topic.state r = some k) ∧
      ∀ w, SoundFull cfg s w → ∃ agg', (s.turn cfg w).1.sub.aggregate = some agg' ∧
        receive q.groupNames agg.lastEmitted (s.turn cfg w).2 = agg'.lastEmitted := by
  have hinit : ∃ agg, Current q (Watched.register cfg t id q.toParsed opts) agg := by
    obtain ⟨agg, hagg, hready, hmaintains⟩ := Maintains.register hσ hq hex cfg t hix id opts
    obtain ⟨-, hquery, hstart⟩ := subscribed_keeps cfg t id q.toParsed opts
    refine ⟨agg, hagg, hready, ?_, hquery, hstart.le, hmaintains⟩
    change (subscribed cfg t id q.toParsed opts).closed = false
    unfold subscribed
    rw [if_pos hq.isAggregating]
    rfl
  obtain ⟨agg, h⟩ : ∃ agg, Current q s agg := by
    refine hrun.invariant (P := fun s => ∃ agg, Current q s agg) ?_ hinit
    intro s w s' ⟨agg, h⟩ hok hstep
    cases hstep
    obtain ⟨agg', h', -⟩ := h.turn hq hex hok
    exact ⟨agg', h'⟩
  refine ⟨agg, h.aggregate, fun ix' hix' => h.maintains.recomputed hσ hq hix', h.maintains.group,
    ?_, ?_⟩
  · intro r k
    rw [h.maintains.filed, h.maintains.group]
  · intro w hok
    obtain ⟨agg', h', happlied⟩ := h.turn hq hex hok
    exact ⟨agg', h'.aggregate, happlied⟩

end Turns

/-! ## Quotes by price -/

section Quotes
open Quotes

open Unused

/-- `SELECT bid, COUNT(*) AS n … GROUP BY bid`. -/
def countByBid : SelectQuery schema where
  aggregates := [{ func := .count, label := "n" }]
  groupBy := [bid]

theorem countByBid_maintained : countByBid.Maintained where
  grouped := nofun
  columns := by
    intro c hc
    obtain rfl := mem_singleton.mp hc
    exact ⟨nofun, nofun⟩
  labels := by decide
  postLabels := nofun
  visible := fun h => absurd rfl h
  pivot := rfl
  unpivot := rfl
  limit := rfl
  offset := rfl
  windows := rfl

local instance : AggregateExec schema := countByBid.exec none

/-- Two quotes at one price, a third at another; the first moves and the second goes. -/
def priceMoves : List Write :=
  [.upsert 0 true (full "A" 1 5), .upsert 1 true (full "B" 1 5), .upsert 2 true (full "C" 2 5),
    .upsert 3 true (full "A" 2 5), .delete true "B"]

theorem aggregates_recomputed_prices : ∃ s agg, Run (Watched.step config) (SoundFull config)
        (Watched.register config (.new schema) "s" countByBid.toParsed {}) priceMoves s ∧
      s.sub.aggregate = some agg ∧ agg.groupRows "[[\"bid\",2]]" = {0, 2} ∧
      ∀ k, Agree (agg.lastEmitted.lookup k)
        ((countByBid.recomputed s.topic.state none).lookup k) := by
  simp only [exists_and_left]
  refine Run.exists_of_check
    (fun s => s.sub.aggregate.map (fun agg => agg.groupRows "[[\"bid\",2]]") = some {0, 2})
    (by decide +kernel) fun s hrun hgroup => ?_
  obtain ⟨agg, hagg, hshown, -⟩ := aggregates_recomputed Quotes.distinct countByBid_maintained
    (executes_exec countByBid none) nofun hrun
  rw [hagg] at hgroup
  exact ⟨agg, hagg, Option.some.inj hgroup, hshown none nofun⟩

/-- A publish without a key is shown as a group of its own, though its slot is not live. -/
theorem keyless_row_is_grouped : ∃ s agg, Run (Watched.step config) (fun _ w => w.isDelta = false)
        (Watched.register config (.new schema) "s" countByBid.toParsed {})
        [.upsert 0 true [("bid", num 1)]] s ∧
      s.sub.aggregate = some agg ∧ (agg.lastEmitted.lookup "[[\"bid\",1]]").isSome ∧
      agg.rowGroup 0 = some "[[\"bid\",1]]" ∧ ¬ s.topic.state.table.Live 0 ∧
      (countByBid.recomputed s.topic.state none).lookup "[[\"bid\",1]]" = none := by
  simp only [exists_and_left]
  decide +kernel

end Quotes

end Aggregates

end CqServer
