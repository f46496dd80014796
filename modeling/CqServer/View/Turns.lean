import CqServer.View.Runner

/-!
# A view, write by write

The source and the view when every event is processed before the next write. Whether the
runner replays the event or refreshes the view (which it does when the drop counter has moved,
also by the drops of another view), the live records are afterwards the output of the query
over the live rows, one record for each group (`view_exact`), as long as every group has a key
(`Fit`) and the columns of the view hold the values (`Viewable`). A group without a key is
published onto slot 0, whoever holds it (`null_group_overwrites_record`).
-/

namespace CqServer.ViewTurns

open Lib StoreState SelectQuery MaterializedView

section Turns
variable {σ : Schema} [HostText] [F64Arith] [WalkOrder] {cfg : TopicConfig} {q : SelectQuery σ}

structure State (q : SelectQuery σ) where
  source : Source σ
  view : MaterializedView q

structure Move where
  write : Write
  now : Nat
  drops : Nat

def start (q : SelectQuery σ) (src : Source σ) (now : Nat) : State q := ⟨src, .new q src now⟩

def turn (cfg : TopicConfig) (s : State q) (m : Move) : State q :=
  let source := s.source.write cfg m.write
  match (m.write.perform cfg s.source.topic).events with
  | [] => ⟨source, s.view⟩
  | batch => ⟨source, s.view.runViewBatch source m.now m.drops batch⟩

def step (cfg : TopicConfig) (s : State q) (m : Move) : Option (State q) := some (turn cfg s m)

/-- The write has a key and is announced, and the rows it leaves are such that a view can be
kept of them. -/
def Ok (cfg : TopicConfig) (s : State q) (m : Move) : Prop :=
  m.write.Sound cfg s.source.topic ∧ q.Fit (s.source.write cfg m.write).topic.state

/-! ## What the turns keep up -/

structure Kept (cfg : TopicConfig) (s : State q) : Prop where
  consistent : s.source.Consistent cfg
  viewable : q.Viewable s.source.index.indexedCols
  fit : q.Fit s.source.topic.state
  seed : s.view.seedSeq ≤ s.source.topic.lastAppliedSequence
  mirrors : q.Mirrors s.view.groups.lastEmitted s.view.topic
  maintains : q.supportsIncremental = true → q.Maintains s.source.topic.state s.view.groups
  agree : ∀ k, Agree (s.view.groups.lastEmitted.lookup k)
    ((q.recomputed s.source.topic.state (some s.source.index)).lookup k)

section
variable {src : Source σ} (hq : q.Viewable src.index.indexedCols) (hsrc : src.Consistent cfg)
  (hfit : q.Fit src.topic.state)
include hq hsrc hfit

/-- After a refresh and a scan for the groups every slot is filed and every group is shown. -/
theorem maintains_refreshed (hinc : q.supportsIncremental = true) (v : MaterializedView q)
    (now : Nat) :
    q.Maintains src.topic.state ((v.refresh src now).seedMembership src).groups := by
  have hgroup := (v.refresh src now).seedMembership_rowGroup src
  have hfiled := (v.refresh src now).seedMembership_filed src
  refine ⟨hfiled, hgroup, fun k => ?_, fun k p h => (hq.recomputed_entry hsrc hfit h).2⟩
  have hlook := (hq.shape.maintained hinc).lookup_recomputed hq.source (hq.indexed hsrc)
    (k := k) fun r => by
      rw [hfiled, hgroup]
  rw [← hlook]
  exact .refl _

/-- **A refresh** leaves the view up to date, wherever it starts from. -/
theorem Kept.refreshed (v : MaterializedView q) (hseed : v.seedSeq ≤ src.topic.lastAppliedSequence)
    (hm : q.Mirrors v.groups.lastEmitted v.topic) (now : Nat) :
    Kept cfg ⟨src, if q.supportsIncremental then (v.refresh src now).seedMembership src
      else v.refresh src now⟩ := by
  have hmirrors := refresh_mirrors hq hsrc hfit hm now
  split
  · rename_i hinc
    exact ⟨hsrc, hq, hfit, le_rfl, hmirrors,
      fun _ => maintains_refreshed hq hsrc hfit hinc v now, fun k => .refl _⟩
  · rename_i hinc
    exact ⟨hsrc, hq, hfit, hseed, hmirrors, fun h => absurd h hinc, fun k => .refl _⟩

end

omit [WalkOrder] in
/-- **An event** that is replayed right after its write leaves the view up to date. -/
theorem Kept.replayed {s : State q} (h : Kept cfg s) {w : Write} (hs : w.Sound cfg s.source.topic)
    (hfit : q.Fit (s.source.write cfg w).topic.state) (hinc : q.supportsIncremental = true)
    {ev : MutationEvent σ} (ht : Touches s.source.topic (s.source.write cfg w).topic ev)
    (now drops : Nat) :
    Kept cfg ⟨s.source.write cfg w, ({ s.view with lastSeenDrops := drops }).applyEventIncremental
      (s.source.write cfg w) now ev⟩ := by
  let := q.exec none
  have hq := h.viewable
  rw [← Source.write_indexedCols cfg s.source w] at hq
  have hsrc := h.consistent.write hs
  obtain ⟨happlied, -⟩ := Source.write_applied cfg s.source w
  have hseed := h.seed.trans_eq happlied.symm
  have hfresh : ¬ ev.sequence ≤ s.view.seedSeq := by
    have hle := h.consistent.applied
    have hseq := ht.sequence
    omega
  have hevent : eventGroup q (s.source.write cfg w).topic.state ev =
      q.slotGroup (s.source.write cfg w).topic.state ev.row := by
    rcases eventGroup_cases q (s.source.write cfg w).topic.state ev with ⟨heq, -⟩ | ⟨hnone, hkind⟩
    · exact heq
    have hdead : ¬ (s.source.write cfg w).topic.state.table.Live ev.row := by
      rw [← ht.kind, hkind]
      nofun
    rw [hnone, slotGroup, if_neg fun hmem => hdead hmem.1]
  obtain ⟨hmaintains, -, -⟩ := (h.maintains hinc).regroup (hq.shape.maintained hinc)
    (executes_exec q none) ht.row fun r hr => slotGroup_of_touches q ht hr
  obtain ⟨hmoved, hfile, -⟩ := @regroup_spec σ _ q.toParsed
    (s.source.write cfg w).topic.state.store s.view.groups (h.maintains hinc).filed ev.row
    (q.slotGroup (s.source.write cfg w).topic.state ev.row)
  -- every slot is filed under its group, so the first one of a group is
  have hanchored : Anchored q (s.source.write cfg w).topic.state s.view.groups ev.row
      (eventGroup q (s.source.write cfg w).topic.state ev) := by
    rw [hevent]
    intro k _ a ha
    have hmem := (Finset.mem_sort _).mp (List.mem_of_mem_head? ha)
    have hrow := ((h.maintains hinc).filed.moveRow ev.row _ a k).mp hmem
    rw [← hmaintains.group a]
    exact (congrFun hfile a).trans hrow
  have hbounded : Bounded s.view.groups := by
    intro r k hr
    rw [(h.maintains hinc).group] at hr
    exact h.fit.slots r (slotGroup_eq_some.mp hr).1.1
  obtain ⟨hmirrors, -⟩ := event_mirrors hq hfit
    h.mirrors (h.maintains hinc).filed hbounded hanchored now
  unfold applyEventIncremental
  rw [if_neg hfresh]
  rw [← hevent] at hmaintains
  exact ⟨hsrc, hq, hfit, hseed, hmirrors, fun _ => hmaintains,
    hmaintains.recomputed hq.source (hq.shape.maintained hinc) (hq.indexed hsrc)⟩

theorem Kept.turn {s : State q} (h : Kept cfg s) {m : Move} (hok : Ok cfg s m) :
    Kept cfg (turn cfg s m) := by
  have hq := h.viewable
  rw [← Source.write_indexedCols cfg s.source m.write] at hq
  have hsrc := h.consistent.write hok.1
  obtain ⟨happlied, -⟩ := Source.write_applied cfg s.source m.write
  have hseed := h.seed.trans_eq happlied.symm
  unfold ViewTurns.turn
  rcases hok.1.cases with ⟨hnil, hstate, -⟩ | ⟨ev, hev, ht⟩
  · rw [hnil]
    have hsame : (s.source.write cfg m.write).topic.state = s.source.topic.state := hstate
    refine ⟨hsrc, hq, hok.2, hseed, h.mirrors, ?_, ?_⟩
    · rw [hsame]
      exact h.maintains
    · have hfull := hq.shape.recomputed_congr (hq.indexed hsrc)
        (hsame ▸ h.viewable.indexed h.consistent)
      rw [hfull, hsame]
      exact h.agree
  · rw [hev]
    unfold runViewBatch
    dsimp only
    split
    · rename_i hpath
      exact h.replayed hok.1 hok.2 hpath.1 ht m.now m.drops
    · exact .refreshed hq hsrc hok.2 { s.view with lastSeenDrops := m.drops } hseed h.mirrors m.now

/-- **A view is exact.** After every turn of a source whose writes have keys and are announced,
the live records of the view are the output of the query over the live rows, one record for
each group, if the query can be kept as a view and the rows never have a group without a key. -/
theorem view_exact {src : Source σ} (hq : q.Viewable src.index.indexedCols)
    (hsrc : src.Consistent cfg) (hfit : q.Fit src.topic.state) {now : Nat} {moves : List Move}
    {s : State q} (hrun : Run (step cfg) (Ok cfg) (start q src now) moves s) :
    s.view.Exact s.source := by
  have hinit : Kept cfg (start q src now) :=
    Kept.refreshed hq hsrc hfit (empty q) (Nat.zero_le _) (mirrors_empty q) now
  have h : Kept cfg s := by
    refine hrun.invariant ?_ hinit
    intro s m s' h hok hstep
    cases hstep
    exact h.turn hok
  exact exact_of_agree h.viewable h.consistent h.fit h.mirrors h.agree

end Turns

/-! ## Trades by desk -/

section Trades
open Trades

open Unused

def okb (s : State countByDesk) (m : Move) : Bool :=
  decide (m.write.Sound config s.source.topic) && fits (s.source.write config m.write)

theorem okb_ok (s : State countByDesk) (m : Move) (h : okb s m = true) : Ok config s m := by
  simp only [okb, Bool.and_eq_true, decide_eq_true_eq] at h
  exact ⟨h.1, countByDesk_fit h.2⟩

/-- A trade moves to another desk, and is published again after the drop counter has moved. -/
def deskMoves : List Move :=
  [⟨.upsert 0 true (trade "A" "x"), 0, 0⟩, ⟨.upsert 1 true (trade "A" "y"), 1, 0⟩,
    ⟨.upsert 2 true (trade "A" "y"), 2, 1⟩]

theorem view_exact_deskMoves : ∃ s,
    Run (step config) (Ok config) (start countByDesk emptySource 0) deskMoves s ∧
      (s.view.topic.state.contents "x").isNone ∧ (s.view.topic.state.contents "y").isSome ∧
      s.view.Exact s.source := by
  refine Run.exists_of_check_with okb okb_ok (fun s => (s.view.topic.state.contents "x").isNone ∧
      (s.view.topic.state.contents "y").isSome)
    (by decide +kernel) fun s hrun ⟨hx, hy⟩ => ?_
  have hviewable : countByDesk.Viewable emptySource.index.indexedCols := countByDesk_viewable
  exact ⟨hx, hy, view_exact hviewable (.new config []) (countByDesk_fit (by decide)) hrun⟩

/-- A trade of a desk and a trade without one. -/
def noDesk : List Move :=
  [⟨.upsert 0 true (trade "A" "x"), 0, 0⟩, ⟨.upsert 1 true [("sym", .string "B")], 1, 0⟩]

/-- The trades without a desk make a group whose record has no key, and it is written over the
record of the desk. -/
theorem null_group_overwrites_record : ∃ s,
    Run (step config) (fun s m => m.write.Sound config s.source.topic)
        (start countByDesk emptySource 0) noDesk s ∧
      (sourceOutput countByDesk s.source).map (composeViewKey ["desk"]) = [some "x", none] ∧
      (s.view.topic.state.contents "x").map (fun row => row.cells ⟨0, by decide⟩) =
        some (.string none) ∧
      ¬ s.view.Exact s.source := by
  refine Run.exists_of_check
    (fun s : State countByDesk =>
      (sourceOutput countByDesk s.source).map (composeViewKey ["desk"]) = [some "x", none] ∧
      (s.view.topic.state.contents "x").map (fun row => row.cells ⟨0, by decide⟩) =
        some (.string none))
    (by decide +kernel) fun s hrun ⟨hkeys, hrecord⟩ => ?_
  refine ⟨hkeys, hrecord, fun hexact => ?_⟩
  have hnone : none ∈ (sourceOutput countByDesk s.source).map (composeViewKey ["desk"]) := by
    rw [hkeys]
    exact List.mem_cons_of_mem _ (List.mem_singleton_self _)
  obtain ⟨m, hm, hkey⟩ := List.mem_map.mp hnone
  obtain ⟨k, row, hk, -⟩ := hexact.shown m hm
  cases hkey.symm.trans hk

end Trades

end CqServer.ViewTurns
