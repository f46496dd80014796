import CqServer.Topic.Mirror

/-!
# Convergence of a continuous query

A client subscribes to a topic under load and gets its snapshot with the
registration. Once the event queue is drained it holds exactly the matching
rows of the live slots, and every key it was shown and does not hold was taken
back, provided that no write changes a slot silently and no event the client
needs is skipped by the predicate index (`Ok`). A delta publish of a column
that the query shows but its predicate does not read is skipped, and leaves the
client with the old value (`drained_client_stale`).
-/

namespace CqServer.Convergence

open Lib StoreState List Function SubscriptionEngine

variable {σ : Schema}

theorem concat_eq_split {α : Type*} {xs pre post : List α} {f g : α}
    (h : xs ++ [f] = pre ++ g :: post) :
    post = [] ∧ xs = pre ∧ f = g ∨ ∃ post', post = post' ++ [f] ∧ xs = pre ++ g :: post' := by
  rcases eq_nil_or_concat post with rfl | ⟨post', f', rfl⟩
  · have hinj := append_inj' h rfl
    exact .inl ⟨rfl, hinj.1, (cons.inj hinj.2).1⟩
  · have h' : xs ++ [f] = (pre ++ g :: post') ++ [f'] := by simpa using h
    have hinj := append_inj' h' rfl
    obtain rfl := (cons.inj hinj.2).1
    exact .inr ⟨post', by simp, hinj.1⟩

theorem held_of_shown (pre post : List Frame) (r : Nat) (k : Option String) (d : JsonMap)
    (h : Frame.gone r ∉ post) : ∃ p, held (pre ++ .shown r k d :: post) r = some p := by
  induction post using reverseRecOn with
  | nil => exact ⟨(k, d), by simp⟩
  | append_singleton post f ih =>
    have hf : f ≠ .gone r := by
      intro hf
      exact h (by simp [hf])
    obtain ⟨p, hp⟩ := ih fun hmem => h (by simp [hmem])
    have happ : pre ++ .shown r k d :: (post ++ [f]) =
        (pre ++ .shown r k d :: post) ++ [f] := by simp
    rw [happ]
    cases f with
    | shown r' k' d' =>
      rw [held_append_shown]
      by_cases hr : r = r'
      · exact ⟨(k', d'), by simp [hr]⟩
      · exact ⟨p, by rw [update_of_ne hr, hp]⟩
    | gone r' =>
      have hr : r ≠ r' := by
        intro hr
        exact hf (by rw [hr])
      exact ⟨p, by rw [held_append_gone, update_of_ne hr, hp]⟩

theorem held_map_shown (rows : List Nat) (key : Nat → Option String) (data : Nat → JsonMap)
    (r : Nat) : held (rows.map fun r => .shown r (key r) (data r)) r =
      if r ∈ rows then some (key r, data r) else none := by
  induction rows using reverseRecOn with
  | nil => rfl
  | append_singleton rows r' ih =>
    rw [map_append, map_singleton, held_append_shown]
    by_cases hr : r = r'
    · simp [hr]
    · rw [update_of_ne hr, ih]
      simp [hr]

/-! ## Keys the client was shown -/

/-- A delete of the slot is still queued. -/
def DeletePending (queue : List (MutationEvent σ)) (start r : Nat) : Prop :=
  ∃ ev ∈ pending queue start r, ev.kind = .delete

theorem DeletePending.append {queue : List (MutationEvent σ)} {start r : Nat}
    (h : DeletePending queue start r) (evs : List (MutationEvent σ)) :
    DeletePending (queue ++ evs) start r := by
  obtain ⟨ev, hmem, hkind⟩ := h
  exact ⟨ev, by rw [pending_append]; exact mem_append_left _ hmem, hkind⟩

theorem DeletePending.tail {ev : MutationEvent σ} {queue : List (MutationEvent σ)}
    {start r : Nat} (h : DeletePending (ev :: queue) start r)
    (hev : ev.row ≠ r ∨ ev.kind = .upsert ∨ ev.sequence < start) :
    DeletePending queue start r := by
  obtain ⟨ev', hmem, hkind⟩ := h
  obtain ⟨hq, hp⟩ := mem_filter.mp hmem
  rcases mem_cons.mp hq with rfl | hq
  · simp only [decide_eq_true_eq] at hp
    rcases hev with hrow | hup | hlt
    · exact absurd hp.1 hrow
    · rw [hup] at hkind
      cases hkind
    · omega
  · exact ⟨ev', mem_filter.mpr ⟨hq, hp⟩, hkind⟩

section System
variable [HostText]

/-- The client mirrors its subscription: a row held under a key its slot has lost is about to be
removed, and a key once shown is held, or taken back, or about to be removed. -/
structure Follows (cfg : TopicConfig) (sub : Subscription σ) (frames : List Frame)
    (t : Topic σ) (queue : List (MutationEvent σ)) : Prop
    extends Mirrors cfg sub (some []) frames t queue where
  own : ∀ r k d, held frames r = some (k, d) →
    t.state.table.Live r ∧ k = recordKey (cfg.keyColIndices σ) (t.state.row r) ∨
      DeletePending queue sub.liveStartSequence r
  shown : ∀ pre r k d post, frames = pre ++ .shown r k d :: post → .gone r ∉ post →
    (∃ d', held frames r = some (k, d')) ∨ DeletePending queue sub.liveStartSequence r

variable {cfg : TopicConfig} {sub : Subscription σ} {frames : List Frame} {t : Topic σ}
  {queue : List (MutationEvent σ)}

omit [HostText] in
theorem notOwed_nil (r : Nat) : NotOwed (some []) r := by
  intro rows hrows v hv
  cases hrows
  cases hv

section
variable (h : Follows cfg sub frames t queue) (hkeyed : Keyed (cfg.keyColIndices σ) t.state)
include h hkeyed

theorem Follows.effect {e : Effect σ} (hs : Sound cfg t e) :
    Follows cfg sub frames (e.apply cfg t).1 (queue ++ (e.apply cfg t).2) := by
  have hmirror := h.toMirrors.effect hs
  rcases hs.cases with heq | ⟨ev, hev, ht, hkey⟩ | heq
  · rw [heq, append_nil] at hmirror ⊢
    exact ⟨hmirror, h.own, h.shown⟩
  · rw [hev] at hmirror ⊢
    refine ⟨hmirror, ?_, ?_⟩
    · intro r k d hheld
      rcases h.own r k d hheld with ⟨hl, hk⟩ | hdel
      · by_cases hr : r = ev.row
        · subst hr
          cases hkind : ev.kind with
          | delete =>
            have hstart : sub.liveStartSequence ≤ ev.sequence := ht.sequence ▸ h.start
            refine .inr ⟨ev, ?_, hkind⟩
            rw [pending_append, pending_cons_self hstart]
            simp
          | upsert =>
            exact .inl ⟨ht.kind.mp hkind, by rw [hkey hkeyed hl hkind]; exact hk⟩
        · exact .inl ⟨(ht.live r hr).mpr hl, by rw [ht.row r hr]; exact hk⟩
      · exact .inr (hdel.append _)
    · intro pre r k d post hfr hgone
      exact (h.shown pre r k d post hfr hgone).imp_right fun hd => hd.append _
  · rw [heq, append_nil]
    exact h

theorem Follows.effects {es : List (Effect σ)} (hs : SoundAll cfg t es) :
    Follows cfg sub frames (Effect.applyAll cfg t es).1
      (queue ++ (Effect.applyAll cfg t es).2) :=
  (hs.keeps (P := fun t queue => Follows cfg sub frames t queue ∧ Keyed _ t.state)
    (fun hs h => ⟨h.1.effect h.2 hs, h.2.effect hs⟩) ⟨h, hkeyed⟩).1

end

variable {ev : MutationEvent σ}

section
variable (h : Follows cfg sub frames t (ev :: queue))
include h

theorem Follows.skip (hseq : ev.sequence < sub.liveStartSequence) : Follows cfg sub frames t queue
    := by
  refine ⟨h.toMirrors.skip hseq, ?_, ?_⟩
  · intro r k d hheld
    exact (h.own r k d hheld).imp_right fun hd => hd.tail (.inr (.inr hseq))
  · intro pre r k d post hfr hgone
    exact (h.shown pre r k d post hfr hgone).imp_right fun hd => hd.tail (.inr (.inr hseq))

variable (hstart : sub.liveStartSequence ≤ ev.sequence)
include hstart

theorem Follows.show (hup : ev.kind = .upsert)
    (hm : sub.query.predicate.holds (t.state.row ev.row)) :
    Follows cfg { sub with activeSet := insert ev.row sub.activeSet }
      (frames ++ [.shown ev.row (recordKey (cfg.keyColIndices σ) (t.state.row ev.row))
        (projectRow sub.query (t.state.row ev.row))]) t queue := by
  -- The slot is live, or its delete is still to come.
  have hfate : t.state.table.Live ev.row ∨
      DeletePending queue sub.liveStartSequence ev.row := by
    cases hlast : (pending queue sub.liveStartSequence ev.row).getLast? with
    | none =>
      have hnil := getLast?_eq_none_iff.mp hlast
      exact .inl ((h.live_iff hstart hnil).mp hup)
    | some ev' =>
      cases hk : ev'.kind with
      | upsert => exact .inl ((h.last_tail hlast).mp hk)
      | delete => exact .inr ⟨ev', mem_of_getLast? hlast, hk⟩
  refine ⟨h.toMirrors.show hstart (notOwed_nil _) hup hm, ?_, ?_⟩
  · intro r k d hheld
    rw [held_append_shown] at hheld
    by_cases hr : r = ev.row
    · subst hr
      rw [update_self, Option.some.injEq, Prod.mk.injEq] at hheld
      exact hfate.imp_left fun hl => ⟨hl, hheld.1.symm⟩
    · rw [update_of_ne hr] at hheld
      exact (h.own r k d hheld).imp_right fun hd => hd.tail (.inl (Ne.symm hr))
  · intro pre r k d post hfr hgone
    rcases concat_eq_split hfr with ⟨rfl, rfl, hf⟩ | ⟨post', rfl, rfl⟩
    · cases hf
      exact .inl ⟨_, by rw [held_append_shown, update_self]⟩
    have hold := h.shown pre r k d post' rfl fun hmem => hgone (by simp [hmem])
    rw [held_append_shown]
    by_cases hr : r = ev.row
    · subst hr
      rcases hold with ⟨d', hd'⟩ | hdel
      · -- shown under `k` before: the slot still has that key, or is being deleted
        rcases h.own _ k d' hd' with ⟨-, rfl⟩ | hdel
        · exact .inl ⟨_, update_self ..⟩
        · exact .inr (hdel.tail (.inr (.inl hup)))
      · exact .inr (hdel.tail (.inr (.inl hup)))
    · rw [update_of_ne hr]
      exact hold.imp_right fun hd => hd.tail (.inl (Ne.symm hr))

theorem Follows.hide (hm : ¬ (ev.kind = .upsert ∧ sub.query.predicate.holds (t.state.row ev.row))) :
    Follows cfg { sub with activeSet := sub.activeSet.erase ev.row }
      (frames ++ if ev.row ∈ sub.activeSet then [.gone ev.row] else []) t queue := by
  have hheld := h.held_hide ev.row
  refine ⟨h.toMirrors.hide hstart (notOwed_nil _) hm, ?_, ?_⟩
  · intro r k d hk
    rw [hheld] at hk
    by_cases hr : r = ev.row
    · rw [hr, update_self] at hk
      cases hk
    · rw [update_of_ne hr] at hk
      exact (h.own r k d hk).imp_right fun hd => hd.tail (.inl (Ne.symm hr))
  · intro pre r k d post hfr hgone
    by_cases hr : r = ev.row
    · -- a slot that was shown and is not held has been taken back
      obtain ⟨p, hp⟩ := held_of_shown pre post r k d hgone
      rw [← hfr, hheld, hr, update_self] at hp
      cases hp
    · rw [hheld, update_of_ne hr]
      by_cases hin : ev.row ∈ sub.activeSet
      · rw [if_pos hin] at hfr
        rcases concat_eq_split hfr with ⟨-, -, hf⟩ | ⟨post', rfl, rfl⟩
        · cases hf
        · have hold := h.shown pre r k d post' rfl fun hmem => hgone (by simp [hmem])
          exact hold.imp_right fun hd => hd.tail (.inl (Ne.symm hr))
      · rw [if_neg hin, append_nil] at hfr
        exact (h.shown pre r k d post hfr hgone).imp_right fun hd => hd.tail (.inl (Ne.symm hr))

end

variable [AggregateExec σ]

/-! ## The system -/

structure State (σ : Schema) where
  live : Live σ
  joined : Bool
  frames : List Frame

def State.init (σ : Schema) : State σ := ⟨.init σ, false, []⟩

inductive Move (σ : Schema) where
  | join
  | act (a : Act σ)

def step (cfg : TopicConfig) (me : String) (q : ParsedQuery σ) (s : State σ) :
    Move σ → Option (State σ)
  | .join =>
    if s.joined then none
    else (s.live.step cfg (.subscribe me q {})).map fun o =>
      ⟨o.1, true, (keyedRows cfg s.live.topic.state
        (snapshotRows cfg s.live.topic.state q)).map .ofRow⟩
  | .act a =>
    if a.mentions me then none
    else (s.live.step cfg a).map fun o =>
      ⟨o.1, s.joined, s.frames ++ (deltasFor me o.2).map (deltaFrame cfg s.live.topic.state)⟩

/-- The conditions on a step: its writes are sound, and an event that the index
does not dispatch to the client concerns a row out of its view. -/
def Ok (cfg : TopicConfig) (me : String) (s : State σ) : Move σ → Prop
  | .join => True
  | .act a => SoundAll cfg s.live.topic (a.effects cfg s.live) ∧
      ∀ ev rest sub, a = .evaluate → s.live.queue = ev :: rest →
        s.live.engine.subscriptions.lookup me = some sub → sub.listens ev.sequence →
        Dispatched ev.changedCols sub ∨
          ev.row ∉ sub.activeSet ∧ ¬ sub.query.predicate.holds (s.live.topic.state.row ev.row)

structure Inv (cfg : TopicConfig) (me : String) (q : ParsedQuery σ) (s : State σ) : Prop where
  keyed : Keyed (cfg.keyColIndices σ) s.live.topic.state
  bounded : ∀ ev ∈ s.live.queue, ev.sequence ≤ s.live.topic.nextSequence
  follows : s.joined → ∃ sub, s.live.engine.subscriptions.lookup me = some sub ∧
    sub.query = q ∧ Follows cfg sub s.frames s.live.topic s.live.queue

omit [AggregateExec σ] in
theorem Inv.init (cfg : TopicConfig) (me : String) (q : ParsedQuery σ) :
    Inv cfg me q (State.init σ) where
  keyed := Keyed.build _
  bounded ev h := by cases h
  follows h := by cases h

variable {me : String} {q : ParsedQuery σ}

theorem Inv.join (hkeys : cfg.keyFields ≠ []) (hq : q.Stored) {s : State σ} (h : Inv cfg me q s) :
    Follows cfg (subscribed cfg s.live.topic me q {})
      ((keyedRows cfg s.live.topic.state (snapshotRows cfg s.live.topic.state q)).map .ofRow)
      s.live.topic s.live.queue := by
  obtain ⟨-, hquery, hstart⟩ := subscribed_keeps cfg s.live.topic me q {}
  have hnil : ∀ r, pending s.live.queue
      (subscribed cfg s.live.topic me q {}).liveStartSequence r = [] := by
    rw [hstart]
    exact pending_eq_nil fun ev hev => Nat.lt_succ_of_le (h.bounded ev hev)
  have hrows := mem_keyedRows_snapshotRows hkeys hq s.live.topic.state
  have husable : Usable cfg (subscribed cfg s.live.topic me q {}) s.live.topic s.live.queue
      (keyedRows cfg s.live.topic.state (snapshotRows cfg s.live.topic.state q)) := by
    refine ⟨fun r _ v => ?_, fun p _ hne => absurd (hnil p.1) hne⟩
    rw [hquery]
    exact hrows r v
  have hmirror := ((Mirrors.register hq.toPlain h.bounded).take husable)
  rw [← append_nil (keyedRows cfg _ _)] at hmirror
  have hsent := hmirror.sendAll
  rw [nil_append] at hsent
  have hheld : ∀ r p, held ((keyedRows cfg s.live.topic.state
      (snapshotRows cfg s.live.topic.state q)).map .ofRow) r = some p →
      s.live.topic.state.table.Live r ∧
        p.1 = recordKey (cfg.keyColIndices σ) (s.live.topic.state.row r) := by
    intro r p hp
    rw [(hsent.settled r (hnil r)).2 (by simp)] at hp
    obtain ⟨hl, -, rfl⟩ := expected_eq_some.mp hp
    exact ⟨hl, rfl⟩
  refine ⟨hsent, ?_, ?_⟩
  · intro r k d hp
    exact .inl (hheld r (k, d) hp)
  · intro pre r k d post hfr hgone
    obtain ⟨p, hp⟩ := held_of_shown pre post r k d hgone
    have hmem : Frame.shown r k d ∈ pre ++ .shown r k d :: post := by simp
    rw [← hfr] at hmem hp
    obtain ⟨p', hp', hshown⟩ := mem_map.mp hmem
    cases hshown
    obtain ⟨-, -, hk⟩ := expected_eq_some.mp ((hrows p'.1 p'.2).mp hp')
    obtain ⟨-, hk'⟩ := hheld _ p hp
    exact .inl ⟨p.2, by rw [hp, hk, ← hk']⟩

theorem Inv.step (hkeys : cfg.keyFields ≠ []) (hq : q.Stored) {s s' : State σ} {m : Move σ}
    (h : Inv cfg me q s) (hok : Ok cfg me s m) (hstep : step cfg me q s m = some s') :
    Inv cfg me q s' := by
  cases m with
  | join =>
    unfold Convergence.step at hstep
    dsimp only at hstep
    split at hstep
    · cases hstep
    cases hstep
    refine ⟨h.keyed, h.bounded, fun _ => ⟨_, ?_, ?_, h.join hkeys hq⟩⟩
    · rw [lookup_subscribeInner, if_pos rfl]
    · exact (subscribed_keeps cfg s.live.topic me q {}).2.1
  | act a =>
    unfold Convergence.step at hstep
    dsimp only at hstep
    split at hstep
    · cases hstep
    rename_i hmen
    obtain ⟨⟨l, ds⟩, hl, rfl⟩ := Option.map_eq_some_iff.mp hstep
    rcases Live.step_cases hl with
      ⟨images, rfl, rfl, -⟩ | ⟨id, q', opts, rfl, rfl, rfl⟩ | ⟨id, rfl, rfl, rfl⟩ |
      ⟨ev, rest, rfl, hqueue, rfl, rfl⟩
    · obtain ⟨hle, hev⟩ := Effect.applyAll_sequence cfg s.live.topic (a.effects cfg s.live)
      refine ⟨h.keyed.effects hok.1, ?_, ?_⟩
      · exact forall_mem_append.mpr
          ⟨fun ev hmem => (h.bounded ev hmem).trans hle, fun ev hmem => (hev ev hmem).2⟩
      · intro hj
        obtain ⟨sub, hsub, hsq, hf⟩ := h.follows hj
        refine ⟨sub, hsub, hsq, ?_⟩
        simp only [deltasFor, filter_nil, map_nil, append_nil]
        exact hf.effects h.keyed hok.1
    · have hne : id ≠ me := by simpa [Act.mentions] using hmen
      refine ⟨h.keyed, h.bounded, ?_⟩
      intro hj
      obtain ⟨sub, hsub, hsq, hf⟩ := h.follows hj
      refine ⟨sub, ?_, hsq, by simpa [deltasFor] using hf⟩
      rw [lookup_subscribeInner, if_neg hne.symm, hsub]
    · have hne : id ≠ me := by simpa [Act.mentions] using hmen
      refine ⟨h.keyed, h.bounded, ?_⟩
      intro hj
      obtain ⟨sub, hsub, hsq, hf⟩ := h.follows hj
      refine ⟨sub, ?_, hsq, by simpa [deltasFor] using hf⟩
      rw [lookup_remove, if_neg hne.symm, hsub]
    · refine ⟨h.keyed, ?_, ?_⟩
      · intro ev' hmem
        exact h.bounded ev' (by rw [hqueue]; exact mem_cons_of_mem _ hmem)
      · intro hj
        obtain ⟨sub, hsub, hsq, hf⟩ := h.follows hj
        rw [hqueue] at hf
        obtain ⟨hlook, hdeltas⟩ := evaluateRowKindIndexed_lookup hsub
          ev.row ev.sequence s.live.topic.state.store ev.kind ev.changedCols
        refine ⟨_, hlook, ?_, ?_⟩
        · split
          · exact (sub.evaluate_keeps ..).query.trans hsq
          · exact hsq
        · rw [hdeltas]
          rcases hf.plain.evaluate_cases ev (fun hl => hok.2 ev rest sub rfl hqueue hsub hl)
            rfl rfl with ⟨hlt, hs, hfs⟩ | ⟨hle, hup, hm, hs, hfs⟩ | ⟨hle, hm, hs, hfs⟩
          · rw [hs, hfs, append_nil]
            exact hf.skip hlt
          · rw [hs, hfs]
            exact hf.show hle hup hm
          · rw [hs, hfs]
            exact hf.hide hle hm

/-- **Convergence.** Take a keyed topic, a stored query and a run in which every
write is sound and no event that concerns the client is skipped by the index.
Once the queue is drained the client holds exactly the rows of the live slots
that match, and a key it was shown and does not hold was taken back afterwards. -/
theorem drained_client_converges (hkeys : cfg.keyFields ≠ []) {me : String} {q : ParsedQuery σ}
    (hq : q.Stored) {s : State σ} {moves : List (Move σ)}
    (hrun : Run (step cfg me q) (Ok cfg me) (State.init σ) moves s) (hjoined : s.joined = true)
    (hdrained : s.live.queue = []) :
    held s.frames = expected cfg q s.live.topic.state ∧
      ∀ pre r k d post, s.frames = pre ++ .shown r (some k) d :: post →
        (∀ r' d', held s.frames r' ≠ some (some k, d')) → .gone r ∈ post := by
  have hinv : Inv cfg me q s := hrun.invariant
    (fun _ _ _ hi hok hst => hi.step hkeys hq hok hst) (Inv.init cfg me q)
  obtain ⟨sub, -, hsq, hf⟩ := hinv.follows hjoined
  rw [hdrained] at hf
  constructor
  · funext r
    rw [← hsq]
    exact (hf.settled r rfl).2 (by simp)
  · intro pre r k d post hfr hlost
    by_contra hgone
    rcases hf.shown pre r (some k) d post hfr hgone with ⟨d', hd'⟩ | ⟨ev, hev, -⟩
    · exact hlost r d' hd'
    · cases hev

end System

/-! ## Two runs -/

section Quotes
open Quotes

open Unused

def watchBid : ParsedQuery Quotes.schema where
  predicate := ⟨fun r => r.cells bid = .long 10, .column bid⟩

/-- A check of `Ok` for runs of full publishes: their events reach everyone. -/
def okFull (s : State Quotes.schema) : Move Quotes.schema → Bool
  | .join => true
  | .act a => SoundAll config s.live.topic (a.effects config s.live) ∧
      ∀ ev ∈ s.live.queue, ev.changedCols = none

theorem okFull_ok (me : String) (s : State Quotes.schema) (m : Move Quotes.schema)
    (h : okFull s m = true) : Ok config me s m := by
  cases m with
  | join => trivial
  | act a =>
    obtain ⟨hs, hfull⟩ := of_decide_eq_true h
    refine ⟨hs, ?_⟩
    intro ev rest sub _ hq _ _
    refine .inl ?_
    intro cols hcols
    rw [hfull ev (by simp [hq])] at hcols
    cases hcols

/-- A row is published, watched, published again and deleted. -/
def fullPublishes : List (Move Quotes.schema) :=
  [.act (.upsertMap 0 true (full "A" 10 11)), .join, .act (.upsertMap 1 true (full "A" 10 12)),
    .act .evaluate, .act .evaluate, .act (.delete true "A"), .act .evaluate]

theorem drained_client_converges_full : ∃ s,
    Run (step config "s" watchBid) (Ok config "s") (State.init schema) fullPublishes s ∧
      held s.frames = expected config watchBid s.live.topic.state := by
  refine Run.exists_of_check_with okFull (okFull_ok "s") (fun s => s.joined ∧ s.live.queue = [])
    (by decide +kernel) fun s hrun ⟨hj, hd⟩ => ?_
  have hq : watchBid.Stored := ⟨⟨rfl, rfl⟩, rfl, rfl, rfl⟩
  exact (drained_client_converges (by decide) hq hrun hj hd).1

/-- The ask of a watched row is changed by a delta publish. -/
def deltaPublish : List (Move Quotes.schema) :=
  [.act (.upsertMap 0 true (full "A" 10 11)), .join,
    .act (.deltaRead 0 [("ask", num 21), ("sym", .string "A")]), .act (.deltaCommit 0 1 true),
    .act .evaluate, .act .evaluate]

/-- The index does not dispatch the event, and the client keeps the ask it was
sent in its snapshot. -/
theorem drained_client_stale : ∃ s,
    Run (step config "s" watchBid) (fun _ _ => True) (State.init schema) deltaPublish s ∧
      s.joined = true ∧ s.live.queue = [] ∧
      held s.frames ≠ expected config watchBid s.live.topic.state := by
  refine Run.exists_of_check (fun s => s.joined ∧ s.live.queue = [] ∧
      held s.frames 0 ≠ expected config watchBid s.live.topic.state 0)
    (by decide +kernel) fun s hrun ⟨hj, hd, hne⟩ => ?_
  exact ⟨hj, hd, fun h => hne (congrFun h 0)⟩

end Quotes

end CqServer.Convergence
