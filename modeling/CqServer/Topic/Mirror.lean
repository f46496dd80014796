import CqServer.Topic.Live
import CqServer.Subscription.Plain

/-!
# What a client holds of a continuous query

A plain subscriber is sent snapshot rows and then one delta per evaluated event
that concerns it. Events wait in a queue while the store moves on, so what it
holds lags behind the store.

A slot with events still queued may be out of date in any way. A slot with none
is settled (`Settled`): the client holds exactly the slot's row if the slot is
live and the row matches, or will once the rest of its snapshot has arrived.
That survives a write because the write queues an event for the slot it
changes, and an evaluation because the last event of a slot re-reads the slot.
-/

namespace CqServer

open Lib StoreState List Function Subscription SubscriptionEngine

variable {σ : Schema}

/-! ## The client -/

/-- What the client receives: a row in a slot, with the record key of that row,
or the end of a slot (`Remove` or `Oof`). -/
inductive Frame where
  | shown (slot : Nat) (key : Option String) (data : JsonMap)
  | gone (slot : Nat)

/-- The rows the client holds, by slot. -/
abbrev View := Nat → Option (Option String × JsonMap)

def Frame.apply (v : View) : Frame → View
  | .shown r k d => update v r (some (k, d))
  | .gone r => update v r none

def held (fs : List Frame) : View := fs.foldl Frame.apply fun _ => none

@[simp] theorem held_append_shown (fs : List Frame) (r : Nat) (k : Option String) (d : JsonMap) :
    held (fs ++ [.shown r k d]) = update (held fs) r (some (k, d)) := by
  simp [held, Frame.apply]

@[simp] theorem held_append_gone (fs : List Frame) (r : Nat) :
    held (fs ++ [.gone r]) = update (held fs) r none := by
  simp [held, Frame.apply]

variable {f : Frame} {r : Nat}

variable {out : List Frame}

section
variable [HostText]

/-- What the client should hold of a slot. -/
def expected (cfg : TopicConfig) (q : ParsedQuery σ) (st : StoreState σ) : View := fun r =>
  if st.table.Live r ∧ q.predicate.holds (st.row r) then
    some (recordKey (cfg.keyColIndices σ) (st.row r), projectRow q (st.row r))
  else none

section
variable {cfg : TopicConfig} {q : ParsedQuery σ}

theorem expected_congr {st st' : StoreState σ} {r : Nat}
    (hrow : st'.row r = st.row r) (hlive : st'.table.Live r ↔ st.table.Live r) :
    expected cfg q st' r = expected cfg q st r := by
  unfold expected
  simp [hlive, hrow]

theorem expected_eq_some {st : StoreState σ} {r : Nat} {p : Option String × JsonMap} :
    expected cfg q st r = some p ↔ st.table.Live r ∧ q.predicate.holds (st.row r) ∧
      p = (recordKey (cfg.keyColIndices σ) (st.row r), projectRow q (st.row r)) := by
  unfold expected
  split
  · rename_i h
    simp [h, eq_comm]
  · rename_i h
    simp only [reduceCtorEq, false_iff]
    intro hc
    exact h ⟨hc.1, hc.2.1⟩

end

/-- The frame a delta is sent as; the store is the one it was evaluated in. -/
def deltaFrame (cfg : TopicConfig) (st : StoreState σ) (d : Delta) : Frame :=
  match d.deltaType with
  | .add | .update => .shown d.row (recordKey (cfg.keyColIndices σ) (st.row d.row)) d.rowData
  | .remove | .oof => .gone d.row

end

/-- The queued events of a slot that the subscription will listen to. -/
def pending (queue : List (MutationEvent σ)) (start r : Nat) : List (MutationEvent σ) :=
  queue.filter fun ev => ev.row = r ∧ start ≤ ev.sequence

theorem pending_append (queue evs : List (MutationEvent σ)) (start r : Nat) :
    pending (queue ++ evs) start r = pending queue start r ++ pending evs start r :=
  filter_append ..

variable {ev : MutationEvent σ} {start : Nat}

theorem pending_cons_other (h : ev.row ≠ r ∨ ev.sequence < start) (queue : List (MutationEvent σ)) :
    pending (ev :: queue) start r = pending queue start r := by
  refine filter_cons_of_neg ?_
  simp only [decide_eq_true_eq]
  omega

theorem pending_cons_self (h : start ≤ ev.sequence) (queue : List (MutationEvent σ)) :
    pending (ev :: queue) start ev.row = ev :: pending queue start ev.row := by
  refine filter_cons_of_pos ?_
  simp [h]

theorem pending_eq_nil {queue : List (MutationEvent σ)} (h : ∀ ev ∈ queue, ev.sequence < start)
    (r : Nat) : pending queue start r = [] := by
  refine filter_eq_nil_iff.mpr ?_
  intro ev hev
  have hlt := h ev hev
  simp only [decide_eq_true_eq]
  omega

/-- The snapshot rows the client has yet to be sent; `none` while the snapshot
has not been taken. -/
abbrev Todo := Option (List (Nat × Option String × JsonMap))

/-- A slot without pending events. Before the snapshot the client may lack the
row, but the subscription watches it; then the row is owed as it is, or held as
it is. -/
def Settled (todo : Todo) (active : Finset Nat) (held expected : View) (r : Nat) : Prop :=
  match todo with
  | none => (held r = none ∨ held r = expected r) ∧ (expected r ≠ none → r ∈ active)
  | some rows => (∀ v, (r, v) ∈ rows → expected r = some v) ∧
      ((∀ v, (r, v) ∉ rows) → held r = expected r)

def NotOwed (todo : Todo) (r : Nat) : Prop := ∀ rows, todo = some rows → ∀ v, (r, v) ∉ rows

variable {todo : Todo}

theorem Settled.of_eq {active : Finset Nat} {held expected : View} (hno : NotOwed todo r)
    (heq : held r = expected r) (hact : expected r ≠ none → r ∈ active) :
    Settled todo active held expected r := by
  cases todo with
  | none => exact ⟨.inr heq, hact⟩
  | some rows => exact ⟨fun v hv => absurd hv (hno rows rfl v), fun _ => heq⟩

theorem Settled.congr {active active' : Finset Nat} {held held' expected expected' : View}
    (h : Settled todo active held expected r) (hheld : held' r = held r)
    (hexp : expected' r = expected r) (hact : r ∈ active → r ∈ active') :
    Settled todo active' held' expected' r := by
  cases todo with
  | none => exact ⟨by rw [hheld, hexp]; exact h.1, fun hne => hact (h.2 (hexp ▸ hne))⟩
  | some rows => exact ⟨fun v hv => hexp.trans (h.1 v hv), fun hv => by rw [hheld, hexp]; exact h.2 hv⟩

section Mirror
variable [HostText]

/-- The client mirrors its subscription, up to pending events and rows owed. -/
structure Mirrors (cfg : TopicConfig) (sub : Subscription σ) (todo : Todo) (frames : List Frame)
    (t : Topic σ) (queue : List (MutationEvent σ)) : Prop where
  plain : sub.Plain
  start : sub.liveStartSequence ≤ t.nextSequence + 1
  active : ∀ r p, held frames r = some p → r ∈ sub.activeSet
  owed : ∀ rows, todo = some rows → ∀ p ∈ rows, p.1 ∈ sub.activeSet
  settled : ∀ r, pending queue sub.liveStartSequence r = [] →
    Settled todo sub.activeSet (held frames) (expected cfg sub.query t.state) r
  /-- The last event of a slot says whether the slot is live. -/
  last : ∀ r ev, (pending queue sub.liveStartSequence r).getLast? = some ev →
    (ev.kind = .upsert ↔ t.state.table.Live r)

variable {cfg : TopicConfig} {sub : Subscription σ} {todo : Todo} {frames : List Frame}
  {t t' : Topic σ} {queue : List (MutationEvent σ)}

/-! ## Writes -/

/-- A mutation of one slot, announced by an event that says whether the slot is
live now. -/
structure Touches (t t' : Topic σ) (ev : MutationEvent σ) : Prop where
  next : t'.nextSequence = t.nextSequence + 1
  sequence : ev.sequence = t.nextSequence + 1
  row : ∀ r, r ≠ ev.row → t'.state.row r = t.state.row r
  live : ∀ r, r ≠ ev.row → (t'.state.table.Live r ↔ t.state.table.Live r)
  kind : ev.kind = .upsert ↔ t'.state.table.Live ev.row

variable {ev : MutationEvent σ}

theorem Mirrors.touch (h : Mirrors cfg sub todo frames t queue) (ht : Touches t t' ev) :
    Mirrors cfg sub todo frames t' (queue ++ [ev]) := by
  have hstart : sub.liveStartSequence ≤ ev.sequence := ht.sequence ▸ h.start
  have hself : pending [ev] sub.liveStartSequence ev.row = [ev] := pending_cons_self hstart []
  have hother : ∀ r, r ≠ ev.row → pending [ev] sub.liveStartSequence r = [] := fun r hr =>
    pending_cons_other (.inl hr.symm) []
  refine ⟨h.plain, ?_, h.active, h.owed, ?_, ?_⟩
  · rw [ht.next]
    have := h.start
    omega
  · intro r hr
    rw [pending_append, append_eq_nil_iff] at hr
    have hne : r ≠ ev.row := by
      intro heq
      rw [heq, hself] at hr
      cases hr.2
    exact (h.settled r hr.1).congr rfl (expected_congr (ht.row r hne) (ht.live r hne)) id
  · intro r ev' hlast
    rw [pending_append] at hlast
    by_cases hr : r = ev.row
    · subst hr
      rw [hself, getLast?_concat, Option.some.injEq] at hlast
      rw [← hlast]
      exact ht.kind
    · rw [hother r hr, append_nil] at hlast
      rw [ht.live r hr]
      exact h.last r ev' hlast

/-- What a write must not do: publish without a key (the row would land
in slot 0 whoever holds it), or remove a record without announcing it. -/
def Sound (cfg : TopicConfig) (t : Topic σ) : Effect σ → Prop
  | .burn => True
  | .commit _ v _ => (computeKeyWith v.vals (cfg.keyColIndices σ)).isSome
  | .remove key announced => announced ∨ t.state.table.keyToRow.lookup key = none

instance (cfg : TopicConfig) (t : Topic σ) : (e : Effect σ) → Decidable (Sound cfg t e)
  | .burn => isTrue trivial
  | .commit _ _ _ => inferInstanceAs (Decidable (_ = true))
  | .remove _ _ => inferInstanceAs (Decidable (_ ∨ _))

def SoundAll (cfg : TopicConfig) (t : Topic σ) : List (Effect σ) → Prop
  | [] => True
  | e :: es => Sound cfg t e ∧ SoundAll cfg (e.apply cfg t).1 es

instance SoundAll.decidable (cfg : TopicConfig) (t : Topic σ) :
    (es : List (Effect σ)) → Decidable (SoundAll cfg t es)
  | [] => isTrue trivial
  | e :: es =>
    have := SoundAll.decidable cfg (e.apply cfg t).1 es
    inferInstanceAs (Decidable (_ ∧ _))

variable {e : Effect σ}

/-- **A sound effect** burns a sequence, touches one slot, or does nothing. A
live row it rewrites keeps its key. -/
theorem Sound.cases (hs : Sound cfg t e) :
    (e.apply cfg t = ({ t with nextSequence := t.nextSequence + 1 }, [])) ∨
    (∃ ev, (e.apply cfg t).2 = [ev] ∧ Touches t (e.apply cfg t).1 ev ∧
      (Keyed (cfg.keyColIndices σ) t.state → t.state.table.Live ev.row → ev.kind = .upsert →
        recordKey (cfg.keyColIndices σ) ((e.apply cfg t).1.state.row ev.row) =
          recordKey (cfg.keyColIndices σ) (t.state.row ev.row))) ∨
    e.apply cfg t = (t, []) := by
  cases e with
  | burn => exact .inl rfl
  | commit now v cols =>
    obtain ⟨k, hk⟩ := Option.isSome_iff_exists.mp hs
    refine .inr (.inl ⟨_, rfl, ⟨rfl, rfl, ?_, ?_, ?_⟩, ?_⟩)
    · intro r hr
      exact commitValuesLocked_row_ne _ now t.state v hr
    · intro r hr
      exact commitValuesLocked_live_ne _ now t.state v hr
    · exact iff_of_true rfl ⟨k, commitValuesLocked_lookup hk now t.state⟩
    · intro hkeyed hl _
      exact hkeyed.recordKey_commit hk now hl
  | remove key announced =>
    cases hrem : t.state.removeKey key with
    | none => exact .inr (.inr (by simp [Effect.apply, hrem]))
    | some p =>
      have hann : announced = true := by
        rcases hs with hs | hs
        · exact hs
        · rw [(removeKey_eq_some.mp hrem).1] at hs
          cases hs
      simp only [Effect.apply, hrem, hann]
      refine .inr (.inl ⟨_, rfl, ⟨rfl, rfl, ?_, ?_, ?_⟩, ?_⟩)
      · intro r hr
        exact removeKey_row_ne hrem hr
      · intro r hr
        rw [removeKey_live hrem]
        exact and_iff_right hr
      · refine iff_of_false (by simp) ?_
        rw [removeKey_live hrem]
        exact fun hl => hl.1 rfl
      · intro _ _ hup
        cases hup

theorem Mirrors.effect (h : Mirrors cfg sub todo frames t queue) (hs : Sound cfg t e) :
    Mirrors cfg sub todo frames (e.apply cfg t).1 (queue ++ (e.apply cfg t).2) := by
  rcases hs.cases with heq | ⟨ev, hev, ht, -⟩ | heq
  · rw [heq, append_nil]
    exact { h with start := h.start.trans (Nat.le_succ _) }
  · rw [hev]
    exact h.touch ht
  · rw [heq, append_nil]
    exact h

variable {es : List (Effect σ)}

/-- What each sound effect keeps of the topic and its queue, sound effects keep. -/
theorem SoundAll.keeps (hs : SoundAll cfg t es) {P : Topic σ → List (MutationEvent σ) → Prop}
    (step : ∀ {t queue e}, Sound cfg t e → P t queue →
      P (e.apply cfg t).1 (queue ++ (e.apply cfg t).2)) (h : P t queue) :
    P (Effect.applyAll cfg t es).1 (queue ++ (Effect.applyAll cfg t es).2) := by
  induction es generalizing t queue with
  | nil => simpa [Effect.applyAll] using h
  | cons e es ih =>
    have hrest := ih hs.2 (step hs.1 h)
    rw [append_assoc] at hrest
    exact hrest

theorem StoreState.Keyed.effect (hkeyed : Keyed (cfg.keyColIndices σ) t.state)
    (hs : Sound cfg t e) : Keyed (cfg.keyColIndices σ) (e.apply cfg t).1.state := by
  cases e with
  | burn => exact hkeyed
  | commit now v cols =>
    obtain ⟨k, hk⟩ := Option.isSome_iff_exists.mp hs
    exact hkeyed.commit hk now
  | remove key announced =>
    cases hrem : t.state.removeKey key with
    | none => simpa [Effect.apply, hrem] using hkeyed
    | some p =>
      simp only [Effect.apply, hrem]
      exact hkeyed.remove hrem

theorem StoreState.Keyed.effects (hkeyed : Keyed (cfg.keyColIndices σ) t.state)
    (hs : SoundAll cfg t es) : Keyed (cfg.keyColIndices σ) (Effect.applyAll cfg t es).1.state := by
  induction es generalizing t with
  | nil => exact hkeyed
  | cons e es ih => exact ih (hkeyed.effect hs.1) hs.2

/-! ## Evaluations -/

theorem Mirrors.skip (h : Mirrors cfg sub todo frames t (ev :: queue))
    (hseq : ev.sequence < sub.liveStartSequence) : Mirrors cfg sub todo frames t queue := by
  have hpend : ∀ r, pending (ev :: queue) sub.liveStartSequence r =
      pending queue sub.liveStartSequence r := fun r => pending_cons_other (.inr hseq) queue
  refine { h with settled := ?_, last := ?_ }
  · intro r hr
    exact h.settled r (by rw [hpend, hr])
  · intro r ev' hlast
    exact h.last r ev' (by rw [hpend, hlast])

variable {r : Nat}

theorem Mirrors.held_hide (h : Mirrors cfg sub todo frames t queue) (r : Nat) :
    held (frames ++ if r ∈ sub.activeSet then [.gone r] else []) =
      update (held frames) r none := by
  by_cases hin : r ∈ sub.activeSet
  · rw [if_pos hin, held_append_gone]
  rw [if_neg hin, append_nil]
  refine (update_eq_self_iff.mpr ?_).symm
  cases hc : held frames r with
  | none => rfl
  | some p => exact absurd (h.active _ p hc) hin

section
variable (h : Mirrors cfg sub todo frames t (ev :: queue))
include h

theorem Mirrors.last_tail {ev' : MutationEvent σ}
    (hlast : (pending queue sub.liveStartSequence r).getLast? = some ev') :
    ev'.kind = .upsert ↔ t.state.table.Live r := by
  refine h.last r ev' ?_
  by_cases hcount : ev.row = r ∧ sub.liveStartSequence ≤ ev.sequence
  · obtain ⟨rfl, hstart⟩ := hcount
    rw [pending_cons_self hstart, getLast?_cons, hlast]
    rfl
  · rw [pending_cons_other (by omega), hlast]

theorem Mirrors.live_iff (hstart : sub.liveStartSequence ≤ ev.sequence)
    (hnil : pending queue sub.liveStartSequence ev.row = []) :
    ev.kind = .upsert ↔ t.state.table.Live ev.row := by
  refine h.last ev.row ev ?_
  rw [pending_cons_self hstart, hnil]
  rfl

variable (hstart : sub.liveStartSequence ≤ ev.sequence)
include hstart

/-- **The evaluation of an event** makes its slot what the client should hold of it, if no event
of the slot is left. -/
theorem Mirrors.evaluated (hno : NotOwed todo ev.row) {fs : List Frame} {active : Finset Nat}
    {shown : Option (Option String × JsonMap)}
    (hheld : held fs = update (held frames) ev.row shown)
    (hself : shown ≠ none → ev.row ∈ active)
    (hother : ∀ r, r ≠ ev.row → r ∈ sub.activeSet → r ∈ active)
    (hexp : (ev.kind = .upsert ↔ t.state.table.Live ev.row) →
      expected cfg sub.query t.state ev.row = shown) :
    Mirrors cfg { sub with activeSet := active } todo fs t queue := by
  refine ⟨h.plain.setActive _, h.start, ?_, ?_, ?_, fun _ _ => h.last_tail⟩
  · rw [hheld]
    exact forall_update_some (fun p hp => hself (hp ▸ Option.some_ne_none p)) fun r hr p hp =>
      hother r hr (h.active r p hp)
  · intro rows hrows p hp
    refine hother p.1 ?_ (h.owed rows hrows p hp)
    intro hr
    exact hno rows hrows p.2 (hr ▸ hp)
  · intro r hnil
    rw [hheld]
    by_cases hr : r = ev.row
    · subst hr
      have hexp := hexp (h.live_iff hstart hnil)
      exact .of_eq hno (by rw [update_self, hexp]) fun hne => hself (hexp ▸ hne)
    · -- the event is of another slot
      rw [← pending_cons_other (.inl (Ne.symm hr))] at hnil
      exact (h.settled r hnil).congr (update_of_ne hr ..) rfl (hother r hr)

theorem Mirrors.show (hno : NotOwed todo ev.row)
    (hup : ev.kind = .upsert) (hm : sub.query.predicate.holds (t.state.row ev.row)) :
    Mirrors cfg { sub with activeSet := insert ev.row sub.activeSet } todo
      (frames ++ [.shown ev.row (recordKey (cfg.keyColIndices σ) (t.state.row ev.row))
        (projectRow sub.query (t.state.row ev.row))]) t queue :=
  h.evaluated hstart hno (held_append_shown ..) (fun _ => Finset.mem_insert_self ..)
    (fun _ _ => Finset.mem_insert_of_mem) fun hlive => if_pos ⟨hlive.mp hup, hm⟩

theorem Mirrors.hide (hno : NotOwed todo ev.row)
    (hm : ¬ (ev.kind = .upsert ∧ sub.query.predicate.holds (t.state.row ev.row))) :
    Mirrors cfg { sub with activeSet := sub.activeSet.erase ev.row } todo
      (frames ++ if ev.row ∈ sub.activeSet then [.gone ev.row] else []) t queue :=
  h.evaluated hstart hno (h.held_hide ev.row) (absurd rfl)
    (fun _ hr hmem => Finset.mem_erase.mpr ⟨hr, hmem⟩)
    fun hlive => if_neg fun hexp => hm ⟨hlive.mpr hexp.1, hexp.2⟩

end

variable [AggregateExec σ]

/-- **What an evaluation sends**: the event is not listened to and nothing
happens, or its row is shown, or its row is gone. -/
theorem Subscription.Plain.evaluate_cases (hplain : sub.Plain) (ev : MutationEvent σ)
    (hok : sub.listens ev.sequence → Dispatched ev.changedCols sub ∨
      ev.row ∉ sub.activeSet ∧ ¬ sub.query.predicate.holds (t.state.row ev.row))
    {sub' : Subscription σ} {fs : List Frame}
    (hsub' : sub' = if Dispatched ev.changedCols sub then
      (sub.evaluate ev.row ev.sequence ev.kind t.state.store).1 else sub)
    (hfs : fs = (if Dispatched ev.changedCols sub then
      (sub.evaluate ev.row ev.sequence ev.kind t.state.store).2 else []).map
        (deltaFrame cfg t.state)) :
    (ev.sequence < sub.liveStartSequence ∧ sub' = sub ∧ fs = []) ∨
    (sub.liveStartSequence ≤ ev.sequence ∧ ev.kind = .upsert ∧
      sub.query.predicate.holds (t.state.row ev.row) ∧
      sub' = { sub with activeSet := insert ev.row sub.activeSet } ∧
      fs = [.shown ev.row (recordKey (cfg.keyColIndices σ) (t.state.row ev.row))
        (projectRow sub.query (t.state.row ev.row))]) ∨
    (sub.liveStartSequence ≤ ev.sequence ∧
      ¬ (ev.kind = .upsert ∧ sub.query.predicate.holds (t.state.row ev.row)) ∧
      sub' = { sub with activeSet := sub.activeSet.erase ev.row } ∧
      fs = if ev.row ∈ sub.activeSet then [.gone ev.row] else []) := by
  by_cases hl : sub.listens ev.sequence
  · have hstart := (listens_iff hplain.open_).mp hl
    by_cases hdis : Dispatched ev.changedCols sub
    · rw [if_pos hdis, evaluate_eq_row _ _ _ hl hplain.noTopn hplain.noAggregate] at hsub' hfs
      by_cases hm : sub.matchesEvent ev.row ev.kind t.state.store
      · rw [hplain.evaluateRow_shown ev.sequence hm] at hsub' hfs
        simp only [Subscription.matchesEvent, Bool.and_eq_true, decide_eq_true_eq] at hm
        refine .inr (.inl ⟨hstart, hm.1, hm.2, hsub', ?_⟩)
        rw [hfs]
        by_cases hin : ev.row ∈ sub.activeSet <;>
          simp [hin, deltaFrame, Subscription.delta, StoreState.store]
      · obtain ⟨ty, body, hty, heq⟩ := hplain.evaluateRow_hidden ev.sequence hm
        rw [heq] at hsub' hfs
        simp only [Subscription.matchesEvent, Bool.and_eq_true, decide_eq_true_eq] at hm
        refine .inr (.inr ⟨hstart, hm, hsub', ?_⟩)
        rw [hfs]
        rcases hty with rfl | rfl <;> split <;> rfl
    · obtain ⟨hout, hm⟩ := (hok hl).resolve_left hdis
      rw [if_neg hdis] at hsub' hfs
      refine .inr (.inr ⟨hstart, fun hc => hm hc.2, ?_, ?_⟩)
      · rw [hsub', Finset.erase_eq_of_notMem hout]
      · rw [hfs, if_neg hout]
        rfl
  · have hlt := Nat.lt_of_not_le fun hle => hl ((listens_iff hplain.open_).mpr hle)
    have hself : sub.evaluate ev.row ev.sequence ev.kind t.state.store = (sub, []) := by
      simp [Subscription.evaluate, hl]
    rw [hself] at hsub' hfs
    exact .inl ⟨hlt, by simpa using hsub', by simpa using hfs⟩

/-! ## Registration and snapshot -/

variable {q : ParsedQuery σ}

/-- A fresh registration: nothing is shown yet, every matching row is watched,
and the queued events are those it will not listen to. -/
theorem Mirrors.register {id : String} (hq : q.Plain)
    (hqueue : ∀ ev ∈ queue, ev.sequence ≤ t.nextSequence) :
    Mirrors cfg (subscribed cfg t id q {}) none [] t queue := by
  have hplain : (newSubscription cfg t id q {}).Plain := by
    refine ⟨rfl, rfl, ?_, rfl, rfl⟩
    simp [newSubscription, new, hq.limit]
  have hagg : ¬ q.isAggregating = true := by
    intro hagg
    have hrow := hq.rowOriented
    simp [ParsedQuery.rowOriented, hagg] at hrow
  have hsub : subscribed cfg t id q {} =
      (newSubscription cfg t id q {}).seedActiveSet t.state.store := if_neg hagg
  obtain ⟨-, hquery, hstart⟩ := subscribed_keeps cfg t id q {}
  have hnil : ∀ r, pending queue (t.nextSequence + 1) r = [] :=
    pending_eq_nil fun ev hev => Nat.lt_succ_of_le (hqueue ev hev)
  refine ⟨?_, hstart.le, nofun, nofun, ?_, ?_⟩
  · rw [hsub, seedActiveSet, hplain.seedRows_eq]
    exact hplain.setActive _
  · intro r _
    refine ⟨.inl rfl, ?_⟩
    intro hne
    obtain ⟨p, hp⟩ := Option.ne_none_iff_exists'.mp hne
    rw [hquery] at hp
    obtain ⟨⟨k, hk⟩, hm, -⟩ := expected_eq_some.mp hp
    simpa [hsub, Subscription.seedActiveSet, hplain.seedRows_eq] using
      .inr ⟨t.state.table.slot_lt hk, hm⟩
  · intro r ev hlast
    rw [hstart, hnil] at hlast
    cases hlast

/-- Snapshot rows that are as good as fresh for this subscription: they are the
current rows of every slot without pending events, and each other slot they show
is one the subscription already watches. -/
structure Usable (cfg : TopicConfig) (sub : Subscription σ) (t : Topic σ)
    (queue : List (MutationEvent σ)) (rows : List (Nat × Option String × JsonMap)) : Prop where
  current : ∀ r, pending queue sub.liveStartSequence r = [] →
    ∀ v, (r, v) ∈ rows ↔ expected cfg sub.query t.state r = some v
  watched : ∀ p ∈ rows, pending queue sub.liveStartSequence p.1 ≠ [] → p.1 ∈ sub.activeSet

variable {rows : List (Nat × Option String × JsonMap)}

omit [AggregateExec σ] in
theorem Mirrors.take (h : Mirrors cfg sub none frames t queue)
    (hrows : Usable cfg sub t queue rows) : Mirrors cfg sub (some rows) frames t queue := by
  refine { h with owed := ?_, settled := ?_ }
  · intro rows' heq p hp
    cases heq
    by_cases hnil : pending queue sub.liveStartSequence p.1 = []
    · have hexp := (hrows.current p.1 hnil p.2).mp hp
      exact (h.settled p.1 hnil).2 (by simp [hexp])
    · exact hrows.watched p hp hnil
  · intro r hnil
    refine ⟨fun v hv => (hrows.current r hnil v).mp hv, ?_⟩
    intro hnone
    have hexp : expected cfg sub.query t.state r = none := by
      cases hc : expected cfg sub.query t.state r with
      | none => rfl
      | some v => exact absurd ((hrows.current r hnil v).mpr hc) (hnone v)
    rcases (h.settled r hnil).1 with hheld | hheld
    · rw [hheld, hexp]
    · exact hheld

def Frame.ofRow (p : Nat × Option String × JsonMap) : Frame := .shown p.1 p.2.1 p.2.2

omit [AggregateExec σ] in
theorem Mirrors.send {p : Nat × Option String × JsonMap} {frames' : List Frame}
    (h : Mirrors cfg sub (some (p :: rows)) frames t queue)
    (hother : ∀ r, r ≠ p.1 → held frames' r = held frames r)
    (hself : held frames' p.1 = some p.2 ∨ held frames' p.1 = held frames p.1 ∧
      (pending queue sub.liveStartSequence p.1 = [] →
      held frames p.1 = expected cfg sub.query t.state p.1)) :
    Mirrors cfg sub (some rows) frames' t queue := by
  refine ⟨h.plain, h.start, ?_, ?_, ?_, h.last⟩
  · intro r v hv
    by_cases hr : r = p.1
    · exact hr ▸ h.owed _ rfl p mem_cons_self
    · exact h.active r v ((hother r hr).symm.trans hv)
  · intro rows' heq p' hp'
    cases heq
    exact h.owed _ rfl p' (mem_cons_of_mem _ hp')
  · intro r hnil
    obtain ⟨hin, hout⟩ := h.settled r hnil
    refine ⟨fun v hv => hin v (mem_cons_of_mem _ hv), ?_⟩
    intro hnone
    by_cases hr : r = p.1
    · subst hr
      rcases hself with hself | ⟨hself, hright⟩
      · exact hself.trans (hin p.2 mem_cons_self).symm
      · exact hself.trans (hright hnil)
    · rw [hother r hr]
      refine hout fun v hv => ?_
      rcases mem_cons.mp hv with hv | hv
      · exact hr (by rw [← hv])
      · exact hnone v hv

omit [AggregateExec σ] in
theorem Mirrors.sendAll {rows rest : List (Nat × Option String × JsonMap)}
    (h : Mirrors cfg sub (some (rows ++ rest)) frames t queue) :
    Mirrors cfg sub (some rest) (frames ++ rows.map .ofRow) t queue := by
  induction rows generalizing frames with
  | nil => simpa using h
  | cons p rows ih =>
    have hself : held (frames ++ [.ofRow p]) = update (held frames) p.1 (some p.2) :=
      held_append_shown ..
    have hrest := ih (h.send (fun r hr => by rw [hself, update_of_ne hr])
      (.inl (by rw [hself, update_self])))
    rw [append_assoc] at hrest
    exact hrest

def keyedRows (cfg : TopicConfig) (st : StoreState σ) (rows : List (Nat × JsonMap)) :
    List (Nat × Option String × JsonMap) :=
  rows.map fun p => (p.1, recordKey (cfg.keyColIndices σ) (st.row p.1), p.2)

omit [AggregateExec σ] in
/-- Live rows picked by the predicate, projected, are what a client should hold. -/
theorem mem_keyedRows_live {st : StoreState σ} {rows : List Nat}
    (hrows : ∀ r, r ∈ rows ↔ r < st.store.rowCount ∧ q.predicate.holds (st.store.row r) = true)
    (r : Nat) (v : Option String × JsonMap) :
    (r, v) ∈ keyedRows cfg st ((rows.filter fun r => decide (st.table.Live r)).map fun r =>
        (r, projectRow q (st.row r))) ↔ expected cfg q st r = some v := by
  rw [expected_eq_some, keyedRows, map_map, mem_map]
  constructor
  · intro h
    obtain ⟨r', hr', heq⟩ := h
    cases heq
    obtain ⟨hsel, hlive⟩ := mem_filter.mp hr'
    exact ⟨of_decide_eq_true hlive, ((hrows r').mp hsel).2, rfl⟩
  · intro h
    obtain ⟨⟨k, hk⟩, hm, rfl⟩ := h
    refine ⟨r, mem_filter.mpr ⟨?_, decide_eq_true ⟨k, hk⟩⟩, rfl⟩
    exact (hrows r).mpr ⟨st.table.slot_lt hk, hm⟩

theorem mem_keyedRows_snapshotRows (hkeys : cfg.keyFields ≠ []) (hq : q.Stored) (st : StoreState σ)
    (r : Nat) (v : Option String × JsonMap) :
    (r, v) ∈ keyedRows cfg st (snapshotRows cfg st q) ↔ expected cfg q st r = some v := by
  rw [snapshotRows_eq hkeys hq]
  exact mem_keyedRows_live (fun _ => mem_selectedRows hq) r v

end Mirror

end CqServer
