import CqServer.Lib.Unwinding
import CqServer.Topic.Mirror

/-!
# One subscription, write by write

A topic on which every event is evaluated before the next write. A write and the
evaluation of its event make one turn; of the engine only the subscription in view is
kept, as the others do not matter to it (`served_alone`). A write changes at most one slot
and announces it (`Write.Sound.cases`), so a turn has at most one event.
-/

namespace CqServer

open Lib StoreState Subscription SubscriptionEngine

variable {σ : Schema}

/-! ## Writes -/

inductive Write where
  | upsert (now : Nat) (appendOk : Bool) (m : JsonMap)
  | delta (now : Nat) (appendOk : Bool) (m : JsonMap)
  | delete (appendOk : Bool) (key : String)
  | expire (appendOk : Bool) (ttl sweepObservedAt : Nat) (key : String)

namespace Write

def kind : Write → MutationKind
  | .upsert .. | .delta .. => .upsert
  | .delete .. | .expire .. => .delete

/-- A delta names the columns it changes; the other writes are evaluated by every subscription. -/
def isDelta : Write → Bool
  | .delta .. => true
  | _ => false

variable [HostText]

variable (cfg : TopicConfig)

def perform (t : Topic σ) : Write → Outcome σ
  | .upsert now appendOk m => upsertMap cfg now appendOk t m
  | .delta now appendOk m => deltaUpsertMap cfg now appendOk t m
  | .delete appendOk key => CqServer.delete cfg appendOk t key
  | .expire appendOk ttl sweepObservedAt key =>
    deleteIfStillExpired cfg appendOk t ttl sweepObservedAt key

/-- The effect of a write on the topic, unless it is refused. -/
def effect? (t : Topic σ) : Write → Option (Effect σ)
  | .upsert now appendOk m => some (publishEffect cfg now appendOk (.ofMap σ (flatView m)) none)
  | .delta now appendOk m =>
    (deltaRead cfg t.state m).map fun d =>
      publishEffect cfg now appendOk d.values (some d.changedCols)
  | .delete appendOk key => some (.remove key !(cfg.persist && !appendOk))
  | .expire appendOk ttl sweepObservedAt key =>
    if stillExpired t.state ttl sweepObservedAt key then
      some (.remove key !(cfg.persist && !appendOk))
    else none

theorem perform_effect (t : Topic σ) (w : Write) : let o := w.perform cfg t
    let e := (w.effect? cfg t).elim (t, []) fun e => e.apply cfg t
    o.topic = e.1 ∧ o.events = e.2 := by
  cases w with
  | upsert now appendOk m =>
    obtain ⟨htopic, hevents, -⟩ := upsertMap_effect cfg now appendOk t m
    exact ⟨htopic, hevents⟩
  | delta now appendOk m =>
    simp only [perform, deltaUpsertMap, effect?]
    cases hread : deltaRead cfg t.state m with
    | none => exact ⟨rfl, rfl⟩
    | some d =>
      obtain ⟨htopic, hevents, -⟩ := writeStoreWithChanged_effect cfg now appendOk t
        d.values d.key d.payload d.format (some d.changedCols)
      exact ⟨htopic, hevents⟩
  | delete appendOk key => exact delete_effect cfg appendOk t key
  | expire appendOk ttl sweepObservedAt key =>
    simp only [perform, deleteIfStillExpired, effect?]
    split
    · exact delete_effect cfg appendOk t key
    · exact ⟨rfl, rfl⟩

/-- The write does not publish without a key and does not remove unannounced. -/
def Sound (t : Topic σ) (w : Write) : Prop :=
  ∀ e ∈ w.effect? cfg t, CqServer.Sound cfg t e

instance (cfg : TopicConfig) (t : Topic σ) (w : Write) : Decidable (w.Sound cfg t) :=
  match h : w.effect? cfg t with
  | none => isTrue fun e he => by rw [h] at he; cases he
  | some e =>
    decidable_of_iff (CqServer.Sound cfg t e)
      ⟨fun hs e' he' => by rw [h] at he'; cases he'; exact hs, fun hs => hs e h⟩

variable {cfg : TopicConfig} {t : Topic σ} {w : Write}

/-- **What a sound write does**: it leaves the store alone, or touches one slot and says so. -/
theorem Sound.cases (hs : w.Sound cfg t) :
    ((w.perform cfg t).events = [] ∧ (w.perform cfg t).topic.state = t.state ∧
      t.nextSequence ≤ (w.perform cfg t).topic.nextSequence) ∨
    ∃ ev, (w.perform cfg t).events = [ev] ∧ Touches t (w.perform cfg t).topic ev := by
  obtain ⟨htopic, hevents⟩ := perform_effect cfg t w
  rw [htopic, hevents]
  cases he : w.effect? cfg t with
  | none => exact .inl ⟨rfl, rfl, le_rfl⟩
  | some e =>
    rcases (hs e he).cases with heq | ⟨ev, hev, ht, -⟩ | heq
    · exact .inl (by simp [heq])
    · exact .inr ⟨ev, hev, ht⟩
    · exact .inl (by simp [heq])

theorem Sound.keyed (hs : w.Sound cfg t) (h : Keyed (cfg.keyColIndices σ) t.state) :
    Keyed (cfg.keyColIndices σ) (w.perform cfg t).topic.state := by
  rw [(perform_effect cfg t w).1]
  cases he : w.effect? cfg t with
  | none => exact h
  | some e => exact h.effect (hs e he)

theorem events_cases (cfg : TopicConfig) (t : Topic σ) (w : Write) :
    (w.perform cfg t).events = [] ∨ ∃ ev, (w.perform cfg t).events = [ev] := by
  rw [(w.perform_effect cfg t).2]
  cases w.effect? cfg t with
  | none => exact .inl rfl
  | some e => cases e <;> grind [Effect.apply]

def step (cfg : TopicConfig) (t : Topic σ) (w : Write) : Option (Topic σ) :=
  some (w.perform cfg t).topic

/-- A topic that was filled by sound writes. -/
def History (cfg : TopicConfig) (ws : List Write) (t : Topic σ) : Prop :=
  Run (step cfg) (fun t w => w.Sound cfg t) (.new σ) ws t

theorem History.keyed {ws : List Write} (h : History cfg ws t) :
    Keyed (cfg.keyColIndices σ) t.state := by
  refine Run.invariant (P := fun t => Keyed (cfg.keyColIndices σ) t.state) ?_ h (Keyed.build _)
  intro t w t' hk hs hstep
  cases hstep
  exact hs.keyed hk

variable {ev : MutationEvent σ}

variable (hev : ev ∈ (w.perform cfg t).events)
include hev

/-- The event of a write is of its kind, and names columns only after a delta. -/
theorem event_kind :
    ev.kind = w.kind ∧ (w.isDelta = false → ev.changedCols = none) := by
  have hpublish : ∀ {now appendOk v cols}, ev ∈ ((publishEffect cfg now appendOk v cols).apply cfg t).2 →
      ev.kind = .upsert ∧ ev.changedCols = cols := by
    intro now appendOk v cols hev
    unfold publishEffect at hev
    split at hev
    · cases hev
    · obtain rfl := List.mem_singleton.mp hev
      exact ⟨rfl, rfl⟩
  have hremove : ∀ {key announced}, ev ∈ ((Effect.remove key announced).apply cfg t).2 →
      ev.kind = .delete ∧ ev.changedCols = none := by
    intro key announced hev
    unfold Effect.apply at hev
    dsimp only at hev
    split at hev
    · cases hev
    split at hev
    · obtain rfl := List.mem_singleton.mp hev
      exact ⟨rfl, rfl⟩
    · cases hev
  rw [(perform_effect cfg t w).2] at hev
  cases w with
  | upsert now appendOk m =>
    obtain ⟨hkind, hcols⟩ := hpublish hev
    exact ⟨hkind, fun _ => hcols⟩
  | delta now appendOk m =>
    simp only [effect?] at hev
    cases hread : deltaRead cfg t.state m with
    | none => rw [hread] at hev; cases hev
    | some d =>
      rw [hread] at hev
      exact ⟨(hpublish hev).1, fun h => nomatch h⟩
  | delete appendOk key =>
    obtain ⟨hkind, hcols⟩ := hremove hev
    exact ⟨hkind, fun _ => hcols⟩
  | expire appendOk ttl sweepObservedAt key =>
    simp only [effect?] at hev
    split at hev
    · obtain ⟨hkind, hcols⟩ := hremove hev
      exact ⟨hkind, fun _ => hcols⟩
    · cases hev

theorem row_of_delete (hkind : ev.kind = .delete) :
    (w.perform cfg t).topic.state.row ev.row = .null := by
  obtain ⟨htopic, hevents⟩ := perform_effect cfg t w
  rw [hevents] at hev
  rw [htopic]
  cases he : w.effect? cfg t with
  | none =>
    rw [he] at hev
    cases hev
  | some e =>
    rw [he] at hev
    cases e with
    | burn => cases hev
    | commit now v cols =>
      obtain rfl := List.mem_singleton.mp hev
      cases hkind
    | remove key announced =>
      cases hrem : t.state.removeKey key with
      | none => simp [Effect.apply, hrem] at hev
      | some p =>
        simp only [Option.elim_some, Effect.apply, hrem] at hev ⊢
        split at hev
        · obtain rfl := List.mem_singleton.mp hev
          exact removeKey_row_self hrem
        · cases hev

end Write

/-! ## Turns -/

structure Watched (σ : Schema) where
  topic : Topic σ
  sub : Subscription σ

variable [HostText] [AggregateExec σ]

/-- The subscription takes an event, if the index dispatches it. -/
def Subscription.receive (sub : Subscription σ) (store : ColumnStore σ) (ev : MutationEvent σ) :
    Subscription σ × List Delta :=
  if Dispatched ev.changedCols sub then
    sub.evaluate ev.row ev.sequence ev.kind store
  else (sub, [])

def Subscription.receiveAll (store : ColumnStore σ) :
    Subscription σ → List (MutationEvent σ) → Subscription σ × List Delta
  | sub, [] => (sub, [])
  | sub, ev :: evs =>
    let o := sub.receive store ev
    let rest := receiveAll store o.1 evs
    (rest.1, o.2 ++ rest.2)

/-- A write, and the evaluation of its event if there is one. -/
def Live.serve (cfg : TopicConfig) (s : Live σ) (w : Write) : Live σ × List Delta :=
  let written := s.absorb (w.perform cfg s.topic)
  (written.step cfg .evaluate).getD (written, [])

namespace Watched

def register (cfg : TopicConfig) (t : Topic σ) (id : String) (q : ParsedQuery σ)
    (opts : SubscribeOptions) : Watched σ := ⟨t, subscribed cfg t id q opts⟩

def turn (cfg : TopicConfig) (s : Watched σ) (w : Write) : Watched σ × List Delta :=
  let o := w.perform cfg s.topic
  let r := s.sub.receiveAll o.topic.state.store o.events
  (⟨o.topic, r.1⟩, r.2)

def step (cfg : TopicConfig) (s : Watched σ) (w : Write) : Option (Watched σ) :=
  some (s.turn cfg w).1

variable {cfg : TopicConfig} {s : Watched σ} {w : Write}

theorem turn_of_nil (h : (w.perform cfg s.topic).events = []) :
    s.turn cfg w = (⟨(w.perform cfg s.topic).topic, s.sub⟩, []) := by
  simp [turn, h, receiveAll]

theorem turn_of_singleton {ev : MutationEvent σ} (h : (w.perform cfg s.topic).events = [ev]) :
    s.turn cfg w = (⟨(w.perform cfg s.topic).topic,
          (s.sub.receive (w.perform cfg s.topic).topic.state.store ev).1⟩,
        (s.sub.receive (w.perform cfg s.topic).topic.state.store ev).2) := by
  simp [turn, h, receiveAll]

section Served
variable {s : Live σ} {id : String} {sub : Subscription σ}

/-- **A turn is a write and an evaluation of the topic under load**, seen by one of its
subscriptions. -/
theorem turn_serve (cfg : TopicConfig) (w : Write) (hqueue : s.queue = [])
    (hsub : s.engine.subscriptions.lookup id = some sub) :
    let o := s.serve cfg w
    let next := turn cfg ⟨s.topic, sub⟩ w
    o.1.queue = [] ∧ o.1.topic = next.1.topic ∧
      o.1.engine.subscriptions.lookup id = some next.1.sub ∧ deltasFor id o.2 = next.2 := by
  rcases w.events_cases cfg s.topic with hnil | ⟨ev, hev⟩
  · rw [turn_of_nil (by exact hnil)]
    simp [Live.serve, Live.absorb, Live.step, hqueue, hnil, hsub, deltasFor]
  · obtain ⟨hlook, hdeltas⟩ := evaluateRowKindIndexed_lookup hsub ev.row
      ev.sequence (w.perform cfg s.topic).topic.state.store ev.kind ev.changedCols
    rw [turn_of_singleton (by exact hev)]
    simp only [Live.serve, Live.absorb, Live.step, hqueue, hev, List.nil_append, Option.getD_some]
    refine ⟨trivial, trivial, hlook.trans ?_, hdeltas.trans ?_⟩
    · unfold receive
      split <;> rfl
    · unfold receive
      split <;> rfl

/-- **A subscription is served as if it were alone**: what it is sent, write by write, does not
depend on the other subscriptions of the topic. -/
theorem served_alone (hqueue : s.queue = []) (hsub : s.engine.subscriptions.lookup id = some sub)
    (ws : List Write) : deltasFor id (trace (Live.serve cfg) s ws).2 =
      (trace (turn cfg) ⟨s.topic, sub⟩ ws).2 := by
  induction ws generalizing s sub with
  | nil => rfl
  | cons w ws ih =>
    obtain ⟨hqueue', htopic, hsub', hdeltas⟩ := turn_serve cfg w hqueue hsub
    have hrest := ih hqueue' hsub'
    rw [htopic] at hrest
    simp only [trace, deltasFor_append, hdeltas, hrest]

end Served

end Watched

end CqServer
