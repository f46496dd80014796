import CqServer.Lib.Ledger
import CqServer.Queue.Calls

/-!
# Every message is somewhere, once

The places a message of a queue can be in: the buffer, a lease, the hands of a running
call, and for those the queue is done with, acknowledged, evicted or exhausted. Each
lock section moves messages between places and does nothing else with them
(`Outcome.Moves`), so in every run every published message is in exactly one place
(`published_in_one_place`).
-/

namespace CqServer.Queue

open Lib List

inductive Place where
  | buffer
  | lease (deliveryId : Nat)
  | hands (call : Nat)
  | acked
  | evicted
  | exhausted
  /-- delivered without a lease -/
  | sent
  deriving DecidableEq, Repr

/-- The ways of a message. There is none back from where the queue is done with it. -/
def Edge : Place → Place → Prop
  | .buffer, .hands _ | .buffer, .evicted => True
  | .hands _, .buffer | .hands _, .lease _ | .hands _, .exhausted | .hands _, .sent => True
  | .lease _, .hands _ | .lease _, .acked => True
  | _, _ => False

theorem not_edge_acked (p : Place) : ¬ Edge .acked p := by
  cases p <;> exact id

/-- Where an event leaves a message for good. -/
def Event.settled : Event → List (Place × QueueMessage)
  | .acked _ m => [(.acked, m)]
  | .evicted m => [(.evicted, m)]
  | .exhausted m _ => [(.exhausted, m)]
  | .sent _ m => [(.sent, m)]
  | _ => []

def Event.created : Event → List QueueMessage
  | .published m => [m]
  | _ => []

def settled (es : List Event) : Multiset (Place × QueueMessage) := ↑(es.flatMap Event.settled)
def created (es : List Event) : List QueueMessage := es.flatMap Event.created

@[simp] theorem settled_append (es es' : List Event) :
    settled (es ++ es') = settled es + settled es' := by
  simp [settled]

@[simp] theorem created_append (es es' : List Event) :
    created (es ++ es') = created es ++ created es' := by
  simp [created]

theorem settled_evicted (ms : List QueueMessage) :
    settled (ms.map .evicted) = heldAt .evicted ms := by
  have hmap : (ms.map Event.evicted).flatMap Event.settled = ms.map fun m => (Place.evicted, m) := by
    induction ms with
    | nil => rfl
    | cons m ms ih =>
      rw [map_cons, flatMap_cons, ih]
      rfl
  rw [settled, hmap]
  rfl

theorem created_evicted (ms : List QueueMessage) : created (ms.map .evicted) = [] := by
  simp [created, Event.created]

def leases (q : QueueInner) : Multiset (Place × QueueMessage) :=
  ↑(q.inFlight.entries.map fun e => (Place.lease e.1, e.2.msg))

def innerPlaces (q : QueueInner) : Multiset (Place × QueueMessage) :=
  heldAt .buffer q.buffer + leases q

def inHands (c : List Section) : List QueueMessage := c.flatMap Section.hands

def State.places (s : State) : Multiset (Place × QueueMessage) :=
  innerPlaces s.inner + holders .hands inHands 0 s.calls + settled s.log

def State.published (s : State) : List QueueMessage := created s.log

/-! ## One section -/

/-- The call `i` has messages in hand and creates some; afterwards they are in the queue, in the
hands of the call, or settled. -/
def Outcome.Moves (i : Nat) (q : QueueInner) (held : List QueueMessage) (o : Outcome) : Prop :=
  Transfers Edge (innerPlaces q + heldAt (.hands i) (held ++ created o.events))
    (innerPlaces o.inner + heldAt (.hands i) (inHands o.todo) + settled o.events)

structure Outcome.Numbers (n : Nat) (o : Outcome) : Prop where
  sequences : (created o.events).map (·.sequence) = range' (n + 1) (created o.events).length
  next : o.nextSequence = n + (created o.events).length

theorem inHands_publishCall (cfg : Config) (m : QueueMessage) :
    inHands (publishCall cfg m) = [m] := by
  unfold publishCall
  split <;> rfl

theorem inHands_map {α : Type} {f : α → Section} {g : α → QueueMessage}
    (h : ∀ e, (f e).hands = [g e]) (es : List α) : inHands (es.map f) = es.map g := by
  simp [inHands, flatMap_map, h, ← map_eq_flatMap]

variable {o : Outcome} {q : QueueInner}

theorem Outcome.Moves.still {i : Nat} {held : List QueueMessage}
    (hinner : innerPlaces o.inner = innerPlaces q) (hevents : o.events = [])
    (htodo : inHands o.todo = held) : o.Moves i q held := by
  refine (Transfers.refl (innerPlaces q + heldAt (.hands i) held)).congr ?_ ?_
  · rw [hevents]
    simp [created]
  · rw [hinner, htodo, hevents]
    simp [settled]

variable {m : QueueMessage}

/-- A message is put into the buffer, after room was made for it. -/
theorem moves_buffer (i : Nat) {room evicted : List QueueMessage}
    (hroom : q.buffer.Perm (evicted ++ room))
    (hinner : o.inner = { q with buffer := insertByPriority room m }) (htodo : o.todo = [])
    (hsettled : settled o.events = heldAt .evicted evicted) (hcreated : created o.events = []) :
    o.Moves i q [m] := by
  have hevict : Transfers Edge (heldAt .buffer evicted) (heldAt .evicted evicted) :=
    .all trivial evicted
  have hbuffer : Transfers Edge (heldAt (.hands i) [m]) (heldAt .buffer [m]) := .all trivial [m]
  have hafter : innerPlaces o.inner = heldAt .buffer ([m] ++ room) + leases q := by
    rw [hinner]
    exact congrArg (· + leases q) (heldAt_perm Place.buffer (insertByPriority_perm room m))
  refine ((hevict.add hbuffer).frame (heldAt .buffer room + leases q)).congr ?_ ?_
  · rw [innerPlaces, heldAt_perm Place.buffer hroom, heldAt_append, hcreated]
    abel
  · rw [hafter, hsettled, heldAt_append, htodo]
    abel

theorem moves_sweep (i : Nat) (q : QueueInner) (order : List Nat) (withQueues : Bool)
    (nextSequence : Nat) :
    Outcome.Moves i q []
      { inner := { q with inFlight := (Tickets.takeAll order q.inFlight).2 }
        nextSequence
        todo := (Tickets.takeAll order q.inFlight).1.map fun e => .redeliver withQueues e.2 } := by
  have htaken : Transfers Edge
      (↑((Tickets.takeAll order q.inFlight).1.map fun e => (Place.lease e.1, e.2.msg)))
      (heldAt (.hands i) ((Tickets.takeAll order q.inFlight).1.map fun e => e.2.msg)) :=
    .gather (fun _ => trivial) _ _
  have hall : leases q = ↑((Tickets.takeAll order q.inFlight).1.map
      fun e => (Place.lease e.1, e.2.msg)) + leases { q with
        inFlight := (Tickets.takeAll order q.inFlight).2 } := by
    rw [leases, leases, Multiset.coe_add, ← map_append]
    exact Multiset.coe_eq_coe.mpr ((Tickets.entries_takeAll order q.inFlight).map _)
  refine (htaken.frame (heldAt .buffer q.buffer + leases { q with
    inFlight := (Tickets.takeAll order q.inFlight).2 })).congr ?_ ?_
  · rw [innerPlaces, hall]
    abel
  · rw [innerPlaces, inHands_map fun _ => rfl]
    abel

theorem moves_settle (i : Nat) (q : QueueInner) (p : Place) (hedge : Edge (.hands i) p)
    (hinner : o.inner = q) (hsettled : settled o.events = heldAt p [m])
    (hcreated : created o.events = inHands o.todo) : o.Moves i q [m] := by
  have hsettle : Transfers Edge (heldAt (.hands i) [m]) (heldAt p [m]) := .all hedge _
  refine (hsettle.frame (innerPlaces q + heldAt (.hands i) (inHands o.todo))).congr ?_ ?_
  · rw [hcreated, heldAt_append]
    abel
  · rw [hinner, hsettled]

variable {cfg : Config} {registered : String → Bool}

variable {n now : Nat} {order : List Nat} {top : Section}

/-- **Every section moves the messages it has in hand and no others.** -/
theorem Section.run_moves (i : Nat) (h : top.run cfg registered now order q n = some o) :
    o.Moves i q top.hands ∧ o.Numbers n := by
  cases run_does h with
  | hand hpick hands =>
    rw [hands]
    refine ⟨.still ?_ rfl rfl, rfl, rfl⟩
    rw [innerPlaces, innerPlaces, leases, leases, hpick.buffer, hpick.inFlight]
  | @buffer m =>
    have hcreated : ∀ ms : List QueueMessage,
        created (ms.map Event.evicted ++ [.buffered m]) = [] := by
      intro ms
      rw [created_append, created_evicted]
      rfl
    refine ⟨moves_buffer i (makeRoom_perm cfg.maxBuffer _ q.buffer) rfl rfl ?_ (hcreated _), ?_, ?_⟩
    · rw [settled_append, settled_evicted]
      exact add_zero _
    · rw [hcreated]
      rfl
    · rw [hcreated]
      rfl
  | @lease sub m count ms =>
    have hlease : Transfers Edge (heldAt (.hands i) [m])
        (heldAt (.lease (q.inFlight.last + 1)) [m]) := .all trivial _
    refine ⟨(hlease.frame (innerPlaces q)).congr ?_ ?_, rfl, rfl⟩
    · simp [created, Event.created, hands]
    · simp only [innerPlaces, leases, Tickets.issue, map_append, ← Multiset.coe_add]
      abel
  | send => exact ⟨moves_settle i q .sent trivial rfl rfl rfl, rfl, rfl⟩
  | idle | strand => exact ⟨.still rfl rfl rfl, rfl, rfl⟩
  | sweep => exact ⟨moves_sweep i q order _ n, rfl, rfl⟩
  | exhaust => exact ⟨moves_settle i q .exhausted trivial rfl rfl rfl, rfl, rfl⟩
  | letter hused hm =>
    refine ⟨moves_settle i q .exhausted trivial rfl rfl ?_, congrArg (fun k => [k]) hm, rfl⟩
    rw [inHands_publishCall]
    rfl
  | rebuffer =>
    have hroom : q.buffer.Perm ([] ++ q.buffer) := Perm.refl q.buffer
    exact ⟨moves_buffer i hroom rfl rfl rfl rfl, rfl, rfl⟩

/-! ## One step -/

variable {s s' : State} {a : Action}

theorem Begins.moves (i : Nat) (h : Begins cfg s a o) :
    o.Moves i s.inner [] ∧ o.Numbers s.nextSequence := by
  cases h with
  | publish hm =>
    refine ⟨(Transfers.refl _).congr rfl ?_, congrArg (fun k => [k]) hm, rfl⟩
    rw [inHands_publishCall]
    exact add_zero _
  | join hout hbuffer hleases =>
    have hdealt : Transfers Edge (heldAt .buffer s.inner.buffer)
        (heldAt (.hands i) s.inner.buffer) := .all trivial _
    refine ⟨(hdealt.frame (leases s.inner)).congr ?_ ?_, rfl, rfl⟩
    · rw [innerPlaces]
      abel
    · rw [innerPlaces, leases, hbuffer, hleases, inHands_map fun _ => rfl, hout,
        show settled [] = 0 from rfl, leases]
      abel
  | @ack id lease hget =>
    have hacked : Transfers Edge (heldAt (.lease id) [lease.msg]) (heldAt .acked [lease.msg]) :=
      .all trivial _
    have hall : leases s.inner = heldAt (.lease id) [lease.msg] +
        leases { s.inner with inFlight := s.inner.inFlight.remove id } :=
      Multiset.coe_eq_coe.mpr ((Tickets.entries_remove hget).map _)
    refine ⟨(hacked.frame (heldAt .buffer s.inner.buffer +
      leases { s.inner with inFlight := s.inner.inFlight.remove id })).congr ?_ ?_, rfl, rfl⟩
    · rw [innerPlaces, hall]
      abel
    · rw [innerPlaces, show settled [Event.acked id lease.msg] = heldAt .acked [lease.msg] from rfl]
      simp only [inHands, flatMap_nil, heldAt_nil, add_zero]
  | noAck | sweep => exact ⟨.still rfl rfl rfl, rfl, rfl⟩

structure Conserves (s s' : State) (events : List Event) : Prop where
  log : s'.log = s.log ++ events
  moves : ∃ i, Transfers Edge (s.places + heldAt (.hands i) (created events)) s'.places
  sequences : (created events).map (·.sequence) =
    range' (s.nextSequence + 1) (created events).length
  next : s'.nextSequence = s.nextSequence + (created events).length

theorem Outcome.Moves.start (h : o.Moves s.calls.length s.inner [])
    (hnum : o.Numbers s.nextSequence) :
    Conserves s (s.start o) o.events where
  log := rfl
  moves := by
    refine ⟨s.calls.length, ?_⟩
    refine (Transfers.frame (holders .hands inHands 0 s.calls + settled s.log) h).congr ?_ ?_
    · rw [State.places]
      abel
    · rw [State.places, State.start]
      rw [holders_append, settled_append]
      abel_nf
  sequences := hnum.sequences
  next := hnum.next

theorem Outcome.Moves.resume {call : Nat} {rest : List Section}
    (hcall : s.calls[call]? = some (top :: rest)) (h : o.Moves call s.inner top.hands)
    (hnum : o.Numbers s.nextSequence) :
    Conserves s (s.goOn call rest o) o.events where
  log := rfl
  moves := by
    refine ⟨call, ?_⟩
    obtain ⟨others, hold, hnew⟩ := holders_set Place.hands inHands 0 hcall
    rw [Nat.zero_add] at hold
    have hhands : ∀ secs : List Section, heldAt (Place.hands call) (inHands (secs ++ rest)) =
          heldAt (.hands call) (inHands secs) + heldAt (.hands call) (inHands rest) := by
      intro secs
      rw [inHands, flatMap_append, heldAt_append]
      rfl
    have htop : inHands [top] = top.hands := by simp [inHands]
    have hbefore := hhands [top]
    rw [htop, singleton_append] at hbefore
    refine (h.frame (others + heldAt (.hands call) (inHands rest) + settled s.log)).congr ?_ ?_
    · rw [State.places, hold, hbefore, heldAt_append]
      abel
    · rw [State.places, State.goOn]
      rw [hnew, Nat.zero_add, hhands, settled_append]
      abel
  sequences := hnum.sequences
  next := hnum.next

theorem Conserves.same (h : innerPlaces q = innerPlaces s.inner) :
    Conserves s { s with inner := q } [] where
  log := (append_nil _).symm
  moves := by
    refine ⟨0, (Transfers.refl s.places).congr ?_ ?_⟩
    · simp [created]
    · rw [State.places, State.places]
      rw [h]
  sequences := rfl
  next := rfl

/-- **Every step moves messages and does nothing else with them.** -/
theorem step_conserves (h : step cfg registered s a = some s') :
    ∃ events, Conserves s s' events := by
  cases step_does h with
  | start hbegins =>
    obtain ⟨hmoves, hnum⟩ := hbegins.moves s.calls.length
    exact ⟨_, hmoves.start hnum⟩
  | leave => exact ⟨[], .same rfl⟩
  | extend _ hsame =>
    refine ⟨[], .same ?_⟩
    rw [innerPlaces, leases, hsame _ fun _ _ _ => rfl]
    rfl
  | resume hcall ho =>
    obtain ⟨hmoves, hnum⟩ := Section.run_moves _ ho
    exact ⟨_, hmoves.resume hcall hnum⟩

/-- The places hold the published messages, numbered without a gap. -/
structure Accounted (s : State) : Prop where
  items : s.places.map Prod.snd = ↑s.published
  sequences : s.published.map (·.sequence) = range' 1 s.nextSequence

theorem Accounted.init : Accounted State.init := ⟨rfl, rfl⟩

theorem Accounted.step (h : Accounted s) {events : List Event} (hstep : Conserves s s' events) :
    Accounted s' where
  items := by
    obtain ⟨i, hmoves⟩ := hstep.moves
    rw [← hmoves.items, Multiset.map_add, h.items, items_heldAt, State.published, State.published,
      hstep.log, created_append, Multiset.coe_add]
  sequences := by
    rw [State.published, hstep.log, created_append, map_append, hstep.sequences, hstep.next]
    have hold := h.sequences
    rw [State.published] at hold
    rw [hold, show s.nextSequence + 1 = 1 + s.nextSequence by omega, range'_append_1]

theorem Accounted.nodup (h : Accounted s) : (s.places.map Prod.snd).Nodup := by
  rw [h.items]
  refine Multiset.coe_nodup.mpr (Nodup.of_map (·.sequence) ?_)
  rw [h.sequences]
  exact nodup_range'

theorem accounted_of_run {Ok : State → Action → Prop} {as : List Action}
    (hrun : Run (step cfg registered) Ok State.init as s) : Accounted s :=
  hrun.invariant (P := Accounted)
    (fun _ _ _ h _ hstep => (step_conserves hstep).elim fun _ hc => h.step hc) Accounted.init

/-! ## Leased queues -/

theorem Section.run_not_sent (hlease : cfg.leaseMs.isSome = true)
    (h : top.run cfg registered now order q n = some o) (sub : String) (m : QueueMessage) :
    .sent sub m ∉ o.events := by
  cases run_does h with
  | send hnone =>
    rw [hnone] at hlease
    cases hlease
  | hand | buffer | lease | idle | sweep | exhaust | letter | strand | rebuffer => simp

theorem step_not_sent (hlease : cfg.leaseMs.isSome = true) (h : step cfg registered s a = some s')
    (hs : ∀ sub m, .sent sub m ∉ s.log) (sub : String) (m : QueueMessage) :
    .sent sub m ∉ s'.log := by
  cases step_does h with
  | start hbegins => cases hbegins <;> simp [State.start, hs]
  | leave | extend => exact hs sub m
  | resume _ ho => simpa [State.goOn, hs] using Section.run_not_sent hlease ho sub m

theorem not_mem_places_sent (hs : ∀ sub m, .sent sub m ∉ s.log) (m : QueueMessage) :
    (Place.sent, m) ∉ s.places := by
  have hholders : ∀ (k : Nat) (cs : List (List Section)),
      (Place.sent, m) ∉ holders Place.hands inHands k cs := by
    intro k cs
    induction cs generalizing k with
    | nil => exact Multiset.notMem_zero _
    | cons c cs ih => simp [holders, ih]
  have hsettled : (Place.sent, m) ∉ settled s.log := by
    intro hmem
    obtain ⟨e, he, hplace⟩ := mem_flatMap.mp (Multiset.mem_coe.mp hmem)
    cases e with
    | sent sub m' => exact hs sub m' he
    | acked _ _ | evicted _ | exhausted _ _ => simp [Event.settled] at hplace
    | published _ | buffered _ | leased _ _ _ _ | rebuffered _ => cases hplace
  simp [State.places, innerPlaces, leases, hholders, hsettled]

/-- **Conservation.** In every interleaving of the lock sections on a queue with leases, every
published message is in exactly one place, and there once: the buffer, one lease, the hands of one
running call, acknowledged, evicted or exhausted. -/
theorem published_in_one_place (hlease : cfg.leaseMs.isSome = true) {as : List Action} {s : State}
    (hrun : Run (step cfg registered) (fun _ _ => True) State.init as s) :
    (∀ m ∈ s.published, ∃! p, (p, m) ∈ s.places) ∧ (s.places.map Prod.snd).Nodup ∧
      ∀ p m, (p, m) ∈ s.places → m ∈ s.published ∧ p ≠ .sent := by
  have hacc := accounted_of_run hrun
  have hsent : ∀ sub m, .sent sub m ∉ s.log :=
    hrun.invariant (P := fun s => ∀ sub m, Event.sent sub m ∉ s.log)
      (fun _ _ _ h _ hstep => step_not_sent hlease hstep h) (fun _ _ h => nomatch h)
  refine ⟨?_, hacc.nodup, ?_⟩
  · intro m hm
    have hitem : m ∈ s.places.map Prod.snd := by
      rw [hacc.items]
      exact hm
    obtain ⟨⟨p, m'⟩, hp, rfl⟩ := Multiset.mem_map.mp hitem
    exact ⟨p, hp, fun q hq => place_unique hacc.nodup hq hp⟩
  · intro p m hp
    refine ⟨?_, ?_⟩
    · have hitem := Multiset.mem_map_of_mem Prod.snd hp
      rw [hacc.items] at hitem
      exact hitem
    · rintro rfl
      exact not_mem_places_sent hsent m hp

/-- Ten milliseconds to acknowledge, one redelivery, room for one. -/
def orders : Config :=
  { name := "/orders", leaseMs := some 10, maxDeliveryCount := 1, maxBuffer := 1 }

/-- Three orders without a consumer, of which two are evicted; one is delivered to a consumer
that leaves, expires, and is put back. -/
def expiring : List Action :=
  [.publish .null {}, .resume 0 0 [], .resume 0 0 [], .publish .null {}, .resume 1 1 [], .resume 1 1 [],
    .publish .null {}, .resume 2 2 [], .resume 2 2 [], .addConsumer "a", .resume 3 3 [],
    .removeConsumer "a", .sweep true, .resume 4 20 [1], .resume 4 20 [], .resume 4 20 []]

theorem published_in_one_place_expiring : ∃ s,
    Run (step orders fun _ => false) (fun _ _ => True) State.init expiring s ∧
      (s.published.length = 3 ∧ s.inner.buffer.length = 1) ∧
      ∀ m ∈ s.published, ∃! p, (p, m) ∈ s.places := by
  refine Run.exists_of_check (fun s => s.published.length = 3 ∧ s.inner.buffer.length = 1)
    (by decide +kernel) fun s hrun hend => ?_
  exact ⟨hend, (published_in_one_place rfl hrun).1⟩

end CqServer.Queue
