import CqServer.Lib.Run
import CqServer.Queue.State

/-!
# Running calls on a queue

The calls on a queue take its lock several times: a publish sweeps first, then picks a
consumer, then files the lease; a sweep takes the expired leases out and redelivers or
re-buffers them one by one. Between two lock sections any other call may take its own.

A running call is the stack of what it has still to do (`Section`). `step` either
starts a call, up to and including the first section of those that begin with one, or
runs the next section of a call. What happens to messages is logged.
-/

namespace CqServer.Queue

/-- What a call has still to do under the lock, with the messages it holds meanwhile. -/
inductive Section where
  /-- `publish_with_opts`: pick a consumer or buffer the message -/
  | publish (m : QueueMessage)
  | deliver (subId : String) (m : QueueMessage) (redeliveryCount : UInt32)
  /-- `sweep_expired_with_queues`, with the registry or without: take out the expired leases -/
  | sweep (withQueues : Bool)
  /-- one round of its loop -/
  | redeliver (withQueues : Bool) (lease : LeaseRecord)
  /-- the end of a round that found no consumer -/
  | rebuffer (m : QueueMessage)
  deriving DecidableEq

def Section.hands : Section → List QueueMessage
  | .publish m => [m]
  | .deliver _ m _ => [m]
  | .sweep _ => []
  | .redeliver _ lease => [lease.msg]
  | .rebuffer m => [m]

def Section.rebuffers : Section → Bool
  | .rebuffer _ => true
  | _ => false

inductive Event where
  | published (m : QueueMessage)
  | buffered (m : QueueMessage)
  | evicted (m : QueueMessage)
  | leased (deliveryId : Nat) (subId : String) (m : QueueMessage) (redeliveryCount : UInt32)
  | sent (subId : String) (m : QueueMessage)
  | acked (deliveryId : Nat) (m : QueueMessage)
  | rebuffered (m : QueueMessage)
  /-- its redeliveries are used up; it goes to the dead-letter queue, if there is one -/
  | exhausted (m : QueueMessage) (deadLetter : Option (String × Json))
  deriving DecidableEq

structure State where
  inner : QueueInner
  nextSequence : Nat
  calls : List (List Section)
  log : List Event

def State.init : State := ⟨.empty, 0, [], []⟩

/-- The section that a call is about to take. -/
def State.next (s : State) (call : Nat) : Option Section := s.calls[call]?.bind List.head?

def State.Idle (s : State) : Prop := ∀ c ∈ s.calls, c = []

instance (s : State) : Decidable s.Idle := inferInstanceAs (Decidable (∀ c ∈ s.calls, c = []))

inductive Action where
  | publish (data : Json) (opts : PublishOpts)
  | addConsumer (subId : String)
  | removeConsumer (subId : String)
  | ack (deliveryId : Nat)
  | extendLease (deliveryId now extraMs : Nat)
  | sweep (withQueues : Bool)
  /-- The call takes its next section, at the given time; a sweep finds the expired leases in
  the given order. -/
  | resume (call now : Nat) (order : List Nat)

structure Outcome where
  inner : QueueInner
  nextSequence : Nat
  todo : List Section := []
  events : List Event := []

/-- `next_sequence.fetch_add`, and what a publish does with the message. -/
def publishCall (cfg : Config) (m : QueueMessage) : List Section :=
  if cfg.leaseMs.isSome then [.sweep false, .publish m] else [.publish m]

def expiredIds (q : QueueInner) (now : Nat) : List Nat :=
  (q.inFlight.entries.filter fun e => e.2.expiresAt ≤ now).map Prod.fst

def deadLetter (cfg : Config) (lease : LeaseRecord) : Json :=
  .object [("original_queue", .string cfg.name),
    ("original_sequence", .number (.posInt (UInt64.ofNat lease.msg.sequence))),
    ("payload", lease.msg.data),
    ("redelivery_count", .number (.posInt (UInt64.ofNat (lease.redeliveryCount + 1).toNat)))]

variable (cfg : Config) (registered : String → Bool) (withQueues : Bool)

def resolveDlq : Option String :=
  cfg.dlqName.filter fun name => withQueues && registered name

/-- A message that may not be delivered again. -/
def exhaust (q : QueueInner) (nextSequence : Nat) (lease : LeaseRecord) : Outcome :=
  match resolveDlq cfg registered withQueues with
  | none => { inner := q, nextSequence, events := [.exhausted lease.msg none] }
  | some name =>
    let letter := deadLetter cfg lease
    if name = cfg.name then
      let m : QueueMessage := ⟨nextSequence + 1, letter, 0, none⟩
      { inner := q
        nextSequence := nextSequence + 1
        todo := publishCall cfg m
        events := [.exhausted lease.msg (some (name, letter)), .published m] }
    else { inner := q, nextSequence, events := [.exhausted lease.msg (some (name, letter))] }

def Section.run (now : Nat) (order : List Nat) (q : QueueInner)
    (nextSequence : Nat) : Section → Option Outcome
  | .publish m =>
    match pickConsumerFor q m.group with
    | some (sub, q') => some { inner := q', nextSequence, todo := [.deliver sub m 0] }
    | none =>
      let room := makeRoom cfg.maxBuffer q.buffer.length q.buffer
      some
        { inner := { q with buffer := insertByPriority room.1 m }
          nextSequence
          events := room.2.map .evicted ++ [.buffered m] }
  | .deliver sub m n =>
    match cfg.leaseMs with
    | some ms =>
      some
        { inner := { q with inFlight := q.inFlight.issue ⟨m, sub, now + ms, n⟩ }
          nextSequence
          events := [.leased (q.inFlight.last + 1) sub m n] }
    | none => some { inner := q, nextSequence, events := [.sent sub m] }
  | .sweep withQueues =>
    if cfg.leaseMs.isNone then some { inner := q, nextSequence }
    else if order.Perm (expiredIds q now) then
      let taken := Lib.Tickets.takeAll order q.inFlight
      some
        { inner := { q with inFlight := taken.2 }
          nextSequence
          todo := taken.1.map fun e => .redeliver withQueues e.2 }
    else none
  | .redeliver withQueues lease =>
    if cfg.maxDeliveryCount < lease.redeliveryCount + 1 then
      some (exhaust cfg registered withQueues q nextSequence lease)
    else
      match pickNextConsumerExcluding q lease.subId with
      | some (sub, q') =>
        some
          { inner := q'
            nextSequence
            todo := [.deliver sub lease.msg (lease.redeliveryCount + 1)] }
      | none => some { inner := q, nextSequence, todo := [.rebuffer lease.msg] }
  | .rebuffer m =>
    some
      { inner := { q with buffer := insertByPriority q.buffer m }
        nextSequence
        events := [.rebuffered m] }

def State.start (s : State) (o : Outcome) : State where
  inner := o.inner
  nextSequence := o.nextSequence
  calls := s.calls ++ [o.todo]
  log := s.log ++ o.events

def State.goOn (s : State) (call : Nat) (rest : List Section) (o : Outcome) : State where
  inner := o.inner
  nextSequence := o.nextSequence
  calls := s.calls.set call (o.todo ++ rest)
  log := s.log ++ o.events

/-- `publish_with_opts`, up to its sequence. -/
def publish (s : State) (data : Json) (opts : PublishOpts) : Outcome :=
  let m : QueueMessage := ⟨s.nextSequence + 1, data, opts.priority, opts.group⟩
  { inner := s.inner
    nextSequence := s.nextSequence + 1
    todo := publishCall cfg m
    events := [.published m] }

/-- The section of `add_consumer`: the buffer is dealt out. -/
def addConsumer (s : State) (subId : String) : Outcome :=
  let q := { s.inner with consumers := s.inner.consumers ++ [subId] }
  let out := drain q.buffer q
  { inner := out.2
    nextSequence := s.nextSequence
    todo := out.1.map fun e => .deliver e.1 e.2 0 }

def removeConsumer (q : QueueInner) (subId : String) : QueueInner :=
  { q with
    consumers := q.consumers.filter (· ≠ subId)
    groupRoutes := fun g => (q.groupRoutes g).filter (· ≠ subId) }

def ack (s : State) (deliveryId : Nat) : Outcome :=
  match (if cfg.leaseMs.isSome then s.inner.inFlight.get? deliveryId else none) with
  | some lease =>
    { inner := { s.inner with inFlight := s.inner.inFlight.remove deliveryId }
      nextSequence := s.nextSequence
      events := [.acked deliveryId lease.msg] }
  | none => { inner := s.inner, nextSequence := s.nextSequence }

def extendLease (q : QueueInner) (deliveryId now extraMs : Nat) : QueueInner :=
  if cfg.leaseMs.isSome then
    { q with
      inFlight := q.inFlight.modify deliveryId fun lease => { lease with expiresAt := now + extraMs } }
  else q

/-- One lock section, of a call that begins or of one that is running. -/
def step (s : State) : Action → Option State
  | .publish data opts => some (s.start (publish cfg s data opts))
  | .addConsumer subId => some (s.start (addConsumer s subId))
  | .removeConsumer subId => some { s with inner := removeConsumer s.inner subId }
  | .ack deliveryId => some (s.start (ack cfg s deliveryId))
  | .extendLease deliveryId now extraMs =>
    some { s with inner := extendLease cfg s.inner deliveryId now extraMs }
  | .sweep withQueues =>
    some (s.start { inner := s.inner, nextSequence := s.nextSequence, todo := [.sweep withQueues] })
  | .resume call now order =>
    match s.calls[call]? with
    | some (top :: rest) =>
      (top.run cfg registered now order s.inner s.nextSequence).map (s.goOn call rest)
    | _ => none

/-! ## What a step does -/

/-- The count that a message goes out with. -/
def Section.SendsWith (cfg : Config) (count : UInt32) : Section → Prop
  | .publish _ => count = 0
  | .redeliver _ lease =>
    count = lease.redeliveryCount + 1 ∧ ¬ cfg.maxDeliveryCount < lease.redeliveryCount + 1
  | _ => False

section
variable (now : Nat) (order : List Nat) (q : QueueInner) (n : Nat)

inductive Section.Does : Section → Outcome → Prop
  | hand {top : Section} {m : QueueMessage} {sub : String} {q' : QueueInner} {count : UInt32}
      (hpick : Picked q sub q') (hands : top.hands = [m]) (hcount : top.SendsWith cfg count) :
      Does top ⟨q', n, [.deliver sub m count], []⟩
  | buffer {m : QueueMessage} (hnobody : q.consumers = []) :
      Does (.publish m)
        ⟨{ q with buffer := insertByPriority (makeRoom cfg.maxBuffer q.buffer.length q.buffer).1 m },
          n, [], (makeRoom cfg.maxBuffer q.buffer.length q.buffer).2.map .evicted ++ [.buffered m]⟩
  | lease {sub : String} {m : QueueMessage} {count : UInt32} {ms : Nat} :
      Does (.deliver sub m count)
        ⟨{ q with inFlight := q.inFlight.issue ⟨m, sub, now + ms, count⟩ }, n, [],
          [.leased (q.inFlight.last + 1) sub m count]⟩
  | send {sub : String} {m : QueueMessage} {count : UInt32} (hleases : cfg.leaseMs = none) :
      Does (.deliver sub m count) ⟨q, n, [], [.sent sub m]⟩
  | idle {withQueues : Bool} : Does (.sweep withQueues) ⟨q, n, [], []⟩
  | sweep {withQueues : Bool} (horder : order.Perm (expiredIds q now)) :
      Does (.sweep withQueues)
        ⟨{ q with inFlight := (Lib.Tickets.takeAll order q.inFlight).2 }, n,
          (Lib.Tickets.takeAll order q.inFlight).1.map fun e => .redeliver withQueues e.2, []⟩
  | exhaust {withQueues : Bool} {lease : LeaseRecord} {x : Option (String × Json)}
      (hused : cfg.maxDeliveryCount < lease.redeliveryCount + 1)
      (ho : exhaust cfg registered withQueues q n lease = ⟨q, n, [], [.exhausted lease.msg x]⟩) :
      Does (.redeliver withQueues lease) ⟨q, n, [], [.exhausted lease.msg x]⟩
  /-- A queue that is its own dead-letter queue publishes the letter. -/
  | letter {withQueues : Bool} {lease : LeaseRecord} {x : Option (String × Json)} {m : QueueMessage}
      (hused : cfg.maxDeliveryCount < lease.redeliveryCount + 1) (hm : m.sequence = n + 1)
      (hown : cfg.dlqName = some cfg.name)
      (ho : exhaust cfg registered withQueues q n lease =
        ⟨q, n + 1, publishCall cfg m, [.exhausted lease.msg x, .published m]⟩) :
      Does (.redeliver withQueues lease)
        ⟨q, n + 1, publishCall cfg m, [.exhausted lease.msg x, .published m]⟩
  | strand {withQueues : Bool} {lease : LeaseRecord} (hnobody : q.consumers = []) :
      Does (.redeliver withQueues lease) ⟨q, n, [.rebuffer lease.msg], []⟩
  | rebuffer {m : QueueMessage} :
      Does (.rebuffer m)
        ⟨{ q with buffer := insertByPriority q.buffer m }, n, [], [.rebuffered m]⟩

variable (s : State)

/-- How a call begins. -/
inductive Begins : Action → Outcome → Prop
  | publish {data : Json} {opts : PublishOpts} {m : QueueMessage}
      (hm : m.sequence = s.nextSequence + 1) :
      Begins (.publish data opts) ⟨s.inner, s.nextSequence + 1, publishCall cfg m, [.published m]⟩
  | join {subId : String} {q : QueueInner} {dealt : List (String × QueueMessage)}
      (hdealt : dealt.map Prod.snd = s.inner.buffer) (hbuffer : q.buffer = [])
      (hleases : q.inFlight = s.inner.inFlight) :
      Begins (.addConsumer subId)
        ⟨q, s.nextSequence, dealt.map fun e => .deliver e.1 e.2 0, []⟩
  | ack {id : Nat} {lease : LeaseRecord} (hlease : s.inner.inFlight.get? id = some lease) :
      Begins (.ack id) ⟨{ s.inner with inFlight := s.inner.inFlight.remove id }, s.nextSequence, [],
        [.acked id lease.msg]⟩
  | noAck {id : Nat} : Begins (.ack id) ⟨s.inner, s.nextSequence, [], []⟩
  | sweep {withQueues : Bool} :
      Begins (.sweep withQueues) ⟨s.inner, s.nextSequence, [.sweep withQueues], []⟩

/-- What a step does. An extended lease is the same but for its time. -/
inductive Steps : Action → State → Prop
  | start {a : Action} {o : Outcome} (hbegins : Begins cfg s a o) : Steps a (s.start o)
  | leave {subId : String} :
      Steps (.removeConsumer subId) { s with inner := removeConsumer s.inner subId }
  | extend {id now extraMs : Nat} {leases : Lib.Tickets LeaseRecord}
      (hlast : leases.last = s.inner.inFlight.last)
      (hsame : ∀ {β : Type} (f : Nat × LeaseRecord → β),
        (∀ id lease t, f (id, { lease with expiresAt := t }) = f (id, lease)) →
        leases.entries.map f = s.inner.inFlight.entries.map f) :
      Steps (.extendLease id now extraMs) { s with inner := { s.inner with inFlight := leases } }
  | resume {call now : Nat} {order : List Nat} {top : Section} {rest : List Section} {o : Outcome}
      (hcall : s.calls[call]? = some (top :: rest))
      (ho : top.run cfg registered now order s.inner s.nextSequence = some o) :
      Steps (.resume call now order) (s.goOn call rest o)

end

variable {cfg : Config} {registered : String → Bool} {now n : Nat} {order : List Nat}
  {q : QueueInner} {top : Section} {o : Outcome} {s s' : State} {a : Action}

/-- A message that is used up is done with. -/
theorem exhaust_does {withQueues : Bool} {lease : LeaseRecord}
    (hused : cfg.maxDeliveryCount < lease.redeliveryCount + 1) :
    Section.Does cfg registered now order q n (.redeliver withQueues lease)
      (exhaust cfg registered withQueues q n lease) := by
  generalize ho : exhaust cfg registered withQueues q n lease = o
  have ho' := ho
  unfold exhaust at ho
  split at ho
  · cases ho
    exact .exhaust hused ho'
  · rename_i name hdlq
    dsimp only at ho
    split at ho
    · rename_i hown
      cases ho
      exact .letter hused rfl (hown ▸ (Option.filter_eq_some_iff.mp hdlq).1) ho'
    · cases ho
      exact .exhaust hused ho'

theorem Section.run_does (h : top.run cfg registered now order q n = some o) :
    top.Does cfg registered now order q n o := by
  cases top with
  | publish m =>
    simp only [Section.run] at h
    split at h <;> cases h
    · exact .hand (pickConsumerFor_picked ‹_›) rfl rfl
    · exact .buffer (pickConsumerFor_none ‹_›)
  | deliver sub m count =>
    simp only [Section.run] at h
    split at h <;> cases h
    · exact .lease
    · exact .send ‹_›
  | sweep withQueues =>
    simp only [Section.run] at h
    split at h
    · cases h
      exact .idle
    · obtain ⟨horder, rfl⟩ := Lib.of_guard h
      exact .sweep horder
  | redeliver withQueues lease =>
    simp only [Section.run] at h
    split at h
    · cases h
      exact exhaust_does ‹_›
    rename_i hleft
    split at h <;> cases h
    · exact .hand (pickNextConsumerExcluding_picked ‹_›) rfl ⟨rfl, hleft⟩
    · exact .strand (pickNextConsumerExcluding_none ‹_›)
  | rebuffer m =>
    cases h
    exact .rebuffer

section
variable (s : State) (subId : String)

theorem joined_ne_nil :
    { s.inner with consumers := s.inner.consumers ++ [subId] }.consumers ≠ [] := by
  simp

/-- The whole buffer is dealt out to the new consumer and the others. -/
theorem addConsumer_begins : Begins cfg s (.addConsumer subId) (addConsumer s subId) := by
  obtain ⟨hout, hbuffer, hleases, -⟩ := @drain_spec s.inner.buffer _ (joined_ne_nil s subId)
  exact .join hout hbuffer hleases

theorem addConsumer_joins :
    (addConsumer s subId).inner.consumers.Perm (s.inner.consumers ++ [subId]) :=
  (drain_spec (joined_ne_nil s subId)).2.2.2

end

theorem step_does (h : step cfg registered s a = some s') : Steps cfg registered s a s' := by
  cases a with
  | publish data opts =>
    cases h
    exact .start (.publish rfl)
  | addConsumer subId =>
    cases h
    exact .start (addConsumer_begins s subId)
  | removeConsumer subId =>
    cases h
    exact .leave
  | ack id =>
    cases h
    refine .start ?_
    unfold ack
    split
    · rename_i lease hlease
      split at hlease
      · exact .ack hlease
      · cases hlease
    · exact .noAck
  | extendLease id now extraMs =>
    cases h
    unfold extendLease
    split
    · refine .extend rfl fun f hf => ?_
      rw [Lib.Tickets.modify, List.map_map]
      refine List.map_congr_left fun e _ => ?_
      dsimp only [Function.comp_apply]
      split
      · exact hf ..
      · rfl
    · exact .extend rfl fun _ _ => rfl
  | sweep withQueues =>
    cases h
    exact .start .sweep
  | resume call now order =>
    unfold step at h
    dsimp only at h
    split at h
    · rename_i top rest hcall
      obtain ⟨o, ho, rfl⟩ := Option.map_eq_some_iff.mp h
      exact .resume hcall ho
    · cases h

theorem Section.run_consumers (h : top.run cfg registered now order q n = some o) :
    o.inner.consumers.Perm q.consumers := by
  cases run_does h with
  | hand hpick => exact hpick.consumers
  | buffer | lease | send | idle | sweep | exhaust | letter | strand | rebuffer =>
    exact List.Perm.refl _

/-- The action is neither a join nor a leave. -/
def Action.isTraffic : Action → Bool
  | .addConsumer _ | .removeConsumer _ => false
  | _ => true

/-- **Traffic leaves the consumers as they are**, up to their turns. -/
theorem step_consumers (ha : a.isTraffic = true) (h : step cfg registered s a = some s') :
    s'.inner.consumers.Perm s.inner.consumers := by
  cases step_does h with
  | start hbegins =>
    cases hbegins with
    | join => cases ha
    | publish | ack | noAck | sweep => exact List.Perm.refl _
  | leave => cases ha
  | extend => exact List.Perm.refl _
  | resume _ ho => exact Section.run_consumers ho

end CqServer.Queue
