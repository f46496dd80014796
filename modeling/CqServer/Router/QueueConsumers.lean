import CqServer.Queue.Calls
import Mathlib.Data.List.Nodup
import CqServer.Lib.PrefixCode

/-!
# Who consumes a queue

A queue subscription is recorded in three places: the consumers of the queue, the
subscription list of the session, and the routes by subscription id. Subscribing enters
it in all three and a disconnect takes it out of all three. `handle_unsubscribe` takes it
out of two: the queue keeps handing messages to an id nobody listens to, and the
disconnect no longer finds it (`unsubscribed_consumer`).

If no queue subscription is unsubscribed, the consumers of every queue are the open
subscriptions and all of them have a route (`consumers_are_open`), whatever traffic the
queues have meanwhile.
-/

namespace CqServer.QueueConsumers

open Lib List Function

/-- `next_sub_id`. -/
def subId (session : String) (n : Nat) : String := session ++ ":sub-" ++ toString n

variable {session session' : String}

theorem subId_inj {n n' : Nat} (h : subId session n = subId session' n') :
    session = session' ∧ n = n' := by
  have hdigits : ∀ k : Nat, ':' ∉ "sub-".toList ++ (toString k).toList := by
    intro k hk
    rcases mem_append.mp hk with hk | hk
    · revert hk
      decide
    · have hmem : ':' ∈ Nat.toDigits 10 k := by
        rwa [Nat.toString_eq_ofList_toDigits, String.toList_ofList] at hk
      have hdigit : ':'.isDigit = true := Nat.isDigit_of_mem_toDigits (by decide) (by decide) hmem
      revert hdigit
      decide
  have hlist : session.toList ++ ':' :: ("sub-".toList ++ (toString n).toList) =
      session'.toList ++ ':' :: ("sub-".toList ++ (toString n').toList) := by
    have htext := congrArg String.toList h
    simpa [subId] using htext
  obtain ⟨hsession, hrest⟩ := append_cons_inj_right (hdigits n) (hdigits n') hlist
  refine ⟨String.toList_inj.mp hsession, ?_⟩
  have hvalue := congrArg (fun ds => Nat.ofDigitChars 10 ds 0) (append_cancel_left hrest)
  simpa using hvalue

/-! ## The router -/

structure Client where
  subscriptions : List String
  subSeq : Nat
  deriving DecidableEq, Repr

structure Route where
  topic : String
  sessionId : String
  deriving DecidableEq, Repr

/-- `opened` are the open subscriptions of queues: queue, id and session. -/
structure State where
  sessions : String → Option Client
  routes : String → Option Route
  queues : String → Option Queue.State
  opened : List (String × String × String)

def State.init (configured : String → Bool) : State where
  sessions _ := none
  routes _ := none
  queues name := if configured name then some .init else none
  opened := []

/-- A derived table is answered without a route. -/
inductive TopicAnswer where
  | registered | snapshot | refused
  deriving DecidableEq, Repr

inductive Command where
  /-- Session ids are counted up. -/
  | connect (session : String)
  /-- `subscribe`, `sow_and_subscribe` and `delta_subscribe` -/
  | subscribe (session topic : String) (answer : TopicAnswer)
  | unsubscribe (session id : String)
  | disconnect (session : String)
  /-- a publish, an acknowledgement or a sweep on a queue -/
  | traffic (queue : String) (a : Queue.Action)

/-- The subscribe handlers, for a session that is connected. -/
def handleSubscribe (s : State) (session : String) (client : Client) (topic : String)
    (answer : TopicAnswer) : State :=
  let id := subId session (client.subSeq + 1)
  let entered : Client := ⟨client.subscriptions ++ [id], client.subSeq + 1⟩
  match s.queues topic with
  | some q =>
    { sessions := update s.sessions session (some entered)
      routes := update s.routes id (some ⟨topic, session⟩)
      queues := update s.queues topic (some (q.start (Queue.addConsumer q id)))
      opened := s.opened ++ [(topic, id, session)] }
  | none =>
    match answer with
    | .registered =>
      { s with
        sessions := update s.sessions session (some entered)
        routes := update s.routes id (some ⟨topic, session⟩) }
    | .snapshot => { s with sessions := update s.sessions session (some entered) }
    | .refused =>
      { s with
        sessions := update s.sessions session
          (some { client with subSeq := client.subSeq + 1 }) }

/-- `handle_unsubscribe`. The queue is not told. -/
def handleUnsubscribe (s : State) (session : String) (client : Client) (id : String) : State :=
  { s with
    sessions := update s.sessions session
      (some { client with subscriptions := client.subscriptions.filter (· ≠ id) })
    routes := update s.routes id none
    opened := s.opened.filter fun e => e.2.1 ≠ id }

def cleanupOne (s : State) (id : String) : State :=
  match s.routes id with
  | none => s
  | some route =>
    { s with
      routes := update s.routes id none
      queues := update s.queues route.topic
        ((s.queues route.topic).map fun q =>
          { q with inner := Queue.removeConsumer q.inner id }) }

def cleanupSession (s : State) (session : String) (client : Client) : State :=
  { client.subscriptions.foldl cleanupOne s with
    sessions := update s.sessions session none
    opened := s.opened.filter fun e => e.2.2 ≠ session }

def step (cfg : String → Queue.Config) (s : State) : Command → Option State
  | .connect session =>
    if (s.sessions session).isNone then
      some { s with sessions := update s.sessions session (some ⟨[], 0⟩) }
    else none
  | .subscribe session topic answer =>
    (s.sessions session).map fun client => handleSubscribe s session client topic answer
  | .unsubscribe session id =>
    (s.sessions session).map fun client => handleUnsubscribe s session client id
  | .disconnect session =>
    (s.sessions session).map fun client => cleanupSession s session client
  | .traffic queue a =>
    if a.isTraffic then
      (s.queues queue).bind fun q =>
        (Queue.step (cfg queue) (fun name => (s.queues name).isSome) q a).map fun q' =>
          { s with queues := update s.queues queue (some q') }
    else none

/-- No subscription of a queue is unsubscribed. -/
def KeepsQueues (s : State) : Command → Prop
  | .unsubscribe _ id => ∀ e ∈ s.opened, e.2.1 ≠ id
  | _ => True

/-! ## The three places agree -/

structure Agrees (s : State) : Prop where
  consumers : ∀ name q, s.queues name = some q →
    q.inner.consumers.Nodup ∧ ∀ id, id ∈ q.inner.consumers ↔ ∃ session, (name, id, session) ∈ s.opened
  routed : ∀ name id session, (name, id, session) ∈ s.opened → s.routes id = some ⟨name, session⟩
  listed : ∀ name id session, (name, id, session) ∈ s.opened →
    ∃ client, s.sessions session = some client ∧ id ∈ client.subscriptions
  issued : ∀ session client, s.sessions session = some client →
    ∀ id ∈ client.subscriptions, ∃ n ≤ client.subSeq, id = subId session n

theorem Agrees.init (configured : String → Bool) : Agrees (State.init configured) where
  consumers name q hq := by
    unfold State.init at hq
    dsimp only at hq
    split at hq
    · cases hq
      refine ⟨nodup_nil, fun id => ⟨(fun h => nomatch h), ?_⟩⟩
      rintro ⟨_, h⟩
      cases h
    · cases hq
  routed _ _ _ h := nomatch h
  listed _ _ _ h := nomatch h
  issued _ _ h := nomatch h

variable {s : State}

variable {client : Client} {name : String}

theorem Agrees.fresh (h : Agrees s) (hclient : s.sessions session = some client) :
    (name, subId session (client.subSeq + 1), session') ∉ s.opened := by
  intro hopen
  obtain ⟨client', hclient', hid⟩ := h.listed _ _ _ hopen
  obtain ⟨n, hn, heq⟩ := h.issued session' client' hclient' _ hid
  obtain ⟨rfl, rfl⟩ := subId_inj heq
  cases hclient.symm.trans hclient'
  omega

variable {id : String}

/-- A session's list keeps the open subscriptions, and its counter goes up; nothing else depends
on them. -/
theorem Agrees.update_session (h : Agrees s) {client client' : Client}
    (hclient : s.sessions session = some client)
    (hlist : ∀ name id, (name, id, session) ∈ s.opened → id ∈ client.subscriptions →
      id ∈ client'.subscriptions)
    (hissued : ∀ id ∈ client'.subscriptions, ∃ n ≤ client'.subSeq, id = subId session n) :
    Agrees { s with sessions := update s.sessions session (some client') } where
  __ := h
  listed := by
    intro name id session' hopen
    obtain ⟨c, hc, hid⟩ := h.listed name id session' hopen
    by_cases heq : session' = session
    · subst heq
      cases hclient.symm.trans hc
      exact ⟨client', update_self .., hlist name id hopen hid⟩
    · exact ⟨c, by simpa [update_of_ne heq] using hc, hid⟩
  issued := by
    refine forall_update_some ?_ fun session' _ => h.issued session'
    rintro _ ⟨⟩
    exact hissued

theorem Agrees.update_route (h : Agrees s) (hid : ∀ e ∈ s.opened, e.2.1 ≠ id)
    (route : Option Route) : Agrees { s with routes := update s.routes id route } where
  __ := h
  routed := by
    intro name id' session hopen
    have hne : id' ≠ id := hid _ hopen
    simpa [update_of_ne hne] using h.routed name id' session hopen

section
variable (h : Agrees s) (hclient : s.sessions session = some client)
include h hclient

theorem Agrees.subscribe (topic : String) (answer : TopicAnswer) :
    Agrees (handleSubscribe s session client topic answer) := by
  have hfresh : ∀ e ∈ s.opened, e.2.1 ≠ subId session (client.subSeq + 1) := by
    rintro ⟨name, id, session'⟩ he rfl
    exact h.fresh hclient he
  have hentered : Agrees { s with
      sessions := update s.sessions session
        (some ⟨client.subscriptions ++ [subId session (client.subSeq + 1)], client.subSeq + 1⟩) } := by
    refine h.update_session hclient (fun _ _ _ hid => mem_append_left _ hid)
      (forall_mem_concat (fun id hid => ?_) ⟨_, le_rfl, rfl⟩)
    obtain ⟨n, hn, heq⟩ := h.issued session client hclient id hid
    exact ⟨n, hn.trans (Nat.le_succ _), heq⟩
  unfold handleSubscribe
  split
  · rename_i q hq
    have hrouted := hentered.update_route hfresh (some ⟨topic, session⟩)
    have hperm := Queue.addConsumer_joins q (subId session (client.subSeq + 1))
    refine { hrouted with consumers := ?_, routed := ?_, listed := ?_ }
    · refine forall_update_some ?_ fun name hname q' hold => ?_
      · rintro _ ⟨⟩
        obtain ⟨hnodup, hmem⟩ := h.consumers topic q hq
        refine ⟨?_, fun id => ?_⟩
        · refine hperm.nodup_iff.mpr (hnodup.append (nodup_singleton _) ?_)
          intro id hid hid'
          obtain rfl := mem_singleton.mp hid'
          obtain ⟨session', hopen⟩ := (hmem _).mp hid
          exact h.fresh hclient hopen
        · change id ∈ (Queue.addConsumer q _).inner.consumers ↔ _
          rw [hperm.mem_iff, mem_append, hmem id]
          simp only [mem_singleton, mem_append, Prod.mk.injEq, true_and]
          constructor
          · rintro (⟨session', hopen⟩ | rfl)
            · exact ⟨session', .inl hopen⟩
            · exact ⟨session, .inr ⟨rfl, rfl⟩⟩
          · rintro ⟨session', hopen | ⟨rfl, rfl⟩⟩
            · exact .inl ⟨session', hopen⟩
            · exact .inr rfl
      · obtain ⟨hnodup, hmem⟩ := h.consumers name q' hold
        refine ⟨hnodup, fun id => ?_⟩
        rw [hmem id]
        simp [hname]
    · intro name id session' hopen
      rcases mem_concat.mp hopen with hopen | hnew
      · exact hrouted.routed name id session' hopen
      · cases hnew
        exact update_self ..
    · intro name id session' hopen
      rcases mem_concat.mp hopen with hopen | hnew
      · exact hrouted.listed name id session' hopen
      · cases hnew
        exact ⟨_, update_self .., mem_concat_self⟩
  · split
    · exact hentered.update_route hfresh (some ⟨topic, session⟩)
    · exact hentered
    · refine h.update_session hclient (fun _ _ _ hid => hid) ?_
      intro id hid
      obtain ⟨n, hn, heq⟩ := h.issued session client hclient id hid
      exact ⟨n, Nat.le_succ_of_le hn, heq⟩

theorem Agrees.unsubscribe (hid : ∀ e ∈ s.opened, e.2.1 ≠ id) : Agrees (handleUnsubscribe s session
    client id) := by
  have hopened : s.opened.filter (fun e => decide (e.2.1 ≠ id)) = s.opened :=
    filter_eq_self.mpr fun e he => decide_eq_true (hid e he)
  unfold handleUnsubscribe
  rw [hopened]
  refine (h.update_route hid none).update_session hclient ?_ ?_
  · intro name id' hopen hmem
    exact mem_filter.mpr ⟨hmem, decide_eq_true (hid _ hopen)⟩
  · intro id' hid'
    exact h.issued session client hclient id' (mem_filter.mp hid').1

end

/-! ### Disconnecting -/

/-- A round of `cleanup_session`, with the subscription noted as closed. -/
def closeOne (s : State) (id : String) : State :=
  { cleanupOne s id with opened := s.opened.filter fun e => e.2.1 ≠ id }

theorem cleanupOne_sessions (s : State) (id : String) : (cleanupOne s id).sessions = s.sessions := by
  unfold cleanupOne
  split <;> rfl

theorem cleanupOne_routes (s : State) (id : String) :
    (cleanupOne s id).routes = update s.routes id none := by
  unfold cleanupOne
  split
  · rename_i hnone
    exact (update_eq_self_iff.mpr hnone.symm).symm
  · rfl

theorem cleanupOne_queues {q : Queue.State} (h : (cleanupOne s id).queues name = some q) :
    ∃ q₀, s.queues name = some q₀ ∧ (q.inner.consumers = q₀.inner.consumers.filter (· ≠ id) ∨
        q.inner.consumers = q₀.inner.consumers ∧ ∀ session, s.routes id ≠ some ⟨name, session⟩) := by
  unfold cleanupOne at h
  split at h
  · rename_i hnone
    exact ⟨q, h, .inr ⟨rfl, fun session => by rw [hnone]; simp⟩⟩
  · rename_i route hroute
    dsimp only at h
    by_cases hname : name = route.topic
    · subst hname
      rw [update_self] at h
      obtain ⟨q₀, hq₀, rfl⟩ := Option.map_eq_some_iff.mp h
      exact ⟨q₀, hq₀, .inl rfl⟩
    · rw [update_of_ne hname] at h
      refine ⟨q, h, .inr ⟨rfl, ?_⟩⟩
      intro session heq
      rw [hroute] at heq
      cases heq
      exact hname rfl

theorem Agrees.closeOne (h : Agrees s) (id : String) : Agrees (closeOne s id) where
  consumers := by
    intro name q hq
    obtain ⟨q₀, hq₀, hcases⟩ := cleanupOne_queues hq
    obtain ⟨hnodup, hmem⟩ := h.consumers name q₀ hq₀
    have hopened : ∀ id' session, (name, id', session) ∈ (QueueConsumers.closeOne s id).opened ↔
        (name, id', session) ∈ s.opened ∧ id' ≠ id := by
      simp [QueueConsumers.closeOne]
    rcases hcases with hfilter | ⟨hsame, hroute⟩
    · rw [hfilter]
      refine ⟨hnodup.filter _, fun id' => ?_⟩
      simp only [mem_filter, hmem id', hopened, decide_eq_true_eq, exists_and_right]
    · rw [hsame]
      refine ⟨hnodup, fun id' => ?_⟩
      simp only [hmem id', hopened]
      constructor
      · rintro ⟨session, hopen⟩
        refine ⟨session, hopen, ?_⟩
        rintro rfl
        exact hroute session (h.routed name _ session hopen)
      · rintro ⟨session, hopen, -⟩
        exact ⟨session, hopen⟩
  routed := by
    intro name id' session hopen
    obtain ⟨hold, hne⟩ := mem_filter.mp hopen
    have hne' : id' ≠ id := of_decide_eq_true hne
    change (cleanupOne s id).routes id' = _
    rw [cleanupOne_routes, update_of_ne hne']
    exact h.routed name id' session hold
  listed := by
    intro name id' session hopen
    change ∃ client, (cleanupOne s id).sessions session = some client ∧ _
    rw [cleanupOne_sessions]
    exact h.listed name id' session (mem_filter.mp hopen).1
  issued := by
    intro session client hclient
    change (cleanupOne s id).sessions session = some client at hclient
    rw [cleanupOne_sessions] at hclient
    exact h.issued session client hclient

theorem cleanupOne_opened (s : State) (opened : List (String × String × String)) (id : String) :
    cleanupOne { s with opened } id = { cleanupOne s id with opened } := by
  unfold cleanupOne
  dsimp only
  split <;> rfl

theorem foldl_closeOne (ids : List String) (s : State) : ids.foldl closeOne s =
      { ids.foldl cleanupOne s with opened := s.opened.filter fun e => e.2.1 ∉ ids } := by
  have hnoted : ∀ (ids : List String) (s : State) (opened : List (String × String × String)),
      ids.foldl cleanupOne { s with opened } = { ids.foldl cleanupOne s with opened } := by
    intro ids
    induction ids with
    | nil => exact fun _ _ => rfl
    | cons id ids ih =>
      intro s opened
      rw [foldl_cons, foldl_cons, cleanupOne_opened, ih]
  induction ids generalizing s with
  | nil => simp
  | cons id ids ih =>
    have hopened : (closeOne s id).opened.filter (fun e => decide (e.2.1 ∉ ids)) =
        s.opened.filter fun e => decide (e.2.1 ∉ id :: ids) := by
      rw [closeOne, filter_filter]
      refine filter_congr fun e _ => ?_
      simp [Bool.and_comm]
    rw [foldl_cons, ih, foldl_cons, hopened, closeOne, hnoted]

theorem Agrees.disconnect (h : Agrees s) (hclient : s.sessions session = some client) :
    Agrees (cleanupSession s session client) := by
  have hclosed :=
    foldlRecOn client.subscriptions QueueConsumers.closeOne h fun t ht id _ => ht.closeOne id
  -- the ids of the list are the subscriptions of the session
  have hopened : s.opened.filter (fun e => decide (e.2.2 ≠ session)) =
      s.opened.filter fun e => decide (e.2.1 ∉ client.subscriptions) := by
    refine filter_congr fun e he => ?_
    rw [decide_eq_decide]
    obtain ⟨c, hc, hlisted⟩ := h.listed e.1 e.2.1 e.2.2 he
    refine not_congr ⟨fun hsession => ?_, fun hid => ?_⟩
    · rw [hsession] at hc
      cases hclient.symm.trans hc
      exact hlisted
    · obtain ⟨n, -, heq⟩ := h.issued session client hclient _ hid
      obtain ⟨n', -, heq'⟩ := h.issued _ c hc _ hlisted
      exact (subId_inj (heq.symm.trans heq')).1.symm
  rw [foldl_closeOne, ← hopened] at hclosed
  unfold cleanupSession
  refine { hclosed with
    listed := ?_, issued := forall_update_some nofun fun session' _ => h.issued session' }
  intro name id session' hopen
  have hne : session' ≠ session := of_decide_eq_true (mem_filter.mp hopen).2
  obtain ⟨c, hc, hid⟩ := h.listed name id session' (mem_filter.mp hopen).1
  exact ⟨c, by simpa [update_of_ne hne] using hc, hid⟩

theorem Agrees.traffic (h : Agrees s) {q q' : Queue.State} (hq : s.queues name = some q)
    (hperm : q'.inner.consumers.Perm q.inner.consumers) :
    Agrees { s with queues := update s.queues name (some q') } where
  __ := h
  consumers := by
    refine forall_update_some ?_ fun name' _ => h.consumers name'
    rintro _ ⟨⟩
    obtain ⟨hnodup, hmem⟩ := h.consumers name q hq
    refine ⟨hperm.nodup_iff.mpr hnodup, fun id => ?_⟩
    rw [hperm.mem_iff, hmem id]

theorem Agrees.step {cfg : String → Queue.Config} {s' : State} {c : Command} (h : Agrees s)
    (hok : KeepsQueues s c) (hstep : step cfg s c = some s') : Agrees s' := by
  cases c with
  | connect session =>
    obtain ⟨hnone, hs'⟩ := Option.ite_none_right_eq_some.mp hstep
    cases hs'
    have hnone' : s.sessions session = none := Option.isNone_iff_eq_none.mp hnone
    refine { h with listed := ?_, issued := forall_update_some ?_ fun session' _ => h.issued session' }
    · intro name id session' hopen
      obtain ⟨client, hclient, hid⟩ := h.listed name id session' hopen
      have hne : session' ≠ session := by
        rintro rfl
        rw [hnone'] at hclient
        cases hclient
      exact ⟨client, by simpa [update_of_ne hne] using hclient, hid⟩
    · rintro _ ⟨⟩ _ hid
      cases hid
  | subscribe session topic answer =>
    obtain ⟨client, hclient, rfl⟩ := Option.map_eq_some_iff.mp hstep
    exact h.subscribe hclient topic answer
  | unsubscribe session id =>
    obtain ⟨client, hclient, rfl⟩ := Option.map_eq_some_iff.mp hstep
    exact h.unsubscribe hclient hok
  | disconnect session =>
    obtain ⟨client, hclient, rfl⟩ := Option.map_eq_some_iff.mp hstep
    exact h.disconnect hclient
  | traffic queue a =>
    obtain ⟨htraffic, hrest⟩ := Option.ite_none_right_eq_some.mp hstep
    obtain ⟨q, hq, hmap⟩ := Option.bind_eq_some_iff.mp hrest
    obtain ⟨q', hq', rfl⟩ := Option.map_eq_some_iff.mp hmap
    exact h.traffic hq (Queue.step_consumers htraffic hq')

/-- **The consumers of a queue are its open subscriptions**, after every command of a run in
which no queue subscription is unsubscribed; and whoever is picked for a message has a route. -/
theorem consumers_are_open {cfg : String → Queue.Config} {configured : String → Bool}
    {cs : List Command} {s : State}
    (hrun : Run (step cfg) KeepsQueues (State.init configured) cs s) {name : String}
    {q : Queue.State} (hq : s.queues name = some q) :
    q.inner.consumers.Nodup ∧
      (∀ id, id ∈ q.inner.consumers ↔ ∃ session, (name, id, session) ∈ s.opened) ∧
      (∀ group id q', Queue.pickConsumerFor q.inner group = some (id, q') →
        (s.routes id).isSome = true) ∧
      ∀ original id q', Queue.pickNextConsumerExcluding q.inner original = some (id, q') →
        (s.routes id).isSome = true := by
  have hagrees : Agrees s := hrun.invariant (P := Agrees)
    (fun _ _ _ h hok hstep => h.step hok hstep) (Agrees.init configured)
  obtain ⟨hnodup, hmem⟩ := hagrees.consumers name q hq
  have hlive : ∀ id ∈ q.inner.consumers, (s.routes id).isSome = true := by
    intro id hid
    obtain ⟨session, hopen⟩ := (hmem id).mp hid
    rw [hagrees.routed name id session hopen]
    rfl
  refine ⟨hnodup, hmem, ?_, ?_⟩
  · intro group id q' hpick
    exact hlive id (Queue.pickConsumerFor_picked hpick).mem
  · intro original id q' hpick
    exact hlive id (Queue.pickNextConsumerExcluding_picked hpick).mem

def orders : String → Queue.Config := fun name => { name, maxBuffer_pos := Queue.defaultBuffer_pos }
def configured : String → Bool := fun name => name = "/orders"

/-- One of the two consumers disconnects. -/
def leaving : List Command :=
  [.connect "sess-1", .connect "sess-2", .subscribe "sess-1" "/orders" .refused,
    .subscribe "sess-2" "/orders" .refused, .traffic "/orders" (.publish .null {}),
    .disconnect "sess-1"]

instance (s : State) (c : Command) : Decidable (KeepsQueues s c) := by
  cases c <;> dsimp only [KeepsQueues] <;> infer_instance

theorem consumers_are_open_leaving : ∃ s q,
    Run (step orders) KeepsQueues (State.init configured) leaving s ∧
      s.queues "/orders" = some q ∧ q.inner.consumers = ["sess-2:sub-1"] ∧
      ∀ id, id ∈ q.inner.consumers ↔ ∃ session, ("/orders", id, session) ∈ s.opened := by
  simp only [exists_and_left]
  refine Run.exists_of_check
    (fun s => ∃ q, s.queues "/orders" = some q ∧ q.inner.consumers = ["sess-2:sub-1"])
    (by decide +kernel) fun s hrun ⟨q, hq, hconsumers⟩ => ?_
  exact ⟨q, hq, hconsumers, (consumers_are_open hrun hq).2.1⟩

/-- A consumer that unsubscribes stays one, also when its session is gone: the next message is
for an id without a route. -/
theorem unsubscribed_consumer : ∃ s q q',
    Run (step orders) (fun _ _ => True) (State.init configured)
        [.connect "sess-1", .subscribe "sess-1" "/orders" .refused,
          .unsubscribe "sess-1" "sess-1:sub-1", .disconnect "sess-1"] s ∧
      s.queues "/orders" = some q ∧ s.opened = [] ∧ q.inner.consumers = ["sess-1:sub-1"] ∧
      Queue.pickConsumerFor q.inner none = some ("sess-1:sub-1", q') ∧
      s.routes "sess-1:sub-1" = none := by
  simp only [exists_and_left]
  refine Run.exists_of_check (fun s => ∃ q, s.queues "/orders" = some q ∧ s.opened = [] ∧
      q.inner.consumers = ["sess-1:sub-1"] ∧ s.routes "sess-1:sub-1" = none)
    (by decide +kernel) fun s hrun ⟨q, hq, hopened, hconsumers, hroute⟩ => ?_
  have hpick : Queue.pickConsumerFor q.inner none =
      some ("sess-1:sub-1", { q.inner with consumers := ["sess-1:sub-1"] }) := by
    simp [Queue.pickConsumerFor, hconsumers, Queue.rotate]
  exact ⟨q, hq, hopened, hconsumers, _, hpick, hroute⟩

end CqServer.QueueConsumers
