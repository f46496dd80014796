import CqServer.Queue.Conservation
import CqServer.Queue.Redelivery

/-!
# Dead letters

The queues of a server side by side, each with its own lock sections. Where a sweep
finds that the redeliveries of a message are used up, it publishes the message, wrapped,
on the dead-letter queue; that publish is a call on the other queue like any other, and
its sections come when they come.

A publish on a leased queue sweeps too, and without the registry: what is used up there
has no dead-letter queue to go to. As long as no such sweep meets a used-up lease and no
message is put back, every message whose redeliveries are used up is published on the
dead-letter queue once (`dead_lettered_once`).
-/

namespace CqServer.Queue

open Lib List Function

structure Registry where
  get? : String → Option Config
  named : ∀ {n : String} {cfg : Config}, get? n = some cfg → cfg.name = n

def Registry.registered (reg : Registry) (n : String) : Bool := (reg.get? n).isSome

structure Letter where
  queue : String
  original : QueueMessage
  dlq : String
  posted : QueueMessage

/-- The queues of a server; `letters` is a record of the dead letters so far. -/
structure Server where
  queues : String → State
  letters : List Letter

def Server.init : Server := ⟨fun _ => State.init, []⟩

/-- The dead letter an event is about: the message, the queue it goes to, its wrapping. -/
def Event.deadLettered : Event → Option (QueueMessage × String × Json)
  | .exhausted m (some (dlq, letter)) => some (m, dlq, letter)
  | _ => none

/-- `dlq.publish`, from the sweep of another queue. -/
def Registry.post (reg : Registry) (queues : String → State) (dlq : String) (letter : Json) :
    String → State :=
  match reg.get? dlq with
  | some cfg => update queues dlq ((queues dlq).start (publish cfg (queues dlq) letter {}))
  | none => queues

/-- A lock section on one of the queues, and the dead letter it sends. -/
def Server.step (reg : Registry) (s : Server) (x : String × Action) : Option Server :=
  match reg.get? x.1 with
  | none => none
  | some cfg =>
    (Queue.step cfg reg.registered (s.queues x.1) x.2).map fun q =>
      match (q.log.drop (s.queues x.1).log.length).findSome? Event.deadLettered with
      | none => { s with queues := update s.queues x.1 q }
      | some (m, dlq, letter) =>
        -- a queue that is its own dead-letter queue has published the letter already
        { queues :=
            if dlq = x.1 then update s.queues x.1 q
            else reg.post (update s.queues x.1 q) dlq letter
          letters := s.letters ++
            [⟨x.1, m, dlq, ⟨(s.queues dlq).nextSequence + 1, letter, 0, none⟩⟩] }

def Server.lettersOf (s : Server) (n : String) (sequence : Nat) : List Letter :=
  s.letters.filter fun l => l.queue = n ∧ l.original.sequence = sequence

/-! ## What the sections of a queue do -/

/-- The count of the lease is at its cap. -/
def Spent (cfg : Config) (lease : LeaseRecord) : Prop :=
  cfg.maxDeliveryCount < lease.redeliveryCount + 1

/-- The sweep of a publish finds no expired lease of a message that is used up, and no sweep puts
a message back. -/
structure Spared (cfg : Config) (s : State) (a : Action) : Prop where
  unspent : ∀ call now order, a = .resume call now order → s.next call = some (.sweep false) →
      ∀ e ∈ s.inner.inFlight.entries, e.2.expiresAt ≤ now → ¬ UsedUp cfg s e.2.msg
  back : PutsNoneBack s a

def Expires (s : State) (a : Action) (lease : LeaseRecord) : Prop :=
  ∃ call now order withQueues rest id, a = .resume call now order ∧
    s.calls[call]? = some (.sweep withQueues :: rest) ∧
    (id, lease) ∈ s.inner.inFlight.entries ∧ lease.expiresAt ≤ now

def State.Holds (s : State) (withQueues : Bool) (lease : LeaseRecord) : Prop :=
  ∃ c ∈ s.calls, .redeliver withQueues lease ∈ c

variable {cfg : Config} {registered : String → Bool}

variable {now : Nat} {o : Outcome} {order : List Nat} {q : QueueInner} {top : Section}

variable {lease : LeaseRecord} {withQueues : Bool}

theorem redeliver_publishCall (m : QueueMessage) :
    .redeliver withQueues lease ∉ publishCall cfg m := by
  unfold publishCall
  split <;> simp

/-- Only the first section of a sweep adds rounds, for the leases it finds expired. -/
theorem Section.run_redeliver {n : Nat} (h : top.run cfg registered now order q n = some o)
    (hmem : .redeliver withQueues lease ∈ o.todo) :
    top = .sweep withQueues ∧ ∃ id, (id, lease) ∈ q.inFlight.entries ∧ lease.expiresAt ≤ now := by
  cases run_does h with
  | sweep hperm =>
    obtain ⟨e, he, heq⟩ := mem_map.mp hmem
    cases heq
    obtain ⟨hthere, horder⟩ := Tickets.mem_takeAll he
    -- the lease found expired under this id is this one
    obtain ⟨e', he', hid⟩ := mem_map.mp (hperm.mem_iff.mp horder)
    obtain ⟨hthere', hexpired⟩ := mem_filter.mp he'
    obtain rfl := Tickets.unique hthere' hthere hid
    exact ⟨rfl, e'.1, hthere, of_decide_eq_true hexpired⟩
  | letter => exact absurd hmem (redeliver_publishCall _)
  | hand | buffer | lease | send | idle | exhaust | strand | rebuffer => simp at hmem

variable {a : Action} {s s' : State}

/-- A call that begins is not a round of a sweep. -/
theorem Begins.quiet (h : Begins cfg s a o) :
    (∀ m x, .exhausted m x ∉ o.events) ∧ ∀ b lease, .redeliver b lease ∉ o.todo := by
  cases h with
  | publish => exact ⟨by simp, fun _ _ => redeliver_publishCall _⟩
  | join | ack | noAck | sweep => simp

section
variable (h : step cfg registered s a = some s')
include h

/-- What a step logs: nothing that is done with, or the end of one message. -/
theorem step_log : ∃ events, s'.log = s.log ++ events ∧ ((∀ m x, .exhausted m x ∉ events) ∨
      ∃ withQueues lease, s.Holds withQueues lease ∧ Spent cfg lease ∧
        events = (exhaust cfg registered withQueues s.inner s.nextSequence lease).events) := by
  cases step_does h with
  | start hbegins => exact ⟨_, rfl, .inl hbegins.quiet.1⟩
  | leave | extend => exact ⟨[], (append_nil _).symm, .inl fun _ _ hmem => nomatch hmem⟩
  | resume hcall ho =>
    refine ⟨_, rfl, ?_⟩
    -- only a round of a sweep's loop is done with a message
    cases Section.run_does ho with
    | exhaust hused hx | letter hused _ _ hx =>
      exact .inr ⟨_, _, ⟨_, mem_of_getElem? hcall, mem_cons_self⟩, hused, hx ▸ rfl⟩
    | hand | buffer | lease | send | idle | sweep | strand | rebuffer => exact .inl (by simp)

/-- What a sweep has in hand after a step it had before, or found expired in this step. -/
theorem Holds.of_step (hs : s'.Holds withQueues lease) :
    s.Holds withQueues lease ∨ ∃ call now order rest id, a = .resume call now order ∧
      s.calls[call]? = some (.sweep withQueues :: rest) ∧
      (id, lease) ∈ s.inner.inFlight.entries ∧ lease.expiresAt ≤ now := by
  obtain ⟨c, hc, hmem⟩ := hs
  cases step_does h with
  | start hbegins =>
    rcases mem_append.mp hc with hold | hnew
    · exact .inl ⟨c, hold, hmem⟩
    · obtain rfl := mem_singleton.mp hnew
      exact absurd hmem (hbegins.quiet.2 _ _)
  | leave | extend => exact .inl ⟨c, hc, hmem⟩
  | resume hcall ho =>
    rcases mem_or_eq_of_mem_set hc with hold | rfl
    · exact .inl ⟨c, hold, hmem⟩
    · rcases mem_append.mp hmem with htodo | hrest
      · obtain ⟨rfl, id, hid, hexpired⟩ := Section.run_redeliver ho htodo
        exact .inr ⟨_, _, _, _, id, rfl, hcall, hid, hexpired⟩
      · exact .inl ⟨_, mem_of_getElem? hcall, mem_cons_of_mem _ hrest⟩

theorem Holds.step (hs : s.Holds withQueues lease)
    (hspent : Spent cfg lease) : s'.Holds withQueues lease ∨ s'.log = s.log ++
      (exhaust cfg registered withQueues s.inner s.nextSequence lease).events := by
  obtain ⟨c, hc, hmem⟩ := hs
  cases step_does h with
  | start => exact .inl ⟨c, mem_append_left _ hc, hmem⟩
  | leave | extend => exact .inl ⟨c, hc, hmem⟩
  | @resume call _ _ _ _ _ hcall ho =>
    obtain ⟨i, hi⟩ := mem_iff_getElem?.mp hc
    by_cases hic : i = call
    · subst hic
      cases hi.symm.trans hcall
      rcases mem_cons.mp hmem with rfl | hrest
      · refine .inr ?_
        simp only [Section.run, if_pos (show cfg.maxDeliveryCount < lease.redeliveryCount + 1 from
          hspent), Option.some.injEq] at ho
        rw [ho]
        rfl
      · have hlt : i < s.calls.length := (List.getElem?_eq_some_iff.mp hcall).1
        exact .inl ⟨_, mem_set hlt _, mem_append_right _ hrest⟩
    · refine .inl ⟨c, mem_iff_getElem?.mpr ⟨i, ?_⟩, hmem⟩
      exact (getElem?_set_ne (Ne.symm hic)).trans hi

end

/-! ## One queue -/

theorem exhaust_deadLettered (withQueues : Bool) (q : QueueInner) (n : Nat) (lease : LeaseRecord) :
    (exhaust cfg registered withQueues q n lease).events.filterMap Event.deadLettered =
      ((resolveDlq cfg registered withQueues).map fun dlq =>
        (lease.msg, dlq, deadLetter cfg lease)).toList := by
  unfold exhaust
  split
  · rename_i hnone
    rw [hnone]
    rfl
  · rename_i dlq hsome
    rw [hsome]
    split <;> rfl

variable {dlq : String}

theorem mem_exhaust {n : Nat} (hdlq : resolveDlq cfg registered withQueues = some dlq)
    {m : QueueMessage} {x : Option (String × Json)} :
    .exhausted m x ∈ (exhaust cfg registered withQueues q n lease).events ↔
      m = lease.msg ∧ x = some (dlq, deadLetter cfg lease) := by
  unfold exhaust
  rw [hdlq]
  dsimp only
  split <;> simp

/-- In a queue whose publishes spare the used-up messages, a sweep without the registry has no
spent lease in hand, and what the queue is done with was sent on. -/
structure SentOn (cfg : Config) (dlq : String) (s : State) : Prop where
  counted : Counted cfg s
  spared : ∀ lease, s.Holds false lease → ¬ Spent cfg lease
  wrapped : ∀ m x, .exhausted m x ∈ s.log →
    ∃ lease, lease.msg = m ∧ x = some (dlq, deadLetter cfg lease)

theorem SentOn.init (cfg : Config) (dlq : String) : SentOn cfg dlq State.init where
  counted := .init cfg
  spared := fun _ ⟨_, hc, _⟩ => nomatch hc
  wrapped := fun _ _ h => nomatch h

theorem SentOn.step (hcap : cfg.maxDeliveryCount.toNat < 2 ^ 32 - 1)
    (hdlq : resolveDlq cfg registered true = some dlq) (hs : SentOn cfg dlq s)
    (hok : Spared cfg s a) (h : step cfg registered s a = some s') : SentOn cfg dlq s' where
  counted := hs.counted.step hcap hok.back h
  spared := by
    intro lease hholds
    rcases Holds.of_step h hholds with hold | ⟨call, now, order, rest, id, rfl, hcall, hid, hexpired⟩
    · exact hs.spared lease hold
    · intro hspent
      exact hok.unspent call now order rfl (by rw [State.next, hcall]; rfl) (id, lease) hid hexpired
        ((hs.counted.usedUp_iff hcap hid).mpr hspent)
  wrapped := by
    intro m x hmem
    obtain ⟨events, hlog, hevents⟩ := step_log h
    rw [hlog] at hmem
    rcases mem_append.mp hmem with hold | hnew
    · exact hs.wrapped m x hold
    rcases hevents with hnone | ⟨withQueues, lease, hholds, hspent, rfl⟩
    · exact absurd hnew (hnone m x)
    cases withQueues with
    | false => exact absurd hspent (hs.spared lease hholds)
    | true =>
      obtain ⟨rfl, rfl⟩ := (mem_exhaust hdlq).mp hnew
      exact ⟨lease, rfl, rfl⟩

/-- A spent lease on its way: in the hands of a sweep, or sent on. -/
def OnItsWay (cfg : Config) (dlq : String) (lease : LeaseRecord) (s : State) : Prop :=
  s.Holds true lease ∨ .exhausted lease.msg (some (dlq, deadLetter cfg lease)) ∈ s.log

theorem OnItsWay.step (hdlq : resolveDlq cfg registered true = some dlq) (hspent : Spent cfg lease)
    (hs : OnItsWay cfg dlq lease s) (h : step cfg registered s a = some s') :
    OnItsWay cfg dlq lease s' := by
  rcases hs with hholds | hlog
  · rcases Holds.step h hholds hspent with hholds' | hlog'
    · exact .inl hholds'
    · refine .inr ?_
      rw [hlog']
      exact mem_append_right _ ((mem_exhaust hdlq).mpr ⟨rfl, rfl⟩)
  · obtain ⟨events, hlog', -⟩ := step_log h
    refine .inr ?_
    rw [hlog']
    exact mem_append_left _ hlog

/-- A lease that a sweep with the registry finds expired is on its way. -/
theorem Expires.onItsWay (hms : cfg.leaseMs.isSome = true) (hexp : Expires s a lease)
    (hused : UsedUp cfg s lease.msg) (hok : Spared cfg s a)
    (h : Queue.step cfg registered s a = some s') : s'.Holds true lease := by
  obtain ⟨call, now, order, withQueues, rest, id, rfl, hcall, hid, hexpired⟩ := hexp
  cases withQueues with
  | false =>
    have hnext : s.next call = some (.sweep false) := by rw [State.next, hcall]; rfl
    exact absurd hused (hok.unspent call now order rfl hnext (id, lease) hid hexpired)
  | true =>
    unfold Queue.step at h
    dsimp only at h
    rw [hcall] at h
    obtain ⟨o, ho, rfl⟩ := Option.map_eq_some_iff.mp h
    have hsome : ¬ cfg.leaseMs.isNone = true := by
      rw [Option.isNone_iff_eq_none, ← Option.not_isSome_iff_eq_none]
      exact not_not.mpr hms
    simp only [Section.run, if_neg hsome] at ho
    split at ho
    · rename_i hperm
      cases ho
      have hids : id ∈ order :=
        hperm.mem_iff.mpr (mem_map.mpr ⟨(id, lease),
          mem_filter.mpr ⟨hid, decide_eq_true hexpired⟩, rfl⟩)
      have htaken := Tickets.takeAll_of_mem hid hids
      have hlt : call < s.calls.length := (List.getElem?_eq_some_iff.mp hcall).1
      exact ⟨_, mem_set hlt _,
        mem_append_left _ (mem_map.mpr ⟨(id, lease), htaken, rfl⟩)⟩
    · cases ho

theorem Accounted.sequences_nodup (h : Accounted s) : (s.places.map (·.2.sequence)).Nodup := by
  have hseq : s.places.map (·.2.sequence) = (s.places.map Prod.snd).map (·.sequence) := by
    rw [Multiset.map_map]
    rfl
  rw [hseq, h.items, Multiset.map_coe, h.sequences]
  exact Multiset.coe_nodup.mpr nodup_range'

theorem Accounted.deadLettered_nodup (h : Accounted s) :
    ((s.log.filterMap Event.deadLettered).map (·.1.sequence)).Nodup := by
  have hsettled : ((s.log.flatMap Event.settled).map (·.2.sequence)).Nodup := by
    have hle : settled s.log ≤ s.places := Multiset.le_add_left _ _
    exact Multiset.coe_nodup.mp (Multiset.nodup_of_le (Multiset.map_le_map hle) h.sequences_nodup)
  refine hsettled.sublist ?_
  generalize s.log = es
  induction es with
  | nil => exact Sublist.slnil
  | cons e es ih =>
    rw [flatMap_cons, map_append]
    cases e with
    | exhausted m x =>
      cases x with
      | none => exact ih.cons _
      | some letter => exact ih.cons_cons _
    | _ => exact ih.trans (sublist_append_right _ _)

/-! ## The queues together -/

variable {reg : Registry}

variable {n : String}

/-- **What a step of the server does**: a section on one queue, which sends no dead letter or
one. -/
theorem Server.step_cases {s s' : Server} (h : Server.step reg s (n, a) = some s') :
    ∃ cfg q events, reg.get? n = some cfg ∧ Queue.step cfg reg.registered (s.queues n) a = some q ∧
      q.log = (s.queues n).log ++ events ∧
      ((events.filterMap Event.deadLettered = [] ∧ s' = { s with queues := update s.queues n q }) ∨
        ∃ m dlq letter, events.filterMap Event.deadLettered = [(m, dlq, letter)] ∧
          (∃ dcfg, reg.get? dlq = some dcfg) ∧
          (dlq = n → .published ⟨(s.queues n).nextSequence + 1, letter, 0, none⟩ ∈ events) ∧
          s'.queues = (if dlq = n then update s.queues n q
            else reg.post (update s.queues n q) dlq letter) ∧
          s'.letters = s.letters ++
            [⟨n, m, dlq, ⟨(s.queues dlq).nextSequence + 1, letter, 0, none⟩⟩]) := by
  unfold Server.step at h
  split at h
  · cases h
  rename_i cfg hcfg
  obtain ⟨q, hq, rfl⟩ := Option.map_eq_some_iff.mp h
  obtain ⟨events, hlog, hevents⟩ := step_log hq
  refine ⟨cfg, q, events, hcfg, hq, hlog, ?_⟩
  rw [hlog, drop_left, ← head?_filterMap]
  rcases hevents with hnone | ⟨withQueues, lease, -, -, rfl⟩
  · have hnil : events.filterMap Event.deadLettered = [] := by
      refine filterMap_eq_nil_iff.mpr fun e he => ?_
      cases e with
      | exhausted m x => exact absurd he (hnone m x)
      | _ => rfl
    rw [hnil]
    exact .inl ⟨rfl, rfl⟩
  rw [exhaust_deadLettered]
  cases hdlq : resolveDlq cfg reg.registered withQueues with
  | none => exact .inl ⟨rfl, rfl⟩
  | some dlq =>
    refine .inr ⟨lease.msg, dlq, deadLetter cfg lease, rfl, ?_, ?_, rfl, rfl⟩
    · have hregistered := (Option.filter_eq_some_iff.mp hdlq).2
      exact Option.isSome_iff_exists.mp (Bool.and_eq_true_iff.mp hregistered).2
    · rintro rfl
      unfold exhaust
      rw [hdlq]
      dsimp only
      rw [if_pos (reg.named hcfg).symm]
      exact mem_cons_of_mem _ mem_cons_self

theorem Server.step_self {s s' : Server} (h : Server.step reg s (n, a) = some s')
    (hcfg : reg.get? n = some cfg) :
    Queue.step cfg reg.registered (s.queues n) a = some (s'.queues n) := by
  obtain ⟨cfg', q, events, hcfg', hq, -, hcase⟩ := Server.step_cases h
  cases hcfg'.symm.trans hcfg
  rw [hq]
  obtain ⟨-, rfl⟩ | ⟨m, dlq, letter, -, ⟨dcfg, hdcfg⟩, -, hqueues, -⟩ := hcase
  · dsimp only
    rw [update_self]
  · rw [hqueues]
    split
    · rw [update_self]
    rename_i hne
    rw [Registry.post, hdcfg]
    dsimp only
    rw [update_of_ne (Ne.symm hne), update_self]

/-- Another queue stays as it is, or takes the dead letter. -/
theorem Server.step_other {s s' : Server} {k n : String} (h : Server.step reg s (k, a) = some s')
    (hcfg : reg.get? n = some cfg) (hn : n ≠ k) :
    s'.queues n = s.queues n ∨ ∃ letter,
      Queue.step cfg reg.registered (s.queues n) (.publish letter {}) = some (s'.queues n) := by
  obtain ⟨-, q, events, -, -, -, ⟨-, rfl⟩ | ⟨m, dlq, letter, -, ⟨dcfg, hdcfg⟩, -, hqueues, -⟩⟩ :=
    Server.step_cases h
  · exact .inl (update_of_ne hn _ _)
  rw [hqueues]
  split
  · exact .inl (update_of_ne hn _ _)
  rw [Registry.post, hdcfg]
  dsimp only
  by_cases hd : n = dlq
  · subst hd
    cases hdcfg.symm.trans hcfg
    refine .inr ⟨letter, ?_⟩
    rw [update_self, update_of_ne hn]
    rfl
  · refine .inl ?_
    rw [update_of_ne hd, update_of_ne hn]

/-- The publishes on the queue spare its used-up messages, and no message is put back. -/
def Spares (reg : Registry) (n : String) (s : Server) (x : String × Action) : Prop :=
  x.1 = n → ∀ cfg, reg.get? n = some cfg → Spared cfg (s.queues n) x.2

theorem queue_invariant (hcfg : reg.get? n = some cfg) {P : State → Prop}
    (hstep : ∀ s a s', P s → Spared cfg s a → Queue.step cfg reg.registered s a = some s' → P s')
    {s t : Server} {as : List (String × Action)}
    (hrun : Run (Server.step reg) (Spares reg n) s as t) (hs : P (s.queues n)) :
    P (t.queues n) := by
  refine hrun.invariant (P := fun s => P (s.queues n)) ?_ hs
  rintro s ⟨k, a⟩ t hP hok hst
  by_cases hn : n = k
  · subst hn
    exact hstep _ _ _ hP (hok rfl cfg hcfg) (Server.step_self hst hcfg)
  · rcases Server.step_other hst hcfg hn with hsame | ⟨letter, hq⟩
    · rw [hsame]
      exact hP
    · have hspared : Spared cfg (s.queues n) (.publish letter {}) :=
        ⟨fun _ _ _ heq => (nomatch heq), trivial⟩
      exact hstep _ _ _ hP hspared hq

structure Posted (s : Server) : Prop where
  logged : ∀ n, (s.letters.filter (·.queue = n)).map (fun l => (l.original, l.dlq, l.posted.data)) =
    (s.queues n).log.filterMap Event.deadLettered
  published : ∀ l ∈ s.letters, .published l.posted ∈ (s.queues l.dlq).log

theorem update_log {queues : String → State} {k : String} {q : State} {events : List Event}
    (h : q.log = (queues k).log ++ events) (n : String) :
    (update queues k q n).log = (queues n).log ++ if n = k then events else [] := by
  split
  · rename_i hn
    subst hn
    rw [update_self]
    exact h
  · rename_i hn
    rw [update_of_ne hn, append_nil]

variable {x : String × Action}

theorem Posted.step {s s' : Server} (hs : Posted s) (h : Server.step reg s x = some s') :
    Posted s' := by
  obtain ⟨k, a⟩ := x
  obtain ⟨kcfg, q, events, hk, hq, hlog, hcase⟩ := Server.step_cases h
  have hupdate := update_log hlog
  obtain ⟨hnone, rfl⟩ | ⟨m, dlq, letter, hone, ⟨dcfg, hdcfg⟩, hself, hqueues, hletters⟩ := hcase
  · refine ⟨fun n => ?_, fun l hl => ?_⟩
    · rw [hupdate, filterMap_append, ← hs.logged n]
      split
      · rw [hnone, append_nil]
      · exact (append_nil _).symm
    · rw [hupdate]
      exact mem_append_left _ (hs.published l hl)
  · -- the log of a queue: that of its own section, and the letter if it goes there
    have hlogs : ∀ n, (s'.queues n).log = (s.queues n).log ++ ((if n = k then events else []) ++
        if n = dlq ∧ dlq ≠ k then
          [.published ⟨(s.queues dlq).nextSequence + 1, letter, 0, none⟩] else []) := by
      intro n
      rw [hqueues]
      by_cases hdk : dlq = k
      · have hnot : ¬ (n = dlq ∧ dlq ≠ k) := fun hand => hand.2 hdk
        rw [if_pos hdk, if_neg hnot, append_nil]
        exact hupdate n
      · rw [if_neg hdk, Registry.post, hdcfg]
        dsimp only
        rw [update_log rfl, hupdate]
        simp [hdk, publish]
    refine ⟨fun n => ?_, fun l hl => ?_⟩
    · rw [hlogs, hletters, filter_append, map_append, hs.logged n, filterMap_append,
        filterMap_append]
      have hpublished : (if n = dlq ∧ dlq ≠ k then
          [Event.published ⟨(s.queues dlq).nextSequence + 1, letter, 0, none⟩] else []).filterMap
            Event.deadLettered = [] := by
        split <;> rfl
      rw [hpublished]
      by_cases hn : n = k
      · rw [if_pos hn, hone, filter_cons_of_pos (by simpa using hn.symm)]
        rfl
      · rw [if_neg hn, filter_cons_of_neg (by simpa using Ne.symm hn)]
        rfl
    · rw [hlogs]
      rw [hletters] at hl
      rcases mem_append.mp hl with hold | hnew
      · exact mem_append_left _ (hs.published l hold)
      obtain rfl := mem_singleton.mp hnew
      refine mem_append_right _ ?_
      by_cases hdk : dlq = k
      · subst hdk
        rw [if_pos rfl]
        exact mem_append_left _ (hself rfl)
      · rw [if_pos (show dlq = dlq ∧ dlq ≠ k from ⟨rfl, hdk⟩)]
        exact mem_append_right _ mem_cons_self

theorem filter_key_eq {α : Type*} (key : α → Nat) {l : List α} (h : (l.map key).Nodup) {x : α}
    (hx : x ∈ l) : l.filter (fun y => key y = key x) = [x] := by
  induction l with
  | nil => cases hx
  | cons y l ih =>
    obtain ⟨hy, hl⟩ := nodup_cons.mp h
    rcases mem_cons.mp hx with rfl | hrest
    · have hnone : l.filter (fun z => decide (key z = key x)) = [] := by
        refine filter_eq_nil_iff.mpr fun z hz hkey => hy ?_
        exact of_decide_eq_true hkey ▸ mem_map_of_mem hz
      rw [filter_cons_of_pos (by simp), hnone]
    · have hne : ¬ key y = key x := fun hkey => hy (hkey ▸ mem_map_of_mem hrest)
      rw [filter_cons_of_neg (by simpa using hne)]
      exact ih hl hrest

theorem lettersOf_eq (s : Server) (n : String) (sequence : Nat) : s.lettersOf n sequence =
      (s.letters.filter (·.queue = n)).filter (·.original.sequence = sequence) := by
  rw [filter_filter]
  refine filter_congr fun l _ => ?_
  rw [Bool.decide_and, Bool.and_comm]

theorem Posted.mem_places {s : Server} (h : Posted s) {l : Letter} (hl : l ∈ s.letters) :
    (Place.exhausted, l.original) ∈ (s.queues l.queue).places := by
  have hmem : (l.original, l.dlq, l.posted.data) ∈
      (s.queues l.queue).log.filterMap Event.deadLettered := by
    rw [← h.logged]
    exact mem_map.mpr ⟨l, mem_filter.mpr ⟨hl, decide_eq_true rfl⟩, rfl⟩
  obtain ⟨e, he, heq⟩ := mem_filterMap.mp hmem
  refine Multiset.mem_add.mpr (.inr (Multiset.mem_coe.mpr (mem_flatMap.mpr ⟨e, he, ?_⟩)))
  cases e with
  | exhausted m x =>
    cases x with
    | none => cases heq
    | some letter =>
      have hm : m = l.original := congrArg Prod.fst (Option.some.inj heq)
      rw [hm]
      exact mem_cons_self
  | _ => cases heq

theorem State.Holds.mem_places (h : s.Holds withQueues lease) :
    ∃ call, (Place.hands call, lease.msg) ∈ s.places := by
  obtain ⟨c, hc, hmem⟩ := h
  have hhands : lease.msg ∈ inHands c := mem_flatMap.mpr ⟨_, hmem, mem_cons_self⟩
  obtain ⟨call, hcall⟩ := mem_holders Place.hands inHands 0 hc hhands
  exact ⟨call, Multiset.mem_add.mpr (.inl (Multiset.mem_add.mpr (.inr hcall)))⟩

/-- **Dead letters.** Let a queue with leases have a registered dead-letter queue, let no publish on
it meet an expired lease of a message that is used up, and let no message be put back. A message
whose lease a sweep finds expired after its redeliveries were made is never dropped; until the round
of that sweep it has no dead letter, and from then on one, which was published on the dead-letter
queue and wraps the message. -/
theorem dead_lettered_once {n dlq : String} {dcfg : Config} (hcfg : reg.get? n = some cfg)
    (hms : cfg.leaseMs.isSome = true) (hcap : cfg.maxDeliveryCount.toNat < 2 ^ 32 - 1)
    (hname : cfg.dlqName = some dlq) (hdcfg : reg.get? dlq = some dcfg)
    {as bs : List (String × Action)} {a : Action} {s₁ s₂ s₃ : Server} {lease : LeaseRecord}
    (hbefore : Run (Server.step reg) (Spares reg n) Server.init as s₁)
    (hexp : Expires (s₁.queues n) a lease) (hused : UsedUp cfg (s₁.queues n) lease.msg)
    (hok : Spares reg n s₁ (n, a)) (hstep : Server.step reg s₁ (n, a) = some s₂)
    (hafter : Run (Server.step reg) (Spares reg n) s₂ bs s₃) :
    (∀ m, .exhausted m none ∉ (s₃.queues n).log) ∧
      ((s₃.queues n).Holds true lease ∧ s₃.lettersOf n lease.msg.sequence = [] ∨
        ∃ posted, posted.data = deadLetter cfg lease ∧ .published posted ∈ (s₃.queues dlq).log ∧
          s₃.lettersOf n lease.msg.sequence = [⟨n, lease.msg, dlq, posted⟩]) := by
  have hdlq : resolveDlq cfg reg.registered true = some dlq := by
    rw [resolveDlq, hname, Option.filter_some_pos]
    rw [Bool.true_and, Registry.registered, hdcfg]
    rfl
  have hwhole := hbefore.append (.cons hok hstep hafter)
  have hsent : SentOn cfg dlq (s₃.queues n) :=
    queue_invariant hcfg (fun _ _ _ => SentOn.step hcap hdlq) hwhole (SentOn.init cfg dlq)
  have hacc : Accounted (s₃.queues n) :=
    queue_invariant hcfg (fun _ _ _ h _ hst => (step_conserves hst).elim fun _ hc => h.step hc)
      hwhole Accounted.init
  have hposted : Posted s₃ :=
    hwhole.invariant (P := Posted) (fun _ _ _ h _ hst => h.step hst)
      ⟨fun _ => rfl, fun _ hl => nomatch hl⟩
  have hway : OnItsWay cfg dlq lease (s₃.queues n) := by
    have hqueue := Server.step_self hstep hcfg
    have hfound := hexp.onItsWay hms hused (hok rfl cfg hcfg) hqueue
    have hcounted : Counted cfg (s₁.queues n) :=
      queue_invariant hcfg (fun _ _ _ h hsp hst => h.step hcap hsp.back hst) hbefore (.init cfg)
    have hspent : Spent cfg lease := by
      obtain ⟨-, -, -, -, -, id, -, -, hid, -⟩ := hexp
      exact (hcounted.usedUp_iff hcap hid).mp hused
    exact queue_invariant hcfg (fun _ _ _ h _ hst => OnItsWay.step hdlq hspent h hst) hafter
      (.inl hfound)
  refine ⟨fun m hdropped => ?_, ?_⟩
  · obtain ⟨_, _, hsome⟩ := hsent.wrapped m none hdropped
    cases hsome
  rcases hway with hholds | hlog
  · refine .inl ⟨hholds, filter_eq_nil_iff.mpr fun l hl hof => ?_⟩
    obtain ⟨rfl, hsequence⟩ := of_decide_eq_true hof
    obtain ⟨call, hhands⟩ := hholds.mem_places
    have hdone := hposted.mem_places hl
    cases Multiset.inj_on_of_nodup_map hacc.sequences_nodup _ hdone _ hhands hsequence
  · refine .inr ?_
    have hmem : (lease.msg, dlq, deadLetter cfg lease) ∈
        (s₃.letters.filter (·.queue = n)).map fun l => (l.original, l.dlq, l.posted.data) := by
      rw [hposted.logged]
      exact mem_filterMap.mpr ⟨_, hlog, rfl⟩
    obtain ⟨⟨queue, original, d, posted⟩, hl, heq⟩ := mem_map.mp hmem
    obtain ⟨hletter, hqueue⟩ := mem_filter.mp hl
    obtain rfl : queue = n := of_decide_eq_true hqueue
    obtain ⟨rfl, hrest⟩ := Prod.mk.inj heq
    obtain ⟨rfl, hdata⟩ := Prod.mk.inj hrest
    refine ⟨posted, hdata, hposted.published _ hletter, ?_⟩
    have hnodup : ((s₃.letters.filter (·.queue = queue)).map (·.original.sequence)).Nodup := by
      have hall := hacc.deadLettered_nodup
      rw [← hposted.logged, map_map] at hall
      exact hall
    rw [lettersOf_eq]
    exact filter_key_eq (·.original.sequence) hnodup hl

/-! ## A queue of orders with a dead-letter queue -/

/-- Ten milliseconds to acknowledge, one redelivery. -/
def trades : Config :=
  { name := "/trades", leaseMs := some 10, maxDeliveryCount := 1, dlqName := some "/dead" }

def dead : Config := { name := "/dead" }

def tradesAndDead : Registry where
  get? := fun n => if n = "/trades" then some trades else if n = "/dead" then some dead else none
  named := by
    intro n cfg h
    split at h
    · cases h
      exact Eq.symm ‹_›
    split at h
    · cases h
      exact Eq.symm ‹_›
    · cases h

instance (cfg : Config) (s : State) : DecidablePred (Spared cfg s)
  | .resume call now order =>
    decidable_of_iff ((s.next call = some (.sweep false) → ∀ e ∈ s.inner.inFlight.entries,
        e.2.expiresAt ≤ now → ¬ UsedUp cfg s e.2.msg) ∧
      ∀ top, s.next call = some top → top.rebuffers = false)
      ⟨fun h => ⟨fun _ _ _ heq => by cases heq; exact h.1, h.2⟩,
        fun h => ⟨h.unspent call now order rfl, h.back⟩⟩
  | .publish _ _ | .addConsumer _ | .removeConsumer _ | .ack _ | .extendLease _ _ _ | .sweep _ =>
    isTrue ⟨fun _ _ _ heq => (nomatch heq), trivial⟩

instance (reg : Registry) (n : String) (s : Server) (x : String × Action) :
    Decidable (Spares reg n s x) :=
  inferInstanceAs (Decidable (_ → ∀ cfg, _ = some cfg → _))

theorem expires_of_head {call id now : Nat} {withQueues : Bool} {lease : LeaseRecord}
    (hcall : s.next call = some (.sweep withQueues))
    (hlease : s.inner.inFlight.get? id = some lease) (hexpired : lease.expiresAt ≤ now)
    (order : List Nat) : Expires s (.resume call now order) lease := by
  obtain ⟨c, hc, hhead⟩ := Option.bind_eq_some_iff.mp hcall
  obtain ⟨rest, rfl⟩ := head?_eq_some_iff.mp hhead
  exact ⟨call, now, order, withQueues, rest, id, rfl, hc, Tickets.mem_of_get? hlease, hexpired⟩

def onTrades (as : List Action) : List (String × Action) := as.map fun a => ("/trades", a)

/-- A trade goes to one consumer and, not acknowledged, to the other. -/
def redelivered : List Action :=
  [.addConsumer "a", .addConsumer "b", .publish .null {}, .resume 2 0 [], .resume 2 0 [],
    .resume 2 0 [], .sweep true, .resume 3 20 [1], .resume 3 20 [], .resume 3 20 []]

/-- The background sweep finds the second lease expired. -/
theorem dead_lettered_once_swept : ∃ s₁ s₃ lease posted,
    Run (Server.step tradesAndDead) (Spares tradesAndDead "/trades") Server.init
      (onTrades (redelivered ++ [.sweep true])) s₁ ∧
    Expires (s₁.queues "/trades") (.resume 4 40 [2]) lease ∧
    UsedUp trades (s₁.queues "/trades") lease.msg ∧
    Run (Server.step tradesAndDead) (Spares tradesAndDead "/trades") s₁
      (onTrades [.resume 4 40 [2], .resume 4 40 []]) s₃ ∧
    posted.data = deadLetter trades lease ∧ .published posted ∈ (s₃.queues "/dead").log ∧
    s₃.lettersOf "/trades" lease.msg.sequence = [⟨"/trades", lease.msg, "/dead", posted⟩] := by
  simp only [exists_and_left]
  refine Run.exists_of_check
    (fun s => (s.queues "/trades").next 4 = some (.sweep true) ∧
      ∃ lease, (s.queues "/trades").inner.inFlight.get? 2 = some lease ∧ lease.expiresAt ≤ 40 ∧
        UsedUp trades (s.queues "/trades") lease.msg ∧
        ∃ s₃, Run (Server.step tradesAndDead) (Spares tradesAndDead "/trades") s
          (onTrades [.resume 4 40 [2], .resume 4 40 []]) s₃ ∧ (s₃.queues "/trades").Idle)
    (by decide +kernel) fun s₁ hbefore ⟨hcall, lease, hlease, hexpired, hused, s₃, hrun, hidle⟩ => ?_
  have hexp := expires_of_head hcall hlease hexpired [2]
  have hdone : ¬ (s₃.queues "/trades").Holds true lease := by
    rintro ⟨c, hc, hmem⟩
    rw [hidle c hc] at hmem
    cases hmem
  cases hrun with
  | cons hok hstep hafter =>
    have hname : trades.dlqName = some "/dead" := rfl
    obtain ⟨-, ⟨hholds, -⟩ | ⟨posted, hposted⟩⟩ :=
      dead_lettered_once rfl rfl (by decide) hname rfl hbefore hexp hused hok hstep hafter
    · exact absurd hholds hdone
    · exact ⟨s₃, lease, hexp, hused, .cons hok hstep hafter, posted, hposted⟩

/-- The sweep of a publish finds the second lease expired: the trade is dropped. -/
theorem used_up_dropped : ∃ s₁ s₃ lease,
    Run (Server.step tradesAndDead) (fun _ _ => True) Server.init
      (onTrades (redelivered ++ [.publish .null {}])) s₁ ∧
    Expires (s₁.queues "/trades") (.resume 4 40 [2]) lease ∧
    UsedUp trades (s₁.queues "/trades") lease.msg ∧
    Run (Server.step tradesAndDead) (fun _ _ => True) s₁
      (onTrades [.resume 4 40 [2], .resume 4 40 [], .resume 4 40 [], .resume 4 40 []]) s₃ ∧
    (s₃.queues "/trades").Idle ∧ (s₃.queues "/dead").nextSequence = 0 ∧
    (∃ m, .exhausted m none ∈ (s₃.queues "/trades").log) ∧ s₃.letters = [] := by
  simp only [exists_and_left]
  refine Run.exists_of_check
    (fun s => (s.queues "/trades").next 4 = some (.sweep false) ∧
      ∃ lease, (s.queues "/trades").inner.inFlight.get? 2 = some lease ∧ lease.expiresAt ≤ 40 ∧
        UsedUp trades (s.queues "/trades") lease.msg ∧
        ∃ s₃, Run (Server.step tradesAndDead) (fun _ _ => True) s
          (onTrades [.resume 4 40 [2], .resume 4 40 [], .resume 4 40 [], .resume 4 40 []]) s₃ ∧
          (s₃.queues "/trades").Idle ∧ (s₃.queues "/dead").nextSequence = 0 ∧
          .exhausted ⟨1, .null, 0, none⟩ none ∈ (s₃.queues "/trades").log ∧ s₃.letters = [])
    (by decide +kernel) fun s₁ hbefore ⟨hcall, lease, hlease, hexpired, hused, s₃, hrun, hend⟩ => ?_
  obtain ⟨hidle, hdead, hdropped, hletters⟩ := hend
  exact ⟨s₃, lease, expires_of_head hcall hlease hexpired [2], hused, hrun, hidle, hdead,
    ⟨_, hdropped⟩, hletters⟩

end CqServer.Queue
