import CqServer.Queue.Calls
import Mathlib.Algebra.Order.Group.Multiset
import Mathlib.Tactic.Abel

/-!
# How often a message was delivered

The log tells how often a message was leased out. A lease carries a count of its own, and a
message that goes through the buffer starts from zero again. As long as no message is put back,
every message in the queue has gone out as often as its lease, or the call that has it in hand,
says (`Counted`), so that a sweep takes a message for used up exactly when its first delivery
and all its redeliveries were made (`Counted.usedUp_iff`).
-/

namespace CqServer.Queue

open Lib List

def Event.delivers (m : QueueMessage) : Event → Bool
  | .leased _ _ m' _ => m' = m
  | _ => false

def State.deliveries (s : State) (m : QueueMessage) : Nat := s.log.countP (Event.delivers m)

/-- The first delivery of the message and the redeliveries it is allowed were made. -/
def UsedUp (cfg : Config) (s : State) (m : QueueMessage) : Prop :=
  cfg.maxDeliveryCount.toNat < s.deliveries m

instance (cfg : Config) (s : State) (m : QueueMessage) : Decidable (UsedUp cfg s m) :=
  inferInstanceAs (Decidable (_ < _))

/-! ## The messages in the queue, each with its deliveries -/

def LeaseRecord.tally (lease : LeaseRecord) : QueueMessage × Nat :=
  (lease.msg, lease.redeliveryCount.toNat + 1)

def Section.tallies : Section → List (QueueMessage × Nat)
  | .publish m => [(m, 0)]
  | .deliver _ m count => [(m, count.toNat)]
  | .redeliver _ lease => [lease.tally]
  | .sweep _ | .rebuffer _ => []

def callTallies (c : List Section) : Multiset (QueueMessage × Nat) := ↑(c.flatMap Section.tallies)

def QueueInner.tallies (q : QueueInner) : Multiset (QueueMessage × Nat) :=
  ↑(q.buffer.map fun m => (m, 0)) + ↑(q.inFlight.entries.map fun e => e.2.tally)

def State.tallies (s : State) : Multiset (QueueMessage × Nat) :=
  s.inner.tallies + callTallies s.calls.flatten

theorem callTallies_append (c c' : List Section) :
    callTallies (c ++ c') = callTallies c + callTallies c' := by
  simp [callTallies]

@[simp] theorem callTallies_nil : callTallies [] = 0 := rfl

@[simp] theorem callTallies_singleton (sec : Section) : callTallies [sec] = ↑sec.tallies := by
  simp [callTallies]

theorem tallies_start (s : State) (o : Outcome) :
    (s.start o).tallies = o.inner.tallies + callTallies o.todo + callTallies s.calls.flatten := by
  rw [State.tallies, State.start, flatten_append, callTallies_append]
  simp only [flatten_singleton]
  abel

variable {cfg : Config} {registered : String → Bool} {s s' : State} {a : Action} {o : Outcome}
  {q : QueueInner} {n now : Nat} {order : List Nat} {top : Section}

theorem tallies_resume {call : Nat} {rest : List Section}
    (hcall : s.calls[call]? = some (top :: rest)) :
    ∃ others, s.tallies = s.inner.tallies + callTallies [top] + others ∧
      (s.goOn call rest o).tallies = o.inner.tallies + callTallies o.todo + others := by
  obtain ⟨hlt, hget⟩ := List.getElem?_eq_some_iff.mp hcall
  refine ⟨callTallies (s.calls.take call).flatten + callTallies rest +
    callTallies (s.calls.drop (call + 1)).flatten, ?_, ?_⟩
  · have hflat : s.calls.flatten = (s.calls.take call).flatten ++
        ([top] ++ (rest ++ (s.calls.drop (call + 1)).flatten)) := by
      conv_lhs => rw [← take_append_drop call s.calls, drop_eq_getElem_cons hlt, hget]
      simp
    rw [State.tallies, hflat, callTallies_append, callTallies_append, callTallies_append]
    abel
  · rw [State.tallies, State.goOn, set_eq_take_append_cons_drop, if_pos hlt, flatten_append,
      flatten_cons, callTallies_append, callTallies_append, callTallies_append]
    abel

/-- What a section does to the deliveries of the messages it deals with: nothing, nothing but
bring in a new message, or one more of one message. -/
inductive Outcome.Delivers (o : Outcome) (n : Nat) (before after : Multiset (QueueMessage × Nat)) :
    Prop where
  | none (hquiet : ∀ m, o.events.countP (Event.delivers m) = 0) (hnext : o.nextSequence = n)
      (hle : after ≤ before)
  | fresh (hquiet : ∀ m, o.events.countP (Event.delivers m) = 0) (m : QueueMessage)
      (hm : m.sequence = n + 1) (hnext : o.nextSequence = n + 1) (hle : after ≤ (m, 0) ::ₘ before)
  | one (id : Nat) (sub : String) (m : QueueMessage) (count : UInt32)
      (rest : Multiset (QueueMessage × Nat)) (hevents : o.events = [.leased id sub m count])
      (hnext : o.nextSequence = n) (hbefore : before = (m, count.toNat) ::ₘ rest)
      (hafter : after = (m, count.toNat + 1) ::ₘ rest)

theorem Outcome.Delivers.frame {before after : Multiset (QueueMessage × Nat)}
    (h : o.Delivers n before after) (others : Multiset (QueueMessage × Nat)) :
    o.Delivers n (before + others) (after + others) := by
  cases h with
  | none hquiet hnext hle => exact .none hquiet hnext (Multiset.add_le_add_right hle)
  | fresh hquiet m hm hnext hle =>
    refine .fresh hquiet m hm hnext ?_
    rw [← Multiset.cons_add]
    exact Multiset.add_le_add_right hle
  | one id sub m count rest hevents hnext hbefore hafter =>
    refine .one id sub m count (rest + others) hevents hnext ?_ ?_
    · rw [hbefore, Multiset.cons_add]
    · rw [hafter, Multiset.cons_add]

/-! ## The counts stay below the cap -/

def Section.Within (cfg : Config) : Section → Prop
  | .deliver _ _ count => count ≤ cfg.maxDeliveryCount
  | .redeliver _ lease => lease.redeliveryCount ≤ cfg.maxDeliveryCount
  | _ => True

structure Within (cfg : Config) (s : State) : Prop where
  leases : ∀ e ∈ s.inner.inFlight.entries, e.2.redeliveryCount ≤ cfg.maxDeliveryCount
  calls : ∀ c ∈ s.calls, ∀ sec ∈ c, sec.Within cfg

theorem publishCall_within (m : QueueMessage) : ∀ sec ∈ publishCall cfg m, sec.Within cfg := by
  unfold publishCall
  split <;> simp [Section.Within]

theorem Section.run_within (h : top.run cfg registered now order q n = some o)
    (hleases : ∀ e ∈ q.inFlight.entries, e.2.redeliveryCount ≤ cfg.maxDeliveryCount)
    (htop : top.Within cfg) :
    (∀ e ∈ o.inner.inFlight.entries, e.2.redeliveryCount ≤ cfg.maxDeliveryCount) ∧
      ∀ sec ∈ o.todo, sec.Within cfg := by
  cases run_does h with
  | hand hpick hands hcount =>
    refine ⟨hpick.inFlight ▸ hleases, forall_mem_singleton.mpr ?_⟩
    cases top with
    | publish m =>
      rw [Section.Within, show _ = (0 : UInt32) from hcount]
      exact UInt32.zero_le
    | redeliver b lease =>
      obtain ⟨rfl, hleft⟩ := hcount
      exact UInt32.not_lt.mp hleft
    | deliver | sweep | rebuffer => exact hcount.elim
  | buffer | send | idle | exhaust | rebuffer => exact ⟨hleases, fun _ hsec => nomatch hsec⟩
  | lease => exact ⟨forall_mem_concat hleases htop, fun _ hsec => nomatch hsec⟩
  | sweep =>
    have hall := Tickets.entries_takeAll order q.inFlight
    refine ⟨fun e he => hleases e (hall.mem_iff.mpr (mem_append_right _ he)), ?_⟩
    rw [forall_mem_map]
    exact fun e he => hleases e (hall.mem_iff.mpr (mem_append_left _ he))
  | letter => exact ⟨hleases, publishCall_within _⟩
  | strand => exact ⟨hleases, forall_mem_singleton.mpr trivial⟩

theorem Within.step (h : Within cfg s) (hstep : step cfg registered s a = some s') :
    Within cfg s' := by
  cases step_does hstep with
  | start hbegins =>
    cases hbegins with
    | publish => exact ⟨h.leases, forall_mem_concat h.calls (publishCall_within _)⟩
    | join hdealt hbuffer hleases =>
      refine ⟨hleases ▸ h.leases, forall_mem_concat h.calls ?_⟩
      rw [forall_mem_map]
      exact fun _ _ => UInt32.zero_le
    | ack =>
      exact ⟨fun e he => h.leases e (Tickets.mem_remove.mp he).1,
        forall_mem_concat h.calls fun _ hsec => nomatch hsec⟩
    | noAck => exact ⟨h.leases, forall_mem_concat h.calls fun _ hsec => nomatch hsec⟩
    | sweep => exact ⟨h.leases, forall_mem_concat h.calls (forall_mem_singleton.mpr trivial)⟩
  | leave => exact ⟨h.leases, h.calls⟩
  | extend _ hsame =>
    have hcounts := hsame (·.2.redeliveryCount) fun _ _ _ => rfl
    refine ⟨fun e he => ?_, h.calls⟩
    obtain ⟨e', he', heq⟩ := mem_map.mp (hcounts ▸ mem_map_of_mem he)
    exact heq ▸ h.leases e' he'
  | resume hcall ho =>
    obtain ⟨htop, hrest⟩ := forall_mem_cons.mp (h.calls _ (mem_of_getElem? hcall))
    obtain ⟨hleases, htodo⟩ := Section.run_within ho h.leases htop
    refine ⟨hleases, fun c hc => ?_⟩
    rcases mem_or_eq_of_mem_set hc with hold | rfl
    · exact h.calls c hold
    · exact forall_mem_append.mpr ⟨htodo, hrest⟩

/-! ## One step -/

/-- The redelivery count of a message that goes out again does not wrap. -/
theorem toNat_succ_of_le {count cap : UInt32} (hcap : cap.toNat < 2 ^ 32 - 1) (hle : count ≤ cap) :
    (count + 1).toNat = count.toNat + 1 := by
  have := UInt32.le_iff_toNat_le.mp hle
  rw [UInt32.toNat_add]
  simp only [UInt32.reduceToNat]
  omega

theorem callTallies_publishCall (m : QueueMessage) :
    callTallies (publishCall cfg m) = {(m, 0)} := by
  unfold publishCall
  split <;> rfl

/-- **What a section does to the deliveries**, if it does not put a message back. -/
theorem Section.run_delivers (h : top.run cfg registered now order q n = some o)
    (hcap : cfg.maxDeliveryCount.toNat < 2 ^ 32 - 1) (htop : top.Within cfg)
    (hback : top.rebuffers = false) :
    o.Delivers n (q.tallies + callTallies [top]) (o.inner.tallies + callTallies o.todo) := by
  have hless : q.tallies ≤ q.tallies + callTallies [top] := Multiset.le_add_right _ _
  cases run_does h with
  | @hand top m sub q' count hpick hands hcount =>
    have hinner : q'.tallies = q.tallies := by
      rw [QueueInner.tallies, hpick.buffer, hpick.inFlight]
      rfl
    have htally : callTallies [.deliver sub m count] = callTallies [top] := by
      cases top with
      | publish m' =>
        cases hands
        rw [show count = 0 from hcount]
        rfl
      | redeliver b lease =>
        cases hands
        obtain ⟨rfl, -⟩ := hcount
        simp [callTallies, tallies, LeaseRecord.tally, toNat_succ_of_le hcap htop]
      | deliver | sweep | rebuffer => exact hcount.elim
    refine .none (fun _ => rfl) rfl ?_
    rw [hinner, htally]
  | @buffer m =>
    refine .none (fun m' => ?_) rfl ?_
    · rw [countP_append, countP_map]
      simp [Event.delivers, Function.comp_def]
    · -- what is evicted is gone
      have hroom := (makeRoom_perm cfg.maxBuffer q.buffer.length q.buffer).map fun m => (m, 0)
      have hins := (insertByPriority_perm
        (makeRoom cfg.maxBuffer q.buffer.length q.buffer).1 m).map fun m => (m, 0)
      rw [map_append] at hroom
      refine Multiset.le_iff_exists_add.mpr
        ⟨↑((makeRoom cfg.maxBuffer q.buffer.length q.buffer).2.map fun m => (m, 0)), ?_⟩
      rw [QueueInner.tallies, QueueInner.tallies, Multiset.coe_eq_coe.mpr hins,
        Multiset.coe_eq_coe.mpr hroom, ← Multiset.coe_add, map_cons, ← Multiset.cons_coe,
        ← Multiset.singleton_add, callTallies_nil, callTallies_singleton, tallies,
        Multiset.coe_singleton]
      abel
  | @lease sub m count ms =>
    refine .one _ sub m count q.tallies rfl rfl ?_ ?_
    · rw [callTallies_singleton, tallies, Multiset.coe_singleton, add_comm,
        Multiset.singleton_add]
    · simp only [QueueInner.tallies, Tickets.issue, map_append, map_cons, map_nil,
        ← Multiset.coe_add, Multiset.coe_singleton, callTallies_nil, LeaseRecord.tally,
        ← Multiset.singleton_add]
      abel
  | send | idle | exhaust | strand =>
    exact .none (fun _ => rfl) rfl ((add_zero _).trans_le hless)
  | @sweep withQueues =>
    refine .none (fun _ => rfl) rfl (le_of_eq ?_)
    have hall := (Tickets.entries_takeAll order q.inFlight).map fun e => e.2.tally
    have htaken : callTallies ((Tickets.takeAll order q.inFlight).1.map
        fun e => .redeliver withQueues e.2) =
          ↑((Tickets.takeAll order q.inFlight).1.map fun e => e.2.tally) := by
      rw [callTallies, flatMap_map]
      exact congrArg _ map_eq_flatMap.symm
    rw [QueueInner.tallies, QueueInner.tallies, htaken, Multiset.coe_eq_coe.mpr hall, map_append,
      ← Multiset.coe_add, callTallies_singleton, tallies, Multiset.coe_nil]
    abel
  | letter hused hm =>
    refine .fresh (fun _ => rfl) _ hm rfl ?_
    rw [callTallies_publishCall, add_comm, Multiset.singleton_add]
    exact Multiset.cons_le_cons _ hless
  | rebuffer => cases hback

/-- No sweep puts a message back. -/
def PutsNoneBack (s : State) : Action → Prop
  | .resume call _ _ => ∀ top, s.next call = some top → top.rebuffers = false
  | _ => True

/-- A step deals with some of the messages and leaves the others alone. -/
theorem step_delivers (hcap : cfg.maxDeliveryCount.toNat < 2 ^ 32 - 1) (h : Within cfg s)
    (hback : PutsNoneBack s a) (hstep : step cfg registered s a = some s') :
    ∃ o : Outcome, s'.log = s.log ++ o.events ∧ s'.nextSequence = o.nextSequence ∧
      o.Delivers s.nextSequence s.tallies s'.tallies := by
  have hsame {q : QueueInner} (hq : q.tallies = s.inner.tallies) :
      ∃ o : Outcome, s.log = s.log ++ o.events ∧ s.nextSequence = o.nextSequence ∧
        o.Delivers s.nextSequence s.tallies { s with inner := q }.tallies := by
    refine ⟨⟨q, s.nextSequence, [], []⟩, (append_nil _).symm, rfl, .none (fun _ => rfl) rfl ?_⟩
    rw [State.tallies, hq]
    exact le_rfl
  cases step_does hstep with
  | @start _ o hbegins =>
    refine ⟨o, rfl, rfl, ?_⟩
    rw [tallies_start]
    refine Outcome.Delivers.frame ?_ _
    cases hbegins with
    | publish hm =>
      refine .fresh (fun _ => rfl) _ hm rfl ?_
      rw [callTallies_publishCall, add_comm, Multiset.singleton_add]
    | @join _ _ dealt hdealt hbuffer hleases =>
      refine .none (fun _ => rfl) rfl (le_of_eq ?_)
      have htallies : callTallies (dealt.map fun e => .deliver e.1 e.2 0) =
          ↑(s.inner.buffer.map fun m => (m, 0)) := by
        rw [callTallies, flatMap_map, ← hdealt, map_map]
        exact congrArg _ map_eq_flatMap.symm
      rw [QueueInner.tallies, hbuffer, hleases, htallies, map_nil, Multiset.coe_nil, zero_add,
        add_comm]
      rfl
    | ack =>
      refine .none (fun _ => rfl) rfl ((add_zero _).trans_le ?_)
      refine Multiset.add_le_add_left (Multiset.coe_le.mpr ?_)
      exact (filter_sublist.map _).subperm
    | noAck | sweep => exact .none (fun _ => rfl) rfl (add_zero _).le
  | leave => exact hsame rfl
  | extend _ hleases =>
    refine hsame ?_
    rw [QueueInner.tallies, hleases (·.2.tally) fun _ _ _ => rfl]
    rfl
  | @resume call _ _ top rest o hcall ho =>
    obtain ⟨htop, -⟩ := forall_mem_cons.mp (h.calls _ (mem_of_getElem? hcall))
    have hsec := Section.run_delivers ho hcap htop (hback top (by rw [State.next, hcall]; rfl))
    obtain ⟨others, hold, hnew⟩ := @tallies_resume s o top call rest hcall
    refine ⟨o, rfl, rfl, ?_⟩
    rw [hold, hnew]
    exact hsec.frame others

/-! ## Whole runs -/

/-- Every message in the queue has gone out as often as its lease or the call that has it in hand
says, and is there once. -/
structure Counted (cfg : Config) (s : State) : Prop where
  within : Within cfg s
  unique : (s.tallies.map (·.1.sequence)).Nodup
  known : ∀ p ∈ s.tallies, p.1.sequence ≤ s.nextSequence
  logged : ∀ m, s.nextSequence < m.sequence → s.deliveries m = 0
  counted : ∀ p ∈ s.tallies, s.deliveries p.1 = p.2

theorem Counted.init (cfg : Config) : Counted cfg State.init :=
  ⟨⟨(fun _ h => nomatch h), (fun _ h => nomatch h)⟩, Multiset.nodup_zero,
    (fun _ h => nomatch h), fun _ _ => rfl, (fun _ h => nomatch h)⟩

theorem Counted.step (hcap : cfg.maxDeliveryCount.toNat < 2 ^ 32 - 1) (h : Counted cfg s)
    (hback : PutsNoneBack s a) (hstep : step cfg registered s a = some s') : Counted cfg s' := by
  obtain ⟨o, hlog, hnext, hdel⟩ := step_delivers hcap h.within hback hstep
  have hdeliveries (m : QueueMessage) :
      s'.deliveries m = s.deliveries m + o.events.countP (Event.delivers m) := by
    rw [State.deliveries, hlog, countP_append]
    rfl
  have hwithin := h.within.step hstep
  cases hdel with
  | none hquiet hn hle =>
    have hsame (m : QueueMessage) : s'.deliveries m = s.deliveries m := by
      rw [hdeliveries, hquiet, Nat.add_zero]
    refine ⟨hwithin, Multiset.nodup_of_le (Multiset.map_le_map hle) h.unique, ?_, ?_, ?_⟩
    · rw [hnext, hn]
      exact fun p hp => h.known p (Multiset.mem_of_le hle hp)
    · rw [hnext, hn]
      exact fun m hm => (hsame m).trans (h.logged m hm)
    · exact fun p hp => (hsame p.1).trans (h.counted p (Multiset.mem_of_le hle hp))
  | fresh hquiet m hm hn hle =>
    have hsame (m : QueueMessage) : s'.deliveries m = s.deliveries m := by
      rw [hdeliveries, hquiet, Nat.add_zero]
    have hmem {p : QueueMessage × Nat} (hp : p ∈ s'.tallies) : p = (m, 0) ∨ p ∈ s.tallies :=
      Multiset.mem_cons.mp (Multiset.mem_of_le hle hp)
    refine ⟨hwithin, Multiset.nodup_of_le (Multiset.map_le_map hle) ?_, ?_, ?_, ?_⟩
    · rw [Multiset.map_cons, Multiset.nodup_cons]
      refine ⟨fun hin => ?_, h.unique⟩
      obtain ⟨p, hp, hseq⟩ := Multiset.mem_map.mp hin
      have := h.known p hp
      dsimp only at hseq
      omega
    · intro p hp
      rcases hmem hp with rfl | hp
      · dsimp only
        omega
      · have := h.known p hp
        omega
    · intro m' hm'
      rw [hsame]
      exact h.logged m' (by omega)
    · intro p hp
      rw [hsame]
      rcases hmem hp with rfl | hp
      · exact h.logged m (by omega)
      · exact h.counted p hp
  | one id sub m count rest hevents hn hbefore hafter =>
    have hother (m' : QueueMessage) (hne : m'.sequence ≠ m.sequence) :
        s'.deliveries m' = s.deliveries m' := by
      have hm : m ≠ m' := fun heq => hne (heq ▸ rfl)
      rw [hdeliveries, hevents]
      simp [Event.delivers, hm]
    have hunique := h.unique
    have hcounted := h.counted
    have hknown := h.known
    rw [hbefore] at hunique hcounted hknown
    rw [Multiset.map_cons, Multiset.nodup_cons] at hunique
    obtain ⟨hm, hrest⟩ := Multiset.forall_mem_cons.mp hknown
    obtain ⟨hcm, hcrest⟩ := Multiset.forall_mem_cons.mp hcounted
    refine ⟨hwithin, ?_, ?_, ?_, ?_⟩
    · rw [hafter, Multiset.map_cons, Multiset.nodup_cons]
      exact hunique
    · rw [hafter, hnext, hn]
      exact Multiset.forall_mem_cons.mpr ⟨hm, hrest⟩
    · rw [hnext, hn]
      intro m' hm'
      rw [hother m' (hm.trans_lt hm').ne']
      exact h.logged m' hm'
    · rw [hafter]
      refine Multiset.forall_mem_cons.mpr ⟨?_, fun p hp => ?_⟩
      · rw [hdeliveries, hevents, hcm]
        simp [Event.delivers]
      · rw [hother p.1 fun heq => hunique.1 (Multiset.mem_map.mpr ⟨p, hp, heq⟩)]
        exact hcrest p hp

/-- **The count of a lease tells whether its message is used up.** -/
theorem Counted.usedUp_iff (hcap : cfg.maxDeliveryCount.toNat < 2 ^ 32 - 1) (h : Counted cfg s)
    {e : Nat × LeaseRecord} (he : e ∈ s.inner.inFlight.entries) :
    UsedUp cfg s e.2.msg ↔ cfg.maxDeliveryCount < e.2.redeliveryCount + 1 := by
  have hmem : e.2.tally ∈ s.tallies :=
    Multiset.mem_add.mpr (.inl (Multiset.mem_add.mpr
      (.inr (Multiset.mem_coe.mpr (mem_map.mpr ⟨e, he, rfl⟩)))))
  rw [UInt32.lt_iff_toNat_lt, toNat_succ_of_le hcap (h.within.leases e he), UsedUp]
  exact Eq.to_iff (congrArg _ (h.counted _ hmem))

end CqServer.Queue
