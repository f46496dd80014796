import CqServer.Queue.Calls

/-!
# Messages without a consumer

A publish decides that there is no consumer and buffers its message in one lock section.
A sweep decides it in one and puts the message back in the next. A consumer that joins
in between finds the buffer empty, and the message stays behind until the next consumer
joins (`stranded`). Without such a join the buffer is empty whenever there is a consumer
(`buffer_empty`).
-/

namespace CqServer.Queue

open Lib List

/-- No consumer joins while a sweep is between finding none and putting its message back. -/
def JoinsApart (s : State) : Action → Prop
  | .addConsumer _ => ∀ c ∈ s.calls, ∀ sec ∈ c, sec.rebuffers = false
  | _ => True

/-- With a consumer there, nothing is buffered and nothing is about to be put back. -/
def Served (s : State) : Prop :=
  s.inner.consumers ≠ [] → s.inner.buffer = [] ∧ ∀ c ∈ s.calls, ∀ sec ∈ c, sec.rebuffers = false

variable {cfg : Config} {registered : String → Bool}

theorem publishCall_not_rebuffers (m : QueueMessage) :
    ∀ sec ∈ publishCall cfg m, sec.rebuffers = false := by
  unfold publishCall
  split
  · intro sec hsec
    simp only [mem_cons, not_mem_nil, or_false] at hsec
    rcases hsec with rfl | rfl <;> rfl
  · intro sec hsec
    obtain rfl := mem_singleton.mp hsec
    rfl

/-- What a section that is not about to put a message back leaves, where there is a consumer. -/
theorem Section.run_served {now : Nat} {order : List Nat} {q : QueueInner} {n : Nat}
    {top : Section} {o : Outcome} (h : top.run cfg registered now order q n = some o)
    (hne : o.inner.consumers ≠ []) :
    q.consumers ≠ [] ∧ (top.rebuffers = false → q.buffer = [] →
      o.inner.buffer = [] ∧ ∀ sec ∈ o.todo, sec.rebuffers = false) := by
  cases run_does h with
  | hand hpick =>
    refine ⟨fun hnil => hne (hnil ▸ hpick.consumers).eq_nil, fun _ hbuffer =>
      ⟨hpick.buffer.trans hbuffer, fun sec hsec => ?_⟩⟩
    obtain rfl := mem_singleton.mp hsec
    rfl
  | buffer hnobody | strand hnobody => exact absurd hnobody hne
  | lease | send | idle | exhaust =>
    exact ⟨hne, fun _ hbuffer => ⟨hbuffer, fun _ hsec => nomatch hsec⟩⟩
  | sweep =>
    refine ⟨hne, fun _ hbuffer => ⟨hbuffer, ?_⟩⟩
    intro sec hsec
    obtain ⟨e, -, rfl⟩ := mem_map.mp hsec
    rfl
  | letter => exact ⟨hne, fun _ hbuffer => ⟨hbuffer, publishCall_not_rebuffers _⟩⟩
  | rebuffer => exact ⟨hne, fun hnot => nomatch hnot⟩

theorem Served.step {s s' : State} {a : Action} (h : Served s) (hok : JoinsApart s a)
    (hstep : step cfg registered s a = some s') : Served s' := by
  intro hne
  cases step_does hstep with
  | start hbegins =>
    cases hbegins with
    | join hdealt hbuffer =>
      refine ⟨hbuffer, forall_mem_concat hok ?_⟩
      rw [forall_mem_map]
      exact fun _ _ => rfl
    | publish => exact ⟨(h hne).1, forall_mem_concat (h hne).2 (publishCall_not_rebuffers _)⟩
    | ack | noAck => exact ⟨(h hne).1, forall_mem_concat (h hne).2 fun _ hsec => nomatch hsec⟩
    | sweep => exact ⟨(h hne).1, forall_mem_concat (h hne).2 (forall_mem_singleton.mpr rfl)⟩
  | leave =>
    refine h fun hnil => hne ?_
    simp [removeConsumer, hnil]
  | extend => exact h hne
  | resume hcall ho =>
    obtain ⟨hne', hserved⟩ := Section.run_served ho hne
    obtain ⟨hbuffer, hcalls⟩ := h hne'
    obtain ⟨htop, hrest⟩ := forall_mem_cons.mp (hcalls _ (mem_of_getElem? hcall))
    obtain ⟨hbuffer', htodo⟩ := hserved htop hbuffer
    refine ⟨hbuffer', fun c hc => ?_⟩
    rcases mem_or_eq_of_mem_set hc with hold | rfl
    · exact hcalls c hold
    · exact forall_mem_append.mpr ⟨htodo, hrest⟩

/-- **No message waits while there is a consumer**, in every run in which no consumer joins
between a sweep that finds none and its putting the message back. -/
theorem buffer_empty {as : List Action} {s : State}
    (hrun : Run (step cfg registered) JoinsApart State.init as s)
    (hconsumer : s.inner.consumers ≠ []) : s.inner.buffer = [] := by
  have hserved : Served s := hrun.invariant (P := Served)
    (fun _ _ _ h hok hstep => h.step hok hstep) (fun h => absurd rfl h)
  exact (hserved hconsumer).1

/-! ## A join in between -/

def tasks : Config := { name := "/tasks", leaseMs := some 10, maxBuffer_pos := defaultBuffer_pos }

/-- The message is delivered to a consumer that leaves; a sweep takes the lease out and finds
nobody. -/
def abandoned : List Action :=
  [.addConsumer "a", .publish .null {}, .resume 1 0 [], .resume 1 0 [], .resume 1 0 [],
    .removeConsumer "a", .sweep true, .resume 2 20 [1], .resume 2 20 []]

instance (s : State) : DecidablePred (JoinsApart s)
  | .addConsumer _ => inferInstanceAs (Decidable (∀ c ∈ s.calls, ∀ sec ∈ c, sec.rebuffers = false))
  | .publish _ _ | .removeConsumer _ | .ack _ | .extendLease _ _ _ | .sweep _ | .resume _ _ _ =>
    inferInstanceAs (Decidable True)

theorem buffer_empty_abandoned : ∃ s, Run (step tasks fun _ => false) JoinsApart State.init
        (abandoned ++ [.resume 2 20 [], .addConsumer "b", .resume 3 21 []]) s ∧
      s.Idle ∧ s.inner.consumers = ["b"] ∧ s.inner.inFlight.entries.length = 1 ∧
      s.inner.buffer = [] := by
  refine Run.exists_of_check
    (fun s => s.Idle ∧ s.inner.consumers = ["b"] ∧ s.inner.inFlight.entries.length = 1)
    (by decide +kernel) fun s hrun ⟨hidle, hconsumers, hleases⟩ => ?_
  exact ⟨hidle, hconsumers, hleases, buffer_empty hrun (by rw [hconsumers]; simp)⟩

/-- The next consumer joins first: it finds an empty buffer, and the message is put back behind
its back. -/
theorem stranded : ∃ s, Run (step tasks fun _ => false) (fun _ _ => True) State.init
        (abandoned ++ [.addConsumer "b", .resume 2 20 []]) s ∧
      s.Idle ∧ s.inner.consumers = ["b"] ∧ s.inner.buffer ≠ [] := by
  decide +kernel

end CqServer.Queue
