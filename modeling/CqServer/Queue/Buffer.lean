import CqServer.Queue.Calls

/-!
# The order of the buffer

Messages are kept by falling priority in every run (`Falling`), which is what the search for a
place and the search for a message to evict rest on. Among messages of one priority the older
ones come first, and the buffer stays within its cap, as long as each publish enters the queue
before the next one takes its sequence and no sweep puts a message back (`InTurn`): a sweep that
finds nobody connected looks neither at the sequences nor at the cap.
-/

namespace CqServer.Queue

open Lib List

/-- By falling priority. -/
def Falling (buffer : List QueueMessage) : Prop :=
  buffer.Pairwise fun a b => b.priority ≤ a.priority

/-- The order of delivery: a higher priority first, then the earlier publish. -/
def QueueMessage.Before (a b : QueueMessage) : Prop :=
  b.priority < a.priority ∨ a.priority = b.priority ∧ a.sequence < b.sequence

instance (a b : QueueMessage) : Decidable (a.Before b) := inferInstanceAs (Decidable (_ ∨ _))

structure Tidy (cfg : Config) (buffer : List QueueMessage) : Prop where
  sorted : buffer.Pairwise QueueMessage.Before
  bounded : buffer.length ≤ cfg.maxBuffer

variable {buffer rest : List QueueMessage} {m : QueueMessage}

theorem falling_of_sorted (h : buffer.Pairwise QueueMessage.Before) : Falling buffer := by
  refine h.imp ?_
  intro a b hab
  rcases hab with hlt | ⟨heq, -⟩
  · exact Int.le_of_lt hlt
  · exact Int.le_of_eq heq.symm

/-- Every message is at least as urgent as the last one. -/
theorem Falling.last_le (h : Falling buffer) {last x : QueueMessage}
    (hlast : buffer.getLast? = some last) (hx : x ∈ buffer) : last.priority ≤ x.priority := by
  obtain ⟨front, rfl⟩ := getLast?_eq_some_iff.mp hlast
  rcases mem_concat.mp hx with hx | rfl
  · exact (pairwise_append.mp h).2.2 x hx last (mem_singleton_self _)
  · exact Int.le_refl _

/-- A message goes behind those that are as urgent and before the others. -/
theorem insertByPriority_split (h : Falling buffer) (m : QueueMessage) :
    ∃ front back, buffer = front ++ back ∧ insertByPriority buffer m = front ++ m :: back ∧
      (∀ x ∈ front, m.priority ≤ x.priority) ∧ ∀ x ∈ back, x.priority < m.priority := by
  unfold insertByPriority
  split
  · rename_i hnil
    rw [getLast?_eq_none_iff] at hnil
    subst hnil
    exact ⟨[], [], rfl, rfl, by simp, by simp⟩
  · rename_i last hlast
    split
    · rename_i hle
      refine ⟨buffer, [], (append_nil _).symm, rfl, ?_, by simp⟩
      intro x hx
      exact Int.le_trans hle (h.last_le hlast hx)
    · rw [span_eq_takeWhile_dropWhile]
      refine ⟨_, _, takeWhile_append_dropWhile.symm, rfl, ?_, ?_⟩
      · intro x hx
        have hall := all_eq_true.mp (all_takeWhile) x hx
        simpa using hall
      · -- the first message behind the place is less urgent, and the others follow it
        intro x hx
        cases hdrop : buffer.dropWhile fun x => !decide (x.priority < m.priority) with
        | nil =>
          rw [hdrop] at hx
          cases hx
        | cons y ys =>
          have hy : y.priority < m.priority := by
            have := head?_dropWhile_not (fun x => !decide (x.priority < m.priority)) buffer
            rw [hdrop] at this
            simpa using this
          have hfall := h.sublist (dropWhile_sublist fun x => !decide (x.priority < m.priority))
          rw [hdrop] at hx hfall
          rcases mem_cons.mp hx with rfl | hx
          · exact hy
          · exact Int.lt_of_le_of_lt ((pairwise_cons.mp hfall).1 x hx) hy

theorem pairwise_insertByPriority {R : QueueMessage → QueueMessage → Prop} (h : Falling buffer)
    (hR : buffer.Pairwise R) (hbefore : ∀ x ∈ buffer, m.priority ≤ x.priority → R x m)
    (hafter : ∀ x ∈ buffer, x.priority < m.priority → R m x) :
    (insertByPriority buffer m).Pairwise R := by
  obtain ⟨front, back, rfl, hins, hfront, hback⟩ := insertByPriority_split h m
  obtain ⟨hf, hb, hfb⟩ := pairwise_append.mp hR
  rw [hins, pairwise_append, pairwise_cons]
  refine ⟨hf, ⟨fun x hx => hafter x (mem_append_right _ hx) (hback x hx), hb⟩, ?_⟩
  intro x hx y hy
  rcases mem_cons.mp hy with rfl | hy
  · exact hbefore x (mem_append_left _ hx) (hfront x hx)
  · exact hfb x hx y hy

theorem Falling.insert (h : Falling buffer) : Falling (insertByPriority buffer m) :=
  pairwise_insertByPriority h h (fun _ _ hle => hle) fun _ _ hlt => Int.le_of_lt hlt

theorem sorted_insert (h : buffer.Pairwise QueueMessage.Before)
    (hlate : ∀ x ∈ buffer, x.priority = m.priority → x.sequence < m.sequence) :
    (insertByPriority buffer m).Pairwise QueueMessage.Before := by
  refine pairwise_insertByPriority (falling_of_sorted h) h ?_ fun x _ hlt => .inl hlt
  intro x hx hle
  rcases Int.lt_or_eq_of_le hle with hlt | heq
  · exact .inl hlt
  · exact .inr ⟨heq.symm, hlate x hx heq.symm⟩

/-! ## Eviction -/

theorem evictOneForCap_sublist (h : evictOneForCap buffer = some (m, rest)) : rest <+ buffer := by
  unfold evictOneForCap at h
  split at h
  · cases h
  · obtain ⟨x, -, heq⟩ := Option.map_eq_some_iff.mp h
    cases heq
    exact eraseP_sublist

theorem makeRoom_sublist (cap fuel : Nat) (buffer : List QueueMessage) :
    (makeRoom cap fuel buffer).1 <+ buffer := by
  induction fuel generalizing buffer with
  | zero => exact Sublist.refl _
  | succ fuel ih =>
    unfold makeRoom
    split
    · split
      · rename_i m rest hevict
        exact (ih rest).trans (evictOneForCap_sublist hevict)
      · exact Sublist.refl _
    · exact Sublist.refl _

/-- **The least urgent message goes**: the priorities that are left are the highest ones. -/
theorem Falling.evict (h : Falling buffer) (hevict : evictOneForCap buffer = some (m, rest)) :
    buffer.map (·.priority) = rest.map (·.priority) ++ [m.priority] := by
  unfold evictOneForCap at hevict
  split at hevict
  · cases hevict
  · rename_i last hlast
    obtain ⟨x, hfind, heq⟩ := Option.map_eq_some_iff.mp hevict
    cases heq
    obtain ⟨hlow, before, after, rfl, hbefore⟩ := find?_eq_some_iff_append.mp hfind
    have hm : m.priority = last.priority := of_decide_eq_true hlow
    -- behind the message that goes all are of its priority
    have hafter : after.map (·.priority) = replicate after.length m.priority := by
      refine map_eq_replicate_iff.mpr fun x hx => Int.le_antisymm ?_ ?_
      · exact (pairwise_cons.mp (pairwise_append.mp h).2.1).1 x hx
      · rw [hm]
        exact h.last_le hlast (by simp [hx])
    rw [eraseP_append_right _ (by simpa using hbefore), eraseP_cons, hlow]
    simp only [map_append, map_cons, cond_true, hafter, append_assoc]
    rw [← replicate_succ, ← replicate_succ']

/-- What the loop leaves and what it drops, seen by their priorities. -/
theorem Falling.makeRoom {cap fuel : Nat} (hcap : 0 < cap) (h : Falling buffer)
    (hfuel : buffer.length ≤ fuel) :
    (makeRoom cap fuel buffer).1.map (·.priority) = (buffer.map (·.priority)).take (cap - 1) ∧
      (makeRoom cap fuel buffer).2.map (·.priority) =
        ((buffer.map (·.priority)).drop (cap - 1)).reverse := by
  induction fuel generalizing buffer with
  | zero =>
    obtain rfl : buffer = [] := length_eq_zero_iff.mp (Nat.le_zero.mp hfuel)
    simp [Queue.makeRoom]
  | succ fuel ih =>
    unfold Queue.makeRoom
    split
    · rename_i hfull
      have hne : buffer ≠ [] := by
        rintro rfl
        simp at hfull
        omega
      obtain ⟨m, rest, hevict⟩ := evictOneForCap_isSome hne
      have hlength := (evictOneForCap_perm hevict).length_eq
      rw [length_cons] at hlength
      have hle : cap - 1 ≤ (rest.map (·.priority)).length := by
        rw [length_map]
        omega
      obtain ⟨hleft, hdropped⟩ := ih (h.sublist (evictOneForCap_sublist hevict)) (by omega)
      rw [hevict, h.evict hevict, take_append_of_le_length hle, drop_append_of_le_length hle]
      simp [hleft, hdropped]
    · have hle : (buffer.map (·.priority)).length ≤ cap - 1 := by
        rw [length_map]
        omega
      rw [take_of_length_le hle, drop_of_length_le hle]
      exact ⟨rfl, rfl⟩

/-! ## What a step does to the buffer -/

variable {cfg : Config} {registered : String → Bool} {s s' : State} {a : Action}

/-- **A step and the buffer**: it stays, it is dealt out, a message is published into it or one is
put back. -/
theorem step_buffer (h : step cfg registered s a = some s') :
    s'.inner.buffer = s.inner.buffer ∨ s'.inner.buffer = [] ∨
    ∃ call now order m, a = .resume call now order ∧
      (s.next call = some (.publish m) ∧ s.inner.consumers = [] ∧
          s'.inner.buffer = insertByPriority
            (makeRoom cfg.maxBuffer s.inner.buffer.length s.inner.buffer).1 m ∨
        s.next call = some (.rebuffer m) ∧
          s'.inner.buffer = insertByPriority s.inner.buffer m) := by
  cases step_does h with
  | start hbegins =>
    cases hbegins with
    | join hdealt hbuffer => exact .inr (.inl hbuffer)
    | publish | ack | noAck | sweep => exact .inl rfl
  | leave | extend => exact .inl rfl
  | @resume call now order top rest o hcall ho =>
    have hnext : s.next call = some top := by rw [State.next, hcall]; rfl
    cases Section.run_does ho with
    | hand hpick => exact .inl hpick.buffer
    | buffer hnobody => exact .inr (.inr ⟨call, now, order, _, rfl, .inl ⟨hnext, hnobody, rfl⟩⟩)
    | rebuffer => exact .inr (.inr ⟨call, now, order, _, rfl, .inr ⟨hnext, rfl⟩⟩)
    | lease | send | idle | sweep | exhaust | letter | strand => exact .inl rfl

variable {acts : List Action}

/-- **In every run** the buffer is in falling order. -/
theorem falling_of_run {Ok : State → Action → Prop}
    (hrun : Run (step cfg registered) Ok .init acts s) : Falling s.inner.buffer := by
  have hinit : Falling State.init.inner.buffer := Pairwise.nil
  refine hrun.invariant (P := fun s => Falling s.inner.buffer) ?_ hinit
  intro s a t hs _ hstep
  rcases step_buffer hstep with heq | hnil | ⟨-, -, -, m, -, ⟨-, -, hbuffer⟩ | ⟨-, hbuffer⟩⟩
  · rw [heq]
    exact hs
  · rw [hnil]
    exact Pairwise.nil
  · rw [hbuffer]
    exact Falling.insert (hs.sublist (makeRoom_sublist _ _ _))
  · rw [hbuffer]
    exact hs.insert

/-! ## Publishes in turn -/

def Section.entering : Section → Option QueueMessage
  | .publish m => some m
  | _ => none

/-- The published messages that have their sequence and not yet their place. -/
def State.waiting (s : State) : List QueueMessage := s.calls.flatten.filterMap Section.entering

/-- A publish takes its sequence when no other is on its way into the queue, and no sweep puts a
message back. A queue that is its own dead-letter queue publishes in the round of a sweep. -/
def InTurn (cfg : Config) (s : State) : Action → Prop
  | .publish _ _ => s.waiting = []
  | .resume call _ _ =>
    match s.next call with
    | some (.redeliver _ lease) =>
      cfg.maxDeliveryCount < lease.redeliveryCount + 1 → cfg.dlqName = some cfg.name →
        s.waiting = []
    | some (.rebuffer _) => False
    | _ => True
  | _ => True

structure Ordered (cfg : Config) (s : State) : Prop where
  tidy : Tidy cfg s.inner.buffer
  older : ∀ x ∈ s.inner.buffer, x.sequence ≤ s.nextSequence
  one : s.waiting.length ≤ 1
  younger : ∀ m ∈ s.waiting, m.sequence ≤ s.nextSequence ∧
    ∀ x ∈ s.inner.buffer, x.sequence < m.sequence

theorem waiting_start (s : State) (o : Outcome) :
    (s.start o).waiting = s.waiting ++ o.todo.filterMap Section.entering := by
  simp [State.waiting, State.start]

theorem waiting_publishCall (m : QueueMessage) :
    (publishCall cfg m).filterMap Section.entering = [m] := by
  unfold publishCall
  split <;> rfl

/-- The call at hand has what it still does replaced. -/
theorem waiting_resume {call : Nat} {top : Section} {rest : List Section}
    (hcall : s.calls[call]? = some (top :: rest)) (o : Outcome) :
    ∃ before after, s.waiting = before ++ top.entering.toList ++ after ∧
      (s.goOn call rest o).waiting = before ++ o.todo.filterMap Section.entering ++ after := by
  obtain ⟨hlt, hget⟩ := List.getElem?_eq_some_iff.mp hcall
  refine ⟨(s.calls.take call).flatten.filterMap Section.entering,
    rest.filterMap Section.entering ++
      (s.calls.drop (call + 1)).flatten.filterMap Section.entering, ?_, ?_⟩
  · rw [State.waiting]
    conv_lhs => rw [← take_append_drop call s.calls, drop_eq_getElem_cons hlt, hget]
    cases htop : top.entering <;> simp [htop]
  · rw [State.waiting, State.goOn, set_eq_take_append_cons_drop, if_pos hlt]
    simp

variable {o : Outcome}

/-- A message is published while none is on its way. -/
theorem Ordered.publish (h : Ordered cfg s)
    (hbuffer : s'.inner.buffer = s.inner.buffer) (hnext : s'.nextSequence = s.nextSequence + 1)
    (hm : m.sequence = s.nextSequence + 1) (hwaiting : s'.waiting = [m]) : Ordered cfg s' where
  tidy := hbuffer ▸ h.tidy
  older x hx := by
    have := h.older x (hbuffer ▸ hx)
    omega
  one := by rw [hwaiting]; exact le_rfl
  younger := by
    rw [hwaiting, hbuffer, hnext, forall_mem_singleton, hm]
    exact ⟨le_rfl, fun x hx => Nat.lt_succ_of_le (h.older x hx)⟩

/-- What is on its way may be handed to a consumer, and the buffer dealt out. -/
theorem Ordered.shrink (h : Ordered cfg s)
    (hbuffer : s'.inner.buffer <+ s.inner.buffer) (hnext : s'.nextSequence = s.nextSequence)
    (hwaiting : s'.waiting <+ s.waiting) : Ordered cfg s' where
  tidy := ⟨h.tidy.sorted.sublist hbuffer, hbuffer.length_le.trans h.tidy.bounded⟩
  older x hx := hnext ▸ h.older x (hbuffer.subset hx)
  one := hwaiting.length_le.trans h.one
  younger m hm := by
    obtain ⟨hle, hlt⟩ := h.younger m (hwaiting.subset hm)
    exact ⟨hnext ▸ hle, fun x hx => hlt x (hbuffer.subset hx)⟩

/-- The message that is on its way enters the buffer. -/
theorem Ordered.enter (h : Ordered cfg s) (hm : m ∈ s.waiting)
    (hnext : s'.nextSequence = s.nextSequence) (hbuffer : s'.inner.buffer =
      insertByPriority (makeRoom cfg.maxBuffer s.inner.buffer.length s.inner.buffer).1 m)
    (hwaiting : s'.waiting = []) : Ordered cfg s' := by
  have hsub := makeRoom_sublist cfg.maxBuffer s.inner.buffer.length s.inner.buffer
  have hleft := ((falling_of_sorted h.tidy.sorted).makeRoom cfg.maxBuffer_pos le_rfl).1
  have hpos := cfg.maxBuffer_pos
  obtain ⟨hle, hlt⟩ := h.younger m hm
  constructor
  case tidy =>
    rw [hbuffer]
    refine ⟨sorted_insert (h.tidy.sorted.sublist hsub) fun x hx _ => hlt x (hsub.subset hx), ?_⟩
    have hlength := congrArg length hleft
    rw [length_map, length_take] at hlength
    rw [(insertByPriority_perm _ m).length_eq, length_cons, hlength]
    omega
  case older =>
    intro x hx
    rw [hbuffer] at hx
    rw [hnext]
    rcases mem_cons.mp ((insertByPriority_perm _ m).mem_iff.mp hx) with rfl | hx
    · exact hle
    · exact h.older x (hsub.subset hx)
  case one => rw [hwaiting]; exact Nat.zero_le 1
  case younger =>
    rw [hwaiting]
    exact fun _ hx => nomatch hx

theorem Ordered.resume (h : Ordered cfg s) {call now : Nat} {order : List Nat} {top : Section}
    {rest : List Section} (hok : InTurn cfg s (.resume call now order))
    (hcall : s.calls[call]? = some (top :: rest))
    (ho : top.run cfg registered now order s.inner s.nextSequence = some o) :
    Ordered cfg (s.goOn call rest o) := by
  have hnext : s.next call = some top := by rw [State.next, hcall]; rfl
  simp only [InTurn, hnext] at hok
  obtain ⟨before, after, hold, hnew⟩ := waiting_resume hcall o
  have hdrop : before ++ after <+ s.waiting := by
    rw [hold, append_assoc]
    exact (Sublist.refl _).append (sublist_append_right _ _)
  have hkept (hnone : o.todo.filterMap Section.entering = []) :
      (s.goOn call rest o).waiting <+ s.waiting := by
    rw [hnew, hnone, append_nil]
    exact hdrop
  cases Section.run_does ho with
  | hand hpick => exact h.shrink (hpick.buffer ▸ Sublist.refl _) rfl (hkept rfl)
  | buffer =>
    -- it was the only message on its way
    have hone := h.one
    rw [hold] at hone
    simp only [Section.entering, Option.toList_some, length_append, length_singleton] at hone
    have hbefore : before = [] := length_eq_zero_iff.mp (by omega)
    have hafter : after = [] := length_eq_zero_iff.mp (by omega)
    rw [hbefore, hafter] at hold hnew
    exact h.enter (hold ▸ mem_singleton_self _) rfl rfl hnew
  | lease | send | idle | exhaust | strand => exact h.shrink (Sublist.refl _) rfl (hkept rfl)
  | sweep =>
    refine h.shrink (Sublist.refl _) rfl (hkept ?_)
    rw [filterMap_map]
    exact filterMap_eq_nil_iff.mpr fun _ _ => rfl
  | letter hused hm hown =>
    rw [hok hused hown] at hdrop
    obtain ⟨rfl, rfl⟩ := append_eq_nil_iff.mp (sublist_nil.mp hdrop)
    rw [waiting_publishCall] at hnew
    exact h.publish rfl rfl hm hnew
  | rebuffer => exact hok.elim

theorem Ordered.step (h : Ordered cfg s) (hok : InTurn cfg s a)
    (hstep : step cfg registered s a = some s') : Ordered cfg s' := by
  cases step_does hstep with
  | start hbegins =>
    have hwaiting := waiting_start s
    cases hbegins with
    | publish hm =>
      refine h.publish rfl rfl hm ((hwaiting _).trans ?_)
      rw [hok]
      exact waiting_publishCall _
    | join hdealt hbuffer =>
      refine h.shrink (hbuffer ▸ nil_sublist _) rfl ?_
      simp [hwaiting, Section.entering]
    | ack | noAck | sweep =>
      refine h.shrink (Sublist.refl _) rfl ?_
      rw [hwaiting]
      exact (append_nil _).symm ▸ Sublist.refl _
  | leave | extend => exact h.shrink (Sublist.refl _) rfl (Sublist.refl _)
  | resume hcall ho => exact h.resume hok hcall ho

/-- **The buffer is in the order of delivery and within its cap** in every run whose publishes
enter the queue in turn and whose sweeps put nothing back. -/
theorem buffer_tidy (hrun : Run (step cfg registered) (InTurn cfg) .init acts s) :
    Tidy cfg s.inner.buffer := by
  have hinit : Ordered cfg .init :=
    ⟨⟨.nil, Nat.zero_le _⟩, (fun _ hx => nomatch hx), Nat.zero_le _, (fun _ hx => nomatch hx)⟩
  exact (hrun.invariant (fun _ _ _ h hok hstep => Ordered.step h hok hstep) hinit).tidy

/-- Room for one message, and ten milliseconds to acknowledge. -/
def single : Config where
  name := "/single"
  leaseMs := some 10
  maxBuffer := 1
  maxBuffer_pos := Nat.one_pos

instance (cfg : Config) (s : State) : DecidablePred (InTurn cfg s)
  | .publish _ _ => inferInstanceAs (Decidable (s.waiting = []))
  | .resume call _ _ =>
    match h : s.next call with
    | some (.redeliver _ lease) =>
      decidable_of_iff (cfg.maxDeliveryCount < lease.redeliveryCount + 1 →
        cfg.dlqName = some cfg.name → s.waiting = []) (by simp [InTurn, h])
    | some (.rebuffer _) => isFalse (by simp [InTurn, h])
    | none | some (.publish _) | some (.deliver ..) | some (.sweep _) =>
      isTrue (by simp [InTurn, h])
  | .addConsumer _ | .removeConsumer _ | .ack _ | .extendLease .. | .sweep _ =>
    inferInstanceAs (Decidable True)

def pair : Config := { name := "/pair", leaseMs := some 10, maxBuffer := 2 }

/-- Four publishes of three priorities into room for two. -/
def queued : List Action :=
  [.publish .null {}, .resume 0 0 [], .resume 0 0 [],
    .publish .null { priority := 5 }, .resume 1 0 [], .resume 1 0 [],
    .publish .null { priority := 7 }, .resume 2 0 [], .resume 2 0 [],
    .publish .null { priority := 5 }, .resume 3 0 [], .resume 3 0 []]

theorem buffer_tidy_queued : ∃ s, Run (step pair fun _ => false) (InTurn pair) .init queued s ∧
      s.inner.buffer.map (fun m => (m.priority, m.sequence)) = [(7, 3), (5, 4)] ∧
      Tidy pair s.inner.buffer := by
  refine Run.exists_of_check
    (fun s => s.inner.buffer.map (fun m => (m.priority, m.sequence)) = [(7, 3), (5, 4)])
    (by decide +kernel) fun s hrun hend => ?_
  exact ⟨hend, buffer_tidy hrun⟩

/-- A consumer leaves with two messages, and a sweep puts both back, the younger first. -/
theorem put_back_out_of_order : ∃ s, Run (step single fun _ => false) (fun _ _ => True) .init
      [.addConsumer "a", .publish .null {}, .resume 1 0 [], .resume 1 0 [], .resume 1 0 [],
        .publish .null {}, .resume 2 0 [], .resume 2 0 [], .resume 2 0 [], .removeConsumer "a",
        .sweep true, .resume 3 20 [2, 1], .resume 3 20 [], .resume 3 20 [], .resume 3 20 [],
        .resume 3 20 []] s ∧
      s.inner.buffer.map (·.sequence) = [2, 1] ∧ s.inner.buffer.map (·.priority) = [0, 0] ∧
      single.maxBuffer < s.inner.buffer.length := by
  decide +kernel

/-- **What is discarded for the cap**: nothing that is kept is less urgent, exactly when the new
message is as urgent as the one that stands at the last place under the cap. -/
theorem eviction_spares_iff {Ok : State → Action → Prop} {call now : Nat} {order : List Nat}
    (hrun : Run (step cfg registered) Ok .init acts s) (hnobody : s.inner.consumers = [])
    (hnext : s.next call = some (.publish m))
    (hstep : step cfg registered s (.resume call now order) = some s') :
    (∀ e, .evicted e ∈ s'.log.drop s.log.length → ∀ k ∈ s'.inner.buffer,
        e.priority ≤ k.priority) ↔
      ∀ x, s.inner.buffer[cfg.maxBuffer - 1]? = some x → x.priority ≤ m.priority := by
  have hfall := falling_of_run hrun
  obtain ⟨hleft, hdropped⟩ := hfall.makeRoom cfg.maxBuffer_pos le_rfl
  obtain ⟨⟨⟩⟩ | _ | _ | ⟨hcall, ho⟩ := step_does hstep
  rw [State.next, hcall] at hnext
  cases hnext
  cases Section.run_does ho with
  | hand hpick =>
    have hmem := hpick.mem
    rw [hnobody] at hmem
    cases hmem
  | buffer =>
    have hsorted : (s.inner.buffer.map (·.priority)).Pairwise fun a b => b ≤ a :=
      pairwise_map.mpr hfall
    rw [← take_append_drop (cfg.maxBuffer - 1) (s.inner.buffer.map _)] at hsorted
    obtain ⟨-, hdrop, hacross⟩ := pairwise_append.mp hsorted
    rw [← hleft] at hacross
    rw [State.goOn, drop_left]
    constructor
    · intro h x hx
      have hmem : x.priority ∈ (s.inner.buffer.map (·.priority)).drop (cfg.maxBuffer - 1) := by
        refine mem_of_getElem? (i := 0) ?_
        rw [getElem?_drop, getElem?_map, Nat.add_zero, hx]
        rfl
      rw [← mem_reverse, ← hdropped] at hmem
      obtain ⟨e, he, heq⟩ := mem_map.mp hmem
      rw [← heq]
      exact h e (by simp [he]) m ((insertByPriority_perm _ m).mem_iff.mpr mem_cons_self)
    · intro h e he k hk
      have hmem : e.priority ∈ (s.inner.buffer.map (·.priority)).drop (cfg.maxBuffer - 1) := by
        rw [← mem_reverse, ← hdropped]
        exact mem_map_of_mem (by simpa using he)
      rcases mem_cons.mp ((insertByPriority_perm _ m).mem_iff.mp hk) with rfl | hk
      · -- the first of the dropped priorities is the highest
        cases hcons : (s.inner.buffer.map (·.priority)).drop (cfg.maxBuffer - 1) with
        | nil =>
          rw [hcons] at hmem
          cases hmem
        | cons p ps =>
          have hp : (s.inner.buffer.map (·.priority))[cfg.maxBuffer - 1]? = some p := by
            rw [← Nat.add_zero (_ - 1), ← getElem?_drop, hcons]
            rfl
          rw [getElem?_map] at hp
          obtain ⟨x, hx, rfl⟩ := Option.map_eq_some_iff.mp hp
          rw [hcons] at hmem hdrop
          refine Int.le_trans ?_ (h x hx)
          rcases mem_cons.mp hmem with heq | hmem
          · exact Int.le_of_eq heq
          · exact (pairwise_cons.mp hdrop).1 _ hmem
      · exact hacross _ (mem_map_of_mem hk) _ hmem

/-- A message of priority 0 makes room for one of priority 5. -/
theorem eviction_spares_iff_full : ∃ s s', step single (fun _ => false) s (.resume 1 0 []) =
      some s' ∧ .evicted ⟨1, .null, 0, none⟩ ∈ s'.log.drop s.log.length ∧
      s'.inner.buffer = [⟨2, .null, 5, none⟩] ∧
      ((∀ e, .evicted e ∈ s'.log.drop s.log.length → ∀ k ∈ s'.inner.buffer,
          e.priority ≤ k.priority) ↔
        ∀ x, s.inner.buffer[single.maxBuffer - 1]? = some x → x.priority ≤ 5) := by
  obtain ⟨s, hrun, hnobody, hnext, s', hstep, hevicted, hkept⟩ : ∃ s,
      Run (step single fun _ => false) (fun _ _ => True) .init
        [.publish .null {}, .resume 0 0 [], .resume 0 0 [],
          .publish .null { priority := 5 }, .resume 1 0 []] s ∧ s.inner.consumers = [] ∧
      s.next 1 = some (.publish ⟨2, .null, 5, none⟩) ∧
      ∃ s', step single (fun _ => false) s (.resume 1 0 []) = some s' ∧
        .evicted ⟨1, .null, 0, none⟩ ∈ s'.log.drop s.log.length ∧
        s'.inner.buffer = [⟨2, .null, 5, none⟩] := by decide +kernel
  exact ⟨s, s', hstep, hevicted, hkept, eviction_spares_iff hrun hnobody hnext hstep⟩

/-- An urgent message makes room for one that is not. -/
theorem urgent_discarded : ∃ s, Run (step single fun _ => false) (fun _ _ => True) .init
      [.publish .null { priority := 5 }, .resume 0 0 [], .resume 0 0 [],
        .publish .null {}, .resume 1 0 [], .resume 1 0 []] s ∧
      .evicted ⟨1, .null, 5, none⟩ ∈ s.log ∧ s.inner.buffer = [⟨2, .null, 0, none⟩] := by
  decide +kernel

end CqServer.Queue
