import CqServer.Queue.Conservation

/-!
# Deliveries and acknowledgements

A lease is filed under the next delivery id, and an acknowledgement takes it out for
good: the message has no way back, since every other place it could turn up in would be
a second one (`acked_is_final`).
-/

namespace CqServer.Queue

open Lib List

def Event.leasedId : Event → Option Nat
  | .leased deliveryId _ _ _ => some deliveryId
  | _ => none

def Event.ackedId : Event → Option Nat
  | .acked deliveryId _ => some deliveryId
  | _ => none

def leasedIds (es : List Event) : List Nat := es.filterMap Event.leasedId
def ackedIds (es : List Event) : List Nat := es.filterMap Event.ackedId

@[simp] theorem leasedIds_append (es es' : List Event) :
    leasedIds (es ++ es') = leasedIds es ++ leasedIds es' := filterMap_append

@[simp] theorem ackedIds_append (es es' : List Event) :
    ackedIds (es ++ es') = ackedIds es ++ ackedIds es' := filterMap_append

/-- The event brings the message back into circulation, or to the dead letters. -/
def Event.Revives (m : QueueMessage) : Event → Prop
  | .leased _ _ m' _ => m' = m
  | .buffered m' => m' = m
  | .rebuffered m' => m' = m
  | .exhausted m' _ => m' = m
  | _ => False

def Event.place : Event → Option (Place × QueueMessage)
  | .leased deliveryId _ m _ => some (.lease deliveryId, m)
  | .buffered m => some (.buffer, m)
  | .rebuffered m => some (.buffer, m)
  | .evicted m => some (.evicted, m)
  | .acked _ m => some (.acked, m)
  | .exhausted m _ => some (.exhausted, m)
  | .sent _ m => some (.sent, m)
  | .published _ => none

/-! ## One section -/

/-- New leases are numbered from the last id on, an acknowledged id is one that was out and is
not any more, and what an event says of a message is so afterwards. -/
structure Outcome.Files (q : QueueInner) (o : Outcome) : Prop where
  ids : leasedIds o.events = range' (q.inFlight.last + 1) (leasedIds o.events).length
  last : o.inner.inFlight.last = q.inFlight.last + (leasedIds o.events).length
  kept : ∀ e ∈ o.inner.inFlight.entries,
    (∃ e' ∈ q.inFlight.entries, e'.1 = e.1) ∨ q.inFlight.last < e.1
  ackedOnce : (ackedIds o.events).Nodup
  acked : ∀ d ∈ ackedIds o.events,
    (∃ e ∈ q.inFlight.entries, e.1 = d) ∧ ∀ e ∈ o.inner.inFlight.entries, e.1 ≠ d
  placed : ∀ e ∈ o.events, ∀ x, e.place = some x → x ∈ innerPlaces o.inner + settled o.events

variable {o : Outcome} {q : QueueInner}

theorem Outcome.Files.quiet (hleased : leasedIds o.events = []) (hacked : ackedIds o.events = [])
    (hlast : o.inner.inFlight.last = q.inFlight.last)
    (hkept : ∀ e ∈ o.inner.inFlight.entries, ∃ e' ∈ q.inFlight.entries, e'.1 = e.1)
    (hplaced : ∀ e ∈ o.events, ∀ x, e.place = some x → x ∈ innerPlaces o.inner + settled o.events) :
    o.Files q where
  ids := by
    rw [hleased]
    rfl
  last := by
    rw [hleased, hlast]
    rfl
  kept e he := .inl (hkept e he)
  ackedOnce := by
    rw [hacked]
    exact nodup_nil
  acked d hd := by
    rw [hacked] at hd
    cases hd
  placed := hplaced

variable {m : QueueMessage}

variable {x : Place × QueueMessage}

theorem mem_settled {es : List Event} {e : Event} (he : e ∈ es) (hx : x ∈ e.settled) :
    x ∈ settled es :=
  Multiset.mem_coe.mpr (mem_flatMap.mpr ⟨e, he, hx⟩)

variable {cfg : Config} {registered : String → Bool}

theorem files_buffer (q : QueueInner) (n : Nat) (m : QueueMessage)
    (room : List QueueMessage) (evicted : List QueueMessage) {last : Event}
    (hlast : last.place = some (.buffer, m)) :
    Outcome.Files q
      { inner := { q with buffer := insertByPriority room m }
        nextSequence := n
        events := evicted.map .evicted ++ [last] } := by
  have hnone : ∀ (f : Event → Option Nat), (∀ m', f (.evicted m') = none) → f last = none →
      (evicted.map Event.evicted ++ [last]).filterMap f = [] := by
    intro f hf hl
    simp [hf, hl]
  have hbuffer : last = .buffered m ∨ last = .rebuffered m := by
    cases last with
    | buffered m' =>
      cases hlast
      exact .inl rfl
    | rebuffered m' =>
      cases hlast
      exact .inr rfl
    | published _ | evicted _ | leased _ _ _ _ | sent _ _ | acked _ _ | exhausted _ _ => cases hlast
  have hids : last.leasedId = none ∧ last.ackedId = none := by
    rcases hbuffer with rfl | rfl <;> exact ⟨rfl, rfl⟩
  refine .quiet (hnone _ (fun _ => rfl) hids.1) (hnone _ (fun _ => rfl) hids.2) rfl
    (fun e he => ⟨e, he, rfl⟩) ?_
  intro e he x hx
  rcases mem_append.mp he with he' | he'
  · obtain ⟨m', -, rfl⟩ := mem_map.mp he'
    cases hx
    exact Multiset.mem_add.mpr (.inr (mem_settled he mem_cons_self))
  · obtain rfl := mem_singleton.mp he'
    rw [hlast] at hx
    cases hx
    have hin : m ∈ insertByPriority room m :=
      (insertByPriority_perm room m).mem_iff.mpr mem_cons_self
    exact Multiset.mem_add.mpr (.inl (Multiset.mem_add.mpr (.inl (mem_heldAt.mpr ⟨rfl, hin⟩))))

theorem Section.run_files {now : Nat} {order : List Nat} {n : Nat} {top : Section}
    (h : top.run cfg registered now order q n = some o) : o.Files q := by
  have hnothing : ∀ {o : Outcome}, o.events = [] →
      ∀ e ∈ o.events, ∀ x, e.place = some x → x ∈ innerPlaces o.inner + settled o.events := by
    intro o hnil e he
    rw [hnil] at he
    cases he
  cases run_does h with
  | hand hpick =>
    refine .quiet rfl rfl (by rw [hpick.inFlight]) ?_ (hnothing rfl)
    intro e he
    rw [hpick.inFlight] at he
    exact ⟨e, he, rfl⟩
  | buffer => exact files_buffer q n _ _ _ rfl
  | lease =>
    refine
      { ids := rfl
        last := rfl
        kept := forall_mem_concat (fun e he => .inl ⟨e, he, rfl⟩) (.inr (Nat.lt_succ_self _))
        ackedOnce := nodup_nil
        acked := fun d hd => nomatch hd
        placed := ?_ }
    · intro e he x hx
      obtain rfl := mem_singleton.mp he
      cases hx
      refine Multiset.mem_add.mpr (.inl (Multiset.mem_add.mpr (.inr (Multiset.mem_coe.mpr ?_))))
      simp [Tickets.issue]
  | send | exhaust =>
    refine .quiet rfl rfl rfl (fun e he => ⟨e, he, rfl⟩) ?_
    intro e he x hx
    obtain rfl := mem_singleton.mp he
    cases hx
    exact Multiset.mem_add.mpr (.inr (mem_settled mem_cons_self mem_cons_self))
  | letter =>
    refine .quiet rfl rfl rfl (fun e he => ⟨e, he, rfl⟩) ?_
    intro e he x hx
    rcases mem_cons.mp he with rfl | he
    · cases hx
      exact Multiset.mem_add.mpr (.inr (mem_settled mem_cons_self mem_cons_self))
    · obtain rfl := mem_singleton.mp he
      cases hx
  | idle | strand => exact .quiet rfl rfl rfl (fun e he => ⟨e, he, rfl⟩) (hnothing rfl)
  | sweep =>
    refine .quiet rfl rfl (Tickets.takeAll_last order q.inFlight) ?_ (hnothing rfl)
    intro e he
    exact ⟨e, (Tickets.entries_takeAll order q.inFlight).mem_iff.mpr (mem_append_right _ he), rfl⟩
  | rebuffer => exact files_buffer q n _ q.buffer [] rfl

/-! ## One step -/

variable {a : Action} {s s' : State}

theorem step_files (h : step cfg registered s a = some s') :
    ∃ o : Outcome, s'.inner = o.inner ∧ s'.log = s.log ++ o.events ∧ o.Files s.inner := by
  cases step_does h with
  | @start _ o hbegins =>
    refine ⟨o, rfl, rfl, ?_⟩
    cases hbegins with
    | publish =>
      refine .quiet rfl rfl rfl (fun e he => ⟨e, he, rfl⟩) ?_
      intro e he x hx
      obtain rfl := mem_singleton.mp he
      cases hx
    | join hdealt hbuffer hleases =>
      exact .quiet rfl rfl (congrArg Tickets.last hleases) (fun e he => ⟨e, hleases ▸ he, rfl⟩)
        fun e he => nomatch he
    | ack hget =>
      refine
        { ids := rfl
          last := rfl
          kept := fun e he => .inl ⟨e, (Tickets.mem_remove.mp he).1, rfl⟩
          ackedOnce := nodup_singleton _
          acked := ?_
          placed := ?_ }
      · intro d hd
        obtain rfl := mem_singleton.mp hd
        exact ⟨⟨_, Tickets.mem_of_get? hget, rfl⟩, fun e he => (Tickets.mem_remove.mp he).2⟩
      · intro e he x hx
        obtain rfl := mem_singleton.mp he
        cases hx
        exact Multiset.mem_add.mpr (.inr (mem_settled mem_cons_self mem_cons_self))
    | noAck | sweep =>
      exact .quiet rfl rfl rfl (fun e he => ⟨e, he, rfl⟩) fun e he => nomatch he
  | leave =>
    exact ⟨⟨removeConsumer s.inner _, 0, [], []⟩, rfl, (append_nil _).symm,
      .quiet rfl rfl rfl (fun e he => ⟨e, he, rfl⟩) fun e he => nomatch he⟩
  | @extend _ _ _ leases hlast hsame =>
    refine ⟨⟨{ s.inner with inFlight := leases }, 0, [], []⟩, rfl, (append_nil _).symm,
      .quiet rfl rfl hlast (fun e he => ?_) fun e he => nomatch he⟩
    have hids := hsame Prod.fst fun _ _ _ => rfl
    exact mem_map.mp (hids ▸ mem_map_of_mem he)
  | @resume _ _ _ _ _ o _ ho => exact ⟨o, rfl, rfl, Section.run_files ho⟩

/-! ## Whole runs -/

structure Numbered (s : State) : Prop where
  ids : leasedIds s.log = range' 1 s.inner.inFlight.last
  ackedOnce : (ackedIds s.log).Nodup
  acked : ∀ d ∈ ackedIds s.log, d ≤ s.inner.inFlight.last ∧ ∀ e ∈ s.inner.inFlight.entries, e.1 ≠ d

theorem Numbered.init : Numbered State.init := ⟨rfl, nodup_nil, fun _ h => nomatch h⟩

theorem Numbered.step (h : Numbered s) (hinner : s'.inner = o.inner)
    (hlog : s'.log = s.log ++ o.events) (hfiles : o.Files s.inner) : Numbered s' where
  ids := by
    rw [hlog, leasedIds_append, h.ids, hfiles.ids, hinner, hfiles.last, Nat.add_comm _ 1,
      range'_append_1]
  ackedOnce := by
    rw [hlog, ackedIds_append]
    refine h.ackedOnce.append hfiles.ackedOnce ?_
    -- an id that was given back is not out any more
    intro d hd hd'
    obtain ⟨⟨e, he, hed⟩, -⟩ := hfiles.acked d hd'
    exact (h.acked d hd).2 e he hed
  acked := by
    intro d hd
    rw [hlog, ackedIds_append] at hd
    rw [hinner, hfiles.last]
    rcases mem_append.mp hd with hd | hd
    · obtain ⟨hle, hout⟩ := h.acked d hd
      refine ⟨by omega, ?_⟩
      intro e he heq
      rcases hfiles.kept e he with ⟨e', he', heq'⟩ | hnew
      · exact hout e' he' (heq'.trans heq)
      · omega
    · obtain ⟨⟨e, he, rfl⟩, hout⟩ := hfiles.acked d hd
      have hle := s.inner.inFlight.issued e he
      exact ⟨by omega, hout⟩

theorem numbered_of_run {Ok : State → Action → Prop} {as : List Action}
    (hrun : Run (step cfg registered) Ok State.init as s) : Numbered s := by
  refine hrun.invariant (P := Numbered) ?_ Numbered.init
  intro s a s' h _ hstep
  obtain ⟨o, hinner, hlog, hfiles⟩ := step_files hstep
  exact h.step hinner hlog hfiles

theorem mem_places_of_settled (h : x ∈ settled s.log) : x ∈ s.places :=
  Multiset.mem_add.mpr (.inr h)

/-- The message stays acknowledged, and no event of the step brings it back. -/
theorem step_acked (hstep : step cfg registered s a = some s') (hacc : Accounted s)
    (hm : (Place.acked, m) ∈ s.places) :
    (Place.acked, m) ∈ s'.places ∧
      ∃ events, s'.log = s.log ++ events ∧ ∀ e ∈ events, ¬ e.Revives m := by
  obtain ⟨events, hconserves⟩ := step_conserves hstep
  obtain ⟨o, hinner, hlog, hfiles⟩ := step_files hstep
  obtain ⟨i, hmoves⟩ := hconserves.moves
  have hstays : (Place.acked, m) ∈ s'.places :=
    hmoves.stays not_edge_acked (Multiset.mem_add.mpr (.inl hm))
  refine ⟨hstays, o.events, hlog, ?_⟩
  intro e he hrevives
  -- the event would leave the message in a second place
  have hplace : ∀ p, e.place = some (p, m) → p = .acked := by
    intro p hp
    have hnew := hfiles.placed e he (p, m) hp
    refine place_unique (hacc.step hconserves).nodup ?_ hstays
    rw [State.places, hinner, hlog, settled_append]
    rcases Multiset.mem_add.mp hnew with hnew | hnew
    · exact Multiset.mem_add.mpr (.inl (Multiset.mem_add.mpr (.inl hnew)))
    · exact Multiset.mem_add.mpr (.inr (Multiset.mem_add.mpr (.inr hnew)))
  cases e with
  | leased d sub m' count | buffered m' | rebuffered m' | exhausted m' letter =>
    obtain rfl : m' = m := hrevives
    cases hplace _ rfl
  | published m' | evicted m' | sent sub m' | acked d m' => exact hrevives

/-- **An acknowledgement is final.** In every run delivery ids are handed out in increasing order,
`ack` returns true at most once for each, and after it did so the message delivered under the id is
in no other place, nothing brings it back, and it is never dead-lettered. -/
theorem acked_is_final {as as' : List Action} {s s' : State}
    (hrun : Run (step cfg registered) (fun _ _ => True) State.init as s)
    (hlater : Run (step cfg registered) (fun _ _ => True) s as' s') :
    (leasedIds s'.log).Pairwise (· < ·) ∧ (ackedIds s'.log).Nodup ∧ ∀ d m, .acked d m ∈ s.log →
        (∀ p, (p, m) ∈ s'.places → p = .acked) ∧
          (∃ events, s'.log = s.log ++ events ∧ ∀ e ∈ events, ¬ e.Revives m) ∧
          ∀ letter, .exhausted m letter ∉ s'.log := by
  have hwhole := hrun.append hlater
  have hnumbered := numbered_of_run hwhole
  have hnodup := (accounted_of_run hwhole).nodup
  refine ⟨?_, hnumbered.ackedOnce, ?_⟩
  · rw [hnumbered.ids]
    exact pairwise_lt_range'
  · intro d m hm
    have hstart : (Place.acked, m) ∈ s.places :=
      mem_places_of_settled (mem_settled hm mem_cons_self)
    -- along the later steps: accounted for, acknowledged, not brought back
    obtain ⟨-, hacked, hevents⟩ := hlater.invariant
      (P := fun t => Accounted t ∧ (Place.acked, m) ∈ t.places ∧
        ∃ events, t.log = s.log ++ events ∧ ∀ e ∈ events, ¬ e.Revives m)
      (by
        rintro t a t' ⟨hacc, hmem, events, hlog, hnone⟩ - hstep
        obtain ⟨hmem', events', hlog', hnone'⟩ := step_acked hstep hacc hmem
        obtain ⟨_, hconserves⟩ := step_conserves hstep
        refine ⟨hacc.step hconserves, hmem', events ++ events', ?_, ?_⟩
        · rw [hlog', hlog, append_assoc]
        · intro e he
          exact (mem_append.mp he).elim (hnone e) (hnone' e))
      ⟨accounted_of_run hrun, hstart, [], (append_nil _).symm, fun _ h => nomatch h⟩
    refine ⟨fun p hp => place_unique hnodup hp hacked, hevents, ?_⟩
    intro letter hletter
    have hex := mem_places_of_settled (mem_settled hletter mem_cons_self)
    cases place_unique hnodup hex hacked

def acknowledged : List Action :=
  [.addConsumer "a", .publish .null {}, .resume 1 0 [], .resume 1 0 [], .resume 1 0 [], .ack 1]

/-- A sweep that comes late, and a second acknowledgement. -/
def late : List Action := [.sweep true, .resume 3 20 [], .ack 1]

theorem acked_is_final_late : ∃ s s',
    Run (step orders fun _ => false) (fun _ _ => True) State.init acknowledged s ∧
      Run (step orders fun _ => false) (fun _ _ => True) s late s' ∧
      (ackedIds s.log = [1] ∧ ackedIds s'.log = [1]) ∧
      ∀ d m, .acked d m ∈ s.log → ∀ p, (p, m) ∈ s'.places → p = .acked := by
  simp only [exists_and_left]
  refine Run.exists_of_check
    (fun s => ∃ s', Run (step orders fun _ => false) (fun _ _ => True) s late s' ∧
      ackedIds s.log = [1] ∧ ackedIds s'.log = [1])
    (by decide +kernel) fun s hrun ⟨s', hlater, hids⟩ => ?_
  exact ⟨s', hlater, hids, fun d m hm => ((acked_is_final hrun hlater).2.2 d m hm).1⟩

end CqServer.Queue
