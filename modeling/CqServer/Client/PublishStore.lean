import Mathlib.Data.List.Basic
import CqServer.Lib.Run

/-!
# The client's publish store

A publish is recorded in the store under a fresh id before it is sent and dropped when its ack
comes. A replay takes the pending entries in id order; it drops each one and publishes it anew,
so an entry whose replay fails gets a new id, behind the entries not yet replayed.

No publish is lost by that (`never_acked_pending`). The order is: `replays_in_order` has the runs
in which a replay gets to its last entry and nothing is acked past a pending publish of its key.
-/

namespace CqServer.PublishStore

open Lib List

variable {D K : Type} [DecidableEq K]

/-- A publish of the application; `number` is its place among them. -/
structure Publish (D : Type) where
  number : Nat
  topic : String
  data : D
  deriving DecidableEq

/-- How `rpc` ends: with the ack, or with an error or the timeout, before or after the message
has reached the server. -/
inductive Reply where
  | acked
  | failed (reached : Bool)
  deriving DecidableEq

structure State (D : Type) where
  nextId : Nat
  pending : List (Nat × Publish D)
  published : List (Publish D)
  received : List (Publish D)
  acked : List Nat

def State.init : State D := ⟨1, [], [], [], []⟩

def record (s : State D) (p : Publish D) : State D :=
  { s with nextId := s.nextId + 1, pending := s.pending ++ [(s.nextId, p)] }

def complete (s : State D) (id : Nat) : State D :=
  { s with pending := s.pending.filter (·.1 ≠ id) }

def send (s : State D) (p : Publish D) : Reply → State D
  | .acked =>
    let sent := record s p
    complete { sent with received := s.received ++ [p], acked := s.acked ++ [p.number] } s.nextId
  | .failed reached =>
    { record s p with received := s.received ++ if reached then [p] else [] }

/-- The loop of `replay_publish_store`, with the replies it gets. -/
def replayLoop (s : State D) : List (Nat × Publish D) → List Reply → Option (State D)
  | [], [] => some s
  | e :: es, .acked :: replies => replayLoop (send (complete s e.1) e.2 .acked) es replies
  -- `?` leaves the loop
  | e :: _, [.failed reached] => some (send (complete s e.1) e.2 (.failed reached))
  | _, _ => none

inductive Action (D : Type) where
  | publish (topic : String) (data : D) (reply : Reply)
  | replay (replies : List Reply)

def step (s : State D) : Action D → Option (State D)
  | .publish topic data reply =>
    let p := ⟨s.published.length, topic, data⟩
    some (send { s with published := s.published ++ [p] } p reply)
  | .replay replies => replayLoop s s.pending replies

/-! ## The store -/

/-- Ids are given out in order, and what is pending was published. -/
structure Numbered (s : State D) : Prop where
  ids : (s.pending.map Prod.fst).Pairwise (· < ·)
  fresh : ∀ e ∈ s.pending, e.1 < s.nextId
  known : ∀ e ∈ s.pending, e.2.number < s.published.length

/-- A publish that was never acked is pending; `but` is one on its way into the store. -/
def Kept (s : State D) (but : Publish D → Prop) : Prop :=
  ∀ p ∈ s.published, but p ∨ p.number ∈ s.acked ∨ p ∈ s.pending.map Prod.snd

variable {s t : State D} {p : Publish D} {reply : Reply}

theorem send_acked (hs : Numbered s) :
    send s p .acked = ⟨s.nextId + 1, s.pending, s.published, s.received ++ [p],
      s.acked ++ [p.number]⟩ := by
  have hsame : s.pending.filter (·.1 ≠ s.nextId) = s.pending :=
    filter_eq_self.mpr fun e he => decide_eq_true (Nat.ne_of_lt (hs.fresh e he))
  simp only [send, record, complete, filter_append, hsame]
  simp

theorem Numbered.send (hs : Numbered s) (hp : p.number < s.published.length) :
    Numbered (send s p reply) := by
  cases reply with
  | acked =>
    rw [send_acked hs]
    exact ⟨hs.ids, fun e he => Nat.lt_succ_of_lt (hs.fresh e he), hs.known⟩
  | failed reached =>
    refine ⟨?_, ?_, ?_⟩
    · show ((s.pending ++ [(s.nextId, p)]).map Prod.fst).Pairwise (· < ·)
      rw [map_append, pairwise_append]
      refine ⟨hs.ids, pairwise_singleton _ _, ?_⟩
      intro id hid id' hid'
      obtain ⟨e, he, rfl⟩ := mem_map.mp hid
      obtain rfl := mem_singleton.mp hid'
      exact hs.fresh e he
    · exact forall_mem_append.mpr ⟨fun e he => Nat.lt_succ_of_lt (hs.fresh e he),
        forall_mem_singleton.mpr (Nat.lt_succ_self _)⟩
    · exact forall_mem_append.mpr ⟨hs.known, forall_mem_singleton.mpr hp⟩

theorem Kept.send (hs : Numbered s) (h : Kept s (· = p)) :
    Kept (send s p reply) fun _ => False := by
  intro p' hp'
  cases reply with
  | acked =>
    rw [send_acked hs] at hp' ⊢
    rcases h p' hp' with rfl | hacked | hpending
    · simp
    · simp [hacked]
    · exact .inr (.inr hpending)
  | failed reached =>
    rcases h p' hp' with rfl | hacked | hpending
    · simp [PublishStore.send, record]
    · exact .inr (.inl hacked)
    · simp only [PublishStore.send, record, map_append]
      exact .inr (.inr (mem_append_left _ hpending))

/-- A replay drops the entry it is about to publish, the first one. -/
theorem complete_head {e : Nat × Publish D} {es : List (Nat × Publish D)} (h : s.pending = e :: es)
    (hs : Numbered s) : complete s e.1 = { s with pending := es } := by
  have hids := hs.ids
  rw [h, map_cons, pairwise_cons] at hids
  have hsame : es.filter (·.1 ≠ e.1) = es := filter_eq_self.mpr fun e' he' =>
    decide_eq_true (Nat.ne_of_gt (hids.1 e'.1 (mem_map_of_mem he')))
  simp only [complete, h]
  simpa using hsame

/-- What a replay leaves: nothing, or what came after the entry that failed and that entry. -/
theorem replayLoop_spec {es : List (Nat × Publish D)} {replies : List Reply}
    (h : replayLoop s es replies = some t) (hs : Numbered s) (hkept : Kept s fun _ => False)
    (hpending : s.pending = es) :
    Numbered t ∧ Kept t (fun _ => False) ∧ t.published = s.published ∧
      ((t.pending = [] ∧ t.received = s.received ++ es.map Prod.snd) ∨
        ∃ done e rest, ∃ reached : Bool, es = done ++ e :: rest ∧
          replies = replicate done.length .acked ++ [.failed reached] ∧
          t.pending.map Prod.snd = rest.map Prod.snd ++ [e.2] ∧
          t.received = s.received ++ done.map Prod.snd ++ if reached then [e.2] else []) := by
  induction es generalizing s replies with
  | nil =>
    cases replies with
    | nil =>
      cases h
      exact ⟨hs, hkept, rfl, .inl ⟨hpending, (append_nil _).symm⟩⟩
    | cons reply replies => cases h
  | cons e es ih =>
    have htail : Numbered { s with pending := es } := by
      refine ⟨?_, fun e' he' => hs.fresh e' ?_, fun e' he' => hs.known e' ?_⟩
      · have hids := hs.ids
        rw [hpending] at hids
        exact hids.of_cons
      all_goals exact hpending ▸ mem_cons_of_mem e he'
    have hknown : e.2.number < s.published.length :=
      hs.known e (hpending ▸ mem_cons_self)
    have hwithout : Kept { s with pending := es } (· = e.2) := by
      intro p hp
      rcases hkept p hp with hfalse | hacked | hmem
      · exact hfalse.elim
      · exact .inr (.inl hacked)
      · rw [hpending, map_cons, mem_cons] at hmem
        exact hmem.imp_right .inr
    have hcomplete := complete_head hpending hs
    match replies with
    | [] => cases h
    | .acked :: replies =>
      have h' : replayLoop (send (complete s e.1) e.2 .acked) es replies = some t := h
      rw [hcomplete] at h'
      have hnext : Numbered (send { s with pending := es } e.2 .acked) := htail.send hknown
      have hkept' : Kept (send { s with pending := es } e.2 .acked) _ := Kept.send htail hwithout
      rw [send_acked htail] at h' hnext hkept'
      obtain ⟨hnum, hkept, hpub, hend⟩ := ih h' hnext hkept' rfl
      refine ⟨hnum, hkept, hpub, ?_⟩
      rcases hend with ⟨hnil, hrec⟩ | ⟨done, e', rest, reached, hes, hreplies, hpend, hrec⟩
      · exact .inl ⟨hnil, by simpa using hrec⟩
      · exact .inr ⟨e :: done, e', rest, reached, by rw [hes]; rfl, by rw [hreplies]; rfl, hpend,
          by simpa using hrec⟩
    | [.failed reached] =>
      cases h
      rw [hcomplete]
      exact ⟨htail.send hknown, Kept.send htail hwithout, rfl,
        .inr ⟨[], e, es, reached, rfl, rfl, by simp [send, record], by simp [send]⟩⟩
    | .failed reached :: _ :: _ => cases h

theorem Numbered.grown (hs : Numbered s) (topic : String) (data : D) :
    Numbered { s with published := s.published ++ [⟨s.published.length, topic, data⟩] } :=
  ⟨hs.ids, hs.fresh, fun e he => by simpa using Nat.lt_succ_of_lt (hs.known e he)⟩

theorem step_kept {a : Action D} (hs : Numbered s) (hkept : Kept s fun _ => False)
    (hstep : step s a = some t) : Numbered t ∧ Kept t fun _ => False := by
  cases a with
  | publish topic data reply =>
    cases hstep
    have hgrown := hs.grown topic data
    refine ⟨hgrown.send (by simp), Kept.send hgrown ?_⟩
    intro p hp
    rcases mem_append.mp hp with hp | hp
    · exact .inr ((hkept p hp).resolve_left id)
    · exact .inl (mem_singleton.mp hp)
  | replay replies =>
    have hend := replayLoop_spec hstep hs hkept rfl
    exact ⟨hend.1, hend.2.1⟩

/-- **A publish that was never acked is pending**, whatever failed. -/
theorem never_acked_pending {actions : List (Action D)}
    (hrun : Run step (fun _ _ => True) State.init actions s) :
    Numbered s ∧ Kept s fun _ => False :=
  hrun.invariant (P := fun s => Numbered s ∧ Kept s fun _ => False)
    (fun _ _ _ h _ hstep => step_kept h.1 h.2 hstep) ⟨⟨.nil, nofun, nofun⟩, nofun⟩

theorem replayLoop_acked (s : State D) (es : List (Nat × Publish D)) :
    ∃ t, replayLoop s es (replicate es.length .acked) = some t := by
  induction es generalizing s with
  | nil => exact ⟨s, rfl⟩
  | cons e es ih => exact ih _

/-! ## Order -/

section Order

variable (key : Publish D → K)

def latest (k : K) (ps : List (Publish D)) : Option (Publish D) :=
  (ps.filter (key · = k)).getLast?

/-- A publish is acked only if none of its key is pending, and a replay gets to its last entry. -/
def InTurn (s : State D) : Action D → Prop
  | .publish topic data reply =>
    reply = .acked → ∀ e ∈ s.pending, key e.2 ≠ key ⟨s.published.length, topic, data⟩
  | .replay replies => replies.length = s.pending.length

/-- The pending publishes are in the order of the application, and once they have been sent the
server has the last of every key. -/
structure Ordered (s : State D) : Prop where
  sorted : (s.pending.map (·.2.number)).Pairwise (· < ·)
  last : ∀ k, latest key k (s.received ++ s.pending.map Prod.snd) = latest key k s.published

variable {key}

theorem latest_append (k : K) (ps : List (Publish D)) (p : Publish D) :
    latest key k (ps ++ [p]) = if key p = k then some p else latest key k ps := by
  unfold latest
  split <;> simp_all

theorem latest_skip {k : K} {ps qs rs : List (Publish D)} (h : ∀ q ∈ qs, key q ≠ k) :
    latest key k (ps ++ qs ++ rs) = latest key k (ps ++ rs) := by
  have hnone : qs.filter (key · = k) = [] :=
    filter_eq_nil_iff.mpr fun q hq => by simpa using h q hq
  simp only [latest, filter_append, hnone, append_nil]

theorem latest_resent (k : K) (ps qs : List (Publish D)) (p : Publish D) (reached : Bool) :
    latest key k (ps ++ (if reached then [p] else []) ++ (qs ++ [p])) =
      if key p = k then some p else latest key k (ps ++ qs) := by
  rw [← append_assoc, latest_append]
  split
  · rfl
  · rename_i hne
    exact latest_skip (by cases reached <;> simp [hne])

theorem Ordered.step {a : Action D} (hs : Numbered s) (hkept : Kept s fun _ => False)
    (h : Ordered key s) (hturn : InTurn key s a) (hstep : step s a = some t) : Ordered key t := by
  cases a with
  | publish topic data reply =>
    cases hstep
    have hgrown := hs.grown topic data
    cases reply with
    | acked =>
      rw [send_acked hgrown]
      refine ⟨h.sorted, fun k => ?_⟩
      rw [latest_append]
      split
      · rename_i hk
        have hothers : ∀ q ∈ s.pending.map Prod.snd, key q ≠ k := by
          intro q hq
          obtain ⟨e, he, rfl⟩ := mem_map.mp hq
          exact hk ▸ hturn rfl e he
        have hlast : ∀ ps, latest key k (ps ++ s.pending.map Prod.snd ++ []) =
            latest key k (ps ++ []) := fun ps => latest_skip hothers
        simp only [append_nil] at hlast
        rw [hlast, latest_append, if_pos hk]
      · rename_i hne
        rw [← h.last k]
        exact latest_skip (by simpa using hne)
    | failed reached =>
      refine ⟨?_, fun k => ?_⟩
      · show ((s.pending ++ [(s.nextId, _)]).map fun e : Nat × Publish D => e.2.number).Pairwise (· < ·)
        rw [map_append, pairwise_append]
        refine ⟨h.sorted, pairwise_singleton _ _, ?_⟩
        intro n hn m hm
        obtain ⟨e, he, rfl⟩ := mem_map.mp hn
        obtain rfl := mem_singleton.mp hm
        exact hs.known e he
      · show latest key k (s.received ++ _ ++ (s.pending ++ [_]).map Prod.snd) =
          latest key k (s.published ++ [_])
        rw [map_append, map_singleton, latest_resent, latest_append, h.last]
  | replay replies =>
    obtain ⟨-, -, hpub, hend⟩ := replayLoop_spec hstep hs hkept rfl
    rcases hend with ⟨hnil, hrec⟩ | ⟨done, e, rest, reached, hes, hreplies, hpend, hrec⟩
    · refine ⟨by rw [hnil]; exact .nil, fun k => ?_⟩
      rw [hnil, hrec, hpub, map_nil, append_nil]
      exact h.last k
    · -- the entry that failed was the last one, so it is still behind the others
      have hrest : rest = [] := by
        have hcount := congrArg length hes
        rw [length_append, length_cons] at hcount
        have hall : replies.length = s.pending.length := hturn
        rw [hreplies, length_append, length_replicate, length_singleton] at hall
        exact length_eq_zero_iff.mp (by omega)
      subst hrest
      refine ⟨?_, fun k => ?_⟩
      · have hone := congrArg (map Publish.number) hpend
        rw [map_map] at hone
        exact hone ▸ pairwise_singleton _ _
      · rw [hpend, hrec, hpub, latest_resent, ← h.last k, hes, map_append, ← append_assoc,
          map_cons, map_nil, latest_append, append_nil]

/-- **Store and forward**: in every run in turn, a replay that succeeds sends the pending
publishes in the order of the application, and leaves the server with the last of every key. -/
theorem replays_in_order {actions : List (Action D)}
    (hrun : Run step (InTurn key) State.init actions s) :
    (∀ p ∈ s.published, p.number ∈ s.acked ∨ p ∈ s.pending.map Prod.snd) ∧
    (s.pending.map (·.2.number)).Pairwise (· < ·) ∧
    ∃ t, step s (.replay (replicate s.pending.length .acked)) = some t ∧
      t.received = s.received ++ s.pending.map Prod.snd ∧
      ∀ k, latest key k t.received = latest key k t.published := by
  obtain ⟨hs, hkept, h⟩ : Numbered s ∧ Kept s (fun _ => False) ∧ Ordered key s := by
    refine hrun.invariant (P := fun s => Numbered s ∧ Kept s (fun _ => False) ∧ Ordered key s) ?_
      ⟨⟨.nil, nofun, nofun⟩, nofun, .nil, fun _ => rfl⟩
    rintro s a t ⟨hs, hkept, h⟩ hturn hstep
    obtain ⟨hs', hkept'⟩ := step_kept hs hkept hstep
    exact ⟨hs', hkept', h.step hs hkept hturn hstep⟩
  obtain ⟨t, ht⟩ := replayLoop_acked s s.pending
  obtain ⟨-, -, hpub, hend⟩ := replayLoop_spec ht hs hkept rfl
  rcases hend with ⟨-, hrec⟩ | ⟨done, e, rest, reached, -, hreplies, -, -⟩
  · refine ⟨fun p hp => (hkept p hp).resolve_left id, h.sorted, t, ht, hrec, fun k => ?_⟩
    rw [hrec, hpub]
    exact h.last k
  · have hmem : Reply.failed reached ∈ replicate s.pending.length .acked := by
      rw [hreplies]
      exact mem_append_right _ mem_cons_self
    cases eq_of_mem_replicate hmem

end Order

/-- Here the data of a publish are its key. -/
instance (s : State Nat) (a : Action Nat) : Decidable (InTurn Publish.data s a) := by
  cases a <;> unfold InTurn <;> infer_instance

theorem replays_in_order_last_fails : ∃ s : State Nat, Run step (InTurn Publish.data) State.init
      [.publish "/orders" 7 (.failed false), .publish "/orders" 7 (.failed true),
        .replay [.acked, .failed false]] s ∧
    ∃ t, step s (.replay (replicate s.pending.length .acked)) = some t ∧
      ∀ k, latest Publish.data k t.received = latest Publish.data k t.published := by
  refine Run.exists_of_check (fun _ => true) (by decide +kernel) fun s hrun _ => ?_
  obtain ⟨-, -, t, ht, -, hlast⟩ := replays_in_order hrun
  exact ⟨t, ht, hlast⟩

theorem never_acked_pending_fails : ∃ s : State Nat, Run step (fun _ _ => True) State.init
    [.publish "/orders" 7 (.failed true), .replay [.failed false]] s ∧ s.pending.length = 1 ∧
      Numbered s ∧ Kept s fun _ => False :=
  Run.exists_of_check (fun s => s.pending.length = 1) (by decide +kernel) fun _ hrun hone =>
    ⟨hone, never_acked_pending hrun⟩

/-- **A replay that fails at its first entry turns the order round**: the next one, which
succeeds, leaves the server with the older of two publishes of the key. -/
theorem failed_replay_reorders : ∃ s : State Nat, Run step (fun _ _ => True) State.init
      [.publish "/orders" 7 (.failed false), .publish "/orders" 7 (.failed false),
        .replay [.failed false], .replay [.acked, .acked]] s ∧
    s.received.map Publish.number = [1, 0] ∧ s.pending = [] ∧
    (latest Publish.data 7 s.received).map Publish.number = some 0 ∧
    (latest Publish.data 7 s.published).map Publish.number = some 1 := by
  decide +kernel

end CqServer.PublishStore
