import CqServer.Json
import CqServer.Lib.Tickets
import Mathlib.Data.List.Perm.Basic
import Mathlib.Data.List.TakeDrop
import Mathlib.Logic.Function.Basic

/-!
# Message queues

The state of a `Queue` (`queue.rs`) and what is done to it under its lock: messages
are buffered in priority order, evicted when the buffer is full, handed to the next
consumer in turn, and filed as leases until they are acknowledged.
-/

namespace CqServer.Queue

open List Option

structure QueueMessage where
  sequence : Nat
  data : Json
  priority : Int
  group : Option String
  deriving DecidableEq

structure PublishOpts where
  priority : Int := 0
  group : Option String := none

/-- `LeaseRecord`; times are in milliseconds. -/
structure LeaseRecord where
  msg : QueueMessage
  subId : String
  expiresAt : Nat
  redeliveryCount : UInt32
  deriving DecidableEq

/-- `QueueInner`. The leases are filed under their delivery ids. -/
structure QueueInner where
  buffer : List QueueMessage
  consumers : List String
  inFlight : Lib.Tickets LeaseRecord
  groupRoutes : String → Option String

def QueueInner.empty : QueueInner := ⟨[], [], .empty, fun _ => none⟩

theorem defaultBuffer_pos : 0 < 1000000 := by decide

/-- What a queue is configured with. `with_max_buffer` has a floor of one. -/
structure Config where
  name : String
  leaseMs : Option Nat := none
  maxDeliveryCount : UInt32 := 8
  dlqName : Option String := none
  maxBuffer : Nat := 1000000
  maxBuffer_pos : 0 < maxBuffer := by decide

/-! ## The buffer -/

/-- `insert_by_priority`: at the end, unless a message of lower priority is there. -/
def insertByPriority (buffer : List QueueMessage) (m : QueueMessage) : List QueueMessage :=
  match buffer.getLast? with
  | none => buffer ++ [m]
  | some tail =>
    if m.priority ≤ tail.priority then buffer ++ [m]
    else
      let parts := buffer.span fun x => !decide (x.priority < m.priority)
      parts.1 ++ m :: parts.2

theorem insertByPriority_perm (buffer : List QueueMessage) (m : QueueMessage) :
    (insertByPriority buffer m).Perm (m :: buffer) := by
  unfold insertByPriority
  split
  · exact perm_append_singleton m buffer
  split
  · exact perm_append_singleton m buffer
  · rw [span_eq_takeWhile_dropWhile]
    refine perm_middle.trans (Perm.cons m ?_)
    rw [takeWhile_append_dropWhile]

/-- `evict_one_for_cap`: the oldest message of the lowest priority. -/
def evictOneForCap (buffer : List QueueMessage) : Option (QueueMessage × List QueueMessage) :=
  match buffer.getLast? with
  | none => none
  | some last =>
    let lowest (m : QueueMessage) : Bool := m.priority = last.priority
    (buffer.find? lowest).map fun m => (m, buffer.eraseP lowest)

theorem evictOneForCap_perm {buffer rest : List QueueMessage} {m : QueueMessage}
    (h : evictOneForCap buffer = some (m, rest)) : buffer.Perm (m :: rest) := by
  unfold evictOneForCap at h
  split at h
  · cases h
  rename_i last _
  obtain ⟨m', hfind, heq⟩ := map_eq_some_iff.mp h
  obtain ⟨rfl, rfl⟩ := Prod.mk.inj heq
  obtain ⟨hlow, before, after, rfl, hbefore⟩ := find?_eq_some_iff_append.mp hfind
  have herase : (before ++ m' :: after).eraseP (fun m => decide (m.priority = last.priority)) =
      before ++ after := by
    rw [eraseP_append_right _ (by simpa using hbefore)]
    simp only [eraseP_cons, hlow, cond_true]
  rw [herase]
  exact perm_middle

/-- The eviction loop of `publish_with_opts`: what is left, and what was dropped. -/
def makeRoom (cap : Nat) : Nat → List QueueMessage → List QueueMessage × List QueueMessage
  | 0, buffer => (buffer, [])
  | fuel + 1, buffer =>
    if cap ≤ buffer.length then
      match evictOneForCap buffer with
      | some (m, rest) =>
        let out := makeRoom cap fuel rest
        (out.1, m :: out.2)
      | none => (buffer, [])
    else (buffer, [])

theorem makeRoom_perm (cap fuel : Nat) (buffer : List QueueMessage) :
    buffer.Perm ((makeRoom cap fuel buffer).2 ++ (makeRoom cap fuel buffer).1) := by
  induction fuel generalizing buffer with
  | zero => exact Perm.refl _
  | succ fuel ih =>
    unfold makeRoom
    split
    · split
      · rename_i m rest hevict
        exact (evictOneForCap_perm hevict).trans ((ih rest).cons m)
      · exact Perm.refl _
    · exact Perm.refl _

variable {buffer : List QueueMessage}

theorem evictOneForCap_isSome (h : buffer ≠ []) :
    ∃ m rest, evictOneForCap buffer = some (m, rest) := by
  obtain ⟨last, hlast⟩ := getLast?_isSome.mpr h |> isSome_iff_exists.mp
  have hfind : (buffer.find? fun m => decide (m.priority = last.priority)).isSome = true := by
    rw [find?_isSome]
    exact ⟨last, mem_of_getLast? hlast, by simp⟩
  obtain ⟨m, hm⟩ := isSome_iff_exists.mp hfind
  exact ⟨m, _, by simp only [evictOneForCap, hlast, hm]; rfl⟩

/-! ## The consumers -/

/-- `pop_front` and `push_back`. -/
def rotate : List String → Option (String × List String)
  | [] => none
  | c :: cs => some (c, cs ++ [c])

/-- `pick_consumer_for`: the consumer a group is pinned to, or the next in turn. -/
def pickConsumerFor (q : QueueInner) (group : Option String) : Option (String × QueueInner) :=
  match group with
  | none => (rotate q.consumers).map fun r => (r.1, { q with consumers := r.2 })
  | some g =>
    match (q.groupRoutes g).filter (· ∈ q.consumers) with
    | some pinned => some (pinned, q)
    | none =>
      (rotate q.consumers).map fun r =>
        (r.1, { q with
          consumers := r.2
          groupRoutes := Function.update q.groupRoutes g (some r.1) })

/-- The rotation of `pick_next_consumer_excluding`: one round at most. -/
def rotatePast (original : String) : Nat → List String → Option (String × List String)
  | 0, cs => cs.head?.map fun c => (c, cs)
  | _ + 1, [] => none
  | rounds + 1, c :: cs =>
    if c ≠ original then some (c, cs ++ [c]) else rotatePast original rounds (cs ++ [c])

def pickNextConsumerExcluding (q : QueueInner) (original : String) :
    Option (String × QueueInner) :=
  (rotatePast original q.consumers.length q.consumers).map fun r =>
    (r.1, { q with consumers := r.2 })

/-- A consumer was picked: one of the consumers, and only the turns and the pins changed. -/
structure Picked (q : QueueInner) (sub : String) (q' : QueueInner) : Prop where
  mem : sub ∈ q.consumers
  consumers : q'.consumers.Perm q.consumers
  buffer : q'.buffer = q.buffer
  inFlight : q'.inFlight = q.inFlight

variable {c : String} {cs cs' : List String}

theorem rotate_some (h : rotate cs = some (c, cs')) : c ∈ cs ∧ cs'.Perm cs := by
  cases cs with
  | nil => cases h
  | cons d ds =>
    cases h
    exact ⟨mem_cons_self, perm_append_singleton c ds⟩

variable {original : String}

theorem rotatePast_some {rounds : Nat} (h : rotatePast original rounds cs = some (c, cs')) :
    c ∈ cs ∧ cs'.Perm cs := by
  induction rounds generalizing cs with
  | zero =>
    obtain ⟨d, hd, heq⟩ := map_eq_some_iff.mp h
    cases heq
    exact ⟨mem_of_head? hd, Perm.refl _⟩
  | succ rounds ih =>
    cases cs with
    | nil => cases h
    | cons d ds =>
      unfold rotatePast at h
      split at h
      · cases h
        exact ⟨mem_cons_self, perm_append_singleton c ds⟩
      obtain ⟨hmem, hperm⟩ := ih h
      have hturn := perm_append_singleton d ds
      exact ⟨hturn.mem_iff.mp hmem, hperm.trans hturn⟩

variable {group : Option String} {q q' : QueueInner} {sub : String}

theorem pickConsumerFor_picked (h : pickConsumerFor q group = some (sub, q')) :
    Picked q sub q' := by
  unfold pickConsumerFor at h
  split at h
  · obtain ⟨r, hr, heq⟩ := map_eq_some_iff.mp h
    cases heq
    obtain ⟨hmem, hperm⟩ := rotate_some hr
    exact ⟨hmem, hperm, rfl, rfl⟩
  · split at h
    · rename_i pinned hpinned
      cases h
      obtain ⟨-, hin⟩ := filter_eq_some_iff.mp hpinned
      exact ⟨of_decide_eq_true hin, Perm.refl _, rfl, rfl⟩
    · obtain ⟨r, hr, heq⟩ := map_eq_some_iff.mp h
      cases heq
      obtain ⟨hmem, hperm⟩ := rotate_some hr
      exact ⟨hmem, hperm, rfl, rfl⟩

theorem pickNextConsumerExcluding_picked
    (h : pickNextConsumerExcluding q original = some (sub, q')) : Picked q sub q' := by
  obtain ⟨r, hr, heq⟩ := map_eq_some_iff.mp h
  cases heq
  obtain ⟨hmem, hperm⟩ := rotatePast_some hr
  exact ⟨hmem, hperm, rfl, rfl⟩

theorem pickConsumerFor_none (h : pickConsumerFor q group = none) : q.consumers = [] := by
  have hrotate : ∀ {β : Type} {f : String × List String → β},
      (rotate q.consumers).map f = none → q.consumers = [] := by
    intro β f hnone
    cases hc : q.consumers with
    | nil => rfl
    | cons c cs =>
      rw [hc] at hnone
      cases hnone
  unfold pickConsumerFor at h
  split at h
  · exact hrotate h
  · split at h
    · cases h
    · exact hrotate h

theorem rotatePast_isSome (rounds : Nat) (h : cs ≠ []) :
    (rotatePast original rounds cs).isSome = true := by
  induction rounds generalizing cs with
  | zero =>
    cases cs with
    | nil => exact absurd rfl h
    | cons c cs => rfl
  | succ rounds ih =>
    cases cs with
    | nil => exact absurd rfl h
    | cons c cs =>
      unfold rotatePast
      split
      · rfl
      · exact ih (by simp)

theorem pickNextConsumerExcluding_none (h : pickNextConsumerExcluding q original = none) :
    q.consumers = [] := by
  by_contra hne
  have hsome : (rotatePast original q.consumers.length q.consumers).isSome = true :=
    rotatePast_isSome _ hne
  rw [map_eq_none_iff.mp h] at hsome
  cases hsome

/-- The drain of `add_consumer`: each message with the consumer it goes to. -/
def drain : List QueueMessage → QueueInner → List (String × QueueMessage) × QueueInner
  | [], q => ([], { q with buffer := [] })
  | m :: ms, q =>
    match pickConsumerFor q m.group with
    | some (sub, q') =>
      let rest := drain ms q'
      ((sub, m) :: rest.1, rest.2)
    | none => ([], { q with buffer := m :: ms })

theorem drain_spec {ms : List QueueMessage} {q : QueueInner} (h : q.consumers ≠ []) :
    (drain ms q).1.map Prod.snd = ms ∧ (drain ms q).2.buffer = [] ∧
      (drain ms q).2.inFlight = q.inFlight ∧ (drain ms q).2.consumers.Perm q.consumers := by
  induction ms generalizing q with
  | nil => exact ⟨rfl, rfl, rfl, Perm.refl _⟩
  | cons m ms ih =>
    unfold drain
    cases hpick : pickConsumerFor q m.group with
    | none => exact absurd (pickConsumerFor_none hpick) h
    | some r =>
      obtain ⟨sub, q'⟩ := r
      have hpicked := pickConsumerFor_picked hpick
      have hne : q'.consumers ≠ [] := by
        intro hnil
        have hperm := hpicked.consumers
        rw [hnil] at hperm
        exact h hperm.symm.eq_nil
      obtain ⟨hmap, hbuffer, hleases, hperm⟩ := ih hne
      refine ⟨?_, hbuffer, hleases.trans hpicked.inFlight, hperm.trans hpicked.consumers⟩
      rw [map_cons, hmap]

end CqServer.Queue
