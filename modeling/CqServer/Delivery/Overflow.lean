import CqServer.Delivery.Spillover
import CqServer.Lib.Run

/-!
# A route that spills over

The three parties at a subscription's channel, step by step: the evaluator, whose
`deliver_delta_cached` sends a frame or spills it; the drain task of `spawn_spillover_drain`,
which reads spilled frames back and sends them; and the client, which takes frames. Both
senders look at the counter of pending frames and at the channel in steps of their own.

The frames the client has taken, those in the channel, the one the drain task has in hand, those
in the file and the one the evaluator has in hand are the delivered ones, in this order
(`Ordered`), unless a delivery finds the counter at zero while the drain task still has the last
frame in hand: it then overtakes that frame (`frame_overtaken`).
-/

namespace CqServer.Delivery

open Lib List

inductive Evaluator where
  | idle
  /-- `try_send` -/
  | send (f : OutboundFrame)
  /-- the locked section of `write_frame` -/
  | spill (f : OutboundFrame)
  /-- its `fetch_add` -/
  | count
  deriving DecidableEq

inductive DrainTask where
  /-- `is_empty` -/
  | look
  /-- `capacity` -/
  | capacity
  /-- the locked section of `read_next_frame` -/
  | read
  /-- its `fetch_sub` -/
  | uncount (f : OutboundFrame)
  /-- `try_send` -/
  | send (f : OutboundFrame)
  /-- the locked section of `write_frame` -/
  | respool (f : OutboundFrame)
  /-- its `fetch_add` -/
  | recount
  deriving DecidableEq

structure Route where
  spill : SpilloverInner
  pending : Nat
  channel : List OutboundFrame
  evaluator : Evaluator
  drainTask : DrainTask
  delivered : List OutboundFrame
  taken : List OutboundFrame

/-- The route as it is built, on a spill file with this content. -/
def Route.build (file : Bytes) : Route := ⟨.open file, 0, [], .idle, .look, [], []⟩

inductive Party where
  /-- `deliver_delta_cached` is called with a delta of this frame -/
  | deliver (f : OutboundFrame)
  | evaluator
  | drainTask
  | client

def trySend (cap : Nat) (channel : List OutboundFrame) (f : OutboundFrame) :
    Option (List OutboundFrame) :=
  if channel.length < cap then some (channel ++ [f]) else none

/-- The rest of `deliver_delta_cached`. A frame over the cap of the file is lost, and the client
is told to disconnect. -/
def stepEvaluator (cap maxBytes : Nat) (s : Route) : Option Route :=
  match s.evaluator with
  | .idle => none
  | .send f =>
    match trySend cap s.channel f with
    | some channel => some { s with channel, evaluator := .idle }
    | none => some { s with evaluator := .spill f }
  | .spill f =>
    match writeFrame maxBytes s.spill f with
    | .ok spill => some { s with spill, evaluator := .count }
    | .error _ => some { s with evaluator := .idle }
  | .count => some { s with pending := s.pending + 1, evaluator := .idle }

/-- The drain task. A frame that is read and cannot be sent is spilled again; one that cannot be
read or spilled is given up. -/
def stepDrainTask (cap maxBytes : Nat) (s : Route) : Option Route :=
  match s.drainTask with
  | .look => some { s with drainTask := if s.pending = 0 then .look else .capacity }
  | .capacity => some { s with drainTask := if s.channel.length < cap then .read else .look }
  | .read =>
    match readNextFrame s.spill with
    | .nothing | .failed _ => some { s with drainTask := .look }
    | .read spill (.ok f) => some { s with spill, drainTask := .uncount f }
    | .read spill (.error _) => some { s with spill, pending := s.pending - 1, drainTask := .look }
  | .uncount f => some { s with pending := s.pending - 1, drainTask := .send f }
  | .send f =>
    match trySend cap s.channel f with
    | some channel => some { s with channel, drainTask := .look }
    | none => some { s with drainTask := .respool f }
  | .respool f =>
    match writeFrame maxBytes s.spill f with
    | .ok spill => some { s with spill, drainTask := .recount }
    | .error _ => some { s with drainTask := .look }
  | .recount => some { s with pending := s.pending + 1, drainTask := .look }

/-- One step. A delivery begins with `is_empty`: a frame behind a backlog is spilled as well. -/
def step (cap maxBytes : Nat) (s : Route) : Party → Option Route
  | .deliver f =>
    match s.evaluator with
    | .idle =>
      some
        { s with
          evaluator := if s.pending = 0 then .send f else .spill f
          delivered := s.delivered ++ [f] }
    | _ => none
  | .evaluator => stepEvaluator cap maxBytes s
  | .drainTask => stepDrainTask cap maxBytes s
  | .client =>
    match s.channel with
    | [] => none
    | f :: channel => some { s with channel, taken := s.taken ++ [f] }

def Fits (maxBytes : Nat) (s : Route) : Party → Prop
  | .evaluator => ∀ f, s.evaluator = .spill f → ∃ sp, writeFrame maxBytes s.spill f = .ok sp
  | .drainTask => ∀ f, s.drainTask = .respool f → ∃ sp, writeFrame maxBytes s.spill f = .ok sp
  | _ => True

/-- What the code does not see to: a delivery does not find the counter at zero while the drain
task has a frame in hand, and the length of a frame fits its four bytes. -/
def Ok (maxBytes : Nat) (s : Route) (p : Party) : Prop :=
  Fits maxBytes s p ∧
    match p with
    | .deliver f => f.Sized ∧ (s.pending = 0 → ∀ g, s.drainTask ≠ .send g)
    | _ => True

/-! ## Order -/

def Evaluator.hand : Evaluator → List OutboundFrame
  | .send f | .spill f => [f]
  | _ => []

def DrainTask.hand : DrainTask → List OutboundFrame
  | .uncount f | .send f | .respool f => [f]
  | _ => []

/-- What the drain task has made sure of: something is pending, and the channel has room until
the frame is sent, so that it is never spilled again. -/
def DrainTask.Ready (cap pending : Nat) (channel : List OutboundFrame) : DrainTask → Prop
  | .look => True
  | .capacity => pending ≠ 0
  | .read | .uncount _ => pending ≠ 0 ∧ channel.length < cap
  | .send _ => channel.length < cap
  | .respool _ | .recount => False

/-- The frame that is read and not yet counted off. -/
def DrainTask.counted : DrainTask → Nat
  | .uncount _ => 1
  | _ => 0

/-- The frame that is written and not yet counted. -/
def Evaluator.uncounted : Evaluator → Nat
  | .count => 1
  | _ => 0

/-- The invariant; `frames` are those in the file. -/
structure Ordered (cap : Nat) (s : Route) (frames : List OutboundFrame) : Prop where
  holds : s.spill.Holds frames
  /-- nothing is lost, duplicated or overtaken -/
  order : s.taken ++ s.channel ++ s.drainTask.hand ++ frames ++ s.evaluator.hand = s.delivered
  sized : ∀ f ∈ s.delivered, f.Sized
  /-- the counter lags behind the file -/
  counter : s.pending + s.evaluator.uncounted = frames.length + s.drainTask.counted
  /-- a frame is sent past the file only when there is nothing in it or in the drain task's hand -/
  direct : ∀ f, s.evaluator = .send f → s.pending = 0 ∧ s.drainTask.hand = []
  ready : s.drainTask.Ready cap s.pending s.channel

variable {cap maxBytes : Nat} {s s' : Route} {frames : List OutboundFrame}

theorem Ordered.build (cap : Nat) : Ordered cap (.build []) [] where
  holds := .opened
  order := rfl
  sized := nofun
  counter := rfl
  direct := nofun
  ready := trivial

section
variable (h : Ordered cap s frames)
include h

theorem Ordered.deliver (hidle : s.evaluator = .idle)
    {f : OutboundFrame} (hf : f.Sized) (hrace : s.pending = 0 → ∀ g, s.drainTask ≠ .send g) :
    Ordered cap
      { s with
        evaluator := if s.pending = 0 then .send f else .spill f
        delivered := s.delivered ++ [f] } frames := by
  have hcounter := h.counter
  have horder := h.order
  rw [hidle] at hcounter horder
  simp only [Evaluator.uncounted, Evaluator.hand, append_nil] at hcounter horder
  have hsized : ∀ g ∈ s.delivered ++ [f], g.Sized := forall_mem_concat h.sized hf
  by_cases hzero : s.pending = 0
  · simp only [if_pos hzero]
    refine ⟨h.holds, congrArg (· ++ [f]) horder, hsized, hcounter, fun _ _ => ⟨hzero, ?_⟩, h.ready⟩
    -- the counter is zero, so the drain task has counted off the frame it has in hand
    have hready := h.ready
    cases htask : s.drainTask with
    | uncount g =>
      rw [htask, DrainTask.counted] at hcounter
      omega
    | send g => exact absurd htask (hrace hzero g)
    | respool g =>
      rw [htask] at hready
      exact hready.elim
    | _ => rfl
  · simp only [if_neg hzero]
    exact ⟨h.holds, congrArg (· ++ [f]) horder, hsized, hcounter, nofun, h.ready⟩

theorem Ordered.stepEvaluator (hfits : Fits maxBytes s .evaluator)
    (hstep : stepEvaluator cap maxBytes s = some s') : ∃ frames', Ordered cap s' frames' := by
  have hcounter := h.counter
  have horder := h.order
  unfold Delivery.stepEvaluator at hstep
  split at hstep
  · cases hstep
  · rename_i f hev
    obtain ⟨hzero, hhand⟩ := h.direct f hev
    rw [hev] at hcounter horder
    -- with the evaluator sending directly the file is empty
    obtain rfl : frames = [] := by
      rw [hzero] at hcounter
      simp only [Evaluator.uncounted] at hcounter
      exact length_eq_zero_iff.mp (by omega)
    split at hstep
    · -- sent: there is nothing between the channel and this frame
      rename_i channel hsend
      cases hstep
      obtain ⟨-, rfl⟩ := of_guard hsend
      refine ⟨[], h.holds, ?_, h.sized, hcounter, nofun, ?_⟩
      · rw [hhand] at horder
        rw [hhand]
        simpa only [Evaluator.hand, append_nil, append_assoc] using horder
      · -- with nothing pending and nothing in hand the drain task is looking
        have hready := h.ready
        cases htask : s.drainTask with
        | look => trivial
        | capacity =>
          rw [htask] at hready
          exact absurd hzero hready
        | read =>
          rw [htask] at hready
          exact absurd hzero hready.1
        | recount =>
          rw [htask] at hready
          exact hready
        | _ =>
          rw [htask] at hhand
          cases hhand
    · cases hstep
      exact ⟨[], h.holds, horder, h.sized, hcounter, nofun, h.ready⟩
  · rename_i f hev
    rw [hev] at hcounter horder
    have hf : f.Sized := h.sized f (by
      rw [← horder]
      exact mem_append_right _ (mem_singleton_self f))
    obtain ⟨sp, hwrite⟩ := hfits f hev
    rw [hwrite] at hstep
    cases hstep
    refine ⟨frames ++ [f], h.holds.write hf hwrite, ?_, h.sized, ?_, nofun, h.ready⟩
    · simpa only [Evaluator.hand, append_nil, append_assoc] using horder
    · simp only [Evaluator.uncounted, length_append, length_singleton] at hcounter ⊢
      omega
  · rename_i hev
    rw [hev] at hcounter horder
    cases hstep
    refine ⟨frames, h.holds, horder, h.sized, hcounter, nofun, ?_⟩
    have hready := h.ready
    cases htask : s.drainTask with
    | capacity => exact Nat.succ_ne_zero _
    | read | uncount f =>
      rw [htask] at hready
      exact ⟨Nat.succ_ne_zero _, hready.2⟩
    | _ =>
      rw [htask] at hready
      exact hready

theorem Ordered.stepDrainTask (hstep : stepDrainTask cap maxBytes s = some s') : ∃ frames', Ordered
    cap s' frames' := by
  obtain ⟨hholds, horder, hsized, hcounter, hdirect, hready⟩ := h
  obtain ⟨spill, pending, channel, evaluator, task, delivered, taken⟩ := s
  dsimp only at hholds horder hsized hcounter hdirect hready
  cases task with
  | look =>
    cases hstep
    by_cases hzero : pending = 0
    · simp only [if_pos hzero]
      exact ⟨frames, hholds, horder, hsized, hcounter, hdirect, trivial⟩
    · simp only [if_neg hzero]
      exact ⟨frames, hholds, horder, hsized, hcounter, hdirect, hzero⟩
  | capacity =>
    cases hstep
    by_cases hcap : channel.length < cap
    · simp only [if_pos hcap]
      exact ⟨frames, hholds, horder, hsized, hcounter, hdirect, hready, hcap⟩
    · simp only [if_neg hcap]
      exact ⟨frames, hholds, horder, hsized, hcounter, hdirect, trivial⟩
  | read =>
    obtain ⟨hsome, hcap⟩ := hready
    simp only [Delivery.stepDrainTask] at hstep
    cases frames with
    | nil =>
      -- what is pending is in the file
      simp only [length_nil, DrainTask.counted] at hcounter
      omega
    | cons f frames =>
      obtain ⟨sp, hread, hholds'⟩ := hholds.read_cons
      rw [hread] at hstep
      cases hstep
      refine ⟨frames, hholds', ?_, hsized, ?_, fun g hg => absurd (hdirect g hg).1 hsome,
        hsome, hcap⟩
      · simpa only [DrainTask.hand, append_nil, append_assoc, singleton_append]
          using horder
      · simpa only [length_cons, DrainTask.counted] using hcounter
  | uncount f =>
    cases hstep
    obtain ⟨hsome, hcap⟩ := hready
    refine ⟨frames, hholds, horder, hsized, ?_, fun g hg => (nomatch (hdirect g hg).2), hcap⟩
    simp only [DrainTask.counted] at hcounter ⊢
    omega
  | send f =>
    have hcap : channel.length < cap := hready
    simp only [Delivery.stepDrainTask, trySend, if_pos hcap] at hstep
    cases hstep
    refine ⟨frames, hholds, ?_, hsized, hcounter, fun g hg => (nomatch (hdirect g hg).2), trivial⟩
    simpa only [DrainTask.hand, append_nil, append_assoc] using horder
  | respool f | recount => exact hready.elim

theorem Ordered.step {p : Party} (hok : Ok maxBytes s p)
    (hstep : step cap maxBytes s p = some s') : ∃ frames', Ordered cap s' frames' := by
  cases p with
  | deliver f =>
    simp only [Delivery.step] at hstep
    split at hstep
    · rename_i hidle
      cases hstep
      exact ⟨frames, h.deliver hidle hok.2.1 hok.2.2⟩
    · cases hstep
  | evaluator => exact h.stepEvaluator hok.1 hstep
  | drainTask => exact h.stepDrainTask hstep
  | client =>
    obtain ⟨hholds, horder, hsized, hcounter, hdirect, hready⟩ := h
    simp only [Delivery.step] at hstep
    split at hstep
    · cases hstep
    rename_i f channel hchannel
    cases hstep
    refine ⟨frames, hholds, ?_, hsized, hcounter, hdirect, ?_⟩
    · rw [hchannel] at horder
      simpa only [append_assoc, cons_append, nil_append] using horder
    · -- the channel gets shorter
      have hless : channel.length < s.channel.length := by
        rw [hchannel]
        exact Nat.lt_succ_self _
      cases htask : s.drainTask with
      | read | uncount g =>
        rw [htask] at hready
        exact ⟨hready.1, hless.trans hready.2⟩
      | send g =>
        rw [htask] at hready
        exact hless.trans hready
      | _ =>
        rw [htask] at hready
        exact hready

end

/-- **Spillover keeps order and loses nothing.** The frames the client has taken are the first
of the delivered ones, and the others are on their way in order, if every step meets `Ok` and
the spill file is empty when the route is built. -/
theorem taken_in_order {parties : List Party}
    (hrun : Run (step cap maxBytes) (Ok maxBytes) (.build []) parties s) :
    s.taken <+: s.delivered ∧ ∃ frames, s.spill.Holds frames ∧
        s.taken ++ s.channel ++ s.drainTask.hand ++ frames ++ s.evaluator.hand = s.delivered := by
  obtain ⟨frames, h⟩ : ∃ frames, Ordered cap s frames := by
    refine hrun.invariant (P := fun s => ∃ frames, Ordered cap s frames) ?_ ⟨[], .build cap⟩
    rintro s p s' ⟨frames, h⟩ hok hstep
    exact h.step hok hstep
  refine ⟨?_, frames, h.holds, h.order⟩
  rw [← h.order]
  simp only [append_assoc]
  exact prefix_append _ _

instance (maxBytes : Nat) (s : Route) (p : Party) : Decidable (Fits maxBytes s p) := by
  have hok : ∀ f, Decidable (∃ sp, writeFrame maxBytes s.spill f = .ok sp) := by
    intro f
    cases writeFrame maxBytes s.spill f with
    | ok sp => exact isTrue ⟨sp, rfl⟩
    | error e => exact isFalse nofun
  cases p with
  | evaluator =>
    dsimp only [Fits]
    cases s.evaluator with
    | spill f => exact decidable_of_iff (∃ sp, writeFrame maxBytes s.spill f = .ok sp) (by simp)
    | _ => exact isTrue nofun
  | drainTask =>
    dsimp only [Fits]
    cases s.drainTask with
    | respool f => exact decidable_of_iff (∃ sp, writeFrame maxBytes s.spill f = .ok sp) (by simp)
    | _ => exact isTrue nofun
  | _ => exact isTrue trivial

instance (maxBytes : Nat) (s : Route) (p : Party) : Decidable (Ok maxBytes s p) := by
  have hsend : Decidable (∀ g, s.drainTask ≠ .send g) := by
    cases s.drainTask with
    | send f => exact isFalse fun h => h f rfl
    | _ => exact isTrue nofun
  cases p <;> dsimp only [Ok] <;> infer_instance

/-- The first frame is sent, the second one spilled and drained, the third spilled behind it. -/
def drained : List Party :=
  [.deliver (.binary [1]), .evaluator, .deliver (.binary [2]), .evaluator, .evaluator, .evaluator,
    .client, .drainTask, .drainTask, .deliver (.binary [3]), .evaluator, .evaluator, .drainTask,
    .drainTask, .drainTask, .client]

theorem taken_in_order_drained : ∃ s,
    Run (step 1 64) (Ok 64) (.build []) drained s ∧ s.taken = [.binary [1], .binary [2]] ∧
      s.delivered = [.binary [1], .binary [2], .binary [3]] ∧ s.taken <+: s.delivered := by
  refine Run.exists_of_check (fun s => s.taken = [.binary [1], .binary [2]] ∧
      s.delivered = [.binary [1], .binary [2], .binary [3]])
    (by decide +kernel) fun s hrun ⟨htaken, hdelivered⟩ => ?_
  exact ⟨htaken, hdelivered, (taken_in_order hrun).1⟩

/-- The third frame is delivered while the drain task has the second one in hand. -/
def overtaking : List Party :=
  [.deliver (.binary [1]), .evaluator, .deliver (.binary [2]), .evaluator, .evaluator, .evaluator,
    .client, .drainTask, .drainTask, .drainTask, .drainTask, .deliver (.binary [3]), .evaluator,
    .drainTask, .drainTask, .drainTask, .client]

/-- The client gets the third frame before the second one, which is spilled again. -/
theorem frame_overtaken : ∃ s,
    Run (step 1 64) (Fits 64) (.build []) overtaking s ∧ s.taken = [.binary [1], .binary [3]] ∧
      s.delivered = [.binary [1], .binary [2], .binary [3]] ∧ ¬ s.taken <+: s.delivered := by
  decide +kernel

end CqServer.Delivery
