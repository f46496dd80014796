import CqServer.Replication.Shipper

/-!
# A primary and its standbys

The primary writes its topic and its log, one entry of a write at a time; each
destination has its own connection. The acks that arrive raise the topic's
`last_replicated_sequence`, and a client that asked for `AckType::Replicated` gets
its success once that has reached the sequence of its write.

An ack says that a frame was handled, not that its entry was applied, and the
client's wait compares sequences: an entry that was filtered out, was archived
before it was shipped, did not decode or met a standby without the topic counts as
replicated as soon as a later one is acknowledged (`unknown_topic_acknowledged`).
-/

namespace CqServer

open Lib List Function
open Sequence (Rotation)

structure Cluster (ι : Type*) where
  primary : AnyTopic
  journal : Journal
  unwritten : List LogEntry
  replicated : Nat
  acked : List Nat
  peers : ι → Peer

namespace Cluster

variable {ι : Type*}

def init (σ₀ : Schema) (standbys : ι → Option Schema) : Cluster ι where
  primary := .new σ₀
  journal := .init
  unwritten := []
  replicated := 0
  acked := []
  peers i := ⟨(standbys i).map AnyTopic.new, none, [], [], []⟩

inductive Move (ι : Type*) where
  | write (subscriptions : Nat) (w : LiveWrite)
  /-- The next entry of the write is appended, after a rotation if it does not fit. -/
  | append (r : Rotation)
  | forceRotate (r : Rotation)
  /-- A reclaim deletes a sealed segment. -/
  | prune (id : Nat)
  | peer (i : ι) (m : PeerMove)
  /-- The shipper's ack reader calls `mark_replicated`. -/
  | ackArrives (i : ι)
  /-- `finish_publish_ack` sends the success for a write. -/
  | publishAck (sequence : Nat)

section System
variable [HostText] [DecidableEq ι]

variable (cfg : TopicConfig) (dests : ι → Destination) (decode : Decode)
  (s : Cluster ι)

def step : Move ι → Option (Cluster ι)
  | .write subscriptions w =>
    -- the topic's lock is held until the entries are appended
    if s.unwritten.isEmpty then
      let o := s.primary.write cfg subscriptions w
      some { s with primary := o.1, unwritten := o.2 }
    else none
  | .append r =>
    match s.unwritten with
    | [] => none
    | e :: rest => some { s with journal := (s.journal.rotate r).append e, unwritten := rest }
  | .forceRotate r => some { s with journal := s.journal.rotate r }
  | .prune id => some { s with journal := s.journal.prune id }
  | .peer i m =>
    ((s.peers i).step (dests i) decode s.journal m).map fun x =>
      { s with peers := update s.peers i x }
  | .ackArrives i =>
    match (s.peers i).shipper, (s.peers i).acks with
    | some _, seq :: rest =>
      some { s with
        replicated := max s.replicated seq
        peers := update s.peers i { s.peers i with acks := rest } }
    | _, _ => none
  | .publishAck seq =>
    if seq ∈ s.journal.history.map LogEntry.sequence ∧ seq ≤ s.replicated then
      some { s with acked := s.acked ++ [seq] }
    else none

def Everywhere (entries : List LogEntry) : Prop :=
  ∀ i, ∀ e ∈ entries, e.sequence ≤ (s.peers i).mark (dests i) cfg.originId

instance [Fintype ι] (cfg : TopicConfig) (dests : ι → Destination) (s : Cluster ι)
    (entries : List LogEntry) : Decidable (Everywhere cfg dests s entries) :=
  inferInstanceAs (Decidable (∀ _, ∀ e ∈ entries, _))

/-- The conditions on a step: what is written is legible, passes the filters and is
noted by a standby that gets it, a segment leaves the directory only when every standby has
applied it, and a standby that shares the primary's sequences has no writes of its
own. -/
def Ok : Move ι → Prop
  | .write subscriptions w => ∀ i, ∀ e ∈ (s.primary.write cfg subscriptions w).2,
      Deliverable (dests i) decode e
  | .append r => r = .archives → Everywhere cfg dests s s.journal.active.2
  | .forceRotate r => r = .archives → Everywhere cfg dests s s.journal.active.2
  | .prune id => Everywhere cfg dests s (s.journal.file id)
  | .peer i (.write _ _) => Topic.ownOrigin (dests i).config cfg.originId = false
  | _ => True

/-! ## The invariant -/

structure Inv : Prop where
  logged : Logged cfg.originId s.journal s.unwritten s.primary.2.nextSequence
  deliverable : ∀ i, ∀ e ∈ s.journal.history ++ s.unwritten, Deliverable (dests i) decode e
  peers : ∀ i, (s.peers i).Inv (dests i) decode cfg.originId s.journal s.unwritten
    s.primary.2.nextSequence
  replicated : 0 < s.replicated → ∃ i, s.replicated ≤ (s.peers i).mark (dests i) cfg.originId
  acked : ∀ seq ∈ s.acked, ∃ i, seq ∈ (s.peers i).applied

variable {cfg : TopicConfig} {dests : ι → Destination} {decode : Decode}
  {s s' : Cluster ι}

omit [DecidableEq ι] in
theorem Inv.init (σ₀ : Schema) {standbys : ι → Option Schema} (hknown : ∀ i, (standbys i).isSome) :
    Inv cfg dests decode (Cluster.init σ₀ standbys) := by
  have hmark : ∀ i, ((Cluster.init σ₀ standbys).peers i).mark (dests i) cfg.originId = 0 := by
    intro i
    obtain ⟨σ, hσ⟩ := Option.isSome_iff_exists.mp (hknown i)
    simp [Cluster.init, Peer.mark, hσ, AnyTopic.new, Topic.new, Topic.mark]
  refine ⟨⟨.nil, by rintro _ ⟨⟩⟩, by rintro _ _ ⟨⟩, ?_, fun h => absurd h (lt_irrefl _),
    by rintro _ ⟨⟩⟩
  intro i
  refine ⟨?_, ?_, by rintro _ ⟨⟩, ⟨0, (hmark i).le, le_rfl, by rintro _ ⟨⟩, ?_, by rintro _ ⟨⟩⟩,
    by rintro _ ⟨⟩, by rintro _ ⟨⟩⟩
  · simpa [Cluster.init] using hknown i
  · intro _ t ht
    obtain ⟨σ, hσ⟩ := Option.isSome_iff_exists.mp (hknown i)
    simp only [Cluster.init, hσ] at ht
    cases ht
    rfl
  · rfl

omit [DecidableEq ι] in
theorem Inv.rotate (h : Inv cfg dests decode s) {r : Rotation}
    (hok : r = .archives → Everywhere cfg dests s s.journal.active.2) :
    Inv cfg dests decode { s with journal := s.journal.rotate r } := by
  have hhistory := s.journal.rotate_history r
  refine ⟨⟨hhistory ▸ h.logged.sorted, hhistory ▸ h.logged.entries⟩, hhistory ▸ h.deliverable, ?_,
    h.replicated, h.acked⟩
  intro i
  refine (h.peers i).refile (Journal.rotate_file r) (Journal.active_le_rotate r) hhistory ?_
  intro id hid
  have hgone : id ∈ s.journal.gone ∨ r = .archives ∧ id = s.journal.active.1 := by
    cases r <;> simpa [Journal.rotate, Journal.leave] using hid
  rcases hgone with hold | ⟨hr, rfl⟩
  · exact .inl hold
  · rw [Journal.file_active]
    exact .inr (hok hr i)

omit [DecidableEq ι] in
theorem Inv.append (h : Inv cfg dests decode s) {e : LogEntry} {rest : List LogEntry}
    (hunwritten : s.unwritten = e :: rest) :
    Inv cfg dests decode { s with journal := s.journal.append e, unwritten := rest } := by
  have hlog : (s.journal.append e).history ++ rest = s.journal.history ++ s.unwritten := by
    rw [Journal.append_history, hunwritten, append_assoc]
    rfl
  refine ⟨⟨hlog ▸ h.logged.sorted, hlog ▸ h.logged.entries⟩, hlog ▸ h.deliverable, ?_,
    h.replicated, h.acked⟩
  intro i
  have hi := h.peers i
  rw [hunwritten] at hi
  exact hi.append

omit [DecidableEq ι] in
theorem Inv.prune (h : Inv cfg dests decode s) {id : Nat}
    (hok : Everywhere cfg dests s (s.journal.file id)) :
    Inv cfg dests decode { s with journal := s.journal.prune id } := by
  have hhistory := s.journal.prune_history id
  refine ⟨⟨hhistory ▸ h.logged.sorted, hhistory ▸ h.logged.entries⟩, hhistory ▸ h.deliverable, ?_,
    h.replicated, h.acked⟩
  intro i
  refine (h.peers i).refile (Journal.prune_file id) (by rw [Journal.prune_active]) hhistory ?_
  intro id' hid'
  rcases Journal.mem_gone_prune hid' with hold | rfl
  · exact .inl hold
  · exact .inr (hok i)

omit [DecidableEq ι] in
theorem Inv.write (h : Inv cfg dests decode s) (hunwritten : s.unwritten = [])
    {subscriptions : Nat} {w : LiveWrite}
    (hok : ∀ i, ∀ e ∈ (s.primary.write cfg subscriptions w).2, Deliverable (dests i) decode e) :
    Inv cfg dests decode { s with
      primary := (s.primary.write cfg subscriptions w).1
      unwritten := (s.primary.write cfg subscriptions w).2 } := by
  have hmarks := AnyTopic.discover_watermarks subscriptions s.primary w.discovers
  have hlogs : Logs cfg (s.primary.discover subscriptions w.discovers).2
      (s.primary.write cfg subscriptions w).1.2 (s.primary.write cfg subscriptions w).2 :=
    w.run_logs _
  have hcounter := hmarks.next ▸ hlogs.counter
  have hrange : ∀ e ∈ (s.primary.write cfg subscriptions w).2,
      s.primary.2.nextSequence < e.sequence ∧
        e.sequence ≤ (s.primary.write cfg subscriptions w).1.2.nextSequence :=
    fun e he => hmarks.next ▸ hlogs.range e he
  have hlogged := h.logged
  constructor
  case logged =>
    constructor
    · refine pairwise_append.mpr ⟨hlogged.history_sorted, hlogs.sorted, ?_⟩
      intro e he e' he'
      have := (hlogged.entries e (mem_append_left _ he)).2.2
      have := (hrange e' he').1
      omega
    · intro e he
      rcases mem_append.mp he with he | he
      · obtain ⟨horigin, hpos, hle⟩ := hlogged.entries e (mem_append_left _ he)
        exact ⟨horigin, hpos, hle.trans hcounter⟩
      · have := hrange e he
        exact ⟨hlogs.origin e he, by omega, this.2⟩
  case deliverable =>
    intro i e he
    rcases mem_append.mp he with he | he
    · exact h.deliverable i e (mem_append_left _ he)
    · exact hok i e he
  case peers =>
    intro i
    have hi := h.peers i
    rw [hunwritten] at hi
    exact hi.write hcounter fun e he => (hrange e he).1
  case replicated => exact h.replicated
  case acked => exact h.acked

theorem Inv.setPeer (h : Inv cfg dests decode s) {i : ι} {x : Peer}
    (hx : x.Inv (dests i) decode cfg.originId s.journal s.unwritten s.primary.2.nextSequence)
    (hmark : (s.peers i).mark (dests i) cfg.originId ≤ x.mark (dests i) cfg.originId)
    (happlied : ∀ seq ∈ (s.peers i).applied, seq ∈ x.applied) :
    Inv cfg dests decode { s with peers := update s.peers i x } := by
  refine ⟨h.logged, h.deliverable, ?_, ?_, ?_⟩
  · intro k
    by_cases hk : k = i
    · subst hk
      simpa using hx
    · simpa [update_of_ne hk] using h.peers k
  · intro hpos
    obtain ⟨k, hle⟩ := h.replicated hpos
    refine ⟨k, hle.trans ?_⟩
    by_cases hk : k = i
    · subst hk
      simpa using hmark
    · simp [update_of_ne hk]
  · intro seq hseq
    obtain ⟨k, hmem⟩ := h.acked seq hseq
    refine ⟨k, ?_⟩
    by_cases hk : k = i
    · subst hk
      simpa using happlied seq hmem
    · simpa [update_of_ne hk] using hmem

theorem Inv.ackArrives (h : Inv cfg dests decode s) {i : ι} {seq : Nat} {rest : List Nat}
    (hacks : (s.peers i).acks = seq :: rest) :
    Inv cfg dests decode { s with
      replicated := max s.replicated seq
      peers := update s.peers i { s.peers i with acks := rest } } := by
  have hi := h.peers i
  have hle : seq ≤ (s.peers i).mark (dests i) cfg.originId :=
    hi.acks seq (by rw [hacks]; exact mem_cons_self)
  have hkeep : Peer.Inv (dests i) decode cfg.originId s.journal s.unwritten
      s.primary.2.nextSequence { s.peers i with acks := rest } := by
    obtain ⟨sent, hs⟩ := hi.stream
    refine hi.keep rfl rfl ?_ ⟨sent, { hs with }⟩
    intro seq' hseq'
    rw [hacks]
    exact mem_cons_of_mem _ hseq'
  have hset := h.setPeer hkeep le_rfl fun _ hseq => hseq
  refine { hset with replicated := ?_ }
  intro _
  rcases le_total s.replicated seq with hcase | hcase
  · refine ⟨i, ?_⟩
    dsimp only
    rw [max_eq_right hcase, update_self]
    exact hle
  · show ∃ k, max s.replicated seq ≤ _
    rw [max_eq_left hcase]
    by_cases hzero : s.replicated = 0
    · exact ⟨i, by rw [hzero]; exact Nat.zero_le _⟩
    · exact hset.replicated (Nat.pos_of_ne_zero hzero)

omit [DecidableEq ι] in
/-- A write whose sequence is covered by the acks has been applied somewhere. -/
theorem Inv.publishAck (h : Inv cfg dests decode s) {seq : Nat}
    (hmem : seq ∈ s.journal.history.map LogEntry.sequence) (hle : seq ≤ s.replicated) :
    Inv cfg dests decode { s with acked := s.acked ++ [seq] } := by
  refine { h with acked := ?_ }
  intro seq' hseq'
  rcases mem_append.mp hseq' with hseq' | hseq'
  · exact h.acked seq' hseq'
  rw [mem_singleton.mp hseq']
  obtain ⟨e, he, rfl⟩ := mem_map.mp hmem
  have hpos := (h.logged.entries e (mem_append_left _ he)).2.1
  obtain ⟨i, hi⟩ := h.replicated (by omega)
  exact ⟨i, (h.peers i).applied e he (hle.trans hi)⟩

theorem Inv.step (hnames : ∀ i, (dests i).Names cfg.originId) (h : Inv cfg dests decode s)
    {m : Move ι} (hok : Ok cfg dests decode s m) (hstep : step cfg dests decode s m = some s') :
    Inv cfg dests decode s' := by
  cases m with
  | write subscriptions w =>
    obtain ⟨hempty, rfl⟩ := of_guard hstep
    exact h.write (isEmpty_iff.mp hempty) hok
  | append r =>
    cases hunwritten : s.unwritten with
    | nil => simp [Cluster.step, hunwritten] at hstep
    | cons e rest =>
      simp only [Cluster.step, hunwritten] at hstep
      cases hstep
      exact (h.rotate hok).append hunwritten
  | forceRotate r =>
    cases hstep
    exact h.rotate hok
  | prune id =>
    cases hstep
    exact h.prune hok
  | peer i m =>
    obtain ⟨x, hx, rfl⟩ := Option.map_eq_some_iff.mp hstep
    have hadvances : (s.peers i).mark (dests i) cfg.originId ≤ x.mark (dests i) cfg.originId ∧
        ∀ seq ∈ (s.peers i).applied, seq ∈ x.applied := Peer.step_advances hx
    refine h.setPeer ?_ hadvances.1 hadvances.2
    refine (h.peers i).step h.logged (hnames i) ?_ ?_ hx
    · intro e he
      exact h.deliverable i e (mem_append_left _ he)
    · rintro subscriptions w rfl
      exact hok
  | ackArrives i =>
    simp only [Cluster.step] at hstep
    split at hstep
    · rename_i seq rest _ hacks
      cases hstep
      exact h.ackArrives hacks
    · cases hstep
  | publishAck seq =>
    obtain ⟨hcond, rfl⟩ := of_guard hstep
    exact h.publishAck hcond.1 hcond.2

/-- **Replicated acks are sound**: in every run that meets the conditions, a write
that was acknowledged as replicated had been applied by some standby. -/
theorem acked_applied (hnames : ∀ i, cfg.originId = "" ∨ cfg.originId ≠ (dests i).config.originId)
    {σ₀ : Schema} {standbys : ι → Option Schema} (hknown : ∀ i, (standbys i).isSome)
    {moves : List (Move ι)}
    (hrun : Run (step cfg dests decode) (Ok cfg dests decode) (init σ₀ standbys) moves s)
    {seq : Nat} (hacked : seq ∈ s.acked) : ∃ i, seq ∈ (s.peers i).applied := by
  have hinv : Inv cfg dests decode s :=
    hrun.invariant (fun _ _ _ h hok hstep => h.step hnames hok hstep) (Inv.init σ₀ hknown)
  exact hinv.acked seq hacked

end System

/-! ## Two runs -/

section Quotes
open Quotes

open Unused

def named : TopicConfig := { config with originId := "a" }

def dests : Unit → Destination := fun _ => { config := { config with originId := "b" } }

instance (dest : Destination) (e : LogEntry) : Decidable (Deliverable dest some e) :=
  have : Decidable (AnyTopic.Noted dest.config some (dest.frame some e)) :=
    inferInstanceAs (Decidable (∃ d, _ = some d ∧ _))
  decidable_of_iff' _ (deliverable_iff ..)

instance (s : Cluster Unit) : (m : Move Unit) → Decidable (Ok named dests some s m)
  | .write .. | .append _ | .forceRotate _ | .prune _ | .ackArrives _ | .publishAck _
  | .peer _ .connect | .peer _ .poll | .peer _ (.receive ..) | .peer _ .disconnect
  | .peer _ .hangUp | .peer _ (.write ..) => by
    dsimp only [Ok]
    infer_instance

/-- A publish is shipped, applied and acknowledged, and its segment archived. -/
def shipped : List (Move Unit) :=
  [.write 0 (.upsertMap 0 true (full "A" 10 11)), .append .no, .peer () .connect, .peer () .poll,
    .peer () .poll, .peer () .poll, .peer () (.receive 0 1), .ackArrives (), .publishAck 1,
    .forceRotate .archives]

theorem acked_applied_shipped : ∃ s,
    Run (step named dests some) (Ok named dests some) (init schema fun _ => some schema) shipped s ∧
      1 ∈ s.acked ∧ ∃ i, 1 ∈ (s.peers i).applied := by
  refine Run.exists_of_check (fun s => 1 ∈ s.acked) (by decide +kernel) fun s hrun hacked => ?_
  have hnames : named.originId ≠ (dests ()).config.originId := by decide
  exact ⟨hacked, acked_applied (fun _ => .inr hnames) (fun _ => rfl) hrun hacked⟩

/-- The standby has no such topic. -/
theorem unknown_topic_acknowledged : ∃ s,
    Run (step named dests some) (fun _ _ => True) (init schema fun _ => none) shipped s ∧
      1 ∈ s.acked ∧ ∀ i, 1 ∉ (s.peers i).applied := by
  decide +kernel

end Quotes

end Cluster

end CqServer
