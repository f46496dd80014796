import CqServer.Replication.Journal

/-!
# The shipper, its connection and the standby

A `TopicShipper` lives as long as a connection. It starts from the marks in the
standby's `Hello`, reads the log directory cycle after cycle and sends what is
beyond its own mark; the standby applies what arrives in order and acknowledges
every frame, applied or not. When the connection breaks the frames under way may
still arrive, or may be lost, and the next connection starts over.

The frames under way are a window on the log: from the standby's mark to the
shipper's (`Stream`). What keeps this true is that no file leaves the directory
before the standby has applied it, and that the standby notes every frame that is
sent.
-/

namespace CqServer

open Lib List Option AnyTopic

structure FilterSpec where
  column : String
  value : String

structure TransformSpec where
  stripFields : List String

section Filters
variable [HostText]

/-- `apply_filter`: tombstones and what is not a JSON object always ship. -/
def applyFilter (decode : Decode) (payload : Option JsonMap) :
    Option FilterSpec → Bool
  | none => true
  | some f =>
    match payload.bind decode with
    | none => true
    | some m =>
      match m.get? f.column with
      | some (.string s) => s = f.value
      | some (.number n) => n.render = f.value
      | some (.bool b) => (if b then "true" else "false") = f.value
      | _ => false

/-- `apply_transform`: the payload is written anew only if a field was there to
strip. -/
def applyTransform (decode : Decode) (payload : Option JsonMap) :
    Option TransformSpec → Option JsonMap
  | none => payload
  | some t =>
    match payload.bind decode with
    | none => payload
    | some m =>
      if t.stripFields.any fun field => (m.get? field).isSome then
        some (m.filter fun entry => entry.1 ∉ t.stripFields)
      else payload

end Filters

/-! ## The shipper -/

/-- A destination: the topic's configuration there, whose origin is the peer's
instance name, and what is done to the entries on the way. -/
structure Destination where
  config : TopicConfig
  filter : Option FilterSpec := none
  transform : Option TransformSpec := none

/-- `TopicShipper`, with the reader of the cycle that is under way. -/
structure TopicShipper where
  lastShipped : AList (fun _ : String => Nat)
  resumeSegment : Nat
  reader : Option Cursor

def TopicShipper.sent (sh : TopicShipper) (origin : String) : Nat :=
  (sh.lastShipped.lookup origin).getD 0

section Shipping
variable [HostText]

variable (dest : Destination) (decode : Decode)

def Destination.frame (e : LogEntry) : LogEntry :=
  { e with payload := applyTransform decode e.payload dest.transform }

/-- The loop of `ship_pending_half`: what is done with an entry of the log. -/
def TopicShipper.ship (sh : TopicShipper) (e : LogEntry) : TopicShipper × Option LogEntry :=
  if e.origin ≠ "" ∧ e.origin = dest.config.originId then (sh, none)
  else if e.sequence ≤ sh.sent e.origin then (sh, none)
  else
    ({ sh with lastShipped := sh.lastShipped.insert e.origin e.sequence },
      if applyFilter decode e.payload dest.filter then some (dest.frame decode e) else none)

structure Peer where
  standby : Option AnyTopic
  shipper : Option TopicShipper
  wire : List LogEntry
  acks : List Nat
  applied : List Nat

/-- The marks of `Hello`; under `""` the standby reports its own counter. -/
def Peer.hello (x : Peer) : AList (fun _ : String => Nat) :=
  match x.standby with
  | none => ∅
  | some t => t.2.replicatedHighwater.insert "" t.2.nextSequence

inductive PeerMove where
  | connect
  | poll
  /-- The standby handles the next frame. -/
  | receive (subscriptions now : Nat)
  /-- The shipper's end breaks; its unread acks are lost. -/
  | disconnect
  /-- The standby's end breaks; the frames under way are lost. -/
  | hangUp
  /-- A write of the standby's own. -/
  | write (subscriptions : Nat) (w : LiveWrite)

/-- Of an entry that is not legible the standby gets a payload that is no JSON object. -/
def Peer.applies (x : Peer) (e : LogEntry) : Bool :=
  e.Legible && x.standby.any fun t => (e.decoded decode).any fun d =>
    !t.2.replayIsDuplicate dest.config d.origin d.sequence && !d.skipped dest.config

/-- A step of the shipper; a file that is gone ends the connection. -/
def Peer.poll (j : Journal) (x : Peer) (sh : TopicShipper) : Peer :=
  match sh.reader with
  | none => { x with shipper := some { sh with reader := some (j.list sh.resumeSegment) } }
  | some r =>
    match r.read j with
    | .drained => { x with shipper := some { sh with resumeSegment := r.last, reader := none } }
    | .failed => { x with shipper := none, acks := [] }
    | .moved r' => { x with shipper := some { sh with reader := some r' } }
    | .entry e r' =>
      let out := { sh with reader := some r' }.ship dest decode e
      { x with shipper := some out.1, wire := x.wire ++ out.2.toList }

/-- `run_session` handles a frame: `apply_entry`, then the ack. -/
def Peer.receive (subscriptions now : Nat) (x : Peer) (e : LogEntry)
    (rest : List LogEntry) : Peer where
  standby := x.standby.map fun t =>
    if e.Legible then t.replayEntry dest.config decode subscriptions now e else t
  shipper := x.shipper
  wire := rest
  acks := x.acks ++ [e.sequence]
  applied := if x.applies dest decode e then x.applied ++ [e.sequence] else x.applied

def Peer.step (j : Journal) (x : Peer) : PeerMove → Option Peer
  | .connect =>
    -- the standby serves one session at a time
    if x.shipper.isNone && x.wire.isEmpty then
      some { x with shipper := some ⟨x.hello, 0, none⟩, acks := [] }
    else none
  | .poll => x.shipper.map (x.poll dest decode j)
  | .receive subscriptions now =>
    match x.wire with
    | [] => none
    | e :: rest => some (x.receive dest decode subscriptions now e rest)
  | .disconnect => some { x with shipper := none, acks := [] }
  | .hangUp => if x.shipper.isNone then some { x with wire := [] } else none
  | .write subscriptions w =>
    some { x with standby := x.standby.map fun t => (t.write dest.config subscriptions w).1 }

end Shipping

/-! ## The standby's mark -/

section Marks
variable {cfg : TopicConfig}

section
variable {σ τ : Schema} {t : Topic σ} {u : Topic τ}

theorem SameMarks.mark (h : SameMarks t u)
    (origin : String) : u.mark cfg origin = t.mark cfg origin := by
  unfold Topic.mark
  rw [h.applied, h.highwater]

theorem Ahead.mark_le (h : Ahead t u) (origin : String) :
    t.mark cfg origin ≤ u.mark cfg origin := by
  unfold Topic.mark
  split
  · exact h.applied
  cases hlook : t.replicatedHighwater.lookup origin with
  | none => exact Nat.zero_le _
  | some hw =>
    obtain ⟨hw', hlook', hle⟩ := h.highwater origin hw hlook
    rw [hlook']
    exact hle

theorem Topic.hello_mark {origin : String} (hnames : origin = "" ∨ origin ≠ cfg.originId)
    (hlevel : ownOrigin cfg origin = true → t.nextSequence = t.lastAppliedSequence) :
    ((t.replicatedHighwater.insert "" t.nextSequence).lookup origin).getD 0 =
      t.mark cfg origin := by
  unfold mark
  by_cases horigin : origin = ""
  · have hown : ownOrigin cfg origin = true := by simp [ownOrigin, horigin]
    rw [if_pos hown, horigin, AList.lookup_insert, getD_some, hlevel hown]
  · have hown : ownOrigin cfg origin = false := by
      simp [ownOrigin, horigin, hnames.resolve_left horigin]
    simp [hown, AList.lookup_insert_ne horigin]

end

variable [HostText] {decode : Decode}

theorem AnyTopic.write_ahead (subscriptions : Nat) (t : AnyTopic) (w : LiveWrite) :
    Ahead t.2 (t.write cfg subscriptions w).1.2 := by
  have hlogs : Logs cfg (t.discover subscriptions w.discovers).2
      (t.write cfg subscriptions w).1.2 (t.write cfg subscriptions w).2 := w.run_logs _
  exact (discover_watermarks subscriptions t w.discovers).ahead.trans
    (.of_eq hlogs.applied hlogs.highwater)

/-- A frame that the standby decodes and has not seen is noted. -/
theorem AnyTopic.replayEntry_noted {t : AnyTopic} {e : LogEntry} (hnoted : Noted cfg decode e)
    (hnew : t.2.replayIsDuplicate cfg e.origin e.sequence = false) (subscriptions now : Nat) :
    ∃ u : AnyTopic, SameMarks t.2 u.2 ∧ t.replayEntry cfg decode subscriptions now e =
      ⟨u.1, u.2.replayNoteApplied cfg e.origin e.sequence⟩ := by
  obtain ⟨d, hd, hskip⟩ := hnoted
  obtain ⟨horigin, hseq⟩ := LogEntry.decoded_fields hd
  have heq : t.replayEntry cfg decode subscriptions now e = t.replay cfg subscriptions now d := by
    simp [replayEntry, hd]
  rw [heq, ← horigin, ← hseq]
  rcases replay_cases subscriptions now t d with ⟨hdup, -⟩ | ⟨hs, -⟩ | ⟨-, hu⟩
  · rw [horigin, hseq, hnew] at hdup
    cases hdup
  · rw [hskip] at hs
    cases hs
  · exact hu

end Marks

section Streams

def Peer.mark (dest : Destination) (origin : String) (x : Peer) : Nat :=
  match x.standby with
  | some t => t.2.mark dest.config origin
  | none => 0

/-- The entry is sent, and noted by a standby that gets it. -/
@[mk_iff]
structure Deliverable [HostText] (dest : Destination) (decode : Decode) (e : LogEntry) :
    Prop where
  legible : e.Legible
  passes : applyFilter decode e.payload dest.filter = true
  noted : Noted dest.config decode (dest.frame decode e)

structure Logged (origin : String) (j : Journal) (unwritten : List LogEntry) (counter : Nat) :
    Prop where
  sorted : (j.history ++ unwritten).Pairwise fun e e' => e.sequence < e'.sequence
  entries : ∀ e ∈ j.history ++ unwritten, e.origin = origin ∧ 0 < e.sequence ∧ e.sequence ≤ counter

/-- Where a shipper is: it has dealt with everything up to `sent`. -/
structure TopicShipper.Tracks (sh : TopicShipper) (origin : String) (j : Journal) (sent : Nat) :
    Prop where
  sent_eq : sh.sent origin = sent
  resume_le : sh.resumeSegment ≤ j.active.1
  resumed : ∀ id < sh.resumeSegment, ∀ e ∈ j.file id, e.sequence ≤ sent
  reading : ∀ r, sh.reader = some r → r.Reads j sent

variable (dest : Destination) (decode : Decode)

/-- The frames under way are the entries between two marks. -/
structure Stream (origin : String) (j : Journal) (unwritten : List LogEntry) (counter : Nat)
    (x : Peer) (sent : Nat) : Prop where
  mark_le : x.mark dest origin ≤ sent
  sent_le : sent ≤ counter
  ahead : ∀ e ∈ unwritten, sent < e.sequence
  wire : x.wire = (window LogEntry.sequence j.history (x.mark dest origin) sent).map
    (dest.frame decode)
  shipper : ∀ sh, x.shipper = some sh → sh.Tracks origin j sent

structure Peer.Inv (origin : String) (j : Journal) (unwritten : List LogEntry) (counter : Nat)
    (x : Peer) : Prop where
  known : x.standby.isSome = true
  hello : Topic.ownOrigin dest.config origin = true →
    ∀ t, x.standby = some t → t.2.nextSequence = t.2.lastAppliedSequence
  gone : ∀ id ∈ j.gone, ∀ e ∈ j.file id, e.sequence ≤ x.mark dest origin
  stream : ∃ sent, Stream dest decode origin j unwritten counter x sent
  acks : ∀ s ∈ x.acks, s ≤ x.mark dest origin
  applied : ∀ e ∈ j.history, e.sequence ≤ x.mark dest origin → e.sequence ∈ x.applied

variable {dest : Destination} {decode : Decode} {origin : String}
  {j j' : Journal} {unwritten : List LogEntry} {counter : Nat} {x : Peer}

theorem Logged.history_sorted (h : Logged origin j unwritten counter) :
    j.history.Pairwise fun e e' => e.sequence < e'.sequence :=
  (pairwise_append.mp h.sorted).1

/-! ### The log changes -/

variable {sent : Nat} {sh : TopicShipper}

theorem TopicShipper.Tracks.refile (h : sh.Tracks origin j sent)
    (hfile : ∀ id, j'.file id = j.file id) (hactive : j.active.1 ≤ j'.active.1) :
    sh.Tracks origin j' sent where
  sent_eq := h.sent_eq
  resume_le := h.resume_le.trans hactive
  resumed := by
    intro id hid e he
    rw [hfile] at he
    exact h.resumed id hid e he
  reading r hr := (h.reading r hr).congr hfile hactive

theorem TopicShipper.Tracks.append (h : sh.Tracks origin j sent) (e : LogEntry) :
    sh.Tracks origin (j.append e) sent where
  __ := h
  resumed := by
    intro id hid e' he'
    have hne : id ≠ j.active.1 := (hid.trans_le h.resume_le).ne
    rw [Journal.append_file, if_neg hne] at he'
    exact h.resumed id hid e' he'
  reading r hr := (h.reading r hr).append e

/-- Segments are opened, and files leave that the standby has applied. -/
theorem Peer.Inv.refile (h : x.Inv dest decode origin j unwritten counter)
    (hfile : ∀ id, j'.file id = j.file id) (hactive : j.active.1 ≤ j'.active.1)
    (hhistory : j'.history = j.history)
    (hgone : ∀ id ∈ j'.gone, id ∈ j.gone ∨ ∀ e ∈ j.file id, e.sequence ≤ x.mark dest origin) :
    x.Inv dest decode origin j' unwritten counter where
  __ := h
  gone := by
    intro id hid e he
    rw [hfile] at he
    rcases hgone id hid with hold | hnew
    · exact h.gone id hold e he
    · exact hnew e he
  stream := by
    obtain ⟨sent, hs⟩ := h.stream
    refine ⟨sent, hs.mark_le, hs.sent_le, hs.ahead, ?_, ?_⟩
    · rw [hhistory]
      exact hs.wire
    · intro sh hsh
      exact (hs.shipper sh hsh).refile hfile hactive
  applied := by
    rw [hhistory]
    exact h.applied

variable {e : LogEntry}

/-- The next entry of a write reaches its file: it is beyond both marks. -/
theorem Peer.Inv.append (h : x.Inv dest decode origin j (e :: unwritten) counter) :
    x.Inv dest decode origin (j.append e) unwritten counter := by
  obtain ⟨sent, hs⟩ := h.stream
  have hsent : sent < e.sequence := hs.ahead e mem_cons_self
  have hmark := hs.mark_le
  refine { h with gone := ?gone, stream := ?stream, applied := ?applied }
  case gone =>
    intro id hid e' he'
    have hne : id ≠ j.active.1 := (j.kept id hid).ne
    rw [Journal.append_file, if_neg hne] at he'
    exact h.gone id hid e' he'
  case stream =>
    refine ⟨sent, hmark, hs.sent_le, fun e' he' => hs.ahead e' (mem_cons_of_mem _ he'), ?_, ?_⟩
    · rw [Journal.append_history, window_append_above]
      · exact hs.wire
      · intro e' he'
        rw [mem_singleton.mp he']
        exact hsent
    · intro sh hsh
      exact (hs.shipper sh hsh).append e
  case applied =>
    intro e' he' hle
    rw [Journal.append_history] at he'
    rcases mem_append.mp he' with he' | he'
    · exact h.applied e' he' hle
    · rw [mem_singleton.mp he'] at hle
      omega

theorem Peer.Inv.write (h : x.Inv dest decode origin j [] counter) {entries : List LogEntry}
    {counter' : Nat} (hcounter : counter ≤ counter')
    (hentries : ∀ e ∈ entries, counter < e.sequence) :
    x.Inv dest decode origin j entries counter' where
  __ := h
  stream := by
    obtain ⟨sent, hs⟩ := h.stream
    refine ⟨sent, hs.mark_le, hs.sent_le.trans hcounter, ?_, hs.wire, hs.shipper⟩
    intro e he
    exact hs.sent_le.trans_lt (hentries e he)

/-! ### Connections -/

/-- The names tell the primary from the standby, unless the primary has none. -/
def Destination.Names (dest : Destination) (origin : String) : Prop :=
  origin = "" ∨ origin ≠ dest.config.originId

variable {y : Peer}

/-- With nothing under way the stream is at the standby's mark. -/
theorem Stream.rest (h : Stream dest decode origin j unwritten counter x sent)
    (hstandby : y.standby = x.standby) (hwire : y.wire = [])
    (hshipper : ∀ sh, y.shipper = some sh → sh.Tracks origin j (x.mark dest origin)) :
    Stream dest decode origin j unwritten counter y (x.mark dest origin) := by
  have hmark : y.mark dest origin = x.mark dest origin := by simp only [Peer.mark, hstandby]
  refine ⟨hmark.le, h.mark_le.trans h.sent_le, ?_, ?_, hshipper⟩
  · intro e he
    exact h.mark_le.trans_lt (h.ahead e he)
  · rw [hwire, hmark, window_self, map_nil]

section
variable (h : x.Inv dest decode origin j unwritten counter)
include h

theorem Peer.Inv.hello_eq (hnames : dest.Names origin) :
    (x.hello.lookup origin).getD 0 = x.mark dest origin := by
  obtain ⟨t, ht⟩ := isSome_iff_exists.mp h.known
  simp only [Peer.hello, Peer.mark, ht]
  exact Topic.hello_mark hnames fun hown => h.hello hown t ht

theorem Peer.Inv.of_mark (hmark : y.mark dest origin = x.mark dest origin)
    (hknown : y.standby.isSome = true)
    (hhello : Topic.ownOrigin dest.config origin = true →
      ∀ t, y.standby = some t → t.2.nextSequence = t.2.lastAppliedSequence)
    (happlied : y.applied = x.applied) (hacks : ∀ s ∈ y.acks, s ∈ x.acks)
    (hstream : ∃ sent, Stream dest decode origin j unwritten counter y sent) :
    y.Inv dest decode origin j unwritten counter := by
  refine ⟨hknown, hhello, ?_, hstream, ?_, ?_⟩
  · rw [hmark]
    exact h.gone
  · rw [hmark]
    exact fun s hs => h.acks s (hacks s hs)
  · rw [hmark, happlied]
    exact h.applied

theorem Peer.Inv.keep (hstandby : y.standby = x.standby) (happlied : y.applied = x.applied)
    (hacks : ∀ s ∈ y.acks, s ∈ x.acks)
    (hstream : ∃ sent, Stream dest decode origin j unwritten counter y sent) :
    y.Inv dest decode origin j unwritten counter :=
  h.of_mark (by simp only [Peer.mark, hstandby]) (hstandby ▸ h.known)
    (fun hown t ht => h.hello hown t (hstandby ▸ ht)) happlied hacks hstream

theorem Peer.Inv.connect (hnames : dest.Names origin) (hwire : x.wire = []) :
    Peer.Inv dest decode origin j unwritten counter
      { x with shipper := some ⟨x.hello, 0, none⟩, acks := [] } := by
  obtain ⟨sent, hs⟩ := h.stream
  refine h.keep rfl rfl (fun _ hs => nomatch hs) ⟨_, hs.rest rfl hwire ?_⟩
  rintro sh ⟨⟩
  exact ⟨h.hello_eq hnames, Nat.zero_le _, fun _ hid => absurd hid (Nat.not_lt_zero _), nofun⟩

theorem Peer.Inv.disconnect :
    Peer.Inv dest decode origin j unwritten counter { x with shipper := none, acks := [] } := by
  obtain ⟨sent, hs⟩ := h.stream
  exact h.keep rfl rfl (fun _ hs => nomatch hs) ⟨sent, { hs with shipper := nofun }⟩

theorem Peer.Inv.hangUp (hshipper : x.shipper = none) :
    Peer.Inv dest decode origin j unwritten counter { x with wire := [] } := by
  obtain ⟨sent, hs⟩ := h.stream
  refine h.keep rfl rfl (fun _ hs => hs) ⟨_, hs.rest rfl rfl ?_⟩
  intro sh hsh
  rw [show ({ x with wire := [] } : Peer).shipper = x.shipper from rfl, hshipper] at hsh
  cases hsh

end

/-! ### The loop of the shipper -/

variable [HostText]

/-- An entry beyond the mark is sent if it passes, and the mark moves to it; any other is passed
over. -/
theorem TopicShipper.ship_spec (hnames : dest.Names origin) (horigin : e.origin = origin)
    (sh : TopicShipper) :
    (e.sequence ≤ sh.sent origin → sh.ship dest decode e = (sh, none)) ∧
    (sh.sent origin < e.sequence → sh.ship dest decode e =
      ({ sh with lastShipped := sh.lastShipped.insert origin e.sequence },
        if applyFilter decode e.payload dest.filter then some (dest.frame decode e) else none)) := by
  have hself : ¬ (e.origin ≠ "" ∧ e.origin = dest.config.originId) := by
    rw [horigin]
    rintro ⟨hne, heq⟩
    exact hnames.elim hne (fun h => h heq)
  unfold TopicShipper.ship
  rw [if_neg hself, horigin]
  exact ⟨fun hle => if_pos hle, fun hlt => if_neg hlt.not_ge⟩

variable {m : PeerMove}

section
variable (h : x.Inv dest decode origin j unwritten counter)
include h

theorem Peer.Inv.standbyWrite (hforeign : Topic.ownOrigin dest.config origin = false)
    (subscriptions : Nat) (w : LiveWrite) :
    Peer.Inv dest decode origin j unwritten counter
      { x with standby := x.standby.map fun t => (t.write dest.config subscriptions w).1 } := by
  obtain ⟨t, ht⟩ := isSome_iff_exists.mp h.known
  have hdisc := discover_watermarks subscriptions t w.discovers
  have hlogs : Logs dest.config (t.discover subscriptions w.discovers).2
      (t.write dest.config subscriptions w).1.2 (t.write dest.config subscriptions w).2 :=
    w.run_logs _
  have hmark : ({ x with standby := x.standby.map fun t =>
      (t.write dest.config subscriptions w).1 } : Peer).mark dest origin = x.mark dest origin := by
    simp only [Peer.mark, ht, map_some, Topic.mark, hforeign, Bool.false_eq_true, if_false,
      hlogs.highwater, hdisc.highwater]
  obtain ⟨sent, hs⟩ := h.stream
  refine h.of_mark hmark (isSome_map.trans h.known) ?_ rfl (fun _ hs => hs)
    ⟨sent, hmark.le.trans hs.mark_le, hs.sent_le, hs.ahead, ?_, hs.shipper⟩
  · rw [hforeign]
    exact fun hc => absurd hc Bool.false_ne_true
  · rw [hmark]
    exact hs.wire

variable (hlog : Logged origin j unwritten counter)
include hlog

theorem Peer.Inv.poll (hnames : dest.Names origin)
    (hdeliver : ∀ e ∈ j.history, Deliverable dest decode e) (hsh : x.shipper = some sh) :
    (x.poll dest decode j sh).Inv dest decode origin j unwritten counter := by
  obtain ⟨sent, hs⟩ := h.stream
  have htrack := hs.shipper sh hsh
  -- the shipper moves on without sending
  have hmove : ∀ sh' : TopicShipper, sh'.Tracks origin j sent →
      Peer.Inv dest decode origin j unwritten counter { x with shipper := some sh' } := by
    intro sh' htrack'
    refine h.keep rfl rfl (fun _ hs => hs) ⟨sent, { hs with shipper := ?_ }⟩
    rintro _ ⟨⟩
    exact htrack'
  unfold Peer.poll
  cases hreader : sh.reader with
  | none =>
    refine hmove _ ⟨htrack.sent_eq, htrack.resume_le, htrack.resumed, ?_⟩
    rintro _ ⟨⟩
    refine .list ?_ htrack.resumed
    intro id hid e he
    exact (h.gone id hid e he).trans hs.mark_le
  | some r =>
    have hreads := htrack.reading r hreader
    dsimp only
    cases hread : r.read j with
    | drained =>
      refine hmove _ ⟨htrack.sent_eq, hreads.last_le, ?_, nofun⟩
      intro id hid e he
      exact hreads.drained hread hid he
    | failed => exact h.disconnect
    | moved r' =>
      refine hmove _ ⟨htrack.sent_eq, htrack.resume_le, htrack.resumed, ?_⟩
      rintro _ ⟨⟩
      exact hreads.moved hread
    | entry e r' =>
      obtain ⟨⟨pre, post, hsplit, hpre⟩, hafter⟩ := hreads.entry hread
      have hmem : e ∈ j.history := by rw [hsplit]; simp
      obtain ⟨horigin, -, hle⟩ := hlog.entries e (mem_append_left _ hmem)
      obtain ⟨hskip, hsend⟩ := TopicShipper.ship_spec hnames horigin { sh with reader := some r' }
      have hsent : TopicShipper.sent { sh with reader := some r' } origin = sent :=
        htrack.sent_eq
      rw [hsent] at hskip hsend
      rw [if_pos (hdeliver e hmem).passes] at hsend
      dsimp only
      by_cases hcase : e.sequence ≤ sent
      · rw [hskip hcase]
        dsimp only [toList]
        rw [append_nil]
        refine hmove _ ⟨htrack.sent_eq, htrack.resume_le, htrack.resumed, ?_⟩
        rintro _ ⟨⟩
        exact hafter sent le_rfl hcase
      · have hlt : sent < e.sequence := by omega
        rw [hsend hlt]
        refine h.keep rfl rfl (fun _ hs => hs)
          ⟨e.sequence, hs.mark_le.trans hlt.le, hle, ?_, ?_, ?_⟩
        · intro e' he'
          exact (pairwise_append.mp hlog.sorted).2.2 e hmem e' he'
        · show x.wire ++ [dest.frame decode e] = _
          rw [hs.wire]
          show _ = (window _ _ (x.mark dest origin) _).map _
          rw [window_next hlog.history_sorted hsplit hpre hs.mark_le hlt, map_append]
          rfl
        · rintro _ ⟨⟩
          refine ⟨by simp [TopicShipper.sent], htrack.resume_le, ?_, ?_⟩
          · intro id hid e' he'
            exact (htrack.resumed id hid e' he').trans hlt.le
          · rintro _ ⟨⟩
            exact hafter e.sequence hlt.le le_rfl

/-! ### The standby -/

variable {f : LogEntry} {rest : List LogEntry}

omit [HostText] in
/-- The next frame is the first entry after the standby's mark. -/
theorem Peer.Inv.next (hwire : x.wire = f :: rest) :
    ∃ e ∈ j.history, ∃ t, x.standby = some t ∧ f = dest.frame decode e ∧ e.origin = origin ∧
      t.2.replayIsDuplicate dest.config e.origin e.sequence = false ∧
      ∃ sent es, Stream dest decode origin j unwritten counter x sent ∧
        rest = es.map (dest.frame decode) ∧
        window LogEntry.sequence j.history (x.mark dest origin) sent = e :: es := by
  obtain ⟨sent, hs⟩ := h.stream
  obtain ⟨t, ht⟩ := isSome_iff_exists.mp h.known
  obtain ⟨e, es, hwin, rfl, rfl⟩ := map_eq_cons_iff.mp (hs.wire.symm.trans hwire)
  obtain ⟨hmem, hlt, -, -⟩ := window_head hlog.history_sorted hwin
  obtain ⟨horigin, hpos, -⟩ := hlog.entries e (mem_append_left _ hmem)
  refine ⟨e, hmem, t, ht, rfl, horigin, ?_, sent, es, hs, rfl, hwin⟩
  simp only [Peer.mark, ht] at hlt
  rw [Topic.isDuplicate_eq_mark _ _ hpos, horigin]
  exact decide_eq_false (by omega)

/-- **A frame arrives**: it is applied and noted. -/
theorem Peer.Inv.receive (hdeliver : ∀ e ∈ j.history, Deliverable dest decode e)
    (hwire : x.wire = f :: rest) (subscriptions now : Nat) :
    (x.receive dest decode subscriptions now f rest).Inv dest decode origin j unwritten counter ∧
      (x.receive dest decode subscriptions now f rest).mark dest origin = f.sequence := by
  obtain ⟨e, hmem, t, ht, rfl, horigin, hnew, sent, es, hs, rfl, hwin⟩ := h.next hlog hwire
  obtain ⟨-, hlt, hle, hrest⟩ := window_head hlog.history_sorted hwin
  have hmark : x.mark dest origin = t.2.mark dest.config origin := by simp only [Peer.mark, ht]
  have hnoted := (hdeliver e hmem).noted
  have hlegible : (dest.frame decode e).Legible := { (hdeliver e hmem).legible with }
  obtain ⟨u, hsame, heq⟩ := replayEntry_noted hnoted hnew subscriptions now
  have hstandby : (x.receive dest decode subscriptions now (dest.frame decode e)
      (es.map (dest.frame decode))).standby =
        some ⟨u.1, u.2.replayNoteApplied dest.config e.origin e.sequence⟩ := by
    simp only [Peer.receive, ht, map_some, if_pos hlegible, heq]
    rfl
  have hmark' : (x.receive dest decode subscriptions now (dest.frame decode e)
      (es.map (dest.frame decode))).mark dest origin = e.sequence := by
    simp only [Peer.mark, hstandby]
    rw [← horigin, Topic.mark_noteApplied, hsame.mark, horigin, ← hmark]
    exact max_eq_right hlt.le
  have happlies : x.applies dest decode (dest.frame decode e) = true := by
    obtain ⟨d, hd, hskip⟩ := hnoted
    obtain ⟨hdo, hds⟩ := LogEntry.decoded_fields hd
    have hdup : t.2.replayIsDuplicate dest.config d.origin d.sequence = false := by
      rw [hdo, hds]
      exact hnew
    simp [Peer.applies, hlegible, ht, hd, hskip, hdup]
  refine ⟨?_, hmark'⟩
  constructor
  case known => rw [hstandby]; rfl
  case hello =>
    intro hown t' ht'
    rw [hstandby] at ht'
    cases ht'
    have hlevel := h.hello hown t ht
    have hown' : Topic.ownOrigin dest.config e.origin = true := horigin ▸ hown
    simp only [Topic.replayNoteApplied, hown', if_true, Topic.bumpSequenceTo, hsame.next,
      hsame.applied, hlevel]
  case gone =>
    intro id hid e' he'
    rw [hmark']
    exact (h.gone id hid e' he').trans hlt.le
  case stream =>
    refine ⟨sent, hmark'.le.trans hle, hs.sent_le, hs.ahead, ?_, hs.shipper⟩
    rw [hmark', hrest]
    rfl
  case acks =>
    intro s hs
    rw [hmark']
    rcases mem_append.mp hs with hs | hs
    · exact (h.acks s hs).trans hlt.le
    · exact (mem_singleton.mp hs).le
  case applied =>
    intro e' he' hle'
    simp only [Peer.receive, happlies]
    refine mem_append.mpr ?_
    by_cases hold : e'.sequence ≤ x.mark dest origin
    · exact .inl (h.applied e' he' hold)
    -- between the old mark and the new one there is only the entry itself
    have hin : e' ∈ e :: es := by
      rw [← hwin]
      exact mem_window.mpr ⟨he', by omega, by omega⟩
    rcases mem_cons.mp hin with rfl | hin
    · exact .inr mem_cons_self
    · rw [← hrest] at hin
      have := (mem_window.mp hin).2.1
      omega

theorem Peer.Inv.step (hnames : dest.Names origin)
    (hdeliver : ∀ e ∈ j.history, Deliverable dest decode e)
    (hforeign : ∀ subscriptions w, m = .write subscriptions w →
      Topic.ownOrigin dest.config origin = false) (hstep : x.step dest decode j m = some y) :
    y.Inv dest decode origin j unwritten counter := by
  cases m with
  | connect =>
    obtain ⟨hrest, rfl⟩ := of_guard hstep
    exact h.connect hnames (isEmpty_iff.mp (Bool.and_eq_true_iff.mp hrest).2)
  | poll =>
    obtain ⟨sh, hsh, rfl⟩ := map_eq_some_iff.mp hstep
    exact h.poll hlog hnames hdeliver hsh
  | receive subscriptions now =>
    cases hwire : x.wire with
    | nil => simp [Peer.step, hwire] at hstep
    | cons f rest =>
      simp only [Peer.step, hwire, some.injEq] at hstep
      exact hstep ▸ (h.receive hlog hdeliver hwire subscriptions now).1
  | disconnect =>
    cases hstep
    exact h.disconnect
  | hangUp =>
    obtain ⟨hnone, rfl⟩ := of_guard hstep
    exact h.hangUp (isNone_iff_eq_none.mp hnone)
  | write subscriptions w =>
    cases hstep
    exact h.standbyWrite (hforeign subscriptions w rfl) subscriptions w

end

/-- Only a frame that is handled and a write of its own change the standby. -/
theorem Peer.step_cases (hstep : x.step dest decode j m = some y) :
    (y.standby = x.standby ∧ y.applied = x.applied) ∨
    (∃ subscriptions now f rest, x.wire = f :: rest ∧
      y = x.receive dest decode subscriptions now f rest) ∨
    (∃ subscriptions w, m = .write subscriptions w ∧ y.applied = x.applied ∧
      y.standby = x.standby.map fun t => (t.write dest.config subscriptions w).1) := by
  cases m with
  | connect =>
    obtain ⟨-, rfl⟩ := of_guard hstep
    exact .inl ⟨rfl, rfl⟩
  | poll =>
    obtain ⟨sh, -, rfl⟩ := map_eq_some_iff.mp hstep
    refine .inl ?_
    unfold Peer.poll
    split
    · exact ⟨rfl, rfl⟩
    · split <;> exact ⟨rfl, rfl⟩
  | receive subscriptions now =>
    cases hwire : x.wire with
    | nil => simp [Peer.step, hwire] at hstep
    | cons f rest =>
      simp only [Peer.step, hwire, some.injEq] at hstep
      exact .inr (.inl ⟨subscriptions, now, f, rest, rfl, hstep.symm⟩)
  | disconnect =>
    cases hstep
    exact .inl ⟨rfl, rfl⟩
  | hangUp =>
    obtain ⟨-, rfl⟩ := of_guard hstep
    exact .inl ⟨rfl, rfl⟩
  | write subscriptions w =>
    cases hstep
    exact .inr (.inr ⟨subscriptions, w, rfl, rfl, rfl⟩)

theorem Peer.step_advances (hstep : x.step dest decode j m = some y) :
    x.mark dest origin ≤ y.mark dest origin ∧ ∀ s ∈ x.applied, s ∈ y.applied := by
  have hmap : ∀ f : AnyTopic → AnyTopic, y.standby = x.standby.map f →
      (∀ t, Ahead t.2 (f t).2) → x.mark dest origin ≤ y.mark dest origin := by
    intro f hstandby hahead
    simp only [Peer.mark, hstandby]
    cases x.standby with
    | none => exact le_rfl
    | some t => exact (hahead t).mark_le origin
  rcases step_cases hstep with ⟨hstandby, happlied⟩ | ⟨subscriptions, now, f, rest, -, rfl⟩ |
    ⟨subscriptions, w, -, happlied, hstandby⟩
  · simp only [Peer.mark, hstandby, happlied]
    exact ⟨le_rfl, fun _ hs => hs⟩
  · refine ⟨hmap _ rfl fun t => ?_, fun s hs => ?_⟩
    · by_cases hlegible : f.Legible
      · rw [if_pos hlegible, AnyTopic.replayEntry]
        cases f.decoded decode with
        | none => exact .of_eq rfl rfl
        | some d => exact (AnyTopic.replay_noted subscriptions now t d).1
      · rw [if_neg hlegible]
        exact .of_eq rfl rfl
    · simp only [Peer.receive]
      split
      · exact mem_append_left _ hs
      · exact hs
  · exact ⟨hmap _ hstandby fun t => t.write_ahead subscriptions w, fun s hs => happlied ▸ hs⟩

/-- Connected, nothing under way, and a scan of the directory would send nothing. -/
@[mk_iff]
structure Peer.Idle (dest : Destination) (j : Journal) (x : Peer) : Prop where
  delivered : x.wire = []
  shipped : ∃ sh, x.shipper = some sh ∧ ∀ e ∈ entriesFrom sh.resumeSegment j.live,
    (e.origin ≠ "" ∧ e.origin = dest.config.originId) ∨ e.sequence ≤ sh.sent e.origin

omit [HostText] in
theorem Peer.Inv.idle (h : x.Inv dest decode origin j unwritten counter)
    (hlog : Logged origin j unwritten counter) (hnames : dest.Names origin) (hidle : x.Idle dest j)
    (he : e ∈ j.history) : e.sequence ≤ x.mark dest origin := by
  obtain ⟨sent, hs⟩ := h.stream
  obtain ⟨sh, hsh, hscan⟩ := hidle.shipped
  have htrack := hs.shipper sh hsh
  obtain ⟨id, hfile⟩ := Journal.mem_history.mp he
  have hsent : e.sequence ≤ sent := by
    by_cases hgone : id ∈ j.gone
    · exact (h.gone id hgone e hfile).trans hs.mark_le
    by_cases hid : id < sh.resumeSegment
    · exact htrack.resumed id hid e hfile
    have hlive : (id, j.file id) ∈ j.live :=
      mem_filter.mpr ⟨Journal.mem_segments_of_file hfile, by simpa using hgone⟩
    have horigin := (hlog.entries e (mem_append_left _ he)).1
    rcases hscan e (mem_entriesFrom hlive (not_lt.mp hid) hfile) with ⟨hne, heq⟩ | hle
    · rw [horigin] at hne heq
      exact absurd heq (hnames.resolve_left hne)
    · rw [horigin, htrack.sent_eq] at hle
      exact hle
  by_contra hlt
  have hin : e ∈ window LogEntry.sequence j.history (x.mark dest origin) sent :=
    mem_window.mpr ⟨he, by omega, hsent⟩
  have hnil := map_eq_nil_iff.mp (hs.wire.symm.trans hidle.delivered)
  rw [hnil] at hin
  cases hin

end Streams

end CqServer
