import CqServer.Replication.Cluster

/-!
# Active-passive replication

A standby that only replays goes through the slot tables of a replica that
replays the primary's log from its start, as far as its mark: each frame that
arrives is the next entry. The replica of the whole log in turn has the primary's
records. So an idle standby has the primary's records, provided that no segment
left the directory before it had been applied: the shipper looks for entries in the
live directory only (`archived_before_shipped`).
-/

namespace CqServer

open Lib StoreState List Function AnyTopic
open Sequence (Rotation)

variable {σ : Schema}

/-! ## The primary and its log -/

section Writes
variable [HostText] {cfg : TopicConfig} {decode : Decode}

/-- The log has all that the write did: a delete reaches it, and a delta that is
journalled as the merged row can be. -/
def LiveWrite.Journalled (cfg : TopicConfig) (t : Topic σ) : LiveWrite → Prop
  | .deltaUpsertMap _ _ m => cfg.sparseDeltaTxlog = true ∨ cfg.keyColIndices σ = [] ∨
      ∀ d, deltaRead cfg t.state m = some d → Journalable (cfg.keyColIndices σ) t.state d.values
  | .delete appendOk _ => appendOk = true
  | .expire appendOk _ _ _ => appendOk = true
  | _ => True

variable {live replica : Topic σ}

omit [HostText] in
theorem Shadows.skip (h : Shadows cfg live replica) :
    Shadows cfg { live with nextSequence := live.nextSequence + 1 } replica :=
  ⟨h.same, h.applied.trans (Nat.le_succ _)⟩

theorem writeStoreWithChanged_failed (hpersist : cfg.persist = true) (now : Nat) (t : Topic σ)
    (v : Values σ) (key : String) (payload : JsonMap) (format : PayloadFormat)
    (cols : Option (List σ.Col)) :
    writeStoreWithChanged cfg now false t v key payload format cols =
      ⟨{ t with nextSequence := t.nextSequence + 1 }, [], [], false⟩ := by
  simp [writeStoreWithChanged, hpersist]

section
variable (h : Shadows cfg live replica) (hpersist : cfg.persist = true)
include h hpersist

theorem Shadows.publish (now now' : Nat) (appendOk : Bool) (m : JsonMap)
    (hd : Decodes decode (CqServer.upsertMap cfg now appendOk live m).entries) :
    Shadows cfg (CqServer.upsertMap cfg now appendOk live m).topic
      (replica.replayLog cfg decode now' (CqServer.upsertMap cfg now appendOk live m).entries) := by
  cases appendOk with
  | true => exact h.upsertMap hpersist now now' m hd
  | false =>
    rw [CqServer.upsertMap, writeStoreWithChanged_failed hpersist]
    exact h.skip

theorem Shadows.batch (now now' : Nat) (rows : List (JsonMap × Bool))
    (hd : Decodes decode (CqServer.upsertMapBatch cfg now live rows).entries) :
    Shadows cfg (CqServer.upsertMapBatch cfg now live rows).topic
      (replica.replayLog cfg decode now' (CqServer.upsertMapBatch cfg now live rows).entries) := by
  induction rows generalizing live replica with
  | nil => exact h
  | cons row rows ih =>
    obtain ⟨m, appendOk⟩ := row
    simp only [CqServer.upsertMapBatch] at hd ⊢
    split
    · rename_i hok
      rw [if_pos hok, Decodes.append_iff] at hd
      rw [Topic.replayLog_append]
      exact ih (h.publish hpersist now now' appendOk m hd.1) hd.2
    · rename_i hok
      rw [if_neg hok] at hd
      exact h.publish hpersist now now' appendOk m hd

/-- **A write and its entries**: replaying them brings the replica level again. -/
theorem Shadows.write (hσ : σ.Distinct) {w : LiveWrite} (hw : w.Journalled cfg live)
    (hd : Decodes decode (w.run cfg live).entries) (now : Nat) :
    Shadows cfg (w.run cfg live).topic
      (replica.replayLog cfg decode now (w.run cfg live).entries) := by
  cases w with
  | upsertMap now' appendOk m => exact h.publish hpersist now' now appendOk m hd
  | upsertMapBatch now' rows => exact h.batch hpersist now' now rows hd
  | deltaUpsertMap now' appendOk m =>
    cases appendOk with
    | true => exact h.deltaUpsertMap hpersist hσ now' now m hw hd
    | false =>
      simp only [LiveWrite.run, CqServer.deltaUpsertMap]
      cases deltaRead cfg live.state m with
      | none => exact h
      | some d =>
        dsimp only [deltaCommit]
        rw [writeStoreWithChanged_failed hpersist]
        exact h.skip
  | delete appendOk key =>
    obtain rfl : appendOk = true := hw
    exact h.delete hpersist now key
  | expire appendOk ttl sweepObservedAt key =>
    obtain rfl : appendOk = true := hw
    simp only [LiveWrite.run, deleteIfStillExpired] at hd ⊢
    split
    · exact h.delete hpersist now key
    · exact h

end

/-- Two topics with one table that both take an entry have one table afterwards,
whatever their names. -/
theorem replayEntry_table {t t' : Topic σ} (htab : t'.state.table = t.state.table)
    {e : LogEntry} {name : String}
    (hnew : t.replayIsDuplicate cfg e.origin e.sequence = false)
    (hnew' : t'.replayIsDuplicate { cfg with originId := name } e.origin e.sequence = false)
    (now now' : Nat) :
    (t'.replayEntry { cfg with originId := name } decode now' e).state.table =
      (t.replayEntry cfg decode now e).state.table := by
  have hcontents : t'.state.contents = t.state.contents := by rw [contents, contents, htab]
  have hvalues : entryValues { cfg with originId := name } decode t'.state e =
      entryValues cfg decode t.state e := by
    unfold entryValues
    rw [hcontents]
    rfl
  rw [replayEntry_fresh_table hnew', replayEntry_fresh_table hnew, hvalues, htab]
  cases e.payload with
  | none => rfl
  | some payload =>
    cases entryValues cfg decode t.state e with
    | none => rfl
    | some v => exact commitValuesLocked_table_eq htab rfl (fun _ => rfl) (fun _ _ => rfl) _ _

theorem replayEntry_applied_le (now : Nat) (t : Topic σ) (e : LogEntry) :
    (t.replayEntry cfg decode now e).lastAppliedSequence ≤ max t.lastAppliedSequence e.sequence := by
  rcases replayEntry_cases cfg decode now t e with ⟨hsame, -⟩ | ⟨-, st, heq, -⟩
  · rw [hsame]
    exact le_max_left _ _
  · rw [heq, Topic.replayNoteApplied]
    split <;> simp [Topic.bumpSequenceTo]

theorem AnyTopic.write_declared (hdecl : σ.isPlaceholder = false) (subscriptions : Nat)
    (t : Topic σ) (w : LiveWrite) :
    AnyTopic.write cfg subscriptions ⟨σ, t⟩ w = (⟨σ, (w.run cfg t).topic⟩, (w.run cfg t).entries) := by
  have hdisc : AnyTopic.discover subscriptions ⟨σ, t⟩ w.discovers = ⟨σ, t⟩ :=
    discover_declared (by simp [declared, hdecl]) subscriptions w.discovers
  unfold AnyTopic.write
  rw [hdisc]

theorem AnyTopic.replayEntry_declared (hdecl : σ.isPlaceholder = false) (subscriptions now : Nat)
    (t : Topic σ) (e : LogEntry) :
    AnyTopic.replayEntry cfg decode subscriptions now ⟨σ, t⟩ e =
      ⟨σ, t.replayEntry cfg decode now e⟩ := by
  have hdisc : ∀ flat, AnyTopic.discover subscriptions ⟨σ, t⟩ flat = ⟨σ, t⟩ :=
    discover_declared (by simp [declared, hdecl]) subscriptions
  unfold AnyTopic.replayEntry LogEntry.decoded Topic.replayEntry
  cases hp : e.payload with
  | none => rfl
  | some payload =>
    cases hd : decode payload with
    | none => simp [hd]
    | some m =>
      cases hf : e.format with
      | json | jsonDelta =>
        simp only [hd, Option.map_some, AnyTopic.replay, AnyTopic.replayUpsertMapOrigin,
          AnyTopic.replayDeltaMapOrigin]
        rw [hdisc]
        split
        · rename_i hdup
          simp [Topic.replayUpsertMapOrigin, Topic.replayDeltaMapOrigin, hdup]
        · rfl

end Writes

/-! ## The standbys of a primary -/

namespace ActivePassive

section System
variable {ι : Type*} [HostText] [DecidableEq ι]

/-- Standbys that differ from the primary in their name only. -/
def standbys (cfg : TopicConfig) (names : ι → String) (i : ι) : Destination where
  config := { cfg with originId := names i }

/-- The conditions on a step: the log has all that a write did and reads back, with
room for its keys and sequences, a segment leaves the directory only when every
standby has applied it, and a standby has no writes of its own. -/
def Ok (cfg : TopicConfig) (names : ι → String) (decode : Decode) (s : Cluster ι) :
    Cluster.Move ι → Prop
  | .write subscriptions w => w.Journalled cfg s.primary.2 ∧
      Decodes decode (s.primary.write cfg subscriptions w).2 ∧
      ∀ e ∈ (s.primary.write cfg subscriptions w).2, e.Legible
  | .append r => r = .archives → s.Everywhere cfg (standbys cfg names) s.journal.active.2
  | .forceRotate r => r = .archives → s.Everywhere cfg (standbys cfg names) s.journal.active.2
  | .prune id => s.Everywhere cfg (standbys cfg names) (s.journal.file id)
  | .peer _ (.write _ _) => False
  | _ => True

variable {cfg : TopicConfig} {names : ι → String} {decode : Decode}
  {s s' : Cluster ι}

omit [DecidableEq ι] in
theorem Ok.cluster {m : Cluster.Move ι} (h : Ok cfg names decode s m) :
    Cluster.Ok cfg (standbys cfg names) decode s m := by
  cases m with
  | write subscriptions w =>
    intro i e he
    refine ⟨h.2.2 e he, rfl, ?_⟩
    have hkeyed : e.KeyedDelta cfg := w.run_keyedDelta _ e he
    exact hkeyed.noted fun payload hp => ⟨payload, h.2.1 e he payload hp, id⟩
  | append r | forceRotate r | prune id => exact h
  | peer i m => cases m <;> trivial
  | ackArrives i | publishAck seq => trivial

def replica (σ : Schema) (cfg : TopicConfig) (decode : Decode)
    (log : List LogEntry) : Topic σ := (Topic.new σ).replayLog cfg decode 0 log

/-- The primary is level with the replica of its log, and each standby with the
replica of the log up to its mark. -/
structure Level (σ : Schema) (cfg : TopicConfig) (names : ι → String)
    (decode : Decode) (s : Cluster ι) : Prop where
  primary : ∃ t : Topic σ, s.primary = ⟨σ, t⟩ ∧
    Shadows cfg t (replica σ cfg decode (s.journal.history ++ s.unwritten))
  standby : ∀ i, ∃ t : Topic σ, (s.peers i).standby = some ⟨σ, t⟩ ∧
    t.state.table = (replica σ cfg decode (window LogEntry.sequence s.journal.history 0
      ((s.peers i).mark (standbys cfg names i) cfg.originId))).state.table

omit [DecidableEq ι] in
theorem Level.init : Level σ cfg names decode (Cluster.init σ fun _ => some σ) where
  primary := ⟨.new σ, rfl, .new cfg⟩
  standby _ := ⟨.new σ, rfl, rfl⟩

omit [DecidableEq ι] in
theorem Level.keep (h : Level σ cfg names decode s) (hprimary : s'.primary = s.primary)
    (hlog : s'.journal.history ++ s'.unwritten = s.journal.history ++ s.unwritten)
    (hpeers : ∀ i, (s'.peers i).standby = (s.peers i).standby)
    (hwindow : ∀ i, window LogEntry.sequence s'.journal.history 0
        ((s.peers i).mark (standbys cfg names i) cfg.originId) =
      window LogEntry.sequence s.journal.history 0
        ((s.peers i).mark (standbys cfg names i) cfg.originId)) :
    Level σ cfg names decode s' where
  primary := by
    rw [hprimary, hlog]
    exact h.primary
  standby := by
    intro i
    have hmark : (s'.peers i).mark (standbys cfg names i) cfg.originId =
        (s.peers i).mark (standbys cfg names i) cfg.originId := by
      simp [Peer.mark, hpeers i]
    rw [hpeers i, hmark, hwindow i]
    exact h.standby i

/-- **The next frame**: the standby's replica takes the entry that follows its
stretch of the log. -/
theorem Level.receive (hdecl : σ.isPlaceholder = false)
    (hinv : Cluster.Inv cfg (standbys cfg names) decode s) (h : Level σ cfg names decode s)
    {i : ι} {f : LogEntry} {rest : List LogEntry} (hwire : (s.peers i).wire = f :: rest)
    (subscriptions now : Nat) :
    Level σ cfg names decode { s with
      peers := update s.peers i
        ((s.peers i).receive (standbys cfg names i) decode subscriptions now f rest) } := by
  refine ⟨h.primary, ?_⟩
  intro k
  by_cases hk : k = i
  · subst hk
    have hpeer := hinv.peers k
    have hlog := hinv.logged
    obtain ⟨-, hmark⟩ := hpeer.receive hlog
      (fun e he => hinv.deliverable k e (mem_append_left _ he)) hwire subscriptions now
    obtain ⟨e, hmem, t', ht', rfl, horigin, hnew, sent, es, hs, -, hwin⟩ := hpeer.next hlog hwire
    obtain ⟨t, ht, htab⟩ := h.standby k
    cases ht'.symm.trans ht
    obtain ⟨-, hlt, -, -⟩ := window_head hlog.history_sorted hwin
    have hpos := (hlog.entries e (mem_append_left _ hmem)).2.1
    dsimp only
    rw [update_self, hmark, show (standbys cfg names k).frame decode e = e from rfl,
      window_below_head hlog.history_sorted hwin (Nat.zero_le _)]
    refine ⟨t.replayEntry (standbys cfg names k).config decode now e, ?_, ?_⟩
    · have hlegible := (hinv.deliverable k e (mem_append_left _ hmem)).legible
      simp only [Peer.receive, ht, Option.map_some, if_pos hlegible]
      rw [replayEntry_declared hdecl]
    · -- the replica has got to the standby's mark and not beyond
      have happlied : (replica σ cfg decode (window LogEntry.sequence s.journal.history 0
          ((s.peers k).mark (standbys cfg names k) cfg.originId))).lastAppliedSequence <
            e.sequence := by
        refine lt_of_le_of_lt (foldlRecOn (motive := fun t : Topic σ => t.lastAppliedSequence ≤ _) _ _
          (Nat.zero_le _) fun t ht e' he' => ?_) hlt
        exact (replayEntry_applied_le 0 t e').trans (max_le ht (mem_window.mp he').2.2)
      rw [replica, Topic.replayLog_append]
      refine replayEntry_table htab ?_ hnew 0 now
      rw [isDuplicate_own _ horigin hpos]
      exact decide_eq_false (by omega)
  · dsimp only
    rw [update_of_ne hk]
    exact h.standby k

theorem Level.step (hpersist : cfg.persist = true) (hσ : σ.Distinct)
    (hdecl : σ.isPlaceholder = false) (hinv : Cluster.Inv cfg (standbys cfg names) decode s)
    (h : Level σ cfg names decode s) {m : Cluster.Move ι} (hok : Ok cfg names decode s m)
    (hstep : Cluster.step cfg (standbys cfg names) decode s m = some s') :
    Level σ cfg names decode s' := by
  cases m with
  | write subscriptions w =>
    obtain ⟨hempty, rfl⟩ := of_guard hstep
    obtain ⟨t, ht, hshadows⟩ := h.primary
    have hunwritten := isEmpty_iff.mp hempty
    obtain ⟨hjournalled, hdecodes, -⟩ := hok
    rw [ht] at hjournalled hdecodes
    rw [write_declared hdecl] at hdecodes
    rw [hunwritten, append_nil] at hshadows
    refine ⟨⟨(w.run cfg t).topic, ?_, ?_⟩, h.standby⟩
    · rw [ht, write_declared hdecl]
    · rw [ht, write_declared hdecl, replica, Topic.replayLog_append]
      exact hshadows.write hpersist hσ hjournalled hdecodes 0
  | append r =>
    cases hunwritten : s.unwritten with
    | nil => simp [Cluster.step, hunwritten] at hstep
    | cons e rest =>
      simp only [Cluster.step, hunwritten] at hstep
      cases hstep
      refine h.keep rfl ?_ (fun _ => rfl) ?_
      · simp [Journal.append_history, Journal.rotate_history, hunwritten]
      · intro i
        obtain ⟨sent, hs⟩ := (hinv.peers i).stream
        have hahead := hs.ahead e (by rw [hunwritten]; exact mem_cons_self)
        rw [Journal.append_history, Journal.rotate_history, window_append_above]
        intro e' he'
        rw [mem_singleton.mp he']
        exact hs.mark_le.trans_lt hahead
  | forceRotate r =>
    cases hstep
    exact h.keep rfl (by rw [Journal.rotate_history]) (fun _ => rfl)
      (fun _ => by rw [Journal.rotate_history])
  | prune id =>
    cases hstep
    exact h.keep rfl (by rw [Journal.prune_history]) (fun _ => rfl)
      (fun _ => by rw [Journal.prune_history])
  | peer i m =>
    obtain ⟨x, hx, rfl⟩ := Option.map_eq_some_iff.mp hstep
    rcases Peer.step_cases hx with ⟨hstandby, -⟩ | ⟨subscriptions, now, f, rest, hwire, rfl⟩ |
      ⟨subscriptions, w, rfl, -⟩
    · refine h.keep rfl rfl (fun k => ?_) (fun _ => rfl)
      by_cases hk : k = i <;> simp [hk, hstandby]
    · exact h.receive hdecl hinv hwire subscriptions now
    · exact hok.elim
  | ackArrives i =>
    simp only [Cluster.step] at hstep
    split at hstep
    · cases hstep
      refine h.keep rfl rfl (fun k => ?_) (fun _ => rfl)
      by_cases hk : k = i <;> simp [hk]
    · cases hstep
  | publishAck seq =>
    obtain ⟨-, rfl⟩ := of_guard hstep
    exact h.keep rfl rfl (fun _ => rfl) (fun _ => rfl)

/-- **Active-passive convergence**: in every run that meets the conditions, a
standby that is idle holds the primary's records. -/
theorem idle_standby_converged (hpersist : cfg.persist = true) (hσ : σ.Distinct)
    (hdecl : σ.isPlaceholder = false)
    (hnames : ∀ i, cfg.originId = "" ∨ cfg.originId ≠ names i) {moves : List (Cluster.Move ι)}
    (hrun : Run (Cluster.step cfg (standbys cfg names) decode) (Ok cfg names decode)
      (Cluster.init σ fun _ => some σ) moves s) (hwritten : s.unwritten = []) {i : ι}
    (hidle : (s.peers i).Idle (standbys cfg names i) s.journal) :
    ∃ primary standby : Topic σ, s.primary = ⟨σ, primary⟩ ∧
      (s.peers i).standby = some ⟨σ, standby⟩ ∧
      standby.state.contents = primary.state.contents := by
  obtain ⟨hinv, hlevel⟩ : Cluster.Inv cfg (standbys cfg names) decode s ∧
      Level σ cfg names decode s := by
    refine hrun.invariant (P := fun s => Cluster.Inv cfg (standbys cfg names) decode s ∧
      Level σ cfg names decode s) ?_ ⟨Cluster.Inv.init σ fun _ => rfl, Level.init⟩
    intro s m s' h hok hstep
    exact ⟨h.1.step hnames hok.cluster hstep, h.2.step hpersist hσ hdecl h.1 hok hstep⟩
  obtain ⟨primary, hprimary, hshadows⟩ := hlevel.primary
  obtain ⟨standby, hstandby, htab⟩ := hlevel.standby i
  refine ⟨primary, standby, hprimary, hstandby, ?_⟩
  have hall : window LogEntry.sequence s.journal.history 0
      ((s.peers i).mark (standbys cfg names i) cfg.originId) = s.journal.history := by
    refine filter_eq_self.mpr ?_
    intro e he
    have hpos := (hinv.logged.entries e (mem_append_left _ he)).2.1
    exact decide_eq_true ⟨hpos, (hinv.peers i).idle hinv.logged (hnames i) hidle he⟩
  rw [hwritten, append_nil] at hshadows
  rw [hall] at htab
  rw [← hshadows.same.contents_eq, contents, contents, htab]

end System

/-! ## Two runs -/

section Quotes
open Quotes

open Unused

def named : TopicConfig := { config with originId := "a" }

def one : Unit → String := fun _ => "b"

instance (s : Cluster Unit) (m : Cluster.Move Unit) : Decidable (Ok named one some s m) := by
  cases m with
  | write subscriptions w =>
    cases w <;> dsimp only [Ok, LiveWrite.Journalled, Decodes] <;> infer_instance
  | peer i m => cases m <;> dsimp only [Ok] <;> infer_instance
  | _ => dsimp only [Ok]; infer_instance

instance (dest : Destination) (j : Journal) (x : Peer) : Decidable (x.Idle dest j) :=
  decidable_of_iff' _ (Peer.idle_iff ..)

/-- The record of a symbol on a topic, seen through its bid. -/
def bidOf (t : AnyTopic) (key : String) : Option Value :=
  (t.2.state.contents key).bind fun r => (t.1.indexOf "bid").map r.cells

/-- A publish is shipped and its segment archived; the connection breaks while the
next one is under way, which a second connection sends again. -/
def reconnected : List (Cluster.Move Unit) :=
  let poll := Cluster.Move.peer () .poll
  [.write 0 (.upsertMap 0 true (full "A" 10 11)), .append .no, .peer () .connect, poll, poll, poll,
    .peer () (.receive 0 1), .forceRotate .archives,
    .write 0 (.upsertMap 2 true (full "B" 20 21)), .append .no, poll, poll, poll, poll, poll, poll,
    .peer () .disconnect, .peer () .hangUp, .peer () .connect, poll, poll, poll,
    .peer () (.receive 0 3), poll, poll]

theorem idle_standby_converged_reconnected : ∃ s,
    Run (Cluster.step named (standbys named one) some) (Ok named one some)
      (Cluster.init schema fun _ => some schema) reconnected s ∧
      bidOf s.primary "B" = some (.long 20) ∧
      ∃ primary standby : Topic schema, s.primary = ⟨schema, primary⟩ ∧
        (s.peers ()).standby = some ⟨schema, standby⟩ ∧
        standby.state.contents = primary.state.contents := by
  refine Run.exists_of_check
    (fun s => s.unwritten = [] ∧ (s.peers ()).Idle (standbys named one ()) s.journal ∧
      bidOf s.primary "B" = some (.long 20))
    (by decide +kernel) fun s hrun ⟨hwritten, hidle, hbid⟩ => ?_
  have hname : named.originId ≠ one () := by decide
  exact ⟨hbid, idle_standby_converged rfl Quotes.distinct rfl
    (fun _ => .inr hname) hrun hwritten hidle⟩

/-- A publish whose segment is archived before the shipper has read it. -/
def archived : List (Cluster.Move Unit) :=
  let poll := Cluster.Move.peer () .poll
  [.write 0 (.upsertMap 0 true (full "A" 10 11)), .append .no, .forceRotate .archives,
    .peer () .connect, poll, poll, poll, poll]

/-- The shipper is idle and the standby has not got the record. -/
theorem archived_before_shipped : ∃ s,
    Run (Cluster.step named (standbys named one) some) (fun _ _ => True)
      (Cluster.init schema fun _ => some schema) archived s ∧
      s.unwritten = [] ∧ (s.peers ()).Idle (standbys named one ()) s.journal ∧
      bidOf s.primary "A" = some (.long 10) ∧
      (s.peers ()).standby.map (bidOf · "A") = some none := by
  decide +kernel

end Quotes

end ActivePassive

end CqServer
