import CqServer.Topic.Checkpoint

/-!
# Two nodes that replicate to each other

Each node applies its own writes at once and the other's as they arrive; the
only metadata is the highest sequence seen of the other node. Two writes of one
record that cross therefore end with each node holding the other's
(`crossed_writes_diverge`). If a record is written at a node only when that node
has seen all the other has written to it, then at any time one of the two is
ahead on the record and the other follows: the record of the first is that of the
second with the entries still under way applied.
-/

namespace CqServer

open Lib StoreState List Function

variable {σ : Schema}

/-! ## Entries and the records they change -/

section Entries
variable [HostText] {cfg : TopicConfig}

def entryKey (σ : Schema) (cfg : TopicConfig) (e : LogEntry) : Option String :=
  match e.payload with
  | none => some e.key
  | some payload =>
    computeKeyWith (Values.ofMap σ (flatView payload)).vals (cfg.keyColIndices σ)

variable {c c' : String → Option (Row σ)} {k : String}

theorem applyEntry_congr (h : c k = c' k) (e : LogEntry) :
    applyEntry cfg c e k = applyEntry cfg c' e k := by
  unfold applyEntry
  cases e.payload with
  | none => simp only [update_apply, h]
  | some payload =>
    dsimp only
    cases computeKeyWith (Values.ofMap σ (flatView payload)).vals (cfg.keyColIndices σ) with
    | none => exact h
    | some k' =>
      simp only [update_apply]
      split
      · rename_i heq
        subst heq
        rw [h]
      · exact h

theorem applyEntry_of_ne (c : String → Option (Row σ)) {e : LogEntry}
    (h : entryKey σ cfg e ≠ some k) : applyEntry cfg c e k = c k := by
  unfold entryKey at h
  unfold applyEntry
  cases hp : e.payload with
  | none =>
    rw [hp] at h
    exact update_of_ne (fun heq => h (congrArg some heq.symm)) _ _
  | some payload =>
    rw [hp] at h
    dsimp only at h ⊢
    cases hk : computeKeyWith (Values.ofMap σ (flatView payload)).vals (cfg.keyColIndices σ) with
    | none => rfl
    | some k' =>
      rw [hk] at h
      exact update_of_ne (fun heq => h (congrArg some heq.symm)) _ _

def applyEntries (cfg : TopicConfig) (log : List LogEntry) (c : String → Option (Row σ)) :
    String → Option (Row σ) := log.foldl (applyEntry cfg) c

theorem applyEntries_congr (h : c k = c' k) (log : List LogEntry) :
    applyEntries cfg log c k = applyEntries cfg log c' k := by
  induction log generalizing c c' with
  | nil => exact h
  | cons e log ih => exact ih (applyEntry_congr h e)

theorem applyEntries_of_ne {log : List LogEntry} (h : ∀ e ∈ log, entryKey σ cfg e ≠ some k)
    (c : String → Option (Row σ)) : applyEntries cfg log c k = c k := by
  induction log generalizing c with
  | nil => rfl
  | cons e log ih =>
    exact (ih (fun e' he' => h e' (mem_cons_of_mem _ he')) _).trans
      (applyEntry_of_ne c (h e mem_cons_self))

theorem applyEntries_append (log log' : List LogEntry) (c : String → Option (Row σ)) :
    applyEntries cfg (log ++ log') c = applyEntries cfg log' (applyEntries cfg log c) :=
  foldl_append ..

/-- What a local write of the record `k` does: the records change as its entries
say, and the marks for other nodes stay. -/
structure Wrote (cfg : TopicConfig) (decode : Decode) (t : Topic σ) (k : String)
    (o : Outcome σ) : Prop where
  counter : t.nextSequence ≤ o.topic.nextSequence
  highwater : o.topic.replicatedHighwater = t.replicatedHighwater
  entries : ∀ e ∈ o.entries, PlainEntry σ cfg decode e ∧ e.origin = cfg.originId ∧
    t.nextSequence < e.sequence ∧ e.sequence ≤ o.topic.nextSequence ∧ entryKey σ cfg e = some k
  sorted : o.entries.Pairwise fun e e' => e.sequence < e'.sequence
  contents : o.topic.state.contents = applyEntries cfg o.entries t.state.contents

variable {decode : Decode}

theorem Wrote.upsertMap (hpersist : cfg.persist = true) (now : Nat) (appendOk : Bool) (t : Topic σ)
    {m : JsonMap} (hd : decode (flatView m) = some (flatView m))
    (hk : computeKeyWith (Values.ofMap σ (flatView m)).vals (cfg.keyColIndices σ) = some k) :
    Wrote cfg decode t k (upsertMap cfg now appendOk t m) := by
  cases appendOk with
  | false =>
    simp only [CqServer.upsertMap, writeStoreWithChanged, hpersist]
    exact ⟨Nat.le_succ _, rfl, by simp, .nil, rfl⟩
  | true =>
    rw [CqServer.upsertMap, writeStoreWithChanged_logged hpersist]
    refine ⟨Nat.le_succ _, rfl, ?_, pairwise_singleton _ _, ?_⟩
    · intro e he
      obtain rfl := mem_singleton.mp he
      refine ⟨⟨rfl, ?_, ?_⟩, rfl, Nat.lt_succ_self _, le_rfl, ?_⟩
      · rintro _ ⟨⟩
        exact hd
      · rintro _ ⟨⟩
        rw [flatView_flatView, hk]
        rfl
      · show computeKeyWith (Values.ofMap σ (flatView (flatView m))).vals _ = some k
        rw [flatView_flatView, hk]
    · simp only [applyEntries, foldl_cons, applyEntry, flatView_flatView, hk]
      exact commit_contents hk now t.state

theorem Wrote.delete (hpersist : cfg.persist = true) (t : Topic σ) (key : String) :
    Wrote cfg decode t key (delete cfg true t key) := by
  unfold CqServer.delete
  cases hrem : t.state.removeKey key with
  | none => exact ⟨le_rfl, rfl, nofun, .nil, rfl⟩
  | some p =>
    simp only [hpersist]
    refine ⟨Nat.le_succ _, rfl, ?_, pairwise_singleton _ _, remove_contents hrem⟩
    intro e he
    obtain rfl := mem_singleton.mp he
    exact ⟨⟨rfl, nofun, nofun⟩, rfl, Nat.lt_succ_self _, le_rfl, rfl⟩

end Entries

namespace ActiveActive

/-! ## Nodes -/

inductive Side where
  | a
  | b
  deriving DecidableEq, Repr

instance : Fintype Side := ⟨{.a, .b}, by rintro (_ | _) <;> decide⟩

def Side.other : Side → Side
  | .a => .b
  | .b => .a

@[simp] theorem Side.other_other (x : Side) : x.other.other = x := by cases x <;> rfl

theorem Side.other_ne (x : Side) : x.other ≠ x := by cases x <;> decide

theorem Side.eq_or_other (x y : Side) : y = x ∨ y = x.other := by cases x <;> cases y <;> simp [other]

structure Node (σ : Schema) where
  topic : Topic σ
  log : List LogEntry
  seen : Nat

abbrev State (σ : Schema) := Side → Node σ

def State.init (σ : Schema) : State σ := fun _ => ⟨.new σ, [], 0⟩

def State.pending (s : State σ) (x : Side) : List LogEntry := (s x.other).log.drop (s x).seen

inductive Move where
  | upsertMap (at_ : Side) (now : Nat) (appendOk : Bool) (m : JsonMap)
  | delete (at_ : Side) (appendOk : Bool) (key : String)
  /-- The next entry of the other node arrives. -/
  | deliver (at_ : Side) (now : Nat)
  /-- An entry that has arrived arrives again. -/
  | again (at_ : Side) (now i : Nat)

/-- The configuration at a node: the nodes differ in their origin. -/
def nodeConfig (cfg : TopicConfig) (ids : Side → String) (x : Side) : TopicConfig :=
  { cfg with originId := ids x }

def State.record (s : State σ) (x : Side) (o : Outcome σ) : State σ :=
  update s x { s x with topic := o.topic, log := (s x).log ++ o.entries }

/-- An entry of the other node has been applied, `seen` in all. -/
def State.receive (s : State σ) (x : Side) (topic : Topic σ) (seen : Nat) : State σ :=
  update s x { s x with topic := topic, seen := seen }

section Sides
variable (s : State σ) (x : Side)

@[simp] theorem record_self (o : Outcome σ) :
    s.record x o x = { s x with topic := o.topic, log := (s x).log ++ o.entries } :=
  update_self ..

@[simp] theorem record_other (o : Outcome σ) : s.record x o x.other = s x.other :=
  update_of_ne x.other_ne ..

variable (topic : Topic σ) (seen : Nat)

@[simp] theorem receive_self :
    s.receive x topic seen x = { s x with topic := topic, seen := seen } :=
  update_self ..

@[simp] theorem receive_other :
    s.receive x topic seen x.other = s x.other :=
  update_of_ne x.other_ne ..

end Sides

section System
variable [HostText]

variable (cfg : TopicConfig) (ids : Side → String) (decode : Decode)

def step (s : State σ) : Move → Option (State σ)
  | .upsertMap x now appendOk m =>
    some (s.record x (CqServer.upsertMap (nodeConfig cfg ids x) now appendOk (s x).topic m))
  | .delete x appendOk key =>
    some (s.record x (CqServer.delete (nodeConfig cfg ids x) appendOk (s x).topic key))
  | .deliver x now =>
    ((s x.other).log[(s x).seen]?).map fun e =>
      s.receive x ((s x).topic.replayEntry (nodeConfig cfg ids x) decode now e) ((s x).seen + 1)
  | .again x now i =>
    (((s x.other).log.take (s x).seen)[i]?).map fun e =>
      s.receive x ((s x).topic.replayEntry (nodeConfig cfg ids x) decode now e) (s x).seen

/-- The conditions on a step: a publish has a key and reads back from its JSON
form, a delete reaches the log, and a node writes a record only when nothing is
under way to it for that record. -/
def Ok (s : State σ) : Move → Prop
  | .upsertMap x _ _ m =>
    decode (flatView m) = some (flatView m) ∧
      ∃ k, computeKeyWith (Values.ofMap σ (flatView m)).vals (cfg.keyColIndices σ) = some k ∧
        ∀ e ∈ s.pending x, entryKey σ cfg e ≠ some k
  | .delete x appendOk key => appendOk = true ∧ ∀ e ∈ s.pending x, entryKey σ cfg e ≠ some key
  | _ => True

variable {cfg : TopicConfig} {ids : Side → String} {decode : Decode}
  {s s' : State σ}

theorem step_cases (hpersist : ∀ x, (nodeConfig cfg ids x).persist = true) {m : Move}
    (hok : Ok cfg decode s m) (hstep : step cfg ids decode s m = some s') :
    (∃ x k o, (∀ e ∈ s.pending x, entryKey σ cfg e ≠ some k) ∧
      Wrote (nodeConfig cfg ids x) decode (s x).topic k o ∧ s' = s.record x o) ∨
    (∃ x now e, (s x.other).log[(s x).seen]? = some e ∧
      s' = s.receive x ((s x).topic.replayEntry (nodeConfig cfg ids x) decode now e)
        ((s x).seen + 1)) ∨
    (∃ x now, ∃ e ∈ (s x.other).log.take (s x).seen,
      s' = s.receive x ((s x).topic.replayEntry (nodeConfig cfg ids x) decode now e)
        (s x).seen) := by
  cases m with
  | upsertMap x now appendOk m =>
    obtain ⟨hd, k, hk, hquiet⟩ := hok
    have hwrote : Wrote (nodeConfig cfg ids x) decode (s x).topic k
        (CqServer.upsertMap (nodeConfig cfg ids x) now appendOk (s x).topic m) :=
      .upsertMap (hpersist x) now appendOk _ hd hk
    exact .inl ⟨x, k, _, hquiet, hwrote, (Option.some.inj hstep).symm⟩
  | delete x appendOk key =>
    obtain ⟨rfl, hquiet⟩ := hok
    have hwrote : Wrote (nodeConfig cfg ids x) decode (s x).topic key
        (CqServer.delete (nodeConfig cfg ids x) true (s x).topic key) :=
      .delete (hpersist x) _ key
    exact .inl ⟨x, key, _, hquiet, hwrote, (Option.some.inj hstep).symm⟩
  | deliver x now =>
    obtain ⟨e, he, rfl⟩ := Option.map_eq_some_iff.mp hstep
    exact .inr (.inl ⟨x, now, e, he, rfl⟩)
  | again x now i =>
    obtain ⟨e, he, rfl⟩ := Option.map_eq_some_iff.mp hstep
    exact .inr (.inr ⟨x, now, e, mem_of_getElem? he, rfl⟩)

/-! ## Logs and marks -/

/-- What the log of an origin is made of, and what the mark of a node that has
been sent `seen` of its entries says. -/
structure Shipped (σ : Schema) (cfg : TopicConfig) (decode : Decode)
    (origin : String) (log : List LogEntry) (counter seen mark : Nat) : Prop where
  entries : ∀ e ∈ log, PlainEntry σ cfg decode e ∧ e.origin = origin ∧ 0 < e.sequence ∧
    e.sequence ≤ counter
  sorted : log.Pairwise fun e e' => e.sequence < e'.sequence
  mark_le : mark ≤ counter
  known : ∀ e ∈ log.take seen, e.sequence ≤ mark
  fresh : ∀ e ∈ log.drop seen, mark < e.sequence

section Shipped
variable {origin : String} {log : List LogEntry} {counter seen mark : Nat}

variable (h : Shipped σ cfg decode origin log counter seen mark)
include h

theorem Shipped.append (hseen : seen ≤ log.length) {counter' : Nat} {es : List LogEntry} (hcounter
    : counter ≤ counter')
    (hes : ∀ e ∈ es, PlainEntry σ cfg decode e ∧ e.origin = origin ∧ counter < e.sequence ∧
      e.sequence ≤ counter')
    (hsorted : es.Pairwise fun e e' => e.sequence < e'.sequence) :
    Shipped σ cfg decode origin (log ++ es) counter' seen mark where
  entries := by
    intro e he
    rcases mem_append.mp he with he | he
    · obtain ⟨hplain, horigin, hpos, hle⟩ := h.entries e he
      exact ⟨hplain, horigin, hpos, hle.trans hcounter⟩
    · obtain ⟨hplain, horigin, hlt, hle⟩ := hes e he
      exact ⟨hplain, horigin, by omega, hle⟩
  sorted := by
    refine pairwise_append.mpr ⟨h.sorted, hsorted, ?_⟩
    intro e he e' he'
    have := (h.entries e he).2.2.2
    have := (hes e' he').2.2.1
    omega
  mark_le := h.mark_le.trans hcounter
  known := by
    rw [take_append_of_le_length hseen]
    exact h.known
  fresh := by
    intro e he
    rw [drop_append_of_le_length hseen] at he
    rcases mem_append.mp he with he | he
    · exact h.fresh e he
    · exact h.mark_le.trans_lt (hes e he).2.2.1

theorem Shipped.note {e : LogEntry} (he : log[seen]? = some e) :
    Shipped σ cfg decode origin log counter (seen + 1) (max mark e.sequence) where
  entries := h.entries
  sorted := h.sorted
  mark_le := max_le h.mark_le (h.entries e (mem_of_getElem? he)).2.2.2
  known := by
    intro e' he'
    rw [take_add_one, he] at he'
    rcases mem_append.mp he' with he' | he'
    · exact (h.known e' he').trans (le_max_left _ _)
    · obtain rfl : e' = e := by simpa using he'
      exact le_max_right _ _
  fresh := by
    intro e' he'
    have hdrop : log.drop seen = e :: log.drop (seen + 1) := by
      obtain ⟨hlt, rfl⟩ := List.getElem?_eq_some_iff.mp he
      exact drop_eq_getElem_cons hlt
    have hsorted := h.sorted.sublist (drop_sublist seen log)
    rw [hdrop] at hsorted
    have hfresh := h.fresh e' (hdrop ▸ mem_cons_of_mem _ he')
    exact max_lt hfresh ((pairwise_cons.mp hsorted).1 e' he')

end Shipped

/-! ## Who is ahead -/

/-- On the record `k`, node `x` is ahead of the other: nothing is under way to it,
and what it holds is what the other holds with the entries under way applied. -/
structure Leads (cfg : TopicConfig) (s : State σ) (k : String) (x : Side) : Prop where
  quiet : ∀ e ∈ s.pending x, entryKey σ cfg e ≠ some k
  record : (s x).topic.state.contents k =
    applyEntries cfg (s.pending x.other) (s x.other).topic.state.contents k

/-- With nothing under way in either direction either node may be called ahead. -/
theorem Leads.other {k : String} {x : Side} (h : Leads cfg s k x.other)
    (hquiet : ∀ e ∈ s.pending x, entryKey σ cfg e ≠ some k) : Leads cfg s k x where
  quiet := hquiet
  record := by
    have hrecord := h.record
    rw [Side.other_other, applyEntries_of_ne hquiet] at hrecord
    rw [applyEntries_of_ne h.quiet, hrecord]

structure Inv (cfg : TopicConfig) (ids : Side → String) (decode : Decode)
    (s : State σ) : Prop where
  shipped : ∀ x, Shipped σ cfg decode (ids x) (s x).log (s x).topic.nextSequence (s x.other).seen
    ((s x.other).topic.mark (nodeConfig cfg ids x.other) (ids x))
  seen_le : ∀ x, (s x.other).seen ≤ (s x).log.length
  leads : ∀ k, ∃ x, Leads cfg s k x

theorem Inv.init : Inv cfg ids decode (State.init σ) where
  shipped x := ⟨nofun, .nil, by simp [State.init, Topic.new, Topic.mark], nofun, nofun⟩
  seen_le _ := le_rfl
  leads _ := ⟨.a, nofun, rfl⟩

/-- The two origins are told apart: neither is the empty one, which every node
takes for its own. -/
structure Named (ids : Side → String) : Prop where
  distinct : ids .a ≠ ids .b
  nonempty : ∀ x, ids x ≠ ""

omit [HostText] in
theorem Named.foreign (h : Named ids) (cfg : TopicConfig) (x : Side) :
    Topic.ownOrigin (nodeConfig cfg ids x) (ids x.other) = false := by
  have hne : ids x.other ≠ ids x := by
    cases x with
    | a => exact h.distinct.symm
    | b => exact h.distinct
  simp [Topic.ownOrigin, nodeConfig, h.nonempty x.other, hne]

omit [HostText] in
theorem Named.mark_eq (h : Named ids) (cfg : TopicConfig) (x : Side) (t : Topic σ) :
    t.mark (nodeConfig cfg ids x) (ids x.other) =
      (t.replicatedHighwater.lookup (ids x.other)).getD 0 := by
  simp [Topic.mark, h.foreign]

theorem plain_nodeConfig {x : Side} {e : LogEntry} :
    PlainEntry σ (nodeConfig cfg ids x) decode e ↔ PlainEntry σ cfg decode e :=
  ⟨fun h => ⟨h.format, h.decodes, h.keyed⟩, fun h => ⟨h.format, h.decodes, h.keyed⟩⟩

omit [HostText] in
theorem Named.noteApplied (h : Named ids) (cfg : TopicConfig) (x : Side) (t : Topic σ) (seq : Nat) :
    ((t.replayNoteApplied (nodeConfig cfg ids x) (ids x.other) seq).state = t.state) ∧
      (t.replayNoteApplied (nodeConfig cfg ids x) (ids x.other) seq).nextSequence =
        t.nextSequence := by
  simp [Topic.replayNoteApplied, h.foreign]

section
variable (h : Inv cfg ids decode s)
include h

/-- **A local write** of a record for which nothing is under way to the writer:
it is ahead on that record afterwards. -/
theorem Inv.record (hids : Named ids) {x : Side} {k : String}
    {o : Outcome σ} (hquiet : ∀ e ∈ s.pending x, entryKey σ cfg e ≠ some k)
    (ho : Wrote (nodeConfig cfg ids x) decode (s x).topic k o) :
    Inv cfg ids decode (s.record x o) := by
  have hseen := h.seen_le x
  have hpending : (s.record x o).pending x = s.pending x := by simp [State.pending]
  have hpending' : (s.record x o).pending x.other = s.pending x.other ++ o.entries := by
    simp [State.pending, drop_append_of_le_length hseen]
  constructor
  case shipped =>
    intro y
    rcases x.eq_or_other y with rfl | rfl
    · rw [record_self, record_other]
      refine (h.shipped y).append hseen ho.counter ?_ ho.sorted
      intro e he
      obtain ⟨hplain, horigin, hlt, hle, -⟩ := ho.entries e he
      exact ⟨plain_nodeConfig.mp hplain, horigin, hlt, hle⟩
    · have hy := h.shipped x.other
      rw [Side.other_other] at hy
      rw [Side.other_other, record_self, record_other, hids.mark_eq, ho.highwater,
        ← hids.mark_eq cfg]
      exact hy
  case seen_le =>
    intro y
    rcases x.eq_or_other y with rfl | rfl
    · rw [record_self, record_other, length_append]
      exact hseen.trans (Nat.le_add_right _ _)
    · have hy := h.seen_le x.other
      rw [Side.other_other] at hy
      rw [Side.other_other, record_self, record_other]
      exact hy
  case leads =>
    intro k'
    obtain ⟨y, hy⟩ := h.leads k'
    by_cases hk : k' = k
    · -- the writer was ahead, or both were level
      subst hk
      have hx : Leads cfg s k' x := by
        rcases x.eq_or_other y with rfl | rfl
        · exact hy
        · exact hy.other hquiet
      refine ⟨x, by rwa [hpending], ?_⟩
      rw [hpending', applyEntries_append, record_self, record_other]
      rw [ho.contents]
      exact applyEntries_congr hx.record _
    · have hkeys : ∀ e ∈ o.entries, entryKey σ cfg e ≠ some k' := by
        intro e he heq
        have := (ho.entries e he).2.2.2.2
        exact hk (Option.some.inj (heq.symm.trans this))
      have hsame : o.topic.state.contents k' = (s x).topic.state.contents k' := by
        rw [ho.contents]
        exact applyEntries_of_ne hkeys _
      refine ⟨y, ?_, ?_⟩
      · rcases x.eq_or_other y with rfl | rfl
        · rw [hpending]
          exact hy.quiet
        · rw [hpending']
          exact forall_mem_append.mpr ⟨hy.quiet, hkeys⟩
      · have hrecord := hy.record
        rcases x.eq_or_other y with rfl | rfl
        · rw [hpending', applyEntries_append, applyEntries_of_ne hkeys, record_self, record_other]
          exact hsame.trans hrecord
        · rw [Side.other_other] at hrecord ⊢
          rw [hpending, record_other, record_self, hrecord]
          exact applyEntries_congr hsame.symm _

/-- **A delivery**: what the receiver lacks of the sender's record gets less by
the entry. -/
theorem Inv.deliver (hids : Named ids) {x : Side} {e : LogEntry}
    (he : (s x.other).log[(s x).seen]? = some e) (now : Nat) :
    Inv cfg ids decode (s.receive x ((s x).topic.replayEntry (nodeConfig cfg ids x) decode now e)
        ((s x).seen + 1)) := by
  have hx := h.shipped x.other
  rw [Side.other_other] at hx
  obtain ⟨hplain, horigin, hpos, -⟩ := hx.entries e (mem_of_getElem? he)
  obtain ⟨hlt, hget⟩ := List.getElem?_eq_some_iff.mp he
  have hpending : s.pending x = e :: (s x.other).log.drop ((s x).seen + 1) := by
    rw [State.pending, drop_eq_getElem_cons hlt, hget]
  have hnew : (s x).topic.replayIsDuplicate (nodeConfig cfg ids x) e.origin e.sequence = false := by
    rw [Topic.isDuplicate_eq_mark _ _ hpos, horigin]
    have := hx.fresh e (by rw [← State.pending, hpending]; exact mem_cons_self)
    simpa using this
  obtain ⟨st, hst, heq⟩ := replayEntry_fresh (plain_nodeConfig.mpr hplain) hnew now
  rw [heq, horigin]
  obtain ⟨hstate, hcounter⟩ :=
    hids.noteApplied cfg x { (s x).topic with state := st } e.sequence
  have hmark := Topic.mark_noteApplied (nodeConfig cfg ids x) { (s x).topic with state := st }
    (ids x.other) e.sequence
  generalize Topic.replayNoteApplied (nodeConfig cfg ids x) { (s x).topic with state := st }
    (ids x.other) e.sequence = t at hstate hcounter hmark
  constructor
  case shipped =>
    intro y
    rcases x.eq_or_other y with rfl | rfl
    · rw [receive_self, receive_other]
      rw [hcounter]
      exact h.shipped y
    · rw [Side.other_other, receive_self, receive_other]
      rw [hmark]
      exact hx.note he
  case seen_le =>
    intro y
    rcases x.eq_or_other y with rfl | rfl
    · rw [receive_self, receive_other]
      exact h.seen_le y
    · rw [Side.other_other, receive_self, receive_other]
      exact hlt
  case leads =>
    intro k
    obtain ⟨y, hy⟩ := h.leads k
    have hrest : (s.receive x t ((s x).seen + 1)).pending x =
        (s x.other).log.drop ((s x).seen + 1) := by simp [State.pending]
    have hother : (s.receive x t ((s x).seen + 1)).pending x.other = s.pending x.other := by
      simp [State.pending]
    have hcont : t.state.contents k = applyEntry cfg (s x).topic.state.contents e k := by
      rw [hstate, hst]
      rfl
    have hquiet := hy.quiet
    have hrecord := hy.record
    refine ⟨y, ?_, ?_⟩
    · rcases x.eq_or_other y with rfl | rfl
      · rw [hpending] at hquiet
        rw [hrest]
        exact fun e' he' => hquiet e' (mem_cons_of_mem _ he')
      · rw [hother]
        exact hquiet
    · rcases x.eq_or_other y with rfl | rfl
      · -- the entry is not about a record the receiver is ahead on
        rw [hpending] at hquiet
        rw [hother, receive_self, receive_other]
        rw [applyEntry_of_ne _ (hquiet e mem_cons_self)] at hcont
        exact hcont.trans hrecord
      · rw [Side.other_other, hpending] at hrecord
        rw [Side.other_other, hrest, receive_other, receive_self, hrecord]
        exact applyEntries_congr hcont.symm _

theorem Inv.again {x : Side} {e : LogEntry} (he : e ∈ (s x.other).log.take (s x).seen) (now : Nat) :
    s.receive x ((s x).topic.replayEntry (nodeConfig cfg ids x) decode now e) (s x).seen = s := by
  have hx := h.shipped x.other
  rw [Side.other_other] at hx
  obtain ⟨-, horigin, hpos, -⟩ := hx.entries e (mem_of_mem_take he)
  have hdup : (s x).topic.replayIsDuplicate (nodeConfig cfg ids x) e.origin e.sequence = true := by
    rw [Topic.isDuplicate_eq_mark _ _ hpos, horigin]
    exact decide_eq_true (hx.known e he)
  rw [replayEntry_duplicate hdup]
  exact update_eq_self _ _

end

theorem Inv.step (hpersist : cfg.persist = true) (hids : Named ids) (h : Inv cfg ids decode s)
    {m : Move} (hok : Ok cfg decode s m) (hstep : step cfg ids decode s m = some s') :
    Inv cfg ids decode s' := by
  have hnodes : ∀ x, (nodeConfig cfg ids x).persist = true := fun _ => hpersist
  rcases step_cases hnodes hok hstep with
    ⟨x, k, o, hquiet, ho, rfl⟩ | ⟨x, now, e, he, rfl⟩ | ⟨x, now, e, he, rfl⟩
  · exact h.record hids hquiet ho
  · exact h.deliver hids he now
  · rw [h.again he now]
    exact h

/-- **Active-active convergence**: if each record is written at a node only when
nothing is under way to that node for it, then once every entry has been
delivered both nodes hold the same records. -/
theorem nodes_converge (hpersist : cfg.persist = true) (hdistinct : ids .a ≠ ids .b)
    (hnonempty : ∀ x, ids x ≠ "") {moves : List Move}
    (hrun : Run (step cfg ids decode) (Ok cfg decode) (State.init σ) moves s)
    (hdelivered : ∀ x, (s x).log.length ≤ (s x.other).seen) :
    (s .a).topic.state.contents = (s .b).topic.state.contents := by
  have hinv : Inv cfg ids decode s :=
    hrun.invariant (fun _ _ _ h hok hstep => h.step hpersist ⟨hdistinct, hnonempty⟩ hok hstep)
      Inv.init
  have hpending : ∀ x, s.pending x = [] := by
    intro x
    have := hdelivered x.other
    rw [Side.other_other] at this
    exact drop_eq_nil_iff.mpr this
  funext k
  obtain ⟨x, hx⟩ := hinv.leads k
  have hrecord := hx.record
  rw [hpending] at hrecord
  cases x with
  | a => exact hrecord
  | b => exact hrecord.symm

end System

section Quotes
open Quotes

open Unused

def ids : Side → String
  | .a => "a"
  | .b => "b"

instance (s : State schema) (m : Move) : Decidable (Ok config some s m) := by
  cases m <;> dsimp only [Ok] <;> infer_instance

/-- Two nodes that take turns on one record, with other writes under way. -/
def turns : List Move :=
  [.upsertMap .a 0 true (full "A" 10 11), .upsertMap .b 0 true (full "B" 1 2), .deliver .b 1,
    .upsertMap .b 2 true (full "A" 20 21), .deliver .a 3, .deliver .a 4, .again .a 5 0,
    .delete .a true "B", .deliver .b 6]

def bidOf (s : State schema) (x : Side) (key : String) : Option Value :=
  ((s x).topic.state.contents key).map fun r => r.cells bid

theorem nodes_converge_turns : ∃ s,
    Run (step config ids some) (Ok config some) (State.init schema) turns s ∧
      bidOf s .a "A" = some (.long 20) ∧
      (s .a).topic.state.contents = (s .b).topic.state.contents := by
  refine Run.exists_of_check
    (fun s => (∀ x, (s x).log.length ≤ (s x.other).seen) ∧ bidOf s .a "A" = some (.long 20))
    (by decide +kernel) fun s hrun ⟨hdelivered, hbid⟩ => ?_
  exact ⟨hbid, nodes_converge rfl (by decide) (by decide) hrun hdelivered⟩

/-- One record written at both nodes before either has seen the other's write. -/
def crossed : List Move :=
  [.upsertMap .a 0 true (full "A" 10 11), .upsertMap .b 0 true (full "A" 20 21), .deliver .a 1,
    .deliver .b 1]

/-- Each node ends with what the other wrote. -/
theorem crossed_writes_diverge : ∃ s,
    Run (step config ids some) (fun _ _ => True) (State.init schema) crossed s ∧
      (∀ x, (s x).log.length ≤ (s x.other).seen) ∧
      bidOf s .a "A" = some (.long 20) ∧ bidOf s .b "A" = some (.long 10) := by
  decide +kernel

end Quotes

end ActiveActive

end CqServer
