import CqServer.Subscription.Conflation

/-!
# Bookmarks

The bookmark of a client on a topic (`record_bookmark`, `lookup_bookmark`) is the highest
sequence of a delta that was sent to it directly; the flush loop of a conflated subscription
records none. A client that asks for `MOST_RECENT` is not sent what is not above it.

The threads that deliver are the lanes of the evaluator, with the deltas of an event still to
deliver, the flush loops, and the drain tasks of the spill files; the steps of
`deliver_delta_cached` are taken one by one. A spill file is the list of the frames it holds.

The bookmark says nothing about deltas that were dropped, spilled or not yet sent, so it is
sound only if nothing of the client and topic is behind when a delta is sent past the spill
file (`bookmark_sound`).
-/

namespace CqServer.Delivery

open Lib Conflation List Function
open Option hiding sequence

/-! ## The bookmark store -/

/-- `BookmarkStore`, by client and topic. -/
abbrev BookmarkStore := List ((String × String) × Nat)

def bookmarkStoreMax : Nat := 100000

def lookupBookmark (store : BookmarkStore) (who : String × String) : Option Nat :=
  (store.find? fun e => e.1 = who).map Prod.snd

def recordBookmark (store : BookmarkStore) (who : String × String) (sequence : Nat) :
    BookmarkStore :=
  if who.1 = "" then store
  else if (lookupBookmark store who).isSome then
    store.map fun e => if e.1 = who then (e.1, max e.2 sequence) else e
  else if bookmarkStoreMax ≤ store.length then store
  else store ++ [(who, max 0 sequence)]

theorem lookup_recordBookmark {store : BookmarkStore} {who who' : String × String}
    {sequence b : Nat} (h : lookupBookmark (recordBookmark store who sequence) who' = some b) :
    lookupBookmark store who' = some b ∨ who' = who ∧ b = sequence := by
  unfold recordBookmark at h
  split at h
  · exact .inl h
  split at h
  · -- the marks of others are the same, that of `who` is the higher of the two
    have hkey : ((fun e : (String × String) × Nat => decide (e.1 = who')) ∘
        fun e : (String × String) × Nat => if e.1 = who then (e.1, max e.2 sequence) else e) =
          fun e => decide (e.1 = who') := by
      funext e
      simp only [comp_apply]
      split <;> rfl
    rw [lookupBookmark, find?_map, hkey, Option.map_map] at h
    obtain ⟨e, he, rfl⟩ := map_eq_some_iff.mp h
    have hwho : e.1 = who' := by simpa using find?_some he
    have hold : lookupBookmark store who' = some e.2 := by
      rw [lookupBookmark, he]
      rfl
    simp only [comp_apply]
    split
    · rename_i heq
      rcases Nat.le_total e.2 sequence with hle | hle
      · exact .inr ⟨hwho.symm.trans heq, Nat.max_eq_right hle⟩
      · refine .inl ?_
        rw [Nat.max_eq_left hle]
        exact hold
    · exact .inl hold
  split at h
  · exact .inl h
  rw [lookupBookmark, find?_append, find?_singleton] at h
  cases hfind : store.find? (fun e => decide (e.1 = who')) with
  | some e =>
    rw [hfind] at h
    refine .inl ?_
    rw [lookupBookmark, hfind]
    exact h
  | none =>
    rw [hfind] at h
    split at h
    · rename_i heq
      cases h
      exact .inr ⟨(of_decide_eq_true heq).symm, Nat.zero_max _⟩
    · cases h

/-! ## The threads -/

/-- What of a `DeliveryRoute` does not change. -/
structure ClientRoute where
  session : String
  topic : String
  clientName : Option String
  /-- has a spill file -/
  spillover : Bool
  /-- has a conflator -/
  conflated : Bool
  deriving DecidableEq

def ClientRoute.isFor (who : String × String) (r : ClientRoute) : Bool :=
  r.clientName = some who.1 && r.topic = who.2

/-- A delta the drain task has in hand: counted off next, sent next, to be spilled again, spilled
again and not counted. -/
inductive Drainer where
  | idle
  | uncount (d : Delta)
  | send (d : Delta)
  | respool (d : Delta)
  | recount
  | stopped

def Drainer.hand : Drainer → List Delta
  | .uncount d | .send d | .respool d => [d]
  | _ => []

structure SpillFile where
  frames : List Delta
  pending : Nat
  drainer : Drainer

def SpillFile.empty : SpillFile := ⟨[], 0, .idle⟩

def SpillFile.backlog (f : SpillFile) : List Delta := f.drainer.hand ++ f.frames

structure Channel where
  free : Nat
  closed : Bool

inductive SendResult where
  | sent (c : Channel)
  | full
  | closed

def Channel.trySend (c : Channel) : SendResult :=
  if c.closed then .closed else if c.free = 0 then .full else .sent { c with free := c.free - 1 }

theorem closed_of_trySend {c : Channel} (h : c.trySend = .closed) : c.closed = true := by
  unfold Channel.trySend at h
  split at h
  · assumption
  · split at h <;> cases h

inductive Todo where
  /-- `deliver_delta_cached` is called: look for the route, the conflator and the spill file -/
  | deliver (d : Delta)
  /-- its `try_send` -/
  | send (d : Delta)
  /-- the locked section of its `write_frame` -/
  | spill (d : Delta)
  /-- the `fetch_add` of `write_frame` -/
  | count (subId : String)
  /-- a round of the flush loop: `try_send` -/
  | flush (subId : String) (d : Delta)
  /-- `record_bookmark` -/
  | record (who : String × String) (sequence : Nat)

def Todo.delta : Todo → Option Delta
  | .deliver d | .send d | .spill d => some d
  | _ => none

/-- The state; `emitted` and `placed` are the deltas the engine has emitted and those that were
put into the channel of their route so far. -/
structure Deliveries where
  routes : List (String × ClientRoute)
  live : String → Bool
  spills : String → SpillFile
  conflators : String → Conflator Unit
  channels : String → Channel
  threads : List (List Todo)
  bookmarks : BookmarkStore
  emitted : List Delta
  placed : List Delta

def Deliveries.init (lanes cap : Nat) : Deliveries where
  routes := []
  live := fun _ => false
  spills := fun _ => .empty
  conflators := fun _ => .empty
  channels := fun _ => ⟨cap, false⟩
  threads := replicate lanes []
  bookmarks := []
  emitted := []
  placed := []

inductive DeliveryAction where
  | register (subId : String) (r : ClientRoute)
  /-- `registry.remove` -/
  | unregister (subId : String)
  /-- the engine emits the deltas of an event on this lane -/
  | emit (lane : Nat) (ds : List Delta)
  /-- the flush loop drains its conflator, whose slots come in this order -/
  | flush (subId : String) (order : List Nat)
  /-- a thread goes on; `fits` says whether the spill file takes another frame -/
  | run (thread : Nat) (fits : Bool)
  /-- the drain task goes on -/
  | drain (subId : String) (fits : Bool)
  | take (session : String)
  /-- another frame is put into the channel -/
  | other (session : String)
  | close (session : String)

namespace Deliveries

variable (s : Deliveries)

def routeOf (subId : String) : Option ClientRoute :=
  (s.routes.find? fun e => e.1 = subId).map Prod.snd

def owns (who : String × String) (subId : String) : Bool :=
  (s.routeOf subId).any (·.isFor who)

def goOn (thread : Nat) (todo : List Todo) : Deliveries :=
  { s with threads := s.threads.set thread todo }

def setSpill (subId : String) (f : SpillFile) : Deliveries :=
  { s with spills := update s.spills subId f }

def place (session : String) (c : Channel) (d : Delta) : Deliveries :=
  { s with channels := update s.channels session c, placed := s.placed ++ [d] }

end Deliveries

def ClientRoute.recording (r : ClientRoute) (sequence : Nat) : List Todo :=
  match r.clientName with
  | some client => [.record (client, r.topic) sequence]
  | none => []

def runTodo (s : Deliveries) (thread : Nat) (fits : Bool) (rest : List Todo) :
    Todo → Option Deliveries
  | .deliver d =>
    match s.routeOf d.subscriptionId with
    | some r =>
      if s.live d.subscriptionId then
        if r.conflated then
          let c := (s.conflators d.subscriptionId).submit ⟨(), d⟩
          some ({ s with conflators := update s.conflators d.subscriptionId c }.goOn
            thread rest)
        else if (s.spills d.subscriptionId).pending = 0 then some (s.goOn thread (.send d :: rest))
        else some (s.goOn thread (.spill d :: rest))
      else some (s.goOn thread rest)
    | none => some (s.goOn thread rest)
  | .send d =>
    (s.routeOf d.subscriptionId).map fun r =>
      match (s.channels r.session).trySend with
      | .sent c => (s.place r.session c d).goOn thread (r.recording d.sequence ++ rest)
      | .full => s.goOn thread (.spill d :: rest)
      | .closed => s.goOn thread rest
  | .spill d =>
    (s.routeOf d.subscriptionId).map fun r =>
      let f := s.spills d.subscriptionId
      -- without a spill file the delta is dropped; over the cap, too
      if r.spillover && fits then
        (s.setSpill d.subscriptionId { f with frames := f.frames ++ [d] }).goOn thread
          (.count d.subscriptionId :: rest)
      else s.goOn thread rest
  | .count subId =>
    let f := s.spills subId
    some ((s.setSpill subId { f with pending := f.pending + 1 }).goOn thread rest)
  | .flush subId d =>
    (s.routeOf subId).map fun r =>
      match (s.channels r.session).trySend with
      -- the loop is spawned without the client's name and the bookmark store
      | .sent c => (s.place r.session c d).goOn thread rest
      -- the loop ends when the channel is closed: what is left would find it closed, too
      | .full | .closed => s.goOn thread rest
  | .record who sequence =>
    some ({ s with bookmarks := recordBookmark s.bookmarks who sequence }.goOn thread rest)

/-- The next step of a drain task, which reads when it finds frames pending and room. -/
def runDrain (s : Deliveries) (r : ClientRoute) (subId : String) (fits : Bool) : Option Deliveries :=
  let f := s.spills subId
  match f.drainer with
  | .idle =>
    match f.frames with
    | [] => none
    | d :: frames => some (s.setSpill subId { f with frames, drainer := .uncount d })
  | .uncount d => some (s.setSpill subId { f with pending := f.pending - 1, drainer := .send d })
  | .send d =>
    match (s.channels r.session).trySend with
    | .sent c => some ((s.place r.session c d).setSpill subId { f with drainer := .idle })
    | .full => some (s.setSpill subId { f with drainer := .respool d })
    | .closed => some (s.setSpill subId { f with drainer := .stopped })
  | .respool d =>
    if fits then some (s.setSpill subId { f with frames := f.frames ++ [d], drainer := .recount })
    else some (s.setSpill subId { f with drainer := .idle })
  | .recount => some (s.setSpill subId { f with pending := f.pending + 1, drainer := .idle })
  | .stopped => none

def stepDeliveries (cap : Nat) (s : Deliveries) : DeliveryAction → Option Deliveries
  | .register subId r =>
    if (s.routeOf subId).isSome then none
    else
      some
        { s with
          routes := s.routes ++ [(subId, r)]
          live := update s.live subId true
          spills := update s.spills subId .empty
          conflators := update s.conflators subId .empty }
  | .unregister subId => some { s with live := update s.live subId false }
  | .emit lane ds =>
    match s.threads[lane]? with
    | some [] =>
      some { s.goOn lane (ds.map .deliver) with emitted := s.emitted ++ ds }
    | _ => none
  | .flush subId order =>
    match s.routeOf subId with
    | some r =>
      let c := s.conflators subId
      if r.conflated && order.isPerm c.pending.keys then
        some
          { s with
            conflators := update s.conflators subId .empty
            threads := s.threads ++ [(c.drain order).map fun e => .flush subId e.delta] }
      else none
    | none => none
  | .run thread fits =>
    match s.threads[thread]? with
    | some (x :: rest) => runTodo s thread fits rest x
    | _ => none
  | .drain subId fits => (s.routeOf subId).bind fun r => runDrain s r subId fits
  | .take session =>
    let c := s.channels session
    if c.free < cap then
      some { s with channels := update s.channels session { c with free := c.free + 1 } }
    else none
  | .other session =>
    match (s.channels session).trySend with
    | .sent c => some { s with channels := update s.channels session c }
    | _ => none
  | .close session =>
    let c := s.channels session
    some { s with channels := update s.channels session { c with closed := true } }

def NoBacklog (who : String × String) (s : Deliveries) : Prop :=
  ∀ e ∈ s.routes, s.owns who e.1 = true → (s.spills e.1).backlog.length = 0

def Todo.owned (who : String × String) (s : Deliveries) (x : Todo) : Bool :=
  x.delta.any fun d => s.owns who d.subscriptionId

/-- A thread goes on with a delta of the client and topic: it is not lost, and not sent past
anything spilled. -/
def OkTodo (who : String × String) (s : Deliveries) (fits : Bool) : Todo → Prop
  | .deliver d =>
    s.owns who d.subscriptionId = true → s.live d.subscriptionId = true ∧
      ((s.spills d.subscriptionId).pending = 0 → NoBacklog who s)
  | .send d =>
    ∀ r ∈ s.routeOf d.subscriptionId, r.isFor who = true → (s.channels r.session).closed = false
  | .spill d => ∀ r ∈ s.routeOf d.subscriptionId, r.isFor who = true → r.spillover = true ∧ fits = true
  | _ => True

/-- A drain task goes on with a delta of the client and topic: it is not lost. -/
def OkDrain (s : Deliveries) (r : ClientRoute) (fits : Bool) : Drainer → Prop
  | .send _ => (s.channels r.session).closed = false
  | .respool _ => fits = true
  | _ => True

/-- The condition on a step: the subscriptions of the client on the topic are not conflated and
are registered before their first delta is emitted; the engine emits one delta for them at a
time, in sequence, when the last one is delivered; and none is lost or sent past anything
spilled. -/
def OkDelivery (who : String × String) (s : Deliveries) : DeliveryAction → Prop
  | .register subId r =>
    r.isFor who = true → r.conflated = false ∧ ∀ d ∈ s.emitted, d.subscriptionId ≠ subId
  | .emit _ ds =>
    (∀ c ∈ s.threads, ∀ x ∈ c, x.owned who s = false) ∧
    (ds.Pairwise fun d e => ¬ (s.owns who d.subscriptionId = true ∧ s.owns who e.subscriptionId = true)) ∧
    ∀ d ∈ ds, s.owns who d.subscriptionId = true →
      ∀ e ∈ s.emitted, s.owns who e.subscriptionId = true → e.sequence < d.sequence
  | .run thread fits => ∀ x ∈ (s.threads.getD thread []).head?, OkTodo who s fits x
  | .drain subId fits =>
    ∀ r ∈ s.routeOf subId, r.isFor who = true → OkDrain s r fits (s.spills subId).drainer
  | _ => True

/-! ## The invariant -/

namespace Deliveries

def todos (s : Deliveries) : List Todo := s.threads.flatten

/-- Everything emitted for the client on the topic, up to this sequence, is in its channel, and
the sequence is not ahead of what was emitted. -/
def Reached (who : String × String) (s : Deliveries) (q : Nat) : Prop :=
  (∀ d ∈ s.emitted, s.owns who d.subscriptionId = true → d.sequence ≤ q → d ∈ s.placed) ∧
    ∃ d ∈ s.emitted, s.owns who d.subscriptionId = true ∧ q ≤ d.sequence

variable {s : Deliveries}

theorem goOn_todos {thread : Nat} {c : List Todo} (h : s.threads[thread]? = some c) :
    ∃ others, s.todos.Perm (c ++ others) ∧
      ∀ t : Deliveries, t.threads = s.threads → ∀ c', (t.goOn thread c').todos.Perm (c' ++ others) := by
  obtain ⟨hlt, hget⟩ := List.getElem?_eq_some_iff.mp h
  refine ⟨(s.threads.take thread).flatten ++ (s.threads.drop (thread + 1)).flatten, ?_, ?_⟩
  · have hsplit : s.threads = s.threads.take thread ++ c :: s.threads.drop (thread + 1) := by
      rw [← hget, cons_getElem_drop_succ, take_append_drop]
    rw [todos]
    conv_lhs => rw [hsplit, flatten_append]
    exact perm_append_comm_assoc _ _ _
  · intro t ht c'
    rw [todos, goOn]
    rw [ht, set_eq_take_append_cons_drop, if_pos hlt, flatten_append]
    exact perm_append_comm_assoc _ _ _

theorem routeOf_mem {subId : String} {r : ClientRoute}
    (h : s.routeOf subId = some r) : (subId, r) ∈ s.routes := by
  obtain ⟨e, he, rfl⟩ := map_eq_some_iff.mp h
  have hkey : e.1 = subId := by simpa using find?_some he
  exact hkey ▸ mem_of_find?_eq_some he

variable {who : String × String} {subId : String}

theorem owns_iff :
    s.owns who subId = true ↔ ∃ r, s.routeOf subId = some r ∧ r.isFor who = true := by
  unfold owns
  cases s.routeOf subId with
  | none | some r => simp

theorem isFor_of_owns {r : ClientRoute}
    (hr : s.routeOf subId = some r) (hown : s.owns who subId = true) : r.isFor who = true := by
  obtain ⟨r', hr', hfor⟩ := owns_iff.mp hown
  exact some.inj (hr'.symm.trans hr) ▸ hfor

end Deliveries

open Deliveries

structure Sound (who : String × String) (s : Deliveries) (todos : List Todo) : Prop where
  emitted : ∀ x ∈ todos, ∀ d, x.delta = some d → d ∈ s.emitted
  /-- a delta is in the channel, in the hands of a thread or spilled -/
  accounted : ∀ d ∈ s.emitted, s.owns who d.subscriptionId = true →
    d ∈ s.placed ∨ (∃ x ∈ todos, x.delta = some d) ∨ d ∈ (s.spills d.subscriptionId).backlog
  /-- one at a time is in the hands of a thread -/
  alone : todos.countP (·.owned who s) ≤ 1
  /-- it is sent past the spill files only when nothing is in them -/
  direct : ∀ d, .send d ∈ todos → s.owns who d.subscriptionId = true → NoBacklog who s
  recording : ∀ q, .record who q ∈ todos → s.Reached who q
  bookmark : ∀ b, lookupBookmark s.bookmarks who = some b → s.Reached who b
  plain : ∀ subId r, s.routeOf subId = some r → r.isFor who = true → r.conflated = false

variable {who : String × String} {s : Deliveries} {todos : List Todo}

def Todo.Fine (who : String × String) (s : Deliveries) : Todo → Prop
  | .deliver d | .spill d => d ∈ s.emitted
  | .send d => d ∈ s.emitted ∧ (s.owns who d.subscriptionId = true → NoBacklog who s)
  | .count _ | .flush _ _ => True
  | .record who' q => who' = who → s.Reached who q

theorem Sound.fine (h : Sound who s todos) : ∀ x ∈ todos, x.Fine who s := by
  intro x hx
  cases x with
  | deliver d | spill d => exact h.emitted _ hx d rfl
  | send d => exact ⟨h.emitted _ hx d rfl, h.direct d hx⟩
  | count subId | flush subId d => trivial
  | record who' q =>
    rintro rfl
    exact h.recording q hx

def Accounted (s : Deliveries) (todos : List Todo) (d : Delta) : Prop :=
  d ∈ s.placed ∨ (∃ x ∈ todos, x.delta = some d) ∨ d ∈ (s.spills d.subscriptionId).backlog

theorem Sound.of_fine (hfine : ∀ x ∈ todos, x.Fine who s)
    (haccounted : ∀ d ∈ s.emitted, s.owns who d.subscriptionId = true → Accounted s todos d)
    (halone : todos.countP (·.owned who s) ≤ 1)
    (hbookmark : ∀ b, lookupBookmark s.bookmarks who = some b → s.Reached who b)
    (hplain : ∀ subId r, s.routeOf subId = some r → r.isFor who = true → r.conflated = false) :
    Sound who s todos where
  emitted := by
    intro x hx d hd
    have hx := hfine x hx
    cases x with
    | deliver d' | spill d' =>
      cases hd
      exact hx
    | send d' =>
      cases hd
      exact hx.1
    | count | flush | record => cases hd
  accounted := haccounted
  alone := halone
  direct := fun d hd => (hfine _ hd).2
  recording := fun q hq => hfine _ hq rfl
  bookmark := hbookmark
  plain := hplain

/-- What the threads have to do changes, and no delta gets out of their hands. -/
theorem Sound.turn {todos' : List Todo} (h : Sound who s todos) (hfine : ∀ x ∈ todos', x.Fine who s)
    (hhands : ∀ x ∈ todos, ∀ d, x.delta = some d → s.owns who d.subscriptionId = true →
      Accounted s todos' d)
    (halone : todos'.countP (·.owned who s) ≤ 1) : Sound who s todos' := by
  refine .of_fine hfine (fun d hd hown => ?_) halone h.bookmark h.plain
  rcases h.accounted d hd hown with hplaced | ⟨x, hx, hdelta⟩ | hspilled
  · exact .inl hplaced
  · exact hhands x hx d hdelta hown
  · exact .inr (.inr hspilled)

theorem Sound.perm {todos' : List Todo} (h : Sound who s todos) (hp : todos'.Perm todos) :
    Sound who s todos' :=
  h.turn (fun x hx => h.fine x (hp.mem_iff.mp hx))
    (fun x hx _ hdelta _ => .inr (.inl ⟨x, hp.mem_iff.mpr hx, hdelta⟩)) (hp.countP_eq _ ▸ h.alone)

/-- The threads, the channels and the conflators do not matter. -/
theorem Sound.same {t : Deliveries} (h : Sound who s todos) (hroutes : t.routes = s.routes)
    (hspills : t.spills = s.spills) (hbookmarks : t.bookmarks = s.bookmarks)
    (hemitted : t.emitted = s.emitted) (hplaced : t.placed = s.placed) : Sound who t todos := by
  obtain ⟨routes', live', spills', conflators', channels', threads', bookmarks', emitted',
    placed'⟩ := t
  subst hroutes hspills hbookmarks hemitted hplaced
  exact { h with }

variable {d : Delta} {x : Todo}

theorem owned_of_delta (hd : x.delta = some d) : x.owned who s = s.owns who d.subscriptionId := by
  rw [Todo.owned, hd, any_some]

variable {y : Todo}

section
variable (h : Sound who s (x :: todos))
include h

/-- With one delta in the hands of a thread, no other is. -/
theorem Sound.others (hx : x.owned who s = true) (hy : y ∈ todos) :
    ¬ y.owned who s = true := by
  have halone := h.alone
  rw [countP_cons_of_pos hx] at halone
  have hzero := Nat.le_zero.mp (Nat.le_of_succ_le_succ halone)
  exact countP_eq_zero.mp hzero y hy

theorem Sound.done (hx : ∀ d, x.delta = some d → s.owns who d.subscriptionId = true → d ∈ s.placed)
    :
    Sound who s todos := by
  refine h.turn (fun y hy => h.fine y (mem_cons_of_mem x hy)) ?_
    (((sublist_cons_self x todos).countP_le).trans h.alone)
  intro y hy d hdelta hown
  rcases mem_cons.mp hy with rfl | hy
  · exact .inl (hx d hdelta hown)
  · exact .inr (.inl ⟨y, hy, hdelta⟩)

theorem Sound.drop (hx : x.owned who s = false) :
    Sound who s todos := by
  refine h.done fun d hdelta hown => ?_
  rw [owned_of_delta hdelta, hown] at hx
  cases hx

theorem Sound.lose (hdelta : x.delta = some d) (hnot : ¬ s.owns who d.subscriptionId = true) :
    Sound who s todos :=
  h.done fun _ he hown => absurd (some.inj (hdelta.symm.trans he) ▸ hown) hnot

theorem Sound.replace (hdelta : y.delta = x.delta)
    (hy : y.Fine who s) : Sound who s (y :: todos) := by
  refine h.turn (forall_mem_cons.mpr ⟨hy, fun z hz => h.fine z (mem_cons_of_mem x hz)⟩) ?_ ?_
  · intro z hz d hd _
    rcases mem_cons.mp hz with rfl | hz
    · exact .inr (.inl ⟨y, mem_cons_self, hdelta ▸ hd⟩)
    · exact .inr (.inl ⟨z, mem_cons_of_mem y hz, hd⟩)
  · have hsame : y.owned who s = x.owned who s := by rw [Todo.owned, Todo.owned, hdelta]
    have halone := h.alone
    rw [countP_cons] at halone ⊢
    rw [hsame]
    exact halone

end

theorem Sound.next (h : Sound who s todos) (hnone : x.delta = none) (hx : x.Fine who s) :
    Sound who s (x :: todos) := by
  refine h.turn (forall_mem_cons.mpr ⟨hx, h.fine⟩)
    (fun y hy _ hd _ => .inr (.inl ⟨y, mem_cons_of_mem x hy, hd⟩)) ?_
  have hown : ¬ x.owned who s = true := by
    rw [Todo.owned, hnone]
    exact Bool.false_ne_true
  rw [countP_cons_of_neg hown]
  exact h.alone

theorem Sound.spills {subId : String} {f : SpillFile} {placed : List Delta}
    (h : Sound who s todos) (hplaced : ∀ d ∈ s.placed, d ∈ placed)
    (hkeep : s.owns who subId = true → ∀ d ∈ (s.spills subId).backlog, d ∈ f.backlog ∨ d ∈ placed)
    (hempty : (s.spills subId).backlog.length = 0 → f.backlog.length = 0) :
    Sound who { s with spills := update s.spills subId f, placed := placed } todos where
  emitted := h.emitted
  accounted := by
    intro d hd hown
    rcases h.accounted d hd hown with hold | hhand | hspilled
    · exact .inl (hplaced d hold)
    · exact .inr (.inl hhand)
    dsimp only
    by_cases hsub : d.subscriptionId = subId
    · rw [hsub] at hspilled ⊢
      rw [update_self]
      have howns : s.owns who subId = true := hsub ▸ hown
      rcases hkeep howns d hspilled with hback | hnew
      · exact .inr (.inr hback)
      · exact .inl hnew
    · rw [update_of_ne hsub]
      exact .inr (.inr hspilled)
  alone := h.alone
  direct := by
    intro d hd hown e he hfor
    have hnone := h.direct d hd hown e he hfor
    dsimp only
    by_cases hsub : e.1 = subId
    · rw [hsub] at hnone ⊢
      rw [update_self]
      exact hempty hnone
    · rw [update_of_ne hsub]
      exact hnone
  recording := fun q hq =>
    ⟨fun d hd hown hle => hplaced d ((h.recording q hq).1 d hd hown hle), (h.recording q hq).2⟩
  bookmark := fun b hb =>
    ⟨fun d hd hown hle => hplaced d ((h.bookmark b hb).1 d hd hown hle), (h.bookmark b hb).2⟩
  plain := h.plain

theorem Sound.place {session : String} {c : Channel} (h : Sound who s todos) (d : Delta) :
    Sound who (s.place session c d) todos := by
  have hsame := @Sound.spills who s _ d.subscriptionId (s.spills d.subscriptionId)
    (s.placed ++ [d]) h (fun e he => mem_append_left _ he) (fun _ e he => .inl he) id
  rw [update_eq_self] at hsame
  exact hsame.same rfl rfl rfl rfl rfl

variable {r : ClientRoute} {sequence : Nat}

theorem Sound.recordNext (h : Sound who s todos)
    (hreached : r.isFor who = true → s.Reached who sequence) :
    Sound who s (r.recording sequence ++ todos) := by
  unfold ClientRoute.recording
  split
  · rename_i client hclient
    refine h.next rfl fun heq => hreached ?_
    rw [ClientRoute.isFor, hclient, ← heq]
    simp
  · exact h

/-! ## The steps -/

/-- With one delta in hand and nothing spilled, everything else is in the channel. -/
theorem Sound.reached_send (h : Sound who s (.send d :: todos))
    (hown : s.owns who d.subscriptionId = true) :
    ∀ e ∈ s.emitted, s.owns who e.subscriptionId = true → e ∈ s.placed ∨ e = d := by
  intro e he hown'
  have hnone := h.direct d mem_cons_self hown
  rcases h.accounted e he hown' with hplaced | ⟨x, hx, hdelta⟩ | hspilled
  · exact .inl hplaced
  · rcases mem_cons.mp hx with rfl | hx
    · exact .inr (some.inj hdelta).symm
    · -- there would be two in the hands of threads
      have hsend : Todo.owned who s (.send d) = true := (owned_of_delta rfl).trans hown
      exact absurd ((owned_of_delta hdelta).trans hown') (h.others hsend hx)
  · obtain ⟨r, hr, hfor⟩ := owns_iff.mp hown'
    have hlen := hnone _ (routeOf_mem hr) hown'
    rw [length_eq_zero_iff.mp hlen] at hspilled
    cases hspilled

/-- **The delta is sent**, and its sequence will be the bookmark. -/
theorem Sound.send {c : Channel} (h : Sound who s (.send d :: todos))
    (hr : s.routeOf d.subscriptionId = some r) :
    Sound who (s.place r.session c d) (r.recording d.sequence ++ todos) := by
  have hdrop : Sound who (s.place r.session c d) todos := by
    refine (h.place d).done fun e he _ => ?_
    cases he
    exact mem_append_right _ mem_cons_self
  refine hdrop.recordNext fun hfor => ?_
  have hown : s.owns who d.subscriptionId = true := owns_iff.mpr ⟨r, hr, hfor⟩
  have hmem : d ∈ s.emitted := h.emitted _ mem_cons_self d rfl
  refine ⟨fun e he howns _ => ?_, d, hmem, hown, le_rfl⟩
  rcases h.reached_send hown e he howns with hplaced | rfl
  · exact mem_append_left _ hplaced
  · exact mem_append_right _ mem_cons_self

def Deliveries.addFrame (s : Deliveries) (d : Delta) : Deliveries :=
  s.setSpill d.subscriptionId
    { s.spills d.subscriptionId with frames := (s.spills d.subscriptionId).frames ++ [d] }

theorem backlog_addFrame (k : String) : ((s.addFrame d).spills k).backlog =
    (s.spills k).backlog ++ if k = d.subscriptionId then [d] else [] := by
  unfold addFrame setSpill SpillFile.backlog
  by_cases hk : k = d.subscriptionId
  · simp [hk]
  · simp [hk]

theorem Sound.spill (h : Sound who s (.spill d :: todos)) :
    Sound who (s.addFrame d) (.count d.subscriptionId :: todos) := by
  have hdirect : ∀ e, .send e ∈ todos → s.owns who e.subscriptionId = true →
      NoBacklog who (s.addFrame d) := by
    intro e he hown e' he' hown'
    -- the delta in hand is not of the client and topic, so the file is of another route
    have hne : e'.1 ≠ d.subscriptionId := by
      intro hsub
      have hspill : Todo.owned who s (.spill d) = true := by
        rw [owned_of_delta rfl, ← hsub]
        exact hown'
      exact h.others hspill he ((owned_of_delta rfl).trans hown)
    rw [backlog_addFrame, if_neg hne, append_nil]
    exact h.direct e (mem_cons_of_mem _ he) hown e' he' hown'
  refine Sound.next (.of_fine ?_ ?_ ?_ h.bookmark h.plain) rfl trivial
  · intro x hx
    have hfine := h.fine x (mem_cons_of_mem _ hx)
    cases x with
    | send e => exact ⟨hfine.1, hdirect e hx⟩
    | _ => exact hfine
  · intro e he hown
    rcases h.accounted e he hown with hplaced | ⟨x, hx, hdelta⟩ | hspilled
    · exact .inl hplaced
    · rcases mem_cons.mp hx with rfl | hx
      · cases hdelta
        refine .inr (.inr ?_)
        rw [backlog_addFrame, if_pos rfl]
        exact mem_append_right _ mem_cons_self
      · exact .inr (.inl ⟨x, hx, hdelta⟩)
    · refine .inr (.inr ?_)
      rw [backlog_addFrame]
      exact mem_append_left _ hspilled
  · have halone := ((sublist_cons_self (.spill d) todos).countP_le).trans h.alone
    exact halone

theorem Sound.record {who' : String × String} (h : Sound who s (.record who' sequence :: todos)) :
    Sound who { s with bookmarks := recordBookmark s.bookmarks who' sequence } todos := by
  have hdrop : Sound who s todos := h.drop rfl
  refine { hdrop with bookmark := ?_ }
  intro b hb
  rcases lookup_recordBookmark hb with hold | ⟨rfl, rfl⟩
  · exact h.bookmark b hold
  · exact h.recording b mem_cons_self

variable {fits : Bool} {s' : Deliveries}

theorem Sound.runTodo {rest others : List Todo} {thread : Nat} (h : Sound who s (x :: others))
    (hperm : ∀ t : Deliveries, t.threads = s.threads →
      ∀ ys, (t.goOn thread (ys ++ rest)).todos.Perm (ys ++ others)) (hok : OkTodo who s fits x)
    (hstep : runTodo s thread fits rest x = some s') :
    Sound who s' s'.todos := by
  -- the new state differs from one the invariant holds of in the threads only
  have hgo : ∀ t : Deliveries, t.threads = s.threads → ∀ ys, Sound who t (ys ++ others) →
      Sound who (t.goOn thread (ys ++ rest)) (t.goOn thread (ys ++ rest)).todos :=
    fun t ht ys hs => (hs.perm (hperm t ht ys)).same rfl rfl rfl rfl rfl
  cases x with
  | deliver d =>
    have hemitted : d ∈ s.emitted := h.emitted _ mem_cons_self d rfl
    simp only [Delivery.runTodo] at hstep
    split at hstep
    · rename_i r hr
      split at hstep
      · split at hstep
        · rename_i hconf
          cases hstep
          refine hgo _ ?_ [] (Sound.same (h.lose rfl fun hown => ?_) rfl rfl rfl rfl rfl)
          · rfl
          rw [h.plain _ _ hr (isFor_of_owns hr hown)] at hconf
          cases hconf
        · split at hstep
          · rename_i hzero
            cases hstep
            refine hgo s rfl [.send d] (h.replace rfl ⟨hemitted, ?_⟩)
            exact fun hown => (hok hown).2 hzero
          · cases hstep
            exact hgo s rfl [.spill d] (h.replace rfl hemitted)
      · rename_i hdead
        cases hstep
        exact hgo s rfl [] (h.lose rfl fun hown => hdead (hok hown).1)
    · rename_i hnone
      cases hstep
      refine hgo s rfl [] (h.lose rfl ?_)
      rw [owns, hnone]
      exact Bool.false_ne_true
  | send d =>
    obtain ⟨r, hr, rfl⟩ := map_eq_some_iff.mp hstep
    split
    · rename_i c hsent
      exact hgo (s.place r.session c d) rfl _ (h.send hr)
    · exact hgo s rfl [.spill d] (h.replace rfl (h.emitted _ mem_cons_self d rfl))
    · rename_i hclosed
      refine hgo s rfl [] (h.lose rfl fun hown => ?_)
      cases (hok r hr (isFor_of_owns hr hown)).symm.trans (closed_of_trySend hclosed)
  | spill d =>
    obtain ⟨r, hr, rfl⟩ := map_eq_some_iff.mp hstep
    split
    · exact hgo (s.setSpill _ _) rfl [.count d.subscriptionId] h.spill
    rename_i hlost
    refine hgo s rfl [] (h.lose rfl fun hown => ?_)
    obtain ⟨hspill, hfits⟩ := hok r hr (isFor_of_owns hr hown)
    exact hlost (by rw [hspill, hfits]; rfl)
  | count subId =>
    cases hstep
    have hsame := @Sound.spills who s _ subId
      { s.spills subId with pending := (s.spills subId).pending + 1 } s.placed
      (h.drop rfl) (fun _ => id) (fun _ d hd => .inl hd) id
    exact hgo (s.setSpill _ _) rfl [] hsame
  | flush subId d =>
    obtain ⟨r, -, rfl⟩ := map_eq_some_iff.mp hstep
    have hdrop : Sound who s others := h.drop rfl
    split
    · rename_i c hsent
      exact hgo (s.place r.session c d) rfl [] (hdrop.place d)
    · exact hgo s rfl [] hdrop
    · exact hgo s rfl [] hdrop
  | record who' sequence =>
    cases hstep
    exact hgo { s with bookmarks := recordBookmark s.bookmarks who' sequence } rfl [] h.record

variable {subId : String}

theorem Sound.runDrain (h : Sound who s todos) (hr : s.routeOf subId = some r)
    (hok : r.isFor who = true → OkDrain s r fits (s.spills subId).drainer)
    (hstep : runDrain s r subId fits = some s') : Sound who s' todos := by
  have hok' : s.owns who subId = true → OkDrain s r fits (s.spills subId).drainer :=
    fun hown => hok (isFor_of_owns hr hown)
  -- what is not placed stays in the backlog
  have hset : ∀ f : SpillFile,
      (s.owns who subId = true → ∀ d ∈ (s.spills subId).backlog, d ∈ f.backlog) →
      ((s.spills subId).backlog.length = 0 → f.backlog.length = 0) →
      Sound who (s.setSpill subId f) todos :=
    fun f hkeep hempty => h.spills (fun _ => id) (fun hown d hd => .inl (hkeep hown d hd)) hempty
  unfold Delivery.runDrain at hstep
  generalize hf : s.spills subId = f at hstep hok' hset
  obtain ⟨frames, pending, drainer⟩ := f
  cases drainer with
  | idle =>
    dsimp only at hstep
    split at hstep
    · cases hstep
    · cases hstep
      exact hset _ (fun _ e he => he) (fun hlen => nomatch hlen)
  | uncount d =>
    cases hstep
    exact hset _ (fun _ e he => he) id
  | send d =>
    split at hstep
    · cases hstep
      refine Sound.same (@Sound.spills who s todos subId ⟨frames, pending, .idle⟩
        (s.placed ++ [d]) h (fun e he => mem_append_left _ he) ?_ ?_) rfl rfl rfl rfl rfl
      · intro _ e he
        rw [hf] at he
        rcases mem_cons.mp he with rfl | he
        · exact .inr (mem_append_right _ mem_cons_self)
        · exact .inl he
      · intro hlen
        rw [hf] at hlen
        cases hlen
    · cases hstep
      exact hset _ (fun _ e he => he) id
    · rename_i hclosed
      cases hstep
      refine hset _ (fun hown => ?_) (fun hlen => nomatch hlen)
      have hopen : (s.channels r.session).closed = false := hok' hown
      cases hopen.symm.trans (closed_of_trySend hclosed)
  | respool d =>
    dsimp only at hstep
    split at hstep
    · cases hstep
      refine hset _ (fun _ e he => ?_) (fun hlen => nomatch hlen)
      have hback : e ∈ frames ++ [d] := by
        rcases mem_cons.mp he with rfl | he
        · exact mem_append_right _ mem_cons_self
        · exact mem_append_left _ he
      exact hback
    · rename_i hlost
      cases hstep
      exact hset _ (fun hown => absurd (hok' hown) hlost) (fun hlen => nomatch hlen)
  | recount =>
    cases hstep
    exact hset _ (fun _ e he => he) id
  | stopped => cases hstep

theorem runDrain_threads (h : runDrain s r subId fits = some s') : s'.threads = s.threads := by
  simp only [Delivery.runDrain] at h
  split at h
  · split at h
    · cases h
    · cases h
      rfl
  · cases h
    rfl
  · split at h <;> cases h <;> rfl
  · split at h <;> cases h <;> rfl
  · cases h
    rfl
  · cases h

def Deliveries.addRoute (s : Deliveries) (subId : String) (r : ClientRoute) : Deliveries :=
  { s with routes := s.routes ++ [(subId, r)], spills := update s.spills subId .empty }

theorem routeOf_addRoute (hnew : s.routeOf subId = none) (k : String) :
    (s.addRoute subId r).routeOf k = if k = subId then some r else s.routeOf k := by
  unfold Deliveries.routeOf addRoute at *
  rw [find?_append, find?_singleton]
  by_cases hk : k = subId
  · subst hk
    rw [map_eq_none_iff.mp hnew]
    simp
  · have hno : ¬ decide ((subId, r).1 = k) = true := by simpa using Ne.symm hk
    rw [if_neg hno, or_none, if_neg hk]

theorem Sound.register (h : Sound who s todos) (hnew : s.routeOf subId = none)
    (hok : r.isFor who = true → r.conflated = false ∧ ∀ d ∈ s.emitted, d.subscriptionId ≠ subId) :
    Sound who (s.addRoute subId r) todos := by
  have hroute := @routeOf_addRoute s r subId hnew
  have howns : ∀ k, (s.addRoute subId r).owns who k =
      if k = subId then r.isFor who else s.owns who k := by
    intro k
    rw [Deliveries.owns, hroute]
    split <;> rfl
  have hold : s.owns who subId = false := by
    rw [Deliveries.owns, hnew]
    rfl
  -- nothing was emitted for a new subscription of the client on the topic
  have hsame : ∀ d ∈ s.emitted,
      (s.addRoute subId r).owns who d.subscriptionId = s.owns who d.subscriptionId := by
    intro d hd
    rw [howns]
    split
    · rename_i hsub
      rw [hsub, hold, Bool.eq_false_iff]
      exact fun hfor => (hok hfor).2 d hd hsub
    · rfl
  have hreached : ∀ q, s.Reached who q → (s.addRoute subId r).Reached who q := by
    rintro q ⟨hall, d, hd, hown, hq⟩
    refine ⟨fun e he howne hle => hall e he ?_ hle, d, hd, ?_, hq⟩
    · rw [← hsame e he]
      exact howne
    · rw [hsame d hd]
      exact hown
  refine ⟨h.emitted, ?_, ?_, ?_, fun q hq => hreached q (h.recording q hq),
    fun b hb => hreached b (h.bookmark b hb), ?_⟩
  · intro d hd hown
    rw [hsame d hd] at hown
    have hne : d.subscriptionId ≠ subId := by
      intro hsub
      rw [hsub, hold] at hown
      cases hown
    dsimp only [addRoute]
    rw [update_of_ne hne]
    exact h.accounted d hd hown
  · refine Nat.le_trans (Nat.le_of_eq ?_) h.alone
    refine countP_congr fun x hx => ?_
    cases hdelta : x.delta with
    | none => simp [Todo.owned, hdelta]
    | some d =>
      rw [owned_of_delta hdelta, owned_of_delta hdelta, hsame d (h.emitted x hx d hdelta)]
  · intro d hd hown e he hfor
    rw [hsame d (h.emitted _ hd d rfl)] at hown
    dsimp only [addRoute]
    by_cases hsub : e.1 = subId
    · rw [hsub, update_self]
      rfl
    · rw [update_of_ne hsub]
      rw [howns, if_neg hsub] at hfor
      rcases mem_append.mp he with he | he
      · exact h.direct d hd hown e he hfor
      · rw [mem_singleton.mp he] at hsub
        exact absurd rfl hsub
  · intro k r' hr' hfor
    rw [hroute] at hr'
    split at hr'
    · cases hr'
      exact (hok hfor).1
    · exact h.plain k r' hr' hfor

theorem Sound.emit {ds : List Delta} (h : Sound who s todos)
    (hidle : ∀ x ∈ todos, x.owned who s = false)
    (hone : ds.Pairwise fun d e =>
      ¬ (s.owns who d.subscriptionId = true ∧ s.owns who e.subscriptionId = true))
    (hnext : ∀ d ∈ ds, s.owns who d.subscriptionId = true →
      ∀ e ∈ s.emitted, s.owns who e.subscriptionId = true → e.sequence < d.sequence) :
    Sound who { s with emitted := s.emitted ++ ds } (ds.map .deliver ++ todos) := by
  -- the new ones are above every bookmark
  have hreached : ∀ q, s.Reached who q →
      Deliveries.Reached who { s with emitted := s.emitted ++ ds } q := by
    rintro q ⟨hall, e, he, howne, hq⟩
    refine ⟨fun d hd hown hle => ?_, e, mem_append_left _ he, howne, hq⟩
    rcases mem_append.mp hd with hd | hd
    · exact hall d hd hown hle
    · have hlt := hnext d hd hown e he howne
      omega
  refine .of_fine (forall_mem_append.mpr ⟨?_, ?_⟩) ?_ ?_
    (fun b hb => hreached b (h.bookmark b hb)) h.plain
  · intro x hx
    obtain ⟨d, hd, rfl⟩ := mem_map.mp hx
    exact mem_append_right _ hd
  · intro x hx
    have hfine := h.fine x hx
    cases x with
    | deliver d | spill d => exact mem_append_left _ hfine
    | send d => exact ⟨mem_append_left _ hfine.1, hfine.2⟩
    | count | flush => exact hfine
    | record who' q => exact fun heq => hreached q (hfine heq)
  · intro d hd hown
    rcases mem_append.mp hd with hd | hd
    · rcases h.accounted d hd hown with hplaced | ⟨x, hx, hdelta⟩ | hspilled
      · exact .inl hplaced
      · exact .inr (.inl ⟨x, mem_append_right _ hx, hdelta⟩)
      · exact .inr (.inr hspilled)
    · exact .inr (.inl ⟨.deliver d, mem_append_left _ (mem_map_of_mem hd), rfl⟩)
  · have hzero : todos.countP (fun x => Todo.owned who { s with emitted := s.emitted ++ ds } x) = 0 :=
      countP_eq_zero.mpr fun x hx => Bool.eq_false_iff.mp (hidle x hx)
    rw [countP_append, hzero, countP_map]
    have hle : ∀ l : List Delta, (l.Pairwise fun d e =>
        ¬ (s.owns who d.subscriptionId = true ∧ s.owns who e.subscriptionId = true)) →
        l.countP (fun d => s.owns who d.subscriptionId) ≤ 1 := by
      intro l hl
      induction l with
      | nil => exact Nat.zero_le _
      | cons d l ih =>
        obtain ⟨hd, hl⟩ := pairwise_cons.mp hl
        by_cases hown : s.owns who d.subscriptionId = true
        · have hrest : l.countP (fun d => s.owns who d.subscriptionId) = 0 :=
            countP_eq_zero.mpr fun e he howne => hd e he ⟨hown, howne⟩
          rw [countP_cons, hrest, if_pos hown]
        · rw [countP_cons, if_neg hown]
          exact ih hl
    exact hle ds hone

theorem Sound.flush {ds : List (RecordDelta Unit)} (h : Sound who s todos) :
    Sound who s (todos ++ ds.map fun e => .flush subId e.delta) := by
  refine h.turn (forall_mem_append.mpr ⟨h.fine, ?_⟩)
    (fun x hx _ hdelta _ => .inr (.inl ⟨x, mem_append_left _ hx, hdelta⟩)) ?_
  · intro x hx
    obtain ⟨e, -, rfl⟩ := mem_map.mp hx
    trivial
  · have hzero : (ds.map fun e => Todo.flush subId e.delta).countP (·.owned who s) = 0 := by
      refine countP_eq_zero.mpr fun x hx => ?_
      obtain ⟨e, -, rfl⟩ := mem_map.mp hx
      exact Bool.false_ne_true
    rw [countP_append, hzero]
    exact h.alone

theorem Sound.step {cap : Nat} {a : DeliveryAction} (h : Sound who s s.todos)
    (hok : OkDelivery who s a) (hstep : stepDeliveries cap s a = some s') :
    Sound who s' s'.todos := by
  cases a with
  | register subId r =>
    simp only [stepDeliveries] at hstep
    split at hstep
    · cases hstep
    rename_i hnew
    cases hstep
    exact (h.register (not_isSome_iff_eq_none.mp hnew) hok).same rfl rfl rfl rfl rfl
  | unregister subId =>
    cases hstep
    exact h.same rfl rfl rfl rfl rfl
  | emit lane ds =>
    simp only [stepDeliveries] at hstep
    split at hstep
    · rename_i hlane
      cases hstep
      obtain ⟨hidle, hone, hnext⟩ := hok
      obtain ⟨others, hold, hnew⟩ := goOn_todos hlane
      have hall : ∀ x ∈ s.todos, x.owned who s = false := by
        intro x hx
        obtain ⟨c, hc, hmem⟩ := mem_flatten.mp hx
        exact hidle c hc x hmem
      have hsound := (h.perm hold.symm).emit (fun x hx => hall x (hold.mem_iff.mpr hx)) hone hnext
      exact (hsound.perm (hnew s rfl _)).same rfl rfl rfl rfl rfl
    · cases hstep
  | flush subId order =>
    simp only [stepDeliveries] at hstep
    split at hstep
    · rename_i r hr
      obtain ⟨-, rfl⟩ := of_guard hstep
      have hsound := @Sound.flush who s s.todos subId ((s.conflators subId).drain order) h
      refine Sound.same (hsound.perm ?_) rfl rfl rfl rfl rfl
      rw [todos, flatten_append, flatten_singleton]
      exact Perm.refl _
    · cases hstep
  | run thread fits =>
    simp only [stepDeliveries] at hstep
    split at hstep
    · rename_i x rest hthread
      obtain ⟨others, hold, hnew⟩ := goOn_todos hthread
      have hx : OkTodo who s fits x := by
        refine hok x ?_
        rw [getD_eq_getElem?_getD, hthread]
        rfl
      refine Sound.runTodo (h.perm hold.symm) ?_ hx hstep
      intro t ht ys
      refine (hnew t ht (ys ++ rest)).trans ?_
      rw [append_assoc]
      exact Perm.refl _
    · cases hstep
  | drain subId fits =>
    obtain ⟨r, hr, hrun⟩ := bind_eq_some_iff.mp hstep
    rw [todos, runDrain_threads hrun]
    exact h.runDrain hr (hok r hr) hrun
  | take session =>
    obtain ⟨-, rfl⟩ := of_guard hstep
    exact h.same rfl rfl rfl rfl rfl
  | other session =>
    simp only [stepDeliveries] at hstep
    split at hstep
    · cases hstep
      exact h.same rfl rfl rfl rfl rfl
    · cases hstep
  | close session =>
    cases hstep
    exact h.same rfl rfl rfl rfl rfl

theorem Sound.init (who : String × String) (lanes cap : Nat) :
    Sound who (.init lanes cap) (Deliveries.init lanes cap).todos := by
  have hnone : (Deliveries.init lanes cap).todos = [] := by
    refine flatten_eq_nil_iff.mpr fun c hc => ?_
    exact (mem_replicate.mp hc).2
  rw [hnone]
  exact ⟨nofun, nofun, Nat.zero_le _, nofun, nofun, nofun, nofun⟩

/-- **MOST_RECENT.** In every run whose steps meet the condition for a client and a topic, every
delta emitted for one of its subscriptions on the topic, up to its bookmark, is in its channel. -/
theorem bookmark_sound {lanes cap : Nat} {as : List DeliveryAction}
    (hrun : Run (stepDeliveries cap) (OkDelivery who) (.init lanes cap) as s) {b : Nat}
    (hlookup : lookupBookmark s.bookmarks who = some b) :
    ∀ d ∈ s.emitted, s.owns who d.subscriptionId = true → d.sequence ≤ b → d ∈ s.placed := by
  have hsound : Sound who s s.todos :=
    hrun.invariant (P := fun s => Sound who s s.todos) (fun _ _ _ h hok hstep => h.step hok hstep)
      (.init who lanes cap)
  exact (hsound.bookmark b hlookup).1

/-! ## Two subscriptions of one client -/

instance (who : String × String) (s : Deliveries) : Decidable (NoBacklog who s) :=
  inferInstanceAs (Decidable (∀ e ∈ s.routes, _ → _))

instance (who : String × String) (s : Deliveries) (fits : Bool) : ∀ x : Todo,
    Decidable (OkTodo who s fits x)
  | .deliver _ => inferInstanceAs (Decidable (_ → _ ∧ (_ → NoBacklog who s)))
  | .send d => inferInstanceAs (Decidable (∀ r ∈ s.routeOf d.subscriptionId, _ → _))
  | .spill d => inferInstanceAs (Decidable (∀ r ∈ s.routeOf d.subscriptionId, _ → _ ∧ _))
  | .count _ | .flush _ _ | .record _ _ => .isTrue trivial

instance (s : Deliveries) (r : ClientRoute) (fits : Bool) : ∀ x : Drainer, Decidable (OkDrain s r fits x)
  | .send _ => inferInstanceAs (Decidable (_ = false))
  | .respool _ => inferInstanceAs (Decidable (fits = true))
  | .idle | .uncount _ | .recount | .stopped => .isTrue trivial

instance (who : String × String) (s : Deliveries) : ∀ a : DeliveryAction, Decidable (OkDelivery who s a)
  | .register _ _ => inferInstanceAs (Decidable (_ → _ ∧ ∀ d ∈ s.emitted, _ ≠ _))
  | .emit _ ds => inferInstanceAs (Decidable ((∀ c ∈ s.threads, ∀ x ∈ c, _) ∧
      ds.Pairwise (fun _ _ => ¬ (_ ∧ _)) ∧ ∀ d ∈ ds, _ → ∀ e ∈ s.emitted, _ → _))
  | .run thread fits =>
    inferInstanceAs (Decidable (∀ x ∈ (s.threads.getD thread []).head?, OkTodo who s fits x))
  | .drain subId fits => inferInstanceAs (Decidable (∀ r ∈ s.routeOf subId, _ → OkDrain s r fits _))
  | .unregister _ | .flush _ _ | .take _ | .other _ | .close _ => .isTrue trivial

def desk : String × String := ("desk", "/trades")

def deskRoute (spillover : Bool) : ClientRoute := ⟨"sess-1", "/trades", some "desk", spillover, false⟩

def deskDelta (subId : String) (sequence : Nat) : Delta := ⟨subId, .update, 0, sequence, []⟩

/-- Two subscriptions with spill files, and room for one frame: the first delta is sent, the second
spilled and drained, the third, of the other subscription, sent. -/
def spilledAndSent : List DeliveryAction :=
  [.register "a" (deskRoute true), .register "b" (deskRoute true),
    .emit 0 [deskDelta "a" 1], .run 0 true, .run 0 true, .run 0 true,
    .emit 0 [deskDelta "a" 2], .run 0 true, .run 0 true, .run 0 true, .run 0 true,
    .take "sess-1", .drain "a" true, .drain "a" true, .drain "a" true,
    .take "sess-1", .emit 0 [deskDelta "b" 3], .run 0 true, .run 0 true, .run 0 true]

theorem bookmark_sound_spilledAndSent : ∃ s,
    Run (stepDeliveries 1) (OkDelivery desk) (.init 1 1) spilledAndSent s ∧
      lookupBookmark s.bookmarks desk = some 3 ∧ s.emitted.map Delta.sequence = [1, 2, 3] ∧
      ∀ d ∈ s.emitted, s.owns desk d.subscriptionId = true → d.sequence ≤ 3 → d ∈ s.placed := by
  refine Run.exists_of_check_with (fun s a => decide (OkDelivery desk s a))
    (fun _ _ => of_decide_eq_true)
    (fun s => lookupBookmark s.bookmarks desk = some 3 ∧ s.emitted.map Delta.sequence = [1, 2, 3])
    (by decide +kernel) fun s hrun ⟨hlookup, hemitted⟩ => ?_
  exact ⟨hlookup, hemitted, bookmark_sound hrun hlookup⟩

/-- One subscription without a spill file: the first delta finds the channel full, the second one
does not. -/
def droppedThenSent : List DeliveryAction :=
  [.register "a" (deskRoute false), .other "sess-1",
    .emit 0 [deskDelta "a" 1], .run 0 true, .run 0 true, .run 0 true,
    .take "sess-1", .emit 0 [deskDelta "a" 2], .run 0 true, .run 0 true, .run 0 true]

/-- The bookmark is 2, and the delta with sequence 1 was dropped. -/
theorem bookmark_past_dropped : ∃ s,
    Run (stepDeliveries 1) (fun _ _ => True) (.init 1 1) droppedThenSent s ∧
      lookupBookmark s.bookmarks desk = some 2 ∧
      ∃ d ∈ s.emitted, s.owns desk d.subscriptionId = true ∧ d.sequence ≤ 2 ∧ d ∉ s.placed := by
  refine Run.exists_of_check
    (fun s => lookupBookmark s.bookmarks desk = some 2 ∧ s.placed.map Delta.sequence = [2] ∧
      ∃ d ∈ s.emitted, s.owns desk d.subscriptionId = true ∧ d.sequence = 1)
    (by decide +kernel) fun s hrun ⟨hlookup, hplaced, d, hd, hown, hseq⟩ => ?_
  refine ⟨hlookup, d, hd, hown, by omega, fun hmem => ?_⟩
  have hsequence := mem_map_of_mem (f := Delta.sequence) hmem
  rw [hplaced, mem_singleton, hseq] at hsequence
  cases hsequence

end CqServer.Delivery
