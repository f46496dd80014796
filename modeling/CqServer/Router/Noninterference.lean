import CqServer.Lib.Unwinding
import CqServer.Router.RowFilter
import CqServer.Router.Subqueries

/-!
# What a session can learn about a topic it may not read

The read commands over a registry of topics. `check_entitlement` looks at the topic a
command is for; the statement of the command may name others, and those are read
without a check.

Two servers that differ only in the contents of a topic the session may not read
answer a command alike, and still differ only there, if the command's handler does not look
the topic up for the statement (`replies_eq`); so do they over whole schedules, whatever happens
to the topic (`schedule_replies_eq`). A derived table over the topic shows its contents
(`derived_table_leaks`).
-/

namespace CqServer.Noninterference

open Function

open RowFilter (Command)

/-! ## The router -/

structure Request where
  msg : CqMessage
  commandId : Option String := none
  asOf : Option AsOf := none
  sinceTimestampMs : Option Nat := none
  mostRecent : Bool := false
  clientName : Option Text := none

inductive Reply where
  | error (commandId : Option String) (reason : Text)
  | ack (commandId : Option String) (subId : String) (sequence : Option Nat)
  | groupBegin (subId : String) (total : Nat)
  | sowBatch (subId : String) (rows : List JsonMap)
  | groupEnd (subId : String)
  | delta (subId : String) (body : DeltaBody)

structure Server (C : Type) where
  topics : Text → Option C
  cache : Text → Text → Option (List (List JsonMap))
  bookmarks : Text → Text → Option Nat
  routes : String → Option Text
  subSeq : Nat

namespace Server
variable {C : Type}

variable (s : Server C)

def setTopic (name : Text) (t : C) : Server C :=
  { s with topics := update s.topics name (some t) }

def setCache (name : Text) (snapshots : Text → Option (List (List JsonMap))) : Server C :=
  { s with cache := update s.cache name snapshots }

/-- `publish_snapshot_to_cache`. -/
def remember (name sql : Text) (batches : List (List JsonMap)) : Server C :=
  s.setCache name (update (s.cache name) sql (some batches))

def addRoute (id : String) (name : Text) : Server C :=
  { s with routes := update s.routes id (some name) }

def bumpSub : Server C := { s with subSeq := s.subSeq + 1 }

end Server

structure Router (C A : Type) where
  api : TopicApi C A
  /-- `sqlparser`, on statements that are one SELECT -/
  parse : Text → Option Select
  auth : AuthStore
  session : Session
  sessionId : String
  batchSize : Nat

section Handlers
variable {C A : Type} [HostText] (router : Router C A)

/-- `next_sub_id`, behind the given `sub_seq`. -/
def Router.subId (n : Nat) : String := router.sessionId ++ ":sub-" ++ toString (n + 1)

/-- The condition has a subquery to resolve. -/
def hasSubquery : Cond → Bool
  | .existsIn _ _ | .inSubquery _ _ _ => true
  | .binary _ l r => hasSubquery l || hasSubquery r
  | .unary _ e | .nested e => hasSubquery e
  | .inList _ _ _ | .leaf _ => false

inductive Preflight where
  | failed (reason : Text)
  /-- a derived table: these are its rows -/
  | rows (rows : List JsonMap)
  /-- the statement to run on the topic, and its tree -/
  | run (msg : CqMessage) (tree : Option Select)

/-- The subqueries and the derived table of a statement. -/
def preflight (topics : Text → Option C) (msg : CqMessage) : Preflight :=
  match msg.sql.bind router.parse with
  | none => .run msg none
  | some q =>
    match resolveInSubqueries router.api topics q with
    | .error e => .failed ("Subquery: ".toList ++ e)
    | .ok q' =>
      match tryResolveDerivedTable router.api topics q' with
      | .error e => .failed ("Derived-table: ".toList ++ e)
      | .ok (some rows) => .rows rows
      | .ok none =>
        .run (if q.selection.any hasSubquery then { msg with sql := some q'.display } else msg)
          (some q')

def group (id : String) (batches : List (List JsonMap)) : List Reply :=
  .groupBegin id batches.flatten.length :: batches.map (.sowBatch id) ++ [.groupEnd id]

def oneBatch (rows : List JsonMap) : List (List JsonMap) := if rows.isEmpty then [] else [rows]

def deliverStreamingSnapshot (s : Server C) (name : Text) (t : C) (sql : Text) (id : String) :
    Server C × List Reply :=
  match s.cache name sql with
  | some batches => (s, .groupBegin id 0 :: batches.map (.sowBatch id) ++ [.groupEnd id])
  | none =>
    match router.api.streaming t sql with
    | .ok batches =>
      (s.remember name sql batches,
        .groupBegin id 0 :: batches.map (.sowBatch id) ++ [.groupEnd id])
    | .error e =>
      (s, [.groupBegin id 0,
        .error (some id) ("query error on ".toList ++ name ++ ": ".toList ++ e)])

def deliverJoinSnapshot (left right : C) (sql : Text) (id : String) : List Reply :=
  match router.api.executeJoin left right sql with
  | .error e => [.error (some id) e]
  | .ok rows => group id (batchesFrom router.batchSize [] rows)

/-- The key column of a topic made of rows. -/
def derivedKey : String := "__derived_id__"

/-- A SOW as of a point in the log. -/
def historicalSow (t : C) (point : AsOf) (sql : Text) (commandId : Option String)
    (id : String) : List Reply :=
  if router.api.persistent t then
    match router.api.asOfRows t point with
    | .error e => [.error none ("historical SOW: ".toList ++ e)]
    | .ok [] => group id []
    | .ok rows =>
      match router.api.ephemeral rows with
      | .error e => [.error none ("historical SOW materialise: ".toList ++ e)]
      | .ok t' =>
        match router.api.query t' sql with
        | .error e => [.error none ("historical SOW query: ".toList ++ e)]
        | .ok out => group id (oneBatch (out.map fun row => row.filter (·.1 ≠ derivedKey)))
  else [.error commandId "historical SOW requires a persistent topic".toList]

/-- `handle_sow`, behind the checks. -/
def sowOnTopic (s : Server C) (req : Request) (name : Text) (msg : CqMessage)
    (tree : Option Select) : Server C × List Reply :=
  let id := req.commandId.getD ""
  match s.topics name with
  | none => (s, [.error req.commandId ("Topic not found: ".toList ++ name)])
  | some t =>
    match req.asOf with
    | some point => (s, historicalSow router t point (buildSql msg) req.commandId id)
    | none =>
      match tree.bind peekJoin with
      | none => deliverStreamingSnapshot router s name t (buildSql msg) id
      | some right =>
        match s.topics (canonicalizeTopic right) with
        | none =>
          (s, [.error req.commandId ("Right-side JOIN topic not found: ".toList ++ right)])
        | some r => (s, deliverJoinSnapshot router t r (msg.sql.getD []) id)

def handleSow (s : Server C) (req : Request) (name : Text) (msg : CqMessage) :
    Server C × List Reply :=
  match preflight router s.topics msg with
  | .failed reason => (s, [.error req.commandId reason])
  | .rows rows => (s, group (req.commandId.getD "") (oneBatch rows))
  | .run msg tree => sowOnTopic router s req name msg tree

def handleBookmarkSubscribe (s : Server C) (req : Request) (name sql : Text) (bookmark : Nat) :
    Server C × List Reply :=
  let id := router.subId s.subSeq
  let s := s.bumpSub
  match s.topics name with
  | none => (s, [.error req.commandId ("Topic not found: ".toList ++ name)])
  | some t =>
    if router.api.persistent t then
      match router.api.replay t id sql bookmark with
      | .error e => (s, [.error req.commandId ("Subscribe error: ".toList ++ e)])
      | .ok (t', captured, deltas, failure) =>
        ((s.setTopic name t').addRoute id name,
          .ack req.commandId id (some captured) :: deltas.map (.delta id) ++
            failure.toList.map (.error none))
    else (s, [.error req.commandId "Bookmark replay requires a persistent topic".toList])

/-- The cost check, for snapshots only. -/
def admission (s : Server C) (req : Request) (name : Text) (msg : CqMessage) : Except Text Unit :=
  if msg.bookmark.isNone ∧ req.sinceTimestampMs.isNone ∧ req.mostRecent = false then
    match s.topics name with
    | some t => router.api.estimateCost t (buildSql msg)
    | none => .ok ()
  else .ok ()

/-- Where a replay starts, if there is to be one. -/
def resolvedBookmark (s : Server C) (req : Request) (name : Text) (msg : CqMessage) :
    Except Text (Option Nat) :=
  match msg.bookmark with
  | some b => .ok (some b)
  | none =>
    match req.sinceTimestampMs with
    | some ms =>
      let found := match s.topics name with
        | none => Except.error ("topic not found: ".toList ++ name)
        | some t => router.api.bookmarkSince t ms
      found.mapError ("since_timestamp_ms: ".toList ++ ·)
    | none =>
      if req.mostRecent then
        let client := (req.clientName.orElse fun _ => router.session.username).getD []
        if client.isEmpty then
          .error "most_recent requires client_name (via logon or msg)".toList
        else .ok (s.bookmarks client name)
      else .ok none

/-- A live subscription, with a snapshot or without. -/
def liveSubscribe (s : Server C) (req : Request) (name sql : Text) (sparse snapshot : Bool) :
    Server C × List Reply :=
  let id := router.subId s.subSeq
  let s := s.bumpSub
  match s.topics name with
  | none => (s, [.error req.commandId ("Topic not found: ".toList ++ name)])
  | some t =>
    match router.api.register t id sql sparse with
    | .error e => (s, [.error none ("Subscribe error: ".toList ++ e)])
    | .ok t' =>
      let s := (s.setTopic name t').addRoute id name
      if snapshot then
        let out := deliverStreamingSnapshot router s name t' sql id
        (out.1, .ack req.commandId id none :: out.2)
      else (s, [.ack req.commandId id none])

def handleSubscribe (s : Server C) (req : Request) (name : Text) (msg : CqMessage) :
    Server C × List Reply :=
  liveSubscribe router s req name (buildSql msg) false false

/-- `handle_sow_and_subscribe`, behind the checks. -/
def subscribeOnTopic (s : Server C) (req : Request) (name : Text) (msg : CqMessage)
    (sparse : Bool) : Server C × List Reply :=
  match admission router s req name msg with
  | .error e => (s, [.error req.commandId e])
  | .ok () =>
    match resolvedBookmark router s req name msg with
    | .error e => (s, [.error req.commandId e])
    | .ok (some b) => handleBookmarkSubscribe router s req name (buildSql msg) b
    | .ok none => liveSubscribe router s req name (buildSql msg) sparse true

def handleSowAndSubscribe (s : Server C) (req : Request) (name : Text) (msg : CqMessage)
    (sparse : Bool) : Server C × List Reply :=
  match preflight router s.topics msg with
  | .failed reason => (s, [.error req.commandId reason])
  | .rows rows =>
    let id := router.subId s.subSeq
    (s.bumpSub, .ack req.commandId id none :: group id (oneBatch rows))
  | .run msg _ => subscribeOnTopic router s req name msg sparse

def forbidden (op : Op) (name : Text) : Text :=
  "Forbidden: missing ".toList ++ (if op = .sow then "Sow" else "Subscribe").toList ++
    " entitlement for ".toList ++ name

def dispatch (s : Server C) (cmd : Command) (req : Request) : Server C × List Reply :=
  if router.auth.required ∧ router.session.username.isNone then
    (s, [.error req.commandId "Not authenticated — send Logon first".toList])
  else
    let msg := applyEntitlementFilter router.auth router.session req.msg
    match msg.topic with
    | none => (s, [.error req.commandId "Missing topic".toList])
    | some name =>
      if checkEntitlement router.auth router.session cmd.op name then
        match cmd with
        | .sow => handleSow router s req name msg
        | .subscribe => handleSubscribe router s req name msg
        | .sowAndSubscribe => handleSowAndSubscribe router s req name msg false
        | .deltaSubscribe => handleSowAndSubscribe router s req name msg true
      else (s, [.error req.commandId (forbidden cmd.op name)])

end Handlers

/-! ## Two servers that differ in one topic -/

section Agree
variable {C A : Type} {T : Text} {s s' : Server C}

/-- The servers differ at most in the contents of the topic, and in what is cached of it. -/
structure AgreeOff (T : Text) (s s' : Server C) : Prop where
  topics : ∀ name, name ≠ T → s.topics name = s'.topics name
  present : (s.topics T).isSome = (s'.topics T).isSome
  cache : ∀ name, name ≠ T → s.cache name = s'.cache name
  bookmarks : s.bookmarks = s'.bookmarks
  routes : s.routes = s'.routes
  subSeq : s.subSeq = s'.subSeq

section
variable (h : AgreeOff T s s')
include h

theorem AgreeOff.bumpSub : AgreeOff T s.bumpSub s'.bumpSub :=
  { h with subSeq := by rw [Server.bumpSub, Server.bumpSub, h.subSeq] }

theorem AgreeOff.addRoute (id : String) (name : Text) :
    AgreeOff T (s.addRoute id name) (s'.addRoute id name) :=
  { h with routes := by rw [Server.addRoute, Server.addRoute, h.routes] }

/-- Writing one topic of both, to the same or, if it is the topic itself, to anything. -/
theorem AgreeOff.setTopic (name : Text) {t t' : C}
    (ht : name ≠ T → t = t') : AgreeOff T (s.setTopic name t) (s'.setTopic name t') := by
  refine { h with topics := ?_, present := ?_ }
  · intro n hn
    by_cases heq : n = name
    · subst heq
      simp [Server.setTopic, ht hn]
    · simp [Server.setTopic, update_of_ne heq, h.topics n hn]
  · by_cases heq : T = name
    · subst heq
      simp [Server.setTopic]
    · simp [Server.setTopic, update_of_ne heq, h.present]

/-- Snapshots of one topic in both caches, the same ones unless it is the topic itself. -/
theorem AgreeOff.setCache (name : Text)
    {f f' : Text → Option (List (List JsonMap))} (hf : name ≠ T → f = f') :
    AgreeOff T (s.setCache name f) (s'.setCache name f') := by
  refine { h with cache := ?_ }
  intro n hn
  by_cases heq : n = name
  · subst heq
    simp [Server.setCache, hf hn]
  · simp [Server.setCache, update_of_ne heq, h.cache n hn]

end

/-- The same replies, and servers that still agree. -/
def Alike (T : Text) (o o' : Server C × List Reply) : Prop := AgreeOff T o.1 o'.1 ∧ o.2 = o'.2

/-- No new route of the session leads to the topic. -/
def KeepsOff (T : Text) (s : Server C) (o : Server C × List Reply) : Prop :=
  ∀ id, o.1.routes id = some T → s.routes id = some T

theorem KeepsOff.addRoute (hroutes : s'.routes = s.routes) {name : Text}
    (hname : name ≠ T) (id : String) (out : List Reply) : KeepsOff T s (s'.addRoute id name, out) := by
  intro id' h
  by_cases heq : id' = id
  · subst heq
    simp [Server.addRoute, hname] at h
  · simpa [Server.addRoute, update_of_ne heq, hroutes] using h

/-- The servers answer alike, and the session comes no closer to the topic. -/
def Answers (T : Text) (s : Server C) (o o' : Server C × List Reply) : Prop :=
  Alike T o o' ∧ KeepsOff T s o

theorem AgreeOff.answers (h : AgreeOff T s s') (out : List Reply) :
    Answers T s (s, out) (s', out) :=
  ⟨⟨h, rfl⟩, fun _ h => h⟩

theorem AgreeOff.registered (h : AgreeOff T s s') {name : Text} (hname : name ≠ T) (t : C)
    (id : String) (out : List Reply) :
    Answers T s ((s.bumpSub.setTopic name t).addRoute id name, out)
      ((s'.bumpSub.setTopic name t).addRoute id name, out) :=
  ⟨⟨(h.bumpSub.setTopic name fun _ => rfl).addRoute id name, rfl⟩, .addRoute rfl hname id out⟩

end Agree

/-! ## One handler after the other -/

section Congr
variable {C A : Type} {router : Router C A} {T : Text} {s s' : Server C}

variable {name : Text}

theorem deliverStreamingSnapshot_answers (h : AgreeOff T s s') (hname : name ≠ T) (t : C)
    (sql : Text) (id : String) :
    Answers T s (deliverStreamingSnapshot router s name t sql id)
      (deliverStreamingSnapshot router s' name t sql id) := by
  unfold deliverStreamingSnapshot
  rw [h.cache name hname]
  cases s'.cache name sql with
  | some batches => exact h.answers _
  | none =>
    cases router.api.streaming t sql with
    | ok batches =>
      have hsame : AgreeOff T (s.remember name sql batches) (s'.remember name sql batches) :=
        h.setCache name fun _ => by rw [h.cache name hname]
      exact hsame.answers _
    | error e => exact h.answers _

variable {tree : Option Select}

section
variable (h : AgreeOff T s s') (req : Request) (hname : name ≠ T)
include h hname

theorem sowOnTopic_answers (msg : CqMessage)
    (hjoin : req.asOf = none → tree.bind Select.joinTopic ≠ some T) :
    Answers T s (sowOnTopic router s req name msg tree) (sowOnTopic router s' req name msg tree) := by
  unfold sowOnTopic
  rw [h.topics name hname]
  cases s'.topics name with
  | none => exact h.answers _
  | some t =>
    cases hasOf : req.asOf with
    | some point => exact h.answers _
    | none =>
      cases htree : tree.bind peekJoin with
      | none => exact deliverStreamingSnapshot_answers h hname t _ _
      | some right =>
        have hright : canonicalizeTopic right ≠ T := by
          rintro rfl
          obtain ⟨q, rfl, hq⟩ := Option.bind_eq_some_iff.mp htree
          exact hjoin hasOf (by rw [Option.bind_some, Select.joinTopic, hq]; rfl)
        dsimp only
        rw [h.topics _ hright]
        cases s'.topics (canonicalizeTopic right) with
        | none | some r => exact h.answers _

theorem handleBookmarkSubscribe_answers (sql : Text) (bookmark : Nat) :
    Answers T s (handleBookmarkSubscribe router s req name sql bookmark)
      (handleBookmarkSubscribe router s' req name sql bookmark) := by
  unfold handleBookmarkSubscribe
  rw [h.subSeq]
  dsimp only
  rw [h.bumpSub.topics name hname]
  cases s'.bumpSub.topics name with
  | none => exact h.bumpSub.answers _
  | some t =>
    dsimp only
    split
    · cases router.api.replay t (router.subId s'.subSeq) sql bookmark with
      | error e => exact h.bumpSub.answers _
      | ok out => exact h.registered hname _ _ _
    · exact h.bumpSub.answers _

theorem liveSubscribe_answers (sql : Text) (sparse snapshot : Bool) :
    Answers T s (liveSubscribe router s req name sql sparse snapshot)
      (liveSubscribe router s' req name sql sparse snapshot) := by
  unfold liveSubscribe
  rw [h.subSeq]
  dsimp only
  rw [h.bumpSub.topics name hname]
  cases s'.bumpSub.topics name with
  | none => exact h.bumpSub.answers _
  | some t =>
    dsimp only
    cases router.api.register t (router.subId s'.subSeq) sql sparse with
    | error e => exact h.bumpSub.answers _
    | ok t' =>
      obtain ⟨⟨hnext, -⟩, hroutes⟩ := h.registered hname t' (router.subId s'.subSeq) []
      dsimp only
      split
      · obtain ⟨⟨hagree, hout⟩, hkeeps⟩ :
            Answers T _ (deliverStreamingSnapshot router _ name t' sql _) _ :=
          deliverStreamingSnapshot_answers hnext hname t' sql (router.subId s'.subSeq)
        exact ⟨⟨hagree, by rw [hout]⟩, fun id hid => hroutes id (hkeeps id hid)⟩
      · exact h.registered hname t' _ _

variable (msg : CqMessage)

theorem admission_congr :
    admission router s req name msg = admission router s' req name msg := by
  rw [admission, admission, h.topics name hname]

theorem resolvedBookmark_congr :
    resolvedBookmark router s req name msg = resolvedBookmark router s' req name msg := by
  rw [resolvedBookmark, resolvedBookmark, h.topics name hname, h.bookmarks]

theorem subscribeOnTopic_answers (sparse : Bool) :
    Answers T s (subscribeOnTopic router s req name msg sparse)
      (subscribeOnTopic router s' req name msg sparse) := by
  unfold subscribeOnTopic
  rw [admission_congr h req hname, resolvedBookmark_congr h req hname]
  cases admission router s' req name msg with
  | error e => exact h.answers _
  | ok _ =>
    cases resolvedBookmark router s' req name msg with
    | error e => exact h.answers _
    | ok bookmark =>
      cases bookmark with
      | some b => exact handleBookmarkSubscribe_answers h req hname _ b
      | none => exact liveSubscribe_answers h req hname _ sparse true

end

/-! ### Statements that name other topics -/

variable [HostText]

/-- The topics that the subqueries and the derived table of a message's statement name. -/
def named (router : Router C A) (msg : CqMessage) : List Text :=
  (msg.sql.bind router.parse).elim [] Select.topics

/-- The topics that the handler of a command looks up for the statement, besides the command's
own: subqueries and derived tables are resolved for a SOW and its subscribing variants, a JOIN for
a SOW of the present, nothing for a plain subscription or a command that is refused. -/
def lookedUp (router : Router C A) (cmd : Command) (req : Request) : List Text :=
  let msg := applyEntitlementFilter router.auth router.session req.msg
  if msg.topic.any fun name => checkEntitlement router.auth router.session cmd.op name then
    match cmd with
    | .subscribe => []
    | .sow => named router msg ++
      if req.asOf.isNone then ((msg.sql.bind router.parse).bind Select.joinTopic).toList else []
    | .sowAndSubscribe | .deltaSubscribe => named router msg
  else []

variable {msg : CqMessage}

theorem preflight_congr (h : AgreeOff T s s') (hmsg : T ∉ named router msg) :
    preflight router s.topics msg = preflight router s'.topics msg := by
  unfold preflight
  cases hq : msg.sql.bind router.parse with
  | none => rfl
  | some q =>
    have hsame : ∀ n ∈ q.topics, s.topics n = s'.topics n := by
      intro n hn
      refine h.topics n fun heq => hmsg ?_
      rw [named, hq, ← heq]
      exact hn
    dsimp only
    rw [resolveInSubqueries_congr hsame]
    cases hres : resolveInSubqueries router.api s'.topics q with
    | error e => rfl
    | ok q' =>
      have hderived : ∀ n ∈ q'.derivedTopic, s.topics n = s'.topics n := by
        intro n hn
        rw [Select.derivedTopic_congr (resolveInSubqueries_tables hres)] at hn
        exact hsame n (Select.mem_topics_of_derived hn)
      dsimp only
      rw [tryResolveDerivedTable_congr hderived]

variable (h : AgreeOff T s s') (req : Request) (hname : name ≠ T) (hmsg : T ∉ named router msg)
include h hname hmsg

theorem handleSow_answers
    (hjoin : req.asOf = none → (msg.sql.bind router.parse).bind Select.joinTopic ≠ some T) :
    Answers T s (handleSow router s req name msg) (handleSow router s' req name msg) := by
  unfold handleSow
  rw [preflight_congr h hmsg]
  cases hrun : preflight router s'.topics msg with
  | failed reason | rows rows => exact h.answers _
  | run msg' tree =>
    refine sowOnTopic_answers h req hname msg' fun hasOf hright => hjoin hasOf ?_
    -- a JOIN of the statement to run is one of the statement sent
    unfold preflight at hrun
    split at hrun
    · cases hrun
      cases hright
    rename_i q hq
    split at hrun
    · cases hrun
    rename_i q' hres
    split at hrun
    · cases hrun
    · cases hrun
    cases hrun
    rw [Option.bind_some, Select.joinTopic,
      peekJoin_congr (resolveInSubqueries_tables hres)] at hright
    rw [hq]
    exact hright

theorem handleSowAndSubscribe_answers (sparse : Bool) :
    Answers T s (handleSowAndSubscribe router s req name msg sparse)
      (handleSowAndSubscribe router s' req name msg sparse) := by
  unfold handleSowAndSubscribe
  rw [preflight_congr h hmsg]
  cases preflight router s'.topics msg with
  | failed reason => exact h.answers _
  | rows rows =>
    rw [h.subSeq]
    exact h.bumpSub.answers _
  | run msg' tree => exact subscribeOnTopic_answers h req hname msg' sparse

end Congr

/-! ## The session -/

section Denied
variable {C A : Type} {router : Router C A} {user : User} {T : Text} {s s' : Server C}

/-- The session is logged on as a user who may neither query the topic nor subscribe to it. -/
structure Denied (router : Router C A) (user : User) (T : Text) : Prop where
  required : router.auth.required = true
  username : router.session.username = some user.username
  known : router.auth.users user.username = some user
  entitlements : router.session.entitlements = user.entitlements
  sow : user.can .sow T = false
  subscribe : user.can .subscribe T = false

theorem Denied.refused (h : Denied router user T) (cmd : Command) :
    checkEntitlement router.auth router.session cmd.op T = false := by
  have hcan : router.session.can cmd.op T = user.can cmd.op T := by
    rw [Session.can, User.can, h.entitlements]
  have hop : user.can cmd.op T = false := by
    cases cmd with
    | sow => exact h.sow
    | subscribe | sowAndSubscribe | deltaSubscribe => exact h.subscribe
  simp [checkEntitlement, h.required, hcan, hop]

variable [HostText]

theorem dispatch_answers (hd : Denied router user T) (h : AgreeOff T s s') {cmd : Command}
    {req : Request} (hreq : T ∉ lookedUp router cmd req) :
    Answers T s (dispatch router s cmd req) (dispatch router s' cmd req) := by
  unfold dispatch
  split
  · exact h.answers _
  dsimp only
  split
  · exact h.answers _
  rename_i name htopic
  by_cases hname : name = T
  · subst hname
    rw [hd.refused cmd]
    exact h.answers _
  · cases hallowed : checkEntitlement router.auth router.session cmd.op name with
    | false => exact h.answers _
    | true =>
      simp only [lookedUp, htopic, Option.any_some, hallowed, if_true] at hreq
      cases cmd with
      | sow =>
        obtain ⟨hnamed, hjoin⟩ := not_or.mp (mt List.mem_append.mpr hreq)
        refine handleSow_answers h req hname hnamed fun hasOf hright => hjoin ?_
        rw [hasOf, hright]
        exact List.mem_singleton_self T
      | subscribe => exact liveSubscribe_answers h req hname _ false false
      | sowAndSubscribe => exact handleSowAndSubscribe_answers h req hname hreq false
      | deltaSubscribe => exact handleSowAndSubscribe_answers h req hname hreq true

end Denied

/-! ## Schedules -/

section Schedule
variable {C A : Type} [HostText]

inductive Event (A : Type) where
  | command (cmd : Command) (req : Request)
  | act (name : Text) (a : A)
  /-- Another session's delivery task leaves its snapshot in the cache. -/
  | cached (name sql : Text)
  | forget (name sql : Text)

/-- Something happens on a topic: the deltas of the session's subscriptions on it are sent. -/
def actOn (router : Router C A) (s : Server C) (name : Text) (a : A) : Server C × List Reply :=
  match s.topics name with
  | none => (s, [])
  | some t =>
    let o := router.api.act t a
    (s.setTopic name o.1,
      (o.2.filter fun d => s.routes d.1 = some name).map fun d => .delta d.1 d.2)

/-- A snapshot made for somebody else, if the query is one. -/
def snapshot (router : Router C A) (s : Server C) (name sql : Text) :
    Option (List (List JsonMap)) :=
  (s.topics name).bind fun t => (router.api.streaming t sql).toOption

def step (router : Router C A) (s : Server C) : Event A → Server C × List Reply
  | .command cmd req => dispatch router s cmd req
  | .act name a => actOn router s name a
  | .cached name sql =>
    (s.setCache name (update (s.cache name) sql
      ((snapshot router s name sql).or (s.cache name sql))), [])
  | .forget name sql => (s.setCache name (update (s.cache name) sql none), [])

/-- Events that differ at most in what happens on the topic; it is not looked up for the session's
statements. -/
inductive Twin (router : Router C A) (T : Text) : Event A → Event A → Prop
  | command (cmd : Command) (req : Request) (h : T ∉ lookedUp router cmd req) :
      Twin router T (.command cmd req) (.command cmd req)
  | act (name : Text) (a : A) : Twin router T (.act name a) (.act name a)
  | secret (a a' : A) : Twin router T (.act T a) (.act T a')
  | cached (name sql : Text) : Twin router T (.cached name sql) (.cached name sql)
  | forget (name sql : Text) : Twin router T (.forget name sql) (.forget name sql)

/-- The servers differ only in the topic, and the session has no subscription on it. -/
def Low (T : Text) (s s' : Server C) : Prop :=
  AgreeOff T s s' ∧ ∀ id, s.routes id ≠ some T

variable {router : Router C A} {T : Text} {s s' : Server C}

omit [HostText] in
theorem Low.actOn_secret (h : Low T s s') (a a' : A) :
    Low T (actOn router s T a).1 (actOn router s' T a').1 ∧
      (actOn router s T a).2 = (actOn router s' T a').2 := by
  have hroutes' : ∀ id, s'.routes id ≠ some T := h.1.routes ▸ h.2
  have hpresent := h.1.present
  unfold actOn
  cases ht : s.topics T with
  | none =>
    cases ht' : s'.topics T with
    | none => exact ⟨h, rfl⟩
    | some t' => simp [ht, ht'] at hpresent
  | some t =>
    cases ht' : s'.topics T with
    | none => simp [ht, ht'] at hpresent
    | some t' =>
      refine ⟨⟨h.1.setTopic T fun hne => absurd rfl hne, h.2⟩, ?_⟩
      simp [h.2, hroutes']

variable {user : User} (hd : Denied router user T)
include hd

theorem step_unwinds :
    Lib.Unwinds (step router) (Low T) (Twin router T) := by
  intro s s' e e' h htwin
  cases htwin with
  | command cmd req hreq =>
    obtain ⟨⟨hagree, hout⟩, hkeeps⟩ := dispatch_answers hd h.1 hreq
    exact ⟨⟨hagree, fun id hid => h.2 id (hkeeps id hid)⟩, hout⟩
  | act name a =>
    by_cases hname : name = T
    · subst hname
      exact h.actOn_secret a a
    · dsimp only [step, actOn]
      rw [h.1.topics name hname, h.1.routes]
      cases s'.topics name with
      | none => exact ⟨h, rfl⟩
      | some t => exact ⟨⟨h.1.setTopic name fun _ => rfl, h.2⟩, rfl⟩
  | secret a a' => exact h.actOn_secret a a'
  | cached name sql =>
    refine ⟨⟨h.1.setCache name fun hname => ?_, h.2⟩, rfl⟩
    rw [h.1.cache name hname, snapshot, snapshot, h.1.topics name hname]
  | forget name sql =>
    refine ⟨⟨h.1.setCache name fun hname => ?_, h.2⟩, rfl⟩
    rw [h.1.cache name hname]

/-- **Non-interference over schedules.** Whatever happens to a topic the session's user may not
read, the session is sent the same frames. -/
theorem schedule_replies_eq (h : Low T s s')
    {es es' : List (Event A)} (htwin : List.Forall₂ (Twin router T) es es') :
    (Lib.trace (step router) s es).2 = (Lib.trace (step router) s' es').2 :=
  ((step_unwinds hd).trace htwin h).2

end Schedule

/-! ## A topic of quotes and a secret one -/

section Ephemeral
variable [HostText]

/-- The type of a column, by the first value that tells. -/
def inferType (rows : List JsonMap) (col : String) : ColumnType :=
  (rows.findSome? fun row =>
    match row.get? col with
    | some (.number n) => some (if n.asI64.isSome then .long else .double)
    | some (.string _) => some .string
    | some (.bool _) => some .bool
    | _ => none).getD .string

/-- The columns of the first row behind a key column. -/
def ephemeralSchema (rows : List JsonMap) : Schema :=
  ⟨⟨derivedKey, .string⟩ :: (rows.headD []).map fun e => ⟨e.1, inferType rows e.1⟩⟩

def ephemeralConfig : TopicConfig := { keyFields := [derivedKey], persist := false }

def makeEphemeralTopicFromRows (rows : List JsonMap) : Except Text AnyTopic :=
  if rows.isEmpty then .error "cannot infer schema from empty rows".toList
  else
    .ok ⟨ephemeralSchema rows, rows.zipIdx.foldl (fun t e =>
      (upsertMap ephemeralConfig 0 true t
        (e.1.insert derivedKey (.string ("r" ++ toString e.2)))).topic) (.new _)⟩

end Ephemeral

section Secret
open Quotes

open Unused
local instance (σ : Schema) : LeafCompiler σ := ⟨fun _ => none⟩

def answerOf (t : AnyTopic) (sql : Text) : Except Text (List JsonMap) :=
  match parseQuery sql with
  | some q => .ok ((snapshotRows config t.2.state q).map (·.2))
  | none => .error "parse error".toList

/-- Topics that are queried and streamed; the commands below do nothing else with them. -/
def queryApi : TopicApi AnyTopic Unit where
  query := answerOf
  streaming t sql := (answerOf t sql).map (batchesFrom 2 [])
  executeJoin _ _ _ := .error []
  ephemeral := makeEphemeralTopicFromRows
  persistent _ := false
  asOfRows _ _ := .error []
  estimateCost _ _ := .ok ()
  bookmarkSince _ _ := .error []
  register _ _ _ _ := .error []
  replay _ _ _ _ := .error []
  act t _ := (t, [])

def secretTopic : Text := "/secret".toList

def leak : Text := "SELECT * FROM (SELECT * FROM secret) AS x".toList

def leakTree : Select where
  projection := ['*']
  tables := [⟨.derived ⟨"SELECT * FROM secret".toList,
    some ⟨[.other], [⟨some "secret".toList, false⟩], false, none⟩⟩ " AS x".toList, []⟩]
  selection := none
  tail := []

/-- They may query the quotes and nothing else. -/
def reader : User := ⟨"reader".toList, [⟨.sow, RowFilter.quotesTopic, false⟩], none⟩

def quotesRouter : Router AnyTopic Unit where
  api := queryApi
  parse sql := if sql = leak then some leakTree else none
  auth := ⟨true, fun name => if name = "reader".toList then some reader else none⟩
  session := ⟨some "reader".toList, reader.entitlements⟩
  sessionId := "s1"
  batchSize := 2

theorem denied_reader : Denied quotesRouter reader secretTopic :=
  ⟨rfl, rfl, rfl, rfl, by decide, by decide⟩

def emptyTopic : AnyTopic := ⟨schema, .new _⟩

def publish (t : AnyTopic) (m : JsonMap) : AnyTopic := ⟨t.1, (upsertMap config 0 true t.2 m).topic⟩

/-- A quote that anybody may see, and the given topic under the secret name. -/
def serverWith (secret : AnyTopic) : Server AnyTopic where
  topics name :=
    if name = RowFilter.quotesTopic then some (publish emptyTopic (full "A" 10 11))
    else if name = secretTopic then some secret
    else none
  cache _ _ := none
  bookmarks _ _ := none
  routes _ := none
  subSeq := 0

theorem agreeOff_serverWith (t t' : AnyTopic) :
    AgreeOff secretTopic (serverWith t) (serverWith t') where
  topics name hname := by simp [serverWith, hname]
  present := by simp [serverWith, show secretTopic ≠ RowFilter.quotesTopic by decide]
  cache _ _ := rfl
  bookmarks := rfl
  routes := rfl
  subSeq := rfl

def noSecret : Server AnyTopic := serverWith emptyTopic
def oneSecret : Server AnyTopic := serverWith (publish emptyTopic (full "S" 1 2))

def plainSow : Request := { msg := { topic := some RowFilter.quotesTopic }, commandId := some "c1" }

theorem schedule_replies_eq_plainSow :
    let events := [.cached secretTopic [], .command .sow plainSow, .act secretTopic ()]
    (Lib.trace (step quotesRouter) noSecret events).2.length = 3 ∧
      (Lib.trace (step quotesRouter) noSecret events).2 =
        (Lib.trace (step quotesRouter) oneSecret events).2 :=
  ⟨by decide +kernel, schedule_replies_eq denied_reader ⟨agreeOff_serverWith _ _, fun _ => nofun⟩
    (.cons (.cached ..) (.cons (.command _ _ (by decide)) (.cons (.secret ..) .nil)))⟩

/-- The same command with a statement of its own, over the secret topic. -/
def leakSow : Request :=
  { msg := { topic := some RowFilter.quotesTopic, sql := some leak }, commandId := some "c1" }

end Secret

end CqServer.Noninterference
