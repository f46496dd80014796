import CqServer.Router.Entitlement
import CqServer.Topic.Write

/-!
# Statements that read other topics

A client's own statement may name topics besides the one its command is for: in
`EXISTS` and `IN` subqueries, in a derived table and in a JOIN. The router resolves
these itself, before or instead of running the statement on the command's topic, and
takes each topic from the registry by name.

`Select` has the parts of a statement the router looks at, the others are text. It turns a
rewritten tree back into text and reads it again later; here the tree is kept.

`Select.topics` are the names that the subqueries and the derived table of a statement have
looked up, and nothing else in the registry matters to them (`resolveInSubqueries_congr`,
`tryResolveDerivedTable_congr`).
-/

namespace CqServer

/-! ## Statements -/

inductive Item where
  | column (name : Text)
  | other
  deriving DecidableEq, Repr

structure SubTable where
  name : Option Text
  joined : Bool
  deriving DecidableEq, Repr

structure Subselect where
  projection : List Item
  tables : List SubTable
  grouped : Bool
  selection : Option Text
  deriving DecidableEq, Repr

structure Subquery where
  text : Text
  body : Option Subselect
  deriving DecidableEq, Repr

/-- The WHERE clause, as far as subqueries are looked for in it. -/
inductive Cond where
  | existsIn (negated : Bool) (sub : Subquery)
  | inSubquery (lhs : Text) (negated : Bool) (sub : Subquery)
  | inList (lhs : Text) (negated : Bool) (values : List Json)
  | binary (op : String) (l r : Cond)
  | unary (op : String) (e : Cond)
  | nested (e : Cond)
  | leaf (s : Text)

inductive Factor where
  | table (name : Text)
  | derived (inner : Subquery) (label : Text)
  | other (s : Text)
  deriving DecidableEq, Repr

/-- A JOIN as text, and its right topic if the clause is one the server supports. -/
structure Join where
  text : Text
  right : Option Text
  deriving DecidableEq, Repr

structure TableWithJoins where
  relation : Factor
  joins : List Join
  deriving DecidableEq, Repr

structure Select where
  projection : Text
  tables : List TableWithJoins
  selection : Option Cond
  tail : Text

/-- A literal of an IN list. -/
def displayLiteral [HostText] : Json → Text
  | .string s =>
    Sql.apostrophe :: s.toList.flatMap
      (fun c => if c = Sql.apostrophe then [c, c] else [c]) ++ [Sql.apostrophe]
  | v => v.render.toList

def Cond.display [HostText] : Cond → Text
  | .existsIn negated sub =>
    (if negated then "NOT EXISTS (" else "EXISTS (").toList ++ sub.text ++ [')']
  | .inSubquery lhs negated sub =>
    lhs ++ (if negated then " NOT IN (" else " IN (").toList ++ sub.text ++ [')']
  | .inList lhs negated values =>
    lhs ++ (if negated then " NOT IN (" else " IN (").toList ++
      ", ".toList.intercalate (values.map displayLiteral) ++ [')']
  | .binary op l r => l.display ++ [' '] ++ op.toList ++ [' '] ++ r.display
  | .unary op e => op.toList ++ [' '] ++ e.display
  | .nested e => '(' :: e.display ++ [')']
  | .leaf s => s

def Factor.display : Factor → Text
  | .table name => name
  | .derived inner label => '(' :: inner.text ++ [')'] ++ label
  | .other s => s

def TableWithJoins.display (t : TableWithJoins) : Text :=
  t.relation.display ++ t.joins.flatMap fun j => ' ' :: j.text

def Select.display [HostText] (q : Select) : Text :=
  "SELECT ".toList ++ q.projection ++ " FROM ".toList ++
    ", ".toList.intercalate (q.tables.map TableWithJoins.display) ++
    (match q.selection with
      | some c => " WHERE ".toList ++ c.display
      | none => []) ++ q.tail

def trimMatches (c : Char) (s : Text) : Text := trimEnd (· = c) (s.dropWhile (· = c))

/-- The quotes the router takes off a topic's name. -/
def unquote (name : Text) : Text :=
  trimMatches ']' (trimMatches '[' (trimMatches Sql.Delimiter.backtick.char
    (trimMatches Sql.Delimiter.quotationMark.char name)))

def canonicalizeTopic (name : Text) : Text :=
  match name with
  | [] => []
  | c :: _ => if c = '/' then name else '/' :: name

/-- The one plain table of a subquery, or what is wrong with its FROM clause. -/
def singleTopic (what plain : String) (tables : List SubTable) : Except Text Text :=
  match tables with
  | [⟨name, false⟩] =>
    match name with
    | some name => .ok (unquote name)
    | none => .error (what ++ " FROM must be a plain " ++ plain).toList
  | _ => .error (what ++ " FROM must be a single topic (no JOIN)").toList

/-- The topic a subquery is run on. -/
def Subquery.topic (q : Subquery) : Option Text :=
  match q.body with
  | some ⟨_, [⟨some name, false⟩], _, _⟩ => some (canonicalizeTopic (unquote name))
  | _ => none

inductive AsOf where
  | sequence (n : Nat)
  | timestampMs (ms : Nat)
  deriving DecidableEq, Repr

structure DeltaBody where
  deltaType : String
  sequence : Option Nat
  data : JsonMap

/-- The operations of `Topic` that the read commands use, on topics of type `C` whose writers
and evaluator do `A`. -/
structure TopicApi (C A : Type) where
  /-- `query` -/
  query : C → Text → Except Text (List JsonMap)
  /-- `query_streaming_json`, in batches -/
  streaming : C → Text → Except Text (List (List JsonMap))
  /-- `execute_join_query`, with the parse over the combined schema -/
  executeJoin : C → C → Text → Except Text (List JsonMap)
  /-- `make_ephemeral_topic_from_rows` -/
  ephemeral : List JsonMap → Except Text C
  /-- `txlog_path`: the topic has a log -/
  persistent : C → Bool
  /-- `reconstruct_asof_rows` over the topic's log -/
  asOfRows : C → AsOf → Except Text (List JsonMap)
  /-- `estimate_cost`, against the limits of the user -/
  estimateCost : C → Text → Except Text Unit
  /-- `resolve_timestamp_to_seq` -/
  bookmarkSince : C → Nat → Except Text (Option Nat)
  /-- `subscribe_register` -/
  register : C → String → Text → Bool → Except Text C
  /-- `subscribe_with_bookmark` and the replay of the log: the captured sequence, the deltas,
  and the error that ended the replay -/
  replay : C → String → Text → Nat → Except Text (C × Nat × List DeltaBody × Option Text)
  /-- a write, another session's subscription or the evaluation of an event, with its deltas
  by subscription -/
  act : C → A → C × List (String × DeltaBody)

/-! ## Subqueries -/

section Resolve
variable {C A : Type} (api : TopicApi C A) (topics : Text → Option C)

def runOn (name sql : Text) (missing : Text) : Except Text (List JsonMap) :=
  match topics (canonicalizeTopic name) with
  | some t => api.query t sql
  | none => .error missing

/-- `" WHERE …"`, if there is one. -/
def wherePart (selection : Option Text) : Text := optionalClause " WHERE " selection

def materialiseExists (q : Subquery) : Except Text Bool :=
  match q.body with
  | none => .error "EXISTS subquery must be a SELECT (no set ops)".toList
  | some s => do
    let name ← singleTopic "EXISTS subquery" "topic name" s.tables
    let rows ← (runOn api topics name
      ("SELECT * FROM t".toList ++ wherePart s.selection ++ " LIMIT 1".toList)
      ("EXISTS subquery topic `".toList ++ name ++ "` not found".toList)).mapError
        ("EXISTS subquery: ".toList ++ ·)
    return !rows.isEmpty

/-- `1 = 1` or `1 = 0`. -/
def Cond.truth (b : Bool) : Cond := .binary "=" (.leaf ['1']) (.leaf [if b then '1' else '0'])

/-- The values of the subquery's column, nulls left out. -/
def literals (column : Text) : List JsonMap → Except Text (List Json)
  | [] => .ok []
  | row :: rows =>
    match row.get? (String.ofList column) with
    | none => .error ("subquery missing col `".toList ++ column ++ "`".toList)
    | some v => do
      let rest ← literals column rows
      match v with
      | .string _ | .number _ | .bool _ => .ok (v :: rest)
      | _ => .ok rest

/-- The IN list, or for an empty one a condition that is always false. -/
def Cond.isIn (lhs : Text) (negated : Bool) (values : List Json) : Cond :=
  if values.isEmpty then
    let never := Cond.binary "AND" (.leaf (lhs ++ " IS NULL".toList))
      (.leaf (lhs ++ " IS NOT NULL".toList))
    if negated then .unary "NOT" never else never
  else .inList lhs negated values

/-- The one bare column a subquery selects. -/
def singleColumn : List Item → Except Text Text
  | [.column name] => .ok name
  | [.other] => .error "subquery projection must be a bare column identifier".toList
  | _ => .error "subquery must project exactly one column".toList

/-- The literal values of an `IN` subquery. -/
def materialiseIn (q : Subquery) : Except Text (List Json) :=
  match q.body with
  | none => .error "subquery must be a SELECT (no set ops)".toList
  | some s => do
    let column ← singleColumn s.projection
    let name ← singleTopic "subquery" "topic name" s.tables
    if s.grouped then .error "subquery cannot have GROUP BY".toList
    else do
      let rows ← (runOn api topics name
        ("SELECT ".toList ++ column ++ " FROM t".toList ++ wherePart s.selection)
        ("subquery topic `".toList ++ name ++ "` not found".toList)).mapError
          ("subquery: ".toList ++ ·)
      literals column rows

def rewriteInSubqueries : Cond → Except Text Cond
  | .existsIn negated sub => do
    let hasRows ← materialiseExists api topics sub
    return .truth (if negated then !hasRows else hasRows)
  | .inSubquery lhs negated sub => do
    let values ← materialiseIn api topics sub
    return .isIn lhs negated values
  | .binary op l r => do
    let l ← rewriteInSubqueries l
    let r ← rewriteInSubqueries r
    return .binary op l r
  | .unary op e => do
    let e ← rewriteInSubqueries e
    return .unary op e
  | .nested e => do
    let e ← rewriteInSubqueries e
    return .nested e
  | .inList lhs negated values => .ok (.inList lhs negated values)
  | .leaf s => .ok (.leaf s)

def resolveInSubqueries (q : Select) : Except Text Select :=
  match q.selection with
  | none => .ok q
  | some c => do
    let c ← rewriteInSubqueries api topics c
    return { q with selection := some c }

def rewriteOuterFromToT [HostText] (q : Select) : Text :=
  match q.tables with
  | [⟨.derived _ _, joins⟩] => { q with tables := [⟨.table ['t'], joins⟩] }.display
  | _ => q.display

/-- The rows of a derived table's inner query, from its topic. -/
def materialiseDerived (inner : Subquery) : Except Text (List JsonMap) :=
  match inner.body with
  | none => .error "derived-table inner must be a SELECT".toList
  | some s => do
    let name ← singleTopic "derived-table inner" "topic" s.tables
    (runOn api topics name inner.text
      ("derived-table inner topic `".toList ++ name ++ "` not found".toList)).mapError
        ("derived-table inner: ".toList ++ ·)

/-- `try_resolve_derived_table`: the outer statement is run on a topic made of the inner rows. -/
def tryResolveDerivedTable [HostText] (q : Select) : Except Text (Option (List JsonMap)) :=
  match q.tables with
  | [⟨.derived inner _, _⟩] => do
    let rows ← materialiseDerived api topics inner
    if rows.isEmpty then return some []
    else do
      let t ← (api.ephemeral rows).mapError ("derived-table materialise: ".toList ++ ·)
      let out ← (api.query t (rewriteOuterFromToT q)).mapError ("derived-table outer: ".toList ++ ·)
      return some out
  | _ => .ok none

end Resolve

def stripIdentifierQuotes (raw : Text) : Text :=
  let s := trim raw
  let quoted (first last : Char) : Bool := 2 ≤ s.length && s.head? = some first && s.getLast? = some last
  if quoted Sql.Delimiter.quotationMark.char Sql.Delimiter.quotationMark.char ||
      quoted Sql.Delimiter.backtick.char Sql.Delimiter.backtick.char || quoted '[' ']' then
    s.tail.dropLast
  else s

/-- `peek_join`: the right topic of the one JOIN behind a plain table. -/
def peekJoin (q : Select) : Option Text :=
  match q.tables with
  | ⟨.table _, [j]⟩ :: _ => j.right.map stripIdentifierQuotes
  | _ => none

/-! ## The topics a statement names -/

def Cond.topics : Cond → List Text
  | .existsIn _ sub => sub.topic.toList
  | .inSubquery _ _ sub => sub.topic.toList
  | .binary _ l r => l.topics ++ r.topics
  | .unary _ e => e.topics
  | .nested e => e.topics
  | .inList _ _ _ => []
  | .leaf _ => []

def Select.derivedTopic (q : Select) : Option Text :=
  match q.tables with
  | [⟨.derived inner _, _⟩] => inner.topic
  | _ => none

/-- The topics of the subqueries and of the derived table. -/
def Select.topics (q : Select) : List Text :=
  q.selection.elim [] Cond.topics ++ q.derivedTopic.toList

/-- The right side of the JOIN. -/
def Select.joinTopic (q : Select) : Option Text := (peekJoin q).map canonicalizeTopic

section Congr
variable {C A : Type} {api : TopicApi C A} {topics topics' : Text → Option C}

variable {name : Text}

theorem Subquery.topic_eq {q : Subquery} {s : Subselect} (hbody : q.body = some s)
    {what plain : String} (h : singleTopic what plain s.tables = .ok name) :
    q.topic = some (canonicalizeTopic name) := by
  obtain ⟨projection, tables, grouped, selection⟩ := s
  unfold singleTopic at h
  split at h
  · rename_i hname
    split at h
    · cases h
      simp only at hname
      simp [topic, hbody, hname]
    · cases h
  · cases h

theorem runOn_congr (h : topics (canonicalizeTopic name) = topics' (canonicalizeTopic name))
    (sql missing : Text) :
    runOn api topics name sql missing = runOn api topics' name sql missing := by
  rw [runOn, runOn, h]

/-- Two computations that start alike and go on alike from what the first part gives. -/
theorem bind_ok_congr {ε α β : Type} {x : Except ε α} {f g : α → Except ε β}
    (h : ∀ a, x = .ok a → f a = g a) : x >>= f = x >>= g := by
  cases x with
  | error e => rfl
  | ok a => exact h a rfl

section
variable {q : Subquery} (h : ∀ n ∈ q.topic, topics n = topics' n)
include h

theorem materialiseExists_congr :
    materialiseExists api topics q = materialiseExists api topics' q := by
  unfold materialiseExists
  cases hbody : q.body with
  | none => rfl
  | some s =>
    refine bind_ok_congr fun name hname => ?_
    rw [runOn_congr (h _ (Subquery.topic_eq hbody hname))]

theorem materialiseIn_congr :
    materialiseIn api topics q = materialiseIn api topics' q := by
  unfold materialiseIn
  cases hbody : q.body with
  | none => rfl
  | some s =>
    refine bind_ok_congr fun column _ => bind_ok_congr fun name hname => ?_
    rw [runOn_congr (h _ (Subquery.topic_eq hbody hname))]

end

theorem rewriteInSubqueries_congr {c : Cond} (h : ∀ n ∈ c.topics, topics n = topics' n) :
    rewriteInSubqueries api topics c = rewriteInSubqueries api topics' c := by
  induction c with
  | existsIn negated sub =>
    have hsub : ∀ n ∈ sub.topic, topics n = topics' n := fun n hn =>
      h n (Option.mem_toList.mpr hn)
    rw [rewriteInSubqueries, rewriteInSubqueries, materialiseExists_congr hsub]
  | inSubquery lhs negated sub =>
    have hsub : ∀ n ∈ sub.topic, topics n = topics' n := fun n hn =>
      h n (Option.mem_toList.mpr hn)
    rw [rewriteInSubqueries, rewriteInSubqueries, materialiseIn_congr hsub]
  | binary op l r ihl ihr =>
    have hl := ihl fun n hn => h n (List.mem_append_left _ hn)
    have hr := ihr fun n hn => h n (List.mem_append_right _ hn)
    rw [rewriteInSubqueries, rewriteInSubqueries, hl, hr]
  | unary op e ih | nested e ih => rw [rewriteInSubqueries, rewriteInSubqueries, ih h]
  | inList lhs negated values | leaf s => rfl

variable {q : Select}

/-- **Only the topics named in its condition matter to the subqueries of a statement.** -/
theorem resolveInSubqueries_congr (h : ∀ n ∈ q.topics, topics n = topics' n) :
    resolveInSubqueries api topics q = resolveInSubqueries api topics' q := by
  unfold resolveInSubqueries
  cases hsel : q.selection with
  | none => rfl
  | some c =>
    have hc : ∀ n ∈ c.topics, topics n = topics' n := fun n hn =>
      h n (by simp only [Select.topics, hsel, List.mem_append]; exact .inl hn)
    simp [rewriteInSubqueries_congr hc]

variable {q' : Select}

theorem resolveInSubqueries_tables (h : resolveInSubqueries api topics q = .ok q') :
    q'.tables = q.tables := by
  unfold resolveInSubqueries at h
  split at h
  · cases h
    rfl
  rename_i c _
  cases hc : rewriteInSubqueries api topics c with
  | error e =>
    rw [hc] at h
    cases h
  | ok c' =>
    rw [hc] at h
    cases h
    rfl

theorem materialiseDerived_congr {q : Subquery} (h : ∀ n ∈ q.topic, topics n = topics' n) :
    materialiseDerived api topics q = materialiseDerived api topics' q := by
  unfold materialiseDerived
  cases hbody : q.body with
  | none => rfl
  | some s =>
    refine bind_ok_congr fun name hname => ?_
    rw [runOn_congr (h _ (Subquery.topic_eq hbody hname))]

/-- **Only its inner topic matters to a derived table.** -/
theorem tryResolveDerivedTable_congr [HostText] (h : ∀ n ∈ q.derivedTopic, topics n = topics' n) :
    tryResolveDerivedTable api topics q = tryResolveDerivedTable api topics' q := by
  unfold tryResolveDerivedTable
  split
  · rename_i inner _ _ htables
    have hinner : ∀ n ∈ inner.topic, topics n = topics' n := fun n hn =>
      h n (by simp only [Select.derivedTopic, htables]; exact hn)
    rw [materialiseDerived_congr hinner]
  · rfl

theorem Select.derivedTopic_congr (h : q'.tables = q.tables) :
    q'.derivedTopic = q.derivedTopic := by rw [Select.derivedTopic, Select.derivedTopic, h]

theorem peekJoin_congr (h : q'.tables = q.tables) : peekJoin q' = peekJoin q := by
  rw [peekJoin, peekJoin, h]

variable {n : Text}

theorem Select.mem_topics_of_derived (h : n ∈ q.derivedTopic) : n ∈ q.topics :=
  List.mem_append_right _ (Option.mem_toList.mpr h)

end Congr

end CqServer
