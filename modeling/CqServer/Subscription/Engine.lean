import CqServer.Subscription.PredicateIndex
import CqServer.Topic.Write
import Mathlib.Data.Finmap
import Mathlib.Data.Finset.Sort

/-!
# The subscription engine

`subscription.rs`: what one mutation event makes of one subscription, in its
four shapes (plain, sparse, TOP-N, aggregate), and the engine that runs an
event over all subscriptions or over those the predicate index names. Hash
iteration orders are fixed to ascending order; they only order the deltas of
one event among themselves.
-/

namespace CqServer

open Lib Function

variable {σ : Schema}

inductive DeltaType where
  | add
  | update
  | remove
  | oof
  deriving DecidableEq, Repr

structure Delta where
  subscriptionId : String
  deltaType : DeltaType
  row : Nat
  sequence : Nat
  rowData : JsonMap

/-! ## Subscription state -/

/-- Last emitted values of a row, by column. -/
abbrev Snapshot (σ : Schema) := σ.Col → Option Value

/-- `SortKey`: the ORDER BY values with their directions. -/
abbrev SortKey := List (Value × Bool)

/-- `TopNState`. The ordered set `ranked` is kept as a set of entries; its
order is `compareRanked`. -/
structure TopNState where
  ranked : Finset (SortKey × Nat) := ∅
  rowToKey : Nat → Option SortKey := fun _ => none
  currentTopn : Finset Nat := ∅

structure AggregateSubState where
  lastEmitted : Finmap (fun _ : String => JsonMap) := ∅
  groupRows : String → Finset Nat := fun _ => ∅
  rowGroup : Nat → Option String := fun _ => none
  incrementalReady : Bool := false

/-- `Subscription`; closing for too many matches is the one close reason. -/
structure Subscription (σ : Schema) where
  id : String
  query : ParsedQuery σ
  activeSet : Finset Nat := ∅
  sparse : Bool := false
  keyCols : List σ.Col := []
  lastSnapshot : Nat → Option (Snapshot σ) := fun _ => none
  topn : Option TopNState := none
  liveStartSequence : Nat := 0
  closed : Bool := false
  maxActive : Option Nat := none
  aggregate : Option AggregateSubState := none

/-- `Subscription::new` with its live start: a positive LIMIT makes it TOP-N. -/
def Subscription.new (id : String) (q : ParsedQuery σ) (liveStart : Nat) : Subscription σ where
  id
  query := q
  topn := match q.limit with
    | some (_ + 1) => some {}
    | _ => none
  liveStartSequence := liveStart

/-- The kinds of event a subscription lets pass: it is open, and the event is
not already part of its snapshot. -/
def Subscription.listens (sub : Subscription σ) (sequence : Nat) : Bool :=
  !sub.closed && sub.liveStartSequence ≤ sequence

/-- `compare_values` of `subscription.rs`. -/
def compareSortValues : Value → Value → Ordering
  | .null, .null => .eq
  | .null, _ => .lt
  | _, .null => .gt
  | .double f, .double g => f.totalCmp g
  | .long m, .long n => compare m.toInt n.toInt
  | .int m, .int n => compare m.toInt n.toInt
  | .string s, .string t => compareOption compare s t
  | _, _ => .eq

/-- Lexicographic order of two sort keys, each element in its own direction. -/
def compareSortKeys : SortKey → SortKey → Ordering
  | (v, asc) :: k, (w, _) :: l =>
    let o := compareSortValues v w
    (if asc then o else o.swap).then (compareSortKeys k l)
  | _, _ => .eq

/-- The order of the `ranked` set; equal keys are told apart by their row. -/
def compareRanked (a b : SortKey × Nat) : Ordering :=
  (compareSortKeys a.1 b.1).then (compare a.2 b.2)

/-- The first `limit` entries: those with fewer than `limit` entries before them. -/
def topRows (limit : Nat) (ranked : Finset (SortKey × Nat)) : Finset Nat :=
  (ranked.filter fun e => (ranked.filter fun f => compareRanked f e = .lt).card < limit).image
    Prod.snd

def buildSortKey (q : ParsedQuery σ) (r : Row σ) : SortKey :=
  q.orderBy.map fun c => (r.cells c.1, c.2)

/-! ## One subscription, one event -/

section Evaluate
variable [HostText]

variable (sub : Subscription σ)

def Subscription.delta (sequence : Nat) (ty : DeltaType) (row : Nat) (data : JsonMap) : Delta :=
  ⟨sub.id, ty, row, sequence, data⟩

def snapshotColumns (r : Row σ) (cols : List σ.Col) : Snapshot σ :=
  fun c => if c ∈ cols then some (r.cells c) else none

/-- The column's value differs from the last emitted one. A null double never
equals itself, so it always counts as changed. -/
def cellChanged (prev : Option (Snapshot σ)) (r : Row σ) (c : σ.Col) : Bool :=
  match prev with
  | none => true
  | some p =>
    match p c with
    | some v => !v.partialEq (r.cells c)
    | none => true

/-- `diff_update`: the changed projected columns, with the key columns along. -/
def diffPayload (prev : Option (Snapshot σ)) (r : Row σ) (proj keyCols : List σ.Col) :
    JsonMap :=
  let shown := proj.filter fun c => cellChanged prev r c || keyCols.contains c
  let extra := keyCols.filter fun c => !proj.contains c
  r.getRowMapProjected (shown ++ if proj.any (cellChanged prev r) then extra else [])

/-- `key_only_payload`, from the last emitted values. -/
def keyOnlyPayload (prev : Snapshot σ) (keyCols : List σ.Col) : JsonMap :=
  keyCols.foldl
    (fun m c =>
      match prev c with
      | some v => if v.isNull then m else m.insert (σ.columnName c) v.toJson
      | none => m) []

omit [HostText] in
theorem Subscription.not_full (h : sub.maxActive = none) :
    ¬ (sub.maxActive.any fun cap => cap ≤ sub.activeSet.card) = true := by
  simp [h]

/-- The row enters the subscription's view, unless its cap is reached. -/
def Subscription.enter (row sequence : Nat) (store : ColumnStore σ) : Subscription σ × List Delta :=
  let r := store.row row
  if sub.maxActive.any fun cap => cap ≤ sub.activeSet.card then
    ({ sub with closed := true }, [])
  else
    ({ sub with
        activeSet := insert row sub.activeSet
        lastSnapshot := if sub.sparse then
            update sub.lastSnapshot row (some (snapshotColumns r sub.query.effectiveProjection))
          else sub.lastSnapshot },
      [sub.delta sequence .add row (projectRow sub.query r)])

/-- The row stays in view: a plain subscription always updates, a sparse one
only when a projected column changed. -/
def Subscription.stay (row sequence : Nat) (store : ColumnStore σ) : Subscription σ × List Delta :=
  let r := store.row row
  if sub.sparse then
    let proj := sub.query.effectiveProjection
    let prev := sub.lastSnapshot row
    ({ sub with
        lastSnapshot := update sub.lastSnapshot row
          (some (snapshotColumns r (proj ++ sub.keyCols))) },
      if proj.any (cellChanged prev r) then
        [sub.delta sequence .update row (diffPayload prev r proj sub.keyCols)]
      else [])
  else (sub, [sub.delta sequence .update row (projectRow sub.query r)])

/-- The row leaves the view: `Remove` after a delete, `Oof` after a predicate
flip. A plain delete has no body, the slot may already hold another record. -/
def Subscription.leave (row sequence : Nat) (kind : MutationKind)
    (store : ColumnStore σ) : Subscription σ × List Delta :=
  let body :=
    if sub.sparse then keyOnlyPayload ((sub.lastSnapshot row).getD fun _ => none) sub.keyCols
    else if kind = .delete then []
    else projectRow sub.query (store.row row)
  ({ sub with
      activeSet := sub.activeSet.erase row
      lastSnapshot := if sub.sparse then update sub.lastSnapshot row none
        else sub.lastSnapshot },
    [sub.delta sequence (if kind = .delete then .remove else .oof) row body])

/-- A delete never matches; an upsert matches by the row's current contents. -/
def Subscription.matchesEvent (row : Nat) (kind : MutationKind) (store : ColumnStore σ) : Bool :=
  kind = .upsert && sub.query.predicate.holds (store.row row)

def Subscription.evaluateRow (row sequence : Nat) (kind : MutationKind)
    (store : ColumnStore σ) : Subscription σ × List Delta :=
  if sub.matchesEvent row kind store then
    if row ∈ sub.activeSet then sub.stay row sequence store
    else sub.enter row sequence store
  else if row ∈ sub.activeSet then sub.leave row sequence kind store
  else (sub, [])

/-- `evaluate_topn`: re-rank the row, recompute the window and report what
entered, left or stayed. It does not look at the event's kind. -/
def Subscription.evaluateTopn (top : TopNState) (row sequence : Nat)
    (store : ColumnStore σ) : Subscription σ × List Delta :=
  let limit := sub.query.limit.getD 0
  if limit = 0 then (sub, []) else
  let holds := sub.query.predicate.holds (store.row row)
  let key := buildSortKey sub.query (store.row row)
  let cleared := match top.rowToKey row with
    | some old => top.ranked.erase (old, row)
    | none => top.ranked
  let ranked := if holds then insert (key, row) cleared else cleared
  let rowToKey := update top.rowToKey row (if holds then some key else none)
  let window := topRows limit ranked
  let data (r : Nat) := projectRow sub.query (store.row r)
  ({ sub with
      activeSet := if holds then insert row sub.activeSet else sub.activeSet.erase row
      topn := some ⟨ranked, rowToKey, window⟩ },
    ((window \ top.currentTopn).sort (· ≤ ·)).map (fun r => sub.delta sequence .add r (data r)) ++
    ((top.currentTopn \ window).sort (· ≤ ·)).map (fun r =>
      sub.delta sequence (if (rowToKey r).isSome then .oof else .remove) r (data r)) ++
    if row ∈ top.currentTopn ∧ row ∈ window then [sub.delta sequence .update row (data row)]
    else [])

end Evaluate

def Subscription.seedRow (sub : Subscription σ) (row : Nat) (store : ColumnStore σ) :
    Subscription σ :=
  let key := buildSortKey sub.query (store.row row)
  { sub with
    activeSet := insert row sub.activeSet
    lastSnapshot := if sub.sparse then
        update sub.lastSnapshot row
          (some (snapshotColumns (store.row row) sub.query.effectiveProjection))
      else sub.lastSnapshot
    topn := sub.topn.map fun top =>
      { top with
        ranked := insert (key, row) top.ranked
        rowToKey := update top.rowToKey row (some key) } }

/-- The scan of `seed_active_set`. A row over the cap closes the subscription
and ends the scan; at the end of the store the TOP-N window is primed. -/
def Subscription.seedRows (store : ColumnStore σ) : List Nat → Subscription σ → Subscription σ
  | [], sub =>
    { sub with topn := sub.topn.map fun top =>
        { top with currentTopn := topRows (sub.query.limit.getD 0) top.ranked } }
  | row :: rows, sub =>
    if sub.query.predicate.holds (store.row row) then
      if sub.maxActive.any fun cap => cap ≤ sub.activeSet.card then { sub with closed := true }
      else seedRows store rows (sub.seedRow row store)
    else seedRows store rows sub

/-- `seed_active_set`: every row of the store, tombstoned ones included. -/
def Subscription.seedActiveSet (sub : Subscription σ) (store : ColumnStore σ) :
    Subscription σ :=
  sub.seedRows store (List.range store.rowCount)

/-! ## Aggregate subscriptions -/

section Aggregate
variable [HostText] [AggregateExec σ]

/-- `aggregate_needs_full_recompute`. -/
def needsFullRecompute (q : ParsedQuery σ) : Bool :=
  q.hasJoin || q.hasPivot || q.hasUnpivot || q.limit.isSome || q.offset.isSome ||
    !q.windows.isEmpty || q.groupBy.isEmpty

/-- The output of a full recompute, by canonical group key. -/
def currentGroups (q : ParsedQuery σ) (store : ColumnStore σ) :
    Finmap (fun _ : String => JsonMap) :=
  (AggregateExec.executeAggregate q store none).foldl
    (fun m row => m.insert (groupKeyCanonical row (q.groupBy.map σ.columnName)) row) ∅

/-- What a group's new output makes of its last emitted one. -/
def diffGroup (prev new : Option JsonMap) : List (DeltaType × JsonMap) :=
  match prev, new with
  | none, some row => [(.add, row)]
  | some p, some row => if Json.fieldsEq p row then [] else [(.update, row)]
  | some p, none => [(.remove, p)]
  | none, none => []

omit [HostText] [AggregateExec σ] in
theorem diffGroup_self (p : Option JsonMap) : diffGroup p p = [] := by
  cases p with
  | none => rfl
  | some p => exact if_pos (Json.fieldsEq_refl p)

def sortedKeys (keys : Finset String) : List String := keys.sort (· ≤ ·)

variable (sub : Subscription σ)

def Subscription.evaluateAggregatingFull (agg : AggregateSubState) (sequence : Nat)
    (store : ColumnStore σ) : Subscription σ × List Delta :=
  let current := currentGroups sub.query store
  let changed (k : String) := diffGroup (agg.lastEmitted.lookup k) (current.lookup k)
  let keys := sortedKeys current.keys ++ sortedKeys (agg.lastEmitted.keys \ current.keys)
  ({ sub with aggregate := some { agg with lastEmitted := current } },
    (keys.flatMap changed).map fun d => sub.delta sequence d.1 0 d.2)

def groupOutput (q : ParsedQuery σ) (store : ColumnStore σ) (agg : AggregateSubState)
    (key : String) : Option JsonMap :=
  if agg.groupRows key = ∅ then none
  else AggregateExec.aggregateOneGroup q store (agg.groupRows key)

/-- Recompute one group and report the difference to its last emitted output. -/
def refreshGroup (q : ParsedQuery σ) (store : ColumnStore σ) (agg : AggregateSubState)
    (key : String) : AggregateSubState × List (DeltaType × JsonMap) :=
  let new := groupOutput q store agg key
  let prev := agg.lastEmitted.lookup key
  let lastEmitted := match prev, new with
    | _, none => agg.lastEmitted.erase key
    | none, some row => agg.lastEmitted.insert key row
    | some p, some row => if Json.fieldsEq p row then agg.lastEmitted
        else agg.lastEmitted.insert key row
  ({ agg with lastEmitted }, diffGroup prev new)

def refreshGroups (q : ParsedQuery σ) (store : ColumnStore σ) (agg : AggregateSubState)
    (dirty : List String) : AggregateSubState × List (DeltaType × JsonMap) :=
  match dirty with
  | [] => (agg, [])
  | key :: dirty =>
    let g := refreshGroup q store agg key
    let rest := refreshGroups q store g.1 dirty
    (rest.1, g.2 ++ rest.2)

omit [HostText] in
theorem refreshGroups_files {q : ParsedQuery σ} {store : ColumnStore σ} {agg : AggregateSubState}
    (dirty : List String) :
    (refreshGroups q store agg dirty).1.groupRows = agg.groupRows ∧
      (refreshGroups q store agg dirty).1.rowGroup = agg.rowGroup ∧
      (refreshGroups q store agg dirty).1.incrementalReady = agg.incrementalReady := by
  induction dirty generalizing agg with
  | nil => exact ⟨rfl, rfl, rfl⟩
  | cons key dirty ih => exact ih

def moveRow (agg : AggregateSubState) (row : Nat) (old new : Option String) :
    AggregateSubState where
  lastEmitted := agg.lastEmitted
  groupRows key :=
    if old = new then agg.groupRows key
    else if new = some key then insert row (agg.groupRows key)
    else if old = some key then (agg.groupRows key).erase row
    else agg.groupRows key
  rowGroup := update agg.rowGroup row new
  incrementalReady := agg.incrementalReady

/-- The group the row belongs to after the event, if it matches. -/
def Subscription.eventGroup (row : Nat) (kind : MutationKind)
    (store : ColumnStore σ) : Option String :=
  if sub.matchesEvent row kind store then
    some (AggregateExec.groupKeyFromStore store row sub.query.groupBy)
  else none

/-- `evaluate_aggregating_incremental`: only the groups the row left or joined. -/
def Subscription.evaluateAggregatingIncremental (agg : AggregateSubState) (row sequence : Nat)
    (kind : MutationKind) (store : ColumnStore σ) : Subscription σ × List Delta :=
  let new := sub.eventGroup row kind store
  let old := agg.rowGroup row
  if old = none ∧ new = none then (sub, [])
  else
    let dirty := if old = new then new.toList else old.toList ++ new.toList
    let out := refreshGroups sub.query store (moveRow agg row old new) dirty
    ({ sub with aggregate := some out.1 },
      out.2.map fun d => sub.delta sequence d.1 0 d.2)

def Subscription.evaluateAggregating (agg : AggregateSubState) (row sequence : Nat)
    (kind : MutationKind) (store : ColumnStore σ) : Subscription σ × List Delta :=
  if !agg.incrementalReady || needsFullRecompute sub.query then
    sub.evaluateAggregatingFull agg sequence store
  else sub.evaluateAggregatingIncremental agg row sequence kind store

/-- The snapshot as last emitted, and the group of every matching live row
(`build_group_membership`) if the shape can be maintained incrementally. -/
def Subscription.seedAggregate (store : ColumnStore σ) (live : Finset Nat)
    (snapshot : List JsonMap) : Subscription σ :=
  let names := sub.query.groupBy.map σ.columnName
  let member (row : Nat) : Option String :=
    if row < store.rowCount ∧ row ∈ live ∧ sub.query.predicate.holds (store.row row) then
      some (AggregateExec.groupKeyFromStore store row sub.query.groupBy)
    else none
  let incremental := !needsFullRecompute sub.query
  let agg : AggregateSubState :=
    { lastEmitted := snapshot.foldl (fun m row => m.insert (groupKeyCanonical row names) row) ∅
      groupRows := fun key =>
        if incremental then live.filter fun row => member row = some key else ∅
      rowGroup := fun row => if incremental then member row else none
      incrementalReady := incremental }
  { sub with aggregate := some agg }

def Subscription.evaluate (row sequence : Nat) (kind : MutationKind)
    (store : ColumnStore σ) : Subscription σ × List Delta :=
  if sub.listens sequence then
    match sub.aggregate with
    | some agg => sub.evaluateAggregating agg row sequence kind store
    | none =>
      match sub.topn with
      | some top => sub.evaluateTopn top row sequence store
      | none => sub.evaluateRow row sequence kind store
  else (sub, [])

end Aggregate

end CqServer
