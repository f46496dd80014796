import CqServer.Topic.Live
import CqServer.Lib.PointUpdate

/-!
# Conflation

`conflation.rs`: a conflated subscription's deltas are held back between two
flushes, at most one per row slot, and merged by the rules of `merge`. A consumer
that applies what `drain` gives ends with the records of one that is sent every
delta, as long as each merge is of two deltas about one record and loses nothing
(`Fits`). The conflator looks at the slot and the kind of a delta only. It drops
an entry and a removal that follow a held-back eviction (`eviction_cancelled`),
and overwrites one group's delta by another's.
-/

namespace CqServer.Conflation

open Lib List AList

variable {σ : Schema} {κ : Type}

/-! ## The conflator -/

/-- A delta with the record it is about: a key, or a group. -/
structure RecordDelta (κ : Type) where
  record : κ
  delta : Delta

namespace RecordDelta

abbrev type (d : RecordDelta κ) : DeltaType := d.delta.deltaType
abbrev row (d : RecordDelta κ) : Nat := d.delta.row
abbrev data (d : RecordDelta κ) : JsonMap := d.delta.rowData

end RecordDelta

structure Conflator (κ : Type) where
  pending : AList (fun _ : Nat => RecordDelta κ)
  ready : List (RecordDelta κ)

def merge (prev next : RecordDelta κ) : Option (RecordDelta κ) :=
  match prev.type, next.type with
  | .add, .remove => none
  | .add, .update => some { next with delta := { next.delta with deltaType := .add } }
  | _, _ => some next

namespace Conflator

def empty : Conflator κ := ⟨∅, []⟩

def submit (c : Conflator κ) (d : RecordDelta κ) : Conflator κ :=
  let rest := c.pending.erase d.row
  match c.pending.lookup d.row with
  | none => { c with pending := rest.insert d.row d }
  | some prev =>
    if prev.type = .remove ∧ d.type = .add then
      ⟨rest.insert d.row d, c.ready ++ [prev]⟩
    else
      match merge prev d with
      | some merged => { c with pending := rest.insert merged.row merged }
      | none => { c with pending := rest }

/-- The output of `Conflator::drain` when the hash map is iterated in the given
order of slots. -/
def drain (c : Conflator κ) (order : List Nat) : List (RecordDelta κ) :=
  c.ready ++ order.filterMap c.pending.lookup

def isEmpty (c : Conflator κ) : Bool := c.pending.keys.isEmpty && c.ready.isEmpty

end Conflator

/-- A record as the consumer has it: the fields it knows. -/
abbrev Fields := String → Option Json

def overlay (data : JsonMap) (old : Option Fields) : Fields :=
  fun f => (data.get? f).or (old.bind (· f))

/-- What a delta makes of its record; an update of a sparse subscription merges. -/
def RecordDelta.change (sparse : Bool) (d : RecordDelta κ) (old : Option Fields) :
    Option Fields :=
  match d.type with
  | .add => some d.data.get?
  | .update => if sparse then some (overlay d.data old) else some d.data.get?
  | .remove | .oof => none

def RecordDelta.update (sparse : Bool) (d : RecordDelta κ) : PointUpdate κ (Option Fields) :=
  ⟨d.record, d.change sparse⟩

abbrev View (κ : Type) := κ → Option Fields

def View.receive [DecidableEq κ] (sparse : Bool) (v : View κ) (ds : List (RecordDelta κ)) : View κ :=
  PointUpdate.applyAll v (ds.map (RecordDelta.update sparse))

/-! ## Merges that lose nothing -/

/-- The pending delta and the next one at its slot are about the same record, an
entry and a removal cancel only for a consumer without the record, and a sparse
update comes after an entry or an update and has all its fields. -/
def Mergeable (sparse : Bool) (held : View κ) (prev next : RecordDelta κ) : Prop :=
  prev.record = next.record ∧
  (prev.type = .add → next.type = .remove → held next.record = none) ∧
  (sparse = true → next.type = .update → (prev.type = .add ∨ prev.type = .update) ∧
    ∀ f, (prev.data.get? f).isSome → (next.data.get? f).isSome)

/-- The condition on a submitted delta; `held` is what the consumer has once it
is sent what is ready. -/
structure Fits (sparse : Bool) (c : Conflator κ) (held : View κ) (d : RecordDelta κ) : Prop where
  /-- No other slot has a pending delta about the record. -/
  alone : ∀ r p, c.pending.lookup r = some p → p.record = d.record → r = d.row
  merges : ∀ prev, c.pending.lookup d.row = some prev →
    prev.type = .remove ∧ d.type = .add ∨ Mergeable sparse held prev d

theorem overlay_overlay {data data' : JsonMap} (old : Option Fields)
    (h : ∀ f, (data.get? f).isSome → (data'.get? f).isSome) :
    overlay data' (some (overlay data old)) = overlay data' old := by
  funext f
  cases hf' : data'.get? f with
  | some x => simp [overlay, hf']
  | none =>
    have hf : data.get? f = none := by
      by_contra hne
      have := h f (Option.isSome_iff_ne_none.mpr hne)
      rw [hf'] at this
      cases this
    simp [overlay, hf]

theorem overlay_of_covers {data data' : JsonMap}
    (h : ∀ f, (data.get? f).isSome → (data'.get? f).isSome) :
    overlay data' (some data.get?) = data'.get? := by
  have hnil : ∀ m : JsonMap, overlay m none = m.get? := by
    intro m
    funext f
    simp [overlay]
  rw [← hnil data, overlay_overlay none h, hnil]

/-- What the merged delta, if any, makes of a record. -/
def changeAll (sparse : Bool) (d : Option (RecordDelta κ)) (old : Option Fields) : Option Fields :=
  d.elim old fun d => d.change sparse old

theorem merge_keeps {prev next merged : RecordDelta κ} (h : merge prev next = some merged) :
    merged.row = next.row ∧ merged.record = next.record := by
  unfold merge at h
  split at h
  · cases h
  · cases h
    exact ⟨rfl, rfl⟩
  · cases h
    exact ⟨rfl, rfl⟩

theorem merge_change {sparse : Bool} {held : View κ} {prev next : RecordDelta κ}
    (h : Mergeable sparse held prev next) :
    changeAll sparse (merge prev next) (held next.record) =
      next.change sparse (prev.change sparse (held next.record)) := by
  obtain ⟨-, hcancel, hsparse⟩ := h
  unfold merge
  split
  · -- an entry and a removal cancel
    rename_i hp hn
    simp [changeAll, RecordDelta.change, hn, hcancel hp hn]
  · -- an entry that is updated is sent as an entry
    rename_i hp hn
    cases sparse with
    | false => simp [changeAll, RecordDelta.change, hn]
    | true =>
      obtain ⟨-, hcover⟩ := hsparse rfl hn
      simp [changeAll, RecordDelta.change, hn, hp, overlay_of_covers hcover]
  · -- the later one wins
    rename_i hne
    cases hn : next.type with
    | add | remove | oof => simp [changeAll, RecordDelta.change, hn]
    | update =>
      cases sparse with
      | false => simp [changeAll, RecordDelta.change]
      | true =>
        obtain ⟨hprev, hcover⟩ := hsparse rfl hn
        have hp : prev.type = .update := hprev.resolve_left fun hp => hne hp hn
        simp [changeAll, RecordDelta.change, hp, overlay_overlay _ hcover]

/-- What `submit` does: it keeps the removal of a reused slot for itself, or
leaves at most one delta at the slot. -/
theorem Conflator.submit_cases (c : Conflator κ) (d : RecordDelta κ) :
    ∃ slot, (∀ r, (c.submit d).pending.lookup r =
        if r = d.row then slot else c.pending.lookup r) ∧
      (c.pending.lookup d.row = none ∧ slot = some d ∧ (c.submit d).ready = c.ready ∨
      ∃ prev, c.pending.lookup d.row = some prev ∧
        (prev.type = .remove ∧ d.type = .add ∧ slot = some d ∧
            (c.submit d).ready = c.ready ++ [prev] ∨
          ¬ (prev.type = .remove ∧ d.type = .add) ∧ slot = merge prev d ∧
            (c.submit d).ready = c.ready)) := by
  have hset : ∀ (p : RecordDelta κ) (r : Nat), ((c.pending.erase d.row).insert d.row p).lookup r =
      if r = d.row then some p else c.pending.lookup r := by
    intro p r
    rw [lookup_insert_ite, lookup_erase_ite]
    split <;> rfl
  unfold submit
  cases hprev : c.pending.lookup d.row with
  | none => exact ⟨some d, hset d, .inl ⟨rfl, rfl, rfl⟩⟩
  | some prev =>
    dsimp only
    by_cases hreuse : prev.type = .remove ∧ d.type = .add
    · rw [if_pos hreuse]
      exact ⟨some d, hset d, .inr ⟨prev, rfl, .inl ⟨hreuse.1, hreuse.2, rfl, rfl⟩⟩⟩
    · rw [if_neg hreuse]
      cases hmerge : merge prev d with
      | some merged =>
        dsimp only
        rw [(merge_keeps hmerge).1]
        exact ⟨some merged, hset merged, .inr ⟨prev, rfl, .inr ⟨hreuse, hmerge.symm, rfl⟩⟩⟩
      | none =>
        exact ⟨none, fun r => lookup_erase_ite, .inr ⟨prev, rfl, .inr ⟨hreuse, hmerge.symm, rfl⟩⟩⟩

/-! ## What is held back -/

section Owes
variable {sparse : Bool}

/-- `direct` is `held` with the pending deltas applied, each to its own record. -/
structure Owes (sparse : Bool) (pending : AList (fun _ : Nat => RecordDelta κ))
    (held direct : View κ) : Prop where
  distinct : ∀ r r' d d', pending.lookup r = some d → pending.lookup r' = some d' →
    d.record = d'.record → r = r'
  owed : ∀ r d, pending.lookup r = some d → direct d.record = d.change sparse (held d.record)
  rest : ∀ k, (∀ r d, pending.lookup r = some d → d.record ≠ k) → direct k = held k

variable {pending pending' : AList (fun _ : Nat => RecordDelta κ)} {held held' direct : View κ}
  {d : RecordDelta κ}

theorem Owes.empty (view : View κ) : Owes sparse (∅ : AList _) view view where
  distinct _ _ _ _ h := by simp at h
  owed _ _ h := by simp at h
  rest _ _ := rfl

/-- A record that is pending at no other slot is owed what the slot of `d` has. -/
theorem Owes.slot (h : Owes sparse pending held direct) (row : Nat) {k : κ}
    (hslot : ∀ prev, pending.lookup row = some prev → prev.record ≠ k)
    (hothers : ∀ r p, pending.lookup r = some p → r ≠ row → p.record ≠ k) :
    direct k = held k := by
  refine h.rest k fun r p hp => ?_
  by_cases hr : r = row
  · exact hslot p (hr ▸ hp)
  · exact hothers r p hp hr

variable [DecidableEq κ]

/-- The slot of a submitted delta changes, and the consumer may be sent more; what
is owed for the other slots stays. -/
theorem Owes.replace (h : Owes sparse pending held direct) {slot : Option (RecordDelta κ)}
    (hslot : ∀ r, pending'.lookup r = if r = d.row then slot else pending.lookup r)
    (halone : ∀ r p, pending.lookup r = some p → p.record = d.record → r = d.row)
    (hrecord : ∀ d', slot = some d' → d'.record = d.record)
    (hself : changeAll sparse slot (held' d.record) = d.change sparse (direct d.record))
    (hothers : ∀ r p, pending.lookup r = some p → r ≠ d.row → held' p.record = held p.record)
    (hrest : ∀ k, k ≠ d.record → (∀ r p, pending.lookup r = some p → r ≠ d.row → p.record ≠ k) →
      direct k = held' k) :
    Owes sparse pending' held' ((d.update sparse).apply direct) := by
  have hat : (d.update sparse).apply direct d.record = d.change sparse (direct d.record) :=
    PointUpdate.apply_self direct (d.update sparse)
  have hne : ∀ k, k ≠ d.record → (d.update sparse).apply direct k = direct k :=
    fun k hk => PointUpdate.apply_of_ne direct hk
  refine ⟨?_, ?_, ?_⟩
  · intro r r' p p' hp hp' heq
    rw [hslot] at hp hp'
    split at hp <;> split at hp'
    · rename_i hr hr'
      rw [hr, hr']
    · rename_i hr hr'
      exact absurd (halone r' p' hp' (heq.symm.trans (hrecord p hp))) hr'
    · rename_i hr hr'
      exact absurd (halone r p hp (heq.trans (hrecord p' hp'))) hr
    · exact h.distinct r r' p p' hp hp' heq
  · intro r p hp
    rw [hslot] at hp
    split at hp
    · rw [hp] at hself
      rw [hrecord p hp, hat, ← hself]
      rfl
    · rename_i hr
      rw [hne _ fun heq => hr (halone r p hp heq), h.owed r p hp, hothers r p hp hr]
  · intro k hk
    by_cases hkd : k = d.record
    · -- nothing is owed for the record: the slot is empty
      have hnone : slot = none := by
        refine Option.eq_none_iff_forall_ne_some.mpr fun d' hd' => ?_
        refine hk d.row d' ?_ ((hrecord d' hd').trans hkd.symm)
        rw [hslot, if_pos rfl, hd']
      rw [hkd, hat, ← hself, hnone]
      rfl
    · rw [hne k hkd]
      refine hrest k hkd fun r p hp hr => hk r p ?_
      rw [hslot, if_neg hr, hp]

variable {c : Conflator κ} {view : View κ}
  (h : Owes sparse c.pending (view.receive sparse c.ready) direct)
include h

theorem Owes.submit (hd : Fits sparse c (view.receive sparse c.ready) d) :
    Owes sparse (c.submit d).pending (view.receive sparse (c.submit d).ready)
      ((d.update sparse).apply direct) := by
  obtain ⟨slot, hslot, hcases⟩ := c.submit_cases d
  have hother : ∀ r p, c.pending.lookup r = some p → r ≠ d.row → p.record ≠ d.record :=
    fun r p hp hr heq => hr (hd.alone r p hp heq)
  rcases hcases with ⟨hnone, rfl, hready⟩ | ⟨prev, hprev, hcases⟩
  · -- nothing pending at the slot
    have hempty : ∀ k prev, c.pending.lookup d.row = some prev → prev.record ≠ k := by
      intro k prev hp
      rw [hnone] at hp
      cases hp
    rw [hready]
    refine h.replace hslot hd.alone ?_ ?_ (fun _ _ _ _ => rfl) fun k _ => h.slot d.row (hempty k)
    · rintro d' ⟨⟩
      rfl
    · rw [h.slot d.row (hempty _) hother]
      rfl
  have hat : ∀ k, prev.record ≠ k → ∀ p, c.pending.lookup d.row = some p → p.record ≠ k := by
    intro k hk p hp
    rw [hprev] at hp
    cases hp
    exact hk
  rcases hcases with ⟨hremove, hadd, rfl, hready⟩ | ⟨hreuse, rfl, hready⟩
  · -- the removal is sent first, the entry becomes pending
    have hsent : view.receive sparse (c.ready ++ [prev]) =
        (prev.update sparse).apply (view.receive sparse c.ready) := by
      simp [View.receive, PointUpdate.applyAll_append]
    have hevicts : ∀ old, prev.change sparse old = none := by
      intro old
      simp [RecordDelta.change, hremove]
    rw [hready, hsent]
    refine h.replace hslot hd.alone ?_ ?_ ?_ ?_
    · rintro d' ⟨⟩
      rfl
    · simp [changeAll, RecordDelta.change, hadd]
    · intro r p hp hr
      exact PointUpdate.apply_of_ne _ fun heq => hr (h.distinct r d.row p prev hp hprev heq)
    · intro k _ hk
      by_cases hkp : k = prev.record
      · have hself := PointUpdate.apply_self (view.receive sparse c.ready) (prev.update sparse)
        rw [hkp, h.owed _ _ hprev, hevicts]
        exact (hself.trans (hevicts _)).symm
      · rw [h.slot d.row (hat k (Ne.symm hkp)) hk]
        exact (PointUpdate.apply_of_ne _ hkp).symm
  · -- the two deltas are merged
    have hmerges := (hd.merges prev hprev).resolve_left hreuse
    have hrecord := hmerges.1
    rw [hready]
    refine h.replace hslot hd.alone (fun d' hd' => (merge_keeps hd').2) ?_ (fun _ _ _ _ => rfl) ?_
    · rw [merge_change hmerges, ← hrecord, h.owed _ _ hprev]
    · intro k hkd hk
      exact h.slot d.row (hat k (hrecord ▸ Ne.symm hkd)) hk

/-- **Draining** settles the accounts, in whatever order the slots come. -/
theorem Owes.drain {order : List Nat}
    (horder : order.Perm c.pending.keys) : view.receive sparse (c.drain order) = direct := by
  have hsplit : view.receive sparse (c.drain order) =
      (view.receive sparse c.ready).receive sparse (order.filterMap c.pending.lookup) := by
    simp [View.receive, Conflator.drain, PointUpdate.applyAll_append]
  have hnodup : order.Nodup := horder.nodup_iff.mpr c.pending.keys_nodup
  have hpair : ((order.filterMap c.pending.lookup).map (RecordDelta.update sparse)).Pairwise
      fun u u' => u.place ≠ u'.place := by
    rw [pairwise_map, pairwise_filterMap]
    refine hnodup.imp ?_
    intro r r' hr p hp p' hp' heq
    exact hr (h.distinct r r' p p' hp hp' heq)
  rw [hsplit]
  funext k
  by_cases hk : ∃ r p, c.pending.lookup r = some p ∧ p.record = k
  · obtain ⟨r, p, hp, rfl⟩ := hk
    have hr : r ∈ order := by
      rw [horder.mem_iff, ← AList.mem_keys, ← AList.lookup_isSome, hp]
      rfl
    have hmem : p.update sparse ∈
        (order.filterMap c.pending.lookup).map (RecordDelta.update sparse) :=
      mem_map_of_mem (mem_filterMap.mpr ⟨r, hr, hp⟩)
    rw [h.owed r p hp]
    exact PointUpdate.applyAll_of_mem hpair hmem _
  · have hnot : ∀ r p, c.pending.lookup r = some p → p.record ≠ k :=
      fun r p hp heq => hk ⟨r, p, hp, heq⟩
    rw [h.rest k hnot]
    refine PointUpdate.applyAll_of_ne ?_ _
    intro u hu heq
    obtain ⟨p, hp, rfl⟩ := mem_map.mp hu
    obtain ⟨r, -, hr⟩ := mem_filterMap.mp hp
    exact hnot r p hr heq.symm

end Owes

/-! ## A conflated subscription -/

/-- `direct` is what a consumer of every delta has; `shown` is how a slot was last shown. -/
structure State (σ : Schema) where
  sub : Subscription σ
  shown : Nat → Option String
  outbox : List (RecordDelta (Option String))
  conflator : Conflator (Option String)
  view : View (Option String)
  direct : View (Option String)

def State.start (sub : Subscription σ) (shown : Nat → Option String)
    (view : View (Option String)) : State σ :=
  ⟨sub, shown, [], .empty, view, view⟩

inductive Move (σ : Schema) where
  /-- The evaluator takes an event, with the store as it is then. -/
  | event (row sequence : Nat) (kind : MutationKind) (store : ColumnStore σ)
  /-- Delivery submits the next delta of the event. -/
  | submit
  | drain (order : List Nat)

section System
variable [HostText]

/-- The record a delta is about: the group of its row for an aggregate, else the
record its slot holds, or the one it was shown as if the slot is out of view. -/
def recordOf (cfg : TopicConfig) (sub : Subscription σ) (store : ColumnStore σ)
    (shown : Nat → Option String) (d : Delta) : Option String :=
  if sub.aggregate.isSome then
    some (groupKeyCanonical d.rowData (sub.query.groupBy.map σ.columnName))
  else match d.deltaType with
    | .add | .update => StoreState.recordKey (cfg.keyColIndices σ) (store.row d.row)
    | .remove | .oof => shown d.row

/-- The deltas of an event with their records, and the records shown since. -/
def labelDeltas (cfg : TopicConfig) (sub : Subscription σ) (store : ColumnStore σ) :
    (Nat → Option String) → List Delta → (Nat → Option String) × List (RecordDelta (Option String))
  | shown, [] => (shown, [])
  | shown, d :: ds =>
    let record := recordOf cfg sub store shown d
    let rest := labelDeltas cfg sub store (Function.update shown d.row record) ds
    (rest.1, ⟨record, d⟩ :: rest.2)

variable [AggregateExec σ]

/-- One step; the evaluator delivers the deltas of one event before the next. -/
def step (cfg : TopicConfig) (sparse : Bool) (s : State σ) : Move σ → Option (State σ)
  | .event row sequence kind store =>
    match s.outbox with
    | _ :: _ => none
    | [] =>
      let o := s.sub.evaluate row sequence kind store
      let l := labelDeltas cfg s.sub store s.shown o.2
      some { s with sub := o.1, shown := l.1, outbox := l.2 }
  | .submit =>
    match s.outbox with
    | [] => none
    | d :: rest =>
      some { s with
        outbox := rest
        conflator := s.conflator.submit d
        direct := s.direct.receive sparse [d] }
  | .drain order =>
    if order.isPerm s.conflator.pending.keys then
      some { s with
        conflator := .empty
        view := s.view.receive sparse (s.conflator.drain order) }
    else none

/-- The condition on a step: a submitted delta fits what is held back. -/
def Ok (sparse : Bool) (s : State σ) : Move σ → Prop
  | .submit => ∀ d rest, s.outbox = d :: rest →
      Fits sparse s.conflator (s.view.receive sparse s.conflator.ready) d
  | _ => True

/-- The invariant: what is held back is the difference of the two consumers. -/
def Inv (sparse : Bool) (s : State σ) : Prop :=
  Owes sparse s.conflator.pending (s.view.receive sparse s.conflator.ready) s.direct

theorem Inv.step {cfg : TopicConfig} {sparse : Bool} {s s' : State σ} {m : Move σ}
    (h : Inv sparse s) (hok : Ok sparse s m) (hstep : step cfg sparse s m = some s') :
    Inv sparse s' := by
  cases m with
  | event row sequence kind store =>
    simp only [Conflation.step] at hstep
    split at hstep
    · cases hstep
    · cases hstep
      exact h
  | submit =>
    simp only [Conflation.step] at hstep
    split at hstep
    · cases hstep
    rename_i d rest hout
    cases hstep
    exact Owes.submit h (hok d rest hout)
  | drain order =>
    obtain ⟨horder, rfl⟩ := of_guard hstep
    have hview := Owes.drain h (isPerm_iff.mp horder)
    rw [hview]
    exact Owes.empty _

/-- **Conflation preserves the final view**: whenever nothing is held back, the
consumer of the drained deltas has the records of a consumer of every delta. -/
theorem conflated_view_final {cfg : TopicConfig} {sub : Subscription σ}
    {shown : Nat → Option String} {view : View (Option String)} {moves : List (Move σ)}
    {s : State σ}
    (hrun : Run (step cfg sub.sparse) (Ok sub.sparse) (State.start sub shown view) moves s)
    (hempty : s.conflator.isEmpty = true) : s.view = s.direct := by
  have hinv : Inv sub.sparse s :=
    hrun.invariant (fun _ _ _ h hok hstep => h.step hok hstep) (Owes.empty view)
  obtain ⟨hkeys, hready⟩ := Bool.and_eq_true_iff.mp hempty
  have hperm : ([] : List Nat).Perm s.conflator.pending.keys := by
    rw [isEmpty_iff.mp hkeys]
  have hdrain := Owes.drain hinv hperm
  rw [← hdrain]
  simp [Conflator.drain, isEmpty_iff.mp hready, View.receive]

end System

/-! ## Two runs -/

section Quotes
open Quotes

open Unused

/-- `SELECT * … WHERE bid = 10`. -/
def atTen : ParsedQuery Quotes.schema where
  predicate := ⟨fun r => r.cells bid = .long 10, .column bid⟩

def inView : Topic Quotes.schema :=
  (upsertMap config 0 true (Topic.new schema) (full "A" 10 11)).topic
def outOfView : Topic Quotes.schema := (upsertMap config 1 true inView (full "A" 20 11)).topic
def deleted : Topic Quotes.schema := (delete config true inView "A").topic

def watching : State Quotes.schema :=
  .start (subscribed config inView "s" atTen {})
    (fun r => StoreState.recordKey (config.keyColIndices schema) (inView.state.row r))
    fun k => if k = some "A" then some (projectRow atTen (inView.state.row 0)).get? else none

/-- The quote goes out of view, comes back and is deleted. -/
def outAndBack (flush : List (Move Quotes.schema)) : List (Move Quotes.schema) :=
  [.event 0 2 .upsert outOfView.state.store, .submit] ++ flush ++
    [.event 0 3 .upsert inView.state.store, .submit, .event 0 4 .delete deleted.state.store, .submit,
      .drain []]

/-- A check of `Ok` for a subscription that is not sparse. -/
def okFull (s : State Quotes.schema) : Move Quotes.schema → Bool
  | .submit => s.outbox.all fun d =>
    (s.conflator.pending.entries.all fun e => e.2.record ≠ d.record || e.1 = d.row) &&
      (s.conflator.pending.lookup d.row).all fun prev =>
        prev.type = .remove && d.type = .add || prev.record = d.record &&
          (prev.type ≠ .add || d.type ≠ .remove ||
            (s.view.receive false s.conflator.ready d.record).isNone)
  | _ => true

theorem okFull_ok (s : State Quotes.schema) (m : Move Quotes.schema) (h : okFull s m = true) :
    Ok false s m := by
  cases m with
  | event _ _ _ _ | drain _ => trivial
  | submit =>
    intro d rest hout
    have hd := all_eq_true.mp h d (by simp [hout])
    obtain ⟨halone, hmerges⟩ := Bool.and_eq_true_iff.mp hd
    refine ⟨?_, ?_⟩
    · intro r p hp hrec
      have he := all_eq_true.mp halone ⟨r, p⟩ (mem_lookup_iff.mp hp)
      simpa [hrec] using he
    · intro prev hprev
      rw [hprev] at hmerges
      simp only [Option.all_some, Bool.or_eq_true, Bool.and_eq_true, decide_eq_true_eq,
        Option.isNone_iff_eq_none] at hmerges
      refine hmerges.imp id fun hm => ⟨hm.1, fun hp hn => ?_, nofun⟩
      exact hm.2.resolve_left fun hor => hor.elim (fun h => h hp) (fun h => h hn)

theorem conflated_view_final_flushed : ∃ s,
    Run (step config watching.sub.sparse) (Ok watching.sub.sparse) watching
      (outAndBack [.drain [0]]) s ∧ s.view = s.direct := by
  have hsub : watching.sub.sparse = false := by decide +kernel
  refine Run.exists_of_check_with okFull (hsub ▸ okFull_ok) (fun s => s.conflator.isEmpty)
    (by decide +kernel) fun s hrun hempty => ?_
  exact conflated_view_final hrun hempty

/-- Without a flush in between, the eviction is overwritten by the entry, and the
entry is cancelled by the removal: the consumer is sent nothing and keeps the
quote. -/
theorem eviction_cancelled : ∃ s,
    Run (step config watching.sub.sparse) (fun _ _ => True) watching (outAndBack []) s ∧
      s.conflator.isEmpty = true ∧ s.view (some "A") ≠ none ∧ s.direct (some "A") = none := by
  decide +kernel

end Quotes

end CqServer.Conflation
