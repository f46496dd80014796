import CqServer.Subscription.Engine

/-!
# Fan-out of one event over the subscriptions

The engine runs an event over every subscription, or, for a delta publish, over
those the predicate index names (`Dispatched`). The index looks at predicates
only, while a full evaluation also reports a row that merely stays in view.
-/

namespace CqServer

open Lib List AList

variable {σ : Schema}

/-! ## What an evaluation keeps and emits -/

/-- The same registration: its id, its query and where its live events start. -/
structure Subscription.SameIdentity (sub sub' : Subscription σ) : Prop where
  id : sub'.id = sub.id
  query : sub'.query = sub.query
  liveStart : sub'.liveStartSequence = sub.liveStartSequence

theorem Subscription.SameIdentity.refl (sub : Subscription σ) : sub.SameIdentity sub :=
  ⟨rfl, rfl, rfl⟩

theorem Subscription.SameIdentity.trans {sub sub' sub'' : Subscription σ}
    (h : sub.SameIdentity sub') (h' : sub'.SameIdentity sub'') : sub.SameIdentity sub'' :=
  ⟨h'.id.trans h.id, h'.query.trans h.query, h'.liveStart.trans h.liveStart⟩

theorem Subscription.seedRows_keeps (store : ColumnStore σ) (rows : List Nat)
    (sub : Subscription σ) : sub.SameIdentity (sub.seedRows store rows) := by
  induction rows generalizing sub with
  | nil => exact ⟨rfl, rfl, rfl⟩
  | cons row rows ih =>
    rw [seedRows]
    split
    · split
      · exact ⟨rfl, rfl, rfl⟩
      · have hrow : sub.SameIdentity (sub.seedRow row store) := ⟨rfl, rfl, rfl⟩
        exact hrow.trans (ih _)
    · exact ih sub

/-- An evaluation keeps the registration and addresses its deltas to it. -/
structure Subscription.Keeps (sub : Subscription σ) (o : Subscription σ × List Delta) : Prop
    extends sub.SameIdentity o.1 where
  addressed : ∀ d ∈ o.2, d.subscriptionId = sub.id

theorem Subscription.Keeps.nothing (sub : Subscription σ) : sub.Keeps (sub, []) :=
  ⟨.refl sub, by simp⟩

theorem Subscription.listens_iff {sub : Subscription σ} (h : sub.closed = false) {sequence : Nat} :
    sub.listens sequence ↔ sub.liveStartSequence ≤ sequence := by
  simp [listens, h]

section Shape
variable [HostText] (sub : Subscription σ) (row sequence : Nat) (kind : MutationKind)
  (store : ColumnStore σ)

theorem Subscription.evaluateRow_keeps :
    sub.Keeps (sub.evaluateRow row sequence kind store) := by
  unfold evaluateRow
  split
  · split
    · unfold stay
      dsimp only
      split
      · refine ⟨⟨rfl, rfl, rfl⟩, ?_⟩
        split <;> simp [delta]
      · exact ⟨.refl sub, by simp [delta]⟩
    · unfold enter
      split
      · exact ⟨⟨rfl, rfl, rfl⟩, by simp⟩
      · exact ⟨⟨rfl, rfl, rfl⟩, by simp [delta]⟩
  · split
    · exact ⟨⟨rfl, rfl, rfl⟩, by simp [leave, delta]⟩
    · exact .nothing sub

theorem Subscription.evaluateTopn_keeps (top : TopNState) :
    sub.Keeps (sub.evaluateTopn top row sequence store) := by
  unfold evaluateTopn
  dsimp only
  split
  · exact .nothing sub
  refine ⟨⟨rfl, rfl, rfl⟩, ?_⟩
  intro d hd
  simp only [mem_append, mem_map] at hd
  rcases hd with (⟨r, -, rfl⟩ | ⟨r, -, rfl⟩) | hd
  · rfl
  · rfl
  · obtain ⟨-, hd⟩ := mem_ite_nil_right.mp hd
    rw [mem_singleton.mp hd]
    rfl

variable [AggregateExec σ]

theorem Subscription.evaluateAggregating_keeps (agg : AggregateSubState) :
    sub.Keeps (sub.evaluateAggregating agg row sequence kind store) := by
  have haddr : ∀ (gs : List (DeltaType × JsonMap)),
      ∀ d ∈ gs.map (fun g => sub.delta sequence g.1 0 g.2), d.subscriptionId = sub.id := by
    intro gs d hd
    obtain ⟨g, -, rfl⟩ := mem_map.mp hd
    rfl
  unfold evaluateAggregating
  split
  · exact ⟨⟨rfl, rfl, rfl⟩, haddr _⟩
  unfold evaluateAggregatingIncremental
  dsimp only
  split
  · exact .nothing sub
  · exact ⟨⟨rfl, rfl, rfl⟩, haddr _⟩

theorem Subscription.evaluate_keeps :
    sub.Keeps (sub.evaluate row sequence kind store) := by
  unfold evaluate
  split
  · cases sub.aggregate with
    | some agg => exact sub.evaluateAggregating_keeps row sequence kind store agg
    | none =>
      cases sub.topn with
      | some top => exact sub.evaluateTopn_keeps row sequence store top
      | none => exact sub.evaluateRow_keeps row sequence kind store
  · exact .nothing sub

theorem Subscription.evaluate_eq_row {sub : Subscription σ} {sequence : Nat}
    (hl : sub.listens sequence) (htopn : sub.topn = none) (hagg : sub.aggregate = none) :
    sub.evaluate row sequence kind store = sub.evaluateRow row sequence kind store := by
  simp [evaluate, hl, hagg, htopn]

end Shape

/-! ## The engine -/

structure SubscriptionEngine (σ : Schema) where
  subscriptions : AList (fun _ : String => Subscription σ)
  predicateIndex : PredicateIndex σ
  id_eq : ∀ {id sub}, subscriptions.lookup id = some sub → sub.id = id
  synced : ∀ id, predicateIndex.subToCols.lookup id =
    (subscriptions.lookup id).map fun sub => sub.query.predicate.referencedColumns

namespace SubscriptionEngine

/-- `SubscriptionEngine::new`. -/
def empty : SubscriptionEngine σ where
  subscriptions := ∅
  predicateIndex := .empty
  id_eq h := by simp at h
  synced id := by simp [PredicateIndex.empty]

variable (e : SubscriptionEngine σ)

def add (sub : Subscription σ) : SubscriptionEngine σ where
  subscriptions := e.subscriptions.insert sub.id sub
  predicateIndex := e.predicateIndex.add sub.id sub.query.predicate
  id_eq h := by
    rcases lookup_insert_some h with ⟨rfl, rfl⟩ | h
    · rfl
    · exact e.id_eq h
  synced id := by
    rw [PredicateIndex.lookup_add, lookup_insert_ite]
    split
    · rfl
    · exact e.synced id

def remove (id : String) : SubscriptionEngine σ where
  subscriptions := e.subscriptions.erase id
  predicateIndex := e.predicateIndex.remove id
  id_eq h := e.id_eq (lookup_erase_some h).2
  synced id' := by
    rw [PredicateIndex.lookup_remove, lookup_erase_ite]
    split
    · rfl
    · exact e.synced id'

theorem lookup_remove (id' id : String) : (e.remove id').subscriptions.lookup id =
      if id = id' then none else e.subscriptions.lookup id := lookup_erase_ite

/-- Store back a registered subscription whose id and query are unchanged. -/
def put (id : String) (old new : Subscription σ) (hold : e.subscriptions.lookup id = some old)
    (hid : new.id = old.id) (hq : new.query = old.query) : SubscriptionEngine σ where
  subscriptions := e.subscriptions.insert id new
  predicateIndex := e.predicateIndex
  id_eq h := by
    rcases lookup_insert_some h with ⟨rfl, rfl⟩ | h
    · exact hid.trans (e.id_eq hold)
    · exact e.id_eq h
  synced id' := by
    rw [lookup_insert_ite]
    split
    · rename_i heq
      subst heq
      simp [e.synced, hold, hq]
    · exact e.synced id'

section Evaluate
variable [HostText] [AggregateExec σ]

def evaluateOne (e : SubscriptionEngine σ) (id : String) (row sequence : Nat)
    (kind : MutationKind) (store : ColumnStore σ) : SubscriptionEngine σ × List Delta :=
  match h : e.subscriptions.lookup id with
  | none => (e, [])
  | some sub =>
    let o := sub.evaluate row sequence kind store
    (e.put id sub o.1 h (sub.evaluate_keeps row sequence kind store).id
      (sub.evaluate_keeps row sequence kind store).query, o.2)

def evaluateIds (row sequence : Nat) (kind : MutationKind) (store : ColumnStore σ) :
    List String → SubscriptionEngine σ → SubscriptionEngine σ × List Delta
  | [], e => (e, [])
  | id :: ids, e =>
    let o := e.evaluateOne id row sequence kind store
    let rest := evaluateIds row sequence kind store ids o.1
    (rest.1, o.2 ++ rest.2)

def evaluateRowKindIndexed (e : SubscriptionEngine σ) (row sequence : Nat)
    (store : ColumnStore σ) (kind : MutationKind) (changed : Option (List σ.Col)) :
    SubscriptionEngine σ × List Delta :=
  let ids := match changed with
    | some cols => e.predicateIndex.affected cols
    | none => e.subscriptions.keys
  evaluateIds row sequence kind store ids e

def deltasFor (id : String) (ds : List Delta) : List Delta :=
  ds.filter fun d => d.subscriptionId = id

variable {e : SubscriptionEngine σ} {id : String} {sub : Subscription σ} (row sequence : Nat)
  (kind : MutationKind) (store : ColumnStore σ)

theorem evaluateOne_of_lookup (h : e.subscriptions.lookup id = some sub) :
    (e.evaluateOne id row sequence kind store).1.subscriptions =
      e.subscriptions.insert id (sub.evaluate row sequence kind store).1 ∧
    (e.evaluateOne id row sequence kind store).2 = (sub.evaluate row sequence kind store).2 := by
  unfold evaluateOne
  split
  · rename_i hn
    rw [h] at hn
    cases hn
  · rename_i s hs
    cases hs.symm.trans h
    exact ⟨rfl, rfl⟩

theorem evaluateOne_of_none (h : e.subscriptions.lookup id = none) :
    e.evaluateOne id row sequence kind store = (e, []) := by
  unfold evaluateOne
  split
  · rfl
  · rename_i s hs
    rw [h] at hs
    cases hs

theorem evaluateOne_other {id' : String} (hne : id' ≠ id) :
    (e.evaluateOne id row sequence kind store).1.subscriptions.lookup id' =
        e.subscriptions.lookup id' ∧
      deltasFor id' (e.evaluateOne id row sequence kind store).2 = [] := by
  cases h : e.subscriptions.lookup id with
  | none => simp [evaluateOne_of_none _ _ _ _ h, deltasFor]
  | some sub =>
    obtain ⟨hs, hd⟩ := evaluateOne_of_lookup row sequence kind store h
    rw [hs, hd, lookup_insert_ne hne]
    refine ⟨rfl, filter_eq_nil_iff.mpr ?_⟩
    intro d hmem
    have hdid := (sub.evaluate_keeps row sequence kind store).addressed d hmem
    rw [hdid, e.id_eq h]
    simpa using hne.symm

omit [HostText] in
theorem deltasFor_append (id : String) (ds es : List Delta) :
    deltasFor id (ds ++ es) = deltasFor id ds ++ deltasFor id es := filter_append ..

variable {ids : List String}

theorem evaluateIds_not_mem (h : id ∉ ids) (e : SubscriptionEngine σ) :
    (evaluateIds row sequence kind store ids e).1.subscriptions.lookup id =
        e.subscriptions.lookup id ∧
      deltasFor id (evaluateIds row sequence kind store ids e).2 = [] := by
  induction ids generalizing e with
  | nil => exact ⟨rfl, rfl⟩
  | cons i ids ih =>
    have hi : id ≠ i := ne_of_not_mem_cons h
    have hids : id ∉ ids := not_mem_of_not_mem_cons h
    obtain ⟨hl, hd⟩ := evaluateOne_other row sequence kind store hi
    obtain ⟨hl', hd'⟩ := ih hids (e.evaluateOne i row sequence kind store).1
    exact ⟨hl'.trans hl, by rw [evaluateIds, deltasFor_append, hd, hd']; rfl⟩

theorem evaluateIds_unregistered (h : e.subscriptions.lookup id = none) (ids : List String) :
    (evaluateIds row sequence kind store ids e).1.subscriptions.lookup id = none ∧
      deltasFor id (evaluateIds row sequence kind store ids e).2 = [] := by
  induction ids generalizing e with
  | nil => exact ⟨h, rfl⟩
  | cons i ids ih =>
    by_cases hid : id = i
    · subst hid
      rw [evaluateIds, evaluateOne_of_none _ _ _ _ h]
      exact ih h
    · obtain ⟨hl, hd⟩ := evaluateOne_other row sequence kind store hid
      obtain ⟨hl', hd'⟩ := ih (hl.trans h)
      exact ⟨hl', by rw [evaluateIds, deltasFor_append, hd, hd']; rfl⟩

/-- **One event, one subscription**: a subscription among the evaluated ids
takes exactly its own evaluation. -/
theorem evaluateIds_mem (hnd : ids.Nodup) (h : id ∈ ids)
    (hsub : e.subscriptions.lookup id = some sub) :
    (evaluateIds row sequence kind store ids e).1.subscriptions.lookup id =
        some (sub.evaluate row sequence kind store).1 ∧
      deltasFor id (evaluateIds row sequence kind store ids e).2 =
        (sub.evaluate row sequence kind store).2 := by
  induction ids generalizing e with
  | nil => cases h
  | cons i ids ih =>
    obtain ⟨hi, hnd'⟩ := nodup_cons.mp hnd
    by_cases hid : id = i
    · subst hid
      obtain ⟨hs, hd⟩ := evaluateOne_of_lookup row sequence kind store hsub
      obtain ⟨hl', hd'⟩ := evaluateIds_not_mem row sequence kind store hi
        (e.evaluateOne id row sequence kind store).1
      refine ⟨?_, ?_⟩
      · rw [evaluateIds, hl', hs, lookup_insert]
      · rw [evaluateIds, deltasFor_append, hd', hd, append_nil]
        apply filter_eq_self.mpr
        intro d hmem
        rw [(sub.evaluate_keeps row sequence kind store).addressed d hmem, e.id_eq hsub]
        simp
    · have hmem : id ∈ ids := (mem_cons.mp h).resolve_left hid
      obtain ⟨hl, hd⟩ := evaluateOne_other row sequence kind store hid
      obtain ⟨hl', hd'⟩ := ih hnd' hmem (hl.trans hsub)
      exact ⟨hl', by rw [evaluateIds, deltasFor_append, hd, hd']; rfl⟩

/-- The ids an event is run over reach a registered subscription or not. -/
def Dispatched (changed : Option (List σ.Col)) (sub : Subscription σ) : Prop :=
  ∀ cols, changed = some cols → PredicateIndex.Reaches cols sub.query.predicate.referencedColumns

instance (changed : Option (List σ.Col)) (sub : Subscription σ) :
    Decidable (Dispatched changed sub) :=
  match changed with
  | none => isTrue fun _ h => nomatch h
  | some cols =>
    decidable_of_iff (PredicateIndex.Reaches cols sub.query.predicate.referencedColumns)
      ⟨fun h _ hc => Option.some.inj hc ▸ h, fun h => h cols rfl⟩

/-- **Fan-out, one subscription at a time**: a dispatched subscription takes its
own evaluation, any other one is left as it was. -/
theorem evaluateRowKindIndexed_lookup (hsub : e.subscriptions.lookup id = some sub)
    (row sequence : Nat) (store : ColumnStore σ) (kind : MutationKind)
    (changed : Option (List σ.Col)) :
    (e.evaluateRowKindIndexed row sequence store kind changed).1.subscriptions.lookup id =
        some (if Dispatched changed sub then (sub.evaluate row sequence kind store).1 else sub) ∧
      deltasFor id (e.evaluateRowKindIndexed row sequence store kind changed).2 =
        (if Dispatched changed sub then (sub.evaluate row sequence kind store).2 else []) := by
  cases changed with
  | none =>
    have hmem : id ∈ e.subscriptions := by
      rw [← lookup_isSome, hsub]
      rfl
    exact evaluateIds_mem row sequence kind store e.subscriptions.keys_nodup hmem hsub
  | some cols =>
    have hlook : e.predicateIndex.subToCols.lookup id =
        some sub.query.predicate.referencedColumns := by rw [e.synced, hsub]; rfl
    by_cases hr : PredicateIndex.Reaches cols sub.query.predicate.referencedColumns
    · have hdis : Dispatched (some cols) sub := fun _ h => Option.some.inj h ▸ hr
      rw [if_pos hdis, if_pos hdis]
      exact evaluateIds_mem row sequence kind store (e.predicateIndex.affected_nodup cols)
        ((e.predicateIndex.mem_affected cols id).mpr ⟨_, hlook, hr⟩) hsub
    · have hdis : ¬ Dispatched (some cols) sub := fun h => hr (h cols rfl)
      rw [if_neg hdis, if_neg hdis]
      have hnot : id ∉ e.predicateIndex.affected cols := by
        intro h
        obtain ⟨refs, hrefs, hreach⟩ := (e.predicateIndex.mem_affected cols id).mp h
        rw [hlook, Option.some.injEq] at hrefs
        exact hr (hrefs ▸ hreach)
      rw [← hsub]
      exact evaluateIds_not_mem row sequence kind store hnot e

theorem evaluateRowKindIndexed_unregistered (h : e.subscriptions.lookup id = none)
    (row sequence : Nat) (store : ColumnStore σ) (kind : MutationKind)
    (changed : Option (List σ.Col)) :
    (e.evaluateRowKindIndexed row sequence store kind changed).1.subscriptions.lookup id = none ∧
      deltasFor id (e.evaluateRowKindIndexed row sequence store kind changed).2 = [] :=
  evaluateIds_unregistered row sequence kind store h _

end Evaluate

end SubscriptionEngine

end CqServer
