import CqServer.Subscription.ActiveSet

/-!
# The cap on the active set

`subscribe_with_cap` bounds the rows a subscription may hold. The scan that seeds the set and
the row-oriented evaluator close the subscription instead of passing the cap; `evaluate_topn`
inserts without looking at it (`topn_passes_cap`).
-/

namespace CqServer.Cap

open Subscription

variable {σ : Schema}

section
variable [HostText] [AggregateExec σ]

structure Event (σ : Schema) where
  row : Nat
  sequence : Nat
  kind : MutationKind
  store : ColumnStore σ

def evaluate (sub : Subscription σ) (ev : Event σ) : Subscription σ × List Delta :=
  sub.evaluate ev.row ev.sequence ev.kind ev.store

def after (sub : Subscription σ) (events : List (Event σ)) : Subscription σ :=
  events.foldl (fun sub ev => (evaluate sub ev).1) sub

def subscribe (id : String) (q : ParsedQuery σ) (liveStart c : Nat) (sparse : Bool)
    (keyCols : List σ.Col) (store : ColumnStore σ) : Subscription σ :=
  { new id q liveStart with
    maxActive := some c
    sparse := sparse
    keyCols := keyCols }.seedActiveSet store

/-- The rows that satisfy the query's condition when the subscription is made, or in one of its
events. -/
def matched (q : ParsedQuery σ) (store : ColumnStore σ) (events : List (Event σ)) : Finset Nat :=
  ((Finset.range store.rowCount).filter fun r => q.predicate.holds (store.row r)) ∪
    ((events.filter fun ev => q.predicate.holds (ev.store.row ev.row)).map Event.row).toFinset

structure Capped (c : Nat) (sub : Subscription σ) : Prop where
  noAggregate : sub.aggregate = none
  cap : sub.maxActive = some c

variable {c : Nat} {sub : Subscription σ}

omit [HostText] [AggregateExec σ] in
theorem Capped.insert_le (h : Capped c sub) (row : Nat)
    (hroom : ¬ (sub.maxActive.any fun cap => cap ≤ sub.activeSet.card) = true) :
    (insert row sub.activeSet).card ≤ c := by
  simp only [h.cap, Option.any_some, decide_eq_true_eq, not_le] at hroom
  exact (Finset.card_insert_le ..).trans hroom

omit [HostText] [AggregateExec σ] in
theorem Capped.seedRows (h : Capped c sub) (hle : sub.activeSet.card ≤ c) (store : ColumnStore σ)
    (rows : List Nat) :
    let o := sub.seedRows store rows
    Capped c o ∧ o.query = sub.query ∧ o.activeSet.card ≤ c ∧
      ∀ r ∈ o.activeSet, r ∈ sub.activeSet ∨
        r ∈ rows ∧ sub.query.predicate.holds (store.row r) = true := by
  induction rows generalizing sub with
  | nil => exact ⟨{ h with }, rfl, hle, fun r hr => .inl hr⟩
  | cons row rows ih =>
    dsimp only
    rw [seedRows]
    split
    · rename_i hholds
      split
      · exact ⟨{ h with }, rfl, hle, fun r hr => .inl hr⟩
      · rename_i hroom
        obtain ⟨hcapped, hquery, hcard, hmem⟩ :=
          @ih (sub.seedRow row store) { h with } (h.insert_le row hroom)
        refine ⟨hcapped, hquery, hcard, fun r hr => ?_⟩
        rcases hmem r hr with hold | ⟨hrow, hr⟩
        · rcases Finset.mem_insert.mp hold with rfl | hold
          · exact .inr ⟨List.mem_cons_self, hholds⟩
          · exact .inl hold
        · exact .inr ⟨List.mem_cons_of_mem _ hrow, hr⟩
    · obtain ⟨hcapped, hquery, hcard, hmem⟩ := ih h hle
      refine ⟨hcapped, hquery, hcard, fun r hr => (hmem r hr).imp_right ?_⟩
      exact fun hrow => ⟨List.mem_cons_of_mem _ hrow.1, hrow.2⟩

/-- What an event may do to a subscription: if it is closed afterwards nothing was emitted, and no
row enters but the event's own, if it matches. -/
structure Kept (c : Nat) (sub : Subscription σ) (row : Nat) (store : ColumnStore σ)
    (o : Subscription σ × List Delta) : Prop where
  capped : Capped c o.1
  query : o.1.query = sub.query
  closed : sub.closed = true → o.1.closed = true
  quiet : o.1.closed = true → o.2 = []
  entered : ∀ r ∈ o.1.activeSet, r ∈ sub.activeSet ∨
    r = row ∧ sub.query.predicate.holds (store.row row) = true

omit [HostText] [AggregateExec σ] in
theorem Kept.refl (h : Capped c sub) (row : Nat) (store : ColumnStore σ) :
    Kept c sub row store (sub, []) :=
  ⟨h, rfl, id, fun _ => rfl, fun _ hr => .inl hr⟩

omit [AggregateExec σ] in
/-- A row that would pass the cap closes the subscription, without a delta. -/
theorem Capped.evaluateRow (h : Capped c sub) (hopen : sub.closed = false) (row sequence : Nat)
    (kind : MutationKind) (store : ColumnStore σ) :
    let o := sub.evaluateRow row sequence kind store
    Kept c sub row store o ∧ (sub.activeSet.card ≤ c → o.1.activeSet.card ≤ c) := by
  dsimp only
  unfold Subscription.evaluateRow
  split
  · rename_i hmatches
    have hholds := (Bool.and_eq_true_iff.mp hmatches).2
    split
    · unfold Subscription.stay
      dsimp only
      split <;> exact ⟨⟨{ h with }, rfl, id, by simp [hopen], fun _ hr => .inl hr⟩, id⟩
    · unfold Subscription.enter
      dsimp only
      split
      · exact ⟨⟨{ h with }, rfl, fun _ => rfl, fun _ => rfl, fun _ hr => .inl hr⟩, id⟩
      · rename_i hroom
        refine ⟨⟨{ h with }, rfl, id, by simp [hopen], fun r hr => ?_⟩, fun _ => h.insert_le row hroom⟩
        exact (Finset.mem_insert.mp hr).symm.imp_right fun heq => ⟨heq, hholds⟩
  · split
    · refine ⟨⟨{ h with }, rfl, id, by simp [Subscription.leave, hopen], fun r hr => ?_⟩,
        Finset.card_erase_le.trans⟩
      exact .inl (Finset.mem_of_mem_erase hr)
    · exact ⟨.refl h row store, id⟩

/-- **One event**; without a positive LIMIT it keeps the cap. -/
theorem Capped.evaluate (h : Capped c sub) (ev : Event σ) :
    let o := Cap.evaluate sub ev
    Kept c sub ev.row ev.store o ∧
      (sub.query.limit.getD 0 = 0 → sub.activeSet.card ≤ c → o.1.activeSet.card ≤ c) := by
  unfold Cap.evaluate Subscription.evaluate
  by_cases hlistens : sub.listens ev.sequence = true
  · have hopen : sub.closed = false := by
      simp only [Subscription.listens, Bool.and_eq_true, Bool.not_eq_true'] at hlistens
      exact hlistens.1
    rw [if_pos hlistens, h.noAggregate]
    cases sub.topn with
    | none =>
      obtain ⟨hkept, hle⟩ := h.evaluateRow hopen ev.row ev.sequence ev.kind ev.store
      exact ⟨hkept, fun _ => hle⟩
    | some top =>
      unfold Subscription.evaluateTopn
      dsimp only
      split
      · exact ⟨.refl h ev.row ev.store, fun _ => id⟩
      · rename_i hlimit
        refine ⟨⟨{ h with }, rfl, id, by simp [hopen], fun r hr => ?_⟩, fun hno => absurd hno hlimit⟩
        -- `evaluate_topn` inserts the row without looking at the cap
        dsimp only at hr
        split at hr
        · rename_i hholds
          exact (Finset.mem_insert.mp hr).symm.imp_right fun heq => ⟨heq, hholds⟩
        · exact .inl (Finset.mem_of_mem_erase hr)
  · rw [if_neg hlistens]
    exact ⟨.refl h ev.row ev.store, fun _ => id⟩

theorem after_concat (sub : Subscription σ) (events : List (Event σ)) (ev : Event σ) :
    after sub (events ++ [ev]) = (evaluate (after sub events) ev).1 := by
  simp [after]

theorem Capped.after (h : Capped c sub) (events : List (Event σ)) :
    let o := after sub events
    Capped c o ∧ o.query = sub.query ∧ (sub.closed = true → o.closed = true) ∧
      (sub.query.limit.getD 0 = 0 → sub.activeSet.card ≤ c → o.activeSet.card ≤ c) ∧
      ∀ r ∈ o.activeSet, r ∈ sub.activeSet ∨
        ∃ ev ∈ events, r = ev.row ∧ sub.query.predicate.holds (ev.store.row ev.row) = true := by
  induction events using List.reverseRecOn with
  | nil => exact ⟨h, rfl, id, fun _ => id, fun r hr => .inl hr⟩
  | append_singleton events ev ih =>
    obtain ⟨hcapped, hquery, hclosed, hcard, hmem⟩ := ih
    obtain ⟨hkept, hle⟩ := hcapped.evaluate ev
    dsimp only
    rw [after_concat]
    refine ⟨hkept.capped, hkept.query.trans hquery, hkept.closed ∘ hclosed, ?_, ?_⟩
    · intro hlimit hsub
      exact hle (hquery ▸ hlimit) (hcard hlimit hsub)
    · intro r hr
      rcases hkept.entered r hr with hold | ⟨rfl, hholds⟩
      · refine (hmem r hold).imp_right ?_
        rintro ⟨ev', hev', hr'⟩
        exact ⟨ev', List.mem_append_left _ hev', hr'⟩
      · rw [hquery] at hholds
        exact .inr ⟨ev, List.mem_append_right _ (List.mem_singleton_self ev), rfl, hholds⟩

/-- **The cap**: a capped subscription holds at most `c` rows after every event, if its query has
no positive LIMIT or no more than `c` different rows match at the start or in an event. Once it is
closed it stays closed, and the event that closes it and all later ones emit nothing. -/
theorem capped (id : String) (q : ParsedQuery σ) (liveStart c : Nat) (sparse : Bool)
    (keyCols : List σ.Col) (store : ColumnStore σ) (events : List (Event σ)) :
    let sub := subscribe id q liveStart c sparse keyCols store
    (q.limit.getD 0 = 0 ∨ (matched q store events).card ≤ c →
      ∀ n, (after sub (events.take n)).activeSet.card ≤ c) ∧
    (∀ m n, m ≤ n → (after sub (events.take m)).closed = true →
      (after sub (events.take n)).closed = true) ∧
    ∀ n ev, events[n]? = some ev → (after sub (events.take (n + 1))).closed = true →
      (evaluate (after sub (events.take n)) ev).2 = [] := by
  intro sub
  obtain ⟨hcapped, hquery, hseed, hseeded⟩ : Capped c sub ∧ sub.query = q ∧ _ :=
    Capped.seedRows ⟨rfl, rfl⟩ (Nat.zero_le c) store _
  refine ⟨fun hroom n => ?_, fun m n hmn hclosed => ?_, fun n ev hev hclosed => ?_⟩
  · obtain ⟨-, -, -, hcard, hmem⟩ := hcapped.after (events.take n)
    rw [hquery] at hcard hmem
    rcases hroom with hlimit | hfew
    · exact hcard hlimit hseed
    · refine (Finset.card_le_card fun r hr => ?_).trans hfew
      rw [matched, Finset.mem_union]
      rcases hmem r hr with hr | ⟨ev, hev, rfl, hholds⟩
      · rcases hseeded r hr with hr | ⟨hr, hholds⟩
        · exact absurd hr (Finset.notMem_empty r)
        · exact .inl (Finset.mem_filter.mpr ⟨Finset.mem_range.mpr (List.mem_range.mp hr), hholds⟩)
      · refine .inr (List.mem_toFinset.mpr (List.mem_map_of_mem ?_))
        exact List.mem_filter.mpr ⟨List.mem_of_mem_take hev, hholds⟩
  · have hsplit : events.take n = events.take m ++ (events.drop m).take (n - m) := by
      rw [← List.take_add, Nat.add_sub_cancel' hmn]
    have hafter : after sub (events.take n) =
        after (after sub (events.take m)) ((events.drop m).take (n - m)) := by
      rw [hsplit, after, List.foldl_append]
      rfl
    rw [hafter]
    exact ((hcapped.after _).1.after _).2.2.1 hclosed
  · rw [List.take_add_one, hev, Option.toList_some, after_concat] at hclosed
    exact ((hcapped.after _).1.evaluate ev).1.quiet hclosed

end

/-! ## A TOP-N subscription -/

open Quotes Unused

def published (row : Nat) (ws : List Write) : Event schema :=
  ⟨row, row + 1, .upsert, (Quotes.after ws).state.store⟩

/-- Two publishes of one quote, the second of which could pass a cap of one. -/
theorem capped_republished :
    let q : ParsedQuery schema := { everything with limit := some 5 }
    let events := [published 0 [.upsert 0 true (full "A" 1 2)],
      published 0 [.upsert 0 true (full "A" 1 2), .upsert 1 true (full "A" 3 4)]]
    let sub := subscribe "s" q 0 1 false [] (Quotes.after []).state.store
    matched q (Quotes.after []).state.store events = {0} ∧ (after sub events).activeSet = {0} ∧
      ∀ n, (after sub (events.take n)).activeSet.card ≤ 1 := by
  intro q events sub
  have hmatched : matched q (Quotes.after []).state.store events = {0} := by decide +kernel
  refine ⟨hmatched, by decide +kernel, ?_⟩
  refine (capped "s" q 0 1 false [] (Quotes.after []).state.store events).1 (.inr ?_)
  rw [hmatched]
  decide

/-- Under a cap of one, `SELECT * … LIMIT 5` takes in both of two quotes. -/
theorem topn_passes_cap :
    let sub := subscribe "s" { everything with limit := some 5 } 0 1 false [] (Quotes.after []).state.store
    (after sub [published 0 [.upsert 0 true (full "A" 1 2)],
      published 1 [.upsert 0 true (full "A" 1 2), .upsert 1 true (full "B" 1 2)]]).activeSet =
        {0, 1} := by
  decide +kernel

end CqServer.Cap
