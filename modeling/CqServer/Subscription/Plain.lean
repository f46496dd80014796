import CqServer.Subscription.Fanout

/-!
# Plain subscriptions

A plain subscription (no LIMIT, no aggregate, not sparse, no cap) keeps nothing
but its active set, so an event has one of two outcomes: the row is shown and
becomes active, or it is out of view and leaves the set, with a delta only if
it was there.
-/

namespace CqServer

variable {σ : Schema}

/-- An open subscription whose only state is its active set. -/
structure Subscription.Plain (sub : Subscription σ) : Prop where
  open_ : sub.closed = false
  notSparse : sub.sparse = false
  noTopn : sub.topn = none
  noAggregate : sub.aggregate = none
  noCap : sub.maxActive = none

namespace Subscription

variable {sub : Subscription σ}

theorem Plain.setActive (h : sub.Plain) (active : Finset Nat) :
    Plain { sub with activeSet := active } :=
  { h with }

section
variable [HostText]

variable {kind : MutationKind} {row : Nat} {store : ColumnStore σ} {sub : Subscription σ}

theorem Plain.evaluateRow_shown (h : sub.Plain) (sequence : Nat)
    (hm : sub.matchesEvent row kind store) :
    sub.evaluateRow row sequence kind store = ({ sub with activeSet := insert row sub.activeSet },
        [sub.delta sequence (if row ∈ sub.activeSet then .update else .add) row
          (projectRow sub.query (store.row row))]) := by
  rw [evaluateRow, if_pos hm]
  by_cases hin : row ∈ sub.activeSet
  · have hfull : ¬ sub.sparse = true := by simp [h.notSparse]
    rw [if_pos hin, if_pos hin, Finset.insert_eq_self.mpr hin]
    unfold stay
    rw [if_neg hfull]
  · simp [hin, enter, h.noCap, h.notSparse]

theorem Plain.evaluateRow_hidden (h : sub.Plain) (sequence : Nat)
    (hm : ¬ sub.matchesEvent row kind store) :
    ∃ ty body, (ty = .remove ∨ ty = .oof) ∧ sub.evaluateRow row sequence kind store =
        ({ sub with activeSet := sub.activeSet.erase row },
          if row ∈ sub.activeSet then [sub.delta sequence ty row body] else []) := by
  refine ⟨if kind = .delete then .remove else .oof,
    if kind = .delete then [] else projectRow sub.query (store.row row), ?_, ?_⟩
  · split
    · exact .inl rfl
    · exact .inr rfl
  · rw [evaluateRow, if_neg hm]
    by_cases hin : row ∈ sub.activeSet
    · simp [hin, leave, h.notSparse]
    · simp [hin]

end

variable (h : sub.Plain) (store : ColumnStore σ)
include h

theorem Plain.seedRows_eq (rows : List Nat) :
    sub.seedRows store rows = { sub with activeSet :=
      sub.activeSet ∪ (rows.filter fun r => sub.query.predicate.holds (store.row r)).toFinset } := by
  induction rows generalizing sub with
  | nil => simp [seedRows, h.noTopn]
  | cons row rows ih =>
    rw [seedRows]
    by_cases hm : sub.query.predicate.holds (store.row row)
    · have hseed : sub.seedRow row store = { sub with activeSet := insert row sub.activeSet } := by
        simp [seedRow, h.notSparse, h.noTopn]
      rw [if_neg (sub.not_full h.noCap), hseed, ih (h.setActive _)]
      simp [hm]
    · rw [ih h]
      simp [hm]

end Subscription

end CqServer
