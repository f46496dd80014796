import CqServer.Subscription.Fanout
import Mathlib.Algebra.Order.BigOperators.Group.Finset

/-!
# Counting subscriptions

A topic keeps `active_subscriptions` beside the engines of its evaluator lanes. Every removal
subtracts what the engines really removed, but a subscription under an id that is registered
replaces the old one and is counted all the same. So the counter is exact as long as no such id is
subscribed again (`counter_exact_iff`); it never falls behind the engines.
-/

namespace CqServer

open List Function

variable {σ : Schema}

namespace SubscriptionEngine

variable (e : SubscriptionEngine σ)

def count : Nat := e.subscriptions.keys.length

def removeWhere (p : String → Bool) : SubscriptionEngine σ × Nat :=
  let toDrop := e.subscriptions.keys.filter p
  (toDrop.foldl remove e, toDrop.length)

def removeByPrefix (start : String) : SubscriptionEngine σ × Nat :=
  e.removeWhere (·.startsWith start)

def reapClosed : SubscriptionEngine σ × Nat :=
  e.removeWhere fun id => (e.subscriptions.lookup id).any (·.closed)

def markClosed (id : String) : SubscriptionEngine σ :=
  match h : e.subscriptions.lookup id with
  | none => e
  | some sub => e.put id sub { sub with closed := true } h rfl rfl

variable {e} {id : String}

theorem count_remove : (e.remove id).count +
    (if (e.subscriptions.lookup id).isSome then 1 else 0) = e.count := by
  unfold SubscriptionEngine.count remove
  rw [AList.keys_erase, length_erase]
  simp only [AList.lookup_isSome, ← AList.mem_keys]
  split
  · have hpos := length_pos_of_mem ‹_›
    omega
  · rfl

theorem count_add (sub : Subscription σ) : (e.add sub).count = (e.remove sub.id).count + 1 := by
  simp [SubscriptionEngine.count, add, remove]

theorem count_markClosed : (e.markClosed id).count = e.count := by
  unfold markClosed
  split
  · rfl
  rename_i sub hsub
  have hcount := @count_remove σ e id
  rw [hsub] at hcount
  simpa [SubscriptionEngine.count, put, remove] using hcount

theorem count_removeWhere (p : String → Bool) :
    (e.removeWhere p).1.count + (e.removeWhere p).2 = e.count := by
  have hall : ∀ ids : List String, ids.Nodup → ∀ e : SubscriptionEngine σ,
      (∀ id ∈ ids, (e.subscriptions.lookup id).isSome) →
      (ids.foldl remove e).count + ids.length = e.count := by
    intro ids hnodup
    induction ids with
    | nil => exact fun _ _ => rfl
    | cons id ids ih =>
      intro e hids
      obtain ⟨hid, hnodup⟩ := nodup_cons.mp hnodup
      obtain ⟨hhere, hids⟩ := forall_mem_cons.mp hids
      have hone := @count_remove σ e id
      have hrest := ih hnodup (e.remove id) fun k hk => by
        have hne : k ≠ id := fun heq => hid (heq ▸ hk)
        rw [lookup_remove, if_neg hne]
        exact hids k hk
      rw [if_pos hhere] at hone
      rw [foldl_cons, length_cons]
      omega
  refine hall _ (e.subscriptions.keys_nodup.filter _) e fun k hk => ?_
  exact AList.lookup_isSome.mpr (AList.mem_keys.mpr (mem_of_mem_filter hk))

end SubscriptionEngine

open SubscriptionEngine

structure Lanes (σ : Schema) (n : Nat) where
  engines : Fin n → SubscriptionEngine σ
  active : Int

namespace Lanes

/-- The calls on a topic. The ways to subscribe differ in the subscription they register and
seed; one whose query does not parse is no call. -/
inductive Call (σ : Schema) where
  | subscribe (sub : Subscription σ)
  | unsubscribe (id : String)
  | unsubscribePrefix (start : String)
  | closeSubscription (id : String)
  | reapClosedSubscriptions

variable {n : Nat}

def total (s : Lanes σ n) : Int := ∑ i, ((s.engines i).count : Int)

def drift (s : Lanes σ n) : Int := s.active - s.total

section
variable (engineFor : String → Fin n)

/-- One call; `engine_for` picks the lane of an id. -/
def call (s : Lanes σ n) : Call σ → Lanes σ n
  | .subscribe sub =>
    let i := engineFor sub.id
    ⟨update s.engines i ((s.engines i).add sub), s.active + 1⟩
  | .unsubscribe id =>
    let i := engineFor id
    let e := (s.engines i).markClosed id
    ⟨update s.engines i (e.remove id),
      s.active - if (e.subscriptions.lookup id).isSome then 1 else 0⟩
  | .unsubscribePrefix start =>
    ⟨fun i => ((s.engines i).removeByPrefix start).1,
      s.active - ∑ i, (((s.engines i).removeByPrefix start).2 : Int)⟩
  | .closeSubscription id =>
    let i := engineFor id
    { s with engines := update s.engines i ((s.engines i).markClosed id) }
  | .reapClosedSubscriptions =>
    ⟨fun i => (s.engines i).reapClosed.1, s.active - ∑ i, ((s.engines i).reapClosed.2 : Int)⟩

def after (calls : List (Call σ)) : Lanes σ n :=
  calls.foldl (call engineFor) ⟨fun _ => .empty, 0⟩

/-- The call subscribes under an id that is registered. -/
def resubscribes (s : Lanes σ n) : Call σ → Bool
  | .subscribe sub => ((s.engines (engineFor sub.id)).subscriptions.lookup sub.id).isSome
  | _ => false

end

variable {engineFor : String → Fin n} {s : Lanes σ n}

theorem total_update (i : Fin n) (e : SubscriptionEngine σ) (a : Int) :
    total ⟨update s.engines i e, a⟩ = s.total + (e.count - (s.engines i).count) := by
  have hrest : ∑ k ∈ Finset.univ.erase i, ((update s.engines i e k).count : Int) =
      ∑ k ∈ Finset.univ.erase i, ((s.engines k).count : Int) :=
    Finset.sum_congr rfl fun k hk => by rw [update_of_ne (Finset.ne_of_mem_erase hk)]
  dsimp only [total]
  rw [← Finset.add_sum_erase _ _ (Finset.mem_univ i), update_self,
    ← Finset.add_sum_erase Finset.univ (fun k => ((s.engines k).count : Int)) (Finset.mem_univ i)]
  omega

theorem total_remove {f : SubscriptionEngine σ → SubscriptionEngine σ × Nat}
    (h : ∀ e, (f e).1.count + (f e).2 = e.count) (a : Int) :
    total ⟨fun i => (f (s.engines i)).1, a⟩ = s.total - ∑ i, ((f (s.engines i)).2 : Int) := by
  rw [total, total, ← Finset.sum_sub_distrib]
  refine Finset.sum_congr rfl fun i _ => ?_
  have := h (s.engines i)
  dsimp only
  omega

/-- **One call**: the counter gains on the engines if an id is subscribed again. -/
theorem drift_call (c : Call σ) : (s.call engineFor c).drift =
    s.drift + if s.resubscribes engineFor c then 1 else 0 := by
  unfold drift
  cases c with
  | subscribe sub =>
    have hcount := @count_remove σ (s.engines (engineFor sub.id)) sub.id
    simp only [call, total_update, count_add, resubscribes]
    grind
  | unsubscribe id =>
    have hcount := @count_remove σ ((s.engines (engineFor id)).markClosed id) id
    rw [count_markClosed] at hcount
    simp only [call, total_update, resubscribes]
    grind
  | unsubscribePrefix start =>
    have htotal := @total_remove σ n s (removeByPrefix · start) fun e => count_removeWhere _
    simp [call, htotal, resubscribes]
  | closeSubscription id => simp [call, total_update, count_markClosed, resubscribes]
  | reapClosedSubscriptions =>
    have htotal := @total_remove σ n s reapClosed fun e => count_removeWhere _
    simp [call, htotal, resubscribes]

theorem drift_concat (engineFor : String → Fin n) (calls : List (Call σ)) (c : Call σ) :
    (after engineFor (calls ++ [c])).drift = (after engineFor calls).drift +
      if (after engineFor calls).resubscribes engineFor c then 1 else 0 := by
  rw [after, foldl_append]
  exact drift_call c

/-- **The subscription counter.** In every sequence of calls, on any number of lanes, the counter
is what the lanes count after each call if and only if no call subscribes under an id that is
registered; and it never falls below zero. -/
theorem counter_exact_iff (engineFor : String → Fin n) (calls : List (Call σ)) :
    ((∀ front, front <+: calls → (after engineFor front).active = (after engineFor front).total) ↔
      ∀ front c, front ++ [c] <+: calls →
        (after engineFor front).resubscribes engineFor c = false) ∧
    0 ≤ (after engineFor calls).active := by
  have hempty : (after engineFor ([] : List (Call σ))).drift = 0 := by
    simp [after, drift, total, SubscriptionEngine.count, empty]
  simp only [← sub_eq_zero (b := total _)]
  refine ⟨⟨fun h front c hfront => ?_, fun h front hfront => ?_⟩, ?_⟩
  · have hone := drift_concat engineFor front c
    rw [drift, drift, h _ hfront, h front ((prefix_append front [c]).trans hfront)] at hone
    by_contra hin
    rw [if_pos (by simpa using hin)] at hone
    cases hone
  · induction front using reverseRecOn with
    | nil => exact hempty
    | append_singleton front c ih =>
      have hbefore := ih ((prefix_append front [c]).trans hfront)
      refine (drift_concat engineFor front c).trans ?_
      rw [h front c hfront, drift, hbefore]
      rfl
  · have hahead : 0 ≤ (after engineFor calls).drift := by
      induction calls using reverseRecOn with
      | nil => exact hempty.ge
      | append_singleton front c ih =>
        rw [drift_concat]
        split <;> omega
    have htotal : 0 ≤ (after engineFor calls).total :=
      Finset.sum_nonneg fun i _ => Int.natCast_nonneg _
    unfold drift at hahead
    omega

theorem subscribed_twice :
    let sub : Subscription ⟨[]⟩ := .new "s" { predicate := .always } 1
    let s := after (fun _ => (0 : Fin 1)) [.subscribe sub, .subscribe sub]
    s.active = 2 ∧ s.total = 1 := by
  decide +kernel

end Lanes

end CqServer
