import Mathlib.Logic.Function.Basic

/-!
# Runs of a partial step function

A system is a partial function from a state and an action to the next state;
the nondeterminism of a schedule is in the list of actions. `Run step Ok s as t`
is a run from `s` to `t` in which every action is enabled and meets the
condition `Ok` in the state it is taken in.
-/

namespace Lib

variable {σ α : Type*} {step : σ → α → Option σ} {Ok : σ → α → Prop}

theorem of_guard {p : Prop} [Decidable p] {s t : σ} (h : (if p then some s else none) = some t) :
    p ∧ s = t := by
  split at h
  · rename_i hp
    exact ⟨hp, Option.some.inj h⟩
  · cases h

/-- What holds of the entries of a table holds of them all when one is written. -/
theorem forall_update_some [DecidableEq α] {f : α → Option σ} {a : α} {o : Option σ}
    {P : α → σ → Prop} (ho : ∀ s, o = some s → P a s)
    (hf : ∀ x, x ≠ a → ∀ s, f x = some s → P x s) :
    ∀ x s, Function.update f a o x = some s → P x s := by
  intro x s hx
  by_cases h : x = a
  · subst h
    rw [Function.update_self] at hx
    exact ho s hx
  · rw [Function.update_of_ne h] at hx
    exact hf x h s hx

theorem forall_mem_concat {P : α → Prop} {log : List α} {a : α} (hlog : ∀ x ∈ log, P x) (ha : P a) :
    ∀ x ∈ log ++ [a], P x :=
  List.forall_mem_append.mpr ⟨hlog, List.forall_mem_singleton.mpr ha⟩

theorem mem_concat {log : List α} {a x : α} : x ∈ log ++ [a] ↔ x ∈ log ∨ x = a := by
  rw [List.mem_append, List.mem_singleton]

theorem pairwise_concat {R : α → α → Prop} {log : List α} {a : α} (hlog : log.Pairwise R)
    (ha : ∀ x ∈ log, R x a) : (log ++ [a]).Pairwise R := by
  refine List.pairwise_append.mpr ⟨hlog, List.pairwise_singleton R a, ?_⟩
  intro x hx b hb
  rw [List.mem_singleton.mp hb]
  exact ha x hx

/-- A finite run whose steps all meet `Ok`. -/
inductive Run (step : σ → α → Option σ) (Ok : σ → α → Prop) :
    σ → List α → σ → Prop where
  | nil {s} : Run step Ok s [] s
  | cons {s t u a as} : Ok s a → step s a = some t → Run step Ok t as u →
      Run step Ok s (a :: as) u

namespace Run

/-- A property that every permitted step preserves holds at the end of a run. -/
theorem invariant {P : σ → Prop} (hstep : ∀ s a t, P s → Ok s a → step s a = some t → P t)
    {s t : σ} {as : List α} (hrun : Run step Ok s as t) (hs : P s) : P t := by
  induction hrun with
  | nil => exact hs
  | cons hok hst _ ih => exact ih (hstep _ _ _ hs hok hst)

/-- A relation to the states of another system, which takes every action, is kept over runs. -/
theorem foldl {τ : Type*} {R : σ → τ → Prop} {f : τ → α → τ}
    (hstep : ∀ s a s' t, R s t → Ok s a → step s a = some s' → R s' (f t a)) {s s' : σ} {t : τ}
    {as : List α} (hrun : Run step Ok s as s') (hs : R s t) : R s' (as.foldl f t) := by
  induction hrun generalizing t with
  | nil => exact hs
  | cons hok hst _ ih => exact ih (hstep _ _ _ _ hs hok hst)

theorem append {s t u : σ} {as bs : List α} (h : Run step Ok s as t) (h' : Run step Ok t bs u) :
    Run step Ok s (as ++ bs) u := by
  induction h with
  | nil => exact h'
  | cons hok hst _ ih => exact .cons hok hst (ih h')

end Run

def execute (step : σ → α → Option σ) (ok : σ → α → Bool) : σ → List α → Option σ
  | s, [] => some s
  | s, a :: as => if ok s a then (step s a).bind fun t => execute step ok t as else none

theorem Run.of_execute {ok : σ → α → Bool} (hok : ∀ s a, ok s a = true → Ok s a) {s t : σ}
    {as : List α} (h : execute step ok s as = some t) : Run step Ok s as t := by
  induction as generalizing s with
  | nil =>
    cases h
    exact .nil
  | cons a as ih =>
    unfold execute at h
    split at h
    · rename_i ha
      obtain ⟨u, hu, hrest⟩ := Option.bind_eq_some_iff.mp h
      exact .cons (hok s a ha) hu (ih hrest)
    · cases h

section
variable (ok : σ → α → Bool) (hok : ∀ s a, ok s a = true → Ok s a)
include hok

/-- The same with a check of the state the schedule ends in. -/
theorem Run.exists_of_execute {s : σ}
    {as : List α} {p : σ → Bool} (h : (execute step ok s as).any p = true) :
    ∃ t, Run step Ok s as t ∧ p t = true := by
  cases ht : execute step ok s as with
  | none =>
    rw [ht] at h
    cases h
  | some t =>
    rw [ht] at h
    exact ⟨t, .of_execute hok ht, h⟩

/-- A schedule that ends in a state that passes a check is a run to a state with
what the check shows. -/
theorem Run.exists_of_check_with {s : σ} {as : List α} (P : σ → Prop) [∀ t, Decidable (P t)]
    (h : (execute step ok s as).any (fun t => decide (P t)) = true) {Q : σ → Prop}
    (hq : ∀ t, Run step Ok s as t → P t → Q t) : ∃ t, Run step Ok s as t ∧ Q t := by
  obtain ⟨t, hrun, hend⟩ := Run.exists_of_execute ok hok h
  exact ⟨t, hrun, hq t hrun (of_decide_eq_true hend)⟩

end

section Decidable

instance (priority := low) decidableExistsEqSome {o : Option α} {P : α → Prop} [DecidablePred P] :
    Decidable (∃ a, o = some a ∧ P a) :=
  inferInstanceAs (Decidable (∃ a ∈ o, P a))

variable [∀ s a, Decidable (Ok s a)]

/-- The same when the steps' condition is itself decidable. -/
theorem Run.exists_of_check {s : σ} {as : List α} (P : σ → Prop) [∀ t, Decidable (P t)]
    (h : (execute step (fun s a => decide (Ok s a)) s as).any (fun t => decide (P t)) = true)
    {Q : σ → Prop} (hq : ∀ t, Run step Ok s as t → P t → Q t) : ∃ t, Run step Ok s as t ∧ Q t :=
  Run.exists_of_check_with _ (fun _ _ hok => of_decide_eq_true hok) P h hq

theorem Run.execute_eq {s t : σ} {as : List α} (h : Run step Ok s as t) :
    execute step (fun s a => decide (Ok s a)) s as = some t := by
  induction h with
  | nil => rfl
  | cons hok hst _ ih => simp [execute, hok, hst, ih]

instance {s : σ} {as : List α} {Q : σ → Prop} [DecidablePred Q] :
    Decidable (∃ t, Run step Ok s as t ∧ Q t) :=
  decidable_of_iff
    ((execute step (fun s a => decide (Ok s a)) s as).any (fun t => decide (Q t)) = true)
    ⟨fun h => Run.exists_of_check Q h fun _ _ hq => hq,
      fun ⟨t, hrun, ht⟩ => by simp [hrun.execute_eq, ht]⟩

end Decidable

end Lib
