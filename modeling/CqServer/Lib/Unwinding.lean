import Mathlib.Data.List.Forall2

/-!
# Two runs side by side

A system takes an action and gives an output. Two schedules whose actions are twins
of each other, from states an observer cannot tell apart, show the observer the same
outputs, if that holds of one step.
-/

namespace Lib

variable {σ α β : Type*}

def trace (step : σ → α → σ × List β) : σ → List α → σ × List β
  | s, [] => (s, [])
  | s, a :: as =>
    let first := step s a
    let rest := trace step first.1 as
    (rest.1, first.2 ++ rest.2)

/-- One step keeps the two states indistinguishable and shows the same. -/
def Unwinds (step : σ → α → σ × List β) (low : σ → σ → Prop) (twin : α → α → Prop) : Prop :=
  ∀ s s' a a', low s s' → twin a a' →
    low (step s a).1 (step s' a').1 ∧ (step s a).2 = (step s' a').2

/-- What unwinds step by step does so over whole schedules. -/
theorem Unwinds.trace {step : σ → α → σ × List β} {low : σ → σ → Prop} {twin : α → α → Prop}
    (h : Unwinds step low twin) {as as' : List α} (htwin : List.Forall₂ twin as as') {s s' : σ}
    (hlow : low s s') : low (trace step s as).1 (trace step s' as').1 ∧
      (Lib.trace step s as).2 = (Lib.trace step s' as').2 := by
  induction htwin generalizing s s' with
  | nil => exact ⟨hlow, rfl⟩
  | cons hhead _ ih =>
    obtain ⟨hnext, hout⟩ := h s s' _ _ hlow hhead
    obtain ⟨hlast, hrest⟩ := ih hnext
    refine ⟨hlast, ?_⟩
    simp only [Lib.trace]
    rw [hout, hrest]

end Lib
