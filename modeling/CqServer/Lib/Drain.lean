import Mathlib.Data.List.Basic

/-!
# Draining a reader

A reader is a partial function from its state to the next item. `Drains next s r`
says that pulling from `s` until the reader stops or fails ends in `r`; `drain`
computes it within a number of pulls. Where each pull uses up something, enough
pulls give the result (`drain_eq`), so proofs go by `Drains` and no fuel.
-/

namespace Lib

variable {σ α ε : Type*} {next : σ → Except ε (Option (α × σ))}

/-- The outcome of pulling items until the reader stops or fails. -/
inductive Drains (next : σ → Except ε (Option (α × σ))) : σ → Except ε (List α) → Prop where
  | stop {s} : next s = .ok none → Drains next s (.ok [])
  | fail {s e} : next s = .error e → Drains next s (.error e)
  | pull {s a s' r} : next s = .ok (some (a, s')) → Drains next s' r →
      Drains next s (r.map (a :: ·))

inductive Emits (next : σ → Except ε (Option (α × σ))) : σ → List α → σ → Prop where
  | nil {s} : Emits next s [] s
  | cons {s a s' as t} : next s = .ok (some (a, s')) → Emits next s' as t →
      Emits next s (a :: as) t

/-- Pull at most `fuel` times. -/
def drain (next : σ → Except ε (Option (α × σ))) : Nat → σ → Except ε (List α)
  | 0, _ => .ok []
  | fuel + 1, s =>
    match next s with
    | .error e => .error e
    | .ok none => .ok []
    | .ok (some (a, s')) => (drain next fuel s').map (a :: ·)

variable {fuel : Nat} {s : σ}

/-- With more pulls than the measure allows items, `drain` computes the outcome. -/
theorem drains_drain (μ : σ → Nat) (hμ : ∀ s a s', next s = .ok (some (a, s')) → μ s' < μ s)
    (h : μ s < fuel) : Drains next s (drain next fuel s) := by
  induction fuel generalizing s with
  | zero => omega
  | succ fuel ih =>
    unfold drain
    cases hn : next s with
    | error e => exact .fail hn
    | ok o =>
      cases o with
      | none => exact .stop hn
      | some p =>
        have hlt := hμ s p.1 p.2 hn
        exact .pull hn (ih (by omega))

theorem Drains.det {r r' : Except ε (List α)} (h : Drains next s r) (h' : Drains next s r') :
    r = r' := by
  induction h generalizing r' with
  | stop hn =>
    cases h' with
    | stop _ => rfl
    | fail hn' | pull hn' _ => cases hn.symm.trans hn'
  | fail hn =>
    cases h' with
    | stop hn' => cases hn.symm.trans hn'
    | fail hn' =>
      cases hn.symm.trans hn'
      rfl
    | pull hn' _ => cases hn.symm.trans hn'
  | pull hn _ ih =>
    cases h' with
    | stop hn' | fail hn' => cases hn.symm.trans hn'
    | pull hn' hrest =>
      cases hn.symm.trans hn'
      rw [ih hrest]

variable {r : Except ε (List α)}

theorem drain_eq (μ : σ → Nat) (hμ : ∀ s a s', next s = .ok (some (a, s')) → μ s' < μ s)
    (h : μ s < fuel) (hr : Drains next s r) : drain next fuel s = r :=
  (drains_drain μ hμ h).det hr

variable {t : σ}

/-- The outcome depends on the state through the next pull only. -/
theorem Drains.of_next_eq (hst : next s = next t) (h : Drains next t r) : Drains next s r := by
  cases h with
  | stop hn => exact .stop (hst.trans hn)
  | fail hn => exact .fail (hst.trans hn)
  | pull hn hrest => exact .pull (hst.trans hn) hrest

theorem Emits.drains {xs : List α} (h : Emits next s xs t) (hr : Drains next t r) :
    Drains next s (r.map (xs ++ ·)) := by
  induction h with
  | nil =>
    cases r with
    | error e | ok ys => exact hr
  | cons hn _ ih =>
    have hstep := Drains.pull hn (ih hr)
    cases r with
    | error e | ok ys => exact hstep

theorem Drains.head {a : α} {as : List α} (h : Drains next s (.ok (a :: as))) :
    ∃ s', next s = .ok (some (a, s')) ∧ Drains next s' (.ok as) := by
  generalize hr : Except.ok (a :: as) = r at h
  cases h with
  | stop hn | fail hn => cases hr
  | pull hn hrest =>
    rename_i b s' r'
    cases r' with
    | error e => cases hr
    | ok bs =>
      cases hr
      exact ⟨s', hn, hrest⟩

end Lib
