import Mathlib.Logic.Function.Basic
import Mathlib.Data.List.Induction

/-!
# A family and the map that lists it

The members of a family have names and values. A map lists the family if it has each
value under its name and nothing else. When one member changes, one place of the map has
to change, as long as no other member has its name.
-/

namespace Lib

variable {ι κ β : Type*} {F F' : ι → Option (κ × β)} {v : κ → Option β}

/-- The map has the members of the family under their names. -/
def Lists (F : ι → Option (κ × β)) (v : κ → Option β) : Prop :=
  ∀ k b, v k = some b ↔ ∃ i, F i = some (k, b)

namespace Lists

theorem congr (h : Lists F v) (hF : ∀ i, F' i = F i) : Lists F' v := by
  intro k b
  simp [h k b, hF]

theorem get (h : Lists F v) {i : ι} {k : κ} {b : β} (hi : F i = some (k, b)) : v k = some b :=
  (h k b).mpr ⟨i, hi⟩

variable [DecidableEq κ]

/-- One member changes: it enters, leaves, or changes its value and keeps its name. -/
theorem change (h : Lists F v) {i : ι} (hother : ∀ j, j ≠ i → F' j = F j) {k : κ} {o : Option β}
    (hi : F' i = o.map (k, ·)) (hold : ∀ k' b', F i = some (k', b') → k' = k)
    (hfresh : ∀ j, j ≠ i → ∀ b', F j ≠ some (k, b')) : Lists F' (Function.update v k o) := by
  intro k' b'
  by_cases hk : k' = k
  · subst hk
    rw [Function.update_self]
    constructor
    · rintro rfl
      exact ⟨i, hi⟩
    · rintro ⟨j, hj⟩
      by_cases hji : j = i
      · rw [hji, hi] at hj
        obtain ⟨b, hb, heq⟩ := Option.map_eq_some_iff.mp hj
        cases heq
        exact hb
      · rw [hother j hji] at hj
        exact absurd hj (hfresh j hji b')
  · rw [Function.update_of_ne hk, h k' b']
    constructor
    · rintro ⟨j, hj⟩
      have hji : j ≠ i := by
        rintro rfl
        exact hk (hold k' b' hj)
      exact ⟨j, (hother j hji).trans hj⟩
    · rintro ⟨j, hj⟩
      have hji : j ≠ i := by
        rintro rfl
        rw [hi] at hj
        obtain ⟨b, -, heq⟩ := Option.map_eq_some_iff.mp hj
        cases heq
        exact hk rfl
      exact ⟨j, (hother j hji).symm.trans hj⟩

theorem foldl_update [DecidableEq ι] (g : ι → κ × β) (l : List ι)
    (hinj : ∀ i ∈ l, ∀ j ∈ l, (g i).1 = (g j).1 → i = j) :
    Lists (fun i => if i ∈ l then some (g i) else none)
      (l.foldl (fun v i => Function.update v (g i).1 (some (g i).2)) fun _ => none) := by
  induction l using List.reverseRecOn with
  | nil => simp [Lists]
  | append_singleton l a ih =>
    have hl := ih fun i hi j hj => hinj i (by simp [hi]) j (by simp [hj])
    rw [List.foldl_append, List.foldl_cons, List.foldl_nil]
    refine hl.change (i := a) ?_ (by simp) ?_ ?_
    · intro j hj
      simp [hj]
    · intro k b hk
      split at hk
      · rw [Option.some.inj hk]
      · cases hk
    · intro j hj b hb
      split at hb
      · rename_i hmem
        refine hj (hinj j (by simp [hmem]) a (by simp) ?_)
        rw [Option.some.inj hb]
      · cases hb

end Lists

end Lib
