import Mathlib.Logic.Function.Basic
import Mathlib.Data.List.Pairwise

/-!
# Changes of single places

A map is changed one place at a time. A list of changes of different places can
be applied in any order: what it makes of a place is what the one change of that
place makes of it.
-/

namespace Lib

variable {κ β : Type*}

structure PointUpdate (κ β : Type*) where
  place : κ
  change : β → β

namespace PointUpdate
variable [DecidableEq κ]

def apply (v : κ → β) (u : PointUpdate κ β) : κ → β :=
  Function.update v u.place (u.change (v u.place))

def applyAll (v : κ → β) (us : List (PointUpdate κ β)) : κ → β := us.foldl apply v

section
variable (v : κ → β)

@[simp] theorem applyAll_nil : applyAll v [] = v := rfl

@[simp] theorem applyAll_cons (u : PointUpdate κ β) (us : List (PointUpdate κ β)) :
    applyAll v (u :: us) = applyAll (u.apply v) us := rfl

theorem applyAll_append (us us' : List (PointUpdate κ β)) :
    applyAll v (us ++ us') = applyAll (applyAll v us) us' :=
  List.foldl_append ..

@[simp] theorem apply_self (u : PointUpdate κ β) :
    u.apply v u.place = u.change (v u.place) :=
  Function.update_self ..

theorem apply_of_ne {u : PointUpdate κ β} {k : κ} (h : k ≠ u.place) :
    u.apply v k = v k :=
  Function.update_of_ne h ..

end

variable {us : List (PointUpdate κ β)}

theorem applyAll_of_ne {k : κ} (h : ∀ u ∈ us, k ≠ u.place)
    (v : κ → β) : applyAll v us k = v k := by
  induction us generalizing v with
  | nil => rfl
  | cons u us ih =>
    rw [applyAll_cons, ih fun u' hu' => h u' (by simp [hu'])]
    exact apply_of_ne v (h u (by simp))

theorem applyAll_of_mem (hus : us.Pairwise fun u u' => u.place ≠ u'.place) {u : PointUpdate κ β}
    (hu : u ∈ us)
    (v : κ → β) : applyAll v us u.place = u.change (v u.place) := by
  induction us generalizing v with
  | nil => cases hu
  | cons u' us ih =>
    obtain ⟨hhead, htail⟩ := List.pairwise_cons.mp hus
    rw [applyAll_cons]
    rcases List.mem_cons.mp hu with rfl | hmem
    · rw [applyAll_of_ne hhead, apply_self]
    · rw [ih htail hmem, apply_of_ne v (hhead u hmem).symm]

end PointUpdate

end Lib
