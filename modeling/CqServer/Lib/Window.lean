import Mathlib.Data.List.Basic

/-!
# A window on a numbered stream

A list numbered in ascending order by `f` is read by several parties, each of
which has got up to some number. What one party is ahead of another is the window
of the elements numbered between the two. `window_next` moves the upper end by one
element, `window_head` the lower one.
-/

namespace Lib

open List

variable {α : Type*} {f : α → Nat} {l : List α} {lo hi : Nat}

/-- The elements of `l` numbered above `lo` and up to `hi`. -/
def window (f : α → Nat) (l : List α) (lo hi : Nat) : List α :=
  l.filter fun a => lo < f a ∧ f a ≤ hi

theorem mem_window {a : α} : a ∈ window f l lo hi ↔ a ∈ l ∧ lo < f a ∧ f a ≤ hi := by
  simp [window]

@[simp] theorem window_self (f : α → Nat) (l : List α) (n : Nat) : window f l n n = [] := by
  refine filter_eq_nil_iff.mpr ?_
  intro a _ h
  have := of_decide_eq_true h
  omega

theorem window_append (l l' : List α) (lo hi : Nat) :
    window f (l ++ l') lo hi = window f l lo hi ++ window f l' lo hi := filter_append ..

theorem window_eq_nil (h : ∀ a ∈ l, hi < f a) : window f l lo hi = [] := by
  refine filter_eq_nil_iff.mpr ?_
  intro a ha hwin
  have := h a ha
  have := of_decide_eq_true hwin
  omega

theorem window_append_above {as : List α} (h : ∀ a ∈ as, hi < f a) :
    window f (l ++ as) lo hi = window f l lo hi := by
  rw [window_append, window_eq_nil h, append_nil]

variable (hsorted : l.Pairwise fun a b => f a < f b)
include hsorted

theorem window_next {pre post : List α} {a : α}
    (hl : l = pre ++ a :: post) (hpre : ∀ b ∈ pre, f b ≤ hi) (hlo : lo ≤ hi) (hhi : hi < f a) :
    window f l lo (f a) = window f l lo hi ++ [a] := by
  subst hl
  obtain ⟨-, hrest, -⟩ := pairwise_append.mp hsorted
  have hpost := (pairwise_cons.mp hrest).1
  have heq : window f pre lo (f a) = window f pre lo hi := by
    refine filter_congr ?_
    intro b hb
    have := hpre b hb
    simp only [decide_eq_decide]
    omega
  have hlow : window f (a :: post) lo hi = [] := by
    refine window_eq_nil (forall_mem_cons.mpr ⟨hhi, ?_⟩)
    intro b hb
    exact Nat.lt_trans hhi (hpost b hb)
  have hhigh : window f (a :: post) lo (f a) = [a] := by
    have hin : lo < f a ∧ f a ≤ f a := by omega
    have hcons : window f (a :: post) lo (f a) = a :: window f post lo (f a) :=
      filter_cons_of_pos (decide_eq_true hin)
    rw [hcons, window_eq_nil hpost]
  rw [window_append, window_append, heq, hlow, hhigh, append_nil]

variable {a : α} {rest : List α} (h : window f l lo hi = a :: rest)
include h

theorem window_head :
    a ∈ l ∧ lo < f a ∧ f a ≤ hi ∧ window f l (f a) hi = rest := by
  obtain ⟨hmem, hlo, hhi⟩ := mem_window.mp (h ▸ mem_cons_self)
  refine ⟨hmem, hlo, hhi, ?_⟩
  have hfilter : window f l (f a) hi = (window f l lo hi).filter fun b => f a < f b := by
    rw [window, window, filter_filter]
    refine filter_congr ?_
    intro b _
    rw [Bool.eq_iff_iff]
    simp only [Bool.and_eq_true, decide_eq_true_eq]
    omega
  have hwin : (a :: rest).Pairwise fun a b => f a < f b := h ▸ hsorted.filter _
  rw [hfilter, h, filter_cons_of_neg (by simp)]
  refine filter_eq_self.mpr ?_
  intro b hb
  exact decide_eq_true ((pairwise_cons.mp hwin).1 b hb)

/-- The first element of a window is the next one for whoever is at its lower end. -/
theorem window_below_head {base : Nat} (hbase : base ≤ lo) :
    window f l base (f a) = window f l base lo ++ [a] := by
  obtain ⟨pre, post, hl, hpre, hin, -⟩ := filter_eq_cons_iff.mp h
  have hin := of_decide_eq_true hin
  refine window_next hsorted hl ?_ hbase hin.1
  intro b hb
  have hout := hpre b hb
  have hlt : f b < f a := by
    rw [hl] at hsorted
    exact (pairwise_append.mp hsorted).2.2 b hb a mem_cons_self
  simp only [decide_eq_true_eq] at hout
  omega

end Lib
