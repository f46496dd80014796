import Mathlib.Data.List.Sort

/-!
# Stable sorting by a comparison

A comparison function sorts stably: dropping elements before or after sorting is
the same, a list whose elements are never tied has one sorted arrangement, and tied
elements keep the order they had (`sortBy_before`). The first elements of a sorted list are
those with few elements before them (`mem_take_iff_rank`).
-/

namespace Lib

open List

variable {α : Type*}

/-- Not after, in the order of a comparison. -/
def NotAfter (cmp : α → α → Ordering) (a b : α) : Prop := cmp a b ≠ .gt

instance (cmp : α → α → Ordering) : DecidableRel (NotAfter cmp) :=
  fun a b => inferInstanceAs (Decidable (cmp a b ≠ .gt))

/-- Sort by a comparison; elements that compare equal keep their order. -/
def sortBy (cmp : α → α → Ordering) (l : List α) : List α := l.insertionSort (NotAfter cmp)

variable {cmp : α → α → Ordering}

variable {a b : α}

theorem notAfter_iff : NotAfter cmp a b ↔ (cmp a b).isLE = true := by
  unfold NotAfter
  cases cmp a b <;> simp

instance [Std.TransCmp cmp] : IsTrans α (NotAfter cmp) where
  trans a b c hab hbc := by
    rw [notAfter_iff] at hab hbc ⊢
    exact Std.TransCmp.isLE_trans hab hbc

instance [Std.OrientedCmp cmp] : Std.Total (NotAfter cmp) where
  total a b := by
    have hswap := @Std.OrientedCmp.eq_swap _ cmp _ a b
    unfold NotAfter
    cases hba : cmp b a <;> simp [hswap, hba]

variable {β : Type*}

theorem transCmp_comap (f : β → α) [Std.TransCmp cmp] :
    Std.TransCmp fun a b => cmp (f a) (f b) where
  eq_swap := Std.OrientedCmp.eq_swap
  isLE_trans := Std.TransCmp.isLE_trans

theorem transCmp_swap [Std.TransCmp cmp] : Std.TransCmp fun a b => (cmp a b).swap where
  eq_swap {a b} := by rw [@Std.OrientedCmp.eq_swap _ cmp _ a b]
  isLE_trans {a b c} hab hbc := by
    rw [← Std.OrientedCmp.eq_swap] at hab hbc ⊢
    exact Std.TransCmp.isLE_trans hbc hab

theorem transCmp_eq : Std.TransCmp fun _ _ : α => Ordering.eq where
  eq_swap := rfl
  isLE_trans _ _ := rfl

theorem sortBy_perm (cmp : α → α → Ordering) (l : List α) : (sortBy cmp l).Perm l :=
  perm_insertionSort _ l

theorem sortBy_of_tied (h : ∀ a b, cmp a b = .eq) (l : List α) : sortBy cmp l = l := by
  induction l with
  | nil => rfl
  | cons a l ih =>
    change (sortBy cmp l).orderedInsert _ a = a :: l
    rw [ih]
    cases l with
    | nil => rfl
    | cons b l => exact orderedInsert_cons_of_le _ _ (by simp [NotAfter, h])

theorem sortBy_pairwise [Std.TransCmp cmp] (l : List α) :
    (sortBy cmp l).Pairwise (NotAfter cmp) :=
  pairwise_insertionSort _ l

variable {l : List α}

/-! ## Ties and ranks -/

/-- The order of a comparison, with ties broken by another relation. -/
def Before (cmp : α → α → Ordering) (R : α → α → Prop) (a b : α) : Prop :=
  cmp a b = .lt ∨ cmp a b = .eq ∧ R a b

variable {R : α → α → Prop}

instance [DecidableRel R] : DecidableRel (Before cmp R) :=
  fun a b => inferInstanceAs (Decidable (cmp a b = .lt ∨ cmp a b = .eq ∧ R a b))

theorem Before.asymm [Std.OrientedCmp cmp] (hR : ∀ a b, R a b → ¬ R b a) (h : Before cmp R a b) :
    ¬ Before cmp R b a := by
  have hswap := @Std.OrientedCmp.eq_swap _ cmp _ a b
  rintro (hlt | ⟨heq, hba⟩)
  · rw [hlt] at hswap
    rcases h with h | ⟨h, -⟩ <;> exact absurd (h.symm.trans hswap) (by decide)
  · rw [heq] at hswap
    rcases h with h | ⟨-, hab⟩
    · exact absurd (h.symm.trans hswap) (by decide)
    · exact hR a b hab hba

theorem NotAfter.before (h : NotAfter cmp a b) (hR : R a b) : Before cmp R a b := by
  cases hc : cmp a b with
  | lt => exact .inl hc
  | eq => exact .inr ⟨hc, hR⟩
  | gt => exact absurd hc h

theorem orderedInsert_before [Std.TransCmp cmp] (hl : l.Pairwise (Before cmp R))
    (hsorted : l.Pairwise (NotAfter cmp)) (hR : ∀ b ∈ l, R a b) :
    (l.orderedInsert (NotAfter cmp) a).Pairwise (Before cmp R) := by
  induction l with
  | nil => simp
  | cons b l ih =>
    obtain ⟨hb, hl'⟩ := pairwise_cons.mp hl
    obtain ⟨hbs, hsorted'⟩ := pairwise_cons.mp hsorted
    by_cases hab : NotAfter cmp a b
    · rw [orderedInsert_cons_of_le _ _ hab]
      refine pairwise_cons.mpr ⟨fun c hc => ?_, hl⟩
      refine NotAfter.before ?_ (hR c hc)
      rcases mem_cons.mp hc with rfl | hc
      · exact hab
      · exact IsTrans.trans a b c hab (hbs c hc)
    · rw [orderedInsert_cons, if_neg hab]
      refine pairwise_cons.mpr ⟨fun c hc => ?_, ?_⟩
      · rcases (mem_orderedInsert _).mp hc with rfl | hc
        · have hgt : cmp c b = .gt := by simpa [NotAfter] using hab
          exact .inl (Std.OrientedCmp.lt_of_gt hgt)
        · exact hb c hc
      · exact ih hl' hsorted' fun c hc => hR c (mem_cons_of_mem b hc)

theorem sortBy_before [Std.TransCmp cmp] (hl : l.Pairwise R) :
    (sortBy cmp l).Pairwise (Before cmp R) := by
  induction l with
  | nil => exact .nil
  | cons a l ih =>
    obtain ⟨ha, hl⟩ := pairwise_cons.mp hl
    refine orderedInsert_before (ih hl) (sortBy_pairwise l) fun b hb => ?_
    exact ha b ((sortBy_perm cmp l).mem_iff.mp hb)

/-- An element is among the first `n` of an ordered list if fewer than `n` are before it. -/
theorem mem_take_iff_rank [DecidableRel R] (hasymm : ∀ a b, R a b → ¬ R b a) (hl : l.Pairwise R)
    (n : Nat) {x : α} (hx : x ∈ l) : x ∈ l.take n ↔ (l.filter fun y => R y x).length < n := by
  induction l generalizing n with
  | nil => cases hx
  | cons a l ih =>
    obtain ⟨ha, hl⟩ := pairwise_cons.mp hl
    cases n with
    | zero => simp
    | succ n =>
      rcases mem_cons.mp hx with rfl | hmem
      · -- nothing is before the first
        have hnone : (x :: l).filter (fun y => decide (R y x)) = [] := by
          refine filter_eq_nil_iff.mpr fun y hy => ?_
          rcases mem_cons.mp hy with rfl | hy
          · simpa using fun h => hasymm y y h h
          · simpa using hasymm x y (ha y hy)
        simp [hnone]
      · have hbefore : R a x := ha x hmem
        have hne : x ≠ a := by
          rintro rfl
          exact hasymm x x hbefore hbefore
        rw [filter_cons_of_pos (by simpa using hbefore), length_cons,
          Nat.succ_lt_succ_iff, ← ih hl n hmem]
        simp [hne]

/-- The last element of an ordered list with a property that earlier elements share. -/
theorem getLast?_takeWhile {p : α → Bool} (hl : l.Pairwise R)
    (hp : ∀ a b, R a b → p b = true → p a = true) :
    match (l.takeWhile p).getLast? with
    | none => ∀ a ∈ l, p a = false
    | some x => x ∈ l ∧ p x = true ∧ ∀ a ∈ l, p a = true → a = x ∨ R a x := by
  have hfilter : l.takeWhile p = l.filter p := by
    induction l with
    | nil => rfl
    | cons a l ih =>
      obtain ⟨ha, hl⟩ := pairwise_cons.mp hl
      by_cases hpa : p a
      · rw [takeWhile_cons_of_pos hpa, filter_cons_of_pos hpa, ih hl]
      · rw [takeWhile_cons_of_neg hpa, filter_cons_of_neg hpa]
        exact (filter_eq_nil_iff.mpr fun b hb hpb => hpa (hp a b (ha b hb) hpb)).symm
  rw [hfilter]
  cases hlast : (l.filter p).getLast? with
  | none => simpa using hlast
  | some x =>
    obtain ⟨front, hfront⟩ := getLast?_eq_some_iff.mp hlast
    have hmem : ∀ a, a ∈ l ∧ p a = true ↔ a ∈ front ∨ a = x := fun a => by
      rw [← mem_filter, hfront, mem_append, mem_singleton]
    have hbefore := hl.filter p
    rw [hfront, pairwise_append] at hbefore
    obtain ⟨hx, hpx⟩ := (hmem x).mpr (.inr rfl)
    refine ⟨hx, hpx, fun a ha hpa => ?_⟩
    rcases (hmem a).mp ⟨ha, hpa⟩ with hfr | rfl
    · exact .inr (hbefore.2.2 a hfr x mem_cons_self)
    · exact .inl rfl

end Lib
