import Mathlib.Data.List.Basic

/-!
# Codes that say where they end

A code is a prefix code if what is read can be told from what follows it. Texts made of
such codes can be read in one way only.
-/

namespace Lib

open List

variable {α β χ : Type*}

/-- The encoded value and the rest of the text can be read off the text. -/
def PrefixCode (enc : α → List χ) : Prop :=
  ∀ ⦃a b x y⦄, enc a ++ x = enc b ++ y → a = b ∧ x = y

namespace PrefixCode

theorem of_reader {enc : α → List χ} (read : List χ → Option (α × List χ))
    (h : ∀ a x, read (enc a ++ x) = some (a, x)) : PrefixCode enc := by
  intro a b x y heq
  have hread : some (a, x) = some (b, y) := by rw [← h a x, heq, h b y]
  exact Prod.mk.inj (Option.some.inj hread)

/-- A sequence of codes, up to a mark that starts none of them. -/
theorem flatMap_append {enc : α → List χ} (h : PrefixCode enc) {stop : χ}
    (hstop : ∀ a, ∃ c cs, enc a = c :: cs ∧ c ≠ stop) :
    PrefixCode fun s : List α => s.flatMap enc ++ [stop] := by
  intro s t x y heq
  induction s generalizing t with
  | nil =>
    cases t with
    | nil => exact ⟨rfl, append_cancel_left heq⟩
    | cons b t =>
      obtain ⟨c, cs, hb, hc⟩ := hstop b
      simp only [flatMap_nil, flatMap_cons, hb, nil_append, cons_append, cons.injEq] at heq
      exact absurd heq.1.symm hc
  | cons a s ih =>
    cases t with
    | nil =>
      obtain ⟨c, cs, ha, hc⟩ := hstop a
      simp only [flatMap_nil, flatMap_cons, ha, nil_append, cons_append, cons.injEq] at heq
      exact absurd heq.1 hc
    | cons b t =>
      simp only [flatMap_cons, append_assoc] at heq
      obtain ⟨rfl, hrest⟩ := h heq
      obtain ⟨rfl, hxy⟩ := ih (by simpa only [append_assoc] using hrest)
      exact ⟨rfl, hxy⟩

end PrefixCode

theorem append_cons_inj_left {a : χ} {x x' z z' : List χ} (hx : a ∉ x) (hx' : a ∉ x')
    (h : x ++ a :: z = x' ++ a :: z') : x = x' ∧ z = z' := by
  induction x generalizing x' with
  | nil =>
    cases x' with
    | nil => exact ⟨rfl, (cons.inj h).2⟩
    | cons b x' => exact absurd ((cons.inj h).1 ▸ mem_cons_self) hx'
  | cons b x ih =>
    cases x' with
    | nil => exact absurd ((cons.inj h).1 ▸ mem_cons_self) hx
    | cons b' x' =>
      obtain ⟨rfl, htail⟩ := cons.inj h
      obtain ⟨rfl, hz⟩ := ih (fun hm => hx (mem_cons_of_mem b hm))
        (fun hm => hx' (mem_cons_of_mem b hm)) htail
      exact ⟨rfl, hz⟩

/-- Parts that do not contain the separator can be read off the text they are joined to. -/
theorem intercalate_inj {a : χ} {xs ys : List (List χ)} (hlen : xs.length = ys.length)
    (hxs : ∀ x ∈ xs, a ∉ x) (hys : ∀ y ∈ ys, a ∉ y)
    (h : [a].intercalate xs = [a].intercalate ys) : xs = ys := by
  induction xs generalizing ys with
  | nil => exact (length_eq_zero_iff.mp hlen.symm).symm
  | cons x xs ih =>
    cases ys with
    | nil => cases hlen
    | cons y ys =>
      have hrest : xs.length = ys.length := Nat.succ.inj hlen
      cases xs with
      | nil =>
        obtain rfl := length_eq_zero_iff.mp hrest.symm
        rw [intercalate_singleton, intercalate_singleton] at h
        rw [h]
      | cons x' xs =>
        cases ys with
        | nil => cases hrest
        | cons y' ys =>
          obtain ⟨rfl, htail⟩ := append_cons_inj_left (hxs x mem_cons_self) (hys y mem_cons_self) h
          rw [ih hrest (fun z hz => hxs z (mem_cons_of_mem _ hz))
            (fun z hz => hys z (mem_cons_of_mem _ hz)) htail]

theorem append_cons_inj_right {a : χ} {x x' z z' : List χ} (hz : a ∉ z) (hz' : a ∉ z')
    (h : x ++ a :: z = x' ++ a :: z') : x = x' ∧ z = z' := by
  have hrev : z.reverse ++ a :: x.reverse = z'.reverse ++ a :: x'.reverse := by
    simpa using congrArg reverse h
  obtain ⟨htail, hhead⟩ := append_cons_inj_left (by simpa using hz) (by simpa using hz') hrev
  exact ⟨reverse_injective hhead, reverse_injective htail⟩

end Lib
