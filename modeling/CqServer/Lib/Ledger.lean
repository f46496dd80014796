import Mathlib.Algebra.Order.Group.Multiset
import Mathlib.Data.List.Induction
import Mathlib.Tactic.Abel

/-!
# Items in places

A ledger says which item is where. A step that only moves items keeps the items
(`Transfers.items`); where a place has no way out, an item in it stays
(`Transfers.stays`). If no item is in the ledger twice, each is in one place
(`place_unique`).

`holders` is the ledger of a list of holders, each at its own position.
-/

namespace Lib

open Function Multiset

variable {P M : Type*}

/-- The items of a list, all in one place. -/
def heldAt (p : P) (ms : List M) : Multiset (P × M) := ↑(ms.map fun m => (p, m))

@[simp] theorem heldAt_nil (p : P) : heldAt p ([] : List M) = 0 := rfl

@[simp] theorem heldAt_append (p : P) (ms ms' : List M) :
    heldAt p (ms ++ ms') = heldAt p ms + heldAt p ms' := by
  simp [heldAt]

theorem heldAt_perm (p : P) {ms ms' : List M} (h : ms.Perm ms') : heldAt p ms = heldAt p ms' :=
  coe_eq_coe.mpr (h.map _)

@[simp] theorem mem_heldAt {p q : P} {ms : List M} {m : M} :
    (q, m) ∈ heldAt p ms ↔ q = p ∧ m ∈ ms := by
  simp [heldAt, eq_comm, and_comm]

theorem items_heldAt (p : P) (ms : List M) : (heldAt p ms).map Prod.snd = ↑ms := by
  simp [heldAt]

/-- Some items change their places, each along an edge; the rest stays. -/
def Transfers (edge : P → P → Prop) (L L' : Multiset (P × M)) : Prop :=
  ∃ (rest : Multiset (P × M)) (moves : Multiset (P × P × M)), (∀ k ∈ moves, edge k.1 k.2.1) ∧
    L = rest + moves.map (fun k => (k.1, k.2.2)) ∧ L' = rest + moves.map fun k => (k.2.1, k.2.2)

namespace Transfers

variable {edge : P → P → Prop} {L L' : Multiset (P × M)}

theorem refl (L : Multiset (P × M)) : Transfers edge L L :=
  ⟨L, 0, fun _ h => absurd h (notMem_zero _), by simp, by simp⟩

theorem all {p q : P} (hedge : edge p q) (ms : List M) :
    Transfers edge (heldAt p ms) (heldAt q ms) := by
  refine ⟨0, ↑(ms.map fun m => (p, q, m)), ?_, by simp [heldAt, comp_def],
    by simp [heldAt, comp_def]⟩
  intro k hk
  obtain ⟨m, -, rfl⟩ := List.mem_map.mp (mem_coe.mp hk)
  exact hedge

theorem gather {ι : Type*} {place : ι → P} {q : P} (hedge : ∀ x, edge (place x) q) (item : ι → M)
    (xs : List ι) :
    Transfers edge (↑(xs.map fun x => (place x, item x)) : Multiset (P × M))
      (heldAt q (xs.map item)) := by
  refine ⟨0, ↑(xs.map fun x => (place x, q, item x)), ?_, by simp [comp_def],
    by simp [heldAt, comp_def]⟩
  intro k hk
  obtain ⟨x, -, rfl⟩ := List.mem_map.mp (mem_coe.mp hk)
  exact hedge x

theorem congr {K K' : Multiset (P × M)} (h : Transfers edge L L') (hL : K = L) (hL' : K' = L') :
    Transfers edge K K' := by rwa [hL, hL']

theorem add {K K' : Multiset (P × M)} (h : Transfers edge K K') (h' : Transfers edge L L') :
    Transfers edge (K + L) (K' + L') := by
  obtain ⟨rest₁, moves₁, hedge₁, rfl, rfl⟩ := h
  obtain ⟨rest₂, moves₂, hedge₂, rfl, rfl⟩ := h'
  refine ⟨rest₁ + rest₂, moves₁ + moves₂, ?_, ?_, ?_⟩
  · intro k hk
    exact (mem_add.mp hk).elim (hedge₁ k) (hedge₂ k)
  · rw [map_add]
    abel
  · rw [map_add]
    abel

theorem frame (K : Multiset (P × M)) (h : Transfers edge L L') : Transfers edge (K + L) (K + L') :=
  (refl K).add h

theorem items (h : Transfers edge L L') : L.map Prod.snd = L'.map Prod.snd := by
  obtain ⟨rest, moves, -, rfl, rfl⟩ := h
  simp only [map_add, map_map, comp_def]

theorem stays (h : Transfers edge L L') {p : P} (hp : ∀ q, ¬ edge p q) {m : M}
    (hm : (p, m) ∈ L) : (p, m) ∈ L' := by
  obtain ⟨rest, moves, hedge, rfl, rfl⟩ := h
  rcases mem_add.mp hm with hrest | hmove
  · exact mem_add.mpr (.inl hrest)
  · obtain ⟨k, hk, heq⟩ := mem_map.mp hmove
    have hfrom : k.1 = p := congrArg Prod.fst heq
    exact absurd (hfrom ▸ hedge k hk) (hp _)

end Transfers

theorem place_unique {L : Multiset (P × M)} (h : (L.map Prod.snd).Nodup) {p q : P} {m : M}
    (hp : (p, m) ∈ L) (hq : (q, m) ∈ L) : p = q :=
  congrArg Prod.fst (inj_on_of_nodup_map h (p, m) hp (q, m) hq rfl)

/-! ## Holders in a list -/

variable {α : Type*}

/-- What each element of the list holds, under the place of its position. -/
def holders (place : Nat → P) (f : α → List M) : Nat → List α → Multiset (P × M)
  | _, [] => 0
  | k, a :: as => heldAt (place k) (f a) + holders place f (k + 1) as

variable (place : Nat → P) (f : α → List M) (k : Nat)

theorem holders_append (l : List α) (a : α) :
    holders place f k (l ++ [a]) = holders place f k l + heldAt (place (k + l.length)) (f a) := by
  induction l generalizing k with
  | nil => simp [holders]
  | cons b l ih =>
    have hshift : k + 1 + l.length = k + (l.length + 1) := by omega
    rw [List.cons_append, holders, holders, ih, List.length_cons, hshift, add_assoc]

theorem mem_holders {l : List α} {a : α} (ha : a ∈ l)
    {m : M} (hm : m ∈ f a) : ∃ i, (place i, m) ∈ holders place f k l := by
  induction l generalizing k with
  | nil => cases ha
  | cons b l ih =>
    rcases List.mem_cons.mp ha with rfl | hl
    · exact ⟨k, mem_add.mpr (.inl (mem_heldAt.mpr ⟨rfl, hm⟩))⟩
    · obtain ⟨i, hi⟩ := ih (k + 1) hl
      exact ⟨i, mem_add.mpr (.inr hi)⟩

theorem holders_set {l : List α} {i : Nat} {a : α} (h : l[i]? = some a) :
    ∃ rest, holders place f k l = rest + heldAt (place (k + i)) (f a) ∧
      ∀ b, holders place f k (l.set i b) = rest + heldAt (place (k + i)) (f b) := by
  induction l generalizing k i with
  | nil => cases h
  | cons c l ih =>
    cases i with
    | zero =>
      cases h
      refine ⟨holders place f (k + 1) l, ?_, fun b => ?_⟩
      · rw [add_comm]
        rfl
      · rw [List.set_cons_zero, add_comm]
        rfl
    | succ i =>
      obtain ⟨rest, hold, hnew⟩ := ih (k + 1) h
      have hshift : k + 1 + i = k + (i + 1) := by omega
      refine ⟨heldAt (place k) (f c) + rest, ?_, fun b => ?_⟩
      · rw [holders, hold, hshift, add_assoc]
      · rw [List.set_cons_succ, holders, hnew, hshift, add_assoc]

end Lib
