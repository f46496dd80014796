import Mathlib.Data.List.AList
import Mathlib.Data.List.Chain
import Mathlib.Logic.Relation

/-!
# The graph of the views

`validate_view_graph` walks from every view along its sources, and refuses a walk that comes
back to a view it has seen or that is longer than the cap. `chain_of_cycle` is why the two
kinds of error are one condition: round a cycle there are chains of any length.
-/

namespace CqServer.ViewGraph

open List

/-- Every view with its source, in the order the map is iterated in. -/
abbrev Sources := AList fun _ : String => String

/-- `QueryError::LimitExceeded`, by the two texts it has here. -/
inductive GraphError where
  | cycle (view src : String)
  | chainDepth (view : String) (depth maxViewChainDepth : Nat)
  deriving DecidableEq, Repr

variable (viewSources : Sources) (maxViewChainDepth : Nat)

/-- The `while` loop; the cap bounds the number of its turns. -/
def walk (view : String) (depth : Nat) (visited : List String) (cur : String) :
    Except GraphError Unit :=
  match viewSources.lookup cur with
  | none => .ok ()
  | some src =>
    -- a source that is not a view is a topic
    if src ∉ viewSources then .ok ()
    else if src ∈ visited then .error (.cycle view src)
    else if maxViewChainDepth < depth + 1 then
      .error (.chainDepth view (depth + 1) maxViewChainDepth)
    else walk view (depth + 1) (src :: visited) src
termination_by maxViewChainDepth - depth

/-- `validate_view_graph`, with `reject_passthrough_views` off. -/
def validateViewGraph : Except GraphError Unit :=
  forM viewSources.keys fun view => walk viewSources maxViewChainDepth view 1 [view] view

/-- The view's source is another view, or itself. -/
def Step (a b : String) : Prop := viewSources.lookup a = some b ∧ b ∈ viewSources

/-- Views each of which is the source of the next. -/
def IsViewChain (chain : List String) : Prop :=
  chain.IsChain (fun b a => Step viewSources a b) ∧ ∀ view ∈ chain, view ∈ viewSources

variable {viewSources maxViewChainDepth} {view cur : String} {depth : Nat} {visited : List String}

/-- What a walk accepts: nothing below the view is too deep. -/
theorem chain_le_of_walk (hdepth : depth ≤ maxViewChainDepth)
    (h : walk viewSources maxViewChainDepth view depth visited cur = .ok ()) {chain : List String}
    (hchain : (cur :: chain).IsChain (Step viewSources)) :
    depth + chain.length ≤ maxViewChainDepth := by
  fun_induction walk generalizing chain with
  | case1 depth visited cur hnone =>
    cases chain with
    | nil => exact hdepth
    | cons next chain => simp [isChain_cons_cons, Step, hnone] at hchain
  | case2 depth visited cur src hsrc htopic =>
    cases chain with
    | nil => exact hdepth
    | cons next chain => simp_all [isChain_cons_cons, Step]
  | case3 | case4 => cases h
  | case5 depth visited cur src hsrc hview hnew hlimit ih =>
    cases chain with
    | nil => exact hdepth
    | cons next chain =>
      obtain ⟨⟨hnext, _⟩, hrest⟩ := isChain_cons_cons.mp hchain
      obtain rfl : src = next := Option.some.inj (hsrc.symm.trans hnext)
      have hle := ih (by omega) h hrest
      simp only [length_cons]
      omega

theorem IsViewChain.cons {src : String} (hsrc : Step viewSources cur src)
    (hcur : visited.head? = some cur) (h : IsViewChain viewSources visited) :
    IsViewChain viewSources (src :: visited) := by
  refine ⟨isChain_cons.mpr ⟨fun a ha => ?_, h.1⟩, forall_mem_cons.mpr ⟨hsrc.2, h.2⟩⟩
  obtain rfl : cur = a := Option.some.inj (hcur.symm.trans ha)
  exact hsrc

/-- A walk along `visited` goes on to the end if there are no cycles and no long chains. -/
theorem walk_ok (hacyclic : ∀ a, ¬ Relation.TransGen (Step viewSources) a a)
    (hshort : ∀ chain, IsViewChain viewSources chain → chain.length ≤ maxViewChainDepth)
    (hchain : IsViewChain viewSources visited) (hcur : visited.head? = some cur)
    (hdepth : visited.length = depth)
    (hreach : ∀ a ∈ visited, Relation.ReflTransGen (Step viewSources) a cur) :
    walk viewSources maxViewChainDepth view depth visited cur = .ok () := by
  fun_induction walk with
  | case1 | case2 => rfl
  | case3 depth visited cur src hsrc hview hseen =>
    exact absurd (.tail' (hreach src hseen) ⟨hsrc, not_not.mp hview⟩) (hacyclic src)
  | case4 depth visited cur src hsrc hview hnew hlimit =>
    have hle := hshort _ (hchain.cons ⟨hsrc, not_not.mp hview⟩ hcur)
    simp only [length_cons] at hle
    omega
  | case5 depth visited cur src hsrc hview hnew hlimit ih =>
    have hstep : Step viewSources cur src := ⟨hsrc, not_not.mp hview⟩
    refine ih (hchain.cons hstep hcur) rfl (by simp [hdepth]) ?_
    intro a ha
    rcases mem_cons.mp ha with rfl | ha
    · exact .refl
    · exact (hreach a ha).tail hstep

/-- Round a cycle there are chains of any length. -/
theorem chain_of_cycle {a b : String} (hcycle : Relation.TransGen (Step viewSources) b b)
    (hab : Relation.TransGen (Step viewSources) a b) (n : Nat) :
    ∃ chain, (a :: chain).IsChain (Step viewSources) ∧ chain.length = n := by
  induction n generalizing a with
  | zero => exact ⟨[], isChain_singleton a, rfl⟩
  | succ n ih =>
    obtain ⟨c, hac, hcb⟩ := Relation.TransGen.head'_iff.mp hab
    obtain ⟨chain, hchain, hlen⟩ := ih (hcycle.trans_right hcb)
    exact ⟨c :: chain, isChain_cons_cons.mpr ⟨hac, hchain⟩, by simp [hlen]⟩

theorem forM_ok {f : String → Except GraphError Unit} {names : List String} :
    forM names f = .ok () ↔ ∀ name ∈ names, f name = .ok () := by
  induction names with
  | nil => simp [pure, Except.pure]
  | cons name names ih =>
    rw [forM_cons, forall_mem_cons, ← ih]
    cases f name with
    | error e | ok u => simp [bind, Except.bind]

/-- **The validation is exact**: the graph is accepted if and only if no view reaches itself
through its sources and no chain of views is longer than the cap. -/
theorem validateViewGraph_exact (hcap : 1 ≤ maxViewChainDepth) :
    validateViewGraph viewSources maxViewChainDepth = .ok () ↔
      (∀ view, ¬ Relation.TransGen (Step viewSources) view view) ∧
        ∀ chain, IsViewChain viewSources chain → chain.length ≤ maxViewChainDepth := by
  rw [validateViewGraph, forM_ok]
  constructor
  · intro hwalk
    refine ⟨?_, ?_⟩
    · intro view hcycle
      obtain ⟨next, hstep, _⟩ := Relation.TransGen.head'_iff.mp hcycle
      have hview : view ∈ viewSources := AList.lookup_isSome.mp (by simp [hstep.1])
      obtain ⟨chain, hchain, hlen⟩ := chain_of_cycle hcycle hcycle maxViewChainDepth
      have hle := chain_le_of_walk hcap (hwalk view hview) hchain
      omega
    · intro chain hchain
      cases hrev : chain.reverse with
      | nil => simp [reverse_eq_nil_iff.mp hrev]
      | cons view rest =>
        have hdown : (view :: rest).IsChain (Step viewSources) := by
          rw [← hrev, isChain_reverse]
          exact hchain.1
        have hmem : view ∈ chain := mem_reverse.mp (hrev ▸ mem_cons_self ..)
        have hle := chain_le_of_walk hcap (hwalk view (hchain.2 view hmem)) hdown
        have hlen := congrArg length hrev
        simp only [length_reverse, length_cons] at hlen
        omega
  · rintro ⟨hacyclic, hshort⟩ view (hview : view ∈ viewSources)
    exact walk_ok hacyclic hshort ⟨isChain_singleton view, by simpa⟩ rfl rfl
      (by simpa using Relation.ReflTransGen.refl)

/-- A view of itself is refused, also under a large cap. -/
theorem validateViewGraph_exact_self :
    validateViewGraph ((∅ : Sources).insert "/a" "/a") 8 ≠ .ok () := by
  intro hok
  refine ((validateViewGraph_exact (by decide)).mp hok).1 "/a" (.single ⟨?_, ?_⟩)
  · exact AList.lookup_insert _
  · exact (AList.mem_insert _).mpr (.inl rfl)

end CqServer.ViewGraph
