import CqServer.Topic.Live

/-!
# Expiry among publishers

`sweep_expired` reads the clock, collects the idle keys under the read lock and then deletes them
one by one, each under the write lock. Other threads write in between, so a key may have been
published again since, or deleted and given another slot. The sweep looks again before it deletes,
and what it deletes was not published within the TTL (`expires_only_idle`).
-/

namespace CqServer.Expiry

open Lib StoreState Function

variable {σ : Schema}

/-- A pass of `sweep_expired`: the instant it has read and, once collected, the keys still to look
at. -/
structure Sweep where
  observedAt : Nat
  candidateKeys : Option (List String) := none
  deriving DecidableEq

/-- Instants are in nanoseconds; `commits` records the commits by key, with their instants. -/
structure State (σ : Schema) where
  topic : Topic σ
  clock : Nat := 0
  sweeps : List Sweep := []
  commits : List (String × Nat) := []

inductive Move (σ : Schema) where
  | write (e : Effect σ)
  | sample (now : Nat)
  | collect (sweep : Nat) (keys : List String)
  | expire (sweep : Nat) (appendOk : Bool)

def ttl (cfg : TopicConfig) : Nat := cfg.expireSeconds.getD 0 * 10 ^ 9

/-- The keys whose rows have been idle for the TTL. -/
def idleKeys (st : StoreState σ) (ttl now : Nat) : List String :=
  (st.table.keyToRow.entries.filter fun e =>
    (st.lastTouched e.2).any fun touched => ttl ≤ now - touched).map Sigma.fst

/-- A key's row has been touched since every commit under the key. -/
def Fresh (commits : List (String × Nat)) (st : StoreState σ) : Prop :=
  ∀ c ∈ commits, ∀ r, st.table.keyToRow.lookup c.1 = some r →
    ∃ touched, st.lastTouched r = some touched ∧ c.2 ≤ touched

variable {cfg : TopicConfig} {commits : List (String × Nat)} {st st' : StoreState σ}

theorem Fresh.remove (h : Fresh commits st) {key : String} {r : Nat}
    (hrem : st.removeKey key = some (st', r)) : Fresh commits st' := by
  obtain ⟨-, rfl⟩ := removeKey_eq_some.mp hrem
  intro c hc r' hr'
  rw [SlotTable.lookup_remove] at hr'
  split at hr'
  · cases hr'
  · exact h c hc r' hr'

theorem Fresh.expire {t : Topic σ} (h : Fresh commits t.state) (appendOk : Bool)
    (ttl observedAt : Nat) (key : String) :
    Fresh commits (deleteIfStillExpired cfg appendOk t ttl observedAt key).topic.state := by
  unfold deleteIfStillExpired delete
  split
  · split
    · exact h
    · split <;> exact h.remove ‹_›
  · exact h

section Sweeps
variable [HostText]

def committed (cfg : TopicConfig) : Effect σ → List (String × Nat)
  | .commit now v _ => (computeKeyWith v.vals (cfg.keyColIndices σ)).toList.map fun k => (k, now)
  | _ => []

def instant (clock : Nat) : Effect σ → Nat
  | .commit now _ _ => now
  | _ => clock

def step (cfg : TopicConfig) (s : State σ) : Move σ → Option (State σ)
  | .write e =>
    if s.clock ≤ instant s.clock e then
      some { s with
        topic := (e.apply cfg s.topic).1
        clock := instant s.clock e
        commits := committed cfg e ++ s.commits }
    else none
  | .sample now =>
    if cfg.expireSeconds.isSome ∧ s.clock ≤ now then
      some { s with clock := now, sweeps := s.sweeps ++ [{ observedAt := now }] }
    else none
  | .collect i keys =>
    match s.sweeps[i]? with
    | some ⟨observedAt, none⟩ =>
      -- the key map is read in some order
      if keys.Perm (idleKeys s.topic.state (ttl cfg) observedAt) then
        some { s with sweeps := s.sweeps.set i ⟨observedAt, some keys⟩ }
      else none
    | _ => none
  | .expire i appendOk =>
    match s.sweeps[i]? with
    | some ⟨observedAt, some (key :: keys)⟩ =>
      let o := deleteIfStillExpired cfg appendOk s.topic (ttl cfg) observedAt key
      -- a failed append ends the pass
      some { s with
        topic := o.topic
        sweeps := s.sweeps.set i ⟨observedAt, some (if o.ok then keys else [])⟩ }
    | _ => none

/-! ## When a row was touched -/

/-- After a commit a key's row has been touched just now, or the commit was under another key and
left it alone. -/
theorem commit_touched {keyCols : List σ.Col} {now : Nat} {st : StoreState σ} {v : Values σ}
    {k : String} {r : Nat}
    (h : (commitValuesLocked keyCols now st v).1.table.keyToRow.lookup k = some r) :
    (commitValuesLocked keyCols now st v).1.lastTouched r = some now ∨
      computeKeyWith v.vals keyCols ≠ some k ∧ st.table.keyToRow.lookup k = some r ∧
        (commitValuesLocked keyCols now st v).1.lastTouched r = st.lastTouched r := by
  unfold commitValuesLocked at h ⊢
  cases hkey : computeKeyWith v.vals keyCols with
  | none =>
    simp only [hkey] at h ⊢
    split at h <;> rename_i hrows <;> simp only [hrows, if_true, if_false]
    all_goals
      by_cases hr : r = 0
      · exact .inl (by rw [hr, update_self])
      · exact .inr ⟨nofun, h, update_of_ne hr _ _⟩
  | some key =>
    cases hold : st.table.keyToRow.lookup key with
    | some r' =>
      simp only [hkey, hold] at h ⊢
      by_cases hr : r = r'
      · simp [hr]
      · refine .inr ⟨?_, h, update_of_ne hr _ _⟩
        rintro ⟨⟩
        exact hr (Option.some.inj (h.symm.trans hold))
    | none =>
      simp only [hkey, hold, SlotTable.lookup_alloc] at h ⊢
      split at h
      · cases h
        exact .inl (update_self _ _ _)
      rename_i hne
      -- a slot that is given out is no key's
      have hr : r ≠ st.table.nextSlot := by
        rintro rfl
        exact st.table.nextSlot_not_live ⟨k, h⟩
      exact .inr ⟨fun heq => hne (Option.some.inj heq).symm, h, update_of_ne hr _ _⟩

theorem Fresh.commit (h : Fresh commits st) {clock now : Nat}
    (hpast : ∀ c ∈ commits, c.2 ≤ clock) (hnow : clock ≤ now) (v : Values σ)
    (cols : Option (List σ.Col)) :
    Fresh (committed cfg (.commit now v cols) ++ commits)
      (st.commitValuesLocked (cfg.keyColIndices σ) now v).1 := by
  intro c hc r hr
  rcases commit_touched hr with htouched | ⟨hne, hold, hsame⟩
  · refine ⟨now, htouched, ?_⟩
    rcases List.mem_append.mp hc with hc | hc
    · obtain ⟨k, -, rfl⟩ := List.mem_map.mp hc
      exact le_rfl
    · exact (hpast c hc).trans hnow
  · rcases List.mem_append.mp hc with hc | hc
    · obtain ⟨k, hk, rfl⟩ := List.mem_map.mp hc
      exact absurd (Option.mem_toList.mp hk) hne
    · rw [hsame]
      exact h c hc r hold

/-! ## Runs -/

structure Inv (s : State σ) : Prop where
  past : ∀ c ∈ s.commits, c.2 ≤ s.clock
  fresh : Fresh s.commits s.topic.state

variable {s s' : State σ}

theorem Inv.write (h : Inv s) {e : Effect σ} (hnow : s.clock ≤ instant s.clock e) :
    Inv { s with
      topic := (e.apply cfg s.topic).1, clock := instant s.clock e
      commits := committed cfg e ++ s.commits } := by
  cases e with
  | burn => exact ⟨h.past, h.fresh⟩
  | commit now v cols =>
    refine ⟨fun c hc => ?_, h.fresh.commit h.past hnow v cols⟩
    rcases List.mem_append.mp hc with hc | hc
    · obtain ⟨k, -, rfl⟩ := List.mem_map.mp hc
      exact le_rfl
    · exact (h.past c hc).trans hnow
  | remove key announced =>
    refine ⟨h.past, ?_⟩
    simp only [Effect.apply]
    split
    · exact h.fresh
    · exact h.fresh.remove ‹_›

theorem Inv.step (h : Inv s) {m : Move σ} (hstep : step cfg s m = some s') : Inv s' := by
  cases m with
  | write e =>
    obtain ⟨hnow, rfl⟩ := of_guard hstep
    exact h.write hnow
  | sample now =>
    obtain ⟨⟨-, hnow⟩, rfl⟩ := of_guard hstep
    exact { h with past := fun c hc => (h.past c hc).trans hnow }
  | collect i keys =>
    simp only [Expiry.step] at hstep
    split at hstep
    · obtain ⟨-, rfl⟩ := of_guard hstep
      exact { h with }
    · cases hstep
  | expire i appendOk =>
    simp only [Expiry.step] at hstep
    split at hstep
    · cases hstep
      exact ⟨h.past, h.fresh.expire appendOk _ _ _⟩
    · cases hstep

/-- **What a sweep deletes is idle.** In every interleaving of sweeps with publishers and deleters,
from any topic, a sweep that deletes a key had read the clock when every commit under the key, up
to the delete, was at least the TTL ago. -/
theorem expires_only_idle {start : Topic σ} {moves : List (Move σ)}
    (hrun : Run (step cfg) (fun _ _ => True) { topic := start } moves s) {i observedAt : Nat}
    {k : String} {keys : List String} {appendOk : Bool}
    (hsweep : s.sweeps[i]? = some ⟨observedAt, some (k :: keys)⟩)
    (hstep : step cfg s (.expire i appendOk) = some s')
    (hlive : (s.topic.state.contents k).isSome) (hgone : s'.topic.state.contents k = none)
    {instant : Nat} (hcommit : (k, instant) ∈ s.commits) :
    instant ≤ observedAt ∧ ttl cfg ≤ observedAt - instant := by
  have hinv : Inv s := hrun.invariant (P := Inv) (fun _ _ _ h _ hstep => h.step hstep)
    ⟨nofun, nofun⟩
  simp only [step, hsweep] at hstep
  cases hstep
  cases hexp : stillExpired s.topic.state (ttl cfg) observedAt k with
  | false =>
    simp only [deleteIfStillExpired, hexp, Bool.false_eq_true, if_false] at hgone
    rw [hgone] at hlive
    cases hlive
  | true =>
    unfold stillExpired at hexp
    split at hexp
    · cases hexp
    rename_i r hr
    obtain ⟨touched, htouched, hle⟩ := hinv.fresh _ hcommit r hr
    simp only [htouched, Bool.and_eq_true, decide_eq_true_eq] at hexp
    omega

end Sweeps

section Quotes
open Quotes

open Unused

def oneSecond : TopicConfig := { config with expireSeconds := some 1 }

/-- A quote is published, and a second later a sweep collects its key. -/
def collected : List (Move schema) :=
  [.write (.commit 5 (.ofMap schema (full "A" 1 2)) none), .sample 1000000005, .collect 0 ["A"]]

theorem expires_only_idle_quote : ∃ s : State schema,
    Run (step oneSecond) (fun _ _ => True) { topic := .new schema } collected s ∧
      (∃ s', step oneSecond s (.expire 0 true) = some s' ∧ s'.topic.state.contents "A" = none) ∧
      ("A", 5) ∈ s.commits ∧ 5 ≤ 1000000005 ∧ ttl oneSecond ≤ 1000000005 - 5 := by
  refine Run.exists_of_check
    (fun s => decide (s.sweeps[0]? = some ⟨1000000005, some ["A"]⟩ ∧ ("A", 5) ∈ s.commits ∧
      (s.topic.state.contents "A").isSome) &&
      (step oneSecond s (.expire 0 true)).any fun s' => (s'.topic.state.contents "A").isNone)
    (by decide +kernel) fun s hrun hend => ?_
  obtain ⟨hstate, hnext⟩ := Bool.and_eq_true_iff.mp hend
  obtain ⟨hsweep, hcommit, hlive⟩ := of_decide_eq_true hstate
  obtain ⟨s', hstep, hgone⟩ := (Option.any_eq_true _ _).mp hnext
  have hgone := Option.isNone_iff_eq_none.mp hgone
  exact ⟨⟨s', hstep, hgone⟩, hcommit, expires_only_idle hrun hsweep hstep hlive hgone hcommit⟩

end Quotes

end CqServer.Expiry
