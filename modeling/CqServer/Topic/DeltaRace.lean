import CqServer.Topic.Write
import CqServer.Lib.Run
import Mathlib.Data.Finset.Insert

/-!
# Concurrent delta publishes on one record

A delta publish reads the record under the read lock and writes the whole
merged image back under a later write lock. The calls on one record are
therefore read and commit steps in any interleaving. An image carries what its
call had read, so a commit undoes every commit that fell between the call's
read and its own commit. `survivors` follows that through a schedule, and
`deltaCalls_merge_iff` says that the record ends as the merge of all payloads
exactly when the calls that do not survive changed nothing.
-/

namespace CqServer.DeltaRace

open Lib Function Option

variable {σ : Schema} {ι : Type} [DecidableEq ι]

structure State (σ : Schema) (ι : Type) where
  topic : Topic σ
  pending : ι → Option (DeltaImage σ)
  done : ι → Bool

inductive Act (ι : Type) where
  | read (i : ι)
  | commit (i : ι) (now : Nat)

def State.start (t : Topic σ) : State σ ι := ⟨t, fun _ => none, fun _ => false⟩

section Race
variable [HostText] {cfg : TopicConfig} {payload : ι → JsonMap} {k : String}

/-- One phase of one call; every append succeeds, so every call returns `Ok`. -/
def step (cfg : TopicConfig) (payload : ι → JsonMap) (s : State σ ι) : Act ι → Option (State σ ι)
  | .read i =>
    if s.done i || (s.pending i).isSome then none
    else (deltaRead cfg s.topic.state (payload i)).map fun d =>
      { s with pending := update s.pending i (some d) }
  | .commit i now =>
    (s.pending i).map fun d =>
      { topic := (deltaCommit cfg now true s.topic d).topic
        pending := update s.pending i none
        done := update s.done i true }

/-- The converted value a payload supplies for a column. -/
def supplied (σ : Schema) (m : JsonMap) (c : σ.Col) : Option Value :=
  ((flatView m).get? (σ.columnName c)).map fun v => Value.fromJson v (σ.columnType c)

/-- The calls are deltas on record `k` over disjoint columns: each is looked up
and committed under `k`, they agree on the key columns, and no other column is
supplied twice. -/
structure CallsOn (cfg : TopicConfig) (σ : Schema) (payload : ι → JsonMap) (k : String) :
    Prop where
  lookupKey : ∀ i, computeKeyFromMap cfg (flatView (payload i)) = some k
  commitKey : ∀ i,
    computeKeyWith (Values.ofMap σ (flatView (payload i))).vals (cfg.keyColIndices σ) = some k
  sameKey : ∀ i j, ∀ c ∈ cfg.keyColIndices σ, supplied σ (payload i) c = supplied σ (payload j) c
  disjoint : ∀ i j, i ≠ j → ∀ c ∉ cfg.keyColIndices σ,
    supplied σ (payload i) c = none ∨ supplied σ (payload j) c = none

/-- `r` is `r₀` with the payloads of the calls in `G` applied. -/
structure Overlay (payload : ι → JsonMap) (r₀ : Row σ) (G : Finset ι) (r : Row σ) :
    Prop where
  applied : ∀ i ∈ G, ∀ c v, supplied σ (payload i) c = some v → r.cells c = v
  kept : ∀ c, (∀ i ∈ G, supplied σ (payload i) c = none) → r.cells c = r₀.cells c

/-- Every supplied column holds its payload's value, every other column its
initial one. -/
def Merged (payload : ι → JsonMap) (r₀ r : Row σ) : Prop :=
  (∀ i c v, supplied σ (payload i) c = some v → r.cells c = v) ∧
    ∀ c, (∀ i, supplied σ (payload i) c = none) → r.cells c = r₀.cells c

/-- Which calls the record contains, and which it contained when each call read. -/
structure Ghost (ι : Type) where
  current : Finset ι
  seen : ι → Finset ι

/-- A read remembers the calls in the record; a commit puts them back, with its
own. -/
def Ghost.step (g : Ghost ι) : Act ι → Ghost ι
  | .read i => { g with seen := update g.seen i g.current }
  | .commit i _ => { g with current := insert i (g.seen i) }

/-- The calls whose update a schedule leaves in the record. -/
def survivors (acts : List (Act ι)) : Finset ι :=
  (acts.foldl Ghost.step ⟨∅, fun _ => ∅⟩).current

/-! ## One phase -/

omit [DecidableEq ι] in
/-- A key column is supplied by every call, so the image has the call's key
whatever row it was read from. -/
theorem CallsOn.merge_key (h : CallsOn cfg σ payload k) (i : ι) (r : Row σ) :
    computeKeyWith (Values.merge σ (flatView (payload i)) (some r)).vals
      (cfg.keyColIndices σ) = some k := by
  rw [← h.commitKey i]
  apply computeKeyWith_congr
  intro c hc
  have hne := computeKeyWith_ne_null (h.commitKey i) hc
  cases hget : (flatView (payload i)).get? (σ.columnName c) with
  | none => exact absurd (Values.ofMap_vals_eq_null.mpr hget) hne
  | some v => simp [Values.merge, Values.ofMap, hget]

variable {i : ι}

theorem Overlay.merge (h : CallsOn cfg σ payload k) {r₀ r r' : Row σ} {G : Finset ι}
    (ho : Overlay payload r₀ G r)
    (hr' : ∀ c, r'.cells c = (supplied σ (payload i) c).getD (r.cells c)) :
    Overlay payload r₀ (insert i G) r' where
  applied j hj c v hv := by
    rw [hr' c]
    cases hi : supplied σ (payload i) c with
    | none =>
      rcases Finset.mem_insert.mp hj with rfl | hj
      · rw [hi] at hv
        cases hv
      · exact ho.applied j hj c v hv
    | some w =>
      -- Two calls supply the same column: it is a key column, or they are one call.
      by_cases hc : c ∈ cfg.keyColIndices σ
      · rw [h.sameKey j i c hc, hi] at hv
        exact some.inj hv
      · by_cases hij : i = j
        · subst hij
          rw [hi] at hv
          exact some.inj hv
        · rcases h.disjoint i j hij c hc with hn | hn
          · rw [hn] at hi
            cases hi
          · rw [hn] at hv
            cases hv
  kept c hc := by
    rw [hr' c, hc i (Finset.mem_insert_self i G)]
    exact ho.kept c fun j hj => hc j (Finset.mem_insert_of_mem hj)

/-- The record is the overlay of the surviving calls, and each pending image
is the overlay of what its call saw together with the call itself. -/
structure Inv (cfg : TopicConfig) (payload : ι → JsonMap) (k : String) (r₀ : Row σ)
    (s : State σ ι) (g : Ghost ι) : Prop where
  record : ∃ r, s.topic.state.contents k = some r ∧ Overlay payload r₀ g.current r
  image : ∀ i d, s.pending i = some d → ∃ r : Row σ, d.values = r.values ∧
    computeKeyWith r.cells (cfg.keyColIndices σ) = some k ∧
    Overlay payload r₀ (insert i (g.seen i)) r
  nonempty : ∀ i, s.done i = true → g.current.Nonempty

variable {r₀ : Row σ}

theorem Inv.init {t : Topic σ} (h : t.state.contents k = some r₀) :
    Inv cfg payload k r₀ (State.start t) ⟨∅, fun _ => ∅⟩ where
  record := ⟨r₀, h, ⟨by simp, fun _ _ => rfl⟩⟩
  image i d hd := by simp [State.start] at hd
  nonempty i hi := by simp [State.start] at hi

omit [DecidableEq ι] in
theorem deltaRead_image (hk : CallsOn cfg σ payload k) {st : StoreState σ} {r : Row σ}
    (hr : st.contents k = some r) {d : DeltaImage σ} (hd : deltaRead cfg st (payload i) = some d) :
    ∃ r' : Row σ, d.values = r'.values ∧
      (∀ c, r'.cells c = (supplied σ (payload i) c).getD (r.cells c)) ∧
      computeKeyWith r'.cells (cfg.keyColIndices σ) = some k := by
  have hvals : d.values = Values.merge σ (flatView (payload i)) (some r) := by
    simp only [deltaRead, deltaKey, hk.lookupKey i, map_some, some.injEq, hr] at hd
    rw [← hd]
  refine ⟨⟨(Values.merge σ (flatView (payload i)) (some r)).vals, fun c => ?_⟩, ?_, ?_, ?_⟩
  · exact ((Values.merge σ _ (some r)).typed c).resolve_left (Values.merge_some_ne_null _ r c)
  · rw [hvals]
    rfl
  · intro c
    cases h : (flatView (payload i)).get? (σ.columnName c) with
    | none | some v => simp [Values.merge, supplied, h]
  · exact hk.merge_key i r

variable {g : Ghost ι} {s t : State σ ι}

theorem Inv.step (hk : CallsOn cfg σ payload k) {a : Act ι} (hi : Inv cfg payload k r₀ s g)
    (hst : DeltaRace.step cfg payload s a = some t) : Inv cfg payload k r₀ t (g.step a) := by
  obtain ⟨r, hr, hover⟩ := hi.record
  cases a with
  | read i =>
    simp only [DeltaRace.step] at hst
    split at hst
    · cases hst
    obtain ⟨d, hd, rfl⟩ := map_eq_some_iff.mp hst
    refine ⟨⟨r, hr, hover⟩, forall_update_some ?_ fun j hj e he => ?_, hi.nonempty⟩
    · rintro _ ⟨⟩
      obtain ⟨r', hv, hc, hkey⟩ := deltaRead_image hk hr hd
      refine ⟨r', hv, hkey, ?_⟩
      simp only [Ghost.step, update_self]
      exact hover.merge hk hc
    · simpa only [Ghost.step, update_of_ne hj] using hi.image j e he
  | commit i now =>
    obtain ⟨d, hd, rfl⟩ := map_eq_some_iff.mp hst
    obtain ⟨r', hv, hkey, hover'⟩ := hi.image i d hd
    refine ⟨⟨r', ?_, hover'⟩, forall_update_some nofun fun j _ => hi.image j, ?_⟩
    · suffices (s.topic.state.commitValuesLocked _ now r'.values).1.contents k = some r' by
        simpa [deltaCommit, writeStoreWithChanged, hv] using this
      rw [StoreState.commitValuesLocked_contents hkey, hr]
      simp [StoreState.upsertRow]
    · intro j _
      exact ⟨i, Finset.mem_insert_self i _⟩

/-- Along a run the record is the overlay of the calls that survive so far. -/
theorem Inv.run (hk : CallsOn cfg σ payload k) {acts : List (Act ι)}
    (hrun : Run (DeltaRace.step cfg payload) (fun _ _ => True) s acts t)
    (hi : Inv cfg payload k r₀ s g) : Inv cfg payload k r₀ t (acts.foldl Ghost.step g) := by
  induction hrun generalizing g with
  | nil => exact hi
  | cons _ hst _ ih => exact ih (hi.step hk hst)

/-- **Concurrent deltas merge exactly when no surviving update is lost.** After
all calls have returned, every supplied column holds its payload's value and
every other column its initial value if and only if each call that does not
survive the schedule supplied only values its columns already held. -/
theorem deltaCalls_merge_iff (hk : CallsOn cfg σ payload k) {t : Topic σ} {r₀ : Row σ}
    (hr₀ : t.state.contents k = some r₀) {s : State σ ι} {acts : List (Act ι)}
    (hrun : Run (step cfg payload) (fun _ _ => True) (State.start t) acts s)
    (hdone : ∀ i, s.done i = true) :
    (∃ r, s.topic.state.contents k = some r ∧ Merged payload r₀ r) ↔
      ∀ i ∉ survivors acts, ∀ c ∉ cfg.keyColIndices σ, ∀ v,
        supplied σ (payload i) c = some v → r₀.cells c = v := by
  have hinv : Inv cfg payload k r₀ s _ := (Inv.init hr₀).run hk hrun
  obtain ⟨r, hr, hover⟩ := hinv.record
  -- A column of a lost call outside the key is supplied by no surviving call.
  have hlost : ∀ i ∉ survivors acts, ∀ c ∉ cfg.keyColIndices σ, ∀ v,
      supplied σ (payload i) c = some v → r.cells c = r₀.cells c := by
    intro i hi c hc v hv
    apply hover.kept c
    intro j hj
    have hij : i ≠ j := by
      rintro rfl
      exact hi hj
    rcases hk.disjoint i j hij c hc with hn | hn
    · rw [hn] at hv
      cases hv
    · exact hn
  constructor
  · rintro ⟨r', hr', hm⟩ i hi c hc v hv
    cases hr'.symm.trans hr
    rw [← hlost i hi c hc v hv]
    exact hm.1 i c v hv
  · intro hsame
    refine ⟨r, hr, ?_, ?_⟩
    · intro i c v hv
      by_cases hi : i ∈ survivors acts
      · exact hover.applied i hi c v hv
      by_cases hc : c ∈ cfg.keyColIndices σ
      · obtain ⟨j, hj⟩ := hinv.nonempty i (hdone i)
        exact hover.applied j hj c v ((hk.sameKey j i c hc).trans hv)
      · rw [hlost i hi c hc v hv]
        exact hsame i hi c hc v hv
    · intro c hc
      exact hover.kept c fun i _ => hc i

end Race

/-! ## Two ticks on one quote -/

section Ticks

open Unused

open Quotes

def quoted : Topic schema := (upsertMap config 0 true (.new schema) (full "A" 10 11)).topic

def quote : Row schema := Row.null.write (.ofMap schema (full "A" 10 11))

/-- One call moves the bid, the other the ask. -/
def tick : Bool → JsonMap
  | false => [("bid", num 20), ("sym", .string "A")]
  | true => [("ask", num 21), ("sym", .string "A")]

theorem tick_callsOn : CallsOn config schema tick "A" where
  lookupKey := by decide
  commitKey := by decide
  sameKey := by decide
  disjoint := by decide

theorem quoted_contents : quoted.state.contents "A" = some quote := by decide

def racing : List (Act Bool) := [.read false, .read true, .commit false 1, .commit true 1]

def serial : List (Act Bool) := [.read false, .commit false 1, .read true, .commit true 1]

/-- The second commit writes the bid it had read back over the first call's. -/
theorem deltaCalls_lost_update :
    CallsOn config schema tick "A" ∧ quoted.state.contents "A" = some quote ∧
      ∃ s, Run (step config tick) (fun _ _ => True) (State.start quoted) racing s ∧
        (∀ i, s.done i = true) ∧
        ¬ ∃ r, s.topic.state.contents "A" = some r ∧ Merged tick quote r := by
  refine ⟨tick_callsOn, quoted_contents, _,
    .cons trivial rfl (.cons trivial rfl (.cons trivial rfl (.cons trivial rfl .nil))), ?_, ?_⟩
  · decide
  · rintro ⟨r, hr, hm⟩
    have hbid : r.cells bid = .long 20 := hm.1 false bid (.long 20) (by decide)
    have hold : (some r).map (fun r => r.cells bid) = some (.long 10) := by
      rw [← hr]
      decide
    rw [map_some, hbid] at hold
    exact absurd hold (by decide)

theorem deltaCalls_merge_serial :
    ∃ s, Run (step config tick) (fun _ _ => True) (State.start quoted) serial s ∧
      ∃ r, s.topic.state.contents "A" = some r ∧ Merged tick quote r := by
  have hrun : Run (step config tick) (fun _ _ => True) (State.start quoted) serial _ :=
    .cons trivial rfl (.cons trivial rfl (.cons trivial rfl (.cons trivial rfl .nil)))
  refine ⟨_, hrun, (deltaCalls_merge_iff tick_callsOn quoted_contents hrun (by decide)).mpr ?_⟩
  intro i hi
  exact absurd (by cases i <;> decide) hi

end Ticks

end CqServer.DeltaRace
