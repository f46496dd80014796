import CqServer.Subscription.ActiveSet
import CqServer.Subscription.Conflation
import CqServer.Lib.Family

/-!
# Sparse deltas and the client that merges them

A sparse subscription sends a whole row when it enters, then only the fields that
changed, with the key fields along, and only the key fields when it leaves. The client
keeps one record per key and merges. A field that becomes null is left out of the
payload, so the client keeps its old value (`null_is_not_sent`); with a key column outside
the projection the client cannot tell which record an entry or a removal is about.

As long as the key columns are projected, no field of a shown record becomes null, and
the other conditions of `Mergeable` hold, the client has exactly the live matching rows
(`sparse_records_current`).
-/

namespace CqServer.Sparse

open Lib StoreState List Function Subscription SubscriptionEngine
open Conflation (Fields overlay)

variable {σ : Schema}

section Payloads
variable [HostText]

def rowFields (r : Row σ) (cols : List σ.Col) : Fields := fun name =>
  (σ.indexOf name).bind fun c => if c ∈ cols then (r.cells c).shown else none

section
variable (hσ : σ.Distinct) (r : Row σ) (cols : List σ.Col)
include hσ

theorem rowFields_columnName (c : σ.Col) :
    rowFields r cols (σ.columnName c) = if c ∈ cols then (r.cells c).shown else none := by
  simp [rowFields, σ.indexOf_columnName hσ]

theorem getRowMapProjected_fields :
    (r.getRowMapProjected cols).get? = rowFields r cols := by
  funext name
  cases h : σ.indexOf name with
  | some c =>
    obtain rfl := Schema.columnName_of_indexOf h
    rw [r.getRowMapProjected_get? hσ, rowFields_columnName hσ]
    unfold Value.shown
    by_cases hc : c ∈ cols
    · cases hnull : (r.cells c).isNull <;> simp
    · simp [hc]
  | none =>
    rw [r.getRowMapProjected_get?_of_ne cols (σ.columnName_ne_of_indexOf h), rowFields, h]
    rfl

end

/-- The record a payload is about: the key fields it has. -/
def recordName (keyCols : List σ.Col) (m : JsonMap) : List (Option Json) :=
  keyCols.map fun c => m.get? (σ.columnName c)

def rowName (keyCols : List σ.Col) (r : Row σ) : List (Option Json) :=
  keyCols.map fun c => (r.cells c).shown

theorem recordName_projected (hσ : σ.Distinct) {keyCols cols : List σ.Col}
    (hkeys : ∀ c ∈ keyCols, c ∈ cols) (r : Row σ) :
    recordName keyCols (r.getRowMapProjected cols) = rowName keyCols r := by
  refine map_congr_left fun c hc => ?_
  rw [getRowMapProjected_fields hσ, rowFields_columnName hσ, if_pos (hkeys c hc)]

/-! ## A record that stays -/

/-- A record stays in view and the sparse update says all there is to say: its key fields are
as before, no projected field becomes null, and no double changes from one zero to the other. -/
structure Mergeable (keyCols proj : List σ.Col) (old new : Row σ) : Prop where
  keys : ∀ c ∈ keyCols, new.cells c = old.cells c
  nulls : ∀ c ∈ proj, (new.cells c).isNull = true → (old.cells c).isNull = true
  zeros : ∀ c ∈ proj, (old.cells c).partialEq (new.cells c) = true → new.cells c = old.cells c

instance (keyCols proj : List σ.Col) (old new : Row σ) : Decidable (Mergeable keyCols proj old new) :=
  decidable_of_iff ((∀ c ∈ keyCols, new.cells c = old.cells c) ∧
      (∀ c ∈ proj, (new.cells c).isNull = true → (old.cells c).isNull = true) ∧
      ∀ c ∈ proj, (old.cells c).partialEq (new.cells c) = true → new.cells c = old.cells c)
    ⟨fun h => ⟨h.1, h.2.1, h.2.2⟩, fun h => ⟨h.keys, h.nulls, h.zeros⟩⟩

variable {keyCols proj : List σ.Col} {old new : Row σ} {prev : Snapshot σ}

omit [HostText] in
theorem cellChanged_eq (hprev : ∀ c ∈ proj, prev c = some (old.cells c)) {c : σ.Col}
    (hc : c ∈ proj) : cellChanged (some prev) new c = !(old.cells c).partialEq (new.cells c) := by
  simp [cellChanged, hprev c hc]

/-- The columns of a sparse update, when all key columns are projected. -/
def sentCols (prev : Snapshot σ) (new : Row σ) (proj keyCols : List σ.Col) : List σ.Col :=
  proj.filter fun c => cellChanged (some prev) new c || keyCols.contains c

omit [HostText] in
theorem mem_sentCols {c : σ.Col} : c ∈ sentCols prev new proj keyCols ↔
    c ∈ proj ∧ (cellChanged (some prev) new c = true ∨ c ∈ keyCols) := by
  simp [sentCols]

theorem diffPayload_eq (hkeys : ∀ c ∈ keyCols, c ∈ proj) :
    diffPayload (some prev) new proj keyCols =
      new.getRowMapProjected (sentCols prev new proj keyCols) := by
  have hextra : keyCols.filter (fun c => !proj.contains c) = [] := by
    refine filter_eq_nil_iff.mpr fun c hc => ?_
    simp [hkeys c hc]
  unfold diffPayload sentCols
  dsimp only
  rw [hextra, ite_self, append_nil]

/-- **The merged record is the row.** -/
theorem Mergeable.overlay (hσ : σ.Distinct) (h : Mergeable keyCols proj old new)
    (hkeys : ∀ c ∈ keyCols, c ∈ proj) (hprev : ∀ c ∈ proj, prev c = some (old.cells c)) :
    overlay (diffPayload (some prev) new proj keyCols) (some (rowFields old proj)) =
      rowFields new proj := by
  funext name
  unfold Conflation.overlay
  rw [diffPayload_eq hkeys, getRowMapProjected_fields hσ]
  cases hname : σ.indexOf name with
  | none => simp [rowFields, hname]
  | some c =>
    simp only [rowFields, hname, Option.bind_some]
    by_cases hc : c ∈ proj
    · rw [if_pos hc, if_pos hc]
      by_cases hsent : c ∈ sentCols prev new proj keyCols
      · -- the field is sent, unless it is null
        rw [if_pos hsent]
        cases hnull : (new.cells c).isNull with
        | false => simp [Value.shown, hnull]
        | true => simp [Value.shown, h.nulls c hc hnull]
      · -- the field is as it was
        rw [if_neg hsent, Option.none_or]
        have hchanged : cellChanged (some prev) new c = false := by
          by_contra hne
          exact hsent (mem_sentCols.mpr ⟨hc, .inl (by simpa using hne)⟩)
        rw [cellChanged_eq hprev hc] at hchanged
        rw [h.zeros c hc (by simpa using hchanged)]
    · rw [if_neg fun hmem => hc (mem_sentCols.mp hmem).1, if_neg hc, if_neg hc]
      rfl

theorem recordName_diffPayload (hσ : σ.Distinct) (hkeys : ∀ c ∈ keyCols, c ∈ proj) :
    recordName keyCols (diffPayload (some prev) new proj keyCols) = rowName keyCols new := by
  rw [diffPayload_eq hkeys]
  exact recordName_projected hσ (fun c hc => mem_sentCols.mpr ⟨hkeys c hc, .inr hc⟩) new

end Payloads

section Client
variable [HostText]

abbrev Records := Conflation.View (List (Option Json))

/-- The records after some deltas, each about the record its key fields name. -/
def merge (keyCols : List σ.Col) (v : Records) (ds : List Delta) : Records :=
  v.receive true (ds.map fun d => ⟨recordName keyCols d.rowData, d⟩)

variable {keyCols : List σ.Col} {v : Records} {ds : List Delta}

omit [HostText] in
theorem merge_of_nil
    (h : ds.map (fun d => (d.deltaType, d.rowData)) = []) : merge keyCols v ds = v := by
  rw [map_eq_nil_iff.mp h]
  rfl

omit [HostText] in
theorem merge_of_singleton {ty : DeltaType} {data : JsonMap}
    (h : ds.map (fun d => (d.deltaType, d.rowData)) = [(ty, data)]) :
    merge keyCols v ds = update v (recordName keyCols data) (if ty = .add then some data.get?
      else if ty = .update then some (overlay data (v (recordName keyCols data)))
      else none) := by
  obtain ⟨⟨id, ty', row, sequence, data'⟩, rfl, hd⟩ := map_eq_singleton_iff.mp h
  cases hd
  cases ty' <;> rfl

def snapshotRecords (keyCols : List σ.Col) (rows : List JsonMap) : Records :=
  rows.foldl (fun v m => update v (recordName keyCols m) (some m.get?)) fun _ => none

/-- The rows the client should have, by slot. -/
def expected (keyCols : List σ.Col) (q : ParsedQuery σ) (st : StoreState σ) :
    Nat → Option (List (Option Json) × Fields) := fun r =>
  if Member q st r then
    some (rowName keyCols (st.row r), (projectRow q (st.row r)).get?)
  else none

structure Client (σ : Schema) where
  watched : Watched σ
  records : Records

variable [AggregateExec σ]

def Client.register (cfg : TopicConfig) (t : Topic σ) (id : String) (q : ParsedQuery σ) : Client σ :=
  ⟨.register cfg t id q { sparse := true },
    snapshotRecords (cfg.keyColIndices σ) ((snapshotRows cfg t.state q).map Prod.snd)⟩

def Client.step (cfg : TopicConfig) (c : Client σ) (w : Write) : Option (Client σ) :=
  let turn := c.watched.turn cfg w
  some ⟨turn.1, merge (cfg.keyColIndices σ) c.records turn.2⟩

end Client

section Names
variable [HostText] {keyCols : List σ.Col} {st : StoreState σ}

/-- The key cells of every live record can be read back from their JSON form. -/
def Nameable (keyCols : List σ.Col) (st : StoreState σ) : Prop :=
  ∀ r, st.table.Live r → ∀ c ∈ keyCols, ((st.row r).cells c).Survives (σ.columnType c)

instance : Decidable (Nameable keyCols st) :=
  have : Decidable (∀ r, r < st.table.rowCount → st.table.Live r →
      ∀ c ∈ keyCols, ((st.row r).cells c).Survives (σ.columnType c)) := Nat.decidableBallLT _ _
  decidable_of_iff (∀ r, r < st.table.rowCount → st.table.Live r →
      ∀ c ∈ keyCols, ((st.row r).cells c).Survives (σ.columnType c)) <| by
    refine ⟨fun h r hr => ?_, fun h r _ => h r⟩
    obtain ⟨k, hk⟩ := hr
    exact h r (st.table.slot_lt hk) ⟨k, hk⟩

theorem Nameable.inj (h : Nameable keyCols st) (hkeyed : Keyed keyCols st) {r r' : Nat}
    (hr : st.table.Live r) (hr' : st.table.Live r')
    (hname : rowName keyCols (st.row r) = rowName keyCols (st.row r')) : r = r' := by
  have hcells : ∀ c ∈ keyCols, (st.row r).cells c = (st.row r').cells c := by
    intro c hc
    exact Value.shown_inj (h r hr c hc) (h r' hr' c hc) (map_inj_left.mp hname c hc)
  obtain ⟨k, hk⟩ := hr
  obtain ⟨k', hk'⟩ := hr'
  have hkey : some k = some k' :=
    (hkeyed.live hk).symm.trans ((computeKeyWith_congr hcells).trans (hkeyed.live hk'))
  rw [Option.some.inj hkey] at hk
  exact Option.some.inj (hk.symm.trans hk')

theorem expected_eq_some {q : ParsedQuery σ} {r : Nat} {p : List (Option Json) × Fields} :
    expected keyCols q st r = some p ↔ Member q st r ∧
      (rowName keyCols (st.row r), (projectRow q (st.row r)).get?) = p := by
  unfold expected
  split
  · rename_i h
    simp [h]
  · rename_i h
    simp [h]

theorem Nameable.fresh (h : Nameable keyCols st) (hkeyed : Keyed keyCols st) (q : ParsedQuery σ)
    {r : Nat} (hr : st.table.Live r) :
    ∀ j, j ≠ r → ∀ f, expected keyCols q st j ≠ some (rowName keyCols (st.row r), f) := by
  intro j hj f hf
  obtain ⟨hmem, heq⟩ := expected_eq_some.mp hf
  exact hj (h.inj hkeyed hmem.1 hr (Prod.mk.inj heq).1)

end Names

/-! ## What the subscription remembers and sends -/

section Evaluate
variable [HostText] {sub : Subscription σ}

/-- The remembered values of a row are its current ones. -/
def Remembers (sub : Subscription σ) (r : Nat) (row : Row σ) : Prop :=
  ∃ p, sub.lastSnapshot r = some p ∧ ∀ c ∈ sub.query.effectiveProjection, p c = some (row.cells c)

theorem evaluateRow_sparse (h : sub.Rowwise) (hsparse : sub.sparse = true) (row sequence : Nat)
    (kind : MutationKind) (store : ColumnStore σ) :
    let o := sub.evaluateRow row sequence kind store
    let proj := sub.query.effectiveProjection
    let prev := sub.lastSnapshot row
    (o.1.sparse = true ∧ o.1.keyCols = sub.keyCols ∧
      (∀ r, r ≠ row → o.1.lastSnapshot r = sub.lastSnapshot r) ∧
      (sub.matchesEvent row kind store = true → Remembers o.1 row (store.row row))) ∧
    (o.2.map fun d => (d.deltaType, d.rowData)) =
      if sub.matchesEvent row kind store then
        if row ∈ sub.activeSet then
          if proj.any (cellChanged prev (store.row row)) then
            [(.update, diffPayload prev (store.row row) proj sub.keyCols)]
          else []
        else [(.add, projectRow sub.query (store.row row))]
      else if row ∈ sub.activeSet then
        [(if kind = .delete then .remove else .oof,
          keyOnlyPayload (prev.getD fun _ => none) sub.keyCols)]
      else [] := by
  unfold evaluateRow
  split
  · split
    · unfold stay
      dsimp only
      rw [if_pos hsparse]
      refine ⟨⟨hsparse, rfl, fun r hr => update_of_ne hr .., fun _ => ?_⟩, by split <;> rfl⟩
      exact ⟨_, update_self .., fun c hc => if_pos (mem_append_left _ hc)⟩
    · unfold enter
      rw [if_neg (sub.not_full h.noCap), if_pos hsparse]
      refine ⟨⟨hsparse, rfl, fun r hr => update_of_ne hr .., fun _ => ?_⟩, rfl⟩
      exact ⟨_, update_self .., fun c hc => if_pos hc⟩
  · rename_i hm
    split
    · unfold leave
      dsimp only
      rw [if_pos hsparse]
      refine ⟨⟨hsparse, rfl, fun r hr => update_of_ne hr .., fun hm' => absurd hm' hm⟩, ?_⟩
      simp only [delta, hsparse, if_true, map_cons, map_nil]
    · exact ⟨⟨hsparse, rfl, fun _ _ => rfl, fun hm' => absurd hm' hm⟩, rfl⟩

omit [HostText] in
theorem seedRows_remembers (h : sub.Rowwise) (hsparse : sub.sparse = true) (store : ColumnStore σ)
    (rows : List Nat) :
    (sub.seedRows store rows).sparse = true ∧ (sub.seedRows store rows).keyCols = sub.keyCols ∧
      ∀ r, r ∈ rows ∧ sub.query.predicate.holds (store.row r) = true ∨
          Remembers sub r (store.row r) →
        Remembers (sub.seedRows store rows) r (store.row r) := by
  induction rows generalizing sub with
  | nil =>
    refine ⟨hsparse, rfl, fun r hr => ?_⟩
    exact hr.resolve_left fun hc => by simp at hc
  | cons row rows ih =>
    rw [seedRows]
    by_cases hm : sub.query.predicate.holds (store.row row) = true
    · rw [if_pos hm, if_neg (sub.not_full h.noCap)]
      obtain ⟨hs, hk, hrest⟩ := ih (h.seedRow_keeps row store) hsparse
      refine ⟨hs, hk, fun r hr => hrest r ?_⟩
      by_cases heq : r = row
      · -- the row that is taken now
        subst heq
        refine .inr ⟨snapshotColumns (store.row r) sub.query.effectiveProjection, ?_,
          fun c hc => if_pos hc⟩
        simp only [seedRow, hsparse, if_true, update_self]
      · refine hr.imp (fun hin => ⟨(mem_cons.mp hin.1).resolve_left heq, hin.2⟩) ?_
        rintro ⟨p, hp, hcells⟩
        refine ⟨p, ?_, hcells⟩
        simp only [seedRow, hsparse, if_true, update_of_ne heq, hp]
    · rw [if_neg hm]
      obtain ⟨hs, hk, hrest⟩ := ih h hsparse
      refine ⟨hs, hk, fun r hr => hrest r (hr.imp_left fun hin => ⟨?_, hin.2⟩)⟩
      refine (mem_cons.mp hin.1).resolve_left ?_
      rintro rfl
      exact hm hin.2

end Evaluate

/-! ## The invariant -/

section Invariant
variable [HostText] [AggregateExec σ]

/-- The client has the live matching rows, and the subscription remembers them as they are. -/
structure Current (cfg : TopicConfig) (q : ParsedQuery σ) (c : Client σ) : Prop where
  exact : c.watched.Exact
  query : c.watched.sub.query = q
  sparse : c.watched.sub.sparse = true
  keyCols : c.watched.sub.keyCols = cfg.keyColIndices σ
  remembers : ∀ r, Member q c.watched.topic.state r →
    Remembers c.watched.sub r (c.watched.topic.state.row r)
  keyed : Keyed (cfg.keyColIndices σ) c.watched.topic.state
  nameable : Nameable (cfg.keyColIndices σ) c.watched.topic.state
  shows : Lists (expected (cfg.keyColIndices σ) q c.watched.topic.state) c.records

/-- The condition on a write, from the store it finds and the store it leaves. -/
structure Ok (cfg : TopicConfig) (q : ParsedQuery σ) (c : Client σ) (w : Write) : Prop where
  sound : w.Sound cfg c.watched.topic
  nameable : Nameable (cfg.keyColIndices σ) (w.perform cfg c.watched.topic).topic.state
  stays : ∀ r, Member q c.watched.topic.state r →
    Member q (w.perform cfg c.watched.topic).topic.state r →
    Mergeable (cfg.keyColIndices σ) q.effectiveProjection (c.watched.topic.state.row r)
      ((w.perform cfg c.watched.topic).topic.state.row r)
  /-- A delta that the index does not dispatch changes nothing the subscription shows. -/
  missed : ∀ ev ∈ (w.perform cfg c.watched.topic).events,
    ¬ Dispatched ev.changedCols c.watched.sub →
    (Member q (w.perform cfg c.watched.topic).topic.state ev.row ↔
      Member q c.watched.topic.state ev.row) ∧
    (Member q c.watched.topic.state ev.row → ∀ col ∈ q.effectiveProjection,
      ((w.perform cfg c.watched.topic).topic.state.row ev.row).cells col =
        (c.watched.topic.state.row ev.row).cells col)

instance (cfg : TopicConfig) (q : ParsedQuery σ) (c : Client σ) (w : Write) :
    Decidable (Ok cfg q c w) :=
  let t := c.watched.topic
  let o := w.perform cfg t
  decidable_of_iff ((w.Sound cfg t ∧ Nameable (cfg.keyColIndices σ) o.topic.state) ∧
      (∀ r < t.state.table.rowCount, Member q t.state r → Member q o.topic.state r →
        Mergeable (cfg.keyColIndices σ) q.effectiveProjection (t.state.row r) (o.topic.state.row r)) ∧
      ∀ ev ∈ o.events, ¬ Dispatched ev.changedCols c.watched.sub →
        (Member q o.topic.state ev.row ↔ Member q t.state ev.row) ∧
        (Member q t.state ev.row → ∀ col ∈ q.effectiveProjection,
          (o.topic.state.row ev.row).cells col = (t.state.row ev.row).cells col)) <| by
    refine ⟨fun h => ⟨h.1.1, h.1.2, fun r hr => ?_, h.2.2⟩,
      fun h => ⟨⟨h.sound, h.nameable⟩, fun r _ => h.stays r, h.missed⟩⟩
    obtain ⟨k, hk⟩ := hr.1
    exact h.2.1 r (t.state.table.slot_lt hk) hr

omit [AggregateExec σ] in
theorem expected_congr {keyCols : List σ.Col} {q : ParsedQuery σ} {st st' : StoreState σ} {r : Nat}
    (hkeys : ∀ c ∈ keyCols, c ∈ q.effectiveProjection)
    (hmem : Member q st' r ↔ Member q st r)
    (hcells : Member q st r → ∀ c ∈ q.effectiveProjection, (st'.row r).cells c = (st.row r).cells c) :
    expected keyCols q st' r = expected keyCols q st r := by
  unfold expected
  by_cases hm : Member q st r
  · have hname : rowName keyCols (st'.row r) = rowName keyCols (st.row r) :=
      map_congr_left fun c hc => by rw [hcells hm c (hkeys c hc)]
    rw [if_pos hm, if_pos (hmem.mpr hm), hname, projectRow_eq, projectRow_eq,
      Row.getRowMapProjected_congr (hcells hm)]
  · rw [if_neg hm, if_neg fun h => hm (hmem.mp h)]

/-! ## One event -/

section Event
variable {keyCols : List σ.Col} {q : ParsedQuery σ} {st st' : StoreState σ} {r : Nat} {v : Records}
  (hσ : σ.Distinct) (hkeys : ∀ c ∈ keyCols, c ∈ q.effectiveProjection)
  (h : Lists (expected keyCols q st) v)
  (hother : ∀ j, j ≠ r → expected keyCols q st' j = expected keyCols q st j)
include hσ hkeys h hother
omit [AggregateExec σ]

theorem shows_enter (hout : ¬ Member q st r) (hin : Member q st' r) (hname : Nameable keyCols st')
    (hkeyed : Keyed keyCols st') :
    Lists (expected keyCols q st') (update v (recordName keyCols (projectRow q (st'.row r)))
        (some (projectRow q (st'.row r)).get?)) := by
  have hrec : recordName keyCols (projectRow q (st'.row r)) = rowName keyCols (st'.row r) := by
    rw [projectRow_eq, recordName_projected hσ hkeys]
  rw [hrec]
  refine h.change hother (expected_eq_some.mpr ⟨hin, rfl⟩) ?_ ?_
  · intro k f hf
    exact absurd (expected_eq_some.mp hf).1 hout
  · intro j hj f
    rw [← hother j hj]
    exact hname.fresh hkeyed q hin.1 j hj f

theorem shows_stay (hwas : Member q st r) (hin : Member q st' r) (hname : Nameable keyCols st')
    (hkeyed : Keyed keyCols st') {prev : Snapshot σ}
    (hprev : ∀ c ∈ q.effectiveProjection, prev c = some ((st.row r).cells c))
    (hmerge : Mergeable keyCols q.effectiveProjection (st.row r) (st'.row r)) :
    let data := diffPayload (some prev) (st'.row r) q.effectiveProjection keyCols
    Lists (expected keyCols q st') (update v (recordName keyCols data)
        (some (overlay data (v (recordName keyCols data))))) := by
  have hsame : rowName keyCols (st.row r) = rowName keyCols (st'.row r) :=
    map_congr_left fun c hc => by rw [hmerge.keys c hc]
  have hold : v (rowName keyCols (st'.row r)) = some (rowFields (st.row r) q.effectiveProjection) := by
    rw [← getRowMapProjected_fields hσ, ← projectRow_eq, ← hsame]
    exact h.get (expected_eq_some.mpr ⟨hwas, rfl⟩)
  dsimp only
  rw [recordName_diffPayload hσ hkeys, hold, hmerge.overlay hσ hkeys hprev]
  refine h.change hother (expected_eq_some.mpr ⟨hin, ?_⟩) ?_ ?_
  · rw [projectRow_eq, getRowMapProjected_fields hσ]
  · intro k f hf
    rw [← (Prod.mk.inj (expected_eq_some.mp hf).2).1, hsame]
  · intro j hj f
    rw [← hother j hj]
    exact hname.fresh hkeyed q hin.1 j hj f

theorem shows_leave (hwas : Member q st r) (hout : ¬ Member q st' r) (hname : Nameable keyCols st)
    (hkeyed : Keyed keyCols st) {prev : Snapshot σ}
    (hprev : ∀ c ∈ q.effectiveProjection, prev c = some ((st.row r).cells c)) :
    Lists (expected keyCols q st')
      (update v (recordName keyCols (keyOnlyPayload prev keyCols)) none) := by
  have hpayload : keyOnlyPayload prev keyCols = (st.row r).getRowMapProjected keyCols :=
    foldl_ext _ _ _ fun m c hc => by rw [hprev c (hkeys c hc)]
  rw [hpayload, recordName_projected hσ fun c hc => hc]
  refine h.change hother (if_neg hout) ?_ (hname.fresh hkeyed q hwas.1)
  intro k f hf
  exact (Prod.mk.inj (expected_eq_some.mp hf).2).1.symm

end Event

variable {cfg : TopicConfig} {q : ParsedQuery σ} {c : Client σ}

section Turn
variable (hσ : σ.Distinct) (hkeys : ∀ col ∈ cfg.keyColIndices σ, col ∈ q.effectiveProjection)
  (h : Current cfg q c) {w : Write} (hok : Ok cfg q c w)
include hkeys h

include hσ hok in
theorem Current.dispatched {ev : MutationEvent σ}
    (hev : (w.perform cfg c.watched.topic).events = [ev])
    (ht : Touches c.watched.topic (w.perform cfg c.watched.topic).topic ev)
    (hdis : Dispatched ev.changedCols c.watched.sub) :
    Current cfg q ⟨(c.watched.turn cfg w).1,
      merge (cfg.keyColIndices σ) c.records (c.watched.turn cfg w).2⟩ := by
  obtain ⟨hexact, hquery, -⟩ := h.exact.turn hok.sound fun ev' hev' => by
    rw [hev, mem_singleton] at hev'
    rw [hev']
    exact hdis
  have hlisten : c.watched.sub.listens ev.sequence := by
    rw [listens_iff h.exact.rowwise.open_, ht.sequence]
    exact h.exact.start
  have hturn := Watched.turn_of_singleton hev
  rw [receive, if_pos hdis, evaluate_eq_row _ _ _ hlisten h.exact.rowwise.noTopn
    h.exact.rowwise.noAggregate] at hturn
  obtain ⟨⟨hsparse, hkeyCols, hother, hself⟩, hpay⟩ := evaluateRow_sparse h.exact.rowwise h.sparse
    ev.row ev.sequence ev.kind (w.perform cfg c.watched.topic).topic.state.store
  have hmem := ht.member_self c.watched.sub
  have hkeyed := hok.sound.keyed h.keyed
  have hname := hok.nameable
  rw [h.query] at hmem hquery
  have hsame : ∀ j, j ≠ ev.row →
      expected (cfg.keyColIndices σ) q (w.perform cfg c.watched.topic).topic.state j =
        expected (cfg.keyColIndices σ) q c.watched.topic.state j := by
    intro j hj
    refine expected_congr hkeys (ht.member_ne q hj) fun _ col _ => ?_
    rw [ht.row j hj]
  have hkeep (hrow : expected (cfg.keyColIndices σ) q
      (w.perform cfg c.watched.topic).topic.state ev.row = _) :=
    h.shows.congr fun j => (eq_or_ne j ev.row).elim (fun hj => hj ▸ hrow) (hsame j)
  have hactive : ev.row ∈ c.watched.sub.activeSet ↔ Member q c.watched.topic.state ev.row := by
    rw [h.exact.active, h.query]
  rw [hturn] at hexact hquery ⊢
  refine ⟨hexact, hquery, hsparse, hkeyCols.trans h.keyCols, ?_, hkeyed, hname, ?_⟩
  · intro r hr
    by_cases heq : r = ev.row
    · subst heq
      exact hself (hmem.mp hr)
    · rw [ht.member_ne q heq] at hr
      obtain ⟨p, hp, hcells⟩ := h.remembers r hr
      refine ⟨p, (hother r heq).trans hp, ?_⟩
      rw [ht.row r heq, hquery, ← h.query]
      exact hcells
  · rw [h.query, h.keyCols] at hpay
    split at hpay
    · rename_i hm
      have hin := hmem.mpr hm
      split at hpay
      · -- stays
        rename_i hact
        have hwas := hactive.mp hact
        obtain ⟨prev, hlast, hprev⟩ := h.remembers ev.row hwas
        have hmerge := hok.stays ev.row hwas hin
        rw [h.query] at hprev
        rw [hlast] at hpay
        split at hpay
        · rw [merge_of_singleton hpay]
          exact shows_stay hσ hkeys h.shows hsame hwas hin hname hkeyed hprev hmerge
        · rename_i hnone
          rw [merge_of_nil hpay]
          refine hkeep (expected_congr hkeys (iff_of_true hin hwas) fun _ c hc => hmerge.zeros c hc ?_)
          have hchanged := mt (fun hch => any_eq_true.mpr ⟨c, hc, hch⟩) hnone
          rwa [cellChanged_eq hprev hc, Bool.not_eq_true, Bool.not_eq_false'] at hchanged
      · -- enters
        rename_i hact
        rw [merge_of_singleton hpay]
        exact shows_enter hσ hkeys h.shows hsame (mt hactive.mpr hact) hin hname hkeyed
    · rename_i hm
      have hout := mt hmem.mp hm
      split at hpay
      · -- leaves
        rename_i hact
        have hwas := hactive.mp hact
        obtain ⟨prev, hlast, hprev⟩ := h.remembers ev.row hwas
        rw [h.query] at hprev
        rw [hlast] at hpay
        rw [merge_of_singleton hpay]
        have hnone := shows_leave hσ hkeys h.shows hsame hwas hout h.nameable h.keyed hprev
        split <;> simpa using hnone
      · rename_i hact
        have hwas := mt hactive.mpr hact
        rw [merge_of_nil hpay]
        exact hkeep (expected_congr hkeys (iff_of_false hout hwas) fun hc => absurd hc hwas)

omit [AggregateExec σ] in
theorem Current.unchanged {t : Topic σ} (hstart : c.watched.topic.nextSequence ≤ t.nextSequence)
    (hmem : ∀ r, Member q t.state r ↔ Member q c.watched.topic.state r)
    (hcells : ∀ r, Member q c.watched.topic.state r → ∀ col ∈ q.effectiveProjection,
      (t.state.row r).cells col = (c.watched.topic.state.row r).cells col)
    (hkeyed : Keyed (cfg.keyColIndices σ) t.state) (hname : Nameable (cfg.keyColIndices σ) t.state) :
    Current cfg q ⟨⟨t, c.watched.sub⟩, c.records⟩ := by
  refine ⟨⟨h.exact.rowwise, h.exact.start.trans (Nat.succ_le_succ hstart), ?_⟩, h.query, h.sparse,
    h.keyCols, ?_, hkeyed, hname, ?_⟩
  · intro r
    refine (h.exact.active r).trans ?_
    rw [h.query]
    exact (hmem r).symm
  · intro r hr
    obtain ⟨p, hp, hlast⟩ := h.remembers r ((hmem r).mp hr)
    refine ⟨p, hp, fun col hcol => ?_⟩
    rw [hlast col hcol, hcells r ((hmem r).mp hr) col (h.query ▸ hcol)]
  · exact h.shows.congr fun r => expected_congr hkeys (hmem r) (hcells r)

include hσ hok in
theorem Current.step {c' : Client σ} (hstep : Client.step cfg c w = some c') : Current cfg q c' := by
  cases hstep
  have hkeyed := hok.sound.keyed h.keyed
  rcases hok.sound.cases with ⟨hnil, hstate, hnext⟩ | ⟨ev, hev, ht⟩
  · -- no event
    rw [Watched.turn_of_nil hnil]
    refine h.unchanged hkeys hnext ?_ ?_ hkeyed hok.nameable
    · intro r
      rw [hstate]
    · intro r _ col _
      rw [hstate]
  · by_cases hdis : Dispatched ev.changedCols c.watched.sub
    · exact h.dispatched hσ hkeys hok hev ht hdis
    · -- an event that is not dispatched
      obtain ⟨hmem, hcells⟩ := hok.missed ev (by rw [hev]; exact mem_singleton_self _) hdis
      rw [Watched.turn_of_singleton hev, receive, if_neg hdis]
      refine h.unchanged hkeys (ht.next ▸ Nat.le_succ _) ?_ ?_ hkeyed hok.nameable
      · intro r
        by_cases hr : r = ev.row
        · rw [hr]
          exact hmem
        · exact ht.member_ne q hr
      · intro r hr
        by_cases heq : r = ev.row
        · subst heq
          exact hcells hr
        · intro col _
          rw [ht.row r heq]

end Turn

/-! ## Registration -/

section
variable (hσ : σ.Distinct) (hkey : cfg.keyFields ≠ []) (hq : q.Stored)
  (hkeys : ∀ col ∈ cfg.keyColIndices σ, col ∈ q.effectiveProjection)
include hσ hkey hq hkeys

theorem snapshotRecords_lists {st : StoreState σ}
    (hkeyed : Keyed (cfg.keyColIndices σ) st) (hname : Nameable (cfg.keyColIndices σ) st) :
    Lists (expected (cfg.keyColIndices σ) q st)
      (snapshotRecords (cfg.keyColIndices σ) ((snapshotRows cfg st q).map Prod.snd)) := by
  let rows := (selectedRows q st.store).filter fun r => decide (st.table.Live r)
  have hmem : ∀ r, r ∈ rows ↔ Member q st r := by
    intro r
    rw [mem_filter, mem_selectedRows hq, decide_eq_true_iff]
    constructor
    · rintro ⟨⟨-, hholds⟩, hlive⟩
      exact ⟨hlive, hholds⟩
    · rintro ⟨⟨k, hk⟩, hholds⟩
      exact ⟨⟨st.table.slot_lt hk, hholds⟩, k, hk⟩
  have hlists := Lists.foldl_update
    (fun r => (rowName (cfg.keyColIndices σ) (st.row r), (projectRow q (st.row r)).get?)) rows
    fun i hi j hj heq => hname.inj hkeyed ((hmem i).mp hi).1 ((hmem j).mp hj).1 heq
  have hrecords : snapshotRecords (cfg.keyColIndices σ) ((snapshotRows cfg st q).map Prod.snd) =
      rows.foldl (fun v r => update v (rowName (cfg.keyColIndices σ) (st.row r))
        (some (projectRow q (st.row r)).get?)) fun _ => none := by
    rw [snapshotRecords, snapshotRows_eq hkey hq, map_map, foldl_map]
    refine foldl_ext _ _ _ fun v r _ => ?_
    simp only [comp_apply]
    rw [projectRow_eq, recordName_projected hσ hkeys]
  rw [hrecords]
  refine hlists.congr fun r => ?_
  unfold expected
  simp [hmem]

theorem Current.register {t : Topic σ} (id : String)
    (hkeyed : Keyed (cfg.keyColIndices σ) t.state) (hname : Nameable (cfg.keyColIndices σ) t.state)
    (hdead : DeadSlotsFail q t.state) : Current cfg q (Client.register cfg t id q) := by
  have hnew : (newSubscription cfg t id q { sparse := true }).Rowwise :=
    newSubscription_rowwise cfg t id hq.toPlain rfl
  obtain ⟨hsparse, hkeyCols, hseed⟩ := seedRows_remembers hnew rfl t.state.store
    (range t.state.store.rowCount)
  have hsub := subscribed_eq_seed cfg t id hq.toPlain.rowOriented { sparse := true }
  refine ⟨.register t id hq.toPlain rfl hdead, (subscribed_keeps cfg t id q _).2.1, ?_, ?_, ?_,
    hkeyed, hname, snapshotRecords_lists hσ hkey hq hkeys hkeyed hname⟩
  · exact (congrArg Subscription.sparse hsub).trans hsparse
  · exact (congrArg Subscription.keyCols hsub).trans hkeyCols
  · rintro r ⟨⟨k, hk⟩, hholds⟩
    have hin : r ∈ range t.state.store.rowCount := mem_range.mpr (t.state.table.slot_lt hk)
    have hrem := hseed r (.inl ⟨hin, hholds⟩)
    change Remembers (subscribed cfg t id q { sparse := true }) r (t.state.row r)
    rw [hsub]
    exact hrem

end

/-- **The client has exactly the live matching rows**, after every run of writes that meet the
condition. -/
theorem sparse_records_current (hσ : σ.Distinct) (hkey : cfg.keyFields ≠ []) (hq : q.Stored)
    (hkeys : ∀ col ∈ cfg.keyColIndices σ, col ∈ q.effectiveProjection) {past : List Write}
    {t : Topic σ} (hpast : Write.History cfg past t) {id : String}
    (hname : Nameable (cfg.keyColIndices σ) t.state) (hdead : DeadSlotsFail q t.state)
    {ws : List Write}
    (hrun : Run (Client.step cfg) (Ok cfg q) (Client.register cfg t id q) ws c) :
    ∀ k f, c.records k = some f ↔ ∃ r, Member q c.watched.topic.state r ∧
        rowName (cfg.keyColIndices σ) (c.watched.topic.state.row r) = k ∧
        (projectRow q (c.watched.topic.state.row r)).get? = f := by
  have hinit : Current cfg q (Client.register cfg t id q) :=
    .register hσ hkey hq hkeys id hpast.keyed hname hdead
  have hcur : Current cfg q c := hrun.invariant (P := Current cfg q)
    (fun _ _ _ h hok hstep => h.step hσ hkeys hok hstep) hinit
  intro k f
  rw [hcur.shows k f]
  refine exists_congr fun r => ?_
  rw [expected_eq_some, Prod.mk.injEq]

end Invariant

section Quotes
open Quotes

open Unused

/-- The quotes with a bid of 1. -/
def lowBids : ParsedQuery schema where
  predicate := ⟨fun r => r.cells bid = .long 1, .column bid⟩

theorem sparse_records_current_quotes : ∃ c, Run (Client.step config) (Ok config lowBids)
        (Client.register config (after [.upsert 0 true (full "A" 1 2)]) "s" lowBids)
        [.upsert 1 true (full "B" 1 3), .upsert 2 true (full "A" 1 5), .upsert 3 true (full "B" 2 3),
          .upsert 4 true (full "C" 1 1), .delete true "C"] c ∧
      (c.records [some (.string "A")]).map (· "ask") = some (some (num 5)) ∧
      c.records [some (.string "B")] = none ∧
      ∀ k f, c.records k = some f ↔ ∃ r, Member lowBids c.watched.topic.state r ∧
          rowName (config.keyColIndices schema) (c.watched.topic.state.row r) = k ∧
          (projectRow lowBids (c.watched.topic.state.row r)).get? = f := by
  have hpast : Write.History config [.upsert 0 true (full "A" 1 2)]
      (after [.upsert 0 true (full "A" 1 2)]) := .cons (by decide +kernel) rfl .nil
  refine Run.exists_of_check
    (fun c => (c.records [some (.string "A")]).map (· "ask") = some (some (num 5)) ∧
      (c.records [some (.string "B")]).isNone)
    (by decide +kernel) fun c hrun ⟨hask, hgone⟩ => ?_
  exact ⟨hask, Option.isNone_iff_eq_none.mp hgone,
    sparse_records_current Quotes.distinct (by decide) ⟨⟨rfl, rfl⟩, rfl, rfl, rfl⟩ (by decide)
      hpast (by decide +kernel) (by decide +kernel) hrun⟩

/-- A bid that becomes null is not in the update, and the client keeps the old one. -/
theorem null_is_not_sent :
    let c := Client.register config (after [.upsert 0 true (full "A" 1 2)]) "s" everything
    let w := Write.upsert 1 true [("bid", .null), ("sym", .string "A")]
    w.Sound config c.watched.topic ∧
      (Client.step config c w).any (fun c' =>
        (c'.records [some (.string "A")]).map (· "bid") = some (some (num 1)) ∧
          Member everything c'.watched.topic.state 0 ∧
          (projectRow everything (c'.watched.topic.state.row 0)).get? "bid" = none) = true := by
  refine ⟨by decide +kernel, by decide +kernel⟩

end Quotes

end CqServer.Sparse
