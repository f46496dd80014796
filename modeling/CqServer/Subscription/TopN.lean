import CqServer.Subscription.ActiveSet
import CqServer.Subscription.Conflation
import CqServer.Query.Select

/-!
# TOP-N subscriptions

A subscription with a LIMIT keeps every matching row in an ordered set and shows the
first of them. The set has an order of its own, and what it holds is not what the
executor sorts: `evaluate_topn` does not look at the kind of an event, so a deleted row
stays in the set if the condition is true of the null row (`deleted_row_is_shown`); it
knows no OFFSET; and `compare_values` of `subscription.rs` puts null doubles last, tells
the zeros apart and ties booleans and timestamps, where the executor does none of that.

Without an OFFSET, with cells both comparisons order alike, and with a condition that is
false of deleted rows, the client has the rows the query selects from the live rows
(`topn_shows_selected`).
-/

namespace CqServer.TopN

open Lib StoreState List Function Subscription

variable {σ : Schema}

/-! ## The two comparisons -/

/-- A cell both comparisons order alike. -/
def Rankable : Value → Bool
  | .double f => !f.isNan && !(f.bits >>> 63 = 1 && f.signedMagnitude = 0)
  | .bool _ => false
  | .timestamp _ => false
  | _ => true

theorem compare_int_congr {a b c d : Int} (hlt : a < b ↔ c < d) (heq : a = b ↔ c = d) :
    compare a b = compare c d := by
  simp [compare, compareOfLessAndEq, hlt, heq]

/-- Without NaN and negative zero the total order of doubles is the order of their values. -/
theorem totalCmp_eq {f g : F64} (hf : Rankable (.double f) = true)
    (hg : Rankable (.double g) = true) : f.totalCmp g = f.orderCmp g := by
  have hkey : ∀ {h : F64}, Rankable (.double h) = true → h.isNan = false ∧
      (h.bits >>> 63 = 1 ∧ h.signedMagnitude < 0 ∨
        ¬ h.bits >>> 63 = 1 ∧ 0 ≤ h.signedMagnitude) := by
    intro h hh
    simp only [Rankable, Bool.and_eq_true, Bool.not_eq_true', Bool.and_eq_false_iff,
      decide_eq_false_iff_not] at hh
    refine ⟨hh.1, ?_⟩
    by_cases hs : h.bits >>> 63 = 1
    · refine .inl ⟨hs, ?_⟩
      have hne := hh.2.resolve_left fun hn => hn hs
      simp only [F64.signedMagnitude, hs, if_true] at hne ⊢
      omega
    · refine .inr ⟨hs, ?_⟩
      simp only [F64.signedMagnitude, hs, if_false]
      omega
  obtain ⟨hfn, hfs⟩ := hkey hf
  obtain ⟨hgn, hgs⟩ := hkey hg
  simp only [F64.totalCmp, F64.orderCmp, hfn, hgn]
  rcases hfs with ⟨hf1, hf2⟩ | ⟨hf1, hf2⟩ <;> rcases hgs with ⟨hg1, hg2⟩ | ⟨hg1, hg2⟩ <;>
    simp only [hf1, hg1, if_true, if_false] <;>
    exact compare_int_congr (by omega) (by omega)

theorem compareSortValues_eq {ty : ColumnType} {v w : Value} (hv : Value.hasType ty v = true)
    (hw : Value.hasType ty w = true) (hvr : Rankable v = true) (hwr : Rankable w = true) :
    compareSortValues v w = compareCells v w := by
  have hv := Value.exists_of_hasType hv
  have hw := Value.exists_of_hasType hw
  cases ty with
  | double =>
    obtain ⟨⟨f, rfl⟩, ⟨g, rfl⟩⟩ := And.intro hv hw
    exact totalCmp_eq hvr hwr
  | long | int | string | bytes =>
    obtain ⟨⟨a, rfl⟩, ⟨b, rfl⟩⟩ := And.intro hv hw
    rfl
  | bool | timestamp =>
    obtain ⟨a, rfl⟩ := hv
    cases hvr

/-- The ORDER BY cells of a row are ordered alike. -/
def RankableRow (orderBy : List (σ.Col × Bool)) (r : Row σ) : Prop :=
  ∀ c ∈ orderBy, Rankable (r.cells c.1) = true

theorem compareSortKeys_eq {orderBy : List (σ.Col × Bool)} {r s : Row σ}
    (hr : RankableRow orderBy r) (hs : RankableRow orderBy s) :
    compareSortKeys (orderBy.map fun c => (r.cells c.1, c.2)) (orderBy.map fun c => (s.cells c.1, c.2)) =
      compareRows orderBy r s := by
  induction orderBy with
  | nil => rfl
  | cons c orderBy ih =>
    have hrest := ih (fun d hd => hr d (mem_cons_of_mem c hd))
      fun d hd => hs d (mem_cons_of_mem c hd)
    simp only [map_cons, compareSortKeys, hrest, compareSortValues_eq (r.typed c.1)
      (s.typed c.1) (hr c mem_cons_self) (hs c mem_cons_self)]
    rfl

def members (q : ParsedQuery σ) (st : StoreState σ) : List Nat :=
  (range st.table.rowCount).filter fun r => Member q st r

/-- The rows the query selects from the live rows: sorted, ties in row order, then OFFSET and
LIMIT. -/
def liveSelected (q : ParsedQuery σ) (st : StoreState σ) : List Nat :=
  slice q.offset q.limit (sortBy (compareSlots st.row q.orderBy) (members q st))

variable {q : ParsedQuery σ} {st : StoreState σ}

theorem mem_members {r : Nat} : r ∈ members q st ↔ Member q st r := by
  rw [members, mem_filter, mem_range, decide_eq_true_iff]
  refine ⟨fun h => h.2, fun h => ⟨?_, h⟩⟩
  obtain ⟨k, hk⟩ := h.1
  exact st.table.slot_lt hk

theorem members_pairwise (q : ParsedQuery σ) (st : StoreState σ) :
    (members q st).Pairwise (· < ·) :=
  Pairwise.filter _ pairwise_lt_range

theorem members_eq_matchingRows (hdead : DeadSlotsFail q st) :
    matchingRows q st.store = members q st := by
  refine filter_congr fun r hr => ?_
  rw [Bool.eq_iff_iff, decide_eq_true_iff]
  refine ⟨fun hholds => ⟨?_, hholds⟩, fun hm => hm.2⟩
  by_contra hl
  have hfail := hdead r (mem_range.mp hr) hl
  exact Bool.false_ne_true (hfail.symm.trans hholds)

/-- **The executor selects these rows** if no dead slot satisfies the condition. -/
theorem selectedRows_eq_live (hdead : DeadSlotsFail q st) :
    selectedRows q st.store = liveSelected q st := by
  have hsorted : (if q.orderBy = [] then members q st
      else (members q st).insertionSort fun a b =>
        compareRows q.orderBy (st.store.row a) (st.store.row b) ≠ .gt) =
      sortBy (compareSlots st.row q.orderBy) (members q st) := by
    split
    · rename_i hnil
      rw [sortBy_of_tied]
      intro a b
      rw [hnil]
      rfl
    · rfl
  unfold selectedRows liveSelected slice
  simp only [members_eq_matchingRows hdead, hsorted]
  cases q.offset <;> cases q.limit <;> rfl

/-! ## The ranked set -/

def rankedOf (q : ParsedQuery σ) (st : StoreState σ) : Finset (SortKey × Nat) :=
  ((members q st).map fun r => (buildSortKey q (st.row r), r)).toFinset

variable {e : SortKey × Nat}

theorem mem_rankedOf : e ∈ rankedOf q st ↔ Member q st e.2 ∧ e.1 = buildSortKey q (st.row e.2) := by
  obtain ⟨k, r⟩ := e
  simp only [rankedOf, mem_toFinset, mem_map, Prod.mk.injEq, mem_members]
  constructor
  · rintro ⟨r', hm, rfl, rfl⟩
    exact ⟨hm, rfl⟩
  · rintro ⟨hm, rfl⟩
    exact ⟨r, hm, rfl, rfl⟩

/-- The ORDER BY cells of the live matching rows are ordered alike. -/
def RankableRows (q : ParsedQuery σ) (st : StoreState σ) : Prop :=
  ∀ r ∈ members q st, RankableRow q.orderBy (st.row r)

instance (q : ParsedQuery σ) (st : StoreState σ) : Decidable (RankableRows q st) :=
  inferInstanceAs (Decidable (∀ r ∈ members q st, ∀ c ∈ q.orderBy, _ = true))

theorem topRows_rankedOf (h : RankableRows q st) (n : Nat) : topRows n (rankedOf q st) =
      ((sortBy (compareSlots st.row q.orderBy) (members q st)).take n).toFinset := by
  let entry := fun r => (buildSortKey q (st.row r), r)
  let sorted := sortBy (compareSlots st.row q.orderBy) (members q st)
  have hperm : sorted.Perm (members q st) := sortBy_perm _ _
  have hbefore : sorted.Pairwise (Before (compareSlots st.row q.orderBy) (· < ·)) :=
    sortBy_before (members_pairwise q st)
  -- the entries before the entry of a row are those of the rows before it
  have hcard : ∀ r ∈ members q st,
      ((rankedOf q st).filter fun f => compareRanked f (entry r) = .lt).card =
        (sorted.filter fun s => Before (compareSlots st.row q.orderBy) (· < ·) s r).length := by
    intro r hr
    have hfilter : ((members q st).map entry).filter (fun f => compareRanked f (entry r) = .lt) =
        ((members q st).filter
          fun s => Before (compareSlots st.row q.orderBy) (· < ·) s r).map entry := by
      rw [filter_map]
      congr 1
      refine filter_congr fun s hs => ?_
      simp only [entry, comp_apply, decide_eq_decide, compareRanked, buildSortKey,
        compareSortKeys_eq (h s hs) (h r hr), Ordering.then_eq_lt, Nat.compare_eq_lt]
      rfl
    have hnodup : ((members q st).map entry).Nodup := by
      refine Nodup.map (fun a b hab => (Prod.mk.inj hab).2) ?_
      exact (members_pairwise q st).imp fun hlt => hlt.ne
    have hset : (rankedOf q st).filter (fun f => compareRanked f (entry r) = .lt) =
        (((members q st).map entry).filter fun f => compareRanked f (entry r) = .lt).toFinset := by
      ext f
      rw [Finset.mem_filter, rankedOf, mem_toFinset, mem_toFinset, mem_filter, decide_eq_true_iff]
    rw [hset, toFinset_card_of_nodup (hnodup.filter _), hfilter, length_map,
      (hperm.filter _).length_eq]
  have hrank : ∀ r ∈ members q st, r ∈ sorted.take n ↔
      ((rankedOf q st).filter fun f => compareRanked f (entry r) = .lt).card < n := by
    intro r hr
    rw [hcard r hr]
    refine mem_take_iff_rank ?_ hbefore n (hperm.mem_iff.mpr hr)
    exact fun a b hab => hab.asymm fun _ _ hlt => Nat.lt_asymm hlt
  ext r
  simp only [topRows, Finset.mem_image, Finset.mem_filter, mem_toFinset]
  constructor
  · rintro ⟨e, ⟨he, hlt⟩, rfl⟩
    obtain ⟨hm, hkey⟩ := mem_rankedOf.mp he
    have hentry : e = entry e.2 := Prod.ext hkey rfl
    rw [hentry] at hlt
    exact (hrank e.2 (mem_members.mpr hm)).mpr hlt
  · intro hr
    have hmem : r ∈ members q st := hperm.mem_iff.mp (mem_of_mem_take hr)
    exact ⟨entry r, ⟨mem_rankedOf.mpr ⟨mem_members.mp hmem, rfl⟩, (hrank r hmem).mp hr⟩, rfl⟩

/-! ## The state of the subscription -/

/-- The subscription ranks the live matching rows, and its window is up to date. -/
structure Tracks (q : ParsedQuery σ) (n : Nat) (s : Watched σ) (top : TopNState) : Prop where
  open_ : s.sub.closed = false
  noAggregate : s.sub.aggregate = none
  topn : s.sub.topn = some top
  query : s.sub.query = q
  start : s.sub.liveStartSequence ≤ s.topic.nextSequence + 1
  keys : ∀ r, top.rowToKey r =
    if Member q s.topic.state r then some (buildSortKey q (s.topic.state.row r)) else none
  ranked : top.ranked = rankedOf q s.topic.state
  window : top.currentTopn = topRows n top.ranked

def clear (top : TopNState) (row : Nat) : Finset (SortKey × Nat) :=
  match top.rowToKey row with
  | some old => top.ranked.erase (old, row)
  | none => top.ranked

def rerank (q : ParsedQuery σ) (top : TopNState) (row : Nat) (r : Row σ) : Finset (SortKey × Nat) :=
  if q.predicate.holds r then insert (buildSortKey q r, row) (clear top row) else clear top row

def rekey (q : ParsedQuery σ) (top : TopNState) (row : Nat) (r : Row σ) : Nat → Option SortKey :=
  update top.rowToKey row (if q.predicate.holds r then some (buildSortKey q r) else none)

theorem mem_clear {n : Nat} {s : Watched σ} {top : TopNState} (h : Tracks q n s top) {row : Nat} :
    e ∈ clear top row ↔ e ∈ rankedOf q s.topic.state ∧ e.2 ≠ row := by
  unfold clear
  rw [h.keys row]
  by_cases hm : Member q s.topic.state row
  · rw [if_pos hm]
    simp only [Finset.mem_erase, h.ranked]
    refine ⟨fun he => ⟨he.2, fun hrow => he.1 ?_⟩, fun he => ⟨fun heq => he.2 (by rw [heq]), he.1⟩⟩
    have hkey := (mem_rankedOf.mp he.2).2
    rw [hrow] at hkey
    exact Prod.ext hkey hrow
  · rw [if_neg hm]
    simp only [h.ranked]
    refine ⟨fun he => ⟨he, ?_⟩, fun he => he.1⟩
    rintro rfl
    exact hm (mem_rankedOf.mp he).1

section Evaluate
variable {q : ParsedQuery σ} {n : Nat} {s : Watched σ} {top : TopNState} {t' : Topic σ}
  {ev : MutationEvent σ} (h : Tracks q n s top) (ht : Touches s.topic t' ev)
  (hnull : ev.kind = .delete → q.predicate.holds (t'.state.row ev.row) = false)

section
include ht hnull

theorem holds_iff_member :
    q.predicate.holds (t'.state.row ev.row) = true ↔ Member q t'.state ev.row := by
  refine ⟨fun hholds => ⟨?_, hholds⟩, fun hm => hm.2⟩
  cases hkind : ev.kind with
  | upsert => exact ht.kind.mp hkind
  | delete => exact absurd hholds (by simp [hnull hkind])

include h

theorem rankedOf_touch :
    rerank q top ev.row (t'.state.row ev.row) = rankedOf q t'.state := by
  have hother : ∀ e : SortKey × Nat, e.2 ≠ ev.row →
      (e ∈ rankedOf q t'.state ↔ e ∈ rankedOf q s.topic.state) := by
    intro e he
    rw [mem_rankedOf, mem_rankedOf, ht.member_ne q he, ht.row e.2 he]
  unfold rerank
  ext e
  by_cases he : e.2 = ev.row
  · rw [mem_rankedOf, he, ← holds_iff_member ht hnull]
    split
    · rename_i hholds
      simp only [Finset.mem_insert, mem_clear h, he, ne_eq, not_true_eq_false, and_false, or_false,
        hholds, true_and]
      exact ⟨fun heq => by rw [heq], fun hkey => Prod.ext hkey he⟩
    · rename_i hholds
      simp [mem_clear h, he, hholds]
  · rw [hother e he]
    split
    · have hne : e ≠ (buildSortKey q (t'.state.row ev.row), ev.row) := fun heq => he (by rw [heq])
      simp [mem_clear h, he, hne]
    · simp [mem_clear h, he]

theorem rekey_touch (r : Nat) : rekey q top ev.row (t'.state.row ev.row) r =
      if Member q t'.state r then some (buildSortKey q (t'.state.row r)) else none := by
  by_cases hr : r = ev.row
  · subst hr
    simp [rekey, holds_iff_member ht hnull]
  · rw [rekey, update_of_ne hr, h.keys r, ht.row r hr]
    simp [ht.member_ne q hr]

end

variable [HostText]

/-- What an evaluation sends: rows that enter the window, rows that leave it, and the row of
the event if it stays. -/
def windowDeltas (sub : Subscription σ) (sequence row : Nat) (old new : Finset Nat)
    (keys : Nat → Option SortKey) (data : Nat → JsonMap) : List Delta :=
  ((new \ old).sort (· ≤ ·)).map (fun r => sub.delta sequence .add r (data r)) ++
    ((old \ new).sort (· ≤ ·)).map (fun r =>
      sub.delta sequence (if (keys r).isSome then .oof else .remove) r (data r)) ++
    if row ∈ old ∧ row ∈ new then [sub.delta sequence .update row (data row)] else []

include h ht hnull in
/-- **An evaluation follows the store** and sends what changed in the window. -/
theorem Tracks.evaluate (hlimit : q.limit = some n) (hn : 0 < n) :
    ∃ sub' top', Tracks q n ⟨t', sub'⟩ top' ∧
      s.sub.evaluateTopn top ev.row ev.sequence t'.state.store =
        (sub', windowDeltas s.sub ev.sequence ev.row top.currentTopn top'.currentTopn top'.rowToKey
          fun r => projectRow q (t'.state.row r)) := by
  obtain rfl := h.query
  rw [Subscription.evaluateTopn, hlimit, Option.getD_some, if_neg hn.ne']
  have hranked := rankedOf_touch h ht hnull
  refine ⟨_, ⟨rerank s.sub.query top ev.row (t'.state.row ev.row),
    rekey s.sub.query top ev.row (t'.state.row ev.row),
    topRows n (rerank s.sub.query top ev.row (t'.state.row ev.row))⟩, ?_, rfl⟩
  refine ⟨h.open_, h.noAggregate, rfl, rfl, ?_, rekey_touch h ht hnull, hranked, rfl⟩
  rw [ht.next]
  exact h.start.trans (Nat.le_succ _)

end Evaluate

/-! ## The client -/

section Client

structure Client (σ : Schema) where
  watched : Watched σ
  rows : Conflation.View Nat

def snapshotView (rows : List (Nat × JsonMap)) : Conflation.View Nat :=
  rows.foldl (fun v p => update v p.1 (some p.2.get?)) fun _ => none

def receive (v : Conflation.View Nat) (ds : List Delta) : Conflation.View Nat :=
  v.receive false (ds.map fun d => ⟨d.row, d⟩)

variable (sub : Subscription σ) (sequence row : Nat) (old new : Finset Nat)

theorem receive_append (v : Conflation.View Nat) (ds ds' : List Delta) :
    receive v (ds ++ ds') = receive (receive v ds) ds' := by
  simp [receive, Conflation.View.receive, PointUpdate.applyAll_append]

theorem receive_map {f : Nat → Option Conflation.Fields} {ty : Nat → DeltaType}
    {data : Nat → JsonMap} (hf : ∀ r x,
      Conflation.RecordDelta.change false ⟨r, sub.delta sequence (ty r) r (data r)⟩ x = f r)
    (slots : List Nat) (v : Conflation.View Nat) (r : Nat) :
    receive v (slots.map fun r => sub.delta sequence (ty r) r (data r)) r =
      if r ∈ slots then f r else v r := by
  induction slots generalizing v with
  | nil => rfl
  | cons a slots ih =>
    refine (ih _).trans ?_
    by_cases hr : r = a
    · subst hr
      rw [if_pos mem_cons_self, ← hf r (v r)]
      split
      · rfl
      · exact update_self ..
    · simp only [mem_cons, hr, false_or]
      exact if_congr Iff.rfl rfl (update_of_ne hr ..)

theorem receive_windowDeltas (keys : Nat → Option SortKey) (data : Nat → JsonMap)
    (v : Conflation.View Nat) (r : Nat) :
    receive v (windowDeltas sub sequence row old new keys data) r =
      if r ∈ new then if r ∈ old ∧ r ≠ row then v r else some (data r).get?
      else if r ∈ old then none else v r := by
  have hstay : (if row ∈ old ∧ row ∈ new then [sub.delta sequence .update row (data row)] else []) =
      (if row ∈ old ∧ row ∈ new then [row] else []).map
        fun r => sub.delta sequence .update r (data r) := by
    split <;> rfl
  have hleave : ∀ r x, Conflation.RecordDelta.change false
      ⟨r, sub.delta sequence (if (keys r).isSome then .oof else .remove) r (data r)⟩ x = none := by
    intro r x
    cases (keys r).isSome <;> simp [delta, Conflation.RecordDelta.change]
  rw [windowDeltas, hstay, receive_append, receive_append,
    receive_map (f := fun r => some (data r).get?) _ _ fun _ _ => rfl, receive_map _ _ hleave,
    receive_map (f := fun r => some (data r).get?) _ _ fun _ _ => rfl]
  simp only [Finset.mem_sort, Finset.mem_sdiff]
  by_cases hrow : r = row
  · subst hrow
    by_cases hnew : r ∈ new <;> by_cases hold : r ∈ old <;> simp [hnew, hold]
  · have hnot : r ∉ if row ∈ old ∧ row ∈ new then [row] else [] := by
      split <;> simp [hrow]
    by_cases hnew : r ∈ new <;> by_cases hold : r ∈ old <;> simp [hnew, hold, hrow, hnot]

variable [HostText] [AggregateExec σ]

def Client.register (cfg : TopicConfig) (t : Topic σ) (id : String) (q : ParsedQuery σ)
    (opts : SubscribeOptions) : Client σ :=
  ⟨.register cfg t id q opts, snapshotView (snapshotRows cfg t.state q)⟩

def Client.step (cfg : TopicConfig) (c : Client σ) (w : Write) : Option (Client σ) :=
  let turn := c.watched.turn cfg w
  some ⟨turn.1, receive c.rows turn.2⟩

/-- The client has the rows of the window; as the subscription shows no computed columns, they
are known to be whole if there are none. -/
def Shows (q : ParsedQuery σ) (st : StoreState σ) (window : Finset Nat) (v : Conflation.View Nat) :
    Prop :=
  ∀ r, (r ∈ window → ∃ f, v r = some f ∧ (q.computed = [] → f = (projectRow q (st.row r)).get?)) ∧
    (r ∉ window → v r = none)

structure Current (q : ParsedQuery σ) (n : Nat) (c : Client σ) : Prop where
  rankable : RankableRows q c.watched.topic.state
  tracks : ∃ top, Tracks q n c.watched top ∧ Shows q c.watched.topic.state top.currentTopn c.rows

/-- The condition on a write: a sound publish or delete, deleted rows do not satisfy the
condition of the query, and the rows it leaves are ordered alike. -/
structure Ok (cfg : TopicConfig) (q : ParsedQuery σ) (c : Client σ) (w : Write) : Prop where
  full : SoundFull cfg c.watched w
  deleted : w.kind = .delete → q.predicate.holds .null = false
  rankable : RankableRows q (w.perform cfg c.watched.topic).topic.state

instance (cfg : TopicConfig) (q : ParsedQuery σ) (c : Client σ) (w : Write) :
    Decidable (Ok cfg q c w) :=
  decidable_of_iff ((w.isDelta = false ∧ w.Sound cfg c.watched.topic) ∧
      (w.kind = .delete → q.predicate.holds .null = false) ∧
      RankableRows q (w.perform cfg c.watched.topic).topic.state)
    ⟨fun h => ⟨h.1, h.2.1, h.2.2⟩, fun h => ⟨h.full, h.deleted, h.rankable⟩⟩

variable {cfg : TopicConfig} {q : ParsedQuery σ} {n : Nat} {c : Client σ}

theorem Current.step (hlimit : q.limit = some n) (hn : 0 < n) (h : Current q n c) {w : Write}
    (hok : Ok cfg q c w) {c' : Client σ} (hstep : Client.step cfg c w = some c') :
    Current q n c' := by
  cases hstep
  obtain ⟨top, htop, hshows⟩ := h.tracks
  rcases hok.full.2.cases with ⟨hnil, hstate, hnext⟩ | ⟨ev, hev, ht⟩
  · rw [Watched.turn_of_nil hnil]
    refine ⟨hok.rankable, top, ⟨htop.open_, htop.noAggregate, htop.topn, htop.query,
      htop.start.trans (Nat.succ_le_succ hnext), ?_, ?_, htop.window⟩, ?_⟩
    · intro r
      rw [htop.keys r]
      simp [hstate]
    · rw [htop.ranked]
      simp [hstate]
    · simp only [hstate]
      exact hshows
  · have hmem : ev ∈ (w.perform cfg c.watched.topic).events := by
      rw [hev]
      exact mem_singleton_self _
    have hnull : ev.kind = .delete →
        q.predicate.holds ((w.perform cfg c.watched.topic).topic.state.row ev.row) = false := by
      intro hkind
      rw [Write.row_of_delete hmem hkind]
      exact hok.deleted ((Write.event_kind hmem).1.symm.trans hkind)
    have hlisten : c.watched.sub.listens ev.sequence = true := by
      simp only [Subscription.listens, htop.open_, ht.sequence, Bool.not_false, Bool.true_and,
        decide_eq_true_iff]
      exact htop.start
    have hturn := Watched.turn_of_singleton hev
    rw [Subscription.receive, if_pos (hok.full.dispatched hmem)] at hturn
    obtain ⟨sub', top', htop', heval⟩ := htop.evaluate ht hnull hlimit hn
    rw [Subscription.evaluate, if_pos hlisten, htop.noAggregate, htop.topn] at hturn
    dsimp only at hturn
    rw [heval] at hturn
    rw [hturn]
    refine ⟨hok.rankable, top', htop', fun r => ?_⟩
    dsimp only
    rw [receive_windowDeltas]
    obtain ⟨hin, hout⟩ := hshows r
    constructor
    · intro hr
      rw [if_pos hr]
      split
      · -- a row that was shown and is not the one of the event
        rename_i hkeep
        rw [ht.row r hkeep.2]
        exact hin hkeep.1
      · exact ⟨_, rfl, fun _ => rfl⟩
    · intro hr
      rw [if_neg hr]
      split
      · rfl
      · rename_i hold
        exact hout hold

/-! ## Registration -/

omit [HostText] [AggregateExec σ] in
theorem seedRows_topn {sub : Subscription σ} (hopen : sub.closed = false)
    (hagg : sub.aggregate = none) (hcap : sub.maxActive = none) {top : TopNState}
    (htop : sub.topn = some top) (store : ColumnStore σ) (rows : List Nat) :
    let sub' := sub.seedRows store rows
    sub'.closed = false ∧ sub'.aggregate = none ∧ ∃ top', sub'.topn = some top' ∧
      (∀ e : SortKey × Nat, e ∈ top'.ranked ↔ e ∈ top.ranked ∨
        (e.2 ∈ rows ∧ sub.query.predicate.holds (store.row e.2) = true) ∧
          e.1 = buildSortKey sub.query (store.row e.2)) ∧
      (∀ r, top'.rowToKey r =
        if r ∈ rows ∧ sub.query.predicate.holds (store.row r) = true then
          some (buildSortKey sub.query (store.row r))
        else top.rowToKey r) ∧
      top'.currentTopn = topRows (sub.query.limit.getD 0) top'.ranked := by
  induction rows generalizing sub top with
  | nil =>
    refine ⟨hopen, hagg, ⟨top.ranked, top.rowToKey, topRows (sub.query.limit.getD 0) top.ranked⟩,
      ?_, ?_, ?_, rfl⟩
    · simp [seedRows, htop]
    · simp
    · simp
  | cons row rows ih =>
    rw [seedRows]
    by_cases hholds : sub.query.predicate.holds (store.row row) = true
    · rw [if_pos hholds, if_neg (sub.not_full hcap)]
      have htop' : (sub.seedRow row store).topn = some
          { top with
            ranked := insert (buildSortKey sub.query (store.row row), row) top.ranked
            rowToKey := update top.rowToKey row
              (some (buildSortKey sub.query (store.row row))) } := by
        simp [seedRow, htop]
      obtain ⟨hopen', hagg', top', hsome, hranked, hkeys, hwindow⟩ :=
        @ih (sub.seedRow row store) hopen hagg hcap _ htop'
      refine ⟨hopen', hagg', top', hsome, ?_, ?_, hwindow⟩
      · intro e
        rw [hranked e]
        have hquery : (sub.seedRow row store).query = sub.query := rfl
        by_cases he : e.2 = row
        · simp [Prod.ext_iff, he]
          tauto
        · simp [hquery, Prod.ext_iff, he]
      · intro r
        rw [hkeys r]
        by_cases hr : r = row
        · subst hr
          simp [hholds, seedRow]
        · simp [hr, seedRow]
    · rw [if_neg hholds]
      obtain ⟨hopen', hagg', top', hsome, hranked, hkeys, hwindow⟩ := ih hopen hagg hcap htop
      refine ⟨hopen', hagg', top', hsome, ?_, ?_, hwindow⟩
      · intro e
        rw [hranked e]
        by_cases he : e.2 = row
        · simp [he, hholds]
        · simp [he]
      · intro r
        rw [hkeys r]
        by_cases hr : r = row
        · simp [hr, hholds]
        · simp [hr]

theorem Tracks.register (hrow : q.rowOriented = true) (hlimit : q.limit = some n) (hn : 0 < n)
    {opts : SubscribeOptions} (hcap : opts.maxActive = none) {t : Topic σ} (id : String)
    (hdead : DeadSlotsFail q t.state) :
    ∃ top, Tracks q n (Watched.register cfg t id q opts) top := by
  obtain ⟨-, hquery, hstart⟩ := subscribed_keeps cfg t id q opts
  have hsub := subscribed_eq_seed cfg t id hrow opts
  have htopn : (newSubscription cfg t id q opts).topn = some {} := by
    obtain ⟨m, rfl⟩ := Nat.exists_eq_succ_of_ne_zero hn.ne'
    simp [newSubscription, Subscription.new, hlimit]
  obtain ⟨hopen, hagg, top, htop, hranked, hkeys, hwindow⟩ :=
    @seedRows_topn _ (newSubscription cfg t id q opts) rfl rfl hcap _ htopn t.state.store
      (range t.state.store.rowCount)
  have hnew : (newSubscription cfg t id q opts).query = q := rfl
  simp only [hnew] at hranked hkeys hwindow
  have hmember : ∀ r, r ∈ range t.state.store.rowCount ∧
      q.predicate.holds (t.state.store.row r) = true ↔ Member q t.state r := by
    intro r
    rw [← mem_members, ← members_eq_matchingRows hdead, matchingRows, mem_filter]
  refine ⟨top, ?_, ?_, ?_, hquery, hstart.le, ?_, ?_, ?_⟩
  · exact (congrArg Subscription.closed hsub).trans hopen
  · exact (congrArg Subscription.aggregate hsub).trans hagg
  · exact (congrArg Subscription.topn hsub).trans htop
  · intro r
    rw [hkeys r]
    simp only [hmember r]
    rfl
  · ext e
    rw [mem_rankedOf, hranked e, hmember e.2]
    exact or_iff_right (Finset.notMem_empty e)
  · rw [hwindow, hlimit]
    rfl

theorem snapshotRows_live (hrow : q.rowOriented = true) (hwindows : q.windows = [])
    {st : StoreState σ} (hdead : DeadSlotsFail q st) :
    snapshotRows cfg st q = (liveSelected q st).map fun r => (r, resultRow q (st.row r)) := by
  have hlive : ∀ r ∈ liveSelected q st, st.table.Live r := by
    intro r hr
    have hsorted : r ∈ sortBy (compareSlots st.row q.orderBy) (members q st) :=
      (slice_sublist _ _ _).mem hr
    exact (mem_members.mp ((sortBy_perm _ _).mem_iff.mp hsorted)).1
  unfold snapshotRows
  simp only [executeQuery, hrow, if_true, executeRows, hwindows, foldl_nil,
    selectedRows_eq_live hdead, ← map_prod_left_eq_zip]
  refine filter_eq_self.mpr fun p hp => ?_
  obtain ⟨r, hr, rfl⟩ := mem_map.mp hp
  simp [hlive r hr]

omit [HostText] [AggregateExec σ] in
theorem snapshotView_map (f : Nat → JsonMap) (rows : List Nat) (r : Nat) :
    snapshotView (rows.map fun r => (r, f r)) r = if r ∈ rows then some (f r).get? else none := by
  induction rows using reverseRecOn with
  | nil => rfl
  | append_singleton rows a ih =>
    rw [map_append, snapshotView, foldl_append]
    change update (snapshotView (rows.map fun r => (r, f r))) a (some (f a).get?) r = _
    by_cases hr : r = a
    · subst hr
      simp
    · simp [ih, hr]

omit [HostText] [AggregateExec σ] in
theorem Tracks.mem_window {s : Watched σ} {top : TopNState} (h : Tracks q n s top)
    (hlimit : q.limit = some n) (hoffset : q.offset.getD 0 = 0)
    (hrank : RankableRows q s.topic.state) (r : Nat) :
    r ∈ top.currentTopn ↔ r ∈ liveSelected q s.topic.state := by
  rw [h.window, h.ranked, topRows_rankedOf hrank, mem_toFinset, liveSelected, slice, hlimit]
  cases hoff : q.offset with
  | none => rfl
  | some m =>
    rw [hoff, Option.getD_some] at hoffset
    rw [hoffset]
    rfl

theorem Current.register (hrow : q.rowOriented = true) (hwindows : q.windows = [])
    (hlimit : q.limit = some n) (hn : 0 < n) (hoffset : q.offset.getD 0 = 0)
    {opts : SubscribeOptions} (hcap : opts.maxActive = none) {t : Topic σ} (id : String)
    (hdead : DeadSlotsFail q t.state) (hrank : RankableRows q t.state) :
    Current q n (Client.register cfg t id q opts) := by
  obtain ⟨top, htop⟩ : ∃ top, Tracks q n (Watched.register cfg t id q opts) top :=
    Tracks.register hrow hlimit hn hcap id hdead
  refine ⟨hrank, top, htop, fun r => ?_⟩
  have hwindow : r ∈ top.currentTopn ↔ r ∈ liveSelected q t.state :=
    htop.mem_window hlimit hoffset hrank r
  have hview : (Client.register cfg t id q opts).rows r =
      if r ∈ liveSelected q t.state then some (resultRow q (t.state.row r)).get? else none := by
    change snapshotView (snapshotRows cfg t.state q) r = _
    rw [snapshotRows_live hrow hwindows hdead, snapshotView_map]
  rw [hview, hwindow]
  constructor
  · intro hr
    refine ⟨_, if_pos hr, fun hcomputed => ?_⟩
    rw [resultRow, hcomputed, projectRow_eq]
    rfl
  · exact fun hr => if_neg hr

/-- **The client has the rows the query selects from the live rows**, after every run of writes
that meet the condition. -/
theorem topn_shows_selected (hrow : q.rowOriented = true) (hwindows : q.windows = [])
    (hlimit : q.limit = some n) (hn : 0 < n) (hoffset : q.offset.getD 0 = 0)
    {opts : SubscribeOptions} (hcap : opts.maxActive = none) {t : Topic σ} {id : String}
    (hdead : DeadSlotsFail q t.state) (hrank : RankableRows q t.state) {ws : List Write}
    (hrun : Run (Client.step cfg) (Ok cfg q) (Client.register cfg t id q opts) ws c) :
    (∀ r, (∃ f, c.rows r = some f) ↔ r ∈ liveSelected q c.watched.topic.state) ∧
      (q.computed = [] → ∀ r f, c.rows r = some f →
        f = (projectRow q (c.watched.topic.state.row r)).get?) := by
  have hinit : Current q n (Client.register cfg t id q opts) :=
    .register hrow hwindows hlimit hn hoffset hcap id hdead hrank
  have hcur : Current q n c := hrun.invariant (P := Current q n)
    (fun _ _ _ h hok hstep => h.step hlimit hn hok hstep) hinit
  obtain ⟨top, htop, hshows⟩ := hcur.tracks
  refine ⟨fun r => ?_, fun hcomputed r f hf => ?_⟩
  · rw [← htop.mem_window hlimit hoffset hcur.rankable]
    constructor
    · rintro ⟨f, hf⟩
      by_contra hout
      rw [(hshows r).2 hout] at hf
      cases hf
    · intro hin
      obtain ⟨f, hf, -⟩ := (hshows r).1 hin
      exact ⟨f, hf⟩
  · by_cases hin : r ∈ top.currentTopn
    · obtain ⟨f', hf', hdata⟩ := (hshows r).1 hin
      rw [hf] at hf'
      rw [Option.some.inj hf', hdata hcomputed]
    · rw [(hshows r).2 hin] at hf
      cases hf

end Client

section Quotes
open Quotes

open Unused

/-- `SELECT * … WHERE bid IS NOT NULL ORDER BY ask DESC LIMIT 2`. -/
def highestAsks : ParsedQuery schema where
  predicate := ⟨fun r => !(r.cells bid).isNull, .column bid⟩
  orderBy := [(ask, false)]
  limit := some 2

theorem topn_shows_selected_highest : ∃ c, Run (Client.step config) (Ok config highestAsks)
        (Client.register config
          (after [.upsert 0 true (full "A" 1 10), .upsert 1 true (full "B" 1 20)]) "s" highestAsks {})
        [.upsert 2 true (full "C" 1 15), .delete true "B"] c ∧
      liveSelected highestAsks c.watched.topic.state = [2, 0] ∧
      ∀ r, (∃ f, c.rows r = some f) ↔ r ∈ liveSelected highestAsks c.watched.topic.state := by
  refine Run.exists_of_check (fun c => liveSelected highestAsks c.watched.topic.state = [2, 0])
    (by decide +kernel) fun c hrun hend => ?_
  exact ⟨hend,
    (topn_shows_selected rfl rfl rfl (by decide) rfl rfl (by decide +kernel) (by decide +kernel)
      hrun).1⟩

/-- `SELECT * … ORDER BY ask LIMIT 1`. -/
def lowestAsk : ParsedQuery schema where
  predicate := .always
  orderBy := [(ask, true)]
  limit := some 1

/-- A deleted row is still ranked, and the client still has it. -/
theorem deleted_row_is_shown :
    let c := Client.register config (after [.upsert 0 true (full "A" 1 2)]) "s" lowestAsk {}
    let w := Write.delete true "A"
    SoundFull config c.watched w ∧
      (Client.step config c w).any (fun c' =>
        (c'.rows 0).isSome ∧ liveSelected lowestAsk c'.watched.topic.state = []) = true := by
  refine ⟨⟨rfl, by decide +kernel⟩, by decide +kernel⟩

end Quotes

end CqServer.TopN
