import CqServer.Topic.Sequence
import CqServer.Lib.Window

/-!
# Reading a log directory while it changes

The shipper reads a topic's segment files without the topic's lock. It lists the
directory once per cycle and opens the files of its list one after the other,
while the writer appends, rotates, moves sealed files to the archive and deletes
them. A file that has left the directory can no longer be opened.

`Reads` is what a cycle under way knows: whatever it has passed by, read or not
listed, has been dealt with. Entries that are appended meanwhile are never behind
it, since they go to the end of the list's last segment or to a later one.
-/

namespace CqServer

open List

open Sequence (Rotation)

/-! ## The files -/

/-- The segment files of a log, with the active one last. `gone` are those that
have been archived or deleted. -/
structure Journal where
  sealed : List Segment
  active : Segment
  gone : List Nat
  ordered : sealed.Pairwise fun seg seg' => seg.1 < seg'.1
  below : ∀ seg ∈ sealed, seg.1 < active.1
  kept : ∀ id ∈ gone, id < active.1

namespace Journal

def init : Journal := ⟨[], (1, []), [], .nil, nofun, nofun⟩

variable (j : Journal)

def segments : List Segment := j.sealed ++ [j.active]

def history : List LogEntry := j.segments.flatMap Prod.snd

def live : List Segment := j.segments.filter fun seg => seg.1 ∉ j.gone

def file (id : Nat) : List LogEntry :=
  ((j.segments.find? fun seg => seg.1 = id).map Prod.snd).getD []

def roll : Journal where
  sealed := j.sealed ++ [j.active]
  active := (j.active.1 + 1, [])
  gone := j.gone
  ordered := by
    refine pairwise_append.mpr ⟨j.ordered, pairwise_singleton _ _, ?_⟩
    intro seg hseg seg' hseg'
    rw [mem_singleton.mp hseg']
    exact j.below seg hseg
  below := by
    intro seg hseg
    rcases mem_append.mp hseg with hseg | hseg
    · exact (j.below seg hseg).trans (Nat.lt_succ_self _)
    · rw [mem_singleton.mp hseg]
      exact Nat.lt_succ_self _
  kept := fun id hid => (j.kept id hid).trans (Nat.lt_succ_self _)

def leave (id : Nat) (h : id < j.active.1) : Journal :=
  { j with
    gone := j.gone ++ [id]
    kept := by
      intro id' hid'
      rcases mem_append.mp hid' with hid' | hid'
      · exact j.kept id' hid'
      · rw [mem_singleton.mp hid']
        exact h }

def rotate : Rotation → Journal
  | .no => j
  | .stays => j.roll
  | .archives => j.roll.leave j.active.1 (Nat.lt_succ_self _)

/-- `append_with_origin_format` on the active segment. -/
def append (e : LogEntry) : Journal :=
  { j with active := (j.active.1, j.active.2 ++ [e]) }

/-- One file of `prune_segments_below`, which leaves the active segment alone. -/
def prune (id : Nat) : Journal := if h : id < j.active.1 then j.leave id h else j

/-! ## Files by their ids -/

variable (j : Journal)

theorem segments_ordered : j.segments.Pairwise fun seg seg' => seg.1 < seg'.1 := j.roll.ordered

variable {seg : Segment}

theorem segments_le (h : seg ∈ j.segments) : seg.1 ≤ j.active.1 := by
  rcases mem_append.mp h with h | h
  · exact (j.below seg h).le
  · rw [mem_singleton.mp h]

variable {j}

theorem file_of_mem (h : seg ∈ j.segments) : j.file seg.1 = seg.2 := by
  have hord := j.segments_ordered
  unfold file
  generalize j.segments = segs at h hord
  induction segs with
  | nil => cases h
  | cons first segs ih =>
    obtain ⟨hfirst, hord⟩ := pairwise_cons.mp hord
    rcases mem_cons.mp h with rfl | h
    · simp
    · have hne : first.1 ≠ seg.1 := (hfirst seg h).ne
      rw [find?_cons_of_neg (by simpa using hne)]
      exact ih h hord

variable {e : LogEntry} {id : Nat}

theorem mem_segments_of_file (h : e ∈ j.file id) : (id, j.file id) ∈ j.segments := by
  cases hfind : j.segments.find? fun seg => seg.1 = id with
  | none => simp [file, hfind] at h
  | some seg =>
    have hmem := mem_of_find?_eq_some hfind
    have hid : seg.1 = id := by simpa using find?_some hfind
    rw [← hid, file_of_mem hmem]
    exact hmem

theorem mem_history : e ∈ j.history ↔ ∃ id, e ∈ j.file id := by
  constructor
  · intro h
    obtain ⟨seg, hseg, he⟩ := mem_flatMap.mp h
    exact ⟨seg.1, by rwa [file_of_mem hseg]⟩
  · rintro ⟨id, he⟩
    exact mem_flatMap.mpr ⟨_, mem_segments_of_file he, he⟩

theorem file_active : j.file j.active.1 = j.active.2 :=
  file_of_mem (mem_append_right _ mem_cons_self)

variable {n : Nat}

/-- What was appended before the entry at a place in a file is in an earlier file or
earlier in the same one. -/
theorem history_split (h : (j.file id)[n]? = some e) :
    ∃ pre post, j.history = pre ++ e :: post ∧ ∀ e' ∈ pre, ∃ id' n',
      (j.file id')[n']? = some e' ∧ (id' < id ∨ id' = id ∧ n' < n) := by
  have hmem := mem_segments_of_file (mem_of_getElem? h)
  obtain ⟨older, newer, hsplit⟩ := append_of_mem hmem
  obtain ⟨hlt, hget⟩ := List.getElem?_eq_some_iff.mp h
  refine ⟨older.flatMap Prod.snd ++ (j.file id).take n,
    (j.file id).drop (n + 1) ++ newer.flatMap Prod.snd, ?_, ?_⟩
  · have hfile : j.file id = (j.file id).take n ++ e :: (j.file id).drop (n + 1) := by
      rw [← hget, getElem_cons_drop, take_append_drop]
    calc j.history = (older ++ (id, j.file id) :: newer).flatMap Prod.snd := by
          rw [history, hsplit]
      _ = older.flatMap Prod.snd ++ (j.file id ++ newer.flatMap Prod.snd) := by simp
      _ = older.flatMap Prod.snd ++ ((j.file id).take n ++ e :: (j.file id).drop (n + 1) ++
            newer.flatMap Prod.snd) := by rw [← hfile]
      _ = _ := by simp
  · intro e' he'
    rcases mem_append.mp he' with he' | he'
    · obtain ⟨seg, hseg, he'⟩ := mem_flatMap.mp he'
      have hord := j.segments_ordered
      rw [hsplit] at hord
      have hid : seg.1 < id := (pairwise_append.mp hord).2.2 seg hseg _ mem_cons_self
      have hseg' : seg ∈ j.segments := hsplit ▸ mem_append_left _ hseg
      rw [← file_of_mem hseg'] at he'
      obtain ⟨n', hn', hget'⟩ := mem_iff_getElem.mp he'
      exact ⟨seg.1, n', List.getElem?_eq_some_iff.mpr ⟨hn', hget'⟩, .inl hid⟩
    · obtain ⟨n', hn', hget'⟩ := mem_iff_getElem.mp he'
      have hn'' : n' < n ∧ n' < (j.file id).length := by simpa using hn'
      refine ⟨id, n', ?_, .inr ⟨rfl, hn''.1⟩⟩
      rw [getElem_take] at hget'
      exact List.getElem?_eq_some_iff.mpr ⟨hn''.2, hget'⟩

/-! ## What the writer changes -/

@[simp] theorem roll_gone : j.roll.gone = j.gone := rfl

@[simp] theorem roll_file (id : Nat) : j.roll.file id = j.file id := by
  have hsegs : j.roll.segments = j.segments ++ [(j.active.1 + 1, [])] := rfl
  unfold file
  rw [hsegs, find?_append]
  cases hfind : j.segments.find? fun seg => seg.1 = id with
  | some seg => rfl
  | none =>
    by_cases hid : j.active.1 + 1 = id
    · simp [hid]
    · simp [hid]

@[simp] theorem rotate_file (r : Rotation) (id : Nat) : (j.rotate r).file id = j.file id := by
  cases r with
  | no => rfl
  | stays | archives => exact roll_file id

theorem rotate_history (r : Rotation) : (j.rotate r).history = j.history := by
  cases r <;> simp [rotate, history, segments, roll, leave]

theorem active_le_rotate (r : Rotation) : j.active.1 ≤ (j.rotate r).active.1 := by
  cases r with
  | no => exact le_rfl
  | stays | archives => exact Nat.le_succ _

@[simp] theorem prune_file (id id' : Nat) : (j.prune id).file id' = j.file id' := by
  unfold prune
  split <;> rfl

theorem prune_history (id : Nat) : (j.prune id).history = j.history := by
  unfold prune
  split <;> rfl

@[simp] theorem prune_active (id : Nat) : (j.prune id).active = j.active := by
  unfold prune
  split <;> rfl

theorem mem_gone_prune {id id' : Nat} (h : id' ∈ (j.prune id).gone) : id' ∈ j.gone ∨ id' = id := by
  unfold prune at h
  split at h
  · simpa [leave] using h
  · exact .inl h

theorem append_history (e : LogEntry) : (j.append e).history = j.history ++ [e] := by
  simp [history, segments, append]

theorem append_file (e : LogEntry) (id : Nat) :
    (j.append e).file id = if id = j.active.1 then j.file id ++ [e] else j.file id := by
  split
  · rename_i hid
    subst hid
    rw [file_active]
    exact file_active
  · rename_i hid
    have hne : ¬ j.active.1 = id := fun h => hid h.symm
    simp [file, segments, append, hne]

theorem append_file_get {e e' : LogEntry} (h : ((j.append e).file id)[n]? = some e') :
    (j.file id)[n]? = some e' ∨ id = j.active.1 ∧ n = (j.file id).length ∧ e' = e := by
  rw [append_file] at h
  split at h
  · rename_i hid
    rcases Nat.lt_trichotomy n (j.file id).length with hlt | heq | hgt
    · rw [getElem?_append_left hlt] at h
      exact .inl h
    · subst heq
      exact .inr ⟨hid, rfl, by simpa using h.symm⟩
    · rw [getElem?_append_right hgt.le] at h
      have hnone : ([e] : List LogEntry)[n - (j.file id).length]? = none := by
        refine getElem?_eq_none ?_
        simp only [length_singleton]
        omega
      rw [hnone] at h
      cases h
  · exact .inl h

end Journal

/-! ## A cycle of the reader -/

/-- A `TxLogReader` over a listed directory: the ids from its cursor on, how many entries of the
first it has read if that file is open, and the last id of its list. -/
structure Cursor where
  ids : List Nat
  pos : Option Nat
  last : Nat
  deriving DecidableEq, Repr

/-- `TxLogReader::open` and `skip_to_segment`. The active segment is always there. -/
def Journal.list (j : Journal) (resume : Nat) : Cursor where
  ids := (j.live.map Prod.fst).dropWhile fun id => id < resume
  pos := none
  last := j.active.1

inductive ReadStep where
  | entry (e : LogEntry) (r : Cursor)
  | moved (r : Cursor)
  | drained
  | failed

/-- One step of the loop of `TxLogReader::read_next`: open the file, read an entry,
or leave a file at its end. -/
def Cursor.read (j : Journal) (r : Cursor) : ReadStep :=
  match r.ids, r.pos with
  | [], _ => .drained
  | id :: _, none => if id ∈ j.gone then .failed else .moved { r with pos := some 0 }
  | id :: ids, some n =>
    match (j.file id)[n]? with
    | some e => .entry e { r with pos := some (n + 1) }
    | none => .moved { r with ids := ids, pos := none }

/-- The place is behind the reader: in a file that it has left or that its list
did not have, or in the file it reads. -/
def Cursor.Passed (r : Cursor) (id n : Nat) : Prop :=
  (id < r.last ∧ id ∉ r.ids) ∨ (r.ids.head? = some id ∧ ∃ k, r.pos = some k ∧ n < k)

/-- A cycle under way: what is behind the reader is at or below `done`. -/
structure Cursor.Reads (r : Cursor) (j : Journal) (done : Nat) : Prop where
  sorted : r.ids.Pairwise fun id id' => id < id'
  le_last : ∀ id ∈ r.ids, id ≤ r.last
  last_le : r.last ≤ j.active.1
  pos_le : ∀ id k, r.ids.head? = some id → r.pos = some k → k ≤ (j.file id).length
  passed : ∀ id n e, (j.file id)[n]? = some e → r.Passed id n → e.sequence ≤ done

namespace Cursor.Reads

variable {r : Cursor} {j j' : Journal} {done : Nat}

/-- Files may leave and segments be opened behind the reader's back. -/
theorem congr (h : r.Reads j done) (hfile : ∀ id, j'.file id = j.file id)
    (hactive : j.active.1 ≤ j'.active.1) : r.Reads j' done where
  sorted := h.sorted
  le_last := h.le_last
  last_le := h.last_le.trans hactive
  pos_le := by
    intro id k hid hk
    rw [hfile]
    exact h.pos_le id k hid hk
  passed := by
    intro id n e he
    rw [hfile] at he
    exact h.passed id n e he

theorem append (h : r.Reads j done) (e : LogEntry) : r.Reads (j.append e) done where
  sorted := h.sorted
  le_last := h.le_last
  last_le := h.last_le
  pos_le := by
    intro id k hid hk
    refine (h.pos_le id k hid hk).trans ?_
    rw [Journal.append_file]
    split
    · simp
    · exact le_rfl
  passed := by
    intro id n e' he' hp
    rcases Journal.append_file_get he' with hold | ⟨rfl, rfl, rfl⟩
    · exact h.passed id n e' hold hp
    rcases hp with ⟨hlt, -⟩ | ⟨hid, k, hk, hlt⟩
    · have := h.last_le
      omega
    · have := h.pos_le _ k hid hk
      omega

/-- A cycle that starts has behind it the files that are gone and those that its
cursor skips. -/
theorem list {resume : Nat} (hgone : ∀ id ∈ j.gone, ∀ e ∈ j.file id, e.sequence ≤ done)
    (hresume : ∀ id < resume, ∀ e ∈ j.file id, e.sequence ≤ done) :
    (j.list resume).Reads j done := by
  have hids : ((j.live.map Prod.fst).dropWhile fun id => id < resume).Sublist
      (j.segments.map Prod.fst) :=
    (dropWhile_sublist _).trans (filter_sublist.map _)
  have hord : (j.segments.map Prod.fst).Pairwise fun id id' => id < id' :=
    pairwise_map.mpr j.segments_ordered
  constructor
  case sorted => exact hord.sublist hids
  case le_last =>
    intro id hid
    obtain ⟨seg, hseg, rfl⟩ := mem_map.mp (hids.subset hid)
    exact j.segments_le hseg
  case last_le => exact le_rfl
  case pos_le => exact fun _ _ _ hk => nomatch hk
  case passed =>
    intro id n e he hp
    have hmem := mem_of_getElem? he
    rcases hp with ⟨-, hnot⟩ | ⟨-, k, hk, -⟩
    · by_cases hg : id ∈ j.gone
      · exact hgone id hg e hmem
      · refine hresume id ?_ e hmem
        have hlive : (id, j.file id) ∈ j.live :=
          mem_filter.mpr ⟨Journal.mem_segments_of_file hmem, by simpa using hg⟩
        by_contra hge
        exact hnot (mem_dropWhile_of_neg (mem_map_of_mem hlive) (by simpa using hge))
    · cases hk

variable (h : r.Reads j done)
include h

theorem moved {r' : Cursor} (hread : r.read j = .moved r') :
    r'.Reads j done := by
  obtain ⟨ids, pos, last⟩ := r
  unfold Cursor.read at hread
  cases ids with
  | nil => cases hread
  | cons id ids =>
    obtain ⟨hfirst, hsorted⟩ := pairwise_cons.mp h.sorted
    cases pos with
    | none =>
      dsimp only at hread
      split at hread
      · cases hread
      cases hread
      refine ⟨h.sorted, h.le_last, h.last_le, ?_, ?_⟩
      · rintro _ k - ⟨⟩
        exact Nat.zero_le _
      · intro id' n e he hp
        rcases hp with hp | ⟨-, k, hk, hlt⟩
        · exact h.passed id' n e he (.inl hp)
        · cases hk
          omega
    | some k =>
      dsimp only at hread
      split at hread
      · cases hread
      rename_i hend
      have hlen := getElem?_eq_none_iff.mp hend
      cases hread
      refine ⟨hsorted, fun id' hid' => h.le_last id' (mem_cons_of_mem _ hid'), h.last_le,
        fun _ _ _ hk => (nomatch hk), ?_⟩
      intro id' n e he hp
      rcases hp with ⟨hlt, hnot⟩ | ⟨-, _, hk, -⟩
      · by_cases hid : id' = id
        · -- read to its end
          subst hid
          have hn := (List.getElem?_eq_some_iff.mp he).1
          exact h.passed id' n e he (.inr ⟨rfl, k, rfl, by omega⟩)
        · refine h.passed id' n e he (.inl ⟨hlt, ?_⟩)
          intro hmem
          exact (mem_cons.mp hmem).elim hid hnot
      · cases hk

/-- The place of the entry that is read: all that was appended before it is behind
the reader. -/
theorem entry {e : LogEntry} {r' : Cursor} (hread : r.read j = .entry e r') :
    (∃ pre post, j.history = pre ++ e :: post ∧ ∀ e' ∈ pre, e'.sequence ≤ done) ∧
      ∀ done', done ≤ done' → e.sequence ≤ done' → r'.Reads j done' := by
  obtain ⟨ids, pos, last⟩ := r
  unfold Cursor.read at hread
  cases ids with
  | nil => cases hread
  | cons id ids =>
    cases pos with
    | none =>
      dsimp only at hread
      split at hread <;> cases hread
    | some k =>
      dsimp only at hread
      split at hread
      · rename_i e₀ hget
        cases hread
        have hfirst := (pairwise_cons.mp h.sorted).1
        constructor
        · obtain ⟨pre, post, hsplit, hpre⟩ := Journal.history_split hget
          refine ⟨pre, post, hsplit, ?_⟩
          intro e' he'
          obtain ⟨id', n', hget', hlt | ⟨rfl, hlt⟩⟩ := hpre e' he'
          · refine h.passed id' n' e' hget' (.inl ⟨?_, ?_⟩)
            · exact hlt.trans_le (h.le_last id mem_cons_self)
            · intro hmem
              rcases mem_cons.mp hmem with rfl | hmem
              · exact lt_irrefl _ hlt
              · exact lt_asymm hlt (hfirst id' hmem)
          · exact h.passed id' n' e' hget' (.inr ⟨rfl, k, rfl, hlt⟩)
        · intro done' hle he
          refine ⟨h.sorted, h.le_last, h.last_le, ?_, ?_⟩
          · rintro id' _ hid ⟨⟩
            cases hid
            exact (List.getElem?_eq_some_iff.mp hget).1
          · intro id' n e' he' hp
            rcases hp with hp | ⟨hid, k', hk', hlt⟩
            · exact (h.passed id' n e' he' (.inl hp)).trans hle
            cases hid
            cases hk'
            by_cases hn : n = k
            · subst hn
              rw [hget] at he'
              exact Option.some.inj he' ▸ he
            · exact (h.passed id n e' he' (.inr ⟨rfl, k, rfl, by omega⟩)).trans hle
      · cases hread

theorem drained (hread : r.read j = .drained) {id : Nat} (hid : id < r.last)
    {e : LogEntry} (he : e ∈ j.file id) : e.sequence ≤ done := by
  obtain ⟨n, hn, hget⟩ := mem_iff_getElem.mp he
  refine h.passed id n e (List.getElem?_eq_some_iff.mpr ⟨hn, hget⟩) (.inl ⟨hid, ?_⟩)
  obtain ⟨ids, pos, last⟩ := r
  unfold Cursor.read at hread
  cases ids with
  | nil => exact not_mem_nil
  | cons id' ids =>
    cases pos with
    | none | some k =>
      dsimp only at hread
      split at hread <;> cases hread

end Cursor.Reads

end CqServer
