import CqServer.Topic.Replay

/-!
# Histories of a persistent topic

Full publishes, delta publishes and deletes, one after the other, every append successful. A
mutation that changes the records writes one entry, under the next sequence (`step_cases`), so
the log of a history is numbered through (`Numbered`).
-/

namespace CqServer

open Lib StoreState List

variable {σ : Schema}

namespace History

inductive Mutation where
  | publish (now : Nat) (m : JsonMap)
  | delta (now : Nat) (m : JsonMap)
  | delete (key : String)

section Model
variable [HostText] {cfg : TopicConfig} {s s' : Replay.State σ} {mu : Mutation}

def run (cfg : TopicConfig) (t : Topic σ) : Mutation → Outcome σ
  | .publish now m => upsertMap cfg now true t m
  | .delta now m => deltaUpsertMap cfg now true t m
  | .delete key => CqServer.delete cfg true t key

/-- One mutation. A delta of a keyed topic without its key fields is refused. -/
def step (cfg : TopicConfig) (s : Replay.State σ) (mu : Mutation) : Option (Replay.State σ) :=
  let o := run cfg s.topic mu
  if o.ok then some ⟨o.topic, s.log ++ o.entries⟩ else none

def entry (cfg : TopicConfig) (t : Topic σ) (key : String) (payload : Option JsonMap)
    (format : PayloadFormat) : LogEntry :=
  ⟨t.nextSequence + 1, key, cfg.originId, payload, format⟩

def commit (s : Replay.State σ) (st : StoreState σ) (e : LogEntry) : Replay.State σ :=
  ⟨{ s.topic with state := st, nextSequence := s.topic.nextSequence + 1 }, s.log ++ [e]⟩

section
variable (hpersist : cfg.persist = true) (h : step cfg s mu = some s')
include hpersist h

theorem step_cases : (∃ now m, mu = .publish now m ∧ s' = commit s
        (s.topic.state.commitValuesLocked (cfg.keyColIndices σ) now (.ofMap σ (flatView m))).1
        (entry cfg s.topic ((computeKeyFromMap cfg (flatView m)).getD "") (some (flatView m))
          .json)) ∨
    (∃ now m d, mu = .delta now m ∧ deltaRead cfg s.topic.state m = some d ∧
      s' = commit s (s.topic.state.commitValuesLocked (cfg.keyColIndices σ) now d.values).1
        (entry cfg s.topic d.key (some d.payload) d.format)) ∨
    (∃ key st r, mu = .delete key ∧ s.topic.state.removeKey key = some (st, r) ∧
      s' = commit s st (entry cfg s.topic key none .json)) ∨
    (∃ key, mu = .delete key ∧ s.topic.state.removeKey key = none ∧ s' = s) := by
  unfold step at h
  cases mu with
  | publish now m =>
    simp only [run, upsertMap, writeStoreWithChanged_logged hpersist, if_true, Option.some.injEq] at h
    exact .inl ⟨now, m, rfl, h.symm⟩
  | delta now m =>
    cases hread : deltaRead cfg s.topic.state m with
    | none => simp [run, deltaUpsertMap, hread] at h
    | some d =>
      simp only [run, deltaUpsertMap, hread, deltaCommit, writeStoreWithChanged_logged hpersist,
        if_true, Option.some.injEq] at h
      exact .inr (.inl ⟨now, m, d, rfl, hread, h.symm⟩)
  | delete key =>
    cases hrem : s.topic.state.removeKey key with
    | none =>
      simp only [run, CqServer.delete, hrem, if_true, Option.some.injEq, append_nil] at h
      exact .inr (.inr (.inr ⟨key, rfl, hrem, h.symm⟩))
    | some p =>
      simp only [run, delete_logged hpersist hrem, if_true, Option.some.injEq] at h
      exact .inr (.inr (.inl ⟨key, p.1, p.2, rfl, hrem, h.symm⟩))

theorem step_log : s' = s ∨ ∃ st e, s' = commit s st e ∧ e.sequence = s.topic.nextSequence + 1 ∧
      e.origin = cfg.originId := by
  rcases step_cases hpersist h with
    ⟨now, m, -, rfl⟩ | ⟨now, m, d, -, -, rfl⟩ | ⟨key, st, r, -, -, rfl⟩ | ⟨key, -, -, rfl⟩
  · exact .inr ⟨_, _, rfl, rfl, rfl⟩
  · exact .inr ⟨_, _, rfl, rfl, rfl⟩
  · exact .inr ⟨_, _, rfl, rfl, rfl⟩
  · exact .inl rfl

end

/-- The log is numbered from 1, up to the topic's counter. -/
structure Numbered (cfg : TopicConfig) (s : Replay.State σ) : Prop where
  length : s.log.length = s.topic.nextSequence
  sequence : ∀ i e, s.log[i]? = some e → e.sequence = i + 1
  origin : ∀ e ∈ s.log, e.origin = cfg.originId

omit [HostText] in
theorem Numbered.init (cfg : TopicConfig) : Numbered cfg (Replay.State.init σ) :=
  ⟨rfl, nofun, nofun⟩

omit [HostText] in
theorem Numbered.mem_drop (h : Numbered cfg s) {e : LogEntry} {n : Nat} :
    e ∈ s.log.drop n ↔ e ∈ s.log ∧ n < e.sequence := by
  simp only [mem_iff_getElem?, getElem?_drop]
  constructor
  · rintro ⟨i, hi⟩
    have hseq := h.sequence _ e hi
    exact ⟨⟨_, hi⟩, by omega⟩
  · rintro ⟨⟨i, hi⟩, hlt⟩
    have hseq := h.sequence i e hi
    exact ⟨i - n, by rwa [Nat.add_sub_cancel' (by omega)]⟩

omit [HostText] in
theorem Numbered.mem_take (h : Numbered cfg s) {e : LogEntry} {n : Nat} :
    e ∈ s.log.take n ↔ e ∈ s.log ∧ e.sequence ≤ n := by
  simp only [mem_iff_getElem?, getElem?_take, Option.ite_none_right_eq_some]
  constructor
  · rintro ⟨i, hlt, hi⟩
    have hseq := h.sequence i e hi
    exact ⟨⟨i, hi⟩, by omega⟩
  · rintro ⟨⟨i, hi⟩, hle⟩
    have hseq := h.sequence i e hi
    exact ⟨i, by omega, hi⟩

theorem Numbered.step (hpersist : cfg.persist = true) (h : Numbered cfg s)
    (hstep : step cfg s mu = some s') : Numbered cfg s' := by
  rcases step_log hpersist hstep with rfl | ⟨st, e, rfl, hseq, horigin⟩
  · exact h
  refine ⟨?_, ?_, ?_⟩
  · simp [commit, h.length]
  · intro i e' he'
    rcases Nat.lt_trichotomy i s.log.length with hlt | rfl | hgt
    · rw [commit, getElem?_append_left hlt] at he'
      exact h.sequence i e' he'
    · rw [commit, getElem?_concat_length] at he'
      cases he'
      rw [hseq, h.length]
    · have hnone : (s.log ++ [e])[i]? = none := by
        rw [getElem?_eq_none_iff, length_append]
        exact hgt
      rw [commit, hnone] at he'
      cases he'
  · intro e' he'
    rcases mem_append.mp he' with hold | hnew
    · exact h.origin e' hold
    · rw [mem_singleton.mp hnew]
      exact horigin

end Model

end History

end CqServer
