import CqServer.Lib.Run

/-!
# The client's bookmark file

`LocalBookmarkStore` keeps the highest sequence of each topic under a lock. A call of `persist`
copies the map under the lock, writes the copy to the temporary file, which all calls share, and
renames that file. Calls on several threads take these steps in any order, so an older copy can
replace a newer one (`older_copy_renamed`), unless each call ends before the next one copies the
map (`persisted_stays`).
-/

namespace CqServer.BookmarkFile

open Lib Function

/-- The recorded sequences, by topic; a file holds the JSON of one. -/
abbrev Marks := String → Option Nat

def Marks.record (m : Marks) (topic : String) (seq : Nat) : Marks :=
  if seq = 0 then m else update m topic (some (max ((m topic).getD 0) seq))

inductive Stage where
  | idle
  | snapshotted (m : Marks)
  | written

structure Store where
  map : Marks
  tmp : Option Marks
  file : Option Marks
  stage : Nat → Stage

def Store.load (file : Option Marks) : Store :=
  ⟨file.getD fun _ => none, none, file, fun _ => .idle⟩

inductive Action where
  | record (topic : String) (seq : Nat)
  | snapshot (thread : Nat)
  | write (thread : Nat)
  | rename (thread : Nat)

/-- A rename fails if another one has taken the temporary file. -/
def step (s : Store) : Action → Option Store
  | .record topic seq => some { s with map := s.map.record topic seq }
  | .snapshot p =>
    match s.stage p with
    | .idle => some { s with stage := update s.stage p (.snapshotted s.map) }
    | _ => none
  | .write p =>
    match s.stage p with
    | .snapshotted m => some { s with tmp := some m, stage := update s.stage p .written }
    | _ => none
  | .rename p =>
    match s.stage p with
    | .written =>
      some { s with tmp := none, file := s.tmp.or s.file, stage := update s.stage p .idle }
    | _ => none

/-- No call is under way when the map is copied. -/
def Ok (s : Store) : Action → Prop
  | .snapshot _ => ∀ p, s.stage p = .idle
  | _ => True

/-! ## What has been recorded stays -/

def Marks.Reaches (m : Marks) (topic : String) (n : Nat) : Prop := n ≤ (m topic).getD 0

variable {topic : String} {n : Nat}

theorem Marks.Reaches.record {m : Marks} (h : m.Reaches topic n) (topic' : String) (seq : Nat) :
    (m.record topic' seq).Reaches topic n := by
  unfold Marks.record Marks.Reaches at *
  split
  · exact h
  · by_cases heq : topic = topic'
    · subst heq
      rw [update_self, Option.getD_some]
      omega
    · rw [update_of_ne heq]
      exact h

theorem Marks.reaches_record (m : Marks) (topic : String) (seq : Nat) :
    (m.record topic seq).Reaches topic seq := by
  unfold Marks.record Marks.Reaches
  split
  · omega
  · rw [update_self, Option.getD_some]
    omega

def Stage.Reaches (topic : String) (n : Nat) (tmp : Option Marks) : Stage → Prop
  | .idle => True
  | .snapshotted m => m.Reaches topic n
  | .written => ∃ m, tmp = some m ∧ m.Reaches topic n

/-- One call at most is under way, and it will rename what reaches `n`. -/
structure Inv (topic : String) (n : Nat) (s : Store) : Prop where
  map : s.map.Reaches topic n
  alone : ∃ q, ∀ p ≠ q, s.stage p = .idle
  stage : ∀ p, (s.stage p).Reaches topic n s.tmp

def Filed (topic : String) (n : Nat) (s : Store) : Prop := ∃ m, s.file = some m ∧ m.Reaches topic n

variable {s t : Store} {p : Nat} {a : Action}

theorem reaches_step (h : s.map.Reaches topic n) (hstep : step s a = some t) :
    t.map.Reaches topic n := by
  cases a with
  | record topic' seq =>
    cases hstep
    exact h.record topic' seq
  | snapshot p | write p | rename p =>
    simp only [step] at hstep
    split at hstep
    · cases hstep
      exact h
    · cases hstep

theorem Inv.goOn (hmap : s.map.Reaches topic n) (hothers : ∀ p' ≠ p, s.stage p' = .idle)
    {x : Stage} {tmp file : Option Marks} (hx : x.Reaches topic n tmp) :
    Inv topic n { s with tmp, file, stage := update s.stage p x } := by
  refine ⟨hmap, ⟨p, fun p' hp => (update_of_ne hp _ _).trans (hothers p' hp)⟩, ?_⟩
  refine (forall_update_iff s.stage fun _ y => y.Reaches topic n tmp).mpr ⟨hx, fun p' hp => ?_⟩
  rw [hothers p' hp]
  trivial

theorem Inv.others (h : Inv topic n s) (hp : s.stage p ≠ .idle) : ∀ p' ≠ p, s.stage p' = .idle := by
  obtain ⟨q, hq⟩ := h.alone
  obtain rfl : p = q := Decidable.byContradiction fun hne => hp (hq p hne)
  exact hq

theorem Inv.step (h : Inv topic n s) (hok : Ok s a) (hstep : step s a = some t) :
    Inv topic n t ∧ (t.file = s.file ∨ Filed topic n t) ∧ ∀ p, a = .rename p → Filed topic n t := by
  cases a with
  | record topic' seq =>
    cases hstep
    exact ⟨{ h with map := h.map.record topic' seq }, .inl rfl, nofun⟩
  | snapshot p =>
    simp only [BookmarkFile.step, hok p] at hstep
    cases hstep
    exact ⟨.goOn h.map (fun p' _ => hok p') h.map, .inl rfl, nofun⟩
  | write p =>
    have hcopy := h.stage p
    have hothers := @Inv.others _ _ _ p h
    simp only [BookmarkFile.step] at hstep
    split at hstep
    · rename_i m hp
      cases hstep
      rw [hp] at hcopy hothers
      exact ⟨.goOn h.map (hothers nofun) ⟨m, rfl, hcopy⟩, .inl rfl, nofun⟩
    · cases hstep
  | rename p =>
    have hcopy := h.stage p
    have hothers := @Inv.others _ _ _ p h
    simp only [BookmarkFile.step] at hstep
    split at hstep
    · rename_i hp
      cases hstep
      rw [hp] at hcopy hothers
      obtain ⟨m, htmp, hm⟩ := hcopy
      have hfiled : ∃ m', s.tmp.or s.file = some m' ∧ m'.Reaches topic n := by
        rw [htmp]
        exact ⟨m, rfl, hm⟩
      exact ⟨.goOn h.map (hothers nofun) trivial, .inr hfiled, fun _ _ => hfiled⟩
    · cases hstep

/-- **Persistence.** In every run in which the calls do not overlap: once a call that copied the
map after a record has renamed its file, the file has the recorded sequence or a later one, from
then on. -/
theorem persisted_stays {bs cs ds : List Action} {s₁ s₂ s₃ s₄ : Store}
    (hrecorded : Run step Ok s₁ (.record topic n :: bs) s₂)
    (hcopied : Run step Ok s₂ (.snapshot p :: cs) s₃)
    (hrenamed : Run step Ok s₃ (.rename p :: ds) s₄) : Filed topic n s₄ := by
  cases hrecorded with
  | cons _ hrec hbs =>
    cases hrec
    have hmap : s₂.map.Reaches topic n := hbs.invariant (P := fun s => s.map.Reaches topic n)
      (fun _ _ _ h _ hst => reaches_step h hst) (s₁.map.reaches_record topic n)
    cases hcopied with
    | cons hok hcopy hcs =>
      simp only [step, hok p] at hcopy
      cases hcopy
      have hinv : Inv topic n s₃ := hcs.invariant (fun _ _ _ h hok hst => (h.step hok hst).1)
        (.goOn hmap (fun p' _ => hok p') hmap)
      cases hrenamed with
      | cons hok hren hds =>
        obtain ⟨hinv', -, hfiled⟩ := hinv.step hok hren
        refine (hds.invariant (P := fun s => Inv topic n s ∧ Filed topic n s) ?_
          ⟨hinv', hfiled p rfl⟩).2
        rintro s a t ⟨h, hf⟩ hok hst
        obtain ⟨h', hsame | hnew, -⟩ := h.step hok hst
        · exact ⟨h', by rwa [Filed, hsame]⟩
        · exact ⟨h', hnew⟩

theorem persisted_stays_trade : ∃ s₂ s₃ s₄,
    Run step Ok (.load none) [.record "/trades" 7] s₂ ∧ Run step Ok s₂ [.snapshot 0, .write 0] s₃ ∧
      Run step Ok s₃ [.rename 0, .record "/trades" 9] s₄ ∧ Filed "/trades" 7 s₄ :=
  have hrecorded := .cons trivial rfl .nil
  have hcopied := .cons (fun _ => rfl) rfl (.cons trivial rfl .nil)
  have hrenamed := .cons trivial rfl (.cons trivial rfl .nil)
  ⟨_, _, _, hrecorded, hcopied, hrenamed, persisted_stays hrecorded hcopied hrenamed⟩

/-- Two calls overlap: the second has copied the sequence 7, and the first, whose copy is older,
is the last to rename its file. -/
theorem older_copy_renamed : ∃ s, Run step (fun _ _ => True) (.load none)
      [.snapshot 0, .record "/trades" 7, .snapshot 1, .write 1, .rename 1, .write 0, .rename 0] s ∧
    ¬ Filed "/trades" 7 s := by
  refine ⟨_, .cons trivial rfl <| .cons trivial rfl <| .cons trivial rfl <| .cons trivial rfl <|
    .cons trivial rfl <| .cons trivial rfl <| .cons trivial rfl .nil, ?_⟩
  rintro ⟨m, hfile, hm⟩
  obtain rfl : (fun _ => none) = m := Option.some.inj hfile
  exact Nat.not_succ_le_zero 6 hm

end CqServer.BookmarkFile
