import Mathlib.Data.List.Nodup
import Mathlib.Data.List.Forall2
import CqServer.Lib.Run
import CqServer.TxLog.Frame

/-!
# The log directories of the topics

A topic's directory is named after the topic with every character that may not stand in a file
name replaced by `_`, and without leading `_`. Recovery replays all it finds in the directory,
whatever topic the entries were written for, so topics are kept apart only if their directories
are: `directories_apart_iff` says for which names that is so.
-/

namespace CqServer.Directories

open Lib List

/-- A path by its components. -/
abbrev Path := List (List Char)

def slugChar (c : Char) : Char :=
  if c.isAlphanum || c = '_' || c = '-' || c = '.' then c else '_'

/-- Joining `""` or `"."` names the directory itself. -/
def join (dir : Path) (name : List Char) : Path :=
  if name = [] ∨ name = ['.'] then dir else dir ++ [name]

def logPathFor (dir : Path) (topic : String) : Path :=
  join dir ((topic.toList.map slugChar).dropWhile (· = '_'))

/-- What is in the directories: each entry with the topic that logged it. -/
abbrev Disk := Path → List (String × TxEntry)

/-- A topic logs an entry, or the server stops and starts again, which leaves the files. -/
inductive Event where
  | logged (topic : String) (entry : TxEntry)
  | restarted

def step (dir : Path) (disk : Disk) : Event → Option Disk
  | .logged topic entry =>
    let path := logPathFor dir topic
    some (Function.update disk path (disk path ++ [(topic, entry)]))
  | .restarted => some disk

/-- Only configured topics log. -/
def Configured (names : List String) (_ : Disk) : Event → Prop
  | .logged topic _ => topic ∈ names
  | .restarted => True

/-- What `recover_topic_with_archive` replays into the topic: every entry of its directory. -/
def recovered (dir : Path) (disk : Disk) (topic : String) : List (String × TxEntry) :=
  disk (logPathFor dir topic)

/-! ## Names with one directory -/

/-- The characters that tell names apart: `_` stands for all others. -/
def plain (c : Char) : Bool := c.isAlphanum || c = '-' || c = '.'

def core (topic : String) : List Char := topic.toList.dropWhile fun c => !plain c

/-- The names differ only in characters that are not plain, those in front left out; or both
come to nothing or to a single dot. -/
def Alike (a b : String) : Prop :=
  (core a).Forall₂ (fun x y => x = y ∨ plain x = false ∧ plain y = false) (core b) ∨
    (core a = [] ∨ core a = ['.']) ∧ (core b = [] ∨ core b = ['.'])

theorem slugChar_eq (c : Char) : slugChar c = if plain c then c else '_' := by
  unfold slugChar plain
  by_cases hc : c = '_' <;> simp [hc]

theorem slugChar_eq_iff (x y : Char) :
    slugChar x = slugChar y ↔ x = y ∨ plain x = false ∧ plain y = false := by
  have hne : ∀ c, plain c = true → c ≠ '_' := by
    rintro c hc rfl
    exact absurd hc (by decide)
  rw [slugChar_eq, slugChar_eq]
  cases hx : plain x <;> cases hy : plain y
  · simp
  · simpa [eq_comm, hne y hy] using fun h => by simp [h, hy] at hx
  · simpa [hne x hx] using fun h => by simp [h, hy] at hx
  · simp

theorem slug_eq (topic : String) :
    (topic.toList.map slugChar).dropWhile (· = '_') = (core topic).map slugChar := by
  have hdrop : ((fun c => decide (c = '_')) ∘ slugChar) = fun c => !plain c := by
    funext c
    show decide (slugChar c = '_') = !plain c
    rw [slugChar_eq]
    cases hc : plain c with
    | false => simp
    | true =>
      have hne : c ≠ '_' := by
        rintro rfl
        exact absurd hc (by decide)
      simp [hne]
  rw [dropWhile_map, hdrop, core]

theorem join_eq_iff (dir : Path) (a b : List Char) :
    join dir a = join dir b ↔ a = b ∨ (a = [] ∨ a = ['.']) ∧ (b = [] ∨ b = ['.']) := by
  unfold join
  split
  · split
    · simp_all
    · aesop
  · split
    · aesop
    · simp_all

theorem logPathFor_eq_iff (dir : Path) (a b : String) :
    logPathFor dir a = logPathFor dir b ↔ Alike a b := by
  have hdot : ∀ l : List Char, l.map slugChar = ['.'] ↔ l = ['.'] := by
    have hchar : ∀ c, slugChar c = '.' ↔ c = '.' := fun c => by
      simpa [show slugChar '.' = '.' from rfl, show plain '.' = true from rfl] using
        slugChar_eq_iff c '.'
    simp [hchar]
  have hmap : (core a).map slugChar = (core b).map slugChar ↔
      (core a).Forall₂ (fun x y => x = y ∨ plain x = false ∧ plain y = false) (core b) := by
    rw [← forall₂_eq_eq_eq]
    simp [slugChar_eq_iff]
  rw [logPathFor, logPathFor, slug_eq, slug_eq, join_eq_iff, hmap, Alike, hdot, hdot,
    map_eq_nil_iff, map_eq_nil_iff]

theorem mem_logged {dir : Path} {names : List String} {events : List Event}
    {disk : Disk} (h : Run (step dir) (Configured names) (fun _ => []) events disk) :
    ∀ path, ∀ r ∈ disk path, r.1 ∈ names ∧ logPathFor dir r.1 = path := by
  refine h.invariant (P := fun disk => ∀ path, ∀ r ∈ disk path,
    r.1 ∈ names ∧ logPathFor dir r.1 = path) ?_ nofun
  intro disk event disk' hdisk hok hstep path r hr
  cases event with
  | restarted =>
    cases hstep
    exact hdisk path r hr
  | logged topic entry =>
    cases hstep
    by_cases hpath : path = logPathFor dir topic
    · subst hpath
      rw [Function.update_self, mem_append, mem_singleton] at hr
      rcases hr with hr | rfl
      · exact hdisk _ r hr
      · exact ⟨hok, rfl⟩
    · rw [Function.update_of_ne hpath] at hr
      exact hdisk path r hr

/-- **Topics have directories of their own, and recover only what they logged, exactly if no two
of their names are alike.** -/
theorem directories_apart_iff (dir : Path) (names : List String) (hnames : names.Nodup) :
    ((names.map (logPathFor dir)).Nodup ↔ names.Pairwise fun a b => ¬ Alike a b) ∧
    ((∀ events disk, Run (step dir) (Configured names) (fun _ => []) events disk →
        ∀ topic ∈ names, ∀ r ∈ recovered dir disk topic, r.1 = topic) ↔
      names.Pairwise fun a b => ¬ Alike a b) := by
  have hpaths : (names.map (logPathFor dir)).Nodup ↔ names.Pairwise fun a b => ¬ Alike a b := by
    rw [Nodup, pairwise_map]
    simp [logPathFor_eq_iff]
  refine ⟨hpaths, fun hown => ?_, fun hapart events disk hrun topic htopic r hr => ?_⟩
  · -- one entry of the first of two alike names, recovered by the second
    refine hnames.imp_of_mem fun {a b} ha hb hne halike => hne ?_
    let e : TxEntry := ⟨1, 0, a, "7", "", [], .json⟩
    exact hown [.logged a e] _ (.cons ha rfl .nil) b hb (a, e)
      (by simp [recovered, (logPathFor_eq_iff dir a b).mpr halike])
  · obtain ⟨hr, hpath⟩ := mem_logged hrun _ r hr
    exact inj_on_of_nodup_map (hpaths.mpr hapart) hr htopic hpath

theorem directories_apart_iff_orders : ["/orders", "/trades"].Nodup ∧
      (["/orders", "/trades"].map (logPathFor [['l', 'o', 'g']])).Nodup := by
  have hnames : ["/orders", "/trades"].Nodup := by decide
  refine ⟨hnames, (directories_apart_iff _ _ hnames).1.mpr ?_⟩
  rw [pairwise_pair, Alike]
  decide

/-- **`/a/b` and `/a_b` share a directory**: the delete logged by the one is replayed into the
other. -/
theorem a_b_replays_slash : ∃ disk, ["/a/b", "/a_b"].Nodup ∧
    logPathFor [] "/a/b" = logPathFor [] "/a_b" ∧
    Run (step []) (Configured ["/a/b", "/a_b"]) (fun _ => [])
      [.logged "/a/b" ⟨1, 0, "/a/b", "7", "", [], .json⟩, .restarted] disk ∧
    recovered [] disk "/a_b" = [("/a/b", ⟨1, 0, "/a/b", "7", "", [], .json⟩)] :=
  ⟨_, by decide, by decide, .cons mem_cons_self rfl (.cons trivial rfl .nil), by decide⟩

end CqServer.Directories
