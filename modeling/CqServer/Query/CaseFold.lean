import Mathlib.Algebra.GroupWithZero.Nat
import Mathlib.Data.List.Infix

/-!
# Case functions in predicates

`UPPER(col) = 'LIT'` and `LOWER(col) = 'lit'` (`predicate.rs`). The comparison transforms the
row's text only when its length in bytes is not the literal's, and otherwise compares the first
character of each mapping. Texts are lists of characters.
-/

namespace CqServer.CaseFold

inductive StringFn where
  | upper
  | lower

/-- Rust's `char::to_uppercase` and `char::to_lowercase`, which give at least one character, and
the two properties of characters that `str::to_lowercase` looks at. -/
structure CaseMap where
  upper : Char → List Char
  lower : Char → List Char
  cased : Char → Bool
  caseIgnorable : Char → Bool
  upper_ne_nil : ∀ c, upper c ≠ []
  lower_ne_nil : ∀ c, lower c ≠ []

def byteLen (s : List Char) : Nat := (s.map Char.utf8Size).sum

theorem eq_of_isPrefix {s t : List Char} (h : s <+: t) (hlen : byteLen s = byteLen t) : s = t := by
  obtain ⟨r, rfl⟩ := h
  cases r with
  | nil => exact (List.append_nil s).symm
  | cons c r =>
    have hpos := c.utf8Size_pos
    simp only [byteLen, List.map_append, List.map_cons, List.sum_append, List.sum_cons] at hlen
    omega

namespace CaseMap

variable (m : CaseMap)

def mapping : StringFn → Char → List Char
  | .upper => m.upper
  | .lower => m.lower

theorem mapping_ne_nil (func : StringFn) (c : Char) : m.mapping func c ≠ [] := by
  cases func
  · exact m.upper_ne_nil c
  · exact m.lower_ne_nil c

def caseIgnorableThenCased (cs : List Char) : Bool :=
  (cs.dropWhile m.caseIgnorable).head?.any m.cased

/-- `str::to_lowercase`, with the characters before the rest, last first: a capital sigma
is mapped by whether it ends a word. -/
def toLowercase : List Char → List Char → List Char
  | _, [] => []
  | before, c :: cs =>
    (if c = 'Σ' then
      [if m.caseIgnorableThenCased before && !m.caseIgnorableThenCased cs then 'ς' else 'σ']
    else m.lower c) ++ toLowercase (c :: before) cs

def stringFnApply (func : StringFn) (s : List Char) : List Char :=
  match func with
  | .upper => s.flatMap m.upper
  | .lower => m.toLowercase [] s

def stringFnEq (func : StringFn) (s literal : List Char) : Bool :=
  if byteLen s ≠ byteLen literal then m.stringFnApply func s == literal
  else (s.zip literal).all fun (a, b) => (m.mapping func a).head?.any (· == b)

def heads (func : StringFn) (s : List Char) : List Char :=
  s.map fun c => (m.mapping func c).head (m.mapping_ne_nil func c)

/-- The zipped comparison stops with the shorter text. -/
theorem zip_all_iff (func : StringFn) (s literal : List Char) :
    ((s.zip literal).all fun (a, b) => (m.mapping func a).head?.any (· == b)) = true ↔
      m.heads func s <+: literal ∨ literal <+: m.heads func s := by
  induction s generalizing literal with
  | nil => simp [heads]
  | cons c s ih =>
    cases literal with
    | nil => simp
    | cons d literal =>
      have hhead := List.head?_eq_some_head (m.mapping_ne_nil func c)
      simp only [List.zip_cons_cons, List.all_cons, hhead, Option.any_some, Bool.and_eq_true,
        beq_iff_eq, ih, heads, List.map_cons, List.cons_prefix_cons]
      rw [eq_comm (a := d), ← and_or_left]

/-! ## Texts without surprises -/

/-- Every character becomes one character of the same size, and no capital sigma is lowered. -/
def Simple (func : StringFn) (s : List Char) : Prop :=
  ∀ c ∈ s, (∃ d, m.mapping func c = [d] ∧ d.utf8Size = c.utf8Size) ∧ (func = .lower → c ≠ 'Σ')

theorem toLowercase_eq {s : List Char} (hs : ∀ c ∈ s, c ≠ 'Σ') (before : List Char) :
    m.toLowercase before s = s.flatMap m.lower := by
  induction s generalizing before with
  | nil => rfl
  | cons c s ih =>
    obtain ⟨hc, hs⟩ := List.forall_mem_cons.mp hs
    rw [toLowercase, if_neg hc, ih hs, List.flatMap_cons]

variable {m} {func : StringFn} {s : List Char} (hs : m.Simple func s)
include hs

theorem Simple.apply_eq_flatMap : m.stringFnApply func s = s.flatMap (m.mapping func) := by
  cases func with
  | upper => rfl
  | lower => exact m.toLowercase_eq (fun c hc => (hs c hc).2 rfl) []

theorem Simple.flatMap_eq_heads :
    s.flatMap (m.mapping func) = m.heads func s ∧ byteLen (m.heads func s) = byteLen s := by
  induction s with
  | nil => exact ⟨rfl, rfl⟩
  | cons c s ih =>
    obtain ⟨⟨⟨d, hd, hsize⟩, -⟩, hs⟩ := List.forall_mem_cons.mp hs
    obtain ⟨hmap, hlen⟩ := ih hs
    simp_all [heads, byteLen]

/-- Between texts of one size the zipped comparison finds the whole text. -/
theorem Simple.zip_all_iff {literal : List Char} (hlen : byteLen s = byteLen literal) :
    ((s.zip literal).all fun (a, b) => (m.mapping func a).head?.any (· == b)) = true ↔
      m.stringFnApply func s = literal := by
  obtain ⟨hmap, hheads⟩ := hs.flatMap_eq_heads
  have hsame : byteLen (m.heads func s) = byteLen literal := hheads.trans hlen
  rw [CaseMap.zip_all_iff, hs.apply_eq_flatMap, hmap]
  constructor
  · rintro (h | h)
    · exact eq_of_isPrefix h hsame
    · exact (eq_of_isPrefix h hsame.symm).symm
  · intro h
    exact .inl (h ▸ List.prefix_rfl)

theorem Simple.stringFnEq_iff (literal : List Char) :
    m.stringFnEq func s literal = true ↔ m.stringFnApply func s = literal := by
  rw [stringFnEq]
  split
  · exact beq_iff_eq
  · rename_i h
    exact hs.zip_all_iff (not_not.mp h)

end CaseMap

/-- Rust's mappings of the letters of ASCII, of the sharp s, which has two capitals, and of the
capital sigma. -/
def letters : CaseMap where
  upper c := if c = 'ß' then ['S', 'S'] else [c.toUpper]
  lower c := if c = 'Σ' then ['σ'] else [c.toLower]
  cased c := c.isAlpha
  caseIgnorable _ := false
  upper_ne_nil c := by split <;> exact List.cons_ne_nil _ _
  lower_ne_nil c := by split <;> exact List.cons_ne_nil _ _

theorem stringFnEq_iff_bid :
    letters.Simple .upper ['b', 'i', 'd'] ∧
      (letters.stringFnEq .upper ['b', 'i', 'd'] ['B', 'I', 'D'] = true ↔
        letters.stringFnApply .upper ['b', 'i', 'd'] = ['B', 'I', 'D']) :=
  have hs : letters.Simple .upper ['b', 'i', 'd'] := by
    simp [CaseMap.Simple, letters, CaseMap.mapping]
    decide
  ⟨hs, hs.stringFnEq_iff _⟩

end CqServer.CaseFold
