import Mathlib.Data.List.Basic

/-!
# LIKE patterns

`like_to_regex` translates a LIKE pattern to a regular expression. Of the syntax the regex crate
documents, expressions `(?s)^…$` of literals, escaped metacharacters, dots and stars are read
here, and nothing else. The translation is always read, and matches what the pattern matches
(`likeToRegex_correct`).
-/

namespace CqServer.LikeRegex

open List

def regexNeedsEscape (c : Char) : Bool :=
  c ∈ ['.', '+', '*', '?', '(', ')', '[', ']', '\x7b', '\x7d', '\\', '^', '$', '|']

def literal (c : Char) : List Char := if regexNeedsEscape c then ['\\', c] else [c]

def translate : List Char → List Char
  | [] => []
  | c :: cs =>
    if c = '\\' then
      match cs with
      | [] => []
      | next :: rest => literal next ++ translate rest
    else if c = '%' then '.' :: '*' :: translate cs
    else if c = '_' then '.' :: translate cs
    else literal c ++ translate cs

def likeToRegex (pattern : String) : List Char :=
  "(?s)^".toList ++ translate pattern.toList ++ ['$']

/-- An atom is a character or, as `none`, the dot. -/
inductive Item where
  | star
  | one (a : Option Char)
  | many (a : Option Char)
  deriving DecidableEq

/-- An atom before what follows it, which may be a star. -/
def put (a : Option Char) : List Item → List Item
  | .star :: is => .many a :: is
  | is => .one a :: is

/-- The metacharacters of the regex crate, in the order of its documentation. -/
def metaCharacters : List Char :=
  ['\\', '.', '+', '*', '?', '(', ')', '|', '[', ']', '\x7b', '\x7d', '^', '$']

/-- Those of a bracketed class and of the flag `x`: literals elsewhere, and they may be escaped. -/
def classMetaCharacters : List Char := ['#', '&', '-', '~']

/-- The escapes of other characters (`\d`, `\b`) and what a bare metacharacter begins or ends
are refused. -/
def readItems : List Char → Option (List Item)
  | [] => some []
  | c :: cs =>
    if c = '\\' then
      match cs with
      | [] => none
      | d :: rest =>
        if d ∈ metaCharacters ++ classMetaCharacters then (readItems rest).map (put (some d))
        else none
    else if c = '.' then (readItems cs).map (put none)
    else if c = '*' then (readItems cs).map (.star :: ·)
    else if c ∈ metaCharacters then none
    else (readItems cs).map (put (some c))

/-- `Regex::new`: between the anchors, every star has its atom. -/
def readRegex (text : List Char) : Option (List Item) :=
  if text.take 5 = "(?s)^".toList ∧ text.getLast? = some '$' then
    (readItems (text.drop 5).dropLast).filter (.star ∉ ·)
  else none

/-- `is_match`; under the flag `s` the dot is any character. -/
def isMatch : List Item → List Char → Prop
  | [], s => s = []
  | .star :: _, _ => False
  | .one a :: is, s => ∃ c rest, s = c :: rest ∧ (∀ d ∈ a, c = d) ∧ isMatch is rest
  | .many a :: is, s => ∃ cs rest, s = cs ++ rest ∧ (∀ c ∈ cs, ∀ d ∈ a, c = d) ∧ isMatch is rest

/-! ## The translation -/

def Like : List Char → List Char → Prop
  | [], s => s = []
  | c :: p, s =>
    if c = '\\' then
      match p with
      | [] => s = []
      | d :: p => ∃ rest, s = d :: rest ∧ Like p rest
    else if c = '%' then ∃ skipped rest, s = skipped ++ rest ∧ Like p rest
    else if c = '_' then ∃ d rest, s = d :: rest ∧ Like p rest
    else ∃ rest, s = c :: rest ∧ Like p rest

/-- The text is read, and matches where the pattern does. -/
def Reads (text p : List Char) : Prop :=
  ∃ items, readItems text = some items ∧ .star ∉ items ∧ ∀ s, isMatch items s ↔ Like p s

variable {text p q : List Char}

theorem Reads.one (h : Reads text p) {a : Option Char} {text' : List Char}
    (hread : readItems text' = (readItems text).map (put a))
    (hq : ∀ s, Like q s ↔ ∃ c rest, s = c :: rest ∧ (∀ d ∈ a, c = d) ∧ Like p rest) :
    Reads text' q := by
  obtain ⟨items, hitems, hstar, hmatch⟩ := h
  refine ⟨.one a :: items, ?_, by simpa using hstar, fun s => by simp [isMatch, hmatch, hq]⟩
  rw [hread, hitems]
  cases items with
  | nil => rfl
  | cons i is =>
    cases i with
    | star => simp at hstar
    | one | many => rfl

theorem regexNeedsEscape_iff (c : Char) : regexNeedsEscape c = true ↔ c ∈ metaCharacters := by
  have hperm : ['.', '+', '*', '?', '(', ')', '[', ']', '\x7b', '\x7d', '\\', '^', '$', '|'].Perm
      metaCharacters := by decide
  rw [regexNeedsEscape, decide_eq_true_eq]
  exact hperm.mem_iff

theorem readItems_literal (c : Char) :
    readItems (literal c ++ text) = (readItems text).map (put (some c)) := by
  unfold literal
  split
  · rename_i hc
    simp [readItems, (regexNeedsEscape_iff c).mp hc]
  · rename_i hc
    have hplain : c ≠ '\\' ∧ c ≠ '.' ∧ c ≠ '*' := by
      refine ⟨?_, ?_, ?_⟩ <;> rintro rfl <;> exact hc (by decide)
    obtain ⟨hback, hdot, hstar⟩ := hplain
    rw [regexNeedsEscape_iff] at hc
    rw [readItems.eq_def]
    simp [hc, hback, hdot, hstar]

theorem readItems_dot : readItems ('.' :: text) = (readItems text).map (put none) := by
  rw [readItems.eq_def]
  simp

theorem reads_translate (p : List Char) : Reads (translate p) p := by
  induction p using translate.induct with
  | case1 | case2 => exact ⟨[], rfl, nofun, fun s => by simp [isMatch, Like]⟩
  | case3 next rest ih =>
    exact ih.one (readItems_literal next) fun s => by simp [Like]
  | case4 cs _ ih =>
    have htext : translate ('%' :: cs) = '.' :: '*' :: translate cs := by
      rw [translate.eq_def]
      simp
    obtain ⟨items, hitems, hstar, hmatch⟩ := ih
    refine ⟨.many none :: items, ?_, by simpa using hstar, fun s => ?_⟩
    · rw [htext, readItems_dot, readItems.eq_def]
      simp [hitems, put]
    · rw [Like.eq_def]
      simp [isMatch, hmatch]
  | case5 cs _ _ ih =>
    have htext : translate ('_' :: cs) = '.' :: translate cs := by
      rw [translate.eq_def]
      simp
    rw [htext]
    refine ih.one readItems_dot fun s => ?_
    rw [Like.eq_def]
    simp
  | case6 c cs hback hany hone ih =>
    rw [translate.eq_def]
    simp only [hback, hany, hone, if_false]
    refine ih.one (readItems_literal c) fun s => ?_
    rw [Like.eq_def]
    simp [hback, hany, hone]

/-- **LIKE.** The translation of every pattern is a regular expression, and matches a subject if
and only if the pattern does. -/
theorem likeToRegex_correct (pattern : String) :
    ∃ items, readRegex (likeToRegex pattern) = some items ∧
      ∀ subject : String, isMatch items subject.toList ↔ Like pattern.toList subject.toList := by
  obtain ⟨items, hitems, hstar, hmatch⟩ := reads_translate pattern.toList
  refine ⟨items, ?_, fun _ => hmatch _⟩
  have hhead : likeToRegex pattern = "(?s)^".toList ++ (translate pattern.toList ++ ['$']) :=
    append_assoc ..
  have hlen : "(?s)^".toList.length = 5 := by decide
  have htake : (likeToRegex pattern).take 5 = "(?s)^".toList := by rw [hhead, take_left' hlen]
  have hdrop : ((likeToRegex pattern).drop 5).dropLast = translate pattern.toList := by
    rw [hhead, drop_left' hlen, dropLast_concat]
  rw [readRegex, if_pos ⟨htake, getLast?_concat⟩, hdrop, hitems]
  simp [hstar]

end CqServer.LikeRegex
