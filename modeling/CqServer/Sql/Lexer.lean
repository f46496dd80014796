import Mathlib.Data.List.Basic
import Mathlib.Data.Char

/-!
# SQL tokens

A lexer for the lexical rules that SQL dialects share: words, numbers, string
literals with doubled quotes, delimited identifiers, `--` comments and nested
`/* */` comments. It is a finite-state machine that reads one character at a time,
so that reading a concatenation is reading the parts one after the other
(`lexFrom_append`). What a text does to its surroundings is then a question about
the mode the machine is left in: a text that ends inside a literal or a comment
swallows what follows, any other is closed by the next separator
(`lexFrom_separator`).
-/

namespace Sql

/-- The character of string literals. -/
def apostrophe : Char := Char.ofNat 39

inductive Delimiter where
  | quotationMark | backtick
  deriving DecidableEq, Repr

def Delimiter.char : Delimiter → Char
  | .quotationMark => Char.ofNat 34
  | .backtick => Char.ofNat 96

inductive Keyword where
  | select | fromKw | whereKw | orderKw | byKw | ascKw | descKw | limitKw | offsetKw
  | andKw | orKw | notKw | isKw | nullKw | trueKw | falseKw | inKw | betweenKw | likeKw
  deriving DecidableEq, Repr

inductive CmpOp where
  | eq | ne | lt | le | gt | ge
  deriving DecidableEq, Repr

inductive Token where
  | kw (k : Keyword)
  | ident (name : List Char)
  | number (digits : List Char)
  | text (content : List Char)
  | cmp (op : CmpOp)
  | sym (c : Char)
  deriving DecidableEq, Repr

def keywords : List (List Char × Keyword) :=
  [("SELECT".toList, .select), ("FROM".toList, .fromKw), ("WHERE".toList, .whereKw),
    ("ORDER".toList, .orderKw), ("BY".toList, .byKw), ("ASC".toList, .ascKw),
    ("DESC".toList, .descKw), ("LIMIT".toList, .limitKw), ("OFFSET".toList, .offsetKw),
    ("AND".toList, .andKw), ("OR".toList, .orKw), ("NOT".toList, .notKw), ("IS".toList, .isKw),
    ("NULL".toList, .nullKw), ("TRUE".toList, .trueKw), ("FALSE".toList, .falseKw),
    ("IN".toList, .inKw), ("BETWEEN".toList, .betweenKw), ("LIKE".toList, .likeKw)]

/-- Keywords are recognised in any case. -/
def wordToken (word : List Char) : Token :=
  match keywords.lookup (word.map Char.toUpper) with
  | some k => .kw k
  | none => .ident word

inductive Mode where
  | blank
  | word (acc : List Char)
  | number (acc : List Char)
  /-- inside a literal -/
  | literal (acc : List Char)
  /-- behind a quote that ends the literal or starts a doubled quote -/
  | literalEnd (acc : List Char)
  | delimited (d : Delimiter) (acc : List Char)
  | delimitedEnd (d : Delimiter) (acc : List Char)
  /-- behind a character that may start a longer token or a comment -/
  | pending (c : Char)
  | lineComment
  | blockComment (depth : Nat) (last : Char)
  deriving DecidableEq, Repr

def isIdentStart (c : Char) : Bool := c.isAlpha || c = '_' || c = '@' || c = '#'
def isIdentPart (c : Char) : Bool := isIdentStart c || c.isDigit || c = '$'

def symToken (c : Char) : Token :=
  if c = '=' then .cmp .eq else if c = '<' then .cmp .lt else if c = '>' then .cmp .gt else .sym c

def start (c : Char) : List Token × Mode :=
  if c.isWhitespace then ([], .blank)
  else if isIdentStart c then ([], .word [c])
  else if c.isDigit then ([], .number [c])
  else if c = apostrophe then ([], .literal [])
  else if c = Delimiter.quotationMark.char then ([], .delimited .quotationMark [])
  else if c = Delimiter.backtick.char then ([], .delimited .backtick [])
  else if c = '-' ∨ c = '/' ∨ c = '<' ∨ c = '>' ∨ c = '!' then ([], .pending c)
  else ([symToken c], .blank)

def flush : Mode → List Token
  | .word acc => [wordToken acc]
  | .number acc => [.number acc]
  | .literalEnd acc => [.text acc]
  | .delimitedEnd _ acc => [.ident acc]
  | .pending c => [symToken c]
  | _ => []

/-- The mode ends here and the character starts something new. -/
def restart (m : Mode) (c : Char) : List Token × Mode := (flush m ++ (start c).1, (start c).2)

def step (m : Mode) (c : Char) : List Token × Mode :=
  match m with
  | .blank => start c
  | .word acc => if isIdentPart c then ([], .word (acc ++ [c])) else restart m c
  | .number acc => if c.isDigit ∨ c = '.' then ([], .number (acc ++ [c])) else restart m c
  | .literal acc => ([], if c = apostrophe then .literalEnd acc else .literal (acc ++ [c]))
  | .literalEnd acc => if c = apostrophe then ([], .literal (acc ++ [c])) else restart m c
  | .delimited d acc =>
    ([], if c = d.char then .delimitedEnd d acc else .delimited d (acc ++ [c]))
  | .delimitedEnd d acc => if c = d.char then ([], .delimited d (acc ++ [c])) else restart m c
  | .pending p =>
    if p = '-' ∧ c = '-' then ([], .lineComment)
    else if p = '/' ∧ c = '*' then ([], .blockComment 1 ' ')
    else if p = '<' ∧ c = '=' then ([.cmp .le], .blank)
    else if p = '<' ∧ c = '>' then ([.cmp .ne], .blank)
    else if p = '>' ∧ c = '=' then ([.cmp .ge], .blank)
    else if p = '!' ∧ c = '=' then ([.cmp .ne], .blank)
    else restart m c
  | .lineComment => ([], if c = '\n' then .blank else .lineComment)
  | .blockComment depth last =>
    if last = '*' ∧ c = '/' then
      ([], if depth ≤ 1 then .blank else .blockComment (depth - 1) ' ')
    else if last = '/' ∧ c = '*' then ([], .blockComment (depth + 1) ' ')
    else ([], .blockComment depth c)

/-- Read a text from a mode on: the tokens completed and the mode it ends in. -/
def lexFrom (m : Mode) : List Char → List Token × Mode
  | [] => ([], m)
  | c :: cs =>
    let next := step m c
    let rest := lexFrom next.2 cs
    (next.1 ++ rest.1, rest.2)

/-- Literals, delimited identifiers and block comments have to end in the text. -/
def Mode.unterminated : Mode → Bool
  | .literal _ | .delimited _ _ | .blockComment _ _ => true
  | _ => false

def tokenize (s : List Char) : Option (List Token) :=
  let out := lexFrom .blank s
  if out.2.unterminated then none else some (out.1 ++ flush out.2)

theorem lexFrom_append (m : Mode) (s t : List Char) : lexFrom m (s ++ t) =
      ((lexFrom m s).1 ++ (lexFrom (lexFrom m s).2 t).1, (lexFrom (lexFrom m s).2 t).2) := by
  induction s generalizing m with
  | nil => rfl
  | cons c s ih => simp only [List.cons_append, lexFrom, ih, List.append_assoc]

/-! ## Texts that do not swallow what follows -/

/-- The mode ends at the next separator. -/
def Mode.closed (m : Mode) : Bool := !m.unterminated && m ≠ .lineComment

def Closed (s : List Char) : Prop := (lexFrom .blank s).2.closed = true

instance (s : List Char) : Decidable (Closed s) := inferInstanceAs (Decidable (_ = true))

/-- Blanks and parentheses: they are part of no longer token. -/
def isSeparator (c : Char) : Bool := c = ' ' || c = '(' || c = ')'

theorem step_separator {m : Mode} (hm : m.closed = true) {c : Char} (hc : isSeparator c = true) :
    step m c = restart m c := by
  have hcases : c = ' ' ∨ c = '(' ∨ c = ')' := by
    simpa [isSeparator, or_assoc] using hc
  cases m with
  | blank => rfl
  | literal acc | delimited d acc | lineComment | blockComment depth last => cases hm
  | word acc =>
    have hpart : isIdentPart c = false := by
      rcases hcases with rfl | rfl | rfl <;> decide
    simp [step, hpart]
  | number acc =>
    have hdigit : ¬ (c.isDigit = true ∨ c = '.') := by
      rcases hcases with rfl | rfl | rfl <;> decide
    simp [step, if_neg hdigit]
  | literalEnd acc =>
    have hquote : c ≠ apostrophe := by
      rcases hcases with rfl | rfl | rfl <;> decide
    simp [step, hquote]
  | delimitedEnd d acc =>
    have hquote : c ≠ d.char := by
      rcases hcases with rfl | rfl | rfl <;> cases d <;> decide
    simp [step, hquote]
  | pending p =>
    rcases hcases with rfl | rfl | rfl <;> simp [step]

/-- A separator behind a closed text ends it and stands on its own. -/
theorem lexFrom_separator {s t : List Char} (hs : Closed s) {c : Char} (hc : isSeparator c = true) :
    lexFrom .blank (s ++ c :: t) =
      ((lexFrom .blank s).1 ++ flush (lexFrom .blank s).2 ++ (start c).1 ++ (lexFrom .blank t).1,
        (lexFrom .blank t).2) := by
  have hblank : (start c).2 = .blank := by
    have hcases : c = ' ' ∨ c = '(' ∨ c = ')' := by
      simpa [isSeparator, or_assoc] using hc
    rcases hcases with rfl | rfl | rfl <;> rfl
  rw [lexFrom_append, lexFrom, step_separator hs hc, restart, hblank]
  simp

def tokens (s : List Char) : List Token := (lexFrom .blank s).1 ++ flush (lexFrom .blank s).2

theorem tokenize_closed {s : List Char} (hs : Closed s) : tokenize s = some (tokens s) := by
  have hterm : (lexFrom .blank s).2.unterminated = false := by
    have h := hs
    simp only [Closed, Mode.closed, Bool.and_eq_true] at h
    simpa using h.1
  simp [tokenize, tokens, hterm]

theorem tokenize_separator {s t : List Char} (hs : Closed s) {c : Char}
    (hc : isSeparator c = true) :
    tokenize (s ++ c :: t) = (tokenize t).map fun ts => tokens s ++ (start c).1 ++ ts := by
  simp only [tokenize, lexFrom_separator hs hc, tokens]
  split
  · rfl
  · simp

end Sql
