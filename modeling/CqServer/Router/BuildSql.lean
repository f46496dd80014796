import CqServer.Sql.Compile

/-!
# From a message to a statement

`build_sql`: the router has no statement of its own for the clients that send a
filter and an options string; it writes one as text, with the client's strings
in it. A message with a statement of its own keeps it, apart from the table name.

What the written text says is decided by its tokens. `tokenize_statement` reads
them off for a select list and a condition that are closed texts, whatever stands
behind the condition.
-/

namespace CqServer

abbrev Text := List Char

/-- The fields of `CqMessage` that say what a client asks for. -/
structure CqMessage where
  topic : Option Text := none
  sql : Option Text := none
  filter : Option Text := none
  options : Option Text := none
  bookmark : Option Nat := none
  deriving DecidableEq, Repr

/-- `char::is_whitespace`: the code points with the property `White_Space`. -/
def isSpace (c : Char) : Bool :=
  (9 ≤ c.toNat && c.toNat ≤ 13) || c.toNat = 32 || c.toNat = 0x85 || c.toNat = 0xA0 ||
    c.toNat = 0x1680 || (0x2000 ≤ c.toNat && c.toNat ≤ 0x200A) || c.toNat = 0x2028 ||
    c.toNat = 0x2029 || c.toNat = 0x202F || c.toNat = 0x205F || c.toNat = 0x3000

/-- `trim_end_matches`. -/
def trimEnd (p : Char → Bool) (s : Text) : Text := (s.reverse.dropWhile p).reverse

def trim (s : Text) : Text := trimEnd isSpace (s.dropWhile isSpace)

/-- One part of the options: its value, if it is the option `key`. -/
def optionValue (key part : Text) : Option Text :=
  match (trim part).span (· ≠ '=') with
  | (k, _ :: v) => if k = key then some (trimEnd (· = ']') (v.dropWhile (· = '['))) else none
  | (_, []) => none

def parseOption (options key : Text) : Option Text :=
  (options.splitOn ',').findSome? (optionValue key)

/-! ## The table name of a client's own statement -/

def isAsciiSpace (c : Char) : Bool := c = ' ' || c = '\t' || c = '\n' || c = '\x0c' || c = '\r'

def atBoundary : Text → Bool
  | [] => true
  | c :: _ => isAsciiSpace c

/-- `find_keyword`, from position `i` on, behind the character `last`. -/
def findKeyword (kw : Text) : Nat → Option Char → Text → Option Nat
  | _, _, [] => none
  | i, last, c :: cs =>
    if kw.isPrefixOf (c :: cs) ∧ last.all isAsciiSpace ∧
        atBoundary ((c :: cs).drop kw.length) then some i
    else findKeyword kw (i + 1) (some c) cs

/-- The scan of `find_clause_kw` and `find_pivot_kw`: the first position outside parentheses,
behind a blank, that is accepted. -/
def findOutside (accept : Text → Bool) : Nat → Int → Char → Text → Option Nat
  | _, _, _, [] => none
  | i, depth, last, c :: cs =>
    if c = '(' then findOutside accept (i + 1) (depth + 1) c cs
    else if c = ')' then findOutside accept (i + 1) (depth - 1) c cs
    else if depth = 0 ∧ isAsciiSpace last ∧ accept (c :: cs) then some i
    else findOutside accept (i + 1) depth c cs

/-- The words of a clause, with blanks between them. -/
def startsWithWords : List Text → Text → Bool
  | [], s => atBoundary s
  | word :: words, s =>
    match s with
    | c :: _ =>
      let rest := s.dropWhile isAsciiSpace
      isAsciiSpace c && word.isPrefixOf rest && startsWithWords words (rest.drop word.length)
    | [] => false

def startsWithClause (words : List Text) (s : Text) : Bool :=
  match words with
  | [] => false
  | first :: rest => first.isPrefixOf s && startsWithWords rest (s.drop first.length)

def startsWithPivot (word s : Text) : Bool :=
  let rest := s.drop word.length
  word.isPrefixOf s && !rest.isEmpty && atBoundary rest &&
    "(".toList.isPrefixOf (rest.dropWhile isAsciiSpace)

/-- What may follow the table. -/
def clauseKws : List (List Text) :=
  [["WHERE"], ["GROUP", "BY"], ["ORDER", "BY"], ["LIMIT"], ["HAVING"], ["JOIN"], ["INNER", "JOIN"],
    ["LEFT", "JOIN"], ["RIGHT", "JOIN"], ["FULL", "JOIN"], ["CROSS", "JOIN"]].map
      (List.map String.toList)

def rewriteFromToT (sql : Text) : Text :=
  let upper := sql.map Char.toUpper
  match findKeyword "FROM".toList 0 none upper with
  | none => sql
  | some pos =>
    let after := pos + 4
    let tests := clauseKws.map startsWithClause ++
      ["PIVOT", "UNPIVOT"].map fun word => startsWithPivot word.toList
    let ends := tests.filterMap fun accept => findOutside accept after 0 'M' (upper.drop after)
    let stop := ends.foldl min sql.length
    let table := trimEnd isAsciiSpace ((sql.take stop).drop after)
    let rest := sql.drop (after + table.length)
    sql.take after ++ " t".toList ++ if rest.isEmpty then [] else ' ' :: rest

/-- A clause with a text of the client's, if there is one. -/
def optionalClause (lead : String) : Option Text → Text
  | some s => lead.toList ++ s
  | none => []

def CqMessage.option (msg : CqMessage) (key : String) : Option Text :=
  parseOption (msg.options.getD []) key.toList

/-- What `build_sql` writes behind the condition. -/
def CqMessage.clauses (msg : CqMessage) : Text :=
  optionalClause " ORDER BY " (msg.option "order_by") ++ optionalClause " LIMIT " (msg.option "top_n")

def buildSql (msg : CqMessage) : Text :=
  match msg.sql with
  | some raw => rewriteFromToT raw
  | none =>
    let filter := msg.filter.getD []
    let select := (msg.option "select").getD "*".toList
    "SELECT ".toList ++ select ++ " FROM t".toList ++
      (if filter.isEmpty then [] else " WHERE ".toList ++ filter) ++ msg.clauses

example : buildSql { filter := some "bid > 1".toList, options := some "top_n=5, select=[sym".toList } =
    "SELECT sym FROM t WHERE bid > 1 LIMIT 5".toList := by decide +kernel

/-! ## The tokens of the statement -/

section Tokens
open Sql

/-- What stands behind a condition: nothing, or clauses behind a blank that no expression
goes on with. -/
def Trails (tail : Text) : Prop :=
  tail = [] ∨ ∃ rest, tail = ' ' :: rest ∧ ∀ us, tokenize rest = some us → Stops us

theorem tokenize_blank (s : Text) : tokenize (' ' :: s) = tokenize s := by
  have hsep := tokenize_separator (s := []) (t := s) (by decide) (c := ' ') rfl
  simpa [start, tokens, lexFrom, flush] using hsep

theorem tokenize_open (s : Text) : tokenize ('(' :: s) = (tokenize s).map (.sym '(' :: ·) := by
  have hsep := tokenize_separator (s := []) (t := s) (by decide) (c := '(') rfl
  simpa [tokens, lexFrom, flush, show (start '(').1 = [.sym '('] from rfl] using hsep

theorem tokenize_close {s : Text} (hs : Closed s) (t : Text) :
    tokenize (s ++ ')' :: t) = (tokenize t).map fun us => tokens s ++ .sym ')' :: us := by
  have hsep := tokenize_separator (t := t) hs (c := ')') rfl
  simpa [show (start ')').1 = [.sym ')'] from rfl] using hsep

theorem tokenize_word {s : Text} (hs : Closed s) (t : Text) :
    tokenize (s ++ ' ' :: t) = (tokenize t).map fun us => tokens s ++ us := by
  have hsep := tokenize_separator (t := t) hs (c := ' ') rfl
  simpa [show (start ' ').1 = [] from rfl] using hsep

theorem Trails.stops {tail : Text} (h : Trails tail) {us : List Token}
    (hus : tokenize tail = some us) : Stops us := by
  rcases h with rfl | ⟨rest, rfl, hrest⟩
  · cases hus
    intro t ht
    cases ht
  · exact hrest us hus

theorem Trails.tokenize_append {s tail : Text} (hs : Closed s) (h : Trails tail)
    {ts : List Token} (hts : tokenize (s ++ tail) = some ts) :
    ∃ us, tokenize tail = some us ∧ ts = tokens s ++ us := by
  rcases h with rfl | ⟨rest, rfl, hrest⟩
  · rw [List.append_nil, tokenize_closed hs] at hts
    exact ⟨[], rfl, by simpa using hts.symm⟩
  · rw [tokenize_word hs] at hts
    obtain ⟨us, hus, rfl⟩ := Option.map_eq_some_iff.mp hts
    exact ⟨us, by rw [tokenize_blank, hus], rfl⟩

theorem CqMessage.trails_clauses (msg : CqMessage) : Trails msg.clauses := by
  unfold clauses
  cases msg.option "order_by" with
  | some keys =>
    refine .inr ⟨"ORDER".toList ++ ' ' :: ("BY ".toList ++ keys ++
      optionalClause " LIMIT " (msg.option "top_n")), by simp [optionalClause], ?_⟩
    intro us hus
    rw [tokenize_word (by decide)] at hus
    obtain ⟨ts, -, rfl⟩ := Option.map_eq_some_iff.mp hus
    exact stops_cons rfl ts
  | none =>
    cases msg.option "top_n" with
    | some n =>
      refine .inr ⟨"LIMIT".toList ++ ' ' :: n, by simp [optionalClause], ?_⟩
      intro us hus
      rw [tokenize_word (by decide)] at hus
      obtain ⟨ts, -, rfl⟩ := Option.map_eq_some_iff.mp hus
      exact stops_cons rfl ts
    | none => exact .inl rfl

theorem tokenize_statement {list cond : Text} (hlist : Closed list) {ts : List Token}
    (h : tokenize ("SELECT ".toList ++ list ++ " FROM t".toList ++ (" WHERE ".toList ++ cond)) =
      some ts) :
    ∃ us, tokenize cond = some us ∧ ts = selectWhere (tokens list) ['t'] us := by
  have htext : "SELECT ".toList ++ list ++ " FROM t".toList ++ (" WHERE ".toList ++ cond) =
      "SELECT".toList ++ ' ' :: (list ++ ' ' :: ("FROM".toList ++ ' ' :: ("t".toList ++ ' ' ::
        ("WHERE".toList ++ ' ' :: cond)))) := by
    simp
  have hselect : tokens "SELECT".toList = [.kw .select] := by decide
  have hfrom : tokens "FROM".toList = [.kw .fromKw] := by decide
  have htable : tokens "t".toList = [.ident ['t']] := by decide
  have hwhere : tokens "WHERE".toList = [.kw .whereKw] := by decide
  rw [htext, tokenize_word (by decide), tokenize_word hlist, tokenize_word (by decide),
    tokenize_word (by decide), tokenize_word (by decide), hselect, hfrom, htable, hwhere] at h
  simp only [Option.map_map] at h
  obtain ⟨us, hus, rfl⟩ := Option.map_eq_some_iff.mp h
  exact ⟨us, hus, by simp [selectWhere]⟩

end Tokens

end CqServer
