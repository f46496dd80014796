import CqServer.Sql.Lexer

/-!
# SQL expressions

An operator-precedence parser for SQL expressions with the usual precedence table:
`OR` below `AND` below `NOT` below `IS`, `LIKE`, comparisons, `IN` and `BETWEEN`
below arithmetic. `parseSubexpr prec` reads a primary expression and then as many
operators as bind tighter than `prec`.

The result that matters for spliced texts is `parseExpr_extend`: an expression that is
complete on its own stays the same expression in front of a token that cannot
continue one. It gives `parseExpr_conj`, the reading of `(a) AND (b)`.
-/

namespace Sql

open Option

inductive Expr where
  | ident (path : List (List Char))
  | number (digits : List Char)
  | text (content : List Char)
  | null
  | bool (b : Bool)
  | neg (e : Expr)
  | not (e : Expr)
  | and (l r : Expr)
  | or (l r : Expr)
  | cmp (op : CmpOp) (l r : Expr)
  | arith (op : Char) (l r : Expr)
  | isNull (negated : Bool) (e : Expr)
  | isBool (negated want : Bool) (e : Expr)
  | inList (negated : Bool) (e : Expr) (list : List Expr)
  | between (negated : Bool) (e low high : Expr)
  | like (negated : Bool) (e pattern : Expr)
  | call (name : List Char) (args : List Expr)
  | nested (e : Expr)
  deriving Repr

def precOr : Nat := 5
def precAnd : Nat := 10
def precNot : Nat := 15
def precIs : Nat := 17
def precLike : Nat := 19
def precCmp : Nat := 20
def precAdd : Nat := 30
def precMul : Nat := 40

/-- The precedence of the operator the tokens start with; zero if they start with none. -/
def precedence : List Token → Nat
  | .kw .orKw :: _ => precOr
  | .kw .andKw :: _ => precAnd
  | .kw .isKw :: _ => precIs
  | .kw .likeKw :: _ => precLike
  | .kw .inKw :: _ => precCmp
  | .kw .betweenKw :: _ => precCmp
  | .kw .notKw :: .kw .likeKw :: _ => precLike
  | .kw .notKw :: .kw .inKw :: _ => precCmp
  | .kw .notKw :: .kw .betweenKw :: _ => precCmp
  | .cmp _ :: _ => precCmp
  | .sym c :: _ =>
    if c = '+' ∨ c = '-' then precAdd else if c = '*' ∨ c = '/' ∨ c = '%' then precMul else 0
  | _ => 0

def takeNot : List Token → Bool × List Token
  | .kw .notKw :: rest => (true, rest)
  | ts => (false, ts)

def parsePath (path : List (List Char)) : List Token → List (List Char) × List Token
  | .sym c :: .ident name :: rest =>
    if c = '.' then parsePath (path ++ [name]) rest else (path, .sym c :: .ident name :: rest)
  | ts => (path, ts)

def expectSym (c : Char) : List Token → Option (List Token)
  | .sym d :: rest => if d = c then some rest else none
  | _ => none

def expectKw (k : Keyword) : List Token → Option (List Token)
  | .kw l :: rest => if l = k then some rest else none
  | _ => none

def parseIs (e : Expr) (negated : Bool) : List Token → Option (Expr × List Token)
  | .kw .nullKw :: rest => some (.isNull negated e, rest)
  | .kw .trueKw :: rest => some (.isBool negated true e, rest)
  | .kw .falseKw :: rest => some (.isBool negated false e, rest)
  | _ => none

/-! ## The parser -/

mutual

def parsePrimary : Nat → List Token → Option (Expr × List Token)
  | 0, _ => none
  | fuel + 1, .kw .notKw :: rest => do
    let (e, rest) ← parseSubexpr fuel precNot rest
    some (.not e, rest)
  | _ + 1, .kw .nullKw :: rest => some (.null, rest)
  | _ + 1, .kw .trueKw :: rest => some (.bool true, rest)
  | _ + 1, .kw .falseKw :: rest => some (.bool false, rest)
  | _ + 1, .number digits :: rest => some (.number digits, rest)
  | _ + 1, .text content :: rest => some (.text content, rest)
  | fuel + 1, .sym c :: rest =>
    if c = '(' then do
      let (e, rest) ← parseSubexpr fuel 0 rest
      let rest ← expectSym ')' rest
      some (.nested e, rest)
    else if c = '-' then do
      let (e, rest) ← parseSubexpr fuel precMul rest
      some (.neg e, rest)
    else none
  | fuel + 1, .ident name :: rest =>
    match expectSym '(' rest with
    | some rest => do
      let (args, rest) ← parseList fuel rest
      some (.call name args, rest)
    | none =>
      let out := parsePath [name] rest
      some (.ident out.1, out.2)
  | _ + 1, _ => none

/-- A primary expression and the operators that bind tighter than `prec`. -/
def parseSubexpr : Nat → Nat → List Token → Option (Expr × List Token)
  | 0, _, _ => none
  | fuel + 1, prec, ts => do
    let (e, rest) ← parsePrimary fuel ts
    parseOperators fuel prec e rest

def parseOperators : Nat → Nat → Expr → List Token → Option (Expr × List Token)
  | 0, _, _, _ => none
  | fuel + 1, prec, e, ts =>
    if precedence ts ≤ prec then some (e, ts)
    else do
      let (e, rest) ← parseOperator fuel e ts
      parseOperators fuel prec e rest

/-- One operator behind `e`, with its right operand. -/
def parseOperator : Nat → Expr → List Token → Option (Expr × List Token)
  | 0, _, _ => none
  | fuel + 1, e, .kw .orKw :: rest => do
    let (r, rest) ← parseSubexpr fuel precOr rest
    some (.or e r, rest)
  | fuel + 1, e, .kw .andKw :: rest => do
    let (r, rest) ← parseSubexpr fuel precAnd rest
    some (.and e r, rest)
  | fuel + 1, e, .cmp op :: rest => do
    let (r, rest) ← parseSubexpr fuel precCmp rest
    some (.cmp op e r, rest)
  | fuel + 1, e, .sym c :: rest => do
    let (r, rest) ← parseSubexpr fuel (if c = '+' ∨ c = '-' then precAdd else precMul) rest
    some (.arith c e r, rest)
  | _ + 1, e, .kw .isKw :: rest => parseIs e (takeNot rest).1 (takeNot rest).2
  | fuel + 1, e, ts => parseTest fuel e (takeNot ts).1 (takeNot ts).2

/-- The operators that may have a `NOT` in front. -/
def parseTest : Nat → Expr → Bool → List Token → Option (Expr × List Token)
  | 0, _, _, _ => none
  | fuel + 1, e, negated, .kw .inKw :: rest => do
    let rest ← expectSym '(' rest
    let (list, rest) ← parseList fuel rest
    some (.inList negated e list, rest)
  | fuel + 1, e, negated, .kw .betweenKw :: rest => do
    let (low, rest) ← parseSubexpr fuel precCmp rest
    let rest ← expectKw .andKw rest
    let (high, rest) ← parseSubexpr fuel precCmp rest
    some (.between negated e low high, rest)
  | fuel + 1, e, negated, .kw .likeKw :: rest => do
    let (pattern, rest) ← parseSubexpr fuel precLike rest
    some (.like negated e pattern, rest)
  | _ + 1, _, _, _ => none

def parseList : Nat → List Token → Option (List Expr × List Token)
  | 0, _ => none
  | fuel + 1, ts => do
    let (e, rest) ← parseSubexpr fuel 0 ts
    match expectSym ',' rest with
    | some rest => do
      let (es, rest) ← parseList fuel rest
      some (e :: es, rest)
    | none => do
      let rest ← expectSym ')' rest
      some ([e], rest)

end

/-- No more than four calls are nested for each token that is read. -/
def fuelFor (ts : List Token) : Nat := 4 * ts.length + 4

def parseExpr (ts : List Token) : Option (Expr × List Token) := parseSubexpr (fuelFor ts) 0 ts

def parseFragment (s : List Char) : Option Expr := do
  let ts ← tokenize s
  let (e, rest) ← parseExpr ts
  if rest = [] then some e else none

/-! ## Behind an expression -/

def isStop : Token → Bool
  | .sym c => c = ')' || c = ',' || c = ';'
  | .kw .fromKw | .kw .orderKw | .kw .limitKw | .kw .offsetKw => true
  | _ => false

def Stops (us : List Token) : Prop := ∀ t ∈ us.head?, isStop t = true

variable {us : List Token}

theorem stops_cons {t : Token} (h : isStop t = true) (rest : List Token) : Stops (t :: rest) := by
  intro t' ht
  cases ht
  exact h

/-- What holds at the end and at each stop. -/
@[elab_as_elim]
theorem Stops.elim {P : List Token → Prop} (h : Stops us)
    (hP : ∀ rest, P [] ∧ (P (.sym ')' :: rest) ∧ P (.sym ',' :: rest) ∧ P (.sym ';' :: rest)) ∧
      P (.kw .fromKw :: rest) ∧ P (.kw .orderKw :: rest) ∧ P (.kw .limitKw :: rest) ∧
      P (.kw .offsetKw :: rest)) : P us := by
  cases us with
  | nil => exact (hP []).1
  | cons t rest =>
    obtain ⟨-, ⟨hclose, hcomma, hsemi⟩, hfrom, horder, hlimit, hoffset⟩ := hP rest
    have ht := h t rfl
    cases t with
    | sym c =>
      unfold isStop at ht
      simp only [Bool.or_eq_true, decide_eq_true_eq] at ht
      rcases ht with (rfl | rfl) | rfl
      · exact hclose
      · exact hcomma
      · exact hsemi
    | kw k => cases k <;> first | assumption | cases ht
    | _ => cases ht

theorem precedence_stop (h : Stops us) : precedence us = 0 :=
  h.elim fun _ => ⟨rfl, ⟨rfl, rfl, rfl⟩, rfl, rfl, rfl, rfl⟩

theorem takeNot_append (ts : List Token) (h : Stops us) :
    takeNot (ts ++ us) = ((takeNot ts).1, (takeNot ts).2 ++ us) := by
  cases ts with
  | nil => exact h.elim fun _ => ⟨rfl, ⟨rfl, rfl, rfl⟩, rfl, rfl, rfl, rfl⟩
  | cons t ts =>
    cases t with
    | kw k => cases k <;> rfl
    | _ => rfl

/-- Whether the tokens start with an operator is decided in front of the stop. -/
theorem precedence_append (ts : List Token) (h : Stops us) :
    precedence (ts ++ us) = precedence ts := by
  cases ts with
  | nil => exact precedence_stop h
  | cons t ts =>
    cases t with
    | kw k =>
      cases k with
      | notKw =>
        -- the one operator of two tokens
        cases ts with
        | nil => exact h.elim fun _ => ⟨rfl, ⟨rfl, rfl, rfl⟩, rfl, rfl, rfl, rfl⟩
        | cons t ts =>
          cases t with
          | kw k => cases k <;> rfl
          | _ => rfl
      | _ => rfl
    | _ => rfl

theorem parsePath_stop (path : List (List Char)) (h : Stops us) :
    parsePath path us = (path, us) := by
  refine h.elim fun rest => ⟨rfl, ?_, rfl, rfl, rfl, rfl⟩
  rcases rest with _ | ⟨_ | _ | _ | _ | _, rest⟩ <;> exact ⟨rfl, rfl, rfl⟩

theorem parsePath_append (path : List (List Char)) (ts : List Token) (h : Stops us) :
    parsePath path (ts ++ us) = ((parsePath path ts).1, (parsePath path ts).2 ++ us) := by
  fun_induction parsePath path ts with
  | case1 path name rest ih => simpa [parsePath] using ih
  | case2 path c name rest hc => simp [parsePath, hc]
  | case3 path ts hts =>
    match ts, hts with
    | [], _ => exact parsePath_stop path h
    | [.sym c], _ =>
      -- a stop is no identifier, so the path ends in front of the symbol
      exact h.elim fun _ => ⟨rfl, ⟨rfl, rfl, rfl⟩, rfl, rfl, rfl, rfl⟩
    | .sym c :: .ident name :: rest, hts => exact absurd rfl (hts c name rest)
    | .sym c :: .kw _ :: _, _ | .sym c :: .number _ :: _, _ | .sym c :: .text _ :: _, _
    | .sym c :: .cmp _ :: _, _ | .sym c :: .sym _ :: _, _ => rfl
    | .kw _ :: _, _ | .ident _ :: _, _ | .number _ :: _, _ | .text _ :: _, _
    | .cmp _ :: _, _ => rfl

variable {rest ts : List Token}

theorem expectSym_append {c : Char} (h : expectSym c ts = some rest) :
    expectSym c (ts ++ us) = some (rest ++ us) := by
  unfold expectSym at h
  split at h
  · split at h
    · cases h
      simp [expectSym, *]
    · cases h
  · cases h

theorem expectKw_append {k : Keyword} (h : expectKw k ts = some rest) :
    expectKw k (ts ++ us) = some (rest ++ us) := by
  unfold expectKw at h
  split at h
  · split at h
    · cases h
      simp [expectKw, *]
    · cases h
  · cases h

theorem expectSym_append_none {c : Char} (hne : ts ≠ []) (h : expectSym c ts = none) :
    expectSym c (ts ++ us) = none := by
  cases ts with
  | nil => exact absurd rfl hne
  | cons t ts =>
    cases t with
    | sym c => simpa [expectSym] using h
    | _ => rfl

theorem expectSym_open_append {ts us : List Token} (hus : Stops us)
    (h : expectSym '(' ts = none) : expectSym '(' (ts ++ us) = none := by
  cases ts with
  | nil => exact hus.elim fun _ => ⟨rfl, ⟨rfl, rfl, rfl⟩, rfl, rfl, rfl, rfl⟩
  | cons t ts => exact expectSym_append_none (List.cons_ne_nil t ts) h

/-- What a result within `fuel` says about more fuel and more tokens behind a stop. -/
structure Extends (fuel : Nat) : Prop where
  primary : ∀ {fuel' ts us e rest}, fuel ≤ fuel' → Stops us →
    parsePrimary fuel ts = some (e, rest) → parsePrimary fuel' (ts ++ us) = some (e, rest ++ us)
  subexpr : ∀ {fuel' prec ts us e rest}, fuel ≤ fuel' → Stops us →
    parseSubexpr fuel prec ts = some (e, rest) →
      parseSubexpr fuel' prec (ts ++ us) = some (e, rest ++ us)
  operators : ∀ {fuel' prec l ts us e rest}, fuel ≤ fuel' → Stops us →
    parseOperators fuel prec l ts = some (e, rest) →
      parseOperators fuel' prec l (ts ++ us) = some (e, rest ++ us)
  operator : ∀ {fuel' l ts us e rest}, fuel ≤ fuel' → Stops us →
    parseOperator fuel l ts = some (e, rest) →
      parseOperator fuel' l (ts ++ us) = some (e, rest ++ us)
  test : ∀ {fuel' l negated ts us e rest}, fuel ≤ fuel' → Stops us →
    parseTest fuel l negated ts = some (e, rest) →
      parseTest fuel' l negated (ts ++ us) = some (e, rest ++ us)
  list : ∀ {fuel' ts us es rest}, fuel ≤ fuel' → Stops us →
    parseList fuel ts = some (es, rest) → parseList fuel' (ts ++ us) = some (es, rest ++ us)

section Step
variable {fuel k : Nat} {us : List Token}

theorem bind_some {α β : Type} {x : Option α} {f : α → Option β} {b : β}
    (h : (x >>= f) = some b) : ∃ a, x = some a ∧ f a = some b :=
  bind_eq_some_iff.mp h

variable {e l : Expr} {rest ts : List Token} {prec : Nat} {negated : Bool}

theorem parseIs_append {ts rest us : List Token} (h : parseIs l negated ts = some (e, rest)) :
    parseIs l negated (ts ++ us) = some (e, rest ++ us) := by
  cases ts with
  | nil => cases h
  | cons t ts =>
    cases t with
    | kw kw =>
      cases kw with
      | nullKw | trueKw | falseKw => cases h; rfl
      | _ => cases h
    | _ => cases h

variable (ih : Extends fuel) (hk : fuel ≤ k) (hus : Stops us)
include ih hk hus

theorem Extends.primary_succ (h : parsePrimary (fuel + 1) ts = some (e, rest)) :
    parsePrimary (k + 1) (ts ++ us) = some (e, rest ++ us) := by
  cases ts with
  | nil => cases h
  | cons t ts =>
    cases t with
    | kw kw =>
      cases kw with
      | notKw =>
        obtain ⟨⟨e₁, rest₁⟩, h₁, h₂⟩ := bind_some h
        cases h₂
        simp [parsePrimary, ih.subexpr hk hus h₁]
      | nullKw | trueKw | falseKw =>
        cases h
        rfl
      | _ => cases h
    | number digits | text content =>
      cases h
      rfl
    | cmp op => cases h
    | sym c =>
      simp only [parsePrimary] at h
      split at h
      · rename_i hopen
        obtain ⟨⟨e₁, rest₁⟩, h₁, h₂⟩ := bind_some h
        obtain ⟨rest₂, hclose, h₃⟩ := bind_some h₂
        cases h₃
        simp [parsePrimary, hopen, ih.subexpr hk hus h₁, expectSym_append hclose]
      · split at h
        · rename_i hminus
          obtain ⟨⟨e₁, rest₁⟩, h₁, h₂⟩ := bind_some h
          cases h₂
          simp [parsePrimary, hminus, ih.subexpr hk hus h₁]
        · cases h
    | ident name =>
      simp only [parsePrimary] at h
      cases hopen : expectSym '(' ts with
      | some rest₁ =>
        rw [hopen] at h
        obtain ⟨⟨args, rest₂⟩, h₁, h₂⟩ := bind_some h
        cases h₂
        simp [parsePrimary, expectSym_append hopen, ih.list hk hus h₁]
      | none =>
        rw [hopen] at h
        cases h
        simp [parsePrimary, expectSym_open_append hus hopen, parsePath_append _ _ hus]

theorem Extends.subexpr_succ (h : parseSubexpr (fuel + 1) prec ts = some (e, rest)) :
    parseSubexpr (k + 1) prec (ts ++ us) = some (e, rest ++ us) := by
  obtain ⟨⟨e₁, rest₁⟩, h₁, h₂⟩ := bind_some h
  simp [parseSubexpr, ih.primary hk hus h₁, ih.operators hk hus h₂]

theorem Extends.operators_succ (h : parseOperators (fuel + 1) prec l ts = some (e, rest)) :
    parseOperators (k + 1) prec l (ts ++ us) = some (e, rest ++ us) := by
  simp only [parseOperators, precedence_append ts hus] at h ⊢
  split at h
  · rename_i hprec
    cases h
    rw [if_pos hprec]
  · rename_i hprec
    obtain ⟨⟨e₁, rest₁⟩, h₁, h₂⟩ := bind_some h
    simp [hprec, ih.operator hk hus h₁, ih.operators hk hus h₂]

theorem Extends.list_succ {es : List Expr} (h : parseList (fuel + 1) ts = some (es, rest)) :
    parseList (k + 1) (ts ++ us) = some (es, rest ++ us) := by
  obtain ⟨⟨e₁, rest₁⟩, h₁, h₂⟩ := bind_some h
  cases hcomma : expectSym ',' rest₁ with
  | some rest₂ =>
    simp only [hcomma] at h₂
    obtain ⟨⟨es₁, rest₃⟩, h₃, h₄⟩ := bind_some h₂
    cases h₄
    simp [parseList, ih.subexpr hk hus h₁, expectSym_append hcomma, ih.list hk hus h₃]
  | none =>
    simp only [hcomma] at h₂
    obtain ⟨rest₂, hclose, h₃⟩ := bind_some h₂
    cases h₃
    have hcomma' : expectSym ',' (rest₁ ++ us) = none :=
      expectSym_append_none (by rintro rfl; cases hclose) hcomma
    simp [parseList, ih.subexpr hk hus h₁, hcomma', expectSym_append hclose]

theorem Extends.test_succ (h : parseTest (fuel + 1) l negated ts = some (e, rest)) :
    parseTest (k + 1) l negated (ts ++ us) = some (e, rest ++ us) := by
  cases ts with
  | nil => cases h
  | cons t ts =>
    cases t with
    | kw kw =>
      cases kw with
      | inKw =>
        obtain ⟨rest₁, hopen, h₁⟩ := bind_some h
        obtain ⟨⟨list, rest₂⟩, h₂, h₃⟩ := bind_some h₁
        cases h₃
        simp [parseTest, expectSym_append hopen, ih.list hk hus h₂]
      | betweenKw =>
        obtain ⟨⟨low, rest₁⟩, h₁, h₂⟩ := bind_some h
        obtain ⟨rest₂, hand, h₃⟩ := bind_some h₂
        obtain ⟨⟨high, rest₃⟩, h₄, h₅⟩ := bind_some h₃
        cases h₅
        simp [parseTest, ih.subexpr hk hus h₁, expectKw_append hand, ih.subexpr hk hus h₄]
      | likeKw =>
        obtain ⟨⟨pattern, rest₁⟩, h₁, h₂⟩ := bind_some h
        cases h₂
        simp [parseTest, ih.subexpr hk hus h₁]
      | _ => cases h
    | _ => cases h

theorem Extends.operator_succ (h : parseOperator (fuel + 1) l ts = some (e, rest)) :
    parseOperator (k + 1) l (ts ++ us) = some (e, rest ++ us) := by
  cases ts with
  | nil =>
    -- no operator starts with the end of the tokens
    cases fuel <;> cases h
  | cons t ts =>
    have hnot' := takeNot_append ts hus
    cases t with
    | kw kw =>
      cases kw with
      | orKw | andKw =>
        obtain ⟨⟨r, rest₁⟩, h₁, h₂⟩ := bind_some h
        cases h₂
        simp [parseOperator, ih.subexpr hk hus h₁]
      | isKw =>
        simp only [parseOperator, List.cons_append, hnot'] at h ⊢
        exact parseIs_append h
      | _ =>
        exact ih.test hk hus h
    | cmp op | sym c =>
      obtain ⟨⟨r, rest₁⟩, h₁, h₂⟩ := bind_some h
      cases h₂
      simp [parseOperator, ih.subexpr hk hus h₁]
    | _ =>
      exact ih.test hk hus h

end Step

theorem extends_all (fuel : Nat) : Extends fuel := by
  induction fuel with
  | zero =>
    constructor
    all_goals
      intros
      rename_i h
      cases h
  | succ fuel ih =>
    constructor
    all_goals
      intro fuel'
      intros
      rename_i hfuel hus h
      obtain ⟨k, rfl⟩ : ∃ k, fuel' = k + 1 := ⟨fuel' - 1, by omega⟩
    · exact ih.primary_succ (Nat.le_of_succ_le_succ hfuel) hus h
    · exact ih.subexpr_succ (Nat.le_of_succ_le_succ hfuel) hus h
    · exact ih.operators_succ (Nat.le_of_succ_le_succ hfuel) hus h
    · exact ih.operator_succ (Nat.le_of_succ_le_succ hfuel) hus h
    · exact ih.test_succ (Nat.le_of_succ_le_succ hfuel) hus h
    · exact ih.list_succ (Nat.le_of_succ_le_succ hfuel) hus h

variable {e : Expr} {fuel : Nat}

theorem parseSubexpr_extend (hus : Stops us) (hfuel : fuelFor ts ≤ fuel)
    (h : parseExpr ts = some (e, [])) : parseSubexpr fuel 0 (ts ++ us) = some (e, us) :=
  (extends_all _).subexpr hfuel hus h

theorem parseExpr_extend (hus : Stops us) (h : parseExpr ts = some (e, [])) :
    parseExpr (ts ++ us) = some (e, us) :=
  parseSubexpr_extend hus (by simp only [fuelFor, List.length_append]; omega) h

theorem parsePrimary_nested (hfuel : fuelFor ts ≤ fuel) (h : parseExpr ts = some (e, [])) :
    parsePrimary (fuel + 1) (.sym '(' :: (ts ++ .sym ')' :: us)) = some (.nested e, us) := by
  simp [parsePrimary, parseSubexpr_extend (stops_cons (t := .sym ')') rfl _) hfuel h, expectSym]

theorem parseOperators_stop {fuel prec : Nat} (hus : Stops us) (e : Expr) :
    parseOperators (fuel + 1) prec e us = some (e, us) := by
  simp [parseOperators, precedence_stop hus]

/-- Two whole expressions in parentheses, joined by `AND`, are their conjunction. -/
theorem parseExpr_conj {ts₁ ts₂ us : List Token} {e₁ e₂ : Expr}
    (h₁ : parseExpr ts₁ = some (e₁, [])) (h₂ : parseExpr ts₂ = some (e₂, [])) (hus : Stops us) :
    parseExpr (.sym '(' :: (ts₁ ++ .sym ')' :: .kw .andKw :: .sym '(' ::
      (ts₂ ++ .sym ')' :: us))) = some (.and (.nested e₁) (.nested e₂), us) := by
  obtain ⟨fuel, hfuel⟩ : ∃ fuel, fuelFor (.sym '(' :: (ts₁ ++ .sym ')' :: .kw .andKw :: .sym '(' ::
      (ts₂ ++ .sym ')' :: us))) = fuel + 5 := ⟨_, rfl⟩
  obtain ⟨hlen₁, hlen₂⟩ : fuelFor ts₁ ≤ fuel + 3 ∧ fuelFor ts₂ ≤ fuel := by
    simp only [fuelFor, List.length_cons, List.length_append] at hfuel ⊢
    omega
  have hprec : ¬ precedence (.kw .andKw :: .sym '(' :: (ts₂ ++ .sym ')' :: us)) ≤ 0 := by
    show ¬ precAnd ≤ 0
    decide
  -- the right operand of the AND, read at the precedence of AND
  have hright : parseSubexpr (fuel + 2) precAnd (.sym '(' :: (ts₂ ++ .sym ')' :: us)) =
      some (.nested e₂, us) := by
    simp [parseSubexpr, parsePrimary_nested hlen₂ h₂, parseOperators_stop hus]
  have hand : parseOperator (fuel + 3) (.nested e₁)
      (.kw .andKw :: .sym '(' :: (ts₂ ++ .sym ')' :: us)) =
        some (.and (.nested e₁) (.nested e₂), us) := by
    rw [parseOperator, hright]
    rfl
  have hrest : parseOperators (fuel + 4) 0 (.nested e₁)
      (.kw .andKw :: .sym '(' :: (ts₂ ++ .sym ')' :: us)) =
        some (.and (.nested e₁) (.nested e₂), us) := by
    rw [parseOperators, hand]
    exact parseOperators_stop hus _
  rw [parseExpr, hfuel, parseSubexpr, parsePrimary_nested hlen₁ h₁]
  exact hrest

/-! ## Statements -/

inductive SelectItem where
  | wildcard
  | expr (e : Expr)
  deriving Repr

structure SelectStmt where
  projection : List SelectItem
  whereClause : Option Expr
  orderBy : List (Expr × Bool)
  limit : Option Expr
  offset : Option Expr
  deriving Repr

def parseItem (ts : List Token) : Option (SelectItem × List Token) :=
  match expectSym '*' ts with
  | some rest => some (.wildcard, rest)
  | none => (parseExpr ts).map fun (e, rest) => (.expr e, rest)

theorem parseItem_append {item : SelectItem} (hus : Stops us)
    (h : parseItem ts = some (item, rest)) : parseItem (ts ++ us) = some (item, rest ++ us) := by
  unfold parseItem at h
  cases hstar : expectSym '*' ts with
  | some rest₁ =>
    rw [hstar] at h
    cases h
    rw [parseItem, expectSym_append hstar]
  | none =>
    rw [hstar] at h
    obtain ⟨⟨e, rest₁⟩, hexpr, hout⟩ := map_eq_some_iff.mp h
    cases hout
    have hstar' : expectSym '*' (ts ++ us) = none :=
      expectSym_append_none (by rintro rfl; cases hexpr) hstar
    have hexpr' : parseExpr (ts ++ us) = some (e, rest ++ us) :=
      (extends_all _).subexpr (by simp only [fuelFor, List.length_append]; omega) hus hexpr
    rw [parseItem, hstar']
    simp [hexpr']

def parseItems : Nat → List Token → Option (List SelectItem × List Token)
  | 0, _ => none
  | fuel + 1, ts => do
    let (item, rest) ← parseItem ts
    match expectSym ',' rest with
    | some rest => do
      let (items, rest) ← parseItems fuel rest
      some (item :: items, rest)
    | none => some ([item], rest)

def parseClause (k : Keyword) (ts : List Token) : Option (Option Expr × List Token) :=
  match expectKw k ts with
  | some rest => (parseExpr rest).map fun (e, rest) => (some e, rest)
  | none => some (none, ts)

def takeDirection : List Token → Bool × List Token
  | .kw .ascKw :: rest => (true, rest)
  | .kw .descKw :: rest => (false, rest)
  | ts => (true, ts)

def parseSortKeys : Nat → List Token → Option (List (Expr × Bool) × List Token)
  | 0, _ => none
  | fuel + 1, ts => do
    let (e, rest) ← parseExpr ts
    let (asc, rest) := takeDirection rest
    match expectSym ',' rest with
    | some rest => do
      let (keys, rest) ← parseSortKeys fuel rest
      some ((e, asc) :: keys, rest)
    | none => some ([(e, asc)], rest)

def parseOrderBy (ts : List Token) : Option (List (Expr × Bool) × List Token) :=
  match expectKw .orderKw ts with
  | some rest => do
    let rest ← expectKw .byKw rest
    parseSortKeys rest.length rest
  | none => some ([], ts)

/-- What follows the table: the clauses of a query over one table. -/
def parseClauses (projection : List SelectItem) (ts : List Token) :
    Option (SelectStmt × List Token) := do
  let (whereClause, ts) ← parseClause .whereKw ts
  let (orderBy, ts) ← parseOrderBy ts
  let (limit, ts) ← parseClause .limitKw ts
  let (offset, ts) ← parseClause .offsetKw ts
  some (⟨projection, whereClause, orderBy, limit, offset⟩, ts)

def parseTable : List Token → Option (List Token)
  | .ident name :: rest => some (parsePath [name] rest).2
  | _ => none

/-- The first statement of a text. Further statements behind a semicolon are not used. -/
def parseSelect (ts : List Token) : Option SelectStmt := do
  let ts ← expectKw .select ts
  let (projection, ts) ← parseItems ts.length ts
  let ts ← expectKw .fromKw ts
  let ts ← parseTable ts
  let (stmt, ts) ← parseClauses projection ts
  if ts = [] ∨ ts.head? = some (.sym ';') then some stmt else none

def parseSql (s : List Char) : Option SelectStmt := (tokenize s).bind parseSelect

/-! ## Statements around a condition -/

variable {items : List SelectItem}

/-- A whole select list in front of a stop other than a comma is read as before. -/
theorem parseItems_extend {fuel k : Nat} (hk : fuel ≤ k) (hus : Stops us)
    (hcomma : expectSym ',' us = none) (h : parseItems fuel ts = some (items, [])) :
    parseItems k (ts ++ us) = some (items, us) := by
  induction fuel generalizing k ts items with
  | zero => cases h
  | succ fuel ih =>
    obtain ⟨k, rfl⟩ : ∃ k', k = k' + 1 := ⟨k - 1, by omega⟩
    obtain ⟨⟨item, rest⟩, hitem, htail⟩ := bind_some h
    have hitem' : parseItem (ts ++ us) = some (item, rest ++ us) := parseItem_append hus hitem
    cases hsep : expectSym ',' rest with
    | some rest₁ =>
      simp only [hsep] at htail
      obtain ⟨⟨items₁, rest₂⟩, hitems, hlast⟩ := bind_some htail
      cases hlast
      simp [parseItems, hitem', expectSym_append hsep, ih (Nat.le_of_succ_le_succ hk) hitems]
    | none =>
      simp only [hsep] at htail
      cases htail
      simp [parseItems, hitem', hcomma]

/-- The tokens of `SELECT … FROM t WHERE …`. -/
def selectWhere (list : List Token) (table : List Char) (ts : List Token) : List Token :=
  .kw .select :: (list ++ .kw .fromKw :: .ident table :: .kw .whereKw :: ts)

/-- The select list and the condition of such a statement are the ones written there, and
no clause behind the condition changes that. -/
theorem parseSelect_selectWhere {list : List Token} {table : List Char} {stmt : SelectStmt}
    (hlist : parseItems list.length list = some (items, [])) (he : parseExpr ts = some (e, rest))
    (h : parseSelect (selectWhere list table ts) = some stmt) :
    stmt.projection = items ∧ stmt.whereClause = some e ∧
      ∃ ts₁ ts₂, parseOrderBy rest = some (stmt.orderBy, ts₁) ∧
        parseClause .limitKw ts₁ = some (stmt.limit, ts₂) := by
  have hitems : parseItems (list ++ .kw .fromKw :: .ident table :: .kw .whereKw :: ts).length
      (list ++ .kw .fromKw :: .ident table :: .kw .whereKw :: ts) =
        some (items, .kw .fromKw :: .ident table :: .kw .whereKw :: ts) :=
    parseItems_extend (by simp) (stops_cons rfl _) rfl hlist
  have htable : parseSelect (selectWhere list table ts) =
      (parseClauses items (.kw .whereKw :: ts)).bind fun p =>
        if p.2 = [] ∨ p.2.head? = some (.sym ';') then some p.1 else none := by
    simp only [parseSelect, selectWhere, expectKw, if_true, hitems, parseTable, parsePath,
      Option.bind_eq_bind, Option.bind_some]
  rw [htable] at h
  obtain ⟨⟨stmt', ts'⟩, hclauses, hend⟩ := Option.bind_eq_some_iff.mp h
  obtain ⟨-, hstmt⟩ := Option.ite_none_right_eq_some.mp hend
  cases hstmt
  have hwhere : parseClause .whereKw (.kw .whereKw :: ts) = some (some e, rest) := by
    simp [parseClause, expectKw, he]
  obtain ⟨⟨whereClause, ts₀⟩, hfirst, h₀⟩ := bind_some hclauses
  obtain ⟨⟨orderBy, ts₁⟩, horder, h₁⟩ := bind_some h₀
  obtain ⟨⟨limit, ts₂⟩, hlimit, h₂⟩ := bind_some h₁
  obtain ⟨⟨offset, ts₃⟩, _, h₃⟩ := bind_some h₂
  cases hwhere.symm.trans hfirst
  cases h₃
  exact ⟨rfl, rfl, ts₁, ts₂, horder, hlimit⟩

end Sql
