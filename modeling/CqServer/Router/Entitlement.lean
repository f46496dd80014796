import CqServer.Router.BuildSql

/-!
# Entitlements

`auth.rs`: what a user may do on which topic, and the row filter that
`apply_entitlement_filter` joins to the condition of every query the user sends.
The join is a splice of texts, `(client) AND (filter)`. It is the conjunction it
looks like if both texts are whole conditions that do not run into what follows
them and the select list in front of them is a list of columns
(`gated_of_wellFormed`). A client text that closes the parenthesis itself makes
something else of it.
-/

namespace CqServer

open Option

/-! ## Users -/

inductive Op where
  | publish | subscribe | sow | delete | admin
  deriving DecidableEq, Repr

structure Entitlement where
  op : Op
  pattern : Text
  isWildcardOp : Bool
  deriving DecidableEq, Repr

/-- The pattern covers the topic: `*`, a leading part with `*` behind it, or the topic itself. -/
def patternCovers (pattern topic : Text) : Bool :=
  if pattern = ['*'] then true
  else if pattern.getLast? = some '*' then pattern.dropLast.isPrefixOf topic
  else pattern = topic

def Entitlement.matches (e : Entitlement) (op : Op) (topic : Text) : Bool :=
  (e.isWildcardOp || e.op = op) && patternCovers e.pattern topic

structure User where
  username : Text
  entitlements : List Entitlement
  rowFilter : Option Text
  deriving DecidableEq, Repr

def User.can (u : User) (op : Op) (topic : Text) : Bool := u.entitlements.any (·.matches op topic)

structure AuthStore where
  required : Bool
  users : Text → Option User

def AuthStore.rowFilterFor (auth : AuthStore) (username : Text) : Option Text :=
  (auth.users username).bind User.rowFilter

/-- `Session`: the user that logged on, with the entitlements taken over from them. -/
structure Session where
  username : Option Text
  entitlements : List Entitlement
  deriving DecidableEq, Repr

def Session.can (s : Session) (op : Op) (topic : Text) : Bool :=
  s.entitlements.any (·.matches op topic)

def checkEntitlement (auth : AuthStore) (session : Session) (op : Op) (topic : Text) : Bool :=
  !auth.required || session.can op topic

/-! ## The row filter -/

/-- The condition under a row filter. -/
def splice (client : Option Text) (filter : Text) : Text :=
  match client with
  | some client =>
    if client.isEmpty then filter
    else "(".toList ++ client ++ ") AND (".toList ++ filter ++ ")".toList
  | none => filter

/-- `apply_entitlement_filter`. A statement of the client's own is dropped. -/
def applyEntitlementFilter (auth : AuthStore) (session : Session) (msg : CqMessage) : CqMessage :=
  if auth.required then
    match session.username.bind auth.rowFilterFor with
    | none => msg
    | some filter =>
      match msg.sql with
      | some _ => { msg with sql := none, filter := some filter }
      | none => { msg with filter := some (splice msg.filter filter) }
  else msg

section Splice
open Sql

/-- The text is one whole condition, and nothing that follows it becomes part of it. -/
structure Fragment (s : Text) (e : Expr) : Prop where
  closed : Closed s
  parses : parseFragment s = some e

instance (s : Text) : Decidable (∃ e, Fragment s e) :=
  decidable_of_iff (Closed s ∧ (parseFragment s).isSome)
    ⟨fun ⟨hc, hp⟩ => (isSome_iff_exists.mp hp).imp fun _ he => ⟨hc, he⟩,
      fun ⟨e, h⟩ => ⟨h.closed, by simp [h.parses]⟩⟩

theorem Fragment.parseExpr_tokens {s : Text} {e : Expr} (h : Fragment s e) :
    parseExpr (tokens s) = some (e, []) := by
  obtain ⟨ts, hts, hparse⟩ := bind_some h.parses
  cases (tokenize_closed h.closed).symm.trans hts
  obtain ⟨⟨e', rest⟩, hexpr, hend⟩ := bind_some hparse
  obtain ⟨hrest, hsome⟩ := ite_none_right_eq_some.mp hend
  rw [hexpr, some.inj hsome, show rest = [] from hrest]

/-- What the parser reads behind WHERE holds only where the row filter does: the filter
itself, or a conjunction with it. -/
def Guards (e f : Expr) : Prop := e = f ∨ ∃ c, e = .and (.nested c) (.nested f)

/-- **The splice of two whole conditions is their conjunction.** -/
theorem parseExpr_splice {client : Option Text} {filter tail : Text} {f : Expr}
    (hclient : ∀ c, client = some c → c ≠ [] → ∃ e, Fragment c e) (hfilter : Fragment filter f)
    (htail : Trails tail) {ts : List Token} (hts : tokenize (splice client filter ++ tail) = some ts) :
    ∃ e us, tokenize tail = some us ∧ parseExpr ts = some (e, us) ∧ Guards e f := by
  by_cases hplain : splice client filter = filter
  · rw [hplain] at hts
    obtain ⟨us, hus, rfl⟩ := htail.tokenize_append hfilter.closed hts
    exact ⟨f, us, hus, parseExpr_extend (htail.stops hus) hfilter.parseExpr_tokens, .inl rfl⟩
  · obtain ⟨c, rfl, hc⟩ : ∃ c, client = some c ∧ c ≠ [] := by
      cases client with
      | none => exact absurd rfl hplain
      | some c =>
        refine ⟨c, rfl, ?_⟩
        rintro rfl
        exact hplain rfl
    obtain ⟨e, he⟩ := hclient c rfl hc
    have htext : splice (some c) filter ++ tail =
        '(' :: (c ++ ')' :: ' ' :: ("AND".toList ++ ' ' :: '(' :: (filter ++ ')' :: tail))) := by
      simp [splice, hc]
    have hand : tokens "AND".toList = [.kw .andKw] := by decide
    rw [htext, tokenize_open, tokenize_close he.closed, tokenize_blank, tokenize_word (by decide),
      tokenize_open, tokenize_close hfilter.closed] at hts
    simp only [map_map] at hts
    obtain ⟨us, hus, rfl⟩ := map_eq_some_iff.mp hts
    refine ⟨.and (.nested e) (.nested f), us, hus, ?_, .inr ⟨e, rfl⟩⟩
    exact parseExpr_conj he.parseExpr_tokens hfilter.parseExpr_tokens (htail.stops hus)

/-- The text is a list of columns, or `*`. -/
structure SelectList (s : Text) : Prop where
  closed : Closed s
  columns : ∃ items, parseItems (tokens s).length (tokens s) = some (items, []) ∧
    ∀ e, .expr e ∈ items → ∃ path, e = .ident path

end Splice

/-! ## Messages under the filter -/

/-- The client's texts stay in their places: its filter, unless it is dropped with a statement
of the client's own, is a whole condition, and its select list is a list of columns. -/
structure CqMessage.WellFormed (msg : CqMessage) : Prop where
  filter : msg.sql = none → ∀ c, msg.filter = some c → c ≠ [] → ∃ e, Fragment c e
  select : ∀ s, msg.option "select" = some s → SelectList s

/-- No LIMIT: no `top_n`, and nothing behind the sort keys. -/
structure CqMessage.Unlimited (msg : CqMessage) : Prop where
  topN : msg.option "top_n" = none
  orderBy : ∀ s, msg.option "order_by" = some s → ∃ ts keys, Sql.tokenize s = some ts ∧
    Sql.parseSortKeys ts.length ts = some (keys, [])

def Satisfies {σ : Schema} [LeafCompiler σ] (f : Sql.Expr) (row : Row σ) : Prop :=
  ∃ c, compileExpr f = some c ∧ c.eval row = .tt

/-- The query passes only rows that satisfy `f`. -/
def Gates {σ : Schema} [LeafCompiler σ] (f : Sql.Expr) (q : ParsedQuery σ) : Prop :=
  ∀ row, q.predicate.holds row = true → Satisfies f row

section Gate
variable {σ : Schema} [LeafCompiler σ]

theorem selectList_star : SelectList "*".toList :=
  ⟨by decide, [.wildcard], rfl, by simp⟩

theorem Guards.compile {e f : Sql.Expr} (h : Guards e f) {c : Condition σ}
    (hc : compileExpr e = some c) :
    ∃ c', compileExpr f = some c' ∧ ∀ row, c.eval row = .tt → c'.eval row = .tt := by
  rcases h with rfl | ⟨client, rfl⟩
  · exact ⟨c, hc, fun _ h => h⟩
  · -- parentheses compile to what is in them
    obtain ⟨cl, _, h₁⟩ := Sql.bind_some hc
    obtain ⟨cr, hr, h₂⟩ := Sql.bind_some h₁
    cases h₂
    exact ⟨cr, hr, fun row hrow => (Tri.and_eq_tt.mp hrow).2⟩

variable {auth : AuthStore} {filter : Text} {session : Session} {user : Text}

theorem applyEntitlementFilter_eq (hreq : auth.required = true)
    (huser : session.username = some user) (hfilter : auth.rowFilterFor user = some filter)
    (msg : CqMessage) :
    applyEntitlementFilter auth session msg =
      { msg with
        sql := none
        filter := some (splice (if msg.sql.isSome then none else msg.filter) filter) } := by
  unfold applyEntitlementFilter
  rw [if_pos hreq, huser]
  simp only [bind_some, hfilter]
  cases msg with
  | mk topic sql client options bookmark =>
    cases sql with
    | none | some raw => rfl

variable {msg : CqMessage}

theorem buildSql_filter (hsql : msg.sql = none) (hfilter : msg.filter = some filter)
    (hne : filter ≠ []) :
    buildSql msg = "SELECT ".toList ++ (msg.option "select").getD "*".toList ++
      " FROM t".toList ++ (" WHERE ".toList ++ (filter ++ msg.clauses)) := by
  simp [buildSql, hsql, hfilter, hne]

theorem CqMessage.Unlimited.clauses (h : msg.Unlimited) {us : List Sql.Token}
    (hus : Sql.tokenize msg.clauses = some us) : ∃ keys, Sql.parseOrderBy us = some (keys, []) := by
  unfold CqMessage.clauses at hus
  rw [h.topN] at hus
  cases hob : msg.option "order_by" with
  | none =>
    rw [hob] at hus
    cases hus
    exact ⟨[], rfl⟩
  | some s =>
    obtain ⟨ts, keys, hts, hkeys⟩ := h.orderBy s hob
    have htext : optionalClause " ORDER BY " (some s) ++ optionalClause " LIMIT " none =
        ' ' :: ("ORDER".toList ++ ' ' :: ("BY".toList ++ ' ' :: s)) := by
      simp [optionalClause]
    have horder : Sql.tokens "ORDER".toList = [.kw .orderKw] := by decide
    have hby : Sql.tokens "BY".toList = [.kw .byKw] := by decide
    rw [hob, htext, tokenize_blank, tokenize_word (by decide), tokenize_word (by decide), hts,
      horder, hby] at hus
    cases hus
    exact ⟨keys, by simpa [Sql.parseOrderBy, Sql.expectKw] using hkeys⟩

variable {f : Sql.Expr}

variable (hreq : auth.required = true) (huser : session.username = some user)
  (hfilter : auth.rowFilterFor user = some filter) (hf : Fragment filter f) (hmsg : msg.WellFormed)
include hreq huser hfilter hf hmsg

theorem parseSql_filtered {stmt : Sql.SelectStmt}
    (h : Sql.parseSql (buildSql (applyEntitlementFilter auth session msg)) = some stmt) :
    (∃ e, stmt.whereClause = some e ∧ Guards e f) ∧ (msg.Unlimited → stmt.limit = none) := by
  have hne : ∀ client : Option Text, splice client filter ≠ [] := by
    have hsome : filter ≠ [] := by
      rintro rfl
      have hparse := hf.parses
      cases hparse
    intro client
    unfold splice
    split
    · split
      · exact hsome
      · simp
    · exact hsome
  rw [applyEntitlementFilter_eq hreq huser hfilter, buildSql_filter rfl rfl (hne _)] at h
  obtain ⟨ts, hts, hstmt⟩ := bind_eq_some_iff.mp h
  have hselect : SelectList ((msg.option "select").getD "*".toList) := by
    cases hopt : msg.option "select" with
    | none => exact selectList_star
    | some s => exact hmsg.select s hopt
  obtain ⟨items, hitems, -⟩ := hselect.columns
  obtain ⟨ws, hws, rfl⟩ := tokenize_statement hselect.closed hts
  have hclient : ∀ c, (if msg.sql.isSome then none else msg.filter) = some c → c ≠ [] →
      ∃ e, Fragment c e := by
    intro c hc
    split at hc
    · cases hc
    · rename_i hsql
      exact hmsg.filter (by simpa using hsql) c hc
  obtain ⟨e, us, hus, hexpr, hguard⟩ := parseExpr_splice hclient hf msg.trails_clauses hws
  obtain ⟨-, hwhere, ts₁, ts₂, horder, hlimit⟩ :=
    Sql.parseSelect_selectWhere hitems hexpr hstmt
  refine ⟨⟨e, hwhere, hguard⟩, ?_⟩
  intro hunlimited
  obtain ⟨keys, hkeys⟩ := hunlimited.clauses hus
  have hend : ts₁ = [] := by
    have hboth := hkeys.symm.trans horder
    simp only [some.injEq, Prod.mk.injEq] at hboth
    exact hboth.2.symm
  rw [hend] at hlimit
  have hnone : some (none, []) = some (stmt.limit, ts₂) := hlimit
  simp only [some.injEq, Prod.mk.injEq] at hnone
  exact hnone.1.symm

/-- **Under a row filter a well-formed message asks only for rows that satisfy it.** -/
theorem gated_of_wellFormed {q : ParsedQuery σ}
    (h : parseQuery (buildSql (applyEntitlementFilter auth session msg)) = some q) :
    Gates f q ∧ (msg.Unlimited → q.limit = none) := by
  obtain ⟨stmt, hstmt, hq⟩ := bind_eq_some_iff.mp h
  obtain ⟨⟨e, hwhere, hguard⟩, hunlimited⟩ :=
    parseSql_filtered hreq huser hfilter hf hmsg hstmt
  obtain ⟨c, hc, hpred, hlim⟩ := compileQuery_where hwhere hq
  obtain ⟨c', hc', himp⟩ := hguard.compile hc
  constructor
  · intro row hrow
    rw [hpred] at hrow
    exact ⟨c', hc', himp row (of_decide_eq_true hrow)⟩
  · intro hmsg'
    rw [hlim, hunlimited hmsg']
    rfl

end Gate

end CqServer
