import CqServer.Query.Aggregate
import CqServer.Lib.PrefixCode

/-!
# The text of a group key

The executor tells groups apart by their key parts, subscriptions and views by a JSON
text of the group columns (`group_key_canonical`). Both make the same groups, since the
text can be read in one way only: strings are quoted and escaped, and every other scalar
ends before the next bracket. Doubles are left out, `serde_json` prints them.
-/

namespace CqServer

open Lib List

variable {σ : Schema}

/-! ## Quoted strings -/

def hexValue (c : Char) : Nat := if c.isDigit then c.toNat - 48 else c.toNat - 87

/-- Read what follows a backslash. -/
def unescapeSpecial : List Char → Option (Char × List Char)
  | 'n' :: cs => some ('\n', cs)
  | 'r' :: cs => some ('\r', cs)
  | 't' :: cs => some ('\t', cs)
  | 'b' :: cs => some (Char.ofNat 8, cs)
  | 'f' :: cs => some (Char.ofNat 12, cs)
  | 'u' :: '0' :: '0' :: h :: l :: cs => some (Char.ofNat (16 * hexValue h + hexValue l), cs)
  | c :: cs => some (c, cs)
  | [] => none

def unescape : List Char → Option (Char × List Char)
  | [] => none
  | c :: cs => if c = '\\' then unescapeSpecial cs else some (c, cs)

theorem hexValue_digits : ∀ n < 32,
    16 * hexValue (Nat.digitChar (n / 16)) + hexValue (Nat.digitChar (n % 16)) = n := by
  decide

/-- A character stands for itself, or behind a backslash. -/
theorem escapeChar_cases (c : Char) : (c ≠ '"' ∧ c ≠ '\\' ∧ escapeChar c = [c]) ∨
      ∃ ds, escapeChar c = '\\' :: ds ∧ ∀ cs, unescapeSpecial (ds ++ cs) = some (c, cs) := by
  have hcode : ∀ n, c.toNat = n → c = Char.ofNat n := by
    rintro n rfl
    exact (Char.ofNat_toNat c).symm
  by_cases h₁ : c = '"'
  · subst h₁
    exact .inr ⟨['"'], rfl, fun _ => rfl⟩
  by_cases h₂ : c = '\\'
  · subst h₂
    exact .inr ⟨['\\'], rfl, fun _ => rfl⟩
  by_cases h₃ : c = '\n'
  · subst h₃
    exact .inr ⟨['n'], rfl, fun _ => rfl⟩
  by_cases h₄ : c = '\r'
  · subst h₄
    exact .inr ⟨['r'], rfl, fun _ => rfl⟩
  by_cases h₅ : c = '\t'
  · subst h₅
    exact .inr ⟨['t'], rfl, fun _ => rfl⟩
  by_cases h₆ : c.toNat = 8
  · rw [hcode 8 h₆]
    exact .inr ⟨['b'], rfl, fun _ => rfl⟩
  by_cases h₇ : c.toNat = 12
  · rw [hcode 12 h₇]
    exact .inr ⟨['f'], rfl, fun _ => rfl⟩
  by_cases h₈ : c.toNat < 32
  · refine .inr ⟨['u', '0', '0', Nat.digitChar (c.toNat / 16), Nat.digitChar (c.toNat % 16)], ?_, ?_⟩
    · rw [escapeChar, if_neg h₁, if_neg h₂, if_neg h₃, if_neg h₄, if_neg h₅, if_neg h₆, if_neg h₇,
        if_pos h₈]
    · intro cs
      change some (Char.ofNat _, cs) = some (c, cs)
      rw [hexValue_digits _ h₈, Char.ofNat_toNat]
  · refine .inl ⟨h₁, h₂, ?_⟩
    rw [escapeChar, if_neg h₁, if_neg h₂, if_neg h₃, if_neg h₄, if_neg h₅, if_neg h₆, if_neg h₇,
      if_neg h₈]

theorem unescape_escapeChar (c : Char) (cs : List Char) :
    unescape (escapeChar c ++ cs) = some (c, cs) := by
  rcases escapeChar_cases c with ⟨-, hslash, hself⟩ | ⟨ds, hescape, hread⟩
  · rw [hself]
    exact if_neg hslash
  · rw [hescape]
    exact hread cs

theorem prefixCode_escapeChar : PrefixCode escapeChar := .of_reader unescape unescape_escapeChar

theorem escapeChar_head (c : Char) : ∃ d ds, escapeChar c = d :: ds ∧ d ≠ '"' := by
  rcases escapeChar_cases c with ⟨hquote, -, hself⟩ | ⟨ds, hescape, -⟩
  · exact ⟨c, [], hself, hquote⟩
  · exact ⟨'\\', ds, hescape, by decide⟩

theorem quoteString_toList (s : String) :
    (quoteString s).toList = '"' :: (s.toList.flatMap escapeChar ++ ['"']) := by
  simp [quoteString]

theorem prefixCode_quoteString : PrefixCode fun s : String => (quoteString s).toList := by
  intro s t x y h
  simp only [quoteString_toList, cons_append, cons.injEq, true_and] at h
  obtain ⟨hst, hxy⟩ := prefixCode_escapeChar.flatMap_append escapeChar_head h
  exact ⟨String.toList_inj.mp hst, hxy⟩

/-! ## Scalars -/

/-- A value with one text: no double, array or object, and a negative number only as such. -/
def Json.Plain : Json → Prop
  | .null | .bool _ | .string _ | .number (.posInt _) => True
  | .number (.negInt n) => n.toInt < 0
  | _ => False

/-- What kind of scalar starts with a character. -/
def leadKind (c : Char) : Nat :=
  if c = 'n' then 0 else if c = 't' ∨ c = 'f' then 1 else if c = '"' then 2
  else if c = '-' then 3 else 4

def Json.kind : Json → Nat
  | .null => 0
  | .bool _ => 1
  | .string _ => 2
  | .number (.negInt _) => 3
  | _ => 4

theorem Json.Plain.form {v : Json} (h : v.Plain) :
    match v.kind with
    | 0 => v = .null
    | 1 => ∃ b, v = .bool b
    | 2 => ∃ s, v = .string s
    | 3 => ∃ n, v = .number (.negInt n) ∧ n.toInt < 0
    | _ => ∃ n, v = .number (.posInt n) := by
  match v, h with
  | .null, _ => exact rfl
  | .bool b, _ => exact ⟨b, rfl⟩
  | .string s, _ => exact ⟨s, rfl⟩
  | .number (.negInt n), h => exact ⟨n, rfl, h⟩
  | .number (.posInt n), _ => exact ⟨n, rfl⟩

theorem leadKind_digit {c : Char} (hc : c.isDigit = true) : leadKind c = 4 := by
  have hne : ∀ d : Char, d.isDigit = false → c ≠ d := by
    rintro d hd rfl
    rw [hc] at hd
    cases hd
  simp [leadKind, hne 'n' rfl, hne 't' rfl, hne 'f' rfl, hne '"' rfl, hne '-' rfl]

section Render
variable [HostText]

theorem Json.Plain.head {v : Json} (h : v.Plain) :
    v.render.toList.head?.map leadKind = some v.kind := by
  match v, h with
  | .null, _ =>
    rw [Json.render]
    decide
  | .bool b, _ =>
    rw [Json.render]
    cases b <;> decide
  | .string s, _ =>
    rw [Json.render, quoteString_toList]
    rfl
  | .number (.negInt n), h =>
    rw [Json.render, Number.render, displayI64, toString_neg h]
    rfl
  | .number (.posInt n), _ =>
    rw [Json.render, Number.render]
    cases hd : (toString n.toNat).toList with
    | nil =>
      rw [Nat.toString_eq_ofList_toDigits, String.toList_ofList] at hd
      exact absurd hd Nat.toDigits_ne_nil
    | cons c cs =>
      have hc : c.isDigit = true := mem_toString_nat (n := n.toNat) (hd ▸ mem_cons_self)
      exact congrArg some (leadKind_digit hc)

omit [HostText] in
theorem bracket_notMem_toString (n : Nat) : ']' ∉ (toString n).toList := by
  intro hmem
  have hdigit := mem_toString_nat hmem
  revert hdigit
  decide

/-- The text of a scalar, up to the bracket behind it, can be read in one way. -/
theorem Json.Plain.read {v w : Json} (hv : v.Plain) (hw : w.Plain) {x y : List Char}
    (h : v.render.toList ++ ']' :: x = w.render.toList ++ ']' :: y) : v = w ∧ x = y := by
  have hhead : ∀ {u : Json} (z : List Char), u.Plain →
      (u.render.toList ++ ']' :: z).head?.map leadKind = some u.kind := by
    intro u z hu
    rw [← hu.head]
    cases hcs : u.render.toList with
    | nil =>
      have hhead := hu.head
      rw [hcs] at hhead
      cases hhead
    | cons c cs => rfl
  have hkind : w.kind = v.kind := by
    have hsame := hhead x hv
    rw [h, hhead y hw] at hsame
    exact Option.some.inj hsame
  have hvf := hv.form
  have hwf := hw.form
  rw [hkind] at hwf
  generalize v.kind = k at hvf hwf
  match k with
  | 0 =>
    obtain ⟨rfl, rfl⟩ := And.intro hvf hwf
    exact ⟨rfl, (cons.inj (append_cancel_left h)).2⟩
  | 1 =>
    obtain ⟨⟨a, rfl⟩, ⟨b, rfl⟩⟩ := And.intro hvf hwf
    rw [Json.render, Json.render] at h
    cases a <;> cases b
    · exact ⟨rfl, (cons.inj (append_cancel_left h)).2⟩
    · exact absurd (congrArg head? h) (by simp)
    · exact absurd (congrArg head? h) (by simp)
    · exact ⟨rfl, (cons.inj (append_cancel_left h)).2⟩
  | 2 =>
    obtain ⟨⟨s, rfl⟩, ⟨t, rfl⟩⟩ := And.intro hvf hwf
    obtain ⟨rfl, hrest⟩ := prefixCode_quoteString h
    exact ⟨rfl, (cons.inj hrest).2⟩
  | 3 =>
    obtain ⟨⟨m, rfl, hm⟩, ⟨n, rfl, hn⟩⟩ := And.intro hvf hwf
    rw [Json.render, Json.render, Number.render, Number.render, displayI64, displayI64,
      toString_neg hm, toString_neg hn, cons_append, cons_append, cons.injEq] at h
    obtain ⟨htext, hrest⟩ := append_cons_inj_left (bracket_notMem_toString m.toInt.natAbs)
      (bracket_notMem_toString n.toInt.natAbs) h.2
    have habs := toString_nat_inj htext
    have hval : m.toInt = n.toInt := by omega
    rw [Int64.toInt_inj.mp hval]
    exact ⟨rfl, hrest⟩
  | _ + 4 =>
    obtain ⟨⟨m, rfl⟩, ⟨n, rfl⟩⟩ := And.intro hvf hwf
    obtain ⟨htext, hrest⟩ := append_cons_inj_left (bracket_notMem_toString m.toNat)
      (bracket_notMem_toString n.toNat) h
    rw [UInt64.toNat_inj.mp (toString_nat_inj htext)]
    exact ⟨rfl, hrest⟩

theorem renderItems_pairs_inj {names : List String} {f g : String → Json}
    (hf : ∀ n ∈ names, (f n).Plain) (hg : ∀ n ∈ names, (g n).Plain)
    (h : Json.renderItems (names.map fun n => .array [.string n, f n]) =
      Json.renderItems (names.map fun n => .array [.string n, g n])) :
    ∀ n ∈ names, f n = g n := by
  have hpair : ∀ (n : String) (v : Json), (Json.render (.array [.string n, v])).toList =
      '[' :: ((quoteString n).toList ++ ',' :: (v.render.toList ++ [']'])) := by
    intro n v
    simp [Json.render, Json.renderItems]
  -- the first pair, up to its bracket, whatever follows
  have hfirst : ∀ {n : String} {v w : Json} {x y : List Char}, v.Plain → w.Plain →
      (Json.render (.array [.string n, v])).toList ++ x =
        (Json.render (.array [.string n, w])).toList ++ y → v = w ∧ x = y := by
    intro n v w x y hv hw heq
    simp only [hpair, cons_append, append_assoc, cons.injEq, true_and] at heq
    have htail := (cons.inj (append_cancel_left heq)).2
    exact hv.read hw htail
  induction names with
  | nil => exact fun n hn => nomatch hn
  | cons n names ih =>
    have hfn := hf n mem_cons_self
    have hgn := hg n mem_cons_self
    cases names with
    | nil =>
      have htext : (Json.render (.array [.string n, f n])).toList ++ [] =
          (Json.render (.array [.string n, g n])).toList ++ [] := by
        rw [append_nil, append_nil]
        exact congrArg String.toList h
      have hone := (hfirst hfn hgn htext).1
      intro n' hn'
      rw [mem_singleton.mp hn', hone]
    | cons n₁ names =>
      have htext := congrArg String.toList h
      simp only [map_cons, Json.renderItems, String.toList_append, append_assoc] at htext
      obtain ⟨hone, hrest⟩ := hfirst hfn hgn htext
      have htail := String.toList_inj.mp (append_cancel_left hrest)
      have hothers := ih (fun n' hn' => hf n' (mem_cons_of_mem _ hn'))
        (fun n' hn' => hg n' (mem_cons_of_mem _ hn')) htail
      intro n' hn'
      rcases mem_cons.mp hn' with rfl | hn'
      · exact hone
      · exact hothers n' hn'

theorem groupKeyCanonical_inj {names : List String} {m m' : JsonMap}
    (hm : ∀ n ∈ names, ((m.get? n).getD .null).Plain)
    (hm' : ∀ n ∈ names, ((m'.get? n).getD .null).Plain)
    (h : groupKeyCanonical m names = groupKeyCanonical m' names) :
    ∀ n ∈ names, (m.get? n).getD .null = (m'.get? n).getD .null := by
  refine renderItems_pairs_inj hm hm' ?_
  have htext := congrArg String.toList h
  simp only [groupKeyCanonical, Json.render, String.toList_append, append_assoc] at htext
  exact String.toList_inj.mp (append_cancel_right (append_cancel_left htext))

/-! ## The columns of a group -/

def keyMap (cols : List σ.Col) (key : List GroupKeyPart) : JsonMap :=
  (cols.zip key).foldl (fun m e => m.insert (σ.columnName e.1) e.2.toJson) []

/-- `group_key_canonical_from_store`, of a row. -/
def groupText (cols : List σ.Col) (r : Row σ) : String :=
  groupKeyCanonical (keyMap cols (groupKey cols r)) (cols.map σ.columnName)

/-- Columns whose values can be told apart by their text: no doubles, and timestamps if
their format tells them apart. -/
def TextColumns (cols : List σ.Col) : Prop :=
  ∀ c ∈ cols, σ.columnType c ≠ .double ∧
    (σ.columnType c = .timestamp → Function.Injective formatTimestampMicros)

omit [HostText] in
theorem jsonOfInt_plain {n : Int} (hn : -(2 ^ 63) ≤ n ∧ n < 2 ^ 63) :
    (Value.jsonOfInt n).Plain := by
  unfold Value.jsonOfInt
  split
  · trivial
  · change (Int64.ofInt n).toInt < 0
    rw [Int64.toInt_ofInt_of_le hn.1 hn.2]
    omega

theorem jsonOfInt_inj {m n : Int} (hm : -(2 ^ 63) ≤ m ∧ m < 2 ^ 63) (hn : -(2 ^ 63) ≤ n ∧ n < 2 ^ 63)
    (h : Value.jsonOfInt m = Value.jsonOfInt n) : m = n := by
  obtain ⟨k, hk, hcode, -⟩ := Value.jsonOfInt_spec hm
  obtain ⟨k', hk', hcode', -⟩ := Value.jsonOfInt_spec hn
  cases hk.symm.trans (h.trans hk')
  have hvalue := congrArg Int64.toInt (Option.some.inj (hcode.symm.trans hcode'))
  rwa [Int64.toInt_ofInt_of_le hm.1 hm.2, Int64.toInt_ofInt_of_le hn.1 hn.2] at hvalue

omit [HostText] in
theorem jsonOfInt_ne_null (n : Int) : Value.jsonOfInt n ≠ .null := by
  unfold Value.jsonOfInt
  split <;> nofun

namespace GroupKeyPart

theorem toJson_fromValue_plain {ty : ColumnType} {v : Value} (hv : Value.hasType ty v = true)
    (hty : ty ≠ .double) : (fromValue v).toJson.Plain := by
  have hform := Value.exists_of_hasType hv
  cases ty with
  | double => exact absurd rfl hty
  | long =>
    obtain ⟨n, rfl⟩ := hform
    simp only [fromValue]
    split
    · trivial
    · exact jsonOfInt_plain (i64_range n)
  | int =>
    obtain ⟨n, rfl⟩ := hform
    simp only [fromValue]
    split
    · trivial
    · exact jsonOfInt_plain (i32_range n)
  | string | bool | bytes =>
    obtain ⟨x, rfl⟩ := hform
    cases x <;> trivial
  | timestamp =>
    obtain ⟨t, rfl⟩ := hform
    simp only [fromValue]
    split <;> trivial

theorem ite_null_inj {a b : Prop} [Decidable a] [Decidable b] {p p' : GroupKeyPart}
    (hp : p.toJson ≠ .null) (hp' : p'.toJson ≠ .null) (hinj : p.toJson = p'.toJson → p = p')
    (h : (if a then null else p).toJson = (if b then null else p').toJson) :
    (if a then null else p) = if b then null else p' := by
  split_ifs at h ⊢
  · rfl
  · exact absurd h.symm hp'
  · exact absurd h hp
  · exact hinj h

theorem elim_null_inj {α : Type} {f : α → GroupKeyPart} (hf : ∀ a, (f a).toJson ≠ .null)
    (hinj : ∀ a b, (f a).toJson = (f b).toJson → f a = f b) {x y : Option α}
    (h : (x.elim null f).toJson = (y.elim null f).toJson) : x.elim null f = y.elim null f := by
  cases x <;> cases y
  · rfl
  · exact absurd h.symm (hf _)
  · exact absurd h (hf _)
  · exact hinj _ _ h

/-- Values of one column have the same part if the parts have the same JSON form. -/
theorem fromValue_eq_of_toJson {ty : ColumnType} {v w : Value} (hv : Value.hasType ty v = true)
    (hw : Value.hasType ty w = true) (hty : ty ≠ .double)
    (htime : ty = .timestamp → Function.Injective formatTimestampMicros)
    (h : (fromValue v).toJson = (fromValue w).toJson) : fromValue v = fromValue w := by
  have hvf := Value.exists_of_hasType hv
  have hwf := Value.exists_of_hasType hw
  cases ty with
  | double => exact absurd rfl hty
  | long =>
    obtain ⟨⟨m, rfl⟩, ⟨n, rfl⟩⟩ := And.intro hvf hwf
    refine ite_null_inj (jsonOfInt_ne_null _) (jsonOfInt_ne_null _) (fun heq => ?_) h
    rw [Int64.toInt_inj.mp (jsonOfInt_inj (i64_range m) (i64_range n) heq)]
  | int =>
    obtain ⟨⟨m, rfl⟩, ⟨n, rfl⟩⟩ := And.intro hvf hwf
    refine ite_null_inj (jsonOfInt_ne_null _) (jsonOfInt_ne_null _) (fun heq => ?_) h
    rw [Int32.toInt_inj.mp (jsonOfInt_inj (i32_range m) (i32_range n) heq)]
  | string | bytes =>
    obtain ⟨⟨s, rfl⟩, ⟨t, rfl⟩⟩ := And.intro hvf hwf
    exact elim_null_inj nofun (fun _ _ heq => congrArg string (Json.string.inj heq)) h
  | bool =>
    obtain ⟨⟨a, rfl⟩, ⟨b, rfl⟩⟩ := And.intro hvf hwf
    exact elim_null_inj nofun (fun _ _ heq => congrArg bool (Json.bool.inj heq)) h
  | timestamp =>
    obtain ⟨⟨s, rfl⟩, ⟨t, rfl⟩⟩ := And.intro hvf hwf
    refine ite_null_inj nofun nofun (fun heq => ?_) h
    rw [htime rfl (Json.string.inj heq)]

end GroupKeyPart

theorem get?_keyMap (hσ : σ.Distinct) (cols : List σ.Col) (r : Row σ) (c : σ.Col) :
    (keyMap cols (groupKey cols r)).get? (σ.columnName c) =
      if c ∈ cols then some (GroupKeyPart.fromValue (r.cells c)).toJson else none := by
  have hzip : cols.zip (groupKey cols r) =
      cols.map fun c => (c, GroupKeyPart.fromValue (r.cells c)) := map_prod_left_eq_zip.symm
  rw [keyMap, hzip, foldl_map]
  exact JsonMap.get?_foldl_insert_inj hσ (fun c => (GroupKeyPart.fromValue (r.cells c)).toJson) ..

/-- **The text names the group**: rows have the same text if and only if they have the
same key. -/
theorem groupText_eq_iff (hσ : σ.Distinct) {cols : List σ.Col} (hcols : TextColumns cols)
    {r s : Row σ} : groupText cols r = groupText cols s ↔ groupKey cols r = groupKey cols s := by
  constructor
  · intro h
    have hplain : ∀ r : Row σ, ∀ n ∈ cols.map σ.columnName,
        (((keyMap cols (groupKey cols r)).get? n).getD .null).Plain := by
      intro r n hn
      obtain ⟨c, hc, rfl⟩ := mem_map.mp hn
      rw [get?_keyMap hσ, if_pos hc]
      exact GroupKeyPart.toJson_fromValue_plain (r.typed c) (hcols c hc).1
    have hvalues := groupKeyCanonical_inj (hplain r) (hplain s) h
    refine map_congr_left fun c hc => ?_
    have hvalue := hvalues _ (mem_map_of_mem hc)
    rw [get?_keyMap hσ, get?_keyMap hσ, if_pos hc, if_pos hc] at hvalue
    exact GroupKeyPart.fromValue_eq_of_toJson (r.typed c) (s.typed c) (hcols c hc).1
      (hcols c hc).2 hvalue
  · intro h
    rw [groupText, groupText, h]

end Render

end CqServer
