import CqServer.Host
import Mathlib.Data.String.Basic

/-!
# JSON values, objects and the publish flattener

`serde_json::Value` with its three number forms, `serde_json::Map` as the
key-ordered list a `BTreeMap` iterates, and `flatten.rs`, which turns a nested
publish into dotted paths before anything else reads it.
-/

namespace CqServer

open List

/-- `serde_json::Number`; JSON has no infinities and no NaN. -/
inductive Number where
  | posInt (n : UInt64)
  | negInt (n : Int64)
  | float (f : F64) (finite : f.isFinite = true)
  deriving DecidableEq, Repr

/-- `serde_json::Value`; an object is its entries in key order. -/
inductive Json where
  | null
  | bool (b : Bool)
  | number (n : Number)
  | string (s : String)
  | array (items : List Json)
  | object (fields : List (String × Json))
  deriving Repr, Inhabited

/-- `serde_json::Map`. -/
abbrev JsonMap := List (String × Json)

/-- What `serde_json` reads back of a map it has written. -/
abbrev Decode := JsonMap → Option JsonMap

namespace Number

/-- `Number::as_i64`: a `u64` above `i64::MAX` and a float have none. -/
def asI64 : Number → Option Int64
  | .posInt n => if n.toNat < 2 ^ 63 then some n.toInt64 else none
  | .negInt n => some n
  | .float _ _ => none

def isF64 : Number → Bool
  | .float _ _ => true
  | _ => false

variable [HostText]

def asF64 : Number → F64
  | .posInt n => HostText.f64OfInt n.toNat
  | .negInt n => HostText.f64OfInt n.toInt
  | .float f _ => f

/-- `Number::to_string`. -/
def render : Number → String
  | .posInt n => toString n.toNat
  | .negInt n => displayI64 n
  | .float f _ => HostText.jsonF64 f

end Number

/-! ## Equality

`PartialEq` of `serde_json::Value`: numbers of different forms differ, and the
two float zeros are equal. -/

def Number.partialEq : Number → Number → Bool
  | .float f _, .float g _ => f.ieeeEq g
  | m, n => m == n

mutual

def Json.partialEq : Json → Json → Bool
  | .number m, .number n => m.partialEq n
  | .array xs, .array ys => Json.itemsEq xs ys
  | .object xs, .object ys => Json.fieldsEq xs ys
  | .null, .null => true
  | .bool a, .bool b => a == b
  | .string s, .string t => s == t
  | _, _ => false

def Json.itemsEq : List Json → List Json → Bool
  | [], [] => true
  | x :: xs, y :: ys => x.partialEq y && Json.itemsEq xs ys
  | _, _ => false

def Json.fieldsEq : List (String × Json) → List (String × Json) → Bool
  | [], [] => true
  | (k, x) :: xs, (l, y) :: ys => k == l && x.partialEq y && Json.fieldsEq xs ys
  | _, _ => false

end

theorem Number.partialEq_refl (n : Number) : n.partialEq n = true := by
  cases n with
  | float f h =>
    have hn : f.isNan = false := by
      simp only [F64.isFinite, bne_iff_ne] at h
      simp [F64.isNan, h]
    simp [partialEq, F64.ieeeEq, hn]
  | posInt n | negInt n => simp [partialEq]

mutual

theorem Json.partialEq_refl : ∀ v : Json, v.partialEq v = true
  | .null => rfl
  | .bool b | .string s => by simp [Json.partialEq]
  | .number n => by rw [Json.partialEq]; exact n.partialEq_refl
  | .array xs => by rw [Json.partialEq]; exact Json.itemsEq_refl xs
  | .object xs => by rw [Json.partialEq]; exact Json.fieldsEq_refl xs

theorem Json.itemsEq_refl : ∀ xs : List Json, Json.itemsEq xs xs = true
  | [] => rfl
  | x :: xs => by
    rw [Json.itemsEq, Json.partialEq_refl x, Json.itemsEq_refl xs]
    rfl

theorem Json.fieldsEq_refl : ∀ xs : List (String × Json), Json.fieldsEq xs xs = true
  | [] => rfl
  | (k, x) :: xs => by
    rw [Json.fieldsEq, Json.partialEq_refl x, Json.fieldsEq_refl xs]
    simp

end

theorem F64.ieeeEq_trans {f g h : F64} (hfg : f.ieeeEq g = true) (hgh : g.ieeeEq h = true) :
    f.ieeeEq h = true := by
  simp only [ieeeEq, Bool.and_eq_true, Bool.or_eq_true, beq_iff_eq] at hfg hgh ⊢
  refine ⟨⟨hfg.1.1, hgh.1.2⟩, ?_⟩
  rcases hfg.2 with hbits | hzero
  · obtain rfl : f = g := by
      exact congrArg F64.mk hbits
    exact hgh.2
  · rcases hgh.2 with hbits | hzero'
    · obtain rfl : g = h := by
        exact congrArg F64.mk hbits
      exact .inr hzero
    · exact .inr ⟨hzero.1, hzero'.2⟩

theorem Number.partialEq_trans {k m n : Number} (h : k.partialEq m = true)
    (h' : m.partialEq n = true) : k.partialEq n = true := by
  cases k with
  | float f hf =>
    cases m with
    | float g hg =>
      cases n with
      | float i hi => exact F64.ieeeEq_trans h h'
      | posInt n | negInt n => cases h'
    | posInt m | negInt m => cases h
  | posInt k | negInt k =>
    obtain rfl : _ = m := by simpa [partialEq] using h
    exact h'

mutual

theorem Json.partialEq_trans : ∀ {x y z : Json}, x.partialEq y = true → y.partialEq z = true →
    x.partialEq z = true
  | .null, y, z, h, h' => by
    cases y <;> simp only [Json.partialEq, Bool.false_eq_true] at h
    exact h'
  | .bool b, y, z, h, h' | .string s, y, z, h, h' => by
    cases y <;> simp only [Json.partialEq, Bool.false_eq_true, beq_iff_eq] at h
    exact h ▸ h'
  | .number m, y, z, h, h' => by
    cases y <;> simp only [Json.partialEq, Bool.false_eq_true] at h
    cases z <;> simp only [Json.partialEq, Bool.false_eq_true] at h' ⊢
    exact Number.partialEq_trans h h'
  | .array xs, y, z, h, h' => by
    cases y <;> simp only [Json.partialEq, Bool.false_eq_true] at h
    cases z <;> simp only [Json.partialEq, Bool.false_eq_true] at h' ⊢
    exact Json.itemsEq_trans h h'
  | .object xs, y, z, h, h' => by
    cases y <;> simp only [Json.partialEq, Bool.false_eq_true] at h
    cases z <;> simp only [Json.partialEq, Bool.false_eq_true] at h' ⊢
    exact Json.fieldsEq_trans h h'

theorem Json.itemsEq_trans : ∀ {xs ys zs : List Json}, Json.itemsEq xs ys = true →
    Json.itemsEq ys zs = true → Json.itemsEq xs zs = true
  | [], ys, zs, h, h' => by
    cases ys <;> simp only [Json.itemsEq, Bool.false_eq_true] at h
    exact h'
  | x :: xs, ys, zs, h, h' => by
    cases ys <;> simp only [Json.itemsEq, Bool.false_eq_true, Bool.and_eq_true] at h
    cases zs <;> simp only [Json.itemsEq, Bool.false_eq_true, Bool.and_eq_true] at h' ⊢
    exact ⟨Json.partialEq_trans h.1 h'.1, Json.itemsEq_trans h.2 h'.2⟩

theorem Json.fieldsEq_trans : ∀ {xs ys zs : List (String × Json)}, Json.fieldsEq xs ys = true →
    Json.fieldsEq ys zs = true → Json.fieldsEq xs zs = true
  | [], ys, zs, h, h' => by
    cases ys <;> simp only [Json.fieldsEq, Bool.false_eq_true] at h
    exact h'
  | (k, x) :: xs, ys, zs, h, h' => by
    cases ys <;> simp only [Json.fieldsEq, Bool.false_eq_true, Bool.and_eq_true, beq_iff_eq] at h
    cases zs <;>
      simp only [Json.fieldsEq, Bool.false_eq_true, Bool.and_eq_true, beq_iff_eq] at h' ⊢
    exact ⟨⟨h.1.1.trans h'.1.1, Json.partialEq_trans h.1.2 h'.1.2⟩, Json.fieldsEq_trans h.2 h'.2⟩

end

/-! Values are also compared as they are, form by form. -/

mutual

def Json.beq : Json → Json → Bool
  | .number m, .number n => m == n
  | .array xs, .array ys => Json.beqItems xs ys
  | .object xs, .object ys => Json.beqFields xs ys
  | .null, .null => true
  | .bool a, .bool b => a == b
  | .string s, .string t => s == t
  | _, _ => false

def Json.beqItems : List Json → List Json → Bool
  | [], [] => true
  | x :: xs, y :: ys => x.beq y && Json.beqItems xs ys
  | _, _ => false

def Json.beqFields : List (String × Json) → List (String × Json) → Bool
  | [], [] => true
  | (k, x) :: xs, (l, y) :: ys => k == l && x.beq y && Json.beqFields xs ys
  | _, _ => false

end

mutual

theorem Json.beq_iff : ∀ v w : Json, v.beq w = true ↔ v = w
  | .number m, w => by cases w <;> simp [Json.beq]
  | .array xs, w => by cases w <;> simp [Json.beq, Json.beqItems_iff xs]
  | .object xs, w => by cases w <;> simp [Json.beq, Json.beqFields_iff xs]
  | .null, w | .bool a, w | .string s, w => by cases w <;> simp [Json.beq]

theorem Json.beqItems_iff : ∀ xs ys : List Json, Json.beqItems xs ys = true ↔ xs = ys
  | [], ys => by cases ys <;> simp [Json.beqItems]
  | x :: xs, ys => by
    cases ys <;> simp [Json.beqItems, Json.beq_iff x, Json.beqItems_iff xs]

theorem Json.beqFields_iff : ∀ xs ys : List (String × Json), Json.beqFields xs ys = true ↔ xs = ys
  | [], ys => by cases ys <;> simp [Json.beqFields]
  | (k, x) :: xs, ys => by
    cases ys <;>
      simp [Json.beqFields, Json.beq_iff x, Json.beqFields_iff xs, Prod.ext_iff]

end

instance : DecidableEq Json := fun v w => decidable_of_iff _ (Json.beq_iff v w)

/-! ## Objects -/

namespace JsonMap

def get? (m : JsonMap) (k : String) : Option Json := m.lookup k

/-- `Map::insert`: entries stay in key order, an existing key is replaced. -/
def insert (k : String) (v : Json) : JsonMap → JsonMap
  | [] => [(k, v)]
  | (k', v') :: m =>
    if k = k' then (k, v) :: m
    else if k < k' then (k, v) :: (k', v') :: m
    else (k', v') :: insert k v m

@[simp] theorem get?_nil (k : String) : get? [] k = none := rfl

theorem get?_cons (k k' : String) (v : Json) (m : JsonMap) :
    get? ((k', v) :: m) k = if k = k' then some v else get? m k := by
  by_cases h : k = k'
  · simp [get?, h]
  · have hb : (k == k') = false := by simpa using h
    simp [get?, lookup_cons, h, hb]

@[simp] theorem get?_insert_self (k : String) (v : Json) (m : JsonMap) :
    get? (insert k v m) k = some v := by
  induction m with
  | nil => simp [insert, get?_cons]
  | cons e m ih =>
    obtain ⟨k', v'⟩ := e
    simp only [insert]
    split
    · simp [get?_cons]
    split
    · simp [get?_cons]
    · rename_i hne _
      simp [get?_cons, hne, ih]

theorem get?_insert_ne {k k' : String} (h : k' ≠ k) (v : Json) (m : JsonMap) :
    get? (insert k v m) k' = get? m k' := by
  induction m with
  | nil => simp [insert, get?_cons, h]
  | cons e m ih =>
    obtain ⟨k₀, v₀⟩ := e
    simp only [insert]
    split
    · rename_i hk
      subst hk
      simp [get?_cons, h]
    · split
      · rw [get?_cons, if_neg h]
      · rw [get?_cons, get?_cons, ih]

theorem insert_comm {k k' : String} (h : k ≠ k') (v v' : Json) (m : JsonMap) :
    insert k' v' (insert k v m) = insert k v (insert k' v' m) := by
  have hkeys := lt_trichotomy k k'
  induction m with
  | nil => grind [insert]
  | cons e m ih =>
    obtain ⟨k₀, v₀⟩ := e
    have hfirst := lt_trichotomy k k₀
    have hsecond := lt_trichotomy k' k₀
    simp only [insert]
    grind [insert]

theorem get?_foldl_insert {α : Type} (name : α → String) (value : JsonMap → α → Json) {n : String}
    {l : List α} (h : ∀ a ∈ l, name a ≠ n) (m : JsonMap) :
    get? (l.foldl (fun m a => insert (name a) (value m a) m) m) n = get? m n := by
  induction l generalizing m with
  | nil => rfl
  | cons a l ih =>
    rw [foldl_cons, ih fun b hb => h b (mem_cons_of_mem _ hb)]
    exact get?_insert_ne (h a mem_cons_self).symm _ m

theorem get?_foldl_insert_of_mem {α : Type} (name : α → String) (value : JsonMap → α → Json)
    {l : List α} (h : (l.map name).Nodup) {a : α} (ha : a ∈ l) (m : JsonMap) :
    ∃ m', get? (l.foldl (fun m a => insert (name a) (value m a) m) m) (name a) =
      some (value m' a) := by
  induction l generalizing m with
  | nil => cases ha
  | cons b l ih =>
    obtain ⟨hb, hl⟩ := nodup_cons.mp h
    rcases mem_cons.mp ha with rfl | ha
    · have hne : ∀ b ∈ l, name b ≠ name a := fun b hmem heq =>
        hb (heq ▸ mem_map_of_mem hmem)
      exact ⟨m, by rw [foldl_cons, get?_foldl_insert name value hne, get?_insert_self]⟩
    · exact ih hl ha _

theorem get?_foldl_insert_inj {α : Type} [DecidableEq α] {name : α → String}
    (hname : Function.Injective name) (value : α → Json) (l : List α) (m : JsonMap) (a : α) :
    get? (l.foldl (fun m a => insert (name a) (value a) m) m) (name a) =
      if a ∈ l then some (value a) else get? m (name a) := by
  induction l generalizing m with
  | nil => rfl
  | cons b l ih =>
    rw [foldl_cons, ih]
    by_cases hb : a = b
    · simp [hb]
    · simp [hb, get?_insert_ne (hname.ne hb)]

theorem partialEq_get? {m m' : JsonMap} (h : Json.fieldsEq m m' = true) (n : String) :
    ((m.get? n).getD .null).partialEq ((m'.get? n).getD .null) = true := by
  induction m generalizing m' with
  | nil =>
    cases m' with
    | nil => rfl
    | cons e' m' => cases h
  | cons e m ih =>
    cases m' with
    | nil => cases h
    | cons e' m' =>
      obtain ⟨k', v'⟩ := e'
      simp only [Json.fieldsEq, Bool.and_eq_true, beq_iff_eq] at h
      obtain ⟨⟨rfl, hv⟩, hrest⟩ := h
      rw [get?_cons, get?_cons]
      split
      · exact hv
      · exact ih hrest

/-- Entries in key order, each key once, as a `BTreeMap` has them. -/
def Sorted (m : JsonMap) : Prop := m.Pairwise fun e e' => e.1 < e'.1

theorem mem_insert {k : String} {v : Json} {m : JsonMap} {e : String × Json}
    (h : e ∈ insert k v m) : e = (k, v) ∨ e ∈ m := by
  induction m with
  | nil => exact .inl (mem_singleton.mp h)
  | cons e' m ih =>
    simp only [insert] at h
    split at h
    · rcases mem_cons.mp h with h | h
      · exact .inl h
      · exact .inr (mem_cons_of_mem _ h)
    · split at h
      · exact mem_cons.mp h
      · rcases mem_cons.mp h with h | h
        · exact .inr (h ▸ mem_cons_self)
        · exact (ih h).imp_right (mem_cons_of_mem _)

theorem Sorted.insert {m : JsonMap} (h : m.Sorted) (k : String) (v : Json) :
    (m.insert k v).Sorted := by
  induction m with
  | nil => exact pairwise_singleton _ _
  | cons e m ih =>
    obtain ⟨hfirst, hrest⟩ := pairwise_cons.mp h
    simp only [JsonMap.insert]
    split
    · rename_i heq
      exact pairwise_cons.mpr ⟨fun e he => heq ▸ hfirst e he, hrest⟩
    · rename_i hne
      split
      · rename_i hlt
        refine pairwise_cons.mpr ⟨?_, h⟩
        intro e he
        rcases mem_cons.mp he with rfl | he
        · exact hlt
        · exact lt_trans hlt (hfirst e he)
      · rename_i hnlt
        refine pairwise_cons.mpr ⟨?_, ih hrest⟩
        intro e he
        rcases mem_insert he with rfl | he
        · exact lt_of_le_of_ne (not_lt.mp hnlt) (Ne.symm hne)
        · exact hfirst e he

theorem insert_of_lt {k : String} {m : JsonMap} (h : ∀ e ∈ m, e.1 < k) (v : Json) :
    m.insert k v = m ++ [(k, v)] := by
  induction m with
  | nil => rfl
  | cons e m ih =>
    have hlt := h e mem_cons_self
    rw [JsonMap.insert, if_neg (ne_of_gt hlt), if_neg (not_lt_of_gt hlt),
      ih fun e' he' => h e' (mem_cons_of_mem _ he')]
    rfl

theorem foldl_insert_of_sorted {α : Type} {name : α → String} (value : α → Json) {l : List α}
    (hl : l.Pairwise (name · < name ·)) {m : JsonMap} (hm : ∀ e ∈ m, ∀ a ∈ l, e.1 < name a) :
    l.foldl (fun m a => m.insert (name a) (value a)) m = m ++ l.map fun a => (name a, value a) := by
  induction l generalizing m with
  | nil => simp
  | cons a l ih =>
    obtain ⟨ha, hl⟩ := pairwise_cons.mp hl
    rw [foldl_cons, insert_of_lt (fun e he => hm e he a mem_cons_self), ih hl]
    · simp
    · refine forall_mem_append.mpr ⟨fun e he b hb => hm e he b (mem_cons_of_mem _ hb), ?_⟩
      exact forall_mem_singleton.mpr ha

end JsonMap

/-! ## Rendering -/

/-- The escapes `serde_json` writes inside a string. -/
def escapeChar (c : Char) : List Char :=
  if c = '"' then ['\\', '"']
  else if c = '\\' then ['\\', '\\']
  else if c = '\n' then ['\\', 'n']
  else if c = '\r' then ['\\', 'r']
  else if c = '\t' then ['\\', 't']
  else if c.toNat = 8 then ['\\', 'b']
  else if c.toNat = 12 then ['\\', 'f']
  else if c.toNat < 32 then
    ['\\', 'u', '0', '0', Nat.digitChar (c.toNat / 16), Nat.digitChar (c.toNat % 16)]
  else [c]

def quoteString (s : String) : String :=
  "\"" ++ String.ofList (s.toList.flatMap escapeChar) ++ "\""

section Render
variable [HostText]

mutual

/-- `Value::to_string`: compact JSON text. -/
def Json.render : Json → String
  | .null => "null"
  | .bool b => if b then "true" else "false"
  | .number n => n.render
  | .string s => quoteString s
  | .array items => "[" ++ Json.renderItems items ++ "]"
  | .object fields => "\x7b" ++ Json.renderFields fields ++ "\x7d"

def Json.renderItems : List Json → String
  | [] => ""
  | [v] => v.render
  | v :: v' :: vs => v.render ++ "," ++ Json.renderItems (v' :: vs)

def Json.renderFields : List (String × Json) → String
  | [] => ""
  | [(k, v)] => quoteString k ++ ":" ++ v.render
  | (k, v) :: f :: fs =>
    quoteString k ++ ":" ++ v.render ++ "," ++ Json.renderFields (f :: fs)

end

end Render

/-! ## Flattening -/

structure FlattenConfig where
  maxArrayIndex : Nat := 10
  maxDepth : Nat := 32

/-- The path of a member: a top-level key stands alone. -/
def memberPath (path key : String) : String :=
  if path.isEmpty then key else path ++ "." ++ key

mutual

/-- `flatten_recursive`. The source counts the depth up to `max_depth`; here
`fuel` is what is left of it, so an exhausted branch is dropped the same way. -/
def flattenRecursive (config : FlattenConfig) : Nat → String → Json → JsonMap → JsonMap
  | 0, _, _, result => result
  | fuel + 1, path, .object fields, result =>
    flattenFields config fuel path fields result
  | fuel + 1, path, .array items, result =>
    flattenItems config fuel path 0 items result
  | _ + 1, path, value, result =>
    if path.isEmpty then result else result.insert path value

def flattenFields (config : FlattenConfig) : Nat → String → List (String × Json) → JsonMap → JsonMap
  | _, _, [], result => result
  | fuel, path, (k, v) :: fs, result =>
    flattenFields config fuel path fs (flattenRecursive config fuel (memberPath path k) v result)

def flattenItems (config : FlattenConfig) : Nat → String → Nat → List Json → JsonMap → JsonMap
  | _, _, _, [], result => result
  | fuel, path, i, v :: vs, result =>
    -- Elements from `max_array_index` on are not visited.
    if config.maxArrayIndex ≤ i then result
    else flattenItems config fuel path (i + 1) vs
      (flattenRecursive config fuel (path ++ "[" ++ toString i ++ "]") v result)

end

/-- `flatten` with the default configuration, over a publish map. -/
def flattenPublishMap (m : JsonMap) : JsonMap :=
  flattenRecursive {} 32 "" (.object m) []

def Json.isNested : Json → Bool
  | .object _ => true
  | .array _ => true
  | _ => false

def mapHasNesting (m : JsonMap) : Bool := m.any fun e => e.2.isNested

/-- The flat view every publish path takes of its payload first. -/
def flatView (m : JsonMap) : JsonMap :=
  if mapHasNesting m then flattenPublishMap m else m

/-! A flattened map has no nested value left, so flattening it again, as the
replay path does with a journalled payload, changes nothing. -/

theorem mapHasNesting_insert {k : String} {v : Json} {m : JsonMap}
    (hv : v.isNested = false) (hm : mapHasNesting m = false) :
    mapHasNesting (m.insert k v) = false := by
  rw [mapHasNesting, any_eq_false] at hm ⊢
  intro e he
  rcases JsonMap.mem_insert he with rfl | he
  · exact Bool.eq_false_iff.mp hv
  · exact hm e he

section Keeps
variable (config : FlattenConfig) {P : JsonMap → Prop}

mutual

/-- What inserting a flat value keeps, the flattener keeps. -/
theorem flattenRecursive_keeps (hP : ∀ k v m, v.isNested = false → P m → P (JsonMap.insert k v m)) :
    ∀ (fuel : Nat) (path : String) (v : Json) (result : JsonMap),
      P result → P (flattenRecursive config fuel path v result)
  | 0, _, _, _, h => by simpa [flattenRecursive] using h
  | fuel + 1, path, .object fields, result, h => by
    exact flattenFields_keeps hP fuel path fields result h
  | fuel + 1, path, .array items, result, h => by
    exact flattenItems_keeps hP fuel path 0 items result h
  | fuel + 1, path, .null, result, h | fuel + 1, path, .bool b, result, h
  | fuel + 1, path, .number n, result, h | fuel + 1, path, .string s, result, h => by
    rw [flattenRecursive]
    · split
      · exact h
      · exact hP _ _ _ rfl h
    all_goals simp

theorem flattenFields_keeps (hP : ∀ k v m, v.isNested = false → P m → P (JsonMap.insert k v m)) :
    ∀ (fuel : Nat) (path : String) (fs : List (String × Json)) (result : JsonMap),
      P result → P (flattenFields config fuel path fs result)
  | _, _, [], _, h => by simpa [flattenFields] using h
  | fuel, path, (k, v) :: fs, result, h => by
    exact flattenFields_keeps hP fuel path fs _ (flattenRecursive_keeps hP fuel _ v result h)

theorem flattenItems_keeps (hP : ∀ k v m, v.isNested = false → P m → P (JsonMap.insert k v m)) :
    ∀ (fuel : Nat) (path : String) (i : Nat) (vs : List Json) (result : JsonMap),
      P result → P (flattenItems config fuel path i vs result)
  | _, _, _, [], _, h => by simpa [flattenItems] using h
  | fuel, path, i, v :: vs, result, h => by
    rw [flattenItems]
    split
    · exact h
    · exact flattenItems_keeps hP fuel path (i + 1) vs _
        (flattenRecursive_keeps hP fuel _ v result h)

end

end Keeps

theorem flatView_flat (m : JsonMap) : mapHasNesting (flatView m) = false := by
  unfold flatView
  split
  · exact flattenRecursive_keeps (P := fun m => mapHasNesting m = false) {}
      (fun _ _ _ hv hm => mapHasNesting_insert hv hm) 32 "" (.object m) [] rfl
  · rename_i h
    simpa using h

@[simp] theorem flatView_flatView (m : JsonMap) : flatView (flatView m) = flatView m := by
  conv_lhs => rw [flatView, flatView_flat m]
  rfl

end CqServer
