import CqServer.Json

/-!
# What flattening keeps

`flatten.rs`: the scalars of a nested payload become the fields of a flat one, each under its
dotted path. Paths are texts, so a literal key can be the path of another scalar (`dotted_key_lost`),
and a scalar under the empty key has no path at all. Payloads without such keys lose nothing.
-/

namespace CqServer

open List

def flatten (config : FlattenConfig) (value : Json) : JsonMap :=
  flattenRecursive config config.maxDepth "" value []

namespace Json

/-- Within the caps on depth and array length. -/
def within (config : FlattenConfig) : Nat → Json → Bool
  | 0, _ => false
  | depth + 1, .object fields => fields.all fun e => within config depth e.2
  | depth + 1, .array items =>
    items.length ≤ config.maxArrayIndex && items.all (within config depth)
  | _ + 1, _ => true

mutual

/-- The scalars of a value, each with its path. -/
def leaves (path : String) : Json → List (String × Json)
  | .object fields => leavesOfFields path fields
  | .array items => leavesOfItems path 0 items
  | scalar => [(path, scalar)]

def leavesOfFields (path : String) : List (String × Json) → List (String × Json)
  | [] => []
  | (k, v) :: fields => v.leaves (memberPath path k) ++ leavesOfFields path fields

def leavesOfItems (path : String) (i : Nat) : List Json → List (String × Json)
  | [] => []
  | v :: items =>
    v.leaves (path ++ "[" ++ toString i ++ "]") ++ leavesOfItems path (i + 1) items

end

end Json

namespace JsonMap

/-- What the flattener does with a scalar. -/
def put (m : JsonMap) (e : String × Json) : JsonMap :=
  if e.1.isEmpty then m else m.insert e.1 e.2

theorem insert_perm {k : String} {m : JsonMap} (h : k ∉ m.map Prod.fst) (v : Json) :
    (m.insert k v).Perm ((k, v) :: m) := by
  induction m with
  | nil => exact .refl _
  | cons e m ih =>
    rw [map_cons, mem_cons, not_or] at h
    rw [JsonMap.insert, if_neg h.1]
    split
    · exact .refl _
    · exact ((ih h.2).cons e).trans (.swap ..)

theorem foldl_put_perm {ls : List (String × Json)} (hnodup : (ls.map Prod.fst).Nodup)
    (hne : "" ∉ ls.map Prod.fst) {m : JsonMap}
    (hm : ∀ k ∈ ls.map Prod.fst, k ∉ m.map Prod.fst) : (ls.foldl put m).Perm (ls ++ m) := by
  induction ls generalizing m with
  | nil => exact .refl _
  | cons e ls ih =>
    obtain ⟨he, hnodup⟩ := nodup_cons.mp hnodup
    rw [map_cons, mem_cons, not_or] at hne
    have hput : put m e = m.insert e.1 e.2 := if_neg (by simpa using Ne.symm hne.1)
    have hperm := insert_perm (hm e.1 mem_cons_self) e.2
    rw [foldl_cons, hput]
    refine (ih hnodup hne.2 fun k hk hmem => ?_).trans ((hperm.append_left ls).trans perm_middle)
    rcases mem_cons.mp ((hperm.map Prod.fst).mem_iff.mp hmem) with rfl | hmem
    · exact he hk
    · exact hm k (mem_cons_of_mem _ hk) hmem

end JsonMap

open JsonMap

section
variable {config : FlattenConfig} {depth : Nat}
  (ih : ∀ path v m, v.within config depth = true →
    flattenRecursive config depth path v m = (v.leaves path).foldl put m) (path : String)
include ih

theorem flattenFields_eq {fields : List (String × Json)}
    (h : ∀ e ∈ fields, e.2.within config depth = true) (m : JsonMap) :
    flattenFields config depth path fields m = (Json.leavesOfFields path fields).foldl put m := by
  induction fields generalizing m with
  | nil => simp [flattenFields, Json.leavesOfFields]
  | cons e fields ihf =>
    obtain ⟨he, hfields⟩ := forall_mem_cons.mp h
    rw [flattenFields, Json.leavesOfFields, foldl_append, ih _ _ _ he, ihf hfields]

theorem flattenItems_eq {items : List Json} {i : Nat} (hlen : i + items.length ≤ config.maxArrayIndex)
    (h : ∀ v ∈ items, v.within config depth = true) (m : JsonMap) :
    flattenItems config depth path i items m = (Json.leavesOfItems path i items).foldl put m := by
  induction items generalizing i m with
  | nil => simp [flattenItems, Json.leavesOfItems]
  | cons v items ihi =>
    obtain ⟨hv, hitems⟩ := forall_mem_cons.mp h
    rw [length_cons] at hlen
    rw [flattenItems, if_neg (by omega), Json.leavesOfItems, foldl_append, ih _ _ _ hv,
      ihi (by omega) hitems]

end

/-- Within the caps every scalar is put, in the order of the payload. -/
theorem flattenRecursive_eq {config : FlattenConfig} {depth : Nat} (path : String) (v : Json)
    (m : JsonMap) (h : v.within config depth = true) :
    flattenRecursive config depth path v m = (v.leaves path).foldl put m := by
  induction depth generalizing path v m with
  | zero => cases h
  | succ depth ih =>
    cases v with
    | object fields =>
      rw [flattenRecursive, Json.leaves]
      exact flattenFields_eq ih path (all_eq_true.mp h) m
    | array items =>
      rw [Json.within, Bool.and_eq_true, decide_eq_true_eq] at h
      rw [flattenRecursive, Json.leaves]
      exact flattenItems_eq ih path (by omega) (all_eq_true.mp h.2) m
    | null | bool b | number n | string s =>
      rw [flattenRecursive, Json.leaves]
      · rfl
      all_goals simp

theorem leavesOfFields_flat {m : JsonMap} (h : mapHasNesting m = false) :
    Json.leavesOfFields "" m = m := by
  induction m with
  | nil => rfl
  | cons e m ih =>
    obtain ⟨k, v⟩ := e
    obtain ⟨hv, hm⟩ := Bool.or_eq_false_iff.mp h
    rw [Json.leavesOfFields, ih hm]
    cases v <;> first | rfl | cases hv

theorem flatten_flat {config : FlattenConfig} (hdepth : 2 ≤ config.maxDepth) {m : JsonMap}
    (hsorted : m.Sorted) (hpaths : ∀ e ∈ m, e.1 ≠ "") (hflat : mapHasNesting m = false) :
    flatten config (.object m) = m := by
  obtain ⟨depth, hdepth⟩ := Nat.exists_eq_add_of_le' hdepth
  have hwithin : (Json.object m).within config config.maxDepth = true := by
    rw [hdepth]
    refine all_eq_true.mpr fun e he => ?_
    have hscalar := any_eq_false.mp hflat e he
    cases hv : e.2 <;> first | rfl | exact absurd (hv ▸ rfl) hscalar
  have hput : ∀ (m' : JsonMap), ∀ e ∈ m, put m' e = m'.insert e.1 e.2 :=
    fun m' e he => if_neg (by simpa using hpaths e he)
  rw [flatten, flattenRecursive_eq "" _ [] hwithin, Json.leaves, leavesOfFields_flat hflat,
    foldl_ext _ _ _ hput]
  simpa using foldl_insert_of_sorted (m := []) Prod.snd hsorted (by simp)

/-- **Flattening**, within the caps: the flat payload has each scalar once, under its path, if and
only if the paths are distinct and none is empty. It has no nested value in any case, and is left
as it is when it is flattened again. -/
theorem flatten_lossless_iff {config : FlattenConfig} {m : JsonMap}
    (h : (Json.object m).within config config.maxDepth = true) :
    ((flatten config (.object m)).Perm ((Json.object m).leaves "") ↔
      (((Json.object m).leaves "").map Prod.fst).Nodup ∧
        "" ∉ ((Json.object m).leaves "").map Prod.fst) ∧
      mapHasNesting (flatten config (.object m)) = false ∧
      flatten config (.object (flatten config (.object m))) = flatten config (.object m) := by
  have heq : flatten config (.object m) = ((Json.object m).leaves "").foldl put [] :=
    flattenRecursive_eq "" _ [] h
  have hsorted : (flatten config (.object m)).Sorted :=
    flattenRecursive_keeps config (fun k v _ _ hm => hm.insert k v) _ _ _ _ .nil
  have hflat : mapHasNesting (flatten config (.object m)) = false :=
    flattenRecursive_keeps config (P := fun m => mapHasNesting m = false)
      (fun _ _ _ hv hm => mapHasNesting_insert hv hm) _ _ _ _ rfl
  have hpaths : ∀ e ∈ flatten config (.object m), e.1 ≠ "" := by
    rw [heq]
    refine foldlRecOn (motive := fun m : JsonMap => ∀ e ∈ m, e.1 ≠ "") _ _ (by simp) ?_
    intro m hm e _
    unfold put
    split
    · exact hm
    · rename_i hne
      intro e' he'
      rcases mem_insert he' with rfl | he'
      · simpa using hne
      · exact hm e' he'
  refine ⟨⟨?_, ?_⟩, hflat, ?_⟩
  · intro hperm
    have hkeys := hperm.map Prod.fst
    refine ⟨hkeys.nodup_iff.mp ?_, fun hmem => ?_⟩
    · exact pairwise_map.mpr (hsorted.imp fun hlt => ne_of_lt hlt)
    · obtain ⟨e, he, hempty⟩ := mem_map.mp (hkeys.mem_iff.mpr hmem)
      exact hpaths e he hempty
  · rintro ⟨hnodup, hne⟩
    rw [heq]
    simpa using foldl_put_perm hnodup hne (m := []) (by simp)
  · by_cases hdepth : 2 ≤ config.maxDepth
    · exact flatten_flat hdepth hsorted hpaths hflat
    · -- no room for a field
      obtain hzero | hone : config.maxDepth = 0 ∨ config.maxDepth = 1 := by omega
      · rw [hzero] at h
        cases h
      · rw [hone] at h
        cases m with
        | nil =>
          have hnil : flatten config (.object []) = [] := by
            rw [flatten, hone]
            rfl
          rw [hnil, hnil]
        | cons e m => cases h

/-- A quote with two bids. -/
def quotedBids : JsonMap :=
  [("px", .object [("bids", .array [.number (.posInt 10), .number (.posInt 9)]), ("ccy", .string "EUR")]),
    ("sym", .string "A")]

theorem flatten_lossless_iff_quote : (flatten {} (.object quotedBids)).Perm
    [("px.bids[0]", .number (.posInt 10)), ("px.bids[1]", .number (.posInt 9)),
      ("px.ccy", .string "EUR"), ("sym", .string "A")] :=
  (flatten_lossless_iff (by decide)).1.mpr (by decide +kernel)

theorem dotted_key_lost : flatten {} (.object [("a", .object [("b", .number (.posInt 1))]),
    ("a.b", .number (.posInt 2))]) = [("a.b", .number (.posInt 2))] := by
  decide +kernel

end CqServer
