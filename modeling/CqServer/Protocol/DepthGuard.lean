import CqServer.TxLog.Frame

/-!
# The nesting guard

`json_depth_exceeds` scans the bytes of a document before it is decoded and tells whether its
objects and arrays are nested deeper than a limit. It is exact on every JSON document
(`jsonDepthExceeds_iff`).
-/

namespace CqServer.DepthGuard

def quote : UInt8 := 34
def backslash : UInt8 := 92
def openObject : UInt8 := 123
def closeObject : UInt8 := 125
def openArray : UInt8 := 91
def closeArray : UInt8 := 93

structure Scan where
  depth : Nat
  maxDepth : Nat
  inString : Bool
  escaped : Bool

def Scan.step (s : Scan) (b : UInt8) : Scan :=
  if s.inString then
    if s.escaped then { s with escaped := false }
    else if b = backslash then { s with escaped := true }
    else if b = quote then { s with inString := false }
    else s
  else if b = quote then { s with inString := true }
  else if b = openObject ∨ b = openArray then
    { s with depth := s.depth + 1, maxDepth := max s.maxDepth (s.depth + 1) }
  else if b = closeObject ∨ b = closeArray then { s with depth := s.depth - 1 }
  else s

/-- The loop: it returns early when a new greatest depth is over the limit. -/
def scanFrom (limit : Nat) (s : Scan) : Bytes → Bool
  | [] => decide (limit < s.maxDepth)
  | b :: bs =>
    if s.maxDepth < (s.step b).maxDepth ∧ limit < (s.step b).maxDepth then true
    else scanFrom limit (s.step b) bs

def jsonDepthExceeds (bytes : Bytes) (limit : Nat) : Bool :=
  scanFrom limit ⟨0, 0, false, false⟩ bytes

theorem Scan.le_step (s : Scan) (b : UInt8) : s.maxDepth ≤ (s.step b).maxDepth := by
  unfold step
  repeat' split
  all_goals first | exact le_rfl | exact Nat.le_max_left _ _

theorem le_scan (bs : Bytes) (s : Scan) : s.maxDepth ≤ (bs.foldl Scan.step s).maxDepth := by
  induction bs generalizing s with
  | nil => exact le_rfl
  | cons b bs ih => exact (s.le_step b).trans (ih _)

/-- Returning early changes nothing: the greatest depth never falls. -/
theorem scanFrom_iff (limit : Nat) (bs : Bytes) (s : Scan) :
    scanFrom limit s bs = true ↔ limit < (bs.foldl Scan.step s).maxDepth := by
  induction bs generalizing s with
  | nil => exact decide_eq_true_iff
  | cons b bs ih =>
    rw [scanFrom, List.foldl_cons]
    split
    · rename_i h
      exact iff_of_true rfl (h.2.trans_le (le_scan bs _))
    · exact ih _

def Whitespace (s : Bytes) : Prop := ∀ b ∈ s, b ∈ [32, 9, 10, 13]

inductive Characters : Bytes → Prop where
  | nil : Characters []
  | plain {b s} : 32 ≤ b → b ≠ quote → b ≠ backslash → Characters s → Characters (b :: s)
  /-- One of `"\/bfnrt`, or the `u` of four hexadecimal digits, which are plain characters. -/
  | escape {b s} : b ∈ [34, 92, 47, 98, 102, 110, 114, 116, 117] → Characters s →
      Characters (backslash :: b :: s)

/-- Digits, signs, points and letters: every number and every literal is such a run. -/
def Scalar (s : Bytes) : Prop :=
  s ≠ [] ∧ ∀ b ∈ s, b ∈ [43, 45, 46, 69] ∨ (48 ≤ b ∧ b ≤ 57) ∨ (97 ≤ b ∧ b ≤ 122)

inductive Part where
  | value
  | element
  | elements
  | members

/-- The grammar of JSON, with the nesting depth of what is derived. A document is an element:
a value between whitespace. -/
inductive Derives : Part → Nat → Bytes → Prop where
  | scalar {s} : Scalar s → Derives .value 0 s
  | string {s} : Characters s → Derives .value 0 (quote :: (s ++ [quote]))
  | emptyArray {w} : Whitespace w → Derives .value 1 (openArray :: (w ++ [closeArray]))
  | array {d s} : Derives .elements d s → Derives .value (d + 1) (openArray :: (s ++ [closeArray]))
  | emptyObject {w} : Whitespace w → Derives .value 1 (openObject :: (w ++ [closeObject]))
  | object {d s} : Derives .members d s →
      Derives .value (d + 1) (openObject :: (s ++ [closeObject]))
  | element {d w s w'} : Whitespace w → Derives .value d s → Whitespace w' →
      Derives .element d (w ++ s ++ w')
  | one {d s} : Derives .element d s → Derives .elements d s
  | elements {d e s t} : Derives .elements d s → Derives .elements e t →
      Derives .elements (max d e) (s ++ 44 :: t)
  | member {d w k w' s} : Whitespace w → Characters k → Whitespace w' → Derives .element d s →
      Derives .members d (w ++ quote :: (k ++ quote :: (w' ++ 58 :: s)))
  | members {d e s t} : Derives .members d s → Derives .members e t →
      Derives .members (max d e) (s ++ 44 :: t)

/-! ## The scan of a document -/

section
variable (k m : Nat)

theorem scan_outside {s : Bytes}
    (hs : ∀ b ∈ s, b ∉ [quote, openObject, openArray, closeObject, closeArray]) :
    s.foldl Scan.step ⟨k, m, false, false⟩ = ⟨k, m, false, false⟩ := by
  induction s with
  | nil => rfl
  | cons b s ih =>
    obtain ⟨hb, hs⟩ := List.forall_mem_cons.mp hs
    simp only [List.mem_cons, List.not_mem_nil, or_false, not_or] at hb
    obtain ⟨hq, ho, ha, hco, hca⟩ := hb
    simpa [Scan.step, hq, ho, ha, hco, hca] using ih hs

theorem scan_whitespace {w : Bytes} (hw : Whitespace w) :
    w.foldl Scan.step ⟨k, m, false, false⟩ = ⟨k, m, false, false⟩ := by
  refine scan_outside k m fun b hb => ?_
  have hblank := hw b hb
  simp only [List.mem_cons, List.not_mem_nil, or_false] at hblank
  rcases hblank with rfl | rfl | rfl | rfl <;> decide

theorem scan_scalar {s : Bytes} (hs : Scalar s) :
    s.foldl Scan.step ⟨k, m, false, false⟩ = ⟨k, m, false, false⟩ := by
  refine scan_outside k m fun b hb hmem => ?_
  have hchar := hs.2 b hb
  simp only [List.mem_cons, List.not_mem_nil, or_false] at hmem
  rcases hmem with rfl | rfl | rfl | rfl | rfl <;> revert hchar <;> decide

/-- Whatever a string holds, the scan leaves it at its closing quote as it entered it. -/
theorem scan_characters {s : Bytes} (hs : Characters s) (t : Bytes) :
    (s ++ quote :: t).foldl Scan.step ⟨k, m, true, false⟩ =
      t.foldl Scan.step ⟨k, m, false, false⟩ := by
  induction hs with
  | nil => rfl
  | plain _ hq hb _ ih =>
    rw [← ih]
    simp [Scan.step, hq, hb]
  | escape _ _ ih => exact ih

end

/-- A part derived at depth `d`, scanned at depth `k`, raises the greatest depth to `k + d` and
leaves the depth as it was. -/
theorem Derives.scan {p : Part} {d : Nat} {s : Bytes} (h : Derives p d s) {k m : Nat}
    (hkm : k ≤ m) :
    s.foldl Scan.step ⟨k, m, false, false⟩ = ⟨k, max m (k + d), false, false⟩ := by
  induction h generalizing k m with
  | scalar hs => rw [scan_scalar k m hs, Nat.add_zero, Nat.max_eq_left hkm]
  | string hs => exact (scan_characters k m hs []).trans (by simp [hkm])
  | emptyArray hw | emptyObject hw =>
    rw [List.foldl_cons, List.foldl_append]
    exact congrArg (List.foldl Scan.step · _) (scan_whitespace (k + 1) (max m (k + 1)) hw)
  | @array d s _ ih | @object d s _ ih =>
    have hin := ih (Nat.le_max_right m (k + 1))
    rw [Nat.max_assoc, Nat.max_eq_right (Nat.le_add_right (k + 1) d), Nat.add_assoc,
      Nat.add_comm 1 d] at hin
    rw [List.foldl_cons, List.foldl_append]
    exact congrArg (List.foldl Scan.step · _) hin
  | element hw _ hw' ih =>
    rw [List.foldl_append, List.foldl_append, scan_whitespace k m hw, ih hkm, scan_whitespace _ _ hw']
  | one _ ih => exact ih hkm
  | @elements d e s t _ _ ihs iht | @members d e s t _ _ ihs iht =>
    rw [List.foldl_append, ihs hkm]
    refine (iht (hkm.trans (Nat.le_max_left m _))).trans ?_
    rw [Nat.max_assoc, Nat.add_max_add_left]
  | member hw hk hw' _ ih =>
    rw [List.foldl_append, scan_whitespace k m hw]
    refine (scan_characters k m hk _).trans ?_
    rw [List.foldl_append, scan_whitespace k m hw']
    exact ih hkm

/-- The guard is exact on every document, whatever its strings hold. -/
theorem jsonDepthExceeds_iff {d : Nat} {bytes : Bytes} (h : Derives .element d bytes)
    (limit : Nat) : jsonDepthExceeds bytes limit = true ↔ limit < d := by
  rw [jsonDepthExceeds, scanFrom_iff, h.scan le_rfl, Nat.zero_max, Nat.zero_add]

/-- `["}\"{"]` is nested once. -/
theorem jsonDepthExceeds_iff_quoted :
    Derives .element 1 [91, 34, 125, 92, 34, 123, 34, 93] ∧
      jsonDepthExceeds [91, 34, 125, 92, 34, 123, 34, 93] 1 = false := by
  have hchars : Characters [125, 92, 34, 123] :=
    .plain (by decide) (by decide) (by decide) <| .escape (by decide) <|
      .plain (by decide) (by decide) (by decide) .nil
  have hblank : Whitespace [] := nofun
  have hdoc : Derives .element 1 [91, 34, 125, 92, 34, 123, 34, 93] :=
    .element hblank (.array (.one (.element hblank (.string hchars) hblank))) hblank
  exact ⟨hdoc, Bool.eq_false_iff.mpr fun h => absurd ((jsonDepthExceeds_iff hdoc 1).mp h) (by decide)⟩

end CqServer.DepthGuard
