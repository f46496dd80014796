import Mathlib.Data.List.Basic

/-!
# A file of records read by an offset

Records are appended to a file as texts, and taken back one by one from an offset that moves on.
What is between the offset and the end of the file is a queue of records.
-/

namespace Lib

open List

variable {α χ : Type*} {enc : α → List χ} {file : List χ} {offset : Nat} {records : List α}

/-- From the offset on the file holds these records. -/
structure Spooled (enc : α → List χ) (file : List χ) (offset : Nat) (records : List α) : Prop where
  le : offset ≤ file.length
  rest : file.drop offset = records.flatMap enc

namespace Spooled

theorem nil : Spooled enc [] 0 [] where
  le := Nat.le_refl _
  rest := rfl

theorem length (h : Spooled enc file offset records) :
    file.length - offset = (records.flatMap enc).length := by
  rw [← h.rest, length_drop]

theorem append (h : Spooled enc file offset records) (a : α) :
    Spooled enc (file ++ enc a) offset (records ++ [a]) where
  le := by
    have := h.le
    rw [length_append]
    omega
  rest := by
    rw [drop_append_of_le_length h.le, h.rest, flatMap_append, flatMap_singleton]

theorem next {a : α} (h : Spooled enc file offset (a :: records)) :
    Spooled enc file (offset + (enc a).length) records where
  le := by
    have hlen := h.length
    have hle := h.le
    rw [flatMap_cons, length_append] at hlen
    omega
  rest := by
    rw [← drop_drop, h.rest, flatMap_cons, drop_left]

theorem atEnd_iff (henc : ∀ a, enc a ≠ []) (h : Spooled enc file offset records) :
    file.length ≤ offset ↔ records = [] := by
  have hlen := h.length
  constructor
  · intro hend
    cases records with
    | nil => rfl
    | cons a records =>
      have hpos := length_pos_iff.mpr (henc a)
      rw [flatMap_cons, length_append] at hlen
      omega
  · rintro rfl
    rw [flatMap_nil, length_nil] at hlen
    omega

/-- No record is empty, so there are no more of them than symbols. -/
theorem length_le (henc : ∀ a, enc a ≠ []) (h : Spooled enc file offset records) :
    records.length ≤ file.length - offset := by
  rw [h.length]
  clear h
  induction records with
  | nil => exact Nat.zero_le _
  | cons a records ih =>
    have hpos := length_pos_iff.mpr (henc a)
    rw [flatMap_cons, length_append, length_cons]
    omega

end Spooled

end Lib
