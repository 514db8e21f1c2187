/-
# `Store.Words` — tables of words of one width

A table is the concatenation of its words, each encoded to the same number
of entries.  What lies at the place of a word is its code (`fieldAt_flatMap`),
also behind a header (`fieldAt_append_right`).
-/
import Mathlib.Algebra.Ring.Nat
import Mathlib.Data.List.Basic

namespace Sld.Store

universe u v

variable {α : Type u} {ν : Type v}

/-- The part of a table of a given width, where the table has it. -/
def fieldAt (table : List α) (offset width : ℕ) : Option (List α) :=
  if offset + width ≤ table.length then some ((table.drop offset).take width) else none

theorem fieldAt_append_right (header table : List α) (offset width : ℕ) :
    fieldAt (header ++ table) (header.length + offset) width = fieldAt table offset width := by
  have hdrop : (header ++ table).drop (header.length + offset) = table.drop offset := by
    rw [← List.drop_drop, List.drop_left]
  have hle : header.length + offset + width ≤ (header ++ table).length
      ↔ offset + width ≤ table.length := by
    rw [List.length_append]
    omega
  by_cases h : offset + width ≤ table.length
  · simp only [fieldAt, hdrop, if_pos h, if_pos (hle.mpr h)]
  · simp only [fieldAt, if_neg h, if_neg fun hin => h (hle.mp hin)]

theorem fieldAt_append_left (table rest : List α) {offset width : ℕ}
    (h : offset + width ≤ table.length) :
    fieldAt (table ++ rest) offset width = fieldAt table offset width := by
  have hle : offset + width ≤ (table ++ rest).length := by
    rw [List.length_append]
    omega
  have htake : ((table ++ rest).drop offset).take width = (table.drop offset).take width := by
    rw [List.drop_append_of_le_length (by omega), List.take_append_of_le_length]
    rw [List.length_drop]
    omega
  simp only [fieldAt, if_pos h, if_pos hle, htake]

section encoded

variable {encode : ν → List α} {width : ℕ}

section

variable (hwidth : ∀ v, (encode v).length = width)

include hwidth

theorem length_flatMap_encode (words : List ν) :
    (words.flatMap encode).length = width * words.length := by
  induction words with
  | nil => rfl
  | cons v words ih =>
    rw [List.flatMap_cons, List.length_append, hwidth, ih, List.length_cons, Nat.mul_succ,
      Nat.add_comm]

theorem fieldAt_flatMap {words : List ν} {i : ℕ} {v : ν} (hv : words[i]? = some v) :
    fieldAt (words.flatMap encode) (width * i) width = some (encode v) := by
  induction words generalizing i with
  | nil => cases hv
  | cons w words ih =>
    rw [List.flatMap_cons]
    cases i with
    | zero =>
      obtain rfl : w = v := Option.some.inj hv
      have hle : width * 0 + width ≤ (encode w).length := by
        rw [hwidth]
        omega
      rw [fieldAt_append_left _ _ hle]
      have htake : (encode w).take width = encode w :=
        List.take_of_length_le (Nat.le_of_eq (hwidth w))
      rw [fieldAt, if_pos hle, Nat.mul_zero, List.drop_zero, htake]
    | succ i =>
      have hi : width * (i + 1) = (encode w).length + width * i := by
        rw [hwidth, Nat.mul_succ, Nat.add_comm]
      rw [hi, fieldAt_append_right]
      exact ih hv

theorem getElem?_flatMap (words : List ν) {i k : ℕ} (hk : k < width) :
    (words.flatMap encode)[width * i + k]? = words[i]?.bind fun v => (encode v)[k]? := by
  induction words generalizing i with
  | nil => rfl
  | cons w words ih =>
    have hw := hwidth w
    rw [List.flatMap_cons]
    cases i with
    | zero =>
      rw [List.getElem?_append_left (by omega), Nat.mul_zero, Nat.zero_add]
      rfl
    | succ i =>
      have hi : width * (i + 1) + k - (encode w).length = width * i + k := by
        rw [Nat.mul_succ]
        omega
      rw [List.getElem?_append_right (by rw [hw, Nat.mul_succ]; omega), hi, ih]
      rfl

theorem drop_flatMap (words : List ν) (i : ℕ) :
    (words.flatMap encode).drop (width * i) = (words.drop i).flatMap encode := by
  induction words generalizing i with
  | nil => rw [List.drop_nil, List.flatMap_nil, List.drop_nil]
  | cons w words ih =>
    cases i with
    | zero => rfl
    | succ i =>
      have hi : width * (i + 1) = (encode w).length + width * i := by
        rw [hwidth, Nat.mul_succ, Nat.add_comm]
      rw [List.flatMap_cons, hi, ← List.drop_drop, List.drop_left, ih, List.drop_succ_cons]

end

end encoded

end Sld.Store
