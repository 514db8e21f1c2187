/-
# `Arrays.Priorities` — the priority in the name of a section

Constructors and destructors have a priority, a number at the end of the name
of their section.  `.ctors` and `.dtors` count down where the arrays count up.

    initFiniPriority          the priority that a name has, if any
    sortedSection             the output section it goes to
    ArraySectionName          a name with a priority, or without a suffix
    initFiniPriority_bytes    what is read of such a name
-/
import Sld.Layout.ScriptSections

namespace Sld.Arrays

open Text (Bytes bytes)
open Layout (OutputSectionId regular)

/-! ## Names -/

def initArrayName : Bytes := bytes ".init_array"

def finiArrayName : Bytes := bytes ".fini_array"

def ctorsName : Bytes := bytes ".ctors"

def dtorsName : Bytes := bytes ".dtors"

def initArray : OutputSectionId := regular 1

def finiArray : OutputSectionId := regular 2

def u16Max : ℕ := 2 ^ 16 - 1

def isAsciiDigit (b : UInt8) : Bool := 0x30 ≤ b && b ≤ 0x39

/-- The number that decimal digits stand for. -/
def digitsValue (digits : Bytes) : ℕ := digits.foldl (fun value b => 10 * value + (b.toNat - 0x30)) 0

/-- `parse_priority_suffix`; a number above `u32::MAX` does not parse. -/
def parsePrioritySuffix (suffix : Bytes) : Option ℕ :=
  if suffix.isEmpty || !suffix.all isAsciiDigit then none
  else if digitsValue suffix < 2 ^ 32 then some (min (digitsValue suffix) u16Max)
  else none

def initFiniPriority (name : Bytes) : Option ℕ :=
  if name = initArrayName || name = finiArrayName then some u16Max
  else
    match name.dropPrefix? (initArrayName ++ bytes ".") with
    | some rest => parsePrioritySuffix rest
    | none =>
      match name.dropPrefix? (finiArrayName ++ bytes ".") with
      | some rest => parsePrioritySuffix rest
      | none =>
        if name = ctorsName || name = dtorsName then some u16Max
        else
          match name.dropPrefix? (ctorsName ++ bytes ".") with
          | some rest => (parsePrioritySuffix rest).map (u16Max - ·)
          | none =>
            match name.dropPrefix? (dtorsName ++ bytes ".") with
            | some rest => (parsePrioritySuffix rest).map (u16Max - ·)
            | none => none

/-- The rules of `prefix_section_sort`, in their order. -/
def sortRules : List (Bytes × OutputSectionId) :=
  [(initArrayName, initArray), (ctorsName, initArray), (finiArrayName, finiArray),
    (dtorsName, finiArray)]

/-- The output section of the first of these rules that matches. -/
def sortedSection (name : Bytes) : Option OutputSectionId :=
  (sortRules.find? fun rule => rule.1.isPrefixOf name).map Prod.snd

/-! ## Names with a priority -/

inductive ArrayKind where
  | initArray | finiArray | ctors | dtors

namespace ArrayKind

def name : ArrayKind → Bytes
  | initArray => initArrayName
  | finiArray => finiArrayName
  | ctors => ctorsName
  | dtors => dtorsName

def array : ArrayKind → OutputSectionId
  | initArray | ctors => Arrays.initArray
  | finiArray | dtors => Arrays.finiArray

/-- Sections that are executed from the back. -/
def isReversed : ArrayKind → Bool
  | initArray | finiArray => false
  | ctors | dtors => true

end ArrayKind

/-- The digits of a priority. -/
structure PrioritySuffix where
  digits : Bytes
  ne_nil : digits ≠ []
  all_digits : digits.all isAsciiDigit = true
  value_le : digitsValue digits ≤ u16Max

structure ArraySectionName where
  kind : ArrayKind
  suffix : Option PrioritySuffix

namespace ArraySectionName

def bytes (name : ArraySectionName) : Bytes :=
  match name.suffix with
  | none => name.kind.name
  | some suffix => name.kind.name ++ Text.bytes "." ++ suffix.digits

/-- The priority as a position in the array. -/
def priority (name : ArraySectionName) : ℕ :=
  match name.suffix with
  | none => u16Max
  | some suffix =>
    if name.kind.isReversed then u16Max - digitsValue suffix.digits
    else digitsValue suffix.digits

/-- Sections without a priority come after all others. -/
def rank (name : ArraySectionName) : ℕ :=
  if name.suffix.isSome then name.priority else u16Max + 1

theorem priority_le (name : ArraySectionName) : name.priority ≤ u16Max := by
  unfold priority
  cases hsuf : name.suffix with
  | none => exact le_refl _
  | some suffix =>
    show (if name.kind.isReversed then u16Max - digitsValue suffix.digits
      else digitsValue suffix.digits) ≤ u16Max
    split
    · exact Nat.sub_le _ _
    · exact suffix.value_le

end ArraySectionName

/-! ## What is read -/

theorem parsePrioritySuffix_digits (suffix : PrioritySuffix) :
    parsePrioritySuffix suffix.digits = some (digitsValue suffix.digits) := by
  have hempty : suffix.digits.isEmpty = false := by
    rw [List.isEmpty_eq_false_iff]
    exact suffix.ne_nil
  have hlt : digitsValue suffix.digits < 2 ^ 32 := Nat.lt_of_le_of_lt suffix.value_le (by decide)
  unfold parsePrioritySuffix
  rw [hempty, suffix.all_digits, if_neg (by decide), if_pos hlt, Nat.min_eq_left suffix.value_le]

theorem dropPrefix?_append (start rest : Bytes) :
    (start ++ rest).dropPrefix? start = some rest := Text.Scanner.dropPrefix?_eq_some.mpr rfl

theorem initFiniPriority_bytes (name : ArraySectionName) :
    initFiniPriority name.bytes = some name.priority := by
  obtain ⟨kind, suffix⟩ := name
  cases suffix with
  | none => cases kind <;> rfl
  | some suffix =>
    have hparse := parsePrioritySuffix_digits suffix
    have hconverted : (parsePrioritySuffix suffix.digits).map (u16Max - ·)
        = some (u16Max - digitsValue suffix.digits) := by rw [hparse, Option.map_some]
    -- a name with a suffix is none of the four names, and begins as only one of them
    cases kind with
    | initArray =>
      have hname : (decide (initArrayName ++ bytes "." ++ suffix.digits = initArrayName)
          || decide (initArrayName ++ bytes "." ++ suffix.digits = finiArrayName)) = false := rfl
      show initFiniPriority (initArrayName ++ bytes "." ++ suffix.digits) = _
      simp only [initFiniPriority, hname, dropPrefix?_append]
      exact hparse
    | finiArray =>
      have hname : (decide (finiArrayName ++ bytes "." ++ suffix.digits = initArrayName)
          || decide (finiArrayName ++ bytes "." ++ suffix.digits = finiArrayName)) = false := rfl
      have hinitArray : (finiArrayName ++ bytes "." ++ suffix.digits).dropPrefix?
          (initArrayName ++ bytes ".") = none := rfl
      show initFiniPriority (finiArrayName ++ bytes "." ++ suffix.digits) = _
      simp only [initFiniPriority, hname, hinitArray, dropPrefix?_append]
      exact hparse
    | ctors =>
      have hname : (decide (ctorsName ++ bytes "." ++ suffix.digits = initArrayName)
          || decide (ctorsName ++ bytes "." ++ suffix.digits = finiArrayName)) = false := rfl
      have hinitArray : (ctorsName ++ bytes "." ++ suffix.digits).dropPrefix?
          (initArrayName ++ bytes ".") = none := rfl
      have hfiniArray : (ctorsName ++ bytes "." ++ suffix.digits).dropPrefix?
          (finiArrayName ++ bytes ".") = none := rfl
      have hunsuffixed : (decide (ctorsName ++ bytes "." ++ suffix.digits = ctorsName)
          || decide (ctorsName ++ bytes "." ++ suffix.digits = dtorsName)) = false := rfl
      show initFiniPriority (ctorsName ++ bytes "." ++ suffix.digits) = _
      simp only [initFiniPriority, hname, hinitArray, hfiniArray, hunsuffixed, dropPrefix?_append]
      exact hconverted
    | dtors =>
      have hname : (decide (dtorsName ++ bytes "." ++ suffix.digits = initArrayName)
          || decide (dtorsName ++ bytes "." ++ suffix.digits = finiArrayName)) = false := rfl
      have hinitArray : (dtorsName ++ bytes "." ++ suffix.digits).dropPrefix?
          (initArrayName ++ bytes ".") = none := rfl
      have hfiniArray : (dtorsName ++ bytes "." ++ suffix.digits).dropPrefix?
          (finiArrayName ++ bytes ".") = none := rfl
      have hctors : (dtorsName ++ bytes "." ++ suffix.digits).dropPrefix?
          (ctorsName ++ bytes ".") = none := rfl
      have hunsuffixed : (decide (dtorsName ++ bytes "." ++ suffix.digits = ctorsName)
          || decide (dtorsName ++ bytes "." ++ suffix.digits = dtorsName)) = false := rfl
      show initFiniPriority (dtorsName ++ bytes "." ++ suffix.digits) = _
      simp only [initFiniPriority, hname, dropPrefix?_append]
      exact hconverted

theorem sortedSection_bytes (name : ArraySectionName) :
    sortedSection name.bytes = some name.kind.array := by
  obtain ⟨kind, suffix⟩ := name
  cases suffix with
  | none => cases kind <;> rfl
  | some suffix => cases kind <;> rfl

end Sld.Arrays
