/-
# `Text.Numeral` — decimal numbers as text, the way the standard library writes and reads them

A state file is lines of fields, and most fields are machine integers
printed with `{}` and read back with `str::parse`.  This file fixes both
directions once, for the four integer types the files use:

    u32, u64   an optional `+`, then at least one digit, in range
    i64        an optional `+` or `-`, then at least one digit, in range
    usize      as u64; counts and indices are kept as `Nat`, unbounded

`Numeral` bundles the two directions with the law that reading undoes
printing, and with the only fact about the printed text the formats need:
it consists of digits and `-`, so no separator occurs in it.
-/
import Mathlib.Algebra.Ring.Int.Defs
import Mathlib.Tactic.Common

namespace Sld

/-- A piece of text, one entry a character.  Offsets into text never
matter here, so a list is a faithful image of `str`. -/
abbrev Text := List Char

/-- Texts are compared character by character. -/
instance : LawfulBEq Text := inferInstance

namespace Text

/-! ## Digits -/

/-- The decimal text of a number. -/
def decimal (n : Nat) : Text := Nat.toDigits 10 n

/-- The number a nonempty run of digits denotes. -/
def parseDigits (t : Text) : Option Nat :=
  if t ≠ [] ∧ t.all Char.isDigit then some (Nat.ofDigitChars 10 t 0) else none

variable {c : Char}

theorem isDigit_of_mem_decimal {n : Nat} (h : c ∈ decimal n) :
    c.isDigit :=
  Nat.isDigit_of_mem_toDigits (by decide) (by decide) h

theorem decimal_ne_nil (n : Nat) : decimal n ≠ [] := Nat.toDigits_ne_nil

theorem parseDigits_decimal (n : Nat) : parseDigits (decimal n) = some n := by
  have hall : (decimal n).all Char.isDigit = true :=
    List.all_eq_true.mpr fun _ hc => isDigit_of_mem_decimal hc
  rw [parseDigits, if_pos ⟨decimal_ne_nil n, hall⟩]
  exact congrArg some Nat.ofDigitChars_ten_toDigits

/-- `from_str` on an unsigned type, before the range check. -/
def parseUnsigned : Text → Option Nat
  | '+' :: t => parseDigits t
  | t => parseDigits t

/-- `from_str` on a signed type, before the range check. -/
def parseSigned : Text → Option Int
  | '+' :: t => (parseDigits t).map Int.ofNat
  | '-' :: t => (parseDigits t).map fun n => -(n : Int)
  | t => (parseDigits t).map Int.ofNat

/-- The text of a signed number. -/
def signedDecimal : Int → Text
  | .ofNat n => decimal n
  | .negSucc n => '-' :: decimal (n + 1)

theorem decimal_cases (n : Nat) : ∃ c t, decimal n = c :: t ∧ c ≠ '+' ∧ c ≠ '-' := by
  cases h : decimal n with
  | nil => exact absurd h (decimal_ne_nil n)
  | cons c t =>
    have hc : c.isDigit := isDigit_of_mem_decimal (h ▸ List.mem_cons_self)
    refine ⟨c, t, rfl, ?_, ?_⟩
    · rintro rfl; exact absurd hc (by decide)
    · rintro rfl; exact absurd hc (by decide)

theorem parseUnsigned_decimal (n : Nat) : parseUnsigned (decimal n) = some n := by
  obtain ⟨c, t, h, hplus, _⟩ := decimal_cases n
  rw [← parseDigits_decimal n, h]
  unfold parseUnsigned
  split
  · rename_i h'; exact absurd (List.cons.inj h').1 hplus
  · rfl

theorem parseSigned_decimal (n : Nat) : parseSigned (decimal n) = some (n : Int) := by
  obtain ⟨c, t, h, hplus, hminus⟩ := decimal_cases n
  have hp := parseDigits_decimal n
  rw [h] at hp ⊢
  unfold parseSigned
  split
  · rename_i h'; exact absurd (List.cons.inj h').1 hplus
  · rename_i h'; exact absurd (List.cons.inj h').1 hminus
  · rw [hp]; rfl

theorem parseSigned_signedDecimal : ∀ i : Int, parseSigned (signedDecimal i) = some i
  | .ofNat n => parseSigned_decimal n
  | .negSucc n => by
    show (parseDigits (decimal (n + 1))).map (fun n => -(n : Int)) = _
    rw [parseDigits_decimal]
    rfl

/-! ## The numeral types -/

/-- A character of a printed number. -/
def IsNumeric (c : Char) : Prop := c.isDigit ∨ c = '-'

/-- An integer type as the text formats use it. -/
class Numeral (α : Type) where
  /-- `{}` -/
  render : α → Text
  /-- `str::parse` -/
  parse : Text → Option α
  parse_render : ∀ a, parse (render a) = some a
  numeric_of_mem : ∀ {a : α} {c : Char}, c ∈ render a → IsNumeric c
  parse_absent : parse ['-'] = none

attribute [simp] Numeral.parse_render

/-- Keep a number when it is within the bound of its type. -/
def inRange (α : Type) (ofNat : Nat → α) (size : Nat) (n : Option Nat) : Option α :=
  n.bind fun n => if n < size then some (ofNat n) else none

instance : Numeral Nat where
  render := decimal
  parse := parseUnsigned
  parse_render := parseUnsigned_decimal
  numeric_of_mem h := .inl (isDigit_of_mem_decimal h)
  parse_absent := by decide

instance : Numeral UInt32 where
  render n := decimal n.toNat
  parse t := inRange UInt32 UInt32.ofNat UInt32.size (parseUnsigned t)
  parse_render n := by
      simp [inRange, parseUnsigned_decimal, n.toNat_lt_size]
  numeric_of_mem h := .inl (isDigit_of_mem_decimal h)
  parse_absent := by decide

instance : Numeral UInt64 where
  render n := decimal n.toNat
  parse t := inRange UInt64 UInt64.ofNat UInt64.size (parseUnsigned t)
  parse_render n := by
      simp [inRange, parseUnsigned_decimal, n.toNat_lt_size]
  numeric_of_mem h := .inl (isDigit_of_mem_decimal h)
  parse_absent := by decide

theorem numeric_of_mem_signedDecimal : ∀ {i : Int} {c : Char}, c ∈ signedDecimal i → IsNumeric c
  | .ofNat _, _, h => .inl (isDigit_of_mem_decimal h)
  | .negSucc _, c, h => by
    rcases List.mem_cons.mp h with rfl | h
    · exact .inr rfl
    · exact .inl (isDigit_of_mem_decimal h)

instance : Numeral Int64 where
  render i := signedDecimal i.toInt
  parse t := (parseSigned t).bind fun i =>
    if -2 ^ 63 ≤ i ∧ i < 2 ^ 63 then some (Int64.ofInt i) else none
  parse_render i := by
      have hlo : -2 ^ 63 ≤ i.toInt := i.le_toInt
      have hhi : i.toInt < 2 ^ 63 := i.toInt_lt
      rw [parseSigned_signedDecimal, Option.bind_some, if_pos ⟨hlo, hhi⟩, Int64.ofInt_toInt]
  numeric_of_mem := numeric_of_mem_signedDecimal
  parse_absent := by decide

variable {α : Type}

theorem render_ne_absent [Numeral α] (a : α) : Numeral.render a ≠ ['-'] := by
  intro h
  have := Numeral.parse_render a
  rw [h, Numeral.parse_absent] at this
  exact absurd this (by simp)

theorem not_mem_render [Numeral α] {a : α} (hc : ¬ IsNumeric c) : c ∉ (Numeral.render a : Text) :=
  fun h => hc (Numeral.numeric_of_mem h)

instance (c : Char) : Decidable (IsNumeric c) := inferInstanceAs (Decidable (_ ∨ _))

example : (Numeral.parse "18446744073709551616".toList : Option UInt64) = none := by decide

end Text

end Sld
