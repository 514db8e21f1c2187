/-
# `Text.Hex` — bytes as lower-case hexadecimal text

Paths, archive-member references and section names are stored as
hexadecimal text, so that no separator and no line break can occur in
them.  Decoding accepts both cases and rejects an odd number of digits.
-/
import Mathlib.Tactic.IntervalCases
import Sld.Text.Split

namespace Sld.Text

/-- `0`–`9`, `a`–`f`. -/
def hexDigit (n : Nat) : Char := Nat.digitChar n

/-- The value of a hexadecimal digit of either case. -/
def hexValue (c : Char) : Option Nat :=
  if '0' ≤ c ∧ c ≤ '9' then some (c.toNat - '0'.toNat)
  else if 'a' ≤ c ∧ c ≤ 'f' then some (c.toNat - 'a'.toNat + 10)
  else if 'A' ≤ c ∧ c ≤ 'F' then some (c.toNat - 'A'.toNat + 10)
  else none

def hexEncode (bs : List UInt8) : Text :=
  bs.flatMap fun b => [hexDigit (b.toNat / 16), hexDigit (b.toNat % 16)]

def hexDecode : Text → Option (List UInt8)
  | [] => some []
  | [_] => none
  | hi :: lo :: t => do
      let h ← hexValue hi
      let l ← hexValue lo
      let bs ← hexDecode t
      pure (UInt8.ofNat (16 * h + l) :: bs)

theorem hexValue_hexDigit {n : Nat} (h : n < 16) : hexValue (hexDigit n) = some n := by
  interval_cases n <;> decide

/-- A digit of an encoded text: lower-case, so in particular no separator. -/
def IsHex (c : Char) : Prop := c ∈ "0123456789abcdef".toList

instance (c : Char) : Decidable (IsHex c) := inferInstanceAs (Decidable (_ ∈ _))

theorem isHex_hexDigit {n : Nat} (h : n < 16) : IsHex (hexDigit n) := by
  interval_cases n <;> decide

variable {bs : List UInt8} {c : Char}

theorem isHex_of_mem_hexEncode (h : c ∈ hexEncode bs) : IsHex c := by
  obtain ⟨b, _, hc⟩ := List.mem_flatMap.mp h
  have hb : b.toNat < 256 := b.toNat_lt_size
  rcases List.mem_cons.mp hc with rfl | hc
  · exact isHex_hexDigit (by omega)
  · rw [List.mem_singleton.mp hc]
    exact isHex_hexDigit (by omega)

theorem hexDecode_hexEncode : ∀ bs : List UInt8, hexDecode (hexEncode bs) = some bs
  | [] => rfl
  | b :: bs => by
    have hb : b.toNat < 256 := b.toNat_lt_size
    have hsum : UInt8.ofNat (16 * (b.toNat / 16) + b.toNat % 16) = b := by
      rw [Nat.div_add_mod]
      exact UInt8.ofNat_toNat
    have hcons : hexEncode (b :: bs) =
        hexDigit (b.toNat / 16) :: hexDigit (b.toNat % 16) :: hexEncode bs := rfl
    rw [hcons, hexDecode, hexValue_hexDigit (by omega), hexValue_hexDigit (by omega),
      hexDecode_hexEncode bs]
    exact congrArg (fun x => some (x :: bs)) hsum

theorem not_mem_hexEncode (hc : ¬ IsHex c) : c ∉ hexEncode bs :=
  fun h => hc (isHex_of_mem_hexEncode h)

theorem hexEncode_ne_absent (bs : List UInt8) : hexEncode bs ≠ ['-'] := by
  intro h
  have hmem : '-' ∈ hexEncode bs := by rw [h]; exact List.mem_singleton.mpr rfl
  exact not_mem_hexEncode (by decide) hmem

theorem isPlain_hexEncode (bs : List UInt8) : IsPlain (hexEncode bs) :=
  ⟨not_mem_hexEncode (by decide), not_mem_hexEncode (by decide), not_mem_hexEncode (by decide)⟩

end Sld.Text
