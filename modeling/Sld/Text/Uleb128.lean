/-
# `Text.Uleb128` — numbers in groups of seven bits

A number is written from its lowest group of seven bits on; the high bit of
a byte says that another one follows.

A reader takes any number of redundant groups, so a number has an encoding
of every length from that of the shortest on.
-/
import Mathlib.Data.Nat.Log
import Mathlib.Tactic.Ring

namespace Sld.Text.Uleb128

/-- The shortest encoding. -/
def encode (n : ℕ) : List UInt8 :=
  if n < 128 then [UInt8.ofNat n] else UInt8.ofNat (n % 128 + 128) :: encode (n / 128)
termination_by n
decreasing_by omega

/-- A number and the bytes after it, unless the bytes end before it does. -/
def read : List UInt8 → Option (ℕ × List UInt8)
  | [] => none
  | b :: bs =>
    if b.toNat < 128 then some (b.toNat, bs)
    else (read bs).map fun r => (b.toNat - 128 + 128 * r.1, r.2)

variable {n : ℕ}

theorem encode_of_lt (h : n < 128) : encode n = [UInt8.ofNat n] := by
  rw [encode, if_pos h]

theorem encode_of_le (h : 128 ≤ n) :
    encode n = UInt8.ofNat (n % 128 + 128) :: encode (n / 128) := by
  rw [encode, if_neg (Nat.not_lt.mpr h)]

theorem toNat_ofNat (h : n < 256) : (UInt8.ofNat n).toNat = n := UInt8.toNat_ofNat_of_lt' h

theorem read_encode (n : ℕ) (rest : List UInt8) : read (encode n ++ rest) = some (n, rest) := by
  induction n using Nat.strongRecOn with
  | ind n ih =>
    rcases Nat.lt_or_ge n 128 with h | h
    · have hbyte : (UInt8.ofNat n).toNat = n := toNat_ofNat (by omega)
      rw [encode_of_lt h, List.cons_append, List.nil_append, read, hbyte, if_pos h]
    · have hbyte : (UInt8.ofNat (n % 128 + 128)).toNat = n % 128 + 128 := toNat_ofNat (by omega)
      rw [encode_of_le h, List.cons_append, read, hbyte, if_neg (by omega),
        ih (n / 128) (by omega), Option.map_some]
      congr 2
      omega

theorem length_encode (n : ℕ) : (encode n).length = Nat.log 128 n + 1 := by
  induction n using Nat.strongRecOn with
  | ind n ih =>
    rcases Nat.lt_or_ge n 128 with h | h
    · rw [encode_of_lt h, Nat.log_of_lt h]
      rfl
    · rw [encode_of_le h, List.length_cons, ih (n / 128) (by omega),
        Nat.log_of_one_lt_of_le (by decide) h]

end Sld.Text.Uleb128
