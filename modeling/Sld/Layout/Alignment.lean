/-
# `Layout.Alignment` — rounding offsets up

An alignment is a power of two, kept as its exponent.
-/
import Mathlib.Data.Nat.ModEq
import Mathlib.Tactic.Ring

namespace Sld.Layout

def nextMultipleOf (value modulus : ℕ) : ℕ := (value + (modulus - 1)) / modulus * modulus

theorem nextMultipleOf_dvd (value modulus : ℕ) : modulus ∣ nextMultipleOf value modulus :=
  Dvd.intro_left _ rfl

theorem le_nextMultipleOf (value modulus : ℕ) (h : 0 < modulus) :
    value ≤ nextMultipleOf value modulus := by
  have hmod := Nat.mod_lt (value + (modulus - 1)) h
  have hdiv := Nat.div_add_mod' (value + (modulus - 1)) modulus
  unfold nextMultipleOf
  omega

theorem nextMultipleOf_lt (value modulus : ℕ) (h : 0 < modulus) :
    nextMultipleOf value modulus < value + modulus := by
  have hdiv := Nat.div_mul_le_self (value + (modulus - 1)) modulus
  unfold nextMultipleOf
  omega

theorem nextMultipleOf_eq_self_iff {value modulus : ℕ} (h : 0 < modulus) :
    nextMultipleOf value modulus = value ↔ modulus ∣ value := by
  constructor
  · intro heq
    rw [← heq]
    exact nextMultipleOf_dvd value modulus
  · intro hdvd
    by_contra hne
    have hle := le_nextMultipleOf value modulus h
    have hlt := nextMultipleOf_lt value modulus h
    have := Nat.le_of_dvd (by omega) (Nat.dvd_sub (nextMultipleOf_dvd value modulus) hdvd)
    omega

theorem nextMultipleOf_add {value shift modulus : ℕ} (h : modulus ∣ shift) :
    nextMultipleOf (value + shift) modulus = nextMultipleOf value modulus + shift := by
  obtain ⟨count, rfl⟩ := h
  rcases Nat.eq_zero_or_pos modulus with rfl | hpos
  · simp [nextMultipleOf]
  · have hsum : value + modulus * count + (modulus - 1) =
        value + (modulus - 1) + modulus * count := by omega
    rw [nextMultipleOf, hsum, Nat.add_mul_div_left _ _ hpos, Nat.add_mul, nextMultipleOf,
      Nat.mul_comm modulus count]

/-! ## Alignments -/

/-- An alignment, by its exponent. -/
abbrev Alignment := ℕ

namespace Alignment

def value (alignment : Alignment) : ℕ := 2 ^ alignment

def alignUp (alignment : Alignment) (value : ℕ) : ℕ := nextMultipleOf value alignment.value

/-- Returns `offset`, possibly adjusted up so that it has the same modulo as
`refOffset`. -/
def alignModulo (alignment : Alignment) (refOffset offset : ℕ) : ℕ :=
  let offset := alignUp alignment offset
  if offset % alignment.value = refOffset % alignment.value then offset
  else
    let adjustment := refOffset % alignment.value + alignment.value - offset % alignment.value
    if adjustment > alignment.value then offset + (adjustment - alignment.value)
    else offset + adjustment

variable (alignment : Alignment)

theorem value_pos : 0 < alignment.value := Nat.two_pow_pos alignment

theorem dvd_alignUp (offset : ℕ) : alignment.value ∣ alignment.alignUp offset :=
  nextMultipleOf_dvd _ _

theorem le_alignUp (offset : ℕ) : offset ≤ alignment.alignUp offset :=
  le_nextMultipleOf _ _ alignment.value_pos

theorem alignUp_eq_self_iff {offset : ℕ} :
    alignment.alignUp offset = offset ↔ alignment.value ∣ offset :=
  nextMultipleOf_eq_self_iff alignment.value_pos

variable {alignment} in
theorem value_dvd_value {larger : Alignment} (h : alignment ≤ larger) :
    alignment.value ∣ larger.value := pow_dvd_pow 2 h

theorem le_alignModulo (refOffset offset : ℕ) :
    offset ≤ alignment.alignModulo refOffset offset := by
  have hle := alignment.le_alignUp offset
  simp only [alignModulo]
  split
  · exact hle
  · split <;> omega

theorem alignModulo_modEq (refOffset offset : ℕ) :
    alignment.alignModulo refOffset offset ≡ refOffset [MOD alignment.value] := by
  have hpos := alignment.value_pos
  have hzero : alignment.alignUp offset % alignment.value = 0 :=
    Nat.mod_eq_zero_of_dvd (alignment.dvd_alignUp offset)
  obtain ⟨count, hcount⟩ := alignment.dvd_alignUp offset
  simp only [alignModulo]
  split
  case isTrue heq => exact heq
  case isFalse hne =>
    rw [hzero] at hne ⊢
    have hsmall : refOffset % alignment.value + alignment.value - 0 > alignment.value := by
      omega
    rw [if_pos hsmall, hcount]
    have hadj : refOffset % alignment.value + alignment.value - 0 - alignment.value =
        refOffset % alignment.value := by omega
    rw [hadj, Nat.ModEq, Nat.mul_add_mod, Nat.mod_mod]

end Alignment

end Sld.Layout
