/-
# `Incremental.InstructionCalls` — calls of two instructions

A LoongArch64 call is two instructions, and its offset is in both.  The two
words of `Call30` are exchanged when they are read, and those of `Call36` are
read without taking back what was added to the upper part.

    readsBack_call30, readsBack_call36   when they are read back
    readsBack_iff                        for all instructions
-/
import Sld.Incremental.InstructionRounding

namespace Sld.Incremental.Fields

open Store (Place bits_eq_image image_mod_two_pow image_shiftRight testBit_image testBit_image_add
  testBit_image_outside)
open RelocationInstruction (loongArch64)
open Instruction (elf)
open UInt64 (add_zero)

variable {v : UInt64} {negative : Bool} {dest : List UInt8}

/-! ## Two words -/

theorem testBit_of_lt {x n i : ℕ} (h : x < 2 ^ n) (hi : n ≤ i) : x.testBit i = false :=
  Nat.testBit_lt_two_pow (Nat.lt_of_lt_of_le h (Nat.pow_le_pow_right (by decide) hi))

theorem toNat_lower_word (w : List UInt8) :
    (u64FromSlice w).toUInt32.toNat = ofLeBytes w % 2 ^ 32 := by
  rw [UInt64.toNat_toUInt32, toNat_u64FromSlice]
  exact Nat.mod_mod_of_dvd _ (by decide)

theorem toNat_upper_word (w : List UInt8) :
    (u64FromSlice w >>> 32).toUInt32.toNat = (ofLeBytes w >>> 32) % 2 ^ 32 := by
  rw [UInt64.toNat_toUInt32, toNat_shiftRight64 (by decide), toNat_u64FromSlice]
  show ((ofLeBytes w % 2 ^ 64) >>> 32) % 2 ^ 32 % 2 ^ 32 = _
  rw [Nat.mod_mod, bits_eq_image, image_mod_two_pow]
  rfl

theorem toNat_word_bits {insn : UInt32} {w s : ℕ} (mask : UInt32) (a n : ℕ)
    (hinsn : insn.toNat = (w >>> s) % 2 ^ 32)
    (hmask : mask.toNat = 2 ^ n - 1) (ha : a < 32) (hn : a + n ≤ 32) :
    ((insn >>> UInt32.ofNat a) &&& mask).toNat = (w >>> (s + a)) % 2 ^ n := by
  have hsize : (UInt32.ofNat a).toNat = a := UInt32.toNat_ofNat_of_lt' (Nat.lt_trans ha (by decide))
  rw [toNat_and_mask32 hmask, toNat_shiftRight32 (by omega), hsize, hinsn, bits_eq_image n _ a,
    image_mod_two_pow, image_shiftRight, Nat.min_eq_left (by omega), bits_eq_image]

/-! ## `Call36` -/

theorem half_or (high low : ℕ) (hlow : low < 2 ^ 16) : (high * 65536 + 0x8000) ||| low =
      high * 65536 + if low < 0x8000 then 0x8000 + low else low := by
  have hhigh : ∀ {n : ℕ}, n < 2 ^ 16 → high * 65536 + n = high <<< 16 ||| n := fun h => by
    rw [← Nat.shiftLeft_add_eq_or_of_lt h, Nat.shiftLeft_eq]
  have hhalf : ∀ {n : ℕ}, n < 2 ^ 15 → 0x8000 + n = 0x8000 ||| n := fun {n} h =>
    (Nat.shiftLeft_add_eq_or_of_lt h 1).trans rfl
  rw [hhigh (by decide), Nat.or_assoc]
  split
  next hsmall => rw [hhigh (by omega), hhalf (by omega)]
  next hlarge =>
    obtain ⟨n, rfl⟩ := Nat.exists_eq_add_of_le (Nat.le_of_not_lt hlarge)
    rw [hhigh hlow, hhalf (by omega), ← Nat.or_assoc 0x8000, Nat.or_self]

theorem call36_again (v high low value : ℕ) (hv : v + 0x8000 < 2 ^ 36)
    (hhigh : high = (v + 0x8000) / 65536) (hlow : low = v % 65536)
    (hvalue : value = ((high * 65536 + (2 ^ 64 - 0x8000)) % 2 ^ 32) ||| low) :
    (value % 65536 = v % 65536 ∧
        (value + 0x8000) / 65536 % 2 ^ 20 = (v + 0x8000) / 65536 % 2 ^ 20) ↔
      v < 2 ^ 32 ∧ 0x8000 ≤ v % 65536 := by
  have hhalf : (high * 65536 + (2 ^ 64 - 0x8000)) % 2 ^ 32 =
      (high + (2 ^ 16 - 1)) % 2 ^ 16 * 65536 + 0x8000 := by omega
  rw [hhalf, half_or _ _ (by omega)] at hvalue
  subst hhigh hlow
  split at hvalue <;> omega

theorem encoded_call36 (x : UInt64) (negative : Bool) :
    (loongArch64 .call36).encoded x negative =
      Place.image ⟨0, 16, 42⟩ x.toNat ||| Place.image ⟨16, 48, 5⟩ (x + 0x8000).toNat := by
  show 0 ||| (Place.image ⟨0, 16, 42⟩ (x + 0).toNat |||
    (Place.image ⟨16, 48, 5⟩ (x + 0x8000).toNat ||| 0)) = _
  rw [Nat.zero_or, Nat.or_zero, add_zero]

theorem readsBack_call36 (h : 8 ≤ dest.length)
    (hrange : (elf (.loongArch64 .call36)).InRange v negative) :
    (elf (.loongArch64 .call36)).ReadsBack v negative dest ↔
      v.toNat < 2 ^ 32 ∧ 0x8000 ≤ v.toNat % 65536 := by
  have hv : v.toNat < 2 ^ 36 := by
    have hpart := hrange ⟨0, 0, 16, 42⟩ List.mem_cons_self
    rwa [add_zero] at hpart
  have hround : (v + 0x8000).toNat < 2 ^ 36 :=
    hrange ⟨0x8000, 16, 48, 5⟩ (List.mem_cons_of_mem _ List.mem_cons_self)
  have hadd : (v + 0x8000).toNat = v.toNat + 0x8000 := by
    rw [UInt64.toNat_add]
    exact Nat.mod_eq_of_lt (by show v.toNat + 0x8000 < 2 ^ 64; omega)
  obtain ⟨w, hw⟩ : ∃ w, (elf (.loongArch64 .call36)).writeToValue v negative dest = w :=
    ⟨_, rfl⟩
  have hhigh := range_written (.loongArch64 .call36) v negative 20 5 16 (v + 0x8000).toNat h rfl
    (fun k hk => ⟨(5, 25), List.mem_cons_self, Nat.le_add_right _ _, Nat.add_lt_add_left hk 5⟩)
    (fun k hk => by
      rw [encoded_call36, Nat.testBit_or,
        testBit_image_outside ⟨0, 16, 42⟩ _ (.inl (by show 5 + k < 42; omega)), Bool.false_or]
      exact testBit_image_add ⟨16, 48, 5⟩ _ (Nat.lt_trans hk (by decide)))
  have hlow := range_written (.loongArch64 .call36) v negative 16 42 0 v.toNat h rfl
    (fun k hk => ⟨(42, 58), List.mem_cons_of_mem _ List.mem_cons_self, Nat.le_add_right _ _,
      Nat.add_lt_add_left hk 42⟩)
    (fun k hk => by
      have hzero : (Place.image ⟨16, 48, 5⟩ (v + 0x8000).toNat).testBit (42 + k) = false := by
        rw [testBit_image, testBit_of_lt hround, Bool.and_false]
        show 36 ≤ 16 + (42 + k - 5)
        omega
      rw [encoded_call36, Nat.testBit_or, hzero, Bool.or_false]
      exact testBit_image_add ⟨0, 16, 42⟩ _ hk)
  rw [hw] at hhigh hlow
  obtain ⟨high, hhighPart⟩ : ∃ high,
    (((u64FromSlice w).toUInt32 >>> 5) &&& 0xFFFFF).toUInt64 = high := ⟨_, rfl⟩
  obtain ⟨low, hlowPart⟩ : ∃ low,
    (((u64FromSlice w >>> 32).toUInt32 >>> 10) &&& 0xFFFF).toUInt64 = low := ⟨_, rfl⟩
  have hhighNat : high.toNat = (v.toNat + 0x8000) / 65536 := by
    have hbits := toNat_word_bits (s := 0) 0xFFFFF 5 20 (toNat_lower_word w) (by decide)
      (by decide) (by decide)
    rw [← hhighPart]
    refine hbits.trans (hhigh.trans ?_)
    rw [Nat.shiftRight_eq_div_pow, hadd]
    exact Nat.mod_eq_of_lt (by omega)
  have hlowNat : low.toNat = v.toNat % 65536 := by
    have hbits := toNat_word_bits 0xFFFF 10 16 (toNat_upper_word w) (by decide) (by decide)
      (by decide)
    rw [← hlowPart]
    exact hbits.trans hlow
  have hread : (loongArch64 .call36).readValue w =
      ((((high <<< 16) - 0x8000) &&& 0xFFFFFFFF) ||| low, false) := by
    rw [← hhighPart, ← hlowPart]
    rfl
  obtain ⟨value, hval⟩ : ∃ value,
    (((high <<< 16) - 0x8000) &&& 0xFFFFFFFF) ||| low = value := ⟨_, rfl⟩
  have hvalue : value.toNat =
      ((high.toNat * 65536 + (2 ^ 64 - 0x8000)) % 2 ^ 32) ||| low.toNat := by
    have hshift : (high <<< 16).toNat = high.toNat * 65536 := by
      rw [UInt64.toNat_shiftLeft, Nat.shiftLeft_eq]
      exact Nat.mod_eq_of_lt (by show high.toNat * 65536 < 2 ^ 64; omega)
    rw [← hval, UInt64.toNat_or, toNat_and_mask (n := 32) (by decide), UInt64.toNat_sub, hshift,
      Nat.add_comm (2 ^ 64 - _)]
    refine congrArg (· ||| low.toNat) ?_
    exact Nat.mod_mod_of_dvd _ (by decide)
  have hsmall : value.toNat < 2 ^ 32 := by
    rw [hvalue]
    exact Nat.or_lt_two_pow (Nat.mod_lt _ (by decide)) (by omega)
  have hadd' : (value + 0x8000).toNat = value.toNat + 0x8000 := by
    rw [UInt64.toNat_add]
    exact Nat.mod_eq_of_lt (by show value.toNat + 0x8000 < 2 ^ 64; omega)
  have hagree : (loongArch64 .call36).Agree v value ↔
      (value.toNat % 65536 = v.toNat % 65536 ∧
        (value.toNat + 0x8000) / 65536 % 2 ^ 20 = (v.toNat + 0x8000) / 65536 % 2 ^ 20) := by
    have hfirst := agree_part_iff ⟨0, 0, 16, 42⟩ v value
    have hsecond := agree_part_iff ⟨0x8000, 16, 20, 5⟩ v value
    show (∀ part ∈ [(⟨0, 0, 16, 42⟩ : Part), ⟨0x8000, 16, 20, 5⟩], _) ↔ _
    rw [List.forall_mem_cons, List.forall_mem_singleton, hfirst, hsecond, ← hadd, ← hadd',
      add_zero, add_zero, ← Nat.shiftRight_eq_div_pow _ 16,
      ← Nat.shiftRight_eq_div_pow _ 16]
    rfl
  rw [hval] at hread
  rw [readsBack_elf_iff (hw.symm ▸ hread), and_iff_right_of_imp, hagree]
  · exact call36_again v.toNat high.toNat low.toNat value.toNat (by omega) hhighNat hlowNat hvalue
  · intro hsame
    obtain ⟨hfirst, hsecond⟩ := hagree.1 hsame
    have hequal : value.toNat = v.toNat := by omega
    rw [UInt64.toNat_inj.1 hequal]
    rfl

/-! ## `Call30` -/

/-- What is read in the place of a bit: the two words are exchanged. -/
def callBit (v : UInt64) (dest : List UInt8) (i : ℕ) : Bool :=
  if i < 4 then false
  else if i < 9 then v.toNat.testBit (i + 5)
  else if i < 14 then (ofLeBytes dest).testBit (i + 28)
  else if i < 23 then v.toNat.testBit (i - 14)
  else decide (i < 28) && (ofLeBytes dest).testBit (i + 28)

theorem testBit_encoded_call30 (x : UInt64) (negative : Bool) (j : ℕ) :
    ((loongArch64 .call30).encoded x negative).testBit j =
      ((decide (42 ≤ j ∧ j < 51) && x.toNat.testBit (j - 42)) ||
        (decide (14 ≤ j ∧ j < 64) && x.toNat.testBit (j - 5))) := by
  have hencoded : (loongArch64 .call30).encoded x negative =
      Place.image ⟨0, 9, 42⟩ x.toNat ||| Place.image ⟨9, 50, 14⟩ x.toNat := by
    show 0 ||| (Place.image ⟨0, 9, 42⟩ (x + 0).toNat |||
      (Place.image ⟨9, 50, 14⟩ (x + 0).toNat ||| 0)) = _
    rw [Nat.zero_or, Nat.or_zero, add_zero]
  rw [hencoded, Nat.testBit_or, testBit_image, testBit_image]
  show ((decide (42 ≤ j ∧ j < 51) && x.toNat.testBit (0 + (j - 42))) ||
    (decide (14 ≤ j ∧ j < 64) && x.toNat.testBit (9 + (j - 14)))) = _
  rw [Nat.zero_add]
  by_cases hj : 14 ≤ j
  · rw [show 9 + (j - 14) = j - 5 by omega]
  · rw [decide_eq_false (p := 14 ≤ j ∧ j < 64) (fun h => hj h.1), Bool.false_and, Bool.false_and]

theorem inField_call30 {j : ℕ} : (elf (.loongArch64 .call30)).InField j ↔
    (5 ≤ j ∧ j < 25) ∨ (42 ≤ j ∧ j < 51) := by
  show (∃ range ∈ [(5, 25), (42, 51)], _) ↔ _
  simp only [List.exists_mem_cons_iff, List.not_mem_nil, false_and, exists_false, or_false]

theorem writtenBit_call30 (x : UInt64) (negative : Bool) (dest : List UInt8) (j : ℕ) :
    (elf (.loongArch64 .call30)).writtenBit x negative dest j =
      (((ofLeBytes dest).testBit j && !decide ((5 ≤ j ∧ j < 25) ∨ (42 ≤ j ∧ j < 51))) ||
        ((decide (42 ≤ j ∧ j < 51) && x.toNat.testBit (j - 42)) ||
          (decide (14 ≤ j ∧ j < 64) && x.toNat.testBit (j - 5)))) := by
  rw [← testBit_encoded_call30 x negative j, ← decide_eq_decide.2 inField_call30]
  rfl

theorem testBit_call30 (v : UInt64) (negative : Bool) (dest w : List UInt8) (hv : v.toNat < 2 ^ 20)
    (hw : ∀ j < 64, (ofLeBytes w).testBit j =
      (elf (.loongArch64 .call30)).writtenBit v negative dest j) (i : ℕ) :
    (LoongArch64Instruction.call30.readValue w).1.toNat.testBit i = callBit v dest i := by
  have hlow := toNat_word_bits (s := 0) 0x1FF 10 9 (toNat_lower_word w) (by decide) (by decide)
    (by decide)
  have hhigh := toNat_word_bits 0x7FFFF 5 19 (toNat_upper_word w) (by decide) (by decide)
    (by decide)
  have hread : (LoongArch64Instruction.call30.readValue w).1.toNat =
      Place.image ⟨37, 19, 9⟩ (ofLeBytes w) ||| Place.image ⟨10, 9, 0⟩ (ofLeBytes w) := by
    show (((((u64FromSlice w >>> 32).toUInt32 >>> UInt32.ofNat 5) &&& 0x7FFFF) <<< 9) |||
      (((u64FromSlice w).toUInt32 >>> UInt32.ofNat 10) &&& 0x1FF)).toUInt64.toNat = _
    rw [UInt32.toNat_toUInt64, UInt32.toNat_or, toNat_shiftLeft32 (by decide), hlow, hhigh,
      image_mod_two_pow, image_shiftRight]
    rfl
  rw [hread, Nat.testBit_or, testBit_image, testBit_image]
  have hzero : ∀ {i}, 20 ≤ i → v.toNat.testBit i = false := fun hi => testBit_of_lt hv hi
  unfold callBit
  rcases Nat.lt_or_ge i 9 with h9 | h9
  · rw [hw (10 + (i - 0)) (by omega), writtenBit_call30]
    rcases Nat.lt_or_ge i 4 with h4 | h4
    · simp (disch := omega) only [if_pos, decide_eq_true, decide_eq_false, Bool.true_and,
        Bool.false_and, Bool.or_false, Bool.not_true, Bool.and_false]
    · have hpos : 10 + (i - 0) - 5 = i + 5 := by omega
      simp (disch := omega) only [if_pos, if_neg, decide_eq_true, decide_eq_false, Bool.true_and,
        Bool.false_and, Bool.false_or, Bool.not_true, Bool.and_false, hpos]
  · rcases Nat.lt_or_ge i 28 with h28 | h28
    · have hpos : 37 + (i - 9) = i + 28 := by omega
      rw [hpos, hw _ (by omega), writtenBit_call30, hzero (by omega : 20 ≤ i + 28 - 5)]
      rcases Nat.lt_or_ge i 14 with h14 | h14
      · simp (disch := omega) only [if_pos, if_neg, decide_eq_true, decide_eq_false, Bool.true_and,
          Bool.false_and, Bool.or_false, Bool.not_false, Bool.and_true, Bool.and_false]
      · rcases Nat.lt_or_ge i 23 with h23 | h23
        · have hpos' : i + 28 - 42 = i - 14 := by omega
          simp (disch := omega) only [if_pos, if_neg, decide_eq_true, decide_eq_false,
            Bool.true_and, Bool.false_and, Bool.or_false, Bool.false_or, Bool.not_true,
            Bool.and_false, hpos']
        · simp (disch := omega) only [if_neg, decide_eq_true, decide_eq_false, Bool.true_and,
            Bool.false_and, Bool.or_false, Bool.not_false, Bool.and_true, Bool.and_false]
    · simp (disch := omega) only [if_neg, decide_eq_false, Bool.false_and, Bool.or_false]

theorem readsBack_call30 (h : 8 ≤ dest.length)
    (hrange : (elf (.loongArch64 .call30)).InRange v negative) :
    (elf (.loongArch64 .call30)).ReadsBack v negative dest ↔
      (∀ i < 20, callBit v dest i = v.toNat.testBit i) ∧
        ∀ i < 28, 20 ≤ i → callBit v dest i = true → (ofLeBytes dest).testBit (i + 5) = true := by
  have hv : v.toNat < 2 ^ 20 := by
    have hpart := hrange ⟨0, 0, 9, 42⟩ List.mem_cons_self
    rwa [add_zero] at hpart
  have hzero : ∀ {i}, 20 ≤ i → v.toNat.testBit i = false := fun hi => testBit_of_lt hv hi
  obtain ⟨⟨value, sign⟩, hread⟩ : ∃ r, (loongArch64 .call30).readValue
    ((elf (.loongArch64 .call30)).writeToValue v negative dest) = r := ⟨_, rfl⟩
  have hvalue : ∀ i, value.toNat.testBit i = callBit v dest i := fun i => by
    have hbit := testBit_call30 v negative dest _ hv
      (fun j hj => @testBit_writeToValue_eq (.loongArch64 .call30) v negative dest h j hj) i
    rw [← hbit]
    exact congrArg (fun r : UInt64 × Bool => r.1.toNat.testBit i) hread.symm
  have hagree : (loongArch64 .call30).Agree v value ↔
      ∀ i < 20, callBit v dest i = v.toNat.testBit i := by
    show (∀ part ∈ [(⟨0, 0, 9, 42⟩ : Part), ⟨0, 9, 11, 14⟩], _) ↔ _
    rw [List.forall_mem_cons, List.forall_mem_singleton, add_zero, add_zero]
    constructor
    · rintro ⟨hfirst, hsecond⟩ i hi
      rw [← hvalue]
      rcases Nat.lt_or_ge i 9 with h9 | h9
      · exact hfirst i (Nat.zero_le i) (by show i < 0 + 9; omega)
      · exact hsecond i h9 (by show i < 9 + 11; omega)
    · intro hsame
      refine ⟨fun i _ hi => ?_, fun i _ hi => ?_⟩
      · exact (hvalue i).trans (hsame i (by have : i < 0 + 9 := hi; omega))
      · exact (hvalue i).trans (hsame i hi)
  rw [readsBack_elf_iff hread, hagree, and_comm, writeToValue_eq_iff (.loongArch64 .call30) h]
  refine and_congr_right fun hsame => ?_
  have hlow : ∀ i < 20, value.toNat.testBit i = v.toNat.testBit i := fun i hi =>
    (hvalue i).trans (hsame i hi)
  constructor
  · intro hword i hi hle hbit
    have hj := hword (i + 5) (by show i + 5 < 64; omega)
    rw [writtenBit_call30, writtenBit_call30, Nat.add_sub_cancel, hvalue i, hbit, hzero hle] at hj
    simp (disch := omega) only [decide_eq_true, decide_eq_false, Bool.false_and, Bool.or_true,
      Bool.or_false, Bool.not_false, Bool.and_true, Bool.and_false] at hj
    exact hj.symm
  · intro hhigh j hj
    have hnone : ∀ {i}, 28 ≤ i → value.toNat.testBit i = false := fun {i} hi => by
      rw [hvalue, callBit]
      simp (disch := omega) only [if_neg, decide_eq_false, Bool.false_and]
    rw [writtenBit_call30, writtenBit_call30]
    rcases Nat.lt_or_ge j 25 with h25 | h25
    · rw [hlow (j - 5) (by omega)]
      simp (disch := omega) only [decide_eq_false, Bool.false_and]
    · rw [hzero (by omega : 20 ≤ j - 5)]
      rcases Nat.lt_or_ge j 33 with h33 | h33
      · rw [hvalue (j - 5)]
        have hset := hhigh (j - 5) (by omega) (by omega)
        rw [Nat.sub_add_cancel (by omega)] at hset
        simp (disch := omega) only [decide_eq_true, decide_eq_false, Bool.true_and, Bool.false_and,
          Bool.false_or, Bool.or_false, Bool.not_false, Bool.and_true]
        exact Bool.or_eq_left_iff_imp.2 hset
      · rw [hnone (by omega : 28 ≤ j - 5)]
        rcases Nat.lt_or_ge j 51 with h51 | h51
        · by_cases h42 : 42 ≤ j
          · rw [hlow (j - 42) (by omega)]
          · simp (disch := omega) only [decide_eq_false, Bool.false_and]
        · simp (disch := omega) only [decide_eq_false, Bool.false_and]

/-! ## All instructions -/

/-- When what is read is what was written. -/
def Instruction.ReadsBackWhen (v : UInt64) (negative : Bool) (dest : List UInt8) :
    Instruction → Prop
  | elf (.aarch64 .movnz) | elf (.riscV .cluiType) => True
  | elf (.riscV .uType) => (v.toNat + 0x1800) % 2 ^ 32 < 0x2000
  | elf (.riscV .uiType) => 2 ^ 32 - 0x800 ≤ v.toNat % 2 ^ 32
  | elf (.loongArch64 .call30) => (∀ i < 20, callBit v dest i = v.toNat.testBit i) ∧
      ∀ i < 28, 20 ≤ i → callBit v dest i = true → (ofLeBytes dest).testBit (i + 5) = true
  | elf (.loongArch64 .call36) => v.toNat < 2 ^ 32 ∧ 0x8000 ≤ v.toNat % 65536
  | elf instruction => instruction.KeepsValue v negative dest
  | machOLow12 => False

/-- All encodings; a value that is in range is read back exactly then. -/
theorem readsBack_iff {instruction : Instruction} (h : instruction.size ≤ dest.length)
    (hrange : instruction.InRange v negative) :
    instruction.ReadsBack v negative dest ↔ instruction.ReadsBackWhen v negative dest := by
  cases instruction with
  | machOLow12 =>
    refine ⟨?_, False.elim⟩
    rintro ⟨elf, -, -, helf, -⟩
    cases helf
  | elf instruction =>
    cases instruction with
    | aarch64 instruction =>
      cases instruction with
      | movnz => exact iff_of_true (readsBack_movnz h) trivial
      | _ => exact readsBack_direct rfl h hrange
    | riscV instruction =>
      cases instruction with
      | uiType => exact readsBack_uiType h
      | uType => exact readsBack_uType h
      | cluiType => exact iff_of_true (readsBack_cluiType h) trivial
      | _ => exact readsBack_direct rfl h hrange
    | loongArch64 instruction =>
      cases instruction with
      | call30 => exact readsBack_call30 h hrange
      | call36 => exact readsBack_call36 h hrange
      | _ => exact readsBack_direct rfl h hrange

/-- A store below a register. -/
theorem readsBack_store :
    (Instruction.elf (.riscV .sType)).ReadsBack 0xFFC false [0x23, 0x30, 0xA1, 0x00] :=
  (readsBack_iff (by decide) (by decide +kernel)).2
    ⟨fun h => absurd h (by decide), fun _ _ _ hj hend => absurd hj (Nat.not_lt.2 hend)⟩

/-- The upper part of an address is read as a small number. -/
theorem upper_part_is_low :
    (Instruction.elf (.riscV .uType)).readValue
        ((Instruction.elf (.riscV .uType)).writeToValue 0x1000 false [0x37, 0x05, 0x00, 0x00]) =
        some (0xFFFFFFFFFFFFF801, false) ∧
      ¬ ∀ (instruction : Instruction) (v : UInt64) (negative : Bool) (dest : List UInt8),
        instruction.size ≤ dest.length → instruction.InRange v negative →
          instruction.ReadsBack v negative dest := by
  refine ⟨by decide +kernel, fun h => ?_⟩
  have hback := h (.elf (.riscV .uType)) 0x1000 false [0x37, 0x05, 0x00, 0x00] (by decide)
    (by decide +kernel)
  rw [readsBack_uType (by decide)] at hback
  revert hback
  decide +kernel

end Sld.Incremental.Fields
