/-
# `Incremental.InstructionRounding` — values that are not read as they are

MOVN and MOVZ take the complement of a negative value, and read it back.
`UType`, `UiType` and `CluiType` hold the upper part of a value that was
rounded.  `CluiType` is read where it was written; the other two are read as
if the upper part were a low one.

    readsBack_movnz, readsBack_cluiType    always
    readsBack_uType, readsBack_uiType      for values near zero
-/
import Sld.Incremental.InstructionRoundTrips

namespace Sld.Incremental.Fields

open Store (Place range_eq_iff bits_eq_image image_mod_two_pow image_shiftRight testBit_image
  testBit_image_add testBit_image_outside)
open List (mem_cons_self)
open Nat (mod_lt or_zero shiftRight_eq_div_pow testBit_or zero_or)
open RelocationInstruction (aarch64 encoded opcode operand)
open Instruction (elf pattern_eq writeToValue)

variable {v : UInt64} {negative : Bool} {dest : List UInt8}

/-! ## Instructions that hold a rounded value -/

theorem encodeParts_congr {parts : List Part} {v v' : UInt64}
    (h : ∀ part ∈ parts, ∀ i, part.place.source ≤ i → i < part.place.source + part.place.len →
      (v' + part.added).toNat.testBit i = (v + part.added).toNat.testBit i) :
    encodeParts parts v' = encodeParts parts v := by
  induction parts with
  | nil => rfl
  | cons part parts ih =>
    have himage : part.place.image (v' + part.added).toNat =
        part.place.image (v + part.added).toNat := by
      refine Nat.eq_of_testBit_eq fun j => ?_
      rw [testBit_image, testBit_image]
      by_cases hj : part.place.dest ≤ j ∧ j < part.place.dest + part.place.len
      · rw [h part mem_cons_self _ (Nat.le_add_right _ _) (by omega)]
      · rw [decide_eq_false hj, Bool.false_and, Bool.false_and]
    rw [encodeParts_cons, encodeParts_cons, himage,
      ih fun part hmem => h part (List.mem_cons_of_mem _ hmem)]

theorem writeToValue_of_agree {riscV : RiscVInstruction} {value : UInt64} {sign : Bool}
    (hheld : (RelocationInstruction.riscV riscV).held = riscV.parts)
    (h : (RelocationInstruction.riscV riscV).Agree v value) :
    (elf (.riscV riscV)).writeToValue value sign dest =
      (elf (.riscV riscV)).writeToValue v negative dest := by
  have hencoded : encodeParts riscV.parts value = encodeParts riscV.parts v := by
    refine encodeParts_congr fun part hmem => h part ?_
    rw [hheld]
    exact hmem
  rw [writeToValue, writeToValue, pattern_eq,
    pattern_eq]
  show overlay (wordPattern _ _ (0 ||| encodeParts riscV.parts value)) dest = _
  rw [hencoded]
  rfl

theorem upper_again (value u : ℕ) (hu : u < 2 ^ 20)
    (hvalue : value = if u < 2 ^ (20 - 1) then u else u + (2 ^ 64 - 2 ^ 20)) :
    value / 4096 % 2 ^ 20 = u ↔ u = 0 ∨ u = 2 ^ 20 - 1 := by
  split at hvalue
  · omega
  · omega

theorem upper_small (v y : ℕ) (hy : y = (v + 0x800) % 2 ^ 64) :
    (y / 4096 % 2 ^ 20 = 0 ∨ y / 4096 % 2 ^ 20 = 2 ^ 20 - 1) ↔ (v + 0x1800) % 2 ^ 32 < 0x2000 := by
  have hmod : y % 2 ^ 32 = (v + 0x800) % 2 ^ 32 := by
    rw [hy]
    exact Nat.mod_mod_of_dvd _ (by decide)
  have hu : y / 4096 % 2 ^ 20 = (v + 0x800) % 2 ^ 32 / 4096 := by
    rw [← hmod]
    exact (Nat.mod_mul_right_div_self y 4096 (2 ^ 20)).symm
  omega

theorem toNat_uType_imm (riscV : RiscVInstruction) (v : UInt64) (negative : Bool)
    (hword : ∀ k < 20, (elf (.riscV riscV)).InField (12 + k) ∧
      (encodeParts riscV.parts v).testBit (12 + k) = (v + 0x800).toNat.testBit (12 + k))
    (h : (RelocationInstruction.riscV riscV).size ≤ dest.length) :
    ((u32FromSlice ((elf (.riscV riscV)).writeToValue v negative dest) >>> 12) &&&
      0xFFFFF).toNat = (v + 0x800).toNat / 4096 % 2 ^ 20 := by
  have hrange := range_written (.riscV riscV) v negative 20 12 12 (v + 0x800).toNat h rfl
    (fun k hk => (hword k hk).1) fun k hk => by
      show (0 ||| encodeParts riscV.parts v).testBit _ = _
      rw [zero_or, (hword k hk).2]
  rw [toNat_and_mask32 (n := 20) (by decide), toNat_shiftRight32 (by decide), toNat_u32FromSlice]
  show (_ % 2 ^ 32) >>> 12 % 2 ^ 20 = _
  rw [bits_eq_image, image_mod_two_pow, Nat.min_self, ← bits_eq_image, ← shiftRight_eq_div_pow _ 12]
  exact hrange

variable {k : ℕ}

theorem upper_part (v : UInt64) (high : ℕ) (hhigh : ∀ i < 32, high.testBit i = false)
    (hk : k < 20) : (Place.image ⟨12, 20, 12⟩ (v + 0x800).toNat ||| high).testBit (12 + k) =
      (v + 0x800).toNat.testBit (12 + k) := by
  rw [testBit_or, hhigh _ (by omega), Bool.or_false]
  exact testBit_image_add ⟨12, 20, 12⟩ _ hk

theorem readsBack_uType (h : 4 ≤ dest.length) :
    (elf (.riscV .uType)).ReadsBack v negative dest ↔
      (v.toNat + 0x1800) % 2 ^ 32 < 0x2000 := by
  obtain ⟨w, hw⟩ : ∃ w, (elf (.riscV .uType)).writeToValue v negative dest = w :=
    ⟨_, rfl⟩
  have himm := toNat_uType_imm .uType v negative (fun k hk =>
    ⟨⟨(12, 32), mem_cons_self, Nat.le_add_right _ _, Nat.add_lt_add_left hk 12⟩,
      upper_part v 0 (fun i _ => Nat.zero_testBit i) hk⟩) h
  rw [hw] at himm
  have hvalue := toNat_signedResult ((u32FromSlice w >>> 12) &&& 0xFFFFF) 12 (by decide)
    (n := 20) rfl (by omega)
  have hread : (RelocationInstruction.riscV .uType).readValue
      ((elf (.riscV .uType)).writeToValue v negative dest) =
        ((signedResult (signExtended ((u32FromSlice w >>> 12) &&& 0xFFFFF) 12)).1 - 0x800,
          false) := by
    rw [hw]
    rfl
  obtain ⟨value, hval⟩ : ∃ value,
    (signedResult (signExtended ((u32FromSlice w >>> 12) &&& 0xFFFFF) 12)).1 = value := ⟨_, rfl⟩
  rw [hval, himm] at hvalue
  rw [hval] at hread
  have hagree : (RelocationInstruction.riscV .uType).Agree v (value - 0x800) ↔
      value.toNat / 4096 % 2 ^ 20 = (v + 0x800).toNat / 4096 % 2 ^ 20 := by
    have hpart := agree_part_iff ⟨0x800, 12, 20, 12⟩ v (value - 0x800)
    rw [← shiftRight_eq_div_pow _ 12, ← shiftRight_eq_div_pow _ 12]
    show (∀ part ∈ [(⟨0x800, 12, 20, 12⟩ : Part)], _) ↔ _
    rw [List.forall_mem_singleton, hpart]
    show (value - 0x800 + 0x800).toNat >>> 12 % 2 ^ 20 = _ ↔ _
    rw [UInt64.sub_add_cancel]
  rw [readsBack_elf_iff hread, and_iff_right_of_imp (writeToValue_of_agree rfl), hagree,
    upper_again _ _ (mod_lt _ (by decide)) hvalue, upper_small _ _ (UInt64.toNat_add v 0x800)]

theorem toNat_shiftLeft_or (hi lo : UInt64) (hlo : lo.toNat < 2 ^ 12) :
    ((hi <<< 12) ||| lo).toNat = hi.toNat * 4096 % 2 ^ 64 + lo.toNat := by
  have hshift : (hi <<< 12).toNat = (hi.toNat % 2 ^ 52) <<< 12 := by
    rw [toNat_shiftLeft64 (by decide)]
    rfl
  rw [UInt64.toNat_or, hshift, ← Nat.shiftLeft_add_eq_or_of_lt hlo]
  omega

theorem toNat_shiftLeft_or_ones (hi lo : UInt64) (hlo : 2 ^ 64 - 2 ^ 12 ≤ lo.toNat) :
    ((hi <<< 12) ||| lo).toNat = lo.toNat := by
  refine Nat.eq_of_testBit_eq fun i => ?_
  have hlt := lo.toNat_lt
  have hones : lo.toNat = 2 ^ 12 * (2 ^ 52 - 1) + lo.toNat % 2 ^ 12 := by omega
  rw [UInt64.toNat_or, testBit_or, toNat_shiftLeft64 (by decide), testBit_image]
  refine Bool.or_eq_right_iff_imp.2 fun hbit => ?_
  rw [Bool.and_eq_true, decide_eq_true_eq] at hbit
  have hrange : 12 ≤ i ∧ i < 12 + 52 := hbit.1
  rw [hones, Nat.testBit_two_pow_mul_add _ (mod_lt _ (by decide)), if_neg (by omega),
    Nat.testBit_two_pow_sub_one, decide_eq_true (by omega)]

theorem uiType_again (v upper value : ℕ) (hvalue : value = if v % 2 ^ 12 < 2 ^ 11 then
      (upper + (2 ^ 64 - 0x800)) % 2 ^ 64 * 4096 % 2 ^ 64 + v % 2 ^ 12
      else 2 ^ 64 - 2 ^ 12 + v % 2 ^ 12)
    (hupper : upper % 2 ^ 20 = (v + 0x800) % 2 ^ 64 / 4096 % 2 ^ 20) :
    ((value + 0x800) % 2 ^ 64 / 4096 % 2 ^ 20 = (v + 0x800) % 2 ^ 64 / 4096 % 2 ^ 20 ∧
      value % 2 ^ 12 = v % 2 ^ 12) ↔ 2 ^ 32 - 0x800 ≤ v % 2 ^ 32 := by
  have hbits : ∀ x : ℕ, x % 2 ^ 64 / 4096 % 2 ^ 20 = x % 2 ^ 32 / 4096 := fun x => by
    have hdiv := Nat.mod_mul_right_div_self (x % 2 ^ 64) 4096 (2 ^ 20)
    have hmod : x % 2 ^ 64 % (4096 * 2 ^ 20) = x % 2 ^ 32 := Nat.mod_mod_of_dvd _ (by decide)
    omega
  obtain ⟨z, hz⟩ : ∃ z, v % 2 ^ 32 = z := ⟨_, rfl⟩
  have hlow : v % 2 ^ 12 = z % 2 ^ 12 := by
    rw [← hz]
    exact (Nat.mod_mod_of_dvd _ (by decide)).symm
  have hadd : (v + 0x800) % 2 ^ 32 = (z + 0x800) % 2 ^ 32 := by omega
  have hlt : z < 2 ^ 32 := by omega
  rw [hbits, hadd] at hupper
  rw [hlow] at hvalue
  rw [hbits, hbits, hadd, hlow, hz]
  clear hbits hlow hadd hz
  split at hvalue
  · omega
  · omega

theorem readsBack_uiType (h : 8 ≤ dest.length) :
    (elf (.riscV .uiType)).ReadsBack v negative dest ↔
      2 ^ 32 - 0x800 ≤ v.toNat % 2 ^ 32 := by
  obtain ⟨w, hw⟩ : ∃ w, (elf (.riscV .uiType)).writeToValue v negative dest = w :=
    ⟨_, rfl⟩
  have hhigh : ∀ i < 32, (Place.image ⟨0, 12, 52⟩ (v + 0).toNat ||| 0).testBit i = false :=
    fun i hi => by
      rw [or_zero, testBit_image_outside]
      exact .inl (Nat.lt_trans hi (by decide))
  have himm := toNat_uType_imm .uiType v negative (fun k hk =>
    ⟨⟨(12, 32), mem_cons_self, Nat.le_add_right _ _, Nat.add_lt_add_left hk 12⟩,
      upper_part v _ hhigh hk⟩) h
  have hlow := range_written (.riscV .uiType) v negative 12 52 0 v.toNat h rfl
    (fun k hk => ⟨(52, 64), List.mem_cons_of_mem _ mem_cons_self, Nat.le_add_right _ _,
      Nat.add_lt_add_left hk 52⟩) (fun k hk => by
        show (0 ||| (Place.image ⟨12, 20, 12⟩ (v + 0x800).toNat |||
          (Place.image ⟨0, 12, 52⟩ (v + 0).toNat ||| 0))).testBit _ = _
        rw [zero_or, or_zero, testBit_or, testBit_image_outside, Bool.false_or, UInt64.add_zero]
        · exact testBit_image_add ⟨0, 12, 52⟩ _ hk
        · exact .inr (Nat.le_trans (by decide) (Nat.le_add_right 52 k)))
  rw [hw] at himm hlow
  obtain ⟨upper, hupper⟩ : ∃ upper,
    (signedResult (signExtended ((u32FromSlice w >>> 12) &&& 0xFFFFF) 12)).1 = upper := ⟨_, rfl⟩
  obtain ⟨lower, hlower⟩ : ∃ lower,
    (signedResult (signExtended ((u32FromSlice (w.drop 4) >>> 20) &&& 0xFFF) 20)).1 = lower :=
      ⟨_, rfl⟩
  have hread : (RelocationInstruction.riscV .uiType).readValue
      ((elf (.riscV .uiType)).writeToValue v negative dest) =
        (((upper - 0x800) <<< 12) ||| lower, false) := by
    rw [hw, ← hupper, ← hlower]
    have htake : u32FromSlice (w.take 4) = u32FromSlice w := by
      rw [u32FromSlice, List.take_take]
      rfl
    rw [← htake]
    rfl
  have himmLow : ((u32FromSlice (w.drop 4) >>> 20) &&& 0xFFF).toNat = v.toNat % 2 ^ 12 := by
    rw [toNat_and_mask32 (n := 12) (by decide), toNat_shiftRight32 (by decide),
      toNat_u32FromSlice, ofLeBytes_drop]
    show (ofLeBytes w / 256 ^ 4 % 2 ^ 32) >>> 20 % 2 ^ 12 = _
    rw [bits_eq_image, image_mod_two_pow, Nat.min_self, ← bits_eq_image,
      shiftRight_eq_div_pow, Nat.div_div_eq_div_mul]
    rw [shiftRight_eq_div_pow] at hlow
    exact hlow
  have hupperNat := toNat_signedResult ((u32FromSlice w >>> 12) &&& 0xFFFFF) 12 (by decide)
    (n := 20) rfl (by omega)
  have hlowerNat := toNat_signedResult ((u32FromSlice (w.drop 4) >>> 20) &&& 0xFFF) 20 (by decide)
    (n := 12) rfl (by omega)
  rw [hupper] at hupperNat
  rw [hlower, himmLow] at hlowerNat
  have hagree : ∀ value, (RelocationInstruction.riscV .uiType).Agree v value ↔
      (value.toNat + 0x800) % 2 ^ 64 / 4096 % 2 ^ 20 = (v.toNat + 0x800) % 2 ^ 64 / 4096 % 2 ^ 20 ∧
        value.toNat % 2 ^ 12 = v.toNat % 2 ^ 12 := by
    intro value
    have hfirst := agree_part_iff ⟨0x800, 12, 20, 12⟩ v value
    have hsecond := agree_part_iff ⟨0, 0, 12, 52⟩ v value
    show (∀ part ∈ [(⟨0x800, 12, 20, 12⟩ : Part), ⟨0, 0, 12, 52⟩], _) ↔ _
    rw [List.forall_mem_cons, List.forall_mem_singleton, hfirst, hsecond,
      ← shiftRight_eq_div_pow _ 12, ← shiftRight_eq_div_pow _ 12, UInt64.add_zero,
      UInt64.add_zero]
    rfl
  rw [readsBack_elf_iff hread, and_iff_right_of_imp (writeToValue_of_agree rfl), hagree]
  refine uiType_again v.toNat upper.toNat _ ?_ ?_
  · split
    next hsmall =>
      rw [if_pos hsmall] at hlowerNat
      rw [toNat_shiftLeft_or _ _ (by omega), hlowerNat, Nat.add_comm upper.toNat]
      rfl
    next hlarge =>
      rw [if_neg hlarge] at hlowerNat
      rw [toNat_shiftLeft_or_ones _ _ (by omega), hlowerNat, Nat.add_comm]
  · have hadd : (v + 0x800).toNat = (v.toNat + 0x800) % 2 ^ 64 := UInt64.toNat_add v 0x800
    split at hupperNat <;> omega

/-! ## `CluiType` -/

theorem readsBack_cluiType (h : 2 ≤ dest.length) :
    (elf (.riscV .cluiType)).ReadsBack v negative dest := by
  obtain ⟨w, hw⟩ : ∃ w, (elf (.riscV .cluiType)).writeToValue v negative dest = w :=
    ⟨_, rfl⟩
  have hbits : ∀ i j, (2 ≤ j ∧ j < 7) ∧ i = 10 + j ∨ j = 12 ∧ i = 17 →
      (ofLeBytes w).testBit j = (v + 0x800).toNat.testBit i := by
    intro i j hij
    have hfield : (elf (.riscV .cluiType)).InField j := by
      rcases hij with ⟨⟨hle, hlt⟩, -⟩ | ⟨rfl, -⟩
      · exact ⟨(2, 7), mem_cons_self, hle, hlt⟩
      · exact ⟨(12, 13), List.mem_cons_of_mem _ mem_cons_self, by decide, by decide⟩
    rw [← hw, @testBit_written_cleared (.elf (.riscV .cluiType)) v negative dest h rfl _ hfield]
    show (0 ||| (Place.image ⟨12, 5, 2⟩ (v + 0x800).toNat |||
          (Place.image ⟨17, 1, 12⟩ (v + 0x800).toNat ||| 0))).testBit _ = _
    rw [zero_or, or_zero, testBit_or]
    rcases hij with ⟨⟨hle, hlt⟩, rfl⟩ | ⟨rfl, rfl⟩
    · obtain ⟨k, rfl⟩ := Nat.exists_eq_add_of_le hle
      have hk : k < 5 := by omega
      have hplace := testBit_image_add ⟨12, 5, 2⟩ (v + 0x800).toNat hk
      rw [testBit_image_outside ⟨17, 1, 12⟩ _ (.inl (by show 2 + k < 12; omega)), Bool.or_false,
        ← Nat.add_assoc]
      exact hplace
    · rw [testBit_image_outside ⟨12, 5, 2⟩ _ (.inr (by decide))]
      exact testBit_image_add ⟨17, 1, 12⟩ _ (k := 0) (by decide)
  obtain ⟨nzimm, hnzimm⟩ : ∃ nzimm, ((((u16FromSlice w >>> 12) &&& 0x1) <<< 5) |||
    ((u16FromSlice w >>> 2) &&& 0x1F)) = nzimm := ⟨_, rfl⟩
  obtain ⟨hi20, hhi20⟩ : ∃ hi20, (signedResult (signExtended nzimm.toUInt32 26)) = hi20 := ⟨_, rfl⟩
  have hread : (RelocationInstruction.riscV .cluiType).readValue w =
      ((hi20.1 <<< 12) - 0x800, hi20.2) := by
    rw [← hhi20, ← hnzimm]
    rfl
  have himm : nzimm.toNat =
      Place.image ⟨12, 1, 5⟩ (ofLeBytes w) ||| Place.image ⟨2, 5, 0⟩ (ofLeBytes w) := by
    rw [← hnzimm]
    simp (disch := decide) only [UInt16.toNat_or, toNat_shiftLeft16, toNat_and_mask16 (n := 1),
      toNat_and_mask16 (n := 5), toNat_shiftRight16, toNat_u16FromSlice, image_mod_two_pow,
      image_shiftRight, UInt16.reduceToNat, Nat.reduceSub, Nat.reduceAdd]
    simp only [bits_eq_image, image_mod_two_pow]
    rfl
  have hvalue : ∀ k < 6,
      (hi20.1 <<< 12).toNat.testBit (12 + k) = (v + 0x800).toNat.testBit (12 + k) := by
    intro k hk
    have hplace := testBit_image_add ⟨0, 52, 12⟩ hi20.1.toNat (Nat.lt_trans hk (by decide))
    rw [toNat_shiftLeft64 (by decide)]
    refine hplace.trans ?_
    rw [← hhi20, testBit_signedResult _ (by decide), extended, UInt16.toNat_toUInt32,
      if_pos (by show 0 + k < 32 - 26; omega), decide_eq_true (by show 0 + k < 64; omega),
      Bool.true_and, himm, testBit_or, Nat.zero_add]
    by_cases h5 : k < 5
    · rw [testBit_image_outside ⟨12, 1, 5⟩ _ (.inl h5)]
      have hplace := testBit_image_add ⟨2, 5, 0⟩ (ofLeBytes w) h5
      rw [Nat.zero_add] at hplace
      rw [hplace]
      refine hbits (12 + k) (2 + k) (.inl ⟨⟨Nat.le_add_right _ _, ?_⟩, ?_⟩)
      · omega
      · omega
    · obtain rfl : k = 5 := by omega
      rw [testBit_image_outside ⟨2, 5, 0⟩ _ (.inr (by decide)), Bool.or_false]
      have hplace := testBit_image_add ⟨12, 1, 5⟩ (ofLeBytes w) (k := 0) (by decide)
      exact hplace.trans (hbits _ _ (.inr ⟨rfl, rfl⟩))
  have hagree : (RelocationInstruction.riscV .cluiType).Agree v ((hi20.1 <<< 12) - 0x800) := by
    show ∀ part ∈ [(⟨0x800, 12, 5, 2⟩ : Part), ⟨0x800, 17, 1, 12⟩], _
    rw [List.forall_mem_cons, List.forall_mem_singleton]
    refine ⟨fun i hle hlt => ?_, fun i hle hlt => ?_⟩
    · obtain ⟨k, rfl⟩ := Nat.exists_eq_add_of_le hle
      rw [UInt64.sub_add_cancel]
      exact hvalue k (by have : 12 + k < 12 + 5 := hlt; omega)
    · obtain rfl : i = 17 := by
        have h17 : 17 ≤ i := hle
        have h18 : i < 17 + 1 := hlt
        omega
      rw [UInt64.sub_add_cancel]
      exact hvalue 5 (by decide)
  exact (readsBack_elf_iff (hw.symm ▸ hread)).2 ⟨writeToValue_of_agree rfl hagree, hagree⟩

/-! ## `Movnz` -/

theorem testBit_not (x : UInt64) (hk : k < 64) : (~~~x).toNat.testBit k = !x.toNat.testBit k := by
  rw [← UInt64.toNat_toBitVec, BitVec.testBit_toNat, UInt64.toBitVec_not, BitVec.getLsbD_not,
    ← BitVec.testBit_toNat, UInt64.toNat_toBitVec, decide_eq_true hk, Bool.true_and]

theorem testBit_operand_movnz (x : UInt64) (negative : Bool) (hk : k < 64) :
    (operand x negative (.aarch64 .movnz)).toNat.testBit k =
      (x.toNat.testBit k ^^ negative) := by
  cases negative with
  | false => exact (Bool.xor_false _).symm
  | true => exact (testBit_not x hk).trans (Bool.xor_true _).symm

theorem encoded_movnz (x : UInt64) (negative : Bool) :
    (aarch64 .movnz).encoded x negative =
      opcode negative (.aarch64 .movnz) ||| Place.image ⟨0, 16, 5⟩
          (operand x negative (.aarch64 .movnz)).toNat := by
  rw [encoded, ← or_zero (Place.image _ _)]
  exact congrArg (fun y : UInt64 => _ ||| (Place.image ⟨0, 16, 5⟩ y.toNat ||| 0))
    (UInt64.add_zero _)

theorem readsBack_movnz (h : 4 ≤ dest.length) :
    (elf (.aarch64 .movnz)).ReadsBack v negative dest := by
  obtain ⟨w, hw⟩ : ∃ w, (elf (.aarch64 .movnz)).writeToValue v negative dest = w :=
    ⟨_, rfl⟩
  have hword : ∀ j, (elf (.aarch64 .movnz)).InField j → (ofLeBytes w).testBit j =
      ((opcode negative (.aarch64 .movnz)).testBit j ||
        (Place.image ⟨0, 16, 5⟩ (operand v negative
          (.aarch64 .movnz)).toNat).testBit j) := by
    intro j hfield
    rw [← hw, @testBit_written_cleared (.elf (.aarch64 .movnz)) v negative dest h rfl j hfield]
    show ((aarch64 .movnz).encoded v negative).testBit j = _
    rw [encoded_movnz, testBit_or]
  have himmediate : ∀ k < 16, (ofLeBytes w).testBit (5 + k) = (v.toNat.testBit k ^^ negative) := by
    intro k hk
    have hopcode : ∀ k < 16, ∀ negative, (opcode negative
      (.aarch64 .movnz)).testBit (5 + k) = false := by decide +kernel
    have hplace := testBit_image_add ⟨0, 16, 5⟩ (operand v negative
      (.aarch64 .movnz)).toNat hk
    rw [hword _ ⟨(5, 21), mem_cons_self, Nat.le_add_right _ _, Nat.add_lt_add_left hk 5⟩,
      hopcode k hk negative, Bool.false_or,
      ← testBit_operand_movnz v negative (Nat.lt_trans hk (by decide))]
    exact hplace.trans (by rw [Nat.zero_add])
  have hsign : (ofLeBytes w).testBit 30 = !negative := by
    have hopcode : ∀ negative, (opcode negative
      (.aarch64 .movnz)).testBit 30 = !negative := by decide +kernel
    rw [hword 30 (by decide), hopcode, testBit_image_outside _ _ (.inr (by decide)),
      Bool.or_false]
  obtain ⟨x, hx⟩ : ∃ x, lowBits ((u32FromSlice w).toUInt64 >>> 5) 16 = x := ⟨_, rfl⟩
  have hnegative : ((u32FromSlice w).toUInt64 &&& ((1 : UInt64) <<< 30) == 0) = negative := by
    have hbit : ((u32FromSlice w).toUInt64 &&& ((1 : UInt64) <<< UInt64.ofNat 30)).toNat =
        ((ofLeBytes w).testBit 30).toNat * 2 ^ 30 := by
      rw [UInt64.toNat_and, toNat_one_shiftLeft (by decide), Nat.and_two_pow,
        UInt32.toNat_toUInt64, toNat_u32FromSlice, Nat.testBit_mod_two_pow,
        decide_eq_true (by decide), Bool.true_and]
    rw [hsign] at hbit
    rw [Bool.eq_iff_iff, beq_iff_eq, ← UInt64.toNat_inj]
    show ((u32FromSlice w).toUInt64 &&& ((1 : UInt64) <<< UInt64.ofNat 30)).toNat = 0 ↔ _
    rw [hbit]
    cases negative <;> decide
  have hread : (aarch64 .movnz).readValue w =
      (operand x negative (.aarch64 .movnz), negative) := by
    rw [← hx]
    show ((if ((u32FromSlice w).toUInt64 &&& ((1 : UInt64) <<< 30) == 0) = true then _ else _), _) =
      _
    rw [hnegative]
    rfl
  have hvalue : ∀ k < 16,
      (operand x negative (.aarch64 .movnz)).toNat.testBit k =
        v.toNat.testBit k := by
    intro k hk
    rw [testBit_operand_movnz x negative (Nat.lt_trans hk (by decide)), ← hx]
    have hlow := toNat_lowBits_word w (a := 5) (n := 16) (by decide) (by decide)
    have hplace := testBit_image_add ⟨5, 16, 0⟩ (ofLeBytes w) hk
    rw [Nat.zero_add, himmediate k hk] at hplace
    show ((lowBits ((u32FromSlice w).toUInt64 >>> UInt64.ofNat 5) 16).toNat.testBit k ^^ negative) =
      _
    rw [hlow, hplace, Bool.xor_assoc, Bool.xor_self, Bool.xor_false]
  have hagree : (aarch64 .movnz).Agree v
      (operand x negative (.aarch64 .movnz)) := by
    show ∀ part ∈ [(⟨0, 0, 16, 5⟩ : Part)], _
    rw [List.forall_mem_singleton]
    intro i _ hlt
    rw [UInt64.add_zero, UInt64.add_zero]
    exact hvalue i (by have : i < 0 + 16 := hlt; omega)
  refine (readsBack_elf_iff (hw.symm ▸ hread)).2 ⟨?_, hagree⟩
  rw [writeToValue_eq_iff (.aarch64 .movnz) h]
  intro j _
  have himage : Place.image ⟨0, 16, 5⟩ (operand
      (operand x negative (.aarch64 .movnz)) negative
        (.aarch64 .movnz)).toNat =
      Place.image ⟨0, 16, 5⟩
        (operand v negative (.aarch64 .movnz)).toNat := by
    refine congrArg (· <<< 5) ((range_eq_iff 16 _).2 fun k hk => ?_)
    rw [Nat.zero_add, testBit_operand_movnz _ _ (Nat.lt_trans hk (by decide)), hvalue k hk,
      testBit_operand_movnz _ _ (Nat.lt_trans hk (by decide))]
  have hencoded : (aarch64 .movnz).encoded
      (operand x negative (.aarch64 .movnz)) negative =
        (aarch64 .movnz).encoded v negative := by
    rw [encoded_movnz, encoded_movnz, himage]
  show (_ || ((aarch64 .movnz).encoded _ negative).testBit j) = _
  rw [hencoded]
  rfl

end Sld.Incremental.Fields
