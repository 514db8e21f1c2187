/-
# `Incremental.InstructionWords` — instructions as words of bits

What `write_to_value` does to an instruction, bit by bit.  Each kind of
instruction has the places to which it takes the bits of a value, some of
them after something was added to it, and it keeps some bits of the word.

    Instruction.writeToValue   what is written, in bytes
    Instruction.encoded        the bits that a value sets, place by place
    testBit_writeToValue       the bits of what is written
    overlay_twice_eq_iff       what is written again
-/
import Sld.Incremental.RelocationFields
import Sld.Store.BitPlaces

namespace Sld.Incremental.Fields

open Store (Place testBit_image image_mod_two_pow mod_two_pow_image image_image image_shiftRight
  shiftLeft_eq_image)
open Nat (mod_eq_of_lt or_zero pow_succ' reduceAdd reduceSub sub_le zero_or)
open UInt64 (add_zero ofNat reduceToNat toNat_and toNat_lt toNat_or toNat_toUInt32)
open AArch64Instruction (mask)

/-! ## Instructions -/

/-- `MachOLow12` is the one AArch64 instruction that no ELF relocation fills. -/
inductive Instruction where
  | elf (instruction : RelocationInstruction)
  | machOLow12

def u32FromSlice (data : List UInt8) : UInt32 := UInt32.ofNat (ofLeBytes (data.take 4))

/-- The access size of a load or store. -/
def machOScale (insn : UInt32) : UInt32 :=
  if insn &&& 0x3B000000 = 0x39000000 then
    if insn >>> 30 = 0 ∧ insn &&& 0x04800000 = 0x04800000 then 4 else insn >>> 30
  else 0

/-- `write_to_value`; what `MachOLow12` writes depends on the instruction. -/
def Instruction.pattern (extracted : UInt64) (negative : Bool) (dest : List UInt8) :
    Instruction → List BytePattern
  | elf instruction => instruction.pattern extracted negative
  | machOLow12 => wordPattern 4 0xFFC003FF
      ((extracted.toUInt32 >>> machOScale (u32FromSlice dest)) <<< 10).toNat

def Instruction.writeToValue (instruction : Instruction) (extracted : UInt64) (negative : Bool)
    (dest : List UInt8) : List UInt8 :=
  overlay (instruction.pattern extracted negative dest) dest

/-- The bytes that are written; a compressed instruction has two. -/
def RelocationInstruction.size : RelocationInstruction → ℕ
  | riscV .uiType => 8
  | riscV .cbType | riscV .cjType | riscV .cluiType => 2
  | loongArch64 .call30 | loongArch64 .call36 => 8
  | aarch64 _ | riscV _ | loongArch64 _ => 4

def Instruction.size : Instruction → ℕ
  | elf instruction => instruction.size
  | machOLow12 => 4

/-! ## Where the bits of a value go -/

/-- Some bits of a value, after something was added to it. -/
structure Part where
  added : UInt64 := 0
  place : Place

def encodeParts (parts : List Part) (value : UInt64) : ℕ :=
  parts.foldr (fun part word => part.place.image (value + part.added).toNat ||| word) 0

/-- The places of the bits of a value.  A value that is too large for the
immediate reaches beyond it, as far as the word goes. -/
def AArch64Instruction.parts : AArch64Instruction → List Part
  | adr => [⟨0, 0, 2, 29⟩, ⟨0, 2, 27, 5⟩]
  | movkz | ldr | tstBr | bcond => [⟨0, 0, 27, 5⟩]
  | movnz => [⟨0, 0, 16, 5⟩]
  | ldrRegister | add | ldSt => [⟨0, 0, 22, 10⟩]
  | jumpCall => [⟨0, 0, 32, 0⟩]

def RiscVInstruction.parts : RiscVInstruction → List Part
  | uiType => [⟨0x800, 12, 20, 12⟩, ⟨0, 0, 12, 52⟩]
  | uType => [⟨0x800, 12, 20, 12⟩]
  | iType => [⟨0, 0, 12, 20⟩]
  | sType => [⟨0, 0, 5, 7⟩, ⟨0, 5, 7, 25⟩]
  | bType => [⟨0, 11, 1, 7⟩, ⟨0, 1, 4, 8⟩, ⟨0, 5, 6, 25⟩, ⟨0, 12, 1, 31⟩]
  | jType => [⟨0, 12, 8, 12⟩, ⟨0, 11, 1, 20⟩, ⟨0, 1, 10, 21⟩, ⟨0, 20, 1, 31⟩]
  | cbType => [⟨0, 5, 1, 2⟩, ⟨0, 1, 2, 3⟩, ⟨0, 6, 2, 5⟩, ⟨0, 3, 2, 10⟩, ⟨0, 8, 1, 12⟩]
  | cjType => [⟨0, 5, 1, 2⟩, ⟨0, 1, 3, 3⟩, ⟨0, 7, 1, 6⟩, ⟨0, 6, 1, 7⟩, ⟨0, 10, 1, 8⟩,
      ⟨0, 8, 2, 9⟩, ⟨0, 4, 1, 11⟩, ⟨0, 11, 1, 12⟩]
  | cluiType => [⟨0x800, 12, 5, 2⟩, ⟨0x800, 17, 1, 12⟩]

def LoongArch64Instruction.parts : LoongArch64Instruction → List Part
  | shift5 => [⟨0, 0, 27, 5⟩]
  | shift10 => [⟨0, 0, 22, 10⟩]
  | branch26 | branch21 => [⟨0, 0, 16, 10⟩, ⟨0, 16, 32, 0⟩]
  | call30 => [⟨0, 0, 9, 42⟩, ⟨0, 9, 50, 14⟩]
  | call36 => [⟨0, 0, 16, 42⟩, ⟨0x8000, 16, 48, 5⟩]

def RelocationInstruction.parts : RelocationInstruction → List Part
  | aarch64 instruction => instruction.parts
  | riscV instruction => instruction.parts
  | loongArch64 instruction => instruction.parts

/-- MOVN takes the complement of a negative value. -/
def RelocationInstruction.operand (extracted : UInt64) (negative : Bool) :
    RelocationInstruction → UInt64
  | aarch64 .movnz => if negative then ~~~extracted else extracted
  | _ => extracted

/-- MOVN and MOVZ are written with their opcode. -/
def RelocationInstruction.opcode (negative : Bool) : RelocationInstruction → ℕ
  | aarch64 .movnz => if negative then 0x92800000 else 0xD2800000
  | _ => 0

/-- The bits that a value sets. -/
def RelocationInstruction.encoded (instruction : RelocationInstruction) (extracted : UInt64)
    (negative : Bool) : ℕ :=
  instruction.opcode negative |||
    encodeParts instruction.parts (instruction.operand extracted negative)

def Instruction.encoded (extracted : UInt64) (negative : Bool) (dest : List UInt8) :
    Instruction → ℕ
  | elf instruction => instruction.encoded extracted negative
  | machOLow12 =>
    let scale := (machOScale (u32FromSlice dest)).toNat
    Place.image ⟨scale, min 22 (32 - scale), 10⟩ extracted.toNat

/-! ## The words of the source -/

@[simp] theorem encodeParts_nil (value : UInt64) : encodeParts [] value = 0 := rfl

@[simp] theorem encodeParts_cons (part : Part) (parts : List Part) (value : UInt64) :
    encodeParts (part :: parts) value =
      part.place.image (value + part.added).toNat ||| encodeParts parts value := rfl

section

variable {v : UInt64} {a b : ℕ}

variable {n : ℕ}

theorem toNat_one_shiftLeft (hn : n < 64) : ((1 : UInt64) <<< ofNat n).toNat = 2 ^ n := by
  have hsize : (ofNat n).toNat = n := UInt64.toNat_ofNat_of_lt' (Nat.lt_trans hn (by decide))
  rw [UInt64.toNat_shiftLeft, hsize, mod_eq_of_lt hn, Nat.shiftLeft_eq]
  show 1 * 2 ^ n % 2 ^ 64 = _
  rw [Nat.one_mul, mod_eq_of_lt (Nat.pow_lt_pow_right (by decide) hn)]

theorem toNat_mask_bits (hn : n < 64) :
    (((1 : UInt64) <<< ofNat n) - 1).toNat = 2 ^ n - 1 := by
  rw [UInt64.toNat_sub_of_le, toNat_one_shiftLeft hn]
  · rfl
  · rw [UInt64.le_iff_toNat_le, toNat_one_shiftLeft hn]
    exact Nat.one_le_two_pow

theorem toNat_extractBitRange (ha : a < 64) (hb : b - a < 64) :
    (extractBitRange v a b).toNat = (v.toNat >>> a) % 2 ^ (b - a) := by
  have hsize : (ofNat a).toNat = a := UInt64.toNat_ofNat_of_lt' (Nat.lt_trans ha (by decide))
  unfold extractBitRange
  rw [if_neg (by omega), toNat_and, UInt64.toNat_shiftRight, hsize, mod_eq_of_lt ha,
    toNat_mask_bits hb, Nat.and_two_pow_sub_one_eq_mod]

theorem toNat_extractBit (ha : a < 64) : (extractBit v a).toNat = (v.toNat >>> a) % 2 ^ 1 := by
  have h := toNat_extractBitRange (v := v) (b := a + 1) ha (by omega)
  rwa [Nat.add_sub_cancel_left] at h

variable {d : UInt64}

theorem toNat_shiftLeft64 (hd : d.toNat < 64) :
    (v <<< d).toNat = Place.image ⟨0, 64 - d.toNat, d.toNat⟩ v.toNat := by
  rw [UInt64.toNat_shiftLeft, mod_eq_of_lt hd, shiftLeft_eq_image _ (toNat_lt v),
    mod_two_pow_image, Nat.min_eq_right (sub_le _ _)]

theorem toNat_shiftLeft32 {x d : UInt32} (hd : d.toNat < 32) :
    (x <<< d).toNat = Place.image ⟨0, 32 - d.toNat, d.toNat⟩ x.toNat := by
  rw [UInt32.toNat_shiftLeft, mod_eq_of_lt hd, shiftLeft_eq_image _ (UInt32.toNat_lt x),
    mod_two_pow_image, Nat.min_eq_right (sub_le _ _)]

theorem toNat_shiftRight64 (hd : d.toNat < 64) :
    (v >>> d).toNat = (v.toNat >>> d.toNat) % 2 ^ (64 - d.toNat) := by
  have hlt : v.toNat >>> d.toNat < 2 ^ (64 - d.toNat) := by
    rw [Nat.shiftRight_eq_div_pow, Nat.div_lt_iff_lt_mul (Nat.two_pow_pos _), ← Nat.pow_add,
      Nat.sub_add_cancel hd.le]
    exact toNat_lt v
  rw [UInt64.toNat_shiftRight, mod_eq_of_lt hd, mod_eq_of_lt hlt]

variable {mask : UInt64}

theorem toNat_and_mask (h : mask.toNat = 2 ^ n - 1) : (v &&& mask).toNat = v.toNat % 2 ^ n := by
  rw [toNat_and, h, Nat.and_two_pow_sub_one_eq_mod]

theorem toNat_and_not_mask (h : mask.toNat = (2 ^ (64 - n) - 1) <<< n) :
    (v &&& mask).toNat = Place.image ⟨n, 64 - n, n⟩ v.toNat := by
  refine Nat.eq_of_testBit_eq fun i => ?_
  rw [toNat_and, h, Nat.testBit_and, Nat.testBit_shiftLeft, Nat.testBit_two_pow_sub_one,
    testBit_image, Bool.and_comm]
  by_cases hi : n ≤ i
  · have hsub : n + (i - n) = i := Nat.add_sub_cancel' hi
    have hlt : i - n < 64 - n ↔ i < n + (64 - n) := by omega
    simp [hi, hlt]
  · simp [hi]

end

/-! ## What is written, place by place -/

def RiscVInstruction.kept : RiscVInstruction → ℕ
  | uiType => 0x000FFFFF00000FFF
  | uType | jType => 0x00000FFF
  | iType => 0x000FFFFF
  | sType | bType => 0x01FFF07F
  | cbType => 0xE383
  | cjType => 0xE003
  | cluiType => 0xEF83

def LoongArch64Instruction.kept : LoongArch64Instruction → ℕ
  | shift5 => 0xFE00001F
  | shift10 => 0xFFC003FF
  | branch26 => 0xFC000000
  | branch21 => 0xFC0003E0
  | call30 => 0xFFF803FFFE00001F
  | call36 => 0xFC0003FFFE00001F

/-- The bits of the word that stay. -/
def RelocationInstruction.kept : RelocationInstruction → ℕ
  | aarch64 instruction => instruction.kept.toNat
  | riscV instruction => instruction.kept
  | loongArch64 instruction => instruction.kept

def Instruction.kept : Instruction → ℕ
  | elf instruction => instruction.kept
  | machOLow12 => 0xFFC003FF

theorem leBytes_append (low high m n : ℕ) (h : low < 256 ^ m) :
    leBytes low m ++ leBytes high n = leBytes (low + 256 ^ m * high) (m + n) := by
  induction m generalizing low with
  | zero =>
    obtain rfl : low = 0 := Nat.lt_one_iff.1 h
    rw [Nat.pow_zero, Nat.one_mul, Nat.zero_add, Nat.zero_add]
    rfl
  | succ m ih =>
    have hdiv : low / 256 < 256 ^ m := Nat.div_lt_of_lt_mul (by rwa [pow_succ'] at h)
    have hhigh : low + 256 ^ (m + 1) * high = low + 256 * (256 ^ m * high) := by
      rw [pow_succ', Nat.mul_assoc]
    rw [Nat.add_right_comm, leBytes, leBytes, List.cons_append, ih _ hdiv, hhigh,
      Nat.add_mul_mod_self_left, Nat.add_mul_div_left _ _ (by decide)]

theorem wordPattern_append {kept set : ℕ} (kept' set' : ℕ) (hkept : kept < 2 ^ 32)
    (hset : set < 2 ^ 32) :
    wordPattern 4 kept set ++ wordPattern 4 kept' set' =
      wordPattern 8 (kept' <<< 32 ||| kept) (set' <<< 32 ||| set) := by
  have hword : ∀ {low : ℕ} (high : ℕ), low < 2 ^ 32 →
      leBytes low 4 ++ leBytes high 4 = leBytes (high <<< 32 ||| low) 8 := by
    intro low high h
    have hpow : (2 : ℕ) ^ 32 = 256 ^ 4 := by decide
    rw [leBytes_append _ _ _ _ h, ← Nat.shiftLeft_add_eq_or_of_lt h, Nat.shiftLeft_eq, hpow,
      Nat.mul_comm, Nat.add_comm]
  rw [wordPattern, wordPattern, wordPattern, ← hword kept' hkept, ← hword set' hset,
    List.zipWith_append (by rw [length_leBytes, length_leBytes])]

theorem toNat_mask (instruction : AArch64Instruction) (v : UInt64) (negative : Bool) :
    (instruction.mask v negative).toNat =
      (RelocationInstruction.aarch64 instruction).encoded v negative := by
  unfold RelocationInstruction.encoded
  cases instruction with
  | movnz =>
    cases negative <;>
      simp (disch := decide) only [RelocationInstruction.operand, RelocationInstruction.opcode,
        RelocationInstruction.parts, AArch64Instruction.parts, mask,
        encodeParts_cons, encodeParts_nil, UInt32.toNat_or, toNat_shiftLeft32,
        toNat_extractBitRange, toNat_toUInt32, image_mod_two_pow, image_shiftRight,
        or_zero, add_zero, UInt32.reduceToNat, reduceSub, reduceAdd, if_true,
        if_false, Bool.false_eq_true] <;>
      rfl
  | _ =>
    simp (disch := decide) only [RelocationInstruction.operand, RelocationInstruction.opcode,
      RelocationInstruction.parts, AArch64Instruction.parts, mask,
      encodeParts_cons, encodeParts_nil, UInt32.toNat_or, toNat_shiftLeft32,
      toNat_extractBitRange, toNat_toUInt32, image_mod_two_pow, image_shiftRight,
      or_zero, zero_or, add_zero, UInt32.reduceToNat, reduceSub,
      reduceAdd]
    rfl

theorem RiscVInstruction.pattern_eq (instruction : RiscVInstruction) (v : UInt64) :
    instruction.pattern v =
      wordPattern (RelocationInstruction.riscV instruction).size instruction.kept
        (encodeParts instruction.parts v) := by
  cases instruction with
  | uiType =>
    have hset : Place.image ⟨12, 20, 12⟩ (v + 0x800).toNat < 2 ^ 32 := by
      rw [← Nat.mod_eq_iff_lt (by decide), mod_two_pow_image]
      rfl
    simp (disch := decide) only [RiscVInstruction.pattern, RiscVInstruction.parts,
      RiscVInstruction.uTypePattern, RiscVInstruction.iTypePattern, encodeParts_cons,
      encodeParts_nil, toNat_shiftLeft32, toNat_shiftLeft64, toNat_extractBitRange,
      toNat_toUInt32, image_mod_two_pow, mod_two_pow_image, image_shiftRight, or_zero,
      add_zero, UInt32.reduceToNat, reduceToNat, reduceSub, reduceAdd]
    have hhigh : Place.image ⟨0, 12, 52⟩ v.toNat = Place.image ⟨0, 12, 20⟩ v.toNat <<< 32 :=
      Nat.shiftLeft_add _ 20 32
    show wordPattern 4 0x00000FFF (Place.image ⟨12, 20, 12⟩ (v + 0x800).toNat) ++
      wordPattern 4 0x000FFFFF (Place.image ⟨0, 12, 20⟩ v.toNat) = _
    rw [wordPattern_append _ _ (by decide) hset, hhigh, Nat.lor_comm (Place.image _ _)]
    rfl
  | cluiType =>
    simp (disch := decide) only [RiscVInstruction.pattern, RiscVInstruction.parts,
      encodeParts_cons, encodeParts_nil, toNat_or, toNat_shiftLeft64,
      toNat_and_mask (n := 5), toNat_and_mask (n := 1), toNat_shiftRight64, image_mod_two_pow,
      image_shiftRight, or_zero, reduceToNat, reduceSub, reduceAdd]
    rfl
  | _ =>
    simp (disch := decide) only [RiscVInstruction.pattern, RiscVInstruction.parts,
      RiscVInstruction.uTypePattern, RiscVInstruction.iTypePattern, encodeParts_cons,
      encodeParts_nil, UInt64.toUInt32_or, UInt32.toNat_or, toNat_or, toNat_shiftLeft32,
      toNat_shiftLeft64, toNat_extractBitRange, toNat_extractBit, toNat_toUInt32,
      image_mod_two_pow, mod_two_pow_image, image_shiftRight, or_zero, Nat.or_assoc,
      add_zero, UInt32.reduceToNat, reduceToNat, reduceSub, reduceAdd]
    rfl

theorem LoongArch64Instruction.pattern_eq (instruction : LoongArch64Instruction) (v : UInt64) :
    instruction.pattern v =
      wordPattern (RelocationInstruction.loongArch64 instruction).size instruction.kept
        (encodeParts instruction.parts v) := by
  cases instruction with
  | call30 =>
    simp (disch := decide) only [LoongArch64Instruction.pattern, LoongArch64Instruction.parts,
      encodeParts_cons, encodeParts_nil, toNat_or, toNat_shiftLeft64,
      toNat_and_mask (n := 9), toNat_and_not_mask (n := 9), image_image, image_mod_two_pow,
      or_zero, add_zero, reduceToNat, reduceSub, reduceAdd]
    rfl
  | _ =>
    simp (disch := decide) only [LoongArch64Instruction.pattern, LoongArch64Instruction.parts,
      encodeParts_cons, encodeParts_nil, UInt64.toUInt32_or, UInt32.toNat_or, toNat_or,
      toNat_shiftLeft64, toNat_shiftRight64, toNat_and_mask (n := 16), toNat_toUInt32,
      image_mod_two_pow, mod_two_pow_image, image_shiftRight, Nat.mod_mod_of_dvd, or_zero,
      add_zero, reduceToNat, reduceSub, reduceAdd]
    rfl

theorem RelocationInstruction.pattern_eq (instruction : RelocationInstruction) (v : UInt64)
    (negative : Bool) :
    instruction.pattern v negative =
      wordPattern instruction.size instruction.kept (instruction.encoded v negative) := by
  cases instruction with
  | aarch64 instruction => exact congrArg (wordPattern 4 _) (toNat_mask instruction v negative)
  | riscV instruction | loongArch64 instruction =>
    have h := instruction.pattern_eq v
    rw [← zero_or (encodeParts _ _)] at h
    exact h

theorem machOScale_le (insn : UInt32) : (machOScale insn).toNat ≤ 4 := by
  have hshift : (insn >>> 30).toNat ≤ 4 := by
    have hlt := UInt32.toNat_lt insn
    show insn.toNat >>> 30 ≤ 4
    omega
  unfold machOScale
  split
  · split
    · exact Nat.le_refl 4
    · exact hshift
  · exact Nat.zero_le 4

theorem Instruction.pattern_eq (instruction : Instruction) (v : UInt64) (negative : Bool)
    (dest : List UInt8) :
    instruction.pattern v negative dest =
      wordPattern instruction.size instruction.kept (instruction.encoded v negative dest) := by
  cases instruction with
  | elf instruction => exact instruction.pattern_eq v negative
  | machOLow12 =>
    have hscale := machOScale_le (u32FromSlice dest)
    have hmod : (machOScale (u32FromSlice dest)).toNat % 32 =
        (machOScale (u32FromSlice dest)).toNat := mod_eq_of_lt (by omega)
    show wordPattern 4 0xFFC003FF ((v.toUInt32 >>> machOScale (u32FromSlice dest)) <<< 10).toNat = _
    rw [toNat_shiftLeft32 (by decide), UInt32.toNat_shiftRight, hmod, toNat_toUInt32,
      image_shiftRight, image_mod_two_pow]
    rfl

/-! ## Bits of a word -/

theorem testBit_ofLeBytes_cons (b : UInt8) (bytes : List UInt8) (i : ℕ) :
    (ofLeBytes (b :: bytes)).testBit i =
      if i < 8 then b.toNat.testBit i else (ofLeBytes bytes).testBit (i - 8) := by
  rw [ofLeBytes, Nat.add_comm]
  exact Nat.testBit_two_pow_mul_add (ofLeBytes bytes) b.toNat_lt i

theorem ofLeBytes_take (bytes : List UInt8) (n : ℕ) :
    ofLeBytes (bytes.take n) = ofLeBytes bytes % 256 ^ n := by
  induction n generalizing bytes with
  | zero => rw [List.take_zero, Nat.pow_zero, Nat.mod_one]; rfl
  | succ n ih =>
    cases bytes with
    | nil => rw [List.take_nil]; exact (Nat.zero_mod _).symm
    | cons b bytes =>
      have hb : b.toNat < 256 := b.toNat_lt
      have hdiv : (b.toNat + 256 * ofLeBytes bytes) / 256 = ofLeBytes bytes := by omega
      have hmod : (b.toNat + 256 * ofLeBytes bytes) % 256 = b.toNat := by omega
      rw [List.take_succ_cons, ofLeBytes, ofLeBytes, ih, pow_succ', Nat.mod_mul, hdiv, hmod]

theorem ofLeBytes_drop (bytes : List UInt8) (n : ℕ) :
    ofLeBytes (bytes.drop n) = ofLeBytes bytes / 256 ^ n := by
  induction n generalizing bytes with
  | zero => rw [List.drop_zero, Nat.pow_zero, Nat.div_one]
  | succ n ih =>
    cases bytes with
    | nil => rw [List.drop_nil]; exact (Nat.zero_div _).symm
    | cons b bytes =>
      have hb : b.toNat < 256 := b.toNat_lt
      have hdiv : (b.toNat + 256 * ofLeBytes bytes) / 256 = ofLeBytes bytes := by omega
      rw [List.drop_succ_cons, ofLeBytes, ih, pow_succ', ← Nat.div_div_eq_div_mul, hdiv]

theorem toNat_u32FromSlice (bytes : List UInt8) :
    (u32FromSlice bytes).toNat = ofLeBytes bytes % 2 ^ 32 := by
  rw [u32FromSlice, ofLeBytes_take]
  exact Nat.mod_mod _ _

theorem bytes_eq_of_testBit {bytes bytes' : List UInt8} (hlen : bytes.length = bytes'.length)
    (h : ∀ i, (ofLeBytes bytes).testBit i = (ofLeBytes bytes').testBit i) : bytes = bytes' := by
  rw [← leBytes_ofLeBytes bytes, ← leBytes_ofLeBytes bytes', hlen, Nat.eq_of_testBit_eq h]

theorem testBit_overlay (width kept set : ℕ) (bytes : List UInt8) (h : width ≤ bytes.length)
    (i : ℕ) :
    (ofLeBytes (overlay (wordPattern width kept set) bytes)).testBit i =
      if i < 8 * width then ((ofLeBytes bytes).testBit i && kept.testBit i) || set.testBit i
      else (ofLeBytes bytes).testBit i := by
  induction width generalizing kept set bytes i with
  | zero => rfl
  | succ width ih =>
    obtain ⟨b, bytes, rfl⟩ := List.exists_cons_of_length_pos (Nat.lt_of_lt_of_le (Nat.succ_pos _) h)
    show (ofLeBytes (((b &&& UInt8.ofNat (kept % 256)) ||| UInt8.ofNat (set % 256)) ::
      overlay (wordPattern width (kept / 256) (set / 256)) bytes)).testBit i = _
    have hbyte : ∀ n : ℕ, (UInt8.ofNat (n % 256)).toNat = n % 2 ^ 8 := fun n =>
      UInt8.toNat_ofNat_of_lt' (Nat.mod_lt _ (by decide))
    rw [testBit_ofLeBytes_cons, testBit_ofLeBytes_cons, ih _ _ _ (Nat.le_of_succ_le_succ h),
      UInt8.toNat_or, UInt8.toNat_and, hbyte, hbyte]
    by_cases hi : i < 8
    · have hi' : i < 8 * (width + 1) := by omega
      simp only [hi, hi', if_true, Nat.testBit_or, Nat.testBit_and, Nat.testBit_mod_two_pow,
        decide_true, Bool.true_and]
    · have hdiv : ∀ n : ℕ, (n / 256).testBit (i - 8) = n.testBit i := fun n => by
        rw [show 256 = 2 ^ 8 from rfl, Nat.testBit_div_two_pow, Nat.sub_add_cancel (by omega)]
      have hlt : i - 8 < 8 * width ↔ i < 8 * (width + 1) := by omega
      simp only [hi, if_false, hdiv, hlt]

theorem length_wordPattern (width kept set : ℕ) : (wordPattern width kept set).length = width := by
  rw [wordPattern, List.length_zipWith, length_leBytes, length_leBytes, Nat.min_self]

/-- A word that is written twice is that of another value, bit by bit. -/
theorem overlay_twice_eq_iff {width kept set set' new : ℕ} {bytes : List UInt8}
    (h : width ≤ bytes.length) :
    overlay (wordPattern width kept set') (overlay (wordPattern width kept set) bytes) =
        overlay (wordPattern width kept new) bytes ↔
      ∀ i < 8 * width,
        ((((ofLeBytes bytes).testBit i && kept.testBit i || set.testBit i) && kept.testBit i) ||
            set'.testBit i) =
          ((ofLeBytes bytes).testBit i && kept.testBit i || new.testBit i) := by
  have hlen : ∀ set, (overlay (wordPattern width kept set) bytes).length = bytes.length :=
    fun set => length_overlay _ _ (by rwa [length_wordPattern])
  have h' := h.trans_eq (hlen set).symm
  constructor
  · intro heq i hi
    have hbit := congrArg (fun bytes => (ofLeBytes bytes).testBit i) heq
    simpa only [testBit_overlay _ _ _ _ h, testBit_overlay _ _ _ _ h', if_pos hi] using hbit
  · intro hbits
    refine bytes_eq_of_testBit ?_ fun i => ?_
    · rw [length_overlay _ _ (by rwa [length_wordPattern]), hlen, hlen]
    · rw [testBit_overlay _ _ _ _ h', testBit_overlay _ _ _ _ h]
      split
      · next hi => rw [testBit_overlay _ _ _ _ h, if_pos hi, hbits i hi]
      · next hi => rw [testBit_overlay _ _ _ _ h, if_neg hi]

variable {dest : List UInt8}

theorem length_writeToValue (instruction : Instruction) (v : UInt64) (negative : Bool)
    (h : instruction.size ≤ dest.length) :
    (instruction.writeToValue v negative dest).length = dest.length := by
  refine length_overlay _ _ ?_
  rwa [Instruction.pattern_eq, length_wordPattern]

theorem testBit_writeToValue (instruction : Instruction) (v : UInt64) (negative : Bool)
    (h : instruction.size ≤ dest.length) (i : ℕ) :
    (ofLeBytes (instruction.writeToValue v negative dest)).testBit i =
      if i < 8 * instruction.size then
        ((ofLeBytes dest).testBit i && instruction.kept.testBit i) ||
          (instruction.encoded v negative dest).testBit i
      else (ofLeBytes dest).testBit i := by
  rw [Instruction.writeToValue, Instruction.pattern_eq, testBit_overlay _ _ _ _ h]

end Sld.Incremental.Fields
