/-
# `Incremental.InstructionReads` — reading an immediate

`read_value` takes the bits of an immediate from their places, and extends
the sign.

In most instructions the value is made of the bits of the word, as they are;
the others are MOVN and MOVZ, the RISC-V instructions that take the upper
part of a rounded value, and the LoongArch64 calls of two instructions.
-/
import Sld.Incremental.InstructionWords

namespace Sld.Incremental.Fields

open Store (Place gather gather_cons gather_nil bits_eq_image image_mod_two_pow mod_two_pow_image
  image_shiftRight shiftLeft_eq_image testBit_image)
open Nat (mod_eq_of_lt or_zero reduceAdd reduceSub testBit_or)
open RelocationInstruction (aarch64 loongArch64 riscV)
open UInt64 (ofNat toNat_or)
open UInt32 (reduceToNat)

/-! ## Words -/

def u16FromSlice (data : List UInt8) : UInt16 := UInt16.ofNat (ofLeBytes (data.take 2))

def u64FromSlice (data : List UInt8) : UInt64 := UInt64.ofNat (ofLeBytes (data.take 8))

def lowBits (value : UInt64) (numBits : ℕ) : UInt64 :=
  value &&& (((1 : UInt64) <<< UInt64.ofNat numBits) - 1)

def signExtend (value : UInt64) (signBit : ℕ) : UInt64 :=
  if value &&& ((1 : UInt64) <<< UInt64.ofNat signBit) ≠ 0 then
    value ||| ~~~(((2 : UInt64) <<< UInt64.ofNat signBit) - 1)
  else value

def lowBitsSigned (value : UInt64) (numBits : ℕ) : UInt64 :=
  signExtend (lowBits value numBits) (numBits - 1)

/-- A signed word, shifted up and down again. -/
def signExtended (imm : UInt32) (shift : ℕ) : BitVec 32 :=
  (imm.toBitVec <<< shift).sshiftRight shift

/-- The word as 64 bits, and whether it is negative. -/
def signedResult (word : BitVec 32) : UInt64 × Bool := (⟨word.signExtend 64⟩, word.msb)

/-! ## Instructions -/

def AArch64Instruction.readValue (bytes : List UInt8) (instruction : AArch64Instruction) :
    UInt64 × Bool :=
  let value := (u32FromSlice bytes).toUInt64
  match instruction with
  | adr => (lowBits (value >>> 29) 2 ||| (lowBitsSigned (value >>> 5) 19 <<< 2), false)
  | movkz => (lowBitsSigned (value >>> 5) 16, false)
  | movnz =>
    let negative := value &&& ((1 : UInt64) <<< 30) == 0
    let v := lowBits (value >>> 5) 16
    (if negative then ~~~v else v, negative)
  | ldr => (lowBitsSigned (value >>> 5) 19, false)
  | ldrRegister => (lowBits (value >>> 10) 12, false)
  | add => (lowBits (value >>> 10) 12, false)
  | ldSt => (lowBitsSigned (value >>> 10) 12, false)
  | tstBr => (lowBitsSigned (value >>> 5) 14, false)
  | bcond => (lowBitsSigned (value >>> 5) 19, false)
  | jumpCall => (lowBitsSigned value 26, false)

namespace RiscVInstruction

def uTypeRead (bytes : List UInt8) : UInt64 × Bool :=
  let imm := (u32FromSlice bytes >>> 12) &&& 0xFFFFF
  ((signedResult (signExtended imm 12)).1 - 0x800, false)

def iTypeRead (bytes : List UInt8) : UInt64 × Bool :=
  signedResult (signExtended ((u32FromSlice bytes >>> 20) &&& 0xFFF) 20)

def readValue (bytes : List UInt8) : RiscVInstruction → UInt64 × Bool
  | uiType => (((uTypeRead (bytes.take 4)).1 <<< 12) ||| (iTypeRead (bytes.drop 4)).1, false)
  | uType => uTypeRead bytes
  | iType => iTypeRead bytes
  | sType =>
    let value := u32FromSlice bytes
    let immLow := (value >>> 7) &&& 0x1F
    let immHigh := (value >>> 25) &&& 0x7F
    signedResult (signExtended ((immHigh <<< 5) ||| immLow) 20)
  | bType =>
    let value := u32FromSlice bytes
    let imm11 := (value >>> 7) &&& 0x1
    let imm1_4 := (value >>> 8) &&& 0xF
    let imm5_10 := (value >>> 25) &&& 0x3F
    let imm12 := (value >>> 31) &&& 0x1
    signedResult (signExtended
      ((imm12 <<< 12) ||| (imm11 <<< 11) ||| (imm5_10 <<< 5) ||| (imm1_4 <<< 1)) 19)
  | jType =>
    let value := u32FromSlice bytes
    let imm12_19 := (value >>> 12) &&& 0xFF
    let imm11 := (value >>> 20) &&& 0x1
    let imm1_10 := (value >>> 21) &&& 0x3FF
    let imm20 := (value >>> 31) &&& 0x1
    signedResult (signExtended
      ((imm20 <<< 20) ||| (imm12_19 <<< 12) ||| (imm11 <<< 11) ||| (imm1_10 <<< 1)) 11)
  | cbType =>
    let value := u16FromSlice bytes
    let imm5 := (value >>> 2) &&& 0x1
    let imm1_2 := (value >>> 3) &&& 0x3
    let imm6_7 := (value >>> 5) &&& 0x3
    let imm3_4 := (value >>> 10) &&& 0x3
    let imm8 := (value >>> 12) &&& 0x1
    let imm := (imm8 <<< 8) ||| (imm6_7 <<< 6) ||| (imm5 <<< 5) ||| (imm3_4 <<< 3) |||
      (imm1_2 <<< 1)
    signedResult (signExtended imm.toUInt32 23)
  | cjType =>
    let value := u16FromSlice bytes
    let imm5 := (value >>> 2) &&& 0x1
    let imm1_3 := (value >>> 3) &&& 0x7
    let imm7 := (value >>> 6) &&& 0x1
    let imm6 := (value >>> 7) &&& 0x1
    let imm10 := (value >>> 8) &&& 0x1
    let imm8_9 := (value >>> 9) &&& 0x3
    let imm4 := (value >>> 11) &&& 0x1
    let imm11 := (value >>> 12) &&& 0x1
    let imm := (imm11 <<< 11) ||| (imm10 <<< 10) ||| (imm8_9 <<< 8) ||| (imm7 <<< 7) |||
      (imm6 <<< 6) ||| (imm5 <<< 5) ||| (imm4 <<< 4) ||| (imm1_3 <<< 1)
    signedResult (signExtended imm.toUInt32 20)
  | cluiType =>
    let value := u16FromSlice bytes
    let nzimm4_0 := (value >>> 2) &&& 0x1F
    let nzimm5 := (value >>> 12) &&& 0x1
    let nzimm := (nzimm5 <<< 5) ||| nzimm4_0
    let hi20 := signedResult (signExtended nzimm.toUInt32 26)
    ((hi20.1 <<< 12) - 0x800, hi20.2)

end RiscVInstruction

/-- The first instruction of `Call30` is taken from the upper word. -/
def LoongArch64Instruction.readValue (bytes : List UInt8) :
    LoongArch64Instruction → UInt64 × Bool
  | shift5 => (((u32FromSlice bytes >>> 5) &&& 0xFFFFF).toUInt64, false)
  | shift10 => (((u32FromSlice bytes >>> 10) &&& 0xFFF).toUInt64, false)
  | branch26 =>
    let value := u32FromSlice bytes
    let lowPart := (value >>> 10) &&& 0xFFFF
    let highPart := value &&& 0x3FF
    signedResult (signExtended ((highPart <<< 16) ||| lowPart) 6)
  | branch21 =>
    let value := u32FromSlice bytes
    let lowPart := (value >>> 10) &&& 0xFFFF
    let highPart := value &&& 0x1F
    signedResult (signExtended ((highPart <<< 16) ||| lowPart) 11)
  | call30 =>
    let value := u64FromSlice bytes
    let insn1 := (value >>> 32).toUInt32
    let insn2 := value.toUInt32
    let highPart := ((insn1 >>> 5) &&& 0x7FFFF) <<< 9
    let lowPart := (insn2 >>> 10) &&& 0x1FF
    ((highPart ||| lowPart).toUInt64, false)
  | call36 =>
    let value := u64FromSlice bytes
    let insn1 := value.toUInt32
    let insn2 := (value >>> 32).toUInt32
    let highPart := ((insn1 >>> 5) &&& 0xFFFFF).toUInt64
    let lowPart := ((insn2 >>> 10) &&& 0xFFFF).toUInt64
    ((((highPart <<< 16) - 0x8000) &&& 0xFFFFFFFF) ||| lowPart, false)

def RelocationInstruction.readValue (bytes : List UInt8) : RelocationInstruction → UInt64 × Bool
  | aarch64 instruction => instruction.readValue bytes
  | riscV instruction => instruction.readValue bytes
  | loongArch64 instruction => instruction.readValue bytes

/-- `MachOLow12` cannot be read. -/
def Instruction.readValue (bytes : List UInt8) : Instruction → Option (UInt64 × Bool)
  | elf instruction => some (instruction.readValue bytes)
  | machOLow12 => none

/-! ## Where the bits are -/

/-- The places of the bits of a value in its instruction. -/
def AArch64Instruction.places : AArch64Instruction → List Place
  | adr => [⟨0, 2, 29⟩, ⟨2, 19, 5⟩]
  | movkz | movnz => [⟨0, 16, 5⟩]
  | ldr | bcond => [⟨0, 19, 5⟩]
  | ldrRegister | add | ldSt => [⟨0, 12, 10⟩]
  | tstBr => [⟨0, 14, 5⟩]
  | jumpCall => [⟨0, 26, 0⟩]

def RiscVInstruction.places : RiscVInstruction → List Place
  | uiType | uType | cluiType => []
  | iType => [⟨0, 12, 20⟩]
  | sType => [⟨5, 7, 25⟩, ⟨0, 5, 7⟩]
  | bType => [⟨12, 1, 31⟩, ⟨11, 1, 7⟩, ⟨5, 6, 25⟩, ⟨1, 4, 8⟩]
  | jType => [⟨20, 1, 31⟩, ⟨12, 8, 12⟩, ⟨11, 1, 20⟩, ⟨1, 10, 21⟩]
  | cbType => [⟨8, 1, 12⟩, ⟨6, 2, 5⟩, ⟨5, 1, 2⟩, ⟨3, 2, 10⟩, ⟨1, 2, 3⟩]
  | cjType => [⟨11, 1, 12⟩, ⟨10, 1, 8⟩, ⟨8, 2, 9⟩, ⟨7, 1, 6⟩, ⟨6, 1, 7⟩, ⟨5, 1, 2⟩, ⟨4, 1, 11⟩,
      ⟨1, 3, 3⟩]

def LoongArch64Instruction.places : LoongArch64Instruction → List Place
  | shift5 => [⟨0, 20, 5⟩]
  | shift10 => [⟨0, 12, 10⟩]
  | branch26 => [⟨16, 10, 0⟩, ⟨0, 16, 10⟩]
  | branch21 => [⟨16, 5, 0⟩, ⟨0, 16, 10⟩]
  | call30 => []
  | call36 => []

def RelocationInstruction.places : RelocationInstruction → List Place
  | aarch64 instruction => instruction.places
  | riscV instruction => instruction.places
  | loongArch64 instruction => instruction.places

/-- The number of bits of an immediate, the low ones that it does not hold
included. -/
def RelocationInstruction.immediateBits : RelocationInstruction → ℕ
  | aarch64 .adr => 21
  | aarch64 .movkz | aarch64 .movnz => 16
  | aarch64 .ldr | aarch64 .bcond => 19
  | aarch64 .ldrRegister | aarch64 .add | aarch64 .ldSt => 12
  | aarch64 .tstBr => 14
  | aarch64 .jumpCall => 26
  | riscV .uType | riscV .uiType => 32
  | riscV .cluiType => 18
  | riscV .iType | riscV .sType | riscV .cjType => 12
  | riscV .bType => 13
  | riscV .jType => 21
  | riscV .cbType => 9
  | loongArch64 .shift5 => 20
  | loongArch64 .shift10 => 12
  | loongArch64 .branch26 => 26
  | loongArch64 .branch21 => 21
  | loongArch64 .call30 => 20
  | loongArch64 .call36 => 36

/-- Whether the sign is extended. -/
def RelocationInstruction.signed : RelocationInstruction → Bool
  | aarch64 .movnz | aarch64 .ldrRegister | aarch64 .add => false
  | loongArch64 .shift5 | loongArch64 .shift10 | loongArch64 .call30 | loongArch64 .call36 => false
  | aarch64 _ | riscV _ | loongArch64 _ => true

/-- The value is made of the bits of the word, as they are. -/
def RelocationInstruction.direct : RelocationInstruction → Bool
  | aarch64 .movnz => false
  | riscV .uType | riscV .uiType | riscV .cluiType => false
  | loongArch64 .call30 | loongArch64 .call36 => false
  | aarch64 _ | riscV _ | loongArch64 _ => true

/-! ## Extending the sign -/

section

variable {v : UInt64} {n : ℕ}

theorem toNat_lowBits (hn : n < 64) : (lowBits v n).toNat = v.toNat % 2 ^ n := by
  have h := toNat_extractBitRange (v := v) (a := 0) (b := n) (by decide) hn
  rw [extractBitRange, if_neg (by omega)] at h
  have hshift : v >>> ofNat 0 = v := UInt64.shiftRight_zero
  rwa [hshift] at h

/-- The low bits, and the last of them again and again. -/
def extended (n word i : ℕ) : Bool :=
  decide (i < 64) && if i < n then word.testBit i else word.testBit (n - 1)

variable {n : ℕ}

theorem two_shiftLeft (hpos : 0 < n) (hn : n < 64) :
    (2 : UInt64) <<< ofNat (n - 1) = 1 <<< ofNat n := by
  refine UInt64.toNat_inj.1 ?_
  have hsize : (ofNat (n - 1)).toNat = n - 1 :=
    UInt64.toNat_ofNat_of_lt' (Nat.lt_trans (by omega : n - 1 < 64) (by decide))
  have hpow : 2 * 2 ^ (n - 1) = 2 ^ n := by
    rw [← Nat.pow_succ', Nat.succ_eq_add_one, Nat.sub_add_cancel hpos]
  rw [toNat_one_shiftLeft hn, UInt64.toNat_shiftLeft, hsize,
    mod_eq_of_lt (by omega : n - 1 < 64), Nat.shiftLeft_eq]
  show 2 * 2 ^ (n - 1) % 2 ^ 64 = _
  rw [hpow, mod_eq_of_lt (Nat.pow_lt_pow_right (by decide) hn)]

theorem testBit_signExtend {value : UInt64} (h : value.toNat < 2 ^ n) (hpos : 0 < n)
    (hn : n < 64) (i : ℕ) :
    (signExtend value (n - 1)).toNat.testBit i = extended n value.toNat i := by
  have hlarge : ∀ i, ¬ i < n → value.toNat.testBit i = false := fun i hi =>
    Nat.testBit_lt_two_pow (Nat.lt_of_lt_of_le h
      (Nat.pow_le_pow_right (by decide) (Nat.le_of_not_lt hi)))
  have hsign : value &&& ((1 : UInt64) <<< ofNat (n - 1)) ≠ 0 ↔
      value.toNat.testBit (n - 1) = true := by
    rw [ne_eq, ← UInt64.toNat_inj, UInt64.toNat_and, toNat_one_shiftLeft (by omega),
      Nat.and_two_pow]
    cases value.toNat.testBit (n - 1) <;> simp
  rw [signExtend, extended]
  by_cases hbit : value.toNat.testBit (n - 1) = true
  · rw [if_pos (hsign.2 hbit), toNat_or, testBit_or, two_shiftLeft hpos hn]
    have hnot : (~~~(((1 : UInt64) <<< ofNat n) - 1)).toNat.testBit i =
        (decide (i < 64) && !decide (i < n)) := by
      rw [← UInt64.toNat_toBitVec, BitVec.testBit_toNat, UInt64.toBitVec_not, BitVec.getLsbD_not,
        ← BitVec.testBit_toNat, UInt64.toNat_toBitVec, toNat_mask_bits hn,
        Nat.testBit_two_pow_sub_one]
    rw [hnot]
    by_cases hi : i < n
    · have h64 : i < 64 := by omega
      simp [hi, h64]
    · simp [hbit, hlarge i hi]
  · rw [if_neg fun hne => hbit (hsign.1 hne)]
    by_cases hi : i < n
    · have h64 : i < 64 := by omega
      simp [hi, h64]
    · simp [hbit, hlarge i hi]

theorem testBit_lowBitsSigned (hpos : 0 < n) (hn : n < 64) (i : ℕ) :
    (lowBitsSigned v n).toNat.testBit i = extended n (lowBits v n).toNat i := by
  refine testBit_signExtend ?_ hpos hn i
  rw [toNat_lowBits hn]
  exact Nat.mod_lt _ (Nat.two_pow_pos n)

theorem testBit_signedResult (imm : UInt32) {shift : ℕ} (h : shift < 32) (i : ℕ) :
    (signedResult (signExtended imm shift)).1.toNat.testBit i =
      extended (32 - shift) imm.toNat i := by
  have hbit : ∀ i, (signExtended imm shift).getLsbD i =
      (decide (i < 32) && if i < 32 - shift then imm.toNat.testBit i
        else imm.toNat.testBit (32 - shift - 1)) := by
    intro i
    show (BitVec.sshiftRight (imm.toBitVec <<< shift) shift).getLsbD i =
      (_ && if _ then imm.toBitVec.toNat.testBit i else imm.toBitVec.toNat.testBit _)
    rw [BitVec.getLsbD_sshiftRight, BitVec.msb_eq_getLsbD_last, BitVec.getLsbD_shiftLeft,
      BitVec.getLsbD_shiftLeft, BitVec.testBit_toNat, BitVec.testBit_toNat]
    by_cases hi : i < 32 - shift
    · have hsub : shift + i - shift = i := by omega
      have h1 : shift + i < 32 := by omega
      have h2 : i < 32 := by omega
      simp [hi, hsub, h1, h2]
    · have hsub : 32 - 1 - shift = 32 - shift - 1 := by omega
      have h1 : ¬ shift + i < 32 := by omega
      have h3 : ¬ 31 < shift := by omega
      have h4 : (!decide (32 ≤ i)) = decide (i < 32) := by
        rw [← decide_not]
        exact decide_eq_decide.2 Nat.not_le
      rw [if_neg hi, if_neg h1, hsub, h4]
      simp [h3]
  show ((signExtended imm shift).signExtend 64).toNat.testBit i = _
  rw [BitVec.testBit_toNat, BitVec.getLsbD_signExtend, BitVec.msb_eq_getLsbD_last, hbit, hbit,
    extended]
  by_cases hi : i < 32
  · simp [hi]
  · have h1 : ¬ i < 32 - shift := by omega
    by_cases h2 : 31 < 32 - shift
    · have h3 : 32 - shift - 1 = 31 := by omega
      simp [hi, h1, h2, h3]
    · simp [hi, h1, h2]

theorem toNat_signedResult (imm : UInt32) (shift : ℕ) (hshift : shift < 32) (hn : n = 32 - shift)
    (h : imm.toNat < 2 ^ n) :
    (signedResult (signExtended imm shift)).1.toNat =
      if imm.toNat < 2 ^ (n - 1) then imm.toNat else imm.toNat + (2 ^ 64 - 2 ^ n) := by
  subst hn
  have hlarge : ∀ {i}, 32 - shift ≤ i → imm.toNat.testBit i = false := fun hi =>
    Nat.testBit_lt_two_pow (Nat.lt_of_lt_of_le h (Nat.pow_le_pow_right (by decide) hi))
  have hsign : imm.toNat.testBit (32 - shift - 1) =
      decide (¬ imm.toNat < 2 ^ (32 - shift - 1)) := by
    rw [Nat.testBit_eq_decide_div_mod_eq]
    refine decide_eq_decide.2 ?_
    by_cases hlt : imm.toNat < 2 ^ (32 - shift - 1)
    · rw [Nat.div_eq_of_lt hlt]
      exact iff_of_false (by decide) (not_not.2 hlt)
    · have hdiv : imm.toNat / 2 ^ (32 - shift - 1) = 1 := by
        refine Nat.div_eq_of_lt_le (by rw [Nat.one_mul]; exact Nat.le_of_not_lt hlt) ?_
        rw [← Nat.pow_succ', Nat.succ_eq_add_one, Nat.sub_add_cancel (by omega)]
        exact h
      rw [hdiv]
      exact iff_of_true rfl hlt
  refine Nat.eq_of_testBit_eq fun i => ?_
  rw [testBit_signedResult imm hshift, extended, hsign]
  by_cases hlt : imm.toNat < 2 ^ (32 - shift - 1)
  · rw [if_pos hlt, decide_eq_false (not_not.2 hlt)]
    by_cases hi : i < 32 - shift
    · rw [if_pos hi, decide_eq_true (by omega), Bool.true_and]
    · rw [if_neg hi, Bool.and_false, hlarge (by omega)]
  · have hpow : 2 ^ 64 - 2 ^ (32 - shift) = 2 ^ (32 - shift) * (2 ^ (32 + shift) - 1) := by
      rw [Nat.mul_sub_one, ← Nat.pow_add]
      congr 2
      omega
    rw [if_neg hlt, decide_eq_true hlt, hpow, Nat.add_comm, Nat.testBit_two_pow_mul_add _ h,
      Nat.testBit_two_pow_sub_one]
    by_cases hi : i < 32 - shift
    · rw [if_pos hi, if_pos hi, decide_eq_true (by omega), Bool.true_and]
    · rw [if_neg hi, if_neg hi, Bool.and_true]
      exact decide_eq_decide.2 (by omega)

end

/-! ## The bits that are read -/

theorem toNat_u16FromSlice (bytes : List UInt8) :
    (u16FromSlice bytes).toNat = ofLeBytes bytes % 2 ^ 16 := by
  rw [u16FromSlice, ofLeBytes_take]
  exact Nat.mod_mod _ _

theorem toNat_u64FromSlice (bytes : List UInt8) :
    (u64FromSlice bytes).toNat = ofLeBytes bytes % 2 ^ 64 := by
  rw [u64FromSlice, ofLeBytes_take]
  exact Nat.mod_mod _ _

section

variable {x : UInt32} {y : UInt16}

theorem toNat_shiftRight32 {d : UInt32} (hd : d.toNat < 32) :
    (x >>> d).toNat = x.toNat >>> d.toNat := by
  rw [UInt32.toNat_shiftRight, mod_eq_of_lt hd]

variable {d : UInt16}

theorem toNat_shiftRight16 (hd : d.toNat < 16) : (y >>> d).toNat = y.toNat >>> d.toNat := by
  rw [UInt16.toNat_shiftRight, mod_eq_of_lt hd]

theorem toNat_and_mask32 {mask : UInt32} {n : ℕ} (h : mask.toNat = 2 ^ n - 1) :
    (x &&& mask).toNat = x.toNat % 2 ^ n := by
  rw [UInt32.toNat_and, h, Nat.and_two_pow_sub_one_eq_mod]

theorem toNat_and_mask16 {mask : UInt16} {n : ℕ} (h : mask.toNat = 2 ^ n - 1) :
    (y &&& mask).toNat = y.toNat % 2 ^ n := by
  rw [UInt16.toNat_and, h, Nat.and_two_pow_sub_one_eq_mod]

theorem toNat_shiftLeft16 (hd : d.toNat < 16) :
    (y <<< d).toNat = Place.image ⟨0, 16 - d.toNat, d.toNat⟩ y.toNat := by
  rw [UInt16.toNat_shiftLeft, mod_eq_of_lt hd, shiftLeft_eq_image _ (UInt16.toNat_lt y),
    mod_two_pow_image, Nat.min_eq_right (Nat.sub_le _ _)]

end

variable (bytes : List UInt8)

/-- A bit of the value, from the bits of its immediate. -/
def RelocationInstruction.readBit (instruction : RelocationInstruction) (imm i : ℕ) : Bool :=
  decide (i < 64) &&
    if i < instruction.immediateBits then imm.testBit i
    else instruction.signed && imm.testBit (instruction.immediateBits - 1)

theorem testBit_signedResult_of_eq {imm : UInt32} {word : ℕ} (h : imm.toNat = word) {shift : ℕ}
    (hshift : shift < 32) (i : ℕ) :
    (signedResult (signExtended imm shift)).1.toNat.testBit i = extended (32 - shift) word i := by
  rw [testBit_signedResult imm hshift, h]

theorem testBit_readValue_riscV (instruction : RiscVInstruction)
    (h : (riscV instruction).direct) (i : ℕ) :
    (instruction.readValue bytes).1.toNat.testBit i =
      (riscV instruction).readBit
        (gather instruction.places (ofLeBytes bytes)) i := by
  cases instruction with
  | uiType | uType | cluiType => cases h
  | iType =>
    refine testBit_signedResult_of_eq ?_ (by decide) i
    simp (disch := decide) only [RiscVInstruction.places, gather_cons, gather_nil,
      toNat_and_mask32 (n := 12), toNat_shiftRight32, toNat_u32FromSlice, bits_eq_image,
      image_mod_two_pow, or_zero, reduceToNat, reduceSub]
    rfl
  | sType =>
    refine testBit_signedResult_of_eq ?_ (by decide) i
    simp (disch := decide) only [RiscVInstruction.places, gather_cons, gather_nil,
      UInt32.toNat_or, toNat_shiftLeft32, toNat_and_mask32 (n := 5), toNat_and_mask32 (n := 7),
      toNat_shiftRight32, toNat_u32FromSlice, image_mod_two_pow, image_shiftRight, or_zero,
      reduceToNat, reduceSub, reduceAdd]
    simp only [bits_eq_image, image_mod_two_pow]
    rfl
  | bType | jType =>
    refine testBit_signedResult_of_eq ?_ (by decide) i
    simp (disch := decide) only [RiscVInstruction.places, gather_cons, gather_nil,
      UInt32.toNat_or, toNat_shiftLeft32, toNat_and_mask32 (n := 1), toNat_and_mask32 (n := 4),
      toNat_and_mask32 (n := 6), toNat_and_mask32 (n := 8), toNat_and_mask32 (n := 10),
      toNat_shiftRight32, toNat_u32FromSlice, image_mod_two_pow, image_shiftRight, or_zero,
      Nat.or_assoc, reduceToNat, reduceSub, reduceAdd]
    rfl
  | cbType | cjType =>
    refine testBit_signedResult_of_eq ?_ (by decide) i
    simp (disch := decide) only [RiscVInstruction.places, gather_cons, gather_nil,
      UInt16.toNat_toUInt32, UInt16.toNat_or, toNat_shiftLeft16, toNat_and_mask16 (n := 1),
      toNat_and_mask16 (n := 2), toNat_and_mask16 (n := 3), toNat_shiftRight16,
      toNat_u16FromSlice, image_mod_two_pow, image_shiftRight, or_zero, Nat.or_assoc,
      UInt16.reduceToNat, reduceSub, reduceAdd]
    rfl

theorem testBit_image_low (word a len i : ℕ) (hlen : len ≤ 64) :
    (Place.image ⟨a, len, 0⟩ word).testBit i =
      (decide (i < 64) && if i < len then (Place.image ⟨a, len, 0⟩ word).testBit i else false) := by
  by_cases hi : i < len
  · rw [if_pos hi, decide_eq_true (Nat.lt_of_lt_of_le hi hlen), Bool.true_and]
  · rw [if_neg hi, Bool.and_false, testBit_image, decide_eq_false, Bool.false_and]
    exact fun h => hi (by simpa using h.2)

theorem testBit_readValue_loongArch64 (instruction : LoongArch64Instruction)
    (h : (loongArch64 instruction).direct) (i : ℕ) :
    (instruction.readValue bytes).1.toNat.testBit i =
      (loongArch64 instruction).readBit
        (gather instruction.places (ofLeBytes bytes)) i := by
  cases instruction with
  | call30 | call36 => cases h
  | shift5 | shift10 =>
    rw [LoongArch64Instruction.places, gather_cons, gather_nil, or_zero]
    refine (congrArg (Nat.testBit · i) ?_).trans (testBit_image_low _ _ _ i (by decide))
    simp (disch := decide) only [LoongArch64Instruction.readValue, UInt32.toNat_toUInt64,
      toNat_and_mask32 (n := 20), toNat_and_mask32 (n := 12), toNat_shiftRight32,
      toNat_u32FromSlice, bits_eq_image, image_mod_two_pow, reduceToNat, reduceSub]
    rfl
  | branch26 | branch21 =>
    refine testBit_signedResult_of_eq ?_ (by decide) i
    simp (disch := decide) only [LoongArch64Instruction.places, gather_cons, gather_nil,
      UInt32.toNat_or, toNat_shiftLeft32, toNat_and_mask32 (n := 16), toNat_and_mask32 (n := 10),
      toNat_and_mask32 (n := 5), toNat_shiftRight32, toNat_u32FromSlice, image_mod_two_pow,
      or_zero, reduceToNat, reduceSub]
    simp only [bits_eq_image, image_mod_two_pow]
    rfl

theorem toNat_lowBits_word {a n : ℕ} (ha : a < 32) (hn : a + n ≤ 32) :
    (lowBits ((u32FromSlice bytes).toUInt64 >>> ofNat a) n).toNat =
      Place.image ⟨a, n, 0⟩ (ofLeBytes bytes) := by
  have hsize : (ofNat a).toNat = a := UInt64.toNat_ofNat_of_lt' (Nat.lt_trans ha (by decide))
  rw [toNat_lowBits (by omega), toNat_shiftRight64 (by omega), hsize, UInt32.toNat_toUInt64,
    toNat_u32FromSlice, Nat.mod_mod_of_dvd _ (Nat.pow_dvd_pow 2 (by omega)), bits_eq_image,
    image_mod_two_pow]
  exact congrArg (fun n => Place.image ⟨a, n, 0⟩ _) (Nat.min_eq_left (by omega))

theorem testBit_signed_word {a n : ℕ} (hpos : 0 < n) (ha : a < 32) (hn : a + n ≤ 32) (i : ℕ) :
    (lowBitsSigned ((u32FromSlice bytes).toUInt64 >>> ofNat a) n).toNat.testBit i =
      extended n (gather [⟨0, n, a⟩] (ofLeBytes bytes)) i := by
  rw [testBit_lowBitsSigned hpos (by omega), toNat_lowBits_word bytes ha hn, gather_cons,
    gather_nil, or_zero]

theorem testBit_unsigned_word {a n : ℕ} (ha : a < 32) (hn : a + n ≤ 32) (i : ℕ) :
    (lowBits ((u32FromSlice bytes).toUInt64 >>> ofNat a) n).toNat.testBit i =
      (decide (i < 64) &&
        if i < n then (gather [⟨0, n, a⟩] (ofLeBytes bytes)).testBit i else false) := by
  rw [toNat_lowBits_word bytes ha hn, gather_cons, gather_nil, or_zero]
  exact testBit_image_low _ a n i (by omega)

theorem testBit_readValue_aarch64 (instruction : AArch64Instruction)
    (h : (aarch64 instruction).direct) (i : ℕ) :
    (instruction.readValue bytes).1.toNat.testBit i =
      (aarch64 instruction).readBit
        (gather instruction.places (ofLeBytes bytes)) i := by
  cases instruction with
  | movnz => cases h
  | adr =>
    show (lowBits ((u32FromSlice bytes).toUInt64 >>> ofNat 29) 2 |||
      (lowBitsSigned ((u32FromSlice bytes).toUInt64 >>> ofNat 5) 19 <<< 2)).toNat.testBit i =
        (decide (i < 64) &&
          if i < 21 then (gather [⟨0, 2, 29⟩, ⟨2, 19, 5⟩] (ofLeBytes bytes)).testBit i
          else true && (gather [⟨0, 2, 29⟩, ⟨2, 19, 5⟩] (ofLeBytes bytes)).testBit 20)
    rw [toNat_or, testBit_or, toNat_shiftLeft64 (by decide), testBit_image,
      testBit_signed_word bytes (by decide) (by decide) (by decide),
      toNat_lowBits_word bytes (by decide) (by decide)]
    simp only [extended, gather_cons, gather_nil, or_zero, testBit_or, testBit_image]
    rcases Nat.lt_or_ge i 2 with h2 | h2
    · have h21 : i < 21 := by omega
      have h64 : i < 64 := by omega
      simp [h2, h21, h64, Nat.not_le.2 h2]
    · rcases Nat.lt_or_ge i 21 with h21 | h21
      · have h64 : i < 64 := by omega
        have hsub : i - 2 < 19 := by omega
        have hsub' : i - 2 < 64 := by omega
        simp [h2, h21, h64, hsub, hsub', Nat.not_lt.2 h2]
      · have hsub : ¬ i - 2 < 19 := by omega
        have hsub' : i < 64 → i - 2 < 64 := by omega
        by_cases h64 : i < 64
        · simp [h2, Nat.not_lt.2 h21, h64, hsub, hsub' h64, Nat.not_lt.2 h2]
        · simp [h64, Nat.not_lt.2 h2]
  | movkz | ldr | ldSt | tstBr | bcond =>
    exact testBit_signed_word bytes (by decide) (by decide) (by decide) i
  | ldrRegister | add => exact testBit_unsigned_word bytes (by decide) (by decide) i
  | jumpCall =>
    have h := testBit_signed_word bytes (a := 0) (n := 26) (by decide) (by decide) (by decide) i
    have hshift : (u32FromSlice bytes).toUInt64 >>> ofNat 0 =
        (u32FromSlice bytes).toUInt64 := UInt64.shiftRight_zero
    rw [hshift] at h
    exact h

theorem testBit_readValue (instruction : RelocationInstruction) (h : instruction.direct) (i : ℕ) :
    (instruction.readValue bytes).1.toNat.testBit i =
      instruction.readBit (gather instruction.places (ofLeBytes bytes)) i := by
  cases instruction with
  | aarch64 instruction => exact testBit_readValue_aarch64 bytes instruction h i
  | riscV instruction => exact testBit_readValue_riscV bytes instruction h i
  | loongArch64 instruction => exact testBit_readValue_loongArch64 bytes instruction h i

end Sld.Incremental.Fields
