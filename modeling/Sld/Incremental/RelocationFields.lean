/-
# `Incremental.RelocationFields` — how a relocation is written

A relocation fills a field: some bytes, or the immediate of an instruction.
What it writes is, byte by byte, what it keeps of a byte and what it sets.

RISC-V and LoongArch64 instructions are cleared before they are filled.  Of
the AArch64 ones only MOVN and MOVZ are; in the others, the bits of the
value are added to those that are there.
-/
import Sld.Dynamic.AbsoluteRelocations
import Sld.Incremental.RelocationPatches

namespace Sld.Incremental.Fields

open Sld.Dynamic (ElfArch)

/-! ## Bits -/

def extractBitRange (value : UInt64) (start stop : ℕ) : UInt64 :=
  if start = 0 ∧ stop = 64 then value
  else (value >>> UInt64.ofNat start) &&& ((1 <<< UInt64.ofNat (stop - start)) - 1)

def extractBit (value : UInt64) (position : ℕ) : UInt64 :=
  extractBitRange value position (position + 1)

/-- What is kept of a byte, and what is set in it. -/
structure BytePattern where
  kept : UInt8
  set : UInt8
deriving DecidableEq

def BytePattern.apply (pattern : BytePattern) (byte : UInt8) : UInt8 :=
  (byte &&& pattern.kept) ||| pattern.set

/-- A byte that is replaced. -/
def BytePattern.whole (byte : UInt8) : BytePattern := ⟨0, byte⟩

/-- `and_from_slice` and `or_from_slice`, with the bytes of two words -/
def wordPattern (width kept set : ℕ) : List BytePattern :=
  List.zipWith BytePattern.mk (leBytes kept width) (leBytes set width)

/-- The first bytes of the output, each with its pattern. -/
def overlay (patterns : List BytePattern) (output : List UInt8) : List UInt8 :=
  List.zipWith BytePattern.apply patterns output ++ output.drop patterns.length

/-! ## Instructions -/

/-- The AArch64 instructions of ELF relocations. -/
inductive AArch64Instruction where
  | adr
  | movkz
  | movnz
  | ldr
  | ldrRegister
  | add
  | ldSt
  | tstBr
  | bcond
  | jumpCall
  deriving DecidableEq

inductive RiscVInstruction where
  | uiType
  | uType
  | iType
  | sType
  | bType
  | jType
  | cbType
  | cjType
  | cluiType
  deriving DecidableEq

inductive LoongArch64Instruction where
  | shift5
  | shift10
  | branch21
  | branch26
  | call30
  | call36
  deriving DecidableEq

inductive RelocationInstruction where
  | aarch64 (instruction : AArch64Instruction)
  | riscV (instruction : RiscVInstruction)
  | loongArch64 (instruction : LoongArch64Instruction)
  deriving DecidableEq

namespace AArch64Instruction

/-- All bits, but for the instructions that are written anew. -/
def kept : AArch64Instruction → UInt32
  | movnz => 0x0060001F
  | _ => 0xFFFFFFFF

def mask (extracted : UInt64) (negative : Bool) : AArch64Instruction → UInt32
  | adr => ((extractBitRange extracted 0 2).toUInt32 <<< 29) |||
      ((extractBitRange extracted 2 32).toUInt32 <<< 5)
  | movkz | ldr | tstBr | bcond => extracted.toUInt32 <<< 5
  | movnz =>
    if negative then (0x92800000 : UInt32) ||| ((extractBitRange (~~~extracted) 0 16).toUInt32 <<< 5)
    else (0xD2800000 : UInt32) ||| ((extractBitRange extracted 0 16).toUInt32 <<< 5)
  | ldrRegister | add | ldSt => extracted.toUInt32 <<< 10
  | jumpCall => extracted.toUInt32

def pattern (instruction : AArch64Instruction) (extracted : UInt64) (negative : Bool) :
    List BytePattern :=
  wordPattern 4 instruction.kept.toNat (instruction.mask extracted negative).toNat

end AArch64Instruction

namespace RiscVInstruction

/-- `UTYPE_IMMEDIATE_MASK`; the low part, when it is added, is signed. -/
def uTypePattern (extracted : UInt64) : List BytePattern :=
  wordPattern 4 0x00000FFF ((extractBitRange (extracted + 0x800) 12 32).toUInt32 <<< 12).toNat

def iTypePattern (extracted : UInt64) : List BytePattern :=
  wordPattern 4 0x000FFFFF (extracted <<< 20).toUInt32.toNat

def pattern (extracted : UInt64) : RiscVInstruction → List BytePattern
  | uiType => uTypePattern extracted ++ iTypePattern extracted
  | uType => uTypePattern extracted
  | iType => iTypePattern extracted
  | sType => wordPattern 4 0x01FFF07F
      ((extractBitRange extracted 0 5 <<< 7) ||| (extractBitRange extracted 5 12 <<< 25)).toUInt32.toNat
  | bType => wordPattern 4 0x01FFF07F
      ((extractBit extracted 11 <<< 7) ||| (extractBitRange extracted 1 5 <<< 8) |||
        (extractBitRange extracted 5 11 <<< 25) ||| (extractBit extracted 12 <<< 31)).toUInt32.toNat
  | jType => wordPattern 4 0x00000FFF
      ((extractBitRange extracted 12 20 <<< 12) ||| (extractBit extracted 11 <<< 20) |||
        (extractBitRange extracted 1 11 <<< 21) ||| (extractBit extracted 20 <<< 31)).toUInt32.toNat
  | cbType => wordPattern 2 0xE383
      ((extractBit extracted 5 <<< 2) ||| (extractBitRange extracted 1 3 <<< 3) |||
        (extractBitRange extracted 6 8 <<< 5) ||| (extractBitRange extracted 3 5 <<< 10) |||
        (extractBit extracted 8 <<< 12)).toNat
  | cjType => wordPattern 2 0xE003
      ((extractBit extracted 5 <<< 2) ||| (extractBitRange extracted 1 4 <<< 3) |||
        (extractBit extracted 7 <<< 6) ||| (extractBit extracted 6 <<< 7) |||
        (extractBit extracted 10 <<< 8) ||| (extractBitRange extracted 8 10 <<< 9) |||
        (extractBit extracted 4 <<< 11) ||| (extractBit extracted 11 <<< 12)).toNat
  | cluiType =>
    let hi20 := (extracted + 0x800) >>> 12
    wordPattern 2 0xEF83
      (((hi20 &&& 0x1F) <<< 2) ||| (((hi20 >>> 5) &&& 1) <<< 12)).toNat

end RiscVInstruction

def LoongArch64Instruction.pattern (extracted : UInt64) :
    LoongArch64Instruction → List BytePattern
  | shift5 => wordPattern 4 0xFE00001F (extracted <<< 5).toUInt32.toNat
  | shift10 => wordPattern 4 0xFFC003FF (extracted <<< 10).toUInt32.toNat
  | branch26 => wordPattern 4 0xFC000000
      (((extracted &&& 0xFFFF) <<< 10) ||| (extracted >>> 16)).toUInt32.toNat
  | branch21 => wordPattern 4 0xFC0003E0
      (((extracted &&& 0xFFFF) <<< 10) ||| (extracted >>> 16)).toUInt32.toNat
  | call30 => wordPattern 8 0xFFF803FFFE00001F
      (((extracted &&& 0x1FF) <<< 42) ||| ((extracted &&& ~~~0x1FF) <<< 5)).toNat
  | call36 => wordPattern 8 0xFC0003FFFE00001F
      (((extracted &&& 0xFFFF) <<< 42) ||| (((extracted + 0x8000) >>> 16) <<< 5)).toNat

namespace RelocationInstruction

/-- `write_to_value` -/
def pattern (extracted : UInt64) (negative : Bool) : RelocationInstruction → List BytePattern
  | aarch64 instruction => instruction.pattern extracted negative
  | riscV instruction => instruction.pattern extracted
  | loongArch64 instruction => instruction.pattern extracted

def writeWindowsSize : RelocationInstruction → ℕ
  | aarch64 _ => 4
  | riscV .uiType => 8
  | riscV _ => 4
  | loongArch64 _ => 4

theorem writeWindowsSize_pos (instruction : RelocationInstruction) :
    0 < instruction.writeWindowsSize := by
  cases instruction with
  | aarch64 _ => exact Nat.succ_pos 3
  | riscV instruction => cases instruction <;> decide
  | loongArch64 _ => exact Nat.succ_pos 3

end RelocationInstruction

/-! ## Kinds -/

/-- `RelocationKind`, in the order of the source -/
inductive RelocationKind where
  | absolute
  | absoluteSet
  | absoluteSetWord6
  | absoluteAddition
  | absoluteAdditionWord6
  | absoluteSubtraction
  | absoluteSubtractionWord6
  | absoluteLowPart
  | pairSubtractionULEB128 (expected : UInt32)
  | relative
  | relativeLoongArchHigh
  | relativeRiscVLow12
  | symRelGotBase
  | gotRelGotBase
  | got
  | pltRelGotBase
  | pltRelative
  | gotRelative
  | gotRelativeLoongArch64
  | tlsGd
  | tlsGdGot
  | tlsGdGotBase
  | tlsLd
  | tlsLdGot
  | tlsLdGotBase
  | dtpOff
  | gotTpOff
  | gotTpOffLoongArch64
  | gotTpOffGot
  | gotTpOffGotBase
  | tpOff
  | tlsDesc
  | tlsDescLoongArch64
  | tlsDescGot
  | tlsDescGotBase
  | tlsDescCall
  | none
  | alignment
  deriving DecidableEq

inductive RelocationSize where
  | byteSize (size : ℕ)
  | bitMasking (instruction : RelocationInstruction) (start stop : ℕ)
  deriving DecidableEq

inductive PageMask where
  | symbolPlusAddendAndPosition (mask : UInt64)
  | gotEntryAndPosition (mask : UInt64)
  | gotBase (mask : UInt64)
  | position (mask : UInt64)
  deriving DecidableEq

/-- The values allowed, the upper bound excluded. -/
structure AllowedRange where
  min : ℤ
  max : ℤ
deriving DecidableEq

def AllowedRange.noCheck : AllowedRange := ⟨-(2 ^ 63), 2 ^ 63 - 1⟩

def AllowedRange.Contains (range : AllowedRange) (value : ℤ) : Prop :=
  range.min ≤ value ∧ value < range.max

instance (range : AllowedRange) (value : ℤ) : Decidable (range.Contains value) :=
  inferInstanceAs (Decidable (_ ∧ _))

structure RelocationKindInfo where
  kind : RelocationKind
  size : RelocationSize
  mask : Option PageMask
  range : AllowedRange
  alignment : ℕ
  bias : UInt64
  thunkable : Bool
deriving DecidableEq

/-- `leb128::write::unsigned`: 64 bits fit into ten bytes. -/
def uleb128 : ℕ → ℕ → List UInt8
  | 0, _ => []
  | fuel + 1, value =>
    if value < 128 then [UInt8.ofNat value]
    else UInt8.ofNat (value % 128 + 128) :: uleb128 fuel (value / 128)

namespace RelocationKindInfo

variable (info : RelocationKindInfo)

def isPairSubtraction : Bool :=
  match info.kind with
  | .pairSubtractionULEB128 _ => true
  | _ => false

/-- `relocation_record_size` -/
def recordSize : ℕ :=
  match info.size with
  | .byteSize size => size
  | .bitMasking instruction _ _ => instruction.writeWindowsSize

/-- The conditions of `verify`. -/
def Verified (value : UInt64) : Prop :=
  value.toNat % info.alignment = 0 ∧ info.range.Contains value.toInt64.toInt

instance (value : UInt64) : Decidable (info.Verified value) :=
  inferInstanceAs (Decidable (_ ∧ _))

/-- What a value does to the bytes of a field. -/
def pattern (value : UInt64) : List BytePattern :=
  if info.isPairSubtraction then (uleb128 10 value.toNat).map .whole
  else
    match info.size with
    | .byteSize size => (leBytes value.toNat size).map .whole
    | .bitMasking instruction start stop =>
      instruction.pattern (extractBitRange value start stop) (value.toInt64 < 0)

/-- What is said of a field that is not in its section. -/
def outOfBounds (value : UInt64) : String :=
  if info.isPairSubtraction then
    s!"cannot write encoded ULEB128 value of {(info.pattern value).length} bytes"
  else
    match info.size with
    | .byteSize _ => "Relocation outside of bounds of section"
    | .bitMasking _ _ _ => "index out of bounds"

def writeToBuffer (value : UInt64) (output : List UInt8) : Except String (List UInt8) :=
  if value.toNat % info.alignment ≠ 0 then
    throw s!"Relocation {value.toInt64} not aligned to {info.alignment} bytes"
  else if ¬info.range.Contains value.toInt64.toInt then
    throw s!"Relocation {value.toInt64} outside of bounds [{info.range.min}, {info.range.max})"
  else if output.length < (info.pattern value).length then throw (info.outOfBounds value)
  else pure (overlay (info.pattern value) output)

end RelocationKindInfo

/-! ## What writing does -/

theorem length_overlay (patterns : List BytePattern) (output : List UInt8)
    (h : patterns.length ≤ output.length) : (overlay patterns output).length = output.length := by
  rw [overlay, List.length_append, List.length_zipWith, List.length_drop]
  omega

theorem apply_whole (byte old : UInt8) : (BytePattern.whole byte).apply old = byte := by
  simp [BytePattern.apply, BytePattern.whole]

theorem overlay_whole {bytes output : List UInt8} (h : bytes.length ≤ output.length) :
    overlay (bytes.map .whole) output = bytes ++ output.drop bytes.length := by
  induction bytes generalizing output with
  | nil => rfl
  | cons byte bytes ih =>
    cases output with
    | nil => exact absurd h (Nat.not_succ_le_zero _)
    | cons old output =>
      show (BytePattern.whole byte).apply old :: overlay (bytes.map .whole) output = _
      rw [apply_whole, ih (Nat.le_of_succ_le_succ h)]
      rfl

variable {info : RelocationKindInfo} {value : UInt64} {output new : List UInt8}

theorem writeToBuffer_eq_ok : info.writeToBuffer value output = .ok new ↔
    info.Verified value ∧ (info.pattern value).length ≤ output.length ∧
      new = overlay (info.pattern value) output := by
  unfold RelocationKindInfo.writeToBuffer RelocationKindInfo.Verified
  split
  next halign => exact ⟨nofun, fun h => absurd h.1.1 halign⟩
  next halign =>
    split
    next hrange => exact ⟨nofun, fun h => absurd h.1.2 hrange⟩
    next hrange =>
      split
      next hlen => exact ⟨nofun, fun h => absurd h.2.1 (by omega)⟩
      next hlen =>
        constructor
        · intro h
          exact ⟨⟨not_not.1 halign, not_not.1 hrange⟩, by omega, (Except.ok.inj h).symm⟩
        · rintro ⟨-, -, rfl⟩
          rfl

theorem length_writeToBuffer (h : info.writeToBuffer value output = .ok new) :
    new.length = output.length := by
  obtain ⟨-, hlen, rfl⟩ := writeToBuffer_eq_ok.1 h
  exact length_overlay _ _ hlen

/-- `RelocationSize::BitMasking` -/
def RelocationKindInfo.instruction (info : RelocationKindInfo) : Option InstructionRelocation :=
  match info.size with
  | .byteSize _ => none
  | .bitMasking instruction _ _ => some {
      writeWindowsSize := instruction.writeWindowsSize
      writeWindowsSize_pos := instruction.writeWindowsSize_pos
      writeToBuffer := info.writeToBuffer
      length_writeToBuffer := fun _ _ _ => length_writeToBuffer }

/-- The kinds of an architecture that are completed from the output. -/
def instructionKinds (arch : ElfArch) (relocationTypeFromRaw : UInt32 → Option RelocationKindInfo) :
    RelocationKinds := fun kind =>
  if arch = .x8664 then none else (relocationTypeFromRaw kind).bind RelocationKindInfo.instruction

end Sld.Incremental.Fields
