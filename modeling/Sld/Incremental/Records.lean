/-
# `Incremental.Records` — what the linker remembers about the output

Four kinds of record say where input bytes went in the output:

Each carries the input file it belongs to and the input proper (the same
text for an object, a member reference for an archive).  A relocation
record may also name the section its target lies in, which can belong to
another input file; that is the only reference from one file's records
into another file.

The orders are the derived ones: lexicographic in the order of the fields,
an absent value before any present one, text by code point.
-/
import Mathlib.Data.Char
import Mathlib.Data.List.Lex
import Mathlib.Data.Prod.Lex
import Mathlib.Order.WithBot
import Sld.Text.Numeral

namespace Sld.Incremental


def absentField : Text := "-".toList

structure SectionRecord where
  inputFile : Text
  input : Text
  sectionIndex : UInt32
  outputOffset : UInt64
  size : UInt64
  deriving DecidableEq

structure RelocationTargetRecord where
  inputFile : Text
  input : Text
  sectionIndex : UInt32
  sectionOffset : UInt64
  deriving DecidableEq

structure RelocationRecord where
  targetSymbolId : UInt32
  writtenValue : Option UInt64
  targetValue : UInt64
  targetName : Option Text
  target : Option RelocationTargetRecord
  inputFile : Text
  input : Text
  sectionIndex : UInt32
  relocationOffset : UInt64
  outputOffset : UInt64
  size : UInt64
  kind : UInt32
  addend : Int64
  deriving DecidableEq

structure FdeRecord where
  inputFile : Text
  input : Text
  sectionIndex : UInt32
  ehFrameSectionIndex : UInt32
  inputOffset : UInt64
  outputOffset : UInt64
  size : UInt64
  deriving DecidableEq

structure DynamicRelocationRecord where
  inputFile : Text
  input : Text
  sectionIndex : UInt32
  relocationOffset : UInt64
  outputOffset : UInt64
  size : UInt64
  outputROffset : Option UInt64
  outputRInfo : Option UInt64
  deriving DecidableEq

/-- The four lists together. -/
structure CompactRecords where
  sections : List SectionRecord
  relocations : List RelocationRecord
  fdes : List FdeRecord
  dynamicRelocations : List DynamicRelocationRecord

instance : Inhabited CompactRecords := ⟨⟨[], [], [], []⟩⟩

/-! ## Derived orders -/

/-- An optional value, absent first. -/
def absentFirst {α : Type} (o : Option α) : WithBot α := o

theorem absentFirst_inj {α : Type} {a b : Option α} : absentFirst a = absentFirst b ↔ a = b :=
  Iff.rfl

/-- An optional number, absent first. -/
def optionKey (o : Option UInt64) : WithBot Nat := absentFirst (o.map UInt64.toNat)

theorem optionKey_injective : Function.Injective optionKey :=
  Option.map_injective fun _ _ h => UInt64.toNat_inj.mp h

def SectionRecord.key (r : SectionRecord) : Text ×ₗ Text ×ₗ Nat ×ₗ Nat ×ₗ Nat :=
  toLex (r.inputFile, toLex (r.input, toLex (r.sectionIndex.toNat,
    toLex (r.outputOffset.toNat, r.size.toNat))))

theorem SectionRecord.key_injective : Function.Injective SectionRecord.key := by
  rintro ⟨⟩ ⟨⟩ h
  simpa [key, UInt32.toNat_inj, UInt64.toNat_inj] using h

instance : LinearOrder SectionRecord := LinearOrder.lift' _ SectionRecord.key_injective

def RelocationTargetRecord.key (r : RelocationTargetRecord) : Text ×ₗ Text ×ₗ Nat ×ₗ Nat :=
  toLex (r.inputFile, toLex (r.input, toLex (r.sectionIndex.toNat, r.sectionOffset.toNat)))

theorem RelocationTargetRecord.key_injective : Function.Injective RelocationTargetRecord.key := by
  rintro ⟨⟩ ⟨⟩ h
  simpa [key, UInt32.toNat_inj, UInt64.toNat_inj] using h

instance : LinearOrder RelocationTargetRecord :=
  LinearOrder.lift' _ RelocationTargetRecord.key_injective

def RelocationRecord.key (r : RelocationRecord) :
    Nat ×ₗ WithBot Nat ×ₗ Nat ×ₗ WithBot Text ×ₗ WithBot RelocationTargetRecord ×ₗ
      Text ×ₗ Text ×ₗ Nat ×ₗ Nat ×ₗ Nat ×ₗ Nat ×ₗ Nat ×ₗ Int :=
  toLex (r.targetSymbolId.toNat, toLex (optionKey r.writtenValue, toLex (r.targetValue.toNat,
    toLex (absentFirst r.targetName, toLex (absentFirst r.target, toLex (r.inputFile,
      toLex (r.input, toLex (r.sectionIndex.toNat, toLex (r.relocationOffset.toNat,
        toLex (r.outputOffset.toNat, toLex (r.size.toNat,
          toLex (r.kind.toNat, r.addend.toInt))))))))))))

theorem RelocationRecord.key_injective : Function.Injective RelocationRecord.key := by
  rintro ⟨⟩ ⟨⟩ h
  simpa [key, optionKey_injective.eq_iff, absentFirst_inj, UInt32.toNat_inj, UInt64.toNat_inj,
    Int64.toInt_inj] using h

instance : LinearOrder RelocationRecord := LinearOrder.lift' _ RelocationRecord.key_injective

def FdeRecord.key (r : FdeRecord) : Text ×ₗ Text ×ₗ Nat ×ₗ Nat ×ₗ Nat ×ₗ Nat ×ₗ Nat :=
  toLex (r.inputFile, toLex (r.input, toLex (r.sectionIndex.toNat,
    toLex (r.ehFrameSectionIndex.toNat, toLex (r.inputOffset.toNat,
      toLex (r.outputOffset.toNat, r.size.toNat))))))

theorem FdeRecord.key_injective : Function.Injective FdeRecord.key := by
  rintro ⟨⟩ ⟨⟩ h
  simpa [key, UInt32.toNat_inj, UInt64.toNat_inj] using h

instance : LinearOrder FdeRecord := LinearOrder.lift' _ FdeRecord.key_injective

def DynamicRelocationRecord.key (r : DynamicRelocationRecord) :
    Text ×ₗ Text ×ₗ Nat ×ₗ Nat ×ₗ Nat ×ₗ Nat ×ₗ WithBot Nat ×ₗ WithBot Nat :=
  toLex (r.inputFile, toLex (r.input, toLex (r.sectionIndex.toNat,
    toLex (r.relocationOffset.toNat, toLex (r.outputOffset.toNat, toLex (r.size.toNat,
      toLex (optionKey r.outputROffset, optionKey r.outputRInfo)))))))

theorem DynamicRelocationRecord.key_injective : Function.Injective DynamicRelocationRecord.key := by
  rintro ⟨⟩ ⟨⟩ h
  simpa [key, optionKey_injective.eq_iff, UInt32.toNat_inj, UInt64.toNat_inj] using h

instance : LinearOrder DynamicRelocationRecord :=
  LinearOrder.lift' _ DynamicRelocationRecord.key_injective

end Sld.Incremental
