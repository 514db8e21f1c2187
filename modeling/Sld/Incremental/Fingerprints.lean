/-
# `Incremental.Fingerprints` — what is blanked out of an input

An input that changed can be patched into the output when it is the same
input but for what the patches handle.  Both versions are hashed with that
blanked out: the contents of the sections that are patched and the size
fields of their headers, the addends of recorded relocations, the values of
the symbols that recorded relocations refer to, and the recorded frame
descriptions.  Each version has its own places, found through its own
headers.

    MemberMask                what is blanked out of one object file
    MemberMask.ranges         where it is
    fingerprint               the hash of the rest
-/
import Mathlib.Data.List.Sort
import Sld.Elf.SectionHeaders
import Sld.Text.Split

namespace Sld.Incremental.Masks

open Store (ByteRange InOrder masked part)
open Elf (SectionHeader elfSectionHeaders headerTable readLe)

/-! ## Ranges -/

def elfSectionSizeFieldRange (bytes : List UInt8) (sectionIndex : ℕ) : Option ByteRange := do
  let table ← headerTable bytes
  let field := table.sizeField sectionIndex
  if sectionIndex ≥ table.count ∨
      table.entrySize < table.elfClass.shSize.offset + table.elfClass.shSize.width ∨
      bytes.length < field.stop then none
  else some field

def elfSymbolValueFieldRange (bytes : List UInt8) (symbolIndex : ℕ) : Option ByteRange := do
  let table ← headerTable bytes
  let symbolOffset := symbolIndex * table.elfClass.symbolSize
  let headers ← elfSectionHeaders bytes
  let header ← headers.find? fun header =>
    header.shType = Elf.shtSymtab ∧ header.shEntsize = table.elfClass.symbolSize ∧
      symbolOffset + table.elfClass.symbolSize ≤ header.shSize ∧
      (table.elfClass.stValue.range (header.shOffset + symbolOffset)).stop ≤ bytes.length
  return table.elfClass.stValue.range (header.shOffset + symbolOffset)

/-- An entry of a relocation section: the place it is about, and where its
addend is. -/
structure RelaPatchEntry where
  offset : ℕ
  addendRange : ByteRange
deriving DecidableEq

def relaEntrySize : ℕ := 24

def SectionHeader.isRelaFor (header : SectionHeader) (sectionIndex : ℕ) : Bool :=
  header.shType = Elf.shtRela ∧ header.shInfo = sectionIndex ∧ header.shEntsize = relaEntrySize

/-- The entries of one relocation section. -/
def relaEntriesOf (bytes : List UInt8) (header : SectionHeader) : Option (List RelaPatchEntry) :=
  if header.shOffset + header.shSize ≤ bytes.length then
    (List.range (header.shSize / relaEntrySize)).mapM fun index => do
      let entryStart := header.shOffset + index * relaEntrySize
      let offset ← readLe bytes entryStart 8
      return ⟨offset, ⟨entryStart + 16, entryStart + 16 + 8⟩⟩
  else none

def relaEntriesForSection (bytes : List UInt8) (headers : List SectionHeader)
    (sectionIndex : ℕ) : Option (List RelaPatchEntry) := do
  let entries ← (headers.filter fun header => SectionHeader.isRelaFor header sectionIndex).mapM
    fun header => relaEntriesOf bytes header
  return entries.flatten

/-- A relocation that was recorded, by its section and its place there. -/
structure RelocationPlace where
  sectionIndex : ℕ
  relocationOffset : ℕ
deriving DecidableEq

/-- `relocation_addend_ranges_for_input_with_lookup`, for one record -/
def relocationAddendRange (bytes : List UInt8) (record : RelocationPlace) : Option ByteRange := do
  let headers ← elfSectionHeaders bytes
  let entries := (relaEntriesForSection bytes headers record.sectionIndex).getD []
  let entry ← entries.find? fun entry => entry.offset = record.relocationOffset
  return entry.addendRange

/-- `dynamic_relocation_patches_for_input_bytes`, the addend of the entry that
`dynamic_relocation_entry_range` finds: sections that reach beyond the file are
passed over. -/
def dynamicRelocationAddendRange (bytes : List UInt8) (record : RelocationPlace) :
    Option ByteRange := do
  let headers ← elfSectionHeaders bytes
  let entry ← ((headers.filter fun header =>
    SectionHeader.isRelaFor header record.sectionIndex).flatMap
      fun header => (relaEntriesOf bytes header).getD []).find?
        fun entry => entry.offset = record.relocationOffset
  return entry.addendRange

/-- A frame description in `.eh_frame`: its bytes, and as far as its relocations
are looked for. -/
structure FdeMask where
  ehFrameSectionIndex : ℕ
  inputOffset : ℕ
  size : ℕ
  relocationSize : ℕ
deriving DecidableEq

def fdeInputRange (length : ℕ) (headers : List SectionHeader) (fde : FdeMask) :
    Option ByteRange := do
  let header ← headers[fde.ehFrameSectionIndex]?
  let range : ByteRange :=
    ⟨header.shOffset + fde.inputOffset, header.shOffset + fde.inputOffset + fde.size⟩
  if range.stop ≤ length ∧ range.stop ≤ header.shOffset + header.shSize ∧ 8 ≤ fde.size
  then some range else none

/-- `fde_patch_input_ranges_for_input_bytes`, for one record: the bytes of the
frame description, and the addends of its relocations. -/
def fdePatchInputRanges (bytes : List UInt8) (fde : FdeMask) : Option (List ByteRange) := do
  let headers ← elfSectionHeaders bytes
  let range ← fdeInputRange bytes.length headers fde
  let entries ← relaEntriesForSection bytes headers fde.ehFrameSectionIndex
  return range :: (entries.filter fun entry => fde.inputOffset ≤ entry.offset ∧
    entry.offset < fde.inputOffset + fde.relocationSize).map RelaPatchEntry.addendRange

/-! ## One object file -/

/-- A section that is patched: its index in this version, and the room it has in
the output. -/
structure PatchedSection where
  sectionIndex : ℕ
  outputSize : ℕ
deriving DecidableEq

/-- An object file in an input. -/
def memberBytes (file : List UInt8) (member : ByteRange) : List UInt8 :=
  part file member.start (member.stop - member.start)

/-- What is blanked out of one object file.  The sections and the records are
those that the names and identifiers lead to in this version. -/
structure MemberMask where
  /-- where the object file is in the input -/
  member : ByteRange
  sections : List PatchedSection
  relocations : List RelocationPlace
  dynamicRelocations : List RelocationPlace
  symbols : List ℕ
  fdes : List FdeMask
deriving DecidableEq

namespace MemberMask

variable (mask : MemberMask)

def bytes (file : List UInt8) : List UInt8 := memberBytes file mask.member

/-- `patch_ranges_with_lookup`, for one section: its content and the size field
of its header. -/
def sectionRanges (file : List UInt8) (patched : PatchedSection) : Option (List ByteRange) := do
  let table ← headerTable (mask.bytes file)
  let content ← table.content (mask.bytes file) patched.sectionIndex
  if patched.outputSize < content.stop - content.start then none
  else if file.length < mask.member.start + content.stop then none
  else some (content :: (elfSectionSizeFieldRange (mask.bytes file) patched.sectionIndex).toList)

/-- What is blanked out besides: addends, values of symbols and frame
descriptions. -/
def extraRanges (file : List UInt8) : List ByteRange :=
  mask.dynamicRelocations.filterMap (dynamicRelocationAddendRange (mask.bytes file)) ++
    (mask.relocations.filterMap (relocationAddendRange (mask.bytes file)) ++
      (mask.symbols.filterMap (elfSymbolValueFieldRange (mask.bytes file)) ++
        (mask.fdes.filterMap (fdePatchInputRanges (mask.bytes file))).flatten))

end MemberMask

/-! ## The fingerprint -/

/-- The order of `dedup_ranges`. -/
def ByteRange.le (range other : ByteRange) : Prop :=
  range.start < other.start ∨ range.start = other.start ∧ range.stop ≤ other.stop

instance (range other : ByteRange) : Decidable (ByteRange.le range other) :=
  inferInstanceAs (Decidable (_ ∨ _))

instance decidableInOrder (length : ℕ) :
    ∀ (position : ℕ) (ranges : List ByteRange), Decidable (InOrder length position ranges)
  | position, [] => inferInstanceAs (Decidable (position ≤ length))
  | position, range :: ranges =>
    have := decidableInOrder length range.stop ranges
    inferInstanceAs (Decidable (position ≤ range.start ∧ range.start ≤ range.stop ∧
      InOrder length range.stop ranges))

/-- `dedup_ranges` and `normalize_patch_ranges` -/
def normalizePatchRanges (ranges : List ByteRange) (length : ℕ) : Option (List ByteRange) :=
  let sorted := ranges.dedup.insertionSort ByteRange.le
  if InOrder length 0 sorted ∧ sorted ≠ [] then some sorted else none

/-- `patch_ranges_with_lookup` -/
def patchRanges (file : List UInt8) (masks : List MemberMask) : Option (List ByteRange) := do
  let ranges ← masks.mapM fun mask => do
    let ranges ← mask.sections.mapM (mask.sectionRanges file)
    return ranges.flatten.map (ByteRange.shift mask.member.start)
  let sorted := ranges.flatten.insertionSort ByteRange.le
  if InOrder file.length 0 sorted ∧ sorted ≠ [] then some sorted else none

/-- The places of an input that its fingerprint leaves out. -/
def fingerprintRanges (file : List UInt8) (masks : List MemberMask) : Option (List ByteRange) := do
  let ranges ← patchRanges file masks
  normalizePatchRanges (ranges ++ masks.flatMap fun mask =>
    (mask.extraRanges file).map (ByteRange.shift mask.member.start)) file.length

/-- `patch_fingerprint_with_lookup` -/
def fingerprint (hashBytes : List UInt8 → Text) (file : List UInt8) (masks : List MemberMask) :
    Option Text := do
  let ranges ← fingerprintRanges file masks
  return hashBytes (masked file 0 ranges)

end Sld.Incremental.Masks
