/-
# `Elf.SectionHeaders` — the section headers of an object file

The header of the file says where the section headers are, and each of them
where its section is.  `HeaderTable.Separate` is what the format promises of
these places: the header, the section headers and the contents of the
sections are apart.

    readLe                 a number, least byte first
    headerTable            where the section headers are
    sectionHeader          one of them
    elfSectionHeaders      all of them
-/
import Mathlib.Data.List.OfFn
import Sld.Store.Masks

namespace Sld.Elf

open Store (ByteRange part Agree)

/-- `read_u16_le`, `read_u32_le` and `read_u64_le`, by their width -/
def readLe (bytes : List UInt8) (offset width : ℕ) : Option ℕ :=
  if offset + width ≤ bytes.length then
    some ((part bytes offset width).foldr (fun byte n => byte.toNat + 256 * n) 0)
  else none

/-- A field of a structure: where it is and how wide. -/
structure Field where
  offset : ℕ
  width : ℕ
deriving DecidableEq

def Field.read (field : Field) (bytes : List UInt8) (base : ℕ) : Option ℕ :=
  readLe bytes (base + field.offset) field.width

def Field.range (field : Field) (base : ℕ) : ByteRange :=
  ⟨base + field.offset, base + field.offset + field.width⟩

/-! ## Classes -/

inductive ElfClass where
  | elf32
  | elf64
  deriving DecidableEq

namespace ElfClass

def headerSize : ElfClass → ℕ
  | elf32 => 0x34
  | elf64 => 0x40

def sectionHeaderSize : ElfClass → ℕ
  | elf32 => 40
  | elf64 => 64

def eShoff : ElfClass → Field
  | elf32 => ⟨0x20, 4⟩
  | elf64 => ⟨0x28, 8⟩

def eShentsize : ElfClass → Field
  | elf32 => ⟨0x2e, 2⟩
  | elf64 => ⟨0x3a, 2⟩

def eShnum : ElfClass → Field
  | elf32 => ⟨0x30, 2⟩
  | elf64 => ⟨0x3c, 2⟩

def shType : ElfClass → Field := fun _ => ⟨4, 4⟩

def shOffset : ElfClass → Field
  | elf32 => ⟨16, 4⟩
  | elf64 => ⟨24, 8⟩

def shSize : ElfClass → Field
  | elf32 => ⟨20, 4⟩
  | elf64 => ⟨32, 8⟩

def shInfo : ElfClass → Field
  | elf32 => ⟨28, 4⟩
  | elf64 => ⟨44, 4⟩

def shEntsize : ElfClass → Field
  | elf32 => ⟨36, 4⟩
  | elf64 => ⟨56, 8⟩

/-- The size of a symbol. -/
def symbolSize : ElfClass → ℕ
  | elf32 => 16
  | elf64 => 24

def stValue : ElfClass → Field
  | elf32 => ⟨4, 4⟩
  | elf64 => ⟨8, 8⟩

end ElfClass

/-- The class of a file, where its numbers have their least byte first. -/
def elfClass (bytes : List UInt8) : Option ElfClass :=
  if bytes.length < 0x34 ∨ part bytes 0 4 ≠ [0x7f, 0x45, 0x4c, 0x46] ∨ bytes[5]? ≠ some 1 then none
  else if bytes[4]? = some 1 then some .elf32
  else if bytes[4]? = some 2 then if bytes.length < 0x40 then none else some .elf64
  else none

/-! ## Headers -/

structure HeaderTable where
  elfClass : ElfClass
  offset : ℕ
  entrySize : ℕ
  count : ℕ
deriving DecidableEq

def headerTable (bytes : List UInt8) : Option HeaderTable := do
  let elfClass ← elfClass bytes
  let offset ← elfClass.eShoff.read bytes 0
  let entrySize ← elfClass.eShentsize.read bytes 0
  let count ← elfClass.eShnum.read bytes 0
  return { elfClass, offset, entrySize, count }

structure SectionHeader where
  shType : ℕ
  shOffset : ℕ
  shSize : ℕ
  shInfo : ℕ
  shEntsize : ℕ
deriving DecidableEq

def shtSymtab : ℕ := 2
def shtRela : ℕ := 4
def shtNobits : ℕ := 8

namespace HeaderTable

variable (table : HeaderTable)

/-- Where the header of a section begins. -/
def headerStart (index : ℕ) : ℕ := table.offset + index * table.entrySize

def sectionHeader (bytes : List UInt8) (index : ℕ) : Option SectionHeader :=
  let start := table.headerStart index
  if bytes.length < start + table.entrySize ∨
    table.entrySize < table.elfClass.sectionHeaderSize then none
  else do
    let shType ← table.elfClass.shType.read bytes start
    let shOffset ← table.elfClass.shOffset.read bytes start
    let shSize ← table.elfClass.shSize.read bytes start
    let shInfo ← table.elfClass.shInfo.read bytes start
    let shEntsize ← table.elfClass.shEntsize.read bytes start
    return { shType, shOffset, shSize, shInfo, shEntsize }

/-- The number of sections.  Where it does not fit its field, the field is zero
and the first header has it. -/
def sectionCount (bytes : List UInt8) : ℕ :=
  if table.count ≠ 0 ∨ table.offset = 0 then table.count
  else ((table.sectionHeader bytes 0).map SectionHeader.shSize).getD 0

end HeaderTable

def elfSectionHeaders (bytes : List UInt8) : Option (List SectionHeader) := do
  let table ← headerTable bytes
  (List.range table.count).mapM fun index => table.sectionHeader bytes index

/-- `ObjectSection::file_range`: where the content of a section is, if it has
any. -/
def SectionHeader.fileRange (header : SectionHeader) : Option ByteRange :=
  if header.shType = shtNobits then none
  else some ⟨header.shOffset, header.shOffset + header.shSize⟩

/-! ## Places -/

namespace HeaderTable

variable (table : HeaderTable)

/-- The header of a section. -/
def headerRange (index : ℕ) : ByteRange :=
  ⟨table.headerStart index, table.headerStart index + table.entrySize⟩

/-- The size field of the header of a section. -/
def sizeField (index : ℕ) : ByteRange := table.elfClass.shSize.range (table.headerStart index)

/-- The content of a section. -/
def content (bytes : List UInt8) (index : ℕ) : Option ByteRange :=
  if index < table.sectionCount bytes then
    (table.sectionHeader bytes index).bind SectionHeader.fileRange
  else none

/-- The places of a file: the contents of the sections are in it, and the header
of the file, the headers of the sections and the contents are apart. -/
structure Separate (bytes : List UInt8) : Prop where
  within : ∀ index, ∀ content ∈ table.content bytes index, content.stop ≤ bytes.length
  header_headers : ∀ index < table.count, ∀ p,
    (table.headerRange index).Covers p → table.elfClass.headerSize ≤ p
  header_contents : ∀ index, ∀ content ∈ table.content bytes index, ∀ p,
    content.Covers p → table.elfClass.headerSize ≤ p
  headers_contents : ∀ index, ∀ content ∈ table.content bytes index,
    ∀ other, other < max (table.sectionCount bytes) 1 →
      content.Apart (table.headerRange other)
  contents : ∀ index, ∀ content ∈ table.content bytes index, ∀ other,
    ∀ otherContent ∈ table.content bytes other, index ≠ other → content.Apart otherContent

end HeaderTable

/-! ## Reading the same -/

variable {bytes other : List UInt8}

theorem readLe_congr {offset width : ℕ} (hlen : bytes.length = other.length)
    (h : Agree bytes other fun p => offset ≤ p ∧ p < offset + width) :
    readLe bytes offset width = readLe other offset width := by
  unfold readLe
  rw [hlen, Store.part_eq_of_agree h]

theorem Field.read_congr {field : Field} {base : ℕ} (hlen : bytes.length = other.length)
    (h : Agree bytes other (field.range base).Covers) :
    field.read bytes base = field.read other base :=
  readLe_congr hlen h

theorem elfClass_congr (hlen : bytes.length = other.length)
    (h : Agree bytes other fun p => p < 0x34) : elfClass bytes = elfClass other := by
  have hmagic : part bytes 0 4 = part other 0 4 := by
    refine Store.part_eq_of_agree fun p hp => h p ?_
    omega
  unfold elfClass
  rw [hlen, hmagic, h 4 (by decide), h 5 (by decide)]

theorem le_headerSize (elfClass : ElfClass) : 0x34 ≤ elfClass.headerSize := by
  cases elfClass <;> decide

variable {table : HeaderTable}

theorem headerTable_congr (hlen : bytes.length = other.length)
    (htable : headerTable bytes = some table)
    (h : Agree bytes other fun p => p < table.elfClass.headerSize) :
    headerTable other = some table := by
  rw [← htable]
  unfold headerTable at htable ⊢
  have hclass : elfClass other = elfClass bytes := (elfClass_congr hlen fun p hp =>
    h p (Nat.lt_of_lt_of_le hp (le_headerSize _))).symm
  rw [hclass]
  cases hbytes : elfClass bytes with
  | none => rfl
  | some cls =>
    have hcls : table.elfClass = cls := by
      rw [hbytes] at htable
      simp only [Option.bind_eq_bind, Option.bind_some, Option.bind_eq_some_iff] at htable
      obtain ⟨_, _, _, _, _, _, heq⟩ := htable
      cases heq
      rfl
    rw [hcls] at h
    have hfield : ∀ field : Field, field.offset + field.width ≤ cls.headerSize →
        field.read other 0 = field.read bytes 0 := by
      intro field hle
      refine (Field.read_congr hlen fun p hp => h p ?_).symm
      have hlt : p < 0 + field.offset + field.width := hp.2
      omega
    simp only [Option.bind_eq_bind, Option.bind_some]
    rw [hfield cls.eShoff (by cases cls <;> decide),
      hfield cls.eShentsize (by cases cls <;> decide),
      hfield cls.eShnum (by cases cls <;> decide)]

theorem elfClass_of_headerTable (h : headerTable bytes = some table) :
    elfClass bytes = some table.elfClass := by
  unfold headerTable at h
  simp only [Option.bind_eq_bind, Option.bind_eq_some_iff] at h
  obtain ⟨cls, hcls, _, _, _, _, _, _, heq⟩ := h
  cases heq
  exact hcls

theorem headerTable_eq_of_agree {hidden otherHidden : ℕ → Prop} (hlen : bytes.length = other.length)
    (h : Agree bytes other fun p => ¬hidden p ∧ ¬otherHidden p)
    (hhidden : ∀ p, (∀ table, headerTable bytes = some table →
      p < table.elfClass.headerSize) → ¬hidden p)
    (hotherHidden : ∀ p, (∀ table, headerTable other = some table →
      p < table.elfClass.headerSize) → ¬otherHidden p) :
    headerTable bytes = headerTable other := by
  have hfirst : ∀ p < 0x34, ∀ table : HeaderTable, p < table.elfClass.headerSize :=
    fun p hp table => Nat.lt_of_lt_of_le hp (le_headerSize _)
  have hclass : elfClass bytes = elfClass other := elfClass_congr hlen fun p hp =>
    h p ⟨hhidden p fun table _ => hfirst p hp table,
      hotherHidden p fun table _ => hfirst p hp table⟩
  have hheader : ∀ cls, elfClass bytes = some cls → ∀ p < cls.headerSize,
      bytes[p]? = other[p]? := by
    intro cls hcls p hp
    refine h p ⟨hhidden p fun table htable => ?_, hotherHidden p fun table htable => ?_⟩
    · rw [elfClass_of_headerTable htable] at hcls
      rwa [Option.some.inj hcls]
    · rw [hclass, elfClass_of_headerTable htable] at hcls
      rwa [Option.some.inj hcls]
  cases htable : headerTable bytes with
  | some table =>
    exact (headerTable_congr hlen htable (hheader _ (elfClass_of_headerTable htable))).symm
  | none =>
    cases htable' : headerTable other with
    | none => rfl
    | some table =>
      have hcls : elfClass bytes = some table.elfClass :=
        hclass.trans (elfClass_of_headerTable htable')
      have hback := headerTable_congr hlen.symm htable' fun p hp =>
        (hheader _ hcls p hp).symm
      rw [htable] at hback
      cases hback

namespace HeaderTable

variable {table : HeaderTable}

theorem headerRange_index_eq {index otherIndex p : ℕ}
    (h : (table.headerRange index).Covers p) (h' : (table.headerRange otherIndex).Covers p) :
    index = otherIndex := by
  obtain ⟨hstart, hstop⟩ := h
  obtain ⟨hstart', hstop'⟩ := h'
  have hlt : ∀ i j : ℕ, i < j → i * table.entrySize + table.entrySize ≤ j * table.entrySize := by
    intro i j hij
    have hmul := Nat.mul_le_mul_right table.entrySize hij
    rwa [Nat.succ_mul] at hmul
  unfold headerRange headerStart at *
  simp only at hstart hstop hstart' hstop'
  rcases Nat.lt_trichotomy index otherIndex with hlt' | heq | hlt'
  · have hle := hlt index otherIndex hlt'
    omega
  · exact heq
  · have hle := hlt otherIndex index hlt'
    omega

theorem sectionHeader_congr {index : ℕ} (hlen : bytes.length = other.length)
    (h : Agree bytes other (table.headerRange index).Covers) :
    table.sectionHeader bytes index = table.sectionHeader other index := by
  unfold sectionHeader
  rw [hlen]
  simp only
  split
  · rfl
  next hfits =>
    have hfield : ∀ field : Field, field.offset + field.width ≤ table.elfClass.sectionHeaderSize →
        field.read bytes (table.headerStart index) =
          field.read other (table.headerStart index) := by
      intro field hle
      refine Field.read_congr hlen fun p hp => h p ?_
      obtain ⟨hstart, hstop⟩ := hp
      refine ⟨(Nat.le_add_right _ _).trans hstart, Nat.lt_of_lt_of_le hstop ?_⟩
      show _ + field.offset + field.width ≤ _ + table.entrySize
      omega
    rw [hfield _ (by cases table.elfClass <;> decide),
      hfield _ (by cases table.elfClass <;> decide),
      hfield _ (by cases table.elfClass <;> decide),
      hfield _ (by cases table.elfClass <;> decide),
      hfield _ (by cases table.elfClass <;> decide)]

end HeaderTable

end Sld.Elf
