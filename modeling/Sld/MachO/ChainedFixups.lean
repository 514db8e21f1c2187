/-
# `MachO.ChainedFixups` — the pointers that the loader has to adjust

Every pointer in the data segment that depends on where the image or a
library is loaded is a slot.  What to do with it stands in the slot itself,
together with the distance to the next slot of the page; a table says where
the first slot of each page is, and which symbols of which libraries the
binds refer to.

The fields of the table are those of the header, of the one segment that has
slots, of the imports and of their names.
-/
import Mathlib.Data.Nat.Bitwise
import Sld.Order.KeyRuns
import Sld.Order.SortDedup
import Sld.Text.Reader

namespace Sld.MachO

def machoStartMemAddress : ℕ := 0x100000000

def machoPageSize : ℕ := 0x4000

def defaultSegmentCount : ℕ := 4

def dataSegmentChainIndex : ℕ := 2

def dyldChainedPtr64Offset : ℕ := 6

def dyldChainedPtrStartNone : ℕ := 0xffff

/-- `ensure!(condition, message)` -/
def ensure (condition : Prop) [Decidable condition] (message : String) : Except String Unit :=
  if condition then .ok () else .error message

theorem ensure_bind_eq_ok {α : Type} {condition : Prop} [Decidable condition] {message : String}
    {next : Unit → Except String α} {a : α} :
    (ensure condition message >>= next) = .ok a ↔ condition ∧ next () = .ok a := by
  unfold ensure
  split
  next h => exact ⟨fun hok => ⟨h, hok⟩, fun hok => hok.2⟩
  next h => exact ⟨nofun, fun hok => absurd hok.1 h⟩

/-! ## Pointers -/

structure ChainedImport where
  name : List UInt8
  libOrdinal : UInt8
  /-- The name comes from a string table, where it ends with a zero. -/
  name_ne_zero : 0 ∉ name

/-- A pointer that the link has to write. -/
inductive Pointer where
  /-- an absolute relocation to something in the image -/
  | rebase (address value : ℕ)
  /-- an absolute relocation to a symbol of a library -/
  | bind (address importIndex : ℕ) (addend : ℤ)
  /-- an entry of `__got`, for either -/
  | got (address target : ℕ) (importIndex : Option ℕ)
  deriving DecidableEq

def Pointer.address : Pointer → ℕ
  | .rebase address _ => address
  | .bind address _ _ => address
  | .got address _ _ => address

def Pointer.importIndex? : Pointer → Option ℕ
  | .rebase _ _ => none
  | .bind _ index _ => some index
  | .got _ _ index => index

structure ChainedBindSlot where
  address : ℕ
  importIndex : ℕ

def Pointer.bindSlot? : Pointer → Option ChainedBindSlot
  | .rebase _ _ => none
  | .bind address index _ => some ⟨address, index⟩
  | .got _ _ _ => none

/-- The data segment: where the layout puts it. -/
structure DataSegment where
  memOffset : ℕ
  memSize : ℕ
  start_le : machoStartMemAddress ≤ memOffset
  aligned : memOffset % machoPageSize = 0

/-- The pointers of the image.  Slots do not overlap, and binds refer to
imports that were pushed for them. -/
structure Pointers (segment : DataSegment) where
  pointers : List Pointer
  imports : List ChainedImport
  within : ∀ p ∈ pointers, segment.memOffset ≤ p.address ∧
    p.address + 8 ≤ segment.memOffset + segment.memSize
  disjoint : pointers.Pairwise fun p q => p.address + 8 ≤ q.address ∨ q.address + 8 ≤ p.address
  import_lt : ∀ p ∈ pointers, ∀ index ∈ p.importIndex?, index < imports.length

structure ChainedRebases where
  slots : List ℕ
  bindSlots : List ChainedBindSlot
  imports : List ChainedImport

variable {segment : DataSegment}

/-- `ChainedRebases::collect`, from the pointers that it finds -/
def Pointers.chainedRebases (image : Pointers segment) : ChainedRebases where
  slots := sortDedup (image.pointers.map Pointer.address)
  bindSlots := (image.pointers.filterMap Pointer.bindSlot?).insertionSort
    fun a b => a.address ≤ b.address
  imports := image.imports

/-! ## Words -/

namespace ChainedRebases

/-- `contains`; the slots are sorted, and the binary search finds the place
where it occurs. -/
def contains (rebases : ChainedRebases) (place : ℕ) : Bool := place ∈ rebases.slots

/-- The distance to the next slot of the same page, in units of four bytes. -/
def nextStride (rebases : ChainedRebases) (place : ℕ) : Except String ℕ :=
  match rebases.slots.idxOf? place with
  | none => .ok 0
  | some index =>
    match rebases.slots[index + 1]? with
    | none => .ok 0
    | some next =>
      if next ≥ place / machoPageSize * machoPageSize + machoPageSize then .ok 0
      else do
        ensure ((next - place) % 4 = 0) "Mach-O chained fixup distance is not 4-byte aligned"
        ensure ((next - place) / 4 < 0x1000) "Mach-O chained fixup distance is too large"
        return (next - place) / 4

def bindImportIndex (rebases : ChainedRebases) (place : ℕ) : Option ℕ :=
  (rebases.bindSlots.find? fun slot => slot.address = place).map ChainedBindSlot.importIndex

end ChainedRebases

def encodeChainedRebase (value nextStride : ℕ) : Except String ℕ := do
  ensure (machoStartMemAddress ≤ value) "Cannot encode Mach-O chained rebase target"
  ensure (value - machoStartMemAddress < 1 <<< 36) "Mach-O chained rebase target exceeds 36 bits"
  ensure (nextStride < 0x1000) "Mach-O chained rebase next stride exceeds 12 bits"
  return (value - machoStartMemAddress) ||| nextStride <<< 51

def encodeChainedBind (importIndex nextStride : ℕ) : Except String ℕ := do
  ensure (importIndex < 1 <<< 24) "Mach-O chained bind import index exceeds 24 bits"
  ensure (nextStride < 0x1000) "Mach-O chained bind next stride exceeds 12 bits"
  return importIndex ||| nextStride <<< 51 ||| 1 <<< 63

/-- `apply_relocation`, what it does with the value of a pointer -/
def ChainedRebases.pointerWord (rebases : ChainedRebases) (place value : ℕ) : Except String ℕ :=
  match rebases.bindImportIndex place with
  | some importIndex => do
    let stride ← rebases.nextStride place
    encodeChainedBind importIndex stride
  | none =>
    if rebases.contains place then do
      let stride ← rebases.nextStride place
      encodeChainedRebase value stride
    else .ok value

/-- `write_got`, what it writes for an entry -/
def ChainedRebases.gotWord (rebases : ChainedRebases) (address target : ℕ)
    (importIndex : Option ℕ) : Except String ℕ := do
  let stride ← rebases.nextStride address
  match importIndex with
  | some importIndex => encodeChainedBind importIndex stride
  | none => encodeChainedRebase target stride

/-- The word of a slot.  The symbol of a bind has no address, and its value is
the addend. -/
def ChainedRebases.word (rebases : ChainedRebases) : Pointer → Except String ℕ
  | .rebase address value => rebases.pointerWord address value
  | .bind address _ addend => rebases.pointerWord address (addend % 2 ^ 64).toNat
  | .got address target importIndex => rebases.gotWord address target importIndex

/-- The words of all slots, with their addresses. -/
def Pointers.writeWords (image : Pointers segment) : Except String (List (ℕ × ℕ)) :=
  image.pointers.mapM fun p => do
    let word ← image.chainedRebases.word p
    return (p.address, word)

/-! ## The table -/

/-- `dyld_chained_starts_in_segment` -/
structure SegmentStarts where
  pageSize : ℕ
  pointerFormat : ℕ
  segmentOffset : ℕ
  maxValidPointer : ℕ
  pageStarts : List ℕ

/-- The table: the header, the segments, the imports and their names. -/
structure FixupTable where
  importsOffset : ℕ
  importsCount : ℕ
  importsFormat : ℕ
  symbolsOffset : ℕ
  symbolsFormat : ℕ
  segments : List (Option SegmentStarts)
  imports : List ℕ
  symbols : List UInt8

def DataSegment.pageCount (segment : DataSegment) : ℕ :=
  max ((segment.memSize + machoPageSize - 1) / machoPageSize) 1

/-- Four bytes for each segment, and for their number. -/
def startsInImageSize : ℕ := 4 * (defaultSegmentCount + 1)

def roundUp (n size : ℕ) : ℕ := (n + size - 1) / size * size

/-- The size of `dyld_chained_starts_in_segment`, for a number of pages. -/
def segmentInfoSize (pageCount : ℕ) : ℕ := roundUp (4 + 2 + 2 + 8 + 4 + 2 + 2 * pageCount) 8

/-- Where the imports begin. -/
def DataSegment.importsOffset (segment : DataSegment) (slots : List ℕ) : ℕ :=
  if slots.isEmpty then 32 + startsInImageSize
  else 32 + roundUp startsInImageSize 8 + segmentInfoSize segment.pageCount

/-- `write_chained_fixup_table`, the loop over the slots: a page begins with the
first of its slots. -/
def recordStart (segment : DataSegment) (starts : List ℕ) (slot : ℕ) :
    Except String (List ℕ) := do
  ensure (segment.memOffset ≤ slot) "Mach-O chained fixup slot precedes __DATA"
  let offsetInSegment := slot - segment.memOffset
  ensure (offsetInSegment < segment.memSize) "Mach-O chained fixup slot is outside __DATA"
  let offsetInPage := offsetInSegment % machoPageSize
  return starts.modify (offsetInSegment / machoPageSize) fun current =>
    if current = dyldChainedPtrStartNone ∨ offsetInPage < current then offsetInPage else current

/-- `write_chained_fixup_table`, the starts in the data segment -/
def writeSegmentStarts (segment : DataSegment) (slots : List ℕ) (allocated : ℕ) :
    Except String SegmentStarts := do
  ensure (segment.pageCount ≤ 0xffff) "Mach-O chained fixup page count exceeds u16::MAX"
  ensure (segment.importsOffset slots ≤ allocated) "CHAINED_FIXUP_TABLE allocation too small"
  ensure (machoStartMemAddress ≤ segment.memOffset) "Invalid Mach-O __DATA segment start"
  let pageStarts ← slots.foldlM (recordStart segment)
    (List.replicate segment.pageCount dyldChainedPtrStartNone)
  return {
    pageSize := machoPageSize
    pointerFormat := dyldChainedPtr64Offset
    segmentOffset := segment.memOffset - machoStartMemAddress
    maxValidPointer := 0
    pageStarts := pageStarts }

/-- `write_chained_fixup_table`, the starts in the image: only the data segment
has slots. -/
def writeSegments (segment : DataSegment) (slots : List ℕ) (allocated : ℕ) :
    Except String (List (Option SegmentStarts)) :=
  if slots.isEmpty then .ok (List.replicate defaultSegmentCount none)
  else do
    let starts ← writeSegmentStarts segment slots allocated
    return (List.replicate defaultSegmentCount none).set dataSegmentChainIndex (some starts)

/-- `write_chained_fixup_table`, the loop over the imports: their entries and
their names, as far as there is `room`. -/
def writeImports (room : ℕ) : ℕ → List ChainedImport → Except String (List ℕ × List UInt8)
  | _, [] => .ok ([], [])
  | stringOffset, chained :: rest => do
    ensure (stringOffset < 1 <<< 23) "Mach-O chained import symbol strings exceed 23-bit offsets"
    ensure (stringOffset + chained.name.length + 1 ≤ room)
      "CHAINED_FIXUP_TABLE allocation too small for import"
    let (entries, strings) ← writeImports room (stringOffset + chained.name.length + 1) rest
    return ((chained.libOrdinal.toNat ||| stringOffset <<< 9) :: entries,
      chained.name ++ 0 :: strings)

/-- `write_chained_fixup_table`, into `allocated` bytes -/
def writeChainedFixupTable (segment : DataSegment) (rebases : ChainedRebases) (allocated : ℕ) :
    Except String FixupTable := do
  ensure (32 + startsInImageSize ≤ allocated) "Write past end of Mach-O chained fixup table"
  let segments ← writeSegments segment rebases.slots allocated
  let importsOffset := segment.importsOffset rebases.slots
  let symbolsOffset := importsOffset + 4 * rebases.imports.length
  ensure (symbolsOffset + 1 ≤ allocated)
    "CHAINED_FIXUP_TABLE allocation too small for symbol strings"
  let (imports, strings) ← writeImports (allocated - symbolsOffset) 1 rebases.imports
  return {
    importsOffset := importsOffset
    importsCount := rebases.imports.length
    importsFormat := 1
    symbolsOffset := symbolsOffset
    symbolsFormat := 0
    segments := segments
    imports := imports
    symbols := 0 :: strings ++ List.replicate (allocated - symbolsOffset - (strings.length + 1)) 0 }

/-- What is known when the space for the table is reserved: the size of the
image so far, and the names of the symbols that no input defines, as far as
they can be read. -/
structure Reservation where
  totalMemSize : ℕ
  undefinedNames : List (Option (List UInt8))

def Reservation.chainedFixupTableAllocationSize (reservation : Reservation) : ℕ :=
  let totalMemSize := max reservation.totalMemSize (64 <<< 20)
  let pageCount := max ((totalMemSize + machoPageSize - 1) / machoPageSize) 1
  roundUp (32 + roundUp startsInImageSize 8 + segmentInfoSize pageCount +
    reservation.undefinedNames.length * 4 +
    (1 + ((reservation.undefinedNames.filterMap id).map fun name => name.length + 1).sum)) 8

/-! ## The loader -/

/-- What a slot asks for. -/
inductive Fixup where
  /-- the address, moved with the image -/
  | rebase (target : ℕ)
  /-- the address of a symbol of a library, plus an addend -/
  | bind (name : List UInt8) (libOrdinal : ℕ) (addend : ℤ)

/-- `next`, twelve bits in units of four bytes; zero ends the chain. -/
def nextSlot (memory : ℕ → ℕ) (address : ℕ) : Option ℕ :=
  if memory address / 2 ^ 51 % 2 ^ 12 = 0 then none
  else some (address + 4 * (memory address / 2 ^ 51 % 2 ^ 12))

/-- The chain of a page: its slots, if it has any. -/
inductive SegmentStarts.PageWalk (starts : SegmentStarts) (memory : ℕ → ℕ) :
    ℕ → List ℕ → Prop where
  | skip {page : ℕ} : starts.pageStarts[page]? = some dyldChainedPtrStartNone →
      PageWalk starts memory page []
  | chain {page start : ℕ} {visited : List ℕ} : starts.pageStarts[page]? = some start →
      start ≠ dyldChainedPtrStartNone →
      KeyRuns.Walk (nextSlot memory)
        (machoStartMemAddress + starts.segmentOffset + page * starts.pageSize + start) visited →
      PageWalk starts memory page visited

/-- What the loader visits, segment by segment and page by page. -/
def FixupTable.Walk (table : FixupTable) (memory : ℕ → ℕ) (visited : List ℕ) : Prop :=
  ∃ pages : SegmentStarts → List (List ℕ),
    (∀ starts, some starts ∈ table.segments →
      List.Forall₂ (starts.PageWalk memory) (List.range starts.pageStarts.length)
        (pages starts)) ∧
    visited = (table.segments.filterMap id).flatMap fun starts => (pages starts).flatten

/-- The name of an import: up to the next zero. -/
def FixupTable.symbolName (table : FixupTable) (offset : ℕ) : List UInt8 :=
  (table.symbols.drop offset).takeWhile (· ≠ 0)

/-- What the word of a slot asks for.  A bind has its import in the lower 24
bits and an addend in the next eight, a rebase its target in the lower 36 and
the uppermost byte of the address in the next eight. -/
def FixupTable.decode (table : FixupTable) (word : ℕ) : Option Fixup :=
  if word / 2 ^ 63 % 2 = 1 then
    (table.imports[word % 2 ^ 24]?).map fun entry =>
      .bind (table.symbolName (entry / 2 ^ 9)) (entry % 2 ^ 8) (word / 2 ^ 24 % 2 ^ 8)
  else some (.rebase (machoStartMemAddress + word % 2 ^ 36 + word / 2 ^ 36 % 2 ^ 8 * 2 ^ 56))

/-- The memory of the image: the words of the slots, over the other bytes. -/
def memoryOf (words : List (ℕ × ℕ)) (rest : ℕ → ℕ) (address : ℕ) : ℕ :=
  ((words.find? fun word => word.1 = address).map Prod.snd).getD (rest address)

end Sld.MachO
