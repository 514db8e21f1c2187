/-
# `Incremental.Sidecar` — the indexed record file beside the index

`write_indexed_records_streaming` groups the records by the input file
that owns them, compresses each group as one block, and concatenates the
blocks into a file named after the hash of its bytes.  A *location* says
where the block of an input file lies.  A relocation whose target belongs
to another file makes that file point at the owner's block as well, so a
reader who asks for the target's file finds the relocation too.

The readers take ranges of the file, check each range against its hash,
decompress and parse it, and put the four lists into canonical order.

Compression and the content hash are outside the repository; `Codec` holds
them, and the two facts the readers rely on are hypotheses of the results.
-/
import Sld.Incremental.RecordsBlock
import Sld.Order.SortDedup
import Sld.Text.Hex

namespace Sld.Incremental

open Text
open Text.Reader (readAll orError)

/-- The content hash and the compressor. -/
structure Codec where
  /-- `blake3::hash(bytes).to_hex()` -/
  hashBytes : List UInt8 → Text
  /-- `zstd::stream::encode_all` -/
  encodeAll : List UInt8 → Except String (List UInt8)
  /-- `zstd::stream::decode_all` -/
  decodeAll : List UInt8 → Except String (List UInt8)

/-- Decompression undoes compression. -/
def Codec.Lossless (c : Codec) : Prop :=
  ∀ bytes encoded, c.encodeAll bytes = .ok encoded → c.decodeAll encoded = .ok bytes

/-- A hash is printed in hexadecimal digits. -/
def Codec.HexHash (c : Codec) : Prop := ∀ bytes ch, ch ∈ c.hashBytes bytes → IsHex ch

/-- The record files of a state directory, by name.  `path` is only used in messages. -/
structure RecordFiles where
  path : String
  contents : Text → Option (List UInt8)

structure PatchRecordLocation where
  inputFile : Text
  offset : UInt64
  len : UInt64
  hash : Text

namespace PatchRecordLocation

/-- What a reader takes from a location: the range and its hash. -/
def range (l : PatchRecordLocation) : Nat ×ₗ Nat ×ₗ Text :=
  toLex (l.offset.toNat, toLex (l.len.toNat, l.hash))

def key (l : PatchRecordLocation) : Text ×ₗ Nat ×ₗ Nat ×ₗ Text := toLex (l.inputFile, l.range)

theorem key_injective : Function.Injective key := by
  rintro ⟨⟩ ⟨⟩ h
  simpa [key, range, UInt64.toNat_inj] using h

instance : LinearOrder PatchRecordLocation := LinearOrder.lift' _ key_injective

end PatchRecordLocation

def sectionsFile : Text := "sections".toList
def sectionsFilePrefix : Text := "sections-".toList
def compressedSectionsFilePrefix : Text := "sections-zstd-".toList
def publishingSectionsFile : Text := "sections-publishing".toList

def validateSectionsFileName (fileName : Text) : Except String Unit :=
  if fileName = sectionsFile then pure ()
  else if ¬ (startsWith fileName sectionsFilePrefix ∨
        startsWith fileName compressedSectionsFilePrefix) ∨
      '/' ∈ fileName ∨ '\\' ∈ fileName ∨ startsWith fileName ['/'] then
    throw s!"Invalid incremental sections sidecar name `{String.ofList fileName}`"
  else pure ()

/-! ## Records by owner -/

namespace CompactRecords

/-- Every input file that owns a record. -/
def owners (records : CompactRecords) : List Text :=
  records.sections.map (·.inputFile) ++ records.relocations.map (·.inputFile) ++
    records.fdes.map (·.inputFile) ++ records.dynamicRelocations.map (·.inputFile)

/-- The records of one input file, each list in order. -/
def ownedBy (records : CompactRecords) (file : Text) : CompactRecords where
  sections := (records.sections.filter (·.inputFile = file)).insertionSort (· ≤ ·)
  relocations := (records.relocations.filter (·.inputFile = file)).insertionSort (· ≤ ·)
  fdes := (records.fdes.filter (·.inputFile = file)).insertionSort (· ≤ ·)
  dynamicRelocations :=
    (records.dynamicRelocations.filter (·.inputFile = file)).insertionSort (· ≤ ·)

/-- `records.…extend(block.…)` on all four lists. -/
def extend (records block : CompactRecords) : CompactRecords where
  sections := records.sections ++ block.sections
  relocations := records.relocations ++ block.relocations
  fdes := records.fdes ++ block.fdes
  dynamicRelocations := records.dynamicRelocations ++ block.dynamicRelocations

/-- `records.….sort(); records.….dedup()` on all four lists. -/
def canonical (records : CompactRecords) : CompactRecords where
  sections := sortDedup records.sections
  relocations := sortDedup records.relocations
  fdes := sortDedup records.fdes
  dynamicRelocations := sortDedup records.dynamicRelocations

/-- A relocation is selected by its owner or by the file of its target. -/
def touches (inputFiles : List Text) (r : RelocationRecord) : Bool :=
  inputFiles.contains r.inputFile || r.target.any fun t => inputFiles.contains t.inputFile

/-- `records.….retain(…)` for a set of input files. -/
def retain (inputFiles : List Text) (records : CompactRecords) : CompactRecords where
  sections := records.sections.filter fun r => inputFiles.contains r.inputFile
  relocations := records.relocations.filter (touches inputFiles)
  fdes := records.fdes.filter fun r => inputFiles.contains r.inputFile
  dynamicRelocations :=
    records.dynamicRelocations.filter fun r => inputFiles.contains r.inputFile

end CompactRecords

/-! ## Writing -/

/-- The file of a relocation's target and the relocation's owner, when they differ. -/
def relocationAliases (relocations : List RelocationRecord) : List (Text ×ₗ Text) :=
  relocations.filterMap fun r => r.target.bind fun t =>
    if t.inputFile ≠ r.inputFile then some (toLex (t.inputFile, r.inputFile)) else none

/-- One compressed block for each owner. -/
def encodeBlocks (c : Codec) (tmpPath : String) (records : CompactRecords) :
    List Text → Except String (List (Text × List UInt8))
  | [] => pure []
  | file :: files => do
      let block ← (c.encodeAll (utf8 (writeRenderedRecords (records.ownedBy file)))).mapError
        fun _ => s!"Failed to compress indexed incremental sections `{tmpPath}`"
      let blocks ← encodeBlocks c tmpPath records files
      pure ((file, block) :: blocks)

/-- The location of each block, the first one starting at `offset`. -/
def blockLocations (c : Codec) : UInt64 → List (Text × List UInt8) → List PatchRecordLocation
  | _, [] => []
  | offset, (inputFile, block) :: blocks =>
    let len := UInt64.ofNat block.length
    { inputFile, offset, len, hash := c.hashBytes block } ::
      blockLocations c (offset + len) blocks

/-- The owner's location under the name of the target's file. -/
def aliasLocation (locations : List PatchRecordLocation) (pair : Text × Text) :
    Option PatchRecordLocation :=
  (locations.find? fun l => l.inputFile = pair.2).map fun l => { l with inputFile := pair.1 }

/-- The bytes of the file; the file system refuses one whose length is no `u64`. -/
def sidecarBytes (tmpPath : String) (blocks : List (Text × List UInt8)) :
    Except String (List UInt8) :=
  let bytes := blocks.flatMap (·.2)
  if bytes.length < UInt64.size then pure bytes
  else throw s!"Failed to write indexed incremental sections `{tmpPath}`"

def writeIndexedRecordsStreaming (c : Codec) (dir : RecordFiles) (records : CompactRecords) :
    Except String (RecordFiles × Text × List PatchRecordLocation) := do
  let tmpPath := s!"{dir.path}/sections-indexed.tmp"
  let blocks ← encodeBlocks c tmpPath records (sortDedup records.owners)
  let bytes ← sidecarBytes tmpPath blocks
  let locations := blockLocations c 0 blocks
  let aliases := (sortDedup (relocationAliases records.relocations)).filterMap
    fun pair => aliasLocation locations (ofLex pair)
  let fileName := compressedSectionsFilePrefix ++ c.hashBytes bytes
  pure ({ dir with contents := Function.update dir.contents fileName (some bytes) },
    fileName, sortDedup (locations ++ aliases))

/-! ## Reading -/

/-- One range of the file: checked, decompressed, parsed. -/
def readBlock (c : Codec) (path : String) (compressed : Bool) (file : List UInt8)
    (location : PatchRecordLocation) : Except String CompactRecords := do
  if UInt64.size ≤ location.offset.toNat + location.len.toNat then
    throw "Incremental patch record range overflowed"
  if file.length < location.offset.toNat + location.len.toNat then
    throw s!"Incremental patch record range is outside `{path}`"
  let bytes := (file.drop location.offset.toNat).take location.len.toNat
  if c.hashBytes bytes ≠ location.hash then
    throw s!"Incremental patch records `{path}` do not match their content hash"
  let bytes ←
    if compressed then
      (c.decodeAll bytes).mapError fun _ =>
        s!"Failed to decompress incremental patch records `{path}`"
    else pure bytes
  let contents ← orError "Invalid UTF-8 in incremental patch record sidecar" (fromUtf8 bytes)
  readAll parseCompactRecordsBlock (lines contents)

def readIndexedRecordsAtLocations (c : Codec) (dir : RecordFiles) (patchRecordsFile : Text)
    (locations : List PatchRecordLocation) : Except String CompactRecords := do
  validateSectionsFileName patchRecordsFile
  let path := s!"{dir.path}/{String.ofList patchRecordsFile}"
  let file ← orError s!"Failed to read incremental sections `{path}`" (dir.contents patchRecordsFile)
  let compressed := startsWith patchRecordsFile compressedSectionsFilePrefix
  let records ← locations.foldlM (fun (records : CompactRecords) location => do
    let block ← readBlock c path compressed file location
    pure (records.extend block)) default
  pure records.canonical

/-- `locations.sort_by_key(range); locations.dedup_by(range)` -/
def distinctRanges (locations : List PatchRecordLocation) : List PatchRecordLocation :=
  dedupByKey PatchRecordLocation.range
    (locations.insertionSort fun left right => left.range ≤ right.range)

def readAllIndexedRecords (c : Codec) (dir : RecordFiles) (patchRecordsFile : Option Text)
    (locations : List PatchRecordLocation) : Except String CompactRecords :=
  match patchRecordsFile with
  | none => pure default
  | some file => readIndexedRecordsAtLocations c dir file (distinctRanges locations)

/-- `read_indexed_patch_records`; `sections` is the state's `sections_file`. -/
def readIndexedPatchRecords (c : Codec) (dir : RecordFiles) (sections : Option Text)
    (patchRecordLocations : List PatchRecordLocation) (patchRecordsFile : Text)
    (inputFiles : List Text) : Except String (Option CompactRecords) :=
  let canonicalIndex : Bool := sections = some patchRecordsFile
  if patchRecordLocations = [] then
    pure (if canonicalIndex then some default else none)
  else
    let locations := patchRecordLocations.filter fun l => inputFiles.contains l.inputFile
    if !canonicalIndex && inputFiles.any fun file => !locations.any (·.inputFile = file) then
      pure none
    else do
      let records ← readIndexedRecordsAtLocations c dir patchRecordsFile (distinctRanges locations)
      pure (some (records.retain inputFiles))

end Sld.Incremental
