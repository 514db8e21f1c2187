/-
# `Incremental.EhFrameHdr` — the search table of the unwinder

`.eh_frame_hdr` is a header of 12 bytes, the number of entries at 8, and a
table of entries, in the order of their first field:

    frame_ptr        where the function is, from the header on
    frame_info_ptr   where its FDE in `.eh_frame` is, from the header on

The table may end before the section does.  An update adjusts the entries
of functions that moved, removes entries and adds some.  The source has
three ways to write the result; which it takes depends on the changes.

    ehFrameHdrTable                  the table of an output
    ehFrameHdrPatchesForFdeChanges   the patches for a list of changes
    liveEntries                      what the table should hold after them
-/
import Sld.Incremental.OutputPatches
import Sld.Incremental.Records
import Sld.Order.SortDedup
import Sld.Store.Erasure
import Sld.Store.Words

namespace Sld.Incremental

open Store (window eraseAll)
open Text.Reader (orError)

/-! ## Sections of the output -/

/-- A section, as the object parser finds it. -/
structure ParsedSection where
  name : Text
  address : UInt64
  fileRange : Option (UInt64 × UInt64)

/-- `file.sections()` -/
abbrev ParsedOutput := List ParsedSection

def ParsedOutput.sectionByName (file : ParsedOutput) (name : String) : Option ParsedSection :=
  file.find? fun sec => sec.name = name.toList

/-! ## Entries -/

/-- `i32::to_le_bytes` -/
def i32LeBytes (value : Int32) : List UInt8 := leBytes value.toUInt32.toNat 4

def readI32Le (bytes : List UInt8) : Int32 := ⟨UInt32.ofNat (ofLeBytes bytes)⟩

@[simp] theorem length_i32LeBytes (value : Int32) : (i32LeBytes value).length = 4 :=
  length_leBytes _ _

@[simp] theorem readI32Le_i32LeBytes (value : Int32) : readI32Le (i32LeBytes value) = value := by
  have hlt : value.toUInt32.toNat % 256 ^ 4 = value.toUInt32.toNat :=
    Nat.mod_eq_of_lt value.toUInt32.toNat_lt
  rw [readI32Le, i32LeBytes, ofLeBytes_leBytes, hlt, UInt32.ofNat_toNat]

theorem i32LeBytes_readI32Le {bytes : List UInt8} (h : bytes.length = 4) :
    i32LeBytes (readI32Le bytes) = bytes := by
  have hlt : ofLeBytes bytes < 256 ^ bytes.length := ofLeBytes_lt bytes
  rw [h] at hlt
  have hword : (readI32Le bytes).toUInt32.toNat = ofLeBytes bytes := UInt32.toNat_ofNat_of_lt' hlt
  rw [i32LeBytes, hword, ← h, leBytes_ofLeBytes]

/-- `EhFrameHdrEntryPatch` -/
structure EhFrameHdrEntry where
  framePtr : Int32
  frameInfoPtr : Int32
  deriving DecidableEq

namespace EhFrameHdrEntry

def bytes (entry : EhFrameHdrEntry) : List UInt8 :=
  i32LeBytes entry.framePtr ++ i32LeBytes entry.frameInfoPtr

@[simp] theorem length_bytes (entry : EhFrameHdrEntry) : entry.bytes.length = 8 := by
  simp [bytes]

/-- One of the `chunks_exact`. -/
def ofBytes (chunk : List UInt8) : EhFrameHdrEntry :=
  ⟨readI32Le (chunk.take 4), readI32Le ((chunk.drop 4).take 4)⟩

@[simp] theorem ofBytes_bytes (entry : EhFrameHdrEntry) : ofBytes entry.bytes = entry := by
  have hfirst : (i32LeBytes entry.framePtr).length = 4 := length_i32LeBytes _
  have hsecond : (i32LeBytes entry.frameInfoPtr).length = 4 := length_i32LeBytes _
  rw [ofBytes, bytes, ← hfirst, List.take_left, List.drop_left, hfirst, ← hsecond,
    List.take_length, readI32Le_i32LeBytes, readI32Le_i32LeBytes]

theorem bytes_ofBytes {chunk : List UInt8} (h : chunk.length = 8) : (ofBytes chunk).bytes = chunk := by
  have hfirst : (chunk.take 4).length = 4 := by rw [List.length_take]; omega
  have hsecond : ((chunk.drop 4).take 4).length = 4 := by
    rw [List.length_take, List.length_drop]
    omega
  have hrest : (chunk.drop 4).take 4 = chunk.drop 4 :=
    List.take_of_length_le (by rw [List.length_drop]; omega)
  rw [bytes, ofBytes, i32LeBytes_readI32Le hfirst, i32LeBytes_readI32Le hsecond, hrest,
    List.take_append_drop]

/-- What the entry says. -/
def values (entry : EhFrameHdrEntry) : ℤ × ℤ := (entry.framePtr.toInt, entry.frameInfoPtr.toInt)

end EhFrameHdrEntry

/-- `windows(2).all(..)` -/
def sortedByFramePtr : List EhFrameHdrEntry → Bool
  | first :: second :: rest =>
    decide (first.framePtr.toInt ≤ second.framePtr.toInt) && sortedByFramePtr (second :: rest)
  | _ => true

/-- `chunks_exact(8).take(count)` -/
def readEntries : Nat → List UInt8 → List EhFrameHdrEntry
  | 0, _ => []
  | count + 1, bytes => .ofBytes (bytes.take 8) :: readEntries count (bytes.drop 8)

/-! ## The table of an output -/

def ehFrameHdrHeaderSize : Nat := 12
def ehFrameHdrEntrySize : Nat := 8

structure EhFrameHdrTable where
  /-- `eh_frame_hdr_start` -/
  start : Nat
  /-- `entry_capacity` -/
  capacity : Nat
  entries : List EhFrameHdrEntry
  deriving DecidableEq

/-- The number of entries, in the header. -/
def ehFrameHdrEntryCount (output : List UInt8) (start : Nat) : Nat :=
  ofLeBytes (window output (start + 8) 4)

/-- The checks of the header and the entries of the table. -/
def ehFrameHdrTable (hdr : ParsedSection) (output : List UInt8) : Except String EhFrameHdrTable := do
  let (offset, size) ← orError "output .eh_frame_hdr has no file range" hdr.fileRange
  let start := offset.toNat
  if size.toNat < ehFrameHdrHeaderSize
      ∨ (size.toNat - ehFrameHdrHeaderSize) % ehFrameHdrEntrySize ≠ 0 then
    throw "output .eh_frame_hdr has an invalid size"
  if 2 ^ 64 ≤ start + size.toNat then
    throw "output .eh_frame_hdr range overflowed"
  if output.length < start + size.toNat then
    throw "output .eh_frame_hdr range is out of bounds"
  let capacity := (size.toNat - ehFrameHdrHeaderSize) / ehFrameHdrEntrySize
  if capacity < ehFrameHdrEntryCount output start then
    throw "output .eh_frame_hdr entry count exceeds capacity"
  pure ⟨start, capacity, readEntries (ehFrameHdrEntryCount output start)
    (output.drop (start + ehFrameHdrHeaderSize))⟩

/-! ## Changes -/

/-- `EhFrameHdrChange`, with the fields of `EhFrameHdrDelta` -/
inductive EhFrameHdrChange
  | adjust (fdeOutputOffset : UInt64) (framePtrDelta : Int64)
  | remove (fde : FdeRecord)
  | add (entry : EhFrameHdrEntry)

def EhFrameHdrChange.isRemove : EhFrameHdrChange → Bool
  | .remove _ => true
  | _ => false

/-- A value that fits into an `i32`. -/
def FitsI32 (value : ℤ) : Prop := -2 ^ 31 ≤ value ∧ value < 2 ^ 31

instance (value : ℤ) : Decidable (FitsI32 value) := inferInstanceAs (Decidable (_ ∧ _))

def ehFrameHdrIndexForFde (entries : List EhFrameHdrEntry)
    (ehFrameOffset ehFrameSize ehFrameAddress ehFrameHdrAddress fdeOutputOffset : UInt64) :
    Except String Nat := do
  if fdeOutputOffset.toNat < ehFrameOffset.toNat
      ∨ ehFrameSize.toNat ≤ fdeOutputOffset.toNat - ehFrameOffset.toNat then
    throw "incremental FDE output offset is outside .eh_frame"
  let fdeAddress := ehFrameAddress.toNat + (fdeOutputOffset.toNat - ehFrameOffset.toNat)
  if 2 ^ 64 ≤ fdeAddress then
    throw "incremental FDE address overflowed"
  let frameInfoPtr : ℤ := fdeAddress - ehFrameHdrAddress.toNat
  if ¬ FitsI32 frameInfoPtr then
    throw "incremental .eh_frame_hdr frame-info pointer overflowed"
  match entries.zipIdx.filterMap fun (entry, index) =>
      if entry.frameInfoPtr.toInt = frameInfoPtr then some index else none with
  | [] => throw "could not find .eh_frame_hdr entry for changed FDE"
  | [index] => pure index
  | _ => throw "found multiple .eh_frame_hdr entries for changed FDE"

/-- The variables of the loop over the changes. -/
structure EhFrameHdrState where
  entries : List EhFrameHdrEntry
  changedIndices : List Nat
  removedIndices : List Nat
  addedEntries : List EhFrameHdrEntry

/-- One change; `indexFor` is the search for the entry of an FDE. -/
def EhFrameHdrState.apply (indexFor : List EhFrameHdrEntry → UInt64 → Except String Nat)
    (state : EhFrameHdrState) : EhFrameHdrChange → Except String EhFrameHdrState
  | .adjust fdeOutputOffset framePtrDelta => do
      let index ← indexFor state.entries fdeOutputOffset
      -- the search returns the index of an entry
      let entry ← orError "index out of bounds" state.entries[index]?
      let adjusted := entry.framePtr.toInt + framePtrDelta.toInt
      if ¬ FitsI32 adjusted then
        throw "changed .eh_frame_hdr frame pointer overflowed"
      pure { state with
        entries := state.entries.set index { entry with framePtr := Int32.ofInt adjusted }
        changedIndices := state.changedIndices ++ [index] }
  | .remove fde => do
      let index ← indexFor state.entries fde.outputOffset
      pure { state with removedIndices := state.removedIndices ++ [index] }
  | .add entry => pure { state with addedEntries := state.addedEntries ++ [entry] }

/-! ## Patches -/

/-- A patch without deferred relocation, preserved ranges and adjustments. -/
def SectionPatch.plain (outputOffset : Nat) (data : List UInt8) : SectionPatch :=
  { outputOffset := UInt64.ofNat outputOffset, size := UInt64.ofNat data.length, data := data
    deferredRelocation := none, preserveRanges := [], adjustments := [] }

/-- `data.resize(size, 0)` -/
def resize (data : List UInt8) (size : Nat) : List UInt8 :=
  data.take size ++ List.replicate (size - data.length) 0

namespace EhFrameHdrTable

variable (table : EhFrameHdrTable)

/-- Where the entry with an index is. -/
def entryOffset (index : Nat) : Nat :=
  table.start + ehFrameHdrHeaderSize + index * ehFrameHdrEntrySize

def countPatch (count : Nat) : SectionPatch := .plain (table.start + 8) (leBytes count 4)

/-- The first field of an entry. -/
def pointerPatch (index : Nat) (entry : EhFrameHdrEntry) : SectionPatch :=
  .plain (table.entryOffset index) (i32LeBytes entry.framePtr)

/-- The entries from an index up to a bound; slots that are not used are cleared. -/
def entriesPatch (first bound : Nat) (entries : List EhFrameHdrEntry) : SectionPatch :=
  .plain (table.entryOffset first)
    (resize (entries.flatMap EhFrameHdrEntry.bytes) ((bound - first) * ehFrameHdrEntrySize))

/-- The patches of changed entries. -/
def pointerPatches (entries : List EhFrameHdrEntry) (changedIndices : List Nat) :
    List SectionPatch :=
  changedIndices.filterMap fun index => entries[index]?.map (table.pointerPatch index)

/-- The sorted indices are erased from the last on. -/
def patches (state : EhFrameHdrState) : Except String (List SectionPatch) := do
  if ¬ sortedByFramePtr state.entries then
    throw "changed .eh_frame_hdr entries would no longer be sorted"
  let changedIndices := sortDedup state.changedIndices
  let removedIndices := sortDedup state.removedIndices
  let kept := eraseAll removedIndices state.entries
  match state.addedEntries, removedIndices with
  | first :: added, _ => do
      if table.capacity < kept.length + (first :: added).length then
        throw "no free .eh_frame_hdr entries for FDE addition"
      let entries := (kept ++ first :: added).insertionSort
        fun a b => a.framePtr.toInt ≤ b.framePtr.toInt
      if ¬ sortedByFramePtr entries then
        throw "changed .eh_frame_hdr entries would no longer be sorted"
      if 2 ^ 32 ≤ entries.length then
        throw "changed .eh_frame_hdr entry count overflowed"
      pure [table.countPatch entries.length, table.entriesPatch 0 table.capacity entries]
  | [], [] => pure (table.pointerPatches state.entries changedIndices)
  | [], firstRemoved :: _ => do
      if ¬ sortedByFramePtr kept then
        throw "changed .eh_frame_hdr entries would no longer be sorted"
      if 2 ^ 32 ≤ kept.length then
        throw "changed .eh_frame_hdr entry count overflowed"
      pure (table.pointerPatches kept (changedIndices.filter (· < firstRemoved)) ++
        [table.countPatch kept.length,
          table.entriesPatch firstRemoved state.entries.length (kept.drop firstRemoved)])

end EhFrameHdrTable

/-- The part of `eh_frame_hdr_patches_for_fde_changes` that can be rejected; the
offsets and sizes of sections are as large as indices can be. -/
def ehFrameHdrPatches (file : ParsedOutput) (output : List UInt8) (changes : List EhFrameHdrChange) :
    Except String (List SectionPatch) :=
  match file.sectionByName ".eh_frame_hdr" with
  | none =>
    if changes.any EhFrameHdrChange.isRemove then
      throw "output has no .eh_frame_hdr for incremental FDE removal"
    else pure []
  | some ehFrameHdr => do
      let ehFrame ← orError "output has .eh_frame_hdr but no .eh_frame section"
        (file.sectionByName ".eh_frame")
      let (ehFrameOffset, ehFrameSize) ← orError "output .eh_frame has no file range"
        ehFrame.fileRange
      let table ← ehFrameHdrTable ehFrameHdr output
      let state ← changes.foldlM (EhFrameHdrState.apply fun entries fdeOutputOffset =>
        ehFrameHdrIndexForFde entries ehFrameOffset ehFrameSize ehFrame.address
          ehFrameHdr.address fdeOutputOffset) ⟨table.entries, [], [], []⟩
      table.patches state

/-- `eh_frame_hdr_patches_for_fde_changes`; `parse` is the object parser. -/
def ehFrameHdrPatchesForFdeChanges (parse : List UInt8 → Except String ParsedOutput)
    (output : List UInt8) (changes : List EhFrameHdrChange) :
    Except String (Except String (List SectionPatch)) :=
  match changes with
  | [] => .ok (.ok [])
  | _ :: _ => do
      let file ← (parse output).mapError fun error =>
        s!"Failed to parse output for incremental .eh_frame_hdr patching: {error}"
      pure (ehFrameHdrPatches file output changes)

/-! ## What the table should hold -/

/-- Where the header finds the FDE at an offset of the output. -/
def frameInfoPtrFor (file : ParsedOutput) (fdeOutputOffset : UInt64) : Option ℤ := do
  let ehFrameHdr ← file.sectionByName ".eh_frame_hdr"
  let ehFrame ← file.sectionByName ".eh_frame"
  let (ehFrameOffset, _) ← ehFrame.fileRange
  pure (ehFrame.address.toNat + (fdeOutputOffset.toNat - ehFrameOffset.toNat) -
    ehFrameHdr.address.toNat)

section

variable (file : ParsedOutput) (entry : EhFrameHdrEntry)

namespace EhFrameHdrChange

/-- The change is about the entry. -/
def removes : EhFrameHdrChange → Bool
  | .remove fde => frameInfoPtrFor file fde.outputOffset = some entry.frameInfoPtr.toInt
  | _ => false

/-- How far a change moves the function of an entry. -/
def delta : EhFrameHdrChange → ℤ
  | .adjust fdeOutputOffset framePtrDelta =>
    if frameInfoPtrFor file fdeOutputOffset = some entry.frameInfoPtr.toInt then
      framePtrDelta.toInt
    else 0
  | _ => 0

def added : EhFrameHdrChange → Option EhFrameHdrEntry
  | .add entry => some entry
  | _ => none

end EhFrameHdrChange

/-- What an entry says after the changes. -/
def adjustedValues (changes : List EhFrameHdrChange) : ℤ × ℤ :=
  (entry.framePtr.toInt + (changes.map (EhFrameHdrChange.delta file entry)).sum,
    entry.frameInfoPtr.toInt)

/-- The old entries without the removed ones, adjusted, and the added ones. -/
def liveEntries (entries : List EhFrameHdrEntry) (changes : List EhFrameHdrChange) : List (ℤ × ℤ) :=
  ((entries.filter fun entry => !changes.any (EhFrameHdrChange.removes file entry)).map
      fun entry => adjustedValues file entry changes) ++
    (changes.filterMap EhFrameHdrChange.added).map EhFrameHdrEntry.values

end

end Sld.Incremental
