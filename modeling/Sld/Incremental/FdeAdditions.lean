/-
# `Incremental.FdeAdditions` — new frame descriptions in `.eh_frame`

`.eh_frame` is a sequence of entries, each with its length at the front,
and a length of zero at the end.  A frame description points back to the
common part that it belongs to, and to its function:

    0 .. 4     the length
    4 .. 8     from here back to the CIE
    8 .. 12    from here to the function

A link may leave zeros after the end.  A new frame description of a changed
object is put there, with both pointers computed for its place; the one of
the CIE follows a frame description of the same CIE that the output has.

    fdeCandidatesForInputBytes    the frame descriptions of an object
    fdeAddPatchesForOutput        the patches for those that are new
-/
import Sld.Incremental.EhFrameHdr
import Sld.Incremental.FdeMatching
import Sld.Store.Entries

namespace Sld.Incremental

open Fdes (Rela fdePcBeginOffset)
open Store (window splice)
open Store.Entries (IsEntry)
open Text.Reader (orError)

/-! ## The frame descriptions of an object -/

/-- An entry of `.eh_frame`. -/
abbrev IsFrameEntry (entry : List UInt8) : Prop := IsEntry ofLeBytes 4 entry

/-- A frame description, and where its function and its CIE are in the output. -/
structure FdeAddCandidate where
  inputFile : Text
  input : Text
  targetSectionIndex : UInt32
  ehFrameSectionIndex : UInt32
  inputOffset : UInt64
  targetSectionOffset : UInt64
  targetOutputOffset : UInt64
  fdeData : List UInt8
  pcBeginRange : ℕ × ℕ
  cieInputOffset : UInt64
  cieReferenceFdeOutputOffset : UInt64
  /-- it is an entry of the section it was read from, -/
  entry : IsFrameEntry fdeData
  /-- with a CIE pointer, -/
  ciePointer : 8 ≤ fdeData.length
  /-- and the pointer to its function is where it should be. -/
  pcBegin : pcBeginRange = (fdePcBeginOffset, fdePcBeginOffset + 4)

theorem isFrameEntry_window {data : List UInt8} {offset length : ℕ}
    (hlength : length = ofLeBytes (window data offset 4)) (hpos : length ≠ 0)
    (hin : offset + (length + 4) ≤ data.length) :
    IsFrameEntry (window data offset (length + 4)) := by
  have hlen : (window data offset (length + 4)).length = length + 4 := Store.length_window hin
  have hfront : (window data offset (length + 4)).take 4 = window data offset 4 := by
    rw [window, List.take_take, Nat.min_eq_left (by omega), window]
  have hlengthOf : Store.Entries.lengthOf ofLeBytes 4 (window data offset (length + 4)) = length := by
    rw [Store.Entries.lengthOf, hfront, hlength]
  exact ⟨by omega, by omega, by omega⟩

inductive FdeRelocationTarget where
  /-- The section and the address of the symbol, if there is one of its number. -/
  | symbol (found : Option (Option UInt32 × UInt64))
  | sectionIndex (index : UInt32)
  | other

/-- A relocation of `.eh_frame`, as it is parsed. -/
structure FdeRelocation where
  offset : ℕ
  /-- relative to its place, in 32 bits, with an addend of its own -/
  isRelative32 : Bool
  target : FdeRelocationTarget
  addend : Int64

/-- `.eh_frame` of an object. -/
structure EhFrameInput where
  sectionIndex : UInt32
  data : List UInt8
  /-- `rela_entries_for_section`, by offset -/
  relas : List ℕ
  relocations : List FdeRelocation

namespace EhFrameInput

variable (eh : EhFrameInput)

def fdePcBeginTarget (offset : ℕ) : Except String (Option (UInt32 × UInt64)) :=
  match eh.relocations.find? fun relocation => relocation.offset = offset with
  | none => pure none
  | some relocation =>
    if relocation.isRelative32 then
      match relocation.target with
      | .symbol none => throw "Missing FDE addition pc-begin symbol"
      | .symbol (some (none, _)) => pure none
      | .symbol (some (some index, address)) =>
        let value : ℤ := address.toNat + relocation.addend.toInt
        pure (if 0 ≤ value ∧ value < 2 ^ 64 then some (index, .ofNat value.toNat) else none)
      | .sectionIndex index =>
        let value := relocation.addend.toInt
        pure (if 0 ≤ value then some (index, .ofNat value.toNat) else none)
      | .other => pure none
    else pure none

/-- One entry, at an offset.  The caller says later whose it is and what it refers to. -/
def fdeCandidate (offset : ℕ) (entry : List UInt8) (hentry : IsFrameEntry entry)
    (hpointer : 8 ≤ entry.length) : Except String (Option FdeAddCandidate) :=
  let cieId := ofLeBytes (window entry 4 4)
  let relasInFde := eh.relas.filter fun rela => offset ≤ rela ∧ rela < offset + entry.length
  if cieId = 0 ∨ offset + fdePcBeginOffset ∉ relasInFde ∨ relasInFde.length ≠ 1 then pure none
  else do
    match ← eh.fdePcBeginTarget (offset + fdePcBeginOffset) with
    | none => pure none
    | some (targetSectionIndex, targetSectionOffset) =>
      if offset + 4 < cieId then pure none
      else pure (some {
        inputFile := []
        input := []
        targetSectionIndex
        ehFrameSectionIndex := eh.sectionIndex
        inputOffset := UInt64.ofNat offset
        targetSectionOffset
        targetOutputOffset := 0
        fdeData := entry
        pcBeginRange := (fdePcBeginOffset, fdePcBeginOffset + 4)
        cieInputOffset := UInt64.ofNat (offset + 4 - cieId)
        cieReferenceFdeOutputOffset := 0
        entry := hentry
        ciePointer := hpointer
        pcBegin := rfl })

/-- The loop over the entries. -/
def fdeCandidatesFrom : ℕ → ℕ → Except String (List FdeAddCandidate)
  | 0, _ => pure []
  | fuel + 1, offset =>
    if eh.data.length < offset + 8 then pure []
    else if hpos : ofLeBytes (window eh.data offset 4) = 0 then pure []
    else if hin : offset + (ofLeBytes (window eh.data offset 4) + 4) ≤ eh.data.length then
      -- the pointer is taken from the entry before its length is looked at
      if hpointer : 8 ≤ (window eh.data offset
          (ofLeBytes (window eh.data offset 4) + 4)).length then do
        let candidate ← eh.fdeCandidate offset _ (isFrameEntry_window rfl hpos hin) hpointer
        let rest ← fdeCandidatesFrom fuel (offset + (ofLeBytes (window eh.data offset 4) + 4))
        pure (candidate.toList ++ rest)
      else throw "range end index 8 out of range"
    else pure []

/-- `fde_candidates_for_input_bytes`, for an object with `.eh_frame` -/
def fdeCandidatesForInputBytes : Except String (List FdeAddCandidate) :=
  eh.fdeCandidatesFrom (eh.data.length + 1) 0

variable {eh}

/-- A candidate is the entry of the section that its offset says, and belongs to
the CIE that its pointer leads to. -/
structure Candidate (eh : EhFrameInput) (offset : ℕ) (candidate : FdeAddCandidate) : Prop where
  inputOffset : candidate.inputOffset = UInt64.ofNat offset
  fdeData : window eh.data offset candidate.fdeData.length = candidate.fdeData
  cieInputOffset : candidate.cieInputOffset =
    UInt64.ofNat (offset + 4 - ofLeBytes (window candidate.fdeData 4 4))
  target : eh.fdePcBeginTarget (offset + fdePcBeginOffset) =
    .ok (some (candidate.targetSectionIndex, candidate.targetSectionOffset))

theorem candidate_of_fdeCandidate {offset : ℕ} {entry : List UInt8} {hentry : IsFrameEntry entry}
    {hpointer : 8 ≤ entry.length} {candidate : FdeAddCandidate}
    (hwindow : window eh.data offset entry.length = entry)
    (h : eh.fdeCandidate offset entry hentry hpointer = .ok (some candidate)) :
    eh.Candidate offset candidate := by
  unfold fdeCandidate at h
  dsimp only at h
  split at h
  · cases h
  obtain ⟨target, htarget, h⟩ := Text.Reader.bind_eq_ok.mp h
  rcases target with _ | ⟨index, sectionOffset⟩
  · cases h
  dsimp only at h
  split at h
  · cases h
  · cases h
    exact ⟨rfl, hwindow, rfl, htarget⟩

theorem candidate_of_mem {fuel offset : ℕ} {candidates : List FdeAddCandidate}
    (h : eh.fdeCandidatesFrom fuel offset = .ok candidates) {candidate : FdeAddCandidate}
    (hmem : candidate ∈ candidates) : ∃ offset, eh.Candidate offset candidate := by
  induction fuel generalizing offset candidates with
  | zero =>
    cases h
    cases hmem
  | succ fuel ih =>
    unfold fdeCandidatesFrom at h
    split at h
    · cases h
      cases hmem
    split at h
    · cases h
      cases hmem
    split at h
    · next hin =>
      split at h
      · obtain ⟨first, hfirst, h⟩ := Text.Reader.bind_eq_ok.mp h
        obtain ⟨rest, hrest, h⟩ := Text.Reader.bind_eq_ok.mp h
        cases h
        rcases List.mem_append.mp hmem with hmem | hmem
        · rw [Option.mem_toList.mp hmem] at hfirst
          refine ⟨offset, candidate_of_fdeCandidate ?_ hfirst⟩
          rw [Store.length_window hin]
        · exact ih hrest hmem
      · cases h
    · cases h
      cases hmem

end EhFrameInput

/-- `added_fde_candidates_for_input_bytes` fills in what the search does not know. -/
def FdeAddCandidate.placed (candidate : FdeAddCandidate) (inputFile input : Text)
    (targetOutputOffset cieReferenceFdeOutputOffset : UInt64) : FdeAddCandidate :=
  { candidate with inputFile, input, targetOutputOffset, cieReferenceFdeOutputOffset }

/-! ## The output -/

def outputAddressForFileOffset (file : ParsedOutput) (fileOffset : UInt64) : Option UInt64 :=
  file.findSome? fun sec => do
    let (offset, size) ← sec.fileRange
    if offset.toNat ≤ fileOffset.toNat ∧
        fileOffset.toNat < min (offset.toNat + size.toNat) (2 ^ 64 - 1) then
      some (sec.address + (fileOffset - offset))
    else none

def outputCieOffsetForFde (output : List UInt8) (fdeOutputOffset : UInt64) : Option ℕ :=
  let pointerPos := fdeOutputOffset.toNat + 4
  if 2 ^ 64 ≤ pointerPos ∨ output.length < pointerPos + 4 then none
  else
    let ciePointer := ofLeBytes (window output pointerPos 4)
    if pointerPos < ciePointer then none else some (pointerPos - ciePointer)

/-- The loop of `eh_frame_terminator_offset`. -/
def ehFrameTerminatorFrom (ehFrame : List UInt8) : ℕ → ℕ → Option ℕ
  | 0, _ => none
  | fuel + 1, offset =>
    if ehFrame.length < offset + 4 then none
    else
      let length := ofLeBytes (window ehFrame offset 4)
      if length = 0 then some offset
      else ehFrameTerminatorFrom ehFrame fuel (offset + (length + 4))

def ehFrameTerminatorOffset (ehFrame : List UInt8) : Option ℕ :=
  ehFrameTerminatorFrom ehFrame (ehFrame.length + 1) 0

/-! ## Additions -/

structure ResolvedFdeAdd where
  patch : SectionPatch
  record : FdeRecord
  ehFrameHdrChange : Option EhFrameHdrChange

/-- The entry of the search table for a new frame description. -/
def addedHdrChange (targetAddress fdeAddress : ℕ) :
    Option UInt64 → Except String (Option EhFrameHdrChange)
  | none => pure none
  | some ehFrameHdrAddress => do
      let framePtr : ℤ := targetAddress - ehFrameHdrAddress.toNat
      if ¬ FitsI32 framePtr then
        throw "FDE addition .eh_frame_hdr frame pointer overflowed"
      let frameInfoPtr : ℤ := fdeAddress - ehFrameHdrAddress.toNat
      if ¬ FitsI32 frameInfoPtr then
        throw "FDE addition .eh_frame_hdr frame-info pointer overflowed"
      pure (some (.add ⟨Int32.ofInt framePtr, Int32.ofInt frameInfoPtr⟩))

/-- The record of a candidate that is put somewhere. -/
def FdeAddCandidate.record (candidate : FdeAddCandidate) (outputOffset size : ℕ) : FdeRecord where
  inputFile := candidate.inputFile
  input := candidate.input
  sectionIndex := candidate.targetSectionIndex
  ehFrameSectionIndex := candidate.ehFrameSectionIndex
  inputOffset := candidate.inputOffset
  outputOffset := UInt64.ofNat outputOffset
  size := UInt64.ofNat size

/-- What the loop of `fde_add_patches_for_output` reads. -/
structure EhFrameOutput where
  file : ParsedOutput
  output : List UInt8
  ehFrameAddress : UInt64
  ehFrameOffset : ℕ
  ehFrameHdrAddress : Option UInt64

namespace EhFrameOutput

variable (eh : EhFrameOutput)

/-- `fde_address`, of an offset in `.eh_frame` -/
def fdeAddress (outputOffset : ℕ) : ℕ :=
  eh.ehFrameAddress.toNat + (outputOffset - eh.ehFrameOffset)

/-- `field_address`; the sum is not checked. -/
def fieldAddress (outputOffset : ℕ) : ℕ := (eh.fdeAddress outputOffset + fdePcBeginOffset) % 2 ^ 64

/-- One candidate, at an offset. -/
def resolve (outputOffset : ℕ) (candidate : FdeAddCandidate) : Except String ResolvedFdeAdd := do
  let targetSectionAddress ← orError "could not resolve FDE addition target output address"
    (outputAddressForFileOffset eh.file candidate.targetOutputOffset)
  let targetAddress := targetSectionAddress.toNat + candidate.targetSectionOffset.toNat
  if 2 ^ 64 ≤ targetAddress then
    throw "FDE addition target output address overflowed"
  if outputOffset < eh.ehFrameOffset ∨ 2 ^ 64 ≤ eh.fdeAddress outputOffset then
    throw "FDE addition output address overflowed"
  let outputCieOffset ← orError "could not resolve FDE addition CIE output offset"
    (outputCieOffsetForFde eh.output candidate.cieReferenceFdeOutputOffset)
  let pointerPos := outputOffset + 4
  if 2 ^ 64 ≤ pointerPos ∨ pointerPos < outputCieOffset ∨
      2 ^ 32 ≤ pointerPos - outputCieOffset then
    throw "FDE addition CIE pointer overflowed"
  let data := splice candidate.fdeData 4 (leBytes (pointerPos - outputCieOffset) 4)
  let pcBegin : ℤ := targetAddress - eh.fieldAddress outputOffset
  if ¬ FitsI32 pcBegin then
    throw "FDE addition pc-begin relocation overflowed"
  if data.length < candidate.pcBeginRange.2 then
    throw "FDE addition pc-begin range is out of bounds"
  let data := splice data candidate.pcBeginRange.1 (i32LeBytes (Int32.ofInt pcBegin))
  let ehFrameHdrChange ← addedHdrChange targetAddress (eh.fdeAddress outputOffset)
    eh.ehFrameHdrAddress
  pure ⟨.plain outputOffset data, candidate.record outputOffset data.length, ehFrameHdrChange⟩

/-- The loop over the candidates: the next offset, and what they resolve to. -/
def resolveAll : ℕ → List FdeAddCandidate → Except String (ℕ × List ResolvedFdeAdd)
  | outputOffset, [] => pure (outputOffset, [])
  | outputOffset, candidate :: candidates => do
      let resolved ← eh.resolve outputOffset candidate
      let nextOutputOffset := outputOffset + resolved.patch.size.toNat
      if 2 ^ 64 ≤ nextOutputOffset then
        throw "FDE addition output offset overflowed"
      let (outputOffset, rest) ← resolveAll nextOutputOffset candidates
      pure (outputOffset, resolved :: rest)

end EhFrameOutput

/-- One patch for all of them and the new end; the others are empty. -/
def mergePatches (start : ℕ) : List ResolvedFdeAdd → List ResolvedFdeAdd
  | [] => []
  | first :: extras =>
    let combinedData := (first :: extras).flatMap (fun resolved => resolved.patch.data) ++
      leBytes 0 4
    { first with patch := .plain start combinedData } ::
      extras.map fun extra =>
        { extra with patch := .plain extra.record.outputOffset.toNat [] }

/-- The loop that looks for a record that is there already. -/
def checkRecords : List FdeRecord → List ResolvedFdeAdd → Except String Unit
  | _, [] => pure ()
  | previous, resolved :: rest => do
      if resolved.record ∈ previous then
        throw "duplicate incremental FDE addition record"
      checkRecords (resolved.record :: previous) rest

/-- `fde_add_patches_for_output`, for an output that has been parsed. -/
def fdeAddPatches (file : ParsedOutput) (output : List UInt8) (candidates : List FdeAddCandidate)
    (existingFdes : List FdeRecord) : Except String (List ResolvedFdeAdd) := do
  let ehFrame ← orError "output has no .eh_frame for incremental FDE addition"
    (file.sectionByName ".eh_frame")
  let (offset, size) ← orError "output .eh_frame has no file range" ehFrame.fileRange
  let stop := offset.toNat + size.toNat
  if 2 ^ 64 ≤ stop then throw "output .eh_frame range overflowed"
  else if output.length < stop then throw "output .eh_frame range is out of bounds"
  else do
    let terminatorOffset ← orError "output .eh_frame has no terminator for FDE addition"
      (ehFrameTerminatorOffset (window output offset.toNat size.toNat))
    let start := offset.toNat + terminatorOffset
    if 2 ^ 64 ≤ start then throw "output .eh_frame terminator offset overflowed"
    else do
      let eh : EhFrameOutput :=
        { file, output, ehFrameAddress := ehFrame.address, ehFrameOffset := offset.toNat
          ehFrameHdrAddress := (file.sectionByName ".eh_frame_hdr").map ParsedSection.address }
      let (outputOffset, resolved) ← eh.resolveAll start candidates
      let requiredEnd := outputOffset + 4
      if 2 ^ 64 ≤ requiredEnd then throw "FDE addition terminator offset overflowed"
      else if stop < requiredEnd then throw "no free .eh_frame space for FDE addition"
      else if ¬ (window output start (requiredEnd - start)).all (fun byte => byte == 0) then
        throw "FDE addition .eh_frame space is not empty"
      else do
        let resolved := mergePatches start resolved
        checkRecords existingFdes resolved
        pure resolved

def fdeAddPatchesForOutput (parse : List UInt8 → Except String ParsedOutput) (output : List UInt8)
    (candidates : List FdeAddCandidate) (existingFdes : List FdeRecord) :
    Except String (Except String (List ResolvedFdeAdd)) := do
  if candidates.isEmpty then
    pure (pure [])
  else do
    let file ← parse output
    pure (fdeAddPatches file output candidates existingFdes)

end Sld.Incremental
