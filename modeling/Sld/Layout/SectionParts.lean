/-
# `Layout.SectionParts` — offsets in memory and in the file

The events of the output order are walked once.  Memory and file have a
cursor each; a part without data in the file moves only the first, a script
location sets it.
-/
import Sld.Layout.OutputSections

namespace Sld.Layout

structure OutputRecordLayout where
  fileSize : ℕ := 0
  memSize : ℕ := 0
  alignment : Alignment := 0
  fileOffset : ℕ := 0
  memOffset : ℕ := 0
deriving DecidableEq

/-- What layout reads of the arguments. -/
structure LayoutArgs where
  loadableSegmentAlignment : Alignment
  shouldOutputPartialObject : Bool

structure LayoutState where
  fileOffset : ℕ
  memOffset : ℕ
  nonallocMemOffsets : OutputSectionId → ℕ
  relocAllocMemOffsets : OutputSectionId → ℕ
  pendingLocation : Option ℕ
  recordsOut : PartId → OutputRecordLayout

section

variable (sizes : PartId → ℕ) (outputSections : OutputSections)
  (programSegments : List ProgramSegmentDef) (args : LayoutArgs)

def isLoadSegment (segmentId : ProgramSegmentId) : Bool :=
  programSegments[segmentId]?.any ProgramSegmentDef.isLoadable

/-! ## Segment alignments -/

structure SegmentAlignments where
  segmentAlignments : List (ProgramSegmentId × Alignment)
  activeLoadSegments : List ProgramSegmentId

/-- One event of `compute_segment_alignments`. -/
def segmentAlignmentEvent (acc : SegmentAlignments) (event : OrderEvent) : SegmentAlignments :=
  match event with
  | .segmentStart segmentId =>
    if isLoadSegment programSegments segmentId then
      { segmentAlignments :=
          if acc.segmentAlignments.any (·.1 = segmentId) then acc.segmentAlignments
          else acc.segmentAlignments ++ [(segmentId, args.loadableSegmentAlignment)]
        activeLoadSegments := acc.activeLoadSegments ++ [segmentId] }
    else acc
  | .segmentEnd segmentId =>
    { acc with activeLoadSegments := acc.activeLoadSegments.filter (· ≠ segmentId) }
  | .section sectionId =>
    { acc with
      segmentAlignments := acc.segmentAlignments.map fun (segmentId, alignment) =>
        if acc.activeLoadSegments.contains segmentId then
          (segmentId, max alignment (outputSections.maxAlignment sizes sectionId))
        else (segmentId, alignment) }
  | .setLocation _ => acc

def computeSegmentAlignments (outputOrder : List OrderEvent) : SegmentAlignments :=
  outputOrder.foldl (segmentAlignmentEvent sizes outputSections programSegments args) ⟨[], []⟩

/-- The alignment that a LOAD segment starts with. -/
def segmentAlignment (outputOrder : List OrderEvent) (segmentId : ProgramSegmentId) : Alignment :=
  match (computeSegmentAlignments sizes outputSections programSegments args
      outputOrder).segmentAlignments.find? (·.1 = segmentId) with
  | some (_, alignment) => alignment
  | none => args.loadableSegmentAlignment

/-! ## Parts -/

/-- The size of a part in memory.  RELRO padding goes up to the next page. -/
def partMemSize (sectionId : OutputSectionId) (partId : PartId) (memOffset : ℕ) : ℕ :=
  if sectionId = relroPadding then
    args.loadableSegmentAlignment.alignUp memOffset - memOffset
  else sizes partId

def placePart (sectionId : OutputSectionId) (maxAlignment : Alignment) (state : LayoutState)
    (partId : PartId) : LayoutState :=
  let alignment := min (outputSections.partAlignment partId) maxAlignment
  let mergeTarget := outputSections.primaryOutputSection sectionId
  let memSize := partMemSize sizes args sectionId partId state.memOffset
  let fileOffset := Alignment.alignUp alignment state.fileOffset
  if (outputSections.sectionFlags mergeTarget).alloc then
    let fileSize := if outputSections.hasDataInFile mergeTarget then memSize else 0
    if args.shouldOutputPartialObject then
      let partMemOffset :=
        Alignment.alignUp alignment (state.relocAllocMemOffsets partId.outputSectionId)
      { state with
        fileOffset := fileOffset + fileSize
        relocAllocMemOffsets := Function.update state.relocAllocMemOffsets
          partId.outputSectionId (partMemOffset + memSize)
        recordsOut := Function.update state.recordsOut partId
          ⟨fileSize, memSize, alignment, fileOffset, partMemOffset⟩ }
    else
      let memOffset := Alignment.alignUp alignment state.memOffset
      { state with
        fileOffset := fileOffset + fileSize
        memOffset := memOffset + memSize
        recordsOut := Function.update state.recordsOut partId
          ⟨fileSize, memSize, alignment, fileOffset, memOffset⟩ }
  else
    let memOffset := Alignment.alignUp alignment (state.nonallocMemOffsets partId.outputSectionId)
    { state with
      fileOffset := fileOffset + memSize
      nonallocMemOffsets := Function.update state.nonallocMemOffsets partId.outputSectionId
        (state.nonallocMemOffsets partId.outputSectionId + memSize)
      recordsOut := Function.update state.recordsOut partId
        ⟨memSize, memSize, alignment, fileOffset, memOffset⟩ }

/-- The location of a section, if it has one, is where its parts start. -/
def startSection (sectionId : OutputSectionId) (state : LayoutState) : LayoutState :=
  match (outputSections.outputInfo sectionId).location with
  | some address => { state with memOffset := address }
  | none => state

def placeSection (state : LayoutState) (sectionId : OutputSectionId) : LayoutState :=
  sectionId.parts.foldl
    (placePart sizes outputSections args sectionId (outputSections.maxAlignment sizes sectionId))
    (startSection outputSections sectionId state)

/-- The start of a LOAD segment: the file follows a location, or memory
follows the file. -/
def startLoadSegment (alignment : Alignment) (state : LayoutState) : LayoutState :=
  match state.pendingLocation with
  | some address =>
    { state with
      pendingLocation := none
      memOffset := address
      fileOffset := alignment.alignModulo address state.fileOffset }
  | none => { state with memOffset := alignment.alignModulo state.fileOffset state.memOffset }

/-- One event of `layout_section_parts`. -/
def layoutEvent (segmentAlignment : ProgramSegmentId → Alignment) (state : LayoutState)
    (event : OrderEvent) : LayoutState :=
  match event with
  | .setLocation address => { state with pendingLocation := some address }
  | .segmentStart segmentId =>
    if isLoadSegment programSegments segmentId then
      startLoadSegment (segmentAlignment segmentId) state
    else state
  | .segmentEnd _ => state
  | .section sectionId => placeSection sizes outputSections args state sectionId

def layoutStart : LayoutState where
  fileOffset := 0
  memOffset := outputSections.baseAddress
  nonallocMemOffsets := fun _ => 0
  relocAllocMemOffsets := fun _ => 0
  pendingLocation := none
  recordsOut := fun _ => {}

def layoutEvents (outputOrder : List OrderEvent) (events : List OrderEvent) : LayoutState :=
  events.foldl (layoutEvent sizes outputSections programSegments args
    (segmentAlignment sizes outputSections programSegments args outputOrder))
    (layoutStart outputSections)

def layoutSectionParts (outputOrder : List OrderEvent) : PartId → OutputRecordLayout :=
  (layoutEvents sizes outputSections programSegments args outputOrder outputOrder).recordsOut

end

end Sld.Layout
