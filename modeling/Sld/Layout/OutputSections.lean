/-
# `Layout.OutputSections` — output sections, their parts and their order

A regular output section has a part for every alignment, the largest first;
the others have one part.  The order of the sections is a list of events,
built section by section: the segments that end and start before a section
are read off its flags.
-/
import Mathlib.Data.List.Sort
import Sld.Layout.Alignment

namespace Sld.Layout

abbrev OutputSectionId := ℕ
abbrev PartId := ℕ
abbrev ProgramSegmentId := ℕ

/-! ## Parts -/

def numSinglePartSections : ℕ := 47

def numAlignments : ℕ := 17

/-- `part_id::RELRO_PADDING`, and its section -/
def relroPadding : OutputSectionId := 28

def ehFrame : OutputSectionId := 9

def regular (offset : ℕ) : OutputSectionId := numSinglePartSections + offset

def init : OutputSectionId := regular 5

def fini : OutputSectionId := regular 6

def OutputSectionId.numParts (sectionId : OutputSectionId) : ℕ :=
  if sectionId < numSinglePartSections then 1 else numAlignments

def OutputSectionId.basePartId (sectionId : OutputSectionId) : PartId :=
  if sectionId < numSinglePartSections then sectionId
  else numSinglePartSections + (sectionId - numSinglePartSections) * numAlignments

/-- `part_id_range`, in order -/
def OutputSectionId.parts (sectionId : OutputSectionId) : List PartId :=
  List.range' sectionId.basePartId sectionId.numParts

def PartId.outputSectionId (partId : PartId) : OutputSectionId :=
  if partId < numSinglePartSections then partId
  else (partId - numSinglePartSections) / numAlignments + numSinglePartSections

def PartId.shouldPack (partId : PartId) : Bool :=
  let sectionId := partId.outputSectionId
  sectionId = ehFrame || sectionId = init || sectionId = fini

/-! ## Sections -/

structure SectionFlags where
  alloc : Bool
  write : Bool
  execinstr : Bool
  tls : Bool
deriving DecidableEq

inductive SectionType where
  | nobits | note | other
deriving DecidableEq

structure SectionAttributes where
  flags : SectionFlags
  ty : SectionType
deriving DecidableEq

inductive SectionKind where
  | primary
  | secondary (primaryId : OutputSectionId)
deriving DecidableEq

inductive SegmentType where
  | phdr | interp | note | gnuProperty | load | tls | gnuEhFrame | gnuSframe | dynamic | gnuRelro
  | riscvAttributes | gnuStack
deriving DecidableEq

/-- What `should_include_section` reads of a built-in section. -/
structure BuiltInSectionDetails where
  isRelro : Bool
  targetSegmentType : Option SegmentType
deriving DecidableEq

structure SectionOutputInfo where
  kind : SectionKind
  sectionAttributes : SectionAttributes
  minAlignment : Alignment
  location : Option ℕ
  /-- The priority of `SecondaryOrder::InitFini` -/
  secondaryOrder : Option ℕ
deriving DecidableEq

structure OutputSections where
  baseAddress : ℕ
  outputInfo : OutputSectionId → SectionOutputInfo
  optBuiltInDetails : OutputSectionId → Option BuiltInSectionDetails

namespace OutputSections

variable (outputSections : OutputSections)

def mergeTarget (sectionId : OutputSectionId) : Option OutputSectionId :=
  match (outputSections.outputInfo sectionId).kind with
  | .primary => none
  | .secondary primaryId => some primaryId

def primaryOutputSection (sectionId : OutputSectionId) : OutputSectionId :=
  (outputSections.mergeTarget sectionId).getD sectionId

def sectionFlags (sectionId : OutputSectionId) : SectionFlags :=
  (outputSections.outputInfo sectionId).sectionAttributes.flags

/-- TLS sections have data in the file even if they are NOBITS. -/
def hasDataInFile (sectionId : OutputSectionId) : Bool :=
  let attributes := (outputSections.outputInfo sectionId).sectionAttributes
  attributes.ty != .nobits || attributes.flags.tls

def partAlignment (partId : PartId) : Alignment :=
  if partId < numSinglePartSections then
    (outputSections.outputInfo partId.outputSectionId).minAlignment
  else numAlignments - 1 - (partId - numSinglePartSections) % numAlignments

/-- `OutputSectionPartMap::max_alignment`: the alignment of the first part
with a size, and no less than the section's minimum. -/
def maxAlignment (sizes : PartId → ℕ) (sectionId : OutputSectionId) : Alignment :=
  let first := match sectionId.parts.find? fun partId => sizes partId != 0 with
    | some partId => outputSections.partAlignment partId
    | none => 0
  max first (outputSections.outputInfo sectionId).minAlignment

end OutputSections

/-! ## Segments -/

structure ProgramSegmentDef where
  segmentType : SegmentType
  isWritable : Bool
  isExecutable : Bool
deriving DecidableEq

def ProgramSegmentDef.isLoadable (segmentDef : ProgramSegmentDef) : Bool :=
  segmentDef.segmentType = .load

def programSegmentDefs : List ProgramSegmentDef :=
  [⟨.phdr, false, false⟩, ⟨.interp, false, false⟩, ⟨.note, false, false⟩,
    ⟨.gnuProperty, false, false⟩, ⟨.load, false, false⟩, ⟨.load, false, true⟩,
    ⟨.load, true, false⟩, ⟨.tls, false, false⟩, ⟨.gnuEhFrame, false, false⟩,
    ⟨.gnuSframe, false, false⟩, ⟨.dynamic, true, false⟩, ⟨.gnuRelro, false, false⟩,
    ⟨.riscvAttributes, false, false⟩]

def stackSegmentDef : ProgramSegmentDef := ⟨.gnuStack, true, false⟩

/-- `should_include_section` -/
def OutputSections.shouldIncludeInSegment (outputSections : OutputSections)
    (sectionId : OutputSectionId) (segmentDef : ProgramSegmentDef) : Bool :=
  let attributes := (outputSections.outputInfo sectionId).sectionAttributes
  match segmentDef.segmentType with
  | .note => attributes.ty = .note
  | .tls => attributes.flags.tls
  | .load =>
    attributes.flags.alloc && attributes.flags.write == segmentDef.isWritable &&
      attributes.flags.execinstr == segmentDef.isExecutable
  | .gnuRelro =>
    attributes.flags.tls ||
      (outputSections.optBuiltInDetails sectionId).any fun details => details.isRelro
  | other =>
    ((outputSections.optBuiltInDetails sectionId).bind fun details =>
      details.targetSegmentType).any fun targetSegmentType => targetSegmentType = other

/-! ## Output order -/

inductive OrderEvent where
  | segmentStart (segmentId : ProgramSegmentId)
  | segmentEnd (segmentId : ProgramSegmentId)
  | section (sectionId : OutputSectionId)
  | setLocation (address : ℕ)
deriving DecidableEq

structure OutputOrderBuilder where
  events : List OrderEvent
  programSegments : List ProgramSegmentDef
  /-- Indexes correspond to elements of `programSegmentDefs`. -/
  activeSegmentKinds : List (Option ProgramSegmentId)

namespace OutputOrderBuilder

variable (outputSections : OutputSections) (secondary : OutputSectionId → List OutputSectionId)
  (isPartialObject : Bool)

def new : OutputOrderBuilder := ⟨[], [], programSegmentDefs.map fun _ => none⟩

/-- Whether processing a section will cause the RELRO segment to end. -/
def shouldEndCurrentRwSegment (self : OutputOrderBuilder) (sectionId : OutputSectionId) : Bool :=
  (self.activeSegmentKinds.zip programSegmentDefs).any fun (id, segmentDef) =>
    id.isSome && segmentDef.segmentType = .gnuRelro &&
      !outputSections.shouldIncludeInSegment sectionId segmentDef

/-- Ends the active RW LOAD segment, the one at its index in
`programSegmentDefs`, if any. -/
def endRwLoadSegment (self : OutputOrderBuilder) : OutputOrderBuilder :=
  let defIndex := programSegmentDefs.findIdx fun segmentDef =>
    segmentDef.isLoadable && segmentDef.isWritable && !segmentDef.isExecutable
  match self.activeSegmentKinds[defIndex]? with
  | some (some segmentId) =>
    { self with
      events := self.events ++ [.segmentEnd segmentId]
      activeSegmentKinds := self.activeSegmentKinds.set defIndex none }
  | _ => self

/-- What the segments of `start_stop_segments_for_section` come to. -/
structure StartStop where
  stop : List ProgramSegmentId
  start : List ProgramSegmentId
  programSegments : List ProgramSegmentDef
  activeSegmentKinds : List (Option ProgramSegmentId)

/-- One kind of segment: it stays as it is, starts or ends. -/
def startStopKind (sectionId : OutputSectionId) (acc : StartStop)
    (kind : ProgramSegmentDef × Option ProgramSegmentId) : StartStop :=
  let (segmentDef, activeId) := kind
  match activeId, outputSections.shouldIncludeInSegment sectionId segmentDef with
  | none, false | some _, true =>
    { acc with activeSegmentKinds := acc.activeSegmentKinds ++ [activeId] }
  | none, true =>
    let segmentId := acc.programSegments.length
    { acc with
      start := acc.start ++ [segmentId]
      programSegments := acc.programSegments ++ [segmentDef]
      activeSegmentKinds := acc.activeSegmentKinds ++ [some segmentId] }
  | some segmentId, false =>
    { acc with
      stop := acc.stop ++ [segmentId]
      activeSegmentKinds := acc.activeSegmentKinds ++ [none] }

/-- A section with a location first ends all active segments. -/
def startStopSegmentsForSection (self : OutputOrderBuilder) (sectionId : OutputSectionId) :
    StartStop :=
  if isPartialObject || (outputSections.mergeTarget sectionId).isSome then
    ⟨[], [], self.programSegments, self.activeSegmentKinds⟩
  else
    let hasLocation := (outputSections.outputInfo sectionId).location.isSome
    let stop := if hasLocation then self.activeSegmentKinds.filterMap id else []
    let active :=
      if hasLocation then self.activeSegmentKinds.map fun _ => none
      else self.activeSegmentKinds
    (programSegmentDefs.zip active).foldl (startStopKind outputSections sectionId)
      ⟨stop, [], self.programSegments, []⟩

/-- The secondary sections, by their priority; the sort is stable. -/
def orderedSecondaries (sectionId : OutputSectionId) : List OutputSectionId :=
  (secondary sectionId).insertionSort fun a b =>
    (outputSections.outputInfo a).secondaryOrder.getD (2 ^ 16 - 1) ≤
      (outputSections.outputInfo b).secondaryOrder.getD (2 ^ 16 - 1)

/-- The `SetLocation` of an allocated section that has a location. -/
def locationEvents (sectionId : OutputSectionId) : List OrderEvent :=
  match (outputSections.outputInfo sectionId).location with
  | some address =>
    if (outputSections.sectionFlags sectionId).alloc then [.setLocation address] else []
  | none => []

def addSection (self : OutputOrderBuilder) (sectionId : OutputSectionId) : OutputOrderBuilder :=
  let self := if self.shouldEndCurrentRwSegment outputSections sectionId then
    self.endRwLoadSegment else self
  let segments := self.startStopSegmentsForSection outputSections isPartialObject sectionId
  { events := self.events ++ segments.stop.map .segmentEnd ++
      locationEvents outputSections sectionId ++ segments.start.map .segmentStart ++
      [.section sectionId] ++ (orderedSecondaries outputSections secondary sectionId).map .section
    programSegments := segments.programSegments
    activeSegmentKinds := segments.activeSegmentKinds }

def addSections (self : OutputOrderBuilder) (sections : List OutputSectionId) :
    OutputOrderBuilder :=
  sections.foldl (addSection outputSections secondary isPartialObject) self

/-- The stack segment is the only unconditional one. -/
def build (self : OutputOrderBuilder) : List OrderEvent × List ProgramSegmentDef :=
  let ends := (self.activeSegmentKinds.filterMap id).map OrderEvent.segmentEnd
  if isPartialObject then (self.events ++ ends, self.programSegments)
  else
    let segmentId := self.programSegments.length
    (self.events ++ ends ++ [.segmentStart segmentId, .segmentEnd segmentId],
      self.programSegments ++ [stackSegmentDef])

end OutputOrderBuilder

end Sld.Layout
