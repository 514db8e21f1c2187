/-
# `Layout.RelaxPasses` — RISC-V relaxation, pass after pass

Each pass lays the sections out, scans those that may have something left to
shorten and takes what was deleted out of their sizes.  Where a layout puts
the sections and the symbols is not fixed here.
-/
import Sld.Layout.RelaxScan

namespace Sld.Layout

/-- A loaded section, with what relaxation has done to it. -/
structure LoadedSection where
  relocations : List Relocation
  bytes : List UInt8
  isExecutable : Bool
  /-- `Section::capacity` at a size -/
  capacity : ℕ → ℕ
  size : ℕ
  relaxDeltas : Option SectionRelaxDeltas

/-- What `compute_section_and_symbol_addresses` finds: the address of every
section, and of the symbol that an index of a section's object stands for. -/
structure Placement where
  sectionAddress : ℕ → ℕ
  resolveSymbol : ℕ → ℕ → Option RelaxSymbolInfo

namespace LoadedSection

variable (sec : LoadedSection)

def scanInput (placement : Placement) (index : ℕ) : ScanInput where
  sectionOutputAddress := placement.sectionAddress index
  sectionBytes := sec.bytes
  existingDeltas := sec.relaxDeltas
  resolveSymbol := placement.resolveSymbol index

/-- The new deletions are merged into the section's, or are its first. -/
def addDeltas (rawDeltas : List (ℕ × ℕ)) : LoadedSection :=
  { sec with
    size := sec.size - (rawDeltas.map Prod.snd).sum
    relaxDeltas := some
      (match sec.relaxDeltas with
      | some existing => existing.mergeAdditional rawDeltas
      | none => .new rawDeltas) }

/-- One section of a pass: the section after it, by how much its capacity
shrank, and the margin of its closest candidate. -/
def scan (placement : Placement) (index : ℕ) : LoadedSection × ℕ × Option ℕ :=
  if placement.sectionAddress index = 0 then (sec, 0, none)
  else
    let (rawDeltas, minMargin) :=
      (sec.scanInput placement index).collectRelaxationDeltas sec.relocations
    match rawDeltas with
    | [] => (sec, 0, minMargin)
    | _ =>
      let shrunk := sec.addDeltas rawDeltas
      (shrunk, sec.capacity sec.size - sec.capacity shrunk.size, minMargin)

end LoadedSection

/-- What the passes hand on to each other.  `rescanSections` is absent in the
first pass. -/
structure RelaxationState where
  sections : List LoadedSection
  placement : Placement
  rescanSections : Option (List ℕ)

namespace RelaxationState

variable (state : RelaxationState)

/-- `sections_to_scan` -/
def scans (index : ℕ) (sec : LoadedSection) : Bool :=
  match state.rescanSections with
  | some rescan => rescan.contains index
  | none => sec.isExecutable

def scanSection (index : ℕ) (sec : LoadedSection) : LoadedSection × ℕ × Option ℕ :=
  if state.scans index sec then sec.scan state.placement index else (sec, 0, none)

def scanned : List (LoadedSection × ℕ × Option ℕ) :=
  state.sections.mapIdx state.scanSection

def sectionsAfter : List LoadedSection := state.scanned.map fun result => result.1

/-- `deleted`: what the capacities shrank by. -/
def deleted : ℕ := (state.scanned.map fun result => result.2.1).sum

/-- Keeps the sections whose closest candidate is within `deleted` bytes. -/
def nextRescan : List ℕ :=
  (state.scanned.mapIdx fun index result => (index, result.2.2)).filterMap
    fun (index, margin) => (margin.filter (· ≤ state.deleted)).map fun _ => index

variable (layout : List ℕ → Placement)

/-- A pass that deleted something is followed by a new layout. -/
def relayout : RelaxationState where
  sections := state.sectionsAfter
  placement := layout (state.sectionsAfter.map LoadedSection.size)
  rescanSections := some state.nextRescan

end RelaxationState

def maxRelaxationIterations : ℕ := 5

/-- The states that `perform_iterative_relaxation` reaches, in order: the
loop ends with nothing to scan again or nothing deleted. -/
def relaxationPasses (layout : List ℕ → Placement) : ℕ → RelaxationState → List RelaxationState
  | 0, _ => []
  | iterations + 1, state =>
    if state.rescanSections = some [] then []
    else if state.deleted = 0 then [{ state with sections := state.sectionsAfter }]
    else state.relayout layout :: relaxationPasses layout iterations (state.relayout layout)

/-- Before the first pass nothing has been deleted. -/
def RelaxationState.initial (layout : List ℕ → Placement) (sections : List LoadedSection) :
    RelaxationState where
  sections := sections.map fun sec => { sec with relaxDeltas := none }
  placement := layout (sections.map LoadedSection.size)
  rescanSections := none

def performIterativeRelaxation (layout : List ℕ → Placement) (sections : List LoadedSection) :
    List RelaxationState :=
  relaxationPasses layout maxRelaxationIterations (.initial layout sections)

end Sld.Layout
