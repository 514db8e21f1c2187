/-
# `Incremental.FdeMatching` — finding the frame descriptions of a changed object

A frame description that was linked is recorded with its place in
`.eh_frame` and with the section of its function.  In a changed version of
the object it is looked for by these: at its place if a frame description of
the section is there, else the first one of the section, else whatever lies
at its place.  What is then not found again is new.

The functions themselves are not in the records.  `EhFrame.functionAt` says
which function a frame description is of, so that a statement can tell; no
definition here that models the linker reads it.

    EhFrame.entries            the entries of a section
    Change.fdeOutcome          what becomes of a record
    Change.addedCandidates     what is new
    Change.Accepted            the changed object may be patched
-/
import Mathlib.Algebra.Group.Int.Defs
import Mathlib.Data.List.Basic
import Sld.Elf.SectionHeaders

namespace Sld.Incremental.Fdes

open Elf (readLe)
open Store (part)

/-! ## Sections -/

/-- A relocation of `.eh_frame`: what it says of its place, and what is known of
its symbol. -/
structure Rela where
  offset : ℕ
  info : ℕ
  addend : ℤ
  /-- the section and the address of the symbol -/
  symbolSection : Option ℕ
  symbolAddress : ℕ
  /-- the width, of a plain field with an addend of its own -/
  plainSize : Option ℕ
  /-- relative to its place, and 32 bits wide -/
  isPcRelative32 : Bool
deriving DecidableEq

def fdePcBeginOffset : ℕ := 8

/-- The entries of `.eh_frame` from an offset on: where each is, and its size. -/
def entriesFrom (data : List UInt8) : ℕ → ℕ → List (ℕ × ℕ)
  | 0, _ => []
  | fuel + 1, offset =>
    if data.length < offset + 8 then []
    else
      let length := (readLe data offset 4).getD 0
      if length = 0 ∨ data.length < offset + (length + 4) then []
      else (offset, length + 4) :: entriesFrom data fuel (offset + (length + 4))

/-- Some relocation of an entry says that its function is in a section. -/
def hasTargetPcBegin (relas : List Rela) (offset target : ℕ) : Prop :=
  ∃ rela ∈ relas, rela.offset = offset + fdePcBeginOffset ∧ rela.symbolSection = some target

instance (relas : List Rela) (offset target : ℕ) :
    Decidable (hasTargetPcBegin relas offset target) :=
  inferInstanceAs (Decidable (∃ rela ∈ relas, _))

/-- `.eh_frame`, with the functions of its frame descriptions. -/
structure EhFrame (F : Type) where
  data : List UInt8
  relas : List Rela
  functionAt : ℕ → Option F
  /-- frame descriptions are entries, -/
  function_entry : ∀ offset function, functionAt offset = some function →
    ∃ size, (offset, size) ∈ entriesFrom data data.length 0
  /-- one for each function, -/
  function_injective : ∀ offset other function, functionAt offset = some function →
    functionAt other = some function → offset = other
  /-- and the function is in one section. -/
  function_target : ∀ offset function, functionAt offset = some function →
    ∃ target, ∀ other, hasTargetPcBegin relas offset other ↔ other = target

variable {F : Type}

namespace EhFrame

variable (eh : EhFrame F)

def entries : List (ℕ × ℕ) := entriesFrom eh.data eh.data.length 0

/-- `fde_input_range_for_target_section_matching`: the first entry of a section,
at an offset if one is given. -/
def entryOf (target : ℕ) (targetInputOffset : Option ℕ) : Option (ℕ × ℕ) :=
  eh.entries.find? fun entry =>
    (∀ offset ∈ targetInputOffset, offset = entry.1) ∧ hasTargetPcBegin eh.relas entry.1 target

/-- `fde_input_range`, within the section -/
def rangeAt (offset size : ℕ) : Option (ℕ × ℕ) :=
  if offset + size ≤ eh.data.length ∧ 8 ≤ size then some (offset, size) else none

/-- The relocations in a range (`fde_contains_relocation`). -/
def relasIn (offset size : ℕ) : List Rela :=
  eh.relas.filter fun rela => offset ≤ rela.offset ∧ rela.offset < offset + size

/-- `eh_frame_relocation_sizes` -/
def relocationSize (offset : ℕ) : Option ℕ :=
  ((eh.relas.filter fun rela => rela.offset = offset ∧ rela.plainSize.isSome).getLast?).bind
    Rela.plainSize

/-- The frame description is of the function, which is in the section. -/
def IsFdeOf (function : F) (target offset : ℕ) : Prop :=
  eh.functionAt offset = some function ∧ hasTargetPcBegin eh.relas offset target

end EhFrame

structure ObjectSection where
  name : Option String
  data : List UInt8
  /-- one of the sections that are patched -/
  patched : Bool
deriving DecidableEq

/-- One version of the object. -/
structure ObjectVersion (F : Type) where
  sections : List ObjectSection
  /-- the section `.eh_frame`, if there is one -/
  ehFrame : Option (EhFrame F)

def ObjectVersion.sectionByName (version : ObjectVersion F) (name : String) : Option ℕ :=
  version.sections.findIdx? fun object => object.name = some name

/-! ## Records -/

/-- A frame description that was linked. -/
structure FdeRecord where
  sectionIndex : ℕ
  inputOffset : ℕ
  size : ℕ
deriving DecidableEq

/-- A changed object, with what was recorded of it. -/
structure Change (F : Type) where
  previous : ObjectVersion F
  current : ObjectVersion F
  previousEh : EhFrame F
  previous_eh : previous.ehFrame = some previousEh
  records : List FdeRecord
  /-- the patched sections of the current version are in the output -/
  placed : ℕ → Bool
  /-- the input is the object, not an archive -/
  wholeFile : Bool
  /-- the fingerprints are equal -/
  fingerprintMatches : Bool
  /-- another exception applies -/
  otherwiseAllowed : Bool
  /-- records are of frame descriptions, -/
  recorded : ∀ record ∈ records, ∃ function,
    previousEh.IsFdeOf function record.sectionIndex record.inputOffset
  /-- with their sizes, -/
  recorded_range : ∀ record ∈ records, previousEh.rangeAt record.inputOffset record.size ≠ none
  /-- each once -/
  records_distinct : ∀ record ∈ records, ∀ other ∈ records,
    record.inputOffset = other.inputOffset → record = other

/-- What becomes of a record. -/
inductive FdeOutcome where
  | removed
  | skipped
  | refused
  | paired (sectionIndex offset : ℕ)
  deriving DecidableEq

def fdeBytesMatchIgnoringCiePointer (current previous : List UInt8) : Prop :=
  current.length = previous.length ∧ current.take 4 = previous.take 4 ∧
    current.drop 8 = previous.drop 8

instance (current previous : List UInt8) :
    Decidable (fdeBytesMatchIgnoringCiePointer current previous) :=
  inferInstanceAs (Decidable (_ ∧ _))

namespace Change

variable (change : Change F)

/-- `current_fde_record_for_previous_record`: the section of the same name. -/
def currentSection (record : FdeRecord) : Option ℕ :=
  match (change.previous.sections[record.sectionIndex]?).bind ObjectSection.name with
  | none => some record.sectionIndex
  | some name => change.current.sectionByName name

/-- The place of the record in the current version. -/
def chosen (eh : EhFrame F) (target : ℕ) (record : FdeRecord) : Option (ℕ × ℕ) :=
  (eh.entryOf target (some record.inputOffset)).or
    ((eh.entryOf target none).or (eh.rangeAt record.inputOffset record.size))

/-- The bytes at the place may be those of the record. -/
def bytesMatch (eh : EhFrame F) (place : ℕ × ℕ) (record : FdeRecord) : Prop :=
  let current := part eh.data place.1 place.2
  let previous := part change.previousEh.data record.inputOffset record.size
  part current 4 4 = part previous 4 4 ∨ fdeBytesMatchIgnoringCiePointer current previous

instance (eh : EhFrame F) (place : ℕ × ℕ) (record : FdeRecord) :
    Decidable (change.bytesMatch eh place record) :=
  inferInstanceAs (Decidable (_ ∨ _))

/-- A relocation of the place may be that of the record: at the same offset, of
the same kind and symbol, in a plain field, and with an addend that has moved by
a 64-bit number. -/
def relasMatch (eh : EhFrame F) (offset : ℕ) (record : FdeRecord) (relas : Rela × Rela) : Prop :=
  relas.1.offset - offset = relas.2.offset - record.inputOffset ∧
    relas.1.info = relas.2.info ∧
    (∃ size ∈ eh.relocationSize relas.1.offset,
      relas.1.offset - offset + size ≤ record.size) ∧
    -(2 ^ 63) ≤ relas.1.addend - relas.2.addend ∧ relas.1.addend - relas.2.addend < 2 ^ 63

instance (eh : EhFrame F) (offset : ℕ) (record : FdeRecord) (relas : Rela × Rela) :
    Decidable (relasMatch eh offset record relas) :=
  inferInstanceAs (Decidable (_ ∧ _ ∧ _ ∧ _ ∧ _))

/-- `fde_relocation_patches_for_input_bytes`, for one record at a place -/
def outcomeAt (eh : EhFrame F) (target : ℕ) (record : FdeRecord) (place : ℕ × ℕ) : FdeOutcome :=
  if change.previousEh.rangeAt record.inputOffset record.size = none then .skipped
  else if ¬change.bytesMatch eh place record then .refused
  else
    let current := eh.relasIn place.1 record.size
    let previous := change.previousEh.relasIn record.inputOffset record.size
    if current.length ≠ previous.length then .skipped
    else if ∀ relas ∈ current.zip previous, relasMatch eh place.1 record relas
    then .paired target place.1
    else .refused

/-- `fde_relocation_patches_for_input_bytes`, for one record -/
def fdeOutcome (record : FdeRecord) : FdeOutcome :=
  match change.current.ehFrame with
  | none => .removed
  | some eh =>
    match change.currentSection record with
    | none => .removed
    | some target =>
      match chosen eh target record with
      | none => .removed
      | some place => change.outcomeAt eh target record place

/-! ## New frame descriptions -/

structure FdeCandidate where
  targetSectionIndex : ℕ
  inputOffset : ℕ
  cieInputOffset : ℕ
deriving DecidableEq

/-- `fde_pc_begin_target`, the section -/
def pcBeginTarget (rela : Rela) : Option ℕ :=
  if rela.isPcRelative32 = true ∧ 0 ≤ rela.symbolAddress + rela.addend ∧
    rela.symbolAddress + rela.addend < 2 ^ 64 then rela.symbolSection else none

/-- `fde_candidates_for_input_bytes`, for one entry: no frame description that has
a second relocation. -/
def candidateAt (eh : EhFrame F) (entry : ℕ × ℕ) : Option FdeCandidate := do
  let cieId ← readLe eh.data (entry.1 + 4) 4
  if cieId = 0 ∨ (eh.relasIn entry.1 entry.2).length ≠ 1 ∨ entry.1 + 4 < cieId then none
  else
    let rela ← (eh.relasIn entry.1 entry.2).find? fun rela =>
      rela.offset = entry.1 + fdePcBeginOffset
    let target ← pcBeginTarget rela
    return ⟨target, entry.1, entry.1 + 4 - cieId⟩

/-- The place of a record as the search for new ones has it. -/
def matchedOffset (eh : EhFrame F) (target : ℕ) (record : FdeRecord) : ℕ :=
  (((eh.entryOf target (some record.inputOffset)).or (eh.entryOf target none)).map
    Prod.fst).getD record.inputOffset

def matchedCurrentFdes (eh : EhFrame F) : List (ℕ × ℕ) :=
  change.records.filterMap fun record =>
    (change.currentSection record).map fun target => (target, matchedOffset eh target record)

/-- `fde_cie_input_offset`, of a matched frame description -/
def cieInputOffset (eh : EhFrame F) (record : FdeRecord) (offset : ℕ) : Option ℕ := do
  let place ← eh.rangeAt offset record.size
  let cieId ← readLe eh.data (place.1 + 4) 4
  if cieId = 0 ∨ offset + 4 < cieId then none else some (offset + 4 - cieId)

/-- The entries of a common part that matched frame descriptions refer to. -/
def matchedCies (eh : EhFrame F) : List ℕ :=
  change.records.filterMap fun record => do
    let target ← change.currentSection record
    cieInputOffset eh record (matchedOffset eh target record)

/-- `added_fde_candidates_for_input_bytes` -/
def addedCandidates : List FdeCandidate :=
  match change.current.ehFrame with
  | none => []
  | some eh => (eh.entries.filterMap (candidateAt eh)).filter fun candidate =>
    (candidate.targetSectionIndex, candidate.inputOffset) ∉ change.matchedCurrentFdes eh ∧
      change.placed candidate.targetSectionIndex = true ∧
      candidate.cieInputOffset ∈ change.matchedCies eh

/-! ## Acceptance -/

/-- `section_name_is_metadata_for_fde_removal` -/
def isMetadata (name : String) : Bool :=
  name.isEmpty || name.startsWith ".rel" || name ∈ [".eh_frame", ".symtab", ".strtab", ".shstrtab",
    ".comment", ".note.GNU-stack", ".llvm_addrsig"]

/-- The contents of the sections of a name that are compared. -/
def comparedUnder (sections : List ObjectSection) (name : String) : List (List UInt8) :=
  (sections.filter fun object => object.patched = false ∧ object.name.getD "" = name).map
    ObjectSection.data

/-- The other sections have the same contents, name by name. -/
def sameSections (previous current : List ObjectSection) : Prop :=
  ∀ object ∈ previous ++ current, isMetadata (object.name.getD "") = false →
    comparedUnder previous (object.name.getD "") = comparedUnder current (object.name.getD "")

instance (previous current : List ObjectSection) : Decidable (sameSections previous current) :=
  inferInstanceAs (Decidable (∀ object ∈ previous ++ current, _))

/-- `object_diff_allows_fde_addition` -/
def allowsFdeAddition : Prop :=
  change.addedCandidates ≠ [] ∧ change.wholeFile = true ∧
    sameSections change.previous.sections change.current.sections

/-- `object_diff_allows_fde_removal`: the sections of what is removed are not
compared either. -/
def allowsFdeRemoval : Prop :=
  let removed := change.records.filter fun record => change.fdeOutcome record = .removed
  removed ≠ [] ∧ change.wholeFile = true ∧
    sameSections (change.previous.sections.mapIdx fun index object =>
      { object with patched := object.patched || removed.any fun record =>
        record.sectionIndex = index }) change.current.sections

/-- The change is patched into the output. -/
def Accepted : Prop :=
  change.fingerprintMatches = true ∨ change.otherwiseAllowed = true ∨ change.allowsFdeAddition ∨
    change.allowsFdeRemoval

end Change

end Sld.Incremental.Fdes
