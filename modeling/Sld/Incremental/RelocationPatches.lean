/-
# `Incremental.RelocationPatches` — following moved targets and addends

When an input has changed, two passes run over the relocation records.  The
first looks at the records whose *target* lies in the input: it looks the
target up by name and, if it has moved inside its section, moves the
written value by as much.  The second looks at the records that the input
*owns*: where the addend in the object is no longer the recorded one, the
written value is moved by the difference, except where a dynamic relocation
carries the addend.  A moved value becomes a patch of the output, and the
record is edited in memory.

Whether the edited records are saved is decided elsewhere: they are written
only if something cleared `sections_file`.  Neither pass does.

The passes look at an input through `InputVersion`: the symbols of each
object in it, and the entries of its `SHT_RELA` sections.
-/
import Sld.Incremental.OutputPatches
import Sld.Incremental.Sidecar

namespace Sld.Incremental

open Text (hexDecode fromUtf8)
open Text.Reader (orError)

/-! ## What the passes see of an input -/

structure ObjectSymbol where
  nameBytes : List UInt8
  sectionIndex : Option UInt32
  address : UInt64

structure RelaPatchEntry where
  offset : UInt64
  addend : Int64

/-- One object: its symbols, if it can be parsed, and the entries for a
section (`rela_entries_for_section`), if it has section headers. -/
structure PatchInputBytes where
  symbols : Except String (List ObjectSymbol)
  relaEntries : Option (UInt32 → List RelaPatchEntry)

/-- The bytes of an input file: the object an input text refers to
(`patch_input_bytes`). -/
abbrev InputVersion := Text → Except String (Option PatchInputBytes)

structure SymbolPosition where
  sectionIndex : UInt32
  sectionOffset : UInt64
  deriving DecidableEq

/-- `symbol_position_by_name`: the first symbol of the name decides. -/
def symbolPositionByName (symbols : List ObjectSymbol) (encodedName : Text) :
    Except String (Option SymbolPosition) := do
  let name ← orError "Malformed incremental relocation target name" (hexDecode encodedName)
  match symbols.find? fun symbol => symbol.nameBytes = name with
  | none => pure none
  | some symbol =>
    pure (symbol.sectionIndex.map fun index => ⟨index, symbol.address⟩)

/-- The first entry for a section at an offset. -/
def PatchInputBytes.relaEntryAt (bytes : PatchInputBytes) (sectionIndex : UInt32)
    (offset : UInt64) : Option RelaPatchEntry := do
  let entries ← bytes.relaEntries
  (entries sectionIndex).find? fun entry => entry.offset = offset

/-- The kinds that the architecture of the link writes into instructions. -/
abbrev RelocationKinds := UInt32 → Option InstructionRelocation

def deferredInstructionRelocationPatch (kinds : RelocationKinds) (kind : UInt32)
    (previousWrittenValue writtenValue : UInt64) : Option DeferredRelocationPatch :=
  (kinds kind).map fun relInfo => ⟨relInfo, previousWrittenValue, writtenValue⟩

/-! ## One record -/

def addSignedDeltaU64 (value : UInt64) (delta : Int) : Option UInt64 :=
  let adjusted := (value.toNat : Int) + delta
  if 0 ≤ adjusted ∧ adjusted < 2 ^ 64 then some (UInt64.ofNat adjusted.toNat) else none

structure RelocationTargetSymbolPatch where
  targetName : Text
  previousTargetValue : UInt64
  targetValue : UInt64

/-- What a pass makes of one record. -/
structure PassedRecord where
  record : RelocationRecord
  outputPatch : Option SectionPatch
  outputSymbol : Option RelocationTargetSymbolPatch

/-- `continue` -/
def PassedRecord.unchanged (r : RelocationRecord) : PassedRecord := ⟨r, none, none⟩

/-- `display_hex_path`, for a path that is UTF-8. -/
def displayHexPath (path : Text) : String :=
  String.ofList (((hexDecode path).bind fromUtf8).getD [])

/-- The error texts name the input. -/
def errorIn (message : String) (path : Text) : String :=
  message ++ " in " ++ displayHexPath path

/-- The target of a record, if it lies in the input and has a name. -/
def RelocationRecord.targetIn (r : RelocationRecord) (path : Text) :
    Option (RelocationTargetRecord × Text) :=
  match r.target, r.targetName with
  | some target, some name => if target.inputFile = path then some (target, name) else none
  | _, _ => none

/-- Where a version of the input has the target. -/
def InputVersion.position (version : InputVersion) (target : RelocationTargetRecord)
    (name : Text) : Except String (Option SymbolPosition) := do
  match ← version target.input with
  | none => pure none
  | some bytes => symbolPositionByName (← bytes.symbols) name

/-- The data of a field that no instruction holds. -/
def relocationFieldBytes (path : Text) (size writtenValue : UInt64) :
    Except String (List UInt8) :=
  if size = 4 then
    if writtenValue.toNat < 2 ^ 32 then pure (leBytes writtenValue.toNat 4)
    else throw (errorIn "relocation target patch overflowed" path)
  else if size = 8 then pure (leBytes writtenValue.toNat 8)
  else throw (errorIn "unsupported relocation target patch size" path)

/-- The data of a target patch, a place holder where an instruction is completed later. -/
def targetPatchData (path : Text) (size writtenValue : UInt64)
    (deferred : Option DeferredRelocationPatch) : Except String (List UInt8) :=
  match deferred with
  | some _ => pure (List.replicate size.toNat 0)
  | none => relocationFieldBytes path size writtenValue

/-- The record and the patch of a target that has moved inside its section. -/
def moveTarget (kinds : RelocationKinds) (path : Text) (r : RelocationRecord)
    (target : RelocationTargetRecord) (name : Text) (current : SymbolPosition) :
    Except String PassedRecord := do
  let previousWrittenValue ← orError
    (errorIn "missing written relocation value for target" path) r.writtenValue
  let delta : Int := current.sectionOffset.toNat - target.sectionOffset.toNat
  let writtenValue ← orError (errorIn "relocation target patch overflowed" path)
    (addSignedDeltaU64 previousWrittenValue delta)
  let deferred := deferredInstructionRelocationPatch kinds r.kind previousWrittenValue writtenValue
  let data ← targetPatchData path r.size writtenValue deferred
  let targetValue ← orError (errorIn "relocation target value overflowed" path)
    (addSignedDeltaU64 r.targetValue delta)
  pure {
    record := { r with
      writtenValue := some writtenValue
      targetValue := targetValue
      target := some { target with sectionOffset := current.sectionOffset } }
    outputPatch := some ⟨r.outputOffset, r.size, data, deferred, [], []⟩
    outputSymbol := some ⟨name, r.targetValue, targetValue⟩ }

/-- One turn of the loop of `relocation_target_patches_for_input`. -/
def relocationTargetPatch (kinds : RelocationKinds) (path : Text) (version : InputVersion)
    (r : RelocationRecord) : Except String PassedRecord :=
  match r.targetIn path with
  | none => pure (.unchanged r)
  | some (target, name) => do
      match ← version.position target name with
      | none => pure (.unchanged r)
      | some current =>
        if current.sectionIndex = target.sectionIndex ∧
            current.sectionOffset = target.sectionOffset then pure (.unchanged r)
        else if current.sectionIndex ≠ target.sectionIndex then
          throw (errorIn "relocation target moved" path)
        else moveTarget kinds path r target name current

/-- The entry of the relocation in an object. -/
def RelocationRecord.entryIn (r : RelocationRecord) (bytes : PatchInputBytes) :
    Option RelaPatchEntry := bytes.relaEntryAt r.sectionIndex r.relocationOffset

/-- The object in the previous version of the input, if there is a snapshot of it. -/
def previousInputBytes (previousVersion : Option InputVersion) (input : Text) :
    Except String (Option PatchInputBytes) :=
  match previousVersion with
  | none => pure none
  | some previousVersion => previousVersion input

/-- The previous version of the object has the same addend. -/
def rawAddendUnchanged (previousBytes : Option PatchInputBytes) (r : RelocationRecord)
    (entry : RelaPatchEntry) : Bool :=
  (previousBytes.bind r.entryIn).any fun previousEntry => previousEntry.addend = entry.addend

/-- The record and the patch of a relocation whose addend has changed. -/
def moveAddend (path : Text) (r : RelocationRecord) (entry : RelaPatchEntry) :
    Except String PassedRecord := do
  let previousWrittenValue ← orError
    (errorIn "missing written relocation value for addend change" path) r.writtenValue
  if r.size ≠ 8 then
    throw (errorIn "unsupported relocation addend patch size" path)
  let delta : Int := entry.addend.toInt - r.addend.toInt
  let writtenValue ← orError (errorIn "relocation addend patch overflowed" path)
    (addSignedDeltaU64 previousWrittenValue delta)
  pure {
    record := { r with writtenValue := some writtenValue, addend := entry.addend }
    outputPatch := some
      ⟨r.outputOffset, r.size, leBytes writtenValue.toNat 8, none, [], []⟩
    outputSymbol := none }

/-- The dynamic relocation stands at the place of the relocation. -/
def DynamicRelocationRecord.StandsFor (d : DynamicRelocationRecord) (r : RelocationRecord) : Prop :=
  d.inputFile = r.inputFile ∧ d.input = r.input ∧ d.sectionIndex = r.sectionIndex ∧
    d.relocationOffset = r.relocationOffset

instance (d : DynamicRelocationRecord) (r : RelocationRecord) : Decidable (d.StandsFor r) :=
  inferInstanceAs (Decidable (_ ∧ _))

/-- The key of the relocation is among those of the dynamic relocations. -/
def RelocationRecord.IsDynamic (r : RelocationRecord)
    (dynamicRelocations : List DynamicRelocationRecord) : Prop :=
  ∃ d ∈ dynamicRelocations, d.StandsFor r

instance (r : RelocationRecord) (dynamicRelocations : List DynamicRelocationRecord) :
    Decidable (r.IsDynamic dynamicRelocations) := inferInstanceAs (Decidable (∃ _ ∈ _, _))

/-- One turn of the loop of `relocation_addend_patches_for_input`. -/
def relocationAddendPatch (path : Text) (version : InputVersion)
    (previousVersion : Option InputVersion) (dynamicRelocations : List DynamicRelocationRecord)
    (r : RelocationRecord) : Except String PassedRecord := do
  if r.inputFile ≠ path then pure (.unchanged r)
  else
    match ← version r.input with
    | none => pure (.unchanged r)
    | some bytes =>
      let previousBytes ← previousInputBytes previousVersion r.input
      match r.entryIn bytes with
      | none => pure (.unchanged r)
      | some entry =>
        if entry.addend = r.addend then pure (.unchanged r)
        else if rawAddendUnchanged previousBytes r entry then pure (.unchanged r)
        else if r.IsDynamic dynamicRelocations then
          pure (.unchanged { r with addend := entry.addend })
        else moveAddend path r entry

/-! ## The passes -/

def relocationTargetPatchesForInput (kinds : RelocationKinds)
    (relocations : List RelocationRecord) (path : Text) (version : InputVersion) :
    Except String (List PassedRecord) :=
  relocations.mapM (relocationTargetPatch kinds path version)

/-- `relocation_addend_patches_for_input`; the order of its patches, which own
disjoint ranges, does not matter. -/
def relocationAddendPatchesForInput (relocations : List RelocationRecord) (path : Text)
    (version : InputVersion) (previousVersion : Option InputVersion)
    (dynamicRelocations : List DynamicRelocationRecord) : Except String (List PassedRecord) :=
  relocations.mapM (relocationAddendPatch path version previousVersion dynamicRelocations)

/-! ## A changed-input patch -/

def DynamicRelocationRecord.hasRestorableRelaOutputInfo (d : DynamicRelocationRecord) : Bool :=
  d.size = 24 && d.outputROffset.isSome && d.outputRInfo.isSome

/-- A changed input: its new bytes, and what the other planners make of it,
patches of the output and edits of the other records. -/
structure ChangedInput where
  path : Text
  bytes : InputVersion
  snapshotReadable : Bool
  sectionPatches : List SectionPatch
  dynamicRelocationPatches : List SectionPatch
  ehFramePatches : List SectionPatch
  sectionsChanged : Bool
  addedDynamicRelocations : List DynamicRelocationRecord
  removedDynamicRelocations : List DynamicRelocationRecord
  fdesRemoved : Bool
  fdesUpdated : Bool

/-- The records a patch reads: none, those of the changed inputs, or all. -/
inductive RecordReading where
  | metadata
  | changedInputs
  | complete
  deriving DecidableEq

/-- What `patch_changed_inputs` is called with.  An input file is loaded once,
so it is listed once.  `outputPatches` are the patches that need the output:
symbol values, added FDEs, `.eh_frame_hdr`. -/
structure ChangedInputs where
  reading : RecordReading
  inputs : List ChangedInput
  paths_nodup : (inputs.map ChangedInput.path).Nodup
  outputPatches : List UInt8 → List RelocationTargetSymbolPatch →
    Except String (List SectionPatch)
  fdesAdded : Bool
  writeBuildId : List UInt8 → List UInt8

/-- An output, the records that describe it (as a read of all records returns
them), and the version of every input that it was last linked or patched from. -/
structure LinkedOutput where
  relocations : List RelocationRecord
  dynamicRelocations : List DynamicRelocationRecord
  output : List UInt8
  inputs : Text → InputVersion

/-- `previous` and the accumulators of the loop over the changed inputs. -/
structure PatchProgress where
  relocations : List RelocationRecord
  dynamicRelocations : List DynamicRelocationRecord
  sectionsFileCleared : Bool
  patches : List SectionPatch
  outputSymbols : List RelocationTargetSymbolPatch

/-- An edit of records that are not all there is refused. -/
def requireComplete (complete edited : Bool) (records : String) : Except String Unit :=
  if edited && !complete then throw s!"changed input needs complete {records} records" else pure ()

/-- The dynamic relocations after an input: the added ones, less the removed
ones that cannot be restored. -/
def ChangedInput.updateDynamicRelocations (c : ChangedInput)
    (dynamicRelocations : List DynamicRelocationRecord) : List DynamicRelocationRecord :=
  let added := if c.addedDynamicRelocations = [] then dynamicRelocations
    else sortDedup (dynamicRelocations ++ c.addedDynamicRelocations)
  added.filter fun d => d ∉ c.removedDynamicRelocations || d.hasRestorableRelaOutputInfo

/-- The input edits records other than relocations. -/
def ChangedInput.editsRecords (c : ChangedInput) : Bool :=
  c.sectionsChanged || !c.addedDynamicRelocations.isEmpty ||
    !c.removedDynamicRelocations.isEmpty || c.fdesRemoved || c.fdesUpdated

/-- What `read_verified_input_snapshot` returns. -/
def ChangedInput.previousSnapshot (c : ChangedInput) (previousInputs : Text → InputVersion) :
    Option InputVersion :=
  if c.snapshotReadable then some (previousInputs c.path) else none

/-- One turn of the loop of `patch_changed_inputs`. -/
def patchChangedInput (kinds : RelocationKinds) (complete : Bool)
    (previousInputs : Text → InputVersion) (s : PatchProgress) (c : ChangedInput) :
    Except String PatchProgress := do
  let targets ← relocationTargetPatchesForInput kinds s.relocations c.path c.bytes
  let addends ← relocationAddendPatchesForInput (targets.map PassedRecord.record) c.path c.bytes
    (c.previousSnapshot previousInputs) s.dynamicRelocations
  requireComplete complete c.sectionsChanged "section"
  requireComplete complete (!c.addedDynamicRelocations.isEmpty) "dynamic relocation"
  requireComplete complete (!c.removedDynamicRelocations.isEmpty) "dynamic relocation"
  requireComplete complete c.fdesRemoved "FDE"
  requireComplete complete c.fdesUpdated "FDE"
  pure {
    relocations := addends.map PassedRecord.record
    dynamicRelocations := c.updateDynamicRelocations s.dynamicRelocations
    sectionsFileCleared := s.sectionsFileCleared || c.editsRecords
    patches := s.patches ++ (c.sectionPatches ++ c.dynamicRelocationPatches ++
      addends.filterMap PassedRecord.outputPatch ++ targets.filterMap PassedRecord.outputPatch ++
      c.ehFramePatches)
    outputSymbols := s.outputSymbols ++ targets.filterMap PassedRecord.outputSymbol }

/-- The inputs with the new bytes of the changed ones. -/
def recordChanged (changed : List ChangedInput) (inputs : Text → InputVersion) :
    Text → InputVersion :=
  changed.foldl (fun inputs c => Function.update inputs c.path c.bytes) inputs

/-- The patch is refused for its ranges. -/
def refuseOverlaps (patches : List SectionPatch) : Except String Unit :=
  match patchOutputRangeRejectionReason patches with
  | none => pure ()
  | some reason => throw reason

namespace LinkedOutput

variable (s : LinkedOutput)

/-- The relocation records a patch starts from. -/
def readRelocations (p : ChangedInputs) : List RelocationRecord :=
  match p.reading with
  | .metadata => []
  | .changedInputs => s.relocations.filter (CompactRecords.touches (p.inputs.map ChangedInput.path))
  | .complete => s.relocations

/-- The dynamic relocation records a patch starts from. -/
def readDynamicRelocations (p : ChangedInputs) : List DynamicRelocationRecord :=
  match p.reading with
  | .metadata => []
  | .changedInputs => s.dynamicRelocations.filter fun d =>
    d.inputFile ∈ p.inputs.map ChangedInput.path
  | .complete => s.dynamicRelocations

/-- The loop of `patch_changed_inputs` over the changed inputs. -/
def patchInputs (kinds : RelocationKinds) (p : ChangedInputs) : Except String PatchProgress :=
  p.inputs.foldlM (patchChangedInput kinds (p.reading = .complete) s.inputs)
    ⟨s.readRelocations p, s.readDynamicRelocations p, false, [], []⟩

/-- The inputs once the changed ones are recorded. -/
def recordInputs (p : ChangedInputs) : Text → InputVersion := recordChanged p.inputs s.inputs

/-- What is read back: the records in memory if they were written, else the
records that were there. -/
def persist (p : ChangedInputs) (progress : PatchProgress) (output : List UInt8) : LinkedOutput :=
  let written := progress.sectionsFileCleared || p.fdesAdded
  { relocations := if written then sortDedup progress.relocations else s.relocations
    dynamicRelocations :=
      if written then sortDedup progress.dynamicRelocations else s.dynamicRelocations
    output := output
    inputs := s.recordInputs p }

/-- `patch_changed_inputs`: the state in memory at its end, and the output with
the records that the next link reads. -/
def patchChangedInputs (kinds : RelocationKinds) (p : ChangedInputs) :
    Except String (PatchProgress × LinkedOutput) := do
  let progress ← s.patchInputs kinds p
  refuseOverlaps progress.patches
  let outputPatches ← p.outputPatches s.output progress.outputSymbols
  requireComplete (p.reading = .complete) p.fdesAdded "FDE"
  let patches := progress.patches ++ outputPatches
  refuseOverlaps patches
  let output ← applyPatches patches s.output
  pure (progress, s.persist p progress (p.writeBuildId output))

end LinkedOutput

end Sld.Incremental
