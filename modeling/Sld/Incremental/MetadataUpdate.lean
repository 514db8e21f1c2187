/-
# `Incremental.MetadataUpdate` — reading and writing the state directory

The state of a link is spread over a directory: the index, the record file
it names, and perhaps a *metadata update*.  The update is what a
changed-input patch writes instead of a whole new index.  It has a link
start, an output, a build-id hash, and the lines of some inputs, by their
number in the index:

    sld-incremental-metadata-update-v1
    link-start  output  build-id-hash
    inputs  N            then N lines  input  number  path  len  hash …

Reading the state means parsing the index and then applying the update.
An index that is written removes the update; an update that is installed
takes the place of the one before it.
-/
import Sld.Incremental.Index

namespace Sld.Incremental

open Text
open Text.Reader (expect next finish orError parseNumeral readAll)

/-- The files of a state directory that hold the persisted state. -/
structure StateDir where
  index : Option Text
  metadataUpdate : Option Text
  records : RecordFiles

def metadataUpdateVersion : Text := "sld-incremental-metadata-update-v1".toList

/-! ## The update -/

def metadataUpdateIndicesForInputs (changedInputs rewrittenInputs : List (Nat × FileState)) :
    List Nat :=
  sortDedup ((changedInputs ++ rewrittenInputs).map (·.1))

/-- One line of the update; an index past the inputs panics. -/
def renderUpdatedInput (s : PersistedState) (index : Nat) : Except String Text :=
  match s.inputFiles[index]? with
  | none => throw "index out of bounds"
  | some input => pure (labelled "input" [Numeral.render index, renderInputLineRest input])

def renderMetadataUpdate (s : PersistedState) (inputIndices : List Nat) : Except String Text := do
  let inputIndices := sortDedup inputIndices
  let inputs ← inputIndices.mapM (renderUpdatedInput s)
  pure (unlines ([metadataUpdateVersion, renderLinkStart s, renderOutput s, renderBuildId s,
    renderCount "inputs" inputIndices.length] ++ inputs))

/-- One line of the update, put in the place of the input it numbers. -/
def applyUpdatedInput (mode : PatchSectionReadMode) (inputFiles : List FileState)
    (line : Option Text) : Except String (List FileState) := do
  let rest ← parsePrefixedLine line "input"
  let (index, inputLine) ← orError "Malformed incremental metadata update input"
    (splitOnce '\t' rest)
  let index : Nat ← parseNumeral "Invalid incremental metadata update input index" index
  if inputFiles.length ≤ index then
    throw "Incremental metadata update input index out of bounds"
  let input ← parseInputLine mode (labelled "input" [inputLine])
  pure (inputFiles.set index input)

/-- `for _ in 0..input_count` over the lines of the update. -/
def applyUpdatedInputs (mode : PatchSectionReadMode) :
    Nat → List FileState → Reader (List FileState)
  | 0, inputFiles => pure inputFiles
  | count + 1, inputFiles => do
      let inputFiles ← applyUpdatedInput mode inputFiles (← next)
      applyUpdatedInputs mode count inputFiles

/-- The reader of `apply_metadata_update`. -/
def parseMetadataUpdate (mode : PatchSectionReadMode) (s : PersistedState) :
    Reader PersistedState := do
  let version ← expect "Missing incremental metadata update header"
  if version ≠ metadataUpdateVersion then
    throw s!"Unsupported incremental metadata update version `{String.ofList version}`"
  let linkStart ← parseLinkStartLine (← next)
  let output ← parseContentLine (← next) "output"
  let buildIdHashes ← parseBuildIdHashLine (← next)
  let inputCount ← parseCount "inputs" "Invalid incremental metadata update input count" (← next)
  let inputFiles ← applyUpdatedInputs mode inputCount s.inputFiles
  finish "Unexpected trailing incremental metadata update data"
  pure { s with
    linkStart := linkStart
    output := output
    buildIdHashes := buildIdHashes
    inputFiles := inputFiles }

def applyMetadataUpdate (mode : PatchSectionReadMode) (s : PersistedState) (contents : Text) :
    Except String PersistedState :=
  readAll (parseMetadataUpdate mode s) (lines contents)

/-! ## Reading the directory -/

def sectionSidecarFileName (c : Codec) (contents : Text) : Text :=
  sectionsFilePrefix ++ c.hashBytes (utf8 contents)

def compressedSectionSidecarFileName (c : Codec) (bytes : List UInt8) : Text :=
  compressedSectionsFilePrefix ++ c.hashBytes bytes

/-- `read_sections_sidecar`: the text of a record file that is not read by locations. -/
def readSectionsSidecar (c : Codec) (dir : RecordFiles) (fileName : Text) : Except String Text := do
  validateSectionsFileName fileName
  let path := s!"{dir.path}/{String.ofList fileName}"
  if startsWith fileName compressedSectionsFilePrefix then
    let bytes ← orError s!"Failed to read compressed incremental sections `{path}`"
      (dir.contents fileName)
    if fileName ≠ compressedSectionSidecarFileName c bytes then
      throw s!"Incremental sections `{path}` do not match their content hash"
    let contents ← (c.decodeAll bytes).mapError fun _ =>
      s!"Failed to decompress incremental sections `{path}`"
    orError "Invalid UTF-8 in compressed incremental sections" (fromUtf8 contents)
  else
    let contents ← orError s!"Failed to read incremental sections `{path}`"
      ((dir.contents fileName).bind fromUtf8)
    if startsWith fileName sectionsFilePrefix ∧ fileName ≠ sectionSidecarFileName c contents then
      throw s!"Incremental sections `{path}` do not match their content hash"
    pure contents

/-- The loader `read_impl` hands to the parser of the index. -/
def sectionLoader (c : Codec) (dir : StateDir) (loadSections : Bool) (file : Text) :
    Except String (Option Text) :=
  if loadSections then some <$> readSectionsSidecar c dir.records file else pure none

/-- The records of an index that names one file for everything. -/
def loadIndexedRecords (c : Codec) (dir : StateDir) (loadSections : Bool) (s : PersistedState) :
    Except String PersistedState :=
  if loadSections ∧ s.sectionsFile = s.patchRecordsFile ∧ s.patchRecordsFile ≠ none then do
    let records ← readAllIndexedRecords c dir.records s.patchRecordsFile s.patchRecordLocations
    pure { s with records }
  else pure s

def readImpl (c : Codec) (dir : StateDir) (loadSections : Bool) (mode : PatchSectionReadMode)
    (parseLocations : Bool) : Except String (Option PersistedState) :=
  match dir.index with
  | none => pure none
  | some contents => do
      let s ← parseIndex mode parseLocations (sectionLoader c dir loadSections) contents
      let s ← loadIndexedRecords c dir loadSections s
      match dir.metadataUpdate with
      | none => pure (some s)
      | some update => some <$> applyMetadataUpdate mode s update

def StateDir.read (c : Codec) (dir : StateDir) : Except String (Option PersistedState) :=
  readImpl c dir true .parse true

def StateDir.readMetadata (c : Codec) (dir : StateDir) : Except String (Option PersistedState) :=
  readImpl c dir false .preserveRaw false

/-! ## Writing the directory -/

def writeIndexWithSectionsFiles (s : PersistedState) (dir : StateDir) (places : RecordPlaces) :
    StateDir :=
  { dir with index := some (renderIndex s places), metadataUpdate := none }

/-- `write`: a new record file and a new index. -/
def PersistedState.write (c : Codec) (s : PersistedState) (dir : StateDir) :
    Except String StateDir := do
  let (records, file, locations) ← writeIndexedRecordsStreaming c dir.records s.records
  pure (writeIndexWithSectionsFiles s { dir with records } (.indexed file locations))

def PersistedState.writeMetadataUpdateForInputs (c : Codec) (s : PersistedState) (dir : StateDir)
    (inputIndices : List Nat) : Except String StateDir :=
  if s.sectionsFile.isNone then s.write c dir
  else do
    let update ← renderMetadataUpdate s inputIndices
    pure { dir with metadataUpdate := some update }

/-! ## What a changed-input patch persists -/

/-- The state a patch starts from: the metadata, the whole state, or the
whole state under the inputs of the metadata. -/
inductive PatchReading where
  | metadata
  | full
  | fullUnderMetadata

def StateDir.readForPatch (c : Codec) (dir : StateDir) :
    PatchReading → Except String (Option PersistedState)
  | .metadata => dir.readMetadata c
  | .full => dir.read c
  | .fullUnderMetadata => do
      match ← dir.readMetadata c with
      | none => pure none
      | some previous => do
          match ← dir.read c with
          | none => pure (some previous)
          | some full => pure (some { full with inputFiles := previous.inputFiles })

/-- The edits of some inputs, each at its index; an index past the inputs is skipped. -/
def setInputs (inputFiles : List FileState) (edits : List (Nat × FileState)) : List FileState :=
  edits.foldl (fun files edit => files.set edit.1 edit.2) inputFiles

/-- What a successful patch has found out by the time it persists its state:
the inputs it rewrote or found changed, as they are now, and the records it
ends with.  It clears `sections_file` when it edited records it must save. -/
structure ChangedInputPatch where
  reading : PatchReading
  changedInputs : List (Nat × FileState)
  rewrittenInputs : List (Nat × FileState)
  linkStart : Option FileIdentity
  output : FileContentState
  buildIdHashes : Option BuildIdHashState
  records : CompactRecords
  clearSectionsFile : Bool

namespace ChangedInputPatch

variable (p : ChangedInputPatch)

def inputIndices : List Nat := metadataUpdateIndicesForInputs p.changedInputs p.rewrittenInputs

/-- The inputs as the patch leaves them: rewritten ones refreshed, changed ones recorded. -/
def recordInputs (inputFiles : List FileState) : List FileState :=
  setInputs (setInputs inputFiles p.rewrittenInputs) p.changedInputs

/-- The `PersistedState` at the end of `patch_changed_inputs`. -/
def record (previous : PersistedState) : PersistedState :=
  { previous with
    linkStart := p.linkStart
    output := p.output
    buildIdHashes := p.buildIdHashes
    inputFiles := p.recordInputs previous.inputFiles
    records := p.records
    sectionsFile := if p.clearSectionsFile then none else previous.sectionsFile }

/-- A successful patch on the state directory. -/
def persist (c : Codec) (dir : StateDir) : Except String StateDir := do
  match ← dir.readForPatch c p.reading with
  | none => throw "missing incremental state"
  | some previous =>
    (p.record previous).writeMetadataUpdateForInputs c dir p.inputIndices

end ChangedInputPatch

end Sld.Incremental
