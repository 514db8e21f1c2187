/-
# `Incremental.Index` — the persisted state and the text of its index

The index is the part of the persisted state that every link reads: what
was linked (hashes of the options, the inputs with their identities), what
came out (the output's identity, the build-id hash), and where the records
are.  One line a fact, in this order:

    sld-incremental-state-v32
    args  link-options  input-order  sld-version  link-start
    output  build-id-hash
    inputs  N            then N lines  input  path  len  hash  identity …
    indexed-sections-file  F      then the table of locations
      or  sections-file  F        and perhaps  patch-records-file  P, table

An input line may carry the *patch sections*: the places of its sections
that a later link may overwrite in the output.  A reader that only wants
the metadata keeps that field and the table of locations as raw text
(`preserveRaw`, deferred locations) and writes them back unread.

Older versions leave out some lines or keep the records in the index
itself; the reader accepts all of them, the writer writes version 32.
-/
import Sld.Incremental.Sidecar

namespace Sld.Incremental

open Text
open Text.Reader (expect next peek finish orError numeral parseNumeral times readAll)

/-! ## The state -/

structure FileIdentity where
  len : UInt64
  dev : UInt64
  ino : UInt64
  modifiedSec : Int64
  modifiedNsec : Int64
  changedSec : Int64
  changedNsec : Int64
  deriving DecidableEq

structure FileContentState where
  len : UInt64
  hash : Text
  identity : Option FileIdentity
  deriving DecidableEq

/-- `PartialEq for FileContentState`: by hash when both are known, else by identity. -/
def FileContentState.same (a b : FileContentState) : Bool :=
  if a.len ≠ b.len then false
  else if a.hash ≠ [] ∧ b.hash ≠ [] then a.hash = b.hash
  else a.identity.isSome && a.identity = b.identity

structure BuildIdHashState where
  outputLen : UInt64
  nodes : Nat
  treeHash : Option Text

structure FilePatchSectionState where
  input : Text
  sectionIndex : UInt32
  sectionName : Option Text
  inputSize : UInt64
  outputOffset : UInt64
  outputSize : UInt64
  dataHash : Option Text
  deriving DecidableEq

structure FilePatchState where
  fingerprint : Text
  sections : List FilePatchSectionState
  rawSections : Option Text
  deriving DecidableEq

structure FileState where
  path : Text
  content : FileContentState
  snapshotIdentity : Option FileIdentity
  patch : Option FilePatchState
  deriving DecidableEq

structure PersistedState where
  argsHash : Text
  linkOptionsHash : Option Text
  inputOrderHash : Option Text
  sldVersion : Option Text
  linkStart : Option FileIdentity
  output : FileContentState
  buildIdHashes : Option BuildIdHashState
  inputFiles : List FileState
  records : CompactRecords
  sectionsFile : Option Text
  patchRecordsFile : Option Text
  patchRecordLocations : List PatchRecordLocation
  rawPatchRecordLocations : Option Text

inductive PatchSectionReadMode where
  | parse
  | preserveRaw

/-! ## Identities and contents -/

/-- `{ident}` or `-`. -/
def renderPresent {α : Type} (render : α → Text) (o : Option α) : Text :=
  (o.map render).getD absentField

def FileIdentity.render (i : FileIdentity) : Text :=
  join ':' [Numeral.render i.len, Numeral.render i.dev, Numeral.render i.ino,
    Numeral.render i.modifiedSec, Numeral.render i.modifiedNsec,
    Numeral.render i.changedSec, Numeral.render i.changedNsec]

def FileIdentity.parse (value : Text) : Except String (Option FileIdentity) :=
  if value = absentField then pure none
  else readAll (do
    let len ← numeral "Malformed incremental file identity `len`"
      "Invalid incremental file identity length"
    let dev ← numeral "Malformed incremental file identity `dev`"
      "Invalid incremental file identity device"
    let ino ← numeral "Malformed incremental file identity `ino`"
      "Invalid incremental file identity inode"
    let modifiedSec ← numeral "Malformed incremental file identity `mtime`"
      "Invalid incremental file identity mtime"
    let modifiedNsec ← numeral "Malformed incremental file identity `mtime_nsec`"
      "Invalid incremental file identity mtime_nsec"
    let changedSec ← numeral "Malformed incremental file identity `ctime`"
      "Invalid incremental file identity ctime"
    let changedNsec ← numeral "Malformed incremental file identity `ctime_nsec`"
      "Invalid incremental file identity ctime_nsec"
    finish "Malformed incremental file identity"
    pure (some {
      len, dev, ino, modifiedSec, modifiedNsec, changedSec,
      changedNsec := changedNsec })) (split ':' value)

/-- `parts.next().map(FileIdentity::parse).transpose()?.flatten()` -/
def identityField : Reader (Option FileIdentity) := do
  match ← next with
  | none => pure none
  | some value => FileIdentity.parse value

def parseLinkStartLine (line : Option Text) : Except String (Option FileIdentity) := do
  FileIdentity.parse (← parsePrefixedLine line "link-start")

def parseContentLine (line : Option Text) (expectedPrefix : String) :
    Except String FileContentState := do
  let rest ← parsePrefixedLine line expectedPrefix
  readAll (do
    let len ← expect "Malformed incremental content length"
    let hash ← expect "Malformed incremental content hash"
    let identity ← identityField
    finish "Malformed incremental content record"
    let len ← parseNumeral "Invalid incremental content length" len
    pure { len, hash, identity }) (split '\t' rest)

def renderBuildIdHashState (state : BuildIdHashState) : Text :=
  join '\t' [Numeral.render state.outputLen, Numeral.render state.nodes,
    state.treeHash.getD absentField]

def parseBuildIdHashLine (line : Option Text) : Except String (Option BuildIdHashState) := do
  let rest ← parsePrefixedLine line "build-id-hash"
  if rest = absentField then pure none
  else readAll (do
    let outputLen ← numeral "Malformed incremental build ID hash output length"
      "Invalid incremental build ID hash output length"
    let nodes ← numeral "Malformed incremental build ID hash node count"
      "Invalid incremental build ID hash node count"
    let treeHash := (← next).bind presentText
    finish "Malformed incremental build ID hash record"
    if nodes = 0 then throw "Missing incremental build ID hash nodes"
    pure (some { outputLen, nodes, treeHash })) (split '\t' rest)

/-! ## Patch sections -/

def renderPatchSection (s : FilePatchSectionState) : Text :=
  join ':' [s.input, Numeral.render s.sectionIndex, Numeral.render s.inputSize,
    Numeral.render s.outputOffset, Numeral.render s.outputSize,
    renderPresent (fun name => hexEncode (utf8 name)) s.sectionName,
    s.dataHash.getD absentField]

def renderPatchSections (patch : FilePatchState) : Text :=
  match patch.sections, patch.rawSections with
  | [], some raw => raw
  | sections, _ => join ',' (sections.map renderPatchSection)

def parseSectionName (name : Text) : Except String (Option Text) :=
  if name = absentField then pure none
  else do
    let bytes ← orError "Malformed incremental patch section name" (hexDecode name)
    let name ← orError "Invalid incremental patch section name" (fromUtf8 bytes)
    pure (some name)

/-- One section from its index, its three numbers, and its name when there is one. -/
def parsePatchSection (input : Text) (dataHash : Option Text) (index inputSize outputOffset
    outputSize : Text) (name : Option Text) : Except String FilePatchSectionState := do
  let sectionName ← match name with
    | none => pure none
    | some name => parseSectionName name
  let sectionIndex ← parseNumeral "Invalid incremental patch section index" index
  let inputSize ← parseNumeral "Invalid incremental patch section input size" inputSize
  let outputOffset ← parseNumeral "Invalid incremental patch section output offset" outputOffset
  let outputSize ← parseNumeral "Invalid incremental patch section output size" outputSize
  pure { input, sectionIndex, sectionName, inputSize, outputOffset, outputSize, dataHash }

/-- A part by its number of fields; `none` is the early return with an empty list. -/
def parsePatchSectionParts (defaultInput : Text) :
    List Text → Except String (Option FilePatchSectionState)
  | [index, inputSize, outputOffset, outputSize] =>
    some <$> parsePatchSection defaultInput none index inputSize outputOffset outputSize none
  | [index, inputSize, outputOffset, outputSize, name] =>
    some <$> parsePatchSection defaultInput none index inputSize outputOffset outputSize
      (some name)
  | [input, index, inputSize, outputOffset, outputSize, name] =>
    some <$> parsePatchSection input none index inputSize outputOffset outputSize (some name)
  | [input, index, inputSize, outputOffset, outputSize, name, dataHash] =>
    some <$> parsePatchSection input (presentText dataHash) index inputSize outputOffset
      outputSize (some name)
  | _ => pure none

/-- `for section in sections.split(',')`, with what has been parsed so far. -/
def parsePatchSectionList (defaultInput : Text) (parsed : List FilePatchSectionState) :
    List Text → Except String (List FilePatchSectionState)
  | [] => pure parsed
  | part :: parts => do
      match ← parsePatchSectionParts defaultInput (split ':' part) with
      | none => pure []
      | some s => parsePatchSectionList defaultInput (parsed ++ [s]) parts

def parsePatchSections (defaultInput sections : Text) :
    Except String (List FilePatchSectionState) :=
  if sections = [] then pure []
  else parsePatchSectionList defaultInput [] (split ',' sections)

/-! ## Inputs -/

/-- `render_input_line_rest` -/
def inputLineFields (input : FileState) : List Text :=
  [input.path, Numeral.render input.content.len, input.content.hash,
    renderPresent FileIdentity.render input.content.identity,
    renderPresent FilePatchState.fingerprint input.patch,
    renderPresent renderPatchSections input.patch,
    renderPresent FileIdentity.render input.snapshotIdentity]

def renderInputLineRest (input : FileState) : Text := join '\t' (inputLineFields input)

/-- The patch state of an input line, from its fingerprint and its sections field. -/
def parsePatchState (mode : PatchSectionReadMode) (path : Text) :
    Option Text → Option Text → Except String (Option FilePatchState)
  | some fingerprint, some rawSections =>
    match mode with
    | .parse => do
        let sections ← parsePatchSections path rawSections
        pure (some { fingerprint, sections, rawSections := none })
    | .preserveRaw => pure (some { fingerprint, sections := [], rawSections := some rawSections })
  | _, _ => pure none

def parseInputLine (mode : PatchSectionReadMode) (line : Text) : Except String FileState := do
  let rest ← parsePrefixedLine (some line) "input"
  readAll (do
    let path ← expect "Malformed incremental input path"
    let len ← numeral "Malformed incremental input length" "Invalid incremental input length"
    let hash ← expect "Malformed incremental input hash"
    let identity ← identityField
    let fingerprint := (← next).bind presentText
    let sections := (← next).bind presentText
    let snapshotIdentity ← identityField
    let patch ← parsePatchState mode path fingerprint sections
    finish "Malformed incremental input record"
    pure { path, content := { len, hash, identity }, snapshotIdentity, patch }) (split '\t' rest)

/-! ## Locations -/

def renderPatchRecordLocation (l : PatchRecordLocation) : Text :=
  labelled "patch-record" [l.inputFile, Numeral.render l.offset, Numeral.render l.len, l.hash]

def renderPatchRecordLocationTable (locations : List PatchRecordLocation) :
    Option Text → Text
  | some raw => raw
  | none => unlines (renderCount "patch-records" locations.length ::
      locations.map renderPatchRecordLocation)

def parsePatchRecordLocationLine (line : Option Text) : Except String PatchRecordLocation := do
  let rest ← parsePrefixedLine line "patch-record"
  readAll (do
    let inputFile ← expect "Malformed incremental patch record input"
    let offset ← numeral "Malformed incremental patch record offset"
      "Invalid incremental patch record offset"
    let len ← numeral "Malformed incremental patch record length"
      "Invalid incremental patch record length"
    let hash ← expect "Malformed incremental patch record hash"
    finish "Malformed incremental patch record location"
    pure { inputFile, offset, len, hash }) (split '\t' rest)

/-- `parse_patch_record_location_table`: the locations, or the raw lines. -/
def parsePatchRecordLocationTable (parseLocations : Bool) :
    Reader (List PatchRecordLocation × Option Text) := do
  let countLine ← expect "Missing incremental patch record location count"
  let count ← parseCount "patch-records" "Invalid incremental patch record location count"
    (some countLine)
  if parseLocations then
    let locations ← times (do parsePatchRecordLocationLine (← next)) count
    pure (locations, none)
  else
    let lines ← times (expect "Missing incremental patch record location") count
    pure ([], some (unlines (countLine :: lines)))

/-! ## Writing the index -/

/-- `STATE_VERSION_V1` to `STATE_VERSION`. -/
def stateVersion (n : Nat) : Text := "sld-incremental-state-v".toList ++ decimal n

/-- `STATE_VERSION` -/
def currentVersion : Nat := 32

def optionalLine (label : String) (value : Option Text) : List Text :=
  (value.map fun v => labelled label [v]).toList

def renderLinkStart (s : PersistedState) : Text :=
  labelled "link-start" [renderPresent FileIdentity.render s.linkStart]

def renderOutput (s : PersistedState) : Text :=
  labelled "output" [Numeral.render s.output.len, s.output.hash,
    renderPresent FileIdentity.render s.output.identity]

def renderBuildId (s : PersistedState) : Text :=
  labelled "build-id-hash" [renderPresent renderBuildIdHashState s.buildIdHashes]

def renderHeaderAndInputs (s : PersistedState) : List Text :=
  [stateVersion currentVersion, labelled "args" [s.argsHash]] ++
    optionalLine "link-options" s.linkOptionsHash ++
    optionalLine "input-order" s.inputOrderHash ++
    optionalLine "sld-version" s.sldVersion ++
    [renderLinkStart s, renderOutput s, renderBuildId s] ++
    renderCount "inputs" s.inputFiles.length ::
      s.inputFiles.map fun input => labelled "input" (inputLineFields input)

/-- Where the records are, as `render_index` is told. -/
structure RecordPlaces where
  sectionsFile : Text
  patchRecordsFile : Option Text
  locations : List PatchRecordLocation
  rawLocations : Option Text

def renderIndex (s : PersistedState) (places : RecordPlaces) : Text :=
  unlines (renderHeaderAndInputs s) ++
    (if places.patchRecordsFile = some places.sectionsFile then
      unlines [labelled "indexed-sections-file" [places.sectionsFile]] ++
        renderPatchRecordLocationTable places.locations places.rawLocations
    else unlines [labelled "sections-file" [places.sectionsFile]]) ++
    (match places.patchRecordsFile with
    | none => []
    | some file =>
      if file ≠ places.sectionsFile then
        unlines [labelled "patch-records-file" [file]] ++
          renderPatchRecordLocationTable places.locations places.rawLocations
      else [])

/-- The places `write_index` renders: those of the state itself. -/
def PersistedState.places (s : PersistedState) : RecordPlaces where
  sectionsFile := s.sectionsFile.getD Incremental.sectionsFile
  patchRecordsFile := s.patchRecordsFile
  locations := s.patchRecordLocations
  rawLocations := s.rawPatchRecordLocations

/-- The places `write` renders after it wrote an indexed record file. -/
def RecordPlaces.indexed (file : Text) (locations : List PatchRecordLocation) : RecordPlaces where
  sectionsFile := file
  patchRecordsFile := some file
  locations := locations
  rawLocations := none

/-! ## Reading the index -/

/-- The number of a supported version. -/
def versionNumber (version : Text) : Option Nat :=
  (List.range' 1 currentVersion).find? fun n => stateVersion n = version

/-- `lines.peek().is_some_and(|line| line.starts_with("label\t"))` -/
def peekLabel (label : String) : Reader Bool := do
  let line ← peek
  pure (line.any fun line => startsWith line (label.toList ++ ['\t']))

/-- A line that is recognised by peeking at its label. -/
def peekedLine (label : String) : Reader (Option Text) := do
  if ← peekLabel label then
    let rest ← parsePrefixedLine (← next) label
    pure (some rest)
  else pure none

/-- `parse_section_line` of versions 2 to 4. -/
def parseSectionLine (line : Text) : Except String SectionRecord := do
  let rest ← parsePrefixedLine (some line) "section"
  readAll (do
    let inputFile ← expect "Malformed incremental section input file"
    let input ← expect "Malformed incremental section input"
    let sectionIndex ← numeral "Malformed incremental section index"
      "Invalid incremental section index"
    let outputOffset ← numeral "Malformed incremental section output offset"
      "Invalid incremental section output offset"
    let size ← numeral "Malformed incremental section size" "Invalid incremental section size"
    finish "Malformed incremental section record"
    pure { inputFile, input, sectionIndex, outputOffset, size }) (split '\t' rest)

/-- What the tail of the index says about the records. -/
structure IndexTail where
  records : CompactRecords
  sectionsFile : Option Text
  patchRecordsFile : Option Text
  patchRecordLocations : List PatchRecordLocation
  rawPatchRecordLocations : Option Text

/-- The records of a loaded record file, none when the loader gives none. -/
def parseLoadedSections (loadSections : Text → Except String (Option Text)) (file : Text) :
    Except String CompactRecords := do
  match ← loadSections file with
  | none => pure default
  | some contents => readAll parseCompactRecordsBlock (lines contents)

/-- The records are in an indexed file, from version 30 on. -/
def parseIndexedTail (version : Nat) (parseLocations : Bool) (firstLine : Text) :
    Reader IndexTail := do
  if version < 30 then
    throw <| "Indexed incremental sections require incremental state version " ++
      "`sld-incremental-state-v32`, `sld-incremental-state-v31`, or `sld-incremental-state-v30`"
  let file ← parsePrefixedLine (some firstLine) "indexed-sections-file"
  validateSectionsFileName file
  let (locations, raw) ← parsePatchRecordLocationTable parseLocations
  pure {
    records := default, sectionsFile := some file, patchRecordsFile := some file,
    patchRecordLocations := locations, rawPatchRecordLocations := raw }

/-- The table of an older patch-record file, when there is one. -/
def parseOptionalTable (parseLocations : Bool) :
    Reader (List PatchRecordLocation × Option Text) := do
  if ← peekLabel "patch-records" then parsePatchRecordLocationTable parseLocations
  else pure ([], none)

/-- The records are in a file read as a whole, perhaps with a patch-record file beside it. -/
def parseSectionsFileTail (parseLocations : Bool)
    (loadSections : Text → Except String (Option Text)) (firstLine : Text) :
    Reader IndexTail := do
  let file ← parsePrefixedLine (some firstLine) "sections-file"
  validateSectionsFileName file
  let records ← parseLoadedSections loadSections file
  match ← peekedLine "patch-records-file" with
  | none =>
    pure {
      records, sectionsFile := some file, patchRecordsFile := none,
      patchRecordLocations := [], rawPatchRecordLocations := none }
  | some patchRecordsFile =>
    validateSectionsFileName patchRecordsFile
    let (locations, raw) ← parseOptionalTable parseLocations
    pure {
      records, sectionsFile := some file, patchRecordsFile := some patchRecordsFile,
      patchRecordLocations := locations, rawPatchRecordLocations := raw }

/-- The records are in the index itself. -/
def parseInlineTail (firstLine : Text) : Reader IndexTail := do
  modify (firstLine :: ·)
  let records ← parseCompactRecordsBlock
  pure {
    records, sectionsFile := none, patchRecordsFile := none, patchRecordLocations := [],
    rawPatchRecordLocations := none }

/-- The tail of an index of version 5 or later, from the line after the inputs. -/
def parseIndexTail (version : Nat) (parseLocations : Bool)
    (loadSections : Text → Except String (Option Text)) : Reader IndexTail := do
  let firstLine ← expect "Missing incremental section input count"
  if startsWith firstLine "indexed-sections-file\t".toList then
    parseIndexedTail version parseLocations firstLine
  else if startsWith firstLine "sections-file\t".toList then
    parseSectionsFileTail parseLocations loadSections firstLine
  else parseInlineTail firstLine

/-- The tail of an index of version 4 or earlier. -/
def parseOldTail (version : Nat) : Reader IndexTail := do
  let sections ←
    if 2 ≤ version then do
      let count ← parseCount "sections" "Invalid incremental section count" (← next)
      times (do parseSectionLine (← expect "Missing incremental section record")) count
    else pure []
  pure {
    records := { (default : CompactRecords) with sections }, sectionsFile := none,
    patchRecordsFile := none, patchRecordLocations := [], rawPatchRecordLocations := none }

/-- A header line that only older versions may leave out. -/
def headerLine (version : Nat) (label : String) (missing : String) : Reader (Option Text) := do
  let value ← peekedLine label
  if version = currentVersion ∧ value = none then throw missing
  pure value

/-- The `link-start` line, when there is one. -/
def peekedLinkStart : Reader (Option FileIdentity) := do
  if ← peekLabel "link-start" then parseLinkStartLine (← next) else pure none

/-- The `build-id-hash` line, when there is one. -/
def peekedBuildIdHash : Reader (Option BuildIdHashState) := do
  if ← peekLabel "build-id-hash" then parseBuildIdHashLine (← next) else pure none

def parseWithSectionLoader (mode : PatchSectionReadMode) (parseLocations : Bool)
    (loadSections : Text → Except String (Option Text)) : Reader PersistedState := do
  let versionLine ← expect "Missing incremental state header"
  let version ← orError
    s!"Unsupported incremental state version `{String.ofList versionLine}`"
    (versionNumber versionLine)
  let argsHash ← parsePrefixedLine (← next) "args"
  let linkOptionsHash ← headerLine version "link-options"
    "Missing incremental link-options hash in incremental state"
  let inputOrderHash ← headerLine version "input-order"
    "Missing incremental input-order hash in incremental state"
  let sldVersion ← headerLine version "sld-version" "Missing sld version in incremental state"
  let linkStart ← peekedLinkStart
  let output ← parseContentLine (← next) "output"
  let buildIdHashes ← peekedBuildIdHash
  let inputCount ← parseCount "inputs" "Invalid incremental input count" (← next)
  let inputFiles ← times (do
    parseInputLine mode (← expect "Missing incremental input record")) inputCount
  let tail ← if 5 ≤ version then parseIndexTail version parseLocations loadSections
    else parseOldTail version
  finish "Unexpected trailing incremental state data"
  pure {
    argsHash, linkOptionsHash, inputOrderHash, sldVersion, linkStart, output, buildIdHashes,
    inputFiles, records := tail.records, sectionsFile := tail.sectionsFile,
    patchRecordsFile := tail.patchRecordsFile,
    patchRecordLocations := tail.patchRecordLocations,
    rawPatchRecordLocations := tail.rawPatchRecordLocations }

/-- The state an index text holds. -/
def parseIndex (mode : PatchSectionReadMode) (parseLocations : Bool)
    (loadSections : Text → Except String (Option Text)) (contents : Text) :
    Except String PersistedState :=
  readAll (parseWithSectionLoader mode parseLocations loadSections) (lines contents)

end Sld.Incremental
