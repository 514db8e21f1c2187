/-
# `Dynamic.SymbolTables` — how `.dynsym` and `.gnu.version` are filled

Layout hands out dynamic symbol indices file by file, from the offset that
the part has reached; the definitions are numbered behind all of these.
The groups then write their slices of the two tables at the same time, and
the definitions are split into chunks, each with slices of its own.

Whatever else of an entry is written (its value, its section) is left out;
it can only fail.  A slot of `.gnu.version` that nobody writes keeps its
old content.
-/
import Sld.Dynamic.HashTables

namespace Sld.Dynamic

/-! ## Files -/

/-- The flags of a symbol of a file, as layout ends with them. -/
structure SymbolState where
  isCanonical : Bool
  hasResolution : Bool
  isDynamic : Bool
  needsCopyRelocation : Bool
  /-- A mapping symbol in a section that has not been loaded. -/
  isUnplaced : Bool

inductive FileKind where
  | prelude
  | object
  /-- A shared object: the versions of its symbols, and the mapping of its
  versions to those of the output. -/
  | dynamic (symbolVersions versionMapping : List UInt16)
  | linkerScript
  | syntheticSymbols
  | notLoaded
  deriving DecidableEq

structure File where
  kind : FileKind
  startSymbolId : ℕ
  symbols : List SymbolState

def File.contains (file : File) (symbolId : ℕ) : Bool :=
  file.startSymbolId ≤ symbolId && symbolId < file.startSymbolId + file.symbols.length

/-- Symbol ids are numbered through, file after file. -/
def File.Before (file file' : File) : Prop :=
  file.startSymbolId + file.symbols.length ≤ file'.startSymbolId

instance : DecidableRel File.Before := fun _ _ => Nat.decLe _ _

/-- What the epilogue and the groups before it contain. -/
structure DynamicOutput where
  outputKind : OutputKind
  groups : List (List File)
  numbered : groups.flatten.Pairwise File.Before
  /-- In the order of the hash buckets. -/
  definitions : List DynamicSymbolDefinition
  /-- Whether some symbol version is needed or defined. -/
  usesVersions : Bool
  /-- The address of `.dynsym`. -/
  dynsymAddress : ℕ

namespace DynamicOutput

variable (output : DynamicOutput)

/-- `file_id_for_symbol` -/
def fileForSymbol (symbolId : ℕ) : Option File :=
  output.groups.flatten.find? (·.contains symbolId)

def shouldOutputSymbolVersions : Bool :=
  match output.outputKind with
  | .dynamicExecutable _ | .sharedObject => true
  | _ => false

/-! ## Sizes -/

/-- `finalise_sizes_for_symbol`, the space in `.dynsym` -/
def sizeForSymbol (s : SymbolState) : ℕ :=
  if s.isCanonical && s.isDynamic && s.hasResolution && !s.needsCopyRelocation then symtabEntrySize
  else 0

def sizeForFile (file : File) : ℕ :=
  (file.symbols.map sizeForSymbol).sum
    + if file.kind = .prelude ∧ output.outputKind.needsDynsym then symtabEntrySize else 0

def sizeForGroup (files : List File) : ℕ := (files.map output.sizeForFile).sum

/-- The epilogue is the only file of the last group. -/
def sizeForEpilogue : ℕ :=
  if output.outputKind.needsDynamic then output.definitions.length * symtabEntrySize else 0

def numSlots (size : ℕ) : ℕ := size / symtabEntrySize

/-- Whether `.gnu.version` is emitted; each group then has as many slots in
it as in `.dynsym`. -/
def versionsEmitted : Bool := output.shouldOutputSymbolVersions && output.usesVersions

/-! ## Layout -/

structure Resolution where
  state : SymbolState
  dynamicSymbolIndex : Option ℕ

/-- `take_dynsym_index`: the index and the offset behind it -/
def takeDynsymIndex (offset : ℕ) : Except String (ℕ × ℕ) :=
  let index := (offset - output.dynsymAddress) / symtabEntrySize
  if index < 2 ^ 32 then .ok (index, offset + symtabEntrySize)
  else .error "Too many dynamic symbols"

/-- `NonZeroU32::new`, with its context -/
def nonZeroIndex (taken : ℕ × ℕ) : Except String (ℕ × ℕ) :=
  if taken.1 = 0 then .error "Attempted to create dynamic symbol index 0" else .ok taken

/-- `create_symbol_resolution` of an object, the part about the index -/
def resolveObjectSymbol (s : SymbolState) (offset : ℕ) : Except String (Option Resolution × ℕ) :=
  if !s.hasResolution || !s.isCanonical then .ok (none, offset)
  else if s.isUnplaced then .ok (none, offset)
  else if s.isDynamic then do
    let taken ← output.takeDynsymIndex offset
    let taken ← nonZeroIndex taken
    return (some ⟨s, some taken.1⟩, taken.2)
  else .ok (some ⟨s, none⟩, offset)

/-- The same for a shared object. -/
def resolveDynamicSymbol (s : SymbolState) (offset : ℕ) : Except String (Option Resolution × ℕ) :=
  if !s.hasResolution then .ok (none, offset)
  else if s.needsCopyRelocation then .ok (some ⟨s, none⟩, offset)
  else do
    let taken ← output.takeDynsymIndex offset
    let taken ← nonZeroIndex taken
    return (some ⟨s, some taken.1⟩, taken.2)

def resolveSymbols (resolve : SymbolState → ℕ → Except String (Option Resolution × ℕ)) :
    List SymbolState → ℕ → Except String (List (Option Resolution) × ℕ)
  | [], offset => .ok ([], offset)
  | s :: symbols, offset => do
      let first ← resolve s offset
      let rest ← resolveSymbols resolve symbols first.2
      return (first.1 :: rest.1, rest.2)

/-- A file, with the resolutions of its symbols and the index of the null
entry, which the prelude takes. -/
structure FileLayout where
  file : File
  resolutions : List (Option Resolution)
  nullIndex : Option ℕ

def layoutFile (file : File) (offset : ℕ) : Except String (FileLayout × ℕ) :=
  match file.kind with
  | .prelude =>
    if output.outputKind.needsDynsym then do
      let taken ← output.takeDynsymIndex offset
      return (⟨file, [], some taken.1⟩, taken.2)
    else .ok (⟨file, [], none⟩, offset)
  | .object => do
      let resolved ← resolveSymbols output.resolveObjectSymbol file.symbols offset
      return (⟨file, resolved.1, none⟩, resolved.2)
  | .dynamic _ _ => do
      let resolved ← resolveSymbols output.resolveDynamicSymbol file.symbols offset
      return (⟨file, resolved.1, none⟩, resolved.2)
  | .linkerScript | .syntheticSymbols | .notLoaded => .ok (⟨file, [], none⟩, offset)

def layoutFiles : List File → ℕ → Except String (List FileLayout × ℕ)
  | [], offset => .ok ([], offset)
  | file :: files, offset => do
      let first ← output.layoutFile file offset
      let rest ← layoutFiles files first.2
      return (first.1 :: rest.1, rest.2)

/-- The groups from the offsets where their sizes put them. -/
def layoutGroups : List (List File) → ℕ → Except String (List (List FileLayout))
  | [], _ => .ok []
  | files :: groups, start => do
      let laidOut ← output.layoutFiles files start
      let rest ← layoutGroups groups (start + output.sizeForGroup files)
      return laidOut.1 :: rest

structure DynsymLayout where
  groups : List (List FileLayout)
  dynsymStartIndex : ℕ

/-- Where the last group starts. -/
def epilogueOffset : ℕ := output.dynsymAddress + (output.groups.map output.sizeForGroup).sum

def layoutDynsym : Except String DynsymLayout := do
  let groups ← output.layoutGroups output.groups output.dynsymAddress
  let taken ← output.takeDynsymIndex output.epilogueOffset
  return ⟨groups, taken.1⟩

end DynamicOutput

open DynamicOutput (Resolution FileLayout DynsymLayout numSlots)

/-! ## Writing -/

inductive DynsymEntry where
  | null
  | undefined (symbolId : ℕ)
  | definition (symDef : DynamicSymbolDefinition)

/-- `copy_symbol_version`: the version of a symbol of a shared object -/
def copySymbolVersion (versymIn : List UInt16) (localSymbolIndex : ℕ)
    (versionMapping : List UInt16) : Except String UInt16 :=
  match versymIn[localSymbolIndex]? with
  | none => .ok verNdxGlobal
  | some versym =>
    let inputVersion := versym &&& 0x7fff
    if inputVersion ≤ verNdxGlobal then .ok inputVersion
    else match versionMapping[inputVersion.toNat - 1]? with
      | some version => .ok version
      | none => .error "index out of bounds"

/-- What has been written of a slice of the two tables, and how many slots
remain.  There is no version slice if versioning is disabled. -/
structure TableWriter where
  dynsym : List DynsymEntry
  dynsymFree : ℕ
  versym : List UInt16
  versymFree : Option ℕ

namespace TableWriter

def empty (slots : ℕ) (versions : Bool) : TableWriter :=
  ⟨[], slots, [], if versions && decide (slots ≠ 0) then some slots else none⟩

def defineSymbol (w : TableWriter) (entry : DynsymEntry) : Except String TableWriter :=
  if w.dynsymFree = 0 then .error "Insufficient .dynsym entries allocated for symbol"
  else .ok { w with dynsym := w.dynsym ++ [entry], dynsymFree := w.dynsymFree - 1 }

/-- `set_next_symbol_version`, `write_symbol_version` -/
def setNextSymbolVersion (w : TableWriter) (version : UInt16) : Except String TableWriter :=
  match w.versymFree with
  | none => .ok w
  | some 0 => .error "Insufficient .gnu.version allocation"
  | some (free + 1) =>
    .ok { w with versym := w.versym ++ [version], versymFree := some free }

/-- `validate_empty`, for the two tables -/
def validateEmpty (w : TableWriter) : Except String Unit :=
  if w.dynsymFree ≠ 0 then .error "Didn't use up all allocated dynsym/dynstr space."
  else match w.versymFree with
    | some (_ + 1) => .error "Allocated too much space in .gnu.version"
    | _ => .ok ()

end TableWriter

/-- The symbols of an object: undefined weak ones that nobody defines. -/
def writeObjectSymbols (gnuVersionEnabled : Bool) :
    ℕ → List (Option Resolution) → TableWriter → Except String TableWriter
  | _, [], w => .ok w
  | symbolId, none :: rest, w => writeObjectSymbols gnuVersionEnabled (symbolId + 1) rest w
  | symbolId, some res :: rest, w =>
    if res.state.isDynamic then do
      let w ← w.defineSymbol (.undefined symbolId)
      let w ← (if gnuVersionEnabled then w.setNextSymbolVersion verNdxGlobal else .ok w)
      writeObjectSymbols gnuVersionEnabled (symbolId + 1) rest w
    else writeObjectSymbols gnuVersionEnabled (symbolId + 1) rest w

/-- `write_dynamic_file`: the symbols that a shared object defines for us -/
def writeDynamicSymbols (startSymbolId : ℕ) (versymIn versionMapping : List UInt16) :
    ℕ → List (Option Resolution) → TableWriter → Except String TableWriter
  | _, [], w => .ok w
  | symbolId, none :: rest, w =>
    writeDynamicSymbols startSymbolId versymIn versionMapping (symbolId + 1) rest w
  | symbolId, some res :: rest, w =>
    if res.state.needsCopyRelocation then
      writeDynamicSymbols startSymbolId versymIn versionMapping (symbolId + 1) rest w
    else do
      let w ← w.defineSymbol (.undefined symbolId)
      let w ← (if w.versymFree.isSome then do
          let version ← copySymbolVersion versymIn (symbolId - startSymbolId) versionMapping
          w.setNextSymbolVersion version
        else .ok w)
      writeDynamicSymbols startSymbolId versymIn versionMapping (symbolId + 1) rest w

/-- `write_prelude`: the version of the null entry and the entry -/
def writePrelude (gnuVersionEnabled needsDynsym : Bool) (w : TableWriter) :
    Except String TableWriter := do
  let w ← (if gnuVersionEnabled then w.setNextSymbolVersion verNdxGlobal else .ok w)
  if needsDynsym then w.defineSymbol .null else .ok w

namespace DynamicOutput

variable (output : DynamicOutput)

/-- The number of slots of the whole table. -/
def totalSlots : ℕ :=
  numSlots ((output.groups.map output.sizeForGroup).sum + output.sizeForEpilogue)

/-- `gnu_version_enabled`: the part is not empty. -/
def gnuVersionEnabled : Bool := output.versionsEmitted && decide (0 < output.totalSlots)

def writeFile (layout : FileLayout) (w : TableWriter) : Except String TableWriter :=
  match layout.file.kind with
  | .prelude => writePrelude output.gnuVersionEnabled output.outputKind.needsDynsym w
  | .object =>
    writeObjectSymbols output.gnuVersionEnabled layout.file.startSymbolId layout.resolutions w
  | .dynamic versymIn versionMapping =>
    writeDynamicSymbols layout.file.startSymbolId versymIn versionMapping
      layout.file.startSymbolId layout.resolutions w
  | .linkerScript | .syntheticSymbols | .notLoaded => .ok w

/-- A group fills its slices completely, or the link fails. -/
def writeGroup (size : ℕ) (files : List FileLayout) : Except String TableWriter := do
  let w ← files.foldlM (fun w file => output.writeFile file w)
    (TableWriter.empty (numSlots size) output.versionsEmitted)
  w.validateEmpty
  return w

/-- One definition of a chunk.  A definition of a linker script gets no
version. -/
def writeDefinition (symDef : DynamicSymbolDefinition) (w : TableWriter) :
    Except String TableWriter :=
  match output.fileForSymbol symDef.symbolId.toNat with
  | none => .error "Internal error: Unexpected dynamic symbol definition"
  | some file =>
    match file.kind with
    | .object | .prelude => do
        let w ← w.defineSymbol (.definition symDef)
        w.setNextSymbolVersion symDef.version
    | .dynamic versymIn versionMapping => do
        let w ← w.defineSymbol (.definition symDef)
        if w.versymFree.isSome then do
          let version ← copySymbolVersion versymIn (symDef.symbolId.toNat - file.startSymbolId)
            versionMapping
          w.setNextSymbolVersion version
        else .ok w
    | .linkerScript => w.defineSymbol (.definition symDef)
    | .syntheticSymbols | .notLoaded =>
      .error "Internal error: Unexpected dynamic symbol definition"

/-- One chunk, in the prefix of the two tables that `take_dynsym_prefix`
takes for it. -/
def writeDefinitions (chunk : List DynamicSymbolDefinition) : Except String TableWriter :=
  chunk.foldlM (fun w symDef => output.writeDefinition symDef w)
    (TableWriter.empty chunk.length output.versionsEmitted)

/-- What the slots of a slice hold after writing: behind what has been
written, what was there before. -/
def fillSlots (written old : List UInt16) : List UInt16 := written ++ old.drop written.length

/-- The groups one after the other, over the slots they had before. -/
def writeGroups : List (List File) → List (List FileLayout) → List UInt16 →
    Except String (List DynsymEntry × List UInt16)
  | files :: groups, laidOut :: rest, old => do
      let size := output.sizeForGroup files
      let w ← output.writeGroup size laidOut
      let behind ← writeGroups groups rest (old.drop (numSlots size))
      return (w.dynsym ++ behind.1, fillSlots w.versym (old.take (numSlots size)) ++ behind.2)
  | _, _, _ => .ok ([], [])

/-- The chunks one after the other. -/
def writeChunks : List (List DynamicSymbolDefinition) → List UInt16 →
    Except String (List DynsymEntry × List UInt16)
  | [], _ => .ok ([], [])
  | chunk :: chunks, old => do
      let w ← output.writeDefinitions chunk
      let behind ← writeChunks chunks (old.drop chunk.length)
      return (w.dynsym ++ behind.1, fillSlots w.versym (old.take chunk.length) ++ behind.2)

/-- The slots of a part, each with what it held before. -/
structure OldVersions where
  slots : List UInt16
  length_slots : slots.length = output.totalSlots

structure DynsymTables where
  dynsym : List DynsymEntry
  /-- `.gnu.version`, if it is emitted. -/
  versym : Option (List UInt16)

/-- Both tables, for one way to split the definitions into chunks. -/
def writeTables (layout : DynsymLayout) (chunks : List (List DynamicSymbolDefinition))
    (old : output.OldVersions) : Except String DynsymTables := do
  let groupSlots := numSlots (output.groups.map output.sizeForGroup).sum
  let groups ← output.writeGroups output.groups layout.groups old.slots
  -- The slices of the chunks are split off the slice of the last group.
  if numSlots output.sizeForEpilogue < output.definitions.length then
    throw "called Option::unwrap() on a None value"
  let definitions ← output.writeChunks chunks (old.slots.drop groupSlots)
  if output.definitions.length < numSlots output.sizeForEpilogue then
    throw "Didn't use up all allocated dynsym/dynstr space."
  return ⟨groups.1 ++ definitions.1,
    if output.gnuVersionEnabled then some (groups.2 ++ definitions.2) else none⟩

/-! ## What the tables ought to contain -/

/-- Entries with consecutive indices. -/
def numberedFrom : ℕ → List DynsymEntry → List (ℕ × DynsymEntry)
  | _, [] => []
  | index, entry :: entries => (index, entry) :: numberedFrom (index + 1) entries

def assignedSymbols : ℕ → List (Option Resolution) → List (ℕ × DynsymEntry)
  | _, [] => []
  | symbolId, res :: rest =>
    match res.bind (·.dynamicSymbolIndex) with
    | some index => (index, .undefined symbolId) :: assignedSymbols (symbolId + 1) rest
    | none => assignedSymbols (symbolId + 1) rest

def assignedInFile (layout : FileLayout) : List (ℕ × DynsymEntry) :=
  (layout.nullIndex.map fun index => (index, DynsymEntry.null)).toList
    ++ assignedSymbols layout.file.startSymbolId layout.resolutions

/-- The indices that layout has given: to the null entry, to the symbols of
the files, and to the definitions. -/
def assignedIndices (layout : DynsymLayout) : List (ℕ × DynsymEntry) :=
  layout.groups.flatten.flatMap assignedInFile
    ++ numberedFrom layout.dynsymStartIndex (output.definitions.map .definition)

def fileVersion (symbolId : ℕ) (version : UInt16) : Except String UInt16 :=
  match output.fileForSymbol symbolId with
  | some ⟨.dynamic versymIn versionMapping, start, _⟩ =>
    copySymbolVersion versymIn (symbolId - start) versionMapping
  | _ => .ok version

/-- The version of a symbol of `.dynsym`. -/
def versionOf : DynsymEntry → Except String UInt16
  | .null => .ok verNdxGlobal
  | .undefined symbolId => output.fileVersion symbolId verNdxGlobal
  | .definition symDef => output.fileVersion symDef.symbolId.toNat symDef.version

/-- Each entry is the symbol that was given its index. -/
def IndicesAgree (layout : DynsymLayout) (tables : DynsymTables) : Prop :=
  ∀ index entry, tables.dynsym[index]? = some entry
    ↔ (index, entry) ∈ output.assignedIndices layout

/-- Each version is that of the symbol with the same index. -/
def VersionsAgree (tables : DynsymTables) : Prop :=
  ∀ versym : List UInt16, tables.versym = some versym →
    List.Forall₂ (fun entry version => output.versionOf entry = .ok version) tables.dynsym versym

end DynamicOutput

end Sld.Dynamic
