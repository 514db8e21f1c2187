/-
# `Symbols.Inputs` — the input objects and the names of their symbols

The inputs of a link are put into groups: the prelude with the symbols that
the linker defines, the objects, and the linker scripts.  Their symbols are
numbered through in this order.  A symbol of an object has a name, perhaps
with a version: an ELF object appends it to the name after `@` (or `@@` for
the default version), a shared object looks it up in a table of its own.
-/
import Sld.Symbols.SymbolDb

namespace Sld.Symbols

/-! ## Names -/

structure RawSymbolName where
  name : Bytes
  versionName : Option Bytes
  isDefault : Bool

/-- `RawSymbolName::parse` of an ELF name: `foo@1.1` or `foo@@2.0`. -/
def RawSymbolName.parse (nameBytes : Bytes) : RawSymbolName :=
  let name := nameBytes.takeWhile (· ≠ 64)
  match nameBytes.dropWhile (· ≠ 64) with
  | [] => ⟨name, none, true⟩
  | _ :: 64 :: version => ⟨name, some version, true⟩
  | _ :: version => ⟨name, some version, false⟩

/-- A name to be looked up; its hash is computed from it. -/
inductive PreHashedSymbolName where
  | unversioned (name : Bytes)
  | versioned (name version : Bytes)

def PreHashedSymbolName.fromRaw (raw : RawSymbolName) : PreHashedSymbolName :=
  match raw.versionName with
  | some version => .versioned raw.name version
  | none => .unversioned raw.name

/-- The versions that a shared object needs: the version index of each of
its symbols and the names of the versions. -/
structure VerneedTable where
  versym : List Nat
  versionNamesByIndex : List (Option Bytes)

def VerneedTable.versionName (table : VerneedTable) (symbolIndex : Nat) : Option Bytes :=
  (table.versym[symbolIndex]?).bind fun version => (table.versionNamesByIndex[version]?).join

inductive Platform where
  | elf
  | machO

def Platform.rawSymbolName (platform : Platform) (nameBytes : Bytes) (table : VerneedTable)
    (symbolIndex : Nat) : RawSymbolName :=
  match platform with
  | .elf =>
    match table.versionName symbolIndex with
    | some version => ⟨nameBytes, some version, false⟩
    | none => .parse nameBytes
  | .machO => ⟨nameBytes, none, true⟩

/-! ## Objects -/

/-- An entry of an object's symbol table, as the platform presents it. -/
structure SymtabEntry where
  name : Except String Bytes
  isUndefined : Bool
  isLocal : Bool
  isWeak : Bool
  isCommon : Bool
  isGnuUnique : Bool
  isTls : Bool
  isFunc : Bool
  isHidden : Bool
  isInterposable : Bool
  visibility : Visibility
  size : UInt64

/-- `SymbolStrength::of` -/
def SymtabEntry.strength (symbol : SymtabEntry) : SymbolStrength :=
  if symbol.isWeak then .weak
  else if symbol.isCommon then .common symbol.size
  else if symbol.isGnuUnique then .gnuUnique
  else .strong

/-- `symbolVersions` are the versions that a shared object defines, for each
symbol the name of its version and whether it is the default one. -/
structure ParsedInputObject where
  symbols : List SymtabEntry
  symbolVersions : List (Option Bytes × Bool)
  libName : Bytes
  isDynamic : Bool
  hasArchiveSemantics : Bool
  wholeArchive : Bool
  asNeeded : Bool
  verneedTable : Except String VerneedTable

structure SymbolIdRange where
  start : SymbolId
  len : Nat

structure SequencedInputObject where
  parsed : ParsedInputObject
  symbolIdRange : SymbolIdRange

/-- Archive members and shared objects that are linked only as needed. -/
def SequencedInputObject.isOptional (obj : SequencedInputObject) : Bool :=
  (obj.parsed.hasArchiveSemantics && !obj.parsed.wholeArchive) ||
    (obj.parsed.isDynamic && obj.parsed.asNeeded)

/-- What resolution asks of the placement of a symbol that the linker or a
script defines. -/
inductive SymbolPlacement where
  | undefined
  | forceUndefined
  | redirect
  | other
  deriving DecidableEq

structure InternalSymDefInfo where
  placement : SymbolPlacement
  name : Bytes
  isHidden : Bool

/-! ## Groups -/

structure FileId where
  group : Nat
  file : Nat
  deriving DecidableEq

def preludeFileId : FileId := ⟨0, 0⟩

inductive Group where
  | prelude (symbolDefinitions : List InternalSymDefInfo)
  | objects (objects : List SequencedInputObject)
  | linkerScripts (scripts : List (List InternalSymDefInfo))

/-- The inputs before their symbols are numbered.  How the objects are
spread over groups depends on the number of threads. -/
structure Inputs where
  linkerDefined : List InternalSymDefInfo
  objectGroups : List (List ParsedInputObject)
  linkerScripts : List (List InternalSymDefInfo)

/-- Symbol zero is the undefined symbol. -/
def Inputs.preludeSymbols (inputs : Inputs) : List InternalSymDefInfo :=
  ⟨.undefined, [], true⟩ :: inputs.linkerDefined

def sequenceObjects : SymbolId → List ParsedInputObject → List SequencedInputObject
  | _, [] => []
  | nextSymbolId, parsed :: objects =>
    ⟨parsed, nextSymbolId, parsed.symbols.length⟩ ::
      sequenceObjects (nextSymbolId + parsed.symbols.length) objects

def numSymbols (objects : List ParsedInputObject) : Nat :=
  (objects.map fun parsed => parsed.symbols.length).sum

def sequenceGroups : SymbolId → List (List ParsedInputObject) → List Group
  | _, [] => []
  | nextSymbolId, objects :: groups =>
    .objects (sequenceObjects nextSymbolId objects) ::
      sequenceGroups (nextSymbolId + numSymbols objects) groups

/-- `create_groups`, after the prelude: the scripts come last. -/
def Inputs.createGroups (inputs : Inputs) : List Group :=
  .prelude inputs.preludeSymbols ::
    (sequenceGroups inputs.preludeSymbols.length inputs.objectGroups ++
      if inputs.linkerScripts = [] then [] else [.linkerScripts inputs.linkerScripts])

end Sld.Symbols
