/-
# `Symbols.Resolution` — references are resolved, files are loaded on request

Every file that is loaded has its undefined symbols resolved.  A reference
that resolves to a symbol of another file requests that file; the first
request for a file that is loaded only when needed takes the slice of its
symbol definitions and with it the right to resolve them.  An object is
resolved in chunks, and all chunks of all files run side by side.
-/
import Sld.Symbols.Inputs

namespace Sld.Symbols

/-! ## The symbol table -/

/-- What resolution reads and does not change. -/
structure ResolutionResources where
  platform : Platform
  inputs : Inputs
  hashBytes : Bytes → UInt64
  buckets : List SymbolBucket
  symbolFileIds : SymbolId → FileId
  symbolDefinitions : SymbolId → SymbolId
  entrySymbolName : Bytes
  exportListRootsArchiveSymbols : Bool
  /-- `export_list.contains` -/
  exportList : Option (Bytes → Bool)

namespace ResolutionResources

variable (res : ResolutionResources)

def groups : List Group := res.inputs.createGroups

def object (fileId : FileId) : Option SequencedInputObject :=
  match res.groups[fileId.group]? with
  | some (.objects objects) => objects[fileId.file]?
  | _ => none

/-- `file(file_id).is_dynamic()` -/
def isDynamic (fileId : FileId) : Bool :=
  (res.object fileId).any fun obj => obj.parsed.isDynamic

/-- The entry of a symbol, if an object has it. -/
def symbol (id : SymbolId) : Option SymtabEntry :=
  (res.object (res.symbolFileIds id)).bind fun obj =>
    obj.parsed.symbols[id - obj.symbolIdRange.start]?

def inputSymbolVisibility (id : SymbolId) : Visibility :=
  match res.symbol id with
  | some symbol => symbol.visibility
  | none => .default

/-- `file.symbol_strength`, whether or not the file is loaded -/
def symbolStrength (id : SymbolId) : SymbolStrength :=
  match res.symbol id with
  | some symbol => symbol.strength
  | none => .undefined

def bucket (hash : UInt64) : Option SymbolBucket :=
  res.buckets[hash.toNat % res.buckets.length]?

def NameTable.lookup {κ : Type} [DecidableEq κ] (table : NameTable κ) (key : κ) :
    Option SymbolId :=
  (table.nameToId.find? (·.1 = key)).map (·.2)

/-- `SymbolBucket::get_non_dynamic`: the best of the other definitions that
no shared object has.  They are looked up in the plain table. -/
def getNonDynamic (bucket : SymbolBucket) (id : SymbolId) : Option SymbolId := do
  let alternatives ← (bucket.names.alternativeDefinitions.find? (·.1 = id)).map (·.2)
  let candidates := alternatives.filter fun alt => !res.isDynamic (res.symbolFileIds alt)
  (candidates.foldl (fun selector alt => selector.consider alt (res.symbolStrength alt))
    ({} : SymbolPrioritySelector)).best

def getUnversioned (name : Bytes) : Option SymbolId := do
  let bucket ← res.bucket (res.hashBytes name)
  NameTable.lookup bucket.names name

/-- A definition in a shared object is passed over if it is not allowed. -/
def allowed (bucket : SymbolBucket) (allowDynamic : Bool) (id : SymbolId) : Option SymbolId :=
  if !allowDynamic && res.isDynamic (res.symbolFileIds id) then res.getNonDynamic bucket id
  else some id

def get (name : PreHashedSymbolName) (allowDynamic : Bool) : Option SymbolId :=
  match name with
  | .unversioned name => do
      let bucket ← res.bucket (res.hashBytes name)
      let id ← NameTable.lookup bucket.names name
      res.allowed bucket allowDynamic id
  | .versioned name version => do
      let bucket ← res.bucket (versionedHash res.hashBytes (name, version))
      let id ← NameTable.lookup bucket.versionedNames (name, version)
      res.allowed bucket allowDynamic id

/-- `export_list_roots_object`: the exported symbols of an archive member
are roots, where the platform's arguments say so. -/
def exportListRootsObject (obj : SequencedInputObject) : Bool :=
  res.exportListRootsArchiveSymbols &&
    res.exportList.any fun exportList =>
      obj.parsed.symbols.any fun symbol =>
        !symbol.isUndefined && !symbol.isLocal && !symbol.isHidden &&
          match symbol.name with
          | .ok name => exportList name
          | .error _ => false

/-- Whether an object waits for a request. -/
def waits (obj : SequencedInputObject) : Bool :=
  obj.isOptional && !res.exportListRootsObject obj

end ResolutionResources

/-! ## Work items -/

def maxSymbolsPerWorkItem : Nat := 5000

/-- A chunk of the symbols of a file, and the slots for their definitions. -/
structure LoadObjectSymbolsRequest where
  fileId : FileId
  symbolStartOffset : Nat
  definitionsOut : SymbolIdRange

/-- The loop of `work_items_do`.  There is at least one work item. -/
def workItems (chunkSize : Nat) (fileId : FileId) (symbolStartOffset : Nat)
    (definitionsOut : SymbolIdRange) : List LoadObjectSymbolsRequest :=
  if _h : definitionsOut.len ≤ chunkSize ∨ chunkSize = 0 then
    [⟨fileId, symbolStartOffset, definitionsOut⟩]
  else
    ⟨fileId, symbolStartOffset, definitionsOut.start, chunkSize⟩ ::
      workItems chunkSize fileId (symbolStartOffset + chunkSize)
        ⟨definitionsOut.start + chunkSize, definitionsOut.len - chunkSize⟩
termination_by definitionsOut.len
decreasing_by
  show definitionsOut.len - chunkSize < definitionsOut.len
  omega

/-- `work_items_do`, without the note that the file is loaded -/
def workItemsDo (res : ResolutionResources) (fileId : FileId) (definitionsOut : SymbolIdRange) :
    List LoadObjectSymbolsRequest :=
  match res.groups[fileId.group]? with
  | some (.objects _) => workItems maxSymbolsPerWorkItem fileId 0 definitionsOut
  | _ => workItems definitionsOut.len fileId 0 definitionsOut

/-! ## What one symbol asks for -/

/-- An undefined symbol that is looked at again when it is known which files
are loaded. -/
structure UndefinedSymbol where
  ignoreIfLoaded : Option FileId
  name : PreHashedSymbolName
  symbolId : SymbolId

structure Effect where
  definition : Option SymbolId := none
  visibility : Option (SymbolId × Visibility) := none
  undefined : Option UndefinedSymbol := none
  request : Option FileId := none

section

variable (res : ResolutionResources)

def loadSymbolNamed (name : Bytes) : Effect :=
  match res.getUnversioned name with
  | some symbolId => { definition := some symbolId, request := some (res.symbolFileIds symbolId) }
  | none => {}

structure SymbolAttributes where
  name : PreHashedSymbolName
  defaultVisibility : Bool
  isWeak : Bool

/-- A strong reference to a symbol of another file requests it, except from
one shared object to another. -/
def requestedFile (isDynamic isWeak : Bool) (fileId symbolFileId : FileId) : Option FileId :=
  if symbolFileId ≠ fileId ∧ isWeak = false ∧ ¬ (isDynamic = true ∧ res.isDynamic symbolFileId = true)
  then some symbolFileId
  else none

/-- A weak reference may still turn out to be undefined. -/
def rememberedSymbol (localSymbolId : SymbolId) (attributes : SymbolAttributes)
    (fileId symbolFileId : FileId) : Option UndefinedSymbol :=
  if ¬ (symbolFileId ≠ fileId ∧ attributes.isWeak = false) ∧ symbolFileId ≠ preludeFileId then
    some ⟨some symbolFileId, attributes.name, localSymbolId⟩
  else none

def resolveSymbol (localSymbolId : SymbolId) (attributes : SymbolAttributes) (isDynamic : Bool)
    (fileId : FileId) : Effect :=
  match res.get attributes.name attributes.defaultVisibility with
  | some symbolId =>
    { definition := some symbolId
      visibility :=
        if attributes.defaultVisibility then none
        else some (symbolId, res.inputSymbolVisibility localSymbolId)
      undefined :=
        rememberedSymbol localSymbolId attributes fileId (res.symbolFileIds symbolId)
      request :=
        requestedFile res isDynamic attributes.isWeak fileId (res.symbolFileIds symbolId) }
  | none => { undefined := some ⟨none, attributes.name, localSymbolId⟩ }

/-- Whether a slot is left alone: the symbol is defined, it is symbol zero,
or it is a hidden symbol of a shared object. -/
def skips (obj : SequencedInputObject) (symbolIndex : Nat) (symbol : SymtabEntry)
    (definition : SymbolId) : Bool :=
  definition != 0 || symbolIndex == 0 || (obj.parsed.isDynamic && symbol.isHidden)

/-- One round of `resolve_symbols`.  The version is looked up by the place
of the symbol in its chunk. -/
def resolveSymbolAt (fileId : FileId) (obj : SequencedInputObject) (symbolStartOffset : Nat)
    (localSymbolIndex : Nat) (definition : SymbolId) : Except String Effect :=
  match obj.parsed.symbols[symbolStartOffset + localSymbolIndex]? with
  | none => pure {}
  | some symbol =>
    if skips obj (symbolStartOffset + localSymbolIndex) symbol definition then pure {}
    else do
      let table ← obj.parsed.verneedTable
      let nameBytes ← symbol.name
      pure (resolveSymbol res (obj.symbolIdRange.start + (symbolStartOffset + localSymbolIndex))
        ⟨.fromRaw (res.platform.rawSymbolName nameBytes table localSymbolIndex),
          symbol.isInterposable, symbol.isWeak⟩ obj.parsed.isDynamic fileId)

/-- One round of the loop of `load_prelude`. -/
def loadDefinitionNamed (symbolDefinitions : List InternalSymDefInfo) (index : Nat) : Effect :=
  match symbolDefinitions[index]? with
  | some defInfo =>
    match defInfo.placement with
    | .forceUndefined | .redirect => loadSymbolNamed res defInfo.name
    | .undefined | .other => {}
  | none => {}

/-- A step of a work item, `process_object` cut into its rounds.  Step zero
comes before the loop over the symbols: the prelude looks up the entry symbol,
an object reads its versions.  Step `k + 1` takes the symbol at `k`. -/
def stepEffect (request : LoadObjectSymbolsRequest) (step : Nat) (definition : SymbolId) :
    Except String Effect :=
  match res.groups[request.fileId.group]?, step with
  | some (.prelude _), 0 =>
    pure { loadSymbolNamed res res.entrySymbolName with definition := none }
  | some (.prelude symbolDefinitions), index + 1 =>
    pure (loadDefinitionNamed res symbolDefinitions index)
  | some (.objects objects), step =>
    match objects[request.fileId.file]?, step with
    | some obj, 0 => obj.parsed.verneedTable.map fun _ => {}
    | some obj, index + 1 =>
      resolveSymbolAt res request.fileId obj request.symbolStartOffset index definition
    | none, _ => pure {}
  | _, _ => pure {}

end

/-! ## The run -/

/-- A work item, and how many of its steps are done. -/
structure Running where
  request : LoadObjectSymbolsRequest
  next : Nat

def LoadObjectSymbolsRequest.steps (request : LoadObjectSymbolsRequest) : Nat :=
  request.definitionsOut.len + 1

def Running.start (request : LoadObjectSymbolsRequest) : Running := ⟨request, 0⟩

/-- The slot that a step may write. -/
def LoadObjectSymbolsRequest.slot (request : LoadObjectSymbolsRequest) : Nat → Option SymbolId
  | 0 => none
  | index + 1 => some (request.definitionsOut.start + index)

structure ResolutionState where
  /-- what `AtomicTake` still holds for a file -/
  definitionsPerFile : FileId → Option SymbolIdRange
  running : List Running
  definitions : SymbolId → SymbolId
  flags : SymbolId → ValueFlags
  loaded : List FileId
  undefinedSymbols : List UndefinedSymbol
  /-- the queue for errors holds one -/
  error : Option String
  /-- the slots, in the order in which they were resolved -/
  resolved : List SymbolId

/-- `apply_visibility_to_definition`, and the same in `resolve_symbol`: a
symbol of a shared object is spared only if the visibility is protected. -/
def applyVisibilityToDefinition (visibility : Visibility) (flags : ValueFlags) : ValueFlags :=
  match visibility with
  | .hidden => { flags with nonInterposable := true, downgradeToLocal := true }
  | .protect => if !flags.dynamic then { flags with nonInterposable := true } else flags
  | .default => flags

namespace ResolutionState

variable (res : ResolutionResources) (s : ResolutionState)

/-- `try_request_file_id`.  That the slice is looked at before it is taken
changes nothing, since a slice never comes back. -/
def tryRequestFileId (fileId : FileId) : ResolutionState :=
  match s.definitionsPerFile fileId with
  | some definitionsOut =>
    { s with
      definitionsPerFile := Function.update s.definitionsPerFile fileId none
      running := s.running ++ (workItemsDo res fileId definitionsOut).map .start
      loaded := s.loaded ++ [fileId] }
  | none => s

def setDefinition (definitions : SymbolId → SymbolId) :
    Option SymbolId → Option SymbolId → SymbolId → SymbolId
  | some slot, some id => Function.update definitions slot id
  | _, _ => definitions

def applyVisibility (flags : SymbolId → ValueFlags) :
    Option (SymbolId × Visibility) → SymbolId → ValueFlags
  | some (id, visibility) =>
    Function.update flags id (applyVisibilityToDefinition visibility (flags id))
  | none => flags

def applyRequest : Option FileId → ResolutionState
  | some fileId => s.tryRequestFileId res fileId
  | none => s

/-- What the next step of a work item asks for. -/
def nextEffect (item : Running) : Except String Effect :=
  stepEffect res item.request item.next
    (((item.request.slot item.next).map s.definitions).getD 0)

/-- A step that succeeds, but for its request. -/
def succeed (before after : List Running) (item : Running) (effect : Effect) : ResolutionState :=
  { s with
    running := before ++ { item with next := item.next + 1 } :: after
    definitions := setDefinition s.definitions (item.request.slot item.next) effect.definition
    flags := applyVisibility s.flags effect.visibility
    undefinedSymbols := s.undefinedSymbols ++ effect.undefined.toList
    resolved := s.resolved ++ (item.request.slot item.next).toList }

/-- A work item ends at an error. -/
def fail (before after : List Running) (item : Running) (e : String) : ResolutionState :=
  { s with
    running := before ++ { item with next := item.request.steps } :: after
    resolved := s.resolved ++ (item.request.slot item.next).toList
    error := s.error <|> some e }

/-- One step of a work item that runs between others. -/
def work (before after : List Running) (item : Running) : ResolutionState :=
  match s.nextEffect res item with
  | .ok effect => (s.succeed before after item effect).applyRequest res effect.request
  | .error e => s.fail before after item e

inductive Step : ResolutionState → ResolutionState → Prop
  | work {s : ResolutionState} {before after : List Running} {item : Running}
      (hrunning : s.running = before ++ item :: after) (hnext : item.next < item.request.steps) :
      Step s (s.work res before after item)

/-- All work items are done. -/
def Complete : Prop := ∀ item ∈ s.running, item.request.steps ≤ item.next

end ResolutionState

/-! ## The start -/

/-- An object, and the slice of the definitions that is split off for it. -/
structure FileDefinitions where
  fileId : FileId
  object : SequencedInputObject
  definitionsOut : SymbolIdRange

def splitObjects (group : Nat) : Nat → SymbolId → List SequencedInputObject → List FileDefinitions
  | _, _, [] => []
  | file, next, obj :: objects =>
    ⟨⟨group, file⟩, obj, next, obj.symbolIdRange.len⟩ ::
      splitObjects group (file + 1) (next + obj.symbolIdRange.len) objects

/-- The slices that `resolve_group` splits off one after the other.  For the
symbols of linker scripts nothing is split off. -/
def splitGroups : Nat → SymbolId → List Group → List FileDefinitions
  | _, _, [] => []
  | group, next, .prelude symbolDefinitions :: groups =>
    splitGroups (group + 1) (next + symbolDefinitions.length) groups
  | group, next, .objects objects :: groups =>
    splitObjects group 0 next objects ++
      splitGroups (group + 1)
        (next + (objects.map fun obj => obj.symbolIdRange.len).sum) groups
  | group, next, .linkerScripts _ :: groups => splitGroups (group + 1) next groups

section

variable (res : ResolutionResources)

def preludeWork : List LoadObjectSymbolsRequest :=
  match res.groups[preludeFileId.group]? with
  | some (.prelude symbolDefinitions) =>
    workItemsDo res preludeFileId ⟨0, symbolDefinitions.length⟩
  | _ => []

def fileDefinitions : List FileDefinitions := splitGroups 0 0 res.groups

/-- The objects that are loaded in any case. -/
def requiredFiles : List FileDefinitions :=
  (fileDefinitions res).filter fun file => !res.waits file.object

def waitingFiles : List FileDefinitions :=
  (fileDefinitions res).filter fun file => res.waits file.object

/-- The state when the initial work items are started. -/
def ResolutionState.initial (flags : SymbolId → ValueFlags) : ResolutionState where
  definitionsPerFile fileId :=
    ((waitingFiles res).find? (·.fileId = fileId)).map (·.definitionsOut)
  running := (preludeWork res ++ (requiredFiles res).flatMap fun file =>
    workItemsDo res file.fileId file.definitionsOut).map .start
  definitions := res.symbolDefinitions
  flags := flags
  loaded := (requiredFiles res).map (·.fileId)
  undefinedSymbols := []
  error := none
  resolved := []

/-- `resolve_symbols_and_select_archive_entries` returns without an error,
in the given state, after its work items have run in some order. -/
structure ResolveSymbolsAndSelectArchiveEntries (flags : SymbolId → ValueFlags)
    (s : ResolutionState) : Prop where
  numRegularObjects : fileDefinitions res ≠ []
  run : Relation.ReflTransGen (ResolutionState.Step res) (.initial res flags) s
  complete : s.Complete
  error : s.error = none

end

end Sld.Symbols
