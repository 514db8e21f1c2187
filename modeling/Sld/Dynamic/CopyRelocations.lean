/-
# `Dynamic.CopyRelocations` — data of a shared object copied into `.bss`

Code that refers directly to data of a shared object gets a copy of it in
`.bss`, which the loader fills.  Several symbols may stand at one address;
one of them is copied, and all of them then stand at the copy.

Requests come from all objects at once, in any order.  Of the symbols only
what these phases read is kept; sizes and addresses do not overflow.
-/
import Sld.Dynamic.HashTables
import Sld.Layout.PartPlacement

namespace Sld.Dynamic.Copies

open Text.Reader (orError)
open Layout (Alignment PartId OutputSections OutputSectionId LayoutArgs LayoutState IsAlloc
  numAlignments regular)

/-! ## Symbols -/

/-- A symbol of the shared object. -/
structure Symbol where
  value : ℕ
  size : ℕ
  isWeak : Bool
  isTls : Bool
  /-- `sh_addralign` of its section, if it is defined in one. -/
  sectionAlignment : Option ℕ
  /-- References to its name resolve to it. -/
  isCanonical : Bool

def Symbol.isData (symbol : Symbol) : Bool := !symbol.isTls && symbol.sectionAlignment.isSome

def bss : OutputSectionId := regular 10

def newAlignment (raw : ℕ) : Except String Layout.Alignment :=
  let hex := String.ofList (Nat.toDigits 16 raw)
  if raw ≠ 2 ^ raw.log2 then .error ("Invalid alignment 0x" ++ hex)
  else if numAlignments - 1 < raw.log2 then .error ("Unsupported alignment 0x" ++ hex)
  else .ok raw.log2

/-- `part_id_with_alignment` for `BSS` -/
def bssPart (alignment : Layout.Alignment) : PartId :=
  bss.basePartId + (numAlignments - 1 - alignment)

/-! ## Requests -/

structure CopyRelocationInfo where
  /-- The address in the shared object, the key of the map. -/
  address : ℕ
  symbolId : ℕ
  isWeak : Bool

def CopyRelocationInfo.addSymbol (info : CopyRelocationInfo) (symbolId : ℕ) (isWeak : Bool) :
    CopyRelocationInfo :=
  if info.symbolId = symbolId ∨ isWeak = true then info
  else ⟨info.address, symbolId, false⟩

/-- Does something to the entry at an address. -/
def updateAt (address : ℕ) (f : CopyRelocationInfo → CopyRelocationInfo)
    (infos : List CopyRelocationInfo) : List CopyRelocationInfo :=
  infos.map fun info => if info.address = address then f info else info

def copyRelocateSymbol (symbols : List Symbol) (infos : List CopyRelocationInfo) (symbolId : ℕ) :
    Except String (List CopyRelocationInfo) := do
  let symbol ← orError "Invalid symbol index" symbols[symbolId]?
  let entered := if infos.any (·.address = symbol.value) then infos
    else infos ++ [⟨symbol.value, symbolId, symbol.isWeak⟩]
  return updateAt symbol.value (·.addSymbol symbolId symbol.isWeak) entered

/-! ## Alternatives -/

structure Selection where
  infos : List CopyRelocationInfo
  /-- The symbols that are exported; they get `COPY_RELOCATION` as well. -/
  definitions : List ℕ

/-- The body of the loop over the symbols. -/
def selectAlternative (selection : Selection) (entry : Symbol × ℕ) : Selection :=
  let (symbol, symbolId) := entry
  if !selection.infos.any (·.address = symbol.value) then selection
  else if !symbol.isCanonical then selection
  else
    { definitions := selection.definitions ++ [symbolId]
      infos := updateAt symbol.value (fun info =>
        if symbol.isWeak || !info.isWeak || info.symbolId = symbolId then info
        else ⟨info.address, symbolId, false⟩) selection.infos }

def selectCopyRelocationAlternatives (symbols : List Symbol) (infos : List CopyRelocationInfo) :
    Selection :=
  symbols.zipIdx.foldl selectAlternative ⟨infos, []⟩

/-! ## Space -/

/-- The size and the alignment of the copy of a symbol. -/
def copyOf (symbols : List Symbol) (symbolId : ℕ) : Except String (Symbol × Layout.Alignment) := do
  let symbol ← orError "Invalid symbol index" symbols[symbolId]?
  let raw ← orError "Copy relocation for undefined symbol" symbol.sectionAlignment
  let alignment ← newAlignment raw
  return (symbol, alignment)

structure CopySizes where
  bss : PartId → ℕ
  relaDynGeneral : ℕ

def relaEntrySize : ℕ := 24

def allocateForCopy (symbols : List Symbol) (sizes : CopySizes) (info : CopyRelocationInfo) :
    Except String CopySizes := do
  let (symbol, alignment) ← copyOf symbols info.symbolId
  let part := bssPart alignment
  return ⟨Function.update sizes.bss part (sizes.bss part + alignment.alignUp symbol.size),
    sizes.relaDynGeneral + relaEntrySize⟩

def allocateForCopyRelocations (symbols : List Symbol) (infos : List CopyRelocationInfo) :
    Except String CopySizes :=
  infos.foldlM (allocateForCopy symbols) ⟨fun _ => 0, 0⟩

/-! ## Addresses -/

/-- A copy: where the data is in the shared object, the symbol that is
copied, and the place in `.bss`. -/
structure Block where
  inputAddress : ℕ
  symbolId : ℕ
  part : PartId
  address : ℕ
  size : ℕ

/-- The symbols in the order of their ids. -/
def copyRelocationSymbols (infos : List CopyRelocationInfo) : List ℕ :=
  (infos.map CopyRelocationInfo.symbolId).insertionSort (· ≤ ·)

def assignCopyRelocationAddresses (symbols : List Symbol) :
    (PartId → ℕ) → List ℕ → Except String (List Block)
  | _, [] => .ok []
  | offsets, symbolId :: symbolIds => do
      let (symbol, alignment) ← copyOf symbols symbolId
      let part := bssPart alignment
      let size := alignment.alignUp symbol.size
      let rest ← assignCopyRelocationAddresses symbols
        (Function.update offsets part (offsets part + size)) symbolIds
      return ⟨symbol.value, symbolId, part, offsets part, size⟩ :: rest

/-- The address of a symbol that has `COPY_RELOCATION` set; other symbols get
none here. -/
def resolveSymbol (blocks : List Block) (needsCopy : List ℕ) (entry : Symbol × ℕ) :
    Except String (Option ℕ) :=
  if entry.2 ∈ needsCopy then do
    let block ← orError "Internal error: Missing copy relocation address"
      (blocks.find? (·.inputAddress = entry.1.value))
    return some block.address
  else .ok none

/-! ## The output -/

/-- A `COPY` relocation for the symbol, or its definition in `.dynsym`. -/
structure Entry where
  symbolId : ℕ
  address : ℕ

/-- `write_copy_relocation_for_symbol` -/
def writeCopyRelocation (resolutions : List (Option ℕ)) (definitions : List ℕ) (symbolId : ℕ) :
    Except String Entry := do
  let address ← orError "Internal error: Missing resolution for copy-relocated symbol"
    resolutions[symbolId]?.join
  if symbolId ∈ definitions then return ⟨symbolId, address⟩
  else throw "Missing dynamic symbol index"

/-- `write_copy_relocation_dynamic_symbol_definition` -/
def writeDefinition (willEmitBss : Bool) (resolutions : List (Option ℕ)) (symbolId : ℕ) :
    Except String Entry :=
  if willEmitBss then do
    let address ← orError "Copy relocation for unresolved symbol" resolutions[symbolId]?.join
    return ⟨symbolId, address⟩
  else .error "Copy relocation with no BSS section"

/-- A shared object, the requests for copies of its data, and what else is
in `.bss`. -/
structure CopyInput where
  symbols : List Symbol
  /-- In the order in which they arrive. -/
  requests : List ℕ
  valid : ∀ symbolId ∈ requests, ∃ symbol ∈ symbols[symbolId]?,
    symbol.isCanonical = true ∧ symbol.isData = true
  outputSections : OutputSections
  isAlloc : IsAlloc outputSections bss
  args : LayoutArgs
  notPartial : args.shouldOutputPartialObject = false
  /-- The state of layout where it comes to `.bss`. -/
  layoutState : LayoutState
  /-- What the files before and behind this one have in the parts. -/
  before : PartId → ℕ
  behind : PartId → ℕ
  dvd_before : ∀ part, (outputSections.partAlignment part).value ∣ before part
  /-- `.bss` is kept for another reason than its size. -/
  mustKeepBss : Bool

namespace CopyInput

variable (input : CopyInput)

def totalSizes (sizes : CopySizes) (part : PartId) : ℕ :=
  input.before part + sizes.bss part + input.behind part

/-- The memory offsets of the parts for this file. -/
def bssOffsets (sizes : CopySizes) (part : PartId) : ℕ :=
  ((Layout.placeSection (input.totalSizes sizes) input.outputSections input.args
    input.layoutState bss).recordsOut part).memOffset + input.before part

def willEmitBss (sizes : CopySizes) : Bool :=
  input.mustKeepBss || bss.parts.any fun part => input.totalSizes sizes part != 0

end CopyInput

structure CopyOutput where
  sizes : CopySizes
  blocks : List Block
  resolutions : List (Option ℕ)
  relocations : List Entry
  definitions : List Entry

/-- From the requests to what is written. -/
def linkCopies (input : CopyInput) : Except String CopyOutput := do
  let infos ← input.requests.foldlM (copyRelocateSymbol input.symbols) []
  let selection := selectCopyRelocationAlternatives input.symbols infos
  let sizes ← allocateForCopyRelocations input.symbols selection.infos
  let symbolIds := copyRelocationSymbols selection.infos
  let blocks ← assignCopyRelocationAddresses input.symbols (input.bssOffsets sizes) symbolIds
  let needsCopy := input.requests ++ selection.definitions
  let resolutions ← input.symbols.zipIdx.mapM (resolveSymbol blocks needsCopy)
  let relocations ← symbolIds.mapM (writeCopyRelocation resolutions selection.definitions)
  let definitions ← selection.definitions.mapM
    (writeDefinition (input.willEmitBss sizes) resolutions)
  return ⟨sizes, blocks, resolutions, relocations, definitions⟩

/-! ## Consistency -/

namespace CopyInput

variable (input : CopyInput)

/-- The address of a request. -/
def isRequested (address : ℕ) : Prop :=
  ∃ symbolId ∈ input.requests, ∃ symbol ∈ input.symbols[symbolId]?, symbol.value = address

/-- A copy is large enough for the symbol that is copied, and aligned for
it. -/
def IsCopy (block : Block) : Prop :=
  ∃ symbol ∈ input.symbols[block.symbolId]?,
    symbol.value = block.inputAddress ∧ symbol.isCanonical = true ∧ symbol.isTls = false
      ∧ symbol.size ≤ block.size
      ∧ ∃ alignment ∈ symbol.sectionAlignment, alignment ∣ block.address

end CopyInput

/-- The copies of the data of one shared object. -/
structure Consistent (input : CopyInput) (output : CopyOutput) : Prop where
  oneEach : (output.blocks.map Block.inputAddress).Nodup
  requested : ∀ address,
    address ∈ output.blocks.map Block.inputAddress ↔ input.isRequested address
  copies : ∀ block ∈ output.blocks, input.IsCopy block
  disjoint : output.blocks.Pairwise fun block block' =>
    block.address + block.size ≤ block'.address ∨ block'.address + block'.size ≤ block.address
  within : ∀ block ∈ output.blocks, input.bssOffsets output.sizes block.part ≤ block.address
    ∧ block.address + block.size
      ≤ input.bssOffsets output.sizes block.part + output.sizes.bss block.part
  filled : ∀ part, output.sizes.bss part
    = ((output.blocks.filter (·.part = part)).map Block.size).sum
  relocations : output.relocations
    = output.blocks.map fun block => ⟨block.symbolId, block.address⟩
  relocationSpace : output.sizes.relaDynGeneral = output.relocations.length * relaEntrySize
  aliases : ∀ (symbolId : ℕ) (symbol : Symbol), input.symbols[symbolId]? = some symbol →
    symbol.isCanonical = true → ∀ block ∈ output.blocks, block.inputAddress = symbol.value →
      output.resolutions[symbolId]? = some (some block.address)
        ∧ output.definitions.filter (·.symbolId = symbolId) = [⟨symbolId, block.address⟩]

/-- The link goes through with consistent copies. -/
def CopiesAgree (input : CopyInput) : Prop :=
  ∃ output, linkCopies input = .ok output ∧ Consistent input output

end Sld.Dynamic.Copies
