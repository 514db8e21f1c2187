/-
# `Dynamic.VersionNeeds` — `.gnu.version_r` and the versions it numbers

A shared object defines versions; those of the symbols that the output
refers to are needed.  Four passes deal with them: one marks the needed
versions, one counts them and reserves space, one numbers them, one writes
the records.

Arithmetic on `u16` that overflows fails, as it does in builds that check it.
The names of the versions are given; that reading them can fail is left out.
-/
import Sld.Dynamic.SymbolTables

namespace Sld.Dynamic

open Text.Reader (orError)

/-! ## Records -/

/-- A version definition and the names of its auxiliary entries. -/
structure Verdef where
  ndx : UInt16
  flags : UInt16
  names : List Bytes

def verFlgBase : UInt16 := 1

def Verdef.isBase (verdef : Verdef) : Bool := verdef.flags &&& verFlgBase != 0

structure Verneed where
  version : UInt16
  cnt : UInt16
  file : UInt32
  aux : UInt32
  next : UInt32

structure Vernaux where
  hash : UInt32
  flags : UInt16
  other : UInt16
  name : UInt32
  next : UInt32

/-- The sizes of both records. -/
def verneedSize : ℕ := 16
def vernauxSize : ℕ := 16

/-- Records that give the distance to the one behind them, the last one 0. -/
def LinkedBy {α : Type} (next : α → UInt32) (position : α → ℕ) : List α → Prop
  | [] => True
  | [record] => next record = 0
  | record :: record' :: records =>
    next record ≠ 0 ∧ position record + (next record).toNat = position record'
      ∧ LinkedBy next position (record' :: records)

/-! ## Shared objects -/

/-- The parts of a shared object that say what versions its symbols have.
One of the definitions is that of the object itself. -/
structure SharedObject where
  libName : Bytes
  versym : List UInt16
  verdef : Option (List Verdef)
  /-- `sh_info` of the section with the definitions, or 0. -/
  verdefnum : UInt32
  oneBase : ∀ defs ∈ verdef, (defs.filter Verdef.isBase).length = 1

/-- A shared object of the link. -/
structure DynamicInput where
  object : SharedObject
  /-- The symbols that are loaded, in any order. -/
  referenced : List ℕ
  /-- Where the strings of its versions start in `.dynstr`, and how many
  bytes of its group are reserved for what is written after them. -/
  dynstrOffset : UInt32
  spare : ℕ
  /-- What the output file held where its records are written. -/
  oldVerneed : Verneed
  oldVernaux : ℕ → Vernaux

/-- `get_version_names`: the checks; the names are used elsewhere. -/
def SharedObject.getVersionNames (object : SharedObject) : Except String Unit :=
  (object.verdef.getD []).forM fun verdef =>
    if verdef.names = [] then .error "VERDEF with no AUX entry"
    else if object.verdefnum.toNat < verdef.ndx.toNat then
      .error ("Invalid version index " ++ toString verdef.ndx)
    else .ok ()

/-! ## Marking -/

/-- `mark_version_as_needed`: provided it is not a local or global version -/
def markVersionAsNeeded (symbolVersionsNeeded : List Bool) (versym : UInt16) :
    Except String (List Bool) :=
  let versionIndex := versym &&& 0x7fff
  if verNdxGlobal < versionIndex then
    if versionIndex.toNat - 1 < symbolVersionsNeeded.length then
      .ok (symbolVersionsNeeded.set (versionIndex.toNat - 1) true)
    else .error ("Invalid symbol version index " ++ toString versionIndex)
  else .ok symbolVersionsNeeded

def SharedObject.dynamicSymbolUsed (object : SharedObject) (symbolVersionsNeeded : List Bool)
    (symbolIndex : ℕ) : Except String (List Bool) :=
  match object.versym[symbolIndex]? with
  | some versym => markVersionAsNeeded symbolVersionsNeeded versym
  | none => .ok symbolVersionsNeeded

/-- `activate_dynamic`, then each symbol as it is loaded. -/
def DynamicInput.loadSymbols (input : DynamicInput) : Except String (List Bool) :=
  input.referenced.foldlM input.object.dynamicSymbolUsed
    (List.replicate input.object.verdefnum.toNat false)

/-! ## Sizes -/

def checkedAdd (a b : UInt16) : Option UInt16 :=
  if a.toNat + b.toNat < 2 ^ 16 then some (a + b) else none

structure VersionSizes where
  versionCount : UInt16
  baseSize : ℕ
  dynstr : ℕ
  deriving DecidableEq

/-- The body of the loop over the definitions. -/
def sizeVerdef (libName : Bytes) (symbolVersionsNeeded : List Bool) (sizes : VersionSizes)
    (verdef : Verdef) : Except String VersionSizes :=
  if verdef.ndx = 0 then .error "Invalid version index"
  else if verdef.isBase then
    .ok { sizes with baseSize := libName.length + 1 }
  else do
    let needed ← orError "Invalid version index" symbolVersionsNeeded[verdef.ndx.toNat - 1]?
    if needed then do
      let name ← orError "VERDEF with no AUX entry" verdef.names.head?
      let versionCount ← orError "attempt to add with overflow" (checkedAdd sizes.versionCount 1)
      return { sizes with versionCount, dynstr := sizes.dynstr + (name.length + 1) }
    else return sizes

structure VerneedInfo where
  defs : List Verdef
  versionCount : UInt16

/-- `DynamicLayoutStateExt`, with the bytes reserved in `.dynstr`. -/
structure DynamicState where
  input : DynamicInput
  symbolVersionsNeeded : List Bool
  verneedInfo : Option VerneedInfo
  dynstr : ℕ
  nextGnuVersionRIndex : UInt16

def finaliseSizesDynamic (input : DynamicInput) (symbolVersionsNeeded : List Bool) :
    Except String DynamicState :=
  match input.object.verdef with
  | none => .ok ⟨input, symbolVersionsNeeded, none, 0, 0⟩
  | some defs => do
      let sizes ← defs.foldlM (sizeVerdef input.object.libName symbolVersionsNeeded) ⟨0, 0, 0⟩
      if 0 < sizes.versionCount then
        return ⟨input, symbolVersionsNeeded, some ⟨defs, sizes.versionCount⟩,
          sizes.dynstr + sizes.baseSize, 0⟩
      else return ⟨input, symbolVersionsNeeded, none, sizes.dynstr, 0⟩

/-- A shared object up to its sizes. -/
def sizeDynamic (input : DynamicInput) : Except String DynamicState := do
  input.object.getVersionNames
  let symbolVersionsNeeded ← input.loadSymbols
  finaliseSizesDynamic input symbolVersionsNeeded

namespace DynamicState

/-- The count of `verneed_info`; without one nothing is written. -/
def versionCount (state : DynamicState) : UInt16 :=
  (state.verneedInfo.map VerneedInfo.versionCount).getD 0

def gnuVersionR (state : DynamicState) : ℕ :=
  if 0 < state.versionCount then verneedSize + state.versionCount.toNat * vernauxSize else 0

end DynamicState

/-! ## Numbers -/

/-- `NonAddressableIndexes::new`, from the number of versions in the version
script -/
def firstVersionIndex (scriptVersions : UInt16) : Except String UInt16 :=
  orError "attempt to add with overflow" (checkedAdd verNdxGlobal (max 1 scriptVersions))

/-- `apply_non_addressable_indexes_dynamic` -/
def applyNonAddressableIndexes : UInt16 → List DynamicState → Except String (List DynamicState)
  | _, [] => .ok []
  | next, state :: states => do
      let next' ← (if 0 < state.versionCount then
          orError "Symbol versions overflowed 2**16" (checkedAdd next state.versionCount)
        else .ok next)
      let rest ← applyNonAddressableIndexes next' states
      return { state with nextGnuVersionRIndex := next } :: rest

/-- From input versions to output versions. -/
def computeVersionMapping : List Bool → UInt16 → Except String (List UInt16)
  | [], _ => .ok []
  | true :: needed, nextOutputVersion => do
      let next ← orError "attempt to add with overflow" (checkedAdd nextOutputVersion 1)
      let mapping ← computeVersionMapping needed next
      return nextOutputVersion :: mapping
  | false :: needed, nextOutputVersion => do
      let mapping ← computeVersionMapping needed nextOutputVersion
      return verNdxGlobal :: mapping

/-- `DynamicLayoutExt`, with the place of the records. -/
structure DynamicLayout where
  state : DynamicState
  versionMapping : List UInt16
  isLastVerneed : Bool
  position : ℕ

/-- The parts of `.gnu.version_r`, one behind the other up to its end. -/
def finaliseLayouts (sectionEnd : ℕ) : ℕ → List DynamicState → Except String (List DynamicLayout)
  | _, [] => .ok []
  | offset, state :: states => do
      let offset' := offset + state.gnuVersionR
      let isLast := decide (0 < state.versionCount) && decide (offset' = sectionEnd)
      let mapping ← computeVersionMapping state.symbolVersionsNeeded state.nextGnuVersionRIndex
      let rest ← finaliseLayouts sectionEnd offset' states
      return ⟨state, mapping, isLast, offset⟩ :: rest

/-! ## Writing -/

/-- The rest of a slice of `.dynstr`, and what has been written of it. -/
structure StrTabWriter where
  nextOffset : UInt32
  free : ℕ
  strings : List (UInt32 × Bytes)

/-- `write_str`: the offset of the string -/
def StrTabWriter.writeStr (w : StrTabWriter) (str : Bytes) : Except String (UInt32 × StrTabWriter) :=
  if str.length + 1 ≤ w.free then
    .ok (w.nextOffset, ⟨w.nextOffset + UInt32.ofNat (str.length + 1), w.free - (str.length + 1),
      w.strings ++ [(w.nextOffset, str)]⟩)
  else .error "called unwrap on a None value"

structure NeedsWriter where
  strtab : StrTabWriter
  verNeed : Verneed
  auxIndex : ℕ
  auxes : List Vernaux

def writeVernaux (name : Bytes) (outputVersion : UInt16) (w : NeedsWriter) :
    Except String NeedsWriter := do
  let written ← w.strtab.writeStr name
  let isLastAux := decide (w.auxIndex + 1 = w.auxes.length)
  if w.auxIndex < w.auxes.length then
    return { w with
      strtab := written.2
      auxIndex := w.auxIndex + 1
      auxes := w.auxes.set w.auxIndex
        ⟨sysvHash name, 0, outputVersion, written.1,
          if isLastAux then 0 else UInt32.ofNat vernauxSize⟩ }
  else throw "Insufficient vernaux allocation"

/-- The body of the loop over the definitions. -/
def writeVerdef (libName : Bytes) (versionMapping : List UInt16) (w : NeedsWriter)
    (verdef : Verdef) : Except String NeedsWriter :=
  if verdef.isBase then do
    let written ← w.strtab.writeStr libName
    return { w with strtab := written.2, verNeed := { w.verNeed with file := written.1 } }
  else if verdef.ndx = 0 then .error "Invalid version index"
  else
    let outputVersion := versionMapping[verdef.ndx.toNat - 1]?.getD 0
    if outputVersion ≠ verNdxGlobal then do
      let name ← orError "VERDEF with no AUX entry" verdef.names.head?
      writeVernaux name outputVersion w
    else .ok w

structure VersionNeeds where
  position : ℕ
  verNeed : Verneed
  auxes : List Vernaux

/-- What is written for a shared object: its records, its strings, and the
versions of its symbols that are loaded. -/
structure WrittenVersions where
  input : DynamicInput
  versionCount : UInt16
  versionMapping : List UInt16
  needs : Option VersionNeeds
  strtab : StrTabWriter
  versions : List UInt16

namespace DynamicLayout

variable (layout : DynamicLayout)

/-- The table writer before the loop. -/
def startNeeds (info : VerneedInfo) : NeedsWriter where
  strtab := ⟨layout.state.input.dynstrOffset, layout.state.dynstr + layout.state.input.spare, []⟩
  verNeed :=
    { layout.state.input.oldVerneed with
      version := 1
      cnt := info.versionCount
      aux := UInt32.ofNat verneedSize
      next := if layout.isLastVerneed then 0
        else UInt32.ofNat (verneedSize + vernauxSize * info.versionCount.toNat) }
  auxIndex := 0
  auxes := (List.range info.versionCount.toNat).map layout.state.input.oldVernaux

def writeVersionNeeds : Except String (Option VersionNeeds × StrTabWriter) :=
  match layout.state.verneedInfo with
  | none => .ok (none, ⟨layout.state.input.dynstrOffset,
      layout.state.dynstr + layout.state.input.spare, []⟩)
  | some info => do
      let w ← info.defs.foldlM
        (writeVerdef layout.state.input.object.libName layout.versionMapping)
        (layout.startNeeds info)
      return (some ⟨layout.position, w.verNeed, w.auxes⟩, w.strtab)

def writeDynamicFile : Except String WrittenVersions := do
  let versions ← layout.state.input.referenced.mapM fun i =>
    copySymbolVersion layout.state.input.object.versym i layout.versionMapping
  let needs ← layout.writeVersionNeeds
  return ⟨layout.state.input, layout.state.versionCount, layout.versionMapping, needs.1, needs.2,
    versions⟩

end DynamicLayout

/-- The passes over the shared objects, in their order in the groups, with
`.gnu.version_r` at `offset`. -/
def linkVersions (scriptVersions : UInt16) (offset : ℕ) (inputs : List DynamicInput) :
    Except String (List WrittenVersions) := do
  let states ← inputs.mapM sizeDynamic
  let first ← firstVersionIndex scriptVersions
  let states ← applyNonAddressableIndexes first states
  let sectionEnd := offset + (states.map DynamicState.gnuVersionR).sum
  let layouts ← finaliseLayouts sectionEnd offset states
  layouts.mapM DynamicLayout.writeDynamicFile

/-! ## Agreement -/

namespace WrittenVersions

variable (w : WrittenVersions)

def auxes : List Vernaux := (w.needs.map VersionNeeds.auxes).getD []

/-- The versions other than the base whose index in the output is not the
global one. -/
def mappedVersions : List Verdef :=
  (w.input.object.verdef.getD []).filter fun verdef =>
    !verdef.isBase && w.versionMapping[verdef.ndx.toNat - 1]? != some verNdxGlobal

/-- The entry stands for this version of the shared object. -/
structure IsVernauxOf (verdef : Verdef) (aux : Vernaux) : Prop where
  other : w.versionMapping[verdef.ndx.toNat - 1]? = some aux.other
  name : ∃ name ∈ verdef.names.head?, aux.hash = sysvHash name ∧ (aux.name, name) ∈ w.strtab.strings
  flags : aux.flags = 0

/-- Local and global symbols keep this; others get the index of an entry,
which is that of their version. -/
def IsVersionOf (symbolIndex : ℕ) (version : UInt16) : Prop :=
  let inputVersion := (w.input.object.versym[symbolIndex]?.getD verNdxGlobal) &&& 0x7fff
  if inputVersion ≤ verNdxGlobal then version = inputVersion
  else ∃ entry ∈ w.mappedVersions.zip w.auxes,
    entry.1.ndx = inputVersion ∧ entry.2.other = version

/-- What is written for one shared object agrees with what was allocated. -/
structure Agrees : Prop where
  needs : w.needs.isSome ↔ 0 < w.versionCount
  verneed : ∀ needs ∈ w.needs, needs.verNeed.version = 1 ∧ needs.verNeed.cnt = w.versionCount
    ∧ needs.verNeed.aux.toNat = verneedSize
    ∧ (needs.verNeed.file, w.input.object.libName) ∈ w.strtab.strings
  count : w.auxes.length = w.versionCount.toNat
  auxes : List.Forall₂ w.IsVernauxOf w.mappedVersions w.auxes
  linked : LinkedBy (fun entry => entry.1.next) (fun entry => vernauxSize * entry.2) w.auxes.zipIdx
  strings : w.strtab.free = w.input.spare
  versions : List.Forall₂ w.IsVersionOf w.input.referenced w.versions

end WrittenVersions

/-- The indices that the records of all shared objects give to versions. -/
def outputVersions (written : List WrittenVersions) : List UInt16 :=
  (written.flatMap WrittenVersions.auxes).map Vernaux.other

/-- The link goes through, each shared object agrees, the records of all form
one chain, and no index is given twice or belongs to the version script. -/
def NeedsAgree (scriptVersions : UInt16) (offset : ℕ) (inputs : List DynamicInput) : Prop :=
  ∃ written, linkVersions scriptVersions offset inputs = .ok written
    ∧ written.map WrittenVersions.input = inputs
    ∧ (∀ w ∈ written, w.Agrees)
    ∧ LinkedBy (fun needs => needs.verNeed.next) VersionNeeds.position
        (written.filterMap WrittenVersions.needs)
    ∧ (outputVersions written).Nodup
    ∧ ∀ version ∈ outputVersions written, max 1 scriptVersions < version

end Sld.Dynamic
