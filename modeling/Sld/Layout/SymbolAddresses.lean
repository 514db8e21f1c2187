/-
# `Layout.SymbolAddresses` — addresses before and after relaxation

A relaxation pass judges distances by addresses that are computed ahead of
the layout: one walk over the files of a group for the sections, and the
symbols at their places in them.  The walk that finally lays the group out
also makes room for common symbols, thunks and the entries of tables, and
for files that are no objects; and it moves a symbol by what was deleted
before it.

What a resolution takes in the tables of the output is data of its symbol,
and what the files that are no objects take is all there is to them.
-/
import Mathlib.Tactic.Abel
import Sld.Layout.OutputSections
import Sld.Layout.RelaxDeltas

namespace Sld.Addresses

open Layout

/-! ## Groups -/

abbrev Offsets := PartId → ℕ

structure Section where
  size : ℕ
  extraCapacity : ℕ

inductive SectionSlot where
  | loaded (sec : Section)
  | loadedDebugInfo (sec : Section)
  | frameData
  | other

structure SymtabEntry where
  /-- `symbol_section` -/
  sectionIndex : Option ℕ
  value : ℕ
  isAbsolute : Bool
  /-- `as_common`: where the symbol is allocated, and its size. -/
  common : Option (PartId × ℕ)
  isCanonical : Bool
  /-- `has_resolution` -/
  hasResolution : Bool
  /-- `get_merged_string_output_address` -/
  mergedStringAddress : Option ℕ
  /-- What `take_dynsym_index` and `create_resolution` take. -/
  entrySizes : Offsets

structure ObjectLayoutState where
  sections : List (SectionSlot × PartId)
  symbols : List SymtabEntry
  sectionRelaxDeltas : ℕ → Option SectionRelaxDeltas
  ehFrameSize : ℕ
  /-- What `assign_thunk_block_addresses` takes for the blocks that the object owns. -/
  thunkSizes : Offsets

inductive FileLayoutState where
  | object (obj : ObjectLayoutState)
  | other (sizes : Offsets)

/-- What a walk finds out about an object. -/
structure ObjectAddresses (α : Type) where
  sections : List α
  symbols : List (Option ℕ)

section

variable (outputSections : OutputSections)

def Section.capacity (sec : Section) (partId : PartId) : ℕ :=
  if partId.shouldPack then sec.size
  else (outputSections.partAlignment partId).alignUp sec.size + sec.extraCapacity

def increment (offsets : Offsets) (partId : PartId) (size : ℕ) : Offsets :=
  Function.update offsets partId (offsets partId + size)

/-! ## The walk ahead of a pass -/

/-- The addresses of sections; sections that are not loaded have none, which is 0. -/
def computeSections : List (SectionSlot × PartId) → Offsets → List ℕ × Offsets
  | [], offsets => ([], offsets)
  | (.loaded sec, partId) :: slots, offsets =>
    let rest := computeSections slots
      (increment offsets partId (sec.capacity outputSections partId))
    (offsets partId :: rest.1, rest.2)
  | (.loadedDebugInfo sec, partId) :: slots, offsets =>
    let rest := computeSections slots
      (increment offsets partId (sec.capacity outputSections partId))
    (0 :: rest.1, rest.2)
  | (_, _) :: slots, offsets =>
    let rest := computeSections slots offsets
    (0 :: rest.1, rest.2)

/-- The address of a symbol, if it is canonical and its section has one. -/
def computeSymbol (addresses : List ℕ) (sym : SymtabEntry) : Option ℕ :=
  if sym.isCanonical then
    match sym.sectionIndex with
    | some sectionIndex =>
      let sectionAddress := addresses.getD sectionIndex 0
      if sectionAddress = 0 then none else some (sectionAddress + sym.value)
    | none => if sym.isAbsolute then some sym.value else none
  else none

/-- `compute_section_and_symbol_addresses`, for the files of one group. -/
def computeSectionAndSymbolAddresses (offsets : Offsets) :
    List FileLayoutState → List (ObjectAddresses ℕ)
  | [] => []
  | .object obj :: files =>
    let sections := computeSections outputSections obj.sections offsets
    ⟨sections.1, obj.symbols.map (computeSymbol sections.1)⟩ ::
      computeSectionAndSymbolAddresses (increment sections.2 ehFrame obj.ehFrameSize) files
  | .other _ :: files => ⟨[], []⟩ :: computeSectionAndSymbolAddresses offsets files

/-! ## The final walk -/

def finaliseSections : List (SectionSlot × PartId) → Offsets → List (Option ℕ) × Offsets
  | [], offsets => ([], offsets)
  | (.loaded sec, partId) :: slots, offsets | (.loadedDebugInfo sec, partId) :: slots, offsets =>
    let rest := finaliseSections slots
      (increment offsets partId (sec.capacity outputSections partId))
    (some (offsets partId) :: rest.1, rest.2)
  | (.frameData, _) :: slots, offsets =>
    let rest := finaliseSections slots offsets
    (some (offsets ehFrame) :: rest.1, rest.2)
  | (.other, _) :: slots, offsets =>
    let rest := finaliseSections slots offsets
    (none :: rest.1, rest.2)

def optInputToOutput (deltas : Option SectionRelaxDeltas) (inputOffset : ℕ) : ℕ :=
  match deltas with
  | some deltas => deltas.inputToOutputOffset inputOffset
  | none => inputOffset

/-- `create_symbol_resolution`: the address of a symbol, and the offsets
after it and its entries. -/
def createSymbolResolution (relaxDeltas : ℕ → Option SectionRelaxDeltas)
    (resolutions : List (Option ℕ)) (sym : SymtabEntry) (offsets : Offsets) :
    Option ℕ × Offsets :=
  if !sym.hasResolution || !sym.isCanonical then (none, offsets)
  else
    match sym.sectionIndex, sym.common with
    | some sectionIndex, _ =>
      match resolutions.getD sectionIndex none with
      | some sectionAddress =>
        (some (optInputToOutput (relaxDeltas sectionIndex) sym.value + sectionAddress),
          offsets + sym.entrySizes)
      | none =>
        -- A mapping symbol is left alone; for other symbols this is an error.
        if sym.mergedStringAddress.isNone then (none, offsets)
        else (sym.mergedStringAddress, offsets + sym.entrySizes)
    | none, some (partId, size) =>
      (some (offsets partId), increment offsets partId size + sym.entrySizes)
    | none, none => (some sym.value, offsets + sym.entrySizes)

def finaliseSymbols (relaxDeltas : ℕ → Option SectionRelaxDeltas)
    (resolutions : List (Option ℕ)) : List SymtabEntry → Offsets → List (Option ℕ) × Offsets
  | [], offsets => ([], offsets)
  | sym :: symbols, offsets =>
    let resolution := createSymbolResolution relaxDeltas resolutions sym offsets
    let rest := finaliseSymbols relaxDeltas resolutions symbols resolution.2
    (resolution.1 :: rest.1, rest.2)

/-- `finalise_layout`, for the files of one group. -/
def finaliseLayout (offsets : Offsets) :
    List FileLayoutState → List (ObjectAddresses (Option ℕ))
  | [] => []
  | .object obj :: files =>
    let sections := finaliseSections outputSections obj.sections offsets
    let symbols := finaliseSymbols obj.sectionRelaxDeltas sections.1 obj.symbols sections.2
    ⟨sections.1, symbols.1⟩ ::
      finaliseLayout (increment symbols.2 ehFrame obj.ehFrameSize + obj.thunkSizes) files
  | .other sizes :: files => ⟨[], []⟩ :: finaliseLayout (offsets + sizes) files

/-! ## Passes -/

/-- A pass takes what it newly deletes from one loaded section out of its
size, and merges it into what was deleted before. -/
def ObjectLayoutState.deleteFrom (obj : ObjectLayoutState) (sectionIndex : ℕ)
    (rawDeltas : List (ℕ × ℕ)) : ObjectLayoutState :=
  match obj.sections[sectionIndex]?, rawDeltas with
  | _, [] => obj
  | some (.loaded sec, partId), _ =>
    let size := sec.size - (rawDeltas.map Prod.snd).sum
    { obj with
      sections := obj.sections.set sectionIndex (.loaded { sec with size }, partId)
      sectionRelaxDeltas := Function.update obj.sectionRelaxDeltas sectionIndex <| some
        (match obj.sectionRelaxDeltas sectionIndex with
        | some existing => existing.mergeAdditional rawDeltas
        | none => .new rawDeltas) }
  | _, _ => obj

/-- Sections without an address are not scanned. -/
def ObjectLayoutState.scan (collect : ℕ → ℕ → List (ℕ × ℕ)) (addresses : List ℕ)
    (obj : ObjectLayoutState) : ObjectLayoutState :=
  (List.range obj.sections.length).foldl
    (fun obj sectionIndex =>
      let sectionOutputAddress := addresses.getD sectionIndex 0
      if sectionOutputAddress = 0 then obj
      else obj.deleteFrom sectionIndex (collect sectionIndex sectionOutputAddress))
    obj

/-- What a pass starts from: where the parts of the group start, and what it
would delete from a section of a file at an address. -/
structure Pass where
  startingOffsets : Offsets
  collectRelaxationDeltas : ℕ → ℕ → ℕ → List (ℕ × ℕ)

/-- `relaxation_scan_pass`, for one group. -/
def relaxationScanPass (files : List FileLayoutState) (pass : Pass) : List FileLayoutState :=
  let addresses := computeSectionAndSymbolAddresses outputSections pass.startingOffsets files
  (files.zip addresses).mapIdx fun fileIndex file =>
    match file with
    | (.object obj, addresses) =>
      .object (obj.scan (pass.collectRelaxationDeltas fileIndex) addresses.sections)
    | (.other sizes, _) => .other sizes

/-- The group after some passes. -/
def afterPasses (files : List FileLayoutState) (passes : List Pass) : List FileLayoutState :=
  passes.foldl (relaxationScanPass outputSections) files

/-! ## Room -/

/-- What both walks make room for. -/
def SectionSlot.room (slot : SectionSlot × PartId) : Offsets :=
  match slot with
  | (.loaded sec, partId) | (.loadedDebugInfo sec, partId) =>
    Pi.single partId (sec.capacity outputSections partId)
  | _ => 0

def slotsRoom (slots : List (SectionSlot × PartId)) : Offsets :=
  (slots.map (SectionSlot.room outputSections)).sum

def FileLayoutState.room : FileLayoutState → Offsets
  | .object obj => slotsRoom outputSections obj.sections + Pi.single ehFrame obj.ehFrameSize
  | .other _ => 0

/-- What is before a section of a file, as both walks see it. -/
def roomBefore (files : List FileLayoutState) (fileIndex : ℕ) : Offsets :=
  ((files.take fileIndex).map (FileLayoutState.room outputSections)).sum

def SectionSlot.hasAddress : SectionSlot → Bool
  | .other => false
  | _ => true

/-- What the resolution of a symbol takes. -/
def SymtabEntry.sizes (sections : List (SectionSlot × PartId)) (sym : SymtabEntry) : Offsets :=
  if !sym.hasResolution || !sym.isCanonical then 0
  else
    match sym.sectionIndex, sym.common with
    | some sectionIndex, _ =>
      if (sections[sectionIndex]?.any fun slot => slot.1.hasAddress) ||
          sym.mergedStringAddress.isSome then sym.entrySizes
      else 0
    | none, some (partId, size) => Pi.single partId size + sym.entrySizes
    | none, none => sym.entrySizes

/-- What only the final walk makes room for. -/
def FileLayoutState.taken : FileLayoutState → Offsets
  | .object obj => (obj.symbols.map (SymtabEntry.sizes obj.sections)).sum + obj.thunkSizes
  | .other sizes => sizes

/-- What the files before one of a group take, besides their sections. -/
def takenBefore (files : List FileLayoutState) (fileIndex : ℕ) : Offsets :=
  ((files.take fileIndex).map FileLayoutState.taken).sum

theorem increment_eq (offsets : Offsets) (partId : PartId) (size : ℕ) :
    increment offsets partId size = offsets + Pi.single partId size := by
  funext other
  by_cases h : other = partId
  · subst h
    simp [increment]
  · simp [increment, h]

/-! ## Where the walks put a section -/

@[simp] theorem slotsRoom_nil : slotsRoom outputSections [] = 0 := rfl

@[simp] theorem slotsRoom_cons (slot : SectionSlot × PartId) (slots : List (SectionSlot × PartId)) :
    slotsRoom outputSections (slot :: slots) =
      SectionSlot.room outputSections slot + slotsRoom outputSections slots := by
  simp [slotsRoom]

theorem computeSections_offsets (slots : List (SectionSlot × PartId)) (offsets : Offsets) :
    (computeSections outputSections slots offsets).2 =
      offsets + slotsRoom outputSections slots := by
  induction slots generalizing offsets with
  | nil => simp [computeSections]
  | cons slot slots ih =>
    obtain ⟨slot, partId⟩ := slot
    cases slot <;> simp [computeSections, ih, increment_eq, SectionSlot.room, add_assoc]

theorem finaliseSections_offsets (slots : List (SectionSlot × PartId)) (offsets : Offsets) :
    (finaliseSections outputSections slots offsets).2 =
      offsets + slotsRoom outputSections slots := by
  induction slots generalizing offsets with
  | nil => simp [finaliseSections]
  | cons slot slots ih =>
    obtain ⟨slot, partId⟩ := slot
    cases slot <;> simp [finaliseSections, ih, increment_eq, SectionSlot.room, add_assoc]

variable {partId : PartId} {sec : Section} {sectionIndex : ℕ} {slots : List (SectionSlot × PartId)}

theorem sections_loaded (h : slots[sectionIndex]? = some (.loaded sec, partId))
    (offsets : Offsets) :
    let address := (offsets + slotsRoom outputSections (slots.take sectionIndex)) partId
    (computeSections outputSections slots offsets).1[sectionIndex]? = some address ∧
      (finaliseSections outputSections slots offsets).1[sectionIndex]? = some (some address) := by
  induction slots generalizing offsets sectionIndex with
  | nil => simp at h
  | cons slot slots ih =>
    cases sectionIndex with
    | zero =>
      obtain rfl : slot = (.loaded sec, partId) := by simpa using h
      simp [computeSections, finaliseSections]
    | succ sectionIndex =>
      have hslot : slots[sectionIndex]? = some (.loaded sec, partId) := by simpa using h
      obtain ⟨slot, slotPart⟩ := slot
      cases slot <;> simp [computeSections, finaliseSections, ih hslot, increment_eq,
        SectionSlot.room, add_assoc]

theorem isSome_finaliseSections (slots : List (SectionSlot × PartId)) (offsets : Offsets)
    (sectionIndex : ℕ) :
    ((finaliseSections outputSections slots offsets).1[sectionIndex]?.getD none).isSome =
      slots[sectionIndex]?.any fun slot => slot.1.hasAddress := by
  induction slots generalizing offsets sectionIndex with
  | nil => simp [finaliseSections]
  | cons slot slots ih =>
    obtain ⟨slot, partId⟩ := slot
    cases sectionIndex with
    | zero => cases slot <;> simp [finaliseSections, SectionSlot.hasAddress]
    | succ sectionIndex =>
      cases slot <;> simpa [finaliseSections] using ih _ sectionIndex

/-! ## Where the final walk puts a symbol -/

section

variable (relaxDeltas : ℕ → Option SectionRelaxDeltas) {resolutions : List (Option ℕ)}

variable {sections : List (SectionSlot × PartId)}

theorem createSymbolResolution_offsets
    (hresolutions : ∀ sectionIndex : ℕ, (resolutions[sectionIndex]?.getD none).isSome =
      sections[sectionIndex]?.any fun slot => slot.1.hasAddress)
    (sym : SymtabEntry) (offsets : Offsets) :
    (createSymbolResolution relaxDeltas resolutions sym offsets).2 =
      offsets + sym.sizes sections := by
  by_cases hskip : (!sym.hasResolution || !sym.isCanonical) = true
  · simp [createSymbolResolution, SymtabEntry.sizes, hskip]
  · rcases hsec : sym.sectionIndex with _ | sectionIndex
    · rcases hcommon : sym.common with _ | ⟨partId, size⟩ <;>
        simp [createSymbolResolution, SymtabEntry.sizes, hskip, hsec, hcommon, increment_eq,
          add_assoc]
    · have hsome := hresolutions sectionIndex
      rcases haddr : resolutions[sectionIndex]?.getD none with _ | address <;>
        rcases hmerged : sym.mergedStringAddress with _ | merged <;>
        simp [createSymbolResolution, SymtabEntry.sizes, hskip, hsec, haddr, hmerged, ← hsome]

theorem finaliseSymbols_offsets
    (hresolutions : ∀ sectionIndex : ℕ, (resolutions[sectionIndex]?.getD none).isSome =
      sections[sectionIndex]?.any fun slot => slot.1.hasAddress)
    (symbols : List SymtabEntry) (offsets : Offsets) :
    (finaliseSymbols relaxDeltas resolutions symbols offsets).2 =
      offsets + (symbols.map (SymtabEntry.sizes sections)).sum := by
  induction symbols generalizing offsets with
  | nil => simp [finaliseSymbols]
  | cons sym symbols ih =>
    simp [finaliseSymbols, ih, createSymbolResolution_offsets relaxDeltas hresolutions, add_assoc]

theorem finaliseSymbols_loaded {symbols : List SymtabEntry} {symbolIndex sectionIndex : ℕ}
    {sym : SymtabEntry} {address : ℕ} (hsym : symbols[symbolIndex]? = some sym)
    (hresolution : sym.hasResolution = true) (hcanon : sym.isCanonical = true)
    (hsec : sym.sectionIndex = some sectionIndex)
    (haddr : resolutions[sectionIndex]? = some (some address)) (offsets : Offsets) :
    (finaliseSymbols relaxDeltas resolutions symbols offsets).1[symbolIndex]? =
      some (some (optInputToOutput (relaxDeltas sectionIndex) sym.value + address)) := by
  induction symbols generalizing offsets symbolIndex with
  | nil => simp at hsym
  | cons head symbols ih =>
    cases symbolIndex with
    | zero =>
      obtain rfl : head = sym := by simpa using hsym
      simp [finaliseSymbols, createSymbolResolution, hresolution, hcanon, hsec, haddr]
    | succ symbolIndex =>
      have hsym' : symbols[symbolIndex]? = some sym := by simpa using hsym
      simpa [finaliseSymbols] using ih hsym' _

end

/-! ## Where the walks start a file -/

@[simp] theorem roomBefore_cons (file : FileLayoutState) (files : List FileLayoutState)
    (fileIndex : ℕ) :
    roomBefore outputSections (file :: files) (fileIndex + 1) =
      file.room outputSections + roomBefore outputSections files fileIndex := by
  simp [roomBefore]

@[simp] theorem takenBefore_cons (file : FileLayoutState) (files : List FileLayoutState)
    (fileIndex : ℕ) :
    takenBefore (file :: files) (fileIndex + 1) = file.taken + takenBefore files fileIndex := by
  simp [takenBefore]

/-- What the walk ahead of a pass finds for an object that starts at some offsets. -/
def computedFrom (obj : ObjectLayoutState) (offsets : Offsets) : ObjectAddresses ℕ :=
  let sections := computeSections outputSections obj.sections offsets
  ⟨sections.1, obj.symbols.map (computeSymbol sections.1)⟩

/-- What the final walk finds for an object that starts at some offsets. -/
def finalisedFrom (obj : ObjectLayoutState) (offsets : Offsets) : ObjectAddresses (Option ℕ) :=
  let sections := finaliseSections outputSections obj.sections offsets
  ⟨sections.1,
    (finaliseSymbols obj.sectionRelaxDeltas sections.1 obj.symbols sections.2).1⟩

variable {fileIndex : ℕ} {files : List FileLayoutState} {obj : ObjectLayoutState}

theorem compute_object (h : files[fileIndex]? = some (.object obj)) (offsets : Offsets) :
    (computeSectionAndSymbolAddresses outputSections offsets files)[fileIndex]? =
      some (computedFrom outputSections obj
        (offsets + roomBefore outputSections files fileIndex)) := by
  induction files generalizing offsets fileIndex with
  | nil => simp at h
  | cons file files ih =>
    cases fileIndex with
    | zero =>
      obtain rfl : file = .object obj := by simpa using h
      simp [computeSectionAndSymbolAddresses, computedFrom, roomBefore]
    | succ fileIndex =>
      have hfile : files[fileIndex]? = some (.object obj) := by simpa using h
      cases file <;> simp [computeSectionAndSymbolAddresses, ih hfile, computeSections_offsets,
          increment_eq, FileLayoutState.room, add_assoc]

theorem finalise_object (h : files[fileIndex]? = some (.object obj)) (offsets : Offsets) :
    (finaliseLayout outputSections offsets files)[fileIndex]? =
      some (finalisedFrom outputSections obj
        (offsets + roomBefore outputSections files fileIndex + takenBefore files fileIndex)) := by
  induction files generalizing offsets fileIndex with
  | nil => simp at h
  | cons file files ih =>
    cases fileIndex with
    | zero =>
      obtain rfl : file = .object obj := by simpa using h
      simp [finaliseLayout, finalisedFrom, roomBefore, takenBefore]
    | succ fileIndex =>
      have hfile : files[fileIndex]? = some (.object obj) := by simpa using h
      cases file with
      | object head =>
        have hsyms := finaliseSymbols_offsets head.sectionRelaxDeltas
          (isSome_finaliseSections outputSections head.sections offsets) head.symbols
        simp only [finaliseLayout, List.getElem?_cons_succ, ih hfile, hsyms,
          finaliseSections_offsets, increment_eq, roomBefore_cons, takenBefore_cons,
          FileLayoutState.room, FileLayoutState.taken]
        congr 2
        abel
      | other sizes =>
        simp only [finaliseLayout, List.getElem?_cons_succ, ih hfile, roomBefore_cons,
          takenBefore_cons, FileLayoutState.room, FileLayoutState.taken]
        congr 2
        abel

/-! ## When the walks agree -/

/-- A symbol that the final walk gives an address in a loaded section. -/
structure DefinedIn (obj : ObjectLayoutState) (sym : SymtabEntry) (sectionIndex : ℕ)
    (sec : Section) (partId : PartId) : Prop where
  hasResolution : sym.hasResolution = true
  isCanonical : sym.isCanonical = true
  symbolSection : sym.sectionIndex = some sectionIndex
  loaded : obj.sections[sectionIndex]? = some (.loaded sec, partId)

/-- The walks give every loaded section the same address, and every symbol
that is defined in one. -/
def AddressesAgree (offsets : Offsets) (files : List FileLayoutState) : Prop :=
  ∀ (fileIndex : ℕ) obj computed finalised, files[fileIndex]? = some (.object obj) →
    (computeSectionAndSymbolAddresses outputSections offsets files)[fileIndex]? = some computed →
    (finaliseLayout outputSections offsets files)[fileIndex]? = some finalised →
    (∀ (sectionIndex : ℕ) sec partId, obj.sections[sectionIndex]? = some (.loaded sec, partId) →
      finalised.sections[sectionIndex]? = computed.sections[sectionIndex]?.map some) ∧
    ∀ (symbolIndex : ℕ) sym sectionIndex sec partId, obj.symbols[symbolIndex]? = some sym →
      DefinedIn obj sym sectionIndex sec partId →
      finalised.symbols[symbolIndex]? = computed.symbols[symbolIndex]?

/-- How much is deleted before an offset of a section. -/
def deletedAhead (deltas : Option SectionRelaxDeltas) (inputOffset : ℕ) : ℕ :=
  (deltas.map fun deltas => deltas.cumulativeAt inputOffset).getD 0

/-- The final walk makes room for nothing in front of a loaded section that
the other does not; and a symbol that is defined in one has nothing deleted
in front of it, in a section that is not at address 0. -/
structure WalksMatch (offsets : Offsets) (files : List FileLayoutState) : Prop where
  nothingTaken : ∀ (fileIndex : ℕ) obj (sectionIndex : ℕ) sec partId,
    files[fileIndex]? = some (.object obj) →
    obj.sections[sectionIndex]? = some (.loaded sec, partId) →
    takenBefore files fileIndex partId = 0
  addressed : ∀ (fileIndex : ℕ) obj (symbolIndex : ℕ) sym sectionIndex sec partId,
    files[fileIndex]? = some (.object obj) → obj.symbols[symbolIndex]? = some sym →
    DefinedIn obj sym sectionIndex sec partId →
    (offsets + roomBefore outputSections files fileIndex +
      slotsRoom outputSections (obj.sections.take sectionIndex)) partId ≠ 0
  nothingDeleted : ∀ (fileIndex : ℕ) obj (symbolIndex : ℕ) sym sectionIndex sec partId,
    files[fileIndex]? = some (.object obj) → obj.symbols[symbolIndex]? = some sym →
    DefinedIn obj sym sectionIndex sec partId →
    deletedAhead (obj.sectionRelaxDeltas sectionIndex) sym.value = 0

theorem optInputToOutput_eq (deltas : Option SectionRelaxDeltas) (inputOffset : ℕ) :
    optInputToOutput deltas inputOffset = inputOffset - deletedAhead deltas inputOffset := by
  cases deltas with
  | none => rfl
  | some deltas => rfl

theorem deletedAhead_zero (deltas : Option SectionRelaxDeltas) : deletedAhead deltas 0 = 0 := by
  cases deltas with
  | none => rfl
  | some deltas =>
    have hpartition : deltas.partitionPoint 0 = 0 := by
      rcases hdeltas : deltas.deltas with _ | ⟨delta, rest⟩ <;>
        simp [SectionRelaxDeltas.partitionPoint, hdeltas]
    simp [deletedAhead, SectionRelaxDeltas.cumulativeAt, hpartition]

theorem optInputToOutput_eq_self_iff (deltas : Option SectionRelaxDeltas) (inputOffset : ℕ) :
    optInputToOutput deltas inputOffset = inputOffset ↔ deletedAhead deltas inputOffset = 0 := by
  rw [optInputToOutput_eq]
  rcases Nat.eq_zero_or_pos inputOffset with rfl | hpos
  · simp [deletedAhead_zero]
  · omega

section

variable {outputSections} {obj : ObjectLayoutState} {sectionIndex : ℕ} {sec : Section}
  {partId : PartId}

theorem section_agrees_iff (hslot : obj.sections[sectionIndex]? = some (.loaded sec, partId))
    (start taken : Offsets) :
    (finalisedFrom outputSections obj (start + taken)).sections[sectionIndex]? =
        (computedFrom outputSections obj start).sections[sectionIndex]?.map some ↔
      taken partId = 0 := by
  have hcomputed := (sections_loaded outputSections hslot start).1
  have hfinalised := (sections_loaded outputSections hslot (start + taken)).2
  simp only [finalisedFrom, computedFrom, hcomputed, hfinalised, Option.map_some,
    Option.some.injEq, Pi.add_apply]
  omega

theorem symbol_agrees_iff {symbolIndex : ℕ} {sym : SymtabEntry}
    (hsym : obj.symbols[symbolIndex]? = some sym)
    (hdef : DefinedIn obj sym sectionIndex sec partId) (start taken : Offsets)
    (htaken : taken partId = 0) :
    (finalisedFrom outputSections obj (start + taken)).symbols[symbolIndex]? =
        (computedFrom outputSections obj start).symbols[symbolIndex]? ↔
      (start + slotsRoom outputSections (obj.sections.take sectionIndex)) partId ≠ 0 ∧
        deletedAhead (obj.sectionRelaxDeltas sectionIndex) sym.value = 0 := by
  have hcomputed := (sections_loaded outputSections hdef.loaded start).1
  have hfinalised := (sections_loaded outputSections hdef.loaded (start + taken)).2
  have hsymbol := finaliseSymbols_loaded obj.sectionRelaxDeltas hsym hdef.hasResolution
    hdef.isCanonical hdef.symbolSection hfinalised
    (finaliseSections outputSections obj.sections (start + taken)).2
  have hmoved := optInputToOutput_eq_self_iff (obj.sectionRelaxDeltas sectionIndex) sym.value
  simp only [finalisedFrom, computedFrom, hsymbol, List.getElem?_map, hsym, Option.map_some,
    Option.some.injEq, computeSymbol, hdef.isCanonical, hdef.symbolSection,
    List.getD_eq_getElem?_getD, hcomputed, Option.getD_some, if_true]
  simp only [Pi.add_apply, htaken, ← hmoved]
  split_ifs with hzero
  · simp [hzero]
  · simp only [Option.some.injEq]
    omega

end

theorem addressesAgree_iff (offsets : Offsets) (files : List FileLayoutState) :
    AddressesAgree outputSections offsets files ↔ WalksMatch outputSections offsets files := by
  constructor
  · intro hagree
    have hobject {fileIndex : ℕ} {obj : ObjectLayoutState}
        (hfile : files[fileIndex]? = some (.object obj)) :=
      hagree fileIndex obj _ _ hfile (compute_object outputSections hfile offsets)
        (finalise_object outputSections hfile offsets)
    have htaken : ∀ (fileIndex : ℕ) obj (sectionIndex : ℕ) sec partId,
        files[fileIndex]? = some (.object obj) →
        obj.sections[sectionIndex]? = some (.loaded sec, partId) →
        takenBefore files fileIndex partId = 0 := by
      intro fileIndex obj sectionIndex sec partId hfile hslot
      exact (section_agrees_iff hslot _ _).1 ((hobject hfile).1 sectionIndex sec partId hslot)
    have hsyms {fileIndex symbolIndex sectionIndex : ℕ} {obj : ObjectLayoutState}
        {sym : SymtabEntry} {sec : Section} {partId : PartId}
        (hfile : files[fileIndex]? = some (.object obj))
        (hsym : obj.symbols[symbolIndex]? = some sym)
        (hdef : DefinedIn obj sym sectionIndex sec partId) :=
      (symbol_agrees_iff hsym hdef _ _
        (htaken fileIndex obj sectionIndex sec partId hfile hdef.loaded)).1
        ((hobject hfile).2 symbolIndex sym sectionIndex sec partId hsym hdef)
    exact {
      nothingTaken := htaken
      addressed := fun _ _ _ _ _ _ _ hfile hsym hdef => (hsyms hfile hsym hdef).1
      nothingDeleted := fun _ _ _ _ _ _ _ hfile hsym hdef =>
        (hsyms hfile hsym hdef).2 }
  · intro hmatch fileIndex obj computed finalised hfile hcomputed hfinalised
    cases hcomputed.symm.trans (compute_object _ hfile offsets)
    cases hfinalised.symm.trans (finalise_object _ hfile offsets)
    constructor
    · intro sectionIndex sec partId hslot
      exact (section_agrees_iff hslot _ _).2
        (hmatch.nothingTaken fileIndex obj sectionIndex sec partId hfile hslot)
    · intro symbolIndex sym sectionIndex sec partId hsym hdef
      exact (symbol_agrees_iff hsym hdef _ _
        (hmatch.nothingTaken fileIndex obj sectionIndex sec partId hfile hdef.loaded)).2
        ⟨hmatch.addressed fileIndex obj symbolIndex sym sectionIndex sec partId hfile hsym hdef,
          hmatch.nothingDeleted fileIndex obj symbolIndex sym sectionIndex sec partId hfile hsym
            hdef⟩

/-- What a pass is told about the group that the passes before it left are
the addresses that the final walk would give it, exactly when the walks match. -/
theorem addresses_agree_iff (files : List FileLayoutState) (passes : List Pass)
    (offsets : Offsets) :
    AddressesAgree outputSections offsets (afterPasses outputSections files passes) ↔
      WalksMatch outputSections offsets (afterPasses outputSections files passes) :=
  addressesAgree_iff outputSections offsets (afterPasses outputSections files passes)

end

/-! ## A symbol behind a deletion -/

/-- Sections without a minimum alignment. -/
def plainSections : OutputSections where
  baseAddress := 0
  outputInfo _ :=
    ⟨.primary, ⟨⟨true, false, true, false⟩, .other⟩, 0, none, none⟩
  optBuiltInDetails _ := none

/-- `_start: call f; f: ret; call g` in `.init`, and `g`, four bytes too far for a `jal`. -/
def callBeforeTarget : ObjectLayoutState where
  sections := [(.loaded ⟨1048592, 0⟩, init.basePartId)]
  symbols := [⟨some 0, 8, false, none, true, true, none, 0⟩,
    ⟨some 0, 1048590, false, none, true, true, none, 0⟩]
  sectionRelaxDeltas _ := none
  ehFrameSize := 0
  thunkSizes := 0

/-- The call is shortened, so that `f` is at 4 in the output, and the next
pass is told that it is at 8. -/
theorem target_is_behind_its_address :
    ¬ AddressesAgree plainSections (fun _ => 4096)
      (afterPasses plainSections [.object callBeforeTarget]
        [⟨fun _ => 4096, fun _ _ _ => [(4, 4)]⟩]) := by
  intro hagree
  have h := ((addressesAgree_iff _ _ _).1 hagree).nothingDeleted 0 _ 0 _ 0 _ _ rfl rfl
    ⟨rfl, rfl, rfl, rfl⟩
  exact absurd h (by decide +kernel)

end Sld.Addresses
