/-
# `Dynamic.SymbolSlots` — the slots of symbols in GOT, PLT and relocation tables

Three functions go through the same symbols and read the same flags.

The writer does not look at addresses when it takes a slot, so what it
writes for a symbol is at the address of the symbol only as long as the three
have agreed for all symbols before.
-/
import Sld.Gc.ProcessRelocation
import Sld.Store.SlotTables

namespace Sld.Gc.ValueFlags

def IsTls (flags : ValueFlags) : Prop :=
  .gotTlsOffset ∈ flags ∨ .gotTlsModule ∈ flags ∨ .gotTlsDescriptor ∈ flags

instance (flags : ValueFlags) : Decidable flags.IsTls :=
  inferInstanceAs (Decidable (_ ∨ _ ∨ _))

def HasDynamicSymbol (flags : ValueFlags) : Prop :=
  .dynamic ∈ flags ∨ .exportDynamic ∈ flags ∧ flags.isInterposable = true

instance (flags : ValueFlags) : Decidable flags.HasDynamicSymbol :=
  inferInstanceAs (Decidable (_ ∨ _ ∧ _))

end Sld.Gc.ValueFlags

namespace Sld.Dynamic.SymbolSlots

open Gc (ValueFlags isRelocatable isStaticExecutable)
open Store (SlotTables SlotProgram)
open Store.SlotProgram (one take takeFor fail)

/-! ## Tables -/

inductive Table where
  | got
  | pltGot
  | relaPlt
  | relaDynGeneral
  | relaDynRelative
  | relrDyn
  deriving DecidableEq

/-- The size of a slot, in bytes. -/
def Table.entrySize : Table → ℕ
  | .got | .relrDyn => 8
  | .pltGot => 16
  | .relaPlt | .relaDynGeneral | .relaDynRelative => 24

abbrev gotEntrySize : ℕ := Table.got.entrySize

abbrev pltEntrySize : ℕ := Table.pltGot.entrySize

def isExecutable : OutputKind → Bool
  | .sharedObject | .relocatable => false
  | _ => true

/-! ## Reserving -/

/-- The table for an address that only lacks the base. -/
def relativeTable (relr : Bool) : Table := if relr then .relrDyn else .relaDynRelative

/-- `allocate_resolution`, in slots. -/
def allocateResolution (flags : ValueFlags) (outputKind : OutputKind) (isRelrEnabled : Bool) :
    Table → ℕ :=
  (if .got ∈ flags ∧ ¬ flags.IsTls then
      one Table.got
      + (if .plt ∈ flags then one Table.pltGot else 0)
      + (if .ifunc ∈ flags then one Table.relaPlt
        else if flags.HasDynamicSymbol then one Table.relaDynGeneral
        else if flags.isAddress = true ∧ isRelocatable outputKind = true then
          one (relativeTable isRelrEnabled)
        else 0)
    else 0)
  + (if .ifuncGotForAddress ∈ flags then
      one Table.got + (if isRelocatable outputKind = true then one (relativeTable isRelrEnabled) else 0)
    else 0)
  + (if .gotTlsOffset ∈ flags then
      one Table.got
      + (if flags.isInterposable = true ∨ outputKind = .sharedObject then one Table.relaDynGeneral
        else 0)
    else 0)
  + (if .gotTlsModule ∈ flags then
      one Table.got + one Table.got
      + (if isExecutable outputKind = false ∨ .dynamic ∈ flags then one Table.relaDynGeneral else 0)
      + (if flags.HasDynamicSymbol then one Table.relaDynGeneral else 0)
    else 0)
  + (if .gotTlsDescriptor ∈ flags then one Table.got + one Table.got + one Table.relaDynGeneral else 0)

/-! ## Handing out -/

/-- `memory_offsets`: the next addresses.  None is zero, and GOT entries are aligned. -/
structure Offsets where
  got : ℕ
  plt : ℕ
  got_pos : 0 < got
  plt_pos : 0 < plt
  dvd_got : gotEntrySize ∣ got

structure Resolution where
  rawValue : ℕ
  dynamicSymbolIndex : Option ℕ
  gotAddress : Option ℕ
  pltAddress : Option ℕ
  flags : ValueFlags

def Resolution.address (res : Resolution) : Option ℕ :=
  if res.flags.isAddress = true then some res.rawValue else none

def allocateGot (numEntries : ℕ) (offsets : Offsets) : Offsets :=
  { offsets with
    got := offsets.got + gotEntrySize * numEntries
    got_pos := Nat.add_pos_left offsets.got_pos _
    dvd_got := (Nat.dvd_add_right offsets.dvd_got).mpr (Nat.dvd_mul_right ..) }

def allocatePlt (offsets : Offsets) : Offsets :=
  { offsets with
    plt := offsets.plt + pltEntrySize
    plt_pos := Nat.add_pos_left offsets.plt_pos _ }

/-- Up to three ways to reach a thread-local variable share one run of slots. -/
def numGotSlots (flags : ValueFlags) : ℕ :=
  (if .gotTlsOffset ∈ flags then 1 else 0) + (if .gotTlsModule ∈ flags then 2 else 0)
    + (if .gotTlsDescriptor ∈ flags then 2 else 0)

def createResolution (flags : ValueFlags) (rawValue : ℕ) (dynamicSymbolIndex : Option ℕ)
    (offsets : Offsets) : Resolution × Offsets :=
  if .plt ∈ flags then
    -- an ifunc whose address is taken has a second entry
    (⟨if .dynamic ∈ flags then offsets.plt else rawValue, dynamicSymbolIndex, some offsets.got,
        some offsets.plt, flags⟩,
      allocateGot (if .ifuncGotForAddress ∈ flags then 2 else 1) (allocatePlt offsets))
  else if flags.IsTls then
    (⟨rawValue, dynamicSymbolIndex, some offsets.got, none, flags⟩,
      allocateGot (numGotSlots flags) offsets)
  else if .got ∈ flags then
    (⟨rawValue, dynamicSymbolIndex, some offsets.got, none, flags⟩, allocateGot 1 offsets)
  else (⟨rawValue, dynamicSymbolIndex, none, none, flags⟩, offsets)

/-! ## Writing -/

inductive DynamicRelocationKind where
  | gotEntry
  | irelative
  | dtpMod
  | dtpOff
  | tpOff
  | tlsDesc
  | relative

/-- What a slot is filled with. -/
inductive Entry where
  /-- The writer took the slot and left it as it was. -/
  | untouched
  | word (value : ℕ)
  | stub (gotAddress pltAddress : ℕ)
  | rela (place symbolIndex : ℕ) (kind : DynamicRelocationKind) (addend : ℕ)
  | relr (place : ℕ)

inductive WriteError where
  | insufficientAllocation (table : Table)
  /-- The writer turns the symbol down, whatever room there is. -/
  | refused (message : String)

/-- What the link has settled before tables are written. -/
structure Linking where
  outputKind : OutputKind
  isRelrEnabled : Bool
  tlsStart : ℕ
  tlsEnd : ℕ
  tpOffsetStart : ℕ
  dtvOffset : ℕ

/-- `TableWriter`, without its buffers.  `relrDyn` says that it has one for RELR. -/
structure TableWriter where
  linking : Linking
  relrDyn : Bool

abbrev Program (α : Type) := SlotProgram Table Entry WriteError α

def wrappingSub (a b : ℕ) : ℕ := (a + (2 ^ 64 - b % 2 ^ 64)) % 2 ^ 64

def takeEntry (table : Table) (entry : Entry) : Program Unit :=
  take (.insufficientAllocation table) table entry

/-- `take_next_got_entry`, with the value that is stored through it in the end. -/
def takeNextGotEntry (value : Program Entry) : Program Unit :=
  takeFor (.insufficientAllocation .got) .got .untouched value

def writeRelaDynGeneral (place symbolIndex : ℕ) (kind : DynamicRelocationKind) (addend : ℕ) :
    Program Unit :=
  takeEntry .relaDynGeneral (.rela place symbolIndex kind addend)

/-- `write_address_relocation`: the value for the place itself is returned. -/
def writeAddressRelocation (writer : TableWriter) (place relativeAddress : ℕ) : Program Entry :=
  -- odd places would be bitmaps
  if writer.relrDyn = true ∧ 2 ∣ place then
    takeEntry .relrDyn (.relr place) >>= fun _ => pure (.word relativeAddress)
  else
    takeEntry .relaDynRelative (.rela place 0 .relative relativeAddress) >>= fun _ =>
      pure (.word 0)

/-- A result that is there, or a refusal. -/
def require (message : String) : Option ℕ → Program ℕ
  | some n => pure n
  | none => fail (.refused message)

def processGotTlsOffset (writer : TableWriter) (res : Resolution) (gotAddress : ℕ) : Program Unit :=
  takeNextGotEntry <|
    if res.flags.HasDynamicSymbol then
      require "Missing dynamic_symbol_index" res.dynamicSymbolIndex >>= fun index =>
        writeRelaDynGeneral gotAddress index .tpOff 0 >>= fun _ => pure (.word 0)
    else if res.rawValue = 0 then pure (.word 0)
    else if ¬ (writer.linking.tlsStart ≤ res.rawValue ∧ res.rawValue ≤ writer.linking.tlsEnd) then
      fail (.refused "GotTlsOffset resolves to address not in TLS segment")
    else if isExecutable writer.linking.outputKind = true then
      pure (.word (wrappingSub res.rawValue writer.linking.tpOffsetStart))
    else
      writeRelaDynGeneral gotAddress 0 .tpOff (res.rawValue - writer.linking.tlsStart) >>= fun _ =>
        pure .untouched

def processGotTlsModAndOffset (writer : TableWriter) (res : Resolution) (gotAddress : ℕ) :
    Program Unit :=
  takeNextGotEntry
    (if isExecutable writer.linking.outputKind = true ∧ .dynamic ∉ res.flags then pure (.word 1)
    else
      writeRelaDynGeneral gotAddress (res.dynamicSymbolIndex.getD 0) .dtpMod 0 >>= fun _ =>
        pure (.word 0)) >>= fun _ =>
  takeNextGotEntry
    (match res.dynamicSymbolIndex with
    | some index =>
      (if res.flags.isInterposable = true then
        writeRelaDynGeneral (gotAddress + gotEntrySize) index .dtpOff 0
      else pure ()) >>= fun _ => pure (.word 0)
    | none =>
      require "Expected address" res.address >>= fun address =>
        pure (.word (wrappingSub (wrappingSub address writer.linking.tlsStart)
          writer.linking.dtvOffset)))

def processGotTlsDescriptor (writer : TableWriter) (res : Resolution) (gotAddress : ℕ) :
    Program Unit :=
  takeNextGotEntry (pure (.word 0)) >>= fun _ =>
  takeNextGotEntry (pure (.word 0)) >>= fun _ =>
  if isStaticExecutable writer.linking.outputKind = true then
    fail (.refused "Cannot create dynamic TLSDESC relocation for a static executable")
  else
    writeRelaDynGeneral gotAddress (res.dynamicSymbolIndex.getD 0) .tlsDesc
      (if res.dynamicSymbolIndex = none then wrappingSub res.rawValue writer.linking.tlsStart else 0)

/-- The entry of a symbol that is not thread-local, with its dynamic relocation. -/
def gotEntry (writer : TableWriter) (res : Resolution) (gotAddress : ℕ) : Program Entry :=
  if .dynamic ∈ res.flags
      ∨ (.exportDynamic ∈ res.flags ∧ res.flags.isInterposable = true) ∧ .ifunc ∉ res.flags then
    require "Missing dynamic_symbol_index" res.dynamicSymbolIndex >>= fun index =>
      writeRelaDynGeneral gotAddress index .gotEntry 0 >>= fun _ => pure (.word 0)
  else if .ifunc ∈ res.flags then
    takeEntry .relaPlt (.rela gotAddress 0 .irelative res.rawValue) >>= fun _ => pure (.word 0)
  else if res.flags.isAddress = true ∧ isRelocatable writer.linking.outputKind = true then
    writeAddressRelocation writer gotAddress res.rawValue
  else pure (.word res.rawValue)

def processResolution (writer : TableWriter) (res : Resolution) : Program Unit :=
  match res.gotAddress with
  | none => pure ()
  | some gotAddress =>
    if res.flags.IsTls then
      (if .gotTlsOffset ∈ res.flags then processGotTlsOffset writer res gotAddress
        else pure ()) >>= fun _ =>
      let gotAddress := if .gotTlsOffset ∈ res.flags then gotAddress + gotEntrySize else gotAddress
      (if .gotTlsModule ∈ res.flags then processGotTlsModAndOffset writer res gotAddress
        else pure ()) >>= fun _ =>
      let gotAddress :=
        if .gotTlsModule ∈ res.flags then gotAddress + 2 * gotEntrySize else gotAddress
      if .gotTlsDescriptor ∈ res.flags then processGotTlsDescriptor writer res gotAddress
      else pure ()
    else
      takeNextGotEntry (gotEntry writer res gotAddress) >>= fun _ =>
      (match res.pltAddress with
      | some pltAddress => takeEntry .pltGot (.stub gotAddress pltAddress)
      | none => pure ()) >>= fun _ =>
      if .ifuncGotForAddress ∈ res.flags then
        -- every reference to the ifunc is to see the same address, that of its stub
        takeNextGotEntry (require "Missing PLT address" res.pltAddress >>= fun pltAddress =>
          if isRelocatable writer.linking.outputKind = true then
            writeAddressRelocation writer (gotAddress + gotEntrySize) pltAddress
          else pure (.word pltAddress))
      else pure ()

/-! ## The symbols of a group -/

/-- A symbol, as it stands when its resolution is made. -/
structure Symbol where
  flags : ValueFlags
  rawValue : ℕ
  dynamicSymbolIndex : Option ℕ

def Symbol.resolve (symbol : Symbol) (offsets : Offsets) : Resolution × Offsets :=
  createResolution symbol.flags symbol.rawValue symbol.dynamicSymbolIndex offsets

/-- The addresses left after some symbols. -/
def handOut (offsets : Offsets) (symbols : List Symbol) : Offsets :=
  symbols.foldl (fun offsets symbol => (symbol.resolve offsets).2) offsets

def resolutions : Offsets → List Symbol → List Resolution
  | _, [] => []
  | offsets, symbol :: rest =>
    (symbol.resolve offsets).1 :: resolutions (symbol.resolve offsets).2 rest

/-- The slots that are reserved for some symbols. -/
def allocated (linking : Linking) (symbols : List Symbol) : Table → ℕ :=
  (symbols.map fun symbol =>
    allocateResolution symbol.flags linking.outputKind linking.isRelrEnabled).sum

/-- The bytes of the tables. -/
def memSizes (linking : Linking) (symbols : List Symbol) (table : Table) : ℕ :=
  table.entrySize * allocated linking symbols table

/-- `TableWriter::new`: an empty buffer for RELR is as none. -/
def tableWriter (linking : Linking) (symbols : List Symbol) : TableWriter :=
  ⟨linking, linking.isRelrEnabled && memSizes linking symbols .relrDyn != 0⟩

/-- The tables of the group, cut into slots. -/
def tables (linking : Linking) (symbols : List Symbol) : SlotTables Table Entry :=
  ⟨fun table => memSizes linking symbols table / table.entrySize, fun _ => []⟩

/-- The symbols are written in their order, `symbols` being those that the tables are for. -/
def writeSymbols (linking : Linking) (symbols : List Symbol) (offsets : Offsets)
    (written : List Symbol) : Except WriteError (Unit × SlotTables Table Entry) :=
  Store.SlotProgram.inTurn (processResolution (tableWriter linking symbols))
    (resolutions offsets written) (tables linking symbols)

end Sld.Dynamic.SymbolSlots
