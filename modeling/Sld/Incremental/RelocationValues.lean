/-
# `Incremental.RelocationValues` — the value of a relocation

The value of a relocation is computed from the address of its symbol, from
its place, and from the entries that the symbol has in the GOT and the PLT.
Here the address is a parameter, so that it can move.

An address moves by as much as the symbol does, but a page only moves when a
page boundary is passed, and an entry of the GOT not at all.
-/
import Sld.Incremental.RelocationFields

namespace Sld.Incremental.Fields

open Sld.Dynamic (ElfArch OutputKind Resolution SectionInfo writeAbsoluteRelocation)
open Text.Reader (orError)
open Except (map ok)

/-! ## Masks -/

structure PageMaskValue where
  symbolPlusAddend : UInt64
  gotEntry : UInt64
  place : UInt64
  got : UInt64
deriving DecidableEq

/-- Every bit of an address. -/
def noMask : UInt64 := 0xFFFFFFFFFFFFFFFF

def getPageMask : Option PageMask → PageMaskValue
  | none => ⟨noMask, noMask, noMask, noMask⟩
  | some (.symbolPlusAddendAndPosition mask) => ⟨~~~mask, noMask, ~~~mask, noMask⟩
  | some (.gotEntryAndPosition mask) => ⟨noMask, ~~~mask, ~~~mask, noMask⟩
  | some (.gotBase mask) => ⟨noMask, noMask, noMask, ~~~mask⟩
  | some (.position mask) => ⟨noMask, noMask, ~~~mask, noMask⟩

def highestRelocationWithBias (symbolWithAddend pc : UInt64) : UInt64 :=
  ((symbolWithAddend + 0x80000000 +
    if symbolWithAddend &&& 0x800 ≠ 0 then 0x1000 - 0x100000000 else 0) &&& ~~~0xFFF) -
      ((pc - 8) &&& ~~~0xFFF)

/-- The low six bits of a byte. -/
def low6Mask : UInt64 := 0x3F

/-! ## Applying a relocation -/

/-- The addresses that a layout has fixed. -/
structure LayoutAddresses where
  gotBase : UInt64
  tlsldGotEntry : Option UInt64
  tlsStart : UInt64
  tlsEnd : UInt64
  tpOffsetStart : UInt64
deriving DecidableEq

/-- A relocation, as `apply_relocation` has it when its value is computed: after
a relaxation, if there is one. -/
structure Application where
  arch : ElfArch
  outputKind : OutputKind
  isRelrEnabled : Bool
  addresses : LayoutAddresses
  sectionInfo : SectionInfo
  sectionAddress : UInt64
  place : UInt64
  info : RelocationKindInfo
  addend : Int64
  /-- the symbol, but for its address -/
  res : Resolution
  gotAddress : Option UInt64
  /-- of `R_RISCV_PCREL_LO12`: what the high part at an offset refers to -/
  highPart : UInt64 → Except String UInt64
  /-- of `PairSubtractionULEB128`: the other symbol -/
  setValue : Except String UInt64
  thunkAddress : Option UInt64

namespace Application

variable (a : Application)

def mask : PageMaskValue := getPageMask a.info.mask

/-- The symbol, at an address. -/
def resolution (address : UInt64) : Resolution := { a.res with rawValue := address }

def valueWithAddend (address : UInt64) : Except String UInt64 :=
  (a.resolution address).valueWithAddend a.addend

/-- `got_address` -/
def got : Except String UInt64 := orError "Missing GOT address" a.gotAddress

/-- `got_address_for_relocation` -/
def gotForRelocation : Except String UInt64 := do
  let address ← a.got
  return if .ifuncGotForAddress ∈ a.res.flags then address + 8 else address

/-- `tlsgd_got_address` -/
def tlsgdGot : Except String UInt64 := do
  if .gotTlsModule ∉ a.res.flags then
    throw "Called tlsgd_got_address without GOT_TLS_MODULE being set"
  let address ← a.got
  return if .gotTlsOffset ∈ a.res.flags then address + 8 else address

/-- `tls_descriptor_got_address` -/
def tlsDescriptorGot : Except String UInt64 := do
  if .gotTlsDescriptor ∉ a.res.flags then
    throw "Called tls_descriptor_got_address without GOT_TLS_DESCRIPTOR being set"
  let address ← a.got
  let address := if .gotTlsOffset ∈ a.res.flags then address + 8 else address
  return if .gotTlsModule ∈ a.res.flags then address + 16 else address

/-- `plt_address` -/
def plt : Except String UInt64 := orError "Missing PLT address" a.res.pltAddress

/-- `tlsld_got_entry`, which is there when it is needed -/
def tlsldGot : Except String UInt64 :=
  orError "called Option::unwrap() on a None value" a.addresses.tlsldGotEntry

/-- An entry and the addend, relative to the place. -/
def entryRelative (entry : UInt64) : UInt64 :=
  ((entry + a.addend.toUInt64 + a.info.bias) &&& a.mask.gotEntry) - (a.place &&& a.mask.place)

/-- An entry and the addend. -/
def entryAddress (entry : UInt64) : UInt64 :=
  (entry + a.addend.toUInt64 + a.info.bias) &&& a.mask.gotEntry

/-- An entry and the addend, relative to the GOT. -/
def entryGotRelative (entry : UInt64) : UInt64 :=
  a.entryAddress entry - (a.addresses.gotBase &&& a.mask.got)

/-- The value of a kind that refers to the symbol, from its address and the
addend, and from what the field holds. -/
def symbolValue (fieldValue x : UInt64) : UInt64 :=
  match a.info.kind with
  | .absoluteSetWord6 => (x &&& low6Mask) ||| (fieldValue &&& ~~~low6Mask)
  | .absoluteAddition => fieldValue + x
  | .absoluteAdditionWord6 =>
    (((fieldValue &&& low6Mask) + (x &&& low6Mask)) &&& low6Mask) ||| (fieldValue &&& ~~~low6Mask)
  | .absoluteSubtraction => fieldValue - x
  | .absoluteSubtractionWord6 =>
    (((fieldValue &&& low6Mask) - (x &&& low6Mask)) &&& low6Mask) ||| (fieldValue &&& ~~~low6Mask)
  | .absoluteLowPart => x &&& a.mask.symbolPlusAddend
  | .relative => ((x + a.info.bias) &&& a.mask.symbolPlusAddend) - (a.place &&& a.mask.place)
  | .relativeLoongArchHigh => highestRelocationWithBias x a.place
  | .symRelGotBase =>
    ((x + a.info.bias) &&& a.mask.symbolPlusAddend) - (a.addresses.gotBase &&& a.mask.got)
  | _ => x

/-- `adjust_relocation_based_on_value` reads the field. -/
def readsField : Bool :=
  match a.info.kind with
  | .absoluteSetWord6 | .absoluteAddition | .absoluteAdditionWord6 | .absoluteSubtraction
  | .absoluteSubtractionWord6 => true
  | _ => false

/-- The number that the field holds. -/
def fieldValue (field : List UInt8) : UInt64 := UInt64.ofNat (ofLeBytes (field.take a.info.recordSize))

/-- `adjust_relocation_based_on_value` -/
def adjustedValue (field : List UInt8) (x : UInt64) : Except String UInt64 :=
  match a.info.size with
  | .byteSize _ => return a.symbolValue (a.fieldValue field) x
  | .bitMasking _ _ _ => throw "Unexpected size for the addition/subtraction relocation"

/-- The value of the relocation, for an address of the symbol. -/
def directValue (field : List UInt8) (address : UInt64) : Except String UInt64 :=
  match a.info.kind with
  | .absolute => do
      let written ← writeAbsoluteRelocation a.arch a.outputKind a.isRelrEnabled
        (a.resolution address) a.place a.addend a.sectionInfo
      return written.1
  | .absoluteSet | .absoluteLowPart | .relative | .relativeLoongArchHigh | .symRelGotBase => do
      let x ← a.valueWithAddend address
      return a.symbolValue (a.fieldValue field) x
  | .absoluteSetWord6 | .absoluteAddition | .absoluteAdditionWord6 | .absoluteSubtraction
  | .absoluteSubtractionWord6 => do
      let x ← a.valueWithAddend address
      a.adjustedValue field x
  | .relativeRiscVLow12 => do
      if a.addend ≠ 0 then throw "Unexpected addend for R_RISCV_PCREL_LO12 relocation"
      let x ← a.valueWithAddend address
      let high ← a.highPart (x - a.sectionAddress)
      return high + a.info.bias - x
  | .pairSubtractionULEB128 _ => do
      let set ← a.setValue
      let x ← a.valueWithAddend address
      return set - x
  | .gotRelative => do return a.entryRelative (← a.gotForRelocation)
  | .gotRelativeLoongArch64 => do
      return highestRelocationWithBias ((← a.gotForRelocation) + a.addend.toUInt64) a.place
  | .gotRelGotBase => do return a.entryGotRelative (← a.gotForRelocation)
  | .got => do
      let entry ← if .gotTlsModule ∈ a.res.flags then a.tlsgdGot else a.gotForRelocation
      return (entry + a.info.bias) &&& a.mask.gotEntry
  | .pltRelGotBase => do
      return (← a.plt) + a.info.bias - (a.addresses.gotBase &&& a.mask.got)
  | .pltRelative => do
      return (← a.plt) + a.addend.toUInt64 + a.info.bias - (a.place &&& a.mask.place)
  | .tlsGd => do return a.entryRelative (← a.tlsgdGot)
  | .tlsGdGot => do return a.entryAddress (← a.tlsgdGot)
  | .tlsGdGotBase => do return a.entryGotRelative (← a.tlsgdGot)
  | .tlsLd => do return a.entryRelative (← a.tlsldGot)
  | .tlsLdGot => do return a.entryAddress (← a.tlsldGot)
  | .tlsLdGotBase => do return a.entryGotRelative (← a.tlsldGot)
  | .dtpOff =>
    let start := if a.outputKind = .sharedObject then a.addresses.tlsStart else a.addresses.tlsEnd
    return address + a.addend.toUInt64 + a.info.bias - start
  | .gotTpOff => do return a.entryRelative (← a.got)
  | .gotTpOffLoongArch64 => do
      return highestRelocationWithBias ((← a.got) + a.addend.toUInt64) a.place
  | .gotTpOffGot => do return a.entryAddress (← a.got)
  | .gotTpOffGotBase => do return a.entryGotRelative (← a.got)
  | .tpOff => return address + a.addend.toUInt64 + a.info.bias - a.addresses.tpOffsetStart
  | .tlsDesc => do return a.entryRelative (← a.tlsDescriptorGot)
  | .tlsDescLoongArch64 => do
      return highestRelocationWithBias ((← a.tlsDescriptorGot) + a.addend.toUInt64) a.place
  | .tlsDescGot => do return a.entryAddress (← a.tlsDescriptorGot)
  | .tlsDescGotBase => do return a.entryGotRelative (← a.tlsDescriptorGot)
  | .none | .tlsDescCall => return 0
  | .alignment => throw "internal error: entered unreachable code"

/-- How far a value is outside of the range. -/
def overrun (value : UInt64) : ℤ :=
  if value.toInt64.toInt < a.info.range.min then value.toInt64.toInt - a.info.range.min
  else if a.info.range.max < value.toInt64.toInt then value.toInt64.toInt - a.info.range.max
  else 0

/-- `maybe_get_thunk_for_relocation` -/
def throughThunk (value : UInt64) : Except String UInt64 :=
  if a.arch = .aarch64 ∧ a.info.thunkable = true ∧ ¬a.info.range.Contains value.toInt64.toInt then
    match a.thunkAddress with
    | none => throw s!"Branch relocation out of range by {a.overrun value} but no thunk allocated"
    | some thunkAddress =>
      if thunkAddress = 0 then throw "Thunk address not yet allocated"
      else return ((thunkAddress + a.info.bias) &&& a.mask.symbolPlusAddend) -
        (a.place &&& a.mask.place)
  else return value

/-- The value that is written, and recorded. -/
def value (field : List UInt8) (address : UInt64) : Except String UInt64 := do
  a.throughThunk (← a.directValue field address)

/-! ## A symbol that moves -/

/-- How far the address moves that a relocation sees: the entry of an ifunc in
the PLT stays. -/
def symbolMovement (delta : UInt64) : UInt64 := if .ifunc ∈ a.res.flags then 0 else delta

/-- The field of an absolute relocation holds the address itself. -/
def keepsAddress : Bool :=
  if !a.sectionInfo.isAlloc then true
  else if .dynamic ∈ a.res.flags ∧ .absolute ∈ a.res.flags ∧ a.sectionInfo.isWritable = false then
    false
  else if a.res.flags.isInterposable = true ∧ a.sectionInfo.isWritable = true then false
  else if .ifunc ∈ a.res.flags ∧ a.sectionInfo.isWritable = true ∧
      Gc.isRelocatable a.outputKind = true then false
  else if Gc.isRelocatable a.outputKind = true ∧ .absolute ∉ a.res.flags then
    decide (a.isRelrEnabled = true ∧ a.place % 2 = 0)
  else true

/-- How far a value moves with the symbol, from its address and the addend and
from what the field holds. -/
def movement (fieldValue x delta : UInt64) : UInt64 :=
  match a.info.kind with
  | .absolute => if a.keepsAddress then a.symbolMovement delta else 0
  | .absoluteSet | .absoluteAddition => a.symbolMovement delta
  | .absoluteSubtraction | .pairSubtractionULEB128 _ => -a.symbolMovement delta
  | .absoluteSetWord6 | .absoluteAdditionWord6 | .absoluteSubtractionWord6
  | .relativeLoongArchHigh =>
    a.symbolValue fieldValue (x + a.symbolMovement delta) - a.symbolValue fieldValue x
  | .absoluteLowPart =>
    ((x + a.symbolMovement delta) &&& a.mask.symbolPlusAddend) - (x &&& a.mask.symbolPlusAddend)
  | .relative | .symRelGotBase =>
    ((x + a.symbolMovement delta + a.info.bias) &&& a.mask.symbolPlusAddend) -
      ((x + a.info.bias) &&& a.mask.symbolPlusAddend)
  | .dtpOff | .tpOff => delta
  | _ => 0

/-- The symbol is not in a section of strings that are merged. -/
def NotMerged : Prop := ∀ addend, a.res.mergedString addend = .ok none

/-- The address and the addend, as the relocation sees them. -/
def seen (address : UInt64) : UInt64 := (a.valueWithAddend address).toOption.getD 0

variable {a}

theorem valueWithAddend_eq (hmerged : a.NotMerged) (address : UInt64) : a.valueWithAddend address =
      if .ifunc ∈ a.res.flags then a.plt.map (· + a.addend.toUInt64)
      else .ok (address + a.addend.toUInt64) := by
  have hplt : (a.resolution address).pltAddress = a.res.pltAddress := rfl
  unfold valueWithAddend Resolution.valueWithAddend plt orError
  rw [hplt]
  show (if .ifunc ∈ a.res.flags then _ else _) = _
  split
  · cases a.res.pltAddress with
    | none => rfl
    | some plt => rfl
  · show (if address = 0 then (a.res.mergedString a.addend >>= _) else _) = _
    rw [hmerged a.addend]
    split
    · rfl
    · rfl

theorem valueWithAddend_move (hmerged : a.NotMerged) (address delta : UInt64) :
    a.valueWithAddend (address + delta) =
      (a.valueWithAddend address).map (· + a.symbolMovement delta) := by
  rw [valueWithAddend_eq hmerged, valueWithAddend_eq hmerged]
  unfold symbolMovement
  split
  · cases a.plt with
    | error e => rfl
    | ok plt => simp [map]
  · simp only [map]
    congr 1
    grind

theorem absolute_move (hmerged : a.NotMerged) (address delta : UInt64) :
    (writeAbsoluteRelocation a.arch a.outputKind a.isRelrEnabled (a.resolution (address + delta))
        a.place a.addend a.sectionInfo).map Prod.fst =
      ((writeAbsoluteRelocation a.arch a.outputKind a.isRelrEnabled (a.resolution address)
        a.place a.addend a.sectionInfo).map Prod.fst).map
          (· + if a.keepsAddress then a.symbolMovement delta else 0) := by
  have hmove : (a.resolution (address + delta)).valueWithAddend a.addend =
      ((a.resolution address).valueWithAddend a.addend).map (· + a.symbolMovement delta) :=
    valueWithAddend_move hmerged address delta
  have hflags : ∀ x, (a.resolution x).flags = a.res.flags := fun _ => rfl
  have hindex : ∀ x, (a.resolution x).dynamicSymbolIndex = a.res.dynamicSymbolIndex := fun _ => rfl
  unfold writeAbsoluteRelocation keepsAddress
  simp only [hflags, hindex, hmove]
  generalize (a.resolution address).valueWithAddend a.addend = value
  -- the conditions of the source, one after the other
  by_cases halloc : (!a.sectionInfo.isAlloc) = true
  · simp only [halloc, if_true]
    cases value <;> rfl
  simp only [if_neg halloc]
  by_cases hzero : .dynamic ∈ a.res.flags ∧ .absolute ∈ a.res.flags ∧
      a.sectionInfo.isWritable = false
  · simp only [if_pos hzero]
    simp [map]
  simp only [if_neg hzero]
  by_cases hinterposable : a.res.flags.isInterposable = true ∧ a.sectionInfo.isWritable = true
  · simp only [if_pos hinterposable]
    cases a.res.dynamicSymbolIndex <;> simp [map]
  simp only [if_neg hinterposable]
  by_cases hifunc : .ifunc ∈ a.res.flags ∧ a.sectionInfo.isWritable = true ∧
      Gc.isRelocatable a.outputKind = true
  · simp only [if_pos hifunc]
    simp [map]
  simp only [if_neg hifunc]
  by_cases hreloc : Gc.isRelocatable a.outputKind = true ∧ .absolute ∉ a.res.flags
  · simp only [if_pos hreloc]
    cases value with
    | error e => rfl
    | ok value =>
      by_cases hrelr : a.isRelrEnabled = true ∧ a.place % 2 = 0
      · simp [map, hrelr]
      · simp [map, hrelr]
  · simp only [if_neg hreloc]
    cases value <;> rfl

theorem seen_eq {address x : UInt64} (h : a.valueWithAddend address = .ok x) : a.seen address = x := by
  unfold seen
  rw [h]
  rfl

/-- The kinds whose value comes from what the relocation sees. -/
def seesSymbol : Bool :=
  a.readsField || match a.info.kind with
    | .absoluteSet | .absoluteLowPart | .relative | .relativeLoongArchHigh | .symRelGotBase => true
    | _ => false

theorem symbolValue_move (h : a.seesSymbol = true) (fieldValue x delta : UInt64) :
    a.symbolValue fieldValue (x + a.symbolMovement delta) =
      a.symbolValue fieldValue x + a.movement fieldValue x delta := by
  unfold seesSymbol readsField at h
  unfold movement symbolValue
  cases hkind : a.info.kind with
  | absoluteSet => rfl
  | absoluteSetWord6 | absoluteAddition | absoluteAdditionWord6 | absoluteSubtraction
  | absoluteSubtractionWord6 | absoluteLowPart | relative | relativeLoongArchHigh
  | symRelGotBase => grind
  | _ => simp [hkind] at h

variable {field : List UInt8} {address delta : UInt64}

theorem map_add_zero (value : Except String UInt64) : value.map (· + 0) = value := by
  cases value with
  | error e => rfl
  | ok value => simp [map]

theorem bind_move (hmerged : a.NotMerged) (hkind : a.seesSymbol = true)
    {next : UInt64 → Except String UInt64}
    (hnext : (∀ x, next x = .ok (a.symbolValue (a.fieldValue field) x)) ∨
      ∃ e, ∀ x, next x = .error e) :
    (a.valueWithAddend (address + delta) >>= next) = (a.valueWithAddend address >>= next).map
      (· + a.movement (a.fieldValue field) (a.seen address) delta) := by
  rw [valueWithAddend_move hmerged]
  cases hx : a.valueWithAddend address with
  | error e => rfl
  | ok x =>
    rw [seen_eq hx]
    show next (x + a.symbolMovement delta) = (next x).map _
    rcases hnext with hnext | ⟨e, hnext⟩
    · rw [hnext, hnext, symbolValue_move hkind]
      rfl
    · rw [hnext, hnext]
      rfl

theorem directValue_move (hmerged : a.NotMerged) (hlow : a.info.kind ≠ .relativeRiscVLow12) :
    a.directValue field (address + delta) = (a.directValue field address).map
      (· + a.movement (a.fieldValue field) (a.seen address) delta) := by
  have hsized : (∀ x, a.adjustedValue field x = .ok (a.symbolValue (a.fieldValue field) x)) ∨
      ∃ e, ∀ x, a.adjustedValue field x = .error e := by
    unfold adjustedValue
    cases a.info.size with
    | byteSize _ => exact .inl fun _ => rfl
    | bitMasking _ _ _ => exact .inr ⟨_, fun _ => rfl⟩
  have hsees : ∀ kind, a.info.kind = kind → (a.seesSymbol = true ↔ kind = .absoluteSet ∨
      kind = .absoluteLowPart ∨ kind = .relative ∨ kind = .relativeLoongArchHigh ∨
      kind = .symRelGotBase ∨ kind = .absoluteSetWord6 ∨ kind = .absoluteAddition ∨
      kind = .absoluteAdditionWord6 ∨ kind = .absoluteSubtraction ∨
      kind = .absoluteSubtractionWord6) := by
    intro kind hkind
    unfold seesSymbol readsField
    rw [hkind]
    cases kind <;> simp
  cases hkind : a.info.kind with
  | absolute =>
    have hmove := @absolute_move a hmerged address delta
    simp only [directValue, movement, hkind]
    cases hwritten : writeAbsoluteRelocation a.arch a.outputKind a.isRelrEnabled
        (a.resolution address) a.place a.addend a.sectionInfo with
    | error e =>
      rw [hwritten] at hmove
      cases hnew : writeAbsoluteRelocation a.arch a.outputKind a.isRelrEnabled
          (a.resolution (address + delta)) a.place a.addend a.sectionInfo with
      | error e' => rw [hnew] at hmove; cases hmove; rfl
      | ok new => rw [hnew] at hmove; cases hmove
    | ok written =>
      rw [hwritten] at hmove
      cases hnew : writeAbsoluteRelocation a.arch a.outputKind a.isRelrEnabled
          (a.resolution (address + delta)) a.place a.addend a.sectionInfo with
      | error e' => rw [hnew] at hmove; cases hmove
      | ok new => rw [hnew] at hmove; exact hmove
  | absoluteSet | absoluteLowPart | relative | relativeLoongArchHigh | symRelGotBase =>
    simp only [directValue, hkind]
    exact bind_move hmerged ((hsees _ hkind).2 (by simp)) (.inl fun _ => rfl)
  | absoluteSetWord6 | absoluteAddition | absoluteAdditionWord6 | absoluteSubtraction
  | absoluteSubtractionWord6 =>
    simp only [directValue, hkind]
    exact bind_move hmerged ((hsees _ hkind).2 (by simp)) hsized
  | relativeRiscVLow12 => exact absurd hkind hlow
  | pairSubtractionULEB128 expected =>
    simp only [directValue, movement, hkind]
    rw [valueWithAddend_move hmerged]
    cases a.setValue with
    | error e => rfl
    | ok set =>
      cases a.valueWithAddend address with
      | error e => rfl
      | ok x =>
        show ok (set - (x + a.symbolMovement delta)) =
          ok (set - x + -a.symbolMovement delta)
        congr 1
        grind
  | dtpOff | tpOff =>
    simp only [directValue, movement, hkind]
    show ok _ = ok _
    congr 1
    grind
  | _ =>
    simp only [directValue, movement, hkind]
    exact (map_add_zero _).symm

end Application

end Sld.Incremental.Fields
