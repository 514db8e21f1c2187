/-
# `Dynamic.AbsoluteRelocations` — what an absolute relocation leaves to the loader

An absolute relocation writes an address into a section.  Where the address
is only known when the program is loaded, a dynamic relocation takes its
place: for a symbol that may be interposed, the loader adds the addend to
the symbol; for an ifunc, it calls the resolver; and for anything else it
adds the base to an address that is complete but for it.

    writeAbsoluteRelocation    the value written, and the dynamic relocation
    DynamicRelocation.entry    its entry in `.rela.dyn`
-/
import Sld.Gc.ProcessRelocation

namespace Sld.Dynamic

open Gc (ValueFlags)

/-! ## Kinds -/

inductive ElfArch where
  | x8664
  | aarch64
  | riscv64
  | loongArch64
  deriving DecidableEq

/-- The kinds that an absolute relocation may need. -/
inductive DynamicRelocationKind where
  | absolute
  | irelative
  | relative

/-- `get_dynamic_relocation_type` -/
def ElfArch.dynamicRelocationType : ElfArch → DynamicRelocationKind → UInt32
  | .x8664, .absolute => 1
  | .x8664, .irelative => 37
  | .x8664, .relative => 8
  | .aarch64, .absolute => 257
  | .aarch64, .irelative => 1032
  | .aarch64, .relative => 1027
  | .riscv64, .absolute => 2
  | .riscv64, .irelative => 58
  | .riscv64, .relative => 3
  | .loongArch64, .absolute => 2
  | .loongArch64, .irelative => 12
  | .loongArch64, .relative => 3

def dynamicRelocationRInfo (symbolIndex relocationType : UInt32) : UInt64 :=
  symbolIndex.toUInt64 <<< 32 ||| relocationType.toUInt64

/-! ## Resolutions -/

/-- The resolution of a symbol, as far as an absolute relocation reads it. -/
structure Resolution where
  rawValue : UInt64
  flags : ValueFlags
  dynamicSymbolIndex : Option UInt32
  pltAddress : Option UInt64
  /-- `get_merged_string_output_address`, for an addend -/
  mergedString : Int64 → Except String (Option UInt64)

def Resolution.valueWithAddend (res : Resolution) (addend : Int64) : Except String UInt64 :=
  if .ifunc ∈ res.flags then
    match res.pltAddress with
    | some address => .ok (address + addend.toUInt64)
    | none => .error "Missing PLT address"
  else if res.rawValue = 0 then do
    match ← res.mergedString addend with
    | some address => return address
    | none => return res.rawValue + addend.toUInt64
  else .ok (res.rawValue + addend.toUInt64)

/-- An entry of `.rela.dyn`. -/
structure RelaDyn where
  rOffset : UInt64
  rInfo : UInt64
  rAddend : Int64

/-- What the loader is asked to do. -/
inductive DynamicRelocation where
  | rela (entry : RelaDyn)
  | relr (place : UInt64)

def DynamicRelocation.entry : DynamicRelocation → Option RelaDyn
  | .rela entry => some entry
  | .relr _ => none

structure SectionInfo where
  isAlloc : Bool
  isWritable : Bool

/-- `write_absolute_relocation`: the value at the place, and what is written
besides.  The tables have room. -/
def writeAbsoluteRelocation (arch : ElfArch) (outputKind : OutputKind) (isRelrEnabled : Bool)
    (res : Resolution) (place : UInt64) (addend : Int64) (info : SectionInfo) :
    Except String (UInt64 × Option DynamicRelocation) :=
  if !info.isAlloc then do
    let value ← res.valueWithAddend addend
    return (value, none)
  else if .dynamic ∈ res.flags ∧ .absolute ∈ res.flags ∧ info.isWritable = false then .ok (0, none)
  else if res.flags.isInterposable = true ∧ info.isWritable = true then
    match res.dynamicSymbolIndex with
    | some index => .ok (0, some (.rela ⟨place,
        dynamicRelocationRInfo index (arch.dynamicRelocationType .absolute), addend⟩))
    | none => .error "Missing dynamic_symbol_index"
  else if .ifunc ∈ res.flags ∧ info.isWritable = true ∧ Gc.isRelocatable outputKind = true then
    .ok (0, some (.rela ⟨place, dynamicRelocationRInfo 0 (arch.dynamicRelocationType .irelative),
      res.rawValue.toInt64 + addend⟩))
  else if Gc.isRelocatable outputKind = true ∧ .absolute ∉ res.flags then do
    let address ← res.valueWithAddend addend
    if isRelrEnabled = true ∧ place % 2 = 0 then return (address, some (.relr place))
    else return (0, some (.rela ⟨place,
      dynamicRelocationRInfo 0 (arch.dynamicRelocationType .relative), address.toInt64⟩))
  else do
    let value ← res.valueWithAddend addend
    return (value, none)

/-! ## The entry -/

/-- The kind of the entry in `.rela.dyn`, if there is one. -/
def dynamicRelocationKind (outputKind : OutputKind) (isRelrEnabled : Bool) (res : Resolution)
    (place : UInt64) (info : SectionInfo) : Option DynamicRelocationKind :=
  if !info.isAlloc then none
  else if .dynamic ∈ res.flags ∧ .absolute ∈ res.flags ∧ info.isWritable = false then none
  else if res.flags.isInterposable = true ∧ info.isWritable = true then some .absolute
  else if .ifunc ∈ res.flags ∧ info.isWritable = true ∧ Gc.isRelocatable outputKind = true then
    some .irelative
  else if Gc.isRelocatable outputKind = true ∧ .absolute ∉ res.flags then
    if isRelrEnabled = true ∧ place % 2 = 0 then none else some .relative
  else none

/-- `r_info` of an entry of the kind. -/
def Resolution.rInfo (arch : ElfArch) (res : Resolution) : DynamicRelocationKind → UInt64
  | .absolute => dynamicRelocationRInfo (res.dynamicSymbolIndex.getD 0)
      (arch.dynamicRelocationType .absolute)
  | kind => dynamicRelocationRInfo 0 (arch.dynamicRelocationType kind)

/-- The addend of an entry of the kind. -/
def Resolution.dynamicAddend (res : Resolution) (addend : Int64) : DynamicRelocationKind → Int64
  | .absolute => addend
  | .irelative => res.rawValue.toInt64 + addend
  | .relative => ((res.valueWithAddend addend).toOption.getD 0).toInt64

/-- The loader gets the addend of the input as it is. -/
def Resolution.CarriesAddend (res : Resolution) (addend : Int64) : DynamicRelocationKind → Prop
  | .absolute => True
  | .irelative => res.rawValue = 0
  | .relative => res.valueWithAddend addend = .ok addend.toUInt64

section

variable {arch : ElfArch} {outputKind : OutputKind} {isRelrEnabled : Bool} {res : Resolution}
  {place : UInt64} {addend : Int64} {info : SectionInfo}
  {written : UInt64 × Option DynamicRelocation}

section

variable (h : writeAbsoluteRelocation arch outputKind isRelrEnabled res place addend info =
  .ok written)

include h

theorem entry_of_write :
    written.2.bind DynamicRelocation.entry
      = (dynamicRelocationKind outputKind isRelrEnabled res place info).map fun kind =>
        ⟨place, res.rInfo arch kind, res.dynamicAddend addend kind⟩ := by
  unfold writeAbsoluteRelocation at h
  unfold dynamicRelocationKind
  split at h
  · next halloc =>
    obtain ⟨value, -, h⟩ := Text.Reader.bind_eq_ok.mp h
    cases h
    rw [if_pos halloc]
    rfl
  next halloc =>
  rw [if_neg halloc]
  split at h
  · next hweak =>
    cases h
    rw [if_pos hweak]
    rfl
  next hweak =>
  rw [if_neg hweak]
  split at h
  · next hinterposable =>
    rw [if_pos hinterposable]
    cases hindex : res.dynamicSymbolIndex with
    | none => rw [hindex] at h; cases h
    | some index =>
      rw [hindex] at h
      cases h
      simp only [Resolution.rInfo, hindex]
      rfl
  next hinterposable =>
  rw [if_neg hinterposable]
  split at h
  · next hifunc =>
    cases h
    rw [if_pos hifunc]
    rfl
  next hifunc =>
  rw [if_neg hifunc]
  split at h
  · next hrelative =>
    rw [if_pos hrelative]
    obtain ⟨address, haddr, h⟩ := Text.Reader.bind_eq_ok.mp h
    split at h
    · next hrelr =>
      cases h
      rw [if_pos hrelr]
      rfl
    · next hrelr =>
      cases h
      rw [if_neg hrelr]
      simp only [Option.map_some, Resolution.dynamicAddend, haddr]
      rfl
  · next hrelative =>
    rw [if_neg hrelative]
    obtain ⟨value, -, h⟩ := Text.Reader.bind_eq_ok.mp h
    cases h
    rfl

theorem value_of_relative
    (hkind : dynamicRelocationKind outputKind isRelrEnabled res place info = some .relative) :
    ∃ address, res.valueWithAddend addend = .ok address := by
  unfold writeAbsoluteRelocation at h
  unfold dynamicRelocationKind at hkind
  split at hkind
  · cases hkind
  next halloc =>
  rw [if_neg halloc] at h
  split at hkind
  · cases hkind
  next hweak =>
  rw [if_neg hweak] at h
  split at hkind
  · cases hkind
  next hinterposable =>
  rw [if_neg hinterposable] at h
  split at hkind
  · cases hkind
  next hifunc =>
  rw [if_neg hifunc] at h
  split at hkind
  · next hrelative =>
    rw [if_pos hrelative] at h
    obtain ⟨address, haddr, -⟩ := Text.Reader.bind_eq_ok.mp h
    exact ⟨address, haddr⟩
  · cases hkind

theorem dynamicAddend_eq_iff {kind : DynamicRelocationKind}
    (hkind : dynamicRelocationKind outputKind isRelrEnabled res place info = some kind) :
    res.dynamicAddend addend kind = addend ↔ res.CarriesAddend addend kind := by
  cases kind with
  | absolute => exact iff_of_true rfl trivial
  | irelative =>
    refine Int64.add_eq_right.trans ⟨fun hzero => ?_, fun hzero => congrArg UInt64.toInt64 hzero⟩
    exact congrArg Int64.toUInt64 hzero
  | relative =>
    obtain ⟨address, haddr⟩ := value_of_relative h hkind
    simp only [Resolution.dynamicAddend, Resolution.CarriesAddend, haddr]
    constructor
    · intro hsame
      exact congrArg Except.ok (congrArg Int64.toUInt64 hsame)
    · intro hsame
      exact congrArg UInt64.toInt64 (Except.ok.inj hsame)

end

end

theorem rInfo_ne_zero (arch : ElfArch) (res : Resolution) (kind : DynamicRelocationKind) :
    res.rInfo arch kind ≠ 0 := by
  have htype : ∀ index kind, dynamicRelocationRInfo index (arch.dynamicRelocationType kind) ≠ 0 := by
    intro index kind h
    have hzero := (UInt64.or_eq_zero_iff.mp h).2
    cases arch <;> cases kind <;> cases hzero
  cases kind with
  | absolute => exact htype _ _
  | irelative => exact htype 0 .irelative
  | relative => exact htype 0 .relative

end Sld.Dynamic
