/-
# `Gc.ProcessRelocation` — what a relocation asks of its symbol

The flags of a symbol are known from its definition, or they say how it has
been referenced so far.  A relocation adds flags of the second sort; which,
depends on those of the first sort only.

    resolutionFlags     the flags for a kind of relocation
    relocationEffect    what `process_relocation` does with its symbol
-/
import Sld.Dynamic.HashTables

namespace Sld.Gc

open Sld.Dynamic (OutputKind)
open Except (ok)

/-! ## Flags -/

inductive ValueFlag where
  | absolute
  | dynamic
  | ifunc
  | nonInterposable
  | downgradeToLocal
  | function
  | direct
  | got
  | plt
  | gotTlsModule
  | gotTlsOffset
  | gotTlsDescriptor
  | exportDynamic
  | copyRelocation
  | ifuncGotForAddress
  | hasRangeLimitedRel
  deriving DecidableEq

/-- The flags that a definition has before anything refers to it. -/
def ValueFlag.isKnown : ValueFlag → Bool
  | .absolute | .dynamic | .ifunc | .nonInterposable | .downgradeToLocal | .function => true
  | _ => false

/-- `resolution_flags`, as a mask -/
def ValueFlag.isResolution : ValueFlag → Bool
  | .direct | .got | .plt | .gotTlsModule | .gotTlsOffset | .gotTlsDescriptor | .exportDynamic
  | .copyRelocation | .ifuncGotForAddress => true
  | _ => false

abbrev ValueFlags := Finset ValueFlag

namespace ValueFlags

def HasResolution (flags : ValueFlags) : Prop := ∃ flag ∈ flags, flag.isResolution = true

instance (flags : ValueFlags) : Decidable flags.HasResolution :=
  inferInstanceAs (Decidable (∃ flag ∈ flags, flag.isResolution = true))

/-- Flags of a symbol with those of the symbol that refers to it. -/
def merge (flags other : ValueFlags) : ValueFlags :=
  if .nonInterposable ∈ other then insert .nonInterposable flags else flags

def isAddress (flags : ValueFlags) : Bool := .ifunc ∉ flags ∧ .dynamic ∉ flags ∧ .absolute ∉ flags

def isInterposable (flags : ValueFlags) : Bool := .nonInterposable ∉ flags

/-- Two sets that agree about the definition. -/
def SameKnown (flags flags' : ValueFlags) : Prop :=
  ∀ flag : ValueFlag, flag.isKnown = true → (flag ∈ flags ↔ flag ∈ flags')

theorem SameKnown.merge {flags flags' other other' : ValueFlags} (h : flags.SameKnown flags')
    (hother : other.SameKnown other') : (flags.merge other).SameKnown (flags'.merge other') := by
  intro flag hflag
  unfold ValueFlags.merge
  rw [if_congr (hother .nonInterposable rfl) rfl rfl]
  split
  · rw [Finset.mem_insert, Finset.mem_insert, h flag hflag]
  · exact h flag hflag

theorem SameKnown.trans {flags flags' flags'' : ValueFlags} (h : flags.SameKnown flags')
    (h' : flags'.SameKnown flags'') : flags.SameKnown flags'' :=
  fun flag hflag => (h flag hflag).trans (h' flag hflag)

end ValueFlags

def isRelocatable : OutputKind → Bool
  | .staticExecutable .relocatable | .dynamicExecutable .relocatable | .sharedObject
  | .relocatable => true
  | _ => false

def isStaticExecutable : OutputKind → Bool
  | .staticExecutable _ => true
  | _ => false

/-! ## Kinds of relocations -/

inductive RelocationKind where
  | absolute
  | absoluteSet
  | absoluteSetWord6
  | absoluteAddition
  | absoluteAdditionWord6
  | absoluteSubtraction
  | absoluteSubtractionWord6
  | absoluteLowPart
  | pairSubtractionUleb128 (rType : ℕ)
  | relative
  | relativeLoongArchHigh
  | relativeRiscVLow12
  | symRelGotBase
  | gotRelGotBase
  | got
  | pltRelGotBase
  | pltRelative
  | gotRelative
  | gotRelativeLoongArch64
  | tlsGd
  | tlsGdGot
  | tlsGdGotBase
  | tlsLd
  | tlsLdGot
  | tlsLdGotBase
  | dtpOff
  | gotTpOff
  | gotTpOffLoongArch64
  | gotTpOffGot
  | gotTpOffGotBase
  | tpOff
  | tlsDesc
  | tlsDescLoongArch64
  | tlsDescGot
  | tlsDescGotBase
  | tlsDescCall
  | none
  | alignment
  deriving DecidableEq

def RelocationKind.isTls : RelocationKind → Bool
  | .dtpOff | .gotTpOff | .gotTpOffGotBase | .tlsDesc | .tlsDescCall | .tlsDescGot
  | .tlsDescGotBase | .tlsGd | .tlsGdGot | .tlsGdGotBase | .tlsLd | .tlsLdGot | .tlsLdGotBase
  | .tpOff => true
  | _ => false

def resolutionFlags : RelocationKind → ValueFlags
  | .pltRelative | .pltRelGotBase => {.plt, .got}
  | .got | .gotRelGotBase | .gotRelative | .gotRelativeLoongArch64 => {.got}
  | .gotTpOff | .gotTpOffLoongArch64 | .gotTpOffGot | .gotTpOffGotBase => {.gotTlsOffset}
  | .tlsGd | .tlsGdGot | .tlsGdGotBase => {.gotTlsModule}
  | .tlsDesc | .tlsDescLoongArch64 | .tlsDescGot | .tlsDescGotBase | .tlsDescCall =>
    {.gotTlsDescriptor}
  | .tlsLd | .tlsLdGot | .tlsLdGotBase => ∅
  | .absolute | .absoluteSet | .absoluteSetWord6 | .absoluteAddition | .absoluteAdditionWord6
  | .absoluteSubtraction | .absoluteSubtractionWord6 | .relative | .relativeRiscVLow12
  | .relativeLoongArchHigh | .dtpOff | .tpOff | .symRelGotBase | .pairSubtractionUleb128 _ =>
    {.direct}
  | .none | .absoluteLowPart | .alignment => ∅

/-! ## Relaxations -/

structure SectionHeader where
  isAlloc : Bool
  isWritable : Bool
  isExecutable : Bool
  data : List UInt8

/-- The rewritten relocation, and whether it also does the work of the next. -/
structure Relaxation where
  kind : RelocationKind
  isMandatory : Bool
  skipsNext : Bool

/-- An architecture, as far as loading goes.  It looks at what is known of
the definition of a symbol, not at who refers to it. -/
structure Arch where
  relocationFromRaw : ℕ → Except String RelocationKind
  newRelaxation : ℕ → SectionHeader → ℕ → ValueFlags → OutputKind → Option Relaxation
  newRelaxation_congr : ∀ (rType : ℕ) (header : SectionHeader) (offset : ℕ)
    (flags flags' : ValueFlags) (outputKind : OutputKind), flags.SameKnown flags' →
    newRelaxation rType header offset flags outputKind
      = newRelaxation rType header offset flags' outputKind

structure Args where
  outputKind : OutputKind
  shouldRelax : Bool
  isRelrEnabled : Bool
  /-- Why copy relocations are disabled, if they are. -/
  copyRelocationsDisallowed : Option String
  shouldGcSections : Bool
  shouldOutputPartialObject : Bool

structure Relocation where
  symbol : Option ℕ
  offset : ℕ
  rawType : ℕ

/-- The parts where a relocation may need space for a dynamic one. -/
inductive DynamicPart where
  | relaDynGeneral
  | relaDynRelative
  | relrDyn

structure Effect where
  flagsToAdd : ValueFlags
  allocated : Option DynamicPart
  skipsNext : Bool

/-- The kind that the relocation has in the end. -/
def relaxedKind (arch : Arch) (args : Args) (header : SectionHeader) (rel : Relocation)
    (flags : ValueFlags) : Except String (RelocationKind × Bool) :=
  match (arch.newRelaxation rel.rawType header rel.offset flags args.outputKind).filter
      fun relaxation => args.shouldRelax || relaxation.isMandatory with
  | some relaxation => .ok (relaxation.kind, relaxation.skipsNext)
  | none => do
      let kind ← arch.relocationFromRaw rel.rawType
      return (kind, false)

/-- The flags and the dynamic relocation for a kind. -/
def flagsForKind (args : Args) (header : SectionHeader) (rel : Relocation) (flags : ValueFlags)
    (kind : RelocationKind) (isDebugSection : Bool) :
    Except String (ValueFlags × Option DynamicPart) :=
  let flagsToAdd := resolutionFlags kind
  if !header.isAlloc then .ok (flagsToAdd, none)
  else if kind.isTls then .ok (flagsToAdd, none)
  else if .direct ∈ flagsToAdd ∧ flags.isInterposable = true then
    if header.isWritable then .ok (flagsToAdd, some .relaDynGeneral)
    else if .function ∈ flags then .ok (flagsToAdd.erase .direct ∪ {.plt, .got}, none)
    else if .absolute ∉ flags then
      match args.copyRelocationsDisallowed with
      | none => .ok (flagsToAdd ∪ {.copyRelocation}, none)
      | some _ => .error "Direct relocation to dynamic symbol from non-writable section"
    else .ok (flagsToAdd, none)
  else if .ifunc ∈ flags ∧ kind = .absolute ∧ header.isWritable = true
      ∧ isRelocatable args.outputKind = true then
    .ok (flagsToAdd, some .relaDynGeneral)
  else if isRelocatable args.outputKind = true ∧ kind = .absolute ∧ flags.isAddress = true then
    if header.isWritable then
      if args.isRelrEnabled = true ∧ 2 ∣ rel.offset then .ok (flagsToAdd, some .relrDyn)
      else .ok (flagsToAdd, some .relaDynRelative)
    else if !isDebugSection then .error "Cannot apply relocation to read-only section."
    else .ok (flagsToAdd, none)
  else .ok (flagsToAdd, none)

/-- The flags that an ifunc needs besides. -/
def ifuncFlags (args : Args) (flags flagsToAdd : ValueFlags) : ValueFlags :=
  let needsGot : Bool := .got ∈ flagsToAdd
  let flagsToAdd :=
    if .ifunc ∈ flags ∧ isStaticExecutable args.outputKind = false then flagsToAdd ∪ {.got, .plt}
    else flagsToAdd
  if .ifunc ∈ flags ∧ needsGot = true ∧ isRelocatable args.outputKind = false then
    flagsToAdd ∪ {.ifuncGotForAddress}
  else flagsToAdd

/-- `process_relocation`, up to the update of the flags of the symbol -/
def relocationEffect (arch : Arch) (args : Args) (header : SectionHeader) (rel : Relocation)
    (flags : ValueFlags) (isDebugSection : Bool) : Except String Effect := do
  let relaxed ← relaxedKind arch args header rel flags
  let added ← flagsForKind args header rel flags relaxed.1 isDebugSection
  return ⟨ifuncFlags args flags added.1, added.2, relaxed.2⟩

/-! ## The effect depends on the definition only -/

section

variable {arch : Arch} {args : Args} {header : SectionHeader} {rel : Relocation}
  {flags flags' : ValueFlags}

section

variable (h : flags.SameKnown flags')

include h

theorem relaxedKind_congr :
    relaxedKind arch args header rel flags = relaxedKind arch args header rel flags' := by
  unfold relaxedKind
  rw [arch.newRelaxation_congr _ _ _ _ _ _ h]

theorem isAddress_congr : flags.isAddress = flags'.isAddress := by
  unfold ValueFlags.isAddress
  simp only [h .ifunc rfl, h .dynamic rfl, h .absolute rfl]

theorem isInterposable_congr : flags.isInterposable = flags'.isInterposable := by
  unfold ValueFlags.isInterposable
  simp only [h .nonInterposable rfl]

theorem flagsForKind_congr (kind : RelocationKind) (debug : Bool) :
    flagsForKind args header rel flags kind debug = flagsForKind args header rel flags' kind debug := by
  unfold flagsForKind
  simp only [isAddress_congr h, isInterposable_congr h, h .function rfl, h .absolute rfl,
    h .ifunc rfl]

theorem ifuncFlags_congr (flagsToAdd : ValueFlags) :
    ifuncFlags args flags flagsToAdd = ifuncFlags args flags' flagsToAdd := by
  unfold ifuncFlags
  simp only [h .ifunc rfl]

theorem relocationEffect_congr (debug : Bool) :
    relocationEffect arch args header rel flags debug
      = relocationEffect arch args header rel flags' debug := by
  unfold relocationEffect
  simp only [relaxedKind_congr h, flagsForKind_congr h, ifuncFlags_congr h]

end

end

/-! ## No flag about the definition is added -/

/-- Flags that say how a symbol has been referenced. -/
def ValueFlags.Referencing (flags : ValueFlags) : Prop := ∀ flag ∈ flags, flag.isKnown = false

instance (flags : ValueFlags) : Decidable flags.Referencing :=
  inferInstanceAs (Decidable (∀ flag ∈ flags, flag.isKnown = false))

variable {flags : ValueFlags}

theorem ValueFlags.Referencing.union {flags' : ValueFlags} (h : flags.Referencing)
    (h' : flags'.Referencing) : ValueFlags.Referencing (flags ∪ flags') := by
  intro flag hflag
  rcases Finset.mem_union.mp hflag with hflag | hflag
  · exact h flag hflag
  · exact h' flag hflag

theorem ValueFlags.Referencing.sameKnown (h : flags.Referencing)
    (known : ValueFlags) : ValueFlags.SameKnown (known ∪ flags) known := by
  intro flag hflag
  rw [Finset.mem_union]
  refine or_iff_left fun hmem => ?_
  rw [h flag hmem] at hflag
  cases hflag

theorem referencing_resolutionFlags (kind : RelocationKind) : (resolutionFlags kind).Referencing := by
  cases kind with
  | pairSubtractionUleb128 rType =>
    show ValueFlags.Referencing {.direct}
    decide
  | _ => decide

variable {args : Args} {debug : Bool} {header : SectionHeader} {rel : Relocation}

theorem referencing_flagsForKind {kind : RelocationKind} {added : ValueFlags × Option DynamicPart}
    (h : flagsForKind args header rel flags kind debug = .ok added) : added.1.Referencing := by
  have hkind := referencing_resolutionFlags kind
  have herase : ((resolutionFlags kind).erase .direct ∪ {.plt, .got} : ValueFlags).Referencing := by
    refine .union (fun flag hflag => hkind flag (Finset.mem_of_mem_erase hflag)) ?_
    decide
  have hcopy : (resolutionFlags kind ∪ {.copyRelocation} : ValueFlags).Referencing := by
    refine hkind.union ?_
    decide
  simp only [flagsForKind] at h
  split at h
  · exact ok.inj h ▸ hkind
  split at h
  · exact ok.inj h ▸ hkind
  split at h
  · split at h
    · exact ok.inj h ▸ hkind
    split at h
    · exact ok.inj h ▸ herase
    split at h
    · split at h
      · exact ok.inj h ▸ hcopy
      · cases h
    · exact ok.inj h ▸ hkind
  split at h
  · exact ok.inj h ▸ hkind
  split at h
  · split at h
    · split at h
      · exact ok.inj h ▸ hkind
      · exact ok.inj h ▸ hkind
    split at h
    · cases h
    · exact ok.inj h ▸ hkind
  · exact ok.inj h ▸ hkind

theorem referencing_ifuncFlags {flagsToAdd : ValueFlags}
    (h : flagsToAdd.Referencing) : (ifuncFlags args flags flagsToAdd).Referencing := by
  have hfirst : (if .ifunc ∈ flags ∧ isStaticExecutable args.outputKind = false
      then flagsToAdd ∪ {.got, .plt} else flagsToAdd : ValueFlags).Referencing := by
    split
    · exact h.union (by decide)
    · exact h
  simp only [ifuncFlags]
  split
  · exact hfirst.union (by decide)
  · exact hfirst

theorem referencing_relocationEffect {arch : Arch} {effect : Effect}
    (h : relocationEffect arch args header rel flags debug = .ok effect) :
    effect.flagsToAdd.Referencing := by
  obtain ⟨relaxed, -, h⟩ := Text.Reader.bind_eq_ok.mp h
  obtain ⟨added, hadded, h⟩ := Text.Reader.bind_eq_ok.mp h
  cases h
  exact referencing_ifuncFlags (referencing_flagsForKind hadded)

end Sld.Gc
