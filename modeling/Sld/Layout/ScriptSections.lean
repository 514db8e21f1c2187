/-
# `Layout.ScriptSections` — the output sections that scripts and inputs name

Output sections are kept in a table.  A section with a name of its own is
added when the name is first asked for; `SECTIONS` commands ask for names in
their order, then the input sections that no rule places.

A section in the body after the first matcher is a secondary one, which is
laid out behind the first and merged into it.
-/
import Sld.Layout.SectionRules
import Sld.Script.Expressions

namespace Sld.Sections

open Text Script Layout
open Rules (SectionRule text data bss)

/-! ## The table of output sections -/

/-- An entry of `section_infos`; a secondary section has no name. -/
structure NamedInfo where
  name : Option Bytes
  info : Layout.SectionOutputInfo

structure SectionTable where
  sectionInfos : List NamedInfo
  customByName : List (Bytes × OutputSectionId)
  initFiniByPriority : List ((OutputSectionId × ℕ) × OutputSectionId)

/-- The alignments that `Alignment::new` accepts, by their exponents. -/
abbrev ScriptAlignment := Fin numAlignments

def alignmentMin : ScriptAlignment := ⟨0, by decide⟩

namespace SectionTable

variable (table : SectionTable)

def addNew (entry : NamedInfo) : OutputSectionId × SectionTable :=
  (table.sectionInfos.length, { table with sectionInfos := table.sectionInfos ++ [entry] })

/-- Flags and type are filled in from what is placed in the section. -/
def defaultAttributes : SectionAttributes := ⟨⟨false, false, false, false⟩, .other⟩

def addNamedSection (name : Bytes) (minAlignment : ScriptAlignment) (location : Option ℕ) :
    OutputSectionId × SectionTable :=
  match table.customByName.lookup name with
  | some sectionId => (sectionId, table)
  | none =>
    let (sectionId, table) := table.addNew
      ⟨some name, ⟨.primary, defaultAttributes, minAlignment.val, location, none⟩⟩
    (sectionId, { table with customByName := (name, sectionId) :: table.customByName })

def addSecondarySection (primaryId : OutputSectionId) (minAlignment : ScriptAlignment)
    (secondaryOrder : Option ℕ) : OutputSectionId × SectionTable :=
  let attributes := (table.sectionInfos[primaryId]?).elim defaultAttributes
    fun entry => entry.info.sectionAttributes
  table.addNew ⟨none, ⟨.secondary primaryId, attributes, minAlignment.val, none, secondaryOrder⟩⟩

/-- Changes the information about a section. -/
def modifyInfo (sectionId : OutputSectionId)
    (f : Layout.SectionOutputInfo → Layout.SectionOutputInfo) : SectionTable :=
  { table with
    sectionInfos := table.sectionInfos.modify sectionId fun entry =>
      { entry with info := f entry.info } }

def bumpMinAlignment (sectionId : OutputSectionId) (alignment : ScriptAlignment) : SectionTable :=
  table.modifyInfo sectionId fun info =>
    { info with minAlignment := max info.minAlignment alignment.val }

def getOrCreateInitFiniSecondary (primary : OutputSectionId) (priority : ℕ)
    (minAlignment : ScriptAlignment) : OutputSectionId × SectionTable :=
  match table.initFiniByPriority.lookup (primary, priority) with
  | some sectionId => (sectionId, table.bumpMinAlignment sectionId minAlignment)
  | none =>
    let (sectionId, table) := table.addSecondarySection primary minAlignment (some priority)
    (sectionId, { table with
      initFiniByPriority := ((primary, priority), sectionId) :: table.initFiniByPriority })

def sectionIdByName (name : Bytes) : Option OutputSectionId :=
  match table.customByName.lookup name with
  | some sectionId => some sectionId
  | none => table.sectionInfos.findIdx? fun entry => entry.name = some name

end SectionTable

/-! ## `SECTIONS` -/

structure Matcher where
  mustKeep : Bool
  inputFilePattern : Option Bytes
  inputSectionNamePatterns : List Bytes

inductive ContentsCommand where
  | matcher (matcher : Matcher)
  | symbolAssignment (name : Bytes) (expr : Expression)
  | align (alignment : ScriptAlignment)
  | provide (name : Bytes) (hidden : Bool)

structure ScriptSection where
  outputSectionName : Bytes
  commands : List ContentsCommand
  alignment : Option ScriptAlignment
  startAddressExpression : Option Expression

inductive SectionCommand where
  | «section» (sec : ScriptSection)
  | setLocation (address : ℕ)
  | align (alignment : ScriptAlignment)
  | assert

/-- The placements of symbols that a body defines. -/
inductive SymbolPlacement where
  | sectionStart (sectionId : OutputSectionId)
  | sectionEnd (sectionId : OutputSectionId)
  | segmentStart (name : SegmentName) (default : UInt64)

structure InternalSymDefInfo where
  placement : SymbolPlacement
  name : Bytes
  isHidden : Bool

inductive ScriptError where
  | glob (e : GlobError)
  /-- `Only numeric output section start expressions are currently supported` -/
  | startExpression

/-- `eval_constant_expr`; its errors are not told apart. -/
def evalConstantExpr : Expression → Option UInt64
  | .number n => some n
  | .binary .add l r => do return (← evalConstantExpr l) + (← evalConstantExpr r)
  | .binary .subtract l r => do return (← evalConstantExpr l) - (← evalConstantExpr r)
  | .binary .multiply l r => do return (← evalConstantExpr l) * (← evalConstantExpr r)
  | .binary .divide l r => do
      let d ← evalConstantExpr r
      if d = 0 then none else return (← evalConstantExpr l) / d
  | .unary .negate e => do return -(← evalConstantExpr e)
  | _ => none

/-- What the body of a section is read with. -/
structure BodyState (Pattern : Type) where
  table : SectionTable
  rules : List (SectionRule Pattern)
  symbolDefs : List InternalSymDefInfo
  extraMinAlignment : ScriptAlignment
  lastSectionId : Option OutputSectionId

section Scripts

variable {Pattern : Type} (newPattern : Text → Option Pattern)

/-- The rules of a matcher. -/
def matcherRules (matcher : Matcher) (sectionId : OutputSectionId) :
    Except ScriptError (List (SectionRule Pattern)) :=
  matcher.inputSectionNamePatterns.mapM fun pattern =>
    (SectionRule.new newPattern pattern matcher.inputFilePattern
      (.toSection ⟨sectionId, matcher.mustKeep⟩)).mapError .glob

variable (primarySectionId : OutputSectionId)

/-- The location counter in a body: the end of the last section, or the start
of the primary one. -/
def placementInBody (lastSectionId : Option OutputSectionId) : SymbolPlacement :=
  match lastSectionId with
  | some sectionId => .sectionEnd sectionId
  | none => .sectionStart primarySectionId

/-- The section of a matcher: the first has the primary section. -/
def matcherSection (state : BodyState Pattern) : OutputSectionId × BodyState Pattern :=
  match state.lastSectionId with
  | none => (primarySectionId, state)
  | some _ =>
    let (sectionId, table) :=
      state.table.addSecondarySection primarySectionId state.extraMinAlignment none
    (sectionId, { state with table := table, extraMinAlignment := alignmentMin })

def contentsCommand (state : BodyState Pattern) :
    ContentsCommand → Except ScriptError (BodyState Pattern)
  | .matcher matcher => do
      let (sectionId, state) := matcherSection primarySectionId state
      let rules ← matcherRules newPattern matcher sectionId
      return { state with rules := state.rules ++ rules, lastSectionId := some sectionId }
  | .symbolAssignment name .locationCounter =>
    let placement := placementInBody primarySectionId state.lastSectionId
    return { state with symbolDefs := state.symbolDefs ++ [⟨placement, name, false⟩] }
  | .symbolAssignment name (.segmentStart segment default) =>
    let placement := .segmentStart segment ((evalConstantExpr default).getD 0)
    return { state with symbolDefs := state.symbolDefs ++ [⟨placement, name, false⟩] }
  -- other values are skipped
  | .symbolAssignment _ _ => return state
  | .align alignment => return { state with extraMinAlignment := alignment }
  | .provide name hidden =>
    let placement := placementInBody primarySectionId state.lastSectionId
    return { state with symbolDefs := state.symbolDefs ++ [⟨placement, name, hidden⟩] }

/-- What `SECTIONS` is read with. -/
structure ScriptState (Pattern : Type) where
  table : SectionTable
  rules : List (SectionRule Pattern)
  symbolDefs : List InternalSymDefInfo
  location : Option ℕ
  extraMinAlignment : ScriptAlignment

/-- The location that a section is given, and the pending one after it. -/
def sectionLocation (location : Option ℕ) : Option Expression → Except ScriptError (Option ℕ)
  | some (.number address) => .ok (some address.toNat)
  | some _ => .error .startExpression
  | none => .ok location

def sectionCommand (state : ScriptState Pattern) :
    SectionCommand → Except ScriptError (ScriptState Pattern)
  | .section sec => do
      let sectionAlignment := max (sec.alignment.getD alignmentMin) state.extraMinAlignment
      let location ← sectionLocation state.location sec.startAddressExpression
      let (primarySectionId, table) :=
        state.table.addNamedSection sec.outputSectionName sectionAlignment location
      let body ← sec.commands.foldlM (contentsCommand newPattern primarySectionId)
        ⟨table, state.rules, state.symbolDefs, alignmentMin, none⟩
      return ⟨body.table, body.rules, body.symbolDefs, none, body.extraMinAlignment⟩
  | .setLocation address => return { state with location := some address }
  | .align alignment => return { state with extraMinAlignment := alignment }
  | .assert => return state

/-- A `SECTIONS` command. -/
def sectionsCommand (state : ScriptState Pattern) (commands : List SectionCommand) :
    Except ScriptError (ScriptState Pattern) :=
  commands.foldlM (sectionCommand newPattern)
    { state with location := none, extraMinAlignment := alignmentMin }

end Scripts

/-! ## Inputs and arguments -/

structure CustomSectionDetails where
  name : Bytes
  alignment : ScriptAlignment

structure InitFiniSectionDetail where
  primary : OutputSectionId
  priority : ℕ
  alignment : ScriptAlignment

/-- The sections of an object for which the table is asked. -/
structure ObjectSections where
  customSections : List CustomSectionDetails
  initFiniSections : List InitFiniSectionDetail

/-- The arguments that give sections an address, in their order. -/
structure StartArgs where
  sectionStart : List (Bytes × ℕ)
  ttext : Option ℕ
  tdata : Option ℕ
  tbss : Option ℕ

def dotText : Bytes := [0x2E, 0x74, 0x65, 0x78, 0x74]

def dotData : Bytes := [0x2E, 0x64, 0x61, 0x74, 0x61]

def dotBss : Bytes := [0x2E, 0x62, 0x73, 0x73]

/-- `start_address_for_section`; the last of several `--section-start` for
one name is the one that a hash map keeps. -/
def StartArgs.startAddressForSection (args : StartArgs) (name : Bytes) : Option ℕ :=
  match args.sectionStart.reverse.lookup name with
  | some address => some address
  | none =>
    if name = dotText then args.ttext
    else if name = dotData then args.tdata
    else if name = dotBss then args.tbss
    else none

variable (args : StartArgs)

def addSections (table : SectionTable) (customSections : List CustomSectionDetails) :
    SectionTable :=
  customSections.foldl (fun table custom =>
    (table.addNamedSection custom.name custom.alignment
      (args.startAddressForSection custom.name)).2) table

def applyInitFiniSecondaries (table : SectionTable) (details : List InitFiniSectionDetail) :
    SectionTable :=
  details.foldl (fun table d =>
    (table.getOrCreateInitFiniSecondary d.primary d.priority d.alignment).2) table

def assignSectionIds (table : SectionTable) (objects : List ObjectSections) : SectionTable :=
  objects.foldl (fun table object =>
    applyInitFiniSecondaries (addSections args table object.customSections)
      object.initFiniSections) table

/-- One section of `apply_section_start_overrides`. -/
def applySectionStartOverride (table : SectionTable) (sectionId : OutputSectionId)
    (name : Bytes) : SectionTable :=
  match args.startAddressForSection name with
  | some address => table.modifyInfo sectionId fun info => { info with location := some address }
  | none => table

def applySectionStartOverrides (table : SectionTable) : SectionTable :=
  let table := applySectionStartOverride args table text dotText
  let table := applySectionStartOverride args table data dotData
  applySectionStartOverride args table bss dotBss

/-- The sections that are there from the start, as far as names, locations and
alignments are concerned. -/
structure BuiltInSections where
  sectionInfos : List NamedInfo
  idOf_text : sectionInfos.findIdx? (fun entry => entry.name = some dotText) = some text
  idOf_data : sectionInfos.findIdx? (fun entry => entry.name = some dotData) = some data
  idOf_bss : sectionInfos.findIdx? (fun entry => entry.name = some dotBss) = some bss
  no_location : ∀ entry ∈ sectionInfos, entry.info.location = none
  alignment_lt : ∀ entry ∈ sectionInfos, entry.info.minAlignment < numAlignments

/-- What a link names sections with. -/
structure LinkInput where
  builtIn : BuiltInSections
  /-- the `SECTIONS` commands of all scripts -/
  scripts : List (List SectionCommand)
  objects : List ObjectSections
  args : StartArgs

variable {Pattern : Type} (newPattern : Text → Option Pattern)

/-- The scripts, on the table of the built-in sections. -/
def LinkInput.processScripts (input : LinkInput) : Except ScriptError (ScriptState Pattern) :=
  input.scripts.foldlM (sectionsCommand newPattern)
    ⟨⟨input.builtIn.sectionInfos, [], []⟩, [], [], none, alignmentMin⟩

/-- The table of output sections of a link. -/
def LinkInput.declareSections (input : LinkInput) : Except ScriptError SectionTable := do
  let state ← input.processScripts newPattern
  return applySectionStartOverrides input.args
    (assignSectionIds input.args state.table input.objects)

end Sld.Sections
