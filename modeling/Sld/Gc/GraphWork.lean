/-
# `Gc.GraphWork` — finding the sections that are required

The files of a group are activated one after the other; afterwards the
worker of the group handles requests: to load a symbol, to load a section,
to export a symbol, to copy one.  Loading a section processes its
relocations, and these send requests for the symbols they refer to, unless
somebody else has referred to them before.

Only what decides about requests is kept: the sizes that are allocated on
the way, the thunks and the diagnostics for undefined symbols are left out.
-/
import Sld.Gc.ProcessRelocation
import Sld.Order.WorkerRuns

namespace Sld.Gc

open Sld.WorkerSlots (Sent Outcome System)
open Except (ok)

/-! ## Inputs -/

structure FileId (groups : ℕ) where
  group : Fin groups
  file : ℕ
  deriving DecidableEq

/-- What is to be done with a section.  That it has been loaded is recorded
elsewhere. -/
inductive SectionSlot where
  | discard
  | unloaded (startStopEligible : Bool)
  | mustLoad
  | frameData
  | mergeStrings
  | unloadedDebugInfo
  | noteGnuProperty
  | riscvVAttributes

structure Section where
  slot : SectionSlot
  header : SectionHeader
  outputSection : ℕ
  size : ℕ
  relocations : List Relocation

/-- An FDE belongs to the section that its relocation at `pc_begin` refers to. -/
inductive EhFrameEntry where
  | cie (relocations : List Relocation)
  | fde (target : Option ℕ) (relocations : List Relocation)

structure EhFrame where
  header : SectionHeader
  entries : List EhFrameEntry

structure ObjectSymbol where
  inSection : Option ℕ
  isUndefined : Bool
  isLocal : Bool
  isHidden : Bool
  /-- On the export list, or there is none. -/
  isListed : Bool

structure Object where
  startSymbolId : ℕ
  symbols : List ObjectSymbol
  sections : List Section
  ehFrames : List EhFrame
  /-- `load_non_hidden_symbols` is called, and with which argument. -/
  exports : Option Bool

inductive PreludeSymbol where
  | other
  | defsymAbsolute
  /-- The target is looked up by its name. -/
  | redirect (target : Option ℕ)

inductive File where
  | prelude (startSymbolId : ℕ) (entry : Option ℕ) (definitions : List PreludeSymbol)
  | object (obj : Object)
  | dynamic (startSymbolId numSymbols : ℕ)
  /-- For each symbol, whether it is hidden. -/
  | linkerScript (startSymbolId : ℕ) (isHidden : List Bool)
  | notLoaded
  /-- The output section that a symbol marks the start or the end of. -/
  | syntheticSymbols (startSymbolId : ℕ) (sectionIds : List (Option ℕ))

def File.Contains (symbolId : ℕ) : File → Prop
  | .prelude start _ definitions => start ≤ symbolId ∧ symbolId < start + definitions.length
  | .object obj => obj.startSymbolId ≤ symbolId ∧ symbolId < obj.startSymbolId + obj.symbols.length
  | .dynamic start numSymbols => start ≤ symbolId ∧ symbolId < start + numSymbols
  | .linkerScript start isHidden => start ≤ symbolId ∧ symbolId < start + isHidden.length
  | .notLoaded => False
  | .syntheticSymbols start sectionIds => start ≤ symbolId ∧ symbolId < start + sectionIds.length

def File.isSynthetic : File → Bool
  | .syntheticSymbols _ _ => true
  | _ => false

/-- The input of `find_required_sections`. -/
structure Graph where
  arch : Arch
  args : Args
  groups : ℕ
  files : Fin groups → List File
  definition : ℕ → ℕ
  fileForSymbol : ℕ → FileId groups
  flags : ℕ → ValueFlags
  /-- Nothing has been referenced yet. -/
  unreferenced : ∀ s, ¬ (flags s).HasResolution
  /-- The ids of its symbols lead to the file. -/
  owned : ∀ (id : FileId groups) (file : File), (files id.group)[id.file]? = some file →
    ∀ s, file.Contains s → fileForSymbol s = id
  synthetic_unique : ∀ g h : Fin groups, (files g).any (·.isSynthetic) = true →
    (files h).any (·.isSynthetic) = true → g = h

namespace Graph

variable (graph : Graph)

def fileAt (id : FileId graph.groups) : Option File := (graph.files id.group)[id.file]?

/-- `file_id_for_symbol`, with the file -/
def fileOf (symbolId : ℕ) : Option File := graph.fileAt (graph.fileForSymbol symbolId)

/-! ## Work -/

structure SectionLoadRequest where
  file : FileId graph.groups
  sectionIndex : ℕ
  deriving DecidableEq

inductive WorkItem where
  | loadGlobalSymbol (symbolId : ℕ)
  | copyRelocateSymbol (symbolId : ℕ)
  | loadSection (request : SectionLoadRequest graph)
  | exportDynamic (symbolId : ℕ)
  deriving DecidableEq

/-- `WorkItem::file_id`, the group -/
def owner : WorkItem graph → Fin graph.groups
  | .loadGlobalSymbol s | .copyRelocateSymbol s | .exportDynamic s => (graph.fileForSymbol s).group
  | .loadSection request => request.file.group

structure Shared where
  flags : ℕ → ValueFlags
  /-- `SectionSlot::Loaded`, `SectionSlot::LoadedDebugInfo` -/
  loaded : SectionLoadRequest graph → Bool
  /-- `start_stop_sections` -/
  startStop : ℕ → List (SectionLoadRequest graph)

inductive Op where
  /-- `LocalWorkQueue::send_work` -/
  | send (item : WorkItem graph)
  /-- `GraphResources::send_work` -/
  | post (item : WorkItem graph)
  /-- The rest of a loop over relocations. -/
  | relocations (startSymbolId : ℕ) (header : SectionHeader) (skip : Bool)
      (rels : List Relocation) (isDebugSection : Bool)
  | handleSection (request : SectionLoadRequest graph)
  | setLoaded (request : SectionLoadRequest graph)
  | loadSymbol (symbolId : ℕ)
  | copyRelocate (symbolId : ℕ)
  | exportSymbol (symbolId : ℕ) (exportAll : Bool)
  | requestUndefined (symbolId : ℕ)
  /-- `or_assign` -/
  | mark (symbolId : ℕ) (flag : ValueFlag)
  /-- A direct reference from the command line. -/
  | demand (symbolId : ℕ)
  | pushStartStop (sectionId : ℕ) (request : SectionLoadRequest graph)
  | popStartStop (sectionId : ℕ)

/-- `FileLayoutState::do_work` -/
def program : WorkItem graph → List (Op graph)
  | .loadGlobalSymbol s => [.loadSymbol s]
  | .copyRelocateSymbol s => [.copyRelocate s]
  | .loadSection request => [.handleSection request]
  | .exportDynamic s => [.exportSymbol s true]

/-! ## Sections -/

/-- The FDEs of a section; its last one comes first. -/
def framesOf (obj : Object) (index : ℕ) : List (SectionHeader × Relocation) :=
  (obj.ehFrames.flatMap fun frame => frame.entries.flatMap fun entry =>
    match entry with
    | .fde (some target) rels =>
      if target = index then [rels.map fun rel => (frame.header, rel)] else []
    | _ => []).reverse.flatten

/-- What `load_section` requests. -/
def sectionOps (obj : Object) (index : ℕ) (sec : Section) : List (Op graph) :=
  (if graph.args.shouldOutputPartialObject then []
    else [.relocations obj.startSymbolId sec.header false sec.relocations false])
  ++ (if 0 < sec.size then
      (framesOf obj index).map fun frame =>
        .relocations obj.startSymbolId frame.1 false [frame.2] true
    else [])

/-- `handle_section_load_request` -/
def execSection (request : SectionLoadRequest graph) (shared : Shared graph) :
    Except String (List (Op graph)) :=
  match graph.fileAt request.file with
  | some (.object obj) =>
    match obj.sections[request.sectionIndex]? with
    | none => .error "index out of bounds"
    | some sec =>
      if shared.loaded request then .ok []
      else match sec.slot with
        | .unloaded _ | .mustLoad =>
          .ok (graph.sectionOps obj request.sectionIndex sec ++ [.setLoaded request])
        | .unloadedDebugInfo => .ok [.setLoaded request]
        | .discard => .error "Don't know what segment to put it in, but it's referenced"
        | .frameData | .mergeStrings | .noteGnuProperty | .riscvVAttributes => .ok []
  | _ => .error "Request to load section from non-object"

/-! ## Symbols -/

variable {graph}

def Shared.addFlags (shared : Shared graph) (symbolId : ℕ) (flags : ValueFlags) : Shared graph :=
  { shared with flags := Function.update shared.flags symbolId (shared.flags symbolId ∪ flags) }

/-- Updates the flags of a symbol and sends a request for it, unless it had
been referenced before. -/
def Shared.reference (shared : Shared graph) (symbolId : ℕ) (flags : ValueFlags) :
    Shared graph × List (Op graph) :=
  (shared.addFlags symbolId flags,
    if (shared.flags symbolId).HasResolution then [] else [.send (.loadGlobalSymbol symbolId)])

variable (graph)

/-- `handle_symbol_request` and `load_symbol` -/
def execSymbol (symbolId : ℕ) : List (Op graph) :=
  match graph.fileOf symbolId with
  | some (.object obj) =>
    match obj.symbols[symbolId - obj.startSymbolId]?.bind (·.inSection) with
    | some index => [.send (.loadSection ⟨graph.fileForSymbol symbolId, index⟩)]
    | none => []
  | some (.syntheticSymbols start sectionIds) =>
    match sectionIds[symbolId - start]?.join with
    | some sectionId => [.popStartStop sectionId]
    | none => []
  | _ => []

/-- `can_export_symbol`, but for the flags -/
def canExport (obj : Object) (symbolId : ℕ) (exportAll : Bool) : Bool :=
  match obj.symbols[symbolId - obj.startSymbolId]? with
  | some sym => !sym.isUndefined && !sym.isLocal && !sym.isHidden
      && decide (graph.definition symbolId = symbolId) && (exportAll || sym.isListed)
  | none => false

/-- `export_dynamic`, and one turn of `load_non_hidden_symbols` -/
def execExport (symbolId : ℕ) (exportAll : Bool) (shared : Shared graph) :
    Shared graph × List (Op graph) :=
  match graph.fileOf symbolId with
  | some (.object obj) =>
    if graph.canExport obj symbolId exportAll = true
        ∧ .downgradeToLocal ∉ shared.flags symbolId then
      (shared.addFlags symbolId {.exportDynamic},
        if (shared.flags symbolId).HasResolution then [] else [.loadSymbol symbolId])
    else (shared, [])
  | _ => (shared, [])

/-- `process_relocation`, for a relocation with a symbol -/
def execRelocation (startSymbolId : ℕ) (header : SectionHeader) (rel : Relocation)
    (localSymbol : ℕ) (isDebugSection : Bool) (shared : Shared graph) :
    Except String (Shared graph × List (Op graph) × Bool) := do
  let symbolId := graph.definition (startSymbolId + localSymbol)
  let flags := (shared.flags symbolId).merge (shared.flags (startSymbolId + localSymbol))
  let effect ← relocationEffect graph.arch graph.args header rel flags isDebugSection
  let previous := shared.flags symbolId
  let extra : ValueFlags :=
    if ¬ previous.HasResolution ∧ .ifunc ∈ flags ∧ isStaticExecutable graph.args.outputKind = true
    then {.got, .plt} else ∅
  let referenced := shared.reference symbolId (effect.flagsToAdd ∪ extra)
  let copies : List (Op graph) :=
    if .copyRelocation ∈ effect.flagsToAdd ∧ .copyRelocation ∉ previous
    then [.send (.copyRelocateSymbol symbolId)] else []
  return (referenced.1, referenced.2 ++ copies, effect.skipsNext)

/-- `load_section_relocations`, from some relocation on -/
def execRelocations (startSymbolId : ℕ) (header : SectionHeader) (skip : Bool)
    (rels : List Relocation) (isDebugSection : Bool) (shared : Shared graph) :
    Except String (Shared graph × List (Op graph)) :=
  match rels with
  | [] => .ok (shared, [])
  | rel :: rest =>
    if skip then .ok (shared, [.relocations startSymbolId header false rest isDebugSection])
    else match rel.symbol with
      | none => .ok (shared, [.relocations startSymbolId header false rest isDebugSection])
      | some localSymbol => do
          let processed ← graph.execRelocation startSymbolId header rel localSymbol
            isDebugSection shared
          return (processed.1, processed.2.1
            ++ [.relocations startSymbolId header processed.2.2 rest isDebugSection])

/-- One turn of `request_all_undefined_symbols` -/
def execUndefined (symbolId : ℕ) (shared : Shared graph) : List (Op graph) :=
  let definitionId := graph.definition symbolId
  let flags := shared.flags definitionId
  if .dynamic ∈ flags ∧ .absolute ∈ flags then []
  else if definitionId ≠ symbolId then [.send (.exportDynamic definitionId)]
  else []

/-- One turn of the loop over `start_stop_sections` -/
def execPop (sectionId : ℕ) (shared : Shared graph) : Shared graph × List (Op graph) :=
  match shared.startStop sectionId with
  | [] => (shared, [])
  | request :: rest =>
    ({ shared with startStop := Function.update shared.startStop sectionId rest },
      [.post (.loadSection request), .popStartStop sectionId])

/-- `copy_relocate_symbol`; what the shared object records is left out. -/
def execCopy (symbolId : ℕ) : Except String Unit :=
  match graph.fileOf symbolId with
  | some (.dynamic _ _) => .ok ()
  | _ => .error "Internal error: ExportCopyRelocation sent to non-dynamic object"

def exec (g : Fin graph.groups) : Op graph → Shared graph →
    Except String (Outcome (Op graph) (WorkItem graph) (Shared graph))
  | .send item, shared =>
    .ok ⟨shared, [], some (if graph.owner item = g then .toQueue item else .toSlot item)⟩
  | .post item, shared => .ok ⟨shared, [], some (.toSlot item)⟩
  | .relocations start header skip rels debug, shared => do
      let result ← graph.execRelocations start header skip rels debug shared
      return ⟨result.1, result.2, none⟩
  | .handleSection request, shared => do
      let ops ← graph.execSection request shared
      return ⟨shared, ops, none⟩
  | .setLoaded request, shared =>
    .ok ⟨{ shared with loaded := Function.update shared.loaded request true }, [], none⟩
  | .loadSymbol s, shared => .ok ⟨shared, graph.execSymbol s, none⟩
  | .copyRelocate s, shared => do
      graph.execCopy s
      return ⟨shared, [], none⟩
  | .exportSymbol s exportAll, shared =>
    .ok ⟨(graph.execExport s exportAll shared).1, (graph.execExport s exportAll shared).2, none⟩
  | .requestUndefined s, shared => .ok ⟨shared, graph.execUndefined s shared, none⟩
  | .mark s flag, shared => .ok ⟨shared.addFlags s {flag}, [], none⟩
  | .demand s, shared => .ok ⟨(shared.reference s {.direct}).1, (shared.reference s {.direct}).2, none⟩
  | .pushStartStop sectionId request, shared =>
    .ok ⟨{ shared with
      startStop := Function.update shared.startStop sectionId
        (shared.startStop sectionId ++ [request]) }, [], none⟩
  | .popStartStop sectionId, shared =>
    .ok ⟨(graph.execPop sectionId shared).1, (graph.execPop sectionId shared).2, none⟩

/-! ## Activation -/

/-- What an object does with a section when it is activated. -/
def activateSection (request : SectionLoadRequest graph) (sec : Section) : List (Op graph) :=
  match sec.slot with
  | .mustLoad | .unloadedDebugInfo | .mergeStrings => [.send (.loadSection request)]
  | .unloaded startStopEligible =>
    if !graph.args.shouldGcSections then [.send (.loadSection request)]
    else if startStopEligible then [.pushStartStop sec.outputSection request]
    else []
  | .discard | .frameData | .noteGnuProperty | .riscvVAttributes => []

/-- The relocations of the CIEs, which are always loaded. -/
def activateFrame (obj : Object) (frame : EhFrame) : List (Op graph) :=
  frame.entries.flatMap fun entry =>
    match entry with
    | .cie rels => rels.map fun rel =>
      .relocations obj.startSymbolId frame.header false [rel] false
    | .fde _ _ => []

def activateObject (id : FileId graph.groups) (obj : Object) : List (Op graph) :=
  (obj.sections.zipIdx.flatMap fun sec => graph.activateSection ⟨id, sec.2⟩ sec.1)
  ++ obj.ehFrames.flatMap (graph.activateFrame obj)
  ++ match obj.exports with
    | some exportAll => (List.range obj.symbols.length).map fun index =>
      .exportSymbol (obj.startSymbolId + index) exportAll
    | none => []

/-- `mark_defsyms_as_used`, one definition -/
def activateDefsym (symbolId : ℕ) (sym : PreludeSymbol) : List (Op graph) :=
  if graph.definition symbolId ≠ symbolId then []
  else match sym with
    | .other => []
    | .defsymAbsolute => [.mark symbolId .direct]
    | .redirect target => .mark symbolId .direct
        :: (target.map fun t => Op.demand (graph.definition t)).toList

/-- `activate` -/
def fileOps (id : FileId graph.groups) : File → List (Op graph)
  | .prelude start entry definitions =>
    (entry.map fun s => Op.demand (graph.definition s)).toList
    ++ definitions.zipIdx.flatMap fun sym => graph.activateDefsym (start + sym.2) sym.1
  | .object obj => graph.activateObject id obj
  | .dynamic start numSymbols =>
    (List.range numSymbols).map fun index => .requestUndefined (start + index)
  | .linkerScript start isHidden =>
    isHidden.zipIdx.flatMap fun hidden =>
      if graph.definition (start + hidden.2) ≠ start + hidden.2 ∨ hidden.1 = true then []
      else [.mark (start + hidden.2) .exportDynamic]
  | .notLoaded | .syntheticSymbols _ _ => []

def activation (g : Fin graph.groups) : List (List (Op graph)) :=
  (graph.files g).zipIdx.map fun file => graph.fileOps ⟨g, file.2⟩ file.1

theorem owns (g : Fin graph.groups) (op : Op graph) (shared : Shared graph)
    (out : Outcome (Op graph) (WorkItem graph) (Shared graph)) (item : WorkItem graph)
    (hexec : graph.exec g op shared = .ok out) (hsent : out.sent = some (.toQueue item)) :
    graph.owner item = g := by
  cases op with
  | send item' =>
    cases hexec
    have heq := Option.some.inj hsent
    by_cases howner : graph.owner item' = g
    · rw [if_pos howner] at heq
      obtain rfl := Sent.toQueue.inj heq
      exact howner
    · rw [if_neg howner] at heq
      cases heq
  | relocations start header skip rels debug =>
    obtain ⟨result, -, hout⟩ := Text.Reader.bind_eq_ok.mp hexec
    cases hout
    cases hsent
  | handleSection request =>
    obtain ⟨ops, -, hout⟩ := Text.Reader.bind_eq_ok.mp hexec
    cases hout
    cases hsent
  | copyRelocate s =>
    obtain ⟨u, -, hout⟩ := Text.Reader.bind_eq_ok.mp hexec
    cases hout
    cases hsent
  | _ => obtain rfl := ok.inj hexec; cases hsent

def system : System (Fin graph.groups) (Op graph) (WorkItem graph) (Shared graph) String where
  start := ⟨graph.flags, fun _ => false, fun _ => []⟩
  activation := graph.activation
  delayed g := (graph.files g).any (·.isSynthetic)
  delayed_unique := graph.synthetic_unique
  program := graph.program
  owner := graph.owner
  exec := graph.exec
  owns := graph.owns

end Graph

end Sld.Gc
