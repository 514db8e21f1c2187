/-
# `Gc.Reachability` — only what is reachable is loaded

    references    the symbols that loading a section refers to
    Reached       what is reachable from the roots
    sound         whatever is requested or loaded is reachable
-/
import Sld.Gc.GraphWork

namespace Sld.Gc

open Sld.WorkerSlots (Outcome State)
open List (mem_append mem_cons mem_flatMap mem_map mem_singleton)
open Text.Reader (bind_eq_ok)
open Function (forall_update_iff update update_of_ne)

namespace Graph

variable (graph : Graph)

/-! ## Reachable sections and symbols -/

def sectionAt (request : SectionLoadRequest graph) : Option (Object × Section) :=
  match graph.fileAt request.file with
  | some (.object obj) => obj.sections[request.sectionIndex]?.map fun sec => (obj, sec)
  | _ => none

/-- Whether the relocation behind is a part of this one. -/
def skipsNext (startSymbolId : ℕ) (header : SectionHeader) (rel : Relocation) (localSymbol : ℕ)
    (debug : Bool) : Bool :=
  let flags := (graph.flags (graph.definition (startSymbolId + localSymbol))).merge
    (graph.flags (startSymbolId + localSymbol))
  match relocationEffect graph.arch graph.args header rel flags debug with
  | .ok effect => effect.skipsNext
  | .error _ => false

/-- The symbols that relocations refer to, without those that are skipped. -/
def referenced (startSymbolId : ℕ) (header : SectionHeader) (debug : Bool) :
    Bool → List Relocation → List ℕ
  | _, [] => []
  | true, _ :: rest => referenced startSymbolId header debug false rest
  | false, rel :: rest =>
    match rel.symbol with
    | none => referenced startSymbolId header debug false rest
    | some localSymbol => graph.definition (startSymbolId + localSymbol)
        :: referenced startSymbolId header debug
          (graph.skipsNext startSymbolId header rel localSymbol debug) rest

/-- What a section refers to by its relocations and those of its FDEs. -/
def references (obj : Object) (index : ℕ) (sec : Section) : List ℕ :=
  (if graph.args.shouldOutputPartialObject then []
    else graph.referenced obj.startSymbolId sec.header false false sec.relocations)
  ++ (if 0 < sec.size then
      (framesOf obj index).flatMap fun frame =>
        graph.referenced obj.startSymbolId frame.1 true false [frame.2]
    else [])

/-- The sections that a symbol `__start_…` or `__stop_…` stands for. -/
def Eligible (sectionId : ℕ) (request : SectionLoadRequest graph) : Prop :=
  graph.args.shouldGcSections = true ∧ ∃ obj sec, graph.sectionAt request = some (obj, sec)
    ∧ sec.slot = .unloaded true ∧ sec.outputSection = sectionId

/-- What `load_section` is for. -/
def SectionSlot.isLoadable : SectionSlot → Bool
  | .unloaded _ | .mustLoad => true
  | _ => false

inductive Node where
  | inputSection (request : SectionLoadRequest graph)
  | symbol (symbolId : ℕ)

inductive Reached : Node graph → Prop
  | retained {request : SectionLoadRequest graph} {obj : Object} {sec : Section} :
      graph.sectionAt request = some (obj, sec) →
      sec.slot = .mustLoad ∨ sec.slot = .unloadedDebugInfo ∨ sec.slot = .mergeStrings →
      Reached (.inputSection request)
  | uncollected {request : SectionLoadRequest graph} {obj : Object} {sec : Section}
      {startStopEligible : Bool} : graph.args.shouldGcSections = false →
      graph.sectionAt request = some (obj, sec) → sec.slot = .unloaded startStopEligible →
      Reached (.inputSection request)
  | entry {id : FileId graph.groups} {start s : ℕ} {definitions : List PreludeSymbol} :
      graph.fileAt id = some (.prelude start (some s) definitions) →
      Reached (.symbol (graph.definition s))
  | defsym {id : FileId graph.groups} {start index target : ℕ} {entry : Option ℕ}
      {definitions : List PreludeSymbol} :
      graph.fileAt id = some (.prelude start entry definitions) →
      definitions[index]? = some (.redirect (some target)) →
      graph.definition (start + index) = start + index →
      Reached (.symbol (graph.definition target))
  | personality {id : FileId graph.groups} {obj : Object} {frame : EhFrame}
      {rels : List Relocation} {rel : Relocation} {s : ℕ} :
      graph.fileAt id = some (.object obj) → frame ∈ obj.ehFrames → .cie rels ∈ frame.entries →
      rel ∈ rels → s ∈ graph.referenced obj.startSymbolId frame.header false false [rel] →
      Reached (.symbol s)
  | exported {id : FileId graph.groups} {obj : Object} {exportAll : Bool} {index : ℕ} :
      graph.fileAt id = some (.object obj) → obj.exports = some exportAll →
      index < obj.symbols.length →
      graph.canExport obj (obj.startSymbolId + index) exportAll = true →
      .downgradeToLocal ∉ graph.flags (obj.startSymbolId + index) →
      Reached (.symbol (obj.startSymbolId + index))
  | imported {id : FileId graph.groups} {start numSymbols index : ℕ} {obj : Object} :
      graph.fileAt id = some (.dynamic start numSymbols) → index < numSymbols →
      graph.definition (start + index) ≠ start + index →
      ¬ (.dynamic ∈ graph.flags (graph.definition (start + index))
        ∧ .absolute ∈ graph.flags (graph.definition (start + index))) →
      graph.fileOf (graph.definition (start + index)) = some (.object obj) →
      graph.canExport obj (graph.definition (start + index)) true = true →
      .downgradeToLocal ∉ graph.flags (graph.definition (start + index)) →
      Reached (.symbol (graph.definition (start + index)))
  | relocation {request : SectionLoadRequest graph} {obj : Object} {sec : Section} {s : ℕ} :
      Reached (.inputSection request) → graph.sectionAt request = some (obj, sec) →
      SectionSlot.isLoadable sec.slot = true → s ∈ graph.references obj request.sectionIndex sec →
      Reached (.symbol s)
  | definition {s index : ℕ} {obj : Object} : Reached (.symbol s) →
      graph.fileOf s = some (.object obj) →
      obj.symbols[s - obj.startSymbolId]?.bind (·.inSection) = some index →
      Reached (.inputSection ⟨graph.fileForSymbol s, index⟩)
  | startStop {s start sectionId : ℕ} {sectionIds : List (Option ℕ)}
      {request : SectionLoadRequest graph} : Reached (.symbol s) →
      graph.fileOf s = some (.syntheticSymbols start sectionIds) →
      sectionIds[s - start]?.join = some sectionId → graph.Eligible sectionId request →
      Reached (.inputSection request)

/-- The sections that ought to be loaded. -/
def Loads (request : SectionLoadRequest graph) : Prop :=
  graph.Reached (.inputSection request) ∧ ∃ obj sec, graph.sectionAt request = some (obj, sec)
    ∧ (SectionSlot.isLoadable sec.slot = true ∨ sec.slot = .unloadedDebugInfo)

/-! ## Why something is requested -/

def Requested : WorkItem graph → Prop
  | .loadGlobalSymbol s => graph.Reached (.symbol s)
  | .copyRelocateSymbol _ => True
  | .loadSection request => graph.Reached (.inputSection request)
  | .exportDynamic s => ∀ obj, graph.fileOf s = some (.object obj) →
      graph.canExport obj s true = true → .downgradeToLocal ∉ graph.flags s →
      graph.Reached (.symbol s)

def Wanted : Op graph → Prop
  | .send item | .post item => graph.Requested item
  | .relocations start header skip rels debug =>
    ∀ s ∈ graph.referenced start header debug skip rels, graph.Reached (.symbol s)
  | .handleSection request => graph.Reached (.inputSection request)
  | .setLoaded request => graph.Loads request
  | .loadSymbol s => graph.Reached (.symbol s)
  | .copyRelocate _ => True
  | .exportSymbol s exportAll => ∀ obj, graph.fileOf s = some (.object obj) →
      graph.canExport obj s exportAll = true → .downgradeToLocal ∉ graph.flags s →
      graph.Reached (.symbol s)
  | .requestUndefined s => ¬ (.dynamic ∈ graph.flags (graph.definition s)
      ∧ .absolute ∈ graph.flags (graph.definition s)) → graph.definition s ≠ s →
      graph.Requested (.exportDynamic (graph.definition s))
  | .mark _ flag => flag.isKnown = false
  | .demand s => graph.Reached (.symbol s)
  | .pushStartStop sectionId request => graph.Eligible sectionId request
  | .popStartStop sectionId =>
    ∀ request, graph.Eligible sectionId request → graph.Reached (.inputSection request)

/-- Data that has a reason. -/
structure Sound (shared : Shared graph) : Prop where
  flags : ∀ s, (shared.flags s).SameKnown (graph.flags s)
  loaded : ∀ request, shared.loaded request = true → graph.Loads request
  startStop : ∀ sectionId, ∀ request ∈ shared.startStop sectionId, graph.Eligible sectionId request

variable {graph}

section

variable {shared shared' : Shared graph} {symbolId : ℕ} {flags : ValueFlags} {ops : List (Op graph)}

theorem Sound.addFlags (h : graph.Sound shared) (hflags : flags.Referencing) :
    graph.Sound (shared.addFlags symbolId flags) where
  flags := (forall_update_iff shared.flags fun s known => known.SameKnown (graph.flags s)).mpr
    ⟨(hflags.sameKnown _).trans (h.flags symbolId), fun s _ => h.flags s⟩
  loaded := h.loaded
  startStop := h.startStop

variable {sectionId : ℕ}

theorem Sound.setStartStop (h : graph.Sound shared)
    {queue : List (SectionLoadRequest graph)} (hqueue : ∀ request ∈ queue, graph.Eligible sectionId request) :
    graph.Sound { shared with startStop := update shared.startStop sectionId queue } where
  flags := h.flags
  loaded := h.loaded
  startStop := (forall_update_iff shared.startStop fun o queue =>
    ∀ request ∈ queue, graph.Eligible o request).mpr ⟨hqueue, fun o _ => h.startStop o⟩

theorem Sound.reference (h : graph.Sound shared) (hflags : flags.Referencing) :
    graph.Sound (shared.reference symbolId flags).1 := h.addFlags hflags

theorem wanted_reference (h : graph.Reached (.symbol symbolId)) :
    ∀ op ∈ (shared.reference symbolId flags).2, graph.Wanted op := by
  intro op hop
  unfold Shared.reference at hop
  split at hop
  · cases hop
  · obtain rfl := mem_singleton.mp hop
    exact h

variable {debug : Bool} {header : SectionHeader} {rel : Relocation}
  {result : Shared graph × List (Op graph) × Bool} {start : ℕ}

theorem execRelocation_skips {localSymbol : ℕ} (h : graph.Sound shared)
    (hexec : graph.execRelocation start header rel localSymbol debug shared = .ok result) :
    result.2.2 = graph.skipsNext start header rel localSymbol debug := by
  obtain ⟨effect, heffect, hres⟩ := bind_eq_ok.mp hexec
  cases hres
  have hsame := (h.flags (graph.definition (start + localSymbol))).merge
    (h.flags (start + localSymbol))
  rw [relocationEffect_congr hsame] at heffect
  simp only [skipsNext, heffect]

theorem execRelocation_wanted {localSymbol : ℕ} (h : graph.Sound shared)
    (hreached : graph.Reached (.symbol (graph.definition (start + localSymbol))))
    (hexec : graph.execRelocation start header rel localSymbol debug shared = .ok result) :
    graph.Sound result.1 ∧ ∀ op ∈ result.2.1, graph.Wanted op := by
  obtain ⟨effect, heffect, hres⟩ := bind_eq_ok.mp hexec
  cases hres
  refine ⟨h.reference (.union (referencing_relocationEffect heffect) ?_), fun op hop => ?_⟩
  · split
    · decide
    · decide
  · rcases mem_append.mp hop with hop | hop
    · exact wanted_reference hreached op hop
    · split at hop
      · obtain rfl := mem_singleton.mp hop
        trivial
      · cases hop

theorem execRelocations_wanted {skip : Bool}
    {rels : List Relocation} {result : Shared graph × List (Op graph)} (h : graph.Sound shared)
    (hwanted : graph.Wanted (.relocations start header skip rels debug))
    (hexec : graph.execRelocations start header skip rels debug shared = .ok result) :
    graph.Sound result.1 ∧ ∀ op ∈ result.2, graph.Wanted op := by
  cases rels with
  | nil =>
    cases hexec
    exact ⟨h, nofun⟩
  | cons rel rest =>
    cases skip with
    | true =>
      cases hexec
      refine ⟨h, fun op hop => ?_⟩
      obtain rfl := mem_singleton.mp hop
      exact hwanted
    | false =>
      obtain ⟨symbol, offset, rawType⟩ := rel
      cases symbol with
      | none =>
        cases hexec
        refine ⟨h, fun op hop => ?_⟩
        obtain rfl := mem_singleton.mp hop
        exact hwanted
      | some localSymbol =>
        obtain ⟨processed, hprocessed, hres⟩ := bind_eq_ok.mp hexec
        cases hres
        have hskip := execRelocation_skips h hprocessed
        obtain ⟨hsound, hops⟩ := execRelocation_wanted h (hwanted _ List.mem_cons_self) hprocessed
        refine ⟨hsound, fun op hop => ?_⟩
        rcases mem_append.mp hop with hop | hop
        · exact hops op hop
        · obtain rfl := mem_singleton.mp hop
          rw [hskip]
          exact fun s hs => hwanted s (List.mem_cons_of_mem _ hs)

variable {obj : Object} {request : SectionLoadRequest graph} {sec : Section}

theorem sectionAt_eq (hfile : graph.fileAt request.file = some (.object obj))
    (hsec : obj.sections[request.sectionIndex]? = some sec) :
    graph.sectionAt request = some (obj, sec) := by
  unfold sectionAt
  rw [hfile]
  show (obj.sections[request.sectionIndex]?).map _ = _
  rw [hsec]
  rfl

theorem sectionOps_wanted
    (hreached : graph.Reached (.inputSection request)) (hsec : graph.sectionAt request = some (obj, sec))
    (hslot : SectionSlot.isLoadable sec.slot = true) :
    ∀ op ∈ graph.sectionOps obj request.sectionIndex sec, graph.Wanted op := by
  intro op hop
  have href : ∀ s ∈ graph.references obj request.sectionIndex sec, graph.Reached (.symbol s) :=
    fun s hs => hreached.relocation hsec hslot hs
  rcases mem_append.mp hop with hop | hop
  · split at hop
    · cases hop
    · next hwhole =>
      obtain rfl := mem_singleton.mp hop
      refine fun s hs => href s (List.mem_append_left _ ?_)
      rw [if_neg hwhole]
      exact hs
  · split at hop
    · next hsize =>
      obtain ⟨frame, hframe, rfl⟩ := mem_map.mp hop
      refine fun s hs => href s (List.mem_append_right _ ?_)
      rw [if_pos hsize]
      exact mem_flatMap.mpr ⟨frame, hframe, hs⟩
    · cases hop

theorem execSection_wanted (hreached : graph.Reached (.inputSection request))
    (hexec : graph.execSection request shared = .ok ops) : ∀ op ∈ ops, graph.Wanted op := by
  unfold execSection at hexec
  split at hexec
  · next obj hfile =>
    split at hexec
    · cases hexec
    · next sec hsec =>
      have hat := sectionAt_eq hfile hsec
      have hload : SectionSlot.isLoadable sec.slot = true →
          ∀ op ∈ graph.sectionOps obj request.sectionIndex sec ++ [.setLoaded request],
            graph.Wanted op := by
        intro hslot op hop
        rcases mem_append.mp hop with hop | hop
        · exact sectionOps_wanted hreached hat hslot op hop
        · obtain rfl := mem_singleton.mp hop
          exact ⟨hreached, obj, sec, hat, .inl hslot⟩
      split at hexec
      · cases hexec
        exact nofun
      · cases hslot : sec.slot with
        | unloaded eligible | mustLoad =>
          rw [hslot] at hexec
          cases hexec
          exact hload (by rw [hslot]; rfl)
        | unloadedDebugInfo =>
          rw [hslot] at hexec
          cases hexec
          intro op hop
          obtain rfl := mem_singleton.mp hop
          exact ⟨hreached, obj, sec, hat, .inr hslot⟩
        | discard => rw [hslot] at hexec; cases hexec
        | frameData | mergeStrings | noteGnuProperty | riscvVAttributes =>
          rw [hslot] at hexec
          cases hexec
          exact nofun
  · cases hexec

theorem execSymbol_wanted (hreached : graph.Reached (.symbol symbolId)) :
    ∀ op ∈ graph.execSymbol symbolId, graph.Wanted op := by
  intro op hop
  unfold execSymbol at hop
  split at hop
  · next obj hfile =>
    split at hop
    · next index hindex =>
      obtain rfl := mem_singleton.mp hop
      exact hreached.definition hfile hindex
    · cases hop
  · next start sectionIds hfile =>
    split at hop
    · next sectionId hid =>
      obtain rfl := mem_singleton.mp hop
      exact fun request heligible => hreached.startStop hfile hid heligible
    · cases hop
  · cases hop

theorem execExport_wanted {exportAll : Bool} (h : graph.Sound shared)
    (hwanted : graph.Wanted (.exportSymbol symbolId exportAll)) :
    graph.Sound (graph.execExport symbolId exportAll shared).1
      ∧ ∀ op ∈ (graph.execExport symbolId exportAll shared).2, graph.Wanted op := by
  unfold execExport
  split
  · next obj hfile =>
    split
    · next hcan =>
      have hlocal : ValueFlag.downgradeToLocal ∉ graph.flags symbolId := fun hmem =>
        hcan.2 ((h.flags symbolId .downgradeToLocal rfl).mpr hmem)
      refine ⟨h.addFlags (by decide), fun op hop => ?_⟩
      split at hop
      · cases hop
      · obtain rfl := mem_singleton.mp hop
        exact hwanted obj hfile hcan.1 hlocal
    · exact ⟨h, nofun⟩
  · exact ⟨h, nofun⟩

theorem execUndefined_wanted (h : graph.Sound shared)
    (hwanted : graph.Wanted (.requestUndefined symbolId)) :
    ∀ op ∈ graph.execUndefined symbolId shared, graph.Wanted op := by
  intro op hop
  simp only [execUndefined] at hop
  split at hop
  · cases hop
  · next hflags =>
    split at hop
    · next hne =>
      obtain rfl := mem_singleton.mp hop
      refine hwanted (fun hknown => hflags ?_) hne
      exact ⟨(h.flags _ .dynamic rfl).mpr hknown.1, (h.flags _ .absolute rfl).mpr hknown.2⟩
    · cases hop

theorem execPop_wanted (h : graph.Sound shared) (hwanted : graph.Wanted (.popStartStop sectionId)) :
    graph.Sound (graph.execPop sectionId shared).1
      ∧ ∀ op ∈ (graph.execPop sectionId shared).2, graph.Wanted op := by
  unfold execPop
  split
  · exact ⟨h, nofun⟩
  · next request rest hqueue =>
    have heligible : ∀ r ∈ request :: rest, graph.Eligible sectionId r := hqueue ▸ h.startStop sectionId
    refine ⟨h.setStartStop fun r hr => heligible r (List.mem_cons_of_mem _ hr), fun op hop => ?_⟩
    · rcases mem_cons.mp hop with rfl | hop
      · exact hwanted request (heligible request List.mem_cons_self)
      · obtain rfl := mem_singleton.mp hop
        exact hwanted

variable {g : Fin graph.groups} {op : Op graph}

theorem exec_wanted
    {out : Outcome (Op graph) (WorkItem graph) (Shared graph)} (h : graph.Sound shared)
    (hwanted : graph.Wanted op) (hexec : graph.exec g op shared = .ok out) :
    graph.Sound out.shared ∧ (∀ op' ∈ out.next, graph.Wanted op')
      ∧ ∀ item ∈ out.items, graph.Requested item := by
  cases op with
  | send item =>
    cases hexec
    refine ⟨h, fun op hop => (nomatch hop), fun item' hitem => ?_⟩
    unfold Outcome.items at hitem
    by_cases howner : graph.owner item = g
    · simp only [if_pos howner] at hitem
      obtain rfl := mem_singleton.mp hitem
      exact hwanted
    · simp only [if_neg howner] at hitem
      obtain rfl := mem_singleton.mp hitem
      exact hwanted
  | post item =>
    cases hexec
    refine ⟨h, fun op hop => (nomatch hop), fun item' hitem => ?_⟩
    obtain rfl := mem_singleton.mp hitem
    exact hwanted
  | relocations start header skip rels debug =>
    obtain ⟨result, hres, hout⟩ := bind_eq_ok.mp hexec
    cases hout
    obtain ⟨hsound, hops⟩ := execRelocations_wanted h hwanted hres
    exact ⟨hsound, hops, nofun⟩
  | handleSection request =>
    obtain ⟨ops, hops, hout⟩ := bind_eq_ok.mp hexec
    cases hout
    exact ⟨h, execSection_wanted hwanted hops, nofun⟩
  | setLoaded request =>
    cases hexec
    refine ⟨⟨h.flags, fun r hr => ?_, h.startStop⟩, fun op hop => (nomatch hop),
      fun item hitem => (nomatch hitem)⟩
    by_cases heq : r = request
    · subst heq
      exact hwanted
    · exact h.loaded r ((update_of_ne heq _ _).symm.trans hr)
  | loadSymbol s =>
    cases hexec
    exact ⟨h, execSymbol_wanted hwanted, nofun⟩
  | copyRelocate s =>
    obtain ⟨u, -, hout⟩ := bind_eq_ok.mp hexec
    cases hout
    exact ⟨h, fun op hop => (nomatch hop), fun item hitem => (nomatch hitem)⟩
  | exportSymbol s exportAll =>
    cases hexec
    obtain ⟨hsound, hops⟩ := execExport_wanted h hwanted
    exact ⟨hsound, hops, nofun⟩
  | requestUndefined s =>
    cases hexec
    exact ⟨h, execUndefined_wanted h hwanted, nofun⟩
  | mark s flag =>
    cases hexec
    refine ⟨h.addFlags fun flag' hflag' => ?_, fun op hop => (nomatch hop),
      fun item hitem => (nomatch hitem)⟩
    obtain rfl := Finset.mem_singleton.mp hflag'
    exact hwanted
  | demand s =>
    cases hexec
    exact ⟨h.reference (by decide), fun op hop => @wanted_reference graph shared s {.direct} hwanted op hop,
      nofun⟩
  | pushStartStop sectionId request =>
    cases hexec
    refine ⟨h.setStartStop fun r hr => ?_, fun op hop => (nomatch hop),
      fun item hitem => (nomatch hitem)⟩
    rcases mem_append.mp hr with hr | hr
    · exact h.startStop sectionId r hr
    · obtain rfl := mem_singleton.mp hr
      exact hwanted
  | popStartStop sectionId =>
    cases hexec
    obtain ⟨hsound, hops⟩ := execPop_wanted h hwanted
    exact ⟨hsound, hops, nofun⟩

/-! ## The roots -/

theorem activateSection_wanted (hsec : graph.sectionAt request = some (obj, sec)) :
    ∀ op ∈ graph.activateSection request sec, graph.Wanted op := by
  intro op hop
  unfold activateSection at hop
  cases hslot : sec.slot with
  | mustLoad =>
    rw [hslot] at hop
    obtain rfl := mem_singleton.mp hop
    exact .retained hsec (.inl hslot)
  | unloadedDebugInfo =>
    rw [hslot] at hop
    obtain rfl := mem_singleton.mp hop
    exact .retained hsec (.inr (.inl hslot))
  | mergeStrings =>
    rw [hslot] at hop
    obtain rfl := mem_singleton.mp hop
    exact .retained hsec (.inr (.inr hslot))
  | unloaded eligible =>
    simp only [hslot] at hop
    cases hgc : graph.args.shouldGcSections with
    | false =>
      rw [hgc] at hop
      obtain rfl := mem_singleton.mp hop
      exact .uncollected hgc hsec hslot
    | true =>
      rw [hgc] at hop
      cases eligible with
      | true =>
        obtain rfl := mem_singleton.mp hop
        exact ⟨hgc, obj, sec, hsec, hslot, rfl⟩
      | false => cases hop
  | _ => rw [hslot] at hop; cases hop

theorem mem_zipIdx {α : Type} {xs : List α} {p : α × ℕ} (h : p ∈ xs.zipIdx) :
    xs[p.2]? = some p.1 := by
  exact (List.mem_zipIdx_iff_getElem?.mp h)

variable {id : FileId graph.groups}

theorem activateObject_wanted (hfile : graph.fileAt id = some (.object obj)) :
    ∀ op ∈ graph.activateObject id obj, graph.Wanted op := by
  intro op hop
  rcases mem_append.mp hop with hop | hop
  · rcases mem_append.mp hop with hop | hop
    · obtain ⟨sec, hsec, hop⟩ := mem_flatMap.mp hop
      exact activateSection_wanted (sectionAt_eq hfile (mem_zipIdx hsec)) op hop
    · obtain ⟨frame, hframe, hop⟩ := mem_flatMap.mp hop
      obtain ⟨entry, hentry, hop⟩ := mem_flatMap.mp hop
      cases entry with
      | cie rels =>
        obtain ⟨rel, hrel, rfl⟩ := mem_map.mp hop
        exact fun s hs => .personality hfile hframe hentry hrel hs
      | fde target rels => cases hop
  · cases hexports : obj.exports with
    | none =>
      rw [hexports] at hop
      cases hop
    | some exportAll =>
      rw [hexports] at hop
      obtain ⟨index, hindex, rfl⟩ := mem_map.mp hop
      have hlt : index < obj.symbols.length := List.mem_range.mp hindex
      have howned : graph.fileForSymbol (obj.startSymbolId + index) = id :=
        graph.owned id _ hfile _ ⟨Nat.le_add_right _ _, Nat.add_lt_add_left hlt _⟩
      intro obj' hobj' hcan hlocal
      unfold fileOf at hobj'
      rw [howned, hfile] at hobj'
      obtain rfl := File.object.inj (Option.some.inj hobj')
      exact .exported hfile hexports hlt hcan hlocal

theorem fileOps_wanted {file : File}
    (hfile : graph.fileAt id = some file) : ∀ op ∈ graph.fileOps id file, graph.Wanted op := by
  intro op hop
  cases file with
  | prelude start entry definitions =>
    rcases mem_append.mp hop with hop | hop
    · cases entry with
      | none => cases hop
      | some s =>
        obtain rfl := mem_singleton.mp hop
        exact .entry hfile
    · obtain ⟨sym, hsym, hop⟩ := mem_flatMap.mp hop
      have hindex := mem_zipIdx hsym
      unfold activateDefsym at hop
      split at hop
      · cases hop
      · next hcanon =>
        cases hdef : sym.1 with
        | other => rw [hdef] at hop; cases hop
        | defsymAbsolute =>
          rw [hdef] at hop
          obtain rfl := mem_singleton.mp hop
          rfl
        | redirect target =>
          rw [hdef] at hop hindex
          rcases mem_cons.mp hop with rfl | hop
          · rfl
          · cases target with
            | none => cases hop
            | some t =>
              obtain rfl := mem_singleton.mp hop
              exact .defsym hfile hindex (not_not.mp hcanon)
  | object obj => exact activateObject_wanted hfile op hop
  | dynamic start numSymbols =>
    obtain ⟨index, hindex, rfl⟩ := mem_map.mp hop
    intro hflags hne obj hobj hcan hlocal
    exact .imported hfile (List.mem_range.mp hindex) hne hflags hobj hcan hlocal
  | linkerScript start isHidden =>
    obtain ⟨hidden, hhidden, hop⟩ := mem_flatMap.mp hop
    split at hop
    · cases hop
    · obtain rfl := mem_singleton.mp hop
      rfl
  | notLoaded => cases hop
  | syntheticSymbols start sectionIds => cases hop

theorem mem_activation (hop : op ∈ (graph.activation g).flatten) :
    ∃ id file, graph.fileAt id = some file ∧ op ∈ graph.fileOps id file := by
  obtain ⟨ops, hops, hop⟩ := List.mem_flatten.mp hop
  obtain ⟨file, hfile, rfl⟩ := mem_map.mp hops
  exact ⟨⟨g, file.2⟩, file.1, mem_zipIdx hfile, hop⟩

theorem program_wanted {item : WorkItem graph} (h : graph.Requested item) :
    ∀ op ∈ graph.program item, graph.Wanted op := by
  intro op hop
  cases item with
  | loadGlobalSymbol s =>
    obtain rfl := mem_singleton.mp hop
    exact h
  | copyRelocateSymbol s =>
    obtain rfl := mem_singleton.mp hop
    trivial
  | loadSection request | exportDynamic s =>
    obtain rfl := mem_singleton.mp hop
    exact h

theorem sound {s : State (Fin graph.groups) (Op graph) (WorkItem graph) (Shared graph) String}
    (h : graph.system.Reachable s) (herrors : s.errors = []) :
    graph.Sound s.shared ∧ ∀ op, s.Pending op → graph.Wanted op := by
  have hjustified := @WorkerSlots.justified _ _ _ _ _ _ graph.system _ _ s graph.Sound graph.Wanted
    graph.Requested ⟨fun s flag _ => Iff.rfl, fun r hr => (nomatch hr), fun o r hr => (nomatch hr)⟩
    (fun g op hop => by
      obtain ⟨id, file, hfile, hop⟩ := mem_activation hop
      exact fileOps_wanted hfile op hop)
    (fun item hitem => program_wanted hitem)
    (fun g op shared out hsound hwanted hexec => exec_wanted hsound hwanted hexec) h herrors
  exact ⟨hjustified.1, hjustified.2.1⟩

end

end Graph

end Sld.Gc
