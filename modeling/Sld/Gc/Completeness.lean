/-
# `Gc.Completeness` — all that is reachable is loaded

Whoever refers to a symbol first requests it, and an operation that has been
performed has had its effect, or what it asked for is still owed.  At the
end nothing is owed any more.

    Leads           which operations lead to which others
    Follows         what holds once an operation has been performed
    Carried         the invariant of a run
-/
import Sld.Gc.Reachability

namespace Sld.Gc

open Sld.WorkerSlots (Outcome System State Turn FromActivation FromProgram)
open Function (update_of_ne update_self)
open List (mem_append mem_append_left mem_append_right mem_cons mem_flatMap mem_map mem_singleton
  mem_singleton_self)
open Except (ok)
open Text.Reader (bind_eq_ok)

namespace Graph

variable (graph : Graph)

abbrev RunState :=
  State (Fin graph.groups) (Op graph) (WorkItem graph) (Shared graph) String

/-! ## Which operations lead to others -/

/-- Operations of which nothing is said. -/
def Op.isPlain {graph : Graph} : Op graph → Bool
  | .send _ | .post _ | .relocations _ _ _ _ _ => true
  | _ => false

inductive Leads : Op graph → Op graph → Prop
  | plain {op op' : Op graph} : op'.isPlain = true → Leads op op'
  | loading {request : SectionLoadRequest graph} :
      Leads (.handleSection request) (.setLoaded request)
  | exporting {symbolId : ℕ} {exportAll : Bool} {obj : Object} :
      graph.fileOf symbolId = some (.object obj) →
      Leads (.exportSymbol symbolId exportAll) (.loadSymbol symbolId)
  | synthetic {symbolId start sectionId : ℕ} {sectionIds : List (Option ℕ)} :
      graph.fileOf symbolId = some (.syntheticSymbols start sectionIds) →
      Leads (.loadSymbol symbolId) (.popStartStop sectionId)
  | again {sectionId : ℕ} : Leads (.popStartStop sectionId) (.popStartStop sectionId)

variable {graph}

section

variable {g : Fin graph.groups} {op op' : Op graph} {shared : Shared graph}
  {out : Outcome (Op graph) (WorkItem graph) (Shared graph)}

theorem isPlain_of_reference {symbolId : ℕ} {flags : ValueFlags}
    (hop : op ∈ (shared.reference symbolId flags).2) : op.isPlain = true := by
  unfold Shared.reference at hop
  split at hop
  · cases hop
  · obtain rfl := mem_singleton.mp hop
    rfl

theorem isPlain_of_relocations {start : ℕ} {header : SectionHeader} {skip debug : Bool}
    {rels : List Relocation} {result : Shared graph × List (Op graph)}
    (hexec : graph.execRelocations start header skip rels debug shared = .ok result)
    (hop : op ∈ result.2) : op.isPlain = true := by
  cases rels with
  | nil =>
    cases hexec
    cases hop
  | cons rel rest =>
    cases skip with
    | true =>
      cases hexec
      obtain rfl := mem_singleton.mp hop
      rfl
    | false =>
      obtain ⟨symbol, offset, rawType⟩ := rel
      cases symbol with
      | none =>
        cases hexec
        obtain rfl := mem_singleton.mp hop
        rfl
      | some localSymbol =>
        obtain ⟨processed, hprocessed, hresult⟩ := bind_eq_ok.mp hexec
        cases hresult
        obtain ⟨effect, -, hresult'⟩ := bind_eq_ok.mp hprocessed
        cases hresult'
        rcases mem_append.mp hop with hop | hop
        · rcases mem_append.mp hop with hop | hop
          · exact isPlain_of_reference hop
          · split at hop
            · obtain rfl := mem_singleton.mp hop
              rfl
            · cases hop
        · obtain rfl := mem_singleton.mp hop
          rfl

variable {obj : Object} {sec : Section}

theorem isPlain_of_sectionOps {index : ℕ}
    (hop : op ∈ graph.sectionOps obj index sec) : op.isPlain = true := by
  rcases mem_append.mp hop with hop | hop
  · split at hop
    · cases hop
    · obtain rfl := mem_singleton.mp hop
      rfl
  · split at hop
    · obtain ⟨frame, -, rfl⟩ := mem_map.mp hop
      rfl
    · cases hop

variable {ops : List (Op graph)} {request : SectionLoadRequest graph}

theorem execSection_eq (hsec : graph.sectionAt request = some (obj, sec))
    (hexec : graph.execSection request shared = .ok ops) :
    (shared.loaded request = true ∧ ops = []) ∨ (SectionSlot.isLoadable sec.slot = true
        ∧ ops = graph.sectionOps obj request.sectionIndex sec ++ [.setLoaded request])
      ∨ (sec.slot = .unloadedDebugInfo ∧ ops = [.setLoaded request])
      ∨ (SectionSlot.isLoadable sec.slot = false ∧ sec.slot ≠ .unloadedDebugInfo ∧ ops = []) := by
  unfold sectionAt at hsec
  unfold execSection at hexec
  split at hsec
  · next obj' hfile =>
    obtain ⟨sec', hsec', heq⟩ := Option.map_eq_some_iff.mp hsec
    obtain ⟨rfl, rfl⟩ := Prod.mk.inj heq
    simp only [hfile, hsec'] at hexec
    split at hexec
    · next hloaded => exact .inl ⟨hloaded, (ok.inj hexec).symm⟩
    · refine .inr ?_
      cases hslot : sec'.slot with
      | unloaded eligible | mustLoad =>
        rw [hslot] at hexec
        exact .inl ⟨rfl, (ok.inj hexec).symm⟩
      | unloadedDebugInfo =>
        rw [hslot] at hexec
        exact .inr (.inl ⟨rfl, (ok.inj hexec).symm⟩)
      | discard => rw [hslot] at hexec; cases hexec
      | frameData | mergeStrings | noteGnuProperty | riscvVAttributes =>
        rw [hslot] at hexec
        exact .inr (.inr ⟨rfl, nofun, (ok.inj hexec).symm⟩)
  · cases hsec

theorem sectionAt_of_execSection (hexec : graph.execSection request shared = .ok ops) :
    ∃ obj sec, graph.sectionAt request = some (obj, sec) := by
  unfold execSection at hexec
  split at hexec
  · next obj hfile =>
    split at hexec
    · cases hexec
    · next sec hsec => exact ⟨obj, sec, sectionAt_eq hfile hsec⟩
  · cases hexec

theorem leads_of_section (hexec : graph.execSection request shared = .ok ops) (hop : op ∈ ops) :
    graph.Leads (.handleSection request) op := by
  obtain ⟨obj, sec, hsec⟩ := sectionAt_of_execSection hexec
  rcases execSection_eq hsec hexec with ⟨-, rfl⟩ | ⟨-, rfl⟩ | ⟨-, rfl⟩ | ⟨-, -, rfl⟩
  · cases hop
  · rcases mem_append.mp hop with hop | hop
    · exact .plain (isPlain_of_sectionOps hop)
    · obtain rfl := mem_singleton.mp hop
      exact .loading
  · obtain rfl := mem_singleton.mp hop
    exact .loading
  · cases hop

variable {symbolId : ℕ}

theorem leads_of_symbol (hop : op ∈ graph.execSymbol symbolId) :
    graph.Leads (.loadSymbol symbolId) op := by
  unfold execSymbol at hop
  split at hop
  · split at hop
    · obtain rfl := mem_singleton.mp hop
      exact .plain rfl
    · cases hop
  · next start sectionIds hfile =>
    split at hop
    · obtain rfl := mem_singleton.mp hop
      exact .synthetic hfile
    · cases hop
  · cases hop

theorem leads_of_export {exportAll : Bool}
    (hop : op ∈ (graph.execExport symbolId exportAll shared).2) :
    graph.Leads (.exportSymbol symbolId exportAll) op := by
  unfold execExport at hop
  split at hop
  · next obj hfile =>
    split at hop
    · split at hop
      · cases hop
      · obtain rfl := mem_singleton.mp hop
        exact .exporting hfile
    · cases hop
  · cases hop

theorem leads_of_undefined (hop : op ∈ graph.execUndefined symbolId shared) :
    op.isPlain = true := by
  simp only [execUndefined] at hop
  split at hop
  · cases hop
  · split at hop
    · obtain rfl := mem_singleton.mp hop
      rfl
    · cases hop

theorem leads_of_pop {sectionId : ℕ} (hop : op ∈ (graph.execPop sectionId shared).2) :
    graph.Leads (.popStartStop sectionId) op := by
  unfold execPop at hop
  split at hop
  · cases hop
  · rcases mem_cons.mp hop with rfl | hop
    · exact .plain rfl
    · obtain rfl := mem_singleton.mp hop
      exact .again

theorem exec_leads (hexec : graph.exec g op shared = .ok out) (hop : op' ∈ out.next) :
    graph.Leads op op' := by
  cases op with
  | relocations start header skip rels debug =>
    obtain ⟨result, hresult, hout⟩ := bind_eq_ok.mp hexec
    cases hout
    exact .plain (isPlain_of_relocations hresult hop)
  | handleSection request =>
    obtain ⟨ops, hops, hout⟩ := bind_eq_ok.mp hexec
    cases hout
    exact leads_of_section hops hop
  | copyRelocate s =>
    obtain ⟨u, -, hout⟩ := bind_eq_ok.mp hexec
    cases hout
    cases hop
  | loadSymbol s =>
    cases hexec
    exact leads_of_symbol hop
  | exportSymbol s exportAll =>
    cases hexec
    exact leads_of_export hop
  | requestUndefined s =>
    cases hexec
    exact .plain (leads_of_undefined hop)
  | demand s =>
    cases hexec
    exact .plain (@isPlain_of_reference graph op' shared s {.direct} hop)
  | popStartStop sectionId =>
    cases hexec
    exact leads_of_pop hop
  | _ => obtain rfl := ok.inj hexec; cases hop

end

/-! ## What belongs to the activation and what does not -/

variable (graph)

/-- Loading the symbol requests something. -/
def CanLoad (symbolId : ℕ) : Prop :=
  (∃ obj, graph.fileOf symbolId = some (.object obj))
    ∨ ∃ start sectionIds, graph.fileOf symbolId = some (.syntheticSymbols start sectionIds)

/-- What an activation leads to. -/
def Activates : Op graph → Prop
  | .popStartStop _ | .handleSection _ | .setLoaded _ => False
  | .loadSymbol s => ∃ obj, graph.fileOf s = some (.object obj)
  | .mark s _ => ¬ graph.CanLoad s
  | _ => True

/-- What the items of a group lead to. -/
def Processes (g : Fin graph.groups) : Op graph → Prop
  | .pushStartStop _ _ | .mark _ _ => False
  | .loadSymbol s => ∀ start sectionIds,
      graph.fileOf s = some (.syntheticSymbols start sectionIds) → graph.system.delayed g = true
  | .popStartStop _ => graph.system.delayed g = true
  | _ => True

variable {graph}

section

variable {g : Fin graph.groups} {op op' : Op graph}

theorem Activates.of_plain (h : op.isPlain = true) : graph.Activates op := by
  cases op with
  | send item => trivial
  | post item => trivial
  | relocations start header skip rels debug => trivial
  | _ => cases h

theorem Processes.of_plain (h : op.isPlain = true) : graph.Processes g op := by
  cases op with
  | send item => trivial
  | post item => trivial
  | relocations start header skip rels debug => trivial
  | _ => cases h

theorem Activates.leads (h : graph.Activates op) (hleads : graph.Leads op op') :
    graph.Activates op' := by
  cases hleads with
  | plain hplain => exact .of_plain hplain
  | loading => exact h
  | exporting hfile => exact ⟨_, hfile⟩
  | synthetic hfile =>
    obtain ⟨obj, hobj⟩ := h
    rw [hfile] at hobj
    cases hobj
  | again => exact h

theorem Processes.leads (h : graph.Processes g op) (hleads : graph.Leads op op') :
    graph.Processes g op' := by
  cases hleads with
  | plain hplain => exact .of_plain hplain
  | loading => trivial
  | exporting hfile =>
    intro start sectionIds hsynthetic
    rw [hfile] at hsynthetic
    cases hsynthetic
  | synthetic hfile => exact h _ _ hfile
  | again => exact h

variable {file : File} {id : FileId graph.groups}

theorem not_canLoad {symbolId : ℕ}
    (hfile : graph.fileAt id = some file) (hcontains : file.Contains symbolId)
    (hobject : ∀ obj, file ≠ .object obj)
    (hsynthetic : ∀ start sectionIds, file ≠ .syntheticSymbols start sectionIds) :
    ¬ graph.CanLoad symbolId := by
  have hof : graph.fileOf symbolId = some file := by
    unfold fileOf
    rw [graph.owned id file hfile symbolId hcontains]
    exact hfile
  rintro (⟨obj, hobj⟩ | ⟨start, sectionIds, hids⟩)
  · exact hobject obj (Option.some.inj (hof.symm.trans hobj))
  · exact hsynthetic start sectionIds (Option.some.inj (hof.symm.trans hids))

theorem activates_section {request : SectionLoadRequest graph} {sec : Section}
    (hop : op ∈ graph.activateSection request sec) : graph.Activates op := by
  unfold activateSection at hop
  split at hop
  · obtain rfl := mem_singleton.mp hop
    trivial
  · obtain rfl := mem_singleton.mp hop
    trivial
  · obtain rfl := mem_singleton.mp hop
    trivial
  · split at hop
    · obtain rfl := mem_singleton.mp hop
      trivial
    · split at hop
      · obtain rfl := mem_singleton.mp hop
        trivial
      · cases hop
  · cases hop
  · cases hop
  · cases hop
  · cases hop

theorem activates_object {obj : Object}
    (hop : op ∈ graph.activateObject id obj) : graph.Activates op := by
  rcases mem_append.mp hop with hop | hop
  · rcases mem_append.mp hop with hop | hop
    · obtain ⟨sec, -, hop⟩ := mem_flatMap.mp hop
      exact activates_section hop
    · obtain ⟨frame, -, hop⟩ := mem_flatMap.mp hop
      obtain ⟨entry, -, hop⟩ := mem_flatMap.mp hop
      cases entry with
      | cie rels =>
        obtain ⟨rel, -, rfl⟩ := mem_map.mp hop
        trivial
      | fde target rels => cases hop
  · cases hexports : obj.exports with
    | none => rw [hexports] at hop; cases hop
    | some exportAll =>
      rw [hexports] at hop
      obtain ⟨index, -, rfl⟩ := mem_map.mp hop
      trivial

theorem activates_file (hfile : graph.fileAt id = some file) (hop : op ∈ graph.fileOps id file) :
    graph.Activates op := by
  cases file with
  | prelude start entry definitions =>
    rcases mem_append.mp hop with hop | hop
    · cases entry with
      | none => cases hop
      | some s =>
        obtain rfl := mem_singleton.mp hop
        trivial
    · obtain ⟨sym, hsym, hop⟩ := mem_flatMap.mp hop
      have hlt : sym.2 < definitions.length := (List.getElem?_eq_some_iff.mp (mem_zipIdx hsym)).1
      have hmark : ¬ graph.CanLoad (start + sym.2) :=
        not_canLoad hfile ⟨Nat.le_add_right _ _, Nat.add_lt_add_left hlt _⟩ nofun nofun
      unfold activateDefsym at hop
      split at hop
      · cases hop
      · cases hdef : sym.1 with
        | other => rw [hdef] at hop; cases hop
        | defsymAbsolute =>
          rw [hdef] at hop
          obtain rfl := mem_singleton.mp hop
          exact hmark
        | redirect target =>
          rw [hdef] at hop
          rcases mem_cons.mp hop with rfl | hop
          · exact hmark
          · cases target with
            | none => cases hop
            | some t =>
              obtain rfl := mem_singleton.mp hop
              trivial
  | object obj => exact activates_object hop
  | dynamic start numSymbols =>
    obtain ⟨index, -, rfl⟩ := mem_map.mp hop
    trivial
  | linkerScript start isHidden =>
    obtain ⟨hidden, hhidden, hop⟩ := mem_flatMap.mp hop
    have hlt : hidden.2 < isHidden.length := (List.getElem?_eq_some_iff.mp (mem_zipIdx hhidden)).1
    split at hop
    · cases hop
    · obtain rfl := mem_singleton.mp hop
      exact not_canLoad hfile ⟨Nat.le_add_right _ _, Nat.add_lt_add_left hlt _⟩ nofun nofun
  | notLoaded => cases hop
  | syntheticSymbols start sectionIds => cases hop

theorem activates (h : FromActivation graph.system g op) : graph.Activates op := by
  induction h with
  | start hop =>
    obtain ⟨id, file, hfile, hop⟩ := mem_activation hop
    exact activates_file hfile hop
  | next _ hexec hop ih => exact ih.leads (exec_leads hexec hop)

theorem processes (h : FromProgram graph.system g op) : graph.Processes g op := by
  induction h with
  | @start op item howner hop =>
    cases item with
    | loadGlobalSymbol s =>
      obtain rfl := mem_singleton.mp hop
      intro start sectionIds hfile
      rw [← show (graph.fileForSymbol s).group = g from howner]
      exact List.any_eq_true.mpr ⟨_, List.mem_of_getElem? hfile, rfl⟩
    | copyRelocateSymbol s | loadSection request | exportDynamic s =>
      obtain rfl := mem_singleton.mp hop
      trivial
  | next _ hexec hop ih => exact ih.leads (exec_leads hexec hop)

end

/-! ## What an operation does to the data -/

section

variable {g : Fin graph.groups} {op : Op graph} {shared : Shared graph}
  {out : Outcome (Op graph) (WorkItem graph) (Shared graph)}

variable {flags : ValueFlags} {symbolId : ℕ}

theorem resolution_addFlags {s : ℕ} (hne : s ≠ symbolId)
    (h : ((shared.addFlags symbolId flags).flags s).HasResolution) :
    (shared.flags s).HasResolution := by
  rw [show (shared.addFlags symbolId flags).flags s = shared.flags s from update_of_ne hne _ _] at h
  exact h

theorem resolution_reference {s : ℕ}
    (h : ((shared.reference symbolId flags).1.flags s).HasResolution) :
    (shared.flags s).HasResolution
      ∨ .send (.loadGlobalSymbol s) ∈ (shared.reference symbolId flags).2 := by
  by_cases hs : s = symbolId
  · subst hs
    refine or_iff_not_imp_left.mpr fun hnone => ?_
    unfold Shared.reference
    rw [if_neg hnone]
    exact mem_singleton_self _
  · exact .inl (resolution_addFlags hs h)

theorem referenced_or_sent (shared : Shared graph) (symbolId : ℕ) (flags : ValueFlags) :
    (shared.flags symbolId).HasResolution
      ∨ .send (.loadGlobalSymbol symbolId) ∈ (shared.reference symbolId flags).2 := by
  refine or_iff_not_imp_left.mpr fun hnone => ?_
  unfold Shared.reference
  rw [if_neg hnone]
  exact mem_singleton_self _

variable {debug : Bool} {header : SectionHeader} {result : Shared graph × List (Op graph)}
  {start : ℕ}

theorem execRelocations_eq {rel : Relocation} {localSymbol : ℕ} {rest : List Relocation}
    (h : graph.Sound shared) (hsymbol : rel.symbol = some localSymbol)
    (hexec : graph.execRelocations start header false (rel :: rest) debug shared = .ok result) :
    ∃ flags, result.1 = (shared.reference (graph.definition (start + localSymbol)) flags).1
      ∧ (∀ op ∈ (shared.reference (graph.definition (start + localSymbol)) flags).2, op ∈ result.2)
      ∧ .relocations start header (graph.skipsNext start header rel localSymbol debug) rest debug
        ∈ result.2 := by
  obtain ⟨symbol, offset, rawType⟩ := rel
  obtain rfl : symbol = some localSymbol := hsymbol
  obtain ⟨processed, hprocessed, hresult⟩ := bind_eq_ok.mp hexec
  have hskip := execRelocation_skips h hprocessed
  cases hresult
  obtain ⟨effect, -, heffect⟩ := bind_eq_ok.mp hprocessed
  cases heffect
  refine ⟨_, rfl, fun op hop => mem_append_left _ (mem_append_left _ hop), ?_⟩
  rw [← hskip]
  exact mem_append_right _ (mem_singleton_self _)

variable {rels : List Relocation}

theorem resolution_relocations {s : ℕ} {skip : Bool} (h : graph.Sound shared)
    (hexec : graph.execRelocations start header skip rels debug shared = .ok result)
    (hres : (result.1.flags s).HasResolution) :
    (shared.flags s).HasResolution ∨ .send (.loadGlobalSymbol s) ∈ result.2 := by
  cases rels with
  | nil =>
    cases hexec
    exact .inl hres
  | cons rel rest =>
    cases skip with
    | true =>
      cases hexec
      exact .inl hres
    | false =>
      cases hsymbol : rel.symbol with
      | none =>
        unfold execRelocations at hexec
        simp only [hsymbol] at hexec
        cases hexec
        exact .inl hres
      | some localSymbol =>
        obtain ⟨flags, hshared, hops, -⟩ := execRelocations_eq h hsymbol hexec
        rw [hshared] at hres
        exact (resolution_reference hres).imp_right (hops _)

theorem resolution_export {s : ℕ} {exportAll : Bool}
    (hres : ((graph.execExport symbolId exportAll shared).1.flags s).HasResolution) :
    (shared.flags s).HasResolution
      ∨ .loadSymbol s ∈ (graph.execExport symbolId exportAll shared).2 := by
  unfold execExport at hres ⊢
  split at hres
  · next obj hfile =>
    split at hres
    · next hcan =>
      rw [if_pos hcan]
      by_cases hs : s = symbolId
      · subst hs
        refine or_iff_not_imp_left.mpr fun hnone => ?_
        rw [if_neg hnone]
        exact mem_singleton_self _
      · exact .inl (resolution_addFlags hs hres)
    · exact .inl hres
  · exact .inl hres

theorem execPop_shared (sectionId : ℕ) (shared : Shared graph) :
    (graph.execPop sectionId shared).1.flags = shared.flags
      ∧ (graph.execPop sectionId shared).1.loaded = shared.loaded := by
  unfold execPop
  split
  · exact ⟨rfl, rfl⟩
  · exact ⟨rfl, rfl⟩

theorem resolution_of_exec {s : ℕ} (h : graph.Sound shared) (hexec : graph.exec g op shared = .ok out)
    (hres : (out.shared.flags s).HasResolution) :
    (shared.flags s).HasResolution ∨ .send (.loadGlobalSymbol s) ∈ out.next
      ∨ .loadSymbol s ∈ out.next ∨ ∃ flag, op = .mark s flag := by
  cases op with
  | relocations start header skip rels debug =>
    obtain ⟨result, hresult, hout⟩ := bind_eq_ok.mp hexec
    cases hout
    exact (resolution_relocations h hresult hres).imp_right .inl
  | handleSection request =>
    obtain ⟨ops, -, hout⟩ := bind_eq_ok.mp hexec
    cases hout
    exact .inl hres
  | copyRelocate s' =>
    obtain ⟨u, -, hout⟩ := bind_eq_ok.mp hexec
    cases hout
    exact .inl hres
  | exportSymbol s' exportAll =>
    cases hexec
    exact (resolution_export hres).imp_right fun hop => .inr (.inl hop)
  | mark s' flag =>
    cases hexec
    by_cases hs : s = s'
    · exact .inr (.inr (.inr ⟨flag, by rw [hs]⟩))
    · exact .inl (resolution_addFlags hs hres)
  | demand s' =>
    cases hexec
    exact (resolution_reference hres).imp_right .inl
  | popStartStop sectionId =>
    cases hexec
    have hflags := (execPop_shared sectionId shared).1
    exact .inl (hflags ▸ hres)
  | _ => obtain rfl := ok.inj hexec; exact .inl hres

theorem execRelocations_shared {skip : Bool} (h : graph.Sound shared)
    (hexec : graph.execRelocations start header skip rels debug shared = .ok result) :
    result.1.loaded = shared.loaded ∧ result.1.startStop = shared.startStop := by
  cases rels with
  | nil =>
    cases hexec
    exact ⟨rfl, rfl⟩
  | cons rel rest =>
    cases skip with
    | true =>
      cases hexec
      exact ⟨rfl, rfl⟩
    | false =>
      cases hsymbol : rel.symbol with
      | none =>
        unfold execRelocations at hexec
        simp only [hsymbol] at hexec
        cases hexec
        exact ⟨rfl, rfl⟩
      | some localSymbol =>
        obtain ⟨flags, hshared, -⟩ := execRelocations_eq h hsymbol hexec
        rw [hshared]
        exact ⟨rfl, rfl⟩

theorem execExport_shared (symbolId : ℕ) (exportAll : Bool) (shared : Shared graph) :
    (graph.execExport symbolId exportAll shared).1.loaded = shared.loaded
      ∧ (graph.execExport symbolId exportAll shared).1.startStop = shared.startStop := by
  unfold execExport
  split
  · split
    · exact ⟨rfl, rfl⟩
    · exact ⟨rfl, rfl⟩
  · exact ⟨rfl, rfl⟩

/-- How the sections change that have been loaded or wait to be. -/
inductive Queues (shared shared' : Shared graph) : Op graph → List (Op graph) → Prop
  | same {op : Op graph} {next : List (Op graph)} : shared'.loaded = shared.loaded →
      shared'.startStop = shared.startStop → (∀ request, op ≠ .setLoaded request) →
      (∀ sectionId request, op ≠ .pushStartStop sectionId request) →
      (∀ sectionId, op = .popStartStop sectionId → shared.startStop sectionId = []) →
      Queues shared shared' op next
  | load {request : SectionLoadRequest graph} {next : List (Op graph)} :
      shared'.loaded = Function.update shared.loaded request true →
      shared'.startStop = shared.startStop → Queues shared shared' (.setLoaded request) next
  | push {sectionId : ℕ} {request : SectionLoadRequest graph} {next : List (Op graph)} :
      shared'.loaded = shared.loaded → shared'.startStop = Function.update shared.startStop sectionId
        (shared.startStop sectionId ++ [request]) →
      Queues shared shared' (.pushStartStop sectionId request) next
  | pop {sectionId : ℕ} {request : SectionLoadRequest graph}
      {rest : List (SectionLoadRequest graph)} : shared'.loaded = shared.loaded →
      shared.startStop sectionId = request :: rest →
      shared'.startStop = Function.update shared.startStop sectionId rest →
      Queues shared shared' (.popStartStop sectionId)
        [.post (.loadSection request), .popStartStop sectionId]

theorem queues_of_exec (h : graph.Sound shared) (hexec : graph.exec g op shared = .ok out) :
    Queues shared out.shared op out.next := by
  cases op with
  | relocations start header skip rels debug =>
    obtain ⟨result, hresult, hout⟩ := bind_eq_ok.mp hexec
    cases hout
    obtain ⟨hloaded, hstartStop⟩ := execRelocations_shared h hresult
    exact .same hloaded hstartStop nofun nofun nofun
  | handleSection request =>
    obtain ⟨ops, -, hout⟩ := bind_eq_ok.mp hexec
    cases hout
    exact .same rfl rfl nofun nofun nofun
  | copyRelocate s =>
    obtain ⟨u, -, hout⟩ := bind_eq_ok.mp hexec
    cases hout
    exact .same rfl rfl nofun nofun nofun
  | exportSymbol s exportAll =>
    cases hexec
    obtain ⟨hloaded, hstartStop⟩ := execExport_shared s exportAll shared
    exact .same hloaded hstartStop nofun nofun nofun
  | popStartStop sectionId =>
    cases hexec
    cases hqueue : shared.startStop sectionId with
    | nil =>
      simp only [execPop, hqueue]
      refine .same rfl rfl nofun nofun fun o ho => ?_
      obtain rfl := Op.popStartStop.inj ho
      exact hqueue
    | cons request rest =>
      simp only [execPop, hqueue]
      exact .pop rfl hqueue rfl
  | setLoaded request => obtain rfl := ok.inj hexec; exact .load rfl rfl
  | pushStartStop sectionId request => obtain rfl := ok.inj hexec; exact .push rfl rfl
  | _ => obtain rfl := ok.inj hexec; exact .same rfl rfl nofun nofun nofun

end

/-! ## The invariant -/

/-- The symbol is going to be loaded, if that means anything. -/
def Loading (s : RunState graph) (symbolId : ℕ) : Prop :=
  graph.CanLoad symbolId → s.Owed (.send (.loadGlobalSymbol symbolId)) ∨ s.Owed (.loadSymbol symbolId)

/-- What a loop over relocations leaves to be done. -/
def FollowsLoop (s : RunState graph) (start : ℕ) (header : SectionHeader) (debug : Bool) :
    Bool → List Relocation → Prop
  | _, [] => True
  | true, _ :: rest => s.Owed (.relocations start header false rest debug)
  | false, rel :: rest =>
    match rel.symbol with
    | none => s.Owed (.relocations start header false rest debug)
    | some localSymbol => Loading s (graph.definition (start + localSymbol))
        ∧ s.Owed (.relocations start header
          (graph.skipsNext start header rel localSymbol debug) rest debug)

/-- No section is left in the queue once the groups have been activated. -/
def Drained (s : RunState graph) (sectionId : ℕ) : Prop :=
  s.Pending (.popStartStop sectionId) ∨ (s.Opened ∧ s.shared.startStop sectionId = [])

/-- What holds once the operation has been performed. -/
def Follows (s : RunState graph) : Op graph → Prop
  | .send item | .post item => item ∈ s.sent
  | .relocations start header skip rels debug => FollowsLoop s start header debug skip rels
  | .handleSection request => ∀ obj sec, graph.sectionAt request = some (obj, sec) →
      SectionSlot.isLoadable sec.slot = true ∨ sec.slot = .unloadedDebugInfo →
      s.Owed (.setLoaded request)
  | .setLoaded request => s.shared.loaded request = true
  | .loadSymbol symbolId => ∀ op ∈ graph.execSymbol symbolId, s.Owed op
  | .exportSymbol symbolId exportAll => ∀ obj, graph.fileOf symbolId = some (.object obj) →
      graph.canExport obj symbolId exportAll = true →
      .downgradeToLocal ∉ graph.flags symbolId → Loading s symbolId
  | .requestUndefined symbolId => ¬ (.dynamic ∈ graph.flags (graph.definition symbolId)
      ∧ .absolute ∈ graph.flags (graph.definition symbolId)) →
      graph.definition symbolId ≠ symbolId →
      s.Owed (.send (.exportDynamic (graph.definition symbolId)))
  | .demand symbolId => Loading s symbolId
  | .pushStartStop sectionId request =>
    request ∈ s.shared.startStop sectionId ∨ s.Owed (.post (.loadSection request))
  | .popStartStop sectionId => Drained s sectionId
  | .copyRelocate _ | .mark _ _ => True

structure Carried (s : RunState graph) : Prop where
  performed : ∀ op ∈ s.performed, Follows s op
  flags : ∀ symbolId, (s.shared.flags symbolId).HasResolution → Loading s symbolId
  loaded : ∀ request, s.shared.loaded request = true → .setLoaded request ∈ s.performed
  content : ∀ request obj sec, s.Owed (.setLoaded request) →
    graph.sectionAt request = some (obj, sec) → SectionSlot.isLoadable sec.slot = true →
    ∀ op ∈ graph.sectionOps obj request.sectionIndex sec, s.Owed op

/-- What a turn keeps. -/
structure Later (s s' : RunState graph) : Prop where
  owed : ∀ op, s.Owed op → s'.Owed op
  sent : ∀ item ∈ s.sent, item ∈ s'.sent
  loaded : ∀ request, s.shared.loaded request = true → s'.shared.loaded request = true
  waiting : ∀ sectionId, ∀ request ∈ s.shared.startStop sectionId,
    request ∈ s'.shared.startStop sectionId ∨ s'.Owed (.post (.loadSection request))
  drained : ∀ sectionId, Drained s sectionId → Drained s' sectionId

section

variable {s s' : RunState graph} {op : Op graph}

variable {symbolId : ℕ}

theorem Later.loading (h : Later s s') (hloading : Loading s symbolId) :
    Loading s' symbolId := fun hcan => (hloading hcan).imp (h.owed _) (h.owed _)

variable {header : SectionHeader} {rels : List Relocation} {start : ℕ}

theorem Later.followsLoop (h : Later s s') {skip debug : Bool}
    (hloop : FollowsLoop s start header debug skip rels) :
    FollowsLoop s' start header debug skip rels := by
  cases rels with
  | nil => trivial
  | cons rel rest =>
    cases skip with
    | true => exact h.owed _ hloop
    | false =>
      obtain ⟨symbol, offset, rawType⟩ := rel
      cases symbol with
      | none => exact h.owed _ hloop
      | some localSymbol => exact ⟨h.loading hloop.1, h.owed _ hloop.2⟩

theorem Later.follows (h : Later s s') (hfollows : Follows s op) : Follows s' op := by
  cases op with
  | send item => exact h.sent item hfollows
  | post item => exact h.sent item hfollows
  | relocations start header skip rels debug => exact h.followsLoop hfollows
  | handleSection request => exact fun obj sec hsec hslot => h.owed _ (hfollows obj sec hsec hslot)
  | setLoaded request => exact h.loaded request hfollows
  | loadSymbol symbolId => exact fun op hop => h.owed op (hfollows op hop)
  | exportSymbol symbolId exportAll =>
    exact fun obj hobj hcan hlocal => h.loading (hfollows obj hobj hcan hlocal)
  | requestUndefined symbolId => exact fun hflags hne => h.owed _ (hfollows hflags hne)
  | demand symbolId => exact h.loading hfollows
  | pushStartStop sectionId request =>
    rcases hfollows with hqueue | howed
    · exact h.waiting sectionId request hqueue
    · exact .inr (h.owed _ howed)
  | popStartStop sectionId => exact h.drained sectionId hfollows
  | copyRelocate symbolId => trivial
  | mark symbolId flag => trivial

theorem later_of_turn (hsound : graph.Sound s.shared) (hturn : Turn graph.system s s')
    (hopened : s.Opened → s'.Opened) : Later s s' := by
  cases hturn with
  | silent hshared hsent hperf hkeeps hcomes =>
    refine ⟨fun op => ?_, fun item hitem => hsent ▸ hitem, fun request hloaded => hshared ▸ hloaded,
      fun o request hreq => .inl (hshared ▸ hreq), fun o hdrained => ?_⟩
    · exact (Turn.silent hshared hsent hperf hkeeps hcomes : Turn graph.system s s').owed
    · exact hdrained.imp (hkeeps _) fun h => ⟨hopened h.1, hshared ▸ h.2⟩
  | performs g op out hexec hpend hstage hshared hsent hperf hnext hkeeps hcomes =>
    have howed : ∀ op, s.Owed op → s'.Owed op := fun _ =>
      (Turn.performs g op out hexec hpend hstage hshared hsent hperf hnext hkeeps hcomes).owed
    have hqueues : Queues s.shared s'.shared op out.next := hshared ▸ queues_of_exec hsound hexec
    generalize out.next = next at hqueues hnext
    refine ⟨howed, fun item hitem => hsent ▸ mem_append_left _ hitem, fun r hr => ?_,
      fun o r hr => ?_, fun o hdrained => ?_⟩
    · cases hqueues with
      | same hloaded | push hloaded | pop hloaded => rwa [hloaded]
      | @load request _ hloaded =>
        rw [hloaded]
        by_cases heq : r = request
        · rw [heq, update_self]
        · rwa [update_of_ne heq]
    · cases hqueues with
      | same _ hsame => exact .inl (hsame ▸ hr)
      | load _ hsame => exact .inl (hsame ▸ hr)
      | @push sectionId request _ _ hstartStop =>
        rw [hstartStop]
        by_cases heq : o = sectionId
        · subst heq
          rw [update_self]
          exact .inl (mem_append_left _ hr)
        · rw [update_of_ne heq]
          exact .inl hr
      | @pop sectionId request rest _ hqueue hstartStop =>
        rw [hstartStop]
        by_cases heq : o = sectionId
        · subst heq
          rw [hqueue] at hr
          rw [update_self]
          rcases mem_cons.mp hr with rfl | hr
          · exact .inr (.inr (hnext _ List.mem_cons_self))
          · exact .inl hr
        · rw [update_of_ne heq]
          exact .inl hr
    · by_cases heq : op = .popStartStop o
      · subst heq
        have hopen : s.Opened := by
          rcases hstage with ⟨hactivation, -⟩ | ⟨hprogram, hdelayed⟩
          · exact absurd (activates hactivation) id
          · exact hdelayed (processes hprogram)
        cases hqueues with
        | same _ hsame _ _ hempty => exact .inr ⟨hopened hopen, hsame ▸ hempty o rfl⟩
        | pop => exact .inl (hnext _ (List.mem_cons_of_mem _ (mem_singleton_self _)))
      · refine hdrained.imp (hkeeps _ (Ne.symm heq)) fun ⟨hopen, hempty⟩ => ⟨hopened hopen, ?_⟩
        cases hqueues with
        | same _ hsame => rw [hsame, hempty]
        | load _ hsame => rw [hsame, hempty]
        | push =>
          rcases hstage with ⟨-, hclosed⟩ | ⟨hprogram, -⟩
          · exact absurd hopen hclosed
          · exact absurd (processes hprogram) id
        | @pop sectionId request rest _ hqueue hstartStop =>
          rw [hstartStop, update_of_ne (fun h => heq (by rw [h]))]
          exact hempty

theorem loading_of_reference {shared : Shared graph} {symbolId : ℕ} {flags : ValueFlags}
    (hflags : (shared.flags symbolId).HasResolution → Loading s' symbolId)
    (hops : ∀ op ∈ (shared.reference symbolId flags).2, s'.Owed op) : Loading s' symbolId := by
  rcases referenced_or_sent shared symbolId flags with hres | hsend
  · exact hflags hres
  · exact fun _ => .inl (hops _ hsend)

variable {shared : Shared graph}

theorem follows_relocations {skip debug : Bool} {result : Shared graph × List (Op graph)}
    (hsound : graph.Sound shared)
    (hexec : graph.execRelocations start header skip rels debug shared = .ok result)
    (hflags : ∀ symbolId, (shared.flags symbolId).HasResolution → Loading s' symbolId)
    (hops : ∀ op ∈ result.2, s'.Owed op) : FollowsLoop s' start header debug skip rels := by
  cases rels with
  | nil => trivial
  | cons rel rest =>
    cases skip with
    | true =>
      cases hexec
      exact hops _ (mem_singleton_self _)
    | false =>
      obtain ⟨symbol, offset, rawType⟩ := rel
      cases symbol with
      | none =>
        cases hexec
        exact hops _ (mem_singleton_self _)
      | some localSymbol =>
        obtain ⟨flags, -, hmem, hrest⟩ := execRelocations_eq hsound rfl hexec
        refine ⟨?_, hops _ hrest⟩
        exact loading_of_reference (hflags _) fun op hop => hops op (hmem op hop)

theorem follows_export {exportAll : Bool} (hsound : graph.Sound shared)
    (hflags : (shared.flags symbolId).HasResolution → Loading s' symbolId)
    (hops : ∀ op ∈ (graph.execExport symbolId exportAll shared).2, s'.Owed op) :
    Follows s' (.exportSymbol symbolId exportAll) := by
  intro obj hobj hcan hlocal
  have hlocal' : ValueFlag.downgradeToLocal ∉ shared.flags symbolId := fun hmem =>
    hlocal ((hsound.flags symbolId .downgradeToLocal rfl).mp hmem)
  simp only [execExport, hobj, if_pos (And.intro hcan hlocal')] at hops
  by_cases hres : (shared.flags symbolId).HasResolution
  · exact hflags hres
  · rw [if_neg hres] at hops
    exact fun _ => .inr (hops _ (mem_singleton_self _))

theorem follows_undefined (hsound : graph.Sound shared)
    (hops : ∀ op ∈ graph.execUndefined symbolId shared, s'.Owed op) :
    Follows s' (.requestUndefined symbolId) := by
  intro hflags hne
  have hknown : ¬ (.dynamic ∈ shared.flags (graph.definition symbolId)
      ∧ .absolute ∈ shared.flags (graph.definition symbolId)) := fun ⟨hdyn, habsolute⟩ =>
    hflags ⟨(hsound.flags _ .dynamic rfl).mp hdyn, (hsound.flags _ .absolute rfl).mp habsolute⟩
  simp only [execUndefined, if_neg hknown, if_pos hne] at hops
  exact hops _ (mem_singleton_self _)

variable {request : SectionLoadRequest graph}

theorem follows_section {ops : List (Op graph)} (hexec : graph.execSection request shared = .ok ops)
    (hloaded : shared.loaded request = true → s'.Owed (.setLoaded request))
    (hops : ∀ op ∈ ops, s'.Owed op) : Follows s' (.handleSection request) := by
  intro obj sec hsec hslot
  rcases execSection_eq hsec hexec with ⟨hbefore, -⟩ | ⟨-, rfl⟩ | ⟨-, rfl⟩ | ⟨hnot, hdebug, -⟩
  · exact hloaded hbefore
  · exact hops _ (mem_append_right _ (mem_singleton_self _))
  · exact hops _ (mem_singleton_self _)
  · rcases hslot with hloadable | hslot
    · rw [hnot] at hloadable
      cases hloadable
    · exact absurd hslot hdebug

variable {g : Fin graph.groups} {out : Outcome (Op graph) (WorkItem graph) (Shared graph)}

theorem items_send {item : WorkItem graph}
    (hexec : graph.exec g (.send item) shared = .ok out) : item ∈ out.items := by
  cases hexec
  by_cases howner : graph.owner item = g
  · simp only [if_pos howner]
    exact mem_singleton_self _
  · simp only [if_neg howner]
    exact mem_singleton_self _

theorem follows_of_exec (h : Carried s) (hsound : graph.Sound s.shared) (hlater : Later s s')
    (hexec : graph.exec g op s.shared = .ok out) (hshared : s'.shared = out.shared)
    (hsent : s'.sent = s.sent ++ out.items) (hnext : ∀ op' ∈ out.next, s'.Pending op')
    (hopened : ∀ sectionId, op = .popStartStop sectionId → s'.Opened) : Follows s' op := by
  have hflags : ∀ symbolId, (s.shared.flags symbolId).HasResolution → Loading s' symbolId :=
    fun symbolId hres => hlater.loading (h.flags symbolId hres)
  cases op with
  | send item =>
    show item ∈ s'.sent
    rw [hsent]
    exact mem_append_right _ (items_send hexec)
  | post item =>
    cases hexec
    show item ∈ s'.sent
    rw [hsent]
    exact mem_append_right _ (mem_singleton_self _)
  | relocations start header skip rels debug =>
    obtain ⟨result, hresult, hout⟩ := bind_eq_ok.mp hexec
    cases hout
    exact follows_relocations hsound hresult hflags fun op hop => .inr (hnext op hop)
  | handleSection request =>
    obtain ⟨ops, hops, hout⟩ := bind_eq_ok.mp hexec
    cases hout
    refine follows_section hops (fun hloaded => ?_) fun op hop => .inr (hnext op hop)
    exact hlater.owed _ (.inl (h.loaded request hloaded))
  | setLoaded request =>
    cases hexec
    show s'.shared.loaded request = true
    rw [hshared]
    exact update_self _ _ _
  | loadSymbol symbolId =>
    cases hexec
    exact fun op hop => .inr (hnext op hop)
  | exportSymbol symbolId exportAll =>
    cases hexec
    exact follows_export hsound (hflags symbolId) fun op hop => .inr (hnext op hop)
  | requestUndefined symbolId =>
    cases hexec
    exact follows_undefined hsound fun op hop => .inr (hnext op hop)
  | demand symbolId =>
    cases hexec
    exact @loading_of_reference graph s' s.shared symbolId {.direct} (hflags symbolId)
      fun op hop => .inr (hnext op hop)
  | pushStartStop sectionId request =>
    cases hexec
    refine .inl ?_
    rw [hshared]
    simp only [update_self]
    exact mem_append_right _ (mem_singleton_self _)
  | popStartStop sectionId =>
    have hqueues := queues_of_exec hsound hexec
    generalize out.next = next at hqueues hnext
    cases hqueues with
    | same _ hsame _ _ hempty =>
      refine .inr ⟨hopened sectionId rfl, ?_⟩
      rw [hshared, hsame]
      exact hempty sectionId rfl
    | pop => exact .inl (hnext _ (List.mem_cons_of_mem _ (mem_singleton_self _)))
  | copyRelocate symbolId => trivial
  | mark symbolId flag => trivial

theorem content_of_exec {obj : Object} {sec : Section} (hexec : graph.exec g op shared = .ok out)
    (hop : .setLoaded request ∈ out.next) (hsec : graph.sectionAt request = some (obj, sec))
    (hslot : SectionSlot.isLoadable sec.slot = true) :
    ∀ op' ∈ graph.sectionOps obj request.sectionIndex sec, op' ∈ out.next := by
  have hleads := exec_leads hexec hop
  cases hleads with
  | plain hplain => cases hplain
  | loading =>
    obtain ⟨ops, hops, hout⟩ := bind_eq_ok.mp hexec
    cases hout
    rcases execSection_eq hsec hops with ⟨-, rfl⟩ | ⟨-, rfl⟩ | ⟨hdebug, -⟩ | ⟨hnot, -⟩
    · cases hop
    · exact fun op' hop' => mem_append_left _ hop'
    · rw [hdebug] at hslot
      cases hslot
    · rw [hnot] at hslot
      cases hslot

theorem Carried.of_turn (h : Carried s) (hsound : graph.Sound s.shared)
    (hturn : Turn graph.system s s') (hopened : s.Opened → s'.Opened) : Carried s' := by
  have hlater := later_of_turn hsound hturn hopened
  cases hturn with
  | silent hshared hsent hperf hkeeps hcomes =>
    refine ⟨fun op hop => ?_, fun symbolId hres => ?_, fun request hloaded => ?_,
      fun request obj sec howed hsec hslot op hop => hlater.owed op ?_⟩
    · exact hlater.follows (h.performed op (hperf ▸ hop))
    · exact hlater.loading (h.flags symbolId (hshared ▸ hres))
    · rw [hperf]
      exact h.loaded request (hshared ▸ hloaded)
    · refine h.content request obj sec ?_ hsec hslot op hop
      rcases howed with hdone | hpend
      · exact .inl (hperf ▸ hdone)
      · rcases hcomes _ hpend with hbefore | ⟨g, hg⟩ | ⟨item, -, hitem⟩
        · exact .inr hbefore
        · exact absurd (activates (.start hg)) id
        · cases item <;> cases mem_singleton.mp hitem
  | performs g op out hexec hpend hstage hshared hsent hperf hnext hkeeps hcomes =>
    refine ⟨fun op' hop' => ?_, fun symbolId hres => ?_, fun request hloaded => ?_,
      fun request obj sec howed hsec hslot op' hop' => ?_⟩
    · rw [hperf] at hop'
      rcases mem_append.mp hop' with hbefore | hnow
      · exact hlater.follows (h.performed op' hbefore)
      · obtain rfl := mem_singleton.mp hnow
        refine follows_of_exec h hsound hlater hexec hshared hsent hnext fun o ho => hopened ?_
        subst ho
        rcases hstage with ⟨hactivation, -⟩ | ⟨hprogram, hdelayed⟩
        · exact absurd (activates hactivation) id
        · exact hdelayed (processes hprogram)
    · rw [hshared] at hres
      rcases resolution_of_exec hsound hexec hres with hbefore | hsend | hload | ⟨flag, rfl⟩
      · exact hlater.loading (h.flags symbolId hbefore)
      · exact fun _ => .inl (.inr (hnext _ hsend))
      · exact fun _ => .inr (.inr (hnext _ hload))
      · rcases hstage with ⟨hactivation, -⟩ | ⟨hprogram, -⟩
        · exact fun hcan => absurd hcan (activates hactivation)
        · exact absurd (processes hprogram) id
    · have hqueues : Queues s.shared s'.shared op out.next := hshared ▸ queues_of_exec hsound hexec
      rw [hperf]
      generalize out.next = next at hqueues
      cases hqueues with
      | same hsame | push hsame | pop hsame =>
        exact mem_append_left _ (h.loaded request (hsame ▸ hloaded))
      | @load request' _ hsame =>
        by_cases heq : request = request'
        · rw [heq]
          exact mem_append_right _ (mem_singleton_self _)
        · rw [hsame, update_of_ne heq] at hloaded
          exact mem_append_left _ (h.loaded request hloaded)
    · have hbefore : s.Owed (.setLoaded request) → s'.Owed op' := fun howed =>
        hlater.owed op' (h.content request obj sec howed hsec hslot op' hop')
      rcases howed with hdone | hpend'
      · rw [hperf] at hdone
        rcases mem_append.mp hdone with hdone | hnow
        · exact hbefore (.inl hdone)
        · obtain rfl := mem_singleton.mp hnow
          exact hbefore (.inr hpend)
      · rcases hcomes _ hpend' with hold | hnew
        · exact hbefore (.inr hold)
        · exact .inr (hnext op' (content_of_exec hexec hnew hsec hslot op' hop'))

theorem carried (h : graph.system.Reachable s) (herrors : s.errors = []) : Carried s := by
  refine (@WorkerSlots.reachable_induction _ _ _ _ _ _ graph.system _ _ s (fun s => Carried s)
    ?_ ?_ h herrors).2
  · refine ⟨fun op hop => (nomatch hop), fun symbolId hres => ?_, fun request hloaded => (nomatch hloaded),
      fun request obj sec howed => ?_⟩
    · exact absurd hres (graph.unreferenced symbolId)
    · rcases howed with hdone | ⟨g, hg⟩
      · cases hdone
      · cases hg
  · intro s s' hreach hnone _ hturn hopened hcarried
    exact hcarried.of_turn (sound hreach hnone).1 hturn hopened

/-! ## The end of a run -/

theorem performed_of_owed (hended : s.Ended) (howed : s.Owed op) : op ∈ s.performed :=
  howed.resolve_right (WorkerSlots.not_pending_of_ended hended)

/-- What has been done about what is reachable. -/
def Done (s : RunState graph) : Node graph → Prop
  | .inputSection request => .handleSection request ∈ s.performed
  | .symbol symbolId => graph.CanLoad symbolId → .loadSymbol symbolId ∈ s.performed

section

variable (hinv : s.Inv graph.system) (hcarried : Carried s) (hended : s.Ended)

include hinv hcarried hended

theorem processed_of_send {item : WorkItem graph}
    (h : .send item ∈ s.performed ∨ .post item ∈ s.performed) (hop : op ∈ graph.program item) :
    op ∈ s.performed := by
  have hsent : item ∈ s.sent := by
    rcases h with h | h
    · exact hcarried.performed _ h
    · exact hcarried.performed _ h
  exact hinv.performed_program hended hsent hop

variable {symbolId : ℕ}

theorem done_of_loading (h : Loading s symbolId) : Done s (.symbol symbolId) := by
  intro hcan
  rcases h hcan with hsend | hload
  · exact processed_of_send hinv hcarried hended (.inl (performed_of_owed hended hsend))
      (mem_singleton_self _)
  · exact performed_of_owed hended hload

variable {request : SectionLoadRequest graph}

theorem done_of_request
    (h : .send (.loadSection request) ∈ s.performed ∨ .post (.loadSection request) ∈ s.performed) :
    Done s (.inputSection request) :=
  processed_of_send hinv hcarried hended h (mem_singleton_self _)

theorem done_of_referenced {start : ℕ} {header : SectionHeader} {debug : Bool}
    (rels : List Relocation) : ∀ skip : Bool,
    .relocations start header skip rels debug ∈ s.performed →
    symbolId ∈ graph.referenced start header debug skip rels → Done s (.symbol symbolId) := by
  induction rels with
  | nil =>
    intro skip _ hmem
    cases skip <;> cases hmem
  | cons rel rest ih =>
    intro skip hperf hmem
    have hfollows := hcarried.performed _ hperf
    cases skip with
    | true => exact ih false (performed_of_owed hended hfollows) hmem
    | false =>
      obtain ⟨symbol, offset, rawType⟩ := rel
      cases symbol with
      | none => exact ih false (performed_of_owed hended hfollows) hmem
      | some localSymbol =>
        rcases mem_cons.mp hmem with rfl | hmem
        · exact done_of_loading hinv hcarried hended hfollows.1
        · exact ih _ (performed_of_owed hended hfollows.2) hmem

variable {obj : Object} {sec : Section}

theorem done_of_references (hdone : Done s (.inputSection request))
    (hsec : graph.sectionAt request = some (obj, sec))
    (hslot : SectionSlot.isLoadable sec.slot = true)
    (hmem : symbolId ∈ graph.references obj request.sectionIndex sec) : Done s (.symbol symbolId) := by
  have hloaded := hcarried.performed _ hdone obj sec hsec (.inl hslot)
  have hops : ∀ op ∈ graph.sectionOps obj request.sectionIndex sec, op ∈ s.performed := fun op hop =>
    performed_of_owed hended (hcarried.content request obj sec hloaded hsec hslot op hop)
  rcases mem_append.mp hmem with hmem | hmem
  · split at hmem
    · cases hmem
    · next hwhole =>
      refine done_of_referenced hinv hcarried hended _ false (hops _ (mem_append_left _ ?_)) hmem
      rw [if_neg hwhole]
      exact mem_singleton_self _
  · split at hmem
    · next hsize =>
      obtain ⟨frame, hframe, hmem⟩ := mem_flatMap.mp hmem
      refine done_of_referenced hinv hcarried hended _ false (hops _ (mem_append_right _ ?_)) hmem
      rw [if_pos hsize]
      exact mem_map.mpr ⟨frame, hframe, rfl⟩
    · cases hmem

omit hcarried in
theorem performed_activation {id : FileId graph.groups} {file : File}
    (hfile : graph.fileAt id = some file) (hop : op ∈ graph.fileOps id file) : op ∈ s.performed := by
  refine hinv.performed_activation hended id.group (List.mem_flatten.mpr ⟨_, ?_, hop⟩)
  refine mem_map.mpr ⟨(file, id.file), ?_, rfl⟩
  exact List.mem_zipIdx_iff_getElem?.mpr hfile

omit hcarried in
theorem performed_activateSection (hsec : graph.sectionAt request = some (obj, sec))
    (hop : op ∈ graph.activateSection request sec) : op ∈ s.performed := by
  unfold sectionAt at hsec
  split at hsec
  · next obj' hfile =>
    obtain ⟨sec', hsec', heq⟩ := Option.map_eq_some_iff.mp hsec
    obtain ⟨rfl, rfl⟩ := Prod.mk.inj heq
    refine performed_activation hinv hended hfile (mem_append_left _ (mem_append_left _ ?_))
    exact mem_flatMap.mpr ⟨(_, request.sectionIndex), List.mem_zipIdx_iff_getElem?.mpr hsec', hop⟩
  · cases hsec

theorem done_of_reached {node : Node graph} (h : graph.Reached node) : Done s node := by
  induction h with
  | @retained request obj sec hsec hslot =>
    refine done_of_request hinv hcarried hended (.inl ?_)
    refine performed_activateSection hinv hended hsec ?_
    unfold activateSection
    rcases hslot with hslot | hslot | hslot
    · rw [hslot]
      exact mem_singleton_self _
    · rw [hslot]
      exact mem_singleton_self _
    · rw [hslot]
      exact mem_singleton_self _
  | @uncollected request obj sec eligible hgc hsec hslot =>
    refine done_of_request hinv hcarried hended (.inl ?_)
    refine performed_activateSection hinv hended hsec ?_
    simp only [activateSection, hslot, hgc]
    exact mem_singleton_self _
  | @entry id start symbolId definitions hfile =>
    refine done_of_loading hinv hcarried hended (hcarried.performed (.demand _) ?_)
    exact performed_activation hinv hended hfile (mem_append_left _ (mem_singleton_self _))
  | @defsym id start index target entry definitions hfile hdef hcanon =>
    refine done_of_loading hinv hcarried hended (hcarried.performed (.demand _) ?_)
    refine performed_activation hinv hended hfile (mem_append_right _ ?_)
    refine mem_flatMap.mpr ⟨(_, index), List.mem_zipIdx_iff_getElem?.mpr hdef, ?_⟩
    unfold activateDefsym
    rw [if_neg (not_not.mpr hcanon)]
    exact List.mem_cons_of_mem _ (mem_singleton_self _)
  | @personality id obj frame rels rel symbolId hfile hframe hentry hrel hmem =>
    refine done_of_referenced hinv hcarried hended [rel] false ?_ hmem
    refine performed_activation hinv hended hfile (mem_append_left _ (mem_append_right _ ?_))
    refine mem_flatMap.mpr ⟨frame, hframe, mem_flatMap.mpr ⟨_, hentry, ?_⟩⟩
    exact mem_map.mpr ⟨rel, hrel, rfl⟩
  | @exported id obj exportAll index hfile hexports hindex hcan hlocal =>
    have hof : graph.fileOf (obj.startSymbolId + index) = some (.object obj) := by
      unfold fileOf
      rw [graph.owned id _ hfile _ ⟨Nat.le_add_right _ _, Nat.add_lt_add_left hindex _⟩]
      exact hfile
    have hperf : .exportSymbol (obj.startSymbolId + index) exportAll ∈ s.performed := by
      refine performed_activation hinv hended hfile (mem_append_right _ ?_)
      rw [hexports]
      exact mem_map.mpr ⟨index, List.mem_range.mpr hindex, rfl⟩
    exact done_of_loading hinv hcarried hended (hcarried.performed _ hperf obj hof hcan hlocal)
  | @imported id start numSymbols index obj hfile hindex hne hflags hobj hcan hlocal =>
    have hreqd : .requestUndefined (start + index) ∈ s.performed := by
      refine performed_activation hinv hended hfile ?_
      exact mem_map.mpr ⟨index, List.mem_range.mpr hindex, rfl⟩
    have hsend := performed_of_owed hended (hcarried.performed _ hreqd hflags hne)
    have hperf := processed_of_send hinv hcarried hended (.inl hsend) (mem_singleton_self _)
    exact done_of_loading hinv hcarried hended (hcarried.performed _ hperf obj hobj hcan hlocal)
  | relocation _ hsec hslot hmem ih =>
    exact done_of_references hinv hcarried hended ih hsec hslot hmem
  | @definition symbolId index obj _ hfile hindex ih =>
    have hload := hcarried.performed _ (ih (.inl ⟨obj, hfile⟩))
    refine done_of_request hinv hcarried hended (.inl (performed_of_owed hended (hload _ ?_)))
    simp only [execSymbol, hfile, hindex]
    exact mem_singleton_self _
  | @startStop symbolId start sectionId sectionIds request _ hfile hid heligible ih =>
    have hload := hcarried.performed _ (ih (.inr ⟨start, sectionIds, hfile⟩))
    have hpop : .popStartStop sectionId ∈ s.performed := by
      refine performed_of_owed hended (hload _ ?_)
      simp only [execSymbol, hfile, hid]
      exact mem_singleton_self _
    have hempty : s.shared.startStop sectionId = [] := by
      rcases hcarried.performed _ hpop with hpend | hdrained
      · exact absurd hpend (WorkerSlots.not_pending_of_ended hended)
      · exact hdrained.2
    obtain ⟨hgc, obj, sec, hsec, hslot, rfl⟩ := heligible
    have hpush : .pushStartStop sec.outputSection request ∈ s.performed := by
      refine performed_activateSection hinv hended hsec ?_
      simp only [activateSection, hslot, hgc]
      exact mem_singleton_self _
    rcases hcarried.performed _ hpush with hqueue | howed
    · rw [hempty] at hqueue
      cases hqueue
    · exact done_of_request hinv hcarried hended (.inr (performed_of_owed hended howed))

theorem loaded_of_loads (h : graph.Loads request) : s.shared.loaded request = true := by
  obtain ⟨hreached, obj, sec, hsec, hslot⟩ := h
  have hdone := done_of_reached hinv hcarried hended hreached
  have howed := hcarried.performed _ hdone obj sec hsec hslot
  exact hcarried.performed _ (performed_of_owed hended howed)

end

/-- In a run without errors no work is lost and none is done twice.  Until
all tasks have ended somebody can go on; then every worker is back in its
slot, and the sections loaded are those that are reachable. -/
theorem work_queue_complete (h : graph.system.Reachable s) (herrors : s.errors = []) :
    (¬ s.Ended → ∃ s', graph.system.Step s s')
      ∧ (s.Ended → s.sent.Perm s.processed ∧ (∀ g, s.worker g = .inSlot)
        ∧ ∀ request, s.shared.loaded request = true ↔ graph.Loads request) := by
  have hinv := WorkerSlots.inv_of_reachable h herrors
  refine ⟨WorkerSlots.exists_step hinv, fun hended => ?_⟩
  refine ⟨hinv.perm_processed hended, hinv.inSlot hended, fun request => ⟨fun hloaded => ?_, ?_⟩⟩
  · exact (sound h herrors).1.loaded request hloaded
  · exact loaded_of_loads hinv (carried h herrors) hended

end

/-! A run over one file: a section has to be loaded, and refers to another. -/

def keptSection : Graph where
  arch := ⟨fun _ => .ok .absolute, fun _ _ _ _ _ => none, fun _ _ _ _ _ _ _ => rfl⟩
  args := ⟨.staticExecutable .nonRelocatable, true, false, none, true, false⟩
  groups := 1
  files _ := [.object ⟨0, [⟨some 1, false, true, false, false⟩],
    [⟨.mustLoad, ⟨true, false, true, []⟩, 0, 8, [⟨some 0, 0, 0⟩]⟩,
      ⟨.unloaded false, ⟨true, false, true, []⟩, 0, 8, []⟩], [], none⟩]
  definition := id
  fileForSymbol _ := ⟨0, 0⟩
  flags _ := {.nonInterposable}
  unreferenced _ := by decide
  owned id file hfile s hs := by
    obtain ⟨group, index⟩ := id
    cases index with
    | zero =>
      rw [Subsingleton.elim (α := Fin 1) group 0]
    | succ index => cases hfile
  synthetic_unique g h _ _ := Subsingleton.elim g h

theorem keptSection_loaded : ∃ s : RunState keptSection,
    s.processed = [.loadSection ⟨⟨⟨0, Nat.one_pos⟩, 0⟩, 0⟩, .loadGlobalSymbol 0,
      .loadSection ⟨⟨⟨0, Nat.one_pos⟩, 0⟩, 1⟩] ∧ s.sent.Perm s.processed
    ∧ (∀ g, s.worker g = .inSlot)
    ∧ ∀ request, s.shared.loaded request = true ↔ keptSection.Loads request := by
  let g : Fin keptSection.groups := ⟨0, Nat.one_pos⟩
  have hstart := Relation.ReflTransGen.refl.tail
    (System.Step.start (g := g) rfl : keptSection.system.Step keptSection.system.initial _)
  have hsent := hstart.tail (.activate (g := g) rfl rfl)
  have hactivated := (hsent.tail (.nextFile (g := g) rfl)).tail (.activated (g := g) rfl rfl)
  have hhandled := (hactivated.tail (.pop (g := g) rfl)).tail (.work (g := g) rfl rfl)
  have hreferred := (hhandled.tail (.work (g := g) rfl rfl)).tail (.work (g := g) rfl rfl)
  have hloaded := (hreferred.tail (.work (g := g) rfl rfl)).tail (.work (g := g) rfl rfl)
  have hsymbol := (hloaded.tail (.pop (g := g) rfl)).tail (.work (g := g) rfl rfl)
  have hrequested := (hsymbol.tail (.work (g := g) rfl rfl)).tail (.pop (g := g) rfl)
  have hother := (hrequested.tail (.work (g := g) rfl rfl)).tail (.work (g := g) rfl rfl)
  have hboth := hother.tail (.work (g := g) rfl rfl)
  have hcounted := (hboth.tail (.park (g := g) rfl rfl)).tail (.count (g := g) rfl)
  have hdone := hcounted.tail (.drained (g := g) rfl rfl)
  obtain ⟨s, hs, herrors, hprocessed, hthread, hworker⟩ : ∃ s, keptSection.system.Reachable s
      ∧ s.errors = [] ∧ s.processed = [.loadSection ⟨⟨g, 0⟩, 0⟩, .loadGlobalSymbol 0,
        .loadSection ⟨⟨g, 0⟩, 1⟩] ∧ s.thread g = .done
      ∧ s.worker g = .inSlot := ⟨_, hdone, rfl, rfl, rfl, rfl⟩
  have hone : ∀ k : Fin keptSection.groups, k = g := fun k => Subsingleton.elim (α := Fin 1) k g
  refine ⟨s, hprocessed, (work_queue_complete hs herrors).2 ⟨fun k => ?_, fun k => ?_⟩⟩
  · rw [hone k]
    exact hthread
  · rw [hone k, hworker]
    exact id

end Graph

end Sld.Gc
