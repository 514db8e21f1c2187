/-
# `Layout.SectionRequests` — what becomes of alignments and addresses

A name may be declared any number of times, in scripts and by input
sections, each time with an alignment and perhaps an address; further
addresses come from `--section-start`.

The first declaration of a name makes the section, and the others are not
looked at.  So the table has the alignment and the address of the first
declaration, or those of a built-in section and of the argument for it
(`entry_of_sectionIdByName`).
-/
import Sld.Layout.ScriptSections
import Sld.Layout.SectionOffsets
import Sld.Text.Reader

namespace Sld.Sections

open Text Script Layout
open Rules (text data bss)
open Text.Reader (bind_eq_ok)
open List (append_assoc append_nil foldlM_cons mem_cons mem_map)
open SectionTable (addNew sectionIdByName)

/-! ## Declarations and requests -/

/-- One call of `add_named_section`. -/
structure Declaration where
  name : Bytes
  minAlignment : ScriptAlignment
  location : Option ℕ
  /-- what the declaration itself asks for; an `ALIGN` before it may have made
  `minAlignment` larger -/
  alignment : ScriptAlignment

structure Request where
  name : Bytes
  alignment : ScriptAlignment
  location : Option ℕ

def Declaration.request (d : Declaration) : Request := ⟨d.name, d.alignment, d.location⟩

/-- The alignment that a body leaves to the section after it. -/
def leftover (extra : ScriptAlignment) (hasSection : Bool) : List ContentsCommand → ScriptAlignment
  | [] => extra
  | .matcher _ :: commands => leftover (if hasSection then alignmentMin else extra) true commands
  | .align alignment :: commands => leftover alignment hasSection commands
  | .symbolAssignment _ _ :: commands | .provide _ _ :: commands =>
    leftover extra hasSection commands

/-- The numeric start address, or the pending location. -/
def locationOf (location : Option ℕ) : Option Expression → Option ℕ
  | some (.number address) => some address.toNat
  | some _ => none
  | none => location

/-- The declarations of a `SECTIONS` command. -/
def declarationsOf (location : Option ℕ) (extra : ScriptAlignment) :
    List SectionCommand → List Declaration
  | [] => []
  | .section sec :: commands =>
    { name := sec.outputSectionName
      minAlignment := max (sec.alignment.getD alignmentMin) extra
      location := locationOf location sec.startAddressExpression
      alignment := sec.alignment.getD alignmentMin } ::
    declarationsOf none (leftover alignmentMin false sec.commands) commands
  | .setLocation address :: commands => declarationsOf (some address) extra commands
  | .align alignment :: commands => declarationsOf location alignment commands
  | .assert :: commands => declarationsOf location extra commands

namespace LinkInput

variable (input : LinkInput)

def scriptDeclarations : List Declaration :=
  input.scripts.flatMap (declarationsOf none alignmentMin)

def customSections : List CustomSectionDetails :=
  input.objects.flatMap ObjectSections.customSections

/-- All declarations, in the order they are read. -/
def declared : List Declaration :=
  input.scriptDeclarations ++ input.customSections.map fun custom =>
    ⟨custom.name, custom.alignment, input.args.startAddressForSection custom.name,
      custom.alignment⟩

/-- The arguments that ask for an address. -/
def addressRequests : List Request :=
  (input.args.sectionStart ++ input.args.ttext.toList.map (dotText, ·) ++
    input.args.tdata.toList.map (dotData, ·) ++ input.args.tbss.toList.map (dotBss, ·)).map
      fun (name, address) => ⟨name, alignmentMin, some address⟩

def requests : List Request :=
  input.scriptDeclarations.map Declaration.request ++
    input.customSections.map (fun custom => ⟨custom.name, custom.alignment, none⟩) ++
    input.addressRequests

/-- The declaration that makes the section of a name. -/
def firstDeclaration (name : Bytes) : Option Declaration :=
  input.declared.find? fun d => d.name = name

/-- The built-in section of a name. -/
def builtInEntry (name : Bytes) : Option NamedInfo :=
  input.builtIn.sectionInfos.find? fun entry => entry.name = some name

/-- There is a section of the name. -/
def HasSection (name : Bytes) : Prop :=
  (input.firstDeclaration name).isSome ∨ (input.builtInEntry name).isSome

/-- The alignment that the section of a name starts out with. -/
def minAlignmentFor (name : Bytes) : Layout.Alignment :=
  match input.firstDeclaration name with
  | some first => first.minAlignment.val
  | none => (input.builtInEntry name).elim 0 fun entry => entry.info.minAlignment

/-- And the address: the arguments count for some of the built-in sections. -/
def locationFor (name : Bytes) : Option ℕ :=
  match input.firstDeclaration name with
  | some first => first.location
  | none =>
    if name = dotText ∨ name = dotData ∨ name = dotBss then input.args.startAddressForSection name
    else none

end LinkInput

/-! ## The table, declaration by declaration -/

/-- What a table holds after some declarations. -/
structure Records (builtIn : List NamedInfo) (table : SectionTable)
    (declared : List Declaration) : Prop where
  length_le : builtIn.length ≤ table.sectionInfos.length
  same : ∀ id, id < builtIn.length → table.sectionInfos[id]? = builtIn[id]?
  absent : ∀ name, table.customByName.lookup name = none →
    declared.find? (fun d => d.name = name) = none
  first : ∀ name sectionId, table.customByName.lookup name = some sectionId →
    ∃ d, declared.find? (fun d => d.name = name) = some d ∧ builtIn.length ≤ sectionId ∧
      table.sectionInfos[sectionId]? = some ⟨some name,
        ⟨.primary, SectionTable.defaultAttributes, d.minAlignment.val, d.location, none⟩⟩
  named : ∀ id entry name, builtIn.length ≤ id → table.sectionInfos[id]? = some entry →
    entry.name = some name → (table.customByName.lookup name).isSome
  initFini : ∀ key sectionId, table.initFiniByPriority.lookup key = some sectionId →
    builtIn.length ≤ sectionId ∧ ∃ info, table.sectionInfos[sectionId]? = some ⟨none, info⟩

section Tables

variable {builtIn : List NamedInfo} {table : SectionTable} {declared : List Declaration}

theorem records_builtIn (builtIn : List NamedInfo) : Records builtIn ⟨builtIn, [], []⟩ [] where
  length_le := Nat.le_refl _
  same _ _ := rfl
  absent _ _ := rfl
  first _ _ h := by cases h
  named id entry name hle hentry _ := by
    rw [List.getElem?_eq_none hle] at hentry
    cases hentry
  initFini _ _ h := by cases h

variable {α : Type}

theorem getElem?_append_of_some {l l' : List α} {i : ℕ} {a : α} (h : l[i]? = some a) :
    (l ++ l')[i]? = some a := by
  obtain ⟨hlt, -⟩ := List.getElem?_eq_some_iff.1 h
  rw [List.getElem?_append_left hlt, h]

theorem getElem?_concat_eq_some {l : List α} {i : ℕ} {a b : α}
    (h : (l ++ [a])[i]? = some b) : l[i]? = some b ∨ b = a := by
  rcases Nat.lt_or_ge i l.length with hlt | hge
  · rw [List.getElem?_append_left hlt] at h
    exact .inl h
  · rw [List.getElem?_append_right hge, List.getElem?_singleton] at h
    split at h
    · exact .inr (Option.some.inj h).symm
    · cases h

theorem lookup_cons_of_ne {name other : Bytes} (h : name ≠ other) (sectionId : OutputSectionId)
    (names : List (Bytes × OutputSectionId)) :
    ((other, sectionId) :: names).lookup name = names.lookup name := by
  rw [List.lookup_cons, beq_false_of_ne h]

variable {sectionId : OutputSectionId}

section

variable (h : Records builtIn table declared)

include h

theorem Records.again {d : Declaration} (hname : table.customByName.lookup d.name = some sectionId) :
    Records builtIn table (declared ++ [d]) where
  length_le := h.length_le
  same := h.same
  absent name hnone := by
    have hne : d.name ≠ name := by
      rintro rfl
      rw [hname] at hnone
      cases hnone
    rw [List.find?_append, h.absent name hnone]
    simp [hne]
  first name id hsome := by
    obtain ⟨first, hfind, hrest⟩ := h.first name id hsome
    exact ⟨first, by rw [List.find?_append, hfind]; rfl, hrest⟩
  named := h.named
  initFini := h.initFini

theorem Records.same_append (entry : NamedInfo) (id : OutputSectionId) (hlt : id < builtIn.length) :
    (table.sectionInfos ++ [entry])[id]? = builtIn[id]? := by
  rw [List.getElem?_append_left (Nat.lt_of_lt_of_le hlt h.length_le), h.same id hlt]

theorem Records.append {entry : NamedInfo} (hname : entry.name = none) :
    Records builtIn { table with sectionInfos := table.sectionInfos ++ [entry] } declared where
  length_le := h.length_le.trans (List.prefix_append _ _).length_le
  same := h.same_append entry
  absent := h.absent
  first name sectionId hsome := by
    obtain ⟨d, hfind, hle, hentry⟩ := h.first name sectionId hsome
    exact ⟨d, hfind, hle, getElem?_append_of_some hentry⟩
  named id other name hle hother heq := by
    rcases getElem?_concat_eq_some hother with hold | rfl
    · exact h.named id other name hle hold heq
    · rw [hname] at heq
      cases heq
  initFini key sectionId hsome := by
    obtain ⟨hle, info, hentry⟩ := h.initFini key sectionId hsome
    exact ⟨hle, info, getElem?_append_of_some hentry⟩

theorem Records.addNamedSection (d : Declaration) :
    Records builtIn (table.addNamedSection d.name d.minAlignment d.location).2
      (declared ++ [d]) := by
  rw [SectionTable.addNamedSection]
  split
  next sectionId hname => exact h.again hname
  next hnone =>
    refine ⟨h.length_le.trans (List.prefix_append _ _).length_le, h.same_append _,
      fun name hname => ?_, fun name sectionId hsome => ?_, fun id other name hle hother heq => ?_,
      fun key sectionId hsome => ?_⟩
    · have hne : name ≠ d.name := by
        rintro rfl
        simp [addNew] at hname
      have hother : table.customByName.lookup name = none :=
        (lookup_cons_of_ne hne _ _).symm.trans hname
      rw [List.find?_append, h.absent name hother]
      simp [hne.symm]
    · rcases eq_or_ne name d.name with rfl | hne
      · have hid : sectionId = table.sectionInfos.length := by
          simpa [addNew, eq_comm] using hsome
        subst hid
        refine ⟨d, ?_, h.length_le, ?_⟩
        · rw [List.find?_append, h.absent _ hnone]
          simp
        · simp [addNew]
      · have hother : table.customByName.lookup name = some sectionId :=
          (lookup_cons_of_ne hne _ _).symm.trans hsome
        obtain ⟨first, hfind, hle, hentry⟩ := h.first name sectionId hother
        refine ⟨first, ?_, hle, getElem?_append_of_some hentry⟩
        rw [List.find?_append, hfind]
        rfl
    · rcases getElem?_concat_eq_some hother with hold | rfl
      · rcases eq_or_ne name d.name with rfl | hne
        · simp [addNew]
        · rw [lookup_cons_of_ne hne]
          exact h.named id other name hle hold heq
      · obtain rfl : d.name = name := Option.some.inj heq
        simp [addNew]
    · obtain ⟨hle, info, hentry⟩ := h.initFini key sectionId hsome
      exact ⟨hle, info, getElem?_append_of_some hentry⟩

theorem Records.addSecondarySection (primaryId : OutputSectionId) (alignment : ScriptAlignment)
    (order : Option ℕ) :
    Records builtIn (table.addSecondarySection primaryId alignment order).2 declared :=
  h.append rfl

variable {f : Layout.SectionOutputInfo → Layout.SectionOutputInfo}

omit h in
theorem getElem?_modifyInfo_of_ne {id : OutputSectionId} (h : id ≠ sectionId) :
    (table.modifyInfo sectionId f).sectionInfos[id]? = table.sectionInfos[id]? :=
  List.getElem?_modify_ne _ _ h.symm

omit h in
theorem getElem?_modifyInfo_self : (table.modifyInfo sectionId f).sectionInfos[sectionId]? =
      (table.sectionInfos[sectionId]?).map fun entry => { entry with info := f entry.info } :=
  List.getElem?_modify_eq _ _ _

theorem Records.modifyInfo (hle : builtIn.length ≤ sectionId) {info : Layout.SectionOutputInfo}
    (hentry : table.sectionInfos[sectionId]? = some ⟨none, info⟩)
    (f : Layout.SectionOutputInfo → Layout.SectionOutputInfo) :
    Records builtIn (table.modifyInfo sectionId f) declared where
  length_le := by
    rw [SectionTable.modifyInfo, List.length_modify]
    exact h.length_le
  same id hlt := by
    rw [getElem?_modifyInfo_of_ne (Nat.ne_of_lt (Nat.lt_of_lt_of_le hlt hle)), h.same id hlt]
  absent := h.absent
  first name id hsome := by
    obtain ⟨d, hfind, hle', hid⟩ := h.first name id hsome
    have hne : id ≠ sectionId := by
      rintro rfl
      rw [hentry] at hid
      cases hid
    exact ⟨d, hfind, hle', (getElem?_modifyInfo_of_ne hne).trans hid⟩
  named id entry name hid hother heq := by
    rcases eq_or_ne id sectionId with rfl | hne
    · rw [getElem?_modifyInfo_self, hentry] at hother
      cases hother
      cases heq
    · rw [getElem?_modifyInfo_of_ne hne] at hother
      exact h.named id entry name hid hother heq
  initFini key id hsome := by
    obtain ⟨hle', info', hid⟩ := h.initFini key id hsome
    rcases eq_or_ne id sectionId with rfl | hne
    · exact ⟨hle', f info, by rw [getElem?_modifyInfo_self, hentry]; rfl⟩
    · exact ⟨hle', info', (getElem?_modifyInfo_of_ne hne).trans hid⟩

theorem Records.getOrCreateInitFiniSecondary (primary : OutputSectionId) (priority : ℕ)
    (alignment : ScriptAlignment) :
    Records builtIn (table.getOrCreateInitFiniSecondary primary priority alignment).2 declared := by
  rw [SectionTable.getOrCreateInitFiniSecondary]
  split
  next sectionId hsome =>
    obtain ⟨hle, info, hentry⟩ := h.initFini _ _ hsome
    exact h.modifyInfo hle hentry fun info =>
      { info with minAlignment := max info.minAlignment alignment.val }
  next hnone =>
    have hadded := h.addSecondarySection primary alignment (some priority)
    refine ⟨hadded.length_le, hadded.same, hadded.absent, hadded.first, hadded.named,
      fun key sectionId hsome => ?_⟩
    rw [List.lookup_cons] at hsome
    split at hsome
    · cases hsome
      exact ⟨h.length_le, _, List.getElem?_concat_length⟩
    · exact hadded.initFini key sectionId hsome

end

/-! ## The table of a link -/

theorem records_addSections {args : StartArgs} (h : Records builtIn table declared)
    (customSections : List CustomSectionDetails) :
    Records builtIn (addSections args table customSections)
      (declared ++ customSections.map fun custom =>
        ⟨custom.name, custom.alignment, args.startAddressForSection custom.name,
          custom.alignment⟩) := by
  induction customSections generalizing table declared with
  | nil => simpa [addSections] using h
  | cons custom customSections ih =>
    have hnext := ih (h.addNamedSection ⟨custom.name, custom.alignment,
      args.startAddressForSection custom.name, custom.alignment⟩)
    rwa [append_assoc] at hnext

theorem records_applyInitFini (h : Records builtIn table declared)
    (details : List InitFiniSectionDetail) :
    Records builtIn (applyInitFiniSecondaries table details) declared := by
  induction details generalizing table with
  | nil => exact h
  | cons d details ih =>
    exact ih (h.getOrCreateInitFiniSecondary d.primary d.priority d.alignment)

theorem records_assignSectionIds {args : StartArgs} (h : Records builtIn table declared)
    (objects : List ObjectSections) :
    Records builtIn (assignSectionIds args table objects)
      (declared ++ (objects.flatMap ObjectSections.customSections).map fun custom =>
        ⟨custom.name, custom.alignment, args.startAddressForSection custom.name,
          custom.alignment⟩) := by
  induction objects generalizing table declared with
  | nil => simpa [assignSectionIds] using h
  | cons object objects ih =>
    have hadded := @records_addSections _ _ _ args h object.customSections
    have hnext := ih (records_applyInitFini hadded object.initFiniSections)
    rw [append_assoc, ← List.map_append] at hnext
    exact hnext

/-! ## The table of scripts -/

variable {Pattern : Type} {newPattern : Text → Option Pattern}

variable {primary : OutputSectionId}

theorem records_contentsCommand {state state' : BodyState Pattern}
    {command : ContentsCommand} (h : Records builtIn state.table declared)
    (hok : contentsCommand newPattern primary state command = .ok state')
    (commands : List ContentsCommand) :
    Records builtIn state'.table declared ∧
      leftover state.extraMinAlignment state.lastSectionId.isSome (command :: commands) =
        leftover state'.extraMinAlignment state'.lastSectionId.isSome commands := by
  cases command with
  | matcher matcher =>
    obtain ⟨rules, -, hstate⟩ := bind_eq_ok.1 hok
    cases hstate
    obtain ⟨table, rules, symbolDefs, extraMinAlignment, lastSectionId⟩ := state
    cases lastSectionId with
    | none => exact ⟨h, rfl⟩
    | some last => exact ⟨h.addSecondarySection _ _ _, rfl⟩
  | align alignment =>
    cases hok
    exact ⟨h, rfl⟩
  | provide name hidden =>
    cases hok
    exact ⟨h, rfl⟩
  | symbolAssignment name expr =>
    have hkeeps : state'.table = state.table ∧ state'.extraMinAlignment = state.extraMinAlignment ∧
          state'.lastSectionId = state.lastSectionId := by
      cases expr <;> cases hok <;> exact ⟨rfl, rfl, rfl⟩
    rw [hkeeps.1, hkeeps.2.1, hkeeps.2.2]
    exact ⟨h, rfl⟩

theorem records_body {commands : List ContentsCommand}
    {state state' : BodyState Pattern} (h : Records builtIn state.table declared)
    (hok : commands.foldlM (contentsCommand newPattern primary) state = .ok state') :
    Records builtIn state'.table declared ∧ state'.extraMinAlignment =
        leftover state.extraMinAlignment state.lastSectionId.isSome commands := by
  induction commands generalizing state with
  | nil =>
    cases hok
    exact ⟨h, rfl⟩
  | cons command commands ih =>
    rw [foldlM_cons] at hok
    obtain ⟨next, hnext, hrest⟩ := bind_eq_ok.1 hok
    obtain ⟨htable, hleft⟩ := records_contentsCommand h hnext commands
    obtain ⟨htable', hextra⟩ := ih htable hrest
    exact ⟨htable', hextra.trans hleft.symm⟩

theorem sectionLocation_eq_ok {location location' : Option ℕ} {expr : Option Expression}
    (h : sectionLocation location expr = .ok location') : locationOf location expr = location' := by
  rcases expr with _ | expr
  · exact Except.ok.inj h
  · cases expr with
    | number n => exact Except.ok.inj h
    | _ => cases h

theorem records_sectionCommand {state state' : ScriptState Pattern} {command : SectionCommand}
    (h : Records builtIn state.table declared)
    (hok : sectionCommand newPattern state command = .ok state') (commands : List SectionCommand) :
    ∃ added, Records builtIn state'.table (declared ++ added) ∧
      declarationsOf state.location state.extraMinAlignment (command :: commands) =
        added ++ declarationsOf state'.location state'.extraMinAlignment commands := by
  cases command with
  | «section» sec =>
    obtain ⟨location, hloc, hrest⟩ := bind_eq_ok.1 hok
    obtain ⟨body, hbody, hstate⟩ := bind_eq_ok.1 hrest
    cases hstate
    have hadded := h.addNamedSection
      { name := sec.outputSectionName
        minAlignment := max (sec.alignment.getD alignmentMin) state.extraMinAlignment
        location := location
        alignment := sec.alignment.getD alignmentMin }
    obtain ⟨htable, hextra⟩ := records_body hadded hbody
    refine ⟨_, htable, ?_⟩
    have hleft : leftover alignmentMin false sec.commands = body.extraMinAlignment := hextra.symm
    rw [declarationsOf, sectionLocation_eq_ok hloc, hleft]
    rfl
  | setLocation address | align alignment | assert =>
    cases hok
    exact ⟨[], by rwa [append_nil], rfl⟩

theorem records_sectionCommands {commands : List SectionCommand} {state state' : ScriptState Pattern}
    (h : Records builtIn state.table declared)
    (hok : commands.foldlM (sectionCommand newPattern) state = .ok state') :
    Records builtIn state'.table
      (declared ++ declarationsOf state.location state.extraMinAlignment commands) := by
  induction commands generalizing state declared with
  | nil =>
    cases hok
    rwa [declarationsOf, append_nil]
  | cons command commands ih =>
    rw [foldlM_cons] at hok
    obtain ⟨next, hnext, hrest⟩ := bind_eq_ok.1 hok
    obtain ⟨added, htable, hdeclared⟩ := records_sectionCommand h hnext commands
    rw [hdeclared, ← append_assoc]
    exact ih htable hrest

theorem records_scripts {scripts : List (List SectionCommand)} {state state' : ScriptState Pattern}
    (h : Records builtIn state.table declared)
    (hok : scripts.foldlM (sectionsCommand newPattern) state = .ok state') :
    Records builtIn state'.table
      (declared ++ scripts.flatMap (declarationsOf none alignmentMin)) := by
  induction scripts generalizing state declared with
  | nil =>
    cases hok
    rwa [List.flatMap_nil, append_nil]
  | cons commands scripts ih =>
    rw [foldlM_cons] at hok
    obtain ⟨next, hnext, hrest⟩ := bind_eq_ok.1 hok
    rw [List.flatMap_cons, ← append_assoc]
    have hcmds := @records_sectionCommands _ _ _ _ _
      { state with location := none, extraMinAlignment := alignmentMin } _ h hnext
    exact ih hcmds hrest

end Tables

/-! ## Requests in the table -/

section Requests

variable {Pattern : Type} {newPattern : Text → Option Pattern} {input : LinkInput}
  {table : SectionTable}

theorem exists_records (h : input.declareSections newPattern = .ok table) :
    ∃ before, table = applySectionStartOverrides input.args before ∧
      Records input.builtIn.sectionInfos before input.declared := by
  obtain ⟨state, hscripts, htable⟩ := bind_eq_ok.1 h
  have hrecords : Records input.builtIn.sectionInfos state.table _ :=
    records_scripts (records_builtIn _) hscripts
  exact ⟨_, (Except.ok.inj htable).symm, records_assignSectionIds hrecords input.objects⟩

variable {args : StartArgs}

theorem customByName_override (table : SectionTable) (sectionId : OutputSectionId) (name : Bytes) :
    (applySectionStartOverride args table sectionId name).customByName = table.customByName := by
  rw [applySectionStartOverride]
  split <;> rfl

variable {id : OutputSectionId}

theorem getElem?_override_of_ne {sectionId : OutputSectionId} (name : Bytes) (h : id ≠ sectionId) :
    (applySectionStartOverride args table sectionId name).sectionInfos[id]? =
      table.sectionInfos[id]? := by
  rw [applySectionStartOverride]
  split
  · exact getElem?_modifyInfo_of_ne h
  · rfl

def NamedInfo.withLocation (entry : NamedInfo) (location : Option ℕ) : NamedInfo :=
  { entry with info := { entry.info with location := location } }

theorem getElem?_override_self (sectionId : OutputSectionId) (name : Bytes) :
    (applySectionStartOverride args table sectionId name).sectionInfos[sectionId]? =
      (table.sectionInfos[sectionId]?).map fun entry =>
        entry.withLocation ((args.startAddressForSection name).or entry.info.location) := by
  rw [applySectionStartOverride]
  split
  next address haddr =>
    rw [getElem?_modifyInfo_self, haddr]
    rfl
  next hnone =>
    rw [hnone]
    simp [NamedInfo.withLocation]

/-- The built-in sections that have arguments of their own. -/
def startSections : List (Bytes × OutputSectionId) :=
  [(dotText, text), (dotData, data), (dotBss, bss)]

/-- The argument for a section, by its id. -/
def startOf (args : StartArgs) (id : OutputSectionId) : Option ℕ :=
  (startSections.find? fun pair => pair.2 = id).bind fun pair =>
    args.startAddressForSection pair.1

theorem startOf_eq_none (htext : id ≠ text) (hdata : id ≠ data)
    (hbss : id ≠ bss) : startOf args id = none := by
  simp [startOf, startSections, htext.symm, hdata.symm, hbss.symm]

theorem getElem?_overrides (table : SectionTable) (id : OutputSectionId) :
    (applySectionStartOverrides args table).sectionInfos[id]? =
      (table.sectionInfos[id]?).map fun entry =>
        entry.withLocation ((startOf args id).or entry.info.location) := by
  have hdata : text ≠ data := by decide
  have hbss : text ≠ bss := by decide
  have hbss' : data ≠ bss := by decide
  rcases eq_or_ne id bss with rfl | hid
  · rw [applySectionStartOverrides, getElem?_override_self, getElem?_override_of_ne _ hbss'.symm,
      getElem?_override_of_ne _ hbss.symm]
    rfl
  rcases eq_or_ne id data with rfl | hid'
  · rw [applySectionStartOverrides, getElem?_override_of_ne _ hid, getElem?_override_self,
      getElem?_override_of_ne _ hdata.symm]
    rfl
  rcases eq_or_ne id text with rfl | hid''
  · rw [applySectionStartOverrides, getElem?_override_of_ne _ hid, getElem?_override_of_ne _ hid',
      getElem?_override_self]
    rfl
  · rw [applySectionStartOverrides, getElem?_override_of_ne _ hid, getElem?_override_of_ne _ hid',
      getElem?_override_of_ne _ hid'', startOf_eq_none hid'' hid' hid]
    simp [NamedInfo.withLocation]

theorem customByName_overrides (table : SectionTable) :
    (applySectionStartOverrides args table).customByName = table.customByName := by
  rw [applySectionStartOverrides, customByName_override, customByName_override,
    customByName_override]

theorem findIdx?_congr {infos infos' : List NamedInfo} (name : Bytes)
    (h : ∀ id : ℕ, (infos[id]?).map NamedInfo.name = (infos'[id]?).map NamedInfo.name) :
    infos.findIdx? (fun entry => entry.name = some name) =
      infos'.findIdx? fun entry => entry.name = some name := by
  have hnames : infos.map NamedInfo.name = infos'.map NamedInfo.name := by
    refine List.ext_getElem? fun id => ?_
    rw [List.getElem?_map, List.getElem?_map, h id]
  have hmap : ∀ infos : List NamedInfo, infos.findIdx? (fun entry => entry.name = some name) =
      (infos.map NamedInfo.name).findIdx? fun other => other = some name := by
    intro infos
    rw [List.findIdx?_map]
    rfl
  rw [hmap, hmap, hnames]

variable {name : Bytes}

theorem Records.findIdx?_eq {builtIn : List NamedInfo} {declared : List Declaration}
    (h : Records builtIn table declared) (hnone : table.customByName.lookup name = none) :
    table.sectionInfos.findIdx? (fun entry => entry.name = some name) =
      builtIn.findIdx? fun entry => entry.name = some name := by
  have hsplit : table.sectionInfos = builtIn ++ table.sectionInfos.drop builtIn.length := by
    have htake : table.sectionInfos.take builtIn.length = builtIn := by
      refine List.ext_getElem? fun id => ?_
      rw [List.getElem?_take]
      split
      next hlt => exact h.same id hlt
      next hge => exact (List.getElem?_eq_none (Nat.le_of_not_lt hge)).symm
    exact (List.take_append_drop builtIn.length table.sectionInfos).symm.trans (by rw [htake])
  have hrest : (table.sectionInfos.drop builtIn.length).findIdx?
      (fun entry => entry.name = some name) = none := by
    refine List.findIdx?_eq_none_iff.2 fun entry hentry => ?_
    obtain ⟨i, hi⟩ := List.mem_iff_getElem?.1 hentry
    rw [List.getElem?_drop] at hi
    refine decide_eq_false fun hname => ?_
    have hsome := h.named _ entry name (Nat.le_add_right _ _) hi hname
    rw [hnone] at hsome
    cases hsome
  rw [hsplit, List.findIdx?_append, hrest]
  simp

theorem lt_length_of_findIdx? {infos : List NamedInfo}
    (h : infos.findIdx? (fun entry => entry.name = some name) = some id) :
    ∃ entry, infos[id]? = some entry ∧ entry.name = some name := by
  obtain ⟨hlt, hname, -⟩ := List.findIdx?_eq_some_iff_getElem.1 h
  exact ⟨infos[id], List.getElem?_eq_getElem hlt, of_decide_eq_true hname⟩

variable {args : StartArgs}

theorem sectionIdByName_overrides (table : SectionTable) (name : Bytes) :
    (applySectionStartOverrides args table).sectionIdByName name = table.sectionIdByName name := by
  have hnames : (applySectionStartOverrides args table).sectionInfos.findIdx?
      (fun entry => entry.name = some name) =
        table.sectionInfos.findIdx? fun entry => entry.name = some name := by
    refine findIdx?_congr name fun id => ?_
    rw [getElem?_overrides, Option.map_map]
    rfl
  rw [sectionIdByName, customByName_overrides, hnames]
  rfl

theorem entry_of_name (h : input.declareSections newPattern = .ok table) (name : Bytes) :
    (∀ first, input.firstDeclaration name = some first →
      ∃ id, input.builtIn.sectionInfos.length ≤ id ∧ table.sectionIdByName name = some id ∧
        table.sectionInfos[id]? = some ⟨some name, ⟨.primary, SectionTable.defaultAttributes,
          first.minAlignment.val, first.location, none⟩⟩) ∧
    (input.firstDeclaration name = none → table.sectionIdByName name =
          input.builtIn.sectionInfos.findIdx? (fun entry => entry.name = some name) ∧
        ∀ (id : OutputSectionId) (entry : NamedInfo), input.builtIn.sectionInfos[id]? = some entry →
          table.sectionInfos[id]? = some (entry.withLocation (startOf input.args id))) := by
  obtain ⟨before, rfl, hrecords⟩ := exists_records h
  have hbuiltIn : ∀ {id name}, input.builtIn.sectionInfos.findIdx?
      (fun entry => entry.name = some name) = some id → id < input.builtIn.sectionInfos.length :=
    fun hid => (List.findIdx?_eq_some_iff_getElem.1 hid).1
  constructor
  · intro first hfirst
    cases hlookup : before.customByName.lookup name with
    | none =>
      have hnone := hrecords.absent name hlookup
      rw [LinkInput.firstDeclaration, hnone] at hfirst
      cases hfirst
    | some id =>
      obtain ⟨d, hd, hle, hentry⟩ := hrecords.first name id hlookup
      rw [LinkInput.firstDeclaration, hd] at hfirst
      cases hfirst
      have hne : ∀ {other name'}, input.builtIn.sectionInfos.findIdx?
          (fun entry => entry.name = some name') = some other → id ≠ other :=
        fun hother => (Nat.lt_of_lt_of_le (hbuiltIn hother) hle).ne'
      refine ⟨id, hle, ?_, ?_⟩
      · rw [sectionIdByName_overrides, sectionIdByName, hlookup]
      · rw [getElem?_overrides, hentry, startOf_eq_none (hne input.builtIn.idOf_text)
          (hne input.builtIn.idOf_data) (hne input.builtIn.idOf_bss)]
        rfl
  · intro hfirst
    have hlookup : before.customByName.lookup name = none := by
      cases hlookup : before.customByName.lookup name with
      | none => rfl
      | some id =>
        obtain ⟨d, hd, -⟩ := hrecords.first name id hlookup
        rw [LinkInput.firstDeclaration, hd] at hfirst
        cases hfirst
    refine ⟨?_, fun id entry hentry => ?_⟩
    · rw [sectionIdByName_overrides, sectionIdByName, hlookup]
      exact hrecords.findIdx?_eq hlookup
    · obtain ⟨hlt, -⟩ := List.getElem?_eq_some_iff.1 hentry
      have hloc := input.builtIn.no_location entry (List.mem_of_getElem? hentry)
      rw [getElem?_overrides, hrecords.same id hlt, hentry, Option.map_some, hloc, Option.or_none]

theorem startOf_of_name (builtIn : BuiltInSections) (args : StartArgs)
    (h : name = dotText ∨ name = dotData ∨ name = dotBss) :
    ∃ id, builtIn.sectionInfos.findIdx? (fun entry => entry.name = some name) = some id ∧
      startOf args id = args.startAddressForSection name := by
  rcases h with rfl | rfl | rfl
  · exact ⟨text, builtIn.idOf_text, rfl⟩
  · exact ⟨data, builtIn.idOf_data, rfl⟩
  · exact ⟨bss, builtIn.idOf_bss, rfl⟩

theorem name_of_startOf (builtIn : BuiltInSections)
    {address : ℕ} (h : startOf args id = some address) :
    ∃ name, (name = dotText ∨ name = dotData ∨ name = dotBss) ∧
      builtIn.sectionInfos.findIdx? (fun entry => entry.name = some name) = some id := by
  rcases eq_or_ne id text with rfl | htext
  · exact ⟨dotText, .inl rfl, builtIn.idOf_text⟩
  rcases eq_or_ne id data with rfl | hdata
  · exact ⟨dotData, .inr (.inl rfl), builtIn.idOf_data⟩
  rcases eq_or_ne id bss with rfl | hbss
  · exact ⟨dotBss, .inr (.inr rfl), builtIn.idOf_bss⟩
  · rw [startOf_eq_none htext hdata hbss] at h
    cases h

theorem startOf_eq_location (builtIn : BuiltInSections) (args : StartArgs)
    (hid : builtIn.sectionInfos.findIdx? (fun entry => entry.name = some name) = some id) :
    startOf args id = if name = dotText ∨ name = dotData ∨ name = dotBss then
        args.startAddressForSection name
      else none := by
  split
  next hmem =>
    obtain ⟨id', hid', hargs⟩ := startOf_of_name builtIn args hmem
    cases hid.symm.trans hid'
    exact hargs
  next hmem =>
    cases hstart : startOf args id with
    | none => rfl
    | some address =>
      obtain ⟨name', hmem', hid'⟩ := name_of_startOf builtIn hstart
      obtain ⟨entry, hentry, hname⟩ := lt_length_of_findIdx? hid
      obtain ⟨entry', hentry', hname'⟩ := lt_length_of_findIdx? hid'
      cases hentry.symm.trans hentry'
      obtain rfl : name = name' := Option.some.inj (hname.symm.trans hname')
      exact absurd hmem' hmem

theorem find?_of_findIdx? {infos : List NamedInfo} {entry : NamedInfo}
    (hid : infos.findIdx? (fun entry => entry.name = some name) = some id)
    (hentry : infos[id]? = some entry) :
    infos.find? (fun entry => entry.name = some name) = some entry := by
  obtain ⟨hlt, hname, hbefore⟩ := List.findIdx?_eq_some_iff_getElem.1 hid
  obtain ⟨_, rfl⟩ := List.getElem?_eq_some_iff.1 hentry
  refine List.find?_eq_some_iff_getElem.2 ⟨hname, id, hlt, rfl, fun j hj => ?_⟩
  simpa using hbefore j hj

theorem sectionIdByName_eq_none_iff (h : input.declareSections newPattern = .ok table)
    (name : Bytes) : table.sectionIdByName name = none ↔ ¬ input.HasSection name := by
  obtain ⟨hsome, hnone⟩ := entry_of_name h name
  cases hfirst : input.firstDeclaration name with
  | some first =>
    obtain ⟨id, -, hid, -⟩ := hsome first hfirst
    simp [LinkInput.HasSection, hfirst, hid]
  | none =>
    rw [(hnone hfirst).1, List.findIdx?_eq_none_iff]
    simp [LinkInput.HasSection, hfirst, LinkInput.builtInEntry]

/-- The table has what the first declaration says, or the built-in section with
its argument. -/
theorem entry_of_sectionIdByName (h : input.declareSections newPattern = .ok table)
    (hid : table.sectionIdByName name = some id) :
    ∃ entry, table.sectionInfos[id]? = some entry ∧
      entry.info.minAlignment = input.minAlignmentFor name ∧
      entry.info.location = input.locationFor name := by
  obtain ⟨hsome, hnone⟩ := entry_of_name h name
  rw [LinkInput.minAlignmentFor, LinkInput.locationFor]
  cases hfirst : input.firstDeclaration name with
  | some first =>
    obtain ⟨id', -, hid', hentry⟩ := hsome first hfirst
    cases hid.symm.trans hid'
    exact ⟨_, hentry, rfl, rfl⟩
  | none =>
    obtain ⟨hname, hentries⟩ := hnone hfirst
    have hfound := hname.symm.trans hid
    obtain ⟨entry, hentry, -⟩ := lt_length_of_findIdx? hfound
    refine ⟨_, hentries id entry hentry, ?_, startOf_eq_location input.builtIn input.args hfound⟩
    rw [LinkInput.builtInEntry, find?_of_findIdx? hfound hentry]
    rfl

theorem minAlignmentFor_lt (input : LinkInput) (name : Bytes) :
    input.minAlignmentFor name < numAlignments := by
  rw [LinkInput.minAlignmentFor]
  split
  next first _ => exact first.minAlignment.isLt
  next =>
    cases hentry : input.builtInEntry name with
    | none => exact Nat.zero_lt_succ _
    | some entry => exact input.builtIn.alignment_lt entry (List.mem_of_find?_eq_some hentry)

end Requests

end Sld.Sections
