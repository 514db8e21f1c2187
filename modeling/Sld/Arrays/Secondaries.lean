/-
# `Arrays.Secondaries` — a section of its own for each priority

Sections of one array and one priority share a secondary output section,
which is made when the first of them is seen.  In it each alignment has its
part.

    assignSections        the parts of all array sections of a link
    Tracked               what the table of output sections then says
    assignSections_eq     the part is determined by array, priority, alignment
-/
import Sld.Layout.SectionRequests
import Sld.Arrays.Priorities

namespace Sld.Arrays

open Layout (OutputSectionId PartId Alignment numAlignments numSinglePartSections)
open Sections (SectionTable NamedInfo ScriptAlignment InitFiniSectionDetail CustomSectionDetails
  StartArgs addSections)

/-! ## Sections of pointers -/

def wordSize : ℕ := 8

/-- A relocation that puts a pointer in its place. -/
structure PointerRelocation where
  offset : ℕ
  value : UInt64

/-- An input section of an array: it is no more aligned than a pointer, and
its relocations are for whole pointers. -/
structure PointerSection where
  name : ArraySectionName
  alignment : ScriptAlignment
  alignment_le : alignment.val ≤ 3
  words : List UInt64
  relocations : List PointerRelocation
  relocations_inside : ∀ relocation ∈ relocations, wordSize ∣ relocation.offset ∧
    relocation.offset + wordSize ≤ wordSize * words.length

def PointerSection.size (s : PointerSection) : ℕ := wordSize * s.words.length

def PointerSection.array (s : PointerSection) : OutputSectionId := s.name.kind.array

/-- An object: the sections of its own names, and those of the arrays that
are loaded, in their order. -/
structure ArrayObject where
  customSections : List CustomSectionDetails
  sections : List PointerSection

/-! ## Parts -/

def partIdWithAlignment (sectionId : OutputSectionId) (alignment : Layout.Alignment) : PartId :=
  numSinglePartSections + (sectionId - numSinglePartSections) * numAlignments + numAlignments - 1
    - alignment

/-- What `resolve_section` finds out about a section that a rule sorts. -/
def detailOf (s : PointerSection) : Option InitFiniSectionDetail := do
  let primary ← sortedSection s.name.bytes
  let priority ← initFiniPriority s.name.bytes
  return ⟨primary, priority, s.alignment⟩

/-- The part of a section without a priority, or of one with it. -/
def assignSection (table : SectionTable) (s : PointerSection) :
    (PointerSection × PartId) × SectionTable :=
  match detailOf s with
  | none => ((s, partIdWithAlignment ((sortedSection s.name.bytes).getD 0) s.alignment.val), table)
  | some d =>
    let (sectionId, table) :=
      table.getOrCreateInitFiniSecondary d.primary d.priority d.alignment
    ((s, partIdWithAlignment sectionId d.alignment.val), table)

/-- A step over each element, with a state handed on. -/
def mapAccum {σ α β : Type} (step : σ → α → β × σ) : σ → List α → List β × σ
  | state, [] => ([], state)
  | state, a :: as =>
    let (b, state) := step state a
    let (bs, state) := mapAccum step state as
    (b :: bs, state)

variable (args : StartArgs)

/-- One object in `assign_section_ids`. -/
def assignObject (table : SectionTable) (object : ArrayObject) :
    List (PointerSection × PartId) × SectionTable :=
  mapAccum assignSection (addSections args table object.customSections) object.sections

/-- `assign_section_ids`, for groups of objects. -/
def assignSections (table : SectionTable) (groups : List (List ArrayObject)) :
    List (List (List (PointerSection × PartId))) × SectionTable :=
  mapAccum (fun table group => mapAccum (assignObject args) table group) table groups

/-! ## The table -/

def numBuiltInSections : ℕ := numSinglePartSections + 20

/-- The section of an array itself. -/
structure IsArray (info : Layout.SectionOutputInfo) : Prop where
  kind : info.kind = .primary
  minAlignment : info.minAlignment = 3
  location : info.location = none

/-- The section of one priority in an array. -/
structure IsSecondary (key : OutputSectionId × ℕ) (info : Layout.SectionOutputInfo) : Prop where
  kind : info.kind = .secondary key.1
  secondaryOrder : info.secondaryOrder = some key.2
  minAlignment_le : info.minAlignment ≤ 3
  location : info.location = none

/-- What the table says of the arrays and their sections. -/
structure Tracked (table : SectionTable) : Prop where
  length_le : numBuiltInSections ≤ table.sectionInfos.length
  arrays : ∀ array ∈ [initArray, finiArray], ∃ named : NamedInfo,
    table.sectionInfos[array]? = some named ∧ IsArray named.info
  info : ∀ key sectionId, table.initFiniByPriority.lookup key = some sectionId →
    numBuiltInSections ≤ sectionId ∧ ∃ named : NamedInfo,
      table.sectionInfos[sectionId]? = some named ∧ IsSecondary key named.info
  secondary : ∀ sectionId (named : NamedInfo) primary,
    table.sectionInfos[sectionId]? = some named → named.info.kind = .secondary primary →
      ∃ priority, table.initFiniByPriority.lookup (primary, priority) = some sectionId

/-- The sections of a table stay in a later one. -/
def Later (table table' : SectionTable) : Prop :=
  ∀ key sectionId, table.initFiniByPriority.lookup key = some sectionId →
    table'.initFiniByPriority.lookup key = some sectionId

theorem Later.refl (table : SectionTable) : Later table table := fun _ _ h => h

theorem Later.trans {table table' table'' : SectionTable} (h : Later table table')
    (h' : Later table' table'') : Later table table'' := fun key sectionId hlookup =>
  h' key sectionId (h key sectionId hlookup)

section Tables

variable {table : SectionTable}

variable {infos : List NamedInfo}

theorem getElem?_append_of_eq_some {id : ℕ} {named : NamedInfo}
    (h : infos[id]? = some named) (entry : NamedInfo) : (infos ++ [entry])[id]? = some named := by
  rw [List.getElem?_append_left (List.getElem?_eq_some_iff.mp h).1]
  exact h

theorem getElem?_concat_cases {entry named : NamedInfo} {id : ℕ}
    (h : (infos ++ [entry])[id]? = some named) :
    infos[id]? = some named ∨ (id = infos.length ∧ named = entry) := by
  by_cases hlt : id < infos.length
  · rw [List.getElem?_append_left hlt] at h
    exact .inl h
  · obtain ⟨hbound, -⟩ := List.getElem?_eq_some_iff.mp h
    rw [List.length_append, List.length_singleton] at hbound
    obtain rfl : id = infos.length := by omega
    rw [List.getElem?_append_right (le_refl _), Nat.sub_self] at h
    exact .inr ⟨rfl, (Option.some.inj h).symm⟩

theorem Tracked.addNamedSection (h : Tracked table) (name : Text.Bytes)
    (minAlignment : ScriptAlignment) (location : Option ℕ) :
    Tracked (table.addNamedSection name minAlignment location).2
      ∧ Later table (table.addNamedSection name minAlignment location).2 := by
  unfold SectionTable.addNamedSection
  cases hlookup : table.customByName.lookup name with
  | some sectionId => exact ⟨h, .refl table⟩
  | none =>
    refine ⟨⟨?_, fun array harray => ?_, fun key sectionId hkey => ?_,
      fun sectionId named primary hid hkind => ?_⟩, .refl table⟩
    · show numBuiltInSections ≤ (table.sectionInfos ++ [_]).length
      rw [List.length_append]
      exact Nat.le_add_right_of_le h.length_le
    · obtain ⟨named, hid, hinfo⟩ := h.arrays array harray
      exact ⟨named, getElem?_append_of_eq_some hid _, hinfo⟩
    · obtain ⟨hle, named, hid, hinfo⟩ := h.info key sectionId hkey
      exact ⟨hle, named, getElem?_append_of_eq_some hid _, hinfo⟩
    · rcases getElem?_concat_cases hid with hold | ⟨-, rfl⟩
      · exact h.secondary sectionId named primary hold hkind
      · cases hkind

theorem Tracked.addSections (h : Tracked table) (customSections : List CustomSectionDetails) :
    Tracked (Sections.addSections args table customSections)
      ∧ Later table (Sections.addSections args table customSections) := by
  induction customSections generalizing table with
  | nil => exact ⟨h, .refl table⟩
  | cons custom customSections ih =>
    obtain ⟨hnext, hlater⟩ := h.addNamedSection custom.name custom.alignment
      (args.startAddressForSection custom.name)
    obtain ⟨hlast, hlater'⟩ := ih hnext
    exact ⟨hlast, hlater.trans hlater'⟩

variable {key : OutputSectionId × ℕ} {sectionId : OutputSectionId}

theorem Tracked.ne_array (h : Tracked table)
    {array : OutputSectionId} (hkey : table.initFiniByPriority.lookup key = some sectionId)
    (harray : array ∈ [initArray, finiArray]) : array ≠ sectionId := by
  rintro rfl
  obtain ⟨hle, -⟩ := h.info key array hkey
  have hlt : ∀ id ∈ [initArray, finiArray], id < numBuiltInSections := by decide
  exact absurd (hlt array harray) (Nat.not_lt.mpr hle)

variable {alignment : ScriptAlignment}

theorem Tracked.bumpMinAlignment (h : Tracked table)
    (hkey : table.initFiniByPriority.lookup key = some sectionId) (hle : alignment.val ≤ 3) :
    Tracked (table.bumpMinAlignment sectionId alignment) := by
  have hself : ∀ named : NamedInfo, table.sectionInfos[sectionId]? = some named →
      (table.bumpMinAlignment sectionId alignment).sectionInfos[sectionId]? = some { named with
        info := { named.info with
          minAlignment := max named.info.minAlignment alignment.val } } := by
    intro named hid
    rw [SectionTable.bumpMinAlignment, Sections.getElem?_modifyInfo_self, hid]
    rfl
  have hother : ∀ id, id ≠ sectionId →
      (table.bumpMinAlignment sectionId alignment).sectionInfos[id]? = table.sectionInfos[id]? :=
    fun id hne => Sections.getElem?_modifyInfo_of_ne hne
  refine ⟨?_, fun array harray => ?_, fun key' id hid => ?_, fun id named primary hid hkind => ?_⟩
  · show numBuiltInSections ≤ (table.sectionInfos.modify sectionId _).length
    rw [List.length_modify]
    exact h.length_le
  · rw [hother array (h.ne_array hkey harray)]
    exact h.arrays array harray
  · obtain ⟨hreg, named, hnamed, hinfo⟩ := h.info key' id hid
    refine ⟨hreg, ?_⟩
    by_cases heq : id = sectionId
    · subst heq
      exact ⟨_, hself named hnamed, hinfo.kind, hinfo.secondaryOrder,
        Nat.max_le.mpr ⟨hinfo.minAlignment_le, hle⟩, hinfo.location⟩
    · exact ⟨named, (hother id heq).trans hnamed, hinfo⟩
  · by_cases heq : id = sectionId
    · subst heq
      obtain ⟨-, old, hold, -⟩ := h.info key id hkey
      cases (hself old hold).symm.trans hid
      exact h.secondary id old primary hold hkind
    · exact h.secondary id named primary ((hother id heq).symm.trans hid) hkind

theorem lookup_cons_of_none {pairs : List ((OutputSectionId × ℕ) × OutputSectionId)}
    {key' : OutputSectionId × ℕ} {new : OutputSectionId} (hnew : pairs.lookup key = none)
    (h : pairs.lookup key' = some sectionId) :
    ((key, new) :: pairs).lookup key' = some sectionId := by
  have hne : (key' == key) = false := by
    rw [beq_eq_false_iff_ne]
    rintro rfl
    rw [hnew] at h
    cases h
  rw [List.lookup_cons, hne]
  exact h

theorem Tracked.addSecondary (h : Tracked table)
    (hnew : table.initFiniByPriority.lookup key = none) {entry : NamedInfo}
    (hentry : IsSecondary key entry.info) :
    Tracked { table with
        sectionInfos := table.sectionInfos ++ [entry]
        initFiniByPriority := (key, table.sectionInfos.length) :: table.initFiniByPriority } := by
  refine ⟨?_, fun array harray => ?_, fun key' sectionId hkey => ?_,
    fun sectionId named primary hid hkind => ?_⟩
  · show numBuiltInSections ≤ (table.sectionInfos ++ [entry]).length
    rw [List.length_append]
    exact Nat.le_add_right_of_le h.length_le
  · obtain ⟨named, hid, hinfo⟩ := h.arrays array harray
    exact ⟨named, getElem?_append_of_eq_some hid _, hinfo⟩
  · by_cases heq : key' = key
    · subst heq
      have hself : ((key', table.sectionInfos.length) :: table.initFiniByPriority).lookup key'
          = some table.sectionInfos.length := List.lookup_cons_self
      cases hself.symm.trans hkey
      refine ⟨h.length_le, entry, ?_, hentry⟩
      show (table.sectionInfos ++ [entry])[table.sectionInfos.length]? = some entry
      rw [List.getElem?_append_right (le_refl _), Nat.sub_self]
      rfl
    · have hother : ((key, table.sectionInfos.length) :: table.initFiniByPriority).lookup key'
          = table.initFiniByPriority.lookup key' := by
        rw [List.lookup_cons, beq_eq_false_iff_ne.mpr heq]
      obtain ⟨hle, named, hid, hinfo⟩ := h.info key' sectionId (hother.symm.trans hkey)
      exact ⟨hle, named, getElem?_append_of_eq_some hid _, hinfo⟩
  · rcases getElem?_concat_cases hid with hold | ⟨rfl, rfl⟩
    · obtain ⟨priority, hlookup⟩ := h.secondary sectionId named primary hold hkind
      exact ⟨priority, lookup_cons_of_none hnew hlookup⟩
    · refine ⟨key.2, ?_⟩
      rw [hentry.kind] at hkind
      obtain rfl : key.1 = primary := by
        injection hkind
      exact List.lookup_cons_self

theorem Tracked.getOrCreate (h : Tracked table) (primary : OutputSectionId) (priority : ℕ)
    (hle : alignment.val ≤ 3) :
    Tracked (table.getOrCreateInitFiniSecondary primary priority alignment).2
      ∧ Later table (table.getOrCreateInitFiniSecondary primary priority alignment).2
      ∧ (table.getOrCreateInitFiniSecondary primary priority alignment).2.initFiniByPriority.lookup
          (primary, priority)
        = some (table.getOrCreateInitFiniSecondary primary priority alignment).1 := by
  unfold SectionTable.getOrCreateInitFiniSecondary
  cases hlookup : table.initFiniByPriority.lookup (primary, priority) with
  | some sectionId => exact ⟨h.bumpMinAlignment hlookup hle, .refl table, hlookup⟩
  | none =>
    refine ⟨h.addSecondary hlookup ⟨rfl, rfl, hle, rfl⟩, fun key sectionId hkey => ?_,
      List.lookup_cons_self⟩
    exact lookup_cons_of_none hlookup hkey

end Tables

/-! ## The parts of the sections -/

theorem mapAccum_eq_map {σ α β : Type} {step : σ → α → β × σ} {Inv : σ → Prop}
    {After : σ → σ → Prop} {result : σ → α → β} {Ready : σ → α → Prop}
    (hrefl : ∀ state, After state state)
    (htrans : ∀ state state' state'', After state state' → After state' state'' →
      After state state'')
    (hstep : ∀ state a, Inv state → Inv (step state a).2 ∧ After state (step state a).2
      ∧ ∀ state', After (step state a).2 state' →
        Ready state' a ∧ (step state a).1 = result state' a)
    {state : σ} (h : Inv state) (as : List α) :
    Inv (mapAccum step state as).2 ∧ After state (mapAccum step state as).2
      ∧ ∀ state', After (mapAccum step state as).2 state' → (∀ a ∈ as, Ready state' a)
          ∧ (mapAccum step state as).1 = as.map (result state') := by
  induction as generalizing state with
  | nil => exact ⟨h, hrefl state, fun _ _ => ⟨fun a hmem => absurd hmem List.not_mem_nil, rfl⟩⟩
  | cons a as ih =>
    obtain ⟨hinv, hafter, hres⟩ := hstep state a h
    obtain ⟨hinv', hafter', hresults⟩ := ih hinv
    refine ⟨hinv', htrans _ _ _ hafter hafter', fun state' hlater => ?_⟩
    obtain ⟨hready, hhead⟩ := hres state' (htrans _ _ _ hafter' hlater)
    obtain ⟨hreadyRest, hrest⟩ := hresults state' hlater
    exact ⟨List.forall_mem_cons.mpr ⟨hready, hreadyRest⟩, congrArg₂ List.cons hhead hrest⟩

theorem detailOf_eq (s : PointerSection) :
    detailOf s = some ⟨s.array, s.name.priority, s.alignment⟩ := by
  unfold detailOf
  rw [sortedSection_bytes, initFiniPriority_bytes]
  rfl

/-- The secondary section of a key. -/
def secondaryOf (table : SectionTable) (key : OutputSectionId × ℕ) : OutputSectionId :=
  (table.initFiniByPriority.lookup key).getD 0

/-- The part that a table gives to a section. -/
def partOf (table : SectionTable) (s : PointerSection) : PartId :=
  partIdWithAlignment (secondaryOf table (s.array, s.name.priority)) s.alignment.val

/-- The secondary section of an input section is in the table. -/
def Present (table : SectionTable) (s : PointerSection) : Prop :=
  ∃ sectionId, table.initFiniByPriority.lookup (s.array, s.name.priority) = some sectionId

theorem assignSection_step {table : SectionTable} (h : Tracked table) (s : PointerSection) :
    Tracked (assignSection table s).2 ∧ Later table (assignSection table s).2
      ∧ ∀ table', Later (assignSection table s).2 table' →
        Present table' s ∧ (assignSection table s).1 = (s, partOf table' s) := by
  obtain ⟨htracked, hlater, hlookup⟩ := h.getOrCreate s.array s.name.priority s.alignment_le
  unfold assignSection
  rw [detailOf_eq]
  refine ⟨htracked, hlater, fun table' hlater' => ?_⟩
  have hlookup' := hlater' _ _ hlookup
  refine ⟨⟨_, hlookup'⟩, ?_⟩
  rw [partOf, secondaryOf, hlookup']
  rfl

section Assign

variable {table : SectionTable}

/-- The parts of the sections of an object, by a table. -/
def objectParts (table : SectionTable) (object : ArrayObject) : List (PointerSection × PartId) :=
  object.sections.map fun s => (s, partOf table s)

def ObjectPresent (table : SectionTable) (object : ArrayObject) : Prop :=
  ∀ s ∈ object.sections, Present table s

theorem assignObject_step (h : Tracked table) (object : ArrayObject) :
    Tracked (assignObject args table object).2 ∧ Later table (assignObject args table object).2
      ∧ ∀ table', Later (assignObject args table object).2 table' → ObjectPresent table' object
          ∧ (assignObject args table object).1 = objectParts table' object := by
  obtain ⟨hadded, hlater⟩ := h.addSections args object.customSections
  obtain ⟨htracked, hlater', hparts⟩ := mapAccum_eq_map Later.refl (fun _ _ _ => Later.trans)
    (fun table s (h : Tracked table) => assignSection_step h s) hadded object.sections
  exact ⟨htracked, hlater.trans hlater', hparts⟩

theorem assignGroup_step (h : Tracked table) (group : List ArrayObject) :
    Tracked (mapAccum (assignObject args) table group).2
      ∧ Later table (mapAccum (assignObject args) table group).2
      ∧ ∀ table', Later (mapAccum (assignObject args) table group).2 table' →
        (∀ object ∈ group, ObjectPresent table' object)
          ∧ (mapAccum (assignObject args) table group).1 = group.map (objectParts table') :=
  mapAccum_eq_map Later.refl (fun _ _ _ => Later.trans)
    (fun table object (h : Tracked table) => assignObject_step args h object) h group

theorem assignSections_eq (h : Tracked table) (groups : List (List ArrayObject)) :
    Tracked (assignSections args table groups).2 ∧ (∀ group ∈ groups, ∀ object ∈ group,
        ObjectPresent (assignSections args table groups).2 object)
      ∧ (assignSections args table groups).1 = groups.map fun group =>
          group.map (objectParts (assignSections args table groups).2) := by
  obtain ⟨htracked, -, hparts⟩ := mapAccum_eq_map Later.refl (fun _ _ _ => Later.trans)
    (fun table group (h : Tracked table) => assignGroup_step args h group) h groups
  exact ⟨htracked, hparts _ (.refl _)⟩

end Assign

end Sld.Arrays
