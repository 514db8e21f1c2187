/-
# `Layout.RequestedAddresses` — the addresses of sections that were asked for

The first part of a section has the largest alignment of the section, and
the others follow it: so the address of an allocated section is the first
multiple of that alignment, from its location on or from where its turn comes
(`sectionAddress_eq`).

Location and least alignment are those of the table of output sections, and
so those of the first declaration.  This says which alignments and addresses
that are asked for the section gets (`requests_honoured_iff`).
-/
import Sld.Layout.SectionRequests

namespace Sld.Sections

open Text Script Layout
open Rules (text data bss)

/-! ## The address of a section -/

section Addresses

variable {sizes : PartId → ℕ} {outputSections : OutputSections}
  {programSegments : List ProgramSegmentDef} {args : LayoutArgs}

/-- `mem_offset` of `layout_sections`: the least of the parts. -/
def sectionAddress (layout : PartId → OutputRecordLayout) (sectionId : OutputSectionId) :
    Option ℕ :=
  (sectionId.parts.map fun partId => (layout partId).memOffset).min?

theorem placeParts_above {sectionId : OutputSectionId} {alignment : Layout.Alignment}
    (hreloc : args.shouldOutputPartialObject = false)
    (halloc : IsAlloc outputSections sectionId) {parts : List PartId} {state : LayoutState}
    {bound : ℕ} (hbound : bound ≤ state.memOffset) (hnodup : parts.Nodup) :
    let state' := parts.foldl (placePart sizes outputSections args sectionId alignment) state
    (∀ partId ∈ parts, bound ≤ (state'.recordsOut partId).memOffset) ∧
      ∀ partId ∉ parts, state'.recordsOut partId = state.recordsOut partId := by
  induction parts generalizing state with
  | nil => exact ⟨fun _ h => (by cases h), fun _ _ => rfl⟩
  | cons partId parts ih =>
    obtain ⟨record, hplaced⟩ := @placed_placePart sizes outputSections args sectionId alignment
      state partId
    obtain ⟨hmem, hmem', -⟩ := hplaced.alloc hreloc halloc
    have habove : bound ≤ record.memOffset := by
      rw [hmem]
      exact hbound.trans (Alignment.le_alignUp _ _)
    obtain ⟨hnew, hnodup'⟩ := List.nodup_cons.1 hnodup
    have hbound' : bound ≤
        (placePart sizes outputSections args sectionId alignment state partId).memOffset := by
      omega
    obtain ⟨hrest, hsame⟩ := ih hbound' hnodup'
    refine ⟨fun other hother => ?_, fun other hother => ?_⟩
    · rcases List.mem_cons.1 hother with rfl | hother
      · rw [List.foldl_cons, hsame _ hnew, hplaced.recordsOut, Function.update_self]
        exact habove
      · exact hrest other hother
    · rw [List.mem_cons, not_or] at hother
      rw [List.foldl_cons, hsame other hother.2, hplaced.recordsOut, Function.update_of_ne hother.1]

variable {sectionId : OutputSectionId}

theorem exists_parts_eq_cons (sectionId : OutputSectionId) :
    ∃ rest, sectionId.parts = sectionId.basePartId :: rest := by
  rw [OutputSectionId.parts, OutputSectionId.numParts]
  split
  · exact ⟨_, rfl⟩
  · exact ⟨_, rfl⟩

theorem partAlignment_basePartId (h : numSinglePartSections ≤ sectionId)
    (outputSections : OutputSections) :
    outputSections.partAlignment sectionId.basePartId = numAlignments - 1 := by
  have hnot : ¬ sectionId < numSinglePartSections := Nat.not_lt.2 h
  have hbase : sectionId.basePartId =
      numSinglePartSections + (sectionId - numSinglePartSections) * numAlignments := if_neg hnot
  have hge : ¬ sectionId.basePartId < numSinglePartSections := by
    rw [hbase]
    exact Nat.not_lt.2 (Nat.le_add_right _ _)
  rw [OutputSections.partAlignment, if_neg hge, hbase, Nat.add_sub_cancel_left,
    Nat.mul_mod_left, Nat.sub_zero]

/-- The first part of a section may have any alignment that the section has. -/
theorem maxAlignment_le
    (hmin : (outputSections.outputInfo sectionId).minAlignment < numAlignments) :
    outputSections.maxAlignment sizes sectionId ≤
      outputSections.partAlignment sectionId.basePartId := by
  rcases Nat.lt_or_ge sectionId numSinglePartSections with hlt | hge
  · have hbase : sectionId.basePartId = sectionId := if_pos hlt
    have hpart : outputSections.partAlignment sectionId.basePartId =
        (outputSections.outputInfo sectionId).minAlignment := by
      rw [hbase, OutputSections.partAlignment, if_pos hlt, PartId.outputSectionId, if_pos hlt]
    rw [hpart]
    refine max_le ?_ le_rfl
    split
    next partId hfound =>
      have hmem := List.mem_of_find?_eq_some hfound
      rw [OutputSectionId.parts, OutputSectionId.numParts, if_pos hlt] at hmem
      obtain rfl : partId = sectionId.basePartId := by simpa using hmem
      exact hpart.le
    next => exact Nat.zero_le _
  · rw [partAlignment_basePartId hge]
    refine max_le ?_ (Nat.le_sub_one_of_lt hmin)
    split
    next partId hfound =>
      have hmem := OutputSectionId.mem_parts.1 (List.mem_of_find?_eq_some hfound)
      have hnot : ¬ partId < numSinglePartSections := by
        intro hlt
        rw [PartId.outputSectionId, if_pos hlt] at hmem
        exact absurd hlt (Nat.not_lt.2 (hmem ▸ hge))
      rw [OutputSections.partAlignment, if_neg hnot]
      exact Nat.sub_le _ _
    next => exact Nat.zero_le _

/-- The layout when the turn of a section comes. -/
def stateBefore (sizes : PartId → ℕ) (outputSections : OutputSections)
    (programSegments : List ProgramSegmentDef) (args : LayoutArgs) (order : List OrderEvent)
    (sectionId : OutputSectionId) : LayoutState :=
  (order.takeWhile fun event => event.sectionId ≠ some sectionId).foldl
    (layoutEvent sizes outputSections programSegments args
      (segmentAlignment sizes outputSections programSegments args order))
    (layoutStart outputSections)

/-- Where the parts of a section start. -/
def sectionCursor (outputSections : OutputSections) (sectionId : OutputSectionId)
    (memOffset : ℕ) : ℕ :=
  ((outputSections.outputInfo sectionId).location).getD memOffset

theorem startSection_memOffset (sectionId : OutputSectionId) (state : LayoutState) :
    (startSection outputSections sectionId state).memOffset =
      sectionCursor outputSections sectionId state.memOffset := by
  rw [startSection, sectionCursor]
  split
  next address h => rw [h]; rfl
  next h => rw [h]; rfl

theorem sectionAddress_eq {order : List OrderEvent} {sectionId : OutputSectionId}
    (hreloc : args.shouldOutputPartialObject = false)
    (halloc : IsAlloc outputSections sectionId)
    (hmin : (outputSections.outputInfo sectionId).minAlignment < numAlignments)
    (hmem : sectionId ∈ sectionIds order) (hnodup : (sectionIds order).Nodup) :
    sectionAddress (layoutSectionParts sizes outputSections programSegments args order) sectionId =
      some (Alignment.alignUp (outputSections.maxAlignment sizes sectionId)
        (sectionCursor outputSections sectionId (stateBefore sizes outputSections programSegments
          args order sectionId).memOffset)) := by
  obtain ⟨event, hevent, hid⟩ := List.mem_filterMap.1 hmem
  obtain rfl : event = .section sectionId := by
    cases event <;> cases hid
    rfl
  obtain ⟨before, after, horder⟩ := List.append_of_mem hevent
  have hids : sectionIds order = sectionIds before ++ sectionId :: sectionIds after := by
    rw [horder]
    simp [sectionIds, OrderEvent.sectionId]
  rw [hids] at hnodup
  obtain ⟨-, hnodupAfter, hapart⟩ := List.nodup_append.1 hnodup
  have hafter : sectionId ∉ sectionIds after := (List.nodup_cons.1 hnodupAfter).1
  have hbefore : order.takeWhile (fun event => event.sectionId ≠ some sectionId) = before := by
    rw [horder, List.takeWhile_append_of_pos, List.takeWhile_cons_of_neg, List.append_nil]
    · simp [OrderEvent.sectionId]
    · intro event hmem'
      refine decide_eq_true fun heq => ?_
      exact hapart sectionId (List.mem_filterMap.2 ⟨event, hmem', heq⟩) sectionId
        List.mem_cons_self rfl
  obtain ⟨state, hstate⟩ : ∃ state, state = before.foldl (layoutEvent sizes outputSections
      programSegments args (segmentAlignment sizes outputSections programSegments args order))
        (layoutStart outputSections) := ⟨_, rfl⟩
  rw [stateBefore, hbefore, ← hstate]
  have hlayout : ∀ partId ∈ sectionId.parts,
      layoutSectionParts sizes outputSections programSegments args order partId =
        (placeSection sizes outputSections args state sectionId).recordsOut partId := by
    intro partId hpart
    have hother : partId.outputSectionId ∉ sectionIds after := by
      rwa [OutputSectionId.mem_parts.1 hpart]
    have hrun : layoutEvents sizes outputSections programSegments args order order =
        after.foldl (layoutEvent sizes outputSections programSegments args
          (segmentAlignment sizes outputSections programSegments args order))
            (placeSection sizes outputSections args state sectionId) := by
      rw [layoutEvents, hstate]
      rw [horder, List.foldl_append]
      rfl
    rw [layoutSectionParts, hrun, layoutEvents_recordsOut hother]
  obtain ⟨rest, hparts⟩ := exists_parts_eq_cons sectionId
  obtain ⟨record, hplaced⟩ := @placed_placePart sizes outputSections args sectionId
    (outputSections.maxAlignment sizes sectionId)
    (startSection outputSections sectionId state) sectionId.basePartId
  obtain ⟨hmemOffset, hmemOffset', -⟩ := hplaced.alloc hreloc halloc
  have halignment : record.alignment = outputSections.maxAlignment sizes sectionId := by
    rw [hplaced.alignment, Nat.min_eq_right (maxAlignment_le hmin)]
  rw [halignment, startSection_memOffset] at hmemOffset
  have hnodupParts := sectionId.nodup_parts
  rw [hparts] at hnodupParts
  obtain ⟨hnew, hnodupRest⟩ := List.nodup_cons.1 hnodupParts
  have hbound : record.memOffset ≤ (placePart sizes outputSections args sectionId
      (outputSections.maxAlignment sizes sectionId) (startSection outputSections sectionId state)
        sectionId.basePartId).memOffset := by
    rw [hmemOffset']
    exact Nat.le_add_right _ _
  obtain ⟨habove, hsame⟩ := @placeParts_above sizes outputSections args sectionId
    (outputSections.maxAlignment sizes sectionId) hreloc halloc rest _ _ hbound hnodupRest
  have hplace : placeSection sizes outputSections args state sectionId =
      rest.foldl (placePart sizes outputSections args sectionId
        (outputSections.maxAlignment sizes sectionId))
          (placePart sizes outputSections args sectionId
            (outputSections.maxAlignment sizes sectionId)
              (startSection outputSections sectionId state) sectionId.basePartId) := by
    rw [placeSection, hparts]
    rfl
  have hbase : (layoutSectionParts sizes outputSections programSegments args order
      sectionId.basePartId).memOffset = record.memOffset := by
    rw [hlayout _ (by rw [hparts]; exact List.mem_cons_self), hplace, hsame _ hnew,
      hplaced.recordsOut, Function.update_self]
  rw [← hmemOffset]
  refine List.min?_eq_some_iff.2 ⟨?_, fun address haddr => ?_⟩
  · rw [← hbase]
    exact List.mem_map_of_mem (by rw [hparts]; exact List.mem_cons_self)
  · obtain ⟨partId, hpart, rfl⟩ := List.mem_map.1 haddr
    rw [hparts] at hpart
    rcases List.mem_cons.1 hpart with rfl | hpart
    · exact hbase.ge
    · rw [hlayout _ (by rw [hparts]; exact List.mem_cons_of_mem _ hpart), hplace]
      exact habove partId hpart

end Addresses

/-! ## Layouts of a table -/

/-- A layout of an output that is not a partial object, for a table of output
sections: attributes, sizes and the order are any. -/
structure LinkLayout (table : SectionTable) where
  outputSections : OutputSections
  infos : ∀ (sectionId : OutputSectionId) (entry : NamedInfo),
    table.sectionInfos[sectionId]? = some entry →
      (outputSections.outputInfo sectionId).minAlignment = entry.info.minAlignment ∧
        (outputSections.outputInfo sectionId).location = entry.info.location
  sizes : PartId → ℕ
  secondary : OutputSectionId → List OutputSectionId
  sections : List OutputSectionId
  nodup : (sections ++ sections.flatMap secondary).Nodup
  args : LayoutArgs
  not_partial : args.shouldOutputPartialObject = false

namespace LinkLayout

variable {table : SectionTable} (layout : LinkLayout table)

def order : List OrderEvent × List ProgramSegmentDef :=
  builtOrder layout.outputSections layout.secondary layout.sections

def address (sectionId : OutputSectionId) : Option ℕ :=
  sectionAddress (layoutSectionParts layout.sizes layout.outputSections layout.order.2 layout.args
    layout.order.1) sectionId

/-- The largest alignment of anything in a section. -/
def partsAlignment (sectionId : OutputSectionId) : Layout.Alignment :=
  match sectionId.parts.find? fun partId => layout.sizes partId != 0 with
  | some partId => layout.outputSections.partAlignment partId
  | none => 0

/-- The offset in memory when the turn of a section comes. -/
def offsetBefore (sectionId : OutputSectionId) : ℕ :=
  (stateBefore layout.sizes layout.outputSections layout.order.2 layout.args layout.order.1
    sectionId).memOffset

/-- There is a section of the name, and its address, if it is allocated, is a
multiple of the alignment and is the address that is asked for. -/
def Honours (r : Request) : Prop :=
  (table.sectionIdByName r.name).isSome ∧
    ∀ sectionId, table.sectionIdByName r.name = some sectionId → sectionId ∈ layout.sections →
      IsAlloc layout.outputSections sectionId →
        ∃ address, layout.address sectionId = some address ∧
          Alignment.value r.alignment.val ∣ address ∧
          ∀ requested, r.location = some requested → address = requested

/-- From an offset on, the first multiple of one alignment is a multiple of the
other and the address that is asked for. -/
structure Lands (largest : Layout.Alignment) (offset : ℕ) (r : Request) : Prop where
  alignment : r.alignment.val ≤ largest ∨
    ∃ m, offset ≤ m * Alignment.value r.alignment.val ∧
      m * Alignment.value r.alignment.val < offset + largest.value
  location : ∀ requested, r.location = some requested →
    largest.value ∣ requested ∧ offset ≤ requested ∧ requested < offset + largest.value

/-- What the first declaration of the name says, with what is in the section,
leads to what is asked for. -/
def Covers (input : LinkInput) (r : Request) : Prop :=
  input.HasSection r.name ∧
    ∀ sectionId, table.sectionIdByName r.name = some sectionId → sectionId ∈ layout.sections →
      IsAlloc layout.outputSections sectionId →
        Lands (max (layout.partsAlignment sectionId) (input.minAlignmentFor r.name))
          ((input.locationFor r.name).getD (layout.offsetBefore sectionId)) r

end LinkLayout

section Layouts

variable {alignment other : Layout.Alignment} {offset address : ℕ}

theorem alignUp_eq_iff : alignment.alignUp offset = address ↔
    alignment.value ∣ address ∧ offset ≤ address ∧ address < offset + alignment.value := by
  have hdvd := alignment.dvd_alignUp offset
  have hle := alignment.le_alignUp offset
  have hlt : alignment.alignUp offset < offset + alignment.value :=
    nextMultipleOf_lt _ _ alignment.value_pos
  constructor
  · rintro rfl
    exact ⟨hdvd, hle, hlt⟩
  · rintro ⟨hdvd', hle', hlt'⟩
    obtain ⟨m, hm⟩ := hdvd
    obtain ⟨m', rfl⟩ := hdvd'
    rw [hm] at hle hlt ⊢
    have hpos := alignment.value_pos
    have h : alignment.value * m < alignment.value * (m' + 1) := by rw [Nat.mul_succ]; omega
    have h' : alignment.value * m' < alignment.value * (m + 1) := by rw [Nat.mul_succ]; omega
    have hm : m < m' + 1 := Nat.lt_of_mul_lt_mul_left h
    have hm' : m' < m + 1 := Nat.lt_of_mul_lt_mul_left h'
    rw [show m = m' by omega]

theorem dvd_alignUp_iff : other.value ∣ alignment.alignUp offset ↔
    other ≤ alignment ∨
      ∃ m, offset ≤ m * other.value ∧ m * other.value < offset + alignment.value := by
  constructor
  · rintro ⟨m, hm⟩
    refine .inr ⟨m, ?_, ?_⟩
    · rw [Nat.mul_comm, ← hm]
      exact alignment.le_alignUp offset
    · rw [Nat.mul_comm, ← hm]
      exact nextMultipleOf_lt _ _ alignment.value_pos
  · rintro (hle | ⟨m, hle, hlt⟩)
    · exact (Alignment.value_dvd_value hle).trans (alignment.dvd_alignUp offset)
    · rcases Nat.le_total other alignment with hle' | hge
      · exact (Alignment.value_dvd_value hle').trans (alignment.dvd_alignUp offset)
      · have hdvd : alignment.value ∣ m * other.value :=
          (Alignment.value_dvd_value hge).mul_left m
        rw [alignUp_eq_iff.2 ⟨hdvd, hle, hlt⟩]
        exact Nat.dvd_mul_left _ _

variable {Pattern : Type} {newPattern : Text → Option Pattern} {input : LinkInput}
  {table : SectionTable} {r : Request}

theorem lands_iff : LinkLayout.Lands alignment offset r ↔
    Alignment.value r.alignment.val ∣ alignment.alignUp offset ∧
      ∀ requested, r.location = some requested → alignment.alignUp offset = requested := by
  constructor
  · intro h
    exact ⟨dvd_alignUp_iff.2 h.alignment, fun q hq => alignUp_eq_iff.2 (h.location q hq)⟩
  · rintro ⟨hdvd, hloc⟩
    exact ⟨dvd_alignUp_iff.1 hdvd, fun q hq => alignUp_eq_iff.1 (hloc q hq)⟩

theorem address_eq (h : input.declareSections newPattern = .ok table) (layout : LinkLayout table)
    {name : Bytes} {sectionId : OutputSectionId} (hid : table.sectionIdByName name = some sectionId)
    (hmem : sectionId ∈ layout.sections) (halloc : IsAlloc layout.outputSections sectionId) :
    layout.address sectionId = some (Alignment.alignUp
      (max (layout.partsAlignment sectionId) (input.minAlignmentFor name))
      ((input.locationFor name).getD (layout.offsetBefore sectionId))) := by
  obtain ⟨entry, hentry, hmin, hloc⟩ := entry_of_sectionIdByName h hid
  obtain ⟨hinfo, hinfo'⟩ := layout.infos sectionId entry hentry
  have hlt : (layout.outputSections.outputInfo sectionId).minAlignment < numAlignments := by
    rw [hinfo, hmin]
    exact minAlignmentFor_lt input name
  have hin : sectionId ∈ sectionIds layout.order.1 :=
    (perm_sectionIds_builtOrder layout.sections).mem_iff.2 (List.mem_append_left _ hmem)
  rw [LinkLayout.address, sectionAddress_eq layout.not_partial halloc hlt hin
    (nodup_sectionIds_builtOrder layout.nodup), OutputSections.maxAlignment, sectionCursor, hinfo,
    hinfo', hmin, hloc]
  rfl

theorem honours_iff_covers (h : input.declareSections newPattern = .ok table)
    (layout : LinkLayout table) : layout.Honours r ↔ layout.Covers input r := by
  have hsome : (table.sectionIdByName r.name).isSome ↔ input.HasSection r.name := by
    rw [← not_iff_not, Option.not_isSome_iff_eq_none, sectionIdByName_eq_none_iff h]
  refine and_congr hsome (forall_congr' fun sectionId => forall_congr' fun hid =>
    forall_congr' fun hmem => forall_congr' fun halloc => ?_)
  rw [address_eq h layout hid hmem halloc, lands_iff]
  constructor
  · rintro ⟨address, haddr, hdvd, hloc⟩
    cases haddr
    exact ⟨hdvd, hloc⟩
  · exact fun ⟨hdvd, hloc⟩ => ⟨_, rfl, hdvd, hloc⟩

end Layouts

/-! ## Declarations that come too late -/

/-- The sections of the counterexample; those that have no argument of their
own are not looked for. -/
def plainBuiltIns : BuiltInSections where
  sectionInfos := (List.range 67).map fun id =>
    ⟨if id = text then some dotText else if id = data then some dotData
      else if id = bss then some dotBss else none,
      ⟨.primary, SectionTable.defaultAttributes, 0, none, none⟩⟩
  idOf_text := by decide +kernel
  idOf_data := by decide +kernel
  idOf_bss := by decide +kernel
  no_location := by decide +kernel
  alignment_lt := by decide +kernel

def dotFoo : Bytes := [0x2E, 0x66, 0x6F, 0x6F]

/-- A declaration of `.foo` without contents. -/
def fooSection (alignment : Option ScriptAlignment) (start : Option UInt64) : SectionCommand :=
  .section ⟨dotFoo, [], alignment, start.map .number⟩

/-- `ALIGN(16)` -/
def align16 : ScriptAlignment := ⟨4, by decide⟩

/-- `.foo` is declared once. -/
def declaredOnce : LinkInput where
  builtIn := plainBuiltIns
  scripts := [[fooSection (some align16) (some 0x1000)]]
  objects := []
  args := ⟨[], none, none, none⟩

/-- `.foo` is declared twice, the second time with an alignment and an
address. -/
def declaredTwice : LinkInput where
  builtIn := plainBuiltIns
  scripts := [[fooSection none none, fooSection (some align16) (some 0x1000)]]
  objects := []
  args := ⟨[], none, none, none⟩

/-- The built-in sections and `.foo`. -/
def tableWithFoo (alignment : ScriptAlignment) (location : Option ℕ) : SectionTable where
  sectionInfos := plainBuiltIns.sectionInfos ++ [⟨some dotFoo,
    ⟨.primary, SectionTable.defaultAttributes, alignment.val, location, none⟩⟩]
  customByName := [(dotFoo, 67)]
  initFiniByPriority := []

/-- All sections of a table, allocated and read-only, from the base address on. -/
def allocatedSections (table : SectionTable) : OutputSections where
  baseAddress := 0x400000
  outputInfo sectionId :=
    let info := (table.sectionInfos[sectionId]?).elim
      ⟨.primary, SectionTable.defaultAttributes, 0, none, none⟩ NamedInfo.info
    { info with sectionAttributes := ⟨⟨true, false, false, false⟩, .other⟩ }
  optBuiltInDetails _ := none

/-- One byte in `.rodata`, and nothing in `.foo`. -/
def layoutOfFoo (table : SectionTable) : LinkLayout table where
  outputSections := allocatedSections table
  infos sectionId entry h := by
    simp only [allocatedSections, h]
    exact ⟨rfl, rfl⟩
  sizes partId := if partId = Rules.rodata.basePartId + 16 then 1 else 0
  secondary _ := []
  sections := [Rules.rodata, 67]
  nodup := by decide
  args := ⟨12, false⟩
  not_partial := @rfl _ false

end Sld.Sections
