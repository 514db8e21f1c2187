/-
# `Layout.StackedSections` — sections one behind the other, without gaps

A section and its secondaries are placed in one go.  If nothing in them is
more aligned than a unit, and every size is a multiple of it, then their parts
follow each other without gaps.

    contiguous_placeSection     the parts of one section
    builtOrder_window           a section and its secondaries in the order
-/
import Sld.Layout.RequestedAddresses
import Sld.Order.Bump

namespace Sld.Layout

open Bump (Slot Contiguous)
open Sections (sectionAddress exists_parts_eq_cons partAlignment_basePartId)
open List (foldl_append forall_mem_cons map_congr_left mem_cons mem_map nodup_cons)
open OutputRecordLayout (memOffset memSize)
open OutputSectionId (mem_parts)

variable {sizes : PartId → ℕ} {secs : OutputSections}
  {segs : List ProgramSegmentDef} {args : LayoutArgs} {unit : Alignment}

/-- The place of a part in memory. -/
def partSlot (records : PartId → OutputRecordLayout) (partId : PartId) : Slot PartId :=
  ⟨partId, (records partId).memOffset, (records partId).memSize⟩

theorem map_partSlot_congr {records records' : PartId → OutputRecordLayout} {parts : List PartId}
    (h : ∀ partId ∈ parts, records partId = records' partId) :
    parts.map (partSlot records) = parts.map (partSlot records') :=
  map_congr_left fun partId hmem => by rw [partSlot, h partId hmem, partSlot]

variable {sectionId : OutputSectionId}

theorem placePart_stacked {maxAlignment : Alignment}
    (hwhole : args.shouldOutputPartialObject = false) (halloc : IsAlloc secs sectionId)
    (hrelro : sectionId ≠ relroPadding) (state : LayoutState) (partId : PartId)
    (hcursor : (min (secs.partAlignment partId) maxAlignment).alignUp state.memOffset
      = unit.alignUp state.memOffset)
    (hsize : unit.value ∣ sizes partId) :
    let state' := placePart sizes secs args sectionId maxAlignment state partId
    (state'.recordsOut partId).memOffset = unit.alignUp state.memOffset
      ∧ (state'.recordsOut partId).memSize = sizes partId
      ∧ state'.memOffset = unit.alignUp state.memOffset + sizes partId
      ∧ unit.value ∣ state'.memOffset
      ∧ ∀ other, other ≠ partId → state'.recordsOut other = state.recordsOut other := by
  obtain ⟨record, hplaced⟩ := @placed_placePart sizes secs args sectionId maxAlignment state partId
  obtain ⟨hoff, hstop, -, -⟩ := hplaced.alloc hwhole halloc
  rw [hplaced.alignment] at hoff
  replace hoff := hoff.trans hcursor
  have hstop' := hplaced.memSize hrelro ▸ hoff ▸ hstop
  refine ⟨?_, ?_, hstop', ?_, fun other hne => ?_⟩
  · rw [hplaced.recordsOut, Function.update_self]
    exact hoff
  · rw [hplaced.recordsOut, Function.update_self]
    exact hplaced.memSize hrelro
  · rw [hstop']
    exact Nat.dvd_add (unit.dvd_alignUp _) hsize
  · rw [hplaced.recordsOut, Function.update_of_ne hne]

theorem contiguous_placeParts {maxAlignment : Alignment}
    (hwhole : args.shouldOutputPartialObject = false) (halloc : IsAlloc secs sectionId)
    (hrelro : sectionId ≠ relroPadding) (hmax : maxAlignment ≤ unit) {parts : List PartId}
    (hnodup : parts.Nodup) (hsizes : ∀ partId ∈ parts, unit.value ∣ sizes partId)
    {state : LayoutState} (hcursor : unit.value ∣ state.memOffset) :
    let state' := parts.foldl (placePart sizes secs args sectionId maxAlignment) state
    Contiguous state.memOffset (parts.map (partSlot state'.recordsOut)) state'.memOffset
      ∧ unit.value ∣ state'.memOffset
      ∧ (∀ partId ∈ parts, (state'.recordsOut partId).memSize = sizes partId)
      ∧ ∀ other ∉ parts, state'.recordsOut other = state.recordsOut other := by
  induction parts generalizing state with
  | nil => exact ⟨rfl, hcursor, fun partId hmem => absurd hmem List.not_mem_nil, fun _ _ => rfl⟩
  | cons partId parts ih =>
    obtain ⟨hnew, hnodup⟩ := nodup_cons.mp hnodup
    rw [forall_mem_cons] at hsizes
    have hunit : unit.alignUp state.memOffset = state.memOffset :=
      (Alignment.alignUp_eq_self_iff _).mpr hcursor
    have hplace : (min (secs.partAlignment partId) maxAlignment).alignUp state.memOffset
        = unit.alignUp state.memOffset := by
      rw [hunit]
      refine (Alignment.alignUp_eq_self_iff _).mpr (dvd_trans ?_ hcursor)
      exact Alignment.value_dvd_value (Nat.le_trans (Nat.min_le_right _ _) hmax)
    obtain ⟨hstart, hsize, hstop, hdvd, hother⟩ := placePart_stacked hwhole halloc hrelro
      state partId hplace hsizes.1
    obtain ⟨hrest, hdvd', hmemSizes, hsame⟩ := ih hnodup hsizes.2 hdvd
    rw [hunit] at hstart hstop
    have hrecord := hsame partId hnew
    refine ⟨⟨?_, ?_⟩, hdvd', forall_mem_cons.mpr ⟨?_, hmemSizes⟩, fun other hmem => ?_⟩
    · exact (congrArg memOffset hrecord).trans hstart
    · have hself : (partSlot (((partId :: parts).foldl (placePart sizes secs args
          sectionId maxAlignment) state).recordsOut) partId).stop
            = (placePart sizes secs args sectionId maxAlignment state partId).memOffset := by
        rw [hstop, ← hstart, ← hsize]
        exact congrArg₂ (· + ·) (congrArg memOffset hrecord)
          (congrArg memSize hrecord)
      rw [hself]
      exact hrest
    · exact (congrArg memSize hrecord).trans hsize
    · rw [mem_cons, not_or] at hmem
      exact (hsame other hmem.2).trans (hother other hmem.1)

/-- A section that is placed at the cursor, or that moves it up to the unit. -/
structure Stackable (sizes : PartId → ℕ) (secs : OutputSections) (unit : Alignment)
    (sectionId : OutputSectionId) : Prop where
  alloc : IsAlloc secs sectionId
  regular : numSinglePartSections ≤ sectionId
  location : (secs.outputInfo sectionId).location = none
  maxAlignment_le : secs.maxAlignment sizes sectionId ≤ unit
  sizes : ∀ partId ∈ sectionId.parts, unit.value ∣ sizes partId

theorem Stackable.ne_relroPadding (h : Stackable sizes secs unit sectionId) :
    sectionId ≠ relroPadding := by
  rintro rfl
  exact absurd h.regular (by decide)

theorem startSection_eq (h : (secs.outputInfo sectionId).location = none) (state : LayoutState) :
    startSection secs sectionId state = state := by
  rw [startSection, h]

theorem contiguous_placeSection (hwhole : args.shouldOutputPartialObject = false)
    (h : Stackable sizes secs unit sectionId) {state : LayoutState}
    (hunit : unit ≤ numAlignments - 1)
    (hcursor : unit.value ∣ state.memOffset ∨ secs.maxAlignment sizes sectionId = unit) :
    let state' := placeSection sizes secs args state sectionId
    Contiguous (unit.alignUp state.memOffset)
        (sectionId.parts.map (partSlot state'.recordsOut)) state'.memOffset
      ∧ unit.value ∣ state'.memOffset
      ∧ (∀ partId ∈ sectionId.parts, (state'.recordsOut partId).memSize = sizes partId)
      ∧ ∀ other ∉ sectionId.parts, state'.recordsOut other = state.recordsOut other := by
  obtain ⟨rest, hparts⟩ := exists_parts_eq_cons sectionId
  have hfirst := partAlignment_basePartId h.regular
  have hnodup := sectionId.nodup_parts
  have hsizes := h.sizes
  rw [hparts] at hnodup hsizes
  obtain ⟨hnew, hnodup⟩ := nodup_cons.mp hnodup
  rw [forall_mem_cons] at hsizes
  have hplace : (min (secs.partAlignment sectionId.basePartId)
      (secs.maxAlignment sizes sectionId)).alignUp state.memOffset
        = unit.alignUp state.memOffset := by
    rw [hfirst, Nat.min_eq_right (Nat.le_trans h.maxAlignment_le hunit)]
    rcases hcursor with hdvd | heq
    · rw [(Alignment.alignUp_eq_self_iff unit).mpr hdvd]
      exact (Alignment.alignUp_eq_self_iff _).mpr
        (dvd_trans (Alignment.value_dvd_value h.maxAlignment_le) hdvd)
    · rw [heq]
  obtain ⟨hstart, hsize, hstop, hdvd, hother⟩ := placePart_stacked hwhole h.alloc
    h.ne_relroPadding state sectionId.basePartId hplace hsizes.1
  obtain ⟨hrest, hdvd', hmemSizes, hsame⟩ := contiguous_placeParts hwhole h.alloc h.ne_relroPadding
    h.maxAlignment_le hnodup hsizes.2 hdvd
  have hsec : placeSection sizes secs args state sectionId
      = rest.foldl (placePart sizes secs args sectionId (secs.maxAlignment sizes sectionId))
        (placePart sizes secs args sectionId
          (secs.maxAlignment sizes sectionId) state sectionId.basePartId) := by
    rw [placeSection, hparts, startSection_eq h.location, List.foldl_cons]
  have hbase := hsame sectionId.basePartId hnew
  intro state'
  have hstate' : state' = rest.foldl (placePart sizes secs args sectionId
          (secs.maxAlignment sizes sectionId))
        (placePart sizes secs args sectionId
          (secs.maxAlignment sizes sectionId) state sectionId.basePartId) := hsec
  rw [hstate', hparts]
  refine ⟨⟨(congrArg memOffset hbase).trans hstart, ?_⟩, hdvd',
    forall_mem_cons.mpr ⟨(congrArg memSize hbase).trans hsize, hmemSizes⟩,
    fun other hmem => ?_⟩
  · rw [Slot.stop, partSlot, hbase, hstart, hsize, ← hstop]
    exact hrest
  · rw [mem_cons, not_or] at hmem
    exact (hsame other hmem.2).trans (hother other hmem.1)

/-! ## Several sections -/

/-- `mem_size` of `layout_sections`: from the least start to the largest end. -/
def sectionMemSize (records : PartId → OutputRecordLayout) (sectionId : OutputSectionId) : ℕ :=
  (sectionId.parts.map fun partId => (records partId).memOffset + (records partId).memSize).max?.getD 0
    - (sectionAddress records sectionId).getD 0

/-- The place of a section in memory. -/
def sectionSlot (records : PartId → OutputRecordLayout) (sectionId : OutputSectionId) :
    Slot OutputSectionId :=
  ⟨sectionId, (sectionAddress records sectionId).getD 0, sectionMemSize records sectionId⟩

theorem sectionSlot_congr {records records' : PartId → OutputRecordLayout}
    (h : ∀ partId ∈ sectionId.parts, records partId = records' partId) :
    sectionSlot records sectionId = sectionSlot records' sectionId := by
  have hstarts : sectionAddress records sectionId = sectionAddress records' sectionId := by
    exact congrArg List.min? (map_congr_left fun partId hmem => by rw [h partId hmem])
  have hstops : (sectionId.parts.map fun partId =>
      (records partId).memOffset + (records partId).memSize) = sectionId.parts.map fun partId =>
          (records' partId).memOffset + (records' partId).memSize :=
    map_congr_left fun partId hmem => by rw [h partId hmem]
  rw [sectionSlot, sectionMemSize, hstarts, hstops, sectionSlot, sectionMemSize]

theorem sectionSlot_eq {records : PartId → OutputRecordLayout} {start stop : ℕ}
    (h : Contiguous start (sectionId.parts.map (partSlot records)) stop) :
    sectionSlot records sectionId = ⟨sectionId, start, stop - start⟩ := by
  obtain ⟨-, hwithin⟩ := h.within
  rw [List.forall_mem_map] at hwithin
  obtain ⟨⟨first, hfirst, hstart⟩, last, hlast, hstop⟩ := h.ends (by
    rw [Ne, List.map_eq_nil_iff]
    exact OutputSectionId.parts_ne_nil sectionId)
  have haddr : sectionAddress records sectionId = some start := by
    refine List.min?_eq_some_iff.mpr ⟨?_, ?_⟩
    · obtain ⟨partId, hmem, rfl⟩ := mem_map.mp hfirst
      exact mem_map.mpr ⟨partId, hmem, hstart⟩
    · rw [List.forall_mem_map]
      exact fun partId hmem => (hwithin partId hmem).1
  have hend : (sectionId.parts.map fun partId =>
      (records partId).memOffset + (records partId).memSize).max? = some stop := by
    refine List.max?_eq_some_iff.mpr ⟨?_, ?_⟩
    · obtain ⟨partId, hmem, rfl⟩ := mem_map.mp hlast
      exact mem_map.mpr ⟨partId, hmem, hstop⟩
    · rw [List.forall_mem_map]
      exact fun partId hmem => (hwithin partId hmem).2
  rw [sectionSlot, sectionMemSize, haddr, hend]
  rfl

/-- What sections without gaps look like. -/
structure StackedFrom (sizes : PartId → ℕ) (records : PartId → OutputRecordLayout) (start : ℕ)
    (sectionIds : List OutputSectionId) (stop : ℕ) : Prop where
  parts : Contiguous start ((sectionIds.flatMap OutputSectionId.parts).map (partSlot records)) stop
  sections : Contiguous start (sectionIds.map (sectionSlot records)) stop
  memSize : ∀ sectionId ∈ sectionIds, ∀ partId ∈ sectionId.parts,
    (records partId).memSize = sizes partId

theorem StackedFrom.congr {records records' : PartId → OutputRecordLayout} {start stop : ℕ}
    {sectionIds : List OutputSectionId} (h : StackedFrom sizes records start sectionIds stop)
    (hsame : ∀ partId : PartId, partId.outputSectionId ∈ sectionIds →
      records' partId = records partId) : StackedFrom sizes records' start sectionIds stop := by
  have hparts : ∀ sectionId ∈ sectionIds, ∀ partId ∈ sectionId.parts,
      records' partId = records partId := by
    intro sectionId hid partId hmem
    refine hsame partId ?_
    rw [mem_parts.mp hmem]
    exact hid
  refine ⟨?_, ?_, fun sectionId hid partId hmem => ?_⟩
  · rw [map_partSlot_congr fun partId hmem => ?_]
    · exact h.parts
    · obtain ⟨sectionId, hid, hpart⟩ := List.mem_flatMap.mp hmem
      exact hparts sectionId hid partId hpart
  · have hslots : sectionIds.map (sectionSlot records') = sectionIds.map (sectionSlot records) :=
      map_congr_left fun sectionId hid => sectionSlot_congr (hparts sectionId hid)
    rw [hslots]
    exact h.sections
  · rw [hparts sectionId hid partId hmem]
    exact h.memSize sectionId hid partId hmem

theorem StackedFrom.cons {records records' : PartId → OutputRecordLayout} {start middle stop : ℕ}
    {sectionIds : List OutputSectionId}
    (hfirst : Contiguous start (sectionId.parts.map (partSlot records)) middle)
    (hsize : ∀ partId ∈ sectionId.parts, (records partId).memSize = sizes partId)
    (hkept : ∀ partId ∈ sectionId.parts, records' partId = records partId)
    (h : StackedFrom sizes records' middle sectionIds stop) :
    StackedFrom sizes records' start (sectionId :: sectionIds) stop := by
  rw [← map_partSlot_congr hkept] at hfirst
  refine ⟨?_, ?_, forall_mem_cons.mpr ⟨fun partId hmem => ?_, h.memSize⟩⟩
  · rw [List.flatMap_cons, List.map_append]
    exact hfirst.append h.parts
  · rw [List.map_cons, sectionSlot_eq hfirst]
    refine ⟨rfl, ?_⟩
    rw [Slot.stop, Nat.add_sub_cancel' hfirst.within.1]
    exact h.sections
  · rw [hkept partId hmem]
    exact hsize partId hmem

theorem stackedFrom_placeSections (hwhole : args.shouldOutputPartialObject = false)
    (hunit : unit ≤ numAlignments - 1) {sectionIds : List OutputSectionId}
    (hnodup : sectionIds.Nodup)
    (h : ∀ sectionId ∈ sectionIds, Stackable sizes secs unit sectionId)
    {state : LayoutState} (hcursor : unit.value ∣ state.memOffset) :
    let state' := sectionIds.foldl (placeSection sizes secs args) state
    StackedFrom sizes state'.recordsOut state.memOffset sectionIds state'.memOffset
      ∧ ∀ partId : PartId, partId.outputSectionId ∉ sectionIds →
        state'.recordsOut partId = state.recordsOut partId := by
  induction sectionIds generalizing state with
  | nil =>
    exact ⟨⟨rfl, rfl, nofun⟩, fun _ _ => rfl⟩
  | cons sectionId sectionIds ih =>
    obtain ⟨hnew, hnodup⟩ := nodup_cons.mp hnodup
    rw [forall_mem_cons] at h
    obtain ⟨hparts, hdvd, hsizes, hsame⟩ :=
      contiguous_placeSection hwhole h.1 hunit (.inl hcursor)
    rw [(Alignment.alignUp_eq_self_iff unit).mpr hcursor] at hparts
    obtain ⟨hrest, hsame'⟩ := ih hnodup h.2 hdvd
    refine ⟨StackedFrom.cons hparts hsizes (fun partId hmem => hsame' partId ?_) hrest,
      fun partId hmem => ?_⟩
    · rw [mem_parts.mp hmem]
      exact hnew
    · rw [mem_cons, not_or] at hmem
      refine (hsame' partId hmem.2).trans (hsame partId fun hpart => ?_)
      exact hmem.1 (mem_parts.mp hpart)

theorem stackedFrom_placeSection_cons (hwhole : args.shouldOutputPartialObject = false)
    (hunit : unit ≤ numAlignments - 1) {sectionIds : List OutputSectionId}
    (hnodup : (sectionId :: sectionIds).Nodup)
    (h : ∀ id ∈ sectionId :: sectionIds, Stackable sizes secs unit id)
    (hmax : secs.maxAlignment sizes sectionId = unit) (state : LayoutState) :
    let state' := (sectionId :: sectionIds).foldl (placeSection sizes secs args) state
    StackedFrom sizes state'.recordsOut (unit.alignUp state.memOffset) (sectionId :: sectionIds)
      state'.memOffset := by
  obtain ⟨hnew, hnodup⟩ := nodup_cons.mp hnodup
  rw [forall_mem_cons] at h
  obtain ⟨hparts, hdvd, hsizes, -⟩ :=
    @contiguous_placeSection sizes secs args unit sectionId hwhole h.1 state hunit (.inr hmax)
  obtain ⟨hrest, hsame'⟩ := stackedFrom_placeSections hwhole hunit hnodup h.2 hdvd
  refine StackedFrom.cons hparts hsizes (fun partId hmem => hsame' partId ?_) hrest
  rw [mem_parts.mp hmem]
  exact hnew

/-! ## In the order of the output -/

section Order

variable {secondary : OutputSectionId → List OutputSectionId}

open OutputOrderBuilder

theorem builtOrder_window {sections : List OutputSectionId} (h : sectionId ∈ sections) :
    ∃ before after, (builtOrder secs secondary sections).1 = before
      ++ (sectionId :: orderedSecondaries secs secondary sectionId).map .section
      ++ after := by
  obtain ⟨earlier, later, rfl⟩ := List.append_of_mem h
  obtain ⟨closing, segmentId, heq, -⟩ := @builtOrder_eq secs secondary
    (earlier ++ sectionId :: later)
  obtain ⟨⟨opening, hevents, -⟩, -⟩ := @addSection_events secs secondary
    (new.addSections secs secondary false earlier) sectionId
  have hsplit : (new.addSections secs secondary false (earlier ++ sectionId :: later))
      = ((new.addSections secs secondary false earlier).addSection secs
        secondary false sectionId).addSections secs secondary false later := by
    rw [addSections, List.foldl_append]
    rfl
  obtain ⟨rest, hrest⟩ := (@prefix_addSections secs secondary
    ((new.addSections secs secondary false earlier).addSection secs
      secondary false sectionId) later).1
  refine ⟨(new.addSections secs secondary false earlier).events ++ opening,
    rest ++ closing.map .segmentEnd ++ [.segmentStart segmentId] ++ [.segmentEnd segmentId], ?_⟩
  rw [heq, hsplit, ← hrest, hevents]
  simp only [List.append_assoc]

end Order

theorem stackedFrom_layoutSectionParts {order before after : List OrderEvent}
    {sectionIds' : List OutputSectionId}
    (horder : order = before ++ (sectionId :: sectionIds').map .section ++ after)
    (hnodup : (sectionIds order).Nodup) (hwhole : args.shouldOutputPartialObject = false)
    (hunit : unit ≤ numAlignments - 1)
    (h : ∀ id ∈ sectionId :: sectionIds', Stackable sizes secs unit id)
    (hmax : secs.maxAlignment sizes sectionId = unit) :
    ∃ start stop, unit.value ∣ start ∧ StackedFrom sizes
      (layoutSectionParts sizes secs segs args order) start (sectionId :: sectionIds') stop := by
  have hids : sectionIds order
      = sectionIds before ++ (sectionId :: sectionIds') ++ sectionIds after := by
    rw [horder, sectionIds_append, sectionIds_append, sectionIds_section]
  rw [hids] at hnodup
  obtain ⟨hwindow, -, hafter⟩ := List.nodup_append.mp hnodup
  generalize hstate : before.foldl (layoutEvent sizes secs segs args
      (segmentAlignment sizes secs segs args order)) (layoutStart secs) = state
  have hstacked := stackedFrom_placeSection_cons hwhole hunit
    (List.nodup_append.mp hwindow).2.1 h hmax state
  refine ⟨_, _, unit.dvd_alignUp _, hstacked.congr fun partId hmem => ?_⟩
  have hnotAfter : partId.outputSectionId ∉ sectionIds after := fun hlater =>
    hafter _ (List.mem_append_right _ hmem) _ hlater rfl
  have hplaced : ∀ (ids : List OutputSectionId) (state : LayoutState),
      (ids.map OrderEvent.section).foldl (layoutEvent sizes secs segs args
        (segmentAlignment sizes secs segs args order)) state
        = ids.foldl (placeSection sizes secs args) state := by
    intro ids state
    rw [List.foldl_map]
    rfl
  have hrun : layoutEvents sizes secs segs args order order
      = after.foldl (layoutEvent sizes secs segs args (segmentAlignment sizes secs segs args order))
        ((sectionId :: sectionIds').foldl (placeSection sizes secs args) state) := by
    have hevents : layoutEvents sizes secs segs args order order
        = (before ++ (sectionId :: sectionIds').map OrderEvent.section ++ after).foldl
          (layoutEvent sizes secs segs args
          (segmentAlignment sizes secs segs args order))
          (layoutStart secs) := by
      rw [← horder]
      rfl
    rw [hevents, List.foldl_append, List.foldl_append, hstate, hplaced]
  rw [layoutSectionParts, hrun]
  exact layoutEvents_recordsOut hnotAfter _

end Sld.Layout
