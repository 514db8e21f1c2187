/-
# `Layout.PartPlacement` — parts one after the other

Whatever the order of the events is, the file cursor never goes back, so that
parts take disjoint pieces of the file.  The memory cursor goes back only
where a script location is below it (`LocationsAbove`).
-/
import Sld.Layout.SectionParts

namespace Sld.Layout

open Function (update_of_ne update_self)
open List (append_assoc append_nil mem_append mem_singleton nodup_append)
open OutputSectionId (basePartId numParts parts)
open Sld.Layout.Alignment (dvd_alignUp le_alignUp)

/-! ## Parts and sections -/

theorem OutputSectionId.parts_ne_nil (sectionId : OutputSectionId) : sectionId.parts ≠ [] := by
  intro h
  have hlen := congrArg List.length h
  rw [parts, numParts] at hlen
  split at hlen <;> cases hlen

theorem OutputSectionId.mem_parts {sectionId : OutputSectionId} {partId : PartId} :
    partId ∈ sectionId.parts ↔ partId.outputSectionId = sectionId := by
  unfold parts basePartId numParts
    PartId.outputSectionId numSinglePartSections numAlignments
  rw [List.mem_range'_1]
  have hreg : ∀ part section' : ℕ, ¬ part < 47 → ¬ section' < 47 →
      (47 + (section' - 47) * 17 ≤ part ∧ part < 47 + (section' - 47) * 17 + 17 ↔
        (part - 47) / 17 + 47 = section') := by
    omega
  have hsingle : ∀ part section' : ℕ,
      (section' ≤ part ∧ part < section' + 1 ↔ part = section') := by
    omega
  have hmixed : ∀ part section' : ℕ, part < 47 → ¬ section' < 47 →
      (47 + (section' - 47) * 17 ≤ part ∧ part < 47 + (section' - 47) * 17 + 17 ↔
        part = section') := by
    omega
  have hmixed' : ∀ part section' : ℕ, ¬ part < 47 → section' < 47 →
      (section' ≤ part ∧ part < section' + 1 ↔ (part - 47) / 17 + 47 = section') := by
    omega
  by_cases hpart : partId < 47 <;> by_cases hsec : sectionId < 47
  · simp only [hpart, hsec]
    exact hsingle partId sectionId
  · simp only [hpart, hsec]
    exact hmixed partId sectionId hpart hsec
  · simp only [hpart, hsec]
    exact hmixed' partId sectionId hpart hsec
  · simp only [hpart, hsec]
    exact hreg partId sectionId hpart hsec

theorem OutputSectionId.nodup_parts (sectionId : OutputSectionId) : sectionId.parts.Nodup :=
  List.nodup_range'

def OrderEvent.sectionId : OrderEvent → Option OutputSectionId
  | .section sectionId => some sectionId
  | _ => none

/-- The sections of an order. -/
def sectionIds (events : List OrderEvent) : List OutputSectionId :=
  events.filterMap OrderEvent.sectionId

/-- The parts that an order places, in the order it places them. -/
def placedParts (events : List OrderEvent) : List PartId :=
  (sectionIds events).flatMap OutputSectionId.parts

@[simp] theorem placedParts_append (events events' : List OrderEvent) :
    placedParts (events ++ events') = placedParts events ++ placedParts events' := by
  simp [placedParts, sectionIds]

@[simp] theorem placedParts_section (sectionId : OutputSectionId) :
    placedParts [.section sectionId] = sectionId.parts := by
  simp [placedParts, sectionIds, OrderEvent.sectionId]

@[simp] theorem placedParts_setLocation (address : ℕ) :
    placedParts [.setLocation address] = [] := rfl

@[simp] theorem placedParts_segmentStart (segmentId : ProgramSegmentId) :
    placedParts [.segmentStart segmentId] = [] := rfl

@[simp] theorem placedParts_segmentEnd (segmentId : ProgramSegmentId) :
    placedParts [.segmentEnd segmentId] = [] := rfl

theorem mem_placedParts {events : List OrderEvent} {partId : PartId} :
    partId ∈ placedParts events ↔ OrderEvent.section partId.outputSectionId ∈ events := by
  unfold placedParts sectionIds
  rw [List.mem_flatMap]
  constructor
  · rintro ⟨sectionId, hsec, hpart⟩
    obtain ⟨event, hevent, heq⟩ := List.mem_filterMap.1 hsec
    rw [OutputSectionId.mem_parts.1 hpart]
    cases event <;> cases heq
    exact hevent
  · intro hevent
    exact ⟨_, List.mem_filterMap.2 ⟨_, hevent, rfl⟩, OutputSectionId.mem_parts.2 rfl⟩

theorem nodup_placedParts {events : List OrderEvent} (h : (sectionIds events).Nodup) :
    (placedParts events).Nodup := by
  unfold placedParts
  rw [List.nodup_flatMap]
  refine ⟨fun sectionId _ => sectionId.nodup_parts, h.imp ?_⟩
  intro a b hne partId ha hb
  exact hne ((OutputSectionId.mem_parts.1 ha).symm.trans (OutputSectionId.mem_parts.1 hb))

/-! ## One part -/

section

variable (sizes : PartId → ℕ) (secs : OutputSections)
  (segs : List ProgramSegmentDef) (args : LayoutArgs)

/-- Whether a section's parts are allocated. -/
def IsAlloc (sectionId : OutputSectionId) : Prop :=
  (secs.sectionFlags (secs.primaryOutputSection sectionId)).alloc = true

instance (sectionId : OutputSectionId) : Decidable (IsAlloc secs sectionId) :=
  inferInstanceAs (Decidable (_ = true))

/-- What placing a part does. -/
structure Placed (sectionId : OutputSectionId) (maxAlignment : Alignment) (partId : PartId)
    (state state' : LayoutState) (record : OutputRecordLayout) : Prop where
  recordsOut : state'.recordsOut = Function.update state.recordsOut partId record
  pendingLocation : state'.pendingLocation = state.pendingLocation
  alignment : record.alignment = min (secs.partAlignment partId) maxAlignment
  dvd_fileOffset : record.alignment.value ∣ record.fileOffset
  dvd_memOffset : record.alignment.value ∣ record.memOffset
  fileOffset : record.fileOffset = record.alignment.alignUp state.fileOffset
  fileOffset' : state'.fileOffset = record.fileOffset + record.fileSize
  alloc : args.shouldOutputPartialObject = false → IsAlloc secs sectionId →
    record.memOffset = record.alignment.alignUp state.memOffset ∧
      state'.memOffset = record.memOffset + record.memSize ∧
      record.memSize = partMemSize sizes args sectionId partId state.memOffset ∧
      record.fileSize =
        if secs.hasDataInFile (secs.primaryOutputSection sectionId) then
          record.memSize else 0
  nonalloc : ¬ IsAlloc secs sectionId → state'.memOffset = state.memOffset
  memSize : sectionId ≠ relroPadding → record.memSize = sizes partId
  fileSize : record.fileSize =
    if IsAlloc secs sectionId ∧
        secs.hasDataInFile (secs.primaryOutputSection sectionId) = false then 0
    else record.memSize

variable {sizes secs segs args}

theorem placed_placePart (sectionId : OutputSectionId) (maxAlignment : Alignment)
    (state : LayoutState) (partId : PartId) :
    ∃ record, Placed sizes secs args sectionId maxAlignment partId state
      (placePart sizes secs args sectionId maxAlignment state partId) record := by
  have hsize : sectionId ≠ relroPadding →
      partMemSize sizes args sectionId partId state.memOffset = sizes partId := fun hne => if_neg hne
  simp only [placePart]
  by_cases halloc : (secs.sectionFlags (secs.primaryOutputSection sectionId)).alloc = true
  · rw [if_pos halloc]
    have hfileSize : ∀ memSize : ℕ,
        (if secs.hasDataInFile (secs.primaryOutputSection sectionId) then
          memSize else 0) =
        if IsAlloc secs sectionId ∧ secs.hasDataInFile
            (secs.primaryOutputSection sectionId) = false then 0 else memSize := by
      intro memSize
      have hall : IsAlloc secs sectionId := halloc
      cases secs.hasDataInFile (secs.primaryOutputSection sectionId) <;> simp [hall]
    cases hreloc : args.shouldOutputPartialObject with
    | true =>
      refine ⟨_, ⟨rfl, rfl, rfl, dvd_alignUp _ _, dvd_alignUp _ _, rfl,
        rfl, ?_, fun hnot => absurd halloc hnot, hsize, hfileSize _⟩⟩
      intro hcontra
      rw [hreloc] at hcontra
      cases hcontra
    | false =>
      exact ⟨_, ⟨rfl, rfl, rfl, dvd_alignUp _ _, dvd_alignUp _ _, rfl,
        rfl, fun _ _ => ⟨rfl, rfl, rfl, rfl⟩, fun hnot => absurd halloc hnot, hsize,
        hfileSize _⟩⟩
  · rw [if_neg halloc]
    exact ⟨_, ⟨rfl, rfl, rfl, dvd_alignUp _ _, dvd_alignUp _ _, rfl,
      rfl, fun _ hcontra => absurd hcontra halloc, fun _ => rfl, hsize,
      (if_neg fun hcontra => halloc hcontra.1).symm⟩⟩

theorem forall_placeSection {P : List PartId → LayoutState → Prop} {done : List PartId}
    {state : LayoutState} {sectionId : OutputSectionId}
    (h : P done (startSection secs sectionId state))
    (hstep : ∀ done state partId state' record, P done state → partId.outputSectionId = sectionId →
      partId ∉ done → Placed sizes secs args sectionId
        (secs.maxAlignment sizes sectionId) partId state state' record →
      P (done ++ [partId]) state')
    (hnodup : (done ++ sectionId.parts).Nodup) :
    P (done ++ sectionId.parts) (placeSection sizes secs args state sectionId) := by
  have hparts : ∀ parts : List PartId, (∀ partId ∈ parts, partId.outputSectionId = sectionId) →
      ∀ done state, P done state → (done ++ parts).Nodup →
        P (done ++ parts) (parts.foldl (placePart sizes secs args sectionId
          (secs.maxAlignment sizes sectionId)) state) := by
    intro parts
    induction parts with
    | nil => intro _ done state hstate _; simpa using hstate
    | cons partId parts ih =>
      intro hall done state hstate hnodup
      obtain ⟨record, hplaced⟩ := placed_placePart sectionId
        (secs.maxAlignment sizes sectionId) state partId
      have hnew : partId ∉ done := fun hmem =>
        (List.nodup_append.1 hnodup).2.2 partId hmem partId List.mem_cons_self rfl
      have hnext := hstep done state partId _ record hstate
        (hall partId List.mem_cons_self) hnew hplaced
      have := ih (fun other hother => hall other (List.mem_cons_of_mem _ hother)) _ _ hnext
        (by rwa [append_assoc])
      rwa [append_assoc] at this
  exact hparts sectionId.parts (fun partId hpart => OutputSectionId.mem_parts.1 hpart) done _ h
    hnodup

variable {done : List PartId} {state state' : LayoutState}

theorem Placed.recordsOut_old {sectionId : OutputSectionId} {maxAlignment : Alignment}
    {partId : PartId} {record : OutputRecordLayout}
    (h : Placed sizes secs args sectionId maxAlignment partId state state' record)
    (hnew : partId ∉ done) : ∀ other ∈ done, state'.recordsOut other = state.recordsOut other := by
  intro other hother
  rw [h.recordsOut]
  refine update_of_ne ?_ _ _
  rintro rfl
  exact hnew hother

theorem placedParts_cons (event : OrderEvent) (events : List OrderEvent) :
    placedParts (event :: events) = placedParts [event] ++ placedParts events := by
  rw [← placedParts_append]
  rfl

/-! ## The file -/

variable (sizes secs) in
/-- What holds of the parts placed so far and the file cursor. -/
structure Laid (done : List PartId) (state : LayoutState) : Prop where
  record : ∀ partId ∈ done,
    (state.recordsOut partId).alignment = min (secs.partAlignment partId)
        (secs.maxAlignment sizes partId.outputSectionId) ∧
      (partId.outputSectionId ≠ relroPadding →
        (state.recordsOut partId).memSize = sizes partId) ∧
      (state.recordsOut partId).fileSize =
        if IsAlloc secs partId.outputSectionId ∧ secs.hasDataInFile
            (secs.primaryOutputSection partId.outputSectionId) = false then 0
        else (state.recordsOut partId).memSize
  aligned : ∀ partId, (state.recordsOut partId).alignment.value ∣
      (state.recordsOut partId).fileOffset ∧
    (state.recordsOut partId).alignment.value ∣ (state.recordsOut partId).memOffset
  ends : ∀ partId ∈ done, (state.recordsOut partId).fileOffset +
    (state.recordsOut partId).fileSize ≤ state.fileOffset
  ordered : done.Pairwise fun partId later => (state.recordsOut partId).fileOffset +
    (state.recordsOut partId).fileSize ≤ (state.recordsOut later).fileOffset
  rest : ∀ partId ∉ done, state.recordsOut partId = {}

theorem Laid.place {partId : PartId} {record : OutputRecordLayout} (h : Laid sizes secs done state)
    (hnew : partId ∉ done)
    (hplaced : Placed sizes secs args partId.outputSectionId
      (secs.maxAlignment sizes partId.outputSectionId) partId state state' record) :
    Laid sizes secs (done ++ [partId]) state' := by
  have hsame := hplaced.recordsOut_old hnew
  have hhere : state'.recordsOut partId = record := by
    rw [hplaced.recordsOut, update_self]
  have hstart : state.fileOffset ≤ record.fileOffset := by
    rw [hplaced.fileOffset]
    exact le_alignUp _ _
  have hend := hplaced.fileOffset'
  refine ⟨?_, ?_, ?_, ?_, ?_⟩
  · intro other hother
    rcases mem_append.1 hother with hold | hlast
    · rw [hsame other hold]
      exact h.record other hold
    · rw [mem_singleton.1 hlast, hhere]
      exact ⟨hplaced.alignment, hplaced.memSize, hplaced.fileSize⟩
  · intro other
    rw [hplaced.recordsOut]
    by_cases heq : other = partId
    · rw [heq, update_self]
      exact ⟨hplaced.dvd_fileOffset, hplaced.dvd_memOffset⟩
    · rw [update_of_ne heq]
      exact h.aligned other
  · intro other hother
    rcases mem_append.1 hother with hother | hother
    · have := h.ends other hother
      rw [hsame other hother]
      omega
    · rw [mem_singleton.1 hother, hhere]
      omega
  · refine List.pairwise_append.2 ⟨?_, List.pairwise_singleton _ _, ?_⟩
    · refine h.ordered.imp_of_mem fun {a b} ha hb hab => ?_
      rw [hsame a ha, hsame b hb]
      exact hab
    · intro other hother later hlater
      have := h.ends other hother
      rw [mem_singleton.1 hlater, hsame other hother, hhere]
      omega
  · intro other hother
    rw [mem_append, not_or, mem_singleton] at hother
    rw [hplaced.recordsOut, update_of_ne hother.2]
    exact h.rest other hother.1

theorem Laid.move (h : Laid sizes secs done state) (hrecords : state'.recordsOut = state.recordsOut)
    (hfile : state.fileOffset ≤ state'.fileOffset) : Laid sizes secs done state' where
  record := by rw [hrecords]; exact h.record
  aligned := by rw [hrecords]; exact h.aligned
  ends partId hpart := by
    rw [hrecords]
    exact (h.ends partId hpart).trans hfile
  ordered := by rw [hrecords]; exact h.ordered
  rest := by rw [hrecords]; exact h.rest

theorem startSection_recordsOut (sectionId : OutputSectionId) (state : LayoutState) :
    (startSection secs sectionId state).recordsOut = state.recordsOut ∧
      (startSection secs sectionId state).fileOffset = state.fileOffset ∧
      (startSection secs sectionId state).pendingLocation = state.pendingLocation := by
  unfold startSection
  split <;> exact ⟨rfl, rfl, rfl⟩

theorem startLoadSegment_recordsOut (alignment : Alignment) (state : LayoutState) :
    (startLoadSegment alignment state).recordsOut = state.recordsOut ∧
      state.fileOffset ≤ (startLoadSegment alignment state).fileOffset := by
  unfold startLoadSegment
  split
  · exact ⟨rfl, alignment.le_alignModulo _ _⟩
  · exact ⟨rfl, le_refl _⟩

variable {segmentAlignments : ProgramSegmentId → Alignment}

theorem Laid.event (h : Laid sizes secs done state) (event : OrderEvent)
    (hnodup : (done ++ placedParts [event]).Nodup) :
    Laid sizes secs (done ++ placedParts [event])
      (layoutEvent sizes secs segs args segmentAlignments state event) := by
  cases event with
  | setLocation address =>
    rw [placedParts_setLocation, append_nil]
    exact h.move rfl (le_refl _)
  | segmentStart segmentId =>
    rw [placedParts_segmentStart, append_nil, layoutEvent]
    split
    · exact h.move (startLoadSegment_recordsOut _ _).1 (startLoadSegment_recordsOut _ _).2
    · exact h
  | segmentEnd segmentId =>
    rw [placedParts_segmentEnd, append_nil]
    exact h
  | «section» sectionId =>
    rw [placedParts_section] at hnodup ⊢
    have hstart := @startSection_recordsOut secs sectionId state
    refine forall_placeSection (P := Laid sizes secs) (h.move hstart.1 hstart.2.1.ge) ?_ hnodup
    rintro done state partId state' record hlaid rfl hnew hplaced
    exact hlaid.place hnew hplaced

theorem Laid.events (h : Laid sizes secs done state) (events : List OrderEvent)
    (hnodup : (done ++ placedParts events).Nodup) :
    Laid sizes secs (done ++ placedParts events) (events.foldl
      (layoutEvent sizes secs segs args segmentAlignments) state) := by
  induction events generalizing done state with
  | nil => simpa [placedParts, sectionIds] using h
  | cons event events ih =>
    rw [placedParts_cons, ← append_assoc] at hnodup ⊢
    exact ih (h.event event (List.nodup_append.1 hnodup).1) hnodup

/-! ## Memory -/

variable (sizes secs segs args) in
/-- Every location that is taken is at or above the memory cursor. -/
def LocationsAbove (segmentAlignments : ProgramSegmentId → Alignment) :
    LayoutState → List OrderEvent → Prop
  | _, [] => True
  | state, event :: events =>
    (match event with
      | .segmentStart segmentId => isLoadSegment segs segmentId = true →
          ∀ address ∈ state.pendingLocation, state.memOffset ≤ address
      | .section sectionId =>
        ∀ address ∈ (secs.outputInfo sectionId).location, state.memOffset ≤ address
      | _ => True) ∧
    LocationsAbove segmentAlignments
      (layoutEvent sizes secs segs args segmentAlignments state event) events

/-- What holds of the allocated parts placed so far and the memory cursor. -/
structure Stacked (secs : OutputSections) (done : List PartId) (state : LayoutState) :
    Prop where
  ends : ∀ partId ∈ done, IsAlloc secs partId.outputSectionId →
    (state.recordsOut partId).memOffset + (state.recordsOut partId).memSize ≤ state.memOffset
  ordered : done.Pairwise fun partId later => IsAlloc secs partId.outputSectionId →
    IsAlloc secs later.outputSectionId →
      (state.recordsOut partId).memOffset + (state.recordsOut partId).memSize ≤
        (state.recordsOut later).memOffset

theorem Stacked.move (h : Stacked secs done state) (hrecords : state'.recordsOut = state.recordsOut)
    (hmem : state.memOffset ≤ state'.memOffset) : Stacked secs done state' where
  ends partId hpart halloc := by
    rw [hrecords]
    exact (h.ends partId hpart halloc).trans hmem
  ordered := by rw [hrecords]; exact h.ordered

theorem Stacked.place {partId : PartId} {maxAlignment : Alignment} {record : OutputRecordLayout}
    (hreloc : args.shouldOutputPartialObject = false) (h : Stacked secs done state)
    (hnew : partId ∉ done)
    (hplaced : Placed sizes secs args partId.outputSectionId maxAlignment partId state
      state' record) :
    Stacked secs (done ++ [partId]) state' := by
  have hsame := hplaced.recordsOut_old hnew
  have hhere : state'.recordsOut partId = record := by
    rw [hplaced.recordsOut, update_self]
  have hmem : state.memOffset ≤ state'.memOffset := by
    by_cases halloc : IsAlloc secs partId.outputSectionId
    · obtain ⟨hstart, hend, -⟩ := hplaced.alloc hreloc halloc
      have := le_alignUp record.alignment state.memOffset
      omega
    · exact (hplaced.nonalloc halloc).ge
  refine ⟨?_, List.pairwise_append.2 ⟨?_, List.pairwise_singleton _ _, ?_⟩⟩
  · intro other hother halloc
    rcases mem_append.1 hother with hother | hother
    · rw [hsame other hother]
      exact (h.ends other hother halloc).trans hmem
    · rw [mem_singleton.1 hother] at halloc ⊢
      rw [hhere]
      exact (hplaced.alloc hreloc halloc).2.1.ge
  · refine h.ordered.imp_of_mem fun {a b} ha hb hab => ?_
    rw [hsame a ha, hsame b hb]
    exact hab
  · intro other hother later hlater halloc halloc'
    rw [mem_singleton.1 hlater] at halloc' ⊢
    rw [hsame other hother, hhere, (hplaced.alloc hreloc halloc').1]
    exact (h.ends other hother halloc).trans (le_alignUp _ _)

theorem Stacked.event (hreloc : args.shouldOutputPartialObject = false)
    (h : Stacked secs done state) {event : OrderEvent} {events : List OrderEvent}
    (hlocs : LocationsAbove sizes secs segs args segmentAlignments state (event :: events))
    (hnodup : (done ++ placedParts [event]).Nodup) :
    Stacked secs (done ++ placedParts [event])
      (layoutEvent sizes secs segs args segmentAlignments state event) := by
  have habove := hlocs.1
  cases event with
  | setLocation address =>
    rw [placedParts_setLocation, append_nil]
    exact h.move rfl (le_refl _)
  | segmentStart segmentId =>
    rw [placedParts_segmentStart, append_nil, layoutEvent]
    split
    case isTrue hload =>
      refine h.move (startLoadSegment_recordsOut _ _).1 ?_
      unfold startLoadSegment
      split
      case h_1 address hpend => exact habove hload address hpend
      case h_2 => exact Alignment.le_alignModulo _ _ _
    case isFalse => exact h
  | segmentEnd segmentId =>
    rw [placedParts_segmentEnd, append_nil]
    exact h
  | «section» sectionId =>
    rw [placedParts_section] at hnodup ⊢
    have hstart := @startSection_recordsOut secs sectionId state
    have hmem : state.memOffset ≤ (startSection secs sectionId state).memOffset := by
      unfold startSection
      split
      case h_1 address hloc => exact habove address hloc
      case h_2 => exact le_refl _
    refine forall_placeSection (P := Stacked secs) (h.move hstart.1 hmem) ?_ hnodup
    rintro done state partId state' record hstacked rfl hnew hplaced
    exact hstacked.place hreloc hnew hplaced

theorem Stacked.events (hreloc : args.shouldOutputPartialObject = false)
    (h : Stacked secs done state) (events : List OrderEvent)
    (hlocs : LocationsAbove sizes secs segs args segmentAlignments state events)
    (hnodup : (done ++ placedParts events).Nodup) :
    Stacked secs (done ++ placedParts events) (events.foldl
      (layoutEvent sizes secs segs args segmentAlignments) state) := by
  induction events generalizing done state with
  | nil => simpa [placedParts, sectionIds] using h
  | cons event events ih =>
    rw [placedParts_cons, ← append_assoc] at hnodup ⊢
    exact ih (h.event hreloc hlocs (List.nodup_append.1 hnodup).1) hlocs.2 hnodup

end

end Sld.Layout
