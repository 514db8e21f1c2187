/-
# `Layout.SectionOffsets` — where the sections of a built order end up

The invariants of the order and of the cursors, followed over the sections of
a whole order.
-/
import Sld.Layout.OrderBuilding
import Sld.Order.SortDedup

namespace Sld.Layout

open OutputOrderBuilder
open List (append_assoc foldl_append mem_filterMap nodup_append prefix_append prefix_refl)

section

variable {sizes : PartId → ℕ} {outputSections : OutputSections}
  {programSegments : List ProgramSegmentDef} {args : LayoutArgs}
  {secondary : OutputSectionId → List OutputSectionId}

/-! ## The events of an order -/

section

variable (builder : OutputOrderBuilder)

include builder

theorem endRwLoadSegment_events : ∃ ended : List ProgramSegmentId,
      builder.endRwLoadSegment.events = builder.events ++ ended.map .segmentEnd ∧
        builder.endRwLoadSegment.programSegments = builder.programSegments := by
  unfold endRwLoadSegment
  simp only
  split
  case h_1 ended _ => exact ⟨[ended], rfl, rfl⟩
  case h_2 => exact ⟨[], by simp, rfl⟩

theorem prefix_startStopSegmentsForSection (sectionId : OutputSectionId) :
    builder.programSegments <+:
      (builder.startStopSegmentsForSection outputSections false sectionId).programSegments := by
  unfold startStopSegmentsForSection
  split
  case isTrue => exact prefix_refl _
  case isFalse =>
    simp only
    obtain ⟨stopped, started, active, heq, -⟩ := @startStopKind_foldl outputSections sectionId
      (programSegmentDefs.zip (if (outputSections.outputInfo sectionId).location.isSome then
          builder.activeSegmentKinds.map fun _ => none
        else builder.activeSegmentKinds))
      ⟨if (outputSections.outputInfo sectionId).location.isSome then
          builder.activeSegmentKinds.filterMap id else [], [], builder.programSegments, []⟩
    rw [heq]
    exact prefix_append _ _

theorem addSection_events (sectionId : OutputSectionId) :
    (∃ opening, (builder.addSection outputSections secondary false sectionId).events =
        builder.events ++ opening ++
          (sectionId :: orderedSecondaries outputSections secondary sectionId).map .section ∧
      sectionIds opening = []) ∧
      builder.programSegments <+:
        (builder.addSection outputSections secondary false sectionId).programSegments := by
  have hended : ∃ ended : List ProgramSegmentId,
      (if builder.shouldEndCurrentRwSegment outputSections sectionId then
        builder.endRwLoadSegment else builder).events = builder.events ++ ended.map .segmentEnd ∧
      (if builder.shouldEndCurrentRwSegment outputSections sectionId then
        builder.endRwLoadSegment else builder).programSegments = builder.programSegments := by
    split
    · exact endRwLoadSegment_events builder
    · exact ⟨[], by simp, rfl⟩
  unfold addSection
  generalize (if builder.shouldEndCurrentRwSegment outputSections sectionId then
    builder.endRwLoadSegment else builder) = self at hended ⊢
  obtain ⟨ended, hevents, hprogram⟩ := hended
  simp only [hevents]
  constructor
  · let segments := self.startStopSegmentsForSection outputSections false sectionId
    refine ⟨ended.map .segmentEnd ++ segments.stop.map .segmentEnd ++
      locationEvents outputSections sectionId ++ segments.start.map .segmentStart, ?_, ?_⟩
    · simp [segments]
    · simp
  · rw [← hprogram]
    exact prefix_startStopSegmentsForSection self sectionId

theorem addSections_concat (sections : List OutputSectionId) (sectionId : OutputSectionId) :
    builder.addSections outputSections secondary false (sections ++ [sectionId]) =
      (builder.addSections outputSections secondary false sections).addSection outputSections
        secondary false sectionId := by
  rw [addSections, foldl_append]
  rfl

theorem prefix_addSections (sections : List OutputSectionId) :
    builder.events <+: (builder.addSections outputSections secondary false sections).events ∧
      builder.programSegments <+:
        (builder.addSections outputSections secondary false sections).programSegments := by
  induction sections using List.reverseRecOn with
  | nil => exact ⟨prefix_refl _, prefix_refl _⟩
  | append_singleton sections sectionId ih =>
    obtain ⟨⟨opening, hevents, -⟩, hprogram⟩ := addSection_events
      (builder.addSections outputSections secondary false sections) sectionId
    rw [addSections_concat]
    refine ⟨ih.1.trans ?_, ih.2.trans hprogram⟩
    rw [hevents, append_assoc]
    exact prefix_append _ _

end

theorem sectionIds_addSections (sections : List OutputSectionId) :
    sectionIds (new.addSections outputSections secondary false sections).events =
      sections.flatMap fun sectionId =>
        sectionId :: orderedSecondaries outputSections secondary sectionId := by
  induction sections using List.reverseRecOn with
  | nil => rfl
  | append_singleton sections sectionId ih =>
    obtain ⟨⟨opening, hevents, hopening⟩, -⟩ := addSection_events
      (new.addSections outputSections secondary false sections) sectionId
    rw [addSections_concat, hevents, sectionIds_append, sectionIds_append, sectionIds_section,
      ih, hopening, List.append_nil, List.flatMap_append, List.flatMap_singleton]

/-- The order and the segments of some sections. -/
def builtOrder (outputSections : OutputSections)
    (secondary : OutputSectionId → List OutputSectionId) (sections : List OutputSectionId) :
    List OrderEvent × List ProgramSegmentDef :=
  (new.addSections outputSections secondary false sections).build false

theorem builtOrder_eq (sections : List OutputSectionId) :
    ∃ closing : List ProgramSegmentId, ∃ segmentId, builtOrder outputSections secondary sections =
        ((new.addSections outputSections secondary false sections).events ++
            closing.map .segmentEnd ++ [.segmentStart segmentId] ++ [.segmentEnd segmentId],
          (new.addSections outputSections secondary false sections).programSegments ++
            [stackSegmentDef]) ∧
      segmentId =
        (new.addSections outputSections secondary false sections).programSegments.length := by
  let builder := new.addSections outputSections secondary false sections
  refine ⟨builder.activeSegmentKinds.filterMap id, builder.programSegments.length, ?_, rfl⟩
  rw [builtOrder, build, if_neg Bool.false_ne_true, append_assoc _ [_] [_]]
  rfl

theorem perm_sectionIds_builtOrder (sections : List OutputSectionId) :
    (sectionIds (builtOrder outputSections secondary sections).1).Perm
      (sections ++ sections.flatMap secondary) := by
  obtain ⟨closing, segmentId, heq, -⟩ := @builtOrder_eq outputSections secondary sections
  have hclosing : sectionIds [.segmentStart segmentId] = [] ∧
      sectionIds [.segmentEnd segmentId] = [] := ⟨rfl, rfl⟩
  rw [heq]
  simp only [sectionIds_append, sectionIds_segmentEnd, hclosing, List.append_nil]
  rw [sectionIds_addSections]
  clear heq
  induction sections with
  | nil => exact List.Perm.refl _
  | cons sectionId sections ih =>
    rw [List.flatMap_cons, List.flatMap_cons, List.cons_append, List.cons_append]
    refine List.Perm.cons sectionId ?_
    calc orderedSecondaries outputSections secondary sectionId ++
          sections.flatMap (fun sectionId =>
            sectionId :: orderedSecondaries outputSections secondary sectionId)
        |>.Perm (secondary sectionId ++ (sections ++ sections.flatMap secondary)) :=
          (List.perm_insertionSort _ _).append ih
      _ |>.Perm (sections ++ (secondary sectionId ++ sections.flatMap secondary)) :=
          List.perm_append_comm_assoc _ _ _

/-! ## Both invariants of the whole order -/

theorem phase_nil (order : List OrderEvent) :
    Phase sizes outputSections programSegments args order [] fun _ => 0 where
  dvd _ := Int.dvd_zero _
  active _ hmem := by cases hmem
  placed before segmentId sectionId after hsplit := by
    have hmem : (segmentId, sectionId) ∈ loadSections sizes outputSections programSegments args [] := by
      rw [hsplit]
      simp
    cases hmem

variable {order : List OrderEvent} {sections : List OutputSectionId}

theorem follows_addSections
    (hreloc : args.shouldOutputPartialObject = false) (hnodup : (sectionIds order).Nodup)
    (horderable : ∀ sectionId ∈ sections, Orderable outputSections secondary sectionId)
    (horder : (new.addSections outputSections secondary false sections).events <+: order)
    (hprogram : (new.addSections outputSections secondary false sections).programSegments <+:
      programSegments) :
    Follows sizes outputSections programSegments args order
      (new.addSections outputSections secondary false sections) := by
  induction sections using List.reverseRecOn with
  | nil => exact ⟨built_new, _, phase_nil order⟩
  | append_singleton sections sectionId ih =>
    rw [addSections_concat] at horder hprogram ⊢
    obtain ⟨⟨opening, hevents, -⟩, hsegs⟩ := @addSection_events outputSections secondary
      (new.addSections outputSections secondary false sections) sectionId
    have hearlier : (new.addSections outputSections secondary false sections).events <+:
        ((new.addSections outputSections secondary false sections).addSection outputSections
          secondary false sectionId).events := by
      rw [hevents, append_assoc]
      exact prefix_append _ _
    refine (ih (fun other hother => horderable other (List.mem_append_left _ hother))
      (hearlier.trans horder) (hsegs.trans hprogram)).addSection hreloc hnodup
      (horderable sectionId (List.mem_append_right _ (List.mem_singleton_self _))) horder hprogram

theorem nodup_sectionIds_builtOrder {sections : List OutputSectionId}
    (h : (sections ++ sections.flatMap secondary).Nodup) :
    (sectionIds (builtOrder outputSections secondary sections).1).Nodup :=
  (perm_sectionIds_builtOrder sections).nodup_iff.2 h

theorem phase_builtOrder (hreloc : args.shouldOutputPartialObject = false)
    {sections : List OutputSectionId} (hnodup : (sections ++ sections.flatMap secondary).Nodup)
    (horderable : ∀ sectionId ∈ sections, Orderable outputSections secondary sectionId) :
    ∃ delta, Phase sizes outputSections (builtOrder outputSections secondary sections).2 args
      (builtOrder outputSections secondary sections).1
      (builtOrder outputSections secondary sections).1 delta := by
  have hnodup' := @nodup_sectionIds_builtOrder outputSections secondary sections hnodup
  obtain ⟨closing, segmentId, heq, hsegmentId⟩ := @builtOrder_eq outputSections secondary sections
  rw [heq] at hnodup' ⊢
  simp only at hnodup' ⊢
  let builder := new.addSections outputSections secondary false sections
  have hfollows : Follows sizes outputSections (builder.programSegments ++ [stackSegmentDef]) args
      (builder.events ++ closing.map .segmentEnd ++ [.segmentStart segmentId] ++
        [.segmentEnd segmentId]) builder := by
    refine follows_addSections hreloc hnodup' horderable ?_ (prefix_append _ _)
    simp only [append_assoc]
    exact prefix_append _ _
  obtain ⟨-, delta, hphase⟩ := hfollows
  have hstack : isLoadSegment ((new.addSections outputSections secondary false
      sections).programSegments ++ [stackSegmentDef]) segmentId = false := by
    rw [isLoadSegment, hsegmentId, List.getElem?_append_right (le_refl _), Nat.sub_self]
    rfl
  have hclosed := (hphase.ends closing).startOthers [segmentId] (by simpa using hstack)
  exact ⟨delta, hclosed.1.ends [segmentId]⟩

/-! ## Parts of an order -/

variable {partId : PartId}

theorem first_le_of_find? {sectionId : OutputSectionId} {p : PartId → Bool} {first : PartId}
    (h : sectionId.parts.find? p = some first) (hmem : partId ∈ sectionId.parts)
    (hp : p partId = true) : first ≤ partId := by
  obtain ⟨-, before, after, hsplit, hbefore⟩ := List.find?_eq_some_iff_append.1 h
  have hsorted : sectionId.parts.Pairwise (· < ·) := List.pairwise_lt_range'
  rw [hsplit] at hmem hsorted
  rcases List.mem_append.1 hmem with hearlier | hlater
  · exact absurd hp (by simpa using hbefore partId hearlier)
  · rcases List.mem_cons.1 hlater with heq | hafter
    · exact heq.ge
    · have hcons := (List.pairwise_append.1 hsorted).2.1
      exact le_of_lt ((List.pairwise_cons.1 hcons).1 partId hafter)

theorem not_lt_of_outputSectionId_eq {first : PartId}
    (h : first.outputSectionId = partId.outputSectionId)
    (hsingle : ¬ partId < numSinglePartSections) : ¬ first < numSinglePartSections := by
  intro hfirst
  rw [PartId.outputSectionId, if_pos hfirst, PartId.outputSectionId, if_neg hsingle] at h
  have hge : numSinglePartSections ≤ first := by
    rw [h]
    exact Nat.le_add_left _ _
  exact absurd hfirst (Nat.not_lt.2 hge)

theorem mod_le_mod {first partId : ℕ} (h : first ≤ partId)
    (hdiv : (first - numSinglePartSections) / numAlignments =
      (partId - numSinglePartSections) / numAlignments) :
    (first - numSinglePartSections) % numAlignments ≤
      (partId - numSinglePartSections) % numAlignments := by
  unfold numSinglePartSections numAlignments at *
  omega

theorem partAlignment_antitone {first : PartId}
    (hsec : first.outputSectionId = partId.outputSectionId) (hle : first ≤ partId) :
    outputSections.partAlignment partId ≤ outputSections.partAlignment first := by
  by_cases hsingle : partId < numSinglePartSections
  · have hsingle' : first < numSinglePartSections := lt_of_le_of_lt hle hsingle
    rw [PartId.outputSectionId, if_pos hsingle', PartId.outputSectionId, if_pos hsingle] at hsec
    rw [hsec]
  · have hsingle' := not_lt_of_outputSectionId_eq hsec hsingle
    rw [OutputSections.partAlignment, if_neg hsingle, OutputSections.partAlignment, if_neg hsingle']
    rw [PartId.outputSectionId, if_neg hsingle', PartId.outputSectionId, if_neg hsingle] at hsec
    exact Nat.sub_le_sub_left (mod_le_mod hle (Nat.add_right_cancel hsec)) _

theorem partAlignment_le_maxAlignment {partId : PartId} (h : sizes partId ≠ 0) :
    outputSections.partAlignment partId ≤
      outputSections.maxAlignment sizes partId.outputSectionId := by
  have hmem : partId ∈ partId.outputSectionId.parts := OutputSectionId.mem_parts.2 rfl
  by_cases hsingle : partId < numSinglePartSections
  · rw [OutputSections.partAlignment, if_pos hsingle]
    exact Nat.le_max_right _ _
  · cases hfound : partId.outputSectionId.parts.find? fun partId => sizes partId != 0 with
    | none =>
      have hzero := List.find?_eq_none.1 hfound partId hmem
      simp [h] at hzero
    | some first =>
      have hle := first_le_of_find? hfound hmem (by simpa using h)
      have hsame := OutputSectionId.mem_parts.1 (List.mem_of_find?_eq_some hfound)
      unfold OutputSections.maxAlignment
      rw [hfound]
      exact (partAlignment_antitone hsame hle).trans (Nat.le_max_left _ _)

theorem layoutEvents_recordsOut {segmentAlignments : ProgramSegmentId → Alignment}
    {events : List OrderEvent}
    (h : partId.outputSectionId ∉ sectionIds events) (state : LayoutState) :
    (events.foldl (layoutEvent sizes outputSections programSegments args segmentAlignments)
      state).recordsOut partId = state.recordsOut partId := by
  induction events generalizing state with
  | nil => rfl
  | cons event events ih =>
    rw [List.foldl_cons]
    have hrest : partId.outputSectionId ∉ sectionIds events := by
      intro hmem
      obtain ⟨other, hother, heq⟩ := mem_filterMap.1 hmem
      exact h (mem_filterMap.2 ⟨other, List.mem_cons_of_mem _ hother, heq⟩)
    rw [ih hrest]
    cases event with
    | setLocation address => rfl
    | segmentEnd segmentId => rfl
    | segmentStart segmentId =>
      rw [layoutEvent]
      split
      · rw [(startLoadSegment_recordsOut _ _).1]
      · rfl
    | «section» sectionId =>
      refine placeSection_recordsOut ?_
      rintro rfl
      exact h (mem_filterMap.2 ⟨_, List.mem_cons_self, rfl⟩)

/-! ## The layout of a built order -/

def OutputRecordLayout.FileDisjoint (record other : OutputRecordLayout) : Prop :=
  record.fileOffset + record.fileSize ≤ other.fileOffset ∨
    other.fileOffset + other.fileSize ≤ record.fileOffset

def OutputRecordLayout.MemDisjoint (record other : OutputRecordLayout) : Prop :=
  record.memOffset + record.memSize ≤ other.memOffset ∨
    other.memOffset + other.memSize ≤ record.memOffset

variable {state : LayoutState}

theorem laid_nil (h : state.recordsOut = fun _ => {}) : Laid sizes outputSections [] state where
  record _ hmem := by cases hmem
  aligned partId := by rw [h]; exact ⟨Nat.dvd_zero _, Nat.dvd_zero _⟩
  ends _ hmem := by cases hmem
  ordered := List.Pairwise.nil
  rest partId _ := by rw [h]

theorem stacked_nil : Stacked outputSections [] state where
  ends _ hmem := by cases hmem
  ordered := List.Pairwise.nil

theorem laid_layoutSectionParts (hnodup : (sectionIds order).Nodup) :
    Laid sizes outputSections (placedParts order)
      (layoutEvents sizes outputSections programSegments args order order) :=
  Laid.events (laid_nil rfl) order (nodup_placedParts hnodup)

theorem fileDisjoint_layoutSectionParts
    (hnodup : (sectionIds order).Nodup) {other : PartId} (hpart : partId ∈ placedParts order)
    (hother : other ∈ placedParts order) (hne : partId ≠ other) :
    (layoutSectionParts sizes outputSections programSegments args order partId).FileDisjoint
      (layoutSectionParts sizes outputSections programSegments args order other) :=
  (pairwise_eq_or (laid_layoutSectionParts hnodup).ordered hpart hother).resolve_left hne

theorem memDisjoint_layoutSectionParts {before window after : List OrderEvent}
    (hreloc : args.shouldOutputPartialObject = false) (hnodup : (sectionIds order).Nodup)
    (horder : order = before ++ window ++ after)
    (hlocs : LocationsAbove sizes outputSections programSegments args
      (segmentAlignment sizes outputSections programSegments args order)
      (layoutEvents sizes outputSections programSegments args order before) window)
    {other : PartId} (hpart : partId ∈ placedParts window)
    (hother : other ∈ placedParts window) (hne : partId ≠ other)
    (halloc : IsAlloc outputSections partId.outputSectionId)
    (halloc' : IsAlloc outputSections other.outputSectionId) :
    (layoutSectionParts sizes outputSections programSegments args order partId).MemDisjoint
      (layoutSectionParts sizes outputSections programSegments args order other) := by
  rw [horder, sectionIds_append, sectionIds_append] at hnodup
  have hwindow := nodup_append.1 (nodup_append.1 hnodup).1
  have hstacked : Stacked outputSections (placedParts window) (window.foldl
      (layoutEvent sizes outputSections programSegments args
        (segmentAlignment sizes outputSections programSegments args order))
      (layoutEvents sizes outputSections programSegments args order before)) :=
    Stacked.events hreloc stacked_nil window hlocs (nodup_placedParts hwindow.2.1)
  -- What comes after the window leaves its parts alone.
  have hsame : ∀ part ∈ placedParts window,
      layoutSectionParts sizes outputSections programSegments args order part =
        (window.foldl (layoutEvent sizes outputSections programSegments args
          (segmentAlignment sizes outputSections programSegments args order))
          (layoutEvents sizes outputSections programSegments args order before)).recordsOut
            part := by
    intro part hmem
    have hsec : part.outputSectionId ∈ sectionIds window :=
      mem_filterMap.2 ⟨_, mem_placedParts.1 hmem, rfl⟩
    have hafter : part.outputSectionId ∉ sectionIds after := fun hmem =>
      (nodup_append.1 hnodup).2.2 _ (List.mem_append_right _ hsec) _ hmem rfl
    have hrun : layoutEvents sizes outputSections programSegments args order order =
        after.foldl (layoutEvent sizes outputSections programSegments args
          (segmentAlignment sizes outputSections programSegments args order))
          (window.foldl (layoutEvent sizes outputSections programSegments args
            (segmentAlignment sizes outputSections programSegments args order))
            (layoutEvents sizes outputSections programSegments args order before)) := by
      rw [layoutEvents, layoutEvents, ← foldl_append, ← foldl_append, ← append_assoc, ← horder]
    rw [layoutSectionParts, hrun, layoutEvents_recordsOut hafter]
  obtain hsame' | hbefore | hbefore := pairwise_eq_or hstacked.ordered hpart hother
  · exact absurd hsame' hne
  · rw [OutputRecordLayout.MemDisjoint, hsame partId hpart, hsame other hother]
    exact .inl (hbefore halloc halloc')
  · rw [OutputRecordLayout.MemDisjoint, hsame partId hpart, hsame other hother]
    exact .inr (hbefore halloc' halloc)

theorem mem_placedParts_builtOrder
    (h : partId.outputSectionId ∈ sections ++ sections.flatMap secondary) :
    partId ∈ placedParts (builtOrder outputSections secondary sections).1 := by
  have hmem := (@perm_sectionIds_builtOrder outputSections secondary sections).mem_iff.2 h
  obtain ⟨event, hevent, heq⟩ := mem_filterMap.1 hmem
  rw [mem_placedParts]
  cases event with
  | «section» sectionId =>
    cases heq
    exact hevent
  | segmentStart => cases heq
  | segmentEnd => cases heq
  | setLocation => cases heq

end

/-- Where the parts of a built order end up.  The parts with data have pieces
of the file of their own, and everything is aligned.  Allocated parts have
pieces of memory of their own as long as no script location is below the
memory cursor; the segments are mapped as one piece as far as no section that
takes only memory comes first. -/
theorem parts_apart_and_segments_mapped (sizes : PartId → ℕ) (outputSections : OutputSections)
    (secondary : OutputSectionId → List OutputSectionId) (args : LayoutArgs)
    (sections : List OutputSectionId) (hreloc : args.shouldOutputPartialObject = false)
    (hnodup : (sections ++ sections.flatMap secondary).Nodup)
    (horderable : ∀ sectionId ∈ sections, Orderable outputSections secondary sectionId) :
    let order := (builtOrder outputSections secondary sections).1
    let programSegments := (builtOrder outputSections secondary sections).2
    let layout := layoutSectionParts sizes outputSections programSegments args order
    let sectionIds := sections ++ sections.flatMap secondary
    (∀ partId : PartId, partId.outputSectionId ∈ sectionIds →
      (layout partId).alignment.value ∣ (layout partId).fileOffset ∧
      (layout partId).alignment.value ∣ (layout partId).memOffset ∧
      (sizes partId ≠ 0 →
        (layout partId).alignment = outputSections.partAlignment partId)) ∧
    (∀ partId other : PartId, partId.outputSectionId ∈ sectionIds →
      other.outputSectionId ∈ sectionIds → partId ≠ other →
        (layout partId).FileDisjoint (layout other)) ∧
    (∀ before window after, order = before ++ window ++ after →
      LocationsAbove sizes outputSections programSegments args
        (segmentAlignment sizes outputSections programSegments args order)
        (layoutEvents sizes outputSections programSegments args order before) window →
      ∀ partId ∈ placedParts window, ∀ other ∈ placedParts window, partId ≠ other →
        IsAlloc outputSections partId.outputSectionId →
        IsAlloc outputSections other.outputSectionId →
          (layout partId).MemDisjoint (layout other)) ∧
    ∃ delta : ProgramSegmentId → ℤ, ∀ segmentId,
      ((segmentAlignment sizes outputSections programSegments args order segmentId).value : ℤ) ∣
        delta segmentId ∧
      ∀ before sectionId after,
        loadSections sizes outputSections programSegments args order =
          before ++ (segmentId, sectionId) :: after →
        outputSections.hasDataInFile (outputSections.primaryOutputSection sectionId) = true →
        (∀ earlier, (segmentId, earlier) ∈ before →
          ¬ MemoryOnly sizes outputSections earlier) →
        ∀ partId ∈ sectionId.parts,
          ((layout partId).memOffset : ℤ) = (layout partId).fileOffset + delta segmentId := by
  intro order programSegments layout sectionIds
  have hnodup' : (Layout.sectionIds order).Nodup := nodup_sectionIds_builtOrder hnodup
  have hlaid : Laid sizes outputSections (placedParts order)
      (layoutEvents sizes outputSections programSegments args order order) :=
    laid_layoutSectionParts hnodup'
  refine ⟨?_, ?_, ?_, ?_⟩
  · intro partId hsec
    have hplaced : partId ∈ placedParts order := mem_placedParts_builtOrder hsec
    obtain ⟨hfile, hmem⟩ := hlaid.aligned partId
    refine ⟨hfile, hmem, ?_⟩
    intro hsize
    have halign := (hlaid.record partId hplaced).1
    rw [Nat.min_eq_left (partAlignment_le_maxAlignment hsize)] at halign
    exact halign
  · intro partId other hsec hsec' hne
    exact fileDisjoint_layoutSectionParts hnodup' (mem_placedParts_builtOrder hsec)
      (mem_placedParts_builtOrder hsec') hne
  · intro before window after horder hlocs partId hpart other hother hne halloc halloc'
    exact memDisjoint_layoutSectionParts hreloc hnodup' horder hlocs hpart hother hne
      halloc halloc'
  · obtain ⟨delta, hphase⟩ := @phase_builtOrder sizes outputSections args secondary
      hreloc sections hnodup horderable
    refine ⟨delta, fun segmentId => ⟨hphase.dvd segmentId, ?_⟩⟩
    intro before sectionId after hsplit hdata hclean partId hpart
    exact hphase.placed before segmentId sectionId after hsplit hdata hclean partId hpart

/-! ## A location that is too low, and memory without data -/

/-- Two read-only sections from the base address on: one of the given type,
and one with data that may have a location. -/
def scriptedSections (ty : SectionType) (location : Option ℕ) : OutputSections where
  baseAddress := 0x400000
  outputInfo sectionId :=
    { kind := .primary
      sectionAttributes :=
        ⟨⟨true, false, false, false⟩, if sectionId = regular 21 then .other else ty⟩
      minAlignment := 0
      location := if sectionId = regular 21 then location else none
      secondaryOrder := none }
  optBuiltInDetails _ := none

/-- Sixteen bytes in the last part of each section. -/
def scriptedSizes (partId : PartId) : ℕ :=
  if partId = (regular 20).basePartId + 16 ∨ partId = (regular 21).basePartId + 16 then 16 else 0

def scriptedLayout (ty : SectionType) (location : Option ℕ) : PartId → OutputRecordLayout :=
  let built := builtOrder (scriptedSections ty location) (fun _ => []) [regular 20, regular 21]
  layoutSectionParts scriptedSizes (scriptedSections ty location) built.2 ⟨12, false⟩ built.1

theorem parts_apart_at_higher_location :
    let layout := scriptedLayout .other (some 0x500000)
    let first := layout ((regular 20).basePartId + 16)
    let second := layout ((regular 21).basePartId + 16)
    first.FileDisjoint second ∧ first.MemDisjoint second ∧
      ∃ delta : ℤ, 0x1000 ∣ delta ∧ second.memOffset = second.fileOffset + delta := by
  obtain ⟨-, hfile, hmem, delta, hdelta⟩ := parts_apart_and_segments_mapped scriptedSizes
    (scriptedSections .other (some 0x500000)) (fun _ => []) ⟨12, false⟩ [regular 20, regular 21]
    rfl (by decide) (fun _ _ => ⟨rfl, by simp⟩)
  refine ⟨hfile _ _ (by decide) (by decide) (by decide), hmem [.segmentStart 0]
    [.section (regular 20), .segmentEnd 0, .setLocation 0x500000, .segmentStart 1,
      .section (regular 21)] [.segmentEnd 1, .segmentStart 2, .segmentEnd 2] (by decide +kernel)
    ⟨nofun, trivial, trivial, ?_, ?_, trivial⟩ _ (by decide) _ (by decide) (by decide) rfl rfl,
    delta 1, (hdelta 1).1,
    (hdelta 1).2 [(0, regular 20)] (regular 21) [] (by decide +kernel) rfl (by simp) _
      (by decide)⟩
  · rintro - address ⟨⟩
    decide +kernel
  · rintro address ⟨⟩
    decide +kernel

/-- A location in the middle of the first section: nothing keeps the second
one from being placed over it.  Without a location but with a first section
that has no data, both are in one LOAD segment and the second one is not where
the segment's other bytes say. -/
theorem location_overlaps_and_memory_only_shifts :
    (let layout := scriptedLayout .other (some 0x400008)
     let first := layout ((regular 20).basePartId + 16)
     let second := layout ((regular 21).basePartId + 16)
     (first.memOffset = 0x400000 ∧ first.memSize = 16) ∧
       (second.memOffset = 0x400008 ∧ second.memSize = 16) ∧ ¬ first.MemDisjoint second) ∧
    (let layout := scriptedLayout .nobits none
     let first := layout ((regular 20).basePartId + 16)
     let second := layout ((regular 21).basePartId + 16)
     (first.memOffset = 0x400000 ∧ first.fileOffset = 0 ∧ first.fileSize = 0) ∧
       second.memOffset = 0x400010 ∧ second.fileOffset = 0 ∧ second.fileSize = 16 ∧
       ¬ (0x1000 ∣ (second.memOffset - second.fileOffset : ℤ))) := by
  unfold OutputRecordLayout.MemDisjoint
  decide +kernel

end Sld.Layout
