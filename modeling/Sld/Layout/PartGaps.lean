/-
# `Layout.PartGaps` — gaps between the parts of a section

Every part of a section starts at a multiple of its alignment, so that there
may be padding between two parts.  There is none up to a part exactly when
what comes before each part so far adds up to a multiple of its alignment
(`position_eq_iff`).
-/
import Sld.Layout.SectionOffsets

namespace Sld.Layout

/-! ## Items with alignments -/

section

variable {ι : Type} (align : ι → Alignment) (size : ι → ℕ)

/-- The cursor behind some items that are placed one after the other. -/
def cursor (base : ℕ) (items : List ι) : ℕ :=
  items.foldl (fun offset item => (align item).alignUp offset + size item) base

/-- Where the next item is placed. -/
def position (base : ℕ) (items : List ι) (item : ι) : ℕ :=
  (align item).alignUp (cursor align size base items)

variable {align size}

theorem cursor_concat (base : ℕ) (items : List ι) (item : ι) :
    cursor align size base (items ++ [item]) = position align size base items item + size item := by
  rw [cursor, List.foldl_append]
  rfl

theorem position_eq_iff {base : ℕ} {items : List ι} {item : ι}
    (hbase : ∀ other ∈ items ++ [item], (align other).value ∣ base) :
    base + (items.map size).sum ≤ position align size base items item ∧
      (position align size base items item = base + (items.map size).sum ↔
        ∀ before other after, items ++ [item] = before ++ other :: after →
          (align other).value ∣ (before.map size).sum) := by
  induction items using List.reverseRecOn generalizing item with
  | nil =>
    have hdvd := hbase item (by simp)
    have heq : position align size base [] item = base := (Alignment.alignUp_eq_self_iff _).2 hdvd
    rw [heq]
    refine ⟨le_refl _, fun _ => ?_, fun _ => rfl⟩
    intro before other after hsplit
    rcases concat_eq_append_cons.1 hsplit with ⟨rfl, -, -⟩ | ⟨after', -, hsplit⟩
    · exact Nat.dvd_zero _
    · simp at hsplit
  | append_singleton items last ih =>
    obtain ⟨hle, hiff⟩ := @ih last fun other hother =>
      hbase other (List.mem_append_left _ hother)
    have hround := Alignment.le_alignUp (align item) (position align size base items last + size last)
    have hsum : ((items ++ [last]).map size).sum = (items.map size).sum + size last := by simp
    have hpos : position align size base (items ++ [last]) item =
        (align item).alignUp (position align size base items last + size last) := by
      rw [position, cursor_concat]
    rw [hpos, hsum]
    refine ⟨by omega, ?_⟩
    have hdvd : (align item).value ∣ base := hbase item (by simp)
    constructor
    · intro heq before other after hsplit
      have hlast : position align size base items last = base + (items.map size).sum := by omega
      rcases concat_eq_append_cons.1 hsplit with ⟨rfl, rfl, -⟩ | ⟨after', -, hsplit⟩
      · have hself : (align other).alignUp (position align size base items last + size last) =
            position align size base items last + size last := by omega
        have hmultiple := (Alignment.alignUp_eq_self_iff _).1 hself
        rw [hlast, Nat.add_assoc] at hmultiple
        rw [hsum]
        exact (Nat.dvd_add_right hdvd).1 hmultiple
      · exact hiff.1 hlast before other after' hsplit
    · intro hall
      have hlast : position align size base items last = base + (items.map size).sum := by
        refine hiff.2 fun before other after hsplit => hall before other (after ++ [item]) ?_
        rw [hsplit]
        simp
      have hmultiple := hall (items ++ [last]) item [] rfl
      rw [hsum] at hmultiple
      rw [hlast, Nat.add_assoc]
      exact (Alignment.alignUp_eq_self_iff _).2 (Nat.dvd_add hdvd hmultiple)

theorem position_cons (base : ℕ) (first : ι) (items : List ι) (item : ι) :
    position align size base (first :: items) item =
      position align size ((align first).alignUp base) (first :: items) item := by
  have hself : (align first).alignUp ((align first).alignUp base) = (align first).alignUp base :=
    (Alignment.alignUp_eq_self_iff _).2 (Alignment.dvd_alignUp _ _)
  rw [position, position, cursor, cursor, List.foldl_cons, List.foldl_cons, hself]

end

/-! ## Parts -/

section

variable {sizes : PartId → ℕ} {outputSections : OutputSections}
  {programSegments : List ProgramSegmentDef} {args : LayoutArgs}

variable (sizes outputSections) in
/-- The alignment that a part is placed with. -/
def placedAlignment (partId : PartId) : Alignment :=
  min (outputSections.partAlignment partId)
    (outputSections.maxAlignment sizes partId.outputSectionId)

variable (sizes outputSections) in
/-- The bytes that a part takes in the file. -/
def placedFileSize (partId : PartId) : ℕ :=
  if IsAlloc outputSections partId.outputSectionId ∧ outputSections.hasDataInFile
      (outputSections.primaryOutputSection partId.outputSectionId) = false then 0
  else sizes partId

theorem placeSection_position {state : LayoutState} {sectionId : OutputSectionId}
    (hrelro : sectionId ≠ relroPadding) :
    (placeSection sizes outputSections args state sectionId).fileOffset =
        cursor (placedAlignment sizes outputSections) (placedFileSize sizes outputSections)
          state.fileOffset sectionId.parts ∧
      ∀ before partId after, sectionId.parts = before ++ partId :: after →
        ((placeSection sizes outputSections args state sectionId).recordsOut partId).fileOffset =
          position (placedAlignment sizes outputSections) (placedFileSize sizes outputSections)
            state.fileOffset before partId := by
  refine @forall_placeSection sizes outputSections args (fun done state' =>
      state'.fileOffset = cursor (placedAlignment sizes outputSections)
          (placedFileSize sizes outputSections) state.fileOffset done ∧
        ∀ before partId after, done = before ++ partId :: after →
          (state'.recordsOut partId).fileOffset =
            position (placedAlignment sizes outputSections) (placedFileSize sizes outputSections)
              state.fileOffset before partId) [] state sectionId ?_ ?_ sectionId.nodup_parts
  · exact ⟨(startSection_recordsOut sectionId state).2.1, by simp⟩
  · rintro done state₁ partId state₂ record ⟨hcursor, hdone⟩ rfl hnew hplaced
    have hsize : record.fileSize = placedFileSize sizes outputSections partId := by
      rw [hplaced.fileSize, hplaced.memSize hrelro, placedFileSize]
    have hpos : record.fileOffset =
        position (placedAlignment sizes outputSections) (placedFileSize sizes outputSections)
          state.fileOffset done partId := by
      rw [hplaced.fileOffset, hplaced.alignment, hcursor]
      rfl
    refine ⟨?_, ?_⟩
    · rw [hplaced.fileOffset', hsize, hpos, cursor_concat]
    · intro before other after hsplit
      rw [hplaced.recordsOut]
      rcases concat_eq_append_cons.1 hsplit with ⟨rfl, rfl, -⟩ | ⟨after', -, hsplit⟩
      · rw [Function.update_self, hpos]
      · have hmem : other ∈ done := by
          rw [hsplit]
          simp
        have hne : other ≠ partId := by
          rintro rfl
          exact hnew hmem
        rw [Function.update_of_ne hne]
        exact hdone before other after' hsplit

theorem layoutSectionParts_position {order : List OrderEvent} {sectionId : OutputSectionId}
    (hnodup : (sectionIds order).Nodup) (hmem : OrderEvent.section sectionId ∈ order)
    (hrelro : sectionId ≠ relroPadding) :
    ∃ base, ∀ before partId after, sectionId.parts = before ++ partId :: after →
      (layoutSectionParts sizes outputSections programSegments args order partId).fileOffset =
        position (placedAlignment sizes outputSections) (placedFileSize sizes outputSections)
          base before partId := by
  obtain ⟨events, rest, horder⟩ := List.append_of_mem hmem
  refine ⟨(layoutEvents sizes outputSections programSegments args order events).fileOffset, ?_⟩
  intro before partId after hsplit
  have hsec : partId.outputSectionId = sectionId := by
    refine OutputSectionId.mem_parts.1 ?_
    rw [hsplit]
    simp
  have hlater : partId.outputSectionId ∉ sectionIds rest := by
    rw [hsec]
    intro hlater
    rw [horder, List.append_cons, sectionIds_append] at hnodup
    refine (List.nodup_append.1 hnodup).2.2 sectionId ?_ sectionId hlater rfl
    simp [sectionIds, OrderEvent.sectionId]
  have hrun : layoutEvents sizes outputSections programSegments args order order =
      rest.foldl (layoutEvent sizes outputSections programSegments args
        (segmentAlignment sizes outputSections programSegments args order))
        (placeSection sizes outputSections args
          (layoutEvents sizes outputSections programSegments args order events) sectionId) := by
    conv_lhs => rw [layoutEvents]
    conv_lhs => rhs; rw [horder]
    rw [List.foldl_append]
    rfl
  rw [layoutSectionParts, hrun, layoutEvents_recordsOut hlater]
  exact (placeSection_position hrelro).2 before partId after hsplit

end

end Sld.Layout
