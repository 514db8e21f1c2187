/-
# `Layout.LoadSegments` — memory follows the file in a LOAD segment

A LOAD segment starts with both cursors congruent modulo its alignment.  Parts
with data in the file move both by the same amount, so that the distance
stays what it was, until a section takes memory without having data.
-/
import Mathlib.Data.List.Induction
import Sld.Layout.PartPlacement

namespace Sld.Layout

open Function (update_of_ne update_self)
open List (append_nil foldl_append mem_append mem_map mem_singleton)

section

variable (sizes : PartId → ℕ) (secs : OutputSections)
  (segs : List ProgramSegmentDef) (args : LayoutArgs)

/-- The LOAD segments that are active after some events. -/
def activeLoadSegments (events : List OrderEvent) : List ProgramSegmentId :=
  (computeSegmentAlignments sizes secs segs args events).activeLoadSegments

/-- The sections that one event places in a LOAD segment. -/
def eventSections (active : List ProgramSegmentId) (event : OrderEvent) :
    List (ProgramSegmentId × OutputSectionId) :=
  match event with
  | .section sectionId => active.map fun segmentId => (segmentId, sectionId)
  | _ => []

/-- The sections of each LOAD segment, in order. -/
def loadSectionsFrom (acc : SegmentAlignments) :
    List OrderEvent → List (ProgramSegmentId × OutputSectionId)
  | [] => []
  | event :: events =>
    eventSections acc.activeLoadSegments event ++
      loadSectionsFrom
        (segmentAlignmentEvent sizes secs segs args acc event) events

def loadSections (events : List OrderEvent) : List (ProgramSegmentId × OutputSectionId) :=
  loadSectionsFrom sizes secs segs args ⟨[], []⟩ events

/-- A section that moves the memory cursor only. -/
def MemoryOnly (sectionId : OutputSectionId) : Prop :=
  secs.hasDataInFile (secs.primaryOutputSection sectionId) = false ∧
    (sectionId = relroPadding ∨ ∃ partId ∈ sectionId.parts, sizes partId ≠ 0)

variable {sizes secs segs args}

theorem loadSectionsFrom_append (acc : SegmentAlignments) (events events' : List OrderEvent) :
    loadSectionsFrom sizes secs segs args acc (events ++ events') =
      loadSectionsFrom sizes secs segs args acc events ++ loadSectionsFrom sizes secs segs args
          (events.foldl (segmentAlignmentEvent sizes secs segs args) acc)
          events' := by
  induction events generalizing acc with
  | nil => rfl
  | cons event events ih =>
    rw [List.cons_append, loadSectionsFrom, ih, loadSectionsFrom, List.append_assoc,
      List.foldl_cons]

section

variable (events : List OrderEvent)

include events

theorem loadSections_concat (event : OrderEvent) :
    loadSections sizes secs segs args (events ++ [event]) =
      loadSections sizes secs segs args events ++
        eventSections (activeLoadSegments sizes secs segs args events)
          event := by
  rw [loadSections, loadSectionsFrom_append, loadSectionsFrom, loadSectionsFrom, append_nil]
  rfl

theorem computeSegmentAlignments_concat (event : OrderEvent) :
    computeSegmentAlignments sizes secs segs args (events ++ [event]) =
      segmentAlignmentEvent sizes secs segs args
        (computeSegmentAlignments sizes secs segs args events) event := by
  rw [computeSegmentAlignments, foldl_append]
  rfl

theorem activeLoadSegments_segmentEnd (segmentId : ProgramSegmentId) :
    activeLoadSegments sizes secs segs args (events ++ [.segmentEnd segmentId]) =
      (activeLoadSegments sizes secs segs args events).filter (· ≠ segmentId) := by
  rw [activeLoadSegments, computeSegmentAlignments_concat]
  rfl

theorem activeLoadSegments_segmentStart (segmentId : ProgramSegmentId) :
    activeLoadSegments sizes secs segs args (events ++ [.segmentStart segmentId]) =
      if isLoadSegment segs segmentId then
        activeLoadSegments sizes secs segs args events ++ [segmentId]
      else activeLoadSegments sizes secs segs args events := by
  rw [activeLoadSegments, computeSegmentAlignments_concat, segmentAlignmentEvent]
  split <;> rfl

theorem activeLoadSegments_other {event : OrderEvent}
    (h : ∀ segmentId, event ≠ .segmentStart segmentId ∧ event ≠ .segmentEnd segmentId) :
    activeLoadSegments sizes secs segs args (events ++ [event]) =
      activeLoadSegments sizes secs segs args events := by
  rw [activeLoadSegments, computeSegmentAlignments_concat]
  cases event with
  | segmentStart segmentId => exact absurd rfl (h segmentId).1
  | segmentEnd segmentId => exact absurd rfl (h segmentId).2
  | «section» sectionId => rfl
  | setLocation address => rfl

end

/-! ## Segment alignments cover their sections -/

/-- The alignment that has been computed for a segment. -/
def SegmentAlignments.alignment (acc : SegmentAlignments) (segmentId : ProgramSegmentId) :
    Option Alignment :=
  (acc.segmentAlignments.find? (·.1 = segmentId)).map Prod.snd

theorem find?_map_alignment (entries : List (ProgramSegmentId × Alignment))
    (f : ProgramSegmentId → Alignment → Alignment) (segmentId : ProgramSegmentId) :
    ((entries.map fun (id, alignment) => (id, f id alignment)).find? (·.1 = segmentId)).map
        Prod.snd =
      ((entries.find? (·.1 = segmentId)).map Prod.snd).map (f segmentId) := by
  induction entries with
  | nil => rfl
  | cons entry entries ih =>
    by_cases heq : entry.1 = segmentId
    · simp [heq]
    · simpa [heq] using ih

variable {acc : SegmentAlignments} {alignment : Alignment} {segmentId : ProgramSegmentId}

theorem SegmentAlignments.alignment_le
    (h : acc.alignment segmentId = some alignment) (event : OrderEvent) :
    ∃ larger, (segmentAlignmentEvent sizes secs segs args acc
      event).alignment segmentId = some larger ∧ alignment ≤ larger := by
  cases event with
  | setLocation address => exact ⟨alignment, h, le_refl _⟩
  | segmentEnd ended => exact ⟨alignment, h, le_refl _⟩
  | segmentStart started =>
    refine ⟨alignment, ?_, le_refl _⟩
    rw [segmentAlignmentEvent]
    split
    case isFalse => exact h
    case isTrue =>
      unfold SegmentAlignments.alignment at h ⊢
      simp only
      obtain ⟨entry, hfound, heq⟩ := Option.map_eq_some_iff.1 h
      split
      · exact h
      · rw [List.find?_append, hfound]
        exact congrArg some heq
  | «section» sectionId =>
    have hmap : (segmentAlignmentEvent sizes secs segs args acc
        (.section sectionId)).alignment segmentId =
        (acc.alignment segmentId).map fun alignment =>
          if acc.activeLoadSegments.contains segmentId then
            max alignment (secs.maxAlignment sizes sectionId)
          else alignment := by
      unfold SegmentAlignments.alignment
      rw [← find?_map_alignment acc.segmentAlignments (fun id alignment =>
        if acc.activeLoadSegments.contains id then
          max alignment (secs.maxAlignment sizes sectionId)
        else alignment)]
      unfold segmentAlignmentEvent
      congr 3
      refine List.map_congr_left fun entry _ => ?_
      obtain ⟨id, current⟩ := entry
      simp only
      split <;> rfl
    rw [hmap, h]
    refine ⟨_, rfl, ?_⟩
    split
    · exact Nat.le_max_left _ _
    · exact le_refl _

theorem SegmentAlignments.alignment_le_foldl
    (h : acc.alignment segmentId = some alignment) (events : List OrderEvent) :
    ∃ larger, (events.foldl (segmentAlignmentEvent sizes secs segs args)
      acc).alignment segmentId = some larger ∧ alignment ≤ larger := by
  induction events generalizing acc alignment with
  | nil => exact ⟨alignment, h, le_refl _⟩
  | cons event events ih =>
    obtain ⟨larger, hlarger, hle⟩ := alignment_le h event
    obtain ⟨largest, hlargest, hle'⟩ := ih hlarger
    exact ⟨largest, hlargest, hle.trans hle'⟩

variable {events : List OrderEvent}

theorem exists_alignment_of_mem_active
    (h : segmentId ∈ activeLoadSegments sizes secs segs args events) :
    ∃ alignment, (computeSegmentAlignments sizes secs segs args
      events).alignment segmentId = some alignment := by
  induction events using List.reverseRecOn with
  | nil => cases h
  | append_singleton events event ih =>
    have hkeep : segmentId ∈ activeLoadSegments sizes secs segs args
        events → ∃ alignment, (computeSegmentAlignments sizes secs segs args
          (events ++ [event])).alignment segmentId = some alignment := by
      intro hold
      obtain ⟨alignment, halign⟩ := ih hold
      obtain ⟨larger, hlarger, -⟩ := SegmentAlignments.alignment_le halign event
      rw [computeSegmentAlignments_concat]
      exact ⟨larger, hlarger⟩
    cases event with
    | setLocation address | «section» sectionId =>
      rw [activeLoadSegments_other events (by simp)] at h
      exact hkeep h
    | segmentEnd ended =>
      rw [activeLoadSegments_segmentEnd] at h
      exact hkeep (List.mem_of_mem_filter h)
    | segmentStart started =>
      rw [activeLoadSegments_segmentStart] at h
      split at h
      case isFalse => exact hkeep h
      case isTrue hload =>
        rcases mem_append.1 h with h | h
        · exact hkeep h
        · rw [mem_singleton.1 h, computeSegmentAlignments_concat, segmentAlignmentEvent,
            if_pos hload, SegmentAlignments.alignment]
          simp only
          split
          case isTrue hany =>
            obtain ⟨entry, hentry, heq⟩ := List.any_eq_true.1 hany
            have hfound : ((computeSegmentAlignments sizes secs segs args
                events).segmentAlignments.find? (·.1 = started)).isSome := by
              rw [List.find?_isSome]
              exact ⟨entry, hentry, heq⟩
            obtain ⟨found, hfound⟩ := Option.isSome_iff_exists.1 hfound
            exact ⟨found.2, by rw [hfound]; rfl⟩
          case isFalse hany =>
            have hnone : (computeSegmentAlignments sizes secs segs args
                events).segmentAlignments.find? (·.1 = started) = none := by
              rw [List.find?_eq_none]
              intro entry hentry heq
              exact hany (List.any_eq_true.2 ⟨entry, hentry, heq⟩)
            exact ⟨args.loadableSegmentAlignment, by simp [List.find?_append, hnone]⟩

variable {sectionId : OutputSectionId}

theorem maxAlignment_le_segmentAlignment {order after : List OrderEvent}
    (horder : order = events ++ .section sectionId :: after)
    (h : segmentId ∈ activeLoadSegments sizes secs segs args events) :
    secs.maxAlignment sizes sectionId ≤
      segmentAlignment sizes secs segs args order segmentId := by
  obtain ⟨alignment, halign⟩ := exists_alignment_of_mem_active h
  have hhere : ∃ larger, (computeSegmentAlignments sizes secs segs args
      (events ++ [.section sectionId])).alignment segmentId = some larger ∧
      secs.maxAlignment sizes sectionId ≤ larger := by
    rw [computeSegmentAlignments_concat]
    have hcontains : (computeSegmentAlignments sizes secs segs args
        events).activeLoadSegments.contains segmentId = true := by
      rw [List.contains_iff_mem]
      exact h
    refine ⟨max alignment (secs.maxAlignment sizes sectionId), ?_, Nat.le_max_right _ _⟩
    obtain ⟨entry, hfound, rfl⟩ := Option.map_eq_some_iff.1 halign
    have hmap := find?_map_alignment (computeSegmentAlignments sizes secs
      segs args events).segmentAlignments (fun id alignment =>
        if (computeSegmentAlignments sizes secs segs args
            events).activeLoadSegments.contains id then
          max alignment (secs.maxAlignment sizes sectionId)
        else alignment) segmentId
    rw [hfound, Option.map_some, Option.map_some, if_pos hcontains] at hmap
    rw [← hmap, SegmentAlignments.alignment, segmentAlignmentEvent]
    congr 3
    refine List.map_congr_left fun entry _ => ?_
    obtain ⟨id, current⟩ := entry
    simp only
    split <;> rfl
  obtain ⟨larger, hlarger, hle⟩ := hhere
  obtain ⟨largest, hlargest, hle'⟩ := SegmentAlignments.alignment_le_foldl hlarger after
  have hsplit : computeSegmentAlignments sizes secs segs args order =
      after.foldl (segmentAlignmentEvent sizes secs segs args)
        (computeSegmentAlignments sizes secs segs args (events ++ [.section sectionId])) := by
    rw [horder, computeSegmentAlignments, computeSegmentAlignments, ← foldl_append,
      List.append_assoc, List.singleton_append]
  rw [← hsplit, SegmentAlignments.alignment] at hlargest
  obtain ⟨⟨id, found⟩, hfound, rfl⟩ := Option.map_eq_some_iff.1 hlargest
  rw [segmentAlignment, hfound]
  exact hle.trans hle'

/-! ## The distance between memory and file -/

variable {delta : ℤ}

theorem alignUp_add {memOffset fileOffset : ℕ}
    (h : (memOffset : ℤ) = fileOffset + delta) (hdvd : (alignment.value : ℤ) ∣ delta) :
    (alignment.alignUp memOffset : ℤ) = alignment.alignUp fileOffset + delta := by
  obtain ⟨count, rfl | rfl⟩ := Int.eq_nat_or_neg delta
  · have hnat : memOffset = fileOffset + count := by omega
    rw [hnat, Alignment.alignUp, nextMultipleOf_add (Int.natCast_dvd_natCast.1 hdvd)]
    exact Nat.cast_add _ _
  · have hnat : fileOffset = memOffset + count := by omega
    have hdvd' : alignment.value ∣ count := Int.natCast_dvd_natCast.1 ((Int.dvd_neg).1 hdvd)
    rw [hnat, Alignment.alignUp, Alignment.alignUp, nextMultipleOf_add hdvd']
    omega

variable {partId : PartId} {state : LayoutState}

theorem placeSection_recordsOut (h : partId.outputSectionId ≠ sectionId) :
    (placeSection sizes secs args state sectionId).recordsOut partId = state.recordsOut partId := by
  refine @forall_placeSection sizes secs args
    (fun _ state' => state'.recordsOut partId = state.recordsOut partId) [] state sectionId
    ?_ ?_ sectionId.nodup_parts
  · exact congrFun (@startSection_recordsOut secs sectionId state).1 partId
  · intro done state₁ other state₂ record hstate hother _ hplaced
    have hne : partId ≠ other := by
      rintro rfl
      exact h hother
    rw [hplaced.recordsOut, update_of_ne hne]
    exact hstate

theorem Placed.distance {maxAlignment : Alignment}
    {state' : LayoutState} {record : OutputRecordLayout}
    (hplaced : Placed sizes secs args sectionId maxAlignment partId state state' record)
    (hreloc : args.shouldOutputPartialObject = false) (halloc : IsAlloc secs sectionId)
    (hdvd : (maxAlignment.value : ℤ) ∣ delta)
    (hdelta : (state.memOffset : ℤ) = state.fileOffset + delta) :
    (record.memOffset : ℤ) = record.fileOffset + delta ∧
      (record.fileSize = record.memSize → (state'.memOffset : ℤ) = state'.fileOffset + delta) := by
  obtain ⟨hmem, hmem', -, -⟩ := hplaced.alloc hreloc halloc
  have hle : record.alignment ≤ maxAlignment := by
    rw [hplaced.alignment]
    exact Nat.min_le_right _ _
  have hvalue : (record.alignment.value : ℤ) ∣ maxAlignment.value :=
    Int.natCast_dvd_natCast.2 (Alignment.value_dvd_value hle)
  have hrecord : (record.memOffset : ℤ) = record.fileOffset + delta := by
    rw [hmem, hplaced.fileOffset]
    exact alignUp_add hdelta (hvalue.trans hdvd)
  refine ⟨hrecord, ?_⟩
  intro hsize
  rw [hplaced.fileOffset']
  omega

theorem placeSection_distance
    (hreloc : args.shouldOutputPartialObject = false) (halloc : IsAlloc secs sectionId)
    (hdvd : ((secs.maxAlignment sizes sectionId).value : ℤ) ∣ delta)
    (hdelta : ((startSection secs sectionId state).memOffset : ℤ) =
      state.fileOffset + delta) (hclean : ¬ MemoryOnly sizes secs sectionId) :
    ((placeSection sizes secs args state sectionId).memOffset : ℤ) =
        (placeSection sizes secs args state sectionId).fileOffset + delta ∧
      ∀ partId ∈ sectionId.parts, (((placeSection sizes secs args state sectionId).recordsOut
            partId).memOffset : ℤ) =
          ((placeSection sizes secs args state sectionId).recordsOut
            partId).fileOffset + delta := by
  have hsizes : secs.hasDataInFile (secs.primaryOutputSection sectionId) =
      false → sectionId ≠ relroPadding ∧ ∀ partId ∈ sectionId.parts, sizes partId = 0 := by
    intro hdata
    refine ⟨fun heq => hclean ⟨hdata, .inl heq⟩, ?_⟩
    intro partId hpart
    by_contra hsize
    exact hclean ⟨hdata, .inr ⟨partId, hpart, hsize⟩⟩
  refine @forall_placeSection sizes secs args
    (fun done state' => (state'.memOffset : ℤ) = state'.fileOffset + delta ∧
      ∀ partId ∈ done, ((state'.recordsOut partId).memOffset : ℤ) =
        (state'.recordsOut partId).fileOffset + delta) [] state sectionId ?_ ?_
    sectionId.nodup_parts
  · refine ⟨?_, by simp⟩
    rw [(@startSection_recordsOut secs sectionId state).2.1]
    exact hdelta
  · rintro done state₁ partId state₂ record ⟨hstate, hdone⟩ hpart hnew hplaced
    obtain ⟨hrecord, hnext⟩ := hplaced.distance hreloc halloc hdvd hstate
    obtain ⟨-, -, hmemSize, hfileSize⟩ := hplaced.alloc hreloc halloc
    have hsame : record.fileSize = record.memSize := by
      rw [hfileSize]
      split
      case isTrue => rfl
      case isFalse hdata =>
        obtain ⟨hne, hzero⟩ := hsizes (by simpa using hdata)
        rw [hmemSize, partMemSize, if_neg hne, hzero partId (OutputSectionId.mem_parts.2 hpart)]
    refine ⟨hnext hsame, ?_⟩
    intro other hother
    rw [hplaced.recordsOut]
    rcases mem_append.1 hother with hold | hhere
    · have hne : other ≠ partId := by
        rintro rfl
        exact hnew hold
      rw [update_of_ne hne]
      exact hdone other hold
    · rw [mem_singleton.1 hhere, update_self]
      exact hrecord

/-! ## Phases -/

variable (sizes secs segs args) in
/-- After some events of an order: the distance of every active LOAD segment
that no section without data has changed, and of the parts in it. -/
structure Phase (order events : List OrderEvent) (delta : ProgramSegmentId → ℤ) : Prop where
  dvd : ∀ segmentId, ((segmentAlignment sizes secs segs args order
    segmentId).value : ℤ) ∣ delta segmentId
  active : ∀ segmentId ∈ activeLoadSegments sizes secs segs args events,
    (∀ sectionId, (segmentId, sectionId) ∈ loadSections sizes secs segs args
      events → ¬ MemoryOnly sizes secs sectionId) →
    ((layoutEvents sizes secs segs args order events).memOffset : ℤ) =
      (layoutEvents sizes secs segs args order events).fileOffset +
        delta segmentId
  placed : ∀ before segmentId sectionId after,
    loadSections sizes secs segs args events =
      before ++ (segmentId, sectionId) :: after →
    secs.hasDataInFile (secs.primaryOutputSection sectionId) = true →
    (∀ earlier, (segmentId, earlier) ∈ before → ¬ MemoryOnly sizes secs earlier) →
    ∀ partId ∈ sectionId.parts,
      (((layoutEvents sizes secs segs args order events).recordsOut
          partId).memOffset : ℤ) =
        ((layoutEvents sizes secs segs args order events).recordsOut
          partId).fileOffset + delta segmentId

theorem layoutEvents_concat (order events : List OrderEvent) (event : OrderEvent) :
    layoutEvents sizes secs segs args order (events ++ [event]) = layoutEvent sizes secs segs args
        (segmentAlignment sizes secs segs args order)
        (layoutEvents sizes secs segs args order events) event := by
  rw [layoutEvents, foldl_append]
  rfl

theorem startLoadSegment_dvd (alignment : Alignment) (state : LayoutState) :
    (alignment.value : ℤ) ∣ ((startLoadSegment alignment state).memOffset : ℤ) -
      (startLoadSegment alignment state).fileOffset := by
  unfold startLoadSegment
  split
  case h_1 address _ =>
    exact (Nat.modEq_iff_dvd.1 (alignment.alignModulo_modEq address state.fileOffset))
  case h_2 =>
    exact (Nat.modEq_iff_dvd.1 (alignment.alignModulo_modEq state.fileOffset state.memOffset).symm)

theorem mem_sectionIds_of_mem_loadSections
    (h : (segmentId, sectionId) ∈ loadSections sizes secs segs args events) :
    sectionId ∈ sectionIds events := by
  induction events using List.reverseRecOn with
  | nil => cases h
  | append_singleton events event ih =>
    rw [loadSections_concat, mem_append] at h
    rw [sectionIds, List.filterMap_append, mem_append]
    rcases h with h | h
    · exact .inl (ih h)
    · refine .inr (List.mem_filterMap.2 ⟨event, List.mem_singleton_self _, ?_⟩)
      cases event with
      | «section» placed =>
        obtain ⟨_, -, heq⟩ := mem_map.1 h
        cases heq
        rfl
      | segmentStart => cases h
      | segmentEnd => cases h
      | setLocation => cases h

namespace Phase

variable {order events : List OrderEvent} {delta : ProgramSegmentId → ℤ}

section

variable (h : Phase sizes secs segs args order events delta)

include h

theorem keep {event : OrderEvent} (hsecs : ∀ active, eventSections active event = [])
    (hactive : activeLoadSegments sizes secs segs args (events ++ [event]) ⊆
      activeLoadSegments sizes secs segs args events)
    (hstate : ∀ state : LayoutState, ∃ pending, layoutEvent sizes secs segs
      args (segmentAlignment sizes secs segs args order) state event =
        { state with pendingLocation := pending }) :
    Phase sizes secs segs args order (events ++ [event]) delta := by
  obtain ⟨pending, hpend⟩ := hstate (layoutEvents sizes secs segs args order events)
  have hsame : loadSections sizes secs segs args (events ++ [event]) =
      loadSections sizes secs segs args events := by
    rw [loadSections_concat, hsecs, append_nil]
  refine ⟨h.dvd, ?_, ?_⟩
  · intro segmentId hmem hclean
    rw [hsame] at hclean
    rw [layoutEvents_concat, hpend]
    exact h.active segmentId (hactive hmem) hclean
  · intro before segmentId sectionId after hsplit hdata hclean partId hpart
    rw [hsame] at hsplit
    rw [layoutEvents_concat, hpend]
    exact h.placed before segmentId sectionId after hsplit hdata hclean partId hpart

theorem startLoad {segmentId : ProgramSegmentId} (hload : isLoadSegment segs segmentId = true)
    (hactive : activeLoadSegments sizes secs segs args events = [])
    (hfresh : ∀ sectionId, (segmentId, sectionId) ∉ loadSections sizes secs segs args events) :
    ∃ delta', Phase sizes secs segs args order (events ++ [.segmentStart segmentId]) delta' := by
  let alignment := segmentAlignment sizes secs segs args order segmentId
  let state := layoutEvents sizes secs segs args order events
  let state' := startLoadSegment alignment state
  have hstate : layoutEvents sizes secs segs args order
      (events ++ [.segmentStart segmentId]) = state' := by
    rw [layoutEvents_concat, layoutEvent, if_pos hload]
  have hsame : loadSections sizes secs segs args (events ++ [.segmentStart segmentId]) =
      loadSections sizes secs segs args events := by
    rw [loadSections_concat]
    exact append_nil _
  have hne : ∀ other sectionId, (other, sectionId) ∈
      loadSections sizes secs segs args events → other ≠ segmentId := by
    rintro other sectionId hmem rfl
    exact hfresh sectionId hmem
  refine ⟨Function.update delta segmentId ((state'.memOffset : ℤ) - state'.fileOffset), ?_, ?_, ?_⟩
  · intro other
    by_cases heq : other = segmentId
    · rw [heq, update_self]
      exact startLoadSegment_dvd alignment state
    · rw [update_of_ne heq]
      exact h.dvd other
  · intro other hmem _
    rw [activeLoadSegments_segmentStart, if_pos hload, hactive, List.nil_append,
      mem_singleton] at hmem
    rw [hstate, hmem, update_self]
    omega
  · intro before other sectionId after hsplit hdata hclean partId hpart
    rw [hsame] at hsplit
    rw [hstate, update_of_ne (hne other sectionId (by rw [hsplit]; simp)),
      (startLoadSegment_recordsOut alignment state).1]
    exact h.placed before other sectionId after hsplit hdata hclean partId hpart

theorem placeSection (hreloc : args.shouldOutputPartialObject = false) {sectionId : OutputSectionId}
    {rest : List OrderEvent} (horder : order = events ++ .section sectionId :: rest)
    (hnew : sectionId ∉ sectionIds events)
    (hload : activeLoadSegments sizes secs segs args events = [] ∨ IsAlloc secs sectionId ∧
        ∀ address ∈ (secs.outputInfo sectionId).location,
          (layoutEvents sizes secs segs args order events).memOffset = address) :
    Phase sizes secs segs args order (events ++ [.section sectionId])
      delta := by
  let state := layoutEvents sizes secs segs args order events
  let active := activeLoadSegments sizes secs segs args events
  have hstate : layoutEvents sizes secs segs args order (events ++ [.section sectionId]) =
      Layout.placeSection sizes secs args state sectionId := by
    rw [layoutEvents_concat, layoutEvent]
  have hsecs : loadSections sizes secs segs args (events ++ [.section sectionId]) =
      loadSections sizes secs segs args events ++
        active.map fun segmentId => (segmentId, sectionId) := by
    rw [loadSections_concat, eventSections]
  have hactive : activeLoadSegments sizes secs segs args
      (events ++ [.section sectionId]) = active :=
    activeLoadSegments_other events (by simp)
  -- What the section does to a segment that still has its distance.
  have hhere : ∀ segmentId ∈ active, ¬ MemoryOnly sizes secs sectionId →
      (∀ earlier, (segmentId, earlier) ∈ loadSections sizes secs segs args
        events → ¬ MemoryOnly sizes secs earlier) →
      ((Layout.placeSection sizes secs args state sectionId).memOffset : ℤ) =
          (Layout.placeSection sizes secs args state sectionId).fileOffset + delta segmentId ∧
        ∀ partId ∈ sectionId.parts,
          (((Layout.placeSection sizes secs args state sectionId).recordsOut
              partId).memOffset : ℤ) =
            ((Layout.placeSection sizes secs args state sectionId).recordsOut
              partId).fileOffset + delta segmentId := by
    intro segmentId hmem hbytes hclean
    obtain hnone | ⟨halloc, hloc⟩ := hload
    · rw [show active = [] from hnone] at hmem
      cases hmem
    · refine placeSection_distance hreloc halloc ?_ ?_ hbytes
      · have hvalue := Alignment.value_dvd_value (maxAlignment_le_segmentAlignment horder hmem)
        exact (Int.natCast_dvd_natCast.2 hvalue).trans (h.dvd segmentId)
      · have hstart : (startSection secs sectionId state).memOffset =
            state.memOffset := by
          unfold startSection
          split
          case h_1 address heq => exact (hloc address heq).symm
          case h_2 => rfl
        rw [hstart]
        exact h.active segmentId hmem hclean
  refine ⟨h.dvd, ?_, ?_⟩
  · intro segmentId hmem hclean
    rw [hactive] at hmem
    rw [hsecs] at hclean
    rw [hstate]
    refine (hhere segmentId hmem (hclean sectionId ?_) ?_).1
    · exact List.mem_append_right _ (mem_map.2 ⟨segmentId, hmem, rfl⟩)
    · exact fun earlier hearlier => hclean earlier (List.mem_append_left _ hearlier)
  · intro before segmentId placed after hsplit hdata hclean partId hpart
    rw [hsecs] at hsplit
    rw [hstate]
    -- The section is one of the event's.
    have hlast (hmem : (segmentId, placed) ∈ active.map fun segmentId => (segmentId, sectionId))
        (hbefore : ∀ other ∈ loadSections sizes secs segs args events, other ∈ before) :
        (((Layout.placeSection sizes secs args state sectionId).recordsOut partId).memOffset : ℤ) =
          ((Layout.placeSection sizes secs args state sectionId).recordsOut partId).fileOffset +
            delta segmentId := by
      obtain ⟨_, hactive, heq⟩ := mem_map.1 hmem
      cases heq
      refine (hhere segmentId hactive ?_ ?_).2 partId hpart
      · rintro ⟨hnone, -⟩
        rw [hdata] at hnone
        cases hnone
      · exact fun earlier hearlier => hclean earlier (hbefore _ hearlier)
    obtain ⟨older, hbefore, hmap⟩ | ⟨newer, hbefore, hafter⟩ := List.append_eq_append_iff.1 hsplit
    · refine hlast (by rw [hmap]; simp) ?_
      rw [hbefore]
      exact fun other => List.mem_append_left _
    · cases newer with
      | nil =>
        rw [List.nil_append] at hafter
        rw [append_nil] at hbefore
        refine hlast (by rw [← hafter]; exact List.mem_cons_self) ?_
        rw [hbefore]
        exact fun other => id
      | cons first newer =>
        obtain ⟨rfl, -⟩ := List.cons_eq_cons.1 hafter
        have hold : placed ≠ sectionId := by
          rintro rfl
          have hmem : (segmentId, placed) ∈
              loadSections sizes secs segs args events := by
            rw [hbefore]
            simp
          exact hnew (mem_sectionIds_of_mem_loadSections hmem)
        rw [placeSection_recordsOut (by rw [OutputSectionId.mem_parts.1 hpart]; exact hold)]
        exact h.placed before segmentId placed newer hbefore hdata hclean partId hpart

end

end Phase

end

end Sld.Layout
