/-
# `Layout.OrderBuilding` — segments of a built order

At every section of a built order at most one LOAD segment is active: one that
includes the section.  A LOAD segment starts only when none is active, and a
section with a location starts the segment that it is in.
-/
import Sld.Layout.LoadSegments

namespace Sld.Layout

open List (append_assoc append_nil length_map map_append map_cons map_fst_zip map_singleton
  mem_cons mem_cons_of_mem mem_cons_self mem_filter mem_map of_mem_zip)
open OutputSections (mergeTarget primaryOutputSection shouldIncludeInSegment)

section

variable {sizes : PartId → ℕ} {secs : OutputSections}
  {segs : List ProgramSegmentDef} {args : LayoutArgs}
  {secondary : OutputSectionId → List OutputSectionId}

/-! ## Kinds of segments -/

theorem nodup_programSegmentDefs : programSegmentDefs.Nodup := by decide

variable {sectionId : OutputSectionId} {segmentDef : ProgramSegmentDef}

theorem eq_of_include_of_isLoadable {segmentDef' : ProgramSegmentDef}
    (h : secs.shouldIncludeInSegment sectionId segmentDef = true)
    (h' : secs.shouldIncludeInSegment sectionId segmentDef' = true)
    (hload : segmentDef.isLoadable = true) (hload' : segmentDef'.isLoadable = true) :
    segmentDef = segmentDef' := by
  obtain ⟨segmentType, isWritable, isExecutable⟩ := segmentDef
  obtain ⟨segmentType', isWritable', isExecutable'⟩ := segmentDef'
  simp only [ProgramSegmentDef.isLoadable, decide_eq_true_eq] at hload hload'
  subst hload hload'
  simp only [shouldIncludeInSegment, Bool.and_eq_true, beq_iff_eq] at h h'
  rw [← h.1.2, ← h.2, ← h'.1.2, ← h'.2]

theorem alloc_of_include (h : secs.shouldIncludeInSegment sectionId segmentDef = true)
    (hload : segmentDef.isLoadable = true) :
    (secs.sectionFlags sectionId).alloc = true := by
  obtain ⟨segmentType, isWritable, isExecutable⟩ := segmentDef
  simp only [ProgramSegmentDef.isLoadable, decide_eq_true_eq] at hload
  subst hload
  simp only [shouldIncludeInSegment, Bool.and_eq_true] at h
  exact h.1.1

/-! ## Starting and stopping segments -/

open OutputOrderBuilder

/-- What starting and stopping segments for a section adds: the ids that stop,
the kinds that start and what is active then. -/
structure SegmentChanges (secs : OutputSections) (sectionId : OutputSectionId)
    (kinds : List (ProgramSegmentDef × Option ProgramSegmentId)) (base : ℕ)
    (stopped : List ProgramSegmentId) (started : List ProgramSegmentDef)
    (active : List (Option ProgramSegmentId)) : Prop where
  length_active : active.length = kinds.length
  of_active : ∀ segmentDef segmentId,
    (segmentDef, some segmentId) ∈ (kinds.map Prod.fst).zip active →
      secs.shouldIncludeInSegment sectionId segmentDef = true ∧
        ((segmentDef, some segmentId) ∈ kinds ∨
          ∃ i, segmentId = base + i ∧ started[i]? = some segmentDef)
  of_kinds : ∀ segmentDef segmentId, (segmentDef, some segmentId) ∈ kinds →
    segmentId ∈ stopped ∨
      secs.shouldIncludeInSegment sectionId segmentDef = true ∧
        (segmentDef, some segmentId) ∈ (kinds.map Prod.fst).zip active
  of_started : ∀ i segmentDef, started[i]? = some segmentDef → (segmentDef, none) ∈ kinds ∧
    secs.shouldIncludeInSegment sectionId segmentDef = true ∧
      (segmentDef, some (base + i)) ∈ (kinds.map Prod.fst).zip active
  sublist_started : started.Sublist (kinds.map Prod.fst)

namespace SegmentChanges

variable {sectionId : OutputSectionId}
  {kinds : List (ProgramSegmentDef × Option ProgramSegmentId)} {base : ℕ}
  {stopped stopped' : List ProgramSegmentId} {started : List ProgramSegmentDef}
  {active : List (Option ProgramSegmentId)} {segmentDef : ProgramSegmentDef}

theorem cons {activeId newId : Option ProgramSegmentId}
    (h : SegmentChanges secs sectionId kinds base stopped started active)
    (hstopped : ∀ segmentId ∈ stopped, segmentId ∈ stopped')
    (hnew : ∀ segmentId ∈ newId, segmentId ∈ activeId ∧
      secs.shouldIncludeInSegment sectionId segmentDef = true)
    (hold : ∀ segmentId ∈ activeId, segmentId ∈ stopped' ∨ segmentId ∈ newId) :
    SegmentChanges secs sectionId ((segmentDef, activeId) :: kinds) base stopped' started
      (newId :: active) where
  length_active := by simp [h.length_active]
  of_active otherDef segmentId hmem := by
    rcases mem_cons.1 hmem with hhead | htail
    · cases hhead
      obtain ⟨hactive, hincl⟩ := hnew segmentId rfl
      exact ⟨hincl, .inl (by rw [hactive]; exact mem_cons_self)⟩
    · obtain ⟨hincl, hkinds | hstarted⟩ := h.of_active otherDef segmentId htail
      · exact ⟨hincl, .inl (mem_cons_of_mem _ hkinds)⟩
      · exact ⟨hincl, .inr hstarted⟩
  of_kinds otherDef segmentId hmem := by
    rcases mem_cons.1 hmem with hhead | htail
    · cases hhead
      obtain hstop | hkeep := hold segmentId rfl
      · exact .inl hstop
      · obtain ⟨-, hincl⟩ := hnew segmentId hkeep
        exact .inr ⟨hincl, by rw [hkeep]; exact mem_cons_self⟩
    · obtain hstop | ⟨hincl, hactive⟩ := h.of_kinds otherDef segmentId htail
      · exact .inl (hstopped segmentId hstop)
      · exact .inr ⟨hincl, mem_cons_of_mem _ hactive⟩
  of_started i otherDef hstarted := by
    obtain ⟨hkinds, hincl, hactive⟩ := h.of_started i otherDef hstarted
    exact ⟨mem_cons_of_mem _ hkinds, hincl, mem_cons_of_mem _ hactive⟩
  sublist_started := h.sublist_started.cons _

theorem cons_started (h : SegmentChanges secs sectionId kinds (base + 1) stopped started active)
    (hincl : secs.shouldIncludeInSegment sectionId segmentDef = true) :
    SegmentChanges secs sectionId ((segmentDef, none) :: kinds) base stopped
      (segmentDef :: started) (some base :: active) where
  length_active := by simp [h.length_active]
  of_active otherDef segmentId hmem := by
    rcases mem_cons.1 hmem with hhead | htail
    · cases hhead
      exact ⟨hincl, .inr ⟨0, rfl, rfl⟩⟩
    · obtain ⟨hother, hkinds | ⟨i, rfl, hstarted⟩⟩ := h.of_active otherDef segmentId htail
      · exact ⟨hother, .inl (mem_cons_of_mem _ hkinds)⟩
      · exact ⟨hother, .inr ⟨i + 1, by ring, hstarted⟩⟩
  of_kinds otherDef segmentId hmem := by
    rcases mem_cons.1 hmem with hhead | htail
    · cases hhead
    · obtain hstop | ⟨hother, hactive⟩ := h.of_kinds otherDef segmentId htail
      · exact .inl hstop
      · exact .inr ⟨hother, mem_cons_of_mem _ hactive⟩
  of_started i otherDef hstarted := by
    cases i with
    | zero =>
      cases hstarted
      exact ⟨mem_cons_self, hincl, mem_cons_self⟩
    | succ i =>
      obtain ⟨hkinds, hother, hactive⟩ := h.of_started i otherDef hstarted
      rw [show base + (i + 1) = base + 1 + i by ring]
      exact ⟨mem_cons_of_mem _ hkinds, hother, mem_cons_of_mem _ hactive⟩
  sublist_started := h.sublist_started.cons_cons _

end SegmentChanges

theorem startStopKind_foldl (sectionId : OutputSectionId)
    (kinds : List (ProgramSegmentDef × Option ProgramSegmentId)) (acc : StartStop) :
    ∃ stopped started active, kinds.foldl (startStopKind secs sectionId) acc =
        ⟨acc.stop ++ stopped, acc.start ++ List.range' acc.programSegments.length started.length,
          acc.programSegments ++ started, acc.activeSegmentKinds ++ active⟩ ∧
      SegmentChanges secs sectionId kinds acc.programSegments.length stopped started
        active := by
  induction kinds generalizing acc with
  | nil => exact ⟨[], [], [], by simp, ⟨rfl, by simp, by simp, by simp, List.Sublist.refl _⟩⟩
  | cons kind kinds ih =>
    obtain ⟨segmentDef, activeId⟩ := kind
    obtain ⟨stopped, started, active, heq, hchanges⟩ :=
      ih (startStopKind secs sectionId acc (segmentDef, activeId))
    rw [List.foldl_cons, heq]
    cases hinclude : secs.shouldIncludeInSegment sectionId segmentDef with
    | true =>
      cases activeId with
      | none =>
        simp only [startStopKind, hinclude, List.length_append, List.length_singleton]
          at hchanges ⊢
        refine ⟨stopped, segmentDef :: started, some acc.programSegments.length :: active,
          ?_, hchanges.cons_started hinclude⟩
        simp [List.range'_succ]
      | some activeId =>
        simp only [startStopKind, hinclude] at hchanges ⊢
        exact ⟨stopped, started, some activeId :: active, by simp,
          hchanges.cons (fun _ h => h) (fun _ h => ⟨h, hinclude⟩) fun _ h => .inr h⟩
    | false =>
      cases activeId with
      | none =>
        simp only [startStopKind, hinclude] at hchanges ⊢
        exact ⟨stopped, started, none :: active, by simp,
          hchanges.cons (fun _ h => h) (by simp) (by simp)⟩
      | some activeId =>
        simp only [startStopKind, hinclude] at hchanges ⊢
        exact ⟨activeId :: stopped, started, none :: active, by simp,
          hchanges.cons (fun _ h => mem_cons_of_mem _ h) (by simp) (by simp)⟩

theorem eq_of_mem_pairs {α β : Type*} {pairs : List (α × β)} (hnodup : (pairs.map Prod.fst).Nodup)
    {a : α} {b b' : β} (h : (a, b) ∈ pairs) (h' : (a, b') ∈ pairs) : b = b' :=
  (Prod.mk.inj (List.inj_on_of_nodup_map hnodup h h' rfl)).2

/-- The segments that a primary section stops and starts: `kinds` is what is
active once a location has ended everything. -/
structure Transition (secs : OutputSections) (builder : OutputOrderBuilder)
    (sectionId : OutputSectionId) (kinds : List (ProgramSegmentDef × Option ProgramSegmentId))
    (stop : List ProgramSegmentId) (started : List ProgramSegmentDef)
    (active : List (Option ProgramSegmentId)) : Prop where
  changes : SegmentChanges secs sectionId kinds builder.programSegments.length stop started
    active
  fst_kinds : kinds.map Prod.fst = programSegmentDefs
  of_kinds : ∀ segmentDef segmentId, (segmentDef, some segmentId) ∈ kinds →
    (secs.outputInfo sectionId).location = none ∧
      (segmentDef, some segmentId) ∈ programSegmentDefs.zip builder.activeSegmentKinds
  of_active : ∀ segmentDef segmentId,
    (segmentDef, some segmentId) ∈ programSegmentDefs.zip builder.activeSegmentKinds →
      segmentId ∈ stop ∨ (segmentDef, some segmentId) ∈ kinds

theorem exists_transition (self : OutputOrderBuilder)
    (hlen : self.activeSegmentKinds.length = programSegmentDefs.length)
    (hprimary : (secs.outputInfo sectionId).kind = .primary) :
    ∃ kinds stop started active, self.startStopSegmentsForSection secs false sectionId =
        ⟨stop, List.range' self.programSegments.length started.length,
          self.programSegments ++ started, active⟩ ∧
      Transition secs self sectionId kinds stop started active := by
  have hmerge : secs.mergeTarget sectionId = none := by
    rw [mergeTarget, hprimary]
  unfold startStopSegmentsForSection
  rw [hmerge]
  cases hloc : (secs.outputInfo sectionId).location with
  | none =>
    obtain ⟨stopped, started, active, heq, hchanges⟩ := @startStopKind_foldl secs
      sectionId (programSegmentDefs.zip self.activeSegmentKinds) ⟨[], [], self.programSegments, []⟩
    refine ⟨_, stopped, started, active, heq, hchanges, ?_, ?_, ?_⟩
    · exact map_fst_zip hlen.ge
    · exact fun _ _ hmem => ⟨hloc, hmem⟩
    · exact fun _ _ hmem => .inr hmem
  | some address =>
    obtain ⟨stopped, started, active, heq, hchanges⟩ := @startStopKind_foldl secs
      sectionId (programSegmentDefs.zip (self.activeSegmentKinds.map fun _ => none))
      ⟨self.activeSegmentKinds.filterMap id, [], self.programSegments, []⟩
    have hnone : ∀ (segmentDef : ProgramSegmentDef) (segmentId : ProgramSegmentId),
        (segmentDef, some segmentId) ∉ programSegmentDefs.zip (self.activeSegmentKinds.map fun _ => none) := by
      intro segmentDef segmentId hmem
      obtain ⟨_, -, heq⟩ := mem_map.1 (of_mem_zip hmem).2
      cases heq
    refine ⟨_, self.activeSegmentKinds.filterMap id ++ stopped, started, active, heq,
      { hchanges with of_kinds := fun _ _ hmem => absurd hmem (hnone _ _) }, ?_, ?_, ?_⟩
    · exact map_fst_zip (by rw [length_map]; exact hlen.ge)
    · exact fun _ _ hmem => absurd hmem (hnone _ _)
    · intro segmentDef segmentId hmem
      refine .inl (List.mem_append_left _ ?_)
      exact List.mem_filterMap.2 ⟨some segmentId, (of_mem_zip hmem).2, rfl⟩

/-! ## Events that place nothing -/

theorem loadSections_append (events : List OrderEvent) {events' : List OrderEvent}
    (h : sectionIds events' = []) :
    loadSections sizes secs segs args (events ++ events') =
      loadSections sizes secs segs args events := by
  induction events' using List.reverseRecOn with
  | nil => rw [append_nil]
  | append_singleton events' event ih =>
    rw [sectionIds, List.filterMap_append, List.append_eq_nil_iff] at h
    have hevent : ∀ active, eventSections active event = [] := by
      intro active
      cases event with
      | «section» sectionId => cases h.2
      | segmentStart => rfl
      | segmentEnd => rfl
      | setLocation => rfl
    rw [← append_assoc, loadSections_concat, hevent, append_nil, ih h.1]

@[simp] theorem sectionIds_segmentEnd (segmentIds : List ProgramSegmentId) :
    sectionIds (segmentIds.map .segmentEnd) = [] := by
  simp [sectionIds, OrderEvent.sectionId]

@[simp] theorem sectionIds_segmentStart (segmentIds : List ProgramSegmentId) :
    sectionIds (segmentIds.map .segmentStart) = [] := by
  simp [sectionIds, OrderEvent.sectionId]

@[simp] theorem sectionIds_append (events events' : List OrderEvent) :
    sectionIds (events ++ events') = sectionIds events ++ sectionIds events' :=
  List.filterMap_append

@[simp] theorem sectionIds_section (sectionIds' : List OutputSectionId) :
    sectionIds (sectionIds'.map .section) = sectionIds' := by
  induction sectionIds' with
  | nil => rfl
  | cons sectionId sectionIds' ih => exact congrArg (sectionId :: ·) ih

theorem activeLoadSegments_ends (events : List OrderEvent) (segmentIds : List ProgramSegmentId) :
    activeLoadSegments sizes secs segs args (events ++ segmentIds.map .segmentEnd) =
      (activeLoadSegments sizes secs segs args events).filter (· ∉ segmentIds) := by
  induction segmentIds using List.reverseRecOn with
  | nil => simp
  | append_singleton segmentIds segmentId ih =>
    rw [map_append, ← append_assoc, map_singleton, activeLoadSegments_segmentEnd,
      ih, List.filter_filter]
    refine List.filter_congr fun other _ => ?_
    simp [and_comm]

theorem activeLoadSegments_starts (events : List OrderEvent) (segmentIds : List ProgramSegmentId) :
    activeLoadSegments sizes secs segs args (events ++ segmentIds.map .segmentStart) =
      activeLoadSegments sizes secs segs args events ++ segmentIds.filter (isLoadSegment segs) := by
  induction segmentIds using List.reverseRecOn with
  | nil => simp
  | append_singleton segmentIds segmentId ih =>
    rw [map_append, ← append_assoc, map_singleton,
      activeLoadSegments_segmentStart, ih, List.filter_append]
    cases hload : isLoadSegment segs segmentId <;> simp [hload]

theorem activeLoadSegments_sections (events : List OrderEvent)
    (sectionIds' : List OutputSectionId) :
    activeLoadSegments sizes secs segs args (events ++ sectionIds'.map .section) =
      activeLoadSegments sizes secs segs args events := by
  induction sectionIds' using List.reverseRecOn with
  | nil => simp
  | append_singleton sectionIds' sectionId ih =>
    rw [map_append, ← append_assoc, map_singleton, activeLoadSegments_other _ (by simp), ih]

variable {segmentId : ProgramSegmentId}

theorem mem_loadSections_sections {events : List OrderEvent} {sectionIds' : List OutputSectionId}
    (h : (segmentId, sectionId) ∈ loadSections sizes secs segs args
      (events ++ sectionIds'.map .section)) :
    (segmentId, sectionId) ∈ loadSections sizes secs segs args events ∨
      segmentId ∈ activeLoadSegments sizes secs segs args events := by
  induction sectionIds' using List.reverseRecOn with
  | nil => exact .inl (by simpa using h)
  | append_singleton sectionIds' other ih =>
    rw [map_append, ← append_assoc, map_singleton, loadSections_concat,
      List.mem_append, activeLoadSegments_sections] at h
    rcases h with hold | hnew
    · exact ih hold
    · obtain ⟨_, hmem, heq⟩ := mem_map.1 hnew
      cases heq
      exact .inr hmem

theorem activeLoadSegments_location (events : List OrderEvent) (sectionId : OutputSectionId) :
    activeLoadSegments sizes secs segs args (events ++ locationEvents secs sectionId) =
      activeLoadSegments sizes secs segs args events := by
  unfold locationEvents
  split
  · split
    · exact activeLoadSegments_other events (by simp)
    · rw [append_nil]
  · rw [append_nil]

@[simp] theorem sectionIds_location (sectionId : OutputSectionId) :
    sectionIds (locationEvents secs sectionId) = [] := by
  unfold locationEvents
  split
  · split <;> rfl
  · rfl

namespace Phase

variable {order events : List OrderEvent} {delta : ProgramSegmentId → ℤ}

variable (h : Phase sizes secs segs args order events delta)

include h

theorem ends (segmentIds : List ProgramSegmentId) :
    Phase sizes secs segs args order (events ++ segmentIds.map .segmentEnd) delta := by
  induction segmentIds using List.reverseRecOn with
  | nil => simpa using h
  | append_singleton segmentIds segmentId ih =>
    rw [map_append, ← append_assoc]
    refine ih.keep (fun _ => rfl) ?_ (fun state => ⟨state.pendingLocation, rfl⟩)
    rw [activeLoadSegments_segmentEnd]
    exact List.filter_subset_self _

theorem location (sectionId : OutputSectionId) :
    Phase sizes secs segs args order (events ++ locationEvents secs sectionId) delta := by
  have hactive : activeLoadSegments sizes secs segs args (events ++ locationEvents secs sectionId) =
      activeLoadSegments sizes secs segs args events :=
    activeLoadSegments_location events sectionId
  revert hactive
  unfold locationEvents
  split
  · split
    · intro hactive
      exact h.keep (fun _ => rfl) (fun _ hmem => hactive ▸ hmem) (fun _ => ⟨_, rfl⟩)
    · rw [append_nil]
      exact fun _ => h
  · rw [append_nil]
    exact fun _ => h

theorem startOthers (segmentIds : List ProgramSegmentId)
    (hothers : ∀ segmentId ∈ segmentIds, isLoadSegment segs segmentId = false) :
    Phase sizes secs segs args order (events ++ segmentIds.map .segmentStart) delta ∧
      layoutEvents sizes secs segs args order (events ++ segmentIds.map .segmentStart) =
        layoutEvents sizes secs segs args order events := by
  induction segmentIds using List.reverseRecOn with
  | nil => simpa using h
  | append_singleton segmentIds segmentId ih =>
    obtain ⟨hphase, hstate⟩ := ih fun other hother =>
      hothers other (List.mem_append_left _ hother)
    have hload := hothers segmentId (List.mem_append_right _ (List.mem_singleton_self _))
    rw [map_append, ← append_assoc]
    constructor
    · refine hphase.keep (fun _ => rfl) ?_ (fun state => ⟨state.pendingLocation, ?_⟩)
      · rw [activeLoadSegments_segmentStart, hload]
        exact List.Subset.refl _
      · rw [layoutEvent, hload]
        rfl
    · rw [map_singleton, layoutEvents_concat, hstate, layoutEvent, hload]
      rfl

theorem starts {segmentIds : List ProgramSegmentId}
    (hloads : segmentIds.filter (isLoadSegment segs) = [] ∨
      ∃ segmentId, segmentIds.filter (isLoadSegment segs) = [segmentId] ∧
        activeLoadSegments sizes secs segs args events = [] ∧
        ∀ sectionId, (segmentId, sectionId) ∉ loadSections sizes secs segs args events) :
    ∃ delta', Phase sizes secs segs args order (events ++ segmentIds.map .segmentStart) delta' ∧
      (segmentIds.filter (isLoadSegment segs) ≠ [] →
        ∀ address ∈ (layoutEvents sizes secs segs args order events).pendingLocation,
          (layoutEvents sizes secs segs args order
            (events ++ segmentIds.map .segmentStart)).memOffset = address) := by
  obtain hnone | ⟨segmentId, hone, hactive, hfresh⟩ := hloads
  · have hothers : ∀ segmentId ∈ segmentIds, isLoadSegment segs segmentId = false := by
      simpa [List.filter_eq_nil_iff] using hnone
    exact ⟨delta, (h.startOthers segmentIds hothers).1, fun hne => absurd hnone hne⟩
  · obtain ⟨before, after, rfl, hbefore, hload, hafter⟩ := List.filter_eq_cons_iff.1 hone
    obtain ⟨hphase, hstate⟩ := h.startOthers before (by simpa using hbefore)
    have hnothing : ∀ sectionId, (segmentId, sectionId) ∉ loadSections sizes secs
        segs args (events ++ before.map .segmentStart) := by
      intro sectionId
      rw [loadSections_append _ (sectionIds_segmentStart before)]
      exact hfresh sectionId
    have hinactive : activeLoadSegments sizes secs segs args
        (events ++ before.map .segmentStart) = [] := by
      rw [activeLoadSegments_starts, hactive, List.nil_append, List.filter_eq_nil_iff]
      exact hbefore
    obtain ⟨delta', hstarted⟩ := hphase.startLoad hload hinactive hnothing
    obtain ⟨hlast, hlastState⟩ := hstarted.startOthers after (by simpa [List.filter_eq_nil_iff] using hafter)
    have hevents : events ++ (before ++ segmentId :: after).map .segmentStart =
        events ++ before.map .segmentStart ++ [.segmentStart segmentId] ++
          after.map .segmentStart := by
      simp
    refine ⟨delta', by rw [hevents]; exact hlast, ?_⟩
    intro _ address hpend
    rw [hevents, hlastState, layoutEvents_concat, hstate, layoutEvent, if_pos hload,
      startLoadSegment]
    rw [Option.mem_def] at hpend
    simp only [hpend]

theorem placeSections (hreloc : args.shouldOutputPartialObject = false)
    (hnodup : (sectionIds order).Nodup) {sectionIds' : List OutputSectionId}
    (horder : events ++ sectionIds'.map .section <+: order)
    (hload : ∀ sectionId ∈ sectionIds', activeLoadSegments sizes secs segs args events = [] ∨
        IsAlloc secs sectionId ∧ (secs.outputInfo sectionId).location = none) :
    Phase sizes secs segs args order (events ++ sectionIds'.map .section)
      delta := by
  induction sectionIds' using List.reverseRecOn with
  | nil => simpa using h
  | append_singleton sectionIds' sectionId ih =>
    rw [map_append, ← append_assoc] at horder ⊢
    obtain ⟨rest, horder⟩ := horder
    have hphase := ih ⟨_, (append_assoc _ _ _).symm.trans horder⟩ fun other hother =>
      hload other (List.mem_append_left _ hother)
    have hsplit : order = events ++ sectionIds'.map .section ++ .section sectionId :: rest := by
      rw [← horder, append_assoc]
      rfl
    refine hphase.placeSection hreloc hsplit ?_ ?_
    · intro hmem
      rw [hsplit, sectionIds_append] at hnodup
      exact (List.nodup_append.1 hnodup).2.2 sectionId hmem sectionId mem_cons_self rfl
    · rw [activeLoadSegments_sections]
      obtain hnone | ⟨halloc, hloc⟩ :=
        hload sectionId (List.mem_append_right _ (List.mem_singleton_self _))
      · exact .inl hnone
      · exact .inr ⟨halloc, by simp [hloc]⟩

end Phase

/-! ## The builder -/

variable (sizes secs segs args) in
/-- What holds of a builder whose segments are the first of `segs`. -/
structure Built (builder : OutputOrderBuilder) : Prop where
  length_active : builder.activeSegmentKinds.length = programSegmentDefs.length
  of_kinds : ∀ segmentDef segmentId,
    (segmentDef, some segmentId) ∈ programSegmentDefs.zip builder.activeSegmentKinds →
      builder.programSegments[segmentId]? = some segmentDef
  of_active : ∀ segmentId ∈ activeLoadSegments sizes secs segs args
    builder.events, ∃ segmentDef, segmentDef.isLoadable = true ∧
      (segmentDef, some segmentId) ∈ programSegmentDefs.zip builder.activeSegmentKinds
  of_loadSections : ∀ segmentId sectionId, (segmentId, sectionId) ∈
    loadSections sizes secs segs args builder.events →
      segmentId < builder.programSegments.length

theorem built_new : Built sizes secs segs args OutputOrderBuilder.new where
  length_active := rfl
  of_kinds segmentDef segmentId hmem := by
    obtain ⟨_, -, heq⟩ := mem_map.1 (of_mem_zip hmem).2
    cases heq
  of_active _ hmem := by cases hmem
  of_loadSections _ _ hmem := by cases hmem

theorem mem_zip_set {α β : Type*} {as : List α} {bs : List β} {a : α} {b b' : β} {i : ℕ}
    (h : (a, b) ∈ as.zip bs) (hi : bs[i]? ≠ some b) : (a, b) ∈ as.zip (bs.set i b') := by
  obtain ⟨j, hj⟩ := List.mem_iff_getElem?.1 h
  obtain ⟨ha, hb⟩ := List.getElem?_zip_eq_some.1 hj
  refine List.mem_iff_getElem?.2 ⟨j, List.getElem?_zip_eq_some.2 ⟨ha, ?_⟩⟩
  have hne : i ≠ j := by
    rintro rfl
    exact hi hb
  rw [List.getElem?_set_ne hne]
  exact hb

theorem mem_zip_of_mem_zip_set {α β : Type*} {as : List α} {bs : List β} {a : α} {b b' : β} {i : ℕ}
    (h : (a, b) ∈ as.zip (bs.set i b')) (hb : b ≠ b') : (a, b) ∈ as.zip bs := by
  obtain ⟨j, hj⟩ := List.mem_iff_getElem?.1 h
  obtain ⟨ha, hb'⟩ := List.getElem?_zip_eq_some.1 hj
  refine List.mem_iff_getElem?.2 ⟨j, List.getElem?_zip_eq_some.2 ⟨ha, ?_⟩⟩
  rw [List.getElem?_set] at hb'
  split at hb'
  · split at hb'
    · exact absurd (Option.some.inj hb').symm hb
    · cases hb'
  · exact hb'

theorem Built.endRwLoadSegment {self : OutputOrderBuilder} (h : Built sizes secs segs args self) :
    ∃ ended : List ProgramSegmentId,
      self.endRwLoadSegment.events = self.events ++ ended.map .segmentEnd ∧
      self.endRwLoadSegment.programSegments = self.programSegments ∧
      Built sizes secs segs args self.endRwLoadSegment := by
  unfold OutputOrderBuilder.endRwLoadSegment
  simp only
  split
  case h_2 => exact ⟨[], by simp, rfl, h⟩
  case h_1 ended hended =>
    refine ⟨[ended], rfl, rfl, ?_, ?_, ?_, ?_⟩
    · simpa using h.length_active
    · intro segmentDef segmentId hmem
      exact h.of_kinds segmentDef segmentId (mem_zip_of_mem_zip_set hmem (by simp))
    · intro segmentId hmem
      rw [activeLoadSegments_segmentEnd, mem_filter] at hmem
      obtain ⟨segmentDef, hload, hkinds⟩ := h.of_active segmentId hmem.1
      refine ⟨segmentDef, hload, mem_zip_set hkinds ?_⟩
      rw [hended]
      intro heq
      cases heq
      simp at hmem
    · intro segmentId sectionId hmem
      have hsame : loadSections sizes secs segs args (self.events ++ [.segmentEnd ended]) =
          loadSections sizes secs segs args self.events :=
        loadSections_append _ (sectionIds_segmentEnd [ended])
      simp only [hsame] at hmem
      exact h.of_loadSections segmentId sectionId hmem

theorem eq_nil_or_singleton {α : Type*} {as : List α} (hnodup : as.Nodup)
    (h : ∀ a ∈ as, ∀ b ∈ as, a = b) : as = [] ∨ ∃ a, as = [a] := by
  cases as with
  | nil => exact .inl rfl
  | cons a as =>
    cases as with
    | nil => exact .inr ⟨a, rfl⟩
    | cons b as =>
      have heq := h a mem_cons_self b (mem_cons_of_mem _ mem_cons_self)
      rw [heq] at hnodup
      exact absurd mem_cons_self (List.nodup_cons.1 hnodup).1

theorem isLoadSegment_known {known : List ProgramSegmentDef} (h : known <+: segs)
    (hknown : known[segmentId]? = some segmentDef) :
    isLoadSegment segs segmentId = segmentDef.isLoadable := by
  obtain ⟨rest, rfl⟩ := h
  rw [isLoadSegment, List.getElem?_append_left (List.getElem?_eq_some_iff.1 hknown).1, hknown]
  rfl

section

variable (sizes secs segs args) in
/-- The builder's invariant together with the layout's. -/
def Follows (order : List OrderEvent) (self : OutputOrderBuilder) : Prop :=
  Built sizes secs segs args self ∧
    ∃ delta, Phase sizes secs segs args order self.events delta

variable {order : List OrderEvent}

/-- What a section and its secondaries have to be for the order. -/
structure Orderable (secs : OutputSections)
    (secondary : OutputSectionId → List OutputSectionId) (sectionId : OutputSectionId) : Prop where
  primary : (secs.outputInfo sectionId).kind = .primary
  secondaries : ∀ other ∈ secondary sectionId,
    (secs.outputInfo other).kind = .secondary sectionId ∧
      (secs.outputInfo other).location = none

namespace Transition

variable {self : OutputOrderBuilder} {sectionId : OutputSectionId}
  {kinds : List (ProgramSegmentDef × Option ProgramSegmentId)} {stop : List ProgramSegmentId}
  {started : List ProgramSegmentDef} {active : List (Option ProgramSegmentId)}

/-- The events before the segments start. -/
def located (secs : OutputSections) (self : OutputOrderBuilder)
    (sectionId : OutputSectionId) (stop : List ProgramSegmentId) : List OrderEvent :=
  self.events ++ stop.map .segmentEnd ++ locationEvents secs sectionId

/-- The ids that start. -/
def starts (self : OutputOrderBuilder) (started : List ProgramSegmentDef) :
    List ProgramSegmentId :=
  List.range' self.programSegments.length started.length

theorem loadSections_located : loadSections sizes secs segs args
        (located secs self sectionId stop) =
      loadSections sizes secs segs args self.events := by
  rw [located, append_assoc]
  refine loadSections_append _ ?_
  rw [sectionIds_append, sectionIds_segmentEnd, sectionIds_location, append_nil]

variable {segmentId : ProgramSegmentId}

variable (h : Transition secs self sectionId kinds stop started active)
  (hbuilt : Built sizes secs segs args self)
  (hprogram : self.programSegments ++ started <+: segs)

include h hbuilt hprogram

omit hprogram in
theorem kept
    (hmem : segmentId ∈ activeLoadSegments sizes secs segs args (located secs self sectionId stop)) :
    (secs.outputInfo sectionId).location = none ∧ ∃ segmentDef, segmentDef.isLoadable = true ∧
        secs.shouldIncludeInSegment sectionId segmentDef = true ∧
        (segmentDef, some segmentId) ∈ kinds ∧
        (segmentDef, some segmentId) ∈ programSegmentDefs.zip active := by
  rw [located, activeLoadSegments_location, activeLoadSegments_ends, mem_filter] at hmem
  obtain ⟨hactive, hnot⟩ := hmem
  obtain ⟨segmentDef, hload, hzip⟩ := hbuilt.of_active segmentId hactive
  obtain hstopped | hkind := h.of_active segmentDef segmentId hzip
  · simp [hstopped] at hnot
  · obtain hstopped | ⟨hincl, hstill⟩ := h.changes.of_kinds segmentDef segmentId hkind
    · simp [hstopped] at hnot
    · rw [h.fst_kinds] at hstill
      exact ⟨(h.of_kinds segmentDef segmentId hkind).1, segmentDef, hload, hincl, hkind, hstill⟩

omit hbuilt in
theorem started_load (hmem : segmentId ∈ (starts self started).filter (isLoadSegment segs)) :
    self.programSegments.length ≤ segmentId ∧ ∃ segmentDef, segmentDef.isLoadable = true ∧
        secs.shouldIncludeInSegment sectionId segmentDef = true ∧
        (segmentDef, none) ∈ kinds ∧
        (segmentDef, some segmentId) ∈ programSegmentDefs.zip active := by
  obtain ⟨hrange, hload⟩ := mem_filter.1 hmem
  obtain ⟨i, hi, rfl⟩ := List.mem_range'.1 hrange
  rw [Nat.one_mul] at hload ⊢
  have hget : started[i]? = some started[i] := List.getElem?_eq_getElem hi
  obtain ⟨hnone, hincl, hstill⟩ := h.changes.of_started i _ hget
  rw [h.fst_kinds] at hstill
  have hknown : (self.programSegments ++ started)[self.programSegments.length + i]? =
      some started[i] := by
    rw [List.getElem?_append_right (Nat.le_add_right _ _), Nat.add_sub_cancel_left, hget]
  rw [isLoadSegment_known hprogram hknown] at hload
  exact ⟨Nat.le_add_right _ _, _, hload, hincl, hnone, hstill⟩

omit hbuilt hprogram in
theorem nodup_active : ((programSegmentDefs.zip active).map Prod.fst).Nodup := by
  rw [map_fst_zip (by
    rw [h.changes.length_active, ← h.fst_kinds, length_map])]
  exact nodup_programSegmentDefs

theorem loads :
    (starts self started).filter (isLoadSegment segs) = [] ∨
      ∃ segmentId, (starts self started).filter (isLoadSegment segs) = [segmentId] ∧
        activeLoadSegments sizes secs segs args (located secs self sectionId stop) = [] ∧
        ∀ other, (segmentId, other) ∉ loadSections sizes secs segs args
          (located secs self sectionId stop) := by
  have hnodup : ((starts self started).filter (isLoadSegment segs)).Nodup :=
    List.Nodup.filter _ List.nodup_range'
  have hall : ∀ segmentId ∈ (starts self started).filter (isLoadSegment segs),
      ∀ other ∈ (starts self started).filter (isLoadSegment segs), segmentId = other := by
    intro segmentId hmem other hother
    obtain ⟨-, segmentDef, hload, hincl, -, hstill⟩ := h.started_load hprogram hmem
    obtain ⟨-, otherDef, hload', hincl', -, hstill'⟩ := h.started_load hprogram hother
    obtain rfl := eq_of_include_of_isLoadable hincl hincl' hload hload'
    exact Option.some.inj (eq_of_mem_pairs h.nodup_active hstill hstill')
  obtain hnone | ⟨segmentId, hone⟩ := eq_nil_or_singleton hnodup hall
  · exact .inl hnone
  · obtain ⟨hle, segmentDef, hload, hincl, hnone, -⟩ := h.started_load hprogram
      (by rw [hone]; exact List.mem_singleton_self segmentId)
    refine .inr ⟨segmentId, hone, ?_, ?_⟩
    · refine List.eq_nil_iff_forall_not_mem.2 ?_
      intro other hother
      obtain ⟨-, otherDef, hload', hincl', hkind, -⟩ := h.kept hbuilt hother
      obtain rfl := eq_of_include_of_isLoadable hincl hincl' hload hload'
      cases eq_of_mem_pairs (by rw [h.fst_kinds]; exact nodup_programSegmentDefs) hnone hkind
    · intro other hmem
      rw [loadSections_located] at hmem
      exact absurd (hbuilt.of_loadSections segmentId other hmem) (Nat.not_lt.2 hle)

theorem including
    (hmem : segmentId ∈ activeLoadSegments sizes secs segs args
      (located secs self sectionId stop ++ (starts self started).map .segmentStart)) :
    ∃ segmentDef, segmentDef.isLoadable = true ∧
      secs.shouldIncludeInSegment sectionId segmentDef = true ∧
      (segmentDef, some segmentId) ∈ programSegmentDefs.zip active := by
  rw [activeLoadSegments_starts] at hmem
  rcases List.mem_append.1 hmem with hkeep | hstart
  · obtain ⟨-, segmentDef, hload, hincl, -, hstill⟩ := h.kept hbuilt hkeep
    exact ⟨segmentDef, hload, hincl, hstill⟩
  · obtain ⟨-, segmentDef, hload, hincl, -, hstill⟩ := h.started_load hprogram hstart
    exact ⟨segmentDef, hload, hincl, hstill⟩

omit hprogram in
theorem known (segmentDef : ProgramSegmentDef) (segmentId : ProgramSegmentId)
    (hmem : (segmentDef, some segmentId) ∈ programSegmentDefs.zip active) :
    (self.programSegments ++ started)[segmentId]? = some segmentDef := by
  rw [← h.fst_kinds] at hmem
  obtain ⟨-, hkind | ⟨i, rfl, hi⟩⟩ := h.changes.of_active segmentDef segmentId hmem
  · have hold := hbuilt.of_kinds segmentDef segmentId (h.of_kinds segmentDef segmentId hkind).2
    rw [List.getElem?_append_left (List.getElem?_eq_some_iff.1 hold).1, hold]
  · rw [List.getElem?_append_right (Nat.le_add_right _ _), Nat.add_sub_cancel_left, hi]

theorem built (sectionIds' : List OutputSectionId) :
    Built sizes secs segs args
      ⟨located secs self sectionId stop ++ (starts self started).map .segmentStart ++
        sectionIds'.map .section, self.programSegments ++ started, active⟩ where
  length_active := by rw [h.changes.length_active, ← h.fst_kinds, length_map]
  of_kinds := h.known hbuilt
  of_active segmentId hmem := by
    rw [activeLoadSegments_sections] at hmem
    obtain ⟨segmentDef, hload, -, hstill⟩ := h.including hbuilt hprogram hmem
    exact ⟨segmentDef, hload, hstill⟩
  of_loadSections segmentId other hmem := by
    obtain hold | hhere := mem_loadSections_sections hmem
    · rw [loadSections_append _ (sectionIds_segmentStart _), loadSections_located] at hold
      have hlt := hbuilt.of_loadSections segmentId other hold
      rw [List.length_append]
      exact Nat.lt_add_right _ hlt
    · obtain ⟨segmentDef, -, -, hstill⟩ := h.including hbuilt hprogram hhere
      exact (List.getElem?_eq_some_iff.1 (h.known hbuilt segmentDef segmentId hstill)).1

theorem phase (hreloc : args.shouldOutputPartialObject = false) {order : List OrderEvent}
    (hnodup : (sectionIds order).Nodup) (horderable : Orderable secs secondary sectionId)
    {delta : ProgramSegmentId → ℤ} (hphase : Phase sizes secs segs args order self.events delta)
    {sectionIds' : List OutputSectionId}
    (hsecondaries : ∀ other ∈ sectionIds', other ∈ secondary sectionId)
    (horder : located secs self sectionId stop ++ (starts self started).map .segmentStart
      ++ [.section sectionId] ++ sectionIds'.map .section <+: order) :
    ∃ delta', Phase sizes secs segs args order
      (located secs self sectionId stop ++ (starts self started).map .segmentStart ++
        [.section sectionId] ++ sectionIds'.map .section) delta' := by
  obtain ⟨delta', hopening, hmemOffset⟩ :=
    ((hphase.ends stop).location sectionId).starts (h.loads hbuilt hprogram)
  rw [← located] at hopening hmemOffset
  have hprimary : secs.primaryOutputSection sectionId = sectionId := by
    rw [primaryOutputSection, mergeTarget, horderable.primary]
    rfl
  have halloc : activeLoadSegments sizes secs segs args (located secs self sectionId stop ++
        (starts self started).map .segmentStart) ≠ [] →
      (secs.sectionFlags sectionId).alloc = true := by
    intro hne
    obtain ⟨segmentId, hmem⟩ := List.exists_mem_of_ne_nil _ hne
    obtain ⟨segmentDef, hload, hincl, -⟩ := h.including hbuilt hprogram hmem
    exact alloc_of_include hincl hload
  -- A section with a location starts the segment that it is in, at the location.
  have hplace : activeLoadSegments sizes secs segs args (located secs self sectionId stop ++
        (starts self started).map .segmentStart) = [] ∨
      IsAlloc secs sectionId ∧ ∀ address ∈ (secs.outputInfo sectionId).location,
          (layoutEvents sizes secs segs args order (located secs self sectionId stop ++
              (starts self started).map .segmentStart)).memOffset = address := by
    refine or_iff_not_imp_left.2 fun hsome => ⟨?_, ?_⟩
    · rw [IsAlloc, hprimary]
      exact halloc hsome
    · intro address hloc
      refine hmemOffset ?_ address ?_
      · intro hnone
        rw [activeLoadSegments_starts, hnone, append_nil] at hsome
        obtain ⟨segmentId, hmem⟩ := List.exists_mem_of_ne_nil _ hsome
        rw [(h.kept hbuilt hmem).1] at hloc
        cases hloc
      · have hevents : locationEvents secs sectionId = [.setLocation address] := by
          rw [locationEvents, hloc]
          exact if_pos (halloc hsome)
        rw [located, hevents, layoutEvents_concat]
        rfl
  have hsecondary : ∀ other ∈ sectionIds', activeLoadSegments sizes secs segs args
          (located secs self sectionId stop ++
            (starts self started).map .segmentStart ++ [.section sectionId]) = [] ∨
        IsAlloc secs other ∧ (secs.outputInfo other).location = none := by
    intro other hother
    obtain ⟨hkind, hloc⟩ := horderable.secondaries other (hsecondaries other hother)
    rw [activeLoadSegments_other _ (by simp)]
    refine or_iff_not_imp_left.2 fun hsome => ⟨?_, hloc⟩
    rw [IsAlloc, primaryOutputSection, mergeTarget, hkind]
    exact halloc hsome
  obtain ⟨rest, hrest⟩ := horder
  have hsplit : order = located secs self sectionId stop ++
      (starts self started).map .segmentStart ++ .section sectionId ::
      (sectionIds'.map .section ++ rest) := by
    rw [← hrest, append_assoc, append_assoc, append_assoc, append_assoc]
    rfl
  have hnew : sectionId ∉ sectionIds (located secs self sectionId stop ++
      (starts self started).map .segmentStart) := by
    intro hmem
    rw [hsplit, sectionIds_append] at hnodup
    exact (List.nodup_append.1 hnodup).2.2 sectionId hmem sectionId mem_cons_self rfl
  refine ⟨delta', (hopening.placeSection hreloc hsplit hnew hplace).placeSections hreloc
    hnodup ?_ hsecondary⟩
  rw [← hrest]
  exact List.prefix_append _ _

end Transition

theorem Follows.addSection {builder : OutputOrderBuilder} {sectionId : OutputSectionId}
    (h : Follows sizes secs segs args order builder)
    (hreloc : args.shouldOutputPartialObject = false) (hnodup : (sectionIds order).Nodup)
    (horderable : Orderable secs secondary sectionId)
    (horder : (builder.addSection secs secondary false sectionId).events <+: order)
    (hprogram : (builder.addSection secs secondary false sectionId).programSegments <+: segs) :
    Follows sizes secs segs args order (builder.addSection secs secondary false sectionId) := by
  -- The RW LOAD segment ends first, if the section is not part of the RELRO segment.
  have hended : Follows sizes secs segs args order
      (if builder.shouldEndCurrentRwSegment secs sectionId then
        builder.endRwLoadSegment else builder) := by
    split
    · obtain ⟨hbuilt, delta, hphase⟩ := h
      obtain ⟨ended, hevents, -, hbuilt'⟩ := hbuilt.endRwLoadSegment
      refine ⟨hbuilt', delta, ?_⟩
      rw [hevents]
      exact hphase.ends ended
    · exact h
  revert horder hprogram
  unfold OutputOrderBuilder.addSection
  generalize (if builder.shouldEndCurrentRwSegment secs sectionId then
    builder.endRwLoadSegment else builder) = self at hended
  intro horder hprogram
  obtain ⟨hbuilt, delta, hphase⟩ := hended
  obtain ⟨kinds, stop, started, active, heq, htransition⟩ :=
    exists_transition self hbuilt.length_active horderable.primary
  simp only [heq] at horder hprogram ⊢
  have hsecondaries : ∀ other ∈ orderedSecondaries secs secondary sectionId,
      other ∈ secondary sectionId := fun other hother => (List.mem_insertionSort _).1 hother
  refine ⟨?_, htransition.phase hbuilt hprogram hreloc hnodup horderable hphase hsecondaries horder⟩
  have hbuilt' := htransition.built hbuilt hprogram
    (sectionId :: orderedSecondaries secs secondary sectionId)
  rw [map_cons, List.append_cons] at hbuilt'
  exact hbuilt'

end

end

end Sld.Layout
