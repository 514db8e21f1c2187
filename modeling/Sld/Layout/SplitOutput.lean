/-
# `Layout.SplitOutput` — the slices of the output file that are written

The file is cut into sections at the sections' offsets.  A section's bytes are
cut into its parts, one after the other and without looking at the parts'
offsets, and each part's bytes into what the groups have for it.
-/
import Sld.Layout.SectionOffsets
import Sld.Store.Slices

namespace Sld.Layout

section

variable (layout : PartId → OutputRecordLayout)

/-! ## Sections -/

structure SectionAllocation where
  id : OutputSectionId
  offset : ℕ
  size : ℕ
deriving DecidableEq

/-- Of `layout_sections`: where the first byte of a section is. -/
def sectionFileOffset (sectionId : OutputSectionId) : ℕ :=
  (sectionId.parts.map fun partId => (layout partId).fileOffset).min?.getD 0

/-- Of `layout_sections`: where the last part of a section ends. -/
def sectionFileEnd (sectionId : OutputSectionId) : ℕ :=
  (sectionId.parts.map fun partId =>
    (layout partId).fileOffset + (layout partId).fileSize).foldl max 0

def sectionAllocations (numSections : ℕ) : List SectionAllocation :=
  (List.range numSections).map fun sectionId =>
    ⟨sectionId, sectionFileOffset layout sectionId,
      sectionFileEnd layout sectionId - sectionFileOffset layout sectionId⟩

/-- `compute_total_file_size` -/
def totalFileSize (numSections : ℕ) : ℕ :=
  ((sectionAllocations layout numSections).map fun a => a.offset + a.size).foldl max 0

/-- The order of `sort_by_key`. -/
def SectionAllocation.le (a b : SectionAllocation) : Prop :=
  a.offset < b.offset ∨ a.offset = b.offset ∧ a.offset + a.size ≤ b.offset + b.size

instance : DecidableRel SectionAllocation.le := fun _ _ =>
  inferInstanceAs (Decidable (_ ∨ _))

/-- The loop of `split_output_into_sections`.  An offset that goes backward is
a panic, and so is a slice that runs out. -/
def splitSections : List SectionAllocation → ℕ → Slice → (OutputSectionId → Slice) →
    Option (OutputSectionId → Slice)
  | [], _, _, sectionData => some sectionData
  | a :: allocations, offset, data, sectionData =>
    if a.offset < offset then none
    else do
      let (_, data) ← data.splitOff (a.offset - offset)
      let (taken, data) ← data.splitOff a.size
      splitSections allocations (a.offset + a.size) data
        (Function.update sectionData a.id taken)

def splitOutputIntoSections (numSections : ℕ) (data : Slice) :
    Option (OutputSectionId → Slice) :=
  splitSections ((sectionAllocations layout numSections).insertionSort SectionAllocation.le) 0 data
    fun _ => ⟨0, 0⟩

/-! ## Parts and groups -/

def splitBuffersByAlignment (order : List OrderEvent) (sectionBuffers : OutputSectionId → Slice) :
    Option (PartId → Slice) :=
  (takeAll PartId.outputSectionId (fun partId => (layout partId).fileSize) (placedParts order)
    sectionBuffers).map Prod.snd

/-- The bytes that a group allocated for each part.  Nothing is allocated for
RELRO padding. -/
structure GroupSizes where
  memSizes : PartId → ℕ
  relro : memSizes relroPadding = 0

/-- `compute_file_sizes` -/
def GroupSizes.fileSizes (outputSections : OutputSections) (group : GroupSizes)
    (partId : PartId) : ℕ :=
  if outputSections.hasDataInFile partId.outputSectionId then group.memSizes partId else 0

/-- `section_part_sizes`, the sum over all groups -/
def totalSizes (groups : List GroupSizes) (partId : PartId) : ℕ :=
  (groups.map fun group => group.memSizes partId).sum

/-- The sizes of a part in the groups before one. -/
def sizeInEarlier (groups : List GroupSizes) (i : ℕ) (partId : PartId) : ℕ :=
  totalSizes (groups.take i) partId

def allParts (numSections : ℕ) : List PartId :=
  (List.range numSections).flatMap OutputSectionId.parts

/-- `split_output_by_group`: the slices of each group, and where its parts
start in the file. -/
def splitOutputByGroup (outputSections : OutputSections) (numSections : ℕ) :
    List GroupSizes → (PartId → Slice) → (PartId → ℕ) →
      Option (List ((PartId → Slice) × (PartId → ℕ)))
  | [], _, _ => some []
  | group :: groups, buckets, partFileOffsets => do
      let (buckets, slices) ←
        takeAll id (group.fileSizes outputSections) (allParts numSections) buckets
      let others ← splitOutputByGroup outputSections numSections groups buckets fun partId =>
        partFileOffsets partId + group.fileSizes outputSections partId
      some ((slices, partFileOffsets) :: others)

def computeStartOffsetsByGroup : List GroupSizes → (PartId → ℕ) → List (PartId → ℕ)
  | [], _ => []
  | group :: groups, memOffsets =>
    memOffsets :: computeStartOffsetsByGroup groups fun partId =>
      memOffsets partId + group.memSizes partId

/-- The writer's slices of the whole file. -/
def splitOutput (outputSections : OutputSections) (order : List OrderEvent) (numSections : ℕ)
    (groups : List GroupSizes) : Option (List ((PartId → Slice) × (PartId → ℕ))) := do
  let sectionBuffers ← splitOutputIntoSections layout numSections
    ⟨0, totalFileSize layout numSections⟩
  let buckets ← splitBuffersByAlignment layout order sectionBuffers
  splitOutputByGroup outputSections numSections groups buckets fun partId =>
    (layout partId).fileOffset

end

/-! ## Cutting the file into sections -/

theorem splitSections_eq {allocations : List SectionAllocation} {offset total : ℕ}
    {sectionData : OutputSectionId → Slice} (hoff : ∀ a ∈ allocations, offset ≤ a.offset)
    (htotal : ∀ a ∈ allocations, a.offset + a.size ≤ total)
    (hordered : allocations.Pairwise fun a b => a.offset + a.size ≤ b.offset)
    (hnodup : (allocations.map SectionAllocation.id).Nodup) :
    ∃ result, splitSections allocations offset ⟨offset, total - offset⟩ sectionData = some result ∧
      (∀ a ∈ allocations, result a.id = ⟨a.offset, a.size⟩) ∧
      ∀ sectionId ∉ allocations.map SectionAllocation.id,
        result sectionId = sectionData sectionId := by
  induction allocations generalizing offset sectionData with
  | nil => exact ⟨sectionData, rfl, by simp, fun _ _ => rfl⟩
  | cons a allocations ih =>
    obtain ⟨hnew, hnodup⟩ := List.nodup_cons.1 hnodup
    obtain ⟨hfirst, hordered⟩ := List.pairwise_cons.1 hordered
    have hle := hoff a List.mem_cons_self
    have hend := htotal a List.mem_cons_self
    obtain ⟨result, hrun, hall, hothers⟩ := @ih (a.offset + a.size)
      (Function.update sectionData a.id ⟨a.offset, a.size⟩) hfirst
      (fun b hb => htotal b (List.mem_cons_of_mem _ hb)) hordered hnodup
    refine ⟨result, ?_, ?_, ?_⟩
    · rw [splitSections, if_neg (Nat.not_lt.2 hle),
        Slice.splitOff_of_le (show a.offset - offset ≤ total - offset by omega)]
      simp only [Option.bind_eq_bind, Option.bind_some]
      rw [Slice.splitOff_of_le (show a.size ≤ total - offset - (a.offset - offset) by omega)]
      simp only [Option.bind_some]
      have hstart : offset + (a.offset - offset) = a.offset := by omega
      have hlen : total - offset - (a.offset - offset) - a.size =
          total - (a.offset + a.size) := by omega
      rw [hstart, hlen]
      exact hrun
    · intro b hb
      rcases List.mem_cons.1 hb with rfl | hb
      · rw [hothers _ hnew, Function.update_self]
      · exact hall b hb
    · intro sectionId hnot
      rw [List.map_cons, List.mem_cons, not_or] at hnot
      rw [hothers sectionId hnot.2, Function.update_of_ne hnot.1]

instance : Std.Total SectionAllocation.le where
  total a b := by
    unfold SectionAllocation.le
    omega

instance : IsTrans SectionAllocation SectionAllocation.le where
  trans a b c := by
    unfold SectionAllocation.le
    omega

theorem foldl_max_le_iff {values : List ℕ} {init bound : ℕ} :
    values.foldl max init ≤ bound ↔ init ≤ bound ∧ ∀ value ∈ values, value ≤ bound := by
  induction values generalizing init with
  | nil => simp
  | cons value values ih =>
    rw [List.foldl_cons, ih, Nat.max_le, List.forall_mem_cons, and_assoc]

section

variable {layout : PartId → OutputRecordLayout}

variable {sectionId : OutputSectionId}

theorem sectionFileOffset_eq_iff {offset : ℕ} : sectionFileOffset layout sectionId = offset ↔
      (∃ partId ∈ sectionId.parts, (layout partId).fileOffset = offset) ∧
        ∀ partId ∈ sectionId.parts, offset ≤ (layout partId).fileOffset := by
  have hsome : (sectionId.parts.map fun partId => (layout partId).fileOffset).min?.isSome := by
    rw [List.isSome_min?_iff, ne_eq, List.map_eq_nil_iff]
    exact OutputSectionId.parts_ne_nil sectionId
  obtain ⟨found, hfound⟩ := Option.isSome_iff_exists.1 hsome
  have hiff : (sectionId.parts.map fun partId => (layout partId).fileOffset).min? = some offset ↔
      offset ∈ sectionId.parts.map (fun partId => (layout partId).fileOffset) ∧
        ∀ other ∈ sectionId.parts.map (fun partId => (layout partId).fileOffset),
          offset ≤ other := List.min?_eq_some_iff
  rw [List.mem_map, List.forall_mem_map] at hiff
  rw [← hiff, sectionFileOffset, hfound]
  simp

theorem sectionFileOffset_le {sectionId : OutputSectionId} {partId : PartId}
    (h : partId ∈ sectionId.parts) :
    sectionFileOffset layout sectionId ≤ (layout partId).fileOffset :=
  (sectionFileOffset_eq_iff.1 rfl).2 partId h

theorem sectionFileEnd_le_iff {bound : ℕ} :
    sectionFileEnd layout sectionId ≤ bound ↔ ∀ partId ∈ sectionId.parts,
      (layout partId).fileOffset + (layout partId).fileSize ≤ bound := by
  rw [sectionFileEnd, foldl_max_le_iff, List.forall_mem_map]
  simp

theorem le_sectionFileEnd {sectionId : OutputSectionId} {partId : PartId}
    (h : partId ∈ sectionId.parts) :
    (layout partId).fileOffset + (layout partId).fileSize ≤ sectionFileEnd layout sectionId :=
  sectionFileEnd_le_iff.1 (le_refl _) partId h

theorem sectionFileOffset_le_end (sectionId : OutputSectionId) :
    sectionFileOffset layout sectionId ≤ sectionFileEnd layout sectionId := by
  obtain ⟨partId, hmem⟩ := List.exists_mem_of_ne_nil _ (OutputSectionId.parts_ne_nil sectionId)
  have hstart := @sectionFileOffset_le layout sectionId partId hmem
  have hend := @le_sectionFileEnd layout sectionId partId hmem
  omega

theorem splitOutputIntoSections_eq {numSections : ℕ}
    (hapart : ∀ a < numSections, ∀ b < numSections, a ≠ b →
      sectionFileEnd layout a ≤ sectionFileOffset layout b ∨
        sectionFileEnd layout b ≤ sectionFileOffset layout a) :
    ∃ sectionBuffers,
      splitOutputIntoSections layout numSections ⟨0, totalFileSize layout numSections⟩ =
        some sectionBuffers ∧
      ∀ sectionId < numSections, sectionBuffers sectionId = ⟨sectionFileOffset layout sectionId,
          sectionFileEnd layout sectionId - sectionFileOffset layout sectionId⟩ := by
  let allocations := sectionAllocations layout numSections
  have hmem : ∀ a ∈ allocations.insertionSort SectionAllocation.le,
      a.id < numSections ∧ a.offset = sectionFileOffset layout a.id ∧
        a.offset + a.size = sectionFileEnd layout a.id := by
    intro a ha
    obtain ⟨sectionId, hsec, rfl⟩ := List.mem_map.1 ((List.mem_insertionSort _).1 ha)
    have hle := @sectionFileOffset_le_end layout sectionId
    exact ⟨List.mem_range.1 hsec, rfl, by simp only; omega⟩
  have hnodup : ((allocations.insertionSort SectionAllocation.le).map SectionAllocation.id).Nodup := by
    refine ((List.perm_insertionSort _ _).map _).nodup_iff.2 ?_
    have hids : allocations.map SectionAllocation.id = List.range numSections := by
      simp [allocations, sectionAllocations, Function.comp_def]
    rw [hids]
    exact List.nodup_range
  have hordered : (allocations.insertionSort SectionAllocation.le).Pairwise fun a b =>
      a.offset + a.size ≤ b.offset := by
    have hsorted := List.pairwise_insertionSort SectionAllocation.le allocations
    refine (hsorted.and (List.pairwise_map.1 hnodup)).imp_of_mem ?_
    rintro a b ha hb ⟨hle, hne⟩
    obtain ⟨ha, haoffset, haend⟩ := hmem a ha
    obtain ⟨hb, hboffset, hbend⟩ := hmem b hb
    rw [haend, hboffset]
    unfold SectionAllocation.le at hle
    rcases hapart a.id ha b.id hb hne with hbefore | hbefore
    · exact hbefore
    · omega
  have htotal : ∀ a ∈ allocations.insertionSort SectionAllocation.le,
      a.offset + a.size ≤ totalFileSize layout numSections := by
    intro a ha
    exact (foldl_max_le_iff.1 (le_refl _)).2 _
      (List.mem_map_of_mem ((List.mem_insertionSort _).1 ha))
  obtain ⟨sectionBuffers, hrun, hall, -⟩ := @splitSections_eq _ 0 _ (fun _ => ⟨0, 0⟩)
    (fun a _ => Nat.zero_le _) htotal hordered hnodup
  refine ⟨sectionBuffers, hrun, ?_⟩
  intro sectionId hsec
  exact hall ⟨sectionId, sectionFileOffset layout sectionId,
    sectionFileEnd layout sectionId - sectionFileOffset layout sectionId⟩
    ((List.mem_insertionSort _).2 (List.mem_map.2 ⟨sectionId, List.mem_range.2 hsec, rfl⟩))

end

end Sld.Layout
