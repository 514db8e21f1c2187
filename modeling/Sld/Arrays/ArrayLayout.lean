/-
# `Arrays.ArrayLayout` — where the sections of an array go

The section of an array itself comes first, then the secondary ones by their
priority.  In each the parts go by their alignment, the largest first, and in
a part the sections are in the order of their objects.

    ArrayLink               a link, and what else its layout depends on
    placed                  the sections and their places
    contiguous_buckets      those of an array have no gaps
-/
import Mathlib.Data.List.Flatten
import Sld.Layout.StackedSections
import Sld.Arrays.Secondaries
import Sld.Order.StableSort

namespace Sld.Arrays

open Layout (OutputSectionId PartId Alignment OutputSections LayoutArgs OutputRecordLayout IsAlloc
  numAlignments numSinglePartSections builtOrder layoutSectionParts sectionMemSize Stackable)
open Layout.OutputOrderBuilder (orderedSecondaries)
open Sections (SectionTable NamedInfo StartArgs sectionAddress)
open Bump (Slot bump taken)

/-! ## Links -/

/-- The sections that are there from the start. -/
structure BuiltInArrays where
  sectionInfos : List NamedInfo
  length_eq : sectionInfos.length = numBuiltInSections
  arrays : ∀ array ∈ [initArray, finiArray], ∃ named : NamedInfo,
    sectionInfos[array]? = some named ∧ IsArray named.info
  primary : ∀ named ∈ sectionInfos, named.info.kind = .primary

/-- What decides about the parts: objects in groups, in their order. -/
structure ArrayInput where
  builtIn : BuiltInArrays
  args : StartArgs
  groups : List (List ArrayObject)

namespace ArrayInput

variable (input : ArrayInput)

def assigned : List (List (List (PointerSection × PartId))) × SectionTable :=
  assignSections input.args ⟨input.builtIn.sectionInfos, [], []⟩ input.groups

def table : SectionTable := input.assigned.2

/-- All sections of pointers, object by object. -/
def sections : List PointerSection := input.groups.flatten.flatMap ArrayObject.sections

end ArrayInput

/-- The secondary sections of a section, in the order of the table. -/
def secondaries (table : SectionTable) (primary : OutputSectionId) : List OutputSectionId :=
  (List.range table.sectionInfos.length).filter fun id =>
    (table.sectionInfos[id]?).any fun named => named.info.kind = .secondary primary

/-- What an output section takes over from the table. -/
structure FromTable (named : Layout.SectionOutputInfo) (info : Layout.SectionOutputInfo) :
    Prop where
  kind : info.kind = named.kind
  minAlignment : info.minAlignment = named.minAlignment
  location : info.location = named.location
  secondaryOrder : info.secondaryOrder = named.secondaryOrder

/-- A link that does not write a partial object: the attributes and the sizes
of everything else are any. -/
structure ArrayLink where
  input : ArrayInput
  outputSections : OutputSections
  infos : ∀ sectionId (named : NamedInfo), input.table.sectionInfos[sectionId]? = some named →
    FromTable named.info (outputSections.outputInfo sectionId)
  /-- the output sections with a name, in their order -/
  sections : List OutputSectionId
  nodup : sections.Nodup
  primary : ∀ sectionId ∈ sections, (outputSections.outputInfo sectionId).kind = .primary
  arrays : ∀ array ∈ [initArray, finiArray], array ∈ sections
  alloc : ∀ array ∈ [initArray, finiArray], (outputSections.sectionFlags array).alloc = true
  otherSizes : PartId → ℕ
  layoutArgs : LayoutArgs
  not_partial : layoutArgs.shouldOutputPartialObject = false

/-- The places of the items of each group; a group starts where the ones
before it end. -/
def groupSlots (offsets : PartId → ℕ) : List (List (PartId × ℕ)) → List (Slot PartId)
  | [] => []
  | group :: groups =>
    bump offsets group ++ groupSlots (fun partId => offsets partId + taken group partId) groups

namespace ArrayLink

variable (link : ArrayLink)

/-- `Section::capacity`; sections of arrays have no room for later changes. -/
def capacity (partId : PartId) (s : PointerSection) : ℕ :=
  if partId.shouldPack then s.size else (link.outputSections.partAlignment partId).alignUp s.size

/-- What each section takes of which part. -/
def groupItems : List (List (PartId × ℕ)) :=
  link.input.assigned.1.map fun group =>
    group.flatten.map fun entry => (entry.2, link.capacity entry.2 entry.1)

/-- The sizes of the parts; those of an array come from its sections. -/
def sizes (partId : PartId) : ℕ :=
  if link.outputSections.primaryOutputSection partId.outputSectionId ∈ [initArray, finiArray] then
    taken link.groupItems.flatten partId
  else link.otherSizes partId

def order : List Layout.OrderEvent × List Layout.ProgramSegmentDef :=
  builtOrder link.outputSections (secondaries link.input.table) link.sections

def records : PartId → OutputRecordLayout :=
  layoutSectionParts link.sizes link.outputSections link.order.2 link.layoutArgs link.order.1

/-- The sections with their places. -/
def placed : List (PointerSection × Slot PartId) :=
  (link.input.assigned.1.flatten.flatten.map Prod.fst).zip
    (groupSlots (fun partId => (link.records partId).memOffset) link.groupItems)

/-- `__init_array_start`, `__fini_array_start` -/
def arrayStart (array : OutputSectionId) : ℕ := (sectionAddress link.records array).getD 0

/-- The size after `merge_secondary_parts`. -/
def arraySize (array : OutputSectionId) : ℕ :=
  sectionMemSize link.records array
    + ((secondaries link.input.table array).map (sectionMemSize link.records)).sum

end ArrayLink

/-! ## Parts -/

theorem groupSlots_eq (offsets : PartId → ℕ) (groups : List (List (PartId × ℕ))) :
    groupSlots offsets groups = bump offsets groups.flatten := by
  induction groups generalizing offsets with
  | nil => rfl
  | cons group groups ih => rw [groupSlots, ih, List.flatten_cons, Bump.bump_append]

theorem ArrayInput.tracked (input : ArrayInput) : Tracked input.table
    ∧ (∀ s ∈ input.sections, Present input.table s)
    ∧ input.assigned.1.flatten.flatten = input.sections.map fun s => (s, partOf input.table s) := by
  have hstart : Tracked ⟨input.builtIn.sectionInfos, [], []⟩ := by
    refine ⟨Nat.le_of_eq input.builtIn.length_eq.symm, input.builtIn.arrays,
      fun key sectionId hkey => (by cases hkey), fun sectionId named primary hid hkind => ?_⟩
    rw [input.builtIn.primary named (List.mem_of_getElem? hid)] at hkind
    cases hkind
  obtain ⟨htracked, hpresent, hparts⟩ := assignSections_eq input.args hstart input.groups
  refine ⟨htracked, fun s hs => ?_, ?_⟩
  · obtain ⟨object, hobject, hs⟩ := List.mem_flatMap.mp hs
    obtain ⟨group, hgroup, hobject⟩ := List.mem_flatten.mp hobject
    exact hpresent group hgroup object hobject s hs
  · have hassign : input.assigned.1
        = input.groups.map fun group => group.map (objectParts input.table) := hparts
    rw [hassign, ArrayInput.sections, ← List.map_flatten, List.map_flatMap]
    rfl

section Parts

variable {sectionId : OutputSectionId}

variable {alignment : Layout.Alignment}

theorem partIdWithAlignment_eq (h : numSinglePartSections ≤ sectionId)
    (hle : alignment ≤ numAlignments - 1) :
    partIdWithAlignment sectionId alignment
      = sectionId.basePartId + (numAlignments - 1 - alignment) := by
  have harith : ∀ base exponent : ℕ, exponent ≤ 17 - 1 →
      base + 17 - 1 - exponent = base + (17 - 1 - exponent) := by
    intro base exponent hexponent
    omega
  rw [OutputSectionId.basePartId, if_neg (Nat.not_lt.mpr h)]
  exact harith _ alignment hle

theorem partIdWithAlignment_mem (h : numSinglePartSections ≤ sectionId)
    (hle : alignment ≤ numAlignments - 1) :
    partIdWithAlignment sectionId alignment ∈ sectionId.parts := by
  have harith : ∀ base exponent : ℕ, base ≤ base + (17 - 1 - exponent)
      ∧ base + (17 - 1 - exponent) < base + 17 := by
    omega
  rw [partIdWithAlignment_eq h hle, OutputSectionId.parts, OutputSectionId.numParts,
    if_neg (Nat.not_lt.mpr h)]
  exact List.mem_range'_1.mpr (harith _ alignment)

theorem partAlignment_partIdWithAlignment (h : numSinglePartSections ≤ sectionId)
    (hle : alignment ≤ numAlignments - 1) (outputSections : OutputSections) :
    outputSections.partAlignment (partIdWithAlignment sectionId alignment) = alignment := by
  have harith : ∀ offset exponent : ℕ, exponent ≤ 16 →
      ¬ 47 + offset * 17 + (17 - 1 - exponent) < 47 ∧
        17 - 1 - (47 + offset * 17 + (17 - 1 - exponent) - 47) % 17 = exponent := by
    omega
  rw [partIdWithAlignment_eq h hle, OutputSectionId.basePartId, if_neg (Nat.not_lt.mpr h)]
  obtain ⟨hlarge, heq⟩ := harith (sectionId - numSinglePartSections) alignment hle
  have hnot : ¬ numSinglePartSections + (sectionId - numSinglePartSections) * numAlignments
      + (numAlignments - 1 - alignment) < numSinglePartSections := hlarge
  rw [OutputSections.partAlignment, if_neg hnot]
  exact heq

end Parts

/-! ## The secondary sections of an array -/

theorem mem_secondaries {table : SectionTable} {primary sectionId : OutputSectionId} :
    sectionId ∈ secondaries table primary ↔ ∃ named : NamedInfo,
      table.sectionInfos[sectionId]? = some named ∧ named.info.kind = .secondary primary := by
  rw [secondaries, List.mem_filter, List.mem_range, Option.any_eq_true]
  constructor
  · rintro ⟨-, named, hnamed, hkind⟩
    exact ⟨named, hnamed, of_decide_eq_true hkind⟩
  · rintro ⟨named, hnamed, hkind⟩
    exact ⟨(List.getElem?_eq_some_iff.mp hnamed).1, named, hnamed, decide_eq_true hkind⟩

namespace ArrayLink

variable (link : ArrayLink) {array : OutputSectionId}

variable {sectionId : OutputSectionId}

theorem secondary_info (h : sectionId ∈ secondaries link.input.table array) :
    ∃ priority, link.input.table.initFiniByPriority.lookup (array, priority) = some sectionId
      ∧ numBuiltInSections ≤ sectionId
      ∧ IsSecondary (array, priority) (link.outputSections.outputInfo sectionId) := by
  obtain ⟨htracked, -, -⟩ := link.input.tracked
  obtain ⟨named, hnamed, hkind⟩ := mem_secondaries.mp h
  obtain ⟨priority, hlookup⟩ := htracked.secondary sectionId named array hnamed hkind
  obtain ⟨hle, named', hnamed', hinfo⟩ := htracked.info _ _ hlookup
  cases hnamed.symm.trans hnamed'
  have htable := link.infos sectionId named hnamed
  exact ⟨priority, hlookup, hle, htable.kind.trans hinfo.kind,
    htable.secondaryOrder.trans hinfo.secondaryOrder,
    htable.minAlignment ▸ hinfo.minAlignment_le, htable.location.trans hinfo.location⟩

/-- The priority of a secondary section, as the order sees it. -/
def priorityOf (sectionId : OutputSectionId) : ℕ :=
  (link.outputSections.outputInfo sectionId).secondaryOrder.getD (2 ^ 16 - 1)

theorem priorityOf_injective {a b : OutputSectionId} (ha : a ∈ secondaries link.input.table array)
    (hb : b ∈ secondaries link.input.table array) (h : link.priorityOf a = link.priorityOf b) :
    a = b := by
  obtain ⟨priority, hlookup, -, hinfo⟩ := link.secondary_info ha
  obtain ⟨priority', hlookup', -, hinfo'⟩ := link.secondary_info hb
  rw [priorityOf, priorityOf, hinfo.secondaryOrder, hinfo'.secondaryOrder] at h
  obtain rfl : priority = priority' := h
  exact Option.some.inj (hlookup.symm.trans hlookup')

/-- The secondary sections of an array, by their priority. -/
def ordered (array : OutputSectionId) : List OutputSectionId :=
  orderedSecondaries link.outputSections (secondaries link.input.table) array

theorem mem_ordered :
    sectionId ∈ link.ordered array ↔ sectionId ∈ secondaries link.input.table array :=
  List.mem_insertionSort _

theorem nodup_secondaries (primary : OutputSectionId) :
    (secondaries link.input.table primary).Nodup := List.nodup_range.filter _

theorem pairwise_ordered : (link.ordered array).Pairwise fun a b =>
    link.priorityOf a < link.priorityOf b := by
  have hperm : (link.ordered array).Perm (secondaries link.input.table array) :=
    List.perm_insertionSort _ _
  have hnodup : (link.ordered array).Nodup := hperm.nodup_iff.mpr (link.nodup_secondaries array)
  have hsorted : (link.ordered array).Pairwise fun a b =>
      link.priorityOf a ≤ link.priorityOf b :=
    List.pairwise_insertionSort (fun a b => link.priorityOf a ≤ link.priorityOf b) _
  refine (hnodup.and hsorted).imp_of_mem fun ha hb hab => ?_
  refine Nat.lt_of_le_of_ne hab.2 fun heq => hab.1 ?_
  exact link.priorityOf_injective (link.mem_ordered.mp ha) (link.mem_ordered.mp hb) heq

/-! ## The sections and their parts -/

variable {s : PointerSection}

theorem secondaryOf_mem (h : s ∈ link.input.sections) :
    secondaryOf link.input.table (s.array, s.name.priority) ∈ secondaries link.input.table s.array
      ∧ numSinglePartSections ≤ secondaryOf link.input.table (s.array, s.name.priority)
      ∧ link.priorityOf (secondaryOf link.input.table (s.array, s.name.priority))
        = s.name.priority := by
  obtain ⟨htracked, hpresent, -⟩ := link.input.tracked
  obtain ⟨sectionId, hlookup⟩ := hpresent s h
  obtain ⟨hle, named, hnamed, hinfo⟩ := htracked.info _ _ hlookup
  have heq : secondaryOf link.input.table (s.array, s.name.priority) = sectionId := by
    rw [secondaryOf, hlookup]
    rfl
  rw [heq]
  refine ⟨mem_secondaries.mpr ⟨named, hnamed, hinfo.kind⟩,
    Nat.le_trans (Nat.le_add_right _ _) hle, ?_⟩
  rw [priorityOf, (link.infos sectionId named hnamed).secondaryOrder, hinfo.secondaryOrder]
  rfl

theorem partOf_mem (h : s ∈ link.input.sections) : partOf link.input.table s
      ∈ (secondaryOf link.input.table (s.array, s.name.priority)).parts :=
  partIdWithAlignment_mem (link.secondaryOf_mem h).2.1 (Nat.le_of_lt_succ s.alignment.isLt)

theorem partAlignment_partOf (h : s ∈ link.input.sections) :
    link.outputSections.partAlignment (partOf link.input.table s) = s.alignment.val :=
  partAlignment_partIdWithAlignment (link.secondaryOf_mem h).2.1
    (Nat.le_of_lt_succ s.alignment.isLt) _

theorem wordSize_dvd_size (s : PointerSection) : wordSize ∣ s.size := Nat.dvd_mul_right _ _

theorem capacity_partOf (h : s ∈ link.input.sections) :
    link.capacity (partOf link.input.table s) s = s.size := by
  unfold capacity
  split
  · rfl
  · rw [link.partAlignment_partOf h]
    refine (Alignment.alignUp_eq_self_iff _).mpr (dvd_trans ?_ (wordSize_dvd_size s))
    exact Alignment.value_dvd_value s.alignment_le

theorem flatten_groupItems : link.groupItems.flatten
    = link.input.sections.map fun s => (partOf link.input.table s, s.size) := by
  obtain ⟨-, -, hparts⟩ := link.input.tracked
  have hflatten : link.groupItems.flatten = link.input.assigned.1.flatten.flatten.map fun entry =>
        (entry.2, link.capacity entry.2 entry.1) := by
    rw [List.map_flatten, List.map_flatten, List.flatten_flatten, List.map_map]
    refine congrArg List.flatten (List.map_congr_left fun group _ => ?_)
    exact List.map_flatten
  rw [hflatten, hparts, List.map_map]
  exact List.map_congr_left fun s hs => congrArg (Prod.mk _) (link.capacity_partOf hs)

/-! ## Without gaps -/

variable {partId : PartId}

theorem mem_taken {items : List (PartId × ℕ)} (h : taken items partId ≠ 0) :
    ∃ item ∈ items, item.1 = partId := by
  by_contra hnone
  push Not at hnone
  refine h ?_
  have hempty : items.filter (fun item => item.1 = partId) = [] := by
    rw [List.filter_eq_nil_iff]
    intro item hmem
    rw [decide_eq_true_eq]
    exact hnone item hmem
  rw [taken, hempty]
  rfl

/-- A section of the array or of one of its priorities. -/
def InArray (array sectionId : OutputSectionId) : Prop :=
  sectionId = array ∨ sectionId ∈ secondaries link.input.table array

variable (harray : array ∈ [initArray, finiArray])

include harray

theorem array_info : IsArray (link.outputSections.outputInfo array) := by
  obtain ⟨htracked, -, -⟩ := link.input.tracked
  obtain ⟨named, hnamed, hinfo⟩ := htracked.arrays array harray
  have htable := link.infos array named hnamed
  exact ⟨htable.kind.trans hinfo.kind, htable.minAlignment.trans hinfo.minAlignment,
    htable.location.trans hinfo.location⟩

section

variable (h : link.InArray array sectionId)

include h

theorem primary_of_inArray : link.outputSections.primaryOutputSection sectionId = array := by
  unfold OutputSections.primaryOutputSection OutputSections.mergeTarget
  rcases h with rfl | hmem
  · rw [(link.array_info harray).kind]
    rfl
  · obtain ⟨priority, -, -, hinfo⟩ := link.secondary_info hmem
    rw [hinfo.kind]
    rfl

theorem sizes_of_inArray (hpart : partId ∈ sectionId.parts) :
    link.sizes partId = taken link.groupItems.flatten partId := by
  unfold sizes
  rw [Layout.OutputSectionId.mem_parts.mp hpart, link.primary_of_inArray harray h, if_pos harray]

theorem partOf_of_sizes_ne_zero (hpart : partId ∈ sectionId.parts) (hsize : link.sizes partId ≠ 0) :
    ∃ s ∈ link.input.sections, partOf link.input.table s = partId := by
  rw [link.sizes_of_inArray harray h hpart, flatten_groupItems] at hsize
  obtain ⟨item, hitem, heq⟩ := mem_taken hsize
  obtain ⟨s, hs, rfl⟩ := List.mem_map.mp hitem
  exact ⟨s, hs, heq⟩

theorem maxAlignment_le : link.outputSections.maxAlignment link.sizes sectionId ≤ 3 := by
  have hmin : (link.outputSections.outputInfo sectionId).minAlignment ≤ 3 := by
    rcases h with rfl | hmem
    · exact Nat.le_of_eq (link.array_info harray).minAlignment
    · obtain ⟨priority, -, -, hinfo⟩ := link.secondary_info hmem
      exact hinfo.minAlignment_le
  refine Nat.max_le.mpr ⟨?_, hmin⟩
  cases hfound : sectionId.parts.find? fun partId => link.sizes partId != 0 with
  | none => exact Nat.zero_le _
  | some partId =>
    have hsize : link.sizes partId ≠ 0 := by
      have hfirst := List.find?_some hfound
      rwa [bne_iff_ne] at hfirst
    obtain ⟨s, hs, rfl⟩ := link.partOf_of_sizes_ne_zero harray h
      (List.mem_of_find?_eq_some hfound) hsize
    show link.outputSections.partAlignment (partOf link.input.table s) ≤ 3
    rw [link.partAlignment_partOf hs]
    exact s.alignment_le

theorem stackable : Stackable link.sizes link.outputSections 3 sectionId where
  alloc := by
    rw [IsAlloc, link.primary_of_inArray harray h]
    exact link.alloc array harray
  regular := by
    rcases h with rfl | hmem
    · have hreg : ∀ id ∈ [initArray, finiArray], numSinglePartSections ≤ id := by decide
      exact hreg _ harray
    · obtain ⟨priority, -, hle, -⟩ := link.secondary_info hmem
      exact Nat.le_trans (Nat.le_add_right _ _) hle
  location := by
    rcases h with rfl | hmem
    · exact (link.array_info harray).location
    · obtain ⟨priority, -, -, hinfo⟩ := link.secondary_info hmem
      exact hinfo.location
  maxAlignment_le := link.maxAlignment_le harray h
  sizes partId hpart := by
    rw [link.sizes_of_inArray harray h hpart, flatten_groupItems]
    refine Bump.dvd_taken fun item hitem => ?_
    obtain ⟨s, -, rfl⟩ := List.mem_map.mp hitem
    exact wordSize_dvd_size s

end

end ArrayLink

end Sld.Arrays
