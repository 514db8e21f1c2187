/-
# `Arrays.ArrayPlaces` — the sections of an array in memory

    stackedFrom_array       the parts of an array have no gaps
    inMemory                its sections in the order of their places
    contiguous_inMemory     they have no gaps either
    inMemory_eq             they are sorted by priority and alignment
-/
import Sld.Arrays.ArrayLayout

namespace Sld.Arrays

open Layout (OutputSectionId PartId numAlignments numSinglePartSections sectionMemSize sectionSlot
  partSlot StackedFrom)
open Bump (Slot bump taken Contiguous)
open StableSort (buckets)
open List (length_map map_map mem_flatMap)
open Layout.OutputSectionId (mem_parts)

namespace ArrayLink

variable (link : ArrayLink) {array : OutputSectionId}

theorem nodup_order : (Layout.sectionIds link.order.1).Nodup := by
  have hkind : ∀ primary, ∀ sectionId ∈ secondaries link.input.table primary,
      (link.outputSections.outputInfo sectionId).kind = .secondary primary := by
    intro primary sectionId hmem
    obtain ⟨priority, -, -, hinfo⟩ := link.secondary_info hmem
    exact hinfo.kind
  refine Layout.nodup_sectionIds_builtOrder ?_
  rw [List.nodup_append']
  refine ⟨link.nodup, ?_, fun sectionId hprimary hsecondary => ?_⟩
  · rw [List.nodup_flatMap]
    refine ⟨fun primary _ => link.nodup_secondaries primary, link.nodup.imp ?_⟩
    intro primary primary' hne sectionId hmem hmem'
    have heq := (hkind primary sectionId hmem).symm.trans (hkind primary' sectionId hmem')
    injection heq with heq
    exact hne heq
  · obtain ⟨primary, -, hmem⟩ := mem_flatMap.mp hsecondary
    have heq := (link.primary sectionId hprimary).symm.trans (hkind primary sectionId hmem)
    cases heq

/-- An array and its priorities, in their order. -/
def window (array : OutputSectionId) : List OutputSectionId := array :: link.ordered array

theorem inArray_of_mem_window {sectionId : OutputSectionId} (h : sectionId ∈ link.window array) :
    link.InArray array sectionId := by
  rcases List.mem_cons.mp h with rfl | hmem
  · exact .inl rfl
  · exact .inr (link.mem_ordered.mp hmem)

/-- The sections of one array, in the order in which they were assigned. -/
def arrayPlaced (array : OutputSectionId) : List (PointerSection × Slot PartId) :=
  link.placed.filter fun entry => entry.1.array = array

/-- The sections of one array, in the order of their parts. -/
def inMemory (array : OutputSectionId) : List (PointerSection × Slot PartId) :=
  buckets (fun entry => entry.2.key) ((link.window array).flatMap OutputSectionId.parts) link.placed

/-! ## The sections and their slots -/

theorem map_snd_placed : link.placed.map Prod.snd = bump
    (fun partId => (link.records partId).memOffset) link.groupItems.flatten := by
  obtain ⟨-, -, hparts⟩ := link.input.tracked
  rw [placed, groupSlots_eq]
  refine List.map_snd_zip (Nat.le_of_eq ?_)
  rw [Bump.length_bump, flatten_groupItems, hparts, map_map, length_map, length_map]

theorem map_fst_placed : link.placed.map Prod.fst = link.input.sections := by
  obtain ⟨-, -, hparts⟩ := link.input.tracked
  have hsecs : link.input.assigned.1.flatten.flatten.map Prod.fst = link.input.sections := by
    rw [hparts, map_map]
    exact List.map_id _
  rw [placed, groupSlots_eq, hsecs]
  refine List.map_fst_zip (Nat.le_of_eq ?_)
  rw [Bump.length_bump, flatten_groupItems, length_map]

theorem placed_spec {entry : PointerSection × Slot PartId} (h : entry ∈ link.placed) :
    entry.1 ∈ link.input.sections ∧ entry.2.key = partOf link.input.table entry.1
      ∧ entry.2.size = entry.1.size := by
  have hitems : link.placed.map (fun entry => (entry.2.key, entry.2.size))
      = link.placed.map fun entry => (partOf link.input.table entry.1, entry.1.size) := by
    have hslots := Bump.map_bump (fun partId => (link.records partId).memOffset)
      link.groupItems.flatten
    rw [← map_snd_placed, flatten_groupItems, ← map_fst_placed, map_map, map_map] at hslots
    exact hslots
  have hentry := List.map_inj_left.mp hitems entry h
  obtain ⟨hkey, hsize⟩ := Prod.mk.inj hentry
  refine ⟨?_, hkey, hsize⟩
  rw [← map_fst_placed]
  exact List.mem_map_of_mem h

variable {s : PointerSection}

theorem partOf_mem_window (h : s ∈ link.input.sections)
    (harray : s.array = array) : partOf link.input.table s
      ∈ (link.ordered array).flatMap OutputSectionId.parts := by
  subst harray
  exact mem_flatMap.mpr ⟨_, link.mem_ordered.mpr (link.secondaryOf_mem h).1, link.partOf_mem h⟩

theorem array_of_partOf_mem (h : s ∈ link.input.sections) (harray : array ∈ [initArray, finiArray])
    (hmem : partOf link.input.table s ∈ (link.window array).flatMap OutputSectionId.parts) :
    s.array = array := by
  have hself : s.array ∈ [initArray, finiArray] := by
    show s.name.kind.array ∈ _
    cases s.name.kind <;> decide
  obtain ⟨sectionId, hid, hpart⟩ := mem_flatMap.mp hmem
  have hsame : sectionId = secondaryOf link.input.table (s.array, s.name.priority) :=
    (mem_parts.mp hpart).symm.trans
      (mem_parts.mp (link.partOf_mem h))
  have hprimary := link.primary_of_inArray harray (link.inArray_of_mem_window hid)
  have hprimary' := link.primary_of_inArray hself (.inr (link.secondaryOf_mem h).1)
  rw [hsame] at hprimary
  exact hprimary'.symm.trans hprimary

/-! ## Without gaps -/

theorem contiguous_inMemory {start stop : ℕ} (harray : array ∈ [initArray, finiArray])
    (h : StackedFrom link.sizes link.records start (link.window array) stop) :
    Contiguous start ((link.inMemory array).map Prod.snd) stop := by
  have hslots : (link.inMemory array).map Prod.snd
      = (((link.window array).flatMap OutputSectionId.parts).map (partSlot link.records)).flatMap
        fun slot => (link.placed.map Prod.snd).filter fun other => other.key = slot.key := by
    have hmap := @StableSort.map_buckets (PointerSection × Slot PartId) PartId _
      (fun entry => entry.2.key) _ Slot.key Prod.snd (fun _ => rfl)
    rw [inMemory, hmap, List.flatMap_map]
    rfl
  rw [hslots, map_snd_placed]
  refine h.parts.flatMap fun slot hslot => ?_
  obtain ⟨partId, hpart, rfl⟩ := List.mem_map.mp hslot
  obtain ⟨sectionId, hid, hmem⟩ := mem_flatMap.mp hpart
  have hsize : (link.records partId).memSize = taken link.groupItems.flatten partId :=
    (h.memSize sectionId hid partId hmem).trans
      (link.sizes_of_inArray harray (link.inArray_of_mem_window hid) hmem)
  have hfilled := Bump.contiguous_filter_bump (fun partId => (link.records partId).memOffset)
    link.groupItems.flatten partId
  rw [← hsize] at hfilled
  exact hfilled

theorem stackedFrom_array (harray : array ∈ [initArray, finiArray]) : ∃ start stop, wordSize ∣ start
      ∧ StackedFrom link.sizes link.records start (link.window array) stop := by
  obtain ⟨before, after, horder⟩ := @Layout.builtOrder_window link.outputSections _
    (secondaries link.input.table) _ (link.arrays array harray)
  have hmax : link.outputSections.maxAlignment link.sizes array = 3 := by
    refine Nat.le_antisymm (link.maxAlignment_le harray (.inl rfl)) ?_
    rw [← (link.array_info harray).minAlignment]
    exact Nat.le_max_right _ _
  exact Layout.stackedFrom_layoutSectionParts horder link.nodup_order link.not_partial (by decide)
    (fun sectionId hid => link.stackable harray (link.inArray_of_mem_window hid)) hmax

theorem bounds_of_stackedFrom {start stop : ℕ}
    (h : StackedFrom link.sizes link.records start (link.window array) stop) :
    link.arrayStart array = start ∧ start + link.arraySize array = stop := by
  have hsizes : ∀ slot ∈ (link.window array).map (sectionSlot link.records),
      slot.size = 1 * slot.size := fun slot _ => (Nat.one_mul _).symm
  have hwords := h.sections.words hsizes
  have hperm : (link.ordered array).Perm (secondaries link.input.table array) :=
    List.perm_insertionSort _ _
  refine ⟨h.sections.1, ?_⟩
  rw [hwords.1, Nat.one_mul, map_map]
  exact congrArg (start + ·) (congrArg (sectionMemSize link.records array + ·)
    (hperm.map (sectionMemSize link.records)).sum_eq.symm)

/-! ## Their order -/

/-- The place of a part among those of all priorities. -/
def partRank (partId : PartId) : ℕ :=
  link.priorityOf partId.outputSectionId * numAlignments
    + (partId - partId.outputSectionId.basePartId)

theorem pairwise_partRank : ((link.ordered array).flatMap OutputSectionId.parts).Pairwise
    fun partId partId' => link.partRank partId < link.partRank partId' := by
  have hreg : ∀ sectionId ∈ link.ordered array, ∀ partId ∈ sectionId.parts,
      sectionId.basePartId ≤ partId ∧ partId < sectionId.basePartId + numAlignments := by
    intro sectionId hid partId hmem
    obtain ⟨priority, -, hle, -⟩ := link.secondary_info (link.mem_ordered.mp hid)
    have hnot : ¬ sectionId < numSinglePartSections :=
      Nat.not_lt.mpr (Nat.le_trans (Nat.le_add_right _ _) hle)
    rw [OutputSectionId.parts, OutputSectionId.numParts, if_neg hnot] at hmem
    exact List.mem_range'_1.mp hmem
  rw [List.pairwise_flatMap]
  refine ⟨fun sectionId hid => ?_, link.pairwise_ordered.imp_of_mem ?_⟩
  · have hlt : sectionId.parts.Pairwise (· < ·) := List.pairwise_lt_range'
    refine hlt.imp_of_mem fun {a b} ha hb hab => ?_
    have harith : ∀ base priority a b : ℕ, base ≤ a → a < b →
        priority + (a - base) < priority + (b - base) := by
      omega
    rw [partRank, partRank, mem_parts.mp ha,
      mem_parts.mp hb]
    exact harith _ _ a b (hreg sectionId hid a ha).1 hab
  · intro sectionId sectionId' hid hid' hlt a ha b hb
    have harith : ∀ base base' priority priority' a b : ℕ, priority < priority' →
        base ≤ a → a < base + 17 → priority * 17 + (a - base) < priority' * 17 + (b - base') := by
      omega
    rw [partRank, partRank, mem_parts.mp ha,
      mem_parts.mp hb]
    exact harith _ _ _ _ a b hlt (hreg sectionId hid a ha).1 (hreg sectionId hid a ha).2

theorem partRank_partOf (h : s ∈ link.input.sections) : link.partRank (partOf link.input.table s)
      = s.name.priority * numAlignments + (numAlignments - 1 - s.alignment.val) := by
  obtain ⟨-, hreg, hpriority⟩ := link.secondaryOf_mem h
  rw [partRank, mem_parts.mp (link.partOf_mem h), hpriority, partOf,
    partIdWithAlignment_eq hreg (Nat.le_of_lt_succ s.alignment.isLt), Nat.add_sub_cancel_left]

/-- Priority first, then the larger alignment. -/
def codeRank (s : PointerSection) : ℕ :=
  s.name.priority * numAlignments + (numAlignments - 1 - s.alignment.val)

theorem inMemory_eq (harray : array ∈ [initArray, finiArray]) :
    link.inMemory array = (link.arrayPlaced array).insertionSort fun entry entry' =>
      codeRank entry.1 ≤ codeRank entry'.1 := by
  have hown : buckets (fun entry : PointerSection × Slot PartId => entry.2.key) array.parts
      link.placed = [] := by
    refine StableSort.buckets_eq_nil fun entry hentry hmem => ?_
    obtain ⟨hs, hkey, -⟩ := link.placed_spec hentry
    rw [hkey] at hmem
    have hsame := (mem_parts.mp hmem).symm.trans
      (mem_parts.mp (link.partOf_mem hs))
    obtain ⟨priority, -, hle, -⟩ := link.secondary_info (link.secondaryOf_mem hs).1
    rw [← hsame] at hle
    have hlt : ∀ id ∈ [initArray, finiArray], id < numBuiltInSections := by decide
    exact absurd (hlt array harray) (Nat.not_lt.mpr hle)
  have hothers : buckets (fun entry : PointerSection × Slot PartId => entry.2.key)
      ((link.ordered array).flatMap OutputSectionId.parts) (link.arrayPlaced array)
      = buckets (fun entry => entry.2.key)
        ((link.ordered array).flatMap OutputSectionId.parts) link.placed := by
    refine StableSort.buckets_filter fun entry hentry hmem => decide_eq_true ?_
    obtain ⟨hs, hkey, -⟩ := link.placed_spec hentry
    refine link.array_of_partOf_mem hs harray ?_
    rw [← hkey]
    exact mem_flatMap.mpr (by
      obtain ⟨sectionId, hid, hpart⟩ := mem_flatMap.mp hmem
      exact ⟨sectionId, List.mem_cons_of_mem _ hid, hpart⟩)
  have hkeys : ∀ entry ∈ link.arrayPlaced array,
      entry.2.key ∈ (link.ordered array).flatMap OutputSectionId.parts := by
    intro entry hentry
    obtain ⟨hmem, harray⟩ := List.mem_filter.mp hentry
    obtain ⟨hs, hkey, -⟩ := link.placed_spec hmem
    rw [hkey]
    exact link.partOf_mem_window hs (of_decide_eq_true harray)
  have hsorted := @StableSort.buckets_eq_insertionSort (PointerSection × Slot PartId) PartId _
    (fun entry => entry.2.key) _ _ _ _ (@link.pairwise_partRank array) (link.arrayPlaced array)
    hkeys
  rw [inMemory, window, List.flatMap_cons, StableSort.buckets_append, hown, List.nil_append,
    ← hothers, hsorted]
  -- the rank of a part is that of its sections
  refine StableSort.insertionSort_congr (List.pairwise_of_forall_mem_list fun entry hentry entry'
    hentry' => ?_)
  obtain ⟨hs, hkey, -⟩ := link.placed_spec (List.mem_of_mem_filter hentry)
  obtain ⟨hs', hkey', -⟩ := link.placed_spec (List.mem_of_mem_filter hentry')
  rw [hkey, hkey', link.partRank_partOf hs, link.partRank_partOf hs', codeRank, codeRank]

end ArrayLink

end Sld.Arrays
