/-
# `Arrays.PointerOrder` — the order of constructors and destructors

Pointers are to be sorted by priority, those without one last, and otherwise
stay in the order of objects and sections.  What is written is sorted by
priority as well, but a section without a priority counts as one of 65535, and
within a priority larger alignments come first.

    InOrder             the array is the sorted list of all pointers
    Settled             two sections that the two orders agree on
    inOrder_iff         an array is in order
    arrays_inOrder_iff  all arrays are
-/
import Sld.Arrays.ArrayPlaces
import Sld.Arrays.PointerWriting

namespace Sld.Arrays

open Layout (OutputSectionId PartId)
open Bump (Slot)
open ArrayLink (codeRank)
open List (map_map mem_map pairwise_map)

/-- A pointer of a section, with the address at which the section puts it. -/
structure Pointer where
  source : PointerSection
  address : ℕ
  value : UInt64

/-- The pointers of a section, in the order of an array. -/
def pointersOf (entry : PointerSection × Slot PartId) : List Pointer :=
  entry.1.inArrayOrder.zipIdx.map fun word =>
    ⟨entry.1, entry.2.start + wordSize * word.2, word.1⟩

namespace ArrayLink

variable (link : ArrayLink) {array : OutputSectionId}

/-- All pointers of an array, in the order of objects and sections. -/
def pointers (array : OutputSectionId) : List Pointer :=
  (link.arrayPlaced array).flatMap pointersOf

/-- The pointers as they should follow each other: by their priority, and
otherwise in the order they have. -/
def expected (array : OutputSectionId) : List Pointer :=
  (link.pointers array).insertionSort fun pointer pointer' =>
    pointer.source.name.rank ≤ pointer'.source.name.rank

/-- What the sections of an array write. -/
def memory (array : OutputSectionId) : Memory :=
  writeAll (fun _ => none) ((link.arrayPlaced array).map fun entry => (entry.1, entry.2.start))

/-- The array consists of its pointers, each once, in the expected order. -/
structure InOrder (array : OutputSectionId) : Prop where
  size : link.arraySize array = wordSize * (link.expected array).length
  places : (link.expected array).map Pointer.address
    = List.range' (link.arrayStart array) (link.expected array).length wordSize
  contents : ∀ pointer ∈ link.expected array,
    link.memory array pointer.address = some pointer.value

end ArrayLink

/-- Of two sections with the same priority the later one comes first in memory
if and only if it is more aligned; it should if only the later one has a
priority in its name. -/
def Settled (s later : PointerSection) : Prop :=
  s.name.priority = later.name.priority →
    ((s.name.suffix = none ∧ later.name.suffix ≠ none) ↔ s.alignment.val < later.alignment.val)

theorem rank_le_iff (s later : PointerSection) :
    (codeRank s ≤ codeRank later ↔ s.name.rank ≤ later.name.rank) ↔ Settled s later := by
  have hle := s.name.priority_le
  have halign := s.alignment_le
  have halign' := later.alignment_le
  have hnone : ∀ name : ArraySectionName, name.suffix = none → name.priority = u16Max := by
    intro name h
    rw [ArraySectionName.priority, h]
  have harith : ∀ p p' a a' : ℕ, a ≤ 3 → a' ≤ 3 →
      (p * 17 + (17 - 1 - a) ≤ p' * 17 + (17 - 1 - a') ↔ p < p' ∨ p = p' ∧ a' ≤ a) := by
    omega
  have hcode : codeRank s ≤ codeRank later ↔ s.name.priority < later.name.priority
      ∨ s.name.priority = later.name.priority ∧ later.alignment.val ≤ s.alignment.val :=
    harith _ _ _ _ halign halign'
  rw [hcode, Settled, ArraySectionName.rank, ArraySectionName.rank]
  have hs := hnone s.name
  have hlater := hnone later.name
  generalize s.name.priority = p at *
  generalize later.name.priority = p' at *
  cases hsuf : s.name.suffix with
  | none =>
    have hp := hs hsuf
    cases hsuf' : later.name.suffix with
    | none =>
      have hp' := hlater hsuf'
      simp only [Option.isSome_none, Bool.false_eq_true, if_false, ne_eq, not_true_eq_false,
        and_false, false_iff]
      omega
    | some suffix' =>
      simp only [Option.isSome_none, Option.isSome_some, Bool.false_eq_true, if_false, if_true,
        ne_eq, reduceCtorEq, not_false_eq_true, and_true, true_iff]
      omega
  | some suffix =>
    cases hsuf' : later.name.suffix with
    | none =>
      have hp' := hlater hsuf'
      simp only [Option.isSome_none, Option.isSome_some, Bool.false_eq_true, if_false, if_true,
        reduceCtorEq, false_and, false_iff]
      omega
    | some suffix' =>
      simp only [Option.isSome_some, if_true, reduceCtorEq, false_and, false_iff]
      omega

namespace ArrayLink

variable (link : ArrayLink) {array : OutputSectionId}

/-! ## In memory -/

variable {entry : PointerSection × Slot PartId} {pointer : Pointer}

theorem source_of_mem (h : pointer ∈ pointersOf entry) : pointer.source = entry.1 := by
  obtain ⟨word, -, rfl⟩ := mem_map.mp h
  rfl

theorem length_pointersOf (entry : PointerSection × Slot PartId) :
    (pointersOf entry).length = entry.1.words.length := by
  rw [pointersOf, List.length_map, List.length_zipIdx, length_inArrayOrder]

theorem map_address_pointersOf (entry : PointerSection × Slot PartId) :
    (pointersOf entry).map Pointer.address
      = List.range' entry.2.start entry.1.words.length wordSize := by
  rw [pointersOf, map_map, ← length_inArrayOrder]
  refine List.ext_getElem? fun k => ?_
  rw [List.getElem?_map, List.getElem?_zipIdx]
  by_cases hk : k < entry.1.inArrayOrder.length
  · rw [List.getElem?_eq_getElem hk, List.getElem?_range' hk]
    simp
  · have hle := Nat.le_of_not_lt hk
    rw [List.getElem?_eq_none hle, List.getElem?_eq_none (by rwa [List.length_range'])]
    rfl

/-- The pointers of an array in the order of their addresses. -/
def pointersInMemory (array : OutputSectionId) : List Pointer :=
  (link.inMemory array).flatMap pointersOf

theorem pointersInMemory_eq (harray : array ∈ [initArray, finiArray]) :
    link.pointersInMemory array = (link.pointers array).insertionSort fun pointer pointer' =>
      codeRank pointer.source ≤ codeRank pointer'.source := by
  rw [pointersInMemory, link.inMemory_eq harray]
  exact @StableSort.insertionSort_flatMap _ _ _ (fun pointer : Pointer => codeRank pointer.source) _ _
    fun entry _ pointer hptr => congrArg codeRank (source_of_mem hptr)

theorem addresses_inMemory (harray : array ∈ [initArray, finiArray]) :
    (link.pointersInMemory array).map Pointer.address
        = List.range' (link.arrayStart array) (link.pointersInMemory array).length wordSize
      ∧ link.arraySize array = wordSize * (link.pointersInMemory array).length := by
  obtain ⟨start, stop, -, hstacked⟩ := link.stackedFrom_array harray
  obtain ⟨rfl, rfl⟩ := link.bounds_of_stackedFrom hstacked
  have hsize : ∀ entry ∈ link.inMemory array, entry.2.size = wordSize * entry.1.words.length :=
    fun entry hentry => (link.placed_spec (StableSort.mem_buckets.mp hentry).1).2.2
  have hcount : ∀ entry ∈ link.inMemory array, entry.2.size / wordSize = entry.1.words.length := by
    intro entry hentry
    rw [hsize entry hentry]
    exact Nat.mul_div_cancel_left _ (by decide)
  have hslots : ∀ slot ∈ (link.inMemory array).map Prod.snd,
      slot.size = wordSize * (slot.size / wordSize) := by
    intro slot hslot
    obtain ⟨entry, hentry, rfl⟩ := mem_map.mp hslot
    rw [hcount entry hentry, hsize entry hentry]
  obtain ⟨hstop, hwords⟩ := (link.contiguous_inMemory harray hstacked).words hslots
  have hlen : (((link.inMemory array).map Prod.snd).map fun slot => slot.size / wordSize).sum
      = (link.pointersInMemory array).length := by
    rw [pointersInMemory, List.length_flatMap, map_map]
    refine congrArg List.sum (List.map_congr_left fun entry hentry => ?_)
    rw [length_pointersOf]
    exact hcount entry hentry
  rw [hlen] at hstop hwords
  refine ⟨?_, Nat.add_left_cancel hstop⟩
  rw [← hwords, pointersInMemory, List.map_flatMap, List.flatMap_map]
  refine List.flatMap_congr fun entry hentry => ?_
  rw [map_address_pointersOf, hcount entry hentry]

theorem memory_pointers (harray : array ∈ [initArray, finiArray])
    (h : pointer ∈ link.pointers array) :
    link.memory array pointer.address = some pointer.value := by
  obtain ⟨entry, hentry, hptr⟩ := List.mem_flatMap.mp h
  obtain ⟨⟨value, k⟩, hword, rfl⟩ := mem_map.mp hptr
  have hvalue : entry.1.inArrayOrder[k]? = some value := List.mk_mem_zipIdx_iff_getElem?.mp hword
  have hmem : (entry.1, entry.2.start)
      ∈ (link.arrayPlaced array).map fun entry => (entry.1, entry.2.start) :=
    mem_map.mpr ⟨entry, hentry, rfl⟩
  refine writeAll_eq ?_ hmem hvalue
  -- sections of an array have no gaps between them, so none overlap
  obtain ⟨start, stop, -, hstacked⟩ := link.stackedFrom_array harray
  have happart := (link.contiguous_inMemory harray hstacked).pairwise_apart
  rw [pairwise_map] at happart
  have hperm : (link.inMemory array).Perm (link.arrayPlaced array) := by
    rw [link.inMemory_eq harray]
    exact List.perm_insertionSort _ _
  have hsymm := hperm.pairwise_iff (fun h => h.symm) |>.mp happart
  rw [pairwise_map]
  refine hsymm.imp_of_mem fun {a b} ha hb hab => ?_
  have hsize : ∀ entry ∈ link.arrayPlaced array, entry.2.size = entry.1.size :=
    fun entry hentry => (link.placed_spec (List.mem_of_mem_filter hentry)).2.2
  rw [← hsize a ha, ← hsize b hb]
  exact hab

/-! ## When the orders agree -/

theorem perm_expected : (link.expected array).Perm (link.pointers array) :=
  List.perm_insertionSort _ _

theorem places_iff (harray : array ∈ [initArray, finiArray]) :
    (link.expected array).map Pointer.address
        = List.range' (link.arrayStart array) (link.expected array).length wordSize
      ↔ link.expected array = link.pointersInMemory array := by
  obtain ⟨haddresses, -⟩ := link.addresses_inMemory harray
  have hperm : (link.expected array).Perm (link.pointersInMemory array) := by
    rw [link.pointersInMemory_eq harray]
    exact link.perm_expected.trans (List.perm_insertionSort _ _).symm
  have hincreasing : ∀ count, (List.range' (link.arrayStart array) count wordSize).Pairwise
      (· < ·) := fun count => List.pairwise_lt_range' wordSize (by decide)
  constructor
  · intro h
    have hexpected : (link.expected array).Pairwise fun pointer pointer' =>
        pointer.address < pointer'.address := by
      rw [← pairwise_map, h]
      exact hincreasing _
    have hinMemory : (link.pointersInMemory array).Pairwise fun pointer pointer' =>
        pointer.address < pointer'.address := by
      rw [← pairwise_map, haddresses]
      exact hincreasing _
    exact hperm.eq_of_pairwise (fun pointer pointer' _ _ hlt hlt' =>
      absurd hlt (Nat.not_lt.mpr (Nat.le_of_lt hlt'))) hexpected hinMemory
  · intro h
    rw [h]
    exact haddresses

/-- All pairs of sections of an array with pointers are settled. -/
def AllSettled (array : OutputSectionId) (sections : List PointerSection) : Prop :=
  (sections.filter fun s => s.array = array).Pairwise fun s later =>
    s.words ≠ [] → later.words ≠ [] → Settled s later

theorem map_fst_arrayPlaced : (link.arrayPlaced array).map Prod.fst
    = link.input.sections.filter fun s => s.array = array := by
  rw [← map_fst_placed, List.filter_map]
  rfl

theorem pointersOf_ne_nil_iff : (∃ pointer, pointer ∈ pointersOf entry) ↔ entry.1.words ≠ [] := by
  rw [← List.length_pos_iff_exists_mem, length_pointersOf, List.length_pos_iff]

theorem expected_eq_iff (harray : array ∈ [initArray, finiArray]) :
    link.expected array = link.pointersInMemory array ↔ AllSettled array link.input.sections := by
  rw [link.pointersInMemory_eq harray, expected, eq_comm, StableSort.insertionSort_eq_iff,
    pointers, List.pairwise_flatMap, AllSettled, ← map_fst_arrayPlaced, pairwise_map]
  constructor
  · rintro ⟨-, hpairs⟩
    refine hpairs.imp fun {entry later} hpair hwords hwords' => ?_
    obtain ⟨pointer, hptr⟩ := pointersOf_ne_nil_iff.mpr hwords
    obtain ⟨pointer', hptr'⟩ := pointersOf_ne_nil_iff.mpr hwords'
    have h := hpair pointer hptr pointer' hptr'
    rw [source_of_mem hptr, source_of_mem hptr'] at h
    exact (rank_le_iff _ _).mp h
  · intro hpairs
    refine ⟨fun entry _ => List.pairwise_of_forall_mem_list fun pointer hptr pointer'
      hptr' => ?_, hpairs.imp fun {entry later} hpair pointer hptr pointer' hptr' => ?_⟩
    · rw [source_of_mem hptr, source_of_mem hptr']
      exact iff_of_true (le_refl _) (le_refl _)
    · rw [source_of_mem hptr, source_of_mem hptr', rank_le_iff]
      exact hpair (pointersOf_ne_nil_iff.mp ⟨pointer, hptr⟩)
        (pointersOf_ne_nil_iff.mp ⟨pointer', hptr'⟩)

theorem inOrder_iff (harray : array ∈ [initArray, finiArray]) :
    link.InOrder array ↔ AllSettled array link.input.sections := by
  rw [← link.expected_eq_iff harray, ← link.places_iff harray]
  constructor
  · exact InOrder.places
  · intro hplaces
    have heq := (link.places_iff harray).mp hplaces
    obtain ⟨-, hsize⟩ := link.addresses_inMemory harray
    rw [← heq] at hsize
    exact ⟨hsize, hplaces, fun pointer hptr =>
      link.memory_pointers harray (link.perm_expected.mem_iff.mp hptr)⟩

/-- Both arrays are in order if and only if all sections are settled. -/
theorem arrays_inOrder_iff (link : ArrayLink) :
    (∀ array ∈ [initArray, finiArray], link.InOrder array)
      ↔ ∀ array ∈ [initArray, finiArray], AllSettled array link.input.sections :=
  forall₂_congr fun _ harray => link.inOrder_iff harray

end ArrayLink

/-! ## A section without a priority that does not come last -/

/-- The built-in sections; the two arrays are aligned to pointers. -/
def arrayBuiltIns : BuiltInArrays where
  sectionInfos := (List.range numBuiltInSections).map fun id =>
    ⟨none, ⟨.primary, Sections.SectionTable.defaultAttributes,
      if id = initArray || id = finiArray then 3 else 0, none, none⟩⟩
  length_eq := by decide +kernel
  arrays := by
    intro array harray
    rcases List.mem_cons.mp harray with rfl | harray
    · exact ⟨_, rfl, rfl, rfl, rfl⟩
    · obtain rfl := List.mem_singleton.mp harray
      exact ⟨_, rfl, rfl, rfl, rfl⟩
  primary := by decide +kernel

/-- `65535` -/
def lastSuffix : PrioritySuffix where
  digits := Text.bytes "65535"
  ne_nil := by decide
  all_digits := by decide
  value_le := by decide

/-- A section `.init_array` or `.init_array.65535` with one pointer. -/
def onePointer (suffix : Option PrioritySuffix) : PointerSection where
  name := ⟨.initArray, suffix⟩
  alignment := ⟨3, by decide⟩
  alignment_le := le_refl 3
  words := [0]
  relocations := []
  relocations_inside := by
    intro relocation hmem
    cases hmem

/-- Two objects, the first without a priority. -/
def lateInput : ArrayInput where
  builtIn := arrayBuiltIns
  args := ⟨[], none, none, none⟩
  groups := [[⟨[], [onePointer none]⟩, ⟨[], [onePointer (some lastSuffix)]⟩]]

def lateLink : ArrayLink where
  input := lateInput
  outputSections := Sections.allocatedSections lateInput.table
  infos := by
    intro sectionId named h
    constructor <;> simp only [Sections.allocatedSections, h, Option.elim_some]
  sections := [initArray, finiArray]
  nodup := by decide
  primary := by decide +kernel
  arrays := by decide
  alloc := by decide +kernel
  otherSizes _ := 0
  layoutArgs := ⟨12, false⟩
  not_partial := @rfl _ false

/-- `.init_array` of the first object comes before `.init_array.65535` of the
second. -/
theorem unsuffixed_before_last_priority : ¬ lateLink.InOrder initArray := by
  rw [lateLink.inOrder_iff (by decide)]
  intro h
  have hsecs : lateLink.input.sections.filter (fun s => s.array = initArray)
      = [onePointer none, onePointer (some lastSuffix)] := rfl
  rw [ArrayLink.AllSettled, hsecs] at h
  have hpair := (List.pairwise_cons.mp h).1 _ List.mem_cons_self (List.cons_ne_nil _ _)
    (List.cons_ne_nil _ _)
  have hpriority : (onePointer none).name.priority = (onePointer (some lastSuffix)).name.priority :=
    by decide
  have hlt : (3 : ℕ) < 3 := (hpair hpriority).mp ⟨rfl, Option.some_ne_none _⟩
  exact absurd hlt (lt_irrefl 3)

end Sld.Arrays
