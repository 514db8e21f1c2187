/-
# `Incremental.DynamicSlots` — the slots of `.rela.dyn` over a run of updates

Every record of a dynamic relocation has a slot of `.rela.dyn`, and the
general part of the section may have free ones.  For each changed input
`patch_changed_inputs` computes the free slots anew from the records, which
earlier inputs have extended.  Records of relocations that are gone stay,
with their slot, if the entry can be restored; the others give it up.

Entries of `.relr.dyn` are recorded too; their records have another size
and no slot here.
-/
import Sld.Incremental.DynamicPatches

namespace Sld.Incremental

open Text (hexEncode)
open Text.Reader (bind_eq_ok)
open List (filter_cons filter_cons_of_neg mem_filter mem_map nodup_nil not_mem_nil)

/-! ## Section records -/

/-- Where a section of an input is in the output. -/
structure PatchSection where
  input : Text
  sectionIndex : UInt32
  outputOffset : UInt64
  outputSize : UInt64

structure MatchedPatchSection where
  previous : PatchSection
  current : PatchSection

/-- `section_record_update_key` -/
def SectionRecord.hasUpdateKey (inputFile : Text) (sec : PatchSection) (record : SectionRecord) :
    Bool :=
  record.inputFile = inputFile && record.input = sec.input
    && record.sectionIndex = sec.sectionIndex && record.outputOffset = sec.outputOffset
    && record.size = sec.outputSize

/-- `update_section_record` -/
def SectionRecord.update (record : SectionRecord) (current : PatchSection) : SectionRecord :=
  { record with
    input := current.input, sectionIndex := current.sectionIndex
    outputOffset := current.outputOffset, size := current.outputSize }

/-- `update_section_record_for_matched_patch`: the first record of the section. -/
def updateSectionRecord (inputFile : Text) (matched : MatchedPatchSection) :
    List SectionRecord → List SectionRecord
  | [] => []
  | record :: records =>
    if record.hasUpdateKey inputFile matched.previous then
      record.update matched.current :: records
    else record :: updateSectionRecord inputFile matched records

/-- `update_section_records_for_matched_patches`; of two matches of one section the
last one counts. -/
def updateSectionRecords (inputFile : Text) (matched : List MatchedPatchSection)
    (records : List SectionRecord) : List SectionRecord :=
  match matched with
  | [only] => updateSectionRecord inputFile only records
  | _ => records.map fun record =>
    match matched.reverse.find? fun sec => record.hasUpdateKey inputFile sec.previous with
    | some sec => record.update sec.current
    | none => record

/-- The record of the general part of `.rela.dyn`. -/
def SectionRecord.isRelaDynGeneral (record : SectionRecord) : Bool :=
  record.inputFile = generatedSectionInputFile && record.input = generatedRelaDynGeneral

/-! ## One input -/

/-- What the dynamic relocations of the state are about. -/
structure SlotState where
  sections : List SectionRecord
  dynamicRelocations : List DynamicRelocationRecord
  deriving DecidableEq

/-- A changed input, as far as dynamic relocations go. -/
structure DynamicInput where
  /-- The bytes of the path; the state has them in hexadecimal. -/
  path : List UInt8
  /-- The object that a reference names, in the current file. -/
  version : Text → Option RelaEntries
  /-- The current and the previous object, if there is a snapshot and both have
  section headers. -/
  snapshot : Option (RelaEntries × RelaEntries)
  matched : List MatchedSection
  /-- The matched sections after their patches have been resolved. -/
  updated : List MatchedPatchSection

namespace SlotState

variable (state : SlotState) (input : DynamicInput)

/-- The records of the input. -/
def recordsOf : List DynamicRelocationRecord :=
  state.dynamicRelocations.filter fun record => record.inputFile = hexEncode input.path

/-- The patches of new relocations. -/
def addedPatchesOf : List DynamicRelocationPatch :=
  match input.snapshot with
  | some (current, previous) =>
    addedDynamicRelocationPatches current previous (hexEncode input.path) input.matched
      state.dynamicRelocations state.sections
  | none => []

/-- `dynamic_relocation_patches` -/
def patchesOf : List DynamicRelocationPatch :=
  dynamicRelocationPatchesForInput input.version (state.recordsOf input) ++
    state.addedPatchesOf input

/-- `added_dynamic_relocations` -/
def addedRecords : List DynamicRelocationRecord :=
  ((state.patchesOf input).filter fun patch => patch.isNew).map fun patch => patch.record

/-- `removed_dynamic_relocations`: the records whose patch has no range of the input,
because the relocation is gone. -/
def removedRecords : List DynamicRelocationRecord :=
  (state.recordsOf input).filter fun record => record.size = relaEntrySize
    && ((input.version record.input).map fun entries => (record.relaIn entries).isNone).getD false

/-- The updates of `patch_changed_inputs` that concern dynamic relocations, for one
input; an error means that the output is not patched. -/
def patchDynamicRelocations (recordsComplete : Bool) : Except String SlotState := do
  let sections := updateSectionRecords (hexEncode input.path) input.updated state.sections
  if sections ≠ state.sections ∧ ¬ recordsComplete then
    throw "changed input needs complete section records"
  let added := state.addedRecords input
  if ¬ added.isEmpty ∧ ¬ recordsComplete then
    throw "changed input needs complete dynamic relocation records"
  let extended :=
    if added.isEmpty then state.dynamicRelocations
    else sortDedup (state.dynamicRelocations ++ added)
  let removed := state.removedRecords input
  if ¬ removed.isEmpty ∧ ¬ recordsComplete then
    throw "changed input needs complete dynamic relocation records"
  pure ⟨sections, extended.filter fun record =>
    !removed.contains record || record.hasRestorableRelaOutputInfo⟩

/-- The loop over the changed inputs. -/
def patchRun (recordsComplete : Bool) (inputs : List DynamicInput) : Except String SlotState :=
  inputs.foldlM (fun state input => state.patchDynamicRelocations input recordsComplete) state

end SlotState

/-! ## Slots -/

/-- A record of an entry of `.rela.dyn`. -/
def DynamicRelocationRecord.HasSlot (record : DynamicRelocationRecord) : Prop :=
  record.size = relaEntrySize

/-- Different records have different slots. -/
def DistinctSlots (records : List DynamicRelocationRecord) : Prop :=
  ∀ record ∈ records, ∀ other ∈ records, record.HasSlot → other.HasSlot →
    record.outputOffset = other.outputOffset → record = other

/-- A slot of an area: a number of entries after its start, and before its end. -/
def IsSlotOf (area : SectionRecord) (slot : UInt64) : Prop :=
  ∃ k, slot.toNat = area.outputOffset.toNat + relaEntrySize.toNat * k ∧
    slot.toNat + relaEntrySize.toNat ≤ area.outputOffset.toNat + area.size.toNat

/-! ### The free slots -/

section

variable {used slots : List UInt64} {count : ℕ} {base slot : UInt64}

theorem toNat_add_relaEntrySize (h : base.toNat + 24 < 2 ^ 64) :
    (base + relaEntrySize).toNat = base.toNat + 24 := by
  exact Nat.mod_eq_of_lt h

theorem mem_sectionSlots (hfits : base.toNat + 24 * count < 2 ^ 64) :
    slot ∈ sectionSlots used count base ↔
      slot ∉ used ∧ ∃ k < count, slot.toNat = base.toNat + 24 * k := by
  induction count generalizing base with
  | zero =>
    refine iff_of_false not_mem_nil ?_
    rintro ⟨-, k, hk, -⟩
    exact absurd hk (Nat.not_lt_zero k)
  | succ count ih =>
    have hrest : slot ∈ sectionSlots used count (base + relaEntrySize) ↔
        slot ∉ used ∧ ∃ k < count, slot.toNat = base.toNat + 24 * (k + 1) := by
      have hnext : (base + relaEntrySize).toNat = base.toNat + 24 :=
        toNat_add_relaEntrySize (by omega)
      rw [ih (by omega), hnext]
      refine and_congr_right fun _ => exists_congr fun k => and_congr_right fun _ => ?_
      rw [Nat.mul_succ, Nat.add_assoc, Nat.add_comm 24]
    have hsplit : (∃ k < count + 1, slot.toNat = base.toNat + 24 * k) ↔
        slot = base ∨ ∃ k < count, slot.toNat = base.toNat + 24 * (k + 1) := by
      constructor
      · rintro ⟨k, hk, hslot⟩
        cases k with
        | zero => exact .inl (UInt64.toNat_inj.mp hslot)
        | succ k => exact .inr ⟨k, Nat.lt_of_succ_lt_succ hk, hslot⟩
      · rintro (rfl | ⟨k, hk, hslot⟩)
        · exact ⟨0, Nat.succ_pos _, rfl⟩
        · exact ⟨k + 1, Nat.succ_lt_succ hk, hslot⟩
    rw [sectionSlots, hsplit]
    by_cases hbase : base ∈ used
    · simp only [if_pos hbase, hrest]
      constructor
      · rintro ⟨hfree, hk⟩
        exact ⟨hfree, .inr hk⟩
      · rintro ⟨hfree, rfl | hk⟩
        · exact absurd hbase hfree
        · exact ⟨hfree, hk⟩
    · simp only [if_neg hbase, List.mem_cons, hrest]
      constructor
      · rintro (rfl | ⟨hfree, hk⟩)
        · exact ⟨hbase, .inl rfl⟩
        · exact ⟨hfree, .inr hk⟩
      · rintro ⟨hfree, rfl | hk⟩
        · exact .inl rfl
        · exact .inr ⟨hfree, hk⟩

theorem nodup_sectionSlots (hfits : base.toNat + 24 * count < 2 ^ 64) :
    (sectionSlots used count base).Nodup := by
  induction count generalizing base with
  | zero => exact nodup_nil
  | succ count ih =>
    have hnext : (base + relaEntrySize).toNat = base.toNat + 24 :=
      toNat_add_relaEntrySize (by omega)
    have hrest : (base + relaEntrySize).toNat + 24 * count < 2 ^ 64 := by omega
    unfold sectionSlots
    by_cases hbase : base ∈ used
    · simp only [if_pos hbase]
      exact ih hrest
    · simp only [if_neg hbase]
      refine List.nodup_cons.mpr ⟨fun hmem => ?_, ih hrest⟩
      obtain ⟨-, k, -, hk⟩ := (mem_sectionSlots hrest).mp hmem
      omega

end

section

variable {sections : List SectionRecord} {records : List DynamicRelocationRecord}
  {slot : UInt64}

theorem mem_freeSlots (h : slot ∈ freeDynamicRelocationOutputSlots sections records) :
    (∃ sec ∈ sections, sec.isRelaDynGeneral = true ∧ IsSlotOf sec slot) ∧
      ∀ record ∈ records, record.outputOffset ≠ slot := by
  unfold freeDynamicRelocationOutputSlots at h
  rw [List.mem_mergeSort, List.mem_flatMap] at h
  obtain ⟨sec, hsec, hslot⟩ := h
  split at hslot
  · next hcond =>
    obtain ⟨hfile, hinput, hfits⟩ := hcond
    have hbound : sec.outputOffset.toNat + 24 * (sec.size.toNat / 24) < 2 ^ 64 := by omega
    obtain ⟨hfree, k, hk, hvalue⟩ := (mem_sectionSlots hbound).mp hslot
    refine ⟨⟨sec, hsec, ?_, k, hvalue, ?_⟩, ?_⟩
    · rw [SectionRecord.isRelaDynGeneral, hfile, hinput, decide_eq_true rfl, decide_eq_true rfl]
      rfl
    · show slot.toNat + 24 ≤ _
      omega
    · intro record hrecord heq
      exact hfree (heq ▸ List.mem_map_of_mem hrecord)
  · cases hslot

theorem nodup_flatMap_of_filter {α β : Type} {p : α → Bool} {f : α → List β} {l : List α}
    (hempty : ∀ a, p a = false → f a = []) (hnodup : ∀ a, (f a).Nodup)
    (h : (l.filter p).length ≤ 1) : (l.flatMap f).Nodup := by
  induction l with
  | nil => exact nodup_nil
  | cons a l ih =>
    rw [List.flatMap_cons]
    cases hp : p a with
    | true =>
      rw [List.filter_cons_of_pos hp, List.length_cons] at h
      have hrest : l.filter p = [] := List.length_eq_zero_iff.mp (by omega)
      have hnone : l.flatMap f = [] := List.flatMap_eq_nil_iff.mpr fun b hb =>
        hempty b (Bool.eq_false_iff.mpr (List.filter_eq_nil_iff.mp hrest b hb))
      rw [hnone, List.append_nil]
      exact hnodup a
    | false =>
      rw [hempty a hp]
      rw [filter_cons_of_neg (Bool.eq_false_iff.mp hp)] at h
      exact ih h

theorem nodup_freeSlots (harea : (sections.filter SectionRecord.isRelaDynGeneral).length ≤ 1) :
    (freeDynamicRelocationOutputSlots sections records).Nodup := by
  refine (List.mergeSort_perm _ _).nodup_iff.mpr (nodup_flatMap_of_filter ?_ ?_ harea)
  · intro sec hsec
    refine if_neg fun hcond => ?_
    rw [SectionRecord.isRelaDynGeneral, hcond.1, hcond.2.1, decide_eq_true rfl,
      decide_eq_true rfl] at hsec
    cases hsec
  · intro sec
    split
    · next hcond =>
      exact nodup_sectionSlots (by omega)
    · exact nodup_nil

end

/-! ### The new records -/

section

variable {path : Text} {reference : MatchedSection → InputRela → Option DynamicRelocationRecord}
  {slots : List UInt64} {added : List (MatchedSection × InputRela)} {sec : MatchedSection}
  {rela : InputRela} {known : DynamicRelocationRecord} {slot : UInt64}
  {patch : DynamicRelocationPatch}

theorem mem_addPatches_record (h : patch ∈ addPatches path reference slots added) :
    patch.isNew = true ∧ patch.record.HasSlot ∧
      patch.record.hasRestorableRelaOutputInfo = true := by
  obtain ⟨sec, rela, known, slot, -, -, hpatch⟩ := mem_addPatches h
  obtain ⟨rOffset, rInfo, moved, -, -, -, rfl⟩ := addedPatch_inv hpatch
  exact ⟨rfl, rfl, rfl⟩

theorem addPatches_sublist : ((addPatches path reference slots added).map
    fun patch => patch.record.outputOffset).Sublist slots := by
  induction added generalizing slots with
  | nil => exact List.nil_sublist _
  | cons head rest ih =>
    obtain ⟨sec, rela⟩ := head
    unfold addPatches
    cases hknown : reference sec rela with
    | none => exact ih
    | some known =>
      cases slots with
      | nil => exact List.nil_sublist _
      | cons slot slots =>
        rw [List.map_append]
        cases hpatch : addedPatch path sec rela known slot with
        | none => exact ih.cons slot
        | some patch =>
          obtain ⟨rOffset, rInfo, moved, -, -, -, rfl⟩ := addedPatch_inv hpatch
          exact ih.cons_cons slot

end

namespace SlotState

variable {state next : SlotState} {input : DynamicInput} {recordsComplete : Bool}

theorem addedRecords_eq :
    state.addedRecords input = (state.addedPatchesOf input).map fun patch => patch.record := by
  have hold : (dynamicRelocationPatchesForInput input.version (state.recordsOf input)).filter
      (fun patch => patch.isNew) = [] := by
    refine List.filter_eq_nil_iff.mpr fun patch hpatch => ?_
    obtain ⟨record, -, hsome⟩ := List.mem_filterMap.mp hpatch
    obtain ⟨entries, -, hsome⟩ := Option.bind_eq_some_iff.mp hsome
    unfold dynamicRelocationPatch at hsome
    split at hsome
    · cases hsome
    · split at hsome
      · cases hsome
        exact Bool.false_ne_true
      · cases hsome
        exact Bool.false_ne_true
  have hnew : (state.addedPatchesOf input).filter (fun patch => patch.isNew) =
      state.addedPatchesOf input := by
    refine List.filter_eq_self.mpr fun patch hpatch => ?_
    unfold addedPatchesOf addedDynamicRelocationPatches at hpatch
    split at hpatch
    · split at hpatch
      · cases hpatch
      · exact (mem_addPatches_record hpatch).1
    · cases hpatch
  rw [addedRecords, patchesOf, List.filter_append, hold, List.nil_append, hnew]

/-- What is known of the new records of one input. -/
structure FreshRecords (state : SlotState) (added : List DynamicRelocationRecord) : Prop where
  hasSlot : ∀ record ∈ added, record.HasSlot
  restorable : ∀ record ∈ added, record.hasRestorableRelaOutputInfo = true
  inArea : ∀ record ∈ added, ∃ area ∈ state.sections, area.isRelaDynGeneral = true ∧
    IsSlotOf area record.outputOffset
  free : ∀ record ∈ added, ∀ other ∈ state.dynamicRelocations, other.HasSlot →
    other.outputOffset ≠ record.outputOffset
  nodup : (added.map DynamicRelocationRecord.outputOffset).Nodup

theorem freshRecords (harea : (state.sections.filter SectionRecord.isRelaDynGeneral).length ≤ 1) :
    state.FreshRecords (state.addedRecords input) := by
  rw [addedRecords_eq]
  unfold addedPatchesOf addedDynamicRelocationPatches
  have hnone : state.FreshRecords (([] : List DynamicRelocationPatch).map
      fun patch => patch.record) :=
    ⟨fun _ h => absurd h not_mem_nil, fun _ h => absurd h not_mem_nil,
      fun _ h => absurd h not_mem_nil, fun _ h => absurd h not_mem_nil, nodup_nil⟩
  split
  · split
    · exact hnone
    · next current previous _ _ =>
      dsimp only
      generalize hadded : input.matched.flatMap _ = entries
      generalize hreference : (fun sec => referenceFor (previous sec.previousIndex) _ sec) = reference
      generalize hslots : freeDynamicRelocationOutputSlots state.sections _ = slots
      have hsublist : ((addPatches (hexEncode input.path) reference slots entries).map
          fun patch => patch.record.outputOffset).Sublist slots := addPatches_sublist
      have hmem : ∀ patch ∈ addPatches (hexEncode input.path) reference slots entries,
          patch.record.outputOffset ∈ slots := fun patch hpatch =>
        hsublist.subset (List.mem_map_of_mem hpatch)
      refine ⟨?_, ?_, ?_, ?_, ?_⟩
      · intro record hrecord
        obtain ⟨patch, hpatch, rfl⟩ := mem_map.mp hrecord
        exact (mem_addPatches_record hpatch).2.1
      · intro record hrecord
        obtain ⟨patch, hpatch, rfl⟩ := mem_map.mp hrecord
        exact (mem_addPatches_record hpatch).2.2
      · intro record hrecord
        obtain ⟨patch, hpatch, rfl⟩ := mem_map.mp hrecord
        exact (mem_freeSlots (hslots ▸ hmem patch hpatch)).1
      · intro record hrecord other hother hslot
        obtain ⟨patch, hpatch, rfl⟩ := mem_map.mp hrecord
        refine (mem_freeSlots (hslots ▸ hmem patch hpatch)).2 other ?_
        exact mem_filter.mpr ⟨hother, decide_eq_true hslot⟩
      · rw [List.map_map]
        exact (hslots ▸ nodup_freeSlots harea).sublist hsublist
  · exact hnone

end SlotState

/-! ### The records of sections -/

section

variable {inputFile : Text} {records : List SectionRecord} {matched : List MatchedPatchSection}

theorem hexEncode_ne_generated (path : List UInt8) : hexEncode path ≠ generatedSectionInputFile := by
  intro h
  have hmem : 'g' ∈ hexEncode path := h ▸ (by decide : 'g' ∈ generatedSectionInputFile)
  exact absurd (Text.isHex_of_mem_hexEncode hmem) (by decide)

theorem isRelaDynGeneral_of_hasUpdateKey (hfile : inputFile ≠ generatedSectionInputFile)
    {record : SectionRecord} {previous current : PatchSection}
    (h : record.hasUpdateKey inputFile previous = true) :
    record.isRelaDynGeneral = false ∧ (record.update current).isRelaDynGeneral = false := by
  have hsame : record.inputFile = inputFile := by
    simp only [SectionRecord.hasUpdateKey, Bool.and_eq_true, decide_eq_true_eq] at h
    exact h.1.1.1.1
  have hother : decide (record.inputFile = generatedSectionInputFile) = false :=
    decide_eq_false (hsame ▸ hfile)
  constructor
  · rw [SectionRecord.isRelaDynGeneral, hother]
    rfl
  · show (decide (record.inputFile = generatedSectionInputFile) && _) = false
    rw [hother]
    rfl

theorem filter_updateSectionRecord (hfile : inputFile ≠ generatedSectionInputFile)
    (only : MatchedPatchSection) :
    (updateSectionRecord inputFile only records).filter SectionRecord.isRelaDynGeneral =
      records.filter SectionRecord.isRelaDynGeneral := by
  induction records with
  | nil => rfl
  | cons record records ih =>
    rw [updateSectionRecord]
    split
    · next hkey =>
      have hneither : record.isRelaDynGeneral = false ∧
          (record.update only.current).isRelaDynGeneral = false :=
        isRelaDynGeneral_of_hasUpdateKey hfile hkey
      rw [filter_cons_of_neg (Bool.eq_false_iff.mp hneither.2),
        filter_cons_of_neg (Bool.eq_false_iff.mp hneither.1)]
    · rw [filter_cons, filter_cons, ih]

theorem filter_updateSectionRecords (hfile : inputFile ≠ generatedSectionInputFile) :
    (updateSectionRecords inputFile matched records).filter SectionRecord.isRelaDynGeneral =
      records.filter SectionRecord.isRelaDynGeneral := by
  unfold updateSectionRecords
  split
  · exact filter_updateSectionRecord hfile _
  · induction records with
    | nil => rfl
    | cons record records ih =>
      rw [List.map_cons]
      cases hfind : matched.reverse.find? fun sec =>
          record.hasUpdateKey inputFile sec.previous with
      | none => rw [filter_cons, filter_cons, ih]
      | some sec =>
        have hkey := List.find?_some hfind
        have hneither : record.isRelaDynGeneral = false ∧
            (record.update sec.current).isRelaDynGeneral = false :=
          isRelaDynGeneral_of_hasUpdateKey hfile hkey
        rw [filter_cons_of_neg (Bool.eq_false_iff.mp hneither.2),
          filter_cons_of_neg (Bool.eq_false_iff.mp hneither.1), ih]

end

namespace SlotState

variable {state next final : SlotState} {input : DynamicInput} {inputs : List DynamicInput}
  {recordsComplete : Bool} {areas : List SectionRecord}

theorem patchDynamicRelocations_eq_ok
    (h : state.patchDynamicRelocations input recordsComplete = .ok next) :
    next.sections = updateSectionRecords (hexEncode input.path) input.updated state.sections ∧
    ∀ record, record ∈ next.dynamicRelocations ↔
      (record ∈ state.dynamicRelocations ∨ record ∈ state.addedRecords input) ∧
      (record ∉ state.removedRecords input ∨ record.hasRestorableRelaOutputInfo = true) := by
  unfold patchDynamicRelocations at h
  dsimp only at h
  split at h
  · cases h
  split at h
  · cases h
  split at h
  · cases h
  cases h
  refine ⟨rfl, fun record => ?_⟩
  rw [mem_filter, Bool.or_eq_true, Bool.not_eq_true', List.contains_eq_mem, decide_eq_false_iff_not]
  refine and_congr_left fun _ => ?_
  split
  · next hempty =>
    rw [List.isEmpty_iff.mp hempty]
    exact (or_iff_left not_mem_nil).symm
  · rw [mem_sortDedup, List.mem_append]

/-- What holds before and after every input. -/
structure SlotInvariant (areas : List SectionRecord) (state : SlotState) : Prop where
  sections : state.sections.filter SectionRecord.isRelaDynGeneral = areas
  distinct : DistinctSlots state.dynamicRelocations

namespace SlotInvariant

theorem freshRecords (h : SlotInvariant areas state) (hareas : areas.length ≤ 1)
    (input : DynamicInput) : state.FreshRecords (state.addedRecords input) :=
  SlotState.freshRecords (h.sections ▸ hareas)

theorem patch (h : SlotInvariant areas state) (hareas : areas.length ≤ 1)
    (hstep : state.patchDynamicRelocations input recordsComplete = .ok next) :
    SlotInvariant areas next := by
  obtain ⟨hsecs, hrecords⟩ := patchDynamicRelocations_eq_ok hstep
  have hfresh := h.freshRecords hareas input
  refine ⟨?_, ?_⟩
  · rw [hsecs, filter_updateSectionRecords (hexEncode_ne_generated _)]
    exact h.sections
  · intro record hrecord other hother hslot hslot' heq
    rcases ((hrecords record).mp hrecord).1 with hold | hnew
    · rcases ((hrecords other).mp hother).1 with hold' | hnew'
      · exact h.distinct record hold other hold' hslot hslot' heq
      · exact absurd heq (hfresh.free other hnew' record hold hslot)
    · rcases ((hrecords other).mp hother).1 with hold' | hnew'
      · exact absurd heq.symm (hfresh.free record hnew other hold' hslot')
      · exact List.inj_on_of_nodup_map hfresh.nodup hnew hnew' heq

theorem run (h : SlotInvariant areas state) (hareas : areas.length ≤ 1)
    (hrun : state.patchRun recordsComplete inputs = .ok final) :
    SlotInvariant areas final ∧ ∀ record ∈ final.dynamicRelocations,
      record ∈ state.dynamicRelocations ∨
        record.HasSlot ∧ ∃ area ∈ areas, IsSlotOf area record.outputOffset := by
  induction inputs generalizing state with
  | nil =>
    cases hrun
    exact ⟨h, fun record hrecord => .inl hrecord⟩
  | cons input inputs ih =>
    unfold patchRun at hrun
    rw [List.foldlM_cons] at hrun
    obtain ⟨between, hstep, hrun⟩ := bind_eq_ok.mp hrun
    obtain ⟨hfinal, hnew⟩ := ih (h.patch hareas hstep) hrun
    refine ⟨hfinal, fun record hrecord => ?_⟩
    rcases hnew record hrecord with hbetween | hadded
    · rcases (((patchDynamicRelocations_eq_ok hstep).2 record).mp hbetween).1 with hold | hfresh
      · exact .inl hold
      · obtain ⟨area, harea, hgeneral, hslot⟩ := (h.freshRecords hareas input).inArea record hfresh
        refine .inr ⟨(h.freshRecords hareas input).hasSlot record hfresh, area, ?_, hslot⟩
        rw [← h.sections]
        exact mem_filter.mpr ⟨harea, hgeneral⟩
    · exact .inr hadded

end SlotInvariant

/-- **Slots are not shared**: after any run of updates different records have
different slots.  Every record that a run adds has a slot of the general part
of `.rela.dyn`, which none of the records has at the time. -/
theorem slots_distinct_of_run
    (hdist : DistinctSlots state.dynamicRelocations)
    (hareas : (state.sections.filter SectionRecord.isRelaDynGeneral).length ≤ 1)
    (hrun : state.patchRun recordsComplete inputs = .ok final) :
    DistinctSlots final.dynamicRelocations ∧
    (∀ record ∈ final.dynamicRelocations, record ∉ state.dynamicRelocations →
      record.HasSlot ∧ ∃ area ∈ state.sections, area.isRelaDynGeneral = true ∧
        IsSlotOf area record.outputOffset) ∧
    ∀ before input after between, inputs = before ++ input :: after →
      state.patchRun recordsComplete before = .ok between →
      ∀ record ∈ between.addedRecords input, record.HasSlot ∧
        (∃ area ∈ state.sections, area.isRelaDynGeneral = true ∧
          IsSlotOf area record.outputOffset) ∧
        ∀ kept ∈ between.dynamicRelocations, kept.HasSlot →
          kept.outputOffset ≠ record.outputOffset := by
  have hstart : SlotInvariant (state.sections.filter SectionRecord.isRelaDynGeneral) state :=
    ⟨rfl, hdist⟩
  obtain ⟨hfinal, hnew⟩ := hstart.run hareas hrun
  refine ⟨hfinal.distinct, ?_, ?_⟩
  · intro record hrecord hadded
    obtain ⟨hslot, area, harea, hin⟩ := (hnew record hrecord).resolve_left hadded
    obtain ⟨hmem, hgeneral⟩ := List.mem_filter.mp harea
    exact ⟨hslot, area, hmem, hgeneral, hin⟩
  · intro before input after between _ hbefore record hrecord
    have hbetween := (hstart.run hareas hbefore).1
    have hfresh := hbetween.freshRecords hareas input
    obtain ⟨area, harea, hgeneral, hin⟩ := hfresh.inArea record hrecord
    have hmem : area ∈ state.sections.filter SectionRecord.isRelaDynGeneral := by
      rw [← hbetween.sections]
      exact List.mem_filter.mpr ⟨harea, hgeneral⟩
    exact ⟨hfresh.hasSlot record hrecord, ⟨area, (List.mem_filter.mp hmem).1, hgeneral, hin⟩,
      hfresh.free record hrecord⟩

end SlotState

/-! ### Two new relocations -/

/-- One relocation of `a`, and three slots. -/
def oneRelocation : SlotState where
  sections := [⟨generatedSectionInputFile, generatedRelaDynGeneral, 0, 1000, 72⟩]
  dynamicRelocations := [⟨"61".toList, "61".toList, 1, 8, 1024, 24, some 4104, some 7⟩]

/-- Two more that refer to the same symbol. -/
def twoMoreRelocations : DynamicInput where
  path := [0x61]
  version _ := some fun _ => [⟨8, 7, 0⟩, ⟨16, 7, 4⟩, ⟨24, 7, 8⟩]
  snapshot := some (fun _ => [⟨8, 7, 0⟩, ⟨16, 7, 4⟩, ⟨24, 7, 8⟩], fun _ => [⟨8, 7, 0⟩])
  matched := [⟨"61".toList, 1, "61".toList, 1⟩]
  updated := []

def threeRelocations : SlotState where
  sections := oneRelocation.sections
  dynamicRelocations := [⟨"61".toList, "61".toList, 1, 8, 1024, 24, some 4104, some 7⟩,
    ⟨"61".toList, "61".toList, 1, 16, 1000, 24, some 4112, some 7⟩,
    ⟨"61".toList, "61".toList, 1, 24, 1048, 24, some 4120, some 7⟩]

theorem slots_of_two_more_relocations :
    ∃ final, oneRelocation.patchRun true [twoMoreRelocations] = .ok final ∧
      final.dynamicRelocations.map DynamicRelocationRecord.outputOffset = [1024, 1000, 1048] ∧
      DistinctSlots final.dynamicRelocations := by
  have hdist : DistinctSlots oneRelocation.dynamicRelocations := by
    intro record hrecord other hother _ _ _
    rw [List.mem_singleton.mp hrecord, List.mem_singleton.mp hother]
  have hslots : freeDynamicRelocationOutputSlots oneRelocation.sections
      (oneRelocation.dynamicRelocations.filter fun record => record.size = relaEntrySize) =
      [1000, 1048] :=
    List.mergeSort_of_pairwise (by decide)
  have hadded : oneRelocation.addedRecords twoMoreRelocations =
      [⟨"61".toList, "61".toList, 1, 16, 1000, 24, some 4112, some 7⟩,
        ⟨"61".toList, "61".toList, 1, 24, 1048, 24, some 4120, some 7⟩] := by
    rw [SlotState.addedRecords_eq]
    unfold SlotState.addedPatchesOf addedDynamicRelocationPatches
    show List.map _ (if _ then [] else addPatches _ _
      (freeDynamicRelocationOutputSlots oneRelocation.sections _) _) = _
    rw [hslots]
    rfl
  have hstep : oneRelocation.patchDynamicRelocations twoMoreRelocations true =
      .ok threeRelocations := by
    unfold SlotState.patchDynamicRelocations
    dsimp only
    rw [hadded]
    decide +kernel
  have hrun : oneRelocation.patchRun true [twoMoreRelocations] =
      .ok threeRelocations := by
    unfold SlotState.patchRun
    rw [List.foldlM_cons, hstep]
    rfl
  exact ⟨_, hrun, rfl, (SlotState.slots_distinct_of_run hdist (by decide) hrun).1⟩

end Sld.Incremental
