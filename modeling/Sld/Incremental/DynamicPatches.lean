/-
# `Incremental.DynamicPatches` — the dynamic relocations of a changed input

A record says where in `.rela.dyn` the entry of a dynamic relocation is and,
if it is new enough, its first two words.  For a changed input every entry
is written again from them and from the addend in the input; one that is
gone is cleared, and a new one gets a free slot and the words of another
that refers to the same symbol.

    dynamicRelocationPatch               the entry of a record
    addedDynamicRelocationPatches        the entries of new relocations
-/
import Sld.Dynamic.AbsoluteRelocations
import Sld.Incremental.RelocationPatches

namespace Sld.Incremental

open Sld.Dynamic (ElfArch RelaDyn Resolution SectionInfo OutputKind writeAbsoluteRelocation
  dynamicRelocationKind)
open Text.Reader (bind_eq_ok)

/-! ## Patches -/

structure InputRela where
  offset : UInt64
  info : UInt64
  addend : Int64

/-- The entries for a section, in an object with section headers. -/
abbrev RelaEntries := UInt32 → List InputRela

def addendBytes (addend : Int64) : List UInt8 := leBytes addend.toUInt64.toNat 8

/-- An entry of `.rela.dyn` as it is written. -/
def relaBytes (entry : RelaDyn) : List UInt8 :=
  leBytes entry.rOffset.toNat 8 ++ leBytes entry.rInfo.toNat 8 ++ addendBytes entry.rAddend

structure DynamicRelocationPatch where
  record : DynamicRelocationRecord
  patch : SectionPatch
  isNew : Bool

def relaEntrySize : UInt64 := 24

/-- The data of an entry, and what is kept of the old one. -/
def DynamicRelocationRecord.entryData (record : DynamicRelocationRecord) (addend : Int64) :
    List UInt8 × List (Nat × Nat) :=
  match record.outputROffset, record.outputRInfo with
  | some rOffset, some rInfo => (relaBytes ⟨rOffset, rInfo, addend⟩, [])
  | _, _ => (List.replicate 16 0 ++ addendBytes addend, [(0, 16)])

/-- One turn of `dynamic_relocation_patches_for_input_bytes`. -/
def dynamicRelocationPatch (entries : RelaEntries) (record : DynamicRelocationRecord) :
    Option DynamicRelocationPatch :=
  if record.size ≠ relaEntrySize then none
  else match (entries record.sectionIndex).find? fun rela => rela.offset = record.relocationOffset with
    | none => some ⟨record,
        ⟨record.outputOffset, record.size, List.replicate 24 0, none, [], []⟩, false⟩
    | some rela => some ⟨record, ⟨record.outputOffset, record.size,
        (record.entryData rela.addend).1, none, (record.entryData rela.addend).2, []⟩, false⟩

/-- `dynamic_relocation_patches_for_input`; an object that is not found, or
that is not an ELF object, has no patches. -/
def dynamicRelocationPatchesForInput (version : Text → Option RelaEntries)
    (records : List DynamicRelocationRecord) : List DynamicRelocationPatch :=
  records.filterMap fun record =>
    (version record.input).bind fun entries => dynamicRelocationPatch entries record

/-! ## New relocations -/

structure MatchedSection where
  previousInput : Text
  previousIndex : UInt32
  currentInput : Text
  currentIndex : UInt32

def generatedSectionInputFile : Text := "generated".toList
def generatedRelaDynGeneral : Text := "generated:.rela.dyn.general".toList

/-- The slots of a section, from an offset on. -/
def sectionSlots (used : List UInt64) : Nat → UInt64 → List UInt64
  | 0, _ => []
  | count + 1, offset =>
    let rest := sectionSlots used count (offset + relaEntrySize)
    if offset ∈ used then rest else offset :: rest

def freeDynamicRelocationOutputSlots (sections : List SectionRecord)
    (records : List DynamicRelocationRecord) : List UInt64 :=
  (sections.flatMap fun sec =>
    if sec.inputFile = generatedSectionInputFile ∧ sec.input = generatedRelaDynGeneral
        ∧ sec.outputOffset.toNat + sec.size.toNat < 2 ^ 64 then
      sectionSlots (records.map (·.outputOffset)) (sec.size.toNat / 24) sec.outputOffset
    else []).mergeSort (· ≤ ·)

/-- The record of a relocation of the same section, with the same `r_info`. -/
def referenceFor (previousEntries : List InputRela) (previousRecords : List DynamicRelocationRecord)
    (sec : MatchedSection) (rela : InputRela) : Option DynamicRelocationRecord :=
  previousRecords.find? fun record => record.sectionIndex = sec.previousIndex
    && previousEntries.any fun previous =>
      previous.offset = record.relocationOffset && previous.info = rela.info

/-- The patch of a new relocation, in a slot. -/
def addedPatch (path : Text) (sec : MatchedSection) (rela : InputRela)
    (reference : DynamicRelocationRecord) (slot : UInt64) : Option DynamicRelocationPatch := do
  let rOffset ← reference.outputROffset
  let rInfo ← reference.outputRInfo
  let moved ← addSignedDeltaU64 rOffset (rela.offset.toNat - reference.relocationOffset.toNat)
  pure {
    record := ⟨path, path, sec.currentIndex, rela.offset, slot, relaEntrySize, some moved, some rInfo⟩
    patch := ⟨slot, relaEntrySize, relaBytes ⟨moved, rInfo, rela.addend⟩, none, [], []⟩
    isNew := true }

/-- The loops over the sections and their new entries; a slot that has been
given out is not used again. -/
def addPatches (path : Text) (reference : MatchedSection → InputRela → Option DynamicRelocationRecord) :
    List UInt64 → List (MatchedSection × InputRela) → List DynamicRelocationPatch
  | _, [] => []
  | slots, (sec, rela) :: rest =>
    match reference sec rela, slots with
    | none, slots => addPatches path reference slots rest
    | some _, [] => []
    | some record, slot :: slots =>
      (addedPatch path sec rela record slot).toList ++ addPatches path reference slots rest

/-- `added_dynamic_relocation_patches_for_input`, for an input with section headers -/
def addedDynamicRelocationPatches (current previous : RelaEntries) (path : Text)
    (matched : List MatchedSection) (records : List DynamicRelocationRecord)
    (sections : List SectionRecord) : List DynamicRelocationPatch :=
  if matched.any fun sec => sec.previousInput ≠ path || sec.currentInput ≠ path then []
  else
    let freeSlots := freeDynamicRelocationOutputSlots sections
      (records.filter fun record => record.size = relaEntrySize)
    let previousRecords := records.filter fun record =>
      record.inputFile = path && record.input = path && record.hasRestorableRelaOutputInfo
    let added := matched.flatMap fun sec =>
      ((current sec.currentIndex).filter fun rela =>
        !(previous sec.previousIndex).any fun entry => entry.offset = rela.offset).map fun rela => (sec, rela)
    addPatches path (fun sec => referenceFor (previous sec.previousIndex) previousRecords sec)
      freeSlots added

/-! ## What a link writes -/

/-- A link, as far as the absolute relocations of one object go.  A relocation
of another kind has no resolution here. -/
structure DynamicLink where
  arch : ElfArch
  outputKind : OutputKind
  isRelrEnabled : Bool
  /-- The address of a section of the object. -/
  address : UInt32 → UInt64
  info : UInt32 → SectionInfo
  resolution : UInt32 → InputRela → Option Resolution

namespace DynamicLink

variable (link : DynamicLink) (sectionIndex : UInt32) (rela : InputRela)

def place : UInt64 := link.address sectionIndex + rela.offset

/-- The entry that is written for a relocation. -/
def write : Except String (Option RelaDyn) :=
  match link.resolution sectionIndex rela with
  | none => .ok none
  | some res => do
      let written ← writeAbsoluteRelocation link.arch link.outputKind link.isRelrEnabled res
        (link.place sectionIndex rela) rela.addend (link.info sectionIndex)
      return written.2.bind Dynamic.DynamicRelocation.entry

/-- The link needs an entry with this `r_info`, and one that carries the
addend of the input. -/
def Restores (rInfo : UInt64) : Prop :=
  ∃ res kind, link.resolution sectionIndex rela = some res
    ∧ dynamicRelocationKind link.outputKind link.isRelrEnabled res (link.place sectionIndex rela)
      (link.info sectionIndex) = some kind
    ∧ res.rInfo link.arch kind = rInfo ∧ res.CarriesAddend rela.addend kind

end DynamicLink

/-- A slot, which is cleared if nothing is written into it. -/
def slotBytes : Option RelaDyn → List UInt8
  | some entry => relaBytes entry
  | none => List.replicate 24 0

/-- The entry was written by a link for a relocation of the section, and the
record was made of it then. -/
structure DynamicRelocationRecord.RecordedBy (record : DynamicRelocationRecord) (link : DynamicLink)
    (entry : RelaDyn) : Prop where
  size : record.size = relaEntrySize
  written : ∃ rela, rela.offset = record.relocationOffset
    ∧ link.write record.sectionIndex rela = .ok (some entry)
  words : (record.outputROffset = some entry.rOffset ∧ record.outputRInfo = some entry.rInfo)
    ∨ (record.outputROffset = none ∧ record.outputRInfo = none)

/-! ### Bytes -/

theorem leBytes_toNat_inj {value value' : UInt64} :
    leBytes value.toNat 8 = leBytes value'.toNat 8 ↔ value = value' := by
  refine ⟨fun h => ?_, fun h => by rw [h]⟩
  have hnat := congrArg ofLeBytes h
  have hlt : ∀ v : UInt64, v.toNat % 256 ^ 8 = v.toNat := fun v => Nat.mod_eq_of_lt v.toNat_lt
  rw [ofLeBytes_leBytes, ofLeBytes_leBytes, hlt, hlt] at hnat
  exact UInt64.toNat_inj.mp hnat

theorem addendBytes_inj {addend addend' : Int64} :
    addendBytes addend = addendBytes addend' ↔ addend = addend' := by
  refine leBytes_toNat_inj.trans ⟨fun h => ?_, fun h => by rw [h]⟩
  exact congrArg UInt64.toInt64 h

@[simp] theorem length_addendBytes (addend : Int64) : (addendBytes addend).length = 8 :=
  length_leBytes _ _

@[simp] theorem length_relaBytes (entry : RelaDyn) : (relaBytes entry).length = 24 := by
  simp [relaBytes]

variable {entry : RelaDyn}

theorem relaBytes_inj {entry' : RelaDyn} : relaBytes entry = relaBytes entry' ↔ entry = entry' := by
  refine ⟨fun h => ?_, fun h => by rw [h]⟩
  have hwords := List.append_inj h (by simp)
  have hfirst := List.append_inj hwords.1 (by simp)
  obtain ⟨rOffset, rInfo, rAddend⟩ := entry
  obtain ⟨rOffset', rInfo', rAddend'⟩ := entry'
  obtain rfl : rOffset = rOffset' := leBytes_toNat_inj.mp hfirst.1
  obtain rfl : rInfo = rInfo' := leBytes_toNat_inj.mp hfirst.2
  obtain rfl : rAddend = rAddend' := addendBytes_inj.mp hwords.2
  rfl

theorem relaBytes_ne_zero (h : entry.rInfo ≠ 0) : relaBytes entry ≠ List.replicate 24 0 := by
  intro hzero
  have hempty : relaBytes ⟨0, 0, 0⟩ = List.replicate 24 0 := rfl
  exact h (congrArg RelaDyn.rInfo (relaBytes_inj.mp (hzero.trans hempty.symm)))

/-! ## When an entry is the one of a link -/

section

variable {link previousLink : DynamicLink} {sectionIndex : UInt32} {rela : InputRela}
  {linked : Option RelaDyn}

theorem entry_of_link (h : link.write sectionIndex rela = .ok linked) :
    linked = none ∧ (∀ rInfo, ¬ link.Restores sectionIndex rela rInfo)
      ∨ ∃ res kind, link.resolution sectionIndex rela = some res
        ∧ dynamicRelocationKind link.outputKind link.isRelrEnabled res (link.place sectionIndex rela)
          (link.info sectionIndex) = some kind
        ∧ linked = some ⟨link.place sectionIndex rela, res.rInfo link.arch kind,
          res.dynamicAddend rela.addend kind⟩
        ∧ (res.dynamicAddend rela.addend kind = rela.addend ↔ res.CarriesAddend rela.addend kind) := by
  unfold DynamicLink.write at h
  cases hres : link.resolution sectionIndex rela with
  | none =>
    rw [hres] at h
    refine .inl ⟨(Except.ok.inj h).symm, fun rInfo hrestores => ?_⟩
    obtain ⟨res, kind, hsome, -⟩ := hrestores
    rw [hres] at hsome
    cases hsome
  | some res =>
    rw [hres] at h
    obtain ⟨written, hwritten, h⟩ := bind_eq_ok.mp h
    cases h
    have hentry := Dynamic.entry_of_write hwritten
    cases hkind : dynamicRelocationKind link.outputKind link.isRelrEnabled res
        (link.place sectionIndex rela) (link.info sectionIndex) with
    | none =>
      rw [hkind] at hentry
      refine .inl ⟨hentry, fun rInfo hrestores => ?_⟩
      obtain ⟨res', kind, hsome, hkind', -⟩ := hrestores
      cases hres.symm.trans hsome
      rw [hkind] at hkind'
      cases hkind'
    | some kind =>
      rw [hkind] at hentry
      exact .inr ⟨res, kind, rfl, hkind, hentry, Dynamic.dynamicAddend_eq_iff hwritten hkind⟩

theorem rInfo_ne_zero_of_link {entry : RelaDyn}
    (h : link.write sectionIndex rela = .ok (some entry)) :
    entry.rOffset = link.place sectionIndex rela ∧ entry.rInfo ≠ 0 := by
  rcases entry_of_link h with ⟨hnone, -⟩ | ⟨res, kind, -, -, hsome, -⟩
  · cases hnone
  · cases hsome
    exact ⟨rfl, Dynamic.rInfo_ne_zero _ _ _⟩

theorem relaBytes_eq_slotBytes_iff {rInfo : UInt64} (hinfo : rInfo ≠ 0)
    (h : link.write sectionIndex rela = .ok linked) :
    relaBytes ⟨link.place sectionIndex rela, rInfo, rela.addend⟩ = slotBytes linked
      ↔ link.Restores sectionIndex rela rInfo := by
  rcases entry_of_link h with ⟨rfl, hnot⟩ | ⟨res, kind, hres, hkind, rfl, haddend⟩
  · exact iff_of_false (relaBytes_ne_zero hinfo) (hnot rInfo)
  · refine relaBytes_inj.trans ⟨fun heq => ?_, fun hrestores => ?_⟩
    · refine ⟨res, kind, hres, hkind, (congrArg RelaDyn.rInfo heq).symm, haddend.mp ?_⟩
      exact (congrArg RelaDyn.rAddend heq).symm
    · obtain ⟨res', kind', hres', hkind', rfl, hcarries⟩ := hrestores
      cases hres.symm.trans hres'
      cases hkind.symm.trans hkind'
      rw [haddend.mpr hcarries]

end

/-! ## The patches -/

variable {outputOffset : UInt64}

theorem writtenBytes_of_data {data old : List UInt8} (hdata : data.length = 24)
    (hold : old.length = 24) :
    SectionPatch.writtenBytes ⟨outputOffset, relaEntrySize, data, none, [], []⟩ old = .ok data := by
  refine SectionPatch.writtenBytes_eq_ok.mpr ⟨?_, data, rfl, ?_⟩
  · rw [hdata, hold]
  · rw [hdata, hold, List.replicate_zero, List.append_nil]

theorem writtenBytes_of_addend {addend : Int64} :
    SectionPatch.writtenBytes ⟨outputOffset, relaEntrySize, List.replicate 16 0 ++ addendBytes addend,
      none, [(0, 16)], []⟩ (relaBytes entry)
      = .ok (relaBytes { entry with rAddend := addend }) := by
  have hwords : (leBytes entry.rOffset.toNat 8 ++ leBytes entry.rInfo.toNat 8).length = 16 := by simp
  have hkept : Store.window (relaBytes entry) 0 16
      = leBytes entry.rOffset.toNat 8 ++ leBytes entry.rInfo.toNat 8 := by
    show ((relaBytes entry).drop 0).take 16 = _
    rw [List.drop_zero, relaBytes, List.take_append_of_le_length (Nat.le_of_eq hwords.symm)]
    exact List.take_of_length_le (Nat.le_of_eq hwords)
  have hdata : preserveRange (relaBytes entry) (List.replicate 16 0 ++ addendBytes addend) (0, 16)
      = .ok (relaBytes { entry with rAddend := addend }) := by
    unfold preserveRange
    rw [if_pos (by simp)]
    show Except.ok (Store.splice _ 0 (Store.window (relaBytes entry) 0 16)) = _
    rw [hkept]
    refine congrArg Except.ok ?_
    unfold Store.splice
    rw [List.take_zero, List.nil_append, Nat.zero_add, hwords]
    rw [List.drop_append_of_le_length (by simp), List.drop_of_length_le (by simp)]
    rfl
  refine SectionPatch.writtenBytes_eq_ok.mpr ⟨by simp, relaBytes { entry with rAddend := addend }, ?_, by simp⟩
  refine bind_eq_ok.mpr ⟨_, rfl, bind_eq_ok.mpr ⟨_, ?_, rfl⟩⟩
  rw [List.foldlM_cons]
  exact bind_eq_ok.mpr ⟨_, hdata, rfl⟩

section

variable {link previousLink : DynamicLink} {entries : RelaEntries} {record : DynamicRelocationRecord}
  {entry : RelaDyn} {patch : DynamicRelocationPatch}

/-- The relocation of a record in the changed object. -/
def DynamicRelocationRecord.relaIn (record : DynamicRelocationRecord) (entries : RelaEntries) :
    Option InputRela :=
  (entries record.sectionIndex).find? fun rela => rela.offset = record.relocationOffset

/-- What a link of the changed object writes for the relocation of a record. -/
def DynamicLink.writeRecorded (link : DynamicLink) (entries : RelaEntries)
    (record : DynamicRelocationRecord) : Except String (Option RelaDyn) :=
  match record.relaIn entries with
  | none => .ok none
  | some rela => link.write record.sectionIndex rela

theorem writtenBytes_of_record (hrecord : record.RecordedBy previousLink entry)
    (hpatch : dynamicRelocationPatch entries record = some patch) :
    patch.patch.writtenBytes (relaBytes entry) = .ok (slotBytes ((record.relaIn entries).map
      fun rela => { entry with rAddend := rela.addend })) := by
  unfold dynamicRelocationPatch at hpatch
  rw [if_neg (not_not.mpr hrecord.size)] at hpatch
  unfold DynamicRelocationRecord.relaIn
  cases hfind : (entries record.sectionIndex).find? fun rela =>
      decide (rela.offset = record.relocationOffset) with
  | none =>
    rw [hfind] at hpatch
    cases hpatch
    rw [hrecord.size]
    exact writtenBytes_of_data (by simp) (length_relaBytes _)
  | some rela =>
    rw [hfind] at hpatch
    cases hpatch
    rw [hrecord.size]
    rcases hrecord.words with ⟨hoff, hinfo⟩ | ⟨hoff, hinfo⟩
    · simp only [DynamicRelocationRecord.entryData, hoff, hinfo]
      exact writtenBytes_of_data (by simp) (length_relaBytes _)
    · simp only [DynamicRelocationRecord.entryData, hoff, hinfo]
      exact writtenBytes_of_addend

theorem outputOffset_of_record (h : dynamicRelocationPatch entries record = some patch) :
    patch.patch.outputOffset = record.outputOffset := by
  unfold dynamicRelocationPatch at h
  split at h
  · cases h
  · split at h
    · cases h
      rfl
    · cases h
      rfl

theorem written_eq_link_iff (hrecord : record.RecordedBy previousLink entry)
    (haddr : link.address record.sectionIndex = previousLink.address record.sectionIndex)
    (hpatch : dynamicRelocationPatch entries record = some patch) {linked : Option RelaDyn}
    (hlink : link.writeRecorded entries record = .ok linked) :
    patch.patch.writtenBytes (relaBytes entry) = .ok (slotBytes linked)
      ↔ ∀ rela, record.relaIn entries = some rela →
        link.Restores record.sectionIndex rela entry.rInfo := by
  rw [writtenBytes_of_record hrecord hpatch]
  unfold DynamicLink.writeRecorded at hlink
  cases hrela : record.relaIn entries with
  | none =>
    rw [hrela] at hlink
    cases hlink
    exact iff_of_true rfl nofun
  | some rela =>
    rw [hrela] at hlink
    obtain ⟨previous, hoff, hwritten⟩ := hrecord.written
    obtain ⟨hplace, hinfo⟩ := rInfo_ne_zero_of_link hwritten
    have hrelaOffset : rela.offset = record.relocationOffset := by
      have hfound := List.find?_some hrela
      exact of_decide_eq_true hfound
    have hsame : entry.rOffset = link.place record.sectionIndex rela := by
      rw [hplace, DynamicLink.place, DynamicLink.place, haddr, hrelaOffset, hoff]
    rw [Except.ok.injEq]
    show relaBytes { entry with rAddend := rela.addend } = slotBytes linked ↔ _
    rw [show ({ entry with rAddend := rela.addend } : RelaDyn)
      = ⟨link.place record.sectionIndex rela, entry.rInfo, rela.addend⟩ by rw [← hsame]]
    refine (relaBytes_eq_slotBytes_iff hinfo hlink).trans ⟨fun h rela' heq => ?_, fun h => h rela rfl⟩
    cases heq
    exact h

/-! ### New entries -/

variable {path : Text}

theorem mem_addPatches
    {reference : MatchedSection → InputRela → Option DynamicRelocationRecord} {slots : List UInt64}
    {added : List (MatchedSection × InputRela)} (h : patch ∈ addPatches path reference slots added) :
    ∃ sec rela known slot, (sec, rela) ∈ added ∧ reference sec rela = some known
      ∧ addedPatch path sec rela known slot = some patch := by
  induction added generalizing slots with
  | nil => cases h
  | cons head rest ih =>
    obtain ⟨sec, rela⟩ := head
    have hrest : ∀ {slots}, patch ∈ addPatches path reference slots rest →
        ∃ sec' rela' known slot, (sec', rela') ∈ (sec, rela) :: rest
          ∧ reference sec' rela' = some known ∧ addedPatch path sec' rela' known slot = some patch := by
      intro slots h
      obtain ⟨sec', rela', known, slot, hmem, hknown, hpatch⟩ := ih h
      exact ⟨sec', rela', known, slot, List.mem_cons_of_mem _ hmem, hknown, hpatch⟩
    unfold addPatches at h
    cases hknown : reference sec rela with
    | none =>
      rw [hknown] at h
      exact hrest h
    | some known =>
      rw [hknown] at h
      cases slots with
      | nil => cases h
      | cons slot slots =>
        rcases List.mem_append.mp h with h | h
        · exact ⟨sec, rela, known, slot, List.mem_cons_self, hknown, Option.mem_toList.mp h⟩
        · exact hrest h

theorem place_of_moved {address offset reference moved : UInt64}
    (h : addSignedDeltaU64 (address + reference) (offset.toNat - reference.toNat) = some moved) :
    moved = address + offset := by
  unfold addSignedDeltaU64 at h
  dsimp only at h
  split at h
  · next hrange =>
    cases h
    rw [← UInt64.toNat_inj, UInt64.toNat_ofNat_of_lt' (by rw [UInt64.size]; omega)]
    rw [UInt64.toNat_add] at hrange ⊢
    rw [UInt64.toNat_add]
    omega
  · cases h

/-- What a new patch is made of. -/
theorem addedPatch_inv {sec : MatchedSection} {rela : InputRela} {known : DynamicRelocationRecord}
    {slot : UInt64} (h : addedPatch path sec rela known slot = some patch) :
    ∃ rOffset rInfo moved, known.outputROffset = some rOffset ∧ known.outputRInfo = some rInfo ∧
      addSignedDeltaU64 rOffset (rela.offset.toNat - known.relocationOffset.toNat) = some moved ∧
      patch = ⟨⟨path, path, sec.currentIndex, rela.offset, slot, relaEntrySize, some moved,
          some rInfo⟩,
        ⟨slot, relaEntrySize, relaBytes ⟨moved, rInfo, rela.addend⟩, none, [], []⟩, true⟩ := by
  obtain ⟨rOffset, hrOffset, h⟩ := Option.bind_eq_some_iff.mp h
  obtain ⟨rInfo, hrInfo, h⟩ := Option.bind_eq_some_iff.mp h
  obtain ⟨moved, hmoved, h⟩ := Option.bind_eq_some_iff.mp h
  exact ⟨rOffset, rInfo, moved, hrOffset, hrInfo, hmoved, (Option.some.inj h).symm⟩

/-- The relocation that an entry is written for. -/
def DynamicRelocationRecord.relocation (record : DynamicRelocationRecord) : UInt32 × UInt64 :=
  (record.sectionIndex, record.relocationOffset)

theorem sublist_addPatches
    (reference : MatchedSection → InputRela → Option DynamicRelocationRecord)
    (slots : List UInt64) (added : List (MatchedSection × InputRela)) :
    ((addPatches path reference slots added).map (·.record.relocation)).Sublist
      (added.map fun new => (new.1.currentIndex, new.2.offset)) := by
  fun_induction addPatches path reference slots added with
  | case1 => exact .slnil
  | case2 slots sec rela rest _ ih => exact ih.cons _
  | case3 => exact List.nil_sublist _
  | case4 sec rela rest known slot slots _ ih =>
    cases hadded : addedPatch path sec rela known slot with
    | none =>
      rw [Option.toList_none, List.nil_append]
      exact ih.cons _
    | some patch =>
      obtain ⟨rOffset, rInfo, moved, -, -, -, rfl⟩ := addedPatch_inv hadded
      rw [Option.toList_some, List.singleton_append, List.map_cons, List.map_cons]
      exact ih.cons_cons _

theorem addedPatch_eq_some {sec : MatchedSection} {rela : InputRela}
    {known : DynamicRelocationRecord} {slot : UInt64} {knownEntry : RelaDyn}
    (hknown : known.RecordedBy previousLink knownEntry)
    (hindex : known.sectionIndex = sec.previousIndex)
    (haddr : link.address sec.currentIndex = previousLink.address sec.previousIndex)
    (h : addedPatch path sec rela known slot = some patch) :
    patch.record.outputRInfo = some knownEntry.rInfo ∧ knownEntry.rInfo ≠ 0
      ∧ ∀ old : List UInt8, old.length = 24 → patch.patch.writtenBytes old
        = .ok (relaBytes ⟨link.place sec.currentIndex rela, knownEntry.rInfo, rela.addend⟩) := by
  obtain ⟨previous, hoff, hwritten⟩ := hknown.written
  obtain ⟨hplace, hinfo⟩ := rInfo_ne_zero_of_link hwritten
  obtain ⟨rOffset, rInfo, moved, hrOffset', hrInfo', hmoved, rfl⟩ := addedPatch_inv h
  rcases hknown.words with ⟨hrOffset, hrInfo⟩ | ⟨hrOffset, -⟩
  · cases hrOffset'.symm.trans hrOffset
    cases hrInfo'.symm.trans hrInfo
    have hmovedPlace : moved = link.place sec.currentIndex rela := by
      rw [hplace, DynamicLink.place, hoff, hindex, ← haddr] at hmoved
      exact place_of_moved hmoved
    refine ⟨rfl, hinfo, fun old hold => ?_⟩
    rw [← hmovedPlace]
    exact writtenBytes_of_data (length_relaBytes _) hold
  · cases hrOffset'.symm.trans hrOffset

theorem mem_addedDynamicRelocationPatches {current previous : RelaEntries}
    {matched : List MatchedSection} {records : List DynamicRelocationRecord}
    {sections : List SectionRecord}
    (h : patch ∈ addedDynamicRelocationPatches current previous path matched records sections) :
    ∃ sec ∈ matched, ∃ rela ∈ current sec.currentIndex, ∃ known ∈ records, ∃ slot,
      sec.previousInput = path ∧ sec.currentInput = path
      ∧ known.input = path ∧ known.size = relaEntrySize ∧ known.sectionIndex = sec.previousIndex
      ∧ (∃ old ∈ previous sec.previousIndex,
        old.offset = known.relocationOffset ∧ old.info = rela.info)
      ∧ addedPatch path sec rela known slot = some patch := by
  unfold addedDynamicRelocationPatches at h
  split at h
  · cases h
  · next hpaths =>
    obtain ⟨sec, rela, known, slot, hadded, hknown, hpatch⟩ := mem_addPatches h
    obtain ⟨sec', hsec, hadded⟩ := List.mem_flatMap.mp hadded
    obtain ⟨rela', hrela, heq⟩ := List.mem_map.mp hadded
    obtain ⟨rfl, rfl⟩ := Prod.mk.inj heq
    have hpath : sec'.previousInput = path ∧ sec'.currentInput = path := by
      have hnone := List.any_eq_false.mp (Bool.not_eq_true _ ▸ hpaths) sec' hsec
      simpa using hnone
    obtain ⟨hrecords, hfilter⟩ := List.mem_filter.mp (List.mem_of_find?_eq_some hknown)
    have hfound := List.find?_some hknown
    obtain ⟨hindex, hinfo⟩ := Bool.and_eq_true_iff.mp hfound
    simp only [DynamicRelocationRecord.hasRestorableRelaOutputInfo, Bool.and_eq_true,
      decide_eq_true_eq] at hfilter
    exact ⟨sec', hsec, rela', (List.mem_filter.mp hrela).1, known, hrecords, slot, hpath.1, hpath.2,
      hfilter.1.2, hfilter.2.1.1, of_decide_eq_true hindex, by simpa using hinfo, hpatch⟩

/-- The relocations of matched sections at offsets where there was none. -/
def newRelocations (current previous : RelaEntries) (matched : List MatchedSection) :
    List (UInt32 × UInt64) :=
  matched.flatMap fun sec =>
    ((current sec.currentIndex).filter fun rela =>
      !(previous sec.previousIndex).any fun entry => entry.offset = rela.offset).map fun rela =>
        (sec.currentIndex, rela.offset)

theorem sublist_addedDynamicRelocationPatches (current previous : RelaEntries)
    (matched : List MatchedSection) (records : List DynamicRelocationRecord)
    (sections : List SectionRecord) :
    ((addedDynamicRelocationPatches current previous path matched records sections).map
      (·.record.relocation)).Sublist (newRelocations current previous matched) := by
  unfold addedDynamicRelocationPatches newRelocations
  split
  · exact List.nil_sublist _
  · refine (sublist_addPatches _ _ _).trans ?_
    simp [List.map_flatMap, Function.comp_def]

end

/-! ### Both together -/

/-- A changed input, the link that it was recorded by, and a link of its new
version at the same layout. -/
structure ChangedElf where
  path : Text
  previous : Text → Option RelaEntries
  current : Text → Option RelaEntries
  previousLink : Text → DynamicLink
  link : Text → DynamicLink
  matched : List MatchedSection
  sections : List SectionRecord
  records : List DynamicRelocationRecord
  /-- What the output holds for a record. -/
  entry : DynamicRelocationRecord → RelaDyn
  recorded : ∀ record ∈ records, record.size = relaEntrySize →
    record.RecordedBy (previousLink record.input) (entry record)
  address_record : ∀ record ∈ records, (link record.input).address record.sectionIndex
    = (previousLink record.input).address record.sectionIndex
  address_matched : ∀ sec ∈ matched, (link sec.currentInput).address sec.currentIndex
    = (previousLink sec.previousInput).address sec.previousIndex

namespace ChangedElf

variable (c : ChangedElf)

/-- The patch of a record of the input. -/
def recordPatch (record : DynamicRelocationRecord) : Option DynamicRelocationPatch :=
  (c.current record.input).bind fun entries => dynamicRelocationPatch entries record

/-- The patches of new relocations, if there is a snapshot of the old input. -/
def addedPatches : List DynamicRelocationPatch :=
  match c.current c.path, c.previous c.path with
  | some current, some previous =>
    addedDynamicRelocationPatches current previous c.path c.matched c.records c.sections
  | _, _ => []

/-- A patch of a record is of its entry, and writes what a link would exactly if
the relocation is gone, or the link needs the recorded words and the loader gets
the addend of the input; so does the patch of a new relocation, with the words of a
record of its section for the same `r_info`.  No new relocation is patched twice. -/
theorem patches_eq_link_iff :
    (∀ record ∈ c.records, ∀ patch entries linked, c.current record.input = some entries →
      c.recordPatch record = some patch →
      (c.link record.input).writeRecorded entries record = .ok linked →
      patch.patch.outputOffset = record.outputOffset
      ∧ (patch.patch.writtenBytes (relaBytes (c.entry record)) = .ok (slotBytes linked)
        ↔ ∀ rela, record.relaIn entries = some rela →
          (c.link record.input).Restores record.sectionIndex rela (c.entry record).rInfo))
    ∧ (∀ patch ∈ c.addedPatches, ∃ sec ∈ c.matched, ∃ entries previous,
      c.current c.path = some entries ∧ c.previous c.path = some previous
      ∧ ∃ rela ∈ entries sec.currentIndex, ∃ known ∈ c.records,
        known.sectionIndex = sec.previousIndex
        ∧ (∃ old ∈ previous sec.previousIndex,
          old.offset = known.relocationOffset ∧ old.info = rela.info)
        ∧ patch.record.relocation = (sec.currentIndex, rela.offset)
        ∧ patch.record.outputRInfo = some (c.entry known).rInfo
        ∧ patch.patch.outputOffset = patch.record.outputOffset
        ∧ ∀ old linked, old.length = 24 →
          (c.link c.path).write sec.currentIndex rela = .ok linked →
          (patch.patch.writtenBytes old = .ok (slotBytes linked)
            ↔ (c.link c.path).Restores sec.currentIndex rela (c.entry known).rInfo))
    ∧ ∀ current previous, c.current c.path = some current → c.previous c.path = some previous →
      (c.addedPatches.map (·.record.relocation)).Sublist
        (newRelocations current previous c.matched) := by
  refine ⟨?_, ?_, ?_⟩
  · intro record hmem patch entries linked hentries hpatch hlink
    unfold recordPatch at hpatch
    rw [hentries] at hpatch
    have hsize : record.size = relaEntrySize := by
      by_contra hne
      rw [Option.bind_some, dynamicRelocationPatch, if_pos hne] at hpatch
      cases hpatch
    exact ⟨outputOffset_of_record hpatch, written_eq_link_iff (c.recorded record hmem hsize)
      (c.address_record record hmem) hpatch hlink⟩
  · intro patch hpatch
    unfold addedPatches at hpatch
    split at hpatch
    · next current previous hcur hprev =>
      obtain ⟨sec, hsec, rela, hrela, known, hknown, slot, hold, hnew, hinput, hsize, hindex,
        hsame, hadded⟩ := mem_addedDynamicRelocationPatches hpatch
      have hrecorded := c.recorded known hknown hsize
      have haddr := c.address_matched sec hsec
      rw [hinput] at hrecorded
      rw [hold, hnew] at haddr
      obtain ⟨hpatched, hinfo, hwritten⟩ := addedPatch_eq_some hrecorded hindex haddr hadded
      obtain ⟨rOffset, rInfo, moved, -, -, -, rfl⟩ := addedPatch_inv hadded
      refine ⟨sec, hsec, current, previous, hcur, hprev, rela, hrela, known, hknown, hindex, hsame,
        rfl, hpatched, rfl, fun old linked hlen hlink => ?_⟩
      rw [hwritten old hlen, Except.ok.injEq]
      exact relaBytes_eq_slotBytes_iff hinfo hlink
    · cases hpatch
  · intro current previous hcur hprev
    unfold addedPatches
    rw [hcur, hprev]
    exact sublist_addedDynamicRelocationPatches ..

end ChangedElf

/-! ### One relocation of an unchanged object -/

/-- A link of an object with an address in its data, for a symbol with these flags. -/
def dataLink (flags : Gc.ValueFlags) : DynamicLink where
  arch := .x8664
  outputKind := .dynamicExecutable .relocatable
  isRelrEnabled := false
  address _ := 20480
  info _ := ⟨true, true⟩
  resolution _ _ := some ⟨16400, flags, some 1, none, fun _ => .ok none⟩

def dataEntries : RelaEntries := fun _ => [⟨0, 4294967297, 8⟩]

def dataRecord (rInfo : UInt64) : DynamicRelocationRecord :=
  ⟨"612e6f".toList, "612e6f".toList, 1, 0, 768, relaEntrySize, some 20480, some rInfo⟩

/-- Nothing has changed. -/
def dataInput (flags : Gc.ValueFlags) (entry : RelaDyn)
    (h : entry.rOffset = 20480 ∧ (dataLink flags).write 1 ⟨0, 4294967297, 8⟩ = .ok (some entry)) :
    ChangedElf where
  path := "612e6f".toList
  previous _ := some dataEntries
  current _ := some dataEntries
  previousLink _ := dataLink flags
  link _ := dataLink flags
  matched := []
  sections := []
  records := [dataRecord entry.rInfo]
  entry _ := entry
  recorded record hmem _ := by
    obtain rfl := List.mem_singleton.mp hmem
    exact ⟨rfl, ⟨_, rfl, h.2⟩, .inl ⟨by rw [h.1]; rfl, rfl⟩⟩
  address_record _ _ := rfl
  address_matched _ h := nomatch h

/-- A symbol that may be interposed. -/
theorem symbolic_entry_is_kept : ∃ patch,
    (dataInput ∅ ⟨20480, 4294967297, 8⟩ ⟨rfl, rfl⟩).recordPatch (dataRecord 4294967297) = some patch
    ∧ patch.patch.writtenBytes (relaBytes ⟨20480, 4294967297, 8⟩)
      = .ok (slotBytes (some ⟨20480, 4294967297, 8⟩)) := by
  refine ⟨_, rfl, ?_⟩
  refine ((dataInput ∅ ⟨20480, 4294967297, 8⟩ ⟨rfl, rfl⟩).patches_eq_link_iff.1 (dataRecord 4294967297)
    (List.mem_singleton_self _) _ dataEntries _ rfl rfl rfl).2.mpr fun rela hrela => ?_
  cases hrela
  exact ⟨_, .absolute, rfl, rfl, rfl, trivial⟩

/-- The address of a local symbol is replaced by the addend. -/
theorem relative_entry_is_lost :
    (dataLink {.nonInterposable}).writeRecorded dataEntries (dataRecord 8)
      = .ok (some ⟨20480, 8, 16408⟩)
    ∧ ∃ patch, (dataInput {.nonInterposable} ⟨20480, 8, 16408⟩ ⟨rfl, rfl⟩).recordPatch (dataRecord 8)
        = some patch
      ∧ patch.patch.writtenBytes (relaBytes ⟨20480, 8, 16408⟩) = .ok (relaBytes ⟨20480, 8, 8⟩)
      ∧ relaBytes ⟨20480, 8, 8⟩ ≠ slotBytes (some ⟨20480, 8, 16408⟩) :=
  ⟨rfl, _, rfl, rfl, by decide⟩

end Sld.Incremental
