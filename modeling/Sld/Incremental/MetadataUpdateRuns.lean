/-
# `Incremental.MetadataUpdateRuns` — what a run of patches leaves to be read

A state directory holds an index and perhaps one metadata update.  Seen
from outside it is a base with one replaceable overlay (`Store.Overlay`):
the inputs of the index, under the inputs the update lists.  `Holds` says
that the files of a directory are the texts of such a pair, a read returns
what the overlaid store shows (`Holds.readImpl`), and a changed-input patch
that is persisted is a change of that store (`Holds.persist`).

From there the question of runs is the question of the store.  A patch
installs an update that lists only its own inputs, so an input that an
earlier update listed goes back to what the index says of it, unless the
patch lists it again or writes a whole new index.
-/
import Sld.Incremental.MetadataUpdateRoundTrip
import Sld.Incremental.SidecarRoundTrip
import Sld.Store.Overlay

namespace Sld.Incremental

open Text
open Text.Reader (ok_bind bind_eq_ok)
open Store (Overlaid Change)
open ChangedInputPatch (record)
open FileState (read)

/-! ## What the files of a directory hold -/

/-- An update with the indices it lists. -/
abbrev Update := PersistedState × List Nat

/-- The files are the texts of an index and perhaps of an update of some of its inputs. -/
structure Holds (dir : StateDir) (base : PersistedState) (update : Option Update) : Prop where
  recordable : base.Recordable
  index : ∃ (places : RecordPlaces) (locations : List PatchRecordLocation),
    places.Writable locations ∧ dir.index = some (renderIndex base places)
  metadataUpdate : dir.metadataUpdate = update.map fun u => unlines (updateLines u.1 u.2)
  update : ∀ u ∈ update, u.1.Recordable ∧ u.1.inputFiles.length = base.inputFiles.length ∧
    ∀ i ∈ u.2, i < u.1.inputFiles.length

/-- The index with the update applied. -/
def shown (base : PersistedState) : Option Update → PersistedState
  | none => base
  | some u => { base with
      linkStart := u.1.linkStart
      output := u.1.output
      buildIdHashes := u.1.buildIdHashes
      inputFiles := setInputs base.inputFiles (updatedRows u.1 u.2) }

@[simp] theorem length_shown (base : PersistedState) (update : Option Update) :
    (shown base update).inputFiles.length = base.inputFiles.length := by
  cases update with
  | none => rfl
  | some u => exact length_setInputs _ _

theorem inputFiles_shown {base u : PersistedState} {indices : List Nat}
    (hlen : u.inputFiles.length = base.inputFiles.length)
    (hkept : ∀ i, i ∉ indices → u.inputFiles[i]? = base.inputFiles[i]?) :
    (shown base (some (u, indices))).inputFiles = u.inputFiles := by
  refine List.ext_getElem? fun i => ?_
  rw [shown, getElem?_setInputs_of_values hlen.symm fun row hrow => (mem_updatedRows.mp hrow).2]
  split
  · rfl
  · rename_i hi
    by_cases hmem : i ∈ indices
    · -- listed, but past the end
      cases hu : u.inputFiles[i]? with
      | some input =>
        exact absurd (List.mem_map.mpr ⟨(i, input), mem_updatedRows.mpr ⟨hmem, hu⟩, rfl⟩) hi
      | none =>
        rw [List.getElem?_eq_none_iff] at hu ⊢
        exact hlen ▸ hu
    · exact (hkept i hmem).symm

/-- What a full read makes of the input at an index. -/
def inputAt (files : List FileState) (i : Nat) : Option FileState :=
  files[i]?.map (FileState.read .parse)

/-- The directory as a base under an overlay. -/
def overlaid (base : PersistedState) (update : Option Update) :
    Overlaid Nat (Option FileState) where
  base := inputAt base.inputFiles
  overlay i := update.bind fun u => if i ∈ u.2 then some (inputAt u.1.inputFiles i) else none

/-- A read returns `shown`, each input as its mode reads it. -/
structure ReadsAs (mode : PatchSectionReadMode) (state s : PersistedState) : Prop where
  eq : s = { state with
    inputFiles := state.inputFiles.map (FileState.read mode)
    records := s.records
    sectionsFile := s.sectionsFile
    patchRecordsFile := s.patchRecordsFile
    patchRecordLocations := s.patchRecordLocations
    rawPatchRecordLocations := s.rawPatchRecordLocations }
  sectionsFile : s.sectionsFile ≠ none

variable {mode : PatchSectionReadMode}

theorem ReadsAs.inputFiles {state s : PersistedState}
    (h : ReadsAs mode state s) : s.inputFiles = state.inputFiles.map (read mode) :=
  congrArg PersistedState.inputFiles h.eq

theorem ReadsAs.map_read {state s : PersistedState}
    (h : ReadsAs mode state s) (hstate : state.Recordable) :
    s.inputFiles.map (read .parse) = state.inputFiles.map (read .parse) := by
  rw [h.inputFiles, List.map_map]
  exact List.map_congr_left fun f hf => (hstate.inputFiles f hf).read_read mode

theorem inputAt_eq_of_map_eq {files files' : List FileState}
    (h : files.map (read .parse) = files'.map (read .parse)) :
    inputAt files = inputAt files' := by
  funext i
  rw [inputAt, inputAt, ← List.getElem?_map, ← List.getElem?_map, h]

theorem map_eq_of_inputAt_eq {files files' : List FileState} (h : inputAt files = inputAt files') :
    files.map (read .parse) = files'.map (read .parse) := by
  refine List.ext_getElem? fun i => ?_
  rw [List.getElem?_map, List.getElem?_map]
  exact congrFun h i

section

variable {dir : StateDir} {base : PersistedState} {update : Option Update}
  (h : Holds dir base update)

include h

theorem Holds.shown_recordable : (shown base update).Recordable := by
  cases hupd : update with
  | none => exact h.recordable
  | some u =>
    obtain ⟨hu, _, _⟩ := h.update u hupd
    have hinputs : ∀ f ∈ (shown base (some u)).inputFiles, f.Recordable := by
      intro f hf
      rcases mem_setInputs hf with hf | ⟨row, hrow, rfl⟩
      · exact h.recordable.inputFiles f hf
      · exact hu.inputFiles _ (List.mem_of_getElem? (mem_updatedRows.mp hrow).2)
    have hbase := h.recordable.writable
    exact ⟨⟨hbase.argsHash, hbase.linkOptionsHash, hbase.inputOrderHash, hbase.sldVersion,
      hu.writable.outputHash, hu.writable.buildIdHashes, fun f hf => (hinputs f hf).writable⟩,
      hinputs⟩

theorem Holds.view : (overlaid base update).view = inputAt (shown base update).inputFiles := by
  funext i
  cases hupd : update with
  | none => rfl
  | some u =>
    obtain ⟨_, hlen, hbound⟩ := h.update u hupd
    have hset : (setInputs base.inputFiles (updatedRows u.1 u.2))[i]? =
        if i ∈ (updatedRows u.1 u.2).map (·.1) then u.1.inputFiles[i]?
        else base.inputFiles[i]? :=
      getElem?_setInputs_of_values hlen.symm (fun row hrow => (mem_updatedRows.mp hrow).2) i
    have hmem : i ∈ (updatedRows u.1 u.2).map (·.1) ↔ i ∈ u.2 := by
      rw [List.mem_map]
      constructor
      · rintro ⟨row, hrow, rfl⟩
        exact (mem_updatedRows.mp hrow).1
      · intro hi
        exact ⟨(i, u.1.inputFiles.get ⟨i, hbound i hi⟩),
          mem_updatedRows.mpr ⟨hi, List.getElem?_eq_getElem _⟩, rfl⟩
    simp only [hmem] at hset
    show ((if i ∈ u.2 then some (inputAt u.1.inputFiles i) else none).getD
      (inputAt base.inputFiles i)) = inputAt (setInputs base.inputFiles (updatedRows u.1 u.2)) i
    rw [inputAt, inputAt, inputAt, hset]
    split <;> rfl

theorem Holds.readImpl {c : Codec} {loadSections parseLocations : Bool}
    {mode : PatchSectionReadMode} {s : PersistedState}
    (hread : readImpl c dir loadSections mode parseLocations = .ok (some s)) :
    ReadsAs mode (shown base update) s := by
  obtain ⟨places, locations, hplaces, hindex⟩ := h.index
  obtain ⟨table, hrender, htable⟩ := hplaces.table
  rw [Sld.Incremental.readImpl, hindex] at hread
  obtain ⟨parsed, hparsed, hread⟩ := bind_eq_ok.mp hread
  obtain ⟨loaded, hloaded, hread⟩ := bind_eq_ok.mp hread
  have hparsedAs : ReadsAs mode base parsed := by
    cases hload : places.loadedRecords (sectionLoader c dir loadSections) with
    | error e =>
      rw [parseIndex_loadError h.recordable.writable hplaces hload] at hparsed
      cases hparsed
    | ok records =>
      rw [parseIndex_renderIndex h.recordable.writable hplaces hrender htable hload] at hparsed
      cases hparsed
      exact ⟨rfl, Option.some_ne_none _⟩
  have hloadedAs : ReadsAs mode base loaded := by
    rw [loadIndexedRecords] at hloaded
    split at hloaded
    · obtain ⟨records, _, hloaded⟩ := bind_eq_ok.mp hloaded
      cases hloaded
      refine ⟨?_, hparsedAs.sectionsFile⟩
      exact congrArg (fun t : PersistedState => { t with records }) hparsedAs.eq
    · cases hloaded
      exact hparsedAs
  cases hupd : update with
  | none =>
    rw [h.metadataUpdate, hupd] at hread
    cases Except.ok.inj hread
    exact hloadedAs
  | some u =>
    obtain ⟨hu, hlen, _⟩ := h.update u hupd
    rw [h.metadataUpdate, hupd] at hread
    have hsame : loaded.inputFiles.length = u.1.inputFiles.length := by
      rw [hloadedAs.inputFiles, List.length_map, hlen]
    have happly := @applyMetadataUpdate_rendered u.1 hu.writable u.2 mode loaded hsame
    dsimp only [Option.map_some] at hread
    rw [happly] at hread
    cases Except.ok.inj hread
    refine ⟨?_, hloadedAs.sectionsFile⟩
    rw [hloadedAs.inputFiles, shown, map_setInputs]
    exact congrArg (fun t : PersistedState => { t with
      linkStart := u.1.linkStart
      output := u.1.output
      buildIdHashes := u.1.buildIdHashes
      inputFiles := setInputs (base.inputFiles.map (read mode))
        ((updatedRows u.1 u.2).map fun row : Nat × FileState =>
          (row.1, row.2.read mode)) }) hloadedAs.eq

theorem Holds.readMetadata (c : Codec) : ∃ s, dir.readMetadata c = .ok (some s) := by
  obtain ⟨places, locations, hplaces, hindex⟩ := h.index
  obtain ⟨table, hrender, htable⟩ := hplaces.table
  have hnone : places.loadedRecords (sectionLoader c dir false) = .ok default := by
    rw [RecordPlaces.loadedRecords]
    split <;> rfl
  have hparsed := parseIndex_renderIndex h.recordable.writable hplaces hrender htable hnone
    .preserveRaw false
  rw [StateDir.readMetadata, Sld.Incremental.readImpl, hindex]
  dsimp only
  rw [hparsed]
  cases hupd : update with
  | none =>
    rw [h.metadataUpdate, hupd]
    exact ⟨_, rfl⟩
  | some u =>
    obtain ⟨hu, hlen, _⟩ := h.update u hupd
    have happly := @applyMetadataUpdate_rendered u.1 hu.writable u.2 .preserveRaw
      (base.read .preserveRaw places default (places.columns false table locations))
      (by simp [PersistedState.read, hlen])
    rw [h.metadataUpdate, hupd]
    exact ⟨_, congrArg (fun e : Except String PersistedState => some <$> e) happly⟩

end

/-! ## A persisted patch -/

/-- What a patch found out may be written: hexadecimal paths and hashes. -/
structure ChangedInputPatch.Recordable (p : ChangedInputPatch) : Prop where
  inputs : ∀ edit ∈ p.rewrittenInputs ++ p.changedInputs, edit.2.Recordable
  outputHash : IsPlain p.output.hash
  buildIdHashes : ∀ b, p.buildIdHashes = some b → b.Writable
  owners : ∀ file ∈ p.records.owners, IsPlain file
  targets : ∀ r ∈ p.records.relocations, ∀ t, r.target = some t → IsPlain t.inputFile

theorem isPlain_of_isHex {t : Text} (h : ∀ ch ∈ t, IsHex ch) : IsPlain t :=
  ⟨fun hc => absurd (h _ hc) (by decide), fun hc => absurd (h _ hc) (by decide),
    fun hc => absurd (h _ hc) (by decide)⟩

variable {locations : List PatchRecordLocation}

theorem indexed_writable {c : Codec} (hhex : c.HexHash) {dir written : RecordFiles}
    {records : CompactRecords} (howners : ∀ file ∈ records.owners, IsPlain file)
    (htargets : ∀ r ∈ records.relocations, ∀ t, r.target = some t → IsPlain t.inputFile)
    {name : Text}
    (hwrite : writeIndexedRecordsStreaming c dir records = .ok (written, name, locations)) :
    (RecordPlaces.indexed name locations).Writable locations := by
  obtain ⟨blocks, hblocks, _, rfl, _, rfl⟩ := writeIndexedRecordsStreaming_ok hwrite
  have hhash : ∀ bytes, IsPlain (c.hashBytes bytes) := fun bytes => isPlain_of_isHex (hhex bytes)
  have hname : IsPlain (compressedSectionsFilePrefix ++ c.hashBytes (blocks.flatMap (·.2))) := by
    have hp : IsPlain compressedSectionsFilePrefix := by decide
    have hb := hhash (blocks.flatMap (·.2))
    refine ⟨?_, ?_, ?_⟩
    · exact fun hc => (List.mem_append.mp hc).elim hp.1 hb.1
    · exact fun hc => (List.mem_append.mp hc).elim hp.2.1 hb.2.1
    · exact fun hc => (List.mem_append.mp hc).elim hp.2.2 hb.2.2
  have hvalid := validateSectionsFileName_compressed
    fun ch hch => hhex (blocks.flatMap (·.2)) ch hch
  have hblock : ∀ l ∈ blockLocations c 0 blocks, IsPlain l.inputFile ∧ IsPlain l.hash := by
    intro l hl
    constructor
    · refine howners l.inputFile ?_
      have hmem := List.mem_map_of_mem (f := fun l => l.inputFile) hl
      rw [map_inputFile_blockLocations, (encodeBlocks_ok hblocks).1, mem_sortDedup] at hmem
      exact hmem
    · have hhashes : ∀ (offset : UInt64) (bs : List (Text × List UInt8)),
          ∀ l ∈ blockLocations c offset bs, IsPlain l.hash := by
        intro offset bs
        induction bs generalizing offset with
        | nil => exact nofun
        | cons b bs ih =>
          intro l hl
          rcases List.mem_cons.mp hl with rfl | hl
          · exact hhash b.2
          · exact ih _ l hl
      exact hhashes 0 blocks l hl
  refine ⟨⟨hname, hvalid⟩, ?_, ?_, ?_, ?_⟩
  · intro f hf
    cases hf
    exact ⟨hname, hvalid⟩
  · intro hnone
    cases hnone
  · refine fun _ => ⟨rfl, ?_⟩
    intro l hl
    rcases List.mem_append.mp (mem_sortDedup.mp hl) with hl | hl
    · exact hblock l hl
    · obtain ⟨pair, hpair, hl⟩ := List.mem_filterMap.mp hl
      obtain ⟨block, hfound, rfl⟩ := Option.map_eq_some_iff.mp hl
      obtain ⟨r, hr, t, ht, hfile, _, _⟩ := mem_relocationAliases.mp (mem_sortDedup.mp hpair)
      exact ⟨hfile ▸ htargets r hr t ht, (hblock block (List.mem_of_find?_eq_some hfound)).2⟩
  · intro raw hraw
    cases hraw

namespace ChangedInputPatch

variable (p : ChangedInputPatch)

/-- The patch as a change of the overlaid store; only the length of `files` matters. -/
def change (files : List FileState) : Change Nat (Option FileState) where
  keys := {i | i ∈ p.inputIndices}
  value := inputAt (p.recordInputs files)
  rebase := p.clearSectionsFile = true

theorem inputAt_recordInputs {files files' : List FileState} (hlen : files.length = files'.length) :
    inputAt (p.recordInputs files') = (p.change files).record (inputAt files') := by
  funext i
  by_cases hi : i ∈ p.inputIndices
  · rw [Change.record_of_mem (c := p.change files) hi]
    exact congrArg _ (p.getElem?_recordInputs_congr hi hlen.symm)
  · rw [Change.record_of_notMem (c := p.change files) hi]
    exact congrArg _ (p.getElem?_recordInputs_of_notMem hi files')

end ChangedInputPatch

section

variable {c : Codec} {dir : StateDir} {base : PersistedState} {update : Option Update}
  (h : Holds dir base update) {p : ChangedInputPatch}

include h

theorem Holds.readForPatch {reading : PatchReading} {s : PersistedState}
    (hread : dir.readForPatch c reading = .ok (some s)) :
    ∃ mode, ReadsAs mode (shown base update) s := by
  cases reading with
  | metadata => exact ⟨_, h.readImpl hread⟩
  | full => exact ⟨_, h.readImpl hread⟩
  | fullUnderMetadata =>
    obtain ⟨previous, hprev, hread⟩ := bind_eq_ok.mp hread
    cases previous with
    | none => cases hread
    | some previous =>
      obtain ⟨full, hfull, hread⟩ := bind_eq_ok.mp hread
      have hmetadata := h.readImpl hprev
      cases full with
      | none =>
        cases Except.ok.inj hread
        exact ⟨_, hmetadata⟩
      | some full =>
        have hall := h.readImpl hfull
        cases Except.ok.inj hread
        refine ⟨.preserveRaw, ?_, hall.sectionsFile⟩
        rw [hmetadata.inputFiles]
        exact congrArg (fun t : PersistedState => { t with
          inputFiles := (shown base update).inputFiles.map (read .preserveRaw) })
          hall.eq

theorem Holds.record_recordable (hp : p.Recordable) {mode : PatchSectionReadMode}
    {previous : PersistedState} (hprev : ReadsAs mode (shown base update) previous) :
    (p.record previous).Recordable := by
  have hshown := h.shown_recordable
  have hinputs : ∀ f ∈ (p.record previous).inputFiles, f.Recordable := by
    intro f hf
    rw [record, p.recordInputs_eq] at hf
    rcases mem_setInputs hf with hf | ⟨edit, hedit, rfl⟩
    · rw [hprev.inputFiles] at hf
      obtain ⟨g, hg, rfl⟩ := List.mem_map.mp hf
      exact (hshown.inputFiles g hg).read mode
    · exact hp.inputs edit hedit
  have hw := hshown.writable
  have heq := hprev.eq
  refine ⟨⟨?_, ?_, ?_, ?_, hp.outputHash, hp.buildIdHashes, fun f hf => (hinputs f hf).writable⟩,
    hinputs⟩
  · exact (congrArg PersistedState.argsHash heq).symm ▸ hw.argsHash
  · exact (congrArg PersistedState.linkOptionsHash heq).symm ▸ hw.linkOptionsHash
  · exact (congrArg PersistedState.inputOrderHash heq).symm ▸ hw.inputOrderHash
  · exact (congrArg PersistedState.sldVersion heq).symm ▸ hw.sldVersion

/-- **A persisted patch is a change of the overlaid store.** -/
theorem Holds.persist (hhex : c.HexHash) (hp : p.Recordable) {dir' : StateDir}
    (hpersist : p.persist c dir = .ok dir') :
    ∃ base' update', Holds dir' base' update' ∧ base'.inputFiles.length = base.inputFiles.length ∧
      ∀ files : List FileState, files.length = base.inputFiles.length →
        overlaid base' update' = (overlaid base update).write (p.change files) := by
  obtain ⟨found, hfound, hpersist⟩ := bind_eq_ok.mp hpersist
  cases found with
  | none => cases hpersist
  | some previous =>
    obtain ⟨mode, hprev⟩ := h.readForPatch hfound
    have hrecord := h.record_recordable hp hprev
    have hlen : (p.record previous).inputFiles.length = base.inputFiles.length := by
      simp [record, hprev.inputFiles]
    have hview : (overlaid base update).view = inputAt previous.inputFiles := by
      rw [h.view]
      exact (inputAt_eq_of_map_eq (hprev.map_read h.shown_recordable)).symm
    have hrecorded : ∀ files : List FileState, files.length = base.inputFiles.length →
        inputAt (p.record previous).inputFiles =
          (p.change files).record (overlaid base update).view := by
      intro files hfiles
      rw [hview]
      refine p.inputAt_recordInputs ?_
      rw [hfiles, hprev.inputFiles, List.length_map, length_shown]
    dsimp only at hpersist
    rw [PersistedState.writeMetadataUpdateForInputs] at hpersist
    by_cases hclear : p.clearSectionsFile = true
    · -- the records changed, so the whole index is written
      rw [if_pos (by simp [record, hclear])] at hpersist
      obtain ⟨⟨written, name, locations⟩, hwrite, hpersist⟩ := bind_eq_ok.mp hpersist
      cases hpersist
      have hplaces := indexed_writable hhex hp.owners hp.targets hwrite
      have hnone : ∀ u ∈ (none : Option Update), u.1.Recordable ∧
          u.1.inputFiles.length = (p.record previous).inputFiles.length ∧
          ∀ i ∈ u.2, i < u.1.inputFiles.length := fun u hu => by cases hu
      refine ⟨p.record previous, none, ⟨hrecord, ⟨_, _, hplaces, rfl⟩, rfl, hnone⟩, hlen, ?_⟩
      intro files hfiles
      rw [Overlaid.write, if_pos (show (p.change files).rebase from hclear), ← hrecorded files hfiles]
      rfl
    · -- only the update file is replaced
      have hsome : (p.record previous).sectionsFile.isNone ≠ true := by
        have hfile := hprev.sectionsFile
        simpa [record, hclear] using hfile
      rw [if_neg hsome] at hpersist
      obtain ⟨text, hrender, hpersist⟩ := bind_eq_ok.mp hpersist
      cases hpersist
      obtain ⟨hbound, rfl⟩ := renderMetadataUpdate_eq_ok.mp hrender
      refine ⟨base, some (p.record previous, p.inputIndices),
        ⟨h.recordable, h.index, rfl, ?_⟩, rfl, ?_⟩
      · intro u hu
        cases hu
        exact ⟨hrecord, hlen, hbound⟩
      · intro files hfiles
        have hnot : ¬ (p.change files).rebase := hclear
        have hbase : ((overlaid base update).write (p.change files)).base =
            inputAt base.inputFiles := Overlaid.base_write_of_not_rebase _ _ hnot
        refine Overlaid.ext hbase.symm (funext fun i => ?_)
        show (if i ∈ p.inputIndices then some (inputAt (p.record previous).inputFiles i)
          else none) = _
        by_cases hi : i ∈ p.inputIndices
        · rw [if_pos hi, Overlaid.overlay_write_of_mem _ _ hnot hi, hrecorded files hfiles,
            Change.record_of_mem (c := p.change files) hi]
        · rw [if_neg hi, Overlaid.overlay_write_of_notMem _ _ hnot hi]

theorem Holds.persist_metadata (hreading : p.reading = .metadata)
    (hclear : p.clearSectionsFile = false)
    (hbound : ∀ i ∈ p.inputIndices, i < base.inputFiles.length) :
    ∃ dir', p.persist c dir = .ok dir' := by
  obtain ⟨previous, hread⟩ := h.readMetadata c
  have hprev := h.readImpl hread
  have hlen : (p.record previous).inputFiles.length = base.inputFiles.length := by
    simp [record, hprev.inputFiles]
  have hsome : (p.record previous).sectionsFile.isNone ≠ true := by
    have hfile := hprev.sectionsFile
    simpa [record, hclear] using hfile
  have hrender : renderMetadataUpdate (p.record previous) p.inputIndices =
      .ok (unlines (updateLines (p.record previous) p.inputIndices)) :=
    renderMetadataUpdate_eq_ok.mpr ⟨fun i hi => hlen ▸ hbound i hi, rfl⟩
  have hfound : dir.readForPatch c p.reading = .ok (some previous) := by
    rw [hreading]
    exact hread
  rw [ChangedInputPatch.persist, hfound, ok_bind]
  dsimp only
  rw [PersistedState.writeMetadataUpdateForInputs, if_neg hsome, hrender]
  exact ⟨_, rfl⟩

end

/-! ## Runs of patches -/

/-- Both reads of the directory return what was recorded for every input. -/
structure ReadsBack (c : Codec) (dir : StateDir) (recorded : List FileState) : Prop where
  readable : ∃ s, dir.readMetadata c = .ok (some s)
  metadata : ∀ s, dir.readMetadata c = .ok (some s) →
    s.inputFiles.map (FileState.read .parse) = recorded.map (FileState.read .parse)
  full : ∀ s, dir.read c = .ok (some s) → s.inputFiles = recorded.map (FileState.read .parse)

/-- What was recorded is read back before the run and after each of its patches. -/
def RunReadsBack (c : Codec) (dir : StateDir) (recorded : List FileState) :
    List ChangedInputPatch → Prop
  | [] => ReadsBack c dir recorded
  | p :: patches => ReadsBack c dir recorded ∧ ∀ dir', p.persist c dir = .ok dir' →
      RunReadsBack c dir' (p.recordInputs recorded) patches

/-- The input at an index as the directory has it. -/
def StateDir.inputOnDisk (c : Codec) (dir : StateDir) (i : Nat) : Option FileState :=
  match dir.readMetadata c with
  | .ok (some s) => inputAt s.inputFiles i
  | _ => none

/-- The patch writes a whole index, or lists every input that the update on
disk changed from what the index has. -/
def KeepsEarlier (c : Codec) (dir : StateDir) (p : ChangedInputPatch) : Prop :=
  p.clearSectionsFile = true ∨ ∀ i ∉ p.inputIndices,
    dir.inputOnDisk c i = { dir with metadataUpdate := none }.inputOnDisk c i

/-- Every patch of the run does. -/
def RunKeepsEarlier (c : Codec) (dir : StateDir) : List ChangedInputPatch → Prop
  | [] => True
  | p :: patches => ∀ dir', p.persist c dir = .ok dir' →
      KeepsEarlier c dir p ∧ RunKeepsEarlier c dir' patches

section

variable {c : Codec} {dir : StateDir} {base : PersistedState} {update : Option Update}
  (h : Holds dir base update)

include h

theorem Holds.inputOnDisk : dir.inputOnDisk c = (overlaid base update).view := by
  obtain ⟨s, hs⟩ := h.readMetadata c
  funext i
  rw [StateDir.inputOnDisk, hs, h.view]
  exact congrFun (inputAt_eq_of_map_eq ((h.readImpl hs).map_read h.shown_recordable)) i

theorem Holds.withoutUpdate : Holds { dir with metadataUpdate := none } base none :=
  ⟨h.recordable, h.index, rfl, fun u hu => by cases hu⟩

theorem Holds.keepsEarlier_iff {p : ChangedInputPatch} (files : List FileState) :
    KeepsEarlier c dir p ↔ (overlaid base update).Keeps (p.change files) := by
  rw [KeepsEarlier, h.inputOnDisk, h.withoutUpdate.inputOnDisk]
  exact Iff.rfl

theorem Holds.reads_iff {recorded : List FileState} :
    ReadsBack c dir recorded ↔ (overlaid base update).view = inputAt recorded := by
  rw [h.view]
  constructor
  · intro hback
    obtain ⟨s, hs⟩ := hback.readable
    rw [← inputAt_eq_of_map_eq ((h.readImpl hs).map_read h.shown_recordable)]
    exact inputAt_eq_of_map_eq (hback.metadata s hs)
  · intro hview
    have hmap := map_eq_of_inputAt_eq hview
    refine ⟨h.readMetadata c, ?_, ?_⟩
    · intro s hs
      rw [(h.readImpl hs).map_read h.shown_recordable, hmap]
    · intro s hs
      rw [(h.readImpl hs).inputFiles, hmap]

/-- The induction is along the run: as long as what is on disk is what was
recorded, one patch is read back exactly when it keeps the earlier records. -/
theorem Holds.runReadsBack_iff (hhex : c.HexHash) {recorded : List FileState}
    (hlen : recorded.length = base.inputFiles.length)
    (hview : (overlaid base update).view = inputAt recorded) {patches : List ChangedInputPatch}
    (hpatches : ∀ p ∈ patches, p.Recordable) :
    RunReadsBack c dir recorded patches ↔ RunKeepsEarlier c dir patches := by
  have hback : ReadsBack c dir recorded := h.reads_iff.mpr hview
  induction patches generalizing dir base update recorded with
  | nil => exact iff_of_true hback trivial
  | cons p patches ih =>
    have hstep : ∀ dir', p.persist c dir = .ok dir' →
        (RunReadsBack c dir' (p.recordInputs recorded) patches ↔
          KeepsEarlier c dir p ∧ RunKeepsEarlier c dir' patches) := by
      intro dir' hpersist
      obtain ⟨base', update', h', hlen', hwrite⟩ :=
        h.persist hhex (hpatches p List.mem_cons_self) hpersist
      have hrecorded : inputAt (p.recordInputs recorded) =
          (p.change recorded).record (overlaid base update).view := by
        rw [hview]
        exact p.inputAt_recordInputs rfl
      have hkeeps : (overlaid base' update').view = inputAt (p.recordInputs recorded) ↔
          KeepsEarlier c dir p := by
        rw [hwrite recorded hlen, hrecorded, Overlaid.view_write_iff, h.keepsEarlier_iff recorded]
      have hrest : KeepsEarlier c dir p → (RunReadsBack c dir' (p.recordInputs recorded) patches ↔
            RunKeepsEarlier c dir' patches) := by
        intro hkeep
        have hview' := hkeeps.mpr hkeep
        exact ih h' (by simpa [hlen'] using hlen) hview'
          (fun q hq => hpatches q (List.mem_cons_of_mem _ hq)) (h'.reads_iff.mpr hview')
      constructor
      · intro hrun
        have hfirst : ReadsBack c dir' (p.recordInputs recorded) := by
          cases patches with
          | nil => exact hrun
          | cons q patches => exact hrun.1
        have hkeep := hkeeps.mp (h'.reads_iff.mp hfirst)
        exact ⟨hkeep, (hrest hkeep).mp hrun⟩
      · rintro ⟨hkeep, hrun⟩
        exact (hrest hkeep).mpr hrun
    constructor
    · rintro ⟨_, hrun⟩ dir' hpersist
      exact (hstep dir' hpersist).mp (hrun dir' hpersist)
    · intro hrun
      exact ⟨hback, fun dir' hpersist => (hstep dir' hpersist).mpr (hrun dir' hpersist)⟩

end

/-- A directory that holds a written index and no update. -/
def StateDir.ofIndex (base : PersistedState) (places : RecordPlaces) (records : RecordFiles) :
    StateDir where
  index := some (renderIndex base places)
  metadataUpdate := none
  records := records

theorem holds_ofIndex {base : PersistedState} (hbase : base.Recordable) {places : RecordPlaces}
    (hplaces : places.Writable locations)
    (records : RecordFiles) : Holds (.ofIndex base places records) base none :=
  ⟨hbase, ⟨places, locations, hplaces, rfl⟩, rfl, fun u hu => by cases hu⟩

/-- Over every run of patches, what was last recorded for each input is read
back in every state reached exactly when every patch that installs an
update lists the inputs that the update it replaces had changed. -/
theorem metadata_updates_read_back_iff {c : Codec} (hhex : c.HexHash) {base : PersistedState}
    (hbase : base.Recordable) {places : RecordPlaces} {locations : List PatchRecordLocation}
    (hplaces : places.Writable locations) (records : RecordFiles)
    {patches : List ChangedInputPatch} (hpatches : ∀ p ∈ patches, p.Recordable) :
    RunReadsBack c (.ofIndex base places records) base.inputFiles patches ↔
      RunKeepsEarlier c (.ofIndex base places records) patches :=
  (holds_ofIndex hbase hplaces records).runReadsBack_iff hhex rfl rfl hpatches

/-! ## Two objects -/

/-- An object with one patchable section. -/
def objectInput (path hash : Text) (offset : UInt64) : FileState where
  path := path
  content := ⟨512, hash, none⟩
  snapshotIdentity := none
  patch := some {
    fingerprint := hash
    sections := [{ input := path, sectionIndex := 1, sectionName := some ".text".toList,
                   inputSize := 16, outputOffset := offset, outputSize := 16, dataHash := none }]
    rawSections := none }

theorem objectInput_recordable {path hash : Text} (hpath : IsPart path) (hhash : IsPresent hash)
    (offset : UInt64) : (objectInput path hash offset).Recordable := by
  refine ⟨⟨hpath.1, hhash.1, fun p hp => ?_⟩, hpath⟩
  cases hp
  refine ⟨hhash, fun _ s hs => ?_, fun raw hraw => by cases hraw⟩
  obtain rfl := List.mem_singleton.mp hs
  exact ⟨hpath, fun h hh => by cases hh⟩

def firstObject (hash : String) : FileState := objectInput "612e6f".toList hash.toList 4096
def secondObject (hash : String) : FileState := objectInput "622e6f".toList hash.toList 8192

/-- The state of a link of two objects. -/
def twoObjects : PersistedState :=
  { oneObject with inputFiles := [firstObject "a0", secondObject "b0"] }

theorem twoObjects_recordable : twoObjects.Recordable := by
  have hinputs : ∀ f ∈ twoObjects.inputFiles, f.Recordable := by
    intro f hf
    rcases List.mem_pair.mp hf with rfl | rfl
    · exact objectInput_recordable (by decide) (by decide) _
    · exact objectInput_recordable (by decide) (by decide) _
  have hone := oneObject_writable
  exact ⟨⟨hone.argsHash, hone.linkOptionsHash, hone.inputOrderHash, hone.sldVersion,
    hone.outputHash, hone.buildIdHashes, fun f hf => (hinputs f hf).writable⟩, hinputs⟩

/-- A patch of one changed object that leaves the records alone. -/
def objectPatch (index : Nat) (input : FileState) : ChangedInputPatch where
  reading := .metadata
  changedInputs := [(index, input)]
  rewrittenInputs := []
  linkStart := oneObject.linkStart
  output := oneObject.output
  buildIdHashes := none
  records := default
  clearSectionsFile := false

theorem objectPatch_recordable {index : Nat} {input : FileState} (h : input.Recordable) :
    (objectPatch index input).Recordable where
  inputs edit hedit := by
    obtain rfl := List.mem_singleton.mp hedit
    exact h
  outputHash := oneObject_writable.outputHash
  buildIdHashes b hb := by cases hb
  owners file hfile := absurd hfile List.not_mem_nil
  targets r hr := absurd hr List.not_mem_nil

def twoObjectsDir : StateDir :=
  .ofIndex twoObjects (.indexed "sections-zstd-ef".toList [oneLocation]) ⟨"", fun _ => none⟩

/-- The first object is patched twice; its second record takes the place of the first. -/
theorem metadata_updates_read_back_twoObjects :
    RunReadsBack storedCodec twoObjectsDir twoObjects.inputFiles
      [objectPatch 0 (firstObject "a1"), objectPatch 0 (firstObject "a2")] := by
  have hfirst : (objectPatch 0 (firstObject "a1")).Recordable :=
    objectPatch_recordable (objectInput_recordable (by decide) (by decide) _)
  have hsecond : (objectPatch 0 (firstObject "a2")).Recordable :=
    objectPatch_recordable (objectInput_recordable (by decide) (by decide) _)
  have h₀ : Holds twoObjectsDir twoObjects none :=
    holds_ofIndex twoObjects_recordable oneLocation_writable ⟨"", fun _ => none⟩
  refine (metadata_updates_read_back_iff storedCodec_hexHash twoObjects_recordable
    oneLocation_writable ⟨"", fun _ => none⟩ ?_).mpr ?_
  · intro p hp
    rcases List.mem_pair.mp hp with rfl | rfl
    · exact hfirst
    · exact hsecond
  · intro dir₁ hpersist
    obtain ⟨base₁, update₁, h₁, -, hwrite⟩ := h₀.persist storedCodec_hexHash hfirst hpersist
    refine ⟨.inr fun i _ => rfl, fun dir₂ _ => ⟨?_, trivial⟩⟩
    refine (h₁.keepsEarlier_iff twoObjects.inputFiles).mpr (.inr fun i hi => ?_)
    rw [hwrite twoObjects.inputFiles rfl, Overlaid.view_write_of_not_rebase _ _ Bool.false_ne_true,
      Overlaid.base_write_of_not_rebase _ _ Bool.false_ne_true]
    have hother : i ∉ (objectPatch 0 (firstObject "a1")).inputIndices := hi
    exact Change.record_of_notMem hother _

/-- The update of the second object takes the place of the update of the first. -/
theorem second_update_loses_first :
    ¬ RunReadsBack storedCodec twoObjectsDir twoObjects.inputFiles
      [objectPatch 0 (firstObject "a1"), objectPatch 1 (secondObject "b1")] := by
  have hfirst : (objectPatch 0 (firstObject "a1")).Recordable :=
    objectPatch_recordable (objectInput_recordable (by decide) (by decide) _)
  have hsecond : (objectPatch 1 (secondObject "b1")).Recordable :=
    objectPatch_recordable (objectInput_recordable (by decide) (by decide) _)
  have h₀ : Holds twoObjectsDir twoObjects none :=
    holds_ofIndex twoObjects_recordable oneLocation_writable ⟨"", fun _ => none⟩
  obtain ⟨dir₁, hpersist₁⟩ := h₀.persist_metadata (c := storedCodec)
    (p := objectPatch 0 (firstObject "a1")) rfl rfl (by decide)
  obtain ⟨base₁, update₁, h₁, hlen₁, hwrite₁⟩ := h₀.persist storedCodec_hexHash hfirst hpersist₁
  obtain ⟨dir₂, hpersist₂⟩ := h₁.persist_metadata (c := storedCodec)
    (p := objectPatch 1 (secondObject "b1")) rfl rfl (hlen₁.symm ▸ by decide)
  obtain ⟨base₂, update₂, h₂, _, hwrite₂⟩ := h₁.persist storedCodec_hexHash hsecond hpersist₂
  intro hrun
  have hback : (overlaid base₂ update₂).view = inputAt [firstObject "a1", secondObject "b1"] :=
    h₂.reads_iff.mp ((hrun.2 dir₁ hpersist₁).2 dir₂ hpersist₂)
  -- the first object is read from the index, which no patch has written
  have hbase : (overlaid base₁ update₁).base = inputAt twoObjects.inputFiles := by
    rw [hwrite₁ twoObjects.inputFiles rfl]
    exact Overlaid.base_write_of_not_rebase _ _ Bool.false_ne_true
  have hview : (overlaid base₂ update₂).view 0 = inputAt twoObjects.inputFiles 0 := by
    have hother : 0 ∉ (objectPatch 1 (secondObject "b1")).inputIndices := by decide
    rw [hwrite₂ twoObjects.inputFiles hlen₁.symm,
      Overlaid.view_write_of_not_rebase _ _ Bool.false_ne_true,
      Change.record_of_notMem hother, hbase]
  have hlost : inputAt twoObjects.inputFiles 0 ≠
      inputAt [firstObject "a1", secondObject "b1"] 0 := by decide
  exact hlost (hview.symm.trans (congrFun hback 0))

end Sld.Incremental
