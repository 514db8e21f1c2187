/-
# `Incremental.CrashSafety` — what an interrupted update leaves

Every state that is ever put on disk names the identity of an output that
had been written to its end, and a later write gives the output an identity
that no state on disk names.  What is *read* of index and update together
has to be such a state too, input by input (`Disk.Sound`).  Each step of each
kind of link keeps this, so it holds wherever a link is killed, and every path
that would reuse or patch the output compares identities.  The marker decides
which of the paths may be taken.

An update takes the place of the one before it.  When that one had recorded
an input which the new one does not list, the index shows through, and what
is read there belongs to an older output.  `Disk.KeepsEarlier` rules it out.
-/
import Sld.Incremental.TimestampRuns
import Sld.Incremental.UpdateMarker

namespace Sld.Incremental

open Text
open Store (after Throughout throughout_nil throughout_cons throughout_append throughout_of_forall)
open List.Subset (refl)
open ChangedInputPatch (record)

namespace PersistedState

/-- What no update changes, apart from the inputs. -/
def ofIndex (s : PersistedState) :=
  (s.argsHash, s.linkOptionsHash, s.inputOrderHash, s.sldVersion, s.sectionsFile,
    s.patchRecordsFile)

/-- What every update has. -/
def ofUpdate (s : PersistedState) := (s.linkStart, s.output, s.buildIdHashes)

end PersistedState

open PersistedState (ofIndex ofUpdate)

namespace Disk

variable {d : Disk} {s : PersistedState} {output : OutputFile}

/-- The state has here what some state had that was put on disk for this output. -/
def Agrees {α : Type} (recordedFor : List (PersistedState × OutputFile)) (output : OutputFile)
    (field : PersistedState → α) (s : PersistedState) : Prop :=
  ∃ recorded, (recorded, output) ∈ recordedFor ∧ field s = field recorded

/-- Everything the state says was put on disk for exactly this output. -/
structure WrittenFor (recordedFor : List (PersistedState × OutputFile)) (output : OutputFile)
    (s : PersistedState) : Prop where
  ofIndex : Agrees recordedFor output ofIndex s
  ofUpdate : Agrees recordedFor output ofUpdate s
  inputFiles : ∀ i : Nat, Agrees recordedFor output (fun s => s.inputFiles[i]?) s

/-- The state is that which is read.  It names the output, which is complete, and
was written for it. -/
def Describes (readable : PersistedState → Option Update → Bool) (d : Disk)
    (s : PersistedState) : Prop :=
  d.readMetadata readable = some s ∧ ∃ output, d.output = some output ∧
    s.output.identity = some output.identity ∧ output ∈ d.completed ∧
    WrittenFor d.recordedFor output s

/-- The updates that are put in place list every input that the state now shows
otherwise than the index. -/
def KeepsEarlier (d : Disk) (ops : List FsOp) : Prop :=
  ∀ u, .writeMetadataUpdateTmp u ∈ ops → ∀ index, d.index = some index →
    ∀ i, i ∉ u.2 → (shown index d.metadataUpdate).inputFiles[i]? = index.inputFiles[i]?

/-- If the output has the identity that the state names then it is complete. -/
def Names (d : Disk) (s : PersistedState) : Prop :=
  s.output.hash = [] ∧ ∀ output, d.output = some output →
    s.output.identity = some output.identity → output ∈ d.completed

/-- If the output has the identity that the state names then the state was written for it. -/
def Records (d : Disk) (s : PersistedState) : Prop :=
  d.Names s ∧ ∀ output, d.output = some output →
    s.output.identity = some output.identity → (s, output) ∈ d.recordedFor

structure Sound (d : Disk) : Prop where
  recorded : ∀ s ∈ d.recorded, d.Records s
  shown : ∀ index, d.index = some index → ∀ output, d.output = some output →
    (shown index d.metadataUpdate).output.identity = some output.identity →
      WrittenFor d.recordedFor output (shown index d.metadataUpdate)

theorem mem_recorded : s ∈ d.recorded ↔
    d.index = some s ∨ ∃ u, d.metadataUpdate = some u ∧ u.1 = s := by
  simp only [recorded, List.mem_append, Option.mem_toList, Option.map_eq_some_iff]

variable {recordedFor : List (PersistedState × OutputFile)}

theorem WrittenFor.of_mem (h : (s, output) ∈ recordedFor) : WrittenFor recordedFor output s :=
  ⟨⟨s, h, rfl⟩, ⟨s, h, rfl⟩, fun _ => ⟨s, h, rfl⟩⟩

theorem WrittenFor.mono (h : WrittenFor recordedFor output s)
    {recordedFor' : List (PersistedState × OutputFile)} (hfor : recordedFor ⊆ recordedFor') :
    WrittenFor recordedFor' output s := by
  have hmono : ∀ {α : Type} {field : PersistedState → α}, Agrees recordedFor output field s →
      Agrees recordedFor' output field s :=
    fun ⟨recorded, hmem, heq⟩ => ⟨recorded, hfor hmem, heq⟩
  exact ⟨hmono h.ofIndex, hmono h.ofUpdate, fun i => hmono (h.inputFiles i)⟩

theorem Names.identityOnly (houtput : d.output = some output)
    (hcompl : output ∈ d.completed) (hs : s.output = .identityOnly output.identity) :
    d.Names s := by
  refine ⟨by rw [hs]; rfl, fun output' houtput' _ => ?_⟩
  cases houtput.symm.trans houtput'
  exact hcompl

theorem exists_recorded {index : PersistedState} (hindex : d.index = some index) :
    ∃ recorded ∈ d.recorded,
      recorded.output = (Incremental.shown index d.metadataUpdate).output := by
  cases hupd : d.metadataUpdate with
  | none => exact ⟨index, mem_recorded.mpr (.inl hindex), rfl⟩
  | some u => exact ⟨u.1, mem_recorded.mpr (.inr ⟨u, hupd, rfl⟩), rfl⟩

variable {readable : PersistedState → Option Update → Bool}

theorem exists_index_of_readMetadata (hs : d.readMetadata readable = some s) :
    ∃ index, d.index = some index ∧ Incremental.shown index d.metadataUpdate = s := by
  obtain ⟨index, hindex, hshown⟩ := Option.map_eq_some_iff.mp hs
  exact ⟨index, (Option.filter_eq_some_iff.mp hindex).1, hshown⟩

theorem Sound.names_readMetadata (hd : d.Sound) (hs : d.readMetadata readable = some s) :
    d.Names s := by
  obtain ⟨index, hindex, rfl⟩ := exists_index_of_readMetadata hs
  obtain ⟨recorded, hrecorded, houtput⟩ := exists_recorded hindex
  rw [Names, ← houtput]
  exact (hd.recorded recorded hrecorded).1

theorem outputMatches_iff {content : FileContentState} : d.outputMatches content = true ↔
    ∃ output, d.output = some output ∧ content.identity = some output.identity := by
  unfold outputMatches
  cases d.output with
  | none => simp
  | some output => simp [FileContentState.identityMatches]

theorem Sound.describes (hd : d.Sound) (hs : d.readMetadata readable = some s)
    (hmatch : d.outputMatches s.output = true) : d.Describes readable s := by
  obtain ⟨output, houtput, hidentity⟩ := outputMatches_iff.mp hmatch
  refine ⟨hs, output, houtput, hidentity, (hd.names_readMetadata hs).2 output houtput hidentity, ?_⟩
  obtain ⟨index, hindex, rfl⟩ := exists_index_of_readMetadata hs
  exact hd.shown index hindex output houtput hidentity

/-! ## Single steps -/

theorem Records.mono {d' : Disk} (hs : d.Records s) (houtput : d'.output = d.output)
    (hcompleted : d.completed ⊆ d'.completed) (hfor : d.recordedFor ⊆ d'.recordedFor) :
    d'.Records s := by
  refine ⟨⟨hs.1.1, fun output hout hidentity => ?_⟩, fun output hout hidentity => ?_⟩
  · exact hcompleted (hs.1.2 output (by rw [← houtput, hout]) hidentity)
  · exact hfor (hs.2 output (by rw [← houtput, hout]) hidentity)

section

variable (hd : d.Sound)

include hd

theorem Sound.of_subset {d' : Disk} (hindex : d'.index = d.index)
    (hupd : d'.metadataUpdate = d.metadataUpdate) (houtput : d'.output = d.output)
    (hcompleted : d.completed ⊆ d'.completed) (hfor : d.recordedFor ⊆ d'.recordedFor) :
    d'.Sound := by
  constructor
  · intro s hs
    rw [Disk.recorded, hindex, hupd] at hs
    exact (hd.recorded s hs).mono houtput hcompleted hfor
  · rw [hindex, hupd, houtput]
    exact fun index hsome output hout hidentity =>
      (hd.shown index hsome output hout hidentity).mono hfor

theorem Sound.writeOutput {output : Option OutputFile}
    (hfresh : ∀ file, output = some file → d.Fresh file) :
    (d.apply (.writeOutput output)).Sound := by
  have hother : ∀ s ∈ d.recorded, ∀ file, output = some file →
      s.output.identity ≠ some file.identity := fun s hs file hfile => hfresh file hfile s hs
  constructor
  · intro s hs
    exact ⟨⟨(hd.recorded s hs).1.1, fun file hfile hidentity =>
      absurd hidentity (hother s hs file hfile)⟩,
      fun file hfile hidentity => absurd hidentity (hother s hs file hfile)⟩
  · intro index hindex file hfile hidentity
    obtain ⟨recorded, hrecorded, heq⟩ := exists_recorded (d := d) hindex
    exact absurd (heq ▸ hidentity) (hother recorded hrecorded file hfile)

theorem Sound.createMarker : (d.apply .createMarker).Sound :=
  hd.of_subset rfl rfl rfl (refl _) (refl _)

theorem Sound.removeMarker : (d.apply .removeMarker).Sound :=
  hd.of_subset rfl rfl rfl (refl _) (refl _)

theorem Sound.removeIndex : (d.apply .removeIndex).Sound := by
  refine ⟨fun s hs => ?_, fun index hindex => by cases hindex⟩
  rcases mem_recorded.mp hs with hindex | hupd
  · cases hindex
  · exact hd.recorded s (mem_recorded.mpr (.inr hupd))

theorem Sound.removeMetadataUpdate : (d.apply .removeMetadataUpdate).Sound := by
  constructor
  · intro s hs
    rcases mem_recorded.mp hs with hindex | ⟨u, hu, _⟩
    · exact hd.recorded s (mem_recorded.mpr (.inl hindex))
    · cases hu
  · intro index hindex output houtput hidentity
    have hrecords := hd.recorded index (mem_recorded.mpr (.inl hindex))
    exact .of_mem (hrecords.2 output houtput hidentity)

theorem Sound.writeIndexTmp (s : PersistedState) : (d.apply (.writeIndexTmp s)).Sound :=
  hd.of_subset rfl rfl rfl (refl _) (List.subset_append_right _ _)

theorem Sound.writeMetadataUpdateTmp (u : Update) : (d.apply (.writeMetadataUpdateTmp u)).Sound :=
  hd.of_subset rfl rfl rfl (refl _) (List.subset_append_right _ _)

end

theorem mem_recordedFor_append (houtput : d.output = some output) :
    (s, output) ∈ d.output.toList.map (s, ·) ++ recordedFor := by
  rw [houtput]
  exact List.mem_cons_self

/-- The update that is there names another output, or shows of an index of the
same length what was written for the output. -/
def Fits (d : Disk) (s : PersistedState) : Prop :=
  ∀ output u, d.output = some output → d.metadataUpdate = some u →
    u.1.output.identity = some output.identity → ∃ index : PersistedState,
      index.inputFiles.length = s.inputFiles.length ∧
        WrittenFor d.recordedFor output (Incremental.shown index (some u))

/-- A new index under an old update: each input is as the update says, or as the
new index says. -/
theorem Fits.writtenFor_shown (hfits : d.Fits s)
    (hfor : ∀ output, d.output = some output → (s, output) ∈ d.recordedFor)
    (houtput : d.output = some output)
    (hidentity : (Incremental.shown s d.metadataUpdate).output.identity = some output.identity) :
    WrittenFor d.recordedFor output (Incremental.shown s d.metadataUpdate) := by
  cases hupd : d.metadataUpdate with
  | none => exact .of_mem (hfor output houtput)
  | some u =>
    rw [hupd] at hidentity
    obtain ⟨index, hlen, hwritten⟩ := hfits output u houtput hupd hidentity
    refine ⟨⟨s, hfor output houtput, rfl⟩, hwritten.ofUpdate, fun i => ?_⟩
    by_cases hi : i ∈ (updatedRows u.1 u.2).map (·.1)
    · obtain ⟨recorded, hmem, heq⟩ := hwritten.inputFiles i
      exact ⟨recorded, hmem, (getElem?_setInputs_congr hlen.symm (.inr hi)).trans heq⟩
    · exact ⟨s, hfor output houtput, getElem?_setInputs_of_notMem hi _⟩

theorem Sound.renameIndex (hd : d.Sound) (htmp : d.indexTmp = some s) (hs : d.Names s)
    (hfor : ∀ output, d.output = some output → (s, output) ∈ d.recordedFor) (hfits : d.Fits s) :
    (d.apply .renameIndex).Sound := by
  constructor
  · intro s' hs'
    rcases mem_recorded.mp hs' with hindex | hupd
    · cases htmp.symm.trans hindex
      exact ⟨hs, fun output houtput _ => hfor output houtput⟩
    · exact hd.recorded s' (mem_recorded.mpr (.inr hupd))
  · intro index hindex output houtput hidentity
    cases htmp.symm.trans hindex
    exact hfits.writtenFor_shown hfor houtput hidentity

/-- With the update the index shows what the update was made of. -/
structure Extends (index : PersistedState) (u : Update) : Prop where
  ofIndex : index.ofIndex = u.1.ofIndex
  inputFiles : (Incremental.shown index (some u)).inputFiles = u.1.inputFiles

theorem Sound.renameMetadataUpdate (hd : d.Sound) {u : Update}
    (htmp : d.metadataUpdateTmp = some u) (hu : d.Names u.1)
    (hfor : ∀ output, d.output = some output → (u.1, output) ∈ d.recordedFor)
    (hext : ∀ index, d.index = some index → Extends index u) :
    (d.apply .renameMetadataUpdate).Sound := by
  constructor
  · intro s' hs'
    rcases mem_recorded.mp hs' with hindex | ⟨u', hu', rfl⟩
    · exact hd.recorded s' (mem_recorded.mpr (.inl hindex))
    · cases htmp.symm.trans hu'
      exact ⟨hu, fun output houtput _ => hfor output houtput⟩
  · intro index hindex output houtput _
    have hext := hext index hindex
    show WrittenFor d.recordedFor output (Incremental.shown index d.metadataUpdateTmp)
    rw [htmp]
    exact ⟨⟨u.1, hfor output houtput, hext.ofIndex⟩, ⟨u.1, hfor output houtput, rfl⟩,
      fun i => ⟨u.1, hfor output houtput, congrArg (·[i]?) hext.inputFiles⟩⟩

theorem Sound.fits (hd : d.Sound) {index : PersistedState} (hindex : d.index = some index)
    (hlen : index.inputFiles.length = s.inputFiles.length) : d.Fits s := by
  intro output u houtput hupd hidentity
  have hshown := hd.shown index hindex output houtput
  rw [hupd] at hshown
  exact ⟨index, hlen, hshown hidentity⟩

theorem Fits.of_none (hupd : d.metadataUpdate = none) : d.Fits s :=
  fun _ _ _ hsome => by rw [hupd] at hsome; cases hsome

/-! ## The parts of a link -/

theorem Sound.writeIndexSteps (hd : d.Sound) (hs : d.Names s) (hfits : d.Fits s) :
    Throughout apply Sound d (Incremental.writeIndexSteps s) := by
  have htmp := hd.writeIndexTmp s
  have hfits' : (d.apply (.writeIndexTmp s)).Fits s := by
    intro output u houtput hupd hidentity
    obtain ⟨index, hlen, hwritten⟩ := hfits output u houtput hupd hidentity
    exact ⟨index, hlen, hwritten.mono (List.subset_append_right _ _)⟩
  have hrenamed := htmp.removeIndex.renameIndex rfl hs
    (fun output houtput => mem_recordedFor_append houtput) hfits'
  refine throughout_cons.mpr ⟨hd, throughout_cons.mpr ⟨htmp, ?_⟩⟩
  refine throughout_cons.mpr ⟨htmp.removeIndex, throughout_cons.mpr ⟨hrenamed, ?_⟩⟩
  exact throughout_nil.mpr hrenamed.removeMetadataUpdate

theorem Sound.writeSteps (hd : d.Sound) (hs : d.Names s) (hfits : d.Fits s)
    (sectionsFile : Text) : Throughout apply Sound d (Incremental.writeSteps s sectionsFile) :=
  throughout_cons.mpr ⟨hd, hd.writeIndexSteps hs hfits⟩

theorem Sound.writeMetadataUpdateSteps (hd : d.Sound) (hs : d.Names s) (hfits : d.Fits s)
    (sectionsFile : Text) :
    Throughout apply Sound d (Incremental.writeMetadataUpdateSteps s sectionsFile) := by
  rw [Incremental.writeMetadataUpdateSteps]
  split
  · exact hd.writeIndexSteps hs hfits
  · exact hd.writeSteps hs hfits sectionsFile

theorem Sound.writeMetadataUpdateForInputsSteps (hd : d.Sound) (hs : d.Names s)
    (hfits : d.Fits s) {inputIndices : List Nat}
    (hext : s.sectionsFile ≠ none → ∀ index, d.index = some index →
      Extends index (s, inputIndices)) (sectionsFile : Text) :
    Throughout apply Sound d
      (Incremental.writeMetadataUpdateForInputsSteps s inputIndices sectionsFile) := by
  rw [Incremental.writeMetadataUpdateForInputsSteps]
  split
  · exact hd.writeSteps hs hfits sectionsFile
  · rename_i hsome
    have htmp := hd.writeMetadataUpdateTmp (s, inputIndices)
    have hrenamed := htmp.removeMetadataUpdate.renameMetadataUpdate rfl hs
      (fun output houtput => mem_recordedFor_append houtput)
      (hext fun hnone => hsome (by rw [hnone]; rfl))
    refine throughout_cons.mpr ⟨hd, throughout_cons.mpr ⟨htmp, ?_⟩⟩
    exact throughout_cons.mpr ⟨htmp.removeMetadataUpdate, throughout_nil.mpr hrenamed⟩

theorem Sound.publishSteps (hd : d.Sound) (hs : d.Names s) (hfits : d.Fits s)
    (sectionsFile : Text) :
    Throughout apply Sound d (Incremental.publishSteps s sectionsFile) := by
  refine throughout_cons.mpr ⟨hd, throughout_append.mpr ⟨hd.writeSteps hs hfits sectionsFile, ?_⟩⟩
  have hwritten := (hd.writeSteps hs hfits sectionsFile).last
  exact throughout_cons.mpr ⟨hwritten, throughout_nil.mpr hwritten.removeMarker⟩

theorem Sound.beginUpdateSteps (hd : d.Sound) :
    Throughout apply Sound d (Incremental.beginUpdateSteps readable d) := by
  rw [Incremental.beginUpdateSteps]
  split
  · exact throughout_cons.mpr ⟨hd, throughout_nil.mpr hd.createMarker⟩
  · exact throughout_cons.mpr
      ⟨hd, throughout_cons.mpr ⟨hd.removeIndex, throughout_nil.mpr hd.removeIndex.createMarker⟩⟩

theorem Sound.writes (hd : d.Sound) {writes : List (Option OutputFile)}
    (hfresh : ∀ output, some output ∈ writes → d.Fresh output) :
    Throughout apply Sound d (writes.map .writeOutput) := by
  have hthroughout : Throughout apply (fun d' => d'.Sound ∧ d'.recorded = d.recorded) d
      (writes.map .writeOutput) := by
    refine throughout_of_forall ⟨hd, rfl⟩ ?_
    rintro d' ⟨hd', hrecorded⟩ op hop
    obtain ⟨output, houtput, rfl⟩ := List.mem_map.mp hop
    refine ⟨hd'.writeOutput ?_, hrecorded⟩
    rintro file rfl s hs
    exact hfresh file houtput s (hrecorded ▸ hs)
  exact hthroughout.mono fun _ h => h.1

theorem after_writes (d : Disk) (writes : List (Option OutputFile)) :
    after apply d (writes.map .writeOutput) = { d with output := outputAfter d.output writes } := by
  induction writes generalizing d with
  | nil => rfl
  | cons output writes ih =>
    rw [List.map_cons, Store.after_cons, ih]
    cases writes with
    | nil => rfl
    | cons output' writes =>
      cases h : (output' :: writes).getLast? with
      | none => simp at h
      | some last => rfl

/-- The output has been written to its end. -/
def finished (d : Disk) (output : OutputFile) : Disk :=
  { d with output := some output, completed := output :: d.completed }

theorem names_finished (hs : s.output = .identityOnly output.identity) :
    (d.finished output).Names s :=
  .identityOnly rfl List.mem_cons_self hs

theorem Fresh.fits (hfresh : d.Fresh output) : (d.finished output).Fits s := by
  intro output' u houtput hupd hidentity
  cases houtput
  exact absurd hidentity (hfresh u.1 (mem_recorded.mpr (.inr ⟨u, hupd, rfl⟩)))

theorem Sound.complete (hd : d.Sound) {writes : List (Option OutputFile)}
    (hfresh : ∀ output, some output ∈ writes → d.Fresh output)
    (hlast : outputAfter d.output writes = some output) {rest : List FsOp}
    (hrest : (d.finished output).Sound → Throughout apply Sound (d.finished output) rest) :
    Throughout apply Sound d (writes.map .writeOutput ++ ([.finishOutput, .other] ++ rest)) := by
  have hwritten := hd.writes hfresh
  have hfin : (after apply d (writes.map .writeOutput)).apply .finishOutput =
      d.finished output := by
    rw [after_writes, hlast]
    rfl
  have hsound : (d.finished output).Sound :=
    hfin ▸ hwritten.last.of_subset rfl rfl rfl (List.subset_append_right _ _) (refl _)
  refine throughout_append.mpr ⟨hwritten, throughout_cons.mpr ⟨hwritten.last, ?_⟩⟩
  rw [hfin]
  exact throughout_cons.mpr ⟨hsound, hrest hsound⟩

/-! ## The kinds of links -/

theorem ofIndex_shown (index : PersistedState) (update : Option Update) :
    (Incremental.shown index update).ofIndex = index.ofIndex := by
  cases update with
  | none => rfl
  | some u => rfl

/-- A patch that lists what the index does not say puts its own state on disk. -/
theorem extends_record {index : PersistedState} {update : Option Update} {p : ChangedInputPatch}
    (hsome : (p.record (Incremental.shown index update)).sectionsFile ≠ none)
    (hkeeps : ∀ i, i ∉ p.inputIndices →
      (Incremental.shown index update).inputFiles[i]? = index.inputFiles[i]?) :
    Extends index (p.record (Incremental.shown index update), p.inputIndices) := by
  constructor
  · have hkept : p.clearSectionsFile = false := by
      cases hclear : p.clearSectionsFile with
      | false => rfl
      | true =>
        rw [record, hclear] at hsome
        exact absurd rfl hsome
    rw [← ofIndex_shown index update]
    simp [PersistedState.ofIndex, record, hkept]
  · refine inputFiles_shown ?_ fun i hi => ?_
    · rw [record, ChangedInputPatch.length_recordInputs, length_shown]
    · rw [record, ChangedInputPatch.getElem?_recordInputs_of_notMem _ hi]
      exact hkeeps i hi

theorem Sound.patchSteps (hd : d.Sound) {writes : List OutputFile}
    (hfresh : ∀ output ∈ writes, d.Fresh output)
    (hlast : outputAfter d.output (writes.map some) = some output)
    (hs : s.output = .identityOnly output.identity) {index : PersistedState}
    (hindex : d.index = some index) (hlen : index.inputFiles.length = s.inputFiles.length)
    {inputIndices : List Nat} (hext : s.sectionsFile ≠ none → Extends index (s, inputIndices))
    (sectionsFile : Text) :
    Throughout apply Sound d (Incremental.patchSteps writes s inputIndices sectionsFile) := by
  have hsteps : Incremental.patchSteps writes s inputIndices sectionsFile =
      .createMarker :: ((writes.map some).map .writeOutput ++ ([.finishOutput, .other] ++
        (Incremental.writeMetadataUpdateForInputsSteps s inputIndices sectionsFile ++
          [.removeMarker]))) := by
    simp [Incremental.patchSteps]
  rw [hsteps]
  refine throughout_cons.mpr ⟨hd, hd.createMarker.complete ?_ hlast fun hfin => ?_⟩
  · intro file hmem
    obtain ⟨file', hfile', heq⟩ := List.mem_map.mp hmem
    exact Option.some.inj heq ▸ hfresh file' hfile'
  · have hwritten := hfin.writeMetadataUpdateForInputsSteps (names_finished hs)
      (hfin.fits hindex hlen) (fun hsome index' hindex' => by
        cases hindex.symm.trans hindex'
        exact hext hsome) sectionsFile
    exact throughout_append.mpr ⟨hwritten,
      throughout_cons.mpr ⟨hwritten.last, throughout_nil.mpr hwritten.last.removeMarker⟩⟩

theorem recorded_beginUpdateSteps_subset (d : Disk) :
    (after apply d (Incremental.beginUpdateSteps readable d)).recorded ⊆ d.recorded := by
  intro s hs
  rw [Incremental.beginUpdateSteps] at hs
  split at hs
  · exact hs
  · rcases mem_recorded.mp hs with hindex | hupd
    · cases hindex
    · exact mem_recorded.mpr (.inr hupd)

theorem Sound.relinkSteps (hd : d.Sound) {early writes : List (Option OutputFile)}
    (hfresh : ∀ output, some output ∈ early ++ writes → d.Fresh output)
    (hlast : writes.getLast? = some (some output))
    (hs : s.output = .identityOnly output.identity) {publishing : Option PersistedState}
    (hpublishing : ∀ p ∈ publishing, p.output = .identityOnly output.identity)
    (sectionsFile : Text) :
    Throughout apply Sound d
      (Incremental.relinkSteps readable d early writes s publishing sectionsFile) := by
  have hsteps : Incremental.relinkSteps readable d early writes s publishing sectionsFile =
      early.map .writeOutput ++ (Incremental.beginUpdateSteps readable d ++
        (writes.map .writeOutput ++ ([.finishOutput, .other] ++
          ((if canPublishInBackground readable d then
              publishing.toList.flatMap Incremental.writePublishingIndexSteps else []) ++
            Incremental.publishSteps s sectionsFile)))) := by
    simp [Incremental.relinkSteps]
  have hearly := hd.writes fun file hmem => hfresh file (List.mem_append_left _ hmem)
  have hafter : after apply d (early.map .writeOutput) =
      { d with output := outputAfter d.output early } := after_writes d early
  have hbegun := @Sound.beginUpdateSteps _ readable hearly.last
  have hmarker : Incremental.beginUpdateSteps readable
      (after apply d (early.map .writeOutput)) = Incremental.beginUpdateSteps readable d := by
    rw [hafter]
    rfl
  have hrecorded := @recorded_beginUpdateSteps_subset readable
    (after apply d (early.map .writeOutput))
  have hkept : (after apply d (early.map .writeOutput)).recorded = d.recorded := by
    rw [hafter]
    rfl
  rw [hmarker] at hbegun hrecorded
  have hfresh' : ∀ file, some file ∈ writes →
      (after apply (after apply d (early.map .writeOutput))
        (Incremental.beginUpdateSteps readable d)).Fresh file := fun file hmem s' hs' =>
    hfresh file (List.mem_append_right _ hmem) s' (hkept ▸ hrecorded hs')
  rw [hsteps]
  refine throughout_append.mpr ⟨hearly, throughout_append.mpr ⟨hbegun, ?_⟩⟩
  refine hbegun.last.complete hfresh' (by rw [outputAfter, hlast]; rfl) fun hfin => ?_
  have hlastFresh := hfresh' output (List.mem_of_getLast? hlast)
  have hpublish := hfin.publishSteps (names_finished hs) hlastFresh.fits sectionsFile
  split
  · cases publishing with
    | none => exact hpublish
    | some p =>
      have hpublishing := hfin.writeIndexSteps
        (s := { p with sectionsFile := some publishingSectionsFile, patchRecordsFile := none })
        (names_finished (hpublishing p rfl)) hlastFresh.fits
      rw [Option.toList_some, List.flatMap_singleton]
      -- the output is as it was, so the state still names it
      exact throughout_append.mpr ⟨hpublishing, hpublishing.last.publishSteps
        (names_finished hs) (.of_none rfl) sectionsFile⟩
  · exact hpublish

theorem Sound.keepSteps (hd : d.Sound) (hnames : d.Names s) (hfits : d.Fits s)
    (sectionsFile : Text) :
    Throughout apply Sound d (Incremental.keepSteps readable d s sectionsFile) := by
  have hsteps : Incremental.keepSteps readable d s sectionsFile =
      Incremental.beginUpdateSteps readable d ++
        (.other :: Incremental.publishSteps s sectionsFile) := by
    simp [Incremental.keepSteps]
  have hbegun := @Sound.beginUpdateSteps _ readable hd
  have hstill : (after apply d (Incremental.beginUpdateSteps readable d)).Names s ∧
      (after apply d (Incremental.beginUpdateSteps readable d)).Fits s := by
    rw [Incremental.beginUpdateSteps]
    split
    · exact ⟨hnames, hfits⟩
    · exact ⟨hnames, hfits⟩
  rw [hsteps]
  exact throughout_append.mpr ⟨hbegun,
    throughout_cons.mpr ⟨hbegun.last, hbegun.last.publishSteps hstill.1 hstill.2 sectionsFile⟩⟩

end Disk

section

variable {readable : PersistedState → Option Update → Bool} {hashBytes : List UInt8 → Text}
  {sameLink : PersistedState → Bool} {d : Disk} {previous : PersistedState}

theorem describes_of_duringPublication (hd : d.Sound)
    (h : maybeReuseOutputDuringPublication readable sameLink d = some previous) :
    d.marker = true ∧ previous.sectionsFile = some publishingSectionsFile ∧
      previous.patchRecordsFile = none ∧ d.Describes readable previous := by
  rw [maybeReuseOutputDuringPublication] at h
  split at h
  · cases h
  · rename_i hmarker
    obtain ⟨hread, hfilter⟩ := Option.filter_eq_some_iff.mp h
    simp only [Bool.and_eq_true, decide_eq_true_eq, Option.isNone_iff_eq_none] at hfilter
    obtain ⟨⟨⟨hpublishing, hnone⟩, _⟩, hmatch⟩ := hfilter
    refine ⟨?_, hpublishing, hnone, hd.describes hread hmatch⟩
    simpa using hmarker

theorem describes_of_beforeLoading (hd : d.Sound)
    (h : reusableBeforeLoading readable sameLink d = some previous) :
    d.marker = false ∧ d.Describes readable previous := by
  rw [reusableBeforeLoading] at h
  split at h
  · cases h
  · rename_i hmarker
    obtain ⟨hread, hfilter⟩ := Option.filter_eq_some_iff.mp h
    exact ⟨Bool.eq_false_iff.mpr hmarker, hd.describes hread (Bool.and_eq_true_iff.mp hfilter).2⟩

theorem describes_of_afterLoading (hd : d.Sound)
    (h : reusableAfterLoading readable sameLink d hashBytes = some previous) :
    d.marker = false ∧ d.Describes readable previous := by
  rw [reusableAfterLoading] at h
  split at h
  · cases h
  · rename_i hmarker
    obtain ⟨hread, hfilter⟩ := Option.filter_eq_some_iff.mp h
    refine ⟨Bool.eq_false_iff.mpr hmarker, ?_⟩
    rcases Bool.or_eq_true_iff.mp (Bool.and_eq_true_iff.mp hfilter).2 with hmatch | hsame
    · exact hd.describes hread hmatch
    · have hhash := (hd.names_readMetadata hread).1
      refine hd.describes hread (Disk.outputMatches_iff.mpr ?_)
      cases houtput : d.output with
      | none =>
        rw [houtput] at hsame
        cases hsame
      | some output =>
        rw [houtput] at hsame
        refine ⟨output, rfl, ?_⟩
        dsimp only at hsame
        rw [FileContentState.same] at hsame
        split at hsame
        · cases hsame
        · rw [if_neg fun hboth => hboth.2 hhash] at hsame
          exact (of_decide_eq_true (Bool.and_eq_true_iff.mp hsame).2).symm

/-- A patch installs an update unless it writes the whole state. -/
theorem update_mem_patchSteps {writes : List OutputFile} {s : PersistedState}
    {inputIndices : List Nat} {sectionsFile : Text} {u : Update} :
    .writeMetadataUpdateTmp u ∈ patchSteps writes s inputIndices sectionsFile ↔
      s.sectionsFile ≠ none ∧ u = (s, inputIndices) := by
  cases hfile : s.sectionsFile with
  | none => simp [patchSteps, writeMetadataUpdateForInputsSteps, writeSteps, writeIndexSteps, hfile]
  | some file => simp [patchSteps, writeMetadataUpdateForInputsSteps, hfile]

theorem Disk.Sound.link {ops : List FsOp} (hd : d.Sound)
    (hops : LinkSteps readable hashBytes d ops) (hkeeps : d.KeepsEarlier ops) :
    Throughout Disk.apply Disk.Sound d ops := by
  cases hops with
  | reuse => exact throughout_cons.mpr ⟨hd, throughout_nil.mpr hd⟩
  | refresh hprev looks linkStart sectionsFile =>
    have hread := (describes_of_beforeLoading hd hprev).2.1
    obtain ⟨index, hindex, rfl⟩ := Disk.exists_index_of_readMetadata hread
    have hnames := hd.names_readMetadata hread
    refine throughout_cons.mpr ⟨hd, hd.writeMetadataUpdateSteps ?_ (hd.fits hindex ?_) sectionsFile⟩
    · exact hnames
    · rw [refreshRewrittenInputIdentities, List.length_mapIdx, length_shown]
  | patch hprev hfresh hlast looks linkStart hout hpatch sectionsFile =>
    subst hpatch
    obtain ⟨index, hindex, rfl⟩ :=
      Disk.exists_index_of_readMetadata (describes_of_beforeLoading hd hprev).2.1
    refine throughout_cons.mpr ⟨hd, hd.patchSteps hfresh hlast hout hindex ?_ ?_ sectionsFile⟩
    · rw [record, ChangedInputPatch.length_recordInputs, length_shown]
    · exact fun hsome => Disk.extends_record hsome
        (hkeeps _ (List.mem_cons_of_mem _ (update_mem_patchSteps.mpr ⟨hsome, rfl⟩)) index hindex)
  | relink hfresh hlast hout hpublishing sectionsFile =>
    exact throughout_cons.mpr
      ⟨hd, hd.relinkSteps hfresh hlast hout hpublishing sectionsFile⟩
  | keep hprev hinputs hlast hout sectionsFile =>
    -- the output is the complete one that the state read before names
    obtain ⟨_, hread, output', houtput', _, hcompl, _⟩ := describes_of_afterLoading hd hprev
    obtain ⟨index, hindex, rfl⟩ := Disk.exists_index_of_readMetadata hread
    cases houtput'.symm.trans hlast
    refine throughout_cons.mpr ⟨hd, hd.keepSteps (.identityOnly hlast hcompl hout)
      (hd.fits hindex ?_) sectionsFile⟩
    rw [hinputs, length_shown]
  | outside hfresh =>
    exact throughout_cons.mpr ⟨hd, throughout_nil.mpr (hd.writeOutput hfresh)⟩

/-- What justifies the next reuse or patch: with the marker, a publishing index;
without it, the state on disk.  Either names the complete output and was
written for it. -/
structure CrashSafe (readable : PersistedState → Option Update → Bool)
    (hashBytes : List UInt8 → Text) (d : Disk) : Prop where
  duringPublication : ∀ sameLink previous,
    maybeReuseOutputDuringPublication readable sameLink d = some previous →
      d.marker = true ∧ previous.sectionsFile = some publishingSectionsFile ∧
        previous.patchRecordsFile = none ∧ d.Describes readable previous
  beforeLoading : ∀ sameLink previous,
    reusableBeforeLoading readable sameLink d = some previous →
      d.marker = false ∧ d.Describes readable previous
  afterLoading : ∀ sameLink previous,
    reusableAfterLoading readable sameLink d hashBytes = some previous →
      d.marker = false ∧ d.Describes readable previous

/-- Wherever the links of a run are interrupted, the next invocation reuses
and patches only a complete output that the state it reads describes, as long as
no patch drops what an earlier one recorded. -/
theorem crashSafe_of_reached (hd : ReachedDisk readable hashBytes Disk.KeepsEarlier d) :
    CrashSafe readable hashBytes d := by
  have hsound : d.Sound := by
    refine hd.invariant ?_ fun d ops hd hops => hd.link hops.1 hops.2
    rintro d ⟨hindex, hupd⟩
    refine ⟨fun s hs => ?_, fun index hsome => by rw [hindex] at hsome; cases hsome⟩
    rcases Disk.mem_recorded.mp hs with hsome | ⟨u, hsome, _⟩
    · rw [hindex] at hsome
      cases hsome
    · rw [hupd] at hsome
      cases hsome
  exact ⟨fun _ _ => describes_of_duringPublication hsound,
    fun _ _ => describes_of_beforeLoading hsound, fun _ _ => describes_of_afterLoading hsound⟩

end

/-! ### Patches of two inputs -/

def noState : Disk := ⟨false, none, none, none, none, none, [], []⟩

/-- Everything can be read. -/
def allReadable : PersistedState → Option Update → Bool := fun _ _ => true

def outputAt (sec : Nat) : OutputFile :=
  ⟨⟨2, 1, 21, .ofNat sec, 0, .ofNat sec, 0⟩, [1, .ofNat sec]⟩

def inputIdentity (i sec : Nat) : FileIdentity := ⟨1, 1, .ofNat i, .ofNat sec, 0, .ofNat sec, 0⟩

/-- An input that was written in a second, with that as its one byte. -/
def inputLook (i sec : Nat) : InputLook where
  found := inputIdentity i sec
  bytes := some [.ofNat sec]
  snapshot := none
  refreshed := some (inputIdentity i sec)
  patchedBytes := [.ofNat sec]
  patchedIdentity := some (inputIdentity i sec)
  patch := ⟨[], [], none⟩

/-- The state of a link of two inputs in the second 20. -/
def linkedState : PersistedState :=
  { oneObject with
    linkStart := some (markerAt 20)
    output := .identityOnly (outputAt 20).identity
    inputFiles := [0, 1].map fun i =>
      ⟨"61".toList, ⟨1, printedBytes [10], some (inputIdentity i 10)⟩, none, none⟩ }

def linkOps : List FsOp :=
  .other :: relinkSteps allReadable noState [] [some (outputAt 20)] linkedState
    (some linkedState) "sections-zstd-ef".toList

/-- The patch that finds the inputs written in these seconds. -/
def patchAt (previous : PersistedState) (written : Nat → Nat) (sec : Nat) : ChangedInputPatch :=
  changedInputPatch printedBytes previous (fun i => inputLook i (written i)) (markerAt (.ofNat sec))
    ⟨.identityOnly (outputAt sec).identity, none, default, false⟩

def patchOps (previous : PersistedState) (written : Nat → Nat) (sec : Nat) : List FsOp :=
  .other :: patchSteps [outputAt sec] ((patchAt previous written sec).record previous)
    (patchAt previous written sec).inputIndices []

def linkedDisk : Disk := after Disk.apply noState linkOps

def patchedDisk (d : Disk) (previous : PersistedState) (written : Nat → Nat) (sec : Nat) : Disk :=
  after Disk.apply d (patchOps previous written sec)

variable {φ : Disk → List FsOp → Prop}

theorem reached_linkedDisk (hφ : φ noState linkOps) :
    ReachedDisk allReadable printedBytes φ linkedDisk := by
  refine .run (.start ⟨rfl, rfl⟩) ⟨.relink ?_ rfl rfl ?_ _, hφ⟩ List.prefix_rfl
  · intro output _ s hs
    cases hs
  · intro p hp
    cases hp
    rfl

theorem ReachedDisk.patched {d : Disk} (hd : ReachedDisk allReadable printedBytes φ d)
    {previous : PersistedState}
    (hprev : reusableBeforeLoading allReadable (fun _ => true) d = some previous)
    {written : Nat → Nat} {sec : Nat} (hfresh : d.Fresh (outputAt sec))
    (hφ : φ d (patchOps previous written sec)) :
    ReachedDisk allReadable printedBytes φ (patchedDisk d previous written sec) := by
  refine .run hd ⟨.patch hprev ?_ rfl _ _ rfl rfl [], hφ⟩ List.prefix_rfl
  intro output houtput
  rw [List.mem_singleton.mp houtput]
  exact hfresh

/-- The first input is written in a second, and perhaps the other. -/
def writtenAt (first second : Nat) : Nat → Nat := fun i => if i = 0 then first else second

/-- What the index says of the inputs, from the link on. -/
def linkedIndex : PersistedState :=
  { linkedState with
    sectionsFile := some "sections-zstd-ef".toList
    patchRecordsFile := some "sections-zstd-ef".toList }

/-- What is read once the first input has been patched. -/
def firstRecorded : PersistedState :=
  shown linkedIndex (some ((patchAt linkedIndex (writtenAt 30 10) 30).record linkedIndex, [0]))

def firstPatched : Disk := patchedDisk linkedDisk linkedIndex (writtenAt 30 10) 30

theorem reached_firstPatched (hlink : φ noState linkOps)
    (hφ : φ linkedDisk (patchOps linkedIndex (writtenAt 30 10) 30)) :
    ReachedDisk allReadable printedBytes φ firstPatched := by
  refine (reached_linkedDisk hlink).patched (by rfl) ?_ hφ
  intro s hs
  rcases Disk.mem_recorded.mp hs with hindex | ⟨u, hu, _⟩
  · cases hindex
    decide
  · cases hu

theorem reached_patchedTwice {written : Nat → Nat}
    (hfirst : ReachedDisk allReadable printedBytes φ firstPatched)
    (hφ : φ firstPatched (patchOps firstRecorded written 40)) :
    ReachedDisk allReadable printedBytes φ (patchedDisk firstPatched firstRecorded written 40) := by
  refine hfirst.patched (by rfl) ?_ hφ
  intro s hs
  rcases Disk.mem_recorded.mp hs with hindex | ⟨u, hu, rfl⟩
  · cases hindex
    decide
  · cases hu
    decide

/-- The first input is patched twice. -/
theorem crashSafe_of_patchedTwice :
    (reusableBeforeLoading allReadable (fun _ => true)
        (patchedDisk firstPatched firstRecorded (writtenAt 40 10) 40)).isSome = true ∧
      CrashSafe allReadable printedBytes
        (patchedDisk firstPatched firstRecorded (writtenAt 40 10) 40) := by
  refine ⟨by rfl, crashSafe_of_reached (reached_patchedTwice (reached_firstPatched ?_ ?_) ?_)⟩
  · intro u hu index hindex
    cases hindex
  · intro u hu index hindex i hi
    cases hindex
    rfl
  · intro u hu index hindex i hi
    obtain ⟨_, rfl⟩ := update_mem_patchSteps.mp ((List.mem_cons.mp hu).resolve_left (by simp))
    cases hindex
    exact getElem?_setInputs_of_notMem hi _

/-- The second patch is of the other input, and the record of the first is gone. -/
theorem second_patch_drops_first :
    ¬ ∀ d, ReachedDisk allReadable printedBytes (fun _ _ => True) d →
      CrashSafe allReadable printedBytes d := by
  intro hall
  have hreached := @reached_patchedTwice (fun _ _ => True) (writtenAt 30 40)
    (reached_firstPatched trivial trivial) trivial
  obtain ⟨_, _, output, houtput, _, _, hwritten⟩ :=
    (hall _ hreached).beforeLoading (fun _ => true) _ rfl
  cases houtput
  obtain ⟨recorded, hmem, heq⟩ := hwritten.inputFiles 0
  -- of all that was put on disk, one state is for this output, and it has the record
  rcases List.mem_cons.mp hmem with h | hmem
  · obtain ⟨rfl, _⟩ := Prod.mk.inj h
    exact absurd heq (by decide)
  · have hother : ∀ pair ∈ firstPatched.recordedFor, pair.2.identity ≠ (outputAt 40).identity := by
      decide
    exact hother _ hmem rfl

end Sld.Incremental
