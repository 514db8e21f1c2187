/-
# `Incremental.UpdateMarker` — the steps of an update on the file system

A link changes the state directory and the output in many steps and may be
killed after any of them.  A marker file stands while an update is under
way.  The index, the metadata update and the output are separate files; an
index and an update are written beside their place and then renamed.

The steps of each kind of link are listed in the order of the source.  Steps
that touch neither of these files (records, hash tree, snapshots, link start
and log) are `other`.

An index may be there and yet not be read: one of another version, say, or
one under an update that numbers an input the index does not have.  Which
pairs are read is `readable`.
-/
import Sld.Incremental.Timestamps
import Sld.Store.Interrupted

namespace Sld.Incremental

open Text

/-! ## The files -/

structure OutputFile where
  identity : FileIdentity
  bytes : List UInt8

/-- What the next invocation finds.  The last two are not on disk: the outputs
that a link or a patch had finished writing, and the states that were put on
disk, each with the output at that time. -/
structure Disk where
  marker : Bool
  index : Option PersistedState
  indexTmp : Option PersistedState
  metadataUpdate : Option Update
  metadataUpdateTmp : Option Update
  output : Option OutputFile
  completed : List OutputFile
  recordedFor : List (PersistedState × OutputFile)

inductive FsOp where
  | other
  | createMarker
  | removeMarker
  | writeIndexTmp (index : PersistedState)
  | removeIndex
  | renameIndex
  | writeMetadataUpdateTmp (update : Update)
  | removeMetadataUpdate
  | renameMetadataUpdate
  /-- The output is created, resized, written or removed. -/
  | writeOutput (output : Option OutputFile)
  /-- The last write of the output is done, and its identity is read. -/
  | finishOutput

def Disk.apply (d : Disk) : FsOp → Disk
  | .other => d
  | .createMarker => { d with marker := true }
  | .removeMarker => { d with marker := false }
  | .writeIndexTmp index =>
    { d with
      indexTmp := some index
      recordedFor := d.output.toList.map (index, ·) ++ d.recordedFor }
  | .removeIndex => { d with index := none }
  | .renameIndex => { d with index := d.indexTmp, indexTmp := none }
  | .writeMetadataUpdateTmp update =>
    { d with
      metadataUpdateTmp := some update
      recordedFor := d.output.toList.map (update.1, ·) ++ d.recordedFor }
  | .removeMetadataUpdate => { d with metadataUpdate := none }
  | .renameMetadataUpdate =>
    { d with metadataUpdate := d.metadataUpdateTmp, metadataUpdateTmp := none }
  | .writeOutput output => { d with output }
  | .finishOutput => { d with completed := d.output.toList ++ d.completed }

section

variable (readable : PersistedState → Option Update → Bool)

def Disk.readMetadata (d : Disk) : Option PersistedState :=
  (d.index.filter fun index => readable index d.metadataUpdate).map fun index =>
    shown index d.metadataUpdate

/-! ## What justifies a reuse -/

/-- `output.identity_matches_path` -/
def Disk.outputMatches (d : Disk) (content : FileContentState) : Bool :=
  match d.output with
  | none => false
  | some output => content.identityMatches output.identity

section

variable (sameLink : PersistedState → Bool) (d : Disk)

/-- `maybe_reuse_output_during_publication`, without the lock; `sameLink` is
all it asks of options, version and inputs. -/
def maybeReuseOutputDuringPublication : Option PersistedState :=
  if !d.marker then none
  else (d.readMetadata readable).filter fun previous =>
    previous.sectionsFile = some publishingSectionsFile && previous.patchRecordsFile.isNone &&
      sameLink previous && d.outputMatches previous.output

/-- The state from which `maybe_reuse_output_before_loading` reuses or
patches the output, under the lock. -/
def reusableBeforeLoading : Option PersistedState :=
  if d.marker then none
  else (d.readMetadata readable).filter fun previous =>
    sameLink previous && d.outputMatches previous.output

/-- The state with which `classify_incremental_mode` keeps the output or its
unchanged sections. -/
def reusableAfterLoading (hashBytes : List UInt8 → Text) : Option PersistedState :=
  if d.marker then none
  else (d.readMetadata readable).filter fun previous =>
    sameLink previous &&
      (d.outputMatches previous.output ||
        match d.output with
        | none => false
        | some output =>
          { FileContentState.fromBytes hashBytes output.bytes with
            identity := some output.identity }.same previous.output)

end

/-! ## The steps of a link -/

/-- `from_path_identity_only` -/
def FileContentState.identityOnly (identity : FileIdentity) : FileContentState :=
  ⟨identity.len, [], some identity⟩

/-- `write_index_with_sections_files` -/
def writeIndexSteps (s : PersistedState) : List FsOp :=
  [.writeIndexTmp s, .removeIndex, .renameIndex, .removeMetadataUpdate]

/-- `write`, with the name of the new record file. -/
def writeSteps (s : PersistedState) (sectionsFile : Text) : List FsOp :=
  .other :: writeIndexSteps
    { s with sectionsFile := some sectionsFile, patchRecordsFile := some sectionsFile }

def writePublishingIndexSteps (s : PersistedState) : List FsOp :=
  writeIndexSteps
    { s with sectionsFile := some publishingSectionsFile, patchRecordsFile := none }

def writeMetadataUpdateSteps (s : PersistedState) (sectionsFile : Text) : List FsOp :=
  if s.sectionsFile.isSome then writeIndexSteps s else writeSteps s sectionsFile

def writeMetadataUpdateForInputsSteps (s : PersistedState) (inputIndices : List Nat)
    (sectionsFile : Text) : List FsOp :=
  if s.sectionsFile.isNone then writeSteps s sectionsFile
  else [.writeMetadataUpdateTmp (s, inputIndices), .removeMetadataUpdate, .renameMetadataUpdate]

/-- The mode of the link is set by an interrupted update.  `maybe_prepare` asks
for the marker only once it has read the metadata. -/
def interruptedUpdate (d : Disk) : Bool := d.marker && (d.readMetadata readable).isSome

def canPublishInBackground (d : Disk) : Bool := !interruptedUpdate readable d

def beginUpdateSteps (d : Disk) : List FsOp :=
  (if canPublishInBackground readable d then [] else [.removeIndex]) ++ [.createMarker]

def publishSteps (s : PersistedState) (sectionsFile : Text) : List FsOp :=
  .other :: writeSteps s sectionsFile ++ [.removeMarker]

/-- The output after some writes. -/
def outputAfter (output : Option OutputFile) (writes : List (Option OutputFile)) :
    Option OutputFile :=
  writes.getLast?.getD output

/-- A changed-input patch, from its marker on. -/
def patchSteps (writes : List OutputFile) (s : PersistedState) (inputIndices : List Nat)
    (sectionsFile : Text) : List FsOp :=
  .createMarker :: writes.map (fun output => .writeOutput (some output)) ++
    [.finishOutput, .other] ++ writeMetadataUpdateForInputsSteps s inputIndices sectionsFile ++
    [.removeMarker]

/-- A full link after loading.  Some writes, of the size of the output, come
before the marker.  A link that publishes in the background writes an index
of what it knows by then before it publishes its state. -/
def relinkSteps (d : Disk) (early writes : List (Option OutputFile)) (s : PersistedState)
    (publishing : Option PersistedState) (sectionsFile : Text) : List FsOp :=
  early.map .writeOutput ++ beginUpdateSteps readable d ++ writes.map .writeOutput ++
    [.finishOutput, .other] ++
    (if canPublishInBackground readable d then
      publishing.toList.flatMap writePublishingIndexSteps else []) ++
    publishSteps s sectionsFile

/-- A link that keeps the output after loading. -/
def keepSteps (d : Disk) (s : PersistedState) (sectionsFile : Text) : List FsOp :=
  beginUpdateSteps readable d ++ [.other] ++ publishSteps s sectionsFile

/-- The states on disk. -/
def Disk.recorded (d : Disk) : List PersistedState :=
  d.index.toList ++ (d.metadataUpdate.map (·.1)).toList

/-- A write of the output gives it an identity that no state on disk records. -/
def Disk.Fresh (d : Disk) (output : OutputFile) : Prop :=
  ∀ s ∈ d.recorded, s.output.identity ≠ some output.identity

/-- What one invocation may do to the files.  A refresh and a patch write what
they make of the metadata they read (`refreshRewrittenInputIdentities`,
`changedInputPatch`). -/
inductive LinkSteps (hashBytes : List UInt8 → Text) (d : Disk) : List FsOp → Prop
  | reuse : LinkSteps hashBytes d [.other]
  | refresh {sameLink : PersistedState → Bool} {previous : PersistedState}
      (hprev : reusableBeforeLoading readable sameLink d = some previous)
      (looks : Nat → InputLook) (linkStart : FileIdentity) (sectionsFile : Text) :
      LinkSteps hashBytes d (.other :: writeMetadataUpdateSteps
        { previous with
          linkStart := some linkStart
          inputFiles := refreshRewrittenInputIdentities hashBytes previous looks } sectionsFile)
  | patch {sameLink : PersistedState → Bool} {previous : PersistedState}
      (hprev : reusableBeforeLoading readable sameLink d = some previous)
      {writes : List OutputFile} (hfresh : ∀ output ∈ writes, d.Fresh output)
      {output : OutputFile} (hlast : outputAfter d.output (writes.map some) = some output)
      (looks : Nat → InputLook) (linkStart : FileIdentity) {rest : PatchRest}
      (hout : rest.output = .identityOnly output.identity) {patch : ChangedInputPatch}
      (hpatch : patch = changedInputPatch hashBytes previous looks linkStart rest)
      (sectionsFile : Text) :
      LinkSteps hashBytes d
        (.other :: patchSteps writes (patch.record previous) patch.inputIndices sectionsFile)
  | relink {early writes : List (Option OutputFile)}
      (hfresh : ∀ output, some output ∈ early ++ writes → d.Fresh output)
      {output : OutputFile} (hlast : writes.getLast? = some (some output)) {s : PersistedState}
      (hout : s.output = .identityOnly output.identity) {publishing : Option PersistedState}
      (hpublishing : ∀ p ∈ publishing, p.output = .identityOnly output.identity)
      (sectionsFile : Text) :
      LinkSteps hashBytes d
        (.other :: relinkSteps readable d early writes s publishing sectionsFile)
  /-- The inputs that were loaded are those of the metadata. -/
  | keep {sameLink : PersistedState → Bool} {previous s : PersistedState}
      (hprev : reusableAfterLoading readable sameLink d hashBytes = some previous)
      (hinputs : s.inputFiles.length = previous.inputFiles.length)
      {output : OutputFile} (hlast : d.output = some output)
      (hout : s.output = .identityOnly output.identity) (sectionsFile : Text) :
      LinkSteps hashBytes d (.other :: keepSteps readable d s sectionsFile)
  /-- The output is written or removed by something else. -/
  | outside {output : Option OutputFile} (hfresh : ∀ file, output = some file → d.Fresh file) :
      LinkSteps hashBytes d [.writeOutput output]

/-- The disks that runs of interrupted links reach from one without state, by
links that meet a condition. -/
abbrev ReachedDisk (hashBytes : List UInt8 → Text) (φ : Disk → List FsOp → Prop) : Disk → Prop :=
  Store.Interrupted Disk.apply (fun d => d.index = none ∧ d.metadataUpdate = none)
    fun d ops => LinkSteps readable hashBytes d ops ∧ φ d ops

end

end Sld.Incremental
