/-
# `Incremental.Timestamps` — what a link believes of its inputs

An input need not be read again when its identity is the recorded one and
the recorded identity is older than the link that recorded it, by whole
seconds.  The steps below are what links do with the state: reuse the output
with or without new metadata, patch changed inputs, or link in full, with
the state prepared first and published by a background process.  Each step
is given what it sees of the files, the moments between which it sees it,
and the identity of the link-start marker.

The state on disk is an index with perhaps an update; `shown` is what is
read of the pair, and `Holds` says which files are its texts.
-/
import Mathlib.Data.Int.ConditionallyCompleteOrder
import Sld.Incremental.MetadataUpdateRuns
import Sld.Store.FileHistory

namespace Sld.Incremental

open Text
open Store (Labels FileHistory)

/-! ## Identities and times -/

/-- `timestamp_on_or_after`: nanoseconds are not trusted. -/
def timestampOnOrAfter (sec _nsec lowerSec _lowerNsec : Int64) : Bool := lowerSec ≤ sec

namespace FileIdentity

variable (i lowerBound : FileIdentity)

def modifiedOnOrAfter : Bool :=
  timestampOnOrAfter i.modifiedSec i.modifiedNsec lowerBound.modifiedSec lowerBound.modifiedNsec

def mayHaveChangedSince : Bool :=
  i.modifiedOnOrAfter lowerBound ||
    timestampOnOrAfter i.changedSec i.changedNsec lowerBound.modifiedSec lowerBound.modifiedNsec

end FileIdentity

/-- `identity_matches_path`, with the identity found at the path. -/
def FileContentState.identityMatches (content : FileContentState) (found : FileIdentity) : Bool :=
  content.identity = some found

def FileContentState.identityIsAmbiguousSince (content : FileContentState)
    (linkStart : Option FileIdentity) : Bool :=
  match content.identity, linkStart with
  | some identity, some linkStart => identity.mayHaveChangedSince linkStart
  | _, _ => false

def inputIdentityIsAnchoredBySnapshot (input : FileState) : Bool :=
  match input.snapshotIdentity, input.content.identity with
  | some snapshot, some content => snapshot = content
  | _, _ => false

def inputContentIsAnchoredBeforeLinkStart (input : FileState) (linkStart : Option FileIdentity) :
    Bool :=
  inputIdentityIsAnchoredBySnapshot input &&
    match input.content.identity, linkStart with
    | some identity, some linkStart => !identity.modifiedOnOrAfter linkStart
    | _, _ => false

/-- The input is taken for unchanged by its identity alone. -/
def acceptedByIdentity (linkStart : Option FileIdentity) (input : FileState)
    (found : FileIdentity) : Bool :=
  input.content.identityMatches found &&
    (inputContentIsAnchoredBeforeLinkStart input linkStart ||
      !input.content.identityIsAmbiguousSince linkStart)

/-- Seconds since the epoch, as the filesystem stores them. -/
def fileLabels : Labels (List UInt8) FileIdentity ℤ where
  modified i := i.modifiedSec.toInt
  written now bytes i :=
    i.len = UInt64.ofNat bytes.length ∧ i.modifiedSec.toInt = now ∧ i.changedSec.toInt = now
  -- a hard link to the file: only its `ctime` moves
  linked now i i' :=
    i' = { i with changedSec := i'.changedSec, changedNsec := i'.changedNsec } ∧
      i'.changedSec.toInt = now
  modified_of_written h := h.2.1
  modified_of_linked h := by rw [h.1]

/-- The contents and identities of all paths at all moments. -/
abbrev Files := FileHistory Text fileLabels

section

variable (hashBytes : List UInt8 → Text)

/-! ## The check before loading -/

/-- `input_content_matches_previous`, with the bytes read when the file is there. -/
def inputContentMatchesPrevious (input : FileState) (bytes : Option (List UInt8)) : Bool :=
  if input.content.hash = [] then false
  else match bytes with
    | none => false
    | some bytes =>
      input.content.len = UInt64.ofNat bytes.length && input.content.hash = hashBytes bytes

/-- What the check finds out about one input. -/
structure InputCheck where
  changed : Bool
  rewritten : Bool
  ambiguous : Bool

/-- What a link sees of one input before it loads anything: the identity and
the bytes the check meets, the identity of a new snapshot, and the identity
met when the record is refreshed.  The last fields are what a patch meets. -/
structure InputLook where
  found : FileIdentity
  bytes : Option (List UInt8)
  snapshot : Option FileIdentity
  refreshed : Option FileIdentity
  patchedBytes : List UInt8
  patchedIdentity : Option FileIdentity
  patch : FilePatchState

/-- One step of the loop over the inputs in `maybe_reuse_output_before_loading`. -/
def checkInput (linkStart : Option FileIdentity) (input : FileState) (look : InputLook) :
    InputCheck :=
  if input.content.identityMatches look.found then
    if inputContentIsAnchoredBeforeLinkStart input linkStart ||
        !input.content.identityIsAmbiguousSince linkStart then
      ⟨false, false, false⟩
    else if inputContentMatchesPrevious hashBytes input look.bytes then ⟨false, false, true⟩
    else ⟨true, false, true⟩
  else if inputContentMatchesPrevious hashBytes input look.bytes then ⟨false, true, false⟩
  else ⟨true, false, false⟩

/-- The checks of all inputs. -/
def inputChecks (previous : PersistedState) (looks : Nat → InputLook) : List InputCheck :=
  previous.inputFiles.mapIdx fun i input => checkInput hashBytes previous.linkStart input (looks i)

def refreshInputFileIdentity (input : FileState) (found : Option FileIdentity) : FileState :=
  match found with
  | none => input
  | some identity =>
    { input with
      content := { input.content with len := identity.len, identity := some identity } }

def refreshRewrittenInputIdentities (previous : PersistedState) (looks : Nat → InputLook) :
    List FileState :=
  previous.inputFiles.mapIdx fun i input =>
    if (checkInput hashBytes previous.linkStart input (looks i)).rewritten then
      refreshInputFileIdentity input (looks i).refreshed
    else input

inductive ReuseBeforeLoading where
  | changedInputs
  | unchanged
  /-- The output is kept and these metadata are written. -/
  | refreshed (metadata : PersistedState)

/-- `maybe_reuse_output_before_loading`, once options and output have been
found the same.  The identities are compared once more at the end, which can
only turn a reuse down. -/
def maybeReuseOutputBeforeLoading (previous : PersistedState) (looks : Nat → InputLook)
    (currentLinkStart : FileIdentity) : ReuseBeforeLoading :=
  let checks := inputChecks hashBytes previous looks
  if checks.any (·.changed) then .changedInputs
  else if checks.any (·.rewritten) || checks.any (·.ambiguous) then
    .refreshed { previous with
      linkStart := some currentLinkStart
      inputFiles := refreshRewrittenInputIdentities hashBytes previous looks }
  else .unchanged

/-! ## Patches -/

def FileContentState.fromBytes (bytes : List UInt8) : FileContentState where
  len := UInt64.ofNat bytes.length
  hash := hashBytes bytes
  identity := none

/-- What `patch_changed_inputs` records of a changed input. -/
def recordChangedInput (input : FileState) (look : InputLook) : FileState :=
  let content := { FileContentState.fromBytes hashBytes look.patchedBytes with
    identity := look.patchedIdentity }
  refreshInputFileIdentity
    { input with content, snapshotIdentity := look.snapshot, patch := some look.patch }
    look.refreshed

/-- A rewritten input gets a new snapshot and its new identity. -/
def recordRewrittenInput (input : FileState) (look : InputLook) : FileState :=
  { refreshInputFileIdentity input look.refreshed with snapshotIdentity := look.snapshot }

/-- The inputs whose check is such, each with what is recorded of it. -/
def recordedInputs (previous : PersistedState) (looks : Nat → InputLook)
    (such : InputCheck → Bool) (record : FileState → InputLook → FileState) :
    List (Nat × FileState) :=
  (previous.inputFiles.mapIdx fun i input =>
    if such (checkInput hashBytes previous.linkStart input (looks i)) then
      some (i, record input (looks i))
    else none).filterMap id

/-- What the patch does beside its inputs. -/
structure PatchRest where
  output : FileContentState
  buildIdHashes : Option BuildIdHashState
  records : CompactRecords
  clearSectionsFile : Bool

/-- A successful patch, by what it saw. -/
def changedInputPatch (previous : PersistedState) (looks : Nat → InputLook)
    (currentLinkStart : FileIdentity) (rest : PatchRest) : ChangedInputPatch where
  reading := .metadata
  changedInputs :=
    recordedInputs hashBytes previous looks (·.changed) (recordChangedInput hashBytes)
  rewrittenInputs := recordedInputs hashBytes previous looks (·.rewritten) recordRewrittenInput
  linkStart := some currentLinkStart
  output := rest.output
  buildIdHashes := rest.buildIdHashes
  records := rest.records
  clearSectionsFile := rest.clearSectionsFile

/-! ## Full links -/

/-- `FileContentState::from_input_file`: a recorded content is taken over
when the identity is still the same. -/
def FileContentState.fromInputFile (found : Option FileIdentity) (data : List UInt8)
    (previous : Option FileContentState) : FileContentState :=
  match found, previous with
  | some identity, some previous =>
    if previous.identity = some identity then { previous with identity := some identity }
    else if previous.hash = [] then ⟨identity.len, [], some identity⟩
    else { fromBytes hashBytes data with identity := some identity }
  | some identity, none => ⟨identity.len, [], some identity⟩
  | none, _ => fromBytes hashBytes data

/-- What a full link sees at each path: the identity when the state is
prepared, the loaded bytes, its snapshot and the identity at the end. -/
structure LoadedLooks where
  prepared : Text → Option FileIdentity
  data : Text → List UInt8
  snapshot : Text → Option FileIdentity
  finished : Text → Option FileIdentity

/-- The entry of a map by path that is collected from the inputs: the last wins. -/
def findByPath (inputFiles : List FileState) (path : Text) : Option FileState :=
  inputFiles.reverse.find? (·.path = path)

/-- One file of `fingerprint_loaded_files`. -/
def fingerprintLoadedFile (previous : Option PersistedState) (looks : LoadedLooks) (path : Text) :
    FileState :=
  let recorded := previous.bind fun previous => findByPath previous.inputFiles path
  let content := FileContentState.fromInputFile hashBytes (looks.prepared path) (looks.data path)
    (recorded.map (·.content))
  let kept := recorded.filter fun recorded => recorded.content.same content
  { path := path
    content := content
    snapshotIdentity := kept.bind (·.snapshotIdentity)
    patch := kept.bind (·.patch) }

def fingerprintLoadedFiles (previous : Option PersistedState) (looks : LoadedLooks)
    (paths : List Text) : List FileState :=
  (paths.map (fingerprintLoadedFile hashBytes previous looks)).mergeSort fun a b => a.path ≤ b.path

/-- A map from paths to indices leads to the last input of each path only. -/
def mapLastOfPath (f : FileState → FileState) : List FileState → List FileState
  | [] => []
  | input :: inputs =>
    (if inputs.any (·.path = input.path) then input else f input) :: mapLastOfPath f inputs

def FileState.withHash (input : FileState) (hash : Text) : FileState :=
  { input with content := { input.content with hash } }

def snapshotLoadedInputFiles (looks : LoadedLooks) (hashInputs : Bool)
    (inputFiles : List FileState) : List FileState :=
  mapLastOfPath (fun input =>
      let input := { input with snapshotIdentity := looks.snapshot input.path }
      if input.content.hash = [] ∧ hashInputs then
        input.withHash (hashBytes (looks.data input.path))
      else input)
    (inputFiles.map fun input => { input with patch := none })

def hashLoadedInputFiles (data : Text → List UInt8) (inputFiles : List FileState) :
    List FileState :=
  mapLastOfPath (fun input =>
      if input.content.hash = [] then input.withHash (hashBytes (data input.path)) else input)
    inputFiles

def hashPendingReuseInputFiles (data : Text → List UInt8) (linkStart : Option FileIdentity)
    (inputFiles : List FileState) : List FileState :=
  mapLastOfPath (fun input =>
      if input.content.hash = [] ∧ !inputContentIsAnchoredBeforeLinkStart input linkStart ∧
          input.content.identityIsAmbiguousSince linkStart then
        input.withHash (hashBytes (data input.path))
      else input)
    inputFiles

/-- A full link: the files it loads, what it sees of them, and the rest of its state. -/
structure FullLink where
  paths : List Text
  looks : LoadedLooks
  deferInputHashing : Bool
  rest : PersistedState

/-- `maybe_prepare` and `prepare_finish`, after the metadata that were read. -/
def FullLink.prepareFinish (link : FullLink) (currentLinkStart : FileIdentity)
    (previous : Option PersistedState) : PersistedState :=
  { link.rest with
    linkStart := some currentLinkStart
    inputFiles :=
      (snapshotLoadedInputFiles hashBytes link.looks (!link.deferInputHashing)
        (fingerprintLoadedFiles hashBytes previous link.looks link.paths)).map fun input =>
          refreshInputFileIdentity input (link.looks.finished input.path)
    sectionsFile := none }

/-! ## Links -/

/-- When a link starts, when it has seen what it sees, and the identity of its marker. -/
structure LinkTime where
  start : ℕ
  finish : ℕ
  marker : FileIdentity

/-- The state a link has prepared but not yet published, and its start. -/
structure PendingStateWrite where
  start : ℕ
  state : PersistedState
  deferredHashInputs : Bool

/-- `publish_reuse_metadata_in_background`, on the state. -/
def PendingStateWrite.publishing (hashBytes : List UInt8 → Text) (pending : PendingStateWrite)
    (data : Text → List UInt8) : PendingStateWrite :=
  if pending.deferredHashInputs then
    { pending with
      state.inputFiles :=
        hashPendingReuseInputFiles hashBytes data pending.state.linkStart
          pending.state.inputFiles }
  else pending

/-- `publish`, on the state. -/
def PendingStateWrite.published (hashBytes : List UInt8 → Text) (pending : PendingStateWrite)
    (data : Text → List UInt8) : PersistedState :=
  if pending.deferredHashInputs then
    { pending.state with
      inputFiles := hashLoadedInputFiles hashBytes data pending.state.inputFiles }
  else pending.state

structure World where
  moment : ℕ
  disk : Option (PersistedState × Option Update)
  pending : Option PendingStateWrite

/-- What is read of the state. -/
def World.metadata (w : World) : Option PersistedState :=
  w.disk.map fun disk => shown disk.1 disk.2

inductive LinkStep where
  /-- Time goes by; links may reuse the output as it is, or fail. -/
  | wait (finish : ℕ)
  /-- The index is removed before a new update. -/
  | removeIndex (finish : ℕ)
  /-- The publisher is killed. -/
  | abandon (finish : ℕ)
  | reuse (time : LinkTime) (looks : Nat → InputLook)
  | patch (time : LinkTime) (looks : Nat → InputLook) (rest : PatchRest)
  /-- The state of a full link is prepared, and perhaps a publishing index is written. -/
  | prepare (time : LinkTime) (link : FullLink) (publishing : Bool)
  | publish (finish : ℕ) (data : Text → List UInt8)

/-- What a step leaves; a step that needs the lock waits for the publisher. -/
def LinkStep.run (w : World) : LinkStep → Option World
  | .wait finish => some { w with moment := finish }
  | .abandon finish => some { w with moment := finish, pending := none }
  | .removeIndex finish =>
    if w.pending.isSome then none else some { w with moment := finish, disk := none }
  | .reuse time looks =>
    if w.pending.isSome then none
    else match w.disk with
      | none => none
      | some (base, update) =>
        match maybeReuseOutputBeforeLoading hashBytes (shown base update) looks time.marker with
        | .changedInputs => none
        | .unchanged => some { w with moment := time.finish }
        | .refreshed metadata =>
          some { w with moment := time.finish, disk := some (metadata, none) }
  | .patch time looks rest =>
    if w.pending.isSome then none
    else match w.disk with
      | none => none
      | some (base, update) =>
        let patch := changedInputPatch hashBytes (shown base update) looks time.marker rest
        let state := patch.record (shown base update)
        some { w with
          moment := time.finish
          disk := some (
            if rest.clearSectionsFile then (state, none)
            else (base, some (state, patch.inputIndices))) }
  | .prepare time link publishing =>
    if w.pending.isSome then none
    else
      let pending : PendingStateWrite := {
        start := time.start
        state := link.prepareFinish hashBytes time.marker w.metadata
        deferredHashInputs := link.deferInputHashing }
      some (
        if publishing then
          { moment := time.finish
            disk := some ((pending.publishing hashBytes link.looks.data).state, none)
            pending := some (pending.publishing hashBytes link.looks.data) }
        else { w with moment := time.finish, pending := some pending })
  | .publish finish data =>
    match w.pending with
    | none => none
    | some pending =>
      some {
        moment := finish
        disk := some (pending.published hashBytes data, none)
        pending := none }

end

end Sld.Incremental
