/-
# `Incremental.TimestampRuns` — an input that is not read again is the recorded one

The state names a link start.  `Confirmed` says of a recorded hash that
every file at its path which is older than the link start has it.  A link
confirms what it records as soon as it has seen such bytes at the path since
its own start, for a file that is older than that start has not been written
in between (`confirmed_of_sees`).

Two things break this: a full link that takes over a recorded content by its
identity alone, although the content may have changed since the link that
recorded it, and a metadata update that drops what the update before it had
recorded.  `LinkStep.Careful` rules them out.
-/
import Sld.Incremental.Timestamps

namespace Sld.Incremental

open Text
open LinkStep (patch prepare publish reuse run)
open ChangedInputPatch (mem_inputIndices record)
open FileContentState (fromInputFile)

/-! ## What a step may see -/

section

variable (h : Files) (hashBytes : List UInt8 → Text)

/-- The link starts after what came before, and its marker is written then. -/
structure LinkTime.Follows (time : LinkTime) (moment : ℕ) : Prop where
  start : moment ≤ time.start
  finish : time.start ≤ time.finish
  marker : time.marker.modifiedSec.toInt = h.clock time.start

/-- What is seen of an input is what was there at some moment of the link. -/
structure InputLook.Seen (look : InputLook) (time : LinkTime) (path : Text) : Prop where
  found : h.Sees time.start time.finish path fun _ i => i = look.found
  bytes : ∀ bytes, look.bytes = some bytes →
    h.Sees time.start time.finish path fun b _ => b = bytes
  patchedBytes : h.Sees time.start time.finish path fun b _ => b = look.patchedBytes
  patchedIdentity : ∀ identity, look.patchedIdentity = some identity →
    h.Sees time.start time.finish path fun _ i => i = identity
  refreshed : ∀ identity, look.refreshed = some identity →
    h.Sees time.start time.finish path fun _ i => i = identity

structure LoadedLooks.Seen (looks : LoadedLooks) (time : LinkTime) (path : Text) : Prop where
  prepared : ∀ identity, looks.prepared path = some identity →
    h.Sees time.start time.finish path fun _ i => i = identity
  data : h.Sees time.start time.finish path fun b _ => b = looks.data path
  finished : ∀ identity, looks.finished path = some identity →
    h.Sees time.start time.finish path fun _ i => i = identity

/-- The step takes place after what came before, and sees the files as they are. -/
def LinkStep.Seen (w : World) : LinkStep → Prop
  | .wait finish | .removeIndex finish | .abandon finish => w.moment ≤ finish
  | .reuse time looks | .patch time looks _ =>
    time.Follows h w.moment ∧ ∀ previous, w.metadata = some previous →
      ∀ i input, previous.inputFiles[i]? = some input → (looks i).Seen h time input.path
  | .prepare time link _ =>
    time.Follows h w.moment ∧ ∀ path ∈ link.paths, link.looks.Seen h time path
  | .publish finish data =>
    w.moment ≤ finish ∧ ∀ pending, w.pending = some pending →
      ∀ input ∈ pending.state.inputFiles,
        h.Sees pending.start finish input.path fun b _ => b = data input.path

/-- The recorded content that a full link takes over for a path is older
than the link that recorded it, or it is still the content of the file.  A
file that is not older than this link either is left out. -/
def TakenOverCarefully (previous : PersistedState) (time : LinkTime) (looks : LoadedLooks)
    (path : Text) : Prop :=
  ∀ recorded identity linkStart, findByPath previous.inputFiles path = some recorded →
    looks.prepared path = some identity → recorded.content.identity = some identity →
    previous.linkStart = some linkStart → identity.modifiedOnOrAfter linkStart →
    recorded.content.hash = [] ∨ identity.modifiedOnOrAfter time.marker ∨
      hashBytes (looks.data path) = recorded.content.hash

/-- No stale content is taken over, and no update drops an earlier one. -/
def LinkStep.Careful (w : World) : LinkStep → Prop
  | .prepare time link _ => ∀ previous, w.metadata = some previous →
      ∀ path ∈ link.paths, TakenOverCarefully hashBytes previous time link.looks path
  | .patch time looks rest => rest.clearSectionsFile ∨ ∀ base update, w.disk = some (base, update) →
      ∀ i, i ∉ (changedInputPatch hashBytes (shown base update) looks time.marker
          rest).inputIndices →
        (shown base update).inputFiles[i]? = base.inputFiles[i]?
  | _ => True

/-- The worlds that runs reach from one with no state, by steps that meet a condition. -/
inductive Reached (φ : World → LinkStep → Prop) : World → Prop
  | start (moment : ℕ) : Reached φ ⟨moment, none, none⟩
  | step {w w' : World} (step : LinkStep) (hw : Reached φ w) (hseen : step.Seen h w)
      (hφ : φ w step) (hrun : step.run hashBytes w = some w') : Reached φ w'

/-- An input that would be taken for unchanged by its identity alone, now or
at any later moment, has bytes of the recorded hash. -/
def NoStaleReuse (w : World) : Prop :=
  ∀ s, w.metadata = some s → ∀ input ∈ s.inputFiles, ∀ moment bytes found, w.moment ≤ moment →
    h.file input.path moment = some (bytes, found) →
    acceptedByIdentity s.linkStart input found → input.content.hash ≠ [] →
    hashBytes bytes = input.content.hash

/-! ## Confirmed hashes -/

/-- Every file at the path that is older than the bound has the hash. -/
def Confirmed (moment : ℕ) (bound : FileIdentity) (path hash : Text) : Prop :=
  hash ≠ [] → ∀ p bytes i, moment ≤ p → h.file path p = some (bytes, i) →
    i.modifiedOnOrAfter bound = false → hashBytes bytes = hash

/-- The state's hashes are confirmed for its link start. -/
def Sound (moment : ℕ) (s : PersistedState) : Prop :=
  ∃ bound, s.linkStart = some bound ∧
    ∀ input ∈ s.inputFiles, Confirmed h hashBytes moment bound input.path input.content.hash

/-- A prepared state names the start of its own link. -/
structure PendingStateWrite.Sound (moment : ℕ) (pending : PendingStateWrite) : Prop where
  state : Incremental.Sound h hashBytes moment pending.state
  marker : ∀ bound, pending.state.linkStart = some bound →
    bound.modifiedSec.toInt = h.clock pending.start

structure World.Sound (w : World) : Prop where
  disk : ∀ s, w.metadata = some s → Incremental.Sound h hashBytes w.moment s
  update : ∀ base u, w.disk = some (base, some u) → u.1.inputFiles.length = base.inputFiles.length
  pending : ∀ pending, w.pending = some pending → pending.Sound h hashBytes w.moment

end

section

variable {h : Files} {hashBytes : List UInt8 → Text}

theorem modifiedOnOrAfter_eq_false_iff {i bound : FileIdentity} :
    i.modifiedOnOrAfter bound = false ↔ i.modifiedSec.toInt < bound.modifiedSec.toInt := by
  rw [FileIdentity.modifiedOnOrAfter, timestampOnOrAfter, decide_eq_false_iff_not,
    Int64.le_iff_toInt_le, not_le]

variable {moment : ℕ} {path : Text}

theorem Confirmed.mono {moment' : ℕ} {bound : FileIdentity} {hash : Text}
    (hc : Confirmed h hashBytes moment bound path hash) (hle : moment ≤ moment') :
    Confirmed h hashBytes moment' bound path hash :=
  fun hne p bytes i hp => hc hne p bytes i (le_trans hle hp)

theorem Sound.mono {moment' : ℕ} {s : PersistedState} (hs : Sound h hashBytes moment s)
    (hle : moment ≤ moment') : Sound h hashBytes moment' s := by
  obtain ⟨bound, hbound, hinputs⟩ := hs
  exact ⟨bound, hbound, fun input hinput => (hinputs input hinput).mono hle⟩

variable {marker : FileIdentity}

/-- What was seen since a moment may be recorded under a marker of that moment. -/
theorem confirmed_of_sees {first last : ℕ}
    (hmarker : marker.modifiedSec.toInt = h.clock first) {hash : Text}
    (hs : h.Sees first last path fun b _ => hashBytes b = hash) :
    Confirmed h hashBytes last marker path hash := by
  intro _ p bytes i hp hfile hbefore
  have hlt : fileLabels.modified i < h.clock first := by
    rw [← hmarker]
    exact modifiedOnOrAfter_eq_false_iff.mp hbefore
  obtain ⟨_, _, _, _, hhash, _⟩ := hs.of_unwritten hp hfile hlt
  exact hhash

/-- A file that was not older than the marker since then never is. -/
theorem confirmed_of_modified {first last : ℕ}
    (hmarker : marker.modifiedSec.toInt = h.clock first) {identity : FileIdentity}
    (hs : h.Sees first last path fun _ i => i = identity)
    (hafter : identity.modifiedOnOrAfter marker = true) (hash : Text) :
    Confirmed h hashBytes last marker path hash := by
  intro _ p bytes i hp hfile hbefore
  have hlt := modifiedOnOrAfter_eq_false_iff.mp hbefore
  obtain ⟨_, i', _, _, rfl, hmodified⟩ := hs.of_unwritten hp hfile (hmarker ▸ hlt)
  have hsame : i'.modifiedSec.toInt = i.modifiedSec.toInt := hmodified
  have hbefore' : i'.modifiedOnOrAfter marker = false :=
    modifiedOnOrAfter_eq_false_iff.mpr (hsame ▸ hlt)
  exact absurd (hafter.symm.trans hbefore') Bool.noConfusion

variable {input : FileState}

theorem modified_before_of_accepted {linkStart found : FileIdentity}
    (h : acceptedByIdentity (some linkStart) input found = true) :
    input.content.identity = some found ∧ found.modifiedOnOrAfter linkStart = false := by
  rw [acceptedByIdentity, Bool.and_eq_true, FileContentState.identityMatches,
    decide_eq_true_eq] at h
  obtain ⟨hidentity, hacc⟩ := h
  refine ⟨hidentity, ?_⟩
  rcases Bool.or_eq_true_iff.mp hacc with hanchored | hambiguous
  · unfold inputContentIsAnchoredBeforeLinkStart at hanchored
    rw [hidentity, Bool.and_eq_true, Bool.not_eq_true'] at hanchored
    exact hanchored.2
  · unfold FileContentState.identityIsAmbiguousSince at hambiguous
    rw [hidentity, Bool.not_eq_true'] at hambiguous
    exact (Bool.or_eq_false_iff.mp hambiguous).1

variable {w : World}

theorem noStaleReuse_of_sound (hsound : ∀ s, w.metadata = some s → Sound h hashBytes w.moment s) :
    NoStaleReuse h hashBytes w := by
  intro s hs input hinput moment bytes found hmoment hfile hacc hhash
  obtain ⟨bound, hbound, hconfirmed⟩ := hsound s hs
  rw [hbound] at hacc
  exact hconfirmed input hinput hhash moment bytes found hmoment hfile
    (modified_before_of_accepted hacc).2

/-! ## What one link confirms -/

@[simp] theorem refreshInputFileIdentity_path (input : FileState) (found : Option FileIdentity) :
    (refreshInputFileIdentity input found).path = input.path := by
  cases found <;> rfl

@[simp] theorem refreshInputFileIdentity_hash (input : FileState) (found : Option FileIdentity) :
    (refreshInputFileIdentity input found).content.hash = input.content.hash := by
  cases found <;> rfl

theorem inputContentMatchesPrevious_hash {bytes : Option (List UInt8)}
    (hm : inputContentMatchesPrevious hashBytes input bytes = true) :
    ∃ b, bytes = some b ∧ hashBytes b = input.content.hash := by
  unfold inputContentMatchesPrevious at hm
  split at hm
  · cases hm
  · cases bytes with
    | none => cases hm
    | some b => exact ⟨b, rfl, (of_decide_eq_true (Bool.and_eq_true_iff.mp hm).2).symm⟩

section

variable {time : LinkTime} {moment : ℕ} (htime : time.Follows h moment)
  {previous : PersistedState} (hprev : Sound h hashBytes moment previous)

include htime hprev

variable {input : FileState}

theorem confirmed_of_identity (hinput : input ∈ previous.inputFiles) {identity : FileIdentity}
    (hs : h.Sees time.start time.finish input.path fun _ i => i = identity)
    (hbefore : ∀ linkStart, previous.linkStart = some linkStart →
      identity.modifiedOnOrAfter linkStart = false) :
    Confirmed h hashBytes time.finish time.marker input.path input.content.hash := by
  intro hne
  obtain ⟨bound, hbound, hconfirmed⟩ := hprev
  refine confirmed_of_sees htime.marker ?_ hne
  obtain ⟨p, hfirst, hlast, b, i, hfile, rfl⟩ := hs
  exact ⟨p, hfirst, hlast, b, i, hfile,
    hconfirmed input hinput hne p b i (le_trans htime.start hfirst) hfile (hbefore bound hbound)⟩

theorem confirmed_of_check (hinput : input ∈ previous.inputFiles)
    {look : InputLook} (hlook : look.Seen h time input.path)
    (hcheck : (checkInput hashBytes previous.linkStart input look).changed = false) :
    Confirmed h hashBytes time.finish time.marker input.path input.content.hash := by
  have hread : inputContentMatchesPrevious hashBytes input look.bytes = true →
      Confirmed h hashBytes time.finish time.marker input.path input.content.hash := by
    intro hm
    obtain ⟨b, hb, hhash⟩ := inputContentMatchesPrevious_hash hm
    obtain ⟨p, hfirst, hlast, b', i, hfile, rfl⟩ := hlook.bytes b hb
    exact confirmed_of_sees htime.marker ⟨p, hfirst, hlast, b', i, hfile, hhash⟩
  rw [checkInput] at hcheck
  split at hcheck
  · rename_i hmatch
    split at hcheck
    · rename_i hacc
      refine confirmed_of_identity htime hprev hinput hlook.found fun linkStart hstart => ?_
      have hold : acceptedByIdentity (some linkStart) input look.found = true := by
        rw [acceptedByIdentity, hmatch, ← hstart, hacc]
        rfl
      exact (modified_before_of_accepted hold).2
    · split at hcheck
      · rename_i hm
        exact hread hm
      · cases hcheck
  · split at hcheck
    · rename_i hm
      exact hread hm
    · cases hcheck

end

/-! ### Reuse -/

theorem reuse_sound {time : LinkTime} (htime : time.Follows h moment)
    {previous metadata : PersistedState} (hprev : Sound h hashBytes moment previous)
    {looks : Nat → InputLook}
    (hlooks : ∀ i input, previous.inputFiles[i]? = some input → (looks i).Seen h time input.path)
    (hreuse : maybeReuseOutputBeforeLoading hashBytes previous looks time.marker =
      .refreshed metadata) : Sound h hashBytes time.finish metadata := by
  rw [maybeReuseOutputBeforeLoading] at hreuse
  split at hreuse
  · cases hreuse
  · rename_i hunchanged
    split at hreuse
    · cases hreuse
      refine ⟨time.marker, rfl, fun input hinput => ?_⟩
      obtain ⟨i, hi, rfl⟩ := List.mem_mapIdx.mp hinput
      have hcheck : (checkInput hashBytes previous.linkStart previous.inputFiles[i]
          (looks i)).changed = false := by
        refine Bool.eq_false_iff.mpr fun hchanged => hunchanged (List.any_eq_true.mpr ?_)
        exact ⟨_, List.mem_mapIdx.mpr ⟨i, hi, rfl⟩, hchanged⟩
      have hconfirmed := confirmed_of_check htime hprev (List.getElem_mem hi)
        (hlooks i _ (List.getElem?_eq_getElem hi)) hcheck
      split
      · rw [refreshInputFileIdentity_path, refreshInputFileIdentity_hash]
        exact hconfirmed
      · exact hconfirmed
    · cases hreuse

/-! ### Full links -/

theorem mem_mapLastOfPath {f : FileState → FileState} {inputs : List FileState}
    (hinput : input ∈ mapLastOfPath f inputs) :
    input ∈ inputs ∨ ∃ input' ∈ inputs, input = f input' := by
  induction inputs with
  | nil => cases hinput
  | cons first inputs ih =>
    rw [mapLastOfPath, List.mem_cons] at hinput
    rcases hinput with rfl | hinput
    · split
      · exact .inl List.mem_cons_self
      · exact .inr ⟨first, List.mem_cons_self, rfl⟩
    · rcases ih hinput with hinput | ⟨input', hinput', rfl⟩
      · exact .inl (List.mem_cons_of_mem _ hinput)
      · exact .inr ⟨input', List.mem_cons_of_mem _ hinput', rfl⟩

theorem mem_of_findByPath {inputFiles : List FileState}
    (hfind : findByPath inputFiles path = some input) :
    input ∈ inputFiles ∧ input.path = path := by
  refine ⟨List.mem_reverse.mp (List.mem_of_find?_eq_some hfind), ?_⟩
  simpa using List.find?_some hfind

theorem fromInputFile_cases (found : Option FileIdentity) (data : List UInt8)
    (previous : Option FileContentState) :
    (∃ identity recorded, found = some identity ∧ previous = some recorded ∧
      recorded.identity = some identity ∧
      (fromInputFile hashBytes found data previous).hash = recorded.hash) ∨
    (fromInputFile hashBytes found data previous).hash = [] ∨
    (fromInputFile hashBytes found data previous).hash = hashBytes data := by
  cases found with
  | none => exact .inr (.inr rfl)
  | some identity =>
    cases previous with
    | none => exact .inr (.inl rfl)
    | some recorded =>
      rw [fromInputFile]
      by_cases hsame : recorded.identity = some identity
      · rw [if_pos hsame]
        exact .inl ⟨identity, recorded, rfl, rfl, hsame, rfl⟩
      · rw [if_neg hsame]
        split
        · exact .inr (.inl rfl)
        · exact .inr (.inr rfl)

theorem mem_prepareFinish {link : FullLink} {previous : Option PersistedState}
    (hinput : input ∈ (link.prepareFinish hashBytes marker previous).inputFiles) :
    input.path ∈ link.paths ∧ (input.content.hash =
          (fingerprintLoadedFile hashBytes previous link.looks input.path).content.hash ∨
        input.content.hash = hashBytes (link.looks.data input.path)) := by
  obtain ⟨snapshotted, hsnapshotted, rfl⟩ := List.mem_map.mp hinput
  rw [refreshInputFileIdentity_path, refreshInputFileIdentity_hash]
  have hloaded : ∀ input' ∈ (fingerprintLoadedFiles hashBytes previous link.looks link.paths).map
      (fun input => { input with patch := none }), input'.path ∈ link.paths ∧ input'.content.hash =
          (fingerprintLoadedFile hashBytes previous link.looks input'.path).content.hash := by
    intro input' hinput'
    obtain ⟨loaded, hmem, rfl⟩ := List.mem_map.mp hinput'
    obtain ⟨path, hpath, rfl⟩ := List.mem_map.mp (List.mem_mergeSort.mp hmem)
    exact ⟨hpath, rfl⟩
  rcases mem_mapLastOfPath hsnapshotted with hmem | ⟨loaded, hmem, rfl⟩
  · exact ⟨(hloaded snapshotted hmem).1, .inl (hloaded snapshotted hmem).2⟩
  · obtain ⟨hpath, hhash⟩ := hloaded loaded hmem
    dsimp only
    split
    · exact ⟨hpath, .inr rfl⟩
    · exact ⟨hpath, .inl hhash⟩

section

variable {time : LinkTime} {moment : ℕ} (htime : time.Follows h moment)
  {looks : LoadedLooks} {previous : Option PersistedState}
  (hprev : ∀ s, previous = some s → Sound h hashBytes moment s)

include htime hprev

theorem confirmed_of_fingerprint {path : Text} (hlooks : looks.Seen h time path)
    (hcareful : ∀ s, previous = some s → TakenOverCarefully hashBytes s time looks path) :
    Confirmed h hashBytes time.finish time.marker path
      (fingerprintLoadedFile hashBytes previous looks path).content.hash := by
  have hdata : h.Sees time.start time.finish path fun b _ =>
      hashBytes b = hashBytes (looks.data path) := by
    obtain ⟨p, hfirst, hlast, b, i, hfile, rfl⟩ := hlooks.data
    exact ⟨p, hfirst, hlast, _, i, hfile, rfl⟩
  rw [fingerprintLoadedFile]
  dsimp only
  rcases fromInputFile_cases (looks.prepared path) (looks.data path)
    ((previous.bind fun s => findByPath s.inputFiles path).map (·.content)) with
    ⟨identity, recorded, hfound, hrecorded, hidentity, hhash⟩ | hhash | hhash
  · -- the content is taken over
    rw [hhash]
    obtain ⟨input, hinput, rfl⟩ := Option.map_eq_some_iff.mp hrecorded
    obtain ⟨s, hs, hfind⟩ := Option.bind_eq_some_iff.mp hinput
    obtain ⟨hmem, rfl⟩ := mem_of_findByPath hfind
    obtain ⟨bound, hbound, _⟩ := hprev s hs
    have hseen := hlooks.prepared identity hfound
    cases hbefore : identity.modifiedOnOrAfter bound with
    | false =>
      refine confirmed_of_identity htime (hprev s hs) hmem hseen fun linkStart hstart => ?_
      cases hbound.symm.trans hstart
      exact hbefore
    | true =>
      rcases hcareful s hs input identity bound hfind hfound hidentity hbound hbefore with
        hempty | hafter | hsame
      · exact fun hne => absurd hempty hne
      · exact confirmed_of_modified htime.marker hseen hafter _
      · rw [← hsame]
        exact confirmed_of_sees htime.marker hdata
  · rw [hhash]
    exact fun hne => absurd rfl hne
  · rw [hhash]
    exact confirmed_of_sees htime.marker hdata

theorem confirmed_of_prepareFinish {link : FullLink} (hpaths : ∀ path ∈ link.paths,
      link.looks.Seen h time path ∧
      ∀ s, previous = some s → TakenOverCarefully hashBytes s time link.looks path)
    {input : FileState}
    (hinput : input ∈ (link.prepareFinish hashBytes time.marker previous).inputFiles) :
    Confirmed h hashBytes time.finish time.marker input.path input.content.hash := by
  obtain ⟨hpath, hhash | hhash⟩ := mem_prepareFinish hinput
  · rw [hhash]
    exact confirmed_of_fingerprint htime hprev (hpaths _ hpath).1 (hpaths _ hpath).2
  · rw [hhash]
    refine confirmed_of_sees htime.marker ?_
    obtain ⟨p, hfirst, hlast, b, i, hfile, rfl⟩ := (hpaths _ hpath).1.data
    exact ⟨p, hfirst, hlast, _, i, hfile, rfl⟩

end

variable {data : Text → List UInt8} {pending : PendingStateWrite}

theorem PendingStateWrite.Sound.hash {last : ℕ}
    (hpend : pending.Sound h hashBytes moment) (hle : moment ≤ last)
    (hdata : ∀ input ∈ pending.state.inputFiles,
      h.Sees pending.start last input.path fun b _ => b = data input.path)
    {hashed : FileState → FileState} (hhashed : ∀ input, hashed input = input ∨
      hashed input = input.withHash (hashBytes (data input.path))) :
    PendingStateWrite.Sound h hashBytes last { pending with
      state.inputFiles := mapLastOfPath hashed pending.state.inputFiles } := by
  obtain ⟨⟨bound, hbound, hinputs⟩, hmarker⟩ := hpend
  refine ⟨⟨bound, hbound, fun input hinput => ?_⟩, hmarker⟩
  rcases mem_mapLastOfPath hinput with hmem | ⟨old, hmem, rfl⟩
  · exact (hinputs input hmem).mono hle
  · rcases hhashed old with hkept | hnew
    · rw [hkept]
      exact (hinputs old hmem).mono hle
    · rw [hnew]
      refine confirmed_of_sees (hmarker bound hbound) ?_
      obtain ⟨p, hfirst, hlast, b, i, hfile, rfl⟩ := hdata old hmem
      exact ⟨p, hfirst, hlast, _, i, hfile, rfl⟩

theorem PendingStateWrite.Sound.publishing {pending : PendingStateWrite} {moment : ℕ}
    (hpend : pending.Sound h hashBytes moment) {data : Text → List UInt8}
    (hdata : ∀ input ∈ pending.state.inputFiles,
      h.Sees pending.start moment input.path fun b _ => b = data input.path) :
    (pending.publishing hashBytes data).Sound h hashBytes moment := by
  rw [PendingStateWrite.publishing]
  split
  · refine hpend.hash le_rfl hdata fun input => ?_
    split
    · exact .inr rfl
    · exact .inl rfl
  · exact hpend

theorem PendingStateWrite.Sound.published {last : ℕ}
    (hpend : pending.Sound h hashBytes moment) (hle : moment ≤ last)
    (hdata : ∀ input ∈ pending.state.inputFiles,
      h.Sees pending.start last input.path fun b _ => b = data input.path) :
    Incremental.Sound h hashBytes last (pending.published hashBytes data) := by
  rw [PendingStateWrite.published]
  split
  · refine (hpend.hash hle hdata fun input => ?_).state
    split
    · exact .inr rfl
    · exact .inl rfl
  · exact hpend.state.mono hle

/-! ### Patches -/

section

variable {time : LinkTime} {moment : ℕ} {previous : PersistedState} {looks : Nat → InputLook}
  {rest : PatchRest}

/-- What the patch leaves of an input. -/
def patchedInput (hashBytes : List UInt8 → Text) (previous : PersistedState)
    (looks : Nat → InputLook) (i : Nat) (input : FileState) : FileState :=
  let check := checkInput hashBytes previous.linkStart input (looks i)
  if check.changed then recordChangedInput hashBytes input (looks i)
  else if check.rewritten then recordRewrittenInput input (looks i)
  else input

theorem mem_recordedInputs {such : InputCheck → Bool} {record : FileState → InputLook → FileState}
    {edit : Nat × FileState} :
    edit ∈ recordedInputs hashBytes previous looks such record ↔
      ∃ input, previous.inputFiles[edit.1]? = some input ∧
        such (checkInput hashBytes previous.linkStart input (looks edit.1)) = true ∧
        edit.2 = record input (looks edit.1) := by
  simp only [recordedInputs, List.mem_filterMap, List.mem_mapIdx, id_eq]
  constructor
  · rintro ⟨_, ⟨i, hi, rfl⟩, hedit⟩
    split at hedit
    · rename_i hsuch
      cases hedit
      exact ⟨_, List.getElem?_eq_getElem hi, hsuch, rfl⟩
    · cases hedit
  · rintro ⟨input, hinput, hsuch, hrecord⟩
    obtain ⟨hi, rfl⟩ := List.getElem?_eq_some_iff.mp hinput
    refine ⟨_, ⟨edit.1, hi, rfl⟩, ?_⟩
    rw [if_pos hsuch, ← hrecord]

theorem not_changed_of_rewritten {linkStart : Option FileIdentity} {input : FileState}
    {look : InputLook} (hrewritten : (checkInput hashBytes linkStart input look).rewritten = true) :
    (checkInput hashBytes linkStart input look).changed = false := by
  rw [checkInput] at hrewritten ⊢
  split at hrewritten
  · split at hrewritten
    · cases hrewritten
    · split at hrewritten <;> cases hrewritten
  · split at hrewritten
    · rename_i hmatch hm
      rw [if_neg hmatch, if_pos hm]
    · cases hrewritten

theorem mem_patchedIndices {i : Nat} :
    i ∈ (changedInputPatch hashBytes previous looks time.marker rest).inputIndices ↔
      ∃ input, previous.inputFiles[i]? = some input ∧
        ((checkInput hashBytes previous.linkStart input (looks i)).changed = true ∨
          (checkInput hashBytes previous.linkStart input (looks i)).rewritten = true) := by
  rw [mem_inputIndices, List.mem_map]
  constructor
  · rintro ⟨edit, hedit, rfl⟩
    rcases List.mem_append.mp hedit with hedit | hedit
    · obtain ⟨input, hinput, hrewritten, _⟩ := mem_recordedInputs.mp hedit
      exact ⟨input, hinput, .inr hrewritten⟩
    · obtain ⟨input, hinput, hchanged, _⟩ := mem_recordedInputs.mp hedit
      exact ⟨input, hinput, .inl hchanged⟩
  · rintro ⟨input, hinput, hchanged | hrewritten⟩
    · exact ⟨(i, recordChangedInput hashBytes input (looks i)), List.mem_append_right _
        (mem_recordedInputs.mpr ⟨input, hinput, hchanged, rfl⟩), rfl⟩
    · exact ⟨(i, recordRewrittenInput input (looks i)), List.mem_append_left _
        (mem_recordedInputs.mpr ⟨input, hinput, hrewritten, rfl⟩), rfl⟩

theorem recordInputs_changedInputPatch :
    (changedInputPatch hashBytes previous looks time.marker rest).recordInputs
      previous.inputFiles = previous.inputFiles.mapIdx (patchedInput hashBytes previous looks) := by
  have hedits : ∀ edit ∈
      (changedInputPatch hashBytes previous looks time.marker rest).rewrittenInputs ++
        (changedInputPatch hashBytes previous looks time.marker rest).changedInputs,
      (previous.inputFiles.mapIdx (patchedInput hashBytes previous looks))[edit.1]? =
        some edit.2 := by
    intro edit hedit
    rw [List.getElem?_mapIdx]
    rcases List.mem_append.mp hedit with hedit | hedit
    · obtain ⟨input, hinput, hrewritten, hrecord⟩ := mem_recordedInputs.mp hedit
      rw [hinput, Option.map_some, patchedInput, hrecord,
        if_neg (Bool.eq_false_iff.mp (not_changed_of_rewritten hrewritten)), if_pos hrewritten]
    · obtain ⟨input, hinput, hchanged, hrecord⟩ := mem_recordedInputs.mp hedit
      rw [hinput, Option.map_some, patchedInput, hrecord, if_pos hchanged]
  refine List.ext_getElem? fun i => ?_
  rw [ChangedInputPatch.recordInputs_eq,
    getElem?_setInputs_of_values List.length_mapIdx.symm hedits]
  split
  · rfl
  · rename_i hi
    rw [← mem_inputIndices, mem_patchedIndices] at hi
    rw [List.getElem?_mapIdx]
    cases hinput : previous.inputFiles[i]? with
    | none => rfl
    | some input =>
      have hkept : ¬ ((checkInput hashBytes previous.linkStart input (looks i)).changed = true ∨
          (checkInput hashBytes previous.linkStart input (looks i)).rewritten = true) :=
        fun hor => hi ⟨input, hinput, hor⟩
      rw [not_or] at hkept
      rw [Option.map_some, patchedInput, if_neg hkept.1, if_neg hkept.2]

theorem patch_sound (htime : time.Follows h moment) (hprev : Sound h hashBytes moment previous)
    (hlooks : ∀ i input, previous.inputFiles[i]? = some input → (looks i).Seen h time input.path) :
    Sound h hashBytes time.finish
      ((changedInputPatch hashBytes previous looks time.marker rest).record previous) := by
  refine ⟨time.marker, rfl, fun input hinput => ?_⟩
  rw [record, recordInputs_changedInputPatch] at hinput
  obtain ⟨i, hi, rfl⟩ := List.mem_mapIdx.mp hinput
  have hlook := hlooks i _ (List.getElem?_eq_getElem hi)
  rw [patchedInput]
  split
  · rw [recordChangedInput, refreshInputFileIdentity_path, refreshInputFileIdentity_hash]
    refine confirmed_of_sees htime.marker ?_
    obtain ⟨p, hfirst, hlast, b, j, hfile, rfl⟩ := hlook.patchedBytes
    exact ⟨p, hfirst, hlast, _, j, hfile, rfl⟩
  · rename_i hchanged
    have hconfirmed := confirmed_of_check htime hprev (List.getElem_mem hi) hlook
      (Bool.eq_false_iff.mpr hchanged)
    split
    · show Confirmed h hashBytes time.finish time.marker
        (refreshInputFileIdentity _ _).path (refreshInputFileIdentity _ _).content.hash
      rw [refreshInputFileIdentity_path, refreshInputFileIdentity_hash]
      exact hconfirmed
    · exact hconfirmed

end

/-! ## Runs -/

theorem World.Sound.of_disk {disk : Option (PersistedState × Option Update)}
    {pending : Option PendingStateWrite} (hnone : ¬ pending.isSome = true)
    (hdisk : ∀ base update, disk = some (base, update) →
      Incremental.Sound h hashBytes moment (shown base update))
    (hupd : ∀ base u, disk = some (base, some u) → u.1.inputFiles.length = base.inputFiles.length) :
    World.Sound h hashBytes ⟨moment, disk, pending⟩ where
  disk s hs := by
    obtain ⟨⟨base, update⟩, hbase, rfl⟩ := Option.map_eq_some_iff.mp hs
    exact hdisk base update hbase
  update := hupd
  pending _ hpend := absurd (Option.isSome_of_eq_some hpend) hnone

theorem World.metadata_of_disk {base : PersistedState} {update : Option Update}
    (hdisk : w.disk = some (base, update)) : w.metadata = some (shown base update) := by
  rw [World.metadata, hdisk]
  rfl

section

variable {w w' : World} (hw : w.Sound h hashBytes)

include hw

theorem World.Sound.mono {moment : ℕ} (hle : w.moment ≤ moment) :
    World.Sound h hashBytes { w with moment } where
  disk s hs := (hw.disk s hs).mono hle
  update := hw.update
  pending pending hpend :=
    ⟨(hw.pending pending hpend).state.mono hle, (hw.pending pending hpend).marker⟩

variable {looks : Nat → InputLook} {time : LinkTime}

theorem World.Sound.reuse (hseen : (reuse time looks).Seen h w)
    (hrun : (reuse time looks).run hashBytes w = some w') : w'.Sound h hashBytes := by
  obtain ⟨htime, hlooks⟩ := hseen
  rw [run] at hrun
  split at hrun
  · cases hrun
  · rename_i hnone
    split at hrun
    · cases hrun
    · rename_i base update hdisk
      have hmetadata := World.metadata_of_disk hdisk
      split at hrun
      · cases hrun
      · cases hrun
        exact hw.mono (le_trans htime.start htime.finish)
      · rename_i metadata hreuse
        cases hrun
        refine .of_disk hnone ?_ (fun _ _ hsome => by cases hsome)
        rintro base' update' hsome
        cases hsome
        exact reuse_sound htime (hw.disk _ hmetadata) (hlooks _ hmetadata) hreuse

theorem World.Sound.patch {rest : PatchRest} (hseen : (patch time looks rest).Seen h w)
    (hcareful : (patch time looks rest).Careful hashBytes w)
    (hrun : (patch time looks rest).run hashBytes w = some w') :
    w'.Sound h hashBytes := by
  obtain ⟨htime, hlooks⟩ := hseen
  rw [run] at hrun
  split at hrun
  · cases hrun
  · rename_i hnone
    split at hrun
    · cases hrun
    · rename_i base update hdisk
      have hmetadata := World.metadata_of_disk hdisk
      have hpatch := @patch_sound _ _ _ _ _ _ rest htime (hw.disk _ hmetadata) (hlooks _ hmetadata)
      cases hrun
      by_cases hclear : rest.clearSectionsFile = true
      · rw [if_pos hclear]
        refine .of_disk hnone ?_ (fun _ _ hsome => by cases hsome)
        rintro base' update' hsome
        cases hsome
        exact hpatch
      · rw [if_neg hclear]
        have hlen : ((changedInputPatch hashBytes (shown base update) looks time.marker
            rest).record (shown base update)).inputFiles.length = base.inputFiles.length := by
          rw [record, ChangedInputPatch.length_recordInputs, length_shown]
        refine .of_disk hnone ?_ ?_
        · rintro base' update' hsome
          cases hsome
          obtain ⟨bound, hbound, hinputs⟩ := hpatch
          refine ⟨bound, hbound, ?_⟩
          rw [inputFiles_shown hlen]
          · exact hinputs
          · intro i hi
            rw [record, ChangedInputPatch.getElem?_recordInputs_of_notMem _ hi]
            exact (hcareful.resolve_left hclear) base update hdisk i hi
        · rintro base' u hsome
          cases hsome
          exact hlen

theorem World.Sound.prepare {link : FullLink} {publishing : Bool}
    (hseen : (prepare time link publishing).Seen h w)
    (hcareful : (prepare time link publishing).Careful hashBytes w)
    (hrun : (prepare time link publishing).run hashBytes w = some w') :
    w'.Sound h hashBytes := by
  obtain ⟨htime, hlooks⟩ := hseen
  have hprepared : ∀ input ∈ (link.prepareFinish hashBytes time.marker w.metadata).inputFiles,
      Confirmed h hashBytes time.finish time.marker input.path input.content.hash :=
    fun input hinput => confirmed_of_prepareFinish htime hw.disk
      (fun path hpath => ⟨hlooks path hpath, fun s hs => hcareful s hs path hpath⟩) hinput
  have hpend : PendingStateWrite.Sound h hashBytes time.finish ⟨time.start,
      link.prepareFinish hashBytes time.marker w.metadata, link.deferInputHashing⟩ := by
    refine ⟨⟨time.marker, rfl, hprepared⟩, ?_⟩
    intro bound hbound
    cases hbound
    exact htime.marker
  rw [run] at hrun
  split at hrun
  · cases hrun
  · cases hrun
    split
    · have hpublishing := @PendingStateWrite.Sound.publishing _ _ _ _ hpend link.looks.data
        fun input hinput => (hlooks _ (mem_prepareFinish hinput).1).data
      refine ⟨?_, ?_, ?_⟩
      · intro s hs
        cases hs
        exact hpublishing.state
      · intro base u hsome
        cases hsome
      · intro pending hsome
        cases hsome
        exact hpublishing
    · refine ⟨?_, hw.update, ?_⟩
      · intro s hs
        exact (hw.disk s hs).mono (le_trans htime.start htime.finish)
      · intro pending hsome
        cases hsome
        exact hpend

theorem World.Sound.publish {finish : ℕ} {data : Text → List UInt8}
    (hseen : (publish finish data).Seen h w)
    (hrun : (publish finish data).run hashBytes w = some w') : w'.Sound h hashBytes := by
  obtain ⟨hle, hdata⟩ := hseen
  rw [run] at hrun
  split at hrun
  · cases hrun
  · rename_i pending hpend
    cases hrun
    refine .of_disk (by simp) ?_ (fun _ _ hsome => by cases hsome)
    rintro base update hsome
    cases hsome
    exact (hw.pending pending hpend).published hle (hdata pending hpend)

theorem World.Sound.step {step : LinkStep} (hseen : step.Seen h w)
    (hcareful : step.Careful hashBytes w) (hrun : step.run hashBytes w = some w') :
    w'.Sound h hashBytes := by
  cases step with
  | wait finish =>
    cases hrun
    exact hw.mono hseen
  | abandon finish =>
    cases hrun
    exact ⟨fun s hs => (hw.disk s hs).mono hseen, hw.update, fun _ hsome => by cases hsome⟩
  | removeIndex finish =>
    rw [run] at hrun
    split at hrun
    · cases hrun
    · rename_i hnone
      cases hrun
      exact .of_disk hnone (fun _ _ hsome => by cases hsome) (fun _ _ hsome => by cases hsome)
  | reuse time looks => exact hw.reuse hseen hrun
  | patch time looks rest => exact hw.patch hseen hcareful hrun
  | prepare time link publishing => exact hw.prepare hseen hcareful hrun
  | publish finish data => exact hw.publish hseen hrun

end

/-- Along every run of careful steps, an input that is not read again has the
bytes whose hash the state recorded. -/
theorem noStaleReuse_of_careful (h : Files) (hashBytes : List UInt8 → Text) {w : World}
    (hw : Reached h hashBytes (LinkStep.Careful hashBytes) w) : NoStaleReuse h hashBytes w := by
  have hsound : w.Sound h hashBytes := by
    induction hw with
    | start moment => exact .of_disk (by simp) (fun _ _ h => by cases h) (fun _ _ h => by cases h)
    | step step _ hseen hcareful hrun ih => exact ih.step hseen hcareful hrun
  exact noStaleReuse_of_sound hsound.disk

end

/-! ### A second write in the second of the first link -/

/-- An identity of one byte and the second 10. -/
def identityAt10 : FileIdentity := ⟨1, 1, 7, 10, 0, 10, 0⟩

/-- Written twice in the second 10, at moments 0 and 1; then it is the second 12. -/
def rewrittenInSecond : Files where
  clock p := if p ≤ 1 then 10 else 12
  clock_mono p q hpq := by
    dsimp only
    split <;> split <;> omega
  file _ p := match p with
    | 0 => none
    | 1 => some ([1], identityAt10)
    | _ + 2 => some ([2], identityAt10)
  change _ p := match p with
    | 0 => .written _ ⟨by decide, by decide, by decide⟩
    | 1 => .written _ ⟨by decide, by decide, by decide⟩
    | _ + 2 => .kept _

/-- A hash that is printed without loss. -/
def printedBytes (bytes : List UInt8) : Text := bytes.map fun b => Char.ofNat b.toNat

def markerAt (sec : Int64) : FileIdentity := ⟨13, 1, 9, sec, 0, sec, 0⟩

/-- A full link of one object, which has these bytes. -/
def linkOf (bytes : List UInt8) : FullLink where
  paths := ["612e6f".toList]
  looks := ⟨fun _ => some identityAt10, fun _ => bytes, fun _ => none, fun _ => some identityAt10⟩
  deferInputHashing := false
  rest := oneObject

theorem linkOf_inputFiles (bytes : List UInt8) (sec : Int64) (previous : Option PersistedState) :
    ((linkOf bytes).prepareFinish printedBytes (markerAt sec) previous).inputFiles =
      [⟨"612e6f".toList, ⟨1, if (fingerprintLoadedFile printedBytes previous (linkOf bytes).looks
            "612e6f".toList).content.hash = [] then printedBytes bytes
        else (fingerprintLoadedFile printedBytes previous (linkOf bytes).looks
            "612e6f".toList).content.hash, some identityAt10⟩, none, none⟩] := by
  have hloaded : fingerprintLoadedFiles printedBytes previous (linkOf bytes).looks
      (linkOf bytes).paths = [fingerprintLoadedFile printedBytes previous (linkOf bytes).looks
        "612e6f".toList] := List.mergeSort_singleton _
  have hpath : (fingerprintLoadedFile printedBytes previous (linkOf bytes).looks
      "612e6f".toList).path = "612e6f".toList := rfl
  rw [FullLink.prepareFinish]
  dsimp only
  rw [hloaded]
  generalize fingerprintLoadedFile printedBytes previous (linkOf bytes).looks "612e6f".toList =
    loaded at hpath
  obtain ⟨path, ⟨len, hash, identity⟩, snapshotIdentity, patch⟩ := loaded
  obtain rfl := hpath
  by_cases hempty : hash = []
  · subst hempty
    rfl
  · rw [if_neg hempty]
    simp only [snapshotLoadedInputFiles, List.map_singleton, mapLastOfPath, List.any_nil,
      Bool.false_eq_true, if_false, hempty, false_and]
    rfl

theorem reached_linkOf {φ : World → LinkStep → Prop} {w : World}
    (hw : Reached rewrittenInSecond printedBytes φ w) (hnone : w.pending = none)
    {moment : ℕ} {sec : Int64} {bytes : List UInt8} (hle : w.moment ≤ moment)
    (hsec : sec.toInt = rewrittenInSecond.clock moment)
    (hfile : ∀ path, rewrittenInSecond.file path moment = some (bytes, identityAt10))
    (hprepare : φ w (.prepare ⟨moment, moment, markerAt sec⟩ (linkOf bytes) false))
    (hpublish : ∀ w', φ w' (.publish moment fun _ => bytes)) :
    Reached rewrittenInSecond printedBytes φ
      ⟨moment, some ((linkOf bytes).prepareFinish printedBytes (markerAt sec) w.metadata, none),
        none⟩ := by
  have hsees : ∀ path {φ : List UInt8 → FileIdentity → Prop}, φ bytes identityAt10 →
      rewrittenInSecond.Sees moment moment path φ :=
    fun path _ hφ => ⟨moment, le_rfl, le_rfl, bytes, _, hfile path, hφ⟩
  have hprepared : Reached rewrittenInSecond printedBytes φ ⟨moment, w.disk, some ⟨moment,
        (linkOf bytes).prepareFinish printedBytes (markerAt sec) w.metadata, false⟩⟩ := by
    refine hw.step (.prepare ⟨moment, moment, markerAt sec⟩ (linkOf bytes) false)
      ⟨⟨hle, le_rfl, hsec⟩, fun path _ => ⟨?_, hsees path rfl, ?_⟩⟩ hprepare ?_
    · exact fun i hi => hsees path (Option.some.inj hi)
    · exact fun i hi => hsees path (Option.some.inj hi)
    · rw [run, hnone]
      rfl
  refine hprepared.step (.publish moment fun _ => bytes) ⟨le_rfl, ?_⟩ (hpublish _) rfl
  intro pending hpend input _
  cases hpend
  exact hsees _ rfl

/-- A second link before the file is written again takes over what is still true. -/
theorem noStaleReuse_of_second_link : NoStaleReuse rewrittenInSecond printedBytes
    ⟨1, some ((linkOf [1]).prepareFinish printedBytes (markerAt 10)
      (some ((linkOf [1]).prepareFinish printedBytes (markerAt 10) none)), none), none⟩ := by
  refine noStaleReuse_of_careful rewrittenInSecond printedBytes ?_
  refine reached_linkOf (reached_linkOf (.start 1) rfl le_rfl rfl (fun _ => rfl) ?_
    fun _ => trivial) rfl le_rfl rfl (fun _ => rfl) ?_ fun _ => trivial
  · intro previous hprev
    cases hprev
  · intro previous hprev path hpath recorded identity linkStart hfound _ _ _ _
    cases hprev
    have hmem : recorded ∈ ((linkOf [1]).prepareFinish printedBytes (markerAt 10) none).inputFiles :=
      (mem_of_findByPath hfound).1
    rw [linkOf_inputFiles] at hmem
    rw [List.mem_singleton.mp hmem]
    exact .inr (.inr rfl)

/-- The second link takes over the hash of the first; its state is later than the file. -/
theorem stale_content_taken_over :
    ¬ ∀ w, Reached rewrittenInSecond printedBytes (fun _ _ => True) w →
      NoStaleReuse rewrittenInSecond printedBytes w := by
  intro hall
  have hfirst := @reached_linkOf (fun _ _ => True) _ (.start 1) rfl 1 10 [1] le_rfl rfl
    (fun _ => rfl) trivial fun _ => trivial
  have hsecond := @reached_linkOf _ _ hfirst rfl 2 12 [2] (by decide) rfl (fun _ => rfl)
    trivial fun _ => trivial
  have hinputs : ((linkOf [2]).prepareFinish printedBytes (markerAt 12) (some
      ((linkOf [1]).prepareFinish printedBytes (markerAt 10) none))).inputFiles =
      [⟨"612e6f".toList, ⟨1, printedBytes [1], some identityAt10⟩, none, none⟩] := by
    rw [linkOf_inputFiles, fingerprintLoadedFile]
    dsimp only
    rw [Option.bind_some, linkOf_inputFiles]
    rfl
  have hmem := List.mem_singleton_self
    (FileState.mk "612e6f".toList ⟨1, printedBytes [1], some identityAt10⟩ none none)
  rw [← hinputs] at hmem
  have hstale := hall _ hsecond _ rfl _ hmem 2 [2] identityAt10 le_rfl rfl (by decide) (by decide)
  exact absurd hstale (by decide)

end Sld.Incremental
