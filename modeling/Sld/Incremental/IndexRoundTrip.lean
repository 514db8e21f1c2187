/-
# `Incremental.IndexRoundTrip` — the index is read back as it was written

Two reads are followed through the same text.  The full read parses the
patch sections and the table of locations; the metadata read keeps both as
raw text.  `FileState.read` says what each of them returns for an input,
and `parseIndex_renderIndex` is the round trip of the whole index in
either mode.

A state that was itself read as metadata holds raw text in place of parsed
sections, and may be written again, with some inputs replaced by freshly
parsed ones.  `Writable` covers such mixed states; what raw text stands
for is what the parser makes of it.
-/
import Sld.Incremental.BlockRoundTrip
import Sld.Incremental.Index

namespace Sld.Incremental

open Text
open Text.Reader (Reads expect next finish times readAll readAll_split_join ok_bind)
open List (append_nil map_cons mem_append mem_cons mem_cons_self mem_map mem_singleton)
open FilePatchState (fingerprint)
open Reader (bind_apply bind_of_ok expect_cons ok_map peek)

/-! ## What the writer can produce -/

/-- A text that is not taken for an absent value. -/
def IsPresent (t : Text) : Prop := IsPlain t ∧ t ≠ absentField

/-- A text inside a patch section. -/
def IsPart (t : Text) : Prop := IsPlain t ∧ ':' ∉ t ∧ ',' ∉ t

instance (t : Text) : Decidable (IsPresent t) := inferInstanceAs (Decidable (_ ∧ _))
instance (t : Text) : Decidable (IsPart t) := inferInstanceAs (Decidable (_ ∧ _ ∧ _))

structure FilePatchSectionState.Writable (s : FilePatchSectionState) : Prop where
  input : IsPart s.input
  dataHash : ∀ h, s.dataHash = some h → IsPart h ∧ h ≠ absentField

/-- Parsed sections, or raw text that the parser accepts. -/
structure FilePatchState.Writable (path : Text) (p : FilePatchState) : Prop where
  fingerprint : IsPresent p.fingerprint
  parsed : p.rawSections = none → ∀ s ∈ p.sections, s.Writable
  raw : ∀ raw, p.rawSections = some raw → p.sections = [] ∧ IsPresent raw ∧
    ∃ sections, parsePatchSections path raw = .ok sections

structure FileState.Writable (f : FileState) : Prop where
  path : IsPlain f.path
  hash : IsPlain f.content.hash
  patch : ∀ p, f.patch = some p → p.Writable f.path

structure BuildIdHashState.Writable (b : BuildIdHashState) : Prop where
  nodes : b.nodes ≠ 0
  treeHash : ∀ h, b.treeHash = some h → IsPresent h

structure PersistedState.Writable (s : PersistedState) : Prop where
  argsHash : IsPlain s.argsHash
  linkOptionsHash : ∃ h, s.linkOptionsHash = some h ∧ IsPlain h
  inputOrderHash : ∃ h, s.inputOrderHash = some h ∧ IsPlain h
  sldVersion : ∃ v, s.sldVersion = some v ∧ IsPlain v
  outputHash : IsPlain s.output.hash
  buildIdHashes : ∀ b, s.buildIdHashes = some b → b.Writable
  inputFiles : ∀ f ∈ s.inputFiles, f.Writable

/-- Lines that hold a table of locations. -/
structure IsLocationTable (lines : List Text) (locations : List PatchRecordLocation) : Prop where
  isLine : ∀ l ∈ lines, IsLine l
  reads : ∃ countLine rows, lines = countLine :: rows ∧
    parseCount "patch-records" "Invalid incremental patch record location count"
      (some countLine) = .ok rows.length ∧
    List.Forall₂ (fun l loc => parsePatchRecordLocationLine (some l) = .ok loc) rows locations

/-- The locations the places stand for, parsed or raw. -/
structure RecordPlaces.Writable (p : RecordPlaces) (locations : List PatchRecordLocation) :
    Prop where
  sectionsFile : IsPlain p.sectionsFile ∧ validateSectionsFileName p.sectionsFile = .ok ()
  patchRecordsFile : ∀ f, p.patchRecordsFile = some f →
    IsPlain f ∧ validateSectionsFileName f = .ok ()
  absent : p.patchRecordsFile = none → locations = []
  parsed : p.rawLocations = none →
    p.locations = locations ∧ ∀ l ∈ locations, IsPlain l.inputFile ∧ IsPlain l.hash
  raw : ∀ raw, p.rawLocations = some raw →
    ∃ table, raw = unlines table ∧ IsLocationTable table locations

/-! ## What a reader returns -/

/-- The sections a patch state stands for. -/
def FilePatchState.meaning (path : Text) (p : FilePatchState) : List FilePatchSectionState :=
  match p.rawSections with
  | none => p.sections
  | some raw => (parsePatchSections path raw).toOption.getD []

/-- A patch state as a reader in the given mode returns it. -/
def FilePatchState.read (mode : PatchSectionReadMode) (path : Text) (p : FilePatchState) :
    FilePatchState :=
  match mode with
  | .parse => { p with sections := p.meaning path, rawSections := none }
  | .preserveRaw => { p with sections := [], rawSections := some (renderPatchSections p) }

def FileState.read (mode : PatchSectionReadMode) (f : FileState) : FileState :=
  { f with patch := f.patch.map (FilePatchState.read mode f.path) }

theorem FileState.read_parse {f : FileState}
    (h : ∀ p, f.patch = some p → p.rawSections = none) : f.read .parse = f := by
  obtain ⟨path, content, snapshotIdentity, patch⟩ := f
  cases patch with
  | none => rfl
  | some p =>
    have hraw : p.rawSections = none := h p rfl
    simp [FileState.read, FilePatchState.read, FilePatchState.meaning, hraw]
    exact congrArg (fun r => { p with rawSections := r }) hraw.symm

/-! ## Single fields -/

variable {α : Type} {o : Option α} {render : α → Text}

theorem isPlain_renderPresent
    (h : ∀ a, o = some a → IsPlain (render a)) : IsPlain (renderPresent render o) := by
  cases o with
  | none => exact show IsPlain absentField by decide
  | some a => exact h a rfl

theorem not_mem_identity {i : FileIdentity} {c : Char} (hc : ¬ IsNumeric c) (hcolon : c ≠ ':') :
    c ∉ i.render := by
  intro h
  obtain ⟨t, ht, hct⟩ := mem_join hcolon h
  simp only [mem_cons, List.not_mem_nil, or_false] at ht
  rcases ht with rfl | rfl | rfl | rfl | rfl | rfl | rfl <;> exact not_mem_render hc hct

theorem isPlain_identity (i : FileIdentity) : IsPlain i.render :=
  ⟨not_mem_identity (by decide) (by decide), not_mem_identity (by decide) (by decide),
    not_mem_identity (by decide) (by decide)⟩

theorem identity_ne_absent (i : FileIdentity) : i.render ≠ absentField := by
  intro h
  have hcolon : ':' ∈ i.render := by
    exact List.mem_append_right _ mem_cons_self
  rw [h] at hcolon
  exact absurd hcolon (by decide)

theorem FileIdentity.parse_render (i : FileIdentity) : FileIdentity.parse i.render = .ok (some i) := by
  rw [FileIdentity.parse, if_neg (identity_ne_absent i), FileIdentity.render,
    readAll_split_join (by simp [not_mem_render, IsNumeric]) (by simp)]
  simp [readAll]

theorem FileIdentity.parse_renderPresent (o : Option FileIdentity) :
    FileIdentity.parse (renderPresent FileIdentity.render o) = .ok o := by
  cases o with
  | none => rfl
  | some i => exact FileIdentity.parse_render i

theorem isPlain_renderIdentity (o : Option FileIdentity) :
    IsPlain (renderPresent FileIdentity.render o) :=
  isPlain_renderPresent fun i _ => isPlain_identity i

theorem identityField_cons (o : Option FileIdentity) (ts : List Text) :
    identityField (renderPresent FileIdentity.render o :: ts) = .ok (o, ts) := by
  simp [identityField, FileIdentity.parse_renderPresent]

theorem presentText_renderPresent (h : ∀ a, o = some a → render a ≠ absentField) :
    presentText (renderPresent render o) = o.map render := by
  cases o with
  | none => rfl
  | some a => exact if_pos (h a rfl)

variable {label : String}

theorem parseContentLine_render (hlabel : '\t' ∉ label.toList)
    {c : FileContentState} (h : IsPlain c.hash) :
    parseContentLine (some (labelled label [Numeral.render c.len, c.hash,
      renderPresent FileIdentity.render c.identity])) label = .ok c := by
  rw [parseContentLine, parsePrefixedLine_labelled hlabel (by simp), ok_bind,
    readAll_split_join (by simp [not_mem_render, IsNumeric, h.1, (isPlain_renderIdentity _).1])
      (by simp)]
  simp [readAll, identityField_cons]

theorem parseLinkStartLine_render (o : Option FileIdentity) :
    parseLinkStartLine (some (labelled "link-start" [renderPresent FileIdentity.render o])) =
      .ok o := by
  rw [parseLinkStartLine, parsePrefixedLine_single (by decide), ok_bind]
  exact FileIdentity.parse_renderPresent o

/-- The fields of a build-id line. -/
def buildIdFields (b : BuildIdHashState) : List Text :=
  [Numeral.render b.outputLen, Numeral.render b.nodes, b.treeHash.getD absentField]

theorem BuildIdHashState.Writable.isPlain {b : BuildIdHashState} (h : b.Writable) :
    ∀ f ∈ buildIdFields b, IsPlain f := by
  have htree : IsPlain (b.treeHash.getD absentField) := by
    cases ht : b.treeHash with
    | none => exact show IsPlain absentField by decide
    | some t => exact (h.treeHash t ht).1
  simp [buildIdFields, isPlain_render, htree]

theorem parseBuildIdHashLine_render {o : Option BuildIdHashState}
    (h : ∀ b, o = some b → b.Writable) :
    parseBuildIdHashLine
      (some (labelled "build-id-hash" [renderPresent renderBuildIdHashState o])) = .ok o := by
  rw [parseBuildIdHashLine, parsePrefixedLine_single (by decide), ok_bind]
  cases o with
  | none => rfl
  | some b =>
    have hb := h b rfl
    have htree : presentText (b.treeHash.getD absentField) = b.treeHash :=
      presentText_getD fun t ht => (hb.treeHash t ht).2
    have hrender : renderPresent renderBuildIdHashState (some b) = join '\t' (buildIdFields b) :=
      rfl
    have hne : join '\t' (buildIdFields b) ≠ absentField := by
      intro he
      have htab : '\t' ∈ join '\t' (buildIdFields b) := by
        exact List.mem_append_right _ mem_cons_self
      rw [he] at htab
      exact absurd htab (by decide)
    rw [hrender, if_neg hne, readAll_split_join (fun f hf => (hb.isPlain f hf).1)
      (by simp [buildIdFields])]
    simp [readAll, buildIdFields, hb.nodes, htree]

/-! ## Patch sections -/

section

variable {s : FilePatchSectionState} (h : s.Writable)

include h

theorem isPart_fields : ∀ f ∈ [s.input, Numeral.render s.sectionIndex,
    Numeral.render s.inputSize, Numeral.render s.outputOffset, Numeral.render s.outputSize,
    renderPresent (fun name => hexEncode (utf8 name)) s.sectionName,
    s.dataHash.getD absentField], IsPart f := by
  have hnumeral : ∀ {α : Type} [Numeral α] (a : α), IsPart (Numeral.render a) := fun a =>
    ⟨isPlain_render a, not_mem_render (by decide), not_mem_render (by decide)⟩
  have hname : IsPart (renderPresent (fun name => hexEncode (utf8 name)) s.sectionName) := by
    cases s.sectionName with
    | none => exact show IsPart absentField by decide
    | some name =>
      exact ⟨isPlain_hexEncode _, not_mem_hexEncode (by decide), not_mem_hexEncode (by decide)⟩
  have hhash : IsPart (s.dataHash.getD absentField) := by
    cases hd : s.dataHash with
    | none => exact show IsPart absentField by decide
    | some d => exact (h.dataHash d hd).1
  simp [h.input, hnumeral, hname, hhash]

theorem not_mem_renderPatchSection {c : Char} (hcolon : c ≠ ':')
    (hpart : ∀ f, IsPart f → c ∉ f) : c ∉ renderPatchSection s := by
  intro hc
  obtain ⟨f, hf, hcf⟩ := mem_join hcolon hc
  exact hpart f (isPart_fields h f hf) hcf

theorem parsePatchSectionParts_render (defaultInput : Text) :
    parsePatchSectionParts defaultInput (split ':' (renderPatchSection s)) = .ok (some s) := by
  have hsplit : split ':' (renderPatchSection s) = _ :=
    split_join (fun f hf => (isPart_fields h f hf).2.1) (by simp)
  have hname : parseSectionName
      (renderPresent (fun name => hexEncode (utf8 name)) s.sectionName) = .ok s.sectionName := by
    cases s.sectionName with
    | none => rfl
    | some name =>
      have hne : hexEncode (utf8 name) ≠ absentField := hexEncode_ne_absent _
      simp [parseSectionName, renderPresent, hne, hexDecode_hexEncode, fromUtf8_utf8]
  have hhash : presentText (s.dataHash.getD absentField) = s.dataHash :=
    presentText_getD fun d hd => (h.dataHash d hd).2
  rw [hsplit]
  simp [parsePatchSectionParts, parsePatchSection, hname, hhash]

end

variable {defaultInput : Text} {sections : List FilePatchSectionState}

theorem parsePatchSectionList_render (h : ∀ s ∈ sections, s.Writable) : ∀ parsed,
      parsePatchSectionList defaultInput parsed (sections.map renderPatchSection) =
        .ok (parsed ++ sections) := by
  induction sections with
  | nil => intro parsed; rw [append_nil]; rfl
  | cons s sections ih =>
    intro parsed
    rw [map_cons, parsePatchSectionList, parsePatchSectionParts_render (h s mem_cons_self), ok_bind]
    have := ih (fun t ht => h t (List.mem_cons_of_mem _ ht)) (parsed ++ [s])
    rwa [List.append_assoc] at this

theorem colon_mem_renderPatchSection (s : FilePatchSectionState) : ':' ∈ renderPatchSection s := by
  exact List.mem_append_right _ mem_cons_self

theorem colon_mem_renderedSections : ∀ {sections : List FilePatchSectionState}, sections ≠ [] →
      ':' ∈ join ',' (sections.map renderPatchSection)
  | [], h => absurd rfl h
  | [s], _ => by simpa using colon_mem_renderPatchSection s
  | s :: t :: sections, _ => by
    rw [map_cons, join_cons (by simp)]
    exact List.mem_append_left _ (colon_mem_renderPatchSection s)

theorem parsePatchSections_render (h : ∀ s ∈ sections, s.Writable) :
    parsePatchSections defaultInput (join ',' (sections.map renderPatchSection)) =
      .ok sections := by
  cases sections with
  | nil => rfl
  | cons s sections =>
    have hsplit : split ',' (join ',' ((s :: sections).map renderPatchSection)) =
        (s :: sections).map renderPatchSection := by
      refine split_join ?_ (by simp)
      intro t ht
      obtain ⟨r, hr, rfl⟩ := mem_map.mp ht
      exact not_mem_renderPatchSection (h r hr) (by decide) fun f hf => hf.2.2
    have hne : join ',' ((s :: sections).map renderPatchSection) ≠ [] := by
      intro he
      have hcolon := colon_mem_renderedSections (List.cons_ne_nil s sections)
      rw [he] at hcolon
      cases hcolon
    rw [parsePatchSections, if_neg hne, hsplit, parsePatchSectionList_render h]
    rfl

theorem FilePatchState.Writable.sectionsField {path : Text} {p : FilePatchState}
    (h : p.Writable path) : IsPresent (renderPatchSections p) ∧
      parsePatchSections path (renderPatchSections p) = .ok (p.meaning path) := by
  obtain ⟨fingerprint, sections, rawSections⟩ := p
  cases rawSections with
  | none =>
    have hs : ∀ s ∈ sections, s.Writable := h.parsed rfl
    have hrender : renderPatchSections { fingerprint, sections, rawSections := none } =
        join ',' (sections.map renderPatchSection) := by
      cases sections <;> rfl
    rw [hrender, FilePatchState.meaning]
    refine ⟨⟨?_, ?_⟩, parsePatchSections_render hs⟩
    · have hfree : ∀ c, c ≠ ':' → c ≠ ',' → (∀ f, IsPart f → c ∉ f) →
          c ∉ join ',' (sections.map renderPatchSection) := by
        intro c hcolon hcomma hpart hc
        obtain ⟨t, ht, hct⟩ := mem_join hcomma hc
        obtain ⟨s, hsm, rfl⟩ := mem_map.mp ht
        exact not_mem_renderPatchSection (hs s hsm) hcolon hpart hct
      exact ⟨hfree _ (by decide) (by decide) fun f hf => hf.1.1,
        hfree _ (by decide) (by decide) fun f hf => hf.1.2.1,
        hfree _ (by decide) (by decide) fun f hf => hf.1.2.2⟩
    · intro he
      cases sections with
      | nil => exact absurd he (by decide)
      | cons s sections =>
        have hcolon := colon_mem_renderedSections (List.cons_ne_nil s sections)
        rw [he] at hcolon
        exact absurd hcolon (by decide)
  | some raw =>
    obtain ⟨rfl, hpresent, parsed, hparse⟩ := h.raw raw rfl
    exact ⟨hpresent, by simp [renderPatchSections, FilePatchState.meaning, hparse, Except.toOption]⟩

/-! ## Input lines -/

section

variable {f : FileState} (h : f.Writable)

include h

theorem isPlain_inputLineFields : ∀ t ∈ inputLineFields f, IsPlain t := by
  have hfingerprint : IsPlain (renderPresent fingerprint f.patch) :=
    isPlain_renderPresent fun p hp => (h.patch p hp).fingerprint.1
  have hsecs : IsPlain (renderPresent renderPatchSections f.patch) :=
    isPlain_renderPresent fun p hp => (h.patch p hp).sectionsField.1.1
  simp [inputLineFields, h.path, h.hash, isPlain_render, isPlain_renderIdentity, hfingerprint,
    hsecs]

theorem parseInputLine_render (mode : PatchSectionReadMode) :
    parseInputLine mode (labelled "input" (inputLineFields f)) = .ok (f.read mode) := by
  have hfingerprint : presentText (renderPresent fingerprint f.patch) =
      f.patch.map fingerprint :=
    presentText_renderPresent fun p hp => (h.patch p hp).fingerprint.2
  have hsecs : presentText (renderPresent renderPatchSections f.patch) =
      f.patch.map renderPatchSections :=
    presentText_renderPresent fun p hp => (h.patch p hp).sectionsField.1.2
  have hpatch : parsePatchState mode f.path (f.patch.map fingerprint)
      (f.patch.map renderPatchSections) = .ok (f.patch.map (FilePatchState.read mode f.path)) := by
    cases hp : f.patch with
    | none => rfl
    | some p =>
      cases mode with
      | preserveRaw => rfl
      | parse =>
        simp [parsePatchState, (h.patch p hp).sectionsField.2, FilePatchState.read]
  rw [parseInputLine, parsePrefixedLine_labelled (by decide) (by simp [inputLineFields]), ok_bind,
    readAll_split_join (fun t ht => (isPlain_inputLineFields h t ht).1) (by simp [inputLineFields])]
  simp [readAll, inputLineFields, identityField_cons, hfingerprint, hsecs, hpatch, FileState.read]

end

/-! ## The table of locations -/

theorem parsePatchRecordLocationLine_render {l : PatchRecordLocation}
    (hfile : IsPlain l.inputFile) (hhash : IsPlain l.hash) :
    parsePatchRecordLocationLine (some (renderPatchRecordLocation l)) = .ok l := by
  rw [parsePatchRecordLocationLine, renderPatchRecordLocation,
    parsePrefixedLine_labelled (by decide) (by simp), ok_bind,
    readAll_split_join (by simp [not_mem_render, IsNumeric, hfile.1, hhash.1]) (by simp)]
  simp [readAll]

variable {locations : List PatchRecordLocation}

theorem isLocationTable_rendered (h : ∀ l ∈ locations, IsPlain l.inputFile ∧ IsPlain l.hash) :
    IsLocationTable (renderCount "patch-records" locations.length ::
      locations.map renderPatchRecordLocation) locations where
  isLine t ht := by
    rcases mem_cons.mp ht with rfl | ht
    · exact isLine_renderCount (by decide) _
    · obtain ⟨l, hl, rfl⟩ := mem_map.mp ht
      refine isLine_labelled_of_plain (by decide) ?_ (by simp)
      simp [isPlain_render, h l hl]
  reads := by
    refine ⟨_, _, rfl, ?_, ?_⟩
    · rw [List.length_map]
      exact parseCount_renderCount (by decide) _ _
    · rw [List.forall₂_map_left_iff, List.forall₂_same]
      exact fun l hl => parsePatchRecordLocationLine_render (h l hl).1 (h l hl).2

variable {p : RecordPlaces}

theorem RecordPlaces.Writable.table (h : p.Writable locations) : ∃ table,
      renderPatchRecordLocationTable p.locations p.rawLocations = unlines table ∧
        IsLocationTable table locations := by
  cases hraw : p.rawLocations with
  | none =>
    obtain ⟨rfl, hplain⟩ := h.parsed hraw
    exact ⟨_, rfl, isLocationTable_rendered hplain⟩
  | some raw => exact h.raw raw hraw

section

variable {table : List Text} {locations : List PatchRecordLocation}
  (h : IsLocationTable table locations)

include h

theorem reads_table_parsed :
    Reads (parsePatchRecordLocationTable true) table (locations, none) := by
  obtain ⟨countLine, rows, rfl, hcount, hrows⟩ := h.reads
  have htimes : Reads (times (do let line ← next; parsePatchRecordLocationLine line) rows.length)
      rows locations :=
    Reads.times_forall₂ (hrows.imp fun line l hl =>
      Reads.cons (Reads.next line) (Reads.lift hl))
  intro rest
  simp [parsePatchRecordLocationTable, hcount, htimes rest]

theorem reads_table_raw :
    Reads (parsePatchRecordLocationTable false) table ([], some (unlines table)) := by
  obtain ⟨countLine, rows, rfl, hcount, _⟩ := h.reads
  have htimes : Reads (times (expect "Missing incremental patch record location") rows.length)
      rows rows := by
    have : Reads (times (expect "Missing incremental patch record location") rows.length)
        (rows.map id) rows := Reads.times_map fun line _ => Reads.expect _ line
    rwa [List.map_id] at this
  intro rest
  simp [parsePatchRecordLocationTable, hcount, htimes rest]

end

/-- The location columns of a read. -/
def readLocations (parseLocations : Bool) (table : List Text)
    (locations : List PatchRecordLocation) : List PatchRecordLocation × Option Text :=
  if parseLocations then (locations, none) else ([], some (unlines table))

variable {table : List Text}

theorem reads_table (h : IsLocationTable table locations) (parseLocations : Bool) :
    Reads (parsePatchRecordLocationTable parseLocations) table
      (readLocations parseLocations table locations) := by
  cases parseLocations with
  | false => exact reads_table_raw h
  | true => exact reads_table_parsed h

/-! ## Header and tail -/

variable {fs : List Text}

theorem startsWith_labelled (h : fs ≠ []) :
    startsWith (labelled label fs) (label.toList ++ ['\t']) = true := by
  have happend : labelled label fs = (label.toList ++ ['\t']) ++ join '\t' fs := by
    rw [labelled, join_cons h]; simp
  rw [happend]
  exact startsWith_append _ _

theorem peekLabel_labelled (h : fs ≠ []) (ts : List Text) :
    peekLabel label (labelled label fs :: ts) = .ok (true, labelled label fs :: ts) := by
  simp [peekLabel, peek, startsWith_labelled h]

theorem peekedLine_labelled (h : '\t' ∉ label.toList) (value : Text)
    (ts : List Text) : peekedLine label (labelled label [value] :: ts) = .ok (some value, ts) := by
  simp [peekedLine, peekLabel_labelled, parsePrefixedLine_labelled h]

theorem headerLine_labelled (h : '\t' ∉ label.toList) (version : Nat)
    (missing : String) (value : Text) (ts : List Text) :
    headerLine version label missing (labelled label [value] :: ts) = .ok (some value, ts) := by
  simp [headerLine, peekedLine_labelled h]

theorem versionNumber_current :
    versionNumber (stateVersion currentVersion) = some currentVersion := by
  decide

theorem startsWith_of_parsePrefixedLine {line rest : Text}
    (h : parsePrefixedLine (some line) label = .ok rest) :
    startsWith line (label.toList ++ ['\t']) = true := by
  rw [parsePrefixedLine, Reader.orError_some, ok_bind] at h
  obtain ⟨⟨found, tail⟩, hsplit, h⟩ := Reader.bind_eq_ok.mp h
  have hline : line = found ++ '\t' :: tail := by
    cases hs : splitOnce '\t' line with
    | none => rw [hs] at hsplit; cases hsplit
    | some pair => rw [hs] at hsplit; cases hsplit; exact eq_of_splitOnce hs
  have hlabel : found = label.toList := by
    by_contra hne
    simp only [ne_eq, hne] at h
    cases h
  have happend : line = (label.toList ++ ['\t']) ++ tail := by
    rw [hline, hlabel]; simp
  rw [happend]
  exact startsWith_append _ _

theorem peekLabel_table
    (h : IsLocationTable table locations) : peekLabel "patch-records" table = .ok (true, table) := by
  obtain ⟨countLine, rows, rfl, hcount, _⟩ := h.reads
  obtain ⟨rest, hrest, _⟩ := Reader.bind_eq_ok.mp hcount
  have hstarts := startsWith_of_parsePrefixedLine hrest
  simp only [peekLabel, peek, bind_apply, ok_bind, List.head?_cons,
    Option.any_some, hstarts, Reader.pure_apply]

/-- The lines after the inputs. -/
def tailLines (p : RecordPlaces) (table : List Text) : List Text :=
  match p.patchRecordsFile with
  | none => [labelled "sections-file" [p.sectionsFile]]
  | some file =>
    if file = p.sectionsFile then labelled "indexed-sections-file" [p.sectionsFile] :: table
    else labelled "sections-file" [p.sectionsFile] ::
      labelled "patch-records-file" [file] :: table

variable {s : PersistedState}

theorem renderIndex_eq_unlines
    (h : renderPatchRecordLocationTable p.locations p.rawLocations = unlines table) :
    renderIndex s p = unlines (renderHeaderAndInputs s ++ tailLines p table) := by
  rw [renderIndex, h, tailLines, unlines_append]
  cases p.patchRecordsFile with
  | none => simp
  | some file =>
    by_cases hfile : file = p.sectionsFile
    · simp only [hfile, ne_eq, not_true_eq_false, if_false, append_nil]
      rw [← unlines_append]
      rfl
    · simp only [hfile, Option.some.injEq, if_false, ne_eq, not_false_eq_true, if_true]
      rw [← unlines_append, ← unlines_append, ← unlines_append, List.append_assoc, unlines_append]
      rfl

/-- The records a full read finds beside the index. -/
def RecordPlaces.loadedRecords (p : RecordPlaces)
    (loadSections : Text → Except String (Option Text)) : Except String CompactRecords :=
  if p.patchRecordsFile = some p.sectionsFile then pure default
  else parseLoadedSections loadSections p.sectionsFile

/-- The location columns of a read, empty when no record file is named. -/
def RecordPlaces.columns (p : RecordPlaces) (parseLocations : Bool) (table : List Text)
    (locations : List PatchRecordLocation) : List PatchRecordLocation × Option Text :=
  if p.patchRecordsFile = none then ([], none) else readLocations parseLocations table locations

section

variable {p : RecordPlaces} {table : List Text} {locations : List PatchRecordLocation}
  (htable : IsLocationTable table locations) (parseLocations : Bool)

variable {loadSections : Text → Except String (Option Text)} {records : CompactRecords}

theorem parseSectionsFileTail_alone (hname : validateSectionsFileName p.sectionsFile = .ok ())
    (hload : parseLoadedSections loadSections p.sectionsFile = .ok records) :
    parseSectionsFileTail parseLocations loadSections
      (labelled "sections-file" [p.sectionsFile]) [] =
        .ok ({ records, sectionsFile := some p.sectionsFile, patchRecordsFile := none,
               patchRecordLocations := [], rawPatchRecordLocations := none }, []) := by
  have hfile : parsePrefixedLine (some (labelled "sections-file" [p.sectionsFile]))
      "sections-file" = .ok p.sectionsFile := parsePrefixedLine_single (by decide) _
  have hend : peekedLine "patch-records-file" [] = .ok (none, []) := rfl
  simp [parseSectionsFileTail, hfile, hname, hload, hend]

include htable

theorem parseTable_all : parsePatchRecordLocationTable parseLocations table =
    .ok (readLocations parseLocations table locations, []) := by
  have := reads_table htable parseLocations []
  rwa [append_nil] at this

theorem parseIndexedTail_rendered (hname : validateSectionsFileName p.sectionsFile = .ok ()) :
    parseIndexedTail currentVersion parseLocations
      (labelled "indexed-sections-file" [p.sectionsFile]) table =
        .ok ({ records := default, sectionsFile := some p.sectionsFile,
               patchRecordsFile := some p.sectionsFile,
               patchRecordLocations := (readLocations parseLocations table locations).1,
               rawPatchRecordLocations := (readLocations parseLocations table locations).2 },
          []) := by
  have hfile : parsePrefixedLine (some (labelled "indexed-sections-file" [p.sectionsFile]))
      "indexed-sections-file" = .ok p.sectionsFile := parsePrefixedLine_single (by decide) _
  simp [parseIndexedTail, currentVersion, hfile, hname, parseTable_all htable]

theorem parseSectionsFileTail_table (hname : validateSectionsFileName p.sectionsFile = .ok ())
    {file : Text} (hpatch : validateSectionsFileName file = .ok ())
    (hload : parseLoadedSections loadSections p.sectionsFile = .ok records) :
    parseSectionsFileTail parseLocations loadSections (labelled "sections-file" [p.sectionsFile])
      (labelled "patch-records-file" [file] :: table) =
        .ok ({ records, sectionsFile := some p.sectionsFile, patchRecordsFile := some file,
               patchRecordLocations := (readLocations parseLocations table locations).1,
               rawPatchRecordLocations := (readLocations parseLocations table locations).2 },
          []) := by
  have hfile : parsePrefixedLine (some (labelled "sections-file" [p.sectionsFile]))
      "sections-file" = .ok p.sectionsFile := parsePrefixedLine_single (by decide) _
  have hnamed : peekedLine "patch-records-file" (labelled "patch-records-file" [file] :: table) =
      .ok (some file, table) := peekedLine_labelled (by decide) file table
  have hoptional : parseOptionalTable parseLocations table =
      .ok (readLocations parseLocations table locations, []) := by
    rw [parseOptionalTable, bind_of_ok (peekLabel_table htable), if_pos rfl]
    exact parseTable_all htable parseLocations
  simp [parseSectionsFileTail, hfile, hname, hload, hnamed, hpatch, hoptional]

end

variable {loadSections : Text → Except String (Option Text)} {records : CompactRecords}

theorem parseIndexTail_sectionsFile (parseLocations : Bool) (lines : List Text) :
    parseIndexTail currentVersion parseLocations loadSections
        (labelled "sections-file" [p.sectionsFile] :: lines) =
      parseSectionsFileTail parseLocations loadSections
        (labelled "sections-file" [p.sectionsFile]) lines := by
  have hother : startsWith (labelled "sections-file" [p.sectionsFile])
      "indexed-sections-file\t".toList = false := rfl
  have hsecs : startsWith (labelled "sections-file" [p.sectionsFile])
      "sections-file\t".toList = true := startsWith_labelled (by simp)
  rw [parseIndexTail, bind_of_ok (expect_cons _ _ _), if_neg (Bool.eq_false_iff.mp hother),
    if_pos hsecs]

theorem parseIndexTail_rendered (hp : p.Writable locations)
    (htable : IsLocationTable table locations)
    (hload : p.loadedRecords loadSections = .ok records) (parseLocations : Bool) :
    parseIndexTail currentVersion parseLocations loadSections (tailLines p table) =
      .ok ({ records, sectionsFile := some p.sectionsFile, patchRecordsFile := p.patchRecordsFile,
             patchRecordLocations := (p.columns parseLocations table locations).1,
             rawPatchRecordLocations := (p.columns parseLocations table locations).2 }, []) := by
  have hidx : startsWith (labelled "indexed-sections-file" [p.sectionsFile])
      "indexed-sections-file\t".toList = true := startsWith_labelled (by simp)
  rw [RecordPlaces.loadedRecords] at hload
  rw [tailLines, RecordPlaces.columns]
  cases hfile : p.patchRecordsFile with
  | none =>
    rw [hfile, if_neg (by simp)] at hload
    rw [parseIndexTail_sectionsFile]
    exact parseSectionsFileTail_alone parseLocations hp.sectionsFile.2 hload
  | some file =>
    by_cases hsame : file = p.sectionsFile
    · rw [hfile, hsame, if_pos rfl] at hload
      obtain rfl : default = records := Except.ok.inj hload
      dsimp only
      rw [if_pos hsame, parseIndexTail, bind_of_ok (expect_cons _ _ _),
        if_pos hidx, hsame]
      exact parseIndexedTail_rendered htable parseLocations hp.sectionsFile.2
    · rw [hfile, if_neg (by simpa using hsame)] at hload
      dsimp only
      rw [if_neg hsame, parseIndexTail_sectionsFile]
      exact parseSectionsFileTail_table htable parseLocations hp.sectionsFile.2
        (hp.patchRecordsFile file hfile).2 hload

variable {e : String}

theorem parseIndexTail_loadError (hp : p.Writable locations)
    (hload : p.loadedRecords loadSections = .error e) (parseLocations : Bool) :
    parseIndexTail currentVersion parseLocations loadSections (tailLines p table) = .error e := by
  have hne : p.patchRecordsFile ≠ some p.sectionsFile := by
    intro hsame
    rw [RecordPlaces.loadedRecords, if_pos hsame] at hload
    cases hload
  rw [RecordPlaces.loadedRecords, if_neg hne] at hload
  have htail : ∀ ts, parseSectionsFileTail parseLocations loadSections
      (labelled "sections-file" [p.sectionsFile]) ts = .error e := by
    intro ts
    have hfile : parsePrefixedLine (some (labelled "sections-file" [p.sectionsFile]))
        "sections-file" = .ok p.sectionsFile := parsePrefixedLine_single (by decide) _
    simp only [parseSectionsFileTail, bind_apply, Reader.lift_apply, hfile,
      hp.sectionsFile.2, hload, ok_map, ok_bind]
    rfl
  rw [tailLines]
  cases hfile : p.patchRecordsFile with
  | none =>
    rw [parseIndexTail_sectionsFile]
    exact htail _
  | some file =>
    rw [hfile] at hne
    dsimp only
    rw [if_neg (fun h => hne (congrArg some h)), parseIndexTail_sectionsFile]
    exact htail _

/-! ## The whole index -/

/-- A state as a reader in the given mode returns it from the index. -/
def PersistedState.read (mode : PatchSectionReadMode) (s : PersistedState) (p : RecordPlaces)
    (records : CompactRecords) (columns : List PatchRecordLocation × Option Text) :
    PersistedState :=
  { s with
    inputFiles := s.inputFiles.map (FileState.read mode)
    records := records
    sectionsFile := some p.sectionsFile
    patchRecordsFile := p.patchRecordsFile
    patchRecordLocations := columns.1
    rawPatchRecordLocations := columns.2 }

theorem isLine_buildId (hs : s.Writable) : IsLine (renderBuildId s) := by
  rw [renderBuildId]
  cases hb : s.buildIdHashes with
  | none => exact show IsLine (labelled "build-id-hash" [absentField]) by decide
  | some b =>
    have hfields := (hs.buildIdHashes b hb).isPlain
    have hline : labelled "build-id-hash" [renderPresent renderBuildIdHashState (some b)] =
        labelled "build-id-hash" (buildIdFields b) := join_join (by simp)
    rw [hline]
    exact isLine_labelled_of_plain (by decide) hfields (by simp [buildIdFields])

theorem isLine_optionalLine (hlabel : IsField label.toList) {value : Option Text}
    (h : ∃ v, value = some v ∧ IsPlain v) : ∀ l ∈ optionalLine label value, IsLine l := by
  obtain ⟨v, rfl, hv⟩ := h
  intro l hl
  obtain rfl := mem_singleton.mp hl
  exact isLine_labelled_of_plain hlabel (by simpa using hv) (by simp)

theorem isLine_header (hs : s.Writable) : ∀ l ∈ renderHeaderAndInputs s, IsLine l := by
  intro l hl
  simp only [renderHeaderAndInputs, mem_append, mem_cons, List.not_mem_nil, or_false, mem_map] at hl
  rcases hl with (((((rfl | rfl) | hl) | hl) | hl) | rfl | rfl | rfl) | rfl | ⟨f, hf, rfl⟩
  · exact show IsLine (stateVersion currentVersion) by decide
  · exact isLine_labelled_of_plain (by decide) (by simpa using hs.argsHash) (by simp)
  · exact isLine_optionalLine (by decide) hs.linkOptionsHash l hl
  · exact isLine_optionalLine (by decide) hs.inputOrderHash l hl
  · exact isLine_optionalLine (by decide) hs.sldVersion l hl
  · exact isLine_labelled_of_plain (by decide)
      (by simpa using isPlain_renderIdentity s.linkStart) (by simp)
  · refine isLine_labelled_of_plain (by decide) ?_ (by simp)
    simp [isPlain_render, hs.outputHash, isPlain_renderIdentity]
  · exact isLine_buildId hs
  · exact isLine_renderCount (by decide) _
  · exact isLine_labelled_of_plain (by decide) (isPlain_inputLineFields (hs.inputFiles f hf))
      (by simp [inputLineFields])

theorem isLine_tailLines (hp : p.Writable locations)
    (htable : IsLocationTable table locations) : ∀ l ∈ tailLines p table, IsLine l := by
  have hsecs : IsLine (labelled "sections-file" [p.sectionsFile]) :=
    isLine_labelled_of_plain (by decide) (by simpa using hp.sectionsFile.1) (by simp)
  have hidx : IsLine (labelled "indexed-sections-file" [p.sectionsFile]) :=
    isLine_labelled_of_plain (by decide) (by simpa using hp.sectionsFile.1) (by simp)
  intro l hl
  rw [tailLines] at hl
  cases hfile : p.patchRecordsFile with
  | none =>
    rw [hfile] at hl
    rw [mem_singleton.mp hl]
    exact hsecs
  | some file =>
    rw [hfile] at hl
    dsimp only at hl
    split at hl
    · rcases mem_cons.mp hl with rfl | hl
      · exact hidx
      · exact htable.isLine l hl
    · rcases mem_cons.mp hl with rfl | hl
      · exact hsecs
      · rcases mem_cons.mp hl with rfl | hl
        · exact isLine_labelled_of_plain (by decide)
            (by simpa using (hp.patchRecordsFile file hfile).1) (by simp)
        · exact htable.isLine l hl

theorem parseWithSectionLoader_header (hs : s.Writable)
    (mode : PatchSectionReadMode) (parseLocations : Bool)
    (loadSections : Text → Except String (Option Text)) (ts : List Text) :
    readAll (parseWithSectionLoader mode parseLocations loadSections)
      (renderHeaderAndInputs s ++ ts) = readAll (do
          let tail ← parseIndexTail currentVersion parseLocations loadSections
          finish "Unexpected trailing incremental state data"
          pure { s with
            inputFiles := s.inputFiles.map (FileState.read mode)
            records := tail.records
            sectionsFile := tail.sectionsFile
            patchRecordsFile := tail.patchRecordsFile
            patchRecordLocations := tail.patchRecordLocations
            rawPatchRecordLocations := tail.rawPatchRecordLocations }) ts := by
  obtain ⟨linkOptions, hlinkOptions, _⟩ := hs.linkOptionsHash
  obtain ⟨inputOrder, hinputOrder, _⟩ := hs.inputOrderHash
  obtain ⟨version, hver, _⟩ := hs.sldVersion
  have hargs : parsePrefixedLine (some (labelled "args" [s.argsHash])) "args" = .ok s.argsHash :=
    parsePrefixedLine_single (by decide) _
  have hlinkStart : ∀ ts, peekedLinkStart (renderLinkStart s :: ts) = .ok (s.linkStart, ts) := by
    intro ts
    rw [peekedLinkStart, renderLinkStart, bind_of_ok (peekLabel_labelled (by simp) ts)]
    simp [parseLinkStartLine_render]
  have hout : parseContentLine (some (renderOutput s)) "output" = .ok s.output :=
    parseContentLine_render (by decide) hs.outputHash
  have hbuildId : ∀ ts, peekedBuildIdHash (renderBuildId s :: ts) = .ok (s.buildIdHashes, ts) := by
    intro ts
    rw [peekedBuildIdHash, renderBuildId, bind_of_ok (peekLabel_labelled (by simp) ts)]
    simp [parseBuildIdHashLine_render hs.buildIdHashes]
  have hcount : parseCount "inputs" "Invalid incremental input count"
      (some (renderCount "inputs" s.inputFiles.length)) = .ok s.inputFiles.length :=
    parseCount_renderCount (by decide) _ _
  have hinputs : Reads (times (do
      let line ← expect "Missing incremental input record"
      parseInputLine mode line) s.inputFiles.length)
      (s.inputFiles.map fun f => labelled "input" (inputLineFields f))
      (s.inputFiles.map (FileState.read mode)) := by
    have hall : List.Forall₂ (fun t f => Reads (do
        let line ← expect "Missing incremental input record"
        parseInputLine mode line) [t] f)
        (s.inputFiles.map fun f => labelled "input" (inputLineFields f))
        (s.inputFiles.map (FileState.read mode)) := by
      rw [List.forall₂_map_left_iff, List.forall₂_map_right_iff, List.forall₂_same]
      exact fun f hf => Reads.cons (Reads.expect _ _)
        (Reads.lift (parseInputLine_render (hs.inputFiles f hf) mode))
    simpa using Reads.times_forall₂ hall
  rw [renderHeaderAndInputs, hlinkOptions, hinputOrder, hver]
  simp only [optionalLine, Option.map_some, Option.toList_some, List.cons_append, List.nil_append]
  simp only [readAll, parseWithSectionLoader, bind_apply, expect_cons, ok_bind,
    versionNumber_current, Reader.orError_some, Reader.lift_apply, ok_map,
    Reader.next_cons, hargs, hlinkStart, hout, hbuildId, hcount, hinputs _,
    headerLine_labelled (show '\t' ∉ "link-options".toList by decide),
    headerLine_labelled (show '\t' ∉ "input-order".toList by decide),
    headerLine_labelled (show '\t' ∉ "sld-version".toList by decide)]
  rfl

/-- **The round trip of the index**, in either mode. -/
theorem parseIndex_renderIndex (hs : s.Writable) (hp : p.Writable locations)
    (hrender : renderPatchRecordLocationTable p.locations p.rawLocations = unlines table)
    (htable : IsLocationTable table locations)
    (hload : p.loadedRecords loadSections = .ok records) (mode : PatchSectionReadMode)
    (parseLocations : Bool) :
    parseIndex mode parseLocations loadSections (renderIndex s p) =
      .ok (s.read mode p records (p.columns parseLocations table locations)) := by
  have hlines : ∀ l ∈ renderHeaderAndInputs s ++ tailLines p table, IsLine l := fun l hl =>
    (mem_append.mp hl).elim (isLine_header hs l) (isLine_tailLines hp htable l)
  have htail := parseIndexTail_rendered hp htable hload parseLocations
  rw [parseIndex, renderIndex_eq_unlines hrender, lines_unlines hlines,
    parseWithSectionLoader_header hs, readAll, bind_of_ok htail,
    bind_of_ok (Reader.finish_nil _)]
  rfl

theorem parseIndex_loadError (hs : s.Writable) (hp : p.Writable locations)
    (hload : p.loadedRecords loadSections = .error e) (mode : PatchSectionReadMode)
    (parseLocations : Bool) :
    parseIndex mode parseLocations loadSections (renderIndex s p) = .error e := by
  obtain ⟨table, hrender, htable⟩ := hp.table
  have hlines : ∀ l ∈ renderHeaderAndInputs s ++ tailLines p table, IsLine l := fun l hl =>
    (mem_append.mp hl).elim (isLine_header hs l) (isLine_tailLines hp htable l)
  rw [parseIndex, renderIndex_eq_unlines hrender, lines_unlines hlines,
    parseWithSectionLoader_header hs, readAll, bind_apply,
    parseIndexTail_loadError hp hload]
  rfl

/-! ## The metadata-only path -/

theorem inputLineFields_read_preserveRaw (f : FileState) :
    inputLineFields (f.read .preserveRaw) = inputLineFields f := by
  obtain ⟨path, content, snapshotIdentity, patch⟩ := f
  cases patch <;> rfl

theorem renderIndex_read_preserveRaw (s : PersistedState) (locations : List PatchRecordLocation)
    (hrender : renderPatchRecordLocationTable p.locations p.rawLocations = unlines table) :
    renderIndex (s.read .preserveRaw p default (p.columns false table locations))
      (s.read .preserveRaw p default (p.columns false table locations)).places =
        renderIndex s p := by
  have hheader : renderHeaderAndInputs
      (s.read .preserveRaw p default (p.columns false table locations)) =
        renderHeaderAndInputs s := by
    simp only [renderHeaderAndInputs, PersistedState.read, renderLinkStart, renderOutput,
      renderBuildId, List.length_map, List.map_map, Function.comp_def,
      inputLineFields_read_preserveRaw]
  rw [renderIndex, renderIndex, hheader, hrender]
  simp only [PersistedState.places, PersistedState.read, Option.getD_some, RecordPlaces.columns]
  by_cases hfile : p.patchRecordsFile = none
  · simp only [hfile]
    rfl
  · simp only [hfile, if_false, readLocations, Bool.false_eq_true, renderPatchRecordLocationTable]

theorem columns_parsed (hp : p.Writable locations) (table : List Text) :
    p.columns true table locations = (locations, none) := by
  rw [RecordPlaces.columns]
  split
  · rename_i hnone
    rw [hp.absent hnone]
  · rfl

/-- The full read of a written index returns the state; and the metadata
read, written again, is read in full like the original. -/
theorem index_round_trip {s : PersistedState} (hs : s.Writable) {p : RecordPlaces}
    {locations : List PatchRecordLocation} (hp : p.Writable locations) :
    (∀ loadSections records, p.loadedRecords loadSections = .ok records →
      parseIndex .parse true loadSections (renderIndex s p) =
        .ok { s with
          inputFiles := s.inputFiles.map (FileState.read .parse)
          records := records
          sectionsFile := some p.sectionsFile
          patchRecordsFile := p.patchRecordsFile
          patchRecordLocations := locations
          rawPatchRecordLocations := none }) ∧
    ((∀ f ∈ s.inputFiles, ∀ q, f.patch = some q → q.rawSections = none) →
      s.inputFiles.map (FileState.read .parse) = s.inputFiles) ∧
    ∃ metadata,
      parseIndex .preserveRaw false (fun _ => .ok none) (renderIndex s p) = .ok metadata ∧
      ∀ loadSections, parseIndex .parse true loadSections (renderIndex metadata metadata.places) =
        parseIndex .parse true loadSections (renderIndex s p) := by
  obtain ⟨table, hrender, htable⟩ := hp.table
  refine ⟨?_, ?_, ?_⟩
  · intro loadSections records hload
    rw [parseIndex_renderIndex hs hp hrender htable hload, columns_parsed hp]
    rfl
  · intro hparsed
    conv_rhs => rw [← List.map_id s.inputFiles]
    exact List.map_congr_left fun f hf => FileState.read_parse (hparsed f hf)
  · have hnone : p.loadedRecords (fun _ => .ok none) = .ok default := by
      rw [RecordPlaces.loadedRecords]
      split <;> rfl
    refine ⟨_, parseIndex_renderIndex hs hp hrender htable hnone .preserveRaw false, ?_⟩
    intro loadSections
    rw [renderIndex_read_preserveRaw s locations hrender]

/-- A state of one object with one patchable section. -/
def oneObject : PersistedState where
  argsHash := "61".toList
  linkOptionsHash := some "6c".toList
  inputOrderHash := some "69".toList
  sldVersion := some "0.1.0".toList
  linkStart := some ⟨0, 1, 2, 1700000000, 5, 1700000000, 5⟩
  output := ⟨8192, [], some ⟨8192, 1, 3, 1700000001, 0, 1700000001, 0⟩⟩
  buildIdHashes := some ⟨8192, 3, none⟩
  inputFiles :=
    [{ path := "612e6f".toList
       content := ⟨512, "ab".toList, some ⟨512, 1, 4, 1699999999, 0, 1699999999, 0⟩⟩
       snapshotIdentity := none
       patch := some
         { fingerprint := "cd".toList
           sections := [{ input := "612e6f".toList, sectionIndex := 1,
                          sectionName := some ".text".toList, inputSize := 16,
                          outputOffset := 4096, outputSize := 16, dataHash := none }]
           rawSections := none } }]
  records := default
  sectionsFile := none
  patchRecordsFile := none
  patchRecordLocations := []
  rawPatchRecordLocations := none

theorem oneObject_writable : oneObject.Writable where
  argsHash := by decide
  linkOptionsHash := ⟨_, rfl, by decide⟩
  inputOrderHash := ⟨_, rfl, by decide⟩
  sldVersion := ⟨_, rfl, by decide⟩
  outputHash := by decide
  buildIdHashes b hb := by cases hb; exact ⟨by decide, fun _ h => by cases h⟩
  inputFiles f hf := by
    obtain rfl := mem_singleton.mp hf
    refine ⟨by decide, by decide, fun q hq => ?_⟩
    cases hq
    refine ⟨by decide, fun _ s hs => ?_, fun _ h => by cases h⟩
    obtain rfl := mem_singleton.mp hs
    exact ⟨by decide, fun _ h => by cases h⟩

def oneLocation : PatchRecordLocation := ⟨"612e6f".toList, 0, 120, "ef".toList⟩

theorem oneLocation_writable :
    (RecordPlaces.indexed "sections-zstd-ef".toList [oneLocation]).Writable [oneLocation] where
  sectionsFile := ⟨by decide, rfl⟩
  patchRecordsFile f hf := by cases hf; exact ⟨by decide, rfl⟩
  absent h := by cases h
  parsed _ := ⟨rfl, fun l hl => by obtain rfl := mem_singleton.mp hl; decide⟩
  raw _ h := by cases h

theorem index_round_trip_oneObject :
    parseIndex .parse true (fun _ => .ok none)
      (renderIndex oneObject (.indexed "sections-zstd-ef".toList [oneLocation])) =
        .ok { oneObject with
          sectionsFile := some "sections-zstd-ef".toList
          patchRecordsFile := some "sections-zstd-ef".toList
          patchRecordLocations := [oneLocation] } :=
  (index_round_trip oneObject_writable oneLocation_writable).1 _ default rfl

end Sld.Incremental
