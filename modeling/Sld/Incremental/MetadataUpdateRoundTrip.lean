/-
# `Incremental.MetadataUpdateRoundTrip` — the update is read back as it was written

The inputs a patch writes are partly inputs it read, in one mode or the
other, so what a reader returns has to be something the writer can write
again (`FileState.Recordable.read`).  An update sets the inputs it lists
and leaves the others alone (`applyMetadataUpdate_rendered`).
-/
import Sld.Incremental.IndexRoundTrip
import Sld.Incremental.MetadataUpdate

namespace Sld.Incremental

open Text
open Text.Reader (Reads next readAll ok_bind bind_eq_ok)
open List (map_cons mem_append mem_cons mem_cons_of_mem mem_cons_self not_mem_nil)

/-! ## What a reader returns can be written again -/

/-- An input the linker records: its path is made of hexadecimal digits. -/
structure FileState.Recordable (f : FileState) : Prop where
  writable : f.Writable
  path : IsPart f.path

structure PersistedState.Recordable (s : PersistedState) : Prop where
  writable : s.Writable
  inputFiles : ∀ f ∈ s.inputFiles, f.Recordable

theorem presentText_ne_absent {t h : Text} (hp : presentText t = some h) :
    h = t ∧ h ≠ absentField := by
  rw [presentText] at hp
  split at hp
  · rename_i hne
    cases hp
    exact ⟨rfl, hne⟩
  · cases hp

theorem parsePatchSection_writable {input index inputSize outputOffset outputSize : Text}
    {dataHash name : Option Text} {s : FilePatchSectionState} (hinput : IsPart input)
    (hhash : ∀ h, dataHash = some h → IsPart h ∧ h ≠ absentField)
    (h : parsePatchSection input dataHash index inputSize outputOffset outputSize name = .ok s) :
    s.Writable := by
  cases name
  all_goals
    obtain ⟨sectionName, _, h⟩ := bind_eq_ok.mp h
    obtain ⟨index, _, h⟩ := bind_eq_ok.mp h
    obtain ⟨inputSize, _, h⟩ := bind_eq_ok.mp h
    obtain ⟨outputOffset, _, h⟩ := bind_eq_ok.mp h
    obtain ⟨outputSize, _, h⟩ := bind_eq_ok.mp h
    cases h
    exact ⟨hinput, hhash⟩

variable {defaultInput : Text} {parts : List Text}

theorem parsePatchSectionParts_writable (hdefault : IsPart defaultInput)
    (hparts : ∀ t ∈ parts, IsPart t) {s : FilePatchSectionState}
    (h : parsePatchSectionParts defaultInput parts = .ok (some s)) : s.Writable := by
  have hsome : ∀ {e : Except String FilePatchSectionState},
      some <$> e = .ok (some s) → e = .ok s := by
    intro e he
    cases e with
    | error m => cases he
    | ok r => cases he; rfl
  unfold parsePatchSectionParts at h
  split at h
  · exact parsePatchSection_writable hdefault (by simp) (hsome h)
  · exact parsePatchSection_writable hdefault (by simp) (hsome h)
  · exact parsePatchSection_writable (hparts _ (by simp)) (by simp) (hsome h)
  · refine parsePatchSection_writable (hparts _ (by simp)) ?_ (hsome h)
    intro hash hhash
    obtain ⟨rfl, hne⟩ := presentText_ne_absent hhash
    exact ⟨hparts _ (by simp), hne⟩
  · cases h

theorem parsePatchSectionList_writable (hdefault : IsPart defaultInput)
    (hparts : ∀ part ∈ parts, IsPlain part ∧ ',' ∉ part)
    {parsed sections : List FilePatchSectionState} (hparsed : ∀ s ∈ parsed, s.Writable)
    (h : parsePatchSectionList defaultInput parsed parts = .ok sections) :
    ∀ s ∈ sections, s.Writable := by
  induction parts generalizing parsed with
  | nil =>
    cases h
    exact hparsed
  | cons part parts ih =>
    obtain ⟨r, hr, h⟩ := bind_eq_ok.mp h
    cases r with
    | none =>
      cases h
      intro s hs
      cases hs
    | some s =>
      have hpart := hparts part mem_cons_self
      have hfields : ∀ t ∈ split ':' part, IsPart t := by
        intro t ht
        have hmem : ∀ c ∈ t, c ∈ part ∧ c ≠ ':' := fun c hc => mem_of_mem_split ht hc
        refine ⟨⟨?_, ?_, ?_⟩, ?_, ?_⟩
        · exact fun hc => hpart.1.1 (hmem _ hc).1
        · exact fun hc => hpart.1.2.1 (hmem _ hc).1
        · exact fun hc => hpart.1.2.2 (hmem _ hc).1
        · exact fun hc => (hmem _ hc).2 rfl
        · exact fun hc => hpart.2 (hmem _ hc).1
      have hs : s.Writable := parsePatchSectionParts_writable hdefault hfields hr
      refine ih (fun p hp => hparts p (mem_cons_of_mem _ hp)) ?_ h
      intro r hr
      rcases mem_append.mp hr with hr | hr
      · exact hparsed r hr
      · rw [List.mem_singleton.mp hr]
        exact hs

variable {path : Text}

theorem parsePatchSections_writable {raw : Text} (hpath : IsPart path) (hraw : IsPlain raw)
    {sections : List FilePatchSectionState} (h : parsePatchSections path raw = .ok sections) :
    ∀ s ∈ sections, s.Writable := by
  rw [parsePatchSections] at h
  split at h
  · obtain rfl := Except.ok.inj h
    intro s hs
    exact absurd hs not_mem_nil
  · refine parsePatchSectionList_writable hpath ?_ (fun s hs => absurd hs not_mem_nil) h
    intro part hpart
    have hmem : ∀ c ∈ part, c ∈ raw ∧ c ≠ ',' := fun c hc => mem_of_mem_split hpart hc
    refine ⟨⟨?_, ?_, ?_⟩, ?_⟩
    · exact fun hc => hraw.1 (hmem _ hc).1
    · exact fun hc => hraw.2.1 (hmem _ hc).1
    · exact fun hc => hraw.2.2 (hmem _ hc).1
    · exact fun hc => (hmem _ hc).2 rfl

variable {p : FilePatchState}

theorem FilePatchState.Writable.meaning (h : p.Writable path)
    (hpath : IsPart path) : ∀ s ∈ p.meaning path, s.Writable := by
  cases hraw : p.rawSections with
  | none =>
    rw [FilePatchState.meaning, hraw]
    exact h.parsed hraw
  | some raw =>
    obtain ⟨_, hpresent, sections, hsecs⟩ := h.raw raw hraw
    rw [FilePatchState.meaning, hraw]
    simp only [hsecs]
    exact parsePatchSections_writable hpath hpresent.1 hsecs

theorem FilePatchState.Writable.read (h : p.Writable path)
    (hpath : IsPart path) (mode : PatchSectionReadMode) : (p.read mode path).Writable path := by
  cases mode with
  | parse => exact ⟨h.fingerprint, fun _ => h.meaning hpath, fun _ hraw => by cases hraw⟩
  | preserveRaw =>
    refine ⟨h.fingerprint, fun _ s hs => absurd hs not_mem_nil, fun raw hraw => ?_⟩
    cases hraw
    exact ⟨rfl, h.sectionsField.1, _, h.sectionsField.2⟩

variable {f : FileState}

theorem FileState.Recordable.read (h : f.Recordable)
    (mode : PatchSectionReadMode) : (f.read mode).Recordable := by
  refine ⟨⟨h.writable.path, h.writable.hash, ?_⟩, h.path⟩
  intro p hp
  obtain ⟨q, hq, rfl⟩ := Option.map_eq_some_iff.mp hp
  exact (h.writable.patch q hq).read h.path mode

theorem FileState.Recordable.read_read (h : f.Recordable)
    (mode : PatchSectionReadMode) : (f.read mode).read .parse = f.read .parse := by
  cases mode with
  | parse =>
    refine FileState.read_parse ?_
    intro p hp
    obtain ⟨q, _, rfl⟩ := Option.map_eq_some_iff.mp hp
    rfl
  | preserveRaw =>
    obtain ⟨path, content, snapshotIdentity, patch⟩ := f
    cases patch with
    | none => rfl
    | some p =>
      have hparse := (h.writable.patch p rfl).sectionsField.2
      simp [FileState.read, FilePatchState.read, FilePatchState.meaning, hparse, Except.toOption]

/-! ## Setting some of the inputs -/

theorem setInputs_cons (files : List FileState) (edit : Nat × FileState)
    (edits : List (Nat × FileState)) :
    setInputs files (edit :: edits) = setInputs (files.set edit.1 edit.2) edits := rfl

@[simp] theorem length_setInputs (files : List FileState) (edits : List (Nat × FileState)) :
    (setInputs files edits).length = files.length := by
  induction edits generalizing files with
  | nil => rfl
  | cons edit edits ih => rw [setInputs_cons, ih, List.length_set]

variable {edits : List (Nat × FileState)}

theorem getElem?_setInputs_of_notMem {i : Nat} (h : i ∉ edits.map (·.1)) (files : List FileState) :
    (setInputs files edits)[i]? = files[i]? := by
  induction edits generalizing files with
  | nil => rfl
  | cons edit edits ih =>
    rw [map_cons, mem_cons, not_or] at h
    rw [setInputs_cons, ih h.2, List.getElem?_set_ne (Ne.symm h.1)]

variable {files : List FileState}

theorem getElem?_setInputs_congr {files' : List FileState}
    (hlen : files.length = files'.length) {i : Nat}
    (h : files[i]? = files'[i]? ∨ i ∈ edits.map (·.1)) :
    (setInputs files edits)[i]? = (setInputs files' edits)[i]? := by
  induction edits generalizing files files' with
  | nil =>
    rcases h with h | h
    · exact h
    · cases h
  | cons edit edits ih =>
    rw [setInputs_cons, setInputs_cons]
    refine ih (by simpa using hlen) ?_
    by_cases hi : edit.1 = i
    · left
      rw [hi, List.getElem?_set, List.getElem?_set, hlen, if_pos rfl, if_pos rfl]
    · rcases h with h | h
      · left
        rw [List.getElem?_set_ne hi, List.getElem?_set_ne hi, h]
      · right
        rw [map_cons, mem_cons] at h
        exact h.resolve_left (Ne.symm hi)

theorem getElem?_setInputs_of_values {values : List FileState} (hlen : files.length = values.length)
    (hvalues : ∀ edit ∈ edits, values[edit.1]? = some edit.2) (i : Nat) :
    (setInputs files edits)[i]? = if i ∈ edits.map (·.1) then values[i]? else files[i]? := by
  induction edits generalizing files with
  | nil => simp [setInputs]
  | cons edit edits ih =>
    have hedit := hvalues edit mem_cons_self
    rw [setInputs_cons, ih (by simpa using hlen)
      (fun e he => hvalues e (mem_cons_of_mem _ he))]
    by_cases hi : edit.1 = i
    · have hset : (files.set edit.1 edit.2)[i]? = values[i]? := by
        obtain ⟨hbound, _⟩ := List.getElem?_eq_some_iff.mp hedit
        rw [hi] at hedit hbound ⊢
        rw [List.getElem?_set_self (hlen ▸ hbound), hedit]
      rw [hset, if_pos (show i ∈ (edit :: edits).map (·.1) from by simp [hi]), ite_self]
    · have hmem : i ∈ (edit :: edits).map (·.1) ↔ i ∈ edits.map (·.1) := by
        rw [map_cons, mem_cons]
        exact or_iff_right (Ne.symm hi)
      rw [List.getElem?_set_ne hi]
      simp only [hmem]

theorem map_setInputs (f : FileState → FileState) (files : List FileState)
    (edits : List (Nat × FileState)) :
    (setInputs files edits).map f =
      setInputs (files.map f) (edits.map fun edit => (edit.1, f edit.2)) := by
  induction edits generalizing files with
  | nil => rfl
  | cons edit edits ih => rw [setInputs_cons, ih, List.map_set]; rfl

theorem mem_setInputs (h : f ∈ setInputs files edits) : f ∈ files ∨ ∃ edit ∈ edits, f = edit.2 := by
  induction edits generalizing files with
  | nil => exact .inl h
  | cons edit edits ih =>
    rcases ih h with h | ⟨e, he, rfl⟩
    · rcases List.mem_or_eq_of_mem_set h with h | rfl
      · exact .inl h
      · exact .inr ⟨edit, mem_cons_self, rfl⟩
    · exact .inr ⟨e, mem_cons_of_mem _ he, rfl⟩

namespace ChangedInputPatch

variable (p : ChangedInputPatch)

theorem recordInputs_eq (files : List FileState) :
    p.recordInputs files = setInputs files (p.rewrittenInputs ++ p.changedInputs) :=
  (List.foldl_append ..).symm

variable {i : Nat}

theorem mem_inputIndices :
    i ∈ p.inputIndices ↔ i ∈ (p.rewrittenInputs ++ p.changedInputs).map (·.1) := by
  rw [inputIndices, metadataUpdateIndicesForInputs, mem_sortDedup, List.map_append,
    List.map_append, mem_append, mem_append, or_comm]

@[simp] theorem length_recordInputs (files : List FileState) :
    (p.recordInputs files).length = files.length := by
  rw [recordInputs_eq, length_setInputs]

theorem getElem?_recordInputs_of_notMem (h : i ∉ p.inputIndices)
    (files : List FileState) : (p.recordInputs files)[i]? = files[i]? := by
  rw [recordInputs_eq]
  exact getElem?_setInputs_of_notMem (fun hi => h (p.mem_inputIndices.mpr hi)) files

theorem getElem?_recordInputs_congr (h : i ∈ p.inputIndices)
    {files files' : List FileState} (hlen : files.length = files'.length) :
    (p.recordInputs files)[i]? = (p.recordInputs files')[i]? := by
  rw [recordInputs_eq, recordInputs_eq]
  exact getElem?_setInputs_congr hlen (.inr (p.mem_inputIndices.mp h))

end ChangedInputPatch

/-! ## The text of an update -/

/-- The inputs an update lists, each with its number. -/
def updatedRows (s : PersistedState) (indices : List Nat) : List (Nat × FileState) :=
  (sortDedup indices).filterMap fun i => s.inputFiles[i]?.map (i, ·)

def updateLine (row : Nat × FileState) : Text :=
  labelled "input" [Numeral.render row.1, renderInputLineRest row.2]

/-- The lines of an update. -/
def updateLines (s : PersistedState) (indices : List Nat) : List Text :=
  [metadataUpdateVersion, renderLinkStart s, renderOutput s, renderBuildId s,
    renderCount "inputs" (updatedRows s indices).length] ++
      (updatedRows s indices).map updateLine

variable {indices : List Nat} {row : Nat × FileState} {s : PersistedState}

theorem mem_updatedRows :
    row ∈ updatedRows s indices ↔ row.1 ∈ indices ∧ s.inputFiles[row.1]? = some row.2 := by
  simp only [updatedRows, List.mem_filterMap, mem_sortDedup, Option.map_eq_some_iff]
  constructor
  · rintro ⟨i, hi, f, hf, rfl⟩
    exact ⟨hi, hf⟩
  · rintro ⟨hi, hf⟩
    exact ⟨row.1, hi, row.2, hf, rfl⟩

theorem mapM_renderUpdatedInput {inputs : List Text} :
    indices.mapM (renderUpdatedInput s) = .ok inputs ↔ (∀ i ∈ indices, i < s.inputFiles.length) ∧
        inputs = (indices.filterMap fun i => s.inputFiles[i]?.map (i, ·)).map updateLine := by
  induction indices generalizing inputs with
  | nil =>
    rw [List.mapM_nil]
    constructor
    · intro h
      obtain rfl := Except.ok.inj h
      exact ⟨fun i hi => absurd hi not_mem_nil, rfl⟩
    · rintro ⟨_, rfl⟩
      rfl
  | cons i indices ih =>
    rw [List.mapM_cons, bind_eq_ok, List.forall_mem_cons]
    cases hi : s.inputFiles[i]? with
    | none =>
      have hpanic : renderUpdatedInput s i = .error "index out of bounds" := by
        rw [renderUpdatedInput, hi]
        rfl
      constructor
      · rintro ⟨t, ht, _⟩
        rw [hpanic] at ht
        cases ht
      · rintro ⟨⟨hbound, _⟩, _⟩
        rw [List.getElem?_eq_getElem hbound] at hi
        cases hi
    | some f =>
      have hrender : renderUpdatedInput s i = .ok (updateLine (i, f)) := by
        rw [renderUpdatedInput, hi]
        rfl
      obtain ⟨hbound, _⟩ := List.getElem?_eq_some_iff.mp hi
      constructor
      · rintro ⟨t, ht, h⟩
        obtain rfl := Except.ok.inj (hrender.symm.trans ht)
        obtain ⟨ts, hts, h⟩ := bind_eq_ok.mp h
        obtain rfl := Except.ok.inj h
        obtain ⟨hall, rfl⟩ := ih.mp hts
        exact ⟨⟨hbound, hall⟩, by simp [hi]⟩
      · rintro ⟨⟨_, hall⟩, rfl⟩
        refine ⟨_, hrender, bind_eq_ok.mpr ⟨_, ih.mpr ⟨hall, rfl⟩, ?_⟩⟩
        simp [hi]
        rfl

theorem renderMetadataUpdate_eq_ok {text : Text} : renderMetadataUpdate s indices = .ok text ↔
      (∀ i ∈ indices, i < s.inputFiles.length) ∧ text = unlines (updateLines s indices) := by
  have hcount : (∀ i ∈ indices, i < s.inputFiles.length) →
      (updatedRows s indices).length = (sortDedup indices).length := by
    intro hall
    rw [updatedRows, List.length_filterMap_eq_countP, List.countP_eq_length]
    intro i hi
    simp [hall i (mem_sortDedup.mp hi)]
  rw [renderMetadataUpdate, bind_eq_ok]
  simp only [mapM_renderUpdatedInput, mem_sortDedup]
  constructor
  · rintro ⟨inputs, ⟨hall, rfl⟩, h⟩
    refine ⟨hall, (Except.ok.inj h).symm.trans ?_⟩
    rw [updateLines, hcount hall]
    rfl
  · rintro ⟨hall, rfl⟩
    refine ⟨_, ⟨hall, rfl⟩, ?_⟩
    rw [updateLines, hcount hall]
    rfl

theorem applyUpdatedInput_line (hrow : row.2.Writable)
    (hbound : row.1 < files.length) (mode : PatchSectionReadMode) :
    applyUpdatedInput mode files (some (updateLine row)) =
      .ok (files.set row.1 (row.2.read mode)) := by
  have hindex : '\t' ∉ Numeral.render row.1 := (isPlain_render row.1).1
  have hinput : labelled "input" [renderInputLineRest row.2] =
      labelled "input" (inputLineFields row.2) := join_join (by simp [inputLineFields])
  rw [applyUpdatedInput, updateLine, parsePrefixedLine_labelled (by decide) (by simp), ok_bind,
    splitOnce_join hindex (by simp), Reader.orError_some, ok_bind]
  simp only [Reader.parseNumeral_render, ok_bind, join_singleton, hinput,
    parseInputLine_render hrow mode]
  rw [if_neg (Nat.not_le.mpr hbound)]
  rfl

theorem reads_applyUpdatedInputs {rows : List (Nat × FileState)} (mode : PatchSectionReadMode)
    (hrows : ∀ row ∈ rows, row.2.Writable) (hbound : ∀ row ∈ rows, row.1 < files.length) :
    Reads (applyUpdatedInputs mode rows.length files) (rows.map updateLine)
      (setInputs files (rows.map fun row => (row.1, row.2.read mode))) := by
  induction rows generalizing files with
  | nil => exact Reads.pure _
  | cons row rows ih =>
    have hline := applyUpdatedInput_line (hrows row mem_cons_self) (hbound row mem_cons_self) mode
    have hrest : ∀ r ∈ rows, r.1 < (files.set row.1 (row.2.read mode)).length := by
      intro r hr
      rw [List.length_set]
      exact hbound r (mem_cons_of_mem _ hr)
    exact Reads.cons (Reads.next _) (Reads.bind (Reads.lift hline)
      (ih (fun r hr => hrows r (mem_cons_of_mem _ hr)) hrest))

theorem isLine_updateLines (hs : s.Writable) (indices : List Nat) :
    ∀ l ∈ updateLines s indices, IsLine l := by
  have hheader : ∀ l ∈ renderHeaderAndInputs s, IsLine l := isLine_header hs
  intro l hl
  simp only [updateLines, mem_append, mem_cons, not_mem_nil, or_false, List.mem_map] at hl
  rcases hl with (rfl | rfl | rfl | rfl | rfl) | ⟨row, hrow, rfl⟩
  · exact show IsLine metadataUpdateVersion by decide
  · exact hheader _ (by simp [renderHeaderAndInputs])
  · exact hheader _ (by simp [renderHeaderAndInputs])
  · exact isLine_buildId hs
  · exact isLine_renderCount (by decide) _
  · have hinput := isPlain_inputLineFields
      (hs.inputFiles _ (List.mem_of_getElem? (mem_updatedRows.mp hrow).2))
    have hline : updateLine row =
        labelled "input" (Numeral.render row.1 :: inputLineFields row.2) := by
      rw [updateLine, renderInputLineRest, labelled, labelled, join_cons (by simp),
        join_join (by simp [inputLineFields]), join_cons (List.cons_ne_nil _ _)]
    rw [hline]
    refine isLine_labelled_of_plain (by decide) ?_ (by simp)
    intro f hf
    rcases mem_cons.mp hf with rfl | hf
    · exact isPlain_render _
    · exact hinput f hf

theorem applyMetadataUpdate_rendered {u : PersistedState} (hu : u.Writable) {indices : List Nat}
    (mode : PatchSectionReadMode) {s : PersistedState}
    (hlen : s.inputFiles.length = u.inputFiles.length) :
    applyMetadataUpdate mode s (unlines (updateLines u indices)) = .ok { s with
        linkStart := u.linkStart
        output := u.output
        buildIdHashes := u.buildIdHashes
        inputFiles := setInputs s.inputFiles
          ((updatedRows u indices).map fun row => (row.1, row.2.read mode)) } := by
  have hlinkStart : parseLinkStartLine (some (renderLinkStart u)) = .ok u.linkStart :=
    parseLinkStartLine_render u.linkStart
  have hout : parseContentLine (some (renderOutput u)) "output" = .ok u.output :=
    parseContentLine_render (by decide) hu.outputHash
  have hbuildId : parseBuildIdHashLine (some (renderBuildId u)) = .ok u.buildIdHashes :=
    parseBuildIdHashLine_render hu.buildIdHashes
  have hcount : parseCount "inputs" "Invalid incremental metadata update input count"
      (some (renderCount "inputs" (updatedRows u indices).length)) =
        .ok (updatedRows u indices).length := parseCount_renderCount (by decide) _ _
  have hinputs : Reads (applyUpdatedInputs mode (updatedRows u indices).length s.inputFiles)
      ((updatedRows u indices).map updateLine)
      (setInputs s.inputFiles
        ((updatedRows u indices).map fun row => (row.1, row.2.read mode))) := by
    refine reads_applyUpdatedInputs mode ?_ ?_
    · intro row hrow
      exact hu.inputFiles _ (List.mem_of_getElem? (mem_updatedRows.mp hrow).2)
    · intro row hrow
      obtain ⟨hbound, _⟩ := List.getElem?_eq_some_iff.mp (mem_updatedRows.mp hrow).2
      rwa [hlen]
  have hrows := hinputs []
  rw [List.append_nil] at hrows
  rw [applyMetadataUpdate, lines_unlines (isLine_updateLines hu indices), updateLines]
  simp only [List.cons_append, List.nil_append, readAll, parseMetadataUpdate, Reader.bind_apply,
    Reader.expect_cons, ok_bind]
  rw [if_neg (fun h => h rfl)]
  simp only [Reader.bind_apply, ok_bind, Reader.lift_apply, Reader.ok_map, Reader.next_cons,
    hlinkStart, hout, hbuildId, hcount, hrows, Reader.finish_nil, Reader.pure_apply]

end Sld.Incremental
