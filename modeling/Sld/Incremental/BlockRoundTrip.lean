/-
# `Incremental.BlockRoundTrip` — a block of records is read back as it was written

`parseCompactRecordsBlock_written` is the round trip of one block.  It
holds for the records the format can express (`Representable`), and what
it leaves out is exactly what the text cannot tell apart:

  * a target name `-` reads as an absent name;
  * a dynamic relocation with only one of its two output words loses it;
  * an input text that ends in `\r` loses that `\r` at the end of its line.

The linker never builds such records: names and inputs are hexadecimal,
and the two words are set together.
-/
import Sld.Incremental.RecordsBlock

namespace Sld.Incremental

open Text
open Text.Reader (readAll next expect readAll_split_join)
open List (mem_append mem_cons mem_flatMap mem_map)
open Reader.Reads (cons expect lift times_map)
open Reader (ok_bind times)

/-! ## What the format can express -/

/-- A pair of input file and input that fits on a `section-input` line. -/
def InputFits (inputFile input : Text) : Prop :=
  IsField inputFile ∧ IsField input ∧ input.getLast? ≠ some '\r'

instance (inputFile input : Text) : Decidable (InputFits inputFile input) :=
  inferInstanceAs (Decidable (_ ∧ _ ∧ _))

structure RelocationRecord.Fits (r : RelocationRecord) : Prop where
  input : InputFits r.inputFile r.input
  name : ∀ name, r.targetName = some name → IsField name ∧ name ≠ absentField
  target : ∀ t, r.target = some t → InputFits t.inputFile t.input

structure DynamicRelocationRecord.Fits (r : DynamicRelocationRecord) : Prop where
  input : InputFits r.inputFile r.input
  words : r.outputROffset.isSome = r.outputRInfo.isSome

/-- The records a block can hold without loss. -/
structure Representable (records : CompactRecords) : Prop where
  sections : ∀ r ∈ records.sections, InputFits r.inputFile r.input
  relocations : ∀ r ∈ records.relocations, r.Fits
  fdes : ∀ r ∈ records.fdes, InputFits r.inputFile r.input
  dynamicRelocations : ∀ r ∈ records.dynamicRelocations, r.Fits

/-! ## The table of inputs -/

variable {p q : Text × Text}

theorem mem_addSectionInput {l : List (Text × Text)} : q ∈ addSectionInput l p ↔ q ∈ l ∨ q = p := by
  rw [addSectionInput]
  split
  · rename_i h
    exact ⟨.inl, fun hq => hq.elim id fun e => e ▸ h⟩
  · simp

theorem mem_foldl_addSectionInput :
    ∀ {ps l : List (Text × Text)}, q ∈ ps.foldl addSectionInput l ↔ q ∈ l ∨ q ∈ ps
  | [], l => by simp
  | p :: ps, l => by
    rw [List.foldl_cons, mem_foldl_addSectionInput, mem_addSectionInput, mem_cons, or_assoc]

variable {records : CompactRecords}

theorem mem_sectionInputsOf : q ∈ sectionInputsOf records ↔ q ∈ mentionedInputs records := by
  simp [sectionInputsOf, mem_foldl_addSectionInput]

theorem getElem?_sectionInputId {table : List (Text × Text)} {file input : Text}
    (h : (file, input) ∈ table) : table[sectionInputId table file input]? = some (file, input) :=
  List.getElem?_idxOf h

section

variable {records : CompactRecords}

theorem section_mem_inputs {r : SectionRecord} (h : r ∈ records.sections) :
    (r.inputFile, r.input) ∈ sectionInputsOf records := by
  rw [mem_sectionInputsOf, mentionedInputs]
  simp only [mem_append, mem_map]
  exact .inl (.inl (.inl ⟨r, h, rfl⟩))

variable {r : RelocationRecord}

theorem relocation_mem_inputs (h : r ∈ records.relocations) :
    (r.inputFile, r.input) ∈ sectionInputsOf records := by
  rw [mem_sectionInputsOf, mentionedInputs]
  simp only [mem_append, mem_flatMap]
  exact .inl (.inl (.inr ⟨r, h, List.mem_cons_self⟩))

theorem target_mem_inputs {t : RelocationTargetRecord}
    (h : r ∈ records.relocations) (ht : r.target = some t) :
    (t.inputFile, t.input) ∈ sectionInputsOf records := by
  rw [mem_sectionInputsOf, mentionedInputs]
  simp only [mem_append, mem_flatMap]
  exact .inl (.inl (.inr ⟨r, h, by simp [ht]⟩))

theorem fde_mem_inputs {r : FdeRecord} (h : r ∈ records.fdes) :
    (r.inputFile, r.input) ∈ sectionInputsOf records := by
  rw [mem_sectionInputsOf, mentionedInputs]
  simp only [mem_append, mem_map]
  exact .inl (.inr ⟨r, h, rfl⟩)

theorem dynamicRelocation_mem_inputs {r : DynamicRelocationRecord}
    (h : r ∈ records.dynamicRelocations) :
    (r.inputFile, r.input) ∈ sectionInputsOf records := by
  rw [mem_sectionInputsOf, mentionedInputs]
  simp only [mem_append, mem_map]
  exact .inr ⟨r, h, rfl⟩

theorem inputFits_of_mem (hr : Representable records) {p : Text × Text}
    (h : p ∈ sectionInputsOf records) : InputFits p.1 p.2 := by
  rw [mem_sectionInputsOf, mentionedInputs] at h
  simp only [mem_append, mem_map, mem_flatMap, mem_cons,
    Option.mem_toList, Option.map_eq_some_iff] at h
  rcases h with ((⟨r, hm, rfl⟩ | ⟨r, hm, rfl | ⟨t, ht, rfl⟩⟩) | ⟨r, hm, rfl⟩) | ⟨r, hm, rfl⟩
  · exact hr.sections r hm
  · exact (hr.relocations r hm).input
  · exact (hr.relocations r hm).target t ht
  · exact hr.fdes r hm
  · exact (hr.dynamicRelocations r hm).input

end

/-! ## Single lines -/

variable {α : Type}

theorem tab_not_mem_renderOptional [Numeral α] (o : Option α) : '\t' ∉ renderOptional o := by
  cases o with
  | none => exact show '\t' ∉ absentField by decide
  | some a => exact not_mem_render (by decide)

theorem parseOptional_renderOptional [Numeral α] (invalid : String) (o : Option α) :
    parseOptional invalid (renderOptional o) = .ok o := by
  cases o with
  | none => rfl
  | some a =>
    have hne : Numeral.render a ≠ absentField := render_ne_absent a
    simp [parseOptional, renderOptional, hne]

theorem presentText_getD {name : Option Text} (h : ∀ n, name = some n → n ≠ absentField) :
    presentText (name.getD absentField) = name := by
  cases name with
  | none => rfl
  | some n => exact if_pos (h n rfl)

theorem parseSectionInputLine_render (h : InputFits p.1 p.2) :
    parseSectionInputLine (renderSectionInput p) = .ok p := by
  rw [parseSectionInputLine, renderSectionInput, parsePrefixedLine_labelled (by decide) (by simp),
    ok_bind, readAll_split_join (by simp [h.1.1, h.2.1.1]) (by simp)]
  simp [readAll]

section

variable {table : List (Text × Text)}

theorem parseCompactSectionLine_render {r : SectionRecord} (h : (r.inputFile, r.input) ∈ table) :
    parseCompactSectionLine table (renderSection table r) = .ok r := by
  rw [parseCompactSectionLine, renderSection, parsePrefixedLine_labelled (by decide) (by simp),
    ok_bind, readAll_split_join (by simp [not_mem_render, IsNumeric]) (by simp)]
  simp [readAll, getElem?_sectionInputId h]

theorem parseCompactFdeLine_render {r : FdeRecord} (h : (r.inputFile, r.input) ∈ table) :
    parseCompactFdeLine table (renderFde table r) = .ok r := by
  rw [parseCompactFdeLine, renderFde, parsePrefixedLine_labelled (by decide) (by simp),
    ok_bind, readAll_split_join (by simp [not_mem_render, IsNumeric]) (by simp)]
  simp [readAll, getElem?_sectionInputId h]

/-- The last six fields of a relocation line. -/
def renderTail (table : List (Text × Text)) (r : RelocationRecord) : List Text :=
  [renderOptional r.writtenValue, Numeral.render r.targetValue, r.targetName.getD absentField,
    renderOptional (r.target.map fun t => sectionInputId table t.inputFile t.input),
    renderOptional (r.target.map (·.sectionIndex)),
    renderOptional (r.target.map (·.sectionOffset))]

variable {r : RelocationRecord}

theorem parseCompactTail_render (hfits : r.Fits)
    (htarget : ∀ t, r.target = some t → (t.inputFile, t.input) ∈ table) :
    parseCompactTail table (renderTail table r) =
      .ok { writtenValue := r.writtenValue, targetValue := r.targetValue,
            targetName := r.targetName, target := r.target } := by
  have hname : presentText (r.targetName.getD absentField) = r.targetName :=
    presentText_getD fun n hn => (hfits.name n hn).2
  rw [renderTail, parseCompactTail]
  simp only [parseOptional_renderOptional, Reader.parseNumeral_render, ok_bind, hname]
  cases ht : r.target with
  | none => rfl
  | some t =>
    have hne : Numeral.render (sectionInputId table t.inputFile t.input) ≠ absentField :=
      render_ne_absent _
    simp [renderOptional, hne, parseTargetPosition, getElem?_sectionInputId (htarget t ht)]

theorem parseCompactRelocationLine_render (h : (r.inputFile, r.input) ∈ table) (hfits : r.Fits)
    (htarget : ∀ t, r.target = some t → (t.inputFile, t.input) ∈ table) :
    parseCompactRelocationLine table (renderRelocation table r) = .ok r := by
  have hlabel : startsWith (renderRelocation table r) "reloc2\t".toList = true :=
    startsWith_append _ _
  have hname : '\t' ∉ r.targetName.getD absentField := by
    cases hn : r.targetName with
    | none => exact show '\t' ∉ absentField by decide
    | some n => exact (hfits.name n hn).1.1
  rw [parseCompactRelocationLine, hlabel, if_pos rfl, renderRelocation,
    parsePrefixedLine_labelled (by decide) (by simp), ok_bind,
    readAll_split_join
      (by simp [not_mem_render, IsNumeric, tab_not_mem_renderOptional, hname]) (by simp)]
  have htail := parseCompactTail_render hfits htarget
  rw [renderTail] at htail
  simp [readAll, getElem?_sectionInputId h, htail]

theorem parseCompactDynamicRelocationLine_render {r : DynamicRelocationRecord}
    (h : (r.inputFile, r.input) ∈ table) (hfits : r.Fits) :
    parseCompactDynamicRelocationLine table (renderDynamicRelocation table r) = .ok r := by
  obtain ⟨inputFile, input, sectionIndex, relocationOffset, outputOffset, size, rOffset, rInfo⟩ := r
  have hwords : rOffset.isSome = rInfo.isSome := hfits.words
  -- the two words are recorded together
  match rOffset, rInfo, hwords with
  | none, none, _ | some _, some _, _ =>
    rw [parseCompactDynamicRelocationLine, renderDynamicRelocation,
      parsePrefixedLine_labelled (by decide) (by simp), ok_bind,
      readAll_split_join (by simp [not_mem_render, IsNumeric]) (by simp)]
    simp [readAll, parseDynamicTail, getElem?_sectionInputId h]

end

/-! ## The block -/

variable {label : String}

theorem parseCount_renderCount (h : '\t' ∉ label.toList) (invalid : String)
    (n : Nat) : parseCount label invalid (some (renderCount label n)) = .ok n := by
  rw [parseCount, renderCount, parsePrefixedLine_labelled h (by simp)]
  simp [join]

theorem startsWith_renderCount (label : String) (n : Nat) :
    startsWith (renderCount label n) (label.toList ++ ['\t']) = true := by
  have h : renderCount label n = (label.toList ++ ['\t']) ++ Numeral.render n := by
    simp [renderCount, labelled, join]
  rw [h]
  exact startsWith_append _ _

theorem parsePart_written {invalid missing : String}
    {parseLine : Text → Except String α} {enc : α → Text} {rs : List α} (rest : List Text)
    (hlabel : '\t' ∉ label.toList) (h : ∀ r ∈ rs, parseLine (enc r) = .ok r) :
    parsePart label invalid missing parseLine (some (renderCount label rs.length))
      (rs.map enc ++ rest) = .ok ((rs, rest.head?), rest.tail) := by
  have hlines : Reader.Reads (times (do let line ← expect missing; parseLine line) rs.length)
      (rs.map enc) rs :=
    times_map fun r hr =>
      cons (expect missing _) (lift (h r hr))
  have hnext : next rest = .ok (rest.head?, rest.tail) := by cases rest <;> rfl
  rw [parsePart, Option.any_some, startsWith_renderCount, if_pos rfl, parseCount_renderCount hlabel]
  simp [hlines rest, hnext]

theorem parseCompactRecordsBlock_rendered (h : Representable records) :
    readAll parseCompactRecordsBlock (renderedRecordLines records) = .ok records := by
  have hinputs : Reader.Reads (times (do
        let line ← expect "Missing incremental section input record"
        parseSectionInputLine line) (sectionInputsOf records).length)
      ((sectionInputsOf records).map renderSectionInput) (sectionInputsOf records) :=
    times_map fun p hp =>
      cons (expect _ _)
        (lift (parseSectionInputLine_render (inputFits_of_mem h hp)))
  have hsecs : Reader.Reads (times (do
        let line ← expect "Missing incremental section record"
        parseCompactSectionLine (sectionInputsOf records) line) records.sections.length)
      (records.sections.map (renderSection (sectionInputsOf records))) records.sections :=
    times_map fun r hr =>
      cons (expect _ _)
        (lift (parseCompactSectionLine_render (section_mem_inputs hr)))
  have hrels : ∀ r ∈ records.relocations, parseCompactRelocationLine
      (sectionInputsOf records) (renderRelocation (sectionInputsOf records) r) = .ok r :=
    fun r hr => parseCompactRelocationLine_render (relocation_mem_inputs hr) (h.relocations r hr)
      fun _ ht => target_mem_inputs hr ht
  have hfdes : ∀ r ∈ records.fdes, parseCompactFdeLine
      (sectionInputsOf records) (renderFde (sectionInputsOf records) r) = .ok r :=
    fun r hr => parseCompactFdeLine_render (fde_mem_inputs hr)
  have hdyn : ∀ r ∈ records.dynamicRelocations, parseCompactDynamicRelocationLine
      (sectionInputsOf records) (renderDynamicRelocation (sectionInputsOf records) r) = .ok r :=
    fun r hr => parseCompactDynamicRelocationLine_render (dynamicRelocation_mem_inputs hr)
      (h.dynamicRelocations r hr)
  simp only [readAll, parseCompactRecordsBlock, renderedRecordLines, List.cons_append,
    List.append_assoc]
  simp [parseCount_renderCount, hinputs _, hsecs _,
    parsePart_written _ _ hrels, parsePart_written _ _ hfdes]
  have hlast : parsePart "dynrels" "Invalid incremental dynamic relocation count"
      "Missing incremental dynamic relocation record"
      (parseCompactDynamicRelocationLine (sectionInputsOf records))
      (some (renderCount "dynrels" records.dynamicRelocations.length))
      (records.dynamicRelocations.map (renderDynamicRelocation (sectionInputsOf records)) ++ []) =
        .ok ((records.dynamicRelocations, none), []) :=
    parsePart_written [] (by decide) hdyn
  rw [List.append_nil] at hlast
  simp [hlast]

/-! ## The block as text -/

variable {fs : List Text}

theorem isLine_labelled (hlabel : IsField label.toList) (h : ∀ f ∈ fs, IsField f) (hne : fs ≠ [])
    (hlast : ∀ f, fs.getLast? = some f → f.getLast? ≠ some '\r') : IsLine (labelled label fs) := by
  refine isLine_join ?_ ?_
  · intro f hf
    rcases mem_cons.mp hf with rfl | hf
    · exact hlabel
    · exact h f hf
  · intro f hf
    rw [List.getLast?_cons, List.getLast?_eq_getLast_of_ne_nil hne] at hf
    exact hlast f (by rw [List.getLast?_eq_getLast_of_ne_nil hne]; exact hf)

theorem isLine_labelled_of_plain
    (hlabel : IsField label.toList) (h : ∀ f ∈ fs, IsPlain f) (hne : fs ≠ []) :
    IsLine (labelled label fs) :=
  isLine_labelled hlabel (fun f hf => (h f hf).isField) hne
    fun _ hf => (h _ (List.mem_of_getLast? hf)).getLast?

theorem isPlain_renderOptional [Numeral α] (o : Option α) : IsPlain (renderOptional o) := by
  cases o with
  | none => exact show IsPlain absentField by decide
  | some a => exact isPlain_render a

theorem isLine_renderCount (h : IsField label.toList) (n : Nat) : IsLine (renderCount label n) :=
  isLine_labelled_of_plain h (by simp [isPlain_render]) (by simp)

theorem isLine_renderSectionInput (h : InputFits p.1 p.2) : IsLine (renderSectionInput p) :=
  isLine_labelled (by decide) (by simp [h.1, h.2.1]) (by simp) (by simp [h.2.2])

theorem isLine_renderSection (table : List (Text × Text)) (r : SectionRecord) :
    IsLine (renderSection table r) :=
  isLine_labelled_of_plain (by decide) (by simp [isPlain_render]) (by simp)

theorem isLine_renderRelocation (table : List (Text × Text)) {r : RelocationRecord}
    (h : r.Fits) : IsLine (renderRelocation table r) := by
  have hname : IsField (r.targetName.getD absentField) := by
    cases hn : r.targetName with
    | none => exact show IsField absentField by decide
    | some n => exact (h.name n hn).1
  refine isLine_labelled (by decide) ?_ (by simp) ?_
  · simp [(isPlain_render _).isField, (isPlain_renderOptional _).isField, hname]
  · simp [(isPlain_renderOptional _).getLast?]

theorem isLine_renderFde (table : List (Text × Text)) (r : FdeRecord) :
    IsLine (renderFde table r) :=
  isLine_labelled_of_plain (by decide) (by simp [isPlain_render]) (by simp)

theorem isLine_renderDynamicRelocation (table : List (Text × Text))
    (r : DynamicRelocationRecord) : IsLine (renderDynamicRelocation table r) := by
  rw [renderDynamicRelocation]
  split <;> exact isLine_labelled_of_plain (by decide) (by simp [isPlain_render]) (by simp)

theorem isLine_of_mem_rendered (h : Representable records)
    {l : Text} (hl : l ∈ renderedRecordLines records) : IsLine l := by
  simp only [renderedRecordLines, List.cons_append, mem_append, mem_cons, mem_map] at hl
  rcases hl with rfl | ((((⟨p, hp, rfl⟩ | rfl | ⟨r, _, rfl⟩) | rfl | ⟨r, hr, rfl⟩) |
    rfl | ⟨r, _, rfl⟩) | rfl | ⟨r, _, rfl⟩)
  · exact isLine_renderCount (by decide) _
  · exact isLine_renderSectionInput (inputFits_of_mem h hp)
  · exact isLine_renderCount (by decide) _
  · exact isLine_renderSection _ r
  · exact isLine_renderCount (by decide) _
  · exact isLine_renderRelocation _ (h.relocations r hr)
  · exact isLine_renderCount (by decide) _
  · exact isLine_renderFde _ r
  · exact isLine_renderCount (by decide) _
  · exact isLine_renderDynamicRelocation _ r

/-- **The round trip of a block.** -/
theorem parseCompactRecordsBlock_written (h : Representable records) :
    readAll parseCompactRecordsBlock (lines (writeRenderedRecords records)) = .ok records := by
  rw [writeRenderedRecords, lines_unlines fun l hl => isLine_of_mem_rendered h hl]
  exact parseCompactRecordsBlock_rendered h

end Sld.Incremental
