/-
# `Incremental.RecordsBlock` — records as a block of text

`write_rendered_records` and `parse_compact_records_block`.  A block first
lists the distinct pairs of input file and input that its records mention
and then refers to them by position:

    section-inputs  N        then N lines  section-input  file  input
    sections        N        then N lines  section        id …
    relocs          N        then N lines  reloc2         id … target-id …
    fdes            N        then N lines  fde            id …
    dynrels         N        then N lines  dynrel         id …

The reader also accepts what older versions wrote: blocks that stop after
any of the parts, and relocation and dynamic relocation lines with fewer
fields.  Those branches are here because the reader has them; the writer
uses none of them.
-/
import Sld.Incremental.Records
import Sld.Text.Reader

namespace Sld.Incremental

open Text
open Text.Reader (expect numeral next finish orError parseNumeral times readAll)

/-! ## Lines -/

/-- `writeln!("label\t{}\t{}…")`, without the line end. -/
def labelled (label : String) (fields : List Text) : Text :=
  join '\t' (label.toList :: fields)

def parsePrefixedLine (line : Option Text) (expected : String) : Except String Text := do
  let line ← orError "Missing incremental state line" line
  let (label, rest) ← orError "Malformed incremental state line" (splitOnce '\t' line)
  if label ≠ expected.toList then
    throw s!"Expected incremental state line `{expected}`, got `{String.ofList label}`"
  pure rest

theorem parsePrefixedLine_labelled {label : String} {fs : List Text} (h : '\t' ∉ label.toList)
    (hne : fs ≠ []) : parsePrefixedLine (some (labelled label fs)) label = .ok (join '\t' fs) := by
  simp [parsePrefixedLine, labelled, splitOnce_join h hne]
  rfl

theorem parsePrefixedLine_single {label : String} (h : '\t' ∉ label.toList) (value : Text) :
    parsePrefixedLine (some (labelled label [value])) label = .ok value := by
  rw [parsePrefixedLine_labelled h (by simp), join_singleton]

/-- `OptionalRecordField` -/
def renderOptional {α : Type} [Numeral α] : Option α → Text
  | some a => Numeral.render a
  | none => absentField

/-- `(part != ABSENT_FIELD).then(|| part.parse().context(invalid)).transpose()?` -/
def parseOptional {α : Type} [Numeral α] (invalid : String) (part : Text) :
    Except String (Option α) :=
  if part ≠ absentField then do
    let a ← parseNumeral invalid part
    pure (some a)
  else pure none

/-- `(part != ABSENT_FIELD).then(|| part.to_owned())` -/
def presentText (part : Text) : Option Text :=
  if part ≠ absentField then some part else none

/-! ## Writing -/

/-- `add_section_input`, on the list of pairs alone: the map beside it
holds each pair's position in the list. -/
def addSectionInput (sectionInputs : List (Text × Text)) (pair : Text × Text) :
    List (Text × Text) :=
  if pair ∈ sectionInputs then sectionInputs else sectionInputs ++ [pair]

/-- The pairs a record list mentions, in the order `write_rendered_records` adds them. -/
def mentionedInputs (records : CompactRecords) : List (Text × Text) :=
  records.sections.map (fun r => (r.inputFile, r.input)) ++
    records.relocations.flatMap (fun r =>
      (r.inputFile, r.input) :: (r.target.map fun t => (t.inputFile, t.input)).toList) ++
    records.fdes.map (fun r => (r.inputFile, r.input)) ++
    records.dynamicRelocations.map (fun r => (r.inputFile, r.input))

def sectionInputsOf (records : CompactRecords) : List (Text × Text) :=
  (mentionedInputs records).foldl addSectionInput []

/-- `section_input_ids[&(file, input)]` -/
def sectionInputId (sectionInputs : List (Text × Text)) (file input : Text) : Nat :=
  sectionInputs.idxOf (file, input)

def renderSectionInput (pair : Text × Text) : Text :=
  labelled "section-input" [pair.1, pair.2]

def renderSection (sectionInputs : List (Text × Text)) (r : SectionRecord) : Text :=
  labelled "section"
    [Numeral.render (sectionInputId sectionInputs r.inputFile r.input),
      Numeral.render r.sectionIndex, Numeral.render r.outputOffset, Numeral.render r.size]

def renderRelocation (sectionInputs : List (Text × Text)) (r : RelocationRecord) : Text :=
  labelled "reloc2"
    [Numeral.render (sectionInputId sectionInputs r.inputFile r.input),
      Numeral.render r.sectionIndex, Numeral.render r.targetSymbolId,
      Numeral.render r.relocationOffset, Numeral.render r.outputOffset, Numeral.render r.size,
      Numeral.render r.kind, Numeral.render r.addend, renderOptional r.writtenValue,
      Numeral.render r.targetValue, r.targetName.getD absentField,
      renderOptional (r.target.map fun t => sectionInputId sectionInputs t.inputFile t.input),
      renderOptional (r.target.map (·.sectionIndex)),
      renderOptional (r.target.map (·.sectionOffset))]

def renderFde (sectionInputs : List (Text × Text)) (r : FdeRecord) : Text :=
  labelled "fde"
    [Numeral.render (sectionInputId sectionInputs r.inputFile r.input),
      Numeral.render r.sectionIndex, Numeral.render r.ehFrameSectionIndex,
      Numeral.render r.inputOffset, Numeral.render r.outputOffset, Numeral.render r.size]

/-- The two output words are written only when both are known. -/
def renderDynamicRelocation (sectionInputs : List (Text × Text))
    (r : DynamicRelocationRecord) : Text :=
  let common :=
    [Numeral.render (sectionInputId sectionInputs r.inputFile r.input),
      Numeral.render r.sectionIndex, Numeral.render r.relocationOffset,
      Numeral.render r.outputOffset, Numeral.render r.size]
  match r.outputROffset, r.outputRInfo with
  | some rOffset, some rInfo =>
    labelled "dynrel" (common ++ [Numeral.render rOffset, Numeral.render rInfo])
  | _, _ => labelled "dynrel" common

def renderCount (label : String) (n : Nat) : Text := labelled label [Numeral.render n]

/-- The lines of a block. -/
def renderedRecordLines (records : CompactRecords) : List Text :=
  let sectionInputs := sectionInputsOf records
  renderCount "section-inputs" sectionInputs.length :: sectionInputs.map renderSectionInput ++
    (renderCount "sections" records.sections.length ::
      records.sections.map (renderSection sectionInputs)) ++
    (renderCount "relocs" records.relocations.length ::
      records.relocations.map (renderRelocation sectionInputs)) ++
    (renderCount "fdes" records.fdes.length :: records.fdes.map (renderFde sectionInputs)) ++
    (renderCount "dynrels" records.dynamicRelocations.length ::
      records.dynamicRelocations.map (renderDynamicRelocation sectionInputs))

def writeRenderedRecords (records : CompactRecords) : Text :=
  unlines (renderedRecordLines records)

/-! ## Reading -/

/-- `lines.next()` as a prefixed line that holds a count. -/
def parseCount (label invalid : String) (line : Option Text) : Except String Nat := do
  let rest ← parsePrefixedLine line label
  parseNumeral invalid rest

def parseSectionInputLine (line : Text) : Except String (Text × Text) := do
  let rest ← parsePrefixedLine (some line) "section-input"
  readAll (do
    let inputFile ← expect "Malformed incremental section input file"
    let input ← expect "Malformed incremental section input"
    finish "Malformed incremental section input record"
    pure (inputFile, input)) (split '\t' rest)

def parseCompactSectionLine (sectionInputs : List (Text × Text)) (line : Text) :
    Except String SectionRecord := do
  let rest ← parsePrefixedLine (some line) "section"
  readAll (do
    let sectionInputId : Nat ← numeral "Malformed incremental section input index"
      "Invalid incremental section input index"
    let sectionIndex ← numeral "Malformed incremental section index"
      "Invalid incremental section index"
    let outputOffset ← numeral "Malformed incremental section output offset"
      "Invalid incremental section output offset"
    let size ← numeral "Malformed incremental section size" "Invalid incremental section size"
    finish "Malformed incremental section record"
    let (inputFile, input) ← orError "Incremental section input index out of bounds"
      sectionInputs[sectionInputId]?
    pure { inputFile, input, sectionIndex, outputOffset, size }) (split '\t' rest)

/-- The fields of a relocation line after the first eight. -/
structure RelocationTail where
  writtenValue : Option UInt64
  targetValue : UInt64
  targetName : Option Text
  target : Option RelocationTargetRecord

def parseTargetPosition (inputFile input index offset : Text) :
    Except String RelocationTargetRecord := do
  let sectionIndex ← parseNumeral "Invalid incremental relocation target section index" index
  let sectionOffset ← parseNumeral "Invalid incremental relocation target section offset" offset
  pure { inputFile, input, sectionIndex, sectionOffset }

/-- The tail of a `reloc2` line: the target's input is a position in the table. -/
def parseCompactTail (sectionInputs : List (Text × Text)) :
    List Text → Except String RelocationTail
  | [written, value, name, targetInput, targetIndex, targetOffset] => do
      let writtenValue ← parseOptional "Invalid incremental written relocation value" written
      let targetValue ← parseNumeral "Invalid incremental relocation target value" value
      let targetName := presentText name
      let target ←
        if targetInput = absentField ∧ targetIndex = absentField ∧ targetOffset = absentField then
          pure none
        else do
          let id : Nat ← parseNumeral "Invalid incremental relocation target input index" targetInput
          let (inputFile, input) ← orError
            "Incremental relocation target input index out of bounds" sectionInputs[id]?
          let target ← parseTargetPosition inputFile input targetIndex targetOffset
          pure (some target)
      pure { writtenValue, targetValue, targetName, target }
  | _ => throw "Malformed incremental relocation record"

/-- A target of an older line, which spells out the input. -/
def parseSpelledTarget (inputFile input index offset : Text) :
    Except String (Option RelocationTargetRecord) :=
  if inputFile = absentField ∧ input = absentField ∧ index = absentField ∧
      offset = absentField then
    pure none
  else do
    let target ← parseTargetPosition inputFile input index offset
    pure (some target)

/-- The tail of a `reloc` line of an older version. -/
def parseSpelledTail : List Text → Except String RelocationTail
  | [] => pure { writtenValue := none, targetValue := 0, targetName := none, target := none }
  | [value, name] => do
      let targetValue ← parseNumeral "Invalid incremental relocation target value" value
      pure { writtenValue := none, targetValue, targetName := presentText name, target := none }
  | [value, name, inputFile, input, index, offset] => do
      let targetValue ← parseNumeral "Invalid incremental relocation target value" value
      let target ← parseSpelledTarget inputFile input index offset
      pure { writtenValue := none, targetValue, targetName := presentText name, target }
  | [written, value, name, inputFile, input, index, offset] => do
      let writtenValue ← parseOptional "Invalid incremental written relocation value" written
      let targetValue ← parseNumeral "Invalid incremental relocation target value" value
      let target ← parseSpelledTarget inputFile input index offset
      pure { writtenValue, targetValue, targetName := presentText name, target }
  | _ => throw "Malformed incremental relocation record"

def parseCompactRelocationLine (sectionInputs : List (Text × Text)) (line : Text) :
    Except String RelocationRecord := do
  let isCompactTarget := startsWith line "reloc2\t".toList
  let rest ← parsePrefixedLine (some line) (if isCompactTarget then "reloc2" else "reloc")
  readAll (do
    let sectionInputId : Nat ← numeral "Malformed incremental relocation input index"
      "Invalid incremental relocation input index"
    let sectionIndex ← numeral "Malformed incremental relocation section index"
      "Invalid incremental relocation section index"
    let targetSymbolId ← numeral "Malformed incremental relocation target symbol"
      "Invalid incremental relocation target symbol"
    let relocationOffset ← numeral "Malformed incremental relocation input offset"
      "Invalid incremental relocation input offset"
    let outputOffset ← numeral "Malformed incremental relocation output offset"
      "Invalid incremental relocation output offset"
    let size ← numeral "Malformed incremental relocation size"
      "Invalid incremental relocation size"
    let kind ← numeral "Malformed incremental relocation kind"
      "Invalid incremental relocation kind"
    let addend ← numeral "Malformed incremental relocation addend"
      "Invalid incremental relocation addend"
    let parts ← get
    let tail ← if isCompactTarget then parseCompactTail sectionInputs parts
      else parseSpelledTail parts
    let (inputFile, input) ← orError "Incremental relocation input index out of bounds"
      sectionInputs[sectionInputId]?
    pure {
      targetSymbolId, inputFile, input, sectionIndex, relocationOffset, outputOffset, size,
      kind, addend, writtenValue := tail.writtenValue, targetValue := tail.targetValue,
      targetName := tail.targetName, target := tail.target }) (split '\t' rest)

def parseCompactFdeLine (sectionInputs : List (Text × Text)) (line : Text) :
    Except String FdeRecord := do
  let rest ← parsePrefixedLine (some line) "fde"
  readAll (do
    let sectionInputId : Nat ← numeral "Malformed incremental FDE input index"
      "Invalid incremental FDE input index"
    let sectionIndex ← numeral "Malformed incremental FDE section index"
      "Invalid incremental FDE section index"
    let ehFrameSectionIndex ← numeral "Malformed incremental FDE .eh_frame section index"
      "Invalid incremental FDE .eh_frame section index"
    let inputOffset ← numeral "Malformed incremental FDE input offset"
      "Invalid incremental FDE input offset"
    let outputOffset ← numeral "Malformed incremental FDE output offset"
      "Invalid incremental FDE output offset"
    let size ← numeral "Malformed incremental FDE size" "Invalid incremental FDE size"
    finish "Malformed incremental FDE record"
    let (inputFile, input) ← orError "Incremental FDE input index out of bounds"
      sectionInputs[sectionInputId]?
    pure {
      inputFile, input, sectionIndex, ehFrameSectionIndex, inputOffset, outputOffset,
      size := size }) (split '\t' rest)

/-- The offsets of a dynamic relocation line, by how many fields it has. -/
def parseDynamicTail : List Text →
    Except String (UInt64 × UInt64 × UInt64 × Option UInt64 × Option UInt64)
  | [outputOffset, size] => do
      let outputOffset ← parseNumeral
        "Invalid incremental dynamic relocation output offset" outputOffset
      let size ← parseNumeral "Invalid incremental dynamic relocation size" size
      pure (0, outputOffset, size, none, none)
  | [relocationOffset, outputOffset, size] => do
      let relocationOffset ← parseNumeral
        "Invalid incremental dynamic relocation input offset" relocationOffset
      let outputOffset ← parseNumeral
        "Invalid incremental dynamic relocation output offset" outputOffset
      let size ← parseNumeral "Invalid incremental dynamic relocation size" size
      pure (relocationOffset, outputOffset, size, none, none)
  | [relocationOffset, outputOffset, size, rOffset, rInfo] => do
      let relocationOffset ← parseNumeral
        "Invalid incremental dynamic relocation input offset" relocationOffset
      let outputOffset ← parseNumeral
        "Invalid incremental dynamic relocation output offset" outputOffset
      let size ← parseNumeral "Invalid incremental dynamic relocation size" size
      let rOffset ← parseNumeral
        "Invalid incremental dynamic relocation output r_offset" rOffset
      let rInfo ← parseNumeral "Invalid incremental dynamic relocation output r_info" rInfo
      pure (relocationOffset, outputOffset, size, some rOffset, some rInfo)
  | _ => throw "Malformed incremental dynamic relocation record"

def parseCompactDynamicRelocationLine (sectionInputs : List (Text × Text)) (line : Text) :
    Except String DynamicRelocationRecord := do
  let rest ← parsePrefixedLine (some line) "dynrel"
  readAll (do
    let sectionInputId : Nat ← numeral "Malformed incremental dynamic relocation input index"
      "Invalid incremental dynamic relocation input index"
    let sectionIndex ← numeral "Malformed incremental dynamic relocation section index"
      "Invalid incremental dynamic relocation section index"
    let (relocationOffset, outputOffset, size, outputROffset, outputRInfo) ←
      parseDynamicTail (← get)
    let (inputFile, input) ← orError
      "Incremental dynamic relocation input index out of bounds" sectionInputs[sectionInputId]?
    pure {
      inputFile, input, sectionIndex, relocationOffset, outputOffset, size,
      outputROffset := outputROffset, outputRInfo := outputRInfo }) (split '\t' rest)

/-- An optional part of a block: its count line has been taken already. -/
def parsePart {α : Type} (label invalid missing : String) (parseLine : Text → Except String α)
    (nextLine : Option Text) : Reader (List α × Option Text) :=
  if nextLine.any fun line => startsWith line (label.toList ++ ['\t']) then do
    let count ← parseCount label invalid nextLine
    let records ← times (do parseLine (← expect missing)) count
    pure (records, ← next)
  else pure ([], nextLine)

def parseCompactRecordsBlock : Reader CompactRecords := do
  let sectionInputCount ← parseCount "section-inputs"
    "Invalid incremental section input count" (← next)
  let sectionInputs ← times (do
    parseSectionInputLine (← expect "Missing incremental section input record")) sectionInputCount
  let sectionCount ← parseCount "sections" "Invalid incremental section count" (← next)
  let sections ← times (do
    parseCompactSectionLine sectionInputs (← expect "Missing incremental section record"))
    sectionCount
  let (relocations, nextLine) ← parsePart "relocs" "Invalid incremental relocation count"
    "Missing incremental relocation record" (parseCompactRelocationLine sectionInputs) (← next)
  let (fdes, nextLine) ← parsePart "fdes" "Invalid incremental FDE count"
    "Missing incremental FDE record" (parseCompactFdeLine sectionInputs) nextLine
  let (dynamicRelocations, nextLine) ← parsePart "dynrels"
    "Invalid incremental dynamic relocation count"
    "Missing incremental dynamic relocation record"
    (parseCompactDynamicRelocationLine sectionInputs) nextLine
  if nextLine.isSome then throw "Unexpected trailing incremental section data"
  finish "Unexpected trailing incremental section data"
  pure { sections, relocations, fdes, dynamicRelocations }

end Sld.Incremental
