/-
# `Strings.PatchRecords` — merge sections that a patch may rewrite in place

A merge section whose strings are the kept copies, one after the other in the
output, is recorded as a range of the output.  A kept copy is recognised by
its address: the slice that `add_string` was given first.  The sections are
apart in memory, so an offset of the linear space stands for the address.

The range of a record holds the section, and no two records overlap
(`OwnedBy`).  The kept copy says nothing about later sections that have the
same string: they resolve to it as well, so a record is safe exactly when no
other section shares a string (`patch_record_safe_iff`).
-/
import Sld.Strings.FindString

namespace Sld.Strings

open Store (window getElem?_window)

/-! ## The kept copies -/

/-- A piece of the input: its address and its bytes. -/
abbrev Slice := ℕ × Bytes

/-- What `add_string` pushes to the strings of a bucket. -/
def keepSlice (kept : List Slice) (slice : Slice) : List Slice :=
  if kept.any (fun copy => copy.2 == slice.2) then kept else kept ++ [slice]

/-- The strings of a bucket, as the slices that were kept. -/
def keptSlices (hash : Bytes → UInt64) (all : List (ℕ × Bytes)) (bucket : ℕ) : List Slice :=
  (all.filter fun entry => (bucketOf hash entry.2 : ℕ) = bucket).foldl keepSlice []

/-! ## Records -/

/-- The loop of `owns_string_at`. -/
def ownsStringAt (offset : ℕ) (string : Slice) : ℕ → List Slice → Bool
  | _, [] => false
  | currentOffset, candidate :: candidates =>
    if currentOffset = offset then
      candidate.2.length == string.2.length && candidate.1 == string.1
    else if offset < currentOffset then false
    else ownsStringAt offset string (currentOffset + candidate.2.length) candidates

structure MergeStringPatchRecord where
  outputOffset : ℕ
  size : ℕ
deriving DecidableEq

namespace MergedStringsSection

variable (merged : MergedStringsSection) (slices : ℕ → List Slice)

def outputOffsetIfOwned (inputOffset : ℕ) (string : Bytes) : Option ℕ :=
  match merged.stringOffsetAtInput inputOffset with
  | none => none
  | some b =>
    if ownsStringAt b.offsetInBucket (inputOffset, string) 0 (slices b.bucket) then
      some (merged.bucketOffsets b.bucket + b.offsetInBucket)
    else none

end MergedStringsSection

/-- `take_string_hashed` or `take_hashed` -/
def takePiece (isString : Bool) (source : Bytes) : Except String (Bytes × Bytes) :=
  if isString then takeString source else .ok (source, [])

theorem takePiece_eq_ok {isString : Bool} {byte : UInt8} {tail string rest : Bytes}
    (h : takePiece isString (byte :: tail) = .ok (string, rest)) :
    byte :: tail = string ++ rest ∧ 0 < string.length ∧
      (isString = true → Terminated string) ∧ (isString = false → rest = []) := by
  cases isString with
  | true =>
    obtain ⟨hterm, hsource⟩ := takeString_eq_ok h
    refine ⟨hsource, List.length_pos_of_ne_nil hterm.ne_nil, fun _ => hterm, ?_⟩
    intro hfalse
    cases hfalse
  | false =>
    cases h
    refine ⟨(List.append_nil _).symm, Nat.succ_pos _, ?_, fun _ => rfl⟩
    intro htrue
    cases htrue

/-- The loop of `patch_record_for_input_section`: the output offset of the first
string, if all of them are kept one after the other. -/
def recordLoop (owned : ℕ → Bytes → Option ℕ) (isString : Bool) (inputOffset : ℕ)
    (remaining : Bytes) (firstOutputOffset : Option ℕ) (nextOutputOffset : ℕ) :
    Except String (Option ℕ) :=
  match remaining with
  | [] => .ok firstOutputOffset
  | byte :: tail =>
    match _h : takePiece isString (byte :: tail) with
    | .error e => .error e
    | .ok (string, rest) =>
      match owned inputOffset string with
      | none => .ok none
      | some outputOffset =>
        match firstOutputOffset with
        | none => recordLoop owned isString (inputOffset + string.length) rest
            (some outputOffset) (outputOffset + string.length)
        | some first =>
          if outputOffset = nextOutputOffset then
            recordLoop owned isString (inputOffset + string.length) rest (some first)
              (outputOffset + string.length)
          else .ok none
termination_by remaining.length
decreasing_by
  all_goals
    obtain ⟨hsource, hpos, -⟩ := takePiece_eq_ok _h
    have := congrArg List.length hsource
    rw [List.length_append] at this
    omega

def MergedStringsSection.patchRecordForInputSection (merged : MergedStringsSection)
    (slices : ℕ → List Slice) (sec : StringMergeInputSection) :
    Except String (Option MergeStringPatchRecord) :=
  match sec.sectionData with
  | [] => .ok none
  | byte :: tail =>
    (recordLoop (merged.outputOffsetIfOwned slices) sec.isString sec.startInputOffset
      (byte :: tail) none 0).map fun first =>
        first.map fun outputOffset => ⟨outputOffset, sec.sectionData.length⟩

/-! ## What the loop has seen -/

/-- The pieces of the bytes, one after the other in the output. -/
inductive InLine (owned : ℕ → Bytes → Option ℕ) (isString : Bool) : ℕ → Bytes → ℕ → Prop
  | nil {inputOffset next : ℕ} : InLine owned isString inputOffset [] next
  | cons {inputOffset next : ℕ} {string rest : Bytes} (pos : 0 < string.length)
      (terminated : isString = true → Terminated string)
      (whole : isString = false → rest = [])
      (owns : owned inputOffset string = some next)
      (tail : InLine owned isString (inputOffset + string.length) rest (next + string.length)) :
      InLine owned isString inputOffset (string ++ rest) next

section

variable {owned : ℕ → Bytes → Option ℕ} {isString : Bool}

variable {inputOffset next result : ℕ}

theorem inLine_of_recordLoop {remaining : Bytes} {first : ℕ}
    (h : recordLoop owned isString inputOffset remaining (some first) next = .ok (some result)) :
    result = first ∧ InLine owned isString inputOffset remaining next := by
  induction hlen : remaining.length using Nat.strong_induction_on
    generalizing inputOffset remaining next with
  | _ length ih =>
    rw [recordLoop.eq_def] at h
    cases remaining with
    | nil =>
      cases Except.ok.inj h
      exact ⟨rfl, .nil⟩
    | cons byte tail =>
      dsimp only at h
      split at h
      next => cases h
      next string rest hpiece =>
        obtain ⟨hsource, hpos, hterm, hwhole⟩ := takePiece_eq_ok hpiece
        split at h
        next => cases h
        next outputOffset howned =>
          split at h
          next hnext =>
            subst hnext
            have hshorter : rest.length < length := by
              have := congrArg List.length hsource
              rw [List.length_append] at this
              omega
            obtain ⟨hres, htail⟩ := ih rest.length hshorter h rfl
            rw [hsource]
            exact ⟨hres, .cons hpos hterm hwhole howned htail⟩
          next => cases h

theorem inLine_of_recordLoop_none {byte : UInt8} {tail : Bytes}
    (h : recordLoop owned isString inputOffset (byte :: tail) none next = .ok (some result)) :
    InLine owned isString inputOffset (byte :: tail) result := by
  rw [recordLoop.eq_def] at h
  dsimp only at h
  split at h
  next => cases h
  next string rest hpiece =>
    obtain ⟨hsource, hpos, hterm, hwhole⟩ := takePiece_eq_ok hpiece
    split at h
    next => cases h
    next outputOffset howned =>
      obtain ⟨rfl, htail⟩ := inLine_of_recordLoop h
      rw [hsource]
      exact .cons hpos hterm hwhole howned htail

variable {bytes : Bytes}

theorem recordLoop_single {outputOffset : ℕ} (hbytes : bytes ≠ [])
    (hpiece : takePiece isString bytes = .ok (bytes, []))
    (howned : owned inputOffset bytes = some outputOffset) :
    recordLoop owned isString inputOffset bytes none 0 = .ok (some outputOffset) := by
  cases bytes with
  | nil => exact absurd rfl hbytes
  | cons byte tail =>
    rw [recordLoop.eq_def]
    dsimp only
    split
    next e herror =>
      rw [hpiece] at herror
      cases herror
    next string rest heq =>
      obtain ⟨rfl, rfl⟩ := Prod.mk.inj (Except.ok.inj (hpiece.symm.trans heq))
      rw [howned]
      dsimp only
      rw [recordLoop.eq_def]

theorem InLine.owns (h : InLine owned true inputOffset bytes next) :
    ∀ offset string, StartsAt bytes offset string →
      owned (inputOffset + offset) string = some (next + offset) := by
  induction h with
  | nil =>
    intro offset string hstarts
    have := hstarts.lt
    rw [List.length_nil] at this
    omega
  | cons pos terminated whole howns tail ih =>
    intro offset string hstarts
    rcases (startsAt_append (terminated rfl)).mp hstarts with ⟨rfl, rfl⟩ | ⟨hle, hrest⟩
    · exact howns
    · have := ih _ _ hrest
      rwa [Nat.add_assoc, Nat.add_assoc, Nat.add_sub_cancel' hle] at this

theorem InLine.covers (h : InLine owned true inputOffset bytes next) :
    ∀ k < bytes.length, ∃ offset string, StartsAt bytes offset string ∧ offset ≤ k ∧
      k < offset + string.length := by
  induction h with
  | nil =>
    intro k hk
    exact absurd hk (Nat.not_lt_zero k)
  | @cons _ _ string rest pos terminated whole howns tail ih =>
    intro k hk
    rcases Nat.lt_or_ge k string.length with hlt | hge
    · exact ⟨0, string, (startsAt_append (terminated rfl)).mpr (.inl ⟨rfl, rfl⟩),
        Nat.zero_le k, by omega⟩
    · rw [List.length_append] at hk
      obtain ⟨offset, other, hstarts, hle, hlt⟩ := ih (k - string.length) (by omega)
      refine ⟨string.length + offset, other, ?_, by omega, by omega⟩
      refine (startsAt_append (terminated rfl)).mpr (.inr ⟨Nat.le_add_right _ _, ?_⟩)
      rwa [Nat.add_sub_cancel_left]

theorem InLine.whole (h : InLine owned false inputOffset bytes next) (hbytes : bytes ≠ []) :
    owned inputOffset bytes = some next := by
  cases h with
  | nil => exact absurd rfl hbytes
  | cons pos terminated whole howns tail =>
    rw [whole rfl, List.append_nil]
    exact howns

end

/-- The strings of the section are owned, one after the other from `first` on, and
there is nothing else in it. -/
structure OwnedBy (owned : ℕ → Bytes → Option ℕ) (sec : StringMergeInputSection) (first : ℕ) :
    Prop where
  owns : ∀ offset string, sec.StringAt offset string →
    owned (sec.startInputOffset + offset) string = some (first + offset)
  covers : ∀ k < sec.sectionData.length, ∃ offset string, sec.StringAt offset string ∧
    offset ≤ k ∧ k < offset + string.length

variable {sec : StringMergeInputSection}

theorem ownedBy_of_inLine {owned : ℕ → Bytes → Option ℕ}
    {first : ℕ} (h : InLine owned sec.isString sec.startInputOffset sec.sectionData first)
    (hdata : sec.sectionData ≠ []) : OwnedBy owned sec first := by
  cases hstr : sec.isString with
  | true =>
    rw [hstr] at h
    have hat : ∀ offset string, sec.StringAt offset string ↔
        StartsAt sec.sectionData offset string := by
      intro offset string
      rw [StringMergeInputSection.StringAt, if_pos hstr]
    refine ⟨fun offset string hstarts => h.owns offset string ((hat _ _).mp hstarts), ?_⟩
    intro k hk
    obtain ⟨offset, string, hstarts, hin⟩ := h.covers k hk
    exact ⟨offset, string, (hat _ _).mpr hstarts, hin⟩
  | false =>
    have hnot : ¬ sec.isString = true := by
      rw [hstr]
      exact Bool.false_ne_true
    have hat : ∀ offset string, sec.StringAt offset string ↔
        offset = 0 ∧ string = sec.sectionData := by
      intro offset string
      rw [StringMergeInputSection.StringAt, if_neg hnot]
    refine ⟨?_, fun k hk => ⟨0, sec.sectionData, (hat _ _).mpr ⟨rfl, rfl⟩, Nat.zero_le k, by omega⟩⟩
    intro offset string hwhole
    obtain ⟨rfl, rfl⟩ := (hat _ _).mp hwhole
    rw [hstr] at h
    exact h.whole hdata

theorem ownedBy_of_record {merged : MergedStringsSection} {slices : ℕ → List Slice}
    {record : MergeStringPatchRecord}
    (h : merged.patchRecordForInputSection slices sec = .ok (some record)) :
    OwnedBy (merged.outputOffsetIfOwned slices) sec record.outputOffset ∧
      record.size = sec.sectionData.length ∧ sec.sectionData ≠ [] := by
  unfold MergedStringsSection.patchRecordForInputSection at h
  split at h
  next => cases h
  next byte tail hdata =>
    cases hloop : recordLoop (merged.outputOffsetIfOwned slices) sec.isString
        sec.startInputOffset (byte :: tail) none 0 with
    | error e =>
      rw [hloop] at h
      cases h
    | ok result =>
      rw [hloop] at h
      cases result with
      | none => cases h
      | some first =>
        cases Except.ok.inj h
        have hline := inLine_of_recordLoop_none hloop
        have hne : sec.sectionData ≠ [] := hdata ▸ List.cons_ne_nil _ _
        rw [← hdata] at hline
        exact ⟨ownedBy_of_inLine hline hne, rfl, hne⟩

/-! ## The kept copies are the first ones -/

variable {kept : List Slice}

theorem keepSlice_pairwise (h : kept.Pairwise fun a b => a.2 ≠ b.2)
    (slice : Slice) : (keepSlice kept slice).Pairwise fun a b => a.2 ≠ b.2 := by
  unfold keepSlice
  split
  case isTrue => exact h
  case isFalse hnew =>
    refine List.pairwise_append.mpr ⟨h, List.pairwise_singleton _ _, ?_⟩
    intro copy hcopy other hother heq
    obtain rfl := List.mem_singleton.mp hother
    exact hnew (List.any_eq_true.mpr ⟨copy, hcopy, beq_iff_eq.mpr heq⟩)

theorem subset_keepSlice {slice other : Slice}
    (h : other ∈ keepSlice kept slice) : other ∈ kept ∨ other = slice := by
  unfold keepSlice at h
  split at h
  case isTrue => exact .inl h
  case isFalse =>
    rcases List.mem_append.mp h with h | h
    · exact .inl h
    · exact .inr (List.mem_singleton.mp h)

theorem foldl_keepSlice {entries : List Slice} (h : kept.Pairwise fun a b => a.2 ≠ b.2) :
    (entries.foldl keepSlice kept).Pairwise (fun a b => a.2 ≠ b.2) ∧
      ∀ slice ∈ entries.foldl keepSlice kept, slice ∈ kept ∨ slice ∈ entries := by
  induction entries generalizing kept with
  | nil => exact ⟨h, fun slice hslice => .inl hslice⟩
  | cons entry entries ih =>
    obtain ⟨hpairwise, hsubset⟩ := ih (keepSlice_pairwise h entry)
    refine ⟨hpairwise, fun slice hslice => ?_⟩
    rcases hsubset slice hslice with hkept | hlater
    · rcases subset_keepSlice hkept with hkept | rfl
      · exact .inl hkept
      · exact .inr List.mem_cons_self
    · exact .inr (List.mem_cons_of_mem _ hlater)

section

variable {hash : Bytes → UInt64} {all : List (ℕ × Bytes)} {merged : MergedStringsSection}

variable {bucket : ℕ}

theorem keptSlices_subset {slice : Slice} (h : slice ∈ keptSlices hash all bucket) :
    slice ∈ all := by
  rcases (foldl_keepSlice List.Pairwise.nil).2 slice h with hnil | hmem
  · cases hnil
  · exact (List.mem_filter.mp hmem).1

theorem keptSlices_unique {a b : Slice} (ha : a ∈ keptSlices hash all bucket)
    (hb : b ∈ keptSlices hash all bucket) (h : a.2 = b.2) : a = b := by
  rcases pairwise_eq_or (foldl_keepSlice List.Pairwise.nil).1 ha hb with heq | hne | hne
  · exact heq
  · exact absurd h hne
  · exact absurd h.symm hne

theorem mem_of_ownsStringAt {offset currentOffset : ℕ} {string : Slice} {candidates : List Slice}
    (h : ownsStringAt offset string currentOffset candidates = true) :
    ∃ copy ∈ candidates, copy.1 = string.1 ∧ copy.2.length = string.2.length := by
  induction candidates generalizing currentOffset with
  | nil => cases h
  | cons candidate candidates ih =>
    rw [ownsStringAt] at h
    split at h
    case isTrue =>
      obtain ⟨hlen, haddr⟩ := Bool.and_eq_true_iff.mp h
      exact ⟨candidate, List.mem_cons_self, beq_iff_eq.mp haddr, beq_iff_eq.mp hlen⟩
    case isFalse =>
      split at h
      case isTrue => cases h
      case isFalse =>
        obtain ⟨copy, hcopy, hsame⟩ := ih h
        exact ⟨copy, List.mem_cons_of_mem _ hcopy, hsame⟩

/-! ## Owned strings in the output -/

theorem outputOffsetIfOwned_eq_some {slices : ℕ → List Slice} {inputOffset : ℕ} {string : Bytes}
    {p : ℕ} (h : merged.outputOffsetIfOwned slices inputOffset string = some p) :
    ∃ b, merged.stringOffsetAtInput inputOffset = some b ∧ p = merged.position b ∧
      ∃ copy ∈ slices b.bucket, copy.1 = inputOffset ∧ copy.2.length = string.length := by
  unfold MergedStringsSection.outputOffsetIfOwned at h
  cases hb : merged.stringOffsetAtInput inputOffset with
  | none =>
    rw [hb] at h
    cases h
  | some b =>
    rw [hb] at h
    dsimp only at h
    split at h
    case isTrue howns =>
      exact ⟨b, rfl, (Option.some.inj h).symm, mem_of_ownsStringAt howns⟩
    case isFalse => cases h

end

/-! ## Safe records -/

/-- The range of the record may be rewritten. -/
structure SafeToPatch (sections : List StringMergeInputSection) (merged : MergedStringsSection)
    (slices : ℕ → List Slice) (sec : StringMergeInputSection) (record : MergeStringPatchRecord) :
    Prop where
  /-- It holds the bytes of its section. -/
  holds : ∀ buffer, buffer.length = merged.len → ∃ content, merged.write buffer = some content ∧
    window content record.outputOffset record.size = sec.sectionData
  /-- No other record overlaps it. -/
  apart : ∀ other ∈ sections, other ≠ sec → ∀ record',
    merged.patchRecordForInputSection slices other = .ok (some record') →
      record.outputOffset + record.size ≤ record'.outputOffset ∨
        record'.outputOffset + record'.size ≤ record.outputOffset
  /-- No string of another section resolves into it. -/
  unshared : ∀ other ∈ sections, other ≠ sec → ∀ offset string, other.StringAt offset string →
    ∀ b, merged.stringOffsetAtInput (other.startInputOffset + offset) = some b →
      ¬ (record.outputOffset ≤ merged.position b ∧
        merged.position b < record.outputOffset + record.size)

/-- No other section has a string of this one. -/
def Unshared (sections : List StringMergeInputSection) (sec : StringMergeInputSection) : Prop :=
  ∀ other ∈ sections, other ≠ sec → ∀ offset offset' string, sec.StringAt offset string →
    ¬ other.StringAt offset' string

section

variable {hash : Bytes → UInt64} {all : List (ℕ × Bytes)} {merged : MergedStringsSection}
  {sections : List StringMergeInputSection} {sec : StringMergeInputSection} {first : ℕ}

variable {offset : ℕ} {slices : ℕ → List Slice} {string : Bytes}

theorem OwnedBy.resolves (h : OwnedBy (merged.outputOffsetIfOwned slices) sec first)
    (hat : sec.StringAt offset string) :
    ∃ b, merged.stringOffsetAtInput (sec.startInputOffset + offset) = some b ∧
      merged.position b = first + offset ∧
      ∃ copy ∈ slices b.bucket, copy.1 = sec.startInputOffset + offset ∧
        copy.2.length = string.length := by
  obtain ⟨b, hb, hposition, hcopy⟩ := outputOffsetIfOwned_eq_some (h.owns offset string hat)
  exact ⟨b, hb, hposition.symm, hcopy⟩

theorem StringMergeInputSection.StringAt.getElem?
    (hat : sec.StringAt offset string) {k : ℕ} (hk : k < string.length) :
    sec.sectionData[offset + k]? = string[k]? := by
  unfold StringMergeInputSection.StringAt at hat
  split at hat
  next =>
    obtain ⟨rest, hrest⟩ := hat.isPrefix
    rw [← List.getElem?_drop, ← hrest, List.getElem?_append_left hk]
  next =>
    obtain ⟨rfl, rfl⟩ := hat
    rw [Nat.zero_add]

theorem OwnedBy.holds
    (h : OwnedBy (merged.outputOffsetIfOwned slices) sec first) (hsec : sec ∈ sections)
    (hpreserves : PreservesContent sections merged) {buffer : Bytes}
    (hbuffer : buffer.length = merged.len) :
    ∃ content, merged.write buffer = some content ∧
      window content first sec.sectionData.length = sec.sectionData := by
  obtain ⟨content, hwrite, hstrs⟩ := hpreserves.holds buffer hbuffer
  refine ⟨content, hwrite, List.ext_getElem? fun k => ?_⟩
  rcases Nat.lt_or_ge k sec.sectionData.length with hk | hk
  · obtain ⟨offset, string, hat, hle, hlt⟩ := h.covers k hk
    obtain ⟨b, hb, hposition, -⟩ := h.resolves hat
    obtain ⟨b', hb', hwindow⟩ := hstrs _ string ⟨sec, hsec, offset, rfl, hat⟩
    cases hb.symm.trans hb'
    have hbyte : (window content (merged.position b) string.length)[k - offset]? =
        string[k - offset]? := by rw [hwindow]
    rw [getElem?_window (by omega), hposition] at hbyte
    have hdata := hat.getElem? (show k - offset < string.length by omega)
    rw [getElem?_window hk]
    rw [Nat.add_sub_cancel' hle] at hdata
    rw [hdata, ← hbyte]
    congr 1
    omega
  · rw [List.getElem?_eq_none (Nat.le_trans Store.length_window_le hk), List.getElem?_eq_none hk]

/-- What holds of the strings of the sections. -/
structure Laid (hash : Bytes → UInt64) (all : List (ℕ × Bytes))
    (sections : List StringMergeInputSection) (merged : MergedStringsSection) : Prop where
  merged : Merged hash all merged
  lists : Lists all (StringOf sections)
  before : sections.Pairwise Before
  data : ∀ sec ∈ sections, sec.sectionData ≠ []

section

variable (h : Laid hash all sections merged)

include h

theorem Laid.mem (hsec : sec ∈ sections) (hat : sec.StringAt offset string) :
    (sec.startInputOffset + offset, string) ∈ all :=
  (h.lists.mem _ _).mpr ⟨sec, hsec, offset, rfl, hat⟩

theorem Laid.copy_eq (hsec : sec ∈ sections) (hat : sec.StringAt offset string) {bucket : ℕ}
    {copy : Slice} (hcopy : copy ∈ keptSlices hash all bucket)
    (haddr : copy.1 = sec.startInputOffset + offset) :
    copy = (sec.startInputOffset + offset, string) := by
  have hmem : (sec.startInputOffset + offset, copy.2) ∈ all := haddr ▸ keptSlices_subset hcopy
  exact Prod.ext haddr (h.lists.eq_of_fst hmem (h.mem hsec hat))

theorem Laid.apart (hpreserves : PreservesContent sections merged) {other : StringMergeInputSection}
    {first' : ℕ} (hsec : sec ∈ sections) (hother : other ∈ sections) (hne : other ≠ sec)
    (howned : OwnedBy (merged.outputOffsetIfOwned (keptSlices hash all)) sec first)
    (howned' : OwnedBy (merged.outputOffsetIfOwned (keptSlices hash all)) other first') :
    first + sec.sectionData.length ≤ first' ∨ first' + other.sectionData.length ≤ first := by
  by_contra hoverlap
  have hpos := List.length_pos_of_ne_nil (h.data sec hsec)
  have hpos' := List.length_pos_of_ne_nil (h.data other hother)
  -- a byte of both
  obtain ⟨offset, string, hat, hle, hlt⟩ := howned.covers (max first first' - first) (by omega)
  obtain ⟨offset', string', hat', hle', hlt'⟩ := howned'.covers (max first first' - first')
    (by omega)
  obtain ⟨b, hb, hposition, copy, hcopy, haddr, -⟩ := howned.resolves hat
  obtain ⟨b', hb', hposition', copy', hcopy', haddr', -⟩ := howned'.resolves hat'
  have hstr : StringOf sections (sec.startInputOffset + offset) string :=
    ⟨sec, hsec, offset, rfl, hat⟩
  have hstr' : StringOf sections (other.startInputOffset + offset') string' :=
    ⟨other, hother, offset', rfl, hat'⟩
  by_cases hsame : string = string'
  · -- one string has one kept copy
    subst hsame
    have hequal := hpreserves.equal _ _ string hstr hstr'
    rw [hb, hb'] at hequal
    cases hequal
    have hfirst := h.copy_eq hsec hat hcopy haddr
    have hsecond := h.copy_eq hother hat' hcopy' haddr'
    have hunique := keptSlices_unique hcopy hcopy' (by rw [hfirst, hsecond])
    rw [hfirst, hsecond] at hunique
    exact hne (section_eq h.before hother hsec (by omega) (by omega)
      (congrArg Prod.fst hunique).symm)
  · rcases hpreserves.apart _ _ string string' hstr hstr' hsame b b' hb hb' with happart | happart
    · omega
    · omega

theorem Laid.unshared_iff (hpreserves : PreservesContent sections merged) (hsec : sec ∈ sections)
    (howned : OwnedBy (merged.outputOffsetIfOwned (keptSlices hash all)) sec first) :
    (∀ other ∈ sections, other ≠ sec → ∀ offset string, other.StringAt offset string →
      ∀ b, merged.stringOffsetAtInput (other.startInputOffset + offset) = some b →
        ¬ (first ≤ merged.position b ∧ merged.position b < first + sec.sectionData.length)) ↔
      Unshared sections sec := by
  constructor
  · -- an equal string resolves to the same place
    intro hnone other hother hne offset offset' string hat hat'
    obtain ⟨b, hb, hposition, -⟩ := howned.resolves hat
    have hequal := hpreserves.equal _ _ string ⟨sec, hsec, offset, rfl, hat⟩
      ⟨other, hother, offset', rfl, hat'⟩
    have hlen := hat.lt (h.data sec hsec)
    refine hnone other hother hne offset' string hat' b (hequal.symm.trans hb) ?_
    omega
  · -- another string has a place of its own
    rintro hunshared other hother hne offset' string' hat' b' hb' ⟨hle, hlt⟩
    obtain ⟨offset, string, hat, hstart, hend⟩ := howned.covers (merged.position b' - first)
      (by omega)
    obtain ⟨b, hb, hposition, -⟩ := howned.resolves hat
    have hsame : string ≠ string' := by
      rintro rfl
      exact hunshared other hother hne offset offset' string hat hat'
    have hlen' := hat'.lt (h.data other hother)
    rcases hpreserves.apart _ _ string string' ⟨sec, hsec, offset, rfl, hat⟩
      ⟨other, hother, offset', rfl, hat'⟩ hsame b b' hb hb' with happart | happart
    · omega
    · omega

end

theorem Merged.counted_of_write (h : Merged hash all merged) {buffer content : Bytes}
    (hbuffer : buffer.length = merged.len) (hwrite : merged.write buffer = some content)
    {start size : ℕ} (hsize : window content start size ≠ []) : Counted merged := by
  rw [MergedStringsSection.write] at hwrite
  split at hwrite
  · intro bucket hbucket
    have hle := le_of_writeBuckets hwrite bucket hbucket
    rw [h.buckets] at hbucket
    obtain ⟨i, rfl⟩ := List.mem_ofFn.mp hbucket
    have hnext := (@keeps_finalBucket hash all i).nextOffset
    omega
  · next hzero =>
    cases hwrite
    have hnil : buffer = [] := List.length_eq_zero_iff.mp (by omega)
    rw [hnil, window, List.drop_nil, List.take_nil] at hsize
    exact absurd rfl hsize

theorem Laid.safe_iff (h : Laid hash all sections merged) (hsec : sec ∈ sections)
    {record : MergeStringPatchRecord}
    (hrecord : merged.patchRecordForInputSection (keptSlices hash all) sec = .ok (some record)) :
    SafeToPatch sections merged (keptSlices hash all) sec record ↔
      Counted merged ∧ Unshared sections sec := by
  obtain ⟨howned, hsize, hdata⟩ := ownedBy_of_record hrecord
  constructor
  · intro hsafe
    obtain ⟨content, hwrite, hwindow⟩ :=
      hsafe.holds (List.replicate merged.len 0) List.length_replicate
    have hcounted : Counted merged := h.merged.counted_of_write List.length_replicate hwrite
      (hwindow ▸ hdata)
    refine ⟨hcounted, (h.unshared_iff (h.merged.preserves h.lists hcounted) hsec howned).mp ?_⟩
    intro other hother hne offset string hat b hb
    rw [← hsize]
    exact hsafe.unshared other hother hne offset string hat b hb
  · rintro ⟨hcounted, hunshared⟩
    have hpreserves := h.merged.preserves h.lists hcounted
    refine ⟨?_, ?_, ?_⟩
    · intro buffer hbuffer
      rw [hsize]
      exact howned.holds hsec hpreserves hbuffer
    · intro other hother hne record' hrecord'
      obtain ⟨howned', hsize', -⟩ := ownedBy_of_record hrecord'
      rw [hsize, hsize']
      exact h.apart hpreserves hsec hother hne howned howned'
    · intro other hother hne offset string hat b hb
      rw [hsize]
      exact (h.unshared_iff hpreserves hsec howned).mpr hunshared other hother hne offset string hat
        b hb

variable {full : ℕ → Bool} {size : ℕ} {extras : List StringMergeSectionExtra}

theorem MergeStrings.laid (h : MergeStrings hash full size extras merged)
    (hall : Lists all (StringOf (inputSections extras))) (hsome : inputSections extras ≠ []) :
    Laid hash all (inputSections extras) merged := by
  cases h with
  | nothing hnil => exact absurd hnil hsome
  | merged hne hadd =>
    obtain ⟨all', hall', hmerged⟩ := hadd.merged
    obtain rfl := hall.unique hall'
    exact ⟨hmerged, hall, pairwise_before
      (groupMergeStringSections_chain (resolveMergeSections extras) 0).1, sectionData_ne_nil⟩

/-- **A record is safe to patch** exactly when no other section has a string of its
section, as long as the buckets can count their bytes. -/
theorem patch_record_safe_iff (h : MergeStrings hash full size extras merged)
    (hall : Lists all (StringOf (inputSections extras))) (hsec : sec ∈ inputSections extras)
    {record : MergeStringPatchRecord}
    (hrecord : merged.patchRecordForInputSection (keptSlices hash all) sec = .ok (some record)) :
    SafeToPatch (inputSections extras) merged (keptSlices hash all) sec record ↔
      BucketsFit hash (inputSections extras) ∧ Unshared (inputSections extras) sec := by
  have hlaid := h.laid hall (List.ne_nil_of_mem hsec)
  have hfit : BucketsFit hash (inputSections extras) ↔ Counted merged := by
    rw [counted_iff hlaid.merged]
    exact forall_congr' fun i => by rw [bucketSize_eq hall]
  rw [hfit]
  exact hlaid.safe_iff hsec hrecord

end

/-! ## Two strings -/

theorem exists_record {letter : UInt8} (h : letter = 105 ∨ letter = 111) : ∃ merged,
    MergeStrings (fun _ => 0) (fun _ => false) 512 (twoStrings letter) merged ∧
    Lists [(0, greeting), (256, [104, letter, 0])] (StringOf (inputSections (twoStrings letter))) ∧
    merged.position ⟨0⟩ = 0 ∧ merged.patchRecordForInputSection
      (keptSlices (fun _ => 0) [(0, greeting), (256, [104, letter, 0])]) ⟨greeting, 0, true⟩ =
        .ok (some ⟨0, 3⟩) := by
  obtain ⟨merged, hmerged, hlists⟩ := exists_twoStrings h
  have hres := (hmerged.laid hlists (List.cons_ne_nil _ _)).merged
  have hfirst : merged.stringOffsetAtInput 0 = some ⟨0⟩ := by
    refine (hres.resolves 0 ⟨0⟩).mpr ⟨greeting, List.mem_cons_self, ?_⟩
    rcases h with rfl | rfl
    · rfl
    · rfl
  have hbase : merged.bucketOffsets 0 = 0 :=
    (Option.some.inj (hres.bucketOffsets 0 (by decide))).symm
  have howned : merged.outputOffsetIfOwned
      (keptSlices (fun _ => 0) [(0, greeting), (256, [104, letter, 0])]) 0 greeting = some 0 := by
    have howns : ownsStringAt 0 (0, greeting) 0
        (keptSlices (fun _ => 0) [(0, greeting), (256, [104, letter, 0])] 0) = true := by
      rcases h with rfl | rfl
      · rfl
      · rfl
    rw [MergedStringsSection.outputOffsetIfOwned, hfirst]
    refine (if_pos howns).trans ?_
    show some (merged.bucketOffsets 0 + 0) = some 0
    rw [hbase]
  refine ⟨merged, hmerged, hlists, hbase, ?_⟩
  have hpiece : takePiece true greeting = .ok (greeting, []) :=
    takeString_of_terminated terminated_greeting
  have hloop := recordLoop_single terminated_greeting.ne_nil hpiece howned
  show (recordLoop _ true 0 greeting none 0).map _ = _
  rw [hloop]
  rfl

/-- Another section's string that is not the same. -/
theorem other_string_safe : ∃ merged,
    MergeStrings (fun _ => 0) (fun _ => false) 512 (twoStrings 111) merged ∧
    SafeToPatch (inputSections (twoStrings 111)) merged
      (keptSlices (fun _ => 0) [(0, greeting), (256, [104, 111, 0])])
      ⟨greeting, 0, true⟩ ⟨0, 3⟩ := by
  obtain ⟨merged, hmerged, hlists, -, hrecord⟩ := exists_record (.inr rfl)
  refine ⟨merged, hmerged, (patch_record_safe_iff hmerged hlists List.mem_cons_self hrecord).mpr
    ⟨bucketsFit_twoStrings, fun other hother hne offset offset' string hat hat' => ?_⟩⟩
  have hlt : offset + string.length ≤ 3 := (hat.lt (List.cons_ne_nil _ _)).1
  obtain rfl : other = ⟨[104, 111, 0], 256, true⟩ :=
    List.mem_singleton.mp ((List.mem_cons.mp hother).resolve_left hne)
  have hmem := (hlists.mem _ string).mpr ⟨_, List.mem_cons_self, offset, rfl, hat⟩
  have hmem' := (hlists.mem _ string).mpr ⟨_, hother, offset', rfl, hat'⟩
  simp only [List.mem_cons, List.not_mem_nil, or_false, Prod.mk.injEq] at hmem hmem'
  rcases hmem with ⟨-, rfl⟩ | ⟨hfar, -⟩
  · rcases hmem' with ⟨hnear, -⟩ | ⟨-, hsame⟩
    · omega
    · exact absurd hsame (by decide)
  · omega

/-- The second section's string resolves into the record of the first. -/
theorem shared_string_in_record : ∃ merged,
    MergeStrings (fun _ => 0) (fun _ => false) 512 (twoStrings 105) merged ∧
    merged.patchRecordForInputSection
      (keptSlices (fun _ => 0) [(0, greeting), (256, greeting)]) ⟨greeting, 0, true⟩ =
        .ok (some ⟨0, 3⟩) ∧
    ¬ SafeToPatch (inputSections (twoStrings 105)) merged
      (keptSlices (fun _ => 0) [(0, greeting), (256, greeting)]) ⟨greeting, 0, true⟩ ⟨0, 3⟩ := by
  obtain ⟨merged, hmerged, hlists, hposition, hrecord⟩ := exists_record (.inl rfl)
  have hres := (hmerged.laid hlists (List.cons_ne_nil _ _)).merged
  have hsecond : merged.stringOffsetAtInput 256 = some ⟨0⟩ := (hres.resolves 256 ⟨0⟩).mpr
    ⟨greeting, List.mem_cons_of_mem _ (List.mem_singleton_self _), rfl⟩
  refine ⟨merged, hmerged, hrecord, fun hsafe => ?_⟩
  have hat : (⟨greeting, 256, true⟩ : StringMergeInputSection).StringAt 0 greeting :=
    ⟨terminated_greeting, List.prefix_refl _, .inl rfl⟩
  refine hsafe.unshared ⟨greeting, 256, true⟩ (List.mem_cons_of_mem _ List.mem_cons_self) ?_ 0
    greeting hat ⟨0⟩ hsecond ?_
  · intro heq
    cases heq
  · rw [hposition]
    exact ⟨Nat.le_refl 0, by decide⟩

end Sld.Strings
