/-
# `Strings.FindString` — references into strings

A reference may point into a string.  Only the start of a string is in the
offset map, so the map is searched backwards from the reference, and what
the search went back is added to what it found.

The sum is taken in the 32 bits that hold the bucket too.  A string may start
anywhere below 2^28 in its bucket, so what is added can reach into the bits
of the bucket: a reference is right exactly when it points below 2^28 as well
(`reference_inside_string_iff`).
-/
import Sld.Strings.PreservedContent

namespace Sld.Strings

open BucketOffset (bucket_mk mk offsetInBucket_mk)

/-- A `u32` addition, which wraps in a release build. -/
def BucketOffset.add (b : BucketOffset) (distance : ℕ) : BucketOffset :=
  ⟨(b.raw + distance % 2 ^ 32) % 2 ^ 32⟩

namespace MergedStringsSection

variable (merged : MergedStringsSection)

/-- `find_string`, for a section that starts at an offset of the linear space. -/
def findString (startInputOffset inputOffset : ℕ) : Except String BucketOffset :=
  match merged.stringOffsetAtInput (startInputOffset + inputOffset) with
  | some stringOffset => .ok stringOffset
  | none =>
    match (List.range' 1 inputOffset).findSome? fun i =>
      (merged.stringOffsetAtInput (startInputOffset + (inputOffset - i))).map (·.add i) with
    | some stringOffset => .ok stringOffset
    | none => .error s!"Failed to find merge-string at offset {startInputOffset + inputOffset}"

/-- The address in `get_merged_string_output_address`, of a section at `base`. -/
def outputAddress (base : ℕ) (offset : BucketOffset) : ℕ :=
  (base + merged.bucketOffsets offset.bucket) + offset.offsetInBucket

/-- The reference is found in the bucket of the string, as far behind its start,
and so is its address. -/
def FindsInside (startInputOffset inputOffset : ℕ) (start : BucketOffset) (distance : ℕ) : Prop :=
  ∃ found, merged.findString startInputOffset inputOffset = .ok found ∧
    found.bucket = start.bucket ∧ found.offsetInBucket = start.offsetInBucket + distance ∧
    ∀ base, merged.outputAddress base found = merged.outputAddress base start + distance

/-- What is found of a string and of an offset in it. -/
def FindsAt (startInputOffset start offset : ℕ) : Prop :=
  ∃ (index : Fin mergeStringBuckets) (place : ℕ), place < 2 ^ 28 ∧
    merged.stringOffsetAtInput (startInputOffset + start) = some ⟨(index : ℕ) <<< 28 ||| place⟩ ∧
    merged.findString startInputOffset (start + offset) =
      .ok ((⟨(index : ℕ) <<< 28 ||| place⟩ : BucketOffset).add offset)

end MergedStringsSection

/-! ## Bits -/

section

variable {index offset distance : ℕ}

theorem raw_mk (h : offset < 2 ^ 28) :
    (⟨index <<< 28 ||| offset⟩ : BucketOffset).raw = index * 2 ^ 28 + offset := by
  rw [← Nat.shiftLeft_add_eq_or_of_lt h, Nat.shiftLeft_eq]

theorem offsetInBucket_lt (b : BucketOffset) : b.offsetInBucket < 2 ^ 28 := by
  show b.raw &&& (2 ^ 28 - 1) < 2 ^ 28
  rw [Nat.and_two_pow_sub_one_eq_mod]
  exact Nat.mod_lt _ (by decide)

theorem add_mk (hindex : index < mergeStringBuckets) (h : offset + distance < 2 ^ 28) :
    (⟨index <<< 28 ||| offset⟩ : BucketOffset).add distance =
      ⟨index <<< 28 ||| (offset + distance)⟩ := by
  have hraw : (⟨index <<< 28 ||| offset⟩ : BucketOffset).raw = index * 2 ^ 28 + offset :=
    raw_mk (by omega)
  have hraw' : (⟨index <<< 28 ||| (offset + distance)⟩ : BucketOffset).raw =
      index * 2 ^ 28 + (offset + distance) := raw_mk h
  have hsum : (index * 2 ^ 28 + offset + distance % 2 ^ 32) % 2 ^ 32 =
      index * 2 ^ 28 + (offset + distance) := by
    have : index < 16 := hindex
    omega
  show mk _ = mk _
  rw [hraw, hsum]
  exact congrArg mk hraw'.symm

end

/-! ## The search -/

section

variable {sections : List StringMergeInputSection} {sec : StringMergeInputSection}
  {start offset : ℕ} {string : Bytes}

theorem not_stringAt_inside (h : sec.StringAt start string) (hlt : start < offset)
    (hend : offset < start + string.length) (other : Bytes) : ¬ sec.StringAt offset other := by
  unfold StringMergeInputSection.StringAt at h ⊢
  cases hstr : sec.isString with
  | false =>
    rintro ⟨rfl, -⟩
    exact absurd hlt (Nat.not_lt_zero start)
  | true =>
    rw [hstr] at h
    intro hother
    obtain ⟨⟨body, rfl, hbody⟩, ⟨rest, hrest⟩, -⟩ := h
    rw [List.length_append, List.length_singleton] at hend
    -- the byte before the other string is in the body
    have hzero : sec.sectionData[offset - 1]? = some 0 := hother.start.resolve_left (by omega)
    have hbyte : (sec.sectionData.drop start)[offset - 1 - start]? = some 0 := by
      rw [List.getElem?_drop, ← hzero]
      congr 1
      omega
    rw [← hrest, List.append_assoc, List.getElem?_append_left (by omega)] at hbyte
    exact hbody (List.mem_of_getElem? hbyte)

theorem section_eq (hlaid : sections.Pairwise Before) {other : StringMergeInputSection}
    (hsec : sec ∈ sections) (hother : other ∈ sections) {a b : ℕ}
    (ha : a < sec.sectionData.length) (hb : b < other.sectionData.length)
    (h : sec.startInputOffset + a = other.startInputOffset + b) : sec = other := by
  have := length_le_paddedLen sec
  have := length_le_paddedLen other
  rcases pairwise_eq_or hlaid hsec hother with heq | hlt | hlt
  · exact heq
  · unfold Before at hlt
    omega
  · unfold Before at hlt
    omega

theorem not_stringOf_inside (hlaid : sections.Pairwise Before)
    (hdata : ∀ sec ∈ sections, sec.sectionData ≠ []) (hsec : sec ∈ sections)
    (h : sec.StringAt start string) (hlt : start < offset) (hend : offset < start + string.length)
    (other : Bytes) : ¬ StringOf sections (sec.startInputOffset + offset) other := by
  rintro ⟨sec', hsec', offset', heq, hat⟩
  have hlen := (h.lt (hdata sec hsec)).1
  have hlen' := hat.lt (hdata sec' hsec')
  obtain rfl := section_eq hlaid hsec hsec' (by omega) (by omega) heq
  obtain rfl : offset = offset' := Nat.add_left_cancel heq
  exact not_stringAt_inside h hlt hend other hat

variable {hash : Bytes → UInt64} {all : List (ℕ × Bytes)} {merged : MergedStringsSection}

theorem Merged.resolves_eq_none (h : Merged hash all merged) {x : ℕ}
    (hno : ∀ s, (x, s) ∉ all) : merged.stringOffsetAtInput x = none := by
  rw [Option.eq_none_iff_forall_ne_some]
  intro b hb
  obtain ⟨s, hs, -⟩ := (h.resolves x b).mp hb
  exact hno s hs

theorem Merged.findString_eq (h : Merged hash all merged)
    (hnone : ∀ inside, start < inside → inside ≤ start + offset → ∀ s,
      (sec.startInputOffset + inside, s) ∉ all) {found : BucketOffset}
    (hfound : merged.stringOffsetAtInput (sec.startInputOffset + start) = some found)
    (hpos : 0 < offset) :
    merged.findString sec.startInputOffset (start + offset) = .ok (found.add offset) := by
  have hhere := h.resolves_eq_none (hnone (start + offset) (by omega) (by omega))
  have hback : (List.range' 1 (start + offset)).findSome? (fun i =>
      (merged.stringOffsetAtInput (sec.startInputOffset + (start + offset - i))).map (·.add i)) =
      some (found.add offset) := by
    refine List.findSome?_eq_some_iff.mpr
      ⟨List.range' 1 (offset - 1), offset, List.range' (offset + 1) start, ?_, ?_, ?_⟩
    · have hcut : start + offset = (offset - 1) + (start + 1) := by omega
      have hnext : 1 + (offset - 1) = offset := by omega
      rw [hcut, ← List.range'_append_1, hnext, List.range'_succ]
    · rw [Nat.add_sub_cancel, hfound]
      rfl
    · intro i hi
      rw [List.mem_range'_1] at hi
      rw [h.resolves_eq_none (hnone (start + offset - i) (by omega) (by omega))]
      rfl
  rw [MergedStringsSection.findString, hhere]
  simp only [hback]

theorem Merged.exists_findString (h : Merged hash all merged)
    (hall : Lists all (StringOf sections)) (hlaid : sections.Pairwise Before)
    (hdata : ∀ sec ∈ sections, sec.sectionData ≠ []) (hsec : sec ∈ sections)
    (hat : sec.StringAt start string) (hend : offset < string.length) :
    merged.FindsAt sec.startInputOffset start offset := by
  have hmem : (sec.startInputOffset + start, string) ∈ all :=
    (hall.mem _ _).mpr ⟨sec, hsec, start, rfl, hat⟩
  have hsmall := h.small _ _ hmem
  have hfound := (h.resolves _ _).mpr ⟨string, hmem, rfl⟩
  rw [MergeStringsSectionBucket.outputOffset, index_finalBucket] at hfound
  refine ⟨bucketOf hash string, _, hsmall, hfound, ?_⟩
  rcases Nat.eq_zero_or_pos offset with rfl | hpos
  · rw [add_mk (bucketOf hash string).isLt hsmall, MergedStringsSection.findString]
    rw [Nat.add_zero, hfound]
    rfl
  · refine h.findString_eq (fun inside hlt hle s hs => ?_) hfound hpos
    exact not_stringOf_inside hlaid hdata hsec hat hlt (by omega) s ((hall.mem _ _).mp hs)

theorem findsInside_iff {index : Fin mergeStringBuckets} {place inputOffset startInputOffset : ℕ}
    (hplace : place < 2 ^ 28) (hfound : merged.findString startInputOffset inputOffset =
      .ok ((⟨(index : ℕ) <<< 28 ||| place⟩ : BucketOffset).add offset)) :
    merged.FindsInside startInputOffset inputOffset ⟨(index : ℕ) <<< 28 ||| place⟩ offset ↔
      place + offset < 2 ^ 28 := by
  constructor
  · rintro ⟨found, -, -, hoff, -⟩
    rw [offsetInBucket_mk hplace] at hoff
    rw [← hoff]
    exact offsetInBucket_lt found
  · intro hroom
    rw [add_mk index.isLt hroom] at hfound
    refine ⟨_, hfound, ?_, ?_, ?_⟩
    · rw [bucket_mk hroom, bucket_mk hplace]
    · rw [offsetInBucket_mk hroom, offsetInBucket_mk hplace]
    · intro base
      rw [MergedStringsSection.outputAddress, MergedStringsSection.outputAddress,
        bucket_mk hroom, bucket_mk hplace,
        offsetInBucket_mk hroom, offsetInBucket_mk hplace]
      omega

/-! ## References into strings -/

variable {full : ℕ → Bool} {size : ℕ} {extras : List StringMergeSectionExtra}

theorem MergeStrings.exists_findString (h : MergeStrings hash full size extras merged)
    (hsec : sec ∈ inputSections extras) (hat : sec.StringAt start string)
    (hend : offset < string.length) :
    merged.FindsAt sec.startInputOffset start offset := by
  cases h with
  | nothing hnil =>
    rw [hnil] at hsec
    cases hsec
  | merged hne hadd =>
    obtain ⟨all, hall, hmerged⟩ := hadd.merged
    have hchain := (groupMergeStringSections_chain (resolveMergeSections extras) 0).1
    exact hmerged.exists_findString hall (pairwise_before hchain) sectionData_ne_nil hsec hat hend

/-- **A reference into a string** finds the place of the string and what it points
behind it, exactly when that is below 2^28 in the bucket. -/
theorem reference_inside_string_iff (h : MergeStrings hash full size extras merged)
    (hsec : sec ∈ inputSections extras) (hat : sec.StringAt start string)
    (hle : start ≤ offset) (hend : offset < start + string.length) :
    ∃ found, merged.stringOffsetAtInput (sec.startInputOffset + start) = some found ∧
      (merged.FindsInside sec.startInputOffset offset found (offset - start) ↔
        found.offsetInBucket + (offset - start) < 2 ^ 28) := by
  obtain ⟨index, place, hplace, hstart, hfound⟩ :=
    h.exists_findString hsec hat (show offset - start < string.length by omega)
  rw [Nat.add_sub_cancel' hle] at hfound
  refine ⟨_, hstart, ?_⟩
  rw [BucketOffset.offsetInBucket_mk hplace]
  exact findsInside_iff hplace hfound

end

/-- A reference to the second letter. -/
theorem reference_inside_greeting :
    ∃ merged, MergeStrings (fun _ => 3) (fun _ => false) 256 [⟨[104, 105, 0], true⟩] merged ∧
      ∃ found, merged.stringOffsetAtInput (0 + 0) = some found ∧
        (merged.FindsInside 0 1 found (1 - 0) ↔ found.offsetInBucket + (1 - 0) < 2 ^ 28) := by
  obtain ⟨merged, hmerged⟩ := @exists_mergeStrings (fun _ => 3) (fun _ => false) 256
    ⟨[104, 105, 0], true⟩ (List.cons_ne_nil _ _) (fun _ => ⟨[104, 105], rfl, by decide⟩)
    (Nat.dvd_refl 256) (by decide) (fun _ => by decide)
  have hat : (⟨[104, 105, 0], 0, true⟩ : StringMergeInputSection).StringAt 0 [104, 105, 0] :=
    ⟨⟨[104, 105], rfl, by decide⟩, List.prefix_refl _, .inl rfl⟩
  exact ⟨merged, hmerged, reference_inside_string_iff hmerged (List.mem_singleton_self _) hat
    (by decide) (by decide)⟩

/-! ## A long string -/

/-- A string of 256 MiB and its null byte. -/
def longString : Bytes := List.replicate (2 ^ 28) 1 ++ [0]

theorem terminated_longString : Terminated longString :=
  ⟨List.replicate (2 ^ 28) 1, rfl, fun h => absurd (List.eq_of_mem_replicate h) (by decide)⟩

theorem length_longString : longString.length = 2 ^ 28 + 1 := by
  rw [longString, List.length_append, List.length_replicate, List.length_singleton]

/-- A reference to the null byte ends in the next bucket. -/
theorem reference_to_end_of_longString :
    ∃ merged, MergeStrings (fun _ => 0) (fun _ => false) (2 ^ 28 + 256) [⟨longString, true⟩]
        merged ∧
      ¬ ∃ found, merged.stringOffsetAtInput 0 = some found ∧
        merged.FindsInside 0 (0 + 2 ^ 28) found (2 ^ 28) := by
  have hdata : longString ≠ [] := terminated_longString.ne_nil
  obtain ⟨merged, hmerged⟩ := @exists_mergeStrings (fun _ => 0) (fun _ => false) (2 ^ 28 + 256)
    ⟨longString, true⟩ hdata (fun _ => terminated_longString) (by decide) (by decide) fun _ => by
      show Layout.nextMultipleOf longString.length mapBlockSize ≤ _
      rw [length_longString]
      decide
  have hsec : (⟨longString, 0, true⟩ : StringMergeInputSection) ∈
      inputSections [⟨longString, true⟩] := by
    rw [inputSections_single hdata]
    exact List.mem_singleton_self _
  have hat : (⟨longString, 0, true⟩ : StringMergeInputSection).StringAt 0 longString := by
    rw [StringMergeInputSection.StringAt, if_pos rfl]
    exact ⟨terminated_longString, List.prefix_refl _, .inl rfl⟩
  have hend : 2 ^ 28 < longString.length := by
    rw [length_longString]
    exact Nat.lt_succ_self _
  obtain ⟨index, place, hplace, hstart, hfound⟩ := hmerged.exists_findString hsec hat hend
  refine ⟨merged, hmerged, ?_⟩
  rintro ⟨found, hfirst, hfinds⟩
  cases hstart.symm.trans hfirst
  have hroom := (findsInside_iff hplace hfound).mp hfinds
  omega

end Sld.Strings
