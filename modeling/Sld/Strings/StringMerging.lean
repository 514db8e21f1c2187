/-
# `Strings.StringMerging` — merging the strings of one output section

The input sections of an output section are laid one after the other, each
padded to whole blocks of the offset map.  This linear space is cut into
groups.  A group is split into strings, which go to buckets by their hash
with the place where their output offset will be stored.  Each bucket takes
its strings in the order of the groups and keeps one copy of each
(`Order.Handover` is how the tasks meet).  At the end the buckets are put
one after the other.

    InShard      the offset map of the group has room for the offset
    Overflow     its block is full: the offset goes to a hash map

The offset map is not part of the repository.  It returns what was stored,
and which insertions it refuses is a parameter (`full`).  The hash is a
parameter too.
-/
import Mathlib.Data.List.Sort
import Sld.Layout.Alignment
import Sld.Order.Handover
import Sld.Store.Writes

namespace Sld.Strings

open Layout (nextMultipleOf)

def mergeStringBucketBits : ℕ := 4

abbrev mergeStringBuckets : ℕ := 16

def mapBlockSize : ℕ := 256

abbrev Bytes := List UInt8

/-! ## The input sections -/

structure StringMergeSectionExtra where
  sectionData : Bytes
  isStrings : Bool

structure StringMergeInputSection where
  sectionData : Bytes
  /-- The offset of the section in the linear space. -/
  startInputOffset : ℕ
  isString : Bool

def StringMergeInputSection.paddedLen (section_ : StringMergeInputSection) : ℕ :=
  nextMultipleOf section_.sectionData.length mapBlockSize

/-- `resolve_section` discards merge sections without data. -/
def resolveMergeSections (extras : List StringMergeSectionExtra) : List StringMergeSectionExtra :=
  extras.filter fun extra => !extra.sectionData.isEmpty

/-- `group_merge_string_sections_by_output`, for one output section. -/
def groupMergeStringSections : ℕ → List StringMergeSectionExtra → List StringMergeInputSection
  | _, [] => []
  | startingOffset, extra :: extras =>
    ⟨extra.sectionData, startingOffset, extra.isStrings⟩ ::
      groupMergeStringSections
        (startingOffset + nextMultipleOf extra.sectionData.length mapBlockSize) extras

def inputSections (extras : List StringMergeSectionExtra) : List StringMergeInputSection :=
  groupMergeStringSections 0 (resolveMergeSections extras)

/-! ## Groups -/

structure SectionGroup where
  sections : List StringMergeInputSection
  /-- Only strings that start in the range belong to the group. -/
  range : ℕ × ℕ

/-- What the inner loop of `split_sections` leaves. -/
structure FilledGroup where
  sections : List StringMergeInputSection
  linearEnd : ℕ
  /-- The sections from the next group on. -/
  left : List StringMergeInputSection
  offsetInSection : ℕ

/-- The inner loop of `split_sections`.  A section that is not made of
strings is taken whole, whatever is left of the size. -/
def fillGroup (sec : StringMergeInputSection) :
    List StringMergeInputSection → ℕ → ℕ → FilledGroup
  | rest, offsetInSection, remaining =>
    let available := sec.paddedLen - offsetInSection
    if remaining < available ∧ sec.isString then
      ⟨[sec], sec.startInputOffset + (offsetInSection + remaining), sec :: rest,
        offsetInSection + remaining⟩
    else match rest with
      | [] => ⟨[sec], sec.startInputOffset + (offsetInSection + available), [], 0⟩
      | next :: rest =>
        if remaining ≤ available then
          ⟨[sec], sec.startInputOffset + (offsetInSection + available), next :: rest, 0⟩
        else
          let filled := fillGroup next rest 0 (remaining - available)
          { filled with sections := sec :: filled.sections }

theorem fillGroup_progress (rest : List StringMergeInputSection) :
    ∀ (sec : StringMergeInputSection) (offset remaining : ℕ), 0 < remaining →
      (fillGroup sec rest offset remaining).left.length < (sec :: rest).length ∨
        (fillGroup sec rest offset remaining).left = sec :: rest ∧
          offset < (fillGroup sec rest offset remaining).offsetInSection ∧
          (fillGroup sec rest offset remaining).offsetInSection < sec.paddedLen := by
  induction rest with
  | nil =>
    intro sec offset remaining hrem
    unfold fillGroup
    by_cases hpart : remaining < sec.paddedLen - offset ∧ sec.isString = true
    · rw [if_pos hpart]
      exact .inr ⟨rfl, by simp only; omega, by simp only; omega⟩
    · rw [if_neg hpart]
      exact .inl (Nat.zero_lt_succ _)
  | cons next rest ih =>
    intro sec offset remaining hrem
    unfold fillGroup
    by_cases hpart : remaining < sec.paddedLen - offset ∧ sec.isString = true
    · rw [if_pos hpart]
      exact .inr ⟨rfl, by simp only; omega, by simp only; omega⟩
    · rw [if_neg hpart]
      by_cases hend : remaining ≤ sec.paddedLen - offset
      · simp only [hend, if_true]
        exact .inl (Nat.lt_succ_self _)
      · simp only [hend, if_false]
        rcases ih next 0 (remaining - (sec.paddedLen - offset)) (by omega) with h | ⟨h, -⟩
        · exact .inl (h.trans (Nat.lt_succ_self _))
        · rw [h]
          exact .inl (Nat.lt_succ_self _)

/-- The offset at which the next group begins in the first section left. -/
def leftInSection : List StringMergeInputSection → ℕ → ℕ
  | [], _ => 0
  | sec :: _, offsetInSection => sec.paddedLen - offsetInSection

/-- The outer loop of `split_sections`. -/
def splitSectionsFrom (size : ℕ) (hsize : 0 < size) (sections : List StringMergeInputSection)
    (offsetInSection : ℕ) : List SectionGroup :=
  match sections with
  | [] => []
  | sec :: rest =>
    let filled := fillGroup sec rest offsetInSection size
    ⟨filled.sections, (sec.startInputOffset + offsetInSection, filled.linearEnd)⟩ ::
      splitSectionsFrom size hsize filled.left filled.offsetInSection
termination_by (sections.length, leftInSection sections offsetInSection)
decreasing_by
  rcases fillGroup_progress rest sec offsetInSection size hsize with hlt | ⟨hsame, hlt, hend⟩
  · exact Prod.Lex.left _ _ hlt
  · rw [hsame]
    refine Prod.Lex.right _ ?_
    simp only [leftInSection]
    omega

/-- `split_sections` asserts that the size is made of whole blocks.  With a
size of zero its loop does not end. -/
def splitSections (sections : List StringMergeInputSection) (size : ℕ) :
    Option (List SectionGroup) :=
  if h : mapBlockSize ∣ size ∧ 0 < size then some (splitSectionsFrom size h.2 sections 0) else none

/-! ## Strings -/

/-- `MergeString::take_string_hashed` -/
def takeString (source : Bytes) : Except String (Bytes × Bytes) :=
  match source.findIdx? (· = 0) with
  | some i => .ok (source.take (i + 1), source.drop (i + 1))
  | none => .error "String in merge-string section is not null-terminated"

theorem length_of_takeString {source string rest : Bytes}
    (h : takeString source = .ok (string, rest)) : rest.length < source.length := by
  unfold takeString at h
  split at h
  next i hi =>
    cases h
    obtain ⟨hlt, -⟩ := List.findIdx?_eq_some_iff_findIdx_eq.mp hi
    rw [List.length_drop]
    omega
  next => cases h

/-- The loop over the strings of a section, with the offsets at which they
are inserted. -/
def takeStrings (rangeEnd inputOffset : ℕ) (remaining : Bytes) :
    Except String (List (ℕ × Bytes)) :=
  if remaining = [] ∨ rangeEnd ≤ inputOffset then .ok []
  else
    match _h : takeString remaining with
    | .error e => .error e
    | .ok (string, rest) =>
      (takeStrings rangeEnd (inputOffset + string.length) rest).map ((inputOffset, string) :: ·)
termination_by remaining.length
decreasing_by exact length_of_takeString _h

/-- The first string of a section that starts in the range. -/
def StringMergeInputSection.advance (sec : StringMergeInputSection) (rangeStart : ℕ) :
    Except String ℕ :=
  if sec.startInputOffset < rangeStart then
    let offsetInSection := rangeStart - sec.startInputOffset
    match sec.sectionData[offsetInSection - 1]? with
    -- a panic
    | none => .error "index out of bounds"
    | some byte =>
      if byte = 0 then .ok offsetInSection
      else match (sec.sectionData.drop offsetInSection).findIdx? (· = 0) with
        | none => .ok sec.sectionData.length
        | some nullOffset => .ok (offsetInSection + nullOffset + 1)
  else .ok 0

def processInputSection (range : ℕ × ℕ) (sec : StringMergeInputSection) :
    Except String (List (ℕ × Bytes)) :=
  match sec.advance range.1 with
  | .error e => .error e
  | .ok advance =>
    let inputOffset := sec.startInputOffset + advance
    let remaining := sec.sectionData.drop advance
    if !sec.isString then .ok [(inputOffset, remaining)]
    else takeStrings range.2 inputOffset remaining

/-- A place to store the output offset of a string. -/
inductive OffsetOut where
  | inShard (inputOffset : ℕ)
  | overflow (inputOffset : ℕ)

structure StringToMerge where
  string : Bytes
  offsetOut : OffsetOut

section

variable (hash : Bytes → UInt64) (full : ℕ → Bool)

instance : NeZero mergeStringBuckets := ⟨by decide⟩

def bucketOf (string : Bytes) : Fin mergeStringBuckets := Fin.ofNat _ (hash string).toNat

def insertData (entry : ℕ × Bytes) : StringToMerge :=
  ⟨entry.2, if full entry.1 then .overflow entry.1 else .inShard entry.1⟩

/-- The strings of a group, with their offsets. -/
def groupStrings (group : SectionGroup) : Except String (List (ℕ × Bytes)) :=
  (group.sections.mapM (processInputSection group.range)).map List.flatten

def processInputSectionGroup (group : SectionGroup) :
    Except String (Fin mergeStringBuckets → List StringToMerge) :=
  (groupStrings group).map fun strings bucket =>
    (strings.filter fun entry => bucketOf hash entry.2 = bucket).map (insertData full)

end

/-! ## Buckets -/

/-- A bucket index and an offset in the bucket, in the 32 bits of the source. -/
structure BucketOffset where
  raw : ℕ

namespace BucketOffset

def new (offset bucket : ℕ) : Except String BucketOffset :=
  if 2 ^ (32 - mergeStringBucketBits) ≤ offset then .error "Merge-string bucket too large"
  else .ok ⟨bucket <<< (32 - mergeStringBucketBits) ||| offset⟩

def bucket (b : BucketOffset) : ℕ := b.raw >>> (32 - mergeStringBucketBits)

def offsetInBucket (b : BucketOffset) : ℕ := b.raw &&& (2 ^ (32 - mergeStringBucketBits) - 1)

end BucketOffset

structure MergeStringsSectionBucket where
  index : ℕ
  strings : List Bytes := []
  /-- A `u32`, which wraps in a release build. -/
  nextOffset : ℕ := 0
  stringOffsets : List (Bytes × ℕ) := []

def MergeStringsSectionBucket.addString (bucket : MergeStringsSectionBucket) (string : Bytes) :
    Except String (MergeStringsSectionBucket × BucketOffset) :=
  match bucket.stringOffsets.lookup string with
  | some offset => (BucketOffset.new offset bucket.index).map ((bucket, ·))
  | none =>
    (BucketOffset.new bucket.nextOffset bucket.index).map
      (({ bucket with
          strings := bucket.strings ++ [string]
          nextOffset := (bucket.nextOffset + string.length % 2 ^ 32) % 2 ^ 32
          stringOffsets := (string, bucket.nextOffset) :: bucket.stringOffsets }, ·))

/-- A bucket with what has been stored through its strings. -/
structure BucketWork where
  bucket : MergeStringsSectionBucket
  inShard : List (ℕ × BucketOffset) := []
  overflowed : List (ℕ × BucketOffset) := []

/-- The loop body of `process_split_output`. -/
def BucketWork.processString (work : BucketWork) (string : StringToMerge) :
    Except String BucketWork :=
  (work.bucket.addString string.string).map fun (bucket, offset) =>
    match string.offsetOut with
    | .inShard inputOffset =>
      { work with bucket := bucket, inShard := work.inShard ++ [(inputOffset, offset)] }
    | .overflow inputOffset =>
      { work with bucket := bucket, overflowed := work.overflowed ++ [(inputOffset, offset)] }

def BucketWork.processSplitOutput (work : BucketWork) (strings : List StringToMerge) :
    Except String BucketWork :=
  strings.foldlM BucketWork.processString work

/-! ## The merged section -/

structure MergedStringsSection where
  buckets : List MergeStringsSectionBucket := []
  bucketOffsets : ℕ → ℕ := fun _ => 0
  stringOffsets : ℕ → Option BucketOffset := fun _ => none
  overflowedStringOffsets : ℕ → Option BucketOffset := fun _ => none

namespace MergedStringsSection

variable (merged : MergedStringsSection)

def len : ℕ :=
  match merged.buckets.getLast? with
  | some last => last.nextOffset + merged.bucketOffsets last.index
  | none => 0

def stringOffsetAtInput (inputOffset : ℕ) : Option BucketOffset :=
  (merged.stringOffsets inputOffset).or (merged.overflowedStringOffsets inputOffset)

/-- The position of an offset in the output section. -/
def position (offset : BucketOffset) : ℕ :=
  merged.bucketOffsets offset.bucket + offset.offsetInBucket

end MergedStringsSection

/-- The start of each bucket; reading a bucket that is not there panics. -/
def bucketOffset (buckets : List MergeStringsSectionBucket) : ℕ → Option ℕ
  | 0 => some 0
  | i + 1 =>
    match bucketOffset buckets i, buckets[i]? with
    | some previous, some bucket => some (previous + bucket.nextOffset)
    | _, _ => none

/-- Storing offsets under their input offsets, in turn. -/
def storeOffsets (table : ℕ → Option BucketOffset) (entries : List (ℕ × BucketOffset)) :
    ℕ → Option BucketOffset :=
  Store.overwriteAll (fun entry inputOffset => entry.1 = inputOffset) (fun entry => some entry.2)
    table entries

/-- The strings of all groups, as they are handed to the buckets. -/
def mergeSystem (hash : Bytes → UInt64) (full : ℕ → Bool) (groups : List SectionGroup)
    (hgroups : 0 < groups.length) :
    Handover.System String (List StringToMerge) BucketWork mergeStringBuckets where
  groups := groups.length
  groups_pos := hgroups
  split g :=
    match groups[g]? with
    | some group => processInputSectionGroup hash full group
    | none => .error "no such group"
  start i := ⟨{ index := i }, [], []⟩
  receive _ work strings := work.processSplitOutput strings

/-- The offsets for which the shards of the offset map had room. -/
def insertedOffsets (full : ℕ → Bool) (groups : List SectionGroup) : List ℕ :=
  groups.flatMap fun group =>
    match groupStrings group with
    | .ok strings => (strings.map Prod.fst).filter fun inputOffset => !full inputOffset
    | .error _ => []

/-- `add_input_sections`: the tasks in any order, then the offsets that did
not fit, the buckets and their starts.  The stored offsets come in the order
in which the buckets ran. -/
structure AddInputSections (hash : Bytes → UInt64) (full : ℕ → Bool) (size : ℕ)
    (sections : List StringMergeInputSection) (merged : MergedStringsSection) : Prop where
  run : ∃ (groups : List SectionGroup) (hgroups : 0 < groups.length)
      (s : Handover.State String (List StringToMerge) BucketWork mergeStringBuckets)
      (inShard overflowed : List (ℕ × BucketOffset)),
    splitSections sections size = some groups ∧
    (mergeSystem hash full groups hgroups).Reachable s ∧ s.Ended ∧ s.errors = [] ∧
    merged.buckets = (s.finished.map fun work => work.2.bucket).insertionSort
      (fun a b => a.index ≤ b.index) ∧
    (∀ i < mergeStringBuckets, bucketOffset merged.buckets i = some (merged.bucketOffsets i)) ∧
    inShard.Perm (s.finished.flatMap fun work => work.2.inShard) ∧
    merged.stringOffsets = storeOffsets
      (fun inputOffset => if inputOffset ∈ insertedOffsets full groups then some ⟨0⟩ else none)
      inShard ∧
    overflowed.Perm (s.finished.flatMap fun work => work.2.overflowed) ∧
    merged.overflowedStringOffsets = storeOffsets (fun _ => none) overflowed

/-- `merge_strings`, for one output section. -/
inductive MergeStrings (hash : Bytes → UInt64) (full : ℕ → Bool) (size : ℕ)
    (extras : List StringMergeSectionExtra) : MergedStringsSection → Prop
  | nothing : inputSections extras = [] → MergeStrings hash full size extras {}
  | merged {merged : MergedStringsSection} : inputSections extras ≠ [] →
      AddInputSections hash full size (inputSections extras) merged →
      MergeStrings hash full size extras merged

/-! ## Writing the section -/

/-- The strings of a bucket, copied one after the other; a buffer that is
too short panics. -/
def writeStrings : List Bytes → Bytes → Option Bytes
  | [], buffer => some buffer
  | string :: strings, buffer =>
    if string.length ≤ buffer.length then
      (writeStrings strings (buffer.drop string.length)).map (string ++ ·)
    else none

/-- `write_merged_strings_to_buffer` -/
def writeBuckets : List MergeStringsSectionBucket → Bytes → Option Bytes
  | [], buffer => some buffer
  | bucket :: buckets, buffer =>
    if bucket.nextOffset ≤ buffer.length then
      match writeStrings bucket.strings (buffer.take bucket.nextOffset),
        writeBuckets buckets (buffer.drop bucket.nextOffset) with
      | some here, some rest => some (here ++ rest)
      | _, _ => none
    else none

/-- `write_merged_strings` writes a section that is not empty. -/
def MergedStringsSection.write (merged : MergedStringsSection) (buffer : Bytes) : Option Bytes :=
  if 0 < merged.len then writeBuckets merged.buckets buffer else some buffer

end Sld.Strings
