/-
# `Strings.PreservedContent` — the merged section holds the strings

Every string of the input resolves to a place of the merged section that
holds its bytes, equal strings share a place and different ones do not
overlap, as long as every bucket can count its bytes.

A bucket counts them in 32 bits, and is refused only when a string starts
too far behind.  A bucket of 4 GiB or more whose last string is the long one
goes unnoticed, and gives up more room than it takes: the buckets after it
are too near, and a section that seems empty is not written at all
(`merged_strings_preserved_iff`).
-/
import Sld.Store.Patches
import Sld.Strings.MergedContent

namespace Sld.Strings

open Layout (nextMultipleOf)
open Store (window)
open List (flatMap_cons length_drop length_take map_cons mem_cons mem_cons_of_mem mem_cons_self
  sum_cons)
open MergeStringsSectionBucket (addString_eq keep offsetOf outputOffset)
open MergedStringsSection (len position write)

/-! ## The strings of the input -/

/-- The pieces of the bytes up to their null bytes; a piece without one is
dropped. -/
def splitAtNulls : Bytes → List Bytes
  | [] => []
  | byte :: rest =>
    if byte = 0 then [byte] :: splitAtNulls rest
    else
      match splitAtNulls rest with
      | [] => []
      | string :: strings => (byte :: string) :: strings

def sectionStrings (sec : StringMergeInputSection) : List Bytes :=
  if sec.isString then splitAtNulls sec.sectionData else [sec.sectionData]

/-- The bytes of the different strings that go to a bucket. -/
def bucketSize (hash : Bytes → UInt64) (sections : List StringMergeInputSection)
    (i : Fin mergeStringBuckets) : ℕ :=
  total (((sections.flatMap sectionStrings).filter fun string => bucketOf hash string = i).dedup)

/-- Every bucket can count its bytes. -/
def BucketsFit (hash : Bytes → UInt64) (sections : List StringMergeInputSection) : Prop :=
  ∀ i, bucketSize hash sections i < 2 ^ 32

theorem splitAtNulls_append {body : Bytes} (hbody : 0 ∉ body) (rest : Bytes) :
    splitAtNulls (body ++ [0] ++ rest) = (body ++ [0]) :: splitAtNulls rest := by
  induction body with
  | nil => rfl
  | cons byte body ih =>
    have hbyte : byte ≠ 0 := fun heq => hbody (heq ▸ mem_cons_self)
    have hrest := ih fun hmem => hbody (mem_cons_of_mem _ hmem)
    simp only [List.cons_append]
    rw [splitAtNulls, if_neg hbyte, hrest]

theorem splitAtNulls_of_not_mem {bytes : Bytes} (h : 0 ∉ bytes) : splitAtNulls bytes = [] := by
  induction bytes with
  | nil => rfl
  | cons byte bytes ih =>
    rw [splitAtNulls, if_neg fun heq : byte = 0 => h (heq ▸ mem_cons_self),
      ih fun hmem => h (mem_cons_of_mem _ hmem)]

variable {string : Bytes}

theorem mem_splitAtNulls {bytes : Bytes} :
    string ∈ splitAtNulls bytes ↔ ∃ offset, StartsAt bytes offset string := by
  induction hlen : bytes.length using Nat.strong_induction_on generalizing bytes with
  | _ length ih =>
    cases hfirst : takeString bytes with
    | error e =>
      have hnot : 0 ∉ bytes := by
        unfold takeString at hfirst
        split at hfirst
        · cases hfirst
        · next hnone =>
          intro hmem
          have := List.findIdx?_eq_none_iff.mp hnone 0 hmem
          simp at this
      rw [splitAtNulls_of_not_mem hnot]
      refine iff_of_false List.not_mem_nil ?_
      rintro ⟨offset, hterm, hprefix', -⟩
      obtain ⟨body, rfl, -⟩ := hterm
      refine hnot (List.mem_of_mem_drop (hprefix'.subset ?_))
      exact List.mem_append_right _ (List.mem_singleton_self _)
    | ok pieces =>
      obtain ⟨first, rest⟩ := pieces
      have hshorter := length_of_takeString hfirst
      obtain ⟨hterm, rfl⟩ := takeString_eq_ok hfirst
      have hrest := ih rest.length (hlen ▸ hshorter) rfl
      have hsplit : splitAtNulls (first ++ rest) = first :: splitAtNulls rest := by
        obtain ⟨body, rfl, hbody⟩ := hterm
        exact splitAtNulls_append hbody rest
      rw [hsplit, mem_cons, hrest]
      constructor
      · rintro (rfl | ⟨offset, hstarts⟩)
        · exact ⟨0, (startsAt_append hterm).mpr (.inl ⟨rfl, rfl⟩)⟩
        · refine ⟨first.length + offset, (startsAt_append hterm).mpr (.inr ?_)⟩
          exact ⟨Nat.le_add_right _ _, by rwa [Nat.add_sub_cancel_left]⟩
      · rintro ⟨offset, hstarts⟩
        rcases (startsAt_append hterm).mp hstarts with ⟨-, rfl⟩ | ⟨-, hstarts⟩
        · exact .inl rfl
        · exact .inr ⟨_, hstarts⟩

theorem mem_sectionStrings {sec : StringMergeInputSection} :
    string ∈ sectionStrings sec ↔ ∃ offset, sec.StringAt offset string := by
  unfold sectionStrings StringMergeInputSection.StringAt
  cases sec.isString with
  | true =>
    exact mem_splitAtNulls
  | false =>
    simp only [Bool.false_eq_true, if_false, List.mem_singleton]
    exact ⟨fun heq => ⟨0, rfl, heq⟩, fun ⟨_, _, heq⟩ => heq⟩

theorem mem_flatMap_sectionStrings {sections : List StringMergeInputSection} :
    string ∈ sections.flatMap sectionStrings ↔ ∃ x, StringOf sections x string := by
  rw [List.mem_flatMap]
  constructor
  · rintro ⟨sec, hsec, hmem⟩
    obtain ⟨offset, hat⟩ := mem_sectionStrings.mp hmem
    exact ⟨_, sec, hsec, offset, rfl, hat⟩
  · rintro ⟨x, sec, hsec, offset, -, hat⟩
    exact ⟨sec, hsec, mem_sectionStrings.mpr ⟨offset, hat⟩⟩

/-! ## Preserved content -/

structure PreservesContent (sections : List StringMergeInputSection)
    (merged : MergedStringsSection) : Prop where
  /-- The section is written, and a string is where it resolves to. -/
  holds : ∀ buffer, buffer.length = merged.len → ∃ content, merged.write buffer = some content ∧
    ∀ x s, StringOf sections x s → ∃ offset, merged.stringOffsetAtInput x = some offset ∧
      window content (merged.position offset) s.length = s
  equal : ∀ x y s, StringOf sections x s → StringOf sections y s →
    merged.stringOffsetAtInput x = merged.stringOffsetAtInput y
  apart : ∀ x y s t, StringOf sections x s → StringOf sections y t → s ≠ t → ∀ a b,
    merged.stringOffsetAtInput x = some a → merged.stringOffsetAtInput y = some b →
    merged.position a + s.length ≤ merged.position b ∨
      merged.position b + t.length ≤ merged.position a

/-- Two outcomes that no reader can tell apart. -/
structure SameResult (merged merged' : MergedStringsSection) : Prop where
  buckets : merged'.buckets = merged.buckets
  bucketOffsets : ∀ i < mergeStringBuckets, merged'.bucketOffsets i = merged.bucketOffsets i
  resolves : ∀ x, merged'.stringOffsetAtInput x = merged.stringOffsetAtInput x

section

variable {hash : Bytes → UInt64} {all : List (ℕ × Bytes)} {merged : MergedStringsSection}

/-! ### Places in the list of all strings -/

theorem window_append (before s after : Bytes) :
    window (before ++ s ++ after) before.length s.length = s := by
  rw [window, List.append_assoc, List.drop_left, List.take_left]

variable {strings : List Bytes}

theorem apart_of_split {before after before' after' : List Bytes} {s t : Bytes}
    (h : strings = before ++ s :: after) (h' : strings = before' ++ t :: after') (hne : s ≠ t) :
    total before + s.length ≤ total before' ∨ total before' + t.length ≤ total before := by
  rcases List.append_eq_append_iff.mp (h.symm.trans h') with ⟨middle, hbefore, hafter⟩ |
      ⟨middle, hbefore, hafter⟩
  · cases middle with
    | nil =>
      exact absurd (List.cons.inj hafter).1 hne
    | cons first middle =>
      obtain ⟨rfl, -⟩ := List.cons.inj hafter
      rw [hbefore, total_append, total_cons]
      omega
  · cases middle with
    | nil =>
      exact absurd (List.cons.inj hafter).1.symm hne
    | cons first middle =>
      obtain ⟨rfl, -⟩ := List.cons.inj hafter
      rw [hbefore, total_append, total_cons]
      omega

variable {buckets : List MergeStringsSectionBucket}

theorem bucketOffset_eq_some : ∀ {i start : ℕ}, bucketOffset buckets i = some start →
      start = ((buckets.take i).map MergeStringsSectionBucket.nextOffset).sum
  | 0, start, h => (Option.some.inj h).symm
  | i + 1, start, h => by
    rw [bucketOffset] at h
    cases hprev : bucketOffset buckets i with
    | none =>
      rw [hprev] at h
      cases h
    | some previous =>
      cases hbucket : buckets[i]? with
      | none =>
        rw [hprev, hbucket] at h
        cases h
      | some bucket =>
        rw [hprev, hbucket] at h
        cases h
        rw [bucketOffset_eq_some hprev, List.take_add_one, hbucket, List.map_append,
          List.sum_append]
        simp

theorem Merged.length_buckets (h : Merged hash all merged) :
    merged.buckets.length = mergeStringBuckets := by
  rw [h.buckets, List.length_ofFn]

theorem Merged.getElem?_buckets (h : Merged hash all merged) (i : Fin mergeStringBuckets) :
    merged.buckets[(i : ℕ)]? = some (finalBucket hash all i) := by
  rw [h.buckets, List.getElem?_ofFn, dif_pos i.isLt]

theorem Merged.len_eq (h : Merged hash all merged) :
    merged.len = (merged.buckets.map MergeStringsSectionBucket.nextOffset).sum := by
  have hlast := h.getElem?_buckets ⟨15, by decide⟩
  have hstart := bucketOffset_eq_some (h.bucketOffsets 15 (by decide))
  have hlen := h.length_buckets
  have hget : merged.buckets.getLast? = some (finalBucket hash all ⟨15, by decide⟩) := by
    rw [List.getLast?_eq_getElem?, hlen]
    exact hlast
  have hsplit : merged.buckets = merged.buckets.take 15 ++ [finalBucket hash all ⟨15, by decide⟩] := by
    have := List.take_add_one (l := merged.buckets) (i := 15)
    rw [hlast, Option.toList_some] at this
    rw [← this, List.take_of_length_le (by rw [hlen])]
  rw [len, hget]
  simp only [index_finalBucket]
  rw [hstart]
  conv_rhs => rw [hsplit]
  rw [List.map_append, List.sum_append, List.map_singleton, List.sum_singleton, Nat.add_comm]

/-- All buckets count right. -/
def Counted (merged : MergedStringsSection) : Prop :=
  ∀ bucket ∈ merged.buckets, bucket.nextOffset = total bucket.strings

theorem sum_nextOffset (h : ∀ bucket ∈ buckets, bucket.nextOffset = total bucket.strings) :
    (buckets.map MergeStringsSectionBucket.nextOffset).sum =
      total (buckets.flatMap MergeStringsSectionBucket.strings) := by
  induction buckets with
  | nil => rfl
  | cons bucket buckets ih =>
    rw [map_cons, sum_cons, flatMap_cons, total_append,
      h bucket mem_cons_self, ih fun b hb => h b (mem_cons_of_mem _ hb)]

theorem Merged.position_eq (h : Merged hash all merged) (hcounted : Counted merged) {x : ℕ}
    {s : Bytes} (hmem : (x, s) ∈ all) {offset : BucketOffset}
    (hoff : merged.stringOffsetAtInput x = some offset) (hunique : ∀ t, (x, t) ∈ all → t = s) :
    ∃ before after, merged.buckets.flatMap MergeStringsSectionBucket.strings =
      before ++ s :: after ∧ merged.position offset = total before := by
  obtain ⟨t, ht, rfl⟩ := (h.resolves x offset).mp hoff
  obtain rfl := hunique t ht
  have hbucket := h.getElem?_buckets (bucketOf hash t)
  have hin : t ∈ (finalBucket hash all (bucketOf hash t)).strings :=
    ((keeps_finalBucket _).mem t).mpr (mem_bucketStrings.mpr ⟨rfl, x, hmem⟩)
  obtain ⟨before, after, hstrs⟩ := List.append_of_mem hin
  have hcount := hcounted _ (List.mem_of_getElem? hbucket)
  have hnext := (@keeps_finalBucket hash all (bucketOf hash t)).nextOffset
  have hlookup := ((keeps_finalBucket _).lookup t _).mpr ⟨before, after, hstrs, rfl⟩
  -- the bucket counts right, so the string starts where 32 bits say
  have hstart : (finalBucket hash all (bucketOf hash t)).offsetOf t = total before := by
    rw [offsetOf, hlookup, Option.getD_some]
    rw [hcount, hstrs, total_append] at hnext
    omega
  have hsmall := h.small x t hmem
  obtain ⟨hlt, hget⟩ := List.getElem?_eq_some_iff.mp hbucket
  refine ⟨(merged.buckets.take (bucketOf hash t)).flatMap MergeStringsSectionBucket.strings ++ before,
    after ++ (merged.buckets.drop (bucketOf hash t + 1)).flatMap
      MergeStringsSectionBucket.strings, ?_, ?_⟩
  · conv_lhs => rw [← List.take_append_drop (bucketOf hash t : ℕ) merged.buckets,
      List.drop_eq_getElem_cons hlt, hget]
    rw [List.flatMap_append, flatMap_cons, hstrs]
    simp
  · rw [position, outputOffset, index_finalBucket,
      BucketOffset.bucket_mk hsmall, BucketOffset.offsetInBucket_mk hsmall, hstart, total_append,
      bucketOffset_eq_some (h.bucketOffsets _ (bucketOf hash t).isLt), sum_nextOffset]
    exact fun bucket hb => hcounted bucket (List.mem_of_mem_take hb)

/-! ### Writing -/

variable {buffer : Bytes}

theorem writeStrings_eq
    (h : buffer.length = total strings) : writeStrings strings buffer = some strings.flatten := by
  induction strings generalizing buffer with
  | nil =>
    rw [total_nil, List.length_eq_zero_iff] at h
    subst h
    rfl
  | cons string strings ih =>
    rw [total_cons] at h
    rw [writeStrings, if_pos (by omega), ih (by rw [length_drop]; omega)]
    rfl

theorem le_of_writeStrings {content : Bytes}
    (h : writeStrings strings buffer = some content) : total strings ≤ buffer.length := by
  induction strings generalizing buffer content with
  | nil => exact Nat.zero_le _
  | cons string strings ih =>
    rw [writeStrings] at h
    split at h
    next hle =>
      obtain ⟨rest, hrest, -⟩ := Option.map_eq_some_iff.mp h
      have := ih hrest
      rw [length_drop] at this
      rw [total_cons]
      omega
    next => cases h

theorem writeBuckets_eq (hcounted : ∀ bucket ∈ buckets, bucket.nextOffset = total bucket.strings)
    (h : buffer.length = (buckets.map MergeStringsSectionBucket.nextOffset).sum) :
    writeBuckets buckets buffer =
      some (buckets.flatMap MergeStringsSectionBucket.strings).flatten := by
  induction buckets generalizing buffer with
  | nil =>
    rw [List.map_nil, List.sum_nil, List.length_eq_zero_iff] at h
    subst h
    rfl
  | cons bucket buckets ih =>
    rw [map_cons, sum_cons] at h
    have hhere := hcounted bucket mem_cons_self
    rw [writeBuckets, if_pos (by omega),
      writeStrings_eq (by rw [length_take, ← hhere]; omega),
      ih (fun b hb => hcounted b (mem_cons_of_mem _ hb)) (by rw [length_drop]; omega)]
    rw [flatMap_cons, List.flatten_append]

theorem le_of_writeBuckets {content : Bytes} (h : writeBuckets buckets buffer = some content) :
    ∀ bucket ∈ buckets, total bucket.strings ≤ bucket.nextOffset := by
  induction buckets generalizing buffer content with
  | nil => exact nofun
  | cons bucket buckets ih =>
    rw [writeBuckets] at h
    split at h
    next hle =>
      split at h
      next here rest hhere hrest =>
        intro b hb
        rcases mem_cons.mp hb with rfl | hb
        · have := le_of_writeStrings hhere
          rw [length_take] at this
          omega
        · exact ih hrest b hb
      next => cases h
    next => cases h

/-! ### When the content is preserved -/

theorem counted_iff (h : Merged hash all merged) :
    Counted merged ↔ ∀ i, total (finalBucket hash all i).strings < 2 ^ 32 := by
  have hnext : ∀ i, (finalBucket hash all i).nextOffset =
      total (finalBucket hash all i).strings % 2 ^ 32 :=
    fun i => (keeps_finalBucket i).nextOffset
  constructor
  · intro hcounted i
    rw [← hcounted _ (List.mem_of_getElem? (h.getElem?_buckets i)), hnext]
    exact Nat.mod_lt _ (by decide)
  · intro hless bucket hb
    rw [h.buckets] at hb
    obtain ⟨i, rfl⟩ := List.mem_ofFn.mp hb
    rw [hnext, Nat.mod_eq_of_lt (hless i)]

theorem total_perm {strings' : List Bytes} (h : strings.Perm strings') :
    total strings = total strings' := (h.map _).sum_nat

variable {sections : List StringMergeInputSection}

theorem bucketSize_eq (hall : Lists all (StringOf sections)) (i : Fin mergeStringBuckets) :
    bucketSize hash sections i = total (finalBucket hash all i).strings := by
  refine total_perm ((List.perm_ext_iff_of_nodup (List.nodup_dedup _)
    (keeps_finalBucket i).nodup).mpr fun string => ?_)
  rw [List.mem_dedup, List.mem_filter, mem_flatMap_sectionStrings, (keeps_finalBucket i).mem,
    mem_bucketStrings, decide_eq_true_iff]
  simp only [hall.mem]
  exact and_comm

theorem Merged.preserves (h : Merged hash all merged) (hall : Lists all (StringOf sections))
    (hcounted : Counted merged) : PreservesContent sections merged := by
  have hresolves : ∀ x s, StringOf sections x s → ∃ offset,
      merged.stringOffsetAtInput x = some offset := by
    intro x s hx
    exact ⟨_, (h.resolves x _).mpr ⟨s, (hall.mem x s).mpr hx, rfl⟩⟩
  have hunique : ∀ x s, StringOf sections x s → ∀ t, (x, t) ∈ all → t = s :=
    fun x s hx t ht => hall.eq_of_fst ht ((hall.mem x s).mpr hx)
  refine ⟨fun buffer hbuffer => ?_, fun x y s hx hy => ?_, fun x y s t hx hy hne a b ha hb => ?_⟩
  · refine ⟨(merged.buckets.flatMap MergeStringsSectionBucket.strings).flatten, ?_, ?_⟩
    · rw [write]
      rw [h.len_eq] at hbuffer ⊢
      split
      · exact writeBuckets_eq hcounted hbuffer
      · next hzero =>
        have htotal := sum_nextOffset hcounted
        have hnil : (merged.buckets.flatMap MergeStringsSectionBucket.strings).flatten = [] := by
          rw [← List.length_eq_zero_iff, length_flatten_eq_total]
          omega
        rw [hnil, List.length_eq_zero_iff.mp (by omega : buffer.length = 0)]
    · intro x s hx
      obtain ⟨offset, hoff⟩ := hresolves x s hx
      obtain ⟨before, after, hsplit, hposition⟩ :=
        h.position_eq hcounted ((hall.mem x s).mpr hx) hoff (hunique x s hx)
      refine ⟨offset, hoff, ?_⟩
      rw [hposition, hsplit, List.flatten_append, List.flatten_cons, ← length_flatten_eq_total,
        ← List.append_assoc]
      exact window_append ..
  · obtain ⟨a, ha⟩ := hresolves x s hx
    obtain ⟨t, ht, hat⟩ := (h.resolves x a).mp ha
    obtain rfl := hunique x s hx t ht
    rw [ha]
    exact ((h.resolves y a).mpr ⟨t, (hall.mem y t).mpr hy, hat⟩).symm
  · obtain ⟨before, after, hsplit, hposition⟩ :=
      h.position_eq hcounted ((hall.mem x s).mpr hx) ha (hunique x s hx)
    obtain ⟨before', after', hsplit', hposition'⟩ :=
      h.position_eq hcounted ((hall.mem y t).mpr hy) hb (hunique y t hy)
    rw [hposition, hposition']
    exact apart_of_split hsplit hsplit' hne

theorem Merged.counted_of_preserves
    (h : Merged hash all merged) (hall : Lists all (StringOf sections))
    (hdata : ∀ sec ∈ sections, sec.sectionData ≠ []) (hpreserves : PreservesContent sections merged) :
    Counted merged := by
  obtain ⟨content, hwrite, hstrs⟩ :=
    hpreserves.holds (List.replicate merged.len 0) List.length_replicate
  rw [counted_iff h]
  intro i
  have hbucket := List.mem_of_getElem? (h.getElem?_buckets i)
  have hnext := (@keeps_finalBucket hash all i).nextOffset
  rw [write] at hwrite
  split at hwrite
  · have hle := le_of_writeBuckets hwrite _ hbucket
    have hlt := Nat.mod_lt (total (finalBucket hash all i).strings) (show 0 < 2 ^ 32 by decide)
    omega
  · next hzero =>
    cases hwrite
    -- nothing is written, so there are no strings
    cases hkept : (finalBucket hash all i).strings with
    | nil => exact Nat.two_pow_pos 32
    | cons s strings =>
      have hs : s ∈ bucketStrings hash all i :=
        ((keeps_finalBucket i).mem s).mp (hkept ▸ mem_cons_self)
      obtain ⟨-, x, hx⟩ := mem_bucketStrings.mp hs
      have hof := (hall.mem x s).mp hx
      obtain ⟨offset, -, hwindow⟩ := hstrs x s hof
      obtain ⟨sec, hsec, o, -, hat⟩ := hof
      have hpos := (hat.lt (hdata sec hsec)).2
      have hlen := congrArg List.length hwindow
      rw [window, length_take, length_drop, List.length_replicate] at hlen
      omega

theorem Merged.same {merged' : MergedStringsSection} (h : Merged hash all merged)
    (h' : Merged hash all merged') : SameResult merged merged' where
  buckets := h'.buckets.trans h.buckets.symm
  bucketOffsets i hi := by
    have hbuckets := h'.buckets.trans h.buckets.symm
    have := h'.bucketOffsets i hi
    rw [hbuckets, h.bucketOffsets i hi] at this
    exact (Option.some.inj this).symm
  resolves x := by
    refine Option.ext fun b => ?_
    rw [h'.resolves, h.resolves]

end

/-! ## Merging the strings of an output section -/

section

variable {hash : Bytes → UInt64} {full full' : ℕ → Bool} {size size' : ℕ}
  {extras : List StringMergeSectionExtra} {merged merged' : MergedStringsSection}

theorem MergeStrings.same (h : MergeStrings hash full size extras merged)
    (h' : MergeStrings hash full' size' extras merged') : SameResult merged merged' := by
  cases h with
  | nothing hnil =>
    cases h' with
    | nothing _ => exact ⟨rfl, fun _ _ => rfl, fun _ => rfl⟩
    | merged hne _ => exact absurd hnil hne
  | merged hne hadd =>
    cases h' with
    | nothing hnil => exact absurd hnil hne
    | merged _ hadd' =>
      obtain ⟨all, hall, hmerged⟩ := hadd.merged
      obtain ⟨all', hall', hmerged'⟩ := hadd'.merged
      obtain rfl := hall.unique hall'
      exact hmerged.same hmerged'

theorem MergeStrings.preserves_iff (h : MergeStrings hash full size extras merged) :
    PreservesContent (inputSections extras) merged ↔ BucketsFit hash (inputSections extras) := by
  cases h with
  | nothing hnil =>
    rw [hnil]
    have hno : ∀ x s, ¬ StringOf [] x s := fun x s ⟨_, hsec, _⟩ => nomatch hsec
    refine iff_of_true ⟨fun buffer _ => ⟨buffer, rfl, fun x s hx => absurd hx (hno x s)⟩,
      fun x _ s hx => absurd hx (hno x s), fun x _ s _ hx => absurd hx (hno x s)⟩ fun i => ?_
    exact Nat.two_pow_pos 32
  | merged hne hadd =>
    obtain ⟨all, hall, hmerged⟩ := hadd.merged
    have hfit : BucketsFit hash (inputSections extras) ↔ Counted merged := by
      rw [counted_iff hmerged]
      exact forall_congr' fun i => by rw [bucketSize_eq hall]
    rw [hfit]
    exact ⟨hmerged.counted_of_preserves hall sectionData_ne_nil, hmerged.preserves hall⟩

/-! ### One section -/

theorem inputSections_single {extra : StringMergeSectionExtra} (hdata : extra.sectionData ≠ []) :
    inputSections [extra] = [⟨extra.sectionData, 0, extra.isStrings⟩] := by
  have hfilter : resolveMergeSections [extra] = [extra] := by
    refine List.filter_cons_of_pos ?_
    simpa using hdata
  rw [inputSections, hfilter]
  rfl

theorem takeString_of_terminated {string : Bytes} (h : Terminated string) :
    takeString string = .ok (string, []) := by
  obtain ⟨body, rfl, hbody⟩ := h
  have hfind : (body ++ [0]).findIdx? (· = (0 : UInt8)) = some body.length := by
    rw [List.findIdx?_eq_some_iff_getElem]
    refine ⟨by simp, by simp, fun j hj => ?_⟩
    rw [List.getElem_append_left hj, decide_eq_true_iff]
    exact fun hzero => hbody (hzero ▸ List.getElem_mem hj)
  unfold takeString
  rw [hfind]
  simp [List.take_of_length_le]

theorem splitSections_single {sec : StringMergeInputSection} (hblocks : mapBlockSize ∣ size)
    (hsize : 0 < size) (hwhole : sec.isString = true → sec.paddedLen ≤ size) :
    splitSections [sec] size =
      some [⟨[sec], (sec.startInputOffset, sec.startInputOffset + sec.paddedLen)⟩] := by
  have hfill : fillGroup sec [] 0 size =
      ⟨[sec], sec.startInputOffset + (0 + (sec.paddedLen - 0)), [], 0⟩ := by
    unfold fillGroup
    rw [if_neg]
    rintro ⟨hlt, hstr⟩
    have := hwhole hstr
    omega
  rw [splitSections, dif_pos ⟨hblocks, hsize⟩, splitSectionsFrom, hfill, splitSectionsFrom]
  simp

theorem processInputSection_single {range : ℕ × ℕ} {sec : StringMergeInputSection}
    (hdata : sec.sectionData ≠ []) (hterm : sec.isString = true → Terminated sec.sectionData)
    (hstart : range.1 ≤ sec.startInputOffset) (hend : sec.startInputOffset < range.2) :
    processInputSection range sec = .ok [(sec.startInputOffset, sec.sectionData)] := by
  rw [processInputSection, StringMergeInputSection.advance, if_neg (Nat.not_lt.mpr hstart)]
  cases hstr : sec.isString with
  | false => simp
  | true =>
    have htake := takeString_of_terminated (hterm hstr)
    have hmore : ¬ (sec.sectionData = [] ∨ range.2 ≤ sec.startInputOffset) := by
      rintro (hnil | hpast)
      · exact hdata hnil
      · exact absurd hend (Nat.not_lt.mpr hpast)
    simp only [Bool.not_true, Bool.false_eq_true, if_false, Nat.add_zero, List.drop_zero]
    rw [takeStrings, if_neg hmore]
    split
    next e herror =>
      rw [htake] at herror
      cases herror
    next string rest heq =>
      rw [htake] at heq
      cases heq
      rw [takeStrings]
      rfl

theorem groupStrings_single {sec : StringMergeInputSection} (hdata : sec.sectionData ≠ [])
    (hterm : sec.isString = true → Terminated sec.sectionData) :
    groupStrings ⟨[sec], (sec.startInputOffset, sec.startInputOffset + sec.paddedLen)⟩ =
      .ok [(sec.startInputOffset, sec.sectionData)] := by
  have hpos := List.length_pos_of_ne_nil hdata
  have hle := length_le_paddedLen sec
  have hend : sec.startInputOffset < sec.startInputOffset + sec.paddedLen := by omega
  have hprocess := @processInputSection_single
    (sec.startInputOffset, sec.startInputOffset + sec.paddedLen) sec hdata hterm
    (Nat.le_refl _) hend
  rw [groupStrings, List.mapM_cons, hprocess]
  rfl

theorem processSplitOutput_single (i : Fin mergeStringBuckets) (entry : ℕ × Bytes) :
    ∃ work, BucketWork.processSplitOutput ⟨{ index := i }, [], []⟩
      (([entry].filter fun entry => bucketOf hash entry.2 = i).map (insertData full)) =
        .ok work := by
  by_cases hbucket : bucketOf hash entry.2 = i
  · have hfilter : [entry].filter (fun entry => bucketOf hash entry.2 = i) = [entry] :=
      List.filter_cons_of_pos (decide_eq_true hbucket)
    rw [hfilter, List.map_singleton, BucketWork.processSplitOutput, List.foldlM_cons,
      BucketWork.processString, addString_eq, BucketOffset.new_of_lt]
    · exact ⟨_, rfl⟩
    · simp [keep, offsetOf]
  · have hfilter : [entry].filter (fun entry => bucketOf hash entry.2 = i) = [] :=
      List.filter_cons_of_neg fun heq => hbucket (of_decide_eq_true heq)
    rw [hfilter]
    exact ⟨_, rfl⟩

theorem exists_bucketOffset {buckets : List MergeStringsSectionBucket} :
    ∀ {i}, i ≤ buckets.length → ∃ start, bucketOffset buckets i = some start
  | 0, _ => ⟨0, rfl⟩
  | i + 1, hi => by
    obtain ⟨previous, hprev⟩ := exists_bucketOffset (Nat.le_of_succ_le hi)
    rw [bucketOffset, hprev, List.getElem?_eq_getElem hi]
    exact ⟨_, rfl⟩

theorem exists_mergeStrings_of_group {extras : List StringMergeSectionExtra} {group : SectionGroup}
    {entries : List (ℕ × Bytes)} (hsome : inputSections extras ≠ [])
    (hsplit : splitSections (inputSections extras) size = some [group])
    (hstrs : groupStrings group = .ok entries) (hbuckets : ∀ i : Fin mergeStringBuckets, ∃ work,
      BucketWork.processSplitOutput ⟨{ index := i }, [], []⟩
        ((entries.filter fun entry => bucketOf hash entry.2 = i).map (insertData full)) =
          .ok work) :
    ∃ merged, MergeStrings hash full size extras merged := by
  have hmessages : (mergeSystem hash full [group] Nat.one_pos).split 0 = .ok fun bucket =>
      (entries.filter fun entry => bucketOf hash entry.2 = bucket).map (insertData full) := by
    simp only [mergeSystem, List.getElem?_cons_zero, processInputSectionGroup, hstrs, Except.map]
  obtain ⟨s, hreachable, herrors, hended, hlen⟩ := @Handover.exists_ended _ _ _ _
    (mergeSystem hash full [group] Nat.one_pos)
    (fun g hg => by
      obtain rfl := Nat.lt_one_iff.mp hg
      exact ⟨_, hmessages⟩)
    (fun i n hn => by
      rcases Nat.le_one_iff_eq_zero_or_eq_one.mp hn with rfl | rfl
      · exact ⟨_, rfl⟩
      · rw [Handover.System.received_succ _ rfl hmessages]
        exact hbuckets i)
  obtain ⟨buckets, hbuckets⟩ : ∃ buckets, buckets =
      (s.finished.map fun work => work.2.bucket).insertionSort fun a b => a.index ≤ b.index :=
    ⟨_, rfl⟩
  have hcount : buckets.length = mergeStringBuckets := by
    rw [hbuckets, List.length_insertionSort, List.length_map, hlen]
  refine ⟨⟨buckets, fun i => (bucketOffset buckets i).getD 0, _, _⟩, .merged hsome ⟨[group],
    Nat.one_pos, s, _, _, hsplit, hreachable, hended, herrors, hbuckets, fun i hi => ?_, .refl _,
    rfl, .refl _, rfl⟩⟩
  obtain ⟨start, hstart⟩ := exists_bucketOffset (hcount ▸ Nat.le_of_lt hi)
  show bucketOffset buckets i = some ((bucketOffset buckets i).getD 0)
  rw [hstart, Option.getD_some]

theorem exists_mergeStrings {extra : StringMergeSectionExtra} (hdata : extra.sectionData ≠ [])
    (hterm : extra.isStrings = true → Terminated extra.sectionData)
    (hblocks : mapBlockSize ∣ size) (hsize : 0 < size) (hwhole : extra.isStrings = true →
      nextMultipleOf extra.sectionData.length mapBlockSize ≤ size) :
    ∃ merged, MergeStrings hash full size [extra] merged := by
  have hinput := inputSections_single hdata
  have hsplit := @splitSections_single size ⟨extra.sectionData, 0, extra.isStrings⟩ hblocks
    hsize hwhole
  refine exists_mergeStrings_of_group ?_ (hinput ▸ hsplit)
    (@groupStrings_single ⟨extra.sectionData, 0, extra.isStrings⟩ hdata hterm)
    fun i => processSplitOutput_single i _
  rw [hinput]
  exact List.cons_ne_nil _ _

theorem bucketSize_single {data : Bytes} (hdata : data ≠ []) :
    bucketSize hash (inputSections [⟨data, false⟩]) (bucketOf hash data) = data.length := by
  rw [inputSections_single hdata, bucketSize]
  simp [sectionStrings]

theorem not_preserved_of_large {data : Bytes} (hlarge : 2 ^ 32 ≤ data.length) :
    ∃ merged, MergeStrings hash full 256 [⟨data, false⟩] merged ∧
      ¬ PreservesContent (inputSections [⟨data, false⟩]) merged := by
  have hdata : data ≠ [] := List.ne_nil_of_length_pos (Nat.lt_of_lt_of_le (Nat.two_pow_pos 32) hlarge)
  obtain ⟨merged, hmerged⟩ := @exists_mergeStrings hash full 256 ⟨data, false⟩ hdata
    (fun h => absurd h Bool.false_ne_true) (Nat.dvd_refl 256) (by decide)
    fun h => absurd h Bool.false_ne_true
  refine ⟨merged, hmerged, fun hpreserves => ?_⟩
  have hfit := hmerged.preserves_iff.mp hpreserves (bucketOf hash data)
  rw [bucketSize_single hdata] at hfit
  exact absurd hfit (Nat.not_lt.mpr hlarge)

/-- After merging, with any size of the groups and any order of the tasks,
the content is preserved and the outcome is the only one, exactly when the
different strings of each bucket take less than 4 GiB. -/
theorem merged_strings_preserved_iff (h : MergeStrings hash full size extras merged) :
    (PreservesContent (inputSections extras) merged ∧
      ∀ full' size' merged', MergeStrings hash full' size' extras merged' →
        SameResult merged merged') ↔
      BucketsFit hash (inputSections extras) := by
  rw [and_iff_left fun _ _ _ h' => h.same h']
  exact h.preserves_iff

end

def greeting : Bytes := [104, 105, 0]

/-- Two sections of one string, the same or not. -/
def twoStrings (letter : UInt8) : List StringMergeSectionExtra :=
  [⟨greeting, true⟩, ⟨[104, letter, 0], true⟩]

theorem terminated_greeting : Terminated greeting := ⟨[104, 105], rfl, by decide⟩

theorem exists_twoStrings {letter : UInt8} (h : letter = 105 ∨ letter = 111) :
    ∃ merged, MergeStrings (fun _ => 0) (fun _ => false) 512 (twoStrings letter) merged ∧
      Lists [(0, greeting), (256, [104, letter, 0])]
        (StringOf (inputSections (twoStrings letter))) := by
  have hinput : inputSections (twoStrings letter) =
      [⟨greeting, 0, true⟩, ⟨[104, letter, 0], 256, true⟩] := rfl
  have hsplit : splitSections (inputSections (twoStrings letter)) 512 =
      some [⟨[⟨greeting, 0, true⟩, ⟨[104, letter, 0], 256, true⟩], (0, 512)⟩] := by
    rw [hinput, splitSections, dif_pos (by decide), splitSectionsFrom]
    have hfill : fillGroup ⟨greeting, 0, true⟩ [⟨[104, letter, 0], 256, true⟩] 0 512 =
        ⟨[⟨greeting, 0, true⟩, ⟨[104, letter, 0], 256, true⟩], 512, [], 0⟩ := by
      rcases h with rfl | rfl
      · rfl
      · rfl
    rw [hfill, splitSectionsFrom]
  have hletter : Terminated [104, letter, 0] := by
    refine ⟨[104, letter], rfl, ?_⟩
    rcases h with rfl | rfl
    · decide
    · decide
  have hgroup : groupStrings ⟨[⟨greeting, 0, true⟩, ⟨[104, letter, 0], 256, true⟩], (0, 512)⟩ =
      .ok [(0, greeting), (256, [104, letter, 0])] := by
    have hfirst := @processInputSection_single (0, 512) ⟨greeting, 0, true⟩
      (List.cons_ne_nil _ _) (fun _ => terminated_greeting) (by decide) (by decide)
    have hsecond := @processInputSection_single (0, 512) ⟨[104, letter, 0], 256, true⟩
      (List.cons_ne_nil _ _) (fun _ => hletter) (Nat.zero_le _) (show 256 < 512 by decide)
    rw [groupStrings, List.mapM_cons, hfirst, List.mapM_cons, hsecond]
    rfl
  have hlists := strings_of_groups hsplit (.cons hgroup .nil)
  rw [List.flatten_singleton] at hlists
  obtain ⟨merged, hmerged⟩ : ∃ merged,
      MergeStrings (fun _ => 0) (fun _ => false) 512 (twoStrings letter) merged := by
    refine exists_mergeStrings_of_group (List.cons_ne_nil _ _) hsplit hgroup fun i => ?_
    by_cases hbucket : bucketOf (fun _ => 0) greeting = i
    · have hall : ∀ entry : ℕ × Bytes, decide (bucketOf (fun _ => 0) entry.2 = i) = true :=
        fun _ => decide_eq_true hbucket
      rw [List.filter_eq_self.mpr fun entry _ => hall entry, ← hbucket]
      rcases h with rfl | rfl
      · exact ⟨_, rfl⟩
      · exact ⟨_, rfl⟩
    · have hnone : ∀ entry : ℕ × Bytes, ¬ decide (bucketOf (fun _ => 0) entry.2 = i) = true :=
        fun _ heq => hbucket (of_decide_eq_true heq)
      rw [List.filter_eq_nil_iff.mpr fun entry _ => hnone entry]
      exact ⟨_, rfl⟩
  exact ⟨merged, hmerged, hlists⟩

theorem bucketsFit_twoStrings : BucketsFit (fun _ => 0) (inputSections (twoStrings 111)) := by
  unfold BucketsFit
  decide

theorem merged_strings_preserved_greetings :
    ∃ merged, MergeStrings (fun _ => 0) (fun _ => false) 512 (twoStrings 111) merged ∧
      PreservesContent (inputSections (twoStrings 111)) merged := by
  obtain ⟨merged, hmerged, -⟩ := exists_twoStrings (.inr rfl)
  exact ⟨merged, hmerged,
    ((merged_strings_preserved_iff hmerged).mpr bucketsFit_twoStrings).1⟩

/-- One constant of 4 GiB is lost. -/
theorem merged_strings_lose_fourGiB :
    ¬ ∀ (hash : Bytes → UInt64) (full : ℕ → Bool) (size : ℕ)
      (extras : List StringMergeSectionExtra) (merged : MergedStringsSection),
      MergeStrings hash full size extras merged →
        PreservesContent (inputSections extras) merged ∧
          ∀ full' size' merged', MergeStrings hash full' size' extras merged' →
            SameResult merged merged' := by
  intro h
  obtain ⟨merged, hmerged, hnot⟩ := @not_preserved_of_large (fun _ => 0) (fun _ => false)
    (List.replicate (2 ^ 32) 0) (List.length_replicate).ge
  exact hnot (h _ _ _ _ _ hmerged).1

end Sld.Strings
