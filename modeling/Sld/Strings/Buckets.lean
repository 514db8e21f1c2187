/-
# `Strings.Buckets` — what a bucket keeps

A bucket keeps one copy of each string it is given and remembers where the
copy starts.  What it keeps depends on the strings only, in their order, and
not on the places where the offsets are stored (`BucketWork.Holds`).  A
string starts after the strings kept before it, as far as 32 bits can tell
(`Keeps.lookup`).
-/
import Sld.Order.SortDedup
import Sld.Strings.StringMerging

namespace Sld.Strings

open List (append_assoc mem_append mem_singleton not_mem_nil)

/-- The size of strings, one after the other. -/
def total (strings : List Bytes) : ℕ := (strings.map List.length).sum

@[simp] theorem total_nil : total [] = 0 := rfl

@[simp] theorem total_cons (string : Bytes) (strings : List Bytes) :
    total (string :: strings) = string.length + total strings := rfl

@[simp] theorem total_append (strings strings' : List Bytes) :
    total (strings ++ strings') = total strings + total strings' := by
  rw [total, List.map_append, List.sum_append, total, total]

theorem length_flatten_eq_total (strings : List Bytes) :
    strings.flatten.length = total strings := List.length_flatten

/-! ## Offsets in 32 bits -/

namespace BucketOffset

theorem new_eq_ok {offset bucket : ℕ} {b : BucketOffset} (h : new offset bucket = .ok b) :
    offset < 2 ^ 28 ∧ b = ⟨bucket <<< 28 ||| offset⟩ := by
  unfold new at h
  split at h
  next => cases h
  next hlt => exact ⟨Nat.lt_of_not_le hlt, (Except.ok.inj h).symm⟩

theorem new_of_lt {offset bucket : ℕ} (h : offset < 2 ^ 28) :
    new offset bucket = .ok ⟨bucket <<< 28 ||| offset⟩ := if_neg (Nat.not_le.mpr h)

variable {offset index : ℕ}

theorem bucket_mk (h : offset < 2 ^ 28) : (⟨index <<< 28 ||| offset⟩ : BucketOffset).bucket = index := by
  show (index <<< 28 ||| offset) >>> 28 = index
  rw [← Nat.shiftLeft_add_eq_or_of_lt h]
  omega

theorem offsetInBucket_mk (h : offset < 2 ^ 28) :
    (⟨index <<< 28 ||| offset⟩ : BucketOffset).offsetInBucket = offset := by
  show (index <<< 28 ||| offset) &&& (2 ^ 28 - 1) = offset
  rw [Nat.and_two_pow_sub_one_eq_mod, ← Nat.shiftLeft_add_eq_or_of_lt h]
  omega

end BucketOffset

/-! ## The strings of a bucket -/

namespace MergeStringsSectionBucket

/-- The bucket once it has a string. -/
def keep (bucket : MergeStringsSectionBucket) (string : Bytes) : MergeStringsSectionBucket :=
  match bucket.stringOffsets.lookup string with
  | some _ => bucket
  | none =>
    { bucket with
      strings := bucket.strings ++ [string]
      nextOffset := (bucket.nextOffset + string.length % 2 ^ 32) % 2 ^ 32
      stringOffsets := (string, bucket.nextOffset) :: bucket.stringOffsets }

def keepAll (bucket : MergeStringsSectionBucket) (strings : List Bytes) :
    MergeStringsSectionBucket :=
  strings.foldl keep bucket

def offsetOf (bucket : MergeStringsSectionBucket) (string : Bytes) : ℕ :=
  (bucket.stringOffsets.lookup string).getD 0

/-- What is stored for a string. -/
def outputOffset (bucket : MergeStringsSectionBucket) (string : Bytes) : BucketOffset :=
  ⟨bucket.index <<< 28 ||| bucket.offsetOf string⟩

variable {bucket : MergeStringsSectionBucket} {string other : Bytes}

theorem addString_eq : bucket.addString string =
    (BucketOffset.new ((bucket.keep string).offsetOf string) bucket.index).map
      ((bucket.keep string, ·)) := by
  unfold addString keep offsetOf
  cases h : bucket.stringOffsets.lookup string with
  | some offset => simp only [h, Option.getD_some]
  | none => simp only [List.lookup_cons_self, Option.getD_some]

@[simp] theorem index_keep : (bucket.keep string).index = bucket.index := by
  unfold keep
  split <;> rfl

variable {strings : List Bytes}

@[simp] theorem index_keepAll :
    (bucket.keepAll strings).index = bucket.index := by
  induction strings generalizing bucket with
  | nil => rfl
  | cons string strings ih => exact ih.trans index_keep

theorem lookup_keep {offset : ℕ} (h : bucket.stringOffsets.lookup other = some offset) :
    (bucket.keep string).stringOffsets.lookup other = some offset := by
  unfold keep
  cases hstr : bucket.stringOffsets.lookup string with
  | some _ => exact h
  | none =>
    have hne : (other == string) = false := by
      rw [beq_eq_false_iff_ne]
      rintro rfl
      rw [hstr] at h
      cases h
    simp only [List.lookup_cons, hne]
    exact h

/-- The bucket holds exactly these strings. -/
structure Keeps (bucket : MergeStringsSectionBucket) (strings : List Bytes) : Prop where
  nodup : bucket.strings.Nodup
  mem : ∀ string, string ∈ bucket.strings ↔ string ∈ strings
  nextOffset : bucket.nextOffset = total bucket.strings % 2 ^ 32
  lookup : ∀ string offset, bucket.stringOffsets.lookup string = some offset ↔
    ∃ before after, bucket.strings = before ++ string :: after ∧ offset = total before % 2 ^ 32

theorem Keeps.keep {strings : List Bytes} (h : bucket.Keeps strings) :
    (bucket.keep string).Keeps (strings ++ [string]) := by
  unfold MergeStringsSectionBucket.keep
  cases hlookup : bucket.stringOffsets.lookup string with
  | some offset =>
    obtain ⟨before, after, hstrs, -⟩ := (h.lookup string offset).mp hlookup
    refine ⟨h.nodup, fun other => ?_, h.nextOffset, h.lookup⟩
    rw [h.mem, mem_append, mem_singleton]
    refine ⟨.inl, fun hother => hother.elim id fun heq => ?_⟩
    rw [heq, ← h.mem, hstrs]
    exact List.mem_append_right _ List.mem_cons_self
  | none =>
    have hnot : string ∉ bucket.strings := by
      intro hmem
      obtain ⟨before, after, hstrs⟩ := List.append_of_mem hmem
      rw [(h.lookup string _).mpr ⟨before, after, hstrs, rfl⟩] at hlookup
      cases hlookup
    refine ⟨?_, fun other => ?_, ?_, fun other offset => ?_⟩
    · refine List.nodup_append.mpr ⟨h.nodup, List.nodup_singleton _, ?_⟩
      rintro a ha b hb rfl
      exact hnot (mem_singleton.mp hb ▸ ha)
    · simp only [mem_append, h.mem]
    · simp only [h.nextOffset, total_append, total_cons, total_nil]
      omega
    · by_cases heq : other = string
      · subst heq
        rw [List.lookup_cons_self]
        constructor
        · intro hoff
          exact ⟨bucket.strings, [], rfl, (Option.some.inj hoff).symm.trans h.nextOffset⟩
        · rintro ⟨before, after, hstrs, rfl⟩
          rcases concat_eq_append_cons.mp hstrs with ⟨rfl, -, -⟩ | ⟨after', -, hearlier⟩
          · exact congrArg some h.nextOffset
          · exact absurd (hearlier ▸ List.mem_append_right _ List.mem_cons_self) hnot
      · have hne : (other == string) = false := beq_eq_false_iff_ne.mpr heq
        simp only [List.lookup_cons, hne]
        rw [h.lookup]
        constructor
        · rintro ⟨before, after, hstrs, hoff⟩
          exact ⟨before, after ++ [string], by rw [hstrs, append_assoc]; rfl, hoff⟩
        · rintro ⟨before, after, hstrs, hoff⟩
          rcases concat_eq_append_cons.mp hstrs with ⟨-, hlast, -⟩ | ⟨after', -, hearlier⟩
          · exact absurd hlast heq
          · exact ⟨before, after', hearlier, hoff⟩

theorem keeps_new (index : ℕ) : (⟨index, [], 0, []⟩ : MergeStringsSectionBucket).Keeps [] where
  nodup := List.nodup_nil
  mem _ := Iff.rfl
  nextOffset := rfl
  lookup string offset := by
    refine ⟨fun h => ?_, fun ⟨before, after, h, _⟩ => ?_⟩
    · cases h
    · exact absurd h.symm (List.append_ne_nil_of_right_ne_nil _ (List.cons_ne_nil _ _))

theorem Keeps.keepAll {later : List Bytes} (h : bucket.Keeps strings) :
    (bucket.keepAll later).Keeps (strings ++ later) := by
  induction later generalizing bucket strings with
  | nil =>
    rw [List.append_nil]
    exact h
  | cons string later ih =>
    have := ih (@Keeps.keep bucket string strings h)
    rwa [append_assoc] at this

theorem keepAll_concat :
    bucket.keepAll (strings ++ [string]) = (bucket.keepAll strings).keep string := by
  rw [keepAll, List.foldl_append]
  rfl

end MergeStringsSectionBucket

/-! ## The work on a bucket -/

/-- What a bucket has done with its strings so far. -/
structure BucketWork.Holds (index : ℕ) (entries : List StringToMerge) (work : BucketWork) :
    Prop where
  bucket : work.bucket =
    MergeStringsSectionBucket.keepAll ⟨index, [], 0, []⟩ (entries.map StringToMerge.string)
  small : ∀ e ∈ entries, work.bucket.offsetOf e.string < 2 ^ 28
  inShard : ∀ inputOffset b, (inputOffset, b) ∈ work.inShard ↔
    ∃ e ∈ entries, e.offsetOut = .inShard inputOffset ∧ b = work.bucket.outputOffset e.string
  overflowed : ∀ inputOffset b, (inputOffset, b) ∈ work.overflowed ↔
    ∃ e ∈ entries, e.offsetOut = .overflow inputOffset ∧ b = work.bucket.outputOffset e.string

section

variable {index : ℕ} {entries later : List StringToMerge} {work work' : BucketWork}
  {string : StringToMerge}

theorem BucketWork.Holds.keeps (h : work.Holds index entries) :
    work.bucket.Keeps (entries.map StringToMerge.string) := by
  rw [h.bucket]
  exact (MergeStringsSectionBucket.keeps_new index).keepAll

theorem BucketWork.Holds.offsetOf_keep (h : work.Holds index entries) {e : StringToMerge}
    (he : e ∈ entries) (new : Bytes) :
    (work.bucket.keep new).offsetOf e.string = work.bucket.offsetOf e.string := by
  have hmem : e.string ∈ work.bucket.strings := (h.keeps.mem _).mpr (List.mem_map_of_mem he)
  obtain ⟨before, after, hstrs⟩ := List.append_of_mem hmem
  have hlookup := (h.keeps.lookup e.string _).mpr ⟨before, after, hstrs, rfl⟩
  rw [MergeStringsSectionBucket.offsetOf, MergeStringsSectionBucket.offsetOf,
    MergeStringsSectionBucket.lookup_keep hlookup, hlookup]

theorem BucketWork.Holds.processString (h : work.Holds index entries)
    (hok : work.processString string = .ok work') : work'.Holds index (entries ++ [string]) := by
  unfold BucketWork.processString at hok
  rw [MergeStringsSectionBucket.addString_eq] at hok
  cases hnew : BucketOffset.new ((work.bucket.keep string.string).offsetOf string.string)
      work.bucket.index with
  | error e =>
    rw [hnew] at hok
    cases hok
  | ok b =>
    rw [hnew] at hok
    obtain ⟨hsmall, rfl⟩ := BucketOffset.new_eq_ok hnew
    have hbucket : work.bucket.keep string.string = MergeStringsSectionBucket.keepAll
        ⟨index, [], 0, []⟩ ((entries ++ [string]).map StringToMerge.string) := by
      rw [List.map_append, List.map_singleton, MergeStringsSectionBucket.keepAll_concat, ← h.bucket]
    have hsmall' : ∀ e ∈ entries ++ [string],
        (work.bucket.keep string.string).offsetOf e.string < 2 ^ 28 := by
      intro e he
      rcases mem_append.mp he with he | he
      · rw [h.offsetOf_keep he]
        exact h.small e he
      · rw [mem_singleton.mp he]
        exact hsmall
    have houtput : ∀ e ∈ entries, (work.bucket.keep string.string).outputOffset e.string =
        work.bucket.outputOffset e.string := by
      intro e he
      rw [MergeStringsSectionBucket.outputOffset, h.offsetOf_keep he,
        MergeStringsSectionBucket.index_keep]
      rfl
    have hself : (work.bucket.keep string.string).outputOffset string.string =
        ⟨work.bucket.index <<< 28 ||| (work.bucket.keep string.string).offsetOf string.string⟩ := by
      rw [MergeStringsSectionBucket.outputOffset, MergeStringsSectionBucket.index_keep]
    -- offsets stored before, and the one of the new string
    have hstored : ∀ (place : ℕ → OffsetOut) (stored stored' : List (ℕ × BucketOffset)),
        (∀ inputOffset b, (inputOffset, b) ∈ stored ↔ ∃ e ∈ entries,
          e.offsetOut = place inputOffset ∧ b = work.bucket.outputOffset e.string) →
        (∀ inputOffset b, (inputOffset, b) ∈ stored' ↔ (inputOffset, b) ∈ stored ∨
          string.offsetOut = place inputOffset ∧
            b = (work.bucket.keep string.string).outputOffset string.string) →
        ∀ inputOffset b, (inputOffset, b) ∈ stored' ↔ ∃ e ∈ entries ++ [string],
          e.offsetOut = place inputOffset ∧
            b = (work.bucket.keep string.string).outputOffset e.string := by
      intro place stored stored' hbefore hadded inputOffset b
      rw [hadded, hbefore]
      constructor
      · rintro (⟨e, he, hplace, rfl⟩ | ⟨hplace, rfl⟩)
        · exact ⟨e, List.mem_append_left _ he, hplace, (houtput e he).symm⟩
        · exact ⟨string, List.mem_append_right _ (List.mem_singleton_self _), hplace, rfl⟩
      · rintro ⟨e, he, hplace, rfl⟩
        rcases mem_append.mp he with he | he
        · exact .inl ⟨e, he, hplace, houtput e he⟩
        · obtain rfl := mem_singleton.mp he
          exact .inr ⟨hplace, rfl⟩
    cases hout : string.offsetOut with
    | inShard inputOffset =>
      simp only [hout] at hok
      cases hok
      refine ⟨hbucket, hsmall', hstored .inShard _ _ h.inShard fun o b => ?_,
        hstored .overflow _ _ h.overflowed fun o b => ?_⟩
      · rw [mem_append, mem_singleton, Prod.mk.injEq, hout, OffsetOut.inShard.injEq, hself]
        exact or_congr_right (and_congr_left' eq_comm)
      · refine ⟨.inl, fun hor => hor.resolve_right fun hplace => ?_⟩
        rw [hout] at hplace
        cases hplace.1
    | overflow inputOffset =>
      simp only [hout] at hok
      cases hok
      refine ⟨hbucket, hsmall', hstored .inShard _ _ h.inShard fun o b => ?_,
        hstored .overflow _ _ h.overflowed fun o b => ?_⟩
      · refine ⟨.inl, fun hor => hor.resolve_right fun hplace => ?_⟩
        rw [hout] at hplace
        cases hplace.1
      · rw [mem_append, mem_singleton, Prod.mk.injEq, hout, OffsetOut.overflow.injEq, hself]
        exact or_congr_right (and_congr_left' eq_comm)

theorem BucketWork.holds_new (index : ℕ) :
    BucketWork.Holds index [] ⟨{ index := index }, [], []⟩ where
  bucket := rfl
  small _ he := absurd he not_mem_nil
  inShard _ _ := ⟨fun h => absurd h not_mem_nil, fun ⟨_, he, _⟩ => absurd he not_mem_nil⟩
  overflowed _ _ := ⟨fun h => absurd h not_mem_nil, fun ⟨_, he, _⟩ => absurd he not_mem_nil⟩

theorem BucketWork.Holds.processSplitOutput (h : work.Holds index entries)
    (hok : work.processSplitOutput later = .ok work') : work'.Holds index (entries ++ later) := by
  induction later generalizing work entries with
  | nil =>
    cases hok
    rw [List.append_nil]
    exact h
  | cons string later ih =>
    rw [BucketWork.processSplitOutput, List.foldlM_cons] at hok
    cases hfirst : work.processString string with
    | error e =>
      rw [hfirst] at hok
      cases hok
    | ok work₁ =>
      rw [hfirst] at hok
      have := ih (h.processString hfirst) hok
      rwa [append_assoc] at this

end

end Sld.Strings
