/-
# `Strings.MergedContent` — what merging gives

The outcome depends only on the strings of the sections and their input
offsets (`Merged`): not on the size of the groups, the order of the tasks or
the room in the offset map (`AddInputSections.merged`).  A string resolves
to the place where its bucket starts to hold it.
-/
import Sld.Strings.Buckets
import Sld.Strings.SectionStrings

namespace Sld.Strings

open List (mem_filter mem_map)

/-! ## What merging gives -/

section

variable (hash : Bytes → UInt64)

/-- The strings of a bucket, in order. -/
def bucketStrings (all : List (ℕ × Bytes)) (i : Fin mergeStringBuckets) : List Bytes :=
  (all.filter fun entry => bucketOf hash entry.2 = i).map Prod.snd

def finalBucket (all : List (ℕ × Bytes)) (i : Fin mergeStringBuckets) :
    MergeStringsSectionBucket :=
  MergeStringsSectionBucket.keepAll ⟨i, [], 0, []⟩ (bucketStrings hash all i)

/-- The outcome of merging strings with their input offsets. -/
structure Merged (all : List (ℕ × Bytes)) (merged : MergedStringsSection) : Prop where
  buckets : merged.buckets = List.ofFn (finalBucket hash all)
  bucketOffsets : ∀ i < mergeStringBuckets,
    bucketOffset merged.buckets i = some (merged.bucketOffsets i)
  small : ∀ x s, (x, s) ∈ all → (finalBucket hash all (bucketOf hash s)).offsetOf s < 2 ^ 28
  resolves : ∀ x b, merged.stringOffsetAtInput x = some b ↔
    ∃ s, (x, s) ∈ all ∧ b = (finalBucket hash all (bucketOf hash s)).outputOffset s

end

section

variable {hash : Bytes → UInt64} {full : ℕ → Bool} {all : List (ℕ × Bytes)}

theorem keeps_finalBucket (i : Fin mergeStringBuckets) :
    (finalBucket hash all i).Keeps (bucketStrings hash all i) :=
  (MergeStringsSectionBucket.keeps_new i).keepAll

theorem index_finalBucket (i : Fin mergeStringBuckets) : (finalBucket hash all i).index = i :=
  MergeStringsSectionBucket.index_keepAll

theorem mem_bucketStrings {i : Fin mergeStringBuckets} {s : Bytes} :
    s ∈ bucketStrings hash all i ↔ bucketOf hash s = i ∧ ∃ x, (x, s) ∈ all := by
  rw [bucketStrings, mem_map]
  constructor
  · rintro ⟨⟨x, s⟩, hmem, rfl⟩
    obtain ⟨hmem, hbucket⟩ := mem_filter.mp hmem
    exact ⟨of_decide_eq_true hbucket, x, hmem⟩
  · rintro ⟨hbucket, x, hmem⟩
    exact ⟨(x, s), mem_filter.mpr ⟨hmem, decide_eq_true hbucket⟩, rfl⟩

/-! ### The stored offsets -/

variable {entries : List (ℕ × BucketOffset)} {table : ℕ → Option BucketOffset} {x : ℕ}

theorem storeOffsets_of_mem {b : BucketOffset} (hmem : (x, b) ∈ entries)
    (hsame : ∀ b', (x, b') ∈ entries → b' = b) : storeOffsets table entries x = some b := by
  obtain ⟨pre, entry, post, rfl, hkey, hpost⟩ := @Store.exists_last_writer _ _
    (fun (entry : ℕ × BucketOffset) x => entry.1 = x) entries x ⟨(x, b), hmem, rfl⟩
  obtain ⟨y, b'⟩ := entry
  have hvalue := hsame b' (hkey ▸ List.mem_append_right _ List.mem_cons_self)
  have hlast := @Store.overwriteAll_of_last _ _ _ (fun (entry : ℕ × BucketOffset) x => entry.1 = x)
    _ (fun entry => some entry.2) table pre post (y, b') x hkey hpost
  rw [storeOffsets, hlast, hvalue]

theorem storeOffsets_of_forall_not (h : ∀ b, (x, b) ∉ entries) :
    storeOffsets table entries x = table x := by
  refine Store.overwriteAll_of_forall_not ?_
  rintro ⟨y, b⟩ hmem rfl
  exact h b hmem

theorem storeOffsets_eq_some {place : ℕ → Prop} {value : Bytes → BucketOffset}
    (hkeys : ∀ x s t, (x, s) ∈ all → (x, t) ∈ all → s = t)
    (hentries : ∀ x b, (x, b) ∈ entries ↔ ∃ s, (x, s) ∈ all ∧ place x ∧ b = value s)
    (htable : ∀ x, table x ≠ none → ∃ s, (x, s) ∈ all ∧ place x) (x : ℕ) (b : BucketOffset) :
    storeOffsets table entries x = some b ↔ ∃ s, (x, s) ∈ all ∧ place x ∧ b = value s := by
  by_cases hmem : ∃ s, (x, s) ∈ all ∧ place x
  · obtain ⟨s, hs, hplace⟩ := hmem
    have hstored : storeOffsets table entries x = some (value s) := by
      refine storeOffsets_of_mem ((hentries _ _).mpr ⟨s, hs, hplace, rfl⟩) fun b' hb' => ?_
      obtain ⟨t, ht, -, rfl⟩ := (hentries _ _).mp hb'
      rw [hkeys x t s ht hs]
    rw [hstored]
    constructor
    · intro heq
      exact ⟨s, hs, hplace, (Option.some.inj heq).symm⟩
    · rintro ⟨t, ht, -, rfl⟩
      rw [hkeys x t s ht hs]
  · rw [storeOffsets_of_forall_not]
    · refine iff_of_false (fun heq => hmem (htable x ?_)) ?_
      · rw [heq]
        exact Option.some_ne_none b
      · rintro ⟨s, hs, hplace, -⟩
        exact hmem ⟨s, hs, hplace⟩
    · intro b' hb'
      obtain ⟨s, hs, hplace, -⟩ := (hentries _ _).mp hb'
      exact hmem ⟨s, hs, hplace⟩

/-! ### From the run to the outcome -/

theorem exists_forall₂ {α β : Type*} {R : α → β → Prop} :
    ∀ {l : List α}, (∀ a ∈ l, ∃ b, R a b) → ∃ l', List.Forall₂ R l l'
  | [], _ => ⟨[], .nil⟩
  | a :: l, h => by
    obtain ⟨b, hb⟩ := h a List.mem_cons_self
    obtain ⟨l', hl'⟩ := exists_forall₂ fun a ha => h a (List.mem_cons_of_mem _ ha)
    exact ⟨b :: l', .cons hb hl'⟩

variable {groups : List SectionGroup} {lists : List (List (ℕ × Bytes))}

/-- What the bucket gets of the strings. -/
def bucketEntries (hash : Bytes → UInt64) (full : ℕ → Bool) (all : List (ℕ × Bytes))
    (i : Fin mergeStringBuckets) : List StringToMerge :=
  (all.filter fun entry => bucketOf hash entry.2 = i).map (insertData full)

theorem mem_bucketEntries {s : Bytes} (h : (x, s) ∈ all) :
    insertData full (x, s) ∈ bucketEntries hash full all (bucketOf hash s) :=
  List.mem_map_of_mem (mem_filter.mpr ⟨h, decide_eq_true rfl⟩)

theorem holds_of_received {hgroups : 0 < groups.length}
    (hlists : List.Forall₂ (fun group entries => groupStrings group = Except.ok entries)
      groups lists) (i : Fin mergeStringBuckets) :
    ∀ n ≤ groups.length, ∀ work, (mergeSystem hash full groups hgroups).received i n = .ok work →
      work.Holds i (bucketEntries hash full (lists.take n).flatten i) := by
  intro n
  induction n with
  | zero =>
    rintro - work hwork
    cases hwork
    exact BucketWork.holds_new i
  | succ n ih =>
    intro hn work hwork
    have hn' : n < lists.length := hlists.length_eq ▸ hn
    have hgroup : groups[n]? = some groups[n] := List.getElem?_eq_getElem hn
    have hstrs : groupStrings groups[n] = .ok lists[n] := hlists.get hn hn'
    have hsplit : (mergeSystem hash full groups hgroups).split n = .ok fun bucket =>
        bucketEntries hash full lists[n] bucket := by
      simp only [mergeSystem, hgroup, processInputSectionGroup, hstrs, Except.map, bucketEntries]
    cases hbefore : (mergeSystem hash full groups hgroups).received i n with
    | error e =>
      rw [Handover.System.received, hbefore] at hwork
      cases hwork
    | ok before =>
      rw [Handover.System.received_succ _ hbefore hsplit] at hwork
      have := (ih (Nat.le_of_succ_le hn) before hbefore).processSplitOutput hwork
      rw [bucketEntries, bucketEntries, ← List.map_append, ← List.filter_append] at this
      rwa [List.take_add_one, List.getElem?_eq_getElem hn', List.flatten_append,
        Option.toList_some, List.flatten_singleton]

theorem mem_insertedOffsets
    (hlists : List.Forall₂ (fun group entries => groupStrings group = Except.ok entries)
      groups lists) :
    x ∈ insertedOffsets full groups ↔ (∃ s, (x, s) ∈ lists.flatten) ∧ full x = false := by
  induction hlists with
  | nil => simp [insertedOffsets]
  | @cons group entries groups lists hgroup _ ih =>
    rw [insertedOffsets, List.flatMap_cons, List.flatten_cons]
    simp only [hgroup, mem_filter, mem_map, List.mem_append, Bool.not_eq_true']
    rw [insertedOffsets] at ih
    rw [ih]
    constructor
    · rintro (⟨⟨⟨y, s⟩, hmem, rfl⟩, hfull⟩ | ⟨⟨s, hmem⟩, hfull⟩)
      · exact ⟨⟨s, .inl hmem⟩, hfull⟩
      · exact ⟨⟨s, .inr hmem⟩, hfull⟩
    · rintro ⟨⟨s, hmem | hmem⟩, hfull⟩
      · exact .inl ⟨⟨(x, s), hmem, rfl⟩, hfull⟩
      · exact .inr ⟨⟨s, hmem⟩, hfull⟩

theorem Lists.eq_of_fst {such : ℕ → Bytes → Prop} (h : Lists all such) {s t : Bytes}
    (hs : (x, s) ∈ all) (ht : (x, t) ∈ all) : s = t := by
  rcases pairwise_eq_or h.ascending hs ht with heq | hlt | hlt
  · exact (Prod.mk.inj heq).2
  · exact absurd hlt (Nat.lt_irrefl x)
  · exact absurd hlt (Nat.lt_irrefl x)

theorem bucket_of_holds {work : BucketWork} {i : Fin mergeStringBuckets}
    (h : work.Holds i (bucketEntries hash full all i)) : work.bucket = finalBucket hash all i := by
  rw [h.bucket, bucketEntries, List.map_map]
  rfl

theorem insertionSort_finalBuckets {buckets : List MergeStringsSectionBucket}
    (h : buckets.Perm (List.ofFn (finalBucket hash all))) :
    buckets.insertionSort (fun a b => a.index ≤ b.index) = List.ofFn (finalBucket hash all) := by
  refine ((List.perm_insertionSort _ _).trans h).eq_of_pairwise ?_
    (List.pairwise_insertionSort _ _) ?_
  · intro a b ha hb hab hba
    rw [(List.perm_insertionSort _ _).mem_iff, h.mem_iff] at ha
    obtain ⟨i, rfl⟩ := List.mem_ofFn.mp ha
    obtain ⟨j, rfl⟩ := List.mem_ofFn.mp hb
    rw [index_finalBucket, index_finalBucket] at hab hba
    rw [Fin.ext (Nat.le_antisymm hab hba)]
  · rw [List.pairwise_ofFn]
    intro i j hij
    rw [index_finalBucket, index_finalBucket]
    exact Nat.le_of_lt hij

/-- The stored offsets of one kind, in the offset map or behind it. -/
theorem stored_iff {final : Fin mergeStringBuckets → BucketWork}
    {finished : List (Fin mergeStringBuckets × BucketWork)} {overflows : Bool}
    {written : BucketWork → List (ℕ × BucketOffset)} {out : ℕ → OffsetOut}
    (hall : Lists all such) (hperm : finished.Perm (List.ofFn fun i => (i, final i)))
    (hholds : ∀ i, (final i).Holds i (bucketEntries hash full all i))
    (hentries : entries.Perm (finished.flatMap fun work => written work.2))
    (hwritten : ∀ i x b, (x, b) ∈ written (final i) ↔ ∃ e ∈ bucketEntries hash full all i,
      e.offsetOut = out x ∧ b = (final i).bucket.outputOffset e.string)
    (hout : ∀ x y, (if full y then OffsetOut.overflow y else .inShard y) = out x ↔
      y = x ∧ full x = overflows)
    (htable : ∀ x, table x ≠ none → ∃ s, (x, s) ∈ all ∧ full x = overflows)
    (x : ℕ) (b : BucketOffset) :
    storeOffsets table entries x = some b ↔ ∃ s, (x, s) ∈ all ∧ full x = overflows ∧
      b = (finalBucket hash all (bucketOf hash s)).outputOffset s := by
  refine storeOffsets_eq_some (fun _ _ _ => hall.eq_of_fst) (fun x b => ?_) htable x b
  rw [hentries.mem_iff, List.mem_flatMap]
  constructor
  · rintro ⟨work, hwork, hmem⟩
    obtain ⟨i, rfl⟩ := List.mem_ofFn.mp (hperm.mem_iff.mp hwork)
    obtain ⟨e, he, heq, rfl⟩ := (hwritten i x b).mp hmem
    obtain ⟨⟨y, s⟩, hs, rfl⟩ := mem_map.mp he
    obtain ⟨hs, hbucket⟩ := mem_filter.mp hs
    obtain ⟨rfl, hfull⟩ := (hout x y).mp heq
    refine ⟨s, hs, hfull, ?_⟩
    rw [bucket_of_holds (hholds i), ← of_decide_eq_true hbucket]
    rfl
  · rintro ⟨s, hs, hfull, rfl⟩
    refine ⟨_, hperm.mem_iff.mpr (List.mem_ofFn.mpr ⟨bucketOf hash s, rfl⟩),
      (hwritten _ x _).mpr ⟨_, mem_bucketEntries hs, (hout x x).mpr ⟨rfl, hfull⟩, ?_⟩⟩
    rw [bucket_of_holds (hholds _)]
    rfl

theorem AddInputSections.merged {size : ℕ} {extras : List StringMergeSectionExtra}
    {merged : MergedStringsSection}
    (h : AddInputSections hash full size (inputSections extras) merged) :
    ∃ all, Lists all (StringOf (inputSections extras)) ∧ Merged hash all merged := by
  obtain ⟨groups, hgroups, s, inShard, overflowed, hsplit, hreachable, hended, herrors, hbuckets,
    hoffsets, hinShard, hstringOffsets, hoverflowed, hoverflowOffsets⟩ := h.run
  have hsome : s.finished ≠ [] := by
    intro hnil
    have hfirst := hoffsets 1 (by decide)
    rw [hbuckets, hnil] at hfirst
    cases hfirst
  obtain ⟨hgroupsOk, final, hreceived, hperm⟩ :=
    (Handover.inv_of_reachable hreachable herrors).finished_of_ended hended hsome
  -- every group has been split
  have hstrs : ∀ group ∈ groups, ∃ entries, groupStrings group = Except.ok entries := by
    intro group hgroup
    obtain ⟨g, hg, rfl⟩ := List.getElem_of_mem hgroup
    obtain ⟨messages, hmessages⟩ := hgroupsOk g hg
    simp only [mergeSystem, List.getElem?_eq_getElem hg, processInputSectionGroup] at hmessages
    cases hentries : groupStrings groups[g] with
    | error e =>
      rw [hentries] at hmessages
      cases hmessages
    | ok entries => exact ⟨entries, rfl⟩
  obtain ⟨lists, hlists⟩ := exists_forall₂ hstrs
  have hall := strings_of_groups hsplit hlists
  refine ⟨lists.flatten, hall, ?_⟩
  -- what every bucket holds in the end
  have hholds : ∀ i, (final i).Holds i (bucketEntries hash full lists.flatten i) := by
    intro i
    have := holds_of_received hlists i groups.length (Nat.le_refl _) (final i) (hreceived i)
    rwa [hlists.length_eq, List.take_length] at this
  refine ⟨?_, hoffsets, fun x str hmem => ?_, fun x b => ?_⟩
  · rw [hbuckets]
    refine insertionSort_finalBuckets ((hperm.map _).trans (List.Perm.of_eq ?_))
    rw [List.map_ofFn]
    exact congrArg List.ofFn (funext fun i => bucket_of_holds (hholds i))
  · rw [← bucket_of_holds (hholds _)]
    exact (hholds _).small _ (mem_bucketEntries hmem)
  · have hmap : ∀ b, merged.stringOffsets x = some b ↔ ∃ str, (x, str) ∈ lists.flatten ∧
        full x = false ∧
        b = (finalBucket hash lists.flatten (bucketOf hash str)).outputOffset str := by
      rw [hstringOffsets]
      refine stored_iff hall hperm hholds hinShard (fun i => (hholds i).inShard) (fun x y => ?_)
        (fun x hx => ?_) x
      · cases hfull : full y <;> simp <;> rintro rfl <;> exact hfull
      · by_cases hmem : x ∈ insertedOffsets full groups
        · obtain ⟨⟨str, hstr⟩, hfull⟩ := (mem_insertedOffsets hlists).mp hmem
          exact ⟨str, hstr, hfull⟩
        · exact absurd (if_neg hmem) hx
    have hoverflow : ∀ b, merged.overflowedStringOffsets x = some b ↔
        ∃ str, (x, str) ∈ lists.flatten ∧ full x = true ∧
          b = (finalBucket hash lists.flatten (bucketOf hash str)).outputOffset str := by
      rw [hoverflowOffsets]
      refine stored_iff hall hperm hholds hoverflowed (fun i => (hholds i).overflowed)
        (fun x y => ?_) (fun x hx => absurd rfl hx) x
      cases hfull : full y <;> simp <;> rintro rfl <;> exact hfull
    rw [MergedStringsSection.stringOffsetAtInput, Option.or_eq_some_iff, hmap, hoverflow,
      Option.eq_none_iff_forall_ne_some]
    constructor
    · rintro (⟨str, hstr, -, hb⟩ | ⟨-, str, hstr, -, hb⟩)
      · exact ⟨str, hstr, hb⟩
      · exact ⟨str, hstr, hb⟩
    · rintro ⟨str, hstr, hb⟩
      cases hfull : full x with
      | false => exact .inl ⟨str, hstr, rfl, hb⟩
      | true =>
        refine .inr ⟨fun b' hb' => ?_, str, hstr, rfl, hb⟩
        obtain ⟨-, -, hfull', -⟩ := (hmap b').mp hb'
        rw [hfull] at hfull'
        cases hfull'

end

end Sld.Strings
