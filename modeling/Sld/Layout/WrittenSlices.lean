/-
# `Layout.WrittenSlices` — bytes are written where the addresses say

Addresses come from the parts' offsets, the writer's slices from the sizes of
what comes before.  They agree exactly where there is no padding between the
parts of a section (`writtenWhereAddressed_iff`).
-/
import Sld.Layout.PartGaps
import Sld.Layout.SplitOutput

namespace Sld.Layout

open List (append_assoc append_cons append_of_mem cons_append mem_cons mem_cons_self nodup_append
  pairwise_cons)
open OutputSectionId (basePartId mem_parts numParts parts)

/-! ## Parts of a section -/

section

variable {sizes : PartId → ℕ} {outputSections : OutputSections}
  {programSegments : List ProgramSegmentDef} {args : LayoutArgs} {order : List OrderEvent}

theorem pairwise_lt_parts (sectionId : OutputSectionId) :
    sectionId.parts.Pairwise (· < ·) := List.pairwise_lt_range'

/-- The parts of a section that come before one of them. -/
def PartId.earlier (partId : PartId) : List PartId :=
  partId.outputSectionId.parts.filter (· < partId)

theorem earlier_eq_of_split {sectionId : OutputSectionId} {before after : List PartId}
    {partId : PartId} (h : sectionId.parts = before ++ partId :: after) :
    partId.earlier = before := by
  have hsec : partId.outputSectionId = sectionId := by
    refine mem_parts.1 ?_
    rw [h]
    simp
  have hsorted := pairwise_lt_parts sectionId
  rw [h, List.pairwise_append, pairwise_cons] at hsorted
  obtain ⟨-, ⟨hafter, -⟩, hbefore⟩ := hsorted
  rw [PartId.earlier, hsec, h, List.filter_append, List.filter_cons, if_neg (by simp)]
  have hkeep : before.filter (· < partId) = before := List.filter_eq_self.2 fun other hother => by
      simpa using hbefore other hother partId mem_cons_self
  have hdrop : after.filter (· < partId) = [] := List.filter_eq_nil_iff.2 fun other hother => by
      simpa using le_of_lt (hafter other hother)
  rw [hkeep, hdrop, List.append_nil]

theorem exists_split (partId : PartId) :
    ∃ after, partId.outputSectionId.parts = partId.earlier ++ partId :: after := by
  obtain ⟨before, after, hsplit⟩ :=
    append_of_mem (mem_parts.2 (rfl : partId.outputSectionId = _))
  exact ⟨after, by rw [earlier_eq_of_split hsplit]; exact hsplit⟩

variable {partId : PartId}

theorem forall_split_iff {p : List PartId → PartId → Prop} :
    (∀ before other after, partId.earlier ++ [partId] = before ++ other :: after → p before other) ↔
      ∀ other ∈ partId.outputSectionId.parts, other ≤ partId → p other.earlier other := by
  obtain ⟨rest, hsplit⟩ := exists_split partId
  have hsorted := pairwise_lt_parts partId.outputSectionId
  rw [hsplit, List.pairwise_append, pairwise_cons] at hsorted
  constructor
  · intro h other hmem hle
    have hearlier : other ∈ partId.earlier ++ [partId] := by
      rw [hsplit] at hmem
      rcases List.mem_append.1 hmem with hbefore | hafter
      · exact List.mem_append_left _ hbefore
      · rcases mem_cons.1 hafter with rfl | hrest
        · exact List.mem_append_right _ (List.mem_singleton_self _)
        · exact absurd hle (Nat.not_le.2 (hsorted.2.1.1 other hrest))
    obtain ⟨before, after, hother⟩ := append_of_mem hearlier
    have hearlier : other.earlier = before := by
      refine @earlier_eq_of_split partId.outputSectionId before (after ++ rest) other ?_
      rw [hsplit, append_cons, hother, append_assoc, cons_append]
    rw [hearlier]
    exact h before other after hother
  · intro h before other after hother
    have hfull : partId.outputSectionId.parts = before ++ other :: (after ++ rest) := by
      rw [hsplit, append_cons, hother, append_assoc, cons_append]
    have hmem : other ∈ partId.outputSectionId.parts := by
      rw [hfull]
      simp
    have hle : other ≤ partId := by
      have hearlier : other ∈ partId.earlier ++ [partId] := by
        rw [hother]
        simp
      rcases List.mem_append.1 hearlier with hbefore | hhere
      · exact le_of_lt (hsorted.2.2 other hbefore partId mem_cons_self)
      · exact (List.mem_singleton.1 hhere).le
    rw [← earlier_eq_of_split hfull]
    exact h other hmem hle

theorem placedAlignment_antitone {first : PartId}
    (hsec : first.outputSectionId = partId.outputSectionId) (hle : first ≤ partId) :
    placedAlignment sizes outputSections partId ≤ placedAlignment sizes outputSections first := by
  rw [placedAlignment, placedAlignment, hsec]
  exact min_le_min_right _ (partAlignment_antitone hsec hle)

/-- What the parts of a section take before one of them. -/
def sizeBefore (size : PartId → ℕ) (partId : PartId) : ℕ := (partId.earlier.map size).sum

theorem fileOffset_eq_iff (hnodup : (sectionIds order).Nodup)
    (hmem : OrderEvent.section partId.outputSectionId ∈ order)
    (hrelro : partId.outputSectionId ≠ relroPadding) :
    (layoutSectionParts sizes outputSections programSegments args order partId).fileOffset =
        sectionFileOffset (layoutSectionParts sizes outputSections programSegments args order)
          partId.outputSectionId + sizeBefore (placedFileSize sizes outputSections) partId ↔
      ∀ other ∈ partId.outputSectionId.parts, other ≤ partId →
        (placedAlignment sizes outputSections other).value ∣
          sizeBefore (placedFileSize sizes outputSections) other := by
  let layout := layoutSectionParts sizes outputSections programSegments args order
  obtain ⟨base, hpos⟩ := @layoutSectionParts_position sizes outputSections
    programSegments args order _ hnodup hmem hrelro
  obtain ⟨first, rest, hparts⟩ := List.exists_cons_of_ne_nil
    (OutputSectionId.parts_ne_nil partId.outputSectionId)
  have hfirst : first.outputSectionId = partId.outputSectionId :=
    mem_parts.1 (by rw [hparts]; exact mem_cons_self)
  have hsorted := pairwise_lt_parts partId.outputSectionId
  rw [hparts, pairwise_cons] at hsorted
  have hle : ∀ other ∈ partId.outputSectionId.parts, first ≤ other := by
    intro other hother
    rw [hparts] at hother
    rcases mem_cons.1 hother with rfl | hrest
    · exact le_refl _
    · exact le_of_lt (hsorted.1 other hrest)
  let start := (placedAlignment sizes outputSections first).alignUp base
  have hstart : (layout first).fileOffset = start := hpos [] first rest hparts
  have hbase : ∀ other ∈ partId.outputSectionId.parts,
      (placedAlignment sizes outputSections other).value ∣ start := by
    intro other hother
    have hsec : first.outputSectionId = other.outputSectionId :=
      hfirst.trans (mem_parts.1 hother).symm
    exact (Alignment.value_dvd_value (placedAlignment_antitone hsec (hle other hother))).trans
      (Alignment.dvd_alignUp _ _)
  -- The position of any part of the section, counted from its start.
  have hfrom : ∀ other : PartId, other.outputSectionId = partId.outputSectionId →
      (layout other).fileOffset =
        position (placedAlignment sizes outputSections) (placedFileSize sizes outputSections)
          start other.earlier other := by
    intro other hsec
    obtain ⟨after, hsplit⟩ := exists_split other
    rw [hsec] at hsplit
    rw [hpos other.earlier other after hsplit]
    cases hearlier : other.earlier with
    | nil =>
      rw [hearlier, hparts] at hsplit
      obtain ⟨rfl, -⟩ := List.cons_eq_cons.1 hsplit
      exact ((Alignment.alignUp_eq_self_iff _).2 (hbase first
        (by rw [hparts]; exact mem_cons_self))).symm
    | cons other' earlier =>
      rw [hearlier, hparts] at hsplit
      obtain ⟨rfl, -⟩ := List.cons_eq_cons.1 hsplit
      exact position_cons _ _ _ _
  have hearlier : ∀ other : PartId, other.outputSectionId = partId.outputSectionId →
      ∀ item ∈ other.earlier ++ [other],
        (placedAlignment sizes outputSections item).value ∣ start := by
    intro other hsec item hitem
    obtain ⟨after, hsplit⟩ := exists_split other
    refine hbase item ?_
    rw [← hsec, hsplit, append_cons]
    exact List.mem_append_left _ hitem
  have hoff : sectionFileOffset layout partId.outputSectionId = start := by
    refine sectionFileOffset_eq_iff.2 ⟨⟨first, by rw [hparts]; exact mem_cons_self, hstart⟩, ?_⟩
    intro other hother
    have hsec := mem_parts.1 hother
    rw [hfrom other hsec]
    exact (Nat.le_add_right _ _).trans (position_eq_iff (hearlier other hsec)).1
  rw [show sectionFileOffset (layoutSectionParts sizes outputSections programSegments args order)
    partId.outputSectionId = start from hoff,
    show (layoutSectionParts sizes outputSections programSegments args order partId).fileOffset = _
      from hfrom partId rfl, sizeBefore, (position_eq_iff (hearlier partId rfl)).2]
  exact forall_split_iff

/-! ## Slices of sections and parts -/

variable (sizes outputSections programSegments args order) in
/-- A part ends before another one starts. -/
def FileBefore (partId other : PartId) : Prop :=
  (layoutSectionParts sizes outputSections programSegments args order partId).fileOffset +
      (layoutSectionParts sizes outputSections programSegments args order partId).fileSize ≤
    (layoutSectionParts sizes outputSections programSegments args order other).fileOffset

theorem pairwise_fileBefore (hnodup : (sectionIds order).Nodup) : (placedParts order).Pairwise
      (FileBefore sizes outputSections programSegments args order) :=
  (laid_layoutSectionParts hnodup).ordered

variable {sectionId : OutputSectionId}

theorem mem_sectionIds : sectionId ∈ sectionIds order ↔ OrderEvent.section sectionId ∈ order := by
  constructor
  · intro hmem
    obtain ⟨event, hevent, heq⟩ := List.mem_filterMap.1 hmem
    cases event <;> cases heq
    exact hevent
  · intro hmem
    exact List.mem_filterMap.2 ⟨_, hmem, rfl⟩

theorem sections_apart (hnodup : (sectionIds order).Nodup) {a b : OutputSectionId} (hne : a ≠ b) :
    sectionFileEnd (layoutSectionParts sizes outputSections programSegments args order) a ≤
        sectionFileOffset (layoutSectionParts sizes outputSections programSegments args order) b ∨
      sectionFileEnd (layoutSectionParts sizes outputSections programSegments args order) b ≤
        sectionFileOffset (layoutSectionParts sizes outputSections programSegments args order) a := by
  -- A section that is not part of the order has no bytes.
  have habsent : ∀ sectionId ∉ sectionIds order,
      sectionFileEnd (layoutSectionParts sizes outputSections programSegments args order)
        sectionId = 0 := by
    intro sectionId hnot
    refine Nat.le_zero.1 (sectionFileEnd_le_iff.2 fun partId hpart => ?_)
    have hunplaced : partId ∉ placedParts order := by
      rw [mem_placedParts, mem_parts.1 hpart, ← mem_sectionIds]
      exact hnot
    have hlaid : Laid sizes outputSections (placedParts order)
        (layoutEvents sizes outputSections programSegments args order order) :=
      laid_layoutSectionParts hnodup
    rw [layoutSectionParts, hlaid.rest partId hunplaced]
    exact le_refl _
  have hbefore : ∀ s t : OutputSectionId, (∀ partId ∈ s.parts, ∀ other ∈ t.parts,
        FileBefore sizes outputSections programSegments args order partId other) →
      sectionFileEnd (layoutSectionParts sizes outputSections programSegments args order) s ≤
        sectionFileOffset (layoutSectionParts sizes outputSections programSegments args order)
          t := by
    intro s t hall
    refine sectionFileEnd_le_iff.2 fun partId hpart => ?_
    obtain ⟨⟨other, hother, heq⟩, -⟩ := sectionFileOffset_eq_iff.1
      (rfl : sectionFileOffset (layoutSectionParts sizes outputSections programSegments args order)
        t = _)
    rw [← heq]
    exact hall partId hpart other hother
  by_cases ha : a ∈ sectionIds order
  · by_cases hb : b ∈ sectionIds order
    · have hpairwise := (List.pairwise_flatMap.1
        (@pairwise_fileBefore sizes outputSections programSegments args order hnodup)).2
      rcases pairwise_eq_or hpairwise ha hb with heq | hab | hba
      · exact absurd heq hne
      · exact .inl (hbefore a b hab)
      · exact .inr (hbefore b a hba)
    · exact .inr (by rw [habsent b hb]; exact Nat.zero_le _)
  · exact .inl (by rw [habsent a ha]; exact Nat.zero_le _)

theorem placedParts_split (hnodup : (sectionIds order).Nodup)
    (hmem : sectionId ∈ sectionIds order) :
    ∃ before after, placedParts order = before ++ sectionId.parts ++ after ∧
      (∀ partId ∈ before, partId.outputSectionId ≠ sectionId) ∧
      ∀ partId ∈ after, partId.outputSectionId ≠ sectionId := by
  obtain ⟨earlier, later, hsplit⟩ := append_of_mem hmem
  rw [hsplit, nodup_append, List.nodup_cons] at hnodup
  have hothers : ∀ others : List OutputSectionId, sectionId ∉ others →
      ∀ partId ∈ others.flatMap parts, partId.outputSectionId ≠ sectionId := by
    rintro others hnot partId hpart rfl
    obtain ⟨other, hother, hparts⟩ := List.mem_flatMap.1 hpart
    rw [mem_parts.1 hparts] at hnot
    exact hnot hother
  refine ⟨earlier.flatMap parts, later.flatMap parts, ?_,
    hothers earlier fun hmem => hnodup.2.2 sectionId hmem sectionId mem_cons_self rfl,
    hothers later hnodup.2.1.1⟩
  rw [placedParts, hsplit, List.flatMap_append, List.flatMap_cons, append_assoc]

theorem sum_le_of_pairwise {ι : Type} {items : List ι} {start length : ι → ℕ} {low high : ℕ}
    (h : items.Pairwise fun a b => start a + length a ≤ start b)
    (hlow : ∀ item ∈ items, low ≤ start item)
    (hhigh : ∀ item ∈ items, start item + length item ≤ high) (hle : low ≤ high) :
    low + (items.map length).sum ≤ high := by
  induction items generalizing low with
  | nil => simpa using hle
  | cons item items ih =>
    obtain ⟨hfirst, hrest⟩ := pairwise_cons.1 h
    have hstart := hlow item mem_cons_self
    have hsum := @ih (start item + length item) hrest hfirst
      (fun other hother => hhigh other (List.mem_cons_of_mem _ hother))
      (hhigh item mem_cons_self)
    rw [List.map_cons, List.sum_cons]
    omega

theorem takenFrom_eq_of_forall {ι κ : Type} [DecidableEq κ] {key : ι → κ} {size : ι → ℕ}
    {items : List ι} {buffer : κ} (h : ∀ item ∈ items, key item = buffer) :
    takenFrom key size items buffer = (items.map size).sum := by
  rw [takenFrom, List.filter_eq_self.2 fun item hitem => by simpa using h item hitem]

theorem takenFrom_eq_zero {ι κ : Type} [DecidableEq κ] {key : ι → κ} {size : ι → ℕ}
    {items : List ι} {buffer : κ} (h : ∀ item ∈ items, key item ≠ buffer) :
    takenFrom key size items buffer = 0 := by
  rw [takenFrom, List.filter_eq_nil_iff.2 fun item hitem => by simpa using h item hitem]
  rfl

theorem exists_buckets (hnodup : (sectionIds order).Nodup) {numSections : ℕ}
    (hsecs : ∀ sectionId ∈ sectionIds order, sectionId < numSections) :
    let layout := layoutSectionParts sizes outputSections programSegments args order
    ∃ sectionBuffers buckets,
      splitOutputIntoSections layout numSections ⟨0, totalFileSize layout numSections⟩ =
        some sectionBuffers ∧
      splitBuffersByAlignment layout order sectionBuffers = some buckets ∧
      (∀ partId ∉ placedParts order, buckets partId = ⟨0, 0⟩) ∧
      ∀ partId ∈ placedParts order, buckets partId =
        ⟨sectionFileOffset layout partId.outputSectionId +
          sizeBefore (fun other => (layout other).fileSize) partId, (layout partId).fileSize⟩ := by
  intro layout
  obtain ⟨sectionBuffers, hcut, hbuffers⟩ := @splitOutputIntoSections_eq layout numSections
    fun a _ b _ hne => sections_apart hnodup hne
  have hbuffer : ∀ sectionId ∈ sectionIds order, sectionBuffers sectionId =
      ⟨sectionFileOffset layout sectionId,
        sectionFileEnd layout sectionId - sectionFileOffset layout sectionId⟩ :=
    fun sectionId hmem => hbuffers sectionId (hsecs sectionId hmem)
  have hparts := @pairwise_fileBefore sizes outputSections programSegments args order hnodup
  have henough : ∀ partId ∈ placedParts order,
      takenFrom PartId.outputSectionId (fun other => (layout other).fileSize) (placedParts order)
        partId.outputSectionId ≤ (sectionBuffers partId.outputSectionId).length := by
    intro partId hpart
    have hsec := mem_sectionIds.2 (mem_placedParts.1 hpart)
    rw [hbuffer _ hsec]
    have hfilter : takenFrom PartId.outputSectionId (fun other => (layout other).fileSize)
        (placedParts order) partId.outputSectionId =
        (partId.outputSectionId.parts.map fun other => (layout other).fileSize).sum := by
      obtain ⟨before, after, hsplit, hbefore, hafter⟩ := placedParts_split hnodup hsec
      rw [hsplit, takenFrom_append, takenFrom_append, takenFrom_eq_zero hbefore,
        takenFrom_eq_zero hafter, Nat.zero_add, Nat.add_zero]
      exact takenFrom_eq_of_forall fun other hother => mem_parts.1 hother
    rw [hfilter]
    have hle := @sum_le_of_pairwise PartId partId.outputSectionId.parts
      (fun other => (layout other).fileOffset) (fun other => (layout other).fileSize)
      (sectionFileOffset layout partId.outputSectionId)
      (sectionFileEnd layout partId.outputSectionId)
      ((List.pairwise_flatMap.1 hparts).1 _ hsec)
      (fun other hother => sectionFileOffset_le hother)
      (fun other hother => le_sectionFileEnd hother) (sectionFileOffset_le_end _)
    simp only
    omega
  obtain ⟨rest, buckets, hrun, -, hothers, hitems⟩ :=
    takeAll_spec (nodup_placedParts hnodup) henough
  refine ⟨sectionBuffers, buckets, hcut, ?_, hothers, ?_⟩
  · rw [splitBuffersByAlignment, hrun]
    rfl
  · intro partId hpart
    have hsec := mem_sectionIds.2 (mem_placedParts.1 hpart)
    obtain ⟨before, after, hsplit, hbefore, -⟩ := placedParts_split hnodup hsec
    obtain ⟨later, hparts⟩ := exists_split partId
    have hhere := hitems (before ++ partId.earlier) partId (later ++ after) (by
      rw [hsplit, hparts]
      simp)
    rw [hhere, hbuffer _ hsec, takenFrom_append, takenFrom_eq_zero hbefore, Nat.zero_add,
      takenFrom_eq_of_forall, sizeBefore]
    intro other hother
    exact mem_parts.1 (List.mem_of_mem_filter hother)

/-! ## Slices of groups -/

variable {numSections : ℕ}

theorem mem_allParts : partId ∈ allParts numSections ↔ partId.outputSectionId < numSections := by
  rw [allParts, List.mem_flatMap]
  constructor
  · rintro ⟨sectionId, hsec, hpart⟩
    rw [mem_parts.1 hpart]
    exact List.mem_range.1 hsec
  · intro hlt
    exact ⟨_, List.mem_range.2 hlt, mem_parts.2 rfl⟩

theorem nodup_allParts (numSections : ℕ) : (allParts numSections).Nodup := by
  rw [allParts, List.nodup_flatMap]
  refine ⟨fun sectionId _ => sectionId.nodup_parts, List.nodup_range.imp ?_⟩
  intro a b hne partId ha hb
  exact hne ((mem_parts.1 ha).symm.trans (mem_parts.1 hb))

theorem takenFrom_id {ι : Type} [DecidableEq ι] {size : ι → ℕ} {items : List ι} {item : ι}
    (hnodup : items.Nodup) (hmem : item ∈ items) : takenFrom id size items item = size item := by
  obtain ⟨before, after, rfl⟩ := append_of_mem hmem
  rw [nodup_append, List.nodup_cons] at hnodup
  have hbefore : takenFrom id size before item = 0 := takenFrom_eq_zero fun other hother heq =>
    hnodup.2.2 other hother item mem_cons_self heq
  have hafter : takenFrom id size after item = 0 := takenFrom_eq_zero fun other hother heq => by
    subst heq
    exact hnodup.2.1.1 hother
  rw [takenFrom_append, takenFrom_cons, hbefore, hafter, if_pos (id_eq item),
    Nat.zero_add, Nat.add_zero]

/-- The bytes in the file that groups have for a part. -/
def totalFileSizes (outputSections : OutputSections) (groups : List GroupSizes)
    (partId : PartId) : ℕ :=
  (groups.map fun group => group.fileSizes outputSections partId).sum

theorem totalFileSizes_cons (group : GroupSizes) (groups : List GroupSizes) (partId : PartId) :
    totalFileSizes outputSections (group :: groups) partId =
      group.fileSizes outputSections partId + totalFileSizes outputSections groups partId := rfl

theorem totalSizes_cons (group : GroupSizes) (groups : List GroupSizes) (partId : PartId) :
    totalSizes (group :: groups) partId = group.memSizes partId + totalSizes groups partId := rfl

theorem totalFileSizes_eq (groups : List GroupSizes) (partId : PartId) :
    totalFileSizes outputSections groups partId =
      if outputSections.hasDataInFile partId.outputSectionId then totalSizes groups partId
      else 0 := by
  induction groups with
  | nil => simp [totalFileSizes, totalSizes]
  | cons group groups ih =>
    rw [totalFileSizes_cons, ih, totalSizes_cons, GroupSizes.fileSizes]
    split <;> rfl

theorem splitOutputByGroup_eq {numSections : ℕ} {groups : List GroupSizes}
    {buckets : PartId → Slice} {partFileOffsets : PartId → ℕ}
    (henough : ∀ partId ∈ allParts numSections,
      totalFileSizes outputSections groups partId ≤ (buckets partId).length) :
    ∃ split, splitOutputByGroup outputSections numSections groups buckets partFileOffsets =
        some split ∧ split.length = groups.length ∧
      ∀ (i : ℕ) (group : GroupSizes) (slices : PartId → Slice) (offsets : PartId → ℕ),
        groups[i]? = some group → split[i]? = some (slices, offsets) →
        (∀ partId ∉ allParts numSections, slices partId = ⟨0, 0⟩) ∧
        ∀ partId ∈ allParts numSections, slices partId =
          ⟨(buckets partId).start + totalFileSizes outputSections (groups.take i) partId,
            group.fileSizes outputSections partId⟩ := by
  induction groups generalizing buckets partFileOffsets with
  | nil => exact ⟨[], rfl, rfl, by simp⟩
  | cons group groups ih =>
    have hfirst : ∀ partId ∈ allParts numSections,
        takenFrom id (group.fileSizes outputSections) (allParts numSections) (id partId) ≤
          (buckets (id partId)).length := by
      intro partId hmem
      have hall := henough partId hmem
      rw [totalFileSizes_cons] at hall
      rw [id, takenFrom_id (nodup_allParts numSections) hmem]
      omega
    obtain ⟨rest, slices, hrun, hrest, hothers, hitems⟩ :=
      takeAll_spec (nodup_allParts numSections) hfirst
    have henough' : ∀ partId ∈ allParts numSections,
        totalFileSizes outputSections groups partId ≤ (rest partId).length := by
      intro partId hmem
      have hall := henough partId hmem
      rw [totalFileSizes_cons] at hall
      rw [hrest, takenFrom_id (nodup_allParts numSections) hmem]
      simp only
      omega
    obtain ⟨split, hsplit, hlength, hall⟩ := @ih rest
      (fun partId => partFileOffsets partId + group.fileSizes outputSections partId) henough'
    refine ⟨(slices, partFileOffsets) :: split, ?_, ?_, ?_⟩
    · rw [splitOutputByGroup, hrun]
      simp only [Option.bind_eq_bind, Option.bind_some, hsplit]
    · rw [List.length_cons, hlength, List.length_cons]
    · intro i group' slices' offsets hgroup hslices
      cases i with
      | zero =>
        cases hgroup
        cases hslices
        refine ⟨hothers, ?_⟩
        intro partId hmem
        obtain ⟨before, after, hparts⟩ := append_of_mem hmem
        have hnodup := nodup_allParts numSections
        rw [hparts, nodup_append] at hnodup
        have hzero : takenFrom id (group.fileSizes outputSections) before (id partId) = 0 :=
          takenFrom_eq_zero fun other hother heq =>
            hnodup.2.2 other hother partId mem_cons_self heq
        rw [hitems before partId after hparts, hzero]
        rfl
      | succ i =>
        obtain ⟨houtside, hinside⟩ := hall i group' slices' offsets hgroup hslices
        refine ⟨houtside, ?_⟩
        intro partId hmem
        rw [hinside partId hmem, hrest, takenFrom_id (nodup_allParts numSections) hmem,
          List.take_succ_cons, totalFileSizes_cons, Nat.add_assoc]

variable {groups : List GroupSizes}

theorem totalFileSizes_le_of_splitOutputByGroup
    {buckets : PartId → Slice} {partFileOffsets : PartId → ℕ}
    {split : List ((PartId → Slice) × (PartId → ℕ))}
    (h : splitOutputByGroup outputSections numSections groups buckets partFileOffsets = some split)
    (hmem : partId ∈ allParts numSections) :
    totalFileSizes outputSections groups partId ≤ (buckets partId).length := by
  induction groups generalizing buckets partFileOffsets split with
  | nil => exact Nat.zero_le _
  | cons group groups ih =>
    obtain ⟨⟨rest, slices⟩, hrun, h⟩ := Option.bind_eq_some_iff.1 h
    obtain ⟨others, hothers, -⟩ := Option.bind_eq_some_iff.1 h
    obtain ⟨rest', slices', hrun', hrest, -, -⟩ := takeAll_spec (nodup_allParts numSections)
      fun partId _ => takenFrom_le_of_takeAll hrun (id partId)
    rw [hrun] at hrun'
    cases hrun'
    have htaken := takenFrom_le_of_takeAll hrun partId
    have hle := ih hothers
    rw [hrest] at hle
    rw [takenFrom_id (nodup_allParts numSections) hmem] at htaken hle
    rw [totalFileSizes_cons]
    simp only at hle
    omega

theorem computeStartOffsetsByGroup_getElem? {memOffsets : PartId → ℕ}
    {i : ℕ} (h : i < groups.length) :
    (computeStartOffsetsByGroup groups memOffsets)[i]? =
      some fun partId => memOffsets partId + sizeInEarlier groups i partId := by
  induction groups generalizing memOffsets i with
  | nil => cases h
  | cons group groups ih =>
    cases i with
    | zero => rfl
    | succ i =>
      rw [computeStartOffsetsByGroup, List.getElem?_cons_succ, ih (Nat.lt_of_succ_lt_succ h)]
      congr 1
      funext partId
      rw [sizeInEarlier, sizeInEarlier, List.take_succ_cons, totalSizes_cons, Nat.add_assoc]

/-! ## Addresses and slices -/

/-- Each group's bytes of a part are where the part's offset and the sizes in
earlier groups say, in the file and in memory, and no two slices overlap. -/
structure SlicesAddressed (layout : PartId → OutputRecordLayout) (outputSections : OutputSections)
    (groups : List GroupSizes) (split : List ((PartId → Slice) × (PartId → ℕ))) : Prop where
  length_split : split.length = groups.length
  addressed : ∀ (i : ℕ) (group : GroupSizes) (slices : PartId → Slice) (offsets starts : PartId → ℕ),
    groups[i]? = some group → split[i]? = some (slices, offsets) →
    (computeStartOffsetsByGroup groups fun partId => (layout partId).memOffset)[i]? = some starts →
    ∀ partId, (slices partId).length = group.fileSizes outputSections partId ∧
      ((slices partId).length ≠ 0 →
        (slices partId).start = (layout partId).fileOffset + sizeInEarlier groups i partId ∧
        starts partId = (layout partId).memOffset + sizeInEarlier groups i partId)
  disjoint : ∀ (i j : ℕ) (slices slices' : PartId → Slice) (offsets offsets' : PartId → ℕ),
    split[i]? = some (slices, offsets) → split[j]? = some (slices', offsets') →
    ∀ partId other : PartId, i ≠ j ∨ partId ≠ other →
      (slices partId).length ≠ 0 → (slices' other).length ≠ 0 →
        (slices partId).Disjoint (slices' other)

/-- Splitting never runs out of bytes, and the slices are where the addresses
say. -/
def WrittenWhereAddressed (layout : PartId → OutputRecordLayout) (outputSections : OutputSections)
    (order : List OrderEvent) (numSections : ℕ) (groups : List GroupSizes) : Prop :=
  ∃ split, splitOutput layout outputSections order numSections groups = some split ∧
    SlicesAddressed layout outputSections groups split

/-- Sections with data of their own are not merged into one that has none. -/
def DataMerged (sizes : PartId → ℕ) (outputSections : OutputSections) : Prop :=
  ∀ partId : PartId, outputSections.hasDataInFile partId.outputSectionId = true →
    sizes partId ≠ 0 → IsAlloc outputSections partId.outputSectionId →
      outputSections.hasDataInFile
        (outputSections.primaryOutputSection partId.outputSectionId) = true

/-- Up to the last part with bytes, the sizes before each part of a section
are a multiple of its alignment. -/
def PartsUnpadded (sizes : PartId → ℕ) (outputSections : OutputSections) : Prop :=
  ∀ partId : PartId, outputSections.hasDataInFile partId.outputSectionId = true →
    sizes partId ≠ 0 → ∀ other ∈ partId.outputSectionId.parts, other ≤ partId →
      (placedAlignment sizes outputSections other).value ∣ sizeBefore sizes other

theorem placedFileSize_of_dataMerged (hmerged : DataMerged sizes outputSections)
    (hdata : outputSections.hasDataInFile partId.outputSectionId = true) (hsize : sizes partId ≠ 0)
    {other : PartId} (hsec : other.outputSectionId = partId.outputSectionId) :
    placedFileSize sizes outputSections other = sizes other := by
  refine if_neg ?_
  rintro ⟨halloc, hnone⟩
  rw [hsec] at halloc hnone
  rw [hmerged partId hdata hsize halloc] at hnone
  cases hnone

theorem sizeBefore_congr {size size' : PartId → ℕ}
    (h : ∀ other : PartId, other.outputSectionId = partId.outputSectionId →
      size other = size' other) : sizeBefore size partId = sizeBefore size' partId := by
  refine congrArg List.sum (List.map_congr_left fun other hother => h other ?_)
  exact mem_parts.1 (List.mem_of_mem_filter hother)

section

variable {groups : List GroupSizes} {numSections : ℕ}

theorem totalSizes_relroPadding (groups : List GroupSizes) : totalSizes groups relroPadding = 0 := by
  induction groups with
  | nil => rfl
  | cons group groups ih => rw [totalSizes_cons, group.relro, ih]

variable {partId : PartId}

theorem ne_relroPadding (h : totalSizes groups partId ≠ 0) :
    partId.outputSectionId ≠ relroPadding := by
  intro heq
  have hpart : partId = relroPadding := by
    have hmem := mem_parts.2 heq
    simpa [parts, basePartId, numParts,
      relroPadding, numSinglePartSections] using hmem
  rw [hpart] at h
  exact h (totalSizes_relroPadding groups)

theorem fileSize_eq (hnodup : (sectionIds order).Nodup) {partId : PartId}
    (hplaced : partId ∈ placedParts order) (hrelro : partId.outputSectionId ≠ relroPadding) :
    (layoutSectionParts sizes outputSections programSegments args order partId).fileSize =
      placedFileSize sizes outputSections partId := by
  have hlaid : Laid sizes outputSections (placedParts order)
      (layoutEvents sizes outputSections programSegments args order order) :=
    laid_layoutSectionParts hnodup
  obtain ⟨-, hmem, hfile⟩ := hlaid.record partId hplaced
  rw [layoutSectionParts, hfile, hmem hrelro]
  rfl

variable (programSegments args) in
/-- The bytes of a part in the section's slice start at its offset exactly
when no part up to it needs padding. -/
theorem start_eq_fileOffset_iff (hnodup : (sectionIds order).Nodup)
    (hmerged : DataMerged (totalSizes groups) outputSections)
    (hdata : outputSections.hasDataInFile partId.outputSectionId = true)
    (hsize : totalSizes groups partId ≠ 0) (hplaced : partId ∈ placedParts order) :
    let layout := layoutSectionParts (totalSizes groups) outputSections programSegments args order
    sectionFileOffset layout partId.outputSectionId +
          sizeBefore (fun other => (layout other).fileSize) partId =
        (layout partId).fileOffset ↔
      ∀ other ∈ partId.outputSectionId.parts, other ≤ partId →
        (placedAlignment (totalSizes groups) outputSections other).value ∣
          sizeBefore (totalSizes groups) other := by
  intro layout
  have hrelro := ne_relroPadding hsize
  have hmem := mem_placedParts.1 hplaced
  have hsizes : ∀ other : PartId, other.outputSectionId = partId.outputSectionId →
      placedFileSize (totalSizes groups) outputSections other = totalSizes groups other :=
    fun other hsec => placedFileSize_of_dataMerged hmerged hdata hsize hsec
  have hfile : sizeBefore (fun other => (layout other).fileSize) partId =
      sizeBefore (placedFileSize (totalSizes groups) outputSections) partId := by
    refine sizeBefore_congr fun other hsec => fileSize_eq hnodup ?_ (hsec ▸ hrelro)
    rw [mem_placedParts, hsec]
    exact hmem
  rw [hfile, eq_comm, show layout = layoutSectionParts (totalSizes groups) outputSections
    programSegments args order from rfl, fileOffset_eq_iff hnodup hmem hrelro]
  refine forall_congr' fun other => forall_congr' fun hother => forall_congr' fun _ => ?_
  rw [sizeBefore_congr fun item hsec =>
    hsizes item (hsec.trans (OutputSectionId.mem_parts.1 hother))]

variable {group : GroupSizes}

theorem memSizes_le_totalSizes {i : ℕ} (h : groups[i]? = some group) (partId : PartId) :
    sizeInEarlier groups i partId + group.memSizes partId ≤ totalSizes groups partId := by
  induction groups generalizing i with
  | nil => cases h
  | cons first groups ih =>
    cases i with
    | zero =>
      cases h
      exact (Nat.add_comm _ _).le.trans (Nat.add_le_add_left (Nat.zero_le _) _)
    | succ i =>
      have hle := ih h
      rw [sizeInEarlier, List.take_succ_cons, totalSizes_cons, totalSizes_cons, Nat.add_assoc]
      exact Nat.add_le_add_left hle _

theorem sizeInEarlier_mono {i j : ℕ} (h : groups[i]? = some group) (hlt : i < j) (partId : PartId) :
    sizeInEarlier groups i partId + group.memSizes partId ≤ sizeInEarlier groups j partId := by
  have hget : (groups.take j)[i]? = some group := by
    rw [List.getElem?_take_of_lt hlt]
    exact h
  have hle := memSizes_le_totalSizes hget partId
  rw [sizeInEarlier, List.take_take, Nat.min_eq_left hlt.le] at hle
  exact hle

theorem totalFileSizes_of_data
    (hdata : outputSections.hasDataInFile partId.outputSectionId = true) (i : ℕ) :
    totalFileSizes outputSections (groups.take i) partId = sizeInEarlier groups i partId := by
  rw [totalFileSizes_eq, if_pos hdata, sizeInEarlier]

theorem exists_group_of_totalSizes_ne_zero (h : totalSizes groups partId ≠ 0) :
    ∃ (i : ℕ) (group : GroupSizes), groups[i]? = some group ∧ group.memSizes partId ≠ 0 := by
  induction groups with
  | nil => exact absurd rfl h
  | cons group groups ih =>
    by_cases hzero : group.memSizes partId = 0
    · rw [totalSizes_cons, hzero, Nat.zero_add] at h
      obtain ⟨i, other, hother, hne⟩ := ih h
      exact ⟨i + 1, other, hother, hne⟩
    · exact ⟨0, group, rfl, hzero⟩

variable (hnodup : (sectionIds order).Nodup)
  (hsecs : ∀ sectionId ∈ sectionIds order, sectionId < numSections)
  (hplaced : ∀ partId : PartId, totalSizes groups partId ≠ 0 →
    partId.outputSectionId ∈ sectionIds order)

include hnodup hsecs in
/-- The slices of the groups are cut from the parts' buckets. -/
theorem exists_splitOutput_eq :
    let layout := layoutSectionParts (totalSizes groups) outputSections programSegments args order
    ∃ buckets, splitOutput layout outputSections order numSections groups =
        splitOutputByGroup outputSections numSections groups buckets
          (fun partId => (layout partId).fileOffset) ∧
      ∀ partId ∈ placedParts order, buckets partId =
        ⟨sectionFileOffset layout partId.outputSectionId +
          sizeBefore (fun other => (layout other).fileSize) partId, (layout partId).fileSize⟩ := by
  intro layout
  obtain ⟨sectionBuffers, buckets, hcut, hbuckets, -, hparts⟩ := @exists_buckets
    (totalSizes groups) outputSections programSegments args order hnodup numSections hsecs
  refine ⟨buckets, ?_, hparts⟩
  rw [splitOutput, hcut]
  simp only [Option.bind_eq_bind, Option.bind_some]
  rw [hbuckets]
  rfl

include hplaced in
theorem mem_placedParts_of_totalSizes (h : totalSizes groups partId ≠ 0) :
    partId ∈ placedParts order := by
  rw [mem_placedParts, ← mem_sectionIds]
  exact hplaced partId h

theorem fileSize_eq_totalSizes (hnodup : (sectionIds order).Nodup)
    (hmerged : DataMerged (totalSizes groups) outputSections)
    (hdata : outputSections.hasDataInFile partId.outputSectionId = true)
    (hsize : totalSizes groups partId ≠ 0) (hpart : partId ∈ placedParts order) :
    (layoutSectionParts (totalSizes groups) outputSections programSegments args order
      partId).fileSize = totalSizes groups partId := by
  rw [fileSize_eq hnodup hpart (ne_relroPadding hsize)]
  exact placedFileSize_of_dataMerged hmerged hdata hsize rfl

include hplaced in
/-- No group's slice runs out as long as no data is merged away. -/
theorem totalFileSizes_le_fileSize (hnodup : (sectionIds order).Nodup)
    (hmerged : DataMerged (totalSizes groups) outputSections) (partId : PartId) :
    totalFileSizes outputSections groups partId ≤
      (layoutSectionParts (totalSizes groups) outputSections programSegments args order
        partId).fileSize := by
  rw [totalFileSizes_eq]
  split
  case isFalse => exact Nat.zero_le _
  case isTrue hdata =>
    by_cases hsize : totalSizes groups partId = 0
    · rw [hsize]
      exact Nat.zero_le _
    · exact (fileSize_eq_totalSizes hnodup hmerged hdata hsize
        (mem_placedParts_of_totalSizes hplaced hsize)).ge

theorem hasData_of_fileSizes (h : group.fileSizes outputSections partId ≠ 0) :
    outputSections.hasDataInFile partId.outputSectionId = true ∧
      group.fileSizes outputSections partId = group.memSizes partId := by
  unfold GroupSizes.fileSizes at h ⊢
  split at h
  case isTrue hdata => exact ⟨hdata, if_pos hdata⟩
  case isFalse => exact absurd rfl h

include hsecs hplaced in
theorem mem_allParts_of_totalSizes (h : totalSizes groups partId ≠ 0) :
    partId ∈ allParts numSections := mem_allParts.2 (hsecs _ (hplaced partId h))

include hnodup hsecs hplaced in
/-- Slices that are where the addresses say: the first bytes of every part are
some group's. -/
theorem unpadded_of_writtenWhereAddressed (h : WrittenWhereAddressed
      (layoutSectionParts (totalSizes groups) outputSections programSegments args order)
      outputSections order numSections groups) :
    DataMerged (totalSizes groups) outputSections ∧
      PartsUnpadded (totalSizes groups) outputSections := by
  let layout := layoutSectionParts (totalSizes groups) outputSections programSegments args order
  obtain ⟨buckets, hsplit, hbuckets⟩ := @exists_splitOutput_eq outputSections programSegments
    args order groups numSections hnodup hsecs
  obtain ⟨split, hrun, hlength, haddressed, -⟩ := h
  rw [hsplit] at hrun
  have henough : ∀ partId ∈ allParts numSections,
      totalFileSizes outputSections groups partId ≤ (buckets partId).length :=
    fun partId hmem => totalFileSizes_le_of_splitOutputByGroup hrun hmem
  have hmerged : DataMerged (totalSizes groups) outputSections := by
    intro partId hdata hsize halloc
    by_contra hnone
    have hle := henough partId (mem_allParts_of_totalSizes hsecs hplaced hsize)
    have hfile := @fileSize_eq (totalSizes groups) outputSections programSegments args order
      hnodup partId (mem_placedParts_of_totalSizes hplaced hsize) (ne_relroPadding hsize)
    rw [placedFileSize, if_pos ⟨halloc, by simpa using hnone⟩] at hfile
    rw [hbuckets partId (mem_placedParts_of_totalSizes hplaced hsize), totalFileSizes_eq, if_pos hdata] at hle
    simp only [hfile] at hle
    exact hsize (Nat.le_zero.1 hle)
  refine ⟨hmerged, ?_⟩
  intro partId hdata hsize
  have hpart := mem_placedParts_of_totalSizes hplaced hsize
  refine (start_eq_fileOffset_iff programSegments args hnodup hmerged hdata hsize hpart).1 ?_
  obtain ⟨i, group, hgroup, hne⟩ := exists_group_of_totalSizes_ne_zero hsize
  have hlt : i < groups.length := (List.getElem?_eq_some_iff.1 hgroup).1
  obtain ⟨split', hrun', -, hall⟩ := @splitOutputByGroup_eq outputSections numSections groups
    buckets (fun partId => (layout partId).fileOffset) henough
  obtain rfl : split = split' := Option.some.inj (hrun.symm.trans hrun')
  obtain ⟨⟨slices, offsets⟩, hslices⟩ : ∃ pair, split[i]? = some pair :=
    ⟨_, List.getElem?_eq_getElem (by rw [hlength]; exact hlt)⟩
  have hslice := (hall i group slices offsets hgroup hslices).2 partId (mem_allParts_of_totalSizes hsecs hplaced hsize)
  obtain ⟨-, hstart⟩ := haddressed i group slices offsets _ hgroup hslices
    (computeStartOffsetsByGroup_getElem? hlt) partId
  have hstart := (hstart (by rw [hslice, GroupSizes.fileSizes, if_pos hdata]; exact hne)).1
  rw [hslice, totalFileSizes_of_data hdata, hbuckets partId hpart] at hstart
  exact Nat.add_right_cancel hstart

include hnodup hsecs hplaced in
theorem writtenWhereAddressed_of_unpadded (hmerged : DataMerged (totalSizes groups) outputSections)
    (hunpadded : PartsUnpadded (totalSizes groups) outputSections) :
    WrittenWhereAddressed
      (layoutSectionParts (totalSizes groups) outputSections programSegments args order)
      outputSections order numSections groups := by
  let layout := layoutSectionParts (totalSizes groups) outputSections programSegments args order
  obtain ⟨buckets, hsplit, hbuckets⟩ := @exists_splitOutput_eq outputSections programSegments
    args order groups numSections hnodup hsecs
  have henough : ∀ partId ∈ allParts numSections,
      totalFileSizes outputSections groups partId ≤ (buckets partId).length := by
    intro partId _
    by_cases hsize : totalSizes groups partId = 0
    · rw [totalFileSizes_eq, hsize, ite_self]
      exact Nat.zero_le _
    · rw [hbuckets partId (mem_placedParts_of_totalSizes hplaced hsize)]
      exact totalFileSizes_le_fileSize hplaced hnodup hmerged partId
  obtain ⟨split, hrun, hlength, hall⟩ := @splitOutputByGroup_eq outputSections numSections groups
    buckets (fun partId => (layout partId).fileOffset) henough
  -- The length of every slice, and where the ones with bytes are.
  have hlengths : ∀ (i : ℕ) (group : GroupSizes) (slices : PartId → Slice) (offsets : PartId → ℕ),
      groups[i]? = some group → split[i]? = some (slices, offsets) → ∀ partId,
        (slices partId).length = group.fileSizes outputSections partId := by
    intro i group slices offsets hgroup hslices partId
    obtain ⟨houtside, hinside⟩ := hall i group slices offsets hgroup hslices
    by_cases hmem : partId ∈ allParts numSections
    · rw [hinside partId hmem]
    · have hzero : totalSizes groups partId = 0 := by
        by_contra hsize
        exact hmem (mem_allParts_of_totalSizes hsecs hplaced hsize)
      have hle := memSizes_le_totalSizes hgroup partId
      rw [houtside partId hmem, GroupSizes.fileSizes]
      split
      · simp only
        omega
      · rfl
  have hstarts : ∀ (i : ℕ) (group : GroupSizes) (slices : PartId → Slice)
      (offsets : PartId → ℕ), groups[i]? = some group → split[i]? = some (slices, offsets) →
      ∀ partId, (slices partId).length ≠ 0 → partId ∈ placedParts order ∧
        (slices partId).start = (layout partId).fileOffset + sizeInEarlier groups i partId ∧
        (slices partId).length = group.memSizes partId ∧
        (layout partId).fileSize = totalSizes groups partId := by
    intro i group slices offsets hgroup hslices partId hne
    have hlen := hlengths i group slices offsets hgroup hslices partId
    rw [hlen] at hne
    obtain ⟨hdata, hsame⟩ := hasData_of_fileSizes hne
    have hsize : totalSizes groups partId ≠ 0 := by
      have hle := memSizes_le_totalSizes hgroup partId
      rw [hsame] at hne
      omega
    have hpart := mem_placedParts_of_totalSizes hplaced hsize
    refine ⟨hpart, ?_, hlen.trans hsame, fileSize_eq_totalSizes hnodup hmerged hdata hsize hpart⟩
    rw [(hall i group slices offsets hgroup hslices).2 partId
      (mem_allParts_of_totalSizes hsecs hplaced hsize), totalFileSizes_of_data hdata,
      hbuckets partId hpart]
    simp only
    rw [(start_eq_fileOffset_iff programSegments args hnodup hmerged hdata hsize hpart).2
      (hunpadded partId hdata hsize)]
  refine ⟨split, hsplit.trans hrun, hlength, ?_, ?_⟩
  · intro i group slices offsets starts hgroup hslices hstart partId
    refine ⟨hlengths i group slices offsets hgroup hslices partId, ?_⟩
    intro hne
    obtain ⟨-, hfile, -, -⟩ := hstarts i group slices offsets hgroup hslices partId hne
    refine ⟨hfile, ?_⟩
    have hlt : i < groups.length := (List.getElem?_eq_some_iff.1 hgroup).1
    rw [computeStartOffsetsByGroup_getElem? hlt] at hstart
    rw [← Option.some.inj hstart]
  · intro i j slices slices' offsets offsets' hslices hslices' partId other hdiffer hne hne'
    obtain ⟨group, hgroup⟩ : ∃ group, groups[i]? = some group := ⟨_, List.getElem?_eq_getElem
        (by rw [← hlength]; exact (List.getElem?_eq_some_iff.1 hslices).1)⟩
    obtain ⟨group', hgroup'⟩ : ∃ group, groups[j]? = some group := ⟨_, List.getElem?_eq_getElem
        (by rw [← hlength]; exact (List.getElem?_eq_some_iff.1 hslices').1)⟩
    obtain ⟨hpart, hstart, hlen, hfile⟩ := hstarts i group slices offsets hgroup hslices partId hne
    obtain ⟨hpart', hstart', hlen', hfile'⟩ :=
      hstarts j group' slices' offsets' hgroup' hslices' other hne'
    have hle := memSizes_le_totalSizes hgroup partId
    have hle' := memSizes_le_totalSizes hgroup' other
    unfold Slice.Disjoint
    rw [hstart, hlen, hstart', hlen']
    by_cases hsame : partId = other
    · -- The same part of different groups.
      subst hsame
      have hij : i ≠ j := hdiffer.resolve_right fun h => h rfl
      rcases Nat.lt_or_gt_of_ne hij with hlt | hgt
      · have := sizeInEarlier_mono hgroup hlt partId
        exact .inl (by omega)
      · have := sizeInEarlier_mono hgroup' hgt partId
        exact .inr (by omega)
    · rcases pairwise_eq_or (@pairwise_fileBefore (totalSizes groups) outputSections
        programSegments args order hnodup) hpart hpart' with heq | hbefore | hbefore
      · exact absurd heq hsame
      · have hbefore : (layout partId).fileOffset + (layout partId).fileSize ≤
            (layout other).fileOffset := hbefore
        exact .inl (by omega)
      · have hbefore : (layout other).fileOffset + (layout other).fileSize ≤
            (layout partId).fileOffset := hbefore
        exact .inr (by omega)

end

end

/-- The writer's slices are where the addresses say exactly when no data is
merged away and no part is padded. -/
theorem writtenWhereAddressed_iff (outputSections : OutputSections)
    (programSegments : List ProgramSegmentDef) (args : LayoutArgs) (order : List OrderEvent)
    (numSections : ℕ) (groups : List GroupSizes) (hnodup : (sectionIds order).Nodup)
    (hsecs : ∀ sectionId ∈ sectionIds order, sectionId < numSections)
    (hplaced : ∀ partId : PartId, totalSizes groups partId ≠ 0 →
      partId.outputSectionId ∈ sectionIds order) :
    WrittenWhereAddressed
        (layoutSectionParts (totalSizes groups) outputSections programSegments args order)
        outputSections order numSections groups ↔
      DataMerged (totalSizes groups) outputSections ∧
        PartsUnpadded (totalSizes groups) outputSections :=
  ⟨unpadded_of_writtenWhereAddressed hnodup hsecs hplaced,
    fun h => writtenWhereAddressed_of_unpadded hnodup hsecs hplaced h.1 h.2⟩

/-! ## Packed sections -/

/-- All sections are code. -/
def packedSections : OutputSections where
  baseAddress := 0x400000
  outputInfo _ :=
    { kind := .primary
      sectionAttributes := ⟨⟨true, false, true, false⟩, .other⟩
      minAlignment := 0
      location := none
      secondaryOrder := none }
  optBuiltInDetails _ := none

/-- Some bytes for `.init` that are aligned to 4, and one byte that is not
aligned. -/
def packedGroup (size : ℕ) : GroupSizes where
  memSizes partId :=
    if partId = init.basePartId + 14 then size else if partId = init.basePartId + 16 then 1 else 0
  relro := by
    rw [if_neg (by decide), if_neg (by decide)]

variable {size : ℕ}

theorem totalSizes_packedGroup {partId : PartId} (h : totalSizes [packedGroup size] partId ≠ 0) :
    partId = init.basePartId + 14 ∨ partId = init.basePartId + 16 := by
  by_contra hnot
  rw [not_or] at hnot
  refine h ?_
  rw [totalSizes_cons, packedGroup]
  simp only
  rw [if_neg hnot.1, if_neg hnot.2]
  rfl

theorem placed_packedGroup (partId : PartId) (h : totalSizes [packedGroup size] partId ≠ 0) :
    partId.outputSectionId ∈ sectionIds (builtOrder packedSections (fun _ => []) [init]).1 := by
  rcases totalSizes_packedGroup h with rfl | rfl <;> decide

/-- With eight bytes the rest of `.init` follows without padding. -/
theorem written_packedGroup_eight :
    WrittenWhereAddressed
      (layoutSectionParts (totalSizes [packedGroup 8]) packedSections
        (builtOrder packedSections (fun _ => []) [init]).2 ⟨12, false⟩
        (builtOrder packedSections (fun _ => []) [init]).1)
      packedSections (builtOrder packedSections (fun _ => []) [init]).1 53 [packedGroup 8] := by
  refine (writtenWhereAddressed_iff packedSections
    (builtOrder packedSections (fun _ => []) [init]).2 ⟨12, false⟩
    (builtOrder packedSections (fun _ => []) [init]).1 53 [packedGroup 8] (by decide) (by decide)
    placed_packedGroup).2 ⟨fun _ _ _ _ => rfl, ?_⟩
  intro partId _ hsize
  rcases totalSizes_packedGroup hsize with rfl | rfl <;> decide +kernel

/-- After five bytes the next part is aligned to 2, but the slices are not. -/
theorem not_written_packedGroup_five :
    ¬ WrittenWhereAddressed
      (layoutSectionParts (totalSizes [packedGroup 5]) packedSections
        (builtOrder packedSections (fun _ => []) [init]).2 ⟨12, false⟩
        (builtOrder packedSections (fun _ => []) [init]).1)
      packedSections (builtOrder packedSections (fun _ => []) [init]).1 53 [packedGroup 5] := by
  intro h
  obtain ⟨-, hunpadded⟩ :=
    unpadded_of_writtenWhereAddressed (by decide) (by decide) placed_packedGroup h
  have hdvd := hunpadded (init.basePartId + 16) rfl (by decide) (init.basePartId + 15) (by decide)
    (by decide)
  revert hdvd
  decide +kernel

end Sld.Layout
