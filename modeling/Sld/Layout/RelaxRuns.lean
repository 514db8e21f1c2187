/-
# `Layout.RelaxRuns` — the code after an alignment, over all passes

No pass ever removes more than an alignment's padding, and what a pass
deletes never overlaps (`LoadedSection.Sound`).  The code after the alignment
stays where it has to be as long as the code before cut padding is left alone
(`RelaxationState.Keeps`, `relaxation_keeps_alignment`).
-/
import Sld.Layout.RelaxAlignment

namespace Sld.Layout

open ScanInput (align align_delta paddingStart surplus surplus_le)

namespace LoadedSection

variable (sec : LoadedSection)

/-- The deletions of a section. -/
def raw : List (ℕ × ℕ) :=
  match sec.relaxDeltas with
  | some deltas => deltas.raw
  | none => []

/-- `opt_input_to_output` -/
def outputOffset (inputOffset : ℕ) : ℕ :=
  match sec.relaxDeltas with
  | some deltas => deltas.inputToOutputOffset inputOffset
  | none => inputOffset

/-- What an assembler writes for code whose smallest instruction has `granule`
bytes: the addend of an alignment is the padding it reserved there. -/
structure WellFormed (granule : ℕ) : Prop where
  granule_eq : granule = 2 ∨ granule = 4
  ordered : sec.relocations.Pairwise Relocation.Before
  alignment : ∀ rel ∈ sec.relocations, rel.rawType = .align →
    (∃ log, asU64 rel.addend + granule = 2 ^ log) ∧ granule ∣ rel.offset

/-- The code that follows each alignment is aligned. -/
def CodeAligned (granule : ℕ) (placement : Placement) (index : ℕ) : Prop :=
  ∀ rel ∈ sec.relocations, rel.rawType = .align →
    asU64 rel.addend + granule ∣
      placement.sectionAddress index + sec.outputOffset (rel.offset + asU64 rel.addend)

/-- What is removed at an alignment is padding. -/
def PaddingOnly : Prop :=
  ∀ rel ∈ sec.relocations, rel.rawType = .align →
    deletedBetween sec.raw rel.offset (rel.offset + asU64 rel.addend) ≤ asU64 rel.addend

/-! ## One section in one pass -/

/-- The deletions of a section belong to its relocations. -/
structure Sound : Prop where
  spaced : sec.raw.Pairwise Spaced
  slots : ∀ entry ∈ sec.raw, ∃ rel ∈ sec.relocations, rel.Slot entry

/-- What a pass deletes from a section that it scans. -/
def newDeltas (placement : Placement) (index : ℕ) : List (ℕ × ℕ) :=
  if placement.sectionAddress index = 0 then []
  else ((sec.scanInput placement index).scanRelocations sec.relocations).rawDeltas

variable {sec}

theorem scan_fst (placement : Placement) (index : ℕ) : (sec.scan placement index).1 =
      match sec.newDeltas placement index with
      | [] => sec
      | rawDeltas => sec.addDeltas rawDeltas := by
  unfold scan newDeltas
  by_cases haddr : placement.sectionAddress index = 0
  · rw [if_pos haddr, if_pos haddr]
  · rw [if_neg haddr, if_neg haddr]
    simp only [ScanInput.collectRelaxationDeltas]
    cases ((sec.scanInput placement index).scanRelocations sec.relocations).rawDeltas <;> rfl

theorem scan_relocations (placement : Placement) (index : ℕ) :
    (sec.scan placement index).1.relocations = sec.relocations := by
  rw [scan_fst]
  split <;> rfl

theorem scan_isExecutable (placement : Placement) (index : ℕ) :
    (sec.scan placement index).1.isExecutable = sec.isExecutable := by
  rw [scan_fst]
  split <;> rfl

theorem perm_raw_scan (placement : Placement) (index : ℕ) :
    (sec.scan placement index).1.raw.Perm (sec.raw ++ sec.newDeltas placement index) := by
  rw [scan_fst]
  split
  case h_1 hnil => rw [hnil, List.append_nil]
  case h_2 =>
    simp only [raw, addDeltas]
    cases sec.relaxDeltas with
    | none => simp
    | some existing => exact existing.perm_mergeAdditional _

namespace Sound

theorem outputOffset_eq (h : sec.Sound) (offset : ℕ) :
    sec.outputOffset offset = offset - deletedBefore sec.raw offset := by
  have hspaced := h.spaced
  cases heq : sec.relaxDeltas with
  | none => simp [outputOffset, raw, heq]
  | some deltas =>
    simp only [outputOffset, raw, heq] at hspaced ⊢
    exact deltas.inputToOutputOffset_eq (ascending_of_spaced hspaced) offset

variable {rel : Relocation}

variable (h : sec.Sound) (hordered : sec.relocations.Pairwise Relocation.Before)

include h hordered

theorem slot_or_apart (hrel : rel ∈ sec.relocations) (htype : rel.rawType ≠ .relax)
    {entry : ℕ × ℕ} (hentry : entry ∈ sec.raw) :
    rel.Slot entry ∨ entry.1 + entry.2 ≤ rel.offset ∨ rel.offset + rel.span ≤ entry.1 := by
  obtain ⟨rel', hrel', hslot⟩ := h.slots entry hentry
  have hle := hslot.le
  by_cases heq : rel = rel'
  · rw [heq]
    exact .inl hslot
  · have hapart := apart_of_ne hordered hrel hrel' htype hslot.not_relax heq
    omega

theorem ends (hrel : rel ∈ sec.relocations) (htype : rel.rawType ≠ .relax) :
    ∀ entry ∈ sec.raw, entry.1 < rel.offset + rel.span →
      entry.1 + entry.2 ≤ rel.offset + rel.span := by
  intro entry hentry hlt
  rcases h.slot_or_apart hordered hrel htype hentry with hslot | hapart
  · exact hslot.le.2.2
  · omega

theorem ends_before (hrel : rel ∈ sec.relocations) (htype : rel.rawType ≠ .relax) :
    ∀ entry ∈ sec.raw, entry.1 < rel.offset → entry.1 + entry.2 ≤ rel.offset := by
  intro entry hentry hlt
  rcases h.slot_or_apart hordered hrel htype hentry with hslot | hapart
  · have hle := hslot.le
    omega
  · omega

theorem paddingOnly : sec.PaddingOnly := by
  intro rel hrel htype
  have hspan : rel.span = asU64 rel.addend := by rw [Relocation.span, htype]
  have hends := h.ends hordered hrel (by simp [htype])
  rw [hspan] at hends
  have := deletedBetween_le h.spaced (Nat.le_add_right rel.offset (asU64 rel.addend)) hends
  omega

theorem mem_of_padding (hrel : rel ∈ sec.relocations) (htype : rel.rawType = .align)
    {entry : ℕ × ℕ} (hentry : entry ∈ sec.raw) (hle : rel.offset ≤ entry.1)
    (hlt : entry.1 < rel.offset + asU64 rel.addend) : entry.1 = rel.offset := by
  have hspan : rel.span = asU64 rel.addend := by rw [Relocation.span, htype]
  rcases h.slot_or_apart hordered hrel (by simp [htype]) hentry with hslot | hapart
  · simp only [Relocation.Slot, htype] at hslot
    exact hslot.2.1
  · omega

theorem scan (placement : Placement) (index : ℕ) : (sec.scan placement index).1.Sound := by
  have hnew : (sec.newDeltas placement index).Pairwise Spaced ∧
      ∀ entry ∈ sec.newDeltas placement index, ∃ rel ∈ sec.relocations, rel.Slot entry ∧
        ∀ old ∈ sec.raw, ¬ rel.Slot old := by
    unfold newDeltas
    split
    · exact ⟨List.Pairwise.nil, by simp⟩
    · have hwalked := (sec.scanInput placement index).walked_scanRelocations hordered
      refine ⟨hwalked.spaced, fun entry hentry => ?_⟩
      obtain ⟨rel, hrel, hslot, hold⟩ := hwalked.slots entry hentry
      refine ⟨rel, hrel, hslot, fun old hmem => ?_⟩
      cases heq : sec.relaxDeltas with
      | none => simp [raw, heq] at hmem
      | some deltas => exact hold deltas heq old (by simpa [raw, heq] using hmem)
  refine ⟨?_, ?_⟩
  · rw [scan_fst]
    split
    case h_1 => exact h.spaced
    case h_2 =>
      have hspaced := h.spaced
      cases heq : sec.relaxDeltas with
      | none => simpa [raw, addDeltas, heq] using hnew.1
      | some existing =>
        simp only [raw, addDeltas, heq] at hspaced ⊢
        refine existing.spaced_mergeAdditional hspaced hnew.1 ?_
        intro old hold entry hentry
        have hold' : old ∈ sec.raw := by simpa [raw, heq] using hold
        obtain ⟨rel, hrel, hslot⟩ := h.slots old hold'
        obtain ⟨rel', hrel', hslot', hfree⟩ := hnew.2 entry hentry
        refine spaced_of_slots hordered hrel hrel' hslot hslot' ?_
        rintro rfl
        exact hfree old hold' hslot
  · intro entry hentry
    rw [scan_relocations]
    rcases List.mem_append.1 ((perm_raw_scan placement index).mem_iff.1 hentry) with hmem | hmem
    · exact h.slots entry hmem
    · obtain ⟨rel, hrel, hslot, -⟩ := hnew.2 entry hmem
      exact ⟨rel, hrel, hslot⟩

end Sound

/-! ## Alignments in one pass -/

section

variable {placement : Placement} {index : ℕ} {rel : Relocation}
  {before after : List Relocation}

theorem newDeltas_at_align (hordered : sec.relocations.Pairwise Relocation.Before)
    (haddr : placement.sectionAddress index ≠ 0)
    (hsplit : sec.relocations = before ++ rel :: after) (htype : rel.rawType = .align) :
    deletedBefore (sec.newDeltas placement index) rel.offset =
        (((sec.scanInput placement index).scanRelocations before).rawDeltas.map Prod.snd).sum ∧
      deletedBetween (sec.newDeltas placement index) rel.offset (rel.offset + asU64 rel.addend) =
        (((sec.scanInput placement index).align
          (deletedBefore (sec.newDeltas placement index) rel.offset) rel).map Prod.snd).getD 0 := by
  set input := sec.scanInput placement index with hinput
  rw [hsplit] at hordered
  obtain ⟨hbefore, hrest, hcross⟩ := List.pairwise_append.1 hordered
  have hfresh := (input.walked_scanRelocations hbefore).before
    (fun rel' hrel' => hcross rel' hrel' rel List.mem_cons_self) (by simp [htype])
  obtain ⟨later, hraw, hlater⟩ := input.scanRelocations_at_align hordered htype
  rw [← hsplit] at hraw
  have hnew : sec.newDeltas placement index =
      (input.scanRelocations sec.relocations).rawDeltas := by
    rw [newDeltas, if_neg haddr]
  set fresh := (input.scanRelocations before).rawDeltas with hfreshdef
  have hafter : ∀ entry ∈ later, rel.offset + asU64 rel.addend ≤ entry.1 := by
    intro entry hentry
    obtain ⟨rel', hrel', hslot⟩ := hlater entry hentry
    have hle := hslot.le
    have hspan : rel.span = asU64 rel.addend := by rw [Relocation.span, htype]
    rcases (List.pairwise_cons.1 hrest).1 rel' hrel' with hbefore | ⟨hrelax, -⟩
    · omega
    · exact absurd hrelax hslot.not_relax
  have hhere : ∀ entry ∈ (input.align ((fresh.map Prod.snd).sum) rel).toList,
      0 < asU64 rel.addend ∧ entry.1 = rel.offset := by
    intro entry hentry
    obtain ⟨hpos, -, -, rfl⟩ := input.align_delta (Option.mem_toList.1 hentry)
    exact ⟨hpos, rfl⟩
  have hsum : deletedBefore (sec.newDeltas placement index) rel.offset =
      (fresh.map Prod.snd).sum := by
    rw [hnew, hraw, deletedBefore_append, deletedBefore_append,
      deletedBefore_of_lt fun entry hentry => (hfresh entry hentry).2,
      deletedBefore_of_le fun entry hentry => (hhere entry hentry).2.ge,
      deletedBefore_of_le fun entry hentry =>
        (Nat.le_add_right _ _).trans (hafter entry hentry),
      Nat.add_zero]
  refine ⟨hsum, ?_⟩
  rw [hsum, hnew, hraw, deletedBetween_append, deletedBetween_append,
    deletedBetween_eq_zero fun entry hentry => .inl (hfresh entry hentry).2,
    deletedBetween_eq_zero fun entry hentry => .inr (hafter entry hentry)]
  cases halign : input.align ((fresh.map Prod.snd).sum) rel with
  | none => rfl
  | some entry =>
    obtain ⟨hpos, hoff⟩ := hhere entry (by simp [halign])
    simp [deletedBetween, hoff, hpos]

end

/-- What a pass has to find, or leave alone, for the code after the alignments
of a section to be aligned. -/
structure Undisturbed (granule : ℕ) (placement : Placement) (index : ℕ)
    (sec : LoadedSection) : Prop where
  /-- The alignment of padding that is still whole can be told from its addend. -/
  recovered : ∀ rel ∈ sec.relocations, rel.rawType = .align → asU64 rel.addend ≠ 0 →
    (sec.scanInput placement index).hasDeltaAt rel.offset = false →
      nextPowerOfTwo (asU64 rel.addend) = asU64 rel.addend + granule ∧ asU64 rel.addend < 2 ^ 32
  /-- Nothing is shortened before padding that has been cut. -/
  quiet : ∀ rel ∈ sec.relocations, rel.rawType = .align → asU64 rel.addend ≠ 0 →
    (sec.scanInput placement index).hasDeltaAt rel.offset = true →
      ∀ entry ∈ (sec.scanInput placement index).shortenings sec.relocations, rel.offset ≤ entry.1
  /-- Instructions are not made smaller than they can be. -/
  granular : ∀ entry ∈ (sec.scanInput placement index).shortenings sec.relocations,
    granule ∣ entry.2

instance (granule : ℕ) (placement : Placement) (index : ℕ) (sec : LoadedSection) :
    Decidable (Undisturbed granule placement index sec) :=
  decidable_of_iff (_ ∧ _ ∧ _)
    ⟨fun h => ⟨h.1, h.2.1, h.2.2⟩, fun h => ⟨h.recovered, h.quiet, h.granular⟩⟩

section

variable {placement : Placement} {index granule : ℕ}

variable (placement index) in
theorem hasDeltaAt_iff (offset : ℕ) : (sec.scanInput placement index).hasDeltaAt offset = true ↔
      ∃ bytes, (offset, bytes) ∈ sec.raw := by
  cases heq : sec.relaxDeltas with
  | none => simp [ScanInput.hasDeltaAt, scanInput, raw, heq]
  | some deltas =>
    simp only [ScanInput.hasDeltaAt, scanInput, raw, heq, Option.any_some]
    exact SectionRelaxDeltas.hasDeltaAt_iff offset

theorem Sound.existingCumulative_eq (h : sec.Sound) (offset : ℕ) :
    (sec.scanInput placement index).existingCumulative offset = deletedBefore sec.raw offset := by
  have hspaced := h.spaced
  cases heq : sec.relaxDeltas with
  | none => simp [ScanInput.existingCumulative, scanInput, raw, heq]
  | some deltas =>
    simp only [scanInput, raw, heq] at hspaced ⊢
    exact SectionRelaxDeltas.cumulativeAt_eq (ascending_of_spaced hspaced) offset

theorem WellFormed.granule_pos (h : sec.WellFormed granule) : 0 < granule := by
  rcases h.granule_eq with rfl | rfl <;> decide

variable {rel : Relocation}

theorem WellFormed.dvd_addend (h : sec.WellFormed granule)
    (hrel : rel ∈ sec.relocations) (htype : rel.rawType = .align) :
    granule ∣ asU64 rel.addend := by
  obtain ⟨⟨log, hlog⟩, -⟩ := h.alignment rel hrel htype
  have hpow : granule ∣ 2 ^ log := by
    rcases h.granule_eq with rfl | rfl
    · cases log with
      | zero => omega
      | succ log => exact Dvd.intro_left (2 ^ log) (pow_succ 2 log).symm
    · cases log with
      | zero => omega
      | succ log =>
        cases log with
        | zero => omega
        | succ log => exact Dvd.intro_left (2 ^ log) (pow_add 2 log 2).symm
  rw [← hlog] at hpow
  exact (Nat.dvd_add_left (dvd_refl granule)).1 hpow

variable (hwf : sec.WellFormed granule) (hsound : sec.Sound)
  (hgranular : ∀ entry ∈ sec.raw, granule ∣ entry.2)
  (hplace : granule ∣ placement.sectionAddress index)
  (hund : Undisturbed granule placement index sec)

include hwf hsound hgranular hplace hund

theorem dvd_surplus (hrel : rel ∈ sec.relocations)
    (htype : rel.rawType = .align) {cumulative : ℕ} (hcumulative : granule ∣ cumulative)
    {entry : ℕ × ℕ} (h : (sec.scanInput placement index).align cumulative rel = some entry) :
    granule ∣ entry.2 := by
  obtain ⟨hpos, hnew, hsurplus, rfl⟩ := align_delta _ h
  obtain ⟨hrecovered, hsmall⟩ := hund.recovered rel hrel htype hpos.ne' hnew
  have haddend := hwf.dvd_addend hrel htype
  have hp : granule ∣ (sec.scanInput placement index).paddingStart cumulative rel.offset := by
    refine Nat.dvd_add hplace (Nat.dvd_sub (Nat.dvd_sub ?_ ?_) hcumulative)
    · exact (hwf.alignment rel hrel htype).2
    · rw [hsound.existingCumulative_eq]
      exact dvd_deletedBefore hgranular _
  have hrest := (Nat.dvd_add haddend (dvd_refl granule)).trans
    (ScanInput.dvd_of_hasSurplus hwf.granule_pos hrecovered hsmall hsurplus)
  have hle := surplus_le
    ((sec.scanInput placement index).paddingStart cumulative rel.offset) (asU64 rel.addend)
  have := Nat.dvd_sub (Nat.dvd_add hp haddend) hrest
  rwa [Nat.sub_sub_self (by omega)] at this

theorem dvd_newDeltas : ∀ entry ∈ sec.newDeltas placement index, granule ∣ entry.2 := by
  unfold newDeltas
  split
  · simp
  · have hwalked := (sec.scanInput placement index).walked_scanRelocations hwf.ordered
    set rawDeltas := ((sec.scanInput placement index).scanRelocations sec.relocations).rawDeltas
    -- by induction on how many entries come first: the surplus of padding
    -- depends on all entries before it
    have hearlier : ∀ earlier later, rawDeltas = earlier ++ later →
        ∀ entry ∈ earlier, granule ∣ entry.2 := by
      intro earlier
      induction earlier using List.reverseRecOn with
      | nil => simp
      | append_singleton earlier last ih =>
        intro later heq entry hentry
        rw [List.append_assoc] at heq
        have hearlier := ih _ heq
        rcases List.mem_append.1 hentry with hmem | hmem
        · exact hearlier entry hmem
        · rw [List.mem_singleton.1 hmem]
          rcases hwalked.source earlier last later heq with hshort | ⟨rel, hrel, htype, halign⟩
          · exact hund.granular last hshort
          · rw [List.nil_append] at halign
            refine dvd_surplus hwf hsound hgranular hplace hund hrel htype ?_ halign
            refine List.dvd_sum fun bytes hbytes => ?_
            obtain ⟨entry, hentry, rfl⟩ := List.mem_map.1 hbytes
            exact hearlier entry hentry
    exact hearlier rawDeltas [] (by rw [List.append_nil])

theorem newDeltas_eq_zero (haddr : placement.sectionAddress index ≠ 0)
    (haligned : sec.CodeAligned granule placement index)
    (hrel : rel ∈ sec.relocations) (htype : rel.rawType = .align) (hpos : asU64 rel.addend ≠ 0)
    (hcut : (sec.scanInput placement index).hasDeltaAt rel.offset = true) :
    deletedBefore (sec.newDeltas placement index) rel.offset = 0 ∧
      deletedBetween (sec.newDeltas placement index) rel.offset
        (rel.offset + asU64 rel.addend) = 0 := by
  obtain ⟨before, after, hsplit⟩ := List.append_of_mem hrel
  obtain ⟨hsum, hbetween⟩ := newDeltas_at_align hwf.ordered haddr hsplit htype
  set input := sec.scanInput placement index with hinput
  have hordered := hwf.ordered
  rw [hsplit] at hordered
  obtain ⟨hbefore, -, hcross⟩ := List.pairwise_append.1 hordered
  have hwalked := input.walked_scanRelocations hbefore
  have hends := hwalked.before
    (fun rel' hrel' => hcross rel' hrel' rel List.mem_cons_self) (by simp [htype])
  have hnil : (input.scanRelocations before).rawDeltas = [] := by
    cases hraw : (input.scanRelocations before).rawDeltas with
    | nil => rfl
    | cons entry later =>
      have hentry : entry ∈ (input.scanRelocations before).rawDeltas := by simp [hraw]
      rcases hwalked.source [] entry later (by rw [hraw, List.nil_append]) with
        hshort | ⟨rel', hrel', htype', halign⟩
      · have hle := hund.quiet rel hrel htype hpos hcut entry (by
          rw [hsplit]
          exact input.mem_shortenings_append _ hshort)
        have := hends entry hentry
        omega
      · -- the first deletion would be the surplus of padding that has none
        have hmem' : rel' ∈ sec.relocations := by
          rw [hsplit]
          exact List.mem_append_left _ hrel'
        obtain ⟨hpos', hnew', hsurplus, -⟩ := align_delta _ halign
        obtain ⟨hrecovered, -⟩ := hund.recovered rel' hmem' htype' hpos'.ne' hnew'
        have hwhole : deletedBefore sec.raw (rel'.offset + asU64 rel'.addend) =
            deletedBefore sec.raw rel'.offset := by
          rw [deletedBefore_eq_add_between sec.raw (Nat.le_add_right _ _),
            deletedBetween_eq_zero, Nat.add_zero]
          intro old hold
          by_contra hin
          have hoff := hsound.mem_of_padding hwf.ordered hmem' htype' hold (by omega) (by omega)
          have : input.hasDeltaAt rel'.offset = true :=
            (hasDeltaAt_iff placement index rel'.offset).2 ⟨old.2, by rw [← hoff]; exact hold⟩
          rw [hnew'] at this
          cases this
        have hle := deletedBefore_le hsound.spaced
          (hsound.ends_before hwf.ordered hmem' (by simp [htype']))
        have hdvd := haligned rel' hmem' htype'
        rw [hsound.outputOffset_eq, hwhole] at hdvd
        have hstart : input.paddingStart 0 rel'.offset = placement.sectionAddress index +
              (rel'.offset - deletedBefore sec.raw rel'.offset) := by
          rw [paddingStart, hsound.existingCumulative_eq]
          rfl
        have hp : granule ∣ input.paddingStart 0 rel'.offset := by
          rw [hstart]
          exact Nat.dvd_add hplace (Nat.dvd_sub (hwf.alignment rel' hmem' htype').2
            (dvd_deletedBefore hgranular _))
        have hnone := ScanInput.not_hasSurplus_of_dvd hwf.granule_pos hrecovered hp
          (hwf.dvd_addend hmem' htype') (by
            rw [hstart]
            have heq : placement.sectionAddress index +
                  (rel'.offset - deletedBefore sec.raw rel'.offset) + asU64 rel'.addend =
                placement.sectionAddress index +
                  (rel'.offset + asU64 rel'.addend - deletedBefore sec.raw rel'.offset) := by
              omega
            rw [heq]
            exact hdvd)
        rw [List.nil_append, List.map_nil, List.sum_nil, hnone] at hsurplus
        cases hsurplus
  rw [hnil] at hsum
  refine ⟨hsum, ?_⟩
  rw [hbetween, align, if_pos (.inr hcut)]
  rfl

theorem codeAligned_scan (haddr : placement.sectionAddress index ≠ 0)
    (haligned : sec.relaxDeltas ≠ none → sec.CodeAligned granule placement index) :
    (∀ entry ∈ (sec.scan placement index).1.raw, granule ∣ entry.2) ∧
      (sec.scan placement index).1.CodeAligned granule placement index := by
  have hnewgranular := dvd_newDeltas hwf hsound hgranular hplace hund
  have hperm := @perm_raw_scan sec placement index
  have hsound' := hsound.scan hwf.ordered placement index
  have hgranular' : ∀ entry ∈ (sec.scan placement index).1.raw, granule ∣ entry.2 := by
    intro entry hentry
    rcases List.mem_append.1 (hperm.mem_iff.1 hentry) with hmem | hmem
    · exact hgranular entry hmem
    · exact hnewgranular entry hmem
  refine ⟨hgranular', ?_⟩
  intro rel hrel htype
  rw [scan_relocations] at hrel
  have hle := deletedBefore_le hsound'.spaced (hsound'.ends_before
    (by rw [scan_relocations]; exact hwf.ordered) (by rw [scan_relocations]; exact hrel)
    (by simp [htype]))
  rw [hsound'.outputOffset_eq]
  by_cases hpos : asU64 rel.addend = 0
  · rw [hpos, Nat.zero_add]
    exact Nat.dvd_add hplace (Nat.dvd_sub (hwf.alignment rel hrel htype).2
      (dvd_deletedBefore hgranular' _))
  · rw [deletedBefore_eq_add_between _ (Nat.le_add_right _ _)]
    rw [deletedBefore_perm hperm, deletedBefore_append] at hle ⊢
    rw [deletedBetween_perm hperm, deletedBetween_append]
    cases hcut : (sec.scanInput placement index).hasDeltaAt rel.offset with
    | true =>
      have hsome : sec.relaxDeltas ≠ none := by
        intro hnone
        simp [ScanInput.hasDeltaAt, scanInput, hnone] at hcut
      have hbefore := haligned hsome
      obtain ⟨hzero, hzero'⟩ := newDeltas_eq_zero hwf hsound hgranular hplace hund haddr
        hbefore hrel htype hpos hcut
      have hdvd := hbefore rel hrel htype
      rw [hsound.outputOffset_eq, deletedBefore_eq_add_between _ (Nat.le_add_right _ _)] at hdvd
      rw [hzero, hzero']
      exact hdvd
    | false =>
      have hwhole : deletedBetween sec.raw rel.offset (rel.offset + asU64 rel.addend) = 0 := by
        refine deletedBetween_eq_zero fun old hold => ?_
        by_contra hin
        have hoff := hsound.mem_of_padding hwf.ordered hrel htype hold (by omega) (by omega)
        have htrue := (hasDeltaAt_iff placement index rel.offset).2
          ⟨old.2, by rw [← hoff]; exact hold⟩
        rw [hcut] at htrue
        cases htrue
      obtain ⟨hrecovered, hsmall⟩ := hund.recovered rel hrel htype hpos hcut
      obtain ⟨before, after, hsplit⟩ := List.append_of_mem hrel
      obtain ⟨-, hbetween⟩ := newDeltas_at_align hwf.ordered haddr hsplit htype
      set cumulative := deletedBefore (sec.newDeltas placement index) rel.offset with hcum
      set start := (sec.scanInput placement index).paddingStart cumulative rel.offset with hstart
      have hstart' : start = placement.sectionAddress index +
          (rel.offset - (deletedBefore sec.raw rel.offset + cumulative)) := by
        rw [hstart, paddingStart, hsound.existingCumulative_eq, Nat.sub_sub]
        rfl
      have hp : granule ∣ start := by
        rw [hstart']
        exact Nat.dvd_add hplace (Nat.dvd_sub (hwf.alignment rel hrel htype).2
          (Nat.dvd_add (dvd_deletedBefore hgranular _) (dvd_deletedBefore hnewgranular _)))
      have haddend := hwf.dvd_addend hrel htype
      rw [hwhole, hbetween, align, if_neg (by simp [hpos, hcut])]
      simp only [← hstart]
      cases hsurplus : ScanInput.hasSurplus start (asU64 rel.addend) with
      | true =>
        have hdvd := ScanInput.dvd_of_hasSurplus hwf.granule_pos hrecovered hsmall hsurplus
        have hsle := surplus_le start (asU64 rel.addend)
        have heq : placement.sectionAddress index + (rel.offset + asU64 rel.addend -
              (deletedBefore sec.raw rel.offset + cumulative +
                (0 + surplus start (asU64 rel.addend)))) =
            start + asU64 rel.addend - surplus start (asU64 rel.addend) := by
          omega
        simp only [if_true, Option.map_some, Option.getD_some]
        rw [heq]
        exact hdvd
      | false =>
        have hdvd := ScanInput.dvd_of_not_hasSurplus hwf.granule_pos hrecovered hp haddend hsurplus
        have heq : placement.sectionAddress index + (rel.offset + asU64 rel.addend -
              (deletedBefore sec.raw rel.offset + cumulative + (0 + 0))) =
            start + asU64 rel.addend := by
          omega
        simp only [Bool.false_eq_true, if_false, Option.map_none, Option.getD_none]
        rw [heq]
        exact hdvd

end

theorem WellFormed.scan {granule : ℕ} (h : sec.WellFormed granule) (placement : Placement)
    (index : ℕ) : (sec.scan placement index).1.WellFormed granule where
  granule_eq := h.granule_eq
  ordered := by rw [scan_relocations]; exact h.ordered
  alignment := by rw [scan_relocations]; exact h.alignment

theorem CodeAligned.move {granule index : ℕ} {placement placement' : Placement}
    (h : sec.CodeAligned granule placement index)
    (hmoved : ∀ rel ∈ sec.relocations, rel.rawType = .align →
      placement'.sectionAddress index ≡ placement.sectionAddress index
        [MOD asU64 rel.addend + granule]) :
    sec.CodeAligned granule placement' index := by
  intro rel hrel htype
  have hmod := (hmoved rel hrel htype).add_right (sec.outputOffset (rel.offset + asU64 rel.addend))
  exact (hmod.dvd_iff (dvd_refl _)).2 (h rel hrel htype)

end LoadedSection

/-! ## All passes -/

namespace RelaxationState

variable (granule : ℕ → ℕ)

/-- Every executable section has a property. -/
def ForSections (state : RelaxationState) (P : ℕ → LoadedSection → Prop) : Prop :=
  ∀ index sec, state.sections[index]? = some sec → sec.isExecutable = true → P index sec

/-- What a pass and the layout after it leave alone in one section. -/
structure Keeps (state state' : RelaxationState) (index : ℕ) (sec : LoadedSection) : Prop where
  /-- The first pass skips sections at address zero. -/
  placed : state.rescanSections = none → state.placement.sectionAddress index ≠ 0
  onGranule : granule index ∣ state.placement.sectionAddress index
  moved : ∀ rel ∈ sec.relocations, rel.rawType = .align →
    state'.placement.sectionAddress index ≡ state.placement.sectionAddress index
      [MOD asU64 rel.addend + granule index]
  undisturbed : state.scans index sec = true →
    sec.Undisturbed (granule index) state.placement index

instance (state state' : RelaxationState) (index : ℕ) (sec : LoadedSection) :
    Decidable (Keeps granule state state' index sec) :=
  decidable_of_iff (_ ∧ _ ∧ _ ∧ _)
    ⟨fun h => ⟨h.1, h.2.1, h.2.2.1, h.2.2.2⟩,
      fun h => ⟨h.placed, h.onGranule, h.moved, h.undisturbed⟩⟩

def KeepsAlignment (state state' : RelaxationState) : Prop :=
  state.ForSections (Keeps granule state state')

/-- What holds of a section before a pass. -/
structure Ready (state : RelaxationState) (index : ℕ) (sec : LoadedSection) : Prop where
  wellFormed : sec.WellFormed (granule index)
  sound : sec.Sound
  granular : ∀ entry ∈ sec.raw, granule index ∣ entry.2
  aligned : state.rescanSections ≠ none ∨ sec.relaxDeltas ≠ none →
    sec.CodeAligned (granule index) state.placement index

variable {granule} {state state' : RelaxationState}

variable {index : ℕ}

theorem getElem?_sectionsAfter {sec' : LoadedSection}
    (h : state.sectionsAfter[index]? = some sec') :
    ∃ sec, state.sections[index]? = some sec ∧ sec' = (state.scanSection index sec).1 := by
  rw [sectionsAfter, scanned, List.getElem?_map, List.getElem?_mapIdx, Option.map_map] at h
  obtain ⟨sec, hsec, heq⟩ := Option.map_eq_some_iff.1 h
  exact ⟨sec, hsec, heq.symm⟩

theorem scanSection_isExecutable (state : RelaxationState) (index : ℕ) (sec : LoadedSection) :
    (state.scanSection index sec).1.isExecutable = sec.isExecutable := by
  unfold scanSection
  split
  · exact LoadedSection.scan_isExecutable _ _
  · rfl

theorem sound_sectionsAfter (h : state.ForSections fun _ sec =>
      sec.relocations.Pairwise Relocation.Before ∧ sec.Sound)
    (hafter : state'.sections = state.sectionsAfter) :
    state'.ForSections fun _ sec => sec.relocations.Pairwise Relocation.Before ∧ sec.Sound := by
  intro index sec' hsec' hexec
  rw [hafter] at hsec'
  obtain ⟨sec, hsec, rfl⟩ := getElem?_sectionsAfter hsec'
  rw [scanSection_isExecutable] at hexec
  obtain ⟨hordered, hsound⟩ := h index sec hsec hexec
  unfold scanSection
  split
  · exact ⟨by rw [LoadedSection.scan_relocations]; exact hordered, hsound.scan hordered _ _⟩
  · exact ⟨hordered, hsound⟩

theorem ready_sectionsAfter (h : state.ForSections (Ready granule state))
    (hkeeps : KeepsAlignment granule state state')
    (hafter : state'.sections = state.sectionsAfter) :
    state'.ForSections fun index sec => Ready granule state' index sec ∧
      sec.CodeAligned (granule index) state'.placement index := by
  intro index sec' hsec' hexec
  rw [hafter] at hsec'
  obtain ⟨sec, hsec, rfl⟩ := getElem?_sectionsAfter hsec'
  rw [scanSection_isExecutable] at hexec
  have hready := h index sec hsec hexec
  have hkeep := hkeeps index sec hsec hexec
  have hunchanged : state.rescanSections ≠ none →
      Ready granule state' index sec ∧ sec.CodeAligned (granule index) state'.placement index := by
    intro hrescan
    have haligned := (hready.aligned (.inl hrescan)).move hkeep.moved
    exact ⟨⟨hready.wellFormed, hready.sound, hready.granular, fun _ => haligned⟩, haligned⟩
  unfold scanSection
  split
  case isFalse hscans =>
    refine hunchanged fun hnone => hscans ?_
    simp [scans, hnone, hexec]
  case isTrue hscans =>
    by_cases haddr : state.placement.sectionAddress index = 0
    · have hsame : (sec.scan state.placement index).1 = sec := by
        rw [LoadedSection.scan, if_pos haddr]
      rw [hsame]
      exact hunchanged fun hnone => hkeep.placed hnone haddr
    · obtain ⟨hgranular, haligned⟩ := LoadedSection.codeAligned_scan hready.wellFormed
        hready.sound hready.granular hkeep.onGranule (hkeep.undisturbed hscans) haddr
        (fun hsome => hready.aligned (.inr hsome))
      have haligned' : (sec.scan state.placement index).1.CodeAligned (granule index)
          state'.placement index := haligned.move (by
        rw [LoadedSection.scan_relocations]
        exact hkeep.moved)
      exact ⟨⟨hready.wellFormed.scan _ _, hready.sound.scan hready.wellFormed.ordered _ _,
        hgranular, fun _ => haligned'⟩, haligned'⟩

variable {layout : List ℕ → Placement}

/-- The invariant of a run, and what each step gives. -/
theorem forall_relaxationPasses
    {R : RelaxationState → RelaxationState → Prop} {P Q : RelaxationState → Prop}
    (hstep : ∀ state state', P state → R state state' →
      state'.sections = state.sectionsAfter → P state' ∧ Q state')
    (iterations : ℕ) (state : RelaxationState) (h : P state)
    (hchain : (state :: relaxationPasses layout iterations state).IsChain R) :
    ∀ state' ∈ relaxationPasses layout iterations state, Q state' := by
  induction iterations generalizing state with
  | zero => simp [relaxationPasses]
  | succ iterations ih =>
    unfold relaxationPasses at hchain ⊢
    split
    case isTrue => simp
    case isFalse hrescan =>
      rw [if_neg hrescan] at hchain
      split
      case isTrue hdel =>
        rw [if_pos hdel] at hchain
        intro state' hstate'
        rw [List.mem_singleton.1 hstate']
        exact (hstep state _ h (List.isChain_cons_cons.1 hchain).1 rfl).2
      case isFalse hdel =>
        rw [if_neg hdel] at hchain
        obtain ⟨hfirst, hrest⟩ := List.isChain_cons_cons.1 hchain
        obtain ⟨hnext, hreached⟩ := hstep state (state.relayout layout) h hfirst rfl
        intro state' hstate'
        rcases List.mem_cons.1 hstate' with rfl | hstate'
        · exact hreached
        · exact ih _ hnext hrest state' hstate'

theorem sound_initial {sections : List LoadedSection}
    {sec : LoadedSection} (hsec : (initial layout sections).sections[index]? = some sec) :
    sec.relaxDeltas = none ∧ sec.Sound ∧
      ∃ input, sections[index]? = some input ∧ sec.relocations = input.relocations ∧
        sec.isExecutable = input.isExecutable := by
  rw [initial, List.getElem?_map] at hsec
  obtain ⟨input, hinput, rfl⟩ := Option.map_eq_some_iff.1 hsec
  refine ⟨rfl, ⟨?_, ?_⟩, input, hinput, rfl, rfl⟩
  · exact List.Pairwise.nil
  · simp [LoadedSection.raw]

end RelaxationState

/-- The sections come from an assembler. -/
def WellFormedSections (granule : ℕ → ℕ) (sections : List LoadedSection) : Prop :=
  ∀ (index : ℕ) (sec : LoadedSection), sections[index]? = some sec → sec.isExecutable = true →
    sec.WellFormed (granule index)

/-- In every state that relaxation reaches, nothing but padding is removed at
an alignment; and if every pass leaves alone what it has to, the code after
every alignment is aligned in every state reached. -/
theorem relaxation_keeps_alignment (layout : List ℕ → Placement) (granule : ℕ → ℕ)
    (sections : List LoadedSection) (hwf : WellFormedSections granule sections) :
    (∀ state ∈ performIterativeRelaxation layout sections,
      state.ForSections fun _ sec => sec.PaddingOnly) ∧
    ((RelaxationState.initial layout sections ::
        performIterativeRelaxation layout sections).IsChain
        (RelaxationState.KeepsAlignment granule) →
      ∀ state ∈ performIterativeRelaxation layout sections,
        state.ForSections fun index sec =>
          sec.CodeAligned (granule index) state.placement index) := by
  constructor
  · have hchain : (RelaxationState.initial layout sections ::
        performIterativeRelaxation layout sections).IsChain fun _ _ => True :=
      (List.pairwise_of_forall fun _ _ => trivial).isChain
    have hsound := RelaxationState.forall_relaxationPasses
      (fun state state' h _ hafter =>
        ⟨RelaxationState.sound_sectionsAfter h hafter,
          RelaxationState.sound_sectionsAfter h hafter⟩)
      maxRelaxationIterations (RelaxationState.initial layout sections) (by
        intro index sec hsec hexec
        obtain ⟨-, hsound, input, hinput, hrels, hexecutable⟩ :=
          RelaxationState.sound_initial hsec
        rw [hrels]
        exact ⟨(hwf index input hinput (hexecutable ▸ hexec)).ordered, hsound⟩) hchain
    intro state hstate index sec hsec hexec
    obtain ⟨hordered, hsound⟩ := hsound state hstate index sec hsec hexec
    exact hsound.paddingOnly hordered
  · intro hchain
    have hready : (RelaxationState.initial layout sections).ForSections
        (RelaxationState.Ready granule (RelaxationState.initial layout sections)) := by
      intro index sec hsec hexec
      obtain ⟨hnone, hsound, input, hinput, hrels, hexecutable⟩ :=
        RelaxationState.sound_initial hsec
      have hwf' := hwf index input hinput (hexecutable ▸ hexec)
      refine ⟨⟨hwf'.granule_eq, ?_, ?_⟩, hsound, ?_, ?_⟩
      · rw [hrels]
        exact hwf'.ordered
      · rw [hrels]
        exact hwf'.alignment
      · simp [LoadedSection.raw, hnone]
      · rintro (hrescan | hsome)
        · exact absurd rfl hrescan
        · exact absurd hnone hsome
    refine RelaxationState.forall_relaxationPasses
      (P := fun state => state.ForSections (RelaxationState.Ready granule state))
      ?_ maxRelaxationIterations _ hready hchain
    intro state state' h hkeeps hafter
    have hnext := RelaxationState.ready_sectionsAfter h hkeeps hafter
    exact ⟨fun index sec hsec hexec => (hnext index sec hsec hexec).1,
      fun index sec hsec hexec => (hnext index sec hsec hexec).2⟩

/-- A call, an alignment to eight bytes and a second call that comes into
reach once the first is short. -/
def twoCalls : LoadedSection where
  relocations := [⟨.call, 0, some 0, 0⟩, ⟨.relax, 0, none, 0⟩, ⟨.align, 8, none, 6⟩,
    ⟨.call, 16, some 1, 0⟩, ⟨.relax, 16, none, 0⟩]
  bytes := List.replicate 24 0
  isExecutable := true
  capacity size := size
  size := 24
  relaxDeltas := none

/-- The second target is at the end of a gap after the section. -/
def beforeGap (sizes : List ℕ) : Placement where
  sectionAddress _ := 0x1000
  resolveSymbol _ symIdx :=
    some ⟨if symIdx = 0 then 0x1100 else 0x101010 + sizes.sum - 20, false⟩

theorem relaxation_keeps_alignment_twoCalls :
    (RelaxationState.initial beforeGap [twoCalls] ::
        performIterativeRelaxation beforeGap [twoCalls]).IsChain
        (RelaxationState.KeepsAlignment fun _ => 2) ∧
      ∀ state ∈ performIterativeRelaxation beforeGap [twoCalls],
        state.ForSections fun index sec => sec.CodeAligned 2 state.placement index := by
  have hwf : WellFormedSections (fun _ => 2) [twoCalls] := by
    intro index sec hsec _
    match index with
    | 0 =>
      cases hsec
      refine ⟨.inl rfl, by decide, ?_⟩
      intro rel hrel htype
      have halign : rel = ⟨.align, 8, none, 6⟩ := by
        simp only [twoCalls, List.mem_cons, List.not_mem_nil, or_false] at hrel
        rcases hrel with rfl | rfl | rfl | rfl | rfl <;> first | rfl | cases htype
      rw [halign]
      exact ⟨⟨3, by decide⟩, by decide⟩
    | index + 1 => cases hsec
  have hchain : (RelaxationState.initial beforeGap [twoCalls] ::
      performIterativeRelaxation beforeGap [twoCalls]).IsChain
      (RelaxationState.KeepsAlignment fun _ => 2) := by
    have hkeeps : ∀ state state' : RelaxationState, ∀ sec, state.sections = [sec] →
        RelaxationState.Keeps (fun _ => 2) state state' 0 sec →
        RelaxationState.KeepsAlignment (fun _ => 2) state state' := by
      intro state state' sec hsecs hkeep index sec' hsec' _
      rw [hsecs] at hsec'
      match index with
      | 0 =>
        cases hsec'
        exact hkeep
      | index + 1 => cases hsec'
    refine List.IsChain.cons_cons (hkeeps _ _ _ rfl (by decide)) ?_
    exact List.IsChain.cons_cons (hkeeps _ _ _ rfl (by decide)) (List.IsChain.singleton _)
  exact ⟨hchain, (relaxation_keeps_alignment beforeGap (fun _ => 2) [twoCalls] hwf).2 hchain⟩

/-! ## Padding for four bytes, taken for padding for two -/

/-- `c.nop`, the two bytes of padding of an alignment to four, and code. -/
def fourByteAligned : LoadedSection where
  relocations := [⟨.align, 2, none, 2⟩]
  bytes := [0x01, 0x00, 0x01, 0x00, 0x13, 0x00, 0x00, 0x00]
  isExecutable := true
  capacity size := size
  size := 8
  relaxDeltas := none

def textAt (address : ℕ) : Placement := ⟨fun _ => address, fun _ _ => none⟩

/-- The code after the padding ends up two bytes off. -/
theorem power_of_two_addend_is_misread :
    ¬ ∀ (layout : List ℕ → Placement) (granule : ℕ → ℕ) (sections : List LoadedSection),
      WellFormedSections granule sections →
        ∀ state ∈ (performIterativeRelaxation layout sections).getLast?,
          state.ForSections fun index sec =>
            sec.CodeAligned (granule index) state.placement index ∧ sec.PaddingOnly := by
  intro h
  have hwf : WellFormedSections (fun _ => 2) [fourByteAligned] := by
    intro index sec hsec _
    match index with
    | 0 =>
      cases hsec
      refine ⟨.inl rfl, by decide, ?_⟩
      intro rel hrel _
      rw [List.mem_singleton.1 hrel]
      exact ⟨⟨2, by decide⟩, by decide⟩
    | index + 1 => cases hsec
  have hlast := h (fun _ => textAt 0x1000) (fun _ => 2) [fourByteAligned] hwf
  have hmem := hlast _ rfl 0 _ rfl rfl
  have := hmem.1 ⟨.align, 2, none, 2⟩ (by decide) rfl
  revert this
  decide

end Sld.Layout
