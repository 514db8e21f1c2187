/-
# `Layout.RelaxRescans` — which sections need not be scanned again

After a pass only those sections are scanned again of which some candidate
is no further from its range than the pass deleted bytes.  A section that is
left out would have nothing to shorten in the next pass if

    no call came closer to its target than that, and none was just short of
      the lower end of the range by it;
    no `lui` got another upper part, and no alignment a surplus;
    a section that was left out before has no candidate within reach either.

    candidate            what a scan makes of two relocations in a row
    LeftOut              the conditions, for one section
    scan_of_leftOut      such a section has nothing to shorten
    relaxation_scans_enough   a run that leaves out only such sections deletes
                         what scans of all sections would delete
-/
import Sld.Layout.RelaxAlignment

namespace Sld.Layout

open Bool (not_eq_true)
open SectionRelaxDeltas (hasDeltaAt_iff new raw_new)

/-! ## Candidates -/

namespace ScanInput

variable (input : ScanInput)

/-- The call that a relocation leaves for the next one. -/
def callOf (rel : Relocation) : Option (ℕ × ℕ) :=
  match rel.rawType with
  | .call | .callPlt => rel.symbol.map fun symIdx => (rel.offset, symIdx)
  | _ => none

/-- The `lui` that a relocation leaves for the next one. -/
def hi20Of (rel : Relocation) : Option (ℕ × ℕ × ℤ) :=
  match rel.rawType with
  | .hi20 => rel.symbol.map fun symIdx => (rel.offset, symIdx, rel.addend)
  | _ => none

/-- What an `R_RISCV_RELAX` comes to after another relocation. -/
def candidate (rel next : Relocation) : Candidate :=
  input.relaxPrevious (callOf rel) (hi20Of rel) next.offset

theorem scanRelocations_append (walked : List Relocation) (rel : Relocation) :
    input.scanRelocations (walked ++ [rel]) =
      input.scanRelocation (input.scanRelocations walked) rel := by
  rw [scanRelocations, List.foldl_append]
  rfl

theorem prev_scanRelocation (scan : Scan) (rel : Relocation) :
    (input.scanRelocation scan rel).prevCall = callOf rel ∧
      (input.scanRelocation scan rel).prevHi20 = hi20Of rel := by
  unfold scanRelocation callOf hi20Of
  cases rel.rawType <;> exact ⟨rfl, rfl⟩

/-! ## What a scan keeps -/

/-- Deletions stay, and margins only get smaller. -/
structure Extends (scan scan' : Scan) : Prop where
  deltas : scan.rawDeltas ⊆ scan'.rawDeltas
  margin : ∀ margin, scan.minUnrelaxedMargin = some margin →
    ∃ margin' ≤ margin, scan'.minUnrelaxedMargin = some margin'

theorem Extends.refl (scan : Scan) : Extends scan scan :=
  ⟨List.Subset.refl _, fun margin h => ⟨margin, Nat.le_refl _, h⟩⟩

theorem Extends.trans {scan scan' scan'' : Scan} (h : Extends scan scan')
    (h' : Extends scan' scan'') : Extends scan scan'' where
  deltas := List.Subset.trans h.deltas h'.deltas
  margin margin hmargin := by
    obtain ⟨margin', hle, hmargin'⟩ := h.margin margin hmargin
    obtain ⟨margin'', hle', hmargin''⟩ := h'.margin margin' hmargin'
    exact ⟨margin'', hle'.trans hle, hmargin''⟩

theorem extends_push (scan : Scan) (delta : Option (ℕ × ℕ)) : Extends scan (push scan delta) := by
  cases delta with
  | none => exact .refl scan
  | some entry =>
    exact ⟨List.subset_append_left _ _, fun margin h => ⟨margin, Nat.le_refl _, h⟩⟩

theorem extends_lowerMargin (scan : Scan) (margin : Option ℕ) :
    Extends scan (lowerMargin scan margin) := by
  cases margin with
  | none => exact .refl scan
  | some margin =>
    refine ⟨List.Subset.refl _, fun old h => ⟨min old margin, Nat.min_le_left _ _, ?_⟩⟩
    simp [lowerMargin, h]

theorem extends_forget (scan : Scan) : Extends scan (Scan.forget scan) :=
  ⟨List.Subset.refl _, fun margin h => ⟨margin, Nat.le_refl _, h⟩⟩

theorem extends_scanRelocation (scan : Scan) (rel : Relocation) :
    Extends scan (input.scanRelocation scan rel) := by
  have hsame (call : Option (ℕ × ℕ)) (hi20 : Option (ℕ × ℕ × ℤ)) :
      Extends scan { scan with prevCall := call, prevHi20 := hi20 } :=
    ⟨List.Subset.refl _, fun margin h => ⟨margin, Nat.le_refl _, h⟩⟩
  unfold scanRelocation
  cases rel.rawType with
  | align => exact (extends_push _ _).trans (extends_forget _)
  | call => exact hsame _ _
  | callPlt => exact hsame _ _
  | hi20 => exact hsame _ _
  | relax => exact ((extends_push _ _).trans (extends_lowerMargin _ _)).trans (extends_forget _)
  | other => exact extends_forget _

theorem extends_scanRelocations (walked after : List Relocation) :
    Extends (input.scanRelocations walked) (input.scanRelocations (walked ++ after)) := by
  induction after using List.reverseRecOn with
  | nil =>
    rw [List.append_nil]
    exact .refl _
  | append_singleton after rel ih =>
    rw [← List.append_assoc, scanRelocations_append]
    exact ih.trans (input.extends_scanRelocation _ rel)

variable {relocations : List Relocation}

theorem scan_of_candidate {rel next : Relocation}
    (h : [rel, next] <:+: relocations) (hrelax : next.rawType = .relax) :
    (∀ entry, (input.candidate rel next).delta = some entry →
        entry ∈ (input.collectRelaxationDeltas relocations).1) ∧
      ∀ margin, (input.candidate rel next).margin = some margin →
        ∃ least ≤ margin, (input.collectRelaxationDeltas relocations).2 = some least := by
  obtain ⟨before, after, rfl⟩ := h
  have hsplit : before ++ [rel, next] = before ++ [rel] ++ [next] := by simp
  have hextends := input.extends_scanRelocations (before ++ [rel, next]) after
  have hprev := input.prev_scanRelocation (input.scanRelocations before) rel
  rw [← scanRelocations_append] at hprev
  have hnext : input.scanRelocations (before ++ [rel, next]) =
      Scan.forget (lowerMargin (push (input.scanRelocations (before ++ [rel]))
        (input.candidate rel next).delta) (input.candidate rel next).margin) := by
    rw [hsplit, scanRelocations_append, scanRelocation, hrelax, hprev.1, hprev.2]
    rfl
  constructor
  · intro entry hentry
    refine hextends.deltas ?_
    rw [hnext, hentry]
    refine ((extends_lowerMargin _ _).trans (extends_forget _)).deltas ?_
    exact List.mem_append_right _ (List.mem_singleton_self entry)
  · intro margin hmargin
    rw [hmargin] at hnext
    have hlow : ∃ least ≤ margin, (input.scanRelocations
        (before ++ [rel, next])).minUnrelaxedMargin = some least := by
      rw [hnext]
      show ∃ least ≤ margin, some _ = some least
      refine ⟨_, ?_, rfl⟩
      cases (push (input.scanRelocations (before ++ [rel]))
          (input.candidate rel next).delta).minUnrelaxedMargin with
      | none => exact Nat.le_refl _
      | some old => exact Nat.min_le_right _ _
    obtain ⟨least, hle, hleast⟩ := hlow
    obtain ⟨least', hle', hleast'⟩ := hextends.margin least hleast
    exact ⟨least', hle'.trans hle, hleast'⟩

theorem collect_eq_nil
    (hcandidates : ∀ rel next, [rel, next] <:+: relocations → next.rawType = .relax →
      (input.candidate rel next).delta = none)
    (haligns : ∀ rel ∈ relocations, rel.rawType = .align → input.align 0 rel = none) :
    (input.collectRelaxationDeltas relocations).1 = [] := by
  have hnone : (input.scanRelocations relocations).rawDeltas = [] ∧
      (input.scanRelocations relocations).newCumulativeDelta = 0 := by
    induction relocations using List.reverseRecOn with
    | nil => exact ⟨rfl, rfl⟩
    | append_singleton walked rel ih =>
      obtain ⟨hdeltas, htotal⟩ := ih
        (fun rel next h => hcandidates rel next (h.trans (List.prefix_append _ _).isInfix))
        (fun rel h => haligns rel (List.mem_append_left _ h))
      rw [scanRelocations_append]
      unfold scanRelocation
      cases hraw : rel.rawType with
      | align =>
        have halign := haligns rel (List.mem_append_right _ (List.mem_singleton_self rel)) hraw
        simp only [htotal, halign]
        exact ⟨hdeltas, htotal⟩
      | relax =>
        have hdelta : (input.relaxPrevious (input.scanRelocations walked).prevCall
            (input.scanRelocations walked).prevHi20 rel.offset).delta = none := by
          rcases List.eq_nil_or_concat walked with rfl | ⟨before, last, rfl⟩
          · rfl
          · rw [List.concat_eq_append] at hcandidates ⊢
            have hprev := input.prev_scanRelocation (input.scanRelocations before) last
            rw [← scanRelocations_append] at hprev
            rw [hprev.1, hprev.2]
            refine hcandidates last rel ⟨before, [], ?_⟩ hraw
            simp
        simp only [hdelta]
        refine ⟨?_, ?_⟩
        · cases (input.relaxPrevious (input.scanRelocations walked).prevCall
            (input.scanRelocations walked).prevHi20 rel.offset).margin <;> exact hdeltas
        · cases (input.relaxPrevious (input.scanRelocations walked).prevCall
            (input.scanRelocations walked).prevHi20 rel.offset).margin <;> exact htotal
      | _ => exact ⟨hdeltas, htotal⟩
  exact hnone.1

end ScanInput

/-! ## Sections that are left out -/

theorem distanceFitsJal_iff {distance : ℤ} :
    distanceFitsJal distance = true ↔ -0x100000 ≤ distance ∧ distance ≤ 0xfffff := by
  simp only [distanceFitsJal, Bool.and_eq_true, decide_eq_true_eq]

namespace ScanInput

variable (input : ScanInput)

variable {callOffset symIdx : ℕ} {entry : ℕ × ℕ}

theorem relaxCall_fits (h : (input.relaxCall callOffset symIdx).delta = some entry) :
    ∃ outputAddress, input.resolveSymbol symIdx = some ⟨outputAddress, false⟩ ∧
      distanceFitsJal (input.callDistance callOffset outputAddress) = true := by
  unfold relaxCall at h
  split at h
  · rename_i outputAddress hresolve
    split at h
    · rename_i hfits
      exact ⟨outputAddress, hresolve, hfits⟩
    · cases h
  · cases h

variable {outputAddress : ℕ}

theorem relaxCall_of_fits (hresolve : input.resolveSymbol symIdx = some ⟨outputAddress, false⟩)
    (hfits : distanceFitsJal (input.callDistance callOffset outputAddress) = true) :
    (input.relaxCall callOffset symIdx).delta = some (callOffset + 4, 4) := by
  rw [relaxCall, hresolve]
  dsimp only
  rw [if_pos hfits]

theorem relaxCall_of_not_fits (hresolve : input.resolveSymbol symIdx = some ⟨outputAddress, false⟩)
    (hfits : distanceFitsJal (input.callDistance callOffset outputAddress) = false) :
    (input.relaxCall callOffset symIdx).margin =
      some ((input.callDistance callOffset outputAddress).natAbs - 0xfffff) := by
  rw [relaxCall, hresolve]
  dsimp only
  rw [if_neg (not_eq_true _ ▸ hfits)]

variable {addend : ℤ} {hi20Offset : ℕ}

theorem relaxHi20_resolves (h : (input.relaxHi20 hi20Offset symIdx addend).delta = some entry) :
    ∃ outputAddress, input.resolveSymbol symIdx = some ⟨outputAddress, false⟩ := by
  unfold relaxHi20 at h
  split at h
  · rename_i outputAddress hresolve
    exact ⟨outputAddress, hresolve⟩
  · cases h

theorem relaxHi20_congr {input input' : ScanInput} {outputAddress' : ℕ}
    (hresolve : input.resolveSymbol symIdx = some ⟨outputAddress, false⟩)
    (hresolve' : input'.resolveSymbol symIdx = some ⟨outputAddress', false⟩)
    (hbytes : input.sectionBytes = input'.sectionBytes)
    (hhi20 : hi20 (hi20Value outputAddress addend) = hi20 (hi20Value outputAddress' addend)) :
    (input.relaxHi20 hi20Offset symIdx addend).delta =
      (input'.relaxHi20 hi20Offset symIdx addend).delta := by
  have hzero : hi20IsZero (hi20Value outputAddress addend) =
      hi20IsZero (hi20Value outputAddress' addend) := by
    rw [hi20IsZero, hi20IsZero, hhi20]
  have hclui : hi20FitsClui (hi20Value outputAddress addend) =
      hi20FitsClui (hi20Value outputAddress' addend) := by
    rw [hi20FitsClui, hi20FitsClui, hhi20]
  have hrd : input.luiRd hi20Offset = input'.luiRd hi20Offset := by
    rw [luiRd, luiRd, luiWord, luiWord, hbytes]
  rw [relaxHi20, relaxHi20, hresolve, hresolve']
  dsimp only
  rw [hbytes, hzero, hclui, hrd]
  split
  · split
    · rfl
    · split
      · split <;> rfl
      · rfl
  · rfl

variable {rel : Relocation}

theorem offset_of_callOf
    (h : callOf rel = some (callOffset, symIdx)) : callOffset = rel.offset := by
  unfold callOf at h
  split at h
  · obtain ⟨_, _, heq⟩ := Option.map_eq_some_iff.mp h
    exact (Prod.mk.inj heq).1.symm
  · obtain ⟨_, _, heq⟩ := Option.map_eq_some_iff.mp h
    exact (Prod.mk.inj heq).1.symm
  · cases h

theorem offset_of_hi20Of (h : hi20Of rel = some (hi20Offset, symIdx, addend)) :
    hi20Offset = rel.offset ∧ addend = rel.addend := by
  unfold hi20Of at h
  split at h
  · obtain ⟨_, _, heq⟩ := Option.map_eq_some_iff.mp h
    obtain ⟨hoff, heq⟩ := Prod.mk.inj heq
    exact ⟨hoff.symm, (Prod.mk.inj heq).2.symm⟩
  · cases h

theorem candidate_call {next : Relocation}
    (hcall : callOf rel = some (rel.offset, symIdx)) (hoff : next.offset = rel.offset)
    (hold : input.hasDeltaAt (rel.offset + 4) = false) :
    input.candidate rel next = input.relaxCall rel.offset symIdx := by
  rw [candidate, hcall]
  simp only [relaxPrevious]
  rw [if_pos ⟨hoff, by rw [hold]; rfl⟩]

theorem candidate_hi20 {next : Relocation}
    (hhi20 : hi20Of rel = some (rel.offset, symIdx, addend)) (hoff : next.offset = rel.offset)
    (hold : input.hasDeltaAt rel.offset = false)
    (hold' : input.hasDeltaAt (rel.offset + 2) = false) :
    input.candidate rel next = input.relaxHi20 rel.offset symIdx addend := by
  have hcall : callOf rel = none := by
    unfold hi20Of at hhi20
    unfold callOf
    split at hhi20
    · rename_i hraw
      rw [hraw]
    · cases hhi20
  rw [candidate, hcall, hhi20]
  simp only [relaxPrevious]
  rw [if_pos ⟨hoff, by rw [hold]; rfl, by rw [hold']; rfl⟩]

end ScanInput

namespace LoadedSection

variable (sec : LoadedSection) (placement placement' : Placement) (index : ℕ)

/-- Two relocations in a row, the second of which allows the first to be relaxed. -/
def Pairs (rel next : Relocation) : Prop :=
  [rel, next] <:+: sec.relocations ∧ next.rawType = .relax ∧ next.offset = rel.offset

/-- What the layout after a pass has to keep of a section that is not
scanned again, of which `deleted` bytes is what the pass deleted. -/
structure LeftOut (deleted : ℕ) (scanned : Bool) : Prop where
  placed : placement'.sectionAddress index = 0 ∨ placement.sectionAddress index ≠ 0
  farBefore : scanned = false → ∀ margin, (sec.scan placement index).2.2 = some margin →
    deleted < margin
  calls : ∀ rel next symIdx outputAddress', sec.Pairs rel next →
    ScanInput.callOf rel = some (rel.offset, symIdx) →
    placement'.resolveSymbol index symIdx = some ⟨outputAddress', false⟩ →
    ∃ outputAddress, placement.resolveSymbol index symIdx = some ⟨outputAddress, false⟩ ∧
      ((sec.scanInput placement' index).callDistance rel.offset outputAddress' -
        (sec.scanInput placement index).callDistance rel.offset outputAddress).natAbs ≤ deleted ∧
      (sec.scanInput placement index).callDistance rel.offset outputAddress + deleted ≠ -0x100000
  luis : ∀ rel next symIdx outputAddress', sec.Pairs rel next →
    ScanInput.hi20Of rel = some (rel.offset, symIdx, rel.addend) →
    placement'.resolveSymbol index symIdx = some ⟨outputAddress', false⟩ →
    ∃ outputAddress, placement.resolveSymbol index symIdx = some ⟨outputAddress, false⟩ ∧
      hi20 (ScanInput.hi20Value outputAddress' rel.addend) =
        hi20 (ScanInput.hi20Value outputAddress rel.addend)
  aligns : ∀ rel ∈ sec.relocations, rel.rawType = .align →
    ((sec.scan placement index).1.scanInput placement' index).align 0 rel = none

theorem hasDeltaAt_scan (h : placement.sectionAddress index ≠ 0) (offset : ℕ) :
    ((sec.scan placement index).1.scanInput placement' index).hasDeltaAt offset = true ↔
      (sec.scanInput placement index).hasDeltaAt offset = true ∨ ∃ bytes, (offset, bytes) ∈
          ((sec.scanInput placement index).collectRelaxationDeltas sec.relocations).1 := by
  have hadd (rawDeltas : List (ℕ × ℕ)) :
      ((sec.addDeltas rawDeltas).scanInput placement' index).hasDeltaAt offset = true ↔
        (sec.scanInput placement index).hasDeltaAt offset = true ∨
          ∃ bytes, (offset, bytes) ∈ rawDeltas := by
    cases hdeltas : sec.relaxDeltas with
    | none =>
      have hbefore : (sec.scanInput placement index).hasDeltaAt offset = false := by
        rw [ScanInput.hasDeltaAt, scanInput, hdeltas]
        rfl
      have hafter : ((sec.addDeltas rawDeltas).scanInput placement' index).hasDeltaAt offset =
          (new rawDeltas).hasDeltaAt offset := by
        rw [ScanInput.hasDeltaAt, scanInput, addDeltas, hdeltas]
        rfl
      rw [hbefore, hafter, hasDeltaAt_iff, raw_new]
      simp
    | some existing =>
      have hbefore : (sec.scanInput placement index).hasDeltaAt offset =
          existing.hasDeltaAt offset := by
        rw [ScanInput.hasDeltaAt, scanInput, hdeltas]
        rfl
      have hafter : ((sec.addDeltas rawDeltas).scanInput placement' index).hasDeltaAt offset =
          (existing.mergeAdditional rawDeltas).hasDeltaAt offset := by
        rw [ScanInput.hasDeltaAt, scanInput, addDeltas, hdeltas]
        rfl
      rw [hbefore, hafter, hasDeltaAt_iff, hasDeltaAt_iff]
      simp only [(SectionRelaxDeltas.perm_mergeAdditional existing rawDeltas).mem_iff,
        List.mem_append]
      exact exists_or
  rw [scan, if_neg h]
  dsimp only
  split
  · rename_i hnil
    rw [hnil]
    simp only [List.not_mem_nil, exists_false, or_false]
    rfl
  · exact hadd _

theorem scan_fst_relocations : (sec.scan placement index).1.relocations = sec.relocations ∧
    (sec.scan placement index).1.bytes = sec.bytes ∧
    (sec.scan placement index).1.isExecutable = sec.isExecutable := by
  unfold scan
  split
  · exact ⟨rfl, rfl, rfl⟩
  · dsimp only
    split <;> exact ⟨rfl, rfl, rfl⟩

theorem scan_margin (h : placement.sectionAddress index ≠ 0) : (sec.scan placement index).2.2 =
      ((sec.scanInput placement index).collectRelaxationDeltas sec.relocations).2 := by
  rw [scan, if_neg h]
  dsimp only
  split <;> rfl

theorem scan_of_nil (h : placement.sectionAddress index ≠ 0 →
    ((sec.scanInput placement index).collectRelaxationDeltas sec.relocations).1 = []) :
    (sec.scan placement index).1 = sec ∧ (sec.scan placement index).2.1 = 0 := by
  unfold scan
  split
  · exact ⟨rfl, rfl⟩
  · rename_i hplaced
    dsimp only
    rw [h hplaced]
    exact ⟨rfl, rfl⟩

variable {sec placement placement' index}

variable {deleted symIdx : ℕ} {scanned : Bool}

section

variable (h : sec.LeftOut placement placement' index deleted scanned)

include h

theorem LeftOut.call_none
    (hmargin : ∀ margin, (sec.scan placement index).2.2 = some margin → deleted < margin)
    (hplaced : placement.sectionAddress index ≠ 0) {rel next : Relocation}
    (hpair : sec.Pairs rel next) (hcall : ScanInput.callOf rel = some (rel.offset, symIdx))
    (hnew : ((sec.scan placement index).1.scanInput placement' index).hasDeltaAt
      (rel.offset + 4) = false)
    (entry : ℕ × ℕ) :
    (((sec.scan placement index).1.scanInput placement' index).relaxCall rel.offset
      symIdx).delta ≠ some entry := by
  intro hentry
  obtain ⟨outputAddress', hresolve', hfits'⟩ := ScanInput.relaxCall_fits _ hentry
  obtain ⟨outputAddress, hresolve, hmoved, hshort⟩ :=
    h.calls rel next symIdx outputAddress' hpair hcall hresolve'
  have hold : (sec.scanInput placement index).hasDeltaAt (rel.offset + 4) = false := by
    rw [← not_eq_true] at hnew ⊢
    exact fun hold => hnew ((sec.hasDeltaAt_scan placement placement' index hplaced _).mpr
      (.inl hold))
  obtain ⟨hin, hrelax, hoff⟩ := hpair
  have hcandidate := ScanInput.candidate_call (sec.scanInput placement index) hcall hoff hold
  obtain ⟨hdel, hleast⟩ := (sec.scanInput placement index).scan_of_candidate hin hrelax
  rw [hcandidate] at hdel hleast
  cases hfits : distanceFitsJal ((sec.scanInput placement index).callDistance rel.offset
      outputAddress) with
  | true =>
    -- the scan would have deleted it
    have hmem := hdel (rel.offset + 4, 4) (ScanInput.relaxCall_of_fits _ hresolve hfits)
    rw [← not_eq_true] at hnew
    exact hnew ((sec.hasDeltaAt_scan placement placement' index hplaced _).mpr (.inr ⟨4, hmem⟩))
  | false =>
    obtain ⟨least, hle, hleast⟩ := hleast _ (ScanInput.relaxCall_of_not_fits _ hresolve hfits)
    rw [← sec.scan_margin placement index hplaced] at hleast
    have hfar := hmargin least hleast
    have hfits'' := distanceFitsJal_iff.mp hfits'
    have hnot := (not_eq_true _).mpr hfits
    have hsame : ((sec.scan placement index).1.scanInput placement' index).callDistance rel.offset
        outputAddress' = (sec.scanInput placement' index).callDistance rel.offset
          outputAddress' := rfl
    omega

theorem LeftOut.lui_none (hplaced : placement.sectionAddress index ≠ 0) {rel next : Relocation}
    (hpair : sec.Pairs rel next)
    (hhi20 : ScanInput.hi20Of rel = some (rel.offset, symIdx, rel.addend))
    (hnew : ∀ offset, offset = rel.offset ∨ offset = rel.offset + 2 →
      ((sec.scan placement index).1.scanInput placement' index).hasDeltaAt offset = false)
    (entry : ℕ × ℕ) :
    (((sec.scan placement index).1.scanInput placement' index).relaxHi20 rel.offset symIdx
      rel.addend).delta ≠ some entry := by
  intro hentry
  obtain ⟨outputAddress', hresolve'⟩ := ScanInput.relaxHi20_resolves _ hentry
  obtain ⟨outputAddress, hresolve, hsame⟩ :=
    h.luis rel next symIdx outputAddress' hpair hhi20 hresolve'
  have hold (offset : ℕ) (hoff : offset = rel.offset ∨ offset = rel.offset + 2) :
      (sec.scanInput placement index).hasDeltaAt offset = false := by
    have hnew := hnew offset hoff
    rw [← not_eq_true] at hnew ⊢
    exact fun hold => hnew ((sec.hasDeltaAt_scan placement placement' index hplaced _).mpr
      (.inl hold))
  obtain ⟨hin, hrelax, hoff⟩ := hpair
  have hcandidate := ScanInput.candidate_hi20 (sec.scanInput placement index) hhi20 hoff
    (hold _ (.inl rfl)) (hold _ (.inr rfl))
  obtain ⟨hdel, -⟩ := (sec.scanInput placement index).scan_of_candidate hin hrelax
  rw [hcandidate] at hdel
  -- the same upper part comes to the same deletion
  have hagain : ((sec.scanInput placement index).relaxHi20 rel.offset symIdx rel.addend).delta =
      some entry := by
    rw [← hentry]
    exact ScanInput.relaxHi20_congr hresolve hresolve'
      (sec.scan_fst_relocations placement index).2.1.symm hsame.symm
  have hmem := hdel entry hagain
  rcases ScanInput.relaxHi20_delta _ hagain with rfl | rfl
  · have hnew := hnew rel.offset (.inl rfl)
    rw [← not_eq_true] at hnew
    exact hnew ((sec.hasDeltaAt_scan placement placement' index hplaced _).mpr (.inr ⟨4, hmem⟩))
  · have hnew := hnew (rel.offset + 2) (.inr rfl)
    rw [← not_eq_true] at hnew
    exact hnew ((sec.hasDeltaAt_scan placement placement' index hplaced _).mpr (.inr ⟨2, hmem⟩))

theorem scan_of_leftOut
    (hmargin : ∀ margin, (sec.scan placement index).2.2 = some margin → deleted < margin) :
    ((sec.scan placement index).1.scan placement' index).1 = (sec.scan placement index).1 ∧
      ((sec.scan placement index).1.scan placement' index).2.1 = 0 := by
  refine scan_of_nil _ placement' index fun hplaced' => ?_
  have hplaced := h.placed.resolve_left hplaced'
  rw [(sec.scan_fst_relocations placement index).1]
  refine ScanInput.collect_eq_nil _ (fun rel next hin hrelax => ?_) h.aligns
  rw [Option.eq_none_iff_forall_not_mem]
  intro entry hentry
  rcases ScanInput.relaxPrevious_delta _ hentry with
    ⟨symIdx, hcall, hnew, hentry⟩ | ⟨symIdx, addend, hhi20, hnew, hnew', hentry⟩
  · have hoff := ScanInput.offset_of_callOf hcall
    rw [hoff] at hcall hnew hentry
    exact h.call_none hmargin hplaced ⟨hin, hrelax, hoff⟩ hcall hnew entry hentry
  · obtain ⟨hoff, rfl⟩ := ScanInput.offset_of_hi20Of hhi20
    rw [hoff] at hhi20 hnew hnew' hentry
    refine h.lui_none hplaced ⟨hin, hrelax, hoff⟩ hhi20 ?_ entry hentry
    rintro offset (rfl | rfl)
    · exact hnew
    · exact hnew'

end

end LoadedSection

/-! ## Runs -/

namespace RelaxationState

variable (layout : List ℕ → Placement) (state : RelaxationState)

/-- The same state, in which all executable sections are scanned. -/
def scanningAll : RelaxationState := { state with rescanSections := none }

/-- The states before the passes of a run. -/
inductive Reached (sections : List LoadedSection) : RelaxationState → Prop where
  | initial : Reached sections (.initial layout sections)
  | relayout {state : RelaxationState} : Reached sections state → state.deleted ≠ 0 →
      Reached sections (state.relayout layout)

/-- The next pass leaves out only sections that may be left out. -/
def LeavesOutIdle : Prop :=
  ∀ index sec, state.sections[index]? = some sec → sec.isExecutable → index ∉ state.nextRescan →
    sec.LeftOut state.placement (state.relayout layout).placement index state.deleted
      (state.scans index sec)

/-- Only executable sections are scanned, and those that are not would stay as they are. -/
structure ScansEnough : Prop where
  executable : ∀ index sec, state.sections[index]? = some sec → state.scans index sec = true →
    sec.isExecutable
  idle : ∀ index sec, state.sections[index]? = some sec → sec.isExecutable →
    state.scans index sec = false → (sec.scan state.placement index).1 = sec

variable {layout state}

theorem scanned_getElem? (index : ℕ) :
    state.scanned[index]? = state.sections[index]?.map (state.scanSection index) := by
  rw [scanned, List.getElem?_mapIdx]

theorem sectionsAfter_getElem? (index : ℕ) : state.sectionsAfter[index]? =
      state.sections[index]?.map fun sec => (state.scanSection index sec).1 := by
  rw [sectionsAfter, List.getElem?_map, scanned_getElem?, Option.map_map]
  rfl

theorem mem_nextRescan {index : ℕ} :
    index ∈ state.nextRescan ↔ ∃ sec margin, state.sections[index]? = some sec ∧
      (state.scanSection index sec).2.2 = some margin ∧ margin ≤ state.deleted := by
  rw [nextRescan, List.mem_filterMap]
  constructor
  · rintro ⟨⟨index', margin⟩, hmem, hfilter⟩
    obtain ⟨least, hleast, rfl⟩ := Option.map_eq_some_iff.mp hfilter
    obtain ⟨rfl, hle⟩ := Option.filter_eq_some_iff.mp hleast
    obtain ⟨hindex, hres⟩ := List.mem_iff_getElem?.mp hmem
    rw [List.getElem?_mapIdx, scanned_getElem?, Option.map_map] at hres
    obtain ⟨sec, hsec, heq⟩ := Option.map_eq_some_iff.mp hres
    obtain ⟨rfl, hmargin⟩ := Prod.mk.inj heq
    exact ⟨sec, least, hsec, hmargin, of_decide_eq_true hle⟩
  · rintro ⟨sec, margin, hsec, hmargin, hle⟩
    refine ⟨(index, some margin), ?_, ?_⟩
    · refine List.mem_iff_getElem?.mpr ⟨index, ?_⟩
      rw [List.getElem?_mapIdx, scanned_getElem?, hsec]
      exact congrArg (fun m => some (index, m)) hmargin
    · show (Option.filter (fun x => decide (x ≤ state.deleted)) (some margin)).map _ = some index
      simp [Option.filter, hle]

theorem scanSection_executable (index : ℕ) (sec : LoadedSection) :
    (state.scanSection index sec).1.isExecutable = sec.isExecutable := by
  rw [scanSection]
  split
  · exact (sec.scan_fst_relocations state.placement index).2.2
  · rfl

theorem ScansEnough.sectionsAfter_eq (h : state.ScansEnough) :
    state.sectionsAfter = state.scanningAll.sectionsAfter := by
  refine List.ext_getElem? fun index => ?_
  rw [sectionsAfter_getElem?, sectionsAfter_getElem?]
  show _ = state.sections[index]?.map _
  cases hsec : state.sections[index]? with
  | none => rfl
  | some sec =>
    refine congrArg some ?_
    show (if state.scans index sec then sec.scan state.placement index else (sec, 0, none)).1 =
      (if sec.isExecutable then sec.scan state.placement index else (sec, 0, none)).1
    cases hscans : state.scans index sec with
    | true => rw [if_pos rfl, if_pos (h.executable index sec hsec hscans)]
    | false =>
      rw [if_neg Bool.false_ne_true]
      split
      · rename_i hexec
        exact (h.idle index sec hsec hexec hscans).symm
      · rfl

theorem scansEnough_initial (sections : List LoadedSection) :
    (RelaxationState.initial layout sections).ScansEnough where
  executable _ _ _ hscans := hscans
  idle _ _ _ hexec hscans := absurd (hscans.symm.trans hexec) Bool.false_ne_true

theorem ScansEnough.relayout (h : state.ScansEnough) (hleft : state.LeavesOutIdle layout) :
    (state.relayout layout).ScansEnough where
  executable index sec' hsec' hscans := by
    have hmem : index ∈ state.nextRescan := List.contains_iff_mem.mp hscans
    obtain ⟨sec, margin, hsec, hmargin, -⟩ := mem_nextRescan.mp hmem
    have hafter := state.sectionsAfter_getElem? index
    rw [hsec] at hafter
    cases hsec'.symm.trans hafter
    rw [scanSection_executable]
    cases hold : state.scans index sec with
    | true => exact h.executable index sec hsec hold
    | false =>
      rw [scanSection, hold] at hmargin
      cases hmargin
  idle index sec' hsec' hexec hscans := by
    have hmem : index ∉ state.nextRescan := by
      intro hmem
      have hcontains := List.contains_iff_mem.mpr hmem
      exact Bool.false_ne_true (hscans.symm.trans hcontains)
    have hafter := state.sectionsAfter_getElem? index
    cases hsec : state.sections[index]? with
    | none =>
      rw [hsec] at hafter
      cases hsec'.symm.trans hafter
    | some sec =>
      rw [hsec] at hafter
      cases hsec'.symm.trans hafter
      rw [scanSection_executable] at hexec
      have hout := hleft index sec hsec hexec hmem
      -- scanned or not, the section is what a scan would have made of it
      have hscan : (state.scanSection index sec).1 = (sec.scan state.placement index).1 := by
        rw [scanSection]
        cases hold : state.scans index sec with
        | true => rfl
        | false => exact (h.idle index sec hsec hexec hold).symm
      have hmargin (margin : ℕ) (hmargin : (sec.scan state.placement index).2.2 = some margin) :
          state.deleted < margin := by
        cases hold : state.scans index sec with
        | false => exact hout.farBefore hold margin hmargin
        | true =>
          refine Nat.lt_of_not_le fun hle => hmem ?_
          refine mem_nextRescan.mpr ⟨sec, margin, hsec, ?_, hle⟩
          rw [scanSection, hold]
          exact hmargin
      show ((state.scanSection index sec).1.scan _ index).1 = (state.scanSection index sec).1
      rw [hscan]
      exact (LoadedSection.scan_of_leftOut hout hmargin).1

theorem reached_of_mem {sections : List LoadedSection} {iterations : ℕ}
    (hstate : Reached layout sections state) {after : RelaxationState}
    (h : after ∈ relaxationPasses layout iterations state) :
    ∃ before, Reached layout sections before ∧ after.sections = before.sectionsAfter := by
  induction iterations generalizing state with
  | zero => cases h
  | succ iterations ih =>
    rw [relaxationPasses] at h
    split at h
    · cases h
    · split at h
      · rw [List.mem_singleton.mp h]
        exact ⟨state, hstate, rfl⟩
      · rename_i hdel
        rcases List.mem_cons.mp h with rfl | h
        · exact ⟨state, hstate, rfl⟩
        · exact ih (.relayout hstate hdel) h

/-- In a run that leaves out only sections that may be left out, every pass
deletes exactly what a scan of all executable sections would delete. -/
theorem relaxation_scans_enough (layout : List ℕ → Placement) (sections : List LoadedSection)
    (h : ∀ state, Reached layout sections state → state.deleted ≠ 0 →
      state.LeavesOutIdle layout) :
    (∀ state, Reached layout sections state →
        state.sectionsAfter = state.scanningAll.sectionsAfter) ∧
      ∀ after ∈ performIterativeRelaxation layout sections, ∃ before,
        Reached layout sections before ∧
          after.sections = before.scanningAll.sectionsAfter := by
  have henough {state : RelaxationState} (hstate : Reached layout sections state) :
      state.ScansEnough := by
    induction hstate with
    | initial => exact scansEnough_initial sections
    | relayout hreached hdel ih => exact ih.relayout (h _ hreached hdel)
  refine ⟨fun state hstate => (henough hstate).sectionsAfter_eq, fun after hafter => ?_⟩
  obtain ⟨before, hbefore, hsecs⟩ := reached_of_mem .initial hafter
  exact ⟨before, hbefore, hsecs.trans (henough hbefore).sectionsAfter_eq⟩

end RelaxationState

/-! ## Examples -/

/-- Sections one after the other, from an address on, and a symbol at the start of each. -/
def packedFrom (address : ℕ) (sizes : List ℕ) : Placement where
  sectionAddress index := address + (sizes.take index).sum
  resolveSymbol _ symIdx := some ⟨address + (sizes.take symIdx).sum, false⟩

/-- A section that keeps no gaps. -/
def packedSection (relocations : List Relocation) (bytes : List UInt8) (size : ℕ) :
    LoadedSection where
  relocations := relocations
  bytes := bytes
  isExecutable := true
  capacity := id
  size := size
  relaxDeltas := none

/-- Padding in front of code, eight bytes too much, and then just enough. -/
def paddedSections : List LoadedSection :=
  [packedSection [⟨.align, 0, none, 14⟩] [] 24, packedSection [⟨.align, 0, none, 6⟩] [] 10]

theorem reached_paddedSections {state : RelaxationState}
    (h : RelaxationState.Reached (packedFrom 10) paddedSections state) :
    state = .initial (packedFrom 10) paddedSections ∨ state.deleted = 0 := by
  induction h with
  | initial => exact .inl rfl
  | relayout hreached hdel ih =>
    rcases ih with rfl | hzero
    · exact .inr (by decide +kernel)
    · exact absurd hzero hdel

theorem relaxation_scans_enough_padding :
    (∀ state, RelaxationState.Reached (packedFrom 10) paddedSections state →
        state.sectionsAfter = state.scanningAll.sectionsAfter) ∧
      ∀ after ∈ performIterativeRelaxation (packedFrom 10) paddedSections,
        ∃ before, RelaxationState.Reached (packedFrom 10) paddedSections before ∧
          after.sections = before.scanningAll.sectionsAfter := by
  refine RelaxationState.relaxation_scans_enough (packedFrom 10) paddedSections
    fun state hstate hdel => ?_
  rcases reached_paddedSections hstate with rfl | hzero
  · intro index sec hsec _ _
    have hindex : index = 0 ∨ index = 1 := by
      have hlt : index < 2 := (List.getElem?_eq_some_iff.mp hsec).1
      omega
    have hrel (rel : Relocation) (h : rel ∈ sec.relocations) : rel.rawType = .align := by
      rcases hindex with rfl | rfl <;> cases hsec <;> rw [List.mem_singleton.mp h]
    constructor
    · rcases hindex with rfl | rfl <;> exact .inr (by decide +kernel)
    · intro hscans
      rcases hindex with rfl | rfl <;> cases hsec <;> cases hscans
    · intro rel next symIdx outputAddress' hpair hcall _
      rw [ScanInput.callOf, hrel rel (hpair.1.mem List.mem_cons_self)] at hcall
      cases hcall
    · intro rel next symIdx outputAddress' hpair hhi20 _
      rw [ScanInput.hi20Of, hrel rel (hpair.1.mem List.mem_cons_self)] at hhi20
      cases hhi20
    · intro rel hmem _
      rcases hindex with rfl | rfl <;> cases hsec <;> rw [List.mem_singleton.mp hmem] <;>
        decide +kernel
  · exact absurd hzero hdel

/-- A call that is shortened by four bytes, a `lui` of the address of what
comes next, and this. -/
def luiAtPageBoundary : List LoadedSection :=
  [packedSection [⟨.call, 0, some 0, 0⟩, ⟨.relax, 0, none, 0⟩] [] 8,
    packedSection [⟨.hi20, 0, some 2, 0⟩, ⟨.relax, 0, none, 0⟩] [0x37, 0x05, 0, 0] 8,
    packedSection [] [] 4]

/-- The address falls below a page boundary, where the `lui` could be
shortened; its section is not scanned again. -/
theorem lui_is_left_out :
    ∃ state, RelaxationState.Reached (packedFrom 0x1f7f0) luiAtPageBoundary state ∧
      state.sectionsAfter ≠ state.scanningAll.sectionsAfter := by
  refine ⟨_, .relayout .initial (by decide +kernel), fun h => ?_⟩
  have hsizes := congrArg (List.map LoadedSection.size) h
  revert hsizes
  decide +kernel

end Sld.Layout
