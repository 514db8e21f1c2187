/-
# `Incremental.FdePartners` — when the frame descriptions are found

The partner of a record is the frame description of its function in the
changed object.  It is found exactly when it is where the search looks: at
the recorded place, or first of its section with nothing of the section at
the recorded place.  Where a section has several functions and the table is
shifted, the first of them stands in for each of the others.

    Change.FdesMatched        every record has its partner, and only that
    Change.Findable           the partner is where the search looks
-/
import Sld.Order.SortDedup
import Sld.Incremental.FdeMatching

namespace Sld.Incremental.Fdes


variable {F : Type}

/-! ## Entries -/

theorem le_of_mem_entriesFrom {data : List UInt8} {fuel offset : ℕ} {entry : ℕ × ℕ}
    (h : entry ∈ entriesFrom data fuel offset) : offset ≤ entry.1 := by
  induction fuel generalizing offset with
  | zero => cases h
  | succ fuel ih =>
    unfold entriesFrom at h
    split at h
    · cases h
    · simp only at h
      split at h
      · cases h
      · cases h with
        | head => exact le_rfl
        | tail _ h => exact (Nat.le_add_right _ _).trans (ih h)

theorem entriesFrom_pairwise (data : List UInt8) (fuel offset : ℕ) :
    (entriesFrom data fuel offset).Pairwise fun a b => a.1 < b.1 := by
  induction fuel generalizing offset with
  | zero => exact .nil
  | succ fuel ih =>
    unfold entriesFrom
    split
    · exact .nil
    · simp only
      split
      · exact .nil
      next hlen =>
        refine .cons (fun entry hentry => ?_) (ih _)
        have hle := le_of_mem_entriesFrom hentry
        omega

namespace EhFrame

variable (eh : EhFrame F)

theorem entries_pairwise : eh.entries.Pairwise fun a b => a.1 < b.1 := entriesFrom_pairwise _ _ _

theorem entry_eq {entry other : ℕ × ℕ} (hentry : entry ∈ eh.entries) (hother : other ∈ eh.entries)
    (h : entry.1 = other.1) : entry = other := by
  rcases Sld.pairwise_eq_or eh.entries_pairwise hentry hother with heq | hlt | hlt
  · exact heq
  · omega
  · omega

theorem IsFdeOf.entry {eh : EhFrame F} {function : F} {target offset : ℕ}
    (h : eh.IsFdeOf function target offset) : ∃ size, (offset, size) ∈ eh.entries :=
  eh.function_entry offset function h.1

theorem IsFdeOf.target_eq {eh : EhFrame F} {function : F} {target offset other : ℕ}
    (h : eh.IsFdeOf function target offset) (hother : hasTargetPcBegin eh.relas offset other) :
    other = target := by
  obtain ⟨only, honly⟩ := eh.function_target offset function h.1
  exact ((honly other).1 hother).trans ((honly target).1 h.2).symm

theorem IsFdeOf.eq {eh : EhFrame F} {function : F} {target offset target' offset' : ℕ}
    (h : eh.IsFdeOf function target offset) (h' : eh.IsFdeOf function target' offset') :
    target' = target ∧ offset' = offset := by
  obtain rfl := eh.function_injective offset offset' function h.1 h'.1
  exact ⟨h.target_eq h'.2, rfl⟩

/-- Where the search stops: at the recorded place, or at the first entry of the
section. -/
structure Stops (target inputOffset : ℕ) (place : ℕ × ℕ) : Prop where
  mem : place ∈ eh.entries
  ofTarget : hasTargetPcBegin eh.relas place.1 target
  first : place.1 = inputOffset ∨
    (∀ entry ∈ eh.entries, hasTargetPcBegin eh.relas entry.1 target →
      entry.1 ≠ inputOffset ∧ place.1 ≤ entry.1)

variable {eh}

theorem Stops.eq {target inputOffset : ℕ} {place other : ℕ × ℕ}
    (h : eh.Stops target inputOffset place) (h' : eh.Stops target inputOffset other) :
    place = other := by
  refine eh.entry_eq h.mem h'.mem ?_
  rcases h.first with hplace | hplace <;> rcases h'.first with hother | hother
  · rw [hplace, hother]
  · exact absurd hplace (hother place h.mem h.ofTarget).1
  · exact absurd hother (hplace other h'.mem h'.ofTarget).1
  · have hle := (hplace other h'.mem h'.ofTarget).2
    have hle' := (hother place h.mem h.ofTarget).2
    omega

theorem search_eq {target inputOffset : ℕ} :
    (∃ place, (eh.entryOf target (some inputOffset)).or (eh.entryOf target none) = some place ∧
        eh.Stops target inputOffset place) ∨
      (eh.entryOf target (some inputOffset)).or (eh.entryOf target none) = none ∧
        ∀ entry ∈ eh.entries, ¬hasTargetPcBegin eh.relas entry.1 target := by
  cases hat : eh.entryOf target (some inputOffset) with
  | some place =>
    refine .inl ⟨place, rfl, List.mem_of_find?_eq_some hat, ?_, ?_⟩
    · have hfound := List.find?_some hat
      exact (of_decide_eq_true hfound).2
    · have hfound := List.find?_some hat
      exact .inl ((of_decide_eq_true hfound).1 inputOffset rfl).symm
  | none =>
    rw [Option.none_or]
    have hnone : ∀ entry ∈ eh.entries, hasTargetPcBegin eh.relas entry.1 target →
        entry.1 ≠ inputOffset := by
      intro entry hentry htarget heq
      have hmiss := List.find?_eq_none.1 hat entry hentry
      refine hmiss (decide_eq_true ⟨fun offset hoff => ?_, htarget⟩)
      rw [heq]
      exact (Option.some.inj hoff).symm
    cases hfirst : eh.entryOf target none with
    | some place =>
      have hfound := List.find?_some hfirst
      refine .inl ⟨place, rfl, List.mem_of_find?_eq_some hfirst,
        (of_decide_eq_true hfound).2, .inr fun entry hentry htarget =>
          ⟨hnone entry hentry htarget, ?_⟩⟩
      unfold entryOf at hfirst
      rw [List.find?_eq_some_iff_append] at hfirst
      obtain ⟨-, before, after, hsplit, hbefore⟩ := hfirst
      have hsorted := eh.entries_pairwise
      rw [hsplit] at hentry hsorted
      rcases List.mem_append.1 hentry with hmem | hmem
      · have hmiss := hbefore entry hmem
        rw [Bool.not_eq_true', decide_eq_false_iff_not] at hmiss
        exact absurd ⟨fun offset hoff => (by cases hoff), htarget⟩ hmiss
      · cases hmem with
        | head => exact le_rfl
        | tail _ hmem =>
          have hlt := List.rel_of_pairwise_cons (List.pairwise_append.1 hsorted).2.1 hmem
          exact Nat.le_of_lt hlt
    | none =>
      refine .inr ⟨rfl, fun entry hentry htarget => ?_⟩
      have hmiss := List.find?_eq_none.1 hfirst entry hentry
      exact hmiss (decide_eq_true ⟨fun offset hoff => (by cases hoff), htarget⟩)

end EhFrame

/-! ## One record -/

namespace Change

variable (change : Change F)

/-- The partner of a record of a function. -/
def Partner (function : F) (target offset : ℕ) : Prop :=
  ∃ eh, change.current.ehFrame = some eh ∧ eh.IsFdeOf function target offset

/-- The frame description at a place is that of the record, as far as its bytes
and relocations say. -/
def Comparable (eh : EhFrame F) (place : ℕ × ℕ) (record : FdeRecord) : Prop :=
  change.bytesMatch eh place record ∧
    (eh.relasIn place.1 record.size).length =
      (change.previousEh.relasIn record.inputOffset record.size).length ∧
    ∀ relas ∈ (eh.relasIn place.1 record.size).zip
      (change.previousEh.relasIn record.inputOffset record.size),
      relasMatch eh place.1 record relas

/-- The partner is where the search looks. -/
def FoundWith (eh : EhFrame F) (record : FdeRecord) (function : F) : Prop :=
  ∃ target place, change.currentSection record = some target ∧
    eh.IsFdeOf function target place.1 ∧ eh.Stops target record.inputOffset place ∧
    change.Comparable eh place record

/-- The search finds nothing. -/
def Gone (eh : EhFrame F) (record : FdeRecord) : Prop :=
  ∀ target, change.currentSection record = some target →
    (∀ entry ∈ eh.entries, ¬hasTargetPcBegin eh.relas entry.1 target) ∧
      eh.rangeAt record.inputOffset record.size = none

/-- The partner is where the search looks, or there is none and the search finds
nothing. -/
def Findable (record : FdeRecord) (function : F) : Prop :=
  ∀ eh, change.current.ehFrame = some eh → change.FoundWith eh record function ∨
    (∀ target offset, ¬eh.IsFdeOf function target offset) ∧ change.Gone eh record

/-- What becomes of a record of a function. -/
structure Right (record : FdeRecord) (function : F) : Prop where
  paired : ∀ target offset, change.fdeOutcome record = .paired target offset ↔
    change.Partner function target offset
  removed : change.fdeOutcome record = .removed ↔
    ∀ target offset, ¬change.Partner function target offset

variable {change}

theorem outcomeAt_ne_removed (eh : EhFrame F) (target : ℕ) (record : FdeRecord) (place : ℕ × ℕ) :
    change.outcomeAt eh target record place ≠ .removed := by
  unfold outcomeAt
  split
  · exact nofun
  · split
    · exact nofun
    · simp only
      split
      · exact nofun
      · split
        · exact nofun
        · exact nofun

theorem outcomeAt_paired {eh : EhFrame F} {target : ℕ} {record : FdeRecord} {place : ℕ × ℕ}
    (hrange : change.previousEh.rangeAt record.inputOffset record.size ≠ none)
    {target' offset : ℕ} :
    change.outcomeAt eh target record place = .paired target' offset ↔
      change.Comparable eh place record ∧ target' = target ∧ offset = place.1 := by
  unfold outcomeAt Comparable
  rw [if_neg hrange]
  split
  next hbytes => exact ⟨nofun, fun h => absurd h.1.1 hbytes⟩
  next hbytes =>
    simp only
    split
    next hlen => exact ⟨nofun, fun h => absurd h.1.2.1 hlen⟩
    next hlen =>
      split
      next hrelas =>
        constructor
        · intro h
          cases h
          exact ⟨⟨not_not.1 hbytes, not_not.1 hlen, hrelas⟩, rfl, rfl⟩
        · rintro ⟨-, rfl, rfl⟩
          rfl
      next hrelas => exact ⟨nofun, fun h => absurd h.1.2.2 hrelas⟩

section

variable {eh : EhFrame F} {record : FdeRecord} {function : F}

theorem partner_iff (heh : change.current.ehFrame = some eh) (target offset : ℕ) :
    change.Partner function target offset ↔ eh.IsFdeOf function target offset := by
  constructor
  · rintro ⟨eh', hsome, hfde⟩
    cases heh.symm.trans hsome
    exact hfde
  · exact fun hfde => ⟨eh, heh, hfde⟩

theorem findable_iff (heh : change.current.ehFrame = some eh) :
    change.Findable record function ↔ change.FoundWith eh record function ∨
      (∀ target offset, ¬eh.IsFdeOf function target offset) ∧ change.Gone eh record := by
  constructor
  · exact fun h => h eh heh
  · intro h eh' hsome
    cases heh.symm.trans hsome
    exact h

/-- A record that is removed. -/
theorem right_iff_of_removed (houtcome : change.fdeOutcome record = .removed) :
    change.Right record function ↔ ∀ target offset, ¬change.Partner function target offset := by
  constructor
  · exact fun h => h.removed.1 houtcome
  · intro hnone
    refine ⟨fun target offset => ?_, fun _ => hnone, fun _ => houtcome⟩
    rw [houtcome]
    exact iff_of_false (nofun) (hnone target offset)

theorem right_iff_of_gone (heh : change.current.ehFrame = some eh)
    (houtcome : change.fdeOutcome record = .removed) (hgone : change.Gone eh record)
    (hfound : ¬change.FoundWith eh record function) :
    change.Right record function ↔ change.Findable record function := by
  rw [right_iff_of_removed houtcome, findable_iff heh, or_iff_right hfound, and_iff_left hgone]
  exact forall_congr' fun target => forall_congr' fun offset => (partner_iff heh _ _).not

/-- A record that has a place is never removed. -/
theorem right_iff_of_placed (heh : change.current.ehFrame = some eh)
    (hrecord : record ∈ change.records) {target : ℕ} {place : ℕ × ℕ}
    (houtcome : change.fdeOutcome record = change.outcomeAt eh target record place) :
    change.Right record function ↔
      eh.IsFdeOf function target place.1 ∧ change.Comparable eh place record := by
  have hpaired : ∀ target' offset, change.fdeOutcome record = .paired target' offset ↔
      change.Comparable eh place record ∧ target' = target ∧ offset = place.1 := by
    intro target' offset
    rw [houtcome, outcomeAt_paired (change.recorded_range record hrecord)]
  have hkept : change.fdeOutcome record ≠ .removed := by
    rw [houtcome]
    exact outcomeAt_ne_removed eh target record place
  constructor
  · intro h
    have hsome : ∃ target' offset, change.Partner function target' offset := by
      by_contra hnone
      simp only [not_exists] at hnone
      exact hkept (h.removed.2 hnone)
    obtain ⟨target', offset, hpartner⟩ := hsome
    obtain ⟨hcomparable, rfl, rfl⟩ :=
      (hpaired target' offset).1 ((h.paired target' offset).2 hpartner)
    exact ⟨(partner_iff heh _ _).1 hpartner, hcomparable⟩
  · rintro ⟨hfde, hcomparable⟩
    refine ⟨fun target' offset => ?_, iff_of_false hkept fun h => ?_⟩
    · rw [hpaired, partner_iff heh]
      constructor
      · rintro ⟨-, rfl, rfl⟩
        exact hfde
      · exact fun h => ⟨hcomparable, hfde.eq h⟩
    · exact h target place.1 ((partner_iff heh _ _).2 hfde)

end

theorem right_iff {record : FdeRecord} (hrecord : record ∈ change.records) (function : F) :
    change.Right record function ↔ change.Findable record function := by
  cases heh : change.current.ehFrame with
  | none =>
    have houtcome : change.fdeOutcome record = .removed := by
      unfold fdeOutcome
      rw [heh]
    refine iff_of_true ((right_iff_of_removed houtcome).2 ?_) ?_
    · rintro target offset ⟨eh, hsome, -⟩
      cases heh.symm.trans hsome
    · intro eh hsome
      cases heh.symm.trans hsome
  | some eh =>
    cases hsec : change.currentSection record with
    | none =>
      refine right_iff_of_gone heh ?_ (fun target h => ?_) ?_
      · unfold fdeOutcome
        simp only [heh, hsec]
      · cases hsec.symm.trans h
      · rintro ⟨target, place, h, -⟩
        cases hsec.symm.trans h
    | some target =>
      have houtcome : change.fdeOutcome record = ((chosen eh target record).map
          (change.outcomeAt eh target record)).getD .removed := by
        unfold fdeOutcome
        simp only [heh, hsec]
        cases chosen eh target record with
        | none => rfl
        | some place => rfl
      have hchosen : chosen eh target record =
          ((eh.entryOf target (some record.inputOffset)).or (eh.entryOf target none)).or
            (eh.rangeAt record.inputOffset record.size) := (Option.or_assoc ..).symm
      rcases @EhFrame.search_eq _ eh target record.inputOffset with
        ⟨place, hsearch, hstops⟩ | ⟨hsearch, hnothing⟩
      · rw [hchosen, hsearch] at houtcome
        rw [right_iff_of_placed heh hrecord houtcome, findable_iff heh]
        constructor
        · rintro ⟨hfde, hcomparable⟩
          exact .inl ⟨target, place, hsec, hfde, hstops, hcomparable⟩
        · rintro (⟨target', place', hsec', hfde, hstops', hcomparable⟩ | ⟨-, hgone⟩)
          · cases hsec.symm.trans hsec'
            rw [hstops.eq hstops']
            exact ⟨hfde, hcomparable⟩
          · exact absurd hstops.ofTarget ((hgone target hsec).1 place hstops.mem)
      · rw [hchosen, hsearch] at houtcome
        have hnotFound : ¬change.FoundWith eh record function := by
          rintro ⟨target', place, hsec', -, hstops, -⟩
          cases hsec.symm.trans hsec'
          exact hnothing place hstops.mem hstops.ofTarget
        cases hraw : eh.rangeAt record.inputOffset record.size with
        | none =>
          rw [hraw] at houtcome
          refine right_iff_of_gone heh houtcome (fun target' h => ?_) hnotFound
          cases hsec.symm.trans h
          exact ⟨hnothing, hraw⟩
        | some place =>
          rw [hraw] at houtcome
          rw [right_iff_of_placed heh hrecord houtcome, findable_iff heh]
          constructor
          · rintro ⟨hfde, -⟩
            obtain ⟨size, hentry⟩ := hfde.entry
            exact absurd hfde.2 (hnothing (place.1, size) hentry)
          · rintro (h | ⟨-, hgone⟩)
            · exact absurd h hnotFound
            · cases hraw.symm.trans (hgone target hsec).2

/-! ## The table -/

theorem record_eq {record other : FdeRecord} (hrecord : record ∈ change.records)
    (hother : other ∈ change.records) {function : F} {target target' : ℕ}
    (h : change.previousEh.IsFdeOf function target record.inputOffset)
    (h' : change.previousEh.IsFdeOf function target' other.inputOffset) : record = other :=
  change.records_distinct record hrecord other hother (h'.eq h).2

theorem mem_addedCandidates {candidate : FdeCandidate} (h : candidate ∈ change.addedCandidates) :
    ∃ eh, change.current.ehFrame = some eh ∧
      hasTargetPcBegin eh.relas candidate.inputOffset candidate.targetSectionIndex ∧
      (candidate.targetSectionIndex, candidate.inputOffset) ∉ change.matchedCurrentFdes eh := by
  unfold addedCandidates at h
  split at h
  · cases h
  next eh heh =>
    obtain ⟨hcandidate, hadded⟩ := List.mem_filter.1 h
    obtain ⟨entry, -, hat⟩ := List.mem_filterMap.1 hcandidate
    refine ⟨eh, heh, ?_, (of_decide_eq_true hadded).1⟩
    simp only [candidateAt, Option.bind_eq_bind, Option.bind_eq_some_iff] at hat
    obtain ⟨cieId, -, hat⟩ := hat
    split at hat
    · cases hat
    · simp only [Option.bind_eq_some_iff] at hat
      obtain ⟨rela, hrela, target, htarget, hcandidate⟩ := hat
      cases hcandidate
      have hplace := List.find?_some hrela
      refine ⟨rela, (List.mem_filter.1 (List.mem_of_find?_eq_some hrela)).1,
        of_decide_eq_true hplace, ?_⟩
      unfold pcBeginTarget at htarget
      split at htarget
      · exact htarget
      · cases htarget

theorem FoundWith.mem_matched {eh : EhFrame F} {record : FdeRecord} {function : F}
    {target offset : ℕ} (h : change.FoundWith eh record function)
    (hrecord : record ∈ change.records) (hpartner : eh.IsFdeOf function target offset) :
    (target, offset) ∈ change.matchedCurrentFdes eh := by
  obtain ⟨target', place, hsec, hfde, hstops, -⟩ := h
  obtain ⟨rfl, rfl⟩ := hfde.eq hpartner
  refine List.mem_filterMap.2 ⟨record, hrecord, ?_⟩
  rw [hsec]
  rcases @EhFrame.search_eq F eh target record.inputOffset with ⟨stop, hsearch, hstop⟩ | ⟨-, hnothing⟩
  · show some (target, matchedOffset eh target record) = some (target, place.1)
    unfold matchedOffset
    rw [hsearch, hstops.eq hstop]
    rfl
  · exact absurd hstops.ofTarget (hnothing place hstops.mem)

variable (change)

/-- Every record has the frame description of its function, no two have the same
one, and what is new is none of them. -/
structure FdesMatched : Prop where
  right : ∀ record ∈ change.records, ∀ function,
    change.previousEh.IsFdeOf function record.sectionIndex record.inputOffset →
      change.Right record function
  distinct : ∀ record ∈ change.records, ∀ other ∈ change.records, ∀ target target' offset,
    change.fdeOutcome record = .paired target offset →
      change.fdeOutcome other = .paired target' offset → record = other
  added : ∀ candidate ∈ change.addedCandidates, ∀ record ∈ change.records, ∀ function,
    change.previousEh.IsFdeOf function record.sectionIndex record.inputOffset →
      ∀ target, ¬change.Partner function target candidate.inputOffset

/-- The search has every record right. -/
def AllFindable : Prop :=
  ∀ record ∈ change.records, ∀ function,
    change.previousEh.IsFdeOf function record.sectionIndex record.inputOffset →
      change.Findable record function

variable {change}

theorem AllFindable.distinct (h : change.AllFindable) {record other : FdeRecord}
    (hrecord : record ∈ change.records) (hother : other ∈ change.records) {target target' offset : ℕ}
    (hpaired : change.fdeOutcome record = .paired target offset)
    (hpaired' : change.fdeOutcome other = .paired target' offset) : record = other := by
  obtain ⟨function, hfun⟩ := change.recorded record hrecord
  obtain ⟨function', hfun'⟩ := change.recorded other hother
  have hright := (right_iff hrecord function).2 (h record hrecord function hfun)
  have hright' := (right_iff hother function').2 (h other hother function' hfun')
  obtain ⟨eh, heh, hpartner⟩ := (hright.paired target offset).1 hpaired
  obtain ⟨eh', heh', hpartner'⟩ := (hright'.paired target' offset).1 hpaired'
  cases heh.symm.trans heh'
  have hsame : some function = some function' := hpartner.1.symm.trans hpartner'.1
  cases hsame
  exact record_eq hrecord hother hfun hfun'

theorem AllFindable.added (h : change.AllFindable) {candidate : FdeCandidate}
    (hcandidate : candidate ∈ change.addedCandidates) {record : FdeRecord}
    (hrecord : record ∈ change.records) {function : F}
    (hfun : change.previousEh.IsFdeOf function record.sectionIndex record.inputOffset)
    (target : ℕ) : ¬change.Partner function target candidate.inputOffset := by
  rintro ⟨eh, heh, hpartner⟩
  obtain ⟨eh', heh', htarget, hunmatched⟩ := mem_addedCandidates hcandidate
  cases heh.symm.trans heh'
  obtain hsame := hpartner.target_eq htarget
  rcases h record hrecord function hfun eh heh with hfound | ⟨hnone, -⟩
  · rw [hsame] at hunmatched
    exact hunmatched (hfound.mem_matched hrecord hpartner)
  · exact hnone target candidate.inputOffset hpartner

variable (change)

theorem fdesMatched_iff : change.FdesMatched ↔ change.AllFindable := by
  constructor
  · intro h record hrecord function hfun
    exact (right_iff hrecord function).1 (h.right record hrecord function hfun)
  · intro h
    refine ⟨fun record hrecord function hfun => ?_, ?_, ?_⟩
    · exact (right_iff hrecord function).2 (h record hrecord function hfun)
    · intro record hrecord other hother target target' offset
      exact h.distinct hrecord hother
    · intro candidate hcandidate record hrecord function hfun target
      exact h.added hcandidate hrecord hfun target

/-- What is accepted is matched, exactly when the search has it right. -/
theorem accepted_matched_iff :
    (change.Accepted → change.FdesMatched) ↔ (change.Accepted → change.AllFindable) := by
  rw [fdesMatched_iff]

end Change

/-! ## Two functions in one section

The common part of the table grows by eight bytes, and everything after it
moves. -/

/-- A function in the section 1. -/
def pcBegin (offset : ℕ) (addend : ℤ) : Rela :=
  { offset := offset + fdePcBeginOffset, info := 2 ^ 32 + 2, addend := addend,
    symbolSection := some 1, symbolAddress := 0, plainSize := some 4, isPcRelative32 := true }

/-- A common part of a size, and two frame descriptions. -/
def twoFrames (cieLength : UInt8) : List UInt8 :=
  [cieLength, 0, 0, 0] ++ List.replicate cieLength.toNat 0 ++
    [20, 0, 0, 0, cieLength + 8, 0, 0, 0] ++ List.replicate 16 0 ++
    [20, 0, 0, 0, cieLength + 32, 0, 0, 0] ++ List.replicate 16 0

/-- Frame descriptions of `f` and `g`, after a common part. -/
def ehFrameOfTwo (data : List UInt8) (start : ℕ)
    (entry_f : (start, 24) ∈ entriesFrom data data.length 0)
    (entry_g : (start + 24, 24) ∈ entriesFrom data data.length 0) : EhFrame String where
  data := data
  relas := [pcBegin start 0, pcBegin (start + 24) 16]
  functionAt := fun offset =>
    if offset = start then some "f" else if offset = start + 24 then some "g" else none
  function_entry := by
    intro offset function h
    split at h
    next heq => exact ⟨24, heq ▸ entry_f⟩
    · split at h
      next heq => exact ⟨24, heq ▸ entry_g⟩
      · cases h
  function_injective := by
    intro offset other function h h'
    grind
  function_target := by
    intro offset function h
    refine ⟨1, fun other => ⟨?_, ?_⟩⟩
    · rintro ⟨rela, hrela, -, hsec⟩
      simp only [List.mem_cons, List.not_mem_nil, or_false] at hrela
      rcases hrela with rfl | rfl
      · exact (Option.some.inj hsec).symm
      · exact (Option.some.inj hsec).symm
    · rintro rfl
      split at h
      next heq => exact ⟨pcBegin start 0, List.mem_cons_self, by rw [heq]; rfl, rfl⟩
      · split at h
        next heq =>
          exact ⟨pcBegin (start + 24) 16, by simp, by rw [heq]; rfl, rfl⟩
        · cases h

def framesBefore : EhFrame String :=
  ehFrameOfTwo (twoFrames 20) 24 (by decide +kernel) (by decide +kernel)

def framesAfter : EhFrame String :=
  ehFrameOfTwo (twoFrames 28) 32 (by decide +kernel) (by decide +kernel)

/-- An object with the two functions in `.text`. -/
def objectWith (eh : EhFrame String) : ObjectVersion String where
  sections := [⟨some "", [], false⟩, ⟨some ".text", List.replicate 32 0, true⟩,
    ⟨some ".eh_frame", eh.data, false⟩]
  ehFrame := some eh

/-- Both were linked. -/
def grownCie : Change String where
  previous := objectWith framesBefore
  current := objectWith framesAfter
  previousEh := framesBefore
  previous_eh := rfl
  records := [⟨1, 24, 24⟩, ⟨1, 48, 24⟩]
  placed := fun target => target = 1
  wholeFile := true
  fingerprintMatches := false
  otherwiseAllowed := false
  recorded := by
    intro record hrecord
    simp only [List.mem_cons, List.not_mem_nil, or_false] at hrecord
    rcases hrecord with rfl | rfl
    · exact ⟨"f", rfl, by decide +kernel⟩
    · exact ⟨"g", rfl, by decide +kernel⟩
  recorded_range := by decide +kernel
  records_distinct := by decide +kernel

/-- The second function is given the frame description of the first, its own is
new, and the change is accepted. -/
theorem second_frame_takes_first :
    ¬(grownCie.Accepted → grownCie.FdesMatched) := by
  intro h
  have hacc : grownCie.Accepted :=
    .inr (.inr (.inl ⟨by decide +kernel, rfl, by decide +kernel⟩))
  have hfirst : grownCie.fdeOutcome ⟨1, 24, 24⟩ = .paired 1 32 := by decide +kernel
  have hsecond : grownCie.fdeOutcome ⟨1, 48, 24⟩ = .paired 1 32 := by decide +kernel
  have hsame := (h hacc).distinct ⟨1, 24, 24⟩ (by decide) ⟨1, 48, 24⟩ (by decide) 1 1 32
    hfirst hsecond
  exact absurd hsame (by decide)

end Sld.Incremental.Fdes
