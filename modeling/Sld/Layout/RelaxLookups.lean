/-
# `Layout.RelaxLookups` — offsets before and after relaxation

The deletions of a section answer three questions: where a byte of the input
is in the output, which byte of the input a byte of the output comes from,
and whether a byte of the input is deleted.  Each is a binary search with a
predicate of its own; a cursor answers the first one for ascending offsets.

The deleted bytes as a set (`Deleted`) say what the answers have to be:
an offset of the output is the number of bytes kept before it (`keptBefore`).
`lookups_consistent` is that all the answers are those, also when deletions
were merged in later, in any number of batches.
-/
import Mathlib.Data.Nat.Count
import Mathlib.Order.Interval.Finset.Nat
import Sld.Layout.RelaxDeltas

namespace Sld.Layout

open List (mem_cons mem_cons_of_mem mem_cons_self pairwise_cons takeWhile_cons_of_pos)
open Finset (range)

/-- Where the output goes on after the deletion. -/
def RelaxDelta.outputStart (delta : RelaxDelta) : ℕ :=
  delta.inputOffset + delta.bytesDeleted - delta.cumulativeDeleted

namespace SectionRelaxDeltas

variable (self : SectionRelaxDeltas)

def deletesInputOffset (inputOffset : ℕ) : Bool :=
  match (self.deltas.takeWhile fun delta => delta.inputOffset ≤ inputOffset).length with
  | 0 => false
  | idx + 1 => (self.deltas[idx]?).any fun delta =>
    inputOffset < delta.inputOffset + delta.bytesDeleted

def outputToInputOffset (outputOffset : ℕ) : ℕ :=
  match (self.deltas.takeWhile fun delta => delta.outputStart ≤ outputOffset).length with
  | 0 => outputOffset
  | idx + 1 => outputOffset + (self.deltas[idx]?.map RelaxDelta.cumulativeDeleted).getD 0

end SectionRelaxDeltas

/-! ## The cursor -/

/-- `index` is the next deletion, `currentCumulative` the total before it. -/
structure RelaxCursor where
  deltas : List RelaxDelta
  index : ℕ
  currentCumulative : ℕ

namespace RelaxCursor

/-- The loop of `translate`. -/
def advance (self : RelaxCursor) (inputOffset : ℕ) : RelaxCursor :=
  if h : self.index < self.deltas.length then
    if (self.deltas.get ⟨self.index, h⟩).inputOffset < inputOffset then
      advance { self with
        currentCumulative := (self.deltas.get ⟨self.index, h⟩).cumulativeDeleted
        index := self.index + 1 } inputOffset
    else self
  else self
termination_by self.deltas.length - self.index

/-- `translate`: the offset in the output, and the cursor after it. -/
def translate (self : RelaxCursor) (inputOffset : ℕ) : ℕ × RelaxCursor :=
  (inputOffset - (self.advance inputOffset).currentCumulative, self.advance inputOffset)

/-- One query after the other. -/
def translateAll (self : RelaxCursor) : List ℕ → List ℕ
  | [] => []
  | inputOffset :: offsets =>
    (self.translate inputOffset).1 :: (self.translate inputOffset).2.translateAll offsets

end RelaxCursor

def SectionRelaxDeltas.cursor (self : SectionRelaxDeltas) : RelaxCursor := ⟨self.deltas, 0, 0⟩

/-! ## Deleted bytes -/

/-- The byte is in one of the deleted ranges. -/
def Deleted (deletions : List (ℕ × ℕ)) (offset : ℕ) : Prop :=
  ∃ entry ∈ deletions, entry.1 ≤ offset ∧ offset < entry.1 + entry.2

instance (deletions : List (ℕ × ℕ)) : DecidablePred (Deleted deletions) := fun offset =>
  inferInstanceAs (Decidable (∃ entry ∈ deletions, entry.1 ≤ offset ∧ offset < entry.1 + entry.2))

/-- The offset is between two bytes of one deleted range. -/
def StrictlyInside (deletions : List (ℕ × ℕ)) (offset : ℕ) : Prop :=
  ∃ entry ∈ deletions, entry.1 < offset ∧ offset < entry.1 + entry.2

/-- How many bytes before the offset are kept. -/
def keptBefore (deletions : List (ℕ × ℕ)) (offset : ℕ) : ℕ :=
  Nat.count (fun byte => ¬ Deleted deletions byte) offset

/-- Ranges that do not overlap, in any order. -/
def Apart (deletions : List (ℕ × ℕ)) : Prop :=
  deletions.Pairwise fun a b => Spaced a b ∨ Spaced b a

variable {deletions : List (ℕ × ℕ)} {offset : ℕ}

theorem not_strictlyInside_of_not_deleted
    (h : ¬ Deleted deletions offset) : ¬ StrictlyInside deletions offset := by
  rintro ⟨entry, hentry, hstart, hend⟩
  exact h ⟨entry, hentry, Nat.le_of_lt hstart, hend⟩

theorem Apart.perm {other : List (ℕ × ℕ)} (h : Apart deletions)
    (hperm : deletions.Perm other) : Apart other :=
  hperm.pairwise h fun hab => hab.symm

theorem Apart.spaced (h : Apart deletions)
    (hsorted : deletions.Pairwise fun a b => a.1 ≤ b.1) : deletions.Pairwise Spaced := by
  refine (hsorted.and h).imp ?_
  rintro a b ⟨hle, hab | hba⟩
  · exact hab
  · exact absurd hba.1 (Nat.not_lt.2 hle)

theorem apart_of_spaced (h : deletions.Pairwise Spaced) :
    Apart deletions :=
  h.imp fun hab => .inl hab

/-! ### Counting -/

/-- How many bytes before the offset are deleted. -/
def deletedCount (deletions : List (ℕ × ℕ)) (offset : ℕ) : ℕ :=
  ((Finset.range offset).filter (Deleted deletions)).card

theorem deletedCount_add_keptBefore (deletions : List (ℕ × ℕ)) (offset : ℕ) :
    deletedCount deletions offset + keptBefore deletions offset = offset := by
  rw [keptBefore, Nat.count_eq_card_filter_range, deletedCount,
    Finset.card_filter_add_card_filter_not, Finset.card_range]

variable {entry : ℕ × ℕ}

theorem deleted_cons : Deleted (entry :: deletions) offset ↔
      (entry.1 ≤ offset ∧ offset < entry.1 + entry.2) ∨ Deleted deletions offset := by
  simp only [Deleted, mem_cons, exists_eq_or_imp]

theorem card_range_entry (h : ¬ (entry.1 < offset ∧ offset < entry.1 + entry.2)) :
    ((range offset).filter fun byte =>
      entry.1 ≤ byte ∧ byte < entry.1 + entry.2).card = if entry.1 < offset then entry.2 else 0 := by
  split
  case isTrue hlt =>
    have hrange : (range offset).filter (fun byte =>
        entry.1 ≤ byte ∧ byte < entry.1 + entry.2) = Finset.Ico entry.1 (entry.1 + entry.2) := by
      ext byte
      simp only [Finset.mem_filter, Finset.mem_range, Finset.mem_Ico]
      omega
    rw [hrange, Nat.card_Ico, Nat.add_sub_cancel_left]
  case isFalse hge =>
    rw [Finset.card_eq_zero, Finset.filter_eq_empty_iff]
    intro byte hbyte
    rw [Finset.mem_range] at hbyte
    omega

theorem deletedCount_eq (h : Apart deletions) (hoff : ¬ StrictlyInside deletions offset) :
    deletedCount deletions offset = deletedBefore deletions offset := by
  induction deletions with
  | nil =>
    rw [deletedCount, deletedBefore_nil, Finset.card_eq_zero, Finset.filter_eq_empty_iff]
    rintro byte - ⟨entry, hentry, -⟩
    exact List.not_mem_nil hentry
  | cons entry deletions ih =>
    obtain ⟨hentry, hdels⟩ := pairwise_cons.1 h
    have hfirst : ¬ (entry.1 < offset ∧ offset < entry.1 + entry.2) := fun hinside =>
      hoff ⟨entry, mem_cons_self, hinside⟩
    have hrest : ¬ StrictlyInside deletions offset := by
      rintro ⟨other, hother, hinside⟩
      exact hoff ⟨other, mem_cons_of_mem _ hother, hinside⟩
    have hdisj : Disjoint
        ((range offset).filter fun byte => entry.1 ≤ byte ∧ byte < entry.1 + entry.2)
        ((range offset).filter (Deleted deletions)) := by
      rw [Finset.disjoint_filter]
      rintro byte - hbyte ⟨other, hother, hother'⟩
      rcases hentry other hother with hspaced | hspaced
      · have := hspaced.2
        omega
      · have := hspaced.2
        omega
    have hsplit : (range offset).filter (Deleted (entry :: deletions)) =
        (range offset).filter (fun byte => entry.1 ≤ byte ∧ byte < entry.1 + entry.2) ∪
          (range offset).filter (Deleted deletions) := by
      rw [← Finset.filter_or]
      exact Finset.filter_congr fun byte _ => deleted_cons
    rw [deletedCount, hsplit, Finset.card_union_of_disjoint hdisj, card_range_entry hfirst,
      deletedBefore_cons, ← ih hdels hrest, deletedCount]

theorem deletedBefore_add_keptBefore
    (h : Apart deletions) (hoff : ¬ StrictlyInside deletions offset) :
    deletedBefore deletions offset + keptBefore deletions offset = offset := by
  rw [← deletedCount_eq h hoff, deletedCount_add_keptBefore]

/-! ### The running totals -/

theorem cumulativeDeleted_of_mem_accumulate {raw : List (ℕ × ℕ)} (h : Ascending raw) {running : ℕ}
    {delta : RelaxDelta} (hdelta : delta ∈ accumulate running raw) :
    delta.cumulativeDeleted =
      running + deletedBefore raw delta.inputOffset + delta.bytesDeleted := by
  induction raw generalizing running with
  | nil => cases hdelta
  | cons entry raw ih =>
    obtain ⟨hentry, hraw⟩ := pairwise_cons.1 h
    rw [accumulate] at hdelta
    rcases mem_cons.1 hdelta with rfl | hlater
    · have hfirst : deletedBefore (entry :: raw) entry.1 = 0 := by
        refine deletedBefore_of_le fun other hother => ?_
        rcases mem_cons.1 hother with rfl | hother
        · exact Nat.le_refl _
        · exact Nat.le_of_lt (hentry other hother)
      rw [hfirst, Nat.add_zero]
    · have hmem : delta.raw ∈ raw := by
        have := List.mem_map_of_mem (f := RelaxDelta.raw) hlater
        rwa [map_raw_accumulate] at this
      have hlt : entry.1 < delta.inputOffset := hentry _ hmem
      rw [ih hraw hlater, deletedBefore_cons, if_pos hlt]
      omega

instance : Std.Symm fun a b => Spaced a b ∨ Spaced b a := ⟨fun _ _ => Or.symm⟩

theorem start_not_strictlyInside (h : Apart deletions)
    (hentry : entry ∈ deletions) : ¬ StrictlyInside deletions entry.1 := by
  rintro ⟨other, hother, hstart, hend⟩
  have hne : entry ≠ other := fun heq => Nat.lt_irrefl other.1 (heq ▸ hstart)
  rcases List.Pairwise.forall h hentry hother hne with hspaced | hspaced
  · have := hspaced.1
    omega
  · have := hspaced.2
    omega

/-! ## Every lookup -/

section

variable {α : Type*} {p q : α → Bool} {l : List α}

theorem takeWhile_congr (h : ∀ a ∈ l, p a = q a) : l.takeWhile p = l.takeWhile q := by
  induction l with
  | nil => rfl
  | cons a l ih =>
    have hl := ih fun b hb => h b (mem_cons_of_mem _ hb)
    rw [List.takeWhile_cons, List.takeWhile_cons, h a mem_cons_self, hl]

theorem mem_takeWhile (hsorted : l.Pairwise fun a b => p b = true → p a = true) {a : α}
    (ha : a ∈ l) (hp : p a = true) : a ∈ l.takeWhile p := by
  induction l with
  | nil => exact ha
  | cons b l ih =>
    obtain ⟨hb, hl⟩ := pairwise_cons.1 hsorted
    rcases mem_cons.1 ha with rfl | ha
    · rw [takeWhile_cons_of_pos hp]
      exact mem_cons_self
    · rw [takeWhile_cons_of_pos (hb a ha hp)]
      exact mem_cons_of_mem _ (ih hl ha)

theorem getElem?_length_takeWhile {idx : ℕ} (h : (l.takeWhile p).length = idx + 1) :
    l[idx]? = (l.takeWhile p).getLast? := by
  obtain ⟨rest, hrest⟩ := List.takeWhile_prefix (l := l) p
  rw [List.getLast?_eq_getElem?, h]
  conv_lhs => rw [← hrest]
  exact List.getElem?_append_left (by omega)

theorem length_takeWhile_mono (h : ∀ a ∈ l, p a = true → q a = true) :
    (l.takeWhile p).length ≤ (l.takeWhile q).length := by
  induction l with
  | nil => exact Nat.le_refl _
  | cons a l ih =>
    have hl := ih fun b hb => h b (mem_cons_of_mem _ hb)
    by_cases hp : p a = true
    · rw [takeWhile_cons_of_pos hp, takeWhile_cons_of_pos (h a mem_cons_self hp)]
      exact Nat.succ_le_succ hl
    · rw [List.takeWhile_cons_of_neg hp]
      exact Nat.zero_le _

theorem lt_length_takeWhile_iff {i : ℕ} (hi : i ≤ (l.takeWhile p).length) (h : i < l.length) :
    i < (l.takeWhile p).length ↔ p (l.get ⟨i, h⟩) = true := by
  induction l generalizing i with
  | nil => exact absurd h (Nat.not_lt_zero i)
  | cons a l ih =>
    by_cases ha : p a = true
    · rw [takeWhile_cons_of_pos ha] at hi ⊢
      cases i with
      | zero => exact ⟨fun _ => ha, fun _ => Nat.succ_pos _⟩
      | succ i =>
        have hrest := ih (Nat.le_of_succ_le_succ hi) (Nat.lt_of_succ_lt_succ h)
        exact Nat.succ_lt_succ_iff.trans hrest
    · rw [List.takeWhile_cons_of_neg ha] at hi ⊢
      obtain rfl := Nat.le_zero.1 hi
      exact ⟨fun hlt => absurd hlt (Nat.lt_irrefl 0), fun hp => absurd hp ha⟩

end

namespace SectionRelaxDeltas

variable {self : SectionRelaxDeltas} {deletions : List (ℕ × ℕ)}

/-- The total up to an index. -/
def totalBefore (deltas : List RelaxDelta) : ℕ → ℕ
  | 0 => 0
  | idx + 1 => (deltas[idx]?.map RelaxDelta.cumulativeDeleted).getD 0

theorem cumulativeAt_eq_totalBefore (offset : ℕ) :
    self.cumulativeAt offset = totalBefore self.deltas (self.partitionPoint offset) := by
  unfold cumulativeAt
  split
  case h_1 hidx => rw [hidx, totalBefore]
  case h_2 idx hidx => rw [hidx, totalBefore]

theorem outputToInputOffset_eq (outputOffset : ℕ) :
    self.outputToInputOffset outputOffset = outputOffset + totalBefore self.deltas
      (self.deltas.takeWhile fun delta => delta.outputStart ≤ outputOffset).length := by
  unfold outputToInputOffset
  split
  case h_1 hidx => rw [hidx, totalBefore, Nat.add_zero]
  case h_2 idx hidx => rw [hidx, totalBefore]

theorem deletesInputOffset_eq (offset : ℕ) :
    self.deletesInputOffset offset = ((self.deltas.takeWhile fun delta =>
      delta.inputOffset ≤ offset).getLast?).any fun delta =>
        offset < delta.inputOffset + delta.bytesDeleted := by
  unfold deletesInputOffset
  split
  case h_1 hidx =>
    rw [List.length_eq_zero_iff.1 hidx]
    rfl
  case h_2 idx hidx => rw [getElem?_length_takeWhile hidx]

/-- The deltas are those of the deleted ranges, sorted. -/
structure Keeps (deltas : SectionRelaxDeltas) (deletions : List (ℕ × ℕ)) : Prop where
  apart : Apart deletions
  sorted : deltas.raw.Pairwise fun a b => a.1 ≤ b.1
  perm : deltas.raw.Perm deletions

namespace Keeps

variable (h : self.Keeps deletions)

include h

theorem spaced : self.raw.Pairwise Spaced :=
  (h.apart.perm h.perm.symm).spaced h.sorted

variable {delta : RelaxDelta}

theorem raw_mem (hdelta : delta ∈ self.deltas) : delta.raw ∈ deletions :=
  h.perm.mem_iff.1 (List.mem_map_of_mem hdelta)

theorem cumulativeAt_eq (offset : ℕ) :
    self.cumulativeAt offset = deletedBefore deletions offset := by
  rw [SectionRelaxDeltas.cumulativeAt_eq (ascending_of_spaced h.spaced), deletedBefore_perm h.perm]

theorem cumulativeDeleted_eq (hdelta : delta ∈ self.deltas) :
    delta.cumulativeDeleted = deletedBefore deletions delta.inputOffset + delta.bytesDeleted := by
  rw [self.cumulative] at hdelta
  have := cumulativeDeleted_of_mem_accumulate (ascending_of_spaced h.spaced) hdelta
  rw [this, Nat.zero_add]
  exact congrArg (· + _) (deletedBefore_perm h.perm _)

theorem outputStart_eq (hdelta : delta ∈ self.deltas) :
    delta.outputStart = keptBefore deletions delta.inputOffset := by
  have hstart := start_not_strictlyInside h.apart (h.raw_mem hdelta)
  have := deletedBefore_add_keptBefore h.apart hstart
  have htotal := h.cumulativeDeleted_eq hdelta
  show delta.inputOffset + delta.bytesDeleted - delta.cumulativeDeleted = _
  simp only [RelaxDelta.raw] at this
  omega

/-! ### Input to output -/

variable {offset : ℕ}

theorem inputToOutputOffset_eq (hoff : ¬ StrictlyInside deletions offset) :
    self.inputToOutputOffset offset = keptBefore deletions offset := by
  have := deletedBefore_add_keptBefore h.apart hoff
  rw [inputToOutputOffset, h.cumulativeAt_eq]
  omega

/-! ### Output to input -/

theorem outputStart_le_iff (hoff : ¬ Deleted deletions offset) (hdelta : delta ∈ self.deltas) :
    delta.outputStart ≤ keptBefore deletions offset ↔ delta.inputOffset < offset + 1 := by
  rw [h.outputStart_eq hdelta]
  constructor
  · intro hle
    refine Nat.lt_succ_of_le (Nat.not_lt.1 fun hlt => ?_)
    exact absurd (Nat.count_strict_mono hoff hlt) (Nat.not_lt.2 hle)
  · intro hlt
    exact Nat.count_monotone _ (Nat.le_of_lt_succ hlt)

theorem outputToInputOffset_eq (hoff : ¬ Deleted deletions offset) :
    self.outputToInputOffset (keptBefore deletions offset) = offset := by
  have hsearch : self.deltas.takeWhile (fun delta =>
      delta.outputStart ≤ keptBefore deletions offset) =
      self.deltas.takeWhile fun delta => delta.inputOffset < offset + 1 :=
    takeWhile_congr fun delta hdelta => decide_eq_decide.2 (h.outputStart_le_iff hoff hdelta)
  -- the byte itself is kept, so nothing more is deleted before the next
  have hinside : ¬ StrictlyInside deletions (offset + 1) := by
    rintro ⟨entry, hentry, hstart, hend⟩
    exact hoff ⟨entry, hentry, Nat.le_of_lt_succ hstart, by omega⟩
  have hnext := deletedBefore_add_keptBefore h.apart hinside
  have hkept : keptBefore deletions (offset + 1) = keptBefore deletions offset + 1 :=
    Nat.count_succ_eq_succ_count_iff.2 hoff
  rw [SectionRelaxDeltas.outputToInputOffset_eq, hsearch]
  show _ + totalBefore self.deltas (self.partitionPoint (offset + 1)) = offset
  rw [← cumulativeAt_eq_totalBefore, h.cumulativeAt_eq]
  omega

/-! ### Deleted bytes -/

omit h in
theorem covered_iff_last {deltas : List RelaxDelta}
    (hspaced : deltas.Pairwise fun a b => Spaced a.raw b.raw)
    (hstart : ∀ delta ∈ deltas, delta.inputOffset ≤ offset) :
    (∃ delta ∈ deltas, offset < delta.inputOffset + delta.bytesDeleted) ↔
      (deltas.getLast?.any fun delta => offset < delta.inputOffset + delta.bytesDeleted) = true := by
  rcases List.eq_nil_or_concat deltas with rfl | ⟨before, last, rfl⟩
  · constructor
    · rintro ⟨delta, hdelta, -⟩
      cases hdelta
    · intro h
      cases h
  · rw [List.concat_eq_append] at hspaced hstart ⊢
    rw [List.getLast?_concat, Option.any_some, decide_eq_true_iff]
    constructor
    · rintro ⟨delta, hdelta, hend⟩
      rcases List.mem_append.1 hdelta with hdelta | hdelta
      · have hbefore : Spaced delta.raw last.raw :=
          (List.pairwise_append.1 hspaced).2.2 delta hdelta last (List.mem_singleton_self _)
        have hle : delta.inputOffset + delta.bytesDeleted ≤ last.inputOffset := hbefore.2
        have := hstart last (List.mem_append_right _ (List.mem_singleton_self _))
        omega
      · obtain rfl := List.mem_singleton.1 hdelta
        exact hend
    · intro hend
      exact ⟨last, List.mem_append_right _ (List.mem_singleton_self _), hend⟩

theorem deletesInputOffset_iff (offset : ℕ) :
    self.deletesInputOffset offset = true ↔ Deleted deletions offset := by
  have hdeltas : self.deltas.Pairwise fun a b => Spaced a.raw b.raw := List.pairwise_map.1 h.spaced
  have hsorted : self.deltas.Pairwise fun a b =>
      decide (b.inputOffset ≤ offset) = true → decide (a.inputOffset ≤ offset) = true := by
    refine hdeltas.imp fun {a b} hab hb => decide_eq_true ?_
    exact Nat.le_trans (Nat.le_of_lt hab.1) (of_decide_eq_true hb)
  have hsearch : ∀ delta ∈ self.deltas.takeWhile fun delta => delta.inputOffset ≤ offset,
      delta.inputOffset ≤ offset := fun delta hdelta =>
    of_decide_eq_true (List.all_eq_true.1 List.all_takeWhile delta hdelta)
  rw [deletesInputOffset_eq,
    ← covered_iff_last (hdeltas.sublist (List.takeWhile_sublist _)) hsearch]
  constructor
  · rintro ⟨delta, hdelta, hend⟩
    exact ⟨delta.raw, h.raw_mem (List.takeWhile_subset _ hdelta), hsearch delta hdelta, hend⟩
  · rintro ⟨entry, hentry, hstart, hend⟩
    obtain ⟨delta, hdelta, rfl⟩ := List.mem_map.1 (h.perm.mem_iff.2 hentry)
    exact ⟨delta, mem_takeWhile hsorted hdelta (decide_eq_true hstart), hend⟩

end Keeps

/-! ### The cursor -/

/-- The cursor after a query. -/
def cursorAt (deltas : SectionRelaxDeltas) (offset : ℕ) : RelaxCursor :=
  ⟨deltas.deltas, deltas.partitionPoint offset, deltas.cumulativeAt offset⟩

theorem partitionPoint_mono {a b : ℕ} (h : a ≤ b) : self.partitionPoint a ≤ self.partitionPoint b :=
  length_takeWhile_mono fun _ _ hlt =>
    decide_eq_true (Nat.lt_of_lt_of_le (of_decide_eq_true hlt) h)

theorem lt_partitionPoint_iff {index offset : ℕ} (hindex : index ≤ self.partitionPoint offset)
    (h : index < self.deltas.length) : index < self.partitionPoint offset ↔
      (self.deltas.get ⟨index, h⟩).inputOffset < offset :=
  (lt_length_takeWhile_iff hindex h).trans decide_eq_true_iff

theorem advance_eq {index offset : ℕ} (hindex : index ≤ self.partitionPoint offset) :
    RelaxCursor.advance ⟨self.deltas, index, totalBefore self.deltas index⟩ offset =
      self.cursorAt offset := by
  have hend : self.partitionPoint offset ≤ self.deltas.length := (List.takeWhile_prefix _).length_le
  induction hleft : self.partitionPoint offset - index generalizing index with
  | zero =>
    -- the search ends here
    obtain rfl : index = self.partitionPoint offset := by omega
    have hcursor : (⟨self.deltas, self.partitionPoint offset,
        totalBefore self.deltas (self.partitionPoint offset)⟩ : RelaxCursor) =
        self.cursorAt offset := by
      rw [cursorAt, cumulativeAt_eq_totalBefore]
    rw [RelaxCursor.advance]
    split
    case isTrue hlt =>
      have hstop := mt (lt_partitionPoint_iff hindex hlt).2 (Nat.lt_irrefl _)
      rw [if_neg hstop, hcursor]
    case isFalse => exact hcursor
  | succ left ih =>
    have hlt : index < self.deltas.length := by omega
    have hgo := (lt_partitionPoint_iff hindex hlt).1 (by omega)
    have htotal : (self.deltas.get ⟨index, hlt⟩).cumulativeDeleted =
        totalBefore self.deltas (index + 1) := by
      rw [totalBefore, List.getElem?_eq_getElem hlt]
      rfl
    rw [RelaxCursor.advance, dif_pos hlt, if_pos hgo]
    show RelaxCursor.advance ⟨self.deltas, index + 1,
      (self.deltas.get ⟨index, hlt⟩).cumulativeDeleted⟩ offset = self.cursorAt offset
    rw [htotal]
    exact ih (by omega) (by omega)

theorem advance_cursorAt {before offset : ℕ} (h : before ≤ offset) :
    (self.cursorAt before).advance offset = self.cursorAt offset := by
  exact advance_eq (partitionPoint_mono h)

theorem cursor_eq : self.cursor = self.cursorAt 0 := by
  have hfirst : self.partitionPoint 0 = 0 := by
    unfold partitionPoint
    cases self.deltas with
    | nil => rfl
    | cons delta deltas => rw [List.takeWhile_cons_of_neg (by simp), List.length_nil]
  rw [cursorAt, cumulativeAt_eq_totalBefore, hfirst]
  rfl

theorem translateAll_cursorAt {before : ℕ} {offsets : List ℕ}
    (h : (before :: offsets).Pairwise (· ≤ ·)) :
    (self.cursorAt before).translateAll offsets = offsets.map self.inputToOutputOffset := by
  induction offsets generalizing before with
  | nil => rfl
  | cons offset offsets ih =>
    obtain ⟨hbefore, hoffsets⟩ := pairwise_cons.1 h
    have hnext : (self.cursorAt before).advance offset = self.cursorAt offset :=
      advance_cursorAt (hbefore offset mem_cons_self)
    rw [RelaxCursor.translateAll, RelaxCursor.translate, hnext, ih hoffsets]
    rfl

/-! ## All lookups together -/

/-- What the deltas of the ranges `deletions` answer. -/
structure Consistent (deltas : SectionRelaxDeltas) (deletions : List (ℕ × ℕ)) : Prop where
  /-- Only a byte of a deleted range is deleted. -/
  deleted : ∀ offset, deltas.deletesInputOffset offset = true ↔ Deleted deletions offset
  /-- No subtraction underflows. -/
  total_le : ∀ offset, ¬ StrictlyInside deletions offset → deltas.cumulativeAt offset ≤ offset
  start_le : ∀ delta ∈ deltas.deltas, delta.cumulativeDeleted ≤ delta.inputOffset + delta.bytesDeleted
  /-- The output has the bytes that are kept. -/
  kept : ∀ offset, ¬ StrictlyInside deletions offset →
    deltas.inputToOutputOffset offset = keptBefore deletions offset
  monotone : ∀ a b, ¬ StrictlyInside deletions a → ¬ StrictlyInside deletions b → a ≤ b →
    deltas.inputToOutputOffset a ≤ deltas.inputToOutputOffset b
  back : ∀ offset, ¬ Deleted deletions offset →
    deltas.outputToInputOffset (deltas.inputToOutputOffset offset) = offset
  /-- A binary search for a place in the output finds its end. -/
  searchable : deltas.deltas.Pairwise fun a b => a.outputStart ≤ b.outputStart
  cursor : ∀ offsets : List ℕ, offsets.Pairwise (· ≤ ·) →
    deltas.cursor.translateAll offsets = offsets.map deltas.inputToOutputOffset

theorem Keeps.consistent (h : self.Keeps deletions) : self.Consistent deletions where
  deleted := h.deletesInputOffset_iff
  total_le offset hoff := by
    have := deletedBefore_add_keptBefore h.apart hoff
    rw [h.cumulativeAt_eq]
    omega
  start_le delta hdelta := by
    have := deletedBefore_add_keptBefore h.apart (start_not_strictlyInside h.apart (h.raw_mem hdelta))
    have htotal := h.cumulativeDeleted_eq hdelta
    simp only [RelaxDelta.raw] at this
    omega
  kept _ hoff := h.inputToOutputOffset_eq hoff
  monotone a b ha hb hab := by
    rw [h.inputToOutputOffset_eq ha, h.inputToOutputOffset_eq hb]
    exact Nat.count_monotone _ hab
  back offset hoff := by
    rw [h.inputToOutputOffset_eq (not_strictlyInside_of_not_deleted hoff),
      h.outputToInputOffset_eq hoff]
  searchable := by
    have hspaced : self.deltas.Pairwise fun a b => Spaced a.raw b.raw :=
      List.pairwise_map.1 h.spaced
    refine hspaced.imp_of_mem fun {a b} ha hb hab => ?_
    rw [h.outputStart_eq ha, h.outputStart_eq hb]
    exact Nat.count_monotone _ (Nat.le_of_lt hab.1)
  cursor offsets hoffsets := by
    rw [cursor_eq]
    exact translateAll_cursorAt (pairwise_cons.2 ⟨fun _ _ => Nat.zero_le _, hoffsets⟩)

theorem Keeps.mergeAdditional (h : self.Keeps deletions) {additional : List (ℕ × ℕ)}
    (hapart : Apart (deletions ++ additional)) :
    (self.mergeAdditional additional).Keeps (deletions ++ additional) where
  apart := hapart
  perm := (self.perm_mergeAdditional additional).trans (h.perm.append_right additional)
  sorted := by
    unfold SectionRelaxDeltas.mergeAdditional
    split
    · exact h.sorted
    · rw [raw_new]
      exact List.pairwise_insertionSort (fun a b : ℕ × ℕ => a.1 ≤ b.1) _

theorem keeps_new {raw : List (ℕ × ℕ)} (hascending : Ascending raw) (hapart : Apart raw) :
    (new raw).Keeps raw where
  apart := hapart
  sorted := by
    rw [raw_new]
    exact hascending.imp Nat.le_of_lt
  perm := by rw [raw_new]

theorem keeps_merged {batches : List (List (ℕ × ℕ))} (h : self.Keeps deletions)
    (hapart : Apart (deletions ++ batches.flatten)) :
    (batches.foldl SectionRelaxDeltas.mergeAdditional self).Keeps
      (deletions ++ batches.flatten) := by
  induction batches generalizing self deletions with
  | nil =>
    rw [List.flatten_nil, List.append_nil]
    exact h
  | cons additional batches ih =>
    rw [List.flatten_cons, ← List.append_assoc] at hapart ⊢
    rw [List.foldl_cons]
    refine ih (h.mergeAdditional ?_) hapart
    exact hapart.sublist (List.sublist_append_left _ _)

/-- **Every lookup agrees with the deleted bytes**, for ascending ranges that do not
overlap and after any batches of further ones. -/
theorem lookups_consistent {raw : List (ℕ × ℕ)} {batches : List (List (ℕ × ℕ))}
    (hascending : Ascending raw) (hapart : Apart (raw ++ batches.flatten)) :
    (batches.foldl SectionRelaxDeltas.mergeAdditional (new raw)).Consistent
      (raw ++ batches.flatten) :=
  (keeps_merged (keeps_new hascending
    (hapart.sublist (List.sublist_append_left _ _))) hapart).consistent

/-- A deletion at offset zero, one right after it, and a batch around a third. -/
theorem adjacent_lookups_consistent :
    ([[(12, 2), (8, 2)]].foldl SectionRelaxDeltas.mergeAdditional
      (new [(0, 4), (4, 2), (10, 2)])).Consistent
        ([(0, 4), (4, 2), (10, 2)] ++ [[(12, 2), (8, 2)]].flatten) :=
  lookups_consistent (by unfold Ascending; decide) (by unfold Apart Spaced; decide)

end SectionRelaxDeltas

end Sld.Layout
