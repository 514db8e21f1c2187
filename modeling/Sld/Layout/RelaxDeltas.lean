/-
# `Layout.RelaxDeltas` — bytes that relaxation deletes from a section

The deletions of one section are kept sorted by their offset in the input
section, each with the total deleted up to and including itself.  What the
rest of the linker asks of them is a sum over the deletions before an offset
(`deletedBefore`); the running totals answer it (`inputToOutputOffset_eq`).
-/
import Mathlib.Algebra.BigOperators.Ring.List
import Mathlib.Algebra.Order.BigOperators.Group.List
import Mathlib.Algebra.Order.Group.Nat
import Mathlib.Algebra.Ring.Nat
import Mathlib.Data.List.Sort

namespace Sld.Layout

structure RelaxDelta where
  inputOffset : ℕ
  cumulativeDeleted : ℕ
  bytesDeleted : ℕ
deriving DecidableEq

/-- The loop of `SectionRelaxDeltas::new`. -/
def accumulate (running : ℕ) : List (ℕ × ℕ) → List RelaxDelta
  | [] => []
  | (inputOffset, bytesDeleted) :: raw =>
    ⟨inputOffset, running + bytesDeleted, bytesDeleted⟩ ::
      accumulate (running + bytesDeleted) raw

def RelaxDelta.raw (delta : RelaxDelta) : ℕ × ℕ := (delta.inputOffset, delta.bytesDeleted)

@[simp] theorem map_raw_accumulate (running : ℕ) (raw : List (ℕ × ℕ)) :
    (accumulate running raw).map RelaxDelta.raw = raw := by
  induction raw generalizing running with
  | nil => rfl
  | cons entry raw ih => simp [accumulate, RelaxDelta.raw, ih]

/-- The totals are those of the deletions, in this order. -/
structure SectionRelaxDeltas where
  deltas : List RelaxDelta
  cumulative : deltas = accumulate 0 (deltas.map RelaxDelta.raw)

/-- What the debug assertions of `new` and `merge_additional` say. -/
def Ascending (raw : List (ℕ × ℕ)) : Prop :=
  raw.Pairwise fun a b => a.1 < b.1

namespace SectionRelaxDeltas

def new (raw : List (ℕ × ℕ)) : SectionRelaxDeltas :=
  ⟨accumulate 0 raw, by rw [map_raw_accumulate]⟩

variable (self : SectionRelaxDeltas)

def raw : List (ℕ × ℕ) := self.deltas.map RelaxDelta.raw

@[simp] theorem raw_new (raw : List (ℕ × ℕ)) : (new raw).raw = raw :=
  map_raw_accumulate 0 raw

/-- The pairs are sorted by their offset, and sorting is stable. -/
def mergeAdditional (additional : List (ℕ × ℕ)) : SectionRelaxDeltas :=
  match additional with
  | [] => self
  | _ => new ((self.raw ++ additional).insertionSort fun a b => a.1 ≤ b.1)

/-- A binary search, which finds an entry of a sorted list if there is one. -/
def hasDeltaAt (offset : ℕ) : Bool :=
  self.deltas.any fun delta => delta.inputOffset == offset

def deltaBytesAt (offset : ℕ) : ℕ :=
  match self.deltas.find? fun delta => delta.inputOffset == offset with
  | some delta => delta.bytesDeleted
  | none => 0

/-- `partition_point`: the entries strictly before the offset. -/
def partitionPoint (inputOffset : ℕ) : ℕ :=
  (self.deltas.takeWhile fun delta => delta.inputOffset < inputOffset).length

/-- The total of the entry before the partition point. -/
def cumulativeAt (inputOffset : ℕ) : ℕ :=
  match self.partitionPoint inputOffset with
  | 0 => 0
  | idx + 1 => (self.deltas[idx]?.map RelaxDelta.cumulativeDeleted).getD 0

def inputToOutputOffset (inputOffset : ℕ) : ℕ :=
  inputOffset - self.cumulativeAt inputOffset

end SectionRelaxDeltas

/-! ## The running totals are sums over the deletions before an offset -/

def deletedBefore (raw : List (ℕ × ℕ)) (offset : ℕ) : ℕ :=
  ((raw.filter fun entry => entry.1 < offset).map Prod.snd).sum

@[simp] theorem deletedBefore_nil (offset : ℕ) : deletedBefore [] offset = 0 := rfl

@[simp] theorem deletedBefore_append (raw additional : List (ℕ × ℕ)) (offset : ℕ) :
    deletedBefore (raw ++ additional) offset =
      deletedBefore raw offset + deletedBefore additional offset := by
  simp [deletedBefore]

variable {raw : List (ℕ × ℕ)}

theorem deletedBefore_perm {raw' : List (ℕ × ℕ)} (h : raw.Perm raw') (offset : ℕ) :
    deletedBefore raw offset = deletedBefore raw' offset :=
  ((h.filter _).map _).sum_eq

variable {offset : ℕ}

theorem deletedBefore_of_lt (h : ∀ entry ∈ raw, entry.1 < offset) :
    deletedBefore raw offset = (raw.map Prod.snd).sum := by
  have hfilter : raw.filter (fun entry => entry.1 < offset) = raw :=
    List.filter_eq_self.2 fun entry hentry => decide_eq_true (h entry hentry)
  rw [deletedBefore, hfilter]

theorem deletedBefore_of_le
    (h : ∀ entry ∈ raw, offset ≤ entry.1) : deletedBefore raw offset = 0 := by
  have hfilter : raw.filter (fun entry => entry.1 < offset) = [] :=
    List.filter_eq_nil_iff.2 fun entry hentry => by
      have := h entry hentry
      simpa using this
  rw [deletedBefore, hfilter]
  rfl

theorem deletedBefore_cons (entry : ℕ × ℕ) (raw : List (ℕ × ℕ)) (offset : ℕ) :
    deletedBefore (entry :: raw) offset =
      (if entry.1 < offset then entry.2 else 0) + deletedBefore raw offset := by
  by_cases h : entry.1 < offset <;> simp [deletedBefore, h]

theorem dvd_deletedBefore {granule : ℕ}
    (h : ∀ entry ∈ raw, granule ∣ entry.2) (offset : ℕ) : granule ∣ deletedBefore raw offset := by
  refine List.dvd_sum ?_
  intro bytes hbytes
  obtain ⟨entry, hentry, rfl⟩ := List.mem_map.1 hbytes
  exact h entry (List.mem_of_mem_filter hentry)

/-- What is deleted from one offset up to another. -/
def deletedBetween (raw : List (ℕ × ℕ)) (start stop : ℕ) : ℕ :=
  ((raw.filter fun entry => start ≤ entry.1 ∧ entry.1 < stop).map Prod.snd).sum

theorem deletedBefore_eq_add_between (raw : List (ℕ × ℕ)) {start stop : ℕ} (h : start ≤ stop) :
    deletedBefore raw stop = deletedBefore raw start + deletedBetween raw start stop := by
  induction raw with
  | nil => rfl
  | cons entry raw ih =>
    have hbetween : deletedBetween (entry :: raw) start stop =
        (if start ≤ entry.1 ∧ entry.1 < stop then entry.2 else 0) +
          deletedBetween raw start stop := by
      by_cases hentry : start ≤ entry.1 ∧ entry.1 < stop <;> simp [deletedBetween, hentry]
    rw [deletedBefore_cons, deletedBefore_cons, hbetween]
    split <;> split <;> split <;> omega

theorem deletedBetween_eq_zero {start stop : ℕ}
    (h : ∀ entry ∈ raw, entry.1 < start ∨ stop ≤ entry.1) : deletedBetween raw start stop = 0 := by
  have hfilter : raw.filter (fun entry => start ≤ entry.1 ∧ entry.1 < stop) = [] :=
    List.filter_eq_nil_iff.2 fun entry hentry => by
      have := h entry hentry
      simp only [decide_eq_true_eq]
      omega
  rw [deletedBetween, hfilter]
  rfl

/-- Two deletions, the second after all of the first. -/
def Spaced (a b : ℕ × ℕ) : Prop := a.1 < b.1 ∧ a.1 + a.2 ≤ b.1

theorem ascending_of_spaced (h : raw.Pairwise Spaced) : Ascending raw := h.imp fun hab => hab.1

theorem deletedBefore_add_le (h : raw.Pairwise Spaced)
    (hends : ∀ entry ∈ raw, entry.1 < offset → entry.1 + entry.2 ≤ offset) {lower : ℕ}
    (hlower : ∀ entry ∈ raw, lower ≤ entry.1) (hle : lower ≤ offset) :
    deletedBefore raw offset + lower ≤ offset := by
  induction raw generalizing lower with
  | nil => simpa using hle
  | cons entry raw ih =>
    obtain ⟨hentry, hraw⟩ := List.pairwise_cons.1 h
    have hends' := fun later hlater => hends later (List.mem_cons_of_mem _ hlater)
    have hfirst := hlower entry List.mem_cons_self
    rw [deletedBefore_cons]
    split
    case isTrue hlt =>
      have := ih hraw hends' (fun later hlater => (hentry later hlater).2)
        (hends entry List.mem_cons_self hlt)
      omega
    case isFalse =>
      have := ih hraw hends' (fun later hlater => hlower later (List.mem_cons_of_mem _ hlater)) hle
      omega

theorem deletedBefore_le (h : raw.Pairwise Spaced)
    (hends : ∀ entry ∈ raw, entry.1 < offset → entry.1 + entry.2 ≤ offset) :
    deletedBefore raw offset ≤ offset :=
  deletedBefore_add_le h hends (fun _ _ => Nat.zero_le _) (Nat.zero_le _)

theorem deletedBetween_le {start stop : ℕ} (h : raw.Pairwise Spaced)
    (hle : start ≤ stop) (hends : ∀ entry ∈ raw, entry.1 < stop → entry.1 + entry.2 ≤ stop) :
    deletedBetween raw start stop ≤ stop - start := by
  have hfilter : deletedBetween raw start stop =
      deletedBefore (raw.filter fun entry => start ≤ entry.1) stop := by
    rw [deletedBetween, deletedBefore, List.filter_filter]
    simp only [Bool.decide_and, Bool.and_comm]
  have hlower : ∀ entry ∈ raw.filter (fun entry => start ≤ entry.1), start ≤ entry.1 :=
    fun entry hentry => by simpa using List.of_mem_filter hentry
  have := deletedBefore_add_le (h.sublist List.filter_sublist)
    (fun entry hentry => hends entry (List.mem_of_mem_filter hentry)) hlower hle
  omega

theorem deletedBetween_append (raw additional : List (ℕ × ℕ)) (start stop : ℕ) :
    deletedBetween (raw ++ additional) start stop =
      deletedBetween raw start stop + deletedBetween additional start stop := by
  simp [deletedBetween]

theorem deletedBetween_perm {raw' : List (ℕ × ℕ)} (h : raw.Perm raw') (start stop : ℕ) :
    deletedBetween raw start stop = deletedBetween raw' start stop :=
  ((h.filter _).map _).sum_eq

theorem getElem?_cumulative_accumulate (running : ℕ) {idx : ℕ} (h : idx < raw.length) :
    (accumulate running raw)[idx]?.map RelaxDelta.cumulativeDeleted =
      some (running + ((raw.take (idx + 1)).map Prod.snd).sum) := by
  induction raw generalizing running idx with
  | nil => exact absurd h (Nat.not_lt_zero idx)
  | cons entry raw ih =>
    cases idx with
    | zero => simp [accumulate]
    | succ idx =>
      have := ih (running + entry.2) (Nat.lt_of_succ_lt_succ h)
      rw [accumulate, List.getElem?_cons_succ, this, List.take_succ_cons, List.map_cons,
        List.sum_cons, Nat.add_assoc]

theorem takeWhile_map_raw (deltas : List RelaxDelta) (offset : ℕ) :
    (deltas.map RelaxDelta.raw).takeWhile (fun entry => entry.1 < offset) =
      (deltas.takeWhile fun delta => delta.inputOffset < offset).map RelaxDelta.raw := by
  rw [List.takeWhile_map]
  rfl

theorem filter_eq_takeWhile (h : Ascending raw) (offset : ℕ) :
    raw.filter (fun entry => entry.1 < offset) = raw.takeWhile fun entry => entry.1 < offset := by
  induction raw with
  | nil => rfl
  | cons entry raw ih =>
    obtain ⟨hentry, hraw⟩ := List.pairwise_cons.1 h
    by_cases hlt : entry.1 < offset
    · rw [List.filter_cons_of_pos (by simpa using hlt),
        List.takeWhile_cons_of_pos (by simpa using hlt), ih hraw]
    · rw [List.takeWhile_cons_of_neg (by simpa using hlt), List.filter_eq_nil_iff]
      intro later hlater
      rcases List.mem_cons.1 hlater with rfl | hlater
      · simpa using hlt
      · have := hentry later hlater
        simp only [decide_eq_true_eq]
        omega

namespace SectionRelaxDeltas

variable {self : SectionRelaxDeltas}

theorem cumulativeAt_eq (h : Ascending self.raw) (offset : ℕ) :
    self.cumulativeAt offset = deletedBefore self.raw offset := by
  have hlen : self.partitionPoint offset =
      (self.raw.takeWhile fun entry => entry.1 < offset).length := by
    rw [raw, takeWhile_map_raw, List.length_map]
    rfl
  have htake : self.raw.take (self.partitionPoint offset) =
      self.raw.takeWhile fun entry => entry.1 < offset := by
    rw [hlen]
    exact (List.prefix_iff_eq_take.1 (List.takeWhile_prefix _)).symm
  rw [deletedBefore, filter_eq_takeWhile h, ← htake]
  unfold cumulativeAt
  split
  case h_1 h0 => simp [h0]
  case h_2 idx hidx =>
    rw [hidx]
    have hlt : idx < self.raw.length := by
      have hle := (List.takeWhile_prefix (l := self.raw) fun entry => entry.1 < offset).length_le
      omega
    have := getElem?_cumulative_accumulate 0 hlt
    rw [raw, ← self.cumulative] at this
    rw [this, Nat.zero_add]
    rfl

theorem inputToOutputOffset_eq (h : Ascending self.raw) (offset : ℕ) :
    self.inputToOutputOffset offset = offset - deletedBefore self.raw offset := by
  rw [inputToOutputOffset, cumulativeAt_eq h]

theorem hasDeltaAt_iff (offset : ℕ) :
    self.hasDeltaAt offset = true ↔ ∃ bytes, (offset, bytes) ∈ self.raw := by
  simp only [hasDeltaAt, List.any_eq_true, beq_iff_eq, raw, List.mem_map, RelaxDelta.raw,
    Prod.mk.injEq]
  constructor
  · rintro ⟨delta, hdelta, rfl⟩
    exact ⟨delta.bytesDeleted, delta, hdelta, rfl, rfl⟩
  · rintro ⟨_, delta, hdelta, hoff, -⟩
    exact ⟨delta, hdelta, hoff⟩

theorem perm_mergeAdditional (self : SectionRelaxDeltas) (additional : List (ℕ × ℕ)) :
    (self.mergeAdditional additional).raw.Perm (self.raw ++ additional) := by
  unfold mergeAdditional
  split
  · rw [List.append_nil]
  · rw [raw_new]
    exact List.perm_insertionSort _ _

theorem spaced_mergeAdditional (h : self.raw.Pairwise Spaced) {additional : List (ℕ × ℕ)}
    (hadditional : additional.Pairwise Spaced)
    (hnew : ∀ old ∈ self.raw, ∀ entry ∈ additional, Spaced old entry ∨ Spaced entry old) :
    (self.mergeAdditional additional).raw.Pairwise Spaced := by
  have happart : (self.raw ++ additional).Pairwise fun a b => Spaced a b ∨ Spaced b a :=
    List.pairwise_append.2 ⟨h.imp fun hab => .inl hab, hadditional.imp fun hab => .inl hab, hnew⟩
  unfold mergeAdditional
  split
  · exact h
  · rw [raw_new]
    have hsorted := List.pairwise_insertionSort (fun a b : ℕ × ℕ => a.1 ≤ b.1)
      (self.raw ++ additional)
    have hperm := List.perm_insertionSort (fun a b : ℕ × ℕ => a.1 ≤ b.1) (self.raw ++ additional)
    have hsame := (hperm.pairwise_iff (fun {a b} hab => Or.symm hab)).2 happart
    refine (hsorted.and hsame).imp ?_
    rintro a b ⟨hle, hab | hba⟩
    · exact hab
    · exact absurd hba.1 (Nat.not_lt.2 hle)

end SectionRelaxDeltas

end Sld.Layout
