/-
# `Store.Masks` — files with ranges blanked out

A file is read with zeroes in place of some ranges.  Two files that read the
same are of one length and differ only inside the ranges of the one or of the
other (`agree_of_masked_eq`); what is read of them outside the ranges is the
same.

    ByteRange              from `start` up to `stop`
    InOrder                ranges one behind the other, within a length
    masked                 the bytes, with zeroes in the ranges
    Agree                  the same bytes at some places
-/
import Mathlib.Algebra.Order.Group.Nat
import Mathlib.Data.List.Basic

namespace Sld.Store

/-- A range of a file, without its end. -/
structure ByteRange where
  start : ℕ
  stop : ℕ
deriving DecidableEq

namespace ByteRange

def Covers (range : ByteRange) (p : ℕ) : Prop := range.start ≤ p ∧ p < range.stop

instance (range : ByteRange) (p : ℕ) : Decidable (range.Covers p) :=
  inferInstanceAs (Decidable (_ ∧ _))

/-- The range, of a part of a file that begins at an offset. -/
def shift (offset : ℕ) (range : ByteRange) : ByteRange :=
  ⟨offset + range.start, offset + range.stop⟩

theorem covers_shift {offset p : ℕ} {range : ByteRange} :
    (range.shift offset).Covers (offset + p) ↔ range.Covers p := by
  unfold Covers shift
  simp only [Nat.add_le_add_iff_left, Nat.add_lt_add_iff_left]

/-- One range lies inside another. -/
def Inside (range other : ByteRange) : Prop := other.start ≤ range.start ∧ range.stop ≤ other.stop

theorem Inside.covers {range other : ByteRange} {p : ℕ} (h : range.Inside other)
    (hp : range.Covers p) : other.Covers p :=
  ⟨h.1.trans hp.1, Nat.lt_of_lt_of_le hp.2 h.2⟩

/-- No place is in both. -/
def Apart (range other : ByteRange) : Prop := ∀ p, range.Covers p → ¬other.Covers p

end ByteRange

/-- Some range of a list covers the place. -/
def Covered (ranges : List ByteRange) (p : ℕ) : Prop := ∃ range ∈ ranges, range.Covers p

instance (ranges : List ByteRange) (p : ℕ) : Decidable (Covered ranges p) :=
  inferInstanceAs (Decidable (∃ range ∈ ranges, range.Covers p))

variable {ranges : List ByteRange}

theorem Covered.mono {other : List ByteRange} {p : ℕ} (h : Covered ranges p)
    (hsub : ranges ⊆ other) : Covered other p := by
  obtain ⟨range, hrange, hp⟩ := h
  exact ⟨range, hsub hrange, hp⟩

/-- The ranges follow each other from a position on, and end within a length. -/
def InOrder (length : ℕ) : ℕ → List ByteRange → Prop
  | position, [] => position ≤ length
  | position, range :: ranges =>
    position ≤ range.start ∧ range.start ≤ range.stop ∧ InOrder length range.stop ranges

variable {length position : ℕ}

theorem InOrder.le (h : InOrder length position ranges) : position ≤ length := by
  induction ranges generalizing position with
  | nil => exact h
  | cons range ranges ih => exact h.1.trans (h.2.1.trans (ih h.2.2))

/-- The bytes behind a position, with zeroes in the ranges. -/
def masked (bytes : List UInt8) : ℕ → List ByteRange → List UInt8
  | position, [] => bytes.drop position
  | position, range :: ranges =>
    (bytes.drop position).take (range.start - position) ++
      (List.replicate (range.stop - range.start) 0 ++ masked bytes range.stop ranges)

variable {bytes : List UInt8}

theorem length_masked (h : InOrder bytes.length position ranges) :
    (masked bytes position ranges).length = bytes.length - position := by
  induction ranges generalizing position with
  | nil => exact List.length_drop
  | cons range ranges ih =>
    obtain ⟨hstart, hstop, hrest⟩ := h
    have hle := hrest.le
    rw [masked, List.length_append, List.length_append, List.length_take, List.length_drop,
      List.length_replicate, ih hrest]
    omega

theorem getElem?_masked {p : ℕ}
    (h : InOrder bytes.length position ranges) (hp : ¬Covered ranges (position + p)) :
    (masked bytes position ranges)[p]? = bytes[position + p]? := by
  induction ranges generalizing position p with
  | nil => exact List.getElem?_drop
  | cons range ranges ih =>
    obtain ⟨hstart, hstop, hrest⟩ := h
    have hle := hrest.le
    have hcovers : ¬range.Covers (position + p) := fun hcovers =>
      hp ⟨range, List.mem_cons_self, hcovers⟩
    have hothers : ¬Covered ranges (position + p) := fun hcovered =>
      hp (hcovered.mono (List.subset_cons_self _ _))
    have htaken : ((bytes.drop position).take (range.start - position)).length =
        range.start - position := by
      rw [List.length_take, List.length_drop]
      omega
    rw [masked]
    rcases Nat.lt_or_ge (position + p) range.start with hlt | hge
    · rw [List.getElem?_append_left (by omega), List.getElem?_take_of_lt (by omega),
        List.getElem?_drop]
    · have hafter : range.stop ≤ position + p := by
        by_contra hlt
        exact hcovers ⟨hge, by omega⟩
      have hsplit : position + p = range.stop + (position + p - range.stop) := by omega
      rw [List.getElem?_append_right (by omega), htaken,
        List.getElem?_append_right (by rw [List.length_replicate]; omega),
        List.length_replicate]
      have hindex : p - (range.start - position) - (range.stop - range.start) =
          position + p - range.stop := by omega
      rw [hindex, ih hrest (by rw [← hsplit]; exact hothers), ← hsplit]

/-! ## Agreement -/

/-- Two files have the same bytes at some places. -/
def Agree (bytes other : List UInt8) (places : ℕ → Prop) : Prop :=
  ∀ p, places p → bytes[p]? = other[p]?

theorem agree_of_masked_eq {other : List UInt8} {others : List ByteRange}
    (hranges : InOrder bytes.length 0 ranges) (hothers : InOrder other.length 0 others)
    (h : masked bytes 0 ranges = masked other 0 others) :
    bytes.length = other.length ∧
      Agree bytes other fun p => ¬Covered ranges p ∧ ¬Covered others p := by
  constructor
  · have hlen := congrArg List.length h
    rw [length_masked hranges, length_masked hothers] at hlen
    exact hlen
  · rintro p ⟨hp, hp'⟩
    have hget := congrArg (fun bytes : List UInt8 => bytes[p]?) h
    rw [getElem?_masked hranges (by rwa [Nat.zero_add]),
      getElem?_masked hothers (by rwa [Nat.zero_add]), Nat.zero_add] at hget
    exact hget

/-- A part of a file. -/
def part (bytes : List UInt8) (offset length : ℕ) : List UInt8 := (bytes.drop offset).take length

theorem getElem?_part {offset p : ℕ} (h : p < length) :
    (part bytes offset length)[p]? = bytes[offset + p]? := by
  rw [part, List.getElem?_take_of_lt h, List.getElem?_drop]

theorem length_part {offset : ℕ}
    (h : offset + length ≤ bytes.length) : (part bytes offset length).length = length := by
  rw [part, List.length_take, List.length_drop]
  omega

theorem part_eq_of_agree {other : List UInt8} {offset : ℕ}
    (h : Agree bytes other fun p => offset ≤ p ∧ p < offset + length) :
    part bytes offset length = part other offset length := by
  refine List.ext_getElem? fun p => ?_
  rcases Nat.lt_or_ge p length with hlt | hge
  · rw [getElem?_part hlt, getElem?_part hlt]
    exact h (offset + p) ⟨by omega, by omega⟩
  · unfold part
    rw [List.getElem?_eq_none ((List.length_take_le _ _).trans hge),
      List.getElem?_eq_none ((List.length_take_le _ _).trans hge)]

end Sld.Store
