/-
# `Store.Entries` — entries that say how long they are

An entry begins with its length, which does not count the field that holds
it; a length of zero ends the sequence.  Where entries are put one after the
other, with an end behind them, a walk finds them again
(`walk_flatten_append`), and what it finds lies one after the other
(`walk_eq_some`).
-/
import Mathlib.Algebra.Order.Group.Nat
import Sld.Store.Patches

namespace Sld.Store.Entries

open List (append_assoc flatten_cons length_append)

variable {α : Type*} (read : List α → ℕ) (width : ℕ)

/-- The length at the front. -/
def lengthOf (bytes : List α) : ℕ := read (bytes.take width)

/-- An entry, with its length. -/
structure IsEntry (entry : List α) : Prop where
  width_le : width ≤ entry.length
  pos : 0 < lengthOf read width entry
  length_eq : entry.length = lengthOf read width entry + width

/-- The end of a sequence. -/
structure IsEnd (bytes : List α) : Prop where
  width_le : width ≤ bytes.length
  zero : lengthOf read width bytes = 0

/-- The entries up to the end, if there is one. -/
def walkFrom : ℕ → List α → Option (List (List α))
  | 0, _ => none
  | fuel + 1, bytes =>
    if bytes.length < width then none
    else if lengthOf read width bytes = 0 then some []
    else if bytes.length < lengthOf read width bytes + width then none
    else (bytes.take (lengthOf read width bytes + width) :: ·) <$>
      walkFrom fuel (bytes.drop (lengthOf read width bytes + width))

def walk (bytes : List α) : Option (List (List α)) := walkFrom read width (bytes.length + 1) bytes

variable {read width} {bytes entry rest : List α} {entries : List (List α)} {fuel : ℕ}

theorem lengthOf_append (h : width ≤ bytes.length) :
    lengthOf read width (bytes ++ rest) = lengthOf read width bytes := by
  rw [lengthOf, List.take_append_of_le_length h, lengthOf]

theorem IsEnd.append (h : IsEnd read width bytes) (rest : List α) :
    IsEnd read width (bytes ++ rest) := by
  refine ⟨?_, (lengthOf_append h.width_le).trans h.zero⟩
  rw [length_append]
  exact h.width_le.trans (Nat.le_add_right _ _)

theorem walkFrom_of_isEnd (h : IsEnd read width bytes) :
    walkFrom read width (fuel + 1) bytes = some [] := by
  rw [walkFrom, if_neg (Nat.not_lt.mpr h.width_le), if_pos h.zero]

theorem walkFrom_entry (h : IsEntry read width entry) :
    walkFrom read width (fuel + 1) (entry ++ rest) =
      (entry :: ·) <$> walkFrom read width fuel rest := by
  have hlen : lengthOf read width (entry ++ rest) + width = entry.length := by
    rw [lengthOf_append h.width_le, ← h.length_eq]
  have hpos : lengthOf read width (entry ++ rest) ≠ 0 := by
    rw [lengthOf_append h.width_le]
    exact h.pos.ne'
  have hle : entry.length ≤ (entry ++ rest).length := by
    rw [length_append]
    exact Nat.le_add_right _ _
  rw [walkFrom, if_neg (Nat.not_lt.mpr (h.width_le.trans hle)), if_neg hpos, hlen,
    if_neg (Nat.not_lt.mpr hle), List.take_left, List.drop_left]

theorem length_le_length_flatten (h : ∀ e ∈ entries, IsEntry read width e) :
    entries.length ≤ entries.flatten.length := by
  induction entries with
  | nil => exact Nat.le_refl _
  | cons entry entries ih =>
    obtain ⟨hentry, hentries⟩ := List.forall_mem_cons.mp h
    have hpos := hentry.pos
    have hlen := hentry.length_eq
    have hrest := ih hentries
    rw [List.length_cons, flatten_cons, length_append]
    omega

theorem walkFrom_flatten_append (h : ∀ e ∈ entries, IsEntry read width e)
    (hend : IsEnd read width rest) (hfuel : entries.length < fuel) :
    walkFrom read width fuel (entries.flatten ++ rest) = some entries := by
  induction entries generalizing fuel with
  | nil =>
    cases fuel with
    | zero => exact absurd hfuel (Nat.not_lt_zero _)
    | succ fuel => exact walkFrom_of_isEnd hend
  | cons entry entries ih =>
    cases fuel with
    | zero => exact absurd hfuel (Nat.not_lt_zero _)
    | succ fuel =>
      obtain ⟨hentry, hentries⟩ := List.forall_mem_cons.mp h
      rw [flatten_cons, append_assoc, walkFrom_entry hentry,
        ih hentries (Nat.lt_of_succ_lt_succ hfuel)]
      rfl

theorem walk_flatten_append (h : ∀ e ∈ entries, IsEntry read width e)
    (hend : IsEnd read width rest) : walk read width (entries.flatten ++ rest) = some entries := by
  refine walkFrom_flatten_append h hend (Nat.lt_succ_of_le ?_)
  rw [length_append]
  exact (length_le_length_flatten h).trans (Nat.le_add_right _ _)

theorem walkFrom_eq_some (h : walkFrom read width fuel bytes = some entries) :
    (∀ e ∈ entries, IsEntry read width e) ∧
      ∃ rest, bytes = entries.flatten ++ rest ∧ IsEnd read width rest := by
  induction fuel generalizing bytes entries with
  | zero => cases h
  | succ fuel ih =>
    rw [walkFrom] at h
    split at h
    · cases h
    next hwidth =>
    split at h
    · next hzero =>
      obtain rfl := Option.some.inj h
      exact ⟨fun e he => absurd he List.not_mem_nil, bytes, rfl, ⟨Nat.not_lt.mp hwidth, hzero⟩⟩
    next hpos =>
    split at h
    · cases h
    next hfits =>
      obtain ⟨entries', hwalk, rfl⟩ := Option.map_eq_some_iff.mp h
      obtain ⟨hentries, rest, hrest, hend⟩ := ih hwalk
      have hlen : (bytes.take (lengthOf read width bytes + width)).length =
          lengthOf read width bytes + width := by
        rw [List.length_take]
        omega
      have hfront : lengthOf read width (bytes.take (lengthOf read width bytes + width)) =
          lengthOf read width bytes := by
        rw [lengthOf, List.take_take, Nat.min_eq_left (Nat.le_add_left _ _), lengthOf]
      refine ⟨List.forall_mem_cons.mpr ⟨⟨?_, ?_, ?_⟩, hentries⟩, rest, ?_, hend⟩
      · rw [hlen]
        exact Nat.le_add_left _ _
      · rw [hfront]
        exact Nat.pos_of_ne_zero hpos
      · rw [hlen, hfront]
      · rw [flatten_cons, append_assoc, ← hrest, List.take_append_drop]

theorem walk_eq_some (h : walk read width bytes = some entries) :
    (∀ e ∈ entries, IsEntry read width e) ∧
      ∃ rest, bytes = entries.flatten ++ rest ∧ IsEnd read width rest :=
  walkFrom_eq_some h

variable {k : ℕ}

theorem flatten_eq_of_getElem? (h : entries[k]? = some entry) :
    entries.flatten = (entries.take k).flatten ++ (entry ++ (entries.drop (k + 1)).flatten) := by
  obtain ⟨hk, rfl⟩ := List.getElem?_eq_some_iff.mp h
  rw [← flatten_cons, ← List.drop_eq_getElem_cons hk, ← List.flatten_append, List.take_append_drop]

theorem window_flatten_append (h : entries[k]? = some entry) :
    window (entries.flatten ++ rest) (entries.take k).flatten.length entry.length = entry := by
  rw [window, flatten_eq_of_getElem? h, append_assoc, List.drop_left, append_assoc, List.take_left]

theorem length_take_flatten_le (h : entries[k]? = some entry) :
    (entries.take k).flatten.length + entry.length ≤ entries.flatten.length := by
  rw [flatten_eq_of_getElem? h, length_append, length_append]
  omega

end Sld.Store.Entries
