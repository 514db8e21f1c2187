/-
# `Store.Slices` — buffers that are handed out piece by piece

A slice of a file is cut from the front.  Items that take from one of several
buffers get the bytes behind what the items before them took from it
(`takeAll_spec`), and there are enough of them exactly when the sizes of a
buffer's items add up to no more than its length.
-/
import Mathlib.Algebra.GroupWithZero.Nat
import Mathlib.Algebra.Order.BigOperators.Group.List
import Mathlib.Algebra.Order.Group.Nat

namespace Sld

open Function (update_of_ne update_self)

/-- A range of bytes of a file. -/
structure Slice where
  start : ℕ
  length : ℕ
deriving DecidableEq

namespace Slice

/-- `split_off_mut(..n)`: the first bytes, and what is left. -/
def splitOff (slice : Slice) (n : ℕ) : Option (Slice × Slice) :=
  if n ≤ slice.length then some (⟨slice.start, n⟩, ⟨slice.start + n, slice.length - n⟩) else none

theorem splitOff_of_le {slice : Slice} {n : ℕ} (h : n ≤ slice.length) :
    slice.splitOff n = some (⟨slice.start, n⟩, ⟨slice.start + n, slice.length - n⟩) := if_pos h

theorem splitOff_eq_some {slice taken rest : Slice} {n : ℕ}
    (h : slice.splitOff n = some (taken, rest)) :
    n ≤ slice.length ∧ taken = ⟨slice.start, n⟩ ∧ rest = ⟨slice.start + n, slice.length - n⟩ := by
  unfold splitOff at h
  split at h
  case isTrue hle =>
    cases h
    exact ⟨hle, rfl, rfl⟩
  case isFalse => cases h

def Disjoint (slice other : Slice) : Prop :=
  slice.start + slice.length ≤ other.start ∨ other.start + other.length ≤ slice.start

end Slice

section

variable {ι κ : Type} [DecidableEq κ] (key : ι → κ) (size : ι → ℕ)

/-- What some items take from one buffer. -/
def takenFrom (items : List ι) (buffer : κ) : ℕ :=
  ((items.filter (key · = buffer)).map size).sum

variable {key size}

@[simp] theorem takenFrom_nil (buffer : κ) : takenFrom key size [] buffer = 0 := rfl

theorem takenFrom_cons (item : ι) (items : List ι) (buffer : κ) :
    takenFrom key size (item :: items) buffer =
      (if key item = buffer then size item else 0) + takenFrom key size items buffer := by
  unfold takenFrom
  by_cases h : key item = buffer <;> simp [h]

theorem takenFrom_append (items items' : List ι) (buffer : κ) :
    takenFrom key size (items ++ items') buffer =
      takenFrom key size items buffer + takenFrom key size items' buffer := by
  simp [takenFrom]

variable [DecidableEq ι]

variable (key size) in
/-- One item takes its bytes from the buffer of its key. -/
def takeOne (state : (κ → Slice) × (ι → Slice)) (item : ι) :
    Option ((κ → Slice) × (ι → Slice)) :=
  match (state.1 (key item)).splitOff (size item) with
  | some (taken, rest) =>
    some (Function.update state.1 (key item) rest, Function.update state.2 item taken)
  | none => none

variable (key size) in
def takeAll (items : List ι) (buffers : κ → Slice) : Option ((κ → Slice) × (ι → Slice)) :=
  items.foldlM (takeOne key size) (buffers, fun _ => ⟨0, 0⟩)

theorem takeOne_of_le {state : (κ → Slice) × (ι → Slice)} {item : ι}
    (h : size item ≤ (state.1 (key item)).length) :
    ∃ rest out, takeOne key size state item = some (rest, out) ∧
      (∀ buffer, rest buffer = ⟨(state.1 buffer).start + takenFrom key size [item] buffer,
        (state.1 buffer).length - takenFrom key size [item] buffer⟩) ∧
      out item = ⟨(state.1 (key item)).start, size item⟩ ∧
      ∀ other, other ≠ item → out other = state.2 other := by
  rw [takeOne, Slice.splitOff_of_le h]
  refine ⟨_, _, rfl, ?_, update_self .., fun other hne => update_of_ne hne ..⟩
  intro buffer
  rw [takenFrom_cons, takenFrom_nil, Nat.add_zero]
  by_cases heq : key item = buffer
  · subst heq
    rw [update_self, if_pos rfl]
  · rw [update_of_ne (Ne.symm heq), if_neg heq, Nat.add_zero, Nat.sub_zero]

theorem foldlM_takeOne {items : List ι} {state : (κ → Slice) × (ι → Slice)} (hnodup : items.Nodup)
    (henough : ∀ item ∈ items, takenFrom key size items (key item) ≤ (state.1 (key item)).length) :
    ∃ state', items.foldlM (takeOne key size) state = some state' ∧
      (∀ buffer, state'.1 buffer = ⟨(state.1 buffer).start + takenFrom key size items buffer,
        (state.1 buffer).length - takenFrom key size items buffer⟩) ∧
      (∀ item ∉ items, state'.2 item = state.2 item) ∧
      ∀ before item after, items = before ++ item :: after → state'.2 item =
          ⟨(state.1 (key item)).start + takenFrom key size before (key item), size item⟩ := by
  induction items generalizing state with
  | nil => exact ⟨state, rfl, fun _ => rfl, fun _ _ => rfl, by simp⟩
  | cons first items ih =>
    obtain ⟨hfirst, hnodup⟩ := List.nodup_cons.1 hnodup
    have hle := henough first List.mem_cons_self
    rw [takenFrom_cons, if_pos rfl] at hle
    obtain ⟨rest, out, hstep, hrest, hout, hsame⟩ :=
      @takeOne_of_le ι κ _ key size _ state first (Nat.le_of_add_right_le hle)
    have henough' : ∀ item ∈ items,
        takenFrom key size items (key item) ≤ (rest (key item)).length := by
      intro item hitem
      have hall := henough item (List.mem_cons_of_mem _ hitem)
      rw [takenFrom_cons] at hall
      rw [hrest, takenFrom_cons, takenFrom_nil]
      simp only
      omega
    obtain ⟨state', hrun, hbuffers, hothers, hitems⟩ := @ih (rest, out) hnodup henough'
    simp only at hbuffers hothers hitems
    refine ⟨state', ?_, ?_, ?_, ?_⟩
    · rw [List.foldlM_cons, hstep]
      exact hrun
    · intro buffer
      rw [hbuffers, hrest, takenFrom_cons first items, takenFrom_cons, takenFrom_nil,
        Nat.add_zero, Nat.add_assoc, Nat.sub_sub]
    · intro item hitem
      rw [List.mem_cons, not_or] at hitem
      rw [hothers item hitem.2]
      exact hsame item hitem.1
    · intro before item after hsplit
      cases before with
      | nil =>
        obtain ⟨rfl, rfl⟩ := List.cons_eq_cons.1 hsplit
        rw [hothers _ hfirst, takenFrom_nil, Nat.add_zero]
        exact hout
      | cons other before =>
        obtain ⟨rfl, rfl⟩ := List.cons_eq_cons.1 hsplit
        rw [hitems before item after rfl, hrest, takenFrom_cons _ before, takenFrom_cons,
          takenFrom_nil, Nat.add_zero, Nat.add_assoc]

variable {items : List ι}

theorem takenFrom_le_of_foldlM {state state' : (κ → Slice) × (ι → Slice)}
    (h : items.foldlM (takeOne key size) state = some state') (buffer : κ) :
    takenFrom key size items buffer ≤ (state.1 buffer).length := by
  induction items generalizing state with
  | nil => exact Nat.zero_le _
  | cons first items ih =>
    obtain ⟨next, hnext, hrun⟩ := Option.bind_eq_some_iff.1 h
    have hle := ih hrun
    unfold takeOne at hnext
    split at hnext
    case h_2 => cases hnext
    case h_1 taken rest hsplit =>
      cases hnext
      obtain ⟨hsize, -, rfl⟩ := Slice.splitOff_eq_some hsplit
      rw [takenFrom_cons]
      by_cases heq : key first = buffer
      · subst heq
        simp only [update_self] at hle
        rw [if_pos rfl]
        omega
      · simp only [update_of_ne (Ne.symm heq)] at hle
        rw [if_neg heq, Nat.zero_add]
        exact hle

variable {buffers : κ → Slice}

theorem takeAll_spec (hnodup : items.Nodup)
    (henough : ∀ item ∈ items, takenFrom key size items (key item) ≤ (buffers (key item)).length) :
    ∃ rest out, takeAll key size items buffers = some (rest, out) ∧
      (∀ buffer, rest buffer = ⟨(buffers buffer).start + takenFrom key size items buffer,
        (buffers buffer).length - takenFrom key size items buffer⟩) ∧
      (∀ item ∉ items, out item = ⟨0, 0⟩) ∧
      ∀ before item after, items = before ++ item :: after →
        out item = ⟨(buffers (key item)).start + takenFrom key size before (key item),
          size item⟩ := by
  obtain ⟨state, hrun, hbuffers, hothers, hitems⟩ :=
    @foldlM_takeOne ι κ _ key size _ items (buffers, fun _ => ⟨0, 0⟩) hnodup henough
  exact ⟨state.1, state.2, hrun, hbuffers, hothers, hitems⟩

theorem takenFrom_le_of_takeAll
    {result : (κ → Slice) × (ι → Slice)} (h : takeAll key size items buffers = some result)
    (buffer : κ) : takenFrom key size items buffer ≤ (buffers buffer).length :=
  takenFrom_le_of_foldlM h buffer

end

end Sld
