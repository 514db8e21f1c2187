/-
# `Store.Erasure` — erasing a list of positions

Positions are erased from the last to the first, so that each is still
where it was when its turn comes.  What is left is what the other positions
hold (`eraseAll_eq_keepFrom`); if the positions are those of the elements
with some property, it is a `filter` (`eraseAll_eq_filter`).
-/
import Mathlib.Algebra.Order.Group.Nat
import Mathlib.Data.List.Basic

namespace Sld.Store

variable {α : Type*}

/-- The list without the positions, which are erased from the last on. -/
def eraseAll : List ℕ → List α → List α
  | [], l => l
  | r :: rs, l => (eraseAll rs l).eraseIdx r

/-- Elements at positions that are not listed, the first of `l` being at `k`. -/
def keepFrom (rs : List ℕ) : ℕ → List α → List α
  | _, [] => []
  | k, a :: l => if k ∈ rs then keepFrom rs (k + 1) l else a :: keepFrom rs (k + 1) l

section

variable {rs : List ℕ} {l : List α} {k r i : ℕ}

theorem keepFrom_cons_of_lt (h : r < k) : keepFrom (r :: rs) k l = keepFrom rs k l := by
  induction l generalizing k with
  | nil => rfl
  | cons a l ih =>
    have hne : k ≠ r := by omega
    have hiff : k ∈ r :: rs ↔ k ∈ rs := List.mem_cons.trans (or_iff_right hne)
    simp only [keepFrom, hiff, ih (Nat.lt_succ_of_lt h)]

theorem keepFrom_cons (hrs : ∀ s ∈ rs, r < s) (h : k ≤ r) :
    keepFrom (r :: rs) k l = (keepFrom rs k l).eraseIdx (r - k) := by
  induction l generalizing k with
  | nil => rfl
  | cons a l ih =>
    have hk : k ∉ rs := fun hmem => absurd (hrs k hmem) (Nat.not_lt.mpr h)
    rcases Nat.eq_or_lt_of_le h with rfl | hlt
    · have hmem : k ∈ k :: rs := List.mem_cons_self
      rw [keepFrom, if_pos hmem, keepFrom, if_neg hk, Nat.sub_self,
        keepFrom_cons_of_lt (Nat.lt_succ_self k)]
      rfl
    · have hmem : k ∉ r :: rs := fun hin => (List.mem_cons.mp hin).elim (by omega) hk
      have hsub : r - k = (r - (k + 1)) + 1 := by omega
      rw [keepFrom, if_neg hmem, keepFrom, if_neg hk, ih hlt, hsub, List.eraseIdx_cons_succ]

theorem keepFrom_nil : keepFrom [] k l = l := by
  induction l generalizing k with
  | nil => rfl
  | cons a l ih => rw [keepFrom, if_neg List.not_mem_nil, ih]

theorem eraseAll_eq_keepFrom (hrs : rs.Pairwise (· < ·)) : eraseAll rs l = keepFrom rs 0 l := by
  induction rs with
  | nil => exact keepFrom_nil.symm
  | cons r rs ih =>
    obtain ⟨hr, hrs⟩ := List.pairwise_cons.mp hrs
    rw [eraseAll, ih hrs, keepFrom_cons hr (Nat.zero_le r), Nat.sub_zero]

variable {p : α → Bool}

theorem keepFrom_eq_filter (h : ∀ i a, l[i]? = some a → (k + i ∈ rs ↔ p a = true)) :
    keepFrom rs k l = l.filter fun a => !p a := by
  induction l generalizing k with
  | nil => rfl
  | cons a l ih =>
    have hrest : keepFrom rs (k + 1) l = l.filter fun a => !p a := by
      refine ih fun i b hb => ?_
      rw [Nat.add_assoc, Nat.add_comm 1 i]
      exact h (i + 1) b hb
    have hfirst : k ∈ rs ↔ p a = true := h 0 a rfl
    rw [keepFrom, hrest]
    cases hp : p a with
    | true =>
      rw [if_pos (hfirst.mpr hp), List.filter_cons_of_neg]
      rw [hp]
      exact Bool.false_ne_true
    | false =>
      rw [if_neg fun hin => Bool.false_ne_true (hp ▸ hfirst.mp hin), List.filter_cons_of_pos]
      rw [hp]
      rfl

theorem eraseAll_eq_filter (hrs : rs.Pairwise (· < ·))
    (h : ∀ i a, l[i]? = some a → (i ∈ rs ↔ p a = true)) :
    eraseAll rs l = l.filter fun a => !p a := by
  rw [eraseAll_eq_keepFrom hrs]
  refine keepFrom_eq_filter fun i a hi => ?_
  rw [Nat.zero_add]
  exact h i a hi

theorem getElem?_eraseAll (h : ∀ r ∈ rs, i < r) : (eraseAll rs l)[i]? = l[i]? := by
  induction rs with
  | nil => rfl
  | cons r rs ih =>
    rw [List.forall_mem_cons] at h
    rw [eraseAll, List.getElem?_eraseIdx_of_lt h.1, ih h.2]

end

end Sld.Store
