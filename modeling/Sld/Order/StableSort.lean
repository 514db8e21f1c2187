/-
# `Order.StableSort` — when two stable sorts agree

A stable sort is determined by what the order says of each element and the
ones behind it.  Sorting by a key is the same as handing the elements out to
the keys, in the order of the keys.

    insertionSort_eq_iff         two orders sort a list the same way
    buckets_eq_insertionSort     buckets in the order of their keys
    insertionSort_flatMap        a sort of elements that consist of parts
-/
import Mathlib.Algebra.Order.BigOperators.Group.List
import Mathlib.Algebra.Order.Group.Nat
import Mathlib.Data.List.Sort

namespace Sld.StableSort

variable {α κ : Type} {r s : α → α → Prop} [DecidableRel r] [DecidableRel s]

variable {l : List α}

theorem orderedInsert_congr {a : α} (h : ∀ b ∈ l, (r a b ↔ s a b)) :
    l.orderedInsert r a = l.orderedInsert s a := by
  induction l with
  | nil => rfl
  | cons b l ih =>
    rw [List.forall_mem_cons] at h
    simp only [List.orderedInsert_cons, h.1, ih h.2]

theorem insertionSort_congr (h : l.Pairwise fun a b => (r a b ↔ s a b)) :
    l.insertionSort r = l.insertionSort s := by
  induction l with
  | nil => rfl
  | cons a l ih =>
    obtain ⟨hhead, htail⟩ := List.pairwise_cons.mp h
    rw [List.insertionSort_cons, ih htail]
    exact orderedInsert_congr fun b hb => hhead b ((List.mem_insertionSort s).mp hb)

theorem rel_of_insertionSort_eq [Std.Total s] [IsTrans α s] (h : l.insertionSort r = l.insertionSort s) {a b : α}
    (hab : [a, b].Sublist l) (hr : r a b) : s a b := by
  have hsub := List.pair_sublist_insertionSort hr hab
  rw [h] at hsub
  exact List.pairwise_iff_forall_sublist.mp (List.pairwise_insertionSort s l) hsub

theorem insertionSort_eq_iff [Std.Total r] [IsTrans α r] [Std.Total s] [IsTrans α s] :
    l.insertionSort r = l.insertionSort s ↔ l.Pairwise fun a b => (r a b ↔ s a b) := by
  constructor
  · intro h
    refine List.pairwise_iff_forall_sublist.mpr fun hab => ?_
    exact ⟨rel_of_insertionSort_eq h hab, rel_of_insertionSort_eq h.symm hab⟩
  · exact insertionSort_congr

/-! ## Buckets -/

section Buckets

variable [DecidableEq κ] {key : α → κ}

/-- The elements with each key, in the order of the keys. -/
def buckets (key : α → κ) (keys : List κ) (l : List α) : List α :=
  keys.flatMap fun k => l.filter fun a => key a = k

variable {a : α} {keys : List κ} {l : List α}

theorem mem_buckets : a ∈ buckets key keys l ↔ a ∈ l ∧ key a ∈ keys := by
  simp [buckets, and_comm]

theorem orderedInsert_append {xs ys : List α} (hxs : ∀ x ∈ xs, ¬ r a x)
    (hys : ∀ y ∈ ys, r a y) : (xs ++ ys).orderedInsert r a = xs ++ a :: ys := by
  induction xs with
  | nil =>
    cases ys with
    | nil => rfl
    | cons y ys => exact List.orderedInsert_cons_of_le r ys (hys y List.mem_cons_self)
  | cons x xs ih =>
    rw [List.forall_mem_cons] at hxs
    rw [List.cons_append, List.orderedInsert_of_not_le r _ hxs.1, ih hxs.2, List.cons_append]

theorem buckets_cons_of_notMem (h : key a ∉ keys) (l : List α) :
    buckets key keys (a :: l) = buckets key keys l := by
  refine List.flatMap_congr fun k hk => List.filter_cons_of_neg ?_
  rw [decide_eq_true_eq]
  rintro rfl
  exact h hk

theorem buckets_append (keys keys' : List κ) (l : List α) :
    buckets key (keys ++ keys') l = buckets key keys l ++ buckets key keys' l := List.flatMap_append

theorem buckets_filter {p : α → Bool} (h : ∀ a ∈ l, key a ∈ keys → p a = true) :
    buckets key keys (l.filter p) = buckets key keys l := by
  refine List.flatMap_congr fun k hk => ?_
  rw [List.filter_filter]
  refine List.filter_congr fun a ha => ?_
  by_cases hkey : key a = k
  · rw [h a ha (hkey ▸ hk), Bool.and_true]
  · rw [decide_eq_false hkey, Bool.false_and]

theorem buckets_eq_nil (h : ∀ a ∈ l, key a ∉ keys) : buckets key keys l = [] := by
  refine List.eq_nil_iff_forall_not_mem.mpr fun a ha => ?_
  obtain ⟨hmem, hkey⟩ := mem_buckets.mp ha
  exact h a hmem hkey

theorem map_buckets {β : Type} {key' : β → κ} {f : α → β} (hkey : ∀ a, key' (f a) = key a)
    (keys : List κ) (l : List α) : (buckets key keys l).map f = buckets key' keys (l.map f) := by
  rw [buckets, List.map_flatMap]
  refine List.flatMap_congr fun k _ => ?_
  rw [List.filter_map]
  exact congrArg (List.map f) (List.filter_congr fun a _ => by rw [Function.comp, hkey])

variable {ι : Type} [LinearOrder ι] {rank : κ → ι}

theorem buckets_eq_insertionSort {keys : List κ}
    (hkeys : keys.Pairwise fun k k' => rank k < rank k') {l : List α} (hl : ∀ a ∈ l, key a ∈ keys) :
    buckets key keys l = l.insertionSort fun a b => rank (key a) ≤ rank (key b) := by
  induction l with
  | nil => simp [buckets]
  | cons a l ih =>
    rw [List.forall_mem_cons] at hl
    obtain ⟨before, after, rfl⟩ := List.append_of_mem hl.1
    obtain ⟨-, hafter, hbefore⟩ := List.pairwise_append.mp hkeys
    obtain ⟨hafter, -⟩ := List.pairwise_cons.mp hafter
    have hnotBefore : key a ∉ before := fun hmem =>
      lt_irrefl _ (hbefore _ hmem _ List.mem_cons_self)
    have hnotAfter : key a ∉ after := fun hmem => lt_irrefl _ (hafter _ hmem)
    have hsplit : ∀ l' : List α, buckets key (before ++ key a :: after) l'
        = buckets key before l' ++ (l'.filter (fun b => key b = key a) ++ buckets key after l') := by
      intro l'
      rw [buckets, List.flatMap_append, List.flatMap_cons, buckets, buckets]
    have hself : (a :: l).filter (fun b => key b = key a)
        = a :: l.filter fun b => key b = key a := List.filter_cons_of_pos (decide_eq_true rfl)
    rw [List.insertionSort_cons, ← ih hl.2, hsplit, hsplit, buckets_cons_of_notMem hnotBefore,
      buckets_cons_of_notMem hnotAfter, hself, List.cons_append, orderedInsert_append]
    · intro b hb
      exact not_le.mpr (hbefore _ (mem_buckets.mp hb).2 _ List.mem_cons_self)
    · intro b hb
      rcases List.mem_append.mp hb with hb | hb
      · exact (congrArg rank (of_decide_eq_true (List.mem_filter.mp hb).2)).ge
      · exact (hafter _ (mem_buckets.mp hb).2).le

theorem insertionSort_flatMap {β : Type} {key : α → ℕ} {key' : β → ℕ} {f : α → List β} (l : List α)
    (hkey : ∀ a ∈ l, ∀ b ∈ f a, key' b = key a) :
    (l.insertionSort fun a a' => key a ≤ key a').flatMap f
      = (l.flatMap f).insertionSort fun b b' => key' b ≤ key' b' := by
  obtain ⟨bound, hbound⟩ : ∃ bound, ∀ a ∈ l, key a < bound := by
    refine ⟨(l.map key).sum + 1, fun a ha => Nat.lt_succ_of_le ?_⟩
    exact List.le_sum_of_mem (List.mem_map_of_mem ha)
  have hkeys : (List.range bound).Pairwise (· < ·) := List.pairwise_lt_range
  have hparts : ∀ b ∈ l.flatMap f, key' b ∈ List.range bound := by
    intro b hb
    obtain ⟨a, ha, hmem⟩ := List.mem_flatMap.mp hb
    rw [List.mem_range, hkey a ha b hmem]
    exact hbound a ha
  rw [← @buckets_eq_insertionSort α ℕ _ key ℕ _ (fun k => k) _ hkeys l fun a ha =>
      List.mem_range.mpr (hbound a ha),
    ← @buckets_eq_insertionSort β ℕ _ key' ℕ _ (fun k => k) _ hkeys _ hparts]
  rw [buckets, List.flatMap_assoc]
  clear hparts
  refine List.flatMap_congr fun k _ => ?_
  induction l with
  | nil => rfl
  | cons a l ih =>
    rw [List.forall_mem_cons] at hkey hbound
    have hhead : (f a).filter (fun b => key' b = k) = if key a = k then f a else [] := by
      by_cases heq : key a = k
      · rw [if_pos heq]
        refine List.filter_eq_self.mpr fun b hb => decide_eq_true ?_
        rw [hkey.1 b hb, heq]
      · rw [if_neg heq]
        refine List.filter_eq_nil_iff.mpr fun b hb => ?_
        rw [decide_eq_true_eq, hkey.1 b hb]
        exact heq
    rw [List.flatMap_cons, List.filter_append, hhead, ← ih hkey.2 hbound.2]
    by_cases heq : key a = k
    · have hself : (a :: l).filter (fun a => key a = k) = a :: l.filter fun a => key a = k :=
        List.filter_cons_of_pos (decide_eq_true heq)
      rw [if_pos heq, hself, List.flatMap_cons]
    · have hother : (a :: l).filter (fun a => key a = k) = l.filter fun a => key a = k :=
        List.filter_cons_of_neg (by rwa [decide_eq_true_eq])
      rw [if_neg heq, hother, List.nil_append]

end Buckets

end Sld.StableSort
