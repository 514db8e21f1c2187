/-
# `Order.SortDedup` — `sort` followed by `dedup`

The incremental state keeps its record lists sorted and without
duplicates, and every reader restores that form after merging blocks.
The result is canonical: it depends on which elements occur, not on how
often or in what order (`sortDedup_eq_iff`), and that is the only fact the
round trips use.  `dedupByKey` is the coarser variant that drops an
element when the last one kept has the same key.
-/
import Mathlib.Data.List.Destutter
import Mathlib.Data.List.Sort

namespace Sld

section

variable {α : Type} [LinearOrder α]

/-- `values.sort(); values.dedup()` -/
def sortDedup (l : List α) : List α := (l.insertionSort (· ≤ ·)).destutter (· ≠ ·)

theorem sortDedup_eq_dedup (l : List α) : sortDedup l = (l.insertionSort (· ≤ ·)).dedup :=
  (List.pairwise_insertionSort (· ≤ ·) l).destutter_eq_dedup

@[simp] theorem mem_sortDedup {l : List α} {a : α} : a ∈ sortDedup l ↔ a ∈ l := by
  rw [sortDedup_eq_dedup, List.mem_dedup, List.mem_insertionSort]

theorem sortDedup_pairwise (l : List α) : (sortDedup l).Pairwise (· < ·) := by
  have hle : (sortDedup l).Pairwise (· ≤ ·) :=
    (List.pairwise_insertionSort (· ≤ ·) l).sublist (List.destutter_sublist _ _)
  have hnd : (sortDedup l).Nodup := by
    rw [sortDedup_eq_dedup]; exact List.nodup_dedup _
  exact (hle.and hnd).imp fun h => lt_of_le_of_ne h.1 h.2

theorem eq_sortDedup_of_pairwise {l m : List α} (hl : l.Pairwise (· < ·))
    (h : ∀ a, a ∈ l ↔ a ∈ m) : l = sortDedup m :=
  hl.eq_of_mem_iff (sortDedup_pairwise m) fun a => by rw [h a, mem_sortDedup]

theorem sortDedup_eq_iff {l m : List α} : sortDedup l = sortDedup m ↔ ∀ a, a ∈ l ↔ a ∈ m := by
  constructor
  · intro h a
    exact mem_sortDedup.symm.trans (h ▸ mem_sortDedup)
  · intro h
    exact eq_sortDedup_of_pairwise (sortDedup_pairwise l) fun a => by rw [mem_sortDedup, h a]

theorem sortDedup_filter (p : α → Bool) (l : List α) :
    (sortDedup l).filter p = sortDedup (l.filter p) :=
  eq_sortDedup_of_pairwise ((sortDedup_pairwise l).filter p) fun a => by
    simp only [List.mem_filter, mem_sortDedup]

end

/-! ## Deduplication by a key -/

section

variable {α β : Type} [DecidableEq α]

/-- `values.dedup_by(|right, left| key(right) == key(left))` -/
def dedupByKey (key : β → α) (l : List β) : List β :=
  l.destutter fun a b => key a ≠ key b

variable {b : β} {key : β → α}

theorem mem_of_mem_dedupByKey {l : List β} (h : b ∈ dedupByKey key l) : b ∈ l :=
  (List.destutter_sublist _ l).subset h

theorem exists_key_mem_destutter' : ∀ {l : List β} {a : β}, b ∈ a :: l →
      ∃ c ∈ l.destutter' (fun a b => key a ≠ key b) a, key c = key b
  | [], a, h => by
    rw [List.mem_singleton.mp h]
    exact ⟨a, List.mem_singleton.mpr rfl, rfl⟩
  | d :: l, a, h => by
    by_cases hkey : key a = key d
    · rw [List.destutter'_cons_neg _ (not_not.mpr hkey)]
      rcases List.mem_cons.mp h with rfl | h
      · exact ⟨b, List.mem_destutter' _ _ _, rfl⟩
      · rcases List.mem_cons.mp h with rfl | h
        · exact ⟨a, List.mem_destutter' _ _ _, hkey⟩
        · exact exists_key_mem_destutter' (List.mem_cons_of_mem _ h)
    · rw [List.destutter'_cons_pos _ hkey]
      rcases List.mem_cons.mp h with rfl | h
      · exact ⟨b, List.mem_cons_self, rfl⟩
      · have hrest : ∃ c ∈ l.destutter' (fun a b => key a ≠ key b) d, key c = key b :=
          exists_key_mem_destutter' h
        obtain ⟨c, hc, hk⟩ := hrest
        exact ⟨c, List.mem_cons_of_mem _ hc, hk⟩

theorem exists_key_mem_dedupByKey : ∀ {l : List β}, b ∈ l → ∃ c ∈ dedupByKey key l, key c = key b
  | [], h => nomatch h
  | _ :: _, h => exists_key_mem_destutter' h

end

variable {α : Type*}

theorem pairwise_eq_or {R : α → α → Prop} {l : List α} (h : l.Pairwise R) {a b : α}
    (ha : a ∈ l) (hb : b ∈ l) : a = b ∨ R a b ∨ R b a := by
  induction h with
  | nil => cases ha
  | cons hfirst _ ih =>
    rcases List.mem_cons.1 ha with rfl | ha' <;> rcases List.mem_cons.1 hb with rfl | hb'
    · exact .inl rfl
    · exact .inr (.inl (hfirst b hb'))
    · exact .inr (.inr (hfirst a ha'))
    · exact ih ha' hb'

theorem concat_eq_append_cons {items before after : List α} {last item : α} :
    items ++ [last] = before ++ item :: after ↔ (before = items ∧ item = last ∧ after = []) ∨
        ∃ after', after = after' ++ [last] ∧ items = before ++ item :: after' := by
  constructor
  · intro h
    rcases List.eq_nil_or_concat after with rfl | ⟨after', other, rfl⟩
    · obtain ⟨rfl, heq⟩ := List.append_inj' h rfl
      obtain ⟨rfl⟩ := List.cons_eq_cons.1 heq
      exact .inl ⟨rfl, rfl, rfl⟩
    · have hsplit : items ++ [last] = (before ++ item :: after') ++ [other] := by
        rw [h]
        simp
      obtain ⟨rfl, heq⟩ := List.append_inj' hsplit rfl
      obtain ⟨rfl⟩ := List.cons_eq_cons.1 heq
      exact .inr ⟨after', List.concat_eq_append, rfl⟩
  · rintro (⟨rfl, rfl, rfl⟩ | ⟨after', rfl, rfl⟩)
    · rfl
    · simp

end Sld
