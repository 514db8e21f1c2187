/-
# `Order.Bump` — slots handed out one behind the other

Several regions have a cursor each.  An item asks for so many bytes of one
region, gets them at the cursor of the region and moves it.

    bump                the slots of a list of items
    within_of_mem_bump  each in what its region has left
    pairwise_bump       no two overlap, where the regions do not
    Contiguous          each slot begins where the one before it ends
-/
import Mathlib.Algebra.BigOperators.Group.List.Basic
import Mathlib.Algebra.GroupWithZero.Nat

namespace Sld.Bump

open Function (forall_update_iff update update_of_ne update_self)
open List (forall_mem_cons map_cons mem_cons mem_cons_of_mem mem_cons_self sum_cons)

/-- A slot in the region `key`. -/
structure Slot (κ : Type) where
  key : κ
  start : ℕ
  size : ℕ

namespace Slot

variable {κ : Type}

def stop (slot : Slot κ) : ℕ := slot.start + slot.size

def Apart (slot slot' : Slot κ) : Prop := slot.stop ≤ slot'.start ∨ slot'.stop ≤ slot.start

theorem Apart.symm {slot slot' : Slot κ} (h : slot.Apart slot') : slot'.Apart slot := Or.symm h

end Slot

variable {κ : Type} [DecidableEq κ]

/-- The slots of some items, each a region and a size. -/
def bump (offsets : κ → ℕ) : List (κ × ℕ) → List (Slot κ)
  | [] => []
  | (key, size) :: items =>
    ⟨key, offsets key, size⟩ :: bump (Function.update offsets key (offsets key + size)) items

/-- What some items take of a region. -/
def taken (items : List (κ × ℕ)) (key : κ) : ℕ :=
  ((items.filter fun item => item.1 = key).map Prod.snd).sum

theorem taken_cons_self (key : κ) (size : ℕ) (items : List (κ × ℕ)) :
    taken ((key, size) :: items) key = size + taken items key := by
  rw [taken, List.filter_cons_of_pos (by simp), map_cons, sum_cons, taken]

theorem taken_cons_of_ne {key key' : κ} (h : key ≠ key') (size : ℕ) (items : List (κ × ℕ)) :
    taken ((key, size) :: items) key' = taken items key' := by
  rw [taken, List.filter_cons_of_neg (by simpa using h), taken]

theorem update_add_taken (offsets : κ → ℕ) (key : κ) (size : ℕ) (items : List (κ × ℕ)) (key' : κ) :
    update offsets key (offsets key + size) key' + taken items key'
      = offsets key' + taken ((key, size) :: items) key' := by
  by_cases h : key' = key
  · subst h
    rw [update_self, taken_cons_self, Nat.add_assoc]
  · rw [update_of_ne h, taken_cons_of_ne (Ne.symm h)]

theorem le_update (offsets : κ → ℕ) (key : κ) (size : ℕ) (key' : κ) :
    offsets key' ≤ update offsets key (offsets key + size) key' :=
  (forall_update_iff offsets fun key' offset => offsets key' ≤ offset).mpr
    ⟨Nat.le_add_right _ _, fun _ _ => Nat.le_refl _⟩ key'

theorem map_bump (offsets : κ → ℕ) (items : List (κ × ℕ)) :
    (bump offsets items).map (fun slot => (slot.key, slot.size)) = items := by
  induction items generalizing offsets with
  | nil => rfl
  | cons item items ih => rw [bump, map_cons, ih]

theorem length_bump (offsets : κ → ℕ) (items : List (κ × ℕ)) :
    (bump offsets items).length = items.length := by
  have h := congrArg List.length (map_bump offsets items)
  rwa [List.length_map] at h

variable {items : List (κ × ℕ)}

theorem within_of_mem_bump {offsets : κ → ℕ} {slot : Slot κ} (h : slot ∈ bump offsets items) :
    offsets slot.key ≤ slot.start ∧ slot.stop ≤ offsets slot.key + taken items slot.key := by
  induction items generalizing offsets with
  | nil => cases h
  | cons item items ih =>
    obtain ⟨key, size⟩ := item
    rcases mem_cons.mp h with rfl | h
    · rw [taken_cons_self]
      exact ⟨Nat.le_refl _, Nat.add_le_add_left (Nat.le_add_right _ _) _⟩
    · obtain ⟨hstart, hstop⟩ := ih h
      rw [update_add_taken] at hstop
      exact ⟨Nat.le_trans (le_update offsets key size slot.key) hstart, hstop⟩

theorem dvd_start_of_mem_bump {align : κ → ℕ} {offsets : κ → ℕ} {items : List (κ × ℕ)}
    (hoffsets : ∀ item ∈ items, align item.1 ∣ offsets item.1)
    (hitems : ∀ item ∈ items, align item.1 ∣ item.2)
    {slot : Slot κ} (h : slot ∈ bump offsets items) : align slot.key ∣ slot.start := by
  induction items generalizing offsets with
  | nil => cases h
  | cons item items ih =>
    obtain ⟨key, size⟩ := item
    rw [forall_mem_cons] at hitems hoffsets
    rcases mem_cons.mp h with rfl | h
    · exact hoffsets.1
    · refine ih (fun item hmem => ?_) hitems.2 h
      by_cases hkey : item.1 = key
      · rw [hkey, update_self]
        exact Nat.dvd_add hoffsets.1 hitems.1
      · rw [update_of_ne hkey]
        exact hoffsets.2 item hmem

theorem pairwise_bump {first last : κ → ℕ} {offsets : κ → ℕ} {items : List (κ × ℕ)}
    (hapart : ∀ item ∈ items, ∀ item' ∈ items, item.1 ≠ item'.1 →
      last item.1 ≤ first item'.1 ∨ last item'.1 ≤ first item.1)
    (hfirst : ∀ key, first key ≤ offsets key)
    (hlast : ∀ item ∈ items, offsets item.1 + taken items item.1 ≤ last item.1) :
    (bump offsets items).Pairwise Slot.Apart := by
  induction items generalizing offsets with
  | nil => exact .nil
  | cons item items ih =>
    obtain ⟨key, size⟩ := item
    have hhead := hlast (key, size) mem_cons_self
    refine List.pairwise_cons.mpr ⟨fun slot hslot => ?_, ih (fun item hitem item' hitem' =>
      hapart item (mem_cons_of_mem _ hitem) item' (mem_cons_of_mem _ hitem'))
      (fun key' => Nat.le_trans (hfirst key') (le_update offsets key size key'))
      fun item hitem => ?_⟩
    · obtain ⟨hstart, hstop⟩ := within_of_mem_bump hslot
      rw [update_add_taken] at hstop
      by_cases hkey : slot.key = key
      · rw [hkey, update_self] at hstart
        exact .inl hstart
      · rw [update_of_ne hkey] at hstart
        have hmem : (slot.key, slot.size) ∈ items := by
          rw [← map_bump (update offsets key (offsets key + size)) items]
          exact List.mem_map_of_mem hslot
        have hslotLast := hlast _ (mem_cons_of_mem _ hmem)
        rw [taken_cons_self] at hhead
        have hfirstKey := hfirst key
        have hfirstSlot := hfirst slot.key
        rcases hapart (key, size) mem_cons_self _ (mem_cons_of_mem _ hmem) (Ne.symm hkey) with h | h
        · refine .inl ?_
          show offsets key + size ≤ slot.start
          simp only at h hhead
          omega
        · refine .inr ?_
          show slot.stop ≤ offsets key
          simp only at h hslotLast
          omega
    · rw [update_add_taken]
      exact hlast item (mem_cons_of_mem _ hitem)

theorem dvd_taken {d : ℕ} {key : κ} (h : ∀ item ∈ items, d ∣ item.2) : d ∣ taken items key := by
  induction items with
  | nil => exact Nat.dvd_zero d
  | cons item items ih =>
    obtain ⟨key', size⟩ := item
    rw [forall_mem_cons] at h
    by_cases hkey : key' = key
    · subst hkey
      rw [taken_cons_self]
      exact Nat.dvd_add h.1 (ih h.2)
    · rw [taken_cons_of_ne hkey]
      exact ih h.2

/-! ## In several batches -/

theorem bump_append (offsets : κ → ℕ) (items items' : List (κ × ℕ)) : bump offsets (items ++ items')
      = bump offsets items ++ bump (fun key => offsets key + taken items key) items' := by
  induction items generalizing offsets with
  | nil => rfl
  | cons item items ih =>
    obtain ⟨key, size⟩ := item
    have hcursors : (fun key' => update offsets key (offsets key + size) key'
        + taken items key') = fun key' => offsets key' + taken ((key, size) :: items) key' :=
      funext fun key' => update_add_taken offsets key size items key'
    rw [List.cons_append, bump, bump, ih, hcursors, List.cons_append]

/-! ## Without gaps -/

/-- Each slot begins where the one before it ends. -/
def Contiguous : ℕ → List (Slot κ) → ℕ → Prop
  | start, [], stop => start = stop
  | start, slot :: slots, stop => slot.start = start ∧ Contiguous slot.stop slots stop

variable {slots : List (Slot κ)} {start stop : ℕ}

omit [DecidableEq κ] in
theorem Contiguous.append {middle : ℕ} {slots' : List (Slot κ)}
    (h : Contiguous start slots middle) (h' : Contiguous middle slots' stop) :
    Contiguous start (slots ++ slots') stop := by
  induction slots generalizing start with
  | nil =>
    obtain rfl : start = middle := h
    exact h'
  | cons slot slots ih => exact ⟨h.1, ih h.2⟩

section

variable (h : Contiguous start slots stop)

include h

omit [DecidableEq κ] in
theorem Contiguous.within :
    start ≤ stop ∧ ∀ slot ∈ slots, start ≤ slot.start ∧ slot.stop ≤ stop := by
  induction slots generalizing start with
  | nil =>
    obtain rfl : start = stop := h
    exact ⟨Nat.le_refl _, nofun⟩
  | cons slot slots ih =>
    obtain ⟨rfl, hrest⟩ := h
    obtain ⟨hle, hslots⟩ := ih hrest
    have hself : slot.start ≤ slot.stop := Nat.le_add_right _ _
    refine ⟨Nat.le_trans hself hle, forall_mem_cons.mpr ⟨⟨Nat.le_refl _, hle⟩, ?_⟩⟩
    intro other hmem
    exact ⟨Nat.le_trans hself (hslots other hmem).1, (hslots other hmem).2⟩

omit [DecidableEq κ] in
/-- The first slot begins, and the last one ends, where all of them do. -/
theorem Contiguous.ends (hne : slots ≠ []) :
    (∃ slot ∈ slots, slot.start = start) ∧ ∃ slot ∈ slots, slot.stop = stop := by
  induction slots generalizing start with
  | nil => exact absurd rfl hne
  | cons slot slots ih =>
    obtain ⟨rfl, hrest⟩ := h
    refine ⟨⟨slot, mem_cons_self, rfl⟩, ?_⟩
    cases slots with
    | nil => exact ⟨slot, mem_cons_self, hrest⟩
    | cons next slots =>
      obtain ⟨-, last, hmem, hstop⟩ := ih hrest (List.cons_ne_nil _ _)
      exact ⟨last, mem_cons_of_mem _ hmem, hstop⟩

omit [DecidableEq κ] in
theorem Contiguous.pairwise_apart : slots.Pairwise Slot.Apart := by
  induction slots generalizing start with
  | nil => exact .nil
  | cons slot slots ih =>
    refine List.pairwise_cons.mpr ⟨fun other hmem => .inl ?_, ih h.2⟩
    exact (h.2.within.2 other hmem).1

omit [DecidableEq κ] in
/-- Slots that are filled without gaps, one after the other. -/
theorem Contiguous.flatMap {ι : Type} {content : Slot κ → List (Slot ι)}
    (hcont : ∀ slot ∈ slots, Contiguous slot.start (content slot) slot.stop) :
    Contiguous start (slots.flatMap content) stop := by
  induction slots generalizing start with
  | nil => exact h
  | cons slot slots ih =>
    rw [forall_mem_cons] at hcont
    obtain ⟨rfl, hrest⟩ := h
    exact hcont.1.append (ih hrest hcont.2)

end

theorem contiguous_filter_bump (offsets : κ → ℕ) (items : List (κ × ℕ)) (key : κ) :
    Contiguous (offsets key) ((bump offsets items).filter fun slot => slot.key = key)
      (offsets key + taken items key) := by
  induction items generalizing offsets with
  | nil => rfl
  | cons item items ih =>
    obtain ⟨key', size⟩ := item
    have hrest := ih (update offsets key' (offsets key' + size))
    rw [update_add_taken] at hrest
    rw [bump]
    by_cases hkey : key' = key
    · subst hkey
      rw [update_self] at hrest
      rw [List.filter_cons_of_pos (by simp)]
      exact ⟨rfl, hrest⟩
    · rw [update_of_ne (Ne.symm hkey)] at hrest
      rw [List.filter_cons_of_neg (by simpa using hkey)]
      exact hrest

omit [DecidableEq κ] in
/-- Slots of so many words each, taken together. -/
theorem Contiguous.words {word : ℕ} (h : Contiguous start slots stop) {count : Slot κ → ℕ}
    (hcount : ∀ slot ∈ slots, slot.size = word * count slot) :
    stop = start + word * (slots.map count).sum ∧
      (slots.flatMap fun slot => List.range' slot.start (count slot) word)
        = List.range' start (slots.map count).sum word := by
  induction slots generalizing start with
  | nil =>
    obtain rfl : start = stop := h
    exact ⟨rfl, rfl⟩
  | cons slot slots ih =>
    rw [forall_mem_cons] at hcount
    obtain ⟨rfl, hrest⟩ := h
    obtain ⟨hstop, hwords⟩ := ih hrest hcount.2
    rw [Slot.stop, hcount.1] at hstop hwords
    rw [map_cons, sum_cons, Nat.mul_add, ← Nat.add_assoc, List.flatMap_cons, hwords,
      List.range'_append]
    exact ⟨hstop, rfl⟩

end Sld.Bump
