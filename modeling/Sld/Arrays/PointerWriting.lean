/-
# `Arrays.PointerWriting` — pointers are written, some from the back

The contents of `.ctors` and `.dtors` sections are written in reverse, so that
arrays run through them the other way.  Relocations go with their words.

    writeSection_eq     what a section writes
    writeAll_eq         what stands in memory after all sections
-/
import Sld.Arrays.Secondaries

namespace Sld.Arrays

open List (length_reverse length_set)

/-! ## One section -/

/-- `should_reverse_contents`, of a section in an array. -/
def shouldReverseContents (name : Text.Bytes) : Bool :=
  ctorsName.isPrefixOf name || dtorsName.isPrefixOf name

/-- The relocations of a section, on its words. -/
def applyPointers (words : List UInt64) (relocations : List PointerRelocation) : List UInt64 :=
  relocations.foldl (fun out relocation => out.set (relocation.offset / wordSize) relocation.value)
    words

/-- The new offset of a relocation in `write_section_reversed`. -/
def PointerRelocation.reversed (sectionSize : ℕ) (relocation : PointerRelocation) :
    PointerRelocation :=
  { relocation with offset := sectionSize - (relocation.offset + wordSize) }

/-- The words that a section has in the output. -/
def writeSection (s : PointerSection) : List UInt64 :=
  if shouldReverseContents s.name.bytes then
    applyPointers s.words.reverse (s.relocations.map (.reversed s.size))
  else applyPointers s.words s.relocations

/-- The pointers of a section, in their own order. -/
def PointerSection.pointers (s : PointerSection) : List UInt64 := applyPointers s.words s.relocations

/-- The pointers in the order in which an array runs through them. -/
def PointerSection.inArrayOrder (s : PointerSection) : List UInt64 :=
  if s.name.kind.isReversed then s.pointers.reverse else s.pointers

theorem shouldReverseContents_bytes (name : ArraySectionName) :
    shouldReverseContents name.bytes = name.kind.isReversed := by
  obtain ⟨kind, suffix⟩ := name
  cases suffix with
  | none => cases kind <;> rfl
  | some suffix => cases kind <;> rfl

theorem length_applyPointers (words : List UInt64) (relocations : List PointerRelocation) :
    (applyPointers words relocations).length = words.length := by
  induction relocations generalizing words with
  | nil => rfl
  | cons relocation relocations ih =>
    exact (ih _).trans length_set

theorem reverse_set {α : Type} {l : List α} {i : ℕ} (h : i < l.length) (a : α) :
    (l.set i a).reverse = l.reverse.set (l.length - 1 - i) a := by
  refine List.ext_getElem? fun k => ?_
  by_cases hk : k < l.length
  · have hset : k < (l.set i a).length := by rwa [length_set]
    have hindex : l.length - 1 - k = i ↔ l.length - 1 - i = k := by omega
    rw [List.getElem?_reverse hset, length_set, List.getElem?_set, List.getElem?_set,
      length_reverse, List.getElem?_reverse hk]
    by_cases heq : l.length - 1 - k = i
    · have hback := hindex.mp heq
      have hlt : l.length - 1 - i < l.length := by omega
      rw [if_pos heq.symm, if_pos h, if_pos hback, if_pos hlt]
    · have hne : ¬ l.length - 1 - i = k := fun hback => heq (hindex.mpr hback)
      rw [if_neg (Ne.symm heq), if_neg hne]
  · have hle : l.length ≤ k := Nat.le_of_not_lt hk
    rw [List.getElem?_eq_none (by rwa [length_reverse, length_set]),
      List.getElem?_eq_none (by rwa [length_set, length_reverse])]

variable {words : List UInt64}

theorem applyPointers_reverse {relocations : List PointerRelocation}
    (h : ∀ relocation ∈ relocations, wordSize ∣ relocation.offset ∧
      relocation.offset + wordSize ≤ wordSize * words.length) :
    applyPointers words.reverse (relocations.map (.reversed (wordSize * words.length)))
      = (applyPointers words relocations).reverse := by
  induction relocations generalizing words with
  | nil => rfl
  | cons relocation relocations ih =>
    rw [List.forall_mem_cons] at h
    obtain ⟨⟨hdvd, hle⟩, hrest⟩ := h
    obtain ⟨index, hoff⟩ := hdvd
    have harith : ∀ offset index length : ℕ, offset = 8 * index → offset + 8 ≤ 8 * length →
        index < length ∧ offset / 8 = index ∧ (8 * length - (offset + 8)) / 8 = length - 1 - index := by
      intro offset index length hoff hle
      omega
    obtain ⟨hlt, hindex, hreversed⟩ := harith relocation.offset index words.length hoff hle
    have hlen : words.length = (words.set index relocation.value).length := length_set.symm
    have hstep : applyPointers words.reverse
        ((relocation :: relocations).map (.reversed (wordSize * words.length)))
        = applyPointers (words.reverse.set ((wordSize * words.length
            - (relocation.offset + wordSize)) / wordSize) relocation.value)
          (relocations.map (.reversed (wordSize * words.length))) := rfl
    have hstep' : applyPointers words (relocation :: relocations)
        = applyPointers (words.set (relocation.offset / wordSize) relocation.value)
          relocations := rfl
    have hwords : (wordSize * words.length - (relocation.offset + wordSize)) / wordSize
        = words.length - 1 - index := hreversed
    have hplain : relocation.offset / wordSize = index := hindex
    rw [hstep, hstep', hwords, hplain, ← reverse_set hlt, hlen]
    refine ih fun other hmem => ?_
    rw [← hlen]
    exact hrest other hmem

theorem writeSection_eq (s : PointerSection) : writeSection s = s.inArrayOrder := by
  unfold writeSection PointerSection.inArrayOrder PointerSection.pointers
  rw [shouldReverseContents_bytes, PointerSection.size, applyPointers_reverse s.relocations_inside]

theorem length_inArrayOrder (s : PointerSection) : s.inArrayOrder.length = s.words.length := by
  unfold PointerSection.inArrayOrder PointerSection.pointers
  split
  · rw [length_reverse, length_applyPointers]
  · exact length_applyPointers _ _

/-! ## All sections -/

/-- Memory, by the addresses of words. -/
abbrev Memory := ℕ → Option UInt64

def writeWords (memory : Memory) (address : ℕ) : List UInt64 → Memory
  | [] => memory
  | word :: words =>
    writeWords (Function.update memory address (some word)) (address + wordSize) words

/-- Sections at their addresses, one after the other. -/
def writeAll (memory : Memory) (sections : List (PointerSection × ℕ)) : Memory :=
  sections.foldl (fun memory entry => writeWords memory entry.2 (writeSection entry.1)) memory

variable {memory : Memory}

theorem writeWords_of_outside {address other : ℕ}
    (h : other < address ∨ address + wordSize * words.length ≤ other) :
    writeWords memory address words other = memory other := by
  induction words generalizing memory address with
  | nil => rfl
  | cons word words ih =>
    have harith : ∀ a o n : ℕ, (o < a ∨ a + 8 * (n + 1) ≤ o) →
        (o < a + 8 ∨ a + 8 + 8 * n ≤ o) ∧ o ≠ a := by
      omega
    obtain ⟨hrest, hne⟩ := harith address other words.length h
    have hafter : other < address + wordSize
        ∨ address + wordSize + wordSize * words.length ≤ other := hrest
    rw [writeWords, ih hafter, Function.update_of_ne hne]

variable {word : UInt64}

theorem writeWords_getElem {address : ℕ} {k : ℕ} (h : words[k]? = some word) :
    writeWords memory address words (address + wordSize * k) = some word := by
  induction words generalizing memory address k with
  | nil => cases h
  | cons first words ih =>
    rw [writeWords]
    cases k with
    | zero =>
      obtain rfl : first = word := Option.some.inj h
      rw [Nat.mul_zero, Nat.add_zero, writeWords_of_outside (.inl (Nat.lt_add_of_pos_right
        (by decide))), Function.update_self]
    | succ k =>
      have hnext : address + wordSize * (k + 1) = address + wordSize + wordSize * k := by
        rw [Nat.mul_succ]
        omega
      rw [hnext]
      exact ih h

theorem writeAll_eq {sections : List (PointerSection × ℕ)}
    (hapart : sections.Pairwise fun entry entry' => entry.2 + entry.1.size ≤ entry'.2
      ∨ entry'.2 + entry'.1.size ≤ entry.2)
    {entry : PointerSection × ℕ} (hmem : entry ∈ sections) {k : ℕ}
    (h : entry.1.inArrayOrder[k]? = some word) :
    writeAll memory sections (entry.2 + wordSize * k) = some word := by
  have hk : k < entry.1.words.length := by
    rw [← length_inArrayOrder]
    exact (List.getElem?_eq_some_iff.mp h).1
  induction sections using List.reverseRecOn with
  | nil => cases hmem
  | append_singleton sections last ih =>
    obtain ⟨hbefore, -, hlast⟩ := List.pairwise_append.mp hapart
    rw [writeAll, List.foldl_append]
    show writeWords (writeAll memory sections) last.2 (writeSection last.1) _ = _
    rcases List.mem_append.mp hmem with hmem | hmem
    · rw [writeWords_of_outside, ih hbefore hmem]
      have harith : ∀ a b k n size : ℕ, k < n → (a + 8 * n ≤ b ∨ b + size ≤ a) →
          a + 8 * k < b ∨ b + size ≤ a + 8 * k := by
        omega
      rw [writeSection_eq, length_inArrayOrder]
      exact harith entry.2 last.2 k _ _ hk (hlast entry hmem last (List.mem_singleton_self _))
    · obtain rfl := List.mem_singleton.mp hmem
      rw [writeSection_eq]
      exact writeWords_getElem h

end Sld.Arrays
