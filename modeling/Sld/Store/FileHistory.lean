/-
# `Store.FileHistory` — files under a clock that never goes back

A file has contents and an identity, from which its modification time can
be read.  From one moment to the next it is left as it is, written (then it
is modified at the time of the clock), linked (which changes its identity,
not its modification time), or removed.

A file whose modification time lies before what the clock showed at some
moment has not been written since that moment.
-/
import Mathlib.Order.Monotone.Basic

namespace Sld.Store

universe u v w x

/-- How identities follow the contents and the time. -/
structure Labels (β : Type u) (ι : Type v) (τ : Type w) where
  modified : ι → τ
  written : τ → β → ι → Prop
  linked : τ → ι → ι → Prop
  modified_of_written : ∀ {now b i}, written now b i → modified i = now
  modified_of_linked : ∀ {now i i'}, linked now i i' → modified i' = modified i

variable {β : Type u} {ι : Type v} {τ : Type w}

/-- What may become of a file in one moment. -/
inductive FileChange (labels : Labels β ι τ) (now : τ) : Option (β × ι) → Option (β × ι) → Prop
  | kept (file) : FileChange labels now file file
  | written (file) {b i} (h : labels.written now b i) : FileChange labels now file (some (b, i))
  | linked {b i i'} (h : labels.linked now i i') :
      FileChange labels now (some (b, i)) (some (b, i'))
  | removed (file) : FileChange labels now file none

structure FileHistory (κ : Type x) (labels : Labels β ι τ) [Preorder τ] where
  clock : ℕ → τ
  clock_mono : Monotone clock
  file : κ → ℕ → Option (β × ι)
  change : ∀ k p, FileChange labels (clock p) (file k p) (file k (p + 1))

namespace FileHistory

variable {κ : Type x} {labels : Labels β ι τ} [Preorder τ] (h : FileHistory κ labels)

/-- At some moment between the two the file was so. -/
def Sees (first last : ℕ) (k : κ) (φ : β → ι → Prop) : Prop :=
  ∃ p, first ≤ p ∧ p ≤ last ∧ ∃ b i, h.file k p = some (b, i) ∧ φ b i

variable {h}

/-- The induction is on the time since the first moment. -/
theorem unwritten {k : κ} {first last : ℕ} (hle : first ≤ last) {b : β} {i : ι}
    (hfile : h.file k last = some (b, i)) (hbefore : labels.modified i < h.clock first) :
    ∀ p, first ≤ p → p ≤ last →
      ∃ i', h.file k p = some (b, i') ∧ labels.modified i' = labels.modified i := by
  induction last, hle using Nat.le_induction generalizing i with
  | base =>
    intro p hp hp'
    obtain rfl := Nat.le_antisymm hp' hp
    exact ⟨i, hfile, rfl⟩
  | succ last hle ih =>
    -- it is enough to find the same contents one moment before
    have hprev : ∃ i', h.file k last = some (b, i') ∧ labels.modified i' = labels.modified i := by
      have hchange := h.change k last
      rw [hfile] at hchange
      generalize hold : h.file k last = old at hchange
      cases hchange with
      | kept => exact ⟨i, rfl, rfl⟩
      | written _ hwritten =>
        rw [labels.modified_of_written hwritten] at hbefore
        exact absurd (h.clock_mono hle) (not_le_of_gt hbefore)
      | linked hlinked => exact ⟨_, rfl, (labels.modified_of_linked hlinked).symm⟩
    obtain ⟨i', hfile', hmodified⟩ := hprev
    intro p hp hp'
    rcases Nat.le_or_eq_of_le_succ hp' with hp' | rfl
    · obtain ⟨j, hj, hjmodified⟩ := ih hfile' (hmodified ▸ hbefore) p hp hp'
      exact ⟨j, hj, hjmodified.trans hmodified⟩
    · exact ⟨i, hfile, rfl⟩

/-- What was seen of the file since the first moment is what it is at the last. -/
theorem Sees.of_unwritten {k : κ} {first mid last : ℕ} {φ : β → ι → Prop}
    (hs : h.Sees first mid k φ) (hmid : mid ≤ last) {b : β} {i : ι}
    (hfile : h.file k last = some (b, i)) (hbefore : labels.modified i < h.clock first) :
    ∃ p i', first ≤ p ∧ h.file k p = some (b, i') ∧ φ b i' ∧
      labels.modified i' = labels.modified i := by
  obtain ⟨p, hfirst, hp, b', i', hfile', hφ⟩ := hs
  have hlast := le_trans hp hmid
  obtain ⟨j, hj, hmodified⟩ := unwritten (le_trans hfirst hlast) hfile hbefore p hfirst hlast
  obtain ⟨rfl, rfl⟩ := Prod.mk.inj (Option.some.inj (hfile'.symm.trans hj))
  exact ⟨p, i', hfirst, hfile', hφ, hmodified⟩

end FileHistory

end Sld.Store
