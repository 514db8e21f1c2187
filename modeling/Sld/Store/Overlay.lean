/-
# `Store.Overlay` — a base and one replaceable overlay

A store keeps a complete *base* and at most one *overlay*, which has a value
for some keys.  A reader sees the overlay where it lists a key and the base
elsewhere.  A writer who changes some keys may either write a new base or
install a new overlay that lists those keys; an installed overlay replaces
the old one.

What a reader should see is the *record*: every key's last written value.
`Overlaid.view_write_iff` says exactly when one write is seen as recorded.
-/
import Mathlib.Data.Set.Piecewise

open Classical

namespace Sld.Store

universe u v

@[ext]
structure Overlaid (κ : Type u) (α : Type v) where
  base : κ → α
  overlay : κ → Option α

/-- A change of some keys; `rebase` asks for a new base. -/
structure Change (κ : Type u) (α : Type v) where
  keys : Set κ
  value : κ → α
  rebase : Prop

variable {κ : Type u} {α : Type v}

/-- The record after a change: the keys it lists are overwritten. -/
noncomputable def Change.record (c : Change κ α) (recorded : κ → α) : κ → α :=
  c.keys.piecewise c.value recorded

variable {c : Change κ α}

theorem Change.record_of_mem {k : κ} (h : k ∈ c.keys) (recorded : κ → α) :
    c.record recorded k = c.value k := Set.piecewise_eq_of_mem _ _ _ h

theorem Change.record_of_notMem {k : κ} (h : k ∉ c.keys) (recorded : κ → α) :
    c.record recorded k = recorded k := Set.piecewise_eq_of_notMem _ _ _ h

namespace Overlaid

variable (s : Overlaid κ α) (c : Change κ α)

/-- What a reader sees. -/
def view (k : κ) : α := (s.overlay k).getD (s.base k)

/-- The writer reads, changes its keys, and writes a base or installs an overlay. -/
noncomputable def write : Overlaid κ α :=
  if c.rebase then { base := c.record s.view, overlay := fun _ => none }
  else { base := s.base, overlay := c.keys.piecewise (fun k => some (c.value k)) fun _ => none }

/-- No key the overlay changed is left out of the change that replaces it. -/
def Keeps : Prop := c.rebase ∨ ∀ k ∉ c.keys, s.view k = s.base k

theorem base_write_of_not_rebase (h : ¬ c.rebase) : (s.write c).base = s.base := by
  rw [write, if_neg h]

theorem overlay_write_of_mem (h : ¬ c.rebase) {k : κ} (hk : k ∈ c.keys) :
    (s.write c).overlay k = some (c.value k) := by
  rw [write, if_neg h]
  dsimp only
  rw [Set.piecewise_eq_of_mem _ _ _ hk]

theorem overlay_write_of_notMem (h : ¬ c.rebase) {k : κ} (hk : k ∉ c.keys) :
    (s.write c).overlay k = none := by
  rw [write, if_neg h]
  dsimp only
  rw [Set.piecewise_eq_of_notMem _ _ _ hk]

theorem view_write_of_rebase (h : c.rebase) : (s.write c).view = c.record s.view := by
  rw [write, if_pos h]
  rfl

theorem view_write_of_not_rebase (h : ¬ c.rebase) : (s.write c).view = c.record s.base := by
  funext k
  by_cases hk : k ∈ c.keys
  · rw [view, s.overlay_write_of_mem c h hk, Change.record_of_mem hk, Option.getD_some]
  · rw [view, s.overlay_write_of_notMem c h hk, Change.record_of_notMem hk, Option.getD_none,
      s.base_write_of_not_rebase c h]

theorem view_write_iff : (s.write c).view = c.record s.view ↔ s.Keeps c := by
  by_cases h : c.rebase
  · exact iff_of_true (s.view_write_of_rebase c h) (.inl h)
  · rw [s.view_write_of_not_rebase c h, Keeps, or_iff_right h]
    constructor
    · intro heq k hk
      have hat := congrFun heq k
      rw [Change.record_of_notMem hk, Change.record_of_notMem hk] at hat
      exact hat.symm
    · intro hkeep
      funext k
      by_cases hk : k ∈ c.keys
      · rw [Change.record_of_mem hk, Change.record_of_mem hk]
      · rw [Change.record_of_notMem hk, Change.record_of_notMem hk, hkeep k hk]

end Overlaid

end Sld.Store
