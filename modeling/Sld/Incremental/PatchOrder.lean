/-
# `Incremental.PatchOrder` — the order of the patches

`patch_changed_inputs` writes its patches into the mapped output one after
the other.  A patch that cannot be completed ends the update; what was
written before it stays, and the link starts over.

Patches that are not rejected own disjoint ranges, so each reads what the
update found in its range.  Whether the loop gets through, and what it then
leaves, is the same in every order (`writePatches_order`); where it stops
is not, and neither is what a stopped loop leaves
(`stopped_update_depends_on_order`).
-/
import Sld.Incremental.OutputPatches

namespace Sld.Incremental

open Store (Patch)

/-- The write loop of `patch_changed_inputs`: why it stopped, if it did, and the
output. -/
def writePatches (patches : List SectionPatch) (output : List UInt8) :
    Option String × List UInt8 :=
  Patch.run "changed patch output range is out of bounds" (patches.map SectionPatch.toPatch) output

variable {patches : List SectionPatch}

theorem writePatches_eq_none_iff {output bytes : List UInt8} :
    writePatches patches output = (none, bytes) ↔ applyPatches patches output = .ok bytes :=
  Patch.run_eq_none_iff

/-- The bytes of the output in the range of a patch. -/
def SectionPatch.Covers (p : SectionPatch) (i : Nat) : Prop := p.range.1 ≤ i ∧ i < p.range.2

theorem spares_of_not_covers {i : Nat} (h : ∀ p ∈ patches, ¬ p.Covers i) :
    ∀ q ∈ patches.map SectionPatch.toPatch, q.Spares i := by
  intro q hq
  obtain ⟨p, hp, rfl⟩ := List.mem_map.mp hq
  exact Patch.spares_of_not_owns (h p hp)

/-- **The order of the patches does not matter**: the loop gets through in every
order or in none, with the same output; and in any order, also when it stops,
it writes into the ranges of the patches only. -/
theorem writePatches_order {patches order : List SectionPatch} {output : List UInt8}
    (hacc : patchOutputRangeRejectionReason patches = none) (hperm : order.Perm patches) :
    (∀ bytes, writePatches order output = (none, bytes) ↔
      writePatches patches output = (none, bytes)) ∧
    (writePatches order output).2.length = output.length ∧
    ∀ i, (∀ p ∈ patches, ¬ p.Covers i) → (writePatches order output).2[i]? = output[i]? := by
  have hdisj : (patches.map SectionPatch.toPatch).Pairwise Patch.Disjoint :=
    disjoint_of_not_rejected hacc
  have hpatches : (patches.map SectionPatch.toPatch).Perm (order.map SectionPatch.toPatch) :=
    hperm.symm.map _
  refine ⟨?_, Patch.length_run, ?_⟩
  · intro bytes
    rw [writePatches_eq_none_iff, writePatches_eq_none_iff]
    exact (Patch.applyAll_perm hpatches hdisj).symm
  · intro i hi
    refine Patch.run_getElem? (spares_of_not_covers ?_)
    intro p hp
    exact hi p (hperm.mem_iff.mp hp)

/-! ## A stopped loop -/

/-- Four bytes of code. -/
def codePatch : SectionPatch :=
  { outputOffset := 0, size := 4, data := [1, 2, 3, 4], deferredRelocation := none,
    preserveRanges := [], adjustments := [] }

/-- A pc-relative field that cannot move any further. -/
def framePatch : SectionPatch :=
  { outputOffset := 4, size := 4, data := [0xff, 0xff, 0xff, 0x7f], deferredRelocation := none,
    preserveRanges := [], adjustments := [⟨0, 4, 1⟩] }

/-- Two bytes after the code. -/
def dataPatch : SectionPatch :=
  { outputOffset := 4, size := 2, data := [9], deferredRelocation := none,
    preserveRanges := [], adjustments := [] }

theorem code_and_data_in_either_order :
    (∀ bytes, writePatches [dataPatch, codePatch] [7, 7, 7, 7, 7, 7, 7] = (none, bytes) ↔
      writePatches [codePatch, dataPatch] [7, 7, 7, 7, 7, 7, 7] = (none, bytes)) ∧
    writePatches [codePatch, dataPatch] [7, 7, 7, 7, 7, 7, 7] =
      (none, [1, 2, 3, 4, 9, 0, 7]) :=
  ⟨(writePatches_order (by decide) (List.Perm.swap _ _ _)).1, by decide⟩

/-- The loop stops at the frame; the code before it has been written, the code
after it has not. -/
theorem stopped_update_depends_on_order :
    patchOutputRangeRejectionReason [codePatch, framePatch] = none ∧
    (∀ p ∈ [codePatch, framePatch], p.range.2 ≤ 8) ∧
    [framePatch, codePatch].Perm [codePatch, framePatch] ∧
    (writePatches [codePatch, framePatch] [0, 0, 0, 0, 0, 0, 0, 0]).2 = [1, 2, 3, 4, 0, 0, 0, 0] ∧
    (writePatches [framePatch, codePatch] [0, 0, 0, 0, 0, 0, 0, 0]).2 = [0, 0, 0, 0, 0, 0, 0, 0] :=
  ⟨by decide, by decide, List.Perm.swap _ _ _, by decide, by decide⟩

end Sld.Incremental
