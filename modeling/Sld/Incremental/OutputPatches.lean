/-
# `Incremental.OutputPatches` — patches of the output file

A patch of the output replaces a range by data, padded with zeros.  The
data may be completed from what the range holds:

    deferred relocation   an instruction is taken over and a value is
                          written into it, after the recorded value has
                          been found in it
    preserve ranges       bytes of the range are kept
    adjustments           a little-endian field of the data is moved

Patches whose ranges overlap are rejected before any is applied.
-/
import Mathlib.Algebra.Ring.Nat
import Mathlib.Data.List.Sort
import Sld.Store.Patches
import Sld.Text.Reader

namespace Sld.Incremental

open Text.Reader (ok_bind bind_eq_ok)
open Store (Patch splice window length_splice)

/-! ## Fields -/

/-- `to_le_bytes`, the first bytes of it. -/
def leBytes (value : Nat) : Nat → List UInt8
  | 0 => []
  | size + 1 => UInt8.ofNat (value % 256) :: leBytes (value / 256) size

@[simp] theorem length_leBytes (value size : Nat) : (leBytes value size).length = size := by
  induction size generalizing value with
  | zero => rfl
  | succ size ih => rw [leBytes, List.length_cons, ih]

/-- `from_le_bytes` -/
def ofLeBytes : List UInt8 → Nat
  | [] => 0
  | b :: bytes => b.toNat + 256 * ofLeBytes bytes

theorem ofLeBytes_leBytes (value size : Nat) : ofLeBytes (leBytes value size) = value % 256 ^ size := by
  induction size generalizing value with
  | zero => rw [Nat.pow_zero, Nat.mod_one]; rfl
  | succ size ih =>
    have hbyte : (UInt8.ofNat (value % 256)).toNat = value % 256 :=
      UInt8.toNat_ofNat_of_lt' (Nat.mod_lt _ (by decide))
    rw [leBytes, ofLeBytes, hbyte, ih, Nat.pow_succ, Nat.mul_comm (256 ^ size), Nat.mod_mul]

theorem ofLeBytes_lt (bytes : List UInt8) : ofLeBytes bytes < 256 ^ bytes.length := by
  induction bytes with
  | nil => exact Nat.one_pos
  | cons b bytes ih =>
    have hb : b.toNat < 256 := b.toNat_lt
    rw [ofLeBytes, List.length_cons]
    omega

theorem leBytes_ofLeBytes (bytes : List UInt8) : leBytes (ofLeBytes bytes) bytes.length = bytes := by
  induction bytes with
  | nil => rfl
  | cons b bytes ih =>
    have hb : b.toNat < 256 := b.toNat_lt
    have hlow : (b.toNat + 256 * ofLeBytes bytes) % 256 = b.toNat := by omega
    have hhigh : (b.toNat + 256 * ofLeBytes bytes) / 256 = ofLeBytes bytes := by omega
    rw [ofLeBytes, List.length_cons, leBytes, hlow, hhigh, ih, UInt8.ofNat_toNat]

/-- A signed field, moved; the source reads `i32` or `i64`. -/
def addToSignedField (width : Nat) (data : List UInt8) (delta : Int) :
    Except String (List UInt8) :=
  let adjusted := (BitVec.ofNat width (ofLeBytes data)).toInt + delta
  if -2 ^ (width - 1) ≤ adjusted ∧ adjusted < 2 ^ (width - 1) then
    pure (leBytes (BitVec.ofInt width adjusted).toNat data.length)
  else throw "changed .eh_frame relocation adjustment overflowed"

def applyAddendDelta (data : List UInt8) (addendDelta : Int64) : Except String (List UInt8) :=
  match data.length with
  | 4 => addToSignedField 32 data addendDelta.toInt
  | 8 => addToSignedField 64 data addendDelta.toInt
  | _ => throw "unsupported .eh_frame relocation field size for incremental patch"

theorem length_of_addToSignedField {width : Nat} {data new : List UInt8} {delta : Int}
    (h : addToSignedField width data delta = .ok new) : new.length = data.length := by
  unfold addToSignedField at h
  dsimp only at h
  split at h
  · cases h
    exact length_leBytes _ _
  · cases h

theorem length_of_applyAddendDelta {data new : List UInt8} {delta : Int64}
    (h : applyAddendDelta data delta = .ok new) : new.length = data.length := by
  unfold applyAddendDelta at h
  split at h
  · exact length_of_addToSignedField h
  · exact length_of_addToSignedField h
  · cases h

/-! ## Patches -/

/-- The `rel_info` of a relocation kind whose size is `BitMasking`: how many
bytes the instruction takes, and `write_to_buffer`. -/
structure InstructionRelocation where
  writeWindowsSize : Nat
  writeWindowsSize_pos : 0 < writeWindowsSize
  writeToBuffer : UInt64 → List UInt8 → Except String (List UInt8)
  length_writeToBuffer : ∀ value old new, writeToBuffer value old = .ok new →
    new.length = old.length

structure DeferredRelocationPatch where
  relInfo : InstructionRelocation
  previousWrittenValue : UInt64
  writtenValue : UInt64

/-- A field inside the data of a patch. -/
structure SectionPatchAdjustment where
  start : Nat
  stop : Nat
  addendDelta : Int64

structure SectionPatch where
  outputOffset : UInt64
  size : UInt64
  data : List UInt8
  deferredRelocation : Option DeferredRelocationPatch
  preserveRanges : List (Nat × Nat)
  adjustments : List SectionPatchAdjustment

def materializeDeferredRelocationPatch (data previousOutput : List UInt8)
    (deferred : DeferredRelocationPatch) : Except String (List UInt8) := do
  if data.length ≠ previousOutput.length then
    throw "deferred relocation patch output size changed"
  if deferred.relInfo.writeWindowsSize ≠ data.length then
    throw "deferred relocation patch output size changed"
  let replayed ← (deferred.relInfo.writeToBuffer deferred.previousWrittenValue previousOutput).mapError
    fun error => s!"failed to validate deferred relocation patch: {error}"
  if replayed ≠ previousOutput then
    throw "deferred relocation patch encoding changed"
  (deferred.relInfo.writeToBuffer deferred.writtenValue previousOutput).mapError
    fun error => s!"failed to encode deferred relocation patch: {error}"

/-- One preserved range. -/
def preserveRange (previousOutput data : List UInt8) (range : Nat × Nat) :
    Except String (List UInt8) :=
  if range.1 ≤ range.2 ∧ range.2 ≤ data.length ∧ range.2 ≤ previousOutput.length then
    pure (splice data range.1 (window previousOutput range.1 (range.2 - range.1)))
  else throw "changed patch preserve range is out of bounds"

/-- One adjustment. -/
def applyAdjustment (data : List UInt8) (adjustment : SectionPatchAdjustment) :
    Except String (List UInt8) :=
  if adjustment.start ≤ adjustment.stop ∧ adjustment.stop ≤ data.length then
    splice data adjustment.start <$>
      applyAddendDelta (window data adjustment.start (adjustment.stop - adjustment.start))
        adjustment.addendDelta
  else throw "changed patch adjustment range is out of bounds"

namespace SectionPatch

variable (p : SectionPatch)

/-- The data of the patch, or the instruction that stands for it. -/
def materializedData (outputRange : List UInt8) : Except String (List UInt8) :=
  match p.deferredRelocation with
  | none => pure p.data
  | some deferred => materializeDeferredRelocationPatch p.data outputRange deferred

/-- The data of the patch, completed from what its range holds. -/
def completedData (outputRange : List UInt8) : Except String (List UInt8) := do
  let data ← p.materializedData outputRange
  let data ← p.preserveRanges.foldlM (preserveRange outputRange) data
  p.adjustments.foldlM applyAdjustment data

/-- What `patch_changed_inputs` writes over the range of a patch. -/
def writtenBytes (outputRange : List UInt8) : Except String (List UInt8) := do
  if outputRange.length < p.data.length then
    throw "changed patch data does not fit in the previous output range"
  let data ← p.completedData outputRange
  pure (data ++ List.replicate (outputRange.length - data.length) 0)

end SectionPatch

/-! ### Sizes -/

theorem materializeDeferredRelocationPatch_eq_ok {data previousOutput new : List UInt8}
    {d : DeferredRelocationPatch}
    (h : materializeDeferredRelocationPatch data previousOutput d = .ok new) :
    data.length = previousOutput.length ∧ 0 < data.length ∧
      d.relInfo.writeToBuffer d.previousWrittenValue previousOutput = .ok previousOutput ∧
      d.relInfo.writeToBuffer d.writtenValue previousOutput = .ok new := by
  unfold materializeDeferredRelocationPatch at h
  by_cases hlen : data.length ≠ previousOutput.length
  · rw [if_pos hlen] at h
    cases h
  rw [if_neg hlen] at h
  by_cases hwindow : d.relInfo.writeWindowsSize ≠ data.length
  · rw [if_pos hwindow] at h
    cases h
  rw [if_neg hwindow] at h
  cases hprev : d.relInfo.writeToBuffer d.previousWrittenValue previousOutput with
  | error e =>
    rw [hprev] at h
    cases h
  | ok replayed =>
    rw [hprev] at h
    by_cases hreplayed : replayed ≠ previousOutput
    · have hthrow := h
      simp only [Except.mapError, ok_bind, if_pos hreplayed] at hthrow
      cases hthrow
    · obtain rfl := not_not.mp hreplayed
      simp only [Except.mapError, ok_bind, ne_eq, not_true_eq_false, if_false] at h
      cases hnew : d.relInfo.writeToBuffer d.writtenValue replayed with
      | error e =>
        rw [hnew] at h
        cases h
      | ok bytes =>
        rw [hnew] at h
        have hpos := d.relInfo.writeWindowsSize_pos
        exact ⟨not_not.mp hlen, not_not.mp hwindow ▸ hpos, rfl, h⟩

theorem length_of_preserveRange {previousOutput data new : List UInt8} {range : Nat × Nat}
    (h : preserveRange previousOutput data range = .ok new) : new.length = data.length := by
  unfold preserveRange at h
  split at h
  · next hrange =>
    cases h
    have hwindow : (window previousOutput range.1 (range.2 - range.1)).length =
        range.2 - range.1 := Store.length_window (by omega)
    exact length_splice (by omega)
  · cases h

theorem length_of_applyAdjustment {data new : List UInt8} {adjustment : SectionPatchAdjustment}
    (h : applyAdjustment data adjustment = .ok new) : new.length = data.length := by
  unfold applyAdjustment at h
  split at h
  · next hrange =>
    cases hmoved : applyAddendDelta (window data adjustment.start
        (adjustment.stop - adjustment.start)) adjustment.addendDelta with
    | error e =>
      rw [hmoved] at h
      cases h
    | ok field =>
      rw [hmoved] at h
      cases h
      have hfield := length_of_applyAddendDelta hmoved
      rw [Store.length_window (by omega)] at hfield
      exact length_splice (by omega)
  · cases h

theorem length_of_foldlM {β : Type} {f : List UInt8 → β → Except String (List UInt8)}
    (hf : ∀ data b new, f data b = .ok new → new.length = data.length) {bs : List β}
    {data new : List UInt8} (h : bs.foldlM f data = .ok new) : new.length = data.length := by
  induction bs generalizing data with
  | nil =>
    cases h
    rfl
  | cons b bs ih =>
    obtain ⟨next, hnext, h⟩ := bind_eq_ok.mp h
    exact (ih h).trans (hf _ _ _ hnext)

namespace SectionPatch

variable {p : SectionPatch} {outputRange data new : List UInt8}

theorem length_of_completedData (h : p.completedData outputRange = .ok data) :
    data.length = p.data.length := by
  obtain ⟨first, hfirst, h⟩ := bind_eq_ok.mp h
  obtain ⟨preserved, hpres, h⟩ := bind_eq_ok.mp h
  have hlen : first.length = p.data.length := by
    unfold materializedData at hfirst
    split at hfirst
    · exact congrArg List.length (Except.ok.inj hfirst).symm
    · next deferred _ =>
      obtain ⟨hsame, _, _, hnew⟩ := materializeDeferredRelocationPatch_eq_ok hfirst
      rw [deferred.relInfo.length_writeToBuffer _ _ _ hnew, hsame]
  calc data.length = preserved.length :=
        length_of_foldlM (fun _ _ _ => length_of_applyAdjustment) h
    _ = first.length := length_of_foldlM (fun _ _ _ => length_of_preserveRange) hpres
    _ = p.data.length := hlen

theorem writtenBytes_eq_ok : p.writtenBytes outputRange = .ok new ↔
    p.data.length ≤ outputRange.length ∧ ∃ data, p.completedData outputRange = .ok data ∧
      new = data ++ List.replicate (outputRange.length - data.length) 0 := by
  rw [writtenBytes]
  by_cases hfits : outputRange.length < p.data.length
  · rw [if_pos hfits]
    constructor
    · intro h
      cases h
    · rintro ⟨hle, _⟩
      omega
  · rw [if_neg hfits]
    constructor
    · intro h
      obtain ⟨data, hdata, h⟩ := bind_eq_ok.mp h
      exact ⟨by omega, data, hdata, (Except.ok.inj h).symm⟩
    · rintro ⟨_, data, hdata, rfl⟩
      exact bind_eq_ok.mpr ⟨data, hdata, rfl⟩

theorem length_of_writtenBytes (h : p.writtenBytes outputRange = .ok new) :
    new.length = outputRange.length := by
  obtain ⟨hfits, data, hdata, rfl⟩ := writtenBytes_eq_ok.mp h
  have hlen := length_of_completedData hdata
  rw [List.length_append, List.length_replicate]
  omega

variable (p)

/-- The patch as a rewriting of its range of the output. -/
def toPatch : Patch UInt8 String where
  start := p.outputOffset.toNat
  size := p.size.toNat
  rewrite := p.writtenBytes
  length_rewrite _ _ h hlen := (length_of_writtenBytes h).trans hlen

end SectionPatch

/-- The loop of `patch_changed_inputs` over its patches. -/
def applyPatches (patches : List SectionPatch) (output : List UInt8) :
    Except String (List UInt8) :=
  Patch.applyAll "changed patch output range is out of bounds" (patches.map SectionPatch.toPatch)
    output

/-! ## Overlaps -/

/-- The loop over the sorted ranges. -/
def rangesOverlap : Nat → List (Nat × Nat) → Bool
  | _, [] => false
  | previousEnd, (start, stop) :: ranges =>
    decide (start < stop ∧ start < previousEnd) || rangesOverlap (max previousEnd stop) ranges

def SectionPatch.range (p : SectionPatch) : Nat × Nat :=
  (p.outputOffset.toNat, p.outputOffset.toNat + p.size.toNat)

def patchOutputRangeRejectionReason (patches : List SectionPatch) : Option String :=
  let ranges := patches.map SectionPatch.range
  if ranges.any fun range => decide (2 ^ 64 ≤ range.2) then
    some "changed patch output range overflow"
  else if rangesOverlap 0 (ranges.insertionSort fun a b => a.1 ≤ b.1) then
    some "changed patch output ranges overlap"
  else none

theorem rangesOverlap_eq_false {previousEnd : Nat} {ranges : List (Nat × Nat)}
    (h : rangesOverlap previousEnd ranges = false) :
    (∀ r ∈ ranges, r.1 < r.2 → previousEnd ≤ r.1) ∧
      ranges.Pairwise fun a b => b.1 < b.2 → a.2 ≤ b.1 := by
  induction ranges generalizing previousEnd with
  | nil => exact ⟨fun r hr => absurd hr List.not_mem_nil, List.Pairwise.nil⟩
  | cons range ranges ih =>
    obtain ⟨start, stop⟩ := range
    rw [rangesOverlap, Bool.or_eq_false_iff, decide_eq_false_iff_not] at h
    obtain ⟨hfirst, hrest⟩ := h
    obtain ⟨hafter, hpairs⟩ := ih hrest
    refine ⟨?_, List.pairwise_cons.mpr ⟨?_, hpairs⟩⟩
    · intro r hr hne
      rcases List.mem_cons.mp hr with rfl | hr
      · exact Nat.not_lt.mp fun hlt => hfirst ⟨hne, hlt⟩
      · exact Nat.le_trans (Nat.le_max_left _ _) (hafter r hr hne)
    · intro r hr hne
      exact Nat.le_trans (Nat.le_max_right _ _) (hafter r hr hne)

theorem disjoint_of_not_rejected {patches : List SectionPatch}
    (h : patchOutputRangeRejectionReason patches = none) :
    (patches.map SectionPatch.toPatch).Pairwise Patch.Disjoint := by
  unfold patchOutputRangeRejectionReason at h
  dsimp only at h
  split at h
  · cases h
  split at h
  · cases h
  next hoverlap =>
    have hsorted := (rangesOverlap_eq_false (Bool.eq_false_iff.mpr hoverlap)).2
    -- disjointness does not depend on the order
    have hapart : ((patches.map SectionPatch.range).insertionSort fun a b => a.1 ≤ b.1).Pairwise
        fun a b => ∀ i, a.1 ≤ i ∧ i < a.2 → ¬ (b.1 ≤ i ∧ i < b.2) := by
      refine hsorted.imp fun {a b} hab i hi hi' => ?_
      omega
    have hranges := (List.perm_insertionSort _ _).pairwise_iff
      (fun hab i hi hi' => hab i hi' hi) |>.mp hapart
    rw [List.pairwise_map] at hranges ⊢
    exact hranges.imp fun hab i hi hi' => hab i hi hi'

end Sld.Incremental
