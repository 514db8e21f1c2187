/-
# `Layout.AddressParts` — what the writer makes of the parts of an address

The upper part of an address is loaded by a `lui`, its lower part is added by
the instructions that use the register.  Relaxation deletes a `lui` that
would load zero, or shortens it to `c.lui`; the instructions themselves are
only rewritten when the section is written, relocation by relocation, and
what was deleted is then read off the deltas alone.

A section is written bit by bit here, eight bits for each byte: a write
replaces a range of them.  Of the relocations only those are followed that
hold a part of an address, and those that only allow relaxation.
-/
import Sld.Layout.RelaxLookups
import Sld.Layout.RelaxScan

namespace Sld.Layout.AddressParts

open RelaxDelta (raw)

/-! ## Bits -/

abbrev Bits := ℕ → Bool

def bitsOf (bytes : List UInt8) : Bits := fun i => (bytes.getD (i / 8) 0).toNat.testBit (i % 8)

/-- Replaces the bits from `start` on by the low bits of a value. -/
def setBits (start length value : ℕ) (bits : Bits) : Bits := fun i =>
  if start ≤ i ∧ i < start + length then value.testBit (i - start) else bits i

def bitField (start length : ℕ) (bits : Bits) : List Bool :=
  (List.range length).map fun k => bits (start + k)

/-! ## Instructions -/

inductive RiscVInstruction where
  | uType | iType | sType | cluiType
deriving DecidableEq

/-- `write_to_value`: the immediate of the instruction at an offset. -/
def RiscVInstruction.writeToValue (value offset : ℕ) (out : Bits) : RiscVInstruction → Bits
  | .uType => setBits (8 * offset + 12) 20 (hi20 value) out
  | .iType => setBits (8 * offset + 20) 12 value out
  | .sType =>
    setBits (8 * offset + 25) 7 (value / 2 ^ 5) (setBits (8 * offset + 7) 5 value out)
  | .cluiType =>
    setBits (8 * offset + 12) 1 (hi20 value / 2 ^ 5)
      (setBits (8 * offset + 2) 5 (hi20 value) out)

/-- Bits 7 to 11 -/
def rd (offset : ℕ) (out : Bits) : List Bool := bitField (8 * offset + 7) 5 out

/-- Bits 15 to 19 -/
def rs1 (offset : ℕ) (out : Bits) : List Bool := bitField (8 * offset + 15) 5 out

inductive RelaxationKind where
  | hi20ToCLui | hi20Delete | lo12Rs1ToZero
deriving DecidableEq

/-- `apply`.  The base of `c.lui` is `0x6001` with the register of the `lui`. -/
def RelaxationKind.apply (offset : ℕ) (out : Bits) : RelaxationKind → Bits
  | .hi20ToCLui => setBits (8 * offset + 12) 4 6 (setBits (8 * offset) 7 1 out)
  | .hi20Delete => out
  | .lo12Rs1ToZero => setBits (8 * offset + 15) 5 0 out

/-! ## Relocations -/

inductive PartType where
  | hi20 | lo12I | lo12S | relax
deriving DecidableEq

/-- A relocation, with the address that its symbol and addend come to. -/
structure PartRelocation where
  rawType : PartType
  offset : ℕ
  value : ℕ
deriving DecidableEq

def PartType.instruction : PartType → Option RiscVInstruction
  | .hi20 => some .uType
  | .lo12I => some .iType
  | .lo12S => some .sType
  | .relax => none

section

variable (deltas : SectionRelaxDeltas)

/-- `new_relaxation`, of a section with code. -/
def newRelaxation (rawType : PartType) (size offsetInSection : ℕ) (out : Bits) :
    Option RelaxationKind :=
  let inputOffset := deltas.outputToInputOffset offsetInSection
  match rawType with
  | .hi20 =>
    if deltas.hasDeltaAt inputOffset then some .hi20Delete
    else if deltas.hasDeltaAt (inputOffset + 2) then some .hi20ToCLui
    else none
  | .lo12I | .lo12S =>
    if inputOffset ≥ 4 ∧ deltas.deltaBytesAt (inputOffset - 4) = 4 then
      if offsetInSection + 4 ≤ size then
        if rd offsetInSection out = rs1 offsetInSection out then some .lo12Rs1ToZero else none
      else none
    else none
  | .relax => none

/-- The section, and whether the next relocation is skipped. -/
structure Writing where
  out : Bits
  skipNextRelocation : Bool

/-- `apply_relocation`, and the loop around it. -/
def applyRelocation (size : ℕ) (writing : Writing) (rel : PartRelocation) : Writing :=
  if writing.skipNextRelocation then { writing with skipNextRelocation := false }
  else
    let offset := deltas.inputToOutputOffset rel.offset
    match newRelaxation deltas rel.rawType size offset writing.out with
    | some .hi20Delete => ⟨writing.out, true⟩
    | some .hi20ToCLui =>
      ⟨RiscVInstruction.cluiType.writeToValue rel.value offset
        (RelaxationKind.hi20ToCLui.apply offset writing.out), false⟩
    | some .lo12Rs1ToZero =>
      let out := RelaxationKind.lo12Rs1ToZero.apply offset writing.out
      ⟨(rel.rawType.instruction.map (·.writeToValue rel.value offset out)).getD out, false⟩
    | none =>
      ⟨(rel.rawType.instruction.map
        (·.writeToValue rel.value offset writing.out)).getD writing.out, false⟩

end

/-- The loop that copies a section: all but the deletions. -/
def copyKept (inputData : List UInt8) (inputPos : ℕ) : List RelaxDelta → List UInt8
  | [] => inputData.drop inputPos
  | delta :: deltas =>
    (inputData.take delta.inputOffset).drop inputPos ++
      copyKept inputData (delta.inputOffset + delta.bytesDeleted) deltas

/-- A section with its relocations applied. -/
def writeSection (inputData : List UInt8) (deltas : SectionRelaxDeltas)
    (relocations : List PartRelocation) : Bits :=
  let out := copyKept inputData 0 deltas.deltas
  (relocations.foldl (applyRelocation deltas out.length) ⟨bitsOf out, false⟩).out

/-! ## Bits that are replaced -/

section

variable {start length value i : ℕ} {bits : Bits}

theorem setBits_inside (h : start ≤ i) (h' : i < start + length) :
    setBits start length value bits i = value.testBit (i - start) :=
  if_pos ⟨h, h'⟩

theorem setBits_below (h : i < start) : setBits start length value bits i = bits i :=
  if_neg (by omega)

theorem setBits_above (h : start + length ≤ i) : setBits start length value bits i = bits i :=
  if_neg (by omega)

theorem setBits_at (offset first j : ℕ) :
    setBits (8 * offset + first) length value bits (8 * offset + j) =
      if first ≤ j ∧ j < first + length then value.testBit (j - first)
      else bits (8 * offset + j) := by
  by_cases h : first ≤ j ∧ j < first + length
  · rw [if_pos h, setBits_inside (by omega) (by omega)]
    congr 1
    omega
  · rw [if_neg h]
    exact if_neg (by omega)

end

theorem bitField_eq_replicate {start length : ℕ} {bits : Bits} :
    bitField start length bits = List.replicate length false ↔
      ∀ k < length, bits (start + k) = false := by
  simp [bitField, List.eq_replicate_iff]

/-- What an instruction gets at a bit, where another bit was. -/
def RiscVInstruction.bit (value j : ℕ) (before : Bool) : RiscVInstruction → Bool
  | .uType => if 12 ≤ j ∧ j < 32 then (hi20 value).testBit (j - 12) else before
  | .iType => if 20 ≤ j ∧ j < 32 then value.testBit (j - 20) else before
  | .sType =>
    if 25 ≤ j ∧ j < 32 then (value / 2 ^ 5).testBit (j - 25)
    else if 7 ≤ j ∧ j < 12 then value.testBit (j - 7) else before
  | .cluiType =>
    if 12 ≤ j ∧ j < 13 then (hi20 value / 2 ^ 5).testBit (j - 12)
    else if 2 ≤ j ∧ j < 7 then (hi20 value).testBit (j - 2) else before

theorem writeToValue_at (insn : RiscVInstruction) (value offset j : ℕ) (out : Bits) :
    insn.writeToValue value offset out (8 * offset + j) =
      insn.bit value j (out (8 * offset + j)) := by
  cases insn <;> simp only [RiscVInstruction.writeToValue, RiscVInstruction.bit, setBits_at]

theorem lo12Rs1ToZero_at (offset j : ℕ) (out : Bits) :
    RelaxationKind.lo12Rs1ToZero.apply offset out (8 * offset + j) =
      if 15 ≤ j ∧ j < 20 then false else out (8 * offset + j) := by
  simp only [RelaxationKind.apply, setBits_at, Nat.zero_testBit]

theorem hi20ToCLui_at (offset j : ℕ) (out : Bits) :
    RelaxationKind.hi20ToCLui.apply offset out (8 * offset + j) =
      if 12 ≤ j ∧ j < 16 then (6).testBit (j - 12)
      else if j < 7 then (1).testBit j else out (8 * offset + j) := by
  have hstart := @setBits_at 7 1 out offset 0 j
  simp only [Nat.zero_le, true_and, Nat.zero_add, Nat.sub_zero, Nat.add_zero] at hstart
  simp only [RelaxationKind.apply, setBits_at, hstart]

variable {insn : RiscVInstruction} {offset value : ℕ} {out : Bits}

theorem writeToValue_below {i : ℕ}
    (h : i < 8 * offset) : insn.writeToValue value offset out i = out i := by
  have hbelow {first : ℕ} : i < 8 * offset + first := by omega
  cases insn <;> simp only [RiscVInstruction.writeToValue, setBits_below hbelow]

theorem writeToValue_above {i : ℕ}
    (h : 8 * offset + 32 ≤ i) : insn.writeToValue value offset out i = out i := by
  have habove {first length : ℕ} (hle : first + length ≤ 32) :
      8 * offset + first + length ≤ i := by omega
  cases insn
  · exact setBits_above (habove (by decide))
  · exact setBits_above (habove (by decide))
  · exact (setBits_above (habove (by decide))).trans (setBits_above (habove (by decide)))
  · exact (setBits_above (habove (by decide))).trans (setBits_above (habove (by decide)))

theorem clui_above {i : ℕ} (h : 8 * offset + 16 ≤ i) :
    RiscVInstruction.cluiType.writeToValue value offset
      (RelaxationKind.hi20ToCLui.apply offset out) i = out i := by
  have hsplit {first length value : ℕ} {bits : Bits} (hle : first + length ≤ 16) :
      setBits (8 * offset + first) length value bits i = bits i :=
    setBits_above (by omega)
  simp only [RiscVInstruction.writeToValue, RelaxationKind.apply]
  rw [hsplit (by decide), hsplit (by decide), hsplit (by decide)]
  exact @hsplit 0 7 1 out (by decide)

theorem clui_below {i : ℕ} (h : i < 8 * offset) :
    RiscVInstruction.cluiType.writeToValue value offset
      (RelaxationKind.hi20ToCLui.apply offset out) i = out i := by
  rw [writeToValue_below h]
  simp only [RelaxationKind.apply]
  rw [setBits_below (by omega), setBits_below h]

theorem lo12Rs1ToZero_outside {i : ℕ} (h : i < 8 * offset ∨ 8 * offset + 32 ≤ i) :
    RelaxationKind.lo12Rs1ToZero.apply offset out i = out i := by
  rcases h with h | h
  · exact setBits_below (by omega)
  · exact setBits_above (by omega)

theorem testBit_hi20_of_isZero (h : hi20IsZero value = true) {k : ℕ} (hk : k < 20) :
    (hi20 value).testBit k = false := by
  have hzero : hi20 value % 2 ^ 20 = 0 := by simpa [hi20IsZero] using h
  have := Nat.testBit_mod_two_pow (hi20 value) 20 k
  rw [hzero] at this
  simpa [hk] using this.symm

/-! ## Where the kept bytes are -/

section

variable {deletions : List (ℕ × ℕ)}

/-- The bytes of a range are all kept. -/
def Kept (deletions : List (ℕ × ℕ)) (offset length : ℕ) : Prop :=
  ∀ byte, offset ≤ byte → byte < offset + length → ¬ Deleted deletions byte

variable {offset : ℕ}

theorem keptBefore_succ (h : ¬ Deleted deletions offset) :
    keptBefore deletions (offset + 1) = keptBefore deletions offset + 1 :=
  Nat.count_succ_eq_succ_count_iff.2 h

theorem keptBefore_mono {a b : ℕ} (h : a ≤ b) : keptBefore deletions a ≤ keptBefore deletions b :=
  Nat.count_monotone _ h

theorem Kept.keptBefore_add {length : ℕ} (h : Kept deletions offset length) {k : ℕ}
    (hk : k ≤ length) : keptBefore deletions (offset + k) = keptBefore deletions offset + k := by
  induction k with
  | zero => rfl
  | succ k ih =>
    have hbyte : ¬ Deleted deletions (offset + k) := h _ (by omega) (by omega)
    rw [← Nat.add_assoc, keptBefore_succ hbyte, ih (by omega), Nat.add_assoc]

theorem Kept.keptBefore_le {length other : ℕ} (h : Kept deletions offset length)
    (hother : offset + length ≤ other) :
    keptBefore deletions offset + length ≤ keptBefore deletions other :=
  (h.keptBefore_add (Nat.le_refl _)).symm.trans_le (keptBefore_mono hother)

theorem exists_not_deleted (deletions : List (ℕ × ℕ)) (offset : ℕ) :
    ∃ byte, offset ≤ byte ∧ ¬ Deleted deletions byte := by
  refine ⟨offset + (deletions.map fun entry => entry.1 + entry.2).sum, by omega, ?_⟩
  rintro ⟨entry, hentry, -, hend⟩
  have := List.le_sum_of_mem (List.mem_map_of_mem (f := fun entry => entry.1 + entry.2) hentry)
  omega

theorem exists_next (deletions : List (ℕ × ℕ)) (offset : ℕ) :
    ∃ next, offset ≤ next ∧ ¬ Deleted deletions next ∧
      keptBefore deletions next = keptBefore deletions offset ∧
      ∀ byte, offset ≤ byte → byte < next → Deleted deletions byte := by
  classical
  have hexists := exists_not_deleted deletions offset
  obtain ⟨hle, hkept⟩ := Nat.find_spec hexists
  have hdel : ∀ byte, offset ≤ byte → byte < Nat.find hexists → Deleted deletions byte :=
    fun byte hbyte hlt => Classical.byContradiction fun hnot =>
      Nat.find_min hexists hlt ⟨hbyte, hnot⟩
  refine ⟨Nat.find hexists, hle, hkept, ?_, hdel⟩
  have hsame : ∀ k, offset + k ≤ Nat.find hexists →
      keptBefore deletions (offset + k) = keptBefore deletions offset := by
    intro k hk
    induction k with
    | zero => rfl
    | succ k ih =>
      have hbyte := hdel (offset + k) (by omega) (by omega)
      have hcount : keptBefore deletions (offset + k + 1) = keptBefore deletions (offset + k) :=
        Nat.count_succ_eq_count_iff.2 (not_not_intro hbyte)
      rw [← Nat.add_assoc, hcount, ih (by omega)]
  have := hsame (Nat.find hexists - offset) (by omega)
  rwa [Nat.add_sub_cancel' hle] at this

end

/-! ## The copied section -/

variable {deltas : List RelaxDelta}

theorem deletedBefore_le_sub {start : ℕ} (hspaced : (deltas.map raw).Pairwise Spaced)
    (hstart : ∀ delta ∈ deltas, start ≤ delta.inputOffset)
    (hoff : ¬ Deleted (deltas.map raw) offset) (hle : start ≤ offset) :
    deletedBefore (deltas.map raw) offset ≤ offset - start := by
  induction deltas generalizing start with
  | nil => simp
  | cons delta deltas ih =>
    obtain ⟨hdelta, hrest⟩ := List.pairwise_cons.1 hspaced
    rw [List.map_cons, deletedBefore_cons]
    have hfirst := hstart delta List.mem_cons_self
    have hnot := mt deleted_cons.2 hoff
    simp only [raw] at hnot
    rcases Nat.lt_or_ge delta.raw.1 offset with hlt | hge
    · have hlt' : delta.inputOffset < offset := hlt
      rw [if_pos hlt]
      show delta.bytesDeleted + _ ≤ _
      have hend : ∀ other ∈ deltas, delta.inputOffset + delta.bytesDeleted ≤ other.inputOffset :=
        fun other hother => (hdelta _ (List.mem_map_of_mem hother)).2
      have := ih hrest hend (fun h => hnot (.inr h)) (by omega)
      omega
    · have hzero : deletedBefore (deltas.map raw) offset = 0 := by
        refine deletedBefore_of_le fun entry hentry => ?_
        exact Nat.le_of_lt (Nat.lt_of_le_of_lt hge (hdelta entry hentry).1)
      rw [if_neg (Nat.not_lt.2 hge)]
      omega

theorem getElem?_copyKept {inputData : List UInt8} {start : ℕ}
    (hspaced : (deltas.map raw).Pairwise Spaced)
    (hstart : ∀ delta ∈ deltas, start ≤ delta.inputOffset)
    (hoff : ¬ Deleted (deltas.map raw) offset) (hle : start ≤ offset)
    (hlt : offset < inputData.length) :
    (copyKept inputData start deltas)[offset - start -
      deletedBefore (deltas.map raw) offset]? = inputData[offset]? := by
  induction deltas generalizing start with
  | nil =>
    rw [copyKept, List.getElem?_drop]
    congr 1
    simp only [List.map_nil, deletedBefore_nil]
    omega
  | cons delta deltas ih =>
    have hbound := deletedBefore_le_sub hspaced hstart hoff hle
    rw [List.map_cons] at hspaced hoff hbound ⊢
    obtain ⟨hdelta, hrest⟩ := List.pairwise_cons.1 hspaced
    have hfirst := hstart delta List.mem_cons_self
    have hnot := mt deleted_cons.2 hoff
    rw [copyKept]
    rcases Nat.lt_or_ge offset delta.inputOffset with hbefore | hafter
    · have hzero : deletedBefore (delta.raw :: deltas.map raw) offset = 0 := by
        refine deletedBefore_of_le fun entry hentry => ?_
        rcases List.mem_cons.1 hentry with rfl | hentry
        · exact Nat.le_of_lt hbefore
        · have := (hdelta entry hentry).1
          simp only [raw] at this
          omega
      rw [hzero, Nat.sub_zero, List.getElem?_append_left, List.getElem?_drop,
        List.getElem?_take_of_lt (by omega)]
      · congr 1
        omega
      · rw [List.length_drop, List.length_take]
        omega
    · have hend : delta.inputOffset + delta.bytesDeleted ≤ offset := by
        simp only [raw] at hnot
        omega
      have hlater : ∀ other ∈ deltas, delta.inputOffset + delta.bytesDeleted ≤ other.inputOffset :=
        fun other hother => (hdelta _ (List.mem_map_of_mem hother)).2
      have hoff' : ¬ Deleted (deltas.map raw) offset := fun h => hnot (.inr h)
      have hbound' := deletedBefore_le_sub hrest hlater hoff' hend
      have hfirstBytes : (if delta.raw.1 < offset then delta.raw.2 else 0) =
          delta.bytesDeleted := by
        split
        · rfl
        case isFalse hge =>
          simp only [raw] at hge
          omega
      rw [deletedBefore_cons] at hbound ⊢
      rw [List.getElem?_append_right, ← ih hrest hlater hoff' hend]
      · congr 1
        rw [List.length_drop, List.length_take]
        omega
      · rw [List.length_drop, List.length_take]
        omega

section

variable {deltas : SectionRelaxDeltas} {deletions : List (ℕ × ℕ)} {inputData : List UInt8}

variable {offset : ℕ}

theorem getElem?_copyKept_keptBefore (h : deltas.Keeps deletions)
    (hkept : ¬ Deleted deletions offset) (hlt : offset < inputData.length) :
    (copyKept inputData 0 deltas.deltas)[keptBefore deletions offset]? = inputData[offset]? := by
  have hdel : ¬ Deleted deltas.raw offset := by
    rintro ⟨entry, hentry, hrange⟩
    exact hkept ⟨entry, h.perm.mem_iff.1 hentry, hrange⟩
  have hbytes := getElem?_copyKept h.spaced (fun _ _ => Nat.zero_le _) hdel (Nat.zero_le _) hlt
  have hcount := deletedBefore_add_keptBefore h.apart (not_strictlyInside_of_not_deleted hkept)
  rw [← deletedBefore_perm h.perm] at hcount
  rw [← hbytes]
  congr 1
  show _ = offset - 0 - deletedBefore deltas.raw offset
  omega

theorem bitsOf_copyKept (h : deltas.Keeps deletions) {length : ℕ}
    (hkept : Kept deletions offset length) (hlt : offset + length ≤ inputData.length) {j : ℕ}
    (hj : j < 8 * length) :
    bitsOf (copyKept inputData 0 deltas.deltas) (8 * keptBefore deletions offset + j) =
      bitsOf inputData (8 * offset + j) := by
  have hbyte := getElem?_copyKept_keptBefore h (hkept (offset + j / 8) (by omega) (by omega))
    (show offset + j / 8 < inputData.length by omega)
  rw [hkept.keptBefore_add (by omega)] at hbyte
  have hout : (8 * keptBefore deletions offset + j) / 8 = keptBefore deletions offset + j / 8 := by
    omega
  have hin : (8 * offset + j) / 8 = offset + j / 8 := by omega
  have hbit : (8 * keptBefore deletions offset + j) % 8 = (8 * offset + j) % 8 := by omega
  simp only [bitsOf, List.getD_eq_getElem?_getD, hout, hin, hbit, hbyte]

theorem lt_length_copyKept (h : deltas.Keeps deletions) {length : ℕ}
    (hkept : Kept deletions offset (length + 1)) (hlt : offset + (length + 1) ≤ inputData.length) :
    keptBefore deletions offset + (length + 1) ≤ (copyKept inputData 0 deltas.deltas).length := by
  have hbyte := getElem?_copyKept_keptBefore h (hkept (offset + length) (by omega) (by omega))
    (show offset + length < inputData.length by omega)
  have hin : offset + length < inputData.length := by omega
  rw [hkept.keptBefore_add (by omega), List.getElem?_eq_getElem hin] at hbyte
  have := (List.getElem?_eq_some_iff.1 hbyte).1
  omega

/-! ## What the writer sees of the deltas -/

theorem exists_of_hasDeltaAt (h : deltas.Keeps deletions) :
    deltas.hasDeltaAt offset = true ↔ ∃ bytes, (offset, bytes) ∈ deletions := by
  simp only [SectionRelaxDeltas.hasDeltaAt, List.any_eq_true, beq_iff_eq]
  constructor
  · rintro ⟨delta, hdelta, rfl⟩
    exact ⟨delta.bytesDeleted, h.raw_mem hdelta⟩
  · rintro ⟨bytes, hentry⟩
    obtain ⟨delta, hdelta, hraw⟩ := List.mem_map.1 (h.perm.mem_iff.2 hentry)
    exact ⟨delta, hdelta, congrArg Prod.fst hraw⟩

end

end Sld.Layout.AddressParts
