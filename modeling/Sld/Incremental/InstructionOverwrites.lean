/-
# `Incremental.InstructionOverwrites` — an immediate that is written twice

A relocation may be written over an instruction whose immediate is already
filled: compilers leave immediates there, and a patch writes the relocations
of the last link again.  RISC-V and LoongArch64 instructions, MOVN, MOVZ and
`MachOLow12` are cleared before they are filled.  In the other AArch64
instructions a value is merged with the bits that are there.

The bits beyond the immediate stay, but for values that are too large for it.
-/
import Sld.Incremental.InstructionWords

namespace Sld.Incremental.Fields

open Store (Place testBit_image)

/-! ## The bits of an immediate -/

/-- The ranges of the bits that belong to the immediate.  With MOVN and MOVZ
the bits of the opcode belong to it. -/
def AArch64Instruction.field : AArch64Instruction → List (ℕ × ℕ)
  | adr => [(5, 24), (29, 31)]
  | movkz => [(5, 21)]
  | movnz => [(5, 21), (23, 32)]
  | ldr | bcond => [(5, 24)]
  | ldrRegister | add | ldSt => [(10, 22)]
  | tstBr => [(5, 19)]
  | jumpCall => [(0, 26)]

def RiscVInstruction.field : RiscVInstruction → List (ℕ × ℕ)
  | uiType => [(12, 32), (52, 64)]
  | uType | jType => [(12, 32)]
  | iType => [(20, 32)]
  | sType | bType => [(7, 12), (25, 32)]
  | cbType => [(2, 7), (10, 13)]
  | cjType => [(2, 13)]
  | cluiType => [(2, 7), (12, 13)]

def LoongArch64Instruction.field : LoongArch64Instruction → List (ℕ × ℕ)
  | shift5 => [(5, 25)]
  | shift10 => [(10, 22)]
  | branch26 => [(0, 26)]
  | branch21 => [(0, 5), (10, 26)]
  | call30 => [(5, 25), (42, 51)]
  | call36 => [(5, 25), (42, 58)]

def Instruction.field : Instruction → List (ℕ × ℕ)
  | elf (.aarch64 instruction) => instruction.field
  | elf (.riscV instruction) => instruction.field
  | elf (.loongArch64 instruction) => instruction.field
  | machOLow12 => [(10, 22)]

def Instruction.InField (instruction : Instruction) (i : ℕ) : Prop :=
  ∃ range ∈ instruction.field, range.1 ≤ i ∧ i < range.2

instance (instruction : Instruction) (i : ℕ) : Decidable (instruction.InField i) :=
  inferInstanceAs (Decidable (∃ range ∈ instruction.field, _))

/-- The instructions that are not cleared. -/
def Instruction.merges : Instruction → Bool
  | elf (.aarch64 .movnz) => false
  | elf (.aarch64 _) => true
  | elf (.riscV _) | elf (.loongArch64 _) | machOLow12 => false

variable {i : ℕ} {instruction : Instruction}

theorem lt_size_of_inField (h : instruction.InField i) : i < 8 * instruction.size := by
  obtain ⟨range, hmem, -, hlt⟩ := h
  refine Nat.lt_of_lt_of_le hlt ?_
  have hranges : ∀ range ∈ instruction.field, range.2 ≤ 8 * instruction.size := by
    rcases instruction with (i | i | i) | - <;> first | decide | (cases i <;> decide)
  exact hranges range hmem

theorem testBit_kept (h : i < 8 * instruction.size) :
    instruction.kept.testBit i = (instruction.merges || !decide (instruction.InField i)) := by
  have hbits : ∀ i < 8 * instruction.size, instruction.kept.testBit i =
      (instruction.merges || !decide (instruction.InField i)) := by
    rcases instruction with (i | i | i) | - <;>
      first | decide +kernel | (cases i <;> decide +kernel)
  exact hbits i h

/-! ## What was there before -/

variable {instruction : Instruction} {v v' : UInt64} {negative negative' : Bool}
  {dest dest' : List UInt8}

/-- What a value leaves of the word, and that nothing but the value decides
what is in the immediate. -/
structure Instruction.Overwrites (instruction : Instruction) (v v' : UInt64)
    (negative negative' : Bool) (dest : List UInt8) : Prop where
  outside : ∀ i, ¬ instruction.InField i →
    (ofLeBytes (instruction.writeToValue v negative dest)).testBit i = (ofLeBytes dest).testBit i
  inside : ∀ i, instruction.InField i →
    (ofLeBytes (instruction.writeToValue v negative dest)).testBit i =
      (instruction.encoded v negative dest).testBit i
  again : instruction.writeToValue v' negative' (instruction.writeToValue v negative dest) =
    instruction.writeToValue v' negative' dest

/-- No bit that the value sets beyond the immediate is clear in the word. -/
def Instruction.StaysInside (instruction : Instruction) (v : UInt64) (negative : Bool)
    (dest : List UInt8) : Prop :=
  ∀ i < 8 * instruction.size, ¬ instruction.InField i →
    (instruction.encoded v negative dest).testBit i → (ofLeBytes dest).testBit i

/-- The bits of the immediate that are set are set in the value, and those of
the value in the word or in the next value. -/
def Instruction.MergesTo (instruction : Instruction) (v v' : UInt64) (negative negative' : Bool)
    (dest : List UInt8) : Prop :=
  ∀ i, instruction.InField i →
    ((ofLeBytes dest).testBit i → (instruction.encoded v negative dest).testBit i) ∧
    ((instruction.encoded v negative dest).testBit i →
      (ofLeBytes dest).testBit i ∨ (instruction.encoded v' negative' dest).testBit i)

/-! ## The size of an access -/

theorem testBit_toNat_eq_false (n : UInt32) (h : ¬ i < 32) : n.toNat.testBit i = false :=
  Nat.testBit_lt_two_pow (Nat.lt_of_lt_of_le (UInt32.toNat_lt n)
    (Nat.pow_le_pow_right (by decide) (Nat.le_of_not_lt h)))

theorem and_eq_of_testBit {a b mask : UInt32}
    (h : ∀ i < 32, mask.toNat.testBit i → a.toNat.testBit i = b.toNat.testBit i) :
    a &&& mask = b &&& mask := by
  refine UInt32.toNat_inj.1 (Nat.eq_of_testBit_eq fun i => ?_)
  rw [UInt32.toNat_and, UInt32.toNat_and, Nat.testBit_and, Nat.testBit_and]
  cases hmask : mask.toNat.testBit i with
  | false => rw [Bool.and_false, Bool.and_false]
  | true =>
    have hi : i < 32 := by
      by_contra hi
      rw [testBit_toNat_eq_false mask hi] at hmask
      cases hmask
    rw [h i hi hmask]

theorem machOScale_congr {a b : UInt32}
    (h : ∀ i < 32, ¬ Instruction.machOLow12.InField i → a.toNat.testBit i = b.toNat.testBit i) :
    machOScale a = machOScale b := by
  have hmask : ∀ mask : UInt32,
      (∀ i < 32, mask.toNat.testBit i → ¬ Instruction.machOLow12.InField i) →
        a &&& mask = b &&& mask :=
    fun mask hmask => and_eq_of_testBit fun i hi hbit => h i hi (hmask i hi hbit)
  have hshift : a >>> 30 = b >>> 30 := by
    refine UInt32.toNat_inj.1 (Nat.eq_of_testBit_eq fun i => ?_)
    show (a.toNat >>> 30).testBit i = (b.toNat >>> 30).testBit i
    rw [Nat.testBit_shiftRight, Nat.testBit_shiftRight]
    by_cases hi : 30 + i < 32
    · refine h _ hi ?_
      rintro ⟨range, hmem, -, hlt⟩
      obtain rfl := List.mem_singleton.1 hmem
      exact absurd hlt (by show ¬ 30 + i < 22; omega)
    · rw [testBit_toNat_eq_false a hi, testBit_toNat_eq_false b hi]
  unfold machOScale
  rw [hshift, hmask 0x3B000000 (by decide +kernel), hmask 0x04800000 (by decide +kernel)]

theorem encoded_congr (v : UInt64) (negative : Bool) (h : ∀ i, ¬ instruction.InField i →
    (ofLeBytes dest).testBit i = (ofLeBytes dest').testBit i) :
    instruction.encoded v negative dest = instruction.encoded v negative dest' := by
  cases instruction with
  | elf instruction => rfl
  | machOLow12 =>
    have hscale : machOScale (u32FromSlice dest) = machOScale (u32FromSlice dest') := by
      refine machOScale_congr fun i hi hfield => ?_
      have hword : ∀ bytes : List UInt8, (u32FromSlice bytes).toNat.testBit i =
          (ofLeBytes bytes).testBit i := fun bytes => by
        rw [toNat_u32FromSlice, Nat.testBit_mod_two_pow, decide_eq_true hi, Bool.true_and]
      rw [hword, hword, h i hfield]
    show Place.image ⟨(machOScale (u32FromSlice dest)).toNat, _, 10⟩ _ = _
    rw [hscale]
    rfl

/-! ## Values in range -/

/-- The bits that a value may have, so that the immediate holds it. -/
def RelocationInstruction.width : RelocationInstruction → ℕ
  | aarch64 .adr => 21
  | aarch64 .movkz => 16
  | aarch64 .movnz => 64
  | aarch64 .ldr | aarch64 .bcond => 19
  | aarch64 .ldrRegister | aarch64 .add | aarch64 .ldSt => 12
  | aarch64 .tstBr => 14
  | aarch64 .jumpCall => 26
  | riscV _ => 64
  | loongArch64 .shift5 | loongArch64 .call30 => 20
  | loongArch64 .shift10 => 12
  | loongArch64 .branch26 => 26
  | loongArch64 .branch21 => 21
  | loongArch64 .call36 => 36

/-- The immediate holds the value, with what is added to it. -/
def Instruction.InRange (v : UInt64) (negative : Bool) : Instruction → Prop
  | elf instruction => ∀ part ∈ instruction.parts,
      (instruction.operand v negative + part.added).toNat < 2 ^ instruction.width
  | machOLow12 => v.toNat < 2 ^ 12

instance (v : UInt64) (negative : Bool) :
    (instruction : Instruction) → Decidable (instruction.InRange v negative)
  | .elf instruction => inferInstanceAs (Decidable (∀ part ∈ instruction.parts, _))
  | .machOLow12 => inferInstanceAs (Decidable (_ < _))

theorem testBit_encodeParts (parts : List Part) (value : UInt64) (i : ℕ) :
    (encodeParts parts value).testBit i =
      parts.any fun part => (part.place.image (value + part.added).toNat).testBit i := by
  induction parts with
  | nil => rw [encodeParts_nil, Nat.zero_testBit, List.any_nil]
  | cons part parts ih => rw [encodeParts_cons, Nat.testBit_or, ih, List.any_cons]

theorem testBit_image_of_lt {place : Place} {value width : ℕ} (h : value < 2 ^ width)
    (hbit : (place.image value).testBit i) :
    place.dest ≤ i ∧ i < place.dest + place.len ∧ place.source + (i - place.dest) < width := by
  rw [testBit_image, Bool.and_eq_true, decide_eq_true_eq] at hbit
  refine ⟨hbit.1.1, hbit.1.2, Nat.lt_of_not_le fun hle => ?_⟩
  rw [Nat.testBit_lt_two_pow (Nat.lt_of_lt_of_le h (Nat.pow_le_pow_right (by decide) hle))] at hbit
  exact Bool.false_ne_true hbit.2

theorem staysInside_of_inRange (h : instruction.InRange v negative) :
    instruction.StaysInside v negative dest := by
  intro i hi hfield hbit
  refine absurd ?_ hfield
  cases instruction with
  | elf instruction =>
    have hopcode : ∀ i < 8 * instruction.size,
        (instruction.opcode negative).testBit i → (Instruction.elf instruction).InField i := by
      rcases instruction with i | i | i <;> cases i <;> cases negative <;> decide +kernel
    have hplaces : ∀ part ∈ instruction.parts, ∀ i < 8 * instruction.size,
        part.place.dest ≤ i → i < part.place.dest + part.place.len →
          part.place.source + (i - part.place.dest) < instruction.width →
            (Instruction.elf instruction).InField i := by
      rcases instruction with i | i | i <;> cases i <;> decide +kernel
    have hencoded : (instruction.opcode negative |||
        encodeParts instruction.parts (instruction.operand v negative)).testBit i := hbit
    rw [Nat.testBit_or, testBit_encodeParts, Bool.or_eq_true, List.any_eq_true] at hencoded
    rcases hencoded with hop | ⟨part, hmem, hpart⟩
    · exact hopcode i hi hop
    · obtain ⟨hle, hlt, hwidth⟩ := testBit_image_of_lt (h part hmem) hpart
      exact hplaces part hmem i hi hle hlt hwidth
  | machOLow12 =>
    obtain ⟨hle, -, hwidth⟩ := testBit_image_of_lt h hbit
    refine ⟨(10, 22), List.mem_singleton_self _, hle, ?_⟩
    have hlow : (machOScale (u32FromSlice dest)).toNat + (i - 10) < 12 := hwidth
    omega

/-! ## When a value is overwritten -/

section

variable (h : instruction.size ≤ dest.length)

include h

theorem testBit_written {i : ℕ} (hi : i < 8 * instruction.size) :
    (ofLeBytes (instruction.writeToValue v negative dest)).testBit i =
      ((ofLeBytes dest).testBit i && (instruction.merges || !decide (instruction.InField i)) ||
        (instruction.encoded v negative dest).testBit i) := by
  rw [testBit_writeToValue instruction v negative h, if_pos hi, testBit_kept hi]

theorem testBit_written_outside (hi : i < 8 * instruction.size) (hfield : ¬ instruction.InField i) :
    (ofLeBytes (instruction.writeToValue v negative dest)).testBit i =
      ((ofLeBytes dest).testBit i || (instruction.encoded v negative dest).testBit i) := by
  rw [testBit_written h hi, decide_eq_false hfield, Bool.not_false, Bool.or_true, Bool.and_true]

theorem outside_iff : (∀ i, ¬ instruction.InField i →
      (ofLeBytes (instruction.writeToValue v negative dest)).testBit i =
        (ofLeBytes dest).testBit i) ↔ instruction.StaysInside v negative dest := by
  constructor
  · intro houtside i hi hfield hbit
    have hwritten := houtside i hfield
    rw [testBit_written_outside h hi hfield, hbit, Bool.or_true] at hwritten
    exact hwritten.symm
  · intro hstays i hfield
    by_cases hi : i < 8 * instruction.size
    · rw [testBit_written_outside h hi hfield]
      exact Bool.or_eq_left_iff_imp.2 (hstays i hi hfield)
    · rw [testBit_writeToValue instruction v negative h, if_neg hi]

theorem testBit_written_cleared (hmerges : instruction.merges = false) {i : ℕ}
    (hfield : instruction.InField i) :
    (ofLeBytes (instruction.writeToValue v negative dest)).testBit i =
      (instruction.encoded v negative dest).testBit i := by
  rw [testBit_written h (lt_size_of_inField hfield), hmerges, decide_eq_true hfield,
    Bool.not_true, Bool.or_false, Bool.and_false, Bool.false_or]

theorem testBit_written_merged (hmerges : instruction.merges = true)
    (hi : i < 8 * instruction.size) :
    (ofLeBytes (instruction.writeToValue v negative dest)).testBit i =
      ((ofLeBytes dest).testBit i || (instruction.encoded v negative dest).testBit i) := by
  rw [testBit_written h hi, hmerges, Bool.true_or, Bool.and_true]

end

/-- A second value takes the place of the first exactly if the first set no clear bit
beyond the immediate and, in a merged field, none that the second lacks. -/
theorem overwrites_iff (h : instruction.size ≤ dest.length) :
    instruction.Overwrites v v' negative negative' dest ↔
      instruction.StaysInside v negative dest ∧
        (instruction.merges = true → instruction.MergesTo v v' negative negative' dest) := by
  have hlen := length_writeToValue instruction v negative h
  have hagain : instruction.size ≤ (instruction.writeToValue v negative dest).length :=
    hlen ▸ h
  constructor
  · intro hover
    refine ⟨(outside_iff h).1 hover.outside, fun hmerges i hfield => ?_⟩
    refine ⟨fun hbit => ?_, fun hbit => ?_⟩
    · have hinside := hover.inside i hfield
      rw [testBit_written_merged h hmerges (lt_size_of_inField hfield), hbit, Bool.true_or]
        at hinside
      exact hinside.symm
    · have hi := lt_size_of_inField hfield
      have htwice := congrArg (fun bytes => (ofLeBytes bytes).testBit i) hover.again
      have hencoded := encoded_congr v' negative' hover.outside
      simp only [testBit_written_merged hagain hmerges hi, testBit_written_merged h hmerges hi,
        hencoded, hbit, Bool.or_true, Bool.true_or] at htwice
      exact Bool.or_eq_true_iff.1 htwice.symm
  · rintro ⟨hstays, hmerge⟩
    have houtside := (outside_iff h).2 hstays
    refine ⟨houtside, fun i hfield => ?_, ?_⟩
    · cases hmerges : instruction.merges with
      | false => exact testBit_written_cleared h hmerges hfield
      | true =>
        rw [testBit_written_merged h hmerges (lt_size_of_inField hfield)]
        exact Bool.or_eq_right_iff_imp.2 (hmerge hmerges i hfield).1
    · refine bytes_eq_of_testBit ?_ fun i => ?_
      · rw [length_writeToValue _ _ _ hagain, hlen,
          length_writeToValue instruction v' negative' h]
      · by_cases hfield : instruction.InField i
        · have hencoded := encoded_congr v' negative' houtside
          cases hmerges : instruction.merges with
          | false =>
            rw [testBit_written_cleared hagain hmerges hfield,
              testBit_written_cleared h hmerges hfield, hencoded]
          | true =>
            have hi := lt_size_of_inField hfield
            obtain ⟨-, hnext⟩ := hmerge hmerges i hfield
            rw [testBit_written_merged hagain hmerges hi, testBit_written_merged h hmerges hi,
              testBit_written_merged h hmerges hi, hencoded, Bool.or_right_comm]
            exact Bool.or_eq_left_iff_imp.2 fun hbit => Bool.or_eq_true_iff.2 (hnext hbit)
        · rw [testBit_writeToValue _ _ _ hagain, testBit_writeToValue instruction v' negative' h,
            houtside i hfield, encoded_congr _ _ houtside]

/-- A call that is written over a call: the offset is cleared first. -/
theorem overwrites_branch26 :
    (Instruction.elf (.loongArch64 .branch26)).Overwrites 0x10 0x20 false false
      [0x00, 0x34, 0x12, 0x54] :=
  (overwrites_iff (by decide)).2
    ⟨staysInside_of_inRange (by decide +kernel), nofun⟩

/-- A load from the next word but one, written over a load from the next
word, is a load from the one after these. -/
theorem load_over_load_merges :
    (Instruction.elf (.aarch64 .ldr)).writeToValue 2 false [0x20, 0x00, 0x00, 0x58] =
        [0x60, 0x00, 0x00, 0x58] ∧
      ¬ ∀ (instruction : Instruction) (v v' : UInt64) (negative negative' : Bool)
        (dest : List UInt8), instruction.size ≤ dest.length → instruction.InRange v negative →
          instruction.InRange v' negative' →
            instruction.Overwrites v v' negative negative' dest := by
  refine ⟨by decide +kernel, fun h => ?_⟩
  have hover := h (.elf (.aarch64 .ldr)) 2 2 false false [0x20, 0x00, 0x00, 0x58] (by decide)
    (by decide +kernel) (by decide +kernel)
  have hbit := hover.inside 5 (by decide)
  revert hbit
  decide +kernel

end Sld.Incremental.Fields
