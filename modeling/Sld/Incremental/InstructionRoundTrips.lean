/-
# `Incremental.InstructionRoundTrips` — reading what was written

`read_value` is meant to be the inverse of `write_to_value`.

    Instruction.ReadsBack                  the value that is read gives the word again
    RelocationInstruction.KeepsValue       when it does, for most instructions

A value that was merged with other bits is read with them.  A negative value
is read with its sign, and writing it sets the bits above the immediate.
The rounded upper part of a value is read as if it were a low one, and the
two words of a call are read one in the place of the other.
-/
import Sld.Incremental.InstructionOverwrites
import Sld.Incremental.InstructionReads

namespace Sld.Incremental.Fields

open Store (Pair range_eq_iff testBit_gather_of_pair testBit_image_iff)
open Instruction (elf)

/-! ## What is read -/

/-- The bits of a value that an immediate holds. -/
def RelocationInstruction.held : RelocationInstruction → List Part
  | riscV .uType => [⟨0x800, 12, 20, 12⟩]
  | riscV .uiType => [⟨0x800, 12, 20, 12⟩, ⟨0, 0, 12, 52⟩]
  | riscV .cluiType => [⟨0x800, 12, 5, 2⟩, ⟨0x800, 17, 1, 12⟩]
  | loongArch64 .call30 => [⟨0, 0, 9, 42⟩, ⟨0, 9, 11, 14⟩]
  | loongArch64 .call36 => [⟨0, 0, 16, 42⟩, ⟨0x8000, 16, 20, 5⟩]
  | instruction => instruction.places.map (Part.mk 0)

/-- Two values have the same bits in an immediate. -/
def RelocationInstruction.Agree (instruction : RelocationInstruction) (v v' : UInt64) : Prop :=
  ∀ part ∈ instruction.held, ∀ i, part.place.source ≤ i → i < part.place.source + part.place.len →
    (v' + part.added).toNat.testBit i = (v + part.added).toNat.testBit i

/-- What is read encodes to the same word, and is the value as far as the
immediate holds it. -/
def Instruction.ReadsBack (v : UInt64) (negative : Bool) (dest : List UInt8)
    (instruction : Instruction) : Prop :=
  ∃ elf v' negative', instruction = .elf elf ∧
    instruction.readValue (instruction.writeToValue v negative dest) = some (v', negative') ∧
      instruction.writeToValue v' negative' dest = instruction.writeToValue v negative dest ∧
        elf.Agree v v'

/-- From here on, the bits of an instruction are those of a sign that is
written. -/
def RelocationInstruction.signEnd : RelocationInstruction → ℕ
  | aarch64 .adr | aarch64 .ldr | aarch64 .bcond => 24
  | aarch64 .movkz => 21
  | aarch64 .ldSt => 22
  | aarch64 .tstBr => 19
  | aarch64 .jumpCall => 26
  | loongArch64 .branch26 => 10
  | loongArch64 .branch21 => 5
  | instruction => 8 * instruction.size

/-- A bit of what is written, from the bits that are kept and those of the
value. -/
def Instruction.writtenBit (instruction : Instruction) (v : UInt64) (negative : Bool)
    (dest : List UInt8) (i : ℕ) : Bool :=
  ((ofLeBytes dest).testBit i && (instruction.merges || !decide (instruction.InField i))) ||
    (instruction.encoded v negative dest).testBit i

/-! ## Places that fit -/

namespace RelocationInstruction

/-- No other bit of a value becomes this bit of the word. -/
def Holds (instruction : RelocationInstruction) (i j : ℕ) : Prop :=
  Pair instruction.places i j ∧ ∀ place ∈ instruction.places,
    (place.dest ≤ j ∧ j < place.dest + place.len) → place.source + (j - place.dest) = i

/-- A bit that is too high for the immediate, and may be a bit of a sign. -/
def Above (instruction : RelocationInstruction) (i j : ℕ) : Prop :=
  (instruction.immediateBits ≤ i ∧ instruction.width ≤ i ∧ i < 64) ∧
    (instruction.signed = true → instruction.signEnd ≤ j)

instance (instruction : RelocationInstruction) (i j : ℕ) : Decidable (instruction.Holds i j) :=
  inferInstanceAs (Decidable (_ ∧ _))

instance (instruction : RelocationInstruction) (i j : ℕ) : Decidable (instruction.Above i j) :=
  inferInstanceAs (Decidable (_ ∧ _))

/-- The writer and the reader of an instruction agree about its places: what
the writer takes beyond them is the sign. -/
structure Laid (instruction : RelocationInstruction) : Prop where
  plain : ∀ part ∈ instruction.parts, part.added = 0
  bits : instruction.immediateBits < 64
  inside : ∀ place ∈ instruction.places, ∀ k < place.len,
    place.source + k < instruction.immediateBits ∧
      (Instruction.elf instruction).InField (place.dest + k)
  unique : ∀ place ∈ instruction.places, ∀ k < place.len, ∀ place' ∈ instruction.places,
    (place'.source ≤ place.source + k ∧ place.source + k < place'.source + place'.len) →
      place'.dest + (place.source + k - place'.source) = place.dest + k
  written : ∀ j < 64, (Instruction.elf instruction).InField j → ∃ part ∈ instruction.parts,
    (part.place.dest ≤ j ∧ j < part.place.dest + part.place.len) ∧
      Pair instruction.places (part.place.source + (j - part.place.dest)) j
  covered : ∀ part ∈ instruction.parts, ∀ k < part.place.len,
    instruction.Holds (part.place.source + k) (part.place.dest + k) ∨
      instruction.Above (part.place.source + k) (part.place.dest + k)
  sign : instruction.signed = true →
    ∃ j < 64, Pair instruction.places (instruction.immediateBits - 1) j
  above : instruction.signed = true → ∀ j < 8 * instruction.size, instruction.signEnd ≤ j →
    ∃ part ∈ instruction.parts, (part.place.dest ≤ j ∧ j < part.place.dest + part.place.len) ∧
      instruction.immediateBits ≤ part.place.source + (j - part.place.dest)

variable {instruction : RelocationInstruction}

theorem laid (h : instruction.direct) : instruction.Laid := by
  rcases instruction with i | i | i <;> cases i <;> first
    | exact absurd h (by decide)
    | exact ⟨by decide +kernel, by decide, by decide +kernel, by decide +kernel,
        by decide +kernel, by decide +kernel, by decide +kernel, by decide +kernel⟩

namespace Laid

variable {instruction : RelocationInstruction} {i j : ℕ} {v : UInt64} {negative : Bool}

variable (h : instruction.Laid)

include h

theorem lt_of_pair (hpair : Pair instruction.places i j) :
    i < instruction.immediateBits ∧ (elf instruction).InField j := by
  obtain ⟨place, hmem, ⟨hle, hlt⟩, rfl⟩ := hpair
  have hinside := h.inside place hmem (i - place.source) (by omega)
  rwa [Nat.add_sub_cancel' hle] at hinside

theorem pair_unique (hpair : Pair instruction.places i j) {j' : ℕ}
    (hpair' : Pair instruction.places i j') : j' = j := by
  obtain ⟨place, hmem, ⟨hle, hlt⟩, rfl⟩ := hpair
  obtain ⟨place', hmem', hrange', rfl⟩ := hpair'
  have hunique := h.unique place hmem (i - place.source) (by omega) place' hmem'
  rw [Nat.add_sub_cancel' hle] at hunique
  exact hunique hrange'

variable {part : Part}

theorem sends (hmem : part ∈ instruction.parts) (hsends : part.place.Sends i j) :
    instruction.Holds i j ∨ instruction.Above i j := by
  obtain ⟨⟨hle, hlt⟩, rfl⟩ := hsends
  have hcovered := h.covered part hmem (i - part.place.source) (by omega)
  rwa [Nat.add_sub_cancel' hle] at hcovered

theorem holds_of_pair (hmem : part ∈ instruction.parts) (hsends : part.place.Sends i j)
    (hpair : Pair instruction.places i j) : instruction.Holds i j := by
  rcases h.sends hmem hsends with hholds | habove
  · exact hholds
  · exact absurd (h.lt_of_pair hpair).1 (Nat.not_lt.2 habove.1.1)

omit h in
theorem eq_of_holds (hholds : instruction.Holds i j) {i' : ℕ} (hpair : Pair instruction.places i' j) :
    i' = i := by
  obtain ⟨place, hmem, ⟨hle, hlt⟩, rfl⟩ := hpair
  have hsource := hholds.2 place hmem ⟨Nat.le_add_right _ _, by omega⟩
  rwa [Nat.add_sub_cancel_left, Nat.add_sub_cancel' hle] at hsource

theorem exists_pair (hj : j < 64) (hfield : (elf instruction).InField j) :
    ∃ part ∈ instruction.parts, ∃ i, part.place.Sends i j ∧ Pair instruction.places i j := by
  obtain ⟨part, hmem, ⟨hle, hlt⟩, hpair⟩ := h.written j hj hfield
  refine ⟨part, hmem, _, ⟨⟨Nat.le_add_right _ _, by omega⟩, ?_⟩, hpair⟩
  rw [Nat.add_sub_cancel_left, Nat.add_sub_cancel' hle]

end Laid

theorem operand_direct (h : instruction.direct) (v : UInt64)
    (negative : Bool) : instruction.operand v negative = v := by
  rcases instruction with i | i | i <;> cases i <;> first | rfl | exact absurd h (by decide)

theorem encoded_direct (h : instruction.direct) (v : UInt64)
    (negative : Bool) : instruction.encoded v negative = encodeParts instruction.parts v := by
  rw [← Nat.zero_or (encodeParts instruction.parts v)]
  rcases instruction with i | i | i <;> cases i <;> first | rfl | exact absurd h (by decide)

namespace Laid

variable {instruction : RelocationInstruction} {i j : ℕ} {v : UInt64} {negative : Bool}

variable (h : instruction.Laid)

include h

theorem testBit_encodeParts_iff :
    (encodeParts instruction.parts v).testBit j = true ↔
      ∃ part ∈ instruction.parts, ∃ i, part.place.Sends i j ∧ v.toNat.testBit i = true := by
  rw [testBit_encodeParts, List.any_eq_true]
  refine exists_congr fun part => and_congr_right fun hmem => ?_
  rw [testBit_image_iff, h.plain part hmem, UInt64.add_zero]

theorem testBit_encoded_iff (hdirect : instruction.direct)
    (hrange : (elf instruction).InRange v negative) :
    (encodeParts instruction.parts v).testBit j = true ↔
      ∃ part ∈ instruction.parts, ∃ i, part.place.Sends i j ∧ instruction.Holds i j ∧
        v.toNat.testBit i = true := by
  rw [h.testBit_encodeParts_iff]
  constructor
  · rintro ⟨part, hmem, i, hsends, hbit⟩
    refine ⟨part, hmem, i, hsends, (h.sends hmem hsends).resolve_right fun habove => ?_, hbit⟩
    have hlt : v.toNat < 2 ^ instruction.width := by
      have hpart := hrange part hmem
      rw [h.plain part hmem, UInt64.add_zero] at hpart
      rwa [operand_direct hdirect] at hpart
    rw [Nat.testBit_lt_two_pow
      (Nat.lt_of_lt_of_le hlt (Nat.pow_le_pow_right (by decide) habove.1.2.1))] at hbit
    exact Bool.false_ne_true hbit
  · rintro ⟨part, hmem, i, hsends, -, hbit⟩
    exact ⟨part, hmem, i, hsends, hbit⟩

theorem testBit_encoded_pair (hdirect : instruction.direct)
    (hrange : (elf instruction).InRange v negative) (hj : j < 64)
    (hpair : Pair instruction.places i j) :
    (encodeParts instruction.parts v).testBit j = v.toNat.testBit i := by
  rw [Bool.eq_iff_iff, h.testBit_encoded_iff hdirect hrange]
  constructor
  · rintro ⟨part, hmem, i', hsends, hholds, hbit⟩
    rwa [eq_of_holds hholds hpair]
  · intro hbit
    obtain ⟨part, hmem, i', hsends, hpair'⟩ := h.exists_pair hj (h.lt_of_pair hpair).2
    have hholds := h.holds_of_pair hmem hsends hpair'
    exact ⟨part, hmem, i', hsends, hholds, by rwa [← eq_of_holds hholds hpair]⟩

variable {bytes : List UInt8}

theorem testBit_readValue_pair (bytes : List UInt8) (hdirect : instruction.direct)
    (hpair : Pair instruction.places i j) :
    (instruction.readValue bytes).1.toNat.testBit i = (ofLeBytes bytes).testBit j := by
  have hi := (h.lt_of_pair hpair).1
  rw [testBit_readValue bytes instruction hdirect, readBit,
    decide_eq_true (Nat.lt_trans hi h.bits), Bool.true_and, if_pos hi]
  exact testBit_gather_of_pair hpair fun j' hpair' => h.pair_unique hpair hpair'

theorem testBit_readValue_above (hdirect : instruction.direct) (hi : instruction.immediateBits ≤ i)
    (hi64 : i < 64) :
    (instruction.readValue bytes).1.toNat.testBit i = (instruction.signed &&
        (instruction.readValue bytes).1.toNat.testBit (instruction.immediateBits - 1)) := by
  rw [testBit_readValue bytes instruction hdirect, testBit_readValue bytes instruction hdirect,
    readBit, readBit, decide_eq_true hi64, if_neg (Nat.not_lt.2 hi), Bool.true_and]
  cases hsigned : instruction.signed with
  | false => rfl
  | true =>
    obtain ⟨j, -, hpair⟩ := h.sign hsigned
    have hlast := (h.lt_of_pair hpair).1
    have hbits := h.bits
    rw [decide_eq_true (by omega), if_pos hlast]
    rfl

theorem testBit_encoded_read (bytes : List UInt8) (hdirect : instruction.direct)
    (hj : j < 8 * instruction.size) (hj64 : j < 64) :
    (encodeParts instruction.parts (instruction.readValue bytes).1).testBit j = true ↔
      ((elf instruction).InField j ∧ (ofLeBytes bytes).testBit j = true) ∨
        (instruction.signed = true ∧ instruction.signEnd ≤ j ∧
          (instruction.readValue bytes).1.toNat.testBit (instruction.immediateBits - 1) = true) := by
  rw [h.testBit_encodeParts_iff]
  constructor
  · rintro ⟨part, hmem, i, hsends, hbit⟩
    rcases h.sends hmem hsends with hholds | habove
    · refine .inl ⟨(h.lt_of_pair hholds.1).2, ?_⟩
      rwa [← h.testBit_readValue_pair bytes hdirect hholds.1]
    · rw [h.testBit_readValue_above hdirect habove.1.1 habove.1.2.2, Bool.and_eq_true] at hbit
      exact .inr ⟨hbit.1, habove.2 hbit.1, hbit.2⟩
  · rintro (⟨hfield, hbit⟩ | ⟨hsigned, hend, hbit⟩)
    · obtain ⟨part, hmem, i, hsends, hpair⟩ := h.exists_pair hj64 hfield
      exact ⟨part, hmem, i, hsends, by rwa [h.testBit_readValue_pair bytes hdirect hpair]⟩
    · obtain ⟨part, hmem, ⟨hle, hlt⟩, hbits⟩ := h.above hsigned j hj hend
      have hsends : part.place.Sends (part.place.source + (j - part.place.dest)) j := by
        refine ⟨⟨Nat.le_add_right _ _, by omega⟩, ?_⟩
        rw [Nat.add_sub_cancel_left, Nat.add_sub_cancel' hle]
      have hi64 : part.place.source + (j - part.place.dest) < 64 := by
        rcases h.sends hmem hsends with hholds | habove
        · exact absurd (h.lt_of_pair hholds.1).1 (Nat.not_lt.2 hbits)
        · exact habove.1.2.2
      refine ⟨part, hmem, _, hsends, ?_⟩
      rw [h.testBit_readValue_above hdirect hbits hi64, hsigned, hbit]
      rfl

end Laid

end RelocationInstruction

/-! ## Values made of the bits of the word -/

variable {instruction : RelocationInstruction} {v : UInt64} {negative : Bool} {dest : List UInt8}

theorem size_le (instruction : RelocationInstruction) : 8 * instruction.size ≤ 64 := by
  rcases instruction with i | i | i <;> cases i <;> decide

theorem testBit_writeToValue_eq (h : instruction.size ≤ dest.length) {j : ℕ}
    (hj : j < 8 * instruction.size) :
    (ofLeBytes ((elf instruction).writeToValue v negative dest)).testBit j =
      (elf instruction).writtenBit v negative dest j :=
  @testBit_written (.elf instruction) v negative dest h j hj

theorem agree_iff (hdirect : instruction.direct) {v' : UInt64} : instruction.Agree v v' ↔
    ∀ i j, Pair instruction.places i j → v'.toNat.testBit i = v.toNat.testBit i := by
  have hheld : instruction.held = instruction.places.map (Part.mk 0) := by
    rcases instruction with i | i | i <;> cases i <;> first | rfl | exact absurd hdirect (by decide)
  unfold RelocationInstruction.Agree
  rw [hheld]
  constructor
  · rintro h i j ⟨place, hmem, ⟨hle, hlt⟩, -⟩
    have hpart := h ⟨0, place⟩ (List.mem_map_of_mem hmem) i hle hlt
    rwa [UInt64.add_zero, UInt64.add_zero] at hpart
  · intro h part hmem i hle hlt
    obtain ⟨place, hplace, rfl⟩ := List.mem_map.1 hmem
    rw [UInt64.add_zero, UInt64.add_zero]
    exact h i _ ⟨place, hplace, ⟨hle, hlt⟩, rfl⟩

/-- The bits that are merged with the value are bits of it, and the bits
above a negative value are set. -/
def RelocationInstruction.KeepsValue (v : UInt64) (negative : Bool) (dest : List UInt8)
    (instruction : RelocationInstruction) : Prop :=
  ((Instruction.elf instruction).merges = true → ∀ j, (Instruction.elf instruction).InField j →
    (ofLeBytes dest).testBit j = true → (instruction.encoded v negative).testBit j = true) ∧
  (instruction.signed = true → v.toNat.testBit (instruction.immediateBits - 1) = true →
    ∀ j < 8 * instruction.size, instruction.signEnd ≤ j →
      (Instruction.elf instruction).writtenBit v negative dest j = true)

theorem agree_part_iff (part : Part) (v value : UInt64) :
    (∀ i, part.place.source ≤ i → i < part.place.source + part.place.len →
      (value + part.added).toNat.testBit i = (v + part.added).toNat.testBit i) ↔
      ((value + part.added).toNat >>> part.place.source) % 2 ^ part.place.len =
        ((v + part.added).toNat >>> part.place.source) % 2 ^ part.place.len := by
  rw [range_eq_iff]
  constructor
  · exact fun h k hk => h _ (Nat.le_add_right _ _) (Nat.add_lt_add_left hk _)
  · intro h i hle hlt
    have hbit := h (i - part.place.source) (by omega)
    rwa [Nat.add_sub_cancel' hle] at hbit

theorem range_written (instruction : RelocationInstruction) (v : UInt64) (negative : Bool)
    (len a b number : ℕ)
    (h : instruction.size ≤ dest.length) (hclear : (elf instruction).merges = false)
    (hfield : ∀ k < len, (elf instruction).InField (a + k))
    (hbits : ∀ k < len, (instruction.encoded v negative).testBit (a + k) = number.testBit (b + k)) :
    (ofLeBytes ((elf instruction).writeToValue v negative dest) >>> a) % 2 ^ len =
      (number >>> b) % 2 ^ len := by
  rw [range_eq_iff]
  intro k hk
  rw [← hbits k hk]
  exact @testBit_written_cleared (.elf instruction) v negative dest h hclear _ (hfield k hk)

variable {sign : Bool} {value : UInt64}

theorem readsBack_elf_iff
    (hread : instruction.readValue ((elf instruction).writeToValue v negative dest) =
      (value, sign)) :
    (elf instruction).ReadsBack v negative dest ↔
      (elf instruction).writeToValue value sign dest =
        (elf instruction).writeToValue v negative dest ∧ instruction.Agree v value := by
  constructor
  · rintro ⟨elf, v', negative', helf, hvalue, hagain, hagree⟩
    cases helf
    have hpair : (value, sign) = (v', negative') := by
      rw [← hread]
      exact Option.some.inj hvalue
    obtain ⟨rfl, rfl⟩ := Prod.mk.inj hpair
    exact ⟨hagain, hagree⟩
  · rintro ⟨hagain, hagree⟩
    exact ⟨instruction, value, sign, rfl, congrArg some hread, hagain, hagree⟩

theorem writeToValue_eq_iff (instruction : RelocationInstruction)
    (h : instruction.size ≤ dest.length) :
    (elf instruction).writeToValue value sign dest =
        (elf instruction).writeToValue v negative dest ↔
      ∀ j < 8 * instruction.size, (elf instruction).writtenBit value sign dest j =
        (elf instruction).writtenBit v negative dest j := by
  constructor
  · intro hsame j hj
    rw [← testBit_writeToValue_eq h hj, hsame, testBit_writeToValue_eq h hj]
  · intro hbits
    refine bytes_eq_of_testBit ?_ fun j => ?_
    · rw [length_writeToValue (.elf instruction) value sign h,
        length_writeToValue (.elf instruction) v negative h]
    · by_cases hj : j < 8 * instruction.size
      · rw [testBit_writeToValue_eq h hj, testBit_writeToValue_eq h hj, hbits j hj]
      · rw [testBit_writeToValue (.elf instruction) value sign h,
          testBit_writeToValue (.elf instruction) v negative h]
        exact (if_neg hj).trans (if_neg hj).symm

theorem writtenBit_eq_true {j : ℕ} : (elf instruction).writtenBit v negative dest j =
    true ↔ ((ofLeBytes dest).testBit j = true ∧ ((elf instruction).merges = true ∨
      ¬ (elf instruction).InField j)) ∨
        (instruction.encoded v negative).testBit j = true := by
  rw [Instruction.writtenBit, Bool.or_eq_true, Bool.and_eq_true, Bool.or_eq_true, Bool.not_eq_true',
    decide_eq_false_iff_not]
  rfl

theorem readsBack_direct (hdirect : instruction.direct) (h : instruction.size ≤ dest.length)
    (hrange : (elf instruction).InRange v negative) :
    (elf instruction).ReadsBack v negative dest ↔
      instruction.KeepsValue v negative dest := by
  have hlaid := RelocationInstruction.laid hdirect
  have hsize := size_le instruction
  have hencoded := fun (v : UInt64) (negative : Bool) =>
    RelocationInstruction.encoded_direct hdirect v negative
  have hpair : ∀ {i j}, Pair instruction.places i j →
      (instruction.encoded v negative).testBit j = v.toNat.testBit i := fun hpair => by
    have hj := lt_size_of_inField (hlaid.lt_of_pair hpair).2
    rw [hencoded]
    exact hlaid.testBit_encoded_pair hdirect hrange (Nat.lt_of_lt_of_le hj hsize) hpair
  have hfieldPair : ∀ {j}, (elf instruction).InField j →
      ∃ i, Pair instruction.places i j := fun hfield => by
    have hj := Nat.lt_of_lt_of_le (lt_size_of_inField hfield) hsize
    obtain ⟨-, -, i, -, hpair⟩ := hlaid.exists_pair hj hfield
    exact ⟨i, hpair⟩
  obtain ⟨⟨value, sign⟩, hread⟩ : ∃ r, instruction.readValue
    ((elf instruction).writeToValue v negative dest) = r := ⟨_, rfl⟩
  have hvalue : ∀ {i j}, Pair instruction.places i j →
      value.toNat.testBit i = (elf instruction).writtenBit v negative dest j :=
    fun hpair => by
      have hbit := hlaid.testBit_readValue_pair
        ((elf instruction).writeToValue v negative dest) hdirect hpair
      rw [hread] at hbit
      rw [← testBit_writeToValue_eq h (lt_size_of_inField (hlaid.lt_of_pair hpair).2)]
      exact hbit
  have hagain : ∀ {j}, j < 8 * instruction.size →
      ((instruction.encoded value sign).testBit j = true ↔
        ((elf instruction).InField j ∧
            (elf instruction).writtenBit v negative dest j = true) ∨
          (instruction.signed = true ∧ instruction.signEnd ≤ j ∧
            value.toNat.testBit (instruction.immediateBits - 1) = true)) := fun hj => by
    have hbit := hlaid.testBit_encoded_read
      ((elf instruction).writeToValue v negative dest) hdirect hj
      (Nat.lt_of_lt_of_le hj hsize)
    rw [hread, testBit_writeToValue_eq h hj] at hbit
    rw [hencoded]
    exact hbit
  rw [readsBack_elf_iff hread, writeToValue_eq_iff instruction h, agree_iff hdirect]
  constructor
  · rintro ⟨hword, hsame⟩
    refine ⟨fun hmerges j hfield hbit => ?_, fun hsigned hbit j hj hend => ?_⟩
    · obtain ⟨i, hij⟩ := hfieldPair hfield
      rw [hpair hij, ← hsame i j hij, hvalue hij, writtenBit_eq_true]
      exact .inl ⟨hbit, .inl hmerges⟩
    · obtain ⟨j₀, -, hsign⟩ := hlaid.sign hsigned
      rw [← hword j hj, writtenBit_eq_true, hagain hj]
      exact .inr (.inr ⟨hsigned, hend, (hsame _ j₀ hsign).trans hbit⟩)
  · rintro ⟨hmerge, hsign⟩
    have hsame : ∀ i j, Pair instruction.places i j →
        value.toNat.testBit i = v.toNat.testBit i := by
      intro i j hij
      have hfield := (hlaid.lt_of_pair hij).2
      rw [hvalue hij, ← hpair hij, Bool.eq_iff_iff, writtenBit_eq_true]
      refine ⟨?_, .inr⟩
      rintro (⟨hbit, hmerges | hnot⟩ | hbit)
      · exact hmerge hmerges j hfield hbit
      · exact absurd hfield hnot
      · exact hbit
    refine ⟨fun j hj => ?_, hsame⟩
    rw [Bool.eq_iff_iff, writtenBit_eq_true]
    constructor
    · rintro (hkept | hset)
      · exact writtenBit_eq_true.2 (.inl hkept)
      · rcases (hagain hj).1 hset with ⟨-, hwritten⟩ | ⟨hsigned, hend, hlast⟩
        · exact hwritten
        · obtain ⟨j₀, -, hpair₀⟩ := hlaid.sign hsigned
          rw [hsame _ j₀ hpair₀] at hlast
          exact hsign hsigned hlast j hj hend
    · intro hwritten
      rcases writtenBit_eq_true.1 hwritten with hkept | hset
      · exact .inl hkept
      · have hfield : (elf instruction).InField j := by
          rw [hencoded, hlaid.testBit_encoded_iff hdirect hrange] at hset
          obtain ⟨-, -, i, -, hholds, -⟩ := hset
          exact (hlaid.lt_of_pair hholds.1).2
        exact .inr ((hagain hj).2 (.inl ⟨hfield, hwritten⟩))

end Sld.Incremental.Fields
