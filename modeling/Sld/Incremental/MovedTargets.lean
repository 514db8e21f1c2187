/-
# `Incremental.MovedTargets` — when a patched value is the right one

When the target of a relocation has moved, the recorded value is moved by as
much and written over the field.  A full link would compute the value again
and write it into the section of the input.  The two are the same if the
value moves as the target does, as far as the field shows it; in an
instruction that is not cleared, the bits of the old value must also be bits
of the new one.

    MovedTarget.Patched     the bytes of the patch
    MovedTarget.relinked    the bytes of a full link
    MovedTarget.Follows     when they agree
    shows_iff_bits          in an instruction, bit by bit
-/
import Sld.Incremental.DynamicPatches
import Sld.Incremental.InstructionWords
import Sld.Incremental.RelocationPasses
import Sld.Incremental.RelocationValues

namespace Sld.Incremental.Fields

open Text.Reader (bind_eq_ok ok_bind)
open RelocationKindInfo (instruction pattern recordSize)

/-! ## Bytes -/

/-- What is done to a byte: nothing, after the last pattern. -/
def patternAt (patterns : List BytePattern) (i : ℕ) : BytePattern := patterns.getD i ⟨0xFF, 0⟩

theorem apply_untouched (byte : UInt8) : BytePattern.apply ⟨0xFF, 0⟩ byte = byte := by
  unfold BytePattern.apply
  rw [UInt8.or_zero]
  exact UInt8.and_neg_one

variable {output : List UInt8} {patterns : List BytePattern}

theorem getD_overlay {i : ℕ} (hlen : patterns.length ≤ output.length) :
    (overlay patterns output).getD i 0 = (patternAt patterns i).apply (output.getD i 0) := by
  induction patterns generalizing output i with
  | nil => exact (apply_untouched _).symm
  | cons pattern patterns ih =>
    cases output with
    | nil => exact absurd hlen (Nat.not_succ_le_zero _)
    | cons byte output =>
      cases i with
      | zero => rfl
      | succ i => exact ih (Nat.le_of_succ_le_succ hlen)

theorem leBytes_eq_iff {value other size : ℕ} :
    leBytes value size = leBytes other size ↔ value % 256 ^ size = other % 256 ^ size := by
  constructor
  · intro h
    rw [← ofLeBytes_leBytes, ← ofLeBytes_leBytes, h]
  · intro h
    induction size generalizing value other with
    | zero => rfl
    | succ size ih =>
      rw [Nat.pow_succ, Nat.mul_comm, Nat.mod_mul, Nat.mod_mul] at h
      have hlow : value % 256 = other % 256 := by omega
      have hhigh : value / 256 % 256 ^ size = other / 256 % 256 ^ size := by omega
      rw [leBytes, leBytes, hlow, ih hhigh]

theorem overlay_append (rest : List UInt8) (h : patterns.length ≤ output.length) :
    overlay patterns (output ++ rest) = overlay patterns output ++ rest := by
  induction patterns generalizing output with
  | nil => rfl
  | cons pattern patterns ih =>
    cases output with
    | nil => exact absurd h (Nat.not_succ_le_zero _)
    | cons byte output =>
      show pattern.apply byte :: overlay patterns (output ++ rest) = _
      rw [ih (Nat.le_of_succ_le_succ h)]
      rfl

theorem getD_take {bytes : List UInt8} {size i : ℕ} (h : i < size) :
    (bytes.take size).getD i 0 = bytes.getD i 0 := by
  rw [List.getD_eq_getElem?_getD, List.getD_eq_getElem?_getD, List.getElem?_take_of_lt h]

theorem eq_iff_getD {bytes other : List UInt8} (h : bytes.length = other.length) :
    bytes = other ↔ ∀ i < bytes.length, bytes.getD i 0 = other.getD i 0 := by
  constructor
  · rintro rfl i _
    rfl
  · intro hbytes
    refine List.ext_getElem h fun i hi hi' => ?_
    have hbyte := hbytes i hi
    rwa [List.getD_eq_getElem?_getD, List.getD_eq_getElem?_getD, List.getElem?_eq_getElem hi,
      List.getElem?_eq_getElem hi'] at hbyte

theorem forall_apply_iff {patterns patterns' new : List BytePattern} {bytes : List UInt8} {n : ℕ}
    (hn : n ≤ bytes.length) (h : patterns.length ≤ n) (h' : patterns'.length ≤ n)
    (hnew : new.length ≤ n) :
    (∀ i < n, (patternAt patterns' i).apply ((patternAt patterns i).apply (bytes.getD i 0)) =
        (patternAt new i).apply (bytes.getD i 0)) ↔
      overlay patterns' (overlay patterns bytes) = overlay new bytes := by
  have hold := length_overlay _ _ (h.trans hn)
  have hlen := length_overlay _ _ ((h'.trans hn).trans_eq hold.symm)
  rw [eq_iff_getD (hlen.trans (hold.trans (length_overlay _ _ (hnew.trans hn)).symm)), hlen, hold]
  simp only [getD_overlay (h.trans hn), getD_overlay (hnew.trans hn),
    getD_overlay ((h'.trans hn).trans_eq hold.symm)]
  refine ⟨fun hbytes i _ => ?_, fun hbytes i hi => hbytes i (hi.trans_le hn)⟩
  by_cases hi : i < n
  · exact hbytes i hi
  · have hpast : ∀ {patterns : List BytePattern}, patterns.length ≤ n →
        patternAt patterns i = ⟨0xFF, 0⟩ := fun hlen =>
      List.getD_eq_default _ _ (hlen.trans (Nat.le_of_not_lt hi))
    rw [hpast h, hpast h', hpast hnew, apply_untouched, apply_untouched]

/-- The bits that a value sets in an instruction. -/
def RelocationInstruction.bits (instruction : RelocationInstruction) (start stop : ℕ)
    (value : UInt64) : ℕ :=
  instruction.encoded (extractBitRange value start stop) (value.toInt64 < 0)

/-! ## A target that has moved -/

/-- A recorded relocation whose target has moved inside its section, with the
section of the input from its place on. -/
structure MovedTarget where
  application : Application
  relocationTypeFromRaw : UInt32 → Option RelocationKindInfo
  path : Text
  version : InputVersion
  record : RelocationRecord
  target : RelocationTargetRecord
  name : Text
  current : SymbolPosition
  writtenValue : UInt64
  /-- what the relocation found at its place and after it, in the section -/
  field : List UInt8
  /-- what comes after the section in the output -/
  following : List UInt8
  /-- the range of the record in the output -/
  output : List UInt8
  target_in : record.targetIn path = some (target, name)
  position : version.position target name = .ok (some current)
  same_section : current.sectionIndex = target.sectionIndex
  moved : current.sectionOffset ≠ target.sectionOffset
  /-- the section of the target is in the output as it is -/
  notMerged : application.NotMerged
  /-- the record is of the relocation -/
  record_size : record.size.toNat = application.info.recordSize
  record_written : record.writtenValue = some writtenValue
  value_eq : application.value field record.targetValue = .ok writtenValue
  length_output : output.length = record.size.toNat
  room : output.length ≤ (field ++ following).length
  /-- an instruction is as the relocation left it -/
  written : ∀ relInfo,
    instructionKinds application.arch relocationTypeFromRaw record.kind = some relInfo →
      (application.info.writeToBuffer writtenValue field).map
        (fun written => (written ++ following).take output.length) = .ok output

namespace MovedTarget

variable (m : MovedTarget)

def kinds : RelocationKinds := instructionKinds m.application.arch m.relocationTypeFromRaw

/-- How far the target has moved. -/
def delta : UInt64 := m.current.sectionOffset - m.target.sectionOffset

/-- The bytes of the patch. -/
def Patched (bytes : List UInt8) : Prop :=
  ∃ passed patch, relocationTargetPatch m.kinds m.path m.version m.record = .ok passed ∧
    passed.outputPatch = some patch ∧ patch.writtenBytes m.output = .ok bytes

/-- The relocation computed again, and written into the section. -/
def relinked : Except String (List UInt8) := do
  let value ← m.application.value m.field (m.record.targetValue + m.delta)
  let written ← m.application.info.writeToBuffer value m.field
  return (written ++ m.following).take m.output.length

/-! ## The condition -/

/-- The value after the move: of a low part, that of the high part which the
target refers to now; of anything else, the value moved by the movement of its
kind. -/
def movedValue : Except String UInt64 :=
  if m.application.info.kind = .relativeRiscVLow12 then
    m.application.value m.field (m.record.targetValue + m.delta)
  else do
    let value ← (m.application.directValue m.field m.record.targetValue).map
      (· + m.application.movement (m.application.fieldValue m.field)
        (m.application.seen m.record.targetValue) m.delta)
    m.application.throughThunk value

/-- The kind that a patch writes into an instruction. -/
def instructionInfo : Option RelocationKindInfo :=
  if m.application.arch = .x8664 then none
  else (m.relocationTypeFromRaw m.record.kind).filter fun info => info.instruction.isSome

/-- What the patch does to the bytes of the output. -/
def patchPattern (value : UInt64) : List BytePattern :=
  match m.instructionInfo with
  | some info => info.pattern value
  | none => (leBytes value.toNat m.output.length).map .whole

/-- The field is a number, for the relocation and for the patch. -/
def isNumber : Bool :=
  m.instructionInfo.isNone && !m.application.info.isPairSubtraction &&
    m.application.info.instruction.isNone

/-- The field shows the moved value: as a number, when both have moved by as much;
otherwise, when the bits that remain of the old value and those of the patch are
those of the moved value. -/
def Shows (value : UInt64) : Prop :=
  if m.isNumber then (value - (m.writtenValue + m.delta)).toNat % 256 ^ m.output.length = 0
  else ∀ i < m.output.length,
    (patternAt (m.patchPattern (m.writtenValue + m.delta)) i).apply
        ((patternAt (m.application.info.pattern m.writtenValue) i).apply
          ((m.field ++ m.following).getD i 0)) =
      (patternAt (m.application.info.pattern value) i).apply
          ((m.field ++ m.following).getD i 0)

/-- The patched field is that of the moved value, which is one that can be written. -/
def Follows : Prop :=
  ∃ value, m.movedValue = .ok value ∧ m.application.info.Verified value ∧
    (m.application.info.pattern value).length ≤ m.field.length ∧ m.Shows value

variable {m}

theorem movedValue_eq :
    m.movedValue = m.application.value m.field (m.record.targetValue + m.delta) := by
  unfold movedValue
  by_cases hlow : m.application.info.kind = .relativeRiscVLow12
  · rw [if_pos hlow]
  · rw [if_neg hlow, Application.value, Application.directValue_move m.notMerged hlow]

theorem eq_add_delta {written previous current target : UInt64}
    (h : (written.toNat : ℤ) = previous.toNat + (current.toNat - target.toNat)) :
    written = previous + (current - target) := by
  refine UInt64.toNat_inj.1 ?_
  have hwritten := written.toNat_lt
  rw [UInt64.toNat_add, UInt64.toNat_sub]
  have htarget := target.toNat_lt
  omega

variable {bytes : List UInt8}

theorem Patched.writeValue (h : m.Patched bytes) :
    m.record.writeValue m.kinds (m.writtenValue + m.delta) m.output = .ok bytes := by
  obtain ⟨passed, patch, hpassed, hpatch, hbytes⟩ := h
  unfold relocationTargetPatch at hpassed
  rw [m.target_in] at hpassed
  simp only [m.position, ok_bind] at hpassed
  rw [if_neg fun hsame => m.moved hsame.2, if_neg (not_not.2 m.same_section)] at hpassed
  obtain ⟨previous, written, targetValue, data, hprev, hwritten, hdata, rfl⟩ :=
    moveTarget_eq_ok hpassed
  cases m.record_written.symm.trans hprev
  cases hpatch
  rw [delta, ← eq_add_delta hwritten]
  exact (writtenBytes_of_target hdata m.length_output hbytes).2

theorem kinds_eq : m.kinds m.record.kind = m.instructionInfo.bind instruction := by
  unfold kinds instructionKinds instructionInfo
  split
  · rfl
  · cases m.relocationTypeFromRaw m.record.kind with
    | none => rfl
    | some info =>
      rw [Option.bind_some, Option.filter_some]
      cases hinstr : info.instruction with
      | none => rfl
      | some relInfo => exact hinstr.symm

variable {info : RelocationKindInfo}

theorem exists_instruction (h : m.instructionInfo = some info) :
    ∃ relInfo, info.instruction = some relInfo := by
  unfold instructionInfo at h
  split at h
  · cases h
  · exact Option.isSome_iff_exists.1 (Option.filter_eq_some_iff.1 h).2

theorem writeToBuffer_of_instruction {relInfo : InstructionRelocation}
    (h : info.instruction = some relInfo) : relInfo.writeToBuffer = info.writeToBuffer := by
  unfold instruction at h
  split at h
  · cases h
  · cases h
    rfl

theorem Patched.eq_overlay (h : m.Patched bytes) :
    (m.patchPattern (m.writtenValue + m.delta)).length ≤ m.output.length ∧
      bytes = overlay (m.patchPattern (m.writtenValue + m.delta)) m.output := by
  have hwrite := h.writeValue
  unfold RelocationRecord.writeValue at hwrite
  rw [kinds_eq] at hwrite
  unfold patchPattern
  cases hinfo : m.instructionInfo with
  | none =>
    rw [hinfo] at hwrite
    have hlen : (leBytes (m.writtenValue + m.delta).toNat m.output.length).length ≤
        m.output.length := Nat.le_of_eq (length_leBytes _ _)
    refine ⟨by rwa [List.length_map], ?_⟩
    rw [overlay_whole hlen, length_leBytes, List.drop_length, List.append_nil, m.length_output]
    exact (Except.ok.inj hwrite).symm
  | some info =>
    rw [hinfo] at hwrite
    obtain ⟨relInfo, hrelInfo⟩ := exists_instruction hinfo
    rw [Option.bind_some, hrelInfo] at hwrite
    have hwrite : relInfo.writeToBuffer (m.writtenValue + m.delta) m.output = .ok bytes := hwrite
    rw [writeToBuffer_of_instruction hrelInfo] at hwrite
    obtain ⟨-, hlen, hbytes⟩ := writeToBuffer_eq_ok.1 hwrite
    exact ⟨hlen, hbytes⟩

theorem relinked_eq_ok : m.relinked = .ok bytes ↔
    ∃ value, m.movedValue = .ok value ∧ m.application.info.Verified value ∧
      (m.application.info.pattern value).length ≤ m.field.length ∧
      bytes = (overlay (m.application.info.pattern value) (m.field ++ m.following)).take
        m.output.length := by
  unfold relinked
  rw [movedValue_eq, bind_eq_ok]
  constructor
  · rintro ⟨value, hvalue, h⟩
    obtain ⟨written, hwritten, hbytes⟩ := bind_eq_ok.1 h
    obtain ⟨hverified, hlen, rfl⟩ := writeToBuffer_eq_ok.1 hwritten
    refine ⟨value, hvalue, hverified, hlen, ?_⟩
    rw [overlay_append _ hlen]
    exact (Except.ok.inj hbytes).symm
  · rintro ⟨value, hvalue, hverified, hlen, rfl⟩
    rw [overlay_append _ hlen]
    refine ⟨value, hvalue, bind_eq_ok.2 ⟨_, writeToBuffer_eq_ok.2 ⟨hverified, hlen, rfl⟩, rfl⟩⟩

theorem sub_mod_eq_zero_iff {value other : UInt64} {size : ℕ} :
    (value - other).toNat % 256 ^ size = 0 ↔ other.toNat % 256 ^ size = value.toNat % 256 ^ size := by
  have hvalue := value.toNat_lt
  have hother := other.toNat_lt
  have hsum : (value - other).toNat + other.toNat ≡ value.toNat [MOD 2 ^ 64] := by
    rw [UInt64.toNat_sub]
    unfold Nat.ModEq
    omega
  have hpow : (2 : ℕ) ^ 64 = 256 ^ 8 := by norm_num
  rcases Nat.le_total size 8 with hle | hle
  · have hdvd : 256 ^ size ∣ 2 ^ 64 := by
      rw [hpow]
      exact Nat.pow_dvd_pow 256 hle
    have hmod := hsum.of_dvd hdvd
    constructor
    · intro hzero
      have hcancel : (value - other).toNat + other.toNat ≡ 0 + other.toNat [MOD 256 ^ size] :=
        Nat.ModEq.add_right _ hzero
      rw [Nat.zero_add] at hcancel
      exact hcancel.symm.trans hmod
    · intro hsame
      have hcancel : (value - other).toNat + other.toNat ≡ 0 + other.toNat [MOD 256 ^ size] := by
        rw [Nat.zero_add]
        exact hmod.trans (Eq.symm hsame)
      exact Nat.ModEq.add_right_cancel' _ hcancel
  · have hlarge : 2 ^ 64 ≤ 256 ^ size := by
      rw [hpow]
      exact Nat.pow_le_pow_right (by decide) hle
    have hsub := (value - other).toNat_lt
    rw [Nat.mod_eq_of_lt (by omega), Nat.mod_eq_of_lt (by omega), Nat.mod_eq_of_lt (by omega),
      UInt64.toNat_sub]
    omega

theorem shows_number (hnumber : m.isNumber = true) (value : UInt64) :
    overlay (m.patchPattern (m.writtenValue + m.delta)) m.output =
        (overlay (m.application.info.pattern value) (m.field ++ m.following)).take m.output.length ↔
      m.Shows value := by
  rw [Shows, if_pos hnumber]
  unfold isNumber at hnumber
  simp only [Bool.and_eq_true, Option.isNone_iff_eq_none, Bool.not_eq_true'] at hnumber
  obtain ⟨⟨hpatch, hpair⟩, hplain⟩ := hnumber
  have hpat : m.application.info.pattern value =
      (leBytes value.toNat m.output.length).map .whole := by
    unfold pattern
    rw [hpair, if_neg Bool.false_ne_true, m.length_output, m.record_size]
    unfold instruction at hplain
    unfold recordSize
    cases hsize : m.application.info.size with
    | byteSize size => rfl
    | bitMasking instruction start stop =>
      rw [hsize] at hplain
      cases hplain
  unfold patchPattern
  rw [hpatch, hpat]
  show overlay ((leBytes (m.writtenValue + m.delta).toNat m.output.length).map .whole) m.output = _ ↔ _
  have hroom : (leBytes value.toNat m.output.length).length ≤ (m.field ++ m.following).length := by
    rw [length_leBytes]
    exact m.room
  rw [overlay_whole hroom, overlay_whole (Nat.le_of_eq (length_leBytes _ _)), length_leBytes,
    List.drop_length, List.append_nil, List.take_left' (length_leBytes _ _), leBytes_eq_iff,
    sub_mod_eq_zero_iff]

theorem patch_old {i : ℕ} (hi : i < m.output.length) :
    (patternAt (m.patchPattern (m.writtenValue + m.delta)) i).apply
        ((patternAt (m.application.info.pattern m.writtenValue) i).apply
          ((m.field ++ m.following).getD i 0)) =
      (patternAt (m.patchPattern (m.writtenValue + m.delta)) i).apply (m.output.getD i 0) := by
  cases hinfo : m.instructionInfo with
  | none =>
    have hwhole : ∃ byte, patternAt (m.patchPattern (m.writtenValue + m.delta)) i = .whole byte := by
      unfold patchPattern
      rw [hinfo]
      have hlen := length_leBytes (m.writtenValue + m.delta).toNat m.output.length
      simp [patternAt, hi]
    obtain ⟨byte, hbyte⟩ := hwhole
    rw [hbyte, apply_whole, apply_whole]
  | some info =>
    obtain ⟨relInfo, hrelInfo⟩ := exists_instruction hinfo
    have hkind : m.kinds m.record.kind = some relInfo := by
      rw [kinds_eq, hinfo]
      exact hrelInfo
    have hwritten := m.written relInfo hkind
    cases hold : m.application.info.writeToBuffer m.writtenValue m.field with
    | error e =>
      rw [hold] at hwritten
      cases hwritten
    | ok old =>
      obtain ⟨-, hlen, rfl⟩ := writeToBuffer_eq_ok.1 hold
      rw [hold] at hwritten
      have hout : (overlay (m.application.info.pattern m.writtenValue) m.field ++
          m.following).take m.output.length = m.output := Except.ok.inj hwritten
      rw [← overlay_append _ hlen] at hout
      have hroom : (m.application.info.pattern m.writtenValue).length ≤
          (m.field ++ m.following).length := by
        rw [List.length_append]
        omega
      rw [← getD_overlay hroom, ← getD_take hi, hout]

theorem shows_bits (hnumber : ¬ m.isNumber = true) {value : UInt64}
    (hpatch : (m.patchPattern (m.writtenValue + m.delta)).length ≤ m.output.length)
    (hlen : (m.application.info.pattern value).length ≤ m.field.length) :
    overlay (m.patchPattern (m.writtenValue + m.delta)) m.output =
        (overlay (m.application.info.pattern value) (m.field ++ m.following)).take m.output.length ↔
      m.Shows value := by
  have hroom : (m.application.info.pattern value).length ≤ (m.field ++ m.following).length := by
    rw [List.length_append]
    omega
  have hlengths : (overlay (m.patchPattern (m.writtenValue + m.delta)) m.output).length =
      ((overlay (m.application.info.pattern value) (m.field ++ m.following)).take
        m.output.length).length := by
    rw [length_overlay _ _ hpatch, List.length_take, length_overlay _ _ hroom]
    exact (Nat.min_eq_left m.room).symm
  rw [Shows, if_neg hnumber, eq_iff_getD hlengths, length_overlay _ _ hpatch]
  refine forall₂_congr fun i hi => ?_
  rw [getD_overlay hpatch, getD_take hi, getD_overlay hroom, ← m.patch_old hi]

/-- An instruction shows the moved value when, bit by bit, what is kept of the old one
with the bits of the patch is what a full link leaves. -/
theorem shows_iff_bits {instruction : RelocationInstruction} {start stop : ℕ}
    (hinfo : m.instructionInfo = some m.application.info)
    (hpair : m.application.info.isPairSubtraction = false)
    (hsize : m.application.info.size = .bitMasking instruction start stop)
    (hlen : instruction.size ≤ m.output.length) (value : UInt64) :
    m.Shows value ↔ ∀ i < 8 * instruction.size,
      let kept := instruction.kept.testBit i
      let old := (ofLeBytes (m.field ++ m.following)).testBit i && kept
      let bit := fun value => (instruction.bits start stop value).testBit i
      (((old || bit m.writtenValue) && kept) || bit (m.writtenValue + m.delta)) =
        (old || bit value) := by
  have hpattern : ∀ v, m.application.info.pattern v =
      wordPattern instruction.size instruction.kept (instruction.bits start stop v) := by
    intro v
    rw [pattern, hpair, if_neg Bool.false_ne_true, hsize]
    exact instruction.pattern_eq _ _
  have hnumber : ¬m.isNumber = true := by
    rw [isNumber, hinfo]
    exact Bool.false_ne_true
  have hwidth : ∀ set, (wordPattern instruction.size instruction.kept set).length ≤
      m.output.length := fun set => by rwa [length_wordPattern]
  rw [Shows, if_neg hnumber, patchPattern, hinfo]
  simp only [hpattern]
  rw [forall_apply_iff m.room (hwidth _) (hwidth _) (hwidth _),
    overlay_twice_eq_iff (hlen.trans m.room)]

/-- A patched field is the field of a full link exactly when the moved value can be
written and the field shows it. -/
theorem patched_eq_relinked_iff (m : MovedTarget) {bytes : List UInt8} (h : m.Patched bytes) :
    m.relinked = .ok bytes ↔ m.Follows := by
  obtain ⟨hpatch, rfl⟩ := h.eq_overlay
  rw [relinked_eq_ok]
  unfold Follows
  have hshows : ∀ value, (m.application.info.pattern value).length ≤ m.field.length →
      (overlay (m.patchPattern (m.writtenValue + m.delta)) m.output =
          (overlay (m.application.info.pattern value) (m.field ++ m.following)).take m.output.length ↔
        m.Shows value) := by
    intro value hlen
    by_cases hnumber : m.isNumber = true
    · exact shows_number hnumber value
    · exact shows_bits hnumber hpatch hlen
  constructor
  · rintro ⟨value, hvalue, hverified, hlen, hbytes⟩
    exact ⟨value, hvalue, hverified, hlen, (hshows value hlen).1 hbytes⟩
  · rintro ⟨value, hvalue, hverified, hlen, hbits⟩
    exact ⟨value, hvalue, hverified, hlen, (hshows value hlen).2 hbits⟩

end MovedTarget

/-! ## Across a page

A function moves by 32 bytes and over a page boundary. -/

/-- `R_AARCH64_ADR_PREL_PG_HI21` -/
def adrPrelPgHi21 : RelocationKindInfo where
  kind := .relative
  size := .bitMasking (.aarch64 .adr) 12 33
  mask := some (.symbolPlusAddendAndPosition 0xFFF)
  range := ⟨-(2 ^ 32), 2 ^ 32⟩
  alignment := 1
  bias := 0
  thunkable := false

/-- An `adrp` at 0x10000. -/
def adrp : Application where
  arch := .aarch64
  outputKind := .staticExecutable .nonRelocatable
  isRelrEnabled := false
  addresses := ⟨0, none, 0, 0, 0⟩
  sectionInfo := ⟨true, false⟩
  sectionAddress := 0x10000
  place := 0x10000
  info := adrPrelPgHi21
  addend := 0
  res := ⟨0, {.nonInterposable, .direct}, none, none, fun _ => .ok none⟩
  gotAddress := none
  highPart := fun _ => .error "Missing High relocation connected with R_RISCV_PCREL_LO12"
  setValue := .error "Missing previous relocation for PairSubtractionULEB128"
  thunkAddress := none

/-- The object that defines the function, now at 0x1010 of its section. -/
def movedObject : InputVersion := fun _ => .ok (some ⟨.ok [⟨[0x66], some 2, 0x1010⟩], none⟩)

/-- The record of the `adrp`. -/
def adrpRecord : RelocationRecord where
  targetSymbolId := 1
  writtenValue := some 0x10000
  targetValue := 0x20FF0
  targetName := some ['6', '6']
  target := some ⟨['6', '1'], ['6', '1'], 2, 0xFF0⟩
  inputFile := ['6', '2']
  input := ['6', '2']
  sectionIndex := 1
  relocationOffset := 0
  outputOffset := 0x1000
  size := 4
  kind := 275
  addend := 0

/-- The function has moved from 0x20FF0 to 0x21010. -/
def acrossPage : MovedTarget where
  application := adrp
  relocationTypeFromRaw := fun kind => if kind = 275 then some adrPrelPgHi21 else none
  path := ['6', '1']
  version := movedObject
  record := adrpRecord
  target := ⟨['6', '1'], ['6', '1'], 2, 0xFF0⟩
  name := ['6', '6']
  current := ⟨2, 0x1010⟩
  writtenValue := 0x10000
  field := [0, 0, 0, 0x90]
  following := []
  output := [0x80, 0, 0, 0x90]
  target_in := rfl
  position := rfl
  same_section := rfl
  moved := by decide
  notMerged := fun _ => rfl
  record_size := rfl
  record_written := rfl
  value_eq := rfl
  length_output := rfl
  room := by decide
  written := by
    intro relInfo _
    rfl

theorem acrossPage_patched : acrossPage.Patched [0x80, 0, 0, 0x90] := ⟨_, _, rfl, rfl, rfl⟩

/-- The patch leaves the page as it was. -/
theorem page_is_kept :
    ¬∀ bytes, acrossPage.Patched bytes → acrossPage.relinked = .ok bytes := by
  intro h
  have hbytes := h [0x80, 0, 0, 0x90] acrossPage_patched
  have hrelinked : acrossPage.relinked = .ok [0x80, 0, 0, 0xB0] := rfl
  rw [hrelinked] at hbytes
  exact absurd hbytes (by decide)

/-- The function has moved from 0x20FF0 to 0x21FF0, by a page. -/
def byOnePage : MovedTarget :=
  { acrossPage with
    version := fun _ => .ok (some ⟨.ok [⟨[0x66], some 2, 0x1FF0⟩], none⟩)
    current := ⟨2, 0x1FF0⟩
    position := rfl
    moved := by decide }

theorem follows_by_whole_pages : byOnePage.Follows ∧ ¬acrossPage.Follows := by
  refine ⟨(MovedTarget.patched_eq_relinked_iff byOnePage ⟨_, _, rfl, rfl, rfl⟩).1 rfl, fun h => ?_⟩
  have hbytes := (MovedTarget.patched_eq_relinked_iff acrossPage acrossPage_patched).2 h
  have hrelinked : acrossPage.relinked = .ok [0x80, 0, 0, 0xB0] := rfl
  rw [hrelinked] at hbytes
  exact absurd hbytes (by decide)

end Sld.Incremental.Fields
