/-
# `Relocs.DebugRelocations` — label differences in debug sections

A label difference is stored by relocations that set the bytes at a place,
add to them or subtract from them.  Allocated sections and debug sections
go through two functions that list the kinds of relocations by hand:

The list of kinds that look at the place lacks the six-bit addition in the
second function, which writes the whole byte instead.  The two runs agree
throughout exactly if each six-bit addition finds what makes no difference:
the two high bits of what it adds, over six zeros (`runs_agree_iff`).
-/
import Sld.Incremental.InstructionWords
import Sld.Incremental.RelocationValues
import Sld.Relocs.UlebPairs

namespace Sld.Relocs

open Incremental.Fields

/-! ## The values of debug relocations -/

/-- The value of a relocation of a debug section whose symbol has a resolution. -/
def Application.debugValue (a : Application) (field : List UInt8) (address : UInt64) :
    Except String UInt64 :=
  match a.info.kind with
  | .absolute | .absoluteSet | .absoluteAdditionWord6 => a.valueWithAddend address
  | .absoluteSetWord6 | .absoluteAddition | .absoluteSubtraction | .absoluteSubtractionWord6 => do
      -- the kinds that are adjusted to the value at the place
      a.adjustedValue field (← a.valueWithAddend address)
  | .dtpOff => return address - a.addresses.tlsEnd + a.addend.toUInt64
  | .pairSubtractionULEB128 _ => do
      let set ← a.setValue
      let x ← a.valueWithAddend address
      return set - x
  | .relative =>
    if a.info.size = .byteSize 0 then return 0 else throw "Unsupported debug relocation kind"
  | _ => throw "Unsupported debug relocation kind"

/-! ## Relocations of labels -/

/-- `R_RISCV_ADD*`, `R_RISCV_SUB*`, `R_RISCV_SET*` and `R_LARCH_ADD*`,
`R_LARCH_SUB*`, by their size in bytes or as six bits. -/
inductive LabelRelocationType where
  | set (size : ℕ)
  | set6
  | add (size : ℕ)
  | add6
  | sub (size : ℕ)
  | sub6
  deriving DecidableEq

/-- `relocation_type_from_raw` -/
def LabelRelocationType.info : LabelRelocationType → RelocationKindInfo
  | set size => ⟨.absoluteSet, .byteSize size, none, .noCheck, 1, 0, false⟩
  | set6 => ⟨.absoluteSetWord6, .byteSize 1, none, .noCheck, 1, 0, false⟩
  | add size => ⟨.absoluteAddition, .byteSize size, none, .noCheck, 1, 0, false⟩
  | add6 => ⟨.absoluteAdditionWord6, .byteSize 1, none, .noCheck, 1, 0, false⟩
  | sub size => ⟨.absoluteSubtraction, .byteSize size, none, .noCheck, 1, 0, false⟩
  | sub6 => ⟨.absoluteSubtractionWord6, .byteSize 1, none, .noCheck, 1, 0, false⟩

/-- A relocation and the address that its symbol resolves to. -/
structure LabelRelocation where
  type : LabelRelocationType
  offset : ℕ
  address : UInt64
  application : Application
  info_eq : application.info = type.info

namespace LabelRelocation

variable (rel : LabelRelocation) (out : List UInt8)

/-- The address and the addend. -/
def target : Except String UInt64 := rel.application.valueWithAddend rel.address

def applyRelocation : Except String (List UInt8) := do
  writeAt rel.type.info (← rel.application.value (out.drop rel.offset) rel.address) out rel.offset

def applyDebugRelocation : Except String (List UInt8) := do
  let value ← Application.debugValue rel.application (out.drop rel.offset) rel.address
  writeAt rel.type.info value out rel.offset

/-- The place holds the high bits of what is added, over six zeros. -/
def AddsNothingElse : Prop :=
  ∀ x, rel.target = .ok x → rel.offset < out.length →
    ¬ Rejected x ∧ out.getD rel.offset 0 = x.toUInt8 &&& 0xC0

end LabelRelocation

/-- The relocations of an allocated section, in order. -/
def regularRun (rels : List LabelRelocation) (out : List UInt8) : Except String (List UInt8) :=
  rels.foldlM (fun out rel => rel.applyRelocation out) out

/-- The relocations of a debug section. -/
def debugRun (rels : List LabelRelocation) (out : List UInt8) : Except String (List UInt8) :=
  rels.foldlM (fun out rel => rel.applyDebugRelocation out) out

/-! ## One relocation -/

section Step

variable {rel : LabelRelocation} {out : List UInt8}

theorem value_eq_directValue (field : List UInt8) :
    rel.application.value field rel.address = rel.application.directValue field rel.address := by
  have hthunk : rel.application.info.thunkable = false := by
    rw [rel.info_eq]
    cases rel.type <;> rfl
  have hthrough : rel.application.throughThunk = pure := by
    funext value
    rw [Application.throughThunk, hthunk, if_neg (by simp)]
  rw [Application.value, hthrough, bind_pure]

theorem debugValue_eq (h : rel.type ≠ .add6) (field : List UInt8) :
    Application.debugValue rel.application field rel.address =
      rel.application.directValue field rel.address := by
  have hinfo := rel.info_eq
  cases htype : rel.type with
  | add6 => exact absurd htype h
  | set size =>
    rw [htype] at hinfo
    have hsym : ∀ f x, rel.application.symbolValue f x = x := by
      intro f x
      simp only [Application.symbolValue, hinfo, LabelRelocationType.info]
    simp only [Application.debugValue, Application.directValue, hinfo, LabelRelocationType.info,
      hsym, bind_pure]
  | set6 | add size | sub size | sub6 =>
    rw [htype] at hinfo
    simp only [Application.debugValue, Application.directValue, hinfo, LabelRelocationType.info]

theorem step_eq (h : rel.type ≠ .add6) :
    rel.applyRelocation out = rel.applyDebugRelocation out := by
  rw [LabelRelocation.applyRelocation, LabelRelocation.applyDebugRelocation, value_eq_directValue,
    debugValue_eq h]

/-! ## The addition of six bits -/

/-- The six-bit sum of a number and a byte, under the two high bits of the byte. -/
def sumUnder (byte x : ℕ) : ℕ := byte / 64 * 64 + (byte + x) % 64

theorem sumUnder_lt {byte : ℕ} (x : ℕ) (h : byte < 256) : sumUnder byte x < 256 := by
  rw [sumUnder]
  omega

theorem toNat_high_bits (byte : UInt8) : (byte &&& 0xC0).toNat = byte.toNat / 64 * 64 := by
  have hbytes : ∀ n < 256, n &&& 0xC0 = n / 64 * 64 := by decide +kernel
  exact hbytes _ byte.toNat_lt

theorem sumUnder_eq_iff (byte x : UInt8) :
    UInt8.ofNat (sumUnder byte.toNat x.toNat) = x ↔ byte = x &&& 0xC0 := by
  have hbyte := byte.toNat_lt
  have hsum : (UInt8.ofNat (sumUnder byte.toNat x.toNat)).toNat = sumUnder byte.toNat x.toNat :=
    UInt8.toNat_ofNat_of_lt' (sumUnder_lt _ hbyte)
  rw [← UInt8.toNat_inj, ← UInt8.toNat_inj, hsum, toNat_high_bits, sumUnder]
  omega

theorem symbolValue_add6 (htype : rel.type = .add6) (byte : UInt8) (x : UInt64) :
    (rel.application.symbolValue (UInt64.ofNat byte.toNat) x).toNat =
      sumUnder byte.toNat x.toNat := by
  have hkind : rel.application.info.kind = .absoluteAdditionWord6 := by
    rw [rel.info_eq, htype]
    rfl
  have hbyte := byte.toNat_lt
  have hfield : (UInt64.ofNat byte.toNat).toNat = byte.toNat :=
    UInt64.toNat_ofNat_of_lt' (Nat.lt_trans hbyte (by decide))
  have hlow : (((UInt64.ofNat byte.toNat &&& low6Mask) + (x &&& low6Mask)) &&& low6Mask).toNat =
      (byte.toNat + x.toNat) % 64 := by
    rw [toNat_and_mask (n := 6) (by decide), UInt64.toNat_add, toNat_and_mask (n := 6) (by decide),
      toNat_and_mask (n := 6) (by decide), hfield]
    omega
  have hhigh : (UInt64.ofNat byte.toNat &&& ~~~low6Mask).toNat = (byte.toNat / 64) <<< 6 := by
    have hlt : byte.toNat / 64 < 2 ^ 58 := by omega
    rw [toNat_and_not_mask (n := 6) (by decide), hfield]
    show ((byte.toNat >>> 6) % 2 ^ 58) <<< 6 = _
    rw [Nat.shiftRight_eq_div_pow]
    exact congrArg (· <<< 6) (Nat.mod_eq_of_lt hlt)
  have hunder : (byte.toNat + x.toNat) % 64 < 2 ^ 6 := Nat.mod_lt _ (by decide)
  simp only [Application.symbolValue, hkind]
  rw [UInt64.toNat_or, hlow, hhigh, Nat.or_comm, ← Nat.shiftLeft_add_eq_or_of_lt hunder,
    Nat.shiftLeft_eq]
  rfl

theorem writeAt_add6 (value : UInt64) (offset : ℕ) (h : offset < out.length) :
    (writeAt LabelRelocationType.add6.info value out offset).toOption = if Rejected value then none
      else some (out.take offset ++ value.toUInt8 :: out.drop (offset + 1)) := by
  have hbyte : UInt8.ofNat (value.toNat % 256) = value.toUInt8 := by
    rw [← UInt8.toNat_inj, UInt8.toNat_ofNat_of_lt' (Nat.mod_lt _ (by decide)),
      UInt64.toNat_toUInt8]
  have hpat : LabelRelocationType.add6.info.pattern value = [value.toUInt8].map .whole := by
    rw [← hbyte]
    rfl
  have hroom : [value.toUInt8].length ≤ (out.drop offset).length := by
    rw [List.length_drop, List.length_singleton]
    omega
  have hwrite : ∀ out', writeAt LabelRelocationType.add6.info value out offset = .ok out' ↔
      ¬ Rejected value ∧ out' = out.take offset ++ value.toUInt8 :: out.drop (offset + 1) := by
    intro out'
    rw [writeAt_eq_ok, verified_of_noCheck rfl rfl, hpat, overlay_whole hroom, List.drop_drop,
      List.length_map]
    exact ⟨fun ⟨_, hpass, _, heq⟩ => ⟨hpass, heq⟩, fun ⟨hpass, heq⟩ => ⟨h.le, hpass, h, heq⟩⟩
  split
  next hrejected =>
    cases hres : writeAt LabelRelocationType.add6.info value out offset with
    | error e => rfl
    | ok out' => exact absurd hrejected ((hwrite out').1 hres).1
  next hpass => rw [(hwrite _).2 ⟨hpass, rfl⟩]; rfl

theorem writeAt_behind (value : UInt64) (offset : ℕ) (h : out.length ≤ offset) :
    (writeAt LabelRelocationType.add6.info value out offset).toOption = none := by
  cases hres : writeAt LabelRelocationType.add6.info value out offset with
  | error e => rfl
  | ok out' =>
    obtain ⟨-, -, hlen, -⟩ := writeAt_eq_ok.1 hres
    have hone : (LabelRelocationType.add6.info.pattern value).length = 1 := rfl
    omega

theorem add6_step_iff (htype : rel.type = .add6) :
    (rel.applyRelocation out).toOption = (rel.applyDebugRelocation out).toOption ↔
      rel.AddsNothingElse out := by
  have hinfo : rel.application.info = LabelRelocationType.add6.info := by
    rw [rel.info_eq, htype]
  cases htarget : rel.target with
  | error e =>
    have hreg : rel.applyRelocation out = .error e := by
      rw [LabelRelocation.applyRelocation, value_eq_directValue]
      simp only [Application.directValue, hinfo, LabelRelocationType.info]
      show ((rel.target >>= _) >>= _) = _
      rw [htarget]
      rfl
    have hdebug : rel.applyDebugRelocation out = .error e := by
      rw [LabelRelocation.applyDebugRelocation]
      simp only [Application.debugValue, hinfo, LabelRelocationType.info]
      show (rel.target >>= _) = _
      rw [htarget]
      rfl
    rw [hreg, hdebug]
    refine ⟨fun _ x hx => ?_, fun _ => rfl⟩
    cases htarget.symm.trans hx
  | ok x =>
    have hreg : rel.applyRelocation out = writeAt LabelRelocationType.add6.info
        (rel.application.symbolValue (rel.application.fieldValue (out.drop rel.offset)) x)
        out rel.offset := by
      rw [LabelRelocation.applyRelocation, value_eq_directValue, htype]
      simp only [Application.directValue, hinfo, LabelRelocationType.info]
      show ((rel.target >>= _) >>= _) = _
      rw [htarget]
      show (rel.application.adjustedValue _ x >>= _) = _
      simp only [Application.adjustedValue, hinfo, LabelRelocationType.info]
      rfl
    have hdebug : rel.applyDebugRelocation out =
        writeAt LabelRelocationType.add6.info x out rel.offset := by
      rw [LabelRelocation.applyDebugRelocation, htype]
      simp only [Application.debugValue, hinfo, LabelRelocationType.info]
      show (rel.target >>= _) = _
      rw [htarget]
      rfl
    rw [hreg, hdebug]
    rcases Nat.lt_or_ge rel.offset out.length with hlt | hge
    · rw [writeAt_add6 _ _ hlt, writeAt_add6 _ _ hlt]
      have hfield : rel.application.fieldValue (out.drop rel.offset) =
          UInt64.ofNat (out.getD rel.offset 0).toNat := by
        have hsize : rel.application.info.recordSize = 1 := by
          rw [hinfo]
          rfl
        rw [Application.fieldValue, hsize, List.drop_eq_getElem_cons hlt,
          List.getD_eq_getElem _ _ hlt]
        rfl
      have hvalue := symbolValue_add6 htype (out.getD rel.offset 0) x
      rw [← hfield] at hvalue
      have hsmall := sumUnder_lt x.toNat (out.getD rel.offset 0).toNat_lt
      have hpass : ¬ Rejected (rel.application.symbolValue
          (rel.application.fieldValue (out.drop rel.offset)) x) := by
        intro hrejected
        rw [hrejected] at hvalue
        rw [← hvalue] at hsmall
        exact absurd hsmall (by decide)
      have hbyte : (rel.application.symbolValue
          (rel.application.fieldValue (out.drop rel.offset)) x).toUInt8 = x.toUInt8 ↔
            out.getD rel.offset 0 = x.toUInt8 &&& 0xC0 := by
        have hsum : sumUnder (out.getD rel.offset 0).toNat x.toNat =
            sumUnder (out.getD rel.offset 0).toNat x.toUInt8.toNat := by
          rw [sumUnder, sumUnder, UInt64.toNat_toUInt8]
          omega
        rw [← sumUnder_eq_iff, ← hsum, ← hvalue, UInt8.ofNat_uInt64ToNat]
      rw [if_neg hpass]
      constructor
      · intro heq x' hx' _
        cases htarget.symm.trans hx'
        split at heq
        · cases heq
        next hpass' =>
          rw [Option.some.injEq, List.append_cancel_left_eq, List.cons.injEq] at heq
          exact ⟨hpass', hbyte.1 heq.1⟩
      · intro hnothing
        obtain ⟨hpass', hplace⟩ := hnothing x htarget hlt
        rw [if_neg hpass', hbyte.2 hplace]
    · rw [writeAt_behind _ _ hge, writeAt_behind _ _ hge]
      exact ⟨fun _ _ _ hlt => absurd hlt (Nat.not_lt.mpr hge), fun _ => rfl⟩

end Step

/-! ## Lists of relocations -/

variable {rels : List LabelRelocation} {out : List UInt8}

theorem regularRun_append (before : List LabelRelocation) (rel : LabelRelocation) :
    (regularRun (before ++ [rel]) out).toOption =
      (regularRun before out).toOption.bind fun bytes => (rel.applyRelocation bytes).toOption := by
  have hrun : regularRun (before ++ [rel]) out =
      (regularRun before out >>= fun bytes => rel.applyRelocation bytes) := by
    rw [regularRun, List.foldlM_append]
    simp [regularRun]
  rw [hrun]
  cases regularRun before out with
  | error e => rfl
  | ok bytes => rfl

theorem debugRun_append (before : List LabelRelocation) (rel : LabelRelocation) :
    (debugRun (before ++ [rel]) out).toOption = (debugRun before out).toOption.bind fun bytes =>
        (rel.applyDebugRelocation bytes).toOption := by
  have hrun : debugRun (before ++ [rel]) out =
      (debugRun before out >>= fun bytes => rel.applyDebugRelocation bytes) := by
    rw [debugRun, List.foldlM_append]
    simp [debugRun]
  rw [hrun]
  cases debugRun before out with
  | error e => rfl
  | ok bytes => rfl

theorem runs_agree (hnothing : ∀ before rel after, rels = before ++ rel :: after →
      rel.type = .add6 → ∀ bytes, regularRun before out = .ok bytes → rel.AddsNothingElse bytes)
    {before : List LabelRelocation} (h : before <+: rels) :
    (regularRun before out).toOption = (debugRun before out).toOption := by
  -- on the end of the list, since the last relocation sees what the others have left
  induction before using List.reverseRecOn with
  | nil => rfl
  | append_singleton before rel ih =>
    obtain ⟨after, heq⟩ := h
    have hsplit : rels = before ++ rel :: after := by
      rw [← heq, List.append_assoc]
      rfl
    have hbefore := ih ⟨rel :: after, hsplit.symm⟩
    rw [regularRun_append, debugRun_append, ← hbefore]
    cases hbytes : regularRun before out with
    | error e => rfl
    | ok bytes =>
      show (rel.applyRelocation bytes).toOption = (rel.applyDebugRelocation bytes).toOption
      by_cases htype : rel.type = .add6
      · exact (add6_step_iff htype).2 (hnothing before rel after hsplit htype bytes hbytes)
      · rw [step_eq htype]

/-- The runs agree after each relocation of a list exactly if every six-bit
addition finds a byte, as the run before it has left it, to which it makes no
difference. -/
theorem runs_agree_iff (rels : List LabelRelocation) (out : List UInt8) :
    (∀ before, before <+: rels →
        (regularRun before out).toOption = (debugRun before out).toOption) ↔
      ∀ before rel after, rels = before ++ rel :: after → rel.type = .add6 →
        ∀ bytes, regularRun before out = .ok bytes → rel.AddsNothingElse bytes := by
  constructor
  · intro hagree before rel after heq htype bytes hbytes
    have hbefore := hagree before ⟨rel :: after, heq.symm⟩
    have hstep := hagree (before ++ [rel]) ⟨after, by rw [heq, List.append_assoc]; rfl⟩
    rw [regularRun_append, debugRun_append, ← hbefore, hbytes] at hstep
    exact (add6_step_iff htype).1 hstep
  · exact fun hnothing before => runs_agree hnothing

/-! ## A difference of two labels -/

/-- A relocation of a label at an address, in an executable. -/
def labelRelocation (type : LabelRelocationType) (address : UInt64) : LabelRelocation where
  type := type
  offset := 0
  address := address
  application :=
    { arch := .loongArch64
      outputKind := .dynamicExecutable .nonRelocatable
      isRelrEnabled := false
      addresses := ⟨0, none, 0, 0, 0⟩
      sectionInfo := ⟨false, false⟩
      sectionAddress := 0
      place := 0
      info := type.info
      addend := 0
      res := ⟨0, ∅, none, none, fun _ => .ok none⟩
      gotAddress := none
      highPart := fun _ => .ok 0
      setValue := .ok 0
      thunkAddress := none }
  info_eq := rfl

/-- An instruction of call frame information holds the difference of two
labels in six bits, under an opcode of two bits.  The opcode is lost, and the
difference is wrong. -/
theorem six_bit_difference_differs :
    regularRun [labelRelocation .add6 0x10C5, labelRelocation .sub6 0x10C1] [0x40] = .ok [0x44] ∧
      debugRun [labelRelocation .add6 0x10C5, labelRelocation .sub6 0x10C1] [0x40] =
        .ok [0xC4] := ⟨rfl, rfl⟩

end Sld.Relocs
