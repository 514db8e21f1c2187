/-
# `Relocs.Stubs` — what PLT entries and thunks of AArch64 do

A thunk takes the place of a branch whose target is too far away, an entry
of the PLT calls a function through the GOT.  Both are templates whose
immediates are filled in:

A thunk reaches its target exactly if `adrp` can: a distance that takes more
than 21 bits of pages is cut off.  An entry of the PLT loads its slot exactly
if the slot is at a multiple of eight, or too far away (`stubs_reach_iff`).
-/
import Sld.Incremental.InstructionWords
import Sld.Machine.A64

namespace Sld.Relocs

open Incremental (ofLeBytes)
open Incremental.Fields
open Machine
open Text.Reader (bind_eq_ok)
open Nat (mod_lt or_zero shiftLeft_eq zero_or)
open RelocationInstruction (aarch64)
open Instruction (elf)
open UInt64 (add_zero ofNat sub_self toNat_add)

/-! ## Writing a stub -/

def pltEntryTemplate : List UInt8 :=
  [0x10, 0x00, 0x00, 0x90, -- adrp x16, page(&(.got.plt[n]))
   0x11, 0x02, 0x40, 0xF9, -- ldr x17, [x16, offset(&(.got.plt[n]))]
   0x20, 0x02, 0x1F, 0xD6, -- br x17
   0x1F, 0x20, 0x03, 0xD5] -- nop

def thunkTemplate : List UInt8 :=
  [0x10, 0x00, 0x00, 0x90, -- adrp x16, 0
   0x10, 0x02, 0x00, 0x91, -- add x16, x16, #0
   0x00, 0x02, 0x1F, 0xD6] -- br x16

def pageMask4KB : UInt64 := 0xFFF

def size4KB : UInt64 := 4096

def copyFromSlice (buf template : List UInt8) : Except String (List UInt8) :=
  if buf.length = template.length then return template
  else throw "copy_from_slice: source slice length does not match destination slice length"

/-- `write_to_value` on four bytes of a buffer. -/
def writeWord (instruction : AArch64Instruction) (value : UInt64) (buf : List UInt8) (start : ℕ) :
    List UInt8 :=
  buf.take start ++ (Instruction.elf (.aarch64 instruction)).writeToValue value false
    ((buf.drop start).take 4) ++ buf.drop (start + 4)

/-- `write_plt_entry`, without its debug assertion -/
def writePltEntry (pltEntry : List UInt8) (gotAddress pltAddress : UInt64) :
    Except String (List UInt8) := do
  let pltEntry ← copyFromSlice pltEntry pltEntryTemplate
  let pltPageAddress := pltAddress &&& ~~~pageMask4KB
  let offset := gotAddress - pltPageAddress
  if ¬ offset < (1 : UInt64) <<< 32 then throw "PLT is more than 4GiB away from GOT"
  -- the immediate value represents a distance in pages
  let pltEntry := writeWord .adr (offset / size4KB) pltEntry 0
  -- the immediate offset is scaled by 8
  return writeWord .ldrRegister ((offset &&& pageMask4KB) / 8) pltEntry 4

/-- The thunk of a template. -/
def writeThunk (template : List UInt8) (thunkAddress targetAddress : UInt64) (buf : List UInt8) :
    Except String (List UInt8) := do
  let buf ← copyFromSlice buf template
  let thunkPage := thunkAddress &&& ~~~pageMask4KB
  let targetPage := targetAddress &&& ~~~pageMask4KB
  let pageDiff := targetPage.toInt64 - thunkPage.toInt64
  let pageCount := (pageDiff / size4KB.toInt64).toUInt64 &&& 0x1FFFFF
  let buf := writeWord .adr pageCount buf 0
  return writeWord .add (targetAddress &&& pageMask4KB) buf 4

/-- `write_thunk` of `elf_aarch64.rs` -/
def Elf.writeThunk : UInt64 → UInt64 → List UInt8 → Except String (List UInt8) :=
  Relocs.writeThunk thunkTemplate

/-- `write_thunk` of `macho_aarch64.rs` -/
def MachO.writeThunk : UInt64 → UInt64 → List UInt8 → Except String (List UInt8) :=
  Relocs.writeThunk thunkTemplate

/-! ## Executing a stub -/

/-- The program whose bytes are at an address. -/
def placed (base : UInt64) (bytes : List UInt8) (pc : UInt64) : Option ℕ :=
  if (pc - base).toNat + 4 ≤ bytes.length then
    some (ofLeBytes ((bytes.drop (pc - base).toNat).take 4))
  else none

/-- Whatever the registers hold, control gets to the target, and only `x16`
changes. -/
def JumpsTo (base : UInt64) (bytes : List UInt8) (target : UInt64) : Prop :=
  ∀ mem x, ∃ s, run (placed base bytes) mem 3 ⟨base, x, []⟩ = some s ∧
    s.pc = target ∧ s.loads = [] ∧ ∀ r, r ≠ 16 → s.x r = x r

/-- Control gets to the address that the slot holds, nothing else is loaded,
and only `x16` and `x17` change. -/
def LoadsFrom (base : UInt64) (bytes : List UInt8) (slot : UInt64) : Prop :=
  ∀ mem x, ∃ s, run (placed base bytes) mem 3 ⟨base, x, []⟩ = some s ∧
    s.loads = [slot] ∧ s.pc = mem slot ∧ ∀ r, r ≠ 16 → r ≠ 17 → s.x r = x r

/-- A thunk that is written gets to its target. -/
def ThunkReaches (write : UInt64 → UInt64 → List UInt8 → Except String (List UInt8))
    (thunkAddress targetAddress : UInt64) : Prop :=
  ∀ buf bytes, write thunkAddress targetAddress buf = .ok bytes →
    JumpsTo thunkAddress bytes targetAddress

/-- An entry that is written loads its slot. -/
def PltEntryLoads (pltAddress gotAddress : UInt64) : Prop :=
  ∀ pltEntry bytes, writePltEntry pltEntry gotAddress pltAddress = .ok bytes →
    LoadsFrom pltAddress bytes gotAddress

/-! ## Words -/

theorem or_field {high low value k n : ℕ} (hlow : low < 2 ^ k) (hvalue : value < 2 ^ n) :
    (high * 2 ^ (k + n) + low) ||| value <<< k = high * 2 ^ (k + n) + value * 2 ^ k + low := by
  have hsplit : high * 2 ^ (k + n) + low = (high <<< n) <<< k ||| low := by
    rw [← Nat.shiftLeft_add_eq_or_of_lt hlow, shiftLeft_eq, shiftLeft_eq, Nat.mul_assoc,
      ← Nat.pow_add, Nat.add_comm n k]
  rw [hsplit, Nat.or_assoc, Nat.or_comm low, ← Nat.or_assoc, ← Nat.shiftLeft_or_distrib,
    ← Nat.shiftLeft_add_eq_or_of_lt hvalue, ← Nat.shiftLeft_add_eq_or_of_lt hlow,
    shiftLeft_eq, shiftLeft_eq, Nat.add_mul, Nat.mul_assoc, ← Nat.pow_add,
    Nat.add_comm n k]

theorem ofLeBytes_writeToValue {instruction : AArch64Instruction}
    (hkept : instruction.kept = 0xFFFFFFFF) (v : UInt64) {word : List UInt8}
    (hword : word.length = 4)
    (hlt : (aarch64 instruction).encoded v false < 2 ^ 32) :
    ofLeBytes ((elf (.aarch64 instruction)).writeToValue v false word) =
      ofLeBytes word ||| (aarch64 instruction).encoded v false := by
  refine Nat.eq_of_testBit_eq fun i => ?_
  have hsize : (elf (.aarch64 instruction)).size ≤ word.length := hword.symm.le
  have hbits : (elf (.aarch64 instruction)).kept = 2 ^ 32 - 1 := by
    show instruction.kept.toNat = _
    rw [hkept]
    rfl
  rw [testBit_writeToValue _ _ _ hsize, Nat.testBit_or, hbits, Nat.testBit_two_pow_sub_one]
  show (if i < 32 then ((ofLeBytes word).testBit i && decide (i < 32)) ||
    ((aarch64 instruction).encoded v false).testBit i else _) = _
  split
  next hi => rw [decide_eq_true hi, Bool.and_true]
  next hi =>
    have hzero := Nat.testBit_lt_two_pow (Nat.lt_of_lt_of_le hlt
      (Nat.pow_le_pow_right (by decide) (Nat.le_of_not_lt hi)))
    rw [hzero, Bool.or_false]

section

variable {v : UInt64}

theorem encoded_adr (hv : v.toNat < 2 ^ 21) : (aarch64 .adr).encoded v false =
      (v.toNat % 4) <<< 29 ||| (v.toNat / 4) <<< 5 := by
  have hhigh : v.toNat / 4 < 2 ^ 27 := by omega
  show 0 ||| (((v + 0).toNat >>> 0 % 2 ^ 2) <<< 29 |||
    (((v + 0).toNat >>> 2 % 2 ^ 27) <<< 5 ||| 0)) = _
  rw [zero_or, or_zero, add_zero, Nat.shiftRight_zero, Nat.shiftRight_eq_div_pow _ 2]
  exact congrArg (fun n => (v.toNat % 4) <<< 29 ||| n <<< 5) (Nat.mod_eq_of_lt hhigh)

theorem adr_word (hv : v.toNat < 2 ^ 21) :
    ofLeBytes ((elf (.aarch64 .adr)).writeToValue v false [0x10, 0x00, 0x00, 0x90]) =
      (4 + v.toNat % 4) * 2 ^ 29 + 0x10 * 2 ^ 24 + v.toNat / 4 * 2 ^ 5 + 16 := by
  have hencoded := encoded_adr hv
  have hlow : v.toNat % 4 < 2 ^ 2 := mod_lt _ (by decide)
  have hhigh : v.toNat / 4 < 2 ^ 19 := by omega
  have hlt : (aarch64 .adr).encoded v false < 2 ^ 32 := by
    rw [hencoded]
    refine Nat.or_lt_two_pow ?_ ?_
    · omega
    · omega
  have htemplate : ofLeBytes [0x10, 0x00, 0x00, 0x90] = 0x90 * 2 ^ (5 + 19) + 16 := by decide
  have hrest : 0x10 * 2 ^ 24 + v.toNat / 4 * 2 ^ 5 + 16 < 2 ^ 29 := by omega
  have hsplit : 0x90 * 2 ^ (5 + 19) + v.toNat / 4 * 2 ^ 5 + 16 =
      1 * 2 ^ (29 + 2) + (0x10 * 2 ^ 24 + v.toNat / 4 * 2 ^ 5 + 16) := by omega
  rw [ofLeBytes_writeToValue rfl v rfl hlt, hencoded, htemplate, Nat.or_comm (_ <<< 29),
    ← Nat.or_assoc, or_field (by decide) hhigh, hsplit, or_field hrest hlow]
  omega

theorem encoded_imm12 (v : UInt64) :
    (aarch64 .add).encoded v false = (v.toNat % 2 ^ 22) <<< 10 := by
  show 0 ||| (((v + 0).toNat >>> 0 % 2 ^ 22) <<< 10 ||| 0) = _
  rw [zero_or, or_zero, add_zero, Nat.shiftRight_zero]

theorem imm12_word {instruction : AArch64Instruction} (hkept : instruction.kept = 0xFFFFFFFF)
    (hparts : (aarch64 instruction).encoded v false =
      ((v.toNat % 2 ^ 22) <<< 10)) (hv : v.toNat < 2 ^ 12) {word : List UInt8} {high low : ℕ}
    (hlen : word.length = 4) (hlow : low < 2 ^ 10)
    (hword : ofLeBytes word = high * 2 ^ (10 + 12) + low) :
    ofLeBytes ((elf (.aarch64 instruction)).writeToValue v false word) =
      high * 2 ^ (10 + 12) + v.toNat * 2 ^ 10 + low := by
  have hmod : v.toNat % 2 ^ 22 = v.toNat := Nat.mod_eq_of_lt (by omega)
  rw [hmod] at hparts
  have hlt : (aarch64 instruction).encoded v false < 2 ^ 32 := by
    omega
  rw [ofLeBytes_writeToValue hkept v hlen hlt, hparts, hword, or_field hlow hv]

theorem add_word (hv : v.toNat < 2 ^ 12) :
    ofLeBytes ((elf (.aarch64 .add)).writeToValue v false [0x10, 0x02, 0x00, 0x91]) =
      0x244 * 2 ^ 22 + v.toNat * 2 ^ 10 + 16 * 2 ^ 5 + 16 := by
  exact @imm12_word v .add rfl (encoded_imm12 v) hv _ 0x244 0x210 rfl (by decide) (by decide)

theorem ldr_word (hv : v.toNat < 2 ^ 12) :
    ofLeBytes ((elf (.aarch64 .ldrRegister)).writeToValue v false
      [0x11, 0x02, 0x40, 0xF9]) = 0x3E5 * 2 ^ 22 + v.toNat * 2 ^ 10 + 16 * 2 ^ 5 + 17 := by
  exact @imm12_word v .ldrRegister rfl (encoded_imm12 v) hv _ 0x3E5 0x211 rfl (by decide) (by decide)

end

/-! ## Runs -/

section

variable {base : UInt64} {mem : UInt64 → UInt64} {x : Reg → UInt64} {v w : UInt64}

theorem placed_word {pc : UInt64} {before word after : List UInt8} (hword : word.length = 4)
    (hpc : (pc - base).toNat = before.length) :
    placed base (before ++ (word ++ after)) pc = some (ofLeBytes word) := by
  have hlen : (pc - base).toNat + 4 ≤ (before ++ (word ++ after)).length := by
    rw [List.length_append, List.length_append]
    omega
  rw [placed, if_pos hlen, hpc, List.drop_left, List.take_left' hword]

/-- The words of a stub, with the two immediates. -/
def adrWord (v : UInt64) : List UInt8 :=
  (Instruction.elf (.aarch64 .adr)).writeToValue v false [0x10, 0x00, 0x00, 0x90]

def addWord (v : UInt64) : List UInt8 :=
  (Instruction.elf (.aarch64 .add)).writeToValue v false [0x10, 0x02, 0x00, 0x91]

def ldrWord (v : UInt64) : List UInt8 :=
  (Instruction.elf (.aarch64 .ldrRegister)).writeToValue v false [0x11, 0x02, 0x40, 0xF9]

theorem length_adrWord (v : UInt64) : (adrWord v).length = 4 :=
  length_writeToValue _ _ _ (by decide)

theorem length_addWord (v : UInt64) : (addWord v).length = 4 :=
  length_writeToValue _ _ _ (by decide)

theorem length_ldrWord (v : UInt64) : (ldrWord v).length = 4 :=
  length_writeToValue _ _ _ (by decide)

theorem decode_adrWord (hv : v.toNat < 2 ^ 21) :
    decode (ofLeBytes (adrWord v)) = some (.adrp 16 v.toNat) := by
  have hlow : v.toNat % 4 < 4 := mod_lt _ (by decide)
  have hhigh : v.toNat / 4 < 2 ^ 19 := by omega
  have hsplit : v.toNat / 4 * 4 + v.toNat % 4 = v.toNat := by omega
  rw [adrWord, adr_word hv, decode_adrp (by decide) hlow hhigh, hsplit]
  rfl

theorem decode_addWord (hv : v.toNat < 2 ^ 12) :
    decode (ofLeBytes (addWord v)) = some (.addImm 16 16 v.toNat) := by
  rw [addWord, add_word hv, decode_addImm (by decide) (by decide) hv]
  rfl

theorem decode_ldrWord (hv : v.toNat < 2 ^ 12) :
    decode (ofLeBytes (ldrWord v)) = some (.ldr 17 16 (v.toNat * 8)) := by
  rw [ldrWord, ldr_word hv, decode_ldr (by decide) (by decide) hv]
  rfl

theorem pc_second (base : UInt64) : (base + 4 - base).toNat = 4 := by
  have h : base + 4 - base = 4 := by grind
  rw [h]
  rfl

theorem pc_third (base : UInt64) : (base + 4 + 4 - base).toNat = 8 := by
  have h : base + 4 + 4 - base = 8 := by grind
  rw [h]
  rfl

theorem run_stub {second third after : List UInt8} {instr : Instr} {s : State}
    (hsecond : second.length = 4) (hthird : third.length = 4) (hv : v.toNat < 2 ^ 21)
    (hinstr : decode (ofLeBytes second) = some instr)
    (hs : instr.execute mem ((State.mk base x []).set 16 (page base + pageOffset v.toNat)) = s)
    (hpc : s.pc = base + 4 + 4) {r : Reg} (hbr : decode (ofLeBytes third) = some (.br r)) :
    run (placed base (adrWord v ++ (second ++ (third ++ after)))) mem 3 ⟨base, x, []⟩ =
      some { s with pc := s.x r } := by
  have hfirst : placed base (adrWord v ++ (second ++ (third ++ after))) base =
      some (ofLeBytes (adrWord v)) := by
    show placed base ([] ++ (adrWord v ++ (second ++ (third ++ after)))) base = _
    refine placed_word (length_adrWord v) ?_
    rw [sub_self]
    rfl
  have hnext : placed base (adrWord v ++ (second ++ (third ++ after))) (base + 4) =
      some (ofLeBytes second) := by
    refine placed_word hsecond ?_
    rw [pc_second, length_adrWord]
  have hlast : placed base (adrWord v ++ (second ++ (third ++ after))) (base + 4 + 4) =
      some (ofLeBytes third) := by
    rw [← List.append_assoc]
    refine placed_word hthird ?_
    rw [pc_third, List.length_append, length_adrWord, hsecond]
  rw [run_succ (step_eq hfirst (decode_adrWord hv)), run_succ (step_eq hnext hinstr)]
  show run _ mem 1 (instr.execute mem ((State.mk base x []).set 16 _)) = _
  rw [hs, run_succ (step_eq (hpc ▸ hlast) hbr)]
  rfl

end

/-! ## What is written -/

section

variable {bytes buf : List UInt8}

theorem copyFromSlice_eq_ok {template : List UInt8} :
    copyFromSlice buf template = .ok bytes ↔ buf.length = template.length ∧ bytes = template := by
  rw [copyFromSlice]
  split
  next h => exact ⟨fun heq => ⟨h, (Except.ok.inj heq).symm⟩, fun heq => heq.2 ▸ rfl⟩
  next h => exact ⟨nofun, fun heq => absurd heq.1 h⟩

theorem writeWord_second {instruction : AArch64Instruction} (value : UInt64) {first : List UInt8}
    (hfirst : first.length = 4) (rest : List UInt8) :
    writeWord instruction value (first ++ rest) 4 = first ++
      ((elf (.aarch64 instruction)).writeToValue value false (rest.take 4) ++
        rest.drop 4) := by
  have hdrop : (first ++ rest).drop (4 + 4) = rest.drop 4 := by
    rw [← List.drop_drop, List.drop_left' hfirst]
  rw [writeWord, List.take_left' hfirst, List.drop_left' hfirst, hdrop, List.append_assoc]

/-- The number of pages that the instruction has room for. -/
def pageCount (thunkAddress targetAddress : UInt64) : UInt64 :=
  (((page targetAddress).toInt64 - (page thunkAddress).toInt64) / size4KB.toInt64).toUInt64 &&&
    0x1FFFFF

theorem writeThunk_eq_ok {thunkAddress targetAddress : UInt64} :
    writeThunk thunkTemplate thunkAddress targetAddress buf = .ok bytes ↔ buf.length = 12 ∧
      bytes = adrWord (pageCount thunkAddress targetAddress) ++
        (addWord (targetAddress &&& pageMask4KB) ++ ([0x00, 0x02, 0x1F, 0xD6] ++ [])) := by
  have hbytes : writeWord .add (targetAddress &&& pageMask4KB)
      (writeWord .adr (pageCount thunkAddress targetAddress) thunkTemplate 0) 4 =
        adrWord (pageCount thunkAddress targetAddress) ++
          (addWord (targetAddress &&& pageMask4KB) ++ ([0x00, 0x02, 0x1F, 0xD6] ++ [])) :=
    writeWord_second _ (length_adrWord _) _
  rw [writeThunk, bind_eq_ok]
  constructor
  · rintro ⟨template, hcopy, hok⟩
    obtain ⟨hlen, rfl⟩ := copyFromSlice_eq_ok.1 hcopy
    exact ⟨hlen, (Except.ok.inj hok).symm.trans hbytes⟩
  · rintro ⟨hlen, rfl⟩
    exact ⟨thunkTemplate, copyFromSlice_eq_ok.2 ⟨hlen, rfl⟩, congrArg Except.ok hbytes⟩

theorem writePltEntry_eq_ok {gotAddress pltAddress : UInt64} :
    writePltEntry buf gotAddress pltAddress = .ok bytes ↔ buf.length = 16 ∧
      (gotAddress - page pltAddress).toNat < 2 ^ 32 ∧
      bytes = adrWord ((gotAddress - page pltAddress) / size4KB) ++
        (ldrWord (((gotAddress - page pltAddress) &&& pageMask4KB) / 8) ++
          ([0x20, 0x02, 0x1F, 0xD6] ++ [0x1F, 0x20, 0x03, 0xD5])) := by
  have hbytes : writeWord .ldrRegister (((gotAddress - page pltAddress) &&& pageMask4KB) / 8)
      (writeWord .adr ((gotAddress - page pltAddress) / size4KB) pltEntryTemplate 0) 4 =
        adrWord ((gotAddress - page pltAddress) / size4KB) ++
          (ldrWord (((gotAddress - page pltAddress) &&& pageMask4KB) / 8) ++
            ([0x20, 0x02, 0x1F, 0xD6] ++ [0x1F, 0x20, 0x03, 0xD5])) :=
    writeWord_second _ (length_adrWord _) _
  have hrange : gotAddress - page pltAddress < (1 : UInt64) <<< 32 ↔
      (gotAddress - page pltAddress).toNat < 2 ^ 32 := UInt64.lt_iff_toNat_lt
  rw [writePltEntry, bind_eq_ok]
  constructor
  · rintro ⟨template, hcopy, hok⟩
    obtain ⟨hlen, rfl⟩ := copyFromSlice_eq_ok.1 hcopy
    change (if ¬ gotAddress - page pltAddress < (1 : UInt64) <<< 32 then _ else _) = _ at hok
    split at hok
    · cases hok
    next hnear =>
      exact ⟨hlen, hrange.1 (not_not.1 hnear), (Except.ok.inj hok).symm.trans hbytes⟩
  · rintro ⟨hlen, hnear, rfl⟩
    refine ⟨pltEntryTemplate, copyFromSlice_eq_ok.2 ⟨hlen, rfl⟩, ?_⟩
    show (if ¬ gotAddress - page pltAddress < (1 : UInt64) <<< 32 then _ else _) = _
    rw [if_neg (not_not.2 (hrange.2 hnear))]
    exact congrArg Except.ok hbytes

end

/-! ## What is reached -/

theorem toNat_pageMask (v : UInt64) : (v &&& pageMask4KB).toNat = v.toNat % 4096 :=
  toNat_and_mask (n := 12) (by decide)

theorem page_add_low (v : UInt64) : page v + (v &&& pageMask4KB) = v := by
  have hlt := v.toNat_lt
  have hpage := toNat_page v
  have hlow := toNat_pageMask v
  rw [← UInt64.toNat_inj, toNat_add]
  omega

/-- The distance of two pages, in pages, with its sign. -/
def pageDistance (source target : UInt64) : ℤ := (page target - page source).toInt64.toInt / 4096

theorem toInt_toInt64 (v : UInt64) :
    v.toInt64.toInt = if v.toNat < 2 ^ 63 then (v.toNat : ℤ) else v.toNat - 2 ^ 64 := by
  have hlt := v.toNat_lt
  have hint : v.toInt64.toInt = (v.toNat : ℤ).bmod (2 ^ 64) := BitVec.toInt_eq_toNat_bmod _
  rw [hint, Int.bmod_def]
  omega

theorem pageDistance_eq (source target : UInt64) : pageDistance source target =
      if pagesUpTo source target < 2 ^ 51 then (pagesUpTo source target : ℤ)
      else pagesUpTo source target - 2 ^ 52 := by
  have hsub := toNat_page_sub source target
  rw [pageDistance, toInt_toInt64, hsub]
  omega

theorem toInt_page_sub (source target : UInt64) :
    (page target - page source).toInt64.toInt = 4096 * pageDistance source target := by
  have hsub := toNat_page_sub source target
  rw [pageDistance_eq, toInt_toInt64]
  omega

theorem toNat_pageCount (source target : UInt64) :
    (pageCount source target).toNat = pagesUpTo source target % 2 ^ 21 := by
  have hdiv : ((page target - page source).toInt64 / size4KB.toInt64).toInt =
      pageDistance source target := by
    have hsize : size4KB.toInt64.toInt = 4096 := by decide
    rw [Int64.toInt_div_of_ne_right _ _ (by decide), toInt_page_sub, hsize,
      Int.mul_tdiv_cancel_left _ (by decide)]
  have hcount := toInt_toInt64 ((page target - page source).toInt64 / size4KB.toInt64).toUInt64
  rw [Int64.toInt64_toUInt64, hdiv, pageDistance_eq] at hcount
  rw [pageCount, ← UInt64.toInt64_sub, toNat_and_mask (n := 21) (by decide)]
  omega

theorem run_thunk (mem : UInt64 → UInt64) (x : Reg → UInt64) (source target : UInt64) :
    ∃ s, run (placed source (adrWord (pageCount source target) ++
        (addWord (target &&& pageMask4KB) ++ ([0x00, 0x02, 0x1F, 0xD6] ++ [])))) mem 3
          ⟨source, x, []⟩ = some s ∧
      s.pc = page source + pageOffset (pagesUpTo source target % 2 ^ 21) +
        (target &&& pageMask4KB) ∧
      s.loads = [] ∧ ∀ r, r ≠ 16 → s.x r = x r := by
  have hcount := toNat_pageCount source target
  have hv : (pageCount source target).toNat < 2 ^ 21 := by
    rw [hcount]
    exact mod_lt _ (by decide)
  have hw : (target &&& pageMask4KB).toNat < 2 ^ 12 := by
    rw [toNat_pageMask]
    exact mod_lt _ (by decide)
  refine ⟨_, run_stub (length_addWord _) rfl hv (decode_addWord hw) rfl rfl (r := 16) (by decide),
    ?_, rfl, fun r hr => ?_⟩
  · simp only [Instr.execute, State.set_x_self, hcount, UInt64.ofNat_toNat]
  · simp only [Instr.execute, State.set_x_of_ne _ _ hr]

theorem writeThunk_reaches_iff (thunkAddress targetAddress : UInt64) :
    ThunkReaches (writeThunk thunkTemplate) thunkAddress targetAddress ↔
      -2 ^ 20 ≤ pageDistance thunkAddress targetAddress ∧
        pageDistance thunkAddress targetAddress < 2 ^ 20 := by
  have hdistance := pageDistance_eq thunkAddress targetAddress
  have hpages := toNat_page_sub thunkAddress targetAddress
  have hlt := (page targetAddress - page thunkAddress).toNat_lt
  have hreach : page thunkAddress + pageOffset (pagesUpTo thunkAddress targetAddress % 2 ^ 21) +
      (targetAddress &&& pageMask4KB) = targetAddress ↔
        -2 ^ 20 ≤ pageDistance thunkAddress targetAddress ∧
          pageDistance thunkAddress targetAddress < 2 ^ 20 := by
    have hpage := page_add_pageOffset thunkAddress targetAddress
    have hcancel : page thunkAddress + pageOffset (pagesUpTo thunkAddress targetAddress % 2 ^ 21) +
        (targetAddress &&& pageMask4KB) = targetAddress ↔
          page thunkAddress + pageOffset (pagesUpTo thunkAddress targetAddress % 2 ^ 21) =
            page targetAddress := by
      have hinj := UInt64.add_left_inj (targetAddress &&& pageMask4KB)
        (a := page thunkAddress + pageOffset (pagesUpTo thunkAddress targetAddress % 2 ^ 21))
        (b := page targetAddress)
      rwa [page_add_low] at hinj
    rw [hcancel, hpage]
    omega
  rw [← hreach]
  constructor
  · intro hreaches
    obtain ⟨s, hrun, hpc, -⟩ := hreaches (List.replicate 12 0) _
      (writeThunk_eq_ok.2 ⟨rfl, rfl⟩) (fun _ => 0) (fun _ => 0)
    obtain ⟨s', hrun', hpc', -⟩ := run_thunk (fun _ => 0) (fun _ => 0) thunkAddress targetAddress
    cases hrun.symm.trans hrun'
    exact hpc'.symm.trans hpc
  · intro heq buf bytes hwrite mem x
    obtain ⟨-, rfl⟩ := writeThunk_eq_ok.1 hwrite
    obtain ⟨s, hrun, hpc, hrest⟩ := run_thunk mem x thunkAddress targetAddress
    exact ⟨s, hrun, hpc.trans heq, hrest⟩

theorem run_pltEntry (mem : UInt64 → UInt64) (x : Reg → UInt64) {source slot : UInt64}
    (hnear : (slot - page source).toNat < 2 ^ 32) :
    ∃ s address, run (placed source (adrWord ((slot - page source) / size4KB) ++
        (ldrWord (((slot - page source) &&& pageMask4KB) / 8) ++
          ([0x20, 0x02, 0x1F, 0xD6] ++ [0x1F, 0x20, 0x03, 0xD5])))) mem 3 ⟨source, x, []⟩ = some s ∧
      (slot - address).toNat = slot.toNat % 8 ∧ s.loads = [address] ∧ s.pc = mem address ∧
      ∀ r, r ≠ 16 → r ≠ 17 → s.x r = x r := by
  obtain ⟨offset, hoffset⟩ : ∃ offset, offset = slot - page source := ⟨_, rfl⟩
  rw [← hoffset] at hnear ⊢
  have hpages : (offset / size4KB).toNat = offset.toNat / 4096 := UInt64.toNat_div _ _
  have hlow : ((offset &&& pageMask4KB) / 8).toNat = offset.toNat % 4096 / 8 := by
    rw [UInt64.toNat_div, toNat_pageMask]
    rfl
  have hv : (offset / size4KB).toNat < 2 ^ 21 := by omega
  have hw : ((offset &&& pageMask4KB) / 8).toNat < 2 ^ 12 := by omega
  refine ⟨_, page source + pageOffset (offset / size4KB).toNat +
      ofNat (((offset &&& pageMask4KB) / 8).toNat * 8),
    run_stub (length_ldrWord _) rfl hv (decode_ldrWord hw) rfl rfl (r := 17) (by decide),
    ?_, ?_, ?_, fun r hr hr' => ?_⟩
  · have hpage := toNat_page source
    have hsub := UInt64.toNat_sub slot (page source)
    have himmediate : offset.toNat / 4096 < 2 ^ 21 := by omega
    have hoff := toNat_pageOffset himmediate
    have himm : (ofNat (offset.toNat % 4096 / 8 * 8)).toNat = offset.toNat % 4096 / 8 * 8 :=
      UInt64.toNat_ofNat_of_lt' (show offset.toNat % 4096 / 8 * 8 < 2 ^ 64 by omega)
    have hslot := slot.toNat_lt
    have hsource := source.toNat_lt
    rw [if_pos (by omega)] at hoff
    rw [← hoffset] at hsub
    rw [hpages, hlow, UInt64.toNat_sub, toNat_add, toNat_add]
    omega
  · simp only [Instr.execute, State.set_x_self, State.set_loads, List.nil_append]
  · simp only [Instr.execute, State.set_x_self]
  · simp only [Instr.execute, State.set_x_of_ne _ _ hr, State.set_x_of_ne _ _ hr']

theorem pltEntryLoads_iff (pltAddress gotAddress : UInt64) : PltEntryLoads pltAddress gotAddress ↔
      2 ^ 32 ≤ (gotAddress - (pltAddress &&& ~~~pageMask4KB)).toNat ∨ gotAddress.toNat % 8 = 0 := by
  show _ ↔ 2 ^ 32 ≤ (gotAddress - page pltAddress).toNat ∨ _
  rcases Nat.lt_or_ge (gotAddress - page pltAddress).toNat (2 ^ 32) with hnear | hfar
  · rw [or_iff_right (Nat.not_le.mpr hnear)]
    constructor
    · intro hloads
      obtain ⟨s, hrun, hs, -⟩ := hloads (List.replicate 16 0) _
        (writePltEntry_eq_ok.2 ⟨rfl, hnear, rfl⟩) (fun _ => 0) (fun _ => 0)
      obtain ⟨s', address, hrun', haddr, hs', -⟩ := run_pltEntry (fun _ => 0) (fun _ => 0) hnear
      cases hrun.symm.trans hrun'
      cases hs.symm.trans hs'
      rw [← haddr, sub_self]
      rfl
    · intro haligned pltEntry bytes hwrite mem x
      obtain ⟨-, -, rfl⟩ := writePltEntry_eq_ok.1 hwrite
      obtain ⟨s, address, hrun, haddr, hs, hpc, hrest⟩ := run_pltEntry mem x hnear
      have hsame : gotAddress - address = 0 := UInt64.toNat_inj.1 (haddr.trans haligned)
      obtain rfl : gotAddress = address := UInt64.sub_eq_iff_eq_add.1 hsame |>.trans (by simp)
      exact ⟨s, hrun, hs, hpc, hrest⟩
  · refine ⟨fun _ => .inl hfar, fun _ pltEntry bytes hwrite => ?_⟩
    obtain ⟨-, hnear, -⟩ := writePltEntry_eq_ok.1 hwrite
    exact absurd hfar (Nat.not_le.mpr hnear)

/-- Stubs get to where they should exactly if the distance of the pages fits
into 21 bits, and if the slot is at a multiple of eight or out of reach. -/
theorem stubs_reach_iff (stubAddress targetAddress pltAddress gotAddress : UInt64) :
    (ThunkReaches Elf.writeThunk stubAddress targetAddress ∧
        ThunkReaches MachO.writeThunk stubAddress targetAddress ∧
        PltEntryLoads pltAddress gotAddress) ↔
      (-2 ^ 20 ≤ pageDistance stubAddress targetAddress ∧
        pageDistance stubAddress targetAddress < 2 ^ 20) ∧
      (2 ^ 32 ≤ (gotAddress - (pltAddress &&& ~~~pageMask4KB)).toNat ∨
        gotAddress.toNat % 8 = 0) := by
  have hthunk := writeThunk_reaches_iff stubAddress targetAddress
  have hplt := pltEntryLoads_iff pltAddress gotAddress
  show ThunkReaches (writeThunk thunkTemplate) stubAddress targetAddress ∧
    ThunkReaches (writeThunk thunkTemplate) stubAddress targetAddress ∧ _ ↔ _
  rw [hthunk, hplt]
  exact ⟨fun h => h.2, fun h => ⟨h.1, h⟩⟩

/-! ## Too far away -/

/-- A thunk whose target is 8 GiB further on jumps to itself, and an entry
whose slot is not at a multiple of eight loads from another place.  Both are
written without an error. -/
theorem far_thunk_jumps_to_itself :
    (∃ bytes, Elf.writeThunk 0x1000 0x200001000 (List.replicate 12 0) = .ok bytes ∧
      JumpsTo 0x1000 bytes 0x1000) ∧
    ¬ ThunkReaches Elf.writeThunk 0x1000 0x200001000 ∧
    ¬ ThunkReaches MachO.writeThunk 0x1000 0x200001000 ∧
    ¬ PltEntryLoads 0x1000 0x2004 := by
  have hfar : ¬ ThunkReaches (writeThunk thunkTemplate) 0x1000 0x200001000 := by
    rw [writeThunk_reaches_iff]
    decide
  refine ⟨⟨_, writeThunk_eq_ok.2 ⟨rfl, rfl⟩, fun mem x => ?_⟩, hfar, hfar, ?_⟩
  · obtain ⟨s, hrun, hpc, hrest⟩ := run_thunk mem x 0x1000 0x200001000
    exact ⟨s, hrun, hpc.trans (by decide), hrest⟩
  · rw [pltEntryLoads_iff]
    decide

end Sld.Relocs
