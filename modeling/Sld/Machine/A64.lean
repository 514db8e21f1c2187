/-
# `Machine.A64` — the instructions that reach a far address

A few instructions of the A64 set, decoded from their words, and what they
do to the registers:

    adrp rd, imm         the page of the instruction, some pages on
    addImm rd, rn, imm
    ldr rt, [rn, imm]    eight bytes of memory
    br rn
    nop

A word of one of these instructions with its operands put in place decodes
to the instruction (`decode_adrp`, `decode_addImm`, `decode_ldr`).  A program
is a function from addresses to words.  The addresses that have been loaded
from are part of the state.
-/
import Mathlib.Data.UInt

namespace Sld.Machine

/-! ## Instructions -/

/-- The registers that are neither the stack pointer nor zero. -/
abbrev Reg := Fin 31

inductive Instr where
  | adrp (rd : Reg) (imm : ℕ)
  | addImm (rd rn : Reg) (imm : ℕ)
  | ldr (rt rn : Reg) (imm : ℕ)
  | br (rn : Reg)
  | nop
  deriving DecidableEq

/-- A register, by its number. -/
def reg (n : ℕ) : Option Reg := if h : n < 31 then some ⟨n, h⟩ else none

theorem reg_of_lt {n : ℕ} (h : n < 31) : reg n = some ⟨n, h⟩ := dif_pos h

/-- Offsets of loads are multiples of eight; the immediate of an addition may
be a number of pages. -/
def decode (w : ℕ) : Option Instr :=
  if w / 2 ^ 31 = 1 ∧ w / 2 ^ 24 % 32 = 0x10 then do
    return .adrp (← reg (w % 32)) (w / 2 ^ 5 % 2 ^ 19 * 4 + w / 2 ^ 29 % 4)
  else if w / 2 ^ 23 = 0x122 then do
    return .addImm (← reg (w % 32)) (← reg (w / 32 % 32))
      (w / 2 ^ 10 % 2 ^ 12 * if w / 2 ^ 22 % 2 = 1 then 4096 else 1)
  else if w / 2 ^ 22 = 0x3E5 then do
    return .ldr (← reg (w % 32)) (← reg (w / 32 % 32)) (w / 2 ^ 10 % 2 ^ 12 * 8)
  else if w / 2 ^ 10 = 0x3587C0 ∧ w % 32 = 0 then do
    return .br (← reg (w / 32 % 32))
  else if w = 0xD503201F then some .nop
  else none

/-! ## Words -/

section

variable {rd rn imm : ℕ}

theorem decode_adrp {low high : ℕ} (hrd : rd < 31) (hlow : low < 4) (hhigh : high < 2 ^ 19) :
    decode ((4 + low) * 2 ^ 29 + 0x10 * 2 ^ 24 + high * 2 ^ 5 + rd) =
      some (.adrp ⟨rd, hrd⟩ (high * 4 + low)) := by
  obtain ⟨w, hw⟩ : ∃ w, w = (4 + low) * 2 ^ 29 + 0x10 * 2 ^ 24 + high * 2 ^ 5 + rd := ⟨_, rfl⟩
  have hop : w / 2 ^ 31 = 1 ∧ w / 2 ^ 24 % 32 = 0x10 := by omega
  have hd : w % 32 = rd := by omega
  have hbits : w / 2 ^ 5 % 2 ^ 19 = high := by omega
  have hlowbits : w / 2 ^ 29 % 4 = low := by omega
  rw [← hw, decode, if_pos hop, hd, hbits, hlowbits, reg_of_lt hrd]
  rfl

theorem decode_addImm (hrd : rd < 31) (hrn : rn < 31) (himm : imm < 2 ^ 12) :
    decode (0x244 * 2 ^ 22 + imm * 2 ^ 10 + rn * 2 ^ 5 + rd) =
      some (.addImm ⟨rd, hrd⟩ ⟨rn, hrn⟩ imm) := by
  obtain ⟨w, hw⟩ : ∃ w, w = 0x244 * 2 ^ 22 + imm * 2 ^ 10 + rn * 2 ^ 5 + rd := ⟨_, rfl⟩
  have hnot : ¬ (w / 2 ^ 31 = 1 ∧ w / 2 ^ 24 % 32 = 0x10) := by omega
  have hop : w / 2 ^ 23 = 0x122 := by omega
  have hshift : ¬ w / 2 ^ 22 % 2 = 1 := by omega
  have hd : w % 32 = rd := by omega
  have hn : w / 32 % 32 = rn := by omega
  have hbits : w / 2 ^ 10 % 2 ^ 12 = imm := by omega
  rw [← hw, decode, if_neg hnot, if_pos hop, if_neg hshift, hd, hn, hbits, reg_of_lt hrd,
    reg_of_lt hrn, Nat.mul_one]
  rfl

theorem decode_ldr (hrt : rd < 31) (hrn : rn < 31) (himm : imm < 2 ^ 12) :
    decode (0x3E5 * 2 ^ 22 + imm * 2 ^ 10 + rn * 2 ^ 5 + rd) =
      some (.ldr ⟨rd, hrt⟩ ⟨rn, hrn⟩ (imm * 8)) := by
  obtain ⟨w, hw⟩ : ∃ w, w = 0x3E5 * 2 ^ 22 + imm * 2 ^ 10 + rn * 2 ^ 5 + rd := ⟨_, rfl⟩
  have hnot : ¬ (w / 2 ^ 31 = 1 ∧ w / 2 ^ 24 % 32 = 0x10) := by omega
  have hadd : ¬ w / 2 ^ 23 = 0x122 := by omega
  have hop : w / 2 ^ 22 = 0x3E5 := by omega
  have ht : w % 32 = rd := by omega
  have hn : w / 32 % 32 = rn := by omega
  have hbits : w / 2 ^ 10 % 2 ^ 12 = imm := by omega
  rw [← hw, decode, if_neg hnot, if_neg hadd, if_pos hop, ht, hn, hbits, reg_of_lt hrt,
    reg_of_lt hrn]
  rfl

end

/-! ## Execution -/

structure State where
  pc : UInt64
  x : Reg → UInt64
  loads : List UInt64

/-- `SignExtend(imm:Zeros(12), 64)`, for an immediate of 21 bits -/
def pageOffset (imm : ℕ) : UInt64 :=
  if imm < 2 ^ 20 then UInt64.ofNat (imm * 4096) else UInt64.ofNat (imm * 4096) - 0x200000000

def page (address : UInt64) : UInt64 := address &&& ~~~0xFFF

/-- The state in which a register holds a value and the next instruction
follows. -/
def State.set (s : State) (r : Reg) (value : UInt64) : State :=
  { s with pc := s.pc + 4, x := Function.update s.x r value }

section

variable (s : State) (r : Reg) (value : UInt64)

@[simp] theorem State.set_pc : (s.set r value).pc = s.pc + 4 := rfl

@[simp] theorem State.set_loads : (s.set r value).loads = s.loads := rfl

@[simp] theorem State.set_x_self : (s.set r value).x r = value := Function.update_self _ _ _

theorem State.set_x_of_ne {r r' : Reg} (h : r' ≠ r) : (s.set r value).x r' = s.x r' :=
  Function.update_of_ne h _ _

end

/-- One instruction.  `mem` holds the eight bytes at an address. -/
def Instr.execute (mem : UInt64 → UInt64) (s : State) : Instr → State
  | adrp rd imm => s.set rd (page s.pc + pageOffset imm)
  | addImm rd rn imm => s.set rd (s.x rn + UInt64.ofNat imm)
  | ldr rt rn imm =>
    let address := s.x rn + UInt64.ofNat imm
    { s.set rt (mem address) with loads := s.loads ++ [address] }
  | br rn => { s with pc := s.x rn }
  | nop => { s with pc := s.pc + 4 }

section

variable (code : UInt64 → Option ℕ) (mem : UInt64 → UInt64)

def step (s : State) : Option State := do
  let w ← code s.pc
  let instr ← decode w
  return instr.execute mem s

def run : ℕ → State → Option State
  | 0, s => some s
  | n + 1, s => step code mem s >>= run n

variable {code mem}

theorem step_eq {s : State} {w : ℕ} {instr : Instr} (hw : code s.pc = some w)
    (hdecode : decode w = some instr) : step code mem s = some (instr.execute mem s) := by
  simp [step, hw, hdecode]

theorem run_succ {n : ℕ} {s s' : State} (h : step code mem s = some s') :
    run code mem (n + 1) s = run code mem n s' := by
  rw [run, h]
  rfl

end

/-! ## Pages -/

theorem toNat_page (address : UInt64) : (page address).toNat = address.toNat / 4096 * 4096 := by
  have hmask : (~~~0xFFF : UInt64).toNat = (2 ^ 52 - 1) <<< 12 := by decide
  have hshift : address.toNat / 4096 * 4096 = (address.toNat / 2 ^ 12) <<< 12 := by
    rw [Nat.shiftLeft_eq]
    rfl
  rw [page, UInt64.toNat_and, hmask, hshift]
  refine Nat.eq_of_testBit_eq fun i => ?_
  rw [Nat.testBit_and, Nat.testBit_shiftLeft, Nat.testBit_shiftLeft, Nat.testBit_two_pow_sub_one,
    Nat.testBit_div_two_pow]
  rcases Nat.lt_or_ge i 12 with hlow | hlow
  · simp [Nat.not_le.2 hlow]
  · rcases Nat.lt_or_ge i 64 with hhigh | hhigh
    · have hlt : i - 12 < 52 := by omega
      simp [hlow, hlt]
    · have hzero : address.toNat.testBit i = false :=
        Nat.testBit_lt_two_pow (Nat.lt_of_lt_of_le address.toNat_lt
          (Nat.pow_le_pow_right (by decide) hhigh))
      simp [hlow, hzero]

theorem toNat_pageOffset {imm : ℕ} (h : imm < 2 ^ 21) : (pageOffset imm).toNat =
      if imm < 2 ^ 20 then imm * 4096 else imm * 4096 + (2 ^ 64 - 2 ^ 33) := by
  have hsize : (UInt64.ofNat (imm * 4096)).toNat = imm * 4096 :=
    UInt64.toNat_ofNat_of_lt' (show imm * 4096 < 2 ^ 64 by omega)
  have hconst : (0x200000000 : UInt64).toNat = 2 ^ 33 := by decide
  rw [pageOffset]
  split
  · exact hsize
  · rw [UInt64.toNat_sub, hsize, hconst]
    omega

/-- The distance of two pages, in pages and without its sign. -/
def pagesUpTo (p q : UInt64) : ℕ := (page q - page p).toNat / 4096

theorem toNat_page_sub (p q : UInt64) : (page q - page p).toNat = pagesUpTo p q * 4096 := by
  have hp := toNat_page p
  have hq := toNat_page q
  have hsub := UInt64.toNat_sub (page q) (page p)
  rw [pagesUpTo]
  omega

theorem page_add_pageOffset (p q : UInt64) : page p + pageOffset (pagesUpTo p q % 2 ^ 21) = page q ↔
      pagesUpTo p q < 2 ^ 20 ∨ 2 ^ 52 - 2 ^ 20 ≤ pagesUpTo p q := by
  have hoff := toNat_pageOffset (Nat.mod_lt (pagesUpTo p q) (y := 2 ^ 21) (by decide))
  have hdistance := toNat_page_sub p q
  have hlt := (page q - page p).toNat_lt
  have hiff : page p + pageOffset (pagesUpTo p q % 2 ^ 21) = page q ↔
      (pageOffset (pagesUpTo p q % 2 ^ 21)).toNat = (page q - page p).toNat := by
    rw [UInt64.toNat_inj]
    constructor
    · intro h
      rw [← h, UInt64.add_comm, UInt64.add_sub_cancel]
    · intro h
      rw [h, UInt64.add_comm, UInt64.sub_add_cancel]
  rw [hiff, hoff, hdistance]
  split
  · omega
  · omega

end Sld.Machine
