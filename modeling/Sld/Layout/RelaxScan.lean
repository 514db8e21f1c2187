/-
# `Layout.RelaxScan` — what one scan of a RISC-V section deletes

A scan walks the relocations of a section once.  A call or a `lui` is
shortened when the relocation right after it allows relaxation at the same
offset; an alignment is padded from the address where its padding starts,
after everything that is deleted before it.  An alignment that has a deletion
is not looked at again.
-/
import Mathlib.Data.Nat.Log
import Sld.Layout.Alignment
import Sld.Layout.RelaxDeltas

namespace Sld.Layout

/-! ## Machine integers -/

/-- `as u64` -/
def asU64 (value : ℤ) : ℕ := (value % 2 ^ 64).toNat

/-- `as i64` -/
def asI64 (value : ℕ) : ℤ := (value : ℤ).bmod (2 ^ 64)

/-- `as i8` -/
def asI8 (value : ℤ) : ℤ := value.bmod (2 ^ 8)

/-- The left shift of an `i8`, then the arithmetic right shift: the sign
extension of its low six bits. -/
def signExtend6 (value : ℤ) : ℤ := asI8 (value * 4) / 4

def nextPowerOfTwo (value : ℕ) : ℕ := 2 ^ Nat.clog 2 value

/-! ## Relocations -/

inductive RelocType where
  | align | call | callPlt | hi20 | relax | other
deriving DecidableEq

structure Relocation where
  rawType : RelocType
  offset : ℕ
  symbol : Option ℕ
  addend : ℤ
deriving DecidableEq

structure RelaxSymbolInfo where
  outputAddress : ℕ
  isInterposable : Bool
deriving DecidableEq

/-- `JAL_RANGE.contains` -/
def distanceFitsJal (distance : ℤ) : Bool :=
  decide (-0x100000 ≤ distance) && decide (distance ≤ 0xfffff)

/-- `value.wrapping_add(0x800) >> 12` -/
def hi20 (value : ℕ) : ℕ := (value + 0x800) % 2 ^ 64 / 2 ^ 12

def hi20IsZero (value : ℕ) : Bool := hi20 value % 2 ^ 20 == 0

def hi20FitsClui (value : ℕ) : Bool :=
  let hi20Signed := asI64 (hi20 value)
  signExtend6 (asI8 hi20Signed) == hi20Signed && hi20Signed != 0

def rdValidForClui (rd : ℕ) : Bool := rd != 0 && rd != 2

/-! ## The scan -/

/-- The arguments of `collect_relaxation_deltas` that stay the same
throughout the scan. -/
structure ScanInput where
  sectionOutputAddress : ℕ
  sectionBytes : List UInt8
  existingDeltas : Option SectionRelaxDeltas
  resolveSymbol : ℕ → Option RelaxSymbolInfo

structure Scan where
  rawDeltas : List (ℕ × ℕ) := []
  minUnrelaxedMargin : Option ℕ := none
  prevCall : Option (ℕ × ℕ) := none
  prevHi20 : Option (ℕ × ℕ × ℤ) := none
  newCumulativeDelta : ℕ := 0

/-- What a candidate comes to: a deletion, or how far it is from one. -/
structure Candidate where
  delta : Option (ℕ × ℕ) := none
  margin : Option ℕ := none
deriving DecidableEq

namespace ScanInput

variable (input : ScanInput)

def hasDeltaAt (offset : ℕ) : Bool :=
  input.existingDeltas.any fun deltas => deltas.hasDeltaAt offset

/-- Cumulative bytes deleted strictly before this input offset. -/
def existingCumulative (inputOffset : ℕ) : ℕ :=
  match input.existingDeltas with
  | some deltas => deltas.cumulativeAt inputOffset
  | none => 0

def callDistance (callOffset outputAddress : ℕ) : ℤ :=
  (asI64 outputAddress - asI64 (input.sectionOutputAddress + callOffset)).bmod (2 ^ 64)

/-- `R_RISCV_RELAX` after a call: deletes the `jalr`. -/
def relaxCall (callOffset symIdx : ℕ) : Candidate :=
  match input.resolveSymbol symIdx with
  | some ⟨outputAddress, false⟩ =>
    if distanceFitsJal (input.callDistance callOffset outputAddress) then
      { delta := some (callOffset + 4, 4) }
    else { margin := some ((input.callDistance callOffset outputAddress).natAbs - 0xfffff) }
  | _ => {}

def luiWord (offset : ℕ) : ℕ :=
  ((input.sectionBytes.drop offset).take 4).foldr (fun byte word => byte.toNat + 256 * word) 0

/-- How far the upper immediate is from the range of `c.lui`. -/
def cluiMargin (value : ℕ) : ℕ :=
  let hi20Signed := asI64 (hi20 value)
  if hi20Signed > 31 then (hi20Signed - 31).toNat * 0x1000
  else if hi20Signed < -32 then 2 ^ 64 - 1
  else 0x1000

def luiRd (offset : ℕ) : ℕ := input.luiWord offset / 2 ^ 7 % 2 ^ 5

def hi20Value (outputAddress : ℕ) (addend : ℤ) : ℕ := asU64 (asI64 outputAddress + addend)

/-- `R_RISCV_RELAX` after a `lui`: deletes it, or shortens it to `c.lui`. -/
def relaxHi20 (hi20Offset symIdx : ℕ) (addend : ℤ) : Candidate :=
  match input.resolveSymbol symIdx with
  | some ⟨outputAddress, false⟩ =>
    if hi20Offset + 4 ≤ input.sectionBytes.length then
      if hi20IsZero (hi20Value outputAddress addend) then { delta := some (hi20Offset, 4) }
      else if rdValidForClui (input.luiRd hi20Offset) then
        if hi20FitsClui (hi20Value outputAddress addend) then
          { delta := some (hi20Offset + 2, 2) }
        else { margin := some (cluiMargin (hi20Value outputAddress addend)) }
      else {}
    else {}
  | _ => {}

/-- The candidate that the relocation before an `R_RISCV_RELAX` left. -/
def relaxPrevious (prevCall : Option (ℕ × ℕ)) (prevHi20 : Option (ℕ × ℕ × ℤ)) (offset : ℕ) :
    Candidate :=
  let relaxHi20 : Candidate :=
    match prevHi20 with
    | some (hi20Offset, symIdx, addend) =>
      if offset = hi20Offset ∧ !input.hasDeltaAt hi20Offset ∧
          !input.hasDeltaAt (hi20Offset + 2) then
        input.relaxHi20 hi20Offset symIdx addend
      else {}
    | none => {}
  match prevCall with
  | some (callOffset, symIdx) =>
    if offset = callOffset ∧ !input.hasDeltaAt (callOffset + 4) then
      input.relaxCall callOffset symIdx
    else relaxHi20
  | none => relaxHi20

/-- The surplus of the padding at an `R_RISCV_ALIGN` that starts at `p`. -/
def surplus (p addend : ℕ) : ℕ :=
  let alignment := nextPowerOfTwo addend
  let desired := nextMultipleOf p alignment
  let actual := p + addend
  (actual - desired) % 2 ^ 32

/-- `actual > desired` -/
def hasSurplus (p addend : ℕ) : Bool :=
  decide (nextMultipleOf p (nextPowerOfTwo addend) < p + addend)

/-- The address where the padding at an `R_RISCV_ALIGN` starts. -/
def paddingStart (newCumulativeDelta inputOffset : ℕ) : ℕ :=
  input.sectionOutputAddress +
    (inputOffset - input.existingCumulative inputOffset - newCumulativeDelta)

/-- What an `R_RISCV_ALIGN` deletes. -/
def align (newCumulativeDelta : ℕ) (rel : Relocation) : Option (ℕ × ℕ) :=
  let addend := asU64 rel.addend
  if addend = 0 ∨ input.hasDeltaAt rel.offset then none
  else
    let p := input.paddingStart newCumulativeDelta rel.offset
    if hasSurplus p addend then some (rel.offset, surplus p addend) else none

/-- `raw_deltas.push` and the bookkeeping that goes with it. -/
def push (scan : Scan) (delta : Option (ℕ × ℕ)) : Scan :=
  match delta with
  | some (offset, bytes) =>
    { scan with
      rawDeltas := scan.rawDeltas ++ [(offset, bytes)]
      newCumulativeDelta := scan.newCumulativeDelta + bytes }
  | none => scan

def lowerMargin (scan : Scan) (margin : Option ℕ) : Scan :=
  match margin with
  | some margin =>
    { scan with
      minUnrelaxedMargin := some ((scan.minUnrelaxedMargin.map (min · margin)).getD margin) }
  | none => scan

def Scan.forget (scan : Scan) : Scan := { scan with prevCall := none, prevHi20 := none }

/-- One turn of the loop. -/
def scanRelocation (scan : Scan) (rel : Relocation) : Scan :=
  match rel.rawType with
  | .align => Scan.forget (push scan (input.align scan.newCumulativeDelta rel))
  | .call | .callPlt =>
    { scan with prevCall := rel.symbol.map fun symIdx => (rel.offset, symIdx), prevHi20 := none }
  | .hi20 =>
    { scan with
      prevHi20 := rel.symbol.map fun symIdx => (rel.offset, symIdx, rel.addend)
      prevCall := none }
  | .relax =>
    let candidate := input.relaxPrevious scan.prevCall scan.prevHi20 rel.offset
    Scan.forget (lowerMargin (push scan candidate.delta) candidate.margin)
  | .other => Scan.forget scan

def scanRelocations (relocations : List Relocation) : Scan :=
  relocations.foldl input.scanRelocation {}

def collectRelaxationDeltas (relocations : List Relocation) : List (ℕ × ℕ) × Option ℕ :=
  let scan := input.scanRelocations relocations
  (scan.rawDeltas, scan.minUnrelaxedMargin)

end ScanInput

end Sld.Layout
