/-
# `Script.Expressions` — expressions of linker scripts, and what they evaluate to

The operators come in families here: a binary operator between two
expressions, a unary one before one, a function of the name of an output
section, and a field of a memory region.

Evaluation happens once the layout is complete, so that the sizes and
addresses of the output sections are known.  A symbol has no value yet: the
evaluator warns and takes 1 for it.  The placeholder is a parameter of
`evaluateWith`, since what depends on it is a question of its own.
-/
import Sld.Text.Outcome

namespace Sld.Script

open Text
open Outcome.Below (refl)

/-! ## Expressions -/

inductive BinaryOp where
  | add | subtract | multiply | divide
  | lessThan | greaterThan | lessEqual | greaterEqual | equal | notEqual
  | min | max
  | bitwiseAnd | bitwiseOr | bitwiseXor
  | leftShift | rightShift
  | logicalAnd | logicalOr

inductive UnaryOp where
  | logicalNot | bitwiseNot | negate

/-- `SIZEOF`, `ALIGNOF`, `ADDR` and `LOADADDR` -/
inductive SectionFunction where
  | sizeof | alignof | addr | loadaddr

/-- `ORIGIN` and `LENGTH` -/
inductive RegionField where
  | origin | length

inductive SegmentName where
  | text | rodata | data | bss | other

inductive Expression where
  | number (n : UInt64)
  | symbol (name : Bytes)
  | locationCounter
  | binary (op : BinaryOp) (l r : Expression)
  | unary (op : UnaryOp) (e : Expression)
  | ofSection (f : SectionFunction) (name : Bytes)
  | ofRegion (field : RegionField) (name : Bytes)
  | align (e : Expression)
  | segmentStart (name : SegmentName) (default : Expression)

structure MemoryRegion where
  name : Bytes
  origin : Expression
  length : Expression

/-- The expression of a field. -/
def MemoryRegion.field (region : MemoryRegion) : RegionField → Expression
  | .origin => region.origin
  | .length => region.length

/-! ## What the evaluator is given -/

/-- What the evaluator reads of an `OutputRecordLayout`. -/
structure SectionRecord where
  memSize : UInt64
  alignment : UInt64
  memOffset : UInt64

/-- The record of the output section of a name, if there is one
(`section_id_by_name`, then `section_layouts.get`). -/
abbrev Sections := Bytes → Option SectionRecord

/-- Why an expression has no value. -/
inductive EvalError where
  /-- `Division by zero in linker script expression` -/
  | divisionByZero
  /-- `ALIGN(0) is invalid` -/
  | alignZero
  /-- `ADDR: section '{}' not found` -/
  | sectionNotFound (name : Bytes)
  /-- `ORIGIN: memory region '{}' not found`, `LENGTH: memory region '{}' not found` -/
  | regionNotFound (field : RegionField) (name : Bytes)

/-! ## Operators -/

/-- `u64::from(b)` -/
def ofBool (b : Bool) : UInt64 := if b then 1 else 0

/-- The operators that evaluate both sides, the left one first. -/
def BinaryOp.apply (a b : UInt64) : BinaryOp → UInt64
  | .add => a + b
  | .subtract => a - b
  | .multiply => a * b
  | .divide => a / b
  | .lessThan => ofBool (a < b)
  | .greaterThan => ofBool (a > b)
  | .lessEqual => ofBool (a ≤ b)
  | .greaterEqual => ofBool (a ≥ b)
  | .equal => ofBool (a = b)
  | .notEqual => ofBool (a ≠ b)
  | .min => Min.min a b
  | .max => Max.max a b
  | .bitwiseAnd => a &&& b
  | .bitwiseOr => a ||| b
  | .bitwiseXor => a ^^^ b
  -- `wrapping_shl(b as u32)`: the shift counts modulo 64
  | .leftShift => a <<< b.toUInt32.toUInt64
  | .rightShift => a >>> b.toUInt32.toUInt64
  | .logicalAnd => ofBool (a ≠ 0 ∧ b ≠ 0)
  | .logicalOr => ofBool (a ≠ 0 ∨ b ≠ 0)

def UnaryOp.apply (a : UInt64) : UnaryOp → UInt64
  | .logicalNot => ofBool (a = 0)
  | .bitwiseNot => ~~~a
  | .negate => -a

/-- `section_size`, `section_align` and `section_address` -/
def SectionFunction.apply (sections : Sections) (name : Bytes) :
    SectionFunction → Outcome EvalError UInt64
  | .sizeof => .done ((sections name).elim 0 (·.memSize))
  | .alignof => .done ((sections name).elim 0 (·.alignment))
  | .addr | .loadaddr =>
    (sections name).elim (.failed (.sectionNotFound name)) fun record => .done record.memOffset

/-! ## Evaluation -/

/-- `evaluate_expression`, given the value of a symbol (`Ok(1)`, with a
warning) and what the fields of the memory regions evaluate to. -/
def evaluateWith (sections : Sections) (placeholder : Bytes → UInt64)
    (regions : RegionField → Bytes → Outcome EvalError UInt64) :
    Expression → Outcome EvalError UInt64
  | .number n => .done n
  | .locationCounter => .done 0
  | .symbol name => .done (placeholder name)
  | .binary .divide l r =>
    -- the divisor comes first
    (evaluateWith sections placeholder regions r).bind fun divisor =>
      if divisor = 0 then .failed .divisionByZero
      else (evaluateWith sections placeholder regions l).bind fun a => .done (a / divisor)
  | .binary .logicalAnd l r =>
    (evaluateWith sections placeholder regions l).bind fun a =>
      if a = 0 then .done 0
      else (evaluateWith sections placeholder regions r).bind fun b => .done (ofBool (b ≠ 0))
  | .binary .logicalOr l r =>
    (evaluateWith sections placeholder regions l).bind fun a =>
      if a ≠ 0 then .done 1
      else (evaluateWith sections placeholder regions r).bind fun b => .done (ofBool (b ≠ 0))
  | .binary op l r =>
    (evaluateWith sections placeholder regions l).bind fun a =>
      (evaluateWith sections placeholder regions r).bind fun b => .done (op.apply a b)
  | .unary op e => (evaluateWith sections placeholder regions e).bind fun a => .done (op.apply a)
  | .ofSection f name => f.apply sections name
  | .ofRegion field name => regions field name
  | .align e =>
    (evaluateWith sections placeholder regions e).bind fun align =>
      if align = 0 then .failed .alignZero
      -- the location counter is not known here: 0 is aligned
      else .done ((0 + (align - 1)) &&& ~~~(align - 1))
  | .segmentStart _ default => evaluateWith sections placeholder regions default

/-- The expression of a field of the first region of the name. -/
def fieldExpression (memoryRegions : List MemoryRegion) (field : RegionField) (name : Bytes) :
    Option Expression :=
  (memoryRegions.find? (·.name = name)).map (·.field field)

/-- What the field of a region evaluates to. -/
def evaluateField (memoryRegions : List MemoryRegion)
    (evaluate : Expression → Outcome EvalError UInt64) (field : RegionField) (name : Bytes) :
    Outcome EvalError UInt64 :=
  (fieldExpression memoryRegions field name).elim (.failed (.regionNotFound field name)) evaluate

/-- `evaluate_expression`, for values of the symbols; the fuel is the number
of jumps to the expressions of regions that may be under way at once. -/
def evaluate (sections : Sections) (memoryRegions : List MemoryRegion)
    (placeholder : Bytes → UInt64) : ℕ → Expression → Outcome EvalError UInt64
  | 0, _ => .unfinished
  | fuel + 1, e =>
    evaluateWith sections placeholder
      (evaluateField memoryRegions (evaluate sections memoryRegions placeholder fuel)) e

/-- `evaluate_expression`: every symbol is 1. -/
def evaluateExpression (sections : Sections) (memoryRegions : List MemoryRegion) :
    ℕ → Expression → Outcome EvalError UInt64 :=
  evaluate sections memoryRegions fun _ => 1

/-! ### A binary operator, by what it evaluates first

Every operator evaluates one side, may have its value from that, and
otherwise evaluates the other side. -/

/-- The side that is evaluated first. -/
def BinaryOp.first (l r : Expression) : BinaryOp → Expression
  | .divide => r
  | _ => l

/-- The side that is evaluated second, if at all. -/
def BinaryOp.second (l r : Expression) : BinaryOp → Expression
  | .divide => l
  | _ => r

/-- What the operator comes to without its second side. -/
def BinaryOp.early (a : UInt64) : BinaryOp → Option (Outcome EvalError UInt64)
  | .divide => if a = 0 then some (.failed .divisionByZero) else none
  | .logicalAnd => if a = 0 then some (.done 0) else none
  | .logicalOr => if a ≠ 0 then some (.done 1) else none
  | _ => none

/-- The value from the sides, in the order of their evaluation. -/
def BinaryOp.result (a b : UInt64) : BinaryOp → UInt64
  | .divide => b / a
  | .logicalAnd | .logicalOr => ofBool (b ≠ 0)
  | op => op.apply a b

variable {sections : Sections} {placeholder : Bytes → UInt64}
  {regions : RegionField → Bytes → Outcome EvalError UInt64} {memoryRegions : List MemoryRegion}

theorem evaluateWith_binary (op : BinaryOp) (l r : Expression) :
    evaluateWith sections placeholder regions (.binary op l r) =
      (evaluateWith sections placeholder regions (op.first l r)).bind fun a =>
        (op.early a).elim ((evaluateWith sections placeholder regions (op.second l r)).bind fun b =>
            .done (op.result a b)) id := by
  have hite : ∀ (p : Prop) [Decidable p] (o : Outcome EvalError UInt64)
      (x : Outcome EvalError UInt64),
      (if p then some o else none : Option (Outcome EvalError UInt64)).elim x id =
        if p then o else x := by
    intro p _ o x
    split <;> rfl
  cases op with
  | divide | logicalAnd | logicalOr =>
    simp only [evaluateWith, BinaryOp.first, BinaryOp.second, BinaryOp.early,
      BinaryOp.result, hite]
  | _ => rfl

theorem evaluateWith_below {regions' : RegionField → Bytes → Outcome EvalError UInt64}
    (h : ∀ field name, (regions field name).Below (regions' field name)) (e : Expression) :
    (evaluateWith sections placeholder regions e).Below
      (evaluateWith sections placeholder regions' e) := by
  induction e with
  | number n | symbol name | locationCounter | ofSection f name => exact refl _
  | ofRegion field name => exact h field name
  | unary op e ih => exact ih.bind fun _ => refl _
  | align e ih => exact ih.bind fun _ => refl _
  | segmentStart name default ih => exact ih
  | binary op l r ihl ihr =>
    have hfirst : ∀ x : Expression, x = l ∨ x = r →
        (evaluateWith sections placeholder regions x).Below
          (evaluateWith sections placeholder regions' x) := by
      rintro x (rfl | rfl)
      · exact ihl
      · exact ihr
    rw [evaluateWith_binary, evaluateWith_binary]
    refine (hfirst _ (by cases op <;> simp [BinaryOp.first])).bind fun a => ?_
    cases op.early a with
    | some o => exact refl _
    | none =>
      exact (hfirst _ (by cases op <;> simp [BinaryOp.second])).bind
        fun _ => refl _

theorem evaluate_below {fuel fuel' : ℕ} (hle : fuel ≤ fuel') (e : Expression) :
    (evaluate sections memoryRegions placeholder fuel e).Below
      (evaluate sections memoryRegions placeholder fuel' e) := by
  induction fuel generalizing fuel' e with
  | zero => exact .inl rfl
  | succ fuel ih =>
    obtain ⟨m, rfl⟩ : ∃ m, fuel' = m + 1 := ⟨fuel' - 1, by omega⟩
    refine evaluateWith_below (fun field name => ?_) e
    rw [evaluateField, evaluateField]
    cases fieldExpression memoryRegions field name with
    | none => exact refl _
    | some body => exact ih (by omega) body

/-! ### Fuel for the fields of regions -/

/-- A field of the memory region of a name. -/
abbrev Field := RegionField × Bytes

/-- The value of a field, on fuel. -/
def fieldValue (sections : Sections) (memoryRegions : List MemoryRegion)
    (placeholder : Bytes → UInt64) (fuel : ℕ) (f : Field) : Outcome EvalError UInt64 :=
  evaluateField memoryRegions (evaluate sections memoryRegions placeholder fuel) f.1 f.2

theorem evaluate_succ (fuel : ℕ) (e : Expression) :
    evaluate sections memoryRegions placeholder (fuel + 1) e = evaluateWith sections placeholder
        (fun field name => fieldValue sections memoryRegions placeholder fuel (field, name)) e :=
  rfl

theorem fieldValue_of_body {f : Field} {body : Expression}
    (h : fieldExpression memoryRegions f.1 f.2 = some body) (fuel : ℕ) :
    fieldValue sections memoryRegions placeholder fuel f =
      evaluate sections memoryRegions placeholder fuel body := by
  rw [fieldValue, evaluateField, h]
  rfl

variable {e : Expression}

theorem evaluate_eq_of_done {fuel : ℕ} {a : UInt64}
    (h : evaluate sections memoryRegions placeholder fuel e = .done a) (fuel' : ℕ) :
    evaluate sections memoryRegions placeholder fuel' e = .unfinished ∨
      evaluate sections memoryRegions placeholder fuel' e = .done a := by
  rcases Nat.le_total fuel fuel' with hle | hle
  · right
    rw [← h]
    exact (evaluate_below hle e).eq (by rw [h]; simp)
  · have hbelow : (evaluate sections memoryRegions placeholder fuel' e).Below
        (evaluate sections memoryRegions placeholder fuel e) := evaluate_below hle e
    rcases hbelow with hu | he
    · exact .inl hu
    · exact .inr (he.trans h)

theorem evaluate_ne_unfinished_mono {fuel fuel' : ℕ} (hle : fuel ≤ fuel')
    (h : evaluate sections memoryRegions placeholder fuel e ≠ .unfinished) :
    evaluate sections memoryRegions placeholder fuel' e ≠ .unfinished := by
  rw [(evaluate_below hle e).eq h]
  exact h

/-! ## Assertions -/

structure AssertCommand where
  expression : Expression
  message : Bytes

/-- A linker script as far as its assertions go. -/
structure AssertingScript where
  assertions : List AssertCommand
  memoryRegions : List MemoryRegion

/-- What is reported about an assertion: that evaluating it failed, or the
message of the assertion. -/
inductive AssertionReport where
  | failedToEvaluate (script : AssertingScript) (assertion : AssertCommand) (e : EvalError)
  | failed (script : AssertingScript) (assertion : AssertCommand)

/-- The body of the loop of `evaluate_assertions`. -/
def evaluateAssertion (sections : Sections) (fuel : ℕ) (script : AssertingScript)
    (assertion : AssertCommand) : Outcome AssertionReport Unit :=
  match evaluateExpression sections script.memoryRegions fuel assertion.expression with
  | .unfinished => .unfinished
  | .failed e => .failed (.failedToEvaluate script assertion e)
  | .done result => if result = 0 then .failed (.failed script assertion) else .done ()

/-- One thing after the other, up to the first that fails. -/
def each {ε α : Type} (f : α → Outcome ε Unit) : List α → Outcome ε Unit
  | [] => .done ()
  | a :: as => (f a).bind fun _ => each f as

/-- `evaluate_assertions`, on the scripts of all groups in order. -/
def evaluateAssertions (sections : Sections) (fuel : ℕ) (scripts : List AssertingScript) :
    Outcome AssertionReport Unit :=
  each (fun script => each (evaluateAssertion sections fuel script) script.assertions) scripts

end Sld.Script
