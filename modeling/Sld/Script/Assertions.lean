/-
# `Script.Assertions` — assertions about symbols that have no value yet

The evaluator takes 1 for a symbol and means the assertion to be skipped by
that.  It is, if the symbol is all there is; in a larger expression the 1
goes on to be compared, subtracted or divided by.

    Means      the meaning of an expression for given values of the symbols,
               as rules; `means_iff` says that the evaluator computes it
    Blames     a report about an assertion that mentions a symbol, which
               other values of the symbols might have avoided
    skips_iff  when no such report is made: the assertions up to the first
               that fails have to be true of symbols that are all 1
-/
import Sld.Script.Expressions

namespace Sld.Script

open Text

variable {sections : Sections} {memoryRegions : List MemoryRegion}
  {placeholder : Bytes → UInt64}

/-! ## The meaning of expressions -/

/-- A value or an error as the outcome of a run that ended. -/
def ended : Except EvalError UInt64 → Outcome EvalError UInt64
  | .ok a => .done a
  | .error e => .failed e

/-- What an expression means, for values of the symbols. -/
inductive Means (sections : Sections) (memoryRegions : List MemoryRegion)
    (values : Bytes → UInt64) : Expression → Except EvalError UInt64 → Prop
  | number {n : UInt64} : Means sections memoryRegions values (.number n) (.ok n)
  | symbol {name : Bytes} : Means sections memoryRegions values (.symbol name) (.ok (values name))
  | locationCounter : Means sections memoryRegions values .locationCounter (.ok 0)
  | ofSection {f : SectionFunction} {name : Bytes} {r : Except EvalError UInt64}
      (apply : f.apply sections name = ended r) :
      Means sections memoryRegions values (.ofSection f name) r
  | ofRegion {field : RegionField} {name : Bytes} {body : Expression}
      {r : Except EvalError UInt64}
      (found : fieldExpression memoryRegions field name = some body)
      (value : Means sections memoryRegions values body r) :
      Means sections memoryRegions values (.ofRegion field name) r
  | noRegion {field : RegionField} {name : Bytes}
      (missing : fieldExpression memoryRegions field name = none) :
      Means sections memoryRegions values (.ofRegion field name)
        (.error (.regionNotFound field name))
  | unary {op : UnaryOp} {e : Expression} {a : UInt64}
      (operand : Means sections memoryRegions values e (.ok a)) :
      Means sections memoryRegions values (.unary op e) (.ok (op.apply a))
  | unaryError {op : UnaryOp} {e : Expression} {error : EvalError}
      (operand : Means sections memoryRegions values e (.error error)) :
      Means sections memoryRegions values (.unary op e) (.error error)
  | align {e : Expression} {a : UInt64} (nonzero : a ≠ 0)
      (operand : Means sections memoryRegions values e (.ok a)) :
      Means sections memoryRegions values (.align e) (.ok ((0 + (a - 1)) &&& ~~~(a - 1)))
  | alignZero {e : Expression} (operand : Means sections memoryRegions values e (.ok 0)) :
      Means sections memoryRegions values (.align e) (.error .alignZero)
  | alignError {e : Expression} {error : EvalError}
      (operand : Means sections memoryRegions values e (.error error)) :
      Means sections memoryRegions values (.align e) (.error error)
  | segmentStart {name : SegmentName} {e : Expression} {r : Except EvalError UInt64}
      (default : Means sections memoryRegions values e r) :
      Means sections memoryRegions values (.segmentStart name e) r
  | firstError {op : BinaryOp} {l r : Expression} {error : EvalError}
      (first : Means sections memoryRegions values (op.first l r) (.error error)) :
      Means sections memoryRegions values (.binary op l r) (.error error)
  | early {op : BinaryOp} {l r : Expression} {a : UInt64} {result : Except EvalError UInt64}
      (first : Means sections memoryRegions values (op.first l r) (.ok a))
      (early : op.early a = some (ended result)) :
      Means sections memoryRegions values (.binary op l r) result
  | secondError {op : BinaryOp} {l r : Expression} {a : UInt64} {error : EvalError}
      (first : Means sections memoryRegions values (op.first l r) (.ok a))
      (goesOn : op.early a = none)
      (second : Means sections memoryRegions values (op.second l r) (.error error)) :
      Means sections memoryRegions values (.binary op l r) (.error error)
  | both {op : BinaryOp} {l r : Expression} {a b : UInt64}
      (first : Means sections memoryRegions values (op.first l r) (.ok a))
      (goesOn : op.early a = none)
      (second : Means sections memoryRegions values (op.second l r) (.ok b)) :
      Means sections memoryRegions values (.binary op l r) (.ok (op.result a b))

theorem ended_ne_unfinished (r : Except EvalError UInt64) : ended r ≠ .unfinished := by
  cases r <;> simp [ended]

variable {r : Except EvalError UInt64}

theorem ended_inj {r' : Except EvalError UInt64} (h : ended r = ended r') : r = r' := by
  cases r <;> cases r' <;> cases h <;> rfl

theorem bind_eq_ended {o : Outcome EvalError UInt64} {k : UInt64 → Outcome EvalError UInt64}
    (h : o.bind k = ended r) :
    (∃ e, o = ended (.error e) ∧ r = .error e) ∨ ∃ a, o = ended (.ok a) ∧ k a = ended r := by
  cases o with
  | unfinished => exact absurd h.symm (ended_ne_unfinished r)
  | failed e =>
    have hr : ended r = ended (.error e) := h.symm
    exact .inl ⟨e, rfl, ended_inj hr⟩
  | done a => exact .inr ⟨a, rfl, h⟩

variable {e : Expression}

theorem means_of_evaluateWith {regions : RegionField → Bytes → Outcome EvalError UInt64}
    (hregions : ∀ field name r, regions field name = ended r →
      Means sections memoryRegions placeholder (.ofRegion field name) r)
    (h : evaluateWith sections placeholder regions e = ended r) :
    Means sections memoryRegions placeholder e r := by
  induction e generalizing r with
  | number n =>
    obtain rfl := ended_inj (r := .ok n) h
    exact .number
  | symbol name =>
    obtain rfl := ended_inj (r := .ok (placeholder name)) h
    exact .symbol
  | locationCounter =>
    obtain rfl := ended_inj (r := .ok 0) h
    exact .locationCounter
  | ofSection f name => exact .ofSection h
  | ofRegion field name => exact hregions field name r h
  | segmentStart name e ih => exact .segmentStart (ih h)
  | unary op e ih =>
    rcases bind_eq_ended h with ⟨error, he, rfl⟩ | ⟨a, ha, hr⟩
    · exact .unaryError (ih he)
    · obtain rfl := ended_inj (r := .ok (op.apply a)) hr
      exact .unary (ih ha)
  | align e ih =>
    rcases bind_eq_ended h with ⟨error, he, rfl⟩ | ⟨a, ha, hr⟩
    · exact .alignError (ih he)
    · by_cases hzero : a = 0
      · rw [if_pos hzero] at hr
        obtain rfl := ended_inj (r := .error .alignZero) hr
        exact .alignZero (ih (hzero ▸ ha))
      · rw [if_neg hzero] at hr
        obtain rfl := ended_inj (r := .ok ((0 + (a - 1)) &&& ~~~(a - 1))) hr
        exact .align hzero (ih ha)
  | binary op l r' ihl ihr =>
    have hside : ∀ x : Expression, x = l ∨ x = r' → ∀ {r : Except EvalError UInt64},
        evaluateWith sections placeholder regions x = ended r →
        Means sections memoryRegions placeholder x r := by
      rintro x (rfl | rfl) r hr
      · exact ihl hr
      · exact ihr hr
    have hfirst := @hside (op.first l r') (by cases op <;> simp [BinaryOp.first])
    have hsecond := @hside (op.second l r') (by cases op <;> simp [BinaryOp.second])
    rw [evaluateWith_binary] at h
    rcases bind_eq_ended h with ⟨error, he, rfl⟩ | ⟨a, ha, hr⟩
    · exact .firstError (hfirst he)
    · cases hearly : op.early a with
      | some o =>
        rw [hearly] at hr
        refine .early (hfirst ha) ?_
        rw [hearly]
        exact congrArg some hr
      | none =>
        rw [hearly] at hr
        rcases bind_eq_ended hr with ⟨error, he, rfl⟩ | ⟨b, hb, hr⟩
        · exact .secondError (hfirst ha) hearly (hsecond he)
        · obtain rfl := ended_inj (r := .ok (op.result a b)) hr
          exact .both (hfirst ha) hearly (hsecond hb)

variable {fuel : ℕ}

theorem means_of_evaluate (h : evaluate sections memoryRegions placeholder fuel e = ended r) :
    Means sections memoryRegions placeholder e r := by
  induction fuel generalizing e r with
  | zero => exact absurd h.symm (ended_ne_unfinished r)
  | succ fuel ih =>
    refine means_of_evaluateWith (fun field name r hr => ?_) h
    rw [evaluateField] at hr
    cases hbody : fieldExpression memoryRegions field name with
    | none =>
      rw [hbody] at hr
      obtain rfl := ended_inj (r := .error (.regionNotFound field name)) hr
      exact .noRegion hbody
    | some body =>
      rw [hbody] at hr
      exact .ofRegion hbody (ih hr)

theorem evaluate_eq_ended_mono {fuel' : ℕ} (hle : fuel ≤ fuel')
    (h : evaluate sections memoryRegions placeholder fuel e = ended r) :
    evaluate sections memoryRegions placeholder fuel' e = ended r := by
  rw [← h]
  exact (evaluate_below hle e).eq (by rw [h]; exact ended_ne_unfinished r)

theorem exists_common_fuel {e' : Expression} {r' : Except EvalError UInt64}
    (h : ∃ fuel, evaluate sections memoryRegions placeholder (fuel + 1) e = ended r)
    (h' : ∃ fuel, evaluate sections memoryRegions placeholder (fuel + 1) e' = ended r') :
    ∃ fuel, evaluate sections memoryRegions placeholder (fuel + 1) e = ended r ∧
      evaluate sections memoryRegions placeholder (fuel + 1) e' = ended r' := by
  obtain ⟨fuel, hfuel⟩ := h
  obtain ⟨fuel', hfuel'⟩ := h'
  refine ⟨max fuel fuel', ?_, ?_⟩
  · exact evaluate_eq_ended_mono (Nat.succ_le_succ (Nat.le_max_left _ _)) hfuel
  · exact evaluate_eq_ended_mono (Nat.succ_le_succ (Nat.le_max_right _ _)) hfuel'

theorem Means.evaluate (h : Means sections memoryRegions placeholder e r) :
    ∃ fuel, Script.evaluate sections memoryRegions placeholder (fuel + 1) e = ended r := by
  induction h with
  | number => exact ⟨0, rfl⟩
  | symbol => exact ⟨0, rfl⟩
  | locationCounter => exact ⟨0, rfl⟩
  | ofSection apply => exact ⟨0, apply⟩
  | ofRegion found _ ih =>
    obtain ⟨fuel, hfuel⟩ := ih
    refine ⟨fuel + 1, ?_⟩
    rw [evaluate_succ, evaluateWith, fieldValue_of_body found]
    exact hfuel
  | noRegion missing =>
    refine ⟨0, ?_⟩
    rw [evaluate_succ, evaluateWith, fieldValue, evaluateField, missing]
    rfl
  | unary _ ih | unaryError _ ih | alignZero _ ih | alignError _ ih =>
    obtain ⟨fuel, hfuel⟩ := ih
    rw [evaluate_succ] at hfuel
    exact ⟨fuel, by rw [evaluate_succ, evaluateWith, hfuel]; rfl⟩
  | align nonzero _ ih =>
    obtain ⟨fuel, hfuel⟩ := ih
    rw [evaluate_succ] at hfuel
    refine ⟨fuel, ?_⟩
    rw [evaluate_succ, evaluateWith, hfuel]
    exact if_neg nonzero
  | segmentStart _ ih => exact ih
  | firstError _ ih =>
    obtain ⟨fuel, hfuel⟩ := ih
    rw [evaluate_succ] at hfuel
    exact ⟨fuel, by rw [evaluate_succ, evaluateWith_binary, hfuel]; rfl⟩
  | early _ early ih =>
    obtain ⟨fuel, hfuel⟩ := ih
    rw [evaluate_succ] at hfuel
    refine ⟨fuel, ?_⟩
    rw [evaluate_succ, evaluateWith_binary, hfuel]
    show (BinaryOp.early _ _).elim _ _ = _
    rw [early]
    rfl
  | secondError _ goesOn _ ihfirst ihsecond | both _ goesOn _ ihfirst ihsecond =>
    obtain ⟨fuel, hfirst, hsecond⟩ := exists_common_fuel ihfirst ihsecond
    refine ⟨fuel, ?_⟩
    rw [evaluate_succ] at hfirst hsecond
    rw [evaluate_succ, evaluateWith_binary, hfirst]
    show (BinaryOp.early _ _).elim _ _ = _
    rw [goesOn, hsecond]
    rfl

theorem means_iff : Means sections memoryRegions placeholder e r ↔
      ∃ fuel, evaluate sections memoryRegions placeholder fuel e = ended r := by
  constructor
  · intro h
    obtain ⟨fuel, hfuel⟩ := h.evaluate
    exact ⟨fuel + 1, hfuel⟩
  · rintro ⟨fuel, h⟩
    exact means_of_evaluate h

/-! ## Assertions about symbols -/

/-- A symbol occurs in the expression itself; the fields of memory regions are
expressions of their own. -/
def Expression.mentionsSymbol : Expression → Bool
  | .symbol _ => true
  | .binary _ l r => l.mentionsSymbol || r.mentionsSymbol
  | .unary _ e | .align e | .segmentStart _ e => e.mentionsSymbol
  | .number _ | .locationCounter | .ofSection _ _ | .ofRegion _ _ => false

/-- An error that some values of the symbols avoid. -/
def CausedByPlaceholder (sections : Sections) (memoryRegions : List MemoryRegion)
    (e : Expression) (error : EvalError) : Prop :=
  (error = .divisionByZero ∨ error = .alignZero) ∧
    ∃ values, ¬ Means sections memoryRegions values e (.error error)

/-- The report is about an assertion that mentions a symbol: that it does
not hold, or that it divides by zero or aligns to zero because of the
placeholder. -/
def Blames (sections : Sections) : AssertionReport → Prop
  | .failed _ assertion => assertion.expression.mentionsSymbol
  | .failedToEvaluate script assertion error =>
    assertion.expression.mentionsSymbol ∧
      CausedByPlaceholder sections script.memoryRegions assertion.expression error

/-- Assertions that mention symbols are skipped: no run makes such a report. -/
def SkipsSymbols (sections : Sections) (scripts : List AssertingScript) : Prop :=
  ∀ fuel report, evaluateAssertions sections fuel scripts = .failed report →
    ¬ Blames sections report

/-- The assertions of all scripts, in order. -/
def allAssertions (scripts : List AssertingScript) : List (AssertingScript × AssertCommand) :=
  scripts.flatMap fun script => script.assertions.map (script, ·)

/-- An assertion holds of symbols that are all 1. -/
def HoldsOfOnes (sections : Sections) (x : AssertingScript × AssertCommand) : Prop :=
  ∃ a, a ≠ 0 ∧ Means sections x.1.memoryRegions (fun _ => 1) x.2.expression (.ok a)

/-- An assertion fails of symbols that are all 1: it is 0, or comes to an
error of the operators that other symbols avoid. -/
def FailsOfOnes (sections : Sections) (x : AssertingScript × AssertCommand) : Prop :=
  Means sections x.1.memoryRegions (fun _ => 1) x.2.expression (.ok 0) ∨
    ∃ error, Means sections x.1.memoryRegions (fun _ => 1) x.2.expression (.error error) ∧
      CausedByPlaceholder sections x.1.memoryRegions x.2.expression error

/-! ### Runs over a list -/

section Each

variable {ε α : Type} {f : α → Outcome ε Unit}

theorem each_append (as bs : List α) : each f (as ++ bs) = (each f as).bind fun _ => each f bs := by
  induction as with
  | nil => rfl
  | cons a as ih =>
    show (f a).bind _ = ((f a).bind _).bind _
    cases f a with
    | unfinished => rfl
    | failed e => rfl
    | done u => exact ih

theorem each_eq_failed {as : List α} {e : ε} : each f as = .failed e ↔
      ∃ done a rest, as = done ++ a :: rest ∧ (∀ b ∈ done, f b = .done ()) ∧ f a = .failed e := by
  induction as with
  | nil =>
    constructor
    · intro h; cases h
    · rintro ⟨done, a, rest, h, _⟩
      exact absurd h (by simp)
  | cons a as ih =>
    constructor
    · intro h
      cases ha : f a with
      | unfinished => rw [each, ha] at h; cases h
      | failed e' =>
        rw [each, ha] at h
        cases h
        exact ⟨[], a, as, rfl, by simp, ha⟩
      | done u =>
        rw [each, ha] at h
        obtain ⟨done, b, rest, rfl, hdone, hb⟩ := ih.mp h
        refine ⟨a :: done, b, rest, rfl, ?_, hb⟩
        intro c hc
        rcases List.mem_cons.mp hc with rfl | hc
        · exact ha
        · exact hdone c hc
    · rintro ⟨done, b, rest, heq, hdone, hb⟩
      rw [heq, each_append]
      have hall : ∀ l : List α, (∀ b ∈ l, f b = .done ()) → each f l = .done () := by
        intro l
        induction l with
        | nil => intro _; rfl
        | cons c l ihl =>
          intro hl
          rw [each, hl c List.mem_cons_self]
          exact ihl fun b hb => hl b (List.mem_cons_of_mem c hb)
      rw [hall done hdone]
      show (f b).bind _ = _
      rw [hb]
      rfl

end Each

theorem evaluateAssertions_eq (sections : Sections) (fuel : ℕ) (scripts : List AssertingScript) :
    evaluateAssertions sections fuel scripts =
      each (fun x => evaluateAssertion sections fuel x.1 x.2) (allAssertions scripts) := by
  have hmap : ∀ (script : AssertingScript) (assertions : List AssertCommand),
      each (fun x => evaluateAssertion sections fuel x.1 x.2) (assertions.map (script, ·)) =
        each (evaluateAssertion sections fuel script) assertions := by
    intro script assertions
    induction assertions with
    | nil => rfl
    | cons assertion assertions ih =>
      show (evaluateAssertion _ _ _ _).bind _ = (evaluateAssertion _ _ _ _).bind _
      rw [ih]
  induction scripts with
  | nil => rfl
  | cons script scripts ih =>
    show (each _ script.assertions).bind (fun _ => evaluateAssertions sections fuel scripts) =
      each _ (script.assertions.map (script, ·) ++ allAssertions scripts)
    rw [each_append, hmap, ih]

/-! ### One assertion -/

variable {x : AssertingScript × AssertCommand}

theorem evaluateAssertion_done : evaluateAssertion sections fuel x.1 x.2 = .done () ↔
      ∃ a, a ≠ 0 ∧ evaluateExpression sections x.1.memoryRegions fuel x.2.expression =
        ended (.ok a) := by
  rw [evaluateAssertion]
  cases hvalue : evaluateExpression sections x.1.memoryRegions fuel x.2.expression with
  | unfinished => simp [ended]
  | failed e => simp [ended]
  | done a =>
    show (if a = 0 then _ else _) = _ ↔ _
    by_cases hzero : a = 0
    · simp [hzero, ended]
    · simp [hzero, ended]

theorem holdsOfOnes_iff :
    HoldsOfOnes sections x ↔ ∃ fuel, evaluateAssertion sections fuel x.1 x.2 = .done () := by
  constructor
  · rintro ⟨a, hzero, hmeans⟩
    obtain ⟨fuel, hfuel⟩ := means_iff.mp hmeans
    exact ⟨fuel, evaluateAssertion_done.mpr ⟨a, hzero, hfuel⟩⟩
  · rintro ⟨fuel, hfuel⟩
    obtain ⟨a, hzero, hvalue⟩ := evaluateAssertion_done.mp hfuel
    exact ⟨a, hzero, means_iff.mpr ⟨fuel, hvalue⟩⟩

theorem exists_fuel_of_holds {done : List (AssertingScript × AssertCommand)}
    (h : ∀ y ∈ done, HoldsOfOnes sections y) :
    ∃ least, ∀ fuel, least ≤ fuel →
      ∀ y ∈ done, evaluateAssertion sections fuel y.1 y.2 = .done () := by
  induction done with
  | nil => exact ⟨0, fun _ _ y hy => (by cases hy)⟩
  | cons x done ih =>
    obtain ⟨least, hleast⟩ := ih fun y hy => h y (List.mem_cons_of_mem x hy)
    obtain ⟨a, hzero, hmeans⟩ := h x List.mem_cons_self
    obtain ⟨fuel, hfuel⟩ := means_iff.mp hmeans
    refine ⟨max least fuel, fun fuel' hle y hy => ?_⟩
    rcases List.mem_cons.mp hy with rfl | hy
    · exact evaluateAssertion_done.mpr ⟨a, hzero, evaluate_eq_ended_mono (by omega) hfuel⟩
    · exact hleast fuel' (by omega) y hy

theorem exists_report_of_fails
    (hmentions : x.2.expression.mentionsSymbol) (h : FailsOfOnes sections x) :
    ∃ report, Blames sections report ∧ ∃ least, ∀ fuel, least ≤ fuel →
      evaluateAssertion sections fuel x.1 x.2 = .failed report := by
  rcases h with hzero | ⟨error, herror, hcaused⟩
  · obtain ⟨least, hleast⟩ := means_iff.mp hzero
    refine ⟨.failed x.1 x.2, hmentions, least, fun fuel hle => ?_⟩
    have hvalue : evaluateExpression sections x.1.memoryRegions fuel x.2.expression =
        ended (.ok 0) := evaluate_eq_ended_mono hle hleast
    rw [evaluateAssertion, hvalue]
    rfl
  · obtain ⟨least, hleast⟩ := means_iff.mp herror
    refine ⟨.failedToEvaluate x.1 x.2 error, ⟨hmentions, hcaused⟩, least, fun fuel hle => ?_⟩
    have hvalue : evaluateExpression sections x.1.memoryRegions fuel x.2.expression =
        ended (.error error) := evaluate_eq_ended_mono hle hleast
    rw [evaluateAssertion, hvalue]
    rfl

theorem fails_of_report
    {report : AssertionReport} (h : evaluateAssertion sections fuel x.1 x.2 = .failed report)
    (hblames : Blames sections report) :
    x.2.expression.mentionsSymbol ∧ FailsOfOnes sections x := by
  rw [evaluateAssertion] at h
  cases hvalue : evaluateExpression sections x.1.memoryRegions fuel x.2.expression with
  | unfinished => rw [hvalue] at h; cases h
  | failed error =>
    rw [hvalue] at h
    cases h
    exact ⟨hblames.1, .inr ⟨error, means_of_evaluate hvalue, hblames.2⟩⟩
  | done a =>
    rw [hvalue] at h
    by_cases hzero : a = 0
    · subst hzero
      cases h
      exact ⟨hblames, .inl (means_of_evaluate hvalue)⟩
    · change (if a = 0 then (.failed (.failed x.1 x.2) : Outcome AssertionReport Unit)
        else .done ()) = _ at h
      rw [if_neg hzero] at h
      cases h

theorem skips_of {scripts : List AssertingScript}
    (h : ∀ done x rest, allAssertions scripts = done ++ x :: rest →
      (∀ y ∈ done, HoldsOfOnes sections y) → x.2.expression.mentionsSymbol →
        ¬ FailsOfOnes sections x) : SkipsSymbols sections scripts := by
  intro fuel report hrun hblames
  rw [evaluateAssertions_eq, each_eq_failed] at hrun
  obtain ⟨done, x, rest, heq, hdone, hx⟩ := hrun
  obtain ⟨hmentions, hfails⟩ := fails_of_report hx hblames
  exact h done x rest heq (fun y hy => holdsOfOnes_iff.mpr ⟨fuel, hdone y hy⟩) hmentions hfails

/-- Assertions that mention symbols are skipped exactly if none that is
reached, all before it being true of ones, fails of ones itself. -/
theorem skips_iff (sections : Sections) (scripts : List AssertingScript) :
    SkipsSymbols sections scripts ↔
      ∀ done x rest, allAssertions scripts = done ++ x :: rest →
        (∀ y ∈ done, HoldsOfOnes sections y) → x.2.expression.mentionsSymbol →
          ¬ FailsOfOnes sections x := by
  refine ⟨fun hskips done x rest heq hdone hmentions hfails => ?_, skips_of⟩
  obtain ⟨report, hblames, least, hreport⟩ := exists_report_of_fails hmentions hfails
  obtain ⟨least', hholds⟩ := exists_fuel_of_holds hdone
  refine hskips (max least least') report ?_ hblames
  rw [evaluateAssertions_eq, each_eq_failed]
  exact ⟨done, x, rest, heq, hholds _ (by omega), hreport _ (by omega)⟩

/-! ### Operators that keep a symbol true -/

/-- No operator above a symbol makes its 1 false. -/
def Expression.keepsTrue : Expression → Bool
  | .symbol _ => true
  | .number n => n ≠ 0
  | .segmentStart _ e | .binary .logicalOr e _ => e.keepsTrue
  | .binary .logicalAnd l r => l.keepsTrue && r.keepsTrue
  | _ => false

theorem Means.unique {r' : Except EvalError UInt64}
    (h : Means sections memoryRegions placeholder e r)
    (h' : Means sections memoryRegions placeholder e r') : r = r' := by
  obtain ⟨fuel, hr, hr'⟩ := exists_common_fuel h.evaluate h'.evaluate
  exact ended_inj (hr.symm.trans hr')

theorem means_of_keepsTrue (h : e.keepsTrue = true) :
    ∃ a, a ≠ 0 ∧ Means sections memoryRegions (fun _ => 1) e (.ok a) := by
  induction e with
  | symbol name => exact ⟨1, by decide, .symbol⟩
  | number n => exact ⟨n, of_decide_eq_true h, .number⟩
  | segmentStart name e ih =>
    obtain ⟨a, ha, hmeans⟩ := ih h
    exact ⟨a, ha, .segmentStart hmeans⟩
  | binary op l r ihl ihr =>
    cases op with
    | logicalAnd =>
      rw [Expression.keepsTrue, Bool.and_eq_true] at h
      obtain ⟨a, ha, hl⟩ := ihl h.1
      obtain ⟨b, hb, hr⟩ := ihr h.2
      exact ⟨ofBool (b ≠ 0), by simp [ofBool, hb], .both hl (if_neg ha) hr⟩
    | logicalOr =>
      obtain ⟨a, ha, hl⟩ := ihl h
      exact ⟨1, by decide, .early hl (if_pos ha)⟩
    | _ => cases h
  | _ => cases h

/-- Assertions are skipped where only `&&`, `||` and `SEGMENT_START` stand above
symbols and numbers. -/
theorem skips_of_keepsTrue {scripts : List AssertingScript}
    (h : ∀ x ∈ allAssertions scripts, x.2.expression.mentionsSymbol →
      x.2.expression.keepsTrue) : SkipsSymbols sections scripts := by
  refine skips_of fun done x rest heq _ hmentions hfails => ?_
  have hmem : x ∈ allAssertions scripts := by
    rw [heq]
    exact List.mem_append_right _ List.mem_cons_self
  obtain ⟨a, ha, hmeans⟩ := means_of_keepsTrue (h x hmem hmentions)
  rcases hfails with hzero | ⟨error, herror, _⟩
  · exact ha (Except.ok.inj (hmeans.unique hzero))
  · cases hmeans.unique herror

/-- `ASSERT(foo == 2, "m")` -/
theorem equal_symbol_is_reported :
    ¬ SkipsSymbols (fun _ => none)
      [⟨[⟨.binary .equal (.symbol [102, 111, 111]) (.number 2), [109]⟩], []⟩] := by
  intro h
  exact h 1 _ rfl rfl

end Sld.Script
