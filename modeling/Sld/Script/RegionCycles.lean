/-
# `Script.RegionCycles` — when the evaluation of an expression ends

Evaluation goes down an expression, and from `ORIGIN` and `LENGTH` to the
expression of a field of a memory region.  Nothing keeps the fields from
mentioning each other, or themselves.

Evaluation ends exactly if none of the fields it comes to needs itself
(`evaluate_ends_iff`).  What is demanded depends on values: a divisor of
zero, or the left side of `&&` and `||`, can cut the other side off.
-/
import Mathlib.Data.Finite.Prod
import Mathlib.Order.WellFounded
import Sld.Script.Expressions

namespace Sld.Script

open Text

variable (sections : Sections) (memoryRegions : List MemoryRegion) (placeholder : Bytes → UInt64)

/-- Evaluating an expression comes to the field of a region. -/
inductive Demands : Expression → Field → Prop
  | ofRegion {field : RegionField} {name : Bytes} :
      Demands (.ofRegion field name) (field, name)
  | unary {op : UnaryOp} {e : Expression} {f : Field} (inner : Demands e f) :
      Demands (.unary op e) f
  | align {e : Expression} {f : Field} (inner : Demands e f) : Demands (.align e) f
  | segmentStart {name : SegmentName} {e : Expression} {f : Field} (inner : Demands e f) :
      Demands (.segmentStart name e) f
  | first {op : BinaryOp} {l r : Expression} {f : Field} (inner : Demands (op.first l r) f) :
      Demands (.binary op l r) f
  | second {op : BinaryOp} {l r : Expression} {f : Field} {fuel : ℕ} {a : UInt64}
      (value : evaluate sections memoryRegions placeholder fuel (op.first l r) = .done a)
      (goesOn : op.early a = none) (inner : Demands (op.second l r) f) :
      Demands (.binary op l r) f

/-- Evaluating a field comes to another. -/
def Needs (f g : Field) : Prop :=
  ∃ body, fieldExpression memoryRegions f.1 f.2 = some body ∧
    Demands sections memoryRegions placeholder body g

/-- Evaluating an expression comes to a field, maybe from another field. -/
def Visits (e : Expression) (g : Field) : Prop :=
  ∃ f, Demands sections memoryRegions placeholder e f ∧
    Relation.ReflTransGen (Needs sections memoryRegions placeholder) f g

variable {sections memoryRegions placeholder}

/-! ## What is demanded and never ends -/

variable {e : Expression} {f : Field}

theorem Demands.unfinished {fuel : ℕ} (h : Demands sections memoryRegions placeholder e f)
    (hf : fieldValue sections memoryRegions placeholder fuel f = .unfinished) :
    evaluate sections memoryRegions placeholder (fuel + 1) e = .unfinished := by
  induction h with
  | ofRegion => exact hf
  | unary _ ih | align _ ih =>
    rw [evaluate_succ] at ih ⊢
    rw [evaluateWith, ih hf]
    rfl
  | segmentStart _ ih =>
    rw [evaluate_succ] at ih ⊢
    rw [evaluateWith, ih hf]
  | first _ ih =>
    rw [evaluate_succ] at ih ⊢
    rw [evaluateWith_binary, ih hf]
    rfl
  | @second op l r f fuel' a value goesOn _ ih =>
    have hfirst := evaluate_eq_of_done value (fuel + 1)
    rw [evaluate_succ] at ih hfirst ⊢
    rw [evaluateWith_binary]
    rcases hfirst with hu | hd
    · rw [hu]
      rfl
    · rw [hd, Outcome.done_bind, goesOn, ih hf]
      rfl

theorem fieldValue_unfinished_of_cycle
    (h : Relation.TransGen (Needs sections memoryRegions placeholder) f f) (fuel : ℕ) :
    fieldValue sections memoryRegions placeholder fuel f = .unfinished := by
  -- the next field on the cycle needs itself as well, and is evaluated on less fuel
  induction fuel generalizing f with
  | zero =>
    obtain ⟨g, ⟨body, hbody, _⟩, _⟩ := Relation.TransGen.head'_iff.mp h
    exact fieldValue_of_body hbody 0
  | succ fuel ih =>
    obtain ⟨g, hneeds, hback⟩ := Relation.TransGen.head'_iff.mp h
    obtain ⟨body, hbody, hdemands⟩ := hneeds
    have hcycle : Relation.TransGen (Needs sections memoryRegions placeholder) g g :=
      Relation.TransGen.tail'_iff.mpr ⟨f, hback, body, hbody, hdemands⟩
    rw [fieldValue_of_body hbody]
    exact hdemands.unfinished (ih hcycle)

theorem fieldValue_unfinished_of_reach {g : Field}
    (h : Relation.ReflTransGen (Needs sections memoryRegions placeholder) f g)
    (hg : ∀ fuel, fieldValue sections memoryRegions placeholder fuel g = .unfinished) (fuel : ℕ) :
    fieldValue sections memoryRegions placeholder fuel f = .unfinished := by
  induction h using Relation.ReflTransGen.head_induction_on generalizing fuel with
  | refl => exact hg fuel
  | head hneeds _ ih =>
    obtain ⟨body, hbody, hdemands⟩ := hneeds
    rw [fieldValue_of_body hbody]
    cases fuel with
    | zero => rfl
    | succ fuel => exact hdemands.unfinished (ih fuel)

theorem evaluate_unfinished_of_visits {g : Field}
    (h : Visits sections memoryRegions placeholder e g)
    (hcycle : Relation.TransGen (Needs sections memoryRegions placeholder) g g) (fuel : ℕ) :
    evaluate sections memoryRegions placeholder fuel e = .unfinished := by
  obtain ⟨f, hdemands, hreach⟩ := h
  cases fuel with
  | zero => rfl
  | succ fuel =>
    exact hdemands.unfinished
      (fieldValue_unfinished_of_reach hreach (fieldValue_unfinished_of_cycle hcycle) fuel)

/-! ## What ends -/

theorem evaluate_ends_of_demands (e : Expression)
    (h : ∀ f, Demands sections memoryRegions placeholder e f →
      ∃ fuel, fieldValue sections memoryRegions placeholder fuel f ≠ .unfinished) :
    ∃ fuel, evaluate sections memoryRegions placeholder (fuel + 1) e ≠ .unfinished := by
  induction e with
  | number n | symbol name | locationCounter => exact ⟨0, by simp [evaluate_succ, evaluateWith]⟩
  | ofSection f name =>
    refine ⟨0, ?_⟩
    rw [evaluate_succ, evaluateWith]
    cases f <;> cases hname : sections name <;> simp [SectionFunction.apply, hname]
  | ofRegion field name => exact h _ .ofRegion
  | unary op e ih =>
    obtain ⟨fuel, hfuel⟩ := ih fun f hf => h f (.unary hf)
    refine ⟨fuel, fun hu => hfuel ?_⟩
    rcases Outcome.bind_eq_unfinished.mp hu with hu | ⟨a, _, hu⟩
    · exact hu
    · cases hu
  | align e ih =>
    obtain ⟨fuel, hfuel⟩ := ih fun f hf => h f (.align hf)
    refine ⟨fuel, fun hu => hfuel ?_⟩
    rcases Outcome.bind_eq_unfinished.mp hu with hu | ⟨a, _, hu⟩
    · exact hu
    · split at hu <;> cases hu
  | segmentStart name e ih => exact ih fun f hf => h f (.segmentStart hf)
  | binary op l r ihl ihr =>
    have hside : ∀ x : Expression, x = l ∨ x = r →
        (∀ f, Demands sections memoryRegions placeholder x f →
          ∃ fuel, fieldValue sections memoryRegions placeholder fuel f ≠ .unfinished) →
        ∃ fuel, evaluate sections memoryRegions placeholder (fuel + 1) x ≠ .unfinished := by
      rintro x (rfl | rfl)
      · exact ihl
      · exact ihr
    obtain ⟨fuel, hfuel⟩ := hside (op.first l r) (by cases op <;> simp [BinaryOp.first])
      fun f hf => h f (.first hf)
    cases hvalue : evaluate sections memoryRegions placeholder (fuel + 1) (op.first l r) with
    | unfinished => exact absurd hvalue hfuel
    | failed e =>
      refine ⟨fuel, ?_⟩
      rw [evaluate_succ] at hvalue ⊢
      rw [evaluateWith_binary, hvalue]
      simp
    | done a =>
      cases hearly : op.early a with
      | some o =>
        refine ⟨fuel, ?_⟩
        rw [evaluate_succ] at hvalue ⊢
        rw [evaluateWith_binary, hvalue, Outcome.done_bind, hearly]
        cases op <;> simp [BinaryOp.early] at hearly <;> simp [← hearly.2]
      | none =>
        obtain ⟨fuel', hfuel'⟩ := hside (op.second l r) (by cases op <;> simp [BinaryOp.second])
          fun f hf => h f (.second hvalue hearly hf)
        -- fuel that is enough for both sides
        refine ⟨max fuel fuel', fun hu => ?_⟩
        have hle : fuel + 1 ≤ max fuel fuel' + 1 := by omega
        have hle' : fuel' + 1 ≤ max fuel fuel' + 1 := by omega
        have hboth := evaluate_ne_unfinished_mono hle' hfuel'
        have hfirst := (evaluate_below hle (op.first l r)).eq hfuel
        rw [hvalue] at hfirst
        rw [evaluate_succ] at hu hboth hfirst
        rw [evaluateWith_binary, hfirst, Outcome.done_bind, hearly] at hu
        rcases Outcome.bind_eq_unfinished.mp hu with hu | ⟨b, _, hu⟩
        · exact hboth hu
        · cases hu

/-- A field of a region that is there. -/
def Present (memoryRegions : List MemoryRegion) (f : Field) : Prop :=
  fieldExpression memoryRegions f.1 f.2 ≠ none

theorem finite_present : {f : Field | Present memoryRegions f}.Finite := by
  have hfields : (Set.univ : Set RegionField).Finite :=
    Set.Finite.subset (Set.toFinite {RegionField.origin, RegionField.length})
      fun f _ => by cases f <;> simp
  have hnames : {name : Bytes | name ∈ memoryRegions.map (·.name)}.Finite := List.finite_toSet _
  refine (hfields.prod hnames).subset ?_
  rintro ⟨field, name⟩ h
  refine ⟨Set.mem_univ _, ?_⟩
  cases hfind : memoryRegions.find? (·.name = name) with
  | none => exact absurd (by simp [fieldExpression, hfind]) h
  | some region =>
    have hmem := List.mem_of_find?_eq_some hfind
    have hname := List.find?_some hfind
    exact List.mem_map.mpr ⟨region, hmem, by simpa using hname⟩

/-- The fields of regions that evaluating a field comes to. -/
def Reached (sections : Sections) (memoryRegions : List MemoryRegion)
    (placeholder : Bytes → UInt64) (f : Field) : Type :=
  {g : Field // Present memoryRegions g ∧
    Relation.ReflTransGen (Needs sections memoryRegions placeholder) f g}

/-- The first field is needed by the second one, in one step or in several. -/
def Reached.NeededBy {f : Field} (g g' : Reached sections memoryRegions placeholder f) : Prop :=
  Relation.TransGen (Needs sections memoryRegions placeholder) g'.1 g.1

theorem Reached.wellFounded
    (h : ∀ g, Relation.ReflTransGen (Needs sections memoryRegions placeholder) f g →
      ¬ Relation.TransGen (Needs sections memoryRegions placeholder) g g) :
    WellFounded (Reached.NeededBy : Reached sections memoryRegions placeholder f → _ → Prop) := by
  have hfinite : Finite (Reached sections memoryRegions placeholder f) :=
    Set.Finite.to_subtype (finite_present.subset fun g hg => hg.1)
  have htrans : IsTrans (Reached sections memoryRegions placeholder f) Reached.NeededBy :=
    ⟨fun _ _ _ hab hbc => hbc.trans hab⟩
  have hirrefl : Std.Irrefl
      (Reached.NeededBy : Reached sections memoryRegions placeholder f → _ → Prop) :=
    ⟨fun g hg => h g.1 g.2.2 hg⟩
  exact Finite.wellFounded_of_trans_of_irrefl _

theorem fieldValue_ends_of_absent (h : ¬ Present memoryRegions f) :
    ∃ fuel, fieldValue sections memoryRegions placeholder fuel f ≠ .unfinished := by
  refine ⟨0, ?_⟩
  rw [fieldValue, evaluateField, not_not.mp h]
  simp

theorem fieldValue_ends
    (h : ∀ g, Relation.ReflTransGen (Needs sections memoryRegions placeholder) f g →
      ¬ Relation.TransGen (Needs sections memoryRegions placeholder) g g) :
    ∃ fuel, fieldValue sections memoryRegions placeholder fuel f ≠ .unfinished := by
  have hends : ∀ g : Reached sections memoryRegions placeholder f,
      ∃ fuel, fieldValue sections memoryRegions placeholder fuel g.1 ≠ .unfinished := by
    intro g
    induction g using (Reached.wellFounded h).induction with
    | _ g ih =>
      obtain ⟨body, hbody⟩ := Option.ne_none_iff_exists'.mp g.2.1
      have hdemands : ∀ f', Demands sections memoryRegions placeholder body f' →
          ∃ fuel, fieldValue sections memoryRegions placeholder fuel f' ≠ .unfinished := by
        intro f' hf'
        by_cases hpresent : Present memoryRegions f'
        · have hneeds : Needs sections memoryRegions placeholder g.1 f' := ⟨body, hbody, hf'⟩
          exact ih ⟨f', hpresent, g.2.2.tail hneeds⟩ (.single hneeds)
        · exact fieldValue_ends_of_absent hpresent
      obtain ⟨fuel, hfuel⟩ := evaluate_ends_of_demands body hdemands
      exact ⟨fuel + 1, by rwa [fieldValue_of_body hbody]⟩
  by_cases hpresent : Present memoryRegions f
  · exact hends ⟨f, hpresent, .refl⟩
  · exact fieldValue_ends_of_absent hpresent

/-- Evaluation ends, with a value or with an error, exactly if no field of
a memory region that it comes to needs itself. -/
theorem evaluate_ends_iff (sections : Sections) (memoryRegions : List MemoryRegion)
    (e : Expression) :
    (∃ fuel, evaluateExpression sections memoryRegions fuel e ≠ .unfinished) ↔
      ∀ f, Visits sections memoryRegions (fun _ => 1) e f →
        ¬ Relation.TransGen (Needs sections memoryRegions fun _ => 1) f f := by
  constructor
  · rintro ⟨fuel, hends⟩ f hvisits hcycle
    exact hends (evaluate_unfinished_of_visits hvisits hcycle fuel)
  · intro h
    obtain ⟨fuel, hfuel⟩ := evaluate_ends_of_demands e fun f hf =>
      fieldValue_ends fun g hg => h g ⟨f, hf, hg⟩
    exact ⟨fuel + 1, hfuel⟩

/-- `MEMORY { A : ORIGIN = ORIGIN(A), LENGTH = 4 }` and `ASSERT(ORIGIN(A), …)`. -/
theorem origin_of_itself_never_ends :
    ¬ ∃ fuel, evaluateExpression (fun _ => none)
      [⟨[65], .ofRegion .origin [65], .number 4⟩] fuel (.ofRegion .origin [65]) ≠ .unfinished := by
  rintro ⟨fuel, hends⟩
  refine hends (evaluate_unfinished_of_visits (g := (.origin, [65]))
    ⟨_, .ofRegion, .refl⟩ (.single ⟨_, rfl, .ofRegion⟩) fuel)

end Sld.Script
