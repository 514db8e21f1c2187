/-
# `Store.Interrupted` — programs that may stop after any step

A program is a list of operations on a durable state.  It may be interrupted
after any of them, and the next program starts from what it left.  What
holds of every state such a run reaches is what every program keeps
`Throughout`: before its first operation, between two and after its last.
-/
import Mathlib.Data.List.Infix

namespace Sld.Store

universe u v

variable {σ : Type u} {α : Type v} (apply : σ → α → σ)

/-- The state after some operations. -/
def after (s : σ) (ops : List α) : σ := ops.foldl apply s

/-- The states reached by programs that may be interrupted. -/
inductive Interrupted (initial : σ → Prop) (program : σ → List α → Prop) : σ → Prop
  | start {s : σ} (hs : initial s) : Interrupted initial program s
  | run {s : σ} {ops done : List α} (hs : Interrupted initial program s) (hops : program s ops)
      (hdone : done <+: ops) : Interrupted initial program (after apply s done)

/-- The property holds wherever the program stops. -/
def Throughout (φ : σ → Prop) (s : σ) (ops : List α) : Prop :=
  ∀ done, done <+: ops → φ (after apply s done)

variable {apply} {φ : σ → Prop} {s : σ}

@[simp] theorem after_nil : after apply s [] = s := rfl

@[simp] theorem after_cons (op : α) (ops : List α) :
    after apply s (op :: ops) = after apply (apply s op) ops := rfl

/-- The induction is along the run, one program after the other. -/
theorem Interrupted.invariant {initial : σ → Prop} {program : σ → List α → Prop}
    (hinitial : ∀ s, initial s → φ s)
    (hprogram : ∀ s ops, φ s → program s ops → Throughout apply φ s ops)
    (hs : Interrupted apply initial program s) : φ s := by
  induction hs with
  | start hs => exact hinitial _ hs
  | run _ hops hdone ih => exact hprogram _ _ ih hops _ hdone

variable {ops : List α}

theorem Throughout.last (h : Throughout apply φ s ops) : φ (after apply s ops) :=
  h ops List.prefix_rfl

theorem throughout_nil : Throughout apply φ s [] ↔ φ s := by
  constructor
  · intro h
    exact h [] List.prefix_rfl
  · intro h done hdone
    rw [List.prefix_nil.mp hdone]
    exact h

theorem throughout_cons {op : α} :
    Throughout apply φ s (op :: ops) ↔ φ s ∧ Throughout apply φ (apply s op) ops := by
  constructor
  · intro h
    exact ⟨h [] List.nil_prefix, fun done hdone => h (op :: done) (List.cons_prefix_cons.mpr ⟨rfl, hdone⟩)⟩
  · rintro ⟨hfirst, hrest⟩ done hdone
    cases done with
    | nil => exact hfirst
    | cons op' done =>
      obtain ⟨rfl, hrest'⟩ := List.cons_prefix_cons.mp hdone
      exact hrest done hrest'

theorem throughout_append {ops' : List α} : Throughout apply φ s (ops ++ ops') ↔
      Throughout apply φ s ops ∧ Throughout apply φ (after apply s ops) ops' := by
  induction ops generalizing s with
  | nil =>
    rw [List.nil_append, after_nil, throughout_nil]
    exact (and_iff_right_of_imp fun h => h [] List.nil_prefix).symm
  | cons op ops ih =>
    rw [List.cons_append, throughout_cons, throughout_cons, ih, after_cons, and_assoc]

theorem throughout_of_forall (hs : φ s)
    (hstep : ∀ s, φ s → ∀ op ∈ ops, φ (apply s op)) : Throughout apply φ s ops := by
  induction ops generalizing s with
  | nil => exact throughout_nil.mpr hs
  | cons op ops ih =>
    refine throughout_cons.mpr ⟨hs, ih (hstep s hs op List.mem_cons_self) ?_⟩
    exact fun s hs op hop => hstep s hs op (List.mem_cons_of_mem _ hop)

theorem Throughout.mono {ψ : σ → Prop} (h : Throughout apply φ s ops)
    (himp : ∀ s, φ s → ψ s) : Throughout apply ψ s ops :=
  fun done hdone => himp _ (h done hdone)

end Sld.Store
