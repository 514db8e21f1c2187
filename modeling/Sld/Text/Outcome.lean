/-
# `Text.Outcome` — scanners that may fail, and loops that may not end

A scanner takes a result off the front of a sequence of bytes, or fails.
Its loops run on fuel: a run that used up its fuel is `unfinished`, and a
loop of the program ends exactly when some amount of fuel finishes it.

A loop whose step takes something off the input each time finishes with as
much fuel as there is input (`loop_finishes`); a loop that comes to a head
from which it never leaves has no fuel that finishes it
(`loop_unfinished_of_reach`).
-/
import Mathlib.Logic.Relation
import Mathlib.Tactic.Common

namespace Sld.Text

open Relation.ReflTransGen (head refl)

/-- The input of a scanner. -/
abbrev Bytes := List UInt8

/-- What a run on a given amount of fuel comes to. -/
inductive Outcome (ε α : Type) where
  | unfinished
  | failed (e : ε)
  | done (a : α)
  deriving DecidableEq

namespace Outcome

variable {ε α β : Type}

/-- Go on with a result. -/
def bind : Outcome ε α → (α → Outcome ε β) → Outcome ε β
  | .unfinished, _ => .unfinished
  | .failed e, _ => .failed e
  | .done a, f => f a

instance : Monad (Outcome ε) where
  pure := .done
  bind := Outcome.bind

@[simp] theorem unfinished_bind (f : α → Outcome ε β) : unfinished.bind f = .unfinished := rfl

@[simp] theorem failed_bind (e : ε) (f : α → Outcome ε β) : (failed e).bind f = .failed e := rfl

@[simp] theorem done_bind (a : α) (f : α → Outcome ε β) : (done a).bind f = f a := rfl

variable {f : α → Outcome ε β} {x : Outcome ε α}

theorem bind_eq_done {b : β} : x.bind f = .done b ↔ ∃ a, x = .done a ∧ f a = .done b := by
  cases x <;> simp

theorem bind_eq_unfinished :
    x.bind f = .unfinished ↔ x = .unfinished ∨ ∃ a, x = .done a ∧ f a = .unfinished := by
  cases x <;> simp

/-- The flat order: what is finished is kept. -/
def Below (x y : Outcome ε α) : Prop := x = .unfinished ∨ x = y

theorem Below.refl (x : Outcome ε α) : x.Below x := .inr rfl

theorem Below.eq {y : Outcome ε α} (h : x.Below y) (hx : x ≠ .unfinished) : y = x :=
  (h.resolve_left hx).symm

theorem Below.bind {y : Outcome ε α} {g : α → Outcome ε β} (h : x.Below y)
    (hf : ∀ a, (f a).Below (g a)) : (x.bind f).Below (y.bind g) := by
  rcases h with rfl | rfl
  · exact .inl rfl
  · cases x with
    | unfinished => exact .inl rfl
    | failed e => exact .inr rfl
    | done a => exact hf a

end Outcome

/-- A computation on the bytes that remain. -/
abbrev Scanner (ε : Type) := StateT Bytes (Outcome ε)

namespace Scanner

variable {ε α β σ : Type}

/-- Stop with an error. -/
def fail (e : ε) : Scanner ε α := fun _ => .failed e

@[simp] theorem fail_run (e : ε) (s : Bytes) : (fail e : Scanner ε α) s = .failed e := rfl

@[simp] theorem pure_run (a : α) (s : Bytes) : (pure a : Scanner ε α) s = .done (a, s) := rfl

@[simp] theorem bind_run (p : Scanner ε α) (f : α → Scanner ε β) (s : Bytes) :
    (p >>= f) s = (p s).bind fun r => f r.1 r.2 := rfl

@[simp] theorem get_run (s : Bytes) : (get : Scanner ε Bytes) s = .done (s, s) := rfl

variable {f : α → Scanner ε β} {p : Scanner ε α} {s : Bytes}

theorem bind_eq_done {r : β × Bytes} :
    (p >>= f) s = .done r ↔ ∃ a s', p s = .done (a, s') ∧ f a s' = .done r := by
  rw [bind_run, Outcome.bind_eq_done, Prod.exists]

theorem bind_eq_unfinished : (p >>= f) s = .unfinished ↔
      p s = .unfinished ∨ ∃ a s', p s = .done (a, s') ∧ f a s' = .unfinished := by
  rw [bind_run, Outcome.bind_eq_unfinished, Prod.exists]

/-! ## More fuel -/

/-- One scanner finishes at least where the other does, with the same result. -/
def Below (p q : Scanner ε α) : Prop := ∀ s, (p s).Below (q s)

theorem Below.refl (p : Scanner ε α) : Below p p := fun s => Outcome.Below.refl (p s)

theorem Below.bind {q : Scanner ε α} {g : α → Scanner ε β} (h : Below p q)
    (hf : ∀ a, Below (f a) (g a)) : Below (p >>= f) (q >>= g) :=
  fun s => (h s).bind fun r => hf r.1 r.2

theorem Below.bind_right {g : α → Scanner ε β}
    (hf : ∀ a, Below (f a) (g a)) : Below (p >>= f) (p >>= g) :=
  (Below.refl p).bind hf

/-- A scanner for each amount of fuel. -/
def Monotone (p : ℕ → Scanner ε α) : Prop := ∀ ⦃f f'⦄, f ≤ f' → Below (p f) (p f')

/-- Some amount of fuel finishes with this result. -/
def Yields (p : ℕ → Scanner ε α) (s : Bytes) (r : α × Bytes) : Prop :=
  ∃ fuel, p fuel s = .done r

variable {r : α × Bytes}

theorem Monotone.eq_of_yields {p : ℕ → Scanner ε α} (hp : Monotone p)
    (h : Yields p s r) (fuel : ℕ) : p fuel s = .unfinished ∨ p fuel s = .done r := by
  obtain ⟨f, hf⟩ := h
  rcases Nat.le_total f fuel with hle | hle
  · exact .inr ((hp hle s).eq (by rw [hf]; simp) |>.trans hf)
  · rcases hp hle s with h | h
    · exact .inl h
    · exact .inr (h.trans hf)

/-! ## Scanners that always finish, and what they take -/

/-- A scanner that is never unfinished. -/
def Total (p : Scanner ε α) : Prop := ∀ s, p s ≠ .unfinished

theorem Total.pure (a : α) : Total (pure a : Scanner ε α) := fun s => by simp

theorem Total.fail (e : ε) : Total (fail e : Scanner ε α) := fun s => by simp

theorem Total.get : Total (get : Scanner ε Bytes) := fun s => by simp

theorem Total.bind (hp : Total p) (hf : ∀ a, Total (f a)) : Total (p >>= f) := by
  intro s h
  rcases bind_eq_unfinished.mp h with h | ⟨a, s', _, h⟩
  · exact hp s h
  · exact hf a s' h

/-- A scanner that takes at least `k` bytes where it is done. -/
def Takes (k : ℕ) (p : Scanner ε α) : Prop :=
  ∀ s r, p s = .done r → r.2.length + k ≤ s.length

theorem Takes.pure (a : α) : Takes 0 (pure a : Scanner ε α) := by
  intro s r h
  cases h
  exact Nat.le_refl _

theorem Takes.fail (k : ℕ) (e : ε) : Takes k (fail e : Scanner ε α) := by
  intro s r h
  cases h

theorem Takes.get : Takes 0 (get : Scanner ε Bytes) := by
  intro s r h
  cases h
  exact Nat.le_refl _

variable {k : ℕ}

theorem Takes.mono {j : ℕ} (h : Takes k p) (hle : j ≤ k) : Takes j p :=
  fun s r hr => Nat.le_trans (Nat.add_le_add_left hle _) (h s r hr)

theorem Takes.bind {j : ℕ} (hp : Takes j p)
    (hf : ∀ a, Takes k (f a)) : Takes (j + k) (p >>= f) := by
  intro s r h
  obtain ⟨a, s', hd, h⟩ := bind_eq_done.mp h
  have hfirst : s'.length + j ≤ s.length := hp s _ hd
  have hrest := hf a s' r h
  omega

theorem Takes.bind_right (hp : Takes 0 p) (hf : ∀ a, Takes k (f a)) : Takes k (p >>= f) :=
  (hp.bind hf).mono (by omega)

theorem Takes.bind_left (hp : Takes k p) (hf : ∀ a, Takes 0 (f a)) : Takes k (p >>= f) := hp.bind hf

/-! ## Loops -/

/-- Repeat a step until it returns a result. -/
def loop (step : σ → Scanner ε (σ ⊕ α)) : ℕ → σ → Scanner ε α
  | 0, _ => fun _ => .unfinished
  | n + 1, st => do
      match ← step st with
      | .inl st' => loop step n st'
      | .inr a => pure a

variable {step step' : σ → Scanner ε (σ ⊕ α)} {steps : ℕ → σ → Scanner ε (σ ⊕ α)}

theorem loop_succ (n : ℕ) (st : σ) (s : Bytes) : loop step (n + 1) st s = (step st s).bind fun r =>
        r.1.elim (fun st' => loop step n st' r.2) fun a => .done (a, r.2) := by
  show (step st s).bind _ = _
  congr 1
  funext r
  obtain ⟨_ | _, _⟩ := r <;> rfl

variable {n : ℕ} {st : σ}

theorem loop_of_continue {st' : σ} {s' : Bytes}
    (h : step st s = .done (.inl st', s')) : loop step (n + 1) st s = loop step n st' s' := by
  rw [loop_succ, h]
  rfl

theorem loop_of_return {a : α} {s' : Bytes}
    (h : step st s = .done (.inr a, s')) : loop step (n + 1) st s = .done (a, s') := by
  rw [loop_succ, h]
  rfl

theorem loop_below (h : ∀ st, Below (step st) (step' st)) {n' : ℕ} (hn : n ≤ n') (st : σ) :
    Below (loop step n st) (loop step' n' st) := by
  induction n generalizing n' st with
  | zero => exact fun s => .inl rfl
  | succ n ih =>
    obtain ⟨m, rfl⟩ : ∃ m, n' = m + 1 := ⟨n' - 1, by omega⟩
    intro s
    refine (h st s).bind ?_
    rintro ⟨st' | a, s'⟩
    · exact ih (by omega) st' s'
    · exact Outcome.Below.refl _

theorem Monotone.loop (h : ∀ st, Monotone fun fuel => steps fuel st) (st : σ) :
    Monotone fun fuel => loop (steps fuel) fuel st :=
  fun _ _ hle => loop_below (fun st => h st hle) hle st

/-- The loop heads (accumulated state and remaining bytes) a loop comes to. -/
def LoopReach (steps : ℕ → σ → Scanner ε (σ ⊕ α)) : σ × Bytes → σ × Bytes → Prop :=
  Relation.ReflTransGen fun x y => Yields (fun fuel => steps fuel x.1) x.2 (.inl y.1, y.2)

theorem loop_unfinished_of_invariant {I : σ × Bytes → Prop}
    (h : ∀ x, I x → step x.1 x.2 = .unfinished ∨ ∃ y, step x.1 x.2 = .done (.inl y.1, y.2) ∧ I y) :
    ∀ (n : ℕ) (x : σ × Bytes), I x → loop step n x.1 x.2 = .unfinished := by
  intro n
  induction n with
  | zero => intro x _; rfl
  | succ n ih =>
    intro x hx
    rcases h x hx with hu | ⟨y, hy, hI⟩
    · rw [loop_succ, hu]
      rfl
    · rw [loop_of_continue hy]
      exact ih y hI

theorem loop_unfinished_of_reach (hmono : ∀ st, Monotone fun fuel => steps fuel st)
    {x y : σ × Bytes} (hreach : LoopReach steps x y)
    (hy : ∀ n fuel, loop (steps fuel) n y.1 y.2 = .unfinished) (n fuel : ℕ) :
    loop (steps fuel) n x.1 x.2 = .unfinished := by
  induction hreach using Relation.ReflTransGen.head_induction_on generalizing n with
  | refl => exact hy n fuel
  | head hstep _ ih =>
    cases n with
    | zero => rfl
    | succ n =>
      rcases (hmono _).eq_of_yields hstep fuel with hu | hd
      · rw [loop_succ, hu]
        rfl
      · rw [loop_of_continue hd]
        exact ih n

theorem Takes.loop (h : ∀ st, Takes 0 (step st)) (n : ℕ) (st : σ) : Takes 0 (loop step n st) := by
  induction n generalizing st with
  | zero => intro s r h; cases h
  | succ n ih =>
    intro s r hr
    obtain ⟨⟨st' | a, s'⟩, hd, hr⟩ := Outcome.bind_eq_done.mp hr
    · exact Nat.le_trans (ih st' s' r hr) (h st s _ hd)
    · cases hr
      exact h st s _ hd

theorem loop_eq_done (h : loop step n st s = .done r) :
    ∃ y, LoopReach (fun _ => step) (st, s) y ∧ step y.1 y.2 = .done (.inr r.1, r.2) := by
  induction n generalizing st s with
  | zero => cases h
  | succ n ih =>
    obtain ⟨⟨st' | a, s'⟩, hd, h⟩ := Outcome.bind_eq_done.mp h
    · obtain ⟨y, hreach, hlast⟩ := ih h
      exact ⟨y, head ⟨0, hd⟩ hreach, hlast⟩
    · cases h
      exact ⟨(st, s), refl, hd⟩

theorem loop_finishes (steps : ℕ → σ → Scanner ε (σ ⊕ α)) (fuel : ℕ) {x : σ × Bytes}
    (h : ∀ y, LoopReach steps x y → y.2.length ≤ x.2.length → steps fuel y.1 y.2 ≠ .unfinished ∧
        ∀ st' s', steps fuel y.1 y.2 = .done (.inl st', s') → s'.length < y.2.length)
    (hn : x.2.length < n) : loop (steps fuel) n x.1 x.2 ≠ .unfinished := by
  induction n generalizing x with
  | zero => omega
  | succ n ih =>
    obtain ⟨hstep, hless⟩ := h x refl (Nat.le_refl _)
    intro hu
    rcases Outcome.bind_eq_unfinished.mp hu with hu | ⟨⟨st' | a, s'⟩, hd, hu⟩
    · exact hstep hu
    · have hlt := hless st' s' hd
      have hshort : s'.length < n := by omega
      refine ih (x := (st', s')) ?_ hshort hu
      intro y hy hle
      exact h y (head ⟨fuel, hd⟩ hy) (Nat.le_trans hle (Nat.le_of_lt hlt))
    · cases hu

end Scanner

end Sld.Text
