/-
# `Text.EnoughFuel` — what a scanner comes to on enough fuel

A scanner on fuel `EndsIn` an outcome if every large enough amount of fuel
brings it there.  The rules follow the shape of a scanner: one for a
sequence, one for a round of a loop, and one for a loop that reads a list
of items which were written one after the other (`EndsIn.loop_list`).

What an item contributes is computed without the input, and may fail.
-/
import Sld.Text.Scanning

namespace Sld.Text

/-- The outcome of a result that was computed without any input. -/
def Outcome.ofExcept {ε α : Type} : Except ε α → Outcome ε α
  | .ok a => .done a
  | .error e => .failed e

namespace Scanner

variable {ε α β σ ι : Type} {s s' s'' : Bytes}

theorem ofExcept_ne_unfinished {x : Except ε α} : ofExcept x s ≠ .unfinished := Total.ofExcept x s

theorem ofExcept_ok (a : α) : (ofExcept (.ok a) : Scanner ε α) s = .done (a, s) := rfl

theorem ofExcept_map (x : Except ε α) (f : α → β) :
    (ofExcept x s).bind (fun r => .done (f r.1, r.2)) = ofExcept (x.map f) s := by
  cases x <;> rfl

/-- Every large enough amount of fuel comes to the outcome. -/
def EndsIn (p : ℕ → Scanner ε α) (s : Bytes) (o : Outcome ε (α × Bytes)) : Prop :=
  ∃ least, ∀ fuel, least ≤ fuel → p fuel s = o

namespace EndsIn

variable {p : ℕ → Scanner ε α} {g : ℕ → α → Scanner ε β} {o : Outcome ε (β × Bytes)}

theorem of_eq {o : Outcome ε (α × Bytes)} (h : ∀ fuel, p fuel s = o) : EndsIn p s o :=
  ⟨0, fun fuel _ => h fuel⟩

theorem of_succ {o : Outcome ε (α × Bytes)} (h : EndsIn (fun fuel => p (fuel + 1)) s o) :
    EndsIn p s o := by
  obtain ⟨least, h⟩ := h
  refine ⟨least + 1, fun fuel hle => ?_⟩
  obtain ⟨n, rfl⟩ : ∃ n, fuel = n + 1 := ⟨fuel - 1, by omega⟩
  exact h n (by omega)

theorem congr {q : ℕ → Scanner ε α} {o : Outcome ε (α × Bytes)}
    (h : ∀ fuel, p fuel s = q fuel s') (hq : EndsIn q s' o) : EndsIn p s o := by
  obtain ⟨least, hq⟩ := hq
  exact ⟨least, fun fuel hle => (h fuel).trans (hq fuel hle)⟩

theorem bind_done {a : α} (hp : EndsIn p s (.done (a, s'))) (hg : EndsIn (fun fuel => g fuel a) s' o) :
    EndsIn (fun fuel => p fuel >>= g fuel) s o := by
  obtain ⟨n, hp⟩ := hp
  obtain ⟨m, hg⟩ := hg
  refine ⟨max n m, fun fuel hle => ?_⟩
  have hfirst : p fuel s = .done (a, s') := hp fuel (by omega)
  show (p fuel s).bind _ = o
  rw [hfirst]
  exact hg fuel (by omega)

/-! ## Loops -/

variable {steps : ℕ → σ → Scanner ε (σ ⊕ α)} {st : σ}

theorem loop_return {x : Except ε α}
    (hstep : EndsIn (fun fuel => steps fuel st) s (ofExcept (x.map .inr) s')) :
    EndsIn (fun fuel => loop (steps fuel) fuel st) s (ofExcept x s') := by
  obtain ⟨least, hstep⟩ := hstep
  refine ⟨least + 1, fun fuel hle => ?_⟩
  obtain ⟨n, rfl⟩ : ∃ n, fuel = n + 1 := ⟨fuel - 1, by omega⟩
  have hround : steps (n + 1) st s = ofExcept (x.map .inr) s' := hstep (n + 1) (by omega)
  show loop (steps (n + 1)) (n + 1) st s = _
  rw [loop_succ, hround]
  cases x <;> rfl

theorem loop_continue {x : Except ε σ} {y : σ → Except ε α}
    (hmono : ∀ st, Monotone fun fuel => steps fuel st)
    (hstep : EndsIn (fun fuel => steps fuel st) s (ofExcept (x.map .inl) s'))
    (hrest : ∀ st', x = .ok st' →
      EndsIn (fun fuel => loop (steps fuel) fuel st') s' (ofExcept (y st') s'')) :
    EndsIn (fun fuel => loop (steps fuel) fuel st) s (ofExcept (x >>= y) s'') := by
  cases x with
  | error e => exact loop_return hstep
  | ok st' =>
    obtain ⟨least, hstep⟩ := hstep
    obtain ⟨m, hrest⟩ := hrest st' rfl
    refine ⟨max least m + 1, fun fuel hle => ?_⟩
    obtain ⟨n, rfl⟩ : ∃ n, fuel = n + 1 := ⟨fuel - 1, by omega⟩
    have hround : steps (n + 1) st s = .done (.inl st', s') := hstep (n + 1) (by omega)
    show loop (steps (n + 1)) (n + 1) st s = _
    rw [loop_of_continue hround]
    -- the rest runs on one unit of fuel less than its rounds do
    have hbelow : Below (loop (steps n) n st') (loop (steps (n + 1)) n st') :=
      loop_below (fun st => hmono st (Nat.le_succ n)) (Nat.le_refl n) st'
    have hn : loop (steps n) n st' s' = ofExcept (y st') s'' := hrest n (by omega)
    exact ((hbelow s').eq (by rw [hn]; exact ofExcept_ne_unfinished)).trans hn

theorem loop_congr (h : ∀ fuel st, steps fuel st s = steps fuel st s')
    {o : Outcome ε (α × Bytes)} (ho : EndsIn (fun fuel => loop (steps fuel) fuel st) s' o) :
    EndsIn (fun fuel => loop (steps fuel) fuel st) s o := by
  refine congr (fun fuel => ?_) ho
  cases fuel with
  | zero => rfl
  | succ n =>
    rw [loop_succ, loop_succ, h]

theorem good_flatMap {items : List ι} {render : ι → Bytes} {Good : Bytes → Prop}
    (hgood : ∀ item ∈ items, ∀ rest, Good rest → Good (render item ++ rest)) (hrest : Good s) :
    Good (items.flatMap render ++ s) := by
  induction items with
  | nil => exact hrest
  | cons item items ih =>
    rw [List.flatMap_cons, List.append_assoc]
    refine hgood item List.mem_cons_self _ (ih ?_)
    exact fun i hi => hgood i (List.mem_cons_of_mem _ hi)

theorem loop_list (Good : Bytes → Prop) (render : ι → Bytes) (add : σ → ι → Except ε σ)
    (fin : σ → Except ε α) {items : List ι}
    (hmono : ∀ st, Monotone fun fuel => steps fuel st)
    (hgood : ∀ item ∈ items, ∀ rest, Good rest → Good (render item ++ rest))
    (hitem : ∀ item ∈ items, ∀ rest, Good rest → ∃ left,
      (∀ fuel st, steps fuel st left = steps fuel st rest) ∧
        ∀ st, EndsIn (fun fuel => steps fuel st) (render item ++ rest)
          (ofExcept ((add st item).map .inl) left))
    (hrest : Good s)
    (hlast : ∀ st, EndsIn (fun fuel => loop (steps fuel) fuel st) s (ofExcept (fin st) s')) :
    EndsIn (fun fuel => loop (steps fuel) fuel st) (items.flatMap render ++ s)
      (ofExcept (items.foldlM add st >>= fin) s') := by
  induction items generalizing st with
  | nil => exact hlast st
  | cons item items ih =>
    have hgood' : ∀ i ∈ items, ∀ rest, Good rest → Good (render i ++ rest) :=
      fun i hi => hgood i (List.mem_cons_of_mem _ hi)
    obtain ⟨left, hleft, hstep⟩ := hitem item List.mem_cons_self _ (good_flatMap hgood' hrest)
    rw [List.flatMap_cons, List.append_assoc, List.foldlM_cons, bind_assoc]
    refine loop_continue hmono (hstep st) fun st' _ => ?_
    refine loop_congr hleft ?_
    exact ih hgood' fun i hi => hitem i (List.mem_cons_of_mem _ hi)

end EndsIn

end Scanner

end Sld.Text
