/-
# `Store.SlotTables` — programs that take the slots of tables

A table is a row of slots.  A program takes the next free slot of a table and
fills it; where the table has none left, it fails.  `Takes` says how many
slots of every table a program takes: with so many it runs to its end, and
with fewer in one table it does not.  Costs add up.

    take       the next slot, with its entry
    takeFor    the next slot, whose entry is only known after more slots
    Takes      the exact cost of a program
-/
import Mathlib.Algebra.BigOperators.Pi
import Mathlib.Algebra.GroupWithZero.Nat
import Mathlib.Algebra.Order.Group.Nat
import Mathlib.Algebra.Order.Pi

namespace Sld.Store

/-- Tables with what their slots have been filled with, from the first on. -/
structure SlotTables (ι ε : Type) where
  free : ι → ℕ
  filled : ι → List ε

abbrev SlotProgram (ι ε σ α : Type) := SlotTables ι ε → Except σ (α × SlotTables ι ε)

namespace SlotProgram

variable {ι ε σ α β : Type} [DecidableEq ι]

/-! ## Programs -/

def done (a : α) : SlotProgram ι ε σ α := fun tables => .ok (a, tables)

def fail (e : σ) : SlotProgram ι ε σ α := fun _ => .error e

def andThen (p : SlotProgram ι ε σ α) (q : α → SlotProgram ι ε σ β) : SlotProgram ι ε σ β :=
  fun tables =>
    match p tables with
    | .ok (a, after) => q a after
    | .error e => .error e

instance : Monad (SlotProgram ι ε σ) where
  pure := done
  bind := andThen

/-- One slot of a table. -/
def one (table : ι) : ι → ℕ := Pi.single table 1

/-- The tables after a slot has been filled. -/
def fillNext (tables : SlotTables ι ε) (table : ι) (entry : ε) : SlotTables ι ε :=
  { free := tables.free - one table
    filled := Function.update tables.filled table (tables.filled table ++ [entry]) }

def take (full : σ) (table : ι) (entry : ε) : SlotProgram ι ε σ Unit := fun tables =>
  if tables.free table = 0 then .error full else .ok ((), fillNext tables table entry)

/-- A slot that has been filled before gets its entry. -/
def refill (tables : SlotTables ι ε) (table : ι) (slot : ℕ) (entry : ε) : SlotTables ι ε :=
  { tables with
    filled := Function.update tables.filled table ((tables.filled table).set slot entry) }

/-- A slot is taken; `content` then says what it is filled with. -/
def takeFor (full : σ) (table : ι) (blank : ε) (content : SlotProgram ι ε σ ε) :
    SlotProgram ι ε σ Unit := fun tables =>
  match (take full table blank) tables with
  | .ok ((), taken) =>
    match content taken with
    | .ok (entry, after) => .ok ((), refill after table (tables.filled table).length entry)
    | .error e => .error e
  | .error e => .error e

/-! ## What a program takes -/

/-- A run that took `cost`: its slots follow those filled before. -/
structure Took (cost : ι → ℕ) (before after : SlotTables ι ε) : Prop where
  free : after.free + cost = before.free
  filled : ∀ table, ∃ entries, after.filled table = before.filled table ++ entries
    ∧ entries.length = cost table

/-- A program takes `cost`, no more and no less, and fails for want of slots
only. -/
structure Takes (p : SlotProgram ι ε σ α) (cost : ι → ℕ) : Prop where
  runs : ∀ before : SlotTables ι ε, cost ≤ before.free →
    ∃ a after, p before = .ok (a, after) ∧ Took cost before after
  fails : ∀ before : SlotTables ι ε, ¬ cost ≤ before.free → ∃ e, p before = .error e

section

variable {cost cost' : ι → ℕ} {before middle after : SlotTables ι ε}

omit [DecidableEq ι] in
theorem Took.refl : Took 0 before before :=
  ⟨add_zero _, fun _ => ⟨[], (List.append_nil _).symm, rfl⟩⟩

omit [DecidableEq ι] in
theorem Took.trans (h : Took cost before middle) (h' : Took cost' middle after) :
    Took (cost + cost') before after := by
  refine ⟨?_, fun table => ?_⟩
  · calc after.free + (cost + cost') = after.free + cost' + cost := by rw [add_comm cost, add_assoc]
      _ = middle.free + cost := by rw [h'.free]
      _ = before.free := h.free
  · obtain ⟨first, hfirst, hfirstLength⟩ := h.filled table
    obtain ⟨second, hsecond, hsecondLength⟩ := h'.filled table
    refine ⟨first ++ second, ?_, ?_⟩
    · rw [hsecond, hfirst, List.append_assoc]
    · rw [List.length_append, hfirstLength, hsecondLength, Pi.add_apply]

omit [DecidableEq ι] in
/-- How many slots of a table have been filled. -/
theorem Took.length_filled (h : Took cost before after) (table : ι) :
    (after.filled table).length = (before.filled table).length + cost table := by
  obtain ⟨entries, hentries, hlen⟩ := h.filled table
  rw [hentries, List.length_append, hlen]

omit [DecidableEq ι] in
theorem Took.le_free (h : Took cost before after) : cost ≤ before.free := h.free ▸ le_add_self

variable {table : ι}

theorem one_le_free_iff : one table ≤ before.free ↔ before.free table ≠ 0 := by
  refine ⟨fun h => Nat.one_le_iff_ne_zero.mp (by simpa [one] using h table), fun h other => ?_⟩
  rcases eq_or_ne other table with rfl | hother
  · simpa [one] using Nat.one_le_iff_ne_zero.mpr h
  · simp [one, hother]

theorem took_fillNext {entry : ε} (h : before.free table ≠ 0) :
    Took (one table) before (fillNext before table entry) := by
  refine ⟨funext fun other => Nat.sub_add_cancel (one_le_free_iff.mpr h other), fun other => ?_⟩
  rcases eq_or_ne other table with rfl | hother
  · exact ⟨[entry], by simp [fillNext], by simp [one]⟩
  · exact ⟨[], by simp [fillNext, hother], by simp [one, hother]⟩

theorem Took.refill (h : Took cost before after) {slot : ℕ}
    (hslot : (before.filled table).length ≤ slot) (entry : ε) :
    Took cost before (refill after table slot entry) := by
  refine ⟨h.free, fun other => ?_⟩
  obtain ⟨entries, hentries, hlen⟩ := h.filled other
  rcases eq_or_ne other table with rfl | hother
  · refine ⟨entries.set (slot - (before.filled other).length) entry, ?_, ?_⟩
    · simp [SlotProgram.refill, hentries, List.set_append, Nat.not_lt.mpr hslot]
    · rw [List.length_set, hlen]
  · exact ⟨entries, by simpa [SlotProgram.refill, hother] using hentries, hlen⟩

end

/-! ## The cost of programs -/

section

variable {cost cost' : ι → ℕ} {p : SlotProgram ι ε σ α} {q : α → SlotProgram ι ε σ β}

omit [DecidableEq ι] in
theorem Takes.pure (a : α) : Takes (pure a : SlotProgram ι ε σ α) 0 :=
  ⟨fun before _ => ⟨a, before, rfl, .refl⟩, fun _ h => absurd (fun _ => Nat.zero_le _) h⟩

omit [DecidableEq ι] in
theorem Takes.bind (hp : Takes p cost) (hq : ∀ a, Takes (q a) cost') :
    Takes (p >>= q) (cost + cost') := by
  refine ⟨fun before h => ?_, fun before h => ?_⟩
  · obtain ⟨a, middle, hrun, htook⟩ := hp.runs before (le_trans le_self_add h)
    have hroom : cost' ≤ middle.free := by
      refine le_of_add_le_add_right (a := cost) ?_
      rw [htook.free, add_comm]
      exact h
    obtain ⟨b, after, hrun', htook'⟩ := (hq a).runs middle hroom
    exact ⟨b, after, by simp [Bind.bind, andThen, hrun, hrun'], htook.trans htook'⟩
  · by_cases hfirst : cost ≤ before.free
    · obtain ⟨a, middle, hrun, htook⟩ := hp.runs before hfirst
      have hshort : ¬ cost' ≤ middle.free := fun hroom => h <| by
        rw [← htook.free, add_comm]
        exact add_le_add_left hroom cost
      obtain ⟨e, he⟩ := (hq a).fails middle hshort
      exact ⟨e, by simp [Bind.bind, andThen, hrun, he]⟩
    · obtain ⟨e, he⟩ := hp.fails before hfirst
      exact ⟨e, by simp [Bind.bind, andThen, he]⟩

theorem Takes.take (full : σ) (table : ι) (entry : ε) :
    Takes (take full table entry) (one table) := by
  refine ⟨fun before h => ?_, fun before h => ?_⟩
  · have hfree := one_le_free_iff.mp h
    exact ⟨(), fillNext before table entry, by simp [SlotProgram.take, hfree], took_fillNext hfree⟩
  · have hfree : before.free table = 0 := by_contra fun hne => h (one_le_free_iff.mpr hne)
    exact ⟨full, by simp [SlotProgram.take, hfree]⟩

theorem Takes.takeFor {content : SlotProgram ι ε σ ε} (h : Takes content cost) (full : σ)
    (table : ι) (blank : ε) : Takes (takeFor full table blank content) (one table + cost) := by
  have hboth := (Takes.take full table blank).bind fun _ : Unit => h
  refine ⟨fun before hroom => ?_, fun before hshort => ?_⟩
  · obtain ⟨entry, after, hrun, htook⟩ := hboth.runs before hroom
    refine ⟨(), SlotProgram.refill after table (before.filled table).length entry, ?_,
      htook.refill le_rfl entry⟩
    have hfree : before.free table ≠ 0 := one_le_free_iff.mp (le_trans le_self_add hroom)
    simp only [Bind.bind, andThen, SlotProgram.take, hfree, if_false] at hrun
    simp only [SlotProgram.takeFor, SlotProgram.take, hfree, if_false, hrun]
  · obtain ⟨e, he⟩ := hboth.fails before hshort
    by_cases hfree : before.free table = 0
    · exact ⟨full, by simp [SlotProgram.takeFor, SlotProgram.take, hfree]⟩
    · simp only [Bind.bind, andThen, SlotProgram.take, hfree, if_false] at he
      exact ⟨e, by simp only [SlotProgram.takeFor, SlotProgram.take, hfree, if_false, he]⟩

omit [DecidableEq ι] in
theorem Takes.ite {c : Prop} [Decidable c] {p' : SlotProgram ι ε σ α} (hp : c → Takes p cost)
    (hp' : ¬ c → Takes p' cost') :
    Takes (if c then p else p') (if c then cost else cost') := by
  split
  · next h => exact hp h
  · next h => exact hp' h

omit [DecidableEq ι] in
/-- A program that runs has taken its cost. -/
theorem Takes.took (h : Takes p cost) {before after : SlotTables ι ε} {a : α}
    (hrun : p before = .ok (a, after)) : Took cost before after := by
  by_cases hroom : cost ≤ before.free
  · obtain ⟨a', after', hrun', htook⟩ := h.runs before hroom
    have heq := Except.ok.inj (hrun.symm.trans hrun')
    have hafter : after = after' := congrArg Prod.snd heq
    exact hafter ▸ htook
  · obtain ⟨e, he⟩ := h.fails before hroom
    rw [he] at hrun
    cases hrun

end

/-! ## What has run -/

omit [DecidableEq ι] in
theorem bind_eq_ok {p : SlotProgram ι ε σ α} {q : α → SlotProgram ι ε σ β}
    {before after : SlotTables ι ε} {b : β} (h : (p >>= q) before = .ok (b, after)) :
    ∃ a middle, p before = .ok (a, middle) ∧ q a middle = .ok (b, after) := by
  change andThen p q before = _ at h
  unfold andThen at h
  split at h
  · next a middle hrun => exact ⟨a, middle, hrun, h⟩
  · cases h

theorem takeFor_eq_ok {full : σ} {table : ι} {blank : ε} {content : SlotProgram ι ε σ ε}
    {before after : SlotTables ι ε} {u : Unit}
    (h : takeFor full table blank content before = .ok (u, after)) :
    ∃ taken entry middle, content taken = .ok (entry, middle) := by
  unfold takeFor at h
  split at h
  · split at h
    · next taken _ _ entry middle hrun => exact ⟨taken, entry, middle, hrun⟩
    · cases h
  · cases h

/-! ## One program after the other -/

def inTurn (program : β → SlotProgram ι ε σ Unit) : List β → SlotProgram ι ε σ Unit
  | [] => pure ()
  | b :: rest => program b >>= fun _ => inTurn program rest

omit [DecidableEq ι] in
theorem takes_inTurn {program : β → SlotProgram ι ε σ Unit} {list : List β}
    {costs : List (ι → ℕ)} (h : List.Forall₂ (fun b cost => Takes (program b) cost) list costs) :
    Takes (inTurn program list) costs.sum := by
  induction h with
  | nil => exact Takes.pure ()
  | cons hfirst _ hrest =>
    rw [List.sum_cons]
    exact hfirst.bind fun _ => hrest

omit [DecidableEq ι] in
theorem inTurn_eq_ok {program : β → SlotProgram ι ε σ Unit} {list : List β}
    {before after : SlotTables ι ε} {u : Unit} (h : inTurn program list before = .ok (u, after)) :
    ∀ b ∈ list, ∃ middle result, program b middle = .ok result := by
  induction list generalizing before with
  | nil => exact nofun
  | cons b list ih =>
    obtain ⟨_, middle, hfirst, hrest⟩ := bind_eq_ok h
    exact List.forall_mem_cons.mpr ⟨⟨before, _, hfirst⟩, ih hrest⟩

end SlotProgram

end Sld.Store
