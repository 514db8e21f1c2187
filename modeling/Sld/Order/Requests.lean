/-
# `Order.Requests` — interleaved tasks that request further tasks

Tasks are lists of operations.  Some of them run from the start; the tasks
of a resource run once it has been requested, and it is granted to the first
operation that requests it.  Any running task may perform its next operation
at any time.

When nothing is left to perform, the resources granted are the least set
that is closed under requests, every resource was granted once, and every
operation of the tasks that ran was performed once (`log_perm`).  None of this depends on who came first.
-/
import Mathlib.Algebra.Order.BigOperators.Group.List
import Mathlib.Algebra.Order.Group.Nat
import Mathlib.Data.List.Nodup
import Mathlib.Data.List.Perm.Subperm
import Mathlib.Order.Bounds.Defs

namespace Sld.Requests

open List (append_assoc mem_append mem_singleton)

universe u v

structure System (Op : Type u) (R : Type v) where
  start : List (List Op)
  tasks : R → List (List Op)
  request : Op → Option R
  available : R → Bool

structure State (Op : Type u) (R : Type v) where
  running : List (List Op)
  taken : List R
  log : List Op

variable {Op : Type u} {R : Type v} [DecidableEq R] (sys : System Op R)

namespace System

/-- The resource that an operation is granted. -/
def grant (taken : List R) (op : Op) : Option R :=
  (sys.request op).filter fun r => sys.available r && !decide (r ∈ taken)

/-- What an operation leaves, given the tasks that run beside it. -/
def perform (running : List (List Op)) (taken : List R) (log : List Op) (op : Op) : State Op R :=
  match sys.grant taken op with
  | some r => ⟨running ++ sys.tasks r, taken ++ [r], log ++ [op]⟩
  | none => ⟨running, taken, log ++ [op]⟩

variable {log : List Op} {running : List (List Op)} {taken : List R}

theorem perform_of_none {op : Op} (h : sys.grant taken op = none) :
    sys.perform running taken log op = ⟨running, taken, log ++ [op]⟩ := by
  rw [perform, h]

theorem perform_of_some {op : Op} {r : R} (h : sys.grant taken op = some r) :
    sys.perform running taken log op = ⟨running ++ sys.tasks r, taken ++ [r], log ++ [op]⟩ := by
  rw [perform, h]

inductive Step : State Op R → State Op R → Prop
  | perform (before after : List (List Op)) (op : Op) (rest : List Op) (taken : List R)
      (log : List Op) :
      Step ⟨before ++ (op :: rest) :: after, taken, log⟩
        (sys.perform (before ++ rest :: after) taken log op)

def initial : State Op R := ⟨sys.start, [], []⟩

def Reachable (s : State Op R) : Prop := Relation.ReflTransGen sys.Step sys.initial s

/-- The operations of the tasks that run from the start or were requested. -/
def operations (taken : List R) : List Op :=
  sys.start.flatten ++ taken.flatMap fun r => (sys.tasks r).flatten

/-- Every available resource that such an operation requests is in the set. -/
structure Closed (S : Set R) : Prop where
  start : ∀ op ∈ sys.start.flatten, ∀ r, sys.request op = some r → sys.available r = true → r ∈ S
  task : ∀ q ∈ S, ∀ op ∈ (sys.tasks q).flatten, ∀ r, sys.request op = some r →
    sys.available r = true → r ∈ S

end System

/-- Nothing is left to perform. -/
def State.Complete (s : State Op R) : Prop := s.running.flatten = []

variable {sys}

variable {op : Op} {taken : List R}

omit [DecidableEq R] in
theorem System.mem_operations : op ∈ sys.operations taken ↔
      op ∈ sys.start.flatten ∨ ∃ r ∈ taken, op ∈ (sys.tasks r).flatten := by
  rw [System.operations, mem_append, List.mem_flatMap]

/-! ## What a run keeps -/

variable {r : R}

theorem System.grant_eq_some : sys.grant taken op = some r ↔
      sys.request op = some r ∧ sys.available r = true ∧ r ∉ taken := by
  rw [System.grant, Option.filter_eq_some_iff]
  simp

theorem System.grant_eq_none (h : sys.grant taken op = none) (hreq : sys.request op = some r)
    (havailable : sys.available r = true) : r ∈ taken := by
  by_contra hr
  have := System.grant_eq_some.mpr ⟨hreq, havailable, hr⟩
  rw [h] at this
  cases this

structure State.Inv (sys : System Op R) (s : State Op R) : Prop where
  log_perm : (s.log ++ s.running.flatten).Perm (sys.operations s.taken)
  nodup : s.taken.Nodup
  available : ∀ r ∈ s.taken, sys.available r = true
  granted : ∀ op ∈ s.log, ∀ r, sys.request op = some r → sys.available r = true → r ∈ s.taken
  least : ∀ S : Set R, sys.Closed S → ∀ r ∈ s.taken, r ∈ S

omit [DecidableEq R] in
theorem inv_initial : State.Inv sys sys.initial where
  log_perm := by simp [System.initial, System.operations]
  nodup := List.nodup_nil
  available := by simp [System.initial]
  granted := by simp [System.initial]
  least := by simp [System.initial]

omit [DecidableEq R] in
/-- A closed set holds what an operation requests, if it holds what was taken before. -/
theorem System.Closed.mem {S : Set R} (hclosed : sys.Closed S)
    (htaken : ∀ r ∈ taken, r ∈ S) (hop : op ∈ sys.operations taken)
    (hreq : sys.request op = some r) (havailable : sys.available r = true) : r ∈ S := by
  rcases System.mem_operations.mp hop with hstart | ⟨q, hq, htask⟩
  · exact hclosed.start op hstart r hreq havailable
  · exact hclosed.task q (htaken q hq) op htask r hreq havailable

section

variable {before after : List (List Op)} {op : Op} {rest : List Op} {taken : List R}
  {log : List Op}

theorem perm_of_perform : (log ++ [op] ++ (before ++ rest :: after).flatten).Perm
      (log ++ (before ++ (op :: rest) :: after).flatten) := by
  rw [append_assoc]
  refine List.Perm.append_left log ?_
  simp only [List.flatten_append, List.flatten_cons, List.cons_append, List.nil_append]
  exact List.perm_middle.symm

theorem State.Inv.perform (h : State.Inv sys ⟨before ++ (op :: rest) :: after, taken, log⟩) :
    State.Inv sys (sys.perform (before ++ rest :: after) taken log op) := by
  have hperm := perm_of_perform.trans h.log_perm
  have hop : op ∈ sys.operations taken := by
    refine hperm.subset ?_
    simp
  cases hgrant : sys.grant taken op with
  | none =>
    rw [System.perform_of_none sys hgrant]
    refine ⟨hperm, h.nodup, h.available, ?_, h.least⟩
    intro o ho r hreq havailable
    rcases mem_append.mp ho with ho | ho
    · exact h.granted o ho r hreq havailable
    · obtain rfl := mem_singleton.mp ho
      exact System.grant_eq_none hgrant hreq havailable
  | some q =>
    obtain ⟨hreq, havailable, hq⟩ := System.grant_eq_some.mp hgrant
    rw [System.perform_of_some sys hgrant]
    refine ⟨?_, ?_, ?_, ?_, ?_⟩
    · rw [List.flatten_append]
      simp only [System.operations, List.flatMap_append, List.flatMap_singleton, ← append_assoc]
      exact hperm.append_right _
    · exact List.nodup_append.mpr ⟨h.nodup, List.nodup_singleton q, fun r hr q' hq' => by
          rintro rfl
          exact hq (mem_singleton.mp hq' ▸ hr)⟩
    · intro r hr
      rcases mem_append.mp hr with hr | hr
      · exact h.available r hr
      · exact mem_singleton.mp hr ▸ havailable
    · intro o ho r hro hra
      rcases mem_append.mp ho with ho | ho
      · exact List.mem_append_left _ (h.granted o ho r hro hra)
      · obtain rfl := mem_singleton.mp ho
        rw [hreq] at hro
        cases hro
        exact List.mem_append_right _ (List.mem_singleton_self q)
    · intro S hS r hr
      rcases mem_append.mp hr with hr | hr
      · exact h.least S hS r hr
      · obtain rfl := mem_singleton.mp hr
        exact hS.mem (h.least S hS) hop hreq havailable

end

theorem inv_of_step {s s' : State Op R} (h : State.Inv sys s) (hstep : sys.Step s s') :
    State.Inv sys s' := by
  cases hstep with
  | perform before after op rest taken log => exact h.perform

theorem inv_of_reachable {s : State Op R} (h : sys.Reachable s) : State.Inv sys s := by
  induction h with
  | refl => exact inv_initial
  | tail _ hstep ih => exact inv_of_step ih hstep

/-! ## What a complete run has done -/

section

variable {s : State Op R} (h : State.Inv sys s) (hcompl : s.Complete)

include h hcompl

omit [DecidableEq R] in
/-- Every operation of the tasks that ran has been performed once. -/
theorem log_perm : s.log.Perm (sys.operations s.taken) := by
  have := h.log_perm
  rwa [show s.running.flatten = [] from hcompl, List.append_nil] at this

end

/-! ## Every run ends -/

theorem length_log_of_step {s s' : State Op R} (hstep : sys.Step s s') :
    s'.log.length = s.log.length + 1 := by
  cases hstep with
  | perform before after op rest taken log =>
    unfold System.perform
    cases sys.grant taken op with
    | none => simp
    | some r => simp

section

variable {resources : List R} (hresources : ∀ r, sys.available r = true → r ∈ resources)

include hresources

omit [DecidableEq R] in
/-- No more operations are performed than the tasks of all resources have. -/
theorem length_log_le {s : State Op R} (h : State.Inv sys s) :
    s.log.length ≤ (sys.operations resources).length := by
  have hsub : s.taken.Subperm resources :=
    List.subperm_of_subset h.nodup fun r hr => hresources r (h.available r hr)
  have hops : (sys.operations s.taken).length ≤ (sys.operations resources).length := by
    simp only [System.operations, List.length_append, List.length_flatMap]
    obtain ⟨taken, hperm, hsublist⟩ := hsub
    have hsum := (hsublist.map fun r => (sys.tasks r).flatten.length).sum_le_sum
      fun _ _ => Nat.zero_le _
    have heq := (hperm.map fun r => (sys.tasks r).flatten.length).sum_eq
    omega
  have hlen := h.log_perm.length_eq
  rw [List.length_append] at hlen
  omega

end

end Sld.Requests
