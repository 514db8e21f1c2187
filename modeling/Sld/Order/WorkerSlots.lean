/-
# `Order.WorkerSlots` — workers that wait in slots

Every group has a worker, which is activated by a task of its own and then
processes the items of its queue.  An item for another group is put into the
slot of that group; a worker that waits in the slot is woken by it.  A worker
whose queue is empty takes over what has gathered in its slot, and returns to
the slot when there is nothing.

Some group may have to wait until all groups have been activated.  The task
that is the last to finish its activation runs the worker of that group.

    Step          one turn of a task or of a worker
    State.Inv     what holds at any time, as long as there is no error
    step_cases    what a turn does to the data that the operations share
-/
import Mathlib.Data.Fintype.Card

namespace Sld.WorkerSlots

open Function (forall_update_iff update update_of_ne update_self)

universe u v w x y

/-! ## The system -/

inductive Sent (Item : Type w) where
  /-- Into the queue of the worker that sends it. -/
  | toQueue (item : Item)
  | toSlot (item : Item)

structure Outcome (Op : Type v) (Item : Type w) (σ : Type x) where
  shared : σ
  /-- What the worker performs before anything else. -/
  next : List Op
  sent : Option (Sent Item)

def Outcome.items {Op : Type v} {Item : Type w} {σ : Type x} (out : Outcome Op Item σ) : List Item :=
  match out.sent with
  | some (.toQueue item) => [item]
  | some (.toSlot item) => [item]
  | none => []

def Outcome.queued {Op : Type v} {Item : Type w} {σ : Type x} (out : Outcome Op Item σ) : List Item :=
  match out.sent with
  | some (.toQueue item) => [item]
  | _ => []

structure System (G : Type u) (Op : Type v) (Item : Type w) (σ : Type x) (ε : Type y) where
  start : σ
  /-- What the activation of a group performs, for each of its files. -/
  activation : G → List (List Op)
  delayed : G → Bool
  delayed_unique : ∀ g h, delayed g = true → delayed h = true → g = h
  program : Item → List Op
  owner : Item → G
  exec : G → Op → σ → Except ε (Outcome Op Item σ)
  owns : ∀ g op shared out item, exec g op shared = .ok out →
    out.sent = some (.toQueue item) → owner item = g

/-- Where the task that activates a group is. -/
inductive Phase where
  | waiting
  | activating
  | counting
  | draining
  /-- It runs the worker of the group that had to wait. -/
  | blocked
  | done

/-- A busy worker knows which task runs it and how that goes on. -/
inductive Worker (G : Type u) (Op : Type v) (Item : Type w) where
  | absent
  | activating (files : List (List Op)) (queue : List Item)
  | delayed (queue : List Item)
  | busy (ops : List Op) (queue : List Item) (caller : Option (G × Phase))
  | inSlot
  | lost

namespace Worker

variable {G : Type u} {Op : Type v} {Item : Type w}

def ops : Worker G Op Item → List Op
  | .activating files _ => files.flatten
  | .busy ops _ _ => ops
  | _ => []

def queue : Worker G Op Item → List Item
  | .activating _ queue | .delayed queue | .busy _ queue _ => queue
  | _ => []

def Running : Worker G Op Item → Prop
  | .activating _ _ | .busy _ _ _ => True
  | _ => False

end Worker

structure State (G : Type u) (Op : Type v) (Item : Type w) (σ : Type x) (ε : Type y) where
  worker : G → Worker G Op Item
  thread : G → Phase
  slot : G → List Item
  /-- The activations that have not been counted. -/
  remaining : ℕ
  delay : Option G
  shared : σ
  sent : List Item
  processed : List Item
  performed : List Op
  errors : List ε

variable {G : Type u} {Op : Type v} {Item : Type w} {σ : Type x} {ε : Type y} [DecidableEq G]

namespace State

variable (s : State G Op Item σ ε)

def setWorker (g : G) (worker : Worker G Op Item) : State G Op Item σ ε :=
  { s with worker := Function.update s.worker g worker }

/-- The task goes on once the worker that it ran has stopped. -/
def resume : Option (G × Phase) → State G Op Item σ ε
  | some (g, phase) => { s with thread := Function.update s.thread g phase }
  | none => s

/-- Puts an item into the slot of its group and runs a worker found there. -/
def deliver (g : G) (item : Item) : State G Op Item σ ε :=
  match s.worker g with
  | .inSlot =>
    { s with
      slot := Function.update s.slot g (item :: s.slot g)
      worker := Function.update s.worker g (.busy [] [] none) }
  | _ => { s with slot := Function.update s.slot g (item :: s.slot g) }

def send (sys : System G Op Item σ ε) : Option (Sent Item) → State G Op Item σ ε
  | some (.toSlot item) => s.deliver (sys.owner item) item
  | _ => s

/-- A worker performs an operation and is left as given. -/
def perform (sys : System G Op Item σ ε) (g : G) (op : Op) (out : Outcome Op Item σ)
    (worker : Worker G Op Item) : State G Op Item σ ε :=
  State.send
    { s with
      worker := Function.update s.worker g worker
      shared := out.shared
      sent := s.sent ++ out.items
      performed := s.performed ++ [op] } sys out.sent

/-- All tasks have come to their end. -/
structure Ended : Prop where
  thread : ∀ g, s.thread g = .done
  worker : ∀ g, ¬ (s.worker g).Running

def Pending (op : Op) : Prop := ∃ g, op ∈ (s.worker g).ops

/-- All activations have been counted. -/
def Opened : Prop := s.remaining = 0

end State

namespace System

variable (sys : System G Op Item σ ε)

def initial [Fintype G] : State G Op Item σ ε where
  worker _ := .absent
  thread _ := .waiting
  slot _ := []
  remaining := Fintype.card G
  delay := none
  shared := sys.start
  sent := []
  processed := []
  performed := []
  errors := []

inductive Step : State G Op Item σ ε → State G Op Item σ ε → Prop
  | start {s : State G Op Item σ ε} {g : G} : s.thread g = .waiting →
      Step s { s with
        thread := Function.update s.thread g .activating
        worker := Function.update s.worker g (.activating (sys.activation g) []) }
  | activate {s : State G Op Item σ ε} {g : G} {op : Op} {ops : List Op} {files : List (List Op)}
      {queue : List Item} {out : Outcome Op Item σ} :
      s.worker g = .activating ((op :: ops) :: files) queue → sys.exec g op s.shared = .ok out →
      Step s (s.perform sys g op out (.activating ((out.next ++ ops) :: files) (out.queued ++ queue)))
  | activateFailed {s : State G Op Item σ ε} {g : G} {op : Op} {ops : List Op}
      {files : List (List Op)} {queue : List Item} {e : ε} :
      s.worker g = .activating ((op :: ops) :: files) queue → sys.exec g op s.shared = .error e →
      Step s { s with
        worker := Function.update s.worker g (.activating files queue)
        errors := s.errors ++ [e] }
  | nextFile {s : State G Op Item σ ε} {g : G} {files : List (List Op)} {queue : List Item} :
      s.worker g = .activating ([] :: files) queue →
      Step s (s.setWorker g (.activating files queue))
  /-- The queue for the groups that have to wait holds one; a second would panic. -/
  | delay {s : State G Op Item σ ε} {g : G} {queue : List Item} :
      s.worker g = .activating [] queue → sys.delayed g = true → s.delay = none →
      Step s { s with
        worker := Function.update s.worker g (.delayed queue)
        thread := Function.update s.thread g .counting
        delay := some g }
  | activated {s : State G Op Item σ ε} {g : G} {queue : List Item} :
      s.worker g = .activating [] queue → sys.delayed g = false →
      Step s (s.setWorker g (.busy [] queue (some (g, .counting))))
  | work {s : State G Op Item σ ε} {g : G} {op : Op} {ops : List Op} {queue : List Item}
      {caller : Option (G × Phase)} {out : Outcome Op Item σ} :
      s.worker g = .busy (op :: ops) queue caller → sys.exec g op s.shared = .ok out →
      Step s (s.perform sys g op out (.busy (out.next ++ ops) (out.queued ++ queue) caller))
  | workFailed {s : State G Op Item σ ε} {g : G} {op : Op} {ops : List Op} {queue : List Item}
      {caller : Option (G × Phase)} {e : ε} :
      s.worker g = .busy (op :: ops) queue caller → sys.exec g op s.shared = .error e →
      Step s (State.resume { s with
        worker := Function.update s.worker g .lost
        errors := s.errors ++ [e] } caller)
  | pop {s : State G Op Item σ ε} {g : G} {item : Item} {queue : List Item}
      {caller : Option (G × Phase)} :
      s.worker g = .busy [] (item :: queue) caller →
      Step s { s with
        worker := Function.update s.worker g (.busy (sys.program item) queue caller)
        processed := s.processed ++ [item] }
  | swap {s : State G Op Item σ ε} {g : G} {caller : Option (G × Phase)} :
      s.worker g = .busy [] [] caller → s.slot g ≠ [] →
      Step s { s with
        worker := Function.update s.worker g (.busy [] (s.slot g) caller)
        slot := Function.update s.slot g [] }
  | park {s : State G Op Item σ ε} {g : G} {caller : Option (G × Phase)} :
      s.worker g = .busy [] [] caller → s.slot g = [] →
      Step s ((s.setWorker g .inSlot).resume caller)
  | count {s : State G Op Item σ ε} {g : G} : s.thread g = .counting →
      Step s { s with
        remaining := s.remaining - 1
        thread := Function.update s.thread g (if s.remaining - 1 = 0 then .draining else .done) }
  | drain {s : State G Op Item σ ε} {g h : G} {queue : List Item} :
      s.thread g = .draining → s.delay = some h → s.worker h = .delayed queue →
      Step s { s with
        worker := Function.update s.worker h (.busy [] queue (some (g, .draining)))
        thread := Function.update s.thread g .blocked
        delay := none }
  | drained {s : State G Op Item σ ε} {g : G} : s.thread g = .draining → s.delay = none →
      Step s { s with thread := Function.update s.thread g .done }

def Reachable [Fintype G] (s : State G Op Item σ ε) : Prop :=
  Relation.ReflTransGen sys.Step sys.initial s

end System

/-! ## Workers and tasks -/

theorem of_update {α : Type w} {f : G → α} {g k : G} {a b : α} (h : update f g a k = b)
    (hne : a ≠ b) : k ≠ g ∧ f k = b := by
  by_cases hk : k = g
  · rw [hk, update_self] at h
    exact absurd h hne
  · rw [update_of_ne hk] at h
    exact ⟨hk, h⟩

/-- The activation is over. -/
def Phase.Finished : Phase → Prop
  | .waiting | .activating => False
  | _ => True

def Phase.Uncounted : Phase → Prop
  | .waiting | .activating | .counting => True
  | _ => False

instance : DecidablePred Phase.Uncounted := fun phase => by
  cases phase <;> unfold Phase.Uncounted <;> infer_instance

/-- What a worker may be, beside the tasks. -/
inductive Own (sys : System G Op Item σ ε) (thread : G → Phase) (remaining : ℕ) (delay : Option G)
    (g : G) : Worker G Op Item → Prop
  | absent : thread g = .waiting → Own sys thread remaining delay g .absent
  | activating {files : List (List Op)} {queue : List Item} : thread g = .activating →
      Own sys thread remaining delay g (.activating files queue)
  | delayed {queue : List Item} : sys.delayed g = true → delay = some g → (thread g).Finished →
      Own sys thread remaining delay g (.delayed queue)
  | called {ops : List Op} {queue : List Item} : thread g = .activating → sys.delayed g = false →
      Own sys thread remaining delay g (.busy ops queue (some (g, .counting)))
  | drained {ops : List Op} {queue : List Item} {t : G} : thread t = .blocked →
      (thread g).Finished → sys.delayed g = true → remaining = 0 →
      Own sys thread remaining delay g (.busy ops queue (some (t, .draining)))
  | woken {ops : List Op} {queue : List Item} : (thread g).Finished →
      (sys.delayed g = true → remaining = 0) →
      Own sys thread remaining delay g (.busy ops queue none)
  | inSlot : (thread g).Finished → (sys.delayed g = true → remaining = 0) →
      Own sys thread remaining delay g .inSlot

namespace Own

variable {sys : System G Op Item σ ε} {thread : G → Phase} {remaining remaining' : ℕ}
  {delay delay' : Option G} {g t : G} {worker : Worker G Op Item}

theorem blocked_of_update {t' : G} (h : thread t' = .blocked) (hblocked : thread t ≠ .blocked)
    (phase : Phase) : update thread t phase t' = .blocked := by
  have hne : t' ≠ t := by
    rintro rfl
    exact hblocked h
  rw [update_of_ne hne]
  exact h

section

variable (h : Own sys thread remaining delay g worker)

include h

theorem update_thread (hg : g ≠ t) (hblocked : thread t ≠ .blocked) (phase : Phase) :
    Own sys (update thread t phase) remaining delay g worker := by
  have hsame : update thread t phase g = thread g := update_of_ne hg _ _
  cases h with
  | absent hthread => exact .absent (hsame.trans hthread)
  | activating hthread => exact .activating (hsame.trans hthread)
  | delayed hdelayed hdelay hthread => exact .delayed hdelayed hdelay (hsame ▸ hthread)
  | called hthread hdelayed => exact .called (hsame.trans hthread) hdelayed
  | drained hcaller hthread hdelayed hrem =>
    exact .drained (blocked_of_update hcaller hblocked phase) (hsame ▸ hthread) hdelayed hrem
  | woken hthread hdelayed => exact .woken (hsame ▸ hthread) hdelayed
  | inSlot hthread hdelayed => exact .inSlot (hsame ▸ hthread) hdelayed

theorem update_finished (hblocked : thread t ≠ .blocked) (hfin : (thread t).Finished)
    {phase : Phase} (hphase : phase.Finished) :
    Own sys (update thread t phase) remaining delay g worker := by
  by_cases hg : g = t
  · subst hg
    have hnew : (update thread g phase g).Finished := by
      rw [update_self]
      exact hphase
    cases h with
    | absent hthread | activating hthread =>
      rw [hthread] at hfin
      exact hfin.elim
    | delayed hdelayed hdelay hthread => exact .delayed hdelayed hdelay hnew
    | called hthread hdelayed =>
      rw [hthread] at hfin
      exact hfin.elim
    | drained hcaller hthread hdelayed hrem =>
      exact .drained (blocked_of_update hcaller hblocked phase) hnew hdelayed hrem
    | woken hthread hdelayed => exact .woken hnew hdelayed
    | inSlot hthread hdelayed => exact .inSlot hnew hdelayed
  · exact h.update_thread hg hblocked phase

omit [DecidableEq G] in
theorem of_remaining (hrem : remaining = 0 → remaining' = 0) :
    Own sys thread remaining' delay g worker := by
  cases h with
  | absent hthread => exact .absent hthread
  | activating hthread => exact .activating hthread
  | delayed hdelayed hdelay hthread => exact .delayed hdelayed hdelay hthread
  | called hthread hdelayed => exact .called hthread hdelayed
  | drained hcaller hthread hdelayed hzero =>
    exact .drained hcaller hthread hdelayed (hrem hzero)
  | woken hthread hdelayed => exact .woken hthread fun h => hrem (hdelayed h)
  | inSlot hthread hdelayed => exact .inSlot hthread fun h => hrem (hdelayed h)

omit [DecidableEq G] in
theorem of_delay (hdelay : delay = some g → delay' = some g) :
    Own sys thread remaining delay' g worker := by
  cases h with
  | absent hthread => exact .absent hthread
  | activating hthread => exact .activating hthread
  | delayed hdelayed heq hthread => exact .delayed hdelayed (hdelay heq) hthread
  | called hthread hdelayed => exact .called hthread hdelayed
  | drained hcaller hthread hdelayed hzero => exact .drained hcaller hthread hdelayed hzero
  | woken hthread hdelayed => exact .woken hthread hdelayed
  | inSlot hthread hdelayed => exact .inSlot hthread hdelayed

omit [DecidableEq G] in
theorem eq_absent (hg : thread g = .waiting) : worker = .absent := by
  have hfin : ¬ (thread g).Finished := by
    rw [hg]
    exact id
  cases h with
  | absent => rfl
  | activating hthread => exact absurd (hg.symm.trans hthread) nofun
  | delayed _ _ hthread => exact absurd hthread hfin
  | called hthread => exact absurd (hg.symm.trans hthread) nofun
  | drained _ hthread | woken hthread | inSlot hthread => exact absurd hthread hfin

end

omit [DecidableEq G] in
theorem thread_of_activating {files : List (List Op)} {queue : List Item}
    (h : Own sys thread remaining delay g (.activating files queue)) : thread g = .activating := by
  cases h with
  | activating hthread => exact hthread

end Own

/-! ## What a turn does to the workers -/

/-- A worker in the course of its work, or one that is woken. -/
inductive Kept : Worker G Op Item → Worker G Op Item → Prop
  | refl (worker : Worker G Op Item) : Kept worker worker
  | activating {files files' : List (List Op)} {queue queue' : List Item} :
      Kept (.activating files queue) (.activating files' queue')
  | busy {ops ops' : List Op} {queue queue' : List Item} {caller : Option (G × Phase)} :
      Kept (.busy ops queue caller) (.busy ops' queue' caller)
  | woken : Kept .inSlot (.busy [] [] none)

section

omit [DecidableEq G]

variable {queue : List Item} {worker : Worker G Op Item}

theorem Kept.of_delayed (h : Kept (.delayed queue) worker) : worker = .delayed queue := by
  cases h
  rfl

theorem Kept.of_busy {ops : List Op} {caller : Option (G × Phase)}
    (h : Kept (.busy ops queue caller) worker) :
    ∃ ops' queue', worker = .busy ops' queue' caller := by
  cases h with
  | refl => exact ⟨ops, queue, rfl⟩
  | busy => exact ⟨_, _, rfl⟩

theorem Own.kept {sys : System G Op Item σ ε} {thread : G → Phase} {remaining : ℕ}
    {delay : Option G} {g : G} {worker' : Worker G Op Item}
    (h : Own sys thread remaining delay g worker) (hkept : Kept worker worker') :
    Own sys thread remaining delay g worker' := by
  cases hkept with
  | refl => exact h
  | activating =>
    cases h with
    | activating hthread => exact .activating hthread
  | busy =>
    cases h with
    | called hthread hdelayed => exact .called hthread hdelayed
    | drained hcaller hthread hdelayed hzero => exact .drained hcaller hthread hdelayed hzero
    | woken hthread hdelayed => exact .woken hthread hdelayed
  | woken =>
    cases h with
    | inSlot hthread hdelayed => exact .woken hthread hdelayed

end

namespace State

variable {s : State G Op Item σ ε}

/-- What sending an item leaves alone. -/
structure Unsent (s s' : State G Op Item σ ε) : Prop where
  thread : s'.thread = s.thread
  remaining : s'.remaining = s.remaining
  delay : s'.delay = s.delay
  shared : s'.shared = s.shared
  sent : s'.sent = s.sent
  processed : s'.processed = s.processed
  performed : s'.performed = s.performed
  errors : s'.errors = s.errors

theorem deliver_unsent (g : G) (item : Item) : Unsent s (s.deliver g item) := by
  unfold deliver
  split
  · exact ⟨rfl, rfl, rfl, rfl, rfl, rfl, rfl, rfl⟩
  · exact ⟨rfl, rfl, rfl, rfl, rfl, rfl, rfl, rfl⟩

theorem deliver_slot (g : G) (item : Item) :
    (s.deliver g item).slot = update s.slot g (item :: s.slot g) := by
  unfold deliver
  split
  · rfl
  · rfl

theorem deliver_worker (g h : G) (item : Item) : (s.deliver g item).worker h = s.worker h
      ∨ (s.worker h = .inSlot ∧ (s.deliver g item).worker h = .busy [] [] none) := by
  unfold deliver
  split
  · next hslot =>
    by_cases hh : h = g
    · subst hh
      exact .inr ⟨hslot, update_self _ _ _⟩
    · exact .inl (update_of_ne hh _ _)
  · exact .inl rfl

theorem deliver_not_inSlot (g : G) (item : Item) : (s.deliver g item).worker g ≠ .inSlot := by
  unfold deliver
  split
  · show update s.worker g _ g ≠ _
    rw [update_self]
    exact nofun
  · next hslot => exact hslot

theorem send_unsent (sys : System G Op Item σ ε) (sent : Option (Sent Item)) :
    Unsent s (s.send sys sent) := by
  unfold send
  split
  · exact deliver_unsent _ _
  · exact ⟨rfl, rfl, rfl, rfl, rfl, rfl, rfl, rfl⟩

theorem send_worker (sys : System G Op Item σ ε) (sent : Option (Sent Item)) (h : G) :
    (s.send sys sent).worker h = s.worker h
      ∨ (s.worker h = .inSlot ∧ (s.send sys sent).worker h = .busy [] [] none) := by
  unfold send
  split
  · exact deliver_worker _ h _
  · exact .inl rfl

end State

section

variable [Fintype G]

def uncounted (thread : G → Phase) : Finset G := Finset.univ.filter fun g => (thread g).Uncounted

variable {g : G} {thread : G → Phase}

omit [DecidableEq G] in
theorem mem_uncounted : g ∈ uncounted thread ↔ (thread g).Uncounted := by
  rw [uncounted, Finset.mem_filter]
  exact and_iff_right (Finset.mem_univ g)

variable {phase : Phase}

theorem uncounted_update (h : phase.Uncounted ↔ (thread g).Uncounted) :
    uncounted (update thread g phase) = uncounted thread := by
  ext k
  rw [mem_uncounted, mem_uncounted]
  by_cases hk : k = g
  · rw [hk, update_self]
    exact h
  · rw [update_of_ne hk]

theorem card_uncounted_update (h : (thread g).Uncounted) (hphase : ¬ phase.Uncounted) :
    (uncounted (update thread g phase)).card = (uncounted thread).card - 1 := by
  have herase : uncounted (update thread g phase) = (uncounted thread).erase g := by
    ext k
    rw [Finset.mem_erase, mem_uncounted, mem_uncounted]
    by_cases hk : k = g
    · rw [hk, update_self]
      exact iff_of_false hphase fun hne => hne.1 rfl
    · rw [update_of_ne hk]
      exact (and_iff_right hk).symm
  rw [herase, Finset.card_erase_of_mem (mem_uncounted.mpr h)]

/-- How the workers, the tasks and the queue of those that wait belong together. -/
structure Tasks (sys : System G Op Item σ ε) (worker : G → Worker G Op Item) (thread : G → Phase)
    (remaining : ℕ) (delay : Option G) : Prop where
  own : ∀ g, Own sys thread remaining delay g (worker g)
  held : ∀ g, delay = some g → ∃ queue, worker g = .delayed queue
  counts : remaining = (uncounted thread).card
  drains : remaining = 0 → delay = none ∨ ∃ t, thread t = .draining
  opened : ∀ t, thread t = .draining ∨ thread t = .blocked → remaining = 0
  blocked : ∀ t, thread t = .blocked → ∃ h ops queue, worker h = .busy ops queue (some (t, .draining))

namespace Tasks

variable {sys : System G Op Item σ ε} {worker worker' : G → Worker G Op Item} {thread : G → Phase}
  {remaining : ℕ} {delay : Option G} {g k : G}

omit [DecidableEq G] in
theorem initial : Tasks sys (fun _ => .absent) (fun _ => .waiting) (Fintype.card G) none where
  own _ := .absent rfl
  held _ h := nomatch h
  counts := by
    have hall : uncounted (fun _ : G => Phase.waiting) = Finset.univ :=
      Finset.filter_true_of_mem fun _ _ => trivial
    rw [hall]
    rfl
  drains _ := .inl rfl
  opened t h := by
    rcases h with h | h
    · cases h
    · cases h
  blocked t h := by cases h

variable {files : List (List Op)} {queue : List Item} {w : Worker G Op Item} {phase : Phase} {t : G}

omit [Fintype G] in
theorem own_update (hnew : Own sys thread remaining delay g w)
    (hold : ∀ k ≠ g, Own sys thread remaining delay k (worker k)) (k : G) :
    Own sys thread remaining delay k (update worker g w k) :=
  (forall_update_iff worker fun k w => Own sys thread remaining delay k w).mpr ⟨hnew, hold⟩ k

variable (h : Tasks sys worker thread remaining delay)

include h

omit [DecidableEq G] in
theorem thread_of_activating (hg : worker g = .activating files queue) :
    thread g = .activating :=
  (hg ▸ h.own g).thread_of_activating

omit [DecidableEq G] in
/-- The workers go on with what they do. -/
theorem kept (hworker : ∀ g, Kept (worker g) (worker' g)) : Tasks sys worker' thread remaining delay where
  own g := (h.own g).kept (hworker g)
  held g hg := by
    obtain ⟨queue, hqueue⟩ := h.held g hg
    exact ⟨queue, (hqueue ▸ hworker g).of_delayed⟩
  counts := h.counts
  drains := h.drains
  opened := h.opened
  blocked t ht := by
    obtain ⟨g, ops, queue, hg⟩ := h.blocked t ht
    obtain ⟨ops', queue', hg'⟩ := (hg ▸ hworker g).of_busy
    exact ⟨g, ops', queue', hg'⟩

/-! One worker and one task that change leave the rest as it is. -/

theorem held_update (hg : ∀ queue, worker g ≠ .delayed queue) (hk : delay = some k) :
    ∃ queue, update worker g w k = .delayed queue := by
  obtain ⟨queue, hqueue⟩ := h.held k hk
  refine ⟨queue, (update_of_ne ?_ _ _).trans hqueue⟩
  rintro rfl
  exact hg queue hqueue

theorem blocked_update (ht : thread t = .blocked)
    (hg : ∀ ops queue, worker g ≠ .busy ops queue (some (t, .draining))) :
    ∃ k ops queue, update worker g w k = .busy ops queue (some (t, .draining)) := by
  obtain ⟨k, ops, queue, hk⟩ := h.blocked t ht
  refine ⟨k, ops, queue, (update_of_ne ?_ _ _).trans hk⟩
  rintro rfl
  exact hg ops queue hk

theorem opened_update (hdraining : phase ≠ .draining) (hblocked : phase ≠ .blocked)
    (ht : update thread g phase t = .draining ∨ update thread g phase t = .blocked) :
    remaining = 0 :=
  h.opened t (ht.imp (fun ht => (of_update ht hdraining).2) fun ht => (of_update ht hblocked).2)

theorem counts_update (hphase : phase.Uncounted ↔ (thread g).Uncounted) :
    remaining = (uncounted (update thread g phase)).card := by
  rw [uncounted_update hphase]
  exact h.counts

theorem start (hg : thread g = .waiting) :
    Tasks sys (update worker g (.activating files []))
      (update thread g .activating) remaining delay where
  own := own_update (.activating (update_self _ _ _)) fun k hk => by
    refine (h.own k).update_thread hk ?_ _
    rw [hg]
    exact nofun
  held k := h.held_update (by
    rw [(h.own g).eq_absent hg]
    exact nofun)
  counts := h.counts_update (by
    rw [hg]
    exact iff_of_true trivial trivial)
  drains hzero := by
    rcases h.drains hzero with hnone | ⟨t, ht⟩
    · exact .inl hnone
    · refine .inr ⟨t, (update_of_ne ?_ _ _).trans ht⟩
      rintro rfl
      rw [hg] at ht
      cases ht
  opened t := h.opened_update nofun nofun
  blocked t ht := h.blocked_update (of_update ht nofun).2 (by
    rw [(h.own g).eq_absent hg]
    exact nofun)

theorem activated (hg : worker g = .activating files queue) (hdelayed : sys.delayed g = false)
    {ops : List Op} {queue' : List Item} :
    Tasks sys (update worker g (.busy ops queue' (some (g, .counting)))) thread remaining
      delay where
  own := own_update (.called (h.thread_of_activating hg) hdelayed) fun k _ => h.own k
  held k := h.held_update (by
    rw [hg]
    exact nofun)
  counts := h.counts
  drains := h.drains
  opened := h.opened
  blocked t ht := h.blocked_update ht (by
    rw [hg]
    exact nofun)

omit h in
theorem wait (h : Tasks sys worker thread remaining none)
    (hg : worker g = .activating files queue) (hdelayed : sys.delayed g = true)
    {queue' : List Item} :
    Tasks sys (update worker g (.delayed queue')) (update thread g .counting)
      remaining (some g) where
  own := by
    refine own_update (.delayed hdelayed rfl ?_) fun k hk => ?_
    · rw [update_self]
      trivial
    · refine ((h.own k).update_thread hk ?_ _).of_delay nofun
      rw [h.thread_of_activating hg]
      exact nofun
  held k hk := by
    cases hk
    exact ⟨queue', update_self _ _ _⟩
  counts := h.counts_update (by
    rw [h.thread_of_activating hg]
    exact iff_of_true trivial trivial)
  drains hzero := by
    have hmem : g ∈ uncounted thread := by
      rw [mem_uncounted, h.thread_of_activating hg]
      trivial
    rw [h.counts, Finset.card_eq_zero] at hzero
    rw [hzero] at hmem
    exact absurd hmem (Finset.notMem_empty g)
  opened t := h.opened_update nofun nofun
  blocked t ht := h.blocked_update (of_update ht nofun).2 (by
    rw [hg]
    exact nofun)

variable {ops : List Op}

theorem park_called (hg : worker g = .busy ops queue (some (t, .counting))) :
    Tasks sys (update worker g .inSlot) (update thread t .counting) remaining delay := by
  have hown := hg ▸ h.own g
  cases hown with
  | called hthread hdelayed =>
    refine ⟨own_update (.inSlot ?_ fun htrue => ?_) fun k hk => (h.own k).update_thread hk ?_ _,
      fun k => h.held_update ?_, h.counts_update ?_, fun hzero => ?_,
      fun t => h.opened_update nofun nofun,
      fun t ht => h.blocked_update (of_update ht nofun).2 ?_⟩
    · rw [update_self]
      trivial
    · rw [hdelayed] at htrue
      cases htrue
    · rw [hthread]
      exact nofun
    · rw [hg]
      exact nofun
    · rw [hthread]
      exact iff_of_true trivial trivial
    · rcases h.drains hzero with hnone | ⟨t, ht⟩
      · exact .inl hnone
      · refine .inr ⟨t, (update_of_ne ?_ _ _).trans ht⟩
        rintro rfl
        rw [hthread] at ht
        cases ht
    · rw [hg]
      exact nofun

theorem park_drained (hg : worker g = .busy ops queue (some (t, .draining))) :
    Tasks sys (update worker g .inSlot) (update thread t .draining) remaining delay := by
  have hown := hg ▸ h.own g
  cases hown with
  | drained hcaller hthread hdelayed hzero =>
    have hkeep : ∀ k, (thread k).Finished → (update thread t .draining k).Finished := by
      intro k hk
      by_cases hkt : k = t
      · rw [hkt, update_self]
        trivial
      · rwa [update_of_ne hkt]
    refine ⟨own_update (.inSlot (hkeep g hthread) fun _ => hzero) fun k hk => ?_,
      fun k => h.held_update ?_, h.counts_update ?_,
      fun _ => .inr ⟨t, update_self _ _ _⟩, fun _ _ => hzero, fun t' ht' => ?_⟩
    · have hsame : ∀ phase, thread k = phase → phase ≠ .blocked →
          update thread t .draining k = phase := by
        intro phase hphase hne
        refine (update_of_ne ?_ _ _).trans hphase
        rintro rfl
        exact hne (hphase.symm.trans hcaller)
      have hown := h.own k
      cases hw : worker k with
      | absent =>
        rw [hw] at hown
        cases hown with
        | absent hthread => exact .absent (hsame _ hthread nofun)
      | activating files queue =>
        rw [hw] at hown
        exact .activating (hsame _ hown.thread_of_activating nofun)
      | delayed queue =>
        rw [hw] at hown
        cases hown with
        | delayed hdelayed hdelay hthread => exact .delayed hdelayed hdelay (hkeep k hthread)
      | busy ops' queue' caller =>
        rw [hw] at hown
        cases hown with
        | called hthread hdelayed =>
          exact .called (hsame _ hthread nofun) hdelayed
        | drained _ _ hdelayed' => exact absurd (sys.delayed_unique k g hdelayed' hdelayed) hk
        | woken hthread hdelayed => exact .woken (hkeep k hthread) hdelayed
      | inSlot =>
        rw [hw] at hown
        cases hown with
        | inSlot hthread hdelayed => exact .inSlot (hkeep k hthread) hdelayed
      | lost =>
        rw [hw] at hown
        cases hown
    · rw [hg]
      exact nofun
    · rw [hcaller]
      exact iff_of_false id id
    · obtain ⟨hne, ht⟩ := of_update ht' nofun
      refine h.blocked_update ht fun ops' queue' hk => ?_
      rw [hg] at hk
      cases hk
      exact hne rfl

theorem park_woken (hg : worker g = .busy ops queue none) :
    Tasks sys (update worker g .inSlot) thread remaining delay := by
  have hown := hg ▸ h.own g
  cases hown with
  | woken hthread hdelayed =>
    refine ⟨own_update (.inSlot hthread hdelayed) fun k _ => h.own k,
      fun k => h.held_update ?_, h.counts, h.drains, h.opened,
      fun t ht => h.blocked_update ht ?_⟩
    · rw [hg]
      exact nofun
    · rw [hg]
      exact nofun

theorem count (hg : thread g = .counting) :
    Tasks sys worker (update thread g (if remaining - 1 = 0 then .draining else .done))
      (remaining - 1) delay := by
  have hfin : (thread g).Finished := by
    rw [hg]
    trivial
  have hblocked : thread g ≠ .blocked := by
    rw [hg]
    exact nofun
  have huncounted : (thread g).Uncounted := by
    rw [hg]
    trivial
  have hpos : remaining ≠ 0 := by
    rw [h.counts]
    exact Finset.card_ne_zero_of_mem (mem_uncounted.mpr huncounted)
  refine ⟨fun k => ?_, h.held, ?_, fun hzero => ?_, fun t ht => ?_, fun t ht => ?_⟩
  · refine ((h.own k).update_finished hblocked hfin ?_).of_remaining fun hzero => absurd hzero hpos
    split
    · trivial
    · trivial
  · rw [card_uncounted_update huncounted ?_, h.counts]
    split
    · exact id
    · exact id
  · refine .inr ⟨g, ?_⟩
    rw [update_self, if_pos hzero]
  · by_cases hzero : remaining - 1 = 0
    · exact hzero
    · rw [if_neg hzero] at ht
      exact absurd (h.opened_update (by exact nofun) (by exact nofun) ht) hpos
  · refine h.blocked t (of_update ht ?_).2
    split
    · exact nofun
    · exact nofun

omit h in
theorem drain (h : Tasks sys worker thread remaining (some k)) (hg : thread g = .draining)
    {queue : List Item} (hk : worker k = .delayed queue) {ops : List Op} {queue' : List Item} :
    Tasks sys (update worker k (.busy ops queue' (some (g, .draining))))
      (update thread g .blocked) remaining none := by
  have hzero := h.opened g (.inl hg)
  have hfin : (thread g).Finished := by
    rw [hg]
    trivial
  have hblocked : thread g ≠ .blocked := by
    rw [hg]
    exact nofun
  have hown := hk ▸ h.own k
  cases hown with
  | delayed hdelayed hdelay hthread =>
    refine ⟨own_update (.drained (update_self _ _ _) ?_ hdelayed hzero) fun l hl =>
        ((h.own l).update_finished hblocked hfin ?_).of_delay fun hsome => ?_,
      fun l hl => (nomatch hl), h.counts_update ?_, fun _ => .inl rfl,
      fun _ _ => hzero, fun t ht => ?_⟩
    · by_cases hkg : k = g
      · rw [hkg, update_self]
        trivial
      · rwa [update_of_ne hkg]
    · trivial
    · exact absurd (Option.some.inj hsome).symm hl
    · rw [hg]
      exact iff_of_false id id
    · by_cases htg : t = g
      · subst htg
        exact ⟨k, ops, queue', update_self _ _ _⟩
      · rw [update_of_ne htg] at ht
        refine h.blocked_update ht ?_
        rw [hk]
        exact nofun

omit h in
theorem drained (h : Tasks sys worker thread remaining none) (hg : thread g = .draining) :
    Tasks sys worker (update thread g .done) remaining none := by
  have hfin : (thread g).Finished := by
    rw [hg]
    trivial
  have hblocked : thread g ≠ .blocked := by
    rw [hg]
    exact nofun
  refine ⟨fun k => (h.own k).update_finished hblocked hfin trivial, h.held, h.counts_update ?_,
    fun _ => .inl rfl, fun _ _ => h.opened g (.inl hg), fun t ht => ?_⟩
  · rw [hg]
    exact iff_of_false id id
  · exact h.blocked t (of_update ht nofun).2

end Tasks

end

end Sld.WorkerSlots
