/-
# `Order.Handover` — messages handed over through slots

Groups of input are split by tasks, each group into one message for every
consumer.  A consumer takes its messages in the order of the groups.  There
is a slot for each group and consumer, where the two meet: whoever comes
second finds what the first has left there, the message or the waiting
consumer.

When nothing runs any more, no error has come up and one consumer is
finished, then all of them are, and each has received the messages of all
groups in order (`State.Inv.finished_of_ended`).  No order of the steps
makes a difference.  If no group and no message fails, such an end can be
reached from everywhere (`exists_ended`).
-/
import Mathlib.Data.Fintype.Card

namespace Sld.Handover

open Function (forall_update_iff update update_of_ne update_self)

universe u v w

/-- What is split, and what the consumers make of it. -/
structure System (ε : Type u) (σ : Type v) (β : Type w) (K : ℕ) where
  groups : ℕ
  groups_pos : 0 < groups
  split : ℕ → Except ε (Fin K → σ)
  start : Fin K → β
  receive : Fin K → β → σ → Except ε β

/-- A consumer carries the number of its next group. -/
inductive Slot (σ : Type v) (β : Type w) where
  | empty
  | waiting (consumer : ℕ × β)
  | filled (message : σ)

structure State (ε : Type u) (σ : Type v) (β : Type w) (K : ℕ) where
  popped : ℕ
  /-- The consumers that the task of a group is done with. -/
  handed : ℕ → ℕ
  slot : ℕ → Fin K → Slot σ β
  running : Fin K → Option (ℕ × β)
  finished : List (Fin K × β)
  errors : List ε

variable {ε : Type u} {σ : Type v} {β : Type w} {K : ℕ}

namespace State

variable (s : State ε σ β K)

def setSlot (g : ℕ) (i : Fin K) (content : Slot σ β) : ℕ → Fin K → Slot σ β :=
  Function.update s.slot g (Function.update (s.slot g) i content)

/-- The consumers that run once somebody looks at a slot. -/
def wake (i : Fin K) : Slot σ β → Fin K → Option (ℕ × β)
  | .waiting consumer => Function.update s.running i (some consumer)
  | _ => s.running

/-- A task swaps its message into a slot. -/
def store (g : ℕ) (i : Fin K) (message : σ) : State ε σ β K :=
  { s with
    handed := Function.update s.handed g (i + 1)
    slot := s.setSlot g i (.filled message)
    running := s.wake i (s.slot g i) }

/-- One turn of a running consumer. -/
def work (sys : System ε σ β K) (i : Fin K) (consumer : ℕ × β) : State ε σ β K :=
  if consumer.1 < sys.groups then
    match s.slot consumer.1 i with
    | .filled message =>
      match sys.receive i consumer.2 message with
      | .ok b =>
        { s with
          slot := s.setSlot consumer.1 i .empty
          running := Function.update s.running i (some (consumer.1 + 1, b)) }
      | .error e =>
        { s with
          slot := s.setSlot consumer.1 i .empty
          running := Function.update s.running i none
          errors := s.errors ++ [e] }
    | _ =>
      { s with
        slot := s.setSlot consumer.1 i (.waiting consumer)
        running := Function.update s.running i none }
  else
    { s with
      running := Function.update s.running i none
      finished := s.finished ++ [(i, consumer.2)] }

/-- No task and no consumer runs. -/
structure Ended : Prop where
  consumers : ∀ i, s.running i = none
  tasks : ∀ g < s.popped, s.handed g = K

end State

namespace System

variable (sys : System ε σ β K)

def initial : State ε σ β K where
  popped := 0
  handed _ := 0
  slot g i := if g = 0 then .waiting (0, sys.start i) else .empty
  running _ := none
  finished := []
  errors := []

inductive Step : State ε σ β K → State ε σ β K → Prop
  | pop {s : State ε σ β K} : s.popped < sys.groups → Step s { s with popped := s.popped + 1 }
  | splitFailed {s : State ε σ β K} {g : ℕ} {e : ε} : g < s.popped → s.handed g = 0 →
      sys.split g = .error e →
      Step s { s with handed := Function.update s.handed g K, errors := s.errors ++ [e] }
  | store {s : State ε σ β K} {g : ℕ} {messages : Fin K → σ} {i : Fin K} : g < s.popped →
      sys.split g = .ok messages → s.handed g = i → Step s (s.store g i (messages i))
  | work {s : State ε σ β K} {i : Fin K} {consumer : ℕ × β} : s.running i = some consumer →
      Step s (s.work sys i consumer)

def Reachable (s : State ε σ β K) : Prop := Relation.ReflTransGen sys.Step sys.initial s

/-- A consumer after the messages of the first groups. -/
def received (i : Fin K) : ℕ → Except ε β
  | 0 => .ok (sys.start i)
  | n + 1 =>
    match received i n, sys.split n with
    | .ok b, .ok messages => sys.receive i b (messages i)
    | .error e, _ => .error e
    | _, .error e => .error e

theorem received_succ {i : Fin K} {n : ℕ} {b : β} {messages : Fin K → σ}
    (hb : sys.received i n = .ok b) (hsplit : sys.split n = .ok messages) :
    sys.received i (n + 1) = sys.receive i b (messages i) := by
  rw [received, hb, hsplit]

end System

/-! ## Where a consumer is -/

section

variable (sys : System ε σ β K) (s : State ε σ β K)

inductive Place (i : Fin K) (n : ℕ) (b : β) : Prop
  | running : s.running i = some (n, b) → (∀ b', (i, b') ∉ s.finished) → Place i n b
  | waiting : s.running i = none → s.slot n i = .waiting (n, b) → n < sys.groups →
      (∀ b', (i, b') ∉ s.finished) → Place i n b
  | finished : s.running i = none → n = sys.groups → (∀ b', (i, b') ∈ s.finished ↔ b' = b) →
      Place i n b

/-- A consumer has received the messages before its next one, and its slots
hold the messages after. -/
structure Column (i : Fin K) (n : ℕ) (b : β) : Prop where
  received : sys.received i n = .ok b
  le : n ≤ sys.groups
  handed : ∀ g < n, i < s.handed g
  place : Place sys s i n b
  filled : ∀ g m, s.slot g i = .filled m →
    n ≤ g ∧ i < s.handed g ∧ ∃ messages, sys.split g = .ok messages ∧ messages i = m
  stored : ∀ g, n ≤ g → i < s.handed g → ∃ m, s.slot g i = .filled m
  waits : ∀ g consumer, s.slot g i = .waiting consumer →
    g = n ∧ consumer = (n, b) ∧ s.running i = none ∧ n < sys.groups ∧
      ∀ b', (i, b') ∉ s.finished

/-- What holds at any time, as long as there is no error. -/
structure State.Inv : Prop where
  popped : s.popped ≤ sys.groups
  handed : ∀ g, s.handed g ≤ K
  unpopped : ∀ g, s.popped ≤ g → s.handed g = 0
  split : ∀ g, 0 < s.handed g → ∃ messages, sys.split g = .ok messages
  nodup : (s.finished.map Prod.fst).Nodup
  column : ∀ i, ∃ n b, Column sys s i n b

variable {sys : System ε σ β K} {s s' : State ε σ β K}

theorem State.setSlot_apply (g g' : ℕ) (i j : Fin K) (content : Slot σ β) :
    s.setSlot g i content g' j = if g' = g ∧ j = i then content else s.slot g' j := by
  unfold State.setSlot
  by_cases hg : g' = g
  · subst hg
    by_cases hj : j = i
    · subst hj
      simp
    · simp [hj]
  · simp [hg]

variable {i : Fin K}

theorem State.wake_of_ne {j : Fin K} {content : Slot σ β} (h : j ≠ i) :
    s.wake i content j = s.running j := by
  cases content with
  | waiting consumer => exact update_of_ne h _ _
  | empty | filled _ => rfl

variable {b : β} {n : ℕ}

theorem Column.congr {j : Fin K} (h : Column sys s j n b)
    (hrunning : s'.running j = s.running j) (hslot : ∀ g, s'.slot g j = s.slot g j)
    (hfinished : ∀ b', (j, b') ∈ s'.finished ↔ (j, b') ∈ s.finished)
    (hhanded : ∀ g, j < s'.handed g ↔ j < s.handed g) : Column sys s' j n b where
  received := h.received
  le := h.le
  handed g hg := (hhanded g).mpr (h.handed g hg)
  place := by
    cases h.place with
    | running hrun hnot =>
      exact .running (hrunning.trans hrun) fun b' hb' => hnot b' ((hfinished b').mp hb')
    | waiting hrun hwaits hn hnot =>
      exact .waiting (hrunning.trans hrun) ((hslot n).trans hwaits) hn
        fun b' hb' => hnot b' ((hfinished b').mp hb')
    | finished hrun hn hfin =>
      exact .finished (hrunning.trans hrun) hn fun b' => (hfinished b').trans (hfin b')
  filled g m hm := by
    obtain ⟨hn, hi, hmessages⟩ := h.filled g m ((hslot g).symm.trans hm)
    exact ⟨hn, (hhanded g).mpr hi, hmessages⟩
  stored g hn hi := by
    obtain ⟨m, hm⟩ := h.stored g hn ((hhanded g).mp hi)
    exact ⟨m, (hslot g).trans hm⟩
  waits g consumer hwaits := by
    obtain ⟨hg, hconsumer, hrun, hn, hnot⟩ := h.waits g consumer ((hslot g).symm.trans hwaits)
    exact ⟨hg, hconsumer, hrunning.trans hrun, hn, fun b' hb' => hnot b' ((hfinished b').mp hb')⟩

/-! ## The steps keep the invariant -/

theorem initial_slot (g : ℕ) (i : Fin K) :
    sys.initial.slot g i = if g = 0 then .waiting (0, sys.start i) else .empty := rfl

theorem inv_initial : State.Inv sys sys.initial where
  popped := Nat.zero_le _
  handed _ := Nat.zero_le _
  unpopped _ _ := rfl
  split _ h := absurd h (Nat.lt_irrefl 0)
  nodup := List.nodup_nil
  column i := by
    refine ⟨0, sys.start i, rfl, Nat.zero_le _, fun g hg => absurd hg (Nat.not_lt_zero g),
      .waiting rfl rfl sys.groups_pos fun _ h => absurd h List.not_mem_nil, ?_, ?_, ?_⟩
    · intro g m hm
      by_cases hg : g = 0
      · rw [initial_slot, if_pos hg] at hm
        cases hm
      · rw [initial_slot, if_neg hg] at hm
        cases hm
    · intro g _ hi
      exact absurd hi (Nat.not_lt_zero _)
    · intro g consumer hwaits
      by_cases hg : g = 0
      · rw [initial_slot, if_pos hg] at hwaits
        cases hwaits
        exact ⟨hg, rfl, rfl, sys.groups_pos, fun _ h => absurd h List.not_mem_nil⟩
      · rw [initial_slot, if_neg hg] at hwaits
        cases hwaits

theorem State.Inv.pop (h : State.Inv sys s) (hpopped : s.popped < sys.groups) :
    State.Inv sys { s with popped := s.popped + 1 } where
  popped := hpopped
  handed := h.handed
  unpopped g hg := h.unpopped g (Nat.le_of_succ_le hg)
  split := h.split
  nodup := h.nodup
  column i := by
    obtain ⟨n, b, hcolumn⟩ := h.column i
    exact ⟨n, b, hcolumn.congr rfl (fun _ => rfl) (fun _ => Iff.rfl) fun _ => Iff.rfl⟩

variable {g : ℕ} {messages : Fin K → σ}

theorem Column.store
    (h : Column sys s i n b) (hsplit : sys.split g = .ok messages) (hhanded : s.handed g = i) :
    Column sys (s.store g i (messages i)) i n b := by
  have hnot : ¬ (i : ℕ) < s.handed g := by omega
  have hn : n ≤ g := by
    by_contra hlt
    exact hnot (h.handed g (Nat.lt_of_not_le hlt))
  have hslot : ∀ g', (s.store g i (messages i)).slot g' i =
      if g' = g then .filled (messages i) else s.slot g' i := by
    intro g'
    show s.setSlot g i _ g' i = _
    rw [State.setSlot_apply]
    simp only [and_true]
  have hless : ∀ g', (i : ℕ) < (s.store g i (messages i)).handed g' ↔
      g' = g ∨ (i : ℕ) < s.handed g' := by
    intro g'
    show (i : ℕ) < update s.handed g (i + 1) g' ↔ _
    by_cases hg : g' = g
    · subst hg
      rw [update_self]
      exact iff_of_true (Nat.lt_succ_self _) (.inl rfl)
    · rw [update_of_ne hg]
      exact ⟨.inr, fun h => h.resolve_left hg⟩
  refine ⟨h.received, h.le, fun g' hg' => (hless g').mpr (.inr (h.handed g' hg')), ?_, ?_, ?_, ?_⟩
  · cases hcont : s.slot g i with
    | waiting consumer =>
      obtain ⟨rfl, rfl, -, -, hfin⟩ := h.waits g consumer hcont
      refine .running ?_ hfin
      show s.wake i (s.slot g i) i = _
      rw [hcont]
      exact update_self ..
    | empty | filled _ =>
      have hrun : (s.store g i (messages i)).running i = s.running i := by
        show s.wake i (s.slot g i) i = _
        rw [hcont]
        rfl
      cases h.place with
      | running hrunning hfin => exact .running (hrun.trans hrunning) hfin
      | waiting hrunning hwaits hlt hfin =>
        have hne : n ≠ g := by
          rintro rfl
          rw [hcont] at hwaits
          cases hwaits
        exact .waiting (hrun.trans hrunning) ((hslot n).trans ((if_neg hne).trans hwaits)) hlt hfin
      | finished hrunning hend hfin => exact .finished (hrun.trans hrunning) hend hfin
  · intro g' m hm
    rw [hslot] at hm
    by_cases hg : g' = g
    · rw [if_pos hg] at hm
      cases hm
      subst hg
      exact ⟨hn, (hless _).mpr (.inl rfl), messages, hsplit, rfl⟩
    · rw [if_neg hg] at hm
      obtain ⟨hle, hlt, hmessages⟩ := h.filled g' m hm
      exact ⟨hle, (hless _).mpr (.inr hlt), hmessages⟩
  · intro g' hle hlt
    by_cases hg : g' = g
    · exact ⟨_, (hslot g').trans (if_pos hg)⟩
    · obtain ⟨m, hm⟩ := h.stored g' hle (((hless g').mp hlt).resolve_left hg)
      exact ⟨m, (hslot g').trans ((if_neg hg).trans hm)⟩
  · intro g' consumer hwaits
    rw [hslot] at hwaits
    by_cases hg : g' = g
    · rw [if_pos hg] at hwaits
      cases hwaits
    · rw [if_neg hg] at hwaits
      obtain ⟨rfl, hconsumer, hrun, hlt, hfin⟩ := h.waits g' consumer hwaits
      refine ⟨rfl, hconsumer, ?_, hlt, hfin⟩
      show s.wake i (s.slot g i) i = _
      cases hcont : s.slot g i with
      | waiting other =>
        exact absurd (h.waits g other hcont).1.symm hg
      | empty | filled _ => exact hrun

theorem State.Inv.store (h : State.Inv sys s)
    (hpopped : g < s.popped) (hsplit : sys.split g = .ok messages) (hhanded : s.handed g = i) :
    State.Inv sys (s.store g i (messages i)) where
  popped := h.popped
  handed := (forall_update_iff s.handed fun _ handed => handed ≤ K).mpr
    ⟨i.isLt, fun g' _ => h.handed g'⟩
  unpopped g' hg' := by
    have hg : g' ≠ g := by
      rintro rfl
      exact absurd hg' (Nat.not_le.mpr hpopped)
    show update s.handed g (i + 1) g' = 0
    rw [update_of_ne hg]
    exact h.unpopped g' hg'
  split g' hg' := by
    by_cases hg : g' = g
    · subst hg
      exact ⟨messages, hsplit⟩
    · have heq : (s.store g i (messages i)).handed g' = s.handed g' := update_of_ne hg _ _
      exact h.split g' (heq ▸ hg')
  nodup := h.nodup
  column j := by
    obtain ⟨n, b, hcolumn⟩ := h.column j
    refine ⟨n, b, ?_⟩
    by_cases hj : j = i
    · subst hj
      exact hcolumn.store hsplit hhanded
    · refine hcolumn.congr (State.wake_of_ne hj) (fun g' => ?_) (fun _ => Iff.rfl) fun g' => ?_
      · show s.setSlot g i _ g' j = _
        rw [State.setSlot_apply, if_neg fun hboth => hj hboth.2]
      · show (j : ℕ) < update s.handed g (i + 1) g' ↔ _
        by_cases hg : g' = g
        · subst hg
          rw [update_self]
          omega
        · rw [update_of_ne hg]

theorem Column.of_running {consumer : ℕ × β}
    (h : Column sys s i n b) (hrunning : s.running i = some consumer) :
    consumer = (n, b) ∧ ∀ b', (i, b') ∉ s.finished := by
  cases h.place with
  | running hrun hfin => exact ⟨Option.some.inj (hrunning.symm.trans hrun), hfin⟩
  | waiting hrun _ _ _ | finished hrun _ _ =>
    rw [hrunning] at hrun
    cases hrun

theorem Column.receive {b' : β} {m : σ} (h : Column sys s i n b)
    (hlt : n < sys.groups) (hslot : s.slot n i = .filled m) (hreceive : sys.receive i b m = .ok b')
    (hfin : ∀ b', (i, b') ∉ s.finished) :
    Column sys { s with
      slot := s.setSlot n i .empty
      running := update s.running i (some (n + 1, b')) } i (n + 1) b' := by
  obtain ⟨-, hhanded, messages, hsplit, rfl⟩ := h.filled n m hslot
  have hset : ∀ g, s.setSlot n i .empty g i = if g = n then .empty else s.slot g i := by
    intro g
    rw [State.setSlot_apply]
    simp only [and_true]
  refine ⟨(sys.received_succ h.received hsplit).trans hreceive, hlt, ?_,
    .running (update_self ..) hfin, ?_, ?_, ?_⟩
  · intro g hg
    rcases Nat.lt_succ_iff_lt_or_eq.mp hg with hg | rfl
    · exact h.handed g hg
    · exact hhanded
  · intro g m' hm'
    simp only [hset] at hm'
    by_cases hg : g = n
    · rw [if_pos hg] at hm'
      cases hm'
    · rw [if_neg hg] at hm'
      obtain ⟨hle, hrest⟩ := h.filled g m' hm'
      exact ⟨by omega, hrest⟩
  · intro g hle hlt'
    obtain ⟨m', hm'⟩ := h.stored g (Nat.le_of_succ_le hle) hlt'
    have hg : g ≠ n := by omega
    exact ⟨m', (hset g).trans ((if_neg hg).trans hm')⟩
  · intro g consumer hwaits
    simp only [hset] at hwaits
    by_cases hg : g = n
    · rw [if_pos hg] at hwaits
      cases hwaits
    · rw [if_neg hg] at hwaits
      exact absurd (h.waits g consumer hwaits).1 hg

theorem Column.wait (h : Column sys s i n b) (hlt : n < sys.groups)
    (hslot : ∀ m, s.slot n i ≠ .filled m) (hfin : ∀ b', (i, b') ∉ s.finished) :
    Column sys { s with
      slot := s.setSlot n i (.waiting (n, b))
      running := update s.running i none } i n b := by
  have hset : ∀ g, s.setSlot n i (.waiting (n, b)) g i =
      if g = n then .waiting (n, b) else s.slot g i := by
    intro g
    rw [State.setSlot_apply]
    simp only [and_true]
  refine ⟨h.received, h.le, h.handed,
    .waiting (update_self ..) ((hset n).trans (if_pos rfl)) hlt hfin, ?_, ?_, ?_⟩
  · intro g m hm
    simp only [hset] at hm
    by_cases hg : g = n
    · rw [if_pos hg] at hm
      cases hm
    · rw [if_neg hg] at hm
      exact h.filled g m hm
  · intro g hle hhanded
    obtain ⟨m, hm⟩ := h.stored g hle hhanded
    have hg : g ≠ n := by
      rintro rfl
      exact hslot m hm
    exact ⟨m, (hset g).trans ((if_neg hg).trans hm)⟩
  · intro g consumer hwaits
    simp only [hset] at hwaits
    by_cases hg : g = n
    · rw [if_pos hg] at hwaits
      cases hwaits
      exact ⟨hg, rfl, update_self .., hlt, hfin⟩
    · rw [if_neg hg] at hwaits
      exact absurd (h.waits g consumer hwaits).1 hg

theorem Column.finish (h : Column sys s i n b)
    (hend : ¬ n < sys.groups) (hrunning : s.running i = some (n, b))
    (hfin : ∀ b', (i, b') ∉ s.finished) :
    Column sys { s with
      running := update s.running i none
      finished := s.finished ++ [(i, b)] } i n b := by
  refine ⟨h.received, h.le, h.handed,
    .finished (update_self ..) (Nat.le_antisymm h.le (Nat.not_lt.mp hend)) fun b' => ?_,
    h.filled, h.stored, fun g consumer hwaits => ?_⟩
  · rw [List.mem_append, List.mem_singleton, Prod.mk.injEq]
    exact ⟨fun hmem => (hmem.resolve_left (hfin b')).2, fun heq => .inr ⟨rfl, heq⟩⟩
  · obtain ⟨-, -, hrun, -⟩ := h.waits g consumer hwaits
    rw [hrunning] at hrun
    cases hrun

theorem work_cases (herrors : (s.work sys i (n, b)).errors = []) :
    (∃ m b', n < sys.groups ∧ s.slot n i = .filled m ∧ sys.receive i b m = .ok b' ∧
      s.work sys i (n, b) = { s with
        slot := s.setSlot n i .empty
        running := update s.running i (some (n + 1, b')) }) ∨
    (n < sys.groups ∧ (∀ m, s.slot n i ≠ .filled m) ∧ s.work sys i (n, b) = { s with
        slot := s.setSlot n i (.waiting (n, b))
        running := update s.running i none }) ∨
    (¬ n < sys.groups ∧ s.work sys i (n, b) = { s with
        running := update s.running i none
        finished := s.finished ++ [(i, b)] }) := by
  by_cases hlt : n < sys.groups
  · cases hslot : s.slot n i with
    | filled m =>
      cases hreceive : sys.receive i b m with
      | ok b' =>
        exact .inl ⟨m, b', hlt, rfl, hreceive, by
          simp only [State.work, hlt, if_true, hslot, hreceive]⟩
      | error e =>
        simp only [State.work, hlt, if_true, hslot, hreceive] at herrors
        exact absurd herrors (List.concat_ne_nil e s.errors)
    | empty | waiting _ =>
      refine .inr (.inl ⟨hlt, fun m hm => ?_, ?_⟩)
      · cases hm
      · simp only [State.work, hlt, if_true, hslot]
  · exact .inr (.inr ⟨hlt, by rw [State.work, if_neg hlt]⟩)

theorem State.Inv.work {i : Fin K} {consumer : ℕ × β} (h : State.Inv sys s)
    (hrunning : s.running i = some consumer)
    (herrors : (s.work sys i consumer).errors = []) : State.Inv sys (s.work sys i consumer) := by
  obtain ⟨n, b, hcolumn⟩ := h.column i
  obtain ⟨rfl, hfin⟩ := hcolumn.of_running hrunning
  have hother : ∀ j ≠ i, ∀ content g, s.setSlot n i content g j = s.slot g j := by
    intro j hj content g
    rw [State.setSlot_apply, if_neg fun hboth => hj hboth.2]
  have hinv : ∀ {content next n' b'}, Column sys { s with
      slot := s.setSlot n i content
      running := update s.running i next } i n' b' → State.Inv sys { s with
      slot := s.setSlot n i content
      running := update s.running i next } := fun hcolumn' => by
    refine ⟨h.popped, h.handed, h.unpopped, h.split, h.nodup, fun j => ?_⟩
    by_cases hj : j = i
    · subst hj
      exact ⟨_, _, hcolumn'⟩
    · obtain ⟨n', b'', hcolumn'⟩ := h.column j
      exact ⟨n', b'', hcolumn'.congr (update_of_ne hj ..) (hother j hj _)
        (fun _ => Iff.rfl) fun _ => Iff.rfl⟩
  rcases work_cases herrors with ⟨m, b', hlt, hslot, hreceive, heq⟩ | ⟨hlt, hslot, heq⟩ | ⟨hend, heq⟩
  · rw [heq]
    exact hinv (hcolumn.receive hlt hslot hreceive hfin)
  · rw [heq]
    exact hinv (hcolumn.wait hlt hslot hfin)
  · rw [heq]
    refine ⟨h.popped, h.handed, h.unpopped, h.split, ?_, fun j => ?_⟩
    · rw [List.map_append, List.nodup_append]
      refine ⟨h.nodup, List.nodup_singleton i, ?_⟩
      rintro j hmem i' hi' rfl
      obtain rfl := List.mem_singleton.mp hi'
      obtain ⟨⟨_, b'⟩, hin, rfl⟩ := List.mem_map.mp hmem
      exact hfin b' hin
    · by_cases hj : j = i
      · subst hj
        exact ⟨_, _, hcolumn.finish hend hrunning hfin⟩
      · obtain ⟨n', b'', hcolumn'⟩ := h.column j
        refine ⟨n', b'', hcolumn'.congr (update_of_ne hj ..) (fun _ => rfl)
          (fun b₁ => ?_) fun _ => Iff.rfl⟩
        rw [List.mem_append, List.mem_singleton, Prod.mk.injEq]
        exact ⟨fun hmem => hmem.resolve_right fun heq => hj heq.1, .inl⟩

theorem errors_work (s : State ε σ β K) (i : Fin K) (consumer : ℕ × β) :
    s.errors <+: (s.work sys i consumer).errors := by
  unfold State.work
  split
  · split
    · split
      · exact List.prefix_refl _
      · exact List.prefix_append _ _
    · exact List.prefix_refl _
  · exact List.prefix_refl _

theorem errors_of_step (h : sys.Step s s') : s.errors <+: s'.errors := by
  cases h with
  | pop _ => exact List.prefix_refl _
  | splitFailed _ _ _ => exact List.prefix_append _ _
  | store _ _ _ => exact List.prefix_refl _
  | work _ => exact errors_work ..

theorem State.Inv.step (h : State.Inv sys s) (hstep : sys.Step s s') (herrors : s'.errors = []) :
    State.Inv sys s' := by
  cases hstep with
  | pop hpopped => exact h.pop hpopped
  | splitFailed _ _ _ => exact absurd herrors (List.concat_ne_nil _ _)
  | store hpopped hsplit hhanded => exact h.store hpopped hsplit hhanded
  | work hrunning => exact h.work hrunning herrors

theorem State.Inv.steps (h : State.Inv sys s) (hsteps : Relation.ReflTransGen sys.Step s s')
    (herrors : s'.errors = []) : State.Inv sys s' := by
  induction hsteps with
  | refl => exact h
  | tail _ hstep ih =>
    refine (ih ?_).step hstep herrors
    exact List.prefix_nil.mp (herrors ▸ errors_of_step hstep)

theorem inv_of_reachable (h : sys.Reachable s) (herrors : s.errors = []) : State.Inv sys s :=
  inv_initial.steps h herrors

/-! ## The end -/

theorem Column.finished_of_handed (h : Column sys s i n b)
    (hrunning : s.running i = none) (hhanded : ∀ g < sys.groups, s.handed g = K) :
    n = sys.groups ∧ ∀ b', (i, b') ∈ s.finished ↔ b' = b := by
  cases h.place with
  | running hrun _ =>
    rw [hrunning] at hrun
    cases hrun
  | waiting _ hwaits hlt _ =>
    have hi : (i : ℕ) < s.handed n := i.isLt.trans_eq (hhanded n hlt).symm
    obtain ⟨m, hm⟩ := h.stored n (Nat.le_refl n) hi
    rw [hwaits] at hm
    cases hm
  | finished _ hn hfin => exact ⟨hn, hfin⟩

theorem State.Inv.finished_of_ended (h : State.Inv sys s) (hended : s.Ended)
    (hsome : s.finished ≠ []) :
    (∀ g < sys.groups, ∃ messages, sys.split g = .ok messages) ∧
      ∃ final : Fin K → β, (∀ i, sys.received i sys.groups = .ok (final i)) ∧
        s.finished.Perm (List.ofFn fun i => (i, final i)) := by
  obtain ⟨⟨first, b₀⟩, hfirst⟩ := List.exists_mem_of_ne_nil _ hsome
  -- the first to finish has seen the messages of all groups
  have hall : ∀ g < sys.groups, (first : ℕ) < s.handed g := by
    obtain ⟨n, b, hcolumn⟩ := h.column first
    cases hcolumn.place with
    | running _ hfin | waiting _ _ _ hfin => exact absurd hfirst (hfin b₀)
    | finished _ hn _ => exact fun g hg => hcolumn.handed g (hn ▸ hg)
  have hhanded : ∀ g < sys.groups, s.handed g = K := by
    intro g hg
    refine hended.tasks g ?_
    by_contra hpopped
    have hzero := h.unpopped g (Nat.not_lt.mp hpopped)
    have := hall g hg
    omega
  have hcolumns : ∀ i, ∃ b, sys.received i sys.groups = .ok b ∧
      ∀ b', (i, b') ∈ s.finished ↔ b' = b := by
    intro i
    obtain ⟨n, b, hcolumn⟩ := h.column i
    obtain ⟨rfl, hfin⟩ := hcolumn.finished_of_handed (hended.consumers i) hhanded
    exact ⟨b, hcolumn.received, hfin⟩
  choose final hreceived hfin using hcolumns
  refine ⟨fun g hg => h.split g (Nat.zero_lt_of_lt (hall g hg)), final, hreceived, ?_⟩
  refine (List.perm_ext_iff_of_nodup h.nodup.of_map ?_).mpr fun entry => ?_
  · exact List.nodup_ofFn.mpr fun i j hij => congrArg Prod.fst hij
  · obtain ⟨i, b⟩ := entry
    rw [hfin, List.mem_ofFn]
    constructor
    · rintro rfl
      exact ⟨i, rfl⟩
    · rintro ⟨j, hj⟩
      obtain ⟨rfl, rfl⟩ := Prod.mk.inj hj
      rfl

/-! ## The end can be reached -/

theorem State.Inv.exists_handed (h : State.Inv sys s)
    (herrors : s.errors = []) (hpopped : g < s.popped) (hsplit : sys.split g = .ok messages) :
    ∃ s', Relation.ReflTransGen sys.Step s s' ∧ s'.errors = [] ∧ s'.popped = s.popped ∧
      s'.handed g = K ∧ ∀ g' ≠ g, s'.handed g' = s.handed g' := by
  induction hrest : K - s.handed g generalizing s with
  | zero =>
    have hle := h.handed g
    exact ⟨s, .refl, herrors, rfl, by omega, fun _ _ => rfl⟩
  | succ rest ih =>
    have hlt : s.handed g < K := by omega
    have hstep := System.Step.store hpopped hsplit (i := ⟨s.handed g, hlt⟩) rfl
    have hnext : (s.store g ⟨s.handed g, hlt⟩ (messages ⟨s.handed g, hlt⟩)).handed g =
        s.handed g + 1 := update_self ..
    obtain ⟨s', hsteps, herrors', hpopped', hhanded, hothers⟩ :=
      ih (h.step hstep herrors) herrors hpopped (by omega)
    refine ⟨s', .head hstep hsteps, herrors', hpopped', hhanded, fun g' hg' => ?_⟩
    exact (hothers g' hg').trans (update_of_ne hg' ..)

theorem State.Inv.exists_all_handed (h : State.Inv sys s) (herrors : s.errors = [])
    (hsplit : ∀ g < sys.groups, ∃ messages, sys.split g = .ok messages) :
    ∀ count ≤ sys.groups, ∃ s', Relation.ReflTransGen sys.Step s s' ∧ s'.errors = [] ∧
      count ≤ s'.popped ∧ ∀ g < count, s'.handed g = K := by
  intro count
  induction count with
  | zero =>
    intro _
    exact ⟨s, .refl, herrors, Nat.zero_le _, fun g hg => absurd hg (Nat.not_lt_zero g)⟩
  | succ count ih =>
    intro hcount
    obtain ⟨s₁, hsteps₁, herrors₁, hpopped₁, hhanded₁⟩ := ih (Nat.le_of_succ_le hcount)
    have h₁ := h.steps hsteps₁ herrors₁
    obtain ⟨messages, hmessages⟩ := hsplit count hcount
    -- the group is popped now, unless it has been before
    have hpop : ∃ s₂, Relation.ReflTransGen sys.Step s₁ s₂ ∧ s₂.errors = [] ∧
        count < s₂.popped ∧ s₂.handed = s₁.handed := by
      rcases Nat.lt_or_ge count s₁.popped with hlt | hge
      · exact ⟨s₁, .refl, herrors₁, hlt, rfl⟩
      · refine ⟨_, .single (.pop (Nat.lt_of_le_of_lt hge hcount)), herrors₁, ?_, rfl⟩
        exact Nat.lt_succ_of_le hpopped₁
    obtain ⟨s₂, hsteps₂, herrors₂, hpopped₂, hhanded₂⟩ := hpop
    obtain ⟨s₃, hsteps₃, herrors₃, hpopped₃, hhanded₃, hothers⟩ :=
      (h₁.steps hsteps₂ herrors₂).exists_handed herrors₂ hpopped₂ hmessages
    refine ⟨s₃, (hsteps₁.trans hsteps₂).trans hsteps₃, herrors₃, by omega, fun g hg => ?_⟩
    by_cases hlast : g = count
    · exact hlast ▸ hhanded₃
    · rw [hothers g hlast, hhanded₂]
      exact hhanded₁ g (by omega)

theorem State.Inv.exists_finished (h : State.Inv sys s) (herrors : s.errors = [])
    (hhanded : ∀ g < sys.groups, s.handed g = K)
    (hreceived : ∀ n ≤ sys.groups, ∃ b, sys.received i n = .ok b) :
    ∃ s', Relation.ReflTransGen sys.Step s s' ∧ s'.errors = [] ∧ s'.popped = s.popped ∧
      s'.handed = s.handed ∧ s.finished ⊆ s'.finished ∧ ∃ b, (i, b) ∈ s'.finished := by
  obtain ⟨n, b, hcolumn⟩ := h.column i
  induction hrest : sys.groups - n generalizing s n b with
  | zero =>
    have hn : n = sys.groups := Nat.le_antisymm hcolumn.le (Nat.le_of_sub_eq_zero hrest)
    cases hcolumn.place with
    | running hrunning _ =>
      have hwork : s.work sys i (n, b) = { s with
          running := update s.running i none
          finished := s.finished ++ [(i, b)] } := by
        rw [State.work, if_neg (by simp only; omega)]
      have hstep := @System.Step.work _ _ _ _ sys _ _ _ hrunning
      rw [hwork] at hstep
      exact ⟨_, .single hstep, herrors, rfl, rfl, List.subset_append_left _ _, b,
        List.mem_append_right _ (List.mem_singleton_self _)⟩
    | waiting _ _ hlt _ => omega
    | finished _ _ hfin =>
      exact ⟨s, .refl, herrors, rfl, rfl, List.Subset.refl _, b, (hfin b).mpr rfl⟩
  | succ rest ih =>
    have hlt : n < sys.groups := by omega
    have hi : (i : ℕ) < s.handed n := i.isLt.trans_eq (hhanded n hlt).symm
    obtain ⟨m, hm⟩ := hcolumn.stored n (Nat.le_refl n) hi
    cases hcolumn.place with
    | running hrunning hfin =>
      obtain ⟨-, -, messages, hsplit, rfl⟩ := hcolumn.filled n m hm
      obtain ⟨b', hb'⟩ := hreceived (n + 1) hlt
      rw [sys.received_succ hcolumn.received hsplit] at hb'
      have hwork : s.work sys i (n, b) = { s with
          slot := s.setSlot n i .empty
          running := update s.running i (some (n + 1, b')) } := by
        simp only [State.work, hlt, if_true, hm, hb']
      have hstep := @System.Step.work _ _ _ _ sys _ _ _ hrunning
      rw [hwork] at hstep
      obtain ⟨s', hsteps, herrors', hpopped, hhanded', hsub, hend⟩ :=
        ih (h.step hstep herrors) herrors hhanded (n + 1) b'
          (hcolumn.receive hlt hm hb' hfin) (by omega)
      exact ⟨s', .head hstep hsteps, herrors', hpopped, hhanded', hsub, hend⟩
    | waiting _ hwaits _ _ =>
      rw [hwaits] at hm
      cases hm
    | finished _ hn _ => omega

theorem exists_ended (hsplit : ∀ g < sys.groups, ∃ messages, sys.split g = .ok messages)
    (hreceived : ∀ i, ∀ n ≤ sys.groups, ∃ b, sys.received i n = .ok b) :
    ∃ s, sys.Reachable s ∧ s.errors = [] ∧ s.Ended ∧ s.finished.length = K := by
  obtain ⟨s₁, hsteps₁, herrors₁, hpopped₁, hhanded₁⟩ :=
    (@inv_initial ε σ β K sys).exists_all_handed rfl hsplit sys.groups (Nat.le_refl _)
  have h₁ := inv_of_reachable hsteps₁ herrors₁
  -- the consumers one after the other
  have hconsumers : ∀ consumers : List (Fin K), ∃ s₂, Relation.ReflTransGen sys.Step s₁ s₂ ∧
      s₂.errors = [] ∧ s₂.popped = s₁.popped ∧ s₂.handed = s₁.handed ∧
      ∀ i ∈ consumers, ∃ b, (i, b) ∈ s₂.finished := by
    intro consumers
    induction consumers with
    | nil => exact ⟨s₁, .refl, herrors₁, rfl, rfl, nofun⟩
    | cons i consumers ih =>
      obtain ⟨s₂, hsteps₂, herrors₂, hpopped₂, hhanded₂, hfin₂⟩ := ih
      obtain ⟨s₃, hsteps₃, herrors₃, hpopped₃, hhanded₃, hsub, hfin₃⟩ :=
        (h₁.steps hsteps₂ herrors₂).exists_finished (i := i) herrors₂
          (fun g hg => hhanded₂ ▸ hhanded₁ g hg) (hreceived i)
      refine ⟨s₃, hsteps₂.trans hsteps₃, herrors₃, hpopped₃.trans hpopped₂,
        hhanded₃.trans hhanded₂, fun j hj => ?_⟩
      rcases List.mem_cons.mp hj with rfl | hj
      · exact hfin₃
      · obtain ⟨b, hb⟩ := hfin₂ j hj
        exact ⟨b, hsub hb⟩
  obtain ⟨s₂, hsteps₂, herrors₂, hpopped₂, hhanded₂, hfin₂⟩ := hconsumers (List.finRange K)
  have h₂ := h₁.steps hsteps₂ herrors₂
  have hended : s₂.Ended := by
    refine ⟨fun i => ?_, fun g hg => ?_⟩
    · obtain ⟨b, hb⟩ := hfin₂ i (List.mem_finRange i)
      obtain ⟨n, b', hcolumn⟩ := h₂.column i
      cases hcolumn.place with
      | running _ hnot | waiting _ _ _ hnot => exact absurd hb (hnot b)
      | finished hrunning _ _ => exact hrunning
    · rw [hhanded₂]
      exact hhanded₁ g (Nat.lt_of_lt_of_le hg h₂.popped)
  refine ⟨s₂, hsteps₁.trans hsteps₂, herrors₂, hended, ?_⟩
  rcases Nat.eq_zero_or_pos K with rfl | hpos
  · exact List.length_eq_zero_iff.mpr (List.eq_nil_iff_forall_not_mem.mpr fun entry _ =>
      entry.1.elim0)
  · obtain ⟨b, hb⟩ := hfin₂ ⟨0, hpos⟩ (List.mem_finRange _)
    obtain ⟨-, final, -, hperm⟩ := h₂.finished_of_ended hended (List.ne_nil_of_mem hb)
    rw [hperm.length_eq, List.length_ofFn]

end

end Sld.Handover
