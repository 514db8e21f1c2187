/-
# `Order.WorkerRuns` — no item is lost or processed twice

    State.Items          every item sent is processed, queued or in its slot
    State.Ops            every operation owed is performed or pending
    turn_of_step         what a turn does to the shared data
    State.Inv.ended      at the end all workers are in their slots and all
                         items have been processed
    exists_step          until the end somebody can go on
-/
import Sld.Order.WorkerSlots

namespace Sld.WorkerSlots

open Function (forall_update_iff update update_of_ne update_self)
open List (cons_ne_nil count_append count_cons mem_append mem_cons mem_cons_of_mem mem_cons_self
  prefix_refl)

universe u v w x y

variable {G : Type u} {Op : Type v} {Item : Type w} {σ : Type x} {ε : Type y} [DecidableEq G]
  {sys : System G Op Item σ ε}

/-! ## Items -/

section

variable [DecidableEq Item]

/-- Where the items are that have been sent. -/
structure Items (sys : System G Op Item σ ε) (worker : G → Worker G Op Item) (slot : G → List Item)
    (sent processed : List Item) : Prop where
  counts : ∀ item, sent.count item = processed.count item
    + (worker (sys.owner item)).queue.count item + (slot (sys.owner item)).count item
  owner_queue : ∀ g, ∀ item ∈ (worker g).queue, sys.owner item = g
  owner_slot : ∀ g, ∀ item ∈ slot g, sys.owner item = g
  parked : ∀ g, worker g = .inSlot → slot g = []

namespace Items

variable {worker worker' : G → Worker G Op Item} {slot : G → List Item} {sent processed : List Item}
  {g : G} {item : Item}

omit [DecidableEq G] in
theorem initial : Items sys (fun _ => .absent) (fun _ => []) [] [] where
  counts _ := rfl
  owner_queue _ _ h := nomatch h
  owner_slot _ _ h := nomatch h
  parked _ _ := rfl

variable (h : Items sys worker slot sent processed)

include h

omit [DecidableEq G] in
/-- An item in a queue has been sent. -/
theorem mem_sent_of_queue (hitem : item ∈ (worker g).queue) : item ∈ sent := by
  have hcount := h.counts item
  rw [h.owner_queue g item hitem] at hcount
  have hpos := List.count_pos_iff.mpr hitem
  exact List.count_pos_iff.mp (by omega)

omit [DecidableEq G] in
theorem same (hqueue : ∀ g, (worker' g).queue = (worker g).queue)
    (hparked : ∀ g, worker' g = .inSlot → worker g = .inSlot ∨ slot g = []) :
    Items sys worker' slot sent processed where
  counts item := by
    rw [hqueue]
    exact h.counts item
  owner_queue g item hitem := h.owner_queue g item (hqueue g ▸ hitem)
  owner_slot := h.owner_slot
  parked g hg := (hparked g hg).elim (h.parked g) id

theorem same_update {worker₁ : Worker G Op Item} (hqueue : worker₁.queue = (worker g).queue)
    (hparked : worker₁ = .inSlot → slot g = []) :
    Items sys (update worker g worker₁) slot sent processed :=
  h.same ((forall_update_iff worker fun k w => w.queue = (worker k).queue).mpr
      ⟨hqueue, fun _ _ => rfl⟩)
    ((forall_update_iff worker fun k w => w = .inSlot → worker k = .inSlot ∨ slot k = []).mpr
      ⟨fun hk => .inr (hparked hk), fun _ _ => .inl⟩)

omit [DecidableEq G] in
/-- A worker sends an item to itself. -/
theorem push (howner : sys.owner item = g) (hself : (worker' g).queue = item :: (worker g).queue)
    (hqueue : ∀ k ≠ g, (worker' k).queue = (worker k).queue)
    (hparked : ∀ g, worker' g = .inSlot → worker g = .inSlot) :
    Items sys worker' slot (sent ++ [item]) processed where
  counts item' := by
    have hcount := h.counts item'
    rw [count_append, List.count_singleton]
    by_cases hg : sys.owner item' = g
    · rw [hg] at hcount ⊢
      rw [hself, count_cons]
      omega
    · have hne : ¬ item = item' := fun heq => hg (heq ▸ howner)
      rw [hqueue _ hg, hcount, if_neg (by simpa using hne)]
      omega
  owner_queue k item' hitem := by
    by_cases hk : k = g
    · subst hk
      rw [hself] at hitem
      rcases mem_cons.mp hitem with rfl | hitem
      · exact howner
      · exact h.owner_queue k item' hitem
    · rw [hqueue k hk] at hitem
      exact h.owner_queue k item' hitem
  owner_slot := h.owner_slot
  parked k hk := h.parked k (hparked k hk)

theorem deliver (howner : sys.owner item = g) (hqueue : ∀ k, (worker' k).queue = (worker k).queue)
    (hparked : ∀ k, worker' k = .inSlot → k ≠ g ∧ worker k = .inSlot) :
    Items sys worker' (update slot g (item :: slot g)) (sent ++ [item]) processed where
  counts item' := by
    have hcount := h.counts item'
    rw [count_append, List.count_singleton, hqueue]
    by_cases hg : sys.owner item' = g
    · rw [hg] at hcount ⊢
      rw [update_self, count_cons]
      omega
    · have hne : ¬ item = item' := fun heq => hg (heq ▸ howner)
      rw [update_of_ne hg, if_neg (by simpa using hne)]
      omega
  owner_queue k item' hitem := h.owner_queue k item' (hqueue k ▸ hitem)
  owner_slot := (forall_update_iff slot fun k items => ∀ item ∈ items, sys.owner item = k).mpr
    ⟨List.forall_mem_cons.mpr ⟨howner, h.owner_slot g⟩, fun k _ => h.owner_slot k⟩
  parked k hk := by
    obtain ⟨hne, hk⟩ := hparked k hk
    rw [update_of_ne hne]
    exact h.parked k hk

theorem pop {queue : List Item} (hg : (worker g).queue = item :: queue) {worker₁ : Worker G Op Item}
    (hqueue : worker₁.queue = queue) (hparked : worker₁ ≠ .inSlot) :
    Items sys (update worker g worker₁) slot sent (processed ++ [item]) where
  counts item' := by
    have hcount := h.counts item'
    rw [count_append, List.count_singleton]
    by_cases hk : sys.owner item' = g
    · rw [hk] at hcount ⊢
      rw [hg, count_cons] at hcount
      rw [update_self, hqueue]
      omega
    · have howner : sys.owner item = g := h.owner_queue g item (hg ▸ mem_cons_self)
      have hne : ¬ item = item' := fun heq => hk (heq ▸ howner)
      rw [update_of_ne hk, if_neg (by simpa using hne)]
      omega
  owner_queue := by
    refine (forall_update_iff worker fun k w => ∀ item ∈ w.queue, sys.owner item = k).mpr
      ⟨fun item' hitem => ?_, fun k _ => h.owner_queue k⟩
    rw [hqueue] at hitem
    exact h.owner_queue g item' (hg ▸ mem_cons_of_mem _ hitem)
  owner_slot := h.owner_slot
  parked := (forall_update_iff worker fun k w => w = .inSlot → slot k = []).mpr
    ⟨fun heq => absurd heq hparked, fun k _ => h.parked k⟩

theorem swap (hg : (worker g).queue = []) {worker₁ : Worker G Op Item}
    (hqueue : worker₁.queue = slot g) :
    Items sys (update worker g worker₁) (update slot g []) sent processed where
  counts item' := by
    have hcount := h.counts item'
    by_cases hk : sys.owner item' = g
    · rw [hk] at hcount ⊢
      rw [hg, List.count_nil] at hcount
      rw [update_self, update_self, hqueue, List.count_nil]
      omega
    · rw [update_of_ne hk, update_of_ne hk]
      exact hcount
  owner_queue := by
    refine (forall_update_iff worker fun k w => ∀ item ∈ w.queue, sys.owner item = k).mpr
      ⟨?_, fun k _ => h.owner_queue k⟩
    rw [hqueue]
    exact h.owner_slot g
  owner_slot := (forall_update_iff slot fun k items => ∀ item ∈ items, sys.owner item = k).mpr
    ⟨nofun, fun k _ => h.owner_slot k⟩
  parked k hk := by
    by_cases hkg : k = g
    · subst hkg
      exact update_self _ _ _
    · rw [update_of_ne hkg] at hk ⊢
      exact h.parked k hk

end Items

/-! ## Performing an operation -/

section

variable {s : State G Op Item σ ε} {g : G} {op : Op} {out : Outcome Op Item σ}
  {worker : Worker G Op Item}

omit [DecidableEq Item]

theorem perform_worker (k : G) :
    (s.perform sys g op out worker).worker k = update s.worker g worker k
      ∨ (update s.worker g worker k = .inSlot
        ∧ (s.perform sys g op out worker).worker k = .busy [] [] none) :=
  State.send_worker sys out.sent k

theorem perform_ops (k : G) : ((s.perform sys g op out worker).worker k).ops
    = (update s.worker g worker k).ops := by
  rcases @perform_worker _ _ _ _ _ _ sys s g op out worker k with h | ⟨hslot, h⟩
  · rw [h]
  · rw [h, hslot]
    rfl

theorem perform_queue (k : G) : ((s.perform sys g op out worker).worker k).queue
    = (update s.worker g worker k).queue := by
  rcases @perform_worker _ _ _ _ _ _ sys s g op out worker k with h | ⟨hslot, h⟩
  · rw [h]
  · rw [h, hslot]
    rfl

theorem kept_update {worker : G → Worker G Op Item} {worker₁ : Worker G Op Item}
    (h : Kept (worker g) worker₁) (k : G) : Kept (worker k) (update worker g worker₁ k) :=
  (forall_update_iff worker fun k w => Kept (worker k) w).mpr ⟨h, fun _ _ => .refl _⟩ k

theorem perform_kept (hkept : Kept (s.worker g) worker) (k : G) :
    Kept (s.worker k) ((s.perform sys g op out worker).worker k) := by
  have hupd := kept_update hkept k
  rcases @perform_worker _ _ _ _ _ _ sys s g op out worker k with h | ⟨hslot, h⟩
  · rw [h]
    exact hupd
  · rw [hslot] at hupd
    rw [h]
    generalize s.worker k = old at hupd
    cases hupd
    exact .woken

theorem perform_inSlot (hworker : worker ≠ .inSlot) {k : G}
    (h : (s.perform sys g op out worker).worker k = .inSlot) : s.worker k = .inSlot := by
  rcases @perform_worker _ _ _ _ _ _ sys s g op out worker k with heq | ⟨-, heq⟩
  · rw [heq] at h
    by_cases hk : k = g
    · rw [hk, update_self] at h
      exact absurd h hworker
    · rwa [update_of_ne hk] at h
  · rw [heq] at h
    cases h

end

theorem Items.perform {s : State G Op Item σ ε} {g : G} {op : Op} {out : Outcome Op Item σ}
    {worker : Worker G Op Item} (h : Items sys s.worker s.slot s.sent s.processed)
    (hexec : sys.exec g op s.shared = .ok out)
    (hqueue : worker.queue = out.queued ++ (s.worker g).queue) (hworker : worker ≠ .inSlot) :
    Items sys (s.perform sys g op out worker).worker (s.perform sys g op out worker).slot
      (s.sent ++ out.items) s.processed := by
  have hparked : ∀ k, (s.perform sys g op out worker).worker k = .inSlot → s.worker k = .inSlot :=
    fun k => perform_inSlot hworker
  have hother : ∀ k ≠ g, ((s.perform sys g op out worker).worker k).queue = (s.worker k).queue := by
    intro k hk
    rw [perform_queue, update_of_ne hk]
  have hself : ((s.perform sys g op out worker).worker g).queue
      = out.queued ++ (s.worker g).queue := by
    rw [perform_queue, update_self, hqueue]
  cases hsent : out.sent with
  | none =>
    have hitems : out.items = [] := by rw [Outcome.items, hsent]
    have hqueued : out.queued = [] := by rw [Outcome.queued, hsent]
    have hslot : (s.perform sys g op out worker).slot = s.slot := by
      rw [State.perform, hsent]
      rfl
    rw [hitems, List.append_nil, hslot]
    refine h.same (fun k => ?_) fun k hk => .inl (hparked k hk)
    by_cases hk : k = g
    · rw [hk, hself, hqueued, List.nil_append]
    · exact hother k hk
  | some sent =>
    cases sent with
    | toQueue item =>
      have hitems : out.items = [item] := by rw [Outcome.items, hsent]
      have hqueued : out.queued = [item] := by rw [Outcome.queued, hsent]
      have hslot : (s.perform sys g op out worker).slot = s.slot := by
        rw [State.perform, hsent]
        rfl
      rw [hitems, hslot]
      refine h.push (sys.owns g op s.shared out item hexec hsent) ?_ hother hparked
      rw [hself, hqueued]
      rfl
    | toSlot item =>
      have hitems : out.items = [item] := by rw [Outcome.items, hsent]
      have hqueued : out.queued = [] := by rw [Outcome.queued, hsent]
      have hslot : (s.perform sys g op out worker).slot
          = update s.slot (sys.owner item) (item :: s.slot (sys.owner item)) := by
        rw [State.perform, hsent]
        exact State.deliver_slot _ _
      rw [hitems, hslot]
      refine h.deliver rfl (fun k => ?_) fun k hk => ⟨?_, hparked k hk⟩
      · by_cases hk : k = g
        · rw [hk, hself, hqueued, List.nil_append]
        · exact hother k hk
      · rintro rfl
        rw [State.perform, hsent] at hk
        exact absurd hk (State.deliver_not_inSlot _ _)

/-! ## Operations -/

end

/-- Operations that the activation of a group leads to. -/
inductive FromActivation (sys : System G Op Item σ ε) (g : G) : Op → Prop
  | start {op : Op} : op ∈ (sys.activation g).flatten → FromActivation sys g op
  | next {op op' : Op} {shared : σ} {out : Outcome Op Item σ} : FromActivation sys g op →
      sys.exec g op shared = .ok out → op' ∈ out.next → FromActivation sys g op'

/-- Operations that the items of a group lead to. -/
inductive FromProgram (sys : System G Op Item σ ε) (g : G) : Op → Prop
  | start {op : Op} {item : Item} : sys.owner item = g → op ∈ sys.program item →
      FromProgram sys g op
  | next {op op' : Op} {shared : σ} {out : Outcome Op Item σ} : FromProgram sys g op →
      sys.exec g op shared = .ok out → op' ∈ out.next → FromProgram sys g op'

/-- Where the operations of a worker come from. -/
def Origin (sys : System G Op Item σ ε) (g : G) : Worker G Op Item → Prop
  | .activating files _ => ∀ op ∈ files.flatten, FromActivation sys g op
  | .busy ops _ _ => ∀ op ∈ ops, FromProgram sys g op
  | _ => True

namespace State

variable (s : State G Op Item σ ε)

def Owed (op : Op) : Prop := op ∈ s.performed ∨ s.Pending op

structure Inv [Fintype G] [DecidableEq Item] (sys : System G Op Item σ ε)
    (s : State G Op Item σ ε) : Prop where
  tasks : Tasks sys s.worker s.thread s.remaining s.delay
  items : Items sys s.worker s.slot s.sent s.processed
  started : ∀ g, s.thread g ≠ .waiting → ∀ op ∈ (sys.activation g).flatten, s.Owed op
  processed : ∀ item ∈ s.processed, ∀ op ∈ sys.program item, s.Owed op
  origin : ∀ g, Origin sys g (s.worker g)

end State

/-- What a turn does to the data that the operations share. -/
inductive Turn (sys : System G Op Item σ ε) (s s' : State G Op Item σ ε) : Prop
  | silent (shared : s'.shared = s.shared) (sent : s'.sent = s.sent)
      (performed : s'.performed = s.performed) (keeps : ∀ op, s.Pending op → s'.Pending op)
      (comes : ∀ op, s'.Pending op → s.Pending op ∨ (∃ g, op ∈ (sys.activation g).flatten)
        ∨ ∃ item ∈ s.sent, op ∈ sys.program item)
  | performs (g : G) (op : Op) (out : Outcome Op Item σ) (exec : sys.exec g op s.shared = .ok out)
      (pending : s.Pending op)
      (stage : FromActivation sys g op ∧ ¬ s.Opened
        ∨ FromProgram sys g op ∧ (sys.delayed g = true → s.Opened))
      (shared : s'.shared = out.shared) (sent : s'.sent = s.sent ++ out.items)
      (performed : s'.performed = s.performed ++ [op])
      (next : ∀ op' ∈ out.next, s'.Pending op')
      (keeps : ∀ op', op' ≠ op → s.Pending op' → s'.Pending op')
      (comes : ∀ op', s'.Pending op' → s.Pending op' ∨ op' ∈ out.next)

section

variable {s s' : State G Op Item σ ε} {g : G}

variable {worker : Worker G Op Item}

theorem Turn.of_update
    (hworker : s'.worker = update s.worker g worker) (hshared : s'.shared = s.shared)
    (hsent : s'.sent = s.sent) (hperf : s'.performed = s.performed)
    (hkeeps : ∀ op ∈ (s.worker g).ops, op ∈ worker.ops)
    (hcomes : ∀ op ∈ worker.ops, op ∈ (s.worker g).ops ∨ (∃ g, op ∈ (sys.activation g).flatten)
      ∨ ∃ item ∈ s.sent, op ∈ sys.program item) : Turn sys s s' := by
  refine .silent hshared hsent hperf (fun op hop => ?_) (fun op hop => ?_)
  · obtain ⟨k, hk⟩ := hop
    refine ⟨k, ?_⟩
    rw [hworker]
    by_cases hkg : k = g
    · subst hkg
      rw [update_self]
      exact hkeeps op hk
    · rwa [update_of_ne hkg]
  · obtain ⟨k, hk⟩ := hop
    rw [hworker] at hk
    by_cases hkg : k = g
    · subst hkg
      rw [update_self] at hk
      rcases hcomes op hk with hold | hnew
      · exact .inl ⟨k, hold⟩
      · exact .inr hnew
    · rw [update_of_ne hkg] at hk
      exact .inl ⟨k, hk⟩

/-- A worker without operations gets none. -/
theorem Turn.of_idle (hworker : s'.worker = update s.worker g worker) (hshared : s'.shared = s.shared)
    (hsent : s'.sent = s.sent) (hperf : s'.performed = s.performed)
    (hidle : (s.worker g).ops = []) (hnew : worker.ops = []) : Turn sys s s' := by
  refine .of_update hworker hshared hsent hperf (fun op hop => ?_) fun op hop => ?_
  · rw [hidle] at hop
    cases hop
  · rw [hnew] at hop
    cases hop

theorem Turn.of_perform {op : Op} (ops : List Op) {out : Outcome Op Item σ}
    (hexec : sys.exec g op s.shared = .ok out)
    (hops : (s.worker g).ops = op :: ops) (hworker : worker.ops = out.next ++ ops)
    (hstage : FromActivation sys g op ∧ ¬ s.Opened
      ∨ FromProgram sys g op ∧ (sys.delayed g = true → s.Opened)) :
    Turn sys s (s.perform sys g op out worker) := by
  have hunsent := State.send_unsent (s := { s with
      worker := update s.worker g worker
      shared := out.shared
      sent := s.sent ++ out.items
      performed := s.performed ++ [op] }) sys out.sent
  have hself : ((s.perform sys g op out worker).worker g).ops = out.next ++ ops := by
    rw [perform_ops, update_self, hworker]
  refine .performs g op out hexec ⟨g, ?_⟩ hstage hunsent.shared hunsent.sent hunsent.performed
    (fun op' hop' => ⟨g, ?_⟩) (fun op' hne hop' => ?_) (fun op' hop' => ?_)
  · rw [hops]
    exact mem_cons_self
  · rw [hself]
    exact List.mem_append_left _ hop'
  · obtain ⟨k, hk⟩ := hop'
    refine ⟨k, ?_⟩
    by_cases hkg : k = g
    · subst hkg
      rw [hops] at hk
      rw [hself]
      exact List.mem_append_right _ ((mem_cons.mp hk).resolve_left hne)
    · rwa [perform_ops, update_of_ne hkg]
  · obtain ⟨k, hk⟩ := hop'
    by_cases hkg : k = g
    · subst hkg
      rw [hself] at hk
      rcases mem_append.mp hk with hnext | hold
      · exact .inr hnext
      · refine .inl ⟨k, ?_⟩
        rw [hops]
        exact mem_cons_of_mem _ hold
    · rw [perform_ops, update_of_ne hkg] at hk
      exact .inl ⟨k, hk⟩

omit [DecidableEq G] in
theorem Turn.of_workers (hworker : s'.worker = s.worker) (hshared : s'.shared = s.shared)
    (hsent : s'.sent = s.sent) (hperf : s'.performed = s.performed) : Turn sys s s' := by
  refine .silent hshared hsent hperf (fun op hop => ?_) (fun op hop => .inl ?_)
  · obtain ⟨k, hk⟩ := hop
    exact ⟨k, hworker ▸ hk⟩
  · obtain ⟨k, hk⟩ := hop
    exact ⟨k, hworker ▸ hk⟩

omit [DecidableEq G] in
/-- What is owed stays owed. -/
theorem Turn.owed (h : Turn sys s s') {op : Op} (hop : s.Owed op) : s'.Owed op := by
  cases h with
  | silent _ _ hperf hkeeps _ =>
    rcases hop with hop | hop
    · exact .inl (hperf ▸ hop)
    · exact .inr (hkeeps op hop)
  | performs g op' out _ _ _ _ _ hperf _ hkeeps _ =>
    rcases hop with hop | hop
    · refine .inl ?_
      rw [hperf]
      exact List.mem_append_left _ hop
    · by_cases heq : op = op'
      · refine .inl ?_
        rw [hperf, heq]
        exact List.mem_append_right _ (List.mem_singleton_self _)
      · exact .inr (hkeeps op heq hop)

omit [DecidableEq G] in
/-- Who resumes only sets a thread. -/
theorem resume_eq (s : State G Op Item σ ε) (caller : Option (G × Phase)) [DecidableEq G] :
    s.resume caller = { s with thread := (s.resume caller).thread } := by
  cases caller with
  | none => rfl
  | some caller => rfl

end

section

variable [Fintype G] [DecidableEq Item] {s s' : State G Op Item σ ε}

variable {files : List (List Op)} {g : G} {queue : List Item}

omit [DecidableEq G] in
/-- Whoever is activating has not been counted. -/
theorem not_opened_of_activating (h : s.Inv sys)
    (hg : s.worker g = .activating files queue) : ¬ s.Opened := by
  intro hopened
  have hmem : g ∈ uncounted s.thread := by
    rw [mem_uncounted, h.tasks.thread_of_activating hg]
    trivial
  have hcard := h.tasks.counts
  rw [show s.remaining = 0 from hopened] at hcard
  rw [Finset.card_eq_zero.mp hcard.symm] at hmem
  exact absurd hmem (Finset.notMem_empty g)

omit [DecidableEq G] in
theorem opened_of_busy (h : s.Inv sys) {ops : List Op}
    {caller : Option (G × Phase)} (hg : s.worker g = .busy ops queue caller)
    (hdelayed : sys.delayed g = true) : s.Opened := by
  have hown := hg ▸ h.tasks.own g
  cases hown with
  | called _ hfalse =>
    rw [hdelayed] at hfalse
    cases hfalse
  | drained _ _ _ hzero => exact hzero
  | woken _ hzero => exact hzero hdelayed

theorem turn_of_step (h : s.Inv sys) (hstep : sys.Step s s') (herrors : s'.errors = []) :
    Turn sys s s' := by
  cases hstep with
  | @start g hg =>
    refine .of_update (g := g) rfl rfl rfl rfl (fun op hop => ?_) fun op hop => .inr (.inl ⟨g, hop⟩)
    rw [(h.tasks.own g).eq_absent hg] at hop
    cases hop
  | @activate g op ops files queue out hg hexec =>
    refine .of_perform (ops ++ files.flatten) hexec ?_ ?_ ?_
    · rw [hg]
      rfl
    · show (out.next ++ ops) ++ files.flatten = _
      rw [List.append_assoc]
    · refine .inl ⟨?_, not_opened_of_activating h hg⟩
      have horigin := h.origin g
      rw [hg] at horigin
      exact horigin op (List.mem_append_left _ mem_cons_self)
  | activateFailed _ _ => exact absurd herrors (List.append_ne_nil_of_right_ne_nil _ (cons_ne_nil _ _))
  | @nextFile g files queue hg =>
    refine .of_update (g := g) rfl rfl rfl rfl (fun op hop => ?_) fun op hop => .inl ?_
    · rw [hg] at hop
      exact hop
    · rw [hg]
      exact hop
  | delay hg _ _ | activated hg _ => exact .of_idle rfl rfl rfl rfl (by rw [hg]; rfl) rfl
  | @work g op ops queue caller out hg hexec =>
    refine .of_perform ops hexec ?_ rfl ?_
    · rw [hg]
      rfl
    · refine .inr ⟨?_, opened_of_busy h hg⟩
      have horigin := h.origin g
      rw [hg] at horigin
      exact horigin op mem_cons_self
  | @workFailed g op ops queue caller e hg hexec =>
    rw [resume_eq _ caller] at herrors
    exact absurd herrors (List.append_ne_nil_of_right_ne_nil _ (cons_ne_nil _ _))
  | @pop g item queue caller hg =>
    refine .of_update (g := g) rfl rfl rfl rfl (fun op hop => ?_) fun op hop => ?_
    · rw [hg] at hop
      cases hop
    · refine .inr (.inr ⟨item, h.items.mem_sent_of_queue (g := g) ?_, hop⟩)
      rw [hg]
      exact mem_cons_self
  | swap hg _ => exact .of_idle rfl rfl rfl rfl (by rw [hg]; rfl) rfl
  | @park g caller hg hslot =>
    rw [resume_eq _ caller]
    exact .of_idle rfl rfl rfl rfl (by rw [hg]; rfl) rfl
  | count _ => exact .of_workers rfl rfl rfl rfl
  | drain _ _ hk => exact .of_idle rfl rfl rfl rfl (by rw [hk]; rfl) rfl
  | drained _ _ => exact .of_workers rfl rfl rfl rfl

omit [DecidableEq G] in
theorem inv_initial : State.Inv sys sys.initial where
  tasks := .initial
  items := .initial
  started g hg := absurd rfl hg
  processed item hitem := by cases hitem
  origin g := trivial

omit [DecidableEq G] in
/-- The parts of the invariant that say who owes what. -/
theorem State.Inv.of_turn (h : s.Inv sys) (hturn : Turn sys s s')
    (htasks : Tasks sys s'.worker s'.thread s'.remaining s'.delay)
    (hitems : Items sys s'.worker s'.slot s'.sent s'.processed)
    (hstarted : ∀ g, s'.thread g ≠ .waiting → s.thread g ≠ .waiting
      ∨ ∀ op ∈ (sys.activation g).flatten, s'.Owed op)
    (hprocessed : ∀ item ∈ s'.processed, item ∈ s.processed ∨ ∀ op ∈ sys.program item, s'.Owed op)
    (horigin : ∀ g, Origin sys g (s'.worker g)) : s'.Inv sys where
  tasks := htasks
  items := hitems
  started g hg op hop := by
    rcases hstarted g hg with hold | hnew
    · exact hturn.owed (h.started g hold op hop)
    · exact hnew op hop
  processed item hitem op hop := by
    rcases hprocessed item hitem with hold | hnew
    · exact hturn.owed (h.processed item hold op hop)
    · exact hnew op hop
  origin := horigin

omit [Fintype G] [DecidableEq Item] in
/-- A task that goes on did not wait before. -/
theorem not_waiting_of_update {thread : G → Phase} {t k : G} {phase : Phase}
    (ht : thread t ≠ .waiting) (hk : Function.update thread t phase k ≠ .waiting) :
    thread k ≠ .waiting :=
  (forall_update_iff thread fun k phase => phase ≠ .waiting → thread k ≠ .waiting).mpr
    ⟨fun _ => ht, fun _ _ => id⟩ k hk

variable {worker : G → Worker G Op Item} {worker₁ : Worker G Op Item}

omit [Fintype G] [DecidableEq Item] in
theorem origin_update (h : ∀ g, Origin sys g (worker g)) (hg : Origin sys g worker₁) (k : G) :
    Origin sys k (update worker g worker₁ k) :=
  (forall_update_iff worker fun k w => Origin sys k w).mpr ⟨hg, fun k _ => h k⟩ k

variable {op : Op} {out : Outcome Op Item σ}

theorem origin_perform (h : s.Inv sys)
    {worker : Worker G Op Item} (hg : Origin sys g worker) (k : G) :
    Origin sys k ((s.perform sys g op out worker).worker k) := by
  have hupd := origin_update h.origin hg k
  rcases @perform_worker _ _ _ _ _ _ sys s g op out worker k with heq | ⟨-, heq⟩
  · rwa [heq]
  · rw [heq]
    exact nofun

theorem State.Inv.of_perform (h : s.Inv sys)
    {worker : Worker G Op Item} (hturn : Turn sys s (s.perform sys g op out worker))
    (hexec : sys.exec g op s.shared = .ok out) (hkept : Kept (s.worker g) worker)
    (hqueue : worker.queue = out.queued ++ (s.worker g).queue) (hworker : worker ≠ .inSlot)
    (horigin : Origin sys g worker) : (s.perform sys g op out worker).Inv sys := by
  have hunsent := State.send_unsent (s := { s with
      worker := update s.worker g worker
      shared := out.shared
      sent := s.sent ++ out.items
      performed := s.performed ++ [op] }) sys out.sent
  have hthread : (s.perform sys g op out worker).thread = s.thread := hunsent.thread
  have hrem : (s.perform sys g op out worker).remaining = s.remaining := hunsent.remaining
  have hdelay : (s.perform sys g op out worker).delay = s.delay := hunsent.delay
  have hsent : (s.perform sys g op out worker).sent = s.sent ++ out.items := hunsent.sent
  have hprocessed : (s.perform sys g op out worker).processed = s.processed := hunsent.processed
  refine h.of_turn hturn ?_ ?_ (fun k hk => .inl (hthread ▸ hk))
    (fun item hitem => .inl (hprocessed ▸ hitem)) (origin_perform h horigin)
  · rw [hthread, hrem, hdelay]
    exact h.tasks.kept (perform_kept hkept)
  · rw [hsent, hprocessed]
    exact h.items.perform hexec hqueue hworker

theorem State.Inv.park (h : s.Inv sys) {caller : Option (G × Phase)}
    (hturn : Turn sys s ((s.setWorker g .inSlot).resume caller))
    (hg : s.worker g = .busy [] [] caller) (hslot : s.slot g = []) :
    ((s.setWorker g .inSlot).resume caller).Inv sys := by
  have hitems : Items sys (update s.worker g .inSlot) s.slot s.sent s.processed := by
    refine h.items.same_update ?_ fun _ => hslot
    rw [hg]
    rfl
  have horigin : ∀ k, Origin sys k (update s.worker g .inSlot k) :=
    origin_update h.origin trivial
  cases caller with
  | none =>
    exact h.of_turn hturn (h.tasks.park_woken hg) hitems (fun k hk => .inl hk)
      (fun item hitem => .inl hitem) horigin
  | some caller =>
    obtain ⟨t, phase⟩ := caller
    have hown := hg ▸ h.tasks.own g
    cases hown with
    | called hthread hdelayed =>
      refine h.of_turn hturn (h.tasks.park_called hg) hitems
        (fun k => .inl ∘ not_waiting_of_update ?_) (fun item hitem => .inl hitem) horigin
      show s.thread g ≠ _
      rw [hthread]
      exact nofun
    | drained hcaller _ _ _ =>
      refine h.of_turn hturn (h.tasks.park_drained hg) hitems
        (fun k => .inl ∘ not_waiting_of_update ?_) (fun item hitem => .inl hitem) horigin
      show s.thread t ≠ _
      rw [hcaller]
      exact nofun

theorem inv_of_step (h : s.Inv sys) (hstep : sys.Step s s') (herrors : s'.errors = []) :
    s'.Inv sys := by
  have hturn := turn_of_step h hstep herrors
  cases hstep with
  | @start g hg =>
    have hworker : s.worker g = .absent := (h.tasks.own g).eq_absent hg
    refine h.of_turn hturn (h.tasks.start hg) (h.items.same_update ?_ nofun)
      (fun k hk => ?_) (fun item hitem => .inl hitem) (origin_update h.origin fun op hop => .start hop)
    · rw [hworker]
      rfl
    · by_cases hkg : k = g
      · subst hkg
        refine .inr fun op hop => .inr ⟨k, ?_⟩
        show op ∈ (update s.worker k _ k).ops
        rw [update_self]
        exact hop
      · refine .inl fun hwaiting => hk ?_
        exact (update_of_ne hkg _ _).trans hwaiting
  | @activate g op ops files queue out hg hexec =>
    refine h.of_perform hturn hexec (hg ▸ .activating) ?_ (nofun) fun op' hop' => ?_
    · rw [hg]
      rfl
    · have horigin := h.origin g
      rw [hg] at horigin
      rw [List.flatten_cons, List.append_assoc] at hop'
      rcases mem_append.mp hop' with hnext | hold
      · exact .next (horigin op mem_cons_self) hexec hnext
      · exact horigin op' (mem_cons_of_mem _ hold)
  | activateFailed _ _ => exact absurd herrors (List.append_ne_nil_of_right_ne_nil _ (cons_ne_nil _ _))
  | @nextFile g files queue hg =>
    have horigin := h.origin g
    rw [hg] at horigin
    refine h.of_turn hturn (h.tasks.kept (kept_update (hg ▸ .activating)))
      (h.items.same_update ?_ nofun) (fun k hk => .inl hk)
      (fun item hitem => .inl hitem) (origin_update h.origin horigin)
    rw [hg]
    rfl
  | @delay g queue hg hdelayed hdelay =>
    refine h.of_turn hturn ((hdelay ▸ h.tasks).wait hg hdelayed)
      (h.items.same_update ?_ nofun) (fun k => .inl ∘ not_waiting_of_update ?_)
      (fun item hitem => .inl hitem) (origin_update h.origin trivial)
    · rw [hg]
      rfl
    · rw [h.tasks.thread_of_activating hg]
      exact nofun
  | @activated g queue hg hdelayed =>
    refine h.of_turn hturn (h.tasks.activated hg hdelayed)
      (h.items.same_update ?_ nofun) (fun k hk => .inl hk)
      (fun item hitem => .inl hitem) (origin_update h.origin nofun)
    rw [hg]
    rfl
  | @work g op ops queue caller out hg hexec =>
    refine h.of_perform hturn hexec (hg ▸ .busy) ?_ (nofun) fun op' hop' => ?_
    · rw [hg]
      rfl
    · have horigin := h.origin g
      rw [hg] at horigin
      rcases mem_append.mp hop' with hnext | hold
      · exact .next (horigin op mem_cons_self) hexec hnext
      · exact horigin op' (mem_cons_of_mem _ hold)
  | @workFailed g op ops queue caller e hg hexec =>
    rw [resume_eq _ caller] at herrors
    exact absurd herrors (List.append_ne_nil_of_right_ne_nil _ (cons_ne_nil _ _))
  | @pop g item queue caller hg =>
    have howner : sys.owner item = g := by
      refine h.items.owner_queue g item ?_
      rw [hg]
      exact mem_cons_self
    refine h.of_turn hturn (h.tasks.kept (kept_update (hg ▸ .busy)))
      (h.items.pop ?_ rfl nofun) (fun k hk => .inl hk) (fun item' hitem => ?_)
      (origin_update h.origin fun op hop => .start howner hop)
    · rw [hg]
      rfl
    · rcases mem_append.mp hitem with hold | hnew
      · exact .inl hold
      · obtain rfl := List.mem_singleton.mp hnew
        refine .inr fun op hop => .inr ⟨g, ?_⟩
        show op ∈ (update s.worker g _ g).ops
        rw [update_self]
        exact hop
  | @swap g caller hg hslot =>
    refine h.of_turn hturn (h.tasks.kept (kept_update (hg ▸ .busy))) (h.items.swap ?_ rfl)
      (fun k hk => .inl hk) (fun item hitem => .inl hitem)
      (origin_update h.origin nofun)
    rw [hg]
    rfl
  | @park g caller hg hslot => exact h.park hturn hg hslot
  | @count g hg =>
    refine h.of_turn hturn (h.tasks.count hg) h.items (fun k => .inl ∘ not_waiting_of_update ?_)
      (fun item hitem => .inl hitem) h.origin
    rw [hg]
    exact nofun
  | @drain g k queue hg hdelay hk =>
    refine h.of_turn hturn ((hdelay ▸ h.tasks).drain hg hk)
      (h.items.same_update ?_ nofun) (fun l => .inl ∘ not_waiting_of_update ?_)
      (fun item hitem => .inl hitem) (origin_update h.origin nofun)
    · rw [hk]
      rfl
    · rw [hg]
      exact nofun
  | @drained g hg hdelay =>
    refine h.of_turn hturn ?_ h.items (fun k => .inl ∘ not_waiting_of_update ?_)
      (fun item hitem => .inl hitem) h.origin
    · rw [hdelay]
      exact (hdelay ▸ h.tasks).drained hg
    · rw [hg]
      exact nofun

/-! ## Runs -/

omit [Fintype G] [DecidableEq Item] in
theorem errors_of_step (hstep : sys.Step s s') : s.errors <+: s'.errors := by
  cases hstep with
  | activateFailed _ _ => exact List.prefix_append _ _
  | @activate g op ops files queue out _ _ | @work g op ops queue caller out _ _ =>
    rw [State.perform, (State.send_unsent sys out.sent).errors]
  | @workFailed g op ops queue caller e _ _ =>
    rw [resume_eq _ caller]
    exact List.prefix_append _ _
  | @park g caller _ _ =>
    rw [resume_eq _ caller]
    exact prefix_refl _
  | _ => exact prefix_refl _

omit [Fintype G] [DecidableEq Item] in
theorem remaining_of_step (hstep : sys.Step s s') : s'.remaining ≤ s.remaining := by
  cases hstep with
  | @activate g op ops files queue out _ _ | @work g op ops queue caller out _ _ =>
    rw [State.perform, (State.send_unsent sys out.sent).remaining]
  | @workFailed g op ops queue caller e _ _ => rw [resume_eq _ caller]
  | @park g caller _ _ =>
    rw [resume_eq _ caller]
    exact Nat.le_refl _
  | count _ => exact Nat.sub_le _ _
  | _ => exact Nat.le_refl _

theorem reachable_induction {P : State G Op Item σ ε → Prop} (hinitial : P sys.initial)
    (hturn : ∀ s s', sys.Reachable s → s.errors = [] → s.Inv sys → Turn sys s s' →
      (s.Opened → s'.Opened) → P s → P s')
    (h : sys.Reachable s) (herrors : s.errors = []) : s.Inv sys ∧ P s := by
  induction h with
  | refl => exact ⟨inv_initial, hinitial⟩
  | @tail s s' hs hstep ih =>
    have hnone : s.errors = [] := List.prefix_nil.mp (herrors ▸ errors_of_step hstep)
    obtain ⟨hinv, hP⟩ := ih hnone
    have hinv' := inv_of_step hinv hstep herrors
    refine ⟨hinv', hturn s s' hs hnone hinv (turn_of_step hinv hstep herrors) (fun hopened => ?_) hP⟩
    exact Nat.eq_zero_of_le_zero (Nat.le_trans (remaining_of_step hstep) (Nat.le_of_eq hopened))

theorem inv_of_reachable (h : sys.Reachable s) (herrors : s.errors = []) : s.Inv sys :=
  (@reachable_induction _ _ _ _ _ _ sys _ _ s (fun _ => True) trivial
    (fun _ _ _ _ _ _ _ _ => trivial) h herrors).1

theorem justified {I : σ → Prop} {J : Op → Prop} {K : Item → Prop} (hstart : I sys.start)
    (hactivation : ∀ g, ∀ op ∈ (sys.activation g).flatten, J op)
    (hprogram : ∀ item, K item → ∀ op ∈ sys.program item, J op)
    (hexec : ∀ g op shared out, I shared → J op → sys.exec g op shared = .ok out →
      I out.shared ∧ (∀ op' ∈ out.next, J op') ∧ ∀ item ∈ out.items, K item)
    (h : sys.Reachable s) (herrors : s.errors = []) :
    I s.shared ∧ (∀ op, s.Pending op → J op) ∧ (∀ op ∈ s.performed, J op) ∧ ∀ item ∈ s.sent, K item := by
  refine (@reachable_induction _ _ _ _ _ _ sys _ _ s (fun s => I s.shared
    ∧ (∀ op, s.Pending op → J op) ∧ (∀ op ∈ s.performed, J op) ∧ ∀ item ∈ s.sent, K item)
    ?_ ?_ h herrors).2
  · refine ⟨hstart, fun op hop => ?_, fun op hop => (nomatch hop), fun item hitem => (nomatch hitem)⟩
    obtain ⟨g, hg⟩ := hop
    cases hg
  · intro s s' _ _ _ hturn _ hP
    obtain ⟨hI, hpend, hperf, hsent⟩ := hP
    cases hturn with
    | silent hshared hsame hold _ hcomes =>
      refine ⟨hshared ▸ hI, fun op hop => ?_, hold ▸ hperf, hsame ▸ hsent⟩
      rcases hcomes op hop with hbefore | ⟨g, hg⟩ | ⟨item, hitem, hprog⟩
      · exact hpend op hbefore
      · exact hactivation g op hg
      · exact hprogram item (hsent item hitem) op hprog
    | performs g op out hok hop _ hshared hsame hold _ _ hcomes =>
      obtain ⟨hI', hnext, hitems⟩ := hexec g op s.shared out hI (hpend op hop) hok
      refine ⟨hshared ▸ hI', fun op' hop' => ?_, fun op' hop' => ?_, fun item hitem => ?_⟩
      · rcases hcomes op' hop' with hbefore | hnew
        · exact hpend op' hbefore
        · exact hnext op' hnew
      · rw [hold] at hop'
        rcases mem_append.mp hop' with hbefore | hnew
        · exact hperf op' hbefore
        · obtain rfl := List.mem_singleton.mp hnew
          exact hpend op' hop
      · rw [hsame] at hitem
        rcases mem_append.mp hitem with hbefore | hnew
        · exact hsent item hbefore
        · exact hitems item hnew

/-! ## The end -/

omit [DecidableEq G] [Fintype G] [DecidableEq Item] in
theorem not_pending_of_ended (hended : s.Ended) : ¬ s.Pending op := by
  rintro ⟨g, hg⟩
  have hrunning := hended.worker g
  cases hw : s.worker g with
  | activating files queue | busy ops queue caller =>
    rw [hw] at hrunning
    exact hrunning trivial
  | _ => rw [hw] at hg; cases hg

omit [DecidableEq G] in
/-- Every worker is back in its slot. -/
theorem State.Inv.inSlot (h : s.Inv sys) (hended : s.Ended) (g : G) : s.worker g = .inSlot := by
  have hzero : s.remaining = 0 := by
    rw [h.tasks.counts, Finset.card_eq_zero]
    refine Finset.eq_empty_of_forall_notMem fun k hk => ?_
    rw [mem_uncounted, hended.thread k] at hk
    exact hk
  have hdelay : s.delay = none := by
    rcases h.tasks.drains hzero with hnone | ⟨t, ht⟩
    · exact hnone
    · rw [hended.thread t] at ht
      cases ht
  have hrunning := hended.worker g
  have hown := h.tasks.own g
  cases hw : s.worker g with
  | inSlot => rfl
  | absent =>
    rw [hw] at hown
    cases hown with
    | absent hthread =>
      rw [hended.thread g] at hthread
      cases hthread
  | activating files queue =>
    rw [hw] at hrunning
    exact absurd trivial hrunning
  | delayed queue =>
    rw [hw] at hown
    cases hown with
    | delayed _ hheld _ =>
      rw [hdelay] at hheld
      cases hheld
  | busy ops queue caller =>
    rw [hw] at hrunning
    exact absurd trivial hrunning
  | lost =>
    rw [hw] at hown
    cases hown

omit [DecidableEq G] in
/-- Every item sent has been processed, as often as it was sent. -/
theorem State.Inv.perm_processed (h : s.Inv sys) (hended : s.Ended) : s.sent.Perm s.processed := by
  refine List.perm_iff_count.mpr fun item => ?_
  have hslot := h.inSlot hended (sys.owner item)
  rw [h.items.counts item, hslot, h.items.parked _ hslot]
  rfl

omit [DecidableEq G] in
theorem State.Inv.performed_activation (h : s.Inv sys) (hended : s.Ended) (g : G)
    (hop : op ∈ (sys.activation g).flatten) : op ∈ s.performed := by
  refine (h.started g ?_ op hop).resolve_right (not_pending_of_ended hended)
  rw [hended.thread g]
  exact nofun

omit [DecidableEq G] in
theorem State.Inv.performed_program (h : s.Inv sys) (hended : s.Ended) {item : Item}
    (hitem : item ∈ s.sent) (hop : op ∈ sys.program item) : op ∈ s.performed := by
  have hprocessed := (h.perm_processed hended).mem_iff.mp hitem
  exact (h.processed item hprocessed op hop).resolve_right (not_pending_of_ended hended)

/-! ## Nobody waits for ever -/

omit [DecidableEq G] in
theorem State.Inv.running_of_activating (h : s.Inv sys)
    (hthread : s.thread g = .activating) : (s.worker g).Running := by
  have hown := h.tasks.own g
  have hfin : ¬ (s.thread g).Finished := by
    rw [hthread]
    exact id
  cases hw : s.worker g with
  | activating files queue => trivial
  | busy ops queue caller => trivial
  | absent =>
    rw [hw] at hown
    cases hown with
    | absent hwaiting =>
      rw [hthread] at hwaiting
      cases hwaiting
  | delayed queue =>
    rw [hw] at hown
    cases hown with
    | delayed _ _ h => exact absurd h hfin
  | inSlot =>
    rw [hw] at hown
    cases hown with
    | inSlot h => exact absurd h hfin
  | lost =>
    rw [hw] at hown
    cases hown

omit [DecidableEq G] in
/-- A group that has to wait finds room. -/
theorem State.Inv.delay_eq_none (h : s.Inv sys)
    (hg : s.worker g = .activating files queue) (hdelayed : sys.delayed g = true) :
    s.delay = none := by
  cases hdelay : s.delay with
  | none => rfl
  | some k =>
    obtain ⟨queue', hk⟩ := h.tasks.held k hdelay
    have hown := hk ▸ h.tasks.own k
    cases hown with
    | delayed hdelayed' _ _ =>
      obtain rfl := sys.delayed_unique k g hdelayed' hdelayed
      rw [hg] at hk
      cases hk

theorem State.Inv.exists_step_of_running (h : s.Inv sys) (hg : (s.worker g).Running) :
    ∃ s', sys.Step s s' := by
  cases hw : s.worker g with
  | activating files queue =>
    cases files with
    | nil =>
      cases hdelayed : sys.delayed g with
      | true => exact ⟨_, .delay hw hdelayed (h.delay_eq_none hw hdelayed)⟩
      | false => exact ⟨_, .activated hw hdelayed⟩
    | cons ops files =>
      cases ops with
      | nil => exact ⟨_, .nextFile hw⟩
      | cons op ops =>
        cases hexec : sys.exec g op s.shared with
        | ok out => exact ⟨_, .activate hw hexec⟩
        | error e => exact ⟨_, .activateFailed hw hexec⟩
  | busy ops queue caller =>
    cases ops with
    | cons op ops =>
      cases hexec : sys.exec g op s.shared with
      | ok out => exact ⟨_, .work hw hexec⟩
      | error e => exact ⟨_, .workFailed hw hexec⟩
    | nil =>
      cases queue with
      | cons item queue => exact ⟨_, .pop hw⟩
      | nil =>
        by_cases hslot : s.slot g = []
        · exact ⟨_, .park hw hslot⟩
        · exact ⟨_, .swap hw hslot⟩
  | _ => rw [hw] at hg; cases hg

theorem exists_step (h : s.Inv sys) (hended : ¬ s.Ended) : ∃ s', sys.Step s s' := by
  by_contra hstuck
  refine hended ⟨fun g => ?_, fun g hrunning => hstuck (h.exists_step_of_running hrunning)⟩
  cases hthread : s.thread g with
  | waiting => exact absurd ⟨_, .start hthread⟩ hstuck
  | activating => exact absurd (h.exists_step_of_running (h.running_of_activating hthread)) hstuck
  | counting => exact absurd ⟨_, .count hthread⟩ hstuck
  | draining =>
    cases hdelay : s.delay with
    | none => exact absurd ⟨_, .drained hthread hdelay⟩ hstuck
    | some k =>
      obtain ⟨queue, hqueue⟩ := h.tasks.held k hdelay
      exact absurd ⟨_, .drain hthread hdelay hqueue⟩ hstuck
  | blocked =>
    obtain ⟨k, ops, queue, hk⟩ := h.tasks.blocked g hthread
    refine absurd (h.exists_step_of_running (g := k) ?_) hstuck
    rw [hk]
    trivial
  | done => rfl

end

end Sld.WorkerSlots
