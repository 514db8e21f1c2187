/-
# `Dynamic.SlotAgreement` — reserving, handing out and writing agree

`Agree` is about a whole run: the writer gets through with the room that was
reserved, none is left over, and before every symbol its next slots are those
with the addresses that the symbol was told.  It holds exactly when the three
functions agree about each symbol.
-/
import Sld.Dynamic.SlotCounts

namespace Sld.Dynamic.SymbolSlots

open Gc (ValueFlags isStaticExecutable)
open Store (SlotTables)
open Store.SlotProgram (inTurn inTurn_eq_ok Takes)

/-! ## Agreement -/

/-- The address of the next free slot of a table that starts at `start`. -/
def nextSlot (start : ℕ) (table : Table) (tables : SlotTables Table Entry) : ℕ :=
  start + table.entrySize * (tables.filled table).length

/-- The addresses of the slots of each symbol in a table, from the first to the end of the last. -/
def ranges (address : Offsets → ℕ) : Offsets → List Symbol → List (ℕ × ℕ)
  | _, [] => []
  | offsets, symbol :: rest =>
    (address offsets, address (symbol.resolve offsets).2)
      :: ranges address (symbol.resolve offsets).2 rest

/-- Where the writer is when it has written `done` and `rest` is to come. -/
structure InStep (linking : Linking) (start : Offsets) (done rest : List Symbol)
    (tables : SlotTables Table Entry) : Prop where
  free : tables.free = allocated linking rest
  got : nextSlot start.got .got tables = (handOut start done).got
  plt : nextSlot start.plt .pltGot tables = (handOut start done).plt

/-- Reserving, handing out and writing agree entry by entry. -/
structure Agree (linking : Linking) (start : Offsets) (symbols : List Symbol) : Prop where
  /-- Nothing is missing and nothing is left over. -/
  finishes : ∃ tables, writeSymbols linking symbols start symbols = .ok ((), tables)
    ∧ tables.free = 0
  /-- The addresses stay within what is reserved, symbol by symbol. -/
  handedOut : ∀ done rest, symbols = done ++ rest →
    (handOut start done).got = start.got + gotEntrySize * allocated linking done .got
      ∧ (handOut start done).plt = start.plt + pltEntrySize * allocated linking done .pltGot
  inStep : ∀ done rest tables, symbols = done ++ rest →
    writeSymbols linking symbols start done = .ok ((), tables) →
    InStep linking start done rest tables
  /-- A symbol is told the address of the slot that is written for it. -/
  own : ∀ done symbol rest tables, symbols = done ++ symbol :: rest →
    writeSymbols linking symbols start done = .ok ((), tables) →
    (∀ address, (symbol.resolve (handOut start done)).1.gotAddress = some address →
        address = nextSlot start.got .got tables)
      ∧ ∀ address, (symbol.resolve (handOut start done)).1.pltAddress = some address →
        address = nextSlot start.plt .pltGot tables
  /-- The slots of different symbols do not overlap. -/
  apart : (ranges Offsets.got start symbols).Pairwise (fun a b => a.2 ≤ b.1)
    ∧ (ranges Offsets.plt start symbols).Pairwise fun a b => a.2 ≤ b.1

/-! ## A run over several symbols -/

section

variable {linking : Linking} {start offsets : Offsets} {symbols done rest : List Symbol}
  {symbol : Symbol}

theorem allocated_append : allocated linking (done ++ rest)
    = allocated linking done + allocated linking rest := by
  rw [allocated, List.map_append, List.sum_append]
  rfl

theorem allocated_singleton : allocated linking [symbol]
    = allocateResolution symbol.flags linking.outputKind linking.isRelrEnabled :=
  List.sum_singleton

theorem handOut_append : handOut offsets (done ++ rest) = handOut (handOut offsets done) rest :=
  List.foldl_append

theorem handOut_got : (handOut offsets done).got
    = offsets.got + gotEntrySize * (done.map fun symbol => gotSlots symbol.flags).sum := by
  induction done generalizing offsets with
  | nil => rfl
  | cons symbol done ih =>
    have hrest := @ih (symbol.resolve offsets).2
    rw [resolve_got] at hrest
    rw [List.map_cons, List.sum_cons, mul_add, ← add_assoc]
    exact hrest

theorem handOut_plt : (handOut offsets done).plt
    = offsets.plt + pltEntrySize * (done.map fun symbol => pltSlots symbol.flags).sum := by
  induction done generalizing offsets with
  | nil => rfl
  | cons symbol done ih =>
    have hrest := @ih (symbol.resolve offsets).2
    rw [resolve_plt] at hrest
    rw [List.map_cons, List.sum_cons, mul_add, ← add_assoc]
    exact hrest

theorem free_tables : (tables linking symbols).free = allocated linking symbols := by
  funext table
  have hpos : 0 < table.entrySize := by cases table <;> decide
  exact Nat.mul_div_cancel_left _ hpos

theorem allocateResolution_le (hsym : symbol ∈ symbols) (table : Table) :
    allocateResolution symbol.flags linking.outputKind linking.isRelrEnabled table
      ≤ allocated linking symbols table := by
  obtain ⟨done, rest, rfl⟩ := List.append_of_mem hsym
  rw [allocated_append, ← List.singleton_append, allocated_append, allocated_singleton]
  exact (Nat.le_add_right _ _).trans (Nat.le_add_left _ _)

theorem relrDyn_tableWriter (hsym : symbol ∈ symbols) :
    (tableWriter linking symbols).relrDyn = linking.isRelrEnabled
      ∨ linking.isRelrEnabled = true ∧ (tableWriter linking symbols).relrDyn = false
        ∧ allocateResolution symbol.flags linking.outputKind true .relrDyn = 0 := by
  unfold tableWriter
  cases henabled : linking.isRelrEnabled with
  | false => exact .inl rfl
  | true =>
    by_cases hzero : memSizes linking symbols .relrDyn = 0
    · have hall : allocated linking symbols .relrDyn = 0 :=
        (Nat.mul_eq_zero.mp hzero).resolve_left (by decide)
      refine .inr ⟨rfl, by simp [hzero], Nat.eq_zero_of_le_zero ?_⟩
      rw [← henabled, ← hall]
      exact allocateResolution_le hsym .relrDyn
    · exact .inl (by simp [hzero])

theorem takes_writeSymbols {writer : TableWriter}
    (hacc : ∀ symbol ∈ done, Accepted writer.linking symbol)
    (hifuncGot : ∀ symbol ∈ done, .ifuncGotForAddress ∈ symbol.flags → .plt ∈ symbol.flags) :
    Takes (inTurn (processResolution writer) (resolutions offsets done))
      (done.map (written writer)).sum := by
  refine Store.SlotProgram.takes_inTurn ?_
  induction done generalizing offsets with
  | nil => exact .nil
  | cons symbol done ih =>
    have hfirst : Takes (processResolution writer (symbol.resolve offsets).1)
        (written writer symbol) :=
      takes_processResolution (hacc symbol List.mem_cons_self) (hifuncGot symbol List.mem_cons_self)
    exact .cons hfirst (ih (fun other hother => hacc other (List.mem_cons_of_mem _ hother))
      fun other hother => hifuncGot other (List.mem_cons_of_mem _ hother))

theorem pairwise_ranges {address : Offsets → ℕ} (hmono : ∀ (symbol : Symbol) (offsets : Offsets),
      address offsets ≤ address (symbol.resolve offsets).2) :
    ∀ (offsets : Offsets) (symbols : List Symbol),
      (∀ range ∈ ranges address offsets symbols, address offsets ≤ range.1)
        ∧ (ranges address offsets symbols).Pairwise fun a b => a.2 ≤ b.1
  | _, [] => ⟨fun _ h => absurd h List.not_mem_nil, .nil⟩
  | offsets, symbol :: rest => by
    obtain ⟨hlower, hpairwise⟩ := pairwise_ranges hmono (symbol.resolve offsets).2 rest
    refine ⟨fun range hrange => ?_, .cons (fun range hrange => hlower range hrange) hpairwise⟩
    rcases List.mem_cons.mp hrange with rfl | hrange
    · exact le_rfl
    · exact (hmono symbol offsets).trans (hlower range hrange)

/-! ## Agreement of the symbols is agreement of the run -/

theorem handedOut_of_slots (hslots : ∀ symbol ∈ done, gotSlots symbol.flags
          = allocateResolution symbol.flags linking.outputKind linking.isRelrEnabled .got
        ∧ pltSlots symbol.flags
          = allocateResolution symbol.flags linking.outputKind linking.isRelrEnabled .pltGot) :
    (handOut start done).got = start.got + gotEntrySize * allocated linking done .got
      ∧ (handOut start done).plt = start.plt + pltEntrySize * allocated linking done .pltGot := by
  have hgot : (done.map fun symbol => gotSlots symbol.flags).sum = allocated linking done .got := by
    rw [allocated, Pi.list_sum_apply, List.map_map]
    exact congrArg List.sum (List.map_congr_left fun symbol h => (hslots symbol h).1)
  have hplt : (done.map fun symbol => pltSlots symbol.flags).sum
      = allocated linking done .pltGot := by
    rw [allocated, Pi.list_sum_apply, List.map_map]
    exact congrArg List.sum (List.map_congr_left fun symbol h => (hslots symbol h).2)
  rw [handOut_got, handOut_plt, hgot, hplt]
  exact ⟨rfl, rfl⟩

theorem agree_of_matches (hacc : ∀ symbol ∈ symbols, Accepted linking symbol)
    (hmatch : ∀ symbol ∈ symbols, Matches linking symbol) : Agree linking start symbols := by
  have hslots : ∀ symbol ∈ symbols, gotSlots symbol.flags
          = allocateResolution symbol.flags linking.outputKind linking.isRelrEnabled .got
        ∧ pltSlots symbol.flags
          = allocateResolution symbol.flags linking.outputKind linking.isRelrEnabled .pltGot :=
    fun symbol h => (slots_eq_iff ..).mpr ⟨(hmatch symbol h).plt, (hmatch symbol h).ifuncGot⟩
  have hwritten : ∀ symbol ∈ symbols, written (tableWriter linking symbols) symbol
      = allocateResolution symbol.flags linking.outputKind linking.isRelrEnabled := fun symbol h =>
    (written_eq_iff (relrDyn_tableWriter h) (hmatch symbol h).plt (hmatch symbol h).ifuncGot).mpr
      ⟨(hmatch symbol h).ifunc, (hmatch symbol h).tls⟩
  have hcost : ∀ done : List Symbol, done ⊆ symbols →
      Takes (inTurn (processResolution (tableWriter linking symbols)) (resolutions start done))
        (allocated linking done) := fun done hdone => by
    have htakes : Takes
        (inTurn (processResolution (tableWriter linking symbols)) (resolutions start done))
        (done.map (written (tableWriter linking symbols))).sum := takes_writeSymbols
      (fun symbol h => hacc symbol (hdone h)) fun symbol h => (hmatch symbol (hdone h)).ifuncGot
    rwa [List.map_congr_left fun symbol h => hwritten symbol (hdone h)] at htakes
  have hhandedOut : ∀ done rest, symbols = done ++ rest →
      (handOut start done).got = start.got + gotEntrySize * allocated linking done .got
        ∧ (handOut start done).plt = start.plt + pltEntrySize * allocated linking done .pltGot :=
    fun done rest h => handedOut_of_slots fun symbol hsym =>
      hslots symbol (h ▸ List.mem_append_left rest hsym)
  have hinStep : ∀ done rest tables, symbols = done ++ rest →
      writeSymbols linking symbols start done = .ok ((), tables) →
      InStep linking start done rest tables := by
    intro done rest after hsplit hrun
    have htook := (hcost done (hsplit ▸ List.subset_append_left done rest)).took hrun
    have hfree : after.free + allocated linking done = allocated linking rest
        + allocated linking done := by
      rw [htook.free, free_tables, add_comm (allocated linking rest), ← allocated_append, ← hsplit]
    obtain ⟨hgot, hplt⟩ := hhandedOut done rest hsplit
    refine ⟨add_right_cancel hfree, ?_, ?_⟩
    · rw [nextSlot, htook.length_filled, hgot]
      exact congrArg (fun n => start.got + gotEntrySize * n) (Nat.zero_add _)
    · rw [nextSlot, htook.length_filled, hplt]
      exact congrArg (fun n => start.plt + pltEntrySize * n) (Nat.zero_add _)
  refine ⟨?_, hhandedOut, hinStep, ?_, ?_, ?_⟩
  · obtain ⟨_, after, hrun, htook⟩ := (hcost symbols (List.Subset.refl _)).runs
      (tables linking symbols) free_tables.ge
    refine ⟨after, hrun, add_right_cancel (b := allocated linking symbols) ?_⟩
    rw [htook.free, free_tables, zero_add]
  · intro done symbol rest after hsplit hrun
    have hstep := hinStep done (symbol :: rest) after hsplit hrun
    rw [resolve_gotAddress, resolve_pltAddress, hstep.got, hstep.plt]
    refine ⟨fun address h => ?_, fun address h => ?_⟩
    · split at h
      · exact (Option.some.inj h).symm
      · cases h
    · split at h
      · exact (Option.some.inj h).symm
      · cases h
  · exact (pairwise_ranges (fun symbol offsets => resolve_got symbol offsets ▸ Nat.le_add_right ..)
      start symbols).2
  · exact (pairwise_ranges (fun symbol offsets => resolve_plt symbol offsets ▸ Nat.le_add_right ..)
      start symbols).2

theorem accepted_of_resolutions {writer : TableWriter}
    (h : ∀ res ∈ resolutions offsets symbols,
      ∃ before result, processResolution writer res before = .ok result) :
    ∀ symbol ∈ symbols, Accepted writer.linking symbol := by
  induction symbols generalizing offsets with
  | nil => exact nofun
  | cons symbol rest ih =>
    obtain ⟨⟨before, ⟨u, after⟩, hrun⟩, hrest⟩ := List.forall_mem_cons.mp h
    exact List.forall_mem_cons.mpr ⟨accepted_of_processed hrun, ih hrest⟩

/-- The writer gets through, so it turns no symbol down. -/
theorem Agree.accepted (h : Agree linking start symbols) :
    ∀ symbol ∈ symbols, Accepted linking symbol := by
  obtain ⟨_, hrun, -⟩ := h.finishes
  exact accepted_of_resolutions (inTurn_eq_ok hrun)

theorem Agree.matches (hacc : ∀ symbol ∈ symbols, Accepted linking symbol)
    (h : Agree linking start symbols) : ∀ symbol ∈ symbols, Matches linking symbol := by
  have hflags : ∀ symbol ∈ symbols,
      (.plt ∈ symbol.flags → .got ∈ symbol.flags ∧ ¬ symbol.flags.IsTls)
        ∧ (.ifuncGotForAddress ∈ symbol.flags → .plt ∈ symbol.flags) := fun symbol hsym => by
    obtain ⟨done, rest, hsplit⟩ := List.append_of_mem hsym
    have hbefore := h.handedOut done (symbol :: rest) hsplit
    have hafter := h.handedOut (done ++ [symbol]) rest (by simp [hsplit])
    rw [handOut_append, allocated_append, allocated_singleton] at hafter
    have hstep : handOut (handOut start done) [symbol] = (symbol.resolve (handOut start done)).2 :=
      rfl
    rw [hstep, resolve_got, resolve_plt, hbefore.1, hbefore.2] at hafter
    refine (slots_eq_iff linking.outputKind linking.isRelrEnabled).mp ⟨?_, ?_⟩
    · have hgot := hafter.1
      simp only [Pi.add_apply, mul_add, add_assoc] at hgot
      exact Nat.eq_of_mul_eq_mul_left (by decide) (add_left_cancel (add_left_cancel hgot))
    · have hplt := hafter.2
      simp only [Pi.add_apply, mul_add, add_assoc] at hplt
      exact Nat.eq_of_mul_eq_mul_left (by decide) (add_left_cancel (add_left_cancel hplt))
  have htakes : ∀ done : List Symbol, done ⊆ symbols →
      Takes (inTurn (processResolution (tableWriter linking symbols)) (resolutions start done))
        (done.map (written (tableWriter linking symbols))).sum := fun done hdone =>
    takes_writeSymbols (fun symbol hsym => hacc symbol (hdone hsym))
      fun symbol hsym => (hflags symbol (hdone hsym)).2
  obtain ⟨final, hrun, _⟩ := h.finishes
  have htotal := ((htakes symbols (List.Subset.refl _)).took hrun).le_free
  have hwritten : ∀ done rest, symbols = done ++ rest →
      (done.map (written (tableWriter linking symbols))).sum = allocated linking done := by
    intro done rest hsplit
    have hroom : (done.map (written (tableWriter linking symbols))).sum
        ≤ (tables linking symbols).free := by
      refine le_trans ?_ htotal
      nth_rewrite 3 [hsplit]
      rw [List.map_append, List.sum_append]
      exact le_self_add
    obtain ⟨_, middle, hrun, htook⟩ :=
      (htakes done (hsplit ▸ List.subset_append_left done rest)).runs _ hroom
    have hfree := htook.free
    rw [(h.inStep done rest middle hsplit hrun).free, free_tables] at hfree
    nth_rewrite 2 [hsplit] at hfree
    rw [allocated_append, add_comm (allocated linking done)] at hfree
    exact add_left_cancel hfree
  intro symbol hsym
  obtain ⟨done, rest, hsplit⟩ := List.append_of_mem hsym
  have hbefore := hwritten done (symbol :: rest) hsplit
  have hafter := hwritten (done ++ [symbol]) rest (by simp [hsplit])
  rw [List.map_append, List.sum_append, List.map_singleton, List.sum_singleton, hbefore,
    allocated_append, allocated_singleton] at hafter
  have hsame := (written_eq_iff (relrDyn_tableWriter hsym) (hflags symbol hsym).1
    (hflags symbol hsym).2).mp (add_left_cancel hafter)
  exact ⟨(hflags symbol hsym).1, (hflags symbol hsym).2, hsame.1, hsame.2⟩

/-- Reserving, handing out and writing agree in a run exactly when the writer
turns no symbol down and each of them has flags that suit all three. -/
theorem slots_agree_iff : Agree linking start symbols ↔
    ∀ symbol ∈ symbols, Accepted linking symbol ∧ Matches linking symbol := by
  constructor
  · exact fun h symbol hsym => ⟨h.accepted symbol hsym, h.matches h.accepted symbol hsym⟩
  · exact fun h => agree_of_matches (fun symbol hsym => (h symbol hsym).1)
      fun symbol hsym => (h symbol hsym).2

end

/-- A function of an executable, reached over its stub. -/
def localFunction : Symbol := ⟨{.nonInterposable, .got, .plt}, 0x401000, none⟩

def firstAddresses : Offsets := ⟨0x403000, 0x402000, by decide, by decide, by decide⟩

theorem localFunction_agrees :
    Agree ⟨.dynamicExecutable .relocatable, true, 0, 0, 0, 0⟩ firstAddresses [localFunction] := by
  refine slots_agree_iff.mpr fun symbol hsym => ?_
  rw [List.mem_singleton.mp hsym]
  exact ⟨⟨fun _ => ⟨by decide, fun _ _ => by decide⟩, by decide, by decide, by decide⟩,
    ⟨by decide, by decide, by decide, by decide⟩⟩

/-! ## A variable that nothing defines -/

/-- `canonicalise_undefined_symbols`, for a symbol whose definition was not found. -/
def undefinedFlags (outputKind : OutputKind) (isDefaultVisibility isWeak : Bool) : ValueFlags :=
  if isDefaultVisibility = true
      ∧ (outputKind = .sharedObject ∨ isStaticExecutable outputKind = false ∧ isWeak = true) then
    {.absolute, .dynamic}
  else {.absolute, .nonInterposable}

/-- A weak reference with hidden visibility, over the offset from the thread
pointer.  Nothing defines the variable, so its value is zero. -/
def hiddenWeakVariable : Symbol :=
  ⟨undefinedFlags .sharedObject false true ∪ Gc.resolutionFlags .gotTpOff, 0, none⟩

/-- In a shared object, the relocation that is reserved for it is not written. -/
theorem reserved_relocation_is_left_over :
    ¬ Agree ⟨.sharedObject, false, 0x1000, 0x1010, 0x1010, 0⟩ firstAddresses
      [hiddenWeakVariable] := by
  intro h
  have htls := (h.matches h.accepted hiddenWeakVariable List.mem_cons_self).tls
  exact absurd htls (by decide)

end Sld.Dynamic.SymbolSlots
