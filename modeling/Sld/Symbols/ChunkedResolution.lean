/-
# `Symbols.ChunkedResolution` — an object resolved in chunks and as a whole

A chunk finds the symbol, its id and its slot by its place in the file, but
the version of its name by its place in the chunk.  So a symbol of a later
chunk is looked up under the version of another symbol.  The chunks together
do what one chunk would do exactly when this makes no difference for any
symbol that is looked up.
-/
import Sld.Symbols.ArchiveSelection

namespace Sld.Symbols

open List (flatMap_cons foldlM_cons length_replicate map_cons mem_cons_self mem_range'_1 range'
  replicate)
open LoadObjectSymbolsRequest (allSteps slot steps)

/-! ## What the steps of work items add up to -/

/-- What was written, recorded and requested. -/
structure Outcome where
  definitions : SymbolId → SymbolId
  undefinedSymbols : List UndefinedSymbol
  requests : List FileId

def Outcome.apply (outcome : Outcome) (slot : Option SymbolId) (effect : Effect) : Outcome where
  definitions := ResolutionState.setDefinition outcome.definitions slot effect.definition
  undefinedSymbols := outcome.undefinedSymbols ++ effect.undefined.toList
  requests := outcome.requests ++ effect.request.toList

/-- The outcomes agree, whatever the order in which things were recorded. -/
structure Outcome.Same (outcome outcome' : Outcome) : Prop where
  definitions : outcome.definitions = outcome'.definitions
  undefinedSymbols : outcome.undefinedSymbols.Perm outcome'.undefinedSymbols
  requests : outcome.requests.Perm outcome'.requests

/-- Both fail in the same way, or both have the same outcome. -/
inductive SameResult : Except String Outcome → Except String Outcome → Prop
  | ok {outcome outcome' : Outcome} : outcome.Same outcome' → SameResult (.ok outcome) (.ok outcome')
  | error (e : String) : SameResult (.error e) (.error e)

section

variable (res : ResolutionResources)

def processStep (outcome : Outcome) (op : WorkStep) : Except String Outcome := do
  let effect ← initialEffect res op
  pure (outcome.apply op.slot effect)

/-- The work items of a file, one after the other. -/
def processWork (work : List LoadObjectSymbolsRequest) : Except String Outcome :=
  (work.flatMap (·.allSteps)).foldlM (processStep res) ⟨res.symbolDefinitions, [], []⟩

/-! ## The symbols that are looked up -/

/-- The name under which a symbol is looked up, with the version at an index. -/
def lookupName (table : VerneedTable) (nameBytes : Bytes) (versionIndex : Nat) :
    PreHashedSymbolName :=
  .fromRaw (res.platform.rawSymbolName nameBytes table versionIndex)

/-- A symbol that `resolve_symbols` does not skip. -/
structure IsLookedUp (obj : SequencedInputObject) (i : Nat) (symbol : SymtabEntry) : Prop where
  inRange : i < obj.symbolIdRange.len
  entry : obj.parsed.symbols[i]? = some symbol
  notSkipped : skips obj i symbol (res.symbolDefinitions (obj.symbolIdRange.start + i)) = false

/-- Whether two names do the same for a symbol: they are the same name, or
both lead to one definition and the name is not recorded. -/
def NamesAgree (fileId : FileId) (symbol : SymtabEntry) (name name' : PreHashedSymbolName) :
    Prop :=
  name = name' ∨ ∃ id,
    res.get name symbol.isInterposable = some id ∧ res.get name' symbol.isInterposable = some id ∧
      (res.symbolFileIds id ≠ fileId ∧ symbol.isWeak = false ∨
        res.symbolFileIds id = preludeFileId)

/-- The versions can be read, and the names of all symbols that are looked up. -/
structure CanBeRead (obj : SequencedInputObject) (table : VerneedTable) : Prop where
  versions : obj.parsed.verneedTable = .ok table
  names : ∀ i symbol, IsLookedUp res obj i symbol → ∃ nameBytes, symbol.name = .ok nameBytes

/-- One round for the symbol at `i`, with the version at another index. -/
def effectAt (fileId : FileId) (obj : SequencedInputObject) (table : VerneedTable)
    (i versionIndex : Nat) : Except String Effect :=
  match obj.parsed.symbols[i]? with
  | none => pure {}
  | some symbol =>
    if skips obj i symbol (res.symbolDefinitions (obj.symbolIdRange.start + i)) then pure {}
    else do
      let nameBytes ← symbol.name
      pure (resolveSymbol res (obj.symbolIdRange.start + i)
        ⟨lookupName res table nameBytes versionIndex, symbol.isInterposable, symbol.isWeak⟩
        obj.parsed.isDynamic fileId)

/-- The rounds for some symbols, with their version indices. -/
def processSymbols (fileId : FileId) (obj : SequencedInputObject) (table : VerneedTable)
    (versionIndex : Nat → Nat) (outcome : Outcome) (indices : List Nat) :
    Except String Outcome :=
  indices.foldlM (fun outcome i => do
    let effect ← effectAt res fileId obj table i (versionIndex i)
    pure (outcome.apply (some (obj.symbolIdRange.start + i)) effect)) outcome

end

section

variable {res : ResolutionResources} {fileId : FileId} {obj : SequencedInputObject}
  {table : VerneedTable}

theorem initialEffect_eq_effectAt (hobj : res.object fileId = some obj)
    (htable : obj.parsed.verneedTable = .ok table) (offset len k : Nat) :
    initialEffect res (⟨fileId, offset, obj.symbolIdRange.start + offset, len⟩, k + 1) =
      effectAt res fileId obj table (offset + k) k := by
  rw [@initialEffect_of_object res ⟨fileId, offset, obj.symbolIdRange.start + offset, len⟩ obj hobj]
  unfold resolveSymbolAt effectAt
  simp only [Nat.add_assoc, htable]
  rfl

theorem processStep_zero (hobj : res.object fileId = some obj)
    (htable : obj.parsed.verneedTable = .ok table) (offset : Nat) (range : SymbolIdRange)
    (outcome : Outcome) :
    processStep res outcome (⟨fileId, offset, range⟩, 0) = .ok outcome := by
  obtain ⟨objects, hgroup, hobj⟩ := group_of_object hobj
  have heffect : initialEffect res (⟨fileId, offset, range⟩, 0) = .ok {} := by
    unfold initialEffect stepEffect
    simp only [hgroup, hobj, htable]
    rfl
  rw [processStep, heffect]
  show Except.ok (outcome.apply none {}) = _
  rw [Outcome.apply]
  simp [ResolutionState.setDefinition]

theorem foldlM_allSteps (hobj : res.object fileId = some obj)
    (htable : obj.parsed.verneedTable = .ok table) (offset len : Nat) (outcome : Outcome) :
    (allSteps
        ⟨fileId, offset, obj.symbolIdRange.start + offset, len⟩).foldlM (processStep res) outcome =
      processSymbols res fileId obj table (· - offset) outcome (range' offset len) := by
  rw [allSteps, steps, List.range'_succ,
    map_cons, foldlM_cons, processStep_zero hobj htable]
  show List.foldlM _ outcome _ = _
  rw [processSymbols, List.range'_eq_map_range, List.range'_eq_map_range, List.map_map,
    List.foldlM_map, List.foldlM_map]
  congr 1
  funext outcome k
  rw [processStep, Function.comp_apply, show 0 + 1 + k = k + 1 by omega,
    initialEffect_eq_effectAt hobj htable, Nat.add_sub_cancel_left]
  show _ = Except.bind _ _
  rw [WorkStep.slot, slot, Nat.add_assoc]
  rfl

theorem processSymbols_append (versionIndex : Nat → Nat) (outcome : Outcome)
    (indices indices' : List Nat) :
    processSymbols res fileId obj table versionIndex outcome (indices ++ indices') = (do
      let outcome ← processSymbols res fileId obj table versionIndex outcome indices
      processSymbols res fileId obj table versionIndex outcome indices') := by
  rw [processSymbols, List.foldlM_append]
  rfl

theorem processSymbols_congr {versionIndex versionIndex' : Nat → Nat} {indices : List Nat}
    (h : ∀ i ∈ indices, versionIndex i = versionIndex' i) (outcome : Outcome) :
    processSymbols res fileId obj table versionIndex outcome indices =
      processSymbols res fileId obj table versionIndex' outcome indices := by
  induction indices generalizing outcome with
  | nil => rfl
  | cons i indices ih =>
    rw [processSymbols, processSymbols, foldlM_cons, foldlM_cons, h i mem_cons_self]
    congr 1
    funext outcome
    exact ih (fun j hj => h j (List.mem_cons_of_mem _ hj)) outcome

theorem foldlM_workItems (hobj : res.object fileId = some obj)
    (htable : obj.parsed.verneedTable = .ok table) (size offset : Nat) (range : SymbolIdRange)
    (hrange : range.start = obj.symbolIdRange.start + offset) (outcome : Outcome) :
    ((workItems size fileId offset range).flatMap (·.allSteps)).foldlM (processStep res) outcome =
      processSymbols res fileId obj table (fun i => (i - offset) % size) outcome
        (range' offset range.len) := by
  obtain ⟨start, len⟩ := range
  obtain rfl : start = _ := hrange
  induction len using Nat.strongRecOn generalizing offset outcome with
  | ind len ih =>
    rw [workItems]
    split
    · rename_i hsize
      rw [List.flatMap_singleton, foldlM_allSteps hobj htable]
      refine processSymbols_congr (fun i hi => ?_) outcome
      obtain ⟨hle, hlt⟩ := mem_range'_1.mp hi
      rcases hsize with hsize | hsize
      · exact (Nat.mod_eq_of_lt (by simp only at hsize; omega)).symm
      · rw [hsize, Nat.mod_zero]
    · rename_i hsize
      obtain ⟨hlen, hpos⟩ := not_or.mp hsize
      simp only [Nat.not_le] at hlen
      rw [flatMap_cons, List.foldlM_append, foldlM_allSteps hobj htable]
      have hsplit : range' offset len =
          range' offset size ++ range' (offset + size) (len - size) := by
        rw [List.range'_append_1, Nat.add_sub_of_le (Nat.le_of_lt hlen)]
      rw [hsplit, processSymbols_append]
      have hfirst := @processSymbols_congr res fileId obj table (· - offset)
        (fun i => (i - offset) % size) (range' offset size) (fun i hi => by
          obtain ⟨hle, hlt⟩ := mem_range'_1.mp hi
          exact (Nat.mod_eq_of_lt (by omega)).symm) outcome
      rw [hfirst]
      congr 1
      funext outcome
      rw [Nat.add_assoc, ih (len - size) (by omega) (offset + size) outcome]
      refine processSymbols_congr (fun i hi => ?_) outcome
      obtain ⟨hle, hlt⟩ := mem_range'_1.mp hi
      rw [Nat.mod_eq_sub_mod (show i - offset ≥ size by omega), Nat.sub_sub]

end

/-! ## One symbol under two versions -/

section

variable {res : ResolutionResources} {fileId : FileId} {obj : SequencedInputObject}
  {table : VerneedTable}

variable {symbol : SymtabEntry}

theorem effectAt_of_isLookedUp {i : Nat} {nameBytes : Bytes}
    (hsym : IsLookedUp res obj i symbol) (hname : symbol.name = .ok nameBytes)
    (versionIndex : Nat) :
    effectAt res fileId obj table i versionIndex =
      .ok (resolveSymbol res (obj.symbolIdRange.start + i)
        ⟨lookupName res table nameBytes versionIndex, symbol.isInterposable, symbol.isWeak⟩
        obj.parsed.isDynamic fileId) := by
  unfold effectAt
  rw [hsym.entry]
  simp only [hsym.notSkipped, hname]
  rfl

theorem effectAt_of_not_isLookedUp {i : Nat} (hi : i < obj.symbolIdRange.len)
    (h : ∀ symbol, ¬ IsLookedUp res obj i symbol) (versionIndex : Nat) :
    effectAt res fileId obj table i versionIndex = .ok {} := by
  unfold effectAt
  cases hentry : obj.parsed.symbols[i]? with
  | none => rfl
  | some symbol =>
    cases hskips : skips obj i symbol (res.symbolDefinitions (obj.symbolIdRange.start + i)) with
    | true => simp only [hskips]; rfl
    | false => exact absurd ⟨hi, hentry, hskips⟩ (h symbol)

theorem namesAgree_of_same {symbol : SymtabEntry} {localSymbolId : SymbolId}
    {name name' : PreHashedSymbolName} {isDynamic : Bool}
    (hdef : (resolveSymbol res localSymbolId ⟨name, symbol.isInterposable, symbol.isWeak⟩
        isDynamic fileId).definition.getD 0 =
      (resolveSymbol res localSymbolId ⟨name', symbol.isInterposable, symbol.isWeak⟩
        isDynamic fileId).definition.getD 0)
    (hundef : (resolveSymbol res localSymbolId ⟨name, symbol.isInterposable, symbol.isWeak⟩
        isDynamic fileId).undefined =
      (resolveSymbol res localSymbolId ⟨name', symbol.isInterposable, symbol.isWeak⟩
        isDynamic fileId).undefined) :
    NamesAgree res fileId symbol name name' := by
  unfold resolveSymbol rememberedSymbol at hdef hundef
  cases hget : res.get name symbol.isInterposable with
  | none =>
    cases hget' : res.get name' symbol.isInterposable with
    | none =>
      simp only [hget, hget', Option.some.injEq, UndefinedSymbol.mk.injEq] at hundef
      exact .inl hundef.2.1
    | some id' =>
      simp only [hget, hget'] at hundef
      split at hundef
      · cases hundef
      · cases hundef
  | some id =>
    cases hget' : res.get name' symbol.isInterposable with
    | none =>
      simp only [hget, hget'] at hundef
      split at hundef
      · cases hundef
      · cases hundef
    | some id' =>
      simp only [hget, hget', Option.getD_some] at hdef hundef
      subst hdef
      split at hundef
      · cases hundef
        exact .inl rfl
      · rename_i hforgotten
        refine .inr ⟨id, hget, hget', ?_⟩
        by_cases hprelude : res.symbolFileIds id = preludeFileId
        · exact .inr hprelude
        · by_contra hnot
          exact hforgotten ⟨fun hboth => hnot (.inl hboth), hprelude⟩

theorem resolveSymbol_eq_of_namesAgree {name name' : PreHashedSymbolName}
    (h : NamesAgree res fileId symbol name name') (localSymbolId : SymbolId) (isDynamic : Bool) :
    resolveSymbol res localSymbolId ⟨name, symbol.isInterposable, symbol.isWeak⟩ isDynamic fileId =
      resolveSymbol res localSymbolId ⟨name', symbol.isInterposable, symbol.isWeak⟩ isDynamic
        fileId := by
  rcases h with rfl | ⟨id, hget, hget', hforgotten⟩
  · rfl
  · have hnone : ∀ name, rememberedSymbol localSymbolId
        ⟨name, symbol.isInterposable, symbol.isWeak⟩ fileId (res.symbolFileIds id) = none := by
      intro name
      rw [rememberedSymbol, if_neg]
      rintro ⟨hboth, hprelude⟩
      rcases hforgotten with hforgotten | hforgotten
      · exact hboth hforgotten
      · exact hprelude hforgotten
    unfold resolveSymbol
    simp only [hget, hget', hnone]

theorem symbolId_of_undefined {localSymbolId : SymbolId} {attributes : SymbolAttributes}
    {isDynamic : Bool} {undefined : UndefinedSymbol}
    (h : (resolveSymbol res localSymbolId attributes isDynamic fileId).undefined =
      some undefined) : undefined.symbolId = localSymbolId := by
  unfold resolveSymbol rememberedSymbol at h
  split at h
  · simp only at h
    split at h
    · cases h
      rfl
    · cases h
  · cases h
    rfl

end

/-! ## All symbols of a file -/

section

variable (obj : SequencedInputObject) (effect : Nat → Effect)

/-- The outcome when the effect for each symbol is known. -/
def applyEffects (outcome : Outcome) (indices : List Nat) : Outcome :=
  indices.foldl (fun outcome i => outcome.apply (some (obj.symbolIdRange.start + i)) (effect i))
    outcome

variable {obj effect}

theorem applyEffects_cons (outcome : Outcome) (i : Nat) (indices : List Nat) :
    applyEffects obj effect outcome (i :: indices) =
      applyEffects obj effect (outcome.apply (some (obj.symbolIdRange.start + i)) (effect i))
        indices := rfl

theorem undefinedSymbols_applyEffects (outcome : Outcome) (indices : List Nat) :
    (applyEffects obj effect outcome indices).undefinedSymbols =
      outcome.undefinedSymbols ++ indices.flatMap fun i => (effect i).undefined.toList := by
  induction indices generalizing outcome with
  | nil => exact (List.append_nil _).symm
  | cons i indices ih =>
    rw [applyEffects_cons, ih, flatMap_cons, Outcome.apply, List.append_assoc]

variable {indices : List Nat}

theorem definitions_applyEffects_of_not_mem {id : SymbolId}
    (h : ∀ i ∈ indices, id ≠ obj.symbolIdRange.start + i) (outcome : Outcome) :
    (applyEffects obj effect outcome indices).definitions id = outcome.definitions id := by
  induction indices generalizing outcome with
  | nil => rfl
  | cons i indices ih =>
    rw [applyEffects_cons, ih fun j hj => h j (List.mem_cons_of_mem _ hj)]
    refine setDefinition_of_ne ?_
    intro hslot
    exact h i mem_cons_self (Option.some.inj hslot).symm

theorem definitions_applyEffects {i : Nat} (hnodup : indices.Nodup)
    (hi : i ∈ indices) (outcome : Outcome) :
    (applyEffects obj effect outcome indices).definitions (obj.symbolIdRange.start + i) =
      (effect i).definition.getD (outcome.definitions (obj.symbolIdRange.start + i)) := by
  induction indices generalizing outcome with
  | nil => cases hi
  | cons j indices ih =>
    obtain ⟨hj, hnodup⟩ := List.nodup_cons.mp hnodup
    rw [applyEffects_cons]
    by_cases hij : i = j
    · subst hij
      rw [definitions_applyEffects_of_not_mem]
      · exact setDefinition_self
      · intro k hk heq
        obtain rfl : i = k := Nat.add_left_cancel heq
        exact hj hk
    · rw [ih hnodup (List.mem_of_ne_of_mem hij hi)]
      congr 1
      refine setDefinition_of_ne ?_
      intro hslot
      exact hij (Nat.add_left_cancel (Option.some.inj hslot)).symm

end

section

variable {res : ResolutionResources} {fileId : FileId} {obj : SequencedInputObject}
  {table : VerneedTable}

variable {indices : List Nat} {versionIndex : Nat → Nat}

theorem processSymbols_eq_applyEffects {effect : Nat → Effect}
    (h : ∀ i ∈ indices, effectAt res fileId obj table i (versionIndex i) = .ok (effect i))
    (outcome : Outcome) :
    processSymbols res fileId obj table versionIndex outcome indices =
      .ok (applyEffects obj effect outcome indices) := by
  induction indices generalizing outcome with
  | nil => rfl
  | cons i indices ih =>
    rw [processSymbols, foldlM_cons, h i mem_cons_self, applyEffects_cons]
    exact ih (fun j hj => h j (List.mem_cons_of_mem _ hj)) _

variable {i : Nat}

theorem effectAt_error {versionIndex : Nat} {e : String}
    (h : effectAt res fileId obj table i versionIndex = .error e) (versionIndex' : Nat) :
    effectAt res fileId obj table i versionIndex' = .error e := by
  unfold effectAt at h ⊢
  split at h
  · cases h
  · rename_i symbol hentry
    split at h
    · cases h
    · rename_i hskips
      cases hname : symbol.name with
      | error e' =>
        rw [hname] at h
        cases h
        simp only [if_neg hskips]
        rfl
      | ok nameBytes =>
        rw [hname] at h
        cases h

theorem processSymbols_error {versionIndex' : Nat → Nat}
    (h : ∃ i ∈ indices, ∃ e, effectAt res fileId obj table i (versionIndex i) = .error e)
    (outcome outcome' : Outcome) :
    ∃ e, processSymbols res fileId obj table versionIndex outcome indices = .error e ∧
      processSymbols res fileId obj table versionIndex' outcome' indices = .error e := by
  induction indices generalizing outcome outcome' with
  | nil =>
    obtain ⟨i, hi, -⟩ := h
    cases hi
  | cons j indices ih =>
    rw [processSymbols, processSymbols, foldlM_cons, foldlM_cons]
    cases heffect : effectAt res fileId obj table j (versionIndex j) with
    | error e =>
      rw [effectAt_error heffect (versionIndex' j)]
      exact ⟨e, rfl, rfl⟩
    | ok effect =>
      cases heffect' : effectAt res fileId obj table j (versionIndex' j) with
      | error e =>
        rw [effectAt_error heffect' (versionIndex j)] at heffect
        cases heffect
      | ok effect' =>
        refine ih ?_ _ _
        obtain ⟨i, hi, e, he⟩ := h
        rcases List.mem_cons.mp hi with rfl | hi
        · rw [heffect] at he
          cases he
        · exact ⟨i, hi, e, he⟩

/-- The effect for a symbol when all names can be read. -/
def readEffect (res : ResolutionResources) (fileId : FileId) (obj : SequencedInputObject)
    (table : VerneedTable) (i versionIndex : Nat) : Effect :=
  (effectAt res fileId obj table i versionIndex).toOption.getD {}

theorem effectAt_eq_readEffect (hread : CanBeRead res obj table)
    (hi : i < obj.symbolIdRange.len) (versionIndex : Nat) :
    effectAt res fileId obj table i versionIndex =
      .ok (readEffect res fileId obj table i versionIndex) := by
  by_cases hsym : ∃ symbol, IsLookedUp res obj i symbol
  · obtain ⟨symbol, hsym⟩ := hsym
    obtain ⟨nameBytes, hname⟩ := hread.names i symbol hsym
    rw [readEffect, effectAt_of_isLookedUp hsym hname]
    rfl
  · rw [readEffect, effectAt_of_not_isLookedUp hi (not_exists.mp hsym)]
    rfl

theorem readEffect_of_isLookedUp {symbol : SymtabEntry} {nameBytes : Bytes}
    (hsym : IsLookedUp res obj i symbol) (hname : symbol.name = .ok nameBytes)
    (versionIndex : Nat) :
    readEffect res fileId obj table i versionIndex = resolveSymbol res (obj.symbolIdRange.start + i)
        ⟨lookupName res table nameBytes versionIndex, symbol.isInterposable, symbol.isWeak⟩
        obj.parsed.isDynamic fileId := by
  rw [readEffect, effectAt_of_isLookedUp hsym hname]
  rfl

theorem symbolId_of_mem_readEffect {versionIndex : Nat} {undefined : UndefinedSymbol}
    (hread : CanBeRead res obj table) (hi : i < obj.symbolIdRange.len)
    (h : (readEffect res fileId obj table i versionIndex).undefined = some undefined) :
    undefined.symbolId = obj.symbolIdRange.start + i := by
  by_cases hsym : ∃ symbol, IsLookedUp res obj i symbol
  · obtain ⟨symbol, hsym⟩ := hsym
    obtain ⟨nameBytes, hname⟩ := hread.names i symbol hsym
    rw [readEffect_of_isLookedUp hsym hname] at h
    exact symbolId_of_undefined h
  · rw [readEffect, effectAt_of_not_isLookedUp hi (not_exists.mp hsym)] at h
    cases h

theorem mem_undefinedSymbols_iff (hread : CanBeRead res obj table) {versionIndex : Nat → Nat}
    {i : Nat} (hi : i < obj.symbolIdRange.len) {undefined : UndefinedSymbol}
    (hid : undefined.symbolId = obj.symbolIdRange.start + i) (definitions : SymbolId → SymbolId) :
    undefined ∈ (applyEffects obj
        (fun i => readEffect res fileId obj table i (versionIndex i)) ⟨definitions, [], []⟩
        (range' 0 obj.symbolIdRange.len)).undefinedSymbols ↔
      (readEffect res fileId obj table i (versionIndex i)).undefined = some undefined := by
  rw [undefinedSymbols_applyEffects, List.nil_append, List.mem_flatMap]
  constructor
  · rintro ⟨j, hj, hmem⟩
    have hj := (mem_range'_1.mp hj).2
    have hmem := Option.mem_toList.mp hmem
    have hid' := symbolId_of_mem_readEffect hread (by omega) hmem
    obtain rfl : i = j := Nat.add_left_cancel (hid.symm.trans hid')
    exact hmem
  · intro h
    exact ⟨i, mem_range'_1.mpr ⟨Nat.zero_le _, by omega⟩, Option.mem_toList.mpr h⟩

end

/-! ## The chunks and the whole -/

section

variable {res : ResolutionResources} {fileId : FileId} {obj : SequencedInputObject}

variable {table : VerneedTable}

section

variable (hobj : res.object fileId = some obj)

include hobj

theorem processWork_workItems (htable : obj.parsed.verneedTable = .ok table) (size : Nat) :
    processWork res (workItems size fileId 0 obj.symbolIdRange) =
      processSymbols res fileId obj table (· % size) ⟨res.symbolDefinitions, [], []⟩
        (range' 0 obj.symbolIdRange.len) :=
  foldlM_workItems hobj htable size 0 obj.symbolIdRange rfl _

theorem processWork_whole (htable : obj.parsed.verneedTable = .ok table) :
    processWork res [⟨fileId, 0, obj.symbolIdRange⟩] =
      processSymbols res fileId obj table (fun i => i) ⟨res.symbolDefinitions, [], []⟩
        (range' 0 obj.symbolIdRange.len) := by
  have hwhole : workItems 0 fileId 0 obj.symbolIdRange = [⟨fileId, 0, obj.symbolIdRange⟩] := by
    rw [workItems, dif_pos (.inr rfl)]
  rw [← hwhole, processWork_workItems hobj htable]
  exact processSymbols_congr (fun i _ => Nat.mod_zero i) _

theorem processWork_of_versions_error {e : String} (he : obj.parsed.verneedTable = .error e)
    (offset : Nat) (range : SymbolIdRange) (work : List LoadObjectSymbolsRequest) :
    processWork res (⟨fileId, offset, range⟩ :: work) = .error e := by
  obtain ⟨objects, hgroup, hobj⟩ := group_of_object hobj
  have hstep : initialEffect res (⟨fileId, offset, range⟩, 0) = .error e := by
    unfold initialEffect stepEffect
    simp only [hgroup, hobj, he]
    rfl
  rw [processWork, flatMap_cons, allSteps,
    steps, List.range'_succ, map_cons, List.cons_append,
    foldlM_cons, processStep, hstep]
  rfl

omit hobj in
theorem exists_workItems_eq_cons (size offset : Nat) (range : SymbolIdRange) :
    ∃ range' work, workItems size fileId offset range = ⟨fileId, offset, range'⟩ :: work := by
  rw [workItems]
  split
  · exact ⟨_, _, rfl⟩
  · exact ⟨_, _, rfl⟩

variable {size : Nat}

theorem namesAgree_of_sameResult (hread : CanBeRead res obj table)
    (h : SameResult (processWork res (workItems size fileId 0 obj.symbolIdRange))
      (processWork res [⟨fileId, 0, obj.symbolIdRange⟩]))
    {i : Nat} {symbol : SymtabEntry} {nameBytes : Bytes} (hsym : IsLookedUp res obj i symbol)
    (hname : symbol.name = .ok nameBytes) :
    NamesAgree res fileId symbol (lookupName res table nameBytes (i % size))
      (lookupName res table nameBytes i) := by
  have hall : ∀ versionIndex : Nat → Nat, ∀ i ∈ range' 0 obj.symbolIdRange.len,
      effectAt res fileId obj table i (versionIndex i) =
        .ok (readEffect res fileId obj table i (versionIndex i)) := by
    intro versionIndex i hi
    have hi := (mem_range'_1.mp hi).2
    exact effectAt_eq_readEffect hread (by omega) _
  rw [processWork_workItems hobj hread.versions, processWork_whole hobj hread.versions,
    processSymbols_eq_applyEffects (hall (· % size)),
    processSymbols_eq_applyEffects (hall fun i => i)] at h
  cases h with
  | ok hsame =>
    have hi := hsym.inRange
    have hmem : i ∈ range' 0 obj.symbolIdRange.len :=
      mem_range'_1.mpr ⟨Nat.zero_le _, by omega⟩
    refine @namesAgree_of_same res fileId symbol (obj.symbolIdRange.start + i) _ _
      obj.parsed.isDynamic ?_ ?_
    · have hdef := congrFun hsame.definitions (obj.symbolIdRange.start + i)
      rw [definitions_applyEffects List.nodup_range' hmem,
        definitions_applyEffects List.nodup_range' hmem,
        readEffect_of_isLookedUp hsym hname,
        readEffect_of_isLookedUp hsym hname] at hdef
      simp only [(skips_eq_false.mp hsym.notSkipped).1] at hdef
      exact hdef
    · rw [← readEffect_of_isLookedUp hsym hname, ← readEffect_of_isLookedUp hsym hname]
      apply Option.ext
      intro undefined
      constructor
      · intro hundef
        have hid := symbolId_of_mem_readEffect hread hi hundef
        have hmem := (@mem_undefinedSymbols_iff res fileId obj table hread (· % size) i hi
          undefined hid res.symbolDefinitions).mpr hundef
        exact (@mem_undefinedSymbols_iff res fileId obj table hread (fun i => i) i hi
          undefined hid res.symbolDefinitions).mp (hsame.undefinedSymbols.mem_iff.mp hmem)
      · intro hundef
        have hid := symbolId_of_mem_readEffect hread hi hundef
        have hmem := (@mem_undefinedSymbols_iff res fileId obj table hread (fun i => i) i hi
          undefined hid res.symbolDefinitions).mpr hundef
        exact (@mem_undefinedSymbols_iff res fileId obj table hread (· % size) i hi
          undefined hid res.symbolDefinitions).mp (hsame.undefinedSymbols.mem_iff.mpr hmem)

theorem sameResult_of_namesAgree (hread : CanBeRead res obj table)
    (h : ∀ i symbol nameBytes, IsLookedUp res obj i symbol → symbol.name = .ok nameBytes →
      NamesAgree res fileId symbol (lookupName res table nameBytes (i % size))
        (lookupName res table nameBytes i)) :
    processWork res (workItems size fileId 0 obj.symbolIdRange) =
      processWork res [⟨fileId, 0, obj.symbolIdRange⟩] := by
  rw [processWork_workItems hobj hread.versions, processWork_whole hobj hread.versions]
  have heffect : ∀ i ∈ range' 0 obj.symbolIdRange.len,
      effectAt res fileId obj table i (i % size) = .ok (readEffect res fileId obj table i i) := by
    intro i hi
    have hi := (mem_range'_1.mp hi).2
    by_cases hsym : ∃ symbol, IsLookedUp res obj i symbol
    · obtain ⟨symbol, hsym⟩ := hsym
      obtain ⟨nameBytes, hname⟩ := hread.names i symbol hsym
      rw [effectAt_of_isLookedUp hsym hname, readEffect_of_isLookedUp hsym hname,
        resolveSymbol_eq_of_namesAgree (h i symbol nameBytes hsym hname)]
    · have hnot := not_exists.mp hsym
      rw [effectAt_of_not_isLookedUp (by omega) hnot, readEffect,
        effectAt_of_not_isLookedUp (by omega) hnot]
      rfl
  have hwhole : ∀ i ∈ range' 0 obj.symbolIdRange.len,
      effectAt res fileId obj table i i = .ok (readEffect res fileId obj table i i) := by
    intro i hi
    have hi := (mem_range'_1.mp hi).2
    exact effectAt_eq_readEffect hread (by omega) _
  rw [processSymbols_eq_applyEffects heffect, processSymbols_eq_applyEffects hwhole]

theorem sameResult_of_not_canBeRead (h : ∀ table, ¬ CanBeRead res obj table) (size : Nat) :
    SameResult (processWork res (workItems size fileId 0 obj.symbolIdRange))
      (processWork res [⟨fileId, 0, obj.symbolIdRange⟩]) := by
  cases htable : obj.parsed.verneedTable with
  | error e =>
    obtain ⟨range, work, hwork⟩ := @exists_workItems_eq_cons fileId size 0 obj.symbolIdRange
    rw [hwork, processWork_of_versions_error hobj htable, processWork_of_versions_error hobj htable]
    exact .error e
  | ok table =>
    have hunreadable : ∃ i ∈ range' 0 obj.symbolIdRange.len, ∃ e,
        effectAt res fileId obj table i (i % size) = .error e := by
      by_contra hnone
      refine h table ⟨htable, fun i symbol hsym => ?_⟩
      cases hname : symbol.name with
      | ok nameBytes => exact ⟨nameBytes, rfl⟩
      | error e =>
        have hi := hsym.inRange
        refine absurd ⟨i, mem_range'_1.mpr ⟨Nat.zero_le _, by omega⟩, e, ?_⟩ hnone
        unfold effectAt
        rw [hsym.entry]
        simp only [hsym.notSkipped, hname]
        rfl
    obtain ⟨e, hchunks, hwhole⟩ := processSymbols_error hunreadable
      ⟨res.symbolDefinitions, [], []⟩ ⟨res.symbolDefinitions, [], []⟩
    rw [processWork_workItems hobj htable, processWork_whole hobj htable, hchunks, hwhole]
    exact .error e

end

/-- Resolution in chunks is resolution of the whole file exactly when the file
cannot be read or every symbol that is looked up may as well be looked up
with the version at its place in the chunk. -/
theorem chunks_same_iff (hobj : res.object fileId = some obj) (size : Nat) :
    SameResult (processWork res (workItems size fileId 0 obj.symbolIdRange))
        (processWork res [⟨fileId, 0, obj.symbolIdRange⟩]) ↔
      ∀ table, CanBeRead res obj table → ∀ i symbol nameBytes, IsLookedUp res obj i symbol →
        symbol.name = .ok nameBytes →
          NamesAgree res fileId symbol (lookupName res table nameBytes (i % size))
            (lookupName res table nameBytes i) := by
  constructor
  · intro h table hread i symbol nameBytes hsym hname
    exact namesAgree_of_sameResult hobj hread h hsym hname
  · intro h
    by_cases hread : ∃ table, CanBeRead res obj table
    · obtain ⟨table, hread⟩ := hread
      rw [sameResult_of_namesAgree hobj hread (h table hread)]
      cases processWork res [⟨fileId, 0, obj.symbolIdRange⟩] with
      | error e => exact .error e
      | ok outcome => exact .ok ⟨rfl, .refl _, .refl _⟩
    · exact sameResult_of_not_canBeRead hobj (not_exists.mp hread) size

end

/-! ### A symbol of the second chunk -/

section

/-- A shared object whose last symbol, the first of the second chunk, needs
`foo@V`. -/
def manySymbols : ParsedInputObject :=
  ⟨List.replicate 5000 nullSymbol ++ [globalSymbol [102, 111, 111] true false], [], [], true, false,
    false, false, .ok ⟨List.replicate 5000 0 ++ [2], [none, none, some [86]]⟩⟩

def manySymbolsObject : SequencedInputObject := ⟨manySymbols, 1, manySymbols.symbols.length⟩

/-- `foo@V` is a symbol of a second shared object. -/
def versionedReference : ResolutionResources where
  platform := .elf
  inputs :=
    { linkerDefined := []
      objectGroups := [[manySymbols, ⟨[nullSymbol, globalSymbol [102, 111, 111] false false], [], [],
        true, false, false, false, .ok ⟨[], []⟩⟩]]
      linkerScripts := [] }
  hashBytes _ := 0
  buckets := [⟨⟨[], []⟩, ⟨[(([102, 111, 111], [86]), 5003)], []⟩⟩]
  symbolFileIds id := if id = 0 then preludeFileId else if id ≤ 5001 then ⟨1, 0⟩ else ⟨1, 1⟩
  symbolDefinitions id := if id = 5001 then 0 else id
  entrySymbolName := []
  exportListRootsArchiveSymbols := false
  exportList := none

theorem object_versionedReference : versionedReference.object ⟨1, 0⟩ = some manySymbolsObject := rfl

theorem symbols_manySymbols_last :
    manySymbols.symbols[5000]? = some (globalSymbol [102, 111, 111] true false) := by
  rw [manySymbols, List.getElem?_append_right (by rw [length_replicate])]
  rw [length_replicate]
  rfl

theorem isLookedUp_manySymbols {i : Nat} {symbol : SymtabEntry} :
    IsLookedUp versionedReference manySymbolsObject i symbol ↔
      i = 5000 ∧ symbol = globalSymbol [102, 111, 111] true false := by
  have hlen : manySymbols.symbols.length = 5001 := by
    rw [manySymbols, List.length_append, length_replicate]
    rfl
  constructor
  · rintro ⟨hi, hentry, hskips⟩
    have hzero := (skips_eq_false.mp hskips).1
    have hi : i = 5000 := by
      by_contra hne
      have hdef : versionedReference.symbolDefinitions (1 + i) = 1 + i :=
        if_neg (show ¬ 1 + i = 5001 by omega)
      have hzero : versionedReference.symbolDefinitions (1 + i) = 0 := hzero
      rw [hdef] at hzero
      cases (Nat.add_eq_zero_iff.mp hzero).1
    subst hi
    have hentry : manySymbols.symbols[5000]? = some symbol := hentry
    rw [symbols_manySymbols_last] at hentry
    exact ⟨rfl, (Option.some.inj hentry).symm⟩
  · rintro ⟨rfl, rfl⟩
    refine ⟨?_, symbols_manySymbols_last, rfl⟩
    show 5000 < manySymbols.symbols.length
    omega

theorem canBeRead_manySymbols : CanBeRead versionedReference manySymbolsObject
    ⟨replicate 5000 0 ++ [2], [none, none, some [86]]⟩ where
  versions := rfl
  names i symbol hsym := by
    obtain ⟨-, rfl⟩ := isLookedUp_manySymbols.mp hsym
    exact ⟨_, rfl⟩

theorem lookupName_manySymbols_zero : lookupName versionedReference
    ⟨replicate 5000 0 ++ [2], [none, none, some [86]]⟩ [102, 111, 111] 0 =
      .unversioned [102, 111, 111] := rfl

theorem lookupName_manySymbols_last : lookupName versionedReference
    ⟨replicate 5000 0 ++ [2], [none, none, some [86]]⟩ [102, 111, 111] 5000 =
      .versioned [102, 111, 111] [86] := by
  have hver : (replicate 5000 0 ++ [2])[5000]? = some 2 := by
    rw [List.getElem?_append_right (by rw [length_replicate]), length_replicate]
    rfl
  unfold lookupName Platform.rawSymbolName VerneedTable.versionName
  simp only [hver]
  rfl

/-- The chunks of the linker lose the version of the last symbol. -/
theorem second_chunk_loses_version :
    versionedReference.object ⟨1, 0⟩ = some manySymbolsObject ∧
      ¬ SameResult
        (processWork versionedReference
          (workItemsDo versionedReference ⟨1, 0⟩ manySymbolsObject.symbolIdRange))
        (processWork versionedReference [⟨⟨1, 0⟩, 0, manySymbolsObject.symbolIdRange⟩]) := by
  refine ⟨object_versionedReference, ?_⟩
  intro h
  have hagree := namesAgree_of_sameResult object_versionedReference canBeRead_manySymbols h
    (isLookedUp_manySymbols.mpr ⟨rfl, rfl⟩) rfl
  rw [show 5000 % maxSymbolsPerWorkItem = 0 from rfl, lookupName_manySymbols_zero,
    lookupName_manySymbols_last] at hagree
  rcases hagree with hname | ⟨id, hget, -⟩
  · cases hname
  · have hnone : versionedReference.get (.unversioned [102, 111, 111]) true = none := rfl
    have hget : versionedReference.get (.unversioned [102, 111, 111]) true = some id := hget
    rw [hnone] at hget
    cases hget

theorem chunks_same_manySymbols :
    versionedReference.object ⟨1, 0⟩ = some manySymbolsObject ∧
    (SameResult (processWork versionedReference
          (workItems 5001 ⟨1, 0⟩ 0 manySymbolsObject.symbolIdRange))
        (processWork versionedReference [⟨⟨1, 0⟩, 0, manySymbolsObject.symbolIdRange⟩]) ↔
      ∀ table, CanBeRead versionedReference manySymbolsObject table → ∀ i symbol nameBytes,
        IsLookedUp versionedReference manySymbolsObject i symbol →
        symbol.name = .ok nameBytes →
          NamesAgree versionedReference ⟨1, 0⟩ symbol
            (lookupName versionedReference table nameBytes (i % 5001))
            (lookupName versionedReference table nameBytes i)) :=
  ⟨object_versionedReference, chunks_same_iff object_versionedReference 5001⟩

end

end Sld.Symbols
