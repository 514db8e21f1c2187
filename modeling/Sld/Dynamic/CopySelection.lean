/-
# `Dynamic.CopySelection` — which symbol is copied

    Entered            the map after some requests
    foldl_select       what the loop over the symbols makes of it
    copied             the symbol that is copied in the end
-/
import Mathlib.Data.List.Find
import Sld.Dynamic.CopyRelocations

namespace Sld.Dynamic.Copies

open Text.Reader (bind_eq_ok)
open List (append_nil filter_append filter_nil map_append map_congr_left map_map mem_map
  mem_singleton)
open CopyRelocationInfo (addSymbol)

/-! ## Requests -/

/-- The requests for symbols at an address. -/
def requestsAt (symbols : List Symbol) (requests : List ℕ) (address : ℕ) : List ℕ :=
  requests.filter fun symbolId => symbols[symbolId]?.any (·.value = address)

/-- Those for symbols that are not weak. -/
def strongRequestsAt (symbols : List Symbol) (requests : List ℕ) (address : ℕ) : List ℕ :=
  (requestsAt symbols requests address).filter fun symbolId =>
    symbols[symbolId]?.any (!·.isWeak)

section

variable {symbols : List Symbol} {requests : List ℕ} {symbolId address : ℕ} {symbol : Symbol}

theorem mem_requestsAt : symbolId ∈ requestsAt symbols requests address ↔
    symbolId ∈ requests ∧ ∃ symbol ∈ symbols[symbolId]?, symbol.value = address := by
  rw [requestsAt, List.mem_filter, Option.any_eq_true]
  simp

variable (h : symbols[symbolId]? = some symbol)

include h

theorem requestsAt_append_self :
    requestsAt symbols (requests ++ [symbolId]) symbol.value
      = requestsAt symbols requests symbol.value ++ [symbolId] := by
  rw [requestsAt, filter_append, List.filter_cons_of_pos (by rw [h]; simp), filter_nil,
    requestsAt]

theorem requestsAt_append_of_ne (hne : symbol.value ≠ address) :
    requestsAt symbols (requests ++ [symbolId]) address = requestsAt symbols requests address := by
  rw [requestsAt, filter_append, List.filter_cons_of_neg (by rw [h]; simpa using hne),
    filter_nil, append_nil, requestsAt]

theorem strongRequestsAt_append_of_ne (hne : symbol.value ≠ address) :
    strongRequestsAt symbols (requests ++ [symbolId]) address
      = strongRequestsAt symbols requests address := by
  rw [strongRequestsAt, requestsAt_append_of_ne h hne, strongRequestsAt]

theorem strongRequestsAt_append_weak (hweak : symbol.isWeak = true) :
    strongRequestsAt symbols (requests ++ [symbolId]) symbol.value
      = strongRequestsAt symbols requests symbol.value := by
  rw [strongRequestsAt, requestsAt_append_self h, filter_append,
    List.filter_cons_of_neg (by rw [h]; simp [hweak]), filter_nil, append_nil,
    strongRequestsAt]

theorem strongRequestsAt_append_strong (hstrong : symbol.isWeak = false) :
    strongRequestsAt symbols (requests ++ [symbolId]) symbol.value
      = strongRequestsAt symbols requests symbol.value ++ [symbolId] := by
  rw [strongRequestsAt, requestsAt_append_self h, filter_append,
    List.filter_cons_of_pos (by rw [h]; simp [hstrong]), filter_nil, strongRequestsAt]

theorem mem_strongRequestsAt (hmem : symbolId ∈ requestsAt symbols requests address)
    (hstrong : symbol.isWeak = false) : symbolId ∈ strongRequestsAt symbols requests address :=
  List.mem_filter.mpr ⟨hmem, by rw [h]; simp [hstrong]⟩

end

/-- The entry of the map for an address: the last strong symbol that was
requested, or else the first weak one. -/
def IsEntry (symbols : List Symbol) (requests : List ℕ) (info : CopyRelocationInfo) : Prop :=
  if info.isWeak then
    strongRequestsAt symbols requests info.address = []
      ∧ (requestsAt symbols requests info.address).head? = some info.symbolId
  else (strongRequestsAt symbols requests info.address).getLast? = some info.symbolId

/-- The map after some requests. -/
structure Entered (symbols : List Symbol) (requests : List ℕ) (infos : List CopyRelocationInfo) :
    Prop where
  nodup : (infos.map CopyRelocationInfo.address).Nodup
  mem : ∀ address, address ∈ infos.map CopyRelocationInfo.address
    ↔ requestsAt symbols requests address ≠ []
  entry : ∀ info ∈ infos, IsEntry symbols requests info

theorem map_address_updateAt {address : ℕ} {f : CopyRelocationInfo → CopyRelocationInfo}
    (hf : ∀ info, (f info).address = info.address) (infos : List CopyRelocationInfo) :
    (updateAt address f infos).map CopyRelocationInfo.address
      = infos.map CopyRelocationInfo.address := by
  rw [updateAt, map_map]
  refine map_congr_left fun info _ => ?_
  rw [Function.comp_apply]
  split
  · exact hf info
  · rfl

theorem address_addSymbol (info : CopyRelocationInfo) (symbolId : ℕ) (isWeak : Bool) :
    (info.addSymbol symbolId isWeak).address = info.address := by
  unfold addSymbol
  split <;> rfl

theorem any_address {infos : List CopyRelocationInfo} {address : ℕ} :
    (infos.any fun info => decide (info.address = address)) = true
      ↔ address ∈ infos.map CopyRelocationInfo.address := by
  rw [List.any_eq_true, mem_map]
  exact exists_congr fun info => and_congr_right fun _ => decide_eq_true_iff

section Requests

variable {symbols : List Symbol} {requests : List ℕ} {symbolId : ℕ} {symbol : Symbol}
  {infos : List CopyRelocationInfo}

variable {info : CopyRelocationInfo}

theorem IsEntry.of_ne (h : IsEntry symbols requests info)
    (hsym : symbols[symbolId]? = some symbol) (hne : symbol.value ≠ info.address) :
    IsEntry symbols (requests ++ [symbolId]) info := by
  unfold IsEntry
  rw [strongRequestsAt_append_of_ne hsym hne, requestsAt_append_of_ne hsym hne]
  exact h

theorem IsEntry.addSymbol (h : IsEntry symbols requests info)
    (hsym : symbols[symbolId]? = some symbol) (heq : info.address = symbol.value) :
    IsEntry symbols (requests ++ [symbolId]) (info.addSymbol symbolId symbol.isWeak) := by
  obtain ⟨address, entered, isWeak⟩ := info
  subst heq
  cases hweak : symbol.isWeak with
  | true =>
    have hkeep : addSymbol ⟨symbol.value, entered, isWeak⟩ symbolId true
        = ⟨symbol.value, entered, isWeak⟩ := if_pos (.inr rfl)
    rw [hkeep]
    cases isWeak with
    | true =>
      obtain ⟨hstrong, hhead⟩ := h
      refine ⟨?_, ?_⟩
      · exact (strongRequestsAt_append_weak hsym hweak).trans hstrong
      · rw [requestsAt_append_self hsym, List.head?_append, hhead, Option.some_or]
    | false =>
      show (strongRequestsAt symbols (requests ++ [symbolId]) symbol.value).getLast? = some entered
      rw [strongRequestsAt_append_weak hsym hweak]
      exact h
  | false =>
    have hlast : (strongRequestsAt symbols (requests ++ [symbolId]) symbol.value).getLast?
        = some symbolId := by
      rw [strongRequestsAt_append_strong hsym hweak, List.getLast?_concat]
    by_cases hsame : entered = symbolId
    · subst hsame
      have hkeep : addSymbol ⟨symbol.value, entered, isWeak⟩ entered false
          = ⟨symbol.value, entered, isWeak⟩ := if_pos (.inl rfl)
      rw [hkeep]
      cases isWeak with
      | true =>
        -- the first request was for this symbol, which is not weak
        obtain ⟨hstrong, hhead⟩ := h
        have hmem := mem_strongRequestsAt hsym (List.mem_of_mem_head? hhead) hweak
        rw [hstrong] at hmem
        cases hmem
      | false => exact hlast
    · have hreplace : addSymbol ⟨symbol.value, entered, isWeak⟩ symbolId false
          = ⟨symbol.value, symbolId, false⟩ := by
        refine if_neg fun hor => ?_
        rcases hor with h | h
        · exact hsame h
        · cases h
      rw [hreplace]
      exact hlast

theorem Entered.request (h : Entered symbols requests infos)
    (hsym : symbols[symbolId]? = some symbol) :
    ∃ infos', copyRelocateSymbol symbols infos symbolId = .ok infos'
      ∧ Entered symbols (requests ++ [symbolId]) infos' := by
  have haddr := @map_address_updateAt symbol.value
    (·.addSymbol symbolId symbol.isWeak) fun info => address_addSymbol info _ _
  refine ⟨_, bind_eq_ok.mpr ⟨symbol, by rw [hsym]; rfl, rfl⟩, ?_⟩
  by_cases hany : (infos.any fun info => decide (info.address = symbol.value)) = true
  · rw [if_pos hany]
    have hin := any_address.mp hany
    refine ⟨?_, fun address => ?_, fun info hmem => ?_⟩
    · rw [haddr]
      exact h.nodup
    · rw [haddr, h.mem]
      by_cases heq : symbol.value = address
      · subst heq
        rw [requestsAt_append_self hsym]
        exact ⟨fun _ => by simp, fun _ => (h.mem _).mp hin⟩
      · rw [requestsAt_append_of_ne hsym heq]
    · obtain ⟨info, hold, rfl⟩ := mem_map.mp hmem
      split
      · next heq => exact (h.entry info hold).addSymbol hsym heq
      · next hne => exact (h.entry info hold).of_ne hsym fun heq => hne heq.symm
  · rw [if_neg hany]
    have hnot : symbol.value ∉ infos.map CopyRelocationInfo.address := fun hmem =>
      hany (any_address.mpr hmem)
    have hnone : requestsAt symbols requests symbol.value = [] := by
      by_contra hne
      exact hnot ((h.mem _).mpr hne)
    have hstrong : strongRequestsAt symbols requests symbol.value = [] := by
      rw [strongRequestsAt, hnone]
      rfl
    have hnew : IsEntry symbols (requests ++ [symbolId])
        (addSymbol ⟨symbol.value, symbolId, symbol.isWeak⟩ symbolId
          symbol.isWeak) := by
      have hkeep : addSymbol ⟨symbol.value, symbolId, symbol.isWeak⟩ symbolId
          symbol.isWeak = ⟨symbol.value, symbolId, symbol.isWeak⟩ := if_pos (.inl rfl)
      rw [hkeep]
      cases hweak : symbol.isWeak with
      | true =>
        refine ⟨?_, ?_⟩
        · exact (strongRequestsAt_append_weak hsym hweak).trans hstrong
        · rw [requestsAt_append_self hsym, hnone]
          rfl
      | false =>
        show (strongRequestsAt symbols (requests ++ [symbolId]) symbol.value).getLast?
          = some symbolId
        rw [strongRequestsAt_append_strong hsym hweak, List.getLast?_concat]
    refine ⟨?_, fun address => ?_, fun info hmem => ?_⟩
    · rw [haddr, map_append]
      exact List.nodup_append.mpr ⟨h.nodup, List.nodup_singleton _, fun a ha b hb => by
        rw [mem_singleton.mp hb]
        rintro rfl
        exact hnot ha⟩
    · rw [haddr, map_append, List.mem_append, h.mem, List.map_singleton, mem_singleton]
      by_cases heq : symbol.value = address
      · subst heq
        rw [requestsAt_append_self hsym]
        exact ⟨fun _ => by simp, fun _ => .inr rfl⟩
      · rw [requestsAt_append_of_ne hsym heq]
        exact or_iff_left fun h => heq h.symm
    · obtain ⟨info, hentered, rfl⟩ := mem_map.mp hmem
      rcases List.mem_append.mp hentered with hold | hnewest
      · have hne : info.address ≠ symbol.value := by
          intro heq
          exact hnot (heq ▸ List.mem_map_of_mem hold)
        rw [if_neg hne]
        exact (h.entry info hold).of_ne hsym hne.symm
      · obtain rfl := mem_singleton.mp hnewest
        rw [if_pos rfl]
        exact hnew

theorem exists_foldlM_requests {done : List ℕ} (h : Entered symbols done infos)
    (hsyms : ∀ symbolId ∈ requests, ∃ symbol, symbols[symbolId]? = some symbol) :
    ∃ infos', requests.foldlM (copyRelocateSymbol symbols) infos = .ok infos'
      ∧ Entered symbols (done ++ requests) infos' := by
  induction requests generalizing done infos with
  | nil =>
    rw [append_nil]
    exact ⟨infos, rfl, h⟩
  | cons symbolId requests ih =>
    rw [List.forall_mem_cons] at hsyms
    obtain ⟨symbol, hsym⟩ := hsyms.1
    obtain ⟨infos₁, hfirst, h₁⟩ := h.request hsym
    obtain ⟨infos', hrest, h'⟩ := ih h₁ hsyms.2
    rw [List.append_assoc, List.singleton_append] at h'
    exact ⟨infos', by rw [List.foldlM_cons, hfirst]; exact hrest, h'⟩

theorem entered_nil : Entered symbols [] [] where
  nodup := List.nodup_nil
  mem _ := ⟨fun h => absurd h List.not_mem_nil, fun h => absurd rfl h⟩
  entry _ h := absurd h List.not_mem_nil

end Requests

/-! ## Alternatives -/

/-- A strong symbol at the address of an entry, other than the one entered. -/
def isAlternative (info : CopyRelocationInfo) (entry : Symbol × ℕ) : Bool :=
  entry.1.isCanonical && decide (entry.1.value = info.address) && !entry.1.isWeak
    && decide (info.symbolId ≠ entry.2)

def replaceBy (info : CopyRelocationInfo) : Option (Symbol × ℕ) → CopyRelocationInfo
  | some entry => ⟨info.address, entry.2, false⟩
  | none => info

/-- What the loop makes of an entry. -/
def selectFor (entries : List (Symbol × ℕ)) (info : CopyRelocationInfo) : CopyRelocationInfo :=
  if info.isWeak then replaceBy info (entries.find? (isAlternative info)) else info

/-- The symbols that the loop exports. -/
def exported (infos : List CopyRelocationInfo) (entries : List (Symbol × ℕ)) : List ℕ :=
  (entries.filter fun entry =>
    infos.any (·.address = entry.1.value) && entry.1.isCanonical).map Prod.snd

theorem address_selectFor (entries : List (Symbol × ℕ)) (info : CopyRelocationInfo) :
    (selectFor entries info).address = info.address := by
  unfold selectFor
  split
  · cases entries.find? (isAlternative info) <;> rfl
  · rfl

variable {entries : List (Symbol × ℕ)} {info : CopyRelocationInfo}

theorem selectFor_append_of_not {entry : Symbol × ℕ} (h : isAlternative info entry = false) :
    selectFor (entries ++ [entry]) info = selectFor entries info := by
  unfold selectFor
  rw [List.find?_append, List.find?_singleton, h, if_neg Bool.false_ne_true, Option.or_none]

theorem selectFor_append_self {symbol : Symbol} {symbolId : ℕ}
    (hcanon : symbol.isCanonical = true) (haddr : info.address = symbol.value) :
    selectFor (entries ++ [(symbol, symbolId)]) info =
      if symbol.isWeak || !(selectFor entries info).isWeak
          || decide ((selectFor entries info).symbolId = symbolId) then selectFor entries info
      else ⟨info.address, symbolId, false⟩ := by
  unfold selectFor
  cases hweak : info.isWeak with
  | false =>
    rw [if_neg Bool.false_ne_true, if_neg Bool.false_ne_true, hweak]
    simp
  | true =>
    rw [if_pos rfl, if_pos rfl, List.find?_append, List.find?_singleton]
    cases entries.find? (isAlternative info) with
    | some found =>
      show _ = if symbol.isWeak || !false || _ then _ else _
      simp
    | none =>
      have halt : isAlternative info (symbol, symbolId)
          = (!symbol.isWeak && decide (info.symbolId ≠ symbolId)) := by
        rw [isAlternative, hcanon, haddr, decide_eq_true rfl]
        simp
      rw [halt, Option.none_or]
      show _ = if symbol.isWeak || !info.isWeak || decide (info.symbolId = symbolId) then info
        else _
      rw [hweak]
      cases symbol.isWeak with
      | true => simp [replaceBy]
      | false =>
        by_cases hsame : info.symbolId = symbolId
        · simp [hsame, replaceBy]
        · simp [hsame, replaceBy]

theorem selectAlternative_eq (infos : List CopyRelocationInfo) (entries : List (Symbol × ℕ))
    (entry : Symbol × ℕ) :
    selectAlternative ⟨infos.map (selectFor entries), exported infos entries⟩ entry
      = ⟨infos.map (selectFor (entries ++ [entry])), exported infos (entries ++ [entry])⟩ := by
  obtain ⟨symbol, symbolId⟩ := entry
  have hany : ((infos.map (selectFor entries)).any fun info => decide (info.address = symbol.value))
      = infos.any fun info => decide (info.address = symbol.value) := by
    rw [List.any_map]
    refine congrArg (infos.any ·) (funext fun info => ?_)
    rw [Function.comp_apply, address_selectFor]
  have hskip : (∀ info ∈ infos, isAlternative info (symbol, symbolId) = false) →
      infos.map (selectFor (entries ++ [(symbol, symbolId)])) = infos.map (selectFor entries) :=
    fun h => map_congr_left fun info hmem => selectFor_append_of_not (h info hmem)
  have hexported : exported infos (entries ++ [(symbol, symbolId)]) = exported infos entries
      ++ if infos.any (fun info => decide (info.address = symbol.value)) && symbol.isCanonical
        then [symbolId] else [] := by
    rw [exported, filter_append, map_append, exported, List.filter_cons, filter_nil]
    split <;> rfl
  unfold selectAlternative
  simp only [hany]
  rw [hexported]
  cases hin : infos.any fun info => decide (info.address = symbol.value) with
  | false =>
    have hnot : ∀ info ∈ infos, isAlternative info (symbol, symbolId) = false := by
      intro info hmem
      have hne : info.address ≠ symbol.value := by
        intro heq
        rw [any_address.mpr (heq ▸ List.mem_map_of_mem hmem)] at hin
        cases hin
      rw [isAlternative, decide_eq_false (Ne.symm hne)]
      simp
    rw [hskip hnot]
    simp
  | true =>
    cases hcanon : symbol.isCanonical with
    | false =>
      have hnot : ∀ info ∈ infos, isAlternative info (symbol, symbolId) = false := by
        intro info _
        rw [isAlternative, hcanon]
        rfl
      rw [hskip hnot]
      simp
    | true =>
      have hupd : updateAt symbol.value (fun info =>
            if symbol.isWeak || !info.isWeak || decide (info.symbolId = symbolId) then info
            else ⟨info.address, symbolId, false⟩) (infos.map (selectFor entries))
          = infos.map (selectFor (entries ++ [(symbol, symbolId)])) := by
        rw [updateAt, map_map]
        refine map_congr_left fun info _ => ?_
        rw [Function.comp_apply, address_selectFor]
        split
        · next haddr => rw [selectFor_append_self hcanon haddr]
        · next haddr =>
          refine (selectFor_append_of_not ?_).symm
          rw [isAlternative, decide_eq_false (Ne.symm haddr)]
          simp
      rw [hupd]
      simp

theorem foldl_select (infos : List CopyRelocationInfo) (entries done : List (Symbol × ℕ)) :
    entries.foldl selectAlternative ⟨infos.map (selectFor done), exported infos done⟩
      = ⟨infos.map (selectFor (done ++ entries)), exported infos (done ++ entries)⟩ := by
  induction entries generalizing done with
  | nil => rw [List.foldl_nil, append_nil]
  | cons entry entries ih =>
    rw [List.foldl_cons, selectAlternative_eq, ih, List.append_assoc, List.singleton_append]

theorem selectFor_nil (info : CopyRelocationInfo) : selectFor [] info = info := by
  unfold selectFor
  split <;> rfl

theorem selectCopyRelocationAlternatives_eq (symbols : List Symbol)
    (infos : List CopyRelocationInfo) :
    selectCopyRelocationAlternatives symbols infos
      = ⟨infos.map (selectFor symbols.zipIdx), exported infos symbols.zipIdx⟩ := by
  have h := foldl_select infos symbols.zipIdx []
  have hid : infos.map (selectFor []) = infos := by
    rw [map_congr_left fun info _ => selectFor_nil info, List.map_id']
  rw [hid] at h
  exact h

/-! ## The symbol that is copied -/

/-- The first strong symbol at an address. -/
def strongAlias (symbols : List Symbol) (address : ℕ) : Option ℕ :=
  (symbols.zipIdx.find? fun entry =>
    entry.1.isCanonical && decide (entry.1.value = address) && !entry.1.isWeak).map Prod.snd

/-- The last strong symbol that is requested, or else the first strong one at
the address, or else the first that is requested. -/
def copied (symbols : List Symbol) (requests : List ℕ) (address : ℕ) : Option ℕ :=
  ((strongRequestsAt symbols requests address).getLast?.or (strongAlias symbols address)).or
    (requestsAt symbols requests address).head?

theorem copied_eq {symbols : List Symbol} {requests : List ℕ} (h : IsEntry symbols requests info) :
    copied symbols requests info.address = some (selectFor symbols.zipIdx info).symbolId := by
  unfold copied selectFor
  cases hweak : info.isWeak with
  | false =>
    unfold IsEntry at h
    rw [hweak] at h
    rw [h, Option.some_or, Option.some_or, if_neg Bool.false_ne_true]
  | true =>
    unfold IsEntry at h
    rw [hweak] at h
    obtain ⟨hstrong, hhead⟩ := h
    have hfind : symbols.zipIdx.find? (isAlternative info) = symbols.zipIdx.find? fun entry =>
        entry.1.isCanonical && decide (entry.1.value = info.address) && !entry.1.isWeak := by
      refine List.find?_congr fun entry hmem => ?_
      have hget : symbols[entry.2]? = some entry.1 := List.mk_mem_zipIdx_iff_getElem?.mp hmem
      rw [isAlternative]
      cases hentry : entry.1.isWeak with
      | true => simp
      | false =>
        have hne : info.symbolId ≠ entry.2 := by
          intro heq
          have hmem := mem_strongRequestsAt (heq ▸ hget) (List.mem_of_mem_head? hhead) hentry
          rw [hstrong] at hmem
          cases hmem
        rw [decide_eq_true hne]
        simp
    rw [hstrong, hhead, strongAlias, ← hfind]
    cases symbols.zipIdx.find? (isAlternative info) <;> rfl

end Sld.Dynamic.Copies
