/-
# `Symbols.WrappedSymbols` — names that are wrapped

`--wrap=s` lets the name `s` stand for the symbol of `__wrap_s`, and
`__real_s` for the symbol of `s`.  The names are overridden one after the
other in one table, so a name that is wrapped twice finds its wrapper where
it looks for the original, and so does a name next to its own `__real_` or
`__wrap_` name.

Below, a table of names is a function.  For lists without such neighbours
every name of the resulting table is computed.
-/
import Mathlib.Data.List.Pairwise
import Sld.Symbols.Resolution

namespace Sld.Symbols

open Function (update_eq_self update_of_ne update_self)
open Option (none_or some_or)
open ResolutionResources.NameTable (lookup)
open List (find?_cons_of_neg length)

/-! ## The overrides -/

def NameTable.insert {κ : Type} [DecidableEq κ] (table : NameTable κ) (name : κ) (id : SymbolId) :
    NameTable κ :=
  { table with
    nameToId :=
      if table.nameToId.any (·.1 = name) then
        table.nameToId.map fun p => if p.1 = name then (p.1, id) else p
      else table.nameToId ++ [(name, id)] }

/-- `__wrap_{name}` -/
def wrapName (name : Bytes) : Bytes := [95, 95, 119, 114, 97, 112, 95] ++ name

/-- `__real_{name}` -/
def realName (name : Bytes) : Bytes := [95, 95, 114, 101, 97, 108, 95] ++ name

namespace ResolutionResources

variable (res : ResolutionResources)

def overrideName (name : Bytes) (id : SymbolId) : ResolutionResources :=
  { res with
    buckets := res.buckets.modify ((res.hashBytes name).toNat % res.buckets.length)
      fun bucket => { bucket with names := bucket.names.insert name id } }

/-- One round of `apply_wrapped_symbol_overrides`. -/
def applyWrappedSymbolOverride (name : Bytes) : ResolutionResources :=
  let wrapped :=
    match res.getUnversioned (wrapName name) with
    | some wrapId => res.overrideName name wrapId
    | none => res
  match res.getUnversioned name with
  | some origId => wrapped.overrideName (realName name) origId
  | none => wrapped

def applyWrappedSymbolOverrides (wrap : List Bytes) : ResolutionResources :=
  wrap.foldl applyWrappedSymbolOverride res

end ResolutionResources

/-- What is asked of the overrides: a wrapped name stands for its wrapper,
its `__real_` name for what it named before, and repeats change nothing. -/
structure WrapsNames (res : ResolutionResources) (wrap : List Bytes) : Prop where
  wrapped : ∀ name ∈ wrap, ∀ id, res.getUnversioned (wrapName name) = some id →
    (res.applyWrappedSymbolOverrides wrap).getUnversioned name = some id
  real : ∀ name ∈ wrap, ∀ id, res.getUnversioned name = some id →
    (res.applyWrappedSymbolOverrides wrap).getUnversioned (realName name) = some id
  repeats : ∀ wrap' : List Bytes, wrap'.Sublist wrap → wrap'.Nodup → (∀ name ∈ wrap, name ∈ wrap') →
    (res.applyWrappedSymbolOverrides wrap').getUnversioned =
      (res.applyWrappedSymbolOverrides wrap).getUnversioned

/-- No name of the list is the `__real_` name of another, and none comes
before a name that it wraps. -/
structure Unchained (wrap : List Bytes) : Prop where
  real : ∀ name ∈ wrap, realName name ∉ wrap
  wrapper : wrap.Pairwise fun earlier later => earlier ≠ wrapName later

/-- A repeated name that has a wrapper named it before, or named nothing when
`__real_` of it already named the wrapper. -/
def RepeatsAreHarmless (res : ResolutionResources) (wrap : List Bytes) : Prop :=
  ∀ name ∈ wrap, 2 ≤ wrap.count name → ∀ id, res.getUnversioned (wrapName name) = some id →
    res.getUnversioned name = some id ∨
      res.getUnversioned name = none ∧ res.getUnversioned (realName name) = some id

/-! ## A table of names as a function -/

section

variable {κ : Type} [DecidableEq κ]

theorem find?_map_replace (entries : List (κ × SymbolId)) (name other : κ) (id : SymbolId) :
    ((entries.map fun p => if p.1 = name then (p.1, id) else p).find? (·.1 = other)).map (·.2) =
      if name = other ∧ entries.any (·.1 = name) then some id
      else (entries.find? (·.1 = other)).map (·.2) := by
  induction entries with
  | nil => simp
  | cons entry entries ih =>
    rw [List.map_cons]
    by_cases hname : entry.1 = name
    · rw [if_pos hname]
      by_cases hother : name = other
      · subst hother
        simp [hname]
      · rw [find?_cons_of_neg (by simp [hname, hother]), ih,
          find?_cons_of_neg (by simp [hname, hother])]
        simp [hother]
    · rw [if_neg hname]
      by_cases hother : entry.1 = other
      · rw [List.find?_cons_of_pos (by simp [hother]), List.find?_cons_of_pos (by simp [hother]),
          if_neg (fun h => hname (hother.trans h.1.symm))]
      · rw [find?_cons_of_neg (by simp [hother]), ih,
          find?_cons_of_neg (by simp [hother]), List.any_cons, decide_eq_false hname,
          Bool.false_or]

theorem lookup_insert (table : NameTable κ) (name other : κ) (id : SymbolId) :
    lookup (table.insert name id) other =
      if name = other then some id else lookup table other := by
  unfold lookup NameTable.insert
  by_cases hany : table.nameToId.any (·.1 = name) = true
  · simp only [if_pos hany]
    rw [find?_map_replace]
    simp only [hany, and_true]
  · simp only [if_neg hany]
    rw [List.find?_append]
    by_cases hother : name = other
    · subst hother
      have hnone : table.nameToId.find? (·.1 = name) = none := by
        rw [List.find?_eq_none]
        intro p hp heq
        exact hany (List.any_eq_true.mpr ⟨p, hp, heq⟩)
      rw [hnone]
      simp
    · rw [if_neg hother]
      simp [hother]

end

section

variable {res : ResolutionResources}

theorem buckets_overrideName_ne_nil (h : res.buckets ≠ []) (name : Bytes) (id : SymbolId) :
    (res.overrideName name id).buckets ≠ [] := by
  intro hnil
  have hlen := congrArg length hnil
  rw [ResolutionResources.overrideName, List.length_modify] at hlen
  exact h (List.length_eq_zero_iff.mp hlen)

theorem getUnversioned_overrideName (h : res.buckets ≠ []) (name : Bytes) (id : SymbolId) :
    (res.overrideName name id).getUnversioned =
      Function.update res.getUnversioned name (some id) := by
  funext other
  have hlen := List.length_pos_iff.mpr h
  unfold ResolutionResources.getUnversioned ResolutionResources.bucket
  simp only [ResolutionResources.overrideName, List.length_modify, List.getElem?_modify]
  have hbucket : res.buckets[(res.hashBytes other).toNat % res.buckets.length]? =
      some (res.buckets.get ⟨_, Nat.mod_lt _ hlen⟩) := List.getElem?_eq_getElem _
  rw [hbucket]
  by_cases hother : name = other
  · subst hother
    rw [update_self]
    simp only [if_true]
    show lookup _ _ = _
    rw [lookup_insert, if_pos rfl]
  · rw [update_of_ne (Ne.symm hother), hbucket]
    split
    · show lookup _ _ = lookup _ _
      rw [lookup_insert, if_neg hother]
    · rfl

/-- One round on a table of names. -/
def wrapStep (names : Bytes → Option SymbolId) (name : Bytes) : Bytes → Option SymbolId :=
  Function.update (Function.update names name ((names (wrapName name)).or (names name)))
    (realName name) ((names name).or (names (realName name)))

theorem realName_ne (name : Bytes) : realName name ≠ name := by
  intro heq
  have hlen := congrArg length heq
  rw [realName, List.length_append] at hlen
  exact absurd hlen (by simp)

theorem realName_injective {name name' : Bytes} (h : realName name = realName name') :
    name = name' := List.append_cancel_left h

theorem wrapName_ne_realName (name name' : Bytes) : wrapName name ≠ realName name' := by
  intro heq
  have hthird := congrArg (·[2]?) heq
  simp [wrapName, realName] at hthird

theorem wrapStep_realName (names : Bytes → Option SymbolId) (name : Bytes) :
    wrapStep names name (realName name) = (names name).or (names (realName name)) :=
  update_self ..

theorem wrapStep_self (names : Bytes → Option SymbolId) (name : Bytes) :
    wrapStep names name name = (names (wrapName name)).or (names name) := by
  rw [wrapStep, update_of_ne (realName_ne name).symm, update_self]

theorem wrapStep_of_ne (names : Bytes → Option SymbolId) {name other : Bytes}
    (hname : other ≠ name) (hreal : other ≠ realName name) :
    wrapStep names name other = names other := by
  rw [wrapStep, update_of_ne hreal, update_of_ne hname]

theorem buckets_applyWrappedSymbolOverride_ne_nil (h : res.buckets ≠ []) (name : Bytes) :
    (res.applyWrappedSymbolOverride name).buckets ≠ [] := by
  have hwrapped : (match res.getUnversioned (wrapName name) with
      | some wrapId => res.overrideName name wrapId
      | none => res).buckets ≠ [] := by
    split
    · exact buckets_overrideName_ne_nil h _ _
    · exact h
  rw [ResolutionResources.applyWrappedSymbolOverride]
  split
  · exact buckets_overrideName_ne_nil hwrapped _ _
  · exact hwrapped

theorem getUnversioned_applyWrappedSymbolOverride (h : res.buckets ≠ []) (name : Bytes) :
    (res.applyWrappedSymbolOverride name).getUnversioned = wrapStep res.getUnversioned name := by
  rw [ResolutionResources.applyWrappedSymbolOverride]
  cases hwrap : res.getUnversioned (wrapName name) with
  | none =>
    have hself : Function.update res.getUnversioned name
        ((none : Option SymbolId).or (res.getUnversioned name)) = res.getUnversioned :=
      update_eq_self ..
    rw [wrapStep, hwrap, hself]
    cases horig : res.getUnversioned name with
    | none => exact (update_eq_self ..).symm
    | some origId => exact getUnversioned_overrideName h _ _
  | some wrapId =>
    rw [wrapStep, hwrap, some_or]
    cases horig : res.getUnversioned name with
    | none =>
      rw [none_or, ← update_of_ne (realName_ne name) (some wrapId)
        res.getUnversioned, update_eq_self]
      exact getUnversioned_overrideName h _ _
    | some origId =>
      rw [some_or]
      rw [getUnversioned_overrideName (buckets_overrideName_ne_nil h _ _),
        getUnversioned_overrideName h]

theorem getUnversioned_applyWrappedSymbolOverrides (h : res.buckets ≠ []) (wrap : List Bytes) :
    (res.applyWrappedSymbolOverrides wrap).getUnversioned =
      wrap.foldl wrapStep res.getUnversioned := by
  induction wrap generalizing res with
  | nil => rfl
  | cons name wrap ih =>
    rw [ResolutionResources.applyWrappedSymbolOverrides, List.foldl_cons, List.foldl_cons,
      ← getUnversioned_applyWrappedSymbolOverride h]
    exact ih (buckets_applyWrappedSymbolOverride_ne_nil h name)

end

/-! ## Lists without neighbours -/

theorem Unchained.sublist {wrap wrap' : List Bytes} (h : Unchained wrap)
    (hsub : wrap'.Sublist wrap) : Unchained wrap' where
  real name hname hreal := h.real name (hsub.subset hname) (hsub.subset hreal)
  wrapper := h.wrapper.sublist hsub

section

variable (names : Bytes → Option SymbolId)

/-- What a wrapped name names when its last round reads it: its wrapper if
it was wrapped before. -/
def lastRead (wrap : List Bytes) (name : Bytes) : Option SymbolId :=
  if 2 ≤ wrap.count name then (names (wrapName name)).or (names name) else names name

/-- Every name of the table after the rounds of an unchained list. -/
structure Overridden (wrap : List Bytes) (names' : Bytes → Option SymbolId) : Prop where
  real : ∀ name ∈ wrap, names' (realName name) = (lastRead names wrap name).or (names (realName name))
  other : ∀ name, (∀ name' ∈ wrap, name ≠ realName name') →
    names' name = (if name ∈ wrap then names (wrapName name) else none).or (names name)

variable {names}

variable {wrap : List Bytes}

theorem Overridden.step {name : Bytes} {names' : Bytes → Option SymbolId}
    (h : Overridden names wrap names') (hunchained : Unchained (wrap ++ [name])) :
    Overridden names (wrap ++ [name]) (wrapStep names' name) := by
  have hmem : name ∈ wrap ++ [name] := List.mem_append_right _ (List.mem_singleton_self _)
  have hleft : ∀ {name'}, name' ∈ wrap → name' ∈ wrap ++ [name] := List.mem_append_left _
  have hread : names' name = (if name ∈ wrap then names (wrapName name) else none).or (names name) :=
    h.other name fun name' hname' heq => hunchained.real name' (hleft hname') (heq ▸ hmem)
  have hwrapper : names' (wrapName name) = names (wrapName name) := by
    rw [h.other (wrapName name) fun name' _ => wrapName_ne_realName name name', if_neg, none_or]
    intro hbefore
    exact (List.pairwise_append.mp hunchained.wrapper).2.2 _ hbefore name
      (List.mem_singleton_self _) rfl
  constructor
  · intro other hother
    by_cases hsame : other = name
    · subst hsame
      rw [wrapStep_realName, hread, lastRead, List.count_append, List.count_singleton_self]
      by_cases hbefore : other ∈ wrap
      · have hcount := List.count_pos_iff.mpr hbefore
        rw [if_pos hbefore, if_pos (show 2 ≤ wrap.count other + 1 by omega), h.real other hbefore,
          lastRead]
        split
        · rw [← Option.or_assoc, Option.or_self]
        · cases names other with
          | none => simp
          | some id => cases names (wrapName other) <;> rfl
      · have hcount := List.count_eq_zero.mpr hbefore
        rw [if_neg hbefore, if_neg (show ¬ 2 ≤ wrap.count other + 1 by omega), none_or,
          h.other (realName other), if_neg fun hin => hunchained.real other hmem (hleft hin),
          none_or]
        intro name' hname' heq
        exact hbefore (realName_injective heq ▸ hname')
    · have hbefore : other ∈ wrap := by
        rcases List.mem_append.mp hother with hother | hother
        · exact hother
        · exact absurd (List.mem_singleton.mp hother) hsame
      have hcount : (wrap ++ [name]).count other = wrap.count other := by
        rw [List.count_append, List.count_singleton, if_neg (by simpa using Ne.symm hsame),
          Nat.add_zero]
      rw [wrapStep_of_ne, h.real other hbefore, lastRead, lastRead, hcount]
      · intro heq
        exact hunchained.real other (hleft hbefore) (heq ▸ hmem)
      · intro heq
        exact hsame (realName_injective heq)
  · intro other hother
    by_cases hsame : other = name
    · subst hsame
      rw [wrapStep_self, hwrapper, hread]
      split
      · rw [← Option.or_assoc, Option.or_self]
      · rw [none_or]
    · rw [wrapStep_of_ne names' hsame (hother name hmem),
        h.other other fun name' hname' => hother name' (hleft hname')]
      simp [hsame]

theorem overridden_foldl (h : Unchained wrap) :
    Overridden names wrap (wrap.foldl wrapStep names) := by
  induction wrap using List.reverseRecOn with
  | nil =>
    refine ⟨fun name hname => absurd hname List.not_mem_nil, fun name _ => ?_⟩
    rfl
  | append_singleton wrap name ih =>
    rw [List.foldl_append]
    exact (ih (h.sublist (List.sublist_append_left _ _))).step h

end

section

variable {res : ResolutionResources} {wrap : List Bytes}

theorem overridden_applyWrappedSymbolOverrides (hbuckets : res.buckets ≠ []) (h : Unchained wrap) :
    Overridden res.getUnversioned wrap (res.applyWrappedSymbolOverrides wrap).getUnversioned := by
  rw [getUnversioned_applyWrappedSymbolOverrides hbuckets]
  exact overridden_foldl h

theorem RepeatsAreHarmless.real_eq (h : RepeatsAreHarmless res wrap) {name : Bytes}
    (hname : name ∈ wrap) :
    (lastRead res.getUnversioned wrap name).or (res.getUnversioned (realName name)) =
      (res.getUnversioned name).or (res.getUnversioned (realName name)) := by
  rw [lastRead]
  split
  · rename_i hcount
    cases hwrapper : res.getUnversioned (wrapName name) with
    | none => rw [none_or]
    | some id =>
      rcases h name hname hcount id hwrapper with hsame | ⟨hnone, hreal⟩
      · rw [hsame]
        rfl
      · rw [hnone, hreal]
        rfl
  · rfl

theorem repeatsAreHarmless_of_nodup (h : wrap.Nodup) : RepeatsAreHarmless res wrap := by
  intro name hname hcount
  have hone := List.nodup_iff_count_le_one.mp h name
  omega

theorem wrapsNames_iff_of_unchained (hbuckets : res.buckets ≠ []) (h : Unchained wrap) :
    WrapsNames res wrap ↔ RepeatsAreHarmless res wrap := by
  have hafter := overridden_applyWrappedSymbolOverrides hbuckets h
  constructor
  · intro hwraps name hname hcount id hwrapper
    have hreal : (res.applyWrappedSymbolOverrides wrap).getUnversioned (realName name) =
        some id := by
      rw [hafter.real name hname, lastRead, if_pos hcount, hwrapper]
      rfl
    cases horig : res.getUnversioned name with
    | some origId =>
      have := hwraps.real name hname origId horig
      rw [hreal] at this
      exact .inl this.symm
    | none =>
      refine .inr ⟨rfl, ?_⟩
      have honce := overridden_applyWrappedSymbolOverrides hbuckets (h.sublist wrap.dedup_sublist)
      have hsame := congrFun (hwraps.repeats wrap.dedup wrap.dedup_sublist wrap.nodup_dedup
        fun _ => List.mem_dedup.mpr) (realName name)
      have hcount := List.nodup_iff_count_le_one.mp wrap.nodup_dedup name
      rw [hreal, honce.real name (List.mem_dedup.mpr hname), lastRead, if_neg (by omega), horig,
        none_or] at hsame
      exact hsame
  · intro hharmless
    refine ⟨?_, ?_, ?_⟩
    · intro name hname id hwrapper
      rw [hafter.other name fun name' hname' heq => h.real name' hname' (heq ▸ hname), if_pos hname,
        hwrapper]
      rfl
    · intro name hname id horig
      rw [hafter.real name hname, hharmless.real_eq hname, horig]
      rfl
    · intro wrap' hsub hnodup hall
      have hafter' := overridden_applyWrappedSymbolOverrides hbuckets (h.sublist hsub)
      funext key
      by_cases hkey : ∃ name ∈ wrap, key = realName name
      · obtain ⟨name, hname, rfl⟩ := hkey
        rw [hafter.real name hname, hharmless.real_eq hname, hafter'.real name (hall name hname),
          (repeatsAreHarmless_of_nodup hnodup).real_eq (hall name hname)]
      · have hkey : ∀ name ∈ wrap, key ≠ realName name :=
          fun name hname heq => hkey ⟨name, hname, heq⟩
        rw [hafter.other key hkey, hafter'.other key fun name hname => hkey name (hsub.subset hname)]
        by_cases hin : key ∈ wrap
        · rw [if_pos hin, if_pos (hall key hin)]
        · rw [if_neg hin, if_neg fun hin' => hin (hsub.subset hin')]

end

/-! ## Neighbours -/

/-- A table with one bucket. -/
def withNames (entries : List (Bytes × SymbolId)) : ResolutionResources where
  platform := .elf
  inputs := ⟨[], [], []⟩
  hashBytes _ := 0
  buckets := [⟨⟨entries, []⟩, ⟨[], []⟩⟩]
  symbolFileIds _ := preludeFileId
  symbolDefinitions id := id
  entrySymbolName := []
  exportListRootsArchiveSymbols := false
  exportList := none

theorem getUnversioned_withNames (entries : List (Bytes × SymbolId)) (name : Bytes) :
    (withNames entries).getUnversioned name = (entries.find? (·.1 = name)).map (·.2) := rfl

theorem wrapName_ne (name : Bytes) : wrapName name ≠ name := by
  intro heq
  have hlen := congrArg length heq
  rw [wrapName, List.length_append] at hlen
  exact absurd hlen (by simp)

section

variable {names : Bytes → Option SymbolId} {name : Bytes}

/-- The wrapper of the wrapper is found, and no wrapper of a longer name. -/
structure TwiceWrapped (name : Bytes) (names : Bytes → Option SymbolId) : Prop where
  found : names (wrapName (wrapName name)) = some 2
  longer : ∀ other : Bytes, (wrapName (wrapName name)).length ≤ other.length →
    names (wrapName other) = none

theorem length_wrapName (name : Bytes) : (wrapName name).length = name.length + 7 := by
  rfl

theorem TwiceWrapped.step (h : TwiceWrapped name names) (other : Bytes) :
    TwiceWrapped name (wrapStep names other) := by
  have hlonger : ∀ key : Bytes, (wrapName (wrapName name)).length ≤ key.length →
      wrapStep names other (wrapName key) = none := by
    intro key hkey
    by_cases hother : wrapName key = other
    · subst hother
      rw [wrapStep_self, h.longer key hkey, Option.or_none]
      refine h.longer _ ?_
      rw [length_wrapName key]
      omega
    · rw [wrapStep_of_ne names hother (wrapName_ne_realName key other)]
      exact h.longer key hkey
  refine ⟨?_, hlonger⟩
  by_cases hother : wrapName (wrapName name) = other
  · subst hother
    rw [wrapStep_self, h.longer _ (Nat.le_refl _)]
    exact h.found
  · rw [wrapStep_of_ne names hother (wrapName_ne_realName _ other)]
    exact h.found

theorem TwiceWrapped.foldl (h : TwiceWrapped name names) (wrap : List Bytes) :
    TwiceWrapped name (wrap.foldl wrapStep names) := by
  induction wrap generalizing names with
  | nil => exact h
  | cons other wrap ih => exact ih (h.step other)

theorem TwiceWrapped.foldl_wrapName (h : TwiceWrapped name names)
    (hwrapper : names (wrapName name) = some 2) (wrap : List Bytes) :
    wrap.foldl wrapStep names (wrapName name) = some 2 := by
  induction wrap generalizing names with
  | nil => exact hwrapper
  | cons other wrap ih =>
    refine ih (h.step other) ?_
    by_cases hother : wrapName name = other
    · subst hother
      rw [wrapStep_self, h.found]
      rfl
    · rw [wrapStep_of_ne names hother (wrapName_ne_realName _ other)]
      exact hwrapper

theorem TwiceWrapped.foldl_name (h : TwiceWrapped name names)
    (hwrapper : names (wrapName name) = some 2) (hname : names name = some 2) {wrap : List Bytes}
    (hreal : ∀ other ∈ wrap, realName other ≠ name) :
    wrap.foldl wrapStep names name = some 2 := by
  induction wrap generalizing names with
  | nil => exact hname
  | cons other wrap ih =>
    refine ih (h.step other) (h.foldl_wrapName hwrapper [other]) ?_
      fun other hother => hreal other (List.mem_cons_of_mem _ hother)
    by_cases hother : name = other
    · subst hother
      rw [wrapStep_self, hwrapper]
      rfl
    · rw [wrapStep_of_ne names hother (hreal other List.mem_cons_self).symm]
      exact hname

end

section

variable {wrap : List Bytes}

theorem buckets_withNames_ne_nil (entries : List (Bytes × SymbolId)) :
    (withNames entries).buckets ≠ [] := List.cons_ne_nil _ _

theorem length_realName (name : Bytes) : (realName name).length = name.length + 7 := by
  rfl

theorem getUnversioned_withNames_first (name : Bytes) (id : SymbolId)
    (entries : List (Bytes × SymbolId)) :
    (withNames ((name, id) :: entries)).getUnversioned name = some id := by
  rw [getUnversioned_withNames, List.find?_cons_of_pos (by simp)]
  rfl

theorem getUnversioned_withNames_second {name name' : Bytes} (hne : name ≠ name')
    (id id' : SymbolId) :
    (withNames [(name, id), (name', id')]).getUnversioned name' = some id' := by
  rw [getUnversioned_withNames, find?_cons_of_neg (by simp [hne]),
    List.find?_cons_of_pos (by simp)]
  rfl

theorem realName_not_mem (h : ∀ res : ResolutionResources, res.buckets ≠ [] → WrapsNames res wrap)
    {name : Bytes} (hname : name ∈ wrap) : realName name ∉ wrap := by
  intro hreal
  have hne : name ≠ wrapName (realName name) := by
    intro heq
    have hlen := congrArg length heq
    rw [length_wrapName, length_realName] at hlen
    omega
  have hwraps := h (withNames [(name, 1), (wrapName (realName name), 2)])
    (buckets_withNames_ne_nil _)
  have htwo := hwraps.wrapped _ hreal 2 (getUnversioned_withNames_second hne 1 2)
  have hone := hwraps.real name hname 1 (getUnversioned_withNames_first name 1 _)
  rw [htwo] at hone
  cases hone

theorem twiceWrapped_withNames (name : Bytes) : TwiceWrapped name
    (withNames [(wrapName name, 1), (wrapName (wrapName name), 2)]).getUnversioned := by
  refine ⟨getUnversioned_withNames_second (wrapName_ne _).symm 1 2, fun other hother => ?_⟩
  rw [getUnversioned_withNames, find?_cons_of_neg, find?_cons_of_neg]
  · rfl
  · simp only [decide_eq_true_eq]
    intro heq
    have heq := congrArg length heq
    rw [length_wrapName other] at heq
    omega
  · simp only [decide_eq_true_eq]
    intro heq
    have heq := congrArg length heq
    rw [length_wrapName (wrapName name)] at hother
    rw [length_wrapName other] at heq
    omega

theorem wrapName_not_before
    (h : ∀ res : ResolutionResources, res.buckets ≠ [] → WrapsNames res wrap) :
    wrap.Pairwise fun earlier later => earlier ≠ wrapName later := by
  rw [List.pairwise_iff_forall_sublist]
  rintro earlier name hsub rfl
  obtain ⟨before, after, rfl, hbefore, hafter⟩ := List.cons_sublist_iff.mp hsub
  obtain ⟨first, second, rfl⟩ := List.append_of_mem hbefore
  obtain ⟨third, fourth, rfl⟩ := List.append_of_mem (List.singleton_sublist.mp hafter)
  have hwraps := h _ (buckets_withNames_ne_nil [(wrapName name, 1), (wrapName (wrapName name), 2)])
  have hone := hwraps.wrapped name (by simp) 1 (getUnversioned_withNames_first _ 1 _)
  have hfirst := (twiceWrapped_withNames name).foldl first
  have hsecond := hfirst.step (wrapName name)
  have hwrapper : wrapStep (first.foldl wrapStep
      (withNames [(wrapName name, 1), (wrapName (wrapName name), 2)]).getUnversioned)
        (wrapName name) (wrapName name) = some 2 := by
    rw [wrapStep_self, hfirst.found]
    rfl
  have hthird := hsecond.foldl (second ++ third)
  have hwrapper' := hsecond.foldl_wrapName hwrapper (second ++ third)
  have hname : wrapStep ((second ++ third).foldl wrapStep (wrapStep (first.foldl wrapStep
      (withNames [(wrapName name, 1), (wrapName (wrapName name), 2)]).getUnversioned)
        (wrapName name))) name name = some 2 := by
    rw [wrapStep_self, hwrapper']
    rfl
  have hreal : ∀ other ∈ fourth, realName other ≠ name := by
    intro other hother heq
    exact realName_not_mem h (show other ∈ _ by simp [hother]) (heq ▸ (by simp))
  have htwo := (hthird.step name).foldl_name (hthird.foldl_wrapName hwrapper' [name]) hname hreal
  rw [getUnversioned_applyWrappedSymbolOverrides (buckets_withNames_ne_nil _)] at hone
  simp only [List.foldl_append, List.foldl_cons] at hone htwo
  rw [htwo] at hone
  cases hone

/-- For a list of names the overrides do what is asked of them in every table
exactly when no name is repeated and no name is next to its `__real_` name or
before a name that it wraps.  Without such neighbours they do it in a given
table exactly when the repeats are harmless there. -/
theorem wrapsNames_iff (wrap : List Bytes) :
    ((∀ res : ResolutionResources, res.buckets ≠ [] → WrapsNames res wrap) ↔
      wrap.Nodup ∧ Unchained wrap) ∧
    ∀ res : ResolutionResources, res.buckets ≠ [] → Unchained wrap →
      (WrapsNames res wrap ↔ RepeatsAreHarmless res wrap) := by
  refine ⟨⟨?_, ?_⟩, fun res hbuckets hunchained => wrapsNames_iff_of_unchained hbuckets hunchained⟩
  · intro h
    have hunchained : Unchained wrap :=
      ⟨fun name hname => realName_not_mem h hname, wrapName_not_before h⟩
    refine ⟨?_, hunchained⟩
    rw [List.nodup_iff_count_le_one]
    intro name
    by_contra hcount
    have hname : name ∈ wrap := List.count_pos_iff.mp (by omega)
    have hbuckets := buckets_withNames_ne_nil [(name, 1), (wrapName name, 2)]
    have hharmless := (wrapsNames_iff_of_unchained hbuckets hunchained).mp (h _ hbuckets)
    have hone := getUnversioned_withNames_first name 1 [(wrapName name, 2)]
    have htwo := getUnversioned_withNames_second (wrapName_ne name).symm 1 2
    rcases hharmless name hname (by omega) 2 htwo with hsame | ⟨hnone, -⟩
    · rw [hone] at hsame
      cases hsame
    · rw [hone] at hnone
      cases hnone
  · rintro ⟨hnodup, hunchained⟩ res hbuckets
    exact (wrapsNames_iff_of_unchained hbuckets hunchained).mpr (repeatsAreHarmless_of_nodup hnodup)

/-- `f` is wrapped twice: `__real_f` is the wrapper. -/
theorem real_name_is_wrapper :
    ¬ WrapsNames (withNames [([102], 1), (wrapName [102], 2)]) [[102], [102]] := by
  intro h
  have hone := h.real [102] List.mem_cons_self 1 rfl
  have htwo : ((withNames [([102], 1), (wrapName [102], 2)]).applyWrappedSymbolOverrides
      [[102], [102]]).getUnversioned (realName [102]) = some 2 := by decide
  rw [htwo] at hone
  cases hone

end

end Sld.Symbols
