/-
# `Symbols.NameLookup` — what a name is looked up to

A lookup returns the first symbol that was registered under the name.  A
reference that must not be bound to a shared object passes over a first
symbol in one; of the other symbols of the name it takes the best: the first
strong one, else the first of the largest common ones, else the first weak
one.
-/
import Sld.Symbols.ArchiveSelection
import Sld.Symbols.Scheduling

namespace Sld.Symbols

/-! ## The best of some symbols -/

section

variable (strength : SymbolId → SymbolStrength)

def IsWeakSymbol (id : SymbolId) : Prop := strength id = .weak ∨ strength id = .gnuUnique

instance : DecidablePred (IsWeakSymbol strength) := fun id =>
  inferInstanceAs (Decidable (strength id = .weak ∨ strength id = .gnuUnique))

/-- A common symbol that is larger than those before it and not smaller than
those after it. -/
inductive IsFirstLargest (size : UInt64) (id : SymbolId) : List SymbolId → Prop
  | intro {before after : List SymbolId} (hid : strength id = .common size)
      (hbefore : ∀ i ∈ before, ∀ size', strength i = .common size' → size' < size)
      (hafter : ∀ i ∈ after, ∀ size', strength i = .common size' → size' ≤ size) :
      IsFirstLargest size id (before ++ id :: after)

/-- The first strong symbol, else the first of the largest common symbols,
else the first weak one; none if all symbols are undefined. -/
inductive Selects (ids : List SymbolId) : Option SymbolId → Prop
  | strong {id : SymbolId} (hfirst : ids.find? (strength · = .strong) = some id) :
      Selects ids (some id)
  | common {id : SymbolId} {size : UInt64} (hstrong : ∀ i ∈ ids, strength i ≠ .strong)
      (hlargest : IsFirstLargest strength size id ids) : Selects ids (some id)
  | weak {id : SymbolId} (hstrong : ∀ i ∈ ids, strength i ≠ .strong)
      (hcommon : ∀ i ∈ ids, ∀ size, strength i ≠ .common size)
      (hfirst : ids.find? (IsWeakSymbol strength ·) = some id) : Selects ids (some id)
  | none (hundef : ∀ i ∈ ids, strength i = .undefined) : Selects ids none

/-- What the selector holds after some symbols. -/
structure SymbolPrioritySelector.Holds (selector : SymbolPrioritySelector)
    (ids : List SymbolId) : Prop where
  firstStrong : selector.firstStrong = ids.find? (strength · = .strong)
  maxCommon : selector.maxCommon = none ∧ (∀ i ∈ ids, ∀ size, strength i ≠ .common size) ∨
    ∃ size id, selector.maxCommon = some (size, id) ∧ IsFirstLargest strength size id ids
  firstWeak : selector.firstWeak = ids.find? (IsWeakSymbol strength ·)

variable {strength}

variable {ids : List SymbolId}

theorem IsFirstLargest.append {size : UInt64} {id new : SymbolId}
    (h : IsFirstLargest strength size id ids)
    (hnew : ∀ size', strength new = .common size' → size' ≤ size) :
    IsFirstLargest strength size id (ids ++ [new]) := by
  obtain ⟨hid, hbefore, hafter⟩ := h
  rw [List.append_assoc]
  refine .intro hid hbefore fun i hi => ?_
  rcases List.mem_append.mp hi with hi | hi
  · exact hafter i hi
  · obtain rfl := List.mem_singleton.mp hi
    exact hnew

theorem IsFirstLargest.le {size size' : UInt64} {id i : SymbolId}
    (h : IsFirstLargest strength size id ids) (hi : i ∈ ids) (hsize : strength i = .common size') :
    size' ≤ size := by
  obtain ⟨hid, hbefore, hafter⟩ := h
  rcases List.mem_append.mp hi with hi | hi
  · exact UInt64.le_of_lt (hbefore i hi size' hsize)
  · rcases List.mem_cons.mp hi with rfl | hi
    · rw [hid] at hsize
      cases hsize
      exact UInt64.le_refl _
    · exact hafter i hi size' hsize

namespace SymbolPrioritySelector

variable {selector : SymbolPrioritySelector} {ids : List SymbolId}

theorem holds_empty : ({} : SymbolPrioritySelector).Holds strength [] :=
  ⟨rfl, .inl ⟨rfl, nofun⟩, rfl⟩

variable {id : SymbolId}

theorem Holds.maxCommon_consider (h : selector.Holds strength ids) {size : UInt64}
    (hid : strength id = .common size) :
    ∃ size' id', (selector.consider id (.common size)).maxCommon = some (size', id') ∧
      IsFirstLargest strength size' id' (ids ++ [id]) := by
  rcases h.maxCommon with ⟨hnone, hall⟩ | ⟨prevSize, prev, hsome, hlargest⟩
  · refine ⟨size, id, ?_, ?_⟩
    · rw [consider, hnone]
    · refine .intro hid (fun i hi size' hsize => absurd hsize (hall i hi size')) ?_
      intro i hi
      cases hi
  · by_cases hle : size ≤ prevSize
    · refine ⟨prevSize, prev, ?_, hlargest.append fun size' hsize => ?_⟩
      · simp only [consider, hsome, if_pos hle]
      · rw [hid] at hsize
        cases hsize
        exact hle
    · refine ⟨size, id, ?_, ?_⟩
      · simp only [consider, hsome, if_neg hle]
      · refine .intro hid (fun i hi size' hsize => ?_) ?_
        · exact UInt64.lt_of_le_of_lt (hlargest.le hi hsize) (UInt64.not_le.mp hle)
        · intro i hi
          cases hi

theorem Holds.maxCommon_append (h : selector.Holds strength ids) {id : SymbolId}
    (hid : ∀ size, strength id ≠ .common size) :
    selector.maxCommon = none ∧ (∀ i ∈ ids ++ [id], ∀ size, strength i ≠ .common size) ∨
      ∃ size i, selector.maxCommon = some (size, i) ∧
        IsFirstLargest strength size i (ids ++ [id]) := by
  rcases h.maxCommon with ⟨hnone, hall⟩ | ⟨size, i, hsome, hlargest⟩
  · refine .inl ⟨hnone, fun i hi => ?_⟩
    rcases List.mem_append.mp hi with hi | hi
    · exact hall i hi
    · obtain rfl := List.mem_singleton.mp hi
      exact hid
  · exact .inr ⟨size, i, hsome, hlargest.append fun size' hsize => absurd hsize (hid size')⟩

theorem find?_append_singleton {p : SymbolId → Bool} : (ids ++ [id]).find? p =
      if (ids.find? p).isNone ∧ p id = true then some id else ids.find? p := by
  rw [List.find?_append]
  cases hfind : ids.find? p with
  | some i => simp
  | none =>
    cases hp : p id with
    | true => simp [hp]
    | false => simp [hp]

theorem Holds.consider (h : selector.Holds strength ids) (id : SymbolId) :
    (selector.consider id (strength id)).Holds strength (ids ++ [id]) := by
  cases hid : strength id with
  | undefined =>
    refine ⟨?_, h.maxCommon_append (by simp [hid]), ?_⟩
    · rw [find?_append_singleton, if_neg (by simp [hid])]
      exact h.firstStrong
    · rw [find?_append_singleton, if_neg (by simp [hid, IsWeakSymbol])]
      exact h.firstWeak
  | strong =>
    have hcommon := @Holds.maxCommon_append strength selector ids h id (by simp [hid])
    have hstrong := h.firstStrong
    have hweak : (ids ++ [id]).find? (IsWeakSymbol strength ·) = selector.firstWeak := by
      rw [find?_append_singleton, if_neg (by simp [hid, IsWeakSymbol])]
      exact h.firstWeak.symm
    rw [SymbolPrioritySelector.consider]
    split
    · rename_i hnone
      refine ⟨?_, hcommon, hweak.symm⟩
      rw [find?_append_singleton, if_pos ⟨hstrong ▸ hnone, by simp [hid]⟩]
    · rename_i hsome
      refine ⟨?_, hcommon, hweak.symm⟩
      rw [find?_append_singleton, if_neg (fun hboth => hsome (hstrong ▸ hboth.1))]
      exact hstrong
  | weak | gnuUnique =>
    have hcommon := @Holds.maxCommon_append strength selector ids h id (by simp [hid])
    have hweak := h.firstWeak
    have hstrong : (ids ++ [id]).find? (strength · = .strong) = selector.firstStrong := by
      rw [find?_append_singleton, if_neg (by simp [hid])]
      exact h.firstStrong.symm
    rw [SymbolPrioritySelector.consider]
    split
    · rename_i hnone
      refine ⟨hstrong.symm, hcommon, ?_⟩
      rw [find?_append_singleton, if_pos ⟨hweak ▸ hnone, by simp [hid, IsWeakSymbol]⟩]
    · rename_i hsome
      refine ⟨hstrong.symm, hcommon, ?_⟩
      rw [find?_append_singleton, if_neg (fun hboth => hsome (hweak ▸ hboth.1))]
      exact hweak
  | common size =>
    have hlargest := h.maxCommon_consider hid
    refine ⟨?_, .inr hlargest, ?_⟩
    · rw [find?_append_singleton, if_neg (by simp [hid]), ← h.firstStrong]
      rw [SymbolPrioritySelector.consider]
      split
      · split
        · rfl
        · rfl
      · rfl
    · rw [find?_append_singleton, if_neg (by simp [hid, IsWeakSymbol]), ← h.firstWeak]
      rw [SymbolPrioritySelector.consider]
      split
      · split
        · rfl
        · rfl
      · rfl

theorem holds_foldl (ids : List SymbolId) :
    (ids.foldl (fun selector id => selector.consider id (strength id))
      ({} : SymbolPrioritySelector)).Holds strength ids := by
  induction ids using List.reverseRecOn with
  | nil => exact holds_empty
  | append_singleton ids id ih =>
    rw [List.foldl_append]
    exact ih.consider id

theorem Holds.selects (h : selector.Holds strength ids) : Selects strength ids selector.best := by
  cases hstrong : selector.firstStrong with
  | some id =>
    rw [best, hstrong]
    exact .strong (h.firstStrong ▸ hstrong)
  | none =>
    have hnostrong : ∀ i ∈ ids, strength i ≠ .strong := by
      intro i hi
      have hnone := h.firstStrong.symm.trans hstrong
      simpa using List.find?_eq_none.mp hnone i hi
    rcases h.maxCommon with ⟨hnone, hnocommon⟩ | ⟨size, id, hsome, hlargest⟩
    · cases hweak : selector.firstWeak with
      | some id =>
        rw [best, hstrong, hnone, hweak]
        exact .weak hnostrong hnocommon (h.firstWeak ▸ hweak)
      | none =>
        rw [best, hstrong, hnone, hweak]
        refine .none fun i hi => ?_
        have hnone := h.firstWeak.symm.trans hweak
        have hnoweak : ¬ IsWeakSymbol strength i := by
          simpa using List.find?_eq_none.mp hnone i hi
        cases hi' : strength i with
        | undefined => rfl
        | weak => exact absurd (.inl hi') hnoweak
        | gnuUnique => exact absurd (.inr hi') hnoweak
        | strong => exact absurd hi' (hnostrong i hi)
        | common size => exact absurd hi' (hnocommon i hi size)
    · rw [best, hstrong, hsome]
      exact .common hnostrong hlargest

end SymbolPrioritySelector

end

/-! ## Lookups in the tables of all buckets -/

def SymbolName.key : SymbolName → PreHashedSymbolName
  | .unversioned name => .unversioned name
  | .versioned name version => .versioned name version

/-- The buckets were filled with some symbols, each once. -/
structure BuiltFrom (res : ResolutionResources) (symbols : List GlobalSymbol) (numBuckets : Nat) :
    Prop where
  nodup : (symbols.map (·.id)).Nodup
  pos : 0 < numBuckets
  buckets : res.buckets = (List.range numBuckets).map (populateBucket res.hashBytes numBuckets symbols)

section

variable {res : ResolutionResources} {symbols : List GlobalSymbol} {numBuckets : Nat}

theorem BuiltFrom.bucket (h : BuiltFrom res symbols numBuckets) (hash : UInt64) :
    res.bucket hash = some (populateBucket res.hashBytes numBuckets symbols
      (hash.toNat % numBuckets)) := by
  rw [ResolutionResources.bucket, h.buckets, List.length_map, List.length_range, List.getElem?_map,
    List.getElem?_range (Nat.mod_lt _ h.pos)]
  rfl

theorem holds_names (h : (symbols.map (·.id)).Nodup) (hashBytes : Bytes → UInt64) (bucket : Nat) :
    (populateBucket hashBytes numBuckets symbols bucket).names.Holds
      ((pendingSymbols symbols).filter fun p => (hashBytes p.1).toNat % numBuckets = bucket) :=
  NameTable.holds_foldl ((List.filter_sublist.map _).nodup (nodup_pendingSymbols h))

theorem holds_versionedNames (h : (symbols.map (·.id)).Nodup) (hashBytes : Bytes → UInt64)
    (bucket : Nat) :
    (populateBucket hashBytes numBuckets symbols bucket).versionedNames.Holds
      ((pendingVersionedSymbols symbols).filter fun p =>
        (versionedHash hashBytes p.1).toNat % numBuckets = bucket) :=
  NameTable.holds_foldl ((List.filter_sublist.map _).nodup (nodup_pendingVersionedSymbols h))

theorem idsOf_names (hashBytes : Bytes → UInt64) (name : Bytes) :
    idsOf ((pendingSymbols symbols).filter fun p =>
        (hashBytes p.1).toNat % numBuckets = (hashBytes name).toNat % numBuckets) name =
      registered symbols (.unversioned name) := by
  rw [idsOf_filter (fun n => (hashBytes n).toNat % numBuckets = (hashBytes name).toNat % numBuckets),
    if_pos (decide_eq_true rfl)]
  rfl

theorem idsOf_versionedNames (hashBytes : Bytes → UInt64) (name : Bytes × Bytes) :
    idsOf ((pendingVersionedSymbols symbols).filter fun p =>
        (versionedHash hashBytes p.1).toNat % numBuckets =
          (versionedHash hashBytes name).toNat % numBuckets) name =
      registered symbols (.versioned name.1 name.2) := by
  rw [idsOf_filter (fun n => (versionedHash hashBytes n).toNat % numBuckets =
    (versionedHash hashBytes name).toNat % numBuckets), if_pos (decide_eq_true rfl)]
  rfl

theorem BuiltFrom.get_eq (h : BuiltFrom res symbols numBuckets) (name : SymbolName)
    (allowDynamic : Bool) :
    res.get name.key allowDynamic = (registered symbols name).head?.bind fun first =>
      res.allowed (populateBucket res.hashBytes numBuckets symbols
        ((name.hash res.hashBytes).toNat % numBuckets)) allowDynamic first := by
  cases name with
  | unversioned name =>
    have hfirst := (@holds_names symbols numBuckets h.nodup res.hashBytes
      ((res.hashBytes name).toNat % numBuckets)).first name
    rw [idsOf_names] at hfirst
    rw [SymbolName.key, ResolutionResources.get, h.bucket, ← hfirst]
    rfl
  | versioned name version =>
    have hfirst := (@holds_versionedNames symbols numBuckets h.nodup res.hashBytes
      ((versionedHash res.hashBytes (name, version)).toNat % numBuckets)).first (name, version)
    rw [idsOf_versionedNames] at hfirst
    rw [SymbolName.key, ResolutionResources.get, h.bucket, ← hfirst]
    rfl

variable {id : SymbolId}

theorem Selects.mem {strength : SymbolId → SymbolStrength} {ids : List SymbolId}
    (h : Selects strength ids (some id)) : id ∈ ids := by
  cases h with
  | strong hfirst => exact List.mem_of_find?_eq_some hfirst
  | common hstrong hlargest =>
    obtain ⟨-, -, -⟩ := hlargest
    exact List.mem_append_right _ List.mem_cons_self
  | weak hstrong hcommon hfirst => exact List.mem_of_find?_eq_some hfirst

variable {bucket : SymbolBucket}

theorem isDynamic_of_getNonDynamic {first : SymbolId}
    (h : res.getNonDynamic bucket first = some id) :
    res.isDynamic (res.symbolFileIds id) = false := by
  obtain ⟨alternatives, -, hbest⟩ := Option.bind_eq_some_iff.mp h
  have hselects := (@SymbolPrioritySelector.holds_foldl res.symbolStrength
    (alternatives.filter fun alt => !res.isDynamic (res.symbolFileIds alt))).selects
  rw [hbest] at hselects
  simpa using (List.mem_filter.mp hselects.mem).2

theorem getNonDynamic_eq (h : (symbols.map (·.id)).Nodup) {name : Bytes} {first : SymbolId}
    {others : List SymbolId} (hregistered : registered symbols (.unversioned name) = first :: others) :
    res.getNonDynamic (populateBucket res.hashBytes numBuckets symbols
        ((res.hashBytes name).toNat % numBuckets)) first =
      ((others.filter fun alt => !res.isDynamic (res.symbolFileIds alt)).foldl
        (fun selector alt => selector.consider alt (res.symbolStrength alt))
        ({} : SymbolPrioritySelector)).best := by
  have hholds := @holds_names symbols numBuckets h res.hashBytes
    ((res.hashBytes name).toNat % numBuckets)
  have hids := @idsOf_names symbols numBuckets res.hashBytes name
  have hnodup := (List.filter_sublist (p := fun p : Bytes × SymbolId =>
    (res.hashBytes p.1).toNat % numBuckets = (res.hashBytes name).toNat % numBuckets).map
      (·.2)).nodup (nodup_pendingSymbols h)
  rw [hregistered] at hids
  rw [ResolutionResources.getNonDynamic]
  cases hfind : (populateBucket res.hashBytes numBuckets symbols
      ((res.hashBytes name).toNat % numBuckets)).names.alternativeDefinitions.find?
        (·.1 = first) with
  | none =>
    have hothers : others = [] := by
      by_contra hne
      have hmem := (hholds.alternatives first others).mpr ⟨hne, name, hids⟩
      exact List.find?_eq_none.mp hfind _ hmem (by simp)
    rw [hothers]
    rfl
  | some entry =>
    obtain ⟨f, as⟩ := entry
    obtain rfl : f = first := by simpa using List.find?_some hfind
    obtain ⟨-, name', hids'⟩ := (hholds.alternatives f as).mp (List.mem_of_find?_eq_some hfind)
    obtain rfl : name' = name := key_eq_of_mem hnodup (hids' ▸ List.mem_cons_self)
      (hids ▸ List.mem_cons_self)
    obtain rfl : as = others := (List.cons.inj (hids'.symm.trans hids)).2
    rfl

theorem allowed_of_not_dynamic (allowDynamic : Bool)
    (h : res.isDynamic (res.symbolFileIds id) = false) :
    res.allowed bucket allowDynamic id = some id := by
  rw [ResolutionResources.allowed]
  simp [h]

/-- The symbols of a name that no shared object has. -/
def regular (res : ResolutionResources) (ids : List SymbolId) : List SymbolId :=
  ids.filter fun id => !res.isDynamic (res.symbolFileIds id)

/-- A lookup that allows shared objects finds the first symbol of the name;
one that does not allow them finds no symbol of theirs, it finds the first
symbol of the name if that is none of theirs, and if it is, the best of the
other symbols of a plain name. -/
theorem BuiltFrom.get_selects (h : BuiltFrom res symbols numBuckets) (name : SymbolName) :
    res.get name.key true = (registered symbols name).head? ∧
      (∀ id, res.get name.key false = some id → res.isDynamic (res.symbolFileIds id) = false) ∧
      (∀ first others, registered symbols name = first :: others →
        res.isDynamic (res.symbolFileIds first) = false →
          res.get name.key false = some first) ∧
      (name.isVersioned = false → ∀ first others, registered symbols name = first :: others →
        res.isDynamic (res.symbolFileIds first) = true →
          Selects res.symbolStrength (regular res (registered symbols name))
            (res.get name.key false)) := by
  refine ⟨?_, ?_, ?_, ?_⟩
  · rw [h.get_eq]
    cases (registered symbols name).head? with
    | none => rfl
    | some first => rfl
  · intro id hid
    rw [h.get_eq] at hid
    obtain ⟨first, -, hallowed⟩ := Option.bind_eq_some_iff.mp hid
    rw [ResolutionResources.allowed] at hallowed
    split at hallowed
    · exact isDynamic_of_getNonDynamic hallowed
    · rename_i hreg
      cases hallowed
      simpa using hreg
  · intro first others hregistered hreg
    rw [h.get_eq, hregistered]
    exact allowed_of_not_dynamic false hreg
  · intro hplain first others hregistered hdyn
    cases name with
    | versioned name version => cases hplain
    | unversioned name =>
      have hget : res.get (SymbolName.unversioned name).key false = res.getNonDynamic
          (populateBucket res.hashBytes numBuckets symbols
            ((res.hashBytes name).toNat % numBuckets)) first := by
        rw [h.get_eq, hregistered]
        show res.allowed _ false first = _
        rw [ResolutionResources.allowed, if_pos (by simp [hdyn])]
        rfl
      have hreg : regular res (registered symbols (.unversioned name)) =
          others.filter fun alt => !res.isDynamic (res.symbolFileIds alt) := by
        rw [hregistered, regular, List.filter_cons_of_neg (by simp [hdyn])]
      rw [hget, getNonDynamic_eq h.nodup hregistered, hreg]
      exact (SymbolPrioritySelector.holds_foldl _).selects

/-! ### A weak symbol before a strong one -/

/-- An object or a shared object, then an object define `foo`, the first as a
weak symbol. -/
def weakFoo (isDynamic : Bool) : ResolutionResources where
  platform := .elf
  inputs :=
    { linkerDefined := []
      objectGroups := [[⟨[nullSymbol, { globalSymbol [102, 111, 111] false false with isWeak := true }],
          [], [], isDynamic, false, false, false, .ok ⟨[], []⟩⟩,
        ⟨[nullSymbol, globalSymbol [102, 111, 111] false false], [], [], false, false, false, false,
          .ok ⟨[], []⟩⟩]]
      linkerScripts := [] }
  hashBytes _ := 0
  buckets := [populateBucket (fun _ => 0) 1 [⟨2, [102, 111, 111], true, none⟩,
    ⟨4, [102, 111, 111], true, none⟩] 0]
  symbolFileIds id := if id = 0 then preludeFileId else if id ≤ 2 then ⟨1, 0⟩ else ⟨1, 1⟩
  symbolDefinitions id := id
  entrySymbolName := []
  exportListRootsArchiveSymbols := false
  exportList := none

theorem builtFrom_weakFoo (isDynamic : Bool) : BuiltFrom (weakFoo isDynamic)
    [⟨2, [102, 111, 111], true, none⟩, ⟨4, [102, 111, 111], true, none⟩] 1 := ⟨by decide, by decide, rfl⟩

/-- The weak symbol is found, although a strong one is registered. -/
theorem first_weak_is_found :
    BuiltFrom (weakFoo false) [⟨2, [102, 111, 111], true, none⟩, ⟨4, [102, 111, 111], true, none⟩] 1 ∧
      registered [⟨2, [102, 111, 111], true, none⟩, ⟨4, [102, 111, 111], true, none⟩]
        (.unversioned [102, 111, 111]) = [2, 4] ∧
      ¬ Selects (weakFoo false).symbolStrength (regular (weakFoo false) [2, 4])
        ((weakFoo false).get (.unversioned [102, 111, 111]) false) := by
  have hget : (weakFoo false).get (.unversioned [102, 111, 111]) false = some 2 := by rfl
  have hreg : regular (weakFoo false) [2, 4] = [2, 4] := by rfl
  refine ⟨builtFrom_weakFoo false, by rfl, ?_⟩
  rw [hget, hreg]
  intro hselects
  have hstrong : (weakFoo false).symbolStrength 4 = .strong := by rfl
  cases hselects with
  | strong hfirst =>
    have hweak : (weakFoo false).symbolStrength 2 = .weak := by rfl
    have hfound := List.find?_some hfirst
    rw [hweak] at hfound
    cases hfound
  | common hnostrong hlargest => exact hnostrong 4 (by simp) hstrong
  | weak hnostrong hnocommon hfirst => exact hnostrong 4 (by simp) hstrong

theorem get_selects_weakFoo :
    BuiltFrom (weakFoo true) [⟨2, [102, 111, 111], true, none⟩, ⟨4, [102, 111, 111], true, none⟩] 1 ∧
      (weakFoo true).get (.unversioned [102, 111, 111]) true = some 2 ∧
      Selects (weakFoo true).symbolStrength [4]
        ((weakFoo true).get (.unversioned [102, 111, 111]) false) := by
  have hselects := (builtFrom_weakFoo true).get_selects (.unversioned [102, 111, 111])
  exact ⟨builtFrom_weakFoo true, hselects.1, hselects.2.2.2 rfl 2 [4] rfl rfl⟩

end

end Sld.Symbols
