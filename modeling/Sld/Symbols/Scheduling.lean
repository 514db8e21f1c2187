/-
# `Symbols.Scheduling` — what the order of the lists decides

A symbol is in at most one plain list and at most one versioned list, so
two lists that write one definition slot are a plain and a versioned list
of one name.  Their hashes differ by the hash of the version, and once they
lie in different buckets either may come last.  Hence the result is the
same for every schedule exactly when two such lists select the same symbol.

The flags do not depend on the order: every list that holds a symbol
restricts it, and restricting is idempotent and commutes.
-/
import Sld.Store.Writes
import Sld.Symbols.SymbolDb

namespace Sld.Symbols

open Store (overwrite overwriteAll overwriteAll_of_forall_not overwriteAll_of_last
  exists_last_writer)
open List (any_eq_true cons filter_sublist foldl_cons map_append mem_append mem_cons_self
  mem_filter mem_map)
open AlternativeList (ids mk)

/-! ## What a table of names holds -/

/-- The symbols of a name, in the order they were added. -/
def idsOf {κ : Type} [DecidableEq κ] (entries : List (κ × SymbolId)) (key : κ) : List SymbolId :=
  (entries.filter (·.1 = key)).map (·.2)

section

variable {κ : Type} [DecidableEq κ] {entries : List (κ × SymbolId)} {table : NameTable κ}

theorem mem_idsOf {key : κ} {id : SymbolId} : id ∈ idsOf entries key ↔ (key, id) ∈ entries := by
  simp only [idsOf, mem_map, mem_filter, decide_eq_true_eq]
  constructor
  · rintro ⟨p, ⟨hp, rfl⟩, rfl⟩
    exact hp
  · intro h
    exact ⟨(key, id), ⟨h, rfl⟩, rfl⟩

theorem idsOf_append (key : κ) (p : κ × SymbolId) :
    idsOf (entries ++ [p]) key = idsOf entries key ++ if p.1 = key then [p.2] else [] := by
  rw [idsOf, idsOf]
  by_cases hp : p.1 = key
  · simp [hp]
  · simp [hp]

theorem idsOf_filter (p : κ → Bool) (key : κ) :
    idsOf (entries.filter fun e => p e.1) key = if p key then idsOf entries key else [] := by
  rw [idsOf, List.filter_filter]
  have hsame : entries.filter (fun e => decide (e.1 = key) && p e.1) =
      entries.filter fun e => decide (e.1 = key) && p key := by
    refine List.filter_congr fun e _ => ?_
    by_cases he : e.1 = key
    · rw [he]
    · simp [he]
  rw [hsame]
  by_cases hkey : p key
  · simp [hkey, idsOf]
  · simp [hkey]

theorem key_eq_of_mem (hnodup : (entries.map (·.2)).Nodup) {key key' : κ} {id : SymbolId}
    (h : id ∈ idsOf entries key) (h' : id ∈ idsOf entries key') : key = key' := by
  have heq := List.inj_on_of_nodup_map hnodup (mem_idsOf.mp h) (mem_idsOf.mp h') rfl
  exact (Prod.mk.inj heq).1

theorem mem_pushAlternative {first new : SymbolId} {alternatives : List (SymbolId × List SymbolId)}
    {p : SymbolId × List SymbolId} :
    p ∈ pushAlternative first new alternatives ↔ (p ∈ alternatives ∧ p.1 ≠ first) ∨
      (∃ as, (first, as) ∈ alternatives ∧ p = (first, as ++ [new])) ∨
      ((∀ as, (first, as) ∉ alternatives) ∧ p = (first, [new])) := by
  have hany : alternatives.any (·.1 = first) = true ↔ ∃ as, (first, as) ∈ alternatives := by
    rw [List.any_eq_true]
    constructor
    · rintro ⟨⟨f, as⟩, hmem, hf⟩
      obtain rfl : f = first := by simpa using hf
      exact ⟨as, hmem⟩
    · rintro ⟨as, hmem⟩
      exact ⟨_, hmem, by simp⟩
  rw [pushAlternative]
  by_cases hfirst : ∃ as, (first, as) ∈ alternatives
  · rw [if_pos (hany.mpr hfirst), mem_map]
    constructor
    · rintro ⟨⟨f, as⟩, hmem, rfl⟩
      by_cases hf : f = first
      · right; left
        exact ⟨as, hf ▸ hmem, by rw [if_pos hf, hf]⟩
      · left
        rw [if_neg hf]
        exact ⟨hmem, hf⟩
    · rintro (⟨hmem, hf⟩ | ⟨as, hmem, rfl⟩ | ⟨hnone, _⟩)
      · exact ⟨p, hmem, if_neg hf⟩
      · exact ⟨(first, as), hmem, if_pos rfl⟩
      · obtain ⟨as, hmem⟩ := hfirst
        exact absurd hmem (hnone as)
  · rw [if_neg (fun h => hfirst (hany.mp h)), List.mem_append, List.mem_singleton]
    constructor
    · rintro (hmem | rfl)
      · left
        exact ⟨hmem, fun hf => hfirst ⟨p.2, hf ▸ hmem⟩⟩
      · right; right
        exact ⟨fun as hmem => hfirst ⟨as, hmem⟩, rfl⟩
    · rintro (⟨hmem, _⟩ | ⟨as, hmem, _⟩ | ⟨_, rfl⟩)
      · exact .inl hmem
      · exact absurd ⟨as, hmem⟩ hfirst
      · exact .inr rfl

/-- The table after some symbols were added. -/
structure NameTable.Holds (table : NameTable κ) (entries : List (κ × SymbolId)) : Prop where
  first : ∀ key, (table.nameToId.find? (·.1 = key)).map (·.2) = (idsOf entries key).head?
  alternatives : ∀ f as, (f, as) ∈ table.alternativeDefinitions ↔
    as ≠ [] ∧ ∃ key, idsOf entries key = f :: as

/-- Adding one symbol: the first of its name, or one more alternative. -/
theorem NameTable.Holds.add (h : table.Holds entries) {p : κ × SymbolId}
    (hnodup : ((entries ++ [p]).map (·.2)).Nodup) : (table.add p).Holds (entries ++ [p]) := by
  have hentries : (entries.map (·.2)).Nodup := by
    rw [List.map_append] at hnodup
    exact (List.nodup_append.mp hnodup).1
  have hother : ∀ key, p.1 ≠ key → idsOf (entries ++ [p]) key = idsOf entries key := by
    intro key hkey
    rw [idsOf_append, if_neg hkey, List.append_nil]
  have hsame : idsOf (entries ++ [p]) p.1 = idsOf entries p.1 ++ [p.2] := by
    rw [idsOf_append, if_pos rfl]
  have hfirst := h.first p.1
  cases hfind : table.nameToId.find? (·.1 = p.1) with
  | none =>
    have hnil : idsOf entries p.1 = [] := by
      rw [hfind] at hfirst
      exact List.head?_eq_none_iff.mp hfirst.symm
    have hadd : table.add p = { table with nameToId := table.nameToId ++ [p] } := by
      rw [NameTable.add, hfind]
    rw [hadd]
    refine ⟨?_, ?_⟩
    · intro key
      by_cases hkey : p.1 = key
      · subst hkey
        rw [List.find?_append, hfind, hsame, hnil]
        simp
      · rw [hother key hkey, ← h.first key]
        simp [hkey]
    · intro f as
      rw [h.alternatives]
      refine and_congr_right fun has => exists_congr fun key => ?_
      by_cases hkey : p.1 = key
      · subst hkey
        rw [hsame, hnil]
        constructor
        · intro heq
          cases heq
        · intro heq
          obtain ⟨_, rfl⟩ := cons.inj heq
          exact absurd rfl has
      · rw [hother key hkey]
  | some entry =>
    rw [hfind] at hfirst
    obtain ⟨as₀, hids⟩ : ∃ as₀, idsOf entries p.1 = entry.2 :: as₀ := by
      cases hl : idsOf entries p.1 with
      | nil => rw [hl] at hfirst; cases hfirst
      | cons f as => rw [hl] at hfirst; cases hfirst; exact ⟨as, rfl⟩
    have hkeyOf : ∀ {key as}, idsOf entries key = entry.2 :: as → key = p.1 := by
      intro key as hkey
      exact key_eq_of_mem hentries (hkey ▸ mem_cons_self) (hids ▸ mem_cons_self)
    have hadd : table.add p = { table with
        alternativeDefinitions := pushAlternative entry.2 p.2 table.alternativeDefinitions } := by
      rw [NameTable.add, hfind]
    rw [hadd]
    refine ⟨?_, ?_⟩
    · intro key
      rw [h.first key]
      by_cases hkey : p.1 = key
      · subst hkey
        rw [hsame, hids]
        rfl
      · rw [hother key hkey]
    · intro f as
      rw [mem_pushAlternative]
      constructor
      · rintro (⟨hmem, hf⟩ | ⟨as', hmem, heq⟩ | ⟨hnone, heq⟩)
        · obtain ⟨has, key, hkey⟩ := (h.alternatives f as).mp hmem
          refine ⟨has, key, ?_⟩
          rw [hother key, hkey]
          rintro rfl
          rw [hids] at hkey
          exact hf (cons.inj hkey).1.symm
        · obtain ⟨rfl, rfl⟩ := Prod.mk.inj heq
          obtain ⟨_, key, hkey⟩ := (h.alternatives _ as').mp hmem
          obtain rfl := hkeyOf hkey
          exact ⟨by simp, p.1, by rw [hsame, hkey]; rfl⟩
        · obtain ⟨rfl, rfl⟩ := Prod.mk.inj heq
          have hnil : as₀ = [] := by
            by_contra has
            exact hnone as₀ ((h.alternatives _ as₀).mpr ⟨has, p.1, hids⟩)
          exact ⟨by simp, p.1, by rw [hsame, hids, hnil]; rfl⟩
      · rintro ⟨has, key, hkey⟩
        by_cases hp : p.1 = key
        · subst hp
          rw [hsame, hids] at hkey
          obtain ⟨rfl, rfl⟩ := cons.inj hkey
          right
          by_cases hnil : as₀ = []
          · right
            refine ⟨?_, by rw [hnil]; rfl⟩
            intro as' hmem
            obtain ⟨has', key', hkey'⟩ := (h.alternatives _ as').mp hmem
            obtain rfl := hkeyOf hkey'
            rw [hids] at hkey'
            exact has' ((cons.inj hkey').2.symm.trans hnil)
          · left
            exact ⟨as₀, (h.alternatives _ as₀).mpr ⟨hnil, p.1, hids⟩, rfl⟩
        · left
          rw [hother key hp] at hkey
          refine ⟨(h.alternatives f as).mpr ⟨has, key, hkey⟩, ?_⟩
          rintro rfl
          exact hp (hkeyOf hkey).symm

theorem NameTable.holds_foldl (hnodup : (entries.map (·.2)).Nodup) :
    (entries.foldl NameTable.add NameTable.empty).Holds entries := by
  induction entries using List.reverseRecOn with
  | nil =>
    refine ⟨fun key => rfl, fun f as => ?_⟩
    constructor
    · intro h
      cases h
    · rintro ⟨_, key, hkey⟩
      cases hkey
  | append_singleton entries p ih =>
    rw [List.foldl_append]
    have hentries : (entries.map (·.2)).Nodup := by
      rw [List.map_append] at hnodup
      exact (List.nodup_append.mp hnodup).1
    exact (ih hentries).add hnodup

end

/-! ## The lists of all buckets -/

/-- A name under which symbols are registered. -/
inductive SymbolName where
  | unversioned (name : Bytes)
  | versioned (name version : Bytes)

def SymbolName.isVersioned : SymbolName → Bool
  | .unversioned _ => false
  | .versioned _ _ => true

def SymbolName.hash (hashBytes : Bytes → UInt64) : SymbolName → UInt64
  | .unversioned name => hashBytes name
  | .versioned name version => versionedHash hashBytes (name, version)

/-- The symbols registered under a name, in the order they were loaded. -/
def registered (symbols : List GlobalSymbol) : SymbolName → List SymbolId
  | .unversioned name => idsOf (pendingSymbols symbols) name
  | .versioned name version => idsOf (pendingVersionedSymbols symbols) (name, version)

section

variable {symbols : List GlobalSymbol}

theorem mem_registered_unversioned {name : Bytes} {id : SymbolId} :
    id ∈ registered symbols (.unversioned name) ↔
      ∃ s ∈ symbols, s.id = id ∧ s.name = name ∧ s.isDefault = true := by
  rw [registered, mem_idsOf, pendingSymbols, List.mem_filterMap]
  refine exists_congr fun s => and_congr_right fun _ => ?_
  by_cases hdefault : s.isDefault = true
  · rw [if_pos hdefault, Option.some.injEq, Prod.mk.injEq]
    exact ⟨fun h => ⟨h.2, h.1, hdefault⟩, fun h => ⟨h.2.1, h.1⟩⟩
  · rw [if_neg hdefault]
    exact ⟨fun h => absurd h (Option.some_ne_none _).symm, fun h => absurd h.2.2 hdefault⟩

theorem mem_registered_versioned {name version : Bytes} {id : SymbolId} :
    id ∈ registered symbols (.versioned name version) ↔
      ∃ s ∈ symbols, s.id = id ∧ s.name = name ∧ s.version = some version := by
  rw [registered, mem_idsOf, pendingVersionedSymbols, List.mem_filterMap]
  refine exists_congr fun s => and_congr_right fun _ => ?_
  rw [Option.map_eq_some_iff]
  constructor
  · rintro ⟨v, hv, h⟩
    obtain ⟨hkey, hid⟩ := Prod.mk.inj h
    obtain ⟨hname, rfl⟩ := Prod.mk.inj hkey
    exact ⟨hid, hname, hv⟩
  · rintro ⟨rfl, rfl, hv⟩
    exact ⟨version, hv, rfl⟩

variable (hnodup : (symbols.map (·.id)).Nodup)

include hnodup

theorem name_eq_of_registered {name name' : SymbolName} {id : SymbolId}
    (hkind : name.isVersioned = name'.isVersioned) (h : id ∈ registered symbols name)
    (h' : id ∈ registered symbols name') : name = name' := by
  have hsym : ∀ {s t : GlobalSymbol}, s ∈ symbols → t ∈ symbols → s.id = t.id → s = t :=
    fun hs ht hid => List.inj_on_of_nodup_map hnodup hs ht hid
  cases name with
  | unversioned name =>
    cases name' with
    | versioned _ _ => cases hkind
    | unversioned name' =>
      obtain ⟨s, hs, rfl, rfl, _⟩ := mem_registered_unversioned.mp h
      obtain ⟨t, ht, hid, rfl, _⟩ := mem_registered_unversioned.mp h'
      rw [hsym ht hs hid]
  | versioned name version =>
    cases name' with
    | unversioned _ => cases hkind
    | versioned name' version' =>
      obtain ⟨s, hs, rfl, rfl, hv⟩ := mem_registered_versioned.mp h
      obtain ⟨t, ht, hid, rfl, hv'⟩ := mem_registered_versioned.mp h'
      obtain rfl := hsym ht hs hid
      rw [Option.some.inj (hv.symm.trans hv')]

theorem nodup_pendingSymbols : ((pendingSymbols symbols).map (·.2)).Nodup := by
  have hsub : ((pendingSymbols symbols).map (·.2)).Sublist (symbols.map (·.id)) := by
    induction symbols with
    | nil => exact List.Sublist.refl _
    | cons s symbols ih =>
      have ih := ih (List.nodup_cons.mp hnodup).2
      by_cases hdefault : s.isDefault = true
      · simpa [pendingSymbols, hdefault] using ih
      · simpa [pendingSymbols, hdefault] using ih.cons s.id
  exact hsub.nodup hnodup

theorem nodup_pendingVersionedSymbols : ((pendingVersionedSymbols symbols).map (·.2)).Nodup := by
  have hsub : ((pendingVersionedSymbols symbols).map (·.2)).Sublist (symbols.map (·.id)) := by
    induction symbols with
    | nil => exact List.Sublist.refl _
    | cons s symbols ih =>
      have ih := ih (List.nodup_cons.mp hnodup).2
      cases hver : s.version with
      | none => simpa [pendingVersionedSymbols, hver] using ih.cons s.id
      | some version => simpa [pendingVersionedSymbols, hver] using ih
  exact hsub.nodup hnodup

theorem mem_alternativeLists {hashBytes : Bytes → UInt64} {numBuckets : Nat}
    (hpos : 0 < numBuckets) {l : AlternativeList} :
    l ∈ alternativeLists hashBytes numBuckets symbols ↔
      l.alternatives ≠ [] ∧ ∃ name : SymbolName, registered symbols name = l.ids ∧
        name.isVersioned = l.versioned ∧
        (name.hash hashBytes).toNat % numBuckets = l.bucket := by
  have hplain : ∀ bucket, (populateBucket hashBytes numBuckets symbols bucket).names.Holds
      ((pendingSymbols symbols).filter fun p =>
        (hashBytes p.1).toNat % numBuckets = bucket) := fun bucket =>
    NameTable.holds_foldl ((filter_sublist.map _).nodup (nodup_pendingSymbols hnodup))
  have hversioned : ∀ bucket,
      (populateBucket hashBytes numBuckets symbols bucket).versionedNames.Holds
        ((pendingVersionedSymbols symbols).filter fun p =>
          (versionedHash hashBytes p.1).toNat % numBuckets = bucket) := fun bucket =>
    NameTable.holds_foldl ((filter_sublist.map _).nodup (nodup_pendingVersionedSymbols hnodup))
  have hcons : ∀ {b : Bool} {ids : List SymbolId} {f : SymbolId} {as : List SymbolId},
      (if b then ids else []) = f :: as ↔ b = true ∧ ids = f :: as := by
    intro b ids f as
    cases b <;> simp
  obtain ⟨bucket, versioned, first, alternatives⟩ := l
  simp only [alternativeLists, List.mem_flatMap, List.mem_range, List.mem_append, mem_map,
    mk.injEq, ids]
  constructor
  · rintro ⟨b, _, ⟨⟨f, as⟩, hmem, rfl, rfl, rfl, rfl⟩ | ⟨⟨f, as⟩, hmem, rfl, rfl, rfl, rfl⟩⟩
    · obtain ⟨has, name, hids⟩ := ((hplain b).alternatives f as).mp hmem
      rw [idsOf_filter (fun name => (hashBytes name).toNat % numBuckets = b), hcons] at hids
      exact ⟨has, .unversioned name, hids.2, rfl, of_decide_eq_true hids.1⟩
    · obtain ⟨has, name, hids⟩ := ((hversioned b).alternatives f as).mp hmem
      rw [idsOf_filter (fun name => (versionedHash hashBytes name).toNat % numBuckets = b),
        hcons] at hids
      exact ⟨has, .versioned name.1 name.2, hids.2, rfl, of_decide_eq_true hids.1⟩
  · rintro ⟨has, name, hids, rfl, rfl⟩
    refine ⟨(name.hash hashBytes).toNat % numBuckets, Nat.mod_lt _ hpos, ?_⟩
    cases name with
    | unversioned name =>
      left
      refine ⟨(first, alternatives), ((hplain _).alternatives _ _).mpr ⟨has, name, ?_⟩,
        rfl, rfl, rfl, rfl⟩
      rw [idsOf_filter (fun n => (hashBytes n).toNat % numBuckets = _), hcons]
      exact ⟨by simp [SymbolName.hash], hids⟩
    | versioned name version =>
      right
      refine ⟨(first, alternatives), ((hversioned _).alternatives _ _).mpr
        ⟨has, (name, version), ?_⟩, rfl, rfl, rfl, rfl⟩
      rw [idsOf_filter (fun n => (versionedHash hashBytes n).toNat % numBuckets = _), hcons]
      exact ⟨by simp [SymbolName.hash], hids⟩

end

/-! ## Selection -/

/-- The selector holds symbols of the list only. -/
structure SymbolPrioritySelector.From (selector : SymbolPrioritySelector) (ids : List SymbolId) :
    Prop where
  firstStrong : ∀ id ∈ selector.firstStrong, id ∈ ids
  maxCommon : ∀ c ∈ selector.maxCommon, c.2 ∈ ids
  firstWeak : ∀ id ∈ selector.firstWeak, id ∈ ids

theorem SymbolPrioritySelector.From.consider {selector : SymbolPrioritySelector}
    {ids : List SymbolId} (h : selector.From ids) {id : SymbolId} (hid : id ∈ ids)
    (strength : SymbolStrength) : (selector.consider id strength).From ids := by
  obtain ⟨hstrong, hcommon, hweak⟩ := h
  have hsome : ∀ j ∈ some id, j ∈ ids := by
    intro j hj
    cases hj
    exact hid
  cases strength with
  | undefined => exact ⟨hstrong, hcommon, hweak⟩
  | strong =>
    rw [SymbolPrioritySelector.consider]
    split
    · exact ⟨hsome, hcommon, hweak⟩
    · exact ⟨hstrong, hcommon, hweak⟩
  | weak | gnuUnique =>
    rw [SymbolPrioritySelector.consider]
    split
    · exact ⟨hstrong, hcommon, hsome⟩
    · exact ⟨hstrong, hcommon, hweak⟩
  | common size =>
    have hnew : ∀ c ∈ some (size, id), c.2 ∈ ids := by
      intro c hc
      cases hc
      exact hid
    rw [SymbolPrioritySelector.consider]
    split
    · split
      · exact ⟨hstrong, hcommon, hweak⟩
      · exact ⟨hstrong, hnew, hweak⟩
    · exact ⟨hstrong, hnew, hweak⟩

theorem SymbolPrioritySelector.From.best {selector : SymbolPrioritySelector}
    {ids : List SymbolId} (h : selector.From ids) {id : SymbolId} (hbest : selector.best = some id) :
    id ∈ ids := by
  cases hstrong : selector.firstStrong with
  | some strong =>
    obtain rfl : strong = id := by simpa [SymbolPrioritySelector.best, hstrong] using hbest
    exact h.firstStrong strong hstrong
  | none =>
    cases hcommon : selector.maxCommon with
    | some c =>
      obtain rfl : c.2 = id := by
        simpa [SymbolPrioritySelector.best, hstrong, hcommon] using hbest
      exact h.maxCommon c hcommon
    | none =>
      exact h.firstWeak id (by simpa [SymbolPrioritySelector.best, hstrong, hcommon] using hbest)

theorem SymbolPrioritySelector.from_empty (ids : List SymbolId) :
    ({} : SymbolPrioritySelector).From ids :=
  ⟨fun _ h => absurd h (by simp), fun _ h => absurd h (by simp), fun _ h => absurd h (by simp)⟩

section

variable {db : SymbolDb} {flags : SymbolId → ValueFlags}

theorem considerAll_from {first : SymbolId} {all ids : List SymbolId} (hids : ∀ id ∈ ids, id ∈ all)
    {selector selected : SymbolPrioritySelector} (h : selector.From all)
    (hsel : considerAll db flags first selector ids = .ok selected) : selected.From all := by
  induction ids generalizing selector with
  | nil =>
    cases hsel
    exact h
  | cons id ids ih =>
    have hrest : ∀ j ∈ ids, j ∈ all := fun j hj => hids j (List.mem_cons_of_mem id hj)
    have hnext := h.consider (hids id mem_cons_self) (db.symbolStrength id)
    rw [considerAll] at hsel
    split at hsel
    · exact ih hrest h hsel
    · dsimp only at hsel
      split at hsel
      · exact ih hrest hnext hsel
      · split at hsel
        · cases hsel
        · exact ih hrest hnext hsel

theorem selectSymbol_mem {first selected : SymbolId} {alternatives : List SymbolId}
    (h : selectSymbol db flags first alternatives = .ok selected) :
    selected ∈ first :: alternatives := by
  rw [selectSymbol] at h
  cases hselector : considerAll db flags first {} (first :: alternatives) with
  | error e => rw [hselector] at h; cases h
  | ok selector =>
    have hfrom : selector.From (first :: alternatives) :=
      considerAll_from (fun _ hid => hid) (SymbolPrioritySelector.from_empty _) hselector
    simp only [hselector, bind, Except.bind] at h
    cases hbest : selector.best with
    | some best =>
      simp only [hbest] at h
      cases h
      exact hfrom.best hbest
    | none =>
      simp only [hbest] at h
      cases h
      cases hfind : (first :: alternatives).find? fun id =>
          db.symbolStrength id ≠ .undefined with
      | none => exact mem_cons_self
      | some id => exact List.mem_of_find?_eq_some hfind

theorem selectSymbol_congr {flags' : SymbolId → ValueFlags}
    (h : ∀ id, (flags' id).dynamic = (flags id).dynamic) (first : SymbolId)
    (alternatives : List SymbolId) :
    selectSymbol db flags' first alternatives = selectSymbol db flags first alternatives := by
  have hall : ∀ ids selector, considerAll db flags' first selector ids =
      considerAll db flags first selector ids := by
    intro ids
    induction ids with
    | nil => exact fun _ => rfl
    | cons id ids ih =>
      intro selector
      simp only [considerAll, h, ih]
  rw [selectSymbol, selectSymbol, hall]

end

/-! ## One list after the other -/

theorem updateEach_apply {α : Type} {f : α → α} (hf : ∀ a, f (f a) = f a) (ids : List SymbolId)
    (table : SymbolId → α) (id : SymbolId) :
    updateEach f ids table id = if id ∈ ids then f (table id) else table id := by
  induction ids generalizing table with
  | nil => rfl
  | cons i ids ih =>
    have hrest := ih (Function.update table i (f (table i)))
    refine hrest.trans ?_
    by_cases hid : id = i
    · subst hid
      rw [Function.update_self, hf, ite_self, if_pos mem_cons_self]
    · simp [hid]

theorem handleNonDefaultVisibility_idem (v : Visibility) (f : ValueFlags) :
    handleNonDefaultVisibility v (handleNonDefaultVisibility v f) =
      handleNonDefaultVisibility v f := by
  obtain ⟨dynamic, nonInterposable, downgradeToLocal⟩ := f
  cases v <;> cases dynamic <;> rfl

@[simp] theorem handleNonDefaultVisibility_dynamic (v : Visibility) (f : ValueFlags) :
    (handleNonDefaultVisibility v f).dynamic = f.dynamic := by
  obtain ⟨dynamic, nonInterposable, downgradeToLocal⟩ := f
  cases v <;> cases dynamic <;> rfl

theorem flags_processAlternatives {db : SymbolDb} {r : Resolution} {l : AlternativeList}
    {selected : SymbolId} (h : selectSymbol db r.flags l.first l.alternatives = .ok selected)
    (id : SymbolId) : (processAlternatives db r l).flags id =
      if id ∈ l.ids then handleNonDefaultVisibility (listVisibility db l) (r.flags id)
      else r.flags id := by
  rw [processAlternatives, h]
  by_cases hdefault : listVisibility db l = .default
  · simp [hdefault, handleNonDefaultVisibility]
  · dsimp only
    rw [if_pos hdefault]
    exact updateEach_apply (handleNonDefaultVisibility_idem _) _ _ _

theorem dynamic_processAlternatives (db : SymbolDb) (r : Resolution) (l : AlternativeList)
    (id : SymbolId) : ((processAlternatives db r l).flags id).dynamic = (r.flags id).dynamic := by
  cases h : selectSymbol db r.flags l.first l.alternatives with
  | error e => rw [processAlternatives, h]
  | ok selected =>
    rw [flags_processAlternatives h]
    split
    · exact handleNonDefaultVisibility_dynamic _ _
    · rfl

section

variable {db : SymbolDb} {flags : SymbolId → ValueFlags}

theorem errors_foldl_eq_nil {r : Resolution}
    (hdyn : ∀ id, (r.flags id).dynamic = (flags id).dynamic) (lists : List AlternativeList) :
    (lists.foldl (processAlternatives db) r).errors = [] ↔ r.errors = [] ∧
      ∀ l ∈ lists, ∃ selected, selectSymbol db flags l.first l.alternatives = .ok selected := by
  induction lists generalizing r with
  | nil =>
    rw [List.foldl_nil]
    exact (and_iff_left nofun).symm
  | cons l lists ih =>
    have hnext : ∀ id, ((processAlternatives db r l).flags id).dynamic = (flags id).dynamic :=
      fun id => (dynamic_processAlternatives db r l id).trans (hdyn id)
    have hselect := @selectSymbol_congr db _ _ hdyn l.first l.alternatives
    rw [List.foldl_cons, ih hnext, List.forall_mem_cons]
    cases h : selectSymbol db flags l.first l.alternatives with
    | ok selected =>
      have herrors : (processAlternatives db r l).errors = r.errors := by
        rw [processAlternatives, hselect, h]
      rw [herrors]
      simp
    | error e =>
      have herrors : (processAlternatives db r l).errors = r.errors ++ [e] := by
        rw [processAlternatives, hselect, h]
      rw [herrors]
      simp

/-- What a list selects, when it selects. -/
def selectedOf (db : SymbolDb) (flags : SymbolId → ValueFlags) (l : AlternativeList) : SymbolId :=
  (selectSymbol db flags l.first l.alternatives).toOption.getD l.first

theorem foldl_processAlternatives {r : Resolution}
    (hdyn : ∀ id, (r.flags id).dynamic = (flags id).dynamic) {lists : List AlternativeList}
    (hall : ∀ l ∈ lists, ∃ selected, selectSymbol db flags l.first l.alternatives = .ok selected) :
    (lists.foldl (processAlternatives db) r).definitions =
        overwriteAll (fun l id => id ∈ ids l) (selectedOf db flags)
          r.definitions lists ∧
      ∀ id, (lists.foldl (processAlternatives db) r).flags id = lists.foldl (fun f l =>
          if id ∈ l.ids then handleNonDefaultVisibility (listVisibility db l) f else f)
          (r.flags id) := by
  induction lists generalizing r with
  | nil => exact ⟨rfl, fun _ => rfl⟩
  | cons l lists ih =>
    obtain ⟨⟨selected, hsel⟩, hrest⟩ := List.forall_mem_cons.mp hall
    have hnext : ∀ id, ((processAlternatives db r l).flags id).dynamic = (flags id).dynamic :=
      fun id => (dynamic_processAlternatives db r l id).trans (hdyn id)
    have hselect : selectSymbol db r.flags l.first l.alternatives = .ok selected :=
      (selectSymbol_congr hdyn l.first l.alternatives).trans hsel
    have hdefs : (processAlternatives db r l).definitions =
        overwrite (fun l id => id ∈ ids l) (selectedOf db flags)
          r.definitions l := by
      funext id
      rw [processAlternatives, hselect, overwrite, selectedOf, hsel]
      exact updateEach_apply (f := fun _ => selected) (fun _ => rfl) l.ids r.definitions id
    obtain ⟨ihdefinitions, ihflags⟩ := ih hnext hrest
    rw [List.foldl_cons]
    refine ⟨?_, fun id => ?_⟩
    · rw [ihdefinitions, hdefs]
      rfl
    · rw [ihflags, flags_processAlternatives hselect]
      rfl

theorem foldl_handleNonDefaultVisibility (db : SymbolDb) (lists : List AlternativeList)
    (id : SymbolId) (f : ValueFlags) :
    lists.foldl (fun f l =>
        if id ∈ l.ids then handleNonDefaultVisibility (listVisibility db l) f else f) f =
      { dynamic := f.dynamic
        nonInterposable := f.nonInterposable ||
          (!f.dynamic && lists.any fun l => id ∈ l.ids && listVisibility db l ≠ .default)
        downgradeToLocal := f.downgradeToLocal ||
          (!f.dynamic && lists.any fun l => id ∈ l.ids && listVisibility db l = .hidden) } := by
  induction lists generalizing f with
  | nil => simp
  | cons l lists ih =>
    obtain ⟨dynamic, nonInterposable, downgradeToLocal⟩ := f
    rw [List.foldl_cons, ih]
    by_cases hid : id ∈ l.ids
    · cases hv : listVisibility db l <;> cases dynamic <;>
        simp [hid, hv, handleNonDefaultVisibility]
    · simp [hid]

end

/-! ## Loaded inputs -/

/-- The tables when the lists are resolved.  A registered symbol is its own
definition, and a reference has been given a symbol that is. -/
structure Loaded where
  symbols : List GlobalSymbol
  definitions : SymbolId → SymbolId
  flags : SymbolId → ValueFlags
  nodup : (symbols.map (·.id)).Nodup
  own : ∀ s ∈ symbols, definitions s.id = s.id
  resolved : ∀ id, definitions (definitions id) = definitions id

namespace Loaded

variable (loaded : Loaded) (db : SymbolDb) (hashBytes : Bytes → UInt64)

def tables : Resolution := ⟨loaded.definitions, loaded.flags, []⟩

/-- The name has more than one symbol. -/
def Listed (name : SymbolName) : Prop :=
  ∃ first alternatives, registered loaded.symbols name = first :: alternatives ∧ alternatives ≠ []

/-- The list of the name selects the symbol. -/
def Selects (name : SymbolName) (selected : SymbolId) : Prop :=
  ∃ first alternatives, registered loaded.symbols name = first :: alternatives ∧
    alternatives ≠ [] ∧ selectSymbol db loaded.flags first alternatives = .ok selected

/-- Two strong definitions of one name, which is an error. -/
def HasDuplicate : Prop :=
  ∃ name first alternatives, registered loaded.symbols name = first :: alternatives ∧
    alternatives ≠ [] ∧ ∃ e, selectSymbol db loaded.flags first alternatives = .error e

/-- Two lists of one name that share a symbol select the same symbol.

A version whose hash is zero is set apart: its list is in the bucket of the
plain list for every number of buckets, so it always has the last word.
Then only a reference to a symbol that the plain list alone holds can be
left with a definition that is not its own. -/
structure SelectionsAgree : Prop where
  agree : ∀ id name version p q, id ∈ registered loaded.symbols (.unversioned name) →
    id ∈ registered loaded.symbols (.versioned name version) →
    loaded.Selects db (.unversioned name) p → loaded.Selects db (.versioned name version) q →
    p = q ∨ hashBytes version = 0
  referenced : ∀ id name version p q,
    (∀ other, loaded.Listed other → id ∉ registered loaded.symbols other) →
    loaded.definitions id ∈ registered loaded.symbols (.unversioned name) →
    (∀ v, loaded.Listed (.versioned name v) →
      loaded.definitions id ∉ registered loaded.symbols (.versioned name v)) →
    loaded.Selects db (.unversioned name) p →
    p ∈ registered loaded.symbols (.versioned name version) →
    loaded.Selects db (.versioned name version) q → p = q

/-- Every schedule of every number of buckets ends in the same tables, and
in them a definition is its own definition. -/
structure SchedulingInvisible : Prop where
  same : ∀ numBuckets numBuckets' lists lists', 0 < numBuckets → 0 < numBuckets' →
    IsSchedule hashBytes numBuckets loaded.symbols lists →
    IsSchedule hashBytes numBuckets' loaded.symbols lists' →
    ∀ r, resolveAlternativeSymbolDefinitions db loaded.tables lists = .ok r →
      ∃ r', resolveAlternativeSymbolDefinitions db loaded.tables lists' = .ok r' ∧
        r'.definitions = r.definitions ∧ r'.flags = r.flags
  own : ∀ numBuckets lists, 0 < numBuckets →
    IsSchedule hashBytes numBuckets loaded.symbols lists →
    ∀ r, resolveAlternativeSymbolDefinitions db loaded.tables lists = .ok r →
      ∀ id, r.definitions (r.definition id) = r.definition id

end Loaded

namespace Loaded

variable {loaded : Loaded} {db : SymbolDb} {hashBytes : Bytes → UInt64}

theorem Selects.listed {name : SymbolName} {q : SymbolId} (h : loaded.Selects db name q) :
    loaded.Listed name := by
  obtain ⟨first, alternatives, hids, has, _⟩ := h
  exact ⟨first, alternatives, hids, has⟩

theorem Selects.mem {name : SymbolName} {q : SymbolId} (h : loaded.Selects db name q) :
    q ∈ registered loaded.symbols name := by
  obtain ⟨first, alternatives, hids, _, hselect⟩ := h
  rw [hids]
  exact selectSymbol_mem hselect

theorem Selects.unique {name : SymbolName} {p q : SymbolId} (hp : loaded.Selects db name p)
    (hq : loaded.Selects db name q) : p = q := by
  obtain ⟨first, alternatives, hids, _, hselect⟩ := hp
  obtain ⟨first', alternatives', hids', _, hselect'⟩ := hq
  obtain ⟨rfl, rfl⟩ := cons.inj (hids.symm.trans hids')
  exact Except.ok.inj (hselect.symm.trans hselect')

theorem sameName {id : SymbolId} {name name' version : Bytes}
    (h : id ∈ registered loaded.symbols (.unversioned name))
    (h' : id ∈ registered loaded.symbols (.versioned name' version)) : name = name' := by
  obtain ⟨s, hs, rfl, rfl, _⟩ := mem_registered_unversioned.mp h
  obtain ⟨t, ht, hid, rfl, _⟩ := mem_registered_versioned.mp h'
  rw [List.inj_on_of_nodup_map loaded.nodup ht hs hid]

theorem resolve_eq_ok {lists : List AlternativeList} {r : Resolution} :
    resolveAlternativeSymbolDefinitions db loaded.tables lists = .ok r ↔ (∀ l ∈ lists, ∃ selected,
        selectSymbol db loaded.flags l.first l.alternatives = .ok selected) ∧
      lists.foldl (processAlternatives db) loaded.tables = r := by
  have herrors := @errors_foldl_eq_nil db loaded.flags loaded.tables (fun _ => rfl) lists
  rw [resolveAlternativeSymbolDefinitions]
  split
  · rename_i hnone
    have hall := (herrors.mp hnone).2
    constructor
    · intro h
      exact ⟨hall, Except.ok.inj h⟩
    · rintro ⟨_, rfl⟩
      rfl
  · rename_i hsome
    constructor
    · intro h
      cases h
    · rintro ⟨hall, _⟩
      exact absurd (herrors.mpr ⟨rfl, hall⟩) hsome

theorem definitions_eq {lists : List AlternativeList} {r : Resolution}
    (hr : resolveAlternativeSymbolDefinitions db loaded.tables lists = .ok r) :
    r.definitions = overwriteAll (fun l id => id ∈ ids l)
      (selectedOf db loaded.flags) loaded.definitions lists := by
  obtain ⟨hall, rfl⟩ := resolve_eq_ok.mp hr
  exact (@foldl_processAlternatives _ _ loaded.tables (fun _ => rfl) _ hall).1

theorem definitions_of_last {lists pre post : List AlternativeList} {last : AlternativeList}
    {r : Resolution} (hr : resolveAlternativeSymbolDefinitions db loaded.tables lists = .ok r)
    {id : SymbolId} (hlast : lists = pre ++ last :: post) (hwrites : id ∈ last.ids)
    (hpost : ∀ l ∈ post, id ∉ l.ids) : r.definitions id = selectedOf db loaded.flags last := by
  rw [definitions_eq hr, hlast]
  exact overwriteAll_of_last hwrites hpost

theorem selects_of_listed (hno : ¬ loaded.HasDuplicate db) {name : SymbolName} (h : loaded.Listed name) :
    ∃ q, loaded.Selects db name q := by
  obtain ⟨first, alternatives, hids, has⟩ := h
  cases hselect : selectSymbol db loaded.flags first alternatives with
  | ok q => exact ⟨q, first, alternatives, hids, has, hselect⟩
  | error e => exact absurd ⟨name, first, alternatives, hids, has, e, hselect⟩ hno

section

variable {numBuckets : Nat} (hpos : 0 < numBuckets) {lists : List AlternativeList}
  (hschedule : IsSchedule hashBytes numBuckets loaded.symbols lists)

include hpos hschedule

theorem exists_list {name : SymbolName} (h : loaded.Listed name) :
    ∃ l ∈ lists, l.ids = registered loaded.symbols name ∧ l.versioned = name.isVersioned ∧
      l.bucket = (name.hash hashBytes).toNat % numBuckets ∧ l.alternatives ≠ [] := by
  obtain ⟨first, alternatives, hids, has⟩ := h
  refine ⟨⟨(name.hash hashBytes).toNat % numBuckets, name.isVersioned, first, alternatives⟩,
    ?_, hids.symm, rfl, rfl, has⟩
  exact hschedule.perm.mem_iff.mpr
    ((mem_alternativeLists loaded.nodup hpos).mpr ⟨has, name, hids, rfl, rfl⟩)

theorem exists_name {l : AlternativeList} (h : l ∈ lists) :
    ∃ name : SymbolName, registered loaded.symbols name = l.ids ∧ name.isVersioned = l.versioned ∧
      (name.hash hashBytes).toNat % numBuckets = l.bucket ∧ l.alternatives ≠ [] := by
  obtain ⟨has, name, hids, hversioned, hbucket⟩ :=
    (mem_alternativeLists loaded.nodup hpos).mp (hschedule.perm.mem_iff.mp h)
  exact ⟨name, hids, hversioned, hbucket, has⟩

theorem forall_select_iff : (∀ l ∈ lists, ∃ selected,
    selectSymbol db loaded.flags l.first l.alternatives = .ok selected) ↔
      ¬ loaded.HasDuplicate db := by
  constructor
  · rintro hall ⟨name, first, alternatives, hids, has, e, he⟩
    obtain ⟨l, hl, hlids, _⟩ := exists_list hpos hschedule ⟨first, alternatives, hids, has⟩
    obtain ⟨selected, hsel⟩ := hall l hl
    obtain ⟨hfirst, halts⟩ := cons.inj (hlids.trans hids)
    rw [hfirst, halts, he] at hsel
    cases hsel
  · intro hno l hl
    obtain ⟨name, hids, _, _, has⟩ := exists_name hpos hschedule hl
    cases h : selectSymbol db loaded.flags l.first l.alternatives with
    | ok selected => exact ⟨selected, rfl⟩
    | error e => exact absurd ⟨name, l.first, l.alternatives, hids, has, e, h⟩ hno

theorem definitions_of_not_listed {r : Resolution}
    (hr : resolveAlternativeSymbolDefinitions db loaded.tables lists = .ok r) {id : SymbolId}
    (h : ∀ name, loaded.Listed name → id ∉ registered loaded.symbols name) :
    r.definitions id = loaded.definitions id := by
  rw [definitions_eq hr]
  refine overwriteAll_of_forall_not fun l hl hid => ?_
  obtain ⟨name, hids, _, _, has⟩ := exists_name hpos hschedule hl
  exact h name ⟨l.first, l.alternatives, hids, has⟩ (hids.symm ▸ hid)

variable (hno : ¬ loaded.HasDuplicate db)

include hno

theorem selects_selectedOf {l : AlternativeList} (hl : l ∈ lists) {name : SymbolName}
    (hids : registered loaded.symbols name = l.ids) :
    loaded.Selects db name (selectedOf db loaded.flags l) := by
  obtain ⟨_, _, _, _, has⟩ := exists_name hpos hschedule hl
  obtain ⟨selected, hsel⟩ := (forall_select_iff hpos hschedule).mpr hno l hl
  exact ⟨l.first, l.alternatives, hids, has, by rw [selectedOf, hsel]; rfl⟩

variable {r : Resolution}
  (hr : resolveAlternativeSymbolDefinitions db loaded.tables lists = .ok r)

include hr

/-- The last of the lists that hold the symbol decides. -/
theorem definitions_of_back {front back : List AlternativeList} (hlists : lists = front ++ back)
    {id q : SymbolId} {name : SymbolName} (hid : id ∈ registered loaded.symbols name)
    (hq : loaded.Selects db name q) {l : AlternativeList} (hl : l ∈ back)
    (hlids : l.ids = registered loaded.symbols name)
    (honly : ∀ last ∈ back, ∀ other : SymbolName, loaded.Listed other →
      other.isVersioned = last.versioned →
      (other.hash hashBytes).toNat % numBuckets = last.bucket →
      id ∈ registered loaded.symbols other → other = name) : r.definitions id = q := by
  obtain ⟨pre, last, post, hlast, hwrites, hpost⟩ :=
    @exists_last_writer _ _ (fun l id => id ∈ ids l) back id ⟨l, hl, hlids.symm ▸ hid⟩
  have hmem : last ∈ back := hlast ▸ by simp
  have hin : last ∈ lists := hlists ▸ List.mem_append_right _ hmem
  obtain ⟨other, hids, hversioned, hbucket, has⟩ := exists_name hpos hschedule hin
  obtain rfl := honly last hmem other ⟨last.first, last.alternatives, hids, has⟩ hversioned
    hbucket (hids.symm ▸ hwrites)
  rw [hlast, ← List.append_assoc] at hlists
  rw [definitions_of_last hr hlists hwrites hpost]
  exact (selects_selectedOf hpos hschedule hno hin hids).unique hq

theorem definitions_of_plain {id p : SymbolId} {name : Bytes}
    (hid : id ∈ registered loaded.symbols (.unversioned name))
    (hp : loaded.Selects db (.unversioned name) p)
    (honly : ∀ v, loaded.Listed (.versioned name v) →
      id ∉ registered loaded.symbols (.versioned name v)) : r.definitions id = p := by
  obtain ⟨l, hl, hlids, _⟩ := exists_list hpos hschedule hp.listed
  refine definitions_of_back hpos hschedule hno hr (List.nil_append _).symm hid hp hl hlids ?_
  intro _ _ other hlisted _ _ hother
  cases other with
  | unversioned other => exact name_eq_of_registered loaded.nodup rfl hother hid
  | versioned other version =>
    obtain rfl := sameName hid hother
    exact absurd hother (honly version hlisted)

theorem definitions_of_versioned
    (hagree : ∀ id name version p q, id ∈ registered loaded.symbols (.unversioned name) →
      id ∈ registered loaded.symbols (.versioned name version) →
      loaded.Selects db (.unversioned name) p → loaded.Selects db (.versioned name version) q →
      p = q ∨ hashBytes version = 0)
    {id q : SymbolId} {name version : Bytes}
    (hid : id ∈ registered loaded.symbols (.versioned name version))
    (hq : loaded.Selects db (.versioned name version) q) : r.definitions id = q := by
  obtain ⟨l, hl, hlids, hlversioned, hlbucket, _⟩ := exists_list hpos hschedule hq.listed
  have hlid : id ∈ l.ids := hlids.symm ▸ hid
  obtain ⟨pre, last, post, hlast, hwrites, hpost⟩ :=
    @exists_last_writer _ _ (fun l id => id ∈ ids l) lists id ⟨l, hl, hlid⟩
  have hmem : last ∈ lists := hlast ▸ by simp
  obtain ⟨other, hids, hversioned, hbucket, _⟩ := exists_name hpos hschedule hmem
  have hother : id ∈ registered loaded.symbols other := hids.symm ▸ hwrites
  have hselects := selects_selectedOf hpos hschedule hno hmem hids
  rw [definitions_of_last hr hlast hwrites hpost]
  cases other with
  | versioned other version' =>
    obtain hsame : SymbolName.versioned other version' = .versioned name version :=
      name_eq_of_registered loaded.nodup rfl hother hid
    rw [hsame] at hselects
    exact hselects.unique hq
  | unversioned other =>
    obtain rfl := sameName hother hid
    rcases hagree id other version _ q hother hid hselects hq with heq | hzero
    · exact heq
    · -- the versioned list comes before the plain one, in the same bucket
      exfalso
      have hne : l ≠ last := by
        rintro rfl
        rw [← hversioned] at hlversioned
        cases hlversioned
      have hpre : l ∈ pre := by
        rw [hlast] at hl
        rcases List.mem_append.mp hl with hl | hl
        · exact hl
        · rcases List.mem_cons.mp hl with hl | hl
          · exact absurd hl hne
          · exact absurd hlid (hpost l hl)
      have horder := hschedule.plainFirst
      rw [hlast, List.pairwise_append] at horder
      refine horder.2.2 l hpre last mem_cons_self ⟨?_, hlversioned, hversioned.symm⟩
      rw [hlbucket, ← hbucket]
      simp [SymbolName.hash, versionedHash, hzero]

end

theorem place (hno : ¬ loaded.HasDuplicate db) (id : SymbolId) :
    (∀ name, loaded.Listed name → id ∉ registered loaded.symbols name) ∨
    (∃ name p, id ∈ registered loaded.symbols (.unversioned name) ∧
      loaded.Selects db (.unversioned name) p ∧ ∀ v, loaded.Listed (.versioned name v) →
        id ∉ registered loaded.symbols (.versioned name v)) ∨
    ∃ name version q, id ∈ registered loaded.symbols (.versioned name version) ∧
      loaded.Selects db (.versioned name version) q := by
  by_cases hversioned : ∃ name version, loaded.Listed (.versioned name version) ∧
      id ∈ registered loaded.symbols (.versioned name version)
  · obtain ⟨name, version, hlisted, hid⟩ := hversioned
    obtain ⟨q, hq⟩ := selects_of_listed hno hlisted
    exact .inr (.inr ⟨name, version, q, hid, hq⟩)
  · by_cases hplain : ∃ name, loaded.Listed (.unversioned name) ∧
        id ∈ registered loaded.symbols (.unversioned name)
    · obtain ⟨name, hlisted, hid⟩ := hplain
      obtain ⟨p, hp⟩ := selects_of_listed hno hlisted
      exact .inr (.inl ⟨name, p, hid, hp, fun v hv hid => hversioned ⟨name, v, hv, hid⟩⟩)
    · left
      intro name hlisted hid
      cases name with
      | unversioned name => exact hplain ⟨name, hlisted, hid⟩
      | versioned name version => exact hversioned ⟨name, version, hlisted, hid⟩

/-! ## Flags -/

theorem any_of_any {n n' : Nat} (hn : 0 < n) (hn' : 0 < n') {lists lists' : List AlternativeList}
    (hs : IsSchedule hashBytes n loaded.symbols lists)
    (hs' : IsSchedule hashBytes n' loaded.symbols lists') {φ : AlternativeList → Bool}
    (hφ : ∀ l l' : AlternativeList, l.first = l'.first → l.alternatives = l'.alternatives →
      φ l = φ l') (h : lists.any φ = true) : lists'.any φ = true := by
  obtain ⟨l, hl, hlφ⟩ := List.any_eq_true.mp h
  obtain ⟨name, hids, _, _, has⟩ := exists_name hn hs hl
  obtain ⟨l', hl', hids', _⟩ := exists_list hn' hs' ⟨l.first, l.alternatives, hids, has⟩
  obtain ⟨hfirst, halts⟩ := cons.inj (hids'.trans hids)
  exact List.any_eq_true.mpr ⟨l', hl', (hφ l' l hfirst halts).trans hlφ⟩

theorem listVisibility_congr {l l' : AlternativeList} (hfirst : l.first = l'.first)
    (halts : l.alternatives = l'.alternatives) :
    listVisibility db l = listVisibility db l' := by
  rw [listVisibility, listVisibility, hfirst, halts]

theorem flags_eq {n n' : Nat} (hn : 0 < n) (hn' : 0 < n') {lists lists' : List AlternativeList}
    (hs : IsSchedule hashBytes n loaded.symbols lists)
    (hs' : IsSchedule hashBytes n' loaded.symbols lists') {r r' : Resolution}
    (hr : resolveAlternativeSymbolDefinitions db loaded.tables lists = .ok r)
    (hr' : resolveAlternativeSymbolDefinitions db loaded.tables lists' = .ok r') :
    r'.flags = r.flags := by
  obtain ⟨hall, rfl⟩ := resolve_eq_ok.mp hr
  obtain ⟨hall', rfl⟩ := resolve_eq_ok.mp hr'
  funext id
  have hany : ∀ φ : AlternativeList → Bool, (∀ l l' : AlternativeList, l.first = l'.first →
      l.alternatives = l'.alternatives → φ l = φ l') → lists'.any φ = lists.any φ := by
    intro φ hφ
    exact Bool.eq_iff_iff.mpr ⟨any_of_any hn' hn hs' hs hφ, any_of_any hn hn' hs hs' hφ⟩
  have hids : ∀ {l l' : AlternativeList}, l.first = l'.first →
      l.alternatives = l'.alternatives → l.ids = l'.ids := by
    intro l l' hfirst halts
    rw [ids, ids, hfirst, halts]
  rw [(@foldl_processAlternatives _ _ loaded.tables (fun _ => rfl) _ hall).2,
    (@foldl_processAlternatives _ _ loaded.tables (fun _ => rfl) _ hall').2,
    foldl_handleNonDefaultVisibility, foldl_handleNonDefaultVisibility]
  rw [hany (fun l => id ∈ l.ids && listVisibility db l ≠ .default),
    hany (fun l => id ∈ l.ids && listVisibility db l = .hidden)]
  · intro l l' hfirst halts
    simp only [hids hfirst halts, listVisibility_congr hfirst halts]
  · intro l l' hfirst halts
    simp only [hids hfirst halts, listVisibility_congr hfirst halts]

/-! ## Two schedules -/

theorem isSchedule_plainFirst (numBuckets : Nat) (symbols : List GlobalSymbol) :
    IsSchedule hashBytes numBuckets symbols
      ((alternativeLists hashBytes numBuckets symbols).filter (fun l => !l.versioned) ++
        (alternativeLists hashBytes numBuckets symbols).filter fun l => !!l.versioned) where
  perm := List.filter_append_perm _ _
  plainFirst := by
    have hplain : ∀ l ∈ (alternativeLists hashBytes numBuckets symbols).filter
        fun l => !l.versioned, l.versioned = false := fun l hl => by
      simpa using (mem_filter.mp hl).2
    have hversioned : ∀ l ∈ (alternativeLists hashBytes numBuckets symbols).filter
        fun l => !!l.versioned, l.versioned = true := fun l hl => by
      simpa using (mem_filter.mp hl).2
    rw [List.pairwise_append]
    refine ⟨?_, ?_, ?_⟩
    · refine List.pairwise_of_forall_mem_list fun a ha b _ h => ?_
      exact Bool.noConfusion ((hplain a ha).symm.trans h.2.1)
    · refine List.pairwise_of_forall_mem_list fun a _ b hb h => ?_
      exact Bool.noConfusion ((hversioned b hb).symm.trans h.2.2)
    · intro a ha b _ h
      exact Bool.noConfusion ((hplain a ha).symm.trans h.2.1)

theorem isSchedule_bucketFirst {numBuckets : Nat} {symbols : List GlobalSymbol}
    {lists : List AlternativeList} (h : IsSchedule hashBytes numBuckets symbols lists) (b : Nat) :
    IsSchedule hashBytes numBuckets symbols
      (lists.filter (fun l => l.bucket = b) ++ lists.filter fun l => !(l.bucket = b : Bool)) where
  perm := (List.filter_append_perm _ lists).trans h.perm
  plainFirst := by
    rw [List.pairwise_append]
    refine ⟨h.plainFirst.sublist filter_sublist, h.plainFirst.sublist filter_sublist, ?_⟩
    intro l hl l' hl' hbad
    have hb : l.bucket = b := by simpa using (mem_filter.mp hl).2
    have hb' : l'.bucket ≠ b := by simpa using (mem_filter.mp hl').2
    exact hb' (hbad.1.symm.trans hb)

theorem definitions_plainFirst {numBuckets : Nat} (hpos : 0 < numBuckets)
    (hno : ¬ loaded.HasDuplicate db) {r : Resolution}
    (hr : resolveAlternativeSymbolDefinitions db loaded.tables
      ((alternativeLists hashBytes numBuckets loaded.symbols).filter (fun l => !l.versioned) ++
        (alternativeLists hashBytes numBuckets loaded.symbols).filter fun l => !!l.versioned) =
          .ok r) {id q : SymbolId} {name version : Bytes}
    (hid : id ∈ registered loaded.symbols (.versioned name version))
    (hq : loaded.Selects db (.versioned name version) q) : r.definitions id = q := by
  have hs := @isSchedule_plainFirst hashBytes numBuckets loaded.symbols
  obtain ⟨l, hl, hlids, hlversioned, _⟩ := exists_list hpos hs hq.listed
  refine definitions_of_back hpos hs hno hr rfl hid hq
    (mem_filter.mpr ⟨hs.perm.mem_iff.mp hl, by rw [hlversioned]; rfl⟩) hlids ?_
  intro last hmem other _ hversioned _ hother
  have hlastversioned : last.versioned = true := by simpa using (mem_filter.mp hmem).2
  exact name_eq_of_registered loaded.nodup (hversioned.trans hlastversioned) hother hid

theorem definitions_bucketFirst {numBuckets : Nat} (hpos : 0 < numBuckets)
    (hno : ¬ loaded.HasDuplicate db) {lists : List AlternativeList}
    (hs : IsSchedule hashBytes numBuckets loaded.symbols lists) {r : Resolution}
    {id p : SymbolId} {name version : Bytes}
    (hid : id ∈ registered loaded.symbols (.unversioned name))
    (hid' : id ∈ registered loaded.symbols (.versioned name version))
    (hp : loaded.Selects db (.unversioned name) p)
    (hne : (hashBytes name).toNat % numBuckets ≠
      (versionedHash hashBytes (name, version)).toNat % numBuckets)
    (hr : resolveAlternativeSymbolDefinitions db loaded.tables (lists.filter (fun l => l.bucket =
          (versionedHash hashBytes (name, version)).toNat % numBuckets) ++
        lists.filter fun l => !(l.bucket =
          (versionedHash hashBytes (name, version)).toNat % numBuckets : Bool)) = .ok r) :
    r.definitions id = p := by
  obtain ⟨l, hl, hlids, _, hlbucket, _⟩ := exists_list hpos hs hp.listed
  have hlmem : l ∈ lists.filter fun l => !(l.bucket =
      (versionedHash hashBytes (name, version)).toNat % numBuckets : Bool) := by
    refine mem_filter.mpr ⟨hl, ?_⟩
    rw [hlbucket]
    rw [Bool.not_eq_true']
    exact decide_eq_false hne
  refine definitions_of_back hpos (isSchedule_bucketFirst hs _) hno hr rfl hid hp hlmem hlids ?_
  intro last hmem other _ _ hbucket hother
  have hlastbucket : last.bucket ≠
      (versionedHash hashBytes (name, version)).toNat % numBuckets := by
    simpa using (mem_filter.mp hmem).2
  cases other with
  | unversioned other => exact name_eq_of_registered loaded.nodup rfl hother hid
  | versioned other version' =>
    have heq : SymbolName.versioned other version' = .versioned name version :=
      name_eq_of_registered loaded.nodup rfl hother hid'
    rw [heq] at hbucket
    exact absurd hbucket.symm hlastbucket

/-! ## When scheduling is invisible -/

theorem SchedulingInvisible.agree (h : loaded.SchedulingInvisible db hashBytes)
    (hno : ¬ loaded.HasDuplicate db) (id : SymbolId) (name version : Bytes) (p q : SymbolId)
    (hid : id ∈ registered loaded.symbols (.unversioned name))
    (hid' : id ∈ registered loaded.symbols (.versioned name version))
    (hp : loaded.Selects db (.unversioned name) p)
    (hq : loaded.Selects db (.versioned name version) q) : p = q ∨ hashBytes version = 0 := by
  by_cases hzero : hashBytes version = 0
  · exact .inr hzero
  · left
    -- with so many buckets, two names share one only when their hashes are equal
    have hpos : 0 < UInt64.size := by decide
    have hne : (hashBytes name).toNat % UInt64.size ≠
        (versionedHash hashBytes (name, version)).toNat % UInt64.size := by
      rw [Nat.mod_eq_of_lt (UInt64.toNat_lt_size _), Nat.mod_eq_of_lt (UInt64.toNat_lt_size _)]
      intro heq
      have hxor : hashBytes name = hashBytes name ^^^ hashBytes version := UInt64.toNat_inj.mp heq
      have hcancel := congrArg (hashBytes name ^^^ ·) hxor
      simp only [UInt64.xor_self, ← UInt64.xor_assoc, UInt64.zero_xor] at hcancel
      exact hzero hcancel.symm
    have hs := @isSchedule_plainFirst hashBytes UInt64.size loaded.symbols
    have hr := resolve_eq_ok.mpr ⟨(forall_select_iff hpos hs).mpr hno, rfl⟩
    obtain ⟨r', hr', hdefs, _⟩ := h.same _ _ _ _ hpos hpos hs (isSchedule_bucketFirst hs _) _ hr
    have hplain := definitions_bucketFirst hpos hno hs hid hid' hp hne hr'
    rw [hdefs, definitions_plainFirst hpos hno hr hid' hq] at hplain
    exact hplain.symm

/-- Every schedule of every number of buckets ends in the same definitions
and flags, and each definition is its own, exactly when a duplicate stops
the link or the lists that share a symbol agree. -/
theorem scheduling_invisible_iff (loaded : Loaded) (db : SymbolDb)
    (hashBytes : Bytes → UInt64) : loaded.SchedulingInvisible db hashBytes ↔
      loaded.HasDuplicate db ∨ loaded.SelectionsAgree db hashBytes := by
  by_cases hno : loaded.HasDuplicate db
  · -- no schedule returns tables
    refine iff_of_true ⟨?_, ?_⟩ (.inl hno)
    · intro n n' lists lists' hn _ hs _ r hr
      exact absurd hno ((forall_select_iff hn hs).mp (resolve_eq_ok.mp hr).1)
    · intro n lists hn hs r hr
      exact absurd hno ((forall_select_iff hn hs).mp (resolve_eq_ok.mp hr).1)
  · rw [or_iff_right hno]
    constructor
    · intro h
      refine ⟨h.agree hno, ?_⟩
      intro id name version p q hunlisted hplain honly hp hpid hq
      have hs := @isSchedule_plainFirst hashBytes 1 loaded.symbols
      have hr := resolve_eq_ok.mpr ⟨(forall_select_iff Nat.one_pos hs).mpr hno, rfl⟩
      have hself := h.own 1 _ Nat.one_pos hs _ hr id
      rw [Resolution.definition, definitions_of_not_listed Nat.one_pos hs hr hunlisted,
        definitions_of_plain Nat.one_pos hs hno hr hplain hp honly,
        definitions_of_versioned Nat.one_pos hs hno hr (h.agree hno) hpid hq] at hself
      exact hself.symm
    · intro h
      refine ⟨?_, ?_⟩
      · intro n n' lists lists' hn hn' hs hs' r hr
        obtain ⟨r', hr'⟩ : ∃ r', resolveAlternativeSymbolDefinitions db loaded.tables lists' =
            .ok r' := ⟨_, resolve_eq_ok.mpr ⟨(forall_select_iff hn' hs').mpr hno, rfl⟩⟩
        refine ⟨r', hr', funext fun id => ?_, flags_eq hn hn' hs hs' hr hr'⟩
        rcases place hno id with hunlisted | ⟨name, p, hid, hp, honly⟩ | ⟨name, version, q, hid, hq⟩
        · rw [definitions_of_not_listed hn hs hr hunlisted,
            definitions_of_not_listed hn' hs' hr' hunlisted]
        · rw [definitions_of_plain hn hs hno hr hid hp honly,
            definitions_of_plain hn' hs' hno hr' hid hp honly]
        · rw [definitions_of_versioned hn hs hno hr h.agree hid hq,
            definitions_of_versioned hn' hs' hno hr' h.agree hid hq]
      · intro n lists hn hs r hr id
        have hversioned : ∀ {id q : SymbolId} {name version : Bytes},
            id ∈ registered loaded.symbols (.versioned name version) →
            loaded.Selects db (.versioned name version) q → r.definitions id = q :=
          fun hid hq => definitions_of_versioned hn hs hno hr h.agree hid hq
        have hplain : ∀ {id p : SymbolId} {name : Bytes},
            id ∈ registered loaded.symbols (.unversioned name) →
            loaded.Selects db (.unversioned name) p →
            (∀ v, loaded.Listed (.versioned name v) →
              id ∉ registered loaded.symbols (.versioned name v)) → r.definitions id = p :=
          fun hid hp honly => definitions_of_plain hn hs hno hr hid hp honly
        -- what a plain list selects is its own definition, or a versioned list has it
        have hsel : ∀ {name : Bytes} {p : SymbolId},
            loaded.Selects db (.unversioned name) p → r.definitions p = p ∨
              ∃ version q, p ∈ registered loaded.symbols (.versioned name version) ∧
                loaded.Selects db (.versioned name version) q := by
          intro name p hp
          rcases place hno p with hunlisted | ⟨name', p', hid, hp', honly⟩ |
            ⟨name', version, q, hid, hq⟩
          · exact absurd hp.mem (hunlisted _ hp.listed)
          · obtain hsame : SymbolName.unversioned name' = .unversioned name :=
              name_eq_of_registered loaded.nodup rfl hid hp.mem
            obtain rfl := SymbolName.unversioned.inj hsame
            obtain rfl := hp'.unique hp
            exact .inl (hplain hid hp honly)
          · obtain rfl := sameName hp.mem hid
            exact .inr ⟨version, q, hid, hq⟩
        rw [Resolution.definition]
        rcases place hno id with hunlisted | ⟨name, p, hid, hp, honly⟩ | ⟨name, version, q, hid, hq⟩
        · rw [definitions_of_not_listed hn hs hr hunlisted]
          rcases place hno (loaded.definitions id) with hunlisted' | ⟨name, p, hid', hp, honly⟩ |
            ⟨name, version, q, hid', hq⟩
          · rw [definitions_of_not_listed hn hs hr hunlisted', loaded.resolved,
              definitions_of_not_listed hn hs hr hunlisted', loaded.resolved]
          · rw [hplain hid' hp honly]
            rcases hsel hp with hself | ⟨version, q, hpid, hq⟩
            · exact hself
            · rw [hversioned hpid hq]
              exact (h.referenced id name version p q hunlisted hid' honly hp hpid hq).symm
          · rw [hversioned hid' hq, hversioned hq.mem hq]
        · rw [hplain hid hp honly]
          rcases hsel hp with hself | ⟨version, q, hpid, hq⟩
          · rw [hself, hself]
          · rw [hversioned hpid hq, hversioned hq.mem hq]
        · rw [hversioned hid hq, hversioned hq.mem hq, hversioned hq.mem hq]

/-- A strong `foo` (1), and weak `foo@@V1` (2) and `foo@V1` (3). -/
def fooDefinitions : Loaded where
  symbols := [⟨1, [102, 111, 111], true, none⟩, ⟨2, [102, 111, 111], true, some [86, 49]⟩,
    ⟨3, [102, 111, 111], false, some [86, 49]⟩]
  definitions := id
  flags _ := ⟨false, false, false⟩
  nodup := by decide
  own _ _ := rfl
  resolved _ := rfl

def fooDb : SymbolDb where
  symbolStrength id := if id = 1 then .strong else .weak
  inputSymbolVisibility _ := .default
  isInComdatGroup _ := false
  allowDuplicateDefinition _ _ := false
  allowMultipleDefinitions := false
  symbolNameForDisplay _ := "foo"
  fileOfSymbol _ := "a.o"

def sumHash (bytes : Bytes) : UInt64 := (bytes.map (·.toUInt64)).sum

/-- The plain list selects 1 and the versioned one 2; both write the slot of 2. -/
theorem not_schedulingInvisible_foo :
    ¬ fooDefinitions.SchedulingInvisible fooDb sumHash := by
  intro h
  have hplain : IsSchedule sumHash 2 fooDefinitions.symbols
      [⟨0, false, 1, [2]⟩, ⟨1, true, 2, [3]⟩] := ⟨by decide, by decide⟩
  have hversioned : IsSchedule sumHash 2 fooDefinitions.symbols
      [⟨1, true, 2, [3]⟩, ⟨0, false, 1, [2]⟩] := ⟨by decide, by decide⟩
  obtain ⟨r, hr, hdefs, _⟩ := h.same 2 2 _ _ Nat.two_pos Nat.two_pos hplain hversioned _ rfl
  obtain ⟨_, rfl⟩ := resolve_eq_ok.mp hr
  have hslot : (1 : SymbolId) = 2 := congrFun hdefs 2
  cases hslot

end Loaded

end Sld.Symbols
