/-
# `Dynamic.VersionCounts` — which versions are marked, counted and numbered

    loadSymbols_eq_ok           a mark for each version of a loaded symbol
    foldlM_sizeVerdef_eq_ok     the count and the bytes of the marked ones
    computeVersionMapping_eq_ok numbers in the order of the indices
-/
import Sld.Dynamic.VersionNeeds

namespace Sld.Dynamic

open Text.Reader (orError_eq_ok orError_some bind_eq_ok ok_bind)
open List (any_cons any_nil ext_getElem?)
open Option (map_some)
open Except (ok)
open UInt16 (ofNat toNat_lt)

theorem checkedAdd_eq_some {a b c : UInt16} :
    checkedAdd a b = some c ↔ a.toNat + b.toNat < 2 ^ 16 ∧ c = a + b := by
  unfold checkedAdd
  split
  · next h =>
    rw [Option.some_inj, eq_comm]
    exact (and_iff_right h).symm
  · next h => exact ⟨nofun, fun hc => absurd hc.1 h⟩

theorem toNat_of_checkedAdd {a b c : UInt16} (h : checkedAdd a b = some c) :
    c.toNat = a.toNat + b.toNat := by
  obtain ⟨hlt, rfl⟩ := checkedAdd_eq_some.mp h
  rw [UInt16.toNat_add, Nat.mod_eq_of_lt hlt]

/-! ## Marks -/

namespace DynamicInput

/-- The version of a symbol; without one it is global. -/
def version (input : DynamicInput) (symbolIndex : ℕ) : UInt16 :=
  (input.object.versym[symbolIndex]?.getD verNdxGlobal) &&& 0x7fff

/-- Some of these symbols have version `ndx`, which is neither local nor
global. -/
def marks (input : DynamicInput) (symbols : List ℕ) (ndx : ℕ) : Bool :=
  symbols.any fun i => decide (verNdxGlobal < input.version i) && (input.version i).toNat == ndx

/-- Whether a symbol of this version is loaded. -/
def isNeeded (input : DynamicInput) (ndx : ℕ) : Bool := input.marks input.referenced ndx

def defs (input : DynamicInput) : List Verdef := input.object.verdef.getD []

/-- The versions of the loaded symbols, other than the base. -/
def neededVersions (input : DynamicInput) : List Verdef :=
  input.defs.filter fun verdef => !verdef.isBase && input.isNeeded verdef.ndx.toNat

variable {input : DynamicInput}

theorem isNeeded_iff {ndx : ℕ} : input.isNeeded ndx = true ↔
    ∃ i ∈ input.referenced, verNdxGlobal < input.version i ∧ (input.version i).toNat = ndx := by
  rw [isNeeded, marks, List.any_eq_true]
  refine exists_congr fun i => and_congr_right fun _ => ?_
  rw [Bool.and_eq_true, decide_eq_true_iff, beq_iff_eq]

theorem mem_neededVersions {verdef : Verdef} : verdef ∈ input.neededVersions ↔
    verdef ∈ input.defs ∧ verdef.isBase = false ∧ input.isNeeded verdef.ndx.toNat = true := by
  rw [neededVersions, List.mem_filter, Bool.and_eq_true, Bool.not_eq_true']

theorem dynamicSymbolUsed_eq (needed : List Bool) (i : ℕ) :
    input.object.dynamicSymbolUsed needed i = if verNdxGlobal < input.version i then
        if (input.version i).toNat - 1 < needed.length then
          .ok (needed.set ((input.version i).toNat - 1) true)
        else .error ("Invalid symbol version index " ++ toString (input.version i))
      else .ok needed := by
  unfold SharedObject.dynamicSymbolUsed version
  cases input.object.versym[i]? with
  | none => rfl
  | some versym => rfl

variable {needed : List Bool}

theorem dynamicSymbolUsed_eq_ok {needed' : List Bool} {i : ℕ} :
    input.object.dynamicSymbolUsed needed i = .ok needed' ↔
      (verNdxGlobal < input.version i → (input.version i).toNat ≤ needed.length)
        ∧ needed' = needed.mapIdx fun k b => b || input.marks [i] (k + 1) := by
  rw [dynamicSymbolUsed_eq]
  have hmarks : ∀ k, input.marks [i] k
      = (decide (verNdxGlobal < input.version i) && (input.version i).toNat == k) := by
    intro k
    rw [marks, any_cons, any_nil, Bool.or_false]
  split
  · next hver =>
    have hpos : 1 < (input.version i).toNat := hver
    have hset : (needed.set ((input.version i).toNat - 1) true)
        = needed.mapIdx fun k b => b || input.marks [i] (k + 1) := by
      refine ext_getElem? fun k => ?_
      rw [List.getElem?_set, List.getElem?_mapIdx, hmarks, decide_eq_true hver, Bool.true_and]
      by_cases hk : (input.version i).toNat - 1 = k
      · have heq : (input.version i).toNat = k + 1 := by omega
        rw [if_pos hk, heq, beq_self_eq_true]
        cases hget : needed[k]? with
        | none =>
          have := List.getElem?_eq_none_iff.mp hget
          rw [if_neg (by omega)]
          rfl
        | some b =>
          obtain ⟨hlt, -⟩ := List.getElem?_eq_some_iff.mp hget
          rw [if_pos (by omega), map_some, Bool.or_true]
      · have hne : ((input.version i).toNat == k + 1) = false := by
          rw [beq_eq_false_iff_ne]
          omega
        rw [if_neg hk, hne]
        cases needed[k]? with
        | none => rfl
        | some b => rw [map_some, Bool.or_false]
    rw [hset]
    split
    · next hlt =>
      constructor
      · intro h
        exact ⟨fun _ => by omega, (ok.inj h).symm⟩
      · rintro ⟨-, rfl⟩
        rfl
    · next hlt =>
      constructor
      · intro h
        cases h
      · rintro ⟨hle, -⟩
        have := hle hver
        omega
  · next hver =>
    have hid : needed = needed.mapIdx fun k b => b || input.marks [i] (k + 1) := by
      refine ext_getElem? fun k => ?_
      rw [List.getElem?_mapIdx, hmarks, decide_eq_false hver, Bool.false_and]
      cases needed[k]? with
      | none => rfl
      | some b => rw [map_some, Bool.or_false]
    rw [← hid]
    constructor
    · intro h
      exact ⟨fun hv => absurd hv hver, (ok.inj h).symm⟩
    · rintro ⟨-, rfl⟩
      rfl

theorem foldlM_dynamicSymbolUsed_eq_ok {symbols : List ℕ} {needed' : List Bool} :
    symbols.foldlM input.object.dynamicSymbolUsed needed = .ok needed' ↔
      (∀ i ∈ symbols, verNdxGlobal < input.version i → (input.version i).toNat ≤ needed.length)
        ∧ needed' = needed.mapIdx fun k b => b || input.marks symbols (k + 1) := by
  induction symbols generalizing needed with
  | nil =>
    have hid : needed = needed.mapIdx fun k b => b || input.marks [] (k + 1) := by
      refine ext_getElem? fun k => ?_
      rw [List.getElem?_mapIdx]
      cases needed[k]? with
      | none => rfl
      | some b => rw [map_some, marks, any_nil, Bool.or_false]
    rw [← hid]
    constructor
    · intro h
      exact ⟨fun i hi => absurd hi List.not_mem_nil, (ok.inj h).symm⟩
    · rintro ⟨-, rfl⟩
      rfl
  | cons i symbols ih =>
    have hmarks : ∀ k, input.marks (i :: symbols) k
        = (input.marks [i] k || input.marks symbols k) := by
      intro k
      rw [marks, marks, marks, any_cons, any_cons, any_nil, Bool.or_false]
    have hcompose : (needed.mapIdx fun k b => b || input.marks [i] (k + 1)).mapIdx
          (fun k b => b || input.marks symbols (k + 1))
        = needed.mapIdx fun k b => b || input.marks (i :: symbols) (k + 1) := by
      refine ext_getElem? fun k => ?_
      rw [List.getElem?_mapIdx, List.getElem?_mapIdx, List.getElem?_mapIdx, Option.map_map]
      refine congrArg (Option.map · _) (funext fun b => ?_)
      rw [hmarks, Function.comp_apply, Bool.or_assoc]
    rw [List.foldlM_cons, bind_eq_ok, List.forall_mem_cons]
    constructor
    · rintro ⟨needed₁, hfirst, hrest⟩
      obtain ⟨hi, rfl⟩ := dynamicSymbolUsed_eq_ok.mp hfirst
      obtain ⟨hsyms, rfl⟩ := ih.mp hrest
      rw [List.length_mapIdx] at hsyms
      exact ⟨⟨hi, hsyms⟩, hcompose⟩
    · rintro ⟨⟨hi, hsyms⟩, rfl⟩
      refine ⟨_, dynamicSymbolUsed_eq_ok.mpr ⟨hi, rfl⟩, ih.mpr ⟨?_, hcompose.symm⟩⟩
      rw [List.length_mapIdx]
      exact hsyms

theorem loadSymbols_eq_ok : input.loadSymbols = .ok needed ↔
    (∀ i ∈ input.referenced, verNdxGlobal < input.version i →
        (input.version i).toNat ≤ input.object.verdefnum.toNat)
      ∧ needed = (List.range input.object.verdefnum.toNat).map fun k => input.isNeeded (k + 1) := by
  rw [loadSymbols, foldlM_dynamicSymbolUsed_eq_ok, List.length_replicate]
  refine and_congr_right fun _ => ?_
  have heq : ((List.replicate input.object.verdefnum.toNat false).mapIdx
        fun k b => b || input.marks input.referenced (k + 1))
      = (List.range input.object.verdefnum.toNat).map fun k => input.isNeeded (k + 1) := by
    refine List.ext_getElem (by simp) fun k hk hk' => ?_
    rw [List.getElem_mapIdx, List.getElem_map, List.getElem_replicate, List.getElem_range,
      Bool.false_or, isNeeded]
  rw [heq]

theorem getElem?_needed {n k : ℕ} : ((List.range n).map fun k => input.isNeeded (k + 1))[k]?
      = if k < n then some (input.isNeeded (k + 1)) else none := by
  rw [List.getElem?_map]
  split
  · next h => rw [List.getElem?_range h, map_some]
  · next h => rw [List.getElem?_eq_none (by rw [List.length_range]; omega), Option.map_none]

end DynamicInput

/-! ## Sizes -/

/-- The string of a version, with its terminator. -/
def Verdef.nameSize (verdef : Verdef) : ℕ := (verdef.names.head?.getD []).length + 1

/-- The definitions that are counted. -/
def countedVersions (needed : List Bool) (defs : List Verdef) : List Verdef :=
  defs.filter fun verdef => !verdef.isBase && needed[verdef.ndx.toNat - 1]? == some true

/-- What has to hold of a definition. -/
structure Sizeable (needed : List Bool) (verdef : Verdef) : Prop where
  ndx : verdef.ndx ≠ 0
  inRange : verdef.isBase = false → verdef.ndx.toNat ≤ needed.length
  named : verdef ∈ countedVersions needed [verdef] → verdef.names ≠ []

variable {needed : List Bool}

theorem mem_countedVersions {defs : List Verdef} {verdef : Verdef} :
    verdef ∈ countedVersions needed defs ↔ verdef ∈ defs ∧ verdef.isBase = false
      ∧ needed[verdef.ndx.toNat - 1]? = some true := by
  rw [countedVersions, List.mem_filter, Bool.and_eq_true, Bool.not_eq_true', beq_iff_eq]

theorem countedVersions_cons (needed : List Bool) (verdef : Verdef) (defs : List Verdef) :
    countedVersions needed (verdef :: defs)
      = countedVersions needed [verdef] ++ countedVersions needed defs := by
  rw [countedVersions, countedVersions, countedVersions, ← List.filter_append]
  rfl

/-- The sizes with these definitions added. -/
def VersionSizes.after (sizes : VersionSizes) (libName : Bytes) (needed : List Bool)
    (defs : List Verdef) : VersionSizes where
  versionCount := sizes.versionCount + UInt16.ofNat (countedVersions needed defs).length
  baseSize := if defs.any Verdef.isBase then libName.length + 1 else sizes.baseSize
  dynstr := sizes.dynstr + ((countedVersions needed defs).map Verdef.nameSize).sum

section Sizes

variable {libName : Bytes} {needed : List Bool} {sizes sizes' : VersionSizes}

theorem pos_of_ne_zero {n : UInt16} (h : n ≠ 0) : 0 < n.toNat :=
  Nat.pos_of_ne_zero fun h0 => h (UInt16.toNat_inj.mp h0)

theorem sizeVerdef_eq_ok {verdef : Verdef} : sizeVerdef libName needed sizes verdef = .ok sizes' ↔
      Sizeable needed verdef
        ∧ sizes.versionCount.toNat + (countedVersions needed [verdef]).length < 2 ^ 16
        ∧ sizes' = sizes.after libName needed [verdef] := by
  have hcount : sizes.versionCount.toNat < 2 ^ 16 := sizes.versionCount.toNat_lt
  have hmem : verdef ∈ countedVersions needed [verdef] ↔
      verdef.isBase = false ∧ needed[verdef.ndx.toNat - 1]? = some true := by
    rw [mem_countedVersions, List.mem_singleton]
    exact and_iff_right rfl
  have hsingle : ∀ b, (!verdef.isBase && needed[verdef.ndx.toNat - 1]? == some true) = b →
      countedVersions needed [verdef] = if b then [verdef] else [] := by
    rintro b rfl
    rw [countedVersions, List.filter_cons, List.filter_nil]
  unfold sizeVerdef
  split
  · next h0 =>
    constructor
    · intro h
      cases h
    · rintro ⟨hsizeable, -⟩
      exact absurd h0 hsizeable.ndx
  · next h0 =>
    have hpos := pos_of_ne_zero h0
    split
    · next hbase =>
      have hnil : countedVersions needed [verdef] = [] := hsingle false (by rw [hbase]; rfl)
      have hafter : sizes.after libName needed [verdef]
          = { sizes with baseSize := libName.length + 1 } := by
        rw [VersionSizes.after, hnil, any_cons, hbase]
        simp
      rw [hafter, hnil]
      constructor
      · intro h
        refine ⟨⟨h0, fun h => ?_, fun h => ?_⟩, hcount, (ok.inj h).symm⟩
        · rw [hbase] at h
          cases h
        · rw [hnil] at h
          cases h
      · rintro ⟨-, -, rfl⟩
        rfl
    · next hbase =>
      have hbase : verdef.isBase = false := Bool.eq_false_iff.mpr hbase
      have hany : [verdef].any Verdef.isBase = false := by
        rw [any_cons, hbase]
        rfl
      cases hget : needed[verdef.ndx.toNat - 1]? with
      | none =>
        have hlen := List.getElem?_eq_none_iff.mp hget
        constructor
        · intro h
          cases h
        · rintro ⟨hsizeable, -⟩
          have := hsizeable.inRange hbase
          omega
      | some b =>
        have hlen := (List.getElem?_eq_some_iff.mp hget).1
        cases b with
        | false =>
          have hnil : countedVersions needed [verdef] = [] :=
            hsingle false (by rw [hbase, hget]; rfl)
          have hafter : sizes.after libName needed [verdef] = sizes := by
            rw [VersionSizes.after, hnil, hany]
            simp
          rw [hafter, hnil]
          constructor
          · intro h
            refine ⟨⟨h0, fun _ => by omega, fun h => ?_⟩, hcount, (ok.inj h).symm⟩
            rw [hnil] at h
            cases h
          · rintro ⟨-, -, rfl⟩
            rfl
        | true =>
          have hone : countedVersions needed [verdef] = [verdef] :=
            hsingle true (by rw [hbase, hget]; rfl)
          rw [hone, List.length_singleton, orError_some, ok_bind, if_pos rfl]
          constructor
          · intro h
            obtain ⟨name, hname, h⟩ := bind_eq_ok.mp h
            obtain ⟨versionCount, hadd, h⟩ := bind_eq_ok.mp h
            obtain ⟨hlt, rfl⟩ := checkedAdd_eq_some.mp (orError_eq_ok.mp hadd)
            have hname := orError_eq_ok.mp hname
            refine ⟨⟨h0, fun _ => by omega, fun _ hnil => ?_⟩, hlt, ?_⟩
            · rw [hnil] at hname
              cases hname
            · rw [← ok.inj h, VersionSizes.after, hone, hany, List.map_singleton,
                List.sum_singleton, Verdef.nameSize, hname]
              rfl
          · rintro ⟨hsizeable, hlt, rfl⟩
            obtain ⟨name, names, hnames⟩ := List.exists_cons_of_ne_nil
              (hsizeable.named (by rw [hone]; exact List.mem_singleton.mpr rfl))
            refine bind_eq_ok.mpr ⟨name, by rw [hnames]; rfl, bind_eq_ok.mpr
              ⟨sizes.versionCount + 1, orError_eq_ok.mpr
                (checkedAdd_eq_some.mpr ⟨hlt, rfl⟩), ?_⟩⟩
            rw [VersionSizes.after, hone, hany, List.map_singleton, List.sum_singleton,
              Verdef.nameSize, hnames]
            rfl

theorem VersionSizes.after_cons (verdef : Verdef) (defs : List Verdef) :
    (sizes.after libName needed [verdef]).after libName needed defs
      = sizes.after libName needed (verdef :: defs) := by
  unfold VersionSizes.after
  rw [countedVersions_cons needed verdef defs, List.length_append, List.map_append,
    List.sum_append, UInt16.ofNat_add, UInt16.add_assoc, Nat.add_assoc, any_cons,
    any_cons, any_nil, Bool.or_false]
  cases verdef.isBase <;> cases defs.any Verdef.isBase <;> rfl

theorem foldlM_sizeVerdef_eq_ok {defs : List Verdef} :
    defs.foldlM (sizeVerdef libName needed) sizes = .ok sizes' ↔
      (∀ verdef ∈ defs, Sizeable needed verdef)
        ∧ sizes.versionCount.toNat + (countedVersions needed defs).length < 2 ^ 16
        ∧ sizes' = sizes.after libName needed defs := by
  have hcount : sizes.versionCount.toNat < 2 ^ 16 := sizes.versionCount.toNat_lt
  induction defs generalizing sizes with
  | nil =>
    have hafter : sizes.after libName needed [] = sizes := by simp [VersionSizes.after, countedVersions]
    rw [hafter]
    constructor
    · intro h
      exact ⟨fun d hd => absurd hd List.not_mem_nil, hcount, (ok.inj h).symm⟩
    · rintro ⟨-, -, rfl⟩
      rfl
  | cons verdef defs ih =>
    have hlength : (countedVersions needed (verdef :: defs)).length
        = (countedVersions needed [verdef]).length + (countedVersions needed defs).length := by
      rw [countedVersions_cons, List.length_append]
    have htoNat : sizes.versionCount.toNat + (countedVersions needed [verdef]).length < 2 ^ 16 →
        (sizes.after libName needed [verdef]).versionCount.toNat
          = sizes.versionCount.toNat + (countedVersions needed [verdef]).length := by
      intro hlt
      rw [VersionSizes.after, UInt16.toNat_add, UInt16.toNat_ofNat']
      omega
    rw [List.foldlM_cons, bind_eq_ok, List.forall_mem_cons]
    constructor
    · rintro ⟨sizes₁, hfirst, hrest⟩
      obtain ⟨hsizeable, hlt, rfl⟩ := sizeVerdef_eq_ok.mp hfirst
      obtain ⟨hdefs, hlt', rfl⟩ := (ih (toNat_lt _)).mp hrest
      rw [htoNat hlt] at hlt'
      exact ⟨⟨hsizeable, hdefs⟩, by omega, VersionSizes.after_cons verdef defs⟩
    · rintro ⟨⟨hsizeable, hdefs⟩, hlt, rfl⟩
      have hlt₁ : sizes.versionCount.toNat + (countedVersions needed [verdef]).length < 2 ^ 16 := by
        omega
      refine ⟨_, sizeVerdef_eq_ok.mpr ⟨hsizeable, hlt₁, rfl⟩,
        (ih (toNat_lt _)).mpr ⟨hdefs, ?_, (VersionSizes.after_cons verdef defs).symm⟩⟩
      rw [htoNat hlt₁]
      omega

end Sizes

/-! ## Numbers -/

/-- How many versions are needed before this one. -/
def rank (needed : List Bool) (k : ℕ) : ℕ := (needed.take k).count true

theorem rank_lt_rank {k k' : ℕ} (hk : needed[k]? = some true) (hlt : k < k') :
    rank needed k < rank needed k' := by
  have htake : needed.take (k + 1) = needed.take k ++ [true] := by
    rw [List.take_add_one, hk]
    rfl
  have hone : rank needed (k + 1) = rank needed k + 1 := by
    rw [rank, htake, List.count_append]
    rfl
  have hle : rank needed (k + 1) ≤ rank needed k' := (List.take_sublist_take_left hlt).count_le true
  omega

theorem rank_lt_count {k : ℕ} (hk : needed[k]? = some true) :
    rank needed k < needed.count true := by
  have hlt := (List.getElem?_eq_some_iff.mp hk).1
  have hall : rank needed needed.length = needed.count true := by rw [rank, List.take_length]
  have h := rank_lt_rank hk hlt
  rwa [hall] at h

theorem rank_injective {k k' : ℕ} (hk : needed[k]? = some true)
    (hk' : needed[k']? = some true) (h : rank needed k = rank needed k') : k = k' := by
  rcases Nat.lt_trichotomy k k' with hlt | heq | hgt
  · have := rank_lt_rank hk hlt
    omega
  · exact heq
  · have := rank_lt_rank hk' hgt
    omega

theorem computeVersionMapping_eq_ok {next : UInt16} {mapping : List UInt16} :
    computeVersionMapping needed next = .ok mapping ↔ next.toNat + needed.count true < 2 ^ 16
        ∧ mapping = needed.mapIdx fun k isNeeded =>
            if isNeeded then next + ofNat (rank needed k) else verNdxGlobal := by
  have hnext : next.toNat < 2 ^ 16 := next.toNat_lt
  induction needed generalizing next mapping with
  | nil =>
    constructor
    · intro h
      exact ⟨hnext, (ok.inj h).symm⟩
    · rintro ⟨-, rfl⟩
      rfl
  | cons isNeeded needed ih =>
    cases isNeeded with
    | true =>
      have hshift : (true :: needed).mapIdx (fun k isNeeded =>
            if isNeeded then next + ofNat (rank (true :: needed) k) else verNdxGlobal)
          = next :: needed.mapIdx fun k isNeeded =>
            if isNeeded then next + 1 + ofNat (rank needed k) else verNdxGlobal := by
        rw [List.mapIdx_cons]
        congr 1
        · show next + ofNat 0 = next
          exact UInt16.add_zero next
        · refine congrArg (fun f => needed.mapIdx f) (funext fun k => funext fun b => ?_)
          have hrank : rank (true :: needed) (k + 1) = 1 + rank needed k := by
            rw [rank, List.take_succ_cons, List.count_cons_self, Nat.add_comm]
            rfl
          rw [hrank, UInt16.ofNat_add, ← UInt16.add_assoc]
          rfl
      rw [List.count_cons_self, hshift, computeVersionMapping, bind_eq_ok]
      constructor
      · rintro ⟨next', hadd, h⟩
        obtain ⟨mapping', hrest, h⟩ := bind_eq_ok.mp h
        have htoNat := toNat_of_checkedAdd (orError_eq_ok.mp hadd)
        obtain ⟨-, rfl⟩ := checkedAdd_eq_some.mp (orError_eq_ok.mp hadd)
        obtain ⟨hlt, rfl⟩ := (ih (toNat_lt _)).mp hrest
        have hone : (1 : UInt16).toNat = 1 := rfl
        exact ⟨by omega, (ok.inj h).symm⟩
      · rintro ⟨hlt, rfl⟩
        have hone : (1 : UInt16).toNat = 1 := rfl
        have hadd : checkedAdd next 1 = some (next + 1) := checkedAdd_eq_some.mpr ⟨by omega, rfl⟩
        have htoNat := toNat_of_checkedAdd hadd
        exact ⟨next + 1, orError_eq_ok.mpr hadd, bind_eq_ok.mpr
          ⟨_, (ih (toNat_lt _)).mpr ⟨by omega, rfl⟩, rfl⟩⟩
    | false =>
      have hshift : (false :: needed).mapIdx (fun k isNeeded =>
            if isNeeded then next + ofNat (rank (false :: needed) k) else verNdxGlobal)
          = verNdxGlobal :: needed.mapIdx fun k isNeeded =>
            if isNeeded then next + ofNat (rank needed k) else verNdxGlobal := by
        rw [List.mapIdx_cons]
        rfl
      rw [List.count_cons_of_ne (by decide), hshift, computeVersionMapping, bind_eq_ok]
      constructor
      · rintro ⟨mapping', hrest, h⟩
        obtain ⟨hlt, rfl⟩ := (ih hnext).mp hrest
        exact ⟨hlt, (ok.inj h).symm⟩
      · rintro ⟨hlt, rfl⟩
        exact ⟨_, (ih hnext).mpr ⟨hlt, rfl⟩, rfl⟩

end Sld.Dynamic
