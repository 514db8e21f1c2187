/-
# `Dynamic.HashLookup` — the hash tables of the dynamic symbols

Layout and writing put together: the two tables are always written, fill
the space that was allocated for them, and a lookup of any name ends with
the definitions of this name.

    DynamicSymbols                  each entry is for a symbol of its own
    finaliseHashLayout_eq           what layout makes of their numbers
    hash_tables_find_definitions    the result
-/
import Sld.Dynamic.SysvLookup

namespace Sld.Dynamic

open List (drop_drop length_append)
open UInt32 (ofNat toNat toNat_inj toNat_ofNat')
open Text.Reader (bind_eq_ok ok_bind)
open GnuHashLayout (allocate tableBytes)

/-- The dynamic symbols of an output: undefined ones with their names, and
those that the groups define.  A symbol has one entry at most, and symbol
zero, which is the undefined symbol, has none. -/
structure DynamicSymbols where
  undefined : List (SymbolId × Bytes)
  definitions : List SymbolId
  nodup : (0 :: (undefined.map (·.1) ++ definitions)).Nodup

namespace DynamicSymbols

variable (symbols : DynamicSymbols)

def undefinedNames : List Bytes := symbols.undefined.map (·.2)

theorem length_le : 1 + symbols.undefined.length + symbols.definitions.length ≤ 2 ^ 32 := by
  have hnodup : ((0 :: (symbols.undefined.map (·.1) ++ symbols.definitions)).map
      toNat).Nodup :=
    symbols.nodup.map fun _ _ h => toNat_inj.mp h
  have hsubset : (0 :: (symbols.undefined.map (·.1) ++ symbols.definitions)).map toNat
      ⊆ List.range (2 ^ 32) := by
    intro n hn
    obtain ⟨id, -, rfl⟩ := List.mem_map.mp hn
    exact List.mem_range.mpr id.toNat_lt
  have hle := (hnodup.subperm hsubset).length_le
  simp only [List.length_map, List.length_cons, length_append, List.length_range] at hle
  omega

end DynamicSymbols

/-! ## Layout -/

variable {n : ℕ}

theorem nextPowerOfTwo_toNat (h : n ≤ 2 ^ 31) :
    (ofNat (nextPowerOfTwo n)).toNat = nextPowerOfTwo n ∧ 0 < nextPowerOfTwo n := by
  have hpos : 0 < nextPowerOfTwo n := Nat.pow_pos (by decide)
  have hclog : Nat.clog 2 n ≤ 31 := Nat.clog_le_of_le_pow h
  have hle : nextPowerOfTwo n ≤ 2 ^ 31 := Nat.pow_le_pow_right (by decide) hclog
  refine ⟨?_, hpos⟩
  rw [toNat_ofNat', Nat.mod_eq_of_lt (by omega)]

theorem ofNat_nextPowerOfTwo_ne_zero (h : n ≤ 2 ^ 31) : ofNat (nextPowerOfTwo n) ≠ 0 := by
  obtain ⟨heq, hpos⟩ := nextPowerOfTwo_toNat h
  intro h0
  rw [h0] at heq
  exact absurd heq (Nat.ne_of_lt hpos)

/-- The final layout of `.gnu.hash`. -/
def finalGnuHashLayout (style : HashStyle) (numUndefined numDefs : ℕ) : Option GnuHashLayout :=
  if style.includesGnu then
    some
      { numDefs := UInt32.ofNat numDefs
        bucketCount := UInt32.ofNat (nextPowerOfTwo (numDefs / 2))
        bloomShift := 6
        bloomCount := 1
        symbolBase := UInt32.ofNat (1 + numUndefined) }
  else none

/-- The final layout of `.hash`. -/
def finalSysvHashLayout (style : HashStyle) (numUndefined numDefs : ℕ) : Option SysvHashLayout :=
  if style.includesSysv && decide (numDefs ≠ 0) then
    some ⟨UInt32.ofNat (nextPowerOfTwo (max (numDefs / 2) 1)),
      UInt32.ofNat (1 + numUndefined + numDefs)⟩
  else none

variable {outputKind : OutputKind}

theorem needsDynamic_of_needsDynsym (h : outputKind.needsDynsym = true) :
    outputKind.needsDynamic = true := by
  cases outputKind with
  | staticExecutable model => cases model with
    | nonRelocatable => cases h
    | relocatable => rfl
  | dynamicExecutable model => rfl
  | sharedObject => rfl
  | relocatable => cases h

theorem checkedU32_of_lt (h : n < 2 ^ 32) (message : String) :
    checkedU32 n message = .ok (ofNat n) :=
  if_pos h

theorem byteSize_eq (layout : SysvHashLayout) :
    layout.byteSize = .ok (4 * (2 + layout.bucketCount.toNat + layout.chainCount.toNat)) := by
  have hbucket := layout.bucketCount.toNat_lt
  have hchain := layout.chainCount.toNat_lt
  exact if_pos (by omega)

/-- The sizes are those of the final layouts. -/
def finalHashLayout (style : HashStyle) (numUndefined numDefs : ℕ) : HashLayout where
  gnuHashLayout := finalGnuHashLayout style numUndefined numDefs
  sysvHashLayout := finalSysvHashLayout style numUndefined numDefs
  dynsymStartIndex := UInt32.ofNat (1 + numUndefined)
  gnuHashSize := ((finalGnuHashLayout style numUndefined numDefs).map
    GnuHashLayout.allocate).getD 0
  sysvHashSize := ((finalSysvHashLayout style numUndefined numDefs).map fun layout =>
    4 * (2 + layout.bucketCount.toNat + layout.chainCount.toNat)).getD 0

theorem dynsymStart_eq (numUndefined : ℕ) :
    (1 + numUndefined) * symtabEntrySize / symtabEntrySize = 1 + numUndefined :=
  Nat.mul_div_cancel _ (by decide)

theorem dynsymCount_eq (numUndefined numDefs : ℕ) :
    ((1 + numUndefined) * symtabEntrySize + numDefs * symtabEntrySize) / symtabEntrySize
      = 1 + numUndefined + numDefs := by
  rw [← Nat.add_mul]
  exact Nat.mul_div_cancel _ (by decide)

theorem includesSysv_cases (style : HashStyle) (numDefs : ℕ) :
    (style.includesSysv = true ∧ numDefs ≠ 0)
      ∨ ∀ numUndefined, finalSysvHashLayout style numUndefined numDefs = none
        ∧ ∀ dynsymSize, lateSysvHash style dynsymSize numDefs = .ok (none, 0) := by
  by_cases hsysv : style.includesSysv = true
  · by_cases hdefs : numDefs = 0
    · refine .inr fun numUndefined => ⟨?_, fun dynsymSize => ?_⟩
      · rw [finalSysvHashLayout, if_neg (by simp [hdefs])]
      · rw [lateSysvHash, if_pos hsysv, allocateSysvHash, if_pos hdefs]
    · exact .inl ⟨hsysv, hdefs⟩
  · refine .inr fun numUndefined => ⟨?_, fun dynsymSize => ?_⟩
    · rw [finalSysvHashLayout, if_neg (by simp [hsysv])]
    · rw [lateSysvHash, if_neg hsysv]

variable {numDefs numUndefined : ℕ} {style : HashStyle}

theorem lateSysvHash_eq (hsysv : style.includesSysv = true) (hdefs : numDefs ≠ 0)
    (hfits : 1 + numUndefined + numDefs < 2 ^ 32) :
    lateSysvHash style ((1 + numUndefined) * symtabEntrySize + numDefs * symtabEntrySize) numDefs
      = .ok (finalSysvHashLayout style numUndefined numDefs,
          ((finalSysvHashLayout style numUndefined numDefs).map fun layout =>
            4 * (2 + layout.bucketCount.toNat + layout.chainCount.toNat)).getD 0) := by
  simp only [lateSysvHash, if_pos hsysv, allocateSysvHash, if_neg hdefs, dynsymCount_eq,
    checkedU32_of_lt hfits, ok_bind, byteSize_eq]
  rw [finalSysvHashLayout, if_pos (by simp [hsysv, hdefs])]
  rfl

theorem finaliseSysvHash_eq (hfits : 1 + numUndefined + numDefs < 2 ^ 32) :
    finaliseSysvHash (ofNat (1 + numUndefined)) numDefs
        (finalSysvHashLayout style numUndefined numDefs)
      = .ok (finalSysvHashLayout style numUndefined numDefs) := by
  have hsum : (ofNat (1 + numUndefined)).toNat + (ofNat numDefs).toNat
      = 1 + numUndefined + numDefs := by
    rw [toNat_ofNat', toNat_ofNat', Nat.mod_eq_of_lt (by omega),
      Nat.mod_eq_of_lt (by omega)]
  unfold finalSysvHashLayout
  split
  · simp only [finaliseSysvHash, hsum, checkedU32_of_lt hfits, ok_bind]
    rfl
  · rfl

theorem finaliseHashLayout_eq (hkind : outputKind.needsDynsym = true)
    (hstart : 1 + numUndefined < 2 ^ 32)
    (hfits : style.includesSysv = true → numDefs ≠ 0 → 1 + numUndefined + numDefs < 2 ^ 32) :
    finaliseHashLayout style outputKind numUndefined numDefs
      = .ok (finalHashLayout style numUndefined numDefs) := by
  have hgnu : (createGnuHashLayout style outputKind numDefs).map
        (fun layout => { layout with symbolBase := ofNat (1 + numUndefined) })
      = finalGnuHashLayout style numUndefined numDefs := by
    rw [createGnuHashLayout, needsDynamic_of_needsDynsym hkind, finalGnuHashLayout]
    cases style.includesGnu with
    | false => rfl
    | true => rfl
  have hsize : (createGnuHashLayout style outputKind numDefs).map allocate
      = (finalGnuHashLayout style numUndefined numDefs).map allocate := by
    rw [createGnuHashLayout, needsDynamic_of_needsDynsym hkind, finalGnuHashLayout]
    cases style.includesGnu with
    | false => rfl
    | true => rfl
  simp only [finaliseHashLayout, needsDynamic_of_needsDynsym hkind, if_true, dynsymStart_eq,
    checkedU32_of_lt hstart, hsize, finalHashLayout]
  rcases includesSysv_cases style numDefs with ⟨hsysv, hdefs⟩ | hnone
  · have hlt := hfits hsysv hdefs
    simp only [lateSysvHash_eq hsysv hdefs hlt, ok_bind, finaliseSysvHash_eq hlt, hgnu]
    rfl
  · obtain ⟨hfinal, hlate⟩ := hnone numUndefined
    simp only [hlate, hfinal, ok_bind, finaliseSysvHash, hgnu]
    rfl

theorem fits_of_finaliseHashLayout {layout : HashLayout} (hkind : outputKind.needsDynsym = true)
    (h : finaliseHashLayout style outputKind numUndefined numDefs = .ok layout) :
    1 + numUndefined < 2 ^ 32
      ∧ (style.includesSysv = true → numDefs ≠ 0 → 1 + numUndefined + numDefs < 2 ^ 32) := by
  simp only [finaliseHashLayout, needsDynamic_of_needsDynsym hkind, if_true, dynsymStart_eq] at h
  obtain ⟨late, hlate, h⟩ := bind_eq_ok.mp h
  obtain ⟨start, hstart, -⟩ := bind_eq_ok.mp h
  constructor
  · by_contra hge
    rw [checkedU32, if_neg hge] at hstart
    cases hstart
  · intro hsysv hdefs
    by_contra hge
    simp only [lateSysvHash, if_pos hsysv, allocateSysvHash, if_neg hdefs, dynsymCount_eq,
      checkedU32, if_neg hge] at hlate
    cases hlate

/-! ## Writing -/

variable {buffer : Bytes} {layout : GnuHashLayout} {symDefs : List DynamicSymbolDefinition}

theorem writeGnuHashTables_eq (hbuckets : layout.bucketCount ≠ 0) (hbloom : layout.bloomCount = 1)
    (hdefs : layout.numDefs.toNat = symDefs.length) (hbuffer : buffer.length = layout.allocate) :
    writeGnuHashTables (some layout) symDefs buffer
      = .ok (layout.tableBytes (layout.finalTables symDefs) []) := by
  have hone : layout.bloomCount.toNat = 1 := by
    rw [hbloom]
    rfl
  have hsize : buffer.length = 16 + 8 + 4 * layout.bucketCount.toNat + 4 * symDefs.length := by
    rw [hbuffer, allocate, hdefs, gnuHashHeaderSize]
  have hwrite := GnuHashLayout.writeChains_eq hbuckets (by rw [hbloom]; decide) 0 true symDefs
    ⟨.replicate layout.bloomCount.toNat 0, .replicate layout.bucketCount.toNat 0, []⟩
    List.length_replicate List.length_replicate
  simp only [writeGnuHashTables, gnuHashHeaderSize, List.length_drop]
  rw [hone] at hwrite
  rw [if_neg (by omega), if_neg (by omega), if_neg (by omega), if_neg (by omega)]
  have hrest : (((buffer.drop 16).drop (8 * 1)).drop (4 * layout.bucketCount.toNat)).drop
      (4 * symDefs.length) = [] := by
    rw [drop_drop, drop_drop, drop_drop]
    exact List.drop_eq_nil_of_le (by omega)
  simp only [hwrite, hrest, ok_bind, tableBytes,
    GnuHashLayout.finalTables, hone]
  rfl

theorem length_tableBytes
    (hbloom : layout.bloomCount = 1) (hdefs : layout.numDefs.toNat = symDefs.length) :
    (layout.tableBytes (layout.finalTables symDefs) []).length = layout.allocate := by
  have hone : layout.bloomCount.toNat = 1 := by
    rw [hbloom]
    rfl
  rw [tableBytes, length_append, length_append, length_append,
    length_append, Store.length_flatMap_encode length_u32Bytes,
    Store.length_flatMap_encode length_u64Bytes, Store.length_flatMap_encode length_u32Bytes,
    Store.length_flatMap_encode length_u32Bytes, GnuHashLayout.length_bloom_finalTables,
    GnuHashLayout.length_buckets_finalTables, hone, allocate, hdefs]
  show 16 + (8 * 1 + (4 * layout.bucketCount.toNat + (4 * (layout.chainWords symDefs).length + 0))) = _
  rw [GnuHashLayout.length_chainWords, gnuHashHeaderSize]
  omega

variable {hashes : ElfHashes}

theorem writeSysvHashTable_eq {layout : SysvHashLayout}
    {dynsymStartIndex : UInt32} {tables : SysvTables}
    (hbuckets : layout.bucketCount ≠ 0) (hchains : layout.chainCount ≠ 0)
    (hwrite : layout.writeSymbols hashes dynsymStartIndex 0 symDefs layout.emptyTables = .ok tables)
    (hbuffer : buffer.length = 4 * (2 + layout.bucketCount.toNat + layout.chainCount.toNat)) :
    writeSysvHashTable hashes (some layout) dynsymStartIndex symDefs buffer
      = .ok (layout.tableBytes tables []) := by
  have hbucketsNat : layout.bucketCount.toNat ≠ 0 := fun h => hbuckets (toNat_inj.mp h)
  have hchainsNat : layout.chainCount.toNat ≠ 0 := fun h => hchains (toNat_inj.mp h)
  have hnone : ¬ (layout.bucketCount.toNat = 0 ∨ layout.chainCount.toNat = 0) :=
    not_or.mpr ⟨hbucketsNat, hchainsNat⟩
  have hrest : buffer.drop (4 * (2 + layout.bucketCount.toNat + layout.chainCount.toNat)) = [] :=
    List.drop_eq_nil_of_le (Nat.le_of_eq hbuffer)
  unfold SysvHashLayout.emptyTables at hwrite
  simp only [writeSysvHashTable, if_neg hnone, if_neg (Nat.not_lt_of_le (Nat.le_of_eq hbuffer.symm)),
    hwrite, hrest, ok_bind, SysvHashLayout.tableBytes]
  rfl

/-! ## Definitions -/

theorem hash_of_create {script : VersionScript}
    {symbolName : SymbolId → Except String Bytes} {id : SymbolId} {d : DynamicSymbolDefinition}
    (h : createDynamicSymbolDefinition hashes script symbolName id = .ok d) :
    d.hash = gnuHash d.name := by
  obtain ⟨nameBytes, -, h⟩ := bind_eq_ok.mp h
  obtain ⟨found, -, h⟩ := bind_eq_ok.mp h
  cases h
  exact hashes.gnuHash_eq _

theorem sorted_perm {merged sorted : List DynamicSymbolDefinition}
    (h : SortedByBucket style outputKind merged sorted) : sorted.Perm merged := by
  unfold SortedByBucket at h
  split at h
  · rw [h]
  · exact h.1

theorem bucketsSorted {merged sorted : List DynamicSymbolDefinition}
    (hkind : outputKind.needsDynsym = true) (h : SortedByBucket style outputKind merged sorted)
    (hlayout : finalGnuHashLayout style numUndefined merged.length = some layout) :
    layout.BucketsSorted sorted := by
  unfold finalGnuHashLayout at hlayout
  split at hlayout
  · next hgnu =>
    cases hlayout
    rw [SortedByBucket, createGnuHashLayout, needsDynamic_of_needsDynsym hkind, hgnu] at h
    exact GnuHashLayout.BucketsSorted.of_pairwise h.2
  · cases hlayout

/-! ## The result -/

/-- The lookup of a name ends and reports the entries behind the undefined
symbols that have this name. -/
def FindsDefinitions (lookup : (ℕ → Option Bytes) → Bytes → ℕ → Option (List ℕ))
    (symbols : DynamicSymbols) (symDefs : List DynamicSymbolDefinition) : Prop :=
  ∀ name fuel, symDefs.length ≤ fuel →
    ∃ found, lookup (fun index => (dynsymNames symbols.undefinedNames symDefs)[index]?) name fuel
        = some found
      ∧ ∀ index, index ∈ found ↔ symbols.undefined.length < index
        ∧ (dynsymNames symbols.undefinedNames symDefs)[index]? = some name

theorem getElem?_dynsymNames (symbols : DynamicSymbols) (symDefs : List DynamicSymbolDefinition)
    (k : ℕ) :
    (dynsymNames symbols.undefinedNames symDefs)[1 + symbols.undefined.length + k]?
      = (symDefs[k]?).map (·.name) := by
  have hlen : symbols.undefinedNames.length = symbols.undefined.length := List.length_map _
  have hindex : 1 + symbols.undefined.length + k = symbols.undefined.length + k + 1 := by omega
  rw [dynsymNames, hindex, List.getElem?_cons_succ, List.getElem?_append_right (by omega), hlen,
    Nat.add_sub_cancel_left, List.getElem?_map]

theorem indexOf_iff (symbols : DynamicSymbols) {name : Bytes} {index : ℕ} :
    GnuHashLayout.IndexOf symDefs (1 + symbols.undefined.length) name index
      ↔ symbols.undefined.length < index
        ∧ (dynsymNames symbols.undefinedNames symDefs)[index]? = some name := by
  constructor
  · rintro ⟨k, d, hd, rfl, rfl⟩
    refine ⟨by omega, ?_⟩
    rw [getElem?_dynsymNames, hd]
    rfl
  · rintro ⟨hlt, hname⟩
    obtain ⟨k, rfl⟩ : ∃ k, index = 1 + symbols.undefined.length + k :=
      ⟨index - (1 + symbols.undefined.length), by omega⟩
    rw [getElem?_dynsymNames, Option.map_eq_some_iff] at hname
    obtain ⟨d, hd, hname⟩ := hname
    exact ⟨k, d, hd, hname, rfl⟩

section result

variable {hashes : ElfHashes} {style : HashStyle} {outputKind : OutputKind}
  {symbols : DynamicSymbols} {merged sorted : List DynamicSymbolDefinition}

theorem findsDefinitions_gnuHash {layout : GnuHashLayout} (hbuckets : layout.bucketCount ≠ 0)
    (hbloom : layout.bloomCount = 1) (hbase : layout.symbolBase.toNat = 1 + symbols.undefined.length)
    (hcount : 1 + symbols.undefined.length + sorted.length ≤ 2 ^ 32)
    (hsorted : layout.BucketsSorted sorted) (hhash : ∀ d ∈ sorted, d.hash = gnuHash d.name) :
    FindsDefinitions (gnuLookup (layout.tableBytes (layout.finalTables sorted) [])) symbols
      sorted := by
  intro name fuel hfuel
  have hbase0 : layout.symbolBase ≠ 0 := by
    intro h
    rw [h] at hbase
    exact absurd hbase (by simp; omega)
  obtain ⟨found, hfound, hmem⟩ := GnuHashLayout.gnuLookup_tableBytes hbuckets
    (by rw [hbloom]; decide) hbase0 (by rw [hbase]; exact hcount) hsorted hhash
    (fun k d hd => by
      show (dynsymNames symbols.undefinedNames sorted)[_]? = _
      rw [hbase, getElem?_dynsymNames, hd]
      rfl) hfuel []
  refine ⟨found, hfound, fun index => ?_⟩
  rw [hmem index, hbase]
  exact indexOf_iff symbols

theorem exists_gnuHash (hkind : outputKind.needsDynsym = true)
    (hhash : ∀ d ∈ sorted, d.hash = gnuHash d.name)
    (hsorted : SortedByBucket style outputKind merged sorted)
    (hcount : 1 + symbols.undefined.length + merged.length ≤ 2 ^ 32)
    (hstart : 1 + symbols.undefined.length < 2 ^ 32) :
    ∃ section_ : Bytes,
      section_.length = (finalHashLayout style symbols.undefined.length merged.length).gnuHashSize
      ∧ (∀ buffer : Bytes, buffer.length
          = (finalHashLayout style symbols.undefined.length merged.length).gnuHashSize →
        writeGnuHashTables (finalHashLayout style symbols.undefined.length merged.length).gnuHashLayout
          sorted buffer = .ok section_)
      ∧ (style.includesGnu = true → FindsDefinitions (gnuLookup section_) symbols sorted) := by
  have hlen := (sorted_perm hsorted).length_eq
  cases hgnu : style.includesGnu with
  | false =>
    have hnone : finalGnuHashLayout style symbols.undefined.length merged.length = none := by
      rw [finalGnuHashLayout, hgnu]
      rfl
    simp only [finalHashLayout, hnone]
    refine ⟨[], rfl, fun buffer hbuffer => ?_, nofun⟩
    rw [List.length_eq_zero_iff.mp hbuffer]
    rfl
  | true =>
    let layout : GnuHashLayout :=
      ⟨ofNat merged.length, ofNat (nextPowerOfTwo (merged.length / 2)), 6, 1,
        ofNat (1 + symbols.undefined.length)⟩
    have hlayout : finalGnuHashLayout style symbols.undefined.length merged.length = some layout :=
      if_pos hgnu
    have hbuckets : layout.bucketCount ≠ 0 := ofNat_nextPowerOfTwo_ne_zero (by omega)
    have hdefs : layout.numDefs.toNat = sorted.length := by
      rw [toNat_ofNat', Nat.mod_eq_of_lt (by omega), hlen]
    have hbase : layout.symbolBase.toNat = 1 + symbols.undefined.length := by
      rw [toNat_ofNat', Nat.mod_eq_of_lt hstart]
    simp only [finalHashLayout, hlayout]
    refine ⟨layout.tableBytes (layout.finalTables sorted) [], length_tableBytes rfl hdefs,
      fun buffer hbuffer => writeGnuHashTables_eq hbuckets rfl hdefs hbuffer, fun _ => ?_⟩
    exact findsDefinitions_gnuHash hbuckets rfl hbase (by rw [hlen]; exact hcount)
      (bucketsSorted hkind hsorted hlayout) hhash

theorem exists_sysvHash (hlen : sorted.length = merged.length)
    (hstart : 1 + symbols.undefined.length < 2 ^ 32)
    (hfits : style.includesSysv = true → merged.length ≠ 0 →
      1 + symbols.undefined.length + merged.length < 2 ^ 32) :
    ∃ section_ : Bytes,
      section_.length = (finalHashLayout style symbols.undefined.length merged.length).sysvHashSize
      ∧ (∀ buffer : Bytes, buffer.length
          = (finalHashLayout style symbols.undefined.length merged.length).sysvHashSize →
        writeSysvHashTable hashes
          (finalHashLayout style symbols.undefined.length merged.length).sysvHashLayout
          (finalHashLayout style symbols.undefined.length merged.length).dynsymStartIndex
          sorted buffer = .ok section_)
      ∧ (style.includesSysv = true → FindsDefinitions (sysvSectionLookup section_) symbols sorted) := by
  rcases includesSysv_cases style merged.length with ⟨hsysv, hdefs⟩ | hnone
  · have hlt := hfits hsysv hdefs
    let layout : SysvHashLayout := ⟨ofNat (nextPowerOfTwo (max (merged.length / 2) 1)),
      ofNat (1 + symbols.undefined.length + merged.length)⟩
    have hlayout : finalSysvHashLayout style symbols.undefined.length merged.length = some layout :=
      if_pos (by simp [hsysv, hdefs])
    have hbuckets : layout.bucketCount ≠ 0 := ofNat_nextPowerOfTwo_ne_zero (by omega)
    have hbase : (ofNat (1 + symbols.undefined.length)).toNat
        = 1 + symbols.undefined.length := by
      rw [toNat_ofNat', Nat.mod_eq_of_lt hstart]
    have hchains : layout.chainCount.toNat
        = (ofNat (1 + symbols.undefined.length)).toNat + sorted.length := by
      show (ofNat (1 + symbols.undefined.length + merged.length)).toNat = _
      rw [toNat_ofNat', Nat.mod_eq_of_lt hlt, hbase, hlen]
    have hbase0 : ofNat (1 + symbols.undefined.length) ≠ 0 := by
      intro h
      rw [h] at hbase
      exact absurd hbase (by simp; omega)
    have hchains0 : layout.chainCount ≠ 0 := by
      intro h
      rw [h] at hchains
      exact absurd hchains (by simp; omega)
    obtain ⟨tables, hwrite, hbucketsLength, hchainsLength, hlookup⟩ :=
      @SysvHashLayout.exists_sysvLookup layout hashes _ sorted hbuckets hbase0 hchains
    have hlengthTable : (layout.tableBytes tables []).length
        = 4 * (2 + layout.bucketCount.toNat + layout.chainCount.toNat) := by
      rw [SysvHashLayout.tableBytes, length_append, length_append, length_append,
        Store.length_flatMap_encode length_u32Bytes, Store.length_flatMap_encode length_u32Bytes,
        Store.length_flatMap_encode length_u32Bytes, hbucketsLength, hchainsLength]
      simp only [List.length_cons, List.length_nil]
      omega
    simp only [finalHashLayout, hlayout]
    refine ⟨layout.tableBytes tables [], hlengthTable,
      fun buffer hbuffer => writeSysvHashTable_eq hbuckets hchains0 hwrite hbuffer, fun _ => ?_⟩
    intro name fuel hfuel
    have hnonempty : (layout.tableBytes tables []).isEmpty = false := by
      rw [List.isEmpty_eq_false_iff_exists_mem]
      exact List.exists_mem_of_length_pos (by omega)
    obtain ⟨found, hfound, hmem⟩ := hlookup [] name
      (fun index => (dynsymNames symbols.undefinedNames sorted)[index]?) fuel
      (fun k d hd => by
        show (dynsymNames symbols.undefinedNames sorted)[_]? = _
        rw [hbase, getElem?_dynsymNames, hd]
        rfl) hfuel
    refine ⟨found, ?_, fun index => ?_⟩
    · rw [sysvSectionLookup, hnonempty]
      exact hfound
    · rw [hmem index, hbase]
      exact indexOf_iff symbols
  · obtain ⟨hfinal, -⟩ := hnone symbols.undefined.length
    simp only [finalHashLayout, hfinal]
    refine ⟨[], rfl, fun buffer hbuffer => ?_, fun hsysv => ?_⟩
    · rw [List.length_eq_zero_iff.mp hbuffer]
      rfl
    · -- Without definitions there is no table and nothing to find.
      have hmerged : merged.length = 0 := by
        by_contra hdefs
        rw [finalSysvHashLayout, if_pos (by simp [hsysv, hdefs])] at hfinal
        cases hfinal
      obtain rfl : sorted = [] := List.length_eq_zero_iff.mp (hlen.trans hmerged)
      intro name fuel _
      refine ⟨[], rfl, fun index => iff_of_false List.not_mem_nil ?_⟩
      rw [← indexOf_iff]
      exact GnuHashLayout.not_indexOf_of_forall_ne fun d hd => by cases hd

end result

/-- The written tables fill the space that was allocated for them, and for
every name the two lookups end and report exactly the definitions of the
name, each at its own index. -/
theorem hash_tables_find_definitions {hashes : ElfHashes} {script : VersionScript}
    {symbolName : SymbolId → Except String Bytes} {style : HashStyle} {outputKind : OutputKind}
    {symbols : DynamicSymbols} {merged sorted : List DynamicSymbolDefinition}
    {layout : HashLayout} (hkind : outputKind.needsDynsym = true)
    (hmerged : symbols.definitions.mapM (createDynamicSymbolDefinition hashes script symbolName)
      = .ok merged)
    (hsorted : SortedByBucket style outputKind merged sorted)
    (hlayout : finaliseHashLayout style outputKind symbols.undefined.length merged.length
      = .ok layout) :
    ∃ sections : HashSections,
      (∀ buffers : HashBuffers layout, writeHashTables hashes layout sorted buffers = .ok sections)
      ∧ sections.gnuHash.length = layout.gnuHashSize
      ∧ sections.sysvHash.length = layout.sysvHashSize
      ∧ (style.includesGnu = true → FindsDefinitions (gnuLookup sections.gnuHash) symbols sorted)
      ∧ (style.includesSysv = true →
          FindsDefinitions (sysvSectionLookup sections.sysvHash) symbols sorted)
      ∧ ∀ k d, sorted[k]? = some d →
          (dynsymNames symbols.undefinedNames sorted)[layout.dynsymStartIndex.toNat + k]?
            = some d.name := by
  have hlengthMerged := Text.Reader.length_of_mapM hmerged
  have hhash : ∀ d ∈ merged, d.hash = gnuHash d.name := by
    intro d hd
    obtain ⟨id, -, hcreate⟩ := (Text.Reader.mem_of_mapM hmerged).2 d hd
    exact hash_of_create hcreate
  have hperm := sorted_perm hsorted
  have hcount : 1 + symbols.undefined.length + merged.length ≤ 2 ^ 32 := by
    rw [hlengthMerged]
    exact symbols.length_le
  obtain ⟨hstart, hfits⟩ := fits_of_finaliseHashLayout hkind hlayout
  rw [finaliseHashLayout_eq hkind hstart hfits] at hlayout
  cases hlayout
  obtain ⟨gnuSection, hgnuLength, hgnuWrite, hgnuFinds⟩ := exists_gnuHash hkind
    (fun d hd => hhash d (hperm.mem_iff.mp hd)) hsorted hcount hstart
  obtain ⟨sysvSection, hsysvLength, hsysvWrite, hsysvFinds⟩ :=
    @exists_sysvHash hashes style symbols merged sorted hperm.length_eq hstart hfits
  refine ⟨⟨gnuSection, sysvSection⟩, fun buffers => ?_, hgnuLength, hsysvLength, hgnuFinds,
    hsysvFinds, fun k d hd => ?_⟩
  · rw [writeHashTables, hsysvWrite _ buffers.length_sysvHash, Text.Reader.ok_bind,
      hgnuWrite _ buffers.length_gnuHash]
    rfl
  · have hbase : (UInt32.ofNat (1 + symbols.undefined.length)).toNat
        = 1 + symbols.undefined.length := by
      rw [UInt32.toNat_ofNat', Nat.mod_eq_of_lt hstart]
    show (dynsymNames symbols.undefinedNames sorted)[
      (UInt32.ofNat (1 + symbols.undefined.length)).toNat + k]? = _
    rw [hbase, getElem?_dynsymNames, hd]
    rfl

/-- One undefined symbol and two versions of a name. -/
def twoVersions : DynamicSymbols where
  undefined := [(1, [117])]
  definitions := [2, 3]
  nodup := by decide

def twoVersionsScript : VersionScript where
  versionCount := 3
  versionForSymbol _ version := .ok (if version = some [49] then some 2 else some 3)

/-- `f@1` and `f@@2` -/
def twoVersionsName (id : SymbolId) : Except String Bytes :=
  .ok (if id = 2 then [102, 64, 49] else [102, 64, 64, 50])

def twoVersionsMerged : List DynamicSymbolDefinition :=
  [⟨2, [102], gnuHash [102], 0x8002⟩, ⟨3, [102], gnuHash [102], 3⟩]

theorem hash_tables_find_two_versions :
    ∃ sections : HashSections,
      FindsDefinitions (gnuLookup sections.gnuHash) twoVersions twoVersionsMerged
      ∧ FindsDefinitions (sysvSectionLookup sections.sysvHash) twoVersions twoVersionsMerged := by
  have hmerged : twoVersions.definitions.mapM (createDynamicSymbolDefinition
      ⟨sysvHash, gnuHash, fun _ => rfl, fun _ => rfl⟩ twoVersionsScript twoVersionsName)
      = .ok twoVersionsMerged := rfl
  have hsorted : SortedByBucket .both .sharedObject twoVersionsMerged twoVersionsMerged := by
    refine ⟨List.Perm.refl _, List.pairwise_pair.mpr (.inr ⟨rfl, ?_⟩)⟩
    decide
  have hlayout : finaliseHashLayout .both .sharedObject twoVersions.undefined.length
      twoVersionsMerged.length = .ok (finalHashLayout .both 1 2) :=
    finaliseHashLayout_eq rfl (by decide) fun _ _ => by decide
  obtain ⟨sections, -, -, -, hgnu, hsysv, -⟩ :=
    hash_tables_find_definitions rfl hmerged hsorted hlayout
  exact ⟨sections, hgnu rfl, hsysv rfl⟩

end Sld.Dynamic
