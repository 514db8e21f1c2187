/-
# `Dynamic.SysvLookup` — names are found in `.hash`

The loop that fills `.hash` appends each definition to the chain of its
bucket (`Order.Chains`): the words of the table are the heads and the
successors there.

    SysvTables.table       the chained buckets behind the words
    exists_writeSymbols    the loop ends, each bucket chains its definitions
    sysvWalk_linked        a walk along a chain reports the name's symbols
-/
import Sld.Dynamic.GnuLookup
import Sld.Order.Chains

namespace Sld.Dynamic

open Chains (Linked Table)
open Function (update_of_ne update_self)
open UInt32 (ofNat toNat toNat_inj)

/-! ## The walk -/

theorem sysvWalk_linked {chainAt : ℕ → Option UInt32} {symbolName : ℕ → Option Bytes}
    {name : Bytes} {next : ℕ → ℕ} {start fuel : ℕ} {l : List ℕ} (h : Linked next start l)
    (hchain : ∀ y ∈ l, ∃ word, chainAt y = some word ∧ word.toNat = next y)
    (hfuel : l.length ≤ fuel) :
    sysvWalk chainAt symbolName name fuel start
      = some (l.filter fun y => symbolName y = some name) := by
  induction l generalizing start fuel with
  | nil =>
    obtain rfl : start = 0 := h
    cases fuel with
    | zero => rfl
    | succ fuel => rfl
  | cons y rest ih =>
    obtain ⟨rfl, hy, hrest⟩ := h
    obtain ⟨y, rfl⟩ : ∃ n, start = n + 1 := ⟨start - 1, by omega⟩
    obtain ⟨fuel, rfl⟩ : ∃ n, fuel = n + 1 := ⟨fuel - 1, by simp at hfuel; omega⟩
    obtain ⟨word, hword, hnext⟩ := hchain (y + 1) List.mem_cons_self
    rw [← hnext] at hrest
    have hwalk := ih hrest (fun z hz => hchain z (List.mem_cons_of_mem _ hz)) (by simpa using hfuel)
    simp only [sysvWalk, hword, hwalk, Option.bind_eq_bind, Option.bind_some]
    by_cases hname : symbolName (y + 1) = some name
    · rw [if_pos hname, List.filter_cons_of_pos (by simpa using hname)]
      rfl
    · rw [if_neg hname, List.filter_cons_of_neg (by simpa using hname)]
      rfl

/-! ## The loop -/

namespace SysvTables

variable {tables : SysvTables}

/-- The words as chained buckets. -/
def table (tables : SysvTables) : Table ℕ where
  head b := ((tables.buckets[b]?).getD 0).toNat
  next y := ((tables.chains[y]?).getD 0).toNat
  last b := (tables.lastInBucket[b]?).join

/-- Every bucket has its words, and the last symbols have chain words. -/
structure Sized (tables : SysvTables) (bucketCount chainCount : ℕ) : Prop where
  buckets : tables.buckets.length = bucketCount
  chains : tables.chains.length = chainCount
  lastInBucket : tables.lastInBucket.length = bucketCount
  last_lt : ∀ b last, tables.table.last b = some last → last < chainCount

theorem getElem?_set_eq_update {α β : Type} {slots : List α} {i : ℕ} (h : i < slots.length)
    (x : α) (f : Option α → β) :
    (fun j => f (slots.set i x)[j]?) = Function.update (fun j => f slots[j]?) i (f (some x)) := by
  funext j
  by_cases hj : j = i
  · subst hj
    rw [update_self, List.getElem?_set_self h]
  · rw [update_of_ne hj, List.getElem?_set_ne (Ne.symm hj)]

theorem last_lt_update {bucketCount chainCount bucket x : ℕ}
    (hsized : tables.Sized bucketCount chainCount) (hx : x < chainCount) :
    ∀ b last, Function.update tables.table.last bucket (some x) b = some last →
      last < chainCount := by
  refine (Function.forall_update_iff tables.table.last fun _ entry =>
    ∀ last, entry = some last → last < chainCount).mpr
      ⟨fun last h => ?_, fun b _ => hsized.last_lt b⟩
  cases h
  exact hx

theorem exists_push {bucketCount chainCount bucket : ℕ} {symIndex : UInt32} {t : Table ℕ}
    (hsized : tables.Sized bucketCount chainCount) (hbucket : bucket < bucketCount)
    (hindex : symIndex.toNat < chainCount)
    (hinsert : tables.table.insert bucket symIndex.toNat = some t) :
    ∃ tables', tables.push bucket symIndex = .ok tables' ∧ tables'.table = t
      ∧ tables'.Sized bucketCount chainCount := by
  have hlastIn : bucket < tables.lastInBucket.length := by rw [hsized.lastInBucket]; exact hbucket
  have hbucketIn : bucket < tables.buckets.length := by rw [hsized.buckets]; exact hbucket
  have hzero : tables.table.head bucket = 0 ↔ (tables.buckets[bucket]?).getD 0 = 0 :=
    ⟨fun h => toNat_inj.mp h, fun h => congrArg toNat h⟩
  by_cases hhead : tables.table.head bucket = 0
  · rw [Table.insert, if_pos hhead] at hinsert
    cases hinsert
    refine ⟨{ tables with
        buckets := tables.buckets.set bucket symIndex
        lastInBucket := tables.lastInBucket.set bucket (some symIndex.toNat) }, ?_, ?_, ?_⟩
    · simp only [push, setAt_of_lt hlastIn, setAt_of_lt hbucketIn, Text.Reader.ok_bind,
        if_pos (hzero.mp hhead)]
      rfl
    · have hheads := getElem?_set_eq_update hbucketIn symIndex fun word => (word.getD 0).toNat
      have hlasts := getElem?_set_eq_update hlastIn (some symIndex.toNat) Option.join
      unfold table
      rw [Table.mk.injEq]
      exact ⟨hheads, rfl, hlasts⟩
    · refine ⟨by rw [List.length_set, hsized.buckets], hsized.chains,
        by rw [List.length_set, hsized.lastInBucket], ?_⟩
      intro b last h
      rw [table, getElem?_set_eq_update hlastIn _ Option.join] at h
      exact last_lt_update hsized hindex b last h
  · rw [Table.insert, if_neg hhead, Option.map_eq_some_iff] at hinsert
    obtain ⟨last, hlast, rfl⟩ := hinsert
    have hlastChain : last < tables.chains.length := by
      rw [hsized.chains]
      exact hsized.last_lt bucket last hlast
    have hjoin : (tables.lastInBucket[bucket]?).join = some last := hlast
    refine ⟨{ tables with
        chains := tables.chains.set last symIndex
        lastInBucket := tables.lastInBucket.set bucket (some symIndex.toNat) }, ?_, ?_, ?_⟩
    · simp only [push, setAt_of_lt hlastIn, Text.Reader.ok_bind, hjoin, setAt_of_lt hlastChain,
        if_neg (fun h => hhead (hzero.mpr h))]
      rfl
    · have hnexts := getElem?_set_eq_update hlastChain symIndex fun word => (word.getD 0).toNat
      have hlasts := getElem?_set_eq_update hlastIn (some symIndex.toNat) Option.join
      rw [Table.mk.injEq]
      exact ⟨rfl, hnexts, hlasts⟩
    · refine ⟨hsized.buckets, by rw [List.length_set, hsized.chains],
        by rw [List.length_set, hsized.lastInBucket], ?_⟩
      intro b last h
      rw [table, getElem?_set_eq_update hlastIn _ Option.join] at h
      exact last_lt_update hsized hindex b last h

end SysvTables

namespace SysvHashLayout

variable {layout : SysvHashLayout} {hashes : ElfHashes}

def bucketOf (layout : SysvHashLayout) (name : Bytes) : ℕ :=
  (sysvHash name % layout.bucketCount).toNat

/-- The definitions as numbers for the buckets of their names. -/
def items (layout : SysvHashLayout) : ℕ → List DynamicSymbolDefinition → List (ℕ × ℕ)
  | _, [] => []
  | index, symDef :: rest => (layout.bucketOf symDef.name, index) :: items layout (index + 1) rest

theorem bucketOf_lt (hbuckets : layout.bucketCount ≠ 0) (name : Bytes) :
    layout.bucketOf name < layout.bucketCount.toNat := by
  have hpos : 0 < layout.bucketCount.toNat :=
    Nat.pos_of_ne_zero fun h => hbuckets (toNat_inj.mp h)
  exact Nat.mod_lt _ hpos

variable {index : ℕ} {item : ℕ × ℕ} {symDefs : List DynamicSymbolDefinition}

theorem mem_items : item ∈ layout.items index symDefs
      ↔ ∃ k d, symDefs[k]? = some d ∧ item = (layout.bucketOf d.name, index + k) := by
  induction symDefs generalizing index with
  | nil => exact iff_of_false List.not_mem_nil fun ⟨k, d, hd, _⟩ => by cases hd
  | cons symDef rest ih =>
    rw [items, List.mem_cons, ih]
    constructor
    · rintro (rfl | ⟨k, d, hd, rfl⟩)
      · exact ⟨0, symDef, rfl, rfl⟩
      · exact ⟨k + 1, d, hd, by rw [Nat.add_right_comm, Nat.add_assoc]⟩
    · rintro ⟨k, d, hd, rfl⟩
      cases k with
      | zero =>
        obtain rfl : symDef = d := Option.some.inj hd
        exact .inl rfl
      | succ k => exact .inr ⟨k, d, hd, by rw [Nat.add_right_comm, Nat.add_assoc]⟩

theorem le_of_mem_items (h : item ∈ layout.items index symDefs) :
    index ≤ item.2 ∧ item.2 < index + symDefs.length := by
  obtain ⟨k, d, hd, rfl⟩ := mem_items.mp h
  have hk := (List.getElem?_eq_some_iff.mp hd).1
  exact ⟨Nat.le_add_right _ _, Nat.add_lt_add_left hk _⟩

@[simp] theorem length_items (index : ℕ) (symDefs : List DynamicSymbolDefinition) :
    (layout.items index symDefs).length = symDefs.length := by
  induction symDefs generalizing index with
  | nil => rfl
  | cons symDef rest ih => rw [items, List.length_cons, List.length_cons, ih]

theorem nodup_items (index : ℕ) (symDefs : List DynamicSymbolDefinition) :
    ((layout.items index symDefs).map (·.2)).Nodup := by
  induction symDefs generalizing index with
  | nil => exact List.nodup_nil
  | cons symDef rest ih =>
    refine List.nodup_cons.mpr ⟨fun hmem => ?_, ih (index + 1)⟩
    obtain ⟨item, hitem, heq⟩ := List.mem_map.mp hmem
    have hle := (le_of_mem_items hitem).1
    rw [heq] at hle
    exact absurd hle (Nat.not_succ_le_self index)

theorem exists_writeSymbols {dynsymStartIndex : UInt32} {i chainCount : ℕ}
    {symDefs : List DynamicSymbolDefinition} {tables : SysvTables} {t : Table ℕ}
    (hbuckets : layout.bucketCount ≠ 0)
    (hsized : tables.Sized layout.bucketCount.toNat chainCount) (hfits : chainCount ≤ 2 ^ 32)
    (hlen : dynsymStartIndex.toNat + i + symDefs.length ≤ chainCount)
    (hinsert : tables.table.insertAll (layout.items (dynsymStartIndex.toNat + i) symDefs) = some t) :
    ∃ tables', layout.writeSymbols hashes dynsymStartIndex i symDefs tables = .ok tables'
      ∧ tables'.table = t ∧ tables'.Sized layout.bucketCount.toNat chainCount := by
  induction symDefs generalizing i tables with
  | nil =>
    cases hinsert
    exact ⟨tables, rfl, rfl, hsized⟩
  | cons symDef rest ih =>
    rw [List.length_cons] at hlen
    have hindex : dynsymStartIndex.toNat + i < 2 ^ 32 := by omega
    have hnat : (ofNat (dynsymStartIndex.toNat + i)).toNat = dynsymStartIndex.toNat + i := by
      rw [UInt32.toNat_ofNat', Nat.mod_eq_of_lt hindex]
    rw [items, Table.insertAll, Option.bind_eq_some_iff] at hinsert
    obtain ⟨t₁, ht₁, hrest⟩ := hinsert
    rw [← hnat] at ht₁
    obtain ⟨tables₁, hpush, rfl, hsized₁⟩ := SysvTables.exists_push hsized
      (bucketOf_lt hbuckets symDef.name) (by rw [hnat]; omega) ht₁
    have hlengthRest : dynsymStartIndex.toNat + (i + 1) + rest.length ≤ chainCount := by omega
    obtain ⟨tables₂, hwrite, htable, hsized₂⟩ := ih hsized₁ hlengthRest hrest
    refine ⟨tables₂, ?_, htable, hsized₂⟩
    have hchecked : checkedU32 (dynsymStartIndex.toNat + i) tooManyDynamicSymbols
        = .ok (ofNat (dynsymStartIndex.toNat + i)) := if_pos hindex
    unfold bucketOf at hpush
    simp only [writeSymbols, hchecked, Text.Reader.ok_bind, hashes.hash_eq, hpush, hwrite]

/-! ## The bytes of the table -/

/-- What `write_sysv_hash_table` writes, and the bytes behind it. -/
def tableBytes (layout : SysvHashLayout) (tables : SysvTables) (rest : Bytes) : Bytes :=
  [layout.bucketCount, layout.chainCount].flatMap u32Bytes
    ++ (tables.buckets.flatMap u32Bytes ++ (tables.chains.flatMap u32Bytes ++ rest))

section reading

variable {tables : SysvTables} {rest : Bytes} {i : ℕ} {word : UInt32}

variable (layout) in
theorem length_header : ([layout.bucketCount, layout.chainCount].flatMap u32Bytes).length = 8 :=
  Store.length_flatMap_encode length_u32Bytes _

theorem readU32_buckets (h : tables.buckets[i]? = some word) :
    readU32 (layout.tableBytes tables rest) (8 + 4 * i) = some word := by
  rw [tableBytes, ← length_header layout, readU32_append_right]
  exact readU32_append_left _ (readU32_flatMap h)

theorem readU32_chains (h : tables.chains[i]? = some word) :
    readU32 (layout.tableBytes tables rest) (8 + 4 * tables.buckets.length + 4 * i) = some word := by
  rw [tableBytes, ← length_header layout, Nat.add_assoc, readU32_append_right,
    ← Store.length_flatMap_encode length_u32Bytes, readU32_append_right]
  exact readU32_append_left _ (readU32_flatMap h)

end reading

/-! ## The lookup -/

theorem sysvLookup_eq {table : Bytes} {symbolName : ℕ → Option Bytes} {name : Bytes} {fuel : ℕ}
    {first : UInt32} (hbucketCount : readU32 table 0 = some layout.bucketCount)
    (hfirst : readU32 table (8 + 4 * layout.bucketOf name) = some first) :
    sysvLookup table symbolName name fuel
      = sysvWalk (fun y => readU32 table (8 + 4 * layout.bucketCount.toNat + 4 * y)) symbolName
          name fuel first.toNat := by
  unfold bucketOf at hfirst
  simp only [sysvLookup, hbucketCount, hfirst, Option.bind_eq_bind, Option.bind_some]

/-- The empty tables that the loop starts with. -/
def emptyTables (layout : SysvHashLayout) : SysvTables :=
  ⟨.replicate layout.bucketCount.toNat 0, .replicate layout.chainCount.toNat 0,
    .replicate layout.bucketCount.toNat none⟩

theorem table_emptyTables : layout.emptyTables.table = Table.empty := by
  have hzero : ∀ n : ℕ,
      (fun i : ℕ => toNat (((List.replicate n (0 : UInt32))[i]?).getD 0)) = fun _ => 0 := by
    intro n
    funext i
    by_cases hi : i < n
    · rw [List.getElem?_replicate, if_pos hi]
      rfl
    · rw [List.getElem?_replicate, if_neg hi]
      rfl
  have hnone : ∀ n : ℕ, (fun i : ℕ => ((List.replicate n (none : Option ℕ))[i]?).join)
      = fun _ => none := by
    intro n
    funext i
    by_cases hi : i < n
    · rw [List.getElem?_replicate, if_pos hi]
      rfl
    · rw [List.getElem?_replicate, if_neg hi]
      rfl
  rw [Table.mk.injEq]
  exact ⟨hzero _, hzero _, hnone _⟩

theorem sized_emptyTables :
    layout.emptyTables.Sized layout.bucketCount.toNat layout.chainCount.toNat where
  buckets := List.length_replicate
  chains := List.length_replicate
  lastInBucket := List.length_replicate
  last_lt b last h := by
    rw [table_emptyTables] at h
    cases h

theorem exists_sysvLookup {dynsymStartIndex : UInt32} {symDefs : List DynamicSymbolDefinition}
    (hbuckets : layout.bucketCount ≠ 0) (hbase : dynsymStartIndex ≠ 0)
    (hchains : layout.chainCount.toNat = dynsymStartIndex.toNat + symDefs.length) :
    ∃ tables, layout.writeSymbols hashes dynsymStartIndex 0 symDefs layout.emptyTables = .ok tables
      ∧ tables.buckets.length = layout.bucketCount.toNat
      ∧ tables.chains.length = layout.chainCount.toNat
      ∧ ∀ (rest name : Bytes) (symbolName : ℕ → Option Bytes) (fuel : ℕ),
        (∀ k d, symDefs[k]? = some d → symbolName (dynsymStartIndex.toNat + k) = some d.name) →
        symDefs.length ≤ fuel →
        ∃ found, sysvLookup (layout.tableBytes tables rest) symbolName name fuel = some found
          ∧ ∀ index, index ∈ found
            ↔ GnuHashLayout.IndexOf symDefs dynsymStartIndex.toNat name index := by
  have hpos : dynsymStartIndex.toNat ≠ 0 := fun h => hbase (toNat_inj.mp h)
  have hbound : layout.chainCount.toNat ≤ 2 ^ 32 := Nat.le_of_lt layout.chainCount.toNat_lt
  obtain ⟨t, hinsert, hholds⟩ := Table.holds_empty.exists_insertAll
    (layout.items (dynsymStartIndex.toNat + 0) symDefs) (nodup_items _ _)
    (fun item hitem => by
      have hle := (le_of_mem_items hitem).1
      omega)
    (fun _ _ _ => List.not_mem_nil)
  rw [← table_emptyTables] at hinsert
  obtain ⟨tables, hwrite, rfl, hsized⟩ := @exists_writeSymbols _ hashes _ _ _ _ _ _ hbuckets
    sized_emptyTables hbound (by omega) hinsert
  refine ⟨tables, hwrite, hsized.buckets, hsized.chains, ?_⟩
  intro rest name symbolName fuel hnames hfuel
  have hbucket : layout.bucketOf name < tables.buckets.length := by
    rw [hsized.buckets]
    exact bucketOf_lt hbuckets name
  have hfirst : tables.buckets[layout.bucketOf name]? = some tables.buckets[layout.bucketOf name] :=
    List.getElem?_eq_getElem hbucket
  have hhead : tables.buckets[layout.bucketOf name].toNat = tables.table.head (layout.bucketOf name) := by
    show _ = toNat ((tables.buckets[layout.bucketOf name]?).getD 0)
    rw [hfirst]
    rfl
  have hcount : readU32 (layout.tableBytes tables rest) 0 = some layout.bucketCount :=
    readU32_append_left _ (readU32_flatMap (i := 0) rfl)
  rw [sysvLookup_eq hcount (readU32_buckets hfirst), hhead]
  have hmem : ∀ y, y ∈ Table.membersOf (layout.items (dynsymStartIndex.toNat + 0) symDefs)
      (layout.bucketOf name) ↔ ∃ k d, symDefs[k]? = some d
        ∧ layout.bucketOf d.name = layout.bucketOf name ∧ y = dynsymStartIndex.toNat + k := by
    intro y
    rw [Table.mem_membersOf]
    constructor
    · intro hitem
      obtain ⟨k, d, hd, heq⟩ := mem_items.mp hitem
      exact ⟨k, d, hd, (congrArg Prod.fst heq).symm, congrArg Prod.snd heq⟩
    · rintro ⟨k, d, hd, hbucket, rfl⟩
      exact mem_items.mpr ⟨k, d, hd, by rw [hbucket]; rfl⟩
  have hlinked := hholds.linked (layout.bucketOf name)
  rw [List.nil_append] at hlinked
  rw [sysvWalk_linked hlinked ?_ ?_]
  · refine ⟨_, rfl, fun index => ?_⟩
    rw [List.mem_filter, hmem]
    constructor
    · rintro ⟨⟨k, d, hd, -, rfl⟩, hname⟩
      rw [decide_eq_true_eq, hnames k d hd] at hname
      exact ⟨k, d, hd, Option.some.inj hname, rfl⟩
    · rintro ⟨k, d, hd, rfl, rfl⟩
      exact ⟨⟨k, d, hd, rfl, rfl⟩, decide_eq_true (hnames k d hd)⟩
  · intro y hy
    obtain ⟨k, d, hd, -, rfl⟩ := (hmem y).mp hy
    have hk := (List.getElem?_eq_some_iff.mp hd).1
    have hlt : dynsymStartIndex.toNat + k < tables.chains.length := by
      rw [hsized.chains]
      omega
    refine ⟨tables.chains[dynsymStartIndex.toNat + k], ?_, ?_⟩
    · rw [← hsized.buckets]
      exact readU32_chains (List.getElem?_eq_getElem hlt)
    · show _ = toNat ((tables.chains[dynsymStartIndex.toNat + k]?).getD 0)
      rw [List.getElem?_eq_getElem hlt]
      rfl
  · refine le_trans (Table.length_membersOf_le _ _) ?_
    rw [length_items]
    exact hfuel

end SysvHashLayout

end Sld.Dynamic
