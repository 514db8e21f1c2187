/-
# `Dynamic.GnuLookup` — names are found in `.gnu.hash`

The definitions are sorted by bucket, so that the chain of a bucket is a run
of them.

    writeChains_eq       what the writing loop leaves in the three tables
    bloomAccepts_…       the filter lets every defined name pass
    putBuckets_…         a bucket holds its first definition, or zero
    gnuWalk_chainWords   the walk reports the definitions of the name
-/
import Sld.Dynamic.HashTables

namespace Sld.Dynamic

open List (cons_append length_cons length_replicate length_set mem_cons_of_mem mem_cons_self
  not_mem_nil pairwise_cons)
open UInt32 (ofNat toNat_inj)

theorem setAt_of_lt {α : Type} {slice : List α} {i : ℕ} (h : i < slice.length) (value : α) :
    setAt slice i value = .ok (slice.set i value) :=
  if_pos h

namespace GnuHashLayout

variable (layout : GnuHashLayout)

/-! ## What the loop writes -/

/-- The chain words of definitions that come one after the other. -/
def chainWords : List DynamicSymbolDefinition → List UInt32
  | [] => []
  | symDef :: rest =>
    chainWord symDef.hash (layout.lastInChain (layout.bucketForHash symDef.hash) rest)
      :: chainWords rest

def bloomIndex (hash : UInt32) : ℕ := (hash / 64 % layout.bloomCount).toNat

def putBloom : List DynamicSymbolDefinition → List UInt64 → List UInt64
  | [], bloom => bloom
  | symDef :: rest, bloom =>
    putBloom rest (bloom.set (layout.bloomIndex symDef.hash)
      ((bloom[layout.bloomIndex symDef.hash]?).getD 0 ||| layout.bloomBits symDef.hash))

def putBuckets : ℕ → Bool → List DynamicSymbolDefinition → List UInt32 → List UInt32
  | _, _, [], buckets => buckets
  | i, startOfChain, symDef :: rest, buckets =>
    let bucket := layout.bucketForHash symDef.hash
    putBuckets (i + 1) (layout.lastInChain bucket rest) rest
      (if startOfChain then buckets.set bucket.toNat (UInt32.ofNat i + layout.symbolBase)
        else buckets)

@[simp] theorem length_chainWords (symDefs : List DynamicSymbolDefinition) :
    (layout.chainWords symDefs).length = symDefs.length := by
  induction symDefs with
  | nil => rfl
  | cons symDef rest ih => rw [chainWords, length_cons, length_cons, ih]

@[simp] theorem length_putBloom (symDefs : List DynamicSymbolDefinition) (bloom : List UInt64) :
    (layout.putBloom symDefs bloom).length = bloom.length := by
  induction symDefs generalizing bloom with
  | nil => rfl
  | cons symDef rest ih => rw [putBloom, ih, length_set]

@[simp] theorem length_putBuckets (i : ℕ) (startOfChain : Bool)
    (symDefs : List DynamicSymbolDefinition) (buckets : List UInt32) :
    (layout.putBuckets i startOfChain symDefs buckets).length = buckets.length := by
  induction symDefs generalizing i startOfChain buckets with
  | nil => rfl
  | cons symDef rest ih =>
    rw [putBuckets, ih]
    cases startOfChain with
    | false => rfl
    | true => exact length_set

variable {layout}

theorem bucketForHash_toNat_lt (hbuckets : layout.bucketCount ≠ 0) (hash : UInt32) :
    (layout.bucketForHash hash).toNat < layout.bucketCount.toNat := by
  have hpos : 0 < layout.bucketCount.toNat :=
    Nat.pos_of_ne_zero fun h => hbuckets (toNat_inj.mp h)
  exact Nat.mod_lt _ hpos

theorem bloomIndex_lt (hbloom : layout.bloomCount ≠ 0) (hash : UInt32) :
    layout.bloomIndex hash < layout.bloomCount.toNat := by
  have hpos : 0 < layout.bloomCount.toNat :=
    Nat.pos_of_ne_zero fun h => hbloom (toNat_inj.mp h)
  exact Nat.mod_lt _ hpos

theorem writeChains_eq (hbuckets : layout.bucketCount ≠ 0) (hbloom : layout.bloomCount ≠ 0)
    (i : ℕ) (startOfChain : Bool) (symDefs : List DynamicSymbolDefinition) (tables : GnuTables)
    (hlengthBuckets : tables.buckets.length = layout.bucketCount.toNat)
    (hlengthBloom : tables.bloom.length = layout.bloomCount.toNat) :
    layout.writeChains i startOfChain symDefs tables = .ok ⟨layout.putBloom symDefs tables.bloom,
          layout.putBuckets i startOfChain symDefs tables.buckets,
          tables.chains ++ layout.chainWords symDefs⟩ := by
  induction symDefs generalizing i startOfChain tables with
  | nil => rw [writeChains, putBloom, putBuckets, chainWords, List.append_nil]
  | cons symDef rest ih =>
    let bloom := tables.bloom.set (layout.bloomIndex symDef.hash)
      ((tables.bloom[layout.bloomIndex symDef.hash]?).getD 0 ||| layout.bloomBits symDef.hash)
    have hset : setAt tables.bloom (layout.bloomIndex symDef.hash)
        ((tables.bloom[layout.bloomIndex symDef.hash]?).getD 0 ||| layout.bloomBits symDef.hash)
        = .ok bloom :=
      setAt_of_lt (by rw [hlengthBloom]; exact bloomIndex_lt hbloom symDef.hash) _
    have hbloomSet : bloom.length = layout.bloomCount.toNat := by
      rw [length_set, hlengthBloom]
    let last := layout.lastInChain (layout.bucketForHash symDef.hash) rest
    let chains := tables.chains ++ [chainWord symDef.hash last]
    cases startOfChain with
    | false =>
      have hrest := ih (i + 1) last ⟨bloom, tables.buckets, chains⟩ hlengthBuckets hbloomSet
      unfold bloomIndex at hset
      simp only [writeChains, hset]
      refine hrest.trans ?_
      rw [List.append_assoc]
      rfl
    | true =>
      let buckets := tables.buckets.set (layout.bucketForHash symDef.hash).toNat
        (ofNat i + layout.symbolBase)
      have hbucket : setAt tables.buckets (layout.bucketForHash symDef.hash).toNat
          (ofNat i + layout.symbolBase) = .ok buckets :=
        setAt_of_lt (by rw [hlengthBuckets]; exact bucketForHash_toNat_lt hbuckets _) _
      have hbucketsSet : buckets.length = layout.bucketCount.toNat := by
        rw [length_set, hlengthBuckets]
      have hrest := ih (i + 1) last ⟨bloom, buckets, chains⟩ hbucketsSet hbloomSet
      unfold bloomIndex at hset
      simp only [writeChains, hset, hbucket]
      refine hrest.trans ?_
      rw [List.append_assoc]
      rfl

/-! ## The Bloom filter -/

theorem testBit_shiftLeft_one (n : UInt32) :
    ((1 : UInt64) <<< (n % 64).toUInt64).toNat.testBit (n % 64).toNat = true := by
  have hlt : (n % 64).toNat < 64 := by
    exact Nat.mod_lt _ (by decide)
  rw [UInt64.toNat_shiftLeft, UInt32.toNat_toUInt64, Nat.mod_eq_of_lt hlt,
    Nat.testBit_mod_two_pow, Nat.testBit_shiftLeft, Nat.sub_self]
  exact Bool.and_eq_true_iff.mpr ⟨decide_eq_true hlt, by simp⟩

theorem bloomAccepts_bloomBits (word : UInt64) (hash : UInt32) :
    bloomAccepts (word ||| layout.bloomBits hash) hash layout.bloomShift = true := by
  rw [bloomAccepts, Bool.and_eq_true]
  constructor
  · rw [UInt64.toNat_or, Nat.testBit_or, bloomBits, UInt64.toNat_or, Nat.testBit_or,
      testBit_shiftLeft_one]
    simp
  · rw [UInt64.toNat_or, Nat.testBit_or, bloomBits, UInt64.toNat_or, Nat.testBit_or,
      testBit_shiftLeft_one (hash >>> layout.bloomShift)]
    simp

variable {word : UInt64}

theorem bloomAccepts_or {hash shift : UInt32} (bits : UInt64)
    (h : bloomAccepts word hash shift = true) : bloomAccepts (word ||| bits) hash shift = true := by
  rw [bloomAccepts, Bool.and_eq_true] at h ⊢
  rw [UInt64.toNat_or, Nat.testBit_or, Nat.testBit_or, h.1, h.2]
  exact ⟨rfl, rfl⟩

variable {bloom : List UInt64} {i : ℕ}

theorem bloomAccepts_set {j : ℕ} {hash shift : UInt32} (bits : UInt64)
    (h : bloomAccepts ((bloom[i]?).getD 0) hash shift = true) :
    bloomAccepts (((bloom.set j ((bloom[j]?).getD 0 ||| bits))[i]?).getD 0) hash shift = true := by
  by_cases hij : j = i
  · subst hij
    rw [List.getElem?_set_self']
    cases hword : bloom[j]? with
    | none =>
      rw [hword] at h
      exact h
    | some word =>
      rw [hword] at h
      exact bloomAccepts_or bits h
  · rw [List.getElem?_set_ne hij]
    exact h

theorem bloomAccepts_putBloom {hash shift : UInt32} (symDefs : List DynamicSymbolDefinition)
    (h : bloomAccepts ((bloom[i]?).getD 0) hash shift = true) :
    bloomAccepts (((layout.putBloom symDefs bloom)[i]?).getD 0) hash shift = true := by
  induction symDefs generalizing bloom with
  | nil => exact h
  | cons symDef rest ih => exact ih (bloomAccepts_set _ h)

variable {symDef : DynamicSymbolDefinition} {symDefs : List DynamicSymbolDefinition}

theorem bloomAccepts_of_mem (hbloom : layout.bloomCount ≠ 0)
    (hlen : bloom.length = layout.bloomCount.toNat) (hmem : symDef ∈ symDefs) :
    bloomAccepts (((layout.putBloom symDefs bloom)[layout.bloomIndex symDef.hash]?).getD 0)
      symDef.hash layout.bloomShift = true := by
  induction symDefs generalizing bloom with
  | nil => cases hmem
  | cons head rest ih =>
    cases hmem with
    | head =>
      refine bloomAccepts_putBloom rest ?_
      have hlt : layout.bloomIndex symDef.hash < bloom.length := by
        rw [hlen]
        exact bloomIndex_lt hbloom _
      rw [List.getElem?_set_self hlt]
      exact bloomAccepts_bloomBits _ _
    | tail _ hmem => exact ih (by rw [length_set, hlen]) hmem

/-! ## The buckets -/

/-- The definitions come in the order of their buckets. -/
def BucketsSorted (layout : GnuHashLayout) (symDefs : List DynamicSymbolDefinition) : Prop :=
  symDefs.Pairwise fun d d' =>
    (layout.bucketForHash d.hash).toNat ≤ (layout.bucketForHash d'.hash).toNat

theorem BucketsSorted.of_pairwise
    (h : symDefs.Pairwise layout.KeyLe) : layout.BucketsSorted symDefs :=
  h.imp fun hle => by
    rcases hle with hlt | ⟨heq, -⟩
    · exact Nat.le_of_lt hlt
    · exact Nat.le_of_eq (congrArg UInt32.toNat heq)

variable {rest : List DynamicSymbolDefinition}

theorem BucketsSorted.ne_of_lastInChain (h : layout.BucketsSorted (symDef :: rest))
    (hlast : layout.lastInChain (layout.bucketForHash symDef.hash) rest = true) :
    ∀ d ∈ rest, layout.bucketForHash d.hash ≠ layout.bucketForHash symDef.hash := by
  cases rest with
  | nil =>
    intro d hd
    cases hd
  | cons next rest =>
    have hne : layout.bucketForHash next.hash ≠ layout.bucketForHash symDef.hash := by
      simpa [lastInChain] using hlast
    obtain ⟨hle, hrest⟩ := pairwise_cons.mp h
    have hlt := Nat.lt_of_le_of_ne (hle next mem_cons_self)
      fun heq => hne (toNat_inj.mp heq.symm)
    intro d hd
    cases hd with
    | head => exact hne
    | tail _ hd =>
      have hnext := (pairwise_cons.mp hrest).1 d hd
      intro heq
      rw [heq] at hnext
      exact absurd hnext (Nat.not_le_of_lt hlt)

variable {buckets : List UInt32} {startOfChain : Bool}

theorem putBuckets_of_forall_ne {b : UInt32} (h : ∀ d ∈ symDefs, layout.bucketForHash d.hash ≠ b) :
    (layout.putBuckets i startOfChain symDefs buckets)[b.toNat]? = buckets[b.toNat]? := by
  induction symDefs generalizing i startOfChain buckets with
  | nil => rfl
  | cons symDef rest ih =>
    rw [putBuckets, ih fun d hd => h d (mem_cons_of_mem _ hd)]
    cases startOfChain with
    | false => rfl
    | true =>
      have hne : (layout.bucketForHash symDef.hash).toNat ≠ b.toNat := fun heq =>
        h symDef mem_cons_self (toNat_inj.mp heq)
      exact List.getElem?_set_ne hne

theorem putBuckets_inside (h : layout.BucketsSorted (symDef :: rest)) :
    (layout.putBuckets i (layout.lastInChain (layout.bucketForHash symDef.hash) rest) rest
        buckets)[(layout.bucketForHash symDef.hash).toNat]?
      = buckets[(layout.bucketForHash symDef.hash).toNat]? := by
  induction rest generalizing i symDef buckets with
  | nil => rfl
  | cons next rest ih =>
    by_cases hlast : layout.lastInChain (layout.bucketForHash symDef.hash) (next :: rest) = true
    · exact putBuckets_of_forall_ne (h.ne_of_lastInChain hlast)
    · have hsame : layout.bucketForHash next.hash = layout.bucketForHash symDef.hash := by
        simpa [lastInChain] using hlast
      rw [eq_false_of_ne_true hlast, ← hsame]
      exact ih (pairwise_cons.mp h).2

theorem putBuckets_of_first {before after : List DynamicSymbolDefinition}
    (hbuckets : layout.bucketCount ≠ 0) (hlen : buckets.length = layout.bucketCount.toNat)
    (hsorted : layout.BucketsSorted (before ++ symDef :: after))
    (hfirst : ∀ d ∈ before, layout.bucketForHash d.hash ≠ layout.bucketForHash symDef.hash)
    (hstart : before = [] → startOfChain = true) :
    (layout.putBuckets i startOfChain (before ++ symDef :: after)
        buckets)[(layout.bucketForHash symDef.hash).toNat]?
      = some (ofNat (i + before.length) + layout.symbolBase) := by
  induction before generalizing i startOfChain buckets with
  | nil =>
    rw [hstart rfl]
    show (layout.putBuckets i true (symDef :: after) buckets)[_]? = _
    rw [putBuckets, if_pos rfl, putBuckets_inside hsorted, List.getElem?_set_self]
    · rfl
    · rw [hlen]
      exact bucketForHash_toNat_lt hbuckets _
  | cons head before ih =>
    rw [cons_append] at hsorted ⊢
    rw [putBuckets]
    have hne := hfirst head mem_cons_self
    rw [ih ?_ (pairwise_cons.mp hsorted).2 fun d hd => hfirst d (mem_cons_of_mem _ hd)]
    · rw [length_cons, Nat.add_right_comm, Nat.add_assoc]
    · rintro rfl
      show decide (layout.bucketForHash symDef.hash ≠ layout.bucketForHash head.hash) = true
      exact decide_eq_true (Ne.symm hne)
    · cases startOfChain with
      | false => exact hlen
      | true =>
        rw [if_pos rfl, length_set]
        exact hlen

/-! ## The chains -/

theorem chainWord_and_one (hash : UInt32) (last : Bool) :
    chainWord hash last &&& 1 = 1 ↔ last = true := by
  have hbit : ∀ bits : UInt32, bits &&& 1 = 1 ↔ bits.toNat.testBit 0 = true := by
    intro bits
    rw [← toNat_inj, Nat.testBit_zero, decide_eq_true_iff]
    exact Eq.congr_left (Nat.and_one_is_mod _)
  rw [hbit]
  cases last with
  | false => simp [chainWord]
  | true => simp [chainWord]

theorem chainWord_xor (hash : UInt32) (last : Bool) : (chainWord hash last ^^^ hash) >>> 1 = 0 := by
  have hmask : ∀ i < 31, (4294967294#32).getLsbD (1 + i) = true := by decide
  have hbit : ∀ i, hash.toBitVec.getLsbD (1 + i) = true → (4294967294#32).getLsbD (1 + i) = true := by
    intro i hset
    have hlt := BitVec.lt_of_getLsbD hset
    exact hmask i (by omega)
  refine UInt32.toBitVec_inj.mp (BitVec.eq_of_getLsbD_eq ?_)
  intro i _
  cases last with
  | false => simpa [chainWord] using hbit i
  | true => simpa [chainWord] using hbit i

/-- The definitions of a name among definitions whose indices start at
`base`. -/
def IndexOf (symDefs : List DynamicSymbolDefinition) (base : ℕ) (name : Bytes) (index : ℕ) : Prop :=
  ∃ k d, symDefs[k]? = some d ∧ d.name = name ∧ index = base + k

variable {name : Bytes}

theorem indexOf_cons {base index : ℕ} : IndexOf (symDef :: rest) base name index
      ↔ (symDef.name = name ∧ index = base) ∨ IndexOf rest (base + 1) name index := by
  constructor
  · rintro ⟨k, d, hd, hname, rfl⟩
    cases k with
    | zero =>
      obtain rfl : symDef = d := Option.some.inj hd
      exact .inl ⟨hname, rfl⟩
    | succ k => exact .inr ⟨k, d, hd, hname, by omega⟩
  · rintro (⟨hname, rfl⟩ | ⟨k, d, hd, hname, rfl⟩)
    · exact ⟨0, symDef, rfl, hname, rfl⟩
    · exact ⟨k + 1, d, hd, hname, by omega⟩

theorem not_indexOf_of_forall_ne {base index : ℕ}
    (h : ∀ d ∈ symDefs, d.name ≠ name) : ¬ IndexOf symDefs base name index := by
  rintro ⟨k, d, hd, hname, -⟩
  exact h d (List.mem_of_getElem? hd) hname

section walk

variable {chainAt : ℕ → Option UInt32} {symbolName : ℕ → Option Bytes} {name : Bytes} {y fuel : ℕ}
  {symDef : DynamicSymbolDefinition} {rest : List DynamicSymbolDefinition}

variable {found : List ℕ}

theorem gnuWalk_succ {last : Bool} (hword : chainAt y = some (chainWord symDef.hash last))
    (hname : symbolName y = some symDef.name) (hhash : symDef.hash = gnuHash symDef.name)
    (hrest : (if last = true then some [] else
      gnuWalk chainAt (gnuHash name) symbolName name fuel (y + 1)) = some found) :
    gnuWalk chainAt (gnuHash name) symbolName name (fuel + 1) y
      = some (if symDef.name = name then y :: found else found) := by
  have hmatch : ((chainWord symDef.hash last ^^^ gnuHash name) >>> 1 = 0
      ∧ symbolName y = some name) ↔ symDef.name = name := by
    rw [hname]
    constructor
    · rintro ⟨-, heq⟩
      exact Option.some.inj heq
    · rintro rfl
      rw [← hhash]
      exact ⟨chainWord_xor _ _, rfl⟩
  simp only [← chainWord_and_one symDef.hash last] at hrest
  simp only [gnuWalk, hword, Option.bind_eq_bind, Option.bind_some, hrest, hmatch]
  rfl

theorem mem_found_iff {index : ℕ} (h : ∀ index, index ∈ found ↔ IndexOf rest (y + 1) name index) :
    index ∈ (if symDef.name = name then y :: found else found)
      ↔ IndexOf (symDef :: rest) y name index := by
  rw [indexOf_cons]
  by_cases hname : symDef.name = name
  · rw [if_pos hname, List.mem_cons, h index]
    simp only [hname, true_and]
  · rw [if_neg hname, h index]
    simp only [hname, false_and, false_or]

theorem gnuWalk_chainWords (hsorted : layout.BucketsSorted (symDef :: rest))
    (hhash : ∀ d ∈ symDef :: rest, d.hash = gnuHash d.name)
    (hbucket : layout.bucketForHash symDef.hash = layout.bucketForHash (gnuHash name))
    (hchain : ∀ k word, (layout.chainWords (symDef :: rest))[k]? = some word →
      chainAt (y + k) = some word)
    (hnames : ∀ k d, (symDef :: rest)[k]? = some d → symbolName (y + k) = some d.name)
    (hfuel : rest.length < fuel) :
    ∃ found, gnuWalk chainAt (gnuHash name) symbolName name fuel y = some found
      ∧ ∀ index, index ∈ found ↔ IndexOf (symDef :: rest) y name index := by
  induction rest generalizing symDef y fuel with
  | nil =>
    obtain ⟨fuel, rfl⟩ : ∃ n, fuel = n + 1 := ⟨fuel - 1, by simp at hfuel; omega⟩
    have hlast : layout.lastInChain (layout.bucketForHash symDef.hash) [] = true := rfl
    have hwalk : gnuWalk chainAt (gnuHash name) symbolName name (fuel + 1) y = some _ :=
      gnuWalk_succ (hchain 0 _ rfl) (hnames 0 symDef rfl) (hhash symDef mem_cons_self)
        (if_pos hlast)
    refine ⟨_, hwalk, fun index => mem_found_iff fun index => ?_⟩
    exact iff_of_false not_mem_nil (not_indexOf_of_forall_ne fun d hd => by cases hd)
  | cons next rest ih =>
    obtain ⟨fuel, rfl⟩ : ∃ n, fuel = n + 1 := ⟨fuel - 1, by omega⟩
    have hword := hchain 0 _ rfl
    by_cases hlast : layout.lastInChain (layout.bucketForHash symDef.hash) (next :: rest) = true
    · have hwalk : gnuWalk chainAt (gnuHash name) symbolName name (fuel + 1) y = some _ :=
        gnuWalk_succ hword (hnames 0 symDef rfl) (hhash symDef mem_cons_self) (if_pos hlast)
      refine ⟨_, hwalk, fun index => mem_found_iff fun index => ?_⟩
      -- A later definition of the name would be in the bucket, which has ended here.
      refine iff_of_false not_mem_nil (not_indexOf_of_forall_ne fun d hd hname => ?_)
      refine hsorted.ne_of_lastInChain hlast d hd ?_
      rw [hhash d (mem_cons_of_mem _ hd), hname, hbucket]
    · have hsame : layout.bucketForHash next.hash = layout.bucketForHash symDef.hash := by
        simpa [lastInChain] using hlast
      obtain ⟨found, hfound, hmem⟩ := ih (pairwise_cons.mp hsorted).2
        (fun d hd => hhash d (mem_cons_of_mem _ hd)) (hsame.trans hbucket)
        (fun k word hk => by
          rw [Nat.add_right_comm, Nat.add_assoc]
          exact hchain (k + 1) word hk)
        (fun k d hk => by
          rw [Nat.add_right_comm]
          exact hnames (k + 1) d hk)
        (show rest.length < fuel by simp at hfuel; omega)
      have hwalk : gnuWalk chainAt (gnuHash name) symbolName name (fuel + 1) y = some _ :=
        gnuWalk_succ hword (hnames 0 symDef rfl) (hhash symDef mem_cons_self)
          ((if_neg hlast).trans hfound)
      exact ⟨_, hwalk, fun index => mem_found_iff hmem⟩

end walk

/-! ## The bytes of the table -/

variable (layout) in
def header : List UInt32 :=
  [layout.bucketCount, layout.symbolBase, layout.bloomCount, layout.bloomShift]

variable (layout) in
/-- What `write_gnu_hash_tables` writes, and the bytes behind it. -/
def tableBytes (tables : GnuTables) (rest : Bytes) : Bytes :=
  layout.header.flatMap u32Bytes ++ (tables.bloom.flatMap u64Bytes
    ++ (tables.buckets.flatMap u32Bytes ++ (tables.chains.flatMap u32Bytes ++ rest)))

section reading

variable {tables : GnuTables} {rest : Bytes} {i : ℕ}

variable {word : UInt32}

variable (layout) in
theorem length_header : (layout.header.flatMap u32Bytes).length = 16 :=
  Store.length_flatMap_encode length_u32Bytes _

theorem readU32_header (h : layout.header[i]? = some word) :
    readU32 (layout.tableBytes tables rest) (4 * i) = some word :=
  readU32_append_left _ (readU32_flatMap h)

theorem readU64_bloom {word : UInt64} (h : tables.bloom[i]? = some word) :
    readU64 (layout.tableBytes tables rest) (16 + 8 * i) = some word := by
  rw [tableBytes, ← length_header layout, readU64_append_right]
  exact readU64_append_left _ (readU64_flatMap h)

theorem readU32_buckets (h : tables.buckets[i]? = some word) :
    readU32 (layout.tableBytes tables rest) (16 + 8 * tables.bloom.length + 4 * i) = some word := by
  rw [tableBytes, ← length_header layout, Nat.add_assoc, readU32_append_right,
    ← Store.length_flatMap_encode length_u64Bytes, readU32_append_right]
  exact readU32_append_left _ (readU32_flatMap h)

theorem readU32_chains (h : tables.chains[i]? = some word) : readU32 (layout.tableBytes tables rest)
        (16 + 8 * tables.bloom.length + 4 * tables.buckets.length + 4 * i) = some word := by
  rw [tableBytes, ← length_header layout, Nat.add_assoc, Nat.add_assoc, readU32_append_right,
    ← Store.length_flatMap_encode length_u64Bytes, readU32_append_right,
    ← Store.length_flatMap_encode length_u32Bytes, readU32_append_right]
  exact readU32_append_left _ (readU32_flatMap h)

end reading

/-! ## The lookup -/

variable (layout) in
/-- The tables that the loop leaves, from empty ones. -/
def finalTables (symDefs : List DynamicSymbolDefinition) : GnuTables :=
  ⟨layout.putBloom symDefs (.replicate layout.bloomCount.toNat 0),
    layout.putBuckets 0 true symDefs (.replicate layout.bucketCount.toNat 0),
    layout.chainWords symDefs⟩

variable {symDefs : List DynamicSymbolDefinition} {name : Bytes}

variable (layout symDefs) in
theorem length_bloom_finalTables :
    (layout.finalTables symDefs).bloom.length = layout.bloomCount.toNat := by
  rw [finalTables, length_putBloom, length_replicate]

variable (layout symDefs) in
theorem length_buckets_finalTables :
    (layout.finalTables symDefs).buckets.length = layout.bucketCount.toNat := by
  rw [finalTables, length_putBuckets, length_replicate]

theorem name_ne_of_bloom (hbloom : layout.bloomCount ≠ 0)
    (hhash : ∀ d ∈ symDefs, d.hash = gnuHash d.name) (hreject : ¬ bloomAccepts
      (((layout.finalTables symDefs).bloom[layout.bloomIndex (gnuHash name)]?).getD 0)
      (gnuHash name) layout.bloomShift = true) : ∀ d ∈ symDefs, d.name ≠ name := by
  rintro d hd rfl
  rw [← hhash d hd] at hreject
  exact hreject (bloomAccepts_of_mem hbloom length_replicate hd)

theorem buckets_cases (hbuckets : layout.bucketCount ≠ 0)
    (hsorted : layout.BucketsSorted symDefs) (b : UInt32) :
    ((∀ d ∈ symDefs, layout.bucketForHash d.hash ≠ b)
        ∧ ∀ word, (layout.finalTables symDefs).buckets[b.toNat]? = some word → word = 0)
      ∨ ∃ before symDef after, symDefs = before ++ symDef :: after
        ∧ layout.bucketForHash symDef.hash = b
        ∧ (∀ d ∈ before, layout.bucketForHash d.hash ≠ b)
        ∧ (layout.finalTables symDefs).buckets[b.toNat]?
            = some (ofNat before.length + layout.symbolBase) := by
  cases hfind : symDefs.find? fun d => layout.bucketForHash d.hash = b with
  | none =>
    have hne : ∀ d ∈ symDefs, layout.bucketForHash d.hash ≠ b := by
      simpa using List.find?_eq_none.mp hfind
    refine .inl ⟨hne, fun word hword => ?_⟩
    rw [finalTables, putBuckets_of_forall_ne hne] at hword
    exact (List.mem_replicate.mp (List.mem_of_getElem? hword)).2
  | some symDef =>
    obtain ⟨hb, before, after, rfl, hbefore⟩ := List.find?_eq_some_iff_append.mp hfind
    obtain rfl : layout.bucketForHash symDef.hash = b := by simpa using hb
    have hfirst : ∀ d ∈ before, layout.bucketForHash d.hash ≠ layout.bucketForHash symDef.hash := by
      simpa using hbefore
    refine .inr ⟨before, symDef, after, rfl, rfl, hfirst, ?_⟩
    have hword := putBuckets_of_first (i := 0) hbuckets
      (length_replicate (a := (0 : UInt32))) hsorted hfirst fun _ => rfl
    rw [Nat.zero_add] at hword
    exact hword

theorem chainWords_append (before symDefs : List DynamicSymbolDefinition) (k : ℕ) :
    (layout.chainWords (before ++ symDefs))[before.length + k]? = (layout.chainWords symDefs)[k]? := by
  induction before with
  | nil =>
    show (layout.chainWords symDefs)[0 + k]? = _
    rw [Nat.zero_add]
  | cons d before ih =>
    rw [length_cons, Nat.add_right_comm]
    exact ih

theorem indexOf_append {before after : List DynamicSymbolDefinition} {base index : ℕ}
    (hne : ∀ d ∈ before, d.name ≠ name) :
    IndexOf (before ++ after) base name index ↔ IndexOf after (base + before.length) name index := by
  induction before generalizing base with
  | nil => exact Iff.rfl
  | cons d before ih =>
    rw [cons_append, indexOf_cons, ih fun d' hd' => hne d' (mem_cons_of_mem _ hd'),
      length_cons, Nat.add_right_comm, Nat.add_assoc base]
    exact or_iff_right fun h => hne d mem_cons_self h.1

variable {fuel : ℕ} {symbolName : ℕ → Option Bytes}

theorem gnuLookup_eq {table : Bytes}
    {first : UInt32} (hbucketCount : readU32 table 0 = some layout.bucketCount)
    (hsymbolBase : readU32 table 4 = some layout.symbolBase)
    (hbloomCount : readU32 table 8 = some layout.bloomCount)
    (hbloomShift : readU32 table 12 = some layout.bloomShift)
    (hword : readU64 table (16 + 8 * layout.bloomIndex (gnuHash name)) = some word)
    (hfirst : readU32 table (16 + 8 * layout.bloomCount.toNat
      + 4 * (layout.bucketForHash (gnuHash name)).toNat) = some first) :
    gnuLookup table symbolName name fuel
      = if bloomAccepts word (gnuHash name) layout.bloomShift = true then
          if first = 0 then some []
          else gnuWalk (fun y => if y < layout.symbolBase.toNat then none else
              readU32 table (16 + 8 * layout.bloomCount.toNat + 4 * layout.bucketCount.toNat
                + 4 * (y - layout.symbolBase.toNat)))
            (gnuHash name) symbolName name fuel first.toNat
        else some [] := by
  unfold bloomIndex at hword
  unfold bucketForHash at hfirst
  simp only [gnuLookup, hbucketCount, hsymbolBase, hbloomCount, hbloomShift, hword, hfirst,
    Option.bind_eq_bind, Option.bind_some]
  rfl

theorem gnuLookup_tableBytes (hbuckets : layout.bucketCount ≠ 0) (hbloom : layout.bloomCount ≠ 0)
    (hbase : layout.symbolBase ≠ 0) (hfits : layout.symbolBase.toNat + symDefs.length ≤ 2 ^ 32)
    (hsorted : layout.BucketsSorted symDefs) (hhash : ∀ d ∈ symDefs, d.hash = gnuHash d.name)
    (hnames : ∀ k d, symDefs[k]? = some d → symbolName (layout.symbolBase.toNat + k) = some d.name)
    (hfuel : symDefs.length ≤ fuel) (rest : Bytes) :
    ∃ found, gnuLookup (layout.tableBytes (layout.finalTables symDefs) rest) symbolName name fuel
        = some found
      ∧ ∀ index, index ∈ found ↔ IndexOf symDefs layout.symbolBase.toNat name index := by
  have hlengthBloom := length_bloom_finalTables layout symDefs
  have hlengthBuckets := length_buckets_finalTables layout symDefs
  obtain ⟨word, hword⟩ : ∃ word, (layout.finalTables symDefs).bloom[
      layout.bloomIndex (gnuHash name)]? = some word :=
    ⟨_, List.getElem?_eq_getElem (by rw [hlengthBloom]; exact bloomIndex_lt hbloom _)⟩
  obtain ⟨first, hfirst⟩ : ∃ first, (layout.finalTables symDefs).buckets[
      (layout.bucketForHash (gnuHash name)).toNat]? = some first :=
    ⟨_, List.getElem?_eq_getElem (by rw [hlengthBuckets]; exact bucketForHash_toNat_lt hbuckets _)⟩
  have hbucketAt : readU32 (layout.tableBytes (layout.finalTables symDefs) rest)
      (16 + 8 * layout.bloomCount.toNat + 4 * (layout.bucketForHash (gnuHash name)).toNat)
        = some first := by
    rw [← hlengthBloom]
    exact readU32_buckets hfirst
  rw [gnuLookup_eq (readU32_header (i := 0) rfl) (readU32_header (i := 1) rfl)
    (readU32_header (i := 2) rfl) (readU32_header (i := 3) rfl) (readU64_bloom hword) hbucketAt]
  have hnone : (∀ d ∈ symDefs, d.name ≠ name) → ∀ index,
      index ∈ ([] : List ℕ) ↔ IndexOf symDefs layout.symbolBase.toNat name index :=
    fun hne index => iff_of_false not_mem_nil (not_indexOf_of_forall_ne hne)
  by_cases haccept : bloomAccepts word (gnuHash name) layout.bloomShift = true
  · rw [if_pos haccept]
    have hnameBucket : ∀ d ∈ symDefs,
        layout.bucketForHash d.hash ≠ layout.bucketForHash (gnuHash name) → d.name ≠ name := by
      rintro d hd hne rfl
      exact hne (congrArg layout.bucketForHash (hhash d hd))
    rcases buckets_cases hbuckets hsorted (layout.bucketForHash (gnuHash name)) with
      ⟨hne, hzero⟩ | ⟨before, symDef, after, rfl, hb, hbefore, hentry⟩
    · rw [if_pos (hzero first hfirst)]
      exact ⟨[], rfl, hnone fun d hd => hnameBucket d hd (hne d hd)⟩
    · rw [hentry] at hfirst
      cases hfirst
      -- The index of the first definition of the bucket, which does not wrap around.
      have hlt : before.length + layout.symbolBase.toNat < 2 ^ 32 := by
        rw [List.length_append, length_cons] at hfits
        omega
      have hindex : (ofNat before.length + layout.symbolBase).toNat
          = layout.symbolBase.toNat + before.length := by
        rw [UInt32.toNat_add, UInt32.toNat_ofNat', Nat.mod_add_mod, Nat.mod_eq_of_lt hlt,
          Nat.add_comm]
      have hpos : layout.symbolBase.toNat ≠ 0 := fun h => hbase (toNat_inj.mp h)
      have hne0 : ofNat before.length + layout.symbolBase ≠ 0 := fun h => by
        rw [h] at hindex
        have h0 : (0 : UInt32).toNat = 0 := rfl
        omega
      rw [if_neg hne0, hindex]
      have hsortedAfter : layout.BucketsSorted (symDef :: after) :=
        (List.pairwise_append.mp hsorted).2.1
      refine Exists.imp (fun found h => ⟨h.1, fun index => ?_⟩)
        (gnuWalk_chainWords hsortedAfter (fun d hd => hhash d (List.mem_append_right _ hd)) hb
          ?_ ?_ ?_)
      · rw [h.2 index, indexOf_append fun d hd => hnameBucket d (List.mem_append_left _ hd)
          (hbefore d hd)]
      · intro k chainWord hk
        show (if _ then none else _) = _
        rw [if_neg (by omega), ← hlengthBloom, ← hlengthBuckets,
          show layout.symbolBase.toNat + before.length + k - layout.symbolBase.toNat
            = before.length + k by omega]
        refine readU32_chains ?_
        exact (chainWords_append before (symDef :: after) k).trans hk
      · intro k d hk
        rw [Nat.add_assoc]
        refine hnames (before.length + k) d ?_
        rw [List.getElem?_append_right (Nat.le_add_right _ _), Nat.add_sub_cancel_left]
        exact hk
      · rw [List.length_append, length_cons] at hfuel
        exact Nat.lt_of_lt_of_le (by omega) hfuel
  · rw [if_neg haccept]
    refine ⟨[], rfl, hnone (name_ne_of_bloom hbloom hhash ?_)⟩
    rw [hword]
    exact haccept

end GnuHashLayout

end Sld.Dynamic
