/-
# `Dynamic.HashAbi` — how a loader looks a name up

The two symbol hash tables of a dynamic object as their users read them,
from the bytes of the section.  A lookup walks the chain of the name; it
reports all entries of the symbol table on the way that have this name, for
the loader compares versions as it goes.  `none` is a read outside of the
table, or a walk that the fuel does not suffice for.

    .hash        nbucket nchain | bucket… | chain…
    .gnu.hash    nbuckets symoffset bloom_size bloom_shift
                 | bloom… (8 bytes) | bucket… | chain… (from symoffset on)
-/
import Mathlib.Data.UInt
import Sld.Incremental.OutputPatches
import Sld.Store.Words

namespace Sld.Dynamic

open Incremental (leBytes ofLeBytes)
open Store (fieldAt)

abbrev Bytes := List UInt8

def u32Bytes (word : UInt32) : Bytes := leBytes word.toNat 4

def u64Bytes (word : UInt64) : Bytes := leBytes word.toNat 8

def readU32 (table : Bytes) (offset : ℕ) : Option UInt32 :=
  (fieldAt table offset 4).map fun bytes => UInt32.ofNat (ofLeBytes bytes)

def readU64 (table : Bytes) (offset : ℕ) : Option UInt64 :=
  (fieldAt table offset 8).map fun bytes => UInt64.ofNat (ofLeBytes bytes)

/-! ## The System V table -/

def sysvHash (name : Bytes) : UInt32 :=
  name.foldl (fun hash byte =>
    let h := (hash <<< 4) + byte.toUInt32
    let g := h &&& 0xf0000000
    (h ^^^ (g >>> 24)) &&& ~~~g) 0

/-- From one symbol along its chain to the end, which is the index zero. -/
def sysvWalk (chainAt : ℕ → Option UInt32) (symbolName : ℕ → Option Bytes) (name : Bytes) :
    ℕ → ℕ → Option (List ℕ)
  | _, 0 => some []
  | 0, _ + 1 => none
  | fuel + 1, y + 1 => do
      let next ← chainAt (y + 1)
      let rest ← sysvWalk chainAt symbolName name fuel next.toNat
      return if symbolName (y + 1) = some name then (y + 1) :: rest else rest

def sysvLookup (table : Bytes) (symbolName : ℕ → Option Bytes) (name : Bytes) (fuel : ℕ) :
    Option (List ℕ) := do
  let nbucket ← readU32 table 0
  let first ← readU32 table (8 + 4 * (sysvHash name % nbucket).toNat)
  let chainAt (y : ℕ) := readU32 table (8 + 4 * nbucket.toNat + 4 * y)
  sysvWalk chainAt symbolName name fuel first.toNat

/-- No entry of the dynamic section names the table when the section is
empty, and nothing is looked up. -/
def sysvSectionLookup (section_ : Bytes) (symbolName : ℕ → Option Bytes) (name : Bytes)
    (fuel : ℕ) : Option (List ℕ) :=
  if section_.isEmpty then some [] else sysvLookup section_ symbolName name fuel

/-! ## The GNU table -/

def gnuHash (name : Bytes) : UInt32 :=
  name.foldl (fun hash byte => hash * 33 + byte.toUInt32) 5381

/-- From one symbol on, up to the word that is marked as the last. -/
def gnuWalk (chainAt : ℕ → Option UInt32) (hash : UInt32) (symbolName : ℕ → Option Bytes)
    (name : Bytes) : ℕ → ℕ → Option (List ℕ)
  | 0, _ => none
  | fuel + 1, y => do
      let word ← chainAt y
      let rest ← (if word &&& 1 = 1 then some [] else
        gnuWalk chainAt hash symbolName name fuel (y + 1))
      return if (word ^^^ hash) >>> 1 = 0 ∧ symbolName y = some name then y :: rest else rest

/-- Whether both bits of a hash are set in a word of the Bloom filter. -/
def bloomAccepts (word : UInt64) (hash bloomShift : UInt32) : Bool :=
  word.toNat.testBit (hash % 64).toNat && word.toNat.testBit ((hash >>> bloomShift) % 64).toNat

def gnuLookup (table : Bytes) (symbolName : ℕ → Option Bytes) (name : Bytes) (fuel : ℕ) :
    Option (List ℕ) := do
  let nbuckets ← readU32 table 0
  let symoffset ← readU32 table 4
  let bloomSize ← readU32 table 8
  let bloomShift ← readU32 table 12
  let hash := gnuHash name
  let word ← readU64 table (16 + 8 * (hash / 64 % bloomSize).toNat)
  if bloomAccepts word hash bloomShift then
    let bucketsAt := 16 + 8 * bloomSize.toNat
    let first ← readU32 table (bucketsAt + 4 * (hash % nbuckets).toNat)
    if first = 0 then return []
    let chainAt (y : ℕ) := if y < symoffset.toNat then none else
      readU32 table (bucketsAt + 4 * nbuckets.toNat + 4 * (y - symoffset.toNat))
    gnuWalk chainAt hash symbolName name fuel first.toNat
  else return []

/-! ## Reading what has been written -/

theorem ofLeBytes_leBytes (size value : ℕ) (h : value < 256 ^ size) :
    ofLeBytes (leBytes value size) = value := by
  induction size generalizing value with
  | zero =>
    have hzero : value = 0 := by simpa using h
    subst hzero
    rfl
  | succ size ih =>
    have hdiv : value / 256 < 256 ^ size := by
      rw [Nat.div_lt_iff_lt_mul (by decide)]
      exact h
    rw [leBytes, ofLeBytes, ih _ hdiv]
    have hbyte : (UInt8.ofNat (value % 256)).toNat = value % 256 := by
      exact Nat.mod_mod _ _
    rw [hbyte]
    exact Nat.mod_add_div value 256

theorem length_u32Bytes (word : UInt32) : (u32Bytes word).length = 4 :=
  Incremental.length_leBytes _ _

theorem length_u64Bytes (word : UInt64) : (u64Bytes word).length = 8 :=
  Incremental.length_leBytes _ _

variable {word : UInt32}

theorem readU32_flatMap {words : List UInt32} {i : ℕ} (h : words[i]? = some word) :
    readU32 (words.flatMap u32Bytes) (4 * i) = some word := by
  rw [readU32, Store.fieldAt_flatMap length_u32Bytes h, Option.map_some, u32Bytes,
    ofLeBytes_leBytes 4 _ (UInt32.toNat_lt _), UInt32.ofNat_toNat]

theorem readU64_flatMap {words : List UInt64} {i : ℕ} {word : UInt64} (h : words[i]? = some word) :
    readU64 (words.flatMap u64Bytes) (8 * i) = some word := by
  rw [readU64, Store.fieldAt_flatMap length_u64Bytes h, Option.map_some, u64Bytes,
    ofLeBytes_leBytes 8 _ (UInt64.toNat_lt _), UInt64.ofNat_toNat]

theorem readU32_append_right (header table : Bytes) (offset : ℕ) :
    readU32 (header ++ table) (header.length + offset) = readU32 table offset := by
  rw [readU32, Store.fieldAt_append_right, readU32]

theorem readU64_append_right (header table : Bytes) (offset : ℕ) :
    readU64 (header ++ table) (header.length + offset) = readU64 table offset := by
  rw [readU64, Store.fieldAt_append_right, readU64]

variable {offset : ℕ} {table : Bytes}

theorem readU32_append_left (rest : Bytes)
    (h : readU32 table offset = some word) : readU32 (table ++ rest) offset = some word := by
  have hle : offset + 4 ≤ table.length := by
    by_contra hgt
    rw [readU32, Store.fieldAt, if_neg hgt] at h
    cases h
  rw [readU32, Store.fieldAt_append_left _ _ hle]
  exact h

theorem readU64_append_left (rest : Bytes) {word : UInt64}
    (h : readU64 table offset = some word) : readU64 (table ++ rest) offset = some word := by
  have hle : offset + 8 ≤ table.length := by
    by_contra hgt
    rw [readU64, Store.fieldAt, if_neg hgt] at h
    cases h
  rw [readU64, Store.fieldAt_append_left _ _ hle]
  exact h

end Sld.Dynamic
