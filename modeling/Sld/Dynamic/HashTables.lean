/-
# `Dynamic.HashTables` — `.hash` and `.gnu.hash` of the output

The dynamic symbols that the output defines come last in `.dynsym`, after
the null entry and the undefined symbols.  For `.gnu.hash` they are sorted
by bucket.  Sizes are allocated when their number is known, the first index
when addresses are, and the tables are written into the allocated bytes.

The hash functions of the object library and the version script are
parameters.
-/
import Mathlib.Data.Nat.Log
import Sld.Dynamic.HashAbi
import Sld.Symbols.Inputs

namespace Sld.Dynamic

open Symbols (RawSymbolName)

abbrev SymbolId := UInt32

/-- `object::elf::hash` and `object::elf::gnu_hash`: the hash functions of
the System V ABI and of GNU. -/
structure ElfHashes where
  hash : Bytes → UInt32
  gnuHash : Bytes → UInt32
  hash_eq : ∀ name, hash name = sysvHash name
  gnuHash_eq : ∀ name, gnuHash name = Dynamic.gnuHash name

structure VersionScript where
  versionCount : ℕ
  versionForSymbol : Bytes → Option Bytes → Except String (Option UInt16)

def verNdxGlobal : UInt16 := 1

def versymHidden : UInt16 := 0x8000

structure DynamicSymbolDefinition where
  symbolId : SymbolId
  name : Bytes
  hash : UInt32
  version : UInt16

/-- `create_dynamic_symbol_definition`, for the raw name of the symbol. -/
def createDynamicSymbolDefinition (hashes : ElfHashes) (script : VersionScript)
    (symbolName : SymbolId → Except String Bytes) (symbolId : SymbolId) :
    Except String DynamicSymbolDefinition := do
  let nameBytes ← symbolName symbolId
  let raw := RawSymbolName.parse nameBytes
  let found ← (if 0 < script.versionCount then script.versionForSymbol raw.name raw.versionName
    else .ok none)
  let version := match found with
    | some v => if raw.isDefault then v else v ||| versymHidden
    | none => verNdxGlobal
  return ⟨symbolId, raw.name, hashes.gnuHash raw.name, version⟩

/-! ## Options -/

inductive HashStyle where
  | gnu
  | sysv
  | both

def HashStyle.includesGnu : HashStyle → Bool
  | .gnu | .both => true
  | .sysv => false

def HashStyle.includesSysv : HashStyle → Bool
  | .sysv | .both => true
  | .gnu => false

inductive RelocationModel where
  | nonRelocatable
  | relocatable
  deriving DecidableEq

inductive OutputKind where
  | staticExecutable (model : RelocationModel)
  | dynamicExecutable (model : RelocationModel)
  | sharedObject
  | relocatable
  deriving DecidableEq

def OutputKind.needsDynsym : OutputKind → Bool
  | .dynamicExecutable _ | .sharedObject | .staticExecutable .relocatable => true
  | _ => false

def OutputKind.needsDynamic : OutputKind → Bool
  | .staticExecutable .nonRelocatable | .relocatable => false
  | _ => true

/-! ## Layout -/

structure GnuHashLayout where
  numDefs : UInt32
  bucketCount : UInt32
  bloomShift : UInt32
  bloomCount : UInt32
  symbolBase : UInt32

structure SysvHashLayout where
  bucketCount : UInt32
  chainCount : UInt32

def nextPowerOfTwo (n : ℕ) : ℕ := 2 ^ Nat.clog 2 n

/-- `create_gnu_hash_layout`, without the sorting -/
def createGnuHashLayout (style : HashStyle) (outputKind : OutputKind) (numDefs : ℕ) :
    Option GnuHashLayout :=
  if !style.includesGnu || !outputKind.needsDynamic then none
  else some
    { numDefs := UInt32.ofNat numDefs
      bucketCount := UInt32.ofNat (nextPowerOfTwo (numDefs / 2))
      bloomShift := 6
      bloomCount := 1
      symbolBase := 0 }

def GnuHashLayout.bucketForHash (layout : GnuHashLayout) (hash : UInt32) : UInt32 :=
  hash % layout.bucketCount

/-- The sorting key is the bucket, then the name. -/
def GnuHashLayout.KeyLe (layout : GnuHashLayout) (d d' : DynamicSymbolDefinition) : Prop :=
  layout.bucketForHash d.hash < layout.bucketForHash d'.hash
    ∨ (layout.bucketForHash d.hash = layout.bucketForHash d'.hash ∧ d.name ≤ d'.name)

/-- What the unstable sort of `create_gnu_hash_layout` may have made of the
definitions. -/
def SortedByBucket (style : HashStyle) (outputKind : OutputKind)
    (merged sorted : List DynamicSymbolDefinition) : Prop :=
  match createGnuHashLayout style outputKind merged.length with
  | none => sorted = merged
  | some layout => sorted.Perm merged ∧ sorted.Pairwise layout.KeyLe

def gnuHashHeaderSize : ℕ := 16

def GnuHashLayout.allocate (layout : GnuHashLayout) : ℕ :=
  gnuHashHeaderSize + 8 * 1 + 4 * layout.bucketCount.toNat + 4 * layout.numDefs.toNat

def symtabEntrySize : ℕ := 24

def tooManyDynamicSymbols : String := "Too many dynamic symbols for .hash"

/-- `u32::try_from`, `u32::checked_add` -/
def checkedU32 (n : ℕ) (message : String) : Except String UInt32 :=
  if n < 2 ^ 32 then .ok (UInt32.ofNat n) else .error message

def SysvHashLayout.byteSize (layout : SysvHashLayout) : Except String ℕ :=
  let words := 2 + layout.bucketCount.toNat + layout.chainCount.toNat
  if words < 2 ^ 64 then .ok (4 * words) else .error tooManyDynamicSymbols

/-- `allocate_sysv_hash`, with the size of `.dynsym` -/
def allocateSysvHash (dynsymSize numDefs : ℕ) : Except String (Option SysvHashLayout × ℕ) :=
  if numDefs = 0 then .ok (none, 0)
  else do
    let bucketCount := UInt32.ofNat (nextPowerOfTwo (max (numDefs / 2) 1))
    let chainCount ← checkedU32 (dynsymSize / symtabEntrySize) tooManyDynamicSymbols
    let layout : SysvHashLayout := ⟨bucketCount, chainCount⟩
    let size ← layout.byteSize
    return (some layout, size)

/-- `apply_late_size_adjustments_epilogue`: the layout of `.hash` and its
size -/
def lateSysvHash (style : HashStyle) (dynsymSize numDefs : ℕ) :
    Except String (Option SysvHashLayout × ℕ) :=
  if style.includesSysv then allocateSysvHash dynsymSize numDefs else .ok (none, 0)

/-- `finalise_layout_epilogue`, for `.hash`: the number of chains is set
again. -/
def finaliseSysvHash (dynsymStartIndex : UInt32) (numDefs : ℕ) :
    Option SysvHashLayout → Except String (Option SysvHashLayout)
  | none => .ok none
  | some layout => do
      let additional := UInt32.ofNat numDefs
      let chainCount ← checkedU32 (dynsymStartIndex.toNat + additional.toNat) tooManyDynamicSymbols
      return some { layout with chainCount := chainCount }

/-- What layout knows about the two tables in the end: sizes are those of
the parts. -/
structure HashLayout where
  gnuHashLayout : Option GnuHashLayout
  sysvHashLayout : Option SysvHashLayout
  dynsymStartIndex : UInt32
  gnuHashSize : ℕ
  sysvHashSize : ℕ

/-- The epilogue from `new_epilogue_layout` to `finalise_layout_epilogue`,
for the number of undefined dynamic symbols and of definitions. -/
def finaliseHashLayout (style : HashStyle) (outputKind : OutputKind) (numUndefined numDefs : ℕ) :
    Except String HashLayout := do
  let gnuHashLayout := createGnuHashLayout style outputKind numDefs
  -- The prelude allocates the null entry, objects and shared objects the undefined symbols.
  let dynsymBefore := (1 + numUndefined) * symtabEntrySize
  let dynsymSize := dynsymBefore
    + if outputKind.needsDynamic then numDefs * symtabEntrySize else 0
  let late ← lateSysvHash style dynsymSize numDefs
  let dynsymStartIndex ← checkedU32 (dynsymBefore / symtabEntrySize) "Too many dynamic symbols"
  let sysvHashLayout ← finaliseSysvHash dynsymStartIndex numDefs late.1
  return {
    gnuHashLayout := gnuHashLayout.map fun layout => { layout with symbolBase := dynsymStartIndex }
    sysvHashLayout := sysvHashLayout
    dynsymStartIndex := dynsymStartIndex
    gnuHashSize := (gnuHashLayout.map GnuHashLayout.allocate).getD 0
    sysvHashSize := late.2 }

/-! ## Writing -/

/-- `slice[i] = value` -/
def setAt {α : Type} (slice : List α) (i : ℕ) (value : α) : Except String (List α) :=
  if i < slice.length then .ok (slice.set i value) else .error "index out of bounds"

structure GnuTables where
  bloom : List UInt64
  buckets : List UInt32
  chains : List UInt32

/-- The two bits of a hash in its word of the Bloom filter. -/
def GnuHashLayout.bloomBits (layout : GnuHashLayout) (hash : UInt32) : UInt64 :=
  (1 <<< (hash % 64).toUInt64) ||| (1 <<< ((hash >>> layout.bloomShift) % 64).toUInt64)

/-- Bit 0 of a chain word marks the last symbol of a bucket. -/
def chainWord (hash : UInt32) (lastInChain : Bool) : UInt32 :=
  if lastInChain then (hash &&& ~~~1) ||| 1 else hash &&& ~~~1

/-- Whether the next definition, if any, has another bucket. -/
def GnuHashLayout.lastInChain (layout : GnuHashLayout) (bucket : UInt32) :
    List DynamicSymbolDefinition → Bool
  | [] => true
  | next :: _ => layout.bucketForHash next.hash ≠ bucket

/-- The loop of `write_gnu_hash_tables`, from definition number `i` on. -/
def GnuHashLayout.writeChains (layout : GnuHashLayout) :
    ℕ → Bool → List DynamicSymbolDefinition → GnuTables → Except String GnuTables
  | _, _, [], tables => .ok tables
  | i, startOfChain, symDef :: rest, tables => do
      let hash := symDef.hash
      let bloomIndex := (hash / 64 % layout.bloomCount).toNat
      let bloom ← setAt tables.bloom bloomIndex
        ((tables.bloom[bloomIndex]?).getD 0 ||| layout.bloomBits hash)
      let bucket := layout.bucketForHash hash
      let buckets ← (if startOfChain then
          setAt tables.buckets bucket.toNat (UInt32.ofNat i + layout.symbolBase)
        else .ok tables.buckets)
      let last := layout.lastInChain bucket rest
      writeChains layout (i + 1) last rest
        ⟨bloom, buckets, tables.chains ++ [chainWord hash last]⟩

/-- `write_gnu_hash_tables`, into a buffer of a given length -/
def writeGnuHashTables (gnuHashLayout : Option GnuHashLayout)
    (symDefs : List DynamicSymbolDefinition) (buffer : Bytes) : Except String Bytes :=
  match gnuHashLayout with
  | none => .ok buffer
  | some layout => do
      if buffer.length < gnuHashHeaderSize then throw "Insufficient .gnu.hash allocation"
      let header := [layout.bucketCount, layout.symbolBase, layout.bloomCount, layout.bloomShift]
      let rest := buffer.drop gnuHashHeaderSize
      let bloomCount := layout.bloomCount.toNat
      if rest.length < 8 * bloomCount then throw "Insufficient bytes for .gnu.hash bloom filter"
      let rest := rest.drop (8 * bloomCount)
      let bucketCount := layout.bucketCount.toNat
      if rest.length < 4 * bucketCount then throw "Insufficient bytes for .gnu.hash buckets"
      let rest := rest.drop (4 * bucketCount)
      if rest.length < 4 * symDefs.length then throw "Insufficient bytes for .gnu.hash chains"
      let rest := rest.drop (4 * symDefs.length)
      let tables ← layout.writeChains 0 true symDefs
        ⟨.replicate bloomCount 0, .replicate bucketCount 0, []⟩
      return header.flatMap u32Bytes ++ (tables.bloom.flatMap u64Bytes
        ++ (tables.buckets.flatMap u32Bytes ++ (tables.chains.flatMap u32Bytes ++ rest)))

structure SysvTables where
  buckets : List UInt32
  chains : List UInt32
  lastInBucket : List (Option ℕ)

/-- One turn of the loop of `write_sysv_hash_table`: the symbol at an index
of `.dynsym` is put into its bucket. -/
def SysvTables.push (tables : SysvTables) (bucket : ℕ) (symIndex : UInt32) :
    Except String SysvTables := do
  let lastInBucket ← setAt tables.lastInBucket bucket (some symIndex.toNat)
  if (tables.buckets[bucket]?).getD 0 = 0 then
    let buckets ← setAt tables.buckets bucket symIndex
    return { tables with buckets := buckets, lastInBucket := lastInBucket }
  else
    match (tables.lastInBucket[bucket]?).join with
    | none => throw "Invalid .hash bucket chain construction"
    | some last =>
      let chains ← setAt tables.chains last symIndex
      return { tables with chains := chains, lastInBucket := lastInBucket }

/-- The loop of `write_sysv_hash_table`, from definition number `i` on. -/
def SysvHashLayout.writeSymbols (layout : SysvHashLayout) (hashes : ElfHashes)
    (dynsymStartIndex : UInt32) : ℕ → List DynamicSymbolDefinition → SysvTables →
    Except String SysvTables
  | _, [], tables => .ok tables
  | i, symDef :: rest, tables => do
      let symIndex ← checkedU32 (dynsymStartIndex.toNat + i) tooManyDynamicSymbols
      let bucket := (hashes.hash symDef.name % layout.bucketCount).toNat
      let tables ← tables.push bucket symIndex
      writeSymbols layout hashes dynsymStartIndex (i + 1) rest tables

/-- `write_sysv_hash_table`, into a buffer of a given length -/
def writeSysvHashTable (hashes : ElfHashes) (sysvHashLayout : Option SysvHashLayout)
    (dynsymStartIndex : UInt32) (symDefs : List DynamicSymbolDefinition) (buffer : Bytes) :
    Except String Bytes :=
  match sysvHashLayout with
  | none => .ok buffer
  | some layout =>
    let bucketCount := layout.bucketCount.toNat
    let chainCount := layout.chainCount.toNat
    if bucketCount = 0 ∨ chainCount = 0 then .ok buffer
    else do
      let requiredBytes := 4 * (2 + bucketCount + chainCount)
      if buffer.length < requiredBytes then throw "Insufficient .hash allocation"
      let tables ← layout.writeSymbols hashes dynsymStartIndex 0 symDefs
        ⟨.replicate bucketCount 0, .replicate chainCount 0, .replicate bucketCount none⟩
      return [layout.bucketCount, layout.chainCount].flatMap u32Bytes
        ++ (tables.buckets.flatMap u32Bytes ++ (tables.chains.flatMap u32Bytes
          ++ buffer.drop requiredBytes))

/-! ## The whole -/

/-- The bytes that the parts had before, of the sizes that were allocated. -/
structure HashBuffers (layout : HashLayout) where
  gnuHash : Bytes
  sysvHash : Bytes
  length_gnuHash : gnuHash.length = layout.gnuHashSize
  length_sysvHash : sysvHash.length = layout.sysvHashSize

structure HashSections where
  gnuHash : Bytes
  sysvHash : Bytes

/-- The two tables as `write_epilogue` writes them. -/
def writeHashTables (hashes : ElfHashes) (layout : HashLayout)
    (symDefs : List DynamicSymbolDefinition) (buffers : HashBuffers layout) :
    Except String HashSections := do
  let sysvHash ← writeSysvHashTable hashes layout.sysvHashLayout layout.dynsymStartIndex symDefs
    buffers.sysvHash
  let gnuHash ← writeGnuHashTables layout.gnuHashLayout symDefs buffers.gnuHash
  return ⟨gnuHash, sysvHash⟩

/-- The names of the entries of `.dynsym`. -/
def dynsymNames (undefinedNames : List Bytes) (symDefs : List DynamicSymbolDefinition) :
    List Bytes :=
  [] :: (undefinedNames ++ symDefs.map (·.name))

end Sld.Dynamic
