/-
# `Symbols.SymbolDb` — global names and their alternative definitions

Every loaded global symbol is registered under its plain name when it is the
default version of that name, and under `name@version` when it has one; a
default-versioned definition `foo@@V` is registered under both.  Names are
spread over buckets by their hash.  A bucket keeps the first symbol of each
name and, for names with more than one symbol, the list of the others.

When it is known which objects are loaded, the lists are resolved: each
selects one of its symbols and makes it the definition of all of them.  The
buckets work in parallel and each takes its lists in the order of a hash
table, the plain ones before the versioned ones, so the order of the lists
is not known (`IsSchedule`).
-/
import Mathlib.Data.UInt

namespace Sld.Symbols

abbrev Bytes := List UInt8

abbrev SymbolId := Nat

/-- A global definition as an object offers it. -/
structure GlobalSymbol where
  id : SymbolId
  name : Bytes
  isDefault : Bool
  version : Option Bytes

/-! ## Buckets -/

/-- One of the two tables of a bucket: the first symbol of each name, and
the other symbols of a name by its first. -/
structure NameTable (κ : Type) where
  nameToId : List (κ × SymbolId)
  alternativeDefinitions : List (SymbolId × List SymbolId)

def NameTable.empty {κ : Type} : NameTable κ := ⟨[], []⟩

/-- `entry(first).or_default().push(new)` -/
def pushAlternative (first new : SymbolId) (alternatives : List (SymbolId × List SymbolId)) :
    List (SymbolId × List SymbolId) :=
  if alternatives.any (·.1 = first) then
    alternatives.map fun p => if p.1 = first then (p.1, p.2 ++ [new]) else p
  else alternatives ++ [(first, [new])]

/-- `add_symbol` and `add_versioned_symbol` -/
def NameTable.add {κ : Type} [DecidableEq κ] (table : NameTable κ) (pending : κ × SymbolId) :
    NameTable κ :=
  match table.nameToId.find? (·.1 = pending.1) with
  | some entry =>
    { table with
      alternativeDefinitions :=
        pushAlternative entry.2 pending.2 table.alternativeDefinitions }
  | none => { table with nameToId := table.nameToId ++ [pending] }

structure SymbolBucket where
  names : NameTable Bytes
  versionedNames : NameTable (Bytes × Bytes)

section

variable (hashBytes : Bytes → UInt64) (numBuckets : Nat) (symbols : List GlobalSymbol)

/-- The hash of `name@version`. -/
def versionedHash (name : Bytes × Bytes) : UInt64 := hashBytes name.1 ^^^ hashBytes name.2

/-- `add_non_versioned` over the symbols, as the pending symbols of all buckets. -/
def pendingSymbols : List (Bytes × SymbolId) :=
  symbols.filterMap fun s => if s.isDefault then some (s.name, s.id) else none

/-- `add_versioned` over the symbols. -/
def pendingVersionedSymbols : List ((Bytes × Bytes) × SymbolId) :=
  symbols.filterMap fun s => s.version.map fun version => ((s.name, version), s.id)

/-- `populate_symbol_db` for one bucket. -/
def populateBucket (bucket : Nat) : SymbolBucket where
  names := ((pendingSymbols symbols).filter fun p =>
    (hashBytes p.1).toNat % numBuckets = bucket).foldl .add .empty
  versionedNames := ((pendingVersionedSymbols symbols).filter fun p =>
    (versionedHash hashBytes p.1).toNat % numBuckets = bucket).foldl .add .empty

/-- A list that is to be resolved, and the bucket it lies in. -/
structure AlternativeList where
  bucket : Nat
  versioned : Bool
  first : SymbolId
  alternatives : List SymbolId
  deriving DecidableEq

def AlternativeList.ids (l : AlternativeList) : List SymbolId := l.first :: l.alternatives

/-- The lists of all buckets. -/
def alternativeLists : List AlternativeList :=
  (List.range numBuckets).flatMap fun bucket =>
    (populateBucket hashBytes numBuckets symbols bucket).names.alternativeDefinitions.map
        (fun p => ⟨bucket, false, p.1, p.2⟩) ++
      (populateBucket hashBytes numBuckets symbols bucket).versionedNames.alternativeDefinitions.map
        (fun p => ⟨bucket, true, p.1, p.2⟩)

/-- An order in which the lists may be processed: a bucket takes its plain
lists, in any order, before its versioned lists. -/
structure IsSchedule (lists : List AlternativeList) : Prop where
  perm : lists.Perm (alternativeLists hashBytes numBuckets symbols)
  plainFirst : lists.Pairwise fun earlier later =>
    ¬ (earlier.bucket = later.bucket ∧ earlier.versioned = true ∧ later.versioned = false)

end

/-! ## What is known of a symbol -/

inductive Visibility where
  | default
  | protect
  | hidden
  deriving DecidableEq

/-- `max` of the derived order. -/
def Visibility.max : Visibility → Visibility → Visibility
  | .hidden, _ | _, .hidden => .hidden
  | .protect, _ | _, .protect => .protect
  | .default, .default => .default

inductive SymbolStrength where
  | undefined
  | weak
  | gnuUnique
  | strong
  | common (size : UInt64)
  deriving DecidableEq

/-- The flags that the resolution of alternatives reads or sets. -/
structure ValueFlags where
  dynamic : Bool
  nonInterposable : Bool
  downgradeToLocal : Bool

/-- The loaded objects, as far as they are asked about a symbol. -/
structure SymbolDb where
  symbolStrength : SymbolId → SymbolStrength
  inputSymbolVisibility : SymbolId → Visibility
  isInComdatGroup : SymbolId → Bool
  allowDuplicateDefinition : SymbolId → SymbolId → Bool
  allowMultipleDefinitions : Bool
  symbolNameForDisplay : SymbolId → String
  fileOfSymbol : SymbolId → String

/-! ## Selection -/

structure SymbolPrioritySelector where
  firstStrong : Option SymbolId := none
  maxCommon : Option (UInt64 × SymbolId) := none
  firstWeak : Option SymbolId := none

namespace SymbolPrioritySelector

def consider (selector : SymbolPrioritySelector) (id : SymbolId) :
    SymbolStrength → SymbolPrioritySelector
  | .strong =>
    if selector.firstStrong.isNone then { selector with firstStrong := some id } else selector
  | .weak | .gnuUnique =>
    if selector.firstWeak.isNone then { selector with firstWeak := some id } else selector
  | .common size =>
    match selector.maxCommon with
    | some (prevSize, _) =>
      if size ≤ prevSize then selector else { selector with maxCommon := some (size, id) }
    | none => { selector with maxCommon := some (size, id) }
  | .undefined => selector

/-- Strong, then the largest common, then weak. -/
def best (selector : SymbolPrioritySelector) : Option SymbolId :=
  selector.firstStrong <|> selector.maxCommon.map (·.2) <|> selector.firstWeak

end SymbolPrioritySelector

section

variable (db : SymbolDb) (flags : SymbolId → ValueFlags)

/-- Whether a second strong definition is an error. -/
def isDuplicate (existing id : SymbolId) : Bool :=
  (!db.isInComdatGroup existing || !db.isInComdatGroup id) &&
    !db.allowDuplicateDefinition existing id && !db.allowMultipleDefinitions

/-- The first pass of `select_symbol`, over the symbols that are not dynamic. -/
def considerAll (first : SymbolId) :
    SymbolPrioritySelector → List SymbolId → Except String SymbolPrioritySelector
  | selector, [] => pure selector
  | selector, id :: ids =>
    if (flags id).dynamic then considerAll first selector ids
    else
      let strength := db.symbolStrength id
      match (if strength = .strong then selector.firstStrong else none) with
      | none => considerAll first (selector.consider id strength) ids
      | some existing =>
        if isDuplicate db existing id then
          throw <| s!"{db.symbolNameForDisplay first}, defined in " ++
            s!"{db.fileOfSymbol existing} and {db.fileOfSymbol id}"
        else considerAll first (selector.consider id strength) ids

def selectSymbol (first : SymbolId) (alternatives : List SymbolId) : Except String SymbolId := do
  let selector ← considerAll db flags first {} (first :: alternatives)
  match selector.best with
  | some best => pure best
  | none =>
    -- only shared objects define it: the first of their definitions
    pure (((first :: alternatives).find? fun id =>
      db.symbolStrength id ≠ .undefined).getD first)

end

/-! ## Resolution -/

/-- The tables that are written while the lists are resolved. -/
structure Resolution where
  definitions : SymbolId → SymbolId
  flags : SymbolId → ValueFlags
  errors : List String

/-- One atomic update for each symbol of a list. -/
def updateEach {α : Type} (f : α → α) (ids : List SymbolId) (table : SymbolId → α) :
    SymbolId → α :=
  ids.foldl (fun table id => Function.update table id (f (table id))) table

def handleNonDefaultVisibility (visibility : Visibility) (flags : ValueFlags) : ValueFlags :=
  match visibility with
  | .hidden =>
    if !flags.dynamic then { flags with nonInterposable := true, downgradeToLocal := true }
    else flags
  | .protect => if !flags.dynamic then { flags with nonInterposable := true } else flags
  | .default => flags

/-- The most restrictive visibility of a list. -/
def listVisibility (db : SymbolDb) (l : AlternativeList) : Visibility :=
  l.alternatives.foldl (fun visibility id => visibility.max (db.inputSymbolVisibility id))
    (db.inputSymbolVisibility l.first)

/-- `process_alternatives` on one list. -/
def processAlternatives (db : SymbolDb) (r : Resolution) (l : AlternativeList) : Resolution :=
  match selectSymbol db r.flags l.first l.alternatives with
  | .ok selected =>
    { r with
      definitions := updateEach (fun _ => selected) l.ids r.definitions
      flags :=
        if listVisibility db l ≠ .default then
          updateEach (handleNonDefaultVisibility (listVisibility db l)) l.ids r.flags
        else r.flags }
  | .error e => { r with errors := r.errors ++ [e] }

/-- `resolve_alternative_symbol_definitions`, with the lists in the order of a schedule. -/
def resolveAlternativeSymbolDefinitions (db : SymbolDb) (r : Resolution)
    (lists : List AlternativeList) : Except String Resolution :=
  let resolved := lists.foldl (processAlternatives db) r
  if resolved.errors = [] then pure resolved
  else throw ("Duplicate symbols detected: " ++
    "\n".intercalate (resolved.errors.mergeSort fun a b => a ≤ b))

def Resolution.definition (r : Resolution) (id : SymbolId) : SymbolId :=
  r.definitions (r.definitions id)

end Sld.Symbols
