/-
# `Dynamic.SymbolIndices` — the entries are where layout has put them

What a file writes follows from the resolutions that layout gave its
symbols, in the same order and one entry for each index.

    fileEntries      the entries that a file writes
    layoutFile_…     layout numbers exactly these entries
    Wrote            one step of a writer: entries, and a version for each
    writeFile_wrote  a file writes exactly its entries
-/
import Mathlib.Algebra.BigOperators.Ring.List
import Mathlib.Algebra.Order.BigOperators.Group.List
import Mathlib.Algebra.Order.Group.Nat
import Sld.Dynamic.SymbolTables

namespace Sld.Dynamic

open DynamicOutput
open List (append_nil dvd_sum length_append length_cons map_cons mem_cons_self mem_map sum_cons)
open Text.Reader (bind_eq_ok)
open TableWriter (empty setNextSymbolVersion)
open Except (ok)

/-! ## Numbered entries -/

theorem numberedFrom_append (index : ℕ) (entries entries' : List DynsymEntry) :
    numberedFrom index (entries ++ entries')
      = numberedFrom index entries ++ numberedFrom (index + entries.length) entries' := by
  induction entries generalizing index with
  | nil => rfl
  | cons entry entries ih =>
    rw [List.cons_append, numberedFrom, numberedFrom, ih, length_cons, List.cons_append,
      Nat.add_right_comm, Nat.add_assoc]

theorem mem_numberedFrom {index k : ℕ} {entries : List DynsymEntry} {entry : DynsymEntry} :
    (k, entry) ∈ numberedFrom index entries ↔ ∃ i, entries[i]? = some entry ∧ k = index + i := by
  induction entries generalizing index with
  | nil => exact iff_of_false List.not_mem_nil fun ⟨i, hi, _⟩ => by cases hi
  | cons head entries ih =>
    rw [numberedFrom, List.mem_cons, ih]
    constructor
    · rintro (heq | ⟨i, hi, rfl⟩)
      · obtain ⟨rfl, rfl⟩ := Prod.mk.inj heq
        exact ⟨0, rfl, rfl⟩
      · exact ⟨i + 1, hi, by omega⟩
    · rintro ⟨i, hi, rfl⟩
      cases i with
      | zero =>
        obtain rfl : head = entry := Option.some.inj hi
        exact .inl rfl
      | succ i => exact .inr ⟨i, hi, by omega⟩

/-! ## The entries of a file -/

/-- The resolutions that are written as undefined symbols. -/
def undefinedEntries (keep : Resolution → Bool) : ℕ → List (Option Resolution) → List DynsymEntry
  | _, [] => []
  | symbolId, none :: rest => undefinedEntries keep (symbolId + 1) rest
  | symbolId, some res :: rest =>
    if keep res then .undefined symbolId :: undefinedEntries keep (symbolId + 1) rest
    else undefinedEntries keep (symbolId + 1) rest

def writtenByObject (res : Resolution) : Bool := res.state.isDynamic

def writtenByShared (res : Resolution) : Bool := !res.state.needsCopyRelocation

namespace DynamicOutput

variable {output : DynamicOutput}

def fileEntries (output : DynamicOutput) (layout : FileLayout) : List DynsymEntry :=
  match layout.file.kind with
  | .prelude => if output.outputKind.needsDynsym then [.null] else []
  | .object => undefinedEntries writtenByObject layout.file.startSymbolId layout.resolutions
  | .dynamic _ _ => undefinedEntries writtenByShared layout.file.startSymbolId layout.resolutions
  | .linkerScript | .syntheticSymbols | .notLoaded => []

/-! ## Layout -/

/-- The offset at which the next entry gets an index. -/
def offsetOf (output : DynamicOutput) (index : ℕ) : ℕ :=
  output.dynsymAddress + index * symtabEntrySize

theorem offsetOf_add (index n : ℕ) :
    output.offsetOf index + n * symtabEntrySize = output.offsetOf (index + n) := by
  rw [offsetOf, offsetOf, Nat.add_mul, Nat.add_assoc]

variable {index : ℕ}

theorem takeDynsymIndex_eq_ok {taken : ℕ × ℕ}
    (h : output.takeDynsymIndex (output.offsetOf index) = .ok taken) :
    taken = (index, output.offsetOf (index + 1)) := by
  have hindex : (output.offsetOf index - output.dynsymAddress) / symtabEntrySize = index := by
    rw [offsetOf, Nat.add_sub_cancel_left]
    exact Nat.mul_div_cancel _ (by decide)
  have hnext : output.offsetOf index + symtabEntrySize = output.offsetOf (index + 1) := by
    rw [← offsetOf_add, Nat.one_mul]
  unfold takeDynsymIndex at h
  rw [hindex, hnext] at h
  by_cases hlt : index < 2 ^ 32
  · rw [if_pos hlt] at h
    exact (ok.inj h).symm
  · rw [if_neg hlt] at h
    cases h

theorem nonZeroIndex_eq_ok {taken taken' : ℕ × ℕ} (h : nonZeroIndex taken = .ok taken') :
    taken' = taken := by
  unfold nonZeroIndex at h
  split at h
  · cases h
  · exact (ok.inj h).symm

/-- A symbol takes the next index exactly when it is written, or none. -/
structure Resolves (output : DynamicOutput) (keep : Resolution → Bool)
    (resolve : SymbolState → ℕ → Except String (Option Resolution × ℕ)) : Prop where
  cases : ∀ s index resolved, resolve s (output.offsetOf index) = .ok resolved →
    (∃ res, resolved = (some res, output.offsetOf (index + 1)) ∧ keep res = true
        ∧ res.dynamicSymbolIndex = some index)
      ∨ (resolved.2 = output.offsetOf index
        ∧ ∀ res, resolved.1 = some res → keep res = false ∧ res.dynamicSymbolIndex = none)

theorem resolveObjectSymbol_resolves :
    output.Resolves writtenByObject output.resolveObjectSymbol where
  cases s index resolved h := by
    unfold resolveObjectSymbol at h
    split at h
    · cases h
      exact .inr ⟨rfl, fun res hres => by cases hres⟩
    · split at h
      · cases h
        exact .inr ⟨rfl, fun res hres => by cases hres⟩
      · split at h
        · next hdyn =>
          obtain ⟨taken, htaken, hrest⟩ := bind_eq_ok.mp h
          obtain rfl := takeDynsymIndex_eq_ok htaken
          obtain ⟨taken, hnonzero, hresolved⟩ := bind_eq_ok.mp hrest
          obtain rfl := nonZeroIndex_eq_ok hnonzero
          cases hresolved
          exact .inl ⟨_, rfl, hdyn, rfl⟩
        · next hdyn =>
          cases h
          refine .inr ⟨rfl, fun res hres => ?_⟩
          cases hres
          exact ⟨eq_false_of_ne_true hdyn, rfl⟩

theorem resolveDynamicSymbol_resolves :
    output.Resolves writtenByShared output.resolveDynamicSymbol where
  cases s index resolved h := by
    unfold resolveDynamicSymbol at h
    split at h
    · cases h
      exact .inr ⟨rfl, fun res hres => by cases hres⟩
    · split at h
      · next hcopy =>
        cases h
        refine .inr ⟨rfl, fun res hres => ?_⟩
        cases hres
        exact ⟨by rw [writtenByShared, hcopy]; rfl, rfl⟩
      · next hcopy =>
        obtain ⟨taken, htaken, hrest⟩ := bind_eq_ok.mp h
        obtain rfl := takeDynsymIndex_eq_ok htaken
        obtain ⟨taken, hnonzero, hresolved⟩ := bind_eq_ok.mp hrest
        obtain rfl := nonZeroIndex_eq_ok hnonzero
        cases hresolved
        exact .inl ⟨_, rfl, by rw [writtenByShared, eq_false_of_ne_true hcopy]; rfl, rfl⟩

theorem resolveSymbols_spec {keep : Resolution → Bool}
    {resolve : SymbolState → ℕ → Except String (Option Resolution × ℕ)}
    (hresolve : output.Resolves keep resolve) {symbols : List SymbolState} {symbolId index : ℕ}
    {resolved : List (Option Resolution) × ℕ}
    (h : resolveSymbols resolve symbols (output.offsetOf index) = .ok resolved) :
    resolved.2 = output.offsetOf (index + (undefinedEntries keep symbolId resolved.1).length)
      ∧ assignedSymbols symbolId resolved.1
        = numberedFrom index (undefinedEntries keep symbolId resolved.1) := by
  induction symbols generalizing symbolId index resolved with
  | nil =>
    cases h
    exact ⟨rfl, rfl⟩
  | cons s symbols ih =>
    unfold resolveSymbols at h
    obtain ⟨first, hfirst, h⟩ := bind_eq_ok.mp h
    obtain ⟨rest, hrest, h⟩ := bind_eq_ok.mp h
    cases h
    rcases hresolve.cases s index first hfirst with ⟨res, rfl, hkeep, hindex⟩ | ⟨hoff, hnone⟩
    · obtain ⟨hend, hassign⟩ := @ih (symbolId + 1) (index + 1) rest hrest
      have hentries : undefinedEntries keep symbolId (some res :: rest.1)
          = .undefined symbolId :: undefinedEntries keep (symbolId + 1) rest.1 := if_pos hkeep
      show rest.2 = _ ∧ assignedSymbols symbolId (some res :: rest.1) = _
      rw [hentries, length_cons, hend, assignedSymbols, Option.bind_some, hindex]
      refine ⟨by rw [Nat.add_right_comm, Nat.add_assoc], ?_⟩
      show _ :: assignedSymbols (symbolId + 1) rest.1 = _
      rw [hassign, numberedFrom]
    · rw [hoff] at hrest
      obtain ⟨hend, hassign⟩ := @ih (symbolId + 1) index rest hrest
      cases hres : first.1 with
      | none => exact ⟨hend, hassign⟩
      | some res =>
        obtain ⟨hkeep, hindex⟩ := hnone res hres
        have hentries : undefinedEntries keep symbolId (some res :: rest.1)
            = undefinedEntries keep (symbolId + 1) rest.1 :=
          if_neg (Bool.eq_false_iff.mp hkeep)
        show rest.2 = _ ∧ assignedSymbols symbolId (some res :: rest.1) = _
        rw [hentries, assignedSymbols, Option.bind_some, hindex]
        exact ⟨hend, hassign⟩

variable {offset : ℕ}

theorem length_resolveSymbols {resolve : SymbolState → ℕ → Except String (Option Resolution × ℕ)}
    {symbols : List SymbolState} {resolved : List (Option Resolution) × ℕ}
    (h : resolveSymbols resolve symbols offset = .ok resolved) :
    resolved.1.length = symbols.length := by
  induction symbols generalizing offset resolved with
  | nil =>
    cases h
    rfl
  | cons s symbols ih =>
    obtain ⟨first, -, h⟩ := bind_eq_ok.mp h
    obtain ⟨rest, hrest, h⟩ := bind_eq_ok.mp h
    cases h
    rw [length_cons, length_cons, ih hrest]

/-- A layout of a file in some group, with a resolution for each symbol at
most. -/
def Fits (output : DynamicOutput) (layout : FileLayout) : Prop :=
  layout.file ∈ output.groups.flatten ∧ layout.resolutions.length ≤ layout.file.symbols.length

variable {file : File}

theorem length_layoutFile {result : FileLayout × ℕ}
    (h : output.layoutFile file offset = .ok result) :
    result.1.file = file ∧ result.1.resolutions.length ≤ file.symbols.length := by
  obtain ⟨kind, start, symbols⟩ := file
  cases kind with
  | prelude =>
    simp only [layoutFile] at h
    split at h
    · obtain ⟨taken, -, h⟩ := bind_eq_ok.mp h
      cases h
      exact ⟨rfl, Nat.zero_le _⟩
    · cases h
      exact ⟨rfl, Nat.zero_le _⟩
  | object | dynamic versymIn versionMapping =>
    obtain ⟨resolved, hresolved, h⟩ := bind_eq_ok.mp h
    cases h
    exact ⟨rfl, Nat.le_of_eq (length_resolveSymbols hresolved)⟩
  | linkerScript | syntheticSymbols | notLoaded =>
    cases h
    exact ⟨rfl, Nat.zero_le _⟩

variable {files : List File} {result : List FileLayout × ℕ}

theorem fits_of_layoutFiles (hfiles : ∀ file ∈ files, file ∈ output.groups.flatten)
    (h : output.layoutFiles files offset = .ok result) : ∀ layout ∈ result.1, output.Fits layout := by
  induction files generalizing offset result with
  | nil =>
    cases h
    intro layout hlayout
    cases hlayout
  | cons file files ih =>
    obtain ⟨first, hfirst, h⟩ := bind_eq_ok.mp h
    obtain ⟨rest, hrest, h⟩ := bind_eq_ok.mp h
    cases h
    obtain ⟨hfile, hlen⟩ := length_layoutFile hfirst
    intro layout hlayout
    cases hlayout with
    | head =>
      refine ⟨?_, ?_⟩
      · rw [hfile]
        exact hfiles file mem_cons_self
      · rw [hfile]
        exact hlen
    | tail _ hlayout =>
      exact ih (fun f hf => hfiles f (List.mem_cons_of_mem _ hf)) hrest layout hlayout

theorem layoutFile_spec {result : FileLayout × ℕ}
    (h : output.layoutFile file (output.offsetOf index) = .ok result) :
    result.2 = output.offsetOf (index + (output.fileEntries result.1).length)
      ∧ assignedInFile result.1 = numberedFrom index (output.fileEntries result.1) := by
  obtain ⟨kind, start, symbols⟩ := file
  cases kind with
  | prelude =>
    simp only [layoutFile] at h
    split at h
    · next hneeds =>
      obtain ⟨taken, htaken, h⟩ := bind_eq_ok.mp h
      obtain rfl := takeDynsymIndex_eq_ok htaken
      cases h
      simp only [fileEntries, hneeds, if_true]
      exact ⟨rfl, rfl⟩
    · next hneeds =>
      cases h
      simp only [fileEntries, hneeds]
      exact ⟨rfl, rfl⟩
  | object =>
    obtain ⟨resolved, hresolved, h⟩ := bind_eq_ok.mp h
    cases h
    exact @resolveSymbols_spec output _ _ resolveObjectSymbol_resolves symbols start index _
      hresolved
  | dynamic versymIn versionMapping =>
    obtain ⟨resolved, hresolved, h⟩ := bind_eq_ok.mp h
    cases h
    exact @resolveSymbols_spec output _ _ resolveDynamicSymbol_resolves symbols start index _
      hresolved
  | linkerScript | syntheticSymbols | notLoaded =>
    cases h
    exact ⟨rfl, rfl⟩

theorem layoutFiles_spec (h : output.layoutFiles files (output.offsetOf index) = .ok result) :
    result.1.flatMap assignedInFile = numberedFrom index (result.1.flatMap output.fileEntries) := by
  induction files generalizing index result with
  | nil =>
    cases h
    rfl
  | cons file files ih =>
    unfold layoutFiles at h
    obtain ⟨first, hfirst, h⟩ := bind_eq_ok.mp h
    obtain ⟨rest, hrest, h⟩ := bind_eq_ok.mp h
    cases h
    obtain ⟨hend, hassign⟩ := layoutFile_spec hfirst
    rw [hend] at hrest
    rw [List.flatMap_cons, List.flatMap_cons, numberedFrom_append, hassign, ih hrest]

/-! ## Writing -/

/-- From one state of a writer to another it has written these entries, and
where there is a slice of versions, the version of each. -/
structure Wrote (output : DynamicOutput) (entries : List DynsymEntry) (w w' : TableWriter) : Prop where
  dynsym : w'.dynsym = w.dynsym ++ entries
  dynsymFree : w'.dynsymFree + entries.length = w.dynsymFree
  unversioned : w.versymFree = none → w'.versymFree = none ∧ w'.versym = w.versym
  versioned : ∀ free, w.versymFree = some free → ∃ free' versions,
    w'.versymFree = some free' ∧ free' + versions.length = free ∧ w'.versym = w.versym ++ versions
      ∧ List.Forall₂ (fun entry version => output.versionOf entry = .ok version) entries versions

theorem Wrote.refl (w : TableWriter) : output.Wrote [] w w where
  dynsym := (append_nil _).symm
  dynsymFree := rfl
  unversioned h := ⟨h, rfl⟩
  versioned free h := ⟨free, [], h, rfl, (append_nil _).symm, .nil⟩

variable {entries : List DynsymEntry} {w : TableWriter}

theorem Wrote.trans {entries' : List DynsymEntry} {w' w'' : TableWriter}
    (h : output.Wrote entries w w') (h' : output.Wrote entries' w' w'') :
    output.Wrote (entries ++ entries') w w'' where
  dynsym := by rw [h'.dynsym, h.dynsym, List.append_assoc]
  dynsymFree := by
    have hfirst := h.dynsymFree
    have hsecond := h'.dynsymFree
    rw [length_append]
    omega
  unversioned hnone := by
    obtain ⟨hnone', heq⟩ := h.unversioned hnone
    obtain ⟨hnone'', heq'⟩ := h'.unversioned hnone'
    exact ⟨hnone'', heq'.trans heq⟩
  versioned free hfree := by
    obtain ⟨free', versions, hfree', hlen, heq, hvers⟩ := h.versioned free hfree
    obtain ⟨free'', versions', hfree'', hlen', heq', hvers'⟩ := h'.versioned free' hfree'
    refine ⟨free'', versions ++ versions', hfree'', ?_, ?_, List.rel_append hvers hvers'⟩
    · rw [length_append]
      omega
    · rw [heq', heq, List.append_assoc]

variable {entry : DynsymEntry}

theorem defineSymbol_eq_ok {w' : TableWriter} (h : w.defineSymbol entry = .ok w') :
    0 < w.dynsymFree ∧ w' = { w with dynsym := w.dynsym ++ [entry], dynsymFree := w.dynsymFree - 1 } := by
  unfold TableWriter.defineSymbol at h
  split at h
  · cases h
  · next hfree => exact ⟨Nat.pos_of_ne_zero hfree, (ok.inj h).symm⟩

variable {version : UInt16}

theorem setNextSymbolVersion_eq_ok {w' : TableWriter}
    (h : w.setNextSymbolVersion version = .ok w') :
    (w.versymFree = none ∧ w' = w) ∨ ∃ free, w.versymFree = some (free + 1)
      ∧ w' = { w with versym := w.versym ++ [version], versymFree := some free } := by
  unfold setNextSymbolVersion at h
  split at h
  · next hnone => exact .inl ⟨hnone, (ok.inj h).symm⟩
  · cases h
  · next free hfree => exact .inr ⟨free, hfree, (ok.inj h).symm⟩

theorem wrote_entry {w₁ w₂ : TableWriter} (hsym : w.defineSymbol entry = .ok w₁)
    (hver : w₁.setNextSymbolVersion version = .ok w₂)
    (hof : w.versymFree.isSome = true → output.versionOf entry = .ok version) :
    output.Wrote [entry] w w₂ := by
  obtain ⟨hfree, rfl⟩ := defineSymbol_eq_ok hsym
  rcases setNextSymbolVersion_eq_ok hver with ⟨hnone, rfl⟩ | ⟨free, hsome, rfl⟩
  · refine ⟨rfl, Nat.sub_add_cancel hfree, fun _ => ⟨hnone, rfl⟩, fun free hsome => ?_⟩
    rw [show w.versymFree = none from hnone] at hsome
    cases hsome
  · have hw : w.versymFree = some (free + 1) := hsome
    refine ⟨rfl, Nat.sub_add_cancel hfree, fun hnone => ?_, fun free' hsome' => ?_⟩
    · rw [hw] at hnone
      cases hnone
    · obtain rfl : free + 1 = free' := Option.some.inj (hw.symm.trans hsome')
      exact ⟨free, [version], rfl, rfl, rfl, .cons (hof (by rw [hw]; rfl)) .nil⟩

theorem setNextSymbolVersion_defineSymbol {w₁ w₂ : TableWriter}
    (hver : w.setNextSymbolVersion version = .ok w₁)
    (hsym : w₁.defineSymbol entry = .ok w₂) :
    ∃ w', w.defineSymbol entry = .ok w' ∧ w'.setNextSymbolVersion version = .ok w₂ := by
  obtain ⟨hfree, rfl⟩ := defineSymbol_eq_ok hsym
  rcases setNextSymbolVersion_eq_ok hver with ⟨hnone, rfl⟩ | ⟨free, hsome, rfl⟩
  · refine ⟨_, hsym, ?_⟩
    simp only [setNextSymbolVersion, hnone]
  · have hfree' : w.dynsymFree ≠ 0 := Nat.ne_of_gt hfree
    refine ⟨_, if_neg hfree', ?_⟩
    simp only [setNextSymbolVersion, hsome]

theorem wrote_unversioned {w' : TableWriter}
    (hsym : w.defineSymbol entry = .ok w') (hnone : w.versymFree = none) :
    output.Wrote [entry] w w' := by
  obtain ⟨hfree, rfl⟩ := defineSymbol_eq_ok hsym
  refine ⟨rfl, Nat.sub_add_cancel hfree, fun _ => ⟨hnone, rfl⟩, fun free hsome => ?_⟩
  rw [hnone] at hsome
  cases hsome

variable {i : ℕ}

theorem fileForSymbol_eq (hfile : file ∈ output.groups.flatten) (hi : i < file.symbols.length) :
    output.fileForSymbol (file.startSymbolId + i) = some file := by
  obtain ⟨before, after, hsplit⟩ := List.append_of_mem hfile
  have hnumbered := output.numbered
  rw [hsplit] at hnumbered
  obtain ⟨-, -, hbefore⟩ := List.pairwise_append.mp hnumbered
  unfold fileForSymbol
  rw [hsplit, List.find?_append]
  have hnone : before.find? (·.contains (file.startSymbolId + i)) = none := by
    refine List.find?_eq_none.mpr fun earlier hearlier hcontains => ?_
    have hle := hbefore earlier hearlier file mem_cons_self
    unfold File.Before at hle
    unfold File.contains at hcontains
    simp only [Bool.and_eq_true, decide_eq_true_eq] at hcontains
    omega
  have hfound : file.contains (file.startSymbolId + i) = true := by
    unfold File.contains
    simp only [Bool.and_eq_true, decide_eq_true_eq]
    omega
  simp only [hnone, List.find?_cons, hfound, Option.none_or]

/-- A writer whose versions, if any, are wanted. -/
def Enabled (output : DynamicOutput) (w : TableWriter) : Prop :=
  w.versymFree.isSome = true → output.gnuVersionEnabled = true

theorem Enabled.of_wrote {w' : TableWriter}
    (h : output.Enabled w) (hwrote : output.Wrote entries w w') : output.Enabled w' := by
  intro hsome
  refine h ?_
  cases hfree : w.versymFree with
  | none =>
    rw [(hwrote.unversioned hfree).1] at hsome
    cases hsome
  | some free => rfl

theorem versionOf_undefined (hfile : file ∈ output.groups.flatten)
    (hi : i < file.symbols.length) (hkind : file.kind = .object) :
    output.versionOf (.undefined (file.startSymbolId + i)) = .ok verNdxGlobal := by
  obtain ⟨kind, start, symbols⟩ := file
  obtain rfl : kind = .object := hkind
  show output.fileVersion (start + i) verNdxGlobal = _
  rw [fileVersion, show output.fileForSymbol (start + i) = _ from fileForSymbol_eq hfile hi]

theorem versionOf_undefined_dynamic {versymIn versionMapping : List UInt16}
    (hfile : file ∈ output.groups.flatten) (hi : i < file.symbols.length)
    (hkind : file.kind = .dynamic versymIn versionMapping) :
    output.versionOf (.undefined (file.startSymbolId + i))
      = copySymbolVersion versymIn i versionMapping := by
  obtain ⟨kind, start, symbols⟩ := file
  obtain rfl : kind = .dynamic versymIn versionMapping := hkind
  show output.fileVersion (start + i) verNdxGlobal = _
  rw [fileVersion, show output.fileForSymbol (start + i) = _ from fileForSymbol_eq hfile hi]
  show copySymbolVersion versymIn (start + i - start) versionMapping = _
  rw [Nat.add_sub_cancel_left]

theorem writeObjectSymbols_wrote {file : File} (hfile : file ∈ output.groups.flatten)
    (hkind : file.kind = .object) {resolutions : List (Option Resolution)} {i : ℕ}
    (hlen : i + resolutions.length ≤ file.symbols.length) {w w' : TableWriter}
    (henabled : output.Enabled w)
    (h : writeObjectSymbols output.gnuVersionEnabled (file.startSymbolId + i) resolutions w
      = .ok w') :
    output.Wrote (undefinedEntries writtenByObject (file.startSymbolId + i) resolutions) w w' := by
  induction resolutions generalizing i w with
  | nil =>
    obtain rfl := ok.inj h
    exact .refl w
  | cons res rest ih =>
    rw [length_cons] at hlen
    have hrest : i + 1 + rest.length ≤ file.symbols.length := by omega
    cases res with
    | none => exact ih hrest henabled h
    | some res =>
      unfold writeObjectSymbols at h
      unfold undefinedEntries
      split at h
      · next hdyn =>
        obtain ⟨w₁, hsym, h⟩ := bind_eq_ok.mp h
        obtain ⟨w₂, hver, h⟩ := bind_eq_ok.mp h
        have hentry : output.Wrote [.undefined (file.startSymbolId + i)] w w₂ := by
          cases hgnu : output.gnuVersionEnabled with
          | true =>
            rw [hgnu] at hver
            exact wrote_entry hsym hver fun _ =>
              versionOf_undefined hfile (by omega) hkind
          | false =>
            rw [hgnu] at hver
            obtain rfl := ok.inj hver
            refine wrote_unversioned hsym (Option.not_isSome_iff_eq_none.mp fun hsome => ?_)
            rw [henabled hsome] at hgnu
            cases hgnu
        rw [if_pos (show writtenByObject res = true from hdyn)]
        exact hentry.trans (ih hrest (henabled.of_wrote hentry) h)
      · next hdyn =>
        rw [if_neg (show ¬ writtenByObject res = true from hdyn)]
        exact ih hrest henabled h

theorem writeDynamicSymbols_wrote {file : File} {versymIn versionMapping : List UInt16}
    (hfile : file ∈ output.groups.flatten) (hkind : file.kind = .dynamic versymIn versionMapping)
    {resolutions : List (Option Resolution)} {i : ℕ}
    (hlen : i + resolutions.length ≤ file.symbols.length) {w w' : TableWriter}
    (h : writeDynamicSymbols file.startSymbolId versymIn versionMapping (file.startSymbolId + i)
      resolutions w = .ok w') :
    output.Wrote (undefinedEntries writtenByShared (file.startSymbolId + i) resolutions) w w' := by
  induction resolutions generalizing i w with
  | nil =>
    obtain rfl := ok.inj h
    exact .refl w
  | cons res rest ih =>
    rw [length_cons] at hlen
    have hrest : i + 1 + rest.length ≤ file.symbols.length := by omega
    cases res with
    | none => exact ih hrest h
    | some res =>
      unfold writeDynamicSymbols at h
      unfold undefinedEntries
      split at h
      · next hcopy =>
        rw [if_neg (show ¬ writtenByShared res = true by rw [writtenByShared, hcopy]; decide)]
        exact ih hrest h
      · next hcopy =>
        obtain ⟨w₁, hsym, h⟩ := bind_eq_ok.mp h
        obtain ⟨w₂, hver, h⟩ := bind_eq_ok.mp h
        have hfree : w₁.versymFree = w.versymFree := by
          rw [(defineSymbol_eq_ok hsym).2]
        have hentry : output.Wrote [.undefined (file.startSymbolId + i)] w w₂ := by
          cases hversym : w₁.versymFree with
          | none =>
            rw [hversym] at hver
            obtain rfl := ok.inj hver
            exact wrote_unversioned hsym (hfree.symm.trans hversym)
          | some free =>
            rw [hversym] at hver
            obtain ⟨version, hcopied, hver⟩ := bind_eq_ok.mp hver
            rw [Nat.add_sub_cancel_left] at hcopied
            exact wrote_entry hsym hver fun _ =>
              (versionOf_undefined_dynamic hfile (by omega) hkind).trans hcopied
        rw [if_pos (show writtenByShared res = true by
          rw [writtenByShared, eq_false_of_ne_true hcopy]; decide)]
        exact hentry.trans (ih hrest h)

theorem needsDynsym_of_gnuVersionEnabled (h : output.gnuVersionEnabled = true) :
    output.outputKind.needsDynsym = true := by
  unfold gnuVersionEnabled versionsEmitted shouldOutputSymbolVersions at h
  cases hkind : output.outputKind with
  | staticExecutable model =>
    rw [hkind] at h
    cases h
  | dynamicExecutable model => rfl
  | sharedObject => rfl
  | relocatable =>
    rw [hkind] at h
    cases h

theorem writePrelude_wrote {w' : TableWriter} (henabled : output.Enabled w)
    (h : writePrelude output.gnuVersionEnabled output.outputKind.needsDynsym w = .ok w') :
    output.Wrote (if output.outputKind.needsDynsym then [.null] else []) w w' := by
  obtain ⟨w₁, hver, h⟩ := bind_eq_ok.mp h
  cases hgnu : output.gnuVersionEnabled with
  | true =>
    rw [needsDynsym_of_gnuVersionEnabled hgnu] at h ⊢
    rw [hgnu] at hver
    obtain ⟨w₂, hsym, hver⟩ := setNextSymbolVersion_defineSymbol hver h
    exact wrote_entry hsym hver fun _ => rfl
  | false =>
    rw [hgnu] at hver
    cases hver
    split at h
    · next hneeds =>
      rw [if_pos hneeds]
      refine wrote_unversioned h (Option.not_isSome_iff_eq_none.mp fun hsome => ?_)
      rw [henabled hsome] at hgnu
      cases hgnu
    · next hneeds =>
      rw [if_neg hneeds]
      cases h
      exact .refl w

theorem writeFile_wrote {layout : FileLayout} (hfits : output.Fits layout) {w' : TableWriter}
    (henabled : output.Enabled w) (h : output.writeFile layout w = .ok w') :
    output.Wrote (output.fileEntries layout) w w' := by
  obtain ⟨hfile, hlen⟩ := hfits
  unfold writeFile at h
  unfold fileEntries
  cases hkind : layout.file.kind with
  | prelude =>
    rw [hkind] at h
    exact writePrelude_wrote henabled h
  | object =>
    rw [hkind] at h
    exact @writeObjectSymbols_wrote output _ hfile hkind layout.resolutions 0 (by omega) w w'
      henabled h
  | dynamic versymIn versionMapping =>
    rw [hkind] at h
    exact @writeDynamicSymbols_wrote output _ _ _ hfile hkind layout.resolutions 0 (by omega) w w' h
  | linkerScript | syntheticSymbols | notLoaded =>
    rw [hkind] at h
    cases h
    exact .refl w

theorem writeFiles_wrote {files : List FileLayout}
    (hfiles : ∀ layout ∈ files, output.Fits layout) {w' : TableWriter} (henabled : output.Enabled w)
    (h : files.foldlM (fun w file => output.writeFile file w) w = .ok w') :
    output.Wrote (files.flatMap output.fileEntries) w w' := by
  induction files generalizing w with
  | nil =>
    obtain rfl := ok.inj h
    exact .refl w
  | cons layout files ih =>
    obtain ⟨w₁, hfirst, h⟩ := bind_eq_ok.mp h
    have hwrote := writeFile_wrote (hfiles layout mem_cons_self) henabled hfirst
    exact hwrote.trans (ih (fun layout hlayout => hfiles layout (List.mem_cons_of_mem _ hlayout))
      (henabled.of_wrote hwrote) h)

theorem validateEmpty_eq_ok {u : Unit} (h : w.validateEmpty = .ok u) : w.dynsymFree = 0 := by
  unfold TableWriter.validateEmpty at h
  split at h
  · cases h
  · next hfree => exact not_not.mp hfree

theorem versions_of_wrote {slots : ℕ}
    (hwrote : output.Wrote entries (empty slots output.versionsEmitted) w)
    (hfree : w.dynsymFree = 0) :
    w.dynsym = entries ∧ entries.length = slots ∧ (output.versionsEmitted = true →
        List.Forall₂ (fun entry version => output.versionOf entry = .ok version) entries w.versym) := by
  have hlen : entries.length = slots := by
    have heq := hwrote.dynsymFree
    rw [hfree, Nat.zero_add] at heq
    exact heq
  refine ⟨hwrote.dynsym, hlen, fun hemitted => ?_⟩
  by_cases hslots : slots = 0
  · have hnone : (empty slots output.versionsEmitted).versymFree = none := by
      rw [hemitted, hslots]
      rfl
    rw [(hwrote.unversioned hnone).2, List.length_eq_zero_iff.mp (hlen.trans hslots)]
    exact .nil
  · have hsome : (empty slots output.versionsEmitted).versymFree = some slots := by
      simp only [empty, hemitted, Bool.true_and, decide_eq_true hslots, if_true]
    obtain ⟨_, versions, -, -, hversym, hvers⟩ := hwrote.versioned slots hsome
    have hempty : w.versym = versions := hversym
    rw [hempty]
    exact hvers

theorem writeGroup_spec {size : ℕ} {files : List FileLayout}
    (hfiles : ∀ layout ∈ files, output.Fits layout)
    (henabled : output.Enabled (empty (numSlots size) output.versionsEmitted))
    (h : output.writeGroup size files = .ok w) :
    w.dynsym = files.flatMap output.fileEntries
      ∧ (files.flatMap output.fileEntries).length = numSlots size
      ∧ (output.versionsEmitted = true →
        List.Forall₂ (fun entry version => output.versionOf entry = .ok version)
          (files.flatMap output.fileEntries) w.versym) := by
  unfold writeGroup at h
  obtain ⟨w₁, hwrite, h⟩ := bind_eq_ok.mp h
  obtain ⟨u, hempty, h⟩ := bind_eq_ok.mp h
  cases h
  exact versions_of_wrote (writeFiles_wrote hfiles henabled hwrite) (validateEmpty_eq_ok hempty)

/-! ## The groups -/

theorem dvd_sizeForFile (file : File) : symtabEntrySize ∣ output.sizeForFile file := by
  have hsym : ∀ s, symtabEntrySize ∣ sizeForSymbol s := by
    intro s
    unfold sizeForSymbol
    split
    · exact dvd_rfl
    · exact dvd_zero _
  refine (Nat.dvd_add_right (dvd_sum fun n hn => ?_)).mpr ?_
  · obtain ⟨s, -, rfl⟩ := mem_map.mp hn
    exact hsym s
  · split
    · exact dvd_rfl
    · exact dvd_zero _

theorem sizeForGroup_eq (files : List File) :
    numSlots (output.sizeForGroup files) * symtabEntrySize = output.sizeForGroup files := by
  refine Nat.div_mul_cancel (dvd_sum fun n hn => ?_)
  obtain ⟨file, -, rfl⟩ := mem_map.mp hn
  exact dvd_sizeForFile file

/-- The slots of groups before some place. -/
def slotsOfGroups (output : DynamicOutput) (groups : List (List File)) : ℕ :=
  (groups.map fun files => numSlots (output.sizeForGroup files)).sum

theorem numSlots_sum (groups : List (List File)) :
    numSlots (groups.map output.sizeForGroup).sum = output.slotsOfGroups groups := by
  have hsum : (groups.map output.sizeForGroup).sum = output.slotsOfGroups groups * symtabEntrySize := by
    unfold slotsOfGroups
    induction groups with
    | nil => rfl
    | cons files groups ih =>
      rw [map_cons, map_cons, sum_cons, sum_cons, Nat.add_mul, ← ih, sizeForGroup_eq]
  rw [hsum]
  exact Nat.mul_div_cancel _ (by decide)

theorem enabled_of_mem (hfiles : files ∈ output.groups) : output.Enabled
      (empty (numSlots (output.sizeForGroup files)) output.versionsEmitted) := by
  intro hsome
  unfold empty at hsome
  by_cases h : (output.versionsEmitted && decide (numSlots (output.sizeForGroup files) ≠ 0)) = true
  · obtain ⟨hemitted, hslots⟩ := Bool.and_eq_true_iff.mp h
    have hle : output.sizeForGroup files ≤ (output.groups.map output.sizeForGroup).sum :=
      List.le_sum_of_mem (mem_map.mpr ⟨files, hfiles, rfl⟩)
    have hpos : 0 < numSlots (output.sizeForGroup files) :=
      Nat.pos_of_ne_zero (of_decide_eq_true hslots)
    have htotal : 0 < output.totalSlots := Nat.lt_of_lt_of_le hpos
      (Nat.div_le_div_right (Nat.le_trans hle (Nat.le_add_right _ _)))
    rw [gnuVersionEnabled, hemitted, decide_eq_true htotal]
    rfl
  · simp only [if_neg h] at hsome
    cases hsome

theorem fillSlots_full {written old : List UInt16} (h : old.length ≤ written.length) :
    fillSlots written old = written := by
  rw [fillSlots, List.drop_eq_nil_of_le h, append_nil]

theorem writeGroups_spec {groups : List (List File)} (hgroups : ∀ files ∈ groups, files ∈ output.groups)
    {laidOut : List (List FileLayout)} {old : List UInt16}
    {written : List DynsymEntry × List UInt16}
    (hlayout : output.layoutGroups groups (output.offsetOf index) = .ok laidOut)
    (hwrite : output.writeGroups groups laidOut old = .ok written) :
    laidOut.flatten.flatMap assignedInFile = numberedFrom index written.1
      ∧ written.1.length = output.slotsOfGroups groups
      ∧ (output.versionsEmitted = true →
        List.Forall₂ (fun entry version => output.versionOf entry = .ok version) written.1 written.2) := by
  induction groups generalizing index laidOut old written with
  | nil =>
    cases hlayout
    cases hwrite
    exact ⟨rfl, rfl, fun _ => .nil⟩
  | cons files groups ih =>
    have hfiles := hgroups files mem_cons_self
    unfold layoutGroups at hlayout
    obtain ⟨first, hfirst, hlayout⟩ := bind_eq_ok.mp hlayout
    obtain ⟨rest, hrest, hlayout⟩ := bind_eq_ok.mp hlayout
    cases hlayout
    unfold writeGroups at hwrite
    obtain ⟨w, hw, hwrite⟩ := bind_eq_ok.mp hwrite
    obtain ⟨behind, hbehind, hwrite⟩ := bind_eq_ok.mp hwrite
    cases hwrite
    have hfits := fits_of_layoutFiles
      (fun file hfile => List.mem_flatten.mpr ⟨files, hfiles, hfile⟩) hfirst
    obtain ⟨hdynsym, hlen, hvers⟩ := writeGroup_spec hfits (enabled_of_mem hfiles) hw
    rw [← sizeForGroup_eq, offsetOf_add] at hrest
    obtain ⟨hassign, hlengthRest, hversionsRest⟩ :=
      ih (fun f hf => hgroups f (List.mem_cons_of_mem _ hf)) hrest hbehind
    refine ⟨?_, ?_, fun hemitted => ?_⟩
    · rw [List.flatten_cons, List.flatMap_append, layoutFiles_spec hfirst, hassign, hdynsym,
        numberedFrom_append, hlen]
    · rw [length_append, hdynsym, hlen, hlengthRest]
      rfl
    · have hslots : (old.take (numSlots (output.sizeForGroup files))).length ≤ w.versym.length := by
        rw [List.length_take, ← (hvers hemitted).length_eq, hlen]
        exact Nat.min_le_left _ _
      rw [fillSlots_full hslots, hdynsym]
      exact List.rel_append (hvers hemitted) (hversionsRest hemitted)

end DynamicOutput

end Sld.Dynamic
