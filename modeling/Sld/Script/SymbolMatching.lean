/-
# `Script.SymbolMatching` — which symbols a pattern stands for

The rules of a script or an export list keep their patterns by kind: exact
names, names whose escapes are resolved, compiled patterns with and without
a `*`, and whether there is a pattern that is just `*`.  The patterns of C++
blocks are compared with the demangled name of a symbol.

Compiled patterns are compared with text, so the name has to be UTF-8 where
there is one.
-/
import Sld.Script.GlobAgreement
import Sld.Script.ShellPatterns
import Sld.Script.VersionScripts

namespace Sld.Script

open Text
open Option (isSome_map map_none)
open BasicMatchRules (empty push)

/-! ## Looking a symbol up -/

section Lookup

variable {Pattern : Type} (globMatches : Pattern → Text → Bool) (demangle : Text → Option Text)

/-- `get_name_string`; `none` is the panic at a name that is not UTF-8. -/
def getNameString (name : Bytes) : Option Text := asText name

/-- `get_demangled_name`: the original name if the demangler returns none. -/
def getDemangledName (name : Bytes) : Option Text :=
  (getNameString name).map fun nameString => (demangle nameString).getD nameString

/-- What is looked up in a set of exact names. -/
def symbolBytes (name : Bytes) (mangled : Bool) : Option Bytes :=
  if mangled then (getDemangledName demangle name).map utf8 else some name

/-- A lookup in a set of exact names, for which an empty set needs no name. -/
def containsName (names : Finset Bytes) (name : Option Bytes) : Option Bool :=
  if names = ∅ then some false else name.map fun name => decide (name ∈ names)

def BasicMatchRules.matchesExact (rules : BasicMatchRules Pattern) (name : Bytes)
    (mangled : Bool) : Option Bool :=
  containsName rules.exact (symbolBytes demangle name mangled) <||>
    containsName rules.escapedExact (symbolBytes demangle name mangled)

def BasicMatchRules.matchesGlob (rules : BasicMatchRules Pattern) (name : Bytes)
    (nonStar mangled : Bool) : Option Bool :=
  let globs := if nonStar then rules.nonstarGlobs else rules.starGlobs
  if globs.isEmpty then some false
  else
    (if mangled then getDemangledName demangle name else getNameString name).map fun name =>
      globs.any (globMatches · name)

def ExportList.contains (list : MatchRules Pattern) (name : Bytes) : Option Bool :=
  list.general.matchesExact demangle name false <||>
  list.cxx.matchesExact demangle name true <||>
  list.general.matchesGlob globMatches demangle name true false <||>
  list.cxx.matchesGlob globMatches demangle name true true <||>
  list.general.matchesGlob globMatches demangle name false false <||>
  list.cxx.matchesGlob globMatches demangle name false true <||>
  some (list.general.matchesAll || list.cxx.matchesAll)

/-- A list of one pattern, which stands in a block of C++ patterns if it is for mangled names. -/
def listOf (mangled : Bool) (matcher : SymbolMatcher Pattern) : MatchRules Pattern :=
  .push .empty (if mangled then .cxxMatchers [matcher] else .single matcher)

/-- The name of a symbol, demangled if a pattern is for mangled names. -/
def shownName (mangled : Bool) (name : Bytes) : Bytes :=
  (symbolBytes demangle name mangled).getD name

end Lookup

/-! ## A list of one pattern -/

/-- What the token of a pattern stands for: a quoted one for what is between
the quotes, any other one for what it means to the shell. -/
def tokenMatches (token name : Bytes) : Bool :=
  match unquote (trimAsciiEnd token) with
  | some unquoted => decide (name = unquoted)
  | none => shellMatches (trimAsciiEnd token) name

/-- What the glob library does: it compiles valid path patterns, and matches
a text that the tokens of the pattern stand for. -/
def GlobLibrary {Pattern : Type} (newPattern : Text → Option Pattern)
    (globMatches : Pattern → Text → Bool) : Prop :=
  ∀ text pattern, newPattern text = some pattern →
    ∃ tokens, pathTokens text = some tokens ∧ globMatches pattern = matchesTokens tokens

section Single

variable {Pattern : Type} {newPattern : Text → Option Pattern}
  {globMatches : Pattern → Text → Bool} {demangle : Text → Option Text}

/-- Whether the name of a symbol has to be UTF-8 for a pattern. -/
def needsText (mangled : Bool) : SymbolMatcher Pattern → Bool
  | .exact _ | .escapedExact _ => mangled
  | .starGlob _ | .nonstarGlob _ => true
  | .matchesAll => false

/-- Whether a pattern is compiled by the glob library. -/
def SymbolMatcher.isGlob : SymbolMatcher Pattern → Bool
  | .starGlob _ | .nonstarGlob _ => true
  | .exact _ | .escapedExact _ | .matchesAll => false

@[simp] theorem orM_some_false (x : Option Bool) : (some false <||> x) = x := rfl

@[simp] theorem orM_some_true (x : Option Bool) : (some true <||> x) = some true := rfl

@[simp] theorem orM_none (x : Option Bool) : (none <||> x) = none := rfl

@[simp] theorem orM_false (x : Option Bool) : (x <||> some false) = x := by
  cases x with
  | none => rfl
  | some b => cases b <;> rfl

@[simp] theorem containsName_empty (name : Option Bytes) : containsName ∅ name = some false := rfl

@[simp] theorem containsName_singleton (exact : Bytes) (name : Option Bytes) :
    containsName {exact} name = name.map fun name => decide (name = exact) := by
  rw [containsName]
  cases name with
  | none => rfl
  | some name => simp

/-- The text that a compiled pattern is compared with. -/
def shownText (demangle : Text → Option Text) (mangled : Bool) (name : Bytes) : Option Text :=
  if mangled then getDemangledName demangle name else getNameString name

/-- What a list of one pattern decides about a name. -/
def SymbolMatcher.decides (globMatches : Pattern → Text → Bool) (demangle : Text → Option Text)
    (mangled : Bool) (name : Bytes) : SymbolMatcher Pattern → Option Bool
  | .exact wanted => (symbolBytes demangle name mangled).map fun name => decide (name = wanted)
  | .escapedExact escaped =>
    (symbolBytes demangle name mangled).map fun name => decide (name = unescapePattern escaped)
  | .starGlob glob | .nonstarGlob glob => (shownText demangle mangled name).map (globMatches glob)
  | .matchesAll => some true

section

variable (mangled : Bool)

include mangled

theorem contains_listOf (matcher : SymbolMatcher Pattern) (name : Bytes) :
    ExportList.contains globMatches demangle (listOf mangled matcher) name =
      matcher.decides globMatches demangle mangled name := by
  cases mangled <;> cases matcher <;>
    simp [SymbolMatcher.decides, ExportList.contains, listOf, MatchRules.push, MatchRules.empty,
      push, empty, BasicMatchRules.matchesExact, BasicMatchRules.matchesGlob, shownText]

theorem shownText_isSome_iff (name : Bytes) :
    (shownText demangle mangled name).isSome ↔ (asText name).isSome := by
  cases mangled with
  | false => rfl
  | true =>
    show ((asText name).map _).isSome ↔ _
    rw [isSome_map]

theorem symbolBytes_isSome_iff (name : Bytes) :
    (symbolBytes demangle name mangled).isSome ↔ (mangled → (asText name).isSome) := by
  cases mangled with
  | false => exact iff_of_true rfl fun h => absurd h Bool.false_ne_true
  | true =>
    show (Option.map utf8 ((asText name).map _)).isSome ↔ _
    rw [isSome_map, isSome_map]
    exact ⟨fun h _ => h, fun h => h rfl⟩

end

variable {mangled : Bool} {name : Bytes} {text : Text}

theorem asText_shownName (h : shownText demangle mangled name = some text) :
    asText (shownName demangle mangled name) = some text := by
  cases mangled with
  | false => exact h
  | true =>
    have hbytes : symbolBytes demangle name true = some (utf8 text) := congrArg (Option.map utf8) h
    rw [shownName, hbytes]
    exact asText_utf8 text

theorem map_symbolBytes_iff (mangled : Bool) (name : Bytes) (p : Bytes → Bool) :
    (symbolBytes demangle name mangled).map p = some (p (shownName demangle mangled name)) ↔
      (mangled → (asText name).isSome) := by
  rw [← @symbolBytes_isSome_iff demangle, shownName]
  cases symbolBytes demangle name mangled with
  | none => exact iff_of_false (nofun) Bool.false_ne_true
  | some shown => exact iff_of_true rfl rfl

variable {matcher : SymbolMatcher Pattern} {token : Bytes}

theorem matcherOfToken_cases (h : matcherOfToken newPattern token = .ok matcher) :
    (∃ unquoted, unquote (trimAsciiEnd token) = some unquoted ∧ matcher = .exact unquoted) ∨
      unquote (trimAsciiEnd token) = none ∧
        (trimAsciiEnd token = bytes "*" ∧ matcher = .matchesAll ∨
          analyzeGlobPattern (trimAsciiEnd token) = .exact ∧ matcher = .exact (trimAsciiEnd token) ∨
          analyzeGlobPattern (trimAsciiEnd token) = .escapedExact ∧
            matcher = .escapedExact (trimAsciiEnd token) ∨
          ∃ text pattern, asText (trimAsciiEnd token) = some text ∧
            newPattern (negateClasses text) = some pattern ∧
            (matcher = .starGlob pattern ∨ matcher = .nonstarGlob pattern)) := by
  have hcreate {pattern : Pattern}
      (h : createPattern newPattern (trimAsciiEnd token) = .ok pattern) :
      ∃ text, asText (trimAsciiEnd token) = some text ∧
        newPattern (negateClasses text) = some pattern := by
    rw [createPattern, compileGlobPattern] at h
    cases htext : String.fromUTF8? ⟨(trimAsciiEnd token).toArray⟩ with
    | none =>
      rw [htext] at h
      cases h
    | some text =>
      rw [htext] at h
      refine ⟨text.toList, congrArg (Option.map String.toList) htext, ?_⟩
      cases hpat : newPattern (negateClasses text.toList) with
      | none =>
        simp only [hpat] at h
        cases h
      | some compiled =>
        simp only [hpat] at h
        cases h
        rfl
  rw [matcherOfToken] at h
  cases hquote : unquote (trimAsciiEnd token) with
  | some unquoted =>
    rw [hquote] at h
    cases h
    exact .inl ⟨unquoted, rfl, rfl⟩
  | none =>
    simp only [hquote] at h
    refine .inr ⟨rfl, ?_⟩
    split at h
    · rename_i hstar
      cases h
      exact .inl ⟨hstar, rfl⟩
    · split at h
      · rename_i hkind
        cases h
        exact .inr (.inl ⟨hkind, rfl⟩)
      · rename_i hkind
        cases h
        exact .inr (.inr (.inl ⟨hkind, rfl⟩))
      · cases hpat : createPattern newPattern (trimAsciiEnd token) with
        | error e =>
          rw [hpat] at h
          cases h
        | ok pattern =>
          rw [hpat] at h
          cases h
          obtain ⟨text, htext, hnew⟩ := hcreate hpat
          exact .inr (.inr (.inr ⟨text, pattern, htext, hnew, .inl rfl⟩))
      · cases hpat : createPattern newPattern (trimAsciiEnd token) with
        | error e =>
          rw [hpat] at h
          cases h
        | ok pattern =>
          rw [hpat] at h
          cases h
          obtain ⟨text, htext, hnew⟩ := hcreate hpat
          exact .inr (.inr (.inr ⟨text, pattern, htext, hnew, .inr rfl⟩))

/-- A list of the pattern of a token decides about a symbol as the shell does. -/
def DecidesAsShell (globMatches : Pattern → Text → Bool) (demangle : Text → Option Text)
    (token : Bytes) (mangled : Bool) (matcher : SymbolMatcher Pattern) (name : Bytes) : Prop :=
  ExportList.contains globMatches demangle (listOf mangled matcher) name =
    some (tokenMatches token (shownName demangle mangled name))

/-- The pattern of a token is UTF-8, and reads alike. -/
def TokenReadsAlike (token : Bytes) : Prop :=
  ∃ text, asText (trimAsciiEnd token) = some text ∧ readsAlike text

theorem shellMatches_star (name : Bytes) : shellMatches (bytes "*") name = true := by
  rw [shellMatches]
  split
  · rename_i p n hp _
    have hstar : asText (bytes "*") = some ['*'] := asText_utf8 ['*']
    cases hp
    exact matchesTokens_star n
  · exact matchesTokens_star _

theorem map_shownText_iff (hglob : GlobLibrary newPattern globMatches)
    (hquote : unquote (trimAsciiEnd token) = none)
    (htext : asText (trimAsciiEnd token) = some text) {pattern : Pattern}
    (hpat : newPattern (negateClasses text) = some pattern) (halike : readsAlike text)
    (mangled : Bool) (name : Bytes) :
    (shownText demangle mangled name).map (globMatches pattern) =
        some (tokenMatches token (shownName demangle mangled name)) ↔ (asText name).isSome := by
  rw [← @shownText_isSome_iff demangle mangled]
  cases hshown : shownText demangle mangled name with
  | none => exact iff_of_false (nofun) Bool.false_ne_true
  | some shown =>
    refine iff_of_true ?_ rfl
    obtain ⟨tokens, htokens, hmatch⟩ := hglob _ _ hpat
    rw [Option.map_some, tokenMatches, hquote, shellMatches, htext, asText_shownName hshown,
      hmatch, matches_eq_of_readsAlike halike htokens]

theorem decidesAsShell_iff (hglob : GlobLibrary newPattern globMatches)
    (hacc : matcherOfToken newPattern token = .ok matcher)
    (mangled : Bool) (halike : matcher.isGlob → TokenReadsAlike token) (name : Bytes) :
    DecidesAsShell globMatches demangle token mangled matcher name ↔
      (needsText mangled matcher → (asText name).isSome) := by
  rcases matcherOfToken_cases hacc with ⟨unquoted, hquote, rfl⟩ | ⟨hquote, hcase⟩
  · have hmeaning : tokenMatches token = fun name => decide (name = unquoted) := by
      funext name
      rw [tokenMatches, hquote]
    rw [DecidesAsShell, contains_listOf, SymbolMatcher.decides, hmeaning]
    exact map_symbolBytes_iff mangled name fun name => decide (name = unquoted)
  · have hmeaning : tokenMatches token = shellMatches (trimAsciiEnd token) := by
      funext name
      rw [tokenMatches, hquote]
    rcases hcase with ⟨hstar, rfl⟩ | ⟨hkind, rfl⟩ | ⟨hkind, rfl⟩ |
      ⟨text, pattern, htext, hpat, hmatcher⟩
    · rw [DecidesAsShell, contains_listOf, SymbolMatcher.decides, hmeaning, hstar,
        shellMatches_star]
      exact iff_of_true rfl fun h => absurd h Bool.false_ne_true
    · have hname := shellMatches_of_isName (.inl hkind)
      rw [analyzeGlobPattern_eq] at hkind
      rw [unescapePattern_of_exact hkind] at hname
      rw [DecidesAsShell, contains_listOf, SymbolMatcher.decides, hmeaning, hname]
      exact map_symbolBytes_iff mangled name fun name => decide (name = trimAsciiEnd token)
    · have hname := shellMatches_of_isName (.inr hkind)
      rw [DecidesAsShell, contains_listOf, SymbolMatcher.decides, hmeaning, hname]
      exact map_symbolBytes_iff mangled name fun name =>
        decide (name = unescapePattern (trimAsciiEnd token))
    · rcases hmatcher with rfl | rfl
      · obtain ⟨alike, halike', hreads⟩ := halike rfl
        rw [htext] at halike'
        cases halike'
        rw [DecidesAsShell, contains_listOf, SymbolMatcher.decides]
        exact (map_shownText_iff hglob hquote htext hpat hreads mangled name).trans
          ⟨fun h _ => h, fun h => h rfl⟩
      · obtain ⟨alike, halike', hreads⟩ := halike rfl
        rw [htext] at halike'
        cases halike'
        rw [DecidesAsShell, contains_listOf, SymbolMatcher.decides]
        exact (map_shownText_iff hglob hquote htext hpat hreads mangled name).trans
          ⟨fun h _ => h, fun h => h rfl⟩

theorem contains_eq_none (hneeds : needsText mangled matcher) (hname : asText name = none) :
    ExportList.contains globMatches demangle (listOf mangled matcher) name = none := by
  have htext : shownText demangle mangled name = none := by
    rw [← Option.not_isSome_iff_eq_none, shownText_isSome_iff, hname]
    exact Bool.false_ne_true
  have hbytes (h : mangled = true) : symbolBytes demangle name mangled = none := by
    rw [← Option.not_isSome_iff_eq_none, symbolBytes_isSome_iff, hname, h]
    exact fun h => Bool.false_ne_true (h rfl)
  rw [contains_listOf]
  cases matcher with
  | exact _ | escapedExact _ => rw [SymbolMatcher.decides, hbytes hneeds, map_none]
  | starGlob _ | nonstarGlob _ => rw [SymbolMatcher.decides, htext, map_none]
  | matchesAll => exact absurd hneeds Bool.false_ne_true

theorem asText_invalid : asText [255] = none := by rfl

/-- An accepted pattern decides about all symbols as the shell does exactly
if no name has to be UTF-8 for it; and unless it is a glob that does not
read alike, it decides so about exactly the names that are UTF-8 where they
have to be. -/
theorem contains_iff (hglob : GlobLibrary newPattern globMatches) {token : Bytes}
    {matcher : SymbolMatcher Pattern} (hacc : matcherOfToken newPattern token = .ok matcher)
    (mangled : Bool) :
    ((∀ name, DecidesAsShell globMatches demangle token mangled matcher name) ↔
        needsText mangled matcher = false) ∧
      ((matcher.isGlob → TokenReadsAlike token) → ∀ name,
        (DecidesAsShell globMatches demangle token mangled matcher name ↔
          (needsText mangled matcher → (asText name).isSome))) := by
  refine ⟨⟨fun hall => ?_, fun hneeds name => ?_⟩, decidesAsShell_iff hglob hacc mangled⟩
  · rw [← Bool.not_eq_true]
    intro hneeds
    have hnone := hall [255]
    rw [DecidesAsShell, contains_eq_none hneeds asText_invalid] at hnone
    cases hnone
  · have hglobless : matcher.isGlob → TokenReadsAlike token := by
      intro hmatcher
      cases matcher with
      | exact name => cases hmatcher
      | escapedExact name => cases hmatcher
      | starGlob glob => cases hneeds
      | nonstarGlob glob => cases hneeds
      | matchesAll => cases hmatcher
    rw [decidesAsShell_iff hglob hacc mangled hglobless, hneeds]
    exact fun h => absurd h Bool.false_ne_true

end Single

theorem globLibrary_pathTokens : GlobLibrary pathTokens matchesTokens :=
  fun _ pattern h => ⟨pattern, h, rfl⟩

theorem contains_iff_for_prefix :
    matcherOfToken pathTokens [97, 63, 42] =
        .ok (.starGlob [.char 'a', .anyChar, .anySequence]) ∧
      DecidesAsShell matchesTokens some [97, 63, 42] false
        (.starGlob [.char 'a', .anyChar, .anySequence]) [97, 98, 99] := by
  have hacc : matcherOfToken pathTokens [97, 63, 42] =
      .ok (.starGlob [.char 'a', .anyChar, .anySequence]) := by rfl
  refine ⟨hacc, ?_⟩
  refine ((contains_iff globLibrary_pathTokens hacc false).2
    (fun _ => ⟨['a', '?', '*'], by rfl, by decide +kernel⟩) [97, 98, 99]).mpr fun _ => by rfl

/-- `a\*b*` does not stand for `a*b`. -/
theorem escape_in_glob_is_no_escape :
    matcherOfToken pathTokens [97, 92, 42, 98, 42] =
        .ok (.starGlob [.char 'a', .char '\\', .anySequence, .char 'b', .anySequence]) ∧
      tokenMatches [97, 92, 42, 98, 42] [97, 42, 98] = true ∧
      ¬DecidesAsShell matchesTokens some [97, 92, 42, 98, 42] false
        (.starGlob [.char 'a', .char '\\', .anySequence, .char 'b', .anySequence])
        [97, 42, 98] := by
  refine ⟨by rfl, by rfl, ?_⟩
  rw [DecidesAsShell, contains_listOf, SymbolMatcher.decides]
  intro h
  cases h

end Sld.Script
