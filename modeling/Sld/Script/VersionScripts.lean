/-
# `Script.VersionScripts` — the parsers of version scripts and export lists

A version script attaches versions to the symbols of a shared object and
says which of them are exported:

    VERS_1 { global: foo; b*; local: *; };
    VERS_2 { extern "C++" { ns::f; "g(int)" }; } VERS_1;

An export list is one such section, or one pattern for each line.

`parseMatcher` and the loops run on fuel.  Patterns are compiled by
`newPattern`, which refuses the text of an invalid glob pattern.
-/
import Mathlib.Data.Finmap
import Sld.Script.Comments
import Sld.Script.GlobPatterns

namespace Sld.Script

open Text Text.Scanner

/-! ## Patterns -/

/-- A pattern of a script. -/
inductive SymbolMatcher (Pattern : Type) where
  | exact (name : Bytes)
  | escapedExact (name : Bytes)
  | starGlob (pattern : Pattern)
  | nonstarGlob (pattern : Pattern)
  | matchesAll
  deriving DecidableEq

inductive ParsedSymbolMatcher (Pattern : Type) where
  | single (matcher : SymbolMatcher Pattern)
  | multiple (matchers : List (SymbolMatcher Pattern))
  | cxxMatchers (matchers : List (SymbolMatcher Pattern))

def isAsciiWhitespace (b : UInt8) : Bool := b ∈ bytes " \t\n\x0c\r"

def trimAsciiStart (token : Bytes) : Bytes := token.dropWhile isAsciiWhitespace

def trimAsciiEnd (token : Bytes) : Bytes := token.rdropWhile isAsciiWhitespace

/-- What stands between two quotes, if the token starts and ends with one. -/
def unquote (token : Bytes) : Option Bytes :=
  (token.dropPrefix? (bytes "\"")).bind (·.dropSuffix? (bytes "\""))

variable {Pattern : Type} (newPattern : Text → Option Pattern)

/-- What `parse_matcher` reports for a glob pattern that does not compile. -/
def ParseError.ofGlob : GlobError → ParseError
  | .invalidUtf8 => .invalidUtf8String
  | .invalidPattern => .invalidGlobPattern

def createPattern (token : Bytes) : Except ParseError Pattern :=
  (compileGlobPattern newPattern token).mapError .ofGlob

/-- The matcher of a token, of which the blanks at its end are cut off. -/
def matcherOfToken (token : Bytes) : Except ParseError (SymbolMatcher Pattern) :=
  match unquote (trimAsciiEnd token) with
  | some unquoted => .ok (.exact unquoted)
  | none =>
    if trimAsciiEnd token = bytes "*" then .ok .matchesAll
    else
      match analyzeGlobPattern (trimAsciiEnd token) with
      | .exact => .ok (.exact (trimAsciiEnd token))
      | .escapedExact => .ok (.escapedExact (trimAsciiEnd token))
      | .star => (createPattern newPattern (trimAsciiEnd token)).map .starGlob
      | .nonStar => (createPattern newPattern (trimAsciiEnd token)).map .nonstarGlob

/-! ## Matchers -/

/-- The text of a pattern.  Without semicolons it goes up to the `}`, and
where there is none it is the whole input, which is not taken. -/
def patternToken (withoutSemicolon : Bool) : Parser Bytes := do
  if withoutSemicolon then
    let input ← get
    if '}'.toUInt8 ∈ input then takeUntil .mismatch 1 (bytes "\x7d") else return input
  else
    takeUntil .mismatch 1 (bytes ";")

/-- The end of `parse_matcher`: a pattern outside of `extern` blocks, or one line of a block. -/
def parsePattern (withoutSemicolon : Bool) : Parser (SymbolMatcher Pattern) := do
  let token ← patternToken withoutSemicolon
  skipCommentsAndWhitespace
  let _ ← tryTake (bytes ";")
  ofExcept (matcherOfToken newPattern token)

/-- The language of an `extern` block; whether it is C++. -/
def externLanguage : Parser Bool := do
  if ← tryTake (bytes "\"C++\"") then return true
  else if ← tryTake (bytes "\"C\"") then return false
  else
    literal .mismatch (bytes "\x7b")
    fail (.unsupportedExtern "\x7b")

/-- The language of an `extern` block and its `{`. -/
def externOpening : Parser Bool := do
  let cxx ← externLanguage
  skipCommentsAndWhitespace
  literal .mismatch (bytes "\x7b")
  return cxx

/-- The patterns at the end of an `extern` block may omit semicolons. -/
def expectSemicolon (withoutSemicolon : Bool) (remaining : Bytes) : Bool :=
  match remaining.dropInfix? (bytes "\x7d;") with
  | some found => ';'.toUInt8 ∈ found.1
  | none => withoutSemicolon

/-- There are no `extern` blocks in an `extern` block. -/
def ParsedSymbolMatcher.expectSingle {Pattern : Type} :
    ParsedSymbolMatcher Pattern → Except ParseError (SymbolMatcher Pattern)
  | .single matcher => .ok matcher
  | .cxxMatchers _ => .error (.unexpectedExtern "C++")
  | .multiple _ => .error (.unexpectedExtern "C")

/-- One round of the loop over an `extern` block. -/
def externStep (parseMatcher : Bool → Parser (ParsedSymbolMatcher Pattern))
    (withoutSemicolon : Bool) (matchers : List (SymbolMatcher Pattern)) :
    Parser (List (SymbolMatcher Pattern) ⊕ List (SymbolMatcher Pattern)) := do
  skipCommentsAndWhitespace
  if ← tryTake (bytes "\x7d;") then
    skipCommentsAndWhitespace
    return .inr matchers
  else
    let remaining ← get
    let matcher ← parseMatcher (!expectSemicolon withoutSemicolon remaining)
    let matcher ← ofExcept matcher.expectSingle
    return .inl (matchers ++ [matcher])

def parseMatcher : ℕ → Bool → Parser (ParsedSymbolMatcher Pattern)
  | 0, _ => fun _ => .unfinished
  | fuel + 1, withoutSemicolon => do
      if ← tryTake (bytes "extern ") then
        let cxx ← externOpening
        let matchers ← loop (externStep (parseMatcher fuel) withoutSemicolon) fuel []
        return if cxx then .cxxMatchers matchers else .multiple matchers
      else
        let matcher ← parsePattern newPattern withoutSemicolon
        return .single matcher

/-! ## Rules -/

/-- The rules of one language, by kind. -/
structure BasicMatchRules (Pattern : Type) where
  exact : Finset Bytes
  escapedExact : Finset Bytes
  starGlobs : List Pattern
  nonstarGlobs : List Pattern
  matchesAll : Bool
  deriving DecidableEq

/-- `BasicMatchRules::default` -/
def BasicMatchRules.empty : BasicMatchRules Pattern := ⟨∅, ∅, [], [], false⟩

def BasicMatchRules.push (rules : BasicMatchRules Pattern) :
    SymbolMatcher Pattern → BasicMatchRules Pattern
  | .matchesAll => { rules with matchesAll := true }
  | .starGlob glob => { rules with starGlobs := rules.starGlobs ++ [glob] }
  | .nonstarGlob glob => { rules with nonstarGlobs := rules.nonstarGlobs ++ [glob] }
  | .exact name => { rules with exact := insert name rules.exact }
  | .escapedExact escaped =>
    { rules with escapedExact := insert (unescapePattern escaped) rules.escapedExact }

structure MatchRules (Pattern : Type) where
  general : BasicMatchRules Pattern
  cxx : BasicMatchRules Pattern
  deriving DecidableEq

/-- `MatchRules::default` -/
def MatchRules.empty : MatchRules Pattern := ⟨.empty, .empty⟩

def MatchRules.push (rules : MatchRules Pattern) :
    ParsedSymbolMatcher Pattern → MatchRules Pattern
  | .single single => { rules with general := rules.general.push single }
  | .multiple matchers => { rules with general := matchers.foldl .push rules.general }
  | .cxxMatchers matchers => { rules with cxx := matchers.foldl .push rules.cxx }

/-! ## Sections -/

inductive VersionRuleSection where
  | global
  | local

/-- What a section says, in the order of the script. -/
structure RawVersionBody (Pattern : Type) where
  globals : List (ParsedSymbolMatcher Pattern)
  locals : List (ParsedSymbolMatcher Pattern)

/-- A matcher is a global rule unless it stands under `local:`. -/
def RawVersionBody.push (body : RawVersionBody Pattern)
    (matcher : ParsedSymbolMatcher Pattern) : Option VersionRuleSection → RawVersionBody Pattern
  | some .local => { body with locals := body.locals ++ [matcher] }
  | some .global | none => { body with globals := body.globals ++ [matcher] }

/-- The accumulated state of the loop over a section. -/
abbrev SectionState (Pattern : Type) := Option VersionRuleSection × RawVersionBody Pattern

/-- One round of the loop of `parse_version_section`. -/
def sectionStep (fuel : ℕ) (st : SectionState Pattern) :
    Parser (SectionState Pattern ⊕ RawVersionBody Pattern) := do
  skipCommentsAndWhitespace
  if ← tryTake (bytes "\x7d") then
    skipCommentsAndWhitespace
    return .inr st.2
  else if ← tryTake (bytes "global:") then
    return .inl (some .global, st.2)
  else if ← tryTake (bytes "local:") then
    return .inl (some .local, st.2)
  else
    let matcher ← parseMatcher newPattern fuel false
    return .inl (st.1, st.2.push matcher st.1)

def parseVersionSection (fuel : ℕ) : Parser (RawVersionBody Pattern) := do
  literal .mismatch (bytes "\x7b")
  loop (sectionStep newPattern fuel) fuel (none, ⟨[], []⟩)

/-! ## Versions -/

structure VersionBody (Pattern : Type) where
  globals : MatchRules Pattern
  locals : MatchRules Pattern
  deriving DecidableEq

structure Version (Pattern : Type) where
  name : Bytes
  parentIndex : Option UInt16
  versionBody : VersionBody Pattern
  deriving DecidableEq

structure RegularVersionScript (Pattern : Type) where
  versions : List (Version Pattern)
  versionNameMapping : Finmap fun _ : Bytes => ℕ
  deriving DecidableEq

/-- A list of version rules; for the scripts of one compiler, only the
names that stay global. -/
inductive VersionScript (Pattern : Type) where
  | regular (script : RegularVersionScript Pattern)
  | rust (global : List Bytes)
  deriving DecidableEq

/-- `impl From<RawVersionBody> for VersionBody` -/
def RawVersionBody.toVersionBody (body : RawVersionBody Pattern) : VersionBody Pattern :=
  ⟨body.globals.foldl .push .empty, body.locals.foldl .push .empty⟩

/-- `matches!(matcher, Single(MatchesAll))` -/
def ParsedSymbolMatcher.isMatchesAll : ParsedSymbolMatcher Pattern → Bool
  | .single .matchesAll => true
  | _ => false

/-- The name of a `Single(Exact(name))`. -/
def ParsedSymbolMatcher.exactName? : ParsedSymbolMatcher Pattern → Option Bytes
  | .single (.exact name) => some name
  | _ => none

def RawVersionBody.rustLike (body : RawVersionBody Pattern) : Bool :=
  body.locals.any (·.isMatchesAll) && body.globals.all (·.exactName?.isSome)

/-- `impl From<RawVersionBody> for VersionScript` -/
def RawVersionBody.toVersionScript (body : RawVersionBody Pattern) : VersionScript Pattern :=
  if body.rustLike then .rust (body.globals.filterMap (·.exactName?))
  else .regular ⟨[⟨[], none, body.toVersionBody⟩], ∅⟩

def parseToken : Parser Bytes := takeWhile1 .mismatch (· ∉ bytes " ()\x7b\x7d\n\t")

/-- The index of the parent version, which a version need not have. -/
def parentIndexOf (versionNames : List Bytes) (parentName : Bytes) :
    Except ParseError (Option UInt16) :=
  if parentName.isEmpty then .ok none
  else if parentName ∈ versionNames then .ok (some (.ofNat (versionNames.idxOf parentName)))
  else .error .unknownParentVersion

/-- The names of the versions so far, and the script of them. -/
abbrev VersionState (Pattern : Type) := List Bytes × RegularVersionScript Pattern

/-- The base version placeholder. -/
def VersionState.base : VersionState Pattern :=
  ([[]], ⟨[⟨[], none, ⟨.empty, .empty⟩⟩], ∅⟩)

/-- Add a version at the end. -/
def VersionState.push (st : VersionState Pattern) (version : Version Pattern) :
    VersionState Pattern :=
  (st.1 ++ [version.name],
    { versions := st.2.versions ++ [version]
      versionNameMapping := st.2.versionNameMapping.insert version.name st.2.versions.length })

/-- One round of the loop of `parse_version_script`. -/
def versionStep (fuel : ℕ) (st : VersionState Pattern) :
    Parser (VersionState Pattern ⊕ RegularVersionScript Pattern) := do
  if (← get).isEmpty then return .inr st.2
  let name ← parseToken
  skipCommentsAndWhitespace
  let body ← parseVersionSection newPattern fuel
  let parentName ← takeUntil .mismatch 0 (bytes ";")
  let parentIndex ← ofExcept (parentIndexOf st.1 parentName)
  literal .mismatch (bytes ";")
  skipCommentsAndWhitespace
  return .inl (VersionState.push st ⟨name, parentIndex, body.toVersionBody⟩)

def parseVersionScript (fuel : ℕ) : Parser (VersionScript Pattern) := do
  skipCommentsAndWhitespace
  if bytes "\x7b" <+: (← get) then
    let versionBody ← parseVersionSection newPattern fuel
    literal .mismatch (bytes ";")
    skipCommentsAndWhitespace
    return versionBody.toVersionScript
  else
    let script ← loop (versionStep newPattern fuel) fuel VersionState.base
    return .regular script

def VersionScript.parse (fuel : ℕ) (raw : Bytes) : Outcome ParseError (VersionScript Pattern) :=
  complete .mismatch (parseVersionScript newPattern fuel) raw

/-! ## Export lists -/

/-- One round of the loop of `parse_export_list`. -/
def exportStep (fuel : ℕ) (out : MatchRules Pattern) :
    Parser (MatchRules Pattern ⊕ MatchRules Pattern) := do
  skipCommentsAndWhitespace
  if bytes "\x7d;" <+: (← get) then
    literal .mismatch (bytes "\x7d;")
    skipCommentsAndWhitespace
    return .inr out
  else
    let matcher ← parseMatcher newPattern fuel false
    return .inl (out.push matcher)

def parseExportList (fuel : ℕ) : Parser (MatchRules Pattern) := do
  skipCommentsAndWhitespace
  literal .mismatch (bytes "\x7b")
  loop (exportStep newPattern fuel) fuel .empty

/-- The lines of `parse_line_export_list`; blank lines and comments are passed over. -/
def parseExportLines (fuel : ℕ) (out : MatchRules Pattern) :
    List Bytes → Outcome ParseError (MatchRules Pattern)
  | [] => .done out
  | line :: lines =>
    let line := trimAsciiEnd (trimAsciiStart line)
    if line.isEmpty || (bytes "#").isPrefixOf line then parseExportLines fuel out lines
    else
      (parseMatcher newPattern fuel true line).bind fun r =>
        parseExportLines fuel (out.push r.1) lines

def parseLineExportList (fuel : ℕ) (input : Bytes) : Outcome ParseError (MatchRules Pattern) :=
  parseExportLines newPattern fuel .empty (input.splitOn '\n'.toUInt8)

def ExportList.parse (fuel : ℕ) (raw : Bytes) : Outcome ParseError (MatchRules Pattern) :=
  if bytes "\x7b" <+: trimAsciiStart raw then complete .mismatch (parseExportList newPattern fuel) raw
  else parseLineExportList newPattern fuel raw

end Sld.Script
