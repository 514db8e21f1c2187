/-
# `Script.GlobPatterns` — what kind of pattern a text is

Version scripts, export lists and the section rules of linker scripts name
symbols, sections and files by patterns.  A pattern without wildcards is
compared as it is, or without its backslashes; any other one is compiled by
the glob library, here `newPattern`, which refuses the text of an invalid
pattern.
-/
import Sld.Text.Numeral
import Sld.Text.Scanning

namespace Sld.Script

open Text

inductive GlobPatternType where
  | exact
  | escapedExact
  | star
  | nonStar
  deriving DecidableEq

/-- The loop of `analyze_glob_pattern`; a byte after `\` is passed over. -/
def scanGlob (patternType : GlobPatternType) (escaped : Bool) : Bytes → GlobPatternType
  | [] => patternType
  | c :: it =>
    if escaped then scanGlob patternType false it
    else if c = '\\'.toUInt8 then
      scanGlob (if patternType = .exact then .escapedExact else patternType) true it
    else if c = '*'.toUInt8 then .star
    else if c ∈ bytes "[]?" then scanGlob .nonStar false it
    else scanGlob patternType false it

def analyzeGlobPattern (pattern : Bytes) : GlobPatternType :=
  if pattern.all (· ∉ bytes "*?\\[]") then .exact else scanGlob .exact false pattern

/-- `unescape_pattern`; a `\` at the end stays. -/
def unescapePattern : Bytes → Bytes
  | [] => []
  | [c] => [c]
  | c :: next :: it =>
    if c = '\\'.toUInt8 then next :: unescapePattern it else c :: unescapePattern (next :: it)

/-- `pattern.replace("[^", "[!")` -/
def negateClasses : Text → Text
  | [] => []
  | [c] => [c]
  | c :: next :: it =>
    if c = '[' ∧ next = '^' then '[' :: '!' :: negateClasses it
    else c :: negateClasses (next :: it)

/-- `Invalid UTF-8 string`, `Invalid Glob Pattern` -/
inductive GlobError where
  | invalidUtf8
  | invalidPattern

def compileGlobPattern {Pattern : Type} (newPattern : Text → Option Pattern) (token : Bytes) :
    Except GlobError Pattern :=
  match String.fromUTF8? ⟨token.toArray⟩ with
  | none => .error .invalidUtf8
  | some pattern =>
    match newPattern (negateClasses pattern.toList) with
    | none => .error .invalidPattern
    | some pattern => .ok pattern

end Sld.Script
