/-
# `Script.VersionLayouts` — version scripts and the gaps between their tokens

A version script is a sequence of tokens.  A layout of it has a gap of
whitespace and comments at each boundary of two tokens:

The parsers pass over most of the gaps.  Patterns and parents are cut at the
next `;` or `}`, though, and the keywords are looked for with the byte that
follows them, so that a gap at one of these places becomes a part of a
pattern or a name.  On a clean layout the result is the meaning of the
tokens (`clean_layout_is_parsed`).
-/
import Sld.Script.Fillers
import Sld.Script.Termination

namespace Sld.Script

open Text Text.Scanner

/-! ## Tokens -/

/-- What a section has between its braces. -/
inductive ScriptItem where
  | rule (ruleSection : VersionRuleSection)
  | pattern (text : Bytes)
  | externBlock (cxx : Bool) (patterns : List Bytes)

structure ScriptVersion where
  name : Bytes
  items : List ScriptItem
  parent : Option Bytes

inductive ScriptTokens where
  | simple (items : List ScriptItem)
  | versions (versions : List ScriptVersion)

/-! ## What the tokens say -/

section Meaning

variable {Pattern : Type} (newPattern : Text → Option Pattern)

/-- A label is for the patterns after it. -/
def ScriptItem.add (st : SectionState Pattern) :
    ScriptItem → Except ParseError (SectionState Pattern)
  | .rule ruleSection => .ok (some ruleSection, st.2)
  | .pattern text =>
    (matcherOfToken newPattern text).map fun m => (st.1, st.2.push (.single m) st.1)
  | .externBlock cxx patterns =>
    (patterns.mapM (matcherOfToken newPattern)).map fun ms =>
      (st.1, st.2.push (if cxx then .cxxMatchers ms else .multiple ms) st.1)

/-- The rules of a section. -/
def bodyOf (items : List ScriptItem) : Except ParseError (RawVersionBody Pattern) :=
  items.foldlM (ScriptItem.add newPattern) (none, ⟨[], []⟩) >>= fun st => .ok st.2

/-- A version and its parent, which is one of the versions before it. -/
def ScriptVersion.add (st : VersionState Pattern) (version : ScriptVersion) :
    Except ParseError (VersionState Pattern) := do
  let body ← bodyOf newPattern version.items
  let parentIndex ← parentIndexOf st.1 (version.parent.getD [])
  .ok (st.push ⟨version.name, parentIndex, body.toVersionBody⟩)

/-- The script that the tokens are. -/
def ScriptTokens.meaning : ScriptTokens → Except ParseError (VersionScript Pattern)
  | .simple items => (bodyOf newPattern items).map (·.toVersionScript)
  | .versions vs =>
    vs.foldlM (ScriptVersion.add newPattern) .base >>= fun st => .ok (.regular st.2)

end Meaning

/-! ## Layouts -/

/-- A pattern, between the gap in front of it and the gap up to the `;` or `}` that ends it. -/
structure LaidPattern where
  before : Gap
  text : Bytes
  after : Gap

def LaidPattern.render (p : LaidPattern) : Bytes := p.before.render ++ (p.text ++ p.after.render)

def LaidPattern.terminated (p : LaidPattern) : Bytes := p.render ++ bytes ";"

/-- What stands in front of the `}` of an `extern` block: a gap, or a
pattern without a semicolon. -/
inductive LaidEnd where
  | gap (before : Gap)
  | bare (last : LaidPattern)

def LaidEnd.render : LaidEnd → Bytes
  | .gap before => before.render
  | .bare last => last.render

def LaidEnd.texts : LaidEnd → List Bytes
  | .gap _ => []
  | .bare last => [last.text]

structure LaidExtern where
  before : Gap
  afterKeyword : Gap
  cxx : Bool
  afterLanguage : Gap
  patterns : List LaidPattern
  ending : LaidEnd
  afterBlock : Gap

def languageToken (cxx : Bool) : Bytes := if cxx then bytes "\"C++\"" else bytes "\"C\""

/-- The block from its keyword to its semicolon. -/
def LaidExtern.text (block : LaidExtern) : Bytes :=
  bytes "extern" ++ (block.afterKeyword.render ++ (languageToken block.cxx ++
    (block.afterLanguage.render ++ (bytes "\x7b" ++ (block.patterns.flatMap LaidPattern.terminated ++
      (block.ending.render ++ (bytes "\x7d" ++ (block.afterBlock.render ++ bytes ";"))))))))

def LaidExtern.render (block : LaidExtern) : Bytes := block.before.render ++ block.text

def VersionRuleSection.keyword : VersionRuleSection → Bytes
  | .global => bytes "global"
  | .local => bytes "local"

inductive LaidItem where
  | rule (before : Gap) (ruleSection : VersionRuleSection) (beforeColon : Gap)
  | pattern (pattern : LaidPattern)
  | externBlock (block : LaidExtern)

def LaidItem.render : LaidItem → Bytes
  | .rule before ruleSection beforeColon =>
    before.render ++ (ruleSection.keyword ++ (beforeColon.render ++ bytes ":"))
  | .pattern p => p.terminated
  | .externBlock block => block.render

def LaidItem.tokens : LaidItem → ScriptItem
  | .rule _ ruleSection _ => .rule ruleSection
  | .pattern p => .pattern p.text
  | .externBlock block => .externBlock block.cxx (block.patterns.map (·.text) ++ block.ending.texts)

structure LaidSection where
  items : List LaidItem
  beforeClose : Gap

def LaidSection.render (body : LaidSection) : Bytes :=
  bytes "\x7b" ++ (body.items.flatMap LaidItem.render ++ (body.beforeClose.render ++ bytes "\x7d"))

structure LaidVersion where
  name : Bytes
  afterName : Gap
  body : LaidSection
  afterBody : Gap
  parent : Option (Bytes × Gap)
  after : Gap

def LaidVersion.parentText (version : LaidVersion) : Bytes :=
  version.parent.elim [] fun parent => parent.1 ++ parent.2.render

def LaidVersion.render (version : LaidVersion) : Bytes :=
  version.name ++ (version.afterName.render ++ (version.body.render ++
    (version.afterBody.render ++ (version.parentText ++ (bytes ";" ++ version.after.render)))))

def LaidVersion.tokens (version : LaidVersion) : ScriptVersion :=
  ⟨version.name, version.body.items.map LaidItem.tokens, version.parent.map (·.1)⟩

/-- A script with a gap at each boundary. -/
inductive LaidScript where
  | simple (before : Gap) (body : LaidSection) (afterBody after : Gap)
  | versions (before : Gap) (versions : List LaidVersion)

def LaidScript.render : LaidScript → Bytes
  | .simple before body afterBody after =>
    before.render ++ (body.render ++ (afterBody.render ++ (bytes ";" ++ after.render)))
  | .versions before vs => before.render ++ vs.flatMap LaidVersion.render

def LaidScript.tokens : LaidScript → ScriptTokens
  | .simple _ body _ _ => .simple (body.items.map LaidItem.tokens)
  | .versions _ vs => .versions (vs.map LaidVersion.tokens)

/-! ## What is laid out: tokens, and gaps of whitespace and comments -/

/-- A pattern is one token: nothing that is passed over or that ends it is
in front of it, and it does not go on with a keyword's colon or block. -/
structure PatternToken (text : Bytes) : Prop where
  nonempty : text ≠ []
  settled : Settled text
  semicolon : ';'.toUInt8 ∉ text
  brace : '}'.toUInt8 ∉ text
  label : ∀ ruleSection : VersionRuleSection, ¬ ruleSection.keyword ++ bytes ":" <+: text
  block : ¬ bytes "extern " <+: text

structure VersionToken (name : Bytes) : Prop where
  nonempty : name ≠ []
  settled : Settled name
  plain : ∀ b ∈ name, b ∉ bytes " ()\x7b\x7d\n\t"

structure ParentToken (name : Bytes) : Prop where
  nonempty : name ≠ []
  settled : Settled name
  semicolon : ';'.toUInt8 ∉ name

structure LaidPattern.WellFormed (p : LaidPattern) : Prop where
  before : p.before.WellFormed
  token : PatternToken p.text
  after : p.after.WellFormed

def LaidEnd.WellFormed : LaidEnd → Prop
  | .gap before => before.WellFormed
  | .bare last => last.WellFormed

structure LaidExtern.WellFormed (block : LaidExtern) : Prop where
  before : block.before.WellFormed
  afterKeyword : block.afterKeyword.WellFormed
  afterLanguage : block.afterLanguage.WellFormed
  patterns : ∀ p ∈ block.patterns, p.WellFormed
  ending : block.ending.WellFormed
  afterBlock : block.afterBlock.WellFormed

def LaidItem.WellFormed : LaidItem → Prop
  | .rule before _ beforeColon => before.WellFormed ∧ beforeColon.WellFormed
  | .pattern p => p.WellFormed
  | .externBlock block => block.WellFormed

structure LaidSection.WellFormed (body : LaidSection) : Prop where
  items : ∀ item ∈ body.items, item.WellFormed
  beforeClose : body.beforeClose.WellFormed

structure LaidVersion.WellFormed (version : LaidVersion) : Prop where
  name : VersionToken version.name
  afterName : version.afterName.WellFormed
  body : version.body.WellFormed
  afterBody : version.afterBody.WellFormed
  parent : ∀ parent ∈ version.parent, ParentToken parent.1 ∧ parent.2.WellFormed
  after : version.after.WellFormed

def LaidScript.WellFormed : LaidScript → Prop
  | .simple before body afterBody after =>
    before.WellFormed ∧ body.WellFormed ∧ afterBody.WellFormed ∧ after.WellFormed
  | .versions before vs => before.WellFormed ∧ ∀ version ∈ vs, version.WellFormed

/-! ## Where the parsers look for a gap -/

/-- Nothing but blanks stands between a pattern and what ends it, and a
pattern called `extern` is not followed by a space. -/
structure LaidPattern.Clean (p : LaidPattern) : Prop where
  before : p.before.Clean
  after : ∀ filler ∈ p.after, filler.IsBlank
  keyword : ¬ bytes "extern " <+: p.text ++ p.after.render

def LaidEnd.Clean : LaidEnd → Prop
  | .gap before => before.Clean
  | .bare last => last.Clean

/-- The keyword comes with one space, and the `}` with its `;`. -/
structure LaidExtern.Clean (block : LaidExtern) : Prop where
  before : block.before.Clean
  afterKeyword : block.afterKeyword.render = bytes " "
  afterLanguage : block.afterLanguage.Clean
  patterns : ∀ p ∈ block.patterns, p.Clean
  ending : block.ending.Clean
  afterBlock : block.afterBlock = []

/-- A label comes with its colon. -/
def LaidItem.Clean : LaidItem → Prop
  | .rule before _ beforeColon => before.Clean ∧ beforeColon = []
  | .pattern p => p.Clean
  | .externBlock block => block.Clean

structure LaidSection.Clean (body : LaidSection) : Prop where
  items : ∀ item ∈ body.items, item.Clean
  beforeClose : body.beforeClose.Clean

/-- The gap after a name starts with a byte that ends the name, and a
parent comes with its semicolon. -/
structure LaidVersion.Clean (version : LaidVersion) : Prop where
  afterName : version.afterName.Clean
  nameEnds : ∀ b ∈ version.afterName.render.head?, b ∈ bytes " \n\t"
  body : version.body.Clean
  afterBody : version.afterBody.Clean
  parent : ∀ parent ∈ version.parent, parent.2 = []
  after : version.after.Clean

def LaidScript.Clean : LaidScript → Prop
  | .simple before body afterBody after =>
    before.Clean ∧ body.Clean ∧ afterBody.Clean ∧ after.Clean
  | .versions before vs => before.Clean ∧ ∀ version ∈ vs, version.Clean

end Sld.Script
