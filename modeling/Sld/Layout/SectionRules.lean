/-
# `Layout.SectionRules` — which rule an input section falls under

A linker script places input sections by patterns for their names and for
the names of their files; the first rule of the script that matches decides.
The rules are looked up in a hash table by the first four bytes of the
pattern, since a section name has the four bytes of any exact name it is
equal to, and of any prefix it begins with.

The hash table is its entries in the order of their insertion.  Hashing and
the matching of compiled glob patterns are parameters.
-/
import Sld.Layout.OutputSections
import Sld.Script.GlobPatterns

namespace Sld.Rules

open Text Script
open Layout (OutputSectionId regular)

/-! ## Rules -/

/-- `output_section_id::RODATA` and the other sections an unnamed input section can go to. -/
def rodata : OutputSectionId := regular 0

def text : OutputSectionId := regular 4

def data : OutputSectionId := regular 7

def tdata : OutputSectionId := regular 8

def tbss : OutputSectionId := regular 9

def bss : OutputSectionId := regular 10

structure SectionOutputInfo where
  sectionId : OutputSectionId
  mustKeep : Bool

def SectionOutputInfo.regular (sectionId : OutputSectionId) : SectionOutputInfo :=
  ⟨sectionId, false⟩

inductive SectionRuleOutcome where
  | toSection (info : SectionOutputInfo)
  | discard
  | custom
  | ehFrame
  | noteGnuProperty
  | noteGnuStack
  | debug
  | riscvAttribute
  | sortedSection (info : SectionOutputInfo)

inductive SectionNameMatcher (Pattern : Type) where
  | exact (name : Bytes)
  | startsWith (start : Bytes)
  | glob (text : Bytes) (pattern : Pattern)

variable {Pattern : Type}

def SectionNameMatcher.prefixBytes : SectionNameMatcher Pattern → Bytes
  | .exact name => name
  | .startsWith start => start
  | .glob text _ => text

structure SectionRule (Pattern : Type) where
  nameMatcher : SectionNameMatcher Pattern
  inputFilePattern : Option Pattern
  outcome : SectionRuleOutcome

def SectionRule.new (newPattern : Text → Option Pattern) (pattern : Bytes)
    (inputFilePattern : Option Bytes) (outcome : SectionRuleOutcome) :
    Except GlobError (SectionRule Pattern) := do
  let compiledFilePattern ← inputFilePattern.mapM (compileGlobPattern newPattern)
  let nameMatcher ←
    match analyzeGlobPattern pattern with
    | .exact => .ok (.exact pattern)
    | .escapedExact => .ok (.exact (unescapePattern pattern))
    | .star | .nonStar => (compileGlobPattern newPattern pattern).map (.glob pattern)
  return ⟨nameMatcher, compiledFilePattern, outcome⟩

section Matching

variable (globMatches : Pattern → Text → Bool)

/-- A pattern on bytes, which may be no text. -/
def matchesBytes (pattern : Pattern) (name : Bytes) : Bool :=
  (String.fromUTF8? ⟨name.toArray⟩).elim false fun name => globMatches pattern name.toList

def SectionNameMatcher.matchesName (sectionName : Bytes) : SectionNameMatcher Pattern → Bool
  | .exact name => sectionName = name
  | .startsWith start => start.isPrefixOf sectionName
  | .glob _ pattern => matchesBytes globMatches pattern sectionName

def SectionRule.matchesInput (rule : SectionRule Pattern) (sectionName : Bytes)
    (fileName : Option Bytes) : Bool :=
  rule.nameMatcher.matchesName globMatches sectionName &&
    match rule.inputFilePattern with
    | none => true
    | some pattern => fileName.elim false (matchesBytes globMatches pattern)

/-! ## The table -/

/-- The flags of a section header that decide about a section without a rule. -/
structure HeaderFlags where
  shouldExclude : Bool
  isAlloc : Bool
  isProgBits : Bool
  isNoBits : Bool
  isExecutable : Bool
  isTls : Bool
  isWritable : Bool

def unnamedSectionOutput (header : HeaderFlags) : SectionRuleOutcome :=
  if !header.isAlloc then .discard
  else if header.isProgBits then
    if header.isExecutable then .toSection (.regular text)
    else if header.isTls then .toSection (.regular tdata)
    else if header.isWritable then .toSection (.regular data)
    else .toSection (.regular rodata)
  else if header.isNoBits then
    if header.isTls then .toSection (.regular tbss) else .toSection (.regular bss)
  else .discard

variable (hashBytes : Bytes → UInt64)

/-- `section_name_prefix_hash`: none for a name of less than four bytes. -/
def sectionNamePrefixHash (name : Bytes) : Option UInt64 :=
  if 4 ≤ name.length then some (hashBytes (name.take 4)) else none

/-- The entries of the table and their hashes, in the order of insertion. -/
structure SectionRules (Pattern : Type) where
  rules : List (UInt64 × SectionRule Pattern)

/-- `from_rules`; `none` is the panic at a pattern of less than four bytes. -/
def SectionRules.fromRules (rules : List (SectionRule Pattern)) : Option (SectionRules Pattern) :=
  (rules.mapM fun rule =>
    (sectionNamePrefixHash hashBytes rule.nameMatcher.prefixBytes).map (·, rule)).map .mk

/-- `HashTable::find`: the first entry under the hash that satisfies the predicate. -/
def SectionRules.find (table : SectionRules Pattern) (hash : UInt64)
    (p : SectionRule Pattern → Bool) : Option (SectionRule Pattern) :=
  (table.rules.find? fun entry => entry.1 = hash && p entry.2).map (·.2)

/-- What becomes of a section that no rule matches. -/
def withoutRule (sectionName : Bytes) (header : HeaderFlags) : SectionRuleOutcome :=
  if sectionName.isEmpty then unnamedSectionOutput header else .custom

def SectionRules.lookup (table : SectionRules Pattern) (sectionName : Bytes)
    (fileName : Option Bytes) (header : HeaderFlags) : SectionRuleOutcome :=
  if header.shouldExclude then .discard
  else
    match (sectionNamePrefixHash hashBytes sectionName).bind fun hash =>
        table.find hash fun rule => rule.matchesInput globMatches sectionName fileName with
    | some rule => rule.outcome
    | none => withoutRule sectionName header

/-! ## A walk over the rules -/

/-- The outcome of the first rule that matches; sections that are to be
excluded are discarded before any rule is looked at. -/
def firstMatch (rules : List (SectionRule Pattern)) (sectionName : Bytes)
    (fileName : Option Bytes) (header : HeaderFlags) : SectionRuleOutcome :=
  if header.shouldExclude then .discard
  else
    match rules.find? (·.matchesInput globMatches sectionName fileName) with
    | some rule => rule.outcome
    | none => withoutRule sectionName header

end Matching

/-! ## What the table finds -/

section Lookup

variable {globMatches : Pattern → Text → Bool} {hashBytes : Bytes → UInt64}
  {rules : List (SectionRule Pattern)} {sectionName : Bytes} {fileName : Option Bytes}
  {header : HeaderFlags}

/-- A rule is stored where a section name is looked up. -/
def SectionRule.StoredFor (hashBytes : Bytes → UInt64) (sectionName : Bytes)
    (rule : SectionRule Pattern) : Prop :=
  4 ≤ sectionName.length ∧
    sectionNamePrefixHash hashBytes rule.nameMatcher.prefixBytes =
      sectionNamePrefixHash hashBytes sectionName

instance (rule : SectionRule Pattern) : Decidable (rule.StoredFor hashBytes sectionName) :=
  inferInstanceAs (Decidable (_ ∧ _))

/-- Every pattern has the four bytes that are hashed. -/
def LongPatterns (rules : List (SectionRule Pattern)) : Prop :=
  ∀ rule ∈ rules, 4 ≤ rule.nameMatcher.prefixBytes.length

theorem fromRules_eq (h : LongPatterns rules) : SectionRules.fromRules hashBytes rules =
      some ⟨rules.map fun rule => (hashBytes (rule.nameMatcher.prefixBytes.take 4), rule)⟩ := by
  have hmap : (rules.mapM fun rule =>
      (sectionNamePrefixHash hashBytes rule.nameMatcher.prefixBytes).map (·, rule)) =
        some (rules.map fun rule => (hashBytes (rule.nameMatcher.prefixBytes.take 4), rule)) := by
    induction rules with
    | nil => rfl
    | cons rule rules ih =>
      have hlong : 4 ≤ rule.nameMatcher.prefixBytes.length := h rule List.mem_cons_self
      rw [List.mapM_cons, ih fun r hr => h r (List.mem_cons_of_mem rule hr),
        sectionNamePrefixHash, if_pos hlong]
      rfl
  rw [SectionRules.fromRules, hmap]
  rfl

variable {table : SectionRules Pattern}

theorem long_of_fromRules
    (h : SectionRules.fromRules hashBytes rules = some table) : LongPatterns rules := by
  rw [SectionRules.fromRules, Option.map_eq_some_iff] at h
  obtain ⟨entries, hentries, _⟩ := h
  intro rule hrule
  by_contra hshort
  clear * - hentries hrule hshort
  induction rules generalizing entries with
  | nil => cases hrule
  | cons r rules ih =>
    rw [List.mapM_cons] at hentries
    obtain ⟨entry, hentry, hrest⟩ := Option.bind_eq_some_iff.mp hentries
    obtain ⟨rest, hrest, _⟩ := Option.bind_eq_some_iff.mp hrest
    rcases List.mem_cons.mp hrule with rfl | hrule
    · rw [sectionNamePrefixHash, if_neg hshort] at hentry
      cases hentry
    · exact ih rest hrest hrule

theorem find_eq (hash : UInt64) (p : SectionRule Pattern → Bool)
    (rules : List (SectionRule Pattern)) :
    (SectionRules.mk (rules.map fun rule =>
      (hashBytes (rule.nameMatcher.prefixBytes.take 4), rule))).find hash p =
      rules.find? fun rule => hashBytes (rule.nameMatcher.prefixBytes.take 4) = hash && p rule := by
  rw [SectionRules.find, List.find?_map, Option.map_map]
  exact Option.map_id'

/-- What is found under the hash of a name: the first rule that is stored
there and matches. -/
def foundUnder (globMatches : Pattern → Text → Bool) (hashBytes : Bytes → UInt64)
    (rules : List (SectionRule Pattern)) (sectionName : Bytes) (fileName : Option Bytes) :
    Option (SectionRule Pattern) :=
  rules.find? fun rule => rule.StoredFor hashBytes sectionName ∧
    rule.matchesInput globMatches sectionName fileName

/-- An outcome, if there is a rule, and otherwise that of a section without one. -/
def outcomeOr (sectionName : Bytes) (header : HeaderFlags) (rule : Option (SectionRule Pattern)) :
    SectionRuleOutcome :=
  rule.elim (withoutRule sectionName header) (·.outcome)

theorem lookup_eq (h : LongPatterns rules)
    (htable : SectionRules.fromRules hashBytes rules = some table) :
    table.lookup globMatches hashBytes sectionName fileName header =
      if header.shouldExclude then .discard
      else outcomeOr sectionName header
        (foundUnder globMatches hashBytes rules sectionName fileName) := by
  cases htable.symm.trans (fromRules_eq h)
  rw [SectionRules.lookup]
  split
  · rfl
  · have hfound : ((sectionNamePrefixHash hashBytes sectionName).bind fun hash =>
        (SectionRules.mk (rules.map fun rule =>
          (hashBytes (rule.nameMatcher.prefixBytes.take 4), rule))).find hash
            fun rule => rule.matchesInput globMatches sectionName fileName) =
          foundUnder globMatches hashBytes rules sectionName fileName := by
      by_cases hname : 4 ≤ sectionName.length
      · rw [sectionNamePrefixHash, if_pos hname, Option.bind_some, find_eq, foundUnder]
        -- for a pattern that is long enough, being stored there is having the hash
        induction rules with
        | nil => rfl
        | cons rule rules ih =>
          have hlong : 4 ≤ rule.nameMatcher.prefixBytes.length := h rule List.mem_cons_self
          have hrest := ih (fun r hr => h r (List.mem_cons_of_mem rule hr))
            (fromRules_eq fun r hr => h r (List.mem_cons_of_mem rule hr))
          have hstored : rule.StoredFor hashBytes sectionName ↔
              hashBytes (rule.nameMatcher.prefixBytes.take 4) = hashBytes (sectionName.take 4) := by
            rw [SectionRule.StoredFor, sectionNamePrefixHash, sectionNamePrefixHash, if_pos hlong,
              if_pos hname, Option.some.injEq]
            exact ⟨And.right, fun h => ⟨hname, h⟩⟩
          have hcond : (decide (hashBytes (rule.nameMatcher.prefixBytes.take 4) =
              hashBytes (sectionName.take 4)) &&
                rule.matchesInput globMatches sectionName fileName) =
              decide (rule.StoredFor hashBytes sectionName ∧
                rule.matchesInput globMatches sectionName fileName = true) := by
            rw [Bool.eq_iff_iff]
            simp only [Bool.and_eq_true, decide_eq_true_eq, hstored]
          rw [List.find?_cons, List.find?_cons, hcond, hrest]
      · have hnone : foundUnder globMatches hashBytes rules sectionName fileName = none := by
          rw [foundUnder, List.find?_eq_none]
          intro rule _ hrule
          exact hname (of_decide_eq_true hrule).1.1
        rw [sectionNamePrefixHash, if_neg hname, hnone]
        rfl
    rw [hfound]
    cases foundUnder globMatches hashBytes rules sectionName fileName <;> rfl

theorem firstMatch_eq : firstMatch globMatches rules sectionName fileName header =
      if header.shouldExclude then .discard
      else outcomeOr sectionName header
        (rules.find? (·.matchesInput globMatches sectionName fileName)) := by
  rw [firstMatch]
  split
  · rfl
  · cases rules.find? (·.matchesInput globMatches sectionName fileName) <;> rfl

variable {rule : SectionRule Pattern}

theorem storedFor_of_not_glob (hlong : 4 ≤ rule.nameMatcher.prefixBytes.length)
    (hglob : ∀ text pattern, rule.nameMatcher ≠ .glob text pattern)
    (h : rule.matchesInput globMatches sectionName fileName) :
    rule.StoredFor hashBytes sectionName := by
  rw [SectionRule.matchesInput, Bool.and_eq_true] at h
  have hname := h.1
  cases hmatcher : rule.nameMatcher with
  | glob text pattern => exact absurd hmatcher (hglob text pattern)
  | exact name =>
    rw [hmatcher] at hname hlong
    obtain rfl : sectionName = name := of_decide_eq_true hname
    refine ⟨hlong, ?_⟩
    rw [hmatcher]
    rfl
  | startsWith start =>
    rw [hmatcher] at hname hlong
    obtain ⟨rest, rfl⟩ := List.isPrefixOf_iff_prefix.mp hname
    have hfour : 4 ≤ start.length := hlong
    refine ⟨by rw [List.length_append]; omega, ?_⟩
    rw [hmatcher]
    show sectionNamePrefixHash hashBytes start = _
    rw [sectionNamePrefixHash, sectionNamePrefixHash, if_pos hfour,
      if_pos (by rw [List.length_append]; omega), List.take_append_of_le_length hfour]

theorem foundUnder_eq_none
    (h : rules.find? (·.matchesInput globMatches sectionName fileName) = none) :
    foundUnder globMatches hashBytes rules sectionName fileName = none := by
  rw [List.find?_eq_none] at h
  rw [foundUnder, List.find?_eq_none]
  intro rule hrule hfound
  exact h rule hrule (of_decide_eq_true hfound).2

theorem foundUnder_eq_some
    (h : rules.find? (·.matchesInput globMatches sectionName fileName) = some rule)
    (hstored : rule.StoredFor hashBytes sectionName) :
    foundUnder globMatches hashBytes rules sectionName fileName = some rule := by
  rw [List.find?_eq_some_iff_append] at h
  obtain ⟨hmatch, before, after, rfl, hbefore⟩ := h
  rw [foundUnder, List.find?_eq_some_iff_append]
  refine ⟨decide_eq_true ⟨hstored, hmatch⟩, before, after, rfl, fun r hr => ?_⟩
  rw [Bool.not_eq_true']
  refine decide_eq_false fun hfound => ?_
  have hnot := hbefore r hr
  rw [hfound.2] at hnot
  exact absurd hnot (by simp)

/-- What is said of the first rule that matches: it is no glob, or it is one
that is stored for the name, or what is found instead has its outcome. -/
def FoundOrSame (globMatches : Pattern → Text → Bool) (hashBytes : Bytes → UInt64)
    (rules : List (SectionRule Pattern)) (sectionName : Bytes) (fileName : Option Bytes)
    (header : HeaderFlags) (rule : SectionRule Pattern) : Prop :=
  (∀ text pattern, rule.nameMatcher ≠ .glob text pattern) ∨
    rule.StoredFor hashBytes sectionName ∨
    outcomeOr sectionName header
      (foundUnder globMatches hashBytes rules sectionName fileName) = rule.outcome

/-- The table is built, and gives a section the outcome of the first rule
that matches, exactly if all patterns have four bytes and the first rule
that matches, if it is a glob, is stored for the name of the section, or
what is found instead has the same outcome. -/
theorem lookup_eq_iff (globMatches : Pattern → Text → Bool) (hashBytes : Bytes → UInt64)
    (rules : List (SectionRule Pattern)) (sectionName : Bytes) (fileName : Option Bytes)
    (header : HeaderFlags) :
    (∃ table, SectionRules.fromRules hashBytes rules = some table ∧
      table.lookup globMatches hashBytes sectionName fileName header =
        firstMatch globMatches rules sectionName fileName header) ↔
      LongPatterns rules ∧ (header.shouldExclude = false → ∀ rule,
        rules.find? (·.matchesInput globMatches sectionName fileName) = some rule →
          FoundOrSame globMatches hashBytes rules sectionName fileName header rule) := by
  constructor
  · rintro ⟨table, htable, hlookup⟩
    have hlong := long_of_fromRules htable
    refine ⟨hlong, fun hheader rule hfirst => ?_⟩
    rw [lookup_eq hlong htable, firstMatch_eq, hheader, hfirst] at hlookup
    exact .inr (.inr hlookup)
  · rintro ⟨hlong, hfound⟩
    refine ⟨_, fromRules_eq hlong, ?_⟩
    rw [lookup_eq hlong (fromRules_eq hlong), firstMatch_eq]
    cases hheader : header.shouldExclude with
    | true => rfl
    | false =>
      rw [if_neg Bool.false_ne_true, if_neg Bool.false_ne_true]
      cases hfirst : rules.find? (·.matchesInput globMatches sectionName fileName) with
      | none => rw [foundUnder_eq_none hfirst]
      | some rule =>
        have hmatch : rule.matchesInput globMatches sectionName fileName = true :=
          @List.find?_some (SectionRule Pattern)
            (fun r => r.matchesInput globMatches sectionName fileName) _ _ hfirst
        have hmem : rule ∈ rules := List.mem_of_find?_eq_some hfirst
        rcases hfound hheader rule hfirst with hglob | hstored | hsame
        · rw [foundUnder_eq_some hfirst (storedFor_of_not_glob (hlong rule hmem) hglob hmatch)]
        · rw [foundUnder_eq_some hfirst hstored]
        · exact hsame

/-- `*(*)`: no table is built for the pattern `*`.  And one for `*.text` holds
nothing that `.text` is looked up under. -/
theorem star_is_too_short :
    (SectionRule.new (fun pattern : Text => some pattern) [42] none .discard =
        .ok ⟨.glob [42] ['*'], none, .discard⟩ ∧
      ¬∃ table, SectionRules.fromRules (fun _ => 0)
          [(⟨.glob [42] ['*'], none, .discard⟩ : SectionRule Text)] = some table ∧
        table.lookup (fun _ _ => true) (fun _ => 0) [46, 97, 98, 99] none
            ⟨false, true, true, false, false, false, false⟩ =
          firstMatch (fun _ _ => true)
            [(⟨.glob [42] ['*'], none, .discard⟩ : SectionRule Text)] [46, 97, 98, 99] none
            ⟨false, true, true, false, false, false, false⟩) ∧
      ¬∃ table, SectionRules.fromRules (fun name => (name.headD 0).toUInt64)
          [(⟨.glob [42, 46, 116, 101, 120, 116] "*.text".toList, none, .discard⟩ :
            SectionRule Text)] = some table ∧
        table.lookup (fun _ _ => true) (fun name => (name.headD 0).toUInt64)
            [46, 116, 101, 120, 116] none ⟨false, true, true, false, false, false, false⟩ =
          firstMatch (fun _ _ => true)
            [(⟨.glob [42, 46, 116, 101, 120, 116] "*.text".toList, none, .discard⟩ :
              SectionRule Text)]
            [46, 116, 101, 120, 116] none ⟨false, true, true, false, false, false, false⟩ := by
  refine ⟨⟨by rfl, ?_⟩, ?_⟩
  · rintro ⟨table, htable, -⟩
    have hnone : SectionRules.fromRules (fun _ => 0)
        [(⟨.glob [42] ['*'], none, .discard⟩ : SectionRule Text)] = none := rfl
    rw [hnone] at htable
    cases htable
  · rintro ⟨table, htable, hlookup⟩
    cases htable
    have hcustom : SectionRuleOutcome.custom = .discard := hlookup
    cases hcustom

end Lookup

end Sld.Rules
