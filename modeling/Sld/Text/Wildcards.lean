/-
# `Text.Wildcards` — patterns with wildcards, in two syntaxes

    ?        any character
    *        any sequence of characters
    [...]    a character of a class; `]` at its start and `-` at either end are members
    [!...]   a character that is not of the class

Both syntaxes have these.  The shell also negates a class by `^`, and takes
the character after `\` for itself, in a class as well as outside.  Path
patterns have no escapes, but `**`, which stands for the current directory
and any below it and has to be a component of its own; what is neither a
wildcard nor a class that is closed is refused.

    shellTokens    the tokens of a pattern of the shell
    pathTokens     the tokens of a path pattern, if it is valid
    matchesTokens  whether a text is one that the tokens stand for
-/
import Mathlib.Data.List.Infix
import Sld.Text.Numeral

namespace Sld.Text

open List (any_eq_true map_cons mem_cons_of_mem mem_cons_self)

/-! ## Tokens -/

inductive Specifier where
  | singleChar (c : Char)
  | charRange (first last : Char)

def Specifier.has (c : Char) : Specifier → Bool
  | .singleChar d => c = d
  | .charRange first last => first ≤ c && c ≤ last

inductive Token where
  | char (c : Char)
  | anyChar
  | anySequence
  | anyRecursiveSequence
  | anyWithin (specifiers : List Specifier)
  | anyExcept (specifiers : List Specifier)

/-- The tokens that stand for one character. -/
def Token.accepts (c : Char) : Token → Bool
  | .char d => c = d
  | .anyChar => true
  | .anySequence | .anyRecursiveSequence => false
  | .anyWithin specifiers => specifiers.any (·.has c)
  | .anyExcept specifiers => !specifiers.any (·.has c)

/-- What is left of a path after any of its separators, and its end. -/
def afterSeparators : Text → List Text
  | [] => [[]]
  | c :: name => if c = '/' then name :: afterSeparators name else afterSeparators name

/-- A token and what is to match after it. -/
def Token.followedBy (token : Token) (rest : Text → Bool) (name : Text) : Bool :=
  match token with
  | .anySequence => name.tails.any rest
  | .anyRecursiveSequence => (name :: afterSeparators name).any rest
  | token =>
    match name with
    | [] => false
    | c :: name => token.accepts c && rest name

def matchesTokens : List Token → Text → Bool
  | [] => List.isEmpty
  | token :: tokens => token.followedBy (matchesTokens tokens)

/-! ## Classes -/

/-- A character of a pattern, which may have lost its special meaning. -/
inductive Symbol where
  | plain (c : Char)
  | quoted (c : Char)
  deriving DecidableEq

def Symbol.value : Symbol → Char
  | .plain c => c
  | .quoted c => c

/-- A `\` quotes the character after it, and itself where there is none. -/
def symbols : Text → List Symbol
  | [] => []
  | ['\\'] => [.quoted '\\']
  | '\\' :: c :: pattern => .quoted c :: symbols pattern
  | c :: pattern => .plain c :: symbols pattern

def splitAtClose : List Symbol → Option (List Symbol × List Symbol)
  | [] => none
  | s :: rest =>
    if s = .plain ']' then some ([], rest)
    else (splitAtClose rest).map fun found => (s :: found.1, found.2)

/-- The members of a class; the first one may be `]`. -/
def classBody : List Symbol → Option (List Symbol × List Symbol)
  | [] => none
  | s :: rest => (splitAtClose rest).map fun found => (s :: found.1, found.2)

/-- What stands after `[`: whether the class is negated, its members and what follows. -/
def charClass (negations : List Char) : List Symbol → Option (Bool × List Symbol × List Symbol)
  | [] => none
  | s :: rest =>
    if s ∈ negations.map Symbol.plain then (classBody rest).map (true, ·)
    else (classBody (s :: rest)).map (false, ·)

/-- The specifiers of the members of a class. -/
def specifiers : List Symbol → List Specifier
  | [] => []
  | [s] => [.singleChar s.value]
  | [s, t] => [.singleChar s.value, .singleChar t.value]
  | s :: t :: u :: members =>
    if t = .plain '-' then .charRange s.value u.value :: specifiers members
    else .singleChar s.value :: specifiers (t :: u :: members)

def classToken (negated : Bool) (members : List Symbol) : Token :=
  if negated then .anyExcept (specifiers members) else .anyWithin (specifiers members)

/-! ## The two syntaxes -/

/-- The tokens of a pattern of the shell; a `[` that is not closed is a character. -/
def shellTokensOf : ℕ → List Symbol → List Token
  | 0, _ => []
  | _, [] => []
  | n + 1, s :: rest =>
    if s = .plain '*' then .anySequence :: shellTokensOf n rest
    else if s = .plain '?' then .anyChar :: shellTokensOf n rest
    else if s = .plain '[' then
      match charClass ['!', '^'] rest with
      | some (negated, members, rest) => classToken negated members :: shellTokensOf n rest
      | none => .char '[' :: shellTokensOf n rest
    else .char s.value :: shellTokensOf n rest

def shellTokens (pattern : Text) : List Token :=
  shellTokensOf pattern.length (symbols pattern)

/-- The tokens after `**`, which has to be the last component or to be followed by `/`. -/
def recursiveTokens (tokens : List Symbol → Option (List Token)) :
    List Symbol → Option (List Token)
  | [] => some [.anyRecursiveSequence]
  | s :: rest =>
    if s = .plain '/' then (tokens rest).map (.anyRecursiveSequence :: ·) else none

/-- The tokens of a path pattern; `previous` is the character before it. -/
def pathTokensOf : ℕ → Option Char → List Symbol → Option (List Token)
  | _, _, [] => some []
  | 0, _, _ :: _ => none
  | n + 1, previous, s :: rest =>
    if s = .plain '?' then (pathTokensOf n (some '?') rest).map (.anyChar :: ·)
    else if s = .plain '*' then
      if rest.head? = some (.plain '*') then
        if previous = none ∨ previous = some '/' then
          recursiveTokens (pathTokensOf n (some '/')) rest.tail
        else none
      else (pathTokensOf n (some '*') rest).map (.anySequence :: ·)
    else if s = .plain '[' then
      (charClass ['!'] rest).bind fun found =>
        (pathTokensOf n (some ']') found.2.2).map (classToken found.1 found.2.1 :: ·)
    else (pathTokensOf n (some s.value) rest).map (.char s.value :: ·)

/-- The tokens of a path pattern, if it is valid. -/
def pathTokens (pattern : Text) : Option (List Token) :=
  pathTokensOf pattern.length none (pattern.map .plain)

/-! ## Matching -/

theorem matchesTokens_cons (token : Token) (tokens : List Token) :
    matchesTokens (token :: tokens) = token.followedBy (matchesTokens tokens) := rfl

theorem matchesTokens_chars (cs name : Text) :
    matchesTokens (cs.map .char) name = decide (name = cs) := by
  induction cs generalizing name with
  | nil => cases name <;> rfl
  | cons c cs ih =>
    cases name with
    | nil => rfl
    | cons d name =>
      show (decide (d = c) && matchesTokens (cs.map .char) name) = _
      rw [ih, ← Bool.decide_and]
      exact decide_eq_decide.mpr (List.cons_eq_cons (a := d)).symm

theorem matchesTokens_star (name : Text) : matchesTokens [.anySequence] name = true := by
  show name.tails.any List.isEmpty = true
  rw [any_eq_true]
  exact ⟨[], (List.mem_tails _ _).mpr List.nil_suffix, rfl⟩

theorem matchesTokens_star_star (name : Text) :
    matchesTokens [.anySequence, .anySequence] name = true := by
  show name.tails.any (matchesTokens [.anySequence]) = true
  rw [any_eq_true]
  exact ⟨[], (List.mem_tails _ _).mpr List.nil_suffix, matchesTokens_star []⟩

theorem nil_mem_afterSeparators (name : Text) : [] ∈ afterSeparators name := by
  induction name with
  | nil => exact List.mem_singleton_self []
  | cons c name ih =>
    rw [afterSeparators]
    split
    · exact mem_cons_of_mem name ih
    · exact ih

theorem matchesTokens_recursive (name : Text) :
    matchesTokens [.anyRecursiveSequence] name = true := by
  show (name :: afterSeparators name).any List.isEmpty = true
  rw [any_eq_true]
  exact ⟨[], mem_cons_of_mem _ (nil_mem_afterSeparators name), rfl⟩

/-! ## Reading -/

/-- Symbols without a special meaning. -/
def Symbol.IsLiteral (s : Symbol) : Prop :=
  s ≠ .plain '*' ∧ s ≠ .plain '?' ∧ s ≠ .plain '['

variable {ss : List Symbol}

theorem shellTokensOf_literals {n : ℕ} (hn : ss.length ≤ n)
    (h : ∀ s ∈ ss, s.IsLiteral) : shellTokensOf n ss = (ss.map Symbol.value).map .char := by
  induction n generalizing ss with
  | zero =>
    rw [List.length_eq_zero_iff.mp (Nat.le_zero.mp hn)]
    rfl
  | succ n ih =>
    cases ss with
    | nil => rfl
    | cons s rest =>
      obtain ⟨hstar, hany, hopen⟩ := h s mem_cons_self
      rw [shellTokensOf, if_neg hstar, if_neg hany, if_neg hopen,
        ih (Nat.le_of_succ_le_succ hn) fun s hs => h s (mem_cons_of_mem _ hs)]
      rfl

theorem length_symbols_le (pattern : Text) : (symbols pattern).length ≤ pattern.length := by
  fun_induction symbols pattern <;> simp only [List.length_cons, List.length_nil] at * <;> omega

variable {pattern : Text}

theorem matches_literals (h : ∀ s ∈ symbols pattern, s.IsLiteral) (name : Text) :
    matchesTokens (shellTokens pattern) name =
      decide (name = (symbols pattern).map Symbol.value) := by
  rw [shellTokens, shellTokensOf_literals (length_symbols_le pattern) h, matchesTokens_chars]

theorem symbols_eq_map (h : ∀ s ∈ symbols pattern, ∃ c, s = .plain c) :
    symbols pattern = pattern.map .plain := by
  fun_induction symbols pattern with
  | case1 => rfl
  | case2 =>
    obtain ⟨c, hc⟩ := h _ mem_cons_self
    cases hc
  | case3 c pattern _ =>
    obtain ⟨d, hd⟩ := h _ mem_cons_self
    cases hd
  | case4 c pattern _ _ ih =>
    rw [ih fun s hs => h s (mem_cons_of_mem _ hs)]
    rfl

/-! ## Classes of plain symbols -/

theorem plain_ne_close {c : Char} {b : Text} (h : ']' ∉ c :: b) : Symbol.plain c ≠ .plain ']' := by
  intro heq
  injection heq with heq
  exact h (heq ▸ mem_cons_self)

theorem splitAtClose_map {b : Text} (h : ']' ∉ b) (r : Text) :
    splitAtClose ((b ++ ']' :: r).map .plain) = some (b.map .plain, r.map .plain) := by
  induction b with
  | nil => rfl
  | cons c b ih =>
    rw [List.cons_append, map_cons, splitAtClose, if_neg (plain_ne_close h),
      ih fun hmem => h (mem_cons_of_mem _ hmem)]
    rfl

theorem splitAtClose_eq_none {u : Text} (h : ']' ∉ u) : splitAtClose (u.map .plain) = none := by
  induction u with
  | nil => rfl
  | cons c u ih =>
    rw [map_cons, splitAtClose, if_neg (plain_ne_close h), ih fun hmem => h (mem_cons_of_mem _ hmem)]
    rfl

variable {found : List Symbol × List Symbol}

theorem splitAtClose_eq_some
    (h : splitAtClose ss = some found) : ss = found.1 ++ .plain ']' :: found.2 := by
  induction ss generalizing found with
  | nil => cases h
  | cons s rest ih =>
    rw [splitAtClose] at h
    split at h
    · rename_i hs
      cases h
      rw [hs]
      rfl
    · obtain ⟨inner, hinner, rfl⟩ := Option.map_eq_some_iff.mp h
      rw [ih hinner]
      rfl

theorem classBody_eq_some
    (h : classBody ss = some found) : ss = found.1 ++ .plain ']' :: found.2 := by
  cases ss with
  | nil => cases h
  | cons s rest =>
    obtain ⟨inner, hinner, rfl⟩ := Option.map_eq_some_iff.mp h
    rw [splitAtClose_eq_some hinner]
    rfl

theorem charClass_eq_some {negations : List Char} {negated : Bool}
    {members rest : List Symbol} (h : charClass negations ss = some (negated, members, rest)) :
    ss = members ++ .plain ']' :: rest ∨
      ∃ c ∈ negations, ss = .plain c :: (members ++ .plain ']' :: rest) := by
  cases ss with
  | nil => cases h
  | cons s ss =>
    rw [charClass] at h
    split at h
    · rename_i hs
      obtain ⟨c, hc, rfl⟩ := List.mem_map.mp hs
      obtain ⟨found, hfound, heq⟩ := Option.map_eq_some_iff.mp h
      injection heq with _ heq
      subst heq
      exact .inr ⟨c, hc, by rw [classBody_eq_some hfound]⟩
    · obtain ⟨found, hfound, heq⟩ := Option.map_eq_some_iff.mp h
      injection heq with _ heq
      subst heq
      exact .inl (classBody_eq_some hfound)

end Sld.Text
