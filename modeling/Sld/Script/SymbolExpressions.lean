/-
# `Script.SymbolExpressions` — sums of numbers and a symbol

The value of `--defsym` and of `PROVIDE` is read in one pass over its
characters: it is cut at the signs, each piece is a number or a symbol, the
numbers are added up with their signs, and the first symbol is kept.

    Spells       the terms that a text is the sum of
    meaning      what a sum of terms, and what the result, is for given
                 values of the symbols, modulo 2^64
    Lossless     the result means the whole sum or, where no result could,
                 no part of it; and no product of a sign and a number
                 overflows
    lossless_iff this is so exactly if there is at most one symbol, with no
                 minus before it, and 2^63 is not subtracted
-/
import Mathlib.Data.List.DropRight
import Mathlib.Data.UInt
import Mathlib.Algebra.BigOperators.Group.List.Basic
import Sld.Text.Hex

namespace Sld.Script

open Text
open List (cons_append filter_cons_of_neg filter_cons_of_pos map_cons mem_cons mem_cons_of_mem
  mem_cons_self nil_append sum_cons)

/-! ## Numbers -/

def isWhitespace (c : Char) : Bool :=
  (9 ≤ c.toNat && c.toNat ≤ 13) || c.toNat = 0x20 || c.toNat = 0x85 || c.toNat = 0xA0 ||
    c.toNat = 0x1680 || (0x2000 ≤ c.toNat && c.toNat ≤ 0x200A) || c.toNat = 0x2028 ||
    c.toNat = 0x2029 || c.toNat = 0x202F || c.toNat = 0x205F || c.toNat = 0x3000

def trim (t : Text) : Text := (t.dropWhile isWhitespace).rdropWhile isWhitespace

/-- The number of a nonempty run of hexadecimal digits. -/
def parseHexDigits (t : Text) : Option ℕ :=
  if t = [] then none
  else t.foldl (fun n c => n.bind fun n => (hexValue c).map fun d => 16 * n + d) (some 0)

/-- `u64::from_str_radix(hex, 16)`, before the range check. -/
def parseHexUnsigned : Text → Option ℕ
  | '+' :: t => parseHexDigits t
  | t => parseHexDigits t

/-- `parse_number`: hexadecimal after `0x`, otherwise decimal. -/
def parseNumber (s : Text) : Option UInt64 :=
  match s with
  | '0' :: 'x' :: hex => inRange UInt64 UInt64.ofNat UInt64.size (parseHexUnsigned hex)
  | s => inRange UInt64 UInt64.ofNat UInt64.size (parseUnsigned s)

/-! ## The parser -/

inductive ParsedSymbolExpression where
  | absolute (value : UInt64)
  | symbolWithOffset (symbol : Text) (offset : Int64)
  deriving DecidableEq

/-- `a * b`, unless it overflows. -/
def checkedMul (a b : Int64) : Option Int64 :=
  if -2 ^ 63 ≤ a.toInt * b.toInt ∧ a.toInt * b.toInt < 2 ^ 63 then some (a * b) else none

/-- The variables of the loop, but for where the piece starts. -/
structure ScanState where
  symbol : Option Text
  offset : Int64
  currentSign : Int64
  deriving DecidableEq

/-- One piece without the blanks at its ends: a number is added, the first
symbol is kept.  `none` is an overflow of the product. -/
def addToken (st : ScanState) (token : Text) : Option ScanState :=
  match parseNumber token with
  | some val =>
    (checkedMul st.currentSign val.toInt64).map fun product =>
      { st with offset := st.offset + product }
  | none =>
    if st.symbol = none ∧ token ≠ [] then some { st with symbol := some token } else some st

def IsSign (c : Char) : Prop := c = '+' ∨ c = '-'

instance (c : Char) : Decidable (IsSign c) := inferInstanceAs (Decidable (_ ∨ _))

/-- The loop over the characters; `piece` is the text since the last sign. -/
def scan (st : ScanState) (piece : Text) : Text → Option ScanState
  | [] => addToken st (trim piece)
  | ch :: s =>
    if IsSign ch then
      (addToken st (trim piece)).bind fun st =>
        scan { st with currentSign := if ch = '+' then 1 else -1 } [] s
    else scan st (piece ++ [ch]) s

/-- `match symbol` -/
def ScanState.result (st : ScanState) : ParsedSymbolExpression :=
  match st.symbol with
  | some symbol => .symbolWithOffset symbol st.offset
  | none => .absolute st.offset.toUInt64

/-- `parse_symbol_expression`, with `none` for an overflow. -/
def parseSymbolExpression (s : Text) : Option ParsedSymbolExpression :=
  match s with
  | '-' :: s => (scan ⟨none, 0, -1⟩ [] s).map (·.result)
  | '+' :: s => (scan ⟨none, 0, 1⟩ [] s).map (·.result)
  | s => (scan ⟨none, 0, 1⟩ [] s).map (·.result)

/-! ## Sums -/

/-- A number or a name, without blanks around it, and whether it is subtracted. -/
structure SumTerm where
  negative : Bool
  token : Text
  deriving DecidableEq

/-- The text between two signs. -/
structure SpellsPiece (piece token : Text) : Prop where
  noSign : ∀ c ∈ piece, ¬ IsSign c
  trimmed : trim piece = token
  nonempty : token ≠ []

/-- Terms after their signs. -/
inductive SpellsTail : Text → List SumTerm → Prop
  | nil : SpellsTail [] []
  | cons {negative : Bool} {piece token rest : Text} {terms : List SumTerm}
      (head : SpellsPiece piece token) (tail : SpellsTail rest terms) :
      SpellsTail ((if negative then '-' else '+') :: (piece ++ rest)) (⟨negative, token⟩ :: terms)

/-- The text of a sum of terms, the first of them with or without a sign. -/
inductive Spells : Text → List SumTerm → Prop
  | unsigned {piece token rest : Text} {terms : List SumTerm}
      (head : SpellsPiece piece token) (tail : SpellsTail rest terms) :
      Spells (piece ++ rest) (⟨false, token⟩ :: terms)
  | signed {blank s : Text} {terms : List SumTerm} (blanks : ∀ c ∈ blank, isWhitespace c)
      (nonempty : terms ≠ []) (all : SpellsTail s terms) : Spells (blank ++ s) terms

/-- The value of a token: a number, or what the symbol is. -/
def tokenValue (values : Text → UInt64) (token : Text) : UInt64 :=
  (parseNumber token).getD (values token)

def SumTerm.value (values : Text → UInt64) (t : SumTerm) : UInt64 :=
  if t.negative then -tokenValue values t.token else tokenValue values t.token

/-- The value of a sum, modulo 2^64. -/
def meaning (values : Text → UInt64) (terms : List SumTerm) : UInt64 :=
  (terms.map (·.value values)).sum

/-- The value that the symbol is given. -/
def ParsedSymbolExpression.meaning (values : Text → UInt64) : ParsedSymbolExpression → UInt64
  | .absolute value => value
  | .symbolWithOffset symbol offset => values symbol + offset.toUInt64

/-- A term that is not a number. -/
def SumTerm.IsName (t : SumTerm) : Prop := parseNumber t.token = none

instance (t : SumTerm) : Decidable t.IsName := inferInstanceAs (Decidable (_ = none))

/-- At most one symbol, which is not subtracted. -/
def OneSymbol (terms : List SumTerm) : Prop :=
  terms.filter (·.IsName) = [] ∨
    ∃ token, terms.filter (·.IsName) = [⟨false, token⟩]

/-- What is left of a term at most loses its minus. -/
def SumTerm.Keeps (t' t : SumTerm) : Prop := t'.token = t.token ∧ (t'.negative → t.negative)

/-- A sum from which terms or minus signs were dropped. -/
def Shorter (terms' terms : List SumTerm) : Prop :=
  List.SublistForall₂ SumTerm.Keeps terms' terms ∧ terms' ≠ terms

/-- The product of a sign and this number overflows. -/
def SumTerm.Overflows (t : SumTerm) : Prop := t.negative ∧ parseNumber t.token = some 0x8000000000000000

/-- Reading the text overflows nowhere; the result means the sum if there
is at most one symbol, which is added, and otherwise it does not mean what
is left of the sum when something is dropped. -/
def Lossless (s : Text) (terms : List SumTerm) : Prop :=
  ∃ result, parseSymbolExpression s = some result ∧
    (OneSymbol terms → ∀ values, result.meaning values = meaning values terms) ∧
    (¬ OneSymbol terms →
      ∀ terms', Shorter terms' terms → ¬ ∀ values, result.meaning values = meaning values terms')

/-! ## What the loop computes -/

/-- The loop, term by term. -/
def addTerms (st : ScanState) : List SumTerm → Option ScanState
  | [] => some st
  | t :: terms =>
    (addToken { st with currentSign := if t.negative then -1 else 1 } t.token).bind
      fun st => addTerms st terms

theorem scan_append {u : Text} (h : ∀ c ∈ u, ¬ IsSign c) (st : ScanState) (piece s : Text) :
    scan st piece (u ++ s) = scan st (piece ++ u) s := by
  induction u generalizing piece with
  | nil => rw [nil_append, List.append_nil]
  | cons c u ih =>
    rw [cons_append, scan, if_neg (h c mem_cons_self),
      ih fun d hd => h d (mem_cons_of_mem c hd), List.append_assoc]
    rfl

variable {s : Text} {terms : List SumTerm}

theorem scan_piece {piece token : Text} (h : SpellsPiece piece token)
    (htail : SpellsTail s terms) (st : ScanState) :
    scan st [] (piece ++ s) = (addToken st token).bind fun st => addTerms st terms := by
  induction htail generalizing piece token st with
  | nil =>
    rw [scan_append h.noSign, nil_append, scan, h.trimmed]
    cases addToken st token <;> rfl
  | @cons negative piece' token' rest terms head _ ih =>
    have hsign : IsSign (if negative then '-' else '+') := by
      cases negative
      · exact .inl rfl
      · exact .inr rfl
    have hplus : (if (if negative then '-' else '+') = '+' then (1 : Int64) else -1) =
        if negative then -1 else 1 := by
      cases negative <;> rfl
    rw [scan_append h.noSign, nil_append, scan, if_pos hsign, h.trimmed, hplus]
    congr 1
    funext st
    exact ih head _

variable {c : Char}

theorem not_isSign_of_isWhitespace (h : isWhitespace c) : ¬ IsSign c := by
  rintro (rfl | rfl) <;> exact absurd h (by decide)

theorem trim_blank {blank : Text} (h : ∀ c ∈ blank, isWhitespace c) : trim blank = [] := by
  rw [trim, List.dropWhile_eq_nil_iff.mpr h]
  rfl

theorem parse_of_not_sign (h : ¬ IsSign c) (s : Text) :
    parseSymbolExpression (c :: s) = (scan ⟨none, 0, 1⟩ [] (c :: s)).map (·.result) := by
  unfold parseSymbolExpression
  split
  · rename_i heq
    exact absurd (.inr (List.cons.inj heq).1) h
  · rename_i heq
    exact absurd (.inl (List.cons.inj heq).1) h
  · rfl

theorem parse_of_sign (negative : Bool) (s : Text) :
    parseSymbolExpression ((if negative then '-' else '+') :: s) =
      (scan ⟨none, 0, if negative then -1 else 1⟩ [] s).map (·.result) := by
  cases negative <;> rfl

theorem parse_of_spells (h : Spells s terms) :
    parseSymbolExpression s = (addTerms ⟨none, 0, 1⟩ terms).map (·.result) := by
  cases h with
  | @unsigned piece token rest terms head tail =>
    have hnonempty : piece ≠ [] := by
      rintro rfl
      exact head.nonempty head.trimmed.symm
    obtain ⟨c, u, rfl⟩ := List.exists_cons_of_ne_nil hnonempty
    rw [cons_append, parse_of_not_sign (head.noSign c mem_cons_self),
      ← cons_append, scan_piece head tail]
    rfl
  | @signed blank s terms blanks nonempty all =>
    cases all with
    | nil => exact absurd rfl nonempty
    | @cons negative piece token rest terms head tail =>
      cases blank with
      | nil =>
        rw [nil_append, parse_of_sign, scan_piece head tail]
        rfl
      | cons c blank =>
        -- the blanks before the sign are a piece that is skipped
        have hsign : ∀ d ∈ c :: blank, ¬ IsSign d := fun d hd =>
          not_isSign_of_isWhitespace (blanks d hd)
        have hempty : addToken ⟨none, 0, 1⟩ (trim (c :: blank)) = some ⟨none, 0, 1⟩ := by
          rw [trim_blank blanks]
          decide
        rw [cons_append, parse_of_not_sign (hsign c mem_cons_self),
          ← cons_append, scan_append hsign, nil_append, scan]
        have his : IsSign (if negative then '-' else '+') := by
          cases negative
          · exact .inl rfl
          · exact .inr rfl
        rw [hempty, Option.bind_some, scan_piece head tail]
        cases negative <;> rfl

/-! ## What the terms add up to -/

/-- What a term adds to the offset. -/
def SumTerm.numeric (t : SumTerm) : UInt64 :=
  if t.negative then -(parseNumber t.token).getD 0 else (parseNumber t.token).getD 0

theorem checkedMul_one (val : UInt64) : checkedMul 1 val.toInt64 = some val.toInt64 := by
  have hlo := val.toInt64.le_toInt
  have hhi := val.toInt64.toInt_lt
  have hone : (1 : Int64).toInt = 1 := by decide
  rw [checkedMul, hone, one_mul, if_pos ⟨hlo, hhi⟩, Int64.one_mul]

theorem checkedMul_neg_one {val : UInt64} (h : val ≠ 0x8000000000000000) :
    checkedMul (-1) val.toInt64 = some (-val.toInt64) := by
  have hlo := val.toInt64.le_toInt
  have hhi := val.toInt64.toInt_lt
  have hone : (-1 : Int64).toInt = -1 := by decide
  have hmin : val.toInt64.toInt ≠ -2 ^ 63 := by
    intro heq
    have hval : val.toInt64 = Int64.minValue := Int64.toInt_inj.mp heq
    exact h (by rw [← UInt64.toUInt64_toInt64 val, hval]; decide)
  have hrange : -2 ^ 63 ≤ -1 * val.toInt64.toInt ∧ -1 * val.toInt64.toInt < 2 ^ 63 := by
    omega
  rw [checkedMul, hone, if_pos hrange, Int64.neg_mul, Int64.one_mul]

variable {t : SumTerm}

theorem numeric_of_isName (h : t.IsName) : t.numeric = 0 := by
  have hnone : parseNumber t.token = none := h
  rw [SumTerm.numeric, hnone]
  split <;> rfl

theorem value_of_not_isName (h : ¬ t.IsName) (values : Text → UInt64) :
    t.value values = t.numeric := by
  obtain ⟨val, hval⟩ := Option.ne_none_iff_exists'.mp h
  rw [SumTerm.value, SumTerm.numeric, tokenValue, hval]
  rfl

theorem addToken_overflow (h : t.Overflows) (st : ScanState) :
    addToken { st with currentSign := if t.negative then -1 else 1 } t.token = none := by
  rw [addToken, h.2]
  show (checkedMul (if t.negative then -1 else 1) _).map _ = none
  rw [if_pos h.1]
  rfl

theorem addToken_number (hname : ¬ t.IsName) (hover : ¬ t.Overflows) (st : ScanState) :
    ∃ st', addToken { st with currentSign := if t.negative then -1 else 1 } t.token = some st' ∧
      st'.symbol = st.symbol ∧ st'.offset.toUInt64 = st.offset.toUInt64 + t.numeric := by
  obtain ⟨val, hval⟩ := Option.ne_none_iff_exists'.mp hname
  rw [addToken, SumTerm.numeric, hval]
  cases hneg : t.negative with
  | false =>
    refine ⟨_, congrArg (Option.map _) (checkedMul_one val), rfl, ?_⟩
    rfl
  | true =>
    have hne : val ≠ 0x8000000000000000 := by
      rintro rfl
      exact hover ⟨hneg, hval⟩
    refine ⟨_, congrArg (Option.map _) (checkedMul_neg_one hne), rfl, ?_⟩
    rfl

theorem addToken_name (hname : t.IsName) (hne : t.token ≠ []) (st : ScanState) :
    ∃ st', addToken { st with currentSign := if t.negative then -1 else 1 } t.token = some st' ∧
      st'.symbol = some (st.symbol.getD t.token) ∧ st'.offset = st.offset := by
  rw [addToken, hname]
  cases hsym : st.symbol with
  | none => exact ⟨_, if_pos ⟨rfl, hne⟩, rfl, rfl⟩
  | some symbol => exact ⟨_, if_neg (by simp), rfl, rfl⟩

/-- The first term that is not a number. -/
def firstName : List SumTerm → Option Text
  | [] => none
  | t :: terms => if t.IsName then some t.token else firstName terms

theorem addTerms_overflow (h : ∃ t ∈ terms, t.Overflows)
    (hne : ∀ t ∈ terms, t.token ≠ []) (st : ScanState) : addTerms st terms = none := by
  induction terms generalizing st with
  | nil =>
    obtain ⟨t, ht, _⟩ := h
    cases ht
  | cons t terms ih =>
    rw [addTerms]
    by_cases hover : t.Overflows
    · rw [addToken_overflow hover]
      rfl
    · have hlater : ∃ t ∈ terms, t.Overflows := by
        obtain ⟨u, hu, huover⟩ := h
        rcases mem_cons.mp hu with rfl | hu
        · exact absurd huover hover
        · exact ⟨u, hu, huover⟩
      have hstep : ∃ st', addToken { st with currentSign := if t.negative then -1 else 1 }
          t.token = some st' := by
        by_cases hname : t.IsName
        · obtain ⟨st', hst, _⟩ := addToken_name hname (hne t mem_cons_self) st
          exact ⟨st', hst⟩
        · obtain ⟨st', hst, _⟩ := addToken_number hname hover st
          exact ⟨st', hst⟩
      obtain ⟨st', hst⟩ := hstep
      rw [hst]
      exact ih hlater (fun u hu => hne u (mem_cons_of_mem t hu)) st'

theorem addTerms_eq (hover : ∀ t ∈ terms, ¬ t.Overflows)
    (hne : ∀ t ∈ terms, t.token ≠ []) (st : ScanState) :
    ∃ st', addTerms st terms = some st' ∧ st'.symbol = st.symbol.or (firstName terms) ∧
      st'.offset.toUInt64 = st.offset.toUInt64 + (terms.map (·.numeric)).sum := by
  induction terms generalizing st with
  | nil => exact ⟨st, rfl, by simp [firstName], by simp⟩
  | cons t terms ih =>
    have hover' : ∀ u ∈ terms, ¬ u.Overflows := fun u hu => hover u (mem_cons_of_mem t hu)
    have hne' : ∀ u ∈ terms, u.token ≠ [] := fun u hu => hne u (mem_cons_of_mem t hu)
    rw [addTerms]
    by_cases hname : t.IsName
    · obtain ⟨st₁, hst₁, hsym, hoff⟩ := addToken_name hname (hne t mem_cons_self) st
      obtain ⟨st', hst', hsym', hoff'⟩ := ih hover' hne' st₁
      have hzero : t.numeric = 0 := numeric_of_isName hname
      refine ⟨st', by rw [hst₁]; exact hst', ?_, ?_⟩
      · rw [hsym', hsym, firstName, if_pos hname]
        cases st.symbol <;> rfl
      · rw [hoff', hoff, map_cons, sum_cons, hzero, zero_add]
    · obtain ⟨st₁, hst₁, hsym, hoff⟩ := addToken_number hname (hover t mem_cons_self) st
      obtain ⟨st', hst', hsym', hoff'⟩ := ih hover' hne' st₁
      refine ⟨st', by rw [hst₁]; exact hst', ?_, ?_⟩
      · rw [hsym', hsym, firstName, if_neg hname]
      · rw [hoff', hoff, map_cons, sum_cons, add_assoc]

/-- What the result means: the first name, and all numbers. -/
def keptMeaning (values : Text → UInt64) (terms : List SumTerm) : UInt64 :=
  ((firstName terms).map values).getD 0 + (terms.map (·.numeric)).sum

theorem tokens_ne_nil (h : Spells s terms) : ∀ t ∈ terms, t.token ≠ [] := by
  have htail : ∀ {s : Text} {terms : List SumTerm}, SpellsTail s terms →
      ∀ t ∈ terms, t.token ≠ [] := by
    intro s terms h
    induction h with
    | nil => intro t ht; cases ht
    | cons head _ ih =>
      intro t ht
      rcases mem_cons.mp ht with rfl | ht
      · exact head.nonempty
      · exact ih t ht
  cases h with
  | unsigned head tail =>
    intro t ht
    rcases mem_cons.mp ht with rfl | ht
    · exact head.nonempty
    · exact htail tail t ht
  | signed _ _ all => exact htail all

theorem parse_eq (h : Spells s terms) (hover : ∀ t ∈ terms, ¬ t.Overflows) :
    ∃ result, parseSymbolExpression s = some result ∧
      ∀ values, result.meaning values = keptMeaning values terms := by
  obtain ⟨st, hst, hsym, hoff⟩ := addTerms_eq hover (tokens_ne_nil h) ⟨none, 0, 1⟩
  refine ⟨st.result, ?_, fun values => ?_⟩
  · rw [parse_of_spells h, hst]
    rfl
  · have hzero : (0 : Int64).toUInt64 = 0 := by decide
    rw [Option.none_or] at hsym
    rw [hzero, zero_add] at hoff
    rw [ScanState.result, hsym, keptMeaning, ← hoff]
    cases firstName terms with
    | none => exact (zero_add _).symm
    | some name => rfl

/-! ## What is lost -/

theorem meaning_eq (values : Text → UInt64) (terms : List SumTerm) : meaning values terms =
      ((terms.filter (·.IsName)).map (·.value values)).sum + (terms.map (·.numeric)).sum := by
  induction terms with
  | nil => rfl
  | cons t terms ih =>
    have hcons : meaning values (t :: terms) = t.value values + meaning values terms := rfl
    rw [hcons, ih, map_cons, sum_cons]
    by_cases hname : t.IsName
    · have hzero : t.numeric = 0 := numeric_of_isName hname
      rw [filter_cons_of_pos (by simpa using hname), map_cons, sum_cons, hzero,
        zero_add, add_assoc]
    · have hvalue := value_of_not_isName hname values
      rw [filter_cons_of_neg (by simpa using hname), hvalue, add_left_comm]

theorem firstName_eq (terms : List SumTerm) :
    firstName terms = (terms.filter (·.IsName)).head?.map (·.token) := by
  induction terms with
  | nil => rfl
  | cons t terms ih =>
    rw [firstName]
    by_cases hname : t.IsName
    · rw [if_pos hname, filter_cons_of_pos (by simpa using hname)]
      rfl
    · rw [if_neg hname, filter_cons_of_neg (by simpa using hname), ih]

theorem meaning_of_oneSymbol (h : OneSymbol terms)
    (values : Text → UInt64) : keptMeaning values terms = meaning values terms := by
  rw [keptMeaning, meaning_eq, firstName_eq]
  rcases h with hnone | ⟨token, hone⟩
  · rw [hnone]
    rfl
  · have hname : parseNumber token = none := by
      have hmem : (⟨false, token⟩ : SumTerm) ∈ terms.filter (·.IsName) := by
        rw [hone]
        exact List.mem_singleton.mpr rfl
      exact of_decide_eq_true (List.mem_filter.mp hmem).2
    rw [hone]
    show values token + _ = (tokenValue values token + 0) + _
    rw [tokenValue, hname, add_zero]
    rfl

/-- The sum that is left: all numbers and the first name, with a plus. -/
def kept : List SumTerm → List SumTerm
  | [] => []
  | t :: terms =>
    if t.IsName then ⟨false, t.token⟩ :: terms.filter (fun u => ¬ u.IsName)
    else t :: kept terms

theorem sublistForall₂_filter (p : SumTerm → Bool) (terms : List SumTerm) :
    List.SublistForall₂ SumTerm.Keeps (terms.filter p) terms := by
  induction terms with
  | nil => exact .nil
  | cons t terms ih =>
    cases hp : p t with
    | true =>
      rw [filter_cons_of_pos hp]
      exact .cons ⟨rfl, id⟩ ih
    | false =>
      rw [filter_cons_of_neg (by simp [hp])]
      exact .cons_right ih

theorem sublistForall₂_kept (terms : List SumTerm) :
    List.SublistForall₂ SumTerm.Keeps (kept terms) terms := by
  induction terms with
  | nil => exact .nil
  | cons t terms ih =>
    rw [kept]
    split
    · exact .cons ⟨rfl, fun h => absurd h (by simp)⟩ (sublistForall₂_filter _ terms)
    · exact .cons ⟨rfl, id⟩ ih

theorem oneSymbol_of_kept (h : kept terms = terms) : OneSymbol terms := by
  induction terms with
  | nil => exact .inl rfl
  | cons t terms ih =>
    rw [kept] at h
    by_cases hname : t.IsName
    · rw [if_pos hname] at h
      obtain ⟨ht, hrest⟩ := List.cons.inj h
      right
      refine ⟨t.token, ?_⟩
      have hnone : terms.filter (·.IsName) = [] := by
        rw [← hrest]
        simp
      rw [filter_cons_of_pos (by simpa using hname), hnone, ← ht]
    · rw [if_neg hname] at h
      have hfilter : (t :: terms).filter (·.IsName) = terms.filter (·.IsName) :=
        filter_cons_of_neg (by simpa using hname)
      rw [OneSymbol, hfilter]
      exact ih (List.cons.inj h).2

theorem meaning_kept (values : Text → UInt64) (terms : List SumTerm) :
    meaning values (kept terms) = keptMeaning values terms := by
  have hnumbers : ∀ terms : List SumTerm,
      meaning values (terms.filter fun u => ¬ u.IsName) = (terms.map (·.numeric)).sum := by
    intro terms
    induction terms with
    | nil => rfl
    | cons t terms ih =>
      rw [map_cons, sum_cons]
      by_cases hname : t.IsName
      · rw [filter_cons_of_neg (by simpa using hname), ih, numeric_of_isName hname, zero_add]
      · rw [filter_cons_of_pos (by simpa using hname), ← ih,
          ← value_of_not_isName hname values]
        rfl
  induction terms with
  | nil => rfl
  | cons t terms ih =>
    rw [kept, keptMeaning, firstName, map_cons, sum_cons]
    by_cases hname : t.IsName
    · have hnone : parseNumber t.token = none := hname
      rw [if_pos hname, if_pos hname, numeric_of_isName hname, zero_add, ← hnumbers]
      show tokenValue values t.token + _ = values t.token + _
      rw [tokenValue, hnone]
      rfl
    · rw [if_neg hname, if_neg hname]
      show t.value values + meaning values (kept terms) = _
      rw [ih, value_of_not_isName hname, keptMeaning, add_left_comm]

/-- Reading a sum loses nothing, and overflows nowhere, exactly if it has
at most one symbol, which is added, and 2^63 is not subtracted. -/
theorem lossless_iff {s : Text} {terms : List SumTerm} (h : Spells s terms) :
    Lossless s terms ↔ OneSymbol terms ∧ ∀ t ∈ terms, ¬ t.Overflows := by
  constructor
  · rintro ⟨result, hparse, _, hshorter⟩
    have hover : ∀ t ∈ terms, ¬ t.Overflows := by
      by_contra hsome
      simp only [not_forall, not_not, exists_prop] at hsome
      rw [parse_of_spells h, addTerms_overflow hsome (tokens_ne_nil h)] at hparse
      cases hparse
    refine ⟨?_, hover⟩
    by_contra hmany
    obtain ⟨result', hparse', hmeaning⟩ := parse_eq h hover
    obtain rfl : result = result' := Option.some.inj (hparse.symm.trans hparse')
    refine hshorter hmany (kept terms) ⟨sublistForall₂_kept terms, ?_⟩ fun values => ?_
    · intro heq
      exact hmany (oneSymbol_of_kept heq)
    · rw [hmeaning, meaning_kept]
  · rintro ⟨hone, hover⟩
    obtain ⟨result, hparse, hmeaning⟩ := parse_eq h hover
    refine ⟨result, hparse, fun _ values => ?_, fun hmany => absurd hone hmany⟩
    rw [hmeaning, meaning_of_oneSymbol hone]

/-- `a+0x10` -/
theorem lossless_symbol_plus_number :
    Spells ['a', '+', '0', 'x', '1', '0'] [⟨false, ['a']⟩, ⟨false, ['0', 'x', '1', '0']⟩] ∧
      (Lossless ['a', '+', '0', 'x', '1', '0'] [⟨false, ['a']⟩, ⟨false, ['0', 'x', '1', '0']⟩] ↔
        OneSymbol [⟨false, ['a']⟩, ⟨false, ['0', 'x', '1', '0']⟩] ∧
          ∀ t ∈ [(⟨false, ['a']⟩ : SumTerm), ⟨false, ['0', 'x', '1', '0']⟩], ¬ t.Overflows) := by
  have hspells : Spells ['a', '+', '0', 'x', '1', '0']
      [⟨false, ['a']⟩, ⟨false, ['0', 'x', '1', '0']⟩] := by
    have hsym : SpellsPiece ['a'] ['a'] := ⟨by simp [IsSign], by decide, by decide⟩
    have hnumber : SpellsPiece ['0', 'x', '1', '0'] ['0', 'x', '1', '0'] :=
      ⟨by simp [IsSign], by decide, by decide⟩
    exact .unsigned hsym (@SpellsTail.cons false _ _ _ _ hnumber .nil)
  exact ⟨hspells, lossless_iff hspells⟩

/-- `a-b` is read as `a`. -/
theorem difference_of_symbols_loses_one :
    Spells ['a', '-', 'b'] [⟨false, ['a']⟩, ⟨true, ['b']⟩] ∧
      ¬ Lossless ['a', '-', 'b'] [⟨false, ['a']⟩, ⟨true, ['b']⟩] := by
  have hleft : SpellsPiece ['a'] ['a'] := ⟨by simp [IsSign], by decide, by decide⟩
  have hright : SpellsPiece ['b'] ['b'] := ⟨by simp [IsSign], by decide, by decide⟩
  refine ⟨.unsigned hleft (@SpellsTail.cons true _ _ _ _ hright .nil), ?_⟩
  rintro ⟨result, hparse, _, hshorter⟩
  have hres : parseSymbolExpression ['a', '-', 'b'] = some (.symbolWithOffset ['a'] 0) := by
    decide
  cases hparse.symm.trans hres
  refine hshorter ?_ [⟨false, ['a']⟩] ⟨.cons ⟨rfl, id⟩ .nil, by decide⟩ fun values => ?_
  · rintro (hnone | ⟨token, hone⟩)
    · exact absurd hnone (by decide)
    · have hlen : 2 = 1 := congrArg List.length hone
      omega
  · rfl

end Sld.Script
