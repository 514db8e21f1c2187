/-
# `Script.CleanLayouts` — a clean layout is read as its tokens

The parsers of version scripts against the layouts of `VersionLayouts`, one
lemma for each parser: on a clean layout it comes to what the tokens say,
and leaves the text that follows.

    patterns      cut at the `;`, or at the `}` of an `extern` block
    blocks        a loop over patterns, then the pattern without a semicolon
    sections      a loop over labels, patterns and blocks
    versions      a loop over names, sections and parents

The gap behind a block or a section is taken with it.  The round that
follows passes over it in any case, and does not tell the difference
(`sectionStep_congr`).
-/
import Sld.Script.VersionLayouts

namespace Sld.Script

open Text Text.Scanner
open List (append_assoc append_nil cons cons_prefix_cons mem_append_right mem_cons_self)
open Outcome (bind done_bind)
open EndsIn (loop_return of_eq of_succ)
open LaidItem (render tokens)
open LaidPattern (terminated)

variable {Pattern : Type} {newPattern : Text → Option Pattern}

/-! ## Prefixes and tokens -/

theorem not_prefix_append {p text rest : Bytes} (h : ¬ p <+: text)
    (hrest : ∀ b ∈ rest.head?, b ∉ p) (hne : rest ≠ []) : ¬ p <+: text ++ rest := by
  intro hp
  obtain ⟨b, rest, rfl⟩ := List.exists_cons_of_ne_nil hne
  have hb : b ∉ p := hrest b rfl
  rcases Nat.le_total p.length text.length with hle | hle
  · exact h (List.prefix_of_prefix_length_le hp (List.prefix_append _ _) hle)
  · obtain ⟨tail, rfl⟩ := List.prefix_of_prefix_length_le (List.prefix_append _ _) hp hle
    have htail : tail <+: b :: rest := (List.prefix_append_right_inj text).mp hp
    cases tail with
    | nil => exact h (by rw [append_nil])
    | cons c tail =>
      refine hb (mem_append_right _ ?_)
      rw [(cons_prefix_cons.mp htail).1]
      exact mem_cons_self

theorem ne_of_isBlank {b c : UInt8} (hb : isBlank b) (hc : ¬ isBlank c) : b ≠ c := by
  rintro rfl
  exact hc hb

theorem head_append {t rest : Bytes} {Q : UInt8 → Prop} (ht : ∀ b ∈ t, Q b)
    (hrest : ∀ b ∈ rest.head?, Q b) : ∀ b ∈ (t ++ rest).head?, Q b := by
  cases t with
  | nil => exact hrest
  | cons c t =>
    rintro b hb
    cases hb
    exact ht c mem_cons_self

theorem isAsciiWhitespace_of_isBlank {b : UInt8} (h : isBlank b) : isAsciiWhitespace b := by
  have hsub : bytes " \t\r\n" ⊆ bytes " \t\n\x0c\r" := by decide
  exact decide_eq_true (hsub (of_decide_eq_true h))

theorem matcherOfToken_append {text t : Bytes} (ht : ∀ b ∈ t, isBlank b) :
    matcherOfToken newPattern (text ++ t) = matcherOfToken newPattern text := by
  have htrim : trimAsciiEnd (text ++ t) = trimAsciiEnd text := by
    induction t using List.reverseRecOn with
    | nil => rw [append_nil]
    | append_singleton t b ih =>
      have hb : isAsciiWhitespace b := isAsciiWhitespace_of_isBlank (ht b (by simp))
      rw [← ih fun b hb => ht b (List.mem_append_left _ hb), ← append_assoc]
      exact List.rdropWhile_concat_pos _ _ _ hb
  rw [matcherOfToken, htrim]
  rfl

/-! ## Patterns -/

section Patterns

variable {p : LaidPattern} {rest : Bytes}

variable {b : UInt8}

variable (hwf : p.WellFormed) (hclean : p.Clean)

include hwf hclean

theorem not_mem_token (hb : ¬ isBlank b) (htext : b ∉ p.text) : b ∉ p.text ++ p.after.render := by
  intro hmem
  rcases List.mem_append.mp hmem with hmem | hmem
  · exact htext hmem
  · exact hb (blanks_of_isBlank hwf.after hclean.after b hmem)

theorem before_end (hb : ¬ isBlank b) (htext : b ∉ p.text) :
    Before [b] (p.text ++ (p.after.render ++ b :: rest)) (p.text ++ p.after.render)
      (b :: rest) := by
  rw [← append_assoc]
  exact before_of_not_mem (p := []) (not_mem_token hwf hclean hb htext)

omit hclean in
theorem length_token : 1 ≤ (p.text ++ p.after.render).length := by
  have := List.length_pos_iff.mpr hwf.token.nonempty
  rw [List.length_append]
  omega

theorem parsePattern_terminated :
    parsePattern newPattern false (p.text ++ (p.after.render ++ (bytes ";" ++ rest))) =
      ofExcept (matcherOfToken newPattern p.text) rest := by
  have hbefore : Before (bytes ";") (p.text ++ (p.after.render ++ (bytes ";" ++ rest)))
      (p.text ++ p.after.render) (bytes ";" ++ rest) :=
    before_end hwf hclean (by decide) hwf.token.semicolon
  have hsettled : Settled (bytes ";" ++ rest) := settled_cons (by decide)
  rw [parsePattern, bind_run, patternToken_run, if_neg Bool.false_ne_true,
    takeUntil_of_before hbefore (length_token hwf), done_bind, bind_run,
    skip_settled hsettled, done_bind, bind_run, tryTake_append, done_bind,
    matcherOfToken_append (blanks_of_isBlank hwf.after hclean.after)]

theorem parsePattern_bare :
    parsePattern newPattern true (p.text ++ (p.after.render ++ (bytes "\x7d" ++ rest))) =
      ofExcept (matcherOfToken newPattern p.text) (bytes "\x7d" ++ rest) := by
  have hbefore : Before (bytes "\x7d") (p.text ++ (p.after.render ++ (bytes "\x7d" ++ rest)))
      (p.text ++ p.after.render) (bytes "\x7d" ++ rest) :=
    before_end hwf hclean (by decide) hwf.token.brace
  have hsettled : Settled (bytes "\x7d" ++ rest) := settled_cons (by decide)
  have hmem : '}'.toUInt8 ∈ p.text ++ (p.after.render ++ (bytes "\x7d" ++ rest)) := by
    refine mem_append_right _ (mem_append_right _ ?_)
    exact mem_cons_self
  have hopen : ¬ bytes ";" <+: bytes "\x7d" ++ rest := fun hp =>
    absurd (cons_prefix_cons.mp hp).1 (by decide)
  rw [parsePattern, bind_run, patternToken_run, if_pos rfl, if_pos hmem,
    takeUntil_of_before hbefore (length_token hwf), done_bind, bind_run,
    skip_settled hsettled, done_bind, bind_run, tryTake_of_not_prefix hopen,
    done_bind, matcherOfToken_append (blanks_of_isBlank hwf.after hclean.after)]

theorem not_keyword {keyword : Bytes} (htext : ¬ keyword <+: p.text) (hb : b ∉ keyword)
    (hblank : ∀ c, isBlank c → c ∉ keyword) :
    ¬ keyword <+: p.text ++ (p.after.render ++ b :: rest) := by
  refine not_prefix_append htext ?_ (by simp)
  refine head_append (fun c hc => ?_) ?_
  · exact hblank c (blanks_of_isBlank hwf.after hclean.after c hc)
  · rintro c hc
    cases hc
    exact hb

omit hwf in
theorem not_extern (hb : b ∉ bytes "extern ") :
    ¬ bytes "extern " <+: p.text ++ (p.after.render ++ b :: rest) := by
  rw [← append_assoc]
  refine not_prefix_append hclean.keyword ?_ (by simp)
  rintro c hc
  cases hc
  exact hb

omit hclean in
theorem not_head {c : UInt8} (hc : c ∉ p.text) (s : Bytes) : ¬ c :: s <+: p.text ++ rest := by
  obtain ⟨d, text, htext⟩ := List.exists_cons_of_ne_nil hwf.token.nonempty
  intro hp
  rw [htext] at hp hc
  rw [(cons_prefix_cons.mp hp).1] at hc
  exact hc mem_cons_self

theorem settled_pattern (hb : b ≠ '*'.toUInt8) :
    Settled (p.text ++ (p.after.render ++ b :: rest)) := by
  refine hwf.token.settled.append hwf.token.nonempty fun hp => ?_
  have hhead : ∀ c ∈ (p.after.render ++ b :: rest).head?, c ≠ '*'.toUInt8 := by
    refine head_append (fun c hc => ?_) ?_
    · exact ne_of_isBlank (blanks_of_isBlank hwf.after hclean.after c hc) (by decide)
    · rintro c hc
      cases hc
      exact hb
  obtain ⟨t, ht⟩ := hp
  rw [← ht] at hhead
  exact hhead _ rfl rfl

theorem skip_pattern (hb : b ≠ '*'.toUInt8) :
    skipCommentsAndWhitespace (p.render ++ b :: rest) =
      .done ((), p.text ++ (p.after.render ++ b :: rest)) := by
  rw [LaidPattern.render, append_assoc, append_assoc]
  exact skip_gap_settled hwf.before hclean.before (settled_pattern hwf hclean hb)

end Patterns

/-! ## Blocks -/

section Blocks

variable {p : LaidPattern} {rest : Bytes}

section

variable (hwf : p.WellFormed)

include hwf

theorem parseMatcher_terminated (hclean : p.Clean) (fuel : ℕ) :
    parseMatcher newPattern (fuel + 1) false (p.text ++ (p.after.render ++ (bytes ";" ++ rest))) =
      ofExcept ((matcherOfToken newPattern p.text).map .single) rest := by
  have hkeyword : ¬ bytes "extern " <+: p.text ++ (p.after.render ++ (bytes ";" ++ rest)) :=
    not_extern hclean (by decide)
  rw [parseMatcher_pattern fuel false hkeyword, parsePattern_terminated hwf hclean]
  exact ofExcept_map _ _

theorem parseMatcher_bare (hclean : p.Clean) (fuel : ℕ) :
    parseMatcher newPattern (fuel + 1) true (p.text ++ (p.after.render ++ (bytes "\x7d" ++ rest))) =
      ofExcept ((matcherOfToken newPattern p.text).map .single) (bytes "\x7d" ++ rest) := by
  have hkeyword : ¬ bytes "extern " <+: p.text ++ (p.after.render ++ (bytes "\x7d" ++ rest)) :=
    not_extern hclean (by decide)
  rw [parseMatcher_pattern fuel true hkeyword, parsePattern_bare hwf hclean]
  exact ofExcept_map _ _

theorem expectSemicolon_terminated (hclean : p.Clean) (hrest : bytes "\x7d;" <:+: rest) (ws : Bool) :
    expectSemicolon ws (p.text ++ (p.after.render ++ (bytes ";" ++ rest))) = true := by
  have hwhole : bytes "\x7d;" <:+: p.text ++ (p.after.render ++ (bytes ";" ++ rest)) :=
    hrest.trans ⟨p.text ++ (p.after.render ++ bytes ";"), [], by simp⟩
  obtain ⟨token, left, hbefore⟩ := exists_before hwhole
  rw [expectSemicolon, dropInfix?_of_before hbefore]
  refine decide_eq_true ?_
  have heq := hbefore.eq
  rw [← append_assoc p.text, List.append_eq_append_iff] at heq
  rcases heq with ⟨a, rfl, heq⟩ | ⟨a, htoken, heq⟩
  · -- the pattern and its blanks stand before the end of the block
    cases a with
    | nil => exact absurd (cons.inj heq).1 (by decide)
    | cons c a =>
      obtain ⟨rfl, _⟩ := cons.inj heq
      exact mem_append_right _ mem_cons_self
  · -- the end of the block would stand in the pattern
    cases a with
    | nil => exact absurd (cons.inj heq).1 (by decide)
    | cons c a =>
      obtain ⟨rfl, _⟩ := cons.inj heq
      refine absurd ?_ (not_mem_token hwf hclean (by decide) hwf.token.brace)
      rw [htoken]
      exact mem_append_right _ mem_cons_self

theorem expectSemicolon_bare (hclean : p.Clean) (ws : Bool) :
    expectSemicolon ws (p.text ++ (p.after.render ++ (bytes "\x7d;" ++ rest))) = false := by
  have hbrace : '}'.toUInt8 ∉ p.text ++ p.after.render :=
    not_mem_token hwf hclean (by decide) hwf.token.brace
  have hbefore : Before (bytes "\x7d;") (p.text ++ (p.after.render ++ (bytes "\x7d;" ++ rest)))
      (p.text ++ p.after.render) (bytes "\x7d;" ++ rest) := by
    rw [← append_assoc]
    exact before_of_not_mem (p := bytes ";") hbrace
  rw [expectSemicolon, dropInfix?_of_before hbefore]
  exact decide_eq_false (not_mem_token hwf hclean (by decide) hwf.token.semicolon)

theorem externStep_terminated (hclean : p.Clean) (hrest : bytes "\x7d;" <:+: rest)
    (ms : List (SymbolMatcher Pattern)) :
    EndsIn (fun fuel => externStep (parseMatcher newPattern fuel) false ms) (p.terminated ++ rest)
      (ofExcept (((matcherOfToken newPattern p.text).map (ms ++ [·])).map .inl) rest) := by
  refine of_succ (of_eq fun fuel => ?_)
  have hskip : skipCommentsAndWhitespace (p.terminated ++ rest) =
      .done ((), p.text ++ (p.after.render ++ (bytes ";" ++ rest))) := by
    rw [terminated, append_assoc]
    exact skip_pattern hwf hclean (by decide)
  rw [externStep_open hskip (not_head hwf hwf.token.brace (bytes ";")),
    expectSemicolon_terminated hwf hclean hrest, Bool.not_true,
    parseMatcher_terminated hwf hclean]
  cases matcherOfToken newPattern p.text <;> rfl

theorem externStep_bare (hclean : p.Clean) (ms : List (SymbolMatcher Pattern)) :
    EndsIn (fun fuel => externStep (parseMatcher newPattern fuel) false ms)
      (p.render ++ (bytes "\x7d;" ++ rest))
      (ofExcept (((matcherOfToken newPattern p.text).map (ms ++ [·])).map .inl)
        (bytes "\x7d;" ++ rest)) := by
  refine of_succ (of_eq fun fuel => ?_)
  have hskip : skipCommentsAndWhitespace (p.render ++ (bytes "\x7d;" ++ rest)) =
      .done ((), p.text ++ (p.after.render ++ (bytes "\x7d;" ++ rest))) :=
    skip_pattern hwf hclean (by decide)
  have hmatcher : parseMatcher newPattern (fuel + 1) true
      (p.text ++ (p.after.render ++ (bytes "\x7d" ++ (bytes ";" ++ rest)))) = _ :=
    parseMatcher_bare hwf hclean fuel
  rw [externStep_open hskip (not_head hwf hwf.token.brace (bytes ";")),
    expectSemicolon_bare hwf hclean, Bool.not_false]
  refine (congrArg (bind · _) hmatcher).trans ?_
  cases matcherOfToken newPattern p.text <;> rfl

end

variable {left : Bytes}

theorem externStep_end (hrest : skipCommentsAndWhitespace rest = .done ((), left))
    {gap : Gap} (hwf : gap.WellFormed) (hclean : gap.Clean) (ms : List (SymbolMatcher Pattern)) :
    EndsIn (fun fuel => externStep (parseMatcher newPattern fuel) false ms)
      (gap.render ++ (bytes "\x7d;" ++ rest)) (.done (.inr ms, left)) := by
  refine of_eq fun fuel => ?_
  have hsettled : Settled (bytes "\x7d;" ++ rest) := settled_cons (by decide)
  rw [externStep_close (skip_gap_settled hwf hclean hsettled), hrest]
  rfl

theorem foldlM_matcherOfToken (texts : List Bytes) (ms : List (SymbolMatcher Pattern)) :
    texts.foldlM (fun ms text => (matcherOfToken newPattern text).map (ms ++ [·])) ms =
      (texts.mapM (matcherOfToken newPattern)).map (ms ++ ·) := by
  induction texts generalizing ms with
  | nil =>
    rw [List.mapM_nil]
    exact congrArg Except.ok (append_nil ms).symm
  | cons text texts ih =>
    rw [List.foldlM_cons, List.mapM_cons]
    cases matcherOfToken newPattern text with
    | error e => rfl
    | ok m =>
      refine (ih (ms ++ [m])).trans ?_
      show _ = (texts.mapM (matcherOfToken newPattern) >>= fun ms => .ok (m :: ms)).map _
      cases texts.mapM (matcherOfToken newPattern) with
      | error e => rfl
      | ok rest => exact congrArg Except.ok (by simp)

theorem externLoop_ending
    (hrest : skipCommentsAndWhitespace rest = .done ((), left)) {ending : LaidEnd}
    (hwf : ending.WellFormed) (hclean : ending.Clean) (ms : List (SymbolMatcher Pattern)) :
    EndsIn (fun fuel => loop (externStep (parseMatcher newPattern fuel) false) fuel ms)
      (ending.render ++ (bytes "\x7d;" ++ rest))
      (ofExcept (ending.texts.foldlM
        (fun ms text => (matcherOfToken newPattern text).map (ms ++ [·])) ms) left) := by
  cases ending with
  | gap before => exact loop_return (x := .ok ms) (externStep_end hrest hwf hclean ms)
  | bare last =>
    refine EndsIn.loop_continue (externStep_mono false) (externStep_bare hwf hclean ms) ?_
    intro ms' _
    have hnil : Gap.WellFormed [] ∧ Gap.Clean [] := ⟨List.forall_mem_nil _, List.forall_mem_nil _⟩
    exact loop_return (x := .ok ms') (externStep_end hrest hnil.1 hnil.2 ms')

theorem externLoop_reads {left : Bytes}
    (hrest : skipCommentsAndWhitespace rest = .done ((), left)) {patterns : List LaidPattern}
    {ending : LaidEnd} (hwf : ∀ p ∈ patterns, p.WellFormed) (hclean : ∀ p ∈ patterns, p.Clean)
    (hewf : ending.WellFormed) (heclean : ending.Clean) :
    EndsIn (fun fuel => loop (externStep (parseMatcher newPattern fuel) false) fuel [])
      (patterns.flatMap terminated ++ (ending.render ++ (bytes "\x7d;" ++ rest)))
      (ofExcept ((patterns.map (·.text) ++ ending.texts).mapM (matcherOfToken newPattern))
        left) := by
  let add (ms : List (SymbolMatcher Pattern)) (text : Bytes) :
      Except ParseError (List (SymbolMatcher Pattern)) :=
    (matcherOfToken newPattern text).map (ms ++ [·])
  have hend : bytes "\x7d;" <:+: ending.render ++ (bytes "\x7d;" ++ rest) :=
    ⟨ending.render, rest, by simp⟩
  have hloop := @EndsIn.loop_list _ _ _ _ _ _ _ []
    (fun s => bytes "\x7d;" <:+: s) terminated (fun ms p => add ms p.text)
    (fun ms => ending.texts.foldlM add ms) patterns
    (externStep_mono false)
    (fun p _ s hs => hs.trans (List.suffix_append _ _).isInfix)
    (fun p hp s hs => ⟨s, fun _ _ => rfl, externStep_terminated (hwf p hp) (hclean p hp) hs⟩)
    hend (externLoop_ending hrest hewf heclean)
  have hall := @foldlM_matcherOfToken _ newPattern (patterns.map (·.text) ++ ending.texts) []
  rw [List.foldlM_append, List.foldlM_map] at hall
  rw [hall] at hloop
  have hnil : (fun ms : List (SymbolMatcher Pattern) => [] ++ ms) = id := rfl
  rw [hnil] at hloop
  cases h : (patterns.map (·.text) ++ ending.texts).mapM (matcherOfToken newPattern) with
  | error e => rwa [h] at hloop
  | ok ms => rwa [h] at hloop

end Blocks

/-! ## Sections -/

section Sections

variable {rest left : Bytes}

theorem externOpening_reads (cxx : Bool) {gap : Gap} (hwf : gap.WellFormed) (hclean : gap.Clean) :
    externOpening (languageToken cxx ++ (gap.render ++ (bytes "\x7b" ++ rest))) =
      .done (cxx, rest) := by
  have hbrace : Settled (bytes "\x7b" ++ rest) := settled_cons (by decide)
  have hlanguage : ∀ s, externLanguage (languageToken cxx ++ s) = .done (cxx, s) := by
    intro s
    cases cxx with
    | true =>
      show (tryTake (bytes "\"C++\"") >>= _) (bytes "\"C++\"" ++ s) = _
      rw [bind_run, tryTake_append]
      rfl
    | false =>
      have hother : ¬ bytes "\"C++\"" <+: bytes "\"C\"" ++ s := by
        intro hp
        have := (cons_prefix_cons.mp (cons_prefix_cons.mp hp).2).2
        exact absurd (cons_prefix_cons.mp this).1 (by decide)
      show (tryTake (bytes "\"C++\"") >>= _) (bytes "\"C\"" ++ s) = _
      rw [bind_run]
      show (tryTake (bytes "\"C\"") >>= _) (bytes "\"C\"" ++ s) = _
      rw [bind_run, tryTake_append]
      rfl
  rw [externOpening, bind_run, hlanguage, done_bind, bind_run,
    skip_gap_settled hwf hclean hbrace, done_bind, bind_run, literal_append]
  rfl

theorem parseMatcher_block {block : LaidExtern} (hwf : block.WellFormed) (hclean : block.Clean)
    (hrest : skipCommentsAndWhitespace rest = .done ((), left)) :
    EndsIn (fun fuel => parseMatcher newPattern fuel false) (block.text ++ rest)
      (ofExcept (((block.patterns.map (·.text) ++ block.ending.texts).mapM
        (matcherOfToken newPattern)).map
          fun ms => if block.cxx then .cxxMatchers ms else .multiple ms) left) := by
  have htext : block.text ++ rest =
      bytes "extern " ++ (languageToken block.cxx ++ (block.afterLanguage.render ++ (bytes "\x7b" ++
        (block.patterns.flatMap terminated ++
          (block.ending.render ++ (bytes "\x7d;" ++ rest)))))) := by
    rw [LaidExtern.text, hclean.afterKeyword, hclean.afterBlock]
    show _ = (bytes "extern" ++ bytes " ") ++ (_ ++ (_ ++ (_ ++ (_ ++ (_ ++
      ((bytes "\x7d" ++ bytes ";") ++ rest))))))
    simp only [append_assoc, Gap.render, List.flatMap_nil, List.nil_append]
  obtain ⟨least, hloop⟩ := @externLoop_reads _ newPattern _ _ hrest _ _ hwf.patterns
    hclean.patterns hwf.ending hclean.ending
  refine of_succ ⟨least, fun fuel hle => ?_⟩
  have hblock := hloop fuel hle
  show parseMatcher newPattern (fuel + 1) false _ = _
  rw [htext, parseMatcher_externBlock,
    externOpening_reads block.cxx hwf.afterLanguage hclean.afterLanguage, done_bind]
  refine (congrArg (bind · _) hblock).trans ?_
  cases (block.patterns.map (·.text) ++ block.ending.texts).mapM (matcherOfToken newPattern) <;> rfl

theorem sectionStep_congr {s s' : Bytes}
    (h : skipCommentsAndWhitespace s = skipCommentsAndWhitespace s') (fuel : ℕ)
    (st : SectionState Pattern) :
    sectionStep newPattern fuel st s = sectionStep newPattern fuel st s' := by
  rw [sectionStep, bind_run, bind_run, h]

theorem sectionStep_rule {before : Gap} (hwf : before.WellFormed) (hclean : before.Clean)
    (ruleSection : VersionRuleSection) (fuel : ℕ) (st : SectionState Pattern) :
    sectionStep newPattern fuel st (before.render ++ (ruleSection.keyword ++ (bytes ":" ++ rest))) =
      .done (.inl (some ruleSection, st.2), rest) := by
  have hsettled : Settled (ruleSection.keyword ++ (bytes ":" ++ rest)) := by
    cases ruleSection with
    | global => exact settled_cons (by decide)
    | «local» => exact settled_cons (by decide)
  have hclosed : ¬ bytes "\x7d" <+: ruleSection.keyword ++ (bytes ":" ++ rest) := by
    intro hp
    cases ruleSection with
    | global => exact absurd (cons_prefix_cons.mp hp).1 (by decide)
    | «local» => exact absurd (cons_prefix_cons.mp hp).1 (by decide)
  rw [sectionStep, bind_run, skip_gap_settled hwf hclean hsettled, done_bind, bind_run,
    tryTake_of_not_prefix hclosed, done_bind]
  cases ruleSection with
  | global =>
    show (tryTake (bytes "global:") >>= _) (bytes "global:" ++ rest) = _
    rw [bind_run, tryTake_append]
    rfl
  | «local» =>
    have hother : ¬ bytes "global:" <+: bytes "local:" ++ rest := fun hp =>
      absurd (cons_prefix_cons.mp hp).1 (by decide)
    show (tryTake (bytes "global:") >>= _) (bytes "local:" ++ rest) = _
    rw [bind_run]
    show (tryTake (bytes "local:") >>= _) (bytes "local:" ++ rest) = _
    rw [bind_run, tryTake_append]
    rfl

theorem sectionCall_pattern {p : LaidPattern} (hwf : p.WellFormed) (hclean : p.Clean) :
    SectionCall (p.terminated ++ rest) (p.text ++ (p.after.render ++ (bytes ";" ++ rest))) := by
  have hblank : ∀ ruleSection : VersionRuleSection, ∀ c, isBlank c →
      c ∉ ruleSection.keyword ++ bytes ":" := by
    intro ruleSection c hc hmem
    have hall : ∀ d ∈ ruleSection.keyword ++ bytes ":", ¬ isBlank d := by
      cases ruleSection with
      | global => decide +kernel
      | «local» => decide +kernel
    exact hall c hmem hc
  refine ⟨?_, not_head hwf hwf.token.brace [], ?_, ?_⟩
  · rw [terminated, append_assoc]
    exact skip_pattern hwf hclean (by decide)
  · exact not_keyword hwf hclean (hwf.token.label .global) (by decide) (hblank .global)
  · exact not_keyword hwf hclean (hwf.token.label .local) (by decide) (hblank .local)

theorem sectionCall_block {block : LaidExtern} (hwf : block.WellFormed) (hclean : block.Clean) :
    SectionCall (block.render ++ rest) (block.text ++ rest) := by
  have hhead : ∀ b s, b ≠ 'e'.toUInt8 → ¬ b :: s <+: block.text ++ rest := fun b s hb hp =>
    hb (cons_prefix_cons.mp hp).1
  have hsettled : Settled (block.text ++ rest) := settled_cons (by decide)
  refine ⟨?_, hhead _ _ (by decide), hhead _ _ (by decide), hhead _ _ (by decide)⟩
  rw [LaidExtern.render, append_assoc]
  exact skip_gap_settled hwf.before hclean.before hsettled

variable {item : LaidItem}

theorem skip_item (hwf : item.WellFormed) (hclean : item.Clean) :
    ∃ left, skipCommentsAndWhitespace (item.render ++ rest) = .done ((), left) := by
  cases item with
  | rule before ruleSection beforeColon =>
    have hsettled :
        Settled (ruleSection.keyword ++ (beforeColon.render ++ (bytes ":" ++ rest))) := by
      cases ruleSection with
      | global => exact settled_cons (by decide)
      | «local» => exact settled_cons (by decide)
    refine ⟨ruleSection.keyword ++ (beforeColon.render ++ (bytes ":" ++ rest)), ?_⟩
    rw [render, append_assoc, append_assoc, append_assoc]
    exact skip_gap_settled hwf.1 hclean.1 hsettled
  | pattern p => exact ⟨_, (sectionCall_pattern hwf hclean).skip⟩
  | externBlock block => exact ⟨_, (sectionCall_block hwf hclean).skip⟩

theorem sectionStep_item (hwf : item.WellFormed) (hclean : item.Clean)
    (hrest : skipCommentsAndWhitespace rest = .done ((), left)) :
    ∃ left, (∀ fuel (st : SectionState Pattern),
        sectionStep newPattern fuel st left = sectionStep newPattern fuel st rest) ∧
      ∀ st : SectionState Pattern, EndsIn (fun fuel => sectionStep newPattern fuel st)
        (item.render ++ rest)
        (ofExcept ((ScriptItem.add newPattern st item.tokens).map .inl) left) := by
  cases item with
  | rule before ruleSection beforeColon =>
    refine ⟨rest, fun _ _ => rfl, fun st => of_eq fun fuel => ?_⟩
    obtain ⟨hbefore, rfl⟩ := hclean
    have hstep := @sectionStep_rule _ newPattern rest _ hwf.1 hbefore ruleSection fuel st
    rw [← append_assoc, ← append_assoc] at hstep
    rw [render]
    simp only [append_assoc, Gap.render, List.flatMap_nil, List.nil_append] at hstep ⊢
    exact hstep
  | pattern p =>
    refine ⟨rest, fun _ _ => rfl, fun st => of_succ (of_eq fun fuel => ?_)⟩
    rw [render, (sectionCall_pattern hwf hclean).step, parseMatcher_terminated hwf hclean]
    show _ = ofExcept (((matcherOfToken newPattern p.text).map _).map _) rest
    cases matcherOfToken newPattern p.text <;> rfl
  | externBlock block =>
    have hsettled : Settled left := settled_of_skip hrest
    refine ⟨left, fun fuel st => sectionStep_congr ((skip_settled hsettled).trans hrest.symm) _ _,
      fun st => ?_⟩
    obtain ⟨least, hblock⟩ := @parseMatcher_block _ newPattern _ _ _ hwf hclean hrest
    refine ⟨least, fun fuel hle => ?_⟩
    have hmatcher := hblock fuel hle
    show sectionStep newPattern fuel st (block.render ++ rest) = _
    rw [(sectionCall_block hwf hclean).step]
    refine (congrArg (bind · _) hmatcher).trans ?_
    show _ = ofExcept ((((block.patterns.map (·.text) ++ block.ending.texts).mapM
      (matcherOfToken newPattern)).map _).map _) left
    cases (block.patterns.map (·.text) ++ block.ending.texts).mapM
      (matcherOfToken newPattern) <;> rfl

theorem parseVersionSection_reads {body : LaidSection} (hwf : body.WellFormed)
    (hclean : body.Clean) (hrest : skipCommentsAndWhitespace rest = .done ((), left)) :
    EndsIn (parseVersionSection newPattern) (body.render ++ rest)
      (ofExcept (bodyOf newPattern (body.items.map tokens)) left) := by
  have hsettled : Settled (bytes "\x7d" ++ rest) := settled_cons (by decide)
  have hend : ∀ (fuel : ℕ) (st : SectionState Pattern), sectionStep newPattern fuel st
      (body.beforeClose.render ++ (bytes "\x7d" ++ rest)) = .done (.inr st.2, left) := by
    intro fuel st
    rw [sectionStep, bind_run, skip_gap_settled hwf.beforeClose hclean.beforeClose hsettled,
      done_bind, bind_run, tryTake_append, done_bind]
    show (skipCommentsAndWhitespace >>= _) rest = _
    rw [bind_run, hrest]
    rfl
  have hloop := @EndsIn.loop_list _ _ _ _ _ _ _ (none, ⟨[], []⟩)
    (fun s => ∃ left, skipCommentsAndWhitespace s = .done ((), left)) render
    (fun st item => ScriptItem.add newPattern st item.tokens) (fun st => .ok st.2) body.items
    sectionStep_mono
    (fun item hi _ _ => skip_item (hwf.items item hi) (hclean.items item hi))
    (fun item hi s hs => by
      obtain ⟨after, hafter⟩ := hs
      exact sectionStep_item (hwf.items item hi) (hclean.items item hi) hafter)
    ⟨_, skip_gap_settled hwf.beforeClose hclean.beforeClose hsettled⟩
    (fun st => loop_return (x := .ok st.2) (of_eq fun fuel => hend fuel st))
  have hopen : EndsIn (fun _ => literal (ParseError.mismatch) (bytes "\x7b")) (body.render ++ rest)
      (.done ((), body.items.flatMap render ++
        (body.beforeClose.render ++ (bytes "\x7d" ++ rest)))) := by
    refine of_eq fun _ => ?_
    rw [LaidSection.render, append_assoc, append_assoc, append_assoc]
    exact literal_append _ _ _
  rw [bodyOf, List.foldlM_map]
  exact EndsIn.bind_done hopen hloop

end Sections

/-! ## Versions -/

section Versions

variable {rest : Bytes}

theorem takeWhile1_append {ε : Type} {e : ε} {kind : UInt8 → Bool} {name : Bytes}
    (hne : name ≠ []) (hname : ∀ b ∈ name, kind b) (hrest : ∀ b ∈ rest.head?, ¬ kind b) :
    takeWhile1 e kind (name ++ rest) = .done (name, rest) := by
  have htake : rest.takeWhile kind = [] ∧ rest.dropWhile kind = rest := by
    cases rest with
    | nil => exact ⟨rfl, rfl⟩
    | cons b rest =>
      have hb := hrest b rfl
      exact ⟨List.takeWhile_cons_of_neg hb, List.dropWhile_cons_of_neg hb⟩
  rw [takeWhile1, List.takeWhile_append_of_pos hname, List.dropWhile_append_of_pos hname,
    htake.1, htake.2, append_nil, if_neg]
  rwa [List.isEmpty_iff]

variable {version : LaidVersion}

theorem parseToken_reads (hwf : version.WellFormed) (hclean : version.Clean) (s : Bytes) :
    parseToken (version.name ++ (version.afterName.render ++ (version.body.render ++ s))) =
      .done (version.name, version.afterName.render ++ (version.body.render ++ s)) := by
  refine takeWhile1_append hwf.name.nonempty (fun b hb => decide_eq_true (hwf.name.plain b hb)) ?_
  intro b hb hkind
  refine of_decide_eq_true hkind ?_
  cases hgap : version.afterName.render with
  | nil =>
    rw [hgap] at hb
    cases hb
    decide
  | cons c gap =>
    rw [hgap] at hb
    have hmem := hclean.nameEnds b (by rw [hgap]; exact hb)
    have hsub : bytes " \n\t" ⊆ bytes " ()\x7b\x7d\n\t" := by decide
    exact hsub hmem

theorem settled_parent {version : LaidVersion} (hwf : version.WellFormed)
    (hclean : version.Clean) : Settled (version.parentText ++ (bytes ";" ++ rest)) ∧
      version.parentText = version.tokens.parent.getD [] ∧ ';'.toUInt8 ∉ version.parentText := by
  have hsemicolon : Settled (bytes ";" ++ rest) := settled_cons (by decide)
  rw [LaidVersion.parentText, LaidVersion.tokens]
  cases h : version.parent with
  | none => exact ⟨hsemicolon, rfl, List.not_mem_nil⟩
  | some parent =>
    obtain ⟨hparent, _⟩ := hwf.parent parent h
    have hgap := hclean.parent parent h
    have htext : parent.1 ++ parent.2.render = parent.1 := by
      rw [hgap]
      exact append_nil _
    refine ⟨?_, htext, ?_⟩
    · show Settled (parent.1 ++ parent.2.render ++ _)
      rw [htext]
      refine hparent.settled.append hparent.nonempty fun hp => ?_
      exact absurd (cons_prefix_cons.mp hp).1 (by decide)
    · show _ ∉ parent.1 ++ parent.2.render
      rw [htext]
      exact hparent.semicolon

theorem settled_section (body : LaidSection) : Settled (body.render ++ rest) :=
  settled_cons (by decide)

theorem settled_version (hwf : version.WellFormed)
    (hclean : version.Clean) : Settled (version.render ++ rest) := by
  rw [LaidVersion.render, append_assoc]
  refine hwf.name.settled.append hwf.name.nonempty fun hp => ?_
  cases hgap : version.afterName.render with
  | nil =>
    rw [hgap] at hp
    exact absurd (cons_prefix_cons.mp hp).1 (by decide)
  | cons c gap =>
    rw [hgap] at hp
    have hmem := hclean.nameEnds c (by rw [hgap]; rfl)
    rw [← (cons_prefix_cons.mp hp).1] at hmem
    exact absurd hmem (by decide)

theorem versionStep_reads (hwf : version.WellFormed)
    (hclean : version.Clean) (hrest : Settled rest) (st : VersionState Pattern) :
    EndsIn (fun fuel => versionStep newPattern fuel st) (version.render ++ rest)
      (ofExcept ((ScriptVersion.add newPattern st version.tokens).map .inl) rest) := by
  have htext : version.render ++ rest =
      version.name ++ (version.afterName.render ++ (version.body.render ++
        (version.afterBody.render ++ (version.parentText ++ (bytes ";" ++
          (version.after.render ++ rest)))))) := by
    simp only [LaidVersion.render, append_assoc]
  obtain ⟨hsettled, hparent, hfree⟩ :=
    @settled_parent (version.after.render ++ rest) version hwf hclean
  obtain ⟨least, hsec⟩ := @parseVersionSection_reads _ newPattern _ _ _ hwf.body
    hclean.body (skip_gap_settled hwf.afterBody hclean.afterBody hsettled)
  refine ⟨least, fun fuel hle => ?_⟩
  have hbody := hsec fuel hle
  have hne : ¬ (version.render ++ rest).isEmpty := by
    rw [htext, List.isEmpty_iff]
    intro hnil
    exact hwf.name.nonempty (List.append_eq_nil_iff.mp hnil).1
  show versionStep newPattern fuel st _ = _
  rw [versionStep, bind_run, get_run, done_bind, if_neg hne, htext, bind_run,
    parseToken_reads hwf hclean, done_bind, bind_run,
    skip_gap_settled hwf.afterName hclean.afterName (settled_section version.body),
    done_bind, bind_run]
  refine (congrArg (bind · _) hbody).trans ?_
  show _ = ofExcept ((bodyOf newPattern (version.body.items.map tokens) >>= fun body =>
    parentIndexOf st.1 (version.tokens.parent.getD []) >>= fun parentIndex =>
      .ok (st.push ⟨version.name, parentIndex, body.toVersionBody⟩)).map Sum.inl) rest
  cases bodyOf newPattern (version.body.items.map tokens) with
  | error e => rfl
  | ok body =>
    have hbefore : Before (bytes ";") (version.parentText ++ (bytes ";" ++
        (version.after.render ++ rest))) version.parentText
        (bytes ";" ++ (version.after.render ++ rest)) := before_of_not_mem (p := []) hfree
    show (takeUntil ParseError.mismatch 0 (bytes ";") >>= _) _ = _
    rw [bind_run, takeUntil_of_before hbefore (Nat.zero_le _), done_bind, hparent]
    cases parentIndexOf st.1 (version.tokens.parent.getD []) with
    | error e => rfl
    | ok parentIndex =>
      rw [bind_run, ofExcept_ok, done_bind, bind_run, literal_append,
        done_bind, bind_run, skip_gap_settled hwf.after hclean.after hrest]
      rfl

end Versions

/-! ## Scripts -/

theorem complete_of_ofExcept {ε α : Type} {e : ε} {p : Scanner ε α} {s : Bytes} {x : Except ε α}
    (h : p s = ofExcept x []) : complete e p s = Outcome.ofExcept x := by
  rw [complete, h]
  cases x <;> rfl

/-- A clean layout of a version script is read as what its tokens say:
whatever the gaps are, the versions, parents and rules are the same. -/
theorem clean_layout_is_parsed (newPattern : Text → Option Pattern) (script : LaidScript)
    (hwf : script.WellFormed) (hclean : script.Clean) :
    ∃ least, ∀ fuel, least ≤ fuel →
      VersionScript.parse newPattern fuel script.render =
        Outcome.ofExcept (script.tokens.meaning newPattern) := by
  suffices h : EndsIn (parseVersionScript newPattern) script.render
      (ofExcept (script.tokens.meaning newPattern) []) by
    obtain ⟨least, h⟩ := h
    exact ⟨least, fun fuel hle => complete_of_ofExcept (h fuel hle)⟩
  have hnil : Settled [] := ⟨rfl, by decide, by decide⟩
  cases script with
  | simple before body afterBody after =>
    obtain ⟨hbefore, hbody, hafterBody, hafter⟩ := hwf
    obtain ⟨hbefore', hbody', hafterBody', hafter'⟩ := hclean
    have hsemicolon : Settled (bytes ";" ++ after.render) := settled_cons (by decide)
    obtain ⟨least, hsec⟩ := @parseVersionSection_reads _ newPattern _ _ _ hbody
      hbody' (skip_gap_settled hafterBody hafterBody' hsemicolon)
    refine ⟨least, fun fuel hle => ?_⟩
    have hparsed := hsec fuel hle
    have hopen :
        bytes "\x7b" <+: body.render ++ (afterBody.render ++ (bytes ";" ++ after.render)) := by
      rw [LaidSection.render, List.append_assoc]
      exact List.prefix_append _ _
    rw [LaidScript.render, parseVersionScript, bind_run,
      skip_gap_settled hbefore hbefore' (settled_section body), Outcome.done_bind, bind_run,
      get_run, Outcome.done_bind, if_pos hopen, bind_run]
    refine (congrArg (Outcome.bind · _) hparsed).trans ?_
    show _ = ofExcept ((bodyOf newPattern (body.items.map LaidItem.tokens)).map _) []
    cases bodyOf newPattern (body.items.map LaidItem.tokens) with
    | error e => rfl
    | ok rules =>
      have hlast := skip_gap_settled hafter hafter' hnil
      rw [List.append_nil] at hlast
      show (literal ParseError.mismatch (bytes ";") >>= _) _ = _
      rw [bind_run, literal_append, Outcome.done_bind, bind_run, hlast]
      rfl
  | versions before vs =>
    obtain ⟨hbefore, hvs⟩ := hwf
    obtain ⟨hbefore', hvs'⟩ := hclean
    have hgood : ∀ version ∈ vs, ∀ rest, Settled rest → Settled (version.render ++ rest) :=
      fun version hv _ _ => settled_version (hvs version hv) (hvs' version hv)
    have hlast : ∀ st : VersionState Pattern,
        EndsIn (fun fuel => loop (versionStep newPattern fuel) fuel st) []
          (ofExcept (.ok st.2) []) :=
      fun st => EndsIn.loop_return (EndsIn.of_eq fun fuel => rfl)
    have hloop := @EndsIn.loop_list _ _ _ _ _ _ _ VersionState.base Settled LaidVersion.render
      (fun st version => ScriptVersion.add newPattern st version.tokens) (fun st => .ok st.2) vs
      versionStep_mono hgood
      (fun version hv s hs => ⟨s, fun _ _ => rfl,
        versionStep_reads (hvs version hv) (hvs' version hv) hs⟩)
      hnil hlast
    have hsettled := EndsIn.good_flatMap hgood hnil
    rw [List.append_nil] at hloop hsettled
    obtain ⟨least, hloop⟩ := hloop
    refine ⟨least, fun fuel hle => ?_⟩
    have hread := hloop fuel hle
    have hopen : ¬ bytes "\x7b" <+: vs.flatMap LaidVersion.render := by
      cases vs with
      | nil => decide
      | cons version vs =>
        have hname := (hvs version List.mem_cons_self).name
        obtain ⟨b, name, hcons⟩ := List.exists_cons_of_ne_nil hname.nonempty
        rw [List.flatMap_cons, LaidVersion.render, hcons]
        intro hp
        have hb := hname.plain b (by rw [hcons]; exact List.mem_cons_self)
        rw [← (List.cons_prefix_cons.mp hp).1] at hb
        exact absurd (by decide) hb
    rw [LaidScript.render, parseVersionScript, bind_run,
      skip_gap_settled hbefore hbefore' hsettled, Outcome.done_bind, bind_run, get_run,
      Outcome.done_bind, if_neg hopen, bind_run]
    refine (congrArg (Outcome.bind · _) hread).trans ?_
    rw [LaidScript.tokens, ScriptTokens.meaning, List.foldlM_map]
    cases vs.foldlM (fun st version => ScriptVersion.add newPattern st version.tokens)
      VersionState.base <;> rfl

/-! ## Two layouts of one script -/

/-- `{ foo; };` with this gap in front of the first semicolon. -/
def fooScript (after : Gap) : LaidScript :=
  .simple [] ⟨[.pattern ⟨[.blank ' '.toUInt8], bytes "foo", after⟩], [.blank ' '.toUInt8]⟩ [] []

/-- The script of one global rule. -/
def oneGlobal (rules : BasicMatchRules Text) : VersionScript Text :=
  .regular ⟨[⟨[], none, ⟨⟨rules, .empty⟩, .empty⟩⟩], ∅⟩

/-- `{ foo`, a line feed, and `; /*x*/bar; };` -/
def twoPatterns : LaidScript :=
  .simple [] ⟨[.pattern ⟨[.blank ' '.toUInt8], bytes "foo", [.blank '\n'.toUInt8]⟩,
    .pattern ⟨[.blank ' '.toUInt8, .comment (bytes "x")], bytes "bar", []⟩],
    [.blank ' '.toUInt8]⟩ [] []

theorem token_of_fooOrBar {text : Bytes} (h : text = bytes "foo" ∨ text = bytes "bar") :
    PatternToken text := by
  have hlabel : ∀ ruleSection : VersionRuleSection, ¬ ruleSection.keyword ++ bytes ":" <+: text := by
    intro ruleSection
    rcases h with rfl | rfl
    · cases ruleSection <;> decide
    · cases ruleSection <;> decide
  rcases h with rfl | rfl
  · exact ⟨by decide, by decide, by decide, by decide, hlabel, by decide⟩
  · exact ⟨by decide, by decide, by decide, by decide, hlabel, by decide⟩

theorem wellFormed_blank : Gap.WellFormed [.blank ' '.toUInt8] :=
  List.forall_mem_singleton.mpr (by decide)

theorem fooScript_wellFormed {after : Gap} (h : after.WellFormed) :
    (fooScript after).WellFormed :=
  ⟨List.forall_mem_nil _, ⟨List.forall_mem_singleton.mpr
    ⟨wellFormed_blank, token_of_fooOrBar (.inl rfl), h⟩, wellFormed_blank⟩,
    List.forall_mem_nil _, List.forall_mem_nil _⟩

theorem clean_layout_is_parsed_twoPatterns : ∃ least, ∀ fuel, least ≤ fuel →
    VersionScript.parse (some : Text → Option Text) fuel twoPatterns.render =
      Outcome.ofExcept (twoPatterns.tokens.meaning some) := by
  refine clean_layout_is_parsed some twoPatterns
    ⟨List.forall_mem_nil _, ⟨?_, wellFormed_blank⟩, List.forall_mem_nil _, List.forall_mem_nil _⟩
    ⟨List.forall_mem_nil _, ⟨?_, List.forall_mem_singleton.mpr trivial⟩,
      List.forall_mem_nil _, List.forall_mem_nil _⟩
  · exact List.forall_mem_cons.mpr ⟨⟨wellFormed_blank, token_of_fooOrBar (.inl rfl),
      List.forall_mem_singleton.mpr (by decide)⟩, List.forall_mem_singleton.mpr
        ⟨by unfold Gap.WellFormed; decide, token_of_fooOrBar (.inr rfl), List.forall_mem_nil _⟩⟩
  · exact List.forall_mem_cons.mpr ⟨⟨List.forall_mem_singleton.mpr trivial,
      List.forall_mem_singleton.mpr trivial, by decide⟩, List.forall_mem_singleton.mpr
        ⟨List.forall_mem_cons.mpr ⟨trivial, List.forall_mem_singleton.mpr
          (show ¬ bytes "/" <+: bytes "x" by decide)⟩, List.forall_mem_nil _, by decide⟩⟩

/-- A comment in front of a semicolon makes the exact name a glob pattern. -/
theorem comment_becomes_a_pattern :
    (fooScript []).WellFormed ∧ (fooScript [.comment (bytes "x")]).WellFormed ∧
      (fooScript []).tokens = (fooScript [.comment (bytes "x")]).tokens ∧
      VersionScript.parse some 3 (fooScript []).render =
        .done (oneGlobal ⟨{bytes "foo"}, ∅, [], [], false⟩) ∧
      VersionScript.parse some 3 (fooScript [.comment (bytes "x")]).render =
        .done (oneGlobal ⟨∅, ∅, ["foo/*x*/".toList], [], false⟩) ∧
      oneGlobal ⟨{bytes "foo"}, ∅, [], [], false⟩ ≠
        oneGlobal ⟨∅, ∅, ["foo/*x*/".toList], [], false⟩ := by
  refine ⟨fooScript_wellFormed (List.forall_mem_nil _),
    fooScript_wellFormed (List.forall_mem_singleton.mpr (by decide)), rfl, ?_, ?_, ?_⟩
  · decide +kernel
  · decide +kernel
  · decide +kernel

end Sld.Script
