/-
# `Script.Rounds` — what one round of the script parsers takes

The small parsers always finish.  The loops run on fuel: more of it never
changes what is finished (`parseMatcher_mono` and the lemmas around it).

A round over an `extern` block takes something off the input or is the
last, but for one mode: where no `}` follows, and the block is not in a
context that omits semicolons, the pattern is the whole rest of the input,
which is not taken.  A head of the loop where that happens is `Stuck`: the
same pattern is read again, for ever (`externStep_stuck`, `externStep_takes`).
-/
import Sld.Script.VersionScripts

namespace Sld.Script

open Text Text.Scanner
open Below (bind_right refl)

variable {Pattern : Type} {newPattern : Text → Option Pattern}

/-! ## Rounds of the loops -/

theorem total_patternToken (ws : Bool) : Total (patternToken ws) := by
  cases ws with
  | false => exact Total.takeUntil _ _ _
  | true =>
    refine Total.get.bind fun input => ?_
    split
    · exact Total.takeUntil _ _ _
    · exact Total.pure _

theorem takes_patternToken (ws : Bool) : Takes 0 (patternToken ws) := by
  cases ws with
  | false => exact (Takes.takeUntil _ _ _).mono (Nat.zero_le _)
  | true =>
    refine Takes.get.bind_right fun input => ?_
    split
    · exact (Takes.takeUntil _ _ _).mono (Nat.zero_le _)
    · exact Takes.pure _

theorem total_parsePattern (ws : Bool) : Total (parsePattern newPattern ws) :=
  (total_patternToken ws).bind fun _ => total_skip.bind fun _ =>
    (Total.tryTake _).bind fun _ => Total.ofExcept _

variable {ws : Bool}

theorem takes_parsePattern {k : ℕ} (h : Takes k (patternToken ws)) :
    Takes k (parsePattern newPattern ws) :=
  h.bind_left fun _ => takes_skip.bind_right fun _ =>
    (Takes.tryTake _).bind_right fun _ => Takes.ofExcept _

theorem total_externLanguage : Total externLanguage := by
  refine (Total.tryTake _).bind fun found => ?_
  cases found with
  | true => exact Total.pure _
  | false =>
    refine (Total.tryTake _).bind fun found => ?_
    cases found with
    | true => exact Total.pure _
    | false => exact (Total.literal _ _).bind fun _ => Total.fail _

theorem takes_externLanguage : Takes 0 externLanguage := by
  refine (Takes.tryTake _).bind_right fun found => ?_
  cases found with
  | true => exact Takes.pure _
  | false =>
    refine (Takes.tryTake _).bind_right fun found => ?_
    cases found with
    | true => exact Takes.pure _
    | false => exact ((Takes.literal _ _).mono (Nat.zero_le _)).bind_right fun _ => Takes.fail 0 _

theorem total_externOpening : Total externOpening :=
  total_externLanguage.bind fun _ => total_skip.bind fun _ =>
    (Total.literal _ _).bind fun _ => Total.pure _

theorem takes_externOpening : Takes 0 externOpening :=
  takes_externLanguage.bind_right fun _ => takes_skip.bind_right fun _ =>
    ((Takes.literal _ _).mono (Nat.zero_le _)).bind_right fun _ => Takes.pure _

/-! ## More fuel -/

theorem externStep_below {p q : Bool → Parser (ParsedSymbolMatcher Pattern)}
    (h : ∀ ws, Below (p ws) (q ws)) (ws : Bool) (matchers : List (SymbolMatcher Pattern)) :
    Below (externStep p ws matchers) (externStep q ws matchers) := by
  refine bind_right fun _ => bind_right fun closed => ?_
  cases closed with
  | true => exact refl _
  | false => exact bind_right fun remaining => (h _).bind fun matcher => refl _

theorem parseMatcher_mono (ws : Bool) : Monotone fun fuel => parseMatcher newPattern fuel ws := by
  intro fuel
  induction fuel generalizing ws with
  | zero => exact fun _ _ _ => .inl rfl
  | succ fuel ih =>
    intro fuel' hle
    obtain ⟨fuel', rfl⟩ : ∃ m, fuel' = m + 1 := ⟨fuel' - 1, by omega⟩
    have hle : fuel ≤ fuel' := by omega
    refine bind_right fun block => ?_
    cases block with
    | false => exact refl _
    | true =>
      refine bind_right fun cxx => Below.bind ?_ fun matchers => refl _
      exact loop_below (fun st => externStep_below (fun ws => ih ws hle) ws st) hle []

theorem externStep_mono (ws : Bool) (matchers : List (SymbolMatcher Pattern)) :
    Monotone fun fuel => externStep (parseMatcher newPattern fuel) ws matchers :=
  fun _ _ hle => externStep_below (fun ws => parseMatcher_mono ws hle) ws matchers

theorem sectionStep_mono (st : SectionState Pattern) :
    Monotone fun fuel => sectionStep newPattern fuel st := by
  intro fuel fuel' hle
  refine bind_right fun _ => bind_right fun closed => ?_
  cases closed with
  | true => exact refl _
  | false =>
    refine bind_right fun found => ?_
    cases found with
    | true => exact refl _
    | false =>
      refine bind_right fun found => ?_
      cases found with
      | true => exact refl _
      | false => exact (parseMatcher_mono false hle).bind fun _ => refl _

theorem parseVersionSection_mono : Monotone (parseVersionSection newPattern) :=
  fun _ _ hle => bind_right fun _ => Monotone.loop sectionStep_mono _ hle

theorem versionStep_mono (st : VersionState Pattern) :
    Monotone fun fuel => versionStep newPattern fuel st := by
  intro fuel fuel' hle
  refine bind_right fun input => ?_
  split
  · exact refl _
  · exact bind_right fun name => bind_right fun _ =>
      (parseVersionSection_mono hle).bind fun body => refl _

theorem exportStep_mono (out : MatchRules Pattern) :
    Monotone fun fuel => exportStep newPattern fuel out := by
  intro fuel fuel' hle
  refine bind_right fun _ => bind_right fun input => ?_
  split
  · exact refl _
  · exact (parseMatcher_mono false hle).bind fun _ => refl _

/-! ## Where a round over an `extern` block is -/

theorem parseMatcher_externBlock (fuel : ℕ) (ws : Bool) (rest : Bytes) :
    parseMatcher newPattern (fuel + 1) ws (bytes "extern " ++ rest) =
      (externOpening rest).bind fun r =>
        (loop (externStep (parseMatcher newPattern fuel) ws) fuel [] r.2).bind fun r' =>
          .done (if r.1 then .cxxMatchers r'.1 else .multiple r'.1, r'.2) := by
  rw [parseMatcher, bind_run, tryTake_append]
  rfl

variable {s : Bytes}

theorem parseMatcher_pattern (fuel : ℕ) (ws : Bool) (h : ¬ bytes "extern " <+: s) :
    parseMatcher newPattern (fuel + 1) ws s =
      (parsePattern newPattern ws s).bind fun r => .done (.single r.1, r.2) := by
  rw [parseMatcher, bind_run, tryTake_of_not_prefix h]
  rfl

theorem patternToken_run (ws : Bool) (s : Bytes) : patternToken ws s = if ws then
        if '}'.toUInt8 ∈ s then takeUntil .mismatch 1 (bytes "\x7d") s else .done (s, s)
      else takeUntil .mismatch 1 (bytes ";") s := by
  cases ws with
  | false => rfl
  | true =>
    rw [patternToken]
    simp only [if_true, bind_run, get_run, Outcome.done_bind]
    split <;> rfl

/-- A head of the loop over an `extern` block, at `s` after blanks and
comments, where the pattern is the whole rest of the input. -/
structure StuckAt (newPattern : Text → Option Pattern) (withoutSemicolon : Bool) (s : Bytes) :
    Prop where
  semicolons : withoutSemicolon = false
  settled : Settled s
  unclosed : '}'.toUInt8 ∉ s
  noSemicolon : ¬ bytes ";" <+: s
  noExtern : ¬ bytes "extern " <+: s
  valid : ∃ matcher, matcherOfToken newPattern s = .ok matcher

/-- The same before the blanks and comments. -/
def Stuck (newPattern : Text → Option Pattern) (withoutSemicolon : Bool) (s : Bytes) : Prop :=
  ∃ v, skipCommentsAndWhitespace s = .done ((), v) ∧ StuckAt newPattern withoutSemicolon v

theorem not_infix_of_not_mem (h : '}'.toUInt8 ∉ s) : s.dropInfix? (bytes "\x7d;") = none := by
  rw [Option.eq_none_iff_forall_ne_some]
  intro found hfound
  have hb := dropInfix?_eq_some hfound
  refine h ?_
  rw [hb.eq]
  exact List.mem_append_right _ (List.mem_append_left _ (by decide))

theorem expectSemicolon_of_not_mem (h : '}'.toUInt8 ∉ s) : expectSemicolon ws s = ws := by
  rw [expectSemicolon, not_infix_of_not_mem h]

theorem parsePattern_idle {s' : Bytes} {matcher : SymbolMatcher Pattern}
    (hs : Settled s) (h : parsePattern newPattern ws s = .done (matcher, s'))
    (hidle : s.length ≤ s'.length) :
    ws = true ∧ '}'.toUInt8 ∉ s ∧ ¬ bytes ";" <+: s ∧
      matcherOfToken newPattern s = .ok matcher := by
  have hbusy : ¬ Takes 1 (patternToken ws) := by
    intro htake
    have : s'.length + 1 ≤ s.length := takes_parsePattern htake s _ h
    omega
  cases ws with
  | false => exact absurd (Takes.takeUntil _ 1 _) hbusy
  | true =>
    obtain ⟨token, s₁, htoken, h⟩ := bind_eq_done.mp h
    obtain ⟨_, s₂, hskip, h⟩ := bind_eq_done.mp h
    obtain ⟨semicolon, s₃, hsemi, h⟩ := bind_eq_done.mp h
    obtain ⟨hok, hrest⟩ := ofExcept_eq_done.mp h
    obtain rfl : s' = s₃ := hrest
    have hs₂ : s₂.length ≤ s₁.length := takes_skip s₁ _ hskip
    have hs₃ : s'.length ≤ s₂.length := Takes.tryTake _ s₂ _ hsemi
    rw [patternToken_run] at htoken
    by_cases hclose : '}'.toUInt8 ∈ s
    · rw [if_pos hclose] at htoken
      have : s₁.length + 1 ≤ s.length := Takes.takeUntil _ 1 _ s _ htoken
      omega
    · rw [if_neg hclose] at htoken
      cases htoken
      cases (skip_settled hs).symm.trans hskip
      refine ⟨rfl, hclose, ?_, hok⟩
      rintro ⟨rest, rfl⟩
      cases (tryTake_append _ _).symm.trans hsemi
      exact absurd hidle (by simp [bytes])

theorem StuckAt.parsePattern (h : StuckAt newPattern ws s) :
    ∃ matcher, parsePattern newPattern true s = .done (matcher, s) := by
  obtain ⟨matcher, hok⟩ := h.valid
  refine ⟨matcher, bind_eq_done.mpr ⟨s, s, ?_, ?_⟩⟩
  · rw [patternToken_run, if_pos rfl, if_neg h.unclosed]
  · rw [bind_run, skip_settled h.settled, Outcome.done_bind, bind_run,
      tryTake_of_not_prefix h.noSemicolon, Outcome.done_bind, hok]
    rfl

section ExternStep

variable {p : Bool → Parser (ParsedSymbolMatcher Pattern)} {ws : Bool}
  {matchers : List (SymbolMatcher Pattern)} {s v : Bytes}

theorem externStep_open (hskip : skipCommentsAndWhitespace s = .done ((), v))
    (hopen : ¬ bytes "\x7d;" <+: v) :
    externStep p ws matchers s = (p (!expectSemicolon ws v) v).bind fun r =>
        (ofExcept r.1.expectSingle r.2).bind fun r' => .done (.inl (matchers ++ [r'.1]), r'.2) := by
  rw [externStep, bind_run, hskip, Outcome.done_bind, bind_run, tryTake_of_not_prefix hopen]
  rfl

theorem externStep_close {rest : Bytes}
    (hskip : skipCommentsAndWhitespace s = .done ((), bytes "\x7d;" ++ rest)) :
    externStep p ws matchers s =
      (skipCommentsAndWhitespace rest).bind fun r => .done (.inr matchers, r.2) := by
  rw [externStep, bind_run, hskip, Outcome.done_bind, bind_run, tryTake_append]
  rfl

/-- The matcher of a round is read at `v`. -/
def ExternCall (s v : Bytes) : Prop :=
  skipCommentsAndWhitespace s = .done ((), v) ∧ ¬ bytes "\x7d;" <+: v

theorem ExternCall.length_le (h : ExternCall s v) : v.length ≤ s.length := takes_skip s _ h.1

theorem externStep_unfinished (h : externStep p ws matchers s = .unfinished) :
    ∃ v, ExternCall s v ∧ p (!expectSemicolon ws v) v = .unfinished := by
  obtain h | ⟨_, v, hskip, h⟩ := bind_eq_unfinished.mp h
  · exact absurd h (total_skip s)
  · rcases @tryTake_cases ParseError (bytes "\x7d;") v with ⟨rest, rfl, _⟩ | ⟨hopen, _⟩
    · rw [bind_run, tryTake_append] at h
      obtain h | ⟨_, _, _, h⟩ := bind_eq_unfinished.mp h
      · exact absurd h (total_skip rest)
      · cases h
    · refine ⟨v, ⟨hskip, hopen⟩, ?_⟩
      rw [bind_run, tryTake_of_not_prefix hopen] at h
      obtain h | ⟨_, _, hget, h⟩ := bind_eq_unfinished.mp h
      · cases h
      · cases hget
        obtain h | ⟨r, s', _, h⟩ := bind_eq_unfinished.mp h
        · exact h
        · obtain h | ⟨_, _, _, h⟩ := bind_eq_unfinished.mp h
          · exact absurd h (Total.ofExcept _ s')
          · cases h

theorem externStep_continue {matchers' : List (SymbolMatcher Pattern)} {s' : Bytes}
    (h : externStep p ws matchers s = .done (.inl matchers', s')) :
    ∃ v matcher, ExternCall s v ∧ p (!expectSemicolon ws v) v = .done (.single matcher, s') := by
  obtain ⟨_, v, hskip, _⟩ := bind_eq_done.mp h
  rcases @tryTake_cases ParseError (bytes "\x7d;") v with ⟨rest, rfl, _⟩ | ⟨hopen, _⟩
  · rw [externStep_close hskip] at h
    obtain ⟨r, _, h⟩ := Outcome.bind_eq_done.mp h
    cases h
  · rw [externStep_open hskip hopen] at h
    obtain ⟨⟨parsed, s₁⟩, hp, h⟩ := Outcome.bind_eq_done.mp h
    obtain ⟨⟨matcher, s₂⟩, hsingle, h⟩ := Outcome.bind_eq_done.mp h
    obtain ⟨hok, hrest⟩ := ofExcept_eq_done.mp hsingle
    cases h
    cases hrest
    refine ⟨v, matcher, ⟨hskip, hopen⟩, ?_⟩
    cases parsed with
    | single m => cases hok; exact hp
    | multiple ms => cases hok
    | cxxMatchers ms => cases hok

end ExternStep

theorem externStep_takes {fuel : ℕ} {matchers matchers' : List (SymbolMatcher Pattern)} {s' : Bytes}
    (h : externStep (parseMatcher newPattern fuel) ws matchers s = .done (.inl matchers', s'))
    (hfree : ¬ Stuck newPattern ws s) : s'.length < s.length := by
  obtain ⟨v, matcher, hcall, hp⟩ := externStep_continue h
  by_contra hidle
  refine hfree ⟨v, hcall.1, ?_⟩
  have hsettled : Settled v := settled_of_skip hcall.1
  cases fuel with
  | zero => cases hp
  | succ fuel =>
    by_cases hextern : bytes "extern " <+: v
    · obtain ⟨rest, rfl⟩ := hextern
      rw [parseMatcher_externBlock] at hp
      obtain ⟨⟨cxx, block⟩, _, hp⟩ := Outcome.bind_eq_done.mp hp
      obtain ⟨r, _, hp⟩ := Outcome.bind_eq_done.mp hp
      cases cxx <;> cases hp
    · rw [parseMatcher_pattern fuel _ hextern] at hp
      obtain ⟨⟨m, s₁⟩, hpat, hp⟩ := Outcome.bind_eq_done.mp hp
      obtain ⟨rfl, rfl⟩ : m = matcher ∧ s₁ = s' := by cases hp; exact ⟨rfl, rfl⟩
      have hlen : v.length ≤ s₁.length := Nat.le_trans hcall.length_le (Nat.le_of_not_lt hidle)
      obtain ⟨hws, hclose, hsemi, hok⟩ := parsePattern_idle hsettled hpat hlen
      rw [expectSemicolon_of_not_mem hclose] at hws
      exact ⟨by simpa using hws, hsettled, hclose, hsemi, hextern, m, hok⟩

theorem externStep_stuck (h : Stuck newPattern ws s) (fuel : ℕ)
    (matchers : List (SymbolMatcher Pattern)) :
    externStep (parseMatcher newPattern fuel) ws matchers s = .unfinished ∨
      ∃ matchers' v, externStep (parseMatcher newPattern fuel) ws matchers s =
        .done (.inl matchers', v) ∧ Stuck newPattern ws v := by
  obtain ⟨v, hskip, hstuck⟩ := h
  have hopen : ¬ bytes "\x7d;" <+: v := by
    rintro ⟨rest, rfl⟩
    exact hstuck.unclosed (List.mem_append_left _ (by decide))
  rw [externStep_open hskip hopen, expectSemicolon_of_not_mem hstuck.unclosed, hstuck.semicolons]
  cases fuel with
  | zero => exact .inl rfl
  | succ fuel =>
    obtain ⟨matcher, hpat⟩ := hstuck.parsePattern
    refine .inr ⟨matchers ++ [matcher], v, ?_, v, skip_settled hstuck.settled, ?_⟩
    · rw [parseMatcher_pattern fuel _ hstuck.noExtern]
      show ((parsePattern newPattern true v).bind _).bind _ = _
      rw [hpat]
      rfl
    · exact hstuck.semicolons ▸ hstuck

end Sld.Script
