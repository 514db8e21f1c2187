/-
# `Script.Termination` — which scripts the parsers never come to the end of

Each round of the loops over a version script, a section and an export list
takes something off the input or is the last.  So does a round over an
`extern` block, unless its head is stuck.

A parser finishes, on more fuel than there is input, exactly if none of
these heads is stuck (`parse_terminates_iff`).
-/
import Sld.Script.Rounds

namespace Sld.Script

open Text Text.Scanner
open Outcome (done_bind)
open Takes (get loop pure tryTake_bind)
open ExportList (parse)
open VersionState (base push)

variable {Pattern : Type} {newPattern : Text → Option Pattern}

/-! ## `parse_matcher` -/

/-- The heads the loop over the block comes to, from the text after its `{`. -/
def ExternHead (newPattern : Text → Option Pattern) (withoutSemicolon : Bool) (block : Bytes)
    (matchers : List (SymbolMatcher Pattern)) (s : Bytes) : Prop :=
  LoopReach (fun fuel => externStep (parseMatcher newPattern fuel) withoutSemicolon)
    ([], block) (matchers, s)

/-- `parse_matcher` on `s` comes to the head, on `t`, of a loop over an
`extern` block: of its own block, or of one in there. -/
inductive MatcherVisits (newPattern : Text → Option Pattern) : Bool → Bytes → Bool → Bytes → Prop
  | head {ws : Bool} {rest : Bytes} {opened : Bool × Bytes}
      {matchers : List (SymbolMatcher Pattern)} {t : Bytes}
      (opening : externOpening rest = .done opened)
      (reach : ExternHead newPattern ws opened.2 matchers t) :
      MatcherVisits newPattern ws (bytes "extern " ++ rest) ws t
  | nested {ws ws' : Bool} {rest : Bytes} {opened : Bool × Bytes}
      {matchers : List (SymbolMatcher Pattern)} {u v t : Bytes}
      (opening : externOpening rest = .done opened)
      (reach : ExternHead newPattern ws opened.2 matchers u)
      (call : ExternCall u v)
      (visits : MatcherVisits newPattern (!expectSemicolon ws v) v ws' t) :
      MatcherVisits newPattern ws (bytes "extern " ++ rest) ws' t

variable {block t : Bytes} {matchers : List (SymbolMatcher Pattern)} {ws : Bool}

theorem externLoop_stuck
    (hreach : ExternHead newPattern ws block matchers t) (ht : Stuck newPattern ws t) (n fuel : ℕ) :
    loop (externStep (parseMatcher newPattern fuel) ws) n [] block = .unfinished := by
  refine loop_unfinished_of_reach (externStep_mono ws) hreach (fun n fuel => ?_) n fuel
  refine loop_unfinished_of_invariant (I := fun x => Stuck newPattern ws x.2) ?_ n (matchers, t) ht
  intro x hx
  rcases externStep_stuck hx fuel x.1 with hu | ⟨matchers', v, hd, hv⟩
  · exact .inl hu
  · exact .inr ⟨(matchers', v), hd, hv⟩

theorem externLoop_call {u v : Bytes}
    (hreach : ExternHead newPattern ws block matchers u) (hcall : ExternCall u v)
    (h : ∀ fuel, parseMatcher newPattern fuel (!expectSemicolon ws v) v = .unfinished)
    (n fuel : ℕ) :
    loop (externStep (parseMatcher newPattern fuel) ws) n [] block = .unfinished := by
  refine loop_unfinished_of_reach (externStep_mono ws) hreach (fun n fuel => ?_) n fuel
  refine loop_unfinished_of_invariant (I := fun x => x = (matchers, u)) ?_ n (matchers, u) rfl
  rintro x rfl
  left
  rw [externStep_open hcall.1 hcall.2, h fuel]
  rfl

variable {s : Bytes}

theorem parseMatcher_stuck {ws' : Bool}
    (h : MatcherVisits newPattern ws s ws' t) (ht : Stuck newPattern ws' t) (fuel : ℕ) :
    parseMatcher newPattern fuel ws s = .unfinished := by
  induction h generalizing fuel with
  | head opening reach =>
    cases fuel with
    | zero => rfl
    | succ fuel =>
      rw [parseMatcher_externBlock, opening, done_bind, externLoop_stuck reach ht]
      rfl
  | nested opening reach call visits ih =>
    cases fuel with
    | zero => rfl
    | succ fuel =>
      rw [parseMatcher_externBlock, opening, done_bind,
        externLoop_call reach call fun fuel => ih ht fuel]
      rfl

variable {fuel : ℕ}

theorem parseMatcher_finishes (hlen : s.length < fuel)
    (h : ∀ ws' t, MatcherVisits newPattern ws s ws' t → ¬ Stuck newPattern ws' t) :
    parseMatcher newPattern fuel ws s ≠ .unfinished := by
  induction fuel generalizing ws s with
  | zero => omega
  | succ fuel ih =>
    by_cases hextern : bytes "extern " <+: s
    · obtain ⟨rest, rfl⟩ := hextern
      rw [parseMatcher_externBlock]
      intro hu
      obtain hu | ⟨opened, hopening, hu⟩ := Outcome.bind_eq_unfinished.mp hu
      · exact total_externOpening rest hu
      · obtain hu | ⟨r, _, hu⟩ := Outcome.bind_eq_unfinished.mp hu
        · have hblock : opened.2.length < fuel := by
            have := takes_externOpening rest _ hopening
            have hlong : (bytes "extern ").length = 7 := rfl
            rw [List.length_append] at hlen
            omega
          refine loop_finishes (fun fuel => externStep (parseMatcher newPattern fuel) ws) fuel
            (x := ([], opened.2)) ?_ hblock hu
          -- the rounds of the block: each finishes, and takes something or is the last
          rintro ⟨matchers, u⟩ hreach hle
          constructor
          · intro hstep
            obtain ⟨v, hcall, hp⟩ := externStep_unfinished hstep
            have hshort : v.length < fuel :=
              Nat.lt_of_le_of_lt (Nat.le_trans hcall.length_le hle) hblock
            exact ih hshort (fun ws' t hv => h ws' t (.nested hopening hreach hcall hv)) hp
          · intro matchers' s' hstep
            exact externStep_takes hstep (h ws u (.head hopening hreach))
        · cases hu
    · rw [parseMatcher_pattern fuel ws hextern]
      intro hu
      obtain hu | ⟨r, _, hu⟩ := Outcome.bind_eq_unfinished.mp hu
      · exact total_parsePattern ws s hu
      · cases hu

/-! ## Sections -/

/-- Where a round over a section reads a matcher. -/
structure SectionCall (s v : Bytes) : Prop where
  skip : skipCommentsAndWhitespace s = .done ((), v)
  notClosed : ¬ bytes "\x7d" <+: v
  notGlobal : ¬ bytes "global:" <+: v
  notLocal : ¬ bytes "local:" <+: v

theorem SectionCall.length_le {v : Bytes} (h : SectionCall s v) : v.length ≤ s.length :=
  takes_skip s _ h.skip

theorem SectionCall.step {v : Bytes} (h : SectionCall s v) (fuel : ℕ) (st : SectionState Pattern) :
    sectionStep newPattern fuel st s = (parseMatcher newPattern fuel false v).bind
        fun r => .done (.inl (st.1, st.2.push r.1 st.1), r.2) := by
  rw [sectionStep, bind_run, h.skip, done_bind, bind_run,
    tryTake_of_not_prefix h.notClosed, done_bind]
  show (tryTake _ >>= _) v = _
  rw [bind_run, tryTake_of_not_prefix h.notGlobal, done_bind]
  show (tryTake _ >>= _) v = _
  rw [bind_run, tryTake_of_not_prefix h.notLocal]
  rfl

theorem takes_parseMatcher_succ {k : ℕ} (hk : k ≤ (bytes "extern ").length)
    (hinner : ∀ ws, Takes 0 (parseMatcher newPattern fuel ws))
    (htoken : Takes k (patternToken ws)) :
    Takes k (parseMatcher newPattern (fuel + 1) ws) := by
  refine tryTake_bind hk ?_ ?_
  · refine takes_externOpening.bind_right fun cxx => Takes.bind_right ?_ fun _ => pure _
    refine loop (fun matchers => ?_) fuel []
    refine takes_skip.bind_right fun _ => tryTake_bind (Nat.zero_le _) ?_ ?_
    · exact takes_skip.bind_right fun _ => pure _
    · exact get.bind_right fun _ => (hinner _).bind_right fun _ =>
        (Takes.ofExcept _).bind_right fun _ => pure _
  · exact (takes_parsePattern htoken).bind_left fun _ => pure _

theorem takes_parseMatcher (fuel : ℕ) (ws : Bool) : Takes 0 (parseMatcher newPattern fuel ws) := by
  induction fuel generalizing ws with
  | zero => intro s r h; cases h
  | succ fuel ih => exact takes_parseMatcher_succ (Nat.zero_le _) ih (takes_patternToken ws)

theorem takes_parseMatcher_false (fuel : ℕ) : Takes 1 (parseMatcher newPattern fuel false) := by
  cases fuel with
  | zero => intro s r h; cases h
  | succ fuel =>
    exact takes_parseMatcher_succ (by decide) (takes_parseMatcher fuel) (Takes.takeUntil _ 1 _)

theorem takes_sectionStep (fuel : ℕ) (st : SectionState Pattern) :
    Takes 1 (sectionStep newPattern fuel st) := by
  refine takes_skip.bind_right fun _ => tryTake_bind (by decide) ?_ ?_
  · exact takes_skip.bind_right fun _ => pure _
  · refine tryTake_bind (by decide) (pure _) ?_
    refine tryTake_bind (by decide) (pure _) ?_
    exact (takes_parseMatcher_false fuel).bind_left fun _ => pure _

theorem sectionStep_unfinished {st : SectionState Pattern}
    (h : sectionStep newPattern fuel st s = .unfinished) :
    ∃ v, SectionCall s v ∧ parseMatcher newPattern fuel false v = .unfinished := by
  obtain h | ⟨_, v, hskip, h⟩ := bind_eq_unfinished.mp h
  · exact absurd h (total_skip s)
  · obtain ⟨rest, _, h⟩ | ⟨hclosed, h⟩ := tryTake_bind_unfinished h
    · exact absurd h ((total_skip.bind fun _ => Total.pure _) rest)
    · obtain ⟨rest, _, h⟩ | ⟨hglobal, h⟩ := tryTake_bind_unfinished h
      · cases h
      · obtain ⟨rest, _, h⟩ | ⟨hlocal, h⟩ := tryTake_bind_unfinished h
        · cases h
        · obtain h | ⟨_, _, _, h⟩ := bind_eq_unfinished.mp h
          · exact ⟨v, ⟨hskip, hclosed, hglobal, hlocal⟩, h⟩
          · cases h

/-- The heads the loop over a section comes to, from the text after its `{`. -/
def SectionHead (newPattern : Text → Option Pattern) (block : Bytes)
    (st : SectionState Pattern) (s : Bytes) : Prop :=
  LoopReach (fun fuel => sectionStep newPattern fuel) ((none, ⟨[], []⟩), block) (st, s)

/-- `parse_version_section`, on the text after its `{`, comes to the head
of a loop over an `extern` block. -/
def SectionVisits (newPattern : Text → Option Pattern) (block : Bytes) (ws : Bool) (t : Bytes) :
    Prop :=
  ∃ st u v, SectionHead newPattern block st u ∧ SectionCall u v ∧
    MatcherVisits newPattern false v ws t

theorem sectionLoop_stuck
    (h : SectionVisits newPattern block ws t) (ht : Stuck newPattern ws t) (n fuel : ℕ) :
    loop (sectionStep newPattern fuel) n (none, ⟨[], []⟩) block = .unfinished := by
  obtain ⟨st, u, v, hreach, hcall, hvisits⟩ := h
  refine loop_unfinished_of_reach sectionStep_mono hreach (fun n fuel => ?_) n fuel
  refine loop_unfinished_of_invariant (I := fun x => x = (st, u)) ?_ n (st, u) rfl
  rintro x rfl
  left
  rw [hcall.step, parseMatcher_stuck hvisits ht]
  rfl

theorem sectionLoop_finishes (hlen : block.length < fuel)
    (h : ∀ ws t, SectionVisits newPattern block ws t → ¬ Stuck newPattern ws t) :
    loop (sectionStep newPattern fuel) fuel (none, ⟨[], []⟩) block ≠ .unfinished := by
  refine loop_finishes (fun fuel => sectionStep newPattern fuel) fuel
    (x := ((none, ⟨[], []⟩), block)) ?_ hlen
  rintro ⟨st, u⟩ hreach hle
  constructor
  · intro hstep
    obtain ⟨v, hcall, hp⟩ := sectionStep_unfinished hstep
    have hshort : v.length < fuel := Nat.lt_of_le_of_lt (Nat.le_trans hcall.length_le hle) hlen
    exact parseMatcher_finishes hshort (fun ws t hv => h ws t ⟨st, u, v, hreach, hcall, hv⟩) hp
  · intro st' s' hstep
    exact takes_sectionStep fuel st u _ hstep

theorem parseVersionSection_stuck
    (h : SectionVisits newPattern block ws t) (ht : Stuck newPattern ws t) (fuel : ℕ) :
    parseVersionSection newPattern fuel (bytes "\x7b" ++ block) = .unfinished := by
  rw [parseVersionSection, bind_run, literal_append]
  exact sectionLoop_stuck h ht fuel fuel

theorem parseVersionSection_unfinished (hlen : s.length < fuel)
    (h : parseVersionSection newPattern fuel s = .unfinished) :
    ∃ block ws t, s = bytes "\x7b" ++ block ∧ SectionVisits newPattern block ws t ∧
      Stuck newPattern ws t := by
  obtain h | ⟨_, block, hopen, h⟩ := bind_eq_unfinished.mp h
  · exact absurd h (Total.literal _ _ s)
  · have hs : s = bytes "\x7b" ++ block := literal_eq_done.mp hopen
    have hblock : block.length < fuel := by
      rw [hs, List.length_append] at hlen
      omega
    by_contra hfree
    refine sectionLoop_finishes hblock (fun ws t hv ht => ?_) h
    exact hfree ⟨block, ws, t, hs, hv, ht⟩

/-! ## Versions -/

/-- Where a round over the versions reads a section. -/
structure VersionCall (s v : Bytes) : Prop where
  more : s ≠ []
  named : ∃ name u, parseToken s = .done (name, u) ∧ skipCommentsAndWhitespace u = .done ((), v)

theorem VersionCall.length_lt {v : Bytes} (h : VersionCall s v) : v.length < s.length := by
  obtain ⟨name, u, htoken, hskip⟩ := h.named
  have hu : u.length + 1 ≤ s.length := Takes.takeWhile1 _ _ s _ htoken
  have hv : v.length ≤ u.length := takes_skip u _ hskip
  omega

theorem versionStep_more (fuel : ℕ) (st : VersionState Pattern) (h : s ≠ []) :
    versionStep newPattern fuel st s =
      (parseToken >>= fun name => skipCommentsAndWhitespace >>= fun _ =>
        parseVersionSection newPattern fuel >>= fun body =>
        takeUntil .mismatch 0 (bytes ";") >>= fun parentName =>
        ofExcept (parentIndexOf st.1 parentName) >>= fun parentIndex =>
        literal .mismatch (bytes ";") >>= fun _ => skipCommentsAndWhitespace >>= fun _ =>
        pure (.inl (push st ⟨name, parentIndex, body.toVersionBody⟩))) s := by
  rw [versionStep, bind_run, get_run, done_bind, if_neg (by simpa using h)]

theorem VersionCall.step {v : Bytes} (h : VersionCall s v)
    (hv : parseVersionSection newPattern fuel v = .unfinished) (st : VersionState Pattern) :
    versionStep newPattern fuel st s = .unfinished := by
  obtain ⟨name, u, htoken, hskip⟩ := h.named
  rw [versionStep_more fuel st h.more, bind_run, htoken, done_bind, bind_run, hskip,
    done_bind, bind_run, hv]
  rfl

theorem versionStep_unfinished {st : VersionState Pattern}
    (h : versionStep newPattern fuel st s = .unfinished) :
    ∃ v, VersionCall s v ∧ parseVersionSection newPattern fuel v = .unfinished := by
  have hmore : s ≠ [] := by
    rintro rfl
    cases h
  rw [versionStep_more fuel st hmore] at h
  obtain h | ⟨name, u, htoken, h⟩ := bind_eq_unfinished.mp h
  · exact absurd h (Total.takeWhile1 _ _ s)
  · obtain h | ⟨_, v, hskip, h⟩ := bind_eq_unfinished.mp h
    · exact absurd h (total_skip u)
    · obtain h | ⟨body, w, _, h⟩ := bind_eq_unfinished.mp h
      · exact ⟨v, ⟨hmore, name, u, htoken, hskip⟩, h⟩
      · refine absurd h (Total.bind (Total.takeUntil _ _ _) (fun _ => ?_) w)
        exact (Total.ofExcept _).bind fun _ => (Total.literal _ _).bind fun _ =>
          total_skip.bind fun _ => Total.pure _

theorem takes_parseVersionSection (fuel : ℕ) : Takes 0 (parseVersionSection newPattern fuel) :=
  ((Takes.literal _ _).mono (Nat.zero_le _)).bind_right fun _ =>
    loop (fun st => (takes_sectionStep fuel st).mono (Nat.zero_le 1)) fuel _

theorem versionStep_takes {st st' : VersionState Pattern} {s' : Bytes}
    (h : versionStep newPattern fuel st s = .done (.inl st', s')) : s'.length < s.length := by
  have hmore : s ≠ [] := by
    rintro rfl
    cases h
  rw [versionStep_more fuel st hmore] at h
  refine Takes.bind_left (k := 1) (Takes.takeWhile1 _ _) (fun name => ?_) s _ h
  refine takes_skip.bind_right fun _ => (takes_parseVersionSection fuel).bind_right fun _ => ?_
  refine (Takes.takeUntil _ 0 _).bind_right fun _ => (Takes.ofExcept _).bind_right fun _ => ?_
  exact ((Takes.literal _ _).mono (Nat.zero_le _)).bind_right fun _ =>
    takes_skip.bind_right fun _ => pure _

/-- The heads the loop over the versions comes to. -/
def VersionHead (newPattern : Text → Option Pattern) (versions : Bytes)
    (st : VersionState Pattern) (s : Bytes) : Prop :=
  LoopReach (fun fuel => versionStep newPattern fuel) (VersionState.base, versions) (st, s)

/-- The versions of a script come to the head of a loop over an `extern` block. -/
def VersionsVisit (newPattern : Text → Option Pattern) (versions : Bytes) (ws : Bool) (t : Bytes) :
    Prop :=
  ∃ st u block, VersionHead newPattern versions st u ∧ VersionCall u (bytes "\x7b" ++ block) ∧
    SectionVisits newPattern block ws t

theorem versionLoop_stuck {versions : Bytes}
    (h : VersionsVisit newPattern versions ws t) (ht : Stuck newPattern ws t) (n fuel : ℕ) :
    loop (versionStep newPattern fuel) n base versions = .unfinished := by
  obtain ⟨st, u, block, hreach, hcall, hvisits⟩ := h
  refine loop_unfinished_of_reach versionStep_mono hreach (fun n fuel => ?_) n fuel
  refine loop_unfinished_of_invariant (I := fun x => x = (st, u)) ?_ n (st, u) rfl
  rintro x rfl
  exact .inl (hcall.step (parseVersionSection_stuck hvisits ht fuel) st)

theorem versionLoop_finishes {versions : Bytes} (hlen : versions.length < fuel)
    (h : ∀ ws t, VersionsVisit newPattern versions ws t → ¬ Stuck newPattern ws t) :
    loop (versionStep newPattern fuel) fuel base versions ≠ .unfinished := by
  refine loop_finishes (fun fuel => versionStep newPattern fuel) fuel
    (x := (base, versions)) ?_ hlen
  rintro ⟨st, u⟩ hreach hle
  constructor
  · intro hstep
    obtain ⟨v, hcall, hp⟩ := versionStep_unfinished hstep
    have hshort : v.length < fuel := Nat.lt_trans (Nat.lt_of_lt_of_le hcall.length_lt hle) hlen
    obtain ⟨block, ws, t, rfl, hvisits, ht⟩ := parseVersionSection_unfinished hshort hp
    exact h ws t ⟨st, u, block, hreach, hcall, hvisits⟩ ht
  · intro st' s' hstep
    exact versionStep_takes hstep

/-- A version script comes to the head of a loop over an `extern` block. -/
inductive ScriptVisits (newPattern : Text → Option Pattern) (raw : Bytes) (ws : Bool) (t : Bytes) :
    Prop
  | single {block : Bytes} (start : skipCommentsAndWhitespace raw = .done ((), bytes "\x7b" ++ block))
      (visits : SectionVisits newPattern block ws t)
  | versions {s : Bytes} (start : skipCommentsAndWhitespace raw = .done ((), s))
      (named : ¬ bytes "\x7b" <+: s) (visits : VersionsVisit newPattern s ws t)

variable {raw : Bytes}

theorem parseVersionScript_single
    (h : skipCommentsAndWhitespace raw = .done ((), bytes "\x7b" ++ block)) (fuel : ℕ) :
    parseVersionScript newPattern fuel raw =
      (parseVersionSection newPattern fuel (bytes "\x7b" ++ block)).bind fun r =>
        (literal .mismatch (bytes ";") r.2).bind fun r' =>
          (skipCommentsAndWhitespace r'.2).bind fun r'' =>
            .done (r.1.toVersionScript, r''.2) := by
  rw [parseVersionScript, bind_run, h, done_bind, bind_run, get_run, done_bind,
    if_pos ⟨block, rfl⟩]
  rfl

theorem parseVersionScript_versions
    (h : skipCommentsAndWhitespace raw = .done ((), s)) (hnamed : ¬ bytes "\x7b" <+: s) (fuel : ℕ) :
    parseVersionScript newPattern fuel raw =
      (loop (versionStep newPattern fuel) fuel base s).bind fun r =>
        .done (.regular r.1, r.2) := by
  rw [parseVersionScript, bind_run, h, done_bind, bind_run, get_run, done_bind,
    if_neg hnamed]
  rfl

theorem versionScript_stuck
    (h : ScriptVisits newPattern raw ws t) (ht : Stuck newPattern ws t) (fuel : ℕ) :
    VersionScript.parse newPattern fuel raw = .unfinished := by
  rw [VersionScript.parse, complete_eq_unfinished]
  cases h with
  | single start visits =>
    rw [parseVersionScript_single start, parseVersionSection_stuck visits ht]
    rfl
  | versions start named visits =>
    rw [parseVersionScript_versions start named, versionLoop_stuck visits ht]
    rfl

theorem versionScript_finishes (hlen : raw.length < fuel)
    (h : ∀ ws t, ScriptVisits newPattern raw ws t → ¬ Stuck newPattern ws t) :
    VersionScript.parse newPattern fuel raw ≠ .unfinished := by
  intro hu
  rw [VersionScript.parse, complete_eq_unfinished] at hu
  cases hstart : skipCommentsAndWhitespace raw with
  | unfinished => exact total_skip raw hstart
  | failed e =>
    rw [parseVersionScript, bind_run, hstart] at hu
    cases hu
  | done r =>
    obtain ⟨⟨⟩, s⟩ := r
    have hs : s.length < fuel := Nat.lt_of_le_of_lt (takes_skip raw _ hstart) hlen
    by_cases hopen : bytes "\x7b" <+: s
    · obtain ⟨block, rfl⟩ := hopen
      rw [parseVersionScript_single hstart] at hu
      obtain hu | ⟨r, _, hu⟩ := Outcome.bind_eq_unfinished.mp hu
      · obtain ⟨block', ws, t, heq, hvisits, ht⟩ := parseVersionSection_unfinished hs hu
        obtain rfl : block = block' := List.append_cancel_left heq
        exact h ws t (.single hstart hvisits) ht
      · exact absurd hu (((Total.literal _ _).bind fun _ => total_skip.bind fun _ =>
          Total.pure _) r.2)
    · rw [parseVersionScript_versions hstart hopen] at hu
      obtain hu | ⟨r, _, hu⟩ := Outcome.bind_eq_unfinished.mp hu
      · refine versionLoop_finishes hs (fun ws t hv => ?_) hu
        exact h ws t (.versions hstart hopen hv)
      · cases hu

/-! ## Export lists -/

/-- Where a round over an export list reads a matcher. -/
def ExportCall (s v : Bytes) : Prop :=
  skipCommentsAndWhitespace s = .done ((), v) ∧ ¬ bytes "\x7d;" <+: v

theorem exportStep_call {v : Bytes} (h : ExportCall s v) (fuel : ℕ) (out : MatchRules Pattern) :
    exportStep newPattern fuel out s =
      (parseMatcher newPattern fuel false v).bind fun r => .done (.inl (out.push r.1), r.2) := by
  rw [exportStep, bind_run, h.1, done_bind, bind_run, get_run, done_bind,
    if_neg h.2]
  rfl

variable {out : MatchRules Pattern}

theorem exportStep_unfinished (h : exportStep newPattern fuel out s = .unfinished) :
    ∃ v, ExportCall s v ∧ parseMatcher newPattern fuel false v = .unfinished := by
  obtain h | ⟨_, v, hskip, h⟩ := bind_eq_unfinished.mp h
  · exact absurd h (total_skip s)
  · rw [bind_run, get_run, done_bind] at h
    by_cases hclose : bytes "\x7d;" <+: v
    · rw [if_pos hclose] at h
      exact absurd h (((Total.literal _ _).bind fun _ => total_skip.bind fun _ => Total.pure _) v)
    · rw [if_neg hclose] at h
      obtain h | ⟨_, _, _, h⟩ := bind_eq_unfinished.mp h
      · exact ⟨v, ⟨hskip, hclose⟩, h⟩
      · cases h

theorem takes_exportStep (fuel : ℕ) (out : MatchRules Pattern) :
    Takes 1 (exportStep newPattern fuel out) := by
  refine takes_skip.bind_right fun _ => get.bind_right fun input => ?_
  split
  · exact ((Takes.literal _ _).mono (by decide)).bind_left fun _ =>
      takes_skip.bind_right fun _ => pure _
  · exact (takes_parseMatcher_false fuel).bind_left fun _ => pure _

/-- The heads the loop over an export list comes to, from the text after its `{`. -/
def ExportHead (newPattern : Text → Option Pattern) (block : Bytes)
    (out : MatchRules Pattern) (s : Bytes) : Prop :=
  LoopReach (fun fuel => exportStep newPattern fuel) (.empty, block) (out, s)

/-- A line without the blanks at its ends. -/
def lineText (line : Bytes) : Bytes := trimAsciiEnd (trimAsciiStart line)

/-- A line that is neither blank nor a comment. -/
def PatternLine (line : Bytes) : Prop := lineText line ≠ [] ∧ ¬ bytes "#" <+: lineText line

variable {line : Bytes}

theorem parseExportLines_pattern (h : PatternLine line) (fuel : ℕ)
    (out : MatchRules Pattern) (lines : List Bytes) :
    parseExportLines newPattern fuel out (line :: lines) =
      (parseMatcher newPattern fuel true (lineText line)).bind fun r =>
        parseExportLines newPattern fuel (out.push r.1) lines := by
  have hcond : ((lineText line).isEmpty || (bytes "#").isPrefixOf (lineText line)) = false := by
    simpa [List.isEmpty_iff, PatternLine, ← List.isPrefixOf_iff_prefix] using h
  show (if ((lineText line).isEmpty || (bytes "#").isPrefixOf (lineText line)) = true then _
    else _) = _
  rw [hcond]
  rfl

theorem parseExportLines_passed (h : ¬ PatternLine line) (fuel : ℕ)
    (out : MatchRules Pattern) (lines : List Bytes) :
    parseExportLines newPattern fuel out (line :: lines) =
      parseExportLines newPattern fuel out lines := by
  have hcond : ((lineText line).isEmpty || (bytes "#").isPrefixOf (lineText line)) = true := by
    simpa [List.isEmpty_iff, PatternLine, Classical.or_iff_not_imp_left,
      ← List.isPrefixOf_iff_prefix] using h
  show (if ((lineText line).isEmpty || (bytes "#").isPrefixOf (lineText line)) = true then _
    else _) = _
  rw [hcond]
  rfl

/-- The lines of an export list come to the head of a loop over an `extern`
block: a line does that is read after others were. -/
inductive LinesVisit (newPattern : Text → Option Pattern) (ws : Bool) (t : Bytes) :
    List Bytes → Prop
  | here {line : Bytes} {lines : List Bytes} (pattern : PatternLine line)
      (visits : MatcherVisits newPattern true (lineText line) ws t) :
      LinesVisit newPattern ws t (line :: lines)
  | passed {line : Bytes} {lines : List Bytes} (passed : ¬ PatternLine line)
      (later : LinesVisit newPattern ws t lines) : LinesVisit newPattern ws t (line :: lines)
  | later {line : Bytes} {lines : List Bytes} {r : ParsedSymbolMatcher Pattern × Bytes}
      (pattern : PatternLine line)
      (read : Yields (fun fuel => parseMatcher newPattern fuel true) (lineText line) r)
      (later : LinesVisit newPattern ws t lines) : LinesVisit newPattern ws t (line :: lines)

variable {lines : List Bytes}

theorem parseExportLines_stuck
    (h : LinesVisit newPattern ws t lines) (ht : Stuck newPattern ws t) (fuel : ℕ)
    (out : MatchRules Pattern) : parseExportLines newPattern fuel out lines = .unfinished := by
  induction h generalizing out with
  | here pattern visits =>
    rw [parseExportLines_pattern pattern, parseMatcher_stuck visits ht]
    rfl
  | passed passed later ih => rw [parseExportLines_passed passed, ih]
  | later pattern read later ih =>
    rw [parseExportLines_pattern pattern]
    rcases (parseMatcher_mono true).eq_of_yields read fuel with hu | hd
    · rw [hu]
      rfl
    · rw [hd]
      exact ih _

theorem parseExportLines_finishes (hlen : ∀ line ∈ lines, line.length < fuel)
    (h : ∀ ws t, LinesVisit newPattern ws t lines → ¬ Stuck newPattern ws t)
    (out : MatchRules Pattern) : parseExportLines newPattern fuel out lines ≠ .unfinished := by
  induction lines generalizing out with
  | nil => simp [parseExportLines]
  | cons line lines ih =>
    have hlater : ∀ l ∈ lines, l.length < fuel := fun l hl => hlen l (List.mem_cons_of_mem _ hl)
    by_cases hpat : PatternLine line
    · rw [parseExportLines_pattern hpat]
      have hshort : (lineText line).length < fuel := by
        refine Nat.lt_of_le_of_lt ?_ (hlen line List.mem_cons_self)
        exact Nat.le_trans (List.rdropWhile_prefix _ _).length_le
          (List.dropWhile_suffix _).length_le
      intro hu
      obtain hu | ⟨r, hd, hu⟩ := Outcome.bind_eq_unfinished.mp hu
      · exact parseMatcher_finishes hshort (fun ws t hv => h ws t (.here hpat hv)) hu
      · exact ih hlater (fun ws t hv => h ws t (.later hpat ⟨fuel, hd⟩ hv)) _ hu
    · rw [parseExportLines_passed hpat]
      exact ih hlater (fun ws t hv => h ws t (.passed hpat hv)) out

/-- An export list comes to the head of a loop over an `extern` block. -/
inductive ExportVisits (newPattern : Text → Option Pattern) (raw : Bytes) (ws : Bool) (t : Bytes) :
    Prop
  | inline {block : Bytes} {out : MatchRules Pattern} {u v : Bytes}
      (braces : bytes "\x7b" <+: trimAsciiStart raw)
      (start : skipCommentsAndWhitespace raw = .done ((), bytes "\x7b" ++ block))
      (reach : ExportHead newPattern block out u) (call : ExportCall u v)
      (visits : MatcherVisits newPattern false v ws t)
  | lines (braces : ¬ bytes "\x7b" <+: trimAsciiStart raw)
      (visits : LinesVisit newPattern ws t (raw.splitOn '\n'.toUInt8))

theorem exportLoop_stuck {u v : Bytes}
    (hreach : ExportHead newPattern block out u) (hcall : ExportCall u v)
    (hvisits : MatcherVisits newPattern false v ws t) (ht : Stuck newPattern ws t) (n fuel : ℕ) :
    loop (exportStep newPattern fuel) n .empty block = .unfinished := by
  refine loop_unfinished_of_reach exportStep_mono hreach (fun n fuel => ?_) n fuel
  refine loop_unfinished_of_invariant (I := fun x => x = (out, u)) ?_ n (out, u) rfl
  rintro x rfl
  left
  rw [exportStep_call hcall, parseMatcher_stuck hvisits ht]
  rfl

theorem exportList_stuck
    (h : ExportVisits newPattern raw ws t) (ht : Stuck newPattern ws t) (fuel : ℕ) :
    parse newPattern fuel raw = .unfinished := by
  cases h with
  | inline braces start reach call visits =>
    rw [parse, if_pos braces, complete_eq_unfinished, parseExportList, bind_run, start,
      done_bind, bind_run, literal_append, done_bind]
    exact exportLoop_stuck reach call visits ht fuel fuel
  | lines braces visits =>
    rw [parse, if_neg braces, parseLineExportList, parseExportLines_stuck visits ht]

theorem length_le_of_mem_splitOn {sep : UInt8} (h : line ∈ raw.splitOn sep) :
    line.length ≤ raw.length := by
  have hlines : ∀ lines : List Bytes, line ∈ lines →
      line.length ≤ ([sep].intercalate lines).length := by
    intro lines
    induction lines with
    | nil => intro hl; cases hl
    | cons l lines ih =>
      intro hl
      by_cases hne : lines = []
      · subst hne
        rw [List.mem_singleton.mp hl]
        simp [List.intercalate]
      · rw [List.intercalate_cons_of_ne_nil hne]
        simp only [List.length_append]
        rcases List.mem_cons.mp hl with rfl | hl
        · omega
        · exact Nat.le_trans (ih hl) (by omega)
  have := hlines _ h
  rwa [List.intercalate_splitOn] at this

theorem exportList_finishes (hlen : raw.length < fuel)
    (h : ∀ ws t, ExportVisits newPattern raw ws t → ¬ Stuck newPattern ws t) :
    parse newPattern fuel raw ≠ .unfinished := by
  by_cases braces : bytes "\x7b" <+: trimAsciiStart raw
  · rw [parse, if_pos braces]
    intro hu
    rw [complete_eq_unfinished] at hu
    obtain hu | ⟨_, s, hstart, hu⟩ := bind_eq_unfinished.mp hu
    · exact total_skip raw hu
    · obtain hu | ⟨_, block, hopen, hu⟩ := bind_eq_unfinished.mp hu
      · exact Total.literal _ _ s hu
      · have hs : s = bytes "\x7b" ++ block := literal_eq_done.mp hopen
        have hblock : block.length < fuel := by
          have hle : s.length ≤ raw.length := takes_skip raw _ hstart
          rw [hs, List.length_append] at hle
          omega
        refine loop_finishes (fun fuel => exportStep newPattern fuel) fuel
          (x := (.empty, block)) ?_ hblock hu
        rintro ⟨out, u⟩ hreach hle
        constructor
        · intro hstep
          obtain ⟨v, hcall, hp⟩ := exportStep_unfinished hstep
          have hshort : v.length < fuel := by
            have hv : v.length ≤ u.length := takes_skip u _ hcall.1
            exact Nat.lt_of_le_of_lt (Nat.le_trans hv hle) hblock
          refine parseMatcher_finishes hshort (fun ws t hv => h ws t ?_) hp
          exact .inline braces (hs ▸ hstart) hreach hcall hv
        · intro st' s' hstep
          exact takes_exportStep fuel out u _ hstep
  · rw [parse, if_neg braces]
    refine parseExportLines_finishes (fun line hline => ?_) (fun ws t hv => ?_) _
    · exact Nat.lt_of_le_of_lt (length_le_of_mem_splitOn hline) hlen
    · exact h ws t (.lines braces hv)

/-! ## The two parsers -/

/-- Parsing ends, with a result or with an error: some fuel is enough. -/
def Ends {α : Type} (parse : ℕ → Outcome ParseError α) : Prop := ∃ fuel, parse fuel ≠ .unfinished

/-- A round of the loop over an `extern` block takes something, or is the last. -/
def ExternRoundsTake (newPattern : Text → Option Pattern) (ws : Bool) (s : Bytes) : Prop :=
  ∀ (fuel : ℕ) (matchers matchers' : List (SymbolMatcher Pattern)) (s' : Bytes),
    externStep (parseMatcher newPattern fuel) ws matchers s = .done (.inl matchers', s') →
      s'.length < s.length

/-- Parsing ends, and each round over an `extern` block that parsing comes
to takes something or is the last. -/
def Terminates {α : Type} (newPattern : Text → Option Pattern) (parse : ℕ → Outcome ParseError α)
    (visits : Bool → Bytes → Prop) : Prop :=
  Ends parse ∧ ∀ ws t, visits ws t → ExternRoundsTake newPattern ws t

/-- Rounds over the versions, over a section and over an export list take
something or are the last, whatever the input.  A version script, and an
export list, is parsed to its end, in rounds that do the same over its
`extern` blocks, exactly if parsing comes to no stuck head of such a block. -/
theorem parse_terminates_iff (newPattern : Text → Option Pattern) (raw : Bytes) :
    (∀ (fuel : ℕ) (st st' : VersionState Pattern) (s s' : Bytes),
      versionStep newPattern fuel st s = .done (.inl st', s') → s'.length < s.length) ∧
    (∀ (fuel : ℕ) (st st' : SectionState Pattern) (s s' : Bytes),
      sectionStep newPattern fuel st s = .done (.inl st', s') → s'.length < s.length) ∧
    (∀ (fuel : ℕ) (out out' : MatchRules Pattern) (s s' : Bytes),
      exportStep newPattern fuel out s = .done (.inl out', s') → s'.length < s.length) ∧
    (Terminates newPattern (VersionScript.parse newPattern · raw) (ScriptVisits newPattern raw) ↔
      ∀ ws t, ScriptVisits newPattern raw ws t → ¬ Stuck newPattern ws t) ∧
    (Terminates newPattern (ExportList.parse newPattern · raw) (ExportVisits newPattern raw) ↔
      ∀ ws t, ExportVisits newPattern raw ws t → ¬ Stuck newPattern ws t) := by
  refine ⟨?_, ?_, ?_, ⟨?_, ?_⟩, ⟨?_, ?_⟩⟩
  · intro fuel st st' s s' h
    exact versionStep_takes h
  · intro fuel st st' s s' h
    exact takes_sectionStep fuel st s _ h
  · intro fuel out out' s s' h
    exact takes_exportStep fuel out s _ h
  · rintro ⟨⟨fuel, hends⟩, _⟩ ws t hvisits ht
    exact hends (versionScript_stuck hvisits ht fuel)
  · intro hfree
    refine ⟨⟨raw.length + 1, versionScript_finishes (Nat.lt_succ_self _) hfree⟩, ?_⟩
    intro ws t hvisits fuel matchers matchers' s' h
    exact externStep_takes h (hfree ws t hvisits)
  · rintro ⟨⟨fuel, hends⟩, _⟩ ws t hvisits ht
    exact hends (exportList_stuck hvisits ht fuel)
  · intro hfree
    refine ⟨⟨raw.length + 1, exportList_finishes (Nat.lt_succ_self _) hfree⟩, ?_⟩
    intro ws t hvisits fuel matchers matchers' s' h
    exact externStep_takes h (hfree ws t hvisits)

/-- `{ extern "C" { f` never comes to an end: the pattern `f` is read for ever. -/
theorem unclosed_extern_block_never_ends :
    ¬ Ends (VersionScript.parse (some : Text → Option Text) · (bytes "\x7bextern \"C\"\x7bf")) := by
  have hblock : skipCommentsAndWhitespace (bytes "\x7bextern \"C\"\x7bf") =
      .done ((), bytes "\x7b" ++ bytes "extern \"C\"\x7bf") := by decide +kernel
  have hcall : SectionCall (bytes "extern \"C\"\x7bf") (bytes "extern \"C\"\x7bf") :=
    ⟨by decide +kernel, by decide, by decide, by decide⟩
  have hstuck : Stuck (some : Text → Option Text) false (bytes "f") := by
    refine ⟨bytes "f", by decide +kernel, rfl, ⟨by decide, by decide, by decide⟩, by decide,
      by decide, by decide, .exact (bytes "f"), by decide +kernel⟩
  have hvisits : SectionVisits (some : Text → Option Text) (bytes "extern \"C\"\x7bf") false
      (bytes "f") := by
    refine ⟨_, _, _, Relation.ReflTransGen.refl, hcall, ?_⟩
    have hopening : externOpening (bytes "\"C\"\x7bf") = .done (false, bytes "f") := by
      decide +kernel
    exact .head hopening Relation.ReflTransGen.refl
  rintro ⟨fuel, hends⟩
  exact hends (versionScript_stuck (.single hblock hvisits) hstuck fuel)

end Sld.Script
