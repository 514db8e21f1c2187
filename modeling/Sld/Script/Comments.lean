/-
# `Script.Comments` — what the script parsers pass over

Between any two things they look for, the parsers of scripts pass over
blanks, `#` lines and C comments.  A `#` line is left at its line feed,
which is a blank of the next round.

What was passed over is passed over for good: the input is then `Settled`,
and passing over it again takes nothing (`skip_settled`).
-/
import Mathlib.Data.List.DropRight
import Sld.Text.Scanning

namespace Sld.Script

open Text Text.Scanner

/-! ## Errors -/

/-- What the parsers report. -/
inductive ParseError where
  /-- an expected byte or token is not there -/
  | mismatch
  | unclosedComment
  | unknownParentVersion
  | invalidUtf8String
  | invalidGlobPattern
  | unexpectedExtern (language : String)
  | unsupportedExtern (language : String)
  deriving DecidableEq

abbrev Parser := Scanner ParseError

/-! ## Comments and whitespace -/

/-- One round of `skip_comments_and_whitespace`. -/
def skipStep (_ : Unit) : Parser (Unit ⊕ Unit) := do
  spaces
  let input ← get
  if bytes "#" <+: input then
    let _ ← takeUntil .mismatch 1 (bytes "\n")
    return .inl ()
  else if bytes "/*" <+: input then
    let _ ← takeUntil .unclosedComment 1 (bytes "*/")
    literal .mismatch (bytes "*/")
    return .inl ()
  else
    return .inr ()

/-- `skip_comments_and_whitespace`.  Each round but the last takes a
comment, so that there are fewer rounds than bytes. -/
def skipCommentsAndWhitespace : Parser Unit := fun s => loop skipStep (s.length + 1) () s

/-! ## Every round but the last takes a comment -/

theorem takes_skipStep (st : Unit) : Takes 0 (skipStep st) := by
  refine Takes.spaces.bind_right fun _ => Takes.get.bind_right fun input => ?_
  split
  · exact ((Takes.takeUntil _ 1 _).mono (Nat.zero_le _)).bind_right fun _ => Takes.pure _
  · split
    · refine ((Takes.takeUntil _ 1 _).mono (Nat.zero_le _)).bind_right fun _ => ?_
      exact ((Takes.literal _ _).mono (Nat.zero_le _)).bind_right fun _ => Takes.pure _
    · exact Takes.pure _

theorem total_skipStep (st : Unit) : Total (skipStep st) := by
  refine Total.spaces.bind fun _ => Total.get.bind fun input => ?_
  split
  · exact (Total.takeUntil _ _ _).bind fun _ => Total.pure _
  · split
    · refine (Total.takeUntil _ _ _).bind fun _ => ?_
      exact (Total.literal _ _).bind fun _ => Total.pure _
    · exact Total.pure _

/-- What is left once there is nothing to pass over. -/
structure Settled (s : Bytes) : Prop where
  spaces : s.dropWhile isBlank = s
  line : ¬ bytes "#" <+: s
  comment : ¬ bytes "/*" <+: s

theorem skipStep_eq (s : Bytes) : skipStep () s = if bytes "#" <+: s.dropWhile isBlank then
        (takeUntil .mismatch 1 (bytes "\n") (s.dropWhile isBlank)).bind
          fun r => .done (.inl (), r.2)
      else if bytes "/*" <+: s.dropWhile isBlank then
        (takeUntil .unclosedComment 1 (bytes "*/") (s.dropWhile isBlank)).bind
          fun r => (literal .mismatch (bytes "*/") r.2).bind fun r => .done (.inl (), r.2)
      else .done (.inr (), s.dropWhile isBlank) := by
  rw [skipStep]
  simp only [bind_run, spaces, Outcome.done_bind, get_run]
  split
  · rfl
  · split <;> rfl

variable {s : Bytes}

theorem skipStep_continue {s' : Bytes} (h : skipStep () s = .done (.inl (), s')) :
    s'.length < s.length := by
  have hspaces : (s.dropWhile isBlank).length ≤ s.length := (List.dropWhile_suffix _).length_le
  rw [skipStep_eq] at h
  split at h
  · obtain ⟨r, hr, h⟩ := Outcome.bind_eq_done.mp h
    cases h
    have := Takes.takeUntil _ 1 _ _ _ hr
    omega
  · split at h
    · obtain ⟨r, hr, h⟩ := Outcome.bind_eq_done.mp h
      obtain ⟨r', hr', h⟩ := Outcome.bind_eq_done.mp h
      cases h
      have htake := Takes.takeUntil _ 1 _ _ _ hr
      have hclose := Takes.literal _ _ _ _ hr'
      omega
    · cases h

theorem skipStep_return {s' : Bytes} (h : skipStep () s = .done (.inr (), s')) :
    Settled s' := by
  rw [skipStep_eq] at h
  split at h
  · obtain ⟨r, hr, h⟩ := Outcome.bind_eq_done.mp h
    cases h
  · rename_i hline
    split at h
    · obtain ⟨r, hr, h⟩ := Outcome.bind_eq_done.mp h
      obtain ⟨r', hr', h⟩ := Outcome.bind_eq_done.mp h
      cases h
    · rename_i hcomment
      cases h
      exact ⟨List.dropWhile_idempotent _ _, hline, hcomment⟩

theorem total_skip : Total skipCommentsAndWhitespace := by
  intro s
  refine loop_finishes (fun _ => skipStep) 0 (x := ((), s)) ?_ (Nat.lt_succ_self _)
  intro y _ _
  refine ⟨total_skipStep _ _, ?_⟩
  intro st' s' h
  exact skipStep_continue h

theorem takes_skip : Takes 0 skipCommentsAndWhitespace := fun s r h =>
  Takes.loop takes_skipStep _ () s r h

theorem settled_of_skip {r : Unit × Bytes}
    (h : skipCommentsAndWhitespace s = .done r) : Settled r.2 := by
  obtain ⟨y, _, hlast⟩ := loop_eq_done h
  exact skipStep_return hlast

theorem skip_settled (h : Settled s) : skipCommentsAndWhitespace s = .done ((), s) := by
  apply loop_of_return
  rw [skipStep_eq, h.spaces, if_neg h.line, if_neg h.comment]

theorem skip_of_continue {s' : Bytes} (h : skipStep () s = .done (.inl (), s')) :
    skipCommentsAndWhitespace s = skipCommentsAndWhitespace s' := by
  have hfin : ∀ n, s'.length < n → loop skipStep n () s' = skipCommentsAndWhitespace s' := by
    intro n hn
    have hbelow : Below (loop skipStep (s'.length + 1) ()) (loop skipStep n ()) :=
      loop_below (fun _ => Below.refl _) hn ()
    exact (hbelow s').eq (total_skip s')
  have hlt := skipStep_continue h
  rw [skipCommentsAndWhitespace, loop_of_continue h]
  exact hfin s.length hlt

end Sld.Script
