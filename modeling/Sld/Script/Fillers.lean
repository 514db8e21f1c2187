/-
# `Script.Fillers` — whitespace and comments between two tokens

What stands between two tokens of a script is a sequence of blanks and of
C comments.  `skip_comments_and_whitespace` passes over all of it, and over
nothing that follows it (`skip_gap`), unless the body of a comment starts
with a slash: the parsers take `/*/` for a whole comment.
-/
import Sld.Script.Comments
import Sld.Text.EnoughFuel

namespace Sld.Script

open Text Text.Scanner
open List (cons_prefix_cons)

/-- A piece of what may stand between two tokens. -/
inductive Filler where
  | blank (b : UInt8)
  | comment (body : Bytes)

def Filler.render : Filler → Bytes
  | .blank b => [b]
  | .comment body => bytes "/*" ++ (body ++ bytes "*/")

/-- A blank is one, and a comment ends at the first `*/` after its `/*`. -/
def Filler.WellFormed : Filler → Prop
  | .blank b => isBlank b
  | .comment body => ¬ bytes "*/" <:+: body ++ bytes "*"

instance : DecidablePred Filler.WellFormed
  | .blank b => inferInstanceAs (Decidable (isBlank b))
  | .comment body => inferInstanceAs (Decidable (¬ bytes "*/" <:+: body ++ bytes "*"))

/-- The end of a comment does not start within its `/*`. -/
def Filler.Clean : Filler → Prop
  | .blank _ => True
  | .comment body => ¬ bytes "/" <+: body

def Filler.IsBlank : Filler → Prop
  | .blank _ => True
  | .comment _ => False

/-- What stands between two tokens. -/
abbrev Gap := List Filler

def Gap.render (gap : Gap) : Bytes := gap.flatMap Filler.render

def Gap.WellFormed (gap : Gap) : Prop := ∀ filler ∈ gap, filler.WellFormed

def Gap.Clean (gap : Gap) : Prop := ∀ filler ∈ gap, filler.Clean

/-! ## Passing over a gap -/

variable {b : UInt8}

theorem skip_blank (hb : isBlank b) (s : Bytes) :
    skipCommentsAndWhitespace (b :: s) = skipCommentsAndWhitespace s := by
  have hdrop : (b :: s).dropWhile isBlank = s.dropWhile isBlank := List.dropWhile_cons_of_pos hb
  have hround : skipStep () (b :: s) = skipStep () s := by
    rw [skipStep_eq, skipStep_eq, hdrop]
  have hbelow : Below (loop skipStep (s.length + 1) ()) (loop skipStep (s.length + 2) ()) :=
    loop_below (fun _ => Below.refl _) (Nat.le_succ _) ()
  have hmore : loop skipStep (s.length + 2) () s = skipCommentsAndWhitespace s :=
    (hbelow s).eq (total_skip s)
  rw [← hmore]
  show loop skipStep (s.length + 2) () (b :: s) = _
  rw [loop_succ, loop_succ, hround]

theorem skip_comment {body : Bytes} (hbody : ¬ bytes "*/" <:+: body ++ bytes "*")
    (hclean : ¬ bytes "/" <+: body) (rest : Bytes) :
    skipCommentsAndWhitespace (bytes "/*" ++ (body ++ bytes "*/") ++ rest) =
      skipCommentsAndWhitespace rest := by
  have hfree : ¬ bytes "*/" <:+: (bytes "/*" ++ body ++ bytes "*/").dropLast := by
    have hcut : (bytes "/*" ++ body ++ bytes "*/").dropLast = 47 :: 42 :: (body ++ bytes "*") := by
      rw [show bytes "*/" = bytes "*" ++ [47] from rfl, ← List.append_assoc, List.dropLast_concat]
      rfl
    rw [hcut, List.infix_cons_iff, List.infix_cons_iff]
    rintro (hp | hp | hp)
    · exact absurd (cons_prefix_cons.mp hp).1 (by decide)
    · -- the star of the `/*` and a slash after it
      have hslash : bytes "/" <+: body ++ bytes "*" := (cons_prefix_cons.mp hp).2
      cases body with
      | nil => exact absurd hslash (by decide)
      | cons b body =>
        obtain ⟨rfl, _⟩ := cons_prefix_cons.mp hslash
        exact hclean ⟨body, rfl⟩
    · exact hbody hp
  have hbefore := @before_of_not_inside (bytes "*/") _ rest hfree
  have hlong : 1 ≤ (bytes "/*" ++ body).length := by
    rw [List.length_append]
    exact Nat.le_add_right_of_le (by decide)
  have htext : bytes "/*" ++ (body ++ bytes "*/") ++ rest =
      (bytes "/*" ++ body) ++ (bytes "*/" ++ rest) := by
    simp only [List.append_assoc]
  apply skip_of_continue
  rw [htext, skipStep_eq]
  have hopen : ((bytes "/*" ++ body) ++ (bytes "*/" ++ rest)).dropWhile isBlank =
      (bytes "/*" ++ body) ++ (bytes "*/" ++ rest) :=
    List.dropWhile_cons_of_neg (by decide)
  have hline : ¬ bytes "#" <+: (bytes "/*" ++ body) ++ (bytes "*/" ++ rest) := fun hp =>
    absurd (cons_prefix_cons.mp hp).1 (by decide)
  rw [hopen, if_neg hline, if_pos ⟨body ++ (bytes "*/" ++ rest), by simp⟩,
    takeUntil_of_before hbefore hlong, Outcome.done_bind, literal_append]
  rfl

variable {gap : Gap}

theorem skip_gap (hwf : gap.WellFormed) (hclean : gap.Clean) (rest : Bytes) :
    skipCommentsAndWhitespace (gap.render ++ rest) = skipCommentsAndWhitespace rest := by
  induction gap with
  | nil => rfl
  | cons filler gap ih =>
    rw [Gap.WellFormed, List.forall_mem_cons] at hwf
    rw [Gap.Clean, List.forall_mem_cons] at hclean
    rw [Gap.render, List.flatMap_cons, List.append_assoc, ← ih hwf.2 hclean.2]
    cases filler with
    | blank b => exact skip_blank hwf.1 _
    | comment body => exact skip_comment hwf.1 hclean.1 _

theorem skip_gap_settled (hwf : gap.WellFormed) (hclean : gap.Clean) {rest : Bytes}
    (hrest : Settled rest) : skipCommentsAndWhitespace (gap.render ++ rest) = .done ((), rest) :=
  (skip_gap hwf hclean rest).trans (skip_settled hrest)

theorem blanks_of_isBlank (hwf : gap.WellFormed)
    (hblank : ∀ filler ∈ gap, filler.IsBlank) : ∀ b ∈ gap.render, isBlank b := by
  intro b hb
  obtain ⟨filler, hmem, hb⟩ := List.mem_flatMap.mp hb
  have hone := hwf filler hmem
  cases filler with
  | blank c => rwa [List.mem_singleton.mp hb]
  | comment body => exact (hblank _ hmem).elim

/-! ## Where tokens start -/

instance (s : Bytes) : Decidable (Settled s) :=
  decidable_of_iff
    (s.dropWhile isBlank = s ∧ ¬ bytes "#" <+: s ∧ ¬ bytes "/*" <+: s)
    ⟨fun h => ⟨h.1, h.2.1, h.2.2⟩, fun h => ⟨h.spaces, h.line, h.comment⟩⟩

theorem settled_cons {s : Bytes} (h : b ∉ bytes " \t\r\n#/") : Settled (b :: s) := by
  refine ⟨List.dropWhile_cons_of_neg ?_, fun hp => h ?_, fun hp => h ?_⟩
  · intro hb
    exact h (List.mem_append_left (bytes "#/") (of_decide_eq_true hb))
  · rw [← (cons_prefix_cons.mp hp).1]
    decide
  · rw [← (cons_prefix_cons.mp hp).1]
    decide

theorem Settled.append {token rest : Bytes} (h : Settled token) (hne : token ≠ [])
    (hrest : ¬ bytes "*" <+: rest) : Settled (token ++ rest) := by
  obtain ⟨b, token, rfl⟩ := List.exists_cons_of_ne_nil hne
  have hb : ¬ isBlank b := by
    intro hb
    have hspaces := h.spaces
    rw [List.dropWhile_cons_of_pos hb] at hspaces
    have hlen := congrArg List.length hspaces
    have hle := (List.dropWhile_suffix isBlank (l := token)).length_le
    rw [List.length_cons] at hlen
    omega
  refine ⟨List.dropWhile_cons_of_neg hb, fun hp => h.line ?_, fun hp => h.comment ?_⟩
  · exact cons_prefix_cons.mpr ⟨(cons_prefix_cons.mp hp).1, List.nil_prefix⟩
  · obtain ⟨hslash, hstar⟩ := cons_prefix_cons.mp hp
    refine cons_prefix_cons.mpr ⟨hslash, ?_⟩
    cases token with
    | nil => exact absurd hstar hrest
    | cons c token =>
      exact cons_prefix_cons.mpr ⟨(cons_prefix_cons.mp hstar).1, List.nil_prefix⟩

end Sld.Script
