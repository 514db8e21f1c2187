/-
# `Script.GlobAgreement` — where the glob library reads a pattern as the shell does

A pattern with a wildcard is compiled by the glob library, which negates a
class by `!` only and knows no escapes.  Before, `[^` is replaced by `[!`,
wherever it stands.

Both sides read a pattern from left to right, so the proof is by induction
on what is left of it; a class is read as a whole.
-/
import Sld.Script.GlobPatterns
import Sld.Text.Wildcards

namespace Sld.Script

open Text
open List (cons_append length_cons map_cons mem_cons mem_cons_of_mem)

/-! ## Patterns that both sides read alike -/

/-- A class without escapes, and without `[^` among its members. -/
def plainMembers (members : List Symbol) : Bool :=
  members.all (fun s => s = .plain s.value) && !decide ([.plain '[', .plain '^'] <:+: members)

/-- A pattern without escapes, in which `[^` only opens classes and no `**/` is left outside of
them. -/
def readsAlikeFrom : ℕ → List Symbol → Bool
  | 0, _ => true
  | _, [] => true
  | n + 1, s :: rest =>
    if s = .plain '[' then
      match charClass ['!', '^'] rest with
      | some (_, members, rest) => plainMembers members && readsAlikeFrom n rest
      | none => readsAlikeFrom n rest
    else if [.plain '*', .plain '*', .plain '/'] <+: s :: rest then false
    else decide (s = .plain s.value) && readsAlikeFrom n rest

def readsAlike (pattern : Text) : Bool := readsAlikeFrom pattern.length (symbols pattern)

/-! ## The replacement of `[^` -/

theorem negateClasses_cons {c : Char} (h : c ≠ '[') (t : Text) :
    negateClasses (c :: t) = c :: negateClasses t := by
  cases t with
  | nil => rfl
  | cons d t => rw [negateClasses, if_neg fun hc => h hc.1]

theorem negateClasses_caret (t : Text) :
    negateClasses ('[' :: '^' :: t) = '[' :: '!' :: negateClasses t := by
  rw [negateClasses, if_pos ⟨rfl, rfl⟩]

variable {t : Text}

theorem negateClasses_open (h : t.head? ≠ some '^') :
    negateClasses ('[' :: t) = '[' :: negateClasses t := by
  cases t with
  | nil => rfl
  | cons d t => rw [negateClasses, if_neg fun hc => h (congrArg some hc.2)]

theorem length_negateClasses (t : Text) : (negateClasses t).length = t.length := by
  fun_induction negateClasses t <;> simp only [length_cons, List.length_nil] at * <;> omega

theorem negateClasses_shape (c : Char) (t : Text) :
    ∃ u, negateClasses (c :: t) = c :: u ∧ (']' ∈ u → ']' ∈ t) := by
  have hmem (t : Text) : ']' ∈ negateClasses t → ']' ∈ t := by
    fun_induction negateClasses t with
    | case1 => exact id
    | case2 => exact id
    | case3 c next it hopen ih =>
      intro h
      rcases mem_cons.mp h with h | h
      · cases h
      · rcases mem_cons.mp h with h | h
        · cases h
        · exact mem_cons_of_mem _ (mem_cons_of_mem _ (ih h))
    | case4 c next it _ ih =>
      intro h
      rcases mem_cons.mp h with rfl | h
      · exact List.mem_cons_self
      · exact mem_cons_of_mem _ (ih h)
  by_cases hc : c = '['
  · subst hc
    by_cases ht : t.head? = some '^'
    · obtain ⟨t, rfl⟩ : ∃ u, t = '^' :: u := ⟨t.tail, (List.cons_head?_tail ht).symm⟩
      refine ⟨_, negateClasses_caret t, fun h => ?_⟩
      rcases mem_cons.mp h with h | h
      · cases h
      · exact mem_cons_of_mem _ (hmem t h)
    · exact ⟨_, negateClasses_open ht, hmem t⟩
  · exact ⟨_, negateClasses_cons hc t, hmem t⟩

theorem negateClasses_members {b : Text} (h : ¬['[', '^'] <:+: b) (r : Text) :
    negateClasses (b ++ ']' :: r) = b ++ ']' :: negateClasses r := by
  induction b with
  | nil => exact negateClasses_cons (by decide) r
  | cons c b ih =>
    have hb := ih fun hb => h (hb.trans (List.suffix_cons c b).isInfix)
    by_cases hc : c = '['
    · subst hc
      have hhead : (b ++ ']' :: r).head? ≠ some '^' := by
        cases b with
        | nil => exact (by decide : some ']' ≠ some '^')
        | cons d b =>
          intro hd
          injection hd with hd
          subst hd
          exact h ⟨[], b, rfl⟩
      rw [cons_append, negateClasses_open hhead, hb, cons_append]
    · rw [cons_append, negateClasses_cons hc, hb, cons_append]

variable {u : Text}

theorem classBody_negateClasses {members rest : List Symbol}
    (h : classBody (u.map .plain) = some (members, rest)) (hmembers : plainMembers members) :
    ∃ r : Text, rest = r.map .plain ∧ r.length < u.length ∧
      classBody ((negateClasses u).map .plain) = some (members, (negateClasses r).map .plain) := by
  cases u with
  | nil => cases h
  | cons c v =>
    by_cases hv : ']' ∈ v
    · obtain ⟨b, r, rfl, hb⟩ := List.eq_append_cons_of_mem hv
      rw [map_cons, classBody, splitAtClose_map hb] at h
      cases h
      have hin : ¬['[', '^'] <:+: c :: b := by
        intro hin
        rw [plainMembers, Bool.and_eq_true] at hmembers
        have hnot := of_decide_eq_false ((Bool.not_eq_true' _).mp hmembers.2)
        exact hnot (hin.map Symbol.plain)
      refine ⟨r, rfl, ?_, ?_⟩
      · rw [length_cons, List.length_append, length_cons]
        omega
      · rw [← cons_append, negateClasses_members hin, cons_append, map_cons,
          classBody, splitAtClose_map hb]
        rfl
    · rw [map_cons, classBody, splitAtClose_eq_none hv] at h
      cases h

theorem classBody_negateClasses_none (h : classBody (u.map .plain) = none) :
    classBody ((negateClasses u).map .plain) = none := by
  cases u with
  | nil => rfl
  | cons c v =>
    have hv : ']' ∉ v := by
      intro hv
      obtain ⟨b, r, rfl, hb⟩ := List.eq_append_cons_of_mem hv
      rw [map_cons, classBody, splitAtClose_map hb] at h
      cases h
    obtain ⟨w, hw, hmem⟩ := negateClasses_shape c v
    rw [hw, map_cons, classBody, splitAtClose_eq_none fun h => hv (hmem h)]
    rfl

theorem charClass_negateClasses (u : Text) :
    ∃ (v w : Text) (negated : Bool), negateClasses ('[' :: u) = '[' :: v ∧ w.length ≤ u.length ∧
      charClass ['!', '^'] (u.map .plain) = (classBody (w.map .plain)).map (negated, ·) ∧
      charClass ['!'] (v.map .plain) =
        (classBody ((negateClasses w).map .plain)).map (negated, ·) := by
  cases u with
  | nil => exact ⟨[], [], false, rfl, Nat.le_refl 0, rfl, rfl⟩
  | cons c u =>
    by_cases hcaret : c = '^'
    · subst hcaret
      exact ⟨_, u, true, negateClasses_caret u, Nat.le_succ _, rfl, rfl⟩
    · by_cases hmark : c = '!'
      · subst hmark
        refine ⟨'!' :: negateClasses u, u, true, ?_, Nat.le_succ _, rfl, rfl⟩
        rw [negateClasses_open (t := '!' :: u) (by decide : some '!' ≠ some '^'),
          negateClasses_cons (by decide)]
      · have hplain {negations : List Char} (h : ∀ d ∈ negations, c ≠ d) :
            Symbol.plain c ∉ negations.map Symbol.plain := by
          intro hmem
          obtain ⟨d, hd, heq⟩ := List.mem_map.mp hmem
          injection heq with heq
          exact h d hd heq.symm
        have hboth : ∀ d ∈ ['!', '^'], c ≠ d := by
          intro d hd
          rcases mem_cons.mp hd with rfl | hd
          · exact hmark
          · exact List.mem_singleton.mp hd ▸ hcaret
        have hone : ∀ d ∈ ['!'], c ≠ d := fun d hd => List.mem_singleton.mp hd ▸ hmark
        have hhead : (c :: u).head? ≠ some '^' := fun h => hcaret (Option.some.inj h)
        obtain ⟨w, hw, _⟩ := negateClasses_shape c u
        refine ⟨negateClasses (c :: u), c :: u, false, negateClasses_open hhead,
          Nat.le_refl _, ?_, ?_⟩
        · rw [map_cons, charClass, if_neg (hplain hboth)]
        · rw [hw, map_cons, charClass, if_neg (hplain hone)]

/-! ## Agreement of the two syntaxes -/

variable {tokens : List Token}

theorem matches_eq_of_readsAlikeFrom {n : ℕ} (hn : t.length ≤ n)
    (h : readsAlikeFrom n (t.map .plain)) {previous : Option Char}
    (htokens : pathTokensOf n previous ((negateClasses t).map .plain) = some tokens) :
    matchesTokens tokens = matchesTokens (shellTokensOf n (t.map .plain)) := by
  induction n generalizing t previous tokens with
  | zero =>
    rw [List.length_eq_zero_iff.mp (Nat.le_zero.mp hn)] at htokens ⊢
    cases htokens
    rfl
  | succ n ih =>
    cases t with
    | nil =>
      cases htokens
      rfl
    | cons c u =>
      have hu : u.length ≤ n := Nat.le_of_succ_le_succ hn
      by_cases hopen : c = '['
      · subst hopen
        obtain ⟨v, w, negated, hnegate, hlen, hshell, hpath⟩ := charClass_negateClasses u
        rw [map_cons, readsAlikeFrom, hshell] at h
        rw [hnegate, map_cons, pathTokensOf, if_neg (by decide), if_neg (by decide),
          if_pos rfl, hpath] at htokens
        rw [map_cons, shellTokensOf, if_neg (by decide), if_neg (by decide), if_pos rfl,
          hshell]
        cases hbody : classBody (w.map .plain) with
        | none =>
          rw [classBody_negateClasses_none hbody] at htokens
          cases htokens
        | some found =>
          obtain ⟨members, rest⟩ := found
          rw [hbody] at h
          obtain ⟨hmembers, hrest⟩ := Bool.and_eq_true_iff.mp h
          obtain ⟨r, rfl, hr, hafter⟩ := classBody_negateClasses hbody hmembers
          rw [hafter] at htokens
          obtain ⟨tail, htail, rfl⟩ := Option.map_eq_some_iff.mp htokens
          show (classToken negated members).followedBy (matchesTokens tail) = _
          rw [ih (by omega) hrest htail]
          rfl
      · have hplain : Symbol.plain c ≠ .plain '[' := fun heq => hopen (Symbol.plain.inj heq)
        rw [map_cons, readsAlikeFrom, if_neg hplain] at h
        rw [negateClasses_cons hopen, map_cons, pathTokensOf] at htokens
        rw [map_cons, shellTokensOf]
        split at h
        · cases h
        rename_i hrecursive
        have hrest : readsAlikeFrom n (u.map .plain) := (Bool.and_eq_true_iff.mp h).2
        by_cases hany : c = '?'
        · subst hany
          rw [if_neg (by decide), if_pos rfl]
          obtain ⟨tail, htail, rfl⟩ := Option.map_eq_some_iff.mp htokens
          rw [matchesTokens_cons, matchesTokens_cons, ih hu hrest htail]
        rw [if_neg fun heq => hany (Symbol.plain.inj heq)] at htokens
        by_cases hstar : c = '*'
        · subst hstar
          rw [if_pos rfl] at htokens ⊢
          by_cases hsecond : u.head? = some '*'
          · obtain ⟨v, rfl⟩ : ∃ v, u = '*' :: v := ⟨u.tail, (List.cons_head?_tail hsecond).symm⟩
            rw [negateClasses_cons (by decide), map_cons, List.head?_cons, if_pos rfl,
              List.tail_cons] at htokens
            split at htokens
            swap
            · cases htokens
            cases v with
            | nil =>
              -- `**` at the end of the pattern
              cases htokens
              cases n with
              | zero => exact absurd hu (by simp)
              | succ n =>
                cases n <;> funext name <;> exact (matchesTokens_recursive name).trans
                    (matchesTokens_star_star name).symm
            | cons d w =>
              obtain ⟨x, hx, _⟩ := negateClasses_shape d w
              rw [hx, map_cons, recursiveTokens] at htokens
              split at htokens
              · rename_i hslash
                cases hslash
                exact absurd ⟨w.map .plain, rfl⟩ hrecursive
              · cases htokens
          · have hhead : ((negateClasses u).map Symbol.plain).head? ≠ some (.plain '*') := by
              cases u with
              | nil => exact (by decide : none ≠ some (Symbol.plain '*'))
              | cons d w =>
                obtain ⟨x, hx, _⟩ := negateClasses_shape d w
                rw [hx]
                intro heq
                injection heq with heq
                injection heq with heq
                exact hsecond (congrArg some heq)
            rw [if_neg hhead] at htokens
            obtain ⟨tail, htail, rfl⟩ := Option.map_eq_some_iff.mp htokens
            rw [matchesTokens_cons, matchesTokens_cons, ih hu hrest htail]
        · rw [if_neg fun heq => hstar (Symbol.plain.inj heq), if_neg hplain] at htokens
          rw [if_neg fun heq => hstar (Symbol.plain.inj heq),
            if_neg fun heq => hany (Symbol.plain.inj heq), if_neg hplain]
          obtain ⟨tail, htail, rfl⟩ := Option.map_eq_some_iff.mp htokens
          rw [matchesTokens_cons, matchesTokens_cons, ih hu hrest htail]

theorem plain_of_readsAlikeFrom {n : ℕ} {ss : List Symbol} (hn : ss.length ≤ n)
    (h : readsAlikeFrom n ss) : ∀ s ∈ ss, ∃ c, s = .plain c := by
  induction n generalizing ss with
  | zero =>
    rw [List.length_eq_zero_iff.mp (Nat.le_zero.mp hn)]
    exact nofun
  | succ n ih =>
    cases ss with
    | nil => exact nofun
    | cons s rest =>
      have hlen : rest.length ≤ n := Nat.le_of_succ_le_succ hn
      rw [readsAlikeFrom] at h
      split at h
      · rename_i hopen
        subst hopen
        split at h
        · rename_i negated members after hclass
          obtain ⟨hmembers, hafter⟩ := Bool.and_eq_true_iff.mp h
          have hall : ∀ s ∈ members, ∃ c, s = .plain c := by
            intro s hs
            have hs' := List.all_eq_true.mp (Bool.and_eq_true_iff.mp hmembers).1 s hs
            exact ⟨s.value, of_decide_eq_true hs'⟩
          have hclosed : ∀ s ∈ members ++ .plain ']' :: after, ∃ c, s = .plain c := by
            intro s hs
            rcases List.mem_append.mp hs with hs | hs
            · exact hall s hs
            · rcases mem_cons.mp hs with rfl | hs
              · exact ⟨']', rfl⟩
              · refine ih ?_ hafter s hs
                rcases charClass_eq_some hclass with heq | ⟨_, _, heq⟩ <;> rw [heq] at hlen <;>
                  simp only [List.length_append, length_cons] at hlen <;> omega
          intro s hs
          rcases mem_cons.mp hs with rfl | hs
          · exact ⟨'[', rfl⟩
          · rcases charClass_eq_some hclass with heq | ⟨c, _, heq⟩
            · exact hclosed s (heq ▸ hs)
            · rw [heq] at hs
              rcases mem_cons.mp hs with rfl | hs
              · exact ⟨c, rfl⟩
              · exact hclosed s hs
        · intro s hs
          rcases mem_cons.mp hs with rfl | hs
          · exact ⟨'[', rfl⟩
          · exact ih hlen h s hs
      · split at h
        · cases h
        · obtain ⟨hs, hrest⟩ := Bool.and_eq_true_iff.mp h
          intro t ht
          rcases mem_cons.mp ht with rfl | ht
          · exact ⟨t.value, of_decide_eq_true hs⟩
          · exact ih hlen hrest t ht

theorem matches_eq_of_readsAlike (h : readsAlike t)
    (htokens : pathTokens (negateClasses t) = some tokens) :
    matchesTokens tokens = matchesTokens (shellTokens t) := by
  have hsyms : symbols t = t.map .plain :=
    symbols_eq_map (plain_of_readsAlikeFrom (length_symbols_le t) h)
  rw [readsAlike, hsyms] at h
  rw [pathTokens, length_negateClasses] at htokens
  rw [shellTokens, hsyms]
  exact matches_eq_of_readsAlikeFrom (Nat.le_refl _) h htokens

end Sld.Script
