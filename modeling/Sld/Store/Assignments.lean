/-
# `Store.Assignments` — equations solved in one pass

A list of assignments `dest := map source` may be read as equations between
the places of a store.  One pass over the list solves the equations if every
source is settled before it is used.  A source that is assigned only later is
used with its old value, and then the equations hold exactly when the old
value is already the one that the chain of its sources gives it.
-/
import Mathlib.Data.Set.Finite.List

namespace Sld.Store

structure Assignment (ι α : Type) where
  dest : ι
  source : ι
  map : α → α

section

variable {ι α : Type} [DecidableEq ι]

def assign (env : ι → α) (a : Assignment ι α) : ι → α :=
  Function.update env a.dest (a.map (env a.source))

/-- The assignments, one after the other. -/
def assignAll (env : ι → α) (as : List (Assignment ι α)) : ι → α := as.foldl assign env

/-- The assignments hold as equations. -/
def Solves (as : List (Assignment ι α)) (env : ι → α) : Prop :=
  ∀ a ∈ as, env a.dest = a.map (env a.source)

/-- A place is the source of another. -/
def IsSource (as : List (Assignment ι α)) (i j : ι) : Prop :=
  ∃ a ∈ as, a.source = i ∧ a.dest = j

/-- The value that the chain of its sources gives to a place. -/
inductive Denotes (as : List (Assignment ι α)) (env : ι → α) : ι → α → Prop
  | free {i : ι} (h : ∀ a ∈ as, a.dest ≠ i) : Denotes as env i (env i)
  | chain {a : Assignment ι α} {v : α} (ha : a ∈ as) (h : Denotes as env a.source v) :
      Denotes as env a.dest (a.map v)

variable {as : List (Assignment ι α)} {env : ι → α}

theorem assignAll_append (env : ι → α) (as bs : List (Assignment ι α)) :
    assignAll env (as ++ bs) = assignAll (assignAll env as) bs := List.foldl_append

variable {i : ι}

theorem assignAll_of_not_dest (h : ∀ a ∈ as, a.dest ≠ i) : assignAll env as i = env i := by
  induction as generalizing env with
  | nil => rfl
  | cons a as ih =>
    show assignAll (assign env a) as i = _
    rw [ih fun b hb => h b (List.mem_cons_of_mem _ hb), assign,
      Function.update_of_ne (h a List.mem_cons_self).symm]

variable {a : Assignment ι α}

theorem assignAll_dest {before after : List (Assignment ι α)} (h : ∀ b ∈ after, b.dest ≠ a.dest) :
    assignAll env (before ++ a :: after) a.dest = a.map (assignAll env before a.source) := by
  rw [assignAll_append]
  show assignAll (assign (assignAll env before) a) after a.dest = _
  rw [assignAll_of_not_dest h, assign, Function.update_self]

theorem wellFounded_isSource (h : ∀ i, ¬ Relation.TransGen (IsSource as) i i) :
    WellFounded (IsSource as) := by
  have hfree : ∀ i, i ∉ as.map (·.dest) → Acc (IsSource as) i := by
    intro i hi
    refine Acc.intro i fun j hj => ?_
    obtain ⟨a, ha, -, rfl⟩ := hj
    exact absurd (List.mem_map_of_mem ha) hi
  let r : {i // i ∈ as.map (·.dest)} → {i // i ∈ as.map (·.dest)} → Prop :=
    fun i j => Relation.TransGen (IsSource as) i.1 j.1
  have : Std.Irrefl r := ⟨fun i hi => h i.1 hi⟩
  have hdest : ∀ i : {i // i ∈ as.map (·.dest)}, Acc (IsSource as) i.1 := by
    intro i
    induction i using (Finite.wellFounded_of_trans_of_irrefl r).induction with
    | _ i ih =>
      refine Acc.intro i.1 fun j hj => ?_
      by_cases hmem : j ∈ as.map (·.dest)
      · exact ih ⟨j, hmem⟩ (.single hj)
      · exact hfree j hmem
  refine ⟨fun i => ?_⟩
  by_cases hmem : i ∈ as.map (·.dest)
  · exact hdest ⟨i, hmem⟩
  · exact hfree i hmem

theorem exists_denotes (h : ∀ i, ¬ Relation.TransGen (IsSource as) i i) (i : ι) :
    ∃ v, Denotes as env i v := by
  induction i using (wellFounded_isSource h).induction with
  | _ i ih =>
    by_cases hdest : ∃ a ∈ as, a.dest = i
    · obtain ⟨a, ha, rfl⟩ := hdest
      obtain ⟨v, hv⟩ := ih a.source ⟨a, ha, rfl, rfl⟩
      exact ⟨a.map v, .chain ha hv⟩
    · exact ⟨env i, .free fun a ha heq => hdest ⟨a, ha, heq⟩⟩

variable {v : α}

omit [DecidableEq ι] in
/-- A store that solves the equations and agrees where nothing is assigned
holds what the chains give. -/
theorem Denotes.eq_of_solves {env' : ι → α} (hsolves : Solves as env')
    (hfree : ∀ i, (∀ a ∈ as, a.dest ≠ i) → env' i = env i)
    (h : Denotes as env i v) : env' i = v := by
  induction h with
  | free hi => exact hfree _ hi
  | chain ha _ ih => rw [hsolves _ ha, ih]

omit [DecidableEq ι] in
theorem Denotes.exists_of_dest (hnodup : (as.map (·.dest)).Nodup)
    (ha : a ∈ as) (h : Denotes as env i v) (hi : a.dest = i) :
    ∃ w, Denotes as env a.source w ∧ v = a.map w := by
  induction h with
  | free hfree => exact absurd hi (hfree a ha)
  | @chain b w hb hw _ =>
    obtain rfl := List.inj_on_of_nodup_map hnodup ha hb hi
    exact ⟨w, hw, rfl⟩

omit [DecidableEq ι] in
theorem Denotes.eq_of_free (h : Denotes as env i v) (hfree : ∀ a ∈ as, a.dest ≠ i) : env i = v := by
  cases h with
  | free _ => rfl
  | chain ha _ => exact absurd rfl (hfree _ ha)

/-- Every source that is assigned only after its use holds its value before. -/
def LateSourcesSettled (as : List (Assignment ι α)) (env : ι → α) : Prop :=
  ∀ before a after, as = before ++ a :: after → (∃ b ∈ after, b.dest = a.source) →
    ∀ v, Denotes as env a.source v → env a.source = v

section

variable (hnodup : (as.map (·.dest)).Nodup)

include hnodup

variable {a : Assignment ι α}

omit [DecidableEq ι] in
theorem dest_ne_of_mem_after {before after : List (Assignment ι α)}
    (has : as = before ++ a :: after) : ∀ b ∈ after, b.dest ≠ a.dest := by
  intro b hb heq
  rw [has, List.map_append, List.map_cons] at hnodup
  exact (List.nodup_cons.mp (List.nodup_append.mp hnodup).2.1).1 (heq ▸ List.mem_map_of_mem hb)

omit [DecidableEq ι] in
theorem dest_ne_of_mem_before {before after : List (Assignment ι α)} {b : Assignment ι α}
    (has : as = before ++ after) (hb : b ∈ after) : ∀ a ∈ before, a.dest ≠ b.dest := by
  intro a ha
  rw [has, List.map_append] at hnodup
  exact (List.nodup_append.mp hnodup).2.2 _ (List.mem_map_of_mem ha) _ (List.mem_map_of_mem hb)

theorem assignAll_source (hacyclic : ∀ i, ¬ Relation.TransGen (IsSource as) i i)
    (hlate : LateSourcesSettled as env) {before after : List (Assignment ι α)}
    (has : as = before ++ a :: after) {v : α}
    (hv : Denotes as env a.source v) : assignAll env before a.source = v := by
  -- by the number of assignments before this one
  induction hn : before.length using Nat.strongRecOn generalizing before a after v with
  | ind n ih =>
    by_cases hbefore : ∃ b ∈ before, b.dest = a.source
    · obtain ⟨b, hb, hdest⟩ := hbefore
      obtain ⟨first, second, rfl⟩ := List.append_of_mem hb
      have has' : as = first ++ b :: (second ++ a :: after) := by
        rw [has, List.append_assoc, List.cons_append]
      have hother : ∀ c ∈ second, c.dest ≠ b.dest := fun c hc =>
        dest_ne_of_mem_after hnodup has' c (List.mem_append_left _ hc)
      obtain ⟨w, hw, rfl⟩ := hv.exists_of_dest hnodup (has ▸ List.mem_append_left _ hb) hdest
      rw [← hdest, assignAll_dest hother, ih first.length (by simp [← hn]) has' hw rfl]
    · rw [assignAll_of_not_dest fun b hb heq => hbefore ⟨b, hb, heq⟩]
      by_cases hafter : ∃ b ∈ after, b.dest = a.source
      · exact hlate before a after has hafter v hv
      · refine hv.eq_of_free fun b hb heq => ?_
        rcases List.mem_append.mp (has ▸ hb) with hb | hb
        · exact hbefore ⟨b, hb, heq⟩
        · rcases List.mem_cons.mp hb with rfl | hb
          · exact hacyclic b.dest (.single ⟨b, has ▸ by simp, heq.symm, rfl⟩)
          · exact hafter ⟨b, hb, heq⟩

theorem solves_assignAll_iff (hacyclic : ∀ i, ¬ Relation.TransGen (IsSource as) i i)
    (hmap : ∀ a ∈ as, Function.Injective a.map) :
    Solves as (assignAll env as) ↔ LateSourcesSettled as env := by
  constructor
  · intro hsolves before a after has hlater v hv
    obtain ⟨b, hb, hdest⟩ := hlater
    have ha : a ∈ as := has ▸ List.mem_append_right _ List.mem_cons_self
    have hfinal := hv.eq_of_solves hsolves fun i hi => assignAll_of_not_dest hi
    have hgiven : assignAll env as a.dest = a.map (assignAll env before a.source) := by
      conv_lhs => rw [has]
      exact assignAll_dest (dest_ne_of_mem_after hnodup has)
    have hread := hmap a ha (hgiven.symm.trans (hsolves a ha))
    have hbefore : assignAll env before a.source = env a.source := by
      refine assignAll_of_not_dest fun c hc heq => ?_
      exact dest_ne_of_mem_before hnodup has (List.mem_cons_of_mem _ hb) c hc (heq.trans hdest.symm)
    rw [← hbefore, hread, hfinal]
  · intro hlate
    have hfinal : ∀ i v, Denotes as env i v → assignAll env as i = v := by
      intro i v hv
      by_cases hdest : ∃ a ∈ as, a.dest = i
      · obtain ⟨a, ha, rfl⟩ := hdest
        obtain ⟨w, hw, rfl⟩ := hv.exists_of_dest hnodup ha rfl
        obtain ⟨before, after, has⟩ := List.append_of_mem ha
        have hread := assignAll_source hnodup hacyclic hlate has hw
        rw [← hread]
        conv_lhs => rw [has]
        exact assignAll_dest (dest_ne_of_mem_after hnodup has)
      · have hfree : ∀ a ∈ as, a.dest ≠ i := fun a ha heq => hdest ⟨a, ha, heq⟩
        rw [assignAll_of_not_dest hfree]
        exact hv.eq_of_free hfree
    intro a ha
    obtain ⟨v, hv⟩ := exists_denotes hacyclic a.source
    rw [hfinal _ _ hv, hfinal _ _ (.chain ha hv)]

end

end

end Sld.Store
