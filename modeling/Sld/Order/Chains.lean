/-
# `Order.Chains` — buckets of chained numbers

Each bucket has a head, each number a successor, and zero ends a chain.  A
new number goes to the end of the chain of its bucket, which is where the
last number of the bucket is remembered for.

`exists_insertAll` is the run lemma: numbers that are new and not zero are
always inserted, and each bucket then chains its numbers in their order.
-/
import Mathlib.Data.List.Basic

namespace Sld.Chains

open Function (forall_update_iff update update_of_ne update_self)
open List (mem_cons_of_mem mem_cons_self mem_map mem_singleton)

universe u

/-- The chain from `start` runs through the numbers of a list and ends. -/
def Linked (next : ℕ → ℕ) : ℕ → List ℕ → Prop
  | start, [] => start = 0
  | start, x :: rest => start = x ∧ x ≠ 0 ∧ Linked next (next x) rest

variable {l : List ℕ} {start : ℕ}

theorem Linked.congr {next next' : ℕ → ℕ} (h : Linked next start l)
    (hnext : ∀ x ∈ l, next' x = next x) : Linked next' start l := by
  induction l generalizing start with
  | nil => exact h
  | cons x rest ih =>
    obtain ⟨rfl, hx, hrest⟩ := h
    refine ⟨rfl, hx, ?_⟩
    rw [hnext start mem_cons_self]
    exact ih hrest fun y hy => hnext y (mem_cons_of_mem _ hy)

theorem Linked.concat {next next' : ℕ → ℕ} {last x : ℕ}
    (h : Linked next start (l ++ [last])) (hlast : last ∉ l) (hx : x ≠ 0)
    (hset : next' last = x) (hkeep : ∀ y, y ≠ last → next' y = next y) (hend : next' x = 0) :
    Linked next' start (l ++ [last] ++ [x]) := by
  induction l generalizing start with
  | nil =>
    obtain ⟨rfl, hstart, -⟩ := h
    exact ⟨rfl, hstart, hset, hx, hend⟩
  | cons y rest ih =>
    obtain ⟨rfl, hy, hrest⟩ := h
    have hne : start ≠ last := fun heq => hlast (heq ▸ mem_cons_self)
    refine ⟨rfl, hy, ?_⟩
    rw [hkeep start hne]
    exact ih hrest fun hmem => hlast (mem_cons_of_mem _ hmem)

theorem Linked.eq_zero_iff {next : ℕ → ℕ} (h : Linked next start l) : start = 0 ↔ l = [] := by
  cases l with
  | nil => exact ⟨fun _ => rfl, fun _ => h⟩
  | cons x rest =>
    obtain ⟨rfl, hx, -⟩ := h
    exact ⟨fun h0 => absurd h0 hx, nofun⟩

/-! ## The table -/

structure Table (ι : Type u) where
  head : ι → ℕ
  next : ℕ → ℕ
  last : ι → Option ℕ

variable {ι : Type u}

namespace Table

def empty : Table ι := ⟨fun _ => 0, fun _ => 0, fun _ => none⟩

/-- The members of the buckets are what has been put into them. -/
structure Holds (t : Table ι) (members : ι → List ℕ) : Prop where
  linked : ∀ b, Linked t.next (t.head b) (members b)
  last_eq : ∀ b, t.last b = (members b).getLast?
  nodup : ∀ b, (members b).Nodup
  disjoint : ∀ b b', b ≠ b' → (members b).Disjoint (members b')
  next_eq_zero : ∀ x, (∀ b, x ∉ members b) → t.next x = 0
  last_next : ∀ b x, (members b).getLast? = some x → t.next x = 0

theorem holds_empty : (empty : Table ι).Holds fun _ => [] where
  linked _ := rfl
  last_eq _ := rfl
  nodup _ := List.nodup_nil
  disjoint _ _ _ := List.disjoint_nil_left _
  next_eq_zero _ _ := rfl
  last_next _ _ _ := rfl

variable [DecidableEq ι]

/-- There is no result if the last number of a bucket in use is not known. -/
def insert (t : Table ι) (b : ι) (x : ℕ) : Option (Table ι) :=
  if t.head b = 0 then
    some { t with head := Function.update t.head b x, last := Function.update t.last b (some x) }
  else
    (t.last b).map fun last =>
      { t with next := Function.update t.next last x, last := Function.update t.last b (some x) }

variable {t : Table ι} {members : ι → List ℕ} {b : ι} {x : ℕ}

theorem mem_update {b' : ι} {y : ℕ} :
    y ∈ update members b (members b ++ [x]) b' ↔ y ∈ members b' ∨ (y = x ∧ b' = b) := by
  by_cases hb : b' = b
  · rw [hb, update_self, List.mem_append, mem_singleton, and_iff_left rfl]
  · rw [update_of_ne hb, or_iff_left fun h => hb h.2]

theorem nodup_update (h : t.Holds members) (hnew : ∀ b, x ∉ members b) (b' : ι) :
    (update members b (members b ++ [x]) b').Nodup := by
  refine (forall_update_iff members fun _ ys => ys.Nodup).mpr ⟨?_, fun b' _ => h.nodup b'⟩ b'
  refine List.nodup_append.mpr ⟨h.nodup b, by simp, ?_⟩
  rintro y hy z hz rfl
  exact hnew b (mem_singleton.mp hz ▸ hy)

theorem disjoint_update (h : t.Holds members) (hnew : ∀ b, x ∉ members b) {b₁ b₂ : ι}
    (hne : b₁ ≠ b₂) :
    (update members b (members b ++ [x]) b₁).Disjoint
      (update members b (members b ++ [x]) b₂) := by
  intro y hy₁ hy₂
  rcases mem_update.mp hy₁ with h₁ | ⟨rfl, rfl⟩
  · rcases mem_update.mp hy₂ with h₂ | ⟨rfl, -⟩
    · exact h.disjoint b₁ b₂ hne h₁ h₂
    · exact hnew b₁ h₁
  · rcases mem_update.mp hy₂ with h₂ | ⟨-, rfl⟩
    · exact hnew b₂ h₂
    · exact hne rfl

theorem notMem_of_notMem_update {y : ℕ}
    (hy : ∀ b', y ∉ update members b (members b ++ [x]) b') (b' : ι) : y ∉ members b' :=
  fun hmem => hy b' (mem_update.mpr (.inl hmem))

theorem last_eq_update (h : t.Holds members) (b' : ι) : update t.last b (some x) b'
      = (update members b (members b ++ [x]) b').getLast? := by
  by_cases hb : b' = b
  · subst hb
    rw [update_self, update_self, List.getLast?_append]
    rfl
  · rw [update_of_ne hb, update_of_ne hb]
    exact h.last_eq b'

theorem holds_insert_first (h : t.Holds members) (hx : x ≠ 0) (hnew : ∀ b, x ∉ members b)
    (hempty : members b = []) :
    Holds ⟨update t.head b x, t.next, update t.last b (some x)⟩
      (update members b (members b ++ [x])) where
  linked b' := by
    show Linked t.next (update t.head b x b') _
    by_cases hb : b' = b
    · subst hb
      rw [update_self, update_self, hempty]
      exact ⟨rfl, hx, h.next_eq_zero x hnew⟩
    · rw [update_of_ne hb, update_of_ne hb]
      exact h.linked b'
  last_eq := last_eq_update h
  nodup := nodup_update h hnew
  disjoint _ _ := disjoint_update h hnew
  next_eq_zero y hy := h.next_eq_zero y (notMem_of_notMem_update hy)
  last_next b' y hy := by
    by_cases hb : b' = b
    · subst hb
      rw [update_self, hempty] at hy
      obtain rfl : x = y := Option.some.inj hy
      exact h.next_eq_zero x hnew
    · rw [update_of_ne hb] at hy
      exact h.last_next b' y hy

theorem holds_insert_next (h : t.Holds members) (hx : x ≠ 0) (hnew : ∀ b, x ∉ members b)
    {before : List ℕ} {last : ℕ} (hmembers : members b = before ++ [last]) :
    Holds ⟨t.head, update t.next last x, update t.last b (some x)⟩
      (update members b (members b ++ [x])) := by
  have hlast : last ∈ members b := hmembers ▸ List.mem_append_right _ mem_cons_self
  have hne : x ≠ last := fun heq => hnew b (heq ▸ hlast)
  have hend : update t.next last x x = 0 := by
    rw [update_of_ne hne]
    exact h.next_eq_zero x hnew
  have hother : ∀ b' ≠ b, ∀ y ∈ members b', y ≠ last := by
    rintro b' hb y hy rfl
    exact h.disjoint b' b hb hy hlast
  refine ⟨?_, last_eq_update h, nodup_update h hnew, fun _ _ => disjoint_update h hnew, ?_, ?_⟩
  · intro b'
    by_cases hb : b' = b
    · subst hb
      rw [update_self, hmembers]
      have hlinked := h.linked b'
      have hnodup := h.nodup b'
      rw [hmembers] at hlinked hnodup
      have hnotMem : last ∉ before := fun hmem =>
        (List.nodup_append.mp hnodup).2.2 last hmem last mem_cons_self rfl
      exact hlinked.concat hnotMem hx (update_self ..) (fun y hy => update_of_ne hy _ _) hend
    · rw [update_of_ne hb]
      exact (h.linked b').congr fun y hy => update_of_ne (hother b' hb y hy) _ _
  · intro y hy
    have hold := notMem_of_notMem_update hy
    have hyne : y ≠ last := by
      rintro rfl
      exact hold b hlast
    show update t.next last x y = 0
    rw [update_of_ne hyne]
    exact h.next_eq_zero y hold
  · intro b' y hy
    show update t.next last x y = 0
    by_cases hb : b' = b
    · subst hb
      rw [update_self, List.getLast?_append] at hy
      obtain rfl : x = y := Option.some.inj hy
      exact hend
    · rw [update_of_ne hb] at hy
      rw [update_of_ne (hother b' hb y (List.mem_of_getLast? hy))]
      exact h.last_next b' y hy

theorem Holds.exists_insert (h : t.Holds members) (b : ι) (hx : x ≠ 0) (hnew : ∀ b, x ∉ members b) :
    ∃ t', t.insert b x = some t' ∧ t'.Holds (update members b (members b ++ [x])) := by
  rcases List.eq_nil_or_concat (members b) with hempty | ⟨before, last, hmembers⟩
  · have hhead : t.head b = 0 := (h.linked b).eq_zero_iff.mpr hempty
    exact ⟨_, if_pos hhead, holds_insert_first h hx hnew hempty⟩
  · rw [List.concat_eq_append] at hmembers
    have hhead : t.head b ≠ 0 := fun h0 => by
      have hnil := (h.linked b).eq_zero_iff.mp h0
      rw [hmembers] at hnil
      exact absurd hnil (by simp)
    have hlast : t.last b = some last := by
      rw [h.last_eq, hmembers, List.getLast?_append]
      rfl
    refine ⟨_, ?_, holds_insert_next h hx hnew hmembers⟩
    rw [insert, if_neg hhead, hlast]
    rfl

/-! ## Runs -/

def insertAll : Table ι → List (ι × ℕ) → Option (Table ι)
  | t, [] => some t
  | t, (b, x) :: rest => (t.insert b x).bind fun t' => insertAll t' rest

/-- The numbers of one bucket, in their order. -/
def membersOf (items : List (ι × ℕ)) (b : ι) : List ℕ :=
  (items.filter fun item => item.1 = b).map (·.2)

theorem membersOf_cons (item : ι × ℕ) (items : List (ι × ℕ)) (b : ι) : membersOf (item :: items) b
      = if item.1 = b then item.2 :: membersOf items b else membersOf items b := by
  unfold membersOf
  by_cases h : item.1 = b
  · rw [List.filter_cons_of_pos (by simpa using h), List.map_cons, if_pos h]
  · rw [List.filter_cons_of_neg (by simpa using h), if_neg h]

theorem mem_membersOf {items : List (ι × ℕ)} {b : ι} {x : ℕ} :
    x ∈ membersOf items b ↔ (b, x) ∈ items := by
  unfold membersOf
  rw [mem_map]
  constructor
  · rintro ⟨item, hitem, rfl⟩
    obtain ⟨hmem, hb⟩ := List.mem_filter.mp hitem
    obtain rfl : item.1 = b := by simpa using hb
    exact hmem
  · intro hmem
    exact ⟨(b, x), List.mem_filter.mpr ⟨hmem, by simp⟩, rfl⟩

theorem length_membersOf_le (items : List (ι × ℕ)) (b : ι) :
    (membersOf items b).length ≤ items.length := by
  rw [membersOf, List.length_map]
  exact List.length_filter_le _ _

theorem Holds.exists_insertAll (h : t.Holds members) (items : List (ι × ℕ))
    (hnodup : (items.map (·.2)).Nodup) (hzero : ∀ item ∈ items, item.2 ≠ 0)
    (hnew : ∀ item ∈ items, ∀ b, item.2 ∉ members b) :
    ∃ t', t.insertAll items = some t' ∧ t'.Holds fun b => members b ++ membersOf items b := by
  induction items generalizing t members with
  | nil =>
    refine ⟨t, rfl, ?_⟩
    have hmembers : (fun b => members b ++ membersOf ([] : List (ι × ℕ)) b) = members :=
      funext fun b => List.append_nil _
    rw [hmembers]
    exact h
  | cons item items ih =>
    obtain ⟨b, x⟩ := item
    obtain ⟨hx, hnodup⟩ := List.nodup_cons.mp hnodup
    obtain ⟨t₁, ht₁, hholds⟩ := h.exists_insert b (hzero (b, x) mem_cons_self)
      (hnew (b, x) mem_cons_self)
    have hnew₁ : ∀ item ∈ items, ∀ b', item.2 ∉ update members b (members b ++ [x]) b' := by
      intro item hitem b' hmem
      rcases mem_update.mp hmem with hmem | ⟨heq, -⟩
      · exact hnew item (mem_cons_of_mem _ hitem) b' hmem
      · exact hx (mem_map.mpr ⟨item, hitem, heq⟩)
    obtain ⟨t₂, ht₂, hholds₂⟩ := ih hholds hnodup
      (fun item hitem => hzero item (mem_cons_of_mem _ hitem)) hnew₁
    refine ⟨t₂, ?_, ?_⟩
    · rw [insertAll, ht₁]
      exact ht₂
    · have hmembers : (fun b' => update members b (members b ++ [x]) b'
            ++ membersOf items b')
          = fun b' => members b' ++ membersOf ((b, x) :: items) b' := by
        funext b'
        rw [membersOf_cons]
        by_cases hb : b' = b
        · subst hb
          rw [update_self, if_pos rfl, List.append_assoc]
          rfl
        · rw [update_of_ne hb, if_neg fun heq => hb heq.symm]
      rw [hmembers] at hholds₂
      exact hholds₂

end Table

end Sld.Chains
