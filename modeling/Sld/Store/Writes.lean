/-
# `Store.Writes` — writers that overwrite each other

Several writers each put one value under some keys of a table.  They run one
after the other, in an order that is not known beforehand.  Under a key the
table ends with the value of the last writer that writes the key, so the
order is visible exactly where two writers of one key have different values
and may come in either order.
-/
import Mathlib.Data.List.Basic

namespace Sld.Store

variable {τ κ ν : Type*} (writes : τ → κ → Prop) [∀ t k, Decidable (writes t k)] (value : τ → ν)

/-- One writer. -/
def overwrite (table : κ → ν) (t : τ) : κ → ν := fun k => if writes t k then value t else table k

/-- One writer after the other. -/
def overwriteAll (table : κ → ν) (ts : List τ) : κ → ν := ts.foldl (overwrite writes value) table

variable {writes} {value} {table : κ → ν} {ts pre post : List τ} {t : τ} {k : κ}

theorem overwriteAll_of_forall_not (h : ∀ t ∈ ts, ¬ writes t k) :
    overwriteAll writes value table ts k = table k := by
  induction ts generalizing table with
  | nil => rfl
  | cons t ts ih =>
    have hrest := @ih (overwrite writes value table t) fun u hu => h u (List.mem_cons_of_mem t hu)
    exact hrest.trans (if_neg (h t List.mem_cons_self))

theorem overwriteAll_of_last (ht : writes t k) (hpost : ∀ u ∈ post, ¬ writes u k) :
    overwriteAll writes value table (pre ++ t :: post) k = value t := by
  rw [overwriteAll, List.foldl_append]
  exact (overwriteAll_of_forall_not hpost).trans (if_pos ht)

omit [∀ t k, Decidable (writes t k)] in
/-- A key that somebody writes has a last writer. -/
theorem exists_last_writer (h : ∃ t ∈ ts, writes t k) :
    ∃ pre t post, ts = pre ++ t :: post ∧ writes t k ∧ ∀ u ∈ post, ¬ writes u k := by
  induction ts with
  | nil =>
    obtain ⟨t, ht, _⟩ := h
    cases ht
  | cons a ts ih =>
    by_cases hlater : ∃ t ∈ ts, writes t k
    · obtain ⟨pre, t, post, rfl, ht, hpost⟩ := ih hlater
      exact ⟨a :: pre, t, post, rfl, ht, hpost⟩
    · obtain ⟨t, ht, hwrites⟩ := h
      rcases List.mem_cons.mp ht with rfl | ht
      · exact ⟨[], t, ts, rfl, hwrites, fun u hu hw => hlater ⟨u, hu, hw⟩⟩
      · exact absurd ⟨t, ht, hwrites⟩ hlater

end Sld.Store
