/-
# `Store.Patches` — patching a file in place

A patch owns a range of a file and rewrites what the range holds.  Patches
are applied one after the other.  If their ranges are disjoint, each finds
its range as it was before the first, so the order does not matter
(`applyAll_perm`) and the file ends with what every patch makes of the
original (`applyAll_window`).  Patches that all write what some target holds
lead to it, disjoint or not (`applyAll_eq_target`).  A position that no patch alters keeps its
value, also when a patch fails and the others are not reached
(`run_getElem?`).
-/
import Mathlib.Data.List.Perm.Basic
import Mathlib.Order.Basic

namespace Sld.Store

open List (append_assoc ext_getElem? length_take)

variable {α ε : Type*}

/-- What a file holds in a range. -/
def window (file : List α) (start size : Nat) : List α := (file.drop start).take size

/-- The file with other contents from a position on. -/
def splice (file : List α) (start : Nat) (new : List α) : List α :=
  file.take start ++ new ++ file.drop (start + new.length)

section

variable {file other new : List α} {start size i : Nat}

theorem length_window (h : start + size ≤ file.length) : (window file start size).length = size := by
  rw [window, length_take, List.length_drop]
  omega

theorem length_window_le : (window file start size).length ≤ size := List.length_take_le _ _

theorem getElem?_window (hi : i < size) : (window file start size)[i]? = file[start + i]? := by
  rw [window, List.getElem?_take_of_lt hi, List.getElem?_drop]

theorem window_congr (h : ∀ i, start ≤ i → i < start + size → other[i]? = file[i]?) :
    window other start size = window file start size := by
  refine ext_getElem? fun i => ?_
  by_cases hi : i < size
  · rw [getElem?_window hi, getElem?_window hi]
    exact h _ (Nat.le_add_right _ _) (by omega)
  · rw [List.getElem?_eq_none (Nat.le_trans length_window_le (Nat.not_lt.mp hi)),
      List.getElem?_eq_none (Nat.le_trans length_window_le (Nat.not_lt.mp hi))]

variable (h : start + new.length ≤ file.length)

include h

theorem length_splice : (splice file start new).length = file.length := by
  rw [splice, List.length_append, List.length_append, length_take, List.length_drop]
  omega

theorem getElem?_splice_inside (hi : i < new.length) :
    (splice file start new)[start + i]? = new[i]? := by
  have htake : (file.take start).length = start := by
    rw [length_take]
    omega
  rw [splice, append_assoc, List.getElem?_append_right (by omega), htake,
    List.getElem?_append_left (by omega), Nat.add_sub_cancel_left]

theorem getElem?_splice_outside (hi : i < start ∨ start + new.length ≤ i) :
    (splice file start new)[i]? = file[i]? := by
  have htake : (file.take start).length = start := by
    rw [length_take]
    omega
  rcases hi with hi | hi
  · rw [splice, append_assoc, List.getElem?_append_left (by omega),
      List.getElem?_take_of_lt hi]
  · rw [splice, append_assoc, List.getElem?_append_right (by omega), htake,
      List.getElem?_append_right (by omega), List.getElem?_drop]
    congr 1
    omega

theorem window_splice_inside {k : Nat} (hk : k + size ≤ new.length) :
    window (splice file start new) (start + k) size = window new k size := by
  refine ext_getElem? fun i => ?_
  by_cases hi : i < size
  · rw [getElem?_window hi, getElem?_window hi, Nat.add_assoc, getElem?_splice_inside h (by omega)]
  · rw [List.getElem?_eq_none (Nat.le_trans length_window_le (Nat.not_lt.mp hi)),
      List.getElem?_eq_none (Nat.le_trans length_window_le (Nat.not_lt.mp hi))]

theorem window_splice : window (splice file start new) start new.length = new := by
  refine ext_getElem? fun i => ?_
  by_cases hi : i < new.length
  · rw [getElem?_window hi, getElem?_splice_inside h hi]
  · rw [List.getElem?_eq_none (Nat.le_trans length_window_le (Nat.not_lt.mp hi)),
      List.getElem?_eq_none (Nat.not_lt.mp hi)]

omit h in
theorem window_window {offset len : Nat} (h : offset + len ≤ size) :
    window (window file start size) offset len = window file (start + offset) len := by
  rw [window, window, window, List.drop_take, List.take_take, List.drop_drop,
    Nat.min_eq_left (by omega)]

theorem window_splice_outside {start' : Nat}
    (hapart : start' + size ≤ start ∨ start + new.length ≤ start') :
    window (splice file start new) start' size = window file start' size :=
  window_congr fun _ _ _ => getElem?_splice_outside h (by omega)

omit h in
theorem window_splice_around {offset : Nat} (hfile : offset + size ≤ file.length)
    (hstart : start + new.length ≤ size) :
    window (splice file (offset + start) new) offset size = splice (window file offset size) start new := by
  have hbound : offset + start + new.length ≤ file.length := by omega
  have hwindow : (window file offset size).length = size := length_window hfile
  have hinside : start + new.length ≤ (window file offset size).length := by omega
  refine ext_getElem? fun i => ?_
  by_cases hi : i < size
  · rw [getElem?_window hi]
    by_cases hnew : start ≤ i ∧ i < start + new.length
    · obtain ⟨k, rfl⟩ := Nat.exists_eq_add_of_le hnew.1
      rw [← Nat.add_assoc, getElem?_splice_inside hbound (by omega),
        getElem?_splice_inside hinside (by omega)]
    · rw [getElem?_splice_outside hbound (by omega), getElem?_splice_outside hinside (by omega),
        getElem?_window hi]
  · rw [List.getElem?_eq_none (Nat.le_trans length_window_le (Nat.not_lt.mp hi)),
      List.getElem?_eq_none (by rw [length_splice hinside]; omega)]

end

/-- A rewriting of a range, which keeps its size. -/
structure Patch (α ε : Type*) where
  start : Nat
  size : Nat
  rewrite : List α → Except ε (List α)
  length_rewrite : ∀ old new, rewrite old = .ok new → old.length = size → new.length = size

namespace Patch

variable (p q : Patch α ε)

/-- The positions a patch owns. -/
def Owns (i : Nat) : Prop := p.start ≤ i ∧ i < p.start + p.size

/-- No position belongs to both. -/
def Disjoint : Prop := ∀ i, p.Owns i → ¬ q.Owns i

theorem Disjoint.symm {p q : Patch α ε} (h : p.Disjoint q) : q.Disjoint p :=
  fun i hq hp => h i hp hq

/-- The patch leaves the position as it finds it. -/
def Spares (i : Nat) : Prop := p.Owns i → ∀ old new, old.length = p.size →
  p.rewrite old = .ok new → new[i - p.start]? = old[i - p.start]?

variable {i : Nat}

theorem spares_of_not_owns {p : Patch α ε} (h : ¬ p.Owns i) : p.Spares i :=
  fun howns => absurd howns h

/-- One patch on the file; a range past its end is an error. -/
def apply (outOfBounds : ε) (file : List α) : Except ε (List α) :=
  if p.start + p.size ≤ file.length then
    splice file p.start <$> p.rewrite (window file p.start p.size)
  else throw outOfBounds

/-- The patches one after the other. -/
def applyAll (outOfBounds : ε) : List (Patch α ε) → List α → Except ε (List α)
  | [], file => .ok file
  | p :: ps, file => do
      let file ← p.apply outOfBounds file
      applyAll outOfBounds ps file

variable {p q : Patch α ε} {outOfBounds : ε} {file file' : List α} {ps : List (Patch α ε)}

theorem apply_eq_ok : p.apply outOfBounds file = .ok file' ↔ p.start + p.size ≤ file.length ∧
    ∃ new, p.rewrite (window file p.start p.size) = .ok new ∧ file' = splice file p.start new := by
  rw [apply]
  by_cases h : p.start + p.size ≤ file.length
  · rw [if_pos h]
    cases p.rewrite (window file p.start p.size) with
    | error e =>
      constructor
      · intro hmap
        cases hmap
      · rintro ⟨_, new, hnew, _⟩
        cases hnew
    | ok new =>
      constructor
      · intro hmap
        exact ⟨h, new, rfl, (Except.ok.inj hmap).symm⟩
      · rintro ⟨_, new', hnew, rfl⟩
        cases hnew
        rfl
  · rw [if_neg h]
    constructor
    · intro hthrow
      cases hthrow
    · rintro ⟨hbound, _⟩
      exact absurd hbound h

theorem length_of_apply (h : p.apply outOfBounds file = .ok file') :
    file'.length = file.length := by
  obtain ⟨hbound, new, hnew, rfl⟩ := apply_eq_ok.mp h
  have hlen := p.length_rewrite _ _ hnew (length_window hbound)
  exact length_splice (hlen ▸ hbound)

theorem getElem?_of_apply (h : p.apply outOfBounds file = .ok file') (hi : p.Spares i) :
    file'[i]? = file[i]? := by
  obtain ⟨hbound, new, hnew, rfl⟩ := apply_eq_ok.mp h
  have hwindow := length_window hbound
  have hlen := p.length_rewrite _ _ hnew hwindow
  by_cases howns : p.Owns i
  · have hspares := hi howns _ _ hwindow hnew
    obtain ⟨hstart, hend⟩ := howns
    obtain ⟨k, rfl⟩ := Nat.exists_eq_add_of_le hstart
    have hk : k < p.size := by omega
    rw [Nat.add_sub_cancel_left, getElem?_window hk] at hspares
    rw [getElem?_splice_inside (hlen ▸ hbound) (by omega), hspares]
  · refine getElem?_splice_outside (hlen ▸ hbound) ?_
    rw [Owns] at howns
    omega

theorem window_of_apply (h : p.apply outOfBounds file = .ok file') :
    p.rewrite (window file p.start p.size) = .ok (window file' p.start p.size) := by
  obtain ⟨hbound, new, hnew, rfl⟩ := apply_eq_ok.mp h
  have hlen := p.length_rewrite _ _ hnew (length_window hbound)
  rw [hnew, ← hlen, window_splice (hlen ▸ hbound)]

theorem length_of_applyAll (h : applyAll outOfBounds ps file = .ok file') :
    file'.length = file.length := by
  induction ps generalizing file with
  | nil =>
    cases h
    rfl
  | cons p ps ih =>
    rw [applyAll] at h
    cases hp : p.apply outOfBounds file with
    | error e =>
      rw [hp] at h
      cases h
    | ok next =>
      rw [hp] at h
      exact (ih h).trans (length_of_apply hp)

theorem applyAll_getElem? (h : applyAll outOfBounds ps file = .ok file')
    (hi : ∀ p ∈ ps, p.Spares i) : file'[i]? = file[i]? := by
  induction ps generalizing file with
  | nil =>
    cases h
    rfl
  | cons p ps ih =>
    rw [applyAll] at h
    cases hp : p.apply outOfBounds file with
    | error e =>
      rw [hp] at h
      cases h
    | ok next =>
      rw [hp] at h
      exact (ih h fun q hq => hi q (List.mem_cons_of_mem _ hq)).trans
        (getElem?_of_apply hp (hi p List.mem_cons_self))

theorem applyAll_window (h : applyAll outOfBounds ps file = .ok file')
    (hdisj : ps.Pairwise Disjoint) (hp : p ∈ ps) :
    p.rewrite (window file p.start p.size) = .ok (window file' p.start p.size) := by
  induction ps generalizing file with
  | nil => cases hp
  | cons q ps ih =>
    obtain ⟨hq, hps⟩ := List.pairwise_cons.mp hdisj
    rw [applyAll] at h
    cases hfirst : q.apply outOfBounds file with
    | error e =>
      rw [hfirst] at h
      cases h
    | ok next =>
      rw [hfirst] at h
      rcases List.mem_cons.mp hp with rfl | hp
      · -- the patches after it leave its range alone
        rw [window_of_apply hfirst]
        refine congrArg Except.ok (window_congr fun i hstart hend => ?_).symm
        exact applyAll_getElem? h fun r hr =>
          spares_of_not_owns (hq r hr i ⟨hstart, hend⟩)
      · -- the patch before it leaves its range alone
        rw [← ih h hps hp]
        refine congrArg p.rewrite (window_congr fun i hstart hend => ?_).symm
        exact getElem?_of_apply hfirst (spares_of_not_owns ((hq p hp).symm i ⟨hstart, hend⟩))

/-! ## The order of disjoint patches -/

/-- The range of the patch is in the file, and what is there can be rewritten. -/
def Applies (p : Patch α ε) (file : List α) : Prop :=
  p.start + p.size ≤ file.length ∧ ∃ new, p.rewrite (window file p.start p.size) = .ok new

variable (outOfBounds) in
theorem apply_isOk_iff : (∃ file', p.apply outOfBounds file = .ok file') ↔ p.Applies file := by
  constructor
  · rintro ⟨file', h⟩
    obtain ⟨hbound, new, hnew, _⟩ := apply_eq_ok.mp h
    exact ⟨hbound, new, hnew⟩
  · rintro ⟨hbound, new, hnew⟩
    exact ⟨_, apply_eq_ok.mpr ⟨hbound, new, hnew, rfl⟩⟩

theorem applies_of_apply (h : q.apply outOfBounds file = .ok file') (hdisj : q.Disjoint p) :
    p.Applies file' ↔ p.Applies file := by
  have hwindow : window file' p.start p.size = window file p.start p.size :=
    window_congr fun i hstart hend =>
      getElem?_of_apply h (spares_of_not_owns (hdisj.symm i ⟨hstart, hend⟩))
  rw [Applies, Applies, length_of_apply h, hwindow]

variable (outOfBounds) in
/-- Disjoint patches succeed together when each does alone. -/
theorem applyAll_isOk_iff (hdisj : ps.Pairwise Disjoint) :
    (∃ file', applyAll outOfBounds ps file = .ok file') ↔ ∀ p ∈ ps, p.Applies file := by
  induction ps generalizing file with
  | nil => exact ⟨fun _ p hp => absurd hp List.not_mem_nil, fun _ => ⟨file, rfl⟩⟩
  | cons q ps ih =>
    obtain ⟨hq, hps⟩ := List.pairwise_cons.mp hdisj
    rw [List.forall_mem_cons, ← apply_isOk_iff outOfBounds, applyAll]
    cases hfirst : q.apply outOfBounds file with
    | error e =>
      constructor
      · rintro ⟨file', h⟩
        cases h
      · rintro ⟨⟨file', h⟩, _⟩
        cases h
    | ok next =>
      have hsame : (∀ p ∈ ps, p.Applies next) ↔ ∀ p ∈ ps, p.Applies file :=
        forall₂_congr fun p hp => applies_of_apply hfirst (hq p hp)
      exact (ih hps).trans (hsame.trans ⟨fun h => ⟨⟨next, rfl⟩, h⟩, fun h => h.2⟩)

variable {qs : List (Patch α ε)}

theorem applyAll_unique {other : List α} (hperm : ps.Perm qs)
    (hdisj : ps.Pairwise Disjoint) (h : applyAll outOfBounds ps file = .ok file')
    (h' : applyAll outOfBounds qs file = .ok other) : other = file' := by
  have hdisj' : qs.Pairwise Disjoint := hperm.pairwise hdisj Disjoint.symm
  refine ext_getElem? fun i => ?_
  by_cases howned : ∃ p ∈ ps, p.Owns i
  · obtain ⟨p, hp, hstart, hend⟩ := howned
    -- both hold what the patch makes of the original
    have hwindow := applyAll_window h hdisj hp
    rw [applyAll_window h' hdisj' (hperm.mem_iff.mp hp)] at hwindow
    have hsame : window other p.start p.size = window file' p.start p.size := Except.ok.inj hwindow
    obtain ⟨k, rfl⟩ := Nat.exists_eq_add_of_le hstart
    have hk : k < p.size := by omega
    rw [← getElem?_window hk, ← getElem?_window hk, hsame]
  · -- no patch owns the position
    have hspares : ∀ p ∈ ps, p.Spares i := fun p hp =>
      spares_of_not_owns fun howns => howned ⟨p, hp, howns⟩
    rw [applyAll_getElem? h hspares,
      applyAll_getElem? h' fun p hp => hspares p (hperm.mem_iff.mpr hp)]

theorem applyAll_perm (hperm : ps.Perm qs) (hdisj : ps.Pairwise Disjoint) :
    applyAll outOfBounds ps file = .ok file' ↔ applyAll outOfBounds qs file = .ok file' := by
  have hdisj' : qs.Pairwise Disjoint := hperm.pairwise hdisj Disjoint.symm
  constructor
  · intro h
    have happlies := (applyAll_isOk_iff outOfBounds hdisj).mp ⟨file', h⟩
    obtain ⟨other, h'⟩ := (applyAll_isOk_iff outOfBounds hdisj').mpr
      fun p hp => happlies p (hperm.mem_iff.mpr hp)
    rw [h', applyAll_unique hperm hdisj h h']
  · intro h'
    have happlies := (applyAll_isOk_iff outOfBounds hdisj').mp ⟨file', h'⟩
    obtain ⟨other, h⟩ := (applyAll_isOk_iff outOfBounds hdisj).mpr
      fun p hp => happlies p (hperm.mem_iff.mp hp)
    rw [h, applyAll_unique hperm.symm hdisj' h' h]

/-! ## Patches towards a file -/

/-- Every patch that can still be applied writes its range of the target, whatever is there. -/
def Writes (p : Patch α ε) (target : List α) : Prop :=
  p.start + p.size ≤ target.length ∧
    ∀ old, old.length = p.size → p.rewrite old = .ok (window target p.start p.size)

variable {target : List α}

variable (outOfBounds) in
/-- One patch gives its range to the target and leaves the rest. -/
theorem apply_of_writes (hlen : file.length = target.length) (hp : p.Writes target) :
    ∃ next, p.apply outOfBounds file = .ok next ∧ next.length = target.length ∧
      (∀ i, p.Owns i → next[i]? = target[i]?) ∧ ∀ i, ¬ p.Owns i → next[i]? = file[i]? := by
  obtain ⟨hbound, hwrite⟩ := hp
  have hin : p.start + p.size ≤ file.length := hlen ▸ hbound
  have happly : p.apply outOfBounds file =
      .ok (splice file p.start (window target p.start p.size)) :=
    apply_eq_ok.mpr ⟨hin, _, hwrite _ (length_window hin), rfl⟩
  have hwindow := length_window hbound
  refine ⟨_, happly, (length_of_apply happly).trans hlen, ?_, ?_⟩
  · rintro i ⟨hstart, hend⟩
    obtain ⟨k, rfl⟩ := Nat.exists_eq_add_of_le hstart
    have hk : k < p.size := by omega
    rw [getElem?_splice_inside (by omega) (by omega), getElem?_window hk]
  · intro i hi
    exact getElem?_of_apply happly (spares_of_not_owns hi)

theorem applyAll_eq_target (hlen : file.length = target.length) (hps : ∀ p ∈ ps, p.Writes target)
    (hrest : ∀ i, (∀ p ∈ ps, ¬ p.Owns i) → file[i]? = target[i]?) :
    applyAll outOfBounds ps file = .ok target := by
  induction ps generalizing file with
  | nil => exact congrArg Except.ok (ext_getElem? fun i =>
    hrest i nofun)
  | cons p ps ih =>
    obtain ⟨hp, hps⟩ := List.forall_mem_cons.mp hps
    obtain ⟨next, happly, hnext, hinside, houtside⟩ := apply_of_writes outOfBounds hlen hp
    rw [applyAll, happly]
    refine ih hnext hps fun i hi => ?_
    by_cases howns : p.Owns i
    · exact hinside i howns
    · rw [houtside i howns]
      exact hrest i (List.forall_mem_cons.mpr ⟨howns, hi⟩)

/-! ## Patching in place -/

/-- The patches on a file that is written as they come: one that fails leaves the
file to the ones before it. -/
def run (outOfBounds : ε) : List (Patch α ε) → List α → Option ε × List α
  | [], file => (none, file)
  | p :: ps, file =>
    match p.apply outOfBounds file with
    | .ok file => run outOfBounds ps file
    | .error e => (some e, file)

theorem run_cons_ok {next : List α} (h : p.apply outOfBounds file = .ok next) :
    run outOfBounds (p :: ps) file = run outOfBounds ps next := by
  rw [run, h]

theorem run_cons_error {e : ε} (h : p.apply outOfBounds file = .error e) :
    run outOfBounds (p :: ps) file = (some e, file) := by
  rw [run, h]

theorem run_eq_none_iff :
    run outOfBounds ps file = (none, file') ↔ applyAll outOfBounds ps file = .ok file' := by
  induction ps generalizing file with
  | nil =>
    constructor
    · rintro ⟨⟩
      rfl
    · rintro ⟨⟩
      rfl
  | cons p ps ih =>
    rw [applyAll]
    cases hp : p.apply outOfBounds file with
    | ok next =>
      rw [run_cons_ok hp]
      exact ih
    | error e =>
      rw [run_cons_error hp]
      constructor
      · intro h
        cases h
      · intro h
        cases h

/-- However far the run gets, a position that every patch spares keeps its value. -/
theorem run_getElem? (hi : ∀ p ∈ ps, p.Spares i) : (run outOfBounds ps file).2[i]? = file[i]? := by
  induction ps generalizing file with
  | nil => rfl
  | cons p ps ih =>
    cases hp : p.apply outOfBounds file with
    | ok next =>
      rw [run_cons_ok hp, ih fun q hq => hi q (List.mem_cons_of_mem _ hq)]
      exact getElem?_of_apply hp (hi p List.mem_cons_self)
    | error e => rw [run_cons_error hp]

theorem length_run : (run outOfBounds ps file).2.length = file.length := by
  induction ps generalizing file with
  | nil => rfl
  | cons p ps ih =>
    cases hp : p.apply outOfBounds file with
    | ok next => rw [run_cons_ok hp, ih, length_of_apply hp]
    | error e => rw [run_cons_error hp]

end Patch

end Sld.Store
