/-
# `Text.Scanning` — the scanners that look at bytes

Each comes with what it means that it is done: how the input falls into the
part that was taken and the rest.
-/
import Mathlib.Data.List.Basic
import Mathlib.Data.Nat.Find
import Sld.Text.Outcome

namespace Sld.Text

open List (append_assoc drop_left length_append prefix_append)

/-- The bytes of a text of one-byte characters. -/
def bytes (text : String) : Bytes := text.toList.map Char.toUInt8

namespace Scanner

variable {ε α : Type}

/-- Take `p`, or fail. -/
def literal (e : ε) (p : Bytes) : Scanner ε Unit := fun s =>
  (s.dropPrefix? p).elim (.failed e) fun rest => .done ((), rest)

/-- Take `p` if it is next. -/
def tryTake (p : Bytes) : Scanner ε Bool := fun s =>
  (s.dropPrefix? p).elim (.done (false, s)) fun rest => .done (true, rest)

/-- The bytes before the first `p`, which stays; at least `least` of them. -/
def takeUntil (e : ε) (least : ℕ) (p : Bytes) : Scanner ε Bytes := fun s =>
  (s.dropInfix? p).elim (.failed e) fun found =>
    if found.1.length < least then .failed e else .done (found.1, s.drop found.1.length)

/-- The bytes of a kind that are next; at least one. -/
def takeWhile1 (e : ε) (kind : UInt8 → Bool) : Scanner ε Bytes := fun s =>
  if (s.takeWhile kind).isEmpty then .failed e
  else .done (s.takeWhile kind, s.dropWhile kind)

/-- A space, tab, carriage return or line feed. -/
def isBlank (b : UInt8) : Bool := b ∈ bytes " \t\r\n"

/-- Take the blanks that are next. -/
def spaces : Scanner ε Unit := fun s => .done ((), s.dropWhile isBlank)

/-- A result that was computed without looking at the input. -/
def ofExcept : Except ε α → Scanner ε α
  | .ok a => pure a
  | .error e => fail e

/-- Run on the whole input, of which nothing may be left. -/
def complete (e : ε) (p : Scanner ε α) (s : Bytes) : Outcome ε α :=
  (p s).bind fun r => if r.2.isEmpty then .done r.1 else .failed e

/-! ## What was taken -/

variable {p s : Bytes}

theorem dropPrefix?_eq_some {rest : Bytes} : s.dropPrefix? p = some rest ↔ s = p ++ rest := by
  rw [List.dropPrefix?_eq_some_iff]
  constructor
  · rintro ⟨p', h, heq⟩
    rw [h, eq_of_beq heq]
  · intro h
    exact ⟨p, h, by simp⟩

theorem dropPrefix?_eq_none : s.dropPrefix? p = none ↔ ¬ p <+: s := by
  rw [Option.eq_none_iff_forall_ne_some]
  constructor
  · rintro h ⟨rest, rfl⟩
    exact h rest (dropPrefix?_eq_some.mpr rfl)
  · rintro h rest heq
    exact h ⟨rest, (dropPrefix?_eq_some.mp heq).symm⟩

theorem literal_append (e : ε) (p rest : Bytes) : literal e p (p ++ rest) = .done ((), rest) := by
  rw [literal, dropPrefix?_eq_some.mpr rfl]
  rfl

variable {e : ε}

theorem literal_eq_done {r : Unit × Bytes} : literal e p s = .done r ↔ s = p ++ r.2 := by
  rw [literal]
  cases h : s.dropPrefix? p with
  | none =>
    refine ⟨nofun, fun h' => ?_⟩
    exact absurd ⟨r.2, h'.symm⟩ (dropPrefix?_eq_none.mp h)
  | some rest =>
    rw [dropPrefix?_eq_some.mp h, List.append_cancel_left_eq]
    show Outcome.done ((), rest) = .done r ↔ _
    rw [Outcome.done.injEq, Prod.ext_iff]
    exact ⟨And.right, fun h => ⟨rfl, h⟩⟩

theorem Total.literal (e : ε) (p : Bytes) : Total (literal e p) := by
  intro s
  rw [Scanner.literal]
  cases s.dropPrefix? p <;> simp

theorem tryTake_append (p rest : Bytes) :
    (tryTake p : Scanner ε Bool) (p ++ rest) = .done (true, rest) := by
  rw [tryTake, dropPrefix?_eq_some.mpr rfl]
  rfl

theorem tryTake_of_not_prefix (h : ¬ p <+: s) :
    (tryTake p : Scanner ε Bool) s = .done (false, s) := by
  rw [tryTake, dropPrefix?_eq_none.mpr h]
  rfl

theorem Takes.literal (e : ε) (p : Bytes) : Takes p.length (literal e p) := by
  intro s r h
  rw [literal_eq_done.mp h, length_append]
  omega

theorem tryTake_cases (p s : Bytes) :
    (∃ rest, s = p ++ rest ∧ (tryTake p : Scanner ε Bool) s = .done (true, rest)) ∨
      (¬ p <+: s ∧ (tryTake p : Scanner ε Bool) s = .done (false, s)) := by
  by_cases h : p <+: s
  · obtain ⟨rest, rfl⟩ := h
    exact .inl ⟨rest, rfl, tryTake_append p rest⟩
  · exact .inr ⟨h, tryTake_of_not_prefix h⟩

theorem Total.tryTake (p : Bytes) : Total (tryTake p : Scanner ε Bool) := by
  intro s
  rw [Scanner.tryTake]
  cases s.dropPrefix? p <;> simp

theorem Takes.tryTake (p : Bytes) : Takes 0 (tryTake p : Scanner ε Bool) := by
  intro s r h
  rcases @tryTake_cases ε p s with ⟨rest, heq, hd⟩ | ⟨_, hd⟩
  · cases hd.symm.trans h
    rw [heq, length_append]
    exact Nat.le_add_left _ _
  · cases hd.symm.trans h
    exact Nat.le_refl _

variable {β : Type}

variable {f : Bool → Scanner ε β}

theorem Takes.tryTake_bind {k : ℕ} (hk : k ≤ p.length)
    (ht : Takes 0 (f true)) (hf : Takes k (f false)) : Takes k (Scanner.tryTake p >>= f) := by
  intro s r h
  rw [bind_run] at h
  rcases @tryTake_cases ε p s with ⟨rest, rfl, hd⟩ | ⟨_, hd⟩
  · rw [hd] at h
    have : r.2.length + 0 ≤ rest.length := ht rest r h
    rw [length_append]
    omega
  · rw [hd] at h
    exact hf s r h

theorem tryTake_bind_unfinished (h : (tryTake p >>= f) s = .unfinished) :
    (∃ rest, s = p ++ rest ∧ f true rest = .unfinished) ∨
      (¬ p <+: s ∧ f false s = .unfinished) := by
  rw [bind_run] at h
  rcases @tryTake_cases ε p s with ⟨rest, heq, hd⟩ | ⟨hnot, hd⟩
  · rw [hd] at h
    exact .inl ⟨rest, heq, h⟩
  · rw [hd] at h
    exact .inr ⟨hnot, h⟩

/-- `token` stands before the first `p` of the sequence, which goes on with `rest`. -/
structure Before (p s token rest : Bytes) : Prop where
  eq : s = token ++ rest
  next : p <+: rest
  first : ∀ l, p <+: s.drop l → token.length ≤ l

theorem dropInfix?_eq_some {found : Bytes × Bytes} (h : s.dropInfix? p = some found) :
    Before p s found.1 (p ++ found.2) := by
  obtain ⟨p', heq, hbeq⟩ := (List.dropInfix?_eq_some_iff.mp h).1
  have hfirst := (List.dropInfix?_eq_some_iff.mp h).2
  rw [eq_of_beq hbeq, append_assoc] at heq
  refine ⟨heq, ⟨found.2, rfl⟩, ?_⟩
  rintro l ⟨t, ht⟩
  by_cases hl : l ≤ s.length
  · have := hfirst (s.take l) p t (by rw [append_assoc, ht, List.take_append_drop]) (by simp)
    rwa [List.length_take, Nat.min_eq_left hl] at this
  · rw [heq, length_append] at hl
    omega

variable {least : ℕ} {r : Bytes × Bytes}

theorem takeUntil_eq_done
    (h : takeUntil e least p s = .done r) : Before p s r.1 r.2 ∧ least ≤ r.1.length := by
  rw [takeUntil] at h
  cases hf : s.dropInfix? p with
  | none => rw [hf] at h; cases h
  | some found =>
    have hb := dropInfix?_eq_some hf
    rw [hf, Option.elim_some] at h
    split at h
    · cases h
    · rename_i hlen
      cases h
      refine ⟨?_, Nat.le_of_not_lt hlen⟩
      have hrest : s.drop found.1.length = p ++ found.2 := by
        conv_lhs => rw [hb.eq]
        exact drop_left
      rw [hrest]
      exact hb

theorem Takes.takeUntil (e : ε) (least : ℕ) (p : Bytes) : Takes least (takeUntil e least p) := by
  intro s r h
  obtain ⟨hb, hle⟩ := takeUntil_eq_done h
  rw [hb.eq, length_append]
  omega

theorem Total.takeUntil (e : ε) (least : ℕ) (p : Bytes) : Total (takeUntil e least p) := by
  intro s
  rw [Scanner.takeUntil]
  cases s.dropInfix? p with
  | none => simp
  | some found =>
    rw [Option.elim_some]
    split <;> simp

theorem dropInfix?_of_before {token rest : Bytes} (h : Before p s token (p ++ rest)) :
    s.dropInfix? p = some (token, rest) := by
  refine List.dropInfix?_eq_some_iff.mpr ⟨⟨p, ?_, by simp⟩, ?_⟩
  · rw [h.eq, append_assoc]
  · intro l i t' heq hbeq
    apply h.first
    rw [heq, eq_of_beq hbeq, append_assoc, drop_left]
    exact ⟨t', rfl⟩

theorem takeUntil_of_before {token rest : Bytes}
    (h : Before p s token rest) (hleast : least ≤ token.length) :
    takeUntil e least p s = .done (token, rest) := by
  obtain ⟨t, rfl⟩ := h.next
  rw [takeUntil, dropInfix?_of_before h, Option.elim_some, if_neg (Nat.not_lt.mpr hleast)]
  conv_lhs => rw [h.eq, drop_left]

theorem exists_before (h : p <:+: s) : ∃ token rest, Before p s token (p ++ rest) := by
  have hex : ∃ l, p <+: s.drop l := by
    obtain ⟨l, r, rfl⟩ := h
    exact ⟨l.length, r, by rw [append_assoc, drop_left]⟩
  obtain ⟨rest, hrest⟩ := Nat.find_spec hex
  refine ⟨s.take (Nat.find hex), rest, ?_, ⟨rest, rfl⟩, fun l hl => ?_⟩
  · rw [hrest, List.take_append_drop]
  · rw [List.length_take]
    exact Nat.le_trans (Nat.min_le_left _ _) (Nat.find_min' hex hl)

theorem before_of_not_inside {p token rest : Bytes} (h : ¬ p <:+: (token ++ p).dropLast) :
    Before p (token ++ (p ++ rest)) token (p ++ rest) := by
  refine ⟨rfl, prefix_append p rest, fun l hp => ?_⟩
  by_contra hl
  -- the terminator would end before the last byte of the token and its own
  have hwhole : p <+: (token ++ p).drop l := by
    rw [← append_assoc, List.drop_append_of_le_length (by simp; omega)] at hp
    refine List.prefix_of_prefix_length_le hp (prefix_append _ _) ?_
    simp
    omega
  refine h ?_
  rw [List.dropLast_eq_take]
  have hcut : p <+: ((token ++ p).take ((token ++ p).length - 1)).drop l := by
    rw [List.drop_take]
    refine List.prefix_take_iff.mpr ⟨hwhole, ?_⟩
    simp
    omega
  exact hcut.isInfix.trans (List.drop_suffix _ _).isInfix

theorem before_of_not_mem {b : UInt8} {token rest : Bytes} (h : b ∉ token) :
    Before (b :: p) (token ++ (b :: p ++ rest)) token (b :: p ++ rest) := by
  refine ⟨rfl, prefix_append _ _, fun l hp => ?_⟩
  by_contra hl
  have hl : l < token.length := Nat.lt_of_not_le hl
  rw [List.drop_append_of_le_length (Nat.le_of_lt hl), List.drop_eq_getElem_cons hl] at hp
  refine h ?_
  rw [(List.cons_prefix_cons.mp hp).1]
  exact List.getElem_mem hl

theorem takeWhile1_eq_done {kind : UInt8 → Bool}
    (h : takeWhile1 e kind s = .done r) : s = r.1 ++ r.2 ∧ 0 < r.1.length := by
  rw [takeWhile1] at h
  split at h
  · cases h
  · rename_i hne
    cases h
    refine ⟨List.takeWhile_append_dropWhile.symm, ?_⟩
    rw [List.isEmpty_iff] at hne
    exact List.length_pos_iff.mpr hne

theorem Takes.takeWhile1 (e : ε) (kind : UInt8 → Bool) : Takes 1 (takeWhile1 e kind) := by
  intro s r h
  obtain ⟨heq, hpos⟩ := takeWhile1_eq_done h
  rw [heq, length_append]
  omega

theorem Total.takeWhile1 (e : ε) (kind : UInt8 → Bool) : Total (takeWhile1 e kind) := by
  intro s
  rw [Scanner.takeWhile1]
  split <;> simp

theorem Total.spaces : Total (spaces : Scanner ε Unit) := by
  intro s h
  cases h

theorem Takes.spaces : Takes 0 (spaces : Scanner ε Unit) := by
  intro s r h
  cases h
  exact (List.dropWhile_suffix isBlank).length_le

theorem Total.ofExcept (x : Except ε α) : Total (ofExcept x) := by
  cases x with
  | error e => exact Total.fail e
  | ok a => exact Total.pure a

theorem Takes.ofExcept (x : Except ε α) : Takes 0 (ofExcept x) := by
  cases x with
  | error e => exact Takes.fail 0 e
  | ok a => exact Takes.pure a

theorem ofExcept_eq_done {x : Except ε α} {r : α × Bytes} :
    ofExcept x s = .done r ↔ x = .ok r.1 ∧ r.2 = s := by
  cases x with
  | error e => simp [ofExcept]
  | ok a =>
    rw [ofExcept, pure_run, Outcome.done.injEq, Prod.ext_iff, Except.ok.injEq]
    exact ⟨fun h => ⟨h.1, h.2.symm⟩, fun h => ⟨h.1, h.2.symm⟩⟩

theorem complete_eq_unfinished {p : Scanner ε α} :
    complete e p s = .unfinished ↔ p s = .unfinished := by
  rw [complete, Outcome.bind_eq_unfinished]
  constructor
  · rintro (h | ⟨r, _, h⟩)
    · exact h
    · split at h <;> cases h
  · exact .inl

end Scanner

end Sld.Text
