/-
# `Layout.RelaxAlignment` — where the code after an alignment ends up

A scan cuts the padding at every `R_RISCV_ALIGN` that still has all of it, so
that the code after it is aligned where the section is now, provided that the
alignment can be told from the addend.  Padding that has
been cut stays as it is: code before it that a later pass shortens moves what
follows off its alignment (`relaxation_keeps_alignment`).
-/
import Mathlib.Data.List.Infix
import Sld.Layout.RelaxPasses
import Sld.Order.SortDedup

namespace Sld.Layout

open List (append_assoc append_nil cons_append mem_append_left nil_append)

/-! ## Rounding -/

theorem nextMultipleOf_le {p addend granule : ℕ} (hgranule : 0 < granule) (hp : granule ∣ p)
    (haddend : granule ∣ addend) : nextMultipleOf p (addend + granule) ≤ p + addend := by
  have hlt := nextMultipleOf_lt p (addend + granule)
    (Nat.lt_of_lt_of_le hgranule (Nat.le_add_left granule addend))
  have hdvd : granule ∣ nextMultipleOf p (addend + granule) :=
    (Nat.dvd_add haddend (dvd_refl granule)).trans (nextMultipleOf_dvd _ _)
  obtain ⟨a, rfl⟩ := haddend
  obtain ⟨b, rfl⟩ := hp
  obtain ⟨c, hc⟩ := hdvd
  rw [hc] at hlt ⊢
  have hlt' : granule * c < granule * (b + a + 1) := by
    calc granule * c < granule * b + (granule * a + granule) := hlt
      _ = granule * (b + a + 1) := by ring
  have hle : c ≤ b + a := Nat.lt_succ_iff.1 (Nat.lt_of_mul_lt_mul_left hlt')
  calc granule * c ≤ granule * (b + a) := Nat.mul_le_mul_left granule hle
    _ = granule * b + granule * a := Nat.mul_add granule b a

namespace ScanInput

theorem surplus_le (p addend : ℕ) : surplus p addend ≤ addend := by
  have hle := le_nextMultipleOf p (nextPowerOfTwo addend) (Nat.two_pow_pos _)
  simp only [surplus]
  omega

section

variable {p addend granule : ℕ} (hgranule : 0 < granule)
  (hrecovered : nextPowerOfTwo addend = addend + granule)

include hgranule hrecovered

theorem dvd_of_hasSurplus (hsmall : addend < 2 ^ 32) (h : hasSurplus p addend = true) :
    addend + granule ∣ p + addend - surplus p addend := by
  have hlt : nextMultipleOf p (addend + granule) < p + addend := by
    simpa [hasSurplus, hrecovered] using h
  have hle := le_nextMultipleOf p (addend + granule) (by omega)
  have hsurplus : surplus p addend = p + addend - nextMultipleOf p (addend + granule) := by
    simp only [surplus, hrecovered]
    exact Nat.mod_eq_of_lt (by omega)
  have hrest : p + addend - surplus p addend = nextMultipleOf p (addend + granule) := by
    omega
  rw [hrest]
  exact nextMultipleOf_dvd _ _

variable (hp : granule ∣ p) (haddend : granule ∣ addend)

include hp haddend

theorem dvd_of_not_hasSurplus (h : hasSurplus p addend = false) :
    addend + granule ∣ p + addend := by
  have hle : p + addend ≤ nextMultipleOf p (addend + granule) := by
    simpa [hasSurplus, hrecovered] using h
  have heq := le_antisymm hle (nextMultipleOf_le hgranule hp haddend)
  rw [heq]
  exact nextMultipleOf_dvd _ _

theorem not_hasSurplus_of_dvd (h : addend + granule ∣ p + addend) :
    hasSurplus p addend = false := by
  have hle := nextMultipleOf_le hgranule hp haddend
  have hge := le_nextMultipleOf p (addend + granule) (by omega)
  have heq : nextMultipleOf p (addend + granule) = p + addend := by
    by_contra hne
    have hgap : addend + granule ∣ p + addend - nextMultipleOf p (addend + granule) :=
      Nat.dvd_sub h (nextMultipleOf_dvd _ _)
    have := Nat.le_of_dvd (by omega) hgap
    omega
  simp [hasSurplus, hrecovered, heq]

end

end ScanInput

/-! ## What a scan deletes -/

namespace Relocation

/-- The bytes of code that a relocation is about. -/
def span (rel : Relocation) : ℕ :=
  match rel.rawType with
  | .align => asU64 rel.addend
  | .call | .callPlt => 8
  | .hi20 => 4
  | .relax | .other => 0

/-- The relocations of a section are in order and their code does not
overlap; only `R_RISCV_RELAX` is at the offset of the one before. -/
def Before (a b : Relocation) : Prop :=
  a.offset + a.span ≤ b.offset ∨ b.rawType = .relax ∧ a.offset ≤ b.offset

instance (a b : Relocation) : Decidable (Before a b) := by
  unfold Before
  infer_instance

/-- The deletions that a scan can make for a relocation. -/
def Slot (rel : Relocation) (entry : ℕ × ℕ) : Prop :=
  match rel.rawType with
  | .align => 0 < asU64 rel.addend ∧ entry.1 = rel.offset ∧ entry.2 ≤ asU64 rel.addend
  | .call | .callPlt => entry = (rel.offset + 4, 4)
  | .hi20 => entry = (rel.offset, 4) ∨ entry = (rel.offset + 2, 2)
  | .relax | .other => False

variable {entry : ℕ × ℕ} {rel : Relocation}

theorem Slot.not_relax (h : rel.Slot entry) : rel.rawType ≠ .relax := by
  intro hrelax
  simp [Slot, hrelax] at h

theorem Slot.le (h : rel.Slot entry) : rel.offset ≤ entry.1 ∧ entry.1 < rel.offset + rel.span ∧
      entry.1 + entry.2 ≤ rel.offset + rel.span := by
  unfold Slot at h
  unfold span
  cases hraw : rel.rawType <;> simp only [hraw] at h ⊢
  case align => omega
  case call => simp [h]
  case callPlt => simp [h]
  case hi20 => rcases h with rfl | rfl <;> simp

end Relocation

section

variable {relocations : List Relocation} {rel other : Relocation} {entry entry' : ℕ × ℕ}
  (hordered : relocations.Pairwise Relocation.Before) (hrel : rel ∈ relocations)
  (hother : other ∈ relocations)

include hordered hrel hother

/-- The code of two relocations does not overlap. -/
theorem apart_of_ne (hrelax : rel.rawType ≠ .relax) (hrelax' : other.rawType ≠ .relax)
    (hne : rel ≠ other) :
    rel.offset + rel.span ≤ other.offset ∨ other.offset + other.span ≤ rel.offset := by
  rcases (pairwise_eq_or hordered hrel hother).resolve_left hne with hbefore | hbefore
  · exact .inl (hbefore.resolve_right fun h => hrelax' h.1)
  · exact .inr (hbefore.resolve_right fun h => hrelax h.1)

theorem spaced_of_slots (hslot : rel.Slot entry) (hslot' : other.Slot entry') (hne : rel ≠ other) :
    Spaced entry entry' ∨ Spaced entry' entry := by
  have hle := hslot.le
  have hle' := hslot'.le
  rcases apart_of_ne hordered hrel hother hslot.not_relax hslot'.not_relax hne with h | h
  · exact .inl ⟨by omega, by omega⟩
  · exact .inr ⟨by omega, by omega⟩

end

namespace ScanInput

variable (input : ScanInput)

/-- What a scan does about a call or a `lui` that the next relocation allows
to be relaxed. -/
def shortening (rel next : Relocation) : Option (ℕ × ℕ) :=
  if next.rawType = .relax ∧ next.offset = rel.offset then
    match rel.rawType, rel.symbol with
    | .call, some symIdx | .callPlt, some symIdx =>
      if input.hasDeltaAt (rel.offset + 4) then none
      else (input.relaxCall rel.offset symIdx).delta
    | .hi20, some symIdx =>
      if input.hasDeltaAt rel.offset ∨ input.hasDeltaAt (rel.offset + 2) then none
      else (input.relaxHi20 rel.offset symIdx rel.addend).delta
    | _, _ => none
  else none

/-- The calls and `lui`s that a scan shortens. -/
def shortenings : List Relocation → List (ℕ × ℕ)
  | rel :: next :: rest => (input.shortening rel next).toList ++ shortenings (next :: rest)
  | _ => []

variable {entry : ℕ × ℕ} {rel : Relocation}

theorem mem_shortenings {next : Relocation}
    (h : input.shortening rel next = some entry) (before after : List Relocation) :
    entry ∈ input.shortenings (before ++ rel :: next :: after) := by
  induction before with
  | nil => simp [shortenings, h]
  | cons first before ih =>
    cases before with
    | nil =>
      exact List.mem_append_right _ ih
    | cons second before =>
      exact List.mem_append_right _ ih

theorem mem_shortenings_append (after : List Relocation) :
    ∀ {walked : List Relocation}, entry ∈ input.shortenings walked →
      entry ∈ input.shortenings (walked ++ after)
  | [], h | [_], h => by simp [shortenings] at h
  | rel :: next :: rest, h => by
    simp only [shortenings, cons_append, List.mem_append] at h ⊢
    rcases h with h | h
    · exact .inl h
    · exact .inr (mem_shortenings_append after h)

theorem relaxCall_delta {callOffset symIdx : ℕ}
    (h : (input.relaxCall callOffset symIdx).delta = some entry) : entry = (callOffset + 4, 4) := by
  unfold relaxCall at h
  split at h
  case h_1 =>
    split at h
    · exact (Option.some.inj h).symm
    · cases h
  case h_2 => cases h

theorem relaxHi20_delta {hi20Offset symIdx : ℕ} {addend : ℤ}
    (h : (input.relaxHi20 hi20Offset symIdx addend).delta = some entry) :
    entry = (hi20Offset, 4) ∨ entry = (hi20Offset + 2, 2) := by
  unfold relaxHi20 at h
  split at h
  case h_2 => cases h
  case h_1 =>
    split at h
    case isFalse => cases h
    case isTrue =>
      split at h
      · exact .inl (Option.some.inj h).symm
      · split at h
        · split at h
          · exact .inr (Option.some.inj h).symm
          · cases h
        · cases h

theorem relaxPrevious_delta {prevCall : Option (ℕ × ℕ)} {prevHi20 : Option (ℕ × ℕ × ℤ)} {offset : ℕ}
    (h : (input.relaxPrevious prevCall prevHi20 offset).delta = some entry) :
    (∃ symIdx, prevCall = some (offset, symIdx) ∧ input.hasDeltaAt (offset + 4) = false ∧
      (input.relaxCall offset symIdx).delta = some entry) ∨
    (∃ symIdx addend, prevHi20 = some (offset, symIdx, addend) ∧
      input.hasDeltaAt offset = false ∧ input.hasDeltaAt (offset + 2) = false ∧
      (input.relaxHi20 offset symIdx addend).delta = some entry) := by
  simp only [relaxPrevious] at h
  rcases prevHi20 with _ | ⟨hi20Offset, hi20Sym, hi20Addend⟩
  · split at h
    case h_1 callOffset symIdx =>
      split at h
      case isTrue hif =>
        obtain ⟨rfl, hat⟩ := hif
        exact .inl ⟨symIdx, rfl, by simpa using hat, h⟩
      case isFalse => cases h
    case h_2 => cases h
  · have hhi20 : (if offset = hi20Offset ∧ !input.hasDeltaAt hi20Offset ∧
          !input.hasDeltaAt (hi20Offset + 2) then
        input.relaxHi20 hi20Offset hi20Sym hi20Addend
        else {}).delta = some entry →
        ∃ symIdx addend, some (hi20Offset, hi20Sym, hi20Addend) = some (offset, symIdx, addend) ∧
          input.hasDeltaAt offset = false ∧ input.hasDeltaAt (offset + 2) = false ∧
          (input.relaxHi20 offset symIdx addend).delta = some entry := by
      intro hdelta
      split at hdelta
      case isTrue hif =>
        obtain ⟨rfl, hat, hat'⟩ := hif
        exact ⟨hi20Sym, hi20Addend, rfl, by simpa using hat, by simpa using hat', hdelta⟩
      case isFalse => cases hdelta
    split at h
    case h_1 callOffset symIdx =>
      split at h
      case isTrue hif =>
        obtain ⟨rfl, hat⟩ := hif
        exact .inl ⟨symIdx, rfl, by simpa using hat, h⟩
      case isFalse => exact .inr (hhi20 h)
    case h_2 => exact .inr (hhi20 h)

theorem align_delta {cumulative : ℕ} (h : input.align cumulative rel = some entry) :
    0 < asU64 rel.addend ∧ input.hasDeltaAt rel.offset = false ∧
      hasSurplus (input.paddingStart cumulative rel.offset) (asU64 rel.addend) = true ∧
      entry = (rel.offset,
        surplus (input.paddingStart cumulative rel.offset) (asU64 rel.addend)) := by
  simp only [align] at h
  split at h
  case isTrue => cases h
  case isFalse hif =>
    rw [not_or, Bool.not_eq_true] at hif
    split at h
    case isTrue hsurplus =>
      exact ⟨Nat.pos_of_ne_zero hif.1, hif.2, hsurplus, (Option.some.inj h).symm⟩
    case isFalse => cases h

theorem not_mem_of_hasDeltaAt {offset bytes : ℕ} (h : input.hasDeltaAt offset = false)
    {deltas : SectionRelaxDeltas} (hdeltas : input.existingDeltas = some deltas) :
    (offset, bytes) ∉ deltas.raw := by
  intro hmem
  have htrue := (SectionRelaxDeltas.hasDeltaAt_iff offset).2 ⟨bytes, hmem⟩
  rw [hasDeltaAt, hdeltas, Option.any_some, htrue] at h
  cases h

/-- What is known after a scan has walked `walked`, and deleted `fresh` for it
on top of `base`. -/
structure Walked (base : List (ℕ × ℕ)) (walked : List Relocation) (scan : Scan)
    (fresh : List (ℕ × ℕ)) : Prop where
  rawDeltas : scan.rawDeltas = base ++ fresh
  total : scan.newCumulativeDelta = ((base ++ fresh).map Prod.snd).sum
  spaced : fresh.Pairwise Spaced
  slots : ∀ entry ∈ fresh, ∃ rel ∈ walked, rel.Slot entry ∧
    ∀ deltas, input.existingDeltas = some deltas → ∀ old ∈ deltas.raw, ¬ rel.Slot old
  source : ∀ earlier entry later, fresh = earlier ++ entry :: later →
    entry ∈ input.shortenings walked ∨ ∃ rel ∈ walked, rel.rawType = .align ∧
      input.align (((base ++ earlier).map Prod.snd).sum) rel = some entry
  prevCall : ∀ callOffset symIdx, scan.prevCall = some (callOffset, symIdx) →
    ∃ before rel, walked = before ++ [rel] ∧ (rel.rawType = .call ∨ rel.rawType = .callPlt) ∧
      rel.offset = callOffset ∧ rel.symbol = some symIdx ∧
      ∀ entry ∈ fresh, entry.1 + entry.2 ≤ callOffset
  prevHi20 : ∀ hi20Offset symIdx addend, scan.prevHi20 = some (hi20Offset, symIdx, addend) →
    ∃ before rel, walked = before ++ [rel] ∧ rel.rawType = .hi20 ∧
      rel.offset = hi20Offset ∧ rel.symbol = some symIdx ∧ rel.addend = addend ∧
      ∀ entry ∈ fresh, entry.1 + entry.2 ≤ hi20Offset ∧ entry.1 < hi20Offset

namespace Walked

variable {input} {base : List (ℕ × ℕ)} {walked : List Relocation} {scan scan' : Scan}
  {fresh : List (ℕ × ℕ)}

variable (input) in
theorem start (hraw : scan.rawDeltas = base)
    (htotal : scan.newCumulativeDelta = (base.map Prod.snd).sum) (hcall : scan.prevCall = none)
    (hhi20 : scan.prevHi20 = none) : input.Walked base [] scan [] where
  rawDeltas := by rw [hraw, append_nil]
  total := by rw [htotal, append_nil]
  spaced := List.Pairwise.nil
  slots := by simp
  source := by simp
  prevCall := by simp [hcall]
  prevHi20 := by simp [hhi20]

theorem skip (h : input.Walked base walked scan fresh) (rel : Relocation)
    (hraw : scan'.rawDeltas = scan.rawDeltas)
    (htotal : scan'.newCumulativeDelta = scan.newCumulativeDelta)
    (hcall : ∀ callOffset symIdx, scan'.prevCall = some (callOffset, symIdx) →
      (rel.rawType = .call ∨ rel.rawType = .callPlt) ∧ rel.offset = callOffset ∧
        rel.symbol = some symIdx ∧ ∀ entry ∈ fresh, entry.1 + entry.2 ≤ callOffset)
    (hhi20 : ∀ hi20Offset symIdx addend, scan'.prevHi20 = some (hi20Offset, symIdx, addend) →
      rel.rawType = .hi20 ∧ rel.offset = hi20Offset ∧ rel.symbol = some symIdx ∧
        rel.addend = addend ∧ ∀ entry ∈ fresh,
          entry.1 + entry.2 ≤ hi20Offset ∧ entry.1 < hi20Offset) :
    input.Walked base (walked ++ [rel]) scan' fresh where
  rawDeltas := by rw [hraw, h.rawDeltas]
  total := by rw [htotal, h.total]
  spaced := h.spaced
  slots entry hentry := by
    obtain ⟨rel', hrel', hslot⟩ := h.slots entry hentry
    exact ⟨rel', mem_append_left _ hrel', hslot⟩
  source earlier entry later heq := by
    rcases h.source earlier entry later heq with hmem | ⟨rel', hrel', halign⟩
    · exact .inl (input.mem_shortenings_append _ hmem)
    · exact .inr ⟨rel', mem_append_left _ hrel', halign⟩
  prevCall callOffset symIdx hprev := ⟨walked, rel, rfl, hcall callOffset symIdx hprev⟩
  prevHi20 hi20Offset symIdx addend hprev :=
    ⟨walked, rel, rfl, hhi20 hi20Offset symIdx addend hprev⟩

theorem delete (h : input.Walked base walked scan fresh) (rel : Relocation) (entry : ℕ × ℕ)
    (hraw : scan'.rawDeltas = scan.rawDeltas ++ [entry])
    (htotal : scan'.newCumulativeDelta = scan.newCumulativeDelta + entry.2)
    (hcall : scan'.prevCall = none) (hhi20 : scan'.prevHi20 = none)
    (hspaced : ∀ old ∈ fresh, Spaced old entry) (hslot : ∃ rel' ∈ walked ++ [rel], rel'.Slot entry ∧
      ∀ deltas, input.existingDeltas = some deltas → ∀ old ∈ deltas.raw, ¬ rel'.Slot old)
    (hsource : entry ∈ input.shortenings (walked ++ [rel]) ∨
      ∃ rel' ∈ walked ++ [rel], rel'.rawType = .align ∧
        input.align scan.newCumulativeDelta rel' = some entry) :
    input.Walked base (walked ++ [rel]) scan' (fresh ++ [entry]) where
  rawDeltas := by rw [hraw, h.rawDeltas, append_assoc]
  total := by
    rw [htotal, h.total]
    simp [Nat.add_assoc]
  spaced := List.pairwise_append.2 ⟨h.spaced, List.pairwise_singleton _ _, fun old hold new hnew => by
    rw [List.mem_singleton.1 hnew]
    exact hspaced old hold⟩
  slots new hnew := by
    rcases List.mem_append.1 hnew with hnew | hnew
    · obtain ⟨rel', hrel', hslot'⟩ := h.slots new hnew
      exact ⟨rel', mem_append_left _ hrel', hslot'⟩
    · rw [List.mem_singleton.1 hnew]
      exact hslot
  source earlier new later heq := by
    rcases List.eq_nil_or_concat later with rfl | ⟨later, last, rfl⟩
    · obtain ⟨rfl, hlast⟩ := List.append_inj' heq rfl
      rw [← List.singleton_inj.1 hlast, ← h.total]
      exact hsource
    · rw [List.concat_eq_append, ← cons_append, ← append_assoc] at heq
      rcases h.source earlier new later (List.append_inj' heq rfl).1 with
        hmem | ⟨rel', hrel', halign⟩
      · exact .inl (input.mem_shortenings_append _ hmem)
      · exact .inr ⟨rel', mem_append_left _ hrel', halign⟩
  prevCall := by simp [hcall]
  prevHi20 := by simp [hhi20]

theorem before (h : input.Walked base walked scan fresh) {rel : Relocation}
    (hordered : ∀ rel' ∈ walked, rel'.Before rel) (hrelax : rel.rawType ≠ .relax) :
    ∀ entry ∈ fresh, entry.1 + entry.2 ≤ rel.offset ∧ entry.1 < rel.offset := by
  intro entry hentry
  obtain ⟨rel', hrel', hslot, -⟩ := h.slots entry hentry
  have hle := hslot.le
  rcases hordered rel' hrel' with hbefore | ⟨hcontra, -⟩
  · omega
  · exact absurd hcontra hrelax

end Walked

variable {base fresh : List (ℕ × ℕ)} {scan : Scan} {walked : List Relocation}

theorem walked_scanRelocation (h : input.Walked base walked scan fresh) (rel : Relocation)
    (hordered : ∀ rel' ∈ walked, rel'.Before rel) :
    ∃ fresh', input.Walked base (walked ++ [rel]) (input.scanRelocation scan rel)
      (fresh ++ fresh') := by
  have hskip : ∀ scan' : Scan, scan'.rawDeltas = scan.rawDeltas →
      scan'.newCumulativeDelta = scan.newCumulativeDelta → scan'.prevCall = none →
      scan'.prevHi20 = none →
      ∃ fresh', input.Walked base (walked ++ [rel]) scan' (fresh ++ fresh') := by
    intro scan' hraw htotal hcall hhi20
    refine ⟨[], ?_⟩
    rw [append_nil]
    exact h.skip rel hraw htotal (by simp [hcall]) (by simp [hhi20])
  unfold scanRelocation
  cases hraw : rel.rawType with
  | align =>
    have hbefore := h.before hordered (by simp [hraw])
    cases halign : input.align scan.newCumulativeDelta rel with
    | none => exact hskip _ rfl rfl rfl rfl
    | some entry =>
      obtain ⟨hpos, hnew, -, rfl⟩ := input.align_delta halign
      refine ⟨[_], h.delete rel _ rfl rfl rfl rfl ?_ ?_ ?_⟩
      · intro old hold
        exact ⟨(hbefore old hold).2, (hbefore old hold).1⟩
      · refine ⟨rel, by simp, ?_, ?_⟩
        · simp only [Relocation.Slot, hraw]
          exact ⟨hpos, trivial, surplus_le _ _⟩
        · rintro deltas hdeltas ⟨offset, bytes⟩ hold hslot
          simp only [Relocation.Slot, hraw] at hslot
          rw [hslot.2.1] at hold
          exact input.not_mem_of_hasDeltaAt hnew hdeltas hold
      · exact .inr ⟨rel, by simp, hraw, halign⟩
  | call | callPlt =>
    have hbefore := h.before hordered (by simp [hraw])
    refine ⟨[], ?_⟩
    rw [append_nil]
    refine h.skip rel rfl rfl ?_ (by simp)
    intro callOffset symIdx hprev
    obtain ⟨symIdx', hsym, heq⟩ := Option.map_eq_some_iff.1 hprev
    cases heq
    exact ⟨by simp [hraw], rfl, hsym, fun entry hentry => (hbefore entry hentry).1⟩
  | hi20 =>
    have hbefore := h.before hordered (by simp [hraw])
    refine ⟨[], ?_⟩
    rw [append_nil]
    refine h.skip rel rfl rfl (by simp) ?_
    intro hi20Offset symIdx addend hprev
    obtain ⟨symIdx', hsym, heq⟩ := Option.map_eq_some_iff.1 hprev
    cases heq
    exact ⟨hraw, rfl, hsym, rfl, hbefore⟩
  | other => exact hskip _ rfl rfl rfl rfl
  | relax =>
    have hmargin : ∀ (scan : Scan) margin, (lowerMargin scan margin).rawDeltas = scan.rawDeltas ∧
        (lowerMargin scan margin).newCumulativeDelta = scan.newCumulativeDelta := by
      intro scan margin
      cases margin <;> exact ⟨rfl, rfl⟩
    cases hdelta : (input.relaxPrevious scan.prevCall scan.prevHi20 rel.offset).delta with
    | none =>
      refine hskip _ ?_ ?_ rfl rfl
      · simp only [Scan.forget, hmargin, push, hdelta]
      · simp only [Scan.forget, hmargin, push, hdelta]
    | some entry =>
      have hpush : ∀ scan' : Scan, scan' = push scan (some entry) →
          scan'.rawDeltas = scan.rawDeltas ++ [entry] ∧
            scan'.newCumulativeDelta = scan.newCumulativeDelta + entry.2 := by
        rintro _ rfl
        exact ⟨rfl, rfl⟩
      refine ⟨[entry], h.delete rel entry ?_ ?_ rfl rfl ?_ ?_ (.inl ?_)⟩
      · simp only [Scan.forget, hmargin, hdelta, (hpush _ rfl).1]
      · simp only [Scan.forget, hmargin, hdelta, (hpush _ rfl).2]
      all_goals rcases input.relaxPrevious_delta hdelta with
          ⟨symIdx, hprev, hnew, hcall⟩ | ⟨symIdx, addend, hprev, hnew, hnew', hhi20⟩
      · obtain ⟨-, -, -, -, -, -, hbefore⟩ := h.prevCall _ _ hprev
        intro old hold
        have := hbefore old hold
        rw [input.relaxCall_delta hcall]
        exact ⟨by simp only; omega, by simp only; omega⟩
      · obtain ⟨-, -, -, -, -, -, -, hbefore⟩ := h.prevHi20 _ _ _ hprev
        intro old hold
        have := hbefore old hold
        rcases input.relaxHi20_delta hhi20 with rfl | rfl
        · exact ⟨by simp only; omega, by simp only; omega⟩
        · exact ⟨by simp only; omega, by simp only; omega⟩
      · obtain ⟨before, prev, rfl, htype, hoff, hsym, -⟩ := h.prevCall _ _ hprev
        refine ⟨prev, by simp, ?_, ?_⟩
        · rcases htype with htype | htype <;>
          · simp only [Relocation.Slot, htype, hoff]
            exact input.relaxCall_delta hcall
        · intro deltas hdeltas old hold hslot
          have hold' : old = (rel.offset + 4, 4) := by
            rcases htype with htype | htype <;>
            · simpa only [Relocation.Slot, htype, hoff] using hslot
          exact input.not_mem_of_hasDeltaAt hnew hdeltas (hold' ▸ hold)
      · obtain ⟨before, prev, rfl, htype, hoff, hsym, -⟩ := h.prevHi20 _ _ _ hprev
        refine ⟨prev, by simp, ?_, ?_⟩
        · simp only [Relocation.Slot, htype, hoff]
          exact input.relaxHi20_delta hhi20
        · intro deltas hdeltas old hold hslot
          simp only [Relocation.Slot, htype, hoff] at hslot
          rcases hslot with rfl | rfl
          · exact input.not_mem_of_hasDeltaAt hnew hdeltas hold
          · exact input.not_mem_of_hasDeltaAt hnew' hdeltas hold
      · obtain ⟨before, prev, rfl, htype, hoff, hsym, -⟩ := h.prevCall _ _ hprev
        rw [append_assoc]
        refine input.mem_shortenings ?_ before []
        rw [shortening, if_pos ⟨hraw, hoff.symm⟩, hsym, hoff]
        rcases htype with htype | htype <;> simp only [htype, hnew, hcall] <;> rfl
      · obtain ⟨before, prev, rfl, htype, hoff, hsym, haddend, -⟩ := h.prevHi20 _ _ _ hprev
        rw [append_assoc]
        refine input.mem_shortenings ?_ before []
        rw [shortening, if_pos ⟨hraw, hoff.symm⟩, hsym, hoff, htype, haddend]
        simp only [hnew, hnew', hhi20]
        rfl

theorem walked_foldl (h : input.Walked base walked scan fresh) (relocations : List Relocation)
    (hordered : (walked ++ relocations).Pairwise Relocation.Before) :
    ∃ fresh', input.Walked base (walked ++ relocations)
      (relocations.foldl input.scanRelocation scan) (fresh ++ fresh') := by
  induction relocations generalizing walked scan fresh with
  | nil => exact ⟨[], by simpa using h⟩
  | cons rel relocations ih =>
    have hrel : ∀ rel' ∈ walked, rel'.Before rel := fun rel' hrel' =>
      (List.pairwise_append.1 hordered).2.2 rel' hrel' rel List.mem_cons_self
    obtain ⟨fresh₁, h₁⟩ := input.walked_scanRelocation h rel hrel
    obtain ⟨fresh₂, h₂⟩ := ih h₁ (by rwa [append_assoc])
    refine ⟨fresh₁ ++ fresh₂, ?_⟩
    rw [append_assoc] at h₂
    rw [← append_assoc]
    exact h₂

theorem walked_scanRelocations {relocations : List Relocation}
    (hordered : relocations.Pairwise Relocation.Before) :
    input.Walked [] relocations (input.scanRelocations relocations)
      (input.scanRelocations relocations).rawDeltas := by
  have hstart : input.Walked [] [] {} [] := Walked.start input rfl rfl rfl rfl
  obtain ⟨fresh, h⟩ := input.walked_foldl hstart relocations hordered
  have hraw := h.rawDeltas
  rw [nil_append] at hraw h
  rw [nil_append] at h
  rw [scanRelocations, hraw]
  exact h

theorem scanRelocations_at_align {before after : List Relocation}
    (hordered : (before ++ rel :: after).Pairwise Relocation.Before)
    (htype : rel.rawType = .align) :
    ∃ later, (input.scanRelocations (before ++ rel :: after)).rawDeltas =
        (input.scanRelocations before).rawDeltas ++
          (input.align (((input.scanRelocations before).rawDeltas.map Prod.snd).sum) rel).toList ++
            later ∧
      ∀ entry ∈ later, ∃ rel' ∈ after, rel'.Slot entry := by
  have hbefore := input.walked_scanRelocations (List.pairwise_append.1 hordered).1
  have hafter : after.Pairwise Relocation.Before :=
    (List.pairwise_cons.1 (List.pairwise_append.1 hordered).2.1).2
  set scan := input.scanRelocations before with hscan
  have htotal : scan.newCumulativeDelta = (scan.rawDeltas.map Prod.snd).sum := by
    simpa using hbefore.total
  have hnext : ∃ here, (input.scanRelocation scan rel).rawDeltas = scan.rawDeltas ++ here ∧
      (input.scanRelocation scan rel).newCumulativeDelta =
        ((scan.rawDeltas ++ here).map Prod.snd).sum ∧
      here = (input.align ((scan.rawDeltas.map Prod.snd).sum) rel).toList := by
    rw [← htotal]
    simp only [scanRelocation, htype, Scan.forget]
    cases halign : input.align scan.newCumulativeDelta rel with
    | none => exact ⟨[], by simp [push], by simp [push, htotal], rfl⟩
    | some entry => exact ⟨[entry], by simp [push], by simp [push, htotal], rfl⟩
  obtain ⟨here, hraw, hsum, rfl⟩ := hnext
  have hstart := Walked.start input hraw hsum (by simp [scanRelocation, htype, Scan.forget])
    (by simp [scanRelocation, htype, Scan.forget])
  obtain ⟨later, hlater⟩ := input.walked_foldl hstart after (by simpa using hafter)
  refine ⟨later, ?_, ?_⟩
  · rw [scanRelocations, List.foldl_append]
    have hlast := hlater.rawDeltas
    exact hlast
  · intro entry hentry
    obtain ⟨rel', hrel', hslot, -⟩ := hlater.slots entry (by simpa using hentry)
    exact ⟨rel', by simpa using hrel', hslot⟩

end ScanInput

end Sld.Layout
