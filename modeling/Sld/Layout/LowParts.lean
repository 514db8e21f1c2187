/-
# `Layout.LowParts` — low parts whose upper part was deleted

When a `lui` is deleted, the instructions that use its register have to use
`x0` instead, and nothing else may change.  The writer knows only where
bytes were deleted:

    the `lui` itself   at its place in the output is the instruction after it,
                       and that instruction gets the immediate of the `lui`
    a low part         is rewritten if four bytes were deleted right before it,
                       for whatever reason, and its two registers are the same

`address_parts_iff` says of which sections the result is nevertheless right.
-/
import Sld.Layout.RelaxedCalls

namespace Sld.Layout.AddressParts

open RiscVInstruction (bit cluiType uType)

/-! ## Sections with deletions -/

/-- A section of code, and what was deleted from it: each `lui` with a
relocation is kept, deleted or shortened, and each instruction that adds a
low part is kept. -/
structure ShortenedSection where
  inputData : List UInt8
  deltas : SectionRelaxDeltas
  deletions : List (ℕ × ℕ)
  keeps : deltas.Keeps deletions
  relocations : List PartRelocation
  /-- Which `lui` loads the register that an instruction uses. -/
  feeds : ℕ → Option ℕ
  even : ∀ entry ∈ deletions, 0 < entry.2 ∧ 2 ∣ entry.1 ∧ 2 ∣ entry.2
  ordered : relocations.Pairwise fun a b =>
    a.rawType ≠ .relax → b.rawType ≠ .relax → a.offset + 4 ≤ b.offset
  /-- The instructions are not compressed ones, so that their lowest bit is set. -/
  instruction : ∀ rel ∈ relocations, rel.rawType ≠ .relax →
    2 ∣ rel.offset ∧ rel.offset + 4 ≤ inputData.length ∧
      bitsOf inputData (8 * rel.offset + 0) = true
  lower : ∀ rel ∈ relocations, rel.rawType = .lo12I ∨ rel.rawType = .lo12S →
    Kept deletions rel.offset 4
  /-- Only a `lui` of another register than `x0` is shortened. -/
  upper : ∀ rel ∈ relocations, rel.rawType = .hi20 → Kept deletions rel.offset 4 ∨
    (rel.offset, 4) ∈ deletions ∨
    (Kept deletions rel.offset 2 ∧ (rel.offset + 2, 2) ∈ deletions ∧
      ∃ k < 5, bitsOf inputData (8 * rel.offset + (7 + k)) = true)

namespace ShortenedSection

variable (sec : ShortenedSection)

/-- A `lui` that is deleted. -/
structure Deletes (lui : PartRelocation) : Prop where
  mem : lui ∈ sec.relocations
  rawType : lui.rawType = .hi20
  deleted : (lui.offset, 4) ∈ sec.deletions

/-- A `lui` that is shortened. -/
structure Shortens (lui : PartRelocation) : Prop where
  mem : lui ∈ sec.relocations
  rawType : lui.rawType = .hi20
  kept : Kept sec.deletions lui.offset 2
  deleted : (lui.offset + 2, 2) ∈ sec.deletions

/-- An instruction that is kept as long as it is. -/
structure Intact (rel : PartRelocation) : Prop where
  mem : rel ∈ sec.relocations
  rawType : rel.rawType ≠ .relax
  kept : Kept sec.deletions rel.offset 4

/-- The instruction uses the register of a deleted `lui`. -/
def Fed (rel : PartRelocation) : Prop :=
  ∃ lui, sec.Deletes lui ∧ sec.feeds rel.offset = some lui.offset

/-- The input offset that the writer takes for that of a deleted `lui`. -/
def next (lui : PartRelocation) : ℕ :=
  sec.deltas.outputToInputOffset (sec.deltas.inputToOutputOffset lui.offset)

def place (rel : PartRelocation) : ℕ := sec.deltas.inputToOutputOffset rel.offset

def written : Bits := writeSection sec.inputData sec.deltas sec.relocations

/-- Bits 12 to 14 -/
def function3 (offset : ℕ) (out : Bits) : List Bool := bitField (8 * offset + 12) 3 out

/-- Bits 20 to 24 -/
def rs2 (offset : ℕ) (out : Bits) : List Bool := bitField (8 * offset + 20) 5 out

/-- What the writer looks for before a low part. -/
def TakenForDeleted (rel : PartRelocation) : Prop :=
  rel.offset ≥ 4 ∧ sec.deltas.deltaBytesAt (rel.offset - 4) = 4 ∧
    rd rel.offset (bitsOf sec.inputData) = rs1 rel.offset (bitsOf sec.inputData)

/-! ## What is claimed, and when it holds -/

open Classical in
/-- The instruction as it should be: with its immediate, and with `x0` for the
register that no `lui` loads any more. -/
noncomputable def lowPart (insn : RiscVInstruction) (rel : PartRelocation) : Bits :=
  insn.writeToValue rel.value rel.offset
    (if sec.Fed rel then
      RelaxationKind.lo12Rs1ToZero.apply rel.offset (bitsOf sec.inputData)
    else bitsOf sec.inputData)

/-- The addresses that the instructions of the section compute are the same. -/
structure Unchanged : Prop where
  /-- A deleted `lui` would load zero. -/
  zero : ∀ lui, sec.Deletes lui → hi20IsZero lui.value = true
  /-- A shortened `lui` loads the same. -/
  fits : ∀ lui, sec.Shortens lui → hi20FitsClui lui.value = true
  shortened : ∀ lui, sec.Shortens lui → ∀ j < 16, sec.written (8 * sec.place lui + j) =
    RiscVInstruction.cluiType.writeToValue lui.value lui.offset
      (RelaxationKind.hi20ToCLui.apply lui.offset (bitsOf sec.inputData)) (8 * lui.offset + j)
  loaded : ∀ lui, sec.Intact lui → lui.rawType = .hi20 → ∀ j < 32,
    sec.written (8 * sec.place lui + j) =
      RiscVInstruction.uType.writeToValue lui.value lui.offset (bitsOf sec.inputData)
        (8 * lui.offset + j)
  lowPart : ∀ rel insn, sec.Intact rel → rel.rawType ≠ .hi20 →
    rel.rawType.instruction = some insn → ∀ j < 32,
    sec.written (8 * sec.place rel + j) = sec.lowPart insn rel (8 * rel.offset + j)

/-- Where deleting does no harm. -/
structure Harmless : Prop where
  zero : ∀ lui, sec.Deletes lui → hi20IsZero lui.value = true
  fits : ∀ lui, sec.Shortens lui → hi20FitsClui lui.value = true
  /-- No compressed instruction is between a deleted `lui` and an instruction
  with a relocation. -/
  clear : ∀ lui rel, sec.Deletes lui → sec.Intact rel ∨ sec.Shortens rel →
    sec.next lui + 2 ≠ rel.offset
  /-- An instruction right after a deleted `lui` uses the register of one (or
  `x0`), and has no bits where the immediate of a `lui` is. -/
  behind : ∀ lui rel, sec.Deletes lui → sec.Intact rel → rel.rawType ≠ .hi20 →
    sec.next lui = rel.offset →
    (sec.Fed rel ∨ rs1 rel.offset (bitsOf sec.inputData) = List.replicate 5 false) ∧
    function3 rel.offset (bitsOf sec.inputData) = List.replicate 3 false ∧
    (rel.rawType = .lo12S → rs2 rel.offset (bitsOf sec.inputData) = List.replicate 5 false)
  /-- Another one uses it exactly if it is taken to (or uses `x0`). -/
  elsewhere : ∀ rel, sec.Intact rel → rel.rawType ≠ .hi20 →
    (∀ lui, sec.Deletes lui → sec.next lui ≠ rel.offset) →
    rs1 rel.offset (bitsOf sec.inputData) = List.replicate 5 false ∨
      (sec.Fed rel ↔ sec.TakenForDeleted rel)

/-! ## Places -/

section

variable {sec} {rel lui other : PartRelocation}

variable {offset : ℕ}

theorem deleted_even (hoff : 2 ∣ offset) :
    Deleted sec.deletions (offset + 1) ↔ Deleted sec.deletions offset := by
  constructor
  · rintro ⟨entry, hentry, hstart, hend⟩
    obtain ⟨-, hfirst, hlen⟩ := sec.even entry hentry
    exact ⟨entry, hentry, by omega, by omega⟩
  · rintro ⟨entry, hentry, hstart, hend⟩
    obtain ⟨-, hfirst, hlen⟩ := sec.even entry hentry
    exact ⟨entry, hentry, by omega, by omega⟩

theorem kept_two (hoff : 2 ∣ offset) (hkept : ¬ Deleted sec.deletions offset) :
    Kept sec.deletions offset 2 := by
  intro byte hle hlt
  obtain rfl | rfl : byte = offset ∨ byte = offset + 1 := by omega
  · exact hkept
  · exact mt (deleted_even hoff).1 hkept

theorem hasDeltaAt_of_not_deleted (hkept : ¬ Deleted sec.deletions offset) :
    sec.deltas.hasDeltaAt offset = false := by
  by_contra h
  obtain ⟨bytes, hentry⟩ := (exists_of_hasDeltaAt sec.keeps).1 (by simpa using h)
  exact hkept ⟨_, hentry, Nat.le_refl _, Nat.lt_add_of_pos_right (sec.even _ hentry).1⟩

theorem cases_of_mem (hmem : rel ∈ sec.relocations) (hrelax : rel.rawType ≠ .relax) :
    sec.Intact rel ∨ sec.Shortens rel ∨ sec.Deletes rel := by
  rcases htype : rel.rawType with _ | _ | _ | _
  · rcases sec.upper rel hmem htype with hkept | hdel | ⟨hkept, hdel, -⟩
    · exact .inl ⟨hmem, hrelax, hkept⟩
    · exact .inr (.inr ⟨hmem, htype, hdel⟩)
    · exact .inr (.inl ⟨hmem, htype, hkept, hdel⟩)
  · exact .inl ⟨hmem, hrelax, sec.lower rel hmem (.inl htype)⟩
  · exact .inl ⟨hmem, hrelax, sec.lower rel hmem (.inr htype)⟩
  · exact absurd htype hrelax

theorem Deletes.relax (h : sec.Deletes lui) : lui.rawType ≠ .relax := by
  rw [h.rawType]
  decide

theorem Shortens.relax (h : sec.Shortens lui) : lui.rawType ≠ .relax := by
  rw [h.rawType]
  decide

theorem not_strictlyInside (hmem : rel ∈ sec.relocations) (hrelax : rel.rawType ≠ .relax) :
    ¬ StrictlyInside sec.deletions rel.offset := by
  rcases cases_of_mem hmem hrelax with h | h | h
  · exact not_strictlyInside_of_not_deleted (h.kept _ (Nat.le_refl _) (by omega))
  · exact not_strictlyInside_of_not_deleted (h.kept _ (Nat.le_refl _) (by omega))
  · exact start_not_strictlyInside sec.keeps.apart h.deleted

theorem place_eq (hmem : rel ∈ sec.relocations) (hrelax : rel.rawType ≠ .relax) :
    sec.place rel = keptBefore sec.deletions rel.offset :=
  sec.keeps.inputToOutputOffset_eq (not_strictlyInside hmem hrelax)

theorem outputToInput_place (hmem : rel ∈ sec.relocations) (hrelax : rel.rawType ≠ .relax)
    (hkept : ¬ Deleted sec.deletions rel.offset) :
    sec.deltas.outputToInputOffset (sec.place rel) = rel.offset := by
  rw [place_eq hmem hrelax, sec.keeps.outputToInputOffset_eq hkept]

theorem hasDeltaAt_outputToInput (offset : ℕ) : sec.deltas.hasDeltaAt
      (sec.deltas.outputToInputOffset (keptBefore sec.deletions offset)) = false := by
  obtain ⟨next, -, hkept, hsame, -⟩ := exists_next sec.deletions offset
  rw [← hsame, sec.keeps.outputToInputOffset_eq hkept]
  exact hasDeltaAt_of_not_deleted hkept

/-- The first byte kept after a deleted `lui`. -/
structure Follows (lui : PartRelocation) (next : ℕ) : Prop where
  le : lui.offset + 4 ≤ next
  even : 2 ∣ next
  kept : ¬ Deleted sec.deletions next
  same : keptBefore sec.deletions next = keptBefore sec.deletions lui.offset
  deleted : ∀ byte, lui.offset ≤ byte → byte < next → Deleted sec.deletions byte

theorem Deletes.follows (h : sec.Deletes lui) : @Follows sec lui (sec.next lui) := by
  obtain ⟨next, hle, hkept, hsame, hdel⟩ := exists_next sec.deletions lui.offset
  have hnext : sec.next lui = next := by
    show sec.deltas.outputToInputOffset (sec.place lui) = next
    rw [place_eq h.mem h.relax, ← hsame, sec.keeps.outputToInputOffset_eq hkept]
  rw [hnext]
  have hfour : lui.offset + 4 ≤ next := by
    by_contra hlt
    exact hkept ⟨_, h.deleted, hle, by omega⟩
  refine ⟨hfour, ?_, hkept, hsame, hdel⟩
  -- an odd byte is kept together with the one before it
  rcases Nat.even_or_odd' next with ⟨half, heven | hodd⟩
  · omega
  · have hbefore := hdel (2 * half) (by omega) (by omega)
    exact absurd ((deleted_even ⟨half, rfl⟩).2 hbefore) (by rwa [← hodd])

/-- Which bits of an instruction the immediate of a deleted `lui` is written to. -/
def Hits (sec : ShortenedSection) (lui rel : PartRelocation) (j : ℕ) : Prop :=
  (sec.next lui = rel.offset ∧ 12 ≤ j) ∨ (sec.next lui + 2 = rel.offset ∧ j < 16)

end

/-! ## One relocation -/

section

variable {sec} {rel lui : PartRelocation} {size : ℕ} {writing : Writing}

/-- What a relocation of an upper part makes of the section at an offset. -/
def writeUpper (sec : ShortenedSection) (rel : PartRelocation) (out : Bits) : Bits :=
  if sec.deltas.hasDeltaAt (sec.next rel + 2) then
    RiscVInstruction.cluiType.writeToValue rel.value (sec.place rel)
      (RelaxationKind.hi20ToCLui.apply (sec.place rel) out)
  else RiscVInstruction.uType.writeToValue rel.value (sec.place rel) out

theorem applyRelocation_upper (hmem : rel ∈ sec.relocations) (htype : rel.rawType = .hi20)
    (hskip : writing.skipNextRelocation = false) :
    applyRelocation sec.deltas size writing rel = ⟨sec.writeUpper rel writing.out, false⟩ := by
  have hrelax : rel.rawType ≠ .relax := by
    rw [htype]
    decide
  have hnone : sec.deltas.hasDeltaAt
      (sec.deltas.outputToInputOffset (sec.deltas.inputToOutputOffset rel.offset)) = false := by
    show sec.deltas.hasDeltaAt (sec.deltas.outputToInputOffset (sec.place rel)) = false
    rw [place_eq hmem hrelax]
    exact hasDeltaAt_outputToInput _
  simp only [applyRelocation, hskip, newRelaxation, htype, hnone]
  rcases hshort : sec.deltas.hasDeltaAt (sec.next rel + 2)
  · have hshort' : sec.deltas.hasDeltaAt (sec.deltas.outputToInputOffset
        (sec.deltas.inputToOutputOffset rel.offset) + 2) = false := hshort
    simp [hshort', writeUpper, hshort, PartType.instruction, place]
  · have hshort' : sec.deltas.hasDeltaAt (sec.deltas.outputToInputOffset
        (sec.deltas.inputToOutputOffset rel.offset) + 2) = true := hshort
    simp [hshort', writeUpper, hshort, place]

theorem applyRelocation_relax (htype : rel.rawType = .relax)
    (hskip : writing.skipNextRelocation = false) :
    applyRelocation sec.deltas size writing rel = writing := by
  obtain ⟨out, skip⟩ := writing
  obtain rfl : skip = false := hskip
  simp [applyRelocation, newRelaxation, htype, PartType.instruction]

/-- The low part is taken to follow a deleted `lui`. -/
def Rewrites (sec : ShortenedSection) (size : ℕ) (rel : PartRelocation) (out : Bits) : Prop :=
  (rel.offset ≥ 4 ∧ sec.deltas.deltaBytesAt (rel.offset - 4) = 4) ∧ sec.place rel + 4 ≤ size ∧
    rd (sec.place rel) out = rs1 (sec.place rel) out

variable {insn : RiscVInstruction}

theorem lower_of_instruction (htype : rel.rawType ≠ .hi20)
    (hinsn : rel.rawType.instruction = some insn) :
    rel.rawType = .lo12I ∧ insn = .iType ∨ rel.rawType = .lo12S ∧ insn = .sType := by
  rcases hraw : rel.rawType with _ | _ | _ | _ <;> simp_all [PartType.instruction]

theorem newRelaxation_lower {rawType : PartType} {offset : ℕ} {out : Bits}
    (htype : rawType = .lo12I ∨ rawType = .lo12S) :
    newRelaxation sec.deltas rawType size offset out =
      if (sec.deltas.outputToInputOffset offset ≥ 4 ∧
          sec.deltas.deltaBytesAt (sec.deltas.outputToInputOffset offset - 4) = 4) ∧
          offset + 4 ≤ size ∧ rd offset out = rs1 offset out
      then some .lo12Rs1ToZero else none := by
  rcases htype with rfl | rfl <;> simp only [newRelaxation, ite_and]

open Classical in
theorem applyRelocation_lower (h : sec.Intact rel)
    (htype : rel.rawType ≠ .hi20) (hinsn : rel.rawType.instruction = some insn)
    (hskip : writing.skipNextRelocation = false) :
    applyRelocation sec.deltas size writing rel = ⟨insn.writeToValue rel.value (sec.place rel)
        (if sec.Rewrites size rel writing.out then
          RelaxationKind.lo12Rs1ToZero.apply (sec.place rel) writing.out
        else writing.out), false⟩ := by
  have hplace := outputToInput_place h.mem h.rawType (h.kept _ (Nat.le_refl _) (by omega))
  have hlower : rel.rawType = .lo12I ∨ rel.rawType = .lo12S :=
    (lower_of_instruction htype hinsn).imp And.left And.left
  have hnew : newRelaxation sec.deltas rel.rawType size (sec.place rel) writing.out =
      if sec.Rewrites size rel writing.out then some .lo12Rs1ToZero else none := by
    rw [newRelaxation_lower hlower, hplace]
    exact if_congr Iff.rfl rfl rfl
  have happly : applyRelocation sec.deltas size writing rel =
      if sec.Rewrites size rel writing.out then
        ⟨insn.writeToValue rel.value (sec.place rel)
          (RelaxationKind.lo12Rs1ToZero.apply (sec.place rel) writing.out), false⟩
      else ⟨insn.writeToValue rel.value (sec.place rel) writing.out, false⟩ := by
    simp only [applyRelocation, hskip, Bool.false_eq_true, if_false]
    rw [show sec.deltas.inputToOutputOffset rel.offset = sec.place rel from rfl, hnew]
    split_ifs <;> simp [hinsn]
  rw [happly]
  split_ifs <;> rfl

theorem Intact.exists_instruction (h : sec.Intact rel) :
    ∃ insn, rel.rawType.instruction = some insn := by
  cases hraw : rel.rawType with
  | relax => exact absurd hraw h.rawType
  | _ => exact ⟨_, rfl⟩

/-- Upper part, or low part of an instruction that is kept, or none. -/
theorem part_cases (hmem : rel ∈ sec.relocations) : rel.rawType = .hi20 ∨ rel.rawType = .relax ∨
    rel.rawType ≠ .hi20 ∧ sec.Intact rel ∧ ∃ insn, rel.rawType.instruction = some insn := by
  by_cases hupper : rel.rawType = .hi20
  · exact .inl hupper
  by_cases hrelax : rel.rawType = .relax
  · exact .inr (.inl hrelax)
  · have hlower : rel.rawType = .lo12I ∨ rel.rawType = .lo12S := by
      cases htype : rel.rawType <;> simp_all
    have hrel : sec.Intact rel := ⟨hmem, hrelax, sec.lower rel hmem hlower⟩
    exact .inr (.inr ⟨hupper, hrel, hrel.exists_instruction⟩)

theorem skip_applyRelocation (hmem : rel ∈ sec.relocations)
    (hskip : writing.skipNextRelocation = false) :
    (applyRelocation sec.deltas size writing rel).skipNextRelocation = false := by
  rcases part_cases hmem with hupper | hrelax | ⟨htype, hrel, insn, hinsn⟩
  · rw [applyRelocation_upper hmem hupper hskip]
  · rw [applyRelocation_relax hrelax hskip, hskip]
  · rw [applyRelocation_lower hrel htype hinsn hskip]

theorem applyRelocation_outside (hmem : rel ∈ sec.relocations)
    (hskip : writing.skipNextRelocation = false) {i : ℕ}
    (hi : i < 8 * sec.place rel ∨ 8 * sec.place rel + 32 ≤ i) :
    (applyRelocation sec.deltas size writing rel).out i = writing.out i := by
  rcases part_cases hmem with hupper | hrelax | ⟨htype, hrel, insn, hinsn⟩
  · rw [applyRelocation_upper hmem hupper hskip]
    simp only [writeUpper]
    split_ifs
    · rcases hi with hi | hi
      · exact clui_below hi
      · exact clui_above (by omega)
    · exact hi.elim writeToValue_below writeToValue_above
  · rw [applyRelocation_relax hrelax hskip]
  · rw [applyRelocation_lower hrel htype hinsn hskip]
    have hwrite : ∀ out : Bits, insn.writeToValue rel.value (sec.place rel) out i = out i :=
      fun out => hi.elim writeToValue_below writeToValue_above
    refine (hwrite _).trans ?_
    split_ifs
    · exact lo12Rs1ToZero_outside hi
    · rfl

theorem applyRelocation_above (hmem : rel ∈ sec.relocations) (htype : rel.rawType = .hi20)
    (hskip : writing.skipNextRelocation = false)
    (hshort : sec.deltas.hasDeltaAt (sec.next rel + 2) = true) {i : ℕ}
    (hi : 8 * sec.place rel + 16 ≤ i) :
    (applyRelocation sec.deltas size writing rel).out i = writing.out i := by
  rw [applyRelocation_upper hmem htype hskip]
  simp only [writeUpper, hshort]
  exact clui_above hi

end

/-! ## The instructions before one -/

section

variable {sec} {rel earlier : PartRelocation} {size : ℕ} {writing : Writing} {j : ℕ}

/-- The bits of an instruction that are followed until its own relocation: of
a shortened one only its register. -/
def Followed (sec : ShortenedSection) (rel : PartRelocation) (j : ℕ) : Prop :=
  sec.Intact rel ∧ j < 32 ∨ sec.Shortens rel ∧ 7 ≤ j ∧ j < 12

section

variable (h : sec.Followed rel j)

include h

theorem Followed.mem : rel ∈ sec.relocations :=
  h.elim (fun h => h.1.mem) fun h => h.1.mem

theorem Followed.relax : rel.rawType ≠ .relax :=
  h.elim (fun h => h.1.rawType) fun h => h.1.relax

theorem Followed.kept : Kept sec.deletions rel.offset 2 := by
  rcases h with ⟨h, -⟩ | ⟨h, -⟩
  · exact fun byte hle hlt => h.kept byte hle (by omega)
  · exact h.kept

theorem Followed.even : 2 ∣ rel.offset :=
  (sec.instruction rel h.mem h.relax).1

theorem Followed.place_eq : sec.place rel = keptBefore sec.deletions rel.offset :=
  ShortenedSection.place_eq h.mem h.relax

end

theorem next_of_kept (hmem : rel ∈ sec.relocations) (hrelax : rel.rawType ≠ .relax)
    (hkept : ¬ Deleted sec.deletions rel.offset) : sec.next rel = rel.offset :=
  outputToInput_place hmem hrelax hkept

theorem hasDeltaAt_of_shortens (h : sec.Shortens rel) :
    sec.deltas.hasDeltaAt (rel.offset + 2) = true :=
  (exists_of_hasDeltaAt sec.keeps).2 ⟨2, h.deleted⟩

theorem applyRelocation_hit (hzero : ∀ lui, sec.Deletes lui → hi20IsZero lui.value = true)
    (h : sec.Followed rel j) (hdeletes : sec.Deletes earlier) (hhits : Hits sec earlier rel j)
    (hskip : writing.skipNextRelocation = false) :
    (applyRelocation sec.deltas size writing earlier).out (8 * sec.place rel + j) = false := by
  have hfollows := hdeletes.follows
  have hplace : sec.place earlier = keptBefore sec.deletions (sec.next earlier) :=
    (ShortenedSection.place_eq hdeletes.mem hdeletes.relax).trans hfollows.same.symm
  rw [applyRelocation_upper hdeletes.mem hdeletes.rawType hskip]
  show sec.writeUpper earlier writing.out (8 * sec.place rel + j) = false
  rcases hhits with ⟨hnext, hj⟩ | ⟨hnext, hj⟩
  · rcases h with ⟨h, hlt⟩ | ⟨h, -, hlt⟩
    · have hnone : sec.deltas.hasDeltaAt (sec.next earlier + 2) = false :=
        hasDeltaAt_of_not_deleted (h.kept _ (by omega) (by omega))
      have hsame : sec.place earlier = sec.place rel := by
        rw [hplace, hnext, ShortenedSection.place_eq h.mem h.rawType]
      rw [writeUpper, hnone, if_neg Bool.false_ne_true, hsame, writeToValue_at,
        bit, if_pos ⟨hj, hlt⟩]
      exact testBit_hi20_of_isZero (hzero earlier hdeletes) (by omega)
    · omega
  · have hkept : ¬ Deleted sec.deletions rel.offset := h.kept _ (Nat.le_refl _) (by omega)
    have hnone : sec.deltas.hasDeltaAt (sec.next earlier + 2) = false := by
      rw [hnext]
      exact hasDeltaAt_of_not_deleted hkept
    have hafter : sec.place rel = sec.place earlier + 2 := by
      rw [h.place_eq, hplace, ← hnext]
      exact (kept_two hfollows.even hfollows.kept).keptBefore_add (Nat.le_refl _)
    have hbit : 8 * sec.place rel + j = 8 * sec.place earlier + (16 + j) := by omega
    rw [writeUpper, hnone, if_neg Bool.false_ne_true, hbit, writeToValue_at,
      bit, if_pos ⟨by omega, by omega⟩]
    exact testBit_hi20_of_isZero (hzero earlier hdeletes) (by omega)

theorem applyRelocation_free (h : sec.Followed rel j) (hmem : earlier ∈ sec.relocations)
    (hbefore : earlier.rawType ≠ .relax → earlier.offset + 4 ≤ rel.offset)
    (hfree : ¬ (sec.Deletes earlier ∧ Hits sec earlier rel j))
    (hskip : writing.skipNextRelocation = false) :
    (applyRelocation sec.deltas size writing earlier).out (8 * sec.place rel + j) =
      writing.out (8 * sec.place rel + j) := by
  have hkept : ¬ Deleted sec.deletions rel.offset := h.kept _ (Nat.le_refl _) (by omega)
  by_cases hrelax : earlier.rawType = .relax
  · rw [applyRelocation_relax hrelax hskip]
  have hle := hbefore hrelax
  rcases cases_of_mem hmem hrelax with hintact | hshortens | hdeletes
  · have := hintact.kept.keptBefore_le hle
    rw [← h.place_eq, ← ShortenedSection.place_eq hmem hrelax] at this
    exact applyRelocation_outside hmem hskip (.inr (by omega))
  · have := hshortens.kept.keptBefore_le (show earlier.offset + 2 ≤ rel.offset by omega)
    rw [← h.place_eq, ← ShortenedSection.place_eq hmem hrelax] at this
    have hnext : sec.next earlier = earlier.offset :=
      next_of_kept hmem hrelax (hshortens.kept _ (Nat.le_refl _) (by omega))
    refine applyRelocation_above hmem hshortens.rawType hskip ?_ (by omega)
    rw [hnext]
    exact hasDeltaAt_of_shortens hshortens
  · have hfollows := hdeletes.follows
    have hplace : sec.place earlier = keptBefore sec.deletions (sec.next earlier) :=
      (ShortenedSection.place_eq hmem hrelax).trans hfollows.same.symm
    have hnext : sec.next earlier ≤ rel.offset := by
      by_contra hlt
      exact hkept (hfollows.deleted _ (by omega) (by omega))
    have heven := h.even
    have hfollowsEven := hfollows.even
    have htwo : Kept sec.deletions (sec.next earlier) 2 := kept_two hfollowsEven hfollows.kept
    have hnot : ¬ Hits sec earlier rel j := fun hhits => hfree ⟨hdeletes, hhits⟩
    rcases Nat.eq_or_lt_of_le hnext with heq | hlt
    · -- the instruction comes to the place of the `lui`
      have hlow : j < 12 := Nat.lt_of_not_le fun hge => hnot (.inl ⟨heq, hge⟩)
      have hsame : sec.place earlier = sec.place rel := by
        rw [hplace, heq, h.place_eq]
      rw [applyRelocation_upper hmem hdeletes.rawType hskip]
      show sec.writeUpper earlier writing.out (8 * sec.place rel + j) = _
      rw [writeUpper, hsame]
      rcases h with ⟨h, -⟩ | ⟨h, hge, -⟩
      · have hnone : sec.deltas.hasDeltaAt (sec.next earlier + 2) = false :=
          hasDeltaAt_of_not_deleted (h.kept _ (by omega) (by omega))
        rw [hnone, if_neg Bool.false_ne_true, writeToValue_at, bit,
          if_neg (by omega)]
      · have hsome : sec.deltas.hasDeltaAt (sec.next earlier + 2) = true := by
          rw [heq]
          exact hasDeltaAt_of_shortens h
        rw [hsome, if_pos rfl, writeToValue_at, hi20ToCLui_at, bit,
          if_neg (by omega), if_neg (by omega), if_neg (by omega), if_neg (by omega)]
    rcases Nat.eq_or_lt_of_le (show sec.next earlier + 2 ≤ rel.offset by omega) with heq | hlt
    · have hhigh : 16 ≤ j := Nat.le_of_not_lt fun hlt => hnot (.inr ⟨heq, hlt⟩)
      have := htwo.keptBefore_le (Nat.le_of_eq heq)
      rw [← h.place_eq] at this
      exact applyRelocation_outside hmem hskip (.inr (by omega))
    · by_cases hbyte : Deleted sec.deletions (sec.next earlier + 2)
      · -- a deletion starts two bytes further
        obtain ⟨entry, hentry, hstart, hend⟩ := hbyte
        have hfirst : entry.1 = sec.next earlier + 2 := by
          by_contra hne
          exact htwo (sec.next earlier + 1) (by omega) (by omega)
            ⟨entry, hentry, by omega, by omega⟩
        have hsome : sec.deltas.hasDeltaAt (sec.next earlier + 2) = true :=
          (exists_of_hasDeltaAt sec.keeps).2 ⟨entry.2, by rwa [← hfirst]⟩
        have := htwo.keptBefore_le (show sec.next earlier + 2 ≤ rel.offset by omega)
        rw [← h.place_eq] at this
        exact applyRelocation_above hmem hdeletes.rawType hskip hsome (by omega)
      · have hfour := kept_two (show 2 ∣ sec.next earlier + 2 by omega) hbyte
        have hfirst := htwo.keptBefore_le (Nat.le_refl _)
        have := hfour.keptBefore_le (show sec.next earlier + 2 + 2 ≤ rel.offset by omega)
        rw [← h.place_eq] at this
        exact applyRelocation_outside hmem hskip (.inr (by omega))

end

/-! ## A section with all its relocations -/

section

variable {sec} {rel : PartRelocation} {j : ℕ}

/-- The section before its relocations, and the number of its bytes. -/
def copied (sec : ShortenedSection) : List UInt8 := copyKept sec.inputData 0 sec.deltas.deltas

def start (sec : ShortenedSection) : Writing := ⟨bitsOf sec.copied, false⟩

/-- Some `lui` that is deleted hits the bit. -/
def HitBy (sec : ShortenedSection) (luis : List PartRelocation) (rel : PartRelocation) (j : ℕ) :
    Prop :=
  ∃ lui ∈ luis, sec.Deletes lui ∧ Hits sec lui rel j

/-- What a writer has made of an instruction before its own relocation. -/
structure Seen (sec : ShortenedSection) (luis : List PartRelocation) (rel : PartRelocation)
    (writing : Writing) : Prop where
  skip : writing.skipNextRelocation = false
  hit : ∀ j, sec.Followed rel j → sec.HitBy luis rel j →
    writing.out (8 * sec.place rel + j) = false
  free : ∀ j, sec.Followed rel j → ¬ sec.HitBy luis rel j →
    writing.out (8 * sec.place rel + j) = bitsOf sec.inputData (8 * rel.offset + j)

theorem seen_start (rel : PartRelocation) : sec.Seen [] rel sec.start where
  skip := rfl
  hit _ _ := by
    rintro ⟨lui, hlui, -⟩
    cases hlui
  free j h _ := by
    have hlen := (sec.instruction rel h.mem h.relax).2.1
    rw [h.place_eq]
    rcases h with ⟨h, hlt⟩ | ⟨h, -, hlt⟩
    · exact bitsOf_copyKept sec.keeps h.kept hlen hlt
    · exact bitsOf_copyKept sec.keeps h.kept (by omega) (by omega)

variable {writing : Writing}

theorem Seen.append {luis : List PartRelocation} {earlier : PartRelocation}
    {size : ℕ} (h : sec.Seen luis rel writing)
    (hzero : ∀ lui, sec.Deletes lui → hi20IsZero lui.value = true)
    (hmem : earlier ∈ sec.relocations)
    (hbefore : earlier.rawType ≠ .relax → earlier.offset + 4 ≤ rel.offset) :
    sec.Seen (luis ++ [earlier]) rel (applyRelocation sec.deltas size writing earlier) where
  skip := skip_applyRelocation hmem h.skip
  hit j hj := by
    rintro ⟨lui, hlui, hdeletes, hhits⟩
    by_cases hearlier : sec.Deletes earlier ∧ Hits sec earlier rel j
    · exact applyRelocation_hit hzero hj hearlier.1 hearlier.2 h.skip
    · rw [applyRelocation_free hj hmem hbefore hearlier h.skip]
      rcases List.mem_append.1 hlui with hlui | hlui
      · exact h.hit j hj ⟨lui, hlui, hdeletes, hhits⟩
      · obtain rfl := List.mem_singleton.1 hlui
        exact absurd ⟨hdeletes, hhits⟩ hearlier
  free j hj hfree := by
    have hearlier : ¬ (sec.Deletes earlier ∧ Hits sec earlier rel j) := fun ⟨hdeletes, hhits⟩ =>
      hfree ⟨earlier, List.mem_append_right _ (List.mem_singleton_self _), hdeletes, hhits⟩
    rw [applyRelocation_free hj hmem hbefore hearlier h.skip]
    refine h.free j hj ?_
    rintro ⟨lui, hlui, hhits⟩
    exact hfree ⟨lui, List.mem_append_left _ hlui, hhits⟩

theorem seen_foldl {before : List PartRelocation} (size : ℕ)
    (hzero : ∀ lui, sec.Deletes lui → hi20IsZero lui.value = true)
    (hbefore : ∀ earlier ∈ before, earlier ∈ sec.relocations ∧
      (earlier.rawType ≠ .relax → earlier.offset + 4 ≤ rel.offset)) :
    sec.Seen before rel (before.foldl (applyRelocation sec.deltas size) sec.start) := by
  induction before using List.reverseRecOn with
  | nil => exact seen_start rel
  | append_singleton before earlier ih =>
    rw [List.foldl_append]
    obtain ⟨hmem, hle⟩ := hbefore earlier (List.mem_append_right _ (List.mem_singleton_self _))
    exact (ih fun other hother => hbefore other (List.mem_append_left _ hother)).append
      hzero hmem hle

theorem foldl_after {after : List PartRelocation} {size i : ℕ}
    (hafter : ∀ later ∈ after, later ∈ sec.relocations ∧
      (later.rawType ≠ .relax → i < 8 * sec.place later))
    (hskip : writing.skipNextRelocation = false) :
    (after.foldl (applyRelocation sec.deltas size) writing).out i = writing.out i := by
  induction after generalizing writing with
  | nil => rfl
  | cons later after ih =>
    obtain ⟨hmem, hplace⟩ := hafter later List.mem_cons_self
    rw [List.foldl_cons, ih (fun other hother => hafter other (List.mem_cons_of_mem _ hother))
      (skip_applyRelocation hmem hskip)]
    by_cases hrelax : later.rawType = .relax
    · rw [applyRelocation_relax hrelax hskip]
    · exact applyRelocation_outside hmem hskip (.inl (hplace hrelax))

theorem Hits.lt {lui : PartRelocation} (h : Hits sec lui rel j) (hdeletes : sec.Deletes lui) :
    lui.offset + 4 ≤ rel.offset := by
  have := hdeletes.follows.le
  rcases h with ⟨hnext, -⟩ | ⟨hnext, -⟩ <;> omega

theorem exists_seen {length : ℕ} (hzero : ∀ lui, sec.Deletes lui → hi20IsZero lui.value = true)
    (hmem : rel ∈ sec.relocations) (hrelax : rel.rawType ≠ .relax)
    (hkept : Kept sec.deletions rel.offset length) (hlen : length ≤ 4) :
    ∃ writing, sec.Seen sec.relocations rel writing ∧ ∀ j < 8 * length,
      sec.written (8 * sec.place rel + j) =
        (applyRelocation sec.deltas sec.copied.length writing rel).out (8 * sec.place rel + j) := by
  obtain ⟨before, after, hsplit⟩ := List.append_of_mem hmem
  have hordered := sec.ordered
  rw [hsplit] at hordered
  obtain ⟨-, hrest, hcross⟩ := List.pairwise_append.1 hordered
  obtain ⟨hlater, -⟩ := List.pairwise_cons.1 hrest
  have hbefore : ∀ earlier ∈ before, earlier ∈ sec.relocations ∧
      (earlier.rawType ≠ .relax → earlier.offset + 4 ≤ rel.offset) := fun earlier hearlier =>
    ⟨by rw [hsplit]; exact List.mem_append_left _ hearlier, fun htype =>
      hcross earlier hearlier rel List.mem_cons_self htype hrelax⟩
  have hseen := seen_foldl sec.copied.length hzero hbefore
  refine ⟨before.foldl (applyRelocation sec.deltas sec.copied.length) sec.start,
    ⟨hseen.skip, ?_, ?_⟩, ?_⟩
  · rintro j hj ⟨lui, hlui, hdeletes, hhits⟩
    refine hseen.hit j hj ⟨lui, ?_, hdeletes, hhits⟩
    have hlt := hhits.lt hdeletes
    rw [hsplit] at hlui
    rcases List.mem_append.1 hlui with hlui | hlui
    · exact hlui
    rcases List.mem_cons.1 hlui with rfl | hlui
    · omega
    · have := hlater lui hlui hrelax hdeletes.relax
      omega
  · intro j hj hfree
    refine hseen.free j hj ?_
    rintro ⟨lui, hlui, hhits⟩
    exact hfree ⟨lui, (hbefore lui hlui).1, hhits⟩
  · intro j hj
    have hwritten : sec.written = (sec.relocations.foldl
        (applyRelocation sec.deltas sec.copied.length) sec.start).out := rfl
    rw [hwritten]
    conv_lhs => rw [hsplit]
    rw [List.foldl_append, List.foldl_cons]
    refine foldl_after (fun later hlaterMem => ?_) (skip_applyRelocation hmem hseen.skip)
    have hlaterRelocations : later ∈ sec.relocations := by
      rw [hsplit]
      exact List.mem_append_right _ (List.mem_cons_of_mem _ hlaterMem)
    refine ⟨hlaterRelocations, fun htype => ?_⟩
    have hle := hlater later hlaterMem hrelax htype
    have := hkept.keptBefore_le (show rel.offset + _ ≤ later.offset by omega)
    rw [← place_eq hmem hrelax, ← place_eq hlaterRelocations htype] at this
    omega

/-! ## Low parts -/

section

variable {insn : RiscVInstruction}

/-- The instruction is at the place of a deleted `lui`. -/
def Behind (sec : ShortenedSection) (rel : PartRelocation) : Prop :=
  ∃ lui, sec.Deletes lui ∧ sec.next lui = rel.offset

def Clear (sec : ShortenedSection) (rel : PartRelocation) : Prop :=
  ∀ lui, sec.Deletes lui → sec.next lui + 2 ≠ rel.offset

theorem not_hitBy (hclear : sec.Clear rel) (hj : j < 12 ∨ ¬ sec.Behind rel) :
    ¬ sec.HitBy sec.relocations rel j := by
  rintro ⟨lui, -, hdeletes, ⟨hnext, hge⟩ | ⟨hnext, -⟩⟩
  · rcases hj with hlt | hnot
    · omega
    · exact hnot ⟨lui, hdeletes, hnext⟩
  · exact hclear lui hdeletes hnext

open Classical in
/-- The instruction in the end, bit by bit. -/
theorem exists_seen_lower (hzero : ∀ lui, sec.Deletes lui → hi20IsZero lui.value = true)
    (h : sec.Intact rel) (htype : rel.rawType ≠ .hi20)
    (hinsn : rel.rawType.instruction = some insn) :
    ∃ writing, sec.Seen sec.relocations rel writing ∧ ∀ j < 32,
      sec.written (8 * sec.place rel + j) = insn.bit rel.value j
        (if sec.Rewrites sec.copied.length rel writing.out ∧ 15 ≤ j ∧ j < 20 then false
        else writing.out (8 * sec.place rel + j)) := by
  obtain ⟨writing, hseen, hwritten⟩ := exists_seen hzero h.mem h.rawType h.kept (Nat.le_refl _)
  refine ⟨writing, hseen, fun j hj => ?_⟩
  rw [hwritten j hj, applyRelocation_lower h htype hinsn hseen.skip]
  refine (writeToValue_at _ _ _ _ _).trans ?_
  by_cases hrewrites : sec.Rewrites sec.copied.length rel writing.out
  · simp only [hrewrites, if_true, lo12Rs1ToZero_at, true_and]
  · simp only [hrewrites, if_false, false_and]

open Classical in
theorem lowPart_at (insn : RiscVInstruction) (rel : PartRelocation) (j : ℕ) :
    sec.lowPart insn rel (8 * rel.offset + j) = insn.bit rel.value j
      (if sec.Fed rel ∧ 15 ≤ j ∧ j < 20 then false
      else bitsOf sec.inputData (8 * rel.offset + j)) := by
  rw [lowPart, writeToValue_at]
  by_cases hfed : sec.Fed rel
  · simp only [hfed, if_true, lo12Rs1ToZero_at, true_and]
  · simp only [hfed, if_false, false_and]

variable {value : ℕ}

theorem bit_of_kept (htype : rel.rawType ≠ .hi20)
    (hinsn : rel.rawType.instruction = some insn) {before : Bool}
    (hj : j < 7 ∨ 12 ≤ j ∧ j < 20) : insn.bit value j before = before := by
  rcases lower_of_instruction htype hinsn with ⟨-, rfl⟩ | ⟨-, rfl⟩
  · rw [bit, if_neg (by omega)]
  · rw [bit, if_neg (by omega), if_neg (by omega)]

theorem bit_congr_high (htype : rel.rawType ≠ .hi20)
    (hinsn : rel.rawType.instruction = some insn) {before before' : Bool}
    (hj : 20 ≤ j ∧ j < 32) (hstore : rel.rawType = .lo12S → j < 25 → before = before') :
    insn.bit value j before = insn.bit value j before' := by
  rcases lower_of_instruction htype hinsn with ⟨-, rfl⟩ | ⟨hraw, rfl⟩
  · rw [bit, bit, if_pos hj, if_pos hj]
  · rcases Nat.lt_or_ge j 25 with hlt | hge
    · rw [hstore hraw hlt]
    · rw [bit, bit, if_pos ⟨hge, hj.2⟩, if_pos ⟨hge, hj.2⟩]

open Classical in
/-- A low part at the place of a deleted `lui`. -/
theorem lowPart_behind_iff (hzero : ∀ lui, sec.Deletes lui → hi20IsZero lui.value = true)
    (h : sec.Intact rel) (htype : rel.rawType ≠ .hi20)
    (hinsn : rel.rawType.instruction = some insn) (hclear : sec.Clear rel)
    (hbehind : sec.Behind rel) :
    (∀ j < 32, sec.written (8 * sec.place rel + j) = sec.lowPart insn rel (8 * rel.offset + j)) ↔
      (sec.Fed rel ∨ rs1 rel.offset (bitsOf sec.inputData) = List.replicate 5 false) ∧
      function3 rel.offset (bitsOf sec.inputData) = List.replicate 3 false ∧
      (rel.rawType = .lo12S → rs2 rel.offset (bitsOf sec.inputData) = List.replicate 5 false) := by
  obtain ⟨writing, hseen, hwritten⟩ := exists_seen_lower hzero h htype hinsn
  obtain ⟨lui, hdeletes, hnext⟩ := hbehind
  have hhit : ∀ j, 12 ≤ j → j < 32 → writing.out (8 * sec.place rel + j) = false :=
    fun j hge hlt => hseen.hit j (.inl ⟨h, hlt⟩) ⟨lui, hdeletes.mem, hdeletes, .inl ⟨hnext, hge⟩⟩
  have hfree : ∀ j < 12, writing.out (8 * sec.place rel + j) =
      bitsOf sec.inputData (8 * rel.offset + j) := fun j hj =>
    hseen.free j (.inl ⟨h, by omega⟩) (not_hitBy hclear (.inl hj))
  have hfinal : ∀ j < 32, sec.written (8 * sec.place rel + j) = insn.bit rel.value j
      (if 12 ≤ j then false else bitsOf sec.inputData (8 * rel.offset + j)) := by
    intro j hj
    rw [hwritten j hj]
    rcases Nat.lt_or_ge j 12 with hlt | hge
    · rw [if_neg (by omega), if_neg (by omega), hfree j hlt]
    · rw [hhit j hge hj, if_pos hge, ite_self]
  simp only [rs1, function3, rs2, bitField_eq_replicate]
  constructor
  · intro hsame
    have hbit : ∀ j, 12 ≤ j → j < 20 → (if sec.Fed rel ∧ 15 ≤ j ∧ j < 20 then false
        else bitsOf sec.inputData (8 * rel.offset + j)) = false := by
      intro j hge hlt
      have := hsame j (by omega)
      rw [hfinal j (by omega), lowPart_at, bit_of_kept htype hinsn (.inr ⟨hge, hlt⟩),
        bit_of_kept htype hinsn (.inr ⟨hge, hlt⟩), if_pos hge] at this
      exact this.symm
    refine ⟨?_, ?_, ?_⟩
    · by_cases hfed : sec.Fed rel
      · exact .inl hfed
      · refine .inr fun k hk => ?_
        have := hbit (15 + k) (by omega) (by omega)
        rw [if_neg fun hand => hfed hand.1] at this
        rw [Nat.add_assoc]
        exact this
    · intro k hk
      have := hbit (12 + k) (by omega) (by omega)
      rw [if_neg (by omega)] at this
      rw [Nat.add_assoc]
      exact this
    · intro hstore k hk
      have := hsame (20 + k) (by omega)
      obtain rfl : insn = .sType := by
        rcases lower_of_instruction htype hinsn with ⟨hraw, -⟩ | ⟨-, hinsn⟩
        · exact absurd (hraw.symm.trans hstore) (by decide)
        · exact hinsn
      rw [hfinal _ (by omega), lowPart_at, if_pos (by omega), if_neg (by omega),
        RiscVInstruction.bit, RiscVInstruction.bit, if_neg (by omega), if_neg (by omega),
        if_neg (by omega), if_neg (by omega)] at this
      rw [Nat.add_assoc]
      exact this.symm
  · rintro ⟨hfed, hfunction3, hrs2⟩ j hj
    rw [hfinal j hj, lowPart_at]
    rcases Nat.lt_or_ge j 12 with hlt | hge
    · rw [if_neg (by omega), if_neg (by omega)]
    rw [if_pos hge]
    rcases Nat.lt_or_ge j 20 with hlow | hhigh
    · congr 1
      rcases Nat.lt_or_ge j 15 with hlt | hge'
      · have := hfunction3 (j - 12) (by omega)
        rw [show 8 * rel.offset + 12 + (j - 12) = 8 * rel.offset + j by omega] at this
        rw [if_neg (by omega), this]
      · rcases hfed with hfed | hrs1
        · rw [if_pos ⟨hfed, hge', hlow⟩]
        · have := hrs1 (j - 15) (by omega)
          rw [show 8 * rel.offset + 15 + (j - 15) = 8 * rel.offset + j by omega] at this
          rw [this, ite_self]
    · refine bit_congr_high htype hinsn ⟨hhigh, hj⟩ fun hstore hlt => ?_
      have := hrs2 hstore (j - 20) (by omega)
      rw [show 8 * rel.offset + 20 + (j - 20) = 8 * rel.offset + j by omega] at this
      rw [if_neg (by omega), this]

open Classical in
/-- Any other low part. -/
theorem lowPart_elsewhere_iff (hzero : ∀ lui, sec.Deletes lui → hi20IsZero lui.value = true)
    (h : sec.Intact rel) (htype : rel.rawType ≠ .hi20)
    (hinsn : rel.rawType.instruction = some insn) (hclear : sec.Clear rel)
    (helsewhere : ¬ sec.Behind rel) :
    (∀ j < 32, sec.written (8 * sec.place rel + j) = sec.lowPart insn rel (8 * rel.offset + j)) ↔
      rs1 rel.offset (bitsOf sec.inputData) = List.replicate 5 false ∨
        (sec.Fed rel ↔ sec.TakenForDeleted rel) := by
  obtain ⟨writing, hseen, hwritten⟩ := exists_seen_lower hzero h htype hinsn
  have hfree : ∀ j < 32, writing.out (8 * sec.place rel + j) =
      bitsOf sec.inputData (8 * rel.offset + j) := fun j hj =>
    hseen.free j (.inl ⟨h, hj⟩) (not_hitBy hclear (.inr helsewhere))
  have hregister {first : ℕ} (hfirst : first + 5 ≤ 32) :
      bitField (8 * sec.place rel + first) 5 writing.out =
        bitField (8 * rel.offset + first) 5 (bitsOf sec.inputData) := by
    refine List.map_congr_left fun k hk => ?_
    have := hfree (first + k) (by have := List.mem_range.1 hk; omega)
    rwa [← Nat.add_assoc, ← Nat.add_assoc] at this
  have hsize : sec.place rel + 4 ≤ sec.copied.length := by
    rw [place_eq h.mem h.rawType]
    exact lt_length_copyKept sec.keeps h.kept (sec.instruction rel h.mem h.rawType).2.1
  have htaken : sec.Rewrites sec.copied.length rel writing.out ↔ sec.TakenForDeleted rel := by
    have hrd := @hregister 7 (by decide)
    have hrs1 := @hregister 15 (by decide)
    simp only [Rewrites, TakenForDeleted, rd, rs1, hrd, hrs1, hsize, true_and, and_assoc]
  have hfinal : ∀ j < 32, sec.written (8 * sec.place rel + j) = insn.bit rel.value j
      (if sec.TakenForDeleted rel ∧ 15 ≤ j ∧ j < 20 then false
      else bitsOf sec.inputData (8 * rel.offset + j)) := by
    intro j hj
    rw [hwritten j hj, hfree j hj]
    simp only [htaken]
  simp only [rs1, bitField_eq_replicate]
  constructor
  · intro hsame
    by_cases hiff : sec.Fed rel ↔ sec.TakenForDeleted rel
    · exact .inr hiff
    · refine .inl fun k hk => ?_
      have := hsame (15 + k) (by omega)
      rw [hfinal _ (by omega), lowPart_at, bit_of_kept htype hinsn (.inr ⟨by omega, by omega⟩),
        bit_of_kept htype hinsn (.inr ⟨by omega, by omega⟩)] at this
      rw [Nat.add_assoc]
      by_cases hfed : sec.Fed rel
      · have hnot : ¬ sec.TakenForDeleted rel := fun htaken => hiff ⟨fun _ => htaken, fun _ => hfed⟩
        rwa [if_neg fun hand => hnot hand.1, if_pos ⟨hfed, by omega, by omega⟩] at this
      · have hyes : sec.TakenForDeleted rel := by
          by_contra hnot
          exact hiff ⟨fun hfed' => absurd hfed' hfed, fun htaken => absurd htaken hnot⟩
        rw [if_pos ⟨hyes, by omega, by omega⟩, if_neg fun hand => hfed hand.1] at this
        exact this.symm
  · intro hcondition j hj
    rw [hfinal j hj, lowPart_at]
    congr 1
    rcases hcondition with hrs1 | hiff
    · by_cases hregister : 15 ≤ j ∧ j < 20
      · have := hrs1 (j - 15) (by omega)
        rw [show 8 * rel.offset + 15 + (j - 15) = 8 * rel.offset + j by omega] at this
        rw [this, ite_self, ite_self]
      · rw [if_neg fun hand => hregister hand.2, if_neg fun hand => hregister hand.2]
    · simp only [hiff]

end

/-! ## Upper parts -/

variable (hzero : ∀ lui, sec.Deletes lui → hi20IsZero lui.value = true)

include hzero in
theorem exists_seen_loaded (h : sec.Intact rel) (htype : rel.rawType = .hi20) :
    ∃ writing, sec.Seen sec.relocations rel writing ∧ ∀ j < 32,
      sec.written (8 * sec.place rel + j) =
        uType.bit rel.value j (writing.out (8 * sec.place rel + j)) := by
  obtain ⟨writing, hseen, hwritten⟩ := exists_seen hzero h.mem h.rawType h.kept (Nat.le_refl _)
  have hnext : sec.next rel = rel.offset :=
    next_of_kept h.mem h.rawType (h.kept _ (Nat.le_refl _) (by omega))
  have hnone : sec.deltas.hasDeltaAt (sec.next rel + 2) = false := by
    exact hasDeltaAt_of_not_deleted (h.kept _ (by omega) (by omega))
  refine ⟨writing, hseen, fun j hj => ?_⟩
  rw [hwritten j hj, applyRelocation_upper h.mem htype hseen.skip]
  show sec.writeUpper rel writing.out _ = _
  rw [writeUpper, hnone, if_neg Bool.false_ne_true, writeToValue_at]

include hzero in
theorem exists_seen_shortened (h : sec.Shortens rel) :
    ∃ writing, sec.Seen sec.relocations rel writing ∧ ∀ j < 16,
      sec.written (8 * sec.place rel + j) = cluiType.bit rel.value j
        (RelaxationKind.hi20ToCLui.apply (sec.place rel) writing.out (8 * sec.place rel + j)) := by
  obtain ⟨writing, hseen, hwritten⟩ := exists_seen hzero h.mem h.relax h.kept (by decide)
  have hnext : sec.next rel = rel.offset :=
    next_of_kept h.mem h.relax (h.kept _ (Nat.le_refl _) (by omega))
  have hsome : sec.deltas.hasDeltaAt (sec.next rel + 2) = true := by
    rw [hnext]
    exact hasDeltaAt_of_shortens h
  refine ⟨writing, hseen, fun j hj => ?_⟩
  rw [hwritten j hj, applyRelocation_upper h.mem h.rawType hseen.skip]
  show sec.writeUpper rel writing.out _ = _
  rw [writeUpper, hsome, if_pos rfl, writeToValue_at]

include hzero in
theorem loaded_of_clear (h : sec.Intact rel) (htype : rel.rawType = .hi20) (hclear : sec.Clear rel) :
    ∀ j < 32, sec.written (8 * sec.place rel + j) =
      uType.writeToValue rel.value rel.offset (bitsOf sec.inputData)
        (8 * rel.offset + j) := by
  obtain ⟨writing, hseen, hwritten⟩ := exists_seen_loaded hzero h htype
  intro j hj
  rw [hwritten j hj, writeToValue_at]
  rcases Nat.lt_or_ge j 12 with hlt | hge
  · rw [hseen.free j (.inl ⟨h, hj⟩) (not_hitBy hclear (.inl hlt))]
  · rw [bit, bit, if_pos ⟨hge, hj⟩, if_pos ⟨hge, hj⟩]

include hzero in
theorem shortened_of_clear (h : sec.Shortens rel) (hclear : sec.Clear rel) :
    ∀ j < 16, sec.written (8 * sec.place rel + j) =
      cluiType.writeToValue rel.value rel.offset
        (RelaxationKind.hi20ToCLui.apply rel.offset (bitsOf sec.inputData))
        (8 * rel.offset + j) := by
  obtain ⟨writing, hseen, hwritten⟩ := exists_seen_shortened hzero h
  intro j hj
  rw [hwritten j hj, writeToValue_at, hi20ToCLui_at, hi20ToCLui_at]
  rcases Nat.lt_or_ge j 12 with hlt | hge
  · rcases Nat.lt_or_ge j 7 with hlow | hregister
    · rw [if_neg (by omega), if_pos hlow, if_neg (by omega), if_pos hlow]
    · rw [hseen.free j (.inr ⟨h, hregister, hlt⟩) (not_hitBy hclear (.inl hlt))]
  · rw [if_pos ⟨hge, hj⟩, if_pos ⟨hge, hj⟩]

/-! ## The section -/

include hzero in
theorem Intact.written_zero (h : sec.Intact rel)
    (hhit : sec.HitBy sec.relocations rel 0) : sec.written (8 * sec.place rel + 0) = false := by
  by_cases htype : rel.rawType = .hi20
  · obtain ⟨writing, hseen, hwritten⟩ := exists_seen_loaded hzero h htype
    rw [hwritten 0 (by decide)]
    exact hseen.hit 0 (.inl ⟨h, by decide⟩) hhit
  · obtain ⟨insn, hinsn⟩ := h.exists_instruction
    obtain ⟨writing, hseen, hwritten⟩ := exists_seen_lower hzero h htype hinsn
    rw [hwritten 0 (by decide), bit_of_kept htype hinsn (.inl (by decide)),
      if_neg fun hand => absurd hand.2.1 (by decide)]
    exact hseen.hit 0 (.inl ⟨h, by decide⟩) hhit

theorem Unchanged.clear (h : sec.Unchanged) (hrel : sec.Intact rel ∨ sec.Shortens rel) :
    sec.Clear rel := by
  intro lui hdeletes hnext
  have hhit : ∀ j < 16, sec.HitBy sec.relocations rel j := fun j hj =>
    ⟨lui, hdeletes.mem, hdeletes, .inr ⟨hnext, hj⟩⟩
  rcases hrel with hrel | hrel
  · -- the lowest bit of the instruction is lost
    have hlost := Intact.written_zero h.zero hrel (hhit 0 (by decide))
    have hbit := (sec.instruction rel hrel.mem hrel.rawType).2.2
    by_cases htype : rel.rawType = .hi20
    · have hsame := h.loaded rel hrel htype 0 (by decide)
      rw [writeToValue_at, hlost, hbit] at hsame
      cases hsame
    · obtain ⟨insn, hinsn⟩ := hrel.exists_instruction
      have hsame := h.lowPart rel insn hrel htype hinsn 0 (by decide)
      rw [lowPart_at, bit_of_kept htype hinsn (.inl (by decide)),
        if_neg fun hand => absurd hand.2.1 (by decide), hlost, hbit] at hsame
      cases hsame
  · -- the register of the `c.lui` is lost
    obtain ⟨k, hk, hbit⟩ : ∃ k < 5, bitsOf sec.inputData (8 * rel.offset + (7 + k)) = true := by
      rcases sec.upper rel hrel.mem hrel.rawType with hkept | hdel | ⟨-, -, hbit⟩
      · exact absurd ⟨_, hrel.deleted, Nat.le_refl _, by omega⟩
          (hkept (rel.offset + 2) (by omega) (by omega))
      · exact absurd ⟨_, hdel, Nat.le_refl _, by omega⟩
          (hrel.kept rel.offset (Nat.le_refl _) (by omega))
      · exact hbit
    obtain ⟨writing, hseen, hwritten⟩ := exists_seen_shortened h.zero hrel
    have hsame := h.shortened rel hrel (7 + k) (by omega)
    rw [hwritten _ (by omega), writeToValue_at, hi20ToCLui_at, hi20ToCLui_at,
      if_neg (by omega), if_neg (by omega), if_neg (by omega), if_neg (by omega),
      hseen.hit (7 + k) (.inr ⟨hrel, by omega, by omega⟩) (hhit _ (by omega)), hbit,
      bit, bit, if_neg (by omega), if_neg (by omega),
      if_neg (by omega), if_neg (by omega)] at hsame
    cases hsame

end

/-- **Deleting and shortening `lui` leaves all addresses of a section the same
exactly where it does no harm.** -/
theorem address_parts_iff (sec : ShortenedSection) : sec.Unchanged ↔ sec.Harmless := by
  constructor
  · intro h
    have hclear {rel : PartRelocation} (hrel : sec.Intact rel ∨ sec.Shortens rel) := h.clear hrel
    exact {
      zero := h.zero
      fits := h.fits
      clear := fun lui rel hdeletes hrel => hclear hrel lui hdeletes
      behind := fun lui rel hdeletes hrel htype hnext => by
        obtain ⟨insn, hinsn⟩ := hrel.exists_instruction
        exact (lowPart_behind_iff h.zero hrel htype hinsn (hclear (.inl hrel))
          ⟨lui, hdeletes, hnext⟩).1 (h.lowPart rel insn hrel htype hinsn)
      elsewhere := fun rel hrel htype helsewhere => by
        obtain ⟨insn, hinsn⟩ := hrel.exists_instruction
        exact (lowPart_elsewhere_iff h.zero hrel htype hinsn (hclear (.inl hrel))
          fun ⟨lui, hdeletes, hnext⟩ => helsewhere lui hdeletes hnext).1
          (h.lowPart rel insn hrel htype hinsn) }
  · intro h
    have hclear {rel : PartRelocation} (hrel : sec.Intact rel ∨ sec.Shortens rel) :
        sec.Clear rel := fun lui hdeletes => h.clear lui rel hdeletes hrel
    exact {
      zero := h.zero
      fits := h.fits
      shortened := fun lui hlui => shortened_of_clear h.zero hlui (hclear (.inr hlui))
      loaded := fun lui hlui htype => loaded_of_clear h.zero hlui htype (hclear (.inl hlui))
      lowPart := fun rel insn hrel htype hinsn => by
        by_cases hbehind : sec.Behind rel
        · obtain ⟨lui, hdeletes, hnext⟩ := hbehind
          exact (lowPart_behind_iff h.zero hrel htype hinsn (hclear (.inl hrel))
            ⟨lui, hdeletes, hnext⟩).2 (h.behind lui rel hdeletes hrel htype hnext)
        · exact (lowPart_elsewhere_iff h.zero hrel htype hinsn (hclear (.inl hrel))
            hbehind).2 (h.elsewhere rel hrel htype fun lui hdeletes hnext =>
              hbehind ⟨lui, hdeletes, hnext⟩) }

end ShortenedSection

/-! ## Where such a section comes from -/

/-- Of a `lui`, the passes delete all, the second half, or nothing. -/
theorem upper_of_sound {sec : LoadedSection} {rel : Relocation} (h : sec.Sound)
    (hordered : sec.relocations.Pairwise Relocation.Before) (hrel : rel ∈ sec.relocations)
    (htype : rel.rawType = .hi20) : Kept sec.raw rel.offset 4 ∨ (rel.offset, 4) ∈ sec.raw ∨
      Kept sec.raw rel.offset 2 ∧ (rel.offset + 2, 2) ∈ sec.raw := by
  have hspan : rel.span = 4 := by rw [Relocation.span, htype]
  have hslot {entry : ℕ × ℕ} (hentry : entry ∈ sec.raw) (hstart : entry.1 < rel.offset + 4)
      (hend : rel.offset < entry.1 + entry.2) :
      entry = (rel.offset, 4) ∨ entry = (rel.offset + 2, 2) := by
    rcases h.slot_or_apart hordered hrel (by simp [htype]) hentry with hslot | hapart
    · simpa only [Relocation.Slot, htype] using hslot
    · omega
  by_cases hall : (rel.offset, 4) ∈ sec.raw
  · exact .inr (.inl hall)
  by_cases hhalf : (rel.offset + 2, 2) ∈ sec.raw
  · refine .inr (.inr ⟨?_, hhalf⟩)
    rintro byte hle hlt ⟨entry, hentry, hstart, hend⟩
    rcases hslot hentry (by omega) (by omega) with rfl | rfl
    · exact hall hentry
    · omega
  · left
    rintro byte hle hlt ⟨entry, hentry, hstart, hend⟩
    rcases hslot hentry (by omega) (by omega) with rfl | rfl
    · exact hall hentry
    · exact hhalf hentry

/-- The parts of addresses in a section as an assembler writes them: apart, not in the code
of other relocations, and with no `lui` that loads `x0`; and all deletions are even. -/
structure Assembled (sec : LoadedSection) (parts : List PartRelocation) : Prop where
  even : ∀ entry ∈ sec.raw, 0 < entry.2 ∧ 2 ∣ entry.1 ∧ 2 ∣ entry.2
  ordered : parts.Pairwise fun a b =>
    a.rawType ≠ .relax → b.rawType ≠ .relax → a.offset + 4 ≤ b.offset
  instruction : ∀ rel ∈ parts, rel.rawType ≠ .relax →
    2 ∣ rel.offset ∧ rel.offset + 4 ≤ sec.bytes.length ∧ bitsOf sec.bytes (8 * rel.offset + 0) = true
  lower : ∀ rel ∈ parts, rel.rawType = .lo12I ∨ rel.rawType = .lo12S →
    ∀ other ∈ sec.relocations,
      other.offset + other.span ≤ rel.offset ∨ rel.offset + 4 ≤ other.offset
  upper : ∀ rel ∈ parts, rel.rawType = .hi20 →
    (∃ lui ∈ sec.relocations, lui.rawType = .hi20 ∧ lui.offset = rel.offset) ∧
      ∃ k < 5, bitsOf sec.bytes (8 * rel.offset + (7 + k)) = true

/-- What any number of passes leaves of a section of code is one with deletions. -/
theorem exists_shortenedSection {layout : List ℕ → Placement} {sections : List LoadedSection}
    {passes index : ℕ} {sec : LoadedSection} {deltas : SectionRelaxDeltas}
    {parts : List PartRelocation} (hordered : RelaxationState.Ordered sections)
    (hsec : (relaxedSections layout sections passes)[index]? = some sec)
    (hexec : sec.isExecutable = true) (hdeltas : sec.relaxDeltas = some deltas)
    (h : Assembled sec parts) (feeds : ℕ → Option ℕ) :
    ∃ shortened : ShortenedSection, shortened.inputData = sec.bytes ∧ shortened.deltas = deltas ∧
      shortened.relocations = parts ∧ shortened.feeds = feeds := by
  obtain ⟨hbefore, hsound⟩ :=
    RelaxationState.sound_passState hordered (passes + 1) index sec hsec hexec
  have hraw : deltas.raw = sec.raw := by rw [LoadedSection.raw, hdeltas]
  have hspaced : deltas.raw.Pairwise Spaced := hraw ▸ hsound.spaced
  refine ⟨{
    inputData := sec.bytes
    deltas, feeds
    deletions := sec.raw
    keeps := ⟨apart_of_spaced hsound.spaced, hspaced.imp fun h => h.1.le, by rw [hraw]⟩
    relocations := parts
    even := h.even
    ordered := h.ordered
    instruction := h.instruction
    lower := ?_
    upper := ?_ }, rfl, rfl, rfl, rfl⟩
  · rintro rel hrel htype byte hle hlt ⟨entry, hentry, hstart, hend⟩
    obtain ⟨other, hother, hslot⟩ := hsound.slots entry hentry
    have hapart := h.lower rel hrel htype other hother
    have hin := hslot.le
    omega
  · intro rel hrel htype
    obtain ⟨⟨lui, hlui, hluiType, hoff⟩, hregister⟩ := h.upper rel hrel htype
    rw [← hoff] at hregister ⊢
    rcases upper_of_sound hsound hbefore hlui hluiType with hkept | hall | ⟨hkept, hhalf⟩
    · exact .inl hkept
    · exact .inr (.inl hall)
    · exact .inr (.inr ⟨hkept, hhalf, hregister⟩)

/-! ## Two uses of one register -/

/-- `lui a0, %hi(16)` (deleted), `addi a1, a0, %lo(16)`, `addi a2, a0, %lo(16)` -/
def twoUses : ShortenedSection where
  inputData := [0x37, 0x05, 0, 0, 0x93, 0x05, 0x05, 0, 0x13, 0x06, 0x05, 0]
  deltas := .new [(0, 4)]
  deletions := [(0, 4)]
  keeps := SectionRelaxDeltas.keeps_new (List.pairwise_singleton _ _)
    (List.pairwise_singleton _ _)
  relocations := [⟨.hi20, 0, 16⟩, ⟨.relax, 0, 16⟩, ⟨.lo12I, 4, 16⟩, ⟨.relax, 4, 16⟩,
    ⟨.lo12I, 8, 16⟩, ⟨.relax, 8, 16⟩]
  feeds _ := some 0
  even := by decide
  ordered := by decide
  instruction := by decide +kernel
  lower := by
    intro rel hrel htype
    have hoff : 4 ≤ rel.offset := by
      revert rel
      decide
    intro byte hle _
    rintro ⟨entry, hentry, -, hlt⟩
    obtain rfl := List.mem_singleton.1 hentry
    omega
  upper := by
    intro rel hrel htype
    have hoff : rel.offset = 0 := by
      revert rel
      decide
    exact .inr (.inl (by simp [hoff]))

/-- The second `addi` still adds to `a0`, which nothing loads any more. -/
theorem second_use_is_not_rewritten : ¬ twoUses.Unchanged := by
  intro hunchanged
  have hdeletes : twoUses.Deletes ⟨.hi20, 0, 16⟩ := ⟨by decide, rfl, by decide⟩
  have hkept : Kept twoUses.deletions 8 4 := twoUses.lower ⟨.lo12I, 8, 16⟩ (by decide) (.inl rfl)
  have hnext : ∀ lui, twoUses.Deletes lui → twoUses.next lui ≠ 8 := by
    have hluis : ∀ lui ∈ twoUses.relocations, lui.rawType = .hi20 → twoUses.next lui ≠ 8 := by
      decide +kernel
    exact fun lui hlui => hluis lui hlui.mem hlui.rawType
  rcases ((ShortenedSection.address_parts_iff twoUses).1 hunchanged).elsewhere ⟨.lo12I, 8, 16⟩
    ⟨by decide, by decide, hkept⟩ (by decide) hnext with hzero | hiff
  · exact absurd hzero (by decide +kernel)
  · exact absurd (hiff.1 ⟨_, hdeletes, rfl⟩).2.1 (by decide +kernel)

end Sld.Layout.AddressParts
