/-
# `Strings.SectionStrings` — the strings of the sections, however they are cut

A string of a section is a piece that ends with its only null byte and
starts at the beginning of the section or after a null byte; a section that
is not made of strings is one piece (`StringAt`).

The groups of `split_sections` have ranges that follow each other, and each
visits every section with a string that starts in its range.  A group yields
exactly the strings that start in its range, so all groups together yield
every string of every section once, in the order of the linear space
(`strings_of_groups`), wherever the cuts are.
-/
import Mathlib.Data.List.Chain
import Sld.Strings.StringMerging

namespace Sld.Strings

open Layout (nextMultipleOf)
open List (cons_append length_drop mem_cons mem_cons_of_mem mem_cons_self mem_singleton
  mem_singleton_self not_mem_nil pairwise_cons)
open Except (ok)
open List.Pairwise (imp nil)

/-! ## Strings in bytes -/

/-- Bytes that end with their only null byte. -/
def Terminated (string : Bytes) : Prop := ∃ body, string = body ++ [0] ∧ 0 ∉ body

/-- A string starts at an offset. -/
structure StartsAt (bytes : Bytes) (offset : ℕ) (string : Bytes) : Prop where
  terminated : Terminated string
  isPrefix : string <+: bytes.drop offset
  start : offset = 0 ∨ bytes[offset - 1]? = some 0

variable {string : Bytes}

theorem Terminated.ne_nil (h : Terminated string) : string ≠ [] := by
  obtain ⟨body, rfl, -⟩ := h
  exact List.concat_ne_nil 0 body

theorem Terminated.unique {string' bytes : Bytes} (h : Terminated string)
    (h' : Terminated string') (hp : string <+: bytes) (hp' : string' <+: bytes) :
    string = string' := by
  obtain ⟨body, rfl, hbody⟩ := h
  obtain ⟨body', rfl, hbody'⟩ := h'
  obtain ⟨rest, rfl⟩ := hp
  obtain ⟨rest', hrest⟩ := hp'
  induction body generalizing body' with
  | nil =>
    cases body' with
    | nil => rfl
    | cons b body' =>
      obtain ⟨rfl, -⟩ := List.cons.inj hrest
      exact absurd mem_cons_self hbody'
  | cons b body ih =>
    cases body' with
    | nil =>
      obtain ⟨rfl, -⟩ := List.cons.inj hrest
      exact absurd mem_cons_self hbody
    | cons b' body' =>
      obtain ⟨rfl, htail⟩ := List.cons.inj hrest
      have := ih (fun hb => hbody (mem_cons_of_mem _ hb)) body'
        (fun hb => hbody' (mem_cons_of_mem _ hb)) htail
      rw [cons_append, this, cons_append]

theorem takeString_eq_ok {source rest : Bytes} (h : takeString source = .ok (string, rest)) :
    Terminated string ∧ source = string ++ rest := by
  unfold takeString at h
  split at h
  next i hi =>
    cases h
    obtain ⟨hlt, hzero, hbefore⟩ := List.findIdx?_eq_some_iff_getElem.mp hi
    refine ⟨⟨source.take i, ?_, ?_⟩, (List.take_append_drop _ _).symm⟩
    · have hbyte : source[i] = 0 := of_decide_eq_true hzero
      rw [← hbyte, List.take_append_getElem]
    · intro hmem
      obtain ⟨j, hj, hzero'⟩ := List.getElem_of_mem hmem
      rw [List.length_take] at hj
      rw [List.getElem_take] at hzero'
      exact hbefore j (by omega) (decide_eq_true hzero')
  next => cases h

theorem startsAt_drop {bytes string : Bytes} {from_ offset : ℕ} (hle : from_ ≤ offset)
    (hstart : from_ = 0 ∨ bytes[from_ - 1]? = some 0) :
    StartsAt (bytes.drop from_) (offset - from_) string ↔ StartsAt bytes offset string := by
  have hdrop : (bytes.drop from_).drop (offset - from_) = bytes.drop offset := by
    rw [List.drop_drop, Nat.add_sub_cancel' hle]
  have hbyte : offset - from_ ≠ 0 →
      (bytes.drop from_)[offset - from_ - 1]? = bytes[offset - 1]? := by
    intro hne
    rw [List.getElem?_drop]
    congr 1
    omega
  constructor
  · intro h
    refine ⟨h.terminated, hdrop ▸ h.isPrefix, ?_⟩
    by_cases hne : offset - from_ = 0
    · obtain rfl : offset = from_ := by omega
      exact hstart
    · exact .inr ((hbyte hne).symm.trans (h.start.resolve_left hne))
  · intro h
    refine ⟨h.terminated, hdrop.symm ▸ h.isPrefix, ?_⟩
    by_cases hne : offset - from_ = 0
    · exact .inl hne
    · exact .inr ((hbyte hne).trans (h.start.resolve_left (by omega)))

variable {offset : ℕ}

theorem startsAt_append {first rest : Bytes} (hfirst : Terminated first) :
    StartsAt (first ++ rest) offset string ↔ offset = 0 ∧ string = first ∨
        first.length ≤ offset ∧ StartsAt rest (offset - first.length) string := by
  have hafter : first.length ≤ offset →
      (StartsAt rest (offset - first.length) string ↔ StartsAt (first ++ rest) offset string) := by
    intro hle
    have hend : (first ++ rest)[first.length - 1]? = some 0 := by
      obtain ⟨body, rfl, -⟩ := hfirst
      simp
    have := @startsAt_drop (first ++ rest) string first.length offset hle (.inr hend)
    rwa [List.drop_left] at this
  constructor
  · intro h
    rcases Nat.lt_or_ge offset first.length with hlt | hge
    · left
      have hzero : offset = 0 := by
        by_contra hne
        have hbyte := h.start.resolve_left hne
        obtain ⟨body, rfl, hbody⟩ := hfirst
        rw [List.length_append, List.length_singleton] at hlt
        rw [List.append_assoc, List.getElem?_append_left (by omega)] at hbyte
        exact hbody (List.mem_of_getElem? hbyte)
      subst hzero
      exact ⟨rfl, h.terminated.unique hfirst h.isPrefix (List.prefix_append _ _)⟩
    · exact .inr ⟨hge, (hafter hge).mpr h⟩
  · rintro (⟨rfl, rfl⟩ | ⟨hge, h⟩)
    · exact ⟨hfirst, List.prefix_append _ _, .inl rfl⟩
    · exact (hafter hge).mp h

/-- Ascending offsets with what starts there. -/
structure Lists (entries : List (ℕ × Bytes)) (such : ℕ → Bytes → Prop) : Prop where
  ascending : entries.Pairwise fun a b => a.1 < b.1
  mem : ∀ x s, (x, s) ∈ entries ↔ such x s

variable {entries : List (ℕ × Bytes)}

theorem takeStrings_lists {rangeEnd inputOffset : ℕ} {remaining : Bytes}
    (h : takeStrings rangeEnd inputOffset remaining = .ok entries) :
    Lists entries fun x s => inputOffset ≤ x ∧ x < rangeEnd ∧
      StartsAt remaining (x - inputOffset) s := by
  induction inputOffset, remaining using takeStrings.induct rangeEnd generalizing entries with
  | case1 inputOffset remaining hdone =>
    rw [takeStrings, if_pos hdone] at h
    obtain rfl := ok.inj h
    refine ⟨nil, fun x s => ⟨fun hmem => absurd hmem not_mem_nil, ?_⟩⟩
    rintro ⟨hle, hlt, hstarts⟩
    rcases hdone with rfl | hge
    · have := hstarts.isPrefix
      rw [List.drop_nil, List.prefix_nil] at this
      exact absurd this hstarts.terminated.ne_nil
    · omega
  | case2 inputOffset remaining hmore e herror =>
    rw [takeStrings, if_neg hmore] at h
    split at h
    · cases h
    · next heq =>
      rw [herror] at heq
      cases heq
  | case3 inputOffset remaining hmore string rest hstr ih =>
    rw [takeStrings, if_neg hmore] at h
    split at h
    · cases h
    next string' rest' heq =>
      rw [hstr] at heq
      obtain ⟨rfl, rfl⟩ := Prod.mk.inj (ok.inj heq)
      cases hlater : takeStrings rangeEnd (inputOffset + string.length) rest with
      | error e =>
        rw [hlater] at h
        cases h
      | ok later =>
        rw [hlater] at h
        obtain rfl := ok.inj h
        obtain ⟨hterm, rfl⟩ := takeString_eq_ok hstr
        obtain ⟨hascending, hmem⟩ := ih hlater
        have hlen := List.length_pos_of_ne_nil hterm.ne_nil
        rw [not_or, Nat.not_le] at hmore
        refine ⟨pairwise_cons.mpr ⟨?_, hascending⟩, fun x s => ?_⟩
        · rintro ⟨x, s⟩ hx
          have := ((hmem x s).mp hx).1
          show inputOffset < x
          omega
        · rw [mem_cons, Prod.mk.injEq, hmem, startsAt_append hterm]
          constructor
          · rintro (⟨rfl, rfl⟩ | ⟨hle, hlt, hstarts⟩)
            · exact ⟨Nat.le_refl _, hmore.2, Or.inl ⟨Nat.sub_self _, rfl⟩⟩
            · refine ⟨by omega, hlt, Or.inr ⟨by omega, ?_⟩⟩
              rwa [Nat.sub_sub]
          · rintro ⟨hle, hlt, ⟨hzero, rfl⟩ | ⟨hge, hstarts⟩⟩
            · exact Or.inl ⟨by omega, rfl⟩
            · refine Or.inr ⟨by omega, hlt, ?_⟩
              rwa [Nat.sub_sub] at hstarts

/-! ## Strings of a section -/

/-- A string of the section, by its offset in the section. -/
def StringMergeInputSection.StringAt (sec : StringMergeInputSection) (offset : ℕ)
    (string : Bytes) : Prop :=
  if sec.isString then StartsAt sec.sectionData offset string
  else offset = 0 ∧ string = sec.sectionData

/-- A string of a section, by its offset in the linear space. -/
def StringOf (sections : List StringMergeInputSection) (inputOffset : ℕ) (string : Bytes) : Prop :=
  ∃ sec ∈ sections, ∃ offset, inputOffset = sec.startInputOffset + offset ∧
    sec.StringAt offset string

theorem StartsAt.lt {bytes : Bytes} (h : StartsAt bytes offset string) :
    offset + string.length ≤ bytes.length ∧ 0 < string.length := by
  have hle := h.isPrefix.length_le
  have hpos := List.length_pos_of_ne_nil h.terminated.ne_nil
  rw [length_drop] at hle
  omega

variable {sec : StringMergeInputSection}

theorem StringMergeInputSection.StringAt.lt
    (h : sec.StringAt offset string) (hdata : sec.sectionData ≠ []) :
    offset + string.length ≤ sec.sectionData.length ∧ 0 < string.length := by
  unfold StringAt at h
  split at h
  · exact h.lt
  · obtain ⟨rfl, rfl⟩ := h
    exact ⟨(Nat.zero_add _).le, List.length_pos_of_ne_nil hdata⟩

theorem advance_eq_ok {rangeStart advance : ℕ}
    (h : sec.advance rangeStart = .ok advance) (offset : ℕ) (string : Bytes) :
    advance ≤ offset ∧ StartsAt (sec.sectionData.drop advance) (offset - advance) string ↔
      rangeStart ≤ sec.startInputOffset + offset ∧ StartsAt sec.sectionData offset string := by
  unfold StringMergeInputSection.advance at h
  split at h
  next hlt =>
    dsimp only at h
    generalize hk : rangeStart - sec.startInputOffset = k at h
    have hrange : ∀ offset, rangeStart ≤ sec.startInputOffset + offset ↔ k ≤ offset := by
      omega
    rw [hrange]
    split at h
    next => cases h
    next byte hbyte =>
      split at h
      next hzero =>
        cases h
        subst hzero
        constructor
        · exact fun ⟨hle, hstarts⟩ => ⟨hle, (startsAt_drop hle (.inr hbyte)).mp hstarts⟩
        · exact fun ⟨hle, hstarts⟩ => ⟨hle, (startsAt_drop hle (.inr hbyte)).mpr hstarts⟩
      next hzero =>
        -- no string starts between the cut and the next null byte
        have hnone : ∀ offset, k ≤ offset → StartsAt sec.sectionData offset string →
            ∃ i, k ≤ i ∧ i < offset ∧ sec.sectionData[i]? = some 0 := by
          intro offset hle hstarts
          have hne : offset ≠ 0 := by omega
          have hprev := hstarts.start.resolve_left hne
          by_cases heq : offset = k
          · subst heq
            rw [hbyte] at hprev
            exact absurd (Option.some.inj hprev) hzero
          · exact ⟨offset - 1, by omega, by omega, hprev⟩
        split at h
        next hno =>
          cases h
          rw [List.findIdx?_eq_none_iff] at hno
          have hzeros : ∀ i, k ≤ i → sec.sectionData[i]? ≠ some 0 := by
            intro i hle hi
            have hmem : (0 : UInt8) ∈ sec.sectionData.drop k := by
              refine List.mem_of_getElem? (i := i - k) ?_
              rw [List.getElem?_drop, Nat.add_sub_cancel' hle]
              exact hi
            have := hno 0 hmem
            simp at this
          constructor
          · rintro ⟨hle, hstarts⟩
            have := hstarts.lt
            rw [length_drop] at this
            omega
          · rintro ⟨hle, hstarts⟩
            obtain ⟨i, hi, -, hbyte'⟩ := hnone offset hle hstarts
            exact absurd hbyte' (hzeros i hi)
        next nullOffset hnull =>
          cases h
          obtain ⟨hlt', hat, hbefore⟩ := List.findIdx?_eq_some_iff_getElem.mp hnull
          rw [length_drop] at hlt'
          have hnullAt : sec.sectionData[k + nullOffset + 1 - 1]? = some 0 := by
            rw [List.getElem_drop] at hat
            rw [Nat.add_sub_cancel, List.getElem?_eq_getElem (by omega), of_decide_eq_true hat]
          have hzeros : ∀ i, k ≤ i → i < k + nullOffset → sec.sectionData[i]? ≠ some 0 := by
            intro i hle hi hbyte'
            refine hbefore (i - k) (by omega) (decide_eq_true ?_)
            have hin : k + (i - k) < sec.sectionData.length := by omega
            rw [List.getElem_drop]
            have hk' : k + (i - k) = i := Nat.add_sub_cancel' hle
            rw [← hk', List.getElem?_eq_getElem hin] at hbyte'
            exact Option.some.inj hbyte'
          constructor
          · exact fun ⟨hle, hstarts⟩ =>
              ⟨by omega, (startsAt_drop hle (.inr hnullAt)).mp hstarts⟩
          · rintro ⟨hle, hstarts⟩
            have hle' : k + nullOffset + 1 ≤ offset := by
              obtain ⟨i, hi, hi', hbyte'⟩ := hnone offset hle hstarts
              by_contra hcontra
              exact hzeros i hi (by omega) hbyte'
            exact ⟨hle', (startsAt_drop hle' (.inr hnullAt)).mpr hstarts⟩
  next hge =>
    cases h
    exact and_congr_left' ⟨fun _ => by omega, fun _ => Nat.zero_le _⟩

variable {range : ℕ × ℕ}

theorem processInputSection_lists (h : processInputSection range sec = .ok entries)
    (hwhole : sec.isString = false →
      range.1 ≤ sec.startInputOffset ∧ sec.startInputOffset < range.2) :
    Lists entries fun x s => range.1 ≤ x ∧ x < range.2 ∧ StringOf [sec] x s := by
  have hsingle : ∀ x s, StringOf [sec] x s ↔ sec.startInputOffset ≤ x ∧
      sec.StringAt (x - sec.startInputOffset) s := by
    intro x s
    constructor
    · rintro ⟨_, hsec, offset, rfl, hat⟩
      obtain rfl := mem_singleton.mp hsec
      rw [Nat.add_sub_cancel_left]
      exact ⟨Nat.le_add_right _ _, hat⟩
    · rintro ⟨hle, hat⟩
      exact ⟨sec, mem_singleton_self sec, _, (Nat.add_sub_cancel' hle).symm, hat⟩
  unfold processInputSection at h
  split at h
  next => cases h
  next advance hadvance =>
    by_cases hstr : sec.isString = true
    · simp only [hstr] at h
      obtain ⟨hascending, hmem⟩ := takeStrings_lists h
      refine ⟨hascending, fun x s => ?_⟩
      rw [hmem, hsingle, StringMergeInputSection.StringAt, if_pos hstr]
      have hkey := advance_eq_ok hadvance (x - sec.startInputOffset) s
      constructor
      · rintro ⟨hle, hlt, hstarts⟩
        rw [← Nat.sub_sub] at hstarts
        obtain ⟨hstart, hat⟩ := hkey.mp ⟨by omega, hstarts⟩
        exact ⟨by omega, hlt, by omega, hat⟩
      · rintro ⟨hstart, hlt, hle, hat⟩
        obtain ⟨hadv, hstarts⟩ := hkey.mpr ⟨by omega, hat⟩
        rw [Nat.sub_sub] at hstarts
        exact ⟨by omega, hlt, hstarts⟩
    · rw [Bool.not_eq_true] at hstr
      simp only [hstr, Bool.not_false] at h
      cases h
      obtain ⟨hstart, hend⟩ := hwhole hstr
      have hzero : advance = 0 := by
        unfold StringMergeInputSection.advance at hadvance
        rw [if_neg (Nat.not_lt.mpr hstart)] at hadvance
        exact (ok.inj hadvance).symm
      subst hzero
      refine ⟨List.pairwise_singleton _ _, fun x s => ?_⟩
      rw [mem_singleton, Prod.mk.injEq, hsingle, StringMergeInputSection.StringAt,
        if_neg (Bool.eq_false_iff.mp hstr), List.drop_zero, Nat.add_zero]
      constructor
      · rintro ⟨rfl, rfl⟩
        exact ⟨hstart, hend, Nat.le_refl _, Nat.sub_self _, rfl⟩
      · rintro ⟨-, -, hle, hzero, rfl⟩
        exact ⟨by omega, rfl⟩

/-! ## Strings of a group -/

/-- A section ends, padding included, before another starts. -/
def Before (a b : StringMergeInputSection) : Prop :=
  a.startInputOffset + a.paddedLen ≤ b.startInputOffset

theorem length_le_paddedLen (sec : StringMergeInputSection) :
    sec.sectionData.length ≤ sec.paddedLen :=
  Layout.le_nextMultipleOf _ _ (by decide)

theorem Lists.append {first rest : List (ℕ × Bytes)} {such such' : ℕ → Bytes → Prop}
    (h : Lists first such) (h' : Lists rest such')
    (hbefore : ∀ x s y s', such x s → such' y s' → x < y) :
    Lists (first ++ rest) fun x s => such x s ∨ such' x s where
  ascending := by
    refine List.pairwise_append.mpr ⟨h.ascending, h'.ascending, ?_⟩
    rintro ⟨x, s⟩ hx ⟨y, s'⟩ hy
    exact hbefore x s y s' ((h.mem x s).mp hx) ((h'.mem y s').mp hy)
  mem x s := by rw [List.mem_append, h.mem, h'.mem]

theorem Lists.congr {such such' : ℕ → Bytes → Prop}
    (h : Lists entries such) (hiff : ∀ x s, such x s ↔ such' x s) : Lists entries such' where
  ascending := h.ascending
  mem x s := (h.mem x s).trans (hiff x s)

theorem Lists.unique {entries' : List (ℕ × Bytes)} {such : ℕ → Bytes → Prop}
    (h : Lists entries such) (h' : Lists entries' such) : entries = entries' := by
  have hnodup : ∀ {l : List (ℕ × Bytes)}, l.Pairwise (fun a b => a.1 < b.1) → l.Nodup :=
    fun hl => imp (fun {a b} (hlt : a.1 < b.1) (heq : a = b) =>
      Nat.lt_irrefl _ (heq ▸ hlt)) hl
  have hperm : entries.Perm entries' :=
    (List.perm_ext_iff_of_nodup (hnodup h.ascending) (hnodup h'.ascending)).mpr
      fun entry => (h.mem entry.1 entry.2).trans (h'.mem entry.1 entry.2).symm
  exact hperm.eq_of_pairwise (fun a b _ _ hab hba => absurd hba (Nat.lt_asymm hab))
    h.ascending h'.ascending

theorem stringOf_cons {sec : StringMergeInputSection} {sections : List StringMergeInputSection}
    {x : ℕ} {s : Bytes} :
    StringOf (sec :: sections) x s ↔ StringOf [sec] x s ∨ StringOf sections x s := by
  constructor
  · rintro ⟨sec', hsec, hrest⟩
    rcases mem_cons.mp hsec with rfl | hsec
    · exact .inl ⟨sec', mem_singleton_self _, hrest⟩
    · exact .inr ⟨sec', hsec, hrest⟩
  · rintro (⟨sec', hsec, hrest⟩ | ⟨sec', hsec, hrest⟩)
    · obtain rfl := mem_singleton.mp hsec
      exact ⟨sec', mem_cons_self, hrest⟩
    · exact ⟨sec', mem_cons_of_mem _ hsec, hrest⟩

variable {sections : List StringMergeInputSection}

theorem StringOf.inside {x : ℕ} {s : Bytes}
    (h : StringOf sections x s) (hdata : ∀ sec ∈ sections, sec.sectionData ≠ []) :
    ∃ sec ∈ sections, sec.startInputOffset ≤ x ∧ x < sec.startInputOffset + sec.paddedLen := by
  obtain ⟨sec, hsec, offset, rfl, hat⟩ := h
  have hlt := hat.lt (hdata sec hsec)
  have hle := length_le_paddedLen sec
  exact ⟨sec, hsec, by omega, by omega⟩

theorem mapM_lists : ∀ {sections : List StringMergeInputSection} {lists : List (List (ℕ × Bytes))},
    sections.mapM (processInputSection range) = ok lists → sections.Pairwise Before →
    (∀ sec ∈ sections, sec.sectionData ≠ []) →
    (∀ sec ∈ sections, sec.isString = false →
      range.1 ≤ sec.startInputOffset ∧ sec.startInputOffset < range.2) →
    Lists lists.flatten fun x s => range.1 ≤ x ∧ x < range.2 ∧ StringOf sections x s
  | [], lists, h, _, _, _ => by
    obtain rfl := ok.inj h
    refine ⟨nil, fun x s => ⟨fun hmem => absurd hmem not_mem_nil, ?_⟩⟩
    rintro ⟨-, -, sec, hsec, -⟩
    exact absurd hsec not_mem_nil
  | sec :: sections, lists, h, hlaid, hdata, hwhole => by
    rw [List.mapM_cons] at h
    cases hfirst : processInputSection range sec with
    | error e =>
      rw [hfirst] at h
      cases h
    | ok entries =>
      cases hrest : sections.mapM (processInputSection range) with
      | error e =>
        rw [hfirst, hrest] at h
        cases h
      | ok rest =>
        rw [hfirst, hrest] at h
        obtain rfl := ok.inj h
        obtain ⟨hbefore, hlaid⟩ := pairwise_cons.mp hlaid
        have hdata' : ∀ sec ∈ sections, sec.sectionData ≠ [] :=
          fun sec hsec => hdata sec (mem_cons_of_mem _ hsec)
        have hhere := processInputSection_lists hfirst (hwhole sec mem_cons_self)
        have hlater := mapM_lists hrest hlaid hdata'
          fun sec hsec => hwhole sec (mem_cons_of_mem _ hsec)
        refine (hhere.append hlater ?_).congr fun x s => ?_
        · rintro x s y s' ⟨-, -, hx⟩ ⟨-, -, hy⟩
          obtain ⟨_, hsec, -, hlt⟩ := hx.inside fun _ hsec =>
            mem_singleton.mp hsec ▸ hdata _ mem_cons_self
          obtain rfl := mem_singleton.mp hsec
          obtain ⟨sec', hsec', hge, -⟩ := hy.inside hdata'
          exact Nat.lt_of_lt_of_le hlt (Nat.le_trans (hbefore sec' hsec') hge)
        · rw [@stringOf_cons sec sections]
          tauto

theorem groupStrings_lists {group : SectionGroup}
    (h : groupStrings group = .ok entries) (hlaid : group.sections.Pairwise Before)
    (hdata : ∀ sec ∈ group.sections, sec.sectionData ≠ [])
    (hwhole : ∀ sec ∈ group.sections, sec.isString = false →
      group.range.1 ≤ sec.startInputOffset ∧ sec.startInputOffset < group.range.2) :
    Lists entries fun x s => group.range.1 ≤ x ∧ x < group.range.2 ∧
      StringOf group.sections x s := by
  unfold groupStrings at h
  cases hlists : group.sections.mapM (processInputSection group.range) with
  | error e =>
    rw [hlists] at h
    cases h
  | ok lists =>
    rw [hlists] at h
    cases h
    exact mapM_lists hlists hlaid hdata hwhole

/-! ## Strings of all groups -/

/-- What the inner loop takes, and what it leaves. -/
structure FilledGroup.Takes (filled : FilledGroup) (sections : List StringMergeInputSection)
    (linearStart : ℕ) : Prop where
  taken : filled.sections <+: sections
  left : filled.left <:+ sections
  next : ∀ sec ∈ filled.left.head?, filled.linearEnd = sec.startInputOffset + filled.offsetInSection ∧
    filled.offsetInSection ≤ sec.paddedLen ∧ (sec.isString = false → filled.offsetInSection = 0)
  divided : ∀ sec ∈ sections, ∀ x, sec.startInputOffset ≤ x →
    x < sec.startInputOffset + sec.paddedLen →
    (x < filled.linearEnd → sec ∈ filled.sections) ∧ (filled.linearEnd ≤ x → sec ∈ filled.left)
  whole : ∀ sec ∈ filled.sections, sec.isString = false →
    linearStart ≤ sec.startInputOffset ∧ sec.startInputOffset + sec.paddedLen ≤ filled.linearEnd
  forward : linearStart ≤ filled.linearEnd

/-- A section follows another without a gap. -/
def Adjoins (a b : StringMergeInputSection) : Prop :=
  b.startInputOffset = a.startInputOffset + a.paddedLen

theorem pairwise_before (h : sections.IsChain Adjoins) : sections.Pairwise Before := by
  have : Trans Before Before Before := ⟨fun {a b c} hab hbc => by unfold Before at *; omega⟩
  exact (h.imp fun {a b} (hab : Adjoins a b) => show Before a b from (hab : _ = _).ge).pairwise

theorem fillGroup_takes (rest : List StringMergeInputSection) :
    ∀ (sec : StringMergeInputSection) (offset remaining : ℕ), offset ≤ sec.paddedLen →
      (sec.isString = false → offset = 0) → (sec :: rest).IsChain Adjoins →
      (fillGroup sec rest offset remaining).Takes (sec :: rest) (sec.startInputOffset + offset) := by
  induction rest with
  | nil =>
    intro sec offset remaining hoff hstr hchain
    unfold fillGroup
    by_cases hpart : remaining < sec.paddedLen - offset ∧ sec.isString = true
    · rw [if_pos hpart]
      refine ⟨List.prefix_refl _, List.suffix_refl _, ?_, ?_, ?_, ?_⟩
      · rintro _ ⟨⟩
        exact ⟨rfl, by simp only; omega, fun hnot => absurd (hnot.symm.trans hpart.2) (by decide)⟩
      · rintro _ hsec x hle hlt
        exact ⟨fun _ => hsec, fun _ => hsec⟩
      · rintro _ hsec hnot
        obtain rfl := mem_singleton.mp hsec
        exact absurd (hnot.symm.trans hpart.2) (by decide)
      · simp only
        omega
    · rw [if_neg hpart]
      refine ⟨List.prefix_refl _, List.nil_suffix, ?_, ?_, ?_, ?_⟩
      · rintro _ ⟨⟩
      · rintro _ hsec x hle hlt
        obtain rfl := mem_singleton.mp hsec
        refine ⟨fun _ => hsec, fun hge => ?_⟩
        simp only at hge
        omega
      · rintro _ hsec hnot
        obtain rfl := mem_singleton.mp hsec
        simp only [hstr hnot]
        omega
      · simp only
        omega
  | cons next rest ih =>
    intro sec offset remaining hoff hstr hchain
    obtain ⟨hnext, hchain'⟩ := List.isChain_cons_cons.mp hchain
    have hlaid := pairwise_before hchain
    have hfar : ∀ sec' ∈ next :: rest, sec.startInputOffset + sec.paddedLen ≤
        sec'.startInputOffset := (pairwise_cons.mp hlaid).1
    unfold fillGroup
    by_cases hpart : remaining < sec.paddedLen - offset ∧ sec.isString = true
    · rw [if_pos hpart]
      refine ⟨⟨next :: rest, rfl⟩, List.suffix_refl _, ?_, ?_, ?_, ?_⟩
      · rintro _ ⟨⟩
        exact ⟨rfl, by simp only; omega, fun hnot => absurd (hnot.symm.trans hpart.2) (by decide)⟩
      · rintro sec' hsec x hle hlt
        refine ⟨fun hbefore => ?_, fun _ => hsec⟩
        rcases mem_cons.mp hsec with rfl | hsec
        · exact mem_singleton_self _
        · have := hfar sec' hsec
          simp only at hbefore
          omega
      · rintro _ hsec hnot
        obtain rfl := mem_singleton.mp hsec
        exact absurd (hnot.symm.trans hpart.2) (by decide)
      · simp only
        omega
    · rw [if_neg hpart]
      by_cases hend : remaining ≤ sec.paddedLen - offset
      · simp only [hend, if_true]
        refine ⟨⟨next :: rest, rfl⟩, List.suffix_cons _ _, ?_, ?_, ?_, ?_⟩
        · rintro _ ⟨⟩
          refine ⟨?_, Nat.zero_le _, fun _ => rfl⟩
          unfold Adjoins at hnext
          simp only
          omega
        · rintro sec' hsec x hle hlt
          rcases mem_cons.mp hsec with rfl | hsec
          · refine ⟨fun _ => mem_singleton_self _, fun hge => ?_⟩
            simp only at hge
            omega
          · refine ⟨fun hbefore => ?_, fun _ => hsec⟩
            have := hfar sec' hsec
            simp only at hbefore
            omega
        · rintro _ hsec hnot
          obtain rfl := mem_singleton.mp hsec
          simp only [hstr hnot]
          omega
        · simp only
          omega
      · simp only [hend, if_false]
        have hrec := ih next 0 (remaining - (sec.paddedLen - offset)) (Nat.zero_le _)
          (fun _ => rfl) hchain'
        unfold Adjoins at hnext
        have hforward := hrec.forward
        refine ⟨?_, hrec.left.trans (List.suffix_cons _ _), hrec.next, ?_, ?_, ?_⟩
        · obtain ⟨after, hafter⟩ := hrec.taken
          exact ⟨after, by rw [cons_append, hafter]⟩
        · rintro sec' hsec x hle hlt
          rcases mem_cons.mp hsec with rfl | hsec
          · refine ⟨fun _ => mem_cons_self, fun hge => ?_⟩
            simp only at hge
            omega
          · obtain ⟨hbefore, hafter⟩ := hrec.divided sec' hsec x hle hlt
            exact ⟨fun h => mem_cons_of_mem _ (hbefore h), hafter⟩
        · rintro sec' hsec hnot
          rcases mem_cons.mp hsec with rfl | hsec
          · have := hstr hnot
            simp only
            omega
          · obtain ⟨hstart, hstop⟩ := hrec.whole sec' hsec hnot
            exact ⟨by omega, hstop⟩
        · simp only
          omega

variable {size : ℕ}

theorem splitSectionsFrom_lists {hsize : 0 < size}
    (sections : List StringMergeInputSection) (offset : ℕ) :
    ∀ {lists : List (List (ℕ × Bytes))}, sections.IsChain Adjoins →
    (∀ sec ∈ sections, sec.sectionData ≠ []) →
    (∀ sec ∈ sections.head?, offset ≤ sec.paddedLen ∧ (sec.isString = false → offset = 0)) →
    List.Forall₂ (fun group entries => groupStrings group = ok entries)
      (splitSectionsFrom size hsize sections offset) lists →
    Lists lists.flatten fun x s =>
      (∀ sec ∈ sections.head?, sec.startInputOffset + offset ≤ x) ∧ StringOf sections x s := by
  induction sections, offset using splitSectionsFrom.induct size hsize with
  | case1 offset =>
    intro lists _ _ _ hlists
    rw [splitSectionsFrom] at hlists
    cases hlists
    refine ⟨nil, fun x s => ⟨fun hmem => absurd hmem not_mem_nil, ?_⟩⟩
    rintro ⟨-, sec, hsec, -⟩
    exact absurd hsec not_mem_nil
  | case2 offset sec rest filled =>
    rename_i ih
    intro lists hchain hdata hhead hlists
    obtain ⟨hoff, hstr⟩ := hhead sec rfl
    rw [splitSectionsFrom] at hlists
    have htakes := fillGroup_takes rest sec offset size hoff hstr hchain
    rw [show fillGroup sec rest offset size = filled from rfl] at hlists htakes
    clear_value filled
    cases hlists with
    | cons hgroup hlists =>
      next entries lists =>
      have hleft := ih (hchain.suffix htakes.left)
        (fun sec' hsec => hdata sec' (htakes.left.subset hsec))
        (fun sec' hsec => ((htakes.next sec' hsec).2)) hlists
      have hhere := groupStrings_lists hgroup
        ((pairwise_before hchain).sublist htakes.taken.sublist)
        (fun sec' hsec => hdata sec' (htakes.taken.subset hsec)) fun sec' hsec hnot => by
          obtain ⟨hstart, hstop⟩ := htakes.whole sec' hsec hnot
          have hpos := List.length_pos_of_ne_nil (hdata sec' (htakes.taken.subset hsec))
          have hle := length_le_paddedLen sec'
          exact ⟨hstart, by show sec'.startInputOffset < filled.linearEnd; omega⟩
      have hbound : ∀ x s, StringOf filled.left x s →
          ((∀ sec' ∈ filled.left.head?, sec'.startInputOffset + filled.offsetInSection ≤ x) ↔
            filled.linearEnd ≤ x) := by
        rintro x s ⟨sec', hsec', -⟩
        cases hcases : filled.left with
        | nil =>
          rw [hcases] at hsec'
          exact absurd hsec' not_mem_nil
        | cons first later =>
          have hfirst : first ∈ filled.left.head? := by rw [hcases]; rfl
          rw [(htakes.next first hfirst).1]
          exact ⟨fun h => h first rfl, fun h sec'' hsec'' => Option.some.inj hsec'' ▸ h⟩
      rw [List.flatten_cons]
      refine (hhere.append hleft ?_).congr fun x s => ?_
      · rintro x s y s' ⟨-, hlt, -⟩ ⟨hge, hat⟩
        exact Nat.lt_of_lt_of_le hlt ((hbound y s' hat).mp hge)
      · constructor
        · rintro (⟨hge, -, sec', hsec', hat⟩ | ⟨hge, hat⟩)
          · refine ⟨?_, sec', htakes.taken.subset hsec', hat⟩
            rintro _ ⟨⟩
            exact hge
          · have hend := (hbound x s hat).mp hge
            obtain ⟨sec', hsec', hat⟩ := hat
            refine ⟨?_, sec', htakes.left.subset hsec', hat⟩
            rintro _ ⟨⟩
            exact htakes.forward.trans hend
        · rintro ⟨hge, sec', hsec', o, rfl, hat⟩
          have hlt := hat.lt (hdata sec' hsec')
          have hle := length_le_paddedLen sec'
          obtain ⟨hbefore, hafter⟩ := htakes.divided sec' hsec' (sec'.startInputOffset + o)
            (by omega) (by omega)
          rcases Nat.lt_or_ge (sec'.startInputOffset + o) filled.linearEnd with h | h
          · exact Or.inl ⟨hge sec rfl, h, sec', hbefore h, o, rfl, hat⟩
          · have hstr : StringOf filled.left (sec'.startInputOffset + o) s :=
              ⟨sec', hafter h, o, rfl, hat⟩
            exact Or.inr ⟨(hbound _ s hstr).mpr h, hstr⟩

/-! ## The sections of the linker -/

theorem groupMergeStringSections_chain (extras : List StringMergeSectionExtra) :
    ∀ startingOffset, (groupMergeStringSections startingOffset extras).IsChain Adjoins ∧
      ∀ sec ∈ (groupMergeStringSections startingOffset extras).head?,
        sec.startInputOffset = startingOffset := by
  induction extras with
  | nil => exact fun _ => ⟨List.IsChain.nil, fun sec hsec => by cases hsec⟩
  | cons extra extras ih =>
    intro startingOffset
    obtain ⟨hchain, hhead⟩ := ih
      (startingOffset + nextMultipleOf extra.sectionData.length mapBlockSize)
    rw [groupMergeStringSections]
    refine ⟨List.isChain_cons.mpr ⟨fun sec hsec => hhead sec hsec, hchain⟩, ?_⟩
    rintro _ ⟨⟩
    rfl

theorem map_groupMergeStringSections (extras : List StringMergeSectionExtra) :
    ∀ startingOffset, (groupMergeStringSections startingOffset extras).map
      (fun sec => (⟨sec.sectionData, sec.isString⟩ : StringMergeSectionExtra)) = extras := by
  induction extras with
  | nil => exact fun _ => rfl
  | cons extra extras ih => exact fun _ => by rw [groupMergeStringSections, List.map_cons, ih]

variable {extras : List StringMergeSectionExtra}

theorem sectionData_ne_nil : ∀ sec ∈ inputSections extras, sec.sectionData ≠ [] := by
  intro sec hsec hnil
  have hmem : (⟨sec.sectionData, sec.isString⟩ : StringMergeSectionExtra) ∈
      resolveMergeSections extras := by
    rw [← map_groupMergeStringSections (resolveMergeSections extras) 0]
    exact List.mem_map_of_mem hsec
  rw [resolveMergeSections] at hmem
  simp [hnil] at hmem

theorem strings_of_groups {groups : List SectionGroup} {lists : List (List (ℕ × Bytes))}
    (hsplit : splitSections (inputSections extras) size = some groups)
    (hlists : List.Forall₂ (fun group entries => groupStrings group = ok entries)
      groups lists) :
    Lists lists.flatten (StringOf (inputSections extras)) := by
  unfold splitSections at hsplit
  split at hsplit
  next h =>
    cases hsplit
    obtain ⟨hchain, hhead⟩ := groupMergeStringSections_chain (resolveMergeSections extras) 0
    refine (splitSectionsFrom_lists (inputSections extras) 0 hchain sectionData_ne_nil
      (fun _ _ => ⟨Nat.zero_le _, fun _ => rfl⟩) hlists).congr fun x s => ?_
    refine and_iff_right fun sec hsec => ?_
    rw [hhead sec hsec]
    exact Nat.zero_le _
  next => cases hsplit

end Sld.Strings
