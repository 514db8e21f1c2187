/-
# `Incremental.MaskedFields` — inputs with one fingerprint

Two versions of an input that have the same fingerprint differ only where one
of them is blanked out.  That is never in the header of an object file, so
both have the same section headers but for the size fields of the patched
sections; and a section that neither version patches is at the same place in
both, where only its own recorded fields are blanked out.

    InputVersion                an input and what is blanked out of it
    InputVersion.masked_cases   where something is blanked out
    fingerprints_agree          what one fingerprint says about two versions
-/
import Sld.Incremental.Fingerprints
import Sld.Order.SortDedup
import Sld.Text.Hex

namespace Sld.Incremental.Masks

open Store (ByteRange InOrder masked Covered Agree)
open Elf (SectionHeader HeaderTable elfSectionHeaders headerTable elfClass)
open Option (bind_eq_bind bind_eq_some_iff bind_some some)

/-! ## Lists of options -/

theorem getElem?_of_mapM {α β : Type*} {f : α → Option β} {l : List α} {results : List β}
    (h : l.mapM f = some results) (i : ℕ) : results[i]? = l[i]?.bind f := by
  induction l generalizing results i with
  | nil =>
    cases h
    rfl
  | cons a l ih =>
    rw [List.mapM_cons] at h
    simp only [bind_eq_bind, bind_eq_some_iff] at h
    obtain ⟨b, hb, bs, hbs, heq⟩ := h
    cases heq
    cases i with
    | zero => exact hb.symm
    | succ i => exact ih hbs i

theorem exists_of_mapM {α β : Type*} {f : α → Option β} {l : List α} {results : List β}
    (h : l.mapM f = some results) {b : β} (hb : b ∈ results) : ∃ a ∈ l, f a = some b := by
  obtain ⟨i, hi⟩ := List.mem_iff_getElem?.1 hb
  rw [getElem?_of_mapM h i, bind_eq_some_iff] at hi
  obtain ⟨a, ha, hab⟩ := hi
  exact ⟨a, List.mem_of_getElem? ha, hab⟩

/-! ## Places in an object file -/

section

variable {bytes : List UInt8} {table : HeaderTable}

variable {header : SectionHeader} {headers : List SectionHeader} {index : ℕ}

theorem getElem?_elfSectionHeaders (htable : headerTable bytes = some table)
    (h : elfSectionHeaders bytes = some headers) (hheader : headers[index]? = some header) :
    index < table.count ∧ table.sectionHeader bytes index = some header := by
  unfold elfSectionHeaders at h
  rw [htable] at h
  rw [getElem?_of_mapM h index, bind_eq_some_iff] at hheader
  obtain ⟨i, hi, hread⟩ := hheader
  obtain ⟨hlt, heq⟩ := List.getElem?_eq_some_iff.1 hi
  rw [List.getElem_range] at heq
  rw [List.length_range] at hlt
  subst heq
  exact ⟨hlt, hread⟩

theorem content_of_header (hlt : index < table.count)
    (hheader : table.sectionHeader bytes index = some header)
    (htype : header.shType ≠ Elf.shtNobits) :
    table.content bytes index = some ⟨header.shOffset, header.shOffset + header.shSize⟩ := by
  have hcount : table.sectionCount bytes = table.count := by
    unfold HeaderTable.sectionCount
    rw [if_pos (.inl (by omega))]
  unfold HeaderTable.content
  rw [hcount, if_pos hlt, hheader, bind_some]
  unfold SectionHeader.fileRange
  rw [if_neg htype]

/-- The range is in the content of some section. -/
def InSomeContent (table : HeaderTable) (bytes : List UInt8) (range : ByteRange) : Prop :=
  ∃ index, ∃ content ∈ table.content bytes index, range.Inside content

variable {range : ByteRange}

theorem inSomeContent_of_mem (htable : headerTable bytes = some table)
    (hheaders : elfSectionHeaders bytes = some headers) (hmem : header ∈ headers)
    (htype : header.shType ≠ Elf.shtNobits) (hstart : header.shOffset ≤ range.start)
    (hstop : range.stop ≤ header.shOffset + header.shSize) :
    InSomeContent table bytes range := by
  obtain ⟨index, hindex⟩ := List.mem_iff_getElem?.1 hmem
  obtain ⟨hlt, hread⟩ := getElem?_elfSectionHeaders htable hheaders hindex
  exact ⟨index, _, content_of_header hlt hread htype, hstart, hstop⟩

variable {entries : List RelaPatchEntry} {entry : RelaPatchEntry}

theorem relaEntriesOf_inside (h : relaEntriesOf bytes header = some entries)
    (hentry : entry ∈ entries) : header.shOffset ≤ entry.addendRange.start ∧
      entry.addendRange.stop ≤ header.shOffset + header.shSize := by
  unfold relaEntriesOf at h
  split at h
  next hfits =>
    obtain ⟨index, hindex, hread⟩ := exists_of_mapM h hentry
    simp only [bind_eq_bind, bind_eq_some_iff] at hread
    obtain ⟨offset, -, heq⟩ := hread
    cases heq
    have hlt := List.mem_range.1 hindex
    have hdiv := Nat.div_mul_le_self header.shSize relaEntrySize
    have hmul : (index + 1) * relaEntrySize ≤ header.shSize / relaEntrySize * relaEntrySize :=
      Nat.mul_le_mul_right _ hlt
    simp only
    unfold relaEntrySize at *
    omega
  next => cases h

theorem isRelaFor_type
    (h : SectionHeader.isRelaFor header index = true) : header.shType ≠ Elf.shtNobits := by
  rw [(of_decide_eq_true h).1]
  decide

/-- The addend of an entry of a relocation section for this section. -/
def AddendOf (bytes : List UInt8) (index : ℕ) (range : ByteRange) : Prop :=
  ∃ headers, elfSectionHeaders bytes = some headers ∧ ∃ header ∈ headers,
    SectionHeader.isRelaFor header index = true ∧ ∃ entries,
      relaEntriesOf bytes header = some entries ∧ ∃ entry ∈ entries, entry.addendRange = range

theorem AddendOf.inside (htable : headerTable bytes = some table)
    (h : AddendOf bytes index range) : InSomeContent table bytes range := by
  obtain ⟨headers, hheaders, header, hheader, hrela, entries, hentries, entry, hmem, rfl⟩ := h
  obtain ⟨hstart, hstop⟩ := relaEntriesOf_inside hentries hmem
  exact inSomeContent_of_mem htable hheaders hheader (isRelaFor_type hrela) hstart hstop

theorem addendOf_entry (hheaders : elfSectionHeaders bytes = some headers)
    (h : relaEntriesForSection bytes headers index = some entries) (hentry : entry ∈ entries) :
    AddendOf bytes index entry.addendRange := by
  unfold relaEntriesForSection at h
  simp only [bind_eq_bind, bind_eq_some_iff] at h
  obtain ⟨groups, hgroups, heq⟩ := h
  cases heq
  obtain ⟨group, hgroup, hentry⟩ := List.mem_flatten.1 hentry
  obtain ⟨header, hheader, hread⟩ := exists_of_mapM hgroups hgroup
  obtain ⟨hmem, hrela⟩ := List.mem_filter.1 hheader
  exact ⟨headers, hheaders, header, hmem, hrela, group, hread, entry, hentry, rfl⟩

variable {record : RelocationPlace}

theorem relocationAddendRange_addend (h : relocationAddendRange bytes record = some range) :
    AddendOf bytes record.sectionIndex range := by
  unfold relocationAddendRange at h
  simp only [bind_eq_bind, bind_eq_some_iff] at h
  obtain ⟨headers, hheaders, entry, hentry, heq⟩ := h
  cases heq
  have hmem := List.mem_of_find?_eq_some hentry
  cases hentries : relaEntriesForSection bytes headers record.sectionIndex with
  | none =>
    rw [hentries] at hmem
    cases hmem
  | some entries =>
    rw [hentries] at hmem
    exact addendOf_entry hheaders hentries hmem

theorem dynamicRelocationAddendRange_addend
    (h : dynamicRelocationAddendRange bytes record = some range) :
    AddendOf bytes record.sectionIndex range := by
  unfold dynamicRelocationAddendRange at h
  simp only [bind_eq_bind, bind_eq_some_iff] at h
  obtain ⟨headers, hheaders, entry, hentry, heq⟩ := h
  cases heq
  obtain ⟨header, hheader, hmem⟩ := List.mem_flatMap.1 (List.mem_of_find?_eq_some hentry)
  obtain ⟨hheader, hrela⟩ := List.mem_filter.1 hheader
  cases hentries : relaEntriesOf bytes header with
  | none =>
    rw [hentries] at hmem
    cases hmem
  | some entries =>
    rw [hentries] at hmem
    exact ⟨headers, hheaders, header, hheader, hrela, entries, hentries, entry, hmem, rfl⟩

theorem elfSymbolValueFieldRange_inside {symbolIndex : ℕ} (htable : headerTable bytes = some table)
    (h : elfSymbolValueFieldRange bytes symbolIndex = some range) :
    InSomeContent table bytes range := by
  unfold elfSymbolValueFieldRange at h
  rw [htable] at h
  simp only [bind_eq_bind, bind_some, bind_eq_some_iff] at h
  obtain ⟨headers, hheaders, header, hheader, heq⟩ := h
  cases heq
  have hfound := List.find?_some hheader
  obtain ⟨htype, -, hfits, -⟩ := of_decide_eq_true hfound
  refine inSomeContent_of_mem htable hheaders (List.mem_of_find?_eq_some hheader) ?_ ?_ ?_
  · rw [htype]
    decide
  · show header.shOffset ≤ header.shOffset + _ + _
    omega
  · have hfield : table.elfClass.stValue.offset + table.elfClass.stValue.width ≤
        table.elfClass.symbolSize := by
      cases table.elfClass <;> decide
    show header.shOffset + _ + _ + _ ≤ _
    omega

/-- Frame descriptions are in sections with a content. -/
def FdeMask.HasContent (bytes : List UInt8) (fde : FdeMask) : Prop :=
  ∀ headers, elfSectionHeaders bytes = some headers →
    ∀ header, headers[fde.ehFrameSectionIndex]? = some header → header.shType ≠ Elf.shtNobits

variable {ranges : List ByteRange}

theorem fdeInputRange_inside {fde : FdeMask} (htable : headerTable bytes = some table)
    (hcont : fde.HasContent bytes) (hheaders : elfSectionHeaders bytes = some headers)
    (h : fdeInputRange bytes.length headers fde = some range) :
    InSomeContent table bytes range := by
  unfold fdeInputRange at h
  simp only [bind_eq_bind, bind_eq_some_iff] at h
  obtain ⟨header, hheader, h⟩ := h
  split at h
  next hfits =>
    cases h
    exact inSomeContent_of_mem htable hheaders (List.mem_of_getElem? hheader)
      (hcont headers hheaders header hheader) (Nat.le_add_right _ _) hfits.2.1
  next => cases h

theorem mem_fdePatchInputRanges {fde : FdeMask} (h : fdePatchInputRanges bytes fde = some ranges)
    (hrange : range ∈ ranges) : AddendOf bytes fde.ehFrameSectionIndex range ∨
      ∃ headers, elfSectionHeaders bytes = some headers ∧
        fdeInputRange bytes.length headers fde = some range := by
  unfold fdePatchInputRanges at h
  simp only [bind_eq_bind, bind_eq_some_iff] at h
  obtain ⟨headers, hheaders, fdeRange, hfde, entries, hentries, heq⟩ := h
  cases heq
  cases hrange with
  | head => exact .inr ⟨headers, hheaders, hfde⟩
  | tail _ hrange =>
    obtain ⟨entry, hentry, rfl⟩ := List.mem_map.1 hrange
    exact .inl (addendOf_entry hheaders hentries (List.mem_filter.1 hentry).1)

variable {file : List UInt8} {mask : MemberMask}

/-- What is blanked out besides the patched sections is an addend, the value of
a recorded symbol or a recorded frame description. -/
theorem MemberMask.mem_extraRanges (h : range ∈ mask.extraRanges file) :
    (∃ index, AddendOf (mask.bytes file) index range) ∨
      (∃ symbol ∈ mask.symbols, elfSymbolValueFieldRange (mask.bytes file) symbol = some range) ∨
      ∃ fde ∈ mask.fdes, ∃ headers, elfSectionHeaders (mask.bytes file) = some headers ∧
        fdeInputRange (mask.bytes file).length headers fde = some range := by
  unfold MemberMask.extraRanges at h
  simp only [List.mem_append, List.mem_filterMap, List.mem_flatten] at h
  rcases h with ⟨_, -, h⟩ | ⟨_, -, h⟩ | hsym | ⟨ranges, ⟨fde, hfde, h⟩, hrange⟩
  · exact .inl ⟨_, dynamicRelocationAddendRange_addend h⟩
  · exact .inl ⟨_, relocationAddendRange_addend h⟩
  · exact .inr (.inl hsym)
  · rcases mem_fdePatchInputRanges h hrange with haddend | hbytes
    · exact .inl ⟨_, haddend⟩
    · exact .inr (.inr ⟨fde, hfde, hbytes⟩)

theorem MemberMask.extraRanges_inside (htable : headerTable (mask.bytes file) = some table)
    (hfdes : ∀ fde ∈ mask.fdes, fde.HasContent (mask.bytes file))
    (h : range ∈ mask.extraRanges file) : InSomeContent table (mask.bytes file) range := by
  rcases MemberMask.mem_extraRanges h with ⟨_, h⟩ | ⟨_, -, h⟩ | ⟨fde, hfde, _, hheaders, h⟩
  · exact h.inside htable
  · exact elfSymbolValueFieldRange_inside htable h
  · exact fdeInputRange_inside htable (hfdes fde hfde) hheaders h

theorem MemberMask.extraRanges_of_none
    (h : headerTable (mask.bytes file) = none) : mask.extraRanges file = [] := by
  have hheaders : elfSectionHeaders (mask.bytes file) = none := by
    unfold elfSectionHeaders
    rw [h]
    rfl
  refine List.eq_nil_iff_forall_not_mem.2 fun range hrange => ?_
  rcases MemberMask.mem_extraRanges hrange with ⟨_, _, hsome, -⟩ | ⟨_, -, hsym⟩ | ⟨_, -, _, hsome, -⟩
  · cases hheaders.symm.trans hsome
  · unfold elfSymbolValueFieldRange at hsym
    rw [h] at hsym
    cases hsym
  · cases hheaders.symm.trans hsome

theorem MemberMask.sectionRanges_cases {patched : PatchedSection}
    (h : mask.sectionRanges file patched = some ranges) (hrange : range ∈ ranges) :
    ∃ table, headerTable (mask.bytes file) = some table ∧
      (table.content (mask.bytes file) patched.sectionIndex = some range ∨
        patched.sectionIndex < table.count ∧ range = table.sizeField patched.sectionIndex ∧
          range.Inside (table.headerRange patched.sectionIndex) ∧
          range.stop ≤ (mask.bytes file).length) := by
  unfold MemberMask.sectionRanges at h
  simp only [bind_eq_bind, bind_eq_some_iff] at h
  obtain ⟨table, htable, content, hcont, h⟩ := h
  refine ⟨table, htable, ?_⟩
  split at h
  · cases h
  · split at h
    · cases h
    · cases h
      cases hrange with
      | head => exact .inl hcont
      | tail _ hrange =>
        have hfield := Option.mem_toList.1 hrange
        unfold elfSectionSizeFieldRange at hfield
        rw [htable] at hfield
        simp only [bind_eq_bind, bind_some] at hfield
        split at hfield
        · cases hfield
        next hfits =>
          cases hfield
          refine .inr ⟨by omega, rfl, ⟨Nat.le_add_right _ _, ?_⟩, by omega⟩
          show _ + _ + _ ≤ _ + _
          omega

end

/-! ## Two versions -/

/-- The format of archives, as it is read.  The object files do not overlap, and
where they are is said outside of them. -/
structure ArchiveFormat where
  members : List UInt8 → Option (List ByteRange)
  within : ∀ file found, members file = some found →
    ∀ member ∈ found, member.start ≤ member.stop ∧ member.stop ≤ file.length
  apart : ∀ file found, members file = some found → found.Pairwise ByteRange.Apart
  same : ∀ file other found otherFound, members file = some found →
    members other = some otherFound → file.length = other.length →
    (Agree file other fun p => ¬Covered found p ∧ ¬Covered otherFound p) → found = otherFound

inductive InputKind where
  | object
  | archive

/-- The object files of an input. -/
def objectFiles (format : ArchiveFormat) (kind : InputKind) (file : List UInt8) :
    Option (List ByteRange) :=
  match kind with
  | .object => some [⟨0, file.length⟩]
  | .archive => format.members file

/-- A version of an input, with what is blanked out of it.  The places of its
object files are apart, as the format has it. -/
structure InputVersion (format : ArchiveFormat) (kind : InputKind) where
  file : List UInt8
  members : List ByteRange
  masks : List MemberMask
  members_eq : objectFiles format kind file = some members
  mask_member : ∀ mask ∈ masks, mask.member ∈ members
  separate : ∀ member ∈ members, ∀ table, headerTable (memberBytes file member) = some table →
    table.Separate (memberBytes file member)
  frames : ∀ mask ∈ masks, ∀ fde ∈ mask.fdes, fde.HasContent (mask.bytes file)

namespace InputVersion

variable {format : ArchiveFormat} {kind : InputKind}

/-- A section of an object file is patched. -/
def Patches (version : InputVersion format kind) (member : ByteRange) (index : ℕ) : Prop :=
  ∃ mask ∈ version.masks, mask.member = member ∧
    ∃ patched ∈ mask.sections, patched.sectionIndex = index

/-- A place of an object file is in a recorded addend, in the value of a recorded
symbol or in a recorded frame description. -/
def Recorded (version : InputVersion format kind) (member : ByteRange) (p : ℕ) : Prop :=
  ∃ mask ∈ version.masks, mask.member = member ∧ Covered (mask.extraRanges version.file) p

/-- A place of an object file is blanked out. -/
def Masked (version : InputVersion format kind) (member : ByteRange) (p : ℕ) : Prop :=
  version.Recorded member p ∨ ∃ mask ∈ version.masks, mask.member = member ∧
    ∃ patched ∈ mask.sections, ∃ ranges ∈ mask.sectionRanges version.file patched,
      Covered ranges p

variable (version : InputVersion format kind)

variable {member : ByteRange}

theorem member_within (h : member ∈ version.members) :
    member.start ≤ member.stop ∧ member.stop ≤ version.file.length := by
  have hfound := version.members_eq
  cases kind with
  | object =>
    rw [← some.inj hfound, List.mem_singleton] at h
    rw [h]
    exact ⟨Nat.zero_le _, le_rfl⟩
  | archive => exact format.within _ _ hfound member h

theorem members_apart : version.members.Pairwise ByteRange.Apart := by
  have hfound := version.members_eq
  cases kind with
  | object =>
    rw [← some.inj hfound]
    exact List.pairwise_singleton _ _
  | archive => exact format.apart _ _ hfound

theorem length_memberBytes (h : member ∈ version.members) :
    (memberBytes version.file member).length = member.stop - member.start := by
  obtain ⟨hle, hfits⟩ := version.member_within h
  exact Store.length_part (by omega)

variable {p : ℕ}

theorem masked_cases {table : HeaderTable}
    (htable : headerTable (memberBytes version.file member) = some table)
    (h : version.Masked member p) :
    (∃ index < table.count, version.Patches member index ∧
        (table.sizeField index).Covers p ∧ (table.headerRange index).Covers p ∧
        p < (memberBytes version.file member).length) ∨
      ∃ index, ∃ content ∈ table.content (memberBytes version.file member) index,
        content.Covers p ∧ (version.Patches member index ∨ version.Recorded member p) := by
  rcases h with ⟨mask, hmask, rfl, range, hrange, hp⟩ |
    ⟨mask, hmask, rfl, patched, hpatched, ranges, hranges, range, hrange, hp⟩
  · obtain ⟨index, content, hcont, hinside⟩ :=
      MemberMask.extraRanges_inside htable (version.frames mask hmask) hrange
    exact .inr ⟨index, content, hcont, hinside.covers hp,
      .inr ⟨mask, hmask, rfl, range, hrange, hp⟩⟩
  · obtain ⟨table', htable', hcases⟩ := MemberMask.sectionRanges_cases hranges hrange
    have heq : table' = table := some.inj (htable'.symm.trans htable)
    subst heq
    have hpatches : version.Patches mask.member patched.sectionIndex :=
      ⟨mask, hmask, rfl, patched, hpatched, rfl⟩
    rcases hcases with hcont | ⟨hlt, rfl, hinside, hfits⟩
    · exact .inr ⟨_, range, hcont, hp, .inl hpatches⟩
    · exact .inl ⟨_, hlt, hpatches, hp, hinside.covers hp, Nat.lt_of_lt_of_le hp.2 hfits⟩

theorem not_masked_of_none
    (h : headerTable (memberBytes version.file member) = none) : ¬version.Masked member p := by
  rintro (⟨mask, hmask, rfl, range, hrange, -⟩ |
    ⟨mask, hmask, rfl, patched, hpatched, ranges, hranges, range, hrange, -⟩)
  · rw [MemberMask.extraRanges_of_none h] at hrange
    cases hrange
  · obtain ⟨table, htable, -⟩ := MemberMask.sectionRanges_cases hranges hrange
    have hnone : headerTable (mask.bytes version.file) = none := h
    rw [hnone] at htable
    cases htable

theorem not_masked_header (hmember : member ∈ version.members)
    (hp : ∀ table, headerTable (memberBytes version.file member) = some table →
      p < table.elfClass.headerSize) : ¬version.Masked member p := by
  cases htable : headerTable (memberBytes version.file member) with
  | none => exact version.not_masked_of_none htable
  | some table =>
    intro h
    have hseparate := version.separate member hmember table htable
    have hlt := hp table htable
    rcases version.masked_cases htable h with ⟨index, hindex, -, -, hcovers, -⟩ |
      ⟨index, content, hcont, hcovers, -⟩
    · exact absurd (hseparate.header_headers index hindex p hcovers) (Nat.not_le_of_lt hlt)
    · exact absurd (hseparate.header_contents index content hcont p hcovers) (Nat.not_le_of_lt hlt)

theorem masked_lt (hmember : member ∈ version.members)
    (h : version.Masked member p) : p < member.stop - member.start := by
  rw [← version.length_memberBytes hmember]
  cases htable : headerTable (memberBytes version.file member) with
  | none => exact absurd h (version.not_masked_of_none htable)
  | some table =>
    rcases version.masked_cases htable h with ⟨_, -, -, -, -, hlt⟩ |
      ⟨index, content, hcont, hcovers, -⟩
    · exact hlt
    · exact Nat.lt_of_lt_of_le hcovers.2
        ((version.separate member hmember table htable).within index content hcont)

/-! ### The fingerprint -/

variable {ranges : List ByteRange}

theorem normalizePatchRanges_eq_some {sorted : List ByteRange} {length : ℕ}
    (h : normalizePatchRanges ranges length = some sorted) :
    InOrder length 0 sorted ∧ ∀ range, range ∈ sorted ↔ range ∈ ranges := by
  unfold normalizePatchRanges at h
  simp only at h
  split at h
  next hsorted =>
    cases h
    refine ⟨hsorted.1, fun range => ?_⟩
    rw [List.mem_insertionSort, List.mem_dedup]
  next => cases h

theorem patchRanges_mem {file : List UInt8} {masks : List MemberMask}
    (h : patchRanges file masks = some ranges) {range : ByteRange} (hrange : range ∈ ranges) :
    ∃ mask ∈ masks, ∃ patched ∈ mask.sections, ∃ found ∈ mask.sectionRanges file patched,
      ∃ inner ∈ found, range = inner.shift mask.member.start := by
  unfold patchRanges at h
  simp only [bind_eq_bind, bind_eq_some_iff] at h
  obtain ⟨groups, hgroups, h⟩ := h
  split at h
  next =>
    cases h
    rw [List.mem_insertionSort] at hrange
    obtain ⟨group, hgroup, hrange⟩ := List.mem_flatten.1 hrange
    obtain ⟨mask, hmask, hread⟩ := exists_of_mapM hgroups hgroup
    simp only [bind_eq_some_iff] at hread
    obtain ⟨lists, hlists, heq⟩ := hread
    cases heq
    obtain ⟨inner, hinner, rfl⟩ := List.mem_map.1 hrange
    obtain ⟨list, hlist, hinner⟩ := List.mem_flatten.1 hinner
    obtain ⟨patched, hpatched, hfound⟩ := exists_of_mapM hlists hlist
    exact ⟨mask, hmask, patched, hpatched, list, hfound, inner, hinner, rfl⟩
  next => cases h

theorem masked_of_covered (h : fingerprintRanges version.file version.masks = some ranges) {q : ℕ}
    (hq : Covered ranges q) :
    ∃ member ∈ version.members, ∃ p, q = member.start + p ∧ version.Masked member p := by
  unfold fingerprintRanges at h
  simp only [bind_eq_bind, bind_eq_some_iff] at h
  obtain ⟨patched, hpatched, h⟩ := h
  obtain ⟨range, hrange, hcovers⟩ := hq
  have hplace : ∀ (mask : MemberMask) (inner : ByteRange), range = inner.shift mask.member.start →
      ∃ p, q = mask.member.start + p ∧ inner.Covers p := by
    rintro mask inner rfl
    have hle : mask.member.start ≤ q := (Nat.le_add_right _ _).trans hcovers.1
    obtain ⟨p, rfl⟩ := Nat.exists_eq_add_of_le hle
    exact ⟨p, rfl, ByteRange.covers_shift.1 hcovers⟩
  rw [(normalizePatchRanges_eq_some h).2, List.mem_append] at hrange
  rcases hrange with hrange | hrange
  · obtain ⟨mask, hmask, patchedSection, hsec, found, hfound, inner, hinner, heq⟩ :=
      patchRanges_mem hpatched hrange
    obtain ⟨p, hp, hinnerCovers⟩ := hplace mask inner heq
    exact ⟨mask.member, version.mask_member mask hmask, p, hp, .inr ⟨mask, hmask, rfl, patchedSection,
      hsec, found, hfound, inner, hinner, hinnerCovers⟩⟩
  · obtain ⟨mask, hmask, hrange⟩ := List.mem_flatMap.1 hrange
    obtain ⟨inner, hinner, heq⟩ := List.mem_map.1 hrange
    obtain ⟨p, hp, hinnerCovers⟩ := hplace mask inner heq.symm
    exact ⟨mask.member, version.mask_member mask hmask, p, hp,
      .inl ⟨mask, hmask, rfl, inner, hinner, hinnerCovers⟩⟩

theorem masked_of_covered_member (h : fingerprintRanges version.file version.masks = some ranges)
    (hmember : member ∈ version.members) (hp : p < member.stop - member.start)
    (hcovered : Covered ranges (member.start + p)) : version.Masked member p := by
  obtain ⟨other, hother, p', heq, hmasked⟩ := version.masked_of_covered h hcovered
  have hlt := version.masked_lt hother hmasked
  have hin : member.Covers (member.start + p) := ⟨Nat.le_add_right _ _, by omega⟩
  have hin' : other.Covers (member.start + p) := by
    rw [heq]
    exact ⟨Nat.le_add_right _ _, by omega⟩
  rcases pairwise_eq_or version.members_apart hmember hother with rfl | hapart | hapart
  · have hp' : p' = p := by omega
    rw [← hp']
    exact hmasked
  · exact absurd hin' (hapart _ hin)
  · exact absurd hin (hapart _ hin')

end InputVersion

/-! ## One fingerprint -/

section

variable {format : ArchiveFormat} {kind : InputKind}

/-- An object file is the same in two versions but for what was blanked out: the
size fields of patched sections, their contents, and what was recorded of the
other sections. -/
structure SameButMasked (previous current : InputVersion format kind) (member : ByteRange) :
    Prop where
  table : headerTable (memberBytes previous.file member) =
    headerTable (memberBytes current.file member)
  count : ∀ table, headerTable (memberBytes previous.file member) = some table →
    table.sectionCount (memberBytes previous.file member) =
      table.sectionCount (memberBytes current.file member)
  headers : ∀ table, headerTable (memberBytes previous.file member) = some table →
    ∀ index < table.sectionCount (memberBytes previous.file member),
      Agree (memberBytes previous.file member) (memberBytes current.file member) fun p =>
        (table.headerRange index).Covers p ∧ ((table.sizeField index).Covers p →
          ¬previous.Patches member index ∧ ¬current.Patches member index)
  contents : ∀ table, headerTable (memberBytes previous.file member) = some table →
    ∀ index, ¬previous.Patches member index → ¬current.Patches member index →
      table.content (memberBytes previous.file member) index =
        table.content (memberBytes current.file member) index ∧
      ∀ content ∈ table.content (memberBytes previous.file member) index,
        Agree (memberBytes previous.file member) (memberBytes current.file member) fun p =>
          content.Covers p ∧ ¬previous.Recorded member p ∧ ¬current.Recorded member p

variable {previous current : InputVersion format kind} {member : ByteRange}

section

variable {table : HeaderTable}
  (htable : headerTable (memberBytes previous.file member) = some table)
  (htable' : headerTable (memberBytes current.file member) = some table)
  (hseparate : table.Separate (memberBytes previous.file member))
  (hseparate' : table.Separate (memberBytes current.file member))
  (h : Agree (memberBytes previous.file member) (memberBytes current.file member) fun p =>
    ¬previous.Masked member p ∧ ¬current.Masked member p)

variable {version : InputVersion format kind}

theorem InputVersion.patches_of_masked
    (htable : headerTable (memberBytes version.file member) = some table)
    (hseparate : table.Separate (memberBytes version.file member)) {index p : ℕ}
    (hindex : index < max (table.sectionCount (memberBytes version.file member)) 1)
    (hp : (table.headerRange index).Covers p) (hmasked : version.Masked member p) :
    index < table.count ∧ version.Patches member index ∧ (table.sizeField index).Covers p := by
  rcases version.masked_cases htable hmasked with ⟨other, hother, hpatches, hfield, hcovers, -⟩ |
    ⟨other, content, hcont, hcovers, -⟩
  · rw [Elf.HeaderTable.headerRange_index_eq hp hcovers]
    exact ⟨hother, hpatches, hfield⟩
  · exact absurd hp (hseparate.headers_contents other content hcont index hindex p hcovers)

include htable htable' hseparate hseparate' h

theorem sectionCount_eq (hbytes : (memberBytes previous.file member).length =
      (memberBytes current.file member).length) :
    table.sectionCount (memberBytes previous.file member) =
      table.sectionCount (memberBytes current.file member) := by
  have hfirst : ¬(table.count ≠ 0 ∨ table.offset = 0) →
      table.sectionHeader (memberBytes previous.file member) 0 =
        table.sectionHeader (memberBytes current.file member) 0 := by
    intro hcount
    refine Elf.HeaderTable.sectionHeader_congr hbytes fun p hp => h p ⟨fun hmasked => ?_, fun hmasked => ?_⟩
    · have hlt := (InputVersion.patches_of_masked htable hseparate (by omega) hp hmasked).1
      exact hcount (.inl (by omega))
    · have hlt := (InputVersion.patches_of_masked htable' hseparate' (by omega) hp hmasked).1
      exact hcount (.inl (by omega))
  unfold HeaderTable.sectionCount
  split
  · rfl
  next hcount => rw [hfirst hcount]

theorem headers_agree (hcount : table.sectionCount (memberBytes previous.file member) =
      table.sectionCount (memberBytes current.file member)) :
    ∀ index < table.sectionCount (memberBytes previous.file member),
      Agree (memberBytes previous.file member) (memberBytes current.file member) fun p =>
        (table.headerRange index).Covers p ∧ ((table.sizeField index).Covers p →
          ¬previous.Patches member index ∧ ¬current.Patches member index) := by
  rintro index hindex p ⟨hp, hunpatched⟩
  refine h p ⟨fun hmasked => ?_, fun hmasked => ?_⟩
  · obtain ⟨-, hpatches, hfield⟩ :=
      InputVersion.patches_of_masked htable hseparate (by omega) hp hmasked
    exact (hunpatched hfield).1 hpatches
  · obtain ⟨-, hpatches, hfield⟩ :=
      InputVersion.patches_of_masked htable' hseparate' (by omega) hp hmasked
    exact (hunpatched hfield).2 hpatches

omit htable htable' hseparate hseparate' h in
/-- In the content of a section that is not patched, only what was recorded is
blanked out. -/
theorem InputVersion.recorded_of_masked
    (htable : headerTable (memberBytes version.file member) = some table)
    (hseparate : table.Separate (memberBytes version.file member)) {index p : ℕ}
    {content : ByteRange}
    (hcont : content ∈ table.content (memberBytes version.file member) index)
    (hunpatched : ¬version.Patches member index) (hp : content.Covers p)
    (hmasked : version.Masked member p) : version.Recorded member p := by
  rcases version.masked_cases htable hmasked with ⟨other, hother, -, -, hcovers, -⟩ |
    ⟨other, otherContent, hother, hcovers, hcases⟩
  · have hlt : other < max (table.sectionCount (memberBytes version.file member)) 1 := by
      unfold HeaderTable.sectionCount
      rw [if_pos (.inl (by omega))]
      omega
    exact absurd hcovers (hseparate.headers_contents index content hcont other hlt p hp)
  · rcases eq_or_ne index other with rfl | hne
    · exact hcases.resolve_left hunpatched
    · exact absurd hcovers (hseparate.contents index content hcont other otherContent hother
        hne p hp)

theorem contents_agree (hbytes : (memberBytes previous.file member).length =
      (memberBytes current.file member).length)
    (hcount : table.sectionCount (memberBytes previous.file member) =
      table.sectionCount (memberBytes current.file member)) :
    ∀ index, ¬previous.Patches member index → ¬current.Patches member index →
      table.content (memberBytes previous.file member) index =
        table.content (memberBytes current.file member) index ∧
      ∀ content ∈ table.content (memberBytes previous.file member) index,
        Agree (memberBytes previous.file member) (memberBytes current.file member) fun p =>
          content.Covers p ∧ ¬previous.Recorded member p ∧ ¬current.Recorded member p := by
  intro index hprev hcur
  have hcont : table.content (memberBytes previous.file member) index =
      table.content (memberBytes current.file member) index := by
    unfold HeaderTable.content
    rw [← hcount]
    split
    next hindex =>
      rw [Elf.HeaderTable.sectionHeader_congr hbytes fun p hp =>
        headers_agree htable htable' hseparate hseparate' h hcount index hindex p
          ⟨hp, fun _ => ⟨hprev, hcur⟩⟩]
    next => rfl
  refine ⟨hcont, fun content hmem p hp => ?_⟩
  obtain ⟨hcovers, hrecorded, hrecorded'⟩ := hp
  refine h p ⟨fun hmasked => hrecorded ?_, fun hmasked => hrecorded' ?_⟩
  · exact InputVersion.recorded_of_masked htable hseparate hmem hprev hcovers hmasked
  · exact InputVersion.recorded_of_masked htable' hseparate' (hcont ▸ hmem) hcur hcovers hmasked

end

theorem sameButMasked_of_agree (hprev : member ∈ previous.members) (hcur : member ∈ current.members)
    (h : Agree (memberBytes previous.file member) (memberBytes current.file member) fun p =>
      ¬previous.Masked member p ∧ ¬current.Masked member p) :
    SameButMasked previous current member := by
  have hbytes : (memberBytes previous.file member).length =
      (memberBytes current.file member).length := by
    rw [previous.length_memberBytes hprev, current.length_memberBytes hcur]
  have htables : headerTable (memberBytes previous.file member) =
      headerTable (memberBytes current.file member) :=
    Elf.headerTable_eq_of_agree hbytes h (fun p hp => previous.not_masked_header hprev hp)
      fun p hp => current.not_masked_header hcur hp
  cases htable : headerTable (memberBytes previous.file member) with
  | none =>
    refine ⟨htables, ?_, ?_, ?_⟩ <;> intro table hsome <;> rw [htable] at hsome <;> cases hsome
  | some table =>
    have htable' : headerTable (memberBytes current.file member) = some table :=
      htables.symm.trans htable
    have hseparate := previous.separate member hprev table htable
    have hseparate' := current.separate member hcur table htable'
    have hcount := sectionCount_eq htable htable' hseparate hseparate' h hbytes
    have hheaders := headers_agree htable htable' hseparate hseparate' h hcount
    have hcontents := contents_agree htable htable' hseparate hseparate' h hbytes hcount
    refine ⟨htables, ?_, ?_, ?_⟩ <;> intro table' hsome <;> rw [htable] at hsome <;> cases hsome
    · exact hcount
    · exact hheaders
    · exact hcontents

theorem agree_of_fingerprint {hashBytes : List UInt8 → Text}
    (hinjective : Function.Injective hashBytes) {stored : Text} {ranges otherRanges : List ByteRange}
    (hranges : fingerprintRanges previous.file previous.masks = some ranges)
    (hotherRanges : fingerprintRanges current.file current.masks = some otherRanges)
    (hprev : fingerprint hashBytes previous.file previous.masks = some stored)
    (hcur : fingerprint hashBytes current.file current.masks = some stored) :
    previous.file.length = current.file.length ∧ Agree previous.file current.file fun q =>
      ¬Covered ranges q ∧ ¬Covered otherRanges q := by
  have horder : ∀ {version : InputVersion format kind} {ranges : List ByteRange},
      fingerprintRanges version.file version.masks = some ranges →
      InOrder version.file.length 0 ranges := by
    intro version ranges h
    unfold fingerprintRanges at h
    simp only [bind_eq_bind, bind_eq_some_iff] at h
    obtain ⟨patched, -, h⟩ := h
    exact (InputVersion.normalizePatchRanges_eq_some h).1
  unfold fingerprint at hprev hcur
  rw [hranges] at hprev
  rw [hotherRanges] at hcur
  have hmasked : masked previous.file 0 ranges = masked current.file 0 otherRanges :=
    hinjective ((some.inj hprev).trans (some.inj hcur).symm)
  exact Store.agree_of_masked_eq (horder hranges) (horder hotherRanges) hmasked

theorem members_eq_of_agree {ranges otherRanges : List ByteRange}
    (hranges : fingerprintRanges previous.file previous.masks = some ranges)
    (hotherRanges : fingerprintRanges current.file current.masks = some otherRanges)
    (hlen : previous.file.length = current.file.length)
    (h : Agree previous.file current.file fun q =>
      ¬Covered ranges q ∧ ¬Covered otherRanges q) : previous.members = current.members := by
  have houtside : ∀ {version : InputVersion format kind} {ranges : List ByteRange},
      fingerprintRanges version.file version.masks = some ranges →
      ∀ q, ¬Covered version.members q → ¬Covered ranges q := by
    intro version ranges hfound q hq hcovered
    obtain ⟨member, hmember, p, rfl, hmasked⟩ := version.masked_of_covered hfound hcovered
    have hlt := version.masked_lt hmember hmasked
    exact hq ⟨member, hmember, Nat.le_add_right _ _, by omega⟩
  have hfound := previous.members_eq
  have hfound' := current.members_eq
  cases kind with
  | object =>
    unfold objectFiles at hfound hfound'
    rw [hlen] at hfound
    exact some.inj (hfound.symm.trans hfound')
  | archive =>
    refine format.same _ _ _ _ hfound hfound' hlen fun q hq => h q ⟨?_, ?_⟩
    · exact houtside hranges q hq.1
    · exact houtside hotherRanges q hq.2

/-- Two versions of an input with one fingerprint are of one length, have the same
object files, and in each of them the same headers and the same sections but for
what was blanked out. -/
theorem fingerprints_agree {hashBytes : List UInt8 → Text}
    (hinjective : Function.Injective hashBytes) {stored : Text}
    (hprev : fingerprint hashBytes previous.file previous.masks = some stored)
    (hcur : fingerprint hashBytes current.file current.masks = some stored) :
    previous.file.length = current.file.length ∧ previous.members = current.members ∧
      ∀ member ∈ previous.members, SameButMasked previous current member := by
  cases hranges : fingerprintRanges previous.file previous.masks with
  | none =>
    unfold fingerprint at hprev
    rw [hranges] at hprev
    cases hprev
  | some ranges =>
    cases hotherRanges : fingerprintRanges current.file current.masks with
    | none =>
      unfold fingerprint at hcur
      rw [hotherRanges] at hcur
      cases hcur
    | some otherRanges =>
      obtain ⟨hlen, hagree⟩ :=
        agree_of_fingerprint hinjective hranges hotherRanges hprev hcur
      have hmembers := members_eq_of_agree hranges hotherRanges hlen hagree
      refine ⟨hlen, hmembers, fun member hmember => ?_⟩
      have hmember' : member ∈ current.members := hmembers ▸ hmember
      refine sameButMasked_of_agree hmember hmember' fun p hp => ?_
      rcases Nat.lt_or_ge p (member.stop - member.start) with hlt | hge
      · unfold memberBytes
        rw [Store.getElem?_part hlt, Store.getElem?_part hlt]
        refine hagree _ ⟨fun hcovered => hp.1 ?_, fun hcovered => hp.2 ?_⟩
        · exact previous.masked_of_covered_member hranges hmember hlt hcovered
        · exact current.masked_of_covered_member hotherRanges hmember' hlt hcovered
      · rw [List.getElem?_eq_none (previous.length_memberBytes hmember ▸ hge),
          List.getElem?_eq_none (current.length_memberBytes hmember' ▸ hge)]

end

/-! ## A section that changed -/

/-- An object file with one section of four bytes, before and after a change. -/
def oneSection (changed : Bool) : List UInt8 :=
  [0x7f, 0x45, 0x4c, 0x46, 2, 1, 1] ++ List.replicate 33 0 ++ [68, 0, 0, 0, 0, 0, 0, 0] ++
    List.replicate 10 0 ++ [64, 0, 2, 0, 0, 0] ++
    (if changed then [5, 6, 7, 8] else [1, 2, 3, 4]) ++ List.replicate 64 0 ++
    [0, 0, 0, 0, 1, 0, 0, 0] ++ List.replicate 16 0 ++ [64, 0, 0, 0, 0, 0, 0, 0] ++
    [4, 0, 0, 0, 0, 0, 0, 0] ++ List.replicate 24 0

def oneSectionMember : ByteRange := ⟨0, 196⟩

def oneSectionTable : HeaderTable := ⟨.elf64, 68, 64, 2⟩

def oneSectionMask : MemberMask := ⟨oneSectionMember, [⟨1, 4⟩], [], [], [], []⟩

theorem oneSection_member : ∀ changed,
    memberBytes (oneSection changed) oneSectionMember = oneSection changed := by decide +kernel

theorem oneSection_table : ∀ changed,
    headerTable (oneSection changed) = some oneSectionTable := by decide +kernel

theorem oneSection_contents : ∀ changed,
    oneSectionTable.content (oneSection changed) 0 = some ⟨0, 0⟩ ∧
      oneSectionTable.content (oneSection changed) 1 = some ⟨64, 68⟩ := by decide +kernel

/-- The fingerprint of both: the section and its size are left out. -/
def oneSectionFingerprint : Text :=
  Text.hexEncode (masked (oneSection false) 0 [⟨64, 68⟩, ⟨164, 172⟩])

theorem oneSection_fingerprint : ∀ changed,
    fingerprint Text.hexEncode (oneSection changed) [oneSectionMask] =
      some oneSectionFingerprint := by
  decide +kernel

theorem oneSection_content {changed : Bool} {index : ℕ} {range : ByteRange}
    (h : oneSectionTable.content (oneSection changed) index = some range) :
    range = ⟨0, 0⟩ ∨ index = 1 ∧ range = ⟨64, 68⟩ := by
  obtain ⟨hzero, hone⟩ := oneSection_contents changed
  rcases index with _ | _ | index
  · rw [hzero] at h
    exact .inl (some.inj h).symm
  · rw [hone] at h
    exact .inr ⟨rfl, (some.inj h).symm⟩
  · unfold HeaderTable.content at h
    cases h

theorem oneSection_separate (changed : Bool) : oneSectionTable.Separate (oneSection changed) where
  within := by
    intro index range hrange
    have hlen : (oneSection changed).length = 196 := by
      cases changed <;> rfl
    rcases oneSection_content hrange with rfl | ⟨rfl, rfl⟩
    · exact Nat.zero_le _
    · rw [hlen]
      decide
  header_headers := by
    intro index _ p hp
    exact show 64 ≤ p from (show 64 ≤ 68 + index * 64 by omega).trans hp.1
  header_contents := by
    intro index range hrange p hp
    rcases oneSection_content hrange with rfl | ⟨rfl, rfl⟩
    · exact absurd hp.2 (Nat.not_lt_zero _)
    · exact hp.1
  headers_contents := by
    intro index range hrange other _ p hp hp'
    have hstart : 68 + other * 64 ≤ p := hp'.1
    rcases oneSection_content hrange with rfl | ⟨rfl, rfl⟩
    · exact absurd hp.2 (Nat.not_lt_zero _)
    · have hstop : p < 68 := hp.2
      omega
  contents := by
    intro index range hrange other otherRange hother hne p hp hp'
    rcases oneSection_content hrange with rfl | ⟨rfl, rfl⟩
    · exact absurd hp.2 (Nat.not_lt_zero _)
    · rcases oneSection_content hother with rfl | ⟨rfl, rfl⟩
      · exact absurd hp'.2 (Nat.not_lt_zero _)
      · exact hne rfl

/-- No archive. -/
def noArchives : ArchiveFormat where
  members := fun _ => none
  within := fun _ _ h => by cases h
  apart := fun _ _ h => by cases h
  same := fun _ _ _ _ h => by cases h

def oneSectionVersion (changed : Bool) : InputVersion noArchives .object where
  file := oneSection changed
  members := [oneSectionMember]
  masks := [oneSectionMask]
  members_eq := by
    have hlen : (oneSection changed).length = 196 := by
      cases changed <;> rfl
    unfold objectFiles
    rw [hlen]
    rfl
  mask_member := by
    intro mask hmask
    rw [List.mem_singleton.1 hmask]
    exact List.mem_singleton.2 rfl
  separate := by
    intro member hmember table htable
    rw [List.mem_singleton.1 hmember, oneSection_member] at htable ⊢
    rw [oneSection_table] at htable
    cases htable
    exact oneSection_separate changed
  frames := by
    intro mask hmask fde hfde
    rw [List.mem_singleton.1 hmask] at hfde
    cases hfde

theorem hexEncode_injective : Function.Injective Text.hexEncode := by
  intro bytes other h
  have hdecode := congrArg Text.hexDecode h
  rw [Text.hexDecode_hexEncode, Text.hexDecode_hexEncode] at hdecode
  exact some.inj hdecode

theorem oneSectionVersion_fingerprint (changed : Bool) :
    fingerprint Text.hexEncode (oneSectionVersion changed).file (oneSectionVersion changed).masks =
      some oneSectionFingerprint := oneSection_fingerprint changed

theorem oneSection_versions_agree :
    SameButMasked (oneSectionVersion false) (oneSectionVersion true) oneSectionMember := by
  obtain ⟨-, -, h⟩ := fingerprints_agree hexEncode_injective (oneSectionVersion_fingerprint false)
    (oneSectionVersion_fingerprint true)
  exact h oneSectionMember (List.mem_singleton.2 rfl)

end Sld.Incremental.Masks
